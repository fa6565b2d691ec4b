import ReimsVgpu.Fifo.Handlers

/-!
# What the command handlers read

Whatever the outside answers, a handler reads each field inside its payload, and hands on the records that
the payload has, as many as the guest counted. A command of one size reads below the size it checked. A
list's check covers the list, an exec's both lists, one behind the other, and the property loop keeps the
size left at the payload's length less its cursor.

## Main definitions

* `propertyAt`: where each property starts.
* `Event.Inside`, `Call.Inside`: what may be logged of a payload.

## Main results

* `keeps_checked`: commands of one size.
* `keeps_resourceList`, `keeps_exec`, `wp_setPropertiesLoop`: those with lists.
* `dispatch_reads_inside`: every command.
-/

namespace ReimsVgpu.Fifo.Commands

open Effect ReimsVgpu.Fifo.Commands.Command

/-- Where each property's record starts, one behind the other. -/
def propertyAt (p : Payload) : ℕ → ℕ
  | 0 => 8
  | i + 1 => propertyAt p i + 8 + 4 * (p.u32 (propertyAt p i + 4)).toNat

/-- The loop has gone through every property, and has the rest of the payload left. -/
structure PropertiesEnd.Consumed (p : Payload) (fin : PropertiesEnd) : Prop where
  index : fin.index = p.u32 4
  cursor : fin.cursor.toNat = propertyAt p (p.u32 4).toNat
  inside : fin.cursor.toNat ≤ p.bytes.length
  size : fin.size.toNat = p.bytes.length - fin.cursor.toNat

/-- The records that a call hands on are those that the payload has for it. -/
def Call.Inside (p : Payload) : Call → Prop
  | .setProperty _ property words => ∃ i < (p.u32 4).toNat,
      property = (p.u32 (propertyAt p i)).toInt32 ∧
        Handed p words (propertyAt p i + 8) (p.u32 (propertyAt p i + 4))
  | .invalidateResources _ records _ => Handed p records 8 (p.u32 4)
  | .synchronizeResources _ records _ _ => Handed p records 8 (p.u32 4)
  | .discardResources _ records _ => Handed p records 8 (p.u32 4)
  | .execIndirect2 _ args _ => Handed p args.resources 12 (p.u32 4) ∧
      Handed p args.cmdBuffers (12 + (p.u32 4).toNat * 24) (p.u32 8)
  | .execIndirect3 _ args _ => Handed p args.resources 12 (p.u32 4) ∧
      Handed p args.cmdBuffers (12 + (p.u32 4).toNat * 8) (p.u32 8)
  | .infoIndirect _ args _ => Handed p args.resources 12 (p.u32 4) ∧
      Handed p args.cmdBuffers (12 + (p.u32 4).toNat * 8) (p.u32 8)
  | .heapTextureSizeAndAlign _ serialized _ _ _ =>
      24 + (p.u32 20).toNat ≤ p.bytes.length ∧
        serialized = (p.bytes.drop 24).take (p.u32 20).toNat
  | _ => True

/-- What a handler may log of a payload. -/
def Event.Inside (p : Payload) : Event → Prop
  | .read bytes off size => bytes <:+ p.bytes ∧ off + size ≤ bytes.length
  | .called call => call.Inside p
  | .turn index cursor size => index ≤ p.u32 4 ∧ cursor.toNat = propertyAt p index.toNat ∧
      cursor.toNat ≤ p.bytes.length ∧ size.toNat = p.bytes.length - cursor.toNat
  | .dumped _ => True
  | .caught _ => True

/-- A call that hands no records on. -/
@[simp]
def Call.Plain : Call → Prop
  | .setProperty _ _ _ => False
  | .invalidateResources _ _ _ => False
  | .synchronizeResources _ _ _ _ => False
  | .discardResources _ _ _ => False
  | .execIndirect2 _ _ _ => False
  | .execIndirect3 _ _ _ => False
  | .infoIndirect _ _ _ => False
  | .heapTextureSizeAndAlign _ _ _ _ _ => False
  | _ => True

/-- What a handler logs that reads the payload's first bytes only. -/
@[simp]
def Event.Below (p : Payload) (n : ℕ) : Event → Prop
  | .read bytes off size => bytes = p.bytes ∧ off + size ≤ n
  | .called call => call.Plain
  | .turn _ _ _ => False
  | .dumped _ => True
  | .caught _ => True

theorem Call.Plain.inside {call : Call} (h : call.Plain) (p : Payload) : call.Inside p := by
  cases call <;> first | exact h.elim | trivial

theorem Event.Below.inside {p : Payload} {n : ℕ} {e : Event} (h : e.Below p n)
    (hn : n ≤ p.bytes.length) : e.Inside p := by
  cases e with
  | read bytes off size =>
    obtain ⟨rfl, hle⟩ := h
    exact ⟨List.suffix_rfl, hle.trans hn⟩
  | called call => exact Call.Plain.inside h p
  | turn index cursor size => exact h.elim
  | dumped bytes => trivial
  | caught r => trivial

variable {σ α : Type} {host : Host σ} {c : Command} {E : Event → Prop} {Q : α → σ → Prop}
  {R : Stop → σ → Prop} {s : σ}

/-! ### The shared operations -/

-- a lookup is its calls
attribute [simp] ask features task userTask kernelTask guestDisplay completion signal

@[simp]
theorem wp_raise (kind : RaiseKind) (detail : String) :
    wp E (raise kind detail) Q R s ↔ R (.raised (.fifo kind detail)) s := by
  rw [raise, wp_stop]

@[simp]
theorem wp_orRaise (r : Except Raise α) : wp E (orRaise r) Q R s ↔
    (∀ a, r = .ok a → Q a s) ∧ ∀ e, r = .error e → R (.raised e) s := by
  cases r <;> simp [orRaise]

@[simp]
theorem wp_u8 (p : Payload) (off : ℕ) {Q : UInt8 → σ → Prop} :
    wp E (u8 p off) Q R s ↔ E (.read p.bytes off 1) ∧ Q (p.u8 off) s := by
  simp only [u8, wp_bind, wp_log, wp_pure]

@[simp]
theorem wp_u16 (p : Payload) (off : ℕ) {Q : UInt16 → σ → Prop} :
    wp E (u16 p off) Q R s ↔ E (.read p.bytes off 2) ∧ Q (p.u16 off) s := by
  simp only [u16, wp_bind, wp_log, wp_pure]

@[simp]
theorem wp_u32 (p : Payload) (off : ℕ) {Q : UInt32 → σ → Prop} :
    wp E (u32 p off) Q R s ↔ E (.read p.bytes off 4) ∧ Q (p.u32 off) s := by
  simp only [u32, wp_bind, wp_log, wp_pure]

@[simp]
theorem wp_u64 (p : Payload) (off : ℕ) {Q : UInt64 → σ → Prop} :
    wp E (u64 p off) Q R s ↔ E (.read p.bytes off 8) ∧ Q (p.u64 off) s := by
  simp only [u64, wp_bind, wp_log, wp_pure]

@[simp]
theorem wp_device {Q : Unit → σ → Prop} :
    wp E (device host) Q R s ↔ E (.called .device) ∧
      if (host .device s).1 then Q () (host .device s).2 else R .died (host .device s).2 := by
  simp only [device, ask, wp_bind, wp_log, wp_ask, wp_ite, wp_pure, wp_stop]

/-- A size that is checked is there, or the check raises. -/
@[simp]
theorem wp_checkSizeOf (bytes : Payload) (size : UInt64) (expected : UInt32) {Q : Unit → σ → Prop} :
    wp E (checkSizeOf bytes size expected) Q R s ↔
      if size.toNat < expected.toNat then
        E (.dumped (bytes.bytes.take (min size.toNat 64))) ∧
          R (.raised (.fifo .commandLength
            s!"a payload of {size} bytes, shorter than the command's {expected}")) s
      else Q () s := by
  have hlt : size < expected.toUInt64 ↔ size.toNat < expected.toNat := by
    rw [UInt64.lt_iff_toNat_lt, UInt32.toNat_toUInt64]
  simp only [checkSizeOf, dump, wp_ite, wp_bind, wp_log, wp_raise, wp_pure, hlt]

@[simp]
theorem wp_checkSize (expected : UInt32) {Q : Unit → σ → Prop} :
    wp E (c.checkSize expected) Q R s ↔
      if c.payload.bytes.length < expected.toNat then
        E (.dumped (c.payload.bytes.take (min c.payload.bytes.length 64))) ∧
          R (.raised (.fifo .commandLength
            s!"a payload of {c.payload.len} bytes, shorter than the command's {expected}")) s
      else Q () s := by
  rw [checkSize, wp_checkSizeOf, Payload.toNat_len]

theorem wp_fClass {body : Handler σ α} {Q : Option α → σ → Prop} :
    wp E (c.fClass host body) Q R s ↔ wp E body (fun a s => Q (some a) s) (fun e s =>
      match e with
      | .raised r => E (.caught r) ∧ E (.called (.faultAtStampValue c.stamp)) ∧
          Q none (host (.faultAtStampValue c.stamp) s).2
      | .died => R .died s) s := by
  rw [fClass, wp_bind, wp_attempt]
  refine ⟨fun h => h.imp (fun _ => id) (fun _ _ h => ?_) fun e _ h => ?_,
    fun h => h.imp (fun _ => id) (fun _ _ h => ?_) fun e _ h => ?_⟩
  · rwa [wp_pure] at h
  · cases e <;> simpa [fCaught, ask] using h
  · rwa [wp_pure]
  · cases e <;> simpa [fCaught, ask] using h

theorem wp_sClass {body : Effect σ Event (Stop × UInt64) α} {Q : Unit → σ → Prop} :
    wp E (c.sClass host body) Q R s ↔ wp E body
      (fun _ s => E (.called (.signalStampValue c.stamp)) ∧ Q () (host (.signalStampValue c.stamp) s).2)
      (fun (e, size) s =>
        match e with
        | .raised r => E (.caught r) ∧ E (.dumped (c.payload.bytes.take (min size.toNat 64))) ∧
            E (.called (.signalStampValue c.stamp)) ∧ Q () (host (.signalStampValue c.stamp) s).2
        | .died => R .died s) s := by
  rw [sClass, wp_bind, wp_attempt]
  refine ⟨fun h => h.imp (fun _ => id) (fun _ _ h => ?_) fun e _ h => ?_,
    fun h => h.imp (fun _ => id) (fun _ _ h => ?_) fun e _ h => ?_⟩
  · simpa [signal, ask] using h
  · obtain ⟨_ | _, size⟩ := e <;> simpa [sCaught, dump, signal, ask] using h
  · simpa [signal, ask] using h
  · obtain ⟨_ | _, size⟩ := e <;> simpa [sCaught, dump, signal, ask] using h

/-! ### Commands of one size -/

theorem keeps_features : Keeps (Event.Inside c.payload) (features host) := fun s => by
  simp [Event.Inside, Call.Inside]

theorem keeps_gate {b : Prop} [Decidable b] {kind : RaiseKind} {detail : String}
    {m : Handler σ α} {f : Unit → Handler σ α} (h : Keeps E m) :
    Keeps E (if b then raise kind detail >>= f else m) := fun s => by
  rw [wp_ite]
  split
  · simp
  · exact h s

theorem Keeps.bind {β : Type} {m : Handler σ α} {f : α → Handler σ β} (h : Keeps E m)
    (hf : ∀ a, Keeps E (f a)) : Keeps E (m >>= f) := fun s => by
  rw [wp_bind]
  exact h.wp (fun a s => hf a s) fun _ _ => trivial

theorem keeps_fClass {body : Handler σ α} (h : Keeps (Event.Inside c.payload) body) :
    Keeps (Event.Inside c.payload) (c.fClass host body) := fun s =>
  wp_fClass.mpr (h.wp (fun _ _ => trivial) fun e _ => by
    cases e <;> simp [Event.Inside, Call.Inside])

theorem keeps_sClass {body : Effect σ Event (Stop × UInt64) α}
    (h : Keeps (Event.Inside c.payload) body) :
    Keeps (Event.Inside c.payload) (c.sClass host body) := fun s =>
  wp_sClass.mpr (h.wp (fun _ _ => by simp [Event.Inside, Call.Inside]) fun e _ => by
    obtain ⟨_ | _, size⟩ := e <;> simp [Event.Inside, Call.Inside])

theorem keeps_withSize {size : UInt64} {body : Handler σ α} (h : Keeps E body) :
    Keeps E (withSize size body) := fun s => (wp_mapError _).mpr (h s)

/-- What reads below a checked size reads inside the payload. -/
theorem keeps_checked {n : UInt32} {f : Unit → Handler σ α}
    (h : Keeps (Event.Below c.payload n.toNat) (f ())) :
    Keeps (Event.Inside c.payload) (c.checkSize n >>= f) := fun s => by
  rw [wp_bind, wp_checkSize]
  split
  · exact ⟨trivial, trivial⟩
  · next hsize =>
    exact (h s).imp (fun e he => he.inside (not_lt.mp hsize)) (fun _ _ => id) fun _ _ => id

theorem keeps_setSharedStatePage : Keeps (Event.Inside c.payload) (setSharedStatePage host c) :=
  keeps_fClass (keeps_checked fun s => by simp)

theorem keeps_ack : Keeps (Event.Inside c.payload) (ack host c) :=
  keeps_fClass (keeps_checked fun s => by simp)

theorem keeps_cursorGlyph : Keeps (Event.Inside c.payload) (cursorGlyph host c) :=
  keeps_fClass <| keeps_checked <| Keeps.bind (fun s => by simp) fun port =>
    Keeps.bind (fun s => by simp) fun display => Keeps.bind (fun s => by simp) fun task =>
      keeps_gate fun s => by simp

theorem keeps_cursorShow : Keeps (Event.Inside c.payload) (cursorShow host c) :=
  keeps_fClass (keeps_checked fun s => by simp)

theorem keeps_transaction2 : Keeps (Event.Inside c.payload) (transaction2 host c) :=
  keeps_fClass (keeps_checked fun s => by simp)

theorem keeps_transaction3 : Keeps (Event.Inside c.payload) (transaction3 host c) :=
  keeps_sClass (keeps_withSize (keeps_checked fun s => by simp))

theorem keeps_swapMapping : Keeps (Event.Inside c.payload) (swapMapping host c) :=
  keeps_sClass (keeps_withSize (Keeps.bind keeps_features fun _ =>
    keeps_gate (keeps_checked fun s => by simp)))

theorem keeps_sleepState : Keeps (Event.Inside c.payload) (sleepState host c) :=
  keeps_fClass (Keeps.bind keeps_features fun _ => keeps_gate (keeps_checked fun s => by simp))

theorem keeps_compositorParameters :
    Keeps (Event.Inside c.payload) (compositorParameters host c) :=
  keeps_fClass (Keeps.bind keeps_features fun _ => keeps_gate (keeps_checked fun s => by simp))

theorem keeps_setGuestIccProfile : Keeps (Event.Inside c.payload) (setGuestIccProfile host c) :=
  keeps_sClass (keeps_withSize (Keeps.bind keeps_features fun _ =>
    keeps_gate (keeps_checked fun s => by simp)))

theorem keeps_deleteTask : Keeps (Event.Inside c.payload) (deleteTask host c) :=
  keeps_fClass (keeps_checked fun s => by simp)

theorem keeps_unmapMemory : Keeps (Event.Inside c.payload) (unmapMemory host c) :=
  keeps_fClass (keeps_checked fun s => by simp)

theorem keeps_deleteResource : Keeps (Event.Inside c.payload) (deleteResource host c) :=
  keeps_fClass (keeps_checked fun s => by simp)

theorem keeps_deleteObject : Keeps (Event.Inside c.payload) (deleteObject host c) :=
  keeps_fClass (keeps_checked fun s => by
    rw [wp_bind, wp_u32]
    refine ⟨⟨rfl, by decide⟩, ?_⟩
    generalize overflowingAdd (c.payload.u32 8) 4 = sum
    obtain ⟨length, overflow⟩ := sum
    simp)

theorem keeps_setObjectList (a : Memory.Arch) :
    Keeps (Event.Inside c.payload) (setObjectList host c a) :=
  keeps_fClass (keeps_checked fun s => by simp)

theorem keeps_deleteIosurfaceBacking :
    Keeps (Event.Inside c.payload) (deleteIosurfaceBacking host c) :=
  keeps_fClass (keeps_checked fun s => by simp)

theorem keeps_defineTask : Keeps (Event.Inside c.payload) (defineTask host c) :=
  keeps_fClass (keeps_checked fun s => by simp)

theorem keeps_mapMemory : Keeps (Event.Inside c.payload) (mapMemory host c) :=
  keeps_fClass (keeps_checked fun s => by simp)

theorem keeps_getComputeInfo : Keeps (Event.Inside c.payload) (getComputeInfo host c) :=
  keeps_fClass (keeps_checked fun s => by simp)

theorem keeps_replacePhysical : Keeps (Event.Inside c.payload) (replacePhysical host c) :=
  keeps_fClass (keeps_checked fun s => by simp)

theorem keeps_deleteSharedTextureBacking :
    Keeps (Event.Inside c.payload) (deleteSharedTextureBacking host c) :=
  keeps_fClass (keeps_checked fun s => by simp)

theorem keeps_resetRasterizationRateMap :
    Keeps (Event.Inside c.payload) (resetRasterizationRateMap host c) :=
  keeps_fClass (keeps_checked fun s => by simp)

theorem keeps_setObjectAndPlacementList :
    Keeps (Event.Inside c.payload) (setObjectAndPlacementList host c) :=
  keeps_fClass (Keeps.bind keeps_features fun _ => keeps_gate (keeps_checked fun s => by simp))

theorem keeps_refused : Keeps (Event.Inside c.payload) (refused host c) := fun s => by
  simp [refused, dump, Event.Inside, Call.Inside]

theorem keeps_debug : Keeps (Event.Inside c.payload) (debug host c) :=
  keeps_fClass (keeps_checked fun s => by simp)

theorem keeps_nop : Keeps (Event.Inside c.payload) (nop host c) := fun s => by
  simp [nop, Event.Inside, Call.Inside]

theorem keeps_delay : Keeps (Event.Inside c.payload) (delay host c) :=
  keeps_fClass fun s => by simp [Event.Inside]

theorem keeps_isRootFifo : Keeps (Event.Inside c.payload) (ask host .isRootFifo) := fun s => by
  simp [Event.Inside, Call.Inside]

theorem keeps_defineChildFifo : Keeps (Event.Inside c.payload) (defineChildFifo host c) :=
  keeps_fClass (Keeps.bind keeps_isRootFifo fun _ => keeps_gate (keeps_checked fun s => by simp))

theorem keeps_deleteChildFifo : Keeps (Event.Inside c.payload) (deleteChildFifo host c) :=
  keeps_fClass (Keeps.bind keeps_isRootFifo fun _ => keeps_gate (keeps_checked fun s => by simp))

theorem keeps_getDeviceInfo : Keeps (Event.Inside c.payload) (getDeviceInfo host c) :=
  keeps_fClass (keeps_checked fun s => by simp)

/-! ### Resource lists -/

theorem toNat_exact {a b c : UInt32} (h : ¬ UInt32.toUInt64 0xffffffff < a.toUInt64 * b.toUInt64 + c.toUInt64) :
    (a.toUInt64 * b.toUInt64 + c.toUInt64).toUInt32.toNat = a.toNat * b.toNat + c.toNat := by
  have ha := a.toNat_lt
  have hb := b.toNat_lt
  have hc := c.toNat_lt
  have hprod : a.toNat * b.toNat ≤ (2 ^ 32 - 1) * (2 ^ 32 - 1) :=
    Nat.mul_le_mul (by omega) (by omega)
  have hexact : (a.toUInt64 * b.toUInt64 + c.toUInt64).toNat = a.toNat * b.toNat + c.toNat := by
    rw [UInt64.toNat_add, UInt64.toNat_mul, UInt32.toNat_toUInt64, UInt32.toNat_toUInt64,
      UInt32.toNat_toUInt64]
    omega
  rw [UInt64.lt_iff_toNat_lt, hexact] at h
  rw [UInt64.toNat_toUInt32, hexact]
  have hmax : (UInt32.toUInt64 0xffffffff).toNat = 2 ^ 32 - 1 := rfl
  exact Nat.mod_eq_of_lt (by omega)

theorem toNat_of_mulAddOverflows {a b c l : UInt32} (h : mulAddOverflows a b c = (l, false)) :
    l.toNat = a.toNat * b.toNat + c.toNat := by
  obtain ⟨rfl, hfits⟩ := Prod.mk.inj h
  exact toNat_exact (of_decide_eq_false hfits)

/-- A resource list that its check passes is all in the payload. -/
theorem wp_checkResourceList {record : UInt32} {command : ListCommand} {Q : UInt32 → σ → Prop}
    (hQ : ∀ s, 8 + (c.payload.u32 4).toNat * record.toNat ≤ c.payload.bytes.length →
      Q (c.payload.u32 4) s) (hR : ∀ e s, R e s) :
    wp (Event.Inside c.payload) (checkResourceList c record command) Q R s := by
  rw [checkResourceList, wp_bind, wp_checkSize]
  split
  · exact ⟨trivial, hR _ _⟩
  · next hsize =>
    rw [wp_bind, wp_u32]
    refine ⟨⟨List.suffix_rfl, not_lt.mp hsize⟩, ?_⟩
    rcases hlength : mulAddOverflows (c.payload.u32 4) record 8 with ⟨length, overflow⟩
    dsimp only
    cases overflow with
    | true => simpa using hR _ _
    | false =>
      have hexact := toNat_of_mulAddOverflows hlength
      rw [if_neg Bool.false_ne_true, wp_bind, wp_checkSize]
      split
      · exact ⟨trivial, hR _ _⟩
      · next hroom =>
        rw [wp_pure]
        refine hQ s ?_
        rw [hexact] at hroom
        have height : (8 : UInt32).toNat = 8 := rfl
        omega

/-- A list command hands on the whole list. -/
theorem keeps_resourceList (T : Type) [Record T] {record : UInt32} {command : ListCommand}
    (hrecord : record.toNat = Record.size T) {f : UInt32 → Task → Completion → Handler σ Unit}
    (hf : ∀ task done, Handed c.payload (c.payload.records 8 (c.payload.u32 4) : Records T) 8
      (c.payload.u32 4) → Keeps (Event.Inside c.payload) (f (c.payload.u32 4) task done)) :
    Keeps (Event.Inside c.payload) (do
      let count ← checkResourceList c record command
      let task ← task host (← u32 c.payload 0)
      let done ← c.completion host
      f count task done) := fun s => by
  rw [wp_bind]
  refine wp_checkResourceList (fun s hroom => ?_) fun _ _ => trivial
  rw [hrecord] at hroom
  have hhanded := handed_records (T := T) hroom
  rw [wp_bind, wp_u32]
  refine ⟨⟨List.suffix_rfl, by omega⟩, ?_⟩
  have hlookup : Keeps (Event.Inside c.payload) (task host (c.payload.u32 0)) := fun s => by
    simp [Event.Inside, Call.Inside]
  have hdone : Keeps (Event.Inside c.payload) (c.completion host) := fun s => by
    simp [Event.Inside, Call.Inside]
  exact (Keeps.bind hlookup fun task => Keeps.bind hdone fun done => hf task done hhanded) s

theorem keeps_invalidateResources :
    Keeps (Event.Inside c.payload) (invalidateResources host c) :=
  keeps_fClass (keeps_resourceList ResourceInvalidation rfl fun task done hhanded s => by
    simp [Event.Inside, Call.Inside, hhanded])

theorem keeps_synchronizeResources :
    Keeps (Event.Inside c.payload) (synchronizeResources host c) :=
  keeps_fClass (keeps_resourceList ResourceReference rfl fun task done hhanded s => by
    simp [Event.Inside, Call.Inside, hhanded])

theorem keeps_synchronizeAndDiscardResources :
    Keeps (Event.Inside c.payload) (synchronizeAndDiscardResources host c) :=
  keeps_fClass <| Keeps.bind keeps_features fun _ => keeps_gate <|
    keeps_resourceList ResourceReference rfl fun task done hhanded s => by
      simp [Event.Inside, Call.Inside, hhanded]

theorem keeps_discardResources : Keeps (Event.Inside c.payload) (discardResources host c) :=
  keeps_fClass <| Keeps.bind keeps_features fun _ => keeps_gate <|
    keeps_resourceList ResourceReference rfl fun task done hhanded s => by
      simp [Event.Inside, Call.Inside, hhanded]

/-! ### Sums and products that are checked -/

theorem toNat_of_overflowingMul {a b l : UInt32} (h : overflowingMul a b = (l, false)) :
    l = a * b ∧ l.toNat = a.toNat * b.toNat := by
  obtain ⟨rfl, hfits⟩ := Prod.mk.inj h
  have hlt := not_le.mp (of_decide_eq_false hfits)
  exact ⟨rfl, (UInt32.toNat_mul a b).trans (Nat.mod_eq_of_lt hlt)⟩

theorem toNat_of_overflowingAdd {a b l : UInt32} (h : overflowingAdd a b = (l, false)) :
    l.toNat = a.toNat + b.toNat := by
  obtain ⟨rfl, hfits⟩ := Prod.mk.inj h
  have hlt := not_le.mp (of_decide_eq_false hfits)
  exact (UInt32.toNat_add a b).trans (Nat.mod_eq_of_lt hlt)

theorem toNat_of_add3Overflows {a b c l : UInt32} (h : add3Overflows a b c = (l, false)) :
    l.toNat = a.toNat + b.toNat + c.toNat := by
  have ha := a.toNat_lt
  have hb := b.toNat_lt
  have hc := c.toNat_lt
  obtain ⟨rfl, hfits⟩ := Prod.mk.inj h
  have hfits := of_decide_eq_false hfits
  have hexact : (a.toUInt64 + b.toUInt64 + c.toUInt64).toNat = a.toNat + b.toNat + c.toNat := by
    rw [UInt64.toNat_add, UInt64.toNat_add, UInt32.toNat_toUInt64, UInt32.toNat_toUInt64,
      UInt32.toNat_toUInt64]
    omega
  rw [UInt64.lt_iff_toNat_lt, hexact] at hfits
  have hmax : (UInt32.toUInt64 0xffffffff).toNat = 2 ^ 32 - 1 := rfl
  rw [UInt64.toNat_toUInt32, hexact]
  exact Nat.mod_eq_of_lt (by omega)

/-! ### A heap texture -/

theorem keeps_heapTextureSizeAndAlign :
    Keeps (Event.Inside c.payload) (heapTextureSizeAndAlign host c) := by
  refine keeps_fClass (Keeps.bind keeps_features fun _ => keeps_gate fun s => ?_)
  rw [wp_bind, wp_checkSize]
  split
  · exact ⟨trivial, trivial⟩
  · next hsize =>
    have h24 : 24 ≤ c.payload.bytes.length := not_lt.mp hsize
    dsimp only
    rw [wp_bind, wp_u32]
    refine ⟨⟨List.suffix_rfl, h24⟩, ?_⟩
    rcases hlength : overflowingAdd (c.payload.u32 20) 24 with ⟨length, overflow⟩
    dsimp only
    cases overflow with
    | true => simp
    | false =>
      have hexact : length.toNat = (c.payload.u32 20).toNat + 24 := toNat_of_overflowingAdd hlength
      rw [if_neg Bool.false_ne_true, wp_bind, wp_checkSize]
      split
      · exact ⟨trivial, trivial⟩
      · next hroom =>
        rw [hexact, not_lt] at hroom
        have hserialized : slice c.payload 24 length.toNat =
            (c.payload.bytes.drop 24).take (c.payload.u32 20).toNat := by
          rw [slice, hexact, if_pos ⟨by omega, hroom⟩, Nat.add_sub_cancel]
        have h4 : 4 ≤ c.payload.bytes.length := by omega
        have h12 : 4 + 8 ≤ c.payload.bytes.length := by omega
        have h20 : 12 + 8 ≤ c.payload.bytes.length := by omega
        simp [Event.Inside, Call.Inside, hserialized, h4, h12, h20]
        omega

/-! ### The exec commands -/

theorem toNat_of_execLengths {kind : Kind} {resources buffers l length : UInt32}
    (h : execLengths kind resources buffers = (l, length, false)) :
    (resources * kind.record).toNat = resources.toNat * kind.record.toNat ∧
      length.toNat = 12 + resources.toNat * kind.record.toNat + buffers.toNat * 16 := by
  rw [execLengths] at h
  rcases hresources : overflowingMul resources kind.record with ⟨resourcesLength, overflow⟩
  rw [hresources] at h
  dsimp only at h
  cases overflow with
  | true => simp at h
  | false =>
    obtain ⟨rfl, hexact⟩ := toNat_of_overflowingMul hresources
    rcases hbuffers : overflowingMul buffers 16 with ⟨buffersLength, overflow⟩
    rw [hbuffers] at h
    dsimp only at h
    cases overflow with
    | true => simp at h
    | false =>
      obtain ⟨-, hbuffersLength⟩ := toNat_of_overflowingMul hbuffers
      rw [if_neg Bool.false_ne_true, if_neg Bool.false_ne_true] at h
      rcases hsum : add3Overflows 12 (resources * kind.record) buffersLength with ⟨sum, overflow⟩
      rw [hsum] at h
      obtain ⟨-, hrest⟩ := Prod.mk.inj h
      obtain ⟨rfl, rfl⟩ := Prod.mk.inj hrest
      have htotal := toNat_of_add3Overflows hsum
      rw [hexact, hbuffersLength] at htotal
      exact ⟨hexact, htotal⟩

/-- What the checks of an exec leave: the counts, whose records the payload has. -/
theorem wp_prologue (kind : Kind) (s : σ) :
    wp (Event.Inside c.payload) (prologue host c kind) (fun (_, resources, buffers) _ =>
      resources = c.payload.u32 4 ∧ buffers = c.payload.u32 8 ∧
        (resources * kind.record).toNat = resources.toNat * kind.record.toNat ∧
        12 + resources.toNat * kind.record.toNat + buffers.toNat * 16 ≤ c.payload.bytes.length)
      (fun _ _ => True) s := by
  have hgated : Keeps (Event.Inside c.payload) (kind.gated host) := fun s => by
    cases kind <;> simp [Kind.gated, Event.Inside, Call.Inside]
  rw [prologue, wp_bind]
  refine (hgated s).imp (fun _ => id) (fun gated s _ => ?_) fun _ _ => id
  cases gated with
  | false => simp
  | true =>
    rw [if_neg (by decide), wp_bind, wp_checkSize]
    split
    · exact ⟨trivial, trivial⟩
    · next hsize =>
      have h12 : 12 ≤ c.payload.bytes.length := not_lt.mp hsize
      rw [wp_bind, wp_u32]
      refine ⟨⟨List.suffix_rfl, by omega⟩, ?_⟩
      by_cases hzero : c.payload.u32 0 = 0
      · simp [hzero]
      · rw [if_neg hzero, wp_bind, wp_u32]
        refine ⟨⟨List.suffix_rfl, by omega⟩, ?_⟩
        rw [wp_bind, wp_u32]
        refine ⟨⟨List.suffix_rfl, by omega⟩, ?_⟩
        rcases hlengths : execLengths kind (c.payload.u32 4) (c.payload.u32 8) with
          ⟨buffersLength, length, overflow⟩
        dsimp only
        cases overflow with
        | true => simp
        | false =>
          obtain ⟨hexact, htotal⟩ := toNat_of_execLengths hlengths
          rw [if_neg Bool.false_ne_true, wp_bind, wp_checkSize]
          split
          · exact ⟨trivial, trivial⟩
          · next hroom =>
            rw [htotal, not_lt] at hroom
            have hlookup : Keeps (Event.Inside c.payload) (userTask host (c.payload.u32 0)) :=
              fun s => by simp [Event.Inside, Call.Inside]
            rw [wp_bind]
            refine (hlookup s).imp (fun _ => id) (fun task s _ => ?_) fun _ _ => id
            rw [wp_pure]
            exact ⟨rfl, rfl, hexact, hroom⟩

/-- An exec hands on both lists, one behind the other. -/
theorem keeps_exec {T : Type} [Record T] {kind : Kind} (hrecord : kind.record.toNat = Record.size T)
    {call : Task → ExecArgs T → Completion → Handler σ (Except Raise Unit)}
    (hcall : ∀ task args done, Handed c.payload args.resources 12 (c.payload.u32 4) →
      Handed c.payload args.cmdBuffers (12 + (c.payload.u32 4).toNat * kind.record.toNat)
        (c.payload.u32 8) → Keeps (Event.Inside c.payload) (call task args done)) :
    Keeps (Event.Inside c.payload) (exec host c kind call) := fun s => by
  rw [exec, wp_bind, wp_fClass]
  refine (wp_prologue kind s).imp (fun _ => id) ?_ fun e s _ => ?_
  · rintro ⟨task, resources, buffers⟩ s ⟨rfl, rfl, hexact, hroom⟩
    dsimp only [records]
    rw [hexact]
    have hdone : Keeps (Event.Inside c.payload) (c.completion host) := fun s => by
      simp [Event.Inside, Call.Inside]
    have hstamp : Keeps (Event.Inside c.payload) (ask host .stampIndex) := fun s => by
      simp [Event.Inside, Call.Inside]
    have hevent : Keeps (Event.Inside c.payload) (ask host .fifoEvent) := fun s => by
      simp [Event.Inside, Call.Inside]
    refine Keeps.bind hdone (fun done => Keeps.bind hstamp fun stampIndex =>
      Keeps.bind hevent fun fifoEvent => Keeps.bind (hcall _ _ _ ?_ ?_) fun r s => ?_) s
    · refine handed_records ?_
      rw [← hrecord]
      exact (Nat.le_add_right _ _).trans hroom
    · exact handed_records hroom
    · cases r <;> simp
  · cases e <;> simp [Event.Inside, Call.Inside]

theorem keeps_execIndirect2 : Keeps (Event.Inside c.payload) (execIndirect2 host c) :=
  keeps_exec rfl fun task args done hresources hbuffers s => by
    simp only [ask, wp_bind, wp_log, wp_ask, and_true]
    exact ⟨hresources, hbuffers⟩

theorem keeps_execIndirect3 : Keeps (Event.Inside c.payload) (execIndirect3 host c) :=
  keeps_exec rfl fun task args done hresources hbuffers s => by
    simp only [ask, wp_bind, wp_log, wp_ask, and_true]
    exact ⟨hresources, hbuffers⟩

theorem keeps_infoIndirect : Keeps (Event.Inside c.payload) (infoIndirect host c) :=
  keeps_exec rfl fun task args done hresources hbuffers s => by
    simp only [ask, wp_bind, wp_log, wp_ask, and_true]
    exact ⟨hresources, hbuffers⟩

/-! ### The property loop -/

theorem tail_u32 (p : Payload) (k off : ℕ) : (p.tail k).u32 off = p.u32 (k + off) := by
  have hat : (p.tail k).at' off 4 = p.at' (k + off) 4 := by
    unfold Payload.at' Payload.tail
    rw [List.length_drop, List.drop_drop]
    by_cases h : k + off + 4 ≤ p.bytes.length
    · rw [if_pos h, if_pos (by omega)]
    · rw [if_neg h, if_neg (by omega)]
  rw [Payload.u32, hat, Payload.u32]

theorem tail_records (p : Payload) (k off : ℕ) (count : UInt32) :
    ((p.tail k).records off count : Records UInt32) = p.records (k + off) count := by
  have htail : ((p.tail k).tail off).bytes = (p.tail (k + off)).bytes := List.drop_drop
  rw [Payload.records, htail, Payload.records]

theorem le_propertyAt (p : Payload) (i : ℕ) : 8 ≤ propertyAt p i := by
  cases i with
  | zero => exact le_rfl
  | succ i =>
    rw [propertyAt]
    omega

variable {display : GuestDisplay} {totalSize size cursor : UInt64} {index : UInt32}

/-- One property, whose record starts at the cursor and is all in the payload. -/
theorem wp_setProperty (hindex : index < c.payload.u32 4)
    (hcursor : cursor.toNat = propertyAt c.payload index.toNat)
    (hle : cursor.toNat ≤ c.payload.bytes.length)
    (hsize : size.toNat = c.payload.bytes.length - cursor.toNat) (s : σ) :
    wp (Event.Inside c.payload) (setProperty host c display totalSize size cursor)
      (fun consumed _ => consumed.toNat =
        8 + 4 * (c.payload.u32 (propertyAt c.payload index.toNat + 4)).toNat ∧
        cursor.toNat + consumed.toNat ≤ c.payload.bytes.length) (fun _ _ => True) s := by
  have htail : (c.payload.tail cursor.toNat).bytes.length =
      c.payload.bytes.length - cursor.toNat := List.length_drop
  have hsuffix : (c.payload.tail cursor.toNat).bytes <:+ c.payload.bytes := List.drop_suffix _ _
  rw [setProperty]
  dsimp only
  rw [wp_bind, wp_checkSizeOf]
  split
  · exact ⟨trivial, trivial⟩
  · next hheader =>
    have h8 : 8 ≤ size.toNat := not_lt.mp hheader
    rw [wp_bind, wp_u32]
    refine ⟨⟨hsuffix, by omega⟩, ?_⟩
    rw [wp_bind, wp_u32]
    refine ⟨⟨hsuffix, by omega⟩, ?_⟩
    rw [tail_u32, tail_u32, tail_records, hcursor, Nat.add_zero]
    rcases hlength : mulAddOverflows (c.payload.u32 (propertyAt c.payload index.toNat + 4)) 4 8 with
      ⟨length, overflow⟩
    dsimp only
    cases overflow with
    | true => simp
    | false =>
      have hexact : length.toNat =
          (c.payload.u32 (propertyAt c.payload index.toNat + 4)).toNat * 4 + 8 :=
        toNat_of_mulAddOverflows hlength
      rw [if_neg Bool.false_ne_true, wp_bind, wp_checkSizeOf]
      split
      · exact ⟨trivial, trivial⟩
      · next hroom =>
        have hinside : propertyAt c.payload index.toNat + 8 +
            (c.payload.u32 (propertyAt c.payload index.toNat + 4)).toNat * 4 ≤
              c.payload.bytes.length := by omega
        simp only [ask, wp_bind, wp_log, wp_ask, wp_orRaise, wp_pure]
        refine ⟨⟨index.toNat, UInt32.lt_iff_toNat_lt.mp hindex, rfl, handed_records hinside⟩,
          fun _ _ => ⟨by omega, by omega⟩, fun _ _ => trivial⟩

/-- The loop goes through the properties one behind the other, with the size left of the payload. -/
theorem wp_setPropertiesLoop (hindex : index ≤ c.payload.u32 4)
    (hcursor : cursor.toNat = propertyAt c.payload index.toNat)
    (hle : cursor.toNat ≤ c.payload.bytes.length)
    (hsize : size.toNat = c.payload.bytes.length - cursor.toNat) (s : σ) :
    wp (Event.Inside c.payload) (setPropertiesLoop host c display totalSize size cursor index)
      (fun fin _ => fin.Consumed c.payload) (fun _ _ => True) s := by
  induction size, cursor, index using setPropertiesLoop.induct c generalizing s with
  | case1 size cursor index ih =>
    have hread : 4 + 4 ≤ c.payload.bytes.length := by
      have hfirst : 8 ≤ propertyAt c.payload index.toNat := le_propertyAt c.payload index.toNat
      omega
    rw [setPropertiesLoop, wp_bind, withSize, wp_mapError, wp_bind, wp_log]
    refine ⟨⟨hindex, hcursor, hle, hsize⟩, ?_⟩
    rw [wp_discard, wp_u32]
    refine ⟨⟨List.suffix_rfl, hread⟩, ?_⟩
    by_cases hlt : index < c.payload.u32 4
    · have hnext := toNat_succ hlt
      rw [dif_pos hlt, wp_bind, withSize, wp_mapError]
      refine (wp_setProperty hlt hcursor hle hsize s).imp (fun _ => id) ?_ fun _ _ => id
      rintro consumed s ⟨hconsumed, hroom⟩
      have hpayload := c.payload.fits
      have hadd : (cursor + consumed.toUInt64).toNat = cursor.toNat + consumed.toNat := by
        rw [UInt64.toNat_add, UInt32.toNat_toUInt64]
        omega
      have hsub : (size - consumed.toUInt64).toNat = size.toNat - consumed.toNat := by
        rw [UInt64.toNat_sub_of_le _ _ (UInt64.le_iff_toNat_le.mpr (by
          rw [UInt32.toNat_toUInt64]
          omega)), UInt32.toNat_toUInt64]
      refine ih hlt consumed (UInt32.le_iff_toNat_le.mpr ?_) ?_ ?_ ?_ s
      · rw [hnext]
        exact UInt32.lt_iff_toNat_lt.mp hlt
      · rw [hadd, hnext, propertyAt, hconsumed, hcursor]
        omega
      · omega
      · omega
    · have hend : index = c.payload.u32 4 := UInt32.le_antisymm hindex (UInt32.not_lt.mp hlt)
      rw [dif_neg hlt, wp_pure]
      exact ⟨hend, by rw [hcursor, hend], hle, hsize⟩

theorem toNat_len_sub_eight {p : Payload} (h : 8 ≤ p.bytes.length) :
    (p.len - 8).toNat = p.bytes.length - 8 := by
  have hle : (8 : UInt64) ≤ p.len := UInt64.le_iff_toNat_le.mpr (by rwa [Payload.toNat_len])
  rw [UInt64.toNat_sub_of_le _ _ hle, Payload.toNat_len]
  rfl

/-- The loop from its start, in a payload that has the property list's header. -/
theorem wp_properties (h : 8 ≤ c.payload.bytes.length) (s : σ) :
    wp (Event.Inside c.payload)
      (setPropertiesLoop host c display c.payload.len (c.payload.len - 8) 8 0)
      (fun fin _ => fin.Consumed c.payload) (fun _ _ => True) s := by
  have hstart : (8 : UInt64).toNat ≤ c.payload.bytes.length := h
  exact wp_setPropertiesLoop (UInt32.le_iff_toNat_le.mpr (Nat.zero_le _)) rfl hstart
    (toNat_len_sub_eight h) s

theorem keeps_setProperties : Keeps (Event.Inside c.payload) (setProperties host c) := by
  refine keeps_sClass fun s => ?_
  dsimp only
  rw [wp_bind, withSize, wp_mapError, wp_bind]
  refine (keeps_features s).imp (fun _ => id) (fun features s _ => ?_) fun _ _ => id
  cases features.displaySetProperties with
  | false => simp
  | true =>
    rw [if_neg (by decide), wp_checkSize]
    split
    · exact ⟨trivial, trivial⟩
    · next hsize =>
      have h8 : 8 ≤ c.payload.bytes.length := not_lt.mp hsize
      have hlookup : Keeps (Event.Inside c.payload)
          (do guestDisplay host (← u32 c.payload 0)) := fun s => by
        simp [Event.Inside, Call.Inside]
        omega
      rw [wp_bind, withSize, wp_mapError]
      refine (hlookup s).imp (fun _ => id) (fun display s _ => ?_) fun _ _ => id
      rw [wp_discard]
      exact (wp_properties h8 s).imp (fun _ => id) (fun _ _ _ => trivial) fun _ _ => id

/-! ### Every command -/

theorem keeps_discard {m : Handler σ α} (h : Keeps E m) : Keeps E (discard m) := fun s =>
  wp_discard.mpr (h s)

theorem keeps_dispatch (a : Memory.Arch) : Keeps (Event.Inside c.payload) (dispatch host c a) := by
  rw [dispatch]
  cases Opcode.fromId c.header.commandId with
  | none => exact keeps_refused
  | some op =>
    cases op with
    | deprecated => exact keeps_refused
    | debug => exact keeps_discard keeps_debug
    | displaySetSharedStatePage => exact keeps_discard keeps_setSharedStatePage
    | displayAck => exact keeps_discard keeps_ack
    | displayCursorGlyph => exact keeps_discard keeps_cursorGlyph
    | displayCursorShow => exact keeps_discard keeps_cursorShow
    | displayTransaction2 => exact keeps_discard keeps_transaction2
    | displayTransaction3 => exact keeps_transaction3
    | displaySwapMapping => exact keeps_swapMapping
    | displaySleepState => exact keeps_discard keeps_sleepState
    | displaySetProperties => exact keeps_setProperties
    | displayCompositorParameters => exact keeps_discard keeps_compositorParameters
    | displaySetGuestIccProfile => exact keeps_setGuestIccProfile
    | nop => exact keeps_nop
    | deleteTask => exact keeps_discard keeps_deleteTask
    | unmapMemory => exact keeps_discard keeps_unmapMemory
    | deleteResource => exact keeps_discard keeps_deleteResource
    | deleteObject => exact keeps_discard keeps_deleteObject
    | defineChildFifo => exact keeps_discard keeps_defineChildFifo
    | deleteChildFifo => exact keeps_discard keeps_deleteChildFifo
    | setObjectList => exact keeps_discard (keeps_setObjectList a)
    | invalidateResources => exact keeps_discard keeps_invalidateResources
    | synchronizeResources => exact keeps_discard keeps_synchronizeResources
    | deleteIoSurfaceBacking2 => exact keeps_discard keeps_deleteIosurfaceBacking
    | execIndirect2 => exact keeps_execIndirect2
    | defineTask2 => exact keeps_discard keeps_defineTask
    | mapMemory2 => exact keeps_discard keeps_mapMemory
    | getDeviceInfo => exact keeps_discard keeps_getDeviceInfo
    | getComputeInfo => exact keeps_discard keeps_getComputeInfo
    | replacePhysical => exact keeps_discard keeps_replacePhysical
    | delay => exact keeps_discard keeps_delay
    | synchronizeAndDiscardResources => exact keeps_discard keeps_synchronizeAndDiscardResources
    | discardResources => exact keeps_discard keeps_discardResources
    | heapTextureSizeAndAlign => exact keeps_discard keeps_heapTextureSizeAndAlign
    | deleteSharedTextureBacking => exact keeps_discard keeps_deleteSharedTextureBacking
    | resetRasterizationRateMap => exact keeps_discard keeps_resetRasterizationRateMap
    | execIndirect3 => exact keeps_execIndirect3
    | setObjectAndPlacementList => exact keeps_discard keeps_setObjectAndPlacementList
    | infoIndirect => exact keeps_infoIndirect

/-- Every command, of every opcode and payload, reads its payload inside it and hands on the records that
it has, and the property loop, where it returns, has gone through every property. -/
theorem dispatch_reads_inside (host : Host σ) (a : Memory.Arch) (c : Command) (s : σ) :
    (∀ e ∈ (dispatch host c a s).2.1, e.Inside c.payload) ∧
      ∀ display fin, 8 ≤ c.payload.bytes.length →
        (setPropertiesLoop host c display c.payload.len (c.payload.len - 8) 8 0 s).1 = .ok fin →
        fin.Consumed c.payload := by
  refine ⟨fun e he => (keeps_dispatch a).mem he, fun display fin hlength hfin => ?_⟩
  have hwp : wp (Event.Inside c.payload)
      (setPropertiesLoop host c display c.payload.len (c.payload.len - 8) 8 0)
      (fun fin _ => fin.Consumed c.payload) (fun _ _ => True) s := wp_properties hlength s
  obtain ⟨-, hend⟩ := hwp
  rw [hfin] at hend
  exact hend

end ReimsVgpu.Fifo.Commands
