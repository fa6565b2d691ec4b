import ReimsVgpu.Memory.Cursor
import ReimsVgpu.Library.Execution

/-!
# Cursors refine flat positions

A list of host ranges is one sequence of bytes. A flat cursor is a window of it and an offset in the
window; the operations on it are those of a byte sequence. Every run of operations on the cursors of
a list of ranges gives the replies of the same run on flat cursors, and leaves the memory that run
leaves.

## Main definitions

* `addresses`: the addresses of the ranges' bytes, in order.
* `FlatCursor`: a window of the bytes, and an offset in it.
* `Op`, `Cursors.exec`, `FlatCursors.exec`: the operations, on cursors and on flat cursors.

## Main results

* `transfer_spec`, `transferAt_spec`: what the loops copy.
* `cursors_refine`: the refinement.
-/

namespace ReimsVgpu.Memory

/-! ### The bytes of the ranges -/

/-- The addresses of the ranges' bytes, in order. -/
def addresses (ranges : List CursorRange) : List UInt64 :=
  ranges.flatMap fun r => span r.address r.length.toNat

/-- The ranges' length. -/
def totalLength (ranges : List CursorRange) : ℕ := (ranges.map fun r => r.length.toNat).sum

/-- The bytes of the ranges. -/
def flatten (memory : HostMemory) (ranges : List CursorRange) : List UInt8 :=
  (addresses ranges).map memory

@[simp]
theorem length_span (address : UInt64) (n : ℕ) : (span address n).length = n := by
  rw [span, List.length_map, List.length_range]

theorem addresses_cons (r : CursorRange) (rs : List CursorRange) :
    addresses (r :: rs) = span r.address r.length.toNat ++ addresses rs := rfl

theorem addresses_append (rs rs' : List CursorRange) :
    addresses (rs ++ rs') = addresses rs ++ addresses rs' := List.flatMap_append

theorem totalLength_cons (r : CursorRange) (rs : List CursorRange) :
    totalLength (r :: rs) = r.length.toNat + totalLength rs := List.sum_cons

theorem totalLength_append (rs rs' : List CursorRange) :
    totalLength (rs ++ rs') = totalLength rs + totalLength rs' := by
  rw [totalLength, List.map_append, List.sum_append]
  rfl

@[simp]
theorem length_addresses (ranges : List CursorRange) :
    (addresses ranges).length = totalLength ranges := by
  induction ranges with
  | nil => rfl
  | cons r rs ih => rw [addresses_cons, List.length_append, length_span, ih, totalLength_cons]

theorem span_add (address : UInt64) (k n : ℕ) :
    span address (k + n) = span address k ++ span (address + UInt64.ofNat k) n := by
  rw [span, span, span, List.range_add, List.map_append, List.map_map]
  refine congrArg _ (List.map_congr_left fun i _ => ?_)
  rw [Function.comp_apply, UInt64.ofNat_add, UInt64.add_assoc]

theorem span_drop (address : UInt64) {n k : ℕ} (hk : k ≤ n) :
    (span address n).drop k = span (address + UInt64.ofNat k) (n - k) := by
  obtain ⟨m, rfl⟩ := Nat.exists_eq_add_of_le hk
  rw [span_add, List.drop_left' (length_span address k), Nat.add_sub_cancel_left]

theorem span_take (address : UInt64) {n k : ℕ} (hk : k ≤ n) :
    (span address n).take k = span address k := by
  obtain ⟨m, rfl⟩ := Nat.exists_eq_add_of_le hk
  rw [span_add, List.take_left' (length_span address k)]

/-- The addresses from an offset in the first range on. -/
theorem addresses_drop_of_le {r : CursorRange} {rs : List CursorRange} {o : UInt64}
    (ho : o.toNat ≤ r.length.toNat) :
    (addresses (r :: rs)).drop o.toNat =
      span (r.address + o) (r.length.toNat - o.toNat) ++ addresses rs := by
  rw [addresses_cons, List.drop_append_of_le_length (by simpa using ho), span_drop _ ho,
    UInt64.ofNat_toNat]

theorem addresses_drop_of_ge {r : CursorRange} {rs : List CursorRange} {k : ℕ}
    (hk : r.length.toNat ≤ k) :
    (addresses (r :: rs)).drop k = (addresses rs).drop (k - r.length.toNat) := by
  rw [addresses_cons, List.drop_append, length_span,
    List.drop_eq_nil_of_le (by simpa using hk), List.nil_append]

/-! ### Positions -/

/-- The position is `k` bytes into the ranges, the first of which has index `i`. -/
def LiesAt (ranges : List CursorRange) (i : ℕ) (p : Position) (k : ℕ) : Prop :=
  ∃ before rest, ranges = before ++ rest ∧ p.rangeIndex = i + before.length ∧
    totalLength before + p.rangeOffset.toNat = k ∧ p.rangeOffset.toNat ≤ totalLength (rest.take 1)

theorem liesAt_zero (ranges : List CursorRange) (i : ℕ) : LiesAt ranges i ⟨i, 0⟩ 0 :=
  ⟨[], ranges, rfl, rfl, rfl, Nat.zero_le _⟩

theorem LiesAt.cons {r : CursorRange} {ranges : List CursorRange} {i k : ℕ} {p : Position}
    (h : LiesAt ranges (i + 1) p k) : LiesAt (r :: ranges) i p (r.length.toNat + k) := by
  obtain ⟨before, rest, rfl, hindex, htotal, hle⟩ := h
  refine ⟨r :: before, rest, rfl, ?_, ?_, hle⟩
  · rw [hindex, List.length_cons]
    omega
  · rw [totalLength_cons, Nat.add_assoc, htotal]

/-- A position in the ranges from another position on. -/
theorem LiesAt.trans {ranges : List CursorRange} {p q : Position} {k n : ℕ} (h : LiesAt ranges 0 p k)
    (hq : LiesAt (ranges.drop p.rangeIndex) p.rangeIndex q (p.rangeOffset.toNat + n)) :
    LiesAt ranges 0 q (k + n) := by
  obtain ⟨before, rest, rfl, hindex, htotal, -⟩ := h
  rw [Nat.zero_add] at hindex
  rw [hindex, List.drop_left] at hq
  obtain ⟨before', rest', rfl, hindex', htotal', hle⟩ := hq
  refine ⟨before ++ before', rest', (List.append_assoc _ _ _).symm, ?_, ?_, hle⟩
  · rw [hindex', List.length_append, Nat.zero_add]
  · rw [totalLength_append]
    omega

/-- What the ranges from a position's index on are. -/
theorem LiesAt.suffix {ranges : List CursorRange} {p : Position} {k : ℕ} (h : LiesAt ranges 0 p k) :
    (addresses ranges).drop k =
        (addresses (ranges.drop p.rangeIndex)).drop p.rangeOffset.toNat ∧
      p.rangeOffset.toNat ≤ totalLength ((ranges.drop p.rangeIndex).take 1) ∧
      p.rangeOffset.toNat ≤ k ∧
      totalLength (ranges.drop p.rangeIndex) + k = totalLength ranges + p.rangeOffset.toNat := by
  obtain ⟨before, rest, rfl, hindex, htotal, hle⟩ := h
  rw [Nat.zero_add] at hindex
  rw [hindex, List.drop_left]
  refine ⟨?_, hle, by omega, ?_⟩
  · rw [addresses_append, ← htotal, ← length_addresses before, List.drop_length_add_append]
  · rw [totalLength_append]
    omega

/-! ### Copies -/

/-- An access of a range does not fault. -/
def CursorRange.Accessible (r : CursorRange) : Prop :=
  r.length ≠ 0 → Memory.Accessible r.address r.length

theorem accessible_of_le {r : CursorRange} (h : r.Accessible) {o step : UInt64} (hstep : step ≠ 0)
    (hle : o.toNat + step.toNat ≤ r.length.toNat) : Accessible (r.address + o) step := by
  have hpos : 0 < step.toNat := Nat.pos_of_ne_zero fun hzero => hstep (UInt64.toNat_inj.mp hzero)
  obtain ⟨hzero, htop⟩ := h fun hlength => by
    rw [hlength] at hle
    change _ ≤ 0 at hle
    omega
  have hadd : (r.address + o).toNat = r.address.toNat + o.toNat :=
    UInt64.toNat_add_of_toNat_lt (by omega)
  rw [Memory.Accessible, hadd]
  omega

/-- A copy faults. -/
def Faults (address step : UInt64) : Prop := step ≠ 0 ∧ ¬ Accessible address step

/-- What a copy does: it copies the bytes at a span of addresses, or faults. -/
structure Copies {σ : Type} (copy : σ → UInt64 → UInt64 → Except CursorDeath σ)
    (act : σ → List UInt64 → σ) (room : σ → ℕ) (fault : UInt64 → UInt64 → Prop)
    (death : CursorDeath) : Prop where
  act_nil : ∀ s, act s [] = s
  act_append : ∀ s l l', l.length ≤ room s → act s (l ++ l') = act (act s l) l'
  room_act : ∀ s l, l.length ≤ room s → room (act s l) = room s - l.length
  copy_eq : ∀ s address step, step.toNat ≤ room s →
    copy s address step = .ok (act s (span address step.toNat)) ∨
      fault address step ∧ copy s address step = .error death

/-- The bytes of the addresses, read in order. -/
def Into.read (memory : HostMemory) (into : Into) (l : List UInt64) : Into where
  bytes := into.bytes ++ l.map memory
  room := into.room - l.length

/-- The source, written to the addresses in order. -/
def From.write (source : From) (l : List UInt64) : From where
  memory := store source.memory l (source.bytes.take l.length)
  bytes := source.bytes.drop l.length

theorem store_append (memory : HostMemory) {l : List UInt64} {bytes : List UInt8}
    (h : l.length = bytes.length) (l' : List UInt64) (bytes' : List UInt8) :
    store memory (l ++ l') (bytes ++ bytes') = store (store memory l bytes) l' bytes' := by
  rw [store, List.zip_append h, List.foldl_append]
  rfl

theorem copies_read (memory : HostMemory) :
    Copies (copyTo memory) (Into.read memory) Into.room Faults .readNull where
  act_nil s := by
    rw [Into.read, List.map_nil, List.append_nil]
    rfl
  act_append s l l' _ := by
    rw [Into.read, Into.read, Into.read, List.map_append, List.append_assoc, List.length_append,
      Nat.sub_add_eq]
  room_act s l _ := rfl
  copy_eq s address step hroom := by
    rw [copyTo, if_neg (Nat.not_lt.mpr hroom)]
    by_cases hfault : Faults address step
    · exact .inr ⟨hfault, if_pos hfault⟩
    · refine .inl ((if_neg hfault).trans ?_)
      rw [Into.read, length_span]

theorem copies_write : Copies copyFrom From.write (fun s => s.bytes.length) Faults .writeNull where
  act_nil s := rfl
  act_append s l l' hroom := by
    have htake : l.length = (s.bytes.take l.length).length := by
      rw [List.length_take, Nat.min_eq_left hroom]
    rw [From.write, From.write, From.write, List.length_append, List.take_add,
      store_append _ htake, List.drop_drop]
  room_act s l _ := List.length_drop
  copy_eq s address step hroom := by
    rw [copyFrom, if_neg (Nat.not_lt.mpr hroom)]
    by_cases hfault : Faults address step
    · exact .inr ⟨hfault, if_pos hfault⟩
    · refine .inl ((if_neg hfault).trans ?_)
      rw [From.write, length_span]

/-- A step that copies nothing, as those of `advance`. -/
def copyNone (room : ℕ) (_ step : UInt64) : Except CursorDeath ℕ := .ok (room - step.toNat)

theorem copies_none :
    Copies copyNone (fun room l => room - l.length) id (fun _ _ => False) .readNull where
  act_nil s := Nat.sub_zero s
  act_append s l l' _ := by rw [List.length_append, Nat.sub_add_eq]
  room_act s l _ := rfl
  copy_eq s address step _ := .inl (by rw [copyNone, length_span])

/-! ### The loops -/

section Loops

variable {σ : Type} {copy : σ → UInt64 → UInt64 → Except CursorDeath σ}
  {act : σ → List UInt64 → σ} {room : σ → ℕ} {fault : UInt64 → UInt64 → Prop}
  {death : CursorDeath}

/-- A copy inside one of the ranges faults. -/
def FaultsIn (fault : UInt64 → UInt64 → Prop) (ranges : List CursorRange) : Prop :=
  ∃ r ∈ ranges, ∃ o step : UInt64, o.toNat + step.toNat ≤ r.length.toNat ∧
    fault (r.address + o) step

theorem FaultsIn.cons {r : CursorRange} {rs : List CursorRange} (h : FaultsIn fault rs) :
    FaultsIn fault (r :: rs) := by
  obtain ⟨s, hs, rest⟩ := h
  exact ⟨s, List.mem_cons_of_mem r hs, rest⟩

/-- What one step of a loop takes of the range it is in, and what it leaves. -/
theorem step_toNat (bytes : UInt64) {length o : UInt64} (ho : o.toNat ≤ length.toNat) :
    (min bytes (length - o)).toNat = min bytes.toNat (length.toNat - o.toNat) := by
  have hsub := UInt64.toNat_sub_of_toNat_le ho
  by_cases hle : bytes ≤ length - o
  · rw [UInt64.min_eq_left hle]
    rw [UInt64.le_iff_toNat_le, hsub] at hle
    omega
  · rw [UInt64.min_eq_right hle, hsub]
    rw [UInt64.le_iff_toNat_le, hsub] at hle
    omega

/-- The bytes a step takes of the range it is in, and those it leaves for the next. -/
theorem take_addresses_step {r : CursorRange} {o bytes step : UInt64}
    (ho : o.toNat ≤ r.length.toNat) (hstep : step = min bytes (r.length - o))
    (rs : List CursorRange) :
    ((addresses (r :: rs)).drop o.toNat).take bytes.toNat =
      span (r.address + o) step.toNat ++ (addresses rs).take (bytes - step).toNat := by
  have htoNat := step_toNat bytes ho
  rw [← hstep] at htoNat
  have hsub : (bytes - step).toNat = bytes.toNat - step.toNat :=
    UInt64.toNat_sub_of_toNat_le (by omega)
  rw [addresses_drop_of_le ho, hsub]
  by_cases hle : bytes.toNat ≤ r.length.toNat - o.toNat
  · have hall : step.toNat = bytes.toNat := by omega
    rw [List.take_append_of_le_length (by rwa [length_span]), span_take _ hle, hall, Nat.sub_self,
      List.take_zero, List.append_nil]
  · have hrest : step.toNat = r.length.toNat - o.toNat := by omega
    rw [List.take_append, length_span, List.take_of_length_le (by rw [length_span]; omega), hrest]

theorem transfer_of_bytes_eq_zero {ranges : List CursorRange} {t : Transfer σ} (h : t.bytes = 0) :
    transfer copy ranges t = .ok t := by
  rw [transfer.eq_def, dif_pos h]

/-- The loop from a position copied the next bytes, or a copy faulted. -/
def Transferred (copy : σ → UInt64 → UInt64 → Except CursorDeath σ) (act : σ → List UInt64 → σ)
    (fault : UInt64 → UInt64 → Prop) (death : CursorDeath) (ranges : List CursorRange)
    (t : Transfer σ) : Prop :=
  (∃ p, transfer copy ranges t = .ok
      { toPosition := p
        offset := t.offset + t.bytes
        bytes := 0
        data := act t.data
          (((addresses ranges).drop t.rangeOffset.toNat).take t.bytes.toNat) } ∧
    LiesAt ranges t.rangeIndex p (t.rangeOffset.toNat + t.bytes.toNat)) ∨
  FaultsIn fault ranges ∧ transfer copy ranges t = .error death

theorem transferred_of_bytes_eq_zero (hcopy : Copies copy act room fault death)
    {ranges : List CursorRange} {t : Transfer σ}
    (hoffset : t.rangeOffset.toNat ≤ totalLength (ranges.take 1)) (h : t.bytes = 0) :
    Transferred copy act fault death ranges t := by
  refine .inl ⟨t.toPosition, ?_, [], ranges, rfl, rfl, ?_, hoffset⟩
  · rw [transfer_of_bytes_eq_zero h, h, UInt64.add_zero]
    change _ = Except.ok { t with bytes := 0, data := act t.data (List.take 0 _) }
    rw [List.take_zero, hcopy.act_nil, ← h]
  · rw [h]
    exact Nat.zero_add _

/-- The loop from a position: it copies the next bytes, or a copy faults. -/
theorem transfer_spec (hcopy : Copies copy act room fault death) (ranges : List CursorRange)
    (t : Transfer σ) (hoffset : t.rangeOffset.toNat ≤ totalLength (ranges.take 1))
    (hfits : t.rangeOffset.toNat + t.bytes.toNat ≤ totalLength ranges)
    (hroom : t.bytes.toNat ≤ room t.data) : Transferred copy act fault death ranges t := by
  induction ranges generalizing t with
  | nil =>
    refine transferred_of_bytes_eq_zero hcopy hoffset (UInt64.toNat_inj.mp ?_)
    change _ + _ ≤ 0 at hfits
    change _ = 0
    omega
  | cons r rs ih =>
    by_cases hbytes : t.bytes = 0
    · exact transferred_of_bytes_eq_zero hcopy hoffset hbytes
    have ho : t.rangeOffset.toNat ≤ r.length.toNat := hoffset
    have hr := r.length.toNat_lt
    have hstep := step_toNat t.bytes ho
    set step := min t.bytes (r.length - t.rangeOffset) with hstepdef
    have hadd : (t.rangeOffset + step).toNat = t.rangeOffset.toNat + step.toNat :=
      UInt64.toNat_add_of_toNat_lt (by omega)
    have hsub : (t.bytes - step).toNat = t.bytes.toNat - step.toNat :=
      UInt64.toNat_sub_of_toNat_le (by omega)
    have hspan : (span (r.address + t.rangeOffset) step.toNat).length ≤ room t.data := by
      rw [length_span]
      omega
    have hsum : t.offset + step + (t.bytes - step) = t.offset + t.bytes := by grind
    rw [totalLength_cons] at hfits
    rw [Transferred, transfer, dif_neg hbytes]
    dsimp only
    rw [← hstepdef]
    obtain hok | ⟨hfault, herror⟩ :=
      hcopy.copy_eq t.data (r.address + t.rangeOffset) step (by omega)
    · rw [hok]
      dsimp only
      have hroom' := hcopy.room_act t.data _ hspan
      rw [length_span] at hroom'
      by_cases hend : r.length = t.rangeOffset + step
      · -- the rest is copied from the next ranges on
        have hlength : r.length.toNat = t.rangeOffset.toNat + step.toNat := by rw [hend, hadd]
        have hrest := ih
          { rangeIndex := t.rangeIndex + 1
            rangeOffset := 0
            offset := t.offset + step
            bytes := t.bytes - step
            data := act t.data (span (r.address + t.rangeOffset) step.toNat) }
          (Nat.zero_le _)
          (by
            change 0 + (t.bytes - step).toNat ≤ _
            omega)
          (by
            change (t.bytes - step).toNat ≤ room (act _ _)
            omega)
        rw [dif_pos hend]
        refine Or.imp ?_ ?_ hrest
        · rintro ⟨p, hp, hat⟩
          refine ⟨p, hp.trans ?_, ?_⟩
          · rw [take_addresses_step ho hstepdef, hcopy.act_append _ _ _ hspan, ← hsum]
            rfl
          · have hcons := LiesAt.cons (r := r) hat
            have hk : r.length.toNat + ((0 : UInt64).toNat + (t.bytes - step).toNat) =
                t.rangeOffset.toNat + t.bytes.toNat := by
              change r.length.toNat + (0 + (t.bytes - step).toNat) = _
              omega
            rw [← hk]
            exact hcons
        · rintro ⟨hfaults, herror⟩
          exact ⟨hfaults.cons, herror⟩
      · -- the step took all the bytes
        have hall : step.toNat = t.bytes.toNat := by
          by_contra hne
          refine hend (UInt64.toNat_inj.mp ?_)
          omega
        have hall' : step = t.bytes := UInt64.toNat_inj.mp hall
        rw [dif_neg hend, transfer_of_bytes_eq_zero (by
          change t.bytes - step = 0
          rw [hall', UInt64.sub_self])]
        refine .inl ⟨⟨t.rangeIndex, t.rangeOffset + step⟩, ?_, [], r :: rs, rfl, rfl, ?_, ?_⟩
        · rw [take_addresses_step ho hstepdef, hall', UInt64.sub_self, UInt64.toNat_zero,
            List.take_zero, List.append_nil]
        · rw [← hall]
          exact (Nat.zero_add _).trans hadd
        · change (t.rangeOffset + step).toNat ≤ r.length.toNat
          omega
    · rw [herror]
      exact .inr ⟨⟨r, List.mem_cons_self, t.rangeOffset, step, by omega, hfault⟩, rfl⟩

/-- The loop from further on: it copies the bytes there, or a copy faults. -/
theorem transferAt_spec (hcopy : Copies copy act room fault death) (ranges : List CursorRange)
    (ahead position bytes : UInt64) (data : σ) (htotal : totalLength ranges < 2 ^ 64)
    (hfits : position.toNat + ahead.toNat + bytes.toNat ≤ totalLength ranges)
    (hroom : bytes.toNat ≤ room data) :
    transferAt copy ranges ahead position bytes data = .ok (act data
        (((addresses ranges).drop (position.toNat + ahead.toNat)).take bytes.toNat)) ∨
      FaultsIn fault ranges ∧
        transferAt copy ranges ahead position bytes data = .error death := by
  induction ranges generalizing ahead position bytes data with
  | nil =>
    have hbytes : bytes = 0 := UInt64.toNat_inj.mp (by
      change _ + _ ≤ 0 at hfits
      change _ = 0
      omega)
    rw [transferAt, if_pos hbytes, hbytes]
    refine .inl (congrArg _ ?_)
    exact (hcopy.act_nil data).symm
  | cons r rs ih =>
    rw [totalLength_cons] at hfits htotal
    by_cases hbytes : bytes = 0
    · rw [transferAt, if_pos hbytes, hbytes]
      refine .inl (congrArg _ ?_)
      exact (hcopy.act_nil data).symm
    have hadd : (position + ahead).toNat = position.toNat + ahead.toNat :=
      UInt64.toNat_add_of_toNat_lt (by omega)
    rw [transferAt, if_neg hbytes]
    dsimp only
    by_cases hpast : position + ahead > r.length
    · have hlt := UInt64.lt_iff_toNat_lt.mp hpast
      have hsub : (position + ahead - r.length).toNat =
          position.toNat + ahead.toNat - r.length.toNat := by
        rw [UInt64.toNat_sub_of_toNat_le (Nat.le_of_lt hlt), hadd]
      rw [if_pos hpast, addresses_drop_of_ge (by omega)]
      refine Or.imp ?_ ?_ (ih (position + ahead - r.length) 0 bytes data (by omega) ?_ hroom)
      · intro h
        rw [h, hsub]
        exact congrArg (fun k => Except.ok (act data (((addresses rs).drop k).take _)))
          (Nat.zero_add _)
      · rintro ⟨hfaults, herror⟩
        exact ⟨hfaults.cons, herror⟩
      · change 0 + _ + _ ≤ _
        omega
    · have hle : (position + ahead).toNat ≤ r.length.toNat :=
        Nat.le_of_not_lt fun h => hpast (UInt64.lt_iff_toNat_lt.mpr h)
      have hstep := step_toNat bytes hle
      set step := min bytes (r.length - (position + ahead)) with hstepdef
      have hsub : (bytes - step).toNat = bytes.toNat - step.toNat :=
        UInt64.toNat_sub_of_toNat_le (by omega)
      have hspan : (span (r.address + (position + ahead)) step.toNat).length ≤ room data := by
        rw [length_span]
        omega
      rw [if_neg hpast, ← hadd]
      obtain hok | ⟨hfault, herror⟩ :=
        hcopy.copy_eq data (r.address + (position + ahead)) step (by omega)
      · rw [hok]
        dsimp only
        have hroom' := hcopy.room_act data _ hspan
        rw [length_span] at hroom'
        refine Or.imp ?_ ?_ (ih 0 0 (bytes - step)
          (act data (span (r.address + (position + ahead)) step.toNat)) (by omega) ?_ ?_)
        · intro h
          rw [h, take_addresses_step hle hstepdef, hcopy.act_append _ _ _ hspan]
          rfl
        · rintro ⟨hfaults, herror⟩
          exact ⟨hfaults.cons, herror⟩
        · change 0 + 0 + _ ≤ _
          omega
        · omega
      · rw [herror]
        exact .inr ⟨⟨r, List.mem_cons_self, position + ahead, step, by omega, hfault⟩, rfl⟩

end Loops

/-! ### Flat cursors -/

/-- A window of a sequence of bytes, and an offset in it. -/
structure FlatCursor where
  base : ℕ
  length : ℕ
  offset : ℕ
  deriving DecidableEq, Repr

namespace FlatCursor

/-- `n` bytes from `ahead` bytes on lie in the window. -/
def Fits (f : FlatCursor) (ahead n : ℕ) : Prop := f.offset + ahead + n ≤ f.length

instance (f : FlatCursor) (ahead n : ℕ) : Decidable (f.Fits ahead n) :=
  inferInstanceAs (Decidable (_ ≤ _))

/-- The part of the sequence `n` bytes long, `ahead` bytes on. -/
def slice {α : Type} (f : FlatCursor) (l : List α) (ahead n : ℕ) : List α :=
  (l.drop (f.base + f.offset + ahead)).take n

/-- The cursor moved on, not past the end. -/
def advance (f : FlatCursor) (n : ℕ) : FlatCursor :=
  { f with offset := min (f.offset + n) f.length }

/-- The window of the next `n` bytes. -/
def child (f : FlatCursor) (n : ℕ) : FlatCursor :=
  { base := f.base + f.offset, length := n, offset := 0 }

/-- The window of the next `ahead + n` bytes, `ahead` bytes in. -/
def childAt (f : FlatCursor) (ahead n : ℕ) : FlatCursor :=
  { base := f.base + f.offset, length := ahead + n, offset := ahead }

end FlatCursor

/-- The cursor is at the flat cursor's offset of its window, unless it is at the end. -/
structure Follows (ranges : List CursorRange) (c : Cursor) (f : FlatCursor) : Prop where
  ranges_eq : c.ranges = ranges
  length : c.length.toNat = f.length
  offset : c.offset.toNat = f.offset
  le : f.offset ≤ f.length
  fits : f.base + f.length ≤ totalLength ranges
  position : f.offset < f.length → LiesAt ranges 0 c.toPosition (f.base + f.offset)

section Follows

variable {ranges : List CursorRange} {c : Cursor} {f : FlatCursor}

theorem FaultsIn.of_drop {fault : UInt64 → UInt64 → Prop} {i : ℕ}
    (h : FaultsIn fault (ranges.drop i)) : FaultsIn fault ranges := by
  obtain ⟨r, hr, rest⟩ := h
  exact ⟨r, List.mem_of_mem_drop hr, rest⟩

variable {σ : Type} {copy : σ → UInt64 → UInt64 → Except CursorDeath σ}
  {act : σ → List UInt64 → σ} {room : σ → ℕ} {fault : UInt64 → UInt64 → Prop}
  {death : CursorDeath}

/-- The loop from a cursor's position. -/
theorem Follows.transfer (h : Follows ranges c f) (hcopy : Copies copy act room fault death)
    {n : UInt64} (hn : f.Fits 0 n.toNat) (data : σ) (hroom : n.toNat ≤ room data) :
    (∃ p, Memory.transfer copy (c.ranges.drop c.rangeIndex)
        { toPosition := c.toPosition, offset := c.offset, bytes := n, data } =
        .ok { toPosition := p, offset := c.offset + n, bytes := 0,
              data := act data (f.slice (addresses ranges) 0 n.toNat) } ∧
      Follows ranges { c with toPosition := p, offset := c.offset + n }
        { f with offset := f.offset + n.toNat }) ∨
    FaultsIn fault ranges ∧ Memory.transfer copy (c.ranges.drop c.rangeIndex)
      { toPosition := c.toPosition, offset := c.offset, bytes := n, data } = .error death := by
  rw [FlatCursor.Fits, Nat.add_zero] at hn
  have hlength := c.length.toNat_lt
  have hl := h.length
  have ho := h.offset
  have hadd : (c.offset + n).toNat = f.offset + n.toNat := by
    rw [UInt64.toNat_add_of_toNat_lt (by omega), h.offset]
  rw [h.ranges_eq]
  by_cases hzero : n = 0
  · refine .inl ⟨c.toPosition, ?_, rfl, h.length, hadd, ?_, h.fits, ?_⟩
    · rw [transfer_of_bytes_eq_zero hzero, hzero, FlatCursor.slice, UInt64.toNat_zero,
        List.take_zero, hcopy.act_nil, UInt64.add_zero]
    · exact hn
    · dsimp only
      rw [hzero, UInt64.toNat_zero, Nat.add_zero]
      exact h.position
  · have hpos : 0 < n.toNat := Nat.pos_of_ne_zero fun h => hzero (UInt64.toNat_inj.mp h)
    have hat := h.position (by omega)
    obtain ⟨hdrop, hhead, hle, htotal⟩ := hat.suffix
    have hfits := h.fits
    obtain ⟨p, htransfer, hp⟩ | ⟨hfaults, herror⟩ := transfer_spec hcopy (ranges.drop c.rangeIndex)
      { toPosition := c.toPosition, offset := c.offset, bytes := n, data } hhead
      (by
        change c.rangeOffset.toNat + n.toNat ≤ _
        omega) hroom
    · refine .inl ⟨p, htransfer.trans ?_, rfl, h.length, hadd, hn, h.fits, fun _ => ?_⟩
      · rw [FlatCursor.slice, Nat.add_zero, hdrop]
      · have htrans := hat.trans hp
        rw [Nat.add_assoc] at htrans
        exact htrans
    · exact .inr ⟨hfaults.of_drop, herror⟩

/-- The loop from bytes further on than a cursor's position. -/
theorem Follows.transferAt (h : Follows ranges c f) (htotal : totalLength ranges < 2 ^ 64)
    (hcopy : Copies copy act room fault death) {ahead n : UInt64}
    (hn : f.Fits ahead.toNat n.toNat) (data : σ) (hroom : n.toNat ≤ room data) :
    Memory.transferAt copy (c.ranges.drop c.rangeIndex) ahead c.rangeOffset n data =
        .ok (act data (f.slice (addresses ranges) ahead.toNat n.toNat)) ∨
      FaultsIn fault ranges ∧
        Memory.transferAt copy (c.ranges.drop c.rangeIndex) ahead c.rangeOffset n data =
          .error death := by
  rw [h.ranges_eq]
  by_cases hzero : n = 0
  · refine .inl ?_
    rw [hzero, FlatCursor.slice, UInt64.toNat_zero, List.take_zero, hcopy.act_nil]
    cases ranges.drop c.rangeIndex with
    | nil => rw [Memory.transferAt, if_pos rfl]
    | cons r rs => rw [Memory.transferAt, if_pos rfl]
  · have hpos : 0 < n.toNat := Nat.pos_of_ne_zero fun h => hzero (UInt64.toNat_inj.mp h)
    rw [FlatCursor.Fits] at hn
    obtain ⟨hdrop, -, hle, hsum⟩ := (h.position (by omega)).suffix
    have hfits := h.fits
    refine Or.imp ?_ ?_ (transferAt_spec hcopy (ranges.drop c.rangeIndex) ahead c.rangeOffset n data
      (by omega) (by omega) hroom)
    · intro hok
      rw [hok, FlatCursor.slice, ← List.drop_drop, ← hdrop, List.drop_drop]
    · rintro ⟨hfaults, herror⟩
      exact ⟨hfaults.of_drop, herror⟩

/-- The loop of `advance` is the loop that copies nothing. -/
theorem advanceLoop_eq (ranges : List CursorRange) (t : Transfer ℕ) :
    Cursor.advanceLoop ranges t.toPosition t.bytes =
      (Memory.transfer copyNone ranges t).map Transfer.toPosition := by
  induction ranges, t using transfer.induct copyNone with
  | case1 ranges t h =>
    rw [Cursor.advanceLoop.eq_def, dif_pos h, transfer_of_bytes_eq_zero h]
    rfl
  | case2 t h =>
    rw [Cursor.advanceLoop, dif_neg h, Memory.transfer, dif_neg h]
    rfl
  | case3 t h r rs step death herror => cases herror
  | case4 t h r rs step data hdata rangeOffset hend ih =>
    rw [Cursor.advanceLoop, dif_neg h, Memory.transfer, dif_neg h]
    dsimp only
    rw [hdata]
    dsimp only
    rw [dif_pos hend, dif_pos hend]
    exact ih
  | case5 t h r rs step data hdata rangeOffset hend ih =>
    rw [Cursor.advanceLoop, dif_neg h, Memory.transfer, dif_neg h]
    dsimp only
    rw [hdata]
    dsimp only
    rw [dif_neg hend, dif_neg hend]
    exact ih

/-- `advance` moves the cursor on, not past the end. -/
theorem Follows.advance (h : Follows ranges c f) (n : UInt64) :
    ∃ c', c.advance n = .ok c' ∧ Follows ranges c' (f.advance n.toNat) := by
  have hl := h.length
  have ho := h.offset
  have hlength := c.length.toNat_lt
  rw [Cursor.advance, FlatCursor.advance]
  by_cases hend : f.length ≤ f.offset + n.toNat
  · have hpast : Overflows c.offset n ∨ c.offset + n ≥ c.length := by
      by_cases hover : Overflows c.offset n
      · exact .inl hover
      · refine .inr (UInt64.le_iff_toNat_le.mpr ?_)
        rw [UInt64.toNat_add_of_toNat_lt (Nat.lt_of_not_le hover)]
        omega
    rw [if_pos hpast, Nat.min_eq_right hend]
    exact ⟨_, rfl, h.ranges_eq, h.length, h.length, le_rfl, h.fits, fun hlt => absurd hlt (lt_irrefl _)⟩
  · have hadd : (c.offset + n).toNat = f.offset + n.toNat := by
      rw [UInt64.toNat_add_of_toNat_lt (by omega), h.offset]
    have hin : ¬ (Overflows c.offset n ∨ c.offset + n ≥ c.length) := by
      rw [Overflows, ge_iff_le, UInt64.le_iff_toNat_le, hadd]
      omega
    have hfits : f.Fits 0 n.toNat := by
      rw [FlatCursor.Fits]
      omega
    rw [if_neg hin, Nat.min_eq_left (by omega)]
    have hloop := advanceLoop_eq (c.ranges.drop c.rangeIndex)
      { toPosition := c.toPosition, offset := c.offset, bytes := n, data := n.toNat }
    obtain ⟨p, htransfer, hfollows⟩ | ⟨⟨_, _, _, _, _, hfalse⟩, -⟩ :=
      h.transfer copies_none hfits n.toNat le_rfl
    · rw [htransfer] at hloop
      refine ⟨_, ?_, hfollows⟩
      dsimp only at hloop
      rw [hloop]
      rfl
    · exact hfalse.elim

/-- Whether an operation fits is whether it fits in the window. -/
theorem Follows.validateOperationSize (h : Follows ranges c f) (n : UInt64)
    (operation : CursorOperation) :
    Memory.validateOperationSize c.offset c.length n operation =
      if f.Fits 0 n.toNat then .ok () else .error (.pastEnd operation n c.offset c.length) := by
  have hl := h.length
  have ho := h.offset
  have hlength := c.length.toNat_lt
  have hiff : (Overflows c.offset n ∨ n > c.length ∨ c.offset + n > c.length) ↔
      ¬ f.Fits 0 n.toNat := by
    rw [FlatCursor.Fits, Overflows, gt_iff_lt, gt_iff_lt, UInt64.lt_iff_toNat_lt,
      UInt64.lt_iff_toNat_lt, UInt64.toNat_add]
    omega
  rw [Memory.validateOperationSize]
  by_cases hfits : f.Fits 0 n.toNat
  · rw [if_pos hfits, if_neg fun hpast => hiff.mp hpast hfits]
  · rw [if_neg hfits, if_pos (hiff.mpr hfits)]

theorem Follows.validateOperationSizeAt (h : Follows ranges c f) (ahead n : UInt64)
    (operation : CursorOperation) :
    Memory.validateOperationSizeAt c.offset c.length n ahead operation =
      if f.Fits ahead.toNat n.toNat then .ok ()
      else .error (.pastEndAt operation n c.offset ahead c.length) := by
  have hl := h.length
  have ho := h.offset
  have hlength := c.length.toNat_lt
  have hiff : (Overflows c.offset ahead ∨ Overflows (c.offset + ahead) n ∨ n > c.length ∨
      c.offset + ahead + n > c.length) ↔ ¬ f.Fits ahead.toNat n.toNat := by
    simp only [FlatCursor.Fits, Overflows, gt_iff_lt, UInt64.lt_iff_toNat_lt, UInt64.toNat_add]
    omega
  rw [Memory.validateOperationSizeAt]
  by_cases hfits : f.Fits ahead.toNat n.toNat
  · rw [if_pos hfits, if_neg fun hpast => hiff.mp hpast hfits]
  · rw [if_neg hfits, if_pos (hiff.mpr hfits)]

/-- A read moves past the bytes it reads, or a copy faults; a refused one moves nothing. -/
theorem Follows.readBytes (h : Follows ranges c f) (memory : HostMemory) (n : UInt64) :
    (f.Fits 0 n.toNat ∧
      ((∃ c', c.readBytes memory n =
          .ok (.ok ((f.slice (addresses ranges) 0 n.toNat).map memory), c') ∧
          Follows ranges c' { f with offset := f.offset + n.toNat }) ∨
        FaultsIn Faults ranges ∧ c.readBytes memory n = .error .readNull)) ∨
    (¬ f.Fits 0 n.toNat ∧ ∃ e, c.readBytes memory n = .ok (.error e, c)) := by
  rw [Cursor.readBytes, h.validateOperationSize]
  by_cases hfits : f.Fits 0 n.toNat
  · refine .inl ⟨hfits, ?_⟩
    rw [if_pos hfits]
    dsimp only
    obtain ⟨p, htransfer, hfollows⟩ | ⟨hfaults, herror⟩ :=
      h.transfer (copies_read memory) hfits { bytes := [], room := n.toNat } le_rfl
    · refine .inl ⟨_, ?_, hfollows⟩
      rw [htransfer]
      rfl
    · refine .inr ⟨hfaults, ?_⟩
      rw [herror]
      rfl
  · refine .inr ⟨hfits, .pastEnd .read n c.offset c.length, ?_⟩
    rw [if_neg hfits]

/-- A read from bytes further on. -/
theorem Follows.readBytesAt (h : Follows ranges c f) (htotal : totalLength ranges < 2 ^ 64)
    (memory : HostMemory) (ahead n : UInt64) :
    (f.Fits ahead.toNat n.toNat ∧
      (c.readBytesAt memory ahead n =
          .ok (.ok ((f.slice (addresses ranges) ahead.toNat n.toNat).map memory)) ∨
        FaultsIn Faults ranges ∧ c.readBytesAt memory ahead n = .error .readNull)) ∨
    (¬ f.Fits ahead.toNat n.toNat ∧ ∃ e, c.readBytesAt memory ahead n = .ok (.error e)) := by
  rw [Cursor.readBytesAt, h.validateOperationSizeAt]
  by_cases hfits : f.Fits ahead.toNat n.toNat
  · refine .inl ⟨hfits, ?_⟩
    rw [if_pos hfits]
    dsimp only
    obtain hok | ⟨hfaults, herror⟩ :=
      h.transferAt htotal (copies_read memory) hfits { bytes := [], room := n.toNat } le_rfl
    · left
      rw [hok]
      rfl
    · refine .inr ⟨hfaults, ?_⟩
      rw [herror]
      rfl
  · refine .inr ⟨hfits, .pastEndAt .read n c.offset ahead c.length, ?_⟩
    rw [if_neg hfits]

/-- An operation that fits has all its bytes. -/
theorem Follows.length_slice (h : Follows ranges c f) {ahead n : ℕ} (hfits : f.Fits ahead n) :
    (f.slice (addresses ranges) ahead n).length = n := by
  have hwindow := h.fits
  rw [FlatCursor.Fits] at hfits
  rw [FlatCursor.slice, List.length_take, List.length_drop, length_addresses]
  omega

theorem write_memory (memory : HostMemory) {bytes : List UInt8} {l : List UInt64}
    (h : l.length = bytes.length) :
    (From.write { memory, bytes } l).memory = store memory l bytes := by
  rw [From.write, h, List.take_length]

/-- A write moves past the bytes it writes. -/
theorem Follows.writeBytes (h : Follows ranges c f) (memory : HostMemory) {bytes : List UInt8}
    (hbytes : bytes.length < 2 ^ 64) :
    (f.Fits 0 bytes.length ∧
      ((∃ c', c.writeBytes memory bytes =
          .ok (.ok (), store memory (f.slice (addresses ranges) 0 bytes.length) bytes, c') ∧
          Follows ranges c' { f with offset := f.offset + bytes.length }) ∨
        FaultsIn Faults ranges ∧ c.writeBytes memory bytes = .error .writeNull)) ∨
    (¬ f.Fits 0 bytes.length ∧ ∃ e, c.writeBytes memory bytes = .ok (.error e, memory, c)) := by
  have hn : (UInt64.ofNat bytes.length).toNat = bytes.length := UInt64.toNat_ofNat_of_lt' hbytes
  rw [Cursor.writeBytes, h.validateOperationSize, hn]
  by_cases hfits : f.Fits 0 bytes.length
  · refine .inl ⟨hfits, ?_⟩
    rw [if_pos hfits]
    dsimp only
    obtain ⟨p, htransfer, hfollows⟩ | ⟨hfaults, herror⟩ :=
      h.transfer copies_write (n := UInt64.ofNat bytes.length) (by rwa [hn]) { memory, bytes }
        (by rw [hn])
    · rw [hn] at hfollows
      refine .inl ⟨_, ?_, hfollows⟩
      rw [htransfer, hn, ← write_memory memory (h.length_slice hfits)]
      rfl
    · refine .inr ⟨hfaults, ?_⟩
      rw [herror]
      rfl
  · refine .inr ⟨hfits, .pastEnd .write (.ofNat bytes.length) c.offset c.length, ?_⟩
    rw [if_neg hfits]

/-- A write to bytes further on. -/
theorem Follows.writeBytesAt (h : Follows ranges c f) (htotal : totalLength ranges < 2 ^ 64)
    (memory : HostMemory) (ahead : UInt64) {bytes : List UInt8} (hbytes : bytes.length < 2 ^ 64) :
    (f.Fits ahead.toNat bytes.length ∧
      (c.writeBytesAt memory ahead bytes =
          .ok (.ok (), store memory (f.slice (addresses ranges) ahead.toNat bytes.length) bytes) ∨
        FaultsIn Faults ranges ∧ c.writeBytesAt memory ahead bytes = .error .writeNull)) ∨
    (¬ f.Fits ahead.toNat bytes.length ∧
      ∃ e, c.writeBytesAt memory ahead bytes = .ok (.error e, memory)) := by
  have hn : (UInt64.ofNat bytes.length).toNat = bytes.length := UInt64.toNat_ofNat_of_lt' hbytes
  rw [Cursor.writeBytesAt, h.validateOperationSizeAt, hn]
  by_cases hfits : f.Fits ahead.toNat bytes.length
  · refine .inl ⟨hfits, ?_⟩
    rw [if_pos hfits]
    dsimp only
    have hfits' : f.Fits ahead.toNat (UInt64.ofNat bytes.length).toNat := by rwa [hn]
    obtain hok | ⟨hfaults, herror⟩ :=
      h.transferAt htotal copies_write hfits' { memory, bytes } (by rw [hn])
    · left
      rw [hok, hn, ← write_memory memory (h.length_slice hfits)]
      rfl
    · refine .inr ⟨hfaults, ?_⟩
      rw [herror]
      rfl
  · refine .inr ⟨hfits, .pastEndAt .write (.ofNat bytes.length) c.offset ahead c.length, ?_⟩
    rw [if_neg hfits]

/-- A child of a cursor, at the cursor's position. -/
theorem Follows.child (h : Follows ranges c f) {n : UInt64} (hfits : f.Fits 0 n.toNat) :
    Follows ranges { c with length := n, offset := 0 } (f.child n.toNat) := by
  have hwindow := h.fits
  rw [FlatCursor.Fits] at hfits
  refine ⟨h.ranges_eq, rfl, rfl, Nat.zero_le _, ?_, fun hlt => ?_⟩
  · rw [FlatCursor.child]
    dsimp only
    omega
  · exact h.position (by
      change 0 < n.toNat at hlt
      omega)

theorem Follows.remaining (h : Follows ranges c f) :
    c.remaining.toNat = f.length - f.offset := by
  rw [Cursor.remaining, UInt64.toNat_sub_of_toNat_le, h.length, h.offset]
  rw [h.length, h.offset]
  exact h.le

/-- A sub-cursor of the next bytes. -/
theorem Follows.subCursor (h : Follows ranges c f) (n : UInt64) :
    (f.Fits 0 n.toNat ∧ ∃ child c', c.subCursor n = .ok (.ok child, c') ∧
      Follows ranges child (f.child n.toNat) ∧ Follows ranges c' (f.advance n.toNat)) ∨
    (¬ f.Fits 0 n.toNat ∧ ∃ e, c.subCursor n = .ok (.error e, c)) := by
  have hle := h.le
  have ho := h.offset
  have hl := h.length
  have hlength := c.length.toNat_lt
  by_cases hfits : f.Fits 0 n.toNat
  · refine .inl ⟨hfits, ?_⟩
    have hleft : ¬ c.remaining < n := by
      rw [UInt64.lt_iff_toNat_lt, h.remaining]
      rw [FlatCursor.Fits] at hfits
      omega
    have hover : ¬ Overflows c.offset n := by
      rw [Overflows]
      rw [FlatCursor.Fits] at hfits
      omega
    obtain ⟨c', hadvance, hfollows⟩ := h.advance n
    refine ⟨_, c', ?_, h.child hfits, hfollows⟩
    rw [Cursor.subCursor, if_neg hleft, if_neg hover, Cursor.childOf, hadvance]
    rfl
  · refine .inr ⟨hfits, .subCursorLeft n c.remaining, ?_⟩
    have hleft : c.remaining < n := by
      rw [UInt64.lt_iff_toNat_lt, h.remaining]
      rw [FlatCursor.Fits] at hfits
      omega
    rw [Cursor.subCursor, if_pos hleft]

/-- A sub-cursor of bytes further on. -/
theorem Follows.subCursorAt (h : Follows ranges c f) (ahead n : UInt64) :
    (f.Fits ahead.toNat n.toNat ∧ ∃ child, c.subCursorAt ahead n = .ok (.ok child) ∧
      Follows ranges child (f.childAt ahead.toNat n.toNat)) ∨
    (¬ f.Fits ahead.toNat n.toNat ∧ ∃ e, c.subCursorAt ahead n = .ok (.error e)) := by
  have hle := h.le
  have ho := h.offset
  have hl := h.length
  have hlength := c.length.toNat_lt
  by_cases hfits : f.Fits ahead.toNat n.toNat
  · refine .inl ⟨hfits, ?_⟩
    rw [FlatCursor.Fits] at hfits
    have hover : ¬ (Overflows ahead c.offset ∨ Overflows (ahead + c.offset) n) := by
      simp only [Overflows, UInt64.toNat_add]
      omega
    have hpast : ¬ ahead + c.offset + n > c.length := by
      simp only [gt_iff_lt, UInt64.lt_iff_toNat_lt, UInt64.toNat_add]
      omega
    have hsum : (ahead + n).toNat = ahead.toNat + n.toNat :=
      UInt64.toNat_add_of_toNat_lt (by omega)
    have hchild : Follows ranges { c with length := ahead + n, offset := 0 }
        (f.child (ahead.toNat + n.toNat)) := by
      rw [← hsum]
      refine h.child ?_
      rw [FlatCursor.Fits, hsum]
      omega
    obtain ⟨child, hadvance, hfollows⟩ := hchild.advance ahead
    refine ⟨child, ?_, ?_⟩
    · rw [Cursor.subCursorAt, if_neg hover, if_neg hpast, Cursor.childAt, hadvance]
      rfl
    · have heq : (f.child (ahead.toNat + n.toNat)).advance ahead.toNat =
          f.childAt ahead.toNat n.toNat := by
        rw [FlatCursor.advance, FlatCursor.child, FlatCursor.childAt, Nat.zero_add,
          Nat.min_eq_left (Nat.le_add_right _ _)]
      rw [← heq]
      exact hfollows
  · refine .inr ⟨hfits, ?_⟩
    rw [FlatCursor.Fits] at hfits
    rw [Cursor.subCursorAt]
    by_cases hover : Overflows ahead c.offset ∨ Overflows (ahead + c.offset) n
    · rw [if_pos hover]
      exact ⟨_, rfl⟩
    · have hpast : ahead + c.offset + n > c.length := by
        simp only [Overflows, UInt64.toNat_add] at hover
        simp only [gt_iff_lt, UInt64.lt_iff_toNat_lt, UInt64.toNat_add]
        omega
      rw [if_neg hover, if_pos hpast]
      exact ⟨_, rfl⟩

/-- A shorter window, no shorter than the offset. -/
theorem Follows.truncateTo (h : Follows ranges c f) (n : UInt64) :
    (f.offset ≤ n.toNat ∧ n.toNat ≤ f.length ∧ ∃ c', c.truncateTo n = (.ok (), c') ∧
      Follows ranges c' { f with length := n.toNat }) ∨
    (¬ (f.offset ≤ n.toNat ∧ n.toNat ≤ f.length) ∧ ∃ e, c.truncateTo n = (.error e, c)) := by
  have ho := h.offset
  have hl := h.length
  rw [Cursor.truncateTo]
  by_cases hpast : n > c.length
  · rw [if_pos hpast]
    rw [gt_iff_lt, UInt64.lt_iff_toNat_lt] at hpast
    exact .inr ⟨by omega, _, rfl⟩
  · rw [if_neg hpast]
    rw [gt_iff_lt, UInt64.lt_iff_toNat_lt] at hpast
    by_cases hbefore : n < c.offset
    · rw [if_pos hbefore]
      rw [UInt64.lt_iff_toNat_lt] at hbefore
      exact .inr ⟨by omega, _, rfl⟩
    · rw [if_neg hbefore]
      rw [UInt64.lt_iff_toNat_lt] at hbefore
      have hfits := h.fits
      refine .inl ⟨by omega, by omega, _, rfl, h.ranges_eq, rfl, h.offset, ?_, ?_, fun hlt => ?_⟩
      · dsimp only
        omega
      · dsimp only
        omega
      · exact h.position (by
          dsimp only at hlt
          omega)

end Follows

/-! ### Runs of operations -/

/-- A source of bytes: its length is a `usize`. -/
abbrev Bytes := { bytes : List UInt8 // bytes.length < 2 ^ 64 }

/-- An operation on a cursor. -/
inductive Op where
  | clone
  | advance (n : UInt64)
  | readBytes (n : UInt64)
  | readBytesAt (ahead n : UInt64)
  | subCursor (n : UInt64)
  | subCursorAt (ahead n : UInt64)
  | truncateTo (n : UInt64)
  | writeBytes (bytes : Bytes)
  | writeBytesAt (ahead : UInt64) (bytes : Bytes)

/-- What an operation answers. -/
inductive Reply where
  | missing
  | refused
  | done
  | bytes (bytes : List UInt8)
  deriving DecidableEq, Repr

/-- A result without its error's message. -/
def Reply.of {α : Type} (ok : α → Reply) : Except CursorError α → Reply
  | .ok a => ok a
  | .error _ => refused

/-- The cursors made over a list of ranges, and host memory. -/
structure Cursors where
  memory : HostMemory
  cursors : List Cursor

/-- The state with a cursor changed. -/
def Cursors.put (s : Cursors) (i : ℕ) (c : Cursor) : Cursors :=
  { s with cursors := s.cursors.set i c }

/-- The state with a cursor made. -/
def Cursors.push (s : Cursors) (c : Cursor) : Cursors := { s with cursors := s.cursors ++ [c] }

/-- An operation on cursor `i`. -/
def Cursors.exec (s : Cursors) (i : ℕ) (op : Op) : Except CursorDeath (Cursors × Reply) :=
  match s.cursors[i]? with
  | none => .ok (s, .missing)
  | some c =>
    match op with
    | .clone => .ok (s.push c, .done)
    | .advance n => do
      let c ← c.advance n
      .ok (s.put i c, .done)
    | .readBytes n => do
      let (result, c) ← c.readBytes s.memory n
      .ok (s.put i c, .of .bytes result)
    | .readBytesAt ahead n => do
      let result ← c.readBytesAt s.memory ahead n
      .ok (s, .of .bytes result)
    | .subCursor n => do
      let (result, c) ← c.subCursor n
      match result with
      | .ok child => .ok ((s.put i c).push child, .done)
      | .error _ => .ok (s.put i c, .refused)
    | .subCursorAt ahead n => do
      let result ← c.subCursorAt ahead n
      match result with
      | .ok child => .ok (s.push child, .done)
      | .error _ => .ok (s, .refused)
    | .truncateTo n =>
      let (result, c) := c.truncateTo n
      .ok (s.put i c, .of (fun _ => .done) result)
    | .writeBytes bytes => do
      let (result, memory, c) ← c.writeBytes s.memory bytes
      .ok ({ s.put i c with memory }, .of (fun _ => .done) result)
    | .writeBytesAt ahead bytes => do
      let (result, memory) ← c.writeBytesAt s.memory ahead bytes
      .ok ({ s with memory }, .of (fun _ => .done) result)

/-- A sequence of operations, each on a cursor, and their replies. -/
def Cursors.run (s : Cursors) : List (ℕ × Op) → Except CursorDeath (Cursors × List Reply)
  | [] => .ok (s, [])
  | (i, op) :: rest => do
    let (s, reply) ← s.exec i op
    let (s, replies) ← s.run rest
    .ok (s, reply :: replies)

/-- The flat cursors over a list of ranges, and host memory. -/
structure FlatCursors where
  memory : HostMemory
  cursors : List FlatCursor

/-- The state with a cursor changed. -/
def FlatCursors.put (s : FlatCursors) (i : ℕ) (f : FlatCursor) : FlatCursors :=
  { s with cursors := s.cursors.set i f }

/-- The state with a cursor made. -/
def FlatCursors.push (s : FlatCursors) (f : FlatCursor) : FlatCursors :=
  { s with cursors := s.cursors ++ [f] }

/-- An operation on flat cursor `i`: reads return a slice of the ranges' bytes, and writes store to
the addresses of a slice. -/
def FlatCursors.exec (ranges : List CursorRange) (s : FlatCursors) (i : ℕ) (op : Op) :
    FlatCursors × Reply :=
  match s.cursors[i]? with
  | none => (s, .missing)
  | some f =>
    match op with
    | .clone => (s.push f, .done)
    | .advance n => (s.put i (f.advance n.toNat), .done)
    | .readBytes n =>
      if f.Fits 0 n.toNat then
        (s.put i { f with offset := f.offset + n.toNat },
          .bytes (f.slice (flatten s.memory ranges) 0 n.toNat))
      else (s, .refused)
    | .readBytesAt ahead n =>
      if f.Fits ahead.toNat n.toNat then
        (s, .bytes (f.slice (flatten s.memory ranges) ahead.toNat n.toNat))
      else (s, .refused)
    | .subCursor n =>
      if f.Fits 0 n.toNat then
        ((s.put i (f.advance n.toNat)).push (f.child n.toNat), .done)
      else (s, .refused)
    | .subCursorAt ahead n =>
      if f.Fits ahead.toNat n.toNat then (s.push (f.childAt ahead.toNat n.toNat), .done)
      else (s, .refused)
    | .truncateTo n =>
      if f.offset ≤ n.toNat ∧ n.toNat ≤ f.length then
        (s.put i { f with length := n.toNat }, .done)
      else (s, .refused)
    | .writeBytes bytes =>
      if f.Fits 0 bytes.1.length then
        ({ s.put i { f with offset := f.offset + bytes.1.length } with
            memory := store s.memory (f.slice (addresses ranges) 0 bytes.1.length) bytes.1 },
          .done)
      else (s, .refused)
    | .writeBytesAt ahead bytes =>
      if f.Fits ahead.toNat bytes.1.length then
        ({ s with
            memory :=
              store s.memory (f.slice (addresses ranges) ahead.toNat bytes.1.length) bytes.1 },
          .done)
      else (s, .refused)

/-- A sequence of operations on flat cursors. -/
def FlatCursors.run (ranges : List CursorRange) (s : FlatCursors) :
    List (ℕ × Op) → FlatCursors × List Reply
  | [] => (s, [])
  | (i, op) :: rest =>
    let r := s.exec ranges i op
    let rs := r.1.run ranges rest
    (rs.1, r.2 :: rs.2)

/-- The cursors are at the flat cursors' offsets, over the same memory. -/
structure Simulates (ranges : List CursorRange) (s : Cursors) (t : FlatCursors) : Prop where
  memory : s.memory = t.memory
  cursors : List.Forall₂ (Follows ranges) s.cursors t.cursors

section Simulates

variable {ranges : List CursorRange} {s : Cursors} {t : FlatCursors}

theorem forall₂_set {α β : Type} {R : α → β → Prop} {l : List α} {l' : List β}
    (h : List.Forall₂ R l l') {a : α} {b : β} (hab : R a b) (i : ℕ) :
    List.Forall₂ R (l.set i a) (l'.set i b) := by
  induction h generalizing i with
  | nil => exact .nil
  | cons hd htl ih =>
    cases i with
    | zero => exact .cons hab htl
    | succ i => exact .cons hd (ih i)

theorem forall₂_getElem? {α β : Type} {R : α → β → Prop} {l : List α} {l' : List β}
    (h : List.Forall₂ R l l') (i : ℕ) :
    (l[i]? = none ∧ l'[i]? = none) ∨ ∃ a b, l[i]? = some a ∧ l'[i]? = some b ∧ R a b := by
  induction h generalizing i with
  | nil => exact .inl ⟨rfl, rfl⟩
  | cons hd htl ih =>
    cases i with
    | zero => exact .inr ⟨_, _, rfl, rfl, hd⟩
    | succ i => exact ih i

theorem forall₂_mem_left {α β : Type} {R : α → β → Prop} {l : List α} {l' : List β}
    (h : List.Forall₂ R l l') {a : α} (ha : a ∈ l) : ∃ b ∈ l', R a b := by
  obtain ⟨i, hi⟩ := List.mem_iff_getElem?.mp ha
  obtain ⟨hnone, -⟩ | ⟨a', b, ha', hb, hab⟩ := forall₂_getElem? h i
  · rw [hi] at hnone
    cases hnone
  · obtain rfl := Option.some.inj (hi.symm.trans ha')
    exact ⟨b, List.mem_of_getElem? hb, hab⟩

theorem set_getElem?_self {α : Type} {l : List α} {i : ℕ} {a : α} (h : l[i]? = some a) :
    l.set i a = l := by
  obtain ⟨hi, rfl⟩ := List.getElem?_eq_some_iff.mp h
  exact List.set_getElem_self hi

theorem Simulates.put (h : Simulates ranges s t) {c : Cursor} {f : FlatCursor}
    (hcf : Follows ranges c f) (i : ℕ) : Simulates ranges (s.put i c) (t.put i f) :=
  ⟨h.memory, forall₂_set h.cursors hcf i⟩

theorem Simulates.push (h : Simulates ranges s t) {c : Cursor} {f : FlatCursor}
    (hcf : Follows ranges c f) : Simulates ranges (s.push c) (t.push f) :=
  ⟨h.memory, List.rel_append h.cursors (.cons hcf .nil)⟩

theorem slice_flatten (f : FlatCursor) (memory : HostMemory) (ahead n : ℕ) :
    f.slice (flatten memory ranges) ahead n =
      (f.slice (addresses ranges) ahead n).map memory := by
  rw [FlatCursor.slice, FlatCursor.slice, flatten, List.map_take, List.map_drop]

/-- An operation on a cursor does what it does on the flat cursor, or a copy faults. -/
def Agrees (ranges : List CursorRange) (s : Cursors) (t : FlatCursors) (i : ℕ) (op : Op) : Prop :=
  (∃ s', s.exec i op = .ok (s', (t.exec ranges i op).2) ∧
    Simulates ranges s' (t.exec ranges i op).1) ∨
  ∃ death, (death = .readNull ∨ death = .writeNull) ∧ FaultsIn Faults ranges ∧
    s.exec i op = .error death

variable {i : ℕ} {c : Cursor} {f : FlatCursor}

theorem put_self (hc : s.cursors[i]? = some c) : s.put i c = s := by
  rw [Cursors.put, set_getElem?_self hc]

theorem Simulates.readBytes (h : Simulates ranges s t) (hc : s.cursors[i]? = some c)
    (hf : t.cursors[i]? = some f) (hcf : Follows ranges c f) (n : UInt64) :
    Agrees ranges s t i (.readBytes n) := by
  rw [Agrees, Cursors.exec, hc, FlatCursors.exec, hf]
  dsimp only
  obtain ⟨hfits, ⟨c', hread, hfollows⟩ | ⟨hfaults, herror⟩⟩ | ⟨hfits, e, hrefused⟩ :=
    hcf.readBytes s.memory n
  · rw [if_pos hfits, hread, slice_flatten, ← h.memory]
    exact .inl ⟨s.put i c', rfl, h.put hfollows i⟩
  · rw [herror]
    exact .inr ⟨_, .inl rfl, hfaults, rfl⟩
  · rw [if_neg hfits, hrefused]
    refine .inl ⟨s.put i c, rfl, ?_⟩
    rw [put_self hc]
    exact h

theorem Simulates.readBytesAt (h : Simulates ranges s t) (htotal : totalLength ranges < 2 ^ 64)
    (hc : s.cursors[i]? = some c) (hf : t.cursors[i]? = some f) (hcf : Follows ranges c f)
    (ahead n : UInt64) : Agrees ranges s t i (.readBytesAt ahead n) := by
  rw [Agrees, Cursors.exec, hc, FlatCursors.exec, hf]
  dsimp only
  obtain ⟨hfits, hread | ⟨hfaults, herror⟩⟩ | ⟨hfits, e, hrefused⟩ :=
    hcf.readBytesAt htotal s.memory ahead n
  · rw [if_pos hfits, hread, slice_flatten, ← h.memory]
    exact .inl ⟨s, rfl, h⟩
  · rw [herror]
    exact .inr ⟨_, .inl rfl, hfaults, rfl⟩
  · rw [if_neg hfits, hrefused]
    exact .inl ⟨s, rfl, h⟩

theorem Simulates.subCursor (h : Simulates ranges s t) (hc : s.cursors[i]? = some c)
    (hf : t.cursors[i]? = some f) (hcf : Follows ranges c f) (n : UInt64) :
    Agrees ranges s t i (.subCursor n) := by
  rw [Agrees, Cursors.exec, hc, FlatCursors.exec, hf]
  dsimp only
  obtain ⟨hfits, child, c', hsub, hchild, hfollows⟩ | ⟨hfits, e, hrefused⟩ := hcf.subCursor n
  · rw [if_pos hfits, hsub]
    exact .inl ⟨(s.put i c').push child, rfl, (h.put hfollows i).push hchild⟩
  · rw [if_neg hfits, hrefused]
    refine .inl ⟨s.put i c, rfl, ?_⟩
    rw [put_self hc]
    exact h

theorem Simulates.subCursorAt (h : Simulates ranges s t) (hc : s.cursors[i]? = some c)
    (hf : t.cursors[i]? = some f) (hcf : Follows ranges c f) (ahead n : UInt64) :
    Agrees ranges s t i (.subCursorAt ahead n) := by
  rw [Agrees, Cursors.exec, hc, FlatCursors.exec, hf]
  dsimp only
  obtain ⟨hfits, child, hsub, hchild⟩ | ⟨hfits, e, hrefused⟩ := hcf.subCursorAt ahead n
  · rw [if_pos hfits, hsub]
    exact .inl ⟨s.push child, rfl, h.push hchild⟩
  · rw [if_neg hfits, hrefused]
    exact .inl ⟨s, rfl, h⟩

theorem Simulates.truncateTo (h : Simulates ranges s t) (hc : s.cursors[i]? = some c)
    (hf : t.cursors[i]? = some f) (hcf : Follows ranges c f) (n : UInt64) :
    Agrees ranges s t i (.truncateTo n) := by
  rw [Agrees, Cursors.exec, hc, FlatCursors.exec, hf]
  dsimp only
  obtain ⟨hoffset, hlength, c', htruncate, hfollows⟩ | ⟨hout, e, hrefused⟩ := hcf.truncateTo n
  · rw [if_pos ⟨hoffset, hlength⟩, htruncate]
    exact .inl ⟨s.put i c', rfl, h.put hfollows i⟩
  · rw [if_neg hout, hrefused]
    refine .inl ⟨s.put i c, rfl, ?_⟩
    rw [put_self hc]
    exact h

theorem Simulates.writeBytes (h : Simulates ranges s t) (hc : s.cursors[i]? = some c)
    (hf : t.cursors[i]? = some f) (hcf : Follows ranges c f) (bytes : Bytes) :
    Agrees ranges s t i (.writeBytes bytes) := by
  rw [Agrees, Cursors.exec, hc, FlatCursors.exec, hf]
  dsimp only
  obtain ⟨hfits, ⟨c', hwrite, hfollows⟩ | ⟨hfaults, herror⟩⟩ | ⟨hfits, e, hrefused⟩ :=
    hcf.writeBytes s.memory bytes.2
  · rw [if_pos hfits, hwrite, ← h.memory]
    exact .inl ⟨_, rfl, rfl, (h.put hfollows i).cursors⟩
  · rw [herror]
    exact .inr ⟨_, .inr rfl, hfaults, rfl⟩
  · rw [if_neg hfits, hrefused]
    refine .inl ⟨s.put i c, rfl, ?_⟩
    rw [put_self hc]
    exact h

theorem Simulates.writeBytesAt (h : Simulates ranges s t) (htotal : totalLength ranges < 2 ^ 64)
    (hc : s.cursors[i]? = some c) (hf : t.cursors[i]? = some f) (hcf : Follows ranges c f)
    (ahead : UInt64) (bytes : Bytes) : Agrees ranges s t i (.writeBytesAt ahead bytes) := by
  rw [Agrees, Cursors.exec, hc, FlatCursors.exec, hf]
  dsimp only
  obtain ⟨hfits, hwrite | ⟨hfaults, herror⟩⟩ | ⟨hfits, e, hrefused⟩ :=
    hcf.writeBytesAt htotal s.memory ahead bytes.2
  · rw [if_pos hfits, hwrite, ← h.memory]
    exact .inl ⟨_, rfl, rfl, h.cursors⟩
  · rw [herror]
    exact .inr ⟨_, .inr rfl, hfaults, rfl⟩
  · rw [if_neg hfits, hrefused]
    exact .inl ⟨s, rfl, h⟩

/-- Every operation does what it does on the flat cursors, or a copy faults. -/
theorem Simulates.exec (h : Simulates ranges s t) (htotal : totalLength ranges < 2 ^ 64) (i : ℕ)
    (op : Op) : Agrees ranges s t i op := by
  obtain ⟨hc, hf⟩ | ⟨c, f, hc, hf, hcf⟩ := forall₂_getElem? h.cursors i
  · refine .inl ⟨s, ?_, ?_⟩
    · rw [Cursors.exec, hc, FlatCursors.exec, hf]
    · rw [FlatCursors.exec, hf]
      exact h
  cases op with
  | clone =>
    refine .inl ⟨s.push c, ?_, ?_⟩
    · rw [Cursors.exec, hc, FlatCursors.exec, hf]
    · rw [FlatCursors.exec, hf]
      exact h.push hcf
  | advance n =>
    obtain ⟨c', hadvance, hfollows⟩ := hcf.advance n
    refine .inl ⟨s.put i c', ?_, ?_⟩
    · rw [Cursors.exec, hc, FlatCursors.exec, hf]
      dsimp only
      rw [hadvance]
      rfl
    · rw [FlatCursors.exec, hf]
      exact h.put hfollows i
  | readBytes n => exact h.readBytes hc hf hcf n
  | readBytesAt ahead n => exact h.readBytesAt htotal hc hf hcf ahead n
  | subCursor n => exact h.subCursor hc hf hcf n
  | subCursorAt ahead n => exact h.subCursorAt hc hf hcf ahead n
  | truncateTo n => exact h.truncateTo hc hf hcf n
  | writeBytes bytes => exact h.writeBytes hc hf hcf bytes
  | writeBytesAt ahead bytes => exact h.writeBytesAt htotal hc hf hcf ahead bytes

/-- And so does every sequence of operations. -/
theorem Simulates.run (h : Simulates ranges s t) (htotal : totalLength ranges < 2 ^ 64)
    (ops : List (ℕ × Op)) :
    (∃ s', s.run ops = .ok (s', (t.run ranges ops).2) ∧
      Simulates ranges s' (t.run ranges ops).1) ∨
    ∃ death, (death = .readNull ∨ death = .writeNull) ∧ FaultsIn Faults ranges ∧
      s.run ops = .error death := by
  induction ops generalizing s t with
  | nil => exact .inl ⟨s, rfl, h⟩
  | cons step rest ih =>
    obtain ⟨i, op⟩ := step
    obtain ⟨s', hexec, hsim⟩ | ⟨death, hdeath, hfaults, herror⟩ := h.exec htotal i op
    · rw [Cursors.run, hexec]
      obtain ⟨s'', hrun, hsim'⟩ | ⟨death, hdeath, hfaults, herror⟩ := ih hsim
      · refine .inl ⟨s'', ?_, hsim'⟩
        change (do let (s, replies) ← s'.run rest; _) = _
        rw [hrun]
        rfl
      · refine .inr ⟨death, hdeath, hfaults, ?_⟩
        change (do let (s, replies) ← s'.run rest; _) = _
        rw [herror]
        rfl
    · refine .inr ⟨death, hdeath, hfaults, ?_⟩
      rw [Cursors.run, herror]
      rfl

end Simulates

/-! ### Refusals -/

theorem readBytes_refused {memory : HostMemory} {c c' : Cursor} {n : UInt64} {e : CursorError}
    (h : c.readBytes memory n = .ok (.error e, c')) : c' = c := by
  rw [Cursor.readBytes] at h
  split at h
  · cases h
    rfl
  · cases ht : transfer (copyTo memory) (c.ranges.drop c.rangeIndex) _ with
    | error death => rw [ht] at h; cases h
    | ok t => rw [ht] at h; cases h

theorem subCursor_refused {c c' : Cursor} {n : UInt64} {e : CursorError}
    (h : c.subCursor n = .ok (.error e, c')) : c' = c := by
  rw [Cursor.subCursor] at h
  split_ifs at h
  · cases h
    rfl
  · cases h
    rfl
  · cases hchild : c.childOf n with
    | error death => rw [hchild] at h; cases h
    | ok pair => rw [hchild] at h; cases h

theorem truncateTo_refused {c c' : Cursor} {n : UInt64} {e : CursorError}
    (h : c.truncateTo n = (.error e, c')) : c' = c := by
  rw [Cursor.truncateTo] at h
  split_ifs at h
  · cases h
    rfl
  · cases h
    rfl
  · cases h

theorem writeBytes_refused {memory memory' : HostMemory} {c c' : Cursor} {bytes : List UInt8}
    {e : CursorError} (h : c.writeBytes memory bytes = .ok (.error e, memory', c')) :
    memory' = memory ∧ c' = c := by
  rw [Cursor.writeBytes] at h
  split at h
  · cases h
    exact ⟨rfl, rfl⟩
  · cases ht : transfer copyFrom (c.ranges.drop c.rangeIndex) _ with
    | error death => rw [ht] at h; cases h
    | ok t => rw [ht] at h; cases h

theorem writeBytesAt_refused {memory memory' : HostMemory} {c : Cursor} {ahead : UInt64}
    {bytes : List UInt8} {e : CursorError}
    (h : c.writeBytesAt memory ahead bytes = .ok (.error e, memory')) : memory' = memory := by
  rw [Cursor.writeBytesAt] at h
  split at h
  · cases h
    rfl
  · cases ht : transferAt copyFrom (c.ranges.drop c.rangeIndex) ahead c.rangeOffset _ _ with
    | error death => rw [ht] at h; cases h
    | ok t => rw [ht] at h; cases h

/-- A refused operation leaves the cursors and the memory as they were. -/
theorem exec_refused {s s' : Cursors} {i : ℕ} {op : Op} (h : s.exec i op = .ok (s', .refused)) :
    s' = s := by
  rw [Cursors.exec] at h
  cases hc : s.cursors[i]? with
  | none => rw [hc] at h; cases h
  | some c =>
    rw [hc] at h
    cases op with
    | clone => cases h
    | advance n =>
      dsimp only at h
      cases hadvance : c.advance n with
      | error death => rw [hadvance] at h; cases h
      | ok c' => rw [hadvance] at h; cases h
    | readBytes n =>
      dsimp only at h
      cases hread : c.readBytes s.memory n with
      | error death => rw [hread] at h; cases h
      | ok result =>
        obtain ⟨result | result, c'⟩ := result
        · obtain rfl := readBytes_refused hread
          rw [hread] at h
          cases h
          exact put_self hc
        · rw [hread] at h
          cases h
    | readBytesAt ahead n =>
      dsimp only at h
      cases hread : c.readBytesAt s.memory ahead n with
      | error death => rw [hread] at h; cases h
      | ok result =>
        rw [hread] at h
        exact (Prod.mk.inj (Except.ok.inj h)).1.symm
    | subCursor n =>
      dsimp only at h
      cases hsub : c.subCursor n with
      | error death => rw [hsub] at h; cases h
      | ok result =>
        obtain ⟨result | result, c'⟩ := result
        · obtain rfl := subCursor_refused hsub
          rw [hsub] at h
          cases h
          exact put_self hc
        · rw [hsub] at h
          cases h
    | subCursorAt ahead n =>
      dsimp only at h
      cases hsub : c.subCursorAt ahead n with
      | error death => rw [hsub] at h; cases h
      | ok result =>
        rw [hsub] at h
        cases result with
        | error e => cases h; rfl
        | ok child => cases h
    | truncateTo n =>
      dsimp only at h
      cases htruncate : c.truncateTo n with
      | mk result c' =>
        rw [htruncate] at h
        cases result with
        | error e =>
          obtain rfl := truncateTo_refused htruncate
          cases h
          exact put_self hc
        | ok _ => cases h
    | writeBytes bytes =>
      dsimp only at h
      cases hwrite : c.writeBytes s.memory bytes with
      | error death => rw [hwrite] at h; cases h
      | ok result =>
        obtain ⟨result | result, memory, c'⟩ := result
        · obtain ⟨rfl, rfl⟩ := writeBytes_refused hwrite
          rw [hwrite] at h
          cases h
          exact put_self hc
        · rw [hwrite] at h
          cases h
    | writeBytesAt ahead bytes =>
      dsimp only at h
      cases hwrite : c.writeBytesAt s.memory ahead bytes with
      | error death => rw [hwrite] at h; cases h
      | ok result =>
        obtain ⟨result | result, memory⟩ := result
        · obtain rfl := writeBytesAt_refused hwrite
          rw [hwrite] at h
          cases h
          rfl
        · rw [hwrite] at h
          cases h

/-! ### Writes to disjoint ranges -/

theorem store_of_notMem {memory : HostMemory} {l : List UInt64} {bytes : List UInt8} {x : UInt64}
    (h : x ∉ l) : store memory l bytes x = memory x := by
  induction l generalizing memory bytes with
  | nil => rfl
  | cons a l ih =>
    cases bytes with
    | nil => rfl
    | cons b bytes =>
      rw [List.mem_cons, not_or] at h
      change store (Function.update memory a b) l bytes x = _
      rw [ih h.2, Function.update_of_ne h.1]

theorem map_store {memory : HostMemory} {l : List UInt64} {bytes : List UInt8} (hl : l.Nodup)
    (hlength : l.length = bytes.length) : l.map (store memory l bytes) = bytes := by
  induction l generalizing memory bytes with
  | nil => exact (List.length_eq_zero_iff.mp hlength.symm).symm
  | cons a l ih =>
    cases bytes with
    | nil => cases hlength
    | cons b bytes =>
      rw [List.nodup_cons] at hl
      change (a :: l).map (store (Function.update memory a b) l bytes) = _
      rw [List.map_cons, store_of_notMem hl.1, Function.update_self,
        ih hl.2 (Nat.succ.inj hlength)]

/-- Where no two bytes share an address, a write changes the bytes written and no other. -/
theorem flatten_store {ranges : List CursorRange} (hnodup : (addresses ranges).Nodup)
    (memory : HostMemory) {p : ℕ} {bytes : List UInt8}
    (hfits : p + bytes.length ≤ totalLength ranges) :
    flatten (store memory (((addresses ranges).drop p).take bytes.length) bytes) ranges =
      (flatten memory ranges).take p ++ bytes ++
        (flatten memory ranges).drop (p + bytes.length) := by
  set l := addresses ranges with hl
  have hsplit : l = l.take p ++ ((l.drop p).take bytes.length ++ l.drop (p + bytes.length)) := by
    rw [← List.drop_drop, List.take_append_drop, List.take_append_drop]
  have hlength : ((l.drop p).take bytes.length).length = bytes.length := by
    rw [List.length_take, List.length_drop, hl, length_addresses]
    omega
  rw [hsplit, List.nodup_append, List.nodup_append] at hnodup
  obtain ⟨-, ⟨hmid, -, hafter⟩, hbefore⟩ := hnodup
  have htake : (l.take p).map (store memory ((l.drop p).take bytes.length) bytes) =
      (l.take p).map memory := by
    refine List.map_congr_left fun x hx => store_of_notMem fun hmem => ?_
    exact hbefore x hx x (List.mem_append_left _ hmem) rfl
  have hdrop : (l.drop (p + bytes.length)).map (store memory ((l.drop p).take bytes.length) bytes) =
      (l.drop (p + bytes.length)).map memory := by
    refine List.map_congr_left fun x hx => store_of_notMem fun hmem => ?_
    exact hafter x hmem x hx rfl
  rw [flatten, flatten, ← hl, ← List.map_take, ← List.map_drop]
  refine (congrArg (List.map _) hsplit).trans ?_
  rw [List.map_append, List.map_append, htake, hdrop, map_store hmid hlength, List.append_assoc]

/-! ### The refinement -/

theorem toNat_sumLengths {ranges : List CursorRange} {length : UInt64}
    (h : length.toNat + totalLength ranges < 2 ^ 64) :
    (Cursor.sumLengths length ranges).toNat = length.toNat + totalLength ranges := by
  induction ranges generalizing length with
  | nil => rfl
  | cons r rs ih =>
    rw [totalLength_cons] at h ⊢
    have hover : ¬ Overflows length r.length := by
      rw [Overflows]
      omega
    have hadd : (length + r.length).toNat = length.toNat + r.length.toNat :=
      UInt64.toNat_add_of_toNat_lt (by omega)
    rw [Cursor.sumLengths, if_neg hover, ih (by rw [hadd]; omega), hadd]
    omega

/-- A cursor over the ranges starts at the first of their bytes. -/
theorem follows_withRanges {ranges : List CursorRange} (htotal : totalLength ranges < 2 ^ 64) :
    Follows ranges (Cursor.withRanges ranges) ⟨0, totalLength ranges, 0⟩ where
  ranges_eq := rfl
  length := (toNat_sumLengths (by simpa using htotal)).trans (Nat.zero_add _)
  offset := rfl
  le := Nat.zero_le _
  fits := (Nat.zero_add _).le
  position _ := liesAt_zero ranges 0

theorem not_faultsIn {ranges : List CursorRange} (h : ∀ r ∈ ranges, r.Accessible) :
    ¬ FaultsIn Faults ranges := by
  rintro ⟨r, hr, o, step, hle, hstep, hfault⟩
  exact hfault (accessible_of_le (h r hr) hstep hle)

/-- A read from further on is a read of a clone moved on; except that an empty read from past the end
is refused. -/
theorem Follows.readBytesAt_eq {ranges : List CursorRange} {c : Cursor} {f : FlatCursor}
    (h : Follows ranges c f) (htotal : totalLength ranges < 2 ^ 64)
    (haccess : ∀ r ∈ ranges, r.Accessible) (memory : HostMemory) {ahead n : UInt64}
    (hn : n ≠ 0 ∨ c.offset.toNat + ahead.toNat ≤ c.length.toNat) :
    (c.readBytesAt memory ahead n).map Except.toOption = (do
      let clone ← c.advance ahead
      let (result, _) ← clone.readBytes memory n
      .ok result.toOption) := by
  rw [h.offset, h.length] at hn
  have hle := h.le
  obtain ⟨c', hadvance, hfollows⟩ := h.advance ahead
  have hfitsiff : (f.advance ahead.toNat).Fits 0 n.toNat ↔ f.Fits ahead.toNat n.toNat := by
    have hpos : n ≠ 0 → 0 < n.toNat := fun hne =>
      Nat.pos_of_ne_zero fun hzero => hne (UInt64.toNat_inj.mp hzero)
    rw [FlatCursor.Fits, FlatCursor.Fits, FlatCursor.advance]
    dsimp only
    rcases hn with hn | hn
    · have := hpos hn
      omega
    · omega
  rw [hadvance]
  obtain ⟨hfits, hread | ⟨hfaults, -⟩⟩ | ⟨hfits, e, hrefused⟩ := h.readBytesAt htotal memory ahead n
  · have hslice : f.slice (addresses ranges) ahead.toNat n.toNat =
        (f.advance ahead.toNat).slice (addresses ranges) 0 n.toNat := by
      rw [FlatCursor.Fits] at hfits
      rw [FlatCursor.slice, FlatCursor.slice, FlatCursor.advance, Nat.min_eq_left (by omega)]
      dsimp only
      rw [Nat.add_zero, Nat.add_assoc]
    obtain ⟨-, ⟨c'', hread', -⟩ | ⟨hfaults, -⟩⟩ | ⟨hno, -⟩ := hfollows.readBytes memory n
    · rw [hread, hslice]
      change _ = (do let (result, _) ← c'.readBytes memory n; Except.ok result.toOption)
      rw [hread']
      rfl
    · exact absurd hfaults (not_faultsIn haccess)
    · exact absurd (hfitsiff.mpr hfits) hno
  · exact absurd hfaults (not_faultsIn haccess)
  · obtain ⟨hyes, -⟩ | ⟨-, e', hrefused'⟩ := hfollows.readBytes memory n
    · exact absurd (hfitsiff.mp hyes) hfits
    · rw [hrefused]
      change _ = (do let (result, _) ← c'.readBytes memory n; Except.ok result.toOption)
      rw [hrefused']
      rfl

/-- The first cursor over a list of ranges. -/
def Cursors.start (ranges : List CursorRange) (memory : HostMemory) : Cursors :=
  { memory, cursors := [Cursor.withRanges ranges] }

/-- The first flat cursor over a list of ranges. -/
def FlatCursors.start (ranges : List CursorRange) (memory : HostMemory) : FlatCursors :=
  { memory, cursors := [⟨0, totalLength ranges, 0⟩] }

theorem simulates_start {ranges : List CursorRange} (htotal : totalLength ranges < 2 ^ 64)
    (memory : HostMemory) :
    Simulates ranges (Cursors.start ranges memory) (FlatCursors.start ranges memory) :=
  ⟨rfl, .cons (follows_withRanges htotal) .nil⟩

/-- Cursors refine flat cursors: in every sequence of operations on the cursors of a list of ranges
in accessible memory, the replies and the memory are those of the flat cursors, and a read from
further on is a read of a clone moved on. Only a copy that faults ends a sequence early; a refused
operation changes nothing, and where no two bytes of the ranges share an address, a write changes the
bytes it addresses and no other. -/
theorem cursors_refine (ranges : List CursorRange) (htotal : totalLength ranges < 2 ^ 64)
    (memory : HostMemory) (ops : List (ℕ × Op)) :
    ((∀ r ∈ ranges, r.Accessible) →
      ∃ s t, (FlatCursors.start ranges memory).run ranges ops = t ∧
        (Cursors.start ranges memory).run ops = .ok (s, t.2) ∧ Simulates ranges s t.1 ∧
        (∀ c ∈ s.cursors, ∀ ahead n : UInt64,
          (n ≠ 0 ∨ c.offset.toNat + ahead.toNat ≤ c.length.toNat) →
          (c.readBytesAt s.memory ahead n).map Except.toOption = (do
            let clone ← c.advance ahead
            let (result, _) ← clone.readBytes s.memory n
            .ok result.toOption)) ∧
        ((addresses ranges).Nodup → ∀ f ∈ t.1.cursors, ∀ (ahead : ℕ) (bytes : List UInt8),
          f.Fits ahead bytes.length →
          let slice := f.slice (addresses ranges) ahead bytes.length
          let p := f.base + f.offset + ahead
          flatten (store s.memory slice bytes) ranges =
            (flatten s.memory ranges).take p ++ bytes ++
              (flatten s.memory ranges).drop (p + bytes.length) ∧
          ∀ x ∉ slice, store s.memory slice bytes x = s.memory x)) ∧
    (∀ death, (Cursors.start ranges memory).run ops = .error death →
      death = .readNull ∨ death = .writeNull) ∧
    ∀ s i op s', Cursors.exec s i op = .ok (s', .refused) → s' = s := by
  have hstart := simulates_start htotal memory
  refine ⟨fun haccess => ?_, fun death herror => ?_, fun s i op s' => exec_refused⟩
  · obtain ⟨s, hrun, hsim⟩ | ⟨_, -, hfaults, -⟩ := hstart.run htotal ops
    · refine ⟨s, _, rfl, hrun, hsim, fun c hc ahead n hn => ?_,
        fun hnodup f hf ahead bytes hfits => ⟨?_, fun x hx => store_of_notMem hx⟩⟩
      · obtain ⟨f, -, hfollows⟩ := forall₂_mem_left hsim.cursors hc
        exact hfollows.readBytesAt_eq htotal haccess s.memory hn
      · obtain ⟨c, -, hfollows⟩ := forall₂_mem_left hsim.cursors.flip hf
        have hwindow := hfollows.fits
        rw [FlatCursor.Fits] at hfits
        exact flatten_store hnodup s.memory (by omega)
    · exact absurd hfaults (not_faultsIn haccess)
  · obtain ⟨s, hrun, -⟩ | ⟨death', hdeath, -, hrun⟩ := hstart.run htotal ops
    · rw [hrun] at herror
      cases herror
    · rw [hrun] at herror
      obtain rfl := Except.error.inj herror
      exact hdeath

/-- Four bytes, an empty range, and two more. -/
def splitRanges : List CursorRange :=
  [⟨0x100000000, 4⟩, {}, ⟨0x200000000, 2⟩]

/-- Reading five bytes of the two ranges reads the last of them from the second. -/
theorem splitRanges_read :
    ∃ s, (Cursors.start splitRanges fun x => x.toUInt8).run [(0, .readBytes 5)] =
      .ok (s, [.bytes [0, 1, 2, 3, 0]]) := by
  obtain ⟨s, t, rfl, hrun, -⟩ :=
    (cursors_refine splitRanges (by decide) (fun x => x.toUInt8) [(0, .readBytes 5)]).1 (by
      rw [splitRanges, List.forall_mem_cons, List.forall_mem_cons, List.forall_mem_singleton]
      exact ⟨fun _ => by decide, fun h => absurd rfl h, fun _ => by decide⟩)
  exact ⟨s, hrun⟩

/-- A non-empty range at NULL faults instead of giving its bytes, and an empty read from past the end
is refused, while that of a clone moved on is not. -/
theorem nullRange_faults :
    (Cursor.withRanges [⟨0, 8⟩]).readBytes (fun _ => 0) 4 = .error .readNull ∧
    (Cursor.withRanges []).readBytesAt (fun _ => 0) 1 0 =
      .ok (.error (.pastEndAt .read 0 0 1 0)) ∧
    (Cursor.withRanges []).advance 1 = .ok (Cursor.withRanges []) ∧
    (Cursor.withRanges []).readBytes (fun _ => 0) 0 = .ok (.ok [], Cursor.withRanges []) := by
  refine ⟨?_, rfl, rfl, ?_⟩
  · rw [Cursor.readBytes]
    change (do let t ← transfer _ _ _; _) = _
    rw [transfer.eq_def, dif_neg (by decide)]
    rfl
  · rw [Cursor.readBytes]
    change (do let t ← transfer _ _ _; _) = _
    rw [transfer_of_bytes_eq_zero rfl]
    rfl

end ReimsVgpu.Memory
