import ReimsVgpu.Predication.Segments

/-!
# Records sent to a unit

What a unit keeps between records, and what a record leaves. A loop's body is encoded as the guest
sends it and then from the log, so the statements are about both at once: a `mode` says at which
entry of the log the records lie, if they come from it.

## Main definitions

* `Bound`, `Sound`: what holds of a unit between records.
* `feed`: records sent by the guest, or from the log.
* `Feeds`, `Encodes`: what records leave, and what a program's records mean.
* `Ready`, `Block.Encoded`: what a program needs, and that it is encoded.

## Main results

* `encodes_set`, `encodes_work`, `encodes_encoder`: the records that open and close no block.
-/

namespace ReimsVgpu.Predication

/-! ### What the runtime's encoder holds between records -/

/-- The runtime's encoder holds the guest's bindings; where the guest has set no pipeline, it holds
none, or is known to hold a foreign one. -/
def Bound (b : Bindings) (foreign : Bool) (v : View) : Prop :=
  ∃ held, v = b.viewWith held ∧ Holds b.pipeline held ∧
    (b.pipeline = none → held = none ∨ foreign = true)

section Bound

variable {b : Bindings} {foreign : Bool} {v : View}

theorem bound_empty : Bound {} false {} :=
  ⟨none, rfl, fun _ hp => hp, fun _ => .inl rfl⟩

theorem Bound.set (h : Bound b foreign v) (s : Setter) :
    Bound (b.apply s)
      (match Cmd.set s with
      | .set (.computePipelineState _) => false
      | _ => foreign) (v.set s) := by
  obtain ⟨held, rfl, hheld, hforeign⟩ := h
  obtain ⟨held', heq, hheld', hcase⟩ := View.set_viewWith b held s
  refine ⟨held', heq, hheld' hheld, ?_⟩
  rcases hcase with ⟨p, rfl⟩ | ⟨rfl, hpipeline⟩
  · intro hnone
    cases hnone
  · rw [hpipeline]
    intro hnone
    rcases hforeign hnone with hheld | hforeign
    · exact .inl hheld
    · cases s with
      | computePipelineState p => cases hpipeline.trans hnone
      | _ => exact .inr hforeign

theorem Bound.rebind (h : Bound b foreign v) (target : Bindings) :
    Bound target
      (match target.pipeline with
      | some _ => false
      | none => foreign || b.pipeline.isSome) (restore v b target false) := by
  obtain ⟨held, rfl, hheld, hforeign⟩ := h
  refine ⟨_, restore_viewWith b target hheld, ?_, ?_⟩
  · intro p hp
    rw [hp]
    rfl
  · intro hnone
    rw [hnone]
    cases hp : b.pipeline with
    | some p => exact .inr (Bool.or_true _)
    | none =>
      rcases hforeign hp with rfl | rfl
      · exact .inl rfl
      · exact .inr rfl

theorem Bound.step (h : Bound b foreign v) (kernel : Id)
    (slots : ℕ → Option (Id × UInt64 × UInt64)) (hslots : ∀ i, stepSlots ≤ i → slots i = v.buffers i) :
    Bound b b.pipeline.isNone
      (restore { v with buffers := slots, pipeline := some kernel } b b true) := by
  obtain ⟨held, rfl, -, -⟩ := h
  refine ⟨_, restore_step b held (some kernel) slots hslots, ?_, ?_⟩
  · intro p hp
    rw [hp]
    rfl
  · intro hnone
    rw [hnone]
    exact .inr rfl

/-- What a fresh runtime encoder holds. -/
theorem restore_fresh (b : Bindings) : restore {} {} b false = b.view := by
  have hempty : Holds ({} : Bindings).pipeline none := fun _ hp => hp
  have h := restore_viewWith {} b hempty
  rw [Option.or_none] at h
  exact h

/-- What work is sent with, a fresh runtime encoder in the place of one with a foreign pipeline. -/
theorem Bound.view_eq (h : Bound b foreign v) (hforeign : (foreign && b.pipeline.isNone) = false) :
    v = b.view := by
  obtain ⟨held, rfl, hheld, hnone⟩ := h
  rw [Bindings.view]
  congr 1
  cases hp : b.pipeline with
  | some p => exact hheld p hp
  | none =>
    rw [hp, Option.isNone_none, Bool.and_true] at hforeign
    rcases hnone hp with hheld | htrue
    · exact hheld
    · rw [hforeign] at htrue
      cases htrue

end Bound

/-- What holds of a unit between records. -/
structure Sound (u : ComputeUnit) : Prop where
  emptied : u.emptied = false
  bound : Bound u.bindings u.foreign u.runtime
  stepped : u.predicated = true → u.stepped = true

/-! ### Records from the guest, and from the log -/

/-- A record, from the guest or from an entry of the log. -/
def send (enc : ComputeUnit → Logged → Except Death ComputeUnit) (mode : Option ℕ)
    (u : ComputeUnit) (r : Logged) : Except Death ComputeUnit :=
  match mode with
  | none => enc u r
  | some i => ComputeUnit.replayEntry enc u i

/-- Records, from the guest or from the log's entries from one on. -/
def feed (enc : ComputeUnit → Logged → Except Death ComputeUnit) (mode : Option ℕ)
    (u : ComputeUnit) : List Logged → Except Death ComputeUnit
  | [] => .ok u
  | r :: rest => do
    let u ← send enc mode u r
    feed enc (mode.map (· + 1)) u rest

/-- Records that come from the log lie there. -/
def Placed (mode : Option ℕ) (log records : List Logged) : Prop :=
  ∀ i, mode = some i → ∃ pre post, log = pre ++ (records ++ post) ∧ pre.length = i

/-- The log after records: from it, as it was; from the guest, with them, where a loop is open. -/
def Logs (mode : Option ℕ) (loops : ℕ) (before records after : List Logged) : Prop :=
  (mode ≠ none → after = before) ∧ (mode = none → 0 < loops → after = before ++ records)

section Feed

variable {enc : ComputeUnit → Logged → Except Death ComputeUnit} {mode : Option ℕ}
variable {u v w : ComputeUnit} {r : Logged} {rs ss : List Logged} {log log' log'' : List Logged}

theorem feed_cons (h : send enc mode u r = .ok v) :
    feed enc mode u (r :: rs) = feed enc (mode.map (· + 1)) v rs := by
  rw [feed, h]
  rfl

theorem map_add_zero (mode : Option ℕ) : mode.map (· + 0) = mode := by
  cases mode <;> rfl

theorem map_add_add (mode : Option ℕ) (m n : ℕ) :
    (mode.map (· + m)).map (· + n) = mode.map (· + (m + n)) := by
  cases mode with
  | none => rfl
  | some i => exact congrArg some (Nat.add_assoc i m n)

theorem feed_append (h : feed enc mode u rs = .ok v) :
    feed enc mode u (rs ++ ss) = feed enc (mode.map (· + rs.length)) v ss := by
  induction rs generalizing mode u with
  | nil =>
    obtain rfl := Except.ok.inj h
    rw [List.nil_append, List.length_nil, map_add_zero]
  | cons r rs ih =>
    rw [feed] at h
    cases hsend : send enc mode u r with
    | error e =>
      rw [hsend] at h
      cases h
    | ok w =>
      rw [hsend] at h
      rw [List.cons_append, feed_cons hsend, ih h, map_add_add, List.length_cons, Nat.add_comm 1]

theorem feed_none (u : ComputeUnit) (rs : List Logged) : feed enc none u rs = rs.foldlM enc u := by
  induction rs generalizing u with
  | nil => rfl
  | cons r rs ih =>
    rw [feed, List.foldlM_cons]
    exact congrArg _ (funext ih)

theorem feed_some (u : ComputeUnit) (i : ℕ) (rs : List Logged) :
    feed enc (some i) u rs = ComputeUnit.replayWith enc u i (i + rs.length) := by
  induction rs generalizing u i with
  | nil =>
    rw [ComputeUnit.replayWith, List.length_nil, Nat.add_zero, Nat.sub_self]
    rfl
  | cons r rs ih =>
    rw [feed, ComputeUnit.replayWith, List.length_cons, Nat.add_sub_cancel_left, List.range'_succ,
      List.foldlM_cons]
    refine congrArg _ (funext fun v => ?_)
    refine (ih v (i + 1)).trans ?_
    rw [ComputeUnit.replayWith, Nat.add_sub_cancel_left]

theorem placed_none (log records : List Logged) : Placed none log records := by
  intro i hi
  cases hi

theorem Placed.get {i : ℕ} (h : Placed (some i) log (r :: rs)) : log[i]? = some r := by
  obtain ⟨pre, post, hlog, hlen⟩ := h i rfl
  rw [hlog, ← hlen, List.getElem?_append_right le_rfl, Nat.sub_self]
  rfl

/-- A record sent is encoded at its entry, and the entry before is the unit's again. -/
theorem send_eq (hplaced : Placed mode u.log (r :: rs)) (hr : r ≠ .encoder)
    (hcursor : mode = none → u.cursor = none) (henc : enc { u with cursor := mode } r = .ok v)
    (hv : v.cursor = mode) : send enc mode u r = .ok { v with cursor := u.cursor } := by
  cases mode with
  | none =>
    rw [← hcursor rfl] at henc hv
    rw [send, ← hv]
    exact henc
  | some i =>
    rw [send, ComputeUnit.replayEntry, hplaced.get]
    cases r with
    | encoder => exact absurd rfl hr
    | _ => exact congrArg (fun x => x >>= _) henc

theorem Placed.tail (h : Placed mode log (r :: rs)) : Placed (mode.map (· + 1)) log rs := by
  intro i hi
  obtain ⟨j, rfl, rfl⟩ := Option.map_eq_some_iff.mp hi
  obtain ⟨pre, post, hlog, hlen⟩ := h j rfl
  refine ⟨pre ++ [r], post, ?_, ?_⟩
  · rw [hlog, List.append_assoc]
    rfl
  · rw [List.length_append, hlen]
    rfl

theorem Placed.left (h : Placed mode log (rs ++ ss)) : Placed mode log rs := by
  intro i hi
  obtain ⟨pre, post, hlog, hlen⟩ := h i hi
  exact ⟨pre, ss ++ post, by rw [hlog, List.append_assoc], hlen⟩

theorem Placed.right (rs : List Logged) (h : Placed mode log (rs ++ ss)) :
    Placed (mode.map (· + rs.length)) log ss := by
  intro i hi
  obtain ⟨j, rfl, rfl⟩ := Option.map_eq_some_iff.mp hi
  obtain ⟨pre, post, hlog, hlen⟩ := h j rfl
  refine ⟨pre ++ rs, post, ?_, ?_⟩
  · rw [hlog]
    simp only [List.append_assoc]
  · rw [List.length_append, hlen]

theorem map_eq_none {n : ℕ} : mode.map (· + n) = none ↔ mode = none :=
  Option.map_eq_none_iff

theorem Logs.append {loops n : ℕ} (h₁ : Logs mode loops log rs log')
    (h₂ : Logs (mode.map (· + n)) loops log' ss log'') :
    Logs mode loops log (rs ++ ss) log'' := by
  refine ⟨fun hmode => ?_, fun hmode hloops => ?_⟩
  · rw [h₂.1 (map_eq_none.not.mpr hmode), h₁.1 hmode]
  · rw [h₂.2 (map_eq_none.mpr hmode) hloops, h₁.2 hmode hloops, List.append_assoc]

theorem Placed.logs {loops n : ℕ} (h : Placed (mode.map (· + n)) log rs)
    (hlogs : Logs mode loops log ss log') : Placed (mode.map (· + n)) log' rs := by
  intro i hi
  obtain ⟨j, rfl, -⟩ := Option.map_eq_some_iff.mp hi
  rw [hlogs.1 (Option.some_ne_none j)]
  exact h i hi

end Feed

/-! ### One record -/

namespace ComputeUnit

/-- The unit as a record finds it: at the record's entry, and with the guest's in an open loop's
log. -/
def noted (u : ComputeUnit) (mode : Option ℕ) (r : Logged) : ComputeUnit :=
  { u with
    cursor := mode
    log := if mode.isNone && decide (0 < u.loopCount) then u.log ++ [r] else u.log }

theorem recording_eq {u : ComputeUnit} (h : u.emptied = false) (mode : Option ℕ) :
    ({ u with cursor := mode } : ComputeUnit).recording =
      (mode.isNone && decide (0 < u.loopCount)) := by
  rw [recording, h]
  rfl

theorem observe_eq {u : ComputeUnit} (h : u.emptied = false) (mode : Option ℕ) (c : Cmd)
    (hc : ∀ s, c ≠ .set s) :
    ({ u with cursor := mode } : ComputeUnit).observe c = u.noted mode (.cmd c) := by
  cases c with
  | set s => exact absurd rfl (hc s)
  | _ => simp only [observe, noted, recording_eq h]

theorem noted_logs (u : ComputeUnit) (mode : Option ℕ) (r : Logged) :
    Logs mode u.loopCount u.log [r] (u.noted mode r).log := by
  refine ⟨fun hmode => ?_, fun hmode hloops => ?_⟩
  · cases mode with
    | none => exact absurd rfl hmode
    | some i => rfl
  · subst hmode
    change (if true && decide (0 < u.loopCount) then u.log ++ [r] else u.log) = _
    rw [Bool.true_and, decide_eq_true hloops, if_pos rfl]

theorem step_bound {u : ComputeUnit} (h : Bound u.bindings u.foreign u.runtime) (device : Device)
    (s : Step) (guest : Option (Id × UInt64)) :
    Bound (u.step device s guest).bindings (u.step device s guest).foreign
      (u.step device s guest).runtime := by
  refine h.step device.kernel (u.stepBuffers device guest) fun i hi => ?_
  rw [stepSlots] at hi
  rw [stepBuffers, Function.update_of_ne (by omega), Function.update_of_ne (by omega),
    Function.update_of_ne (by omega)]

end ComputeUnit

/-! ### Records encoded -/

section Encodes

variable {Mem : Type*} (device : Device) (sem : Semantics Mem)

/-- What records leave, whatever they mean; `loops` of them start loops. -/
structure Feeds (enc : ComputeUnit → Logged → Except Death ComputeUnit) (opened : ℕ)
    (mode : Option ℕ) (u : ComputeUnit) (records : List Logged) (loops : ℕ) (u' : ComputeUnit) :
    Prop where
  fed : feed enc mode u records = .ok u'
  emptied : u'.emptied = false
  bound : Bound u'.bindings u'.foreign u'.runtime
  cursor : u'.cursor = u.cursor
  stepped : u.stepped = true → u'.stepped = true
  log : Logs mode opened u.log records u'.log
  kept : mode ≠ none → u'.loops = u.loops
  flagged : mode = none → u'.loops = u.loops + loops

/-- What the records of a program leave: the blocks open before are open again, the bindings are
those of the text, and what is encoded runs as `run` does, and can be skipped inside a block that
skips. -/
structure Encodes (enc : ComputeUnit → Logged → Except Death ComputeUnit) (mode : Option ℕ)
    (u : ComputeUnit) (records : List Logged) (loops levels : ℕ) (after : Bindings)
    (run : Mem → Option (Mem × List Done)) (u' : ComputeUnit) : Prop
    extends Feeds enc u.loopCount mode u records loops u' where
  stack : u'.stack = u.stack
  bindings : u'.bindings = after
  seg : ∃ seg, u'.out = u.out ++ seg ∧ Runs device sem u.stepped u'.stepped seg run ∧
    (u.predicated = true → Skips device sem true true seg levels)

/-- What a program needs to be encoded: the unit sound, its records where they are said to be, no
loop inside two others, a flag for each loop, its words in their buffers, a pipeline for its
predicated work, and its blocks within the counter. -/
structure Ready (fuel : ℕ) (mode : Option ℕ) (u : ComputeUnit) (B : Block) : Prop where
  sound : Sound u
  cursor : mode = none → u.cursor = none
  placed : Placed mode u.log B.records
  opened : u.loopCount + B.loopDepth ≤ 2
  fuel : B.loopDepth ≤ fuel
  flags : mode = none → u.loops + B.loopCount ≤ maxFlags
  within : B.Within device u.predicated u.bindings
  pipeline : B.PipelineSet u.predicated u.bindings
  depth : B.depth < 2 ^ 32

variable {device sem} {enc : ComputeUnit → Logged → Except Death ComputeUnit} {mode : Option ℕ}
variable {u u₁ u₂ : ComputeUnit} {rs ss : List Logged} {loops loops' levels : ℕ}
variable {after after' : Bindings} {run next : Mem → Option (Mem × List Done)}

theorem predicated_of_stack (h : u₁.stack = u.stack) : u₁.predicated = u.predicated := by
  rw [ComputeUnit.predicated, ComputeUnit.predicated, h]

theorem loopCount_of_stack (h : u₁.stack = u.stack) : u₁.loopCount = u.loopCount := by
  rw [ComputeUnit.loopCount, ComputeUnit.loopCount, h]

theorem Feeds.append {opened : ℕ} (h₁ : Feeds enc opened mode u rs loops u₁)
    (h₂ : Feeds enc opened (mode.map (· + rs.length)) u₁ ss loops' u₂) :
    Feeds enc opened mode u (rs ++ ss) (loops + loops') u₂ where
  fed := (feed_append h₁.fed).trans h₂.fed
  emptied := h₂.emptied
  bound := h₂.bound
  cursor := h₂.cursor.trans h₁.cursor
  stepped := fun h => h₂.stepped (h₁.stepped h)
  log := h₁.log.append h₂.log
  kept := fun hmode => (h₂.kept (map_eq_none.not.mpr hmode)).trans (h₁.kept hmode)
  flagged := by
    intro hmode
    rw [h₂.flagged (map_eq_none.mpr hmode), h₁.flagged hmode, Nat.add_assoc]

theorem Encodes.sound (h : Encodes device sem enc mode u rs loops levels after run u₁)
    (hu : Sound u) : Sound u₁ := by
  refine ⟨h.emptied, h.bound, fun hp => h.stepped (hu.stepped ?_)⟩
  rw [← predicated_of_stack h.stack]
  exact hp

theorem Encodes.mono {levels' : ℕ} (h : Encodes device sem enc mode u rs loops levels after run u₁)
    (hle : levels ≤ levels') : Encodes device sem enc mode u rs loops levels' after run u₁ := by
  obtain ⟨seg, hout, hruns, hskips⟩ := h.seg
  exact { h with seg := ⟨seg, hout, hruns, fun hp => (hskips hp).mono hle⟩ }

theorem Encodes.append (h₁ : Encodes device sem enc mode u rs loops levels after run u₁)
    (h₂ : Encodes device sem enc (mode.map (· + rs.length)) u₁ ss loops' levels after' next u₂) :
    Encodes device sem enc mode u (rs ++ ss) (loops + loops') levels after'
      (fun m => Block.andThen (run m) next) u₂ where
  toFeeds := by
    have hfeeds := h₂.toFeeds
    rw [loopCount_of_stack h₁.stack] at hfeeds
    exact h₁.toFeeds.append hfeeds
  stack := h₂.stack.trans h₁.stack
  bindings := h₂.bindings
  seg := by
    obtain ⟨first, hout₁, hruns₁, hskips₁⟩ := h₁.seg
    obtain ⟨second, hout₂, hruns₂, hskips₂⟩ := h₂.seg
    refine ⟨first ++ second, ?_, hruns₁.append hruns₂, fun hp => ?_⟩
    · rw [hout₂, hout₁, List.append_assoc]
    · exact (hskips₁ hp).append (hskips₂ ((predicated_of_stack h₁.stack).trans hp))

/-- After some records, a program is ready for the encoding where it was before them. -/
theorem Feeds.ready {opened fuel : ℕ} {B : Block} (h : Feeds enc opened mode u rs loops u₁)
    (hsound : Sound u₁) (hcursor : mode = none → u.cursor = none)
    (hplaced : Placed mode u.log (rs ++ (B.records ++ ss)))
    (hopen : u₁.loopCount + B.loopDepth ≤ 2) (hfuel : B.loopDepth ≤ fuel)
    (hflags : mode = none → u.loops + (loops + B.loopCount) ≤ maxFlags)
    (hwithin : B.Within device u₁.predicated u₁.bindings)
    (hpipeline : B.PipelineSet u₁.predicated u₁.bindings) (hdepth : B.depth < 2 ^ 32) :
    Ready device fuel (mode.map (· + rs.length)) u₁ B where
  sound := hsound
  cursor := fun hmode => h.cursor.trans (hcursor (map_eq_none.mp hmode))
  placed := (hplaced.right rs).left.logs h.log
  opened := hopen
  fuel := hfuel
  flags := by
    intro hmode
    rw [h.flagged (map_eq_none.mp hmode), Nat.add_assoc]
    exact hflags (map_eq_none.mp hmode)
  within := hwithin
  pipeline := hpipeline
  depth := hdepth

/-- The encoding of a program, from any unit ready for it. -/
def Block.Encoded (device : Device) (sem : Semantics Mem) (B : Block) : Prop :=
  ∀ fuel mode u, Ready device fuel mode u B →
    ∃ u', Encodes device sem (ComputeUnit.encode device fuel) mode u B.records B.loopCount B.depth
        (B.after u.bindings) (B.exec sem laidDown u.loopCount u.bindings) u' ∧
      (0 < B.depth → u'.stepped = true)

end Encodes

/-! ### Work -/

section SendWork

variable {Mem : Type*} {device : Device} {sem : Semantics Mem} {u : ComputeUnit} {w : Work}

/-- What a record that opens and closes nothing leaves alone. -/
structure Kept (u u' : ComputeUnit) : Prop where
  stack : u'.stack = u.stack
  cursor : u'.cursor = u.cursor
  log : u'.log = u.log
  bindings : u'.bindings = u.bindings
  loops : u'.loops = u.loops

theorem Kept.step (device : Device) (u : ComputeUnit) (s : Step) (guest : Option (Id × UInt64)) :
    Kept u (u.step device s guest) :=
  ⟨rfl, rfl, rfl, rfl, rfl⟩

theorem Kept.trans {v w : ComputeUnit} (h₁ : Kept u v) (h₂ : Kept v w) : Kept u w where
  stack := h₂.stack.trans h₁.stack
  cursor := h₂.cursor.trans h₁.cursor
  log := h₂.log.trans h₁.log
  bindings := h₂.bindings.trans h₁.bindings
  loops := h₂.loops.trans h₁.loops

/-- An execution of no command runs nothing. -/
theorem idle_emptyRange (hw : w.emptyRange = true) (m : Mem) :
    w.form.idle (sem.arguments m w) = true := by
  cases w with
  | execute icb start stop =>
    have hle : stop.toNat ≤ start.toNat := UInt64.le_iff_toNat_le.mp (of_decide_eq_true hw)
    change Form.idle (.execute icb) [start.toUInt32, UInt32.ofNat (stop.toNat - start.toNat)] = true
    rw [Nat.sub_eq_zero_of_le hle]
    have hbit : (2 : UInt32) &&& 1 = 0 := by decide
    simp [Form.idle, Form.mask, List.range_succ, hbit]
  | _ => cases hw

theorem directOnly_emptyRange (hw : w.emptyRange = true) (pipeline : Option Id) :
    w.directOnly device pipeline = false := by
  cases w with
  | execute icb start stop => cases pipeline <;> rfl
  | _ => cases hw

/-- Work sent direct whatever the counter changes nothing. -/
theorem skips_sent_direct (hsem : sem.Lawful device) {v : View} {b : Bool}
    (hw : (w.emptyRange || w.directOnly device v.pipeline) = true) (levels : ℕ) :
    Skips device sem b b [.direct w v] levels := by
  rcases Bool.or_eq_true_iff.mp hw with hempty | hdirect
  · refine skips_direct (fun m => ?_) (fun m => ?_) levels
    · rw [hsem.effect_eq w v m (directOnly_emptyRange hempty _)]
      exact hsem.indirect_idle _ _ _ _ (idle_emptyRange hempty m)
    · rw [Done.effective, idle_emptyRange hempty m, Bool.not_true, Bool.and_false]
  · refine skips_direct (fun m => hsem.effect_directOnly w v m hdirect) (fun m => ?_) levels
    rw [Done.effective, hdirect, Bool.not_true, Bool.false_and]

/-- The unit with a fresh runtime encoder. -/
theorem refresh_sound (h : Sound u) : Sound u.refresh := by
  refine ⟨h.emptied, ?_, h.stepped⟩
  exact ⟨u.bindings.pipeline, restore_fresh u.bindings, fun _ hp => hp, fun hp => .inl hp⟩

theorem sendWork_refresh (h : Sound u)
    (hforeign : (u.foreign && u.bindings.pipeline.isNone) = true) (w : Work) :
    u.sendWork device w = u.refresh.sendWork device w := by
  have hfresh : u.refresh.foreign = false := rfl
  simp only [ComputeUnit.sendWork, h.emptied, (refresh_sound h).emptied, hforeign, hfresh,
    Bool.false_and, Bool.false_eq_true, if_true, if_false]

theorem sendWork_view (hsem : sem.Lawful device) (h : Sound u) (levels : ℕ)
    (hforeign : (u.foreign && u.bindings.pipeline.isNone) = false)
    (hwithin : u.predicated = true → w.emptyRange = false →
      w.directOnly device u.bindings.pipeline = false → ∃ s, w.arguments device = .ok s)
    (hpipeline : u.predicated = true → w.emptyRange = false → u.bindings.pipeline ≠ none) :
    ∃ u' seg, u.sendWork device w = .ok u' ∧ Kept u u' ∧ Sound u' ∧
      (u.stepped = true → u'.stepped = true) ∧ u'.out = u.out ++ seg ∧
      Runs device sem u.stepped u'.stepped seg (ranWork sem w u.bindings.view) ∧
      (u.predicated = true → Skips device sem true true seg levels) := by
  have hview := h.bound.view_eq hforeign
  simp only [ComputeUnit.sendWork, h.emptied, hforeign, Bool.false_eq_true, if_false]
  by_cases hdirect : (w.emptyRange || w.directOnly device u.bindings.pipeline) = true
  · rw [if_pos hdirect]
    refine ⟨_, [.direct w u.runtime], rfl, ⟨rfl, rfl, rfl, rfl, rfl⟩,
      ⟨rfl, h.bound, h.stepped⟩, id, rfl, ?_, fun _ => ?_⟩
    · rw [hview]
      exact runs_direct w _
    · rw [hview]
      exact skips_sent_direct hsem hdirect levels
  · rw [if_neg hdirect]
    rw [Bool.not_eq_true, Bool.or_eq_false_iff] at hdirect
    obtain ⟨hempty, hdirect⟩ := hdirect
    change ∃ u' seg, (if !u.predicated then _ else _) = Except.ok u' ∧ _
    cases hp : u.predicated with
    | false =>
      refine ⟨_, [.direct w u.runtime], rfl, ⟨rfl, rfl, rfl, rfl, rfl⟩,
        ⟨rfl, h.bound, h.stepped⟩, id, rfl, ?_, fun hfalse => absurd hfalse Bool.false_ne_true⟩
      rw [hview]
      exact runs_direct w _
    | true =>
      obtain ⟨⟨s, guest⟩, hargs⟩ := hwithin hp hempty hdirect
      obtain ⟨p, hset⟩ := Option.ne_none_iff_exists'.mp (hpipeline hp hempty)
      have hstepped : u.stepped = true := h.stepped hp
      have hbound := ComputeUnit.step_bound h.bound device s guest
      have hrun : (u.step device s guest).runtime = u.bindings.view := by
        refine hbound.view_eq ?_
        change (u.bindings.pipeline.isNone && u.bindings.pipeline.isNone) = false
        rw [hset]
        rfl
      rw [hargs]
      refine ⟨_, [stepFlat true u.steps s guest, .indirect w u.steps u.bindings.view], rfl,
        ⟨rfl, rfl, rfl, rfl, rfl⟩, ⟨rfl, hbound, fun _ => rfl⟩, fun _ => rfl, ?_, ?_, fun _ => ?_⟩
      · change (u.out ++ [stepFlat u.stepped u.steps s guest]) ++
          [.indirect w u.steps (u.step device s guest).runtime] = _
        rw [hrun, hstepped, List.append_assoc]
        rfl
      · rw [hstepped]
        exact runs_predicated hsem hargs hdirect u.steps
      · exact skips_predicated hsem hargs u.steps levels

theorem sendWork_spec (hsem : sem.Lawful device) (h : Sound u) (levels : ℕ)
    (hwithin : u.predicated = true → w.emptyRange = false →
      w.directOnly device u.bindings.pipeline = false → ∃ s, w.arguments device = .ok s)
    (hpipeline : u.predicated = true → w.emptyRange = false → u.bindings.pipeline ≠ none) :
    ∃ u' seg, u.sendWork device w = .ok u' ∧ Kept u u' ∧ Sound u' ∧
      (u.stepped = true → u'.stepped = true) ∧ u'.out = u.out ++ seg ∧
      Runs device sem u.stepped u'.stepped seg (ranWork sem w u.bindings.view) ∧
      (u.predicated = true → Skips device sem true true seg levels) := by
  cases hforeign : u.foreign && u.bindings.pipeline.isNone with
  | false => exact sendWork_view hsem h levels hforeign hwithin hpipeline
  | true =>
    rw [sendWork_refresh h hforeign]
    obtain ⟨u', seg, hsent, hkept, hrest⟩ :=
      sendWork_view hsem (refresh_sound h) levels rfl hwithin hpipeline
    exact ⟨u', seg, hsent,
      ⟨hkept.stack, hkept.cursor, hkept.log, hkept.bindings, hkept.loops⟩, hrest⟩

end SendWork

/-! ### Records that open and close no block -/

section Records

variable {Mem : Type*} {device : Device} {sem : Semantics Mem} {fuel : ℕ} {mode : Option ℕ}
variable {u : ComputeUnit} {rs : List Logged}

theorem encode_cmd (device : Device) (fuel : ℕ) (u : ComputeUnit) (c : Cmd) :
    ComputeUnit.encode device fuel u (.cmd c) = u.command device c := by
  cases fuel <;> rfl

theorem feed_one {enc : ComputeUnit → Logged → Except Death ComputeUnit} {r : Logged}
    {v : ComputeUnit} (hplaced : Placed mode u.log (r :: rs)) (hr : r ≠ .encoder)
    (hcursor : mode = none → u.cursor = none) (henc : enc { u with cursor := mode } r = .ok v)
    (hv : v.cursor = mode) : feed enc mode u [r] = .ok { v with cursor := u.cursor } :=
  feed_cons (send_eq hplaced hr hcursor henc hv)

theorem encodes_set (fuel : ℕ) (h : Sound u) (hcursor : mode = none → u.cursor = none) (s : Setter)
    (hplaced : Placed mode u.log (.cmd (.set s) :: rs)) (levels : ℕ) :
    ∃ u', Encodes device sem (ComputeUnit.encode device fuel) mode u [.cmd (.set s)] 0 levels
      (u.bindings.apply s) (fun m => some (m, [])) u' := by
  refine ⟨_, {
    fed := feed_one hplaced (by simp) hcursor (encode_cmd device fuel _ _) rfl
    emptied := h.emptied
    bound := h.bound.set s
    stack := rfl
    cursor := rfl
    bindings := rfl
    stepped := id
    log := ?_
    kept := fun _ => rfl
    flagged := fun _ => rfl
    seg := ⟨[], (List.append_nil _).symm, runs_nil _, fun _ => skips_nil _ _⟩ }⟩
  have hlog := u.noted_logs mode (.cmd (.set s))
  rw [ComputeUnit.noted, ← ComputeUnit.recording_eq h.emptied] at hlog
  exact hlog

theorem noted_sound (h : Sound u) (mode : Option ℕ) (r : Logged) : Sound (u.noted mode r) :=
  ⟨h.emptied, h.bound, h.stepped⟩

theorem encodes_work (fuel : ℕ) (hsem : sem.Lawful device) (h : Sound u)
    (hcursor : mode = none → u.cursor = none) {w : Work}
    (hplaced : Placed mode u.log (.cmd (.work w) :: rs)) (levels : ℕ)
    (hwithin : u.predicated = true → w.emptyRange = false →
      w.directOnly device u.bindings.pipeline = false → ∃ s, w.arguments device = .ok s)
    (hpipeline : u.predicated = true → w.emptyRange = false → u.bindings.pipeline ≠ none) :
    ∃ u', Encodes device sem (ComputeUnit.encode device fuel) mode u [.cmd (.work w)] 0 levels
      u.bindings (ranWork sem w u.bindings.view) u' := by
  obtain ⟨v, seg, hsent, hkept, hsound, hstepped, hout, hruns, hskips⟩ :=
    sendWork_spec hsem (noted_sound h mode (.cmd (.work w))) levels hwithin hpipeline
  have henc : ComputeUnit.encode device fuel { u with cursor := mode } (.cmd (.work w)) =
      .ok v := by
    rw [encode_cmd, ComputeUnit.command, ComputeUnit.observe_eq h.emptied mode _ (by simp)]
    exact hsent
  refine ⟨_, {
    fed := feed_one hplaced (by simp) hcursor henc hkept.cursor
    emptied := hsound.emptied
    bound := hsound.bound
    stack := hkept.stack
    cursor := rfl
    bindings := hkept.bindings
    stepped := hstepped
    log := ?_
    kept := fun _ => hkept.loops
    flagged := fun _ => hkept.loops
    seg := ⟨seg, hout, hruns, hskips⟩ }⟩
  change Logs mode u.loopCount u.log [_] v.log
  rw [hkept.log]
  exact u.noted_logs mode _

theorem encodes_encoder (fuel : ℕ) (h : Sound u) (hcursor : mode = none → u.cursor = none)
    (hplaced : Placed mode u.log (.encoder :: rs)) (levels : ℕ) :
    ∃ u', Encodes device sem (ComputeUnit.encode device fuel) mode u [.encoder] 0 levels {}
      (fun m => some (m, [])) u' := by
  cases mode with
  | none =>
    have henc : ComputeUnit.encode device fuel u .encoder = .ok u.encoder := by cases fuel <;> rfl
    refine ⟨u.encoder, {
      fed := feed_cons henc
      emptied := h.emptied
      bound := bound_empty
      stack := rfl
      cursor := rfl
      bindings := rfl
      stepped := id
      log := ⟨fun hmode => absurd rfl hmode, fun _ hloops => ?_⟩
      kept := fun _ => rfl
      flagged := fun _ => rfl
      seg := ⟨[], (List.append_nil _).symm, runs_nil _, fun _ => skips_nil _ _⟩ }⟩
    have hrec : u.recording = true := by
      rw [ComputeUnit.recording, h.emptied, hcursor rfl, decide_eq_true hloops]
      rfl
    change (if u.recording then u.log ++ [.encoder] else u.log) = _
    rw [hrec, if_pos rfl]
  | some i =>
    have hsend : send (ComputeUnit.encode device fuel) (some i) u .encoder =
        .ok { (({ u with cursor := some i } : ComputeUnit).rebind {}) with cursor := u.cursor } := by
      rw [send, ComputeUnit.replayEntry, hplaced.get]
      rfl
    exact ⟨_, {
      fed := feed_cons hsend
      emptied := h.emptied
      bound := h.bound.rebind {}
      stack := rfl
      cursor := rfl
      bindings := rfl
      stepped := id
      log := ⟨fun _ => rfl, fun hmode => by cases hmode⟩
      kept := fun _ => rfl
      flagged := fun _ => rfl
      seg := ⟨[], (List.append_nil _).symm, runs_nil _, fun _ => skips_nil _ _⟩ }⟩

end Records

end ReimsVgpu.Predication
