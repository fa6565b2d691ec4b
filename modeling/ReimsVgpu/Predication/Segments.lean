import ReimsVgpu.Predication.Program
import Mathlib.Data.UInt
import Mathlib.Algebra.Group.Basic
import Mathlib.Tactic.IntervalCases

/-!
# Segments of the flat sequence

What a stretch of the flat sequence does, by the counter it finds: at 0 it runs a program (`Runs`),
above 0 it changes nothing and leaves the counter (`Skips`). A unit's first step resets the counter,
so that before it the counter found is 0 whatever the buffer holds.

The counter is 32 bits wide. A skipped segment counts on from what it finds, a level for each block
it holds, so it comes back only where that stays below `2^32`.

## Main definitions

* `found`, `RunsTo`, `Runs`, `Skips`, `Moves`, `Turns`.

## Main results

* `Runs.append`, `Skips.append`: sequences.
* `runs_ifThen`, `runs_ifElse`, `Skips.block`, `Skips.ifElse`: conditional blocks.
* `runsTo_while_turn`, `runsTo_doWhile_turn`: the turns of a loop.
-/

namespace ReimsVgpu.Predication

variable {Mem : Type*} (device : Device) (sem : Semantics Mem)

/-- The counter as the next step finds it. -/
def found (stepped : Bool) (g : Gpu Mem) : UInt32 := if stepped then g.state.counter else 0

/-- Found at 0, the segment does what `run` does, where that has a result, and leaves the counter
at `last`. -/
def RunsTo (last : UInt32) (before after : Bool) (seg : List Flat)
    (run : Mem → Option (Mem × List Done)) : Prop :=
  ∀ (g : Gpu Mem) (m : Mem) (ran : List Done), found before g = 0 → run g.mem = some (m, ran) →
    found after (g.runAll sem seg) = last ∧ (g.runAll sem seg).mem = m ∧
      effective device (g.runAll sem seg).done =
        effective device g.done ++ effective device ran

/-- Found at 0, the segment does what `run` does, and leaves the counter at 0. -/
def Runs (before after : Bool) (seg : List Flat) (run : Mem → Option (Mem × List Done)) : Prop :=
  RunsTo device sem 0 before after seg run

/-- Found above 0, with room for `levels` more, the segment leaves everything as it was. -/
def Skips (before after : Bool) (seg : List Flat) (levels : ℕ) : Prop :=
  ∀ g : Gpu Mem, found before g ≠ 0 → (found before g).toNat + levels < 2 ^ 32 →
    found after (g.runAll sem seg) = found before g ∧ (g.runAll sem seg).mem = g.mem ∧
      effective device (g.runAll sem seg).done = effective device g.done

/-- The segment only moves the counter, as `next` has it. -/
def Moves (before : Bool) (seg : List Flat) (next : Mem → UInt32 → UInt32) : Prop :=
  ∀ g : Gpu Mem, found true (g.runAll sem seg) = next g.mem (found before g) ∧
    (g.runAll sem seg).mem = g.mem ∧ (g.runAll sem seg).done = g.done

/-- The counter after a block's end. -/
def atEnd (_ : Mem) (c : UInt32) : UInt32 := nextCounter .endBlock c false

/-- The counter after an Else. -/
def atElse (_ : Mem) (c : UInt32) : UInt32 := nextCounter .startElse c false

/-- The counter after a loop is entered. -/
def atEnter (_ : Mem) (c : UInt32) : UInt32 := nextCounter .enter c false

/-- The counter after a loop's overrun step. -/
def atOverrun (_ : Mem) (c : UInt32) : UInt32 := nextCounter .overrun c false

/-- The counter after a test. -/
def atTest (op : StepOp) (t : Mem → Bool) (m : Mem) (c : UInt32) : UInt32 := nextCounter op c (t m)

section Compose

variable {device sem} {first second : List Flat} {b₀ b₁ b₂ : Bool}

theorem runAll_append (g : Gpu Mem) (first second : List Flat) :
    g.runAll sem (first ++ second) = (g.runAll sem first).runAll sem second :=
  List.foldl_append

theorem effective_append (device : Device) (a b : List Done) :
    effective device (a ++ b) = effective device a ++ effective device b :=
  List.filter_append ..

theorem andThen_eq_some {first : Option (Mem × List Done)} {next : Mem → Option (Mem × List Done)}
    {m : Mem} {ran : List Done} (h : Block.andThen first next = some (m, ran)) :
    ∃ m₁ ran₁ ran₂, first = some (m₁, ran₁) ∧ next m₁ = some (m, ran₂) ∧ ran = ran₁ ++ ran₂ := by
  rw [Block.andThen] at h
  obtain ⟨⟨m₁, ran₁⟩, hfirst, h⟩ := Option.bind_eq_some_iff.mp h
  obtain ⟨⟨m₂, ran₂⟩, hnext, h⟩ := Option.bind_eq_some_iff.mp h
  injection h with h
  injection h with hm hran
  subst hm
  exact ⟨m₁, ran₁, ran₂, hfirst, hnext, hran.symm⟩

theorem runs_nil (b : Bool) : Runs device sem b b [] fun m => some (m, []) := by
  intro g m ran hzero hrun
  injection hrun with hrun
  injection hrun with hm hran
  subst hran
  exact ⟨hzero, hm, (List.append_nil _).symm⟩

theorem skips_nil (b : Bool) (levels : ℕ) : Skips device sem b b [] levels :=
  fun _ _ _ => ⟨rfl, rfl, rfl⟩

theorem Runs.then {last : UInt32} {run next : Mem → Option (Mem × List Done)}
    (h₁ : Runs device sem b₀ b₁ first run) (h₂ : RunsTo device sem last b₁ b₂ second next) :
    RunsTo device sem last b₀ b₂ (first ++ second) fun m => Block.andThen (run m) next := by
  intro g m ran hzero hrun
  obtain ⟨m₁, ran₁, ran₂, hfirst, hnext, rfl⟩ := andThen_eq_some hrun
  obtain ⟨hzero₁, hmem₁, hdone₁⟩ := h₁ g m₁ ran₁ hzero hfirst
  rw [← hmem₁] at hnext
  obtain ⟨hlast, hmem, hdone⟩ := h₂ _ m ran₂ hzero₁ hnext
  rw [runAll_append]
  refine ⟨hlast, hmem, ?_⟩
  rw [hdone, hdone₁, effective_append, List.append_assoc]

theorem Runs.append {run next : Mem → Option (Mem × List Done)}
    (h₁ : Runs device sem b₀ b₁ first run) (h₂ : Runs device sem b₁ b₂ second next) :
    Runs device sem b₀ b₂ (first ++ second) fun m => Block.andThen (run m) next :=
  h₁.then h₂

theorem Skips.mono {levels levels' : ℕ} (h : Skips device sem b₀ b₁ first levels)
    (hle : levels ≤ levels') : Skips device sem b₀ b₁ first levels' :=
  fun g hne hroom => h g hne (by omega)

theorem Skips.append {levels : ℕ} (h₁ : Skips device sem b₀ b₁ first levels)
    (h₂ : Skips device sem b₁ b₂ second levels) :
    Skips device sem b₀ b₂ (first ++ second) levels := by
  intro g hne hroom
  obtain ⟨hfound₁, hmem₁, hdone₁⟩ := h₁ g hne hroom
  rw [← hfound₁] at hne hroom
  obtain ⟨hfound, hmem, hdone⟩ := h₂ (g.runAll sem first) hne hroom
  rw [runAll_append]
  exact ⟨hfound.trans hfound₁, hmem.trans hmem₁, hdone.trans hdone₁⟩

theorem andThen_nil (m : Mem) (next : Mem → Option (Mem × List Done)) :
    Block.andThen (some (m, [])) next = next m := by
  rw [Block.andThen]
  change ((next m).bind fun r => some (r.1, [] ++ r.2)) = next m
  cases next m with
  | none => rfl
  | some r => rfl

/-- What does nothing, before a run. -/
theorem Runs.before {last : UInt32} {run : Mem → Option (Mem × List Done)}
    (h₁ : Runs device sem b₀ b₁ first fun m => some (m, []))
    (h₂ : RunsTo device sem last b₁ b₂ second run) :
    RunsTo device sem last b₀ b₂ (first ++ second) run := by
  have h := h₁.then h₂
  simp only [andThen_nil] at h
  exact h

end Compose

/-! ### One step -/

section Counter

variable {c : UInt32}

theorem ne_zero_iff_toNat : c ≠ 0 ↔ c.toNat ≠ 0 := by
  rw [ne_eq, ne_eq, ← UInt32.toNat_inj]
  rfl

theorem toNat_succ (h : c.toNat + 1 < 2 ^ 32) : (c + 1).toNat = c.toNat + 1 := by
  rw [UInt32.toNat_add]
  exact Nat.mod_eq_of_lt h

theorem succ_ne_zero (h : c.toNat + 1 < 2 ^ 32) : c + 1 ≠ 0 := by
  rw [ne_zero_iff_toNat, toNat_succ h]
  exact Nat.succ_ne_zero _

theorem succ_ne_one (hne : c ≠ 0) (h : c.toNat + 1 < 2 ^ 32) : c + 1 ≠ 1 := by
  intro heq
  have := congrArg UInt32.toNat heq
  rw [toNat_succ h] at this
  rw [ne_zero_iff_toNat] at hne
  exact hne (Nat.succ.inj this)

theorem nextCounter_endBlock_succ (h : c.toNat + 1 < 2 ^ 32) (met : Bool) :
    nextCounter .endBlock (c + 1) met = c := by
  rw [nextCounter, if_pos (succ_ne_zero h)]
  exact add_sub_cancel_right c 1

end Counter

section Step

variable {device sem} {b : Bool}

/-- A step as the unit encodes it: its first resets the counter. -/
def stepFlat (stepped : Bool) (number : ℕ) (s : Step) (guest : Option (Id × UInt64)) : Flat :=
  .step number (if stepped then s else { s with reset := true }) guest

theorem run_stepFlat (sem : Semantics Mem) (b : Bool) (number : ℕ) {s : Step} (guest : Option (Id × UInt64))
    (hreset : s.reset = false) (g : Gpu Mem) :
    found true (g.run sem (stepFlat b number s guest)) = nextCounter s.op (found b g)
        (holds (g.guest sem guest 0) s.comparison s.reference) ∧
      (g.run sem (stepFlat b number s guest)).mem = g.mem ∧
      (g.run sem (stepFlat b number s guest)).done = g.done := by
  cases b with
  | false => exact ⟨rfl, rfl, rfl⟩
  | true =>
    refine ⟨?_, rfl, rfl⟩
    change nextCounter s.op (if s.reset then 0 else g.state.counter) _ = _
    rw [hreset]
    rfl

/-- A step that tests nothing. -/
theorem moves_plain (number flag : ℕ) {op : StepOp}
    (hop : ∀ c met, nextCounter op c met = nextCounter op c false) :
    Moves sem b [stepFlat b number { op := op, flag := flag } none]
      fun _ c => nextCounter op c false := by
  intro g
  obtain ⟨hfound, hmem, hdone⟩ := run_stepFlat sem b number none
    (show ({ op := op, flag := flag } : Step).reset = false from rfl) g
  exact ⟨hfound.trans (hop _ _), hmem, hdone⟩

/-- A comparison as the kernel takes it is the record's. -/
theorem holds_comparison (word reference : UInt32) (comparison : UInt64) :
    holds word (if comparison ≤ 5 then comparison.toUInt32 else 0) reference =
      compares comparison.toNat word reference := by
  have hle : comparison ≤ 5 ↔ comparison.toNat ≤ 5 := UInt64.le_iff_toNat_le
  have hword : comparison.toUInt32 = UInt32.ofNat comparison.toNat := by
    rw [← UInt32.toNat_inj, UInt64.toNat_toUInt32, UInt32.toNat_ofNat']
  rw [hword]
  simp only [hle]
  generalize comparison.toNat = n
  by_cases hn : n ≤ 5
  · rw [if_pos hn]
    interval_cases n <;> rfl
  · obtain ⟨k, rfl⟩ : ∃ k, n = k + 6 := ⟨n - 6, by omega⟩
    rw [if_neg hn]
    rfl

theorem Test.Within.cond_eq {c : Test} (h : c.Within device) :
    Cond.new device c.buffer c.offset c.comparison c.reference = .ok
      { buffer := c.buffer
        word := c.offset &&& ~~~3
        comparison := if c.comparison ≤ 5 then c.comparison.toUInt32 else 0
        reference := c.reference } := by
  rw [Test.Within] at h
  rw [Cond.new, if_neg (by omega)]

/-- A step that tests a record's condition. -/
theorem moves_test (number : ℕ) (op : StepOp) {c : Test} {cond : Cond} (h : c.Within device)
    (hcond : Cond.new device c.buffer c.offset c.comparison c.reference = .ok cond) :
    Moves sem b [stepFlat b number
      { op := op, comparison := cond.comparison, reference := cond.reference }
      (some (cond.buffer, cond.word))] (atTest op (c.holds sem)) := by
  intro g
  obtain ⟨hfound, hmem, hdone⟩ := run_stepFlat sem b number
    (some (cond.buffer, cond.word)) (show ({
      op := op, comparison := cond.comparison, reference := cond.reference } : Step).reset = false
      from rfl) g
  refine ⟨hfound.trans ?_, hmem, hdone⟩
  rw [h.cond_eq] at hcond
  obtain rfl := Except.ok.inj hcond
  have hword : g.guest sem (some (c.buffer, c.offset &&& ~~~3)) 0 =
      sem.word g.mem c.buffer (c.offset &&& ~~~3) := by
    rw [Gpu.guest]
    exact congrArg _ (UInt64.add_zero _)
  rw [atTest, Test.holds]
  dsimp only
  rw [hword, holds_comparison]

end Step

/-! ### Work -/

section Work

variable {device sem} {b : Bool}

theorem argumentsIn_eq {buffer : Id} {offset start : UInt64} {length : ℕ} {rounds : Bool}
    (h : argumentsIn device buffer offset length rounds = .ok start) :
    start = if rounds then offset &&& ~~~3 else offset := by
  rw [argumentsIn] at h
  split_ifs at h ⊢
  all_goals exact (Except.ok.inj h).symm

/-- What an arguments step is: it resets nothing, writes as many words as the form's arguments are,
and masks those of the form; found at 0 it writes the work's own. -/
theorem arguments_spec (sem : Semantics Mem) {w : Work} {s : Step}
    {guest : Option (Id × UInt64)} (h : w.arguments device = .ok (s, guest)) (g : Gpu Mem) :
    (s.op = .args ∨ s.op = .guestArgs) ∧ s.reset = false ∧ s.mask = w.form.mask ∧
      stepOut s 0 (g.guest sem guest) = sem.arguments g.mem w := by
  cases w with
  | threadgroups groups size =>
    injection Except.ok.inj h with hs hguest
    subst hs hguest
    exact ⟨.inl rfl, rfl, rfl, rfl⟩
  | threads grid perGroup =>
    injection Except.ok.inj h with hs hguest
    subst hs hguest
    exact ⟨.inl rfl, rfl, rfl, rfl⟩
  | threadgroupsIndirect buffer offset size =>
    rw [Work.arguments] at h
    cases hin : argumentsIn device buffer offset 12 true with
    | error e =>
      rw [hin] at h
      cases h
    | ok start =>
      rw [hin] at h
      injection Except.ok.inj h with hs hguest
      subst hs hguest
      obtain rfl := argumentsIn_eq hin
      exact ⟨.inr rfl, rfl, rfl, rfl⟩
  | threadsIndirect buffer offset =>
    rw [Work.arguments] at h
    cases hin : argumentsIn device buffer offset 24 true with
    | error e =>
      rw [hin] at h
      cases h
    | ok start =>
      rw [hin] at h
      injection Except.ok.inj h with hs hguest
      subst hs hguest
      obtain rfl := argumentsIn_eq hin
      exact ⟨.inr rfl, rfl, rfl, rfl⟩
  | execute icb start stop =>
    rw [Work.arguments] at h
    split_ifs at h
    injection Except.ok.inj h with hs hguest
    subst hs hguest
    exact ⟨.inl rfl, rfl, rfl, rfl⟩
  | executeIndirect icb buffer offset =>
    rw [Work.arguments] at h
    cases hin : argumentsIn device buffer offset 8 false with
    | error e =>
      rw [hin] at h
      cases h
    | ok start =>
      rw [hin] at h
      injection Except.ok.inj h with hs hguest
      subst hs hguest
      obtain rfl := argumentsIn_eq hin
      exact ⟨.inr rfl, rfl, rfl, rfl⟩

/-- Found above 0, an arguments step writes idle arguments. -/
theorem idle_stepOut {f : Form} {s : Step} (hmask : s.mask = f.mask) {c : UInt32} (hc : c ≠ 0)
    (guest : ℕ → UInt32) : f.idle (stepOut s c guest) = true := by
  rw [Form.idle, List.all_eq_true]
  intro i hi
  have hlen : (stepOut s c guest).length = min s.args.length 8 := by
    rw [stepOut, List.length_map, List.length_range]
  rw [List.mem_range, hlen] at hi
  by_cases hbit : (f.mask >>> UInt32.ofNat i) &&& 1 = 0
  · simp [hbit]
  · have hget : (stepOut s c guest).getD i 0 = 0 := by
      rw [stepOut, List.getD_eq_getElem?_getD, List.getElem?_map, List.getElem?_range hi]
      simp [hc, hmask, hbit]
    rw [hget]
    simp

/-- The run of a predicated piece of work. -/
theorem run_predicated (sem : Semantics Mem) (w : Work) {s : Step} (guest : Option (Id × UInt64))
    (v : View) (hargs : s.op = .args ∨ s.op = .guestArgs) (hreset : s.reset = false) (number : ℕ)
    (g : Gpu Mem) :
    let after := g.runAll sem [stepFlat true number s guest, .indirect w number v]
    found true after = found true g ∧
      after.mem = sem.indirect w.form v (stepOut s (found true g) (g.guest sem guest)) g.mem ∧
      after.done = g.done ++ [⟨w, v, stepOut s (found true g) (g.guest sem guest)⟩] := by
  have hcounter : ∀ met, nextCounter s.op (found true g) met = found true g := by
    intro met
    rcases hargs with hop | hop
    · rw [hop]
      rfl
    · rw [hop]
      rfl
  have hstep := (run_stepFlat sem true number guest hreset g).1
  have hout : (g.run sem (stepFlat true number s guest)).outs number =
      stepOut s (found true g) (g.guest sem guest) := by
    have hsome : (predicationStep g.state s (g.guest sem guest)).2 =
        some (stepOut s (if s.reset then 0 else g.state.counter) (g.guest sem guest)) :=
      if_pos hargs
    rw [hreset] at hsome
    have hrun : (g.run sem (stepFlat true number s guest)).outs = Function.update g.outs number
        (stepOut s (found true g) (g.guest sem guest)) := by
      rw [stepFlat, if_pos rfl, Gpu.run]
      dsimp only
      rw [hsome]
      rfl
    rw [hrun]
    exact Function.update_self _ _ _
  refine ⟨hstep.trans (hcounter _), ?_, ?_⟩
  · change sem.indirect w.form v ((g.run sem (stepFlat true number s guest)).outs number) g.mem = _
    rw [hout]
  · change g.done ++ [⟨w, v, (g.run sem (stepFlat true number s guest)).outs number⟩] = _
    rw [hout]

/-- What a piece of work does. -/
def ranWork (sem : Semantics Mem) (w : Work) (v : View) (m : Mem) : Option (Mem × List Done) :=
  some (sem.effect w v m, [⟨w, v, sem.arguments m w⟩])

theorem runs_direct (w : Work) (v : View) : Runs device sem b b [.direct w v] (ranWork sem w v) := by
  intro g m ran hzero hrun
  injection hrun with hrun
  injection hrun with hm hran
  subst hm hran
  exact ⟨hzero, rfl, effective_append device _ _⟩

theorem runs_predicated (hsem : sem.Lawful device) {w : Work} {s : Step}
    {guest : Option (Id × UInt64)} {v : View} (h : w.arguments device = .ok (s, guest))
    (hdirect : w.directOnly device v.pipeline = false) (number : ℕ) :
    Runs device sem true true [stepFlat true number s guest, .indirect w number v]
      (ranWork sem w v) := by
  intro g m ran hzero hrun
  obtain ⟨hargs, hreset, -, hout⟩ := arguments_spec sem h g
  obtain ⟨hfound, hmem, hdone⟩ := run_predicated sem w guest v hargs hreset number g
  rw [hzero] at hfound hmem hdone
  rw [hout] at hmem hdone
  injection hrun with hrun
  injection hrun with hm hran
  subst hm hran
  refine ⟨hfound, ?_, ?_⟩
  · rw [hmem, hsem.effect_eq w v g.mem hdirect]
  · rw [hdone, effective_append]

theorem skips_predicated (hsem : sem.Lawful device) {w : Work} {s : Step}
    {guest : Option (Id × UInt64)} {v : View} (h : w.arguments device = .ok (s, guest))
    (number levels : ℕ) :
    Skips device sem true true [stepFlat true number s guest, .indirect w number v] levels := by
  intro g hne _
  obtain ⟨hargs, hreset, hmask, -⟩ := arguments_spec sem h g
  obtain ⟨hfound, hmem, hdone⟩ := run_predicated sem w guest v hargs hreset number g
  have hidle := idle_stepOut hmask hne (g.guest sem guest)
  refine ⟨hfound, ?_, ?_⟩
  · rw [hmem, hsem.indirect_idle _ _ _ _ hidle]
  · rw [hdone, effective_append]
    have hnone : effective device
        [⟨w, v, stepOut s (found true g) (g.guest sem guest)⟩] = [] := by
      rw [effective, List.filter_cons, if_neg, List.filter_nil]
      rw [Done.effective, hidle]
      simp
    rw [hnone, List.append_nil]

/-- Work that runs nothing changes nothing, skipped or not. -/
theorem skips_direct {w : Work} {v : View} (heffect : ∀ m : Mem, sem.effect w v m = m)
    (hidle : ∀ m : Mem, Done.effective device ⟨w, v, sem.arguments m w⟩ = false) (levels : ℕ) :
    Skips device sem b b [.direct w v] levels := by
  intro g _ _
  refine ⟨rfl, heffect g.mem, ?_⟩
  change effective device (g.done ++ [⟨w, v, sem.arguments g.mem w⟩]) = _
  rw [effective_append]
  have hnone : effective device [⟨w, v, sem.arguments g.mem w⟩] = [] := by
    rw [effective, List.filter_cons, if_neg (by rw [hidle]; exact Bool.false_ne_true),
      List.filter_nil]
  rw [hnone, List.append_nil]

end Work

/-! ### Blocks -/

section Blocks

variable {device sem} {b b₁ : Bool} {first last body other tail : List Flat} {t : Mem → Bool}
variable {run run' : Mem → Option (Mem × List Done)} {levels levels' : ℕ}

/-- A segment that moves a counter above 0 by nothing skips. -/
theorem Moves.skips {next : Mem → UInt32 → UInt32} (h : Moves sem b first next)
    (hnext : ∀ m c, c ≠ 0 → next m c = c) : Skips device sem b true first levels := by
  intro g hne _
  obtain ⟨hfound, hmem, hdone⟩ := h g
  exact ⟨hfound.trans (hnext _ _ hne), hmem, congrArg _ hdone⟩

/-- A segment that leaves a counter of 0 runs nothing. -/
theorem Moves.runs {next : Mem → UInt32 → UInt32} (h : Moves sem b first next)
    (hnext : ∀ m, next m 0 = 0) : Runs device sem b true first fun m => some (m, []) := by
  intro g m ran hzero hran
  obtain ⟨hfound, hmem, hdone⟩ := h g
  rw [hzero, hnext] at hfound
  injection hran with hran
  injection hran with hm hran
  subst hm hran
  exact ⟨hfound, hmem, (congrArg _ hdone).trans (List.append_nil _).symm⟩

/-- A skipped block: its first step counts up, its last down. -/
theorem Skips.block {next : Mem → UInt32 → UInt32} (hfirst : Moves sem true first next)
    (hnext : ∀ m c, c ≠ 0 → next m c = c + 1) (hbody : Skips device sem true true body levels)
    (hlast : Moves sem true last atEnd) :
    Skips device sem true true (first ++ (body ++ last)) (levels + 1) := by
  intro g hne hroom
  obtain ⟨hfound₁, hmem₁, hdone₁⟩ := hfirst g
  rw [hnext _ _ hne] at hfound₁
  have hsucc : (found true g + 1).toNat = (found true g).toNat + 1 := toNat_succ (by omega)
  obtain ⟨hfound₂, hmem₂, hdone₂⟩ := hbody (g.runAll sem first)
    (by rw [hfound₁]; exact succ_ne_zero (by omega)) (by rw [hfound₁, hsucc]; omega)
  obtain ⟨hfound, hmem, hdone⟩ := hlast ((g.runAll sem first).runAll sem body)
  rw [runAll_append, runAll_append]
  refine ⟨?_, ?_, ?_⟩
  · rw [hfound, hfound₂, hfound₁]
    exact nextCounter_endBlock_succ (by omega) false
  · rw [hmem, hmem₂, hmem₁]
  · rw [hdone, hdone₂, hdone₁]

/-- A block's end, from a counter of 1. -/
theorem RunsTo.ended (h : RunsTo device sem 1 b true body run)
    (hlast : Moves sem true last atEnd) : Runs device sem b true (body ++ last) run := by
  intro g m ran hzero hrun
  obtain ⟨hfound₁, hmem₁, hdone₁⟩ := h g m ran hzero hrun
  obtain ⟨hfound, hmem, hdone⟩ := hlast (g.runAll sem body)
  rw [runAll_append]
  refine ⟨?_, hmem.trans hmem₁, ?_⟩
  · rw [hfound, hfound₁]
    rfl
  · rw [hdone, hdone₁]

/-- A segment that a run which did nothing left to skip. -/
theorem skips_of_one (hbody : Skips device sem true true body levels)
    (hroom : levels + 1 < 2 ^ 32) {g : Gpu Mem} (hone : found true g = 1) :
    found true (g.runAll sem body) = 1 ∧ (g.runAll sem body).mem = g.mem ∧
      effective device (g.runAll sem body).done = effective device g.done := by
  obtain ⟨hfound, hmem, hdone⟩ := hbody g (by rw [hone]; decide) (by
    rw [hone]
    change 1 + levels < 2 ^ 32
    omega)
  exact ⟨hfound.trans hone, hmem, hdone⟩

theorem runs_ifThen (hfirst : Moves sem b first (atTest .startIf t))
    (hrun : Runs device sem true true body run) (hskip : Skips device sem true true body levels)
    (hroom : levels + 1 < 2 ^ 32) (hlast : Moves sem true last atEnd) :
    Runs device sem b true (first ++ (body ++ last))
      fun m => if t m then run m else some (m, []) := by
  intro g m ran hzero hran
  obtain ⟨hfound₁, hmem₁, hdone₁⟩ := hfirst g
  rw [hzero] at hfound₁
  obtain ⟨hfound₃, hmem₃, hdone₃⟩ := hlast ((g.runAll sem first).runAll sem body)
  rw [runAll_append, runAll_append, hfound₃, hmem₃, hdone₃]
  cases ht : t g.mem with
  | true =>
    simp only [ht, if_true] at hran
    rw [atTest, ht] at hfound₁
    rw [← hmem₁] at hran
    obtain ⟨hfound₂, hmem₂, hdone₂⟩ := hrun (g.runAll sem first) m ran hfound₁ hran
    refine ⟨?_, hmem₂, ?_⟩
    · rw [hfound₂]
      rfl
    · rw [hdone₂, hdone₁]
  | false =>
    simp only [ht, Bool.false_eq_true, if_false, Option.some.injEq, Prod.mk.injEq] at hran
    obtain ⟨rfl, rfl⟩ := hran
    rw [atTest, ht] at hfound₁
    obtain ⟨hfound₂, hmem₂, hdone₂⟩ := skips_of_one hskip hroom hfound₁
    refine ⟨?_, hmem₂.trans hmem₁, ?_⟩
    · rw [hfound₂]
      rfl
    · rw [hdone₂, hdone₁]
      exact (List.append_nil _).symm

theorem runs_ifElse {middle : List Flat} (hfirst : Moves sem b first (atTest .startIf t))
    (hrun : Runs device sem true true body run) (hskip : Skips device sem true true body levels)
    (hmiddle : Moves sem true middle atElse)
    (hrun' : Runs device sem true true other run')
    (hskip' : Skips device sem true true other levels') (hroom : levels + 1 < 2 ^ 32)
    (hroom' : levels' + 1 < 2 ^ 32) (hlast : Moves sem true last atEnd) :
    Runs device sem b true (first ++ (body ++ (middle ++ (other ++ last))))
      fun m => if t m then run m else run' m := by
  intro g m ran hzero hran
  obtain ⟨hfound₁, hmem₁, hdone₁⟩ := hfirst g
  rw [hzero] at hfound₁
  obtain ⟨hfound₃, hmem₃, hdone₃⟩ := hmiddle ((g.runAll sem first).runAll sem body)
  obtain ⟨hfound₅, hmem₅, hdone₅⟩ :=
    hlast ((((g.runAll sem first).runAll sem body).runAll sem middle).runAll sem other)
  simp only [runAll_append]
  rw [hfound₅, hmem₅, hdone₅]
  cases ht : t g.mem with
  | true =>
    simp only [ht, if_true] at hran
    rw [atTest, ht] at hfound₁
    rw [← hmem₁] at hran
    obtain ⟨hfound₂, hmem₂, hdone₂⟩ := hrun (g.runAll sem first) m ran hfound₁ hran
    rw [hfound₂] at hfound₃
    obtain ⟨hfound₄, hmem₄, hdone₄⟩ := skips_of_one hskip' hroom' hfound₃
    refine ⟨?_, hmem₄.trans (hmem₃.trans hmem₂), ?_⟩
    · rw [hfound₄]
      rfl
    · rw [hdone₄, hdone₃, hdone₂, hdone₁]
  | false =>
    simp only [ht, Bool.false_eq_true, if_false] at hran
    rw [atTest, ht] at hfound₁
    obtain ⟨hfound₂, hmem₂, hdone₂⟩ := skips_of_one hskip hroom hfound₁
    rw [hfound₂] at hfound₃
    rw [← hmem₁, ← hmem₂, ← hmem₃] at hran
    obtain ⟨hfound₄, hmem₄, hdone₄⟩ := hrun' _ m ran hfound₃ hran
    refine ⟨?_, hmem₄, ?_⟩
    · rw [hfound₄]
      rfl
    · rw [hdone₄, hdone₃, hdone₂, hdone₁]

/-- Of an If with its Else, where skipped: what lies between its first step and its last. -/
theorem Skips.ifElse {middle : List Flat} (hfirst : Moves sem true first (atTest .startIf t))
    (hbody : Skips device sem true true body levels)
    (hmiddle : Moves sem true middle atElse)
    (hother : Skips device sem true true other levels') (hlast : Moves sem true last atEnd) :
    Skips device sem true true (first ++ (body ++ (middle ++ (other ++ last))))
      (max levels levels' + 1) := by
  intro g hne hroom
  obtain ⟨hfound₁, hmem₁, hdone₁⟩ := hfirst g
  rw [atTest, nextCounter, if_pos hne] at hfound₁
  have hsucc : (found true g + 1).toNat = (found true g).toNat + 1 := toNat_succ (by omega)
  have hne₁ : found true g + 1 ≠ 0 := succ_ne_zero (by omega)
  obtain ⟨hfound₂, hmem₂, hdone₂⟩ := hbody (g.runAll sem first)
    (by rw [hfound₁]; exact hne₁) (by rw [hfound₁, hsucc]; omega)
  obtain ⟨hfound₃, hmem₃, hdone₃⟩ := hmiddle ((g.runAll sem first).runAll sem body)
  rw [hfound₂, hfound₁, atElse, nextCounter, if_neg hne₁, if_neg (succ_ne_one hne (by omega))] at hfound₃
  obtain ⟨hfound₄, hmem₄, hdone₄⟩ := hother _
    (by rw [hfound₃]; exact hne₁) (by rw [hfound₃, hsucc]; omega)
  obtain ⟨hfound, hmem, hdone⟩ :=
    hlast ((((g.runAll sem first).runAll sem body).runAll sem middle).runAll sem other)
  simp only [runAll_append]
  refine ⟨?_, ?_, ?_⟩
  · rw [hfound, hfound₄, hfound₃]
    exact nextCounter_endBlock_succ (by omega) false
  · rw [hmem, hmem₄, hmem₃, hmem₂, hmem₁]
  · rw [hdone, hdone₄, hdone₃, hdone₂, hdone₁]

/-! ### Loops -/

/-- The rest of a loop laid down, with `n` copies of its body: found at 0 it takes at most `n`
turns, and leaves the counter at 1 for the loop's end. -/
structure Turns (device : Device) (sem : Semantics Mem) (run : ℕ → Mem → Option (Mem × List Done))
    (levels n : ℕ) (tail : List Flat) : Prop where
  runs : RunsTo device sem 1 true true tail (run n)
  skips : Skips device sem true true tail levels

theorem Moves.test_skips (h : Moves sem b first (atTest .check t)) :
    Skips device sem b true first levels := by
  refine h.skips fun m c hne => ?_
  rw [atTest, nextCounter, if_neg fun hc => hne hc.1]

theorem Moves.overrun_skips (h : Moves sem b first atOverrun) :
    Skips device sem b true first levels :=
  h.skips fun _ _ _ => rfl

/-- A loop's test: what follows it runs where it holds, and is skipped where it does not. -/
theorem RunsTo.tested (hrun : RunsTo device sem 1 true true tail run)
    (hskip : Skips device sem true true tail levels) (hroom : levels + 1 < 2 ^ 32)
    (hcheck : Moves sem b first (atTest .check t)) :
    RunsTo device sem 1 b true (first ++ tail) fun m => if t m then run m else some (m, []) := by
  intro g m ran hzero hran
  obtain ⟨hfound₁, hmem₁, hdone₁⟩ := hcheck g
  rw [runAll_append]
  cases ht : t g.mem with
  | true =>
    rw [hzero, atTest, ht] at hfound₁
    simp only [ht, if_true] at hran
    rw [← hmem₁] at hran
    obtain ⟨hfound, hmem, hdone⟩ := hrun _ m ran hfound₁ hran
    exact ⟨hfound, hmem, hdone.trans (by rw [hdone₁])⟩
  | false =>
    simp only [ht, Bool.false_eq_true, if_false, Option.some.injEq, Prod.mk.injEq] at hran
    obtain ⟨rfl, rfl⟩ := hran
    rw [hzero, atTest, ht] at hfound₁
    obtain ⟨hfound, hmem, hdone⟩ := skips_of_one hskip hroom hfound₁
    refine ⟨hfound, hmem.trans hmem₁, ?_⟩
    rw [hdone, hdone₁]
    exact (List.append_nil _).symm

/-- The overrun step stands for no turn. -/
theorem turns_none (hover : Moves sem true last atOverrun)
    {turns : ℕ → Mem → Option (Mem × List Done)} (hnone : ∀ m, turns 0 m = none) :
    Turns device sem turns levels 0 last := by
  refine ⟨fun g m ran _ hran => ?_, hover.overrun_skips⟩
  rw [hnone] at hran
  cases hran

/-- The While's last test, and its overrun step. -/
theorem turns_while_zero (hcheck : Moves sem true first (atTest .check t))
    (hover : Moves sem true last atOverrun) (hroom : levels + 1 < 2 ^ 32) :
    Turns device sem (turnsWhile t run) levels 0 (first ++ last) := by
  have hnone : Turns device sem (fun _ _ => none) levels 0 last := turns_none hover fun _ => rfl
  obtain ⟨hruns, hskips⟩ := hnone
  exact ⟨hruns.tested hskips hroom hcheck, hcheck.test_skips.append hskips⟩

/-- A turn of a While: its test, and its body where that holds. -/
theorem runsTo_while_turn {n : ℕ} (hcheck : Moves sem b first (atTest .check t))
    (hrun : Runs device sem true true body run) (hskip : Skips device sem true true body levels)
    (hroom : levels + 1 < 2 ^ 32) (htail : Turns device sem (turnsWhile t run) levels n tail) :
    RunsTo device sem 1 b true (first ++ (body ++ tail)) (turnsWhile t run (n + 1)) :=
  (hrun.then htail.runs).tested (hskip.append htail.skips) hroom hcheck

theorem turnsDoWhile_succ (t : Mem → Bool) (run : Mem → Option (Mem × List Done)) (n : ℕ) (m : Mem) :
    turnsDoWhile t run (n + 1) m =
      Block.andThen (run m) fun m => if t m then turnsDoWhile t run n m else some (m, []) := by
  rw [turnsDoWhile, Block.andThen]
  cases run m with
  | none => rfl
  | some r =>
    change (if t r.1 then _ else some (r.1, r.2)) =
      ((if t r.1 then _ else some (r.1, [])).bind fun r' => some (r'.1, r.2 ++ r'.2))
    cases t r.1 with
    | true => rfl
    | false => simp

/-- A turn of a DoWhile: its body, and its test. -/
theorem runsTo_doWhile_turn {n : ℕ} (hrun : Runs device sem b b₁ body run)
    (hcheck : Moves sem b₁ first (atTest .check t)) (hroom : levels + 1 < 2 ^ 32)
    (htail : Turns device sem (turnsDoWhile t run) levels n tail) :
    RunsTo device sem 1 b true (body ++ (first ++ tail)) (turnsDoWhile t run (n + 1)) := by
  have h := hrun.then (htail.runs.tested htail.skips hroom hcheck)
  simp only [← turnsDoWhile_succ] at h
  exact h

end Blocks

end ReimsVgpu.Predication
