import ReimsVgpu.Predication.Loops

/-!
# The encoding preserves meaning

The encoding of a program, from a unit between two records, appends a segment that runs as the
program does where the counter is 0, and changes nothing where it is not.

## Main definitions

* `Preserves`: the flat sequence of a unit does what the unit's program does.

## Main results

* `Block.encodes`: the encoding of a program.
* `predication_preserves`: within the counter's width, and with a pipeline set for the work that
  can be skipped, the encoding preserves meaning.
* `predication_loses`: past the counter's width, or without a pipeline, it does not.
-/

namespace ReimsVgpu.Predication

/-! ### Programs -/

section Programs

variable {Mem : Type*} {device : Device} {sem : Semantics Mem} {fuel : ℕ} {mode : Option ℕ}
variable {u u₁ : ComputeUnit} {rs : List Logged} {loops levels : ℕ} {after : Bindings}
variable {run : Mem → Option (Mem × List Done)}

/-- What follows some records of a program, after them. -/
theorem Encodes.followed {rest : Block}
    (hfirst : Encodes device sem (ComputeUnit.encode device fuel) mode u rs loops levels after run
      u₁)
    (hrest : rest.Encoded device sem) (h : Sound u) (hcursor : mode = none → u.cursor = none)
    (hplaced : Placed mode u.log (rs ++ rest.records))
    (hopen : u.loopCount + rest.loopDepth ≤ 2) (hfuel : rest.loopDepth ≤ fuel)
    (hflags : mode = none → u.loops + (loops + rest.loopCount) ≤ maxFlags)
    (hwithin : rest.Within device u.predicated after)
    (hpipeline : rest.PipelineSet u.predicated after) (hdepth : rest.depth < 2 ^ 32) :
    ∃ u', Encodes device sem (ComputeUnit.encode device fuel) mode u (rs ++ rest.records)
      (loops + rest.loopCount) (max levels rest.depth) (rest.after after)
      (fun m => Block.andThen (run m) (rest.exec sem laidDown u.loopCount after)) u' ∧
      (u₁.stepped = true ∨ 0 < rest.depth → u'.stepped = true) := by
  have hplaced' : Placed mode u.log (rs ++ (rest.records ++ [])) := by
    rw [List.append_nil]
    exact hplaced
  have hready : Ready device fuel (mode.map (· + rs.length)) u₁ rest := by
    refine hfirst.ready (hfirst.sound h) hcursor hplaced' ?_ hfuel hflags ?_ ?_ hdepth
    · rw [loopCount_of_stack hfirst.stack]
      exact hopen
    · rw [predicated_of_stack hfirst.stack, hfirst.bindings]
      exact hwithin
    · rw [predicated_of_stack hfirst.stack, hfirst.bindings]
      exact hpipeline
  obtain ⟨u', henc, hstepped⟩ := hrest fuel _ u₁ hready
  rw [hfirst.bindings, loopCount_of_stack hfirst.stack] at henc
  refine ⟨u', (hfirst.mono (le_max_left _ _)).append (henc.mono (le_max_right _ _)), ?_⟩
  rintro (hfirst | hrest)
  · exact henc.stepped hfirst
  · exact hstepped hrest

/-- The encoding of a program. -/
theorem Block.encodes (hsem : sem.Lawful device) (B : Block) : B.Encoded device sem := by
  induction B with
  | done =>
    intro fuel mode u h
    exact ⟨u, {
      fed := rfl
      emptied := h.sound.emptied
      bound := h.sound.bound
      cursor := rfl
      stepped := id
      log := ⟨fun _ => rfl, fun _ _ => (List.append_nil _).symm⟩
      kept := fun _ => rfl
      flagged := fun _ => rfl
      stack := rfl
      bindings := rfl
      seg := ⟨[], (List.append_nil _).symm, runs_nil _, fun _ => skips_nil _ _⟩ },
      fun hpos => absurd hpos (lt_irrefl 0)⟩
  | set s rest ih =>
    intro fuel mode u h
    obtain ⟨u₁, hfirst⟩ := encodes_set fuel h.sound h.cursor s h.placed 0
    obtain ⟨u', hall, hstepped⟩ := hfirst.followed ih h.sound h.cursor h.placed h.opened h.fuel
      (fun hmode => by rw [Nat.zero_add]; exact h.flags hmode) h.within h.pipeline h.depth
    rw [Nat.zero_add, Nat.zero_max] at hall
    simp only [andThen_nil] at hall
    exact ⟨u', hall, fun hpos => hstepped (.inr hpos)⟩
  | work w rest ih =>
    intro fuel mode u h
    obtain ⟨u₁, hfirst⟩ := encodes_work fuel hsem h.sound h.cursor h.placed 0 h.within.1
      h.pipeline.1
    obtain ⟨u', hall, hstepped⟩ := hfirst.followed ih h.sound h.cursor h.placed h.opened h.fuel
      (fun hmode => by rw [Nat.zero_add]; exact h.flags hmode) h.within.2 h.pipeline.2 h.depth
    rw [Nat.zero_add, Nat.zero_max] at hall
    exact ⟨u', hall, fun hpos => hstepped (.inr hpos)⟩
  | encoder rest ih =>
    intro fuel mode u h
    obtain ⟨u₁, hfirst⟩ := encodes_encoder fuel h.sound h.cursor h.placed 0
    obtain ⟨u', hall, hstepped⟩ := hfirst.followed ih h.sound h.cursor h.placed h.opened h.fuel
      (fun hmode => by rw [Nat.zero_add]; exact h.flags hmode) h.within h.pipeline h.depth
    rw [Nat.zero_add, Nat.zero_max] at hall
    simp only [andThen_nil] at hall
    exact ⟨u', hall, fun hpos => hstepped (.inr hpos)⟩
  | ifThen c body rest ihbody ih =>
    intro fuel mode u h
    have hopen := h.opened
    have hfuel := h.fuel
    have hdepth := h.depth
    rw [Block.loopDepth] at hopen hfuel
    rw [Block.depth] at hdepth
    have hrecords : (.cmd (.startIf (some c.buffer) c.offset c.comparison c.reference) ::
        body.records ++ [.endIf]) ++ rest.records = (Block.ifThen c body rest).records := by
      simp [Block.records]
    obtain ⟨u₁, hfirst, hmarked⟩ := encodes_ifThen fuel ihbody h.sound h.cursor h.within.1 h.placed (by omega)
      (by omega) (fun hmode => by have := h.flags hmode; rw [Block.loopCount] at this; omega)
      h.within.2.1 h.pipeline.1 (by omega)
    obtain ⟨u', hall, hstepped⟩ := hfirst.followed ih h.sound h.cursor (hrecords ▸ h.placed) (by omega)
      (by omega) h.flags h.within.2.2 h.pipeline.2 (by omega)
    rw [hrecords] at hall
    exact ⟨u', hall, fun _ => hstepped (.inl hmarked)⟩
  | ifElse c body other rest ihbody ihother ih =>
    intro fuel mode u h
    have hopen := h.opened
    have hfuel := h.fuel
    have hdepth := h.depth
    rw [Block.loopDepth] at hopen hfuel
    rw [Block.depth] at hdepth
    have hrecords : (.cmd (.startIf (some c.buffer) c.offset c.comparison c.reference) ::
        body.records ++ (.cmd .startElse :: other.records ++ [.endIf])) ++ rest.records =
          (Block.ifElse c body other rest).records := by
      simp [Block.records]
    obtain ⟨u₁, hfirst, hmarked⟩ := encodes_ifElse fuel ihbody ihother h.sound h.cursor h.within.1 h.placed
      (by omega) (by omega)
      (fun hmode => by have := h.flags hmode; rw [Block.loopCount] at this; omega)
      h.within.2.1 h.pipeline.1 h.within.2.2.1 h.pipeline.2.1 (by omega)
    obtain ⟨u', hall, hstepped⟩ := hfirst.followed ih h.sound h.cursor (hrecords ▸ h.placed) (by omega)
      (by omega) h.flags h.within.2.2.2 h.pipeline.2.2 (by omega)
    rw [hrecords] at hall
    exact ⟨u', hall, fun _ => hstepped (.inl hmarked)⟩
  | whileDo c body rest ihbody ih =>
    intro fuel mode u h
    have hopen := h.opened
    have hfuel := h.fuel
    have hdepth := h.depth
    have hflags := h.flags
    rw [Block.loopDepth] at hopen hfuel
    rw [Block.depth] at hdepth
    rw [Block.loopCount, Nat.add_comm body.loopCount] at hflags
    have hrecords : (.cmd (.startWhile (some c.buffer) c.offset c.comparison c.reference) ::
        body.records ++ [.endWhile]) ++ rest.records = (Block.whileDo c body rest).records := by
      simp [Block.records]
    obtain ⟨fuel, rfl⟩ : ∃ n, fuel = n + 1 := ⟨fuel - 1, by omega⟩
    obtain ⟨u₁, hfirst, hmarked⟩ := encodes_whileDo fuel ihbody h.sound h.cursor h.within.1 h.placed (by omega)
      (by omega) (fun hmode => by have := hflags hmode; omega) h.within.2.1 h.pipeline.1 (by omega)
    obtain ⟨u', hall, hstepped⟩ := hfirst.followed ih h.sound h.cursor (hrecords ▸ h.placed) (by omega)
      (by omega) hflags h.within.2.2 h.pipeline.2 (by omega)
    rw [hrecords, Nat.add_comm 1] at hall
    exact ⟨u', hall, fun _ => hstepped (.inl hmarked)⟩
  | doWhile body c rest ihbody ih =>
    intro fuel mode u h
    have hopen := h.opened
    have hfuel := h.fuel
    have hdepth := h.depth
    have hflags := h.flags
    rw [Block.loopDepth] at hopen hfuel
    rw [Block.depth] at hdepth
    rw [Block.loopCount, Nat.add_comm body.loopCount] at hflags
    have hrecords : (.cmd .startDoWhile :: body.records ++
        [.endDoWhile (some c.buffer) c.offset c.comparison c.reference]) ++ rest.records =
          (Block.doWhile body c rest).records := by
      simp [Block.records]
    obtain ⟨fuel, rfl⟩ : ∃ n, fuel = n + 1 := ⟨fuel - 1, by omega⟩
    obtain ⟨u₁, hfirst, hmarked⟩ := encodes_doWhile fuel ihbody h.sound h.cursor h.within.1 h.placed (by omega)
      (by omega) (fun hmode => by have := hflags hmode; omega) h.within.2.1 h.pipeline.1 (by omega)
    obtain ⟨u', hall, hstepped⟩ := hfirst.followed ih h.sound h.cursor (hrecords ▸ h.placed) (by omega)
      (by omega) hflags h.within.2.2 h.pipeline.2 (by omega)
    rw [hrecords, Nat.add_comm 1] at hall
    exact ⟨u', hall, fun _ => hstepped (.inl hmarked)⟩

end Programs

/-! ### Units -/

section Units

variable {Mem : Type*} (device : Device) (sem : Semantics Mem)

/-- A unit with a program's records is encoded, and its flat sequence, from any state of the GPU,
does what the program does: the same memory, the same work with an effect, in the same order and
with the same bindings. The counter is 0 after the last block, and the guest's bindings are those
of the text. Said of the runs in which no loop takes more turns than are laid down. -/
def Preserves (B : Block) : Prop :=
  ∃ u, ComputeUnit.encodeAll device 2 {} B.records = .ok u ∧ u.stack = [] ∧
    u.bindings = B.after {} ∧
    ∀ (g : Gpu Mem) (m : Mem) (ran : List Done), B.exec sem laidDown 0 {} g.mem = some (m, ran) →
      (g.runAll sem u.out).mem = m ∧
      effective device (g.runAll sem u.out).done =
        effective device g.done ++ effective device ran ∧
      (0 < B.depth → (g.runAll sem u.out).state.counter = 0)

/-- What the adapter dies of otherwise: a loop inside two others, more loops than flags, a word or
arguments past their buffer. -/
structure Accepted (B : Block) : Prop where
  loopDepth : B.loopDepth ≤ 2
  loopCount : B.loopCount ≤ maxFlags
  within : B.Within device false {}

variable {device sem}

/-- Command predication preserves meaning, within the counter's width and where the work that can
be skipped has a pipeline set. -/
theorem predication_preserves (hsem : sem.Lawful device) (B : Block) (h : Accepted device B)
    (hdepth : B.depth < 2 ^ 32) (hpipeline : B.PipelineSet false {}) : Preserves device sem B := by
  have hready : Ready device 2 none {} B := {
    sound := ⟨rfl, bound_empty, fun hp => by cases hp⟩
    cursor := fun _ => rfl
    placed := placed_none _ _
    opened := by
      change 0 + B.loopDepth ≤ 2
      rw [Nat.zero_add]
      exact h.loopDepth
    fuel := h.loopDepth
    flags := fun _ => by
      change 0 + B.loopCount ≤ maxFlags
      rw [Nat.zero_add]
      exact h.loopCount
    within := h.within
    pipeline := hpipeline
    depth := hdepth }
  obtain ⟨u, henc, hstepped⟩ := B.encodes hsem 2 none {} hready
  obtain ⟨seg, hout, hruns, -⟩ := henc.seg
  refine ⟨u, ?_, henc.stack, henc.bindings, fun g m ran hexec => ?_⟩
  · rw [ComputeUnit.encodeAll, ← feed_none]
    exact henc.fed
  · obtain ⟨hfound, hmem, hdone⟩ := hruns g m ran rfl hexec
    rw [hout]
    refine ⟨hmem, hdone, fun hpos => ?_⟩
    rw [found, hstepped hpos] at hfound
    exact hfound

end Units

/-! ### A device -/

/-- A device with buffers of 16 bytes. -/
def sampleDevice : Device where
  bufferLength _ := 16
  icbSize _ := 16
  maxTotalThreadsPerThreadgroup _ := 1024
  kernel := 0
  state := 1
  chunk i := i + 2

/-- Memory is one word, and work adds its second argument to it. -/
def sampleIndirect : Semantics ℕ where
  word m _ _ := UInt32.ofNat m
  effect _ _ m := m
  indirect _ _ args m := m + (args.getD 1 0).toNat

/-- The same, with the direct form's effect. -/
def sampleSemantics : Semantics ℕ :=
  { sampleIndirect with
    effect := fun w v m =>
      if w.directOnly sampleDevice v.pipeline then m
      else sampleIndirect.indirect w.form v (sampleIndirect.arguments m w) m }

theorem sampleSemantics_lawful : sampleSemantics.Lawful sampleDevice where
  effect_eq := by
    intro w v m hdirect
    change (if w.directOnly sampleDevice v.pipeline then m else _) = _
    rw [hdirect]
    cases w <;> rfl
  effect_directOnly := by
    intro w v m hdirect
    change (if w.directOnly sampleDevice v.pipeline then m else _) = _
    rw [hdirect]
    rfl
  indirect_idle := by
    intro f v args m hidle
    have hzero : args.getD 1 0 = 0 := by
      by_cases hlen : 1 < args.length
      · have hall := List.all_eq_true.mp hidle 1 (List.mem_range.mpr hlen)
        have hmask : f.mask = 0b111 ∨ f.mask = 0b10 := by cases f <;> simp [Form.mask]
        have hbit : ((f.mask >>> UInt32.ofNat 1) &&& 1 == 0) = false := by
          rcases hmask with hmask | hmask <;> rw [hmask] <;> decide
        rw [hbit, Bool.false_or] at hall
        exact beq_iff_eq.mp hall
      · rw [List.getD_eq_getElem?_getD, List.getElem?_eq_none (Nat.le_of_not_lt hlen)]
        rfl
    change m + (args.getD 1 0).toNat = m
    rw [hzero]
    rfl

/-- A condition on the word. -/
def sampleTest (comparison : UInt64) (reference : UInt32) : Test where
  buffer := 9
  offset := 0
  comparison := comparison
  reference := reference

/-- One threadgroup of one thread. -/
def sampleWork : Work := .threadgroups ⟨1, 1, 1⟩ ⟨1, 1, 1⟩

/-- Work while the word is not 3. -/
def sampleLoop : Block :=
  .set (.computePipelineState 5) (.whileDo (sampleTest 1 3) (.work sampleWork .done) .done)

theorem sampleTest_within (comparison : UInt64) (reference : UInt32) :
    (sampleTest comparison reference).Within sampleDevice := by
  change ((0 : UInt64) &&& ~~~3).toNat + 4 ≤ (16 : UInt64).toNat
  decide

theorem sampleLoop_accepted : Accepted sampleDevice sampleLoop where
  loopDepth := by decide
  loopCount := by decide
  within := ⟨sampleTest_within 1 3, ⟨fun _ _ _ => ⟨_, rfl⟩, trivial⟩, trivial⟩

/-- From a word of 0, the encoded loop leaves it at 3. -/
theorem sampleLoop_preserved : Preserves sampleDevice sampleSemantics sampleLoop ∧
    ∃ ran, sampleLoop.exec sampleSemantics laidDown 0 {} 0 = some (3, ran) := by
  refine ⟨predication_preserves sampleSemantics_lawful sampleLoop sampleLoop_accepted (by decide)
    ⟨⟨fun _ _ hnone => ?_, trivial⟩, trivial⟩, _, rfl⟩
  cases hnone

/-! ### Past the counter, and without a pipeline -/

/-- Work inside so many Ifs whose condition is that the word is 1. -/
def nestedIfs : ℕ → Block
  | 0 => .work sampleWork .done
  | n + 1 => .ifThen (sampleTest 0 1) (nestedIfs n) .done

theorem nestedIfs_loopDepth (n : ℕ) : (nestedIfs n).loopDepth = 0 := by
  induction n with
  | zero => rfl
  | succ n ih => rw [nestedIfs, Block.loopDepth, ih, Block.loopDepth, Nat.max_self]

theorem nestedIfs_loopCount (n : ℕ) : (nestedIfs n).loopCount = 0 := by
  induction n with
  | zero => rfl
  | succ n ih => rw [nestedIfs, Block.loopCount, ih, Block.loopCount]

theorem nestedIfs_within (n : ℕ) (predicated : Bool) (b : Bindings) :
    (nestedIfs n).Within sampleDevice predicated b := by
  induction n generalizing predicated b with
  | zero => exact ⟨fun _ _ _ => ⟨_, rfl⟩, trivial⟩
  | succ n ih => exact ⟨sampleTest_within 0 1, ih true b, trivial⟩

theorem nestedIfs_pipelineSet (n : ℕ) (predicated : Bool) {b : Bindings} (h : b.pipeline ≠ none) :
    (nestedIfs n).PipelineSet predicated b := by
  induction n generalizing predicated with
  | zero => exact ⟨fun _ _ => h, trivial⟩
  | succ n ih => exact ⟨ih true, trivial⟩

/-- The counter at the work is that found and the Ifs about it, modulo `2^32`. -/
theorem nestedIfs_run (n : ℕ) : ∀ u : ComputeUnit, Sound u → u.cursor = none →
    u.bindings.pipeline ≠ none →
    ∃ u' seg, feed (ComputeUnit.encode sampleDevice 2) none u (nestedIfs n).records = .ok u' ∧
      Sound u' ∧ u'.stack = u.stack ∧ u'.cursor = none ∧ u'.out = u.out ++ seg ∧
      (u.stepped = true → u'.stepped = true) ∧
      ∀ g : Gpu ℕ, found u.stepped g + UInt32.ofNat n = 0 →
        (sampleTest 0 1).holds sampleSemantics g.mem = false →
        found u'.stepped (g.runAll sampleSemantics seg) = 0 ∧
          (g.runAll sampleSemantics seg).mem =
            sampleSemantics.effect sampleWork u.bindings.view g.mem := by
  induction n with
  | zero =>
    intro u h hcursor hset
    obtain ⟨u', henc⟩ := encodes_work 2 sampleSemantics_lawful h (fun _ => hcursor)
      (placed_none u.log [.cmd (.work sampleWork)]) 0
      (fun _ _ _ => ⟨_, rfl⟩) (fun _ _ => hset)
    obtain ⟨seg, hout, hruns, -⟩ := henc.seg
    refine ⟨u', seg, henc.fed, henc.sound h, henc.stack, henc.cursor.trans hcursor, hout,
      henc.stepped, fun g hzero _ => ?_⟩
    obtain ⟨hfound, hmem, -⟩ := hruns g _ _ ((UInt32.add_zero _).symm.trans hzero) rfl
    exact ⟨hfound, hmem⟩
  | succ n ih =>
    intro u h hcursor hset
    obtain ⟨u₁, hstart⟩ := marks_startIf sampleSemantics 2 h (fun _ => hcursor)
      (sampleTest_within 0 1) (placed_none u.log [_])
    obtain ⟨u₂, seg, hfed, hsound, hstack, hcursor₂, hout, hstepped, hrun⟩ :=
      ih u₁ hstart.sound (hstart.cursor.trans hcursor) (by rw [hstart.bindings]; exact hset)
    obtain ⟨u₃, hend⟩ := marks_endIf sampleDevice sampleSemantics 2 hsound (fun _ => hcursor₂)
      (hstack.trans hstart.stack) (placed_none u₂.log [_])
    obtain ⟨first, hout₁, hmoves₁⟩ := hstart.seg
    obtain ⟨last, hout₃, hmoves₃⟩ := hend.seg
    have htrue : u₂.stepped = true := hstepped hstart.marked
    refine ⟨u₃, first ++ (seg ++ last), ?_, hend.sound, hend.stack, hend.cursor.trans hcursor₂, ?_,
      fun _ => hend.marked, fun g hzero htest => ?_⟩
    · have hall := (feed_append hstart.fed).trans ((feed_append hfed).trans hend.fed)
      exact hall
    · rw [hout₃, hout, hout₁]
      simp only [List.append_assoc]
    · obtain ⟨hfound₁, hmem₁, -⟩ := hmoves₁ g
      rw [atTest, htest] at hfound₁
      have hnext : nextCounter .startIf (found u.stepped g) false = found u.stepped g + 1 := by
        by_cases hzero : found u.stepped g = 0
        · rw [hzero]
          rfl
        · rw [nextCounter, if_pos hzero]
      rw [hnext] at hfound₁
      obtain ⟨hfound₂, hmem₂⟩ := hrun (g.runAll sampleSemantics first)
        (by rw [hstart.marked, hfound₁, ← hzero, UInt32.ofNat_add]; ac_rfl) (by rw [hmem₁]; exact htest)
      obtain ⟨hfound₃, hmem₃, -⟩ := hmoves₃ ((g.runAll sampleSemantics first).runAll _ seg)
      rw [runAll_append, runAll_append]
      rw [hfound₂] at hfound₃
      rw [hmem₃, hmem₂, hmem₁, hstart.bindings, hend.marked]
      exact ⟨hfound₃, rfl⟩

/-- The GPU before a unit, the word at 0. -/
def sampleGpu : Gpu ℕ where
  state := { counter := 0, flags := fun _ => 0 }
  outs _ := []
  mem := 0
  done := []

/-- Where the Ifs about the work are `2^32`, it runs though none of them holds. -/
theorem nestedIfs_not_preserved (n : ℕ) (hn : UInt32.ofNat (n + 1) = 0) :
    ¬ Preserves sampleDevice sampleSemantics
      (.set (.computePipelineState 5) (nestedIfs (n + 1))) := by
  rintro ⟨u, henc, -, -, hruns⟩
  rw [ComputeUnit.encodeAll, ← feed_none] at henc
  have hsound : Sound {} := ⟨rfl, bound_empty, fun hp => by cases hp⟩
  have hencodes : ∃ u₁, Encodes sampleDevice sampleSemantics (ComputeUnit.encode sampleDevice 2) none
      {} [.cmd (.set (.computePipelineState 5))] 0 0 _ (fun m => some (m, [])) u₁ :=
    encodes_set 2 hsound (fun _ => rfl) (.computePipelineState 5) (placed_none _ [_]) 0
  obtain ⟨u₁, hset⟩ := hencodes
  obtain ⟨u₂, seg, hfed, -, -, -, hout, -, hrun⟩ := nestedIfs_run (n + 1) u₁ (hset.sound hsound)
    hset.cursor (by rw [hset.bindings]; exact Option.some_ne_none 5)
  obtain rfl : u₂ = u := Except.ok.inj (((feed_append hset.fed).trans hfed).symm.trans henc)
  obtain ⟨first, hout₁, hfirst, -⟩ := hset.seg
  obtain ⟨hfound₁, hmem₁, -⟩ := hfirst sampleGpu 0 [] rfl rfl
  obtain ⟨-, hmem₂⟩ := hrun (sampleGpu.runAll sampleSemantics first)
    (by rw [hfound₁, hn]; rfl) (by rw [hmem₁]; rfl)
  obtain ⟨hmem, -⟩ := hruns sampleGpu 0 [] rfl
  rw [hout, hout₁, List.nil_append, runAll_append, hmem₂, hmem₁, hset.bindings] at hmem
  cases hmem

/-- An execution in an If that holds, with no pipeline set. -/
def unboundIf : Block := .ifThen (sampleTest 0 0) (.work (.execute 3 0 1) .done) .done

theorem unboundIf_not_preserved : ¬ Preserves sampleDevice sampleSemantics unboundIf := by
  have hkernel : ((ComputeUnit.encodeAll sampleDevice 2 {} unboundIf.records).toOption.map fun u =>
      (effective sampleDevice (sampleGpu.runAll sampleSemantics u.out).done).map
        fun d => d.view.pipeline) = some [some sampleDevice.kernel] := by
    decide +kernel
  have hnone : ((unboundIf.exec sampleSemantics laidDown 0 {} 0).map fun ran =>
      (ran.1, (effective sampleDevice ran.2).map fun d => d.view.pipeline)) = some (1, [none]) := by
    decide +kernel
  rintro ⟨u, henc, -, -, hruns⟩
  obtain ⟨⟨counter, ran⟩, hexec, hran⟩ := Option.map_eq_some_iff.mp hnone
  obtain ⟨rfl, hran⟩ := Prod.mk.inj hran
  obtain ⟨-, hdone, -⟩ := hruns sampleGpu 1 ran hexec
  rw [henc] at hkernel
  have heq : (effective sampleDevice (sampleGpu.runAll sampleSemantics u.out).done).map
      (fun d => d.view.pipeline) = [some sampleDevice.kernel] := Option.some.inj hkernel
  have hdone' : effective sampleDevice (sampleGpu.runAll sampleSemantics u.out).done =
      effective sampleDevice ran := hdone
  rw [hdone', hran] at heq
  cases heq

/-- The claim for every unit the adapter accepts fails, with every pipeline set, past the counter's
width, and within it, where work that can be skipped has no pipeline. -/
theorem predication_loses :
    (∃ B, Accepted sampleDevice B ∧ B.PipelineSet false {} ∧
      ¬ Preserves sampleDevice sampleSemantics B) ∧
    ∃ B, Accepted sampleDevice B ∧ B.depth < 2 ^ 32 ∧
      ¬ Preserves sampleDevice sampleSemantics B := by
  refine ⟨⟨.set (.computePipelineState 5) (nestedIfs (4294967295 + 1)), ⟨?_, ?_, ?_⟩, ?_, ?_⟩,
    ⟨unboundIf, ⟨?_, ?_, ?_⟩, ?_, unboundIf_not_preserved⟩⟩
  · rw [Block.loopDepth, nestedIfs_loopDepth]
    exact Nat.zero_le 2
  · rw [Block.loopCount, nestedIfs_loopCount]
    exact Nat.zero_le maxFlags
  · exact nestedIfs_within _ false _
  · exact nestedIfs_pipelineSet _ false (Option.some_ne_none 5)
  · exact nestedIfs_not_preserved 4294967295 (by decide)
  · decide
  · decide
  · exact ⟨sampleTest_within 0 0, ⟨fun _ _ _ => ⟨_, rfl⟩, trivial⟩, trivial⟩
  · decide

end ReimsVgpu.Predication
