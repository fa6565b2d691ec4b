import ReimsVgpu.Memory.TrackerBlocks

/-!
# What the tracker says is mapped

`test_range` takes pages off a range where a run of a block has them, and answers yes once none is left.
So where the range's end does not wrap the answer is sound whatever the blocks are: each step looks at one
run only, and needs no order. The end of a range that wraps compares as before the range's start, and the
answer may be yes for a range whose first page only is mapped.

## Main results

* `Run.subtractOverlap_spec`: the pages left of a run, from which another is taken.
* `RangeTracker.testRange_sound`, `RangeTracker.not_testRange_sound_of_wrap`.
-/

namespace ReimsVgpu.Memory.Tracker

/-- What is left of a run when one that overlaps it, but is not strictly inside it, is taken off: nothing,
or a run within it. -/
theorem Run.subtractOverlap_spec {r run : Run} (hr : r.Proper) (hrun : run.NoWrap)
    (hover : run.lo < r.hi ∧ r.lo < run.hi) (hin : ¬ (run.lo < r.lo ∧ r.hi < run.hi)) :
    ∃ left, run.subtractOverlap r = some left ∧ left.pages = run.pages \ r.pages ∧
      (left = {} ∨ left.Proper ∧ run.lo ≤ left.lo ∧ left.hi ≤ run.hi) := by
  have hrstop := toNat_stop hr.noWrap
  have hstop := toNat_stop hrun
  have hmem : ∀ p, p ∈ run.pages \ r.pages ↔
      (run.lo ≤ p.toNat ∧ p.toNat < run.hi) ∧ ¬ (r.lo ≤ p.toNat ∧ p.toNat < r.hi) := fun p => by
    rw [Set.mem_sdiff, mem_pages hrun, mem_pages hr.noWrap]
  unfold subtractOverlap
  split_ifs with hstart hend hinside
  · rw [UInt32.le_iff_toNat_le] at hstart hend
    change r.lo ≤ run.lo at hstart
    refine ⟨{}, rfl, ?_, .inl rfl⟩
    ext p
    rw [hmem, mem_pages (by decide)]
    have hzero : ({} : Run).lo = 0 ∧ ({} : Run).hi = 0 := ⟨rfl, rfl⟩
    omega
  · rw [UInt32.le_iff_toNat_le] at hstart hend
    change r.lo ≤ run.lo at hstart
    obtain ⟨hproper, ⟨hlo, hhi⟩, hpages⟩ := piece_spec run r.stop run.stop (by omega) (by omega) (by omega)
    refine ⟨_, rfl, ?_, .inr ⟨hproper, hlo, hhi⟩⟩
    ext p
    rw [hmem, hpages]
    omega
  · rw [UInt32.le_iff_toNat_le] at hstart
    rw [UInt32.lt_iff_toNat_lt] at hinside
    change ¬ r.lo ≤ run.lo at hstart
    omega
  · rw [UInt32.le_iff_toNat_le] at hstart
    rw [UInt32.lt_iff_toNat_lt] at hinside
    change ¬ r.lo ≤ run.lo at hstart
    have hoffset : run.pageOffset.toNat = run.lo := rfl
    have hroffset : r.pageOffset.toNat = r.lo := rfl
    obtain ⟨hproper, ⟨hlo, hhi⟩, hpages⟩ :=
      piece_spec run run.pageOffset r.pageOffset (by omega) (by omega) (by omega)
    refine ⟨_, rfl, ?_, .inr ⟨hproper, hlo, hhi⟩⟩
    ext p
    rw [hmem, hpages]
    omega

theorem noWrap_of_left {left run : Run}
    (h : left = {} ∨ left.Proper ∧ run.lo ≤ left.lo ∧ left.hi ≤ run.hi) : left.NoWrap := by
  rcases h with rfl | h
  · decide
  · exact h.1.noWrap

theorem pages_of_isEmpty {run : Run} (h : run.isEmpty = true) : run.pages = ∅ := by
  ext p
  have hzero : run.pageLength = 0 := by simpa [Run.isEmpty] using h
  simp [Run.pages, hzero]

namespace RunBlock

/-- What a test of a block takes off a run is in one of its runs, and it answers yes where nothing is
left. -/
theorem testLoop_sound {runs : List Run} {run left : Run} {answer : Bool}
    (hruns : ∀ r ∈ runs, r.Proper) (hrun : run.NoWrap) (h : testLoop runs run = .ok (left, answer)) :
    left.NoWrap ∧ run.pages ⊆ covered runs ∪ left.pages ∧ (answer = true → left.isEmpty = true) := by
  induction runs generalizing run with
  | nil =>
    obtain ⟨rfl, rfl⟩ := Prod.mk.inj (Except.ok.inj h)
    exact ⟨hrun, Set.subset_union_right, id⟩
  | cons r runs ih =>
    obtain ⟨hr, hruns⟩ := List.forall_mem_cons.mp hruns
    have hrlt := hr.lt
    have hle := run.lo_le_hi
    have hspec := Run.compare_spec hr.noWrap hrun hr.pos
    have hskip : ∀ {u : Run}, u.NoWrap → testLoop runs u = .ok (left, answer) →
        run.pages ⊆ r.pages ∪ u.pages →
        left.NoWrap ∧ run.pages ⊆ covered (r :: runs) ∪ left.pages ∧
          (answer = true → left.isEmpty = true) := fun hu hloop hsub => by
      obtain ⟨hleft, hcov, hanswer⟩ := ih hruns hu hloop
      refine ⟨hleft, fun p hp => ?_, hanswer⟩
      rw [covered_cons]
      rcases hsub hp with hp | hp
      · exact .inl (.inl hp)
      · exact (hcov hp).imp_left .inr
    have hlast : ∀ {u : Run}, u.NoWrap → run.pages ⊆ r.pages ∪ u.pages → ∀ {yes : Bool},
        (yes = true → u.isEmpty = true) → Except.ok (ε := Failure) (u, yes) = .ok (left, answer) →
        left.NoWrap ∧ run.pages ⊆ covered (r :: runs) ∪ left.pages ∧
          (answer = true → left.isEmpty = true) := fun hu hsub yes hyes heq => by
      obtain ⟨rfl, rfl⟩ := Prod.mk.inj (Except.ok.inj heq)
      refine ⟨hu, fun p hp => ?_, hyes⟩
      rw [covered_cons]
      exact (hsub hp).imp_left .inl
    have hsub : ∀ {u : Run}, u.pages = run.pages \ r.pages → run.pages ⊆ r.pages ∪ u.pages :=
      fun heq => by
        rw [heq, Set.union_sdiff_self]
        exact Set.subset_union_right
    rw [testLoop] at h
    cases hcmp : r.compare run <;> rw [hcmp] at hspec h <;> dsimp only at hspec h
    case less | lessAdjacent => exact hskip hrun h Set.subset_union_right
    case lessOverlap | insideEdge =>
      obtain ⟨u, hu, hpages, hwithin⟩ :=
        Run.subtractOverlap_spec hr hrun ⟨by omega, by omega⟩ (by omega)
      rw [hu] at h
      exact hskip (noWrap_of_left hwithin) h (hsub hpages)
    case inside => exact hlast hrun Set.subset_union_right (by nofun) h
    case equal | contains | greaterOverlap =>
      obtain ⟨u, hu, hpages, hwithin⟩ :=
        Run.subtractOverlap_spec hr hrun ⟨by omega, by omega⟩ (by omega)
      rw [hu] at h
      exact hlast (noWrap_of_left hwithin) (hsub hpages) id h
    case greaterAdjacent | greater => exact hlast hrun Set.subset_union_right id h

theorem test_sound {b : RunBlock} {run left : Run} {answer : Bool} (hruns : ∀ r ∈ b.runs, r.Proper)
    (hrun : run.NoWrap) (h : b.test run = .ok (left, answer)) :
    left.NoWrap ∧ run.pages ⊆ covered b.runs ∪ left.pages ∧ (answer = true → left.isEmpty = true) := by
  unfold test at h
  split_ifs at h
  · obtain ⟨rfl, rfl⟩ := Prod.mk.inj (Except.ok.inj h)
    exact ⟨hrun, Set.subset_union_right, nofun⟩
  · obtain ⟨rfl, rfl⟩ := Prod.mk.inj (Except.ok.inj h)
    exact ⟨hrun, Set.subset_union_right, nofun⟩
  · obtain ⟨hleft, hcov, hanswer⟩ :=
      testLoop_sound (fun r hr => hruns r (List.mem_of_mem_drop hr)) hrun h
    refine ⟨hleft, fun p hp => (hcov hp).imp_left ?_, hanswer⟩
    rintro ⟨r, hr, hpr⟩
    exact ⟨r, List.mem_of_mem_drop hr, hpr⟩

/-- Whatever the runs are, a test ends with the raise of a subtraction, a no, or a yes with nothing left. -/
theorem testLoop_ends (runs : List Run) (run : Run) :
    testLoop runs run = .error (.raised .runSubtractInside) ∨
      ∃ left answer, testLoop runs run = .ok (left, answer) ∧
        (answer = true → left.isEmpty = true) := by
  induction runs generalizing run with
  | nil => exact .inr ⟨run, _, rfl, id⟩
  | cons r runs ih =>
    rw [testLoop]
    cases r.compare run <;> dsimp only
    case less | lessAdjacent => exact ih run
    case lessOverlap | insideEdge =>
      cases run.subtractOverlap r with
      | none => exact .inl rfl
      | some left => exact ih left
    case inside => exact .inr ⟨run, false, rfl, nofun⟩
    case equal | contains | greaterOverlap =>
      cases run.subtractOverlap r with
      | none => exact .inl rfl
      | some left => exact .inr ⟨left, _, rfl, id⟩
    case greaterAdjacent | greater => exact .inr ⟨run, _, rfl, id⟩

theorem test_ends (b : RunBlock) (run : Run) :
    b.test run = .error (.raised .runSubtractInside) ∨
      ∃ left answer, b.test run = .ok (left, answer) ∧ (answer = true → left.isEmpty = true) := by
  unfold test
  split_ifs
  · exact .inr ⟨run, false, rfl, nofun⟩
  · exact .inr ⟨run, false, rfl, nofun⟩
  · exact testLoop_ends _ run

end RunBlock

namespace Blocks

/-- A test of a block that answers yes leaves nothing: a test of a range does not die. -/
theorem testRange_ne_leftover (blocks : List RunBlock) (run : Run) :
    testRange blocks run ≠ .error (.died .trackerTestLeftover) := by
  induction blocks generalizing run with
  | nil => nofun
  | cons b blocks ih =>
    have hends := b.test_ends run
    rw [testRange]
    cases b.compare run <;> dsimp only
    case less | lessAdjacent => exact ih run
    case inside | greaterAdjacent | greater => nofun
    case lessOverlap | insideEdge =>
      rcases hends with h | ⟨left, answer, h, -⟩
      · rw [h]
        nofun
      · rw [h]
        cases answer with
        | false => nofun
        | true => exact ih left
    case equal | contains =>
      rcases hends with h | ⟨left, answer, h, hyes⟩
      · rw [h]
        nofun
      · rw [h]
        cases answer with
        | false => nofun
        | true =>
          dsimp only
          rw [if_pos (hyes rfl)]
          nofun
    case greaterOverlap =>
      rcases hends with h | ⟨left, answer, h, -⟩
      · rw [h]
        nofun
      · rw [h]
        nofun

/-- A range that is answered mapped has its pages in the runs. -/
theorem subset_of_testRange {blocks : List RunBlock} {run : Run}
    (hblocks : ∀ b ∈ blocks, ∀ r ∈ b.runs, r.Proper) (hrun : run.NoWrap)
    (h : testRange blocks run = .ok true) : run.pages ⊆ pages blocks := by
  induction blocks generalizing run with
  | nil =>
    rw [pages_of_isEmpty (Except.ok.inj h)]
    exact Set.empty_subset _
  | cons b blocks ih =>
    obtain ⟨hb, hblocks⟩ := List.forall_mem_cons.mp hblocks
    rw [pages_cons]
    have hskip : ∀ {u : Run}, u.NoWrap → testRange blocks u = .ok true →
        run.pages ⊆ covered b.runs ∪ u.pages → run.pages ⊆ covered b.runs ∪ pages blocks :=
      fun hu hrest hsub p hp => (hsub hp).imp_right fun hpu => ih hblocks hu hrest hpu
    have hempty : ∀ {u : Run}, u.isEmpty = true → run.pages ⊆ covered b.runs ∪ u.pages →
        run.pages ⊆ covered b.runs ∪ pages blocks := fun hu hsub p hp => by
      rw [pages_of_isEmpty hu, Set.union_empty] at hsub
      exact .inl (hsub hp)
    rw [testRange] at h
    cases hcmp : b.compare run <;> rw [hcmp] at h <;> dsimp only at h
    case less | lessAdjacent => exact hskip hrun h Set.subset_union_right
    case inside => cases h
    case greaterAdjacent | greater => exact hempty (Except.ok.inj h) Set.subset_union_right
    case lessOverlap | insideEdge =>
      split at h
      · cases h
      · cases h
      next left htest =>
        obtain ⟨hleft, hcov, -⟩ := RunBlock.test_sound hb hrun htest
        exact hskip hleft h hcov
    case equal | contains =>
      split at h
      · cases h
      · cases h
      next left htest =>
        obtain ⟨-, hcov, hyes⟩ := RunBlock.test_sound hb hrun htest
        exact hempty (hyes rfl) hcov
    case greaterOverlap =>
      obtain ⟨⟨left, answer⟩, htest, heq⟩ := RunBlock.map_eq_ok h
      obtain ⟨-, hcov, -⟩ := RunBlock.test_sound hb hrun htest
      exact hempty (Bool.and_eq_true_iff.mp heq).2 hcov

end Blocks

namespace RangeTracker

/-- In every state whose runs are proper, a range whose end does not wrap and that is answered mapped is;
and no test of a range dies. -/
theorem testRange_sound (a : Arch) {blocks : List RunBlock}
    (hblocks : ∀ b ∈ blocks, ∀ r ∈ b.runs, r.Proper) (offset length : UInt64) :
    (∀ run, calculatePageRunUnaligned a offset length = .ok run → run.NoWrap →
      testRange a blocks offset length = .ok true → run.pages ⊆ Blocks.pages blocks) ∧
    testRange a blocks offset length ≠ .error (.died .trackerTestLeftover) := by
  constructor
  · intro run hrun hwrap htest
    unfold testRange at htest
    rw [hrun] at htest
    exact Blocks.subset_of_testRange hblocks hwrap htest
  · unfold testRange
    split
    · nofun
    · exact Blocks.testRange_ne_leftover blocks _

/-- Two pages mapped, in one run. -/
theorem testRange_sound_tenPages :
    (∀ run, calculatePageRunUnaligned .other (12 * 2 ^ 14) (3 * 2 ^ 14) = .ok run → run.NoWrap →
      testRange .other tenPages (12 * 2 ^ 14) (3 * 2 ^ 14) = .ok true → run.pages ⊆ Blocks.pages tenPages) ∧
    testRange .other tenPages (12 * 2 ^ 14) (3 * 2 ^ 14) ≠ .error (.died .trackerTestLeftover) :=
  testRange_sound .other (fun b hb r hr => (tenPages_ordered.block b hb).ascending.proper r hr) _ _

/-- Page 0 is mapped, and two pages near the end. -/
def endsMapped : RunBlock := ⟨[⟨0, 1⟩, ⟨2 ^ 32 - 3, 2⟩], ⟨0, 2 ^ 32 - 1⟩⟩

/-- The three pages from the last one mapped on wrap to page 0. -/
theorem probe_endsMapped : RunBlock.probe endsMapped.runs ⟨2 ^ 32 - 2, 3⟩ = 1 := by
  rw [RunBlock.probe, RunBlock.probeLoop, if_pos (by decide)]
  dsimp only
  rw [if_neg (by decide), if_neg (by decide), RunBlock.probeLoop, if_neg (by decide)]
  rfl

theorem testRange_endsMapped : Blocks.testRange [endsMapped] ⟨2 ^ 32 - 2, 3⟩ = .ok true := by
  have htest : endsMapped.test ⟨2 ^ 32 - 2, 3⟩ = .ok ({}, true) := by
    rw [RunBlock.test, if_neg (by decide), if_neg (by decide), probe_endsMapped]
    decide
  rw [Blocks.testRange, show endsMapped.compare ⟨2 ^ 32 - 2, 3⟩ = .contains by decide]
  dsimp only
  rw [htest]
  rfl

/-- A block in order answers a range whose end wraps: the page between its runs is not mapped. -/
theorem not_testRange_sound_of_wrap :
    ¬ ∀ (a : Arch) (blocks : List RunBlock) (offset length : UInt64) (run : Run),
      (∀ b ∈ blocks, ∀ r ∈ b.runs, r.Proper) →
      calculatePageRunUnaligned a offset length = .ok run →
      testRange a blocks offset length = .ok true → run.pages ⊆ Blocks.pages blocks := by
  intro h
  have hruns : ∀ b ∈ [endsMapped], ∀ r ∈ b.runs, r.Proper := by
    intro b hb r hr
    rw [List.mem_singleton.mp hb] at hr
    rcases List.mem_cons.mp hr with rfl | hr
    · exact ⟨by decide, by decide⟩
    · rw [List.mem_singleton.mp hr]
      exact ⟨by decide, by decide⟩
  have hrun : calculatePageRunUnaligned .other ((2 ^ 32 - 2) * 2 ^ 14) (3 * 2 ^ 14) =
      .ok ⟨2 ^ 32 - 2, 3⟩ := by
    decide
  have htest : testRange .other [endsMapped] ((2 ^ 32 - 2) * 2 ^ 14) (3 * 2 ^ 14) = .ok true := by
    rw [testRange, hrun]
    exact testRange_endsMapped
  obtain ⟨r, hr, hp⟩ := h .other [endsMapped] _ _ _ hruns hrun htest
    (show (2 ^ 32 - 1 : UInt32) ∈ (⟨2 ^ 32 - 2, 3⟩ : Run).pages by
      change (2 ^ 32 - 1 : UInt32) - (2 ^ 32 - 2) < 3
      decide)
  have hmem : r = ⟨0, 1⟩ ∨ r = ⟨2 ^ 32 - 3, 2⟩ := by simpa [endsMapped] using hr
  rcases hmem with rfl | rfl
  · exact absurd hp (by change ¬ (2 ^ 32 - 1 : UInt32) - 0 < 1; decide)
  · exact absurd hp (by change ¬ (2 ^ 32 - 1 : UInt32) - (2 ^ 32 - 3) < 2; decide)

end RangeTracker

end ReimsVgpu.Memory.Tracker
