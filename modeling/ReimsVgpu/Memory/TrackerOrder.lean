import ReimsVgpu.Library.IntervalList
import ReimsVgpu.Memory.Tracker
import Mathlib.Order.CompletePartialOrder

/-!
# The order of the tracked runs

A run whose end does not wrap is an interval of pages. A block in order has proper runs that ascend and
do not overlap, and their exact hull. What `RunBlock::add` and `RunBlock::remove` do to such a block is
said here of its pages and of its order; the index both start from is the place of the run among the
runs, or next to it.

## Main definitions

* `Run.pages`, `covered`: the pages of a run, and of a list of runs.
* `Run.cut`: what is left of a run when another is taken out of it.
* `Ascending`, `IsHull`, `RunBlock.Ordered`: the order of a block.

## Main results

* `Run.compare_spec`: what each comparison says of where two runs lie.
* `RunBlock.remove_spec`: a removal takes out pages of the run only.
* `RunBlock.add_spec`: an add gives the run's pages, and a proper run keeps the order.
* `RunBlock.split_ordered`: the halves of a block that is split.
-/

namespace ReimsVgpu.Memory.Tracker

namespace Run

/-- The first page. -/
def lo (r : Run) : ℕ := r.pageOffset.toNat

/-- The page after the last one, where the sum does not wrap. -/
def hi (r : Run) : ℕ := r.pageOffset.toNat + r.pageLength.toNat

/-- The run's end does not wrap. -/
def NoWrap (r : Run) : Prop := r.hi < 2 ^ 32

instance (r : Run) : Decidable r.NoWrap := inferInstanceAs (Decidable (r.hi < 2 ^ 32))

/-- The pages of a run, which go on at page 0 where its end wraps. -/
def pages (r : Run) : Set UInt32 := {p | p - r.pageOffset < r.pageLength}

theorem lo_le_hi (r : Run) : r.lo ≤ r.hi := Nat.le_add_right _ _

theorem toNat_stop {r : Run} (h : r.NoWrap) : r.stop.toNat = r.hi := by
  rw [stop, UInt32.toNat_add]
  exact Nat.mod_eq_of_lt h

theorem mem_pages {r : Run} (h : r.NoWrap) {p : UInt32} :
    p ∈ r.pages ↔ r.lo ≤ p.toNat ∧ p.toNat < r.hi := by
  have hp := p.toNat_lt
  have ho := r.pageOffset.toNat_lt
  unfold NoWrap hi at h
  change p - r.pageOffset < r.pageLength ↔ _
  rw [UInt32.lt_iff_toNat_lt, UInt32.toNat_sub]
  unfold lo hi
  omega

theorem eq_iff {r s : Run} : r = s ↔ r.lo = s.lo ∧ r.hi = s.hi := by
  constructor
  · rintro rfl
    exact ⟨rfl, rfl⟩
  · rintro ⟨hlo, hhi⟩
    unfold lo at hlo
    unfold hi at hhi
    cases r
    cases s
    simp only [Run.mk.injEq, ← UInt32.toNat_inj]
    simp only at hlo hhi
    omega

/-- A run given by its two ends. -/
theorem ends_mk {offset stop : UInt32} (h : offset.toNat ≤ stop.toNat) :
    (⟨offset, stop - offset⟩ : Run).lo = offset.toNat ∧
      (⟨offset, stop - offset⟩ : Run).hi = stop.toNat := by
  refine ⟨rfl, ?_⟩
  change offset.toNat + (stop - offset).toNat = _
  rw [UInt32.toNat_sub_of_le _ _ (UInt32.le_iff_toNat_le.mpr h)]
  omega

/-- Where two runs lie that do not wrap, the first of which is not the empty run at page 0. -/
theorem compare_spec {r s : Run} (hr : r.NoWrap) (hs : s.NoWrap) (hpos : 0 < r.hi) :
    match r.compare s with
    | .less => r.hi < s.lo
    | .lessAdjacent => r.hi = s.lo ∧ ¬ (r.lo = s.lo ∧ r.hi = s.hi)
    | .lessOverlap => r.lo < s.lo ∧ s.lo < r.hi ∧ r.hi ≤ s.hi
    | .equal => r.lo = s.lo ∧ r.hi = s.hi
    | .inside => s.lo < r.lo ∧ r.hi < s.hi
    | .insideEdge => s.lo ≤ r.lo ∧ r.hi ≤ s.hi ∧ s.lo < r.hi ∧ (r.lo = s.lo ∨ r.hi = s.hi) ∧
        ¬ (r.lo = s.lo ∧ r.hi = s.hi)
    | .contains => r.lo < s.lo ∧ s.hi < r.hi
    | .greaterOverlap => s.lo ≤ r.lo ∧ r.lo < s.hi ∧ s.hi < r.hi
    | .greaterAdjacent => s.lo ≤ r.lo ∧ r.lo = s.hi ∧ s.hi < r.hi
    | .greater => s.lo ≤ r.lo ∧ s.hi < r.lo := by
  have hrstop := toNat_stop hr
  have hsstop := toNat_stop hs
  have hrlo : r.lo = r.pageOffset.toNat := rfl
  have hslo : s.lo = s.pageOffset.toNat := rfl
  have hrhi : r.hi = r.pageOffset.toNat + r.pageLength.toNat := rfl
  have hshi : s.hi = s.pageOffset.toNat + s.pageLength.toNat := rfl
  have hzero : (0 : UInt32).toNat = 0 := rfl
  fun_cases r.compare s
  all_goals
    simp only [UInt32.lt_iff_toNat_lt, UInt32.le_iff_toNat_le, ← UInt32.toNat_inj, hrstop, hsstop,
      hzero] at *
    omega

/-- The source's last test of `compare` holds where it is reached. -/
theorem stop_le_of_greaterOverlap {r s : Run} (h : r.compare s = .greaterOverlap) :
    s.pageOffset ≤ r.pageOffset ∧ s.stop ≤ r.stop := by
  revert h
  fun_cases r.compare s
  all_goals intro h
  case case11 =>
    simp only [UInt32.lt_iff_toNat_lt, UInt32.le_iff_toNat_le, ← UInt32.toNat_inj] at *
    omega
  all_goals cases h

theorem le_of_lessOverlap {r s : Run} (h : r.compare s = .lessOverlap) :
    r.pageOffset ≤ s.pageOffset ∧ r.stop ≤ s.stop := by
  revert h
  fun_cases r.compare s
  all_goals intro h
  case case8 hle => exact hle
  all_goals cases h

/-- No subtraction of a block raises: from a run that overlaps the run's start or end. -/
theorem subtractOverlap_isSome {r s : Run}
    (h : r.compare s = .lessOverlap ∨ r.compare s = .greaterOverlap) :
    (r.subtractOverlap s).isSome ∧ (r.compare s = .lessOverlap → (s.subtractOverlap r).isSome) := by
  have hsome : ∀ {u v : Run}, v.pageOffset ≤ u.pageOffset → (u.subtractOverlap v).isSome := by
    intro u v huv
    unfold subtractOverlap
    rw [if_pos huv]
    split <;> rfl
  refine ⟨?_, fun hless => hsome (le_of_lessOverlap hless).1⟩
  rcases h with h | h
  · obtain ⟨-, hstop⟩ := le_of_lessOverlap h
    unfold subtractOverlap
    split_ifs with hle hlt
    · rfl
    · rw [UInt32.lt_iff_toNat_lt] at hlt
      rw [UInt32.le_iff_toNat_le] at hstop
      omega
    · rfl
  · exact hsome (stop_le_of_greaterOverlap h).1

/-- A run with a page, whose end does not wrap. -/
structure Proper (r : Run) : Prop where
  noWrap : r.NoWrap
  lt : r.lo < r.hi

theorem Proper.pos {r : Run} (h : r.Proper) : 0 < r.hi := (Nat.zero_le _).trans_lt h.lt

theorem Proper.isEmpty {r : Run} (h : r.Proper) : r.isEmpty = false := by
  have hlt := h.lt
  rw [Run.isEmpty, beq_eq_false_iff_ne]
  intro hzero
  rw [lo, hi, hzero] at hlt
  exact absurd hlt (lt_irrefl _)

theorem proper_mk {offset stop : UInt32} (h : offset.toNat < stop.toNat) :
    (⟨offset, stop - offset⟩ : Run).Proper := by
  obtain ⟨hlo, hhi⟩ := ends_mk h.le
  refine ⟨?_, by omega⟩
  rw [NoWrap, hhi]
  exact stop.toNat_lt

/-- The hull of two runs. -/
theorem merge_spec {r s : Run} (hr : r.Proper) (hs : s.NoWrap) :
    (r.merge s).Proper ∧ (r.merge s).lo = min r.lo s.lo ∧ (r.merge s).hi = max r.hi s.hi := by
  have hrstop := toNat_stop hr.noWrap
  have hsstop := toNat_stop hs
  have hrlt := hr.lt
  have hsle := s.lo_le_hi
  have hlen : r.pageLength ≠ 0 := by
    intro hzero
    rw [lo, hi, hzero] at hrlt
    exact absurd hrlt (lt_irrefl _)
  have hoffset : (if s.pageOffset < r.pageOffset then s.pageOffset else r.pageOffset).toNat =
      min r.lo s.lo := by
    split_ifs with hlt
    · rw [UInt32.lt_iff_toNat_lt] at hlt
      exact (min_eq_right (le_of_lt hlt)).symm
    · rw [UInt32.lt_iff_toNat_lt] at hlt
      exact (min_eq_left (not_lt.mp hlt)).symm
  have hmin : min r.lo s.lo ≤ r.lo := min_le_left _ _
  unfold merge
  rw [if_neg hlen]
  dsimp only
  generalize (if s.pageOffset < r.pageOffset then s.pageOffset else r.pageOffset) = offset
    at hoffset ⊢
  split_ifs with hstop
  · rw [UInt32.lt_iff_toNat_lt, hrstop, hsstop] at hstop
    have hlt : offset.toNat < r.stop.toNat := by omega
    obtain ⟨hlo, hhi⟩ := ends_mk hlt.le
    refine ⟨proper_mk hlt, hlo.trans hoffset, ?_⟩
    rw [hhi, hrstop, max_eq_left hstop.le]
  · rw [UInt32.lt_iff_toNat_lt, hrstop, hsstop, not_lt] at hstop
    have hlt : offset.toNat < s.stop.toNat := by omega
    obtain ⟨hlo, hhi⟩ := ends_mk hlt.le
    refine ⟨proper_mk hlt, hlo.trans hoffset, ?_⟩
    rw [hhi, hsstop, max_eq_right hstop]

/-- What is left of a run when another is taken out of it. -/
def cut (run r : Run) : List Run :=
  match r.compare run with
  | .lessOverlap => [⟨r.pageOffset, run.pageOffset - r.pageOffset⟩]
  | .equal | .inside | .insideEdge => []
  | .contains => [(r.subtractInside run).1, (r.subtractInside run).2]
  | .greaterOverlap => [⟨run.stop, r.stop - run.stop⟩]
  | .less | .lessAdjacent | .greaterAdjacent | .greater => [r]

end Run

/-- The pages of a list of runs. -/
def covered (l : List Run) : Set UInt32 := {p | ∃ r ∈ l, p ∈ r.pages}

@[simp]
theorem covered_nil : covered [] = ∅ := by
  ext p
  simp [covered]

@[simp]
theorem covered_cons (r : Run) (l : List Run) : covered (r :: l) = r.pages ∪ covered l := by
  ext p
  simp [covered]

@[simp]
theorem covered_append (l m : List Run) : covered (l ++ m) = covered l ∪ covered m := by
  ext p
  simp [covered, or_and_right, exists_or]

/-- Proper runs in ascending order, none of which overlap. -/
structure Ascending (l : List Run) : Prop where
  proper : ∀ r ∈ l, r.Proper
  sorted : l.Pairwise fun r s => r.hi ≤ s.lo

theorem ascending_nil : Ascending [] := ⟨by simp, .nil⟩

theorem ascending_singleton {r : Run} (h : r.Proper) : Ascending [r] :=
  ⟨by simpa using h, List.pairwise_singleton _ _⟩

theorem ascending_cons {r : Run} {l : List Run} :
    Ascending (r :: l) ↔ r.Proper ∧ Ascending l ∧ ∀ s ∈ l, r.hi ≤ s.lo := by
  constructor
  · rintro ⟨hproper, hsorted⟩
    obtain ⟨hr, hl⟩ := List.forall_mem_cons.mp hproper
    obtain ⟨hfirst, hrest⟩ := List.pairwise_cons.mp hsorted
    exact ⟨hr, ⟨hl, hrest⟩, hfirst⟩
  · rintro ⟨hr, ⟨hl, hrest⟩, hfirst⟩
    exact ⟨List.forall_mem_cons.mpr ⟨hr, hl⟩, List.pairwise_cons.mpr ⟨hfirst, hrest⟩⟩

theorem ascending_append {l m : List Run} :
    Ascending (l ++ m) ↔ Ascending l ∧ Ascending m ∧ ∀ r ∈ l, ∀ s ∈ m, r.hi ≤ s.lo := by
  constructor
  · rintro ⟨hproper, hsorted⟩
    obtain ⟨hl, hm⟩ := List.forall_mem_append.mp hproper
    obtain ⟨hsl, hsm, hlm⟩ := List.pairwise_append.mp hsorted
    exact ⟨⟨hl, hsl⟩, ⟨hm, hsm⟩, hlm⟩
  · rintro ⟨⟨hl, hsl⟩, ⟨hm, hsm⟩, hlm⟩
    exact ⟨List.forall_mem_append.mpr ⟨hl, hm⟩, List.pairwise_append.mpr ⟨hsl, hsm, hlm⟩⟩

namespace Run

/-- One piece of a run. -/
theorem piece_spec (r : Run) (offset stop : UInt32) (hlo : r.lo ≤ offset.toNat)
    (hlt : offset.toNat < stop.toNat) (hhi : stop.toNat ≤ r.hi) :
    (⟨offset, stop - offset⟩ : Run).Proper ∧
      (r.lo ≤ (⟨offset, stop - offset⟩ : Run).lo ∧ (⟨offset, stop - offset⟩ : Run).hi ≤ r.hi) ∧
      ∀ p, p ∈ (⟨offset, stop - offset⟩ : Run).pages ↔
        offset.toNat ≤ p.toNat ∧ p.toNat < stop.toNat := by
  obtain ⟨hmklo, hmkhi⟩ := ends_mk hlt.le
  have hproper := proper_mk hlt
  refine ⟨hproper, ⟨by omega, by omega⟩, fun p => ?_⟩
  rw [mem_pages hproper.noWrap, hmklo, hmkhi]

/-- A run that is cut leaves proper runs inside it, with the other pages. -/
theorem cut_spec {run r : Run} (hr : r.Proper) (hrun : run.NoWrap) :
    Ascending (cut run r) ∧ (∀ s ∈ cut run r, r.lo ≤ s.lo ∧ s.hi ≤ r.hi) ∧
      covered (cut run r) = r.pages \ run.pages := by
  have hspec := compare_spec hr.noWrap hrun hr.pos
  have hrlt := hr.lt
  have hrstop := toNat_stop hr.noWrap
  have hsstop := toNat_stop hrun
  have hsle := run.lo_le_hi
  have hrlo : r.lo = r.pageOffset.toNat := rfl
  have hslo : run.lo = run.pageOffset.toNat := rfl
  have hmem : ∀ p, p ∈ r.pages \ run.pages ↔
      (r.lo ≤ p.toNat ∧ p.toNat < r.hi) ∧ ¬ (run.lo ≤ p.toNat ∧ p.toNat < run.hi) := fun p => by
    rw [Set.mem_sdiff, mem_pages hr.noWrap, mem_pages hrun]
  have hkept : (r.hi ≤ run.lo ∨ run.hi ≤ r.lo) →
      Ascending [r] ∧ (∀ s ∈ [r], r.lo ≤ s.lo ∧ s.hi ≤ r.hi) ∧
        covered [r] = r.pages \ run.pages := by
    intro hapart
    refine ⟨ascending_singleton hr, by simp, ?_⟩
    ext p
    rw [covered_cons, covered_nil, Set.union_empty, hmem, mem_pages hr.noWrap]
    omega
  have hgone : (run.lo ≤ r.lo ∧ r.hi ≤ run.hi) →
      Ascending [] ∧ (∀ s ∈ ([] : List Run), r.lo ≤ s.lo ∧ s.hi ≤ r.hi) ∧
        covered [] = r.pages \ run.pages := by
    intro hinside
    refine ⟨ascending_nil, by simp, ?_⟩
    ext p
    rw [covered_nil, hmem, Set.mem_empty_iff_false, false_iff]
    omega
  unfold cut
  split <;> rename_i hcmp <;> rw [hcmp] at hspec <;> dsimp only at hspec
  · -- The end is cut off.
    obtain ⟨hproper, hinside, hpages⟩ :=
      piece_spec r r.pageOffset run.pageOffset (by omega) (by omega)
        (by omega)
    refine ⟨ascending_singleton hproper, by simpa using hinside, ?_⟩
    ext p
    rw [covered_cons, covered_nil, Set.union_empty, hmem, hpages]
    omega
  · exact hgone (by omega)
  · exact hgone (by omega)
  · exact hgone (by omega)
  · -- The run is split in two.
    obtain ⟨hleft, hleftIn, hleftPages⟩ :=
      piece_spec r r.pageOffset run.pageOffset (by omega) (by omega)
        (by omega)
    obtain ⟨hright, hrightIn, hrightPages⟩ :=
      piece_spec r run.stop r.stop (by omega) (by omega) (by omega)
    refine ⟨ascending_cons.mpr ⟨hleft, ascending_singleton hright, ?_⟩, ?_, ?_⟩
    · simp only [List.mem_singleton, forall_eq]
      change (⟨r.pageOffset, run.pageOffset - r.pageOffset⟩ : Run).hi ≤ run.stop.toNat
      rw [(ends_mk (by omega)).2]
      omega
    · simp only [List.forall_mem_cons, List.not_mem_nil, false_implies, implies_true, and_true]
      exact ⟨hleftIn, hrightIn⟩
    · ext p
      rw [covered_cons, covered_cons, covered_nil, Set.union_empty, Set.mem_union, hmem]
      have h1 := hleftPages p
      have h2 := hrightPages p
      change p ∈ (⟨r.pageOffset, run.pageOffset - r.pageOffset⟩ : Run).pages ∨
        p ∈ (⟨run.stop, r.stop - run.stop⟩ : Run).pages ↔ _
      rw [h1, h2]
      omega
  · -- The start is cut off.
    obtain ⟨hproper, hinside, hpages⟩ :=
      piece_spec r run.stop r.stop (by omega) (by omega) (by omega)
    refine ⟨ascending_singleton hproper, by simpa using hinside, ?_⟩
    ext p
    rw [covered_cons, covered_nil, Set.union_empty, hmem, hpages]
    omega
  · exact hkept (by omega)
  · exact hkept (by omega)
  · exact hkept (by omega)
  · exact hkept (by omega)

end Run

/-! ### Runs that are cut -/

/-- Cutting every run of a list. -/
theorem flatMap_cut_spec {run : Run} {l : List Run} (hl : Ascending l) (hrun : run.NoWrap) :
    Ascending (l.flatMap (Run.cut run)) ∧
      covered (l.flatMap (Run.cut run)) = covered l \ run.pages ∧
      ∀ s ∈ l.flatMap (Run.cut run), ∃ r ∈ l, r.lo ≤ s.lo ∧ s.hi ≤ r.hi := by
  induction l with
  | nil => simp [ascending_nil]
  | cons r l ih =>
    obtain ⟨hr, hl, hfirst⟩ := ascending_cons.mp hl
    obtain ⟨hasc, hcov, hin⟩ := ih hl
    obtain ⟨hcut, hcutIn, hcutCov⟩ := Run.cut_spec hr hrun
    rw [List.flatMap_cons]
    refine ⟨ascending_append.mpr ⟨hcut, hasc, fun u hu v hv => ?_⟩, ?_, fun s hs => ?_⟩
    · obtain ⟨w, hw, hwv, -⟩ := hin v hv
      exact ((hcutIn u hu).2.trans (hfirst w hw)).trans hwv
    · rw [covered_append, covered_cons, hcov, hcutCov, Set.union_sdiff_distrib]
    · rcases List.mem_append.mp hs with hs | hs
      · exact ⟨r, List.mem_cons_self .., hcutIn s hs⟩
      · obtain ⟨w, hw, hws⟩ := hin s hs
        exact ⟨w, List.mem_cons_of_mem _ hw, hws⟩

/-- A run after the one that is taken out is not cut. -/
theorem Run.cut_of_le {run r : Run} (hr : r.Proper) (hrun : run.NoWrap) (h : run.hi ≤ r.lo) :
    (r.compare run = .greaterAdjacent ∨ r.compare run = .greater) ∧ Run.cut run r = [r] := by
  have hspec := Run.compare_spec hr.noWrap hrun hr.pos
  have hlt := hr.lt
  have hle := run.lo_le_hi
  unfold Run.cut
  cases hcmp : r.compare run <;> rw [hcmp] at hspec <;> dsimp only at hspec <;> first
    | omega
    | exact ⟨.inl rfl, rfl⟩
    | exact ⟨.inr rfl, rfl⟩

theorem flatMap_cut_of_le {run : Run} {l : List Run} (hl : Ascending l) (hrun : run.NoWrap)
    (h : ∀ r ∈ l, run.hi ≤ r.lo) : l.flatMap (Run.cut run) = l := by
  induction l with
  | nil => rfl
  | cons r l ih =>
    obtain ⟨hr, hl, -⟩ := ascending_cons.mp hl
    obtain ⟨hle, hrest⟩ := List.forall_mem_cons.mp h
    rw [List.flatMap_cons, (Run.cut_of_le hr hrun hle).2, ih hl hrest]
    rfl

/-! ### Hulls -/

/-- The smallest run that holds the pages. -/
structure IsHull (h : Run) (pages : Set UInt32) : Prop where
  noWrap : h.NoWrap
  bound : ∀ p ∈ pages, h.lo ≤ p.toNat ∧ p.toNat < h.hi
  first : ∃ p ∈ pages, p.toNat = h.lo
  last : ∃ p ∈ pages, p.toNat + 1 = h.hi

theorem IsHull.proper {h : Run} {pages : Set UInt32} (hh : IsHull h pages) : h.Proper := by
  obtain ⟨p, hp, hlo⟩ := hh.first
  have := hh.bound p hp
  exact ⟨hh.noWrap, by omega⟩

theorem Run.Proper.mem_lo {r : Run} (h : r.Proper) : r.pageOffset ∈ r.pages :=
  (Run.mem_pages h.noWrap).mpr ⟨le_rfl, h.lt⟩

theorem Run.Proper.exists_last {r : Run} (h : r.Proper) : ∃ p ∈ r.pages, p.toNat + 1 = r.hi := by
  have hlt := h.lt
  have hwrap := h.noWrap
  unfold Run.NoWrap at hwrap
  have htoNat : (UInt32.ofNat (r.hi - 1)).toNat = r.hi - 1 :=
    UInt32.toNat_ofNat_of_lt' (by change r.hi - 1 < 2 ^ 32; omega)
  refine ⟨UInt32.ofNat (r.hi - 1), (Run.mem_pages h.noWrap).mpr ?_, ?_⟩
  · rw [htoNat]
    omega
  · rw [htoNat]
    omega

/-- The hull of runs from the first and the last of them. -/
theorem isHull_of_mem {h : Run} {l : List Run} (hl : Ascending l) (hwrap : h.NoWrap)
    (hbound : ∀ r ∈ l, h.lo ≤ r.lo ∧ r.hi ≤ h.hi) (hfirst : ∃ r ∈ l, r.lo = h.lo)
    (hlast : ∃ r ∈ l, r.hi = h.hi) : IsHull h (covered l) := by
  refine ⟨hwrap, ?_, ?_, ?_⟩
  · rintro p ⟨r, hr, hp⟩
    rw [Run.mem_pages (hl.proper r hr).noWrap] at hp
    have := hbound r hr
    omega
  · obtain ⟨r, hr, hlo⟩ := hfirst
    exact ⟨r.pageOffset, ⟨r, hr, (hl.proper r hr).mem_lo⟩, hlo⟩
  · obtain ⟨r, hr, hhi⟩ := hlast
    obtain ⟨p, hp, hlast⟩ := (hl.proper r hr).exists_last
    exact ⟨p, ⟨r, hr, hp⟩, hlast.trans hhi⟩

/-- The runs of a hull lie in it, and two of them reach its ends. -/
theorem IsHull.runs {h : Run} {l : List Run} (hh : IsHull h (covered l)) (hl : Ascending l) :
    (∀ r ∈ l, h.lo ≤ r.lo ∧ r.hi ≤ h.hi) ∧ (∃ r ∈ l, r.lo = h.lo) ∧ ∃ r ∈ l, r.hi = h.hi := by
  have hbound : ∀ r ∈ l, h.lo ≤ r.lo ∧ r.hi ≤ h.hi := by
    intro r hr
    have hproper := hl.proper r hr
    obtain ⟨p, hp, hlast⟩ := hproper.exists_last
    have hfirst := hh.bound r.pageOffset ⟨r, hr, hproper.mem_lo⟩
    have hend := hh.bound p ⟨r, hr, hp⟩
    exact ⟨hfirst.1, by omega⟩
  refine ⟨hbound, ?_, ?_⟩
  · obtain ⟨p, ⟨r, hr, hp⟩, hlo⟩ := hh.first
    rw [Run.mem_pages (hl.proper r hr).noWrap] at hp
    exact ⟨r, hr, by have := hbound r hr; omega⟩
  · obtain ⟨p, ⟨r, hr, hp⟩, hhi⟩ := hh.last
    rw [Run.mem_pages (hl.proper r hr).noWrap] at hp
    exact ⟨r, hr, by have := hbound r hr; omega⟩

/-- The first and the last of ascending runs. -/
theorem Ascending.ends {l : List Run} (hl : Ascending l) (hne : l ≠ []) :
    RunBlock.at' l 0 ∈ l ∧ RunBlock.at' l (l.length - 1) ∈ l ∧
      ∀ r ∈ l, (RunBlock.at' l 0).lo ≤ r.lo ∧ r.hi ≤ (RunBlock.at' l (l.length - 1)).hi := by
  induction l with
  | nil => exact absurd rfl hne
  | cons r l ih =>
    obtain ⟨hr, htail, hfirst⟩ := ascending_cons.mp hl
    cases l with
    | nil => exact ⟨List.mem_cons_self .., List.mem_cons_self .., by simp [RunBlock.at']⟩
    | cons s l =>
      obtain ⟨-, hlastMem, hbound⟩ := ih htail (List.cons_ne_nil s l)
      have hlast : RunBlock.at' (r :: s :: l) ((r :: s :: l).length - 1) =
          RunBlock.at' (s :: l) ((s :: l).length - 1) := rfl
      rw [hlast]
      refine ⟨List.mem_cons_self .., List.mem_cons_of_mem _ hlastMem, fun u hu => ?_⟩
      change r.lo ≤ u.lo ∧ _
      rcases List.mem_cons.mp hu with rfl | hu
      · have hs := hfirst s (List.mem_cons_self ..)
        have hslt : s.lo < s.hi := (ascending_cons.mp htail).1.lt
        have := (hbound s (List.mem_cons_self ..)).2
        exact ⟨le_rfl, by omega⟩
      · have hrlt := hr.lt
        have := hfirst u hu
        exact ⟨by omega, (hbound u hu).2⟩

/-- The hull `remove` computes is exact. -/
theorem isHull_hullOf {l : List Run} (hl : Ascending l) (hne : l ≠ []) :
    IsHull (RunBlock.hullOf l) (covered l) := by
  obtain ⟨hfirst, hlast, hbound⟩ := hl.ends hne
  obtain ⟨hproper, hlo, hhi⟩ :=
    Run.merge_spec (hl.proper _ hfirst) (hl.proper _ hlast).noWrap
  have h1 := hbound _ hfirst
  have h2 := hbound _ hlast
  rw [RunBlock.hullOf, if_neg hne]
  refine isHull_of_mem hl hproper.noWrap (fun r hr => ?_) ⟨_, hfirst, ?_⟩ ⟨_, hlast, ?_⟩
  · have := hbound r hr
    omega
  · omega
  · omega

/-! ### What a block removes -/

namespace RunBlock

variable {run : Run} {n i : ℕ} {tail : List Run} {marks : Marks} {found : Scan}

/-- The scan leaves the runs after the one that is taken out. -/
theorem scan_of_le (htail : Ascending tail) (hrun : run.NoWrap) (h : ∀ r ∈ tail, run.hi ≤ r.lo) :
    scan run n i tail marks = .ok (.marked tail marks) := by
  induction tail generalizing i with
  | nil => rfl
  | cons r tail ih =>
    obtain ⟨hr, htail, -⟩ := ascending_cons.mp htail
    obtain ⟨hle, hrest⟩ := List.forall_mem_cons.mp h
    rw [scan]
    rcases (Run.cut_of_le hr hrun hle).1 with hcmp | hcmp
    · rw [hcmp]
      dsimp only
      rw [ih htail hrest]
      rfl
    · rw [hcmp]
      dsimp only
      rw [ih htail hrest]
      rfl

/-- The run whose start is cut off. -/
theorem subtractOverlap_of_greaterOverlap {r : Run} (hr : r.Proper) (hrun : run.NoWrap)
    (hcmp : r.compare run = .greaterOverlap) :
    r.subtractOverlap run = some ⟨run.stop, r.stop - run.stop⟩ ∧
      (⟨run.stop, r.stop - run.stop⟩ : Run).isEmpty = false := by
  have hspec := Run.compare_spec hr.noWrap hrun hr.pos
  rw [hcmp] at hspec
  dsimp only at hspec
  have hrstop := Run.toNat_stop hr.noWrap
  have hsstop := Run.toNat_stop hrun
  constructor
  · unfold Run.subtractOverlap
    rw [if_pos (Run.stop_le_of_greaterOverlap hcmp).1, if_neg]
    rw [UInt32.le_iff_toNat_le]
    omega
  · exact (Run.proper_mk (by omega)).isEmpty

/-- The run whose end is cut off. -/
theorem subtractOverlap_of_lessOverlap {r : Run} (hr : r.Proper) (hrun : run.NoWrap)
    (hcmp : r.compare run = .lessOverlap) :
    r.subtractOverlap run = some ⟨r.pageOffset, run.pageOffset - r.pageOffset⟩ ∧
      (⟨r.pageOffset, run.pageOffset - r.pageOffset⟩ : Run).isEmpty = false := by
  have hspec := Run.compare_spec hr.noWrap hrun hr.pos
  rw [hcmp] at hspec
  dsimp only at hspec
  have hrstop := Run.toNat_stop hr.noWrap
  have hsstop := Run.toNat_stop hrun
  have hlo : r.pageOffset.toNat < run.pageOffset.toNat := hspec.1
  constructor
  · unfold Run.subtractOverlap
    rw [if_neg, if_neg]
    · rw [UInt32.lt_iff_toNat_lt]
      omega
    · rw [UInt32.le_iff_toNat_le]
      omega
  · exact (Run.proper_mk hlo).isEmpty

theorem map_eq_ok {α β : Type*} {x : Except Failure α} {f : α → β} {y : β}
    (h : x.map f = .ok y) : ∃ a, x = .ok a ∧ f a = y := by
  cases x with
  | error e => cases h
  | ok a => exact ⟨a, rfl, Except.ok.inj h⟩

/-- The scan, once it has begun to mark: the marked runs are next to each other. -/
theorem scan_marking (htail : Ascending tail) (hrun : run.NoWrap) (h : ∀ r ∈ tail, run.lo < r.lo)
    {j c : ℕ} (hscan : scan run n i tail ⟨some j, c⟩ = .ok found) :
    ∃ marked, found = .marked (marked ++ tail.flatMap (Run.cut run)) ⟨some j, c + marked.length⟩ ∧
      marked.length + (tail.flatMap (Run.cut run)).length = tail.length := by
  induction tail generalizing i c found with
  | nil =>
    obtain rfl := Except.ok.inj hscan
    exact ⟨[], rfl, rfl⟩
  | cons r tail ih =>
    obtain ⟨hr, htail, hfirst⟩ := ascending_cons.mp htail
    obtain ⟨hlt, hrest⟩ := List.forall_mem_cons.mp h
    have hspec := Run.compare_spec hr.noWrap hrun hr.pos
    have hrlt := hr.lt
    have hle := run.lo_le_hi
    rw [scan] at hscan
    rw [List.flatMap_cons, Run.cut]
    cases hcmp : r.compare run <;> rw [hcmp] at hspec hscan <;> dsimp only at hspec hscan <;> first
      | omega
      | skip
    case inside | insideEdge =>
      obtain ⟨inner, hinner, rfl⟩ := map_eq_ok hscan
      obtain ⟨marked, rfl, hlen⟩ := ih htail hrest hinner
      refine ⟨r :: marked, ?_, ?_⟩
      · simp only [Scan.cons, List.length_cons, List.cons_append, List.nil_append]
        congr 2
        omega
      · simp only [List.length_cons, List.nil_append]
        omega
    case greaterOverlap =>
      obtain ⟨hsome, hempty⟩ := subtractOverlap_of_greaterOverlap hr hrun hcmp
      rw [hsome] at hscan
      dsimp only at hscan
      rw [if_neg (by rw [hempty]; nofun)] at hscan
      obtain rfl := Except.ok.inj hscan
      have hright := flatMap_cut_of_le htail hrun fun s hs => by
        have := hfirst s hs
        omega
      refine ⟨[], ?_, ?_⟩
      · rw [hright]
        rfl
      · rw [hright]
        simp only [List.length_append, List.length_cons, List.length_nil]
        omega
    case greaterAdjacent | greater =>
      have hright : ∀ s ∈ tail, run.hi ≤ s.lo := fun s hs => by
        have := hfirst s hs
        omega
      rw [scan_of_le htail hrun hright] at hscan
      obtain rfl := Except.ok.inj hscan
      rw [flatMap_cut_of_le htail hrun hright]
      exact ⟨[], rfl, by simp⟩

/-- What a scan finds: a run that is split, or marked runs next to each other. What is left without
them is what the runs are cut to. -/
def Found (run : Run) (n i : ℕ) (tail : List Run) (found : Scan) : Prop :=
  (found = .split (tail.flatMap (Run.cut run)) ∧ n < runsPerBlock ∧
    (tail.flatMap (Run.cut run)).length = tail.length + 1 ∧
    ∃ r ∈ tail, r.lo < run.lo ∧ run.hi < r.hi) ∨
  ∃ kept marked rest, tail.flatMap (Run.cut run) = kept ++ rest ∧
    kept.length + marked.length + rest.length = tail.length ∧
    found = .marked (kept ++ (marked ++ rest))
      (if marked = [] then {} else ⟨some (i + kept.length), marked.length⟩)

/-- A run that stays, or whose end is cut off, comes before what is found after it. -/
theorem Found.cons {r r' : Run} (h : Found run n (i + 1) tail found) (hcut : Run.cut run r = [r']) :
    Found run n i (r :: tail) (found.cons r') := by
  unfold Found
  rw [List.flatMap_cons, hcut]
  rcases h with ⟨rfl, hn, hlen, s, hs, hlt⟩ | ⟨kept, marked, rest, hcutTail, hlen, rfl⟩
  · refine .inl ⟨rfl, hn, ?_, s, List.mem_cons_of_mem _ hs, hlt⟩
    simp only [List.length_append, List.length_cons, List.length_nil]
    omega
  · refine .inr ⟨r' :: kept, marked, rest, by rw [hcutTail]; rfl, ?_, ?_⟩
    · simp only [List.length_cons]
      omega
    · have hindex : i + 1 + kept.length = i + (r' :: kept).length := by
        simp only [List.length_cons]
        omega
      rw [Scan.cons, hindex]
      rfl

theorem scan_spec (htail : Ascending tail) (hrun : run.NoWrap)
    (hscan : scan run n i tail {} = .ok found) : Found run n i tail found := by
  induction tail generalizing i found with
  | nil =>
    obtain rfl := Except.ok.inj hscan
    exact .inr ⟨[], [], [], rfl, rfl, rfl⟩
  | cons r tail ih =>
    obtain ⟨hr, htail, hfirst⟩ := ascending_cons.mp htail
    have hspec := Run.compare_spec hr.noWrap hrun hr.pos
    have hrlt := hr.lt
    have hle := run.lo_le_hi
    rw [scan] at hscan
    cases hcmp : r.compare run <;> rw [hcmp] at hspec hscan <;> dsimp only at hspec hscan
    case less | lessAdjacent | greaterAdjacent | greater =>
      obtain ⟨inner, hinner, rfl⟩ := map_eq_ok hscan
      exact (ih htail hinner).cons (by rw [Run.cut, hcmp])
    case lessOverlap =>
      obtain ⟨hsome, hempty⟩ := subtractOverlap_of_lessOverlap hr hrun hcmp
      rw [hsome] at hscan
      dsimp only at hscan
      rw [if_neg (by rw [hempty]; nofun)] at hscan
      obtain ⟨inner, hinner, rfl⟩ := map_eq_ok hscan
      exact (ih htail hinner).cons (by rw [Run.cut, hcmp])
    case equal =>
      rw [if_pos rfl] at hscan
      obtain rfl := Except.ok.inj hscan
      have hright := flatMap_cut_of_le htail hrun fun s hs => by
        have := hfirst s hs
        omega
      refine .inr ⟨[], [r], tail, ?_, ?_, rfl⟩
      · rw [List.flatMap_cons, Run.cut, hcmp, hright]
      · simp only [List.length_cons, List.length_nil]
        omega
    case inside | insideEdge =>
      obtain ⟨inner, hinner, rfl⟩ := map_eq_ok hscan
      obtain ⟨marked, rfl, hlen⟩ := scan_marking htail hrun (fun s hs => by
        have := hfirst s hs
        omega) hinner
      refine .inr ⟨[], r :: marked, tail.flatMap (Run.cut run), ?_, ?_, ?_⟩
      · rw [List.flatMap_cons, Run.cut, hcmp]
      · simp only [List.length_cons, List.length_nil]
        omega
      · rw [if_neg (List.cons_ne_nil _ _), Scan.cons]
        simp only [List.length_cons, List.length_nil, List.nil_append, List.cons_append]
        congr 2
        omega
    case contains =>
      split_ifs at hscan with hn
      obtain rfl := Except.ok.inj hscan
      have hright := flatMap_cut_of_le htail hrun fun s hs => by
        have := hfirst s hs
        omega
      refine .inl ⟨?_, hn, ?_, r, List.mem_cons_self .., hspec⟩
      · rw [List.flatMap_cons, Run.cut, hcmp, hright]
        rfl
      · rw [List.flatMap_cons, Run.cut, hcmp, hright]
        simp only [List.length_append, List.length_cons, List.length_nil]
        omega
    case greaterOverlap =>
      obtain ⟨hsome, hempty⟩ := subtractOverlap_of_greaterOverlap hr hrun hcmp
      rw [hsome] at hscan
      dsimp only at hscan
      rw [if_neg (by rw [hempty]; nofun)] at hscan
      obtain rfl := Except.ok.inj hscan
      have hright := flatMap_cut_of_le htail hrun fun s hs => by
        have := hfirst s hs
        omega
      refine .inr ⟨[⟨run.stop, r.stop - run.stop⟩], [], tail, ?_, ?_, rfl⟩
      · rw [List.flatMap_cons, Run.cut, hcmp, hright]
      · simp only [List.length_cons, List.length_nil]
        omega

/-- A block in order: proper runs that ascend, at most 256 of them and at least one, and their exact
hull. -/
structure Ordered (b : RunBlock) : Prop where
  ascending : Ascending b.runs
  nonempty : b.runs ≠ []
  bound : b.runs.length ≤ runsPerBlock
  hull : IsHull b.blockRun (covered b.runs)

/-- Runs that are cut from an index on. -/
theorem cut_from_spec {pre tail : List Run} (h : Ascending (pre ++ tail)) (hrun : run.NoWrap) :
    Ascending (pre ++ tail.flatMap (Run.cut run)) ∧
      covered (pre ++ tail) \ run.pages ⊆ covered (pre ++ tail.flatMap (Run.cut run)) ∧
      covered (pre ++ tail.flatMap (Run.cut run)) ⊆ covered (pre ++ tail) := by
  obtain ⟨hpre, htail, hsep⟩ := ascending_append.mp h
  obtain ⟨hcut, hcov, hin⟩ := flatMap_cut_spec htail hrun
  refine ⟨ascending_append.mpr ⟨hpre, hcut, fun u hu v hv => ?_⟩, ?_, ?_⟩
  · obtain ⟨w, hw, hlo, -⟩ := hin v hv
    exact (hsep u hu w hw).trans hlo
  · rw [covered_append, covered_append, hcov]
    rintro p ⟨hp | hp, hnot⟩
    · exact .inl hp
    · exact .inr ⟨hp, hnot⟩
  · rw [covered_append, covered_append, hcov]
    exact Set.union_subset_union_right _ Set.sdiff_subset

/-- Removing runs from the middle. -/
theorem removeAtIndex_middle (l m r : List Run) :
    removeAtIndex (l ++ (m ++ r)) l.length m.length = .ok (l ++ r) := by
  unfold removeAtIndex
  rw [if_pos (by simp only [List.length_append]; omega), List.take_left, ← List.drop_drop,
    List.drop_left, List.drop_left]

/-- `remove` cuts the runs from its last probe on; its hull is theirs, but where it has split a run. -/
theorem remove_eq {b b' : RunBlock} (hb : Ascending b.runs) (hrun : run.NoWrap)
    (h : b.remove run = .ok b') :
    b'.runs = b.runs.take (probe b.runs run) ++
        (b.runs.drop (probe b.runs run)).flatMap (Run.cut run) ∧
      b'.runs.length ≤ runsPerBlock ∧
      (b'.blockRun = hullOf b'.runs ∨
        b'.blockRun = b.blockRun ∧ ∃ r ∈ b.runs, r.lo < run.lo ∧ run.hi < r.hi) := by
  unfold remove at h
  split_ifs at h with hfull
  dsimp only at h
  generalize probe b.runs run = mid at h ⊢
  have hlen : (b.runs.take mid).length + (b.runs.drop mid).length = b.runs.length := by
    rw [← List.length_append, List.take_append_drop]
  have htail : Ascending (b.runs.drop mid) := by
    rw [← List.take_append_drop mid b.runs] at hb
    exact (ascending_append.mp hb).2.1
  cases hscan : scan run b.runs.length mid (b.runs.drop mid) {} with
  | error e =>
    rw [hscan] at h
    cases h
  | ok found =>
    rw [hscan] at h
    rcases scan_spec htail hrun hscan with
      ⟨rfl, hn, hcutLen, r, hr, hlt⟩ | ⟨kept, marked, rest, hcut, hcutLen, rfl⟩
    · obtain rfl := Except.ok.inj h
      refine ⟨rfl, ?_, .inr ⟨rfl, r, List.mem_of_mem_drop hr, hlt⟩⟩
      rw [List.length_append]
      omega
    · dsimp only at h
      obtain rfl : b' = ⟨b.runs.take mid ++ (kept ++ rest),
          hullOf (b.runs.take mid ++ (kept ++ rest))⟩ := by
        by_cases hmarked : marked = []
        · subst hmarked
          rw [if_pos rfl, if_neg (by simp), List.nil_append] at h
          exact (Except.ok.inj h).symm
        · have hpos : 0 < marked.length := List.length_pos_iff.mpr hmarked
          have hmid : (b.runs.take mid ++ kept).length = mid + kept.length := by
            rw [List.length_drop] at hcutLen
            rw [List.length_append, List.length_take_of_le (by omega)]
          rw [if_neg hmarked, if_pos hpos.ne', Option.getD_some, ← hmid, ← List.append_assoc,
            removeAtIndex_middle, List.append_assoc] at h
          exact (Except.ok.inj h).symm
      refine ⟨by rw [hcut], ?_, .inl rfl⟩
      simp only [List.length_append]
      omega

/-- What `remove` leaves of a block in order. -/
theorem remove_spec {b b' : RunBlock} (hb : b.Ordered) (hrun : run.NoWrap)
    (h : b.remove run = .ok b') :
    Ascending b'.runs ∧ b'.runs.length ≤ runsPerBlock ∧
      covered b.runs \ run.pages ⊆ covered b'.runs ∧ covered b'.runs ⊆ covered b.runs ∧
      (b'.runs ≠ [] → IsHull b'.blockRun (covered b'.runs)) := by
  obtain ⟨hruns, hlen, hhull⟩ := remove_eq hb.ascending hrun h
  have hasc := hb.ascending
  rw [← List.take_append_drop (probe b.runs run) b.runs] at hasc
  obtain ⟨hcutAsc, hsub, hsup⟩ := cut_from_spec hasc hrun
  rw [← hruns] at hcutAsc
  rw [List.take_append_drop, ← hruns] at hsub hsup
  refine ⟨hcutAsc, hlen, hsub, hsup, fun hne => ?_⟩
  rcases hhull with hhull | ⟨hhull, r, hr, hlt⟩
  · rw [hhull]
    exact isHull_hullOf hcutAsc hne
  · -- The split leaves the ends of the hull.
    have hbound := (hb.hull.runs hb.ascending).1 r hr
    rw [hhull]
    refine ⟨hb.hull.noWrap, fun p hp => hb.hull.bound p (hsup hp), ?_, ?_⟩
    · obtain ⟨p, hp, hlo⟩ := hb.hull.first
      refine ⟨p, hsub ⟨hp, fun hin => ?_⟩, hlo⟩
      rw [Run.mem_pages hrun] at hin
      omega
    · obtain ⟨p, hp, hhi⟩ := hb.hull.last
      refine ⟨p, hsub ⟨hp, fun hin => ?_⟩, hhi⟩
      rw [Run.mem_pages hrun] at hin
      omega

/-! ### What a block adds -/

theorem at'_append_right (l m : List Run) (i : ℕ) : at' (l ++ m) (l.length + i) = at' m i := by
  unfold at'
  rw [List.getD_eq_getElem?_getD, List.getD_eq_getElem?_getD, List.getElem?_append_right (by omega),
    Nat.add_sub_cancel_left]

theorem at'_mem {l : List Run} {i : ℕ} (h : i < l.length) : at' l i = l[i] := by
  unfold at'
  rw [List.getD_eq_getElem?_getD, List.getElem?_eq_getElem h, Option.getD_some]

/-- The index `add` makes of the last probe. -/
def after (runs : List Run) (run : Run) (mid : ℕ) : ℕ :=
  if (at' runs mid).pageOffset < run.pageOffset then mid + 1 else mid

section Probe

variable {pre post : List Run}

/-- The search ends next to the place of the run. -/
theorem after_probeLoop (hasc : Ascending (pre ++ post)) (hpre : ∀ r ∈ pre, r.lo < run.lo)
    (hpost : ∀ r ∈ post, run.lo ≤ r.lo) {lower upper mid : ℕ} (hlower : lower ≤ pre.length)
    (hupper : pre.length ≤ upper) (hlen : upper ≤ (pre ++ post).length)
    (h : lower < upper ∨ after (pre ++ post) run mid = pre.length) :
    after (pre ++ post) run (probeLoop (pre ++ post) run lower upper mid) = pre.length := by
  have hleft : ∀ m < pre.length, (at' (pre ++ post) m).lo < run.lo := fun m hm => by
    rw [at'_mem (by rw [List.length_append]; omega), List.getElem_append_left hm]
    exact hpre _ (List.getElem_mem hm)
  have hright : ∀ m, pre.length ≤ m → m < (pre ++ post).length →
      run.lo ≤ (at' (pre ++ post) m).lo := fun m hm hlt => by
    rw [at'_mem hlt, List.getElem_append_right hm]
    exact hpost _ (List.getElem_mem _)
  fun_induction probeLoop (pre ++ post) run lower upper mid with
  | case1 lower upper mid hlt m probe hless ih =>
    have hlo : run.lo < (at' (pre ++ post) m).lo := UInt32.lt_iff_toNat_lt.mp hless
    have hm : pre.length ≤ m := by
      by_contra hm
      have := hleft m (by omega)
      omega
    refine ih hlower hm (by omega) ?_
    by_cases hend : lower < m
    · exact .inl hend
    · right
      have hafter : ¬ (at' (pre ++ post) m).pageOffset < run.pageOffset := by
        rw [UInt32.lt_iff_toNat_lt]
        exact not_lt.mpr hlo.le
      rw [after, if_neg hafter]
      omega
  | case2 lower upper mid hlt m probe hless hle =>
    have hlo : run.lo = (at' (pre ++ post) m).lo := by
      have h1 := UInt32.le_iff_toNat_le.mp hle
      have h2 := mt UInt32.lt_iff_toNat_lt.mpr hless
      change run.pageOffset.toNat = _
      exact le_antisymm h1 (not_lt.mp h2)
    have hafter : ¬ (at' (pre ++ post) m).pageOffset < run.pageOffset := by
      rw [UInt32.lt_iff_toNat_lt]
      exact not_lt.mpr hlo.le
    rw [after, if_neg hafter]
    have hm : pre.length ≤ m := by
      by_contra hm
      have := hleft m (by omega)
      omega
    by_contra hne
    -- The run at the place would end at or before this one, and start at or after it.
    have hlt' : pre.length < m := by omega
    have hm' : m < (pre ++ post).length := by omega
    have hsorted := List.pairwise_iff_getElem.mp hasc.sorted pre.length m (by omega) hm' hlt'
    rw [← at'_mem (by omega), ← at'_mem hm'] at hsorted
    have hplace := hright pre.length le_rfl (by omega)
    have hproper := (hasc.proper _ (List.getElem_mem (show pre.length < _ by omega))).lt
    rw [← at'_mem (by omega)] at hproper
    omega
  | case3 lower upper mid hlt m probe hless hle ih =>
    have hlo : (at' (pre ++ post) m).lo < run.lo := by
      have := mt UInt32.le_iff_toNat_le.mpr hle
      exact not_le.mp this
    have hm : m < pre.length := by
      by_contra hm
      have := hright m (by omega) (by omega)
      omega
    refine ih hm hupper hlen ?_
    by_cases hend : m + 1 < upper
    · exact .inl hend
    · right
      rw [after, if_pos (UInt32.lt_iff_toNat_lt.mpr hlo)]
      omega
  | case4 lower upper mid hlt => exact h.resolve_left hlt

theorem after_probe (hasc : Ascending (pre ++ post)) (hpre : ∀ r ∈ pre, r.lo < run.lo)
    (hpost : ∀ r ∈ post, run.lo ≤ r.lo) (hne : pre ++ post ≠ []) :
    after (pre ++ post) run (probe (pre ++ post) run) = pre.length := by
  unfold probe
  refine after_probeLoop hasc hpre hpost (Nat.zero_le _) ?_ le_rfl (.inl ?_)
  · rw [List.length_append]
    omega
  · exact List.length_pos_iff.mpr hne

end Probe

/-- What the loop of `add` leaves of the runs after the one added. -/
theorem cleanup_spec {current current' : Run} {tail' : List Run} {k k' : ℕ}
    (hcurrent : current.NoWrap) (htail : Ascending tail) (hle : ∀ r ∈ tail, current.lo ≤ r.lo)
    (h : cleanup current tail k = .ok (current', tail', k')) :
    ∃ m ≤ tail'.length, k' = k + m ∧ tail'.length = tail.length ∧ current'.NoWrap ∧
      (current.Proper → current'.Proper) ∧ current'.lo = current.lo ∧
      Ascending (tail'.drop m) ∧ (∀ r ∈ tail'.drop m, current'.hi ≤ r.lo) ∧
      covered (current' :: tail'.drop m) = covered (current :: tail) := by
  induction tail generalizing current k tail' with
  | nil =>
    obtain ⟨rfl, rfl, rfl⟩ := by simpa [cleanup] using h
    exact ⟨0, le_rfl, rfl, rfl, hcurrent, id, rfl, ascending_nil, by simp, rfl⟩
  | cons next rest ih =>
    obtain ⟨hnext, hrest, hfirst⟩ := ascending_cons.mp htail
    obtain ⟨hlenext, hlerest⟩ := List.forall_mem_cons.mp hle
    have hnlt := hnext.lt
    rw [cleanup] at h
    by_cases hpos : 0 < current.hi
    swap
    · -- The empty run at page 0 compares as after the next one.
      have hcmp : current.compare next = .greater := by
        have hzero : current.pageOffset = 0 ∧ current.pageLength = 0 := by
          have hhi : current.pageOffset.toNat + current.pageLength.toNat = 0 := not_lt.mp hpos |> Nat.le_zero.mp
          exact ⟨UInt32.toNat_inj.mp (by change _ = 0; omega),
            UInt32.toNat_inj.mp (by change _ = 0; omega)⟩
        unfold Run.compare
        rw [if_neg, if_pos hzero]
        rintro ⟨ho, hl⟩
        rw [Run.lo, Run.hi, ← ho, ← hl, hzero.1, hzero.2] at hnlt
        exact absurd hnlt (lt_irrefl _)
      rw [hcmp] at h
      cases h
    have hspec := Run.compare_spec hcurrent hnext.noWrap hpos
    have hcstop := Run.toNat_stop hcurrent
    have hnstop := Run.toNat_stop hnext.noWrap
    have hmemc : ∀ p, p ∈ current.pages ↔ current.lo ≤ p.toNat ∧ p.toNat < current.hi := fun p =>
      Run.mem_pages hcurrent
    have hmemn : ∀ p, p ∈ next.pages ↔ next.lo ≤ p.toNat ∧ p.toNat < next.hi := fun p =>
      Run.mem_pages hnext.noWrap
    have habsorb : next.hi ≤ current.hi → current.lo ≤ next.lo →
        covered (current :: next :: rest) = covered (current :: rest) := by
      intro h1 h2
      ext p
      simp only [covered_cons, Set.mem_union, hmemc, hmemn]
      by_cases hp : p ∈ covered rest
      · simp [hp]
      · simp only [hp, or_false]
        omega
    have hmerge : current.Proper → current.lo = next.lo →
        covered (current.merge next :: rest) = covered (current :: next :: rest) := by
      intro hproper heq
      obtain ⟨hmproper, hmlo, hmhi⟩ := Run.merge_spec hproper hnext.noWrap
      ext p
      simp only [covered_cons, Set.mem_union, hmemc, hmemn, Run.mem_pages hmproper.noWrap, hmlo, hmhi]
      have hclt := hproper.lt
      by_cases hp : p ∈ covered rest
      · simp [hp]
      · simp only [hp, or_false]
        omega
    cases hcmp : current.compare next <;> rw [hcmp] at hspec h <;> dsimp only at hspec h
    case less | lessAdjacent =>
      obtain ⟨rfl, rfl, rfl⟩ := by simpa using h
      refine ⟨0, Nat.zero_le _, rfl, rfl, hcurrent, id, rfl, htail, ?_, rfl⟩
      refine List.forall_mem_cons.mpr ⟨by omega, fun r hr => ?_⟩
      have := hfirst r hr
      omega
    case lessOverlap =>
      have hoff : current.pageOffset ≤ next.pageOffset := (Run.le_of_lessOverlap hcmp).1
      unfold Run.subtractOverlap at h
      rw [if_pos hoff] at h
      split_ifs at h with hstop
      · -- The two end together: nothing is left of the next run.
        rw [UInt32.le_iff_toNat_le] at hstop
        obtain ⟨rfl, rfl, rfl⟩ := by simpa [Run.isEmpty] using h
        refine ⟨1, Nat.le_add_left _ _, rfl, rfl, hcurrent, id, rfl, hrest, fun r hr => ?_, ?_⟩
        · have := hfirst r hr
          omega
        · exact (habsorb (by omega) (by omega)).symm
      · rw [UInt32.le_iff_toNat_le, not_le] at hstop
        obtain ⟨hpiece, ⟨-, hpieceHi⟩, hpages⟩ :=
          Run.piece_spec next current.stop next.stop (by omega) (by omega) (by omega)
        dsimp only at h
        rw [hpiece.isEmpty] at h
        obtain ⟨rfl, rfl, rfl⟩ := by simpa using h
        refine ⟨0, Nat.zero_le _, rfl, rfl, hcurrent, id, rfl,
          ascending_cons.mpr ⟨hpiece, hrest, fun r hr => hpieceHi.trans (hfirst r hr)⟩, ?_, ?_⟩
        · refine List.forall_mem_cons.mpr ⟨hcstop.ge, fun r hr => ?_⟩
          have := hfirst r hr
          omega
        · ext p
          simp only [List.drop_zero, covered_cons, Set.mem_union, hmemc, hmemn, hpages]
          by_cases hp : p ∈ covered rest
          · simp [hp]
          · simp only [hp, or_false]
            omega
    case equal =>
      obtain ⟨rfl, rfl, rfl⟩ := by simpa using h
      refine ⟨1, Nat.le_add_left _ _, rfl, rfl, hcurrent, id, rfl, hrest, fun r hr => ?_, ?_⟩
      · have := hfirst r hr
        omega
      · exact (habsorb (by omega) (by omega)).symm
    case insideEdge =>
      have hproper : current.Proper := ⟨hcurrent, by omega⟩
      obtain ⟨hmproper, hmlo, hmhi⟩ := Run.merge_spec hproper hnext.noWrap
      obtain ⟨rfl, rfl, rfl⟩ := by simpa using h
      refine ⟨1, Nat.le_add_left _ _, rfl, rfl, hmproper.noWrap, fun _ => hmproper, by omega, hrest,
        fun r hr => ?_, hmerge hproper (by omega)⟩
      have := hfirst r hr
      omega
    case contains =>
      obtain ⟨⟨c, t, n⟩, hinner, heq⟩ := map_eq_ok h
      obtain ⟨rfl, rfl, rfl⟩ := by simpa using heq
      obtain ⟨m, hm, rfl, hlen, hwrap, hproper, hlo, hasc, hbound, hcov⟩ :=
        ih hcurrent hrest hlerest hinner
      refine ⟨m + 1, Nat.succ_le_succ hm, by omega, congrArg (· + 1) hlen, hwrap, hproper, hlo, hasc,
        hbound, ?_⟩
      rw [habsorb (by omega) (by omega)]
      exact hcov
    case greaterOverlap =>
      have hproper : current.Proper := ⟨hcurrent, by omega⟩
      obtain ⟨hmproper, hmlo, hmhi⟩ := Run.merge_spec hproper hnext.noWrap
      obtain ⟨⟨c, t, n⟩, hinner, heq⟩ := map_eq_ok h
      obtain ⟨rfl, rfl, rfl⟩ := by simpa using heq
      obtain ⟨m, hm, rfl, hlen, hwrap, hkept, hlo, hasc, hbound, hcov⟩ :=
        ih hmproper.noWrap hrest (fun r hr => by have := hlerest r hr; omega) hinner
      refine ⟨m + 1, Nat.succ_le_succ hm, by omega, congrArg (· + 1) hlen, hwrap,
        fun _ => hkept hmproper, by omega, hasc, hbound, ?_⟩
      rw [← hmerge hproper (by omega)]
      exact hcov
    case inside | greaterAdjacent | greater => cases h

section Add

variable {b b' : RunBlock} {pre post : List Run} {current : Run}

/-- What `add` leaves, once the run is in place. -/
theorem finishAdd_spec (hpre : Ascending pre) (hcurrent : current.NoWrap) (hpost : Ascending post)
    (hbefore : ∀ r ∈ pre, r.hi ≤ current.lo) (hafter : ∀ r ∈ post, current.lo ≤ r.lo)
    (h : finishAdd b run (pre ++ current :: post) pre.length = .ok b') :
    b'.blockRun = b.blockRun.merge run ∧ covered b'.runs = covered (pre ++ current :: post) ∧
      b'.runs.length ≤ (pre ++ current :: post).length ∧ b'.runs ≠ [] ∧
      (current.Proper → Ascending b'.runs) := by
  have hat : at' (pre ++ current :: post) pre.length = current := at'_append_right pre _ 0
  have hdrop : (pre ++ current :: post).drop (pre.length + 1) = post := by
    rw [← List.drop_drop, List.drop_left]
    rfl
  unfold finishAdd at h
  rw [hat, hdrop, List.take_left] at h
  split at h
  · cases h
  · rename_i current' tail' k hcleanup
    obtain ⟨m, hm, hk, hlen, hwrap, hproper, hlo, hasc, hbound, hcov⟩ :=
      cleanup_spec hcurrent hpost hafter hcleanup
    obtain rfl : b' = ⟨pre ++ current' :: tail'.drop m, b.blockRun.merge run⟩ := by
      dsimp only at h
      split_ifs at h with hzero
      · have hremove : removeAtIndex (pre ++ current' :: tail') (pre.length + 1) k =
            .ok (pre ++ current' :: tail'.drop m) := by
          have hmiddle := removeAtIndex_middle (pre ++ [current']) (tail'.take m) (tail'.drop m)
          rw [List.take_append_drop, List.length_append, List.length_take_of_le hm] at hmiddle
          simpa [hk] using hmiddle
        rw [hremove] at h
        exact (Except.ok.inj h).symm
      · obtain rfl : m = 0 := by omega
        exact (Except.ok.inj h).symm
    refine ⟨rfl, ?_, ?_, by simp, fun hc => ?_⟩
    · rw [covered_append, covered_append, hcov]
    · simp only [List.length_append, List.length_cons, List.length_drop]
      omega
    · refine ascending_append.mpr ⟨hpre, ascending_cons.mpr ⟨hproper hc, hasc, hbound⟩, ?_⟩
      intro u hu v hv
      have hle := hbefore u hu
      rcases List.mem_cons.mp hv with rfl | hv
      · omega
      · have h1 := hbound v hv
        have h2 := current'.lo_le_hi
        omega

/-- The hull of what a run is added to. -/
theorem isHull_merge {h : Run} {pages : Set UInt32} (hh : IsHull h pages) (hrun : run.Proper) :
    IsHull (h.merge run) (pages ∪ run.pages) := by
  obtain ⟨hproper, hlo, hhi⟩ := Run.merge_spec hh.proper hrun.noWrap
  refine ⟨hproper.noWrap, ?_, ?_, ?_⟩
  · rintro p (hp | hp)
    · have := hh.bound p hp
      omega
    · have := (Run.mem_pages hrun.noWrap).mp hp
      omega
  · rcases le_total h.lo run.lo with hle | hle
    · obtain ⟨p, hp, heq⟩ := hh.first
      exact ⟨p, .inl hp, by omega⟩
    · exact ⟨run.pageOffset, .inr hrun.mem_lo, by change run.lo = _; omega⟩
  · rcases le_total run.hi h.hi with hle | hle
    · obtain ⟨p, hp, heq⟩ := hh.last
      exact ⟨p, .inl hp, by omega⟩
    · obtain ⟨p, hp, heq⟩ := hrun.exists_last
      exact ⟨p, .inr hp, by omega⟩

/-- What `add` does to a block in order: nothing, where the run before the place has the pages; or it puts
a run in place, that run merged or the new one, and goes on from there. -/
theorem add_eq (hb : b.Ordered) (hlen : b.runs.length < runsPerBlock) (hrun : run.NoWrap) :
    (b.add run = .ok b ∧ run.pages ⊆ covered b.runs) ∨
    ∃ pre current post, b.add run = finishAdd b run (pre ++ current :: post) pre.length ∧
      Ascending pre ∧ current.NoWrap ∧ (run.Proper → current.Proper) ∧ Ascending post ∧
      (∀ r ∈ pre, r.hi ≤ current.lo) ∧ (∀ r ∈ post, current.lo ≤ r.lo) ∧
      (pre ++ current :: post).length ≤ runsPerBlock ∧
      covered (pre ++ current :: post) = covered b.runs ∪ run.pages := by
  obtain ⟨pre, post, hsplit, hpre, hpost⟩ :=
    IntervalList.exists_split_of_pairwise hb.ascending.sorted (P := fun r : Run => r.lo < run.lo)
      fun x y hxy hy => by
        have := x.lo_le_hi
        omega
  have hasc : Ascending (pre ++ post) := hsplit ▸ hb.ascending
  have hne : pre ++ post ≠ [] := hsplit ▸ hb.nonempty
  have hpost' : ∀ r ∈ post, run.lo ≤ r.lo := fun r hr => not_lt.mp (hpost r hr)
  obtain ⟨hpreAsc, hpostAsc, hsep⟩ := ascending_append.mp hasc
  have hafter := after_probe hasc hpre hpost' hne
  unfold add
  rw [if_neg (not_le.mpr hlen), if_neg hb.nonempty]
  rw [hsplit] at hlen ⊢
  dsimp only
  rw [show (if (at' (pre ++ post) (probe (pre ++ post) run)).pageOffset < run.pageOffset then
    probe (pre ++ post) run + 1 else probe (pre ++ post) run) = pre.length from hafter]
  have hindex : (if pre.length < (pre ++ post).length ∧
      (at' (pre ++ post) pre.length).pageOffset < run.pageOffset then pre.length + 1
      else pre.length) = pre.length := by
    refine if_neg ?_
    rintro ⟨hlt, hless⟩
    rw [List.length_append] at hlt
    have hmem : at' (pre ++ post) pre.length ∈ post := by
      rw [show at' (pre ++ post) pre.length = at' post 0 from at'_append_right pre post 0,
        at'_mem (by omega)]
      exact List.getElem_mem _
    exact absurd (UInt32.lt_iff_toNat_lt.mp hless) (not_lt.mpr (hpost' _ hmem))
  have hinserted : insertAtIndex (pre ++ post) pre.length run = .ok (pre ++ run :: post) := by
    unfold insertAtIndex
    rw [if_pos hlen, List.take_left, List.drop_left]
  have hinsert : (∀ r ∈ pre, r.hi ≤ run.lo) →
      ∃ pre' current post', finishAdd b run (pre ++ run :: post) pre.length =
          finishAdd b run (pre' ++ current :: post') pre'.length ∧
        Ascending pre' ∧ current.NoWrap ∧ (run.Proper → current.Proper) ∧ Ascending post' ∧
        (∀ r ∈ pre', r.hi ≤ current.lo) ∧ (∀ r ∈ post', current.lo ≤ r.lo) ∧
        (pre' ++ current :: post').length ≤ runsPerBlock ∧
        covered (pre' ++ current :: post') = covered (pre ++ post) ∪ run.pages := fun hbefore => by
    refine ⟨pre, run, post, rfl, hpreAsc, hrun, id, hpostAsc, hbefore, hpost', ?_, ?_⟩
    · simp only [List.length_append, List.length_cons] at hlen ⊢
      omega
    · rw [covered_append, covered_append, covered_cons, Set.union_assoc, Set.union_comm (covered post)]
  rw [hindex, hinserted]
  rcases eq_or_ne pre [] with rfl | hnonempty
  · rw [if_neg (by simp), if_neg (by simp)]
    exact .inr (hinsert (by simp))
  · obtain ⟨pre, last, rfl⟩ : ∃ front last, pre = front ++ [last] :=
      ⟨_, _, (List.dropLast_concat_getLast hnonempty).symm⟩
    have hlastMem : last ∈ pre ++ [last] := List.mem_append_right _ (List.mem_singleton_self _)
    have hlast : last.Proper := hpreAsc.proper last hlastMem
    have hlt := hpre last hlastMem
    have hat : at' (pre ++ [last] ++ post) ((pre ++ [last]).length - 1) = last := by
      rw [List.append_assoc, List.length_append]
      exact at'_append_right pre ([last] ++ post) 0
    have hset : (pre ++ [last] ++ post).set ((pre ++ [last]).length - 1) (last.merge run) =
        pre ++ last.merge run :: post := by
      simp
    have hindex' : (pre ++ [last]).length - 1 = pre.length := by simp
    have hpos : 0 < run.hi := by
      have := run.lo_le_hi
      omega
    have hspec := Run.compare_spec hrun hlast.noWrap hpos
    have hrle := run.lo_le_hi
    have hllt := hlast.lt
    rw [hat, hset, hindex']
    have hconcat : ∀ {r : Run}, r ∈ pre ++ [last] → r.hi ≤ last.hi := by
      intro r hr
      rcases List.mem_append.mp hr with hr | hr
      · have := (ascending_append.mp hpreAsc).2.2 r hr last (List.mem_singleton_self _)
        omega
      · rw [List.mem_singleton.mp hr]
    have hsubset : last.lo ≤ run.lo → run.hi ≤ last.hi →
        run.pages ⊆ covered (pre ++ [last] ++ post) := by
      intro h1 h2 p hp
      refine ⟨last, List.mem_append_left _ hlastMem, (Run.mem_pages hlast.noWrap).mpr ?_⟩
      have := (Run.mem_pages hrun).mp hp
      omega
    cases hcmp : run.compare last <;> rw [hcmp] at hspec <;> dsimp only at hspec
    case less | lessAdjacent | lessOverlap | contains => omega
    case equal | inside | insideEdge =>
      rw [if_neg (by simp), if_pos (by simp)]
      exact .inl ⟨rfl, hsubset (by omega) (by omega)⟩
    case greaterAdjacent | greater =>
      rw [if_neg (by simp), if_neg (by simp)]
      refine .inr (hinsert fun r hr => ?_)
      have := hconcat hr
      omega
    case greaterOverlap =>
      rw [if_pos (by simp)]
      obtain ⟨hmproper, hmlo, hmhi⟩ := Run.merge_spec hlast hrun
      obtain ⟨hfront, -, hfrontLast⟩ := ascending_append.mp hpreAsc
      refine .inr ⟨pre, last.merge run, post, rfl, hfront, hmproper.noWrap, fun _ => hmproper, hpostAsc,
        fun r hr => ?_, fun r hr => ?_, ?_, ?_⟩
      · have := hfrontLast r hr last (List.mem_singleton_self _)
        omega
      · have := hpost' r hr
        omega
      · simp only [List.length_append, List.length_cons, List.length_nil] at hlen ⊢
        omega
      · ext p
        simp only [covered_append, covered_cons, covered_nil, Set.mem_union, Set.union_empty,
          Run.mem_pages hmproper.noWrap, Run.mem_pages hlast.noWrap, Run.mem_pages hrun, hmlo, hmhi]
        by_cases hp : p ∈ covered pre ∨ p ∈ covered post
        · rcases hp with hp | hp <;> simp [hp]
        · rw [not_or] at hp
          simp only [hp.1, hp.2, false_or, or_false]
          omega

/-- What `add` does to a block in order: its pages are those of the block and the run, and a proper
run leaves it in order. -/
theorem add_spec (hb : b.Ordered) (hrun : run.NoWrap) (h : b.add run = .ok b') :
    covered b'.runs = covered b.runs ∪ run.pages ∧
      (run.Proper → b'.Ordered ∧ (b'.blockRun = b.blockRun.merge run ∨ b' = b)) := by
  have hlen : b.runs.length < runsPerBlock := by
    unfold add at h
    split_ifs at h with hfull
    all_goals exact not_le.mp hfull
  rcases add_eq hb hlen hrun with
    ⟨hsame, hin⟩ | ⟨pre, current, post, heq, hpre, hcurrent, hproper, hpost, hbefore, hafter, hbound, hcov⟩
  · obtain rfl := Except.ok.inj (hsame.symm.trans h)
    exact ⟨(Set.union_eq_self_of_subset_right hin).symm, fun _ => ⟨hb, .inr rfl⟩⟩
  · obtain ⟨hhull, hpages, hlength, hnil, hsorted⟩ :=
      finishAdd_spec hpre hcurrent hpost hbefore hafter (heq.symm.trans h)
    have hall := hpages.trans hcov
    refine ⟨hall, fun hrp => ⟨⟨hsorted (hproper hrp), hnil, hlength.trans hbound, ?_⟩, .inl hhull⟩⟩
    rw [hhull, hall]
    exact isHull_merge hb.hull hrp

end Add

/-! ### Blocks that are split or filled -/

/-- The hull from the first page to the last run's end. -/
theorem isHull_mk {l : List Run} (hl : Ascending l) (hne : l ≠ []) (offset : UInt32)
    (hoffset : offset.toNat = (at' l 0).lo) :
    IsHull ⟨offset, (at' l (l.length - 1)).stop - offset⟩ (covered l) := by
  obtain ⟨hfirst, hlast, hbound⟩ := hl.ends hne
  have hstop := Run.toNat_stop (hl.proper _ hlast).noWrap
  have hlt := (hl.proper _ hlast).lt
  have hle := (hbound _ hlast).1
  have hmk : offset.toNat < (at' l (l.length - 1)).stop.toNat := by omega
  obtain ⟨hlo, hhi⟩ := Run.ends_mk hmk.le
  refine isHull_of_mem hl (Run.proper_mk hmk).noWrap (fun r hr => ?_) ⟨_, hfirst, by omega⟩
    ⟨_, hlast, by omega⟩
  have := hbound r hr
  omega

/-- The hull of a block in order starts at its first run. -/
theorem Ordered.offset {b : RunBlock} (hb : b.Ordered) :
    b.blockRun.pageOffset.toNat = (at' b.runs 0).lo := by
  obtain ⟨hbound, ⟨r, hr, hlo⟩, -⟩ := hb.hull.runs hb.ascending
  obtain ⟨hfirst, -, hends⟩ := hb.ascending.ends hb.nonempty
  have h1 := hbound _ hfirst
  have h2 := hends r hr
  change b.blockRun.lo = _
  omega

theorem isHull_foldl_merge {l : List Run} {h : Run} {pages : Set UInt32} (hh : IsHull h pages)
    (hl : ∀ r ∈ l, r.Proper) : IsHull (l.foldl Run.merge h) (pages ∪ covered l) := by
  induction l generalizing h pages with
  | nil => simpa using hh
  | cons r l ih =>
    obtain ⟨hr, hl⟩ := List.forall_mem_cons.mp hl
    rw [List.foldl_cons, covered_cons, ← Set.union_assoc]
    exact ih (isHull_merge hh hr) hl

/-- Merging runs one by one into no run gives their hull. -/
theorem isHull_foldl {l : List Run} (hl : Ascending l) (hne : l ≠ []) :
    IsHull (l.foldl Run.merge {}) (covered l) := by
  cases l with
  | nil => exact absurd rfl hne
  | cons r l =>
    obtain ⟨hr, htail, -⟩ := ascending_cons.mp hl
    have hself : IsHull r r.pages :=
      ⟨hr.noWrap, fun p hp => (Run.mem_pages hr.noWrap).mp hp, ⟨_, hr.mem_lo, rfl⟩, hr.exists_last⟩
    rw [List.foldl_cons, covered_cons]
    exact isHull_foldl_merge hself htail.proper

theorem split_runs {b b₁ b₂ : RunBlock} (h : b.split = .ok (b₁, b₂)) :
    b₁.runs ++ b₂.runs = b.runs := by
  unfold split at h
  dsimp only at h
  split_ifs at h with hcount
  obtain ⟨rfl, rfl⟩ := Prod.mk.inj (Except.ok.inj h)
  rw [List.length_drop] at hcount
  have hkeep : b.runs.length - b.runs.length / 2 = b.runs.length / 2 := by omega
  change b.runs.take (b.runs.length - b.runs.length / 2) ++ b.runs.drop (b.runs.length / 2) = _
  rw [hkeep, List.take_append_drop]

theorem at'_take {l : List Run} {n i : ℕ} (h : i < n) : at' (l.take n) i = at' l i := by
  unfold at'
  rw [List.getD_eq_getElem?_getD, List.getD_eq_getElem?_getD, List.getElem?_take_of_lt h]

/-- The half of a block that stays, with the hull it gets. -/
def keptHalf (b : RunBlock) : RunBlock :=
  ⟨b.runs.take (b.runs.length - b.runs.length / 2), ⟨b.blockRun.pageOffset,
    (at' b.runs (b.runs.length - b.runs.length / 2 - 1)).stop - b.blockRun.pageOffset⟩⟩

/-- The half of a block that leaves it. -/
def newHalf (b : RunBlock) : RunBlock :=
  ⟨b.runs.drop (b.runs.length / 2), (b.runs.drop (b.runs.length / 2)).foldl Run.merge {}⟩

/-- The two halves of a block in order that has an even count. -/
theorem halves_ordered {b : RunBlock} (hb : b.Ordered) (heven : b.runs.length % 2 = 0) :
    b.keptHalf.Ordered ∧ b.newHalf.Ordered ∧ b.keptHalf.blockRun.hi ≤ b.newHalf.blockRun.lo := by
  have hlen := List.length_pos_iff.mpr hb.nonempty
  have hbound := hb.bound
  have hkeep : b.runs.length - b.runs.length / 2 = b.runs.length / 2 := by omega
  have hasc : Ascending (b.keptHalf.runs ++ b.newHalf.runs) := by
    rw [keptHalf, newHalf, hkeep, List.take_append_drop]
    exact hb.ascending
  obtain ⟨hleft, hright, hsep⟩ := ascending_append.mp hasc
  have hleftLen : b.keptHalf.runs.length = b.runs.length - b.runs.length / 2 :=
    List.length_take_of_le (by omega)
  have hrightLen : b.newHalf.runs.length = b.runs.length - b.runs.length / 2 := List.length_drop
  have hleftNe : b.keptHalf.runs ≠ [] := List.length_pos_iff.mp (by omega)
  have hrightNe : b.newHalf.runs ≠ [] := List.length_pos_iff.mp (by omega)
  have hhull := isHull_mk hleft hleftNe b.blockRun.pageOffset
    (by rw [keptHalf, at'_take (by omega)]; exact hb.offset)
  rw [hleftLen, show at' b.keptHalf.runs (b.runs.length - b.runs.length / 2 - 1) =
    at' b.runs (b.runs.length - b.runs.length / 2 - 1) from at'_take (by omega)] at hhull
  have hkept : b.keptHalf.Ordered := ⟨hleft, hleftNe, hleftLen.trans_le (by omega), hhull⟩
  have hnew : b.newHalf.Ordered :=
    ⟨hright, hrightNe, hrightLen.trans_le (by omega), isHull_foldl hright hrightNe⟩
  refine ⟨hkept, hnew, ?_⟩
  obtain ⟨-, -, r, hr, hhi⟩ := hkept.hull.runs hleft
  obtain ⟨-, ⟨u, hu, hlo⟩, -⟩ := hnew.hull.runs hright
  have := hsep r hr u hu
  omega

theorem split_eq_ok {b b₁ b₂ : RunBlock} (h : b.split = .ok (b₁, b₂)) :
    b.runs.length % 2 = 0 ∧ b₁ = b.keptHalf ∧ b₂ = b.newHalf := by
  unfold split at h
  dsimp only at h
  split_ifs at h with hcount
  obtain ⟨rfl, rfl⟩ := Prod.mk.inj (Except.ok.inj h)
  rw [List.length_drop] at hcount
  exact ⟨by omega, rfl, rfl⟩

/-- A block in order that is split. -/
theorem split_ordered {b b₁ b₂ : RunBlock} (hb : b.Ordered) (h : b.split = .ok (b₁, b₂)) :
    b₁.Ordered ∧ b₂.Ordered := by
  obtain ⟨heven, rfl, rfl⟩ := split_eq_ok h
  obtain ⟨hkept, hnew, -⟩ := halves_ordered hb heven
  exact ⟨hkept, hnew⟩

/-- A block in order that has an even count can be split. -/
theorem split_ok {b : RunBlock} (hb : b.Ordered) (heven : b.runs.length % 2 = 0) :
    b.split = .ok (b.keptHalf, b.newHalf) := by
  obtain ⟨hkept, hnew, hle⟩ := halves_ordered hb heven
  unfold split
  dsimp only
  rw [if_pos (by rw [List.length_drop]; omega), if_pos]
  · rfl
  have hspec := Run.compare_spec hkept.hull.noWrap hnew.hull.noWrap hkept.hull.proper.pos
  have hlt := hkept.hull.proper.lt
  have hlt' := hnew.hull.proper.lt
  change (b.keptHalf.blockRun.compare b.newHalf.blockRun).value ≤ _
  cases hcmp : b.keptHalf.blockRun.compare b.newHalf.blockRun <;> rw [hcmp] at hspec <;>
    dsimp only at hspec
  case hc.less => decide
  all_goals omega

end RunBlock

end ReimsVgpu.Memory.Tracker
