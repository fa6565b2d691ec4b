import Mathlib.Algebra.Group.Basic
import Mathlib.Data.UInt
import ReimsVgpu.Memory.TrackerOrder

/-!
# The order of the tracker's blocks

The tracker is in order where its blocks are and their hulls ascend. A search for the block to add to
may compact the blocks and split one, which moves runs between blocks and keeps them all. A run that no
page is in finds a block with the others before it and after it, so that the hull that grows stays
between them; a run that overlaps pages may leave the order, but not lose a page.

## Main definitions

* `Blocks.Ordered`, `Blocks.pages`: the order, and the pages of all blocks.
* `Blocks.Settled`: how the search for the block to add to ends.
* `Blocks.Shrunk`: what a removal may leave of blocks.

## Main results

* `Blocks.removeFromRange_ordered`, `Blocks.addToRange_ordered`: what keeps the order.
* `Blocks.addToRange_pages`: an add takes no page out and no other page in.
* `Blocks.addToRange_raised`: an add that raises keeps every run.
* `RangeTracker.pages_of_range`: the tracker over bytes.
-/

namespace ReimsVgpu.Memory.Tracker

open RunBlock

namespace Blocks

/-- The runs of all blocks. -/
def runsOf (blocks : List RunBlock) : List Run := blocks.flatMap (·.runs)

@[simp]
theorem runsOf_nil : runsOf [] = [] := rfl

@[simp]
theorem runsOf_cons (b : RunBlock) (blocks : List RunBlock) :
    runsOf (b :: blocks) = b.runs ++ runsOf blocks := rfl

@[simp]
theorem runsOf_append (blocks blocks' : List RunBlock) :
    runsOf (blocks ++ blocks') = runsOf blocks ++ runsOf blocks' := List.flatMap_append

/-- The pages of all blocks. -/
def pages (blocks : List RunBlock) : Set UInt32 := covered (runsOf blocks)

/-- The tracker in order: blocks in order, whose hulls ascend and do not overlap, at most 128 of
them. -/
structure Ordered (blocks : List RunBlock) : Prop where
  block : ∀ b ∈ blocks, b.Ordered
  sorted : blocks.Pairwise fun a b => a.blockRun.hi ≤ b.blockRun.lo
  bound : blocks.length ≤ maxBlocks

/-- Hulls that ascend are runs that ascend. -/
theorem sorted_iff {blocks : List RunBlock} (h : ∀ b ∈ blocks, b.Ordered) :
    (blocks.Pairwise fun a b => a.blockRun.hi ≤ b.blockRun.lo) ↔ Ascending (runsOf blocks) := by
  induction blocks with
  | nil => exact ⟨fun _ => ascending_nil, fun _ => .nil⟩
  | cons b blocks ih =>
    obtain ⟨hb, hblocks⟩ := List.forall_mem_cons.mp h
    obtain ⟨hbound, -, r, hr, hhi⟩ := hb.hull.runs hb.ascending
    rw [List.pairwise_cons, runsOf_cons, ascending_append, ih hblocks]
    constructor
    · rintro ⟨hfirst, hrest⟩
      refine ⟨hb.ascending, hrest, fun u hu v hv => ?_⟩
      obtain ⟨c, hc, hvc⟩ := List.mem_flatMap.mp hv
      have h1 := hbound u hu
      have h2 := hfirst c hc
      have h3 := ((hblocks c hc).hull.runs (hblocks c hc).ascending).1 v hvc
      omega
    · rintro ⟨-, hrest, hsep⟩
      refine ⟨fun c hc => ?_, hrest⟩
      obtain ⟨-, ⟨v, hv, hlo⟩, -⟩ := (hblocks c hc).hull.runs (hblocks c hc).ascending
      have := hsep r hr v (List.mem_flatMap.mpr ⟨c, hc, hv⟩)
      omega

/-! ### Compacting and splitting -/

theorem steal_runs {b next b' : RunBlock} {next' : Option RunBlock}
    (h : steal b next = .ok (b', next')) :
    b'.runs ++ runsOf next'.toList = b.runs ++ next.runs := by
  unfold steal at h
  dsimp only at h
  split_ifs at h with hzero hlt
  · obtain ⟨rfl, rfl⟩ := Prod.mk.inj (Except.ok.inj h)
    simp
  · obtain ⟨rfl, rfl⟩ := Prod.mk.inj (Except.ok.inj h)
    have hall : next.runs.length ≤ min next.runs.length (fullBlock - b.runs.length) := not_lt.mp hlt
    simp [List.take_of_length_le hall]

/-- Compacting keeps the runs. -/
theorem compact_runs {blocks blocks' : List RunBlock} (h : compact blocks = .ok blocks') :
    runsOf blocks' = runsOf blocks := by
  fun_induction compact blocks generalizing blocks' with
  | case1 => obtain rfl := Except.ok.inj h; rfl
  | case2 b => obtain rfl := Except.ok.inj h; rfl
  | case3 b next rest hfull e hsteal => cases h
  | case4 b next rest hfull b' next' hsteal ih =>
    obtain ⟨inner, hinner, rfl⟩ := map_eq_ok h
    have hruns := steal_runs hsteal
    simp only [Option.toList_some, runsOf_cons, runsOf_nil, List.append_nil] at hruns
    rw [runsOf_cons, ih hinner, runsOf_cons, runsOf_cons, runsOf_cons, ← List.append_assoc, hruns,
      List.append_assoc]
  | case5 b next rest hfull b' hsteal ih =>
    have hruns := steal_runs hsteal
    simp only [Option.toList_none, runsOf_nil, List.append_nil] at hruns
    rw [ih h, runsOf_cons, runsOf_cons, runsOf_cons, hruns, List.append_assoc]
  | case6 b next rest hfull ih =>
    obtain ⟨inner, hinner, rfl⟩ := map_eq_ok h
    rw [runsOf_cons, ih hinner, runsOf_cons, runsOf_cons, runsOf_cons]

/-- A block in order that takes runs of the next one, and what is left of that. -/
theorem steal_ordered {b next b' : RunBlock} {next' : Option RunBlock} (hb : b.Ordered)
    (hnext : next.Ordered) (hasc : Ascending (b.runs ++ next.runs)) (hfull : b.runs.length < fullBlock)
    (h : steal b next = .ok (b', next')) : b'.Ordered ∧ ∀ c ∈ next', c.Ordered := by
  have hfb : fullBlock = 240 := rfl
  have hrpb : runsPerBlock = 256 := rfl
  -- The block keeps its first run, and its hull its start.
  have htaken : ∀ n, b.runs.length + n ≤ runsPerBlock →
      RunBlock.Ordered ⟨b.runs ++ next.runs.take n, ⟨b.blockRun.pageOffset,
        (at' (b.runs ++ next.runs.take n) ((b.runs ++ next.runs.take n).length - 1)).stop -
          b.blockRun.pageOffset⟩⟩ := by
    intro n hn
    have hpos : 0 < b.runs.length := List.length_pos_iff.mpr hb.nonempty
    have hfirst : at' (b.runs ++ next.runs.take n) 0 = at' b.runs 0 := by
      rw [at'_mem hpos, at'_mem (by rw [List.length_append]; omega), List.getElem_append_left hpos]
    have hleft : Ascending (b.runs ++ next.runs.take n) := by
      rw [← List.take_append_drop n next.runs, ← List.append_assoc] at hasc
      exact (ascending_append.mp hasc).1
    have hne : b.runs ++ next.runs.take n ≠ [] :=
      fun hnil => hb.nonempty (List.append_eq_nil_iff.mp hnil).1
    refine ⟨hleft, hne, ?_, isHull_mk hleft hne _ (by rw [hfirst]; exact hb.offset)⟩
    rw [List.length_append, List.length_take]
    omega
  unfold steal at h
  dsimp only at h
  generalize hsteal : min next.runs.length (fullBlock - b.runs.length) = toSteal at h
  split_ifs at h with hzero hlt
  · obtain ⟨rfl, rfl⟩ := Prod.mk.inj (Except.ok.inj h)
    refine ⟨htaken toSteal (by omega), ?_⟩
    rintro c ⟨⟩
    have hright : Ascending (next.runs.drop toSteal) := by
      have hsplit := hnext.ascending
      rw [← List.take_append_drop toSteal next.runs] at hsplit
      exact (ascending_append.mp hsplit).2.1
    have hne : next.runs.drop toSteal ≠ [] := by
      intro hnil
      have := congrArg List.length hnil
      rw [List.length_drop, List.length_nil] at this
      omega
    refine ⟨hright, hne, ?_, ?_⟩
    · have := hnext.bound
      rw [List.length_drop]
      omega
    · have hhull := isHull_mk hright hne (at' (next.runs.drop toSteal) 0).pageOffset rfl
      rw [Run.stop, add_sub_right_comm] at hhull
      exact hhull
  · obtain ⟨rfl, rfl⟩ := Prod.mk.inj (Except.ok.inj h)
    exact ⟨htaken toSteal (by omega), by simp⟩

/-- Compacting blocks in order. -/
theorem compact_ordered {blocks blocks' : List RunBlock} (hblocks : ∀ b ∈ blocks, b.Ordered)
    (hasc : Ascending (runsOf blocks)) (h : compact blocks = .ok blocks') :
    (∀ b ∈ blocks', b.Ordered) ∧ blocks'.length ≤ blocks.length ∧ (blocks ≠ [] → blocks' ≠ []) := by
  fun_induction compact blocks generalizing blocks' with
  | case1 =>
    obtain rfl := Except.ok.inj h
    exact ⟨hblocks, le_rfl, id⟩
  | case2 b =>
    obtain rfl := Except.ok.inj h
    exact ⟨hblocks, le_rfl, id⟩
  | case3 b next rest hfull e hsteal => cases h
  | case4 b next rest hfull b' next' hsteal ih =>
    obtain ⟨inner, hinner, rfl⟩ := map_eq_ok h
    obtain ⟨hb, hnextRest⟩ := List.forall_mem_cons.mp hblocks
    obtain ⟨hnext, hrest⟩ := List.forall_mem_cons.mp hnextRest
    have hruns := steal_runs hsteal
    simp only [Option.toList_some, runsOf_cons, runsOf_nil, List.append_nil] at hruns
    simp only [runsOf_cons] at hasc
    rw [← List.append_assoc] at hasc
    obtain ⟨hb', hnext'⟩ := steal_ordered hb hnext (ascending_append.mp hasc).1 hfull hsteal
    have hasc' : Ascending (runsOf (next' :: rest)) := by
      rw [← hruns, List.append_assoc] at hasc
      exact (ascending_append.mp hasc).2.1
    obtain ⟨hinnerOrd, hlen, -⟩ :=
      ih (List.forall_mem_cons.mpr ⟨hnext' next' rfl, hrest⟩) hasc' hinner
    exact ⟨List.forall_mem_cons.mpr ⟨hb', hinnerOrd⟩, Nat.succ_le_succ hlen, by simp⟩
  | case5 b next rest hfull b' hsteal ih =>
    obtain ⟨hb, hnextRest⟩ := List.forall_mem_cons.mp hblocks
    obtain ⟨hnext, hrest⟩ := List.forall_mem_cons.mp hnextRest
    have hruns := steal_runs hsteal
    simp only [Option.toList_none, runsOf_nil, List.append_nil] at hruns
    simp only [runsOf_cons] at hasc
    rw [← List.append_assoc] at hasc
    obtain ⟨hb', -⟩ := steal_ordered hb hnext (ascending_append.mp hasc).1 hfull hsteal
    rw [← hruns] at hasc
    obtain ⟨hinnerOrd, hlen, hne⟩ := ih (List.forall_mem_cons.mpr ⟨hb', hrest⟩) hasc h
    exact ⟨hinnerOrd, hlen.trans (Nat.le_succ _), fun _ => hne (List.cons_ne_nil _ _)⟩
  | case6 b next rest hfull ih =>
    obtain ⟨inner, hinner, rfl⟩ := map_eq_ok h
    obtain ⟨hb, hnextRest⟩ := List.forall_mem_cons.mp hblocks
    rw [runsOf_cons] at hasc
    obtain ⟨hinnerOrd, hlen, -⟩ := ih hnextRest (ascending_append.mp hasc).2.1 hinner
    exact ⟨List.forall_mem_cons.mpr ⟨hb, hinnerOrd⟩, Nat.succ_le_succ hlen, by simp⟩

theorem ordered_compact {blocks blocks' : List RunBlock} (hblocks : Ordered blocks)
    (h : compact blocks = .ok blocks') : Ordered blocks' := by
  have hasc := (sorted_iff hblocks.block).mp hblocks.sorted
  obtain ⟨hord, hlen, -⟩ := compact_ordered hblocks.block hasc h
  refine ⟨hord, (sorted_iff hord).mpr ?_, hlen.trans hblocks.bound⟩
  rw [compact_runs h]
  exact hasc

theorem splitAtIndex_eq_ok {blocks blocks' : List RunBlock} {index : ℕ}
    (h : splitAtIndex blocks index = .ok blocks') :
    ∃ pre b post b₁ b₂, blocks = pre ++ b :: post ∧ pre.length = index ∧ b.split = .ok (b₁, b₂) ∧
      blocks' = pre ++ b₁ :: b₂ :: post := by
  unfold splitAtIndex at h
  split at h
  · cases h
  · rename_i b hb
    obtain ⟨hlt, rfl⟩ := List.getElem?_eq_some_iff.mp hb
    obtain ⟨⟨b₁, b₂⟩, hsplit, rfl⟩ := map_eq_ok h
    refine ⟨blocks.take index, _, blocks.drop (index + 1), b₁, b₂, ?_, List.length_take_of_le hlt.le,
      hsplit, rfl⟩
    rw [← List.drop_eq_getElem_cons hlt, List.take_append_drop]

theorem splitAtIndex_runs {blocks blocks' : List RunBlock} {index : ℕ}
    (h : splitAtIndex blocks index = .ok blocks') : runsOf blocks' = runsOf blocks := by
  obtain ⟨pre, b, post, b₁, b₂, rfl, -, hsplit, rfl⟩ := splitAtIndex_eq_ok h
  simp only [runsOf_append, runsOf_cons, ← split_runs hsplit, List.append_assoc]

/-- Splitting a block of blocks in order. -/
theorem ordered_splitAtIndex {blocks blocks' : List RunBlock} {index : ℕ} (hblocks : Ordered blocks)
    (hlen : blocks.length < maxBlocks)
    (h : splitAtIndex blocks index = .ok blocks') : Ordered blocks' := by
  have hruns := splitAtIndex_runs h
  obtain ⟨pre, b, post, b₁, b₂, rfl, rfl, hsplit, rfl⟩ := splitAtIndex_eq_ok h
  have hb := hblocks.block b (by simp)
  obtain ⟨hb₁, hb₂⟩ := split_ordered hb hsplit
  have hord : ∀ c ∈ pre ++ b₁ :: b₂ :: post, c.Ordered := by
    intro c hc
    simp only [List.mem_append, List.mem_cons] at hc
    rcases hc with hc | rfl | rfl | hc
    · exact hblocks.block c (by simp [hc])
    · exact hb₁
    · exact hb₂
    · exact hblocks.block c (by simp [hc])
  refine ⟨hord, (sorted_iff hord).mpr ?_, ?_⟩
  · rw [hruns]
    exact (sorted_iff hblocks.block).mp hblocks.sorted
  · simp only [List.length_append, List.length_cons] at hlen ⊢
    omega

/-! ### The block to add to -/

/-- How the search for the block to add to ends, in blocks it has compacted and split: at a block
that is not full, at a new last block, with none where there are no blocks, or with a raise. -/
def Settled (P : List RunBlock → Prop) (run : Run) : Outcome (List RunBlock × Option ℕ) → Prop
  | .ok (blocks, some i) =>
    (P blocks ∧ i = (findTarget run 0 blocks none .equal).1.getD 0 ∧ i < blocks.length) ∨
    ∃ front, blocks = front ++ [{}] ∧ i = front.length ∧ P front ∧ front.length < maxBlocks ∧
      (findTarget run 0 front none .equal).1.getD 0 + 1 = front.length ∧
      ((findTarget run 0 front none .equal).2 = .less ∨
        (findTarget run 0 front none .equal).2 = .lessAdjacent)
  | .ok (blocks, none) => P blocks ∧ blocks = []
  | .raised _ (blocks, _) => P blocks
  | .died _ => True

theorem settled_leaving {P : List RunBlock → Prop} {run : Run} {blocks : List RunBlock}
    (hP : P blocks) (e : Failure) : Settled P run (e.leaving (blocks, none)) := by
  cases e with
  | raised kind => exact hP
  | died kind => trivial

theorem leaving_ne_ok {σ : Type*} (e : Failure) (s s' : σ) : e.leaving s ≠ .ok s' := by
  cases e <;> nofun

/-- A run added to a new block. -/
theorem add_empty (run : Run) : RunBlock.add {} run = .ok ⟨[run], run⟩ := rfl

/-- What compacting and splitting a full block keep holds where the search ends. -/
theorem target_settled {P : List RunBlock → Prop} {run : Run}
    (hcompact : ∀ blocks blocks', P blocks → compact blocks = .ok blocks' → P blocks')
    (hsplit : ∀ blocks blocks' index b, P blocks → blocks.length < maxBlocks →
      blocks[index]? = some b → fullBlock ≤ b.runs.length →
      splitAtIndex blocks index = .ok blocks' → P blocks')
    {blocks : List RunBlock} {compacted : Bool} (hP : P blocks) :
    Settled P run (target run blocks compacted) := by
  fun_induction target run blocks compacted with
  | case1 => trivial
  | case2 blocks compacted found index b hb hfull =>
    exact .inl ⟨hP, rfl, (List.getElem?_eq_some_iff.mp hb).1⟩
  | case3 => trivial
  | case4 => exact hP
  | case5 => exact settled_leaving hP _
  | case6 blocks found index b hb hfull hsome hmax hresult =>
    exact ⟨hcompact _ _ hP hresult, rfl⟩
  | case7 blocks found index b hb hfull hsome hmax blocks' hresult hne ih =>
    exact ih (hcompact _ _ hP hresult)
  | case8 blocks compacted found index b hb hfull hsome hmax hlast =>
    exact .inr ⟨blocks, rfl, hlast.2, hP, not_le.mp hmax, hlast.2, hlast.1⟩
  | case9 => exact settled_leaving hP _
  | case10 blocks compacted found index b hb hfull hsome hmax hlast hresult =>
    exact ⟨hsplit _ _ _ b hP (not_le.mp hmax) hb (not_lt.mp hfull) hresult, rfl⟩
  | case11 blocks compacted found index b hb hfull hsome hmax hlast blocks' hresult hne ih =>
    exact ih (hsplit _ _ _ b hP (not_le.mp hmax) hb (not_lt.mp hfull) hresult)

/-- The search keeps the runs. -/
theorem target_runs {run : Run} {blocks : List RunBlock} {compacted : Bool} :
    Settled (fun blocks' => runsOf blocks' = runsOf blocks) run (target run blocks compacted) :=
  target_settled (fun _ _ hP h => (compact_runs h).trans hP)
    (fun _ _ _ _ hP _ _ _ h => (splitAtIndex_runs h).trans hP) rfl

/-- The search keeps blocks in order, at least one of them, and their runs. -/
theorem target_ordered {run : Run} {blocks : List RunBlock} {compacted : Bool}
    (hblocks : Ordered blocks) (hne : blocks ≠ []) :
    Settled (fun mid => (Ordered mid ∧ mid ≠ []) ∧ runsOf mid = runsOf blocks) run
      (target run blocks compacted) := by
  refine target_settled ?_ ?_ ⟨⟨hblocks, hne⟩, rfl⟩
  · rintro mid mid' ⟨⟨hord, hne⟩, hruns⟩ h
    have hasc := (sorted_iff hord.block).mp hord.sorted
    exact ⟨⟨ordered_compact hord h, (compact_ordered hord.block hasc h).2.2 hne⟩,
      (compact_runs h).trans hruns⟩
  · rintro mid mid' index b ⟨⟨hord, -⟩, hruns⟩ hlen - - h
    refine ⟨⟨ordered_splitAtIndex hord hlen h, ?_⟩, (splitAtIndex_runs h).trans hruns⟩
    rintro rfl
    exact absurd (length_splitAtIndex h) (Nat.succ_ne_zero _).symm

/-- How an add ends that returns, from blocks in order: the run is added to the block that is found,
and the later blocks are cleaned up, or it makes a new last block. -/
theorem addToRange_eq_ok {run : Run} {blocks blocks' : List RunBlock} (hblocks : Ordered blocks)
    (hne : blocks ≠ []) (h : addToRange blocks run = .ok blocks') :
    ∃ mid, Ordered mid ∧ mid ≠ [] ∧ runsOf mid = runsOf blocks ∧
      ((∃ pre b post b' post', mid = pre ++ b :: post ∧
          (findTarget run 0 mid none .equal).1.getD 0 = pre.length ∧ b.add run = .ok b' ∧
          cleanup run post = .ok post' ∧ blocks' = pre ++ b' :: post') ∨
        (mid.length < maxBlocks ∧ (findTarget run 0 mid none .equal).1.getD 0 + 1 = mid.length ∧
          ((findTarget run 0 mid none .equal).2 = .less ∨
            (findTarget run 0 mid none .equal).2 = .lessAdjacent) ∧
          blocks' = mid ++ [⟨[run], run⟩])) := by
  have hsettled : Settled _ run (target run blocks false) := target_ordered hblocks hne
  unfold addToRange at h
  rw [if_neg hne] at h
  split at h
  · cases h
  · cases h
  · rename_i mid htarget
    rw [htarget] at hsettled
    obtain ⟨⟨⟨-, hmid⟩, -⟩, hnil⟩ := hsettled
    exact absurd hnil hmid
  · rename_i mid index htarget
    rw [htarget] at hsettled
    rcases hsettled with ⟨⟨⟨hord, hmid⟩, hruns⟩, hindex, hlt⟩ |
      ⟨front, rfl, rfl, ⟨⟨hord, hfront⟩, hruns⟩, hlen, hlast, hcmp⟩
    · refine ⟨mid, hord, hmid, hruns, .inl ?_⟩
      rw [List.getD_eq_getElem?_getD, List.getElem?_eq_getElem hlt, Option.getD_some] at h
      split at h
      · exact absurd h (leaving_ne_ok _ _ _)
      · rename_i b' hadd
        split at h
        · exact absurd h (leaving_ne_ok _ _ _)
        · rename_i post' hcleanup
          refine ⟨mid.take index, mid[index], mid.drop (index + 1), b', post', ?_, ?_, hadd, hcleanup,
            (Outcome.ok.inj h).symm⟩
          · rw [← List.drop_eq_getElem_cons hlt, List.take_append_drop]
          · rw [← hindex, List.length_take_of_le hlt.le]
    · refine ⟨front, hord, hfront, hruns, .inr ⟨hlen, hlast, hcmp, ?_⟩⟩
      have hdrop : (front ++ [({} : RunBlock)]).drop (front.length + 1) = [] :=
        List.drop_of_length_le (by simp)
      rw [hdrop, List.getD_eq_getElem?_getD, List.getElem?_append_right le_rfl, Nat.sub_self,
        List.getElem?_cons_zero, Option.getD_some, add_empty, List.take_left] at h
      exact (Outcome.ok.inj h).symm

/-! ### What a removal leaves -/

theorem pages_nil : pages [] = ∅ := covered_nil

theorem pages_cons (b : RunBlock) (blocks : List RunBlock) :
    pages (b :: blocks) = covered b.runs ∪ pages blocks := by
  rw [pages, runsOf_cons, covered_append]
  rfl

theorem pages_append (blocks blocks' : List RunBlock) :
    pages (blocks ++ blocks') = pages blocks ∪ pages blocks' := by
  rw [pages, runsOf_append, covered_append]
  rfl

/-- A block whose hull lies in a run has its pages in it. -/
theorem covered_subset_of_hull {b : RunBlock} {run : Run} (hb : b.Ordered) (hrun : run.NoWrap)
    (hlo : run.lo ≤ b.blockRun.lo) (hhi : b.blockRun.hi ≤ run.hi) : covered b.runs ⊆ run.pages := by
  intro p hp
  have hbound := hb.hull.bound p hp
  exact (Run.mem_pages hrun).mpr (by omega)

/-- A block that keeps a page is in order once the run is removed, inside its old hull. -/
theorem remove_ordered {b b' : RunBlock} {run : Run} (hb : b.Ordered) (hrun : run.NoWrap)
    (hkept : ∃ p ∈ covered b.runs, p ∉ run.pages) (h : b.remove run = .ok b') :
    b'.Ordered ∧ b.blockRun.lo ≤ b'.blockRun.lo ∧ b'.blockRun.hi ≤ b.blockRun.hi := by
  obtain ⟨hasc, hlen, hleft, honly, hhull⟩ := remove_spec hb hrun h
  obtain ⟨p, hp, hnot⟩ := hkept
  have hne : b'.runs ≠ [] := by
    intro hnil
    have hmem := hleft ⟨hp, hnot⟩
    rw [hnil, covered_nil] at hmem
    exact hmem
  have hexact := hhull hne
  obtain ⟨first, hfirst, hlo⟩ := hexact.first
  obtain ⟨last, hlast, hhi⟩ := hexact.last
  have h1 := hb.hull.bound first (honly hfirst)
  have h2 := hb.hull.bound last (honly hlast)
  exact ⟨⟨hasc, hne, hlen, hexact⟩, by omega, by omega⟩

/-- What a removal may leave of blocks: blocks in order inside their hulls, with the pages outside the
run at least. -/
structure Shrunk (run : Run) (blocks blocks' : List RunBlock) : Prop where
  block : ∀ b ∈ blocks', b.Ordered
  sorted : blocks'.Pairwise fun a b => a.blockRun.hi ≤ b.blockRun.lo
  within : ∀ b' ∈ blocks', ∃ b ∈ blocks,
    b.blockRun.lo ≤ b'.blockRun.lo ∧ b'.blockRun.hi ≤ b.blockRun.hi
  length : blocks'.length ≤ blocks.length
  kept : pages blocks \ run.pages ⊆ pages blocks'
  only : pages blocks' ⊆ pages blocks

section Shrunk

variable {run : Run} {b b' : RunBlock} {blocks blocks' : List RunBlock}

theorem Shrunk.refl (hblocks : ∀ b ∈ blocks, b.Ordered)
    (hsorted : blocks.Pairwise fun a b => a.blockRun.hi ≤ b.blockRun.lo) :
    Shrunk run blocks blocks :=
  ⟨hblocks, hsorted, fun b hb => ⟨b, hb, le_rfl, le_rfl⟩, le_rfl, Set.sdiff_subset, subset_rfl⟩

/-- A first block that stays, in part or whole. -/
theorem Shrunk.cons (h : Shrunk run blocks blocks') (hb' : b'.Ordered)
    (hlo : b.blockRun.lo ≤ b'.blockRun.lo) (hhi : b'.blockRun.hi ≤ b.blockRun.hi)
    (hfirst : ∀ c ∈ blocks, b.blockRun.hi ≤ c.blockRun.lo)
    (hkept : covered b.runs \ run.pages ⊆ covered b'.runs)
    (honly : covered b'.runs ⊆ covered b.runs) : Shrunk run (b :: blocks) (b' :: blocks') := by
  refine ⟨List.forall_mem_cons.mpr ⟨hb', h.block⟩, List.pairwise_cons.mpr ⟨fun c hc => ?_, h.sorted⟩,
    ?_, Nat.succ_le_succ h.length, ?_, ?_⟩
  · obtain ⟨d, hd, hdc, -⟩ := h.within c hc
    exact (hhi.trans (hfirst d hd)).trans hdc
  · rw [List.forall_mem_cons]
    refine ⟨⟨b, List.mem_cons_self .., hlo, hhi⟩, fun c hc => ?_⟩
    obtain ⟨d, hd, hdc⟩ := h.within c hc
    exact ⟨d, List.mem_cons_of_mem _ hd, hdc⟩
  · rw [pages_cons, pages_cons, Set.union_sdiff_distrib]
    exact Set.union_subset_union hkept h.kept
  · rw [pages_cons, pages_cons]
    exact Set.union_subset_union honly h.only

/-- A first block that goes, all of whose pages are in the run. -/
theorem Shrunk.tail (h : Shrunk run blocks blocks') (hin : covered b.runs ⊆ run.pages) :
    Shrunk run (b :: blocks) blocks' := by
  refine ⟨h.block, h.sorted, fun c hc => ?_, h.length.trans (Nat.le_succ _), ?_, ?_⟩
  · obtain ⟨d, hd, hdc⟩ := h.within c hc
    exact ⟨d, List.mem_cons_of_mem _ hd, hdc⟩
  · rw [pages_cons, Set.union_sdiff_distrib, Set.sdiff_eq_empty.mpr hin, Set.empty_union]
    exact h.kept
  · rw [pages_cons]
    exact h.only.trans Set.subset_union_right

/-- The loop of `remove_from_range` from any block on. -/
theorem removeLoop_shrunk (hrun : run.NoWrap) (hblocks : ∀ b ∈ blocks, b.Ordered)
    (hsorted : blocks.Pairwise fun a b => a.blockRun.hi ≤ b.blockRun.lo)
    (h : removeLoop run blocks = .ok blocks') : Shrunk run blocks blocks' := by
  induction blocks generalizing blocks' with
  | nil =>
    obtain rfl := Except.ok.inj h
    exact .refl hblocks hsorted
  | cons b rest ih =>
    obtain ⟨hb, hrest⟩ := List.forall_mem_cons.mp hblocks
    obtain ⟨hfirst, hsortedRest⟩ := List.pairwise_cons.mp hsorted
    have hrefl : Shrunk run rest rest := .refl hrest hsortedRest
    have hhull := hb.hull.proper
    have hspec := Run.compare_spec hhull.noWrap hrun hhull.pos
    have hstays {rest' : List RunBlock} (hsub : Shrunk run rest rest') :
        Shrunk run (b :: rest) (b :: rest') :=
      hsub.cons hb le_rfl le_rfl hfirst Set.sdiff_subset subset_rfl
    have hcut {b' : RunBlock} {rest' : List RunBlock} (hremove : b.remove run = .ok b')
        (hsub : Shrunk run rest rest') (hkept : ∃ p ∈ covered b.runs, p ∉ run.pages) :
        Shrunk run (b :: rest) (b' :: rest') := by
      obtain ⟨hb', hlo, hhi⟩ := remove_ordered hb hrun hkept hremove
      obtain ⟨-, -, hleft, honly, -⟩ := remove_spec hb hrun hremove
      exact hsub.cons hb' hlo hhi hfirst hleft honly
    have hkeptFirst (hlt : b.blockRun.lo < run.lo) : ∃ p ∈ covered b.runs, p ∉ run.pages := by
      obtain ⟨p, hp, hlo⟩ := hb.hull.first
      exact ⟨p, hp, fun hmem => by have := (Run.mem_pages hrun).mp hmem; omega⟩
    have hkeptLast (hlt : run.hi < b.blockRun.hi) : ∃ p ∈ covered b.runs, p ∉ run.pages := by
      obtain ⟨p, hp, hhi⟩ := hb.hull.last
      exact ⟨p, hp, fun hmem => by have := (Run.mem_pages hrun).mp hmem; omega⟩
    rw [removeLoop, RunBlock.compare] at h
    cases hcmp : b.blockRun.compare run <;> rw [hcmp] at h hspec <;> dsimp only at h hspec
    case less | lessAdjacent =>
      obtain ⟨rest', hrest', rfl⟩ := map_eq_ok h
      exact hstays (ih hrest hsortedRest hrest')
    case lessOverlap | greaterOverlap =>
      split at h
      · cases h
      · rename_i b' hremove
        obtain ⟨rest', hrest', rfl⟩ := map_eq_ok h
        refine hcut hremove (ih hrest hsortedRest hrest') ?_
        rcases lt_or_ge b.blockRun.lo run.lo with hlt | hge
        · exact hkeptFirst hlt
        · exact hkeptLast (by omega)
    case equal | inside | insideEdge =>
      obtain rfl := Except.ok.inj h
      exact hrefl.tail (covered_subset_of_hull hb hrun (by omega) (by omega))
    case contains =>
      obtain ⟨b', hremove, rfl⟩ := map_eq_ok h
      exact hcut hremove hrefl (hkeptFirst hspec.1)
    case greaterAdjacent | greater =>
      obtain rfl := Except.ok.inj h
      exact hstays hrefl

end Shrunk

/-- A removal that returns leaves the tracker in order, with the pages outside the run at least. -/
theorem removeFromRange_ordered {blocks blocks' : List RunBlock} {run : Run}
    (hblocks : Ordered blocks) (hrun : run.NoWrap) (h : removeFromRange blocks run = .ok blocks') :
    Ordered blocks' ∧ pages blocks \ run.pages ⊆ pages blocks' ∧ pages blocks' ⊆ pages blocks := by
  unfold removeFromRange at h
  split at h
  · exact absurd h (leaving_ne_ok _ _ _)
  · rename_i left hleft
    obtain rfl := Outcome.ok.inj h
    have hshrunk := removeLoop_shrunk hrun hblocks.block hblocks.sorted hleft
    exact ⟨⟨hshrunk.block, hshrunk.sorted, hshrunk.length.trans hblocks.bound⟩, hshrunk.kept,
      hshrunk.only⟩

/-! ### What an add leaves -/

/-- A block whose hull is the run or lies inside it has its pages in the run. -/
theorem covered_subset_of_compare {b : RunBlock} {run : Run} (hb : b.Ordered) (hrun : run.NoWrap)
    (hcmp : b.compare run = .equal ∨ b.compare run = .inside) : covered b.runs ⊆ run.pages := by
  have hhull := hb.hull.proper
  have hspec := Run.compare_spec hhull.noWrap hrun hhull.pos
  unfold RunBlock.compare at hcmp
  rcases hcmp with hcmp | hcmp <;> rw [hcmp] at hspec <;> dsimp only at hspec
  · exact covered_subset_of_hull hb hrun (by omega) (by omega)
  · exact covered_subset_of_hull hb hrun (by omega) (by omega)

/-- The loop over the later blocks takes no page out but those of the run. -/
theorem cleanup_pages {run : Run} {post post' : List RunBlock} (hrun : run.NoWrap)
    (hpost : ∀ b ∈ post, b.Ordered) (h : cleanup run post = .ok post') :
    pages post \ run.pages ⊆ pages post' ∧ pages post' ⊆ pages post := by
  fun_induction cleanup run post generalizing post' with
  | case1 =>
    obtain rfl := Except.ok.inj h
    exact ⟨Set.sdiff_subset, subset_rfl⟩
  | case2 b rest hcmp | case3 b rest hcmp =>
    obtain ⟨b', hremove, rfl⟩ := map_eq_ok h
    obtain ⟨-, -, hleft, honly, -⟩ := remove_spec (hpost b (List.mem_cons_self ..)) hrun hremove
    rw [pages_cons, pages_cons, Set.union_sdiff_distrib]
    exact ⟨Set.union_subset_union hleft Set.sdiff_subset, Set.union_subset_union honly subset_rfl⟩
  | case4 b hcmp | case6 b hcmp =>
    obtain rfl := Except.ok.inj h
    have hin := covered_subset_of_compare (hpost b (List.mem_cons_self ..)) hrun (by simp [hcmp])
    rw [pages_cons, Set.union_sdiff_distrib, Set.sdiff_eq_empty.mpr hin, Set.empty_union]
    exact ⟨Set.sdiff_subset, Set.subset_union_right⟩
  | case5 b hcmp skipped rest ih | case7 b hcmp skipped rest ih =>
    obtain ⟨rest', hrest', rfl⟩ := map_eq_ok h
    obtain ⟨hb, hskippedRest⟩ := List.forall_mem_cons.mp hpost
    obtain ⟨hkept, honly⟩ := ih (List.forall_mem_cons.mp hskippedRest).2 hrest'
    have hin := covered_subset_of_compare hb hrun (by simp [hcmp])
    rw [pages_cons, Set.union_sdiff_distrib, Set.sdiff_eq_empty.mpr hin, Set.empty_union, pages_cons,
      pages_cons, Set.union_sdiff_distrib]
    exact ⟨Set.union_subset_union Set.sdiff_subset hkept,
      (Set.union_subset_union subset_rfl honly).trans Set.subset_union_right⟩
  | case8 b rest hcmp | case9 b rest hcmp | case10 b rest hcmp =>
    obtain rfl := Except.ok.inj h
    exact ⟨Set.sdiff_subset, subset_rfl⟩
  | case11 | case12 | case13 => cases h

/-- An add that returns gives the pages of the run to those there are, also where it overlaps them. -/
theorem addToRange_pages {run : Run} {blocks blocks' : List RunBlock} (hblocks : Ordered blocks)
    (hrun : run.NoWrap) (h : addToRange blocks run = .ok blocks') :
    pages blocks' = pages blocks ∪ run.pages := by
  have hnew : pages [⟨[run], run⟩] = run.pages := by
    rw [pages_cons, pages_nil, covered_cons, covered_nil, Set.union_empty, Set.union_empty]
  rcases eq_or_ne blocks [] with rfl | hne
  · rw [addToRange, if_pos rfl, add_empty] at h
    obtain rfl := Outcome.ok.inj h
    rw [hnew, pages_nil, Set.empty_union]
  · obtain ⟨mid, hord, -, hruns, hend⟩ := addToRange_eq_ok hblocks hne h
    have hmid : pages mid = pages blocks := congrArg covered hruns
    rw [← hmid]
    rcases hend with ⟨pre, b, post, b', post', rfl, -, hadd, hcleanup, rfl⟩ | ⟨-, -, -, rfl⟩
    · obtain ⟨hb, hpost⟩ := List.forall_mem_cons.mp (List.forall_mem_append.mp hord.block).2
      obtain ⟨hkept, honly⟩ := cleanup_pages hrun hpost hcleanup
      rw [pages_append, pages_append, pages_cons, pages_cons, (add_spec hb hrun hadd).1]
      -- What the later blocks lose is in the run, which the block has now.
      have hlater : run.pages ∪ pages post' = run.pages ∪ pages post := by
        refine subset_antisymm (Set.union_subset_union subset_rfl honly) ?_
        rw [← Set.union_sdiff_self]
        exact Set.union_subset_union subset_rfl hkept
      rw [Set.union_assoc (covered b.runs), hlater, Set.union_comm run.pages, Set.union_assoc,
        Set.union_assoc]
    · rw [pages_append, hnew]

/-- An add that raises keeps the runs, in any state of the tracker. -/
theorem addToRange_raised {run : Run} {blocks blocks' : List RunBlock} {kind : RaiseKind}
    (h : addToRange blocks run = .raised kind blocks') : runsOf blocks' = runsOf blocks := by
  have hsettled : Settled _ run (target run blocks false) := target_runs
  have hleaving : ∀ {e : Failure} {mid : List RunBlock}, e.leaving mid = .raised kind blocks' →
      blocks' = mid := by
    rintro (_ | _) mid heq
    · exact (Outcome.raised.inj heq).2.symm
    · cases heq
  unfold addToRange at h
  split_ifs at h with hnil
  · cases h
  split at h
  · cases h
  · rename_i kind' mid i htarget
    rw [htarget] at hsettled
    obtain ⟨-, rfl⟩ := Outcome.raised.inj h
    exact hsettled
  · cases h
  · rename_i mid index htarget
    rw [htarget] at hsettled
    have hmid : runsOf mid = runsOf blocks := by
      rcases hsettled with ⟨hruns, -⟩ | ⟨front, rfl, -, hruns, -⟩
      · exact hruns
      · simpa using hruns
    split at h
    · rw [hleaving h, hmid]
    · split at h
      · rw [hleaving h, hmid]
      · cases h

/-! ### Adding a run that no page is in -/

/-- A run that is disjoint from a block's pages lies before its hull, after it, or strictly
inside. -/
theorem apart_of_disjoint {b : RunBlock} {run : Run} (hb : b.Ordered) (hrun : run.Proper)
    (hdisjoint : Disjoint (covered b.runs) run.pages) :
    b.blockRun.hi ≤ run.lo ∨ run.hi ≤ b.blockRun.lo ∨
      (b.blockRun.lo < run.lo ∧ run.hi < b.blockRun.hi) := by
  obtain ⟨first, hfirst, hlo⟩ := hb.hull.first
  obtain ⟨last, hlast, hhi⟩ := hb.hull.last
  have h1 := Set.disjoint_left.mp hdisjoint hfirst
  have h2 := Set.disjoint_left.mp hdisjoint hlast
  rw [Run.mem_pages hrun.noWrap] at h1 h2
  omega

/-- The search goes on over blocks after the run, once it has a block. -/
theorem findTarget_right {run : Run} {i t : ℕ} {post : List RunBlock} {cmp : Cmp}
    (hpost : ∀ b ∈ post, b.compare run = .greaterAdjacent ∨ b.compare run = .greater) :
    (findTarget run i post (some t) cmp).1 = some t ∧
      (post = [] → (findTarget run i post (some t) cmp).2 = cmp) := by
  induction post generalizing i cmp with
  | nil => exact ⟨rfl, fun _ => rfl⟩
  | cons b post ih =>
    obtain ⟨hb, hpost⟩ := List.forall_mem_cons.mp hpost
    refine ⟨?_, by simp⟩
    rw [findTarget]
    rcases hb with hb | hb
    · rw [hb]
      exact (ih hpost).1
    · rw [hb]
      exact (ih hpost).1

/-- The search ends at the last block that does not lie after the run. -/
theorem findTarget_middle {run : Run} {i : ℕ} {pre post : List RunBlock} {b : RunBlock}
    (hpre : ∀ c ∈ pre, c.compare run = .less)
    (hb : b.compare run = .less ∨ b.compare run = .lessAdjacent ∨ b.compare run = .contains)
    (hpost : ∀ c ∈ post, c.compare run = .greaterAdjacent ∨ c.compare run = .greater)
    (target : Option ℕ) (cmp : Cmp) :
    (findTarget run i (pre ++ b :: post) target cmp).1 = some (i + pre.length) ∧
      (post = [] → (findTarget run i (pre ++ b :: post) target cmp).2 = b.compare run) := by
  induction pre generalizing i target cmp with
  | nil =>
    rw [List.nil_append, findTarget]
    rcases hb with hb | hb | hb
    · rw [hb]
      exact findTarget_right hpost
    · rw [hb]
      exact ⟨rfl, fun _ => rfl⟩
    · rw [hb]
      exact ⟨rfl, fun _ => rfl⟩
  | cons c pre ih =>
    obtain ⟨hc, hpre⟩ := List.forall_mem_cons.mp hpre
    rw [List.cons_append, findTarget, hc, List.length_cons, Nat.add_comm pre.length, ← Nat.add_assoc]
    exact ih hpre _ _

theorem compare_of_lt {b : RunBlock} {run : Run} (hb : b.Ordered) (hrun : run.NoWrap)
    (h : b.blockRun.hi < run.lo) : b.compare run = .less := by
  have hhull := hb.hull.proper
  have hspec := Run.compare_spec hhull.noWrap hrun hhull.pos
  have hlt := hhull.lt
  have hle := run.lo_le_hi
  unfold RunBlock.compare
  cases hcmp : b.blockRun.compare run <;> rw [hcmp] at hspec <;> dsimp only at hspec <;> first
    | rfl
    | omega

/-- Where the search for a run ends that no page is in: the blocks before lie before the run, those
after lie after it, and a last block that compares as before lies before it. -/
theorem findTarget_of_disjoint {run : Run} {blocks : List RunBlock} (hblocks : Ordered blocks)
    (hne : blocks ≠ []) (hrun : run.Proper) (hdisjoint : Disjoint (pages blocks) run.pages) :
    ∃ pre b post, blocks = pre ++ b :: post ∧
      (findTarget run 0 blocks none .equal).1 = some pre.length ∧
      (∀ c ∈ pre, c.blockRun.hi ≤ run.lo) ∧ (∀ c ∈ post, run.hi ≤ c.blockRun.lo) ∧
      (post = [] → ((findTarget run 0 blocks none .equal).2 = .less ∨
        (findTarget run 0 blocks none .equal).2 = .lessAdjacent) → b.blockRun.hi ≤ run.lo) := by
  have hrunlt := hrun.lt
  have hapart : ∀ c ∈ blocks, c.blockRun.hi ≤ run.lo ∨ run.hi ≤ c.blockRun.lo ∨
      (c.blockRun.lo < run.lo ∧ run.hi < c.blockRun.hi) := fun c hc => by
    refine apart_of_disjoint (hblocks.block c hc) hrun (hdisjoint.mono_left ?_)
    rintro p ⟨r, hr, hp⟩
    exact ⟨r, List.mem_flatMap.mpr ⟨c, hc, hr⟩, hp⟩
  obtain ⟨left, right, rfl, hleft, hright⟩ :=
    IntervalList.exists_split_of_pairwise (P := fun c : RunBlock => c.blockRun.lo < run.lo)
      hblocks.sorted fun x y hxy hy => by
        have := x.blockRun.lo_le_hi
        omega
  have hafter : ∀ c ∈ right, run.hi ≤ c.blockRun.lo := fun c hc => by
    have hproper := (hblocks.block c (List.mem_append_right _ hc)).hull.proper.lt
    have h1 := hapart c (List.mem_append_right _ hc)
    have h2 := hright c hc
    omega
  have hcompareRight : ∀ c ∈ right, c.compare run = .greaterAdjacent ∨ c.compare run = .greater :=
    fun c hc => (Run.cut_of_le (hblocks.block c (List.mem_append_right _ hc)).hull.proper hrun.noWrap
      (hafter c hc)).1
  rcases eq_or_ne left [] with rfl | hleftNe
  · -- Every block lies after the run, and the search stops at the first.
    obtain ⟨b, post, rfl⟩ := List.exists_cons_of_ne_nil hne
    have hb := hcompareRight b (List.mem_cons_self ..)
    refine ⟨[], b, post, rfl, ?_, by simp, fun c hc => hafter c (List.mem_cons_of_mem _ hc),
      fun hnil hcmp => ?_⟩
    · rw [List.nil_append, findTarget]
      rcases hb with hb | hb <;> rw [hb] <;> rfl
    · rw [List.nil_append, findTarget] at hcmp
      rcases hb with hb | hb <;> rw [hb] at hcmp <;> simp at hcmp
  · obtain ⟨pre, b, rfl⟩ : ∃ pre b, left = pre ++ [b] :=
      ⟨_, _, (List.dropLast_concat_getLast hleftNe).symm⟩
    have hmem : b ∈ pre ++ [b] := List.mem_append_right _ (List.mem_singleton_self _)
    have hb := hblocks.block b (List.mem_append_left _ hmem)
    have hblo := hleft b hmem
    have hbefore : ∀ c ∈ pre, c.blockRun.hi < run.lo := fun c hc => by
      have := (List.pairwise_append.mp (List.pairwise_append.mp hblocks.sorted).1).2.2 c hc b
        (List.mem_singleton_self _)
      omega
    have hcompareLeft : ∀ c ∈ pre, c.compare run = .less := fun c hc =>
      compare_of_lt (hblocks.block c (List.mem_append_left _ (List.mem_append_left _ hc)))
        hrun.noWrap (hbefore c hc)
    have hspec := Run.compare_spec hb.hull.proper.noWrap hrun.noWrap hb.hull.proper.pos
    have hcompare : (b.compare run = .less ∧ b.blockRun.hi ≤ run.lo) ∨
        (b.compare run = .lessAdjacent ∧ b.blockRun.hi ≤ run.lo) ∨ b.compare run = .contains := by
      have h1 := hapart b (List.mem_append_left _ hmem)
      unfold RunBlock.compare
      cases hcmp : b.blockRun.compare run <;> rw [hcmp] at hspec <;> dsimp only at hspec <;> first
        | omega
        | exact .inl ⟨rfl, by omega⟩
        | exact .inr (.inl ⟨rfl, by omega⟩)
        | exact .inr (.inr rfl)
    have hcompare' : b.compare run = .less ∨ b.compare run = .lessAdjacent ∨
        b.compare run = .contains := hcompare.imp And.left (Or.imp_left And.left)
    obtain ⟨hfound, hlast⟩ := findTarget_middle (i := 0) hcompareLeft hcompare' hcompareRight
      none .equal
    rw [List.append_assoc]
    refine ⟨pre, b, right, rfl, ?_, fun c hc => (hbefore c hc).le, hafter, fun hnil hcmp => ?_⟩
    · rw [← Nat.zero_add pre.length]
      exact hfound
    · rw [show pre ++ ([b] ++ right) = pre ++ b :: right from rfl, hlast hnil] at hcmp
      rcases hcompare with ⟨-, hle⟩ | ⟨-, hle⟩ | hcontains
      · exact hle
      · exact hle
      · rw [hcontains] at hcmp
        simp at hcmp

/-- The loop over the later blocks leaves those that lie after the run. -/
theorem cleanup_of_le {run : Run} {post : List RunBlock} (hpost : ∀ b ∈ post, b.Ordered)
    (hrun : run.NoWrap) (h : ∀ b ∈ post, run.hi ≤ b.blockRun.lo) : cleanup run post = .ok post := by
  cases post with
  | nil => rfl
  | cons b post =>
    have hb := hpost b (List.mem_cons_self ..)
    have hcmp := (Run.cut_of_le hb.hull.proper hrun (h b (List.mem_cons_self ..))).1
    unfold cleanup RunBlock.compare
    rcases hcmp with hcmp | hcmp
    · rw [hcmp]
    · rw [hcmp]

/-- A new block is in order with a proper run. -/
theorem ordered_new {run : Run} (hrun : run.Proper) : RunBlock.Ordered ⟨[run], run⟩ := by
  refine ⟨ascending_singleton hrun, List.cons_ne_nil _ _, Nat.le_add_left 1 255, ?_⟩
  exact isHull_of_mem (ascending_singleton hrun) hrun.noWrap (by simp)
    ⟨run, List.mem_singleton_self _, rfl⟩ ⟨run, List.mem_singleton_self _, rfl⟩

/-- An add of a proper run that no page is in leaves the tracker in order. -/
theorem addToRange_ordered {run : Run} {blocks blocks' : List RunBlock} (hblocks : Ordered blocks)
    (hrun : run.Proper) (hdisjoint : Disjoint (pages blocks) run.pages)
    (h : addToRange blocks run = .ok blocks') : Ordered blocks' := by
  rcases eq_or_ne blocks [] with rfl | hne
  · rw [addToRange, if_pos rfl, add_empty] at h
    obtain rfl := Outcome.ok.inj h
    exact ⟨by simpa using ordered_new hrun, List.pairwise_singleton _ _, Nat.le_add_left 1 127⟩
  · obtain ⟨mid, hord, hmid, hruns, hend⟩ := addToRange_eq_ok hblocks hne h
    have hpages : pages mid = pages blocks := congrArg covered hruns
    obtain ⟨pre, b, post, rfl, hfound, hbefore, hafter, hlast⟩ :=
      findTarget_of_disjoint hord hmid hrun (hpages ▸ hdisjoint)
    obtain ⟨hpreOrd, hbPost⟩ := List.forall_mem_append.mp hord.block
    obtain ⟨hb, hpostOrd⟩ := List.forall_mem_cons.mp hbPost
    obtain ⟨hpreSorted, hbPostSorted, hsep⟩ := List.pairwise_append.mp hord.sorted
    obtain ⟨hbfirst, hpostSorted⟩ := List.pairwise_cons.mp hbPostSorted
    rw [hfound, Option.getD_some] at hend
    rcases hend with ⟨pre', c, post', b', rest, hsplit, hlen, hadd, hcleanup, rfl⟩ |
      ⟨hmax, hlen, hcmp, rfl⟩
    · obtain ⟨rfl, htail⟩ := List.append_inj hsplit hlen
      obtain ⟨rfl, rfl⟩ := List.cons.inj htail
      rw [cleanup_of_le hpostOrd hrun.noWrap hafter] at hcleanup
      obtain rfl := Except.ok.inj hcleanup
      obtain ⟨hb', hhull⟩ := (add_spec hb hrun.noWrap hadd).2 hrun
      -- The hull grows to the run at most, which lies between the blocks around.
      have hgrown : min b.blockRun.lo run.lo ≤ b'.blockRun.lo ∧
          b'.blockRun.hi ≤ max b.blockRun.hi run.hi := by
        rcases hhull with hhull | rfl
        · obtain ⟨-, hlo, hhi⟩ := Run.merge_spec hb.hull.proper hrun.noWrap
          rw [hhull, hlo, hhi]
          exact ⟨le_rfl, le_rfl⟩
        · exact ⟨min_le_left _ _, le_max_left _ _⟩
      refine ⟨List.forall_mem_append.mpr ⟨hpreOrd, List.forall_mem_cons.mpr ⟨hb', hpostOrd⟩⟩,
        List.pairwise_append.mpr ⟨hpreSorted, List.pairwise_cons.mpr ⟨fun d hd => ?_, hpostSorted⟩,
          fun u hu v hv => ?_⟩, ?_⟩
      · have h1 := hbfirst d hd
        have h2 := hafter d hd
        omega
      · have h1 := hbefore u hu
        rcases List.mem_cons.mp hv with rfl | hv
        · have h2 := hsep u hu b (List.mem_cons_self ..)
          omega
        · exact hsep u hu v (List.mem_cons_of_mem _ hv)
      · have hbound := hord.bound
        rw [List.length_append, List.length_cons] at hbound ⊢
        exact hbound
    · have hpost : post = [] := by
        rw [List.length_append, List.length_cons] at hlen
        exact List.length_eq_zero_iff.mp (by omega)
      have hble := hlast hpost hcmp
      subst hpost
      refine ⟨List.forall_mem_append.mpr ⟨hord.block, by simpa using ordered_new hrun⟩,
        List.pairwise_append.mpr ⟨hord.sorted, List.pairwise_singleton _ _, fun u hu v hv => ?_⟩, ?_⟩
      · obtain rfl := List.mem_singleton.mp hv
        rcases List.mem_append.mp hu with hu | hu
        · exact hbefore u hu
        · obtain rfl := List.mem_singleton.mp hu
          exact hble
      · rw [List.length_append]
        exact hmax

/-! ### A tracker that is full -/

theorem compact_full {blocks : List RunBlock} (h : ∀ b ∈ blocks, fullBlock ≤ b.runs.length) :
    compact blocks = .ok blocks := by
  fun_induction compact blocks with
  | case1 => rfl
  | case2 => rfl
  | case3 b next rest hfull | case4 b next rest hfull | case5 b next rest hfull =>
    exact absurd hfull (not_lt.mpr (h b (List.mem_cons_self ..)))
  | case6 b next rest hfull ih =>
    rw [ih fun c hc => h c (List.mem_cons_of_mem _ hc)]
    rfl

/-- The search finds a block, where there is one. -/
theorem findTarget_isSome {run : Run} {i : ℕ} {blocks : List RunBlock} {target : Option ℕ} {cmp : Cmp}
    (h : blocks ≠ [] ∨ target.isSome) (htarget : ∀ t ∈ target, t < i + blocks.length) :
    ∃ t, (findTarget run i blocks target cmp).1 = some t ∧ t < i + blocks.length := by
  induction blocks generalizing i target cmp with
  | nil =>
    obtain ⟨t, rfl⟩ := Option.isSome_iff_exists.mp (h.resolve_left (not_not.mpr rfl))
    exact ⟨t, rfl, htarget t rfl⟩
  | cons b rest ih =>
    have hlen : i + (b :: rest).length = i + 1 + rest.length := by
      rw [List.length_cons]
      omega
    rw [hlen] at htarget ⊢
    rw [findTarget]
    cases hcmp : b.compare run <;> dsimp only
    case less | greaterOverlap => exact ih (.inr rfl) (by rintro t ⟨⟩; omega)
    case greaterAdjacent | greater =>
      split_ifs with hsome
      · exact ih (.inr hsome) htarget
      · exact ⟨i, rfl, by omega⟩
    all_goals exact ⟨i, rfl, by omega⟩

/-- A tracker of 128 full blocks takes no run. -/
theorem addToRange_full {run : Run} {blocks : List RunBlock} (hlen : blocks.length = maxBlocks)
    (hfull : ∀ b ∈ blocks, fullBlock ≤ b.runs.length) :
    addToRange blocks run = .raised .trackerTooComplex blocks := by
  have hne : blocks ≠ [] := by
    rintro rfl
    exact absurd hlen (Nat.succ_ne_zero 127).symm
  obtain ⟨t, hfound, ht⟩ : ∃ t, (findTarget run 0 blocks none .equal).1 = some t ∧
      t < 0 + blocks.length := findTarget_isSome (.inl hne) nofun
  rw [Nat.zero_add] at ht
  have hblock : ¬ blocks[t].runs.length < fullBlock := not_lt.mpr (hfull _ (List.getElem_mem ht))
  have hagain : target run blocks true = .raised .trackerTooComplex (blocks, none) := by
    rw [target]
    simp only [hfound, Option.getD_some, List.getElem?_eq_getElem ht, if_neg hblock, reduceCtorEq,
      if_false, hlen.ge, if_true]
  have hfirst : target run blocks false = .raised .trackerTooComplex (blocks, none) := by
    rw [target]
    simp only [hfound, Option.getD_some, List.getElem?_eq_getElem ht, if_neg hblock, reduceCtorEq,
      if_false, hlen.ge, if_true, compact_full hfull, if_neg hne, hagain]
  rw [addToRange, if_neg hne, hfirst]

end Blocks

/-! ### The tracker over bytes -/

namespace RangeTracker

open Blocks

/-- A removal of a run whose end does not wrap leaves the tracker in order, with no new page and every
page outside the run; an add gives it the run's pages, and leaves it in order where the run has a page
and none is there yet; and an add the tracker is too complex for changes no page. -/
theorem pages_of_range (a : Arch) (blocks blocks' : List RunBlock) (offset length : UInt64) :
    (∀ run, Ordered blocks → calculatePageRunAligned a offset length = .ok run → run.NoWrap →
      (removeFromRange a blocks offset length = .ok blocks' →
        Ordered blocks' ∧ pages blocks \ run.pages ⊆ pages blocks' ∧ pages blocks' ⊆ pages blocks) ∧
      (addToRange a blocks offset length = .ok blocks' →
        pages blocks' = pages blocks ∪ run.pages ∧
          (run.pageLength ≠ 0 → Disjoint (pages blocks) run.pages → Ordered blocks'))) ∧
    (addToRange a blocks offset length = .raised .trackerTooComplex blocks' →
      pages blocks' = pages blocks) := by
  refine ⟨fun run hblocks hrun hwrap => ⟨fun h => ?_, fun h => ?_⟩, fun h => ?_⟩
  · rw [removeFromRange, hrun] at h
    exact removeFromRange_ordered hblocks hwrap h
  · rw [addToRange, hrun] at h
    refine ⟨addToRange_pages hblocks hwrap h, fun hlength hdisjoint => ?_⟩
    have hpos : 0 < run.pageLength.toNat := by
      rw [Nat.pos_iff_ne_zero]
      exact fun hzero => hlength (UInt32.toNat_inj.mp hzero)
    exact addToRange_ordered hblocks ⟨hwrap, Nat.lt_add_of_pos_right hpos⟩ hdisjoint h
  · unfold addToRange at h
    split at h
    · rename_i kind hkind
      obtain ⟨-, rfl⟩ := Outcome.raised.inj h
      rfl
    · exact congrArg covered (addToRange_raised h)

/-- A tracker of one run, of ten pages. -/
def tenPages : List RunBlock := [⟨[⟨10, 10⟩], ⟨10, 10⟩⟩]

theorem tenPages_ordered : Ordered tenPages := by
  refine ⟨?_, List.pairwise_singleton _ _, by decide⟩
  have hproper : (⟨10, 10⟩ : Run).Proper := ⟨by decide, by decide⟩
  simpa [tenPages] using ordered_new hproper

theorem probe_singleton (r run : Run) : RunBlock.probe [r] run = 0 := by
  rw [RunBlock.probe, RunBlock.probeLoop, if_pos (by simp)]
  dsimp only [List.length_singleton]
  split_ifs
  · rw [RunBlock.probeLoop, if_neg (by decide)]
  · rfl
  · rw [RunBlock.probeLoop, if_neg (by decide)]

/-- What removing a run from the ten pages does, where the block's hull contains it. -/
theorem removeFromRange_tenPages {run : Run} {runs : List Run}
    (hcmp : (⟨10, 10⟩ : Run).compare run = .contains)
    (hscan : RunBlock.scan run 1 0 [⟨10, 10⟩] {} = .ok (.split runs)) :
    Blocks.removeFromRange tenPages run = .ok [⟨runs, ⟨10, 10⟩⟩] := by
  have hblock : (⟨[⟨10, 10⟩], ⟨10, 10⟩⟩ : RunBlock).remove run = .ok ⟨runs, ⟨10, 10⟩⟩ := by
    rw [RunBlock.remove, if_neg (by decide)]
    simp only [probe_singleton, List.drop_zero, List.length_singleton, hscan, List.take_zero,
      List.nil_append]
  rw [Blocks.removeFromRange, tenPages, removeLoop, RunBlock.compare, hcmp]
  dsimp only
  rw [hblock]
  rfl

/-- The pages 15 and 16, of 16 KiB each, go out of the ten and leave two runs; five pages from page 30
on are added to the ten; and 128 blocks of 240 runs take no run. -/
theorem tenPages_of_range :
    (Ordered [⟨[⟨10, 5⟩, ⟨17, 3⟩], ⟨10, 10⟩⟩] ∧
      pages [⟨[⟨10, 5⟩, ⟨17, 3⟩], ⟨10, 10⟩⟩] ⊆ pages tenPages) ∧
    (Ordered [⟨[⟨10, 10⟩, ⟨30, 5⟩], ⟨10, 25⟩⟩] ∧
      pages [⟨[⟨10, 10⟩, ⟨30, 5⟩], ⟨10, 25⟩⟩] = pages tenPages ∪ (⟨30, 5⟩ : Run).pages) ∧
    ∃ blocks', addToRange .other (List.replicate 128 ⟨List.replicate 240 ⟨10, 10⟩, ⟨10, 10⟩⟩) 0
        (2 ^ 14) = .raised .trackerTooComplex blocks' ∧
      pages blocks' = pages (List.replicate 128 ⟨List.replicate 240 ⟨10, 10⟩, ⟨10, 10⟩⟩) := by
  have hremoved : removeFromRange .other tenPages (15 * 2 ^ 14) (2 * 2 ^ 14) =
      .ok [⟨[⟨10, 5⟩, ⟨17, 3⟩], ⟨10, 10⟩⟩] :=
    removeFromRange_tenPages rfl rfl
  have hadded : addToRange .other tenPages (30 * 2 ^ 14) (5 * 2 ^ 14) =
      .ok [⟨[⟨10, 10⟩, ⟨30, 5⟩], ⟨10, 25⟩⟩] := by
    have hblock : (⟨[⟨10, 10⟩], ⟨10, 10⟩⟩ : RunBlock).add ⟨30, 5⟩ =
        .ok ⟨[⟨10, 10⟩, ⟨30, 5⟩], ⟨10, 25⟩⟩ := by
      rw [RunBlock.add]
      simp only [probe_singleton]
      rfl
    have htarget : target ⟨30, 5⟩ tenPages false = .ok (tenPages, some 0) := by
      rw [target]
      rfl
    change Blocks.addToRange tenPages ⟨30, 5⟩ = _
    rw [Blocks.addToRange, if_neg (by decide), htarget]
    dsimp only
    rw [show tenPages.getD 0 {} = ⟨[⟨10, 10⟩], ⟨10, 10⟩⟩ from rfl, hblock]
    rfl
  have hraised : addToRange .other (List.replicate 128 ⟨List.replicate 240 ⟨10, 10⟩, ⟨10, 10⟩⟩) 0
      (2 ^ 14) = .raised .trackerTooComplex
        (List.replicate 128 ⟨List.replicate 240 ⟨10, 10⟩, ⟨10, 10⟩⟩) := by
    refine addToRange_full List.length_replicate fun b hb => ?_
    rw [List.eq_of_mem_replicate hb]
    exact List.length_replicate.ge
  have hrun : calculatePageRunAligned .other (15 * 2 ^ 14) (2 * 2 ^ 14) = .ok ⟨15, 2⟩ := rfl
  have hrun' : calculatePageRunAligned .other (30 * 2 ^ 14) (5 * 2 ^ 14) = .ok ⟨30, 5⟩ := rfl
  have hdisjoint : Disjoint (pages tenPages) (⟨30, 5⟩ : Run).pages := by
    rw [Set.disjoint_left]
    rintro p ⟨r, hr, hp⟩ hp'
    obtain rfl : r = ⟨10, 10⟩ := by simpa [tenPages] using hr
    rw [Run.mem_pages (by decide)] at hp hp'
    have h1 : p.toNat < 20 := hp.2
    have h2 : 30 ≤ p.toNat := hp'.1
    omega
  obtain ⟨hord, -, hsub⟩ :=
    ((pages_of_range .other tenPages _ _ _).1 _ tenPages_ordered hrun (by decide)).1 hremoved
  obtain ⟨hunion, hkeeps⟩ :=
    ((pages_of_range .other tenPages _ _ _).1 _ tenPages_ordered hrun' (by decide)).2 hadded
  exact ⟨⟨hord, hsub⟩, ⟨hkeeps (by decide) hdisjoint, hunion⟩, _, hraised,
    (pages_of_range .other _ _ _ _).2 hraised⟩

/-- Lengths wrap: 2 ^ 46 bytes are no pages, and leave a block with an empty run; and a run from page
15 on that ends at page 5 takes pages 5 to 9 into the tracker when it is removed. -/
theorem wrapped_range_breaks :
    (∃ blocks', Ordered [] ∧ Disjoint (pages []) (⟨0, 0⟩ : Run).pages ∧
      calculatePageRunAligned .other 0 (2 ^ 46) = .ok ⟨0, 0⟩ ∧
      addToRange .other [] 0 (2 ^ 46) = .ok blocks' ∧ ¬ Ordered blocks') ∧
    ∃ blocks', Ordered tenPages ∧
      removeFromRange .other tenPages (15 * 2 ^ 14) ((2 ^ 32 - 10) * 2 ^ 14) = .ok blocks' ∧
      ¬ Ordered blocks' ∧ ¬ pages blocks' ⊆ pages tenPages := by
  have hremoved : removeFromRange .other tenPages (15 * 2 ^ 14) ((2 ^ 32 - 10) * 2 ^ 14) =
      .ok [⟨[⟨10, 5⟩, ⟨5, 15⟩], ⟨10, 10⟩⟩] :=
    removeFromRange_tenPages rfl rfl
  refine ⟨⟨[⟨[⟨0, 0⟩], ⟨0, 0⟩⟩], ⟨by simp, .nil, Nat.zero_le _⟩, ?_, rfl, rfl, fun hord => ?_⟩,
    _, tenPages_ordered, hremoved, fun hord => ?_, fun hsub => ?_⟩
  · rw [pages_nil]
    exact Set.empty_disjoint _
  · have hb := hord.block _ (List.mem_singleton_self _)
    exact absurd (hb.ascending.proper _ (List.mem_singleton_self _)).lt (by decide)
  · have hb := hord.block _ (List.mem_singleton_self _)
    have hfirst := (ascending_cons.mp hb.ascending).2.2 _ (List.mem_singleton_self _)
    exact absurd hfirst (by decide)
  · have hmem : (5 : UInt32) ∈ pages [⟨[⟨10, 5⟩, ⟨5, 15⟩], ⟨10, 10⟩⟩] :=
      ⟨⟨5, 15⟩, by simp, (Run.mem_pages (by decide)).mpr (by decide)⟩
    obtain ⟨r, hr, hp⟩ := hsub hmem
    obtain rfl : r = ⟨10, 10⟩ := by simpa [tenPages] using hr
    exact absurd ((Run.mem_pages (by decide)).mp hp) (by decide)

end RangeTracker

end ReimsVgpu.Memory.Tracker
