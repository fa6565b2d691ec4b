import ReimsVgpu.Library.Words
import ReimsVgpu.Memory.TrackerLookups

/-!
# The unmapped runs of a range

In a tracker in order the scan for unmapped runs takes the runs in ascending order off what is left of the
range, and puts what lies before each aside: these are the holes of the range, and what is left at the end
is the last. The scans of the blocks compose to one of all runs. A block is skipped, and a scan ends early,
where the rest has no page of what is left.

## Main definitions

* `IsHole`: a maximal run of unmapped pages of a range.
* `Scanned`: what a scan leaves of a range, and the holes it has put aside.
* `RangeTracker.recorded`: a visitor, with what it is given.

## Main results

* `RangeTracker.unmapped_exact`.
-/

namespace ReimsVgpu.Memory.Tracker

/-- A maximal run of the pages of a run that are not mapped. -/
structure IsHole (run : Run) (mapped : Set UInt32) (r : Run) : Prop where
  proper : r.Proper
  subset : r.pages ⊆ run.pages \ mapped
  maximal : ∀ s : Run, s.Proper → s.pages ⊆ run.pages \ mapped → r.pages ⊆ s.pages → s = r

/-- Proper runs in ascending order that do not touch, of the pages of a run that are not mapped. -/
structure Holes (run : Run) (mapped : Set UInt32) (holes : List Run) : Prop where
  proper : ∀ r ∈ holes, r.Proper
  apart : holes.Pairwise fun r s => r.hi < s.lo
  pages : covered holes = run.pages \ mapped

theorem eq_or_apart {l : List Run} (h : l.Pairwise fun r s => r.hi < s.lo) {r s : Run} (hr : r ∈ l)
    (hs : s ∈ l) : r = s ∨ r.hi < s.lo ∨ s.hi < r.lo := by
  induction l with
  | nil => cases hr
  | cons t l ih =>
    obtain ⟨hfirst, hrest⟩ := List.pairwise_cons.mp h
    rcases List.mem_cons.mp hr with rfl | hrl
    · rcases List.mem_cons.mp hs with rfl | hsl
      · exact .inl rfl
      · exact .inr (.inl (hfirst s hsl))
    · rcases List.mem_cons.mp hs with rfl | hsl
      · exact .inr (.inr (hfirst r hrl))
      · exact ih hrest hrl hsl

theorem pages_subset_iff {r s : Run} (hr : r.Proper) (hs : s.Proper) :
    r.pages ⊆ s.pages ↔ s.lo ≤ r.lo ∧ r.hi ≤ s.hi := by
  constructor
  · intro h
    have hlo := (Run.mem_pages hs.noWrap).mp (h hr.mem_lo)
    obtain ⟨p, hp, hhi⟩ := hr.exists_last
    have hlast := (Run.mem_pages hs.noWrap).mp (h hp)
    change s.lo ≤ r.lo ∧ _ at hlo
    omega
  · rintro ⟨hlo, hhi⟩ p hp
    have hin := (Run.mem_pages hr.noWrap).mp hp
    exact (Run.mem_pages hs.noWrap).mpr (by omega)

/-- A run of pages of runs that do not touch lies in one of them. -/
theorem exists_of_subset {l : List Run} (hproper : ∀ r ∈ l, r.Proper)
    (hapart : l.Pairwise fun r s => r.hi < s.lo) {s : Run} (hs : s.Proper) (h : s.pages ⊆ covered l) :
    ∃ r ∈ l, s.pages ⊆ r.pages := by
  obtain ⟨r, hr, hin⟩ := h hs.mem_lo
  have hrp := hproper r hr
  have hlo := (Run.mem_pages hrp.noWrap).mp hin
  change r.lo ≤ s.lo ∧ s.lo < r.hi at hlo
  refine ⟨r, hr, (pages_subset_iff hs hrp).mpr ⟨hlo.1, ?_⟩⟩
  by_contra hlt
  -- The page after the run would be in another.
  have hwrap : r.hi < 2 ^ 32 := hrp.noWrap
  have hpage : (UInt32.ofNat r.hi).toNat = r.hi := UInt32.toNat_ofNat_of_lt' hwrap
  have hnext : UInt32.ofNat r.hi ∈ s.pages := (Run.mem_pages hs.noWrap).mpr (by omega)
  obtain ⟨t, ht, htin⟩ := h hnext
  have htp := (Run.mem_pages (hproper t ht).noWrap).mp htin
  have hrlt := hrp.lt
  rcases eq_or_apart hapart hr ht with rfl | hapart | hapart <;> omega

/-- The holes are the maximal runs of unmapped pages. -/
theorem Holes.mem_iff {run : Run} {mapped : Set UInt32} {holes : List Run} (h : Holes run mapped holes)
    (r : Run) : r ∈ holes ↔ IsHole run mapped r := by
  constructor
  · intro hr
    have hrp := h.proper r hr
    refine ⟨hrp, fun p hp => h.pages ▸ ⟨r, hr, hp⟩, fun s hs hsub hrs => ?_⟩
    obtain ⟨t, ht, hst⟩ := exists_of_subset h.proper h.apart hs (h.pages ▸ hsub)
    have htp := h.proper t ht
    have h1 := (pages_subset_iff hrp hs).mp hrs
    have h2 := (pages_subset_iff hs htp).mp hst
    have hlt := hrp.lt
    rcases eq_or_apart h.apart hr ht with rfl | hapart | hapart
    · exact Run.eq_iff.mpr (by omega)
    · omega
    · omega
  · rintro ⟨hrp, hsub, hmax⟩
    obtain ⟨t, ht, hrt⟩ := exists_of_subset h.proper h.apart hrp (h.pages ▸ hsub)
    rw [← hmax t (h.proper t ht) (fun p hp => h.pages ▸ ⟨t, ht, hp⟩) hrt]
    exact ht

/-! ### What a scan leaves -/

/-- What a scan of `runs` leaves of a range, and the holes it has put aside: each before one of the runs,
and before what is left. -/
structure Scanned (current : Run) (runs : List Run) (left : Run) (holes : List Run) : Prop where
  within : left = {} ∨ left.Proper ∧ current.lo ≤ left.lo ∧ left.hi ≤ current.hi
  hole : ∀ h ∈ holes, h.Proper ∧ current.lo ≤ h.lo ∧ (∃ r ∈ runs, h.hi ≤ r.lo) ∧
    (left.Proper → h.hi < left.lo)
  apart : holes.Pairwise fun r s => r.hi < s.lo
  pages : covered holes ∪ left.pages = current.pages \ covered runs

section Scanned

variable {current left : Run} {runs holes : List Run}

@[simp]
theorem pages_empty : ({} : Run).pages = ∅ := pages_of_isEmpty rfl

theorem not_proper_empty : ¬ ({} : Run).Proper := fun h => absurd h.lt (lt_irrefl _)

theorem noWrap_of_empty_or (h : current = {} ∨ current.Proper) : current.NoWrap := by
  rcases h with rfl | h
  · decide
  · exact h.noWrap

/-- Runs with no page of the range. -/
theorem Scanned.skip (h : current = {} ∨ current.Proper) (hdisjoint : Disjoint current.pages (covered runs)) :
    Scanned current runs current [] where
  within := h.imp_right fun hp => ⟨hp, le_rfl, le_rfl⟩
  hole _ := nofun
  apart := .nil
  pages := by rw [covered_nil, Set.empty_union, hdisjoint.sdiff_eq_left]

theorem disjoint_of_sides (hruns : ∀ r ∈ runs, r.NoWrap) (hcurrent : current.NoWrap)
    (h : ∀ r ∈ runs, r.hi ≤ current.lo ∨ current.hi ≤ r.lo) : Disjoint current.pages (covered runs) := by
  rw [Set.disjoint_left]
  rintro p hp ⟨r, hr, hpr⟩
  have h1 := (Run.mem_pages hcurrent).mp hp
  have h2 := (Run.mem_pages (hruns r hr)).mp hpr
  have h3 := h r hr
  omega

/-- A scan goes on with the runs after the first ones. -/
theorem Scanned.trans {left' : Run} {runs' holes' : List Run} (hasc : Ascending (runs ++ runs'))
    (h : Scanned current runs left holes) (h' : Scanned left runs' left' holes') :
    Scanned current (runs ++ runs') left' (holes ++ holes') := by
  obtain ⟨hruns, hruns', hsep⟩ := ascending_append.mp hasc
  -- What is left in the end was left in the middle.
  have hmiddle : left'.Proper → left.Proper ∧ left.lo ≤ left'.lo ∧ left'.hi ≤ left.hi ∧
      current.lo ≤ left.lo ∧ left.hi ≤ current.hi := fun hp => by
    rcases h'.within with rfl | ⟨-, hlo, hhi⟩
    · exact absurd hp not_proper_empty
    · rcases h.within with rfl | ⟨hproper, hwithin⟩
      · have hlt := hp.lt
        have hzero : ({} : Run).lo = 0 ∧ ({} : Run).hi = 0 := ⟨rfl, rfl⟩
        omega
      · exact ⟨hproper, hlo, hhi, hwithin⟩
  have hlate : ∀ s ∈ holes', left.Proper ∧ current.lo ≤ left.lo := fun s hs => by
    rcases h.within with rfl | ⟨hproper, hlo, -⟩
    · have hmem : s.pageOffset ∈ covered holes' ∪ left'.pages :=
        .inl ⟨s, hs, (h'.hole s hs).1.mem_lo⟩
      rw [h'.pages, pages_empty, Set.empty_sdiff] at hmem
      cases hmem
    · exact ⟨hproper, hlo⟩
  refine ⟨?_, fun s hs => ?_, List.pairwise_append.mpr ⟨h.apart, h'.apart, fun r hr s hs => ?_⟩, ?_⟩
  · rcases h'.within with hempty | ⟨hp, -⟩
    · exact .inl hempty
    · obtain ⟨-, hlo, hhi, hlo', hhi'⟩ := hmiddle hp
      exact .inr ⟨hp, hlo'.trans hlo, hhi.trans hhi'⟩
  · rcases List.mem_append.mp hs with hs | hs
    · obtain ⟨hp, hlo, ⟨r, hr, hle⟩, hbefore⟩ := h.hole s hs
      refine ⟨hp, hlo, ⟨r, List.mem_append_left _ hr, hle⟩, fun hleft => ?_⟩
      obtain ⟨hproper, hmid, -⟩ := hmiddle hleft
      exact (hbefore hproper).trans_le hmid
    · obtain ⟨hp, hlo, ⟨r, hr, hle⟩, hbefore⟩ := h'.hole s hs
      exact ⟨hp, (hlate s hs).2.trans hlo, ⟨r, List.mem_append_right _ hr, hle⟩, hbefore⟩
  · exact ((h.hole r hr).2.2.2 (hlate s hs).1).trans_le (h'.hole s hs).2.1
  · have hdisjoint : Disjoint (covered holes) (covered runs') := by
      rw [Set.disjoint_left]
      rintro p ⟨s, hs, hps⟩ ⟨t, ht, hpt⟩
      obtain ⟨hp, -, ⟨r, hr, hle⟩, -⟩ := h.hole s hs
      have h1 := (Run.mem_pages hp.noWrap).mp hps
      have h2 := (Run.mem_pages (hruns'.proper t ht).noWrap).mp hpt
      have h3 := hsep r hr t ht
      have h4 := (hruns.proper r hr).lt
      omega
    rw [covered_append, covered_append, Set.union_assoc, h'.pages, ← Set.sdiff_sdiff, ← h.pages,
      Set.union_sdiff_distrib, hdisjoint.sdiff_eq_left]

/-- The range with one run taken off. -/
theorem Scanned.trim {r : Run} (hr : r.Proper) (hcurrent : current.NoWrap)
    (hover : current.lo < r.hi ∧ r.lo < current.hi) (hin : ¬ (current.lo < r.lo ∧ r.hi < current.hi)) :
    ∃ left, current.subtractOverlap r = some left ∧ Scanned current [r] left [] := by
  obtain ⟨left, hleft, hpages, hwithin⟩ := Run.subtractOverlap_spec hr hcurrent hover hin
  refine ⟨left, hleft, hwithin, fun _ => nofun, .nil, ?_⟩
  rw [covered_nil, Set.empty_union, hpages, covered_cons, covered_nil, Set.union_empty]

/-- The range with all its pages in one run. -/
theorem Scanned.whole {r : Run} (hr : r.Proper) (hcurrent : current.NoWrap)
    (h : r.lo ≤ current.lo ∧ current.hi ≤ r.hi) : Scanned current [r] {} [] where
  within := .inl rfl
  hole _ := nofun
  apart := .nil
  pages := by
    rw [covered_nil, Set.empty_union, pages_empty, covered_cons, covered_nil, Set.union_empty, eq_comm,
      Set.sdiff_eq_empty]
    intro p hp
    have hin := (Run.mem_pages hcurrent).mp hp
    exact (Run.mem_pages hr.noWrap).mpr (by omega)

/-- The range cut in two by a run inside it. -/
theorem Scanned.cut {r : Run} (hr : r.Proper) (hcurrent : current.NoWrap)
    (h : current.lo < r.lo ∧ r.hi < current.hi) :
    (current.subtractInside r).1.Proper ∧ (current.subtractInside r).2.Proper ∧
      Scanned current [r] (current.subtractInside r).2 [(current.subtractInside r).1] := by
  have hrstop := Run.toNat_stop hr.noWrap
  have hstop := Run.toNat_stop hcurrent
  have hoffset : current.pageOffset.toNat = current.lo := rfl
  have hroffset : r.pageOffset.toNat = r.lo := rfl
  have hrlt := hr.lt
  obtain ⟨hbefore, ⟨hblo, -⟩, hbpages⟩ :=
    Run.piece_spec current current.pageOffset r.pageOffset (by omega) (by omega) (by omega)
  obtain ⟨hafter, ⟨halo, hahi⟩, hapages⟩ :=
    Run.piece_spec current r.stop current.stop (by omega) (by omega) (by omega)
  obtain ⟨-, hbhi⟩ := @Run.ends_mk current.pageOffset r.pageOffset (by omega)
  obtain ⟨hafterLo, -⟩ := @Run.ends_mk r.stop current.stop (by omega)
  refine ⟨hbefore, hafter, .inr ⟨hafter, halo, hahi⟩, fun s hs => ?_, List.pairwise_singleton _ _, ?_⟩
  · rw [List.mem_singleton.mp hs]
    exact ⟨hbefore, hblo, ⟨r, List.mem_singleton_self _, hbhi.le⟩, fun _ =>
      (hbhi.trans_lt (by omega)).trans_eq hafterLo.symm⟩
  · ext p
    simp only [covered_cons, covered_nil, Set.union_empty, Set.mem_union, Set.mem_sdiff]
    rw [Run.mem_pages hcurrent, Run.mem_pages hr.noWrap]
    change p ∈ (⟨current.pageOffset, r.pageOffset - current.pageOffset⟩ : Run).pages ∨
      p ∈ (⟨r.stop, current.stop - r.stop⟩ : Run).pages ↔ _
    rw [hbpages, hapages]
    omega

/-- What is left is nothing, or a proper run. -/
theorem Scanned.left_proper (h : Scanned current runs left holes) : left = {} ∨ left.Proper :=
  h.within.imp_right And.left

/-- What is left of a range has no page past its end. -/
theorem Scanned.disjoint_of_le {rest : List Run} (h : Scanned current runs left holes)
    (hrest : ∀ r ∈ rest, r.NoWrap) (hle : ∀ r ∈ rest, current.hi ≤ r.lo) :
    Disjoint left.pages (covered rest) := by
  rcases h.within with rfl | ⟨hp, -, hhi⟩
  · rw [pages_empty]
    exact Set.empty_disjoint _
  · exact disjoint_of_sides hrest hp.noWrap fun r hr => .inr (hhi.trans (hle r hr))

end Scanned

/-! ### The loops -/

/-- The state of the scan with the holes put aside, or the raise where they are too many. -/
def scanResult (left : Run) (unmapped holes : List Run) : Except Failure (Run × List Run) :=
  if unmapped.length + holes.length ≤ unmappedMax then .ok (left, unmapped ++ holes)
  else .error (.raised .trackerUnmappedTooComplex)

theorem scanResult_nil {left : Run} {unmapped : List Run} (h : unmapped.length ≤ unmappedMax) :
    scanResult left unmapped [] = .ok (left, unmapped) := by
  rw [scanResult, List.length_nil, Nat.add_zero, if_pos h, List.append_nil]

namespace Blocks

/-- The inner loop scans the runs of a block. -/
theorem unmappedLoop_spec {runs : List Run} (hruns : Ascending runs) {current : Run}
    (hcurrent : current = {} ∨ current.Proper) :
    ∃ left holes, Scanned current runs left holes ∧ ∀ unmapped, unmapped.length ≤ unmappedMax →
      unmappedLoop runs current unmapped = scanResult left unmapped holes := by
  induction runs generalizing current with
  | nil =>
    refine ⟨current, [], .skip hcurrent ?_, fun unmapped h => (scanResult_nil h).symm⟩
    rw [covered_nil]
    exact Set.disjoint_empty _
  | cons r runs ih =>
    obtain ⟨hr, hrest, hfirst⟩ := ascending_cons.mp hruns
    have hwrap := noWrap_of_empty_or hcurrent
    have hspec := Run.compare_spec hr.noWrap hwrap hr.pos
    have hrlt := hr.lt
    have hle := current.lo_le_hi
    -- What is left after the first run is scanned on, or has no page of the rest.
    have hgoOn : ∀ {u : Run}, Scanned current [r] u [] → (∀ unmapped,
        unmappedLoop (r :: runs) current unmapped = unmappedLoop runs u unmapped) →
        ∃ left holes, Scanned current (r :: runs) left holes ∧
          ∀ unmapped, unmapped.length ≤ unmappedMax →
            unmappedLoop (r :: runs) current unmapped = scanResult left unmapped holes := by
      intro u hu hloop
      obtain ⟨left, holes, hscan, hrun⟩ := ih hrest hu.left_proper
      refine ⟨left, holes, hu.trans hruns hscan, fun unmapped h => ?_⟩
      rw [hloop, hrun unmapped h]
    have hstop : ∀ {u : Run}, Scanned current [r] u [] → (∀ s ∈ runs, current.hi ≤ s.lo) →
        (∀ unmapped, unmappedLoop (r :: runs) current unmapped = .ok (u, unmapped)) →
        ∃ left holes, Scanned current (r :: runs) left holes ∧
          ∀ unmapped, unmapped.length ≤ unmappedMax →
            unmappedLoop (r :: runs) current unmapped = scanResult left unmapped holes := by
      intro u hu hafter hloop
      have hdisjoint := hu.disjoint_of_le (fun s hs => (hrest.proper s hs).noWrap) hafter
      refine ⟨u, [], hu.trans hruns (.skip hu.left_proper hdisjoint), fun unmapped h => ?_⟩
      rw [hloop, scanResult_nil h]
    have hskip : r.hi ≤ current.lo ∨ current.hi ≤ r.lo → Scanned current [r] current [] := fun h => by
      refine .skip hcurrent (disjoint_of_sides ?_ hwrap ?_)
      · simpa using hr.noWrap
      · simpa using h
    cases hcmp : r.compare current <;> rw [hcmp] at hspec <;> dsimp only at hspec
    case less | lessAdjacent =>
      refine hgoOn (hskip (.inl (by omega))) fun unmapped => ?_
      rw [unmappedLoop, hcmp]
    case lessOverlap | insideEdge =>
      obtain ⟨u, hu, hscan⟩ := Scanned.trim hr hwrap ⟨by omega, by omega⟩ (by omega)
      refine hgoOn hscan fun unmapped => ?_
      rw [unmappedLoop, hcmp]
      dsimp only
      rw [hu]
    case equal | contains =>
      refine hstop (.whole hr hwrap ⟨by omega, by omega⟩) (fun s hs => ?_) fun unmapped => ?_
      · have := hfirst s hs
        omega
      · rw [unmappedLoop, hcmp]
    case greaterOverlap =>
      obtain ⟨u, hu, hscan⟩ := Scanned.trim hr hwrap ⟨by omega, by omega⟩ (by omega)
      refine hstop hscan (fun s hs => ?_) fun unmapped => ?_
      · have := hfirst s hs
        omega
      · rw [unmappedLoop, hcmp]
        dsimp only
        rw [hu]
    case greaterAdjacent | greater =>
      refine hstop (hskip (.inr (by omega))) (fun s hs => ?_) fun unmapped => ?_
      · have := hfirst s hs
        omega
      · rw [unmappedLoop, hcmp]
    case inside =>
      obtain ⟨hbefore, hafter, hscan⟩ := Scanned.cut hr hwrap hspec
      obtain ⟨left, holes, hscan', hrun⟩ := ih hrest (.inr hafter)
      refine ⟨left, _, hscan.trans hruns hscan', fun unmapped h => ?_⟩
      rw [unmappedLoop, hcmp]
      dsimp only
      rw [hbefore.isEmpty, if_neg (by decide)]
      by_cases hroom : unmapped.length < unmappedMax
      · rw [if_pos hroom, hrun _ (by rw [List.length_append]; exact hroom)]
        unfold scanResult
        simp only [List.length_append, List.length_cons, List.length_nil, List.append_assoc,
          Nat.add_assoc]
      · rw [if_neg hroom, scanResult, if_neg]
        simp only [List.length_append, List.length_cons, List.length_nil]
        omega

/-- The outer loop scans the runs of all blocks. -/
theorem unmappedBlocks_spec {blocks : List RunBlock} (hblocks : ∀ b ∈ blocks, b.Ordered)
    (hasc : Ascending (runsOf blocks)) {current : Run} (hcurrent : current = {} ∨ current.Proper) :
    ∃ left holes, Scanned current (runsOf blocks) left holes ∧
      ∀ unmapped, unmapped.length ≤ unmappedMax →
        unmappedBlocks blocks current unmapped = scanResult left unmapped holes := by
  induction blocks generalizing current with
  | nil =>
    refine ⟨current, [], .skip hcurrent ?_, fun unmapped h => (scanResult_nil h).symm⟩
    rw [runsOf_nil, covered_nil]
    exact Set.disjoint_empty _
  | cons b blocks ih =>
    obtain ⟨hb, hrest⟩ := List.forall_mem_cons.mp hblocks
    rw [runsOf_cons] at hasc ⊢
    obtain ⟨hbAsc, hrestAsc, hsep⟩ := ascending_append.mp hasc
    obtain ⟨hbound, -, last, hlast, hlastHi⟩ := hb.hull.runs hb.ascending
    have hafterHull : ∀ s ∈ runsOf blocks, b.blockRun.hi ≤ s.lo := fun s hs => by
      rw [← hlastHi]
      exact hsep last hlast s hs
    have hhull := hb.hull.proper
    have hhlt := hhull.lt
    have hwrap := noWrap_of_empty_or hcurrent
    have hle := current.lo_le_hi
    have hspec := Run.compare_spec hhull.noWrap hwrap hhull.pos
    have hrestWrap : ∀ s ∈ runsOf blocks, s.NoWrap := fun s hs => (hrestAsc.proper s hs).noWrap
    have hbWrap : ∀ s ∈ b.runs, s.NoWrap := fun s hs => (hbAsc.proper s hs).noWrap
    cases hcmp : b.blockRun.compare current <;> rw [hcmp] at hspec <;> dsimp only at hspec
    case less | lessAdjacent =>
      obtain ⟨left, holes, hscan, hrun⟩ := ih hrest hrestAsc hcurrent
      have hskip : Scanned current b.runs current [] :=
        .skip hcurrent (disjoint_of_sides hbWrap hwrap fun s hs => .inl (by
          have := hbound s hs
          omega))
      refine ⟨left, holes, hskip.trans hasc hscan, fun unmapped h => ?_⟩
      rw [unmappedBlocks, RunBlock.compare, hcmp]
      exact hrun unmapped h
    case greaterAdjacent | greater =>
      refine ⟨current, [], .skip hcurrent (disjoint_of_sides ?_ hwrap ?_), fun unmapped h => ?_⟩
      · exact List.forall_mem_append.mpr ⟨hbWrap, hrestWrap⟩
      · refine List.forall_mem_append.mpr ⟨fun s hs => .inr ?_, fun s hs => .inr ?_⟩
        · have := hbound s hs
          omega
        · have := hafterHull s hs
          omega
      · rw [unmappedBlocks, RunBlock.compare, hcmp, scanResult_nil h]
    case equal | contains | greaterOverlap =>
      obtain ⟨left, holes, hscan, hrun⟩ := unmappedLoop_spec hbAsc hcurrent
      have hdisjoint : Disjoint left.pages (covered (runsOf blocks)) :=
        hscan.disjoint_of_le hrestWrap fun s hs => by
          have := hafterHull s hs
          omega
      refine ⟨left, holes, ?_, fun unmapped h => ?_⟩
      · have hall := hscan.trans hasc (.skip hscan.left_proper hdisjoint)
        rwa [List.append_nil] at hall
      · rw [unmappedBlocks, RunBlock.compare, hcmp]
        exact hrun unmapped h
    case lessOverlap | inside | insideEdge =>
      obtain ⟨left, holes, hscan, hrun⟩ := unmappedLoop_spec hbAsc hcurrent
      obtain ⟨left', holes', hscan', hrun'⟩ := ih hrest hrestAsc hscan.left_proper
      refine ⟨left', holes ++ holes', hscan.trans hasc hscan', fun unmapped h => ?_⟩
      rw [unmappedBlocks, RunBlock.compare, hcmp]
      dsimp only
      rw [hrun unmapped h]
      unfold scanResult
      by_cases hroom : unmapped.length + holes.length ≤ unmappedMax
      · rw [if_pos hroom]
        dsimp only
        rw [hrun' _ (by rwa [List.length_append]), scanResult]
        simp only [List.length_append, List.append_assoc, Nat.add_assoc]
      · rw [if_neg hroom, if_neg]
        rw [List.length_append]
        omega

/-- The unmapped runs are the holes, or a raise where they are too many. -/
theorem unmappedRuns_spec {blocks : List RunBlock} (hblocks : Ordered blocks) {run : Run}
    (hrun : run.Proper) : ∃ holes, Holes run (pages blocks) holes ∧
      (holes.length ≤ unmappedMax → unmappedRuns blocks run = .ok holes) ∧
      (unmappedMax < holes.length → ∃ kind, unmappedRuns blocks run = .error (.raised kind)) := by
  have hasc := (sorted_iff hblocks.block).mp hblocks.sorted
  obtain ⟨left, holes, hscan, hresult⟩ := unmappedBlocks_spec hblocks.block hasc (.inr hrun)
  have hfirst := hresult [] (Nat.zero_le _)
  rw [scanResult, List.length_nil, Nat.zero_add, List.nil_append] at hfirst
  unfold unmappedRuns
  rw [hfirst]
  have hproper : ∀ s ∈ holes, s.Proper := fun s hs => (hscan.hole s hs).1
  rcases hscan.left_proper with rfl | hleft
  · refine ⟨holes, ⟨hproper, hscan.apart, ?_⟩, fun h => ?_, fun h => ?_⟩
    · have hpages := hscan.pages
      rwa [pages_empty, Set.union_empty] at hpages
    · rw [if_pos h]
      rfl
    · rw [if_neg (by omega)]
      exact ⟨_, rfl⟩
  · refine ⟨holes ++ [left], ⟨?_, ?_, ?_⟩, fun h => ?_, fun h => ?_⟩
    · exact List.forall_mem_append.mpr ⟨hproper, by simpa using hleft⟩
    · refine List.pairwise_append.mpr ⟨hscan.apart, List.pairwise_singleton _ _, fun r hr s hs => ?_⟩
      rw [List.mem_singleton.mp hs]
      exact (hscan.hole r hr).2.2.2 hleft
    · rw [covered_append, covered_cons, covered_nil, Set.union_empty]
      exact hscan.pages
    · rw [List.length_append, List.length_singleton] at h
      rw [if_pos (by omega)]
      dsimp only
      rw [hleft.isEmpty, if_neg (by decide), if_pos (by omega)]
    · rw [List.length_append, List.length_singleton] at h
      by_cases hroom : holes.length ≤ unmappedMax
      · rw [if_pos hroom]
        dsimp only
        rw [hleft.isEmpty, if_neg (by decide), if_neg (by omega)]
        exact ⟨_, rfl⟩
      · rw [if_neg hroom]
        exact ⟨_, rfl⟩

end Blocks

namespace RangeTracker

variable (a : Arch)

/-- The bytes of pages are whole pages. -/
theorem toNat_shiftLeft_page (n : UInt32) :
    (n.toUInt64 <<< UInt64.ofNat (pageShift a)).toNat = n.toNat * 2 ^ pageShift a := by
  have hn := n.toNat_lt
  have hshift : pageShift a < 64 := by cases a <;> decide
  rw [UInt64.toNat_shiftLeft_ofNat hshift]
  · rw [UInt32.toNat_toUInt64]
  · rw [UInt32.toNat_toUInt64]
    cases a <;> simp only [pageShift] <;> omega

theorem and_pageMask_shiftLeft (n : UInt32) :
    (n.toUInt64 <<< UInt64.ofNat (pageShift a)) &&& pageMask a = 0 := by
  have hmask : (pageMask a).toNat = 2 ^ pageShift a - 1 := by cases a <;> decide
  rw [← UInt64.toNat_inj, UInt64.toNat_and, hmask, Nat.and_two_pow_sub_one_eq_mod,
    toNat_shiftLeft_page, Nat.mul_mod_left]
  rfl

theorem shiftRight_shiftLeft_page (n : UInt32) :
    (n.toUInt64 <<< UInt64.ofNat (pageShift a) >>> UInt64.ofNat (pageShift a)).toUInt32 = n := by
  have hshift : pageShift a < 64 := by cases a <;> decide
  have hn := n.toNat_lt
  rw [← UInt32.toNat_inj, UInt64.toNat_toUInt32, UInt64.toNat_shiftRight_ofNat _ hshift,
    toNat_shiftLeft_page, Nat.mul_div_cancel _ (Nat.two_pow_pos _)]
  exact Nat.mod_eq_of_lt hn

/-- The bytes of a proper run are of that run. -/
theorem addToRange_getRange {run : Run} (hrun : run.Proper) (blocks : List RunBlock) :
    addToRange a blocks (getRange a run).1 (getRange a run).2 = Blocks.addToRange blocks run := by
  have hlength : run.pageLength.toUInt64 <<< UInt64.ofNat (pageShift a) ≠ 0 := by
    intro hzero
    have hnat := congrArg UInt64.toNat hzero
    rw [toNat_shiftLeft_page] at hnat
    have hpos : 0 < run.pageLength.toNat := by
      have hlt := hrun.lt
      unfold Run.lo Run.hi at hlt
      omega
    exact absurd hnat (Nat.mul_pos hpos (Nat.two_pow_pos _)).ne'
  unfold addToRange calculatePageRunAligned getRange
  dsimp only
  rw [if_neg, if_neg]
  · rw [shiftRight_shiftLeft_page, shiftRight_shiftLeft_page]
  · rw [and_pageMask_shiftLeft]
    exact not_not.mpr rfl
  · rw [and_pageMask_shiftLeft]
    rintro (hzero | hne)
    · exact hlength hzero
    · exact hne rfl

/-! ### Visits -/

section Visits

universe u

variable {σ : Type u} (visitor : UInt64 → UInt64 → σ → Except Failure Bool × σ)

/-- A visitor, with what it is given. -/
def recorded (offset length : UInt64) (s : σ × List (UInt64 × UInt64)) :
    Except Failure Bool × σ × List (UInt64 × UInt64) :=
  ((visitor offset length s.1).1, (visitor offset length s.1).2, s.2 ++ [(offset, length)])

/-- The visits are of the first of the runs, and of all where the visitor goes on. -/
theorem visitRanges_recorded (runs : List Run) (s : σ) (log : List (UInt64 × UInt64)) :
    (∃ n, (visitRanges a (recorded visitor) runs (s, log)).2.2 = log ++ (runs.take n).map (getRange a)) ∧
    ((∀ offset length s, (visitor offset length s).1 = .ok true) →
      (visitRanges a (recorded visitor) runs (s, log)).1 = .ok () ∧
      (visitRanges a (recorded visitor) runs (s, log)).2.2 = log ++ runs.map (getRange a)) := by
  induction runs generalizing s log with
  | nil => exact ⟨⟨0, by simp [visitRanges]⟩, fun _ => ⟨rfl, by simp [visitRanges]⟩⟩
  | cons run runs ih =>
    unfold visitRanges recorded
    dsimp only
    cases hanswer : (visitor (getRange a run).1 (getRange a run).2 s).1 with
    | error e => exact ⟨⟨1, rfl⟩, fun h => absurd (h _ _ s) (by rw [hanswer]; nofun)⟩
    | ok goesOn =>
      cases goesOn with
      | false => exact ⟨⟨1, rfl⟩, fun h => absurd (h _ _ s) (by rw [hanswer]; nofun)⟩
      | true =>
        obtain ⟨⟨n, hn⟩, hall⟩ := ih (visitor (getRange a run).1 (getRange a run).2 s).2
          (log ++ [((getRange a run).1, (getRange a run).2)])
        refine ⟨⟨n + 1, ?_⟩, fun h => ?_⟩
        · refine hn.trans ?_
          rw [List.take_succ_cons, List.map_cons, List.append_assoc]
          rfl
        · refine ⟨(hall h).1, (hall h).2.trans ?_⟩
          rw [List.map_cons, List.append_assoc]
          rfl

/-- Holes that are all added are mapped then, and the tracker stays in order. -/
theorem visitRanges_adds {tracker : σ → List RunBlock}
    (hvisitor : ∀ offset length s goesOn s', visitor offset length s = (.ok goesOn, s') →
      goesOn = true ∧ addToRange a (tracker s) offset length = .ok (tracker s'))
    {holes : List Run} {s s' : σ} (hord : Blocks.Ordered (tracker s)) (hproper : ∀ r ∈ holes, r.Proper)
    (hapart : holes.Pairwise fun r s => r.hi < s.lo)
    (hdisjoint : Disjoint (Blocks.pages (tracker s)) (covered holes))
    (h : visitRanges a visitor holes s = (.ok (), s')) :
    Blocks.Ordered (tracker s') ∧
      Blocks.pages (tracker s') = Blocks.pages (tracker s) ∪ covered holes := by
  induction holes generalizing s with
  | nil =>
    obtain rfl := (Prod.mk.inj h).2
    rw [covered_nil, Set.union_empty]
    exact ⟨hord, rfl⟩
  | cons run holes ih =>
    obtain ⟨hrun, hrest⟩ := List.forall_mem_cons.mp hproper
    obtain ⟨hfirst, hapart⟩ := List.pairwise_cons.mp hapart
    rw [covered_cons, Set.disjoint_union_right] at hdisjoint
    unfold visitRanges at h
    split at h
    · cases h
    next t hvisit => exact absurd (hvisitor _ _ _ _ _ hvisit).1 nofun
    next t hvisit =>
      have hadd := (hvisitor _ _ _ _ _ hvisit).2
      rw [addToRange_getRange a hrun] at hadd
      have hpages := Blocks.addToRange_pages hord hrun.noWrap hadd
      have hapartPages : Disjoint run.pages (covered holes) :=
        disjoint_of_sides (fun r hr => (hrest r hr).noWrap) hrun.noWrap fun r hr =>
          .inr (hfirst r hr).le
      obtain ⟨hord', hcov⟩ := ih (Blocks.addToRange_ordered hord hrun hdisjoint.1 hadd) hrest hapart
        (by rw [hpages]; exact hdisjoint.2.union_left hapartPages) h
      exact ⟨hord', by rw [hcov, hpages, covered_cons, Set.union_assoc]⟩

/-- In a tracker in order the unmapped runs of a range are its holes in ascending order, and the visits are
of these; where there are more than 16 it raises before any visit. Once each is added none is left. -/
theorem unmapped_exact {blocks : List RunBlock} (hblocks : Blocks.Ordered blocks)
    {offset length : UInt64} {run : Run} (hrun : calculatePageRunUnaligned a offset length = .ok run)
    (hproper : run.Proper) :
    ∃ holes : List Run, (∀ r, r ∈ holes ↔ IsHole run (Blocks.pages blocks) r) ∧
      (holes.Pairwise fun r s => r.hi < s.lo) ∧
      (holes.length ≤ 16 → unmappedRuns a blocks offset length = .ok holes) ∧
      (16 < holes.length → ∃ kind, unmappedRuns a blocks offset length = .error (.raised kind)) ∧
      ∀ {σ : Type u} (visitor : UInt64 → UInt64 → σ → Except Failure Bool × σ) (s : σ),
        (holes.length ≤ 16 → (∃ n,
            (visitUnmappedRanges a (recorded visitor) blocks offset length (s, [])).2.2 =
              (holes.take n).map (getRange a)) ∧
          ((∀ offset length s, (visitor offset length s).1 = .ok true) →
            (visitUnmappedRanges a (recorded visitor) blocks offset length (s, [])).1 = .ok () ∧
            (visitUnmappedRanges a (recorded visitor) blocks offset length (s, [])).2.2 =
              holes.map (getRange a))) ∧
        (16 < holes.length → ∃ kind,
          visitUnmappedRanges a visitor blocks offset length s = (.error (.raised kind), s)) ∧
        ∀ tracker : σ → List RunBlock, tracker s = blocks →
          (∀ offset length s goesOn s', visitor offset length s = (.ok goesOn, s') →
            goesOn = true ∧ addToRange a (tracker s) offset length = .ok (tracker s')) →
          ∀ s', visitUnmappedRanges a visitor blocks offset length s = (.ok (), s') →
            unmappedRuns a (tracker s') offset length = .ok [] := by
  have hunmapped : ∀ blocks, unmappedRuns a blocks offset length = Blocks.unmappedRuns blocks run :=
    fun blocks => by rw [unmappedRuns, hrun]
  obtain ⟨holes, hholes, hfew, hmany⟩ := Blocks.unmappedRuns_spec hblocks hproper
  rw [← hunmapped] at hfew hmany
  refine ⟨holes, hholes.mem_iff, hholes.apart, hfew, hmany, fun visitor s =>
    ⟨fun h => ?_, fun h => ?_, fun tracker htracker hvisitor s' hvisit => ?_⟩⟩
  · unfold visitUnmappedRanges
    rw [hfew h]
    obtain ⟨hsome, hall⟩ := visitRanges_recorded a visitor holes s []
    exact ⟨hsome, hall⟩
  · obtain ⟨kind, hkind⟩ := hmany h
    refine ⟨kind, ?_⟩
    unfold visitUnmappedRanges
    rw [hkind]
  · have hlength : holes.length ≤ unmappedMax := by
      by_contra hlt
      obtain ⟨kind, hkind⟩ := hmany (not_le.mp hlt)
      unfold visitUnmappedRanges at hvisit
      rw [hkind] at hvisit
      cases hvisit
    unfold visitUnmappedRanges at hvisit
    rw [hfew hlength] at hvisit
    have hdisjoint : Disjoint (Blocks.pages (tracker s)) (covered holes) := by
      rw [htracker, hholes.pages]
      exact Set.disjoint_sdiff_right
    obtain ⟨hord, hpages⟩ := visitRanges_adds a visitor hvisitor (htracker ▸ hblocks) hholes.proper
      hholes.apart hdisjoint hvisit
    obtain ⟨holes', hholes', hfew', -⟩ := Blocks.unmappedRuns_spec hord hproper
    -- Every page of the range is mapped then.
    have hnone : covered holes' = ∅ := by
      rw [hholes'.pages, hpages, htracker, hholes.pages, Set.union_sdiff_self, Set.sdiff_eq_empty]
      exact Set.subset_union_right
    obtain rfl : holes' = [] := by
      refine List.eq_nil_iff_forall_not_mem.mpr fun r hr => ?_
      have hmem : r.pageOffset ∈ covered holes' := ⟨r, hr, (hholes'.proper r hr).mem_lo⟩
      rw [hnone] at hmem
      cases hmem
    rw [hunmapped]
    exact hfew' (Nat.zero_le _)

end Visits

/-- Twenty pages around the ten mapped ones. -/
theorem unmapped_exact_tenPages : ∃ holes : List Run,
    (∀ r, r ∈ holes ↔ IsHole ⟨5, 20⟩ (Blocks.pages tenPages) r) ∧
    (holes.length ≤ 16 →
      unmappedRuns .other tenPages (5 * 2 ^ 14) (20 * 2 ^ 14) = .ok holes) := by
  obtain ⟨holes, hmem, -, hfew, -⟩ := @unmapped_exact.{0} .other tenPages tenPages_ordered
    (5 * 2 ^ 14) (20 * 2 ^ 14) ⟨5, 20⟩ (by decide) ⟨by decide, by decide⟩
  exact ⟨holes, hmem, hfew⟩

end RangeTracker

end ReimsVgpu.Memory.Tracker
