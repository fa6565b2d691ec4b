import ReimsVgpu.Memory.TrackerOrder

/-!
# The edits of a block

On a block whose runs ascend and whose hull is exact, with room for one run more, an add and a removal
return. An add leaves the pages of the block and the run. A removal takes out pages of the run only; its
scan starts at the last probe, the run's place or the one before, so that it may miss the run before the
place, which it then leaves as it is.

## Main definitions

* `RunBlock.WellFormed`: a block with its exact hull, empty or not.

## Main results

* `RunBlock.add_wellFormed`, `RunBlock.remove_wellFormed`.
-/

namespace ReimsVgpu.Memory.Tracker

namespace RunBlock

variable {b b' : RunBlock} {run : Run}

/-- Proper runs that ascend, and their exact hull; the empty block's is `{0, 0}`. -/
structure WellFormed (b : RunBlock) : Prop where
  ascending : Ascending b.runs
  empty : b.runs = [] → b.blockRun = {}
  hull : b.runs ≠ [] → IsHull b.blockRun (covered b.runs)

theorem Ordered.wellFormed (h : b.Ordered) : b.WellFormed :=
  ⟨h.ascending, fun hempty => absurd hempty h.nonempty, fun _ => h.hull⟩

theorem WellFormed.ordered (h : b.WellFormed) (hne : b.runs ≠ []) (hlen : b.runs.length ≤ runsPerBlock) :
    b.Ordered :=
  ⟨h.ascending, hne, hlen, h.hull hne⟩

/-- Runs in order, and the hull that `remove` computes. -/
theorem wellFormed_of_ends {b : RunBlock}
    (hruns : (∀ r ∈ b.runs, r.NoWrap ∧ r.lo < r.hi) ∧ b.runs.Pairwise fun r s => r.hi ≤ s.lo)
    (hhull : b.blockRun = hullOf b.runs) : b.WellFormed where
  ascending := ⟨fun r hr => ⟨(hruns.1 r hr).1, (hruns.1 r hr).2⟩, hruns.2⟩
  empty h := by rw [hhull, h]; rfl
  hull h := by
    rw [hhull]
    exact isHull_hullOf ⟨fun r hr => ⟨(hruns.1 r hr).1, (hruns.1 r hr).2⟩, hruns.2⟩ h

/-! ### Adds -/

/-- The loop of `add` meets its runs in order. -/
theorem cleanup_isOk {current : Run} {tail : List Run} (hcurrent : current.Proper)
    (htail : Ascending tail) (hle : ∀ r ∈ tail, current.lo ≤ r.lo) (k : ℕ) :
    ∃ found, cleanup current tail k = .ok found := by
  induction tail generalizing current k with
  | nil => exact ⟨_, rfl⟩
  | cons next rest ih =>
    obtain ⟨hnext, hrest, hfirst⟩ := ascending_cons.mp htail
    obtain ⟨hlenext, hlerest⟩ := List.forall_mem_cons.mp hle
    have hnlt := hnext.lt
    have hspec := Run.compare_spec hcurrent.noWrap hnext.noWrap hcurrent.pos
    rw [cleanup]
    cases hcmp : current.compare next <;> rw [hcmp] at hspec <;> dsimp only at hspec ⊢
    case less | lessAdjacent | equal | insideEdge => exact ⟨_, rfl⟩
    case lessOverlap =>
      obtain ⟨left, hleft⟩ :=
        Option.isSome_iff_exists.mp ((Run.subtractOverlap_isSome (.inl hcmp)).2 hcmp)
      rw [hleft]
      exact ⟨_, rfl⟩
    case contains =>
      obtain ⟨found, hfound⟩ := ih hcurrent hrest hlerest (k + 1)
      rw [hfound]
      exact ⟨_, rfl⟩
    case greaterOverlap =>
      obtain ⟨hmerged, hlo, -⟩ := Run.merge_spec hcurrent hnext.noWrap
      obtain ⟨found, hfound⟩ := ih hmerged hrest (fun r hr => by
        have := hlerest r hr
        omega) (k + 1)
      rw [hfound]
      exact ⟨_, rfl⟩
    case inside | greaterAdjacent | greater => omega

/-- Once the run is in place, `add` returns: it removes runs it has met. -/
theorem finishAdd_isOk {pre post : List Run} {current : Run} (hcurrent : current.Proper)
    (hpost : Ascending post) (hafter : ∀ r ∈ post, current.lo ≤ r.lo) :
    ∃ b', finishAdd b run (pre ++ current :: post) pre.length = .ok b' := by
  have hat : at' (pre ++ current :: post) pre.length = current := at'_append_right pre _ 0
  have hdrop : (pre ++ current :: post).drop (pre.length + 1) = post := by
    rw [← List.drop_drop, List.drop_left]
    rfl
  obtain ⟨⟨current', tail', k⟩, hcleanup⟩ := cleanup_isOk hcurrent hpost hafter 0
  obtain ⟨m, hm, hk, -⟩ := cleanup_spec hcurrent.noWrap hpost hafter hcleanup
  unfold finishAdd
  rw [hat, hdrop, List.take_left, hcleanup]
  dsimp only
  split
  · unfold removeAtIndex
    rw [if_pos (by simp only [List.length_append, List.length_cons]; omega)]
    exact ⟨_, rfl⟩
  · exact ⟨_, rfl⟩

/-- A proper run added to a block that has room. -/
theorem add_isOk (hb : b.Ordered) (hlen : b.runs.length < runsPerBlock) (hrun : run.Proper) :
    ∃ b', b.add run = .ok b' := by
  rcases add_eq hb hlen hrun.noWrap with
    ⟨hsame, -⟩ | ⟨pre, current, post, heq, -, -, hproper, hpost, -, hafter, -⟩
  · exact ⟨b, hsame⟩
  · obtain ⟨b', hb'⟩ : ∃ b', finishAdd b run (pre ++ current :: post) pre.length = .ok b' :=
      finishAdd_isOk (hproper hrun) hpost hafter
    exact ⟨b', heq.trans hb'⟩

/-- An add to a block that has room returns, keeps the block in order with its exact hull, and leaves the
pages of the block and the run. -/
theorem add_wellFormed (hb : b.WellFormed) (hlen : b.runs.length ≤ 255) (hrun : run.Proper) :
    ∃ b', b.add run = .ok b' ∧ b'.WellFormed ∧ covered b'.runs = covered b.runs ∪ run.pages := by
  have hroom : b.runs.length < runsPerBlock := Nat.lt_succ_of_le hlen
  rcases eq_or_ne b.runs [] with hempty | hne
  · refine ⟨⟨[run], run⟩, ?_, ⟨ascending_singleton hrun, nofun, fun _ => ?_⟩, ?_⟩
    · unfold add
      rw [if_neg (not_le.mpr hroom), if_pos hempty]
    · refine isHull_of_mem (ascending_singleton hrun) hrun.noWrap (by simp) ?_ ?_
      · exact ⟨run, List.mem_singleton_self _, rfl⟩
      · exact ⟨run, List.mem_singleton_self _, rfl⟩
    · simp [hempty]
  · have hord := hb.ordered hne hroom.le
    obtain ⟨b', hb'⟩ := add_isOk hord hroom hrun
    obtain ⟨hpages, hproper⟩ := add_spec hord hrun.noWrap hb'
    exact ⟨b', hb', (hproper hrun).1.wellFormed, hpages⟩

/-- A run added over two others. -/
theorem add_wellFormed_spanning : ∃ b', RunBlock.add ⟨[⟨0, 2⟩, ⟨4, 2⟩], ⟨0, 6⟩⟩ ⟨1, 4⟩ = .ok b' ∧
    b'.WellFormed ∧ covered b'.runs = covered [⟨0, 2⟩, ⟨4, 2⟩] ∪ (⟨1, 4⟩ : Run).pages :=
  add_wellFormed (wellFormed_of_ends (by decide) rfl) (by decide) ⟨by decide, by decide⟩

/-! ### Removals -/

/-- The scan of `remove` meets its runs in order: none equals the run once another is marked. -/
theorem scan_isOk {n i : ℕ} {tail : List Run} {marks : Marks} (htail : Ascending tail)
    (hrun : run.NoWrap) (hn : n < runsPerBlock)
    (hmarks : marks.start = none ∨ ∀ r ∈ tail, run.lo < r.lo) :
    ∃ found, scan run n i tail marks = .ok found := by
  induction tail generalizing i marks with
  | nil => exact ⟨_, rfl⟩
  | cons r tail ih =>
    obtain ⟨hr, htail, hfirst⟩ := ascending_cons.mp htail
    have hrlt := hr.lt
    have hspec := Run.compare_spec hr.noWrap hrun hr.pos
    have hrest : marks.start = none ∨ ∀ s ∈ tail, run.lo < s.lo :=
      hmarks.imp_right fun h s hs => h s (List.mem_cons_of_mem _ hs)
    have hmap : ∀ {r' : Run} {marks' : Marks}, (marks'.start = none ∨ ∀ s ∈ tail, run.lo < s.lo) →
        ∃ found, (scan run n (i + 1) tail marks').map (Scan.cons r') = .ok found := by
      intro r' marks' h
      obtain ⟨found, hfound⟩ := ih (i := i + 1) htail h
      rw [hfound]
      exact ⟨_, rfl⟩
    rw [scan]
    cases hcmp : r.compare run <;> rw [hcmp] at hspec <;> dsimp only at hspec ⊢
    case less | lessAdjacent | greaterAdjacent | greater => exact hmap hrest
    case lessOverlap =>
      obtain ⟨hsome, hempty⟩ := subtractOverlap_of_lessOverlap hr hrun hcmp
      rw [hsome]
      dsimp only
      rw [if_neg (by rw [hempty]; rintro ⟨⟩)]
      exact hmap hrest
    case equal =>
      rw [if_pos]
      · exact ⟨_, rfl⟩
      · refine hmarks.resolve_right fun h => ?_
        have := h r List.mem_cons_self
        omega
    case inside | insideEdge =>
      refine hmap (.inr fun s hs => ?_)
      have := hfirst s hs
      omega
    case contains =>
      rw [if_pos hn]
      exact ⟨_, rfl⟩
    case greaterOverlap =>
      obtain ⟨hsome, -⟩ := subtractOverlap_of_greaterOverlap hr hrun hcmp
      rw [hsome]
      exact ⟨_, rfl⟩

theorem remove_isOk (hb : Ascending b.runs) (hlen : b.runs.length < runsPerBlock)
    (hrun : run.NoWrap) : ∃ b', b.remove run = .ok b' := by
  have htail : Ascending (b.runs.drop (probe b.runs run)) := by
    rw [← List.take_append_drop (probe b.runs run) b.runs] at hb
    exact (ascending_append.mp hb).2.1
  obtain ⟨found, hscan⟩ : ∃ found, scan run b.runs.length (probe b.runs run)
      (b.runs.drop (probe b.runs run)) {} = .ok found := scan_isOk htail hrun hlen (.inl rfl)
  unfold remove
  rw [if_neg (not_le.mpr hlen)]
  dsimp only
  rw [hscan]
  rcases scan_spec htail hrun hscan with ⟨rfl, -⟩ | ⟨kept, marked, rest, -, hcutLen, rfl⟩
  · exact ⟨_, rfl⟩
  · dsimp only
    by_cases hmarked : marked = []
    · rw [if_pos hmarked, if_neg (by simp)]
      exact ⟨_, rfl⟩
    · have hpos : 0 < marked.length := List.length_pos_iff.mpr hmarked
      rw [if_neg hmarked, if_pos hpos.ne', Option.getD_some]
      unfold removeAtIndex
      rw [List.length_drop] at hcutLen
      rw [if_pos]
      · exact ⟨_, rfl⟩
      · rw [List.length_append, List.length_take_of_le (by omega)]
        simp only [List.length_append]
        omega

/-- Runs that end before a run share no page with it. -/
theorem disjoint_of_le {l : List Run} (hl : Ascending l) (hrun : run.NoWrap)
    (h : ∀ r ∈ l, r.hi ≤ run.lo) : Disjoint (covered l) run.pages := by
  rw [Set.disjoint_left]
  rintro p ⟨r, hr, hp⟩ hin
  have hle := h r hr
  have hpr := (Run.mem_pages (hl.proper r hr).noWrap).mp hp
  have hpi := (Run.mem_pages hrun).mp hin
  omega

/-- What the scan from the last probe misses: the run before the place, where it overlaps the run. -/
theorem missed_by_probe {runs : List Run} (hruns : Ascending runs) (hne : runs ≠ [])
    (hrun : run.NoWrap) :
    Disjoint (covered (runs.take (probe runs run))) run.pages ∨
      ∃ r ∈ runs, r.lo < run.lo ∧ run.lo < r.hi ∧
        (∀ s ∈ runs, s.lo < run.lo → run.lo < s.hi → s = r) ∧
        r ∈ runs.take (probe runs run) ∧
        covered (runs.take (probe runs run)) ∩ run.pages ⊆ r.pages := by
  obtain ⟨pre, post, rfl, hpre, hpost⟩ :=
    IntervalList.exists_split_of_pairwise hruns.sorted (P := fun r : Run => r.lo < run.lo)
      fun x y hxy hy => by
        have := x.lo_le_hi
        omega
  have hpost' : ∀ r ∈ post, run.lo ≤ r.lo := fun r hr => not_lt.mp (hpost r hr)
  have hplace := after_probe hruns hpre hpost' hne
  obtain ⟨hpreAsc, -, -⟩ := ascending_append.mp hruns
  generalize probe (pre ++ post) run = mid at hplace ⊢
  rcases eq_or_ne pre [] with rfl | hnonempty
  · have hmid : mid = 0 := by
      unfold after at hplace
      split_ifs at hplace
      exact hplace
    rw [hmid, List.take_zero, covered_nil]
    exact .inl (Set.empty_disjoint _)
  obtain ⟨front, last, rfl⟩ : ∃ front last, pre = front ++ [last] :=
    ⟨_, _, (List.dropLast_concat_getLast hnonempty).symm⟩
  obtain ⟨hfront, -, hsep⟩ := ascending_append.mp hpreAsc
  have hlast := hpre last (List.mem_append_right _ (List.mem_singleton_self _))
  have hbefore : ∀ r ∈ front, r.hi ≤ run.lo := fun r hr => by
    have := hsep r hr last (List.mem_singleton_self _)
    omega
  have hdisjoint := disjoint_of_le hfront hrun hbefore
  unfold after at hplace
  split_ifs at hplace with hless
  · -- The scan starts at the run before the place.
    obtain rfl : mid = front.length := by simpa using hplace
    rw [List.append_assoc, List.take_left]
    exact .inl hdisjoint
  · rw [hplace, List.take_left]
    by_cases hover : run.lo < last.hi
    · refine .inr ⟨last, by simp, hlast, hover, fun s hs hslo hshi => ?_, by simp, ?_⟩
      · rcases List.mem_append.mp hs with hs | hs
        · rcases List.mem_append.mp hs with hs | hs
          · have := hbefore s hs
            omega
          · exact List.mem_singleton.mp hs
        · have := hpost' s hs
          omega
      · rw [covered_append, covered_cons, covered_nil, Set.union_empty, Set.union_inter_distrib_right,
          hdisjoint.inter_eq, Set.empty_union]
        exact Set.inter_subset_left
    · refine .inl (disjoint_of_le hpreAsc hrun fun r hr => ?_)
      rcases List.mem_append.mp hr with hr | hr
      · exact hbefore r hr
      · rw [List.mem_singleton.mp hr]
        omega

/-- A removal from a block that has room returns, keeps the block in order with its exact hull, takes out
pages of the run only, and leaves of the run what the one run that starts before it and overlaps it has,
which it then leaves as it is. -/
theorem remove_wellFormed (hb : b.WellFormed) (hlen : b.runs.length ≤ 255) (hrun : run.Proper) :
    ∃ b', b.remove run = .ok b' ∧ b'.WellFormed ∧
      covered b.runs \ run.pages ⊆ covered b'.runs ∧ covered b'.runs ⊆ covered b.runs ∧
      (Disjoint (covered b'.runs) run.pages ∨
        ∃ r ∈ b.runs, r.lo < run.lo ∧ run.lo < r.hi ∧
          (∀ s ∈ b.runs, s.lo < run.lo → run.lo < s.hi → s = r) ∧
          r ∈ b'.runs ∧ covered b'.runs ∩ run.pages ⊆ r.pages) := by
  have hroom : b.runs.length < runsPerBlock := Nat.lt_succ_of_le hlen
  obtain ⟨b', hb'⟩ := remove_isOk hb.ascending hroom hrun.noWrap
  obtain ⟨hruns, -, hhull⟩ := remove_eq hb.ascending hrun.noWrap hb'
  rcases eq_or_ne b.runs [] with hempty | hne
  · have hnone : b'.runs = [] := by
      rw [hruns, hempty]
      simp
    have hzero : b'.blockRun = {} := by
      rcases hhull with hhull | ⟨-, r, hr, -⟩
      · rw [hhull, hnone]
        rfl
      · rw [hempty] at hr
        cases hr
    refine ⟨b', hb', ⟨?_, fun _ => hzero, fun h => absurd hnone h⟩, ?_, ?_, .inl ?_⟩
    · rw [hnone]
      exact ascending_nil
    · rw [hempty, covered_nil, Set.empty_sdiff]
      exact Set.empty_subset _
    · rw [hnone, covered_nil]
      exact Set.empty_subset _
    · rw [hnone, covered_nil]
      exact Set.empty_disjoint _
  · have hord := hb.ordered hne hroom.le
    obtain ⟨hasc, -, hsub, hsup, hexact⟩ := remove_spec hord hrun.noWrap hb'
    have hzero : b'.runs = [] → b'.blockRun = {} := fun hnone => by
      rcases hhull with hhull | ⟨-, r, hr, hlo, hhi⟩
      · rw [hhull, hnone]
        rfl
      · -- A run that is split leaves its first page.
        have hproper := hord.ascending.proper r hr
        have hmem := hsub ⟨⟨r, hr, hproper.mem_lo⟩, fun hin => by
          have := (Run.mem_pages hrun.noWrap).mp hin
          change run.lo ≤ r.lo ∧ _ at this
          omega⟩
        rw [hnone, covered_nil] at hmem
        cases hmem
    have htail : Ascending (b.runs.drop (probe b.runs run)) := by
      have hsplit := hord.ascending
      rw [← List.take_append_drop (probe b.runs run) b.runs] at hsplit
      exact (ascending_append.mp hsplit).2.1
    have hcut : Disjoint (covered ((b.runs.drop (probe b.runs run)).flatMap (Run.cut run)))
        run.pages := by
      rw [(flatMap_cut_spec htail hrun.noWrap).2.1]
      exact Set.disjoint_sdiff_left
    refine ⟨b', hb', ⟨hasc, hzero, hexact⟩, hsub, hsup, ?_⟩
    rw [hruns, covered_append]
    rcases missed_by_probe hord.ascending hne hrun.noWrap with
      hdisjoint | ⟨r, hr, hlo, hhi, honly, hmem, hin⟩
    · exact .inl (hdisjoint.union_left hcut)
    · refine .inr ⟨r, hr, hlo, hhi, honly, List.mem_append_left _ hmem, ?_⟩
      rw [Set.union_inter_distrib_right, hcut.inter_eq, Set.union_empty]
      exact hin

/-- The run before the place is missed. -/
theorem remove_wellFormed_missed :
    ∃ b', RunBlock.remove ⟨[⟨0, 1⟩, ⟨4, 1⟩, ⟨8, 4⟩, ⟨16, 1⟩], ⟨0, 17⟩⟩ ⟨10, 1⟩ = .ok b' ∧
      b'.WellFormed :=
  (remove_wellFormed (wellFormed_of_ends (by decide) rfl) (by decide) ⟨by decide, by decide⟩).imp
    fun _ h => ⟨h.1, h.2.1⟩

end RunBlock

end ReimsVgpu.Memory.Tracker
