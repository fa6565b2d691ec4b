import ReimsVgpu.Gpu.IcbNumbers
import ReimsVgpu.Library.FreeRuns

/-!
# The pool of the plain IDs

The free ranges of the pool do not touch, and the index by lengths is that of the same ranges. Each
operation is read as one on the set of free IDs: a doubling adds the new ones, an ID handed out or
reserved leaves it, and an ID given back comes back to it.

## Main definitions

* `Pool.Indexed`, `Pool.Ok`: the two indexes agree, and lie inside the pool.
* `Shortest`: the range that an ID is handed out from.

## Main results

* `Pool.Ok.grow`, `Pool.Ok.take`, `Pool.Ok.give`, `Pool.Ok.keep`, `Pool.Ok.keepAll`.
-/

namespace ReimsVgpu.Gpu.IcbNumbers

open IntervalList (points Separated)

namespace Pool

/-- The ranges as length and start. -/
def smallestOf (free : List (ℕ × ℕ)) : Finset (ℕ ×ₗ ℕ) :=
  (free.map fun e => toLex (e.2 - e.1, e.1)).toFinset

theorem mem_smallestOf {free : List (ℕ × ℕ)} {x : ℕ ×ₗ ℕ} :
    x ∈ smallestOf free ↔ ∃ e ∈ free, toLex (e.2 - e.1, e.1) = x := by
  rw [smallestOf, List.mem_toFinset, List.mem_map]

/-- The two indexes hold the same ranges, one for each start. -/
structure Indexed (p : Pool) : Prop where
  nodup : (p.free.map Prod.fst).Nodup
  smallest : p.smallest = smallestOf p.free

/-- The free ranges do not touch, lie inside the pool, and are indexed. -/
structure Ok (p : Pool) : Prop where
  separated : Separated p.free
  indexed : p.Indexed
  inside : ∀ e ∈ p.free, 1 ≤ e.1 ∧ e.2 ≤ p.size

variable {p : Pool} {start stop id : ℕ}

theorem Ok.of_mem_points (h : p.Ok) (hid : id ∈ points p.free) : 1 ≤ id ∧ id < p.size := by
  obtain ⟨e, he, hle, hlt⟩ := hid
  obtain ⟨h1, h2⟩ := h.inside e he
  exact ⟨h1.trans hle, hlt.trans_le h2⟩

theorem inside_of_points (hsep : Separated p.free) (hin : ∀ id ∈ points p.free, 1 ≤ id ∧ id < p.size) :
    ∀ e ∈ p.free, 1 ≤ e.1 ∧ e.2 ≤ p.size := fun e he => by
  have hlt := hsep.lt e he
  have hfirst := hin e.1 ⟨e, he, le_rfl, hlt⟩
  have hlast := hin (e.2 - 1) ⟨e, he, by omega, by omega⟩
  omega

/-! ### The two indexes -/

theorem free_add (p : Pool) (start stop : ℕ) :
    (p.add start stop).free = FreeRuns.put start stop p.free := by
  unfold add FreeRuns.put
  split_ifs <;> rfl

theorem size_add (p : Pool) (start stop : ℕ) : (p.add start stop).size = p.size := by
  unfold add
  split_ifs <;> rfl

theorem started_add (p : Pool) (start stop : ℕ) : (p.add start stop).started = p.started := by
  unfold add
  split_ifs <;> rfl

theorem find?_eq_some (h : (p.free.map Prod.fst).Nodup) (hmem : (start, stop) ∈ p.free) :
    (p.free.find? fun e => decide (e.1 = start)) = some (start, stop) := by
  cases hfind : p.free.find? fun e => decide (e.1 = start) with
  | none => exact absurd (decide_eq_true rfl) (List.find?_eq_none.mp hfind _ hmem)
  | some e =>
    have hkey : e.1 = start :=
      of_decide_eq_true (List.find?_some (p := fun e : ℕ × ℕ => decide (e.1 = start)) hfind)
    exact congrArg some (List.inj_on_of_nodup_map h (List.mem_of_find?_eq_some hfind) hmem hkey)

theorem free_cut (p : Pool) (start : ℕ) : (p.cut start).2.free = RunMap.erase start p.free := by
  unfold cut
  split
  · rename_i hnone
    refine (RunMap.erase_of_notMem fun e he hkey => ?_).symm
    exact List.find?_eq_none.mp hnone e he (decide_eq_true hkey)
  · rfl

theorem size_cut (p : Pool) (start : ℕ) : (p.cut start).2.size = p.size := by
  unfold cut
  split <;> rfl

theorem started_cut (p : Pool) (start : ℕ) : (p.cut start).2.started = p.started := by
  unfold cut
  split <;> rfl

theorem Indexed.add (h : p.Indexed) (hfresh : ∀ e ∈ p.free, e.1 ≠ start) :
    (p.add start stop).Indexed := by
  unfold Pool.add
  split_ifs with hlt
  · have hperm := FreeRuns.insert_perm_of_fresh (b := stop) hfresh
    constructor
    · dsimp only
      rw [(hperm.map Prod.fst).nodup_iff, List.map_cons, List.nodup_cons, List.mem_map]
      refine ⟨?_, h.nodup⟩
      rintro ⟨e, he, hkey⟩
      exact hfresh e he hkey
    · dsimp only
      ext x
      rw [Finset.mem_insert, h.smallest, mem_smallestOf, mem_smallestOf]
      constructor
      · rintro (rfl | ⟨e, he, rfl⟩)
        · exact ⟨(start, stop), hperm.mem_iff.mpr List.mem_cons_self, rfl⟩
        · exact ⟨e, hperm.mem_iff.mpr (List.mem_cons_of_mem _ he), rfl⟩
      · rintro ⟨e, he, rfl⟩
        rcases List.mem_cons.mp (hperm.mem_iff.mp he) with rfl | he
        · exact .inl rfl
        · exact .inr ⟨e, he, rfl⟩
  · exact h

theorem Indexed.cut (h : p.Indexed) (start : ℕ) : (p.cut start).2.Indexed := by
  unfold Pool.cut
  split
  · exact h
  · rename_i e stop hfind
    have hkey : e = start :=
      of_decide_eq_true (List.find?_some (p := fun e : ℕ × ℕ => decide (e.1 = start)) hfind)
    subst hkey
    have hmem := List.mem_of_find?_eq_some hfind
    constructor
    · exact h.nodup.sublist (List.filter_sublist.map Prod.fst)
    · dsimp only
      ext x
      rw [Finset.mem_erase, h.smallest, mem_smallestOf, mem_smallestOf]
      constructor
      · rintro ⟨hne, e', he', rfl⟩
        refine ⟨e', RunMap.mem_erase.mpr ⟨he', fun hstart => hne ?_⟩, rfl⟩
        rw [List.inj_on_of_nodup_map h.nodup he' hmem hstart]
      · rintro ⟨e', he', rfl⟩
        obtain ⟨he', hstart⟩ := RunMap.mem_erase.mp he'
        exact ⟨fun heq => hstart (congrArg (fun y => (ofLex y).2) heq), e', he', rfl⟩

/-- The pool with other flags. -/
theorem Ok.flags (h : p.Ok) (started loneZero : Bool) : Ok { p with started, loneZero } :=
  ⟨h.separated, ⟨h.indexed.nodup, h.indexed.smallest⟩, h.inside⟩

theorem ok_new (size : ℕ) : (new size).Ok := by
  have hindexed : (new size).Indexed := Indexed.add (p := ⟨size, [], ∅, false, false⟩)
    ⟨List.nodup_nil, rfl⟩ fun e he => absurd he List.not_mem_nil
  have hfree : (new size).free = FreeRuns.runOf 1 size := by
    rw [new, free_add]
    rfl
  refine ⟨hfree ▸ FreeRuns.separated_runOf 1 size, hindexed, fun e he => ?_⟩
  rw [hfree] at he
  rw [(FreeRuns.mem_runOf.mp he).2, new, size_add]
  exact ⟨le_rfl, le_rfl⟩

theorem points_new (size : ℕ) : points (new size).free = Set.Ico 1 size := by
  rw [new, free_add]
  exact FreeRuns.points_runOf 1 size

/-! ### A doubling -/

theorem joined_free (p : Pool) (id : ℕ) :
    ((p.joined id).1, (p.joined id).2.free) = FreeRuns.joinBefore id p.free := by
  unfold joined FreeRuns.joinBefore
  rcases RunMap.before id p.free with _ | ⟨start, stop⟩
  · rfl
  · dsimp only
    split_ifs
    · rw [free_cut]
    · rfl

theorem size_joined (p : Pool) (id : ℕ) : (p.joined id).2.size = p.size := by
  unfold joined
  split
  · split_ifs
    · exact size_cut p _
    · rfl
  · rfl

theorem started_joined (p : Pool) (id : ℕ) : (p.joined id).2.started = p.started := by
  unfold joined
  split
  · split_ifs
    · exact started_cut p _
    · rfl
  · rfl

theorem joined_le (p : Pool) (id : ℕ) : (p.joined id).1 ≤ id := by
  unfold joined
  split
  · rename_i start stop hbefore
    have hmem := List.mem_of_getLast? hbefore
    split_ifs
    · exact (of_decide_eq_true (List.mem_filter.mp hmem).2 : start < id).le
    · exact le_rfl
  · exact le_rfl

/-- The start that is joined to is no longer one of a free range. -/
theorem Indexed.joined (h : p.Indexed) (hid : ∀ e ∈ p.free, e.1 ≠ id) :
    (p.joined id).2.Indexed ∧ (∀ e ∈ (p.joined id).2.free, e.1 ≠ (p.joined id).1) ∧
      ∀ e ∈ (p.joined id).2.free, e ∈ p.free := by
  unfold Pool.joined
  split
  · split_ifs
    · refine ⟨h.cut _, fun e he => ?_, fun e he => ?_⟩
      · rw [free_cut] at he
        exact (RunMap.mem_erase.mp he).2
      · rw [free_cut] at he
        exact (RunMap.mem_erase.mp he).1
    · exact ⟨h, hid, fun e he => he⟩
  · exact ⟨h, hid, fun e he => he⟩

/-- A doubling adds the new IDs to the free ones. -/
theorem Ok.grow (h : p.Ok) (hpos : 0 < p.size) (hsize : p.size < 2 ^ 63) :
    p.grow.Ok ∧ p.grow.size = p.size * 2 ∧ p.grow.started = p.started ∧
      points p.grow.free = points p.free ∪ Set.Ico p.size (p.size * 2) := by
  have hmin : min (p.size * 2) (2 ^ 64 - 1) = p.size * 2 := by omega
  have hlt : p.size < p.size * 2 := by omega
  have habove : ∀ e ∈ p.free, e.1 < p.size := fun e he =>
    (h.separated.lt e he).trans_le (h.inside e he).2
  obtain ⟨q, hq⟩ : ∃ q : Pool, q = { p with size := p.size * 2 } := ⟨_, rfl⟩
  have hfreeq : q.free = p.free := by rw [hq]
  have hindexed : q.Indexed := by
    rw [hq]
    exact ⟨h.indexed.nodup, h.indexed.smallest⟩
  have hgrow : p.grow = (q.joined p.size).2.add (q.joined p.size).1 (p.size * 2) := by
    rw [Pool.grow, hmin, hq]
  obtain ⟨hindexed', hfresh, hsub⟩ :=
    hindexed.joined fun e he => (habove e (hfreeq ▸ he)).ne
  have hjoined := joined_free q p.size
  rw [hfreeq] at hjoined hsub
  obtain ⟨hstart, hrest⟩ := Prod.ext_iff.mp hjoined
  have hfree : p.grow.free = FreeRuns.giveBack p.size (p.size * 2) p.free := by
    rw [hgrow, free_add, FreeRuns.put, if_pos ((joined_le q p.size).trans_lt hlt), FreeRuns.giveBack,
      FreeRuns.joinAfter_of_notMem, ← hjoined]
    intro e he
    rw [← hrest] at he
    exact ((habove e (hsub e he)).trans hlt).ne
  obtain ⟨hsep, hpoints, hstarts⟩ := FreeRuns.giveBack_spec h.separated hlt fun x hx _ hmem => by
    obtain ⟨e, he, -, hstop⟩ := hmem
    have := (h.inside e he).2
    omega
  rw [← hfree] at hsep hpoints hstarts
  have hsizeGrow : p.grow.size = p.size * 2 := by
    rw [hgrow, size_add, size_joined, hq]
  refine ⟨⟨hsep, hgrow ▸ hindexed'.add hfresh, inside_of_points hsep fun id hid => ?_⟩, hsizeGrow, ?_,
    hpoints⟩
  · rw [hpoints] at hid
    rw [hsizeGrow]
    rcases hid with hid | hid
    · have := h.of_mem_points hid
      omega
    · have := hid.1
      have := hid.2
      omega
  · rw [hgrow, started_add, started_joined, hq]

/-! ### An ID out of the free ones -/

/-- The range that an ID is handed out from: none is shorter, and none as short starts lower. -/
def Shortest (free : List (ℕ × ℕ)) (e : ℕ × ℕ) : Prop :=
  e ∈ free ∧ ∀ e' ∈ free, e.2 - e.1 < e'.2 - e'.1 ∨ e.2 - e.1 = e'.2 - e'.1 ∧ e.1 ≤ e'.1

/-- A pool with one ID less free. -/
structure Without (p : Pool) (id : ℕ) (q : Pool) : Prop where
  ok : q.Ok
  size : q.size = p.size
  points : points q.free = points p.free \ {id}

/-- The range with the ID cut out, and its parts put back. -/
theorem Ok.punch (h : p.Ok) (hmem : (start, stop) ∈ p.free) (hle : start ≤ id) (hlt : id < stop) :
    Without p id (((p.cut start).2.add start id).add (id + 1) stop) := by
  obtain ⟨hsep, hpoints⟩ := FreeRuns.punch_spec h.separated hmem hle hlt
  have hfree : (((p.cut start).2.add start id).add (id + 1) stop).free =
      FreeRuns.punch start stop id p.free := by
    rw [free_add, free_add, free_cut]
    rfl
  have hsize : (((p.cut start).2.add start id).add (id + 1) stop).size = p.size := by
    rw [size_add, size_add, size_cut]
  have hindexed : (((p.cut start).2.add start id).add (id + 1) stop).Indexed := by
    refine ((h.indexed.cut start).add fun e he => ?_).add fun e he => ?_
    · rw [free_cut] at he
      exact (RunMap.mem_erase.mp he).2
    · -- Another range does not start inside this one.
      rw [free_add, free_cut, FreeRuns.put] at he
      have hother : e ∈ RunMap.erase start p.free → e.1 ≠ id + 1 := fun he heq => by
        obtain ⟨he, hne⟩ := RunMap.mem_erase.mp he
        obtain ⟨pre, post, hsplit⟩ := List.append_of_mem hmem
        have hsep' := h.separated
        rw [hsplit] at hsep' he
        obtain ⟨hpre', -, -, hpre, hpost, -⟩ := IntervalList.Separated.middle_iff.mp hsep'
        rcases List.mem_append.mp he with he | he
        · have h1 := hpre e he
          have h2 := hpre'.lt e he
          omega
        · rcases List.mem_cons.mp he with rfl | he
          · exact hne rfl
          · have := hpost e he
            omega
      split_ifs at he with hput
      · have hperm := FreeRuns.insert_perm_of_fresh (b := id) (l := RunMap.erase start p.free)
          (a := start) fun e he => (RunMap.mem_erase.mp he).2
        rcases List.mem_cons.mp (hperm.mem_iff.mp he) with rfl | he
        · exact (Nat.lt_succ_of_le hle).ne
        · exact hother he
      · exact hother he
  rw [← hfree] at hsep hpoints
  refine ⟨⟨hsep, hindexed, inside_of_points hsep fun x hx => ?_⟩, hsize, hpoints⟩
  rw [hpoints] at hx
  rw [hsize]
  exact h.of_mem_points hx.1

theorem started_punch (p : Pool) (start stop id : ℕ) :
    (((p.cut start).2.add start id).add (id + 1) stop).started = p.started := by
  rw [started_add, started_add, started_cut]

theorem smallest_eq_empty_iff (h : p.Indexed) : p.smallest = ∅ ↔ p.free = [] := by
  rw [h.smallest, smallestOf, List.toFinset_eq_empty_iff, List.map_eq_nil_iff]

/-- The least length and start are those of the shortest range. -/
theorem Indexed.shortest (h : p.Indexed) (hne : p.smallest.Nonempty) :
    ∃ e, Shortest p.free e ∧ (ofLex (p.smallest.min' hne)).2 = e.1 := by
  have hmem (x : ℕ ×ₗ ℕ) : x ∈ p.smallest ↔ ∃ e ∈ p.free, toLex (e.2 - e.1, e.1) = x := by
    rw [h.smallest, mem_smallestOf]
  obtain ⟨e, he, heq⟩ := (hmem _).mp (Finset.min'_mem p.smallest hne)
  refine ⟨e, ⟨he, fun e' he' => ?_⟩, (congrArg (fun x => (ofLex x).2) heq).symm⟩
  have hle := Finset.min'_le p.smallest (toLex (e'.2 - e'.1, e'.1)) ((hmem _).mpr ⟨e', he', rfl⟩)
  rw [← heq, Prod.Lex.toLex_le_toLex] at hle
  exact hle

/-- How an ID is handed out: the lowest of the shortest free range, or, where none is free, the first
of those the pool doubles by. -/
structure Taken (p : Pool) (id : ℕ) (q : Pool) : Prop where
  ok : q.Ok
  size_le : p.size ≤ q.size
  started : q.started = true
  first : if p.free = [] then id = p.size else ∃ e, Shortest p.free e ∧ id = e.1
  notMem : id ∉ points q.free
  points : points p.free ∪ Set.Ico p.size q.size = insert id (points q.free)

theorem cut_of_mem (h : p.Indexed) (hmem : (start, stop) ∈ p.free) :
    p.cut start = (some stop, (p.cut start).2) := by
  unfold Pool.cut
  rw [find?_eq_some h.nodup hmem]

/-- The lowest ID of the shortest free range is handed out. -/
theorem Ok.takeFirst (h : p.Ok) (hne : p.free ≠ []) :
    ∃ e, Shortest p.free e ∧ p.takeFirst.1 = e.1 ∧ Without p e.1 p.takeFirst.2 ∧
      p.takeFirst.2.started = p.started := by
  have hnonempty : p.smallest.Nonempty :=
    Finset.nonempty_iff_ne_empty.mpr fun hnil => hne ((smallest_eq_empty_iff h.indexed).mp hnil)
  obtain ⟨⟨start, stop⟩, hshortest, hstart⟩ := h.indexed.shortest hnonempty
  have hmem := hshortest.1
  have hadd : (p.cut start).2.add start start = (p.cut start).2 := by
    rw [Pool.add, if_neg (lt_irrefl start)]
  have htake : p.takeFirst = (start, ((p.cut start).2.add start start).add (start + 1) stop) := by
    unfold Pool.takeFirst
    dsimp only
    rw [dif_pos hnonempty, hstart, cut_of_mem h.indexed hmem, hadd]
  rw [htake]
  exact ⟨(start, stop), hshortest, rfl, h.punch hmem le_rfl (h.separated.lt _ hmem),
    started_punch p start stop start⟩

/-- An ID handed out once the pool is started. -/
theorem Ok.takeStarted (h : p.Ok) (hstart : p.started = true) (hpos : 0 < p.size)
    (hsize : p.size < 2 ^ 63) {answer : ℕ × Pool}
    (hanswer : answer = if p.smallest = ∅ then p.grow.takeFirst else p.takeFirst) :
    Taken p answer.1 answer.2 := by
  have hmemFirst {q : Pool} {e : ℕ × ℕ} (hq : q.Ok) (he : e ∈ q.free) : e.1 ∈ points q.free :=
    ⟨e, he, le_rfl, hq.separated.lt e he⟩
  by_cases hnone : p.free = []
  · rw [if_pos ((smallest_eq_empty_iff h.indexed).mpr hnone)] at hanswer
    subst hanswer
    obtain ⟨hok, hdouble, hstarted, hpoints⟩ := h.grow hpos hsize
    rw [hnone, IntervalList.points_nil, Set.empty_union] at hpoints
    have hne : p.grow.free ≠ [] := fun hnil => by
      have hmem : p.size ∈ points p.grow.free := hpoints ▸ ⟨le_rfl, by omega⟩
      rw [hnil] at hmem
      obtain ⟨e, he, -⟩ := hmem
      exact absurd he List.not_mem_nil
    obtain ⟨e, he, hid, hwithout, hstarted'⟩ := hok.takeFirst hne
    have hmem := hmemFirst hok he.1
    -- The new range is one, and starts where the pool ended.
    have hfirst : e.1 = p.size := by
      obtain ⟨-, hbelow⟩ := (hok.separated.exists_mem_iff_starts_block e.1).mp ⟨e.2, he.1⟩
      rw [hpoints] at hmem hbelow
      obtain ⟨h1, h2⟩ := hmem
      rcases hbelow with hzero | hbelow
      · omega
      · by_contra hne
        exact hbelow ⟨by omega, by omega⟩
    rw [hid]
    refine ⟨hwithout.ok, ?_, hstarted'.trans (hstarted.trans hstart), ?_, ?_, ?_⟩
    · rw [hwithout.size, hdouble]
      omega
    · rw [if_pos hnone]
      exact hfirst
    · rw [hwithout.points]
      exact fun hin => hin.2 rfl
    · rw [hwithout.points, Set.insert_sdiff_singleton, Set.insert_eq_of_mem hmem, hwithout.size, hdouble,
        hpoints, hnone, IntervalList.points_nil, Set.empty_union]
  · rw [if_neg fun hempty => hnone ((smallest_eq_empty_iff h.indexed).mp hempty)] at hanswer
    subst hanswer
    obtain ⟨e, he, hid, hwithout, hstarted⟩ := h.takeFirst hnone
    have hmem := hmemFirst h he.1
    rw [hid]
    refine ⟨hwithout.ok, hwithout.size.ge, hstarted.trans hstart, ?_, ?_, ?_⟩
    · rw [if_neg hnone]
      exact ⟨e, he, rfl⟩
    · rw [hwithout.points]
      exact fun hin => hin.2 rfl
    · rw [hwithout.points, Set.insert_sdiff_singleton, Set.insert_eq_of_mem hmem, hwithout.size,
        Set.Ico_self, Set.union_empty]

/-- A plain ID is handed out. -/
theorem Ok.take (h : p.Ok) (hpos : 0 < p.size) (hsize : p.size < 2 ^ 63) :
    Taken p p.take.1 p.take.2 := by
  have htaken : Taken { p with started := true } p.take.1 p.take.2 :=
    (h.flags true p.loneZero).takeStarted rfl hpos hsize rfl
  exact ⟨htaken.ok, htaken.size_le, htaken.started, htaken.first, htaken.notMem, htaken.points⟩

/-! ### An ID given back -/

/-- An ID that was not free comes back. -/
theorem Ok.give (h : p.Ok) (hid : id ∉ points p.free) (hin : 1 ≤ id ∧ id < p.size) :
    (p.give id).Ok ∧ (p.give id).size = p.size ∧ (p.give id).started = p.started ∧
      points (p.give id).free = insert id (points p.free) := by
  have hne : ∀ e ∈ p.free, e.1 ≠ id := fun e he heq =>
    hid ⟨e, he, heq.le, heq ▸ h.separated.lt e he⟩
  obtain ⟨hindexed, hfresh, hsub⟩ := h.indexed.joined hne
  obtain ⟨hstart, hrest⟩ := Prod.ext_iff.mp (joined_free p id)
  dsimp only at hstart hrest
  have hle : (p.joined id).1 ≤ id := joined_le p id
  obtain ⟨hsep, hpoints, -⟩ := FreeRuns.giveBack_spec h.separated (Nat.lt_succ_self id)
    fun x hx hlt hmem => hid ((Nat.le_antisymm (Nat.lt_succ_iff.mp hlt) hx) ▸ hmem)
  have hsucc : Set.Ico id (id + 1) = {id} := by
    ext x
    rw [Set.mem_Ico, Set.mem_singleton_iff]
    omega
  rw [hsucc, Set.union_singleton] at hpoints
  -- The two parts of the answer: the pool without the range after the ID, and where that ends.
  have hcut : ∃ stop, (p.joined id).1 < stop ∧
      p.give id = ((p.joined id).2.cut (id + 1)).2.add (p.joined id).1 stop ∧
      FreeRuns.joinAfter (id + 1) (p.joined id).2.free =
        (stop, ((p.joined id).2.cut (id + 1)).2.free) := by
    unfold Pool.give
    dsimp only
    rw [free_cut]
    unfold Pool.cut FreeRuns.joinAfter
    cases hfind : (p.joined id).2.free.find? fun e => decide (e.1 = id + 1) with
    | none =>
      refine ⟨id + 1, Nat.lt_succ_of_le hle, rfl, ?_⟩
      rw [RunMap.erase_of_notMem fun e he hkey =>
        List.find?_eq_none.mp hfind e he (decide_eq_true hkey)]
    | some e =>
      have hkey : e.1 = id + 1 :=
        of_decide_eq_true (List.find?_some (p := fun e : ℕ × ℕ => decide (e.1 = id + 1)) hfind)
      have hlt := h.separated.lt e (hsub e (List.mem_of_find?_eq_some hfind))
      exact ⟨e.2, by omega, rfl, rfl⟩
  obtain ⟨stop, hlt, hgive, hafter⟩ := hcut
  have hfree : (p.give id).free = FreeRuns.giveBack id (id + 1) p.free := by
    rw [hgive, free_add, FreeRuns.put, if_pos hlt, FreeRuns.giveBack, ← hstart, ← hrest, hafter]
  have hsize : (p.give id).size = p.size := by rw [hgive, size_add, size_cut, size_joined]
  rw [← hfree] at hsep hpoints
  refine ⟨⟨hsep, ?_, inside_of_points hsep fun x hx => ?_⟩, hsize, ?_, hpoints⟩
  · rw [hgive]
    refine (hindexed.cut (id + 1)).add fun e he => ?_
    rw [free_cut] at he
    exact hfresh e (RunMap.mem_erase.mp he).1
  · rw [hsize]
    rw [hpoints] at hx
    rcases hx with rfl | hx
    · exact hin
    · exact h.of_mem_points hx
  · rw [hgive, started_add, started_cut, started_joined]

/-! ### A reservation -/

/-- A reserved ID is no longer free. -/
theorem Ok.keep (h : p.Ok) (id : ℕ) : Without p id (p.keep id) ∧ (p.keep id).started = p.started := by
  unfold Pool.keep
  have hruns := (FreeRuns.runs_of_separated h.separated).before_filter_eq id
  cases hbefore : RunMap.before (id + 1) p.free with
  | none =>
    rw [hbefore, Option.filter_none] at hruns
    refine ⟨⟨h, rfl, (Set.sdiff_singleton_eq_self ?_).symm⟩, rfl⟩
    rintro ⟨e, he, hle, hlt⟩
    exact RunMap.holding_eq_none_iff.mp hruns.symm e he ⟨hle, hlt⟩
  | some e =>
    obtain ⟨start, stop⟩ := e
    have hmem := List.mem_filter.mp (List.mem_of_getLast? hbefore)
    have hle : start < id + 1 := of_decide_eq_true hmem.2
    dsimp only
    split_ifs with hlt
    · exact ⟨h.punch hmem.1 (Nat.lt_succ_iff.mp hle) hlt, started_punch p start stop id⟩
    · rw [hbefore, Option.filter_some_neg (by simpa using hlt)] at hruns
      refine ⟨⟨h, rfl, (Set.sdiff_singleton_eq_self ?_).symm⟩, rfl⟩
      rintro ⟨e, he, hle, hlt⟩
      exact RunMap.holding_eq_none_iff.mp hruns.symm e he ⟨hle, hlt⟩

/-- The inner loop doubles the pool until it holds the ID. -/
theorem Ok.growTo (h : p.Ok) (hpos : 0 < p.size) (hid : id < 2 ^ 31) {fuel : ℕ}
    (hfuel : id < p.size * 2 ^ fuel) :
    ∃ q, Pool.growTo (fuel + 1) id p = some q ∧ q.Ok ∧ id < q.size ∧ p.size ≤ q.size ∧
      q.started = p.started ∧ points q.free = points p.free ∪ Set.Ico p.size q.size := by
  induction fuel generalizing p with
  | zero =>
    rw [Nat.pow_zero, Nat.mul_one] at hfuel
    refine ⟨p, by rw [Pool.growTo, if_neg (not_le.mpr hfuel)], h, hfuel, le_rfl, rfl, ?_⟩
    rw [Set.Ico_self, Set.union_empty]
  | succ fuel ih =>
    rw [Pool.growTo]
    split_ifs with hle
    · obtain ⟨hok, hdouble, hstarted, hpoints⟩ := h.grow hpos (by omega)
      obtain ⟨q, hq, hqok, hlt, hsize, hstarted', hpoints'⟩ := ih hok (by omega)
        (by rwa [hdouble, Nat.mul_assoc, ← Nat.pow_succ'])
      refine ⟨q, hq, hqok, hlt, by omega, hstarted'.trans hstarted, ?_⟩
      rw [hpoints', hpoints, hdouble, Set.union_assoc,
        Set.Ico_union_Ico_eq_Ico (by omega) (hdouble ▸ hsize)]
    · refine ⟨p, rfl, h, not_le.mp hle, le_rfl, rfl, ?_⟩
      rw [Set.Ico_self, Set.union_empty]

/-- The IDs of a reservation are no longer free, and those the pool doubles by are. -/
theorem Ok.keepAll (h : p.Ok) (hpos : 0 < p.size) {ids : List ℕ} (hids : ∀ id ∈ ids, id < 2 ^ 31)
    {fuel : ℕ} (hfuel : 2 ^ 31 ≤ p.size * 2 ^ fuel) :
    ∃ q, Pool.keepAll (fuel + 1) ids p = some q ∧ q.Ok ∧ p.size ≤ q.size ∧ (∀ id ∈ ids, id < q.size) ∧
      q.started = p.started ∧
      points q.free = (points p.free ∪ Set.Ico p.size q.size) \ {id | id ∈ ids} := by
  induction ids generalizing p with
  | nil =>
    refine ⟨p, rfl, h, le_rfl, fun id hid => absurd hid List.not_mem_nil, rfl, ?_⟩
    rw [Set.Ico_self, Set.union_empty]
    exact (sdiff_eq_left.mpr (Set.disjoint_left.mpr fun x _ hx => List.not_mem_nil hx)).symm
  | cons id ids ih =>
    obtain ⟨hid, hids⟩ := List.forall_mem_cons.mp hids
    obtain ⟨q, hq, hok, hlt, hsize, hstarted, hpoints⟩ :=
      h.growTo hpos hid (hid.trans_le hfuel)
    obtain ⟨hwithout, hstarted'⟩ := hok.keep id
    have hsizeKeep := hwithout.size
    obtain ⟨r, hr, hrok, hle, hall, hstarted'', hpoints'⟩ := ih hwithout.ok (by omega) hids
      (hfuel.trans (Nat.mul_le_mul_right _ (by omega)))
    refine ⟨r, ?_, hrok, by omega, List.forall_mem_cons.mpr ⟨by omega, hall⟩,
      hstarted''.trans (hstarted'.trans hstarted), ?_⟩
    · rw [Pool.keepAll, hq]
      exact hr
    · have hnotNew : id ∉ Set.Ico q.size r.size := fun hmem => absurd hmem.1 (by omega)
      rw [hpoints', hwithout.points, hwithout.size, hpoints]
      ext x
      simp only [Set.mem_sdiff, Set.mem_union, Set.mem_singleton_iff, Set.mem_ofPred_eq, List.mem_cons,
        Set.mem_Ico]
      constructor
      · rintro ⟨⟨hx | hx, hne⟩ | hx, hnot⟩
        · exact ⟨.inl hx, fun hor => hor.elim hne hnot⟩
        · exact ⟨.inr (by omega), fun hor => hor.elim hne hnot⟩
        · exact ⟨.inr (by omega), fun hor => hor.elim (fun heq => hnotNew (heq ▸ hx)) hnot⟩
      · rintro ⟨hx, hnot⟩
        rw [not_or] at hnot
        refine ⟨?_, hnot.2⟩
        rcases hx with hx | hx
        · exact .inl ⟨.inl hx, hnot.1⟩
        · by_cases hold : x < q.size
          · exact .inl ⟨.inr ⟨hx.1, hold⟩, hnot.1⟩
          · exact .inr ⟨not_lt.mp hold, hx.2⟩

end Pool

end ReimsVgpu.Gpu.IcbNumbers
