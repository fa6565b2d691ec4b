import ReimsVgpu.Library.IntervalList
import ReimsVgpu.Library.RunCuts

/-!
# Free runs

A map of the runs that are free, no two of which touch. The front of a run is taken, or a single
point out of its middle, and points given back join the runs on either side of them.

## Main definitions

* `FreeRuns.joinBefore`, `FreeRuns.joinAfter`, `FreeRuns.giveBack`: the points that are free again,
  joined with the run before them and the run after them.
* `FreeRuns.put`, `FreeRuns.punch`: a run put into the map unless it is empty, and a run without one of
  its points.

## Main results

* `FreeRuns.free_take`, `FreeRuns.giveBack_spec`, `FreeRuns.punch_spec`.
-/

namespace FreeRuns

open IntervalList (points Separated)

theorem runs_of_separated {l : List (ℕ × ℕ)} (h : Separated l) : RunMap.Runs id l :=
  ⟨h.lt, h.sep.imp fun hab => hab.le⟩

variable {l pre post : List (ℕ × ℕ)} {a b : ℕ}

/-- The free runs once the front of one is taken. -/
theorem free_take {bytes : ℕ} (hsep : Separated (pre ++ (a, b) :: post))
    (hle : bytes ≤ b - a) (hpos : 0 < bytes) :
    (if bytes < b - a then RunMap.insert (a + bytes) b (RunMap.erase a (pre ++ (a, b) :: post))
      else RunMap.erase a (pre ++ (a, b) :: post)) =
      pre ++ (if a + bytes = b then [] else [(a + bytes, b)]) ++ post := by
  obtain ⟨hpre', hab, hpost', hpre, hpost, -⟩ := IntervalList.Separated.middle_iff.mp hsep
  rw [(runs_of_separated hsep).erase_middle]
  by_cases hall : bytes < b - a
  · rw [if_pos hall, if_neg (by omega), RunMap.insert_middle]
    · rw [List.append_assoc, List.singleton_append]
    · intro e he
      have hend := hpre e he
      have hlt := hpre'.lt e he
      omega
    · intro e he
      have hstart := hpost e he
      omega
  · rw [if_neg hall, if_pos (by omega), List.append_nil]

/-- Where the run that ends at an offset starts, and the runs without it. -/
def joinBefore (offset : ℕ) (free : List (ℕ × ℕ)) : ℕ × List (ℕ × ℕ) :=
  match RunMap.before offset free with
  | some (before, beforeEnd) =>
    if beforeEnd = offset then (before, RunMap.erase before free) else (offset, free)
  | none => (offset, free)

/-- Where the run that starts at a stop ends, and the runs without it. -/
def joinAfter (stop : ℕ) (free : List (ℕ × ℕ)) : ℕ × List (ℕ × ℕ) :=
  match free.find? fun e => decide (e.1 = stop) with
  | some (_, afterEnd) => (afterEnd, RunMap.erase stop free)
  | none => (stop, free)

/-- The points from the first to the second free again. -/
def giveBack (first last : ℕ) (free : List (ℕ × ℕ)) : List (ℕ × ℕ) :=
  RunMap.insert (joinBefore first free).1 (joinAfter last (joinBefore first free).2).1
    (joinAfter last (joinBefore first free).2).2

theorem joinBefore_spec {offset : ℕ} (hsep : Separated (pre ++ post))
    (hpre : ∀ e ∈ pre, e.2 ≤ offset) (hpost : ∀ e ∈ post, offset ≤ e.1) :
    (joinBefore offset (pre ++ post) = (offset, pre ++ post) ∧ ∀ e ∈ pre, e.2 < offset) ∨
    ∃ pre' a, pre = pre' ++ [(a, offset)] ∧ joinBefore offset (pre ++ post) = (a, pre' ++ post) := by
  have hlt : ∀ e ∈ pre, e.1 < offset := fun e he =>
    (hsep.lt e (List.mem_append_left _ he)).trans_le (hpre e he)
  unfold joinBefore
  rw [RunMap.before_append hlt hpost]
  rcases pre.eq_nil_or_concat' with rfl | ⟨pre', ⟨a, b⟩, rfl⟩
  · exact .inl ⟨rfl, fun e he => absurd he List.not_mem_nil⟩
  rw [List.getLast?_concat]
  dsimp only
  by_cases hb : b = offset
  · subst hb
    refine .inr ⟨pre', a, rfl, ?_⟩
    rw [List.append_assoc, List.singleton_append] at hsep ⊢
    rw [if_pos rfl, (runs_of_separated hsep).erase_middle]
  · rw [if_neg hb]
    refine .inl ⟨rfl, fun e he => ?_⟩
    have hlast : b < offset :=
      lt_of_le_of_ne (hpre (a, b) (List.mem_append_right _ (List.mem_singleton.mpr rfl))) hb
    rcases List.mem_append.mp he with he | he
    · obtain ⟨hpre', hlast', hc⟩ :=
        IntervalList.separated_append_iff.mp (IntervalList.separated_append_iff.mp hsep).1
      have hbelow := hc e he (a, b) (List.mem_singleton.mpr rfl)
      have hrun := hlast'.lt (a, b) (List.mem_singleton.mpr rfl)
      dsimp only at hbelow hrun
      omega
    · rw [List.mem_singleton.mp he]
      exact hlast

theorem joinAfter_spec {stop : ℕ} (hsep : Separated (pre ++ post))
    (hpre : ∀ e ∈ pre, e.1 < stop) (hpost : ∀ e ∈ post, stop ≤ e.1) :
    (joinAfter stop (pre ++ post) = (stop, pre ++ post) ∧ ∀ e ∈ post, stop < e.1) ∨
    ∃ post' b, post = (stop, b) :: post' ∧ joinAfter stop (pre ++ post) = (b, pre ++ post') := by
  have hnone : pre.find? (fun e => decide (e.1 = stop)) = none :=
    List.find?_eq_none.mpr fun e he hkey => absurd (of_decide_eq_true hkey) (hpre e he).ne
  unfold joinAfter
  rw [List.find?_append, hnone, Option.none_or]
  cases post with
  | nil => exact .inl ⟨rfl, fun e he => absurd he List.not_mem_nil⟩
  | cons e post =>
    obtain ⟨a, b⟩ := e
    by_cases ha : a = stop
    · subst ha
      refine .inr ⟨post, b, rfl, ?_⟩
      rw [List.find?_cons_of_pos (p := fun e : ℕ × ℕ => decide (e.1 = a)) (decide_eq_true rfl)]
      dsimp only
      rw [(runs_of_separated hsep).erase_middle]
    · have hpast : stop < a := lt_of_le_of_ne (hpost (a, b) List.mem_cons_self) (Ne.symm ha)
      obtain ⟨-, -, -, -, hafter, -⟩ := IntervalList.Separated.middle_iff.mp hsep
      have hrun := hsep.lt (a, b) (List.mem_append_right _ List.mem_cons_self)
      have hall : ∀ e ∈ (a, b) :: post, stop < e.1 := List.forall_mem_cons.mpr
        ⟨hpast, fun e he => hpast.trans (hrun.trans (hafter e he))⟩
      have hnone' : ((a, b) :: post).find? (fun e => decide (e.1 = stop)) = none :=
        List.find?_eq_none.mpr fun e he hkey => absurd (of_decide_eq_true hkey) (hall e he).ne'
      rw [hnone']
      exact .inl ⟨rfl, hall⟩

/-- Points given back that were not free. -/
structure GivenBack (l : List (ℕ × ℕ)) (first last : ℕ) (free : List (ℕ × ℕ)) : Prop where
  separated : Separated free
  points : points free = points l ∪ Set.Ico first last
  starts : ∀ e ∈ free, e.1 = first ∨ ∃ e' ∈ l, e'.1 = e.1

theorem giveBack_spec {first last : ℕ} (hsep : Separated l) (hlt : first < last)
    (hapart : ∀ x, first ≤ x → x < last → x ∉ points l) :
    GivenBack l first last (giveBack first last l) := by
  obtain ⟨pre, post, hfree, hpre, hpost⟩ := (runs_of_separated hsep).exists_split first
  have hmem : ∀ e ∈ l, e.1 < e.2 := hsep.lt
  rw [hfree] at hsep hapart hmem
  have hbelow : ∀ e ∈ pre, e.2 ≤ first := fun e he => by
    by_contra hend
    exact hapart first le_rfl hlt ⟨e, List.mem_append_left _ he, (hpre e he).le, not_le.mp hend⟩
  have habove : ∀ e ∈ post, last ≤ e.1 := fun e he => by
    by_contra hstart
    exact hapart e.1 (hpost e he) (not_le.mp hstart)
      ⟨e, List.mem_append_right _ he, le_rfl, hmem e (List.mem_append_right _ he)⟩
  have hstarts {a v : ℕ} {pre' post' : List (ℕ × ℕ)} (ha : a = first ∨ ∃ e ∈ pre ++ post, e.1 = a)
      (hsub : ∀ e ∈ pre' ++ post', e ∈ pre ++ post) :
      ∀ e ∈ pre' ++ (a, v) :: post', e.1 = first ∨ ∃ e' ∈ pre ++ post, e'.1 = e.1 := fun e he => by
    rcases List.mem_append.mp he with he | he
    · exact .inr ⟨e, hsub e (List.mem_append_left _ he), rfl⟩
    · rcases List.mem_cons.mp he with rfl | he
      · exact ha
      · exact .inr ⟨e, hsub e (List.mem_append_right _ he), rfl⟩
  subst hfree
  unfold giveBack
  rcases joinBefore_spec hsep hbelow hpost with ⟨hbefore, hgap⟩ | ⟨pre', a, rfl, hbefore⟩
  · rcases joinAfter_spec hsep (fun e he => (hpre e he).trans hlt) habove with
      ⟨hafter, hgap'⟩ | ⟨post', b, rfl, hafter⟩
    · -- alone
      obtain ⟨hsep', hpoints⟩ := hsep.insert_between hlt hgap hgap'
      rw [hbefore, hafter, RunMap.insert_middle hpre fun e he => hlt.trans (hgap' e he)]
      exact ⟨hsep', hpoints, hstarts (.inl rfl) fun e he => he⟩
    · -- glued to the run after
      obtain ⟨hsep', hpoints⟩ := hsep.extend_left hlt hgap
      have hpost' := (IntervalList.Separated.middle_iff.mp hsep).2.2.2.2.1
      have hrun := hmem (last, b) (List.mem_append_right _ List.mem_cons_self)
      rw [hbefore, hafter, RunMap.insert_middle hpre fun e he => hlt.trans (hrun.trans (hpost' e he))]
      exact ⟨hsep', hpoints, hstarts (.inl rfl) fun e he => (List.mem_append.mp he).elim
        (List.mem_append_left _) fun he => List.mem_append_right _ (List.mem_cons_of_mem _ he)⟩
  · have hamem : (a, first) ∈ pre' ++ [(a, first)] ++ post :=
      List.mem_append_left _ (List.mem_append_right _ (List.mem_singleton.mpr rfl))
    have hrun : a < first := hmem _ hamem
    have hsub {m : List (ℕ × ℕ)} (hm : ∀ e ∈ m, e ∈ post) :
        ∀ e ∈ pre' ++ m, e ∈ pre' ++ [(a, first)] ++ post := fun e he =>
      (List.mem_append.mp he).elim
        (fun he => List.mem_append_left _ (List.mem_append_left _ he))
        fun he => List.mem_append_right _ (hm e he)
    have hsep₁ := hsep
    rw [List.append_assoc, List.singleton_append] at hsep₁
    obtain ⟨hpre', -, -, hbelow', -, -⟩ := IntervalList.Separated.middle_iff.mp hsep₁
    have hkey : ∀ e ∈ pre', e.1 < a := fun e he => (hpre'.lt e he).trans (hbelow' e he)
    rcases joinAfter_spec hsep₁.take_all (fun e he => (hkey e he).trans (hrun.trans hlt)) habove with
      ⟨hafter, hgap'⟩ | ⟨post', b, rfl, hafter⟩
    · -- glued to the run before
      obtain ⟨hsep', hpoints⟩ := hsep₁.extend_right hlt hgap'
      rw [hbefore, hafter,
        RunMap.insert_middle hkey fun e he => hrun.trans (hlt.trans (hgap' e he))]
      refine ⟨hsep', ?_, hstarts (.inr ⟨_, hamem, rfl⟩) (hsub fun e he => he)⟩
      rw [hpoints, List.append_assoc, List.singleton_append]
    · -- between two runs
      obtain ⟨hsep', hpoints⟩ := hsep₁.bridge
      have hpost' := (IntervalList.Separated.middle_iff.mp hsep₁.take_all).2.2.2.2.1
      have hrun' := hmem (last, b) (List.mem_append_right _ List.mem_cons_self)
      rw [hbefore, hafter, RunMap.insert_middle hkey fun e he =>
        hrun.trans (hlt.trans (hrun'.trans (hpost' e he)))]
      refine ⟨hsep', ?_, hstarts (.inr ⟨_, hamem, rfl⟩)
        (hsub fun e he => List.mem_cons_of_mem _ he)⟩
      rw [hpoints, List.append_assoc, List.singleton_append]

theorem joinAfter_of_notMem {stop : ℕ} (h : ∀ e ∈ l, e.1 ≠ stop) : joinAfter stop l = (stop, l) := by
  have hnone : l.find? (fun e => decide (e.1 = stop)) = none :=
    List.find?_eq_none.mpr fun e he hkey => h e he (of_decide_eq_true hkey)
  rw [joinAfter, hnone]

theorem insert_perm_of_fresh (h : ∀ e ∈ l, e.1 ≠ a) : (RunMap.insert a b l).Perm ((a, b) :: l) := by
  induction l with
  | nil => exact .refl _
  | cons e l ih =>
    obtain ⟨he, hl⟩ := List.forall_mem_cons.mp h
    rw [RunMap.insert]
    split_ifs with hlt heq
    · exact .refl _
    · exact absurd heq.symm he
    · exact ((ih hl).cons e).trans (.swap _ _ _)

/-! ### A point out of a run -/

/-- The run put into the map, unless it is empty. -/
def put (first last : ℕ) (free : List (ℕ × ℕ)) : List (ℕ × ℕ) :=
  if first < last then RunMap.insert first last free else free

/-- The run without a point of it: the part below and the part above. -/
def punch (first last x : ℕ) (free : List (ℕ × ℕ)) : List (ℕ × ℕ) :=
  put (x + 1) last (put first x (RunMap.erase first free))

/-- The run, unless it is empty. -/
def runOf (first last : ℕ) : List (ℕ × ℕ) := if first < last then [(first, last)] else []

theorem mem_runOf {first last : ℕ} {e : ℕ × ℕ} :
    e ∈ runOf first last ↔ first < last ∧ e = (first, last) := by
  unfold runOf
  split_ifs with h
  · simp [h]
  · simp [h]

theorem points_runOf (first last : ℕ) : points (runOf first last) = Set.Ico first last := by
  unfold runOf
  split_ifs with h
  · simp
  · rw [IntervalList.points_nil, Set.Ico_eq_empty h]

theorem separated_runOf (first last : ℕ) : Separated (runOf first last) := by
  unfold runOf
  split_ifs with h
  · exact IntervalList.separated_singleton h
  · exact ⟨fun e he => absurd he List.not_mem_nil, .nil⟩

theorem put_middle {first last : ℕ} (hpre : ∀ e ∈ pre, e.1 < first) (hpost : ∀ e ∈ post, first < e.1) :
    put first last (pre ++ post) = pre ++ (runOf first last ++ post) := by
  unfold put runOf
  split_ifs
  · rw [RunMap.insert_middle hpre hpost, List.singleton_append]
  · rfl

/-- The runs after a point is taken out of one of them. -/
theorem punch_spec {x : ℕ} (hsep : Separated l) (hmem : (a, b) ∈ l) (hle : a ≤ x) (hlt : x < b) :
    Separated (punch a b x l) ∧ points (punch a b x l) = points l \ {x} := by
  obtain ⟨pre, post, rfl⟩ := List.append_of_mem hmem
  obtain ⟨hpre', -, hpost', hpre, hpost, hall⟩ := IntervalList.Separated.middle_iff.mp hsep
  have hbelow : ∀ e ∈ pre, e.1 < a := fun e he => (hpre'.lt e he).trans (hpre e he)
  have heq : punch a b x (pre ++ (a, b) :: post) =
      (pre ++ runOf a x) ++ (runOf (x + 1) b ++ post) := by
    unfold punch
    rw [(runs_of_separated hsep).erase_middle, put_middle hbelow fun e he => by
      have := hpost e he
      omega, ← List.append_assoc, put_middle]
    · intro e he
      rcases List.mem_append.mp he with he | he
      · exact (hbelow e he).trans (Nat.lt_succ_of_le hle)
      · rw [(mem_runOf.mp he).2]
        exact Nat.lt_succ_of_le hle
    · intro e he
      have := hpost e he
      omega
  rw [heq]
  constructor
  · refine IntervalList.separated_append_iff.mpr
      ⟨IntervalList.separated_append_iff.mpr ⟨hpre', separated_runOf a x, fun e he r hr => ?_⟩,
        IntervalList.separated_append_iff.mpr ⟨separated_runOf (x + 1) b, hpost', fun r hr e he => ?_⟩,
        fun e he r hr => ?_⟩
    · rw [(mem_runOf.mp hr).2]
      exact hpre e he
    · rw [(mem_runOf.mp hr).2]
      exact hpost e he
    · rcases List.mem_append.mp he with he | he <;> rcases List.mem_append.mp hr with hr | hr
      · rw [(mem_runOf.mp hr).2]
        exact (hpre e he).trans (Nat.lt_succ_of_le hle)
      · exact hall e he r hr
      · rw [(mem_runOf.mp he).2, (mem_runOf.mp hr).2]
        exact Nat.lt_succ_self x
      · rw [(mem_runOf.mp he).2]
        exact hlt.trans (hpost r hr)
  · ext y
    have hside : a ≤ y → y ≤ b → y ∉ points pre ∧ y ∉ points post := hsep.notMem_sides
    rw [IntervalList.points_append, IntervalList.points_append, IntervalList.points_append,
      IntervalList.points_append, IntervalList.points_cons, points_runOf, points_runOf]
    simp only [Set.mem_union, Set.mem_sdiff, Set.mem_Ico, Set.mem_singleton_iff]
    by_cases hy : a ≤ y ∧ y ≤ b
    · obtain ⟨h1, h2⟩ := hside hy.1 hy.2
      simp only [h1, h2, false_or, or_false]
      omega
    · by_cases h1 : y ∈ points pre
      · simp only [h1, true_or, true_and, true_iff]
        omega
      · by_cases h2 : y ∈ points post
        · simp only [h2, or_true, true_and, true_iff]
          omega
        · simp only [h1, h2, false_or, or_false]
          omega

end FreeRuns
