import ReimsVgpu.Library.RunMap
import Mathlib.Data.List.Induction

/-!
# A range taken out of a map of runs

The runs that meet a range are taken out of the map one after the other, from the last one down, and
what of each lies on either side of the range is put back. The result is the map in which every run
that meets the range has its two remnants in its place.

## Main definitions

* `RunMap.Cutting`: how a run ends early, and how it goes on from a later byte.
* `RunMap.cut`, `RunMap.takeOut`: one run cut, and a range taken out.
* `RunMap.outside`: what the range leaves of a run.

## Main results

* `RunMap.Runs.takeOut_eq`, `RunMap.Runs.takeOut`: the map after, entry by entry, and that its entries
  are still runs.
* `RunMap.Runs.le_of_after`: the first run from a byte on.
-/

namespace RunMap

variable {ρ : Type*}

/-- How a run ends early, and how it goes on from a later byte. -/
structure Cutting (stop : ρ → ℕ) where
  head : ℕ → ρ → ρ
  tail : ℕ → ℕ × ρ → ρ
  stop_head : ∀ k v, stop (head k v) = k
  stop_tail : ∀ k e, stop (tail k e) = stop e.2

variable {stop : ρ → ℕ} (c : Cutting stop)

/-- A run taken out, and what of it lies outside the range put back. -/
def cut (first last : ℕ) (l : List (ℕ × ρ)) (e : ℕ × ρ) : List (ℕ × ρ) :=
  let l := erase e.1 l
  let l := if e.1 < first then insert e.1 (c.head first e.2) l else l
  if last < stop e.2 then insert last (c.tail last e) l else l

/-- The runs that meet the range cut, from the last one down. -/
def takeOut (first last : ℕ) (l : List (ℕ × ρ)) : List (ℕ × ρ) :=
  (meeting stop first last l).foldl (cut c first last) l

/-- What the range leaves of a run that it meets. -/
def remnants (first last : ℕ) (e : ℕ × ρ) : List (ℕ × ρ) :=
  (if e.1 < first then [(e.1, c.head first e.2)] else []) ++
    if last < stop e.2 then [(last, c.tail last e)] else []

/-- What the range leaves of a run. -/
def outside (first last : ℕ) (e : ℕ × ρ) : List (ℕ × ρ) :=
  if e.1 < last ∧ first < stop e.2 then remnants c first last e else [e]

variable {c} {l pre post m : List (ℕ × ρ)} {e r : ℕ × ρ} {first last k : ℕ} {v : ρ}

/-- An entry between those with smaller keys and those with larger ones. -/
theorem insert_middle (hpre : ∀ e ∈ pre, e.1 < k) (hpost : ∀ e ∈ post, k < e.1) :
    insert k v (pre ++ post) = pre ++ (k, v) :: post := by
  induction pre with
  | nil =>
    cases post with
    | nil => rfl
    | cons e post => exact if_pos (hpost e List.mem_cons_self)
  | cons e pre ih =>
    obtain ⟨he, hpre⟩ := List.forall_mem_cons.mp hpre
    rw [List.cons_append, insert, if_neg he.not_gt, if_neg he.ne', ih hpre, List.cons_append]

/-- Runs in the place of one that held their bytes. -/
theorem Runs.replace (h : Runs stop (pre ++ e :: post)) (hm : Runs stop m)
    (hin : ∀ r ∈ m, e.1 ≤ r.1 ∧ stop r.2 ≤ stop e.2) : Runs stop (pre ++ (m ++ post)) := by
  obtain ⟨hpre, hrest, hsep⟩ := List.pairwise_append.mp h.sep
  obtain ⟨he, hpost⟩ := List.pairwise_cons.mp hrest
  refine ⟨fun r hr => ?_, List.pairwise_append.mpr ⟨hpre, List.pairwise_append.mpr
    ⟨hm.sep, hpost, fun r hr p hp => (hin r hr).2.trans (he p hp)⟩, fun a ha b hb => ?_⟩⟩
  · rcases List.mem_append.mp hr with hr | hr
    · exact h.lt r (List.mem_append_left _ hr)
    · rcases List.mem_append.mp hr with hr | hr
      · exact hm.lt r hr
      · exact h.lt r (List.mem_append_right _ (List.mem_cons_of_mem e hr))
  · rcases List.mem_append.mp hb with hb | hb
    · exact (hsep a ha e List.mem_cons_self).trans (hin b hb).1
    · exact hsep a ha b (List.mem_cons_of_mem e hb)

theorem mem_remnants : r ∈ remnants c first last e ↔
    e.1 < first ∧ r = (e.1, c.head first e.2) ∨ last < stop e.2 ∧ r = (last, c.tail last e) := by
  rw [remnants, List.mem_append]
  split_ifs with hhead htail htail <;> simp [hhead, htail]

/-- The remnants are runs, and lie in the run. -/
theorem runs_remnants (hle : first ≤ last) (hlast : e.1 < last) (hfirst : first < stop e.2) :
    Runs stop (remnants c first last e) ∧
      ∀ r ∈ remnants c first last e, e.1 ≤ r.1 ∧ stop r.2 ≤ stop e.2 := by
  refine ⟨⟨fun r hr => ?_, ?_⟩, fun r hr => ?_⟩
  · rcases mem_remnants.mp hr with ⟨hhead, rfl⟩ | ⟨htail, rfl⟩
    · exact hhead.trans_eq (c.stop_head first e.2).symm
    · exact htail.trans_eq (c.stop_tail last e).symm
  · rw [remnants]
    split_ifs with hhead htail htail
    · refine List.pairwise_pair.mpr ?_
      rw [c.stop_head]
      exact hle
    · exact List.pairwise_singleton _ _
    · exact List.pairwise_singleton _ _
    · exact .nil
  · rcases mem_remnants.mp hr with ⟨-, rfl⟩ | ⟨-, rfl⟩
    · exact ⟨le_rfl, (c.stop_head first e.2).trans_le hfirst.le⟩
    · exact ⟨hlast.le, (c.stop_tail last e).le⟩

/-- A run cut has its remnants in its place. -/
theorem Runs.cut_middle (h : Runs stop (pre ++ e :: post)) (hlast : e.1 < last) :
    cut c first last (pre ++ e :: post) e = pre ++ (remnants c first last e ++ post) := by
  obtain ⟨hlt, hrest, hpre, hpost⟩ := runs_middle_iff.mp h
  have hbelow : ∀ p ∈ pre, p.1 < e.1 := fun p hp =>
    (hrest.lt p (List.mem_append_left _ hp)).trans_le (hpre p hp)
  have habove : ∀ p ∈ post, e.1 < p.1 := fun p hp => hlt.trans_le (hpost p hp)
  have herase : RunMap.erase e.1 (pre ++ e :: post) = pre ++ post := Runs.erase_middle (v := e.2) h
  have hhead : (if e.1 < first then RunMap.insert e.1 (c.head first e.2) (pre ++ post)
      else pre ++ post) =
      (pre ++ if e.1 < first then [(e.1, c.head first e.2)] else []) ++ post := by
    split_ifs
    · rw [insert_middle hbelow habove, List.append_assoc, List.singleton_append]
    · rw [List.append_nil]
  rw [cut, herase, hhead, remnants]
  by_cases htail : last < stop e.2
  · rw [if_pos htail, if_pos htail, insert_middle]
    · simp only [List.append_assoc, List.singleton_append]
    · intro p hp
      rcases List.mem_append.mp hp with hp | hp
      · exact (hbelow p hp).trans hlast
      · split_ifs at hp
        · rw [List.mem_singleton.mp hp]
          exact hlast
        · exact absurd hp List.not_mem_nil
    · exact fun p hp => htail.trans_le (hpost p hp)
  · rw [if_neg htail, if_neg htail]
    simp only [List.append_assoc, List.nil_append]

/-- The cuts from the last run down, in front of runs that are through. -/
theorem Runs.foldl_cut (hle : first ≤ last) (h : Runs stop (l ++ post)) :
    (l.filter fun e => decide (e.1 < last ∧ first < stop e.2)).reverse.foldl (cut c first last)
        (l ++ post) = l.flatMap (outside c first last) ++ post ∧
      Runs stop (l.flatMap (outside c first last) ++ post) := by
  induction l using List.reverseRecOn generalizing post with
  | nil => exact ⟨rfl, h⟩
  | append_singleton l e ih =>
    rw [List.append_assoc, List.singleton_append] at h
    rw [List.filter_append, List.flatMap_append, List.flatMap_singleton, List.append_assoc,
      List.append_assoc, List.singleton_append]
    by_cases hmeets : e.1 < last ∧ first < stop e.2
    · obtain ⟨hruns, hin⟩ := runs_remnants (c := c) hle hmeets.1 hmeets.2
      rw [List.filter_cons_of_pos (by simpa using hmeets), List.filter_nil, List.reverse_append,
        List.reverse_singleton, List.singleton_append, List.foldl_cons, h.cut_middle hmeets.1, outside,
        if_pos hmeets]
      exact ih (h.replace hruns hin)
    · rw [List.filter_cons_of_neg (by simpa using hmeets), List.filter_nil, List.append_nil, outside,
        if_neg hmeets, List.singleton_append]
      exact ih h

/-- The map after a range is taken out. -/
theorem Runs.takeOut_eq (h : Runs stop l) (hle : first ≤ last) :
    takeOut c first last l = l.flatMap (outside c first last) := by
  rw [← List.append_nil l] at h
  have hcuts := (Runs.foldl_cut (c := c) hle h).1
  rw [List.append_nil, List.append_nil] at hcuts
  rw [List.append_nil] at h
  rw [takeOut, h.meeting_eq, hcuts]

theorem Runs.takeOut (h : Runs stop l) (hle : first ≤ last) :
    Runs stop (takeOut c first last l) := by
  rw [h.takeOut_eq hle]
  rw [← List.append_nil l] at h
  have hruns := (Runs.foldl_cut (c := c) hle h).2
  rwa [List.append_nil] at hruns

/-- Where the runs after a range is taken out come from. -/
theorem Runs.mem_takeOut (h : Runs stop l) (hle : first ≤ last) :
    r ∈ RunMap.takeOut c first last l ↔ ∃ e ∈ l,
      (e.1 < last ∧ first < stop e.2) ∧ r ∈ remnants c first last e ∨
        ¬(e.1 < last ∧ first < stop e.2) ∧ r = e := by
  rw [h.takeOut_eq hle, List.mem_flatMap]
  refine exists_congr fun e => and_congr_right fun _ => ?_
  rw [outside]
  split_ifs with hmeets <;> simp [hmeets]

/-- No run left holds a byte of the range. -/
theorem Runs.apart_takeOut (h : Runs stop l) (hle : first ≤ last) :
    ∀ r ∈ RunMap.takeOut c first last l, stop r.2 ≤ first ∨ last ≤ r.1 := by
  intro r hr
  obtain ⟨e, -, ⟨-, hr⟩ | ⟨hmiss, rfl⟩⟩ := (h.mem_takeOut hle).mp hr
  · rcases mem_remnants.mp hr with ⟨-, rfl⟩ | ⟨-, rfl⟩
    · exact .inl (c.stop_head first e.2).le
    · exact .inr le_rfl
  · omega

/-- The first run from a byte on starts before all others from there on. -/
theorem Runs.le_of_after (h : Runs stop l) (hafter : after k l = some e) :
    e ∈ l ∧ k ≤ e.1 ∧ ∀ r ∈ l, k ≤ r.1 → e.1 ≤ r.1 := by
  obtain ⟨pre, post, rfl, hpre, hpost⟩ := h.exists_split k
  rw [after_append hpre hpost] at hafter
  obtain ⟨post, rfl⟩ := List.head?_eq_some_iff.mp hafter
  obtain ⟨he, -, hsep⟩ := runs_cons_iff.mp (h.sublist (List.sublist_append_right pre (e :: post)))
  refine ⟨List.mem_append_right pre List.mem_cons_self, hpost e List.mem_cons_self, fun r hr hk => ?_⟩
  rcases List.mem_append.mp hr with hr | hr
  · exact absurd (hpre r hr) hk.not_gt
  · rcases List.mem_cons.mp hr with rfl | hr
    · exact le_rfl
    · exact he.le.trans (hsep r hr)

theorem after_eq_none_iff : after k l = none ↔ ∀ r ∈ l, r.1 < k := by
  rw [after, List.find?_eq_none]
  simp only [decide_eq_true_eq, not_le]

end RunMap
