import Mathlib.Data.List.Basic
import Mathlib.Data.List.Pairwise
import Mathlib.Order.Nat

/-!
# Maps from the first bytes of disjoint runs

A sorted map whose keys are natural numbers, written as the list of its entries in ascending order,
in which every entry is a run: it starts at its key and stops where its value says. The runs are not
empty and no two overlap, while two may touch. This file gives what an ordered map offers such a
list, and the scans that its disjointness makes exact.

## Main definitions

* `RunMap.Runs`: the entries are nonempty runs in ascending order, none overlapping the next.
* `RunMap.insert`, `RunMap.erase`, `RunMap.before`, `RunMap.after`: the operations of a sorted map.
* `RunMap.meeting`: the scan down from the end of a range for the runs that meet it.
* `RunMap.holding`: the run that holds a byte.

## Main results

* `RunMap.Runs.exists_insert_eq`, `RunMap.Runs.insert`: a run put where none lies.
* `RunMap.Runs.erase_middle`: a run taken out.
* `RunMap.Runs.meeting_eq`: the scan finds the runs that meet the range.
* `RunMap.Runs.holding_eq_some_iff`, `RunMap.Runs.before_filter_eq`: the last run that starts no later
  than a byte is the one that holds it, if any does.
-/

namespace RunMap

variable {ρ : Type*}

/-- The entry put into the map, in the place of the one with its key. -/
def insert (k : ℕ) (v : ρ) : List (ℕ × ρ) → List (ℕ × ρ)
  | [] => [(k, v)]
  | e :: l => if k < e.1 then (k, v) :: e :: l else if k = e.1 then (k, v) :: l else e :: insert k v l

/-- The entry with the key taken out of the map. -/
def erase (k : ℕ) (l : List (ℕ × ρ)) : List (ℕ × ρ) := l.filter fun e => decide (e.1 ≠ k)

/-- The last entry whose key is below the given one. -/
def before (k : ℕ) (l : List (ℕ × ρ)) : Option (ℕ × ρ) :=
  (l.filter fun e => decide (e.1 < k)).getLast?

/-- The first entry whose key is not below the given one. -/
def after (k : ℕ) (l : List (ℕ × ρ)) : Option (ℕ × ρ) := l.find? fun e => decide (k ≤ e.1)

/-- The entries found from the last one that starts before the end of a range, down to the first that
stops before the range starts. -/
def meeting (stop : ρ → ℕ) (first last : ℕ) (l : List (ℕ × ρ)) : List (ℕ × ρ) :=
  (l.filter fun e => decide (e.1 < last)).reverse.takeWhile fun e => decide (first < stop e.2)

/-- The run that holds a byte. -/
def holding (stop : ρ → ℕ) (x : ℕ) (l : List (ℕ × ρ)) : Option (ℕ × ρ) :=
  l.find? fun e => decide (e.1 ≤ x ∧ x < stop e.2)

/-- The entries are nonempty runs in ascending order, none overlapping the next. -/
structure Runs (stop : ρ → ℕ) (l : List (ℕ × ρ)) : Prop where
  lt : ∀ e ∈ l, e.1 < stop e.2
  sep : l.Pairwise fun e e' => stop e.2 ≤ e'.1

variable {stop : ρ → ℕ} {l l' pre post : List (ℕ × ρ)} {k : ℕ} {v : ρ}

theorem runs_nil : Runs stop ([] : List (ℕ × ρ)) :=
  ⟨fun _ he => absurd he List.not_mem_nil, .nil⟩

theorem Runs.sublist (h : Runs stop l) (hl : l'.Sublist l) : Runs stop l' :=
  ⟨fun e he => h.lt e (hl.subset he), h.sep.sublist hl⟩

theorem Runs.erase (h : Runs stop l) (k : ℕ) : Runs stop (erase k l) :=
  h.sublist List.filter_sublist

theorem runs_cons_iff {e : ℕ × ρ} :
    Runs stop (e :: l) ↔ e.1 < stop e.2 ∧ Runs stop l ∧ ∀ e' ∈ l, stop e.2 ≤ e'.1 := by
  constructor
  · rintro ⟨hlt, hsep⟩
    obtain ⟨hc, h⟩ := List.pairwise_cons.mp hsep
    exact ⟨hlt e List.mem_cons_self, ⟨fun e' he' => hlt e' (List.mem_cons_of_mem e he'), h⟩, hc⟩
  · rintro ⟨he, ⟨hlt, hsep⟩, hc⟩
    exact ⟨List.forall_mem_cons.mpr ⟨he, hlt⟩, List.pairwise_cons.mpr ⟨hc, hsep⟩⟩

/-- A run between the runs below it and the runs above it. -/
theorem runs_middle_iff :
    Runs stop (pre ++ (k, v) :: post) ↔
      k < stop v ∧ Runs stop (pre ++ post) ∧ (∀ e ∈ pre, stop e.2 ≤ k) ∧
        ∀ e ∈ post, stop v ≤ e.1 := by
  constructor
  · intro h
    obtain ⟨-, hpost, hc⟩ := List.pairwise_append.mp h.sep
    refine ⟨h.lt (k, v) (List.mem_append_right _ List.mem_cons_self),
      h.sublist ((List.sublist_cons_self _ _).append_left _),
      fun e he => hc e he (k, v) List.mem_cons_self, (List.pairwise_cons.mp hpost).1⟩
  · rintro ⟨hlt, h, hpre, hpost⟩
    obtain ⟨hpre', hpost', hc⟩ := List.pairwise_append.mp h.sep
    refine ⟨fun e he => ?_, List.pairwise_append.mpr ⟨hpre', .cons hpost hpost', ?_⟩⟩
    · rcases List.mem_append.mp he with he | he
      · exact h.lt e (List.mem_append_left _ he)
      · rcases List.mem_cons.mp he with rfl | he
        · exact hlt
        · exact h.lt e (List.mem_append_right _ he)
    · intro e he e' he'
      rcases List.mem_cons.mp he' with rfl | he'
      · exact hpre e he
      · exact hc e he e' he'

/-- Two runs that share a byte are one. -/
theorem Runs.eq_of_lt (h : Runs stop l) {e e' : ℕ × ρ} (he : e ∈ l) (he' : e' ∈ l)
    (hlt : e.1 < stop e'.2) (hlt' : e'.1 < stop e.2) : e = e' := by
  induction h.sep with
  | nil => cases he
  | @cons x l hx hl ih =>
    have hrest : Runs stop l := h.sublist (List.sublist_cons_self x l)
    rcases List.mem_cons.mp he with hex | hel <;> rcases List.mem_cons.mp he' with hex' | hel'
    · exact hex.trans hex'.symm
    · exact absurd hlt' (hex ▸ hx e' hel').not_gt
    · exact absurd hlt (hex' ▸ hx e hel).not_gt
    · exact ih hrest hel hel'

theorem Runs.eq_of_key (h : Runs stop l) {e e' : ℕ × ρ} (he : e ∈ l) (he' : e' ∈ l)
    (hk : e.1 = e'.1) : e = e' :=
  h.eq_of_lt he he' (hk ▸ h.lt e' he') (hk ▸ h.lt e he)

theorem Runs.nodup (h : Runs stop l) : l.Nodup := by
  refine h.sep.imp_of_mem fun {a b} ha _ hab hne => ?_
  rw [← hne] at hab
  exact absurd hab (h.lt a ha).not_ge

/-! ### A run put in and taken out -/

/-- A run put where no run lies goes between the runs below it and those above it. -/
theorem Runs.exists_insert_eq (h : Runs stop l)
    (hfree : ∀ e ∈ l, stop e.2 ≤ k ∨ stop v ≤ e.1) (hlt : k < stop v) :
    ∃ pre post, l = pre ++ post ∧ RunMap.insert k v l = pre ++ (k, v) :: post ∧
      (∀ e ∈ pre, stop e.2 ≤ k) ∧ ∀ e ∈ post, stop v ≤ e.1 := by
  induction l with
  | nil => exact ⟨[], [], rfl, rfl, fun _ he => absurd he List.not_mem_nil,
      fun _ he => absurd he List.not_mem_nil⟩
  | cons x l ih =>
    obtain ⟨hx, hl, hsep⟩ := runs_cons_iff.mp h
    obtain ⟨hxfree, hlfree⟩ := List.forall_mem_cons.mp hfree
    rcases hxfree with hbelow | habove
    · obtain ⟨pre, post, rfl, hins, hpre, hpost⟩ := ih hl hlfree
      refine ⟨x :: pre, post, rfl, ?_, List.forall_mem_cons.mpr ⟨hbelow, hpre⟩, hpost⟩
      rw [RunMap.insert, if_neg (by omega), if_neg (by omega), hins, List.cons_append]
    · refine ⟨[], x :: l, rfl, ?_, fun _ he => absurd he List.not_mem_nil,
        List.forall_mem_cons.mpr ⟨habove, fun e he => ?_⟩⟩
      · rw [RunMap.insert, if_pos (by omega), List.nil_append]
      · exact habove.trans (hx.le.trans (hsep e he))

theorem Runs.insert (h : Runs stop l) (hfree : ∀ e ∈ l, stop e.2 ≤ k ∨ stop v ≤ e.1)
    (hlt : k < stop v) : Runs stop (RunMap.insert k v l) := by
  obtain ⟨pre, post, rfl, hins, hpre, hpost⟩ := h.exists_insert_eq hfree hlt
  rw [hins]
  exact runs_middle_iff.mpr ⟨hlt, h, hpre, hpost⟩

theorem Runs.insert_perm (h : Runs stop l) (hfree : ∀ e ∈ l, stop e.2 ≤ k ∨ stop v ≤ e.1)
    (hlt : k < stop v) : (RunMap.insert k v l).Perm ((k, v) :: l) := by
  obtain ⟨pre, post, rfl, hins, -, -⟩ := h.exists_insert_eq hfree hlt
  rw [hins]
  exact List.perm_middle

theorem Runs.mem_insert (h : Runs stop l) (hfree : ∀ e ∈ l, stop e.2 ≤ k ∨ stop v ≤ e.1)
    (hlt : k < stop v) {e : ℕ × ρ} : e ∈ RunMap.insert k v l ↔ e = (k, v) ∨ e ∈ l := by
  rw [(h.insert_perm hfree hlt).mem_iff, List.mem_cons]

/-- The run with the key goes, between the runs below it and those above it. -/
theorem Runs.erase_middle (h : Runs stop (pre ++ (k, v) :: post)) :
    RunMap.erase k (pre ++ (k, v) :: post) = pre ++ post := by
  obtain ⟨hlt, hrest, hpre, hpost⟩ := runs_middle_iff.mp h
  have hne : ∀ e ∈ pre ++ post, e.1 ≠ k := by
    intro e he
    have hele := hrest.lt e he
    rcases List.mem_append.mp he with he | he
    · exact (hele.trans_le (hpre e he)).ne
    · exact (hlt.trans_le (hpost e he)).ne'
  rw [RunMap.erase, List.filter_append, List.filter_cons_of_neg (by simp), ← List.filter_append]
  exact List.filter_eq_self.mpr fun e he => decide_eq_true (hne e he)

theorem Runs.erase_perm (h : Runs stop l) (hmem : (k, v) ∈ l) :
    ((k, v) :: RunMap.erase k l).Perm l := by
  obtain ⟨pre, post, rfl⟩ := List.append_of_mem hmem
  rw [h.erase_middle]
  exact List.perm_middle.symm

theorem mem_erase {e : ℕ × ρ} : e ∈ RunMap.erase k l ↔ e ∈ l ∧ e.1 ≠ k := by
  rw [RunMap.erase, List.mem_filter, decide_eq_true_eq]

theorem erase_of_notMem (h : ∀ e ∈ l, e.1 ≠ k) : RunMap.erase k l = l :=
  List.filter_eq_self.mpr fun e he => decide_eq_true (h e he)

/-! ### The scan -/

/-- A scan that may stop finds all, where what is past its stop does not count. -/
theorem takeWhile_eq_filter {β : Type*} {p : β → Bool} {m : List β}
    (h : m.Pairwise fun a b => p b = true → p a = true) : m.takeWhile p = m.filter p := by
  induction h with
  | nil => rfl
  | @cons a m ha hm ih =>
    by_cases hp : p a = true
    · rw [List.takeWhile_cons_of_pos hp, List.filter_cons_of_pos hp, ih]
    · rw [List.takeWhile_cons_of_neg hp, List.filter_cons_of_neg hp]
      exact (List.filter_eq_nil_iff.mpr fun b hb hpb => hp (ha b hb hpb)).symm

/-- The scan finds the runs that meet the range, in descending order. -/
theorem Runs.meeting_eq (h : Runs stop l) (first last : ℕ) :
    meeting stop first last l =
      (l.filter fun e => decide (e.1 < last ∧ first < stop e.2)).reverse := by
  have hends : (l.filter fun e => decide (e.1 < last)).reverse.Pairwise fun a b =>
      decide (first < stop b.2) = true → decide (first < stop a.2) = true := by
    refine List.pairwise_reverse.mpr ((h.sep.imp_of_mem ?_).sublist List.filter_sublist)
    intro a b _ hb hab hfirst
    rw [decide_eq_true_eq] at hfirst ⊢
    exact hfirst.trans_le (hab.trans (h.lt b hb).le)
  rw [meeting, takeWhile_eq_filter hends, List.filter_reverse, List.filter_filter]
  refine congrArg List.reverse (List.filter_congr fun e _ => ?_)
  rw [Bool.decide_and, Bool.and_comm]

/-! ### Neighbours and bytes -/

theorem before_append (hpre : ∀ e ∈ pre, e.1 < k) (hpost : ∀ e ∈ post, k ≤ e.1) :
    before k (pre ++ post) = pre.getLast? := by
  have hall : pre.filter (fun e => decide (e.1 < k)) = pre :=
    List.filter_eq_self.mpr fun e he => decide_eq_true (hpre e he)
  have hnone : post.filter (fun e => decide (e.1 < k)) = [] :=
    List.filter_eq_nil_iff.mpr fun e he h => (of_decide_eq_true h).not_ge (hpost e he)
  rw [before, List.filter_append, hall, hnone, List.append_nil]

theorem after_append (hpre : ∀ e ∈ pre, e.1 < k) (hpost : ∀ e ∈ post, k ≤ e.1) :
    after k (pre ++ post) = post.head? := by
  have hnone : pre.find? (fun e => decide (k ≤ e.1)) = none :=
    List.find?_eq_none.mpr fun e he h => (of_decide_eq_true h).not_gt (hpre e he)
  rw [after, List.find?_append, hnone, Option.none_or]
  cases post with
  | nil => rfl
  | cons e post =>
    rw [List.find?_cons_of_pos (p := fun e : ℕ × ρ => decide (k ≤ e.1))
      (decide_eq_true (hpost e List.mem_cons_self)), List.head?_cons]

theorem Runs.holding_eq_some_iff (h : Runs stop l) {x : ℕ} {e : ℕ × ρ} :
    holding stop x l = some e ↔ e ∈ l ∧ e.1 ≤ x ∧ x < stop e.2 := by
  constructor
  · intro he
    have htest := List.find?_some (p := fun e : ℕ × ρ => decide (e.1 ≤ x ∧ x < stop e.2)) he
    exact ⟨List.mem_of_find?_eq_some he, of_decide_eq_true htest⟩
  · rintro ⟨he, hle, hlt⟩
    cases hfind : holding stop x l with
    | none => exact absurd (decide_eq_true ⟨hle, hlt⟩) (List.find?_eq_none.mp hfind e he)
    | some e' =>
      have htest := List.find?_some (p := fun e : ℕ × ρ => decide (e.1 ≤ x ∧ x < stop e.2)) hfind
      obtain ⟨hle', hlt'⟩ := of_decide_eq_true htest
      exact congrArg some (h.eq_of_lt (List.mem_of_find?_eq_some hfind) he (hle'.trans_lt hlt)
        (hle.trans_lt hlt'))

theorem holding_eq_none_iff {x : ℕ} :
    holding stop x l = none ↔ ∀ e ∈ l, ¬(e.1 ≤ x ∧ x < stop e.2) := by
  rw [holding, List.find?_eq_none]
  simp only [decide_eq_true_eq]

/-- The map splits at a key. -/
theorem Runs.exists_split (h : Runs stop l) (k : ℕ) :
    ∃ pre post, l = pre ++ post ∧ (∀ e ∈ pre, e.1 < k) ∧ ∀ e ∈ post, k ≤ e.1 := by
  induction l with
  | nil => exact ⟨[], [], rfl, fun _ he => absurd he List.not_mem_nil,
      fun _ he => absurd he List.not_mem_nil⟩
  | cons x l ih =>
    obtain ⟨hx, hl, hsep⟩ := runs_cons_iff.mp h
    by_cases hk : x.1 < k
    · obtain ⟨pre, post, rfl, hpre, hpost⟩ := ih hl
      exact ⟨x :: pre, post, rfl, List.forall_mem_cons.mpr ⟨hk, hpre⟩, hpost⟩
    · refine ⟨[], x :: l, rfl, fun _ he => absurd he List.not_mem_nil, fun e he => ?_⟩
      rcases List.mem_cons.mp he with rfl | he
      · exact not_lt.mp hk
      · exact (not_lt.mp hk).trans (hx.le.trans (hsep e he))

/-- The last run that starts no later than a byte holds it, or none does. -/
theorem Runs.before_filter_eq (h : Runs stop l) (x : ℕ) :
    (before (x + 1) l).filter (fun e => decide (x < stop e.2)) = holding stop x l := by
  obtain ⟨pre, post, rfl, hpre, hpost⟩ := h.exists_split (x + 1)
  rw [before_append hpre hpost]
  have hafter : ∀ e ∈ post, ¬(e.1 ≤ x ∧ x < stop e.2) := fun e he hx =>
    absurd (hpost e he) (Nat.lt_succ_of_le hx.1).not_ge
  rcases pre.eq_nil_or_concat' with rfl | ⟨pre, e, rfl⟩
  · exact (holding_eq_none_iff.mpr hafter).symm
  · have hmem : e ∈ pre ++ [e] ++ post :=
      List.mem_append_left _ (List.mem_append_right _ List.mem_cons_self)
    have hle : e.1 ≤ x := Nat.le_of_lt_succ (hpre e (List.mem_append_right _ List.mem_cons_self))
    rw [List.getLast?_concat]
    by_cases hlt : x < stop e.2
    · rw [Option.filter_some_pos (p := fun e : ℕ × ρ => decide (x < stop e.2)) (decide_eq_true hlt)]
      exact (h.holding_eq_some_iff.mpr ⟨hmem, hle, hlt⟩).symm
    · rw [Option.filter_some_neg (p := fun e : ℕ × ρ => decide (x < stop e.2)) (by simpa using hlt)]
      refine (holding_eq_none_iff.mpr fun e' he' hx => ?_).symm
      rcases List.mem_append.mp he' with he' | he'
      · have hends : stop e'.2 ≤ stop e.2 := by
          rcases List.mem_append.mp he' with he' | he'
          · have hsep := (List.pairwise_append.mp (List.pairwise_append.mp h.sep).1).2.2
            exact (hsep e' he' e List.mem_cons_self).trans (h.lt e hmem).le
          · rw [List.mem_singleton.mp he']
        exact absurd (hx.2.trans_le hends) hlt
      · exact hafter e' he' hx

end RunMap
