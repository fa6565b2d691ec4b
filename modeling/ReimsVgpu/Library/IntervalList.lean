import Mathlib.Data.List.Pairwise
import Mathlib.Order.Interval.Set.LinearOrder
import Mathlib.Data.Set.Lattice

/-!
# Ascending lists of half-open intervals

A list of pairs `(a, b)` over a linear order is *separated* when every pair is a nonempty
half-open interval `[a, b)` and consecutive intervals neither overlap nor touch. Such a list is
determined by the set of its points, so it is a canonical way to write a finite union of
intervals. This file gives the four ways of adding an interval at a known place (alone, glued on
either side, bridging two neighbours), the two ways of taking the front of one away, and, over the
natural numbers, the description of the members of the list as the maximal blocks of its points.

## Main definitions

* `IntervalList.Separated`, `IntervalList.points`.

## Main results

* `IntervalList.Separated.insert_between`, `IntervalList.Separated.extend_right`,
  `IntervalList.Separated.extend_left`, `IntervalList.Separated.bridge`.
* `IntervalList.Separated.carve`.
* `IntervalList.Separated.exists_mem_iff_starts_block`,
  `IntervalList.Separated.add_le_iff_points`.
-/

namespace IntervalList

variable {α : Type*} [LinearOrder α]

/-- The intervals are nonempty, ascending, and no two of them overlap or touch. -/
structure Separated (l : List (α × α)) : Prop where
  lt : ∀ p ∈ l, p.1 < p.2
  sep : l.Pairwise fun p q => p.2 < q.1

/-- The points covered by the intervals of the list. -/
def points (l : List (α × α)) : Set α := {x | ∃ p ∈ l, x ∈ Set.Ico p.1 p.2}

theorem mem_points {l : List (α × α)} {x : α} :
    x ∈ points l ↔ ∃ p ∈ l, p.1 ≤ x ∧ x < p.2 := Iff.rfl

@[simp] theorem points_nil : points ([] : List (α × α)) = ∅ := by
  ext x
  simp [points]

@[simp] theorem points_cons (p : α × α) (l : List (α × α)) :
    points (p :: l) = Set.Ico p.1 p.2 ∪ points l := by
  ext x
  simp [points]

@[simp] theorem points_append (l l' : List (α × α)) :
    points (l ++ l') = points l ∪ points l' := by
  ext x
  simp [points, or_and_right, exists_or]

theorem separated_singleton {a b : α} (h : a < b) : Separated [(a, b)] :=
  ⟨by simpa using h, List.pairwise_singleton _ _⟩

/-- A separated list is two separated lists, the first ending before the second starts. -/
theorem separated_append_iff {l l' : List (α × α)} :
    Separated (l ++ l') ↔ Separated l ∧ Separated l' ∧ ∀ p ∈ l, ∀ q ∈ l', p.2 < q.1 := by
  constructor
  · rintro ⟨hlt, hsep⟩
    obtain ⟨h, h', hc⟩ := List.pairwise_append.mp hsep
    exact ⟨⟨fun p hp => hlt p (List.mem_append_left _ hp), h⟩,
      ⟨fun p hp => hlt p (List.mem_append_right _ hp), h'⟩, hc⟩
  · rintro ⟨⟨hlt, hsep⟩, ⟨hlt', hsep'⟩, hc⟩
    refine ⟨fun p hp => ?_, List.pairwise_append.mpr ⟨hsep, hsep', hc⟩⟩
    rcases List.mem_append.mp hp with hp | hp
    · exact hlt p hp
    · exact hlt' p hp

theorem separated_cons_iff {p : α × α} {l : List (α × α)} :
    Separated (p :: l) ↔ p.1 < p.2 ∧ Separated l ∧ ∀ q ∈ l, p.2 < q.1 := by
  constructor
  · rintro ⟨hlt, hsep⟩
    obtain ⟨hc, h⟩ := List.pairwise_cons.mp hsep
    exact ⟨hlt p List.mem_cons_self, ⟨fun q hq => hlt q (List.mem_cons_of_mem p hq), h⟩, hc⟩
  · rintro ⟨hp, ⟨hlt, hsep⟩, hc⟩
    exact ⟨List.forall_mem_cons.mpr ⟨hp, hlt⟩, List.pairwise_cons.mpr ⟨hc, hsep⟩⟩

/-- An ascending list splits at a property that passes down. -/
theorem exists_split_of_pairwise {β : Type*} {R : β → β → Prop} {P : β → Prop} {l : List β}
    (hl : l.Pairwise R) (hP : ∀ x y, R x y → P y → P x) :
    ∃ pre post, l = pre ++ post ∧ (∀ x ∈ pre, P x) ∧ ∀ y ∈ post, ¬ P y := by
  induction l with
  | nil => exact ⟨[], [], rfl, by simp, by simp⟩
  | cons x l ih =>
    obtain ⟨hx, hl⟩ := List.pairwise_cons.mp hl
    by_cases hPx : P x
    · obtain ⟨pre, post, rfl, hpre, hpost⟩ := ih hl
      exact ⟨x :: pre, post, rfl, List.forall_mem_cons.mpr ⟨hPx, hpre⟩, hpost⟩
    · refine ⟨[], x :: l, rfl, by simp, List.forall_mem_cons.mpr ⟨hPx, fun y hy hPy => ?_⟩⟩
      exact hPx (hP x y (hx y hy) hPy)

namespace Separated

variable {pre post l : List (α × α)} {a b c d m : α}

/-- The shape every lemma below works at: one interval with the lists on its two sides. -/
theorem middle_iff : Separated (pre ++ (a, b) :: post) ↔
    Separated pre ∧ a < b ∧ Separated post ∧ (∀ p ∈ pre, p.2 < a) ∧
      (∀ q ∈ post, b < q.1) ∧ ∀ p ∈ pre, ∀ q ∈ post, p.2 < q.1 := by
  rw [separated_append_iff, separated_cons_iff]
  simp only [List.forall_mem_cons, forall_and]
  tauto

/-- Add an interval that touches neither side. -/
theorem insert_between (h : Separated (pre ++ post)) (hab : a < b)
    (hpre : ∀ p ∈ pre, p.2 < a) (hpost : ∀ q ∈ post, b < q.1) :
    Separated (pre ++ (a, b) :: post) ∧
      points (pre ++ (a, b) :: post) = points (pre ++ post) ∪ Set.Ico a b := by
  obtain ⟨hl, hr, hc⟩ := separated_append_iff.mp h
  refine ⟨middle_iff.mpr ⟨hl, hab, hr, hpre, hpost, hc⟩, ?_⟩
  rw [points_append, points_append, points_cons, Set.union_comm (Set.Ico a b), Set.union_assoc]

/-- Add an interval glued to the end of the one before it. -/
theorem extend_right (h : Separated (pre ++ (c, a) :: post)) (hab : a < b)
    (hpost : ∀ q ∈ post, b < q.1) : Separated (pre ++ (c, b) :: post) ∧
      points (pre ++ (c, b) :: post) = points (pre ++ (c, a) :: post) ∪ Set.Ico a b := by
  obtain ⟨hl, hca, hr, hpre, -, hc⟩ := middle_iff.mp h
  refine ⟨middle_iff.mpr ⟨hl, hca.trans hab, hr, hpre, hpost, hc⟩, ?_⟩
  rw [points_append, points_append, points_cons, points_cons, Set.union_assoc,
    Set.union_right_comm, Set.Ico_union_Ico_eq_Ico hca.le hab.le]

/-- Add an interval glued to the start of the one after it. -/
theorem extend_left (h : Separated (pre ++ (b, d) :: post)) (hab : a < b)
    (hpre : ∀ p ∈ pre, p.2 < a) : Separated (pre ++ (a, d) :: post) ∧
      points (pre ++ (a, d) :: post) = points (pre ++ (b, d) :: post) ∪ Set.Ico a b := by
  obtain ⟨hl, hbd, hr, -, hpost, hc⟩ := middle_iff.mp h
  refine ⟨middle_iff.mpr ⟨hl, hab.trans hbd, hr, hpre, hpost, hc⟩, ?_⟩
  rw [points_append, points_append, points_cons, points_cons, Set.union_assoc,
    Set.union_right_comm, Set.union_comm (Set.Ico b d), Set.Ico_union_Ico_eq_Ico hab.le hbd.le]

/-- Add the interval between two neighbours: they become one. -/
theorem bridge (h : Separated (pre ++ (c, a) :: (b, d) :: post)) :
    Separated (pre ++ (c, d) :: post) ∧
      points (pre ++ (c, d) :: post) =
        points (pre ++ (c, a) :: (b, d) :: post) ∪ Set.Ico a b := by
  obtain ⟨hl, hca, hr, hpre, hpost, hc⟩ := middle_iff.mp h
  obtain ⟨hbd, hr', hpost'⟩ := separated_cons_iff.mp hr
  have hab : a < b := hpost (b, d) List.mem_cons_self
  refine ⟨middle_iff.mpr ⟨hl, hca.trans (hab.trans hbd), hr', hpre, hpost', fun p hp q hq =>
    hc p hp q (List.mem_cons_of_mem _ hq)⟩, ?_⟩
  rw [points_append, points_append, points_cons, points_cons, points_cons, Set.union_assoc,
    Set.union_right_comm, ← Set.union_assoc (Set.Ico c a ∪ Set.Ico a b),
    Set.Ico_union_Ico_eq_Ico hca.le hab.le, Set.Ico_union_Ico_eq_Ico (hca.trans hab).le hbd.le]

/-- Take a proper front of an interval away. -/
theorem take_front (h : Separated (pre ++ (a, b) :: post)) (ham : a ≤ m) (hmb : m < b) :
    Separated (pre ++ (m, b) :: post) := by
  obtain ⟨hl, -, hr, hpre, hpost, hc⟩ := middle_iff.mp h
  exact middle_iff.mpr ⟨hl, hmb, hr, fun p hp => (hpre p hp).trans_le ham, hpost, hc⟩

/-- Take a whole interval away. -/
theorem take_all (h : Separated (pre ++ (a, b) :: post)) : Separated (pre ++ post) := by
  obtain ⟨hl, -, hr, -, -, hc⟩ := middle_iff.mp h
  exact separated_append_iff.mpr ⟨hl, hr, hc⟩

/-- The points outside an interval of a separated list lie in the lists on its two sides. -/
theorem notMem_sides (h : Separated (pre ++ (a, b) :: post)) {x : α} (hx : a ≤ x)
    (hxb : x ≤ b) : x ∉ points pre ∧ x ∉ points post := by
  obtain ⟨-, -, -, hpre, hpost, -⟩ := middle_iff.mp h
  constructor
  · rintro ⟨p, hp, -, hlt⟩
    exact absurd ((hlt.trans (hpre p hp)).trans_le hx) (lt_irrefl _)
  · rintro ⟨q, hq, hle, -⟩
    exact absurd ((hpost q hq).trans_le (hle.trans hxb)) (lt_irrefl _)

private theorem points_take_front (h : Separated (pre ++ (a, b) :: post)) (ham : a ≤ m)
    (hmb : m ≤ b) : points pre ∪ (Set.Ico m b ∪ points post) =
      points (pre ++ (a, b) :: post) \ Set.Ico a m := by
  ext x
  simp only [points_append, points_cons, Set.mem_union, Set.mem_sdiff, Set.mem_Ico]
  have hside : a ≤ x → x ≤ b → x ∉ points pre ∧ x ∉ points post := h.notMem_sides
  constructor
  · rintro (hx | ⟨hm, hb⟩ | hx)
    · exact ⟨Or.inl hx, fun hc => (hside hc.1 (hc.2.le.trans hmb)).1 hx⟩
    · exact ⟨Or.inr (Or.inl ⟨ham.trans hm, hb⟩), fun hc => absurd hc.2 hm.not_gt⟩
    · exact ⟨Or.inr (Or.inr hx), fun hc => (hside hc.1 (hc.2.le.trans hmb)).2 hx⟩
  · rintro ⟨hx | ⟨ha, hb⟩ | hx, hn⟩
    · exact Or.inl hx
    · exact Or.inr (Or.inl ⟨le_of_not_gt fun hm => hn ⟨ha, hm⟩, hb⟩)
    · exact Or.inr (Or.inr hx)

/-- Take the front `[a, m)` of an interval away, or the whole of it. -/
theorem carve (h : Separated (pre ++ (a, b) :: post)) (ham : a ≤ m) (hmb : m ≤ b) :
    Separated (pre ++ (if m = b then [] else [(m, b)]) ++ post) ∧
      points (pre ++ (if m = b then [] else [(m, b)]) ++ post) =
        points (pre ++ (a, b) :: post) \ Set.Ico a m := by
  rw [← h.points_take_front ham hmb]
  split_ifs with heq
  · subst heq
    exact ⟨by simpa using h.take_all, by simp⟩
  · have hlt : m < b := lt_of_le_of_ne hmb heq
    exact ⟨by simpa using h.take_front ham hlt, by simp⟩

/-- An interval of a separated list reaches as far as the points do. -/
theorem le_of_Ico_subset_points (h : Separated (pre ++ (a, b) :: post))
    (hsub : Set.Ico a m ⊆ points (pre ++ (a, b) :: post)) : m ≤ b := by
  by_contra hbm
  rw [not_le] at hbm
  have hab : a < b := (middle_iff.mp h).2.1
  have hb := hsub ⟨hab.le, hbm⟩
  have hout := h.notMem_sides hab.le le_rfl
  simp only [points_append, points_cons, Set.mem_union, Set.mem_Ico, lt_irrefl, and_false,
    false_or] at hb
  exact hb.elim hout.1 hout.2

end Separated

/-! ### Lists of intervals of natural numbers -/

namespace Separated

variable {l : List (ℕ × ℕ)}

/-- The members of a separated list start exactly where a maximal block of points starts. -/
theorem exists_mem_iff_starts_block (h : Separated l) (i : ℕ) :
    (∃ b, (i, b) ∈ l) ↔ i ∈ points l ∧ (i = 0 ∨ i - 1 ∉ points l) := by
  constructor
  · rintro ⟨b, hb⟩
    obtain ⟨pre, post, rfl⟩ := List.append_of_mem hb
    obtain ⟨-, hib, -, hpre, hpost, -⟩ := middle_iff.mp h
    refine ⟨⟨(i, b), hb, le_rfl, hib⟩, ?_⟩
    rcases Nat.eq_zero_or_pos i with h0 | hpos
    · exact Or.inl h0
    · right
      rintro ⟨p, hp, hle, hlt⟩
      rcases List.mem_append.mp hp with hp | hp
      · have := hpre p hp
        omega
      · rcases List.mem_cons.mp hp with rfl | hp
        · simp only at hle
          omega
        · have := hpost p hp
          omega
  · rintro ⟨⟨⟨a, b⟩, hab, hle, hlt⟩, hstart⟩
    rcases eq_or_lt_of_le hle with rfl | hlt'
    · exact ⟨b, hab⟩
    · simp only at hle hlt hlt'
      rcases hstart with rfl | hn
      · omega
      · exact absurd ⟨(a, b), hab, Nat.le_sub_one_of_lt hlt', by simp only; omega⟩ hn

/-- A member holds `k` points from its start on exactly when its length is at least `k`. -/
theorem add_le_iff_points (h : Separated l) {a b : ℕ} (hab : (a, b) ∈ l) (k : ℕ) :
    a + k ≤ b ↔ ∀ j < k, a + j ∈ points l := by
  constructor
  · intro hk j hj
    exact ⟨(a, b), hab, by simp only; omega, by simp only; omega⟩
  · intro hpts
    obtain ⟨pre, post, rfl⟩ := List.append_of_mem hab
    refine h.le_of_Ico_subset_points fun x hx => ?_
    have := hpts (x - a) (by have := hx.1; have := hx.2; omega)
    rwa [Nat.add_sub_cancel' hx.1] at this

/-- Ascending starts: of two members the one that starts lower comes first. -/
theorem mem_pre_of_start_lt {pre post : List (ℕ × ℕ)} {a b i c : ℕ}
    (h : Separated (pre ++ (a, b) :: post)) (hi : (i, c) ∈ pre ++ (a, b) :: post)
    (hlt : i < a) : (i, c) ∈ pre := by
  obtain ⟨-, hab, -, -, hpost, -⟩ := middle_iff.mp h
  rcases List.mem_append.mp hi with hi | hi
  · exact hi
  · rcases List.mem_cons.mp hi with heq | hi
    · simp only [Prod.mk.injEq] at heq
      omega
    · have := hpost (i, c) hi
      simp only at this
      omega

end Separated

end IntervalList
