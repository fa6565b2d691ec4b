import Mathlib.Data.List.Pairwise
import Mathlib.Data.List.TakeWhile
import Mathlib.Data.Set.Lattice
import Mathlib.Order.CompletePartialOrder
import Mathlib.Order.Interval.Set.LinearOrder

/-!
# Lists of half-open spans, merged where they touch

A span has a start and an end that is not before it; it may be empty. A list of spans is *apart* when
every span ends before the next one starts, so that no two overlap or touch. A span is merged into
such a list by one pass that takes out every span it touches and grows to their hull, and by a binary
search for the place of what it has become.

## Main definitions

* `Span`, `Span.points`, `Span.hull`, `Span.Touches`.
* `Spans.points`, `Spans.Apart`, `Spans.absorb`, `Spans.merge`, `Spans.holding`, `Spans.shares`.

## Main results

* `Spans.points_merge`, `Spans.Apart.merge`: what a merge covers, and that it keeps a list apart.
* `Spans.points_subset_of_holding`, `Spans.disjoint_of_shares`.
-/

variable {α : Type*} [LinearOrder α]

/-- A start and an end that is not before it. -/
@[ext] structure Span (α : Type*) [LE α] where
  start : α
  stop : α
  start_le_stop : start ≤ stop

instance [DecidableEq α] : DecidableEq (Span α) := fun a b =>
  decidable_of_iff (a.start = b.start ∧ a.stop = b.stop) Span.ext_iff.symm

namespace Span

variable {a b c : Span α} {x : α}

/-- What lies from the start to before the end. -/
def points (a : Span α) : Set α := Set.Ico a.start a.stop

@[simp] theorem mem_points : x ∈ a.points ↔ a.start ≤ x ∧ x < a.stop := Iff.rfl

/-- The two overlap, or one ends where the other starts. -/
def Touches (a b : Span α) : Prop := a.start ≤ b.stop ∧ b.start ≤ a.stop

instance : Decidable (a.Touches b) := inferInstanceAs (Decidable (_ ∧ _))

theorem not_touches : ¬a.Touches b ↔ b.stop < a.start ∨ a.stop < b.start := by
  rw [Touches, not_and_or, not_le, not_le]

/-- The least span over both. -/
def hull (a b : Span α) : Span α where
  start := min a.start b.start
  stop := max a.stop b.stop
  start_le_stop := (min_le_left _ _).trans (a.start_le_stop.trans (le_max_left _ _))

theorem points_hull (h : a.Touches b) : (a.hull b).points = a.points ∪ b.points :=
  (Set.Ico_union_Ico' h.2 h.1).symm

end Span

namespace Spans

variable {a m : Span α} {l l' pre post : List (Span α)} {x : α}

/-- What lies in one of the spans. -/
def points (l : List (Span α)) : Set α := {x | ∃ a ∈ l, x ∈ a.points}

@[simp] theorem points_nil : points ([] : List (Span α)) = ∅ := by
  ext x
  simp [points]

@[simp] theorem points_cons (a : Span α) (l : List (Span α)) :
    points (a :: l) = a.points ∪ points l := by
  ext x
  simp [points]

@[simp] theorem points_append (l l' : List (Span α)) :
    points (l ++ l') = points l ∪ points l' := by
  ext x
  simp [points, or_and_right, exists_or]

/-- Every span ends before the next starts. -/
def Apart (l : List (Span α)) : Prop := l.Pairwise fun a b => a.stop < b.start

theorem apart_nil : Apart ([] : List (Span α)) := List.Pairwise.nil

/-! ### Merging -/

/-- The spans that `m` does not touch, and `m` grown to the hull of those that it does, in one pass. -/
def absorb (m : Span α) : List (Span α) → List (Span α) × Span α
  | [] => ([], m)
  | a :: l =>
    if a.Touches m then absorb (m.hull a) l
    else
      let (kept, merged) := absorb m l
      (a :: kept, merged)

theorem absorb_of_touches (h : a.Touches m) (l : List (Span α)) :
    absorb m (a :: l) = absorb (m.hull a) l := if_pos h

theorem absorb_of_not_touches (h : ¬a.Touches m) (l : List (Span α)) :
    absorb m (a :: l) = (a :: (absorb m l).1, (absorb m l).2) := if_neg h

/-- The pass loses no point and adds none. -/
theorem points_absorb (m : Span α) (l : List (Span α)) :
    points (absorb m l).1 ∪ (absorb m l).2.points = points l ∪ m.points := by
  induction l generalizing m with
  | nil => rw [absorb]
  | cons a l ih =>
    by_cases h : a.Touches m
    · have hma : m.Touches a := ⟨h.2, h.1⟩
      rw [absorb_of_touches h, ih, Span.points_hull hma, points_cons, Set.union_comm m.points,
        ← Set.union_assoc, Set.union_comm (points l)]
    · rw [absorb_of_not_touches h, points_cons, points_cons, Set.union_assoc, ih, Set.union_assoc]

theorem absorb_sublist (m : Span α) (l : List (Span α)) : (absorb m l).1.Sublist l := by
  induction l generalizing m with
  | nil => exact List.Sublist.refl _
  | cons a l ih =>
    by_cases h : a.Touches m
    · rw [absorb_of_touches h]
      exact (ih _).cons a
    · rw [absorb_of_not_touches h]
      exact (ih _).cons_cons a

/-- What the span has become starts where it or one that it took started. -/
theorem lt_start_absorb {b : α} (m : Span α) (l : List (Span α)) (hm : b < m.start)
    (hl : ∀ a ∈ l, b < a.start) : b < (absorb m l).2.start := by
  induction l generalizing m with
  | nil => exact hm
  | cons a l ih =>
    obtain ⟨ha, hl⟩ := List.forall_mem_cons.mp hl
    by_cases h : a.Touches m
    · rw [absorb_of_touches h]
      exact ih _ (lt_min hm ha) hl
    · rw [absorb_of_not_touches h]
      exact ih m hm hl

/-- A span that ends before all others takes none. -/
theorem absorb_of_lt (m : Span α) (l : List (Span α)) (hl : ∀ a ∈ l, m.stop < a.start) :
    absorb m l = (l, m) := by
  induction l with
  | nil => rfl
  | cons a l ih =>
    obtain ⟨ha, hl⟩ := List.forall_mem_cons.mp hl
    rw [absorb_of_not_touches (Span.not_touches.mpr (.inl ha)), ih hl]

/-- Over an ascending list, no span that is left touches what the merged one has become. -/
theorem Apart.not_touches_absorb (h : Apart l) (m : Span α) :
    ∀ a ∈ (absorb m l).1, ¬a.Touches (absorb m l).2 := by
  induction l generalizing m with
  | nil => exact fun a ha => absurd ha List.not_mem_nil
  | cons a l ih =>
    obtain ⟨ha, hl⟩ := List.pairwise_cons.mp h
    by_cases ht : a.Touches m
    · rw [absorb_of_touches ht]
      exact ih hl _
    · rw [absorb_of_not_touches ht]
      refine List.forall_mem_cons.mpr ⟨Span.not_touches.mpr ?_, ih hl m⟩
      rcases Span.not_touches.mp ht with hlt | hlt
      · have hafter : ∀ b ∈ l, m.stop < b.start := fun b hb =>
          hlt.trans (a.start_le_stop.trans_lt (ha b hb))
        rw [absorb_of_lt m l hafter]
        exact .inl hlt
      · exact .inr (lt_start_absorb m l hlt ha)

/-- One span merged into a list: the pass, and the place that a binary search by starts finds. -/
def merge (l : List (Span α)) (m : Span α) : List (Span α) :=
  let (kept, merged) := absorb m l
  let before : Span α → Bool := fun a => decide (a.start < merged.start)
  kept.takeWhile before ++ merged :: kept.dropWhile before

/-- A merge covers what was covered and the span, and nothing else. -/
theorem points_merge (l : List (Span α)) (m : Span α) :
    points (merge l m) = points l ∪ m.points := by
  rw [merge, points_append, points_cons, Set.union_left_comm, ← points_append,
    List.takeWhile_append_dropWhile, Set.union_comm, points_absorb]

theorem points_foldl_merge (ms l : List (Span α)) :
    points (ms.foldl merge l) = points l ∪ points ms := by
  induction ms generalizing l with
  | nil => rw [List.foldl_nil, points_nil, Set.union_empty]
  | cons m ms ih => rw [List.foldl_cons, ih, points_merge, points_cons, Set.union_assoc]

theorem Apart.lt_of_dropWhile (h : Apart l) {s : α} :
    ∀ a ∈ l.dropWhile (fun a => decide (a.start < s)), s ≤ a.start := by
  induction l with
  | nil => exact fun a ha => absurd ha List.not_mem_nil
  | cons b l ih =>
    obtain ⟨hb, hl⟩ := List.pairwise_cons.mp h
    by_cases hs : b.start < s
    · rw [List.dropWhile_cons_of_pos (by rwa [decide_eq_true_eq])]
      exact ih hl
    · rw [List.dropWhile_cons_of_neg (by rwa [decide_eq_true_eq])]
      have hle : s ≤ b.start := not_lt.mp hs
      exact List.forall_mem_cons.mpr
        ⟨hle, fun a ha => hle.trans (b.start_le_stop.trans (hb a ha).le)⟩

/-- A merge into a list that is apart leaves it apart. -/
theorem Apart.merge (h : Apart l) (m : Span α) : Apart (merge l m) := by
  have hkept : Apart (absorb m l).1 := h.sublist (absorb_sublist m l)
  have hfree := h.not_touches_absorb m
  have hsplit := hkept
  rw [← List.takeWhile_append_dropWhile (p := fun a => decide (a.start < (absorb m l).2.start))
    (l := (absorb m l).1)] at hsplit
  obtain ⟨htake, hdrop, hcross⟩ := List.pairwise_append.mp hsplit
  refine List.pairwise_append.mpr ⟨htake, List.pairwise_cons.mpr ⟨fun a ha => ?_, hdrop⟩, ?_⟩
  · have hle := hkept.lt_of_dropWhile a ha
    rcases Span.not_touches.mp (hfree a (List.dropWhile_subset _ ha)) with hlt | hlt
    · exact hlt
    · exact absurd (hlt.trans_le hle) (not_lt.mpr a.start_le_stop)
  · refine fun a ha => List.forall_mem_cons.mpr ⟨?_, hcross a ha⟩
    have hlt : a.start < (absorb m l).2.start := by
      simpa using List.mem_takeWhile_imp ha
    rcases Span.not_touches.mp (hfree a (List.takeWhile_subset _ ha)) with hbefore | hbefore
    · exact absurd (hlt.trans_le (absorb m l).2.start_le_stop) (not_lt.mpr hbefore.le)
    · exact hbefore

theorem Apart.foldl_merge (h : Apart l) (ms : List (Span α)) : Apart (ms.foldl Spans.merge l) := by
  induction ms generalizing l with
  | nil => exact h
  | cons m ms ih => exact ih (h.merge m)

/-! ### What a list holds, and what two lists share -/

/-- Whether the last span that starts no later than `m` ends no earlier. -/
def holding (l : List (Span α)) (m : Span α) : Bool :=
  (l.takeWhile fun a => decide (a.start ≤ m.start)).getLast?.any fun a => decide (m.stop ≤ a.stop)

/-- A span that the list holds lies in one of its spans. -/
theorem exists_of_holding (h : holding l m = true) :
    ∃ a ∈ l, a.start ≤ m.start ∧ m.stop ≤ a.stop := by
  obtain ⟨a, ha, hstop⟩ := (Option.any_eq_true _ _).mp h
  have hmem := List.mem_of_getLast? ha
  have hstart := List.mem_takeWhile_imp hmem
  exact ⟨a, List.takeWhile_subset _ hmem, by simpa using hstart, by simpa using hstop⟩

theorem points_subset_of_holding (h : holding l m = true) : m.points ⊆ points l := by
  obtain ⟨a, ha, hstart, hstop⟩ := exists_of_holding h
  exact fun x hx => ⟨a, ha, hstart.trans hx.1, hx.2.trans_le hstop⟩

theorem points_subset_of_all_holding (h : l'.all (holding l) = true) : points l' ⊆ points l := by
  rintro x ⟨a, ha, hx⟩
  exact points_subset_of_holding (List.all_eq_true.mp h a ha) hx

/-- Whether a span of the one list and a span of the other each start before the other's end. -/
def shares (l l' : List (Span α)) : Bool :=
  l.any fun a => l'.any fun b => decide (a.start < b.stop) && decide (b.start < a.stop)

/-- Lists that share nothing have no point in common. -/
theorem disjoint_of_shares (h : shares l l' = false) : Disjoint (points l) (points l') := by
  refine Set.disjoint_left.mpr ?_
  rintro x ⟨a, ha, hxa⟩ ⟨b, hb, hxb⟩
  have hany := Bool.eq_false_iff.mpr (List.any_eq_false.mp h a ha)
  have hab := List.any_eq_false.mp hany b hb
  rw [Bool.and_eq_true, decide_eq_true_eq, decide_eq_true_eq] at hab
  exact hab ⟨hxa.1.trans_lt hxb.2, hxb.1.trans_lt hxa.2⟩

end Spans
