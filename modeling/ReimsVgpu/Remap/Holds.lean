import Mathlib.Data.List.Basic
import Mathlib.Data.List.Count
import Mathlib.Data.List.Pairwise
import Mathlib.Data.UInt

/-!
# Host pages that imports hold, and the unmaps that wait for them

The bookkeeping of the live holds and the waiting unmaps. The map of the live holds, by their first
byte and number, is a list of entries: the scan over a range of its keys reads those entries whose
key lies in the range. Addresses are natural numbers: the code computes with them by subtractions that
stop at zero only.

## Main definitions

* `Pages`, `Hold`, `Holds`: ranges, live holds, and the bookkeeping.
* `Holds.hold`, `Holds.meets`, `Holds.replaced`, `Holds.unmap`, `Holds.release`: its operations.
* `Holds.waitsAt`: how often a byte waits.

## Main results

* `Holds.meets_iff`: the bounded scan misses no hold.
* `Holds.waitsAt_replaced`, `Holds.waitsAt_unmap`, `Holds.waitsAt_release`: what waits at a byte after
  each operation.
-/

namespace ReimsVgpu.Remap

/-- A range of host addresses. -/
structure Pages where
  start : ℕ
  stop : ℕ
deriving DecidableEq

namespace Pages

instance : Membership ℕ Pages := ⟨fun pages x => pages.start ≤ x ∧ x < pages.stop⟩

theorem mem_def {pages : Pages} {x : ℕ} : x ∈ pages ↔ pages.start ≤ x ∧ x < pages.stop := Iff.rfl

instance (x : ℕ) (pages : Pages) : Decidable (x ∈ pages) :=
  inferInstanceAs (Decidable (_ ∧ _))

/-- Two ranges share a byte. -/
def Shares (p q : Pages) : Prop := ∃ x, x ∈ p ∧ x ∈ q

/-- A range that ends no later than it starts. -/
def isEmpty (pages : Pages) : Bool := decide (pages.stop ≤ pages.start)

/-- What of a waiting range the pages leave, below them and above them. -/
def without (waiting pages : Pages) : List Pages :=
  if waiting.stop ≤ pages.start ∨ pages.stop ≤ waiting.start then [waiting]
  else
    (if waiting.start < pages.start then [⟨waiting.start, pages.start⟩] else []) ++
      if pages.stop < waiting.stop then [⟨pages.stop, waiting.stop⟩] else []

end Pages

/-- A live hold: its first byte, its number, and its end. -/
structure Hold where
  first : ℕ
  id : UInt64
  stop : ℕ
deriving DecidableEq

/-- The pages of a hold. -/
def Hold.pages (e : Hold) : Pages := ⟨e.first, e.stop⟩

/-- A hold's key in the map. -/
def Hold.key (e : Hold) : ℕ × UInt64 := (e.first, e.id)

/-- The order of the keys. -/
def keyLt (k k' : ℕ × UInt64) : Prop := k.1 < k'.1 ∨ k.1 = k'.1 ∧ k.2 < k'.2

instance (k k' : ℕ × UInt64) : Decidable (keyLt k k') :=
  inferInstanceAs (Decidable (_ ∨ _ ∧ _))

/-- The live holds and the unmaps that wait for them. -/
structure Holds where
  next : UInt64
  held : List Hold
  longest : ℕ
  waiting : List Pages

namespace Holds

def new : Holds where
  next := 0
  held := []
  longest := 0
  waiting := []

/-- A hold on the pages: its number. -/
def hold (h : Holds) (pages : Pages) : UInt64 × Holds :=
  (h.next,
    { h with
      next := h.next + 1
      longest := max h.longest (pages.stop - pages.start)
      held := ⟨pages.start, h.next, pages.stop⟩ ::
        h.held.filter fun e => decide (e.key ≠ (pages.start, h.next)) })

/-- Whether a live hold meets the pages. -/
def meets (h : Holds) (pages : Pages) : Bool :=
  let low := pages.start - h.longest
  (h.held.filter fun e => decide (¬keyLt e.key (low, 0) ∧ keyLt e.key (pages.stop, 0))).any
    fun e => decide (e.first < pages.stop ∧ pages.start < e.stop)

/-- What waited to be unmapped on the pages no longer does. -/
def replaced (h : Holds) (pages : Pages) : Holds :=
  if h.waiting.isEmpty ∨ pages.isEmpty then h
  else { h with waiting := h.waiting.flatMap fun waiting => waiting.without pages }

/-- An unmap of the pages: whether it waits, where a live hold meets them. -/
def unmap (h : Holds) (pages : Pages) : Bool × Holds :=
  let h := h.replaced pages
  if pages.isEmpty ∨ !h.meets pages then (false, h)
  else (true, { h with waiting := h.waiting ++ [pages] })

/-- A hold goes: the unmaps that no live hold meets any more. -/
def release (h : Holds) (first : ℕ) (id : UInt64) : List Pages × Holds :=
  let h := { h with held := h.held.filter fun e => decide (e.key ≠ (first, id)) }
  if h.waiting.isEmpty then ([], h)
  else (h.waiting.filter fun waiting => !h.meets waiting,
    { h with waiting := h.waiting.filter h.meets })

/-! ### The scan -/

/-- No hold is longer than the bound of the scan. -/
def Bounded (h : Holds) : Prop := ∀ e ∈ h.held, e.stop - e.first ≤ h.longest

theorem bounded_hold {h : Holds} (hb : h.Bounded) (pages : Pages) : (h.hold pages).2.Bounded := by
  intro e he
  rcases List.mem_cons.mp he with rfl | he
  · exact le_max_right _ _
  · exact (hb e (List.mem_of_mem_filter he)).trans (le_max_left _ _)

theorem keyLt_zero_iff {k : ℕ × UInt64} {x : ℕ} : keyLt k (x, 0) ↔ k.1 < x := by
  have hid : ¬k.2 < 0 := UInt64.not_lt_zero
  exact or_iff_left fun h => hid h.2

/-- The scan misses no hold that meets the pages, however far below them it starts. -/
theorem meets_iff {h : Holds} (hb : h.Bounded) (pages : Pages) :
    h.meets pages = true ↔ ∃ e ∈ h.held, e.first < pages.stop ∧ pages.start < e.stop := by
  simp only [meets, List.any_eq_true, List.mem_filter, decide_eq_true_eq, keyLt_zero_iff,
    Hold.key]
  constructor
  · rintro ⟨e, ⟨he, -⟩, hmeets⟩
    exact ⟨e, he, hmeets⟩
  · rintro ⟨e, he, hfirst, hstop⟩
    have hlong := hb e he
    exact ⟨e, ⟨he, by omega, hfirst⟩, hfirst, hstop⟩

/-! ### What waits at a byte -/

/-- How often a byte waits to be unmapped. -/
def waitsAt (h : Holds) (x : ℕ) : ℕ := h.waiting.countP fun waiting => decide (x ∈ waiting)

end Holds

/-- How often a byte is among the ranges a release answers. -/
def answers (free : List Pages) (x : ℕ) : ℕ := free.countP fun pages => decide (x ∈ pages)

theorem Pages.countP_without {pages : Pages} (hle : pages.start ≤ pages.stop) (waiting : Pages)
    (x : ℕ) :
    (waiting.without pages).countP (fun w => decide (x ∈ w)) =
      if x ∈ pages then 0 else [waiting].countP fun w => decide (x ∈ w) := by
  rw [without, List.countP_singleton]
  by_cases hapart : waiting.stop ≤ pages.start ∨ pages.stop ≤ waiting.start
  · rw [if_pos hapart, List.countP_singleton]
    simp only [mem_def, decide_eq_true_eq]
    split_ifs <;> omega
  · rw [if_neg hapart, List.countP_append]
    have hbelow : (if waiting.start < pages.start then [Pages.mk waiting.start pages.start]
        else []).countP (fun w => decide (x ∈ w)) =
          if waiting.start ≤ x ∧ x < pages.start then 1 else 0 := by
      simp only [apply_ite, List.countP_singleton, List.countP_nil, mem_def, decide_eq_true_eq]
      split_ifs <;> omega
    have habove : (if pages.stop < waiting.stop then [Pages.mk pages.stop waiting.stop]
        else []).countP (fun w => decide (x ∈ w)) =
          if pages.stop ≤ x ∧ x < waiting.stop then 1 else 0 := by
      simp only [apply_ite, List.countP_singleton, List.countP_nil, mem_def, decide_eq_true_eq]
      split_ifs <;> omega
    rw [hbelow, habove]
    simp only [mem_def, decide_eq_true_eq]
    split_ifs <;> omega

theorem Pages.mem_without {waiting pages w : Pages} (h : w ∈ waiting.without pages) :
    w = waiting ∨ w.start < w.stop := by
  rw [without] at h
  split_ifs at h <;> simp only [List.mem_append, List.mem_singleton, List.not_mem_nil] at h
  all_goals grind

namespace Holds

theorem waitsAt_replaced (h : Holds) (pages : Pages) (x : ℕ) :
    (h.replaced pages).waitsAt x = if x ∈ pages then 0 else h.waitsAt x := by
  rw [replaced]
  by_cases hstop : h.waiting.isEmpty ∨ pages.isEmpty
  · rw [if_pos hstop]
    rcases hstop with hnone | hempty
    · rw [waitsAt, List.isEmpty_iff.mp hnone]
      exact (ite_self 0).symm
    · refine (if_neg fun hx => ?_).symm
      exact (hx.1.trans_lt hx.2).not_ge (of_decide_eq_true hempty)
  · have hle : pages.start ≤ pages.stop := by
      by_contra hlt
      exact hstop (.inr (decide_eq_true (Nat.le_of_not_le hlt)))
    rw [if_neg hstop, waitsAt, waitsAt, List.countP_flatMap]
    generalize h.waiting = l
    induction l with
    | nil => exact (ite_self 0).symm
    | cons w l ih =>
      rw [List.map_cons, List.sum_cons, ih, Function.comp_apply, Pages.countP_without hle,
        List.countP_cons (l := l), List.countP_singleton]
      split_ifs <;> omega

theorem held_replaced (h : Holds) (pages : Pages) : (h.replaced pages).held = h.held := by
  rw [replaced]
  split_ifs <;> rfl

theorem longest_replaced (h : Holds) (pages : Pages) : (h.replaced pages).longest = h.longest := by
  rw [replaced]
  split_ifs <;> rfl

/-- The pages an unmap leaves waiting: those pages, once, where it waits, and what waited outside
them. -/
theorem waitsAt_unmap (h : Holds) (pages : Pages) (x : ℕ) :
    (h.unmap pages).2.waitsAt x =
      if x ∈ pages then if (h.unmap pages).1 then 1 else 0 else h.waitsAt x := by
  rw [unmap]
  by_cases hnow : pages.isEmpty ∨ !(h.replaced pages).meets pages
  · rw [if_pos hnow, waitsAt_replaced]
    rfl
  · rw [if_neg hnow]
    have hback : waitsAt { h.replaced pages with waiting := (h.replaced pages).waiting ++ [pages] } x =
        (h.replaced pages).waitsAt x + if x ∈ pages then 1 else 0 := by
      rw [waitsAt, List.countP_append, List.countP_singleton]
      simp only [decide_eq_true_eq]
      rfl
    rw [hback, waitsAt_replaced]
    by_cases hx : x ∈ pages
    · rw [if_pos hx, if_pos hx, if_pos hx, if_pos rfl]
    · rw [if_neg hx, if_neg hx, if_neg hx, Nat.add_zero]

/-- A release answers a byte as often as it stops waiting. -/
theorem answers_add_waitsAt_release (h : Holds) (first : ℕ) (id : UInt64) (x : ℕ) :
    answers (h.release first id).1 x + (h.release first id).2.waitsAt x = h.waitsAt x := by
  rw [release]
  dsimp only
  split_ifs with hnone
  · exact Nat.zero_add _
  · rw [answers, waitsAt, waitsAt, Nat.add_comm,
      List.countP_eq_countP_filter_add h.waiting _
        (Holds.meets { h with held := h.held.filter fun e => decide (e.key ≠ (first, id)) })]

/-! ### The ranges that wait -/

theorem mem_waiting_replaced {h : Holds} {pages w : Pages} (hw : w ∈ (h.replaced pages).waiting) :
    w.start < w.stop ∨ w ∈ h.waiting := by
  rw [replaced] at hw
  split_ifs at hw with hstop
  · exact .inr hw
  · obtain ⟨w', hw', hmem⟩ := List.mem_flatMap.mp hw
    rcases Pages.mem_without hmem with rfl | hlt
    · exact .inr hw'
    · exact .inl hlt

theorem waiting_replaced_of_nil {h : Holds} (hnil : h.waiting = []) (pages : Pages) :
    (h.replaced pages).waiting = [] := by
  rw [replaced, if_pos (.inl (List.isEmpty_iff.mpr hnil)), hnil]

theorem unmap_of_not (h : Holds) {pages : Pages}
    (hnow : pages.isEmpty ∨ (h.replaced pages).meets pages = false) :
    h.unmap pages = (false, h.replaced pages) := by
  rw [unmap]
  refine if_pos (hnow.imp_right fun hmeets => ?_)
  rw [hmeets]
  rfl

theorem unmap_of_meets (h : Holds) {pages : Pages} (hne : ¬pages.isEmpty)
    (hmeets : (h.replaced pages).meets pages = true) :
    h.unmap pages =
      (true, { h.replaced pages with waiting := (h.replaced pages).waiting ++ [pages] }) := by
  rw [unmap]
  refine if_neg (not_or.mpr ⟨hne, ?_⟩)
  rw [hmeets]
  exact Bool.false_ne_true

theorem meets_congr {h h' : Holds} (hheld : h'.held = h.held) (hlongest : h'.longest = h.longest)
    (pages : Pages) : h'.meets pages = h.meets pages := by
  rw [meets, meets, hheld, hlongest]

theorem meets_replaced (h : Holds) (pages pages' : Pages) :
    (h.replaced pages).meets pages' = h.meets pages' :=
  meets_congr (h.held_replaced pages) (h.longest_replaced pages) pages'

theorem unmap_fst (h : Holds) (pages : Pages) :
    (h.unmap pages).1 = (!pages.isEmpty && h.meets pages) := by
  by_cases hnow : pages.isEmpty ∨ (h.replaced pages).meets pages = false
  · rw [unmap_of_not h hnow]
    rw [meets_replaced] at hnow
    rcases hnow with hempty | hmeets
    · rw [hempty]
      rfl
    · rw [hmeets, Bool.and_false]
  · obtain ⟨hne, hmeets⟩ := not_or.mp hnow
    rw [unmap_of_meets h hne (Bool.eq_true_of_not_eq_false hmeets)]
    rw [meets_replaced, Bool.not_eq_false] at hmeets
    rw [hmeets, Bool.eq_false_iff.mpr hne]
    rfl

theorem held_unmap (h : Holds) (pages : Pages) : (h.unmap pages).2.held = h.held := by
  rw [unmap]
  split_ifs <;> exact h.held_replaced pages

theorem longest_unmap (h : Holds) (pages : Pages) : (h.unmap pages).2.longest = h.longest := by
  rw [unmap]
  split_ifs <;> exact h.longest_replaced pages

theorem held_release (h : Holds) (first : ℕ) (id : UInt64) :
    (h.release first id).2.held = h.held.filter fun e => decide (e.key ≠ (first, id)) := by
  rw [release]
  split_ifs <;> rfl

theorem longest_release (h : Holds) (first : ℕ) (id : UInt64) :
    (h.release first id).2.longest = h.longest := by
  rw [release]
  split_ifs <;> rfl

theorem next_replaced (h : Holds) (pages : Pages) : (h.replaced pages).next = h.next := by
  rw [replaced]
  split_ifs <;> rfl

theorem next_unmap (h : Holds) (pages : Pages) : (h.unmap pages).2.next = h.next := by
  rw [unmap]
  split_ifs <;> exact h.next_replaced pages

theorem next_release (h : Holds) (first : ℕ) (id : UInt64) :
    (h.release first id).2.next = h.next := by
  rw [release]
  split_ifs <;> rfl

/-- What a release answers meets no hold that stays. -/
theorem of_mem_release {h : Holds} {first : ℕ} {id : UInt64} {w : Pages}
    (hw : w ∈ (h.release first id).1) :
    w ∈ h.waiting ∧ (h.release first id).2.meets w = false := by
  rw [release] at hw ⊢
  dsimp only at hw ⊢
  split_ifs at hw ⊢ with hnone
  · exact absurd hw List.not_mem_nil
  · obtain ⟨hmem, hmeets⟩ := List.mem_filter.mp hw
    refine ⟨hmem, ?_⟩
    rwa [Bool.not_eq_true'] at hmeets

/-- What a release leaves waiting meets a hold that stays. -/
theorem of_mem_waiting_release {h : Holds} {first : ℕ} {id : UInt64} {w : Pages}
    (hw : w ∈ (h.release first id).2.waiting) :
    w ∈ h.waiting ∧ (h.release first id).2.meets w = true := by
  rw [release] at hw ⊢
  dsimp only at hw ⊢
  split_ifs at hw ⊢ with hnone
  · rw [List.isEmpty_iff.mp hnone] at hw
    exact absurd hw List.not_mem_nil
  · exact List.mem_filter.mp hw

end Holds

end ReimsVgpu.Remap
