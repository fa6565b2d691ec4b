import Mathlib.Data.List.Basic
import Mathlib.Tactic.Ring

/-!
# Grouping a sequence into runs by their start

A sequence is cut into runs by a scan that keeps, of the run it is in, only the first element and
how many elements it has: an element joins the run when it is the successor of the run's *first*
element. A run is then its first element followed by copies of that element's successor, so it is a
run of successive elements only up to length two. Whether a run gets longer shows in the sequence
itself: an element repeats the one before it, and that one ends an odd number of successive steps.

## Main definitions

* `startRuns`, `runElements`, `NoRepeatAfterPair`.

## Main results

* `flatMap_startRuns`: the runs make up the sequence.
* `forall_startRuns_le_two`: no run is longer than two.
-/

variable {β : Type*} [DecidableEq β]

/-- The runs of `l`, the scan being in a run that starts at `x` and has `n` elements. -/
def startRuns (succ : β → β) : β → ℕ → List β → List (β × ℕ)
  | x, n, [] => [(x, n)]
  | x, n, y :: l => if y = succ x then startRuns succ x (n + 1) l else (x, n) :: startRuns succ y 1 l

/-- The elements of a run. -/
def runElements (succ : β → β) (r : β × ℕ) : List β := r.1 :: List.replicate (r.2 - 1) (succ r.1)

/-- No element of `l` repeats the one before it where that one ends an odd number of successive
steps; `x` is the element before `l`, and `odd` says whether it does. -/
def NoRepeatFrom (succ : β → β) : β → Bool → List β → Prop
  | _, _, [] => True
  | x, odd, y :: l =>
    (odd = true → y ≠ x) ∧ NoRepeatFrom succ y (!odd && decide (y = succ x)) l

/-- No element repeats the one before it where that one ends an odd number of successive steps. -/
def NoRepeatAfterPair (succ : β → β) : List β → Prop
  | [] => True
  | x :: l => NoRepeatFrom succ x false l

variable {succ : β → β}

/-- The runs, one after the other, are the sequence. -/
theorem flatMap_startRuns (succ : β → β) (x : β) {n : ℕ} (hn : 0 < n) (l : List β) :
    (startRuns succ x n l).flatMap (runElements succ) = runElements succ (x, n) ++ l := by
  induction l generalizing x n with
  | nil => simp [startRuns]
  | cons y l ih =>
    rw [startRuns]
    split_ifs with hy
    · rw [ih x (Nat.succ_pos n), hy, runElements, runElements]
      obtain ⟨m, rfl⟩ : ∃ m, n = m + 1 := ⟨n - 1, by omega⟩
      simp [List.replicate_succ']
    · rw [List.flatMap_cons, ih y Nat.one_pos]
      simp [runElements]

theorem pos_of_mem_startRuns {x : β} {n : ℕ} (hn : 0 < n) {l : List β} {r : β × ℕ}
    (hr : r ∈ startRuns succ x n l) : 0 < r.2 := by
  induction l generalizing x n with
  | nil =>
    obtain rfl := List.mem_singleton.mp hr
    exact hn
  | cons y l ih =>
    rw [startRuns] at hr
    split_ifs at hr with hy
    · exact ih (Nat.succ_pos n) hr
    · rcases List.mem_cons.mp hr with rfl | hr
      · exact hn
      · exact ih Nat.one_pos hr

/-- The first run is the one the scan is in, with at least the elements it has. -/
theorem startRuns_eq_cons (succ : β → β) (x : β) (n : ℕ) (l : List β) :
    ∃ m rs, n ≤ m ∧ startRuns succ x n l = (x, m) :: rs := by
  induction l generalizing n with
  | nil => exact ⟨n, [], le_rfl, rfl⟩
  | cons y l ih =>
    rw [startRuns]
    split_ifs with hy
    · obtain ⟨m, rs, hle, heq⟩ := ih (n + 1)
      exact ⟨m, rs, by omega, heq⟩
    · exact ⟨n, _, le_rfl, rfl⟩

private theorem forall_startRuns_aux (l : List β) (x : β) :
    ((∀ r ∈ startRuns succ x 1 l, r.2 ≤ 2) ↔ NoRepeatFrom succ x false l) ∧
    ((∀ r ∈ startRuns succ x 2 l, r.2 ≤ 2) ↔ NoRepeatFrom succ (succ x) true l) := by
  induction l generalizing x with
  | nil => simp [startRuns, NoRepeatFrom]
  | cons y l ih =>
    constructor
    · rw [startRuns, NoRepeatFrom]
      split_ifs with hy
      · rw [(ih x).2, hy]
        simp
      · rw [List.forall_mem_cons, (ih y).1]
        simp [hy]
    · rw [startRuns, NoRepeatFrom]
      split_ifs with hy
      · constructor
        · intro h
          obtain ⟨m, rs, hle, heq⟩ := startRuns_eq_cons succ x 3 l
          rw [heq] at h
          have := h (x, m) List.mem_cons_self
          omega
        · intro h
          exact absurd hy (h.1 rfl)
      · rw [List.forall_mem_cons, (ih y).1]
        simp [hy]

/-- The scan makes no run longer than two exactly when the sequence has no repeat after a pair. -/
theorem forall_startRuns_le_two (succ : β → β) (x : β) (l : List β) :
    (∀ r ∈ startRuns succ x 1 l, r.2 ≤ 2) ↔ NoRepeatAfterPair succ (x :: l) :=
  (forall_startRuns_aux l x).1

/-! ### Concatenations that cannot be longer -/

section

variable {α γ : Type*} {f g : α → List γ} {l : List α}

theorem length_flatMap_le (hle : ∀ x ∈ l, (f x).length ≤ (g x).length) :
    (l.flatMap f).length ≤ (l.flatMap g).length := by
  induction l with
  | nil => rfl
  | cons x l ih =>
    rw [List.forall_mem_cons] at hle
    have := ih hle.2
    simp only [List.flatMap_cons, List.length_append]
    omega

theorem length_eq_of_length_flatMap_eq (hle : ∀ x ∈ l, (f x).length ≤ (g x).length)
    (h : (l.flatMap f).length = (l.flatMap g).length) :
    ∀ x ∈ l, (f x).length = (g x).length := by
  induction l with
  | nil => simp
  | cons x l ih =>
    rw [List.forall_mem_cons] at hle ⊢
    have := length_flatMap_le hle.2
    simp only [List.flatMap_cons, List.length_append] at h
    exact ⟨by omega, ih hle.2 (by omega)⟩

/-- Two concatenations of lists, pairwise of at most the length of the other, agree only if the
lists do. -/
theorem flatMap_eq_iff_of_length_le (hle : ∀ x ∈ l, (f x).length ≤ (g x).length) :
    l.flatMap f = l.flatMap g ↔ ∀ x ∈ l, f x = g x := by
  refine ⟨fun h => ?_, List.flatMap_congr⟩
  have hlen := length_eq_of_length_flatMap_eq hle (congrArg List.length h)
  clear hle
  induction l with
  | nil => simp
  | cons x l ih =>
    rw [List.forall_mem_cons] at hlen ⊢
    rw [List.flatMap_cons, List.flatMap_cons] at h
    obtain ⟨hx, hl⟩ := List.append_inj h hlen.1
    exact ⟨hx, ih hl hlen.2⟩

end
