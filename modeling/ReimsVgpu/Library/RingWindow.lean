import Mathlib.Data.UInt
import Mathlib.Data.List.Basic
import Mathlib.Logic.Function.Basic

/-!
# A ring of slots addressed by wrapping 32-bit counters

A ring of `N` slots, `N` a divisor of `2^32`, is addressed by counters that wrap at `2^32`: the slot
of counter `c` is `c % N`. The *window* of `n ≤ N` slots from a counter on is a list, and the
updates of such a ring are list operations on its window: writing the slot past its end appends,
writing a slot inside replaces, moving the counter drops a prefix. None of this depends on how
often the counters have wrapped.

## Main definitions

* `RingWindow.index`, `RingWindow.window`.

## Main results

* `RingWindow.window_update_succ`, `RingWindow.window_update`, `RingWindow.window_drop`.
-/

namespace RingWindow

variable {β : Type*} {N : ℕ} [NeZero N]

/-- The slot a counter addresses. -/
def index (N : ℕ) [NeZero N] (c : UInt32) : Fin N := Fin.ofNat N c.toNat

/-- The `n` slots from the counter `c` on. -/
def window (slots : Fin N → β) (c : UInt32) (n : ℕ) : List β :=
  (List.range n).map fun i => slots (index N (c + UInt32.ofNat i))

@[simp] theorem length_window (slots : Fin N → β) (c : UInt32) (n : ℕ) :
    (window slots c n).length = n := by
  simp [window]

theorem getElem?_window (slots : Fin N → β) (c : UInt32) {n i : ℕ} (hi : i < n) :
    (window slots c n)[i]? = some (slots (index N (c + UInt32.ofNat i))) := by
  simp [window, hi]

@[simp] theorem window_zero (slots : Fin N → β) (c : UInt32) : window slots c 0 = [] := rfl

/-- The window begins with the slot of its counter. -/
theorem window_succ (slots : Fin N → β) (c : UInt32) (n : ℕ) :
    window slots c (n + 1) = slots (index N c) :: window slots (c + 1) n := by
  rw [window, List.range_succ_eq_map, List.map_cons, List.map_map, window]
  congr 1
  · simp
  · refine List.map_congr_left fun i _ => ?_
    rw [Function.comp_apply, Nat.succ_eq_add_one, UInt32.ofNat_add, UInt32.add_comm (UInt32.ofNat i),
      ← UInt32.add_assoc]
    rfl

section

variable (hN : N ∣ 2 ^ 32)

include hN

/-- Wrapping does not disturb the slot a counter addresses. -/
theorem index_add (c : UInt32) (i : ℕ) :
    (index N (c + UInt32.ofNat i)).val = (c.toNat + i) % N := by
  change (c + UInt32.ofNat i).toNat % N = _
  rw [UInt32.toNat_add, UInt32.toNat_ofNat', Nat.add_mod_mod, Nat.mod_mod_of_dvd _ hN]

/-- Counters less than one revolution apart address different slots. -/
theorem index_add_inj (c : UInt32) {i j : ℕ} (hi : i < N) (hj : j < N)
    (h : index N (c + UInt32.ofNat i) = index N (c + UInt32.ofNat j)) : i = j := by
  have hv := congrArg Fin.val h
  rw [index_add hN, index_add hN] at hv
  exact (Nat.ModEq.add_left_cancel' c.toNat hv).eq_of_lt_of_lt hi hj

/-- Writing the slot just past the window appends to it. -/
theorem window_update_succ (slots : Fin N → β) (c : UInt32) {n : ℕ} (hn : n < N) (x : β) :
    window (Function.update slots (index N (c + UInt32.ofNat n)) x) c (n + 1) =
      window slots c n ++ [x] := by
  rw [window, List.range_succ, List.map_append, List.map_singleton, Function.update_self, window]
  congr 1
  refine List.map_congr_left fun i hi => Function.update_of_ne (fun heq => ?_) _ _
  have hin := List.mem_range.mp hi
  exact hin.ne (index_add_inj hN c (hin.trans hn) hn heq)

/-- Writing a slot of the window replaces it. -/
theorem window_update (slots : Fin N → β) (c : UInt32) {n i : ℕ} (hn : n ≤ N) (hi : i < n)
    (x : β) : window (Function.update slots (index N (c + UInt32.ofNat i)) x) c n =
      (window slots c n).set i x := by
  apply List.ext_getElem?
  intro j
  rw [List.getElem?_set]
  by_cases hj : j < n
  · rw [getElem?_window _ _ hj]
    split_ifs with hij hlt
    · rw [hij, Function.update_self]
    · exact absurd (by simpa using hi) hlt
    · rw [getElem?_window _ _ hj, Function.update_of_ne fun heq => hij
        (index_add_inj hN c (hj.trans_le hn) (hi.trans_le hn) heq).symm]
  · have hij : i ≠ j := fun heq => hj (heq ▸ hi)
    rw [if_neg hij, List.getElem?_eq_none (by simpa using hj),
      List.getElem?_eq_none (by simpa using hj)]

end

/-- Moving the counter forward drops a prefix. -/
theorem window_drop (slots : Fin N → β) (c : UInt32) (k n : ℕ) :
    window slots (c + UInt32.ofNat k) (n - k) = (window slots c n).drop k := by
  apply List.ext_getElem?
  intro j
  rw [List.getElem?_drop]
  by_cases hj : j < n - k
  · rw [getElem?_window _ _ hj, getElem?_window _ _ (by omega), UInt32.ofNat_add,
      ← UInt32.add_assoc]
  · rw [List.getElem?_eq_none (by simpa using hj), List.getElem?_eq_none (by simp; omega)]

end RingWindow
