import Mathlib.Data.UInt
import Mathlib.Tactic.Ring

/-!
# Arithmetic of 64-bit words

A word `m` of the form `2 ^ k - 1` is a mask for the low `k` bits. Clearing them rounds down to a
multiple of `2 ^ k`, and adding `m` first rounds up. Shifts, sums and differences that lose no bit are
those of the numbers.

## Main results

* `UInt64.toNat_and_not_mask`, `UInt64.toNat_roundUp`.
* `UInt64.toNat_shiftLeft_ofNat`, `UInt64.toNat_shiftRight_ofNat`.
-/

private theorem BitVec.and_add_and_not {w : ℕ} (x m : BitVec w) :
    (x &&& m) + (x &&& ~~~m) = x := by
  rw [BitVec.add_eq_or_of_and_eq_zero]
  · ext i hi
    simp only [BitVec.getElem_or, BitVec.getElem_and, BitVec.getElem_not]
    cases x[i] <;> cases m[i] <;> rfl
  · ext i hi
    simp only [BitVec.getElem_and, BitVec.getElem_not, BitVec.getElem_zero]
    cases x[i] <;> cases m[i] <;> rfl

/-- Clearing the bits of a mask rounds down. -/
theorem UInt64.toNat_and_not_mask {m : UInt64} {k : ℕ} (hm : m.toNat = 2 ^ k - 1) (x : UInt64) :
    (x &&& ~~~m).toNat = x.toNat - x.toNat % 2 ^ k := by
  have hlow : (x &&& m).toNat = x.toNat % 2 ^ k := by
    rw [UInt64.toNat_and, hm, Nat.and_two_pow_sub_one_eq_mod]
  have hsum : (x &&& m) + (x &&& ~~~m) = x := by
    apply UInt64.toBitVec_inj.mp
    rw [UInt64.toBitVec_add, UInt64.toBitVec_and, UInt64.toBitVec_and, UInt64.toBitVec_not,
      BitVec.and_add_and_not]
  have hnat := congrArg UInt64.toNat hsum
  rw [UInt64.toNat_add, hlow] at hnat
  have hle := Nat.mod_le x.toNat (2 ^ k)
  have hx := x.toNat_lt
  have hb := (x &&& ~~~m).toNat_lt
  omega

/-- Adding a mask and clearing its bits rounds up, when the addition does not wrap. -/
theorem UInt64.toNat_roundUp {m : UInt64} {k : ℕ} (hm : m.toNat = 2 ^ k - 1) {x : UInt64}
    (hx : x.toNat + (2 ^ k - 1) < 2 ^ 64) :
    ((x + m) &&& ~~~m).toNat = 2 ^ k * ((x.toNat + (2 ^ k - 1)) / 2 ^ k) := by
  rw [UInt64.toNat_and_not_mask hm, UInt64.toNat_add, hm, Nat.mod_eq_of_lt hx]
  exact (Nat.sub_eq_of_eq_add (Nat.div_add_mod _ _).symm)

/-- A left shift that loses no bit multiplies. -/
theorem UInt64.toNat_shiftLeft_ofNat {x : UInt64} {n : ℕ} (hn : n < 64)
    (h : x.toNat * 2 ^ n < 2 ^ 64) : (x <<< UInt64.ofNat n).toNat = x.toNat * 2 ^ n := by
  have hmod : (UInt64.ofNat n).toNat % 64 = n := by
    rw [UInt64.toNat_ofNat_of_lt' (hn.trans (by decide)), Nat.mod_eq_of_lt hn]
  rw [UInt64.toNat_shiftLeft, hmod, Nat.shiftLeft_eq, Nat.mod_eq_of_lt h]

/-- A right shift divides. -/
theorem UInt64.toNat_shiftRight_ofNat (x : UInt64) {n : ℕ} (hn : n < 64) :
    (x >>> UInt64.ofNat n).toNat = x.toNat / 2 ^ n := by
  have hmod : (UInt64.ofNat n).toNat % 64 = n := by
    rw [UInt64.toNat_ofNat_of_lt' (hn.trans (by decide)), Nat.mod_eq_of_lt hn]
  rw [UInt64.toNat_shiftRight, hmod, Nat.shiftRight_eq_div_pow]

/-- A subtraction that does not borrow. -/
theorem UInt64.toNat_sub_of_toNat_le {x y : UInt64} (h : y.toNat ≤ x.toNat) :
    (x - y).toNat = x.toNat - y.toNat :=
  UInt64.toNat_sub_of_le _ _ (UInt64.le_iff_toNat_le.mpr h)

/-- An addition that does not carry. -/
theorem UInt64.toNat_add_of_toNat_lt {x y : UInt64} (h : x.toNat + y.toNat < 2 ^ 64) :
    (x + y).toNat = x.toNat + y.toNat := by
  rw [UInt64.toNat_add, Nat.mod_eq_of_lt h]

/-- A multiplication that does not overflow. -/
theorem UInt64.toNat_mul_of_toNat_lt {x y : UInt64} (h : x.toNat * y.toNat < 2 ^ 64) :
    (x * y).toNat = x.toNat * y.toNat := by
  rw [UInt64.toNat_mul, Nat.mod_eq_of_lt h]

theorem UInt64.min_eq_left {x y : UInt64} (h : x ≤ y) : min x y = x := if_pos h

theorem UInt64.min_eq_right {x y : UInt64} (h : ¬ x ≤ y) : min x y = y := if_neg h
