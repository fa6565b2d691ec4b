import Mathlib.Algebra.Order.Field.Power
import Mathlib.Algebra.Order.Field.Rat
import Mathlib.Order.Interval.Set.OrdConnected
import Mathlib.Tactic.Linarith
import Mathlib.Tactic.Ring

/-!
# Rounding to the nearest float

Codes have values that rise with them. A number is rounded to a code of the nearest value, an even one
where two are nearest. Codes are rounded by dropping low bits, which rounds the numbers of a finer
format whose values lie evenly between those of a coarser one.

A binary float of a mantissa of `m` bits has its exponent above them; with the exponent 0 it is
subnormal. Its value is a whole number of the least value, its weight.

## Main definitions

* `NearestEven`: a code nearest a number, an even one where two are.
* `roundEven`: a number without its low bits, rounded.
* `floatValue`, `weight`: the value of a float's code, and in units of the least.

## Main results

* `NearestEven.le`: rounding is monotone; `NearestEven.unique`.
* `nearestEven_floatValue`: low bits dropped from the code round the value.
-/

namespace ReimsVgpu.Floats

section Nearest

variable {K : Type*} [Field K] [LinearOrder K] [IsStrictOrderedRing K]

/-- A code nearest a number among codes, an even one where two are. -/
structure NearestEven (value : ℕ → K) (codes : Set ℕ) (x : K) (c : ℕ) : Prop where
  mem : c ∈ codes
  nearest : ∀ d ∈ codes, |x - value c| ≤ |x - value d|
  even : ∀ d ∈ codes, d ≠ c → |x - value d| = |x - value c| → Even c

variable {value : ℕ → K} {codes : Set ℕ} {x y : K} {c d n s : ℕ}

/-- The lower of two numbers is no farther exactly up to the middle. -/
theorem abs_sub_le_left_iff {a b : K} (h : a < b) : |x - a| ≤ |x - b| ↔ 2 * x ≤ a + b := by
  constructor <;> intro hle <;> rcases abs_cases (x - a) with ha | ha <;>
    rcases abs_cases (x - b) with hb | hb <;> linarith

theorem abs_sub_le_right_iff {a b : K} (h : a < b) : |x - b| ≤ |x - a| ↔ a + b ≤ 2 * x := by
  constructor <;> intro hle <;> rcases abs_cases (x - a) with ha | ha <;>
    rcases abs_cases (x - b) with hb | hb <;> linarith

/-- Rounding is monotone. -/
theorem NearestEven.le (hvalue : StrictMono value) (hcodes : codes.OrdConnected)
    (hx : NearestEven value codes x c) (hy : NearestEven value codes y d) (hxy : x ≤ y) : c ≤ d := by
  by_contra hlt
  have hlt := not_le.mp hlt
  -- Both numbers are the middle of the two values, and both codes even.
  have hxmid := (abs_sub_le_right_iff (hvalue hlt)).mp (hx.nearest d hy.mem)
  have hymid := (abs_sub_le_left_iff (hvalue hlt)).mp (hy.nearest c hx.mem)
  obtain rfl : x = y := by linarith
  have htie : |x - value d| = |x - value c| :=
    le_antisymm (hy.nearest c hx.mem) (hx.nearest d hy.mem)
  obtain ⟨i, rfl⟩ := hx.even d hy.mem hlt.ne htie
  obtain ⟨j, rfl⟩ := hy.even (i + i) hx.mem hlt.ne' htie.symm
  have hmem : j + j + 1 ∈ codes := hcodes.out hy.mem hx.mem ⟨by omega, by omega⟩
  have hbetween := (abs_sub_le_left_iff (hvalue (Nat.lt_succ_self (j + j)))).mp
    (hy.nearest _ hmem)
  have habove : value (j + j + 1) < value (i + i) := hvalue (by omega)
  rw [Nat.succ_eq_add_one] at hbetween
  linarith

/-- The code below a number that is not past the middle. -/
theorem nearestEven_below (hvalue : StrictMono value) (hle : value c ≤ x)
    (hmid : 2 * x ≤ value c + value (c + 1)) (heven : 2 * x = value c + value (c + 1) → Even c) :
    NearestEven value Set.univ x c := by
  have hlow : |x - value c| = x - value c := abs_of_nonneg (sub_nonneg.mpr hle)
  refine ⟨Set.mem_univ c, fun d _ => ?_, fun d _ hne heq => ?_⟩ <;> rw [hlow] at *
  · rcases lt_or_ge c d with hlt | hge
    · have hup := hvalue.monotone (Nat.succ_le_of_lt hlt)
      have := neg_abs_le (x - value d)
      rw [Nat.succ_eq_add_one] at hup
      linarith
    · have hdown := hvalue.monotone hge
      have := le_abs_self (x - value d)
      linarith
  · rcases hne.lt_or_gt with hlt | hgt
    · have hdown := hvalue hlt
      have := le_abs_self (x - value d)
      linarith
    · have hup := hvalue.monotone (Nat.succ_le_of_lt hgt)
      have := neg_abs_le (x - value d)
      rw [Nat.succ_eq_add_one] at hup
      exact heven (by linarith)

/-- The code above a number that is not before the middle. -/
theorem nearestEven_above (hvalue : StrictMono value) (hle : x ≤ value (c + 1))
    (hmid : value c + value (c + 1) ≤ 2 * x)
    (heven : 2 * x = value c + value (c + 1) → Even (c + 1)) :
    NearestEven value Set.univ x (c + 1) := by
  have hhigh : |x - value (c + 1)| = value (c + 1) - x := by
    rw [abs_sub_comm, abs_of_nonneg (sub_nonneg.mpr hle)]
  refine ⟨Set.mem_univ _, fun d _ => ?_, fun d _ hne heq => ?_⟩ <;> rw [hhigh] at *
  · rcases lt_or_ge c d with hlt | hge
    · have hup := hvalue.monotone (Nat.succ_le_of_lt hlt)
      have := neg_abs_le (x - value d)
      rw [Nat.succ_eq_add_one] at hup
      linarith
    · have hdown := hvalue.monotone hge
      have := le_abs_self (x - value d)
      linarith
  · rcases hne.lt_or_gt with hlt | hgt
    · have hdown := hvalue.monotone (Nat.le_of_lt_succ hlt)
      have := le_abs_self (x - value d)
      exact heven (by linarith)
    · have hup := hvalue hgt
      have := neg_abs_le (x - value d)
      linarith

/-- A number rounded and then held to a last code is rounded among the codes to there. -/
theorem NearestEven.min (hvalue : StrictMono value) (h : NearestEven value Set.univ x c) (last : ℕ) :
    NearestEven value (Set.Iic last) x (min c last) := by
  rcases le_or_gt c last with hle | hgt
  · rw [min_eq_left hle]
    exact ⟨hle, fun d _ => h.nearest d trivial, fun d _ => h.even d trivial⟩
  · rw [min_eq_right hgt.le]
    -- The number is past the last code's value.
    have hpast : value last ≤ x := by
      have hmid := (abs_sub_le_right_iff (hvalue hgt)).mp (h.nearest last trivial)
      have := hvalue hgt
      linarith
    have hlow : |x - value last| = x - value last := abs_of_nonneg (sub_nonneg.mpr hpast)
    refine ⟨le_refl last, fun d hd => ?_, fun d hd hne heq => ?_⟩ <;> rw [hlow] at *
    · have hdown := hvalue.monotone hd
      have := le_abs_self (x - value d)
      linarith
    · have hdown := hvalue (lt_of_le_of_ne hd hne)
      have := le_abs_self (x - value d)
      linarith

/-- A number without its low bits, rounded to nearest even. -/
def roundEven (n s : ℕ) : ℕ :=
  if 2 ^ s < 2 * (n % 2 ^ s) ∨ 2 * (n % 2 ^ s) = 2 ^ s ∧ n / 2 ^ s % 2 = 1 then n / 2 ^ s + 1
  else n / 2 ^ s

theorem roundEven_le {m : ℕ} (h : n < 2 ^ (m + s)) : roundEven n s ≤ 2 ^ m := by
  have hdiv : n / 2 ^ s < 2 ^ m := Nat.div_lt_of_lt_mul (by rwa [← Nat.pow_add, Nat.add_comm])
  rw [roundEven]
  split_ifs
  · exact hdiv
  · exact hdiv.le

/-- A multiple of an even number of the dropped bits' bound stays out of the rounding. -/
theorem roundEven_add {a : ℕ} (ha : a % 2 = 0) (n s : ℕ) :
    roundEven (a * 2 ^ s + n) s = a + roundEven n s := by
  have hodd : (a + n / 2 ^ s) % 2 = n / 2 ^ s % 2 := by omega
  rw [roundEven, roundEven, Nat.mul_add_mod', Nat.mul_comm a, Nat.mul_add_div (Nat.two_pow_pos s),
    hodd]
  split_ifs
  · exact Nat.add_assoc _ _ _
  · rfl

/-- A number between the values of two codes, in even steps, rounds as its steps do. -/
theorem nearestEven_roundEven (hvalue : StrictMono value) {step : K} (hstep : 0 < step)
    (hx : x = value (n / 2 ^ s) + (n % 2 ^ s : ℕ) * step)
    (hnext : value (n / 2 ^ s + 1) = value (n / 2 ^ s) + (2 ^ s : ℕ) * step) :
    NearestEven value Set.univ x (roundEven n s) := by
  have hmod : n % 2 ^ s < 2 ^ s := Nat.mod_lt n (Nat.two_pow_pos s)
  have hmodK : ((n % 2 ^ s : ℕ) : K) * step ≤ (2 ^ s : ℕ) * step :=
    mul_le_mul_of_nonneg_right (Nat.cast_le.mpr hmod.le) hstep.le
  have hnonneg : 0 ≤ ((n % 2 ^ s : ℕ) : K) * step := mul_nonneg (Nat.cast_nonneg _) hstep.le
  -- The number and the middle compare as twice the dropped bits and their bound do.
  have hcast (a b : ℕ) (h : a ≤ b) : (a : K) * step ≤ b * step :=
    mul_le_mul_of_nonneg_right (Nat.cast_le.mpr h) hstep.le
  have htwice : ((2 * (n % 2 ^ s) : ℕ) : K) * step = 2 * (((n % 2 ^ s : ℕ) : K) * step) := by
    rw [Nat.cast_mul, Nat.cast_ofNat, mul_assoc]
  have htie (h : 2 * (((n % 2 ^ s : ℕ) : K) * step) = (2 ^ s : ℕ) * step) :
      2 * (n % 2 ^ s) = 2 ^ s := by
    rw [← htwice] at h
    exact Nat.cast_injective (mul_right_cancel₀ hstep.ne' h)
  rw [roundEven]
  split_ifs with hup
  · have hle := hcast (2 ^ s) (2 * (n % 2 ^ s)) (by omega)
    rw [htwice] at hle
    refine nearestEven_above hvalue (by linarith) (by linarith) fun heq => ?_
    have := htie (by linarith)
    exact Nat.even_iff.mpr (by omega)
  · have hle := hcast (2 * (n % 2 ^ s)) (2 ^ s) (by omega)
    rw [htwice] at hle
    refine nearestEven_below hvalue (by linarith) (by linarith) fun heq => ?_
    have := htie (by linarith)
    exact Nat.even_iff.mpr (by omega)

end Nearest

/-! ### Binary floats -/

variable {m s c n r : ℕ} {bias : ℤ}

/-- The value of a float's code: its mantissa of `m` bits, with the implicit bit unless the exponent is
0, over the exponent's step. -/
def floatValue (m : ℕ) (bias : ℤ) (c : ℕ) : ℚ :=
  if c / 2 ^ m = 0 then (c % 2 ^ m : ℕ) * 2 ^ (1 - bias - m)
  else (2 ^ m + c % 2 ^ m : ℕ) * 2 ^ ((c / 2 ^ m : ℕ) - bias - m)

/-- The value of a code in units of the least. -/
def weight (m c : ℕ) : ℕ :=
  if c / 2 ^ m = 0 then c % 2 ^ m else (2 ^ m + c % 2 ^ m) * 2 ^ (c / 2 ^ m - 1)

theorem floatValue_eq (m : ℕ) (bias : ℤ) (c : ℕ) :
    floatValue m bias c = weight m c * 2 ^ (1 - bias - m) := by
  rw [floatValue, weight]
  split_ifs with hzero
  · rfl
  · have hexp : ((c / 2 ^ m : ℕ) : ℤ) - bias - m = ((c / 2 ^ m - 1 : ℕ) : ℤ) + (1 - bias - m) := by
      have := Nat.one_le_iff_ne_zero.mpr hzero
      omega
    rw [hexp, zpow_add₀ two_ne_zero, zpow_natCast, Nat.cast_mul, Nat.cast_pow, Nat.cast_ofNat,
      mul_assoc]

/-- A code by its exponent and its mantissa. -/
theorem weight_add {m e f : ℕ} (hf : f < 2 ^ m) :
    weight m (e * 2 ^ m + f) = if e = 0 then f else (2 ^ m + f) * 2 ^ (e - 1) := by
  rw [weight, Nat.mul_add_mod', Nat.mod_eq_of_lt hf, Nat.mul_comm, Nat.mul_add_div
    (Nat.two_pow_pos m), Nat.div_eq_of_lt hf, Nat.add_zero]

/-- The next code is a step of the exponent higher. -/
theorem weight_succ (m c : ℕ) : weight m (c + 1) = weight m c + 2 ^ (c / 2 ^ m - 1) := by
  have hf := Nat.mod_lt c (Nat.two_pow_pos m)
  have hcode := weight_add (e := c / 2 ^ m) hf
  rw [Nat.div_add_mod'] at hcode
  rw [hcode]
  rcases Nat.lt_or_ge (c % 2 ^ m + 1) (2 ^ m) with hnext | hcarry
  · have hstep := weight_add (e := c / 2 ^ m) hnext
    rw [← Nat.add_assoc, Nat.div_add_mod'] at hstep
    rw [hstep]
    split_ifs with hzero
    · rw [hzero, Nat.zero_sub, Nat.pow_zero]
    · rw [← Nat.add_assoc, Nat.succ_mul]
  · -- The mantissa is all ones, and the next code has the next exponent.
    have hones : c % 2 ^ m + 1 = 2 ^ m := by omega
    have hnext : c + 1 = (c / 2 ^ m + 1) * 2 ^ m + 0 := by
      have := Nat.div_add_mod' c (2 ^ m)
      rw [Nat.succ_mul]
      omega
    rw [hnext, weight_add (Nat.two_pow_pos m), if_neg (Nat.succ_ne_zero _), Nat.add_sub_cancel]
    split_ifs with hzero
    · rw [hzero, Nat.pow_zero, Nat.mul_one]
      exact hones.symm
    · obtain ⟨k, hk⟩ := Nat.exists_eq_succ_of_ne_zero hzero
      rw [hk, Nat.succ_sub_one, ← Nat.succ_mul, ← Nat.add_succ, Nat.succ_eq_add_one (c % 2 ^ m), hones,
        Nat.pow_succ]
      ring

theorem weight_strictMono (m : ℕ) : StrictMono (weight m) :=
  strictMono_nat_of_lt_succ fun c => by
    rw [weight_succ]
    exact Nat.lt_add_of_pos_right (Nat.two_pow_pos _)

theorem weight_of_le (h : c ≤ 2 ^ m) : weight m c = c := by
  rcases h.lt_or_eq with hlt | rfl
  · rw [weight, Nat.div_eq_of_lt hlt, Nat.mod_eq_of_lt hlt, if_pos rfl]
  · rw [weight, Nat.div_self (Nat.two_pow_pos m), Nat.mod_self, if_neg one_ne_zero, Nat.add_zero,
      Nat.sub_self, Nat.pow_zero, Nat.mul_one]

/-- Codes of a finer format lie evenly between those of a coarser one. -/
theorem weight_between (m c : ℕ) (hr : r ≤ 2 ^ s) :
    weight (m + s) (c * 2 ^ s + r) = weight m c * 2 ^ s + r * 2 ^ (c / 2 ^ m - 1) := by
  have hpos := Nat.two_pow_pos s
  induction r with
  | zero =>
    rw [Nat.add_zero, Nat.zero_mul, Nat.add_zero, weight, weight, Nat.pow_add,
      Nat.mul_mod_mul_right, Nat.mul_div_mul_right c (2 ^ m) hpos, ← Nat.add_mul]
    split_ifs
    · rfl
    · rw [Nat.mul_right_comm]
  | succ r ih =>
    have hdiv : (c * 2 ^ s + r) / 2 ^ (m + s) = c / 2 ^ m := by
      rw [Nat.add_comm m, Nat.pow_add, ← Nat.div_div_eq_div_mul, Nat.mul_comm c,
        Nat.mul_add_div hpos, Nat.div_eq_of_lt (Nat.lt_of_succ_le hr), Nat.add_zero]
    rw [← Nat.add_assoc, weight_succ, ih (Nat.le_of_succ_le hr), hdiv, Nat.succ_mul, Nat.add_assoc]

theorem floatValue_strictMono (m : ℕ) (bias : ℤ) : StrictMono (floatValue m bias) := by
  intro c d h
  rw [floatValue_eq, floatValue_eq]
  exact mul_lt_mul_of_pos_right (Nat.cast_lt.mpr (weight_strictMono m h)) (zpow_pos two_pos _)

/-- Low bits dropped from the code of a finer format round its value. -/
theorem nearestEven_floatValue (m s : ℕ) (bias : ℤ) (n : ℕ) :
    NearestEven (floatValue m bias) Set.univ (floatValue (m + s) bias n) (roundEven n s) := by
  have hunit : (2 : ℚ) ^ (1 - bias - m) = (2 ^ s : ℕ) * 2 ^ (1 - bias - (m + s : ℕ)) := by
    rw [Nat.cast_pow, Nat.cast_ofNat, ← zpow_natCast, ← zpow_add₀ two_ne_zero]
    congr 1
    push_cast
    ring
  have hweight := weight_between m (n / 2 ^ s) (Nat.mod_lt n (Nat.two_pow_pos s)).le
  rw [Nat.div_add_mod'] at hweight
  have hstep : (0 : ℚ) < (2 ^ (n / 2 ^ s / 2 ^ m - 1) : ℕ) * 2 ^ (1 - bias - (m + s : ℕ)) :=
    mul_pos (Nat.cast_pos.mpr (Nat.two_pow_pos _)) (zpow_pos two_pos _)
  refine nearestEven_roundEven (floatValue_strictMono m bias) hstep ?_ ?_
  · rw [floatValue_eq, floatValue_eq, hweight, hunit, Nat.cast_add, Nat.cast_mul, Nat.cast_mul]
    ring
  · rw [floatValue_eq, floatValue_eq, weight_succ, hunit, Nat.cast_add]
    ring

/-- A code of exponent 0 or of the least mantissa of exponent 1 is its value over the least. -/
theorem floatValue_of_le (bias : ℤ) (h : c ≤ 2 ^ m) :
    floatValue m bias c = c * 2 ^ (1 - bias - m) := by
  rw [floatValue_eq, weight_of_le h]

/-- A code by an exponent that is not 0 and its mantissa. -/
theorem floatValue_add (bias : ℤ) {e f : ℕ} (he : e ≠ 0) (hf : f < 2 ^ m) :
    floatValue m bias (e * 2 ^ m + f) = (2 ^ m + f : ℕ) * 2 ^ (e - bias - m) := by
  have hdiv : (e * 2 ^ m + f) / 2 ^ m = e := by
    rw [Nat.mul_comm, Nat.mul_add_div (Nat.two_pow_pos m), Nat.div_eq_of_lt hf, Nat.add_zero]
  rw [floatValue, hdiv, if_neg he, Nat.mul_add_mod', Nat.mod_eq_of_lt hf]

/-- A code with a greater exponent has the same value at a greater bias. -/
theorem floatValue_sub (bias : ℤ) {k : ℕ} (h : k < c / 2 ^ m) :
    floatValue m (bias - k) (c - k * 2 ^ m) = floatValue m bias c := by
  have hle : 2 ^ m * k ≤ c := by
    have hexp := Nat.mul_le_mul_left (2 ^ m) h.le
    exact hexp.trans (Nat.mul_div_le c (2 ^ m))
  rw [floatValue, floatValue, Nat.mul_comm k, Nat.sub_mul_mod hle, Nat.sub_mul_div,
    if_neg (Nat.sub_ne_zero_of_lt h), if_neg (Nat.ne_zero_of_lt h), Nat.cast_sub h.le]
  congr 2
  ring

/-- Half a step less one added, and one for a code that is odd, round to nearest even. -/
theorem add_half_div (hs : 0 < s) (n : ℕ) :
    (n + 2 ^ (s - 1) - 1 + n / 2 ^ s % 2) / 2 ^ s = roundEven n s := by
  obtain ⟨s, rfl⟩ := Nat.exists_eq_add_one_of_ne_zero hs.ne'
  have hpos := Nat.two_pow_pos s
  have hpow : 2 ^ (s + 1) = 2 * 2 ^ s := Nat.pow_succ'
  have hmod := Nat.mod_lt n (Nat.two_pow_pos (s + 1))
  have hdiv := Nat.div_add_mod n (2 ^ (s + 1))
  have hone := Nat.mod_lt (n / 2 ^ (s + 1)) two_pos
  rw [Nat.add_sub_cancel, roundEven]
  generalize n / 2 ^ (s + 1) = q at hdiv hone ⊢
  split_ifs with hup <;> apply Nat.div_eq_of_lt_le <;>
    simp only [Nat.succ_mul, Nat.mul_comm q] <;> omega

end ReimsVgpu.Floats
