import Mathlib.Algebra.Order.Floor.Semifield
import Mathlib.Data.Nat.Bitwise
import Mathlib.Data.Rat.Floor
import Mathlib.Data.UInt
import ReimsVgpu.Library.NearestEven

/-!
# Floats of a fill's colour

A fill packs a colour's components as half floats, and as unsigned floats of 5 exponent bits and 5 or 6
mantissa bits, all from the bits of an `f32`. A half is rounded to nearest even, past the largest finite
half to an infinity. A small float is too, but a value below the least normal one is first cut to the
bits of that exponent, and a finite value stays finite.

## Main definitions

* `half`, `smallFloat`: the packed bits; `F32.value`: the exact value of an `f32`'s.

## Main results

* `half_nearest`, `smallFloat_nearest` and `smallFloat_le`, together `fill_nearest`.
-/

namespace ReimsVgpu.Gpu.Fill

open ReimsVgpu.Floats

/-- An `f32`, by its bits. -/
structure F32 where
  bits : UInt32
deriving DecidableEq, Repr

namespace F32

def isNan (v : F32) : Bool := v.bits &&& 0x7fffffff > 0x7f800000

def isInfinite (v : F32) : Bool := v.bits &&& 0x7fffffff = 0x7f800000

def isSignNegative (v : F32) : Bool := v.bits &&& 0x80000000 ≠ 0

def isFinite (v : F32) : Bool := v.bits &&& 0x7fffffff < 0x7f800000

def isZero (v : F32) : Bool := v.bits &&& 0x7fffffff = 0

/-- The exact value without its sign. -/
def magnitude (v : F32) : ℚ := floatValue 23 127 (v.bits.toNat % 2 ^ 31)

/-- The exact value of a finite `f32`. -/
def value (v : F32) : ℚ := if v.isSignNegative then -v.magnitude else v.magnitude

end F32

/-- `u16::try_from`, or another value. -/
def toU16 (x : UInt32) (other : UInt16) : UInt16 := if x.toNat < 2 ^ 16 then x.toUInt16 else other

/-- `checked_shr`. -/
def checkedShr (x shift : UInt32) : Option UInt32 := if shift < 32 then some (x >>> shift) else none

/-- `round_shift`. -/
def roundShift (x shift : UInt32) : UInt32 :=
  if 32 ≤ shift then 0
  else if shift = 0 then x
  else
    let q := x >>> shift
    let r := x &&& (((1 : UInt32) <<< shift) - 1)
    let half := (1 : UInt32) <<< (shift - 1)
    if half < r ∨ r = half ∧ q &&& 1 = 1 then q + 1 else q

def half (v : F32) : UInt16 :=
  let bits := v.bits
  let sign := toU16 ((bits >>> 16) &&& 0x8000) 0
  let exponent := (bits >>> 23) &&& 0xff
  let mantissa := bits &&& 0x7fffff
  if exponent = 0xff then sign ||| if mantissa = 0 then 0x7c00 else 0x7e00
  else if exponent = 0 then sign
  else
    let full := mantissa ||| 0x800000
    let magnitude :=
      if exponent ≤ 112 then roundShift full (126 - exponent)
      else
        let rounded := roundShift full 13
        let (rounded, exponent) :=
          if rounded = 0x800 then (0x400, exponent + 1) else (rounded, exponent)
        let biased := exponent - 112
        if 31 ≤ biased then 0x7c00 else (biased <<< 10) ||| (rounded &&& 0x3ff)
    sign ||| toU16 magnitude 0x7c00

/-- `small_float`. -/
def smallFloat (v : F32) (mantissa : UInt32) : UInt64 :=
  let shift := 23 - mantissa
  let infinity := (0x1f : UInt32) <<< mantissa
  if v.isNan then (infinity ||| (((1 : UInt32) <<< mantissa) - 1)).toUInt64
  else if v.isSignNegative || v.isZero then 0
  else if v.isInfinite then infinity.toUInt64
  else
    let bits := v.bits
    let exponent := bits >>> 23
    let aligned :=
      if exponent < 113 then
        (checkedShr ((bits &&& 0x7fffff) ||| 0x800000) (113 - exponent)).getD 0
      else bits - ((112 : UInt32) <<< 23)
    let code := (aligned + ((1 : UInt32) <<< (shift - 1)) - 1 + ((aligned >>> shift) &&& 1)) >>> shift
    (min code (infinity - 1)).toUInt64

/-! ### Words -/

theorem toNat_shiftRight (x : UInt32) {s : UInt32} (hs : s.toNat < 32) :
    (x >>> s).toNat = x.toNat / 2 ^ s.toNat := by
  rw [UInt32.toNat_shiftRight, Nat.mod_eq_of_lt hs, Nat.shiftRight_eq_div_pow]

theorem toNat_one_shiftLeft {s : UInt32} (hs : s.toNat < 32) :
    ((1 : UInt32) <<< s).toNat = 2 ^ s.toNat := by
  have hpow := Nat.pow_lt_pow_right one_lt_two hs
  rw [UInt32.toNat_shiftLeft, Nat.mod_eq_of_lt hs, Nat.shiftLeft_eq, UInt32.toNat_one, Nat.one_mul,
    Nat.mod_eq_of_lt hpow]

/-- The low bits of a word. -/
theorem toNat_and_ones (x : UInt32) {m : UInt32} {k : ℕ} (hm : m.toNat = 2 ^ k - 1) :
    (x &&& m).toNat = x.toNat % 2 ^ k := by
  rw [UInt32.toNat_and, hm, Nat.and_two_pow_sub_one_eq_mod]

theorem toNat_sub {x y : UInt32} (h : y.toNat ≤ x.toNat) : (x - y).toNat = x.toNat - y.toNat :=
  UInt32.toNat_sub_of_le _ _ (UInt32.le_iff_toNat_le.mpr h)

theorem toNat_add {x y : UInt32} (h : x.toNat + y.toNat < 2 ^ 32) :
    (x + y).toNat = x.toNat + y.toNat := by
  rw [UInt32.toNat_add, Nat.mod_eq_of_lt h]

/-- A shift rounds to nearest even, where the number is small enough for one past the last bit. -/
theorem roundShift_toNat {x : UInt32} (hx : x.toNat < 2 ^ 31) (shift : UInt32) :
    (roundShift x shift).toNat = roundEven x.toNat shift.toNat := by
  rw [roundShift]
  split_ifs with hlarge hzero
  · have hle : 32 ≤ shift.toNat := UInt32.le_iff_toNat_le.mp hlarge
    have hpow := Nat.pow_le_pow_right two_pos hle
    rw [roundEven, Nat.div_eq_of_lt (by omega), Nat.mod_eq_of_lt (by omega), if_neg (by omega)]
    rfl
  · rw [hzero, UInt32.toNat_zero, roundEven, Nat.pow_zero, Nat.mod_one, Nat.div_one,
      if_neg (by omega)]
  · have hshift : shift.toNat < 32 := by
      have := UInt32.le_iff_toNat_le.not.mp hlarge
      exact not_le.mp this
    have hpos : 0 < shift.toNat := Nat.pos_of_ne_zero fun h => hzero (UInt32.toNat_inj.mp h)
    have hhalf : ((1 : UInt32) <<< (shift - 1)).toNat = 2 ^ (shift.toNat - 1) := by
      have hsub : (shift - 1).toNat = shift.toNat - 1 := toNat_sub hpos
      rw [toNat_one_shiftLeft (by omega), hsub]
    have hones : ((1 : UInt32) <<< shift - 1).toNat = 2 ^ shift.toNat - 1 := by
      rw [toNat_sub (by rw [toNat_one_shiftLeft hshift]; exact Nat.one_le_two_pow),
        toNat_one_shiftLeft hshift, UInt32.toNat_one]
    have hr := toNat_and_ones x hones
    have hq := toNat_shiftRight x hshift
    have hodd := toNat_and_ones (x >>> shift) (k := 1) (m := 1) rfl
    have hdouble : 2 ^ shift.toNat = 2 * 2 ^ (shift.toNat - 1) := by
      rw [← Nat.pow_succ', Nat.succ_eq_add_one, Nat.sub_add_cancel hpos]
    have hsmall : x.toNat / 2 ^ shift.toNat ≤ x.toNat := Nat.div_le_self _ _
    dsimp only
    simp only [UInt32.lt_iff_toNat_lt, ← UInt32.toNat_inj, hr, hhalf, hodd, hq, UInt32.toNat_one]
    rw [roundEven]
    split_ifs with hup hup'
    · rw [toNat_add (by rw [hq, UInt32.toNat_one]; omega), hq, UInt32.toNat_one]
    · omega
    · omega
    · exact hq

/-! ### Halves -/

variable {v : F32}

/-- The exponent's bits. -/
def F32.exponent (v : F32) : ℕ := v.bits.toNat / 2 ^ 23 % 2 ^ 8

theorem exponent_toNat (v : F32) : ((v.bits >>> 23) &&& 0xff).toNat = v.exponent := by
  rw [toNat_and_ones (k := 8) _ rfl, toNat_shiftRight _ (by decide)]
  rfl

theorem mantissa_toNat (v : F32) : (v.bits &&& 0x7fffff).toNat = v.bits.toNat % 2 ^ 23 :=
  toNat_and_ones v.bits rfl

theorem full_toNat (v : F32) :
    ((v.bits &&& 0x7fffff) ||| 0x800000).toNat = 2 ^ 23 + v.bits.toNat % 2 ^ 23 := by
  rw [UInt32.toNat_or, mantissa_toNat, Nat.or_comm]
  exact (Nat.two_pow_add_eq_or_of_lt (Nat.mod_lt _ (Nat.two_pow_pos 23)) 1).symm

theorem magnitude_bits (v : F32) :
    v.bits.toNat % 2 ^ 31 = v.exponent * 2 ^ 23 + v.bits.toNat % 2 ^ 23 := by
  rw [F32.exponent]
  omega

theorem toU16_toNat {x : UInt32} (h : x.toNat < 2 ^ 16) (other : UInt16) :
    (toU16 x other).toNat = x.toNat := by
  rw [toU16, if_pos h, UInt32.toNat_toUInt16, Nat.mod_eq_of_lt h]

/-- The sign's bit over fifteen others. -/
theorem sign_or_toNat (v : F32) {m : UInt16} (hm : m.toNat < 2 ^ 15) :
    (toU16 ((v.bits >>> 16) &&& 0x8000) 0 ||| m).toNat =
      v.bits.toNat / 2 ^ 31 * 2 ^ 15 + m.toNat := by
  have hsign : ((v.bits >>> 16) &&& 0x8000).toNat = 2 ^ 15 * (v.bits.toNat / 2 ^ 31) := by
    have hone : v.bits.toNat / 2 ^ 16 / 2 ^ 15 % 2 = v.bits.toNat / 2 ^ 31 := by
      have := v.bits.toNat_lt
      omega
    rw [UInt32.toNat_and, toNat_shiftRight _ (by decide)]
    refine (Nat.and_two_pow _ 15).trans ?_
    rw [Nat.toNat_testBit, Nat.mul_comm]
    exact congrArg (2 ^ 15 * ·) hone
  have hlt : 2 ^ 15 * (v.bits.toNat / 2 ^ 31) < 2 ^ 16 := by
    have := v.bits.toNat_lt
    omega
  rw [UInt16.toNat_or, toU16_toNat (hsign ▸ hlt), hsign, ← Nat.two_pow_add_eq_or_of_lt hm,
    Nat.mul_comm]

/-- An exponent over the low bits of a mantissa. -/
theorem packed_toNat {biased : UInt32} (h : biased.toNat < 31) (rounded : UInt32) :
    ((biased <<< 10) ||| (rounded &&& 0x3ff)).toNat =
      biased.toNat * 2 ^ 10 + rounded.toNat % 2 ^ 10 := by
  have hshift : (biased <<< 10).toNat = 2 ^ 10 * biased.toNat := by
    have hmod : (biased <<< 10).toNat = biased.toNat <<< 10 % 2 ^ 32 := UInt32.toNat_shiftLeft ..
    rw [hmod, Nat.shiftLeft_eq, Nat.mod_eq_of_lt (by omega), Nat.mul_comm]
  rw [UInt32.toNat_or, hshift, toNat_and_ones (k := 10) _ rfl,
    ← Nat.two_pow_add_eq_or_of_lt (Nat.mod_lt _ (Nat.two_pow_pos 10)), Nat.mul_comm]

/-- A full mantissa rounds to one of eleven bits, or to the next power. -/
theorem roundEven_full {full : ℕ} (hlow : 2 ^ 23 ≤ full) (hhigh : full < 2 ^ 24) :
    2 ^ 10 ≤ roundEven full 13 ∧ roundEven full 13 ≤ 2 ^ 11 := by
  rw [roundEven]
  split_ifs <;> omega

/-- The code of a normal half, rounded, with the carry of a mantissa that rounds up to the next
exponent. -/
theorem normal_toNat (full exponent : UInt32) (hlow : 2 ^ 23 ≤ full.toNat)
    (hhigh : full.toNat < 2 ^ 24) (hexp : 113 ≤ exponent.toNat) (hword : exponent.toNat < 2 ^ 8) :
    (let rounded := roundShift full 13
      let (rounded, exponent) :=
        if rounded = 0x800 then (0x400, exponent + 1) else (rounded, exponent)
      let biased := exponent - 112
      if 31 ≤ biased then (0x7c00 : UInt32) else (biased <<< 10) ||| (rounded &&& 0x3ff)).toNat =
    min ((exponent.toNat - 113) * 2 ^ 10 + roundEven full.toNat 13) 0x7c00 := by
  have hrounded : (roundShift full 13).toNat = roundEven full.toNat 13 :=
    roundShift_toNat (hhigh.trans (by decide)) 13
  obtain ⟨hmin, hmax⟩ := roundEven_full hlow hhigh
  -- The exponent above its bias, either way, and the code of it.
  have hcode (rounded e : UInt32) (he : 112 ≤ e.toNat) :
      (if 31 ≤ e - 112 then (0x7c00 : UInt32)
        else ((e - 112) <<< 10) ||| (rounded &&& 0x3ff)).toNat =
      min ((e.toNat - 112) * 2 ^ 10 + rounded.toNat % 2 ^ 10) 0x7c00 := by
    have hbiased : (e - 112).toNat = e.toNat - 112 := toNat_sub he
    have hmod := Nat.mod_lt rounded.toNat (Nat.two_pow_pos 10)
    split_ifs with hpast
    · have hle : 31 ≤ e.toNat - 112 := hbiased ▸ UInt32.le_iff_toNat_le.mp hpast
      exact (min_eq_right (by omega : 0x7c00 ≤ _)).symm
    · have hlt : ¬31 ≤ e.toNat - 112 := hbiased ▸ UInt32.le_iff_toNat_le.not.mp hpast
      rw [packed_toNat (by omega), hbiased, min_eq_left (by omega)]
  dsimp only
  by_cases hcarry : roundShift full 13 = 0x800
  · have hnext : (exponent + 1).toNat = exponent.toNat + 1 := toNat_add (by
      rw [UInt32.toNat_one]
      omega)
    have hfull : roundEven full.toNat 13 = 2 ^ 11 := hrounded ▸ congrArg UInt32.toNat hcarry
    rw [if_pos hcarry]
    have hnone : (0x400 : UInt32).toNat % 2 ^ 10 = 0 := rfl
    have hsame : (exponent.toNat + 1 - 112) * 2 ^ 10 + 0 =
        (exponent.toNat - 113) * 2 ^ 10 + 2 ^ 11 := by omega
    refine (hcode 0x400 (exponent + 1) (by omega)).trans ?_
    rw [hnext, hfull, hnone, hsame]
  · have hfull : roundEven full.toNat 13 ≠ 2 ^ 11 := fun h =>
      hcarry (UInt32.toNat_inj.mp (hrounded.trans h))
    rw [if_neg hcarry]
    have hsame : (exponent.toNat - 112) * 2 ^ 10 + roundEven full.toNat 13 % 2 ^ 10 =
        (exponent.toNat - 113) * 2 ^ 10 + roundEven full.toNat 13 := by omega
    refine (hcode (roundShift full 13) exponent (by omega)).trans ?_
    rw [hrounded, hsame]

theorem magnitude_toNat (v : F32) : (v.bits &&& 0x7fffffff).toNat = v.bits.toNat % 2 ^ 31 :=
  toNat_and_ones v.bits rfl

theorem isInfinite_iff : v.isInfinite = true ↔ v.bits.toNat % 2 ^ 31 = 0xff * 2 ^ 23 := by
  rw [F32.isInfinite, decide_eq_true_iff, ← UInt32.toNat_inj, magnitude_toNat]
  rfl

theorem isFinite_iff : v.isFinite = true ↔ v.exponent < 0xff := by
  rw [F32.isFinite, decide_eq_true_iff, UInt32.lt_iff_toNat_lt, magnitude_toNat, magnitude_bits]
  have := Nat.mod_lt v.bits.toNat (Nat.two_pow_pos 23)
  have hinfinite : (0x7f800000 : UInt32).toNat = 0xff * 2 ^ 23 := rfl
  omega

theorem half_infinite (h : v.isInfinite = true) :
    (half v).toNat = v.bits.toNat / 2 ^ 31 * 2 ^ 15 + 0x7c00 := by
  have hmagnitude := isInfinite_iff.mp h
  have hsplit := magnitude_bits v
  have := Nat.mod_lt v.bits.toNat (Nat.two_pow_pos 23)
  have hexponent : (v.bits >>> 23) &&& 0xff = 0xff :=
    UInt32.toNat_inj.mp ((exponent_toNat v).trans (by change v.exponent = 0xff; omega))
  have hmantissa : v.bits &&& 0x7fffff = 0 :=
    UInt32.toNat_inj.mp ((mantissa_toNat v).trans (by change _ = 0; omega))
  rw [half]
  dsimp only
  rw [if_pos hexponent, if_pos hmantissa]
  exact sign_or_toNat v (by decide)

/-- A value of exponent 0, as a code of a half with more bits. -/
theorem magnitude_subnormal (h : v.exponent = 0) :
    v.magnitude = floatValue (10 + 125) 15 (v.bits.toNat % 2 ^ 23) := by
  have hlow := Nat.mod_lt v.bits.toNat (Nat.two_pow_pos 23)
  rw [F32.magnitude, magnitude_bits, h, Nat.zero_mul, Nat.zero_add, floatValue_of_le 127 hlow.le,
    floatValue_of_le 15 (hlow.le.trans (by decide))]
  rfl

/-- A value below the least normal half, as one. -/
theorem magnitude_below (h : v.exponent ≠ 0) (hle : v.exponent ≤ 112) :
    v.magnitude =
      floatValue (10 + (126 - v.exponent)) 15 (2 ^ 23 + v.bits.toNat % 2 ^ 23) := by
  have hlow := Nat.mod_lt v.bits.toNat (Nat.two_pow_pos 23)
  have hpow : 2 ^ 24 ≤ 2 ^ (10 + (126 - v.exponent)) :=
    Nat.pow_le_pow_right two_pos (by omega)
  have hexp : (v.exponent : ℤ) - 127 - (23 : ℕ) = 1 - 15 - (10 + (126 - v.exponent) : ℕ) := by omega
  rw [F32.magnitude, magnitude_bits, floatValue_add 127 h hlow, floatValue_of_le 15 (by omega), hexp]

/-- A value from the least normal half on, as one. -/
theorem magnitude_above (h : 113 ≤ v.exponent) :
    v.magnitude = floatValue (10 + 13) 15
      ((v.exponent - 113) * 2 ^ 10 * 2 ^ 13 + (2 ^ 23 + v.bits.toNat % 2 ^ 23)) := by
  have hlow := Nat.mod_lt v.bits.toNat (Nat.two_pow_pos 23)
  have hcode : v.exponent * 2 ^ 23 + v.bits.toNat % 2 ^ 23 - 112 * 2 ^ 23 =
      (v.exponent - 113) * 2 ^ 10 * 2 ^ 13 + (2 ^ 23 + v.bits.toNat % 2 ^ 23) := by omega
  rw [F32.magnitude, magnitude_bits, ← hcode]
  exact (floatValue_sub 127 (by omega)).symm

/-- A finite value is rounded to the nearest code, past the largest finite one to the infinity's. -/
theorem half_finite (h : v.isFinite = true) :
    ∃ n, NearestEven (floatValue 10 15) Set.univ v.magnitude n ∧
      (half v).toNat = v.bits.toNat / 2 ^ 31 * 2 ^ 15 + min n 0x7c00 := by
  have hfinite := isFinite_iff.mp h
  have hlow := Nat.mod_lt v.bits.toNat (Nat.two_pow_pos 23)
  have hexponent := exponent_toNat v
  have hfull := full_toNat v
  have hsign {m : UInt32} (hm : m.toNat ≤ 0x7c00) :
      (toU16 ((v.bits >>> 16) &&& 0x8000) 0 ||| toU16 m 0x7c00).toNat =
        v.bits.toNat / 2 ^ 31 * 2 ^ 15 + m.toNat := by
    have hword := toU16_toNat (x := m) (by omega) 0x7c00
    rw [sign_or_toNat v (by omega), hword]
  rw [half]
  dsimp only
  generalize (v.bits >>> 23) &&& 0xff = exponent at hexponent ⊢
  generalize (v.bits &&& 0x7fffff) ||| 0x800000 = full at hfull ⊢
  have hnotInfinite : exponent ≠ 0xff := by
    rintro rfl
    exact hfinite.ne hexponent.symm
  rw [if_neg hnotInfinite]
  by_cases hzero : exponent = 0
  · have hexp : v.exponent = 0 := hexponent.symm.trans (congrArg UInt32.toNat hzero)
    refine ⟨roundEven (v.bits.toNat % 2 ^ 23) 125, ?_, ?_⟩
    · rw [magnitude_subnormal hexp]
      exact nearestEven_floatValue 10 125 15 _
    · have hnone : roundEven (v.bits.toNat % 2 ^ 23) 125 = 0 := by
        rw [roundEven, Nat.div_eq_of_lt (by omega), Nat.mod_eq_of_lt (by omega), if_neg (by omega)]
      rw [if_pos hzero, hnone, ← UInt16.or_zero (a := toU16 _ _)]
      exact sign_or_toNat v (by decide)
  have hnormal : v.exponent ≠ 0 := fun h => hzero (UInt32.toNat_inj.mp (hexponent.trans h))
  rw [if_neg hzero]
  by_cases hbelow : exponent ≤ 112
  · have hle : v.exponent ≤ 112 := hexponent ▸ UInt32.le_iff_toNat_le.mp hbelow
    have hshift : (126 - exponent).toNat = 126 - v.exponent := by
      rw [← hexponent]
      exact toNat_sub ((hexponent.trans_le hle).trans (by decide))
    have hpow : 2 ^ 24 ≤ 2 ^ (10 + (126 - v.exponent)) := Nat.pow_le_pow_right two_pos (by omega)
    have hmax : roundEven (2 ^ 23 + v.bits.toNat % 2 ^ 23) (126 - v.exponent) ≤ 2 ^ 10 :=
      roundEven_le (by omega)
    have hrounded := roundShift_toNat (x := full) (by omega) (126 - exponent)
    rw [hfull, hshift] at hrounded
    refine ⟨roundEven (2 ^ 23 + v.bits.toNat % 2 ^ 23) (126 - v.exponent), ?_, ?_⟩
    · rw [magnitude_below hnormal hle]
      exact nearestEven_floatValue 10 (126 - v.exponent) 15 _
    · rw [if_pos hbelow, hsign (by omega), hrounded, min_eq_left (by omega)]
  · have hgt : ¬v.exponent ≤ 112 := hexponent ▸ UInt32.le_iff_toNat_le.not.mp hbelow
    have hcode := normal_toNat full exponent (by omega) (by omega) (by omega) (by omega)
    rw [hfull, hexponent, ← roundEven_add (by omega)] at hcode
    refine ⟨roundEven ((v.exponent - 113) * 2 ^ 10 * 2 ^ 13 +
      (2 ^ 23 + v.bits.toNat % 2 ^ 23)) 13, ?_, ?_⟩
    · rw [magnitude_above (by omega)]
      exact nearestEven_floatValue 10 13 15 _
    · rw [if_neg hbelow, ← hcode]
      exact hsign (hcode.trans_le (min_le_right _ _))

/-! ### Small floats -/

theorem toNat_min (x y : UInt32) : (min x y).toNat = min x.toNat y.toNat := by
  have hmin : min x y = if x ≤ y then x else y := rfl
  rw [hmin]
  split_ifs with h
  · exact (min_eq_left (UInt32.le_iff_toNat_le.mp h)).symm
  · exact (min_eq_right (not_le.mp (UInt32.le_iff_toNat_le.not.mp h)).le).symm

/-- The code of the exponent 15 less, or the mantissa cut to the least exponent's bits. -/
def F32.aligned (v : F32) : ℕ :=
  if v.exponent < 113 then (2 ^ 23 + v.bits.toNat % 2 ^ 23) / 2 ^ (113 - v.exponent)
  else v.bits.toNat % 2 ^ 31 - 112 * 2 ^ 23

/-- A value below the least normal small float without its bits below those of that exponent. -/
def cut (x : ℚ) : ℚ := if x < 2 ^ (-14 : ℤ) then ⌊x * 2 ^ 37⌋₊ / 2 ^ 37 else x

theorem cut_mono : Monotone cut := by
  intro x y hxy
  have hpow : (0 : ℚ) < 2 ^ 37 := by positivity
  rw [cut, cut]
  split_ifs with hx hy hy
  · have hfloor := Nat.floor_mono (mul_le_mul_of_nonneg_right hxy hpow.le)
    exact div_le_div_of_nonneg_right (Nat.cast_le.mpr hfloor) hpow.le
  · -- The bits that are left are below the least normal one.
    have hle : x * 2 ^ 37 ≤ (2 ^ 23 : ℕ) := by
      have := mul_le_mul_of_nonneg_right hx.le hpow.le
      norm_num at this ⊢
      exact this
    have hfloor : (⌊x * 2 ^ 37⌋₊ : ℚ) ≤ 2 ^ 23 := mod_cast Nat.floor_le_of_le hle
    refine (div_le_div_of_nonneg_right hfloor hpow.le).trans (le_trans ?_ (not_lt.mp hy))
    norm_num
  · exact absurd (hxy.trans_lt hy) hx
  · exact hxy

theorem magnitude_lt_iff (v : F32) : v.magnitude < 2 ^ (-14 : ℤ) ↔ v.exponent < 113 := by
  have hleast : (2 : ℚ) ^ (-14 : ℤ) = floatValue 23 127 (113 * 2 ^ 23 + 0) := by
    rw [floatValue_add 127 (by decide) (by decide)]
    norm_num
  rw [hleast, F32.magnitude, (floatValue_strictMono 23 127).lt_iff_lt, magnitude_bits]
  omega

theorem aligned_lt (h : v.exponent < 113) : v.aligned < 2 ^ 23 := by
  have hlow := Nat.mod_lt v.bits.toNat (Nat.two_pow_pos 23)
  have hpow := Nat.pow_le_pow_right two_pos (by omega : 1 ≤ 113 - v.exponent)
  rw [F32.aligned, if_pos h]
  have := Nat.div_le_div_left hpow two_pos (a := 2 ^ 23 + v.bits.toNat % 2 ^ 23)
  omega

/-- The bits of a value below the least normal small float, to those of that exponent. -/
theorem floor_magnitude (h : v.exponent < 113) : ⌊v.magnitude * 2 ^ 37⌋₊ =
    (2 ^ 23 + v.bits.toNat % 2 ^ 23) / 2 ^ (113 - v.exponent) := by
  have hlow := Nat.mod_lt v.bits.toNat (Nat.two_pow_pos 23)
  by_cases hzero : v.exponent = 0
  · have hscaled : v.magnitude * 2 ^ 37 = (v.bits.toNat % 2 ^ 23 : ℕ) / (2 ^ 112 : ℕ) := by
      rw [magnitude_subnormal hzero, floatValue_of_le 15 (hlow.le.trans (by decide)), mul_assoc]
      norm_num [div_eq_mul_inv]
    rw [hscaled, Nat.floor_div_eq_div, hzero, Nat.div_eq_of_lt (by omega), Nat.div_eq_of_lt (by omega)]
  · have hscaled : v.magnitude * 2 ^ 37 =
        (2 ^ 23 + v.bits.toNat % 2 ^ 23 : ℕ) / (2 ^ (113 - v.exponent) : ℕ) := by
      have hexp : (v.exponent : ℤ) - 127 - (23 : ℕ) + (37 : ℕ) = -(113 - v.exponent : ℕ) := by omega
      rw [F32.magnitude, magnitude_bits, floatValue_add 127 hzero hlow, mul_assoc,
        ← zpow_natCast 2 37, ← zpow_add₀ two_ne_zero, hexp, zpow_neg, zpow_natCast, div_eq_mul_inv,
        Nat.cast_pow, Nat.cast_ofNat]
    rw [hscaled, Nat.floor_div_eq_div]

/-- What is rounded is the value cut. -/
theorem cut_magnitude (v : F32) : cut v.magnitude = floatValue 23 15 v.aligned := by
  have hlow := Nat.mod_lt v.bits.toNat (Nat.two_pow_pos 23)
  rw [cut]
  simp only [magnitude_lt_iff]
  split_ifs with hbelow
  · rw [floatValue_of_le 15 (aligned_lt hbelow).le, F32.aligned, if_pos hbelow, div_eq_mul_inv]
    have hunit : ((2 : ℚ) ^ 37)⁻¹ = 2 ^ (1 - 15 - (23 : ℕ) : ℤ) := by norm_num
    rw [hunit, ← floor_magnitude hbelow]
  · have hcode : v.exponent * 2 ^ 23 + v.bits.toNat % 2 ^ 23 - 112 * 2 ^ 23 =
        (v.exponent - 113) * 2 ^ 10 * 2 ^ 13 + (2 ^ 23 + v.bits.toNat % 2 ^ 23) := by omega
    rw [F32.aligned, if_neg hbelow, magnitude_above (not_lt.mp hbelow), magnitude_bits, hcode]

theorem isNan_eq_false (h : v.isFinite = true) : v.isNan = false := by
  have hlt := UInt32.lt_iff_toNat_lt.mp (of_decide_eq_true h)
  exact decide_eq_false fun hgt => absurd (UInt32.lt_iff_toNat_lt.mp hgt) hlt.not_gt

theorem isInfinite_eq_false (h : v.isFinite = true) : v.isInfinite = false := by
  have hlt := UInt32.lt_iff_toNat_lt.mp (of_decide_eq_true h)
  exact decide_eq_false fun heq => absurd (congrArg UInt32.toNat heq) hlt.ne

theorem isZero_iff : v.isZero = true ↔ v.bits.toNat % 2 ^ 31 = 0 := by
  rw [F32.isZero, decide_eq_true_iff, ← UInt32.toNat_inj, magnitude_toNat]
  rfl

theorem lt_of_isSignNegative (h : v.isSignNegative = false) : v.bits.toNat < 2 ^ 31 := by
  have hzero : v.bits &&& 0x80000000 = 0 := not_not.mp (of_decide_eq_false h)
  have hbit : v.bits.toNat &&& 2 ^ 31 = 0 :=
    (UInt32.toNat_and _ _).symm.trans (congrArg UInt32.toNat hzero)
  rw [Nat.and_two_pow, Nat.toNat_testBit] at hbit
  have := v.bits.toNat_lt
  omega

theorem magnitude_eq_zero_iff : v.magnitude = 0 ↔ v.isZero = true := by
  have hzero : floatValue 23 127 0 = 0 := by rw [floatValue_of_le 127 (Nat.zero_le _), Nat.cast_zero,
    zero_mul]
  rw [isZero_iff, F32.magnitude, ← hzero, (floatValue_strictMono 23 127).injective.eq_iff]

theorem magnitude_nonneg (v : F32) : 0 ≤ v.magnitude := by
  rw [F32.magnitude, floatValue_eq]
  positivity

/-- A value that is not negative has no sign, or is zero. -/
theorem sign_of_value (h : 0 ≤ v.value) :
    v.value = v.magnitude ∧ (v.isSignNegative = false ∨ v.isZero = true) := by
  rw [F32.value] at h ⊢
  split_ifs at h ⊢ with hsign
  · have hzero : v.magnitude = 0 := le_antisymm (neg_nonneg.mp h) (magnitude_nonneg v)
    exact ⟨by rw [hzero, neg_zero], .inr (magnitude_eq_zero_iff.mp hzero)⟩
  · exact ⟨rfl, .inl (Bool.eq_false_iff.mpr hsign)⟩

/-- The bits that are rounded. -/
theorem aligned_toNat (hsign : v.bits.toNat < 2 ^ 31)
    {exponent : UInt32} (hexponent : exponent = v.bits >>> 23) :
    (if exponent < 113 then
        (checkedShr ((v.bits &&& 0x7fffff) ||| 0x800000) (113 - exponent)).getD 0
      else v.bits - ((112 : UInt32) <<< 23)).toNat = v.aligned := by
  have hlow := Nat.mod_lt v.bits.toNat (Nat.two_pow_pos 23)
  have hfull := full_toNat v
  replace hexponent : exponent.toNat = v.exponent := by
    rw [hexponent, toNat_shiftRight _ (by decide), F32.exponent]
    exact (Nat.mod_eq_of_lt (by change v.bits.toNat / 2 ^ 23 < _; omega)).symm
  rw [F32.aligned]
  generalize (v.bits &&& 0x7fffff) ||| 0x800000 = full at hfull ⊢
  by_cases hbelow : exponent < 113
  · have hlt : v.exponent < 113 := hexponent ▸ UInt32.lt_iff_toNat_lt.mp hbelow
    have hshift : (113 - exponent).toNat = 113 - v.exponent := by
      rw [← hexponent]
      exact toNat_sub (hexponent.trans_le hlt.le)
    rw [if_pos hbelow, if_pos hlt, checkedShr, ← hfull, ← hshift]
    split_ifs with hword
    · exact toNat_shiftRight full (UInt32.lt_iff_toNat_lt.mp hword)
    · have hle : 32 ≤ (113 - exponent).toNat := UInt32.le_iff_toNat_le.mp (UInt32.not_lt.mp hword)
      have hpow := Nat.pow_le_pow_right two_pos hle
      exact (Nat.div_eq_of_lt (by omega)).symm
  · have hge : ¬v.exponent < 113 := hexponent ▸ UInt32.lt_iff_toNat_lt.not.mp hbelow
    have hsplit := magnitude_bits v
    have hbias : ((112 : UInt32) <<< 23).toNat = 112 * 2 ^ 23 := rfl
    rw [if_neg hbelow, if_neg hge, toNat_sub (by omega), hbias, Nat.mod_eq_of_lt hsign]

/-- The cut bits fit a word with what rounding adds. -/
theorem aligned_le (hfinite : v.isFinite = true) : v.aligned < 2 ^ 31 - 2 ^ 23 := by
  have hexp := isFinite_iff.mp hfinite
  have hlow := Nat.mod_lt v.bits.toNat (Nat.two_pow_pos 23)
  have hsplit := magnitude_bits v
  by_cases hbelow : v.exponent < 113
  · exact (aligned_lt hbelow).trans (by decide)
  · rw [F32.aligned, if_neg hbelow]
    omega

/-- Rounding by an addition of half a step less one, and one for an odd code. -/
theorem code_toNat {aligned shift : UInt32} (hle : aligned.toNat < 2 ^ 31 - 2 ^ 23)
    (hpos : 0 < shift.toNat) (hlt : shift.toNat < 23) :
    ((aligned + ((1 : UInt32) <<< (shift - 1)) - 1 + ((aligned >>> shift) &&& 1)) >>> shift).toNat =
      roundEven aligned.toNat shift.toNat := by
  have hshift : (shift - 1).toNat = shift.toNat - 1 := toNat_sub hpos
  have hhalf : ((1 : UInt32) <<< (shift - 1)).toNat = 2 ^ (shift.toNat - 1) := by
    rw [toNat_one_shiftLeft (by omega), hshift]
  have hpow : 2 ^ (shift.toNat - 1) ≤ 2 ^ 22 := Nat.pow_le_pow_right two_pos (by omega)
  have hone := Nat.two_pow_pos (shift.toNat - 1)
  have hodd : ((aligned >>> shift) &&& 1).toNat = aligned.toNat / 2 ^ shift.toNat % 2 := by
    rw [toNat_and_ones (k := 1) _ rfl, toNat_shiftRight _ (by omega)]
    rfl
  have hadd : (aligned + (1 : UInt32) <<< (shift - 1)).toNat =
      aligned.toNat + 2 ^ (shift.toNat - 1) := by
    rw [toNat_add (by omega), hhalf]
  have hless : (aligned + (1 : UInt32) <<< (shift - 1) - 1).toNat =
      aligned.toNat + 2 ^ (shift.toNat - 1) - 1 := by
    rw [toNat_sub (by rw [hadd, UInt32.toNat_one]; omega), hadd, UInt32.toNat_one]
  rw [toNat_shiftRight _ (by omega), toNat_add (by omega), hless, hodd]
  exact add_half_div hpos _

/-- A finite value that is not negative is what was cut of it, rounded, up to the largest finite code. -/
theorem smallFloat_toNat (hfinite : v.isFinite = true) (hvalue : 0 ≤ v.value) {mantissa : UInt32}
    (hpos : 0 < mantissa.toNat) (hlt : mantissa.toNat < 23) :
    (smallFloat v mantissa).toNat =
      min (roundEven v.aligned (23 - mantissa.toNat)) (0x1f * 2 ^ mantissa.toNat - 1) := by
  obtain ⟨-, hsign⟩ := sign_of_value hvalue
  rw [smallFloat]
  dsimp only
  rw [isNan_eq_false hfinite, isInfinite_eq_false hfinite, if_neg Bool.false_ne_true]
  by_cases hzero : v.isZero = true
  · have hbits := isZero_iff.mp hzero
    have hsplit := magnitude_bits v
    have hexp : v.exponent = 0 := by omega
    have hnone : v.aligned = 0 := by
      rw [F32.aligned, hexp, if_pos (by decide), Nat.div_eq_of_lt (by omega)]
    have hround : roundEven 0 (23 - mantissa.toNat) = 0 := by
      have := Nat.two_pow_pos (23 - mantissa.toNat)
      rw [roundEven, Nat.zero_mod, Nat.zero_div, if_neg (by omega)]
    rw [hzero, Bool.or_true, if_pos rfl, hnone, hround, Nat.zero_min]
    rfl
  · have hpositive := hsign.resolve_right hzero
    have haligned := aligned_toNat (lt_of_isSignNegative hpositive) rfl
    have hle := aligned_le hfinite
    rw [hpositive, Bool.eq_false_of_not_eq_true hzero, Bool.or_self, if_neg Bool.false_ne_true,
      if_neg Bool.false_ne_true]
    generalize (if v.bits >>> 23 < 113 then _ else _ : UInt32) = aligned at haligned ⊢
    have hshift : (23 - mantissa).toNat = 23 - mantissa.toNat := toNat_sub hlt.le
    have hpow : 2 ^ mantissa.toNat ≤ 2 ^ 22 := Nat.pow_le_pow_right two_pos (by omega)
    have hinfinity : ((0x1f : UInt32) <<< mantissa).toNat = 0x1f * 2 ^ mantissa.toNat := by
      rw [UInt32.toNat_shiftLeft, Nat.mod_eq_of_lt (hlt.trans (by decide)), Nat.shiftLeft_eq]
      exact Nat.mod_eq_of_lt (by change 0x1f * _ < _; omega)
    have hone := Nat.two_pow_pos mantissa.toNat
    rw [UInt32.toNat_toUInt64, toNat_min, code_toNat (by omega) (by omega) (by omega), hshift,
      haligned, toNat_sub (by rw [hinfinity, UInt32.toNat_one]; omega), hinfinity, UInt32.toNat_one]

/-- A small float is the nearest finite one to the value cut. -/
theorem smallFloat_nearest (hfinite : v.isFinite = true) (hvalue : 0 ≤ v.value) {mantissa : UInt32}
    (hpos : 0 < mantissa.toNat) (hlt : mantissa.toNat < 23) :
    NearestEven (floatValue mantissa.toNat 15) (Set.Iic (0x1f * 2 ^ mantissa.toNat - 1))
      (cut v.value) (smallFloat v mantissa).toNat := by
  have hnearest := nearestEven_floatValue mantissa.toNat (23 - mantissa.toNat) 15 v.aligned
  rw [Nat.add_sub_of_le hlt.le, ← cut_magnitude, ← (sign_of_value hvalue).1] at hnearest
  rw [smallFloat_toNat hfinite hvalue hpos hlt]
  exact hnearest.min (floatValue_strictMono _ _) _

/-- A small float rises with the value. -/
theorem smallFloat_le {w : F32} (hv : v.isFinite = true) (hw : w.isFinite = true)
    (hvalue : 0 ≤ v.value) (hle : v.value ≤ w.value) {mantissa : UInt32}
    (hpos : 0 < mantissa.toNat) (hlt : mantissa.toNat < 23) :
    smallFloat v mantissa ≤ smallFloat w mantissa :=
  UInt64.le_iff_toNat_le.mpr ((smallFloat_nearest hv hvalue hpos hlt).le (floatValue_strictMono _ _)
    Set.ordConnected_Iic (smallFloat_nearest hw (hvalue.trans hle) hpos hlt) (cut_mono hle))

theorem isFinite_of_not (hnan : v.isNan = false) (hinfinite : v.isInfinite = false) :
    v.isFinite = true := by
  have hle := UInt32.lt_iff_toNat_lt.not.mp (of_decide_eq_false hnan)
  have hne := UInt32.toNat_inj.not.mpr (of_decide_eq_false hinfinite)
  exact decide_eq_true (UInt32.lt_iff_toNat_lt.mpr (lt_of_le_of_ne (not_lt.mp hle) hne))

/-- A half is the nearest one to the value of an `f32` that is not a NaN, past the largest finite one an
infinity, with its sign; a small float is the nearest finite one to the value cut, of a finite `f32` that
is not negative, and rises with it. -/
theorem fill_nearest :
    (∀ v : F32, v.isNan = false →
      (v.isInfinite = true → (half v).toNat = v.bits.toNat / 2 ^ 31 * 2 ^ 15 + 0x7c00) ∧
      (v.isInfinite = false → ∃ n, NearestEven (floatValue 10 15) Set.univ v.magnitude n ∧
        (half v).toNat = v.bits.toNat / 2 ^ 31 * 2 ^ 15 + min n 0x7c00)) ∧
    ∀ mantissa : UInt32, mantissa = 5 ∨ mantissa = 6 →
      (∀ v : F32, v.isFinite = true → 0 ≤ v.value →
        NearestEven (floatValue mantissa.toNat 15) (Set.Iic (0x1f * 2 ^ mantissa.toNat - 1))
          (cut v.value) (smallFloat v mantissa).toNat) ∧
      ∀ v w : F32, v.isFinite = true → w.isFinite = true → 0 ≤ v.value → v.value ≤ w.value →
        smallFloat v mantissa ≤ smallFloat w mantissa := by
  constructor
  · exact fun v hnan => ⟨half_infinite, fun hinfinite => half_finite (isFinite_of_not hnan hinfinite)⟩
  · intro mantissa hmantissa
    have hpos : 0 < mantissa.toNat := by rcases hmantissa with rfl | rfl <;> decide
    have hlt : mantissa.toNat < 23 := by rcases hmantissa with rfl | rfl <;> decide
    exact ⟨fun v hfinite hvalue => smallFloat_nearest hfinite hvalue hpos hlt,
      fun v w hv hw hvalue hle => smallFloat_le hv hw hvalue hle hpos hlt⟩

/-- The least `f32` above 1. -/
theorem fill_nearest_one :
    (∃ n, NearestEven (floatValue 10 15) Set.univ (F32.magnitude ⟨0x3f800001⟩) n ∧
      (half ⟨0x3f800001⟩).toNat = 0 * 2 ^ 15 + min n 0x7c00) ∧
    NearestEven (floatValue 6 15) (Set.Iic (0x1f * 2 ^ 6 - 1)) (cut (F32.value ⟨0x3f800001⟩))
      (smallFloat ⟨0x3f800001⟩ 6).toNat :=
  ⟨(fill_nearest.1 ⟨0x3f800001⟩ (by decide)).2 (by decide),
    (fill_nearest.2 6 (.inr rfl)).1 ⟨0x3f800001⟩ (by decide)
      ((magnitude_nonneg _).trans_eq (if_neg (by decide)).symm)⟩

end ReimsVgpu.Gpu.Fill
