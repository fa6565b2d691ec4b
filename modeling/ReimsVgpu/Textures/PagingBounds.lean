import Mathlib.Tactic.Linarith
import ReimsVgpu.Library.Words
import ReimsVgpu.Textures.Paging

/-!
# What pages a texture stays in its allocation

A texture that passed the check of its dimension record is paged inside its allocation.

## Main definitions

* `MipPasses`, `RuleExact`, `PlanePasses`: what a mip, the rows of a format and a plane satisfy once
  they are checked.
* `Visit.InBounds`: a copy addresses bytes of the allocation, and nothing it computes wraps.

## Main results

* `checkMips_eq_ok`, `validatePlane_eq_ok`, `validatePlanes_eq_ok`: what the loops check.
* `page_inBounds`: every copy of a validated texture is in bounds, and no upload dies.
-/

namespace ReimsVgpu.Textures

open Device Guest

/-! ### Words -/

theorem toNat_halve (x : UInt64) : (halve x).toNat = max (x.toNat / 2) 1 := by
  rw [halve, UInt64.toNat_max, UInt64.toNat_div]
  rfl

theorem toNat_predecessor (x : UInt64) : (predecessor x).toNat = x.toNat - 1 := by
  unfold predecessor
  split
  case isTrue h => rw [h]; rfl
  case isFalse h =>
    have hpos : x.toNat ≠ 0 := fun hz => h (UInt64.toNat_inj.mp hz)
    rw [UInt64.toNat_sub_of_toNat_le (by change 1 ≤ x.toNat; omega)]
    rfl

/-- Texels in whole blocks, where the sum does not wrap. -/
theorem toNat_blocks {x : UInt64} {block : UInt8} (hpos : 1 ≤ x.toNat + block.toNat)
    (hlt : x.toNat + block.toNat < 2 ^ 64) :
    (blocks x block).toNat = (x.toNat + block.toNat - 1) / block.toNat := by
  have hblock : block.toUInt64.toNat = block.toNat := rfl
  have hsum : (x + block.toUInt64).toNat = x.toNat + block.toNat :=
    UInt64.toNat_add_of_toNat_lt hlt
  have hsub : (x + block.toUInt64 - 1).toNat = x.toNat + block.toNat - 1 := by
    rw [UInt64.toNat_sub_of_toNat_le (by rw [hsum]; exact hpos), hsum]
    rfl
  rw [blocks, UInt64.toNat_div, hsub, hblock]

/-- A sum of a product that does not overflow 32 bits. -/
theorem le_of_mulAddOverflowU32 {a b : UInt64} {x : UInt32}
    (h : (mulAddOverflowU32 a x b).2 = false) : a.toNat * x.toNat + b.toNat < 2 ^ 32 := by
  simp only [mulAddOverflowU32, addU64IntoU32, Bool.or_eq_false_iff, decide_eq_false_iff_not,
    not_le] at h
  obtain ⟨hproduct, hcarry, hsum⟩ := h
  have htmp : (UInt32.ofNat (a.toNat * x.toNat)).toUInt64.toNat = a.toNat * x.toNat := by
    rw [UInt32.toNat_toUInt64, UInt32.toNat_ofNat_of_lt' hproduct]
  rw [htmp] at hcarry
  have hsum' := Nat.le_of_not_lt fun hlt => hsum (UInt64.lt_iff_toNat_lt.mpr hlt)
  rw [UInt64.toNat_add_of_toNat_lt (by rw [htmp]; exact hcarry), htmp] at hsum'
  have hmax : (0xffffffff : UInt64).toNat = 2 ^ 32 - 1 := rfl
  omega

/-! ### The loop over the mips -/

/-- What a mip satisfies once it is checked, at what the loop carries there. -/
structure MipPasses (rule : RowRule) (sliceSize : UInt64) (m : TextureMipDimension)
    (s s' : MipState) : Prop where
  width : s.width = m.width.toUInt64
  height : s.height = m.height.toUInt64
  depth : s.depth = m.depth.toUInt64
  row : (rule.rowLength s.width).toNat ≤ m.bytesPerRow.toNat
  size : (rule.totalRows m s).toNat * m.bytesPerRow.toNat < 2 ^ 64
  stop : m.offset.toNat + (rule.totalRows m s).toNat * m.bytesPerRow.toNat ≤ sliceSize.toNat ∨
    sliceSize = 0
  next : s'.width = halve s.width ∧ s'.height = halve s.height ∧ s'.depth = halve s.depth
  real : s'.realSliceEnd.toNat = max s.realSliceEnd.toNat (realMipEnd rule m s).toNat

theorem checkMipExtent_eq_ok {m : TextureMipDimension}
    {totalRows bytesPerRow sliceSize lastMipEnd mipEnd : UInt64}
    (h : checkMipExtent m totalRows bytesPerRow sliceSize lastMipEnd = .ok mipEnd) :
    totalRows.toNat * bytesPerRow.toNat < 2 ^ 64 ∧
      (m.offset.toNat + totalRows.toNat * bytesPerRow.toNat ≤ sliceSize.toNat ∨
        sliceSize = 0) := by
  simp only [checkMipExtent] at h
  split_ifs at h with hsize hend hdeclared hslice hlast
  have hsize' := Nat.lt_of_not_le hsize
  have hmipSize := UInt64.toNat_mul_of_toNat_lt hsize'
  have hend' := Nat.lt_of_not_le hend
  refine ⟨hsize', hslice.imp_left fun hle => ?_⟩
  have hle' := UInt64.le_iff_toNat_le.mp hle
  rwa [UInt64.toNat_add_of_toNat_lt hend', hmipSize] at hle'

/-- The step of the loop. -/
theorem checkMip_eq_ok {rule : RowRule} {sliceSize : UInt64} {mip : ℕ} {m : TextureMipDimension}
    {s s' : MipState} (h : checkMip rule sliceSize mip m s = .ok s') :
    MipPasses rule sliceSize m s s' := by
  unfold checkMip at h
  split_ifs at h with hdims hrow hunit
  push Not at hdims
  obtain ⟨hwidth, hheight, hdepth⟩ := hdims
  split at h
  · cases h
  case h_2 mipEnd hextent =>
    obtain ⟨hsize, hstop⟩ := checkMipExtent_eq_ok hextent
    obtain rfl := Except.ok.inj h
    refine ⟨hwidth, hheight, hdepth, ?_, hsize, hstop, ⟨rfl, rfl, rfl⟩, UInt64.toNat_max _ _⟩
    exact Nat.le_of_not_lt fun hlt => hrow (UInt64.lt_iff_toNat_lt.mpr hlt)

/-- A turn `k` of a loop from `s` on that copied `copied`: its mip, and what the loop carries before
and after it. -/
structure Turn (rule : RowRule) (sliceSize : UInt64) (s : MipState)
    (copied : List TextureMipDimension) (k : ℕ) (m : TextureMipDimension) (t t' : MipState) :
    Prop where
  mip : copied[k]? = some m
  passes : MipPasses rule sliceSize m t t'
  width : t.width = halve^[k] s.width
  height : t.height = halve^[k] s.height
  depth : t.depth = halve^[k] s.depth

theorem Turn.succ {rule : RowRule} {sliceSize : UInt64} {s s' : MipState}
    {copied : List TextureMipDimension} {k : ℕ} {first m : TextureMipDimension} {t t' : MipState}
    (hfirst : MipPasses rule sliceSize first s s') (h : Turn rule sliceSize s' copied k m t t') :
    Turn rule sliceSize s (first :: copied) (k + 1) m t t' := by
  obtain ⟨hwidth, hheight, hdepth⟩ := hfirst.next
  refine ⟨by rw [List.getElem?_cons_succ, h.mip], h.passes, ?_, ?_, ?_⟩
  · rw [h.width, hwidth, Function.iterate_succ_apply]
  · rw [h.height, hheight, Function.iterate_succ_apply]
  · rw [h.depth, hdepth, Function.iterate_succ_apply]

/-- The loop: each of its mips passes, at the texture's size halved as often as there are mips
before it, and the end it answers is the furthest end of a mip's data. -/
theorem checkMips_eq_ok {rule : RowRule} {sliceSize : UInt64} {src : TextureDimensionRecord}
    {n i : ℕ} {s : MipState} {copied : List TextureMipDimension} {realSliceEnd : UInt64}
    (h : checkMips rule sliceSize src n i s = (copied, .ok realSliceEnd)) :
    s.realSliceEnd.toNat ≤ realSliceEnd.toNat ∧
      (∀ k < n, ∃ m t t', Turn rule sliceSize s copied k m t t' ∧
        (realMipEnd rule m t).toNat ≤ realSliceEnd.toNat) ∧
      (realSliceEnd.toNat = s.realSliceEnd.toNat ∨
        ∃ k < n, ∃ m t t', Turn rule sliceSize s copied k m t t' ∧
          realSliceEnd.toNat = (realMipEnd rule m t).toNat) := by
  induction n generalizing i s copied with
  | zero =>
    injection h with hcopied hend
    obtain rfl := Except.ok.inj hend
    exact ⟨le_rfl, fun k hk => absurd hk (Nat.not_lt_zero k), Or.inl rfl⟩
  | succ n ih =>
    rw [checkMips] at h
    dsimp only at h
    split at h
    · injection h with _ hend
      cases hend
    case h_2 s' hmip =>
      have hpasses := checkMip_eq_ok hmip
      have hfirst : Turn rule sliceSize s copied 0 (srcMip src i) s s' := by
        injection h with hcopied _
        exact ⟨by rw [← hcopied]; rfl, hpasses, rfl, rfl, rfl⟩
      injection h with hcopied hend
      obtain ⟨hgrows, hrest, hend'⟩ := ih (Prod.ext rfl hend)
      rw [hpasses.real] at hgrows hend'
      refine ⟨(le_max_left _ _).trans hgrows, fun k hk => ?_, ?_⟩
      · cases k with
        | zero => exact ⟨_, _, _, hfirst, (le_max_right _ _).trans hgrows⟩
        | succ k =>
          obtain ⟨m, t, t', ht, hreal⟩ := hrest k (Nat.lt_of_succ_lt_succ hk)
          exact ⟨m, t, t', hcopied ▸ ht.succ hpasses, hreal⟩
      · obtain hend' | ⟨k, hk, m, t, t', ht, hreal⟩ := hend'
        · obtain hmax | hmax := max_choice s.realSliceEnd.toNat
            (realMipEnd rule (srcMip src i) s).toNat
          · exact Or.inl (hend'.trans hmax)
          · exact Or.inr ⟨0, Nat.succ_pos n, _, _, _, hfirst, hend'.trans hmax⟩
        · exact Or.inr ⟨k + 1, Nat.succ_lt_succ hk, m, t, t', hcopied ▸ ht.succ hpasses, hreal⟩

/-! ### The rows of a format -/

/-- The bytes that a width's texels need in a row. -/
def rowBytes (info : GuestPixelFormatInfo) (texture : Texture) (pd : TextureDimension)
    (width : ℕ) : ℕ :=
  if info.kind = kindCompressed then
    (width + pd.blockWidth.toNat - 1) / pd.blockWidth.toNat * pd.blockBytes.toNat
  else width * (pd.blockBytes.toNat * texture.sampleCount.toNat)

/-- The pixels of a format that is not compressed have samples, of less than `2 ^ 32` bytes. -/
def SamplesFit (info : GuestPixelFormatInfo) (texture : Texture) (pd : TextureDimension) : Prop :=
  info.kind ≠ kindCompressed →
    1 ≤ texture.sampleCount.toNat ∧ texture.sampleCount.toNat * pd.blockBytes.toNat < 2 ^ 32

/-- The rows of a rule, in natural numbers. -/
structure RuleExact (rule : RowRule) (pd : TextureDimension) (bytes : ℕ → ℕ) : Prop where
  rowLength : ∀ w : UInt64, w.toNat < 2 ^ 32 → (rule.rowLength w).toNat = bytes w.toNat
  le_bytes : ∀ w, w ≤ bytes w
  bytes_le : ∀ w < 2 ^ 32, bytes w ≤ (2 ^ 32 - 1) * (2 ^ 32 - 1)
  totalRows : ∀ (m : TextureMipDimension) (s : MipState), s.height = m.height.toUInt64 →
    s.depth = m.depth.toUInt64 → 1 ≤ m.height.toNat + pd.blockHeight.toNat →
    m.height.toNat + pd.blockHeight.toNat ≤ 2 ^ 32 → 1 ≤ m.depth.toNat →
    (rule.totalRows m s).toNat =
      (m.height.toNat + pd.blockHeight.toNat - 1) / pd.blockHeight.toNat * m.depth.toNat

theorem ruleExact_normal {info : GuestPixelFormatInfo} {plane N : ℕ} {pd : TextureDimension}
    {texture : Texture} {rule : RowRule} (hkind : info.kind ≠ kindCompressed)
    (hinfo : info.Described N) (hplane : plane < N) (hsamples : SamplesFit info texture pd)
    (h : checkNormal info plane pd texture = .ok rule) :
    RuleExact rule pd (rowBytes info texture pd) := by
  unfold checkNormal at h
  dsimp only at h
  split_ifs at h with hcompressed hdims hbytes
  push Not at hdims hbytes
  obtain ⟨hwidth, hheight, hdepth⟩ := hdims
  obtain rfl := Except.ok.inj h
  have hblockBytes : 1 ≤ pd.blockBytes.toNat := by
    have := hinfo.normal hkind plane hplane
    rwa [hbytes] at this
  obtain ⟨hcount, hlt⟩ := hsamples hkind
  have hcountLt : texture.sampleCount.toNat < 2 ^ 32 := by nlinarith
  have hpixel : (pd.blockBytes.toUInt32 * texture.sampleCount.toUInt32).toUInt64.toNat =
      pd.blockBytes.toNat * texture.sampleCount.toNat := by
    rw [UInt32.toNat_toUInt64, UInt32.toNat_mul, UInt8.toNat_toUInt32, UInt64.toNat_toUInt32,
      Nat.mod_eq_of_lt hcountLt, Nat.mod_eq_of_lt (by rw [Nat.mul_comm]; exact hlt)]
  have hone : pd.blockHeight.toNat = 1 := by rw [hheight]; rfl
  have hpixelLe : pd.blockBytes.toNat * texture.sampleCount.toNat ≤ 2 ^ 32 - 1 := by
    rw [Nat.mul_comm]
    exact Nat.le_sub_one_of_lt hlt
  have hbytesLe : ∀ w < 2 ^ 32,
      w * (pd.blockBytes.toNat * texture.sampleCount.toNat) ≤ (2 ^ 32 - 1) * (2 ^ 32 - 1) :=
    fun w hw => Nat.mul_le_mul (Nat.le_sub_one_of_lt hw) hpixelLe
  refine ⟨fun w hw => ?_, fun w => ?_, fun w hw => ?_, fun m s hh hd hpos hle hdep => ?_⟩
  · rw [rowBytes, if_neg hkind]
    change (w * (pd.blockBytes.toUInt32 * texture.sampleCount.toUInt32).toUInt64).toNat = _
    rw [UInt64.toNat_mul_of_toNat_lt, hpixel]
    rw [hpixel]
    exact lt_of_le_of_lt (hbytesLe _ hw) (by norm_num)
  · rw [rowBytes, if_neg hkind]
    exact Nat.le_mul_of_pos_right w (Nat.mul_pos hblockBytes hcount)
  · rw [rowBytes, if_neg hkind]
    exact hbytesLe w hw
  · change (m.height.toUInt64 * m.depth.toUInt64).toNat = _
    have hmul : m.height.toUInt64.toNat * m.depth.toUInt64.toNat < 2 ^ 64 := by
      rw [UInt32.toNat_toUInt64, UInt32.toNat_toUInt64]
      exact (Nat.mul_lt_mul'' m.height.toNat_lt m.depth.toNat_lt).trans_le (by norm_num)
    rw [UInt64.toNat_mul_of_toNat_lt hmul, UInt32.toNat_toUInt64, UInt32.toNat_toUInt64, hone,
      Nat.add_sub_cancel, Nat.div_one]

theorem ruleExact_compressed {info : GuestPixelFormatInfo} {N : ℕ} {pd : TextureDimension}
    {texture : Texture} {rule : RowRule} (hkind : info.kind = kindCompressed)
    (hinfo : info.Described N) (h : checkCompressed info pd = .ok rule) :
    RuleExact rule pd (rowBytes info texture pd) := by
  unfold checkCompressed at h
  dsimp only at h
  split_ifs at h with hcompressed hdims
  push Not at hdims
  obtain ⟨hwidth, hheight, hdepth, hbytes⟩ := hdims
  obtain rfl := Except.ok.inj h
  obtain ⟨hone, hle, hdeep⟩ := hinfo.compressed hkind
  rw [← hwidth] at hone
  rw [← hwidth, ← hbytes] at hle
  change 1 ≤ pd.blockWidth.toNat at hone
  change pd.blockWidth.toNat ≤ pd.blockBytes.toNat at hle
  have hbw := pd.blockWidth.toNat_lt
  have hbb := pd.blockBytes.toNat_lt
  have hdeep' : pd.blockDepth.toNat = 1 := by
    have : pd.blockDepth.toUInt64.toNat = 1 := by rw [hdepth, hdeep]; rfl
    exact this
  have hwide : ∀ w : ℕ, (w + pd.blockWidth.toNat - 1) / pd.blockWidth.toNat ≤ w := fun w => by
    obtain rfl | hw := Nat.eq_zero_or_pos w
    · exact (Nat.div_eq_of_lt (by omega)).le
    · have hprod : w + pd.blockWidth.toNat ≤ pd.blockWidth.toNat * w + 1 := by nlinarith
      exact Nat.div_le_of_le_mul (by omega)
  have hbytesLe : ∀ w < 2 ^ 32, (w + pd.blockWidth.toNat - 1) / pd.blockWidth.toNat *
      pd.blockBytes.toNat ≤ (2 ^ 32 - 1) * (2 ^ 32 - 1) := fun w hw =>
    Nat.mul_le_mul ((hwide w).trans (Nat.le_sub_one_of_lt hw)) (by omega)
  refine ⟨fun w hw => ?_, fun w => ?_, fun w hw => ?_, fun m s hh hd hpos hle' hdep => ?_⟩
  · rw [rowBytes, if_pos hkind]
    change (blocks w pd.blockWidth * pd.blockBytes.toUInt64).toNat = _
    have hblocks : (blocks w pd.blockWidth).toNat =
        (w.toNat + pd.blockWidth.toNat - 1) / pd.blockWidth.toNat :=
      toNat_blocks (by omega) (by omega)
    rw [UInt64.toNat_mul_of_toNat_lt, hblocks]
    · rfl
    · rw [hblocks]
      exact lt_of_le_of_lt (hbytesLe _ hw) (by norm_num)
  · rw [rowBytes, if_pos hkind]
    -- The last block holds the last texel.
    have hceil : w ≤ (w + pd.blockWidth.toNat - 1) / pd.blockWidth.toNat * pd.blockWidth.toNat := by
      have hdiv := Nat.div_add_mod (w + pd.blockWidth.toNat - 1) pd.blockWidth.toNat
      have hmod := Nat.mod_lt (w + pd.blockWidth.toNat - 1) hone
      rw [Nat.mul_comm] at hdiv
      omega
    exact hceil.trans (Nat.mul_le_mul_left _ hle)
  · rw [rowBytes, if_pos hkind]
    exact hbytesLe w hw
  · change (blocks s.depth pd.blockDepth * blocks s.height pd.blockHeight).toNat = _
    have hdlt := m.depth.toNat_lt
    have hdeepBlocks : (blocks s.depth pd.blockDepth).toNat = m.depth.toNat := by
      rw [toNat_blocks, hd, UInt32.toNat_toUInt64, hdeep', Nat.div_one, Nat.add_sub_cancel]
      all_goals rw [hd, UInt32.toNat_toUInt64, hdeep']; omega
    have hhighBlocks : (blocks s.height pd.blockHeight).toNat =
        (m.height.toNat + pd.blockHeight.toNat - 1) / pd.blockHeight.toNat := by
      rw [toNat_blocks, hh, UInt32.toNat_toUInt64]
      all_goals rw [hh, UInt32.toNat_toUInt64]; omega
    have hhighLt : (m.height.toNat + pd.blockHeight.toNat - 1) / pd.blockHeight.toNat < 2 ^ 32 :=
      lt_of_le_of_lt (Nat.div_le_self _ _) (by omega)
    rw [UInt64.toNat_mul_of_toNat_lt, hdeepBlocks, hhighBlocks, Nat.mul_comm]
    rw [hdeepBlocks, hhighBlocks]
    exact (Nat.mul_lt_mul'' hdlt hhighLt).trans_le (by norm_num)

/-- The rows of a checked plane. -/
theorem ruleExact_of_checkKind {info : GuestPixelFormatInfo} {plane N : ℕ} {pd : TextureDimension}
    {texture : Texture} {rule : RowRule} (hinfo : info.Described N) (hplane : plane < N)
    (hsamples : SamplesFit info texture pd)
    (h : checkKind info plane pd texture = .ok (some rule)) :
    RuleExact rule pd (rowBytes info texture pd) := by
  unfold checkKind at h
  split_ifs at h with hnormal hcompressed
  · have hkind : info.kind ≠ kindCompressed := by
      rcases hnormal with hk | hk <;> rw [hk] <;> decide
    cases hcheck : checkNormal info plane pd texture with
    | error line => rw [hcheck] at h; cases h
    | ok r =>
      rw [hcheck] at h
      obtain rfl : r = rule := Option.some.inj (Except.ok.inj h)
      exact ruleExact_normal hkind hinfo hplane hsamples hcheck
  · cases hcheck : checkCompressed info pd with
    | error line => rw [hcheck] at h; cases h
    | ok r =>
      rw [hcheck] at h
      obtain rfl : r = rule := Option.some.inj (Except.ok.inj h)
      exact ruleExact_compressed hcompressed hinfo hcheck
  · cases Except.ok.inj h

/-! ### The planes -/

/-- One less than a number, against the difference that stops at zero. -/
theorem sub_one_mul_le (n b : ℕ) : ((n : ℤ) - 1) * b ≤ ((n - 1 : ℕ) : ℤ) * b :=
  mul_le_mul_of_nonneg_right (by omega) (Int.natCast_nonneg b)

/-- A texture's sizes, with blocks of a height: what the exact rows of its mips rest on. -/
structure SizesFit (texture : Texture) (blockHeight : UInt8) : Prop where
  depth : 1 ≤ texture.depth.toNat
  height : 1 ≤ texture.height.toNat + blockHeight.toNat
  height_le : texture.height.toNat + blockHeight.toNat ≤ 2 ^ 32

theorem one_le_halve_iterate (x : UInt64) (k : ℕ) (h : 1 ≤ x.toNat) :
    1 ≤ (halve^[k] x).toNat := by
  induction k generalizing x with
  | zero => exact h
  | succ k ih =>
    rw [Function.iterate_succ_apply]
    exact ih _ (by rw [toNat_halve]; exact le_max_right _ _)

theorem halve_iterate_le (x : UInt64) (k : ℕ) :
    (halve^[k] x).toNat ≤ max x.toNat 1 := by
  induction k generalizing x with
  | zero => exact le_max_left _ _
  | succ k ih =>
    rw [Function.iterate_succ_apply]
    refine (ih _).trans ?_
    rw [toNat_halve]
    omega

/-- A size is the texture's at its first mip, and positive after it. -/
theorem halve_iterate_eq_or (x : UInt64) (k : ℕ) :
    halve^[k] x = x ∨ 1 ≤ (halve^[k] x).toNat := by
  cases k with
  | zero => exact Or.inl rfl
  | succ k =>
    rw [Function.iterate_succ_apply]
    exact Or.inr (one_le_halve_iterate _ k (by rw [toNat_halve]; exact le_max_right _ _))

/-- The rows of a mip in whole blocks. -/
def exactRows (pd : TextureDimension) (m : TextureMipDimension) : ℕ :=
  (m.height.toNat + pd.blockHeight.toNat - 1) / pd.blockHeight.toNat

/-- What a mip of a checked plane satisfies, in exact numbers. -/
structure MipFits (bytes : ℕ → ℕ) (L : UInt64) (pd : TextureDimension) (m : TextureMipDimension) :
    Prop where
  height : 1 ≤ m.height.toNat + pd.blockHeight.toNat
  height_le : m.height.toNat + pd.blockHeight.toNat ≤ 2 ^ 32
  depth : 1 ≤ m.depth.toNat
  row : m.width.toNat ≤ m.bytesPerRow.toNat
  size : exactRows pd m * m.depth.toNat * m.bytesPerRow.toNat < 2 ^ 64
  stop : m.offset.toNat ≤ pd.bytesPerSlice.toNat
  real :
    (pd.baseOffset.toNat + (pd.sliceCount.toNat - 1) * pd.bytesPerSlice.toNat +
      m.offset.toNat : ℤ) + (exactRows pd m * m.depth.toNat - 1) * m.bytesPerRow.toNat +
      bytes m.width.toNat ≤ L.toNat

/-- What a plane satisfies once it is checked. -/
structure PlanePasses (bytes : ℕ → ℕ) (L : UInt64) (texture : Texture) (mipLevels : UInt32)
    (dst : TextureDimensionRecord) : Prop where
  levels : dst.header.mipLevels.toNat ≤ mipLevels.toNat
  arrayLength : texture.arrayLength = dst.header.arrayLength.toUInt64
  cube : texture.isCube = dst.header.isCube
  slices : dst.header.bytesPerSlice.toNat * dst.header.sliceCount.toNat +
    dst.header.baseOffset.toNat < 2 ^ 32
  mips : 1 ≤ dst.header.sliceCount.toNat →
    ∀ k < mipLevels.toNat, ∃ m, dst.mips[k]? = some m ∧ MipFits bytes L dst.header m

theorem mipLevels_setMipLevels_le (d : TextureDimension) (v : UInt32) :
    (d.setMipLevels v).mipLevels.toNat ≤ v.toNat := by
  have hmask : (d.setMipLevels v).mipLevels = v.toUInt16 &&& mipLevelsMask := by
    unfold TextureDimension.mipLevels TextureDimension.setMipLevels
    apply UInt16.toBitVec_inj.mp
    ext i hi
    simp only [UInt16.toBitVec_and, UInt16.toBitVec_or, UInt16.toBitVec_not, BitVec.getElem_and,
      BitVec.getElem_or, BitVec.getElem_not]
    cases mipLevelsMask.toBitVec[i] <;> simp
  rw [hmask, UInt16.toNat_and]
  refine Nat.and_le_left.trans ?_
  rw [UInt32.toNat_toUInt16]
  exact Nat.mod_le _ _

/-- A turn of the loop over a texture's mips, in exact numbers. -/
structure TurnExact (bytes : ℕ → ℕ) (sliceSize : UInt64) (pd : TextureDimension)
    (m : TextureMipDimension) (realEnd : ℕ) : Prop where
  height : 1 ≤ m.height.toNat + pd.blockHeight.toNat
  height_le : m.height.toNat + pd.blockHeight.toNat ≤ 2 ^ 32
  depth : 1 ≤ m.depth.toNat
  row : bytes m.width.toNat ≤ m.bytesPerRow.toNat
  stop : m.offset.toNat + exactRows pd m * m.depth.toNat * m.bytesPerRow.toNat ≤ sliceSize.toNat
  real : realEnd = m.offset.toNat +
    (exactRows pd m * m.depth.toNat - 1) * m.bytesPerRow.toNat + bytes m.width.toNat

section Plane

variable {rule : RowRule} {pd : TextureDimension} {bytes : ℕ → ℕ} {texture : Texture}
  {sliceSize : UInt64}

theorem Turn.exact {copied : List TextureMipDimension} {k : ℕ} {m : TextureMipDimension}
    {t t' : MipState} (hrule : RuleExact rule pd bytes)
    (hsizes : SizesFit texture pd.blockHeight) (hslice : sliceSize ≠ 0)
    (hsliceLt : sliceSize.toNat < 2 ^ 32)
    (h : Turn rule sliceSize (firstMip texture) copied k m t t') :
    TurnExact bytes sliceSize pd m (realMipEnd rule m t).toNat := by
  have hp := h.passes
  have hmh : m.height.toNat = (halve^[k] texture.height).toNat := by
    rw [← UInt32.toNat_toUInt64, ← hp.height, h.height]
    rfl
  have hmd : m.depth.toNat = (halve^[k] texture.depth).toNat := by
    rw [← UInt32.toNat_toUInt64, ← hp.depth, h.depth]
    rfl
  have hmw : t.width.toNat = m.width.toNat := by rw [hp.width, UInt32.toNat_toUInt64]
  have hbh := pd.blockHeight.toNat_lt
  have hheight : 1 ≤ m.height.toNat + pd.blockHeight.toNat := by
    rw [hmh]
    obtain heq | hpos := halve_iterate_eq_or texture.height k
    · rw [heq]
      exact hsizes.height
    · omega
  have hheightLe : m.height.toNat + pd.blockHeight.toNat ≤ 2 ^ 32 := by
    have hle := halve_iterate_le texture.height k
    have hsize := hsizes.height_le
    rw [hmh]
    omega
  have hdepth : 1 ≤ m.depth.toNat := by
    rw [hmd]
    exact one_le_halve_iterate _ k hsizes.depth
  have htotal : (rule.totalRows m t).toNat = exactRows pd m * m.depth.toNat :=
    hrule.totalRows m t hp.height hp.depth hheight hheightLe hdepth
  have hlength : (rule.rowLength t.width).toNat = bytes m.width.toNat := by
    rw [hrule.rowLength t.width (by rw [hmw]; exact m.width.toNat_lt), hmw]
  have hrow := hlength ▸ hp.row
  have hstop := htotal ▸ hp.stop.resolve_right hslice
  have hbytes := hrule.bytes_le m.width.toNat m.width.toNat_lt
  refine ⟨hheight, hheightLe, hdepth, hrow, hstop, ?_⟩
  generalize hT : exactRows pd m * m.depth.toNat = T at htotal hstop
  have hpred : (T - 1) * m.bytesPerRow.toNat ≤ T * m.bytesPerRow.toNat :=
    Nat.mul_le_mul_right _ (Nat.sub_le T 1)
  have hproduct : (predecessor (rule.totalRows m t) * m.bytesPerRow).toNat =
      (T - 1) * m.bytesPerRow.toNat := by
    rw [UInt64.toNat_mul_of_toNat_lt, toNat_predecessor, htotal]
    rw [toNat_predecessor, htotal]
    omega
  have hstart : (m.offset + predecessor (rule.totalRows m t) * m.bytesPerRow).toNat =
      m.offset.toNat + (T - 1) * m.bytesPerRow.toNat := by
    rw [UInt64.toNat_add_of_toNat_lt, hproduct]
    rw [hproduct]
    omega
  rw [realMipEnd, UInt64.toNat_add_of_toNat_lt, hstart, hlength]
  rw [hstart, hlength]
  omega

/-- A mip's data ends in its slice, where it has a row at all. -/
theorem TurnExact.real_le {m : TextureMipDimension} {realEnd : ℕ}
    (hrule : RuleExact rule pd bytes) (h : TurnExact bytes sliceSize pd m realEnd) :
    realEnd ≤ sliceSize.toNat + (2 ^ 32 - 1) * (2 ^ 32 - 1) := by
  have hbytes := hrule.bytes_le m.width.toNat m.width.toNat_lt
  have hstop := h.stop
  have hreal := h.real
  have hpred : (exactRows pd m * m.depth.toNat - 1) * m.bytesPerRow.toNat ≤
      exactRows pd m * m.depth.toNat * m.bytesPerRow.toNat :=
    Nat.mul_le_mul_right _ (Nat.sub_le _ 1)
  omega

/-- The footprint of slices that fit 32 bits does not wrap. -/
theorem toNat_sliceFootprint {realSliceEnd : UInt64} (hslice : pd.bytesPerSlice ≠ 0)
    (hcount : 1 ≤ pd.sliceCount.toNat)
    (hslices : pd.bytesPerSlice.toNat * pd.sliceCount.toNat + pd.baseOffset.toNat < 2 ^ 32)
    (hreal : realSliceEnd.toNat ≤ pd.bytesPerSlice.toNat + (2 ^ 32 - 1) * (2 ^ 32 - 1)) :
    (sliceFootprint pd.baseOffset pd.sliceCount pd.bytesPerSlice realSliceEnd).toNat =
      pd.baseOffset.toNat + (pd.sliceCount.toNat - 1) * pd.bytesPerSlice.toNat +
        realSliceEnd.toNat := by
  have hsplit : (pd.sliceCount.toNat - 1) * pd.bytesPerSlice.toNat + pd.bytesPerSlice.toNat =
      pd.bytesPerSlice.toNat * pd.sliceCount.toNat := by
    obtain ⟨n, hn⟩ := Nat.exists_eq_succ_of_ne_zero (Nat.one_le_iff_ne_zero.mp hcount)
    rw [hn]
    simp only [Nat.succ_eq_add_one, Nat.add_sub_cancel]
    ring
  have hproduct : (predecessor pd.sliceCount.toUInt64 * pd.bytesPerSlice).toNat =
      (pd.sliceCount.toNat - 1) * pd.bytesPerSlice.toNat := by
    rw [UInt64.toNat_mul_of_toNat_lt, toNat_predecessor, UInt32.toNat_toUInt64]
    rw [toNat_predecessor, UInt32.toNat_toUInt64]
    omega
  have hstart : (pd.baseOffset + predecessor pd.sliceCount.toUInt64 * pd.bytesPerSlice).toNat =
      pd.baseOffset.toNat + (pd.sliceCount.toNat - 1) * pd.bytesPerSlice.toNat := by
    rw [UInt64.toNat_add_of_toNat_lt, hproduct]
    rw [hproduct]
    omega
  rw [sliceFootprint, if_neg hslice, UInt64.toNat_add_of_toNat_lt, hstart]
  rw [hstart]
  omega

/-- The mips of a plane that passed. -/
theorem mipFits_of_checkMips {src : TextureDimensionRecord} {n : ℕ}
    {copied : List TextureMipDimension} {realSliceEnd L : UInt64}
    (hrule : RuleExact rule pd bytes) (hsizes : SizesFit texture pd.blockHeight)
    (hslice : pd.bytesPerSlice ≠ 0)
    (hslices : pd.bytesPerSlice.toNat * pd.sliceCount.toNat + pd.baseOffset.toNat < 2 ^ 32)
    (hcount : 1 ≤ pd.sliceCount.toNat)
    (h : checkMips rule pd.bytesPerSlice src n 0 (firstMip texture) = (copied, .ok realSliceEnd))
    (hfits : sliceFootprintFits pd.baseOffset pd.sliceCount pd.bytesPerSlice realSliceEnd L =
      .ok ()) :
    ∀ k < n, ∃ m, copied[k]? = some m ∧ MipFits bytes L pd m := by
  obtain ⟨-, hturns, hlast⟩ := checkMips_eq_ok h
  have hsliceLt : pd.bytesPerSlice.toNat < 2 ^ 32 := by
    have := Nat.le_mul_of_pos_right pd.bytesPerSlice.toNat hcount
    omega
  have hreal : realSliceEnd.toNat ≤ pd.bytesPerSlice.toNat + (2 ^ 32 - 1) * (2 ^ 32 - 1) := by
    obtain hlast | ⟨k, hk, m, t, t', ht, hlast⟩ := hlast
    · rw [hlast]
      exact Nat.zero_le _
    · rw [hlast]
      exact (ht.exact hrule hsizes hslice hsliceLt).real_le hrule
  intro k hk
  obtain ⟨m, t, t', ht, hle⟩ := hturns k hk
  have hexact := ht.exact hrule hsizes hslice hsliceLt
  have hstop := hexact.stop
  have hrow := (hrule.le_bytes m.width.toNat).trans hexact.row
  have hfoot : (sliceFootprint pd.baseOffset pd.sliceCount pd.bytesPerSlice realSliceEnd).toNat ≤
      L.toNat := by
    simp only [sliceFootprintFits] at hfits
    split_ifs at hfits with hlt
    exact Nat.le_of_not_lt fun hlt' => hlt (UInt64.lt_iff_toNat_lt.mpr hlt')
  rw [toNat_sliceFootprint hslice hcount hslices hreal] at hfoot
  rw [hexact.real] at hle
  refine ⟨m, ht.mip, hexact.height, hexact.height_le, hexact.depth, hrow, ?_, ?_, ?_⟩
  · exact (Nat.le_of_add_left_le hstop).trans_lt (hsliceLt.trans (by norm_num))
  · exact Nat.le_of_add_right_le hstop
  · -- A mip of no rows reaches less far than the check counts.
    have hpred := sub_one_mul_le (exactRows pd m * m.depth.toNat) m.bytesPerRow.toNat
    have hall : ((pd.baseOffset.toNat + (pd.sliceCount.toNat - 1) * pd.bytesPerSlice.toNat +
        (m.offset.toNat + (exactRows pd m * m.depth.toNat - 1) * m.bytesPerRow.toNat +
          bytes m.width.toNat) : ℕ) : ℤ) ≤ L.toNat := by
      exact_mod_cast (Nat.add_le_add_left hle _).trans hfoot
    push_cast [Nat.cast_sub hcount] at hall hpred ⊢
    linarith

end Plane

theorem checkHeader_eq_ok {pd : TextureDimension} {generateMipmaps : Bool} {texture : Texture}
    (h : checkHeader pd generateMipmaps texture = .ok ()) :
    pd.bytesPerSlice.toNat * pd.sliceCount.toNat + pd.baseOffset.toNat < 2 ^ 32 ∧
      texture.arrayLength = pd.arrayLength.toUInt64 ∧ texture.isCube = pd.isCube := by
  unfold checkHeader at h
  split_ifs at h with hoverflow harray hlevels hcube
  exact ⟨le_of_mulAddOverflowU32 (Bool.eq_false_of_not_eq_true hoverflow), not_not.mp harray,
    not_not.mp hcube⟩

/-- The step of the loop over the planes. -/
theorem validatePlane_eq_ok {info : GuestPixelFormatInfo} {mipLevels : UInt32}
    {generateMipmaps : Bool} {L : UInt64} {texture : Texture} {plane N : ℕ}
    {src dst : TextureDimensionRecord}
    (hkind : (info.kind = kindNormal ∨ info.kind = kindTwoPlane) ∨ info.kind = kindCompressed)
    (hinfo : info.Described N) (hplane : plane < N) (hsamples : SamplesFit info texture src.header)
    (hsizes : SizesFit texture src.header.blockHeight) (hslice : src.header.bytesPerSlice ≠ 0)
    (h : validatePlane info mipLevels generateMipmaps L texture plane src = (dst, .ok ())) :
    PlanePasses (rowBytes info texture dst.header) L texture mipLevels dst := by
  unfold validatePlane at h
  dsimp only at h
  split at h
  · injection h with _ h
    cases h
  case h_2 hheader =>
    obtain ⟨hslices, harray, hcube⟩ := checkHeader_eq_ok hheader
    split at h
    · injection h with _ h
      cases h
    case h_2 hnone =>
      -- Every kind has its checks.
      unfold checkKind at hnone
      split_ifs at hnone with hnormal hcompressed
      · cases hcheck : checkNormal info plane (src.header.setMipLevels mipLevels) texture <;>
          rw [hcheck] at hnone <;> cases hnone
      · cases hcheck : checkCompressed info (src.header.setMipLevels mipLevels) <;>
          rw [hcheck] at hnone <;> cases hnone
      · exact absurd hkind (by simp [hnormal, hcompressed])
    case h_3 rule hcheck =>
      have hsamples' : SamplesFit info texture (src.header.setMipLevels mipLevels) := hsamples
      have hrule := ruleExact_of_checkKind hinfo hplane hsamples' hcheck
      split at h
      · injection h with _ h
        cases h
      case h_2 mips realSliceEnd hmips =>
        injection h with hdst hfits
        subst hdst
        exact ⟨mipLevels_setMipLevels_le _ _, harray, hcube, hslices, fun hcount =>
          mipFits_of_checkMips hrule hsizes hslice hslices hcount hmips hfits⟩

/-- The loop over the planes: every record it stores passed. -/
theorem validatePlanes_eq_ok
    {validate : ℕ → TextureDimensionRecord → TextureDimensionRecord × Except String Unit} {i : ℕ}
    {planes : List (TextureDimensionRecord × TextureDimensionRecord)}
    {stored : List TextureDimensionRecord}
    (h : validatePlanes validate i planes = (stored, .ok ())) {dst : TextureDimensionRecord}
    (hdst : dst ∈ stored) :
    ∃ j < i + planes.length, ∃ src ∈ planes.map Prod.fst, validate j src = (dst, .ok ()) := by
  induction planes generalizing i stored with
  | nil =>
    injection h with h _
    subst h
    cases hdst
  | cons p rest ih =>
    obtain ⟨src, old⟩ := p
    rw [validatePlanes] at h
    split at h
    · injection h with _ h
      cases h
    case h_2 dst' hvalid =>
      injection h with hstored hok
      rw [← hstored] at hdst
      obtain rfl | hdst := List.mem_cons.mp hdst
      · exact ⟨i, by simp, src, by simp, hvalid⟩
      · obtain ⟨j, hj, src', hsrc', hvalid'⟩ := ih (Prod.ext rfl hok) hdst
        refine ⟨j, ?_, src', List.mem_cons_of_mem _ hsrc', hvalid'⟩
        rw [List.length_cons]
        omega

/-! ### The copies -/

namespace Visit

variable (v : Visit)

/-- The slice of the texture, exactly. -/
def exactSlice : ℕ := if v.isCube then v.slice * 6 + v.face else v.slice

/-- The offset in the transfer buffer, exactly. -/
def exactOffset : ℕ :=
  v.plane.header.bytesPerSlice.toNat * v.exactSlice + v.plane.header.baseOffset.toNat +
    v.mip.offset.toNat

/-- A place's copy addresses bytes below `L` only, with rows of `bytes` of a width, and what it
computes is what exact numbers give. -/
structure InBounds (bytes : ℕ → ℕ) (L : UInt64) : Prop where
  slice : v.textureSlice.toNat = v.exactSlice
  offset : v.offset.toNat = v.exactOffset
  rows : v.rows.toNat = exactRows v.plane.header v.mip
  bytesPerImage : v.bytesPerImage.toNat =
    v.mip.bytesPerRow.toNat * exactRows v.plane.header v.mip
  bound : (v.exactOffset : ℤ) + (exactRows v.plane.header v.mip * v.mip.depth.toNat - 1) *
    v.mip.bytesPerRow.toNat + bytes v.mip.width.toNat ≤ L.toNat
  row : v.mip.width.toNat ≤ v.mip.bytesPerRow.toNat

end Visit

theorem toNat_sliceCount (d : TextureDimension) :
    d.sliceCount.toNat = (if d.isCube then 6 else 1) * d.arrayLength.toNat := by
  have hlt := d.arrayLength.toNat_lt
  unfold TextureDimension.sliceCount
  rw [UInt32.toNat_mul, UInt16.toNat_toUInt32]
  split
  · exact Nat.mod_eq_of_lt (by change 6 * _ < _; omega)
  · exact Nat.mod_eq_of_lt (by change 1 * _ < _; omega)

/-- A place of the loop over planes that passed. The cube bit and the array length it takes from the
first plane are those of its own. -/
theorem Visit.inBounds {v : Visit} {texture : Texture} {bytes : ℕ → ℕ} {L : UInt64}
    {mipLevels : UInt32} {first : TextureDimension}
    (hplane : PlanePasses bytes L texture mipLevels v.plane)
    (hfirst : texture.arrayLength = first.arrayLength.toUInt64 ∧ texture.isCube = first.isCube)
    (hcube : v.isCube = first.isCube) (hslice : v.slice < first.arrayLength.toNat)
    (hface : v.face < if v.isCube then 6 else 1)
    (hlevel : v.level < v.plane.header.mipLevels.toNat) : v.InBounds bytes L := by
  have harray : first.arrayLength.toNat = v.plane.header.arrayLength.toNat := by
    have := hfirst.1.symm.trans hplane.arrayLength
    exact congrArg UInt64.toNat this
  have hcube' : v.isCube = v.plane.header.isCube :=
    hcube.trans (hfirst.2.symm.trans hplane.cube)
  have hlt := v.plane.header.arrayLength.toNat_lt
  rw [harray] at hslice
  have hsliceOf : v.textureSlice.toNat = v.exactSlice := by
    have hs : (UInt32.ofNat v.slice).toNat = v.slice := UInt32.toNat_ofNat_of_lt' (by
      change v.slice < 2 ^ 32; omega)
    unfold Visit.textureSlice Visit.exactSlice
    split
    case isTrue hc =>
      rw [if_pos hc] at hface
      have hf : (UInt32.ofNat v.face).toNat = v.face := UInt32.toNat_ofNat_of_lt' (by
        change v.face < 2 ^ 32; omega)
      have hsix : (6 : UInt32).toNat = 6 := rfl
      rw [UInt32.toNat_add, UInt32.toNat_mul, hs, hf, hsix]
      omega
    case isFalse => exact hs
  have hcount : v.exactSlice + 1 ≤ v.plane.header.sliceCount.toNat := by
    rw [toNat_sliceCount, ← hcube', Visit.exactSlice]
    split
    case isTrue hc => rw [if_pos hc] at hface; omega
    case isFalse => omega
  obtain ⟨m, hm, hfits⟩ := hplane.mips (by omega) v.level (by have := hplane.levels; omega)
  have hmip : v.mip = m := by rw [Visit.mip, mipAt, hm, Option.getD_some]
  subst hmip
  -- The slices before this one end before the last one starts.
  have hbefore : v.plane.header.bytesPerSlice.toNat * v.exactSlice ≤
      (v.plane.header.sliceCount.toNat - 1) * v.plane.header.bytesPerSlice.toNat := by
    rw [Nat.mul_comm]
    exact Nat.mul_le_mul_right _ (by omega)
  have hall : (v.plane.header.sliceCount.toNat - 1) * v.plane.header.bytesPerSlice.toNat +
      v.plane.header.bytesPerSlice.toNat =
      v.plane.header.bytesPerSlice.toNat * v.plane.header.sliceCount.toNat := by
    rw [← Nat.succ_mul, Nat.succ_eq_add_one, Nat.sub_add_cancel (by omega), Nat.mul_comm]
  have hslices := hplane.slices
  have hstop := hfits.stop
  have hrows : v.rows.toNat = exactRows v.plane.header v.mip := by
    have hpos := hfits.height
    have hle := hfits.height_le
    have hsum : (v.mip.height + v.plane.header.blockHeight.toUInt32 - 1).toNat =
        v.mip.height.toNat + v.plane.header.blockHeight.toNat - 1 := by
      have hone : (1 : UInt32).toNat = 1 := rfl
      rw [UInt32.toNat_sub, UInt32.toNat_add, UInt8.toNat_toUInt32, hone]
      omega
    rw [Visit.rows, UInt32.toNat_div, hsum, UInt8.toNat_toUInt32, exactRows]
  have himage : v.mip.bytesPerRow.toNat * exactRows v.plane.header v.mip < 2 ^ 64 := by
    refine lt_of_le_of_lt ?_ hfits.size
    rw [Nat.mul_comm]
    exact Nat.mul_le_mul_right _ (Nat.le_mul_of_pos_right _ hfits.depth)
  refine ⟨hsliceOf, ?_, hrows, ?_, ?_, hfits.row⟩
  · have hproduct : (v.plane.header.bytesPerSlice * v.textureSlice.toUInt64).toNat =
        v.plane.header.bytesPerSlice.toNat * v.exactSlice := by
      rw [UInt64.toNat_mul_of_toNat_lt, UInt32.toNat_toUInt64, hsliceOf]
      rw [UInt32.toNat_toUInt64, hsliceOf]
      omega
    have hbase : (v.plane.header.bytesPerSlice * v.textureSlice.toUInt64 +
        v.plane.header.baseOffset).toNat =
        v.plane.header.bytesPerSlice.toNat * v.exactSlice +
          v.plane.header.baseOffset.toNat := by
      rw [UInt64.toNat_add_of_toNat_lt, hproduct]
      rw [hproduct]
      omega
    rw [Visit.offset, UInt64.toNat_add_of_toNat_lt, hbase, Visit.exactOffset]
    rw [hbase]
    omega
  · rw [Visit.bytesPerImage, UInt64.toNat_mul_of_toNat_lt, UInt32.toNat_toUInt64, hrows]
    rw [UInt32.toNat_toUInt64, hrows]
    exact himage
  · have hreal := hfits.real
    have hbefore' : ((v.plane.header.bytesPerSlice.toNat * v.exactSlice : ℕ) : ℤ) ≤
        ((v.plane.header.sliceCount.toNat - 1) * v.plane.header.bytesPerSlice.toNat : ℕ) := by
      exact_mod_cast hbefore
    rw [Visit.exactOffset]
    push_cast [Nat.cast_sub (show 1 ≤ v.plane.header.sliceCount.toNat by omega)] at hbefore' ⊢
    linarith

/-- The planes of a validated texture. -/
theorem validateTextureDimension_eq_ok {N : ℕ} {dimension dest : Vector TextureDimensionRecord N}
    {mipLevels : UInt32} {generateMipmaps : Bool} {L : UInt64} {texture : Texture}
    {features : GuestFeatures}
    (hinfo : (guestPixelFormatInfo texture.device texture.pixelFormat features).Described N)
    (hslice : ∀ d ∈ dimension.toList, d.header.bytesPerSlice ≠ 0)
    (hsamples : ∀ d ∈ dimension.toList,
      SamplesFit (guestPixelFormatInfo texture.device texture.pixelFormat features) texture
        d.header)
    (hsizes : ∀ d ∈ dimension.toList, SizesFit texture d.header.blockHeight)
    (h : (validateTextureDimension dimension dest mipLevels generateMipmaps L texture
      features).answer = .ok ())
    {dst : TextureDimensionRecord}
    (hdst : dst ∈ (validateTextureDimension dimension dest mipLevels generateMipmaps L texture
      features).dest) :
    PlanePasses
      (rowBytes (guestPixelFormatInfo texture.device texture.pixelFormat features) texture
        dst.header) L texture mipLevels dst := by
  unfold validateTextureDimension at h hdst
  dsimp only at h hdst
  split_ifs at h hdst with hcount
  obtain ⟨j, hj, src, hsrc, hvalid⟩ := validatePlanes_eq_ok (Prod.ext rfl h) hdst
  have hsrc' : src ∈ dimension.toList := by
    obtain ⟨p, hp, rfl⟩ := List.mem_map.mp hsrc
    exact (List.of_mem_zip hp).1
  have hjN : j < N := by
    rw [List.length_zip, Vector.length_toList, Vector.length_toList, Nat.min_self] at hj
    omega
  exact validatePlane_eq_ok (kind_guestPixelFormatInfo _ _ _) hinfo hjN (hsamples src hsrc')
    (hsizes src hsrc') (hslice src hsrc') hvalid

/-- Every copy that pages a validated texture, in either direction, addresses bytes of its
allocation only; what is computed for it is what exact numbers give; and no upload dies of a short
row. -/
theorem page_inBounds {N : ℕ} (dimension dest : Vector TextureDimensionRecord N)
    (mipLevels : UInt32) (generateMipmaps : Bool) (L : UInt64) (texture : Texture)
    (features : GuestFeatures)
    (hinfo : (guestPixelFormatInfo texture.device texture.pixelFormat features).Described N)
    (hslice : ∀ d ∈ dimension.toList, d.header.bytesPerSlice ≠ 0)
    (hsamples : ∀ d ∈ dimension.toList,
      SamplesFit (guestPixelFormatInfo texture.device texture.pixelFormat features) texture
        d.header)
    (hsizes : ∀ d ∈ dimension.toList, SizesFit texture d.header.blockHeight)
    (h : (validateTextureDimension dimension dest mipLevels generateMipmaps L texture
      features).answer = .ok ())
    (encode : Copy → RaiseResult Unit) (isDownload : Bool)
    (planes : List (TextureDimensionRecord × UInt64))
    (hplanes : planes.map Prod.fst = (validateTextureDimension dimension dest mipLevels
      generateMipmaps L texture features).dest) :
    (∀ c ∈ (page encode isDownload planes).1, ∃ v ∈ visits planes, v.copy = c ∧
      v.InBounds (rowBytes (guestPixelFormatInfo texture.device texture.pixelFormat features)
        texture v.plane.header) L) ∧
      (page encode isDownload planes).2 ≠ .error .shortUploadRow := by
  have hpasses : ∀ p ∈ planes, PlanePasses
      (rowBytes (guestPixelFormatInfo texture.device texture.pixelFormat features) texture
        p.1.header) L texture mipLevels p.1 := fun p hp =>
    validateTextureDimension_eq_ok hinfo hslice hsamples hsizes h
      (hplanes ▸ List.mem_map_of_mem hp)
  have hin : ∀ v ∈ visits planes, v.InBounds
      (rowBytes (guestPixelFormatInfo texture.device texture.pixelFormat features) texture
        v.plane.header) L := by
    intro v hv
    obtain ⟨first, hfirst, hplane, hcube, hsliceLt, hface, hlevel⟩ := mem_visits hv
    have hfirst' := hpasses first (List.mem_of_mem_head? hfirst)
    exact Visit.inBounds (hpasses _ hplane) ⟨hfirst'.arrayLength, hfirst'.cube⟩ hcube hsliceLt
      hface hlevel
  constructor
  · intro c hc
    obtain ⟨v, hv, hcopy⟩ := page_copies hc
    exact ⟨v, hv, hcopy, hin v hv⟩
  · intro hdied
    obtain ⟨v, hv, hshort⟩ := page_died hdied
    have hlt := UInt64.lt_iff_toNat_lt.mp hshort
    rw [UInt32.toNat_toUInt64] at hlt
    exact absurd (hin v hv).row (by omega)

/-- A texture of one slice and one level, of a device with one format. -/
def plainTexture (format : PixelFormatInfo) (sampleCount width height depth : UInt64) :
    Texture where
  device := some ⟨DeviceCaps.bare, fun _ => format⟩
  pixelFormat := 80
  textureType := 2
  sampleCount
  width
  height
  depth
  arrayLength := 1
  mipmapLevelCount := 1

/-- Two rows of two pixels of four bytes. -/
def plainRecord : TextureDimensionRecord where
  header := { bits := 1, arrayLength := 1, bytesPerSlice := 16, blockWidth := 1, blockHeight := 1,
              blockDepth := 1, blockBytes := 4 }
  mips := [{ size := 16, bytesPerRow := 8, width := 2, height := 2, depth := 1 }]

theorem plainRecord_inBounds :
    let texture := plainTexture { blockBytes := 4, blockWidth := 1 } 1 2 2 1
    let planes := [(plainRecord, (0 : UInt64))]
    (∀ c ∈ (page (fun _ => .ok ()) false planes).1, ∃ v ∈ visits planes, v.copy = c ∧
      v.InBounds (rowBytes (guestPixelFormatInfo texture.device texture.pixelFormat {}) texture
        v.plane.header) 16) ∧
      (page (fun _ => .ok ()) false planes).2 ≠ .error .shortUploadRow :=
  page_inBounds #v[plainRecord] #v[{}] 1 false 16
    (plainTexture { blockBytes := 4, blockWidth := 1 } 1 2 2 1) {}
    ⟨fun _ plane hplane => by obtain rfl : plane = 0 := by omega
                              decide,
      fun hkind => absurd hkind (by decide)⟩
    (by decide) (fun d hd => by obtain rfl := List.mem_singleton.mp hd
                                exact fun _ => by decide)
    (fun d hd => by obtain rfl := List.mem_singleton.mp hd
                    exact ⟨by decide, by decide, by decide⟩)
    rfl (fun _ => .ok ()) false [(plainRecord, 0)] rfl

/-- A mip of no depth, with rows of `2 ^ 63` bytes. -/
def flatRecord : TextureDimensionRecord where
  header := plainRecord.header
  mips := [{ offset := 4, bytesPerRow := 0x8000000000000000, width := 1, height := 2, depth := 0 }]

/-- A mip of pixels without a sample, with rows of no bytes. -/
def emptyRowRecord : TextureDimensionRecord where
  header := plainRecord.header
  mips := [{ offset := 4, width := 2, height := 1, depth := 1 }]

/-- A mip of `2 ^ 30` rows of blocks of one byte, four texels high. -/
def tallRecord : TextureDimensionRecord where
  header := { bits := 0x8001, arrayLength := 1, bytesPerSlice := 0x40000000, blockWidth := 1,
              blockHeight := 4, blockDepth := 1, blockBytes := 1 }
  mips := [{ size := 0x40000000, bytesPerRow := 1, width := 1, height := 0xffffffff, depth := 1 }]

/-- Without a depth, without samples or with more rows than 32 bits count, a texture passes whose
bytes of an image wrap, whose upload dies of a short row, or whose rows wrap. -/
theorem unreal_textures_escape :
    ((validateTextureDimension #v[flatRecord] #v[{}] 1 false 16
        (plainTexture { blockBytes := 4, blockWidth := 1 } 1 1 2 0) {}).answer = .ok () ∧
      ∃ v ∈ visits [(flatRecord, 0)],
        v.bytesPerImage.toNat ≠ v.mip.bytesPerRow.toNat * exactRows v.plane.header v.mip) ∧
      ((validateTextureDimension #v[emptyRowRecord] #v[{}] 1 false 16
          (plainTexture { blockBytes := 4, blockWidth := 1 } 0 2 1 1) {}).answer = .ok () ∧
        (page (fun _ => .ok ()) false [(emptyRowRecord, 0)]).2 = .error .shortUploadRow) ∧
      ((validateTextureDimension #v[tallRecord] #v[{}] 1 false 0x40000000
          (plainTexture
            { flags := 0x400, blockBytes := 1, blockWidth := 1, blockHeight := 4, blockDepth := 1 }
            1 1 0xffffffff 1) {}).answer = .ok () ∧
        ∃ v ∈ visits [(tallRecord, 0)], v.rows.toNat ≠ exactRows v.plane.header v.mip) := by
  refine ⟨⟨rfl, ⟨flatRecord, 0, false, 0, 0, 0⟩, ?_, ?_⟩, ⟨rfl, rfl⟩,
    ⟨rfl, ⟨tallRecord, 0, false, 0, 0, 0⟩, ?_, ?_⟩⟩
  · exact List.mem_singleton.mpr rfl
  · decide
  · exact List.mem_singleton.mpr rfl
  · decide

end ReimsVgpu.Textures
