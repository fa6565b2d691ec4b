import ReimsVgpu.Device.Caps
import ReimsVgpu.Guest.Features

/-!
# What a pixel format looks like to the guest

Metal's description, except for the formats that core describes itself.

## Main definitions

* `guestPixelFormatInfo`: the description a texture is checked against.

## Main results

* `kind_guestPixelFormatInfo`: a format is normal, compressed or of two planes.
-/

namespace ReimsVgpu.Textures

open Device Guest

/-- `MTLPixelFormatInfo`: what Metal says of a format. -/
structure PixelFormatInfo where
  flags : UInt64 := 0
  blockBytes : UInt64 := 0
  blockWidth : UInt64 := 0
  blockHeight : UInt64 := 0
  blockDepth : UInt64 := 0
  deriving DecidableEq, Repr

/-- A device: its capabilities, and Metal's description of each format. -/
structure GpuDevice where
  caps : DeviceCaps
  pixelFormatInfo : UInt64 → PixelFormatInfo

/-- `FLAG_TWO_PLANE`. -/
def flagTwoPlane : UInt32 := 0x800000

/-- `KIND_NORMAL`. -/
def kindNormal : UInt32 := 0

/-- `KIND_COMPRESSED`. -/
def kindCompressed : UInt32 := 1

/-- `KIND_TWO_PLANE`. -/
def kindTwoPlane : UInt32 := 2

/-- `GuestPixelFormatPlaneInfo`. The two low bytes of `blockWidth` are a component count and an
alignment in the formats core describes itself. -/
structure GuestPixelFormatPlaneInfo where
  blockBytes : UInt64 := 0
  blockWidth : UInt64 := 0
  blockHeight : UInt64 := 0
  blockDepth : UInt64 := 0
  deriving DecidableEq, Repr

/-- `set_component_count_and_alignment`. -/
def GuestPixelFormatPlaneInfo.setComponentCountAndAlignment (p : GuestPixelFormatPlaneInfo)
    (componentCount alignment : UInt8) : GuestPixelFormatPlaneInfo :=
  { p with
    blockWidth :=
      (p.blockWidth &&& ~~~(0xffff : UInt64)) ||| componentCount.toUInt64 ||| (alignment.toUInt64 <<< 8) }

/-- `GuestPixelFormatInfo`. -/
structure GuestPixelFormatInfo where
  flags : UInt32 := 0
  kind : UInt32 := 0
  linearTextureAlignmentBytes : UInt32 := 0
  planes : Vector GuestPixelFormatPlaneInfo 2 := #v[{}, {}]

/-- `info_from_metal`. -/
def infoFromMetal (device : Option GpuDevice) (pixelFormat : UInt64) : GuestPixelFormatInfo :=
  let metal := (device.map fun d => d.pixelFormatInfo pixelFormat).getD {}
  let flags := metal.flags.toUInt32
  { flags
    kind := (flags >>> 10) &&& 1
    planes := #v[⟨metal.blockBytes, metal.blockWidth, metal.blockHeight, metal.blockDepth⟩, {}] }

/-- A plane of four-byte blocks, as core describes it. -/
def wordPlane (componentCount : UInt8) : GuestPixelFormatPlaneInfo :=
  ({ blockBytes := 4, blockHeight := 4, blockDepth := 4 } :
    GuestPixelFormatPlaneInfo).setComponentCountAndAlignment componentCount 4

/-- `guest_pixel_format_info`. -/
def guestPixelFormatInfo (device : Option GpuDevice) (pixelFormat : UInt64)
    (features : GuestFeatures) : GuestPixelFormatInfo :=
  if pixelFormat = 550 ∨ pixelFormat = 551 then
    match device with
    | none => {}
    | some d =>
      if !d.caps.flags.supportsExtendedXr10Formats then {}
      else
        { flags := if pixelFormat = 551 then 0x83099f else 0x83019f
          linearTextureAlignmentBytes := d.caps.limits.linearTextureAlignmentBytes.toUInt32
          planes := #v[wordPlane 3, wordPlane 1]
          kind := kindTwoPlane }
  else if pixelFormat = 260 ∨ pixelFormat = 261 then
    if features.dualPlaneTextures then
      let s8 := features.s8ByteCountForD32s8
      { flags := if pixelFormat = 260 then 0x8301ef else 0x8301cf
        planes := #v[wordPlane 1,
          ({ blockBytes := s8.toUInt64, blockHeight := 1, blockDepth := 1 } :
            GuestPixelFormatPlaneInfo).setComponentCountAndAlignment 1 s8.toUInt8]
        kind := kindTwoPlane }
    else
      let info := infoFromMetal device pixelFormat
      { info with flags := info.flags &&& ~~~flagTwoPlane }
  else infoFromMetal device pixelFormat

theorem kind_infoFromMetal (device : Option GpuDevice) (pixelFormat : UInt64) :
    (infoFromMetal device pixelFormat).kind = kindNormal ∨
      (infoFromMetal device pixelFormat).kind = kindCompressed := by
  have hkind : (infoFromMetal device pixelFormat).kind =
      ((infoFromMetal device pixelFormat).flags >>> 10) &&& 1 := rfl
  rw [hkind, kindNormal, kindCompressed]
  generalize (infoFromMetal device pixelFormat).flags >>> 10 = w
  have hlow : (w &&& 1).toNat = w.toNat % 2 := by
    rw [UInt32.toNat_and]
    exact Nat.and_one_is_mod _
  rcases Nat.mod_two_eq_zero_or_one w.toNat with h | h
  · left
    exact UInt32.toNat_inj.mp (hlow.trans h)
  · right
    exact UInt32.toNat_inj.mp (hlow.trans h)

/-- Of the kinds the check of a dimension knows, a format has one. -/
theorem kind_guestPixelFormatInfo (device : Option GpuDevice) (pixelFormat : UInt64)
    (features : GuestFeatures) :
    let kind := (guestPixelFormatInfo device pixelFormat features).kind
    (kind = kindNormal ∨ kind = kindTwoPlane) ∨ kind = kindCompressed := by
  have hmetal := kind_infoFromMetal device pixelFormat
  intro kind
  simp only [kind, guestPixelFormatInfo]
  split
  · cases device with
    | none => exact Or.inl (Or.inl rfl)
    | some d =>
      dsimp only
      split
      · exact Or.inl (Or.inl rfl)
      · exact Or.inl (Or.inr rfl)
  · split
    · split
      · exact Or.inl (Or.inr rfl)
      · exact hmetal.imp_left Or.inl
    · exact hmetal.imp_left Or.inl

end ReimsVgpu.Textures
