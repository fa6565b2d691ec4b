import ReimsVgpu.Textures.PixelFormat
import Mathlib.Algebra.Group.Nat.Defs

/-!
# A texture's guest layout and its check

A dimension record says where the planes, slices and mips of a texture are in its guest pages. It is
checked against the Metal texture before anything is paged. A refusal logs one line.

The loops over the mips of the two kinds of formats differ in their row's length, its unit and their
number of rows: they are one loop over a `RowRule`.

## Main definitions

* `TextureDimensionRecord`: a plane's header and its mips.
* `checkMipExtent`, `checkMip`, `checkMips`: the checks of a mip, and the loop over the mips.
* `validatePlane`, `validateTextureDimension`: the checks of a plane and of a texture.
-/

namespace ReimsVgpu.Textures

open Device Guest

/-! ### The records -/

/-- `TextureMipDimension`. -/
structure TextureMipDimension where
  offset : UInt64 := 0
  size : UInt64 := 0
  bytesPerRow : UInt64 := 0
  width : UInt32 := 0
  height : UInt32 := 0
  depth : UInt32 := 0
  deriving DecidableEq, Repr

/-- `TextureDimension`: a plane's header. `bits` holds the mip count, the cube bit and the
compressed bit. -/
structure TextureDimension where
  bits : UInt16 := 0
  arrayLength : UInt16 := 0
  baseOffset : UInt64 := 0
  bytesPerSlice : UInt64 := 0
  blockWidth : UInt8 := 0
  blockHeight : UInt8 := 0
  blockDepth : UInt8 := 0
  blockBytes : UInt8 := 0
  deriving DecidableEq, Repr

/-- `MIP_LEVELS_MASK`. -/
def mipLevelsMask : UInt16 := 0x3fff

/-- `IS_CUBE`. -/
def isCubeBit : UInt16 := 0x4000

/-- `IS_COMPRESSED`. -/
def isCompressedBit : UInt16 := 0x8000

namespace TextureDimension

/-- `mip_levels`. -/
def mipLevels (d : TextureDimension) : UInt16 := d.bits &&& mipLevelsMask

/-- `set_mip_levels`. -/
def setMipLevels (d : TextureDimension) (v : UInt32) : TextureDimension :=
  { d with bits := (d.bits &&& ~~~mipLevelsMask) ||| (v.toUInt16 &&& mipLevelsMask) }

/-- `is_cube`. -/
def isCube (d : TextureDimension) : Bool := d.bits &&& isCubeBit != 0

/-- `is_compressed`. -/
def isCompressed (d : TextureDimension) : Bool := d.bits &&& isCompressedBit != 0

/-- The slices of a plane: six an array element of a cube. -/
def sliceCount (d : TextureDimension) : UInt32 :=
  (if d.isCube then 6 else 1) * d.arrayLength.toUInt32

end TextureDimension

/-- `TextureDimensionRecord`: a header with its mips. -/
structure TextureDimensionRecord where
  header : TextureDimension := {}
  mips : List TextureMipDimension := []
  deriving DecidableEq, Repr

/-- A Metal texture: the answers of its getters. -/
structure Texture where
  device : Option GpuDevice
  pixelFormat : UInt64
  textureType : UInt64
  sampleCount : UInt64
  width : UInt64
  height : UInt64
  depth : UInt64
  arrayLength : UInt64
  mipmapLevelCount : UInt64

/-- Whether a texture is a cube or an array of cubes. -/
def Texture.isCube (t : Texture) : Bool := t.textureType == 5 || t.textureType == 6

/-! ### Words -/

/-- A number in hexadecimal. -/
def hexadecimal (n : ℕ) : String := "0x" ++ String.ofList (Nat.toDigits 16 n)

/-- `add_u64_into_u32`. -/
def addU64IntoU32 (a b : UInt64) : UInt32 × Bool :=
  let sum := a + b
  (sum.toUInt32, decide (2 ^ 64 ≤ a.toNat + b.toNat) || decide (0xffffffff < sum))

/-- `mul_add_overflow_u32`. -/
def mulAddOverflowU32 (a : UInt64) (x : UInt32) (b : UInt64) : UInt32 × Bool :=
  -- A product of 128 bits, exact.
  let product := a.toNat * x.toNat
  let tmp := UInt32.ofNat product
  let (r, t) := addU64IntoU32 b tmp.toUInt64
  (r, decide (2 ^ 32 ≤ product) || t)

/-- `halve`. -/
def halve (x : UInt64) : UInt64 := max (x / 2) 1

/-- `blocks`; a quotient by zero is zero. -/
def blocks (x : UInt64) (block : UInt8) : UInt64 :=
  (x + block.toUInt64 - 1) / block.toUInt64

/-- One less, and zero of zero. -/
def predecessor (x : UInt64) : UInt64 := if x = 0 then 0 else x - 1

/-! ### A mip -/

/-- `check_mip_extent`: where the mip ends in its slice. -/
def checkMipExtent (mip : TextureMipDimension)
    (totalRows bytesPerRow sliceSize lastMipEnd : UInt64) : Except String UInt64 :=
  let mipSize := totalRows * bytesPerRow
  let mipEnd := mip.offset + mipSize
  if 2 ^ 64 ≤ totalRows.toNat * bytesPerRow.toNat then
    .error s!"texture dimension refused: a mip of {totalRows} rows of {bytesPerRow} bytes overflows"
  else if 2 ^ 64 ≤ mip.offset.toNat + mipSize.toNat then
    .error (s!"texture dimension refused: a mip of {hexadecimal mipSize.toNat} bytes at " ++
      s!"{hexadecimal mip.offset.toNat} overflows")
  else if mip.size < mipSize then
    .error (s!"texture dimension refused: a mip needs {hexadecimal mipSize.toNat} bytes, more " ++
      s!"than its declared {hexadecimal mip.size.toNat}")
  else if ¬ (mipEnd ≤ sliceSize ∨ sliceSize = 0) then
    .error (s!"texture dimension refused: a mip ends at {hexadecimal mipEnd.toNat}, past the " ++
      s!"slice's {hexadecimal sliceSize.toNat} bytes")
  else if mipEnd ≤ lastMipEnd then
    .error (s!"texture dimension refused: a mip ends at {hexadecimal mipEnd.toNat}, not past " ++
      s!"the previous one's {hexadecimal lastMipEnd.toNat}")
  else .ok mipEnd

/-- What the loop over the mips carries. -/
structure MipState where
  width : UInt64
  height : UInt64
  depth : UInt64
  lastMipEnd : UInt64 := 0
  realSliceEnd : UInt64 := 0

/-- What the loops over the mips of the two kinds of formats differ in. -/
structure RowRule where
  /-- What a row's bytes are a multiple of. -/
  unit : UInt64
  unitName : String
  /-- The bytes the texels of a width need. -/
  rowLength : UInt64 → UInt64
  totalRows : TextureMipDimension → MipState → UInt64

/-- The rows of a format that is not compressed. -/
def normalRule (bytesPerPixel : UInt32) : RowRule where
  unit := bytesPerPixel.toUInt64
  unitName := "pixel"
  rowLength width := width * bytesPerPixel.toUInt64
  totalRows m _ := m.height.toUInt64 * m.depth.toUInt64

/-- The rows of a compressed format. -/
def compressedRule (pd : TextureDimension) : RowRule where
  unit := pd.blockBytes.toUInt64
  unitName := "block"
  rowLength width := blocks width pd.blockWidth * pd.blockBytes.toUInt64
  totalRows _ s := blocks s.depth pd.blockDepth * blocks s.height pd.blockHeight

/-- Where a mip's data ends in its slice: its last row ends at its width. -/
def realMipEnd (rule : RowRule) (m : TextureMipDimension) (s : MipState) : UInt64 :=
  m.offset + predecessor (rule.totalRows m s) * m.bytesPerRow + rule.rowLength s.width

/-- One turn of the loop over the mips. -/
def checkMip (rule : RowRule) (sliceSize : UInt64) (mip : ℕ) (m : TextureMipDimension)
    (s : MipState) : Except String MipState :=
  if s.width ≠ m.width.toUInt64 ∨ s.height ≠ m.height.toUInt64 ∨ s.depth ≠ m.depth.toUInt64 then
    .error (s!"texture dimension refused: mip {mip} is {m.width}x{m.height}x{m.depth}, where " ++
      s!"the texture's is {s.width}x{s.height}x{s.depth}")
  else if m.bytesPerRow < rule.rowLength s.width then
    .error (s!"texture dimension refused: mip {mip} has {m.bytesPerRow} bytes per row, fewer " ++
      s!"than the {rule.rowLength s.width} its width needs")
  -- A remainder by zero is the dividend.
  else if m.bytesPerRow % rule.unit ≠ 0 then
    .error (s!"texture dimension refused: mip {mip} has {m.bytesPerRow} bytes per row, not a " ++
      s!"multiple of its {rule.unit} bytes per {rule.unitName}")
  else
    match checkMipExtent m (rule.totalRows m s) m.bytesPerRow sliceSize s.lastMipEnd with
    | .error line => .error line
    | .ok mipEnd =>
      .ok
        { width := halve s.width
          height := halve s.height
          depth := halve s.depth
          lastMipEnd := mipEnd
          realSliceEnd := max s.realSliceEnd (realMipEnd rule m s) }

/-- `src_mip`. -/
def srcMip (src : TextureDimensionRecord) (mip : ℕ) : TextureMipDimension :=
  (src.mips[mip]?).getD {}

/-- The loop over `n` mips from `mip` on: the mips it copies, and the furthest end of their data. -/
def checkMips (rule : RowRule) (sliceSize : UInt64) (src : TextureDimensionRecord) :
    ℕ → ℕ → MipState → List TextureMipDimension × Except String UInt64
  | 0, _, s => ([], .ok s.realSliceEnd)
  | n + 1, mip, s =>
    let m := srcMip src mip
    match checkMip rule sliceSize mip m s with
    | .error line => ([m], .error line)
    | .ok s' =>
      let (copied, r) := checkMips rule sliceSize src n (mip + 1) s'
      (m :: copied, r)

/-! ### A plane -/

/-- Where a texture's data ends in its pages, each slice but the last a full stride. -/
def sliceFootprint (baseOffset : UInt64) (sliceCount : UInt32)
    (bytesPerSlice realSliceEnd : UInt64) : UInt64 :=
  if bytesPerSlice = 0 then baseOffset
  else baseOffset + predecessor sliceCount.toUInt64 * bytesPerSlice + realSliceEnd

/-- `slice_footprint_fits`. -/
def sliceFootprintFits (baseOffset : UInt64) (sliceCount : UInt32)
    (bytesPerSlice realSliceEnd allocation : UInt64) : Except String Unit :=
  let footprint := sliceFootprint baseOffset sliceCount bytesPerSlice realSliceEnd
  if allocation < footprint then
    .error (s!"texture dimension refused: its data ends at {hexadecimal footprint.toNat}, past " ++
      s!"the allocation's {hexadecimal allocation.toNat} bytes")
  else .ok ()

/-- The checks of a plane's header that its format has no part in. -/
def checkHeader (pd : TextureDimension) (generateMipmaps : Bool) (texture : Texture) :
    Except String Unit :=
  if (mulAddOverflowU32 pd.bytesPerSlice pd.sliceCount pd.baseOffset).2 then
    .error (s!"texture dimension refused: base {hexadecimal pd.baseOffset.toNat} plus " ++
      s!"{pd.sliceCount} x {hexadecimal pd.bytesPerSlice.toNat} bytes overflows 32 bits")
  else if texture.arrayLength ≠ pd.arrayLength.toUInt64 then
    .error (s!"texture dimension refused: array length {pd.arrayLength}, where the texture has " ++
      s!"{texture.arrayLength}")
  else if texture.mipmapLevelCount ≠ pd.mipLevels.toUInt64 ∧ !generateMipmaps then
    .error (s!"texture dimension refused: {pd.mipLevels} mip levels, where the texture has " ++
      s!"{texture.mipmapLevelCount}")
  else if texture.isCube ≠ pd.isCube then
    .error (s!"texture dimension refused: the dimension's cube flag is {pd.isCube}, the " ++
      s!"texture's {texture.isCube}")
  else .ok ()

/-- The checks of a plane's blocks, for a format that is not compressed. -/
def checkNormal (info : GuestPixelFormatInfo) (plane : ℕ) (pd : TextureDimension)
    (texture : Texture) : Except String RowRule :=
  let planeBlockBytes := (info.planes[plane]?.map fun p => p.blockBytes).getD 0
  if pd.isCompressed then
    .error "texture dimension refused: marked compressed, for an uncompressed pixel format"
  else if pd.blockWidth ≠ 1 ∨ pd.blockHeight ≠ 1 ∨ pd.blockDepth ≠ 1 then
    .error (s!"texture dimension refused: blocks of {pd.blockWidth}x{pd.blockHeight}x" ++
      s!"{pd.blockDepth} texels, for an uncompressed pixel format")
  else if planeBlockBytes ≠ pd.blockBytes.toUInt64 then
    .error (s!"texture dimension refused: {pd.blockBytes} bytes per pixel, where the pixel " ++
      s!"format's plane has {planeBlockBytes}")
  else .ok (normalRule (pd.blockBytes.toUInt32 * texture.sampleCount.toUInt32))

/-- The checks of a plane's blocks, for a compressed format. -/
def checkCompressed (info : GuestPixelFormatInfo) (pd : TextureDimension) :
    Except String RowRule :=
  let p0 := info.planes[0]
  if !pd.isCompressed then
    .error "texture dimension refused: marked uncompressed, for a compressed pixel format"
  else if pd.blockWidth.toUInt64 ≠ p0.blockWidth ∨ pd.blockHeight.toUInt64 ≠ p0.blockHeight ∨
      pd.blockDepth.toUInt64 ≠ p0.blockDepth ∨ pd.blockBytes.toUInt64 ≠ p0.blockBytes then
    .error (s!"texture dimension refused: blocks of {pd.blockWidth}x{pd.blockHeight}x" ++
      s!"{pd.blockDepth} texels and {pd.blockBytes} bytes, where the pixel format's are " ++
      s!"{p0.blockWidth}x{p0.blockHeight}x{p0.blockDepth} and {p0.blockBytes}")
  else .ok (compressedRule pd)

/-- A pixel format of `N` planes whose blocks have at least as many bytes as texels in a row, and,
when it is compressed, a depth of one texel. The blocks of a format that is not compressed are one
texel wide. -/
structure GuestPixelFormatInfo.Described (info : GuestPixelFormatInfo) (N : ℕ) : Prop where
  normal : info.kind ≠ kindCompressed →
    ∀ plane < N,
      1 ≤ ((info.planes[plane]?.map GuestPixelFormatPlaneInfo.blockBytes).getD 0).toNat
  compressed : info.kind = kindCompressed →
    1 ≤ info.planes[0].blockWidth.toNat ∧
      info.planes[0].blockWidth.toNat ≤ info.planes[0].blockBytes.toNat ∧
      info.planes[0].blockDepth = 1

/-- The checks of a plane's blocks, by the kind of its format; none checks no mip. -/
def checkKind (info : GuestPixelFormatInfo) (plane : ℕ) (pd : TextureDimension)
    (texture : Texture) : Except String (Option RowRule) :=
  if info.kind = kindNormal ∨ info.kind = kindTwoPlane then
    (checkNormal info plane pd texture).map some
  else if info.kind = kindCompressed then (checkCompressed info pd).map some
  else .ok none

/-- What the loop over the mips starts with. -/
def firstMip (texture : Texture) : MipState where
  width := texture.width
  height := texture.height
  depth := texture.depth

/-- One turn of the loop over the planes: the record it stores, and whether the plane passes. -/
def validatePlane (info : GuestPixelFormatInfo) (mipLevels : UInt32) (generateMipmaps : Bool)
    (textureAllocationLength : UInt64) (texture : Texture) (plane : ℕ)
    (src : TextureDimensionRecord) : TextureDimensionRecord × Except String Unit :=
  let pd := src.header.setMipLevels mipLevels
  match checkHeader pd generateMipmaps texture with
  | .error line => (⟨pd, []⟩, .error line)
  | .ok () =>
    match checkKind info plane pd texture with
    | .error line => (⟨pd, []⟩, .error line)
    | .ok none => (⟨pd, []⟩, .ok ())
    | .ok (some rule) =>
      match checkMips rule pd.bytesPerSlice src mipLevels.toNat 0 (firstMip texture) with
      | (mips, .error line) => (⟨pd, mips⟩, .error line)
      | (mips, .ok realSliceEnd) =>
        (⟨pd, mips⟩, sliceFootprintFits pd.baseOffset pd.sliceCount pd.bytesPerSlice realSliceEnd
          textureAllocationLength)

/-- The loop over the planes, each with the record it is stored over. -/
def validatePlanes
    (validate : ℕ → TextureDimensionRecord → TextureDimensionRecord × Except String Unit) :
    ℕ → List (TextureDimensionRecord × TextureDimensionRecord) →
      List TextureDimensionRecord × Except String Unit
  | _, [] => ([], .ok ())
  | plane, (src, _) :: rest =>
    match validate plane src with
    | (dst, .error line) => (dst :: rest.map Prod.snd, .error line)
    | (dst, .ok ()) =>
      let (stored, r) := validatePlanes validate (plane + 1) rest
      (dst :: stored, r)

/-- What `validate_texture_dimension` leaves, and what it answers: ok for true, and the line it logs
for false. -/
structure Validation where
  dest : List TextureDimensionRecord
  isPvrtc : Bool
  answer : Except String Unit

/-- `validate_texture_dimension`, of `N` planes; a texture has one plane or two. -/
def validateTextureDimension {N : ℕ} (dimension dest : Vector TextureDimensionRecord N)
    (mipLevels : UInt32) (generateMipmaps : Bool) (textureAllocationLength : UInt64)
    (texture : Texture) (features : GuestFeatures) : Validation :=
  let info := guestPixelFormatInfo texture.device texture.pixelFormat features
  let isPvrtc := (info.flags >>> 13) &&& 1 != 0
  if decide (N = 2) ≠ (info.flags &&& flagTwoPlane != 0) then
    { dest := dest.toList
      isPvrtc
      answer := .error (s!"texture dimension refused: plane count {N} does not match pixel " ++
        s!"format {texture.pixelFormat.toUInt32}") }
  else
    let (stored, answer) :=
      validatePlanes
        (validatePlane info mipLevels generateMipmaps textureAllocationLength texture) 0
        (dimension.toList.zip dest.toList)
    { dest := stored, isPvrtc, answer }

end ReimsVgpu.Textures
