import ReimsVgpu.Textures.Dimension

/-!
# The copies that page a texture

A texture is paged by one blit copy for each plane, slice, face and level of its stored records, in
this order.

## Main definitions

* `Visit`: a place of the loop; `Visit.copy`: the copy it issues.
* `page`: the copies of one direction.

## Main results

* `page_copies`: what is issued is issued by a place of the loop.
* `page_died`: what an upload dies of.
-/

namespace ReimsVgpu.Textures

open Device

/-- `BlitCmd::CopyTextureToBufferOptions` of a download, `BlitCmd::CopyBufferToTextureOptions` of an
upload: the texture, the transfer buffer and the origin are the same for every copy. -/
structure Copy where
  slice : UInt64
  level : UInt64
  size : MtlSize
  offset : UInt64
  bytesPerRow : UInt64
  bytesPerImage : UInt64
  options : UInt64
  deriving DecidableEq, Repr

/-- A place of the loop. -/
structure Visit where
  plane : TextureDimensionRecord
  options : UInt64
  isCube : Bool
  slice : ℕ
  face : ℕ
  level : ℕ

/-- `mip_at`. -/
def mipAt (dimension : TextureDimensionRecord) (level : ℕ) : TextureMipDimension :=
  (dimension.mips[level]?).getD {}

namespace Visit

variable (v : Visit)

/-- The mip. -/
def mip : TextureMipDimension := mipAt v.plane v.level

/-- The slice of the texture; 32 bits, wrapping. -/
def textureSlice : UInt32 :=
  if v.isCube then UInt32.ofNat v.slice * 6 + UInt32.ofNat v.face else UInt32.ofNat v.slice

/-- The offset in the transfer buffer; 64 bits, wrapping. -/
def offset : UInt64 :=
  v.plane.header.bytesPerSlice * v.textureSlice.toUInt64 + v.plane.header.baseOffset + v.mip.offset

/-- The rows in whole blocks; 32 bits, wrapping, and a quotient by zero is zero. -/
def rows : UInt32 :=
  let blockHeight := v.plane.header.blockHeight.toUInt32
  (v.mip.height + blockHeight - 1) / blockHeight

/-- The bytes of an image; 64 bits, wrapping. -/
def bytesPerImage : UInt64 := v.mip.bytesPerRow * v.rows.toUInt64

/-- The copy. -/
def copy : Copy where
  slice := v.textureSlice.toUInt64
  level := UInt64.ofNat v.level
  size := ⟨v.mip.width.toUInt64, v.mip.height.toUInt64, v.mip.depth.toUInt64⟩
  offset := v.offset
  bytesPerRow := v.mip.bytesPerRow
  bytesPerImage := v.bytesPerImage
  options := v.options

end Visit

/-- The places of the loop, in order. The cube bit and the array length are plane 0's. -/
def visits (planes : List (TextureDimensionRecord × UInt64)) : List Visit :=
  match planes with
  | [] => []
  | (first, _) :: _ =>
    let faces := if first.header.isCube then 6 else 1
    planes.flatMap fun p =>
      (List.range first.header.arrayLength.toNat).flatMap fun slice =>
        (List.range faces).flatMap fun face =>
          (List.range p.1.header.mipLevels.toNat).map fun level =>
            ⟨p.1, p.2, first.header.isCube, slice, face, level⟩

/-- How the paging ends early: a copy raises, or an upload's row is too short. -/
inductive Stop where
  | raised (r : Raise)
  | shortUploadRow
  deriving DecidableEq, Repr

/-- The copies sent to an encoder, of which `encode` is the answer. -/
def sendCopies (encode : Copy → RaiseResult Unit) (isDownload : Bool) :
    List Copy → List Copy × Except Stop Unit
  | [] => ([], .ok ())
  | c :: cs =>
    if !isDownload ∧ c.bytesPerRow < c.size.width then ([], .error .shortUploadRow)
    else
      match encode c with
      | .error r => ([c], .error (.raised r))
      | .ok () =>
        let (sent, r) := sendCopies encode isDownload cs
        (c :: sent, r)

/-- `page`: the copies sent, and how it ends. A nil encoder raises nothing. -/
def page (encode : Copy → RaiseResult Unit) (isDownload : Bool)
    (planes : List (TextureDimensionRecord × UInt64)) : List Copy × Except Stop Unit :=
  sendCopies encode isDownload ((visits planes).map Visit.copy)

/-! ### What is sent -/

theorem prefix_sendCopies (encode : Copy → RaiseResult Unit) (isDownload : Bool)
    (cs : List Copy) : (sendCopies encode isDownload cs).1 <+: cs := by
  induction cs with
  | nil => exact List.nil_prefix
  | cons c cs ih =>
    rw [sendCopies]
    split
    · exact List.nil_prefix
    · split
      · exact List.cons_prefix_cons.mpr ⟨rfl, List.nil_prefix⟩
      · exact List.cons_prefix_cons.mpr ⟨rfl, ih⟩

theorem sendCopies_died {encode : Copy → RaiseResult Unit} {isDownload : Bool} {cs : List Copy}
    (h : (sendCopies encode isDownload cs).2 = .error .shortUploadRow) :
    ∃ c ∈ cs, isDownload = false ∧ c.bytesPerRow < c.size.width := by
  induction cs with
  | nil => cases h
  | cons c cs ih =>
    rw [sendCopies] at h
    split at h
    case isTrue hshort =>
      exact ⟨c, List.mem_cons_self, by simpa using hshort.1, hshort.2⟩
    case isFalse =>
      split at h
      · cases h
      · obtain ⟨c', hc', hshort⟩ := ih h
        exact ⟨c', List.mem_cons_of_mem c hc', hshort⟩

/-- What is issued is issued by a place of the loop. -/
theorem page_copies {encode : Copy → RaiseResult Unit} {isDownload : Bool}
    {planes : List (TextureDimensionRecord × UInt64)} {c : Copy}
    (hc : c ∈ (page encode isDownload planes).1) : ∃ v ∈ visits planes, v.copy = c :=
  List.mem_map.mp ((prefix_sendCopies encode isDownload _).subset hc)

/-- An upload dies of a row shorter than its mip's width. -/
theorem page_died {encode : Copy → RaiseResult Unit} {isDownload : Bool}
    {planes : List (TextureDimensionRecord × UInt64)}
    (h : (page encode isDownload planes).2 = .error .shortUploadRow) :
    ∃ v ∈ visits planes, v.mip.bytesPerRow < v.mip.width.toUInt64 := by
  obtain ⟨c, hc, -, hshort⟩ := sendCopies_died h
  obtain ⟨v, hv, rfl⟩ := List.mem_map.mp hc
  exact ⟨v, hv, hshort⟩

/-- What a place of the loop has of the planes. -/
theorem mem_visits {planes : List (TextureDimensionRecord × UInt64)} {v : Visit}
    (hv : v ∈ visits planes) :
    ∃ first ∈ planes.head?, (v.plane, v.options) ∈ planes ∧ v.isCube = first.1.header.isCube ∧
      v.slice < first.1.header.arrayLength.toNat ∧
      v.face < (if v.isCube then 6 else 1) ∧ v.level < v.plane.header.mipLevels.toNat := by
  cases planes with
  | nil => cases hv
  | cons first rest =>
    simp only [visits, List.mem_flatMap, List.mem_range, List.mem_map] at hv
    obtain ⟨p, hp, slice, hslice, face, hface, level, hlevel, rfl⟩ := hv
    exact ⟨first, rfl, hp, rfl, hslice, hface, hlevel⟩

end ReimsVgpu.Textures
