import Mathlib.Data.List.Basic

/-!
# The features of a guest's binary version

The features a binary version turns on, and the version stored for a guest's request.

## Main definitions

* `GuestFeatures`, `featuresForVersion`.
* `stepBinaryVersion`, `clampBinaryVersion`: the two halves of a version write's arithmetic.
-/

namespace ReimsVgpu.Guest

/-- `BinaryVersion`. -/
abbrev BinaryVersion : Type := Int32

/-- `GuestFeatures`. -/
structure GuestFeatures where
  valid : Bool := false
  unsupported : Bool := false
  objectTables : Bool := false
  efiDisplay : Bool := false
  displayDoorbell : Bool := false
  mapperIoSurfaces : Bool := false
  synchronizeAndDiscardResources : Bool := false
  displayMapperSurface : Bool := false
  discardResources : Bool := false
  displaySleep : Bool := false
  supportsRghaPresents : Bool := false
  synchronizeDiscardChildResources : Bool := false
  dualPlaneTextures : Bool := false
  displaySetProperties : Bool := false
  displayDimensionFloats : Bool := false
  metalHeaps : Bool := false
  bufferFromIoSurface : Bool := false
  maxFifoCount : UInt32 := 0
  s8ByteCountForD32s8 : UInt32 := 0
  supportsSharedTextures : Bool := false
  supportsInfoEncoder : Bool := false
  supportsDefaultRasterSampleCount : Bool := false
  supportsVertexAmplification : Bool := false
  supportsSunburstDisplay : Bool := false
  supportsProgrammableSamplePositions : Bool := false
  supportsVariableRasterizationRateMaps : Bool := false
  supportsTileShadersImageBlocks : Bool := false
  supportsDisplayCompositorParameters : Bool := false
  supportsCmdExecIndirect3 : Bool := false
  supportsSwizzledTextures : Bool := false
  supportsDynamicAttributeStride : Bool := false
  supportsBlitEncoderSpi : Bool := false
  supportsMultiplaneMippedBlitTextures : Bool := false
  supportsComputePassDescriptorDispatchType : Bool := false
  supportsObjectUniqueIdentifier : Bool := false
  supportsCommandBufferJump : Bool := false
  supportsSharedStorageHeaps : Bool := false
  supportsHeapHazardTracking : Bool := false
  supportsProtectionOptionsEnvelope : Bool := false
  supportsInsertCompressedTextureReinterpretationFlush : Bool := false
  supportsArgumentBuffers : Bool := false
  supportsDisplaySetGuestIccProfile : Bool := false
  supportsCorrect2pXr10A8 : Bool := false
  supportsCpuBuffers : Bool := false
  supportsIndirectCommandBuffers : Bool := false
  supportsProtectedTextureOptions : Bool := false
  supportsDispatchThreadsIndirect : Bool := false
  supportsInfoIndirect : Bool := false
  supportsDisplayPortConnectionType : Bool := false
  supportsTextureDescriptor2 : Bool := false
  supportsMultipleDisplays : Bool := false

/-- `HIGHEST_BINARY_VERSION`. -/
def highestBinaryVersion : BinaryVersion := 0xf5

/-- `STEPS`: the labels that enter at a step, and what it sets; the highest label first. -/
def steps : List (List BinaryVersion × (GuestFeatures → GuestFeatures)) :=
  [([245], fun f => { f with supportsMultipleDisplays := true }),
    ([238], fun f => { f with supportsDisplayPortConnectionType := true }),
    ([237], fun f => { f with supportsTextureDescriptor2 := true }),
    ([235], fun f => { f with supportsInfoIndirect := true }),
    ([233], fun f => { f with supportsDispatchThreadsIndirect := true }),
    ([232], fun f => { f with supportsProtectedTextureOptions := true }),
    ([231], fun f => { f with supportsIndirectCommandBuffers := true }),
    ([230], fun f => { f with supportsCpuBuffers := true }),
    ([209], fun f => { f with supportsCorrect2pXr10A8 := true }),
    ([208], fun f => { f with supportsDisplaySetGuestIccProfile := true }),
    ([207], fun f => { f with supportsArgumentBuffers := true }),
    ([206], fun f => { f with supportsInsertCompressedTextureReinterpretationFlush := true }),
    ([205], fun f => { f with supportsProtectionOptionsEnvelope := true }),
    ([204], fun f => { f with supportsHeapHazardTracking := true }),
    ([203], fun f => { f with supportsSharedStorageHeaps := true }),
    ([202], fun f => { f with supportsCommandBufferJump := true }),
    ([201], fun f => { f with supportsObjectUniqueIdentifier := true }),
    ([200], fun f => { f with supportsComputePassDescriptorDispatchType := true }),
    ([113], fun f => { f with supportsMultiplaneMippedBlitTextures := true }),
    ([112], fun f => { f with supportsBlitEncoderSpi := true }),
    ([111], fun f => { f with supportsDynamicAttributeStride := true }),
    ([110], fun f => { f with supportsSwizzledTextures := true }),
    ([109], fun f => { f with supportsCmdExecIndirect3 := true }),
    ([108], fun f => { f with supportsDisplayCompositorParameters := true }),
    ([107], fun f => { f with supportsTileShadersImageBlocks := true }),
    ([106], fun f => { f with supportsVariableRasterizationRateMaps := true }),
    ([105], fun f => { f with supportsProgrammableSamplePositions := true }),
    ([104], fun f => { f with supportsSunburstDisplay := true }),
    ([103], fun f => { f with supportsVertexAmplification := true }),
    ([102], fun f => { f with supportsDefaultRasterSampleCount := true }),
    ([101], fun f => { f with supportsInfoEncoder := true }),
    ([100], fun f => { f with supportsSharedTextures := true }),
    ([62], fun f => { f with s8ByteCountForD32s8 := 1 }),
    ([61], fun f => { f with maxFifoCount := 64 }),
    ([60], fun f => { f with bufferFromIoSurface := true }),
    ([43], fun f => { f with metalHeaps := true }),
    ([42], fun f => { f with displayDimensionFloats := true }),
    ([41, 40], fun f => { f with displaySetProperties := true }),
    ([31], fun f => { f with dualPlaneTextures := true }),
    ([30], fun f => { f with synchronizeDiscardChildResources := true }),
    ([22], fun f => { f with supportsRghaPresents := true }),
    ([21], fun f => { f with displaySleep := true }),
    ([20, 11], fun f => { f with discardResources := true }),
    ([10], fun f =>
      { f with
        mapperIoSurfaces := true
        synchronizeAndDiscardResources := true
        displayMapperSurface := true }),
    ([6], fun f => { f with supportsSunburstDisplay := true }),
    ([5], fun f => { f with supportsSharedTextures := true }),
    ([4], fun f => { f with displayDoorbell := true }),
    ([3], fun f => { f with efiDisplay := true }),
    ([2], fun f => { f with objectTables := true })]

/-- `features_for_version`. -/
def featuresForVersion (version : BinaryVersion) : GuestFeatures :=
  let f : GuestFeatures := { valid := true, maxFifoCount := 32, s8ByteCountForD32s8 := 4 }
  let f :=
    -- The version's case, and every later one.
    match steps.dropWhile fun s => !s.1.contains version with
    | [] => { f with unsupported := version == 1 || version == 236, valid := false }
    | entered => entered.foldl (fun f s => s.2 f) f
  let f := if version = 40 then { f with dualPlaneTextures := false } else f
  let f := if 7 ≤ version ∧ version < 100 then { f with supportsSharedTextures := false } else f
  if 7 ≤ version ∧ version < 104 then { f with supportsSunburstDisplay := false } else f

/-- `DEVICE_FEATURE_LEVEL_MAX`. -/
def deviceFeatureLevelMax : UInt64 := 5

/-- `binary_version_from_feature_level`, which dies of a level of 5 or more. -/
def binaryVersionFromFeatureLevel (featureLevel : UInt64) (version : BinaryVersion) :
    Option BinaryVersion :=
  if deviceFeatureLevelMax ≤ featureLevel then none
  else if featureLevel = 1 then some (min version 62)
  else if featureLevel = 2 then some (min version 113)
  else if featureLevel = 3 then some (min version 209)
  else some (min version 245)

/-- `NegotiatedVersion`. -/
structure NegotiatedVersion where
  version : BinaryVersion
  unknown : Bool
  deriving DecidableEq, Repr

/-- The step down from a version of `n`, to the next valid one or to zero. -/
def stepDown : ℕ → BinaryVersion
  | 0 => 0
  | n + 1 =>
    let version := Int32.ofNat n
    if version = 0 ∨ (featuresForVersion version).valid then version else stepDown n

/-- `step_binary_version`. -/
def stepBinaryVersion (requested : UInt32) : Option NegotiatedVersion :=
  let version := requested.toInt32
  if version < 0 then none
  else
    let features := featuresForVersion version
    if features.unsupported then some { version := version ||| Int32.minValue, unknown := true }
    else if !features.valid then
      some
        { version :=
            if highestBinaryVersion < version then highestBinaryVersion
            else if version ≠ 0 then stepDown version.toNatClampNeg
            else version
          unknown := true }
    else some { version, unknown := false }

/-- `clamp_binary_version`, none where it dies. -/
def clampBinaryVersion (version : BinaryVersion) (featureLevel : UInt64) : Option BinaryVersion :=
  let clamped :=
    if 0 ≤ version then binaryVersionFromFeatureLevel featureLevel version else some version
  clamped.map fun version => if version = 1 then 0x80000001 else version

end ReimsVgpu.Guest
