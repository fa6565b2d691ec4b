import Mathlib.Init

/-!
# What a device is asked once

The answers of a device that do not change while it lives. A query that can raise is kept as what it
answered.

## Main definitions

* `DeviceCaps`: the answers the device info and the pixel formats read.
-/

namespace ReimsVgpu.Device

/-- `Raise`: its identity and its detail. -/
structure Raise where
  id : String
  detail : Option String := none
  deriving DecidableEq, Repr

/-- `RaiseResult`. -/
abbrev RaiseResult (α : Type) : Type := Except Raise α

/-- `MtlSize`. -/
structure MtlSize where
  width : UInt64
  height : UInt64
  depth : UInt64
  deriving DecidableEq, Repr

/-- `SizeAndAlign`. -/
structure SizeAndAlign where
  size : UInt64
  align : UInt64
  deriving DecidableEq, Repr

/-- `Limits`: the properties that are numbers. -/
structure Limits where
  deviceLinearTextureAlignmentBytes : UInt64 := 0
  linearTextureAlignmentBytes : UInt64 := 0
  maxComputeLocalMemorySizes : UInt64 := 0
  maxComputeThreadgroupMemory : UInt64 := 0
  maxComputeThreadgroupMemoryAlignmentBytes : UInt64 := 0
  maxPredicatedNestingDepth : UInt64 := 0
  maxRasterizationRateLayerCount : UInt64 := 0
  maxTextureLayers : UInt64 := 0
  maxThreadgroupMemoryLength : UInt64 := 0
  maxTotalComputeThreadsPerThreadgroup : UInt64 := 0

/-- `Flags`: the properties that are booleans. -/
structure Flags where
  areRasterOrderGroupsSupported : Bool := false
  isDepth24Stencil8PixelFormatSupported : Bool := false
  isFramebufferReadSupported : Bool := false
  isLargeMrtSupported : Bool := false
  isRgb10a2GammaSupported : Bool := false
  supportsCommandBufferJump : Bool := false
  supportsComputeCompressedTextureWrite : Bool := false
  supportsConditionalLoadStore : Bool := false
  supportsDynamicAttributeStride : Bool := false
  supportsExtendedXr10Formats : Bool := false
  supportsFloat16BcubicFiltering : Bool := false
  supportsImageBlocks : Bool := false
  supportsMemoryOrderAtomics : Bool := false
  supportsNativeHardwareFp16 : Bool := false
  supportsNonSquareTileShaders : Bool := false
  supportsProgrammableSamplePositions : Bool := false
  supportsSimdReduction : Bool := false
  supportsSimdShuffleAndFill : Bool := false
  supportsTexture2dMultisampleArray : Bool := false
  supportsTileShaders : Bool := false

/-- `DeviceCaps`: everything core asks a device that does not change while it lives. -/
structure DeviceCaps where
  gpuCoreCount : Option UInt64
  maxThreadsPerThreadgroup : MtlSize
  maxVertexAmplificationCount : UInt64
  limits : Limits
  flags : Flags
  /-- Of the counts 1, 2, 4 and 8. -/
  sampleCounts : Vector (RaiseResult Bool) 4
  primitiveTypes : Vector (RaiseResult Bool) 10
  /-- Of the families Apple 5 to Apple 10, then of `-1009`. -/
  families : Vector (RaiseResult Bool) 7
  /-- Of the modes 1 and 2. -/
  writeRoundingModes : Vector (RaiseResult Bool) 2
  heapBufferPagePrivate : RaiseResult SizeAndAlign

/-- A device that supports nothing. -/
def DeviceCaps.bare : DeviceCaps where
  gpuCoreCount := none
  maxThreadsPerThreadgroup := ⟨0, 0, 0⟩
  maxVertexAmplificationCount := 0
  limits := {}
  flags := {}
  sampleCounts := Vector.replicate 4 (.ok false)
  primitiveTypes := Vector.replicate 10 (.ok false)
  families := Vector.replicate 7 (.ok false)
  writeRoundingModes := Vector.replicate 2 (.ok false)
  heapBufferPagePrivate := .ok ⟨0, 0⟩

end ReimsVgpu.Device
