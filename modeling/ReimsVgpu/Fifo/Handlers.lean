import ReimsVgpu.Fifo.Commands

/-!
# The command handlers

The handler of each opcode, with its own order of checks, and the table that finds it.

## Main definitions

* `Opcode`, `Opcode.fromId`, `dispatch`.
* The display commands, the exec commands, the task commands and the others, each under its own name.
-/

namespace ReimsVgpu.Fifo.Commands

open ReimsVgpu.Fifo.Commands.Command
open ReimsVgpu.Memory (Arch pageShift)

variable {σ : Type} (host : Host σ) (c : Command)

/-! ### The display commands -/

/-- 1: the display's shared state page, by port. -/
def setSharedStatePage : Handler σ (Option Unit) :=
  c.fClass host do
    c.checkSize 8
    device host
    let page ← u32 c.payload 4
    let port ← u32 c.payload 0
    orRaise (← ask host (.setSharedDisplayStatePage page port.toUInt64 false))
    c.signal host

/-- 2: acknowledges a mode change. -/
def ack : Handler σ (Option Unit) :=
  c.fClass host do
    c.checkSize 8
    let display ← guestDisplay host (← u32 c.payload 0)
    let value ← u32 c.payload 4
    orRaise (← ask host (.ack display value))
    c.signal host

/-- 4: the cursor's glyph; the lookup precedes the task check. -/
def cursorGlyph : Handler σ (Option Unit) :=
  c.fClass host do
    c.checkSize 44
    let p := c.payload
    let display ← guestDisplay host (← u32 p 0)
    if (← u32 p 4) ≠ 0 then raise .kernelOnly kernelOnly
    let args : CursorGlyphArgs :=
      { virtualOffset := ← u64 p 8, mappedLength := ← u64 p 16, stride := ← u64 p 24,
        width := ← u16 p 32, height := ← u16 p 34, hotSpotX := ← u16 p 36, hotSpotY := ← u16 p 38,
        sum := ← u32 p 40 }
    orRaise (← ask host (.cursorGlyph display args))
    c.signal host

/-- 5: shows or hides the cursor; the byte is passed raw. -/
def cursorShow : Handler σ (Option Unit) :=
  c.fClass host do
    c.checkSize 8
    let display ← guestDisplay host (← u32 c.payload 0)
    let byte ← u8 c.payload 4
    ask host (.cursorShow display byte)
    c.signal host

/-- 6: presents a surface; the lookup precedes the task check. -/
def transaction2 : Handler σ (Option Unit) :=
  c.fClass host do
    c.checkSize 12
    let display ← guestDisplay host (← u32 c.payload 0)
    if (← u32 c.payload 8) ≠ 0 then raise .kernelOnly kernelOnly
    let surface ← u32 c.payload 4
    orRaise (← ask host (.presentSurface display surface {}))
    c.signal host

/-- 7: presents a surface with a gamma table; the task check precedes the lookup. -/
def transaction3 : Handler σ Unit :=
  c.sClass host (withSize c.payload.len do
    c.checkSize 36
    let p := c.payload
    if (← u32 p 4) ≠ 0 then raise .kernelOnly kernelOnly
    let display ← guestDisplay host (← u32 p 0)
    let surface ← u32 p 8
    let gamma : GammaTableArgs :=
      { virtualOffset := ← u64 p 12, mappedLength := ← u64 p 20, entryCount := ← u32 p 28,
        sum := ← u32 p 32 }
    orRaise (← ask host (.presentSurface display surface gamma)))

/-- 8: presents a mapped surface; the feature gate precedes the size check. -/
def swapMapping : Handler σ Unit :=
  c.sClass host (withSize c.payload.len do
    if !(← features host).displayMapperSurface then raise .unsupported unsupported
    c.checkSize 40
    let p := c.payload
    if (← u32 p 4) ≠ 0 then raise .kernelOnly kernelOnly
    let display ← guestDisplay host (← u32 p 0)
    let mapping ← u64 p 8
    let gamma : GammaTableArgs :=
      { virtualOffset := ← u64 p 16, mappedLength := ← u64 p 24, entryCount := ← u32 p 32,
        sum := ← u32 p 36 }
    orRaise (← ask host (.presentMappedSurface display mapping gamma)))

/-- 9: the display's sleep state; the byte is passed raw. -/
def sleepState : Handler σ (Option Unit) :=
  c.fClass host do
    if !(← features host).displaySleep then raise .unsupported unsupported
    c.checkSize 8
    let display ← guestDisplay host (← u32 c.payload 0)
    let byte ← u8 c.payload 4
    ask host (.sleepState display byte)
    c.signal host

/-- One property, whose record starts at the cursor with this size left, and the bytes it takes. -/
def setProperty (display : GuestDisplay) (totalSize size cursor : UInt64) : Handler σ UInt32 := do
  let record := c.payload.tail cursor.toNat
  checkSizeOf record size 8
  let property ← u32 record 0
  let wordCount ← u32 record 4
  let (length, overflow) := mulAddOverflows wordCount 4 8
  if overflow then
    raise .overflow s!"property {property} of {wordCount} words overflows the payload of {totalSize} bytes"
  checkSizeOf record size length
  orRaise (← ask host (.setProperty display property.toInt32 (record.records 8 wordCount)))
  return length

/-- An index below a count has a next one. -/
theorem toNat_succ {index count : UInt32} (h : index < count) :
    (index + 1).toNat = index.toNat + 1 := by
  have hlt := UInt32.lt_iff_toNat_lt.mp h
  have hcount := count.toNat_lt
  rw [UInt32.toNat_add]
  exact Nat.mod_eq_of_lt (by change index.toNat + 1 < 2 ^ 32; omega)

/-- Where the property loop ends. -/
structure PropertiesEnd where
  index : UInt32
  cursor : UInt64
  size : UInt64

/-- The properties from an index on, whose count is read again at each test. -/
def setPropertiesLoop (display : GuestDisplay) (totalSize size cursor : UInt64) (index : UInt32) :
    Effect σ Event (Stop × UInt64) PropertiesEnd := do
  withSize size (do
    Effect.log (.turn index cursor size)
    discard (u32 c.payload 4))
  if h : index < c.payload.u32 4 then
    let consumed ← withSize size (setProperty host c display totalSize size cursor)
    setPropertiesLoop display totalSize (size - consumed.toUInt64) (cursor + consumed.toUInt64)
      (index + 1)
  else return { index, cursor, size }
termination_by (c.payload.u32 4).toNat - index.toNat
decreasing_by
  have hlt := UInt32.lt_iff_toNat_lt.mp h
  rw [toNat_succ h]
  omega

/-- 10: sets display properties, one record each. -/
def setProperties : Handler σ Unit :=
  c.sClass host do
    let totalSize := c.payload.len
    withSize totalSize do
      if !(← features host).displaySetProperties then raise .unsupported unsupported
      c.checkSize 8
    let size := totalSize - 8
    let display ← withSize size do guestDisplay host (← u32 c.payload 0)
    discard (setPropertiesLoop host c display totalSize size 8 0)

/-- 11: the compositor's parameters. -/
def compositorParameters : Handler σ (Option Unit) :=
  c.fClass host do
    if !(← features host).supportsDisplayCompositorParameters then raise .unsupported unsupported
    c.checkSize 20
    let p := c.payload
    let display ← guestDisplay host (← u32 p 0)
    let a ← u64 p 8
    let coord : DisplayCoord := { x := ← u16 p 4, y := ← u16 p 6 }
    let byte ← u8 p 16
    ask host (.compositorParameters display a coord byte)
    c.signal host

/-- 12: the guest's ICC profile; the length check precedes the lookup. -/
def setGuestIccProfile : Handler σ Unit :=
  c.sClass host (withSize c.payload.len do
    if !(← features host).supportsDisplaySetGuestIccProfile then raise .unsupported unsupported
    c.checkSize 24
    let p := c.payload
    let length ← u32 p 4
    let mappedLength ← u64 p 16
    if mappedLength < length.toUInt64 then
      let lengthText := hex length.toNat
      let mappedText := hex mappedLength.toNat
      raise .overflow s!"ICC profile length {lengthText} is past its mapped length {mappedText}"
    let display ← guestDisplay host (← u32 p 0)
    let offset ← u64 p 8
    orRaise (← ask host (.setGuestIccProfileLength display length offset)))

/-! ### The exec commands -/

/-- Which of the three. -/
inductive Kind
  | exec2
  | exec3
  | info
  deriving DecidableEq, Repr

/-- A resource's size. -/
def Kind.record (kind : Kind) : UInt32 := if kind = .exec2 then 24 else 8

/-- The lengths of the command buffers and of the whole payload, and whether either passes 32 bits. The
command buffers' stays 0 when the resources' does. -/
def execLengths (kind : Kind) (resourceCount cmdBufferCount : UInt32) : UInt32 × UInt32 × Bool :=
  let (resourcesLength, overflow) := overflowingMul resourceCount kind.record
  if overflow then (0, 0, true)
  else
    let (cmdBuffersLength, overflow) := overflowingMul cmdBufferCount 16
    if overflow then (cmdBuffersLength, 0, true)
    else
      let (length, overflow) := add3Overflows 12 resourcesLength cmdBuffersLength
      (cmdBuffersLength, length, overflow)

/-- Whether the guest's version has the command. -/
def Kind.gated : Kind → Handler σ Bool
  | .exec2 => pure true
  | .exec3 => do return (← features host).supportsCmdExecIndirect3
  | .info => do return (← features host).supportsInfoIndirect

/-- The checks and the lookup: the task and the two counts. -/
def prologue (kind : Kind) : Handler σ (Task × UInt32 × UInt32) := do
  if !(← kind.gated host) then raise .unsupported unsupported
  c.checkSize 12
  let taskId ← u32 c.payload 0
  if taskId = 0 then raise .notKernel notKernel
  let resourceCount ← u32 c.payload 4
  let cmdBufferCount ← u32 c.payload 8
  let (cmdBuffersLength, length, overflow) := execLengths kind resourceCount cmdBufferCount
  if overflow then
    let lengthText := hex cmdBuffersLength.toNat
    raise .overflow (s!"{resourceCount} resources and {cmdBufferCount} command buffers " ++
      s!"({lengthText} bytes) overflow the payload length")
  c.checkSize length
  let task ← userTask host taskId
  return (task, resourceCount, cmdBufferCount)

/-- The record lists: the resources after the record, the command buffers after them. -/
def records (R : Type) [Record R] (resourceCount cmdBufferCount record : UInt32) :
    Records R × Records CmdExecIndirectCmdBuffer :=
  let resourcesAt := headerLen
  let buffersAt := resourcesAt + (resourceCount * record).toNat
  (c.payload.records resourcesAt resourceCount, c.payload.records buffersAt cmdBufferCount)

/-- The three exec commands. The task call is outside any handler: a raise out of it is a death. -/
def exec {R : Type} [Record R] (kind : Kind)
    (call : Task → ExecArgs R → Completion → Handler σ (Except Raise Unit)) : Handler σ Unit := do
  match ← c.fClass host (prologue host c kind) with
  | none => pure ()
  | some (task, resourceCount, cmdBufferCount) =>
    let (resources, cmdBuffers) := records c R resourceCount cmdBufferCount kind.record
    let done ← c.completion host
    let stampIndex ← ask host .stampIndex
    let fifoEvent ← ask host .fifoEvent
    match ← call task { cmdBuffers, resources, stampIndex, fifoEvent } done with
    | .ok _ => pure ()
    | .error _ => Effect.stop .died

/-- 55. -/
def execIndirect2 : Handler σ Unit :=
  exec host c .exec2 fun task args done => ask host (.execIndirect2 task args done)

/-- 67. -/
def execIndirect3 : Handler σ Unit :=
  exec host c .exec3 fun task args done => ask host (.execIndirect3 task args done)

/-- 69. -/
def infoIndirect : Handler σ Unit :=
  exec host c .info fun task args done => ask host (.infoIndirect task args done)

/-! ### The task commands -/

/-- 32: deletes a task. -/
def deleteTask : Handler σ (Option Unit) :=
  c.fClass host do
    c.checkSize 4
    let taskId ← u32 c.payload 0
    device host
    if !(← orRaise (← ask host (.deleteTaskId taskId))) then
      raise .deleteTask s!"task {taskId} not deleted"
    c.signal host

/-- 34: unmaps a range of a task's memory. -/
def unmapMemory : Handler σ (Option Unit) :=
  c.fClass host do
    c.checkSize 20
    let p := c.payload
    let task ← task host (← u32 p 0)
    let offset ← u64 p 4
    let length ← u64 p 12
    let done ← c.completion host
    orRaise (← ask host (.unmapMemoryAtOffset task offset length done))

/-- 37: deletes a resource. -/
def deleteResource : Handler σ (Option Unit) :=
  c.fClass host do
    c.checkSize 8
    let task ← task host (← u32 c.payload 0)
    let resource ← u32 c.payload 4
    let done ← c.completion host
    orRaise (← ask host (.deleteResource task resource done))

/-- 40: deletes an object. The task gets the whole payload after the task ID, not the declared length. -/
def deleteObject : Handler σ (Option Unit) :=
  c.fClass host do
    c.checkSize 12
    let declared ← u32 c.payload 8
    let (length, overflow) := overflowingAdd declared 4
    if overflow then
      let declaredText := hex declared.toNat
      raise .overflow s!"object length {declaredText} overflows the payload length"
    c.checkSize length
    let task ← task host (← u32 c.payload 0)
    let done ← c.completion host
    orRaise (← ask host (.deleteObjectWithSerializedData task (c.payload.tail 4).bytes done))

/-- 51: sets a task's object list. -/
def setObjectList (a : Arch) : Handler σ (Option Unit) :=
  c.fClass host do
    c.checkSize 12
    let p := c.payload
    let task ← task host (← u32 p 0)
    let objects := (← u32 p 4).toUInt64 <<< .ofNat (pageShift a)
    let objectCount ← u32 p 8
    let done ← c.completion host
    orRaise (← ask host (.setObjectListOffset task objects objectCount 0 0 done))

/-- Which resource-list command raises an overflow. -/
inductive ListCommand
  | invalidate
  | synchronize
  | synchronizeAndDiscard
  | discard
  deriving DecidableEq, Repr

def ListCommand.name : ListCommand → String
  | .invalidate => "CmdInvalidateResources"
  | .synchronize => "CmdSynchronizeResources"
  | .synchronizeAndDiscard => "CmdSynchronizeAndDiscardResources"
  | .discard => "CmdDiscardResources"

/-- The resource-list commands' size checks, which answer the count. -/
def checkResourceList (record : UInt32) (command : ListCommand) : Handler σ UInt32 := do
  c.checkSize 8
  let count ← u32 c.payload 4
  let (length, overflow) := mulAddOverflows count record 8
  if overflow then
    let name := command.name
    raise .overflow s!"{name} of {count} entries overflows the payload length"
  c.checkSize length
  return count

/-- 52: invalidates resources. -/
def invalidateResources : Handler σ (Option Unit) :=
  c.fClass host do
    let count ← checkResourceList c 8 .invalidate
    let task ← task host (← u32 c.payload 0)
    let done ← c.completion host
    orRaise (← ask host (.invalidateResources task (c.payload.records 8 count) done))

/-- 53: synchronizes resources. -/
def synchronizeResources : Handler σ (Option Unit) :=
  c.fClass host do
    let count ← checkResourceList c 4 .synchronize
    let task ← task host (← u32 c.payload 0)
    let done ← c.completion host
    orRaise (← ask host (.synchronizeResources task (c.payload.records 8 count) false done))

/-- 54: deletes an IOSurface backing, on the kernel task. -/
def deleteIosurfaceBacking : Handler σ (Option Unit) :=
  c.fClass host do
    c.checkSize 8
    if (← u32 c.payload 4) ≠ 0 then raise .kernelOnly kernelOnly
    let task ← kernelTask host
    let backing ← u32 c.payload 0
    let done ← c.completion host
    orRaise (← ask host (.deleteBacking task backing done))

/-- 56: defines a task; its ID is bits 1-31. -/
def defineTask : Handler σ (Option Unit) :=
  c.fClass host do
    c.checkSize 16
    let p := c.payload
    device host
    let id := (← u32 p 0) >>> 1
    let a ← u32 p 12
    let b ← u64 p 4
    orRaise (← ask host (.createTaskId id a b false))
    c.signal host

/-- 57: maps a range of a task's memory. -/
def mapMemory : Handler σ (Option Unit) :=
  c.fClass host do
    c.checkSize 20
    let p := c.payload
    let task ← task host (← u32 p 0)
    let offset ← u64 p 4
    let length ← u64 p 12
    let done ← c.completion host
    orRaise (← ask host (.mapMemoryAtOffset task offset length done))

/-- 59: a compute pipeline's info, on a user task. -/
def getComputeInfo : Handler σ (Option Unit) :=
  c.fClass host do
    c.checkSize 24
    let p := c.payload
    let task ← userTask host (← u32 p 0)
    let a ← u32 p 4
    let b ← u32 p 8
    let d ← u32 p 12
    let offset ← u64 p 16
    let done ← c.completion host
    orRaise (← ask host (.getComputeInfo task a b d offset done))

/-- 60: replaces a resource's physical backing. -/
def replacePhysical : Handler σ (Option Unit) :=
  c.fClass host do
    c.checkSize 8
    let task ← task host (← u32 c.payload 0)
    let resource ← u32 c.payload 4
    let done ← c.completion host
    orRaise (← ask host (.replacePhysical task resource done))

/-- 62: synchronizes and discards resources. -/
def synchronizeAndDiscardResources : Handler σ (Option Unit) :=
  c.fClass host do
    if !(← features host).synchronizeAndDiscardResources then raise .unsupported unsupported
    let count ← checkResourceList c 4 .synchronizeAndDiscard
    let task ← task host (← u32 c.payload 0)
    let done ← c.completion host
    orRaise (← ask host (.synchronizeResources task (c.payload.records 8 count) true done))

/-- 63: discards resources. -/
def discardResources : Handler σ (Option Unit) :=
  c.fClass host do
    if !(← features host).discardResources then raise .unsupported unsupported
    let count ← checkResourceList c 4 .discard
    let task ← task host (← u32 c.payload 0)
    let done ← c.completion host
    orRaise (← ask host (.discardResources task (c.payload.records 8 count) done))

/-- The bytes from `start` to `stop`, or none where they pass the end. -/
def slice (p : Payload) (start stop : ℕ) : List UInt8 :=
  if start ≤ stop ∧ stop ≤ p.bytes.length then (p.bytes.drop start).take (stop - start) else []

/-- 64: a heap texture's size and alignment, on a user task. -/
def heapTextureSizeAndAlign : Handler σ (Option Unit) :=
  c.fClass host do
    if !(← features host).metalHeaps then raise .unsupported unsupported
    c.checkSize 24
    let p := c.payload
    let payloadLength ← u32 p 20
    let (length, overflow) := overflowingAdd payloadLength 24
    if overflow then
      let lengthText := hex payloadLength.toNat
      raise .overflow s!"descriptor length {lengthText} overflows the payload length"
    c.checkSize length
    let serialized := slice p 24 length.toNat
    let task ← userTask host (← u32 p 0)
    let a ← u64 p 4
    let b ← u64 p 12
    let done ← c.completion host
    orRaise (← ask host (.heapTextureSizeAndAlign task serialized a b done))

/-- 65: deletes a shared texture's backing, on the kernel task. -/
def deleteSharedTextureBacking : Handler σ (Option Unit) :=
  c.fClass host do
    c.checkSize 4
    let task ← kernelTask host
    let resource ← u32 c.payload 0
    let done ← c.completion host
    orRaise (← ask host (.deleteResource task resource done))

/-- 66: resets a rasterization rate map, on a user task; the size check precedes the feature gate. -/
def resetRasterizationRateMap : Handler σ (Option Unit) :=
  c.fClass host do
    c.checkSize 8
    if !(← features host).supportsVariableRasterizationRateMaps then raise .unsupported unsupported
    let task ← userTask host (← u32 c.payload 0)
    let map ← u32 c.payload 4
    let done ← c.completion host
    orRaise (← ask host (.resetRasterizationRateMap task map done))

/-- 68: sets a task's object and placement lists. -/
def setObjectAndPlacementList : Handler σ (Option Unit) :=
  c.fClass host do
    if !(← features host).supportsArgumentBuffers then raise .unsupported unsupported
    c.checkSize 28
    let p := c.payload
    let task ← task host (← u32 p 0)
    let objects ← u64 p 4
    let objectCount ← u32 p 20
    let placements ← u64 p 12
    let placementCount ← u32 p 24
    let done ← c.completion host
    orRaise (← ask host (.setObjectListOffset task objects objectCount placements placementCount done))

/-! ### The other commands -/

/-- An opcode the table has no case for, or a deprecated one: dumped and faulted. -/
def refused : Handler σ Unit := do
  dump c.payload c.payload.len
  ask host (.faultAtStampValue c.stamp)

/-- 0: a debug string. -/
def debug : Handler σ (Option Unit) :=
  c.fClass host do
    c.checkSize 1
    c.signal host

/-- 30. -/
def nop : Handler σ Unit := c.signal host

/-- 61: a short payload faults; otherwise the stamp is never completed. -/
def delay : Handler σ (Option Unit) :=
  c.fClass host (c.checkSize 8)

/-- 48: defines a child FIFO; the root is checked before the size. -/
def defineChildFifo : Handler σ (Option Unit) :=
  c.fClass host do
    if !(← ask host .isRootFifo) then raise .notRoot "only the root FIFO defines child FIFOs"
    c.checkSize 4
    device host
    let index ← u32 c.payload 0
    if !(← orRaise (← ask host (.createFifo index))) then raise .createChild "child FIFO not created"
    c.signal host

/-- 49: deletes a child FIFO. -/
def deleteChildFifo : Handler σ (Option Unit) :=
  c.fClass host do
    if !(← ask host .isRootFifo) then raise .notRoot "only the root FIFO deletes child FIFOs"
    c.checkSize 4
    device host
    let index ← u32 c.payload 0
    if !(← orRaise (← ask host (.deleteFifo index))) then raise .deleteChild "child FIFO not deleted"
    c.signal host

/-- 58: writes the device's info. -/
def getDeviceInfo : Handler σ (Option Unit) :=
  c.fClass host do
    c.checkSize 12
    let p := c.payload
    device host
    let a ← u32 p 0
    let b ← u32 p 4
    let d ← u32 p 8
    orRaise (← ask host (.getDeviceInfo a b d))
    c.signal host

/-! ### The table -/

/-- The opcodes the table has a case for. -/
inductive Opcode
  | debug
  | displaySetSharedStatePage
  | displayAck
  | displayCursorGlyph
  | displayCursorShow
  | displayTransaction2
  | displayTransaction3
  | displaySwapMapping
  | displaySleepState
  | displaySetProperties
  | displayCompositorParameters
  | displaySetGuestIccProfile
  | nop
  | deprecated
  | deleteTask
  | unmapMemory
  | deleteResource
  | deleteObject
  | defineChildFifo
  | deleteChildFifo
  | setObjectList
  | invalidateResources
  | synchronizeResources
  | deleteIoSurfaceBacking2
  | execIndirect2
  | defineTask2
  | mapMemory2
  | getDeviceInfo
  | getComputeInfo
  | replacePhysical
  | delay
  | synchronizeAndDiscardResources
  | discardResources
  | heapTextureSizeAndAlign
  | deleteSharedTextureBacking
  | resetRasterizationRateMap
  | execIndirect3
  | setObjectAndPlacementList
  | infoIndirect
  deriving DecidableEq, Repr

/-- The opcode a command names. -/
def Opcode.fromId (commandId : UInt16) : Option Opcode :=
  match commandId.toNat with
  | 0 => some .debug
  | 1 => some .displaySetSharedStatePage
  | 2 => some .displayAck
  | 4 => some .displayCursorGlyph
  | 5 => some .displayCursorShow
  | 6 => some .displayTransaction2
  | 7 => some .displayTransaction3
  | 8 => some .displaySwapMapping
  | 9 => some .displaySleepState
  | 10 => some .displaySetProperties
  | 11 => some .displayCompositorParameters
  | 12 => some .displaySetGuestIccProfile
  | 30 => some .nop
  | 3 | 31 | 33 | 35 | 36 | 38 | 39 | 41 | 42 | 43 | 44 | 45 | 46 | 47 | 50 => some .deprecated
  | 32 => some .deleteTask
  | 34 => some .unmapMemory
  | 37 => some .deleteResource
  | 40 => some .deleteObject
  | 48 => some .defineChildFifo
  | 49 => some .deleteChildFifo
  | 51 => some .setObjectList
  | 52 => some .invalidateResources
  | 53 => some .synchronizeResources
  | 54 => some .deleteIoSurfaceBacking2
  | 55 => some .execIndirect2
  | 56 => some .defineTask2
  | 57 => some .mapMemory2
  | 58 => some .getDeviceInfo
  | 59 => some .getComputeInfo
  | 60 => some .replacePhysical
  | 61 => some .delay
  | 62 => some .synchronizeAndDiscardResources
  | 63 => some .discardResources
  | 64 => some .heapTextureSizeAndAlign
  | 65 => some .deleteSharedTextureBacking
  | 66 => some .resetRasterizationRateMap
  | 67 => some .execIndirect3
  | 68 => some .setObjectAndPlacementList
  | 69 => some .infoIndirect
  | _ => none

/-- Runs one command. -/
def dispatch (a : Arch) : Handler σ Unit :=
  match Opcode.fromId c.header.commandId with
  | none => refused host c
  | some op =>
    match op with
    | .deprecated => refused host c
    | .debug => discard (debug host c)
    | .displaySetSharedStatePage => discard (setSharedStatePage host c)
    | .displayAck => discard (ack host c)
    | .displayCursorGlyph => discard (cursorGlyph host c)
    | .displayCursorShow => discard (cursorShow host c)
    | .displayTransaction2 => discard (transaction2 host c)
    | .displayTransaction3 => transaction3 host c
    | .displaySwapMapping => swapMapping host c
    | .displaySleepState => discard (sleepState host c)
    | .displaySetProperties => setProperties host c
    | .displayCompositorParameters => discard (compositorParameters host c)
    | .displaySetGuestIccProfile => setGuestIccProfile host c
    | .nop => nop host c
    | .deleteTask => discard (deleteTask host c)
    | .unmapMemory => discard (unmapMemory host c)
    | .deleteResource => discard (deleteResource host c)
    | .deleteObject => discard (deleteObject host c)
    | .defineChildFifo => discard (defineChildFifo host c)
    | .deleteChildFifo => discard (deleteChildFifo host c)
    | .setObjectList => discard (setObjectList host c a)
    | .invalidateResources => discard (invalidateResources host c)
    | .synchronizeResources => discard (synchronizeResources host c)
    | .deleteIoSurfaceBacking2 => discard (deleteIosurfaceBacking host c)
    | .execIndirect2 => execIndirect2 host c
    | .defineTask2 => discard (defineTask host c)
    | .mapMemory2 => discard (mapMemory host c)
    | .getDeviceInfo => discard (getDeviceInfo host c)
    | .getComputeInfo => discard (getComputeInfo host c)
    | .replacePhysical => discard (replacePhysical host c)
    | .delay => discard (delay host c)
    | .synchronizeAndDiscardResources => discard (synchronizeAndDiscardResources host c)
    | .discardResources => discard (discardResources host c)
    | .heapTextureSizeAndAlign => discard (heapTextureSizeAndAlign host c)
    | .deleteSharedTextureBacking => discard (deleteSharedTextureBacking host c)
    | .resetRasterizationRateMap => discard (resetRasterizationRateMap host c)
    | .execIndirect3 => execIndirect3 host c
    | .setObjectAndPlacementList => discard (setObjectAndPlacementList host c)
    | .infoIndirect => infoIndirect host c

end ReimsVgpu.Fifo.Commands
