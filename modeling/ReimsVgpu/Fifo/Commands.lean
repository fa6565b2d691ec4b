import ReimsVgpu.Fifo.Wire
import ReimsVgpu.Guest.Features
import ReimsVgpu.Library.Effect

/-!
# What the command handlers share

A handler reads the fields of its payload and calls the device, a task or a guest display, whose answers
are the outside's. Its log has each field read, with the bytes it was read from, each call made, and what
the handler dumped or caught. The objects that a command's holder keeps alive, and the log lines, leave no
trace.

## Main definitions

* `Call`, `Host`: the calls, and an outside that answers them.
* `Event`, `Handler`: a handler's log, and a handler.
* `Command`, with `checkSize`, `fClass`, `sCaught` and the lookups.
-/

open ReimsVgpu.Guest (GuestFeatures)

namespace ReimsVgpu.Fifo.Commands

/-! ### Raises -/

/-- `RaiseKind`. -/
inductive RaiseKind
  | commandLength
  | unsupported
  | kernelOnly
  | notKernel
  | overflow
  | deleteTask
  | notRoot
  | createChild
  | deleteChild
  deriving DecidableEq, Repr

/-- A raise: the FIFO's own, or one of what it called. -/
inductive Raise
  | fifo (kind : RaiseKind) (detail : String)
  | other (detail : String)
  deriving DecidableEq, Repr

/-- How a handler stops short: raised, or dead with the process. -/
inductive Stop
  | raised (r : Raise)
  | died
  deriving DecidableEq, Repr

/-- The text every feature gate raises with. -/
def unsupported : String := "the command is not supported at this binary version"

/-- The text of commands 4, 6, 7, 8 and 54 naming another task. -/
def kernelOnly : String := "the command must name a kernel task"

/-- The text of commands 55, 67 and 69 naming the kernel task. -/
def notKernel : String := "the command must not name a kernel task"

/-- A number in hexadecimal. -/
def hex (n : ℕ) : String := "0x" ++ String.ofList (Nat.toDigits 16 n)

/-! ### Calls -/

/-- A task, as the device's lookups name it. -/
abbrev Task := ℕ

/-- A guest display, as the device's lookup names it. -/
abbrev GuestDisplay := ℕ

/-- The completion a task command passes: the offset it faults at, and its stamp. -/
structure Completion where
  offset : UInt32
  stamp : UInt32
  deriving DecidableEq, Repr

structure GammaTableArgs where
  virtualOffset : UInt64 := 0
  mappedLength : UInt64 := 0
  entryCount : UInt32 := 0
  sum : UInt32 := 0
  deriving DecidableEq, Repr

structure CursorGlyphArgs where
  virtualOffset : UInt64
  mappedLength : UInt64
  stride : UInt64
  width : UInt16
  height : UInt16
  hotSpotX : UInt16
  hotSpotY : UInt16
  sum : UInt32
  deriving DecidableEq, Repr

structure DisplayCoord where
  x : UInt16
  y : UInt16
  deriving DecidableEq, Repr

/-- The arguments of an exec or an info exec. The event is the FIFO's own, by its name. -/
structure ExecArgs (R : Type) where
  cmdBuffers : Records CmdExecIndirectCmdBuffer
  resources : Records R
  stampIndex : UInt32
  fifoEvent : Option ℕ

/-- The calls that the handlers make: to the device, the FIFO, a guest display, and a task. -/
inductive Call
  | device
  | features
  | getTaskId (id : UInt32)
  | getUserTaskId (id : UInt32)
  | getKernelTask
  | getGuestDisplayAtPort (port : UInt64)
  | setSharedDisplayStatePage (page : UInt32) (port : UInt64) (own : Bool)
  | createTaskId (id a : UInt32) (b : UInt64) (remote : Bool)
  | deleteTaskId (id : UInt32)
  | createFifo (index : UInt32)
  | deleteFifo (index : UInt32)
  | getDeviceInfo (a b c : UInt32)
  | isRootFifo
  | stampIndex
  | commandOffset
  | fifoEvent
  | signalStampValue (stamp : UInt32)
  | faultAtStampValue (stamp : UInt32)
  | ack (display : GuestDisplay) (value : UInt32)
  | cursorGlyph (display : GuestDisplay) (args : CursorGlyphArgs)
  | cursorShow (display : GuestDisplay) (byte : UInt8)
  | presentSurface (display : GuestDisplay) (surface : UInt32) (gamma : GammaTableArgs)
  | presentMappedSurface (display : GuestDisplay) (mapping : UInt64) (gamma : GammaTableArgs)
  | setProperty (display : GuestDisplay) (property : Int32) (words : Records UInt32)
  | sleepState (display : GuestDisplay) (byte : UInt8)
  | compositorParameters (display : GuestDisplay) (a : UInt64) (coord : DisplayCoord) (byte : UInt8)
  | setGuestIccProfileLength (display : GuestDisplay) (length : UInt32) (offset : UInt64)
  | unmapMemoryAtOffset (task : Task) (offset length : UInt64) (done : Completion)
  | mapMemoryAtOffset (task : Task) (offset length : UInt64) (done : Completion)
  | deleteResource (task : Task) (resource : UInt32) (done : Completion)
  | deleteObjectWithSerializedData (task : Task) (data : List UInt8) (done : Completion)
  | setObjectListOffset (task : Task) (objects : UInt64) (objectCount : UInt32) (placements : UInt64)
      (placementCount : UInt32) (done : Completion)
  | invalidateResources (task : Task) (records : Records ResourceInvalidation) (done : Completion)
  | synchronizeResources (task : Task) (records : Records ResourceReference) (discard : Bool)
      (done : Completion)
  | discardResources (task : Task) (records : Records ResourceReference) (done : Completion)
  | deleteBacking (task : Task) (backing : UInt32) (done : Completion)
  | getComputeInfo (task : Task) (a b c : UInt32) (offset : UInt64) (done : Completion)
  | replacePhysical (task : Task) (resource : UInt32) (done : Completion)
  | heapTextureSizeAndAlign (task : Task) (serialized : List UInt8) (a b : UInt64) (done : Completion)
  | resetRasterizationRateMap (task : Task) (map : UInt32) (done : Completion)
  | execIndirect2 (task : Task) (args : ExecArgs CmdExecIndirectResource) (done : Completion)
  | execIndirect3 (task : Task) (args : ExecArgs CmdExecIndirectResource3) (done : Completion)
  | infoIndirect (task : Task) (args : ExecArgs CmdExecIndirectResource3) (done : Completion)

/-- What a call answers. -/
@[reducible]
def Call.Answer : Call → Type
  | .device => Bool
  | .features => GuestFeatures
  | .getTaskId _ => Except Raise Task
  | .getUserTaskId _ => Except Raise Task
  | .getKernelTask => Except Raise Task
  | .getGuestDisplayAtPort _ => Except Raise GuestDisplay
  | .deleteTaskId _ => Except Raise Bool
  | .createFifo _ => Except Raise Bool
  | .deleteFifo _ => Except Raise Bool
  | .isRootFifo => Bool
  | .stampIndex => UInt32
  | .commandOffset => UInt32
  | .fifoEvent => Option ℕ
  | .signalStampValue _ => Unit
  | .faultAtStampValue _ => Unit
  | .cursorShow _ _ => Unit
  | .sleepState _ _ => Unit
  | .compositorParameters _ _ _ _ => Unit
  | _ => Except Raise Unit

/-- An outside that answers the calls. -/
abbrev Host (σ : Type) : Type := (call : Call) → σ → call.Answer × σ

/-! ### Handlers -/

/-- What a handler logs. A read has the bytes it was made from; a turn is one test of the property
loop, with its variables there. -/
inductive Event
  | read (bytes : List UInt8) (off size : ℕ)
  | called (call : Call)
  | dumped (bytes : List UInt8)
  | caught (r : Raise)
  | turn (index : UInt32) (cursor size : UInt64)

abbrev Handler (σ α : Type) : Type := Effect σ Event Stop α

variable {σ α : Type}

def u8 (p : Payload) (off : ℕ) : Handler σ UInt8 := do
  Effect.log (.read p.bytes off 1)
  return p.u8 off

def u16 (p : Payload) (off : ℕ) : Handler σ UInt16 := do
  Effect.log (.read p.bytes off 2)
  return p.u16 off

def u32 (p : Payload) (off : ℕ) : Handler σ UInt32 := do
  Effect.log (.read p.bytes off 4)
  return p.u32 off

def u64 (p : Payload) (off : ℕ) : Handler σ UInt64 := do
  Effect.log (.read p.bytes off 8)
  return p.u64 off

/-- A call that cannot raise. -/
def ask (host : Host σ) (call : Call) : Handler σ call.Answer := do
  Effect.log (.called call)
  Effect.ask (host call)

def raise (kind : RaiseKind) (detail : String) : Handler σ α :=
  Effect.stop (.raised (.fifo kind detail))

/-- A call's raise, raised on. -/
def orRaise : Except Raise α → Handler σ α
  | .ok a => pure a
  | .error r => Effect.stop (.raised r)

/-- The first `min(size, 64)` bytes, dumped. -/
def dump (bytes : Payload) (size : UInt64) : Handler σ Unit :=
  Effect.log (.dumped (bytes.bytes.take (min size.toNat 64)))

/-- A payload shorter than `expected` raises. -/
def checkSizeOf (bytes : Payload) (size : UInt64) (expected : UInt32) : Handler σ Unit :=
  if size < expected.toUInt64 then do
    dump bytes size
    raise .commandLength s!"a payload of {size} bytes, shorter than the command's {expected}"
  else pure ()

/-- `a * b + c` in 32 bits, and whether the exact value does not fit. -/
def mulAddOverflows (a b c : UInt32) : UInt32 × Bool :=
  let exact' := a.toUInt64 * b.toUInt64 + c.toUInt64
  (exact'.toUInt32, decide (UInt32.toUInt64 0xffffffff < exact'))

/-- `a + b + c` in 32 bits, and whether the exact sum does not fit. -/
def add3Overflows (a b c : UInt32) : UInt32 × Bool :=
  let exact' := a.toUInt64 + b.toUInt64 + c.toUInt64
  (exact'.toUInt32, decide (UInt32.toUInt64 0xffffffff < exact'))

/-- A product in 32 bits, and whether it does not fit. -/
def overflowingMul (a b : UInt32) : UInt32 × Bool := (a * b, decide (2 ^ 32 ≤ a.toNat * b.toNat))

/-- A sum in 32 bits, and whether it does not fit. -/
def overflowingAdd (a b : UInt32) : UInt32 × Bool := (a + b, decide (2 ^ 32 ≤ a.toNat + b.toNat))

/-- One command as its handler runs it. -/
structure Command where
  header : FifoCommand
  payload : Payload

namespace Command

variable (host : Host σ) (c : Command)

def stamp : UInt32 := c.header.stampValue

def signal : Handler σ Unit := ask host (.signalStampValue c.stamp)

/-- The device: a gone one is a death. -/
def device : Handler σ Unit := do
  if ← ask host .device then pure () else Effect.stop .died

def features : Handler σ GuestFeatures := do
  device host
  ask host .features

/-- The whole payload must hold `expected` bytes. -/
def checkSize (expected : UInt32) : Handler σ Unit :=
  checkSizeOf c.payload c.payload.len expected

def task (taskId : UInt32) : Handler σ Task := do
  device host
  orRaise (← ask host (.getTaskId taskId))

def userTask (taskId : UInt32) : Handler σ Task := do
  device host
  orRaise (← ask host (.getUserTaskId taskId))

def kernelTask : Handler σ Task := do
  device host
  orRaise (← ask host .getKernelTask)

def guestDisplay (port : UInt32) : Handler σ GuestDisplay := do
  device host
  orRaise (← ask host (.getGuestDisplayAtPort port.toUInt64))

/-- The completion, with the offset latched now. -/
def completion : Handler σ Completion := do
  let offset ← ask host .commandOffset
  return { offset, stamp := c.stamp }

/-- The F class's catch. -/
def fCaught (r : Raise) : Handler σ Unit := do
  Effect.log (.caught r)
  ask host (.faultAtStampValue c.stamp)

/-- The F class: a raise of the body faults the stamp. -/
def fClass (body : Handler σ α) : Handler σ (Option α) := do
  match ← Effect.attempt body with
  | .ok v => return some v
  | .error (.raised r) =>
    c.fCaught host r
    return none
  | .error .died => Effect.stop .died

/-- The S class's catch: the payload's first bytes dumped. -/
def sCaught (r : Raise) (size : UInt64) : Handler σ Unit := do
  Effect.log (.caught r)
  dump c.payload size

/-- The S class: a raise of the body is caught with the size it went out with, and the stamp is signalled
whatever happened. -/
def sClass (body : Effect σ Event (Stop × UInt64) α) : Handler σ Unit := do
  match ← Effect.attempt body with
  | .ok _ => pure ()
  | .error (.raised r, size) => c.sCaught r size
  | .error (.died, _) => Effect.stop .died
  c.signal host

/-- A body whose raise goes out with this size. -/
def withSize (size : UInt64) (body : Handler σ α) : Effect σ Event (Stop × UInt64) α :=
  body.mapError fun e => (e, size)

end Command

end ReimsVgpu.Fifo.Commands
