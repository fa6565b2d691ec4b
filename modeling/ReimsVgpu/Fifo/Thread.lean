import ReimsVgpu.Fifo.Ring

/-!
# A child FIFO's thread

The thread reads each command off the ring, its header, its barrier records and its payload, waits
for its barriers, publishes its bytes, pushes its stamp and runs it. Around it, the guest writes the
bytes of its stream into the ring and publishes how many it has written, and the device stops and
starts the FIFO. One step of the system is one step of one of them; the thread's steps are as fine
as its reads of the quiesced flag and of the guest's node, and its copies.

The stamps pushed and faulted are the stamp queue's matter and leave no trace here: a command ends
in the log as run or as refused, its barrier wait having raised.

## Main definitions

* `FifoCommand`, `Framing`, `frame`, `Command`.
* `Pc`, `System`, `System.threadStep`, `System.step`.
-/

open ReimsVgpu.Memory

namespace ReimsVgpu.Fifo

/-! ### Commands -/

/-- The little-endian half word at `pos` of a run of bytes. -/
def le16 (bytes : ℕ → UInt8) (pos : ℕ) : UInt16 :=
  (bytes pos).toUInt16 ||| (bytes (pos + 1)).toUInt16 <<< 8

/-- The command header. -/
structure FifoCommand where
  commandId : UInt16
  barrierCount : UInt16
  length : UInt32
  stampValue : UInt32
  deriving DecidableEq, Repr

/-- `COMMAND_HEADER_SIZE`, and as the length checks compare it `HEADER_LEN`. -/
def headerLen : ℕ := 12

/-- `STAMP_WAIT_LEN`. -/
def stampWaitLen : ℕ := 8

/-- `MAX_BARRIERS`. -/
def maxBarriers : ℕ := 64

/-- The header in its bytes. -/
def FifoCommand.ofBytes (header : List UInt8) : FifoCommand where
  commandId := le16 (fun i => header.getD i 0) 0
  barrierCount := le16 (fun i => header.getD i 0) 2
  length := le32 (fun i => header.getD i 0) 4
  stampValue := le32 (fun i => header.getD i 0) 8

/-- What the loop does with a command whose header it has read: it skips it, or faults its stamp,
having consumed only the header, or reads its barriers and payload. -/
inductive Framing
  | skip
  | fault
  | read (barrierLen payloadLen : ℕ)
  deriving DecidableEq, Repr

/-- How the loop frames a command, the ring being `ringLength` bytes. -/
def frame (command : FifoCommand) (ringLength : ℕ) : Framing :=
  if command.length.toNat < headerLen ∨ command.length.toNat > ringLength then .skip
  else
    let barrierBytes := command.barrierCount.toNat * stampWaitLen
    if command.length.toNat - headerLen < barrierBytes then .fault
    else if command.barrierCount.toNat > maxBarriers then .fault
    else .read barrierBytes (command.length.toNat - headerLen - barrierBytes)

/-- A command as the thread has read it. -/
structure Command where
  header : List UInt8
  barriers : List UInt8
  payload : List UInt8
  deriving DecidableEq, Repr

/-! ### The thread -/

/-- The part of a command that is being read, with the parts before it. -/
inductive Part
  | header
  | barriers (header : List UInt8)
  | payload (header barriers : List UInt8)
  deriving DecidableEq, Repr

/-- Where a read stands in its loop: at the test of the quiesced flag, before the load of what is
available, before a copy, or before the second look, under the lock, that precedes a wait. -/
inductive ReadPc
  | check
  | load
  | copy (count : UInt32)
  | sleep
  deriving DecidableEq, Repr

/-- Where the thread stands. -/
inductive Pc
  | loop
  | reading (part : Part) (got : List UInt8) (left : ℕ) (pc : ReadPc)
  | waiting (command : Command)
  | consuming (command : Command) (met : Bool)
  | pushing (command : Command) (met : Bool)
  | running (command : Command)
  | faulting (command : Command)
  | rewinding
  | unmapping
  deriving DecidableEq, Repr

/-- How a barrier wait ends. -/
inductive WaitResult
  | met
  | unmet
  | raised
  deriving DecidableEq, Repr

/-- A child FIFO with its thread, the pages of its ring, and the guest's progress through its
stream. `advanced` has the commands advanced over, `log` those run (`true`) or refused (`false`). -/
structure System where
  fifo : ChildFifo := {}
  memory : ℕ → UInt8 := fun _ => 0
  filled : ℕ := 0
  quiesced : Bool := false
  thread : Option Pc := none
  advanced : List Command := []
  log : List (Command × Bool) := []

namespace System

/-- A read that was told to stop: the header's and the payload's go on to the loop's own test, the
barriers' ends the loop. -/
def readStopped : Part → Pc
  | .header => .loop
  | .barriers _ => .rewinding
  | .payload _ _ => .loop

/-- A read that has filled its bytes. -/
def readDone (ringLength : ℕ) : Part → List UInt8 → Pc
  | .header, got =>
    match frame (.ofBytes got) ringLength with
    | .skip => .loop
    | .fault => .loop
    | .read barrierLen payloadLen =>
      if (FifoCommand.ofBytes got).barrierCount ≠ 0 then
        .reading (.barriers got) [] barrierLen .check
      else .reading (.payload got []) [] payloadLen .check
  | .barriers header, got =>
    match frame (.ofBytes header) ringLength with
    | .read _ payloadLen => .reading (.payload header got) [] payloadLen .check
    | _ => .loop
  | .payload header barriers, got => .waiting ⟨header, barriers, got⟩

/-- The bytes of the ring's pages from an offset. -/
def ringBytes (memory : ℕ → UInt8) (offset count : ℕ) : List UInt8 :=
  (List.range count).map fun i => memory (offset + i)

/-- The thread goes on at `pc`. -/
def goto (s : System) (pc : Pc) : System := { s with thread := some pc }

/-- One step of a read. -/
def readStep (s : System) (part : Part) (got : List UInt8) (left : ℕ) : ReadPc → System
  | .check =>
    if s.quiesced then s.goto (readStopped part) else s.goto (.reading part got left .load)
  | .load =>
    let (ring, l) := s.fifo.ring.load s.fifo.ringLength s.fifo.node left
    let s := { s with fifo := { s.fifo with ring := ring } }
    match l with
    | .wrap => s.goto (.reading part got left .check)
    | .done => s.goto (readDone s.fifo.ringLength.toNat part got)
    | .wait => s.goto (.reading part got left .sleep)
    | .copy count => s.goto (.reading part got left (.copy count))
  | .copy count =>
    let bytes := ringBytes s.memory s.fifo.ring.readOffset.toNat count.toNat
    let s := { s with fifo := { s.fifo with ring := s.fifo.ring.copied count } }
    s.goto (.reading part (got ++ bytes) (left - count.toNat) .check)
  | .sleep =>
    let ring := if s.quiesced then s.fifo.ring else (s.fifo.ring.available s.fifo.node left).2
    let s := { s with fifo := { s.fifo with ring := ring } }
    s.goto (.reading part got left .check)

/-- One step of the thread; `r` is how the barrier wait ends, if it is at one. -/
def threadStep (s : System) (r : WaitResult) : Pc → System
  | .loop => if s.quiesced then s.goto .rewinding else s.goto (.reading .header [] headerLen .check)
  | .reading part got left pc => s.readStep part got left pc
  | .waiting command =>
    if (FifoCommand.ofBytes command.header).barrierCount = 0 then s.goto (.consuming command true)
    else
      match r with
      | .met => s.goto (.consuming command true)
      | .unmet => s.goto .rewinding
      | .raised => s.goto (.consuming command false)
  | .consuming command met =>
    let s := { s with fifo := s.fifo.advance, advanced := s.advanced ++ [command] }
    s.goto (.pushing command met)
  | .pushing command met => s.goto (if met then .running command else .faulting command)
  | .running command => { s with log := s.log ++ [(command, true)] }.goto .loop
  | .faulting command => { s with log := s.log ++ [(command, false)] }.goto .loop
  | .rewinding =>
    { s with fifo := { s.fifo with ring := s.fifo.ring.rewind } }.goto .unmapping
  | .unmapping => { s with fifo := { s.fifo with ringLength := 0 }, thread := none }

/-- What may happen: the guest writes the next byte of its stream or publishes how many it has
written, the device stops or starts the FIFO, or the thread takes a step. -/
inductive Action
  | fill
  | publish (written : UInt32)
  | stop
  | start
  | thread (r : WaitResult)
  deriving DecidableEq, Repr

/-- One step of the system, on a ring of a fixed length. The guest stays within the ring's length of
the node's read count, and its count does not wrap; a start finds no thread. -/
def step (length : UInt32) (stream : List UInt8) (s : System) : Action → Option System
  | .fill =>
    match stream[s.filled]? with
    | some byte =>
      if s.filled < s.fifo.node.readCount.toNat + length.toNat then
        some { s with
          memory := Function.update s.memory (s.filled % length.toNat) byte
          filled := s.filled + 1 }
      else none
    | none => none
  | .publish written =>
    if s.fifo.node.written.toNat ≤ written.toNat ∧ written.toNat ≤ s.filled then
      some { s with fifo := { s.fifo with node := { s.fifo.node with written := written } } }
    else none
  | .stop => some { s with quiesced := true }
  | .start =>
    match s.thread with
    | none => some { s with
        fifo := s.fifo.mapLength length, quiesced := false, thread := some .loop }
    | some _ => none
  | .thread r => s.thread.map (s.threadStep r)

/-- The commands run. -/
def dispatched (s : System) : List Command :=
  s.log.filterMap fun entry => if entry.2 then some entry.1 else none

end System

end ReimsVgpu.Fifo
