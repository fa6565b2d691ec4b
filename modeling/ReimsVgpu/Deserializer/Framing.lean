import ReimsVgpu.Library.LittleEndian
import ReimsVgpu.Memory.Cursor

/-!
# The records of a segment

A segment of an exec's command buffers is a header and records, each a header of 8 bytes, whose length
counts it in, and a payload. Three pieces of code take the next record off a segment: the loop that every
decoder shares, the compute decoder's peek at a first record, and the render decoder's pass prefix.

Left out are the decoders, what they make of a payload, and the protection options of an envelope, which
go to the command buffer.

## Main definitions

* `CmdHeader`, `SegmentHeader`, `FrameRaise`.
* `segmentOf`: a segment's cursor as the walk hands it to a decoder.
* `nextRecord`, `peekRecord`, `decodeComputePassDescriptor`, `passRecord`, `passPrefix`.
-/

namespace ReimsVgpu.Deserializer

open Memory

/-- `CmdHeader`. -/
structure CmdHeader where
  commandId : UInt32
  length : UInt32
  deriving DecidableEq, Repr

def CmdHeader.ofBytes (bytes : List UInt8) : CmdHeader where
  commandId := (LittleEndian.wordAt bytes 0).getD 0
  length := (LittleEndian.wordAt bytes 4).getD 0

/-- `SegmentHeader`, without its padding. -/
structure SegmentHeader where
  length : UInt32
  encoderType : UInt8
  continuesPrevious : UInt8
  continuedByNext : UInt8
  deriving DecidableEq, Repr

def SegmentHeader.ofBytes (bytes : List UInt8) : SegmentHeader where
  length := (LittleEndian.wordAt bytes 0).getD 0
  encoderType := bytes.getD 4 0
  continuesPrevious := bytes.getD 5 0
  continuedByNext := bytes.getD 6 0

/-- `RECORD_HEADER_SIZE`. -/
def recordHeaderSize : UInt64 := 8

/-- `ENVELOPE`. -/
def envelope : UInt8 := 5

/-- `SET_DISPATCH_TYPE`. -/
def setDispatchType : UInt32 := 0xdb

/-- The raises of the walk and the framers, with what they show. -/
inductive FrameRaise where
  | cursorReadFailed (error : CursorError)
  | recordUnderflow (length : UInt32)
  | recordOverrun (error : CursorError)
  | segmentLength (error : CursorError)
  | unexpectedPassCommand (id : UInt32)
  deriving DecidableEq, Repr

variable (memory : HostMemory)

/-- `read_or_raise`, of the bytes of a type. -/
def readOrRaise (c : Cursor) (bytes : UInt64) :
    Except CursorDeath (Except FrameRaise (List UInt8) × Cursor) := do
  match ← c.readBytes memory bytes with
  | (.ok read, c) => .ok (.ok read, c)
  | (.error error, c) => .ok (.error (.cursorReadFailed error), c)

/-! ### The walk -/

/-- What a framer answers: a record, which is its header and a cursor over its payload, or none where it
stops; and where the segment is then. -/
abbrev Framing := Except CursorDeath (Except FrameRaise (Option (CmdHeader × Cursor)) × Cursor)

/-- `next_record`. -/
def nextRecord (segment : Cursor) : Framing :=
  if segment.remaining < recordHeaderSize then .ok (.ok none, segment)
  else do
    match ← readOrRaise memory segment 8 with
    | (.error raise, segment) => .ok (.error raise, segment)
    | (.ok bytes, segment) =>
      let header := CmdHeader.ofBytes bytes
      if header.length.toUInt64 < recordHeaderSize then
        .ok (.error (.recordUnderflow header.length), segment)
      else
        match ← segment.subCursor (header.length.toUInt64 - recordHeaderSize) with
        | (.ok record, segment) => .ok (.ok (some (header, record)), segment)
        | (.error error, segment) => .ok (.error (.recordOverrun error), segment)

/-- The peek of `decode_compute_pass_descriptor`, and where the peeking cursor is then. -/
def peekRecord (segment : Cursor) : Framing :=
  if segment.remaining = 0 then .ok (.ok none, segment)
  else do
    match ← readOrRaise memory segment 8 with
    | (.error raise, peek) => .ok (.error raise, peek)
    | (.ok bytes, peek) =>
      let header := CmdHeader.ofBytes bytes
      if header.length.toUInt64 < recordHeaderSize then
        .ok (.error (.recordUnderflow header.length), peek)
      else
        match ← peek.subCursor (header.length.toUInt64 - recordHeaderSize) with
        | (.ok record, peek) => .ok (.ok (some (header, record)), peek)
        | (.error error, peek) => .ok (.error (.recordOverrun error), peek)

/-- `decode_compute_pass_descriptor`: the dispatch type where a first record sets it, and the segment,
which moves past that record only. -/
def decodeComputePassDescriptor (segment : Cursor) :
    Except CursorDeath (Except FrameRaise (Option UInt64) × Cursor) := do
  match ← peekRecord memory segment with
  | (.error raise, _) => .ok (.error raise, segment)
  | (.ok none, _) => .ok (.ok none, segment)
  | (.ok (some (header, record)), _) =>
    if header.commandId = setDispatchType then
      let segment ← segment.advance header.length.toUInt64
      match ← readOrRaise memory record 4 with
      | (.error raise, _) => .ok (.error raise, segment)
      | (.ok bytes, _) =>
        .ok (.ok (some ((LittleEndian.wordAt bytes 0).getD 0).toUInt64), segment)
    else .ok (.ok none, segment)

/-- The framing of one turn of `pass_prefix`: the length wraps in 32 bits. -/
def passRecord (segment : Cursor) : Framing := do
  match ← readOrRaise memory segment 8 with
  | (.error raise, segment) => .ok (.error raise, segment)
  | (.ok bytes, segment) =>
    let header := CmdHeader.ofBytes bytes
    let length := header.length - 8
    match ← segment.subCursor length.toUInt64 with
    | (.ok record, segment) => .ok (.ok (some (header, record)), segment)
    | (.error error, segment) => .ok (.error (.recordOverrun error), segment)

/-- The prefix commands after which another record is taken. -/
def prefixCommands : List UInt32 := [0x1e, 0x1f, 0x20, 0x21, 0x22, 0x23, 0x24]

/-- The command that ends the prefix. -/
def describeRenderPass : UInt32 := 0x1a

/-- A framer taken again and again: the records, and the segment where it stops; none where the fuel is
used up. -/
def iterate (framer : Cursor → Framing) :
    ℕ → Cursor → Option (Except CursorDeath (List (CmdHeader × Cursor) × Cursor))
  | 0, _ => none
  | fuel + 1, segment =>
    match framer segment with
    | .error death => some (.error death)
    | .ok (.ok (some record), next) =>
      (iterate framer fuel next).map (·.map fun (records, last) => (record :: records, last))
    | .ok (_, _) => some (.ok ([], segment))

end ReimsVgpu.Deserializer
