import ReimsVgpu.Deserializer.Encoders

/-!
# The segment walk

The walk takes an exec's segments in order, each through a decoder of its type; a decoder may be carried
from one segment into the next. A raise out of a decoder has it end its encoder, and the walk then ends
that of the decoder carried into the segment.

The records that raise whatever they hold, and those that only read, are silent. An info decoder's records
write their replies into guest memory and have no encoder. Which cursors the walk leaves in place, and the
dispatch type of a compute pass, are left out.

## Main definitions

* `renderKind`, `computeKind`, `blitKind`: the records of each decoder.
* `decodeRenderSegment`, `decodeComputeSegment`, `decodeBlitSegment`, `decodeInfoSegment`, `decode`: a
  segment through a decoder.
* `forSegment`, `decoderFor`, `openEnvelope`, `decodeSegment`: a segment of the walk.
* `decodeSegments`: the walk.
-/

namespace ReimsVgpu.Deserializer

open Memory

/-! ### The records -/

/-- The draws and the tile dispatches. -/
def renderWorkIds : List UInt32 :=
  [0x0, 0x1, 0x2, 0x3, 0x4, 0x5, 0x6, 0x7, 0x8, 0x9, 0xa, 0xb, 0xc, 0xd, 0xe, 0xf, 0x10, 0x11, 0x12,
    0x13, 0x1c, 0x1d, 0x9b, 0xa2, 0xa3]

/-- The records of which nothing is sent: the host's encoder does not have their selectors, or a barrier
of resources, or the tile dimensions, which are asked for. -/
def renderSilentIds : List UInt32 := [0x16, 0x8c, 0x8d, 0x8e, 0x92, 0x93, 0xa4]

/-- `dispatch` of the render decoder. -/
def renderKind (id : UInt32) : Option RecordKind :=
  if id ∈ renderWorkIds then some .work
  else if id ∈ renderSilentIds then some .silent
  else if id = 0x74 then some .pipeline
  else if (0x14 ≤ id ∧ id ≤ 0x1b ∧ id ≠ 0x1a) ∨ (0x65 ≤ id ∧ id ≤ 0xa6) then some .other
  else none

/-- The match of the compute decoder's loop. -/
def computeKind (id : UInt32) : Option RecordKind :=
  if id ∈ [0xc8, 0xc9, 0xca, 0xe6] then some .work
  else if id = 0xd0 then some .pipeline
  else if (0xcb ≤ id ∧ id ≤ 0xe5 ∧ id ≠ setDispatchType) ∨ id = 0x86 ∨ id = 0x87 then some .other
  else none

/-- The match of the blit decoder's loop. -/
def blitKind (id : UInt32) : Option RecordKind := if 300 ≤ id ∧ id ≤ 323 then some .other else none

variable (g : Guest) (d : ℕ)

/-! ### The decoders -/

/-- `pass_prefix`: records are taken up to the one that describes the pass. -/
def passPrefixLoop : ℕ → Cursor → Decoding Cursor
  | 0, segment => pure segment
  | fuel + 1, segment => do
    let memory ← answer g.memory
    let taken ← framed (passRecord memory segment)
    match taken.1 with
    | none => pure taken.2
    | some record =>
      if record.1.commandId = describeRenderPass then do
        platform (g.record · record.1.commandId)
        pure taken.2
      else if record.1.commandId ∈ prefixCommands then do
        platform (g.record · record.1.commandId)
        passPrefixLoop fuel taken.2
      else raise (.frame (.unexpectedPassCommand record.1.commandId))

/-- The pass of a segment that does not continue the one before. -/
def freshRenderPass (segment : Cursor) : Decoding Cursor := do
  let segment ← passPrefixLoop g (segment.remaining.toNat + 1) segment
  replaceEncoder g d
  pure segment

/-- The compute decoder's: its first record may set the dispatch type. -/
def freshComputePass (segment : Cursor) : Decoding Cursor := do
  let memory ← answer g.memory
  let descriptor ← framed (decodeComputePassDescriptor memory segment)
  replaceEncoder g d
  pure descriptor.2

/-- `decode_segment` of the render and the compute decoder. -/
def decodePassSegment (fresh : Cursor → Decoding Cursor) (kindOf : UInt32 → Option RecordKind)
    (header : SegmentHeader) (segment : Cursor) : Decoding Unit := do
  let segment ← (if header.continuesPrevious = 0 then fresh segment else pure segment)
  requireEncoder d
  decodeRecords g (decodeRecord g d kindOf) segment
  if header.continuedByNext = 0 then endPass g d else pure ()

/-- `decode_segment` of the render decoder. -/
def decodeRenderSegment (header : SegmentHeader) (segment : Cursor) : Decoding Unit :=
  decodePassSegment g d (freshRenderPass g d) renderKind header segment

/-- `decode_segment` of the compute decoder. -/
def decodeComputeSegment (header : SegmentHeader) (segment : Cursor) : Decoding Unit :=
  decodePassSegment g d (freshComputePass g d) computeKind header segment

/-- `decode_records` of the blit decoder, which may have no encoder. -/
def decodeBlitSegment (header : SegmentHeader) (segment : Cursor) : Decoding Unit := do
  decodeRecords g (decodeRecord g d blitKind) segment
  if header.continuedByNext = 0 then endPass g d else pure ()

/-- `decode` of the info decoder. -/
def decodeInfoSegment (segment : Cursor) : Decoding Unit :=
  decodeRecords g (fun id => platform (g.record · id)) segment

/-- The segment through a decoder of its type. -/
def decodeOfType (type : EncoderType) (header : SegmentHeader) (segment : Cursor) : Decoding Unit :=
  match type with
  | .render => decodeRenderSegment g d header segment
  | .compute => decodeComputeSegment g d header segment
  | .blit => decodeBlitSegment g d header segment
  | .info => decodeInfoSegment g segment

/-- `Decoder::decode`: a raise out of it has faulted the decoder. -/
def decode (header : SegmentHeader) (segment : Cursor) : Decoding Unit := do
  let self ← decoder d
  Effect.cleanup DecodeStop.caught (decodeOfType g d self.encoderType header segment) (fault g d)

/-! ### The walk -/

/-- A decoder made. -/
def push (x : Decoder) : Decoding ℕ :=
  Effect.ask fun w => (w.made, { w.set w.made x with made := w.made + 1 })

/-- `for_segment`: a blit decoder asks for its encoder at once. -/
def forSegment (byte : UInt8) : Decoding ℕ := do
  let type ← Effect.found (EncoderType.ofByte byte) (.raised (.encoderType byte))
  let encoder ← (if type = .blit then newEncoder g else pure none)
  push { encoderType := type, encoder }

/-- The type of the decoder carried, 0 where there is none. -/
def carriedType : Option ℕ → Decoding UInt8
  | none => pure 0
  | some d => do
    let self ← decoder d
    pure self.encoderType.byte

/-- The decoder of a segment: the one carried into it, whatever its type where the segment does not
continue the one before, or a new one. -/
def decoderFor (carried : Option ℕ) (header : SegmentHeader) : Decoding ℕ :=
  if header.continuesPrevious ≠ 0 then do
    let byte ← carriedType carried
    Effect.require (header.encoderType = byte) (.raised (.continuationType header.encoderType byte))
    Effect.found carried (.raised .continuationMissing)
  else
    match carried with
    | some d => pure d
    | none => forSegment g header.encoderType

/-- A read whose refusal is none. -/
def tryRead (c : Cursor) (bytes : UInt64) : Decoding (Option (List UInt8 × Cursor)) := do
  let memory ← answer g.memory
  match c.readBytes memory bytes with
  | .error death => Effect.stop (.cursor death)
  | .ok (.error _, _) => pure none
  | .ok (.ok bytes, c) => pure (some (bytes, c))

/-- `set_protection_options`, where there is a command buffer. -/
def setProtectionOptions (options : List UInt8) : Decoding Unit :=
  if g.commandBuffer then platform (g.setProtectionOptions · options) else pure ()

/-- An envelope's header and what follows it, none where it is too short: the protection options are
set where only its header is missing. -/
def openEnvelope (header : SegmentHeader) (segment : Cursor) :
    Decoding (Option (SegmentHeader × Cursor)) :=
  if header.encoderType = envelope then do
    match ← tryRead g segment 8 with
    | none => pure none
    | some options => do
      setProtectionOptions g options.1
      match ← tryRead g options.2 8 with
      | none => pure none
      | some inner => pure (some (SegmentHeader.ofBytes inner.1, inner.2))
  else pure (some (header, segment))

/-- `decode_segment`: the decoder to carry into the next. -/
def decodeSegment (carried : Option ℕ) (header : SegmentHeader) (segment : Cursor) :
    Decoding (Option ℕ) := do
  match ← openEnvelope g header segment with
  | none =>
    Effect.ask fun w => (none, { w with letGo := w.letGo ++ carried.toList })
  | some opened => do
    let d ← decoderFor g carried opened.1
    decode g d opened.1 opened.2
    pure (if opened.1.continuedByNext ≠ 0 then some d else none)

/-- One turn of the walk: a segment shorter than its header is skipped. -/
def walkSegment (carried : Option ℕ) (segment : Cursor) : Decoding (Option ℕ) := do
  match ← tryRead g segment 8 with
  | none => pure carried
  | some read =>
    match read.2.truncateTo (SegmentHeader.ofBytes read.1).length.toUInt64 with
    | (.error error, _) => raise (.frame (.segmentLength error))
    | (.ok _, segment) => decodeSegment g carried (SegmentHeader.ofBytes read.1) segment

/-- The fault of the decoder carried into a segment that raised. -/
def faultCarried : Option ℕ → Decoding Unit
  | none => pure ()
  | some d => fault g d

/-- `decode_segments`: the decoder still carried at the end. -/
def decodeSegments : List (Option Cursor) → Option ℕ → Decoding (Option ℕ)
  | [], carried => pure carried
  | none :: _, _ => Effect.stop .nullSegment
  | some segment :: rest, carried => do
    let next ← Effect.cleanup DecodeStop.caught (walkSegment g carried segment) (faultCarried g carried)
    decodeSegments rest next

end ReimsVgpu.Deserializer
