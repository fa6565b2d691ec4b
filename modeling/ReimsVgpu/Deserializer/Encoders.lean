import ReimsVgpu.Deserializer.Framing
import ReimsVgpu.Library.EffectHistory

/-!
# Decoders and their encoders

A decoder turns the records of its segments into commands on one encoder of the exec's command buffer.
It reads guest memory, which the guest may write between any two reads, and it asks the platform for
encoders and each send for whether it raised. What guest and platform answer is a function of the time,
which goes on by one with each answer.

Of a record's handler the model has what it does to the encoder and the pipeline. What else it reads,
looks up and checks comes to the answer `record`: it goes on, it raises, or the process dies. The four
decoders are one record of their fields; a blit decoder has no pipeline, an info decoder no encoder either.

## Main definitions

* `Guest`: what the decoders are answered.
* `Command`, `Event`: what they send.
* `DecodeRaise`, `DecodeStop`: how a decode ends early.
* `Decoder`, `Desk`, `Decoding`: the decoders made, and their programs.
* `send`, `replaceEncoder`, `setPipeline`, `endPass`, `fault`, `decodeRecords`.
-/

namespace ReimsVgpu.Deserializer

open Memory

/-! ### What they send -/

/-- A command on an encoder, of which only the pipeline state and the end are told apart from those that
run the pipeline and the others; the record's id stands for their arguments. -/
inductive Command where
  | setPipelineState (state : Option ℕ)
  | work (id : UInt32)
  | other (id : UInt32)
  | endEncoding
  deriving DecidableEq

/-- The command ends its encoder. -/
def Command.ends : Command → Bool
  | endEncoding => true
  | _ => false

/-- The pipeline state that the command sets, which may be nil. -/
def Command.pipeline : Command → Option (Option ℕ)
  | setPipelineState state => some state
  | _ => none

/-- The command runs the pipeline. -/
def Command.isWork : Command → Bool
  | work _ => true
  | _ => false

/-- A decoder's send to its encoder, which the encoder took or raised at. -/
structure Event where
  decoder : ℕ
  encoder : ℕ
  command : Command
  took : Bool
  deriving DecidableEq

/-! ### How a decode ends early -/

/-- What a decode raises; those of the records' own checks, and the platform's, are told by a number. -/
inductive DecodeRaise where
  | frame (raise : FrameRaise)
  | continuationType (encoderType carriedType : UInt8)
  | continuationMissing
  | encoderType (encoderType : UInt8)
  | unrecognizedCommand (id : UInt32)
  | noEncoder
  | noPipeline
  | other (number : ℕ)

/-- A decode stops at a raise, which is caught, or where the process dies. -/
inductive DecodeStop where
  | raised (raise : DecodeRaise)
  | cursor (death : CursorDeath)
  | nullSegment

/-- A raise is caught. -/
def DecodeStop.caught : DecodeStop → Bool
  | raised _ => true
  | cursor _ | nullSegment => false

/-- The guest's memory and what the platform answers, at each time. The caller's command buffer may be
none. -/
structure Guest where
  memory : ℕ → HostMemory
  commandBuffer : Bool
  newEncoder : ℕ → Except DecodeStop Bool
  setProtectionOptions : ℕ → List UInt8 → Except DecodeStop Unit
  encode : ℕ → Except DecodeStop Unit
  record : ℕ → UInt32 → Except DecodeStop Unit
  pipelineState : ℕ → UInt32 → Except DecodeStop (Option ℕ)

/-! ### The decoders made -/

/-- The decoders' types. -/
inductive EncoderType where
  | render
  | compute
  | blit
  | info
  deriving DecidableEq, Repr

/-- `Decoder::encoder_type`. -/
def EncoderType.byte : EncoderType → UInt8
  | render => 0
  | compute => 1
  | blit => 2
  | info => 4

/-- The match of `for_segment`. -/
def EncoderType.ofByte (byte : UInt8) : Option EncoderType :=
  if byte = 0 then some .render
  else if byte = 1 then some .compute
  else if byte = 2 then some .blit
  else if byte = 4 then some .info
  else none

/-- A decoder. Encoders are numbered in the order they are made. -/
structure Decoder where
  encoderType : EncoderType := .info
  encoder : Option ℕ := none
  pipeline : Option ℕ := none

/-- The walk's decoders, numbered in the order they are made, and what has been made. Encoders that
were replaced open are `kept` for good, and the decoders that an envelope let go are `letGo`. -/
structure Desk where
  time : ℕ := 0
  decoders : ℕ → Decoder := fun _ => {}
  made : ℕ := 0
  encoders : ℕ := 0
  kept : List ℕ := []
  letGo : List ℕ := []

/-- The program of a decode. -/
abbrev Decoding := Effect Desk Event DecodeStop

/-- The desk after a decoder has changed. -/
def Desk.set (w : Desk) (d : ℕ) (x : Decoder) : Desk :=
  { w with decoders := Function.update w.decoders d x }

/-- What the guest or the platform answers now. -/
def answer {α : Type} (f : ℕ → α) : Decoding α :=
  Effect.ask fun w => (f w.time, { w with time := w.time + 1 })

/-- The decoder as it is. -/
def decoder (d : ℕ) : Decoding Decoder := Effect.ask fun w => (w.decoders d, w)

def raise {α : Type} (r : DecodeRaise) : Decoding α := Effect.stop (.raised r)

/-- What the platform answers, or where that stops the decode. -/
def platform {α : Type} (f : ℕ → Except DecodeStop α) : Decoding α := do
  match ← answer f with
  | .ok a => pure a
  | .error stop => Effect.stop stop

/-- What a framer answers. -/
def framed {α : Type} : Except CursorDeath (Except FrameRaise α × Cursor) → Decoding (α × Cursor)
  | .error death => Effect.stop (.cursor death)
  | .ok (.error frameRaise, _) => raise (.frame frameRaise)
  | .ok (.ok a, c) => pure (a, c)

variable (g : Guest)

/-- `send`. -/
def send (d : ℕ) (command : Command) : Decoding Unit := do
  let self ← decoder d
  match self.encoder with
  | none => pure ()
  | some e =>
    match ← answer g.encode with
    | .ok () => Effect.log ⟨d, e, command, true⟩
    | .error stop => do
      Effect.log ⟨d, e, command, false⟩
      Effect.stop stop

/-- A decoder's encoder from the command buffer, which may answer none. -/
def newEncoder : Decoding (Option ℕ) :=
  if g.commandBuffer then do
    if ← platform g.newEncoder then
      Effect.ask fun w => (some w.encoders, { w with encoders := w.encoders + 1 })
    else pure none
  else pure none

/-- A new segment's encoder, in place of the decoder's. An old one is kept for good, open. -/
def replaceEncoder (d : ℕ) : Decoding Unit := do
  let encoder ← newEncoder g
  Effect.ask fun w => ((),
    { w.set d { w.decoders d with encoder } with
      kept := w.kept ++ (w.decoders d).encoder.toList })

/-- The send of a pipeline state, which the decoder then holds. -/
def setPipeline (d : ℕ) (state : Option ℕ) : Decoding Unit := do
  send g d (.setPipelineState state)
  Effect.ask fun w => ((), w.set d { w.decoders d with pipeline := state })

/-- A decoder that has no encoder refuses its segment. -/
def requireEncoder (d : ℕ) : Decoding Unit := do
  let self ← decoder d
  Effect.require (self.encoder ≠ none) (.raised .noEncoder)

/-- `require_pipeline`, `check_draw_pipeline` and `check_dispatch_pipeline`. -/
def requirePipeline (d : ℕ) : Decoding Unit := do
  let self ← decoder d
  Effect.require (self.pipeline ≠ none) (.raised .noPipeline)

/-- The end of a pass: the encoder is ended, and stays held. -/
def endPass (d : ℕ) : Decoding Unit := do
  send g d .endEncoding
  Effect.ask fun w => ((), w.set d { w.decoders d with pipeline := none })

/-- `fault`. -/
def fault (d : ℕ) : Decoding Unit := do
  let self ← decoder d
  if self.encoderType = .info then pure ()
  else do
    send g d .endEncoding
    Effect.ask fun w => ((), w.set d { w.decoders d with encoder := none, pipeline := none })

/-! ### Records -/

/-- What a record's handler does: it runs the pipeline, sets it, sends another command, or only reads. -/
inductive RecordKind where
  | work
  | pipeline
  | other
  | silent

/-- A record, of a decoder whose records are of these kinds. What it reads precedes the check of the
pipeline, and lookups follow it. -/
def decodeRecord (d : ℕ) (kindOf : UInt32 → Option RecordKind) (id : UInt32) : Decoding Unit := do
  let kind ← Effect.found (kindOf id) (.raised (.unrecognizedCommand id))
  match kind with
  | .work => do
    platform (g.record · id)
    requirePipeline d
    platform (g.record · id)
    send g d (.work id)
  | .pipeline => do
    let state ← platform (g.pipelineState · id)
    setPipeline g d state
  | .other => do
    platform (g.record · id)
    send g d (.other id)
  | .silent => platform (g.record · id)

/-- The loop of `next_record` over a segment; each turn takes at least a header's bytes. -/
def recordLoop (handle : UInt32 → Decoding Unit) : ℕ → Cursor → Decoding Unit
  | 0, _ => pure ()
  | fuel + 1, segment => do
    let memory ← answer g.memory
    let taken ← framed (nextRecord memory segment)
    match taken.1 with
    | none => pure ()
    | some record => do
      handle record.1.commandId
      recordLoop handle fuel taken.2

/-- The records of a segment. -/
def decodeRecords (handle : UInt32 → Decoding Unit) (segment : Cursor) : Decoding Unit :=
  recordLoop g handle (segment.remaining.toNat + 1) segment

end ReimsVgpu.Deserializer
