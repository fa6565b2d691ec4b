import ReimsVgpu.Predication.Bindings

/-!
# Encoding a unit of compute encoders

The adapter encodes a unit's records into a flat sequence: setters and work as they come, the
records of blocks as steps on the command buffer's skip counter, work inside a block that can skip
as its indirect form, with a step that writes its arguments. A loop's body is logged as the guest
sends it, and encoded again from the log at the loop's end, a fixed number of times.

The names of blocks, the residency lists, barriers and fences, and the deaths of writes into memory
the GPU does not reach are left out, as is the death of a unit's first indirect dispatch in an
encoder of another dispatch type.

## Main definitions

* `Step`, `Work`, `Flat`: the steps, the work, and the sequence encoded.
* `ComputeUnit`: the state of a unit, with its functions under the source's names.
* `encode`, `replay`: the encoding of a record, and of a range of the log.
-/

namespace ReimsVgpu.Predication

/-! ### Steps -/

/-- `UNROLL`: the iterations laid down of a loop that is inside no other. -/
def unroll : ℕ := 64

/-- `NESTED_UNROLL`: the iterations laid down of a loop inside another. -/
def nestedUnroll : ℕ := 16

/-- `LOOP_DEPTH`: how many loops a loop may be inside. -/
def loopDepth : ℕ := 1

/-- `FLAGS`: the loops one command buffer can flag. -/
def maxFlags : ℕ := 1023

/-- What a step does. -/
inductive StepOp
  | startIf
  | startElse
  | endBlock
  | enter
  | check
  | overrun
  | args
  | guestArgs
  deriving DecidableEq, Repr

/-- A step; its `count` of arguments is the length of `args`. -/
structure Step where
  op : StepOp
  reset : Bool := false
  comparison : UInt32 := 0
  reference : UInt32 := 0
  flag : ℕ := 0
  mask : UInt32 := 0
  args : List UInt32 := []
  deriving DecidableEq, Repr

/-- Why an encoding ends the process. -/
inductive Death
  | conditionPastBuffer
  | argumentsPastBuffer
  | rangePastCommands
  | loopInsideTwo
  | tooManyLoops
  | secondElse
  | elseInLoop
  | nilEndDoWhile
  | emptiedAfterWork
  | bodyPastLog
  | endWithoutLoop
  | whileWithoutCondition
  deriving DecidableEq, Repr

/-- What the adapter reads of the device: a buffer's length, an indirect command buffer's size, a
pipeline's most threads in a threadgroup, and its own objects. -/
structure Device where
  bufferLength : Id → UInt64
  icbSize : Id → UInt64
  maxTotalThreadsPerThreadgroup : Id → UInt32
  kernel : Id
  state : Id
  chunk : ℕ → Id

/-- A condition: the guest's word and how it is compared. -/
structure Cond where
  buffer : Id
  word : UInt64
  comparison : UInt32
  reference : UInt32
  deriving DecidableEq, Repr

/-- The condition of a record; a word past the buffer's end dies. -/
def Cond.new (device : Device) (buffer : Id) (offset comparison : UInt64) (reference : UInt32) :
    Except Death Cond :=
  let word := offset &&& ~~~3
  if (device.bufferLength buffer).toNat < word.toNat + 4 then .error .conditionPastBuffer
  else .ok
    { buffer := buffer
      word := word
      comparison := if comparison ≤ 5 then comparison.toUInt32 else 0
      reference := reference }

/-! ### Work -/

structure MtlSize where
  width : UInt64
  height : UInt64
  depth : UInt64
  deriving DecidableEq, Repr

/-- Each axis modulo `2^32`. -/
def axes (s : MtlSize) : List UInt32 := [s.width.toUInt32, s.height.toUInt32, s.depth.toUInt32]

/-- A dispatch or an indirect command buffer execution. -/
inductive Work
  | threadgroups (groups threads : MtlSize)
  | threadgroupsIndirect (buffer : Id) (offset : UInt64) (threads : MtlSize)
  | threads (threads perGroup : MtlSize)
  | threadsIndirect (buffer : Id) (offset : UInt64)
  | execute (icb : Id) (start stop : UInt64)
  | executeIndirect (icb buffer : Id) (offset : UInt64)
  deriving DecidableEq, Repr

/-- What of a work its indirect form is sent with, its arguments apart. -/
inductive Form
  | threadgroups (threads : MtlSize)
  | threads
  | execute (icb : Id)
  deriving DecidableEq, Repr

namespace Work

/-- The indirect form. -/
def form : Work → Form
  | .threadgroups _ size => .threadgroups size
  | .threadgroupsIndirect _ _ size => .threadgroups size
  | .threads _ _ => .threads
  | .threadsIndirect _ _ => .threads
  | .execute icb _ _ => .execute icb
  | .executeIndirect icb _ _ => .execute icb

/-- The threadgroup a dispatch is sent with. -/
def group : Work → Option MtlSize
  | .threadgroups _ size => some size
  | .threadgroupsIndirect _ _ size => some size
  | .threads _ perGroup => some perGroup
  | _ => none

/-- Whether the runtime takes the direct form as running nothing, or refuses it: a threadgroup of no
threads, of more than the pipeline's most, or whose axes past 32 bits change its size. -/
def directOnly (device : Device) (pipeline : Option Id) (w : Work) : Bool :=
  match pipeline, w.group with
  | some p, some g =>
    let total := g.width * g.height * g.depth
    total == 0 || decide ((device.maxTotalThreadsPerThreadgroup p).toNat < total.toNat) ||
      decide (((axes g).map UInt32.toNat).prod ≠ total.toNat)
  | _, _ => false

/-- An execution of no command. -/
def emptyRange : Work → Bool
  | .execute _ start stop => decide (stop ≤ start)
  | _ => false

end Work

/-- The words of the arguments that are 0 while skipped. -/
def Form.mask : Form → UInt32
  | .threadgroups _ => 0b111
  | .threads => 0b111
  | .execute _ => 0b10

/-- Where `length` bytes of arguments are read in a buffer; a dispatch's offset is rounded down. -/
def argumentsIn (device : Device) (buffer : Id) (offset : UInt64) (length : ℕ) (rounds : Bool) :
    Except Death UInt64 :=
  let start := if rounds then offset &&& ~~~3 else offset
  if start.toNat % 4 ≠ 0 ∨ (device.bufferLength buffer).toNat < start.toNat + length then
    .error .argumentsPastBuffer
  else .ok start

/-- The step that writes the indirect form's arguments, with the guest's buffer it reads. -/
def Work.arguments (device : Device) (w : Work) : Except Death (Step × Option (Id × UInt64)) :=
  match w with
  | .threadgroups groups _ => .ok ({ op := .args, args := axes groups, mask := 0b111 }, none)
  | .threads grid perGroup =>
    .ok ({ op := .args, args := axes grid ++ axes perGroup, mask := 0b111 }, none)
  | .threadgroupsIndirect buffer offset _ => do
    let start ← argumentsIn device buffer offset 12 true
    .ok ({ op := .guestArgs, args := List.replicate 3 0, mask := 0b111 }, some (buffer, start))
  | .threadsIndirect buffer offset => do
    let start ← argumentsIn device buffer offset 24 true
    .ok ({ op := .guestArgs, args := List.replicate 6 0, mask := 0b111 }, some (buffer, start))
  | .execute icb start stop =>
    if 2 ^ 32 ≤ start.toNat ∨ 2 ^ 32 ≤ stop.toNat - start.toNat ∨
        (device.icbSize icb).toNat < stop.toNat then
      .error .rangePastCommands
    else
      .ok ({ op := .args
             args := [start.toUInt32, UInt32.ofNat (stop.toNat - start.toNat)]
             mask := 0b10 }, none)
  | .executeIndirect _ buffer offset => do
    let start ← argumentsIn device buffer offset 8 false
    .ok ({ op := .guestArgs, args := List.replicate 2 0, mask := 0b10 }, some (buffer, start))

/-- What the adapter encodes: a numbered step with the guest's words it reads, work as it is, and
work in its indirect form, its arguments those of a step; work with what the runtime's encoder
holds. -/
inductive Flat
  | step (number : ℕ) (step : Step) (guest : Option (Id × UInt64))
  | direct (work : Work) (view : View)
  | indirect (work : Work) (number : ℕ) (view : View)

/-! ### Records -/

/-- The commands core sends an encoder. -/
inductive Cmd
  | set (s : Setter)
  | work (w : Work)
  | startIf (buffer : Option Id) (offset comparison : UInt64) (reference : UInt32)
  | startElse
  | startWhile (buffer : Option Id) (offset comparison : UInt64) (reference : UInt32)
  | startDoWhile
  deriving DecidableEq, Repr

/-- What the guest sends a unit, and what an open loop's log holds of it: `encoder` is the open
encoder's end and another's opening. -/
inductive Logged
  | cmd (c : Cmd)
  | endIf
  | endWhile
  | endDoWhile (buffer : Option Id) (offset comparison : UInt64) (reference : UInt32)
  | encoder
  deriving DecidableEq, Repr

/-- What a loop's end lays down its body again with. -/
structure Loop where
  body : ℕ
  start : Bindings
  flag : ℕ
  unroll : ℕ
  cond : Option Cond

inductive Kind
  | ifBlock (orelse : Bool)
  | whileLoop (l : Loop)
  | doWhile (l : Loop)

/-- An open block; its work is predicated where the counter may be above 0 inside it. -/
structure Frame where
  kind : Kind
  predicated : Bool

def Frame.isLoop (f : Frame) : Bool :=
  match f.kind with
  | .ifBlock _ => false
  | _ => true

/-- The state of a unit of compute encoders: its open blocks, innermost first, the log of the open
loops' bodies with the entry being encoded again, the open encoder's bindings and what the runtime's
holds, and what is encoded. `loops` and `steps` count the command buffer's flagged loops and its
steps. -/
structure ComputeUnit where
  stack : List Frame := []
  emptied : Bool := false
  work : Bool := false
  stepped : Bool := false
  log : List Logged := []
  cursor : Option ℕ := none
  flags : ℕ → Option ℕ := fun _ => none
  bindings : Bindings := {}
  foreign : Bool := false
  runtime : View := {}
  loops : ℕ := 0
  steps : ℕ := 0
  out : List Flat := []

namespace ComputeUnit

/-- Whether work sent now is predicated. -/
def predicated (u : ComputeUnit) : Bool :=
  match u.stack with
  | [] => false
  | f :: _ => f.predicated

/-- The open loops. -/
def loopCount (u : ComputeUnit) : ℕ := (u.stack.filter Frame.isLoop).length

/-- Whether what the guest sends now goes into the log. -/
def recording (u : ComputeUnit) : Bool :=
  !u.emptied && u.cursor.isNone && decide (0 < u.loopCount)

/-- An unbalanced record: the unit is emptied; after its work it dies. -/
def empty (u : ComputeUnit) : Except Death ComputeUnit :=
  if u.emptied then .ok u
  else if u.work then .error .emptiedAfterWork
  else .ok { u with emptied := true }

/-- After a block closed: with no loop left open, and no body being laid down, the log goes. -/
def closed (u : ComputeUnit) : ComputeUnit :=
  if u.cursor.isNone && u.loopCount == 0 then { u with log := [], flags := fun _ => none } else u

/-- A new loop's flag. -/
def flag (u : ComputeUnit) : Except Death (ComputeUnit × ℕ) :=
  if u.loops = maxFlags then .error .tooManyLoops else .ok ({ u with loops := u.loops + 1 }, u.loops)

/-- The slots a step binds, over the runtime's. -/
def stepBuffers (device : Device) (u : ComputeUnit) (guest : Option (Id × UInt64)) :
    ℕ → Option (Id × UInt64 × UInt64) :=
  let read := guest.getD (device.state, 0)
  Function.update
    (Function.update
      (Function.update u.runtime.buffers 0 (some (device.state, 0, strideStatic)))
      1 (some (device.chunk (u.steps / 512), UInt64.ofNat (u.steps % 512 * 128), strideStatic)))
    2 (some (read.1, read.2, strideStatic))

/-- Encodes a step, then binds the guest's bindings again; the unit's first resets the counter. -/
def step (device : Device) (u : ComputeUnit) (s : Step) (guest : Option (Id × UInt64)) :
    ComputeUnit :=
  let s := if u.stepped then s else { s with reset := true }
  let bound : View :=
    { u.runtime with buffers := u.stepBuffers device guest, pipeline := some device.kernel }
  { u with
    stepped := true
    steps := u.steps + 1
    out := u.out ++ [.step u.steps s guest]
    runtime := restore bound u.bindings u.bindings true
    foreign := u.bindings.pipeline.isNone }

/-- A step that tests a condition. -/
def test (device : Device) (u : ComputeUnit) (op : StepOp) (cond : Cond) : ComputeUnit :=
  u.step device { op := op, comparison := cond.comparison, reference := cond.reference }
    (some (cond.buffer, cond.word))

/-- The overrun step of a loop. -/
def overrun (device : Device) (u : ComputeUnit) (flag : ℕ) : ComputeUnit :=
  u.step device { op := .overrun, flag := flag } none

/-- The runtime encoder's bindings moved to `target`, which the guest's become. -/
def rebind (u : ComputeUnit) (target : Bindings) : ComputeUnit :=
  { u with
    runtime := restore u.runtime u.bindings target false
    foreign :=
      match target.pipeline with
      | some _ => false
      | none => u.foreign || u.bindings.pipeline.isSome
    bindings := target }

/-- A fresh runtime encoder in the open one's place, with the guest's bindings. -/
def refresh (u : ComputeUnit) : ComputeUnit :=
  { u with runtime := restore {} {} u.bindings false, foreign := false }

/-- Another compute encoder: its bindings start empty, and an open loop's body holds the change. -/
def encoder (u : ComputeUnit) : ComputeUnit :=
  { u with
    log := if u.recording then u.log ++ [.encoder] else u.log
    bindings := {}
    foreign := false
    runtime := {} }

/-- Every command, before it is encoded: the bindings it sets, and the log of an open loop's
body. -/
def observe (u : ComputeUnit) (c : Cmd) : ComputeUnit :=
  { u with
    foreign :=
      match c with
      | .set (.computePipelineState _) => false
      | _ => u.foreign
    log := if u.recording then u.log ++ [.cmd c] else u.log
    bindings :=
      match c with
      | .set s => u.bindings.apply s
      | _ => u.bindings }

/-- A piece of work. -/
def sendWork (device : Device) (u : ComputeUnit) (w : Work) : Except Death ComputeUnit :=
  if u.emptied then .ok u
  else
    let u := if u.foreign && u.bindings.pipeline.isNone then u.refresh else u
    if w.emptyRange || w.directOnly device u.bindings.pipeline then
      .ok { u with out := u.out ++ [.direct w u.runtime] }
    else
      let u := { u with work := true }
      if !u.predicated then .ok { u with out := u.out ++ [.direct w u.runtime] }
      else do
        let (s, guest) ← w.arguments device
        let number := u.steps
        let u := u.step device s guest
        .ok { u with out := u.out ++ [.indirect w number u.runtime] }

/-- `encodeStartIf:offset:comparison:referenceValue:`. -/
def startIf (device : Device) (u : ComputeUnit) (buffer : Option Id) (offset comparison : UInt64)
    (reference : UInt32) : Except Death ComputeUnit :=
  match buffer with
  | none => u.empty
  | some buffer => do
    let cond ← Cond.new device buffer offset comparison reference
    let u := { u with stack := ⟨.ifBlock false, true⟩ :: u.stack }
    .ok (if u.emptied then u else u.test device .startIf cond)

/-- `encodeStartElse`. -/
def startElse (device : Device) (u : ComputeUnit) : Except Death ComputeUnit :=
  match u.stack with
  | ⟨.ifBlock orelse, predicated⟩ :: rest =>
    if orelse && !u.emptied then .error .secondElse
    else
      let u := { u with stack := ⟨.ifBlock true, predicated⟩ :: rest }
      .ok (if u.emptied then u else u.step device { op := .startElse } none)
  | _ :: _ => if u.emptied then .ok u else .error .elseInLoop
  | [] => u.empty

/-- `encodeEndIf`, with its answer. -/
def endIf (device : Device) (u : ComputeUnit) : Except Death (ComputeUnit × Bool) :=
  let u := if u.recording then { u with log := u.log ++ [.endIf] } else u
  match u.stack with
  | ⟨.ifBlock _, _⟩ :: rest =>
    let u := { u with stack := rest }
    let u := if u.emptied then u else u.step device { op := .endBlock } none
    .ok (u.closed, true)
  | _ => do
    let u ← u.empty
    .ok (u, false)

/-- A loop's body in the log, and its flag. -/
def bodyAndFlag (u : ComputeUnit) (logged : Bool) : Except Death (ComputeUnit × ℕ × ℕ) :=
  match u.cursor with
  | some entry => .ok (u, entry + 1, (u.flags entry).getD 0)
  | none =>
    if u.emptied then .ok (u, u.log.length, 0)
    else do
      let (u, flag) ← u.flag
      let u := if logged then { u with
        flags := Function.update u.flags (u.log.length - 1) (some flag) } else u
      .ok (u, u.log.length, flag)

/-- A loop's start, a While's with its condition. -/
def startLoop (device : Device) (u : ComputeUnit) (cond : Option Cond) :
    Except Death ComputeUnit :=
  if u.loopCount > loopDepth then .error .loopInsideTwo
  else do
    let unroll := if u.loopCount = 0 then unroll else nestedUnroll
    let outer := u.predicated
    let logged := u.recording
    let u := if u.cursor.isNone && !logged then { u with log := [], flags := fun _ => none } else u
    let (u, body, flag) ← u.bodyAndFlag logged
    let l : Loop := { body := body, start := u.bindings, flag := flag, unroll := unroll, cond := cond }
    let u := if !u.emptied && outer then u.step device { op := .enter } none else u
    match cond with
    | some cond =>
      let u := if u.emptied then u else u.test device .check cond
      .ok { u with stack := ⟨.whileLoop l, true⟩ :: u.stack }
    | none => .ok { u with stack := ⟨.doWhile l, outer⟩ :: u.stack }

/-- `encodeStartWhile:offset:comparison:referenceValue:`. -/
def startWhile (device : Device) (u : ComputeUnit) (buffer : Option Id)
    (offset comparison : UInt64) (reference : UInt32) : Except Death ComputeUnit :=
  match buffer with
  | none => u.empty
  | some buffer => do
    let cond ← Cond.new device buffer offset comparison reference
    u.startLoop device (some cond)

/-- `encodeStartDoWhile`. -/
def startDoWhile (device : Device) (u : ComputeUnit) : Except Death ComputeUnit :=
  u.startLoop device none

/-- A command, encoded. -/
def command (device : Device) (u : ComputeUnit) (c : Cmd) : Except Death ComputeUnit :=
  let u := u.observe c
  match c with
  | .set s => .ok { u with runtime := u.runtime.set s }
  | .work w => u.sendWork device w
  | .startIf buffer offset comparison reference =>
    u.startIf device buffer offset comparison reference
  | .startElse => u.startElse device
  | .startWhile buffer offset comparison reference =>
    u.startWhile device buffer offset comparison reference
  | .startDoWhile => u.startDoWhile device

/-! ### Loops laid down -/

section LayDown

variable (device : Device) (replay : ComputeUnit → ℕ → ℕ → Except Death ComputeUnit)

/-- So many more copies of a loop's body, each from the bindings the loop started with and, for a
While, after its condition's test; a DoWhile's follows each copy. -/
def layCopies (start : Bindings) (body stop : ℕ) (cond : Cond) (beforeEach : Bool) :
    ℕ → ComputeUnit → Except Death ComputeUnit
  | 0, u => .ok u
  | n + 1, u => do
    let u := u.rebind start
    let u := if beforeEach then u.test device .check cond else u
    let u ← replay u body stop
    let u := if beforeEach then u else u.test device .check cond
    layCopies start body stop cond beforeEach n u

/-- The rest of the innermost loop, laid down at its end. -/
def layDown (u : ComputeUnit) (stop : ℕ) (cond : Cond) (beforeEach : Bool) :
    Except Death ComputeUnit :=
  let lay (l : Loop) (kind : Kind) (rest : List Frame) : Except Death ComputeUnit := do
    let u := { u with stack := ⟨kind, true⟩ :: rest }
    let u ← layCopies device replay l.start l.body stop cond beforeEach (l.unroll - 1) u
    let u := if beforeEach then u.test device .check cond else u
    let u := u.overrun device l.flag
    let u := u.step device { op := .endBlock } none
    .ok { u with stack := u.stack.tail }.closed
  match u.stack with
  | ⟨.whileLoop l, _⟩ :: rest => lay l (.whileLoop l) rest
  | ⟨.doWhile l, _⟩ :: rest => lay l (.doWhile l) rest
  | _ => .error .endWithoutLoop

/-- `encodeEndWhile`, with its answer. -/
def endWhile (u : ComputeUnit) : Except Death (ComputeUnit × Bool) :=
  let stop := u.cursor.getD u.log.length
  let u := if u.recording then { u with log := u.log ++ [.endWhile] } else u
  match u.stack with
  | ⟨.whileLoop l, _⟩ :: rest =>
    if u.emptied then .ok ({ u with stack := rest }.closed, true)
    else
      match l.cond with
      | none => .error .whileWithoutCondition
      | some cond => do
        let u ← layDown device replay u stop cond true
        .ok (u, true)
  | _ => do
    let u ← u.empty
    .ok (u, false)

/-- `encodeEndDoWhile:offset:comparison:referenceValue:`, with its answer. -/
def endDoWhile (u : ComputeUnit) (buffer : Option Id) (offset comparison : UInt64)
    (reference : UInt32) : Except Death (ComputeUnit × Bool) :=
  let stop := u.cursor.getD u.log.length
  let log := if u.recording then u.log ++ [.endDoWhile buffer offset comparison reference] else u.log
  match u.stack with
  | ⟨.doWhile _, _⟩ :: rest =>
    match buffer with
    | none =>
      if u.emptied then .ok ({ u with log := log, stack := rest }.closed, true)
      else .error .nilEndDoWhile
    | some buffer =>
      let u := { u with log := log }
      if u.emptied then .ok ({ u with stack := rest }.closed, true)
      else do
        let cond ← Cond.new device buffer offset comparison reference
        let u := u.test device .check cond
        let u ← layDown device replay u stop cond false
        .ok (u, true)
  | _ => do
    let u ← { u with log := log }.empty
    .ok (u, false)

/-- A record of the guest's, encoded. -/
def encodeWith (u : ComputeUnit) : Logged → Except Death ComputeUnit
  | .cmd c => u.command device c
  | .endIf => do
    let (u, _) ← u.endIf device
    .ok u
  | .endWhile => do
    let (u, _) ← endWhile device replay u
    .ok u
  | .endDoWhile buffer offset comparison reference => do
    let (u, _) ← endDoWhile device replay u buffer offset comparison reference
    .ok u
  | .encoder => .ok u.encoder

end LayDown

/-- One entry of the log, encoded again. -/
def replayEntry (encode : ComputeUnit → Logged → Except Death ComputeUnit) (u : ComputeUnit)
    (entry : ℕ) : Except Death ComputeUnit :=
  match u.log[entry]? with
  | none => .error .bodyPastLog
  | some logged => do
    let before := u.cursor
    let u := { u with cursor := some entry }
    let u ←
      match logged with
      | .encoder => .ok (u.rebind {})
      | logged => encode u logged
    .ok { u with cursor := before }

/-- The log's entries from `body` up to `stop`, encoded again. -/
def replayWith (encode : ComputeUnit → Logged → Except Death ComputeUnit) (u : ComputeUnit)
    (body stop : ℕ) : Except Death ComputeUnit :=
  (List.range' body (stop - body)).foldlM (replayEntry encode) u

/-- A record encoded, where at most `depth` loops are open or opened below it. -/
def encode (device : Device) : ℕ → ComputeUnit → Logged → Except Death ComputeUnit
  | 0 => encodeWith device fun _ _ _ => .error .loopInsideTwo
  | depth + 1 => encodeWith device (replayWith (encode device depth))

/-- The records of a unit, encoded. -/
def encodeAll (device : Device) (depth : ℕ) (u : ComputeUnit) (records : List Logged) :
    Except Death ComputeUnit :=
  records.foldlM (encode device depth) u

end ComputeUnit

end ReimsVgpu.Predication
