import Mathlib.Logic.Function.Basic
import ReimsVgpu.Library.Execution

/-!
# Executions of indirect command buffers checked at their commit

A commit reads the records of each indirect command buffer that its command buffer executes for a
death, unless a write of them on the GPU was encoded before; a write dies where a committed command
buffer that has not ended executes them as its commit read them. The two look at each other through
two atomics and no common lock: each access of an atomic and each hold of the registry's lock is one
step of a thread.

Beside the state of the code, the world counts the writes of each buffer that returned, and keeps with
each read of a commit the count at that read: no step reads them.

## Main definitions

* `Command`, `IcbExecution.scan`: the commands that a commit reads, and what it makes of them.
* `Op`, `Thread`, `World`, `World.Step`: the threads' steps.
* `World.Unwritten`: no write returned since a commit read what its command buffer still executes.
* `World.Guarded`: a write stores its mark while no commit counts as a reader or is about to.
-/

namespace ReimsVgpu.Gpu.Executions

/-! ### The commands of a buffer -/

inductive PrimitiveType
  | point
  | line
  | lineStrip
  | triangle
  | triangleStrip
deriving DecidableEq

inductive IndirectDraw
  | primitives (primitiveType : PrimitiveType) (vertexCount instanceCount : ℕ)
  | indexedPrimitives (primitiveType : PrimitiveType) (indexCount instanceCount : ℕ)
  | patches

/-- A draw of points, of some vertices or indices and instances. -/
def IndirectDraw.pointsDrawn : IndirectDraw → Bool
  | primitives .point vertexCount instanceCount => vertexCount ≠ 0 && instanceCount ≠ 0
  | indexedPrimitives .point indexCount instanceCount => indexCount ≠ 0 && instanceCount ≠ 0
  | _ => false

/-- A live pipeline state: whether it can encode indirect commands, and whether Metal sizes its
points. -/
structure PipelineState where
  uniqueIdentifier : ℕ
  canEncodeIndirectCommands : Bool
  pointsSized : Option Bool

/-- The state that a record names: its ID, the live state of that ID, and the identifier that the
record answers. -/
structure Named where
  pipelineId : Option ℕ
  pipeline : Option PipelineState
  pipelineUniqueIdentifier : Option ℕ

/-- The live state of the ID, where it is the one that the record names. -/
def Named.state (n : Named) : Option PipelineState :=
  n.pipeline.filter fun s => some s.uniqueIdentifier = n.pipelineUniqueIdentifier

inductive Command
  | compute (dispatch : Bool) (named : Named)
  | render (draw : Option IndirectDraw) (named : Named)

/-- Which states size the points that an execution's commands draw. -/
inductive Points
  | unasked
  | unsized
  | own
deriving DecidableEq

/-- How a call dies. -/
inductive Death
  /-- A draw of points under a state whose points Metal does not size. -/
  | unsizedPoints
  /-- A draw of points under a state released since. -/
  | releasedState
  /-- A command that may encode through an ID that is not the runtime's. -/
  | guestId
  /-- Records that the GPU may have written decide a death. -/
  | undecided
  /-- The execution's own commands may write the records it runs. -/
  | writesItself
  /-- A write may land before commands that a commit checked. -/
  | landsEarly
deriving DecidableEq

/-- An execution that its commit checks, the indirect command buffers named by `ι`. -/
structure IcbExecution (ι : Type*) where
  icb : ι
  guestId : Option ℕ
  points : Points
  writable : List ι

namespace IcbExecution

variable {ι : Type*}

/-- Its commands decide a death. -/
def decides (e : IcbExecution ι) : Bool := e.guestId.isSome || e.points ≠ .unasked

/-- A command under a state, which may encode indirect commands unless it answers that it cannot. -/
def encodes (e : IcbExecution ι) (state : Option PipelineState) : Except Death Bool :=
  let encodes := (state.map PipelineState.canEncodeIndirectCommands) ≠ some false
  if e.guestId.isSome && encodes then .error .guestId else .ok encodes

/-- Whether the command may write records, or how it dies. -/
def scanCommand (e : IcbExecution ι) : Command → Except Death Bool
  | .compute false _ => .ok false
  | .compute true named =>
    if named.pipelineId.isNone then .ok false else e.encodes named.state
  | .render none _ => .ok false
  | .render (some draw) named =>
    if e.points = .unsized && draw.pointsDrawn then .error .unsizedPoints
    else if named.pipelineId.isNone then .ok false
    else if e.points = .own && draw.pointsDrawn then
      match named.state.map PipelineState.pointsSized with
      | some (some true) => e.encodes named.state
      | some (some false) => .error .unsizedPoints
      | some none | none => .error .releasedState
    else e.encodes named.state

/-- Whether any of the commands may write records, or how one dies. -/
def scan (e : IcbExecution ι) : List Command → Except Death Bool
  | [] => .ok false
  | c :: commands => do
    let writes ← e.scanCommand c
    let rest ← e.scan commands
    return writes || rest

end IcbExecution

/-! ### The threads -/

/-- What the commits know of a buffer's records. -/
structure Records where
  written : Bool
  readers : ℕ

/-- The steps that a thread has before it. -/
inductive Op (ι : Type*)
  /-- `records`, in the registry's lock. -/
  | records (icb : ι)
  /-- `gpu_writes`, its load. -/
  | loadReaders (icb : ι)
  /-- `gpu_writes`, its store. -/
  | storeWritten (icb : ι)
  /-- `check`, up to `written`. -/
  | written (e : IcbExecution ι)
  /-- `check`, from the read of the commands on. -/
  | commands (e : IcbExecution ι)
  /-- `check_executions` after its checks, and the commit: the next buffer to count as read. -/
  | count
  /-- `reads`, its add. -/
  | addReader

/-- The steps of `gpu_writes`. -/
def gpuWrites {ι : Type*} (icb : ι) : List (Op ι) :=
  [.records icb, .loadReaders icb, .storeWritten icb]

/-- A thread: what it is to do, the command buffer that it commits, and the buffers that the commit
reads for a death and has not counted, with the writes returned at that read. -/
structure Thread (ι κ : Type*) where
  ops : List (Op ι)
  cb : Option κ
  read : List (ι × ℕ)

/-- A thread in no call. -/
def Thread.idle {ι κ : Type*} : Thread ι κ := ⟨[], none, []⟩

/-- A buffer that a command buffer's progress holds as read, with the writes returned at that read. -/
structure Held (ι κ : Type*) where
  cb : κ
  icb : ι
  returned : ℕ
deriving DecidableEq

/-- The registry, the threads, the command buffers whose commit began and those committed, and what
their progress holds; and the writes that returned. -/
structure World (τ ι κ : Type*) where
  registry : ι → Option Records
  threads : τ → Thread ι κ
  begun : List κ
  committed : List κ
  held : List (Held ι κ)
  died : Option Death
  returned : ι → ℕ

/-- The steps of the threads. -/
inductive Action (τ ι κ : Type*)
  /-- `gpu_writes` called. -/
  | gpuWrites (t : τ) (icb : ι)
  /-- `commit` called. -/
  | commit (t : τ) (cb : κ) (executions : List (IcbExecution ι))
  /-- The next step of a call, with the commands that the runtime answers. -/
  | goOn (t : τ) (commands : List Command)
  /-- The progress of a command buffer that ends lets go of a buffer. -/
  | release (h : Held ι κ)

namespace World

variable {τ ι κ : Type*}

def new : World τ ι κ where
  registry _ := none
  threads _ := .idle
  begun := []
  committed := []
  held := []
  died := none
  returned _ := 0

/-- What the registry says of a buffer. -/
def recordsOf (w : World τ ι κ) (icb : ι) : Records := (w.registry icb).getD ⟨false, 0⟩

variable [DecidableEq τ] [DecidableEq ι]

def setThread (w : World τ ι κ) (t : τ) (thread : Thread ι κ) : World τ ι κ :=
  { w with threads := Function.update w.threads t thread }

def setRecords (w : World τ ι κ) (icb : ι) (r : Records) : World τ ι κ :=
  { w with registry := Function.update w.registry icb (some r) }

/-- A thread goes on to other steps. -/
def goOn (w : World τ ι κ) (t : τ) (ops : List (Op ι)) : World τ ι κ :=
  w.setThread t { w.threads t with ops }

def die (w : World τ ι κ) (d : Death) : World τ ι κ := { w with died := some d }

/-- `check`, up to `written`: a buffer that the GPU may have written decides no death. -/
def checkWritten (w : World τ ι κ) (t : τ) (e : IcbExecution ι) (rest : List (Op ι)) :
    World τ ι κ :=
  if (w.recordsOf e.icb).written then
    if e.decides then w.die .undecided else w.goOn t (e.writable.flatMap gpuWrites ++ rest)
  else
    w.setThread t { w.threads t with
      ops := .commands e :: rest
      read := (w.threads t).read ++ if e.decides then [(e.icb, w.returned e.icb)] else [] }

/-- `check`, from the read of the commands on. -/
def checkCommands (w : World τ ι κ) (t : τ) (e : IcbExecution ι) (commands : List Command)
    (rest : List (Op ι)) : World τ ι κ :=
  match e.scan commands with
  | .error d => w.die d
  | .ok false => w.goOn t rest
  | .ok true =>
    if e.decides && e.icb ∈ e.writable then w.die .writesItself
    else w.goOn t (e.writable.flatMap gpuWrites ++ rest)

/-- The next buffer to count as read, or the commit. -/
def count (w : World τ ι κ) (t : τ) (rest : List (Op ι)) : World τ ι κ :=
  match (w.threads t).read with
  | [] =>
    { w.setThread t .idle with committed := (w.threads t).cb.toList ++ w.committed }
  | (icb, _) :: _ => (w.setRecords icb (w.recordsOf icb)).goOn t (.addReader :: .count :: rest)

/-- The buffer counted as read, and held until the command buffer ends. -/
def addReader (w : World τ ι κ) (t : τ) (rest : List (Op ι)) : World τ ι κ :=
  match (w.threads t).read, (w.threads t).cb with
  | (icb, returned) :: read, some cb =>
    let r := w.recordsOf icb
    { (w.setRecords icb { r with readers := r.readers + 1 }).setThread t
        ⟨rest, some cb, read⟩ with
      held := ⟨cb, icb, returned⟩ :: w.held }
  | _, _ => w.goOn t rest

/-- The next step of a thread. -/
def exec (w : World τ ι κ) (t : τ) (commands : List Command) (rest : List (Op ι)) :
    Op ι → World τ ι κ
  | .records icb => (w.setRecords icb (w.recordsOf icb)).goOn t rest
  | .loadReaders icb =>
    if (w.recordsOf icb).readers ≠ 0 then w.die .landsEarly else w.goOn t rest
  | .storeWritten icb =>
    { (w.setRecords icb { w.recordsOf icb with written := true }).goOn t rest with
      returned := Function.update w.returned icb (w.returned icb + 1) }
  | .written e => w.checkWritten t e rest
  | .commands e => w.checkCommands t e commands rest
  | .count => w.count t rest
  | .addReader => w.addReader t rest

variable [DecidableEq κ]

/-- A buffer that the progress of an ended command buffer held. -/
def release (w : World τ ι κ) (h : Held ι κ) : World τ ι κ :=
  let r := w.recordsOf h.icb
  { w.setRecords h.icb { r with readers := r.readers - 1 } with held := w.held.erase h }

/-- One step of one thread. A command buffer commits once, and a death ends all. -/
inductive Step : World τ ι κ → Action τ ι κ → World τ ι κ → Prop
  | gpuWrites {w : World τ ι κ} {t : τ} (icb : ι) (hdied : w.died = none)
      (ht : (w.threads t).ops = []) :
      Step w (.gpuWrites t icb) (w.goOn t (Executions.gpuWrites icb))
  | commit {w : World τ ι κ} {t : τ} {cb : κ} (executions : List (IcbExecution ι))
      (hdied : w.died = none) (ht : (w.threads t).ops = []) (hcb : cb ∉ w.begun) :
      Step w (.commit t cb executions)
        { w.setThread t ⟨executions.map .written ++ [.count], some cb, []⟩ with
          begun := cb :: w.begun }
  | goOn {w : World τ ι κ} {t : τ} {op : Op ι} {rest : List (Op ι)} (commands : List Command)
      (hdied : w.died = none) (hops : (w.threads t).ops = op :: rest) :
      Step w (.goOn t commands) (w.exec t commands rest op)
  | release {w : World τ ι κ} {h : Held ι κ} (hdied : w.died = none) (hheld : h ∈ w.held)
      (hcb : h.cb ∈ w.committed) : Step w (.release h) (w.release h)

/-- No write returned since a commit read what its command buffer, which has not ended, executes. -/
def Unwritten (w : World τ ι κ) : Prop :=
  ∀ h ∈ w.held, h.cb ∈ w.committed → w.returned h.icb = h.returned

/-- Where a thread is to store a buffer's mark, no command buffer counts as a reader of the buffer,
and no commit is between its look at the mark and its count. -/
def Guarded (w : World τ ι κ) : Action τ ι κ → Prop
  | .goOn t _ => ∀ icb rest, (w.threads t).ops = .storeWritten icb :: rest →
      (w.recordsOf icb).readers = 0 ∧ ∀ t', ∀ e ∈ (w.threads t').read, e.1 ≠ icb
  | _ => True

/-- No call is in progress, and none died. -/
def Quiet (w : World τ ι κ) : Prop := w.died = none ∧ ∀ t, (w.threads t).ops = []

end World

end ReimsVgpu.Gpu.Executions
