import Mathlib.Data.Finset.Basic
import Mathlib.Logic.Function.Basic
import ReimsVgpu.Library.Execution

/-!
# The detached objects and the command buffers that they fail

One lock guards the objects detached now, those released detached while a command buffer is open, the
open command buffers, and the submissions that the runtime took of each. Makes of command buffers and
releases of detached objects take their numbers from one sequence. A release is kept only while a
command buffer made before it may be open; the command buffers of a task that ended, unless they were
committed, no longer count as open.

Each hold of the lock is one step of a thread, but the look at a task's life inside a close, which is
not under the lock's protection: a task may end while a close goes through the open command buffers.
A check of a submission lets go of the lock before it asks what the submission uses.

Beside the state of the code, the world keeps the events in the order in which they took the lock, and
the submissions begun, failed and noted: no step reads them. The numbers are counted in `ℕ`.

## Main definitions

* `Detached`: what the lock guards.
* `World`, `Action`, `World.Step`: the threads' steps.
* `Event`, `detachedNow`, `releasedSince`, `reference`: the answers of a registry that forgets nothing.
-/

namespace ReimsVgpu.Gpu.Backing

/-- The identity of a buffer or a heap. -/
abbrev ObjectId := ℕ

/-- The submission of a command buffer: its encoders' places, and the objects that they use. -/
structure Submission where
  encoders : ℕ × ℕ
  used : List ObjectId
deriving DecidableEq

/-- What the lock guards, the tasks named by `τ`. -/
structure Detached (τ : Type*) where
  next : ℕ
  detached : Finset ObjectId
  released : List (ObjectId × ℕ)
  opened : List (ℕ × Option τ)
  submitted : List (ℕ × List (ℕ × ℕ))

namespace Detached

variable {τ : Type*}

/-- Nothing detached, nothing open. -/
def new : Detached τ where
  next := 0
  detached := ∅
  released := []
  opened := []
  submitted := []

/-- The next number of the sequence. -/
def number (d : Detached τ) : ℕ × Detached τ := (d.next, { d with next := d.next + 1 })

/-- A command buffer is made: its number. -/
def make (d : Detached τ) (task : Option τ) : ℕ × Detached τ :=
  let (made, d) := d.number
  (made, { d with opened := d.opened ++ [(made, task)] })

/-- A command buffer commits: it stays open whatever its task does. -/
def commit (d : Detached τ) (made : ℕ) : Detached τ :=
  { d with opened := d.opened.map fun e => if e.1 = made then (e.1, none) else e }

/-- The object is detached. -/
def detach (d : Detached τ) (id : ObjectId) : Detached τ :=
  { d with detached := insert id d.detached }

/-- The object was replaced. -/
def attached (d : Detached τ) (id : ObjectId) : Detached τ :=
  { d with detached := d.detached.erase id }

/-- The object, detached, is released. -/
def release (d : Detached τ) (id : ObjectId) : Detached τ :=
  let d := { d with detached := d.detached.erase id }
  let (number, d) := d.number
  if d.opened = [] then d
  else { d with released := (id, number) :: d.released.filter fun e => e.1 ≠ id }

/-- The command buffer fails where it uses the object. -/
def fails (d : Detached τ) (id : ObjectId) (made : ℕ) : Bool :=
  decide (id ∈ d.detached) || (d.released.lookup id).any (made < ·)

/-- The command buffer can fail by some object. -/
def any (d : Detached τ) (made : ℕ) : Bool :=
  decide (d.detached ≠ ∅) || d.released.any (made < ·.2)

/-- The command buffer's submissions that the runtime took. -/
def encoders (d : Detached τ) (made : ℕ) : List (ℕ × ℕ) := (d.submitted.lookup made).getD []

/-- The runtime takes a submission of the command buffer. -/
def submit (d : Detached τ) (made : ℕ) (s : Submission) : Detached τ :=
  { d with
    submitted := (made, d.encoders made ++ [s.encoders]) ::
      d.submitted.filter fun e => e.1 ≠ made }

/-- The oldest open command buffer. -/
def oldest (d : Detached τ) : Option ℕ := (d.opened.map Prod.fst).min?

/-- The releases that no open command buffer was made before are forgotten. -/
def forget (d : Detached τ) : Detached τ :=
  match d.oldest with
  | some oldest => { d with released := d.released.filter fun e => oldest < e.2 }
  | none => { d with released := [] }

/-- The command buffer closes, and with it those whose task's life answers that it is over. -/
def closed (d : Detached τ) (made : ℕ) (alive : ℕ → τ → Bool) : Detached τ :=
  let opened := d.opened.filter fun e => e.1 ≠ made
  let opened := opened.filter fun e => e.2.all (alive e.1)
  let d := forget { d with opened }
  { d with submitted := d.submitted.filter fun e => e.1 ≠ made }

end Detached

/-! ### A registry that forgets nothing -/

/-- What took the lock. -/
inductive Event
  | made (number : ℕ)
  | detached (id : ObjectId)
  | attached (id : ObjectId)
  | released (id : ObjectId)
deriving DecidableEq

/-- The object is detached after the events, the latest first. -/
def detachedNow (id : ObjectId) : List Event → Bool
  | [] => false
  | .made _ :: log => detachedNow id log
  | .detached i :: log => i = id || detachedNow id log
  | .attached i :: log => i ≠ id && detachedNow id log
  | .released i :: log => i ≠ id && detachedNow id log

/-- The object was released detached after the command buffer was made. -/
def releasedSince (id : ObjectId) (made : ℕ) (log : List Event) : Bool :=
  (log.takeWhile (· ≠ .made made)).contains (.released id)

/-- The command buffer fails where it uses the object. -/
def reference (log : List Event) (id : ObjectId) (made : ℕ) : Bool :=
  detachedNow id log || releasedSince id made log

/-! ### The threads -/

/-- Where a task is in its life. -/
inductive Life
  | running
  /-- It died, or the host ended it. -/
  | ended
  /-- Nothing holds it any more. -/
  | freed
deriving DecidableEq

/-- A call that has let go of the lock to ask what is used. -/
inductive Call
  /-- `Opened::submit`. -/
  | submit (made : ℕ) (s : Submission)
  /-- `uses_detached`. -/
  | uses (made : ℕ) (used : List ObjectId)
deriving DecidableEq

/-- The command buffer that the call is about. -/
def Call.made : Call → ℕ
  | submit made _ => made
  | uses made _ => made

/-- The submission that the call decides. -/
def Call.submission : Call → Option (ℕ × Submission)
  | submit made s => some (made, s)
  | uses _ _ => none

/-- What `uses_detached` answered. -/
structure Answer where
  made : ℕ
  used : List ObjectId
  fails : Bool

/-- What the lock guards, the tasks' lives, the command buffers that have not dropped and the calls in
progress; the task that made each command buffer, and whether it was committed before that task's end;
the events, and what became of the submissions. -/
structure World (τ : Type*) where
  detached : Detached τ
  life : τ → Life
  cbs : List ℕ
  calls : List Call
  task : ℕ → Option τ
  committed : ℕ → Bool
  log : List Event
  begun : List (ℕ × Submission)
  failed : List (ℕ × Submission)
  noted : List (ℕ × Submission)
  answers : List Answer

/-- The steps of the threads. -/
inductive Action (τ : Type*)
  /-- `Opened::new`. -/
  | make (task : Option τ)
  /-- `Opened::commit`. -/
  | commit (made : ℕ)
  /-- The drop of an `Opened`. -/
  | drop (made : ℕ)
  | detach (id : ObjectId)
  | attach (id : ObjectId)
  | release (id : ObjectId)
  /-- `Opened::submit`, up to the look at any object. -/
  | submit (made : ℕ) (s : Submission)
  /-- `uses_detached`, up to the look at any object. -/
  | uses (made : ℕ) (used : List ObjectId)
  /-- The rest of either. -/
  | decide (call : Call)
  /-- A task dies or is ended, or its last handle goes. -/
  | endTask (t : τ) (life : Life)

namespace World

variable {τ : Type*}

def new : World τ where
  detached := .new
  life _ := .running
  cbs := []
  calls := []
  task _ := none
  committed _ := false
  log := []
  begun := []
  failed := []
  noted := []
  answers := []

/-- The task that made the command buffer, if one did, is running. -/
def TaskRuns (w : World τ) (made : ℕ) : Prop := ∀ t, w.task made = some t → w.life t = .running

instance (w : World τ) (made : ℕ) : Decidable (w.TaskRuns made) :=
  decidable_of_iff ((w.task made).all fun t => w.life t = .running) <| by
    cases h : w.task made <;> simp [TaskRuns, h]

/-- A command buffer that has not dropped, and that its task's end has not overtaken uncommitted. -/
def Live (w : World τ) (made : ℕ) : Prop :=
  made ∈ w.cbs ∧ (w.committed made = true ∨ w.TaskRuns made)

def make (w : World τ) (task : Option τ) : World τ :=
  let (made, detached) := w.detached.make task
  { w with
    detached
    cbs := made :: w.cbs
    task := Function.update w.task made task
    committed := Function.update w.committed made false
    log := .made made :: w.log }

def commit (w : World τ) (made : ℕ) : World τ :=
  { w with
    detached := w.detached.commit made
    committed := Function.update w.committed made (w.committed made || decide (w.TaskRuns made)) }

def drop (w : World τ) (made : ℕ) (alive : ℕ → τ → Bool) (life : τ → Life) : World τ :=
  { w with
    detached := w.detached.closed made alive
    cbs := w.cbs.erase made
    life }

def detach (w : World τ) (id : ObjectId) : World τ :=
  { w with detached := w.detached.detach id, log := .detached id :: w.log }

def attach (w : World τ) (id : ObjectId) : World τ :=
  { w with detached := w.detached.attached id, log := .attached id :: w.log }

def release (w : World τ) (id : ObjectId) : World τ :=
  { w with detached := w.detached.release id, log := .released id :: w.log }

/-- A submission that the runtime submits. -/
def note (w : World τ) (made : ℕ) (s : Submission) : World τ :=
  { w with detached := w.detached.submit made s, noted := w.noted ++ [(made, s)] }

/-- `submit`, up to the look at any object: with none, the submission is noted at once. -/
def submit (w : World τ) (made : ℕ) (s : Submission) : World τ :=
  let w := { w with begun := w.begun ++ [(made, s)] }
  if w.detached.any made then { w with calls := .submit made s :: w.calls } else w.note made s

/-- `uses_detached`, up to the look at any object. -/
def uses (w : World τ) (made : ℕ) (used : List ObjectId) : World τ :=
  if w.detached.any made then { w with calls := .uses made used :: w.calls }
  else { w with answers := w.answers ++ [⟨made, used, false⟩] }

/-- The rest of a call, under the lock again. -/
def decide (w : World τ) (call : Call) : World τ :=
  let w := { w with calls := w.calls.erase call }
  match call with
  | .submit made s =>
    if s.used.any (w.detached.fails · made) then { w with failed := w.failed ++ [(made, s)] }
    else w.note made s
  | .uses made used =>
    { w with answers := w.answers ++ [⟨made, used, used.any (w.detached.fails · made)⟩] }

/-- One step of one thread. Only a command buffer committed before its task's end submits. While a
close looks at the tasks' lives, running tasks may end. -/
inductive Step [DecidableEq τ] : World τ → Action τ → World τ → Prop
  | make {w : World τ} (task : Option τ) : Step w (.make task) (w.make task)
  | commit {w : World τ} {made : ℕ} (hcb : made ∈ w.cbs) : Step w (.commit made) (w.commit made)
  | drop {w : World τ} {made : ℕ} (hcb : made ∈ w.cbs) (hcalls : ∀ c ∈ w.calls, c.made ≠ made)
      {alive : ℕ → τ → Bool} {life : τ → Life}
      (hends : ∀ t, life t = .running → w.life t = .running)
      (halive : ∀ n t, alive n t = true → w.life t = .running)
      (hover : ∀ n t, alive n t = false → life t ≠ .running) :
      Step w (.drop made) (w.drop made alive life)
  | detach {w : World τ} (id : ObjectId) : Step w (.detach id) (w.detach id)
  | attach {w : World τ} (id : ObjectId) : Step w (.attach id) (w.attach id)
  | release {w : World τ} (id : ObjectId) : Step w (.release id) (w.release id)
  | submit {w : World τ} {made : ℕ} (s : Submission) (hcb : made ∈ w.cbs)
      (hcommitted : w.committed made = true) : Step w (.submit made s) (w.submit made s)
  | uses {w : World τ} {made : ℕ} (used : List ObjectId) (hcb : made ∈ w.cbs) :
      Step w (.uses made used) (w.uses made used)
  | decide {w : World τ} {call : Call} (hcall : call ∈ w.calls) :
      Step w (.decide call) (w.decide call)
  | endTask {w : World τ} (t : τ) {life : Life} (hlife : life ≠ .running) :
      Step w (.endTask t life) { w with life := Function.update w.life t life }

end World

end ReimsVgpu.Gpu.Backing
