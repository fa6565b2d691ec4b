import Mathlib.Logic.Function.Basic
import ReimsVgpu.Library.Execution

/-!
# A coalescing signal

A source folds merged data into a pending word and has one job on its target while the word is to be
delivered: the job takes the word and calls the handler with it. A cancel, or the release of the last
reference, drops the word, and a last job, the cancel callout, frees the handler.

Each hold of a lock, each submit and the handler's call and return are one step of a thread. Between
two steps the code outside the source, in its handler or in what the freed handler drops may merge,
cancel, retain and release. A job runs once, at any time after its submit and on any thread.

Beside the state of the code, the world keeps what was merged, taken, called with and returned from,
and how often a callout ran and the handler was freed: no step reads them.

## Main definitions

* `Merge`: how merged data combines.
* `Code`, `Phase`: where a thread, or a job, is.
* `World`, `Action`, `World.Step`: the threads' steps.
-/

namespace ReimsVgpu.Rt.Signal

abbrev Word := BitVec 64

/-- How merged data combines. -/
inductive Merge
  | add
  | or
deriving DecidableEq

namespace Merge

def combine : Merge → Word → Word → Word
  | add, v, u => v + u
  | or, v, u => v ||| u

/-- All of the data, combined. -/
def total (merge : Merge) (vs : List Word) : Word := vs.foldl merge.combine 0

end Merge

/-- The code that a thread runs. -/
inductive Code
  | outside
  /-- The handler, called with the data. -/
  | handler (data : Word)
  /-- What the freed handler drops. -/
  | dropped
deriving DecidableEq

/-- Where a thread is. A job not yet submitted is where a finished one is. -/
inductive Phase
  | code (code : Code)
  /-- `merge` or `cancel`, after the lock: it is to submit a job. -/
  | submitting (code : Code)
  /-- The last reference's drop, before its cancel. -/
  | releasing (code : Code)
  | queued
  /-- `fire` has taken the data. -/
  | took (data : Word)
  /-- The handler has returned. -/
  | returned
  /-- `fire` is to submit the next job. -/
  | again
  /-- `cancel_callout`, then its handler taken, then the source no more scheduled. -/
  | callout
  | clearing (handler : Bool)
  | freeing (handler : Bool)
  | finished
deriving DecidableEq

/-- The source's state, its references, the references of its handler and the threads: the callers'
`τ` and the jobs, numbered as they are submitted. -/
structure World (τ : Type*) where
  merge : Merge
  pending : Word
  scheduled : Bool
  cancelled : Bool
  /-- The handler is set. -/
  handler : Bool
  retained : ℕ
  strong : ℕ
  threads : τ ⊕ ℕ → Phase
  jobs : ℕ
  merged : List Word
  taken : List Word
  called : List Word
  returned : List Word
  callouts : ℕ
  freed : ℕ

/-- The steps of the threads. -/
inductive Action (τ : Type*)
  | merge (t : τ ⊕ ℕ) (v : Word)
  | cancel (t : τ ⊕ ℕ)
  /-- `Clone` and drop of a reference. -/
  | retain (t : τ ⊕ ℕ)
  | release (t : τ ⊕ ℕ)
  /-- The handler, or what it dropped, returns. -/
  | returns (t : τ ⊕ ℕ)
  /-- The next step of a call or of a job. -/
  | goOn (t : τ ⊕ ℕ)

namespace World

variable {τ : Type*} [DecidableEq τ]

/-- A new source, with one reference. -/
def new (merge : Merge) : World τ where
  merge
  pending := 0
  scheduled := false
  cancelled := false
  handler := true
  retained := 1
  strong := 1
  threads := Sum.elim (fun _ => .code .outside) fun _ => .finished
  jobs := 0
  merged := []
  taken := []
  called := []
  returned := []
  callouts := 0
  freed := 0

def setPhase (w : World τ) (t : τ ⊕ ℕ) (p : Phase) : World τ :=
  { w with threads := Function.update w.threads t p }

/-- A reference to the handler goes; the last frees it. -/
def dropHandler (w : World τ) : World τ :=
  { w with strong := w.strong - 1, freed := if w.strong = 1 then w.freed + 1 else w.freed }

/-- `merge`, up to its submit. -/
def mergeData (w : World τ) (t : τ ⊕ ℕ) (c : Code) (v : Word) : World τ :=
  let w := { w with merged := w.merged ++ [v] }
  if v = 0 then w
  else if w.cancelled then w
  else
    let w := { w with pending := w.merge.combine w.pending v }
    if w.scheduled ∨ w.pending = 0 then w
    else { w.setPhase t (.submitting c) with scheduled := true }

/-- `Inner::cancel`, up to its submit. -/
def cancel (w : World τ) (t : τ ⊕ ℕ) (c : Code) : World τ :=
  if w.cancelled then w.setPhase t (.code c)
  else
    { w.setPhase t (if w.scheduled then .code c else .submitting c) with
      cancelled := true, pending := 0, scheduled := true }

/-- A reference's drop, up to the last one's cancel. -/
def release (w : World τ) (t : τ ⊕ ℕ) (c : Code) : World τ :=
  { w.setPhase t (if w.retained = 1 then .releasing c else .code c) with
    retained := w.retained - 1 }

/-- `submit`. -/
def submit (w : World τ) (t : τ ⊕ ℕ) (p : Phase) : World τ :=
  { (w.setPhase t p).setPhase (.inr w.jobs) .queued with jobs := w.jobs + 1 }

/-- `fire`, its first hold of the lock. -/
def fire (w : World τ) (t : τ ⊕ ℕ) : World τ :=
  if w.cancelled then w.setPhase t .callout
  else if w.pending = 0 then { w.setPhase t .finished with scheduled := false }
  else
    { w.setPhase t (.took w.pending) with
      pending := 0, taken := w.taken ++ [w.pending] }

/-- `fire`, the handler read and called. -/
def call (w : World τ) (t : τ ⊕ ℕ) (data : Word) : World τ :=
  if w.handler then
    { w.setPhase t (.code (.handler data)) with
      strong := w.strong + 1, called := w.called ++ [data] }
  else w.setPhase t .returned

/-- `fire`, the handler's return. -/
def handlerReturns (w : World τ) (t : τ ⊕ ℕ) (data : Word) : World τ :=
  { w.dropHandler.setPhase t .returned with returned := w.returned ++ [data] }

/-- `fire`, its last hold of the lock. -/
def next (w : World τ) (t : τ ⊕ ℕ) : World τ :=
  if w.cancelled then w.setPhase t .callout
  else if w.pending ≠ 0 then w.setPhase t .again
  else { w.setPhase t .finished with scheduled := false }

/-- `cancel_callout`, its holds of the handler's lock and of the state's, and its drop. -/
def takeHandler (w : World τ) (t : τ ⊕ ℕ) : World τ :=
  { w.setPhase t (.clearing w.handler) with handler := false, callouts := w.callouts + 1 }

def clear (w : World τ) (t : τ ⊕ ℕ) (handler : Bool) : World τ :=
  { w.setPhase t (.freeing handler) with scheduled := false }

def free (w : World τ) (t : τ ⊕ ℕ) (handler : Bool) : World τ :=
  (if handler then w.dropHandler else w).setPhase t (.code .dropped)

/-- One step of one thread. A call has a reference. -/
inductive Step : World τ → Action τ → World τ → Prop
  | merge {w : World τ} {t : τ ⊕ ℕ} {c : Code} {v : Word} (ht : w.threads t = .code c)
      (href : 0 < w.retained) : Step w (.merge t v) (w.mergeData t c v)
  | cancel {w : World τ} {t : τ ⊕ ℕ} {c : Code} (ht : w.threads t = .code c)
      (href : 0 < w.retained) : Step w (.cancel t) (w.cancel t c)
  | retain {w : World τ} {t : τ ⊕ ℕ} {c : Code} (ht : w.threads t = .code c)
      (href : 0 < w.retained) : Step w (.retain t) { w with retained := w.retained + 1 }
  | release {w : World τ} {t : τ ⊕ ℕ} {c : Code} (ht : w.threads t = .code c)
      (href : 0 < w.retained) : Step w (.release t) (w.release t c)
  | released {w : World τ} {t : τ ⊕ ℕ} {c : Code} (ht : w.threads t = .releasing c) :
      Step w (.goOn t) (w.cancel t c)
  | submit {w : World τ} {t : τ ⊕ ℕ} {c : Code} (ht : w.threads t = .submitting c) :
      Step w (.goOn t) (w.submit t (.code c))
  | fire {w : World τ} {t : τ ⊕ ℕ} (ht : w.threads t = .queued) : Step w (.goOn t) (w.fire t)
  | call {w : World τ} {t : τ ⊕ ℕ} {data : Word} (ht : w.threads t = .took data) :
      Step w (.goOn t) (w.call t data)
  | handlerReturns {w : World τ} {t : τ ⊕ ℕ} {data : Word}
      (ht : w.threads t = .code (.handler data)) : Step w (.returns t) (w.handlerReturns t data)
  | next {w : World τ} {t : τ ⊕ ℕ} (ht : w.threads t = .returned) : Step w (.goOn t) (w.next t)
  | again {w : World τ} {t : τ ⊕ ℕ} (ht : w.threads t = .again) :
      Step w (.goOn t) (w.submit t .finished)
  | takeHandler {w : World τ} {t : τ ⊕ ℕ} (ht : w.threads t = .callout) :
      Step w (.goOn t) (w.takeHandler t)
  | clear {w : World τ} {t : τ ⊕ ℕ} {handler : Bool} (ht : w.threads t = .clearing handler) :
      Step w (.goOn t) (w.clear t handler)
  | free {w : World τ} {t : τ ⊕ ℕ} {handler : Bool} (ht : w.threads t = .freeing handler) :
      Step w (.goOn t) (w.free t handler)
  | droppedReturns {w : World τ} {t : τ ⊕ ℕ} (ht : w.threads t = .code .dropped) :
      Step w (.returns t) (w.setPhase t .finished)

end World

end ReimsVgpu.Rt.Signal
