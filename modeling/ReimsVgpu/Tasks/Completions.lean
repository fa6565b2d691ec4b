import Mathlib.Data.List.Sort
import Mathlib.Logic.Function.Basic
import ReimsVgpu.Library.Execution

/-!
# The outstanding completions of a remote task

A table of tokens, each signalled once: by the completion that takes it out of the table, by the crash
that finds it there, or at its birth after the crash. Each hold of the table's lock is one step, but
for the signals made under it; each signal is a step of its own. A signal of a token outside the lock
comes after the hold that took the token out, and between the two any thread may do anything.

A token is its id, a natural number. Waiting drains look at the table again whenever the lock is free.

## Main definitions

* `Completions`: what the table's lock guards.
* `Call`, `World`, `Action`, `World.Step`: the threads in the middle of calls, and their steps.
* `Signal`: a signal made; the world keeps all of them, and what the first crash found.
-/

namespace ReimsVgpu.Tasks.Remote

/-- A command's completion status. -/
abbrev ExecStatus := UInt32

namespace ExecStatus

def notComplete : ExecStatus := 0
def ok : ExecStatus := 1
def crashed : ExecStatus := 4

end ExecStatus

/-- What the table's lock guards: the ids of the tokens in it, ascending. -/
structure Completions where
  tokens : List ℕ
  nextId : ℕ
  crashed : Bool

namespace Completions

/-- No token yet. -/
def new : Completions where
  tokens := []
  nextId := 1
  crashed := false

/-- A token put in the table, unless its key is taken. -/
def insert (c : Completions) (id : ℕ) : Completions :=
  { c with tokens := if id ∈ c.tokens then c.tokens else c.tokens.orderedInsert (· ≤ ·) id }

/-- A token taken out of the table. -/
def erase (c : Completions) (id : ℕ) : Completions := { c with tokens := c.tokens.erase id }

/-- A new token's id: in the table, unless the task has crashed. -/
def issueToken (c : Completions) : ℕ × Completions :=
  let id := c.nextId
  let c := { c with nextId := id + 1 }
  (id, if c.crashed then c else c.insert id)

end Completions

/-- How a token came to its signal. -/
inductive Origin
  | completed
  | crashed
  | born
deriving DecidableEq

/-- A signal made: the token's handler has run with the status. -/
structure Signal where
  id : ℕ
  status : ExecStatus
  origin : Origin
deriving DecidableEq

/-- What a thread in the middle of a call has still to do. -/
inductive Call
  /-- `complete_id` or `complete`: the signal, the lock let go. -/
  | signalling (id : ℕ) (status : ExecStatus)
  /-- `crash`: the rest of the signals, under the lock. -/
  | crashing (left : List ℕ)
  /-- `issue_token` after a crash: the signal, under the lock. -/
  | bearing (id : ℕ)
  /-- `drain`: waiting. -/
  | draining
deriving DecidableEq

namespace Call

/-- The tokens that the call is to signal. -/
def owed : Call → List ℕ
  | signalling id _ => [id]
  | crashing left => left
  | bearing id => [id]
  | draining => []

/-- A call that holds the table's lock. -/
def locks : Call → Bool
  | signalling _ _ => false
  | crashing _ => true
  | bearing _ => true
  | draining => false

end Call

/-- The table, the tokens' statuses and the calls in progress; and the signals made so far, with the
tokens that the first crash found and the id that was next. -/
structure World (τ : Type*) where
  completions : Completions
  status : ℕ → ExecStatus
  calls : List (τ × Call)
  died : Bool
  signals : List Signal
  left : List ℕ
  crashId : ℕ

/-- The steps of the threads. -/
inductive Action (τ : Type*)
  | issue (t : τ)
  | completeId (t : τ) (id : ℕ) (status : ExecStatus)
  | complete (t : τ) (id : ℕ) (status : ExecStatus)
  | crash (t : τ)
  | drain (t : τ)
  /-- The next step of a call in progress. -/
  | goOn (t : τ) (call : Call)

/-- The thread that takes the step. -/
def Action.thread {τ : Type*} : Action τ → τ
  | issue t => t
  | completeId t _ _ => t
  | complete t _ _ => t
  | crash t => t
  | drain t => t
  | goOn t _ => t

namespace World

variable {τ : Type*}

def new : World τ where
  completions := .new
  status _ := .notComplete
  calls := []
  died := false
  signals := []
  left := []
  crashId := 0

/-- `Token::signal`: a second one ends the process. -/
def signal (w : World τ) (s : Signal) : World τ :=
  if w.status s.id = .notComplete then
    { w with status := Function.update w.status s.id s.status, signals := w.signals ++ [s] }
  else { w with died := true }

/-- `issue_token`, up to the signal of a token born crashed. -/
def issue (w : World τ) (t : τ) : World τ :=
  let (id, completions) := w.completions.issueToken
  { w with
    completions
    calls := if w.completions.crashed then (t, .bearing id) :: w.calls else w.calls }

/-- A token taken out of the table, to be signalled by its taker. -/
def take (w : World τ) (t : τ) (id : ℕ) (status : ExecStatus) : World τ :=
  { w with
    completions := w.completions.erase id
    calls := if id ∈ w.completions.tokens then (t, .signalling id status) :: w.calls else w.calls }

/-- `crash`, up to its signals. -/
def crash (w : World τ) (t : τ) : World τ :=
  { w with
    completions := { w.completions with crashed := true }
    calls := (t, .crashing w.completions.tokens) :: w.calls
    left := if w.completions.crashed then w.left else w.completions.tokens
    crashId := if w.completions.crashed then w.crashId else w.completions.nextId }

/-- `drain`, up to its first wait. -/
def drain (w : World τ) (t : τ) : World τ :=
  if w.completions.tokens = [] then w else { w with calls := (t, .draining) :: w.calls }

variable [DecidableEq τ]

/-- A call that has nothing more to do. -/
def leave (w : World τ) (t : τ) (call : Call) : World τ :=
  { w with calls := w.calls.erase (t, call) }

/-- The next step of a call in progress. -/
def goOn (w : World τ) (t : τ) : Call → World τ
  | .signalling id status => (w.leave t (.signalling id status)).signal ⟨id, status, .completed⟩
  | .crashing [] =>
    { w.leave t (.crashing []) with completions := { w.completions with tokens := [] } }
  | .crashing (id :: left) =>
    signal { w with calls := (t, .crashing left) :: w.calls.erase (t, .crashing (id :: left)) }
      ⟨id, .crashed, .crashed⟩
  | .bearing id => (w.leave t (.bearing id)).signal ⟨id, .crashed, .born⟩
  | .draining => if w.completions.tokens = [] then w.leave t .draining else w

/-- No call holds the table's lock. -/
def Free (w : World τ) : Prop := ∀ c ∈ w.calls, c.2.locks = false

/-- A thread in no call. -/
def Idle (w : World τ) (t : τ) : Prop := ∀ c ∈ w.calls, c.1 ≠ t

/-- No call has a signal to make. -/
def Quiet (w : World τ) : Prop := ∀ c ∈ w.calls, c.2.owed = []

/-- One step of one thread. -/
inductive Step : World τ → Action τ → World τ → Prop
  | issue {w : World τ} {t : τ} (ht : w.Idle t) (hfree : w.Free) :
      Step w (.issue t) (w.issue t)
  | completeId {w : World τ} {t : τ} (id : ℕ) (status : ExecStatus) (ht : w.Idle t)
      (hfree : w.Free) : Step w (.completeId t id status) (w.take t id status)
  | complete {w : World τ} {t : τ} (id : ℕ) (status : ExecStatus) (ht : w.Idle t)
      (hfree : w.Free) : Step w (.complete t id status) (w.take t id status)
  | crash {w : World τ} {t : τ} (ht : w.Idle t) (hfree : w.Free) :
      Step w (.crash t) (w.crash t)
  | drain {w : World τ} {t : τ} (ht : w.Idle t) (hfree : w.Free) :
      Step w (.drain t) (w.drain t)
  | goOn {w : World τ} {t : τ} {call : Call} (hcall : (t, call) ∈ w.calls)
      (hfree : call = .draining → w.Free) : Step w (.goOn t call) (w.goOn t call)

end World

end ReimsVgpu.Tasks.Remote
