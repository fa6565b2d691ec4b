import Mathlib.Logic.Function.Basic
import ReimsVgpu.Library.Execution

/-!
# The serial queue

A queue holds blocks and the turns of sync callers in the order in which they came. Its worker runs
the blocks and hands the queue to the callers at their turn; a caller that gives the queue up hands it
to the next caller itself, or leaves it to the worker. A worker that has left the queue drains its
pool, and what it releases there may queue and sync again: it then runs the blocks before its turn
itself. An idle worker ends, and the next block starts another.

Each hold of the queue's lock is one step of a thread, and so are a notify, a caller's return with its
turn, a wake and an idle timeout. Between two steps the code that a thread runs, outside the queue, in
a block, in a sync's section or in a drain, may do anything. A sync of a thread that holds the queue
may come with a chain of queues that does not name it; then it waits as any other.

Beside the state of the code, the world keeps what was queued, started and finished, in order: no step
reads them but for the number of a new item.

## Main definitions

* `Turn`, `Item`, `Owner`: what a queue holds, and who holds it.
* `Code`, `Phase`: where a thread is.
* `World`, `Action`, `World.Step`: the threads' steps.
-/

namespace ReimsVgpu.Rt.Queue

/-- Who holds a queue. -/
inductive Owner
  | idle
  | worker
  | caller
deriving DecidableEq

/-- A sync caller's turn. -/
structure Turn where
  id : ℕ
  onWorker : Bool
deriving DecidableEq

/-- What a queue holds. -/
inductive Item
  | block (id : ℕ)
  | caller (turn : Turn)
deriving DecidableEq

/-- The item's number, in the order of queueing. -/
def Item.id : Item → ℕ
  | block id => id
  | caller turn => turn.id

/-- The code that a thread runs. -/
inductive Code
  /-- Code in no call of the queue. -/
  | outside
  /-- The worker's drain of its pool. -/
  | drain
  /-- A block that the worker's loop runs. -/
  | block (id : ℕ)
  /-- A block that the worker runs before its own turn, in a sync of the code. -/
  | turnBlock (id : ℕ) (turn : Turn) (code : Code)
  /-- The section of a sync of the code. -/
  | inSync (turn : Turn) (code : Code)
  /-- The section of a nested sync of the code. -/
  | nested (code : Code)
deriving DecidableEq

namespace Code

/-- The thread is the queue's worker. -/
def onWorker : Code → Bool
  | outside => false
  | drain | block _ | turnBlock _ _ _ => true
  | .inSync _ code => code.onWorker
  | nested code => code.onWorker

/-- The blocks and sections that run. -/
def running : Code → List Item
  | outside | drain => []
  | block id => [.block id]
  | turnBlock id _ code => .block id :: code.running
  | .inSync turn code => .caller turn :: code.running
  | nested code => code.running

/-- The turns waited for. -/
def awaiting : Code → List Turn
  | outside | drain | block _ => []
  | turnBlock _ turn code => turn :: code.awaiting
  | .inSync _ code => code.awaiting
  | nested code => code.awaiting

/-- The thread holds the queue. -/
def owns (code : Code) : Bool := code.running ≠ []

end Code

/-- Where a thread is. -/
inductive Phase
  /-- It runs code. -/
  | code (code : Code)
  /-- `submit`, after the lock: it is to start a worker, or to notify the one there is. -/
  | submitted (start : Bool) (code : Code)
  /-- `give_up` or the last handle's drop, after the lock: it is to notify. -/
  | notifying (code : Code)
  /-- `take_turn`, waiting for the turn. -/
  | waiting (turn : Turn) (code : Code)
  /-- The worker's wait. -/
  | asleep
  | woken (timedOut : Bool)
  /-- The worker's wait for its turn. -/
  | turnAsleep (turn : Turn) (code : Code)
  | turnWoken (turn : Turn) (code : Code)
deriving DecidableEq

namespace Phase

/-- The blocks and sections that run. -/
def running : Phase → List Item
  | code c | submitted _ c | notifying c | waiting _ c | turnAsleep _ c | turnWoken _ c => c.running
  | asleep | woken _ => []

/-- The turns waited for. -/
def awaiting : Phase → List Turn
  | code c | submitted _ c | notifying c => c.awaiting
  | waiting turn c | turnAsleep turn c | turnWoken turn c => turn :: c.awaiting
  | asleep | woken _ => []

/-- The thread is the queue's worker. -/
def onWorker : Phase → Bool
  | code c | submitted _ c | notifying c | waiting _ c => c.onWorker
  | asleep | woken _ | turnAsleep _ _ | turnWoken _ _ => true

/-- Where a wait on the queue's condition goes on once woken. -/
def woke : Phase → Option Phase
  | asleep => some (woken false)
  | turnAsleep turn c => some (turnWoken turn c)
  | _ => none

/-- The code after a notify. -/
def notifies : Phase → Option Code
  | submitted false c | notifying c => some c
  | _ => none

end Phase

/-- The queue's state, the turns given and the threads: the callers' `τ` and the workers, numbered as
they start; and the items queued, started and finished. -/
structure World (τ : Type*) where
  items : List Item
  owner : Owner
  worker : Bool
  released : Bool
  given : List Turn
  threads : τ ⊕ ℕ → Phase
  workers : ℕ
  queued : List Item
  started : List Item
  finished : List Item

/-- The steps of the threads. -/
inductive Action (τ : Type*)
  | execAsync (t : τ ⊕ ℕ)
  | sync (t : τ ⊕ ℕ) (nested : Bool)
  /-- The last handle drops. -/
  | dropHandle (t : τ ⊕ ℕ)
  /-- The code that the thread runs returns. -/
  | returns (t : τ ⊕ ℕ)
  /-- The next step of a call or of a worker. -/
  | goOn (t : τ ⊕ ℕ)
  /-- A wait on the queue's condition ends by itself. -/
  | spurious (t : τ ⊕ ℕ)
  | timeout (t : τ ⊕ ℕ)

namespace World

variable {τ : Type*} [DecidableEq τ]

/-- An empty queue, its worker started. -/
def new : World τ where
  items := []
  owner := .idle
  worker := true
  released := false
  given := []
  threads := fun t => if t = .inr 0 then .code .drain else .code .outside
  workers := 1
  queued := []
  started := []
  finished := []

def setPhase (w : World τ) (t : τ ⊕ ℕ) (p : Phase) : World τ :=
  { w with threads := Function.update w.threads t p }

/-- An item joins the queue. -/
def push (w : World τ) (it : Item) : World τ :=
  { w with items := w.items ++ [it], queued := w.queued ++ [it] }

/-- An item leaves the queue, which is then held. -/
def take (w : World τ) (it : Item) (rest : List Item) (owner : Owner) : World τ :=
  { w with items := rest, owner, started := w.started ++ [it] }

/-- `Turn::give`. -/
def give (w : World τ) (turn : Turn) : World τ := { w with given := turn :: w.given }

/-- The item that held the queue has run. -/
def done (w : World τ) (it : Item) : World τ :=
  { w with owner := .idle, finished := w.finished ++ [it] }

/-- `step`: the next item of an idle queue, and the queue held for it. -/
def step (w : World τ) : Option (Item × World τ) :=
  if w.owner ≠ .idle then none
  else match w.items with
    | [] => none
    | .block id :: rest => some (.block id, w.take (.block id) rest .worker)
    | .caller turn :: rest => some (.caller turn, (w.take (.caller turn) rest .caller).give turn)

/-- `work`, a hold of the lock. After a turn given the queue is held, so the worker has left it. -/
def loop (w : World τ) (t : τ ⊕ ℕ) (drained : Bool) : World τ :=
  match w.step with
  | some (.block id, w) => w.setPhase t (.code (.block id))
  | some (.caller _, w) => w.setPhase t (.code .drain)
  | none =>
    if !drained then w.setPhase t (.code .drain)
    else if w.owner = .idle ∧ w.items = [] ∧ w.released then
      { w.setPhase t (.code .outside) with worker := false }
    else w.setPhase t .asleep

/-- `work`, the hold of the lock after a wait. -/
def wake (w : World τ) (t : τ ⊕ ℕ) (timedOut : Bool) : World τ :=
  if timedOut ∧ w.owner = .idle ∧ w.items = [] then
    { w.setPhase t (.code .outside) with worker := false }
  else w.loop t true

/-- `take_turn` on the worker, a hold of the lock. After a turn given the queue is held. -/
def turnLoop (w : World τ) (t : τ ⊕ ℕ) (turn : Turn) (c : Code) : World τ :=
  if turn ∈ w.given then w.setPhase t (.code (.inSync turn c))
  else if w.owner = .idle ∧ w.items.head? = some (.caller turn) then
    (w.take (.caller turn) w.items.tail .caller).setPhase t (.code (.inSync turn c))
  else match w.step with
    | some (.block id, w) => w.setPhase t (.code (.turnBlock id turn c))
    | some (.caller _, w) => w.setPhase t (.turnAsleep turn c)
    | none => w.setPhase t (.turnAsleep turn c)

/-- `exec_async`, the hold of the lock. -/
def submit (w : World τ) (t : τ ⊕ ℕ) (c : Code) : World τ :=
  { (w.push (.block w.queued.length)).setPhase t (.submitted (!w.worker) c) with worker := true }

/-- `take_turn`, up to its wait. -/
def takeTurn (w : World τ) (t : τ ⊕ ℕ) (c : Code) : World τ :=
  let turn : Turn := ⟨w.queued.length, c.onWorker⟩
  let w' := w.push (.caller turn)
  if w.owner = .idle ∧ w.items = [] then
    (w'.take (.caller turn) [] .caller).setPhase t (.code (.inSync turn c))
  else if c.onWorker then w'.turnLoop t turn c
  else w'.setPhase t (.waiting turn c)

/-- `give_up`, up to its notify. -/
def giveUp (w : World τ) (t : τ ⊕ ℕ) (turn : Turn) (c : Code) : World τ :=
  let w := w.done (.caller turn)
  match w.items with
  | .caller next :: rest =>
    ((w.take (.caller next) rest .caller).give next).setPhase t
      (if next.onWorker then .notifying c else .code c)
  | items => w.setPhase t (if items ≠ [] then .notifying c else .code c)

/-- A worker starts, and drains. -/
def startWorker (w : World τ) (t : τ ⊕ ℕ) (c : Code) : World τ :=
  { (w.setPhase t (.code c)).setPhase (.inr w.workers) (.code .drain) with
    workers := w.workers + 1 }

/-- The thread exists. -/
def Exists (w : World τ) : τ ⊕ ℕ → Prop
  | .inl _ => True
  | .inr n => n < w.workers

/-- One step of one thread. A sync is nested only where the thread holds the queue. -/
inductive Step : World τ → Action τ → World τ → Prop
  | execAsync {w : World τ} {t : τ ⊕ ℕ} {c : Code} (hex : w.Exists t)
      (ht : w.threads t = .code c) : Step w (.execAsync t) (w.submit t c)
  | sync {w : World τ} {t : τ ⊕ ℕ} {c : Code} (hex : w.Exists t) (ht : w.threads t = .code c) :
      Step w (.sync t false) (w.takeTurn t c)
  | syncNested {w : World τ} {t : τ ⊕ ℕ} {c : Code} (ht : w.threads t = .code c)
      (howns : c.owns = true) : Step w (.sync t true) (w.setPhase t (.code (.nested c)))
  | dropHandle {w : World τ} {t : τ ⊕ ℕ} {c : Code} (hex : w.Exists t)
      (ht : w.threads t = .code c) :
      Step w (.dropHandle t) { w.setPhase t (.notifying c) with released := true }
  | drained {w : World τ} {t : τ ⊕ ℕ} (ht : w.threads t = .code .drain) :
      Step w (.returns t) (w.loop t true)
  | blockRan {w : World τ} {t : τ ⊕ ℕ} {id : ℕ} (ht : w.threads t = .code (.block id)) :
      Step w (.returns t) ((w.done (.block id)).loop t false)
  | turnBlockRan {w : World τ} {t : τ ⊕ ℕ} {id : ℕ} {turn : Turn} {c : Code}
      (ht : w.threads t = .code (.turnBlock id turn c)) :
      Step w (.returns t) ((w.done (.block id)).turnLoop t turn c)
  | sectionRan {w : World τ} {t : τ ⊕ ℕ} {turn : Turn} {c : Code}
      (ht : w.threads t = .code (.inSync turn c)) : Step w (.returns t) (w.giveUp t turn c)
  | nestedRan {w : World τ} {t : τ ⊕ ℕ} {c : Code} (ht : w.threads t = .code (.nested c)) :
      Step w (.returns t) (w.setPhase t (.code c))
  | start {w : World τ} {t : τ ⊕ ℕ} {c : Code} (ht : w.threads t = .submitted true c) :
      Step w (.goOn t) (w.startWorker t c)
  | notifyOne {w : World τ} {t t' : τ ⊕ ℕ} {c : Code} {p : Phase}
      (ht : (w.threads t).notifies = some c) (ht' : (w.threads t').woke = some p) :
      Step w (.goOn t) ((w.setPhase t (.code c)).setPhase t' p)
  | notifyNone {w : World τ} {t : τ ⊕ ℕ} {c : Code} (ht : (w.threads t).notifies = some c)
      (hnone : ∀ t', (w.threads t').woke = none) : Step w (.goOn t) (w.setPhase t (.code c))
  | turned {w : World τ} {t : τ ⊕ ℕ} {turn : Turn} {c : Code}
      (ht : w.threads t = .waiting turn c) (hgiven : turn ∈ w.given) :
      Step w (.goOn t) (w.setPhase t (.code (.inSync turn c)))
  | woken {w : World τ} {t : τ ⊕ ℕ} {timedOut : Bool} (ht : w.threads t = .woken timedOut) :
      Step w (.goOn t) (w.wake t timedOut)
  | turnWoken {w : World τ} {t : τ ⊕ ℕ} {turn : Turn} {c : Code}
      (ht : w.threads t = .turnWoken turn c) : Step w (.goOn t) (w.turnLoop t turn c)
  | spurious {w : World τ} {t : τ ⊕ ℕ} {p : Phase} (ht : (w.threads t).woke = some p) :
      Step w (.spurious t) (w.setPhase t p)
  | timeout {w : World τ} {t : τ ⊕ ℕ} (ht : w.threads t = .asleep) :
      Step w (.timeout t) (w.setPhase t (.woken true))

end World

end ReimsVgpu.Rt.Queue
