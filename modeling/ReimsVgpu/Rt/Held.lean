import Mathlib.Logic.Function.Basic
import ReimsVgpu.Library.Places

/-!
# Values held to a named point

A holder keeps values to its own drop, which releases them most recent first. A raise carries values to
the catch that ends it, which hands them to its hold's holder; a landing frame whose body raises hands
what it holds to the raise. A hold with no holder hands to the last-resort holder of its thread, and
releases at once on a thread with none. A death releases nothing.

A holder's drop is taken release by release; the other operations are one step each. The order in which
values were first held is the process's, over all its threads. A holder's number is not in the code.

## Main definitions

* `insert`, `carry`: the ordered insertions.
* `World`: the holders and raises, what was released, and a function for each operation.
* `Op`, `World.step`, `run`: what a program does.
-/

namespace ReimsVgpu.Rt.Held

/-- A held value, and when it was first held. -/
structure Value (α : Type*) where
  heldAt : ℕ
  value : α
  deriving DecidableEq, Repr

variable {α T : Type*}

/-- Puts a value among values, oldest first, at the point it was first held. -/
def insert (values : List (Value α)) (v : Value α) : List (Value α) :=
  values.takeWhile (fun e => e.heldAt ≤ v.heldAt) ++
    v :: values.dropWhile fun e => e.heldAt ≤ v.heldAt

/-- `Deferred::carry`: adds a landing holder's values, each at the point it was first held. -/
def carry (mine values : List (Value α)) : List (Value α) := values.foldl insert mine

/-- A holder, oldest value first, and whether its drop has begun. -/
structure Holder (α : Type*) where
  values : List (Value α)
  dropping : Bool

/-- `Held::new`. -/
def Holder.new : Holder α := ⟨[], false⟩

/-- Holds a value, already held elsewhere, at the point it was first held. -/
def Holder.take (held : Holder α) (v : Value α) : Holder α :=
  { held with values := insert held.values v }

/-- Which holder a deep hold and what a raise carries go to: a holder, or none, on a thread. -/
inductive Hold (T : Type*)
  | of (held : ℕ)
  | none (thread : T)
  deriving DecidableEq, Repr

/-- A release, and the holder whose drop it is part of. -/
structure Release (α : Type*) where
  holder : Option ℕ
  value : Value α
  deriving DecidableEq, Repr

/-- The holders, the raises on their way, and what became of the values. -/
structure World (α T : Type*) where
  nextAt : ℕ
  nextHeld : ℕ
  holders : ℕ → Option (Holder α)
  raises : ℕ → Option (List (Value α))
  lastResort : T → Option ℕ
  released : List (Release α)
  forgotten : List (Value α)

namespace World

def start : World α T := ⟨0, 0, fun _ => none, fun _ => none, fun _ => none, [], []⟩

def setHolder (w : World α T) (i : ℕ) (held : Option (Holder α)) : World α T :=
  { w with holders := Function.update w.holders i held }

def setRaise (w : World α T) (r : ℕ) (values : Option (List (Value α))) : World α T :=
  { w with raises := Function.update w.raises r values }

def release (w : World α T) (holder : Option ℕ) (v : Value α) : World α T :=
  { w with released := w.released ++ [⟨holder, v⟩] }

/-- Lets go of values without releasing them. -/
def forget (w : World α T) (values : List (Value α)) : World α T :=
  { w with forgotten := w.forgotten ++ values }

/-- `Value::new`: a value held from now. -/
def value (w : World α T) (x : α) : World α T × Value α :=
  ({ w with nextAt := w.nextAt + 1 }, ⟨w.nextAt, x⟩)

/-- A holder that can be reached: its drop has not begun. -/
def reach (w : World α T) (i : ℕ) : Option (Holder α) :=
  (w.holders i).filter fun held => !held.dropping

/-- Hands a value, already held elsewhere, to a holder. -/
def takeInto (w : World α T) (i : ℕ) (v : Value α) : Option (World α T) :=
  (w.reach i).map fun held => w.setHolder i (some (held.take v))

/-- `to_last_resort`. -/
def toLastResort (w : World α T) (thread : T) (v : Value α) : Option (World α T) :=
  match w.lastResort thread with
  | some i => w.takeInto i v
  | none => some (w.release none v)

/-- Hands a value to a hold. -/
def take (w : World α T) (hold : Hold T) (v : Value α) : Option (World α T) :=
  match hold with
  | .of i => w.takeInto i v
  | .none thread => w.toLastResort thread v

/-- A new holder. -/
def newHeld (w : World α T) : World α T :=
  { w.setHolder w.nextHeld (some .new) with nextHeld := w.nextHeld + 1 }

/-- `Hold::keep`. -/
def keep (w : World α T) (hold : Hold T) (x : α) : Option (World α T) :=
  let (w, v) := w.value x
  w.take hold v

/-- `Raise::new`. -/
def raise (w : World α T) (r : ℕ) : Option (World α T) :=
  if (w.raises r).isNone then some (w.setRaise r (some [])) else none

/-- `Raise::defer`: adds a value, the most recent. -/
def defer (w : World α T) (r : ℕ) (x : α) : Option (World α T) :=
  let (w, v) := w.value x
  (w.raises r).map fun values => w.setRaise r (some (values ++ [v]))

/-- `Held::raising`, its body having raised: what the holder holds goes on with the raise. -/
def raising (w : World α T) (i r : ℕ) : Option (World α T) :=
  (w.reach i).bind fun held => (w.raises r).map fun mine =>
    (w.setHolder i none).setRaise r (some (carry mine held.values))

/-- `Hold::land`: the raise ends, and what it carries goes to the hold. -/
def land (w : World α T) (hold : Hold T) (r : ℕ) : Option (World α T) :=
  (w.raises r).bind fun values => values.foldlM (fun w v => w.take hold v) (w.setRaise r none)

/-- `Hold::cleanup_step`: a raise of the step ends that of the body. -/
def cleanupStep (w : World α T) (hold : Hold T) (body step : Option ℕ) : Option (World α T) :=
  match step, body with
  | some _, some r => w.land hold r
  | _, _ => some w

/-- A holder's drop begins. -/
def drop (w : World α T) (i : ℕ) : Option (World α T) :=
  (w.reach i).map fun held => w.setHolder i (some { held with dropping := true })

/-- The next of a holder's drop: the release of its most recent value, or the end. -/
def pop (w : World α T) (i : ℕ) : Option (World α T) :=
  ((w.holders i).filter Holder.dropping).map fun held =>
    match held.values.getLast? with
    | some v => (w.setHolder i (some { held with values := held.values.dropLast })).release (some i) v
    | none => w.setHolder i none

/-- `release_last_resort`, its first half: the thread's last-resort holder is taken out to drop. -/
def takeLastResort [DecidableEq T] (w : World α T) (thread : T) : Option (World α T) :=
  match w.lastResort thread with
  | some i => { w with lastResort := Function.update w.lastResort thread none }.drop i
  | none => some w

/-- `release_last_resort`, its second half: the next last-resort holder. -/
def makeLastResort [DecidableEq T] (w : World α T) (thread : T) : Option (World α T) :=
  if (w.lastResort thread).isNone then
    some { w.newHeld with lastResort := Function.update w.lastResort thread (some w.nextHeld) }
  else none

/-- A death unwinds through a holder, which forgets what it holds. -/
def unwind (w : World α T) (i : ℕ) : Option (World α T) :=
  (w.reach i).map fun held => (w.setHolder i none).forget held.values

/-- A raise dies, and what it carries is forgotten. -/
def die (w : World α T) (r : ℕ) : Option (World α T) :=
  (w.raises r).map fun values => (w.setRaise r none).forget values

end World

/-- What a program does, on any thread. -/
inductive Op (α T : Type*)
  | newHeld
  | keep (hold : Hold T) (x : α)
  | raise (r : ℕ)
  | defer (r : ℕ) (x : α)
  | raising (i r : ℕ)
  | land (hold : Hold T) (r : ℕ)
  | cleanupStep (hold : Hold T) (body step : Option ℕ)
  | drop (i : ℕ)
  | pop (i : ℕ)
  | takeLastResort (thread : T)
  | makeLastResort (thread : T)
  | unwind (i : ℕ)
  | die (r : ℕ)

namespace Op

/-- The value first held by an operation. -/
def given : Op α T → Option α
  | keep _ x | defer _ x => some x
  | _ => none

end Op

variable [DecidableEq T]

/-- The world after an operation, unless the code cannot have it there. -/
def World.step (w : World α T) : Op α T → Option (World α T)
  | .newHeld => some w.newHeld
  | .keep hold x => w.keep hold x
  | .raise r => w.raise r
  | .defer r x => w.defer r x
  | .raising i r => w.raising i r
  | .land hold r => w.land hold r
  | .cleanupStep hold body step => w.cleanupStep hold body step
  | .drop i => w.drop i
  | .pop i => w.pop i
  | .takeLastResort thread => w.takeLastResort thread
  | .makeLastResort thread => w.makeLastResort thread
  | .unwind i => w.unwind i
  | .die r => w.die r

/-- A program's operations, from the start. -/
def run (ops : List (Op α T)) : Option (World α T) := ops.foldlM World.step .start

end ReimsVgpu.Rt.Held
