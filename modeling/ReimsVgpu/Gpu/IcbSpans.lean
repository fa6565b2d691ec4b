import Mathlib.Data.List.Sort
import Mathlib.Data.ENat.Basic
import ReimsVgpu.Gpu.IcbBlits

/-!
# Which state a record names

The GPU writes a command's record with a pipeline state's resource ID, which states take one after
another. A getter answers the one state that held the ID when the record can have been written: core's
own, and each that held it in a span since core's set in which the GPU may have written the buffer. A
span lasts from the encoding of a command that may write to its command buffer's end; a copy carries its
source's. Past 64 spans a buffer joins two that ended into one.

Beside the spans kept stand all of them apart, which only the statements read, as what a joined one was
joined of.

## Main definitions

* `History`, `heldWithin`: the states made with one resource ID.
* `Window`, `write`: the spans a buffer keeps, two of them joined past 64.
* `namedState`: the state a record names, or why it cannot be told.
* `Names`, `Names.step`: what happens to the states, the commands and the spans.
-/

namespace ReimsVgpu.Gpu.Icb

/-- Core's set of a command's state, and the point it was set at. -/
def CommandSide.own (s : CommandSide) : Option (SetPipeline × ℕ) :=
  s.pipeline.map fun set => (set, s.pipelineAt)

/-- Core's set of a command of a buffer. -/
def Sides.own (s : Sides) (index : ℕ) : Option (SetPipeline × ℕ) := (s.get index).own

/-! ### The states of an ID -/

/-- A state made with a resource ID, which held it from its creation to its release, if that came. -/
structure Holder where
  identifier : UInt64
  made : ℕ
  gone : ℕ∞
  deriving DecidableEq

/-- The states made with one ID, oldest first, and the point until which one no longer kept may have
held it. -/
structure History where
  holders : List Holder := []
  lostUntil : ℕ∞ := (0 : ℕ)
  deriving DecidableEq

/-- How many of an ID's states are kept. -/
def historyKept : ℕ := 16

/-- A state made, the oldest released one dropped past those kept, or the oldest. -/
def History.nextOf (h : History) (identifier : UInt64) (made : ℕ) : History :=
  let holders := h.holders ++ [⟨identifier, made, ⊤⟩]
  if holders.length ≤ historyKept then { h with holders }
  else
    let i := holders.findIdx fun holder => holder.gone ≠ ⊤
    let i := if i < holders.length then i else 0
    { holders := holders.eraseIdx i
      lostUntil := (holders[i]?).elim h.lostUntil fun dropped =>
        if h.lostUntil ≤ dropped.gone then dropped.gone else h.lostUntil }

/-- A state released. -/
def History.released (h : History) (identifier : UInt64) (gone : ℕ) : History :=
  match h.holders.findIdx? fun holder => holder.identifier = identifier with
  | none => h
  | some i => { h with holders := h.holders.modify i fun holder => { holder with gone := gone } }

/-- A state kept was made and released between two points. -/
def heldWithin (histories : List (UInt64 × History)) (low high : ℕ) : Bool :=
  histories.any fun e => e.2.holders.any fun holder =>
    low ≤ holder.made && holder.gone ≠ ⊤ && holder.gone ≤ high

/-! ### The spans of a buffer -/

/-- A span in which the GPU may write a buffer's records: its start, its end's cell and its command
buffer. -/
structure Opened where
  start : ℕ
  stop : ℕ
  of : ℕ
  deriving DecidableEq

/-- A span that is kept: its start, its end's cell, and its command buffer, none for spans joined. What
it was joined of is for the statements alone. -/
structure Window where
  start : ℕ
  stop : ℕ
  of : Option ℕ
  parts : List Opened
  deriving DecidableEq

/-- The ends of the spans, each in a cell that its copies share: `⊤` until the command buffer ended. -/
structure Cells where
  count : ℕ := 0
  ends : ℕ → ℕ∞ := fun _ => ⊤

/-- A cell made. -/
def Cells.new (c : Cells) (stop : ℕ∞) : Cells :=
  ⟨c.count + 1, Function.update c.ends c.count stop⟩

/-- How many spans a buffer keeps apart. -/
def windows : ℕ := 64

/-- Two ended spans name the same states as the one that covers both: no state was made and released
between them, and no command was set between their ends. -/
def joinable (histories : List (UInt64 × History)) (aStop bStart bStop : ℕ) (sets : List ℕ) : Bool :=
  let low := min aStop bStop
  let high := max aStop bStop
  if sets.any fun point => low ≤ point && point < high then false
  else bStart ≤ aStop || !heldWithin histories aStop bStart

/-- The order of spans by their starts, their ends and their places. -/
def spanLe (a b : ℕ × ℕ × ℕ) : Prop :=
  a.1 < b.1 ∨ a.1 = b.1 ∧ (a.2.1 < b.2.1 ∨ a.2.1 = b.2.1 ∧ a.2.2 ≤ b.2.2)

instance : DecidableRel spanLe := fun a b => inferInstanceAs
  (Decidable (a.1 < b.1 ∨ a.1 = b.1 ∧ (a.2.1 < b.2.1 ∨ a.2.1 = b.2.1 ∧ a.2.2 ≤ b.2.2)))

/-- The spans that ended: their starts, their ends and their places, in order. -/
def endedSpans (cells : Cells) (writes : List Window) : List (ℕ × ℕ × ℕ) :=
  (writes.zipIdx.filterMap fun (w, i) => if cells.ends w.stop = ⊤ then none
    else some (w.start, (cells.ends w.stop).toNat, i)).insertionSort spanLe

/-- `Sides::write`: a span kept once, and past those kept apart two that ended and follow one another
joined where they can be. -/
def write (histories : List (UInt64 × History)) (sets : List ℕ) (writes : List Window)
    (cells : Cells) (w : Window) : List Window × Cells :=
  if writes.any fun kept => kept.stop = w.stop then (writes, cells)
  else
    let writes := writes ++ [w]
    if writes.length ≤ windows then (writes, cells)
    else
      let ended := endedSpans cells writes
      match (ended.zip ended.tail).find? fun (a, b) => joinable histories a.2.1 b.1 b.2.1 sets with
      | none => (writes, cells)
      | some ((start, aStop, a), (_, bStop, b)) =>
        let parts (i : ℕ) := (writes[i]?).elim [] Window.parts
        ((writes.set a ⟨start, cells.count, none, parts a ++ parts b⟩).eraseIdx b,
          cells.new (max aStop bStop : ℕ))

/-! ### The state a record names -/

/-- Why a record does not tell its state. -/
inductive Unnamed
  /-- Its ID's states in a span are no longer kept. -/
  | lost
  /-- No state was made with its ID. -/
  | notMade
  /-- Neither core's set nor a span tells which. -/
  | untold
  /-- Two or more states held the ID. -/
  | several
  deriving DecidableEq, Repr

/-- The states that held the ID in the spans are added, if they are kept. -/
def addStates (h : History) :
    List (ℕ × ℕ∞) → List UInt64 → Except Unnamed (List UInt64)
  | [], states => .ok states
  | (start, stop) :: writes, states =>
    if (start : ℕ∞) < h.lostUntil then .error .lost
    else addStates h writes (h.holders.foldl (fun states holder =>
      if (holder.made : ℕ∞) < stop ∧ (start : ℕ∞) < holder.gone then
        states.insert holder.identifier else states) states)

/-- The state of a set of candidates, or of all the ID's where there is none. -/
def only (history : Option History) : List UInt64 → Except Unnamed UInt64
  | [identifier] => .ok identifier
  | [] =>
    match history with
    | none => .error .notMade
    | some h =>
      match h.holders with
      | [holder] => if h.lostUntil = (0 : ℕ) then .ok holder.identifier else .error .untold
      | _ => .error .untold
  | _ => .error .several

/-- The state a record names by its ID: of core's set on its command and the point it was set at, the
spans in which the GPU may have written it, and the states made with the ID. -/
def namedState (own : Option (SetPipeline × ℕ)) (writes : List (ℕ × ℕ∞)) (id : UInt64)
    (history : Option History) : Except Unnamed UInt64 :=
  let setAt := own.elim 0 Prod.snd
  let core := own.elim [] fun set => if set.1.id = id then [set.1.identifier] else []
  match history with
  | none => only none core
  | some h =>
    (addStates h (writes.filter fun w => (setAt : ℕ∞) < w.2) core).bind (only (some h))

/-! ### What happens -/

/-- What decides which states the records of the buffers name: the order's last point, the states by
device and ID, what is kept of the commands, the spans and the cells each command buffer ends. -/
structure Names (β δ : Type) where
  order : ℕ := 0
  identifiers : ℕ := 0
  histories : δ → List (UInt64 × History) := fun _ => []
  sides : β → Sides := fun _ => {}
  cells : Cells := {}
  writes : β → List Window := fun _ => []
  apart : β → List Opened := fun _ => []
  holds : ℕ → List ℕ := fun _ => []

/-- A state made or released on a device, a command set, commands reset by a blit that ran or may have,
a span of a command buffer, its end, and a copy that completed or failed. -/
inductive NameEvent (β δ : Type)
  | makes (d : δ) (id : UInt64)
  | releases (d : δ) (id identifier : UInt64)
  | sets (b : β) (index : ℕ) (setter : Setter)
  | resets (b : β) (commands : Indices) (failed : Bool)
  | mayBeWritten (c : ℕ) (b : β)
  | ends (c : ℕ)
  | copied (source : β) (commands : Indices) (destination : β) (into : ℕ) (failed : Bool)

namespace Names

variable {β δ : Type} [DecidableEq β] [DecidableEq δ] (made : β → Made) (device : β → δ)
  (p : Names β δ)

/-- The states of an ID changed. -/
def alter (l : List (UInt64 × History)) (id : UInt64) (f : History → History) :
    List (UInt64 × History) :=
  if l.any fun e => e.1 = id then l.map fun e => if e.1 = id then (e.1, f e.2) else e
  else l ++ [(id, f ⟨[], (0 : ℕ)⟩)]

/-- Core's set on a command, and the point it was set at. -/
def own (b : β) (index : ℕ) : Option (SetPipeline × ℕ) := (p.sides b).own index

/-- The points of the sets of a buffer's commands. -/
def setPoints (b : β) : List ℕ :=
  (List.range (made b).size).filterMap fun i => (p.own b i).map Prod.snd

/-- A span is kept by a buffer. -/
def keep (b : β) (w : Window) : Names β δ :=
  let kept := write (p.histories (device b)) (p.setPoints made b) (p.writes b) p.cells w
  { p with writes := Function.update p.writes b kept.1, cells := kept.2 }

/-- `may_be_written`: a span from now to the command buffer's end, one for each command buffer. -/
def mayBeWritten (c : ℕ) (b : β) : Names β δ :=
  if (p.writes b).any fun w => w.of = some c && p.cells.ends w.stop = ⊤ then p
  else
    let span : Opened := ⟨p.order + 1, p.cells.count, c⟩
    let opened : Names β δ := { p with
      order := p.order + 1
      cells := p.cells.new ⊤
      apart := Function.update p.apart b (p.apart b ++ [span])
      holds := Function.update p.holds c (p.holds c ++ [p.cells.count]) }
    opened.keep made device b ⟨span.start, span.stop, some c, [span]⟩

/-- A command buffer's spans end. -/
def ends (c : ℕ) : Names β δ :=
  let closed := (p.holds c).foldl (fun p stop => { p with
    order := p.order + 1
    cells := { p.cells with ends := Function.update p.cells.ends stop ((p.order + 1 : ℕ)) } }) p
  { closed with holds := Function.update closed.holds c [] }

/-- A copy's source's spans are kept by its destination. -/
def carry (source destination : β) : Names β δ :=
  let carried := (p.writes source).foldl (fun p w => p.keep made device destination w) p
  { carried with
    apart := Function.update p.apart destination (p.apart destination ++ p.apart source) }

/-- One buffer's sides set. -/
def setSides (b : β) (s : Sides) : Names β δ := { p with sides := Function.update p.sides b s }

/-- A command set by core. -/
def setCommand (b : β) (index : ℕ) (set : Setter) : Names β δ :=
  let side := set.edit ((p.sides b).get index)
  p.setSides b ((p.sides b).put index (some { side with unknown := side.unknown.settle set.kept }))

/-- What happens, unless it cannot. -/
def step : NameEvent β δ → Option (Names β δ)
  | .makes d id =>
    let p := { p with identifiers := p.identifiers + 1 }
    if id = 0 then some p
    else some { p with
      order := p.order + 1
      histories := Function.update p.histories d
        (alter (p.histories d) id fun h => h.nextOf (UInt64.ofNat p.identifiers) (p.order + 1)) }
  | .releases d id identifier =>
    if id = 0 then some p
    else if (p.histories d).any fun e =>
        e.1 = id && e.2.holders.any fun h => h.identifier = identifier && h.gone ≠ ⊤ then none
    else some { p with
      order := p.order + 1
      histories := Function.update p.histories d ((p.histories d).map fun e =>
        if e.1 = id then (e.1, e.2.released identifier (p.order + 1)) else e) }
  | .sets b index setter =>
    match setter with
    | .pipeline _ now =>
      if index < (made b).size ∧ now = p.order + 1 then
        some { p.setCommand b index setter with order := now }
      else none
    | _ => if index < (made b).size then some (p.setCommand b index setter) else none
  | .resets b commands failed =>
    if commands.stop ≤ (made b).size then
      some (p.setSides b (if failed then (p.sides b).mayClear commands
        else (p.sides b).clear commands))
    else none
  | .mayBeWritten c b => some (p.mayBeWritten made device c b)
  | .ends c => some (p.ends c)
  | .copied source commands destination into failed =>
    if device source = device destination ∧ commands.stop ≤ (made source).size ∧
        into + commands.count ≤ (made destination).size then
      let moved := (p.sides source).copies commands
      let landed := p.setSides destination (if failed then
        (p.sides destination).unsettle commands.start into moved
        else (p.sides destination).take commands.start into moved)
      some (landed.carry made device source destination)
    else none

/-- The state that a record of a command names by an ID, by the spans kept. -/
def named (b : β) (index : ℕ) (id : UInt64) : Except Unnamed UInt64 :=
  namedState (p.own b index) ((p.writes b).map fun w => (w.start, p.cells.ends w.stop)) id
    ((p.histories (device b)).lookup id)

/-- The same by all the spans apart. -/
def namedApart (b : β) (index : ℕ) (id : UInt64) : Except Unnamed UInt64 :=
  namedState (p.own b index) ((p.apart b).map fun w => (w.start, p.cells.ends w.stop)) id
    ((p.histories (device b)).lookup id)

end Names

end ReimsVgpu.Gpu.Icb
