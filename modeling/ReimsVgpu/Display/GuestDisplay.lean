import Mathlib.Logic.Function.Basic
import ReimsVgpu.Library.Execution

/-!
# The guest display's connect/ack machine

The guest's side of a display port: the state word, the ack words and the modes in the guest's page,
and the client, the display's mode list and the pause and restore flags in the host. Every entry point
changes its own part under the guest display's mutex and then runs the machine.

The page's other fields are one value, which the guest may change at any time; what the settings, the
protection options, the guest's colour space and a restore do to it is the host's answer to the call
(`Host`). The client's core is reachable or not (`core`); it may go while its display is the client.
The loop takes a number of turns and is out of them where it would go on.

## Main definitions

* `Page`, `World`: the page and the guest display.
* `World.turn`, `World.loop`, `World.stateMachine`: the machine.
* `Action`, `World.call`, `World.Step`: the entry points.
-/

namespace ReimsVgpu.Display

abbrev Word := BitVec 32

/-- The page's interrupts of the machine. -/
inductive Interrupt
  | connect
  | disconnect
  | update
deriving DecidableEq

def Interrupt.mask : Interrupt → Word
  | connect => 4
  | disconnect => 8
  | update => 12

/-- What a call raises: an ack's own raises, and those of the colour space and of a restore. -/
inductive RaiseKind
  | ackNothingPending
  | ackUnexpected
  | colorSpace
  | restore
deriving DecidableEq

/-- Where a call ends the process. -/
inductive DeathKind
  | commandWhilePaused
  | clientAlreadySet
  | protectionWithoutDevice
  | noModeList
  | modeCountTooLarge
  | pauseTwice
  | unpauseRunning
  | willRestoreTwice
  | finishRestoreUnexpected
deriving DecidableEq

/-- How a call ends. -/
inductive Outcome (α : Type*)
  | ok (a : α)
  | raised (kind : RaiseKind) (a : α)
  | died (kind : DeathKind)

/-! ### The modes -/

structure DisplayCoord where
  x : BitVec 16
  y : BitVec 16
deriving DecidableEq

/-- A display's mode, its refresh rate of a type `ρ`. -/
structure DisplayMode (ρ : Type*) where
  sizeInPixels : DisplayCoord
  refreshRateInHz : ρ
  supportsEdr : Bool
  supports10bpc : Bool

def maxModes : ℕ := 128

def modeFlagSupportsEdr : BitVec 8 := 1

def modeFlagSupports10bpc : BitVec 8 := 2

/-- A mode in the page. -/
structure ModeEntry where
  width : BitVec 16
  height : BitVec 16
  refreshRate : Word
  flags : BitVec 8
deriving DecidableEq

/-- A field written where it differs, and whether it did. -/
def put {α : Type*} [DecidableEq α] (old new : α) : α × Bool :=
  if old ≠ new then (new, true) else (old, false)

/-- A flag of a byte written where it differs. -/
def putFlag (flags mask : BitVec 8) (on : Bool) : BitVec 8 × Bool :=
  if decide (flags &&& mask ≠ 0) ≠ on then
    (if on then flags ||| mask else flags &&& ~~~mask, true)
  else (flags, false)

/-- An entry synced to a mode, with the rate in 16.16 fixed point. -/
def ModeEntry.sync {ρ : Type*} (refresh16 : ρ → Word) (e : ModeEntry) (mode : DisplayMode ρ) :
    ModeEntry × Bool :=
  let width := put e.width mode.sizeInPixels.x
  let height := put e.height mode.sizeInPixels.y
  let rate := put e.refreshRate (refresh16 mode.refreshRateInHz)
  let deep := putFlag e.flags modeFlagSupports10bpc mode.supports10bpc
  let edr := putFlag deep.1 modeFlagSupportsEdr mode.supportsEdr
  (⟨width.1, height.1, rate.1, edr.1⟩, width.2 || height.2 || rate.2 || deep.2 || edr.2)

/-- The entries from an index on synced to the modes. -/
def syncModes {ρ : Type*} (refresh16 : ρ → Word) :
    ℕ → List (DisplayMode ρ) → (ℕ → ModeEntry) → (ℕ → ModeEntry) × Bool
  | _, [], entries => (entries, false)
  | i, mode :: modes, entries =>
    let e := (entries i).sync refresh16 mode
    let rest := syncModes refresh16 (i + 1) modes (Function.update entries i e.1)
    (rest.1, e.2 || rest.2)

/-! ### The guest display -/

/-- The page: the machine's fields, the interrupt words and the rest. -/
structure Page (R : Type*) where
  state : Word
  expectedAck : Word
  lastAck : Word
  ackPending : BitVec 8
  modeListCount : BitVec 16
  modes : ℕ → ModeEntry
  raisedInterrupts : Word
  enabledInterrupts : Word
  rest : R

/-- The host's answers to a call: the settings synced to the client's, and whether any differed; the
protection options stored, unless the device is gone; the guest's colour space taken again, unless it
raises; and the cursor and the presents of a restore, unless they raise. -/
structure Host (R : Type*) where
  syncSettings : R → R × Bool
  storeProtectionOptions : R → Option R
  updateGuestColorSpace : R → Option R
  restore : R → Option R

/-- What is told to the guest, and what it told. -/
inductive Event
  | raised (interrupt : Interrupt) (poked : Bool)
  | acked (ack : Word)

/-- A guest display: its page, its client and whether the client's core is reached, the modes not yet
consumed, and the flags; and the modes consumed last, and what happened. -/
structure World (δ ρ R : Type*) where
  page : Page R
  client : Option δ
  core : Bool
  modeList : Option (List (DisplayMode ρ))
  paused : Bool
  willRestore : Bool
  didRestore : Bool
  consumed : Option (List (DisplayMode ρ))
  events : List Event

/-- How a turn of the machine's loop ends. -/
inductive Turn (α : Type*)
  | again (a : α)
  | left (a : α)
  | out (a : α) (state : Word) (interrupt : Option Interrupt)
  | raised (kind : RaiseKind) (a : α)
  | died (kind : DeathKind)

/-- The entry points, the client's core going and the guest's writes. -/
inductive Action (δ ρ R : Type*)
  | setClient (client : Option δ) (core : Bool) (host : Host R)
  | setModeList (list : List (DisplayMode ρ)) (host : Host R)
  | ack (ack : Word) (host : Host R)
  | pause
  | unpause (host : Host R)
  | willRestore
  | finishRestore (host : Host R)
  | coreGone
  | guest (raised enabled : Word) (rest : R)

namespace World

variable {δ ρ R : Type*} (refresh16 : ρ → Word)

/-- A guest display over a zeroed page. -/
def new (rest : R) : World δ ρ R where
  page :=
    { state := 0, expectedAck := 0, lastAck := 0, ackPending := 0, modeListCount := 0
      modes := fun _ => ⟨0, 0, 0, 0⟩, raisedInterrupts := 0, enabledInterrupts := 0, rest }
  client := none
  core := false
  modeList := none
  paused := false
  willRestore := false
  didRestore := false
  consumed := none
  events := []

def setRest (w : World δ ρ R) (rest : R) : World δ ρ R := { w with page := { w.page with rest } }

def setState (w : World δ ρ R) (state : Word) : World δ ρ R :=
  { w with page := { w.page with state } }

/-- An ack is expected and pending. -/
def expectAck (w : World δ ρ R) : World δ ρ R :=
  { w with page := { w.page with expectedAck := w.page.expectedAck + 1, ackPending := 1 } }

/-- `sync_mode_list`. -/
def syncModeList (w : World δ ρ R) : Except DeathKind (World δ ρ R × Bool) :=
  match w.modeList with
  | none => .error .noModeList
  | some list =>
    if w.paused then .error .commandWhilePaused
    else if maxModes < w.page.modeListCount.toNat then .error .modeCountTooLarge
    else
      let modes := list.take maxModes
      let count := put w.page.modeListCount (BitVec.ofNat 16 modes.length)
      let entries := syncModes refresh16 0 modes w.page.modes
      .ok ({ w with
        page := { w.page with modeListCount := count.1, modes := entries.1 }
        modeList := none
        consumed := some list }, count.2 || entries.2)

/-- The turn in state 0. -/
def turnDisconnected (host : Host R) (w : World δ ρ R) : Turn (World δ ρ R) :=
  if w.core ∧ w.modeList.isSome then
    let w := w.setRest (host.syncSettings w.page.rest).1
    match w.syncModeList refresh16 with
    | .error kind => .died kind
    | .ok (w, _) =>
      match host.storeProtectionOptions w.page.rest with
      | none => .died .protectionWithoutDevice
      | some rest =>
        match host.updateGuestColorSpace rest with
        | none => .raised .colorSpace (w.setRest rest)
        | some rest => .out { (w.setRest rest).expectAck with didRestore := false } 1 (some .connect)
  else .out { w with didRestore := false } 0 none

/-- The turn in state 2, or in one that is no state of the protocol: the settings and the modes. -/
def updated (host : Host R) (w : World δ ρ R) :
    Except DeathKind (World δ ρ R × Word × Option Interrupt) :=
  let counted := w.page.modeListCount ≠ 0
  let resend := decide (w.page.state ≠ 2 ∧ counted)
  if w.core ∧ (w.modeList.isSome ∨ w.didRestore ∧ counted ∨ resend) then
    let settings := host.syncSettings w.page.rest
    let w := w.setRest settings.1
    let modes := if w.modeList.isSome then w.syncModeList refresh16 else .ok (w, false)
    match modes with
    | .error kind => .error kind
    | .ok (w, modesChanged) =>
      if settings.2 || modesChanged || resend then .ok (w.expectAck, 1, some .update)
      else .ok (w, w.page.state, none)
  else .ok (w, w.page.state, none)

def turnConnected (host : Host R) (w : World δ ρ R) : Turn (World δ ρ R) :=
  match w.updated refresh16 host with
  | .error kind => .died kind
  | .ok (w, state, interrupt) =>
    if w.core = false ∨ w.page.modeListCount = 0 then
      .out { w with page := { w.page with modeListCount := 0 }, didRestore := false } 0
        (some .disconnect)
    else .out { w with didRestore := false } state interrupt

/-- A turn of the loop. -/
def turn (host : Host R) (w : World δ ρ R) : Turn (World δ ρ R) :=
  if w.page.state = 0 then w.turnDisconnected refresh16 host
  else if w.page.state = 1 then
    if w.page.ackPending = 1 then .left w else .again (w.setState 2)
  else w.turnConnected refresh16 host

/-- The loop, in at most so many turns. -/
def loop (host : Host R) : ℕ → World δ ρ R → Option (Turn (World δ ρ R))
  | 0, _ => none
  | turns + 1, w =>
    match w.turn refresh16 host with
    | .again w => loop host turns w
    | turn => some turn

/-- The interrupt after the loop. -/
def interrupt (w : World δ ρ R) : Option Interrupt → World δ ρ R
  | none => w
  | some i =>
    { w with
      page := { w.page with raisedInterrupts := w.page.raisedInterrupts ||| i.mask }
      events := w.events ++ [.raised i (decide (w.page.enabledInterrupts &&& i.mask ≠ 0))] }

/-- `state_machine`. -/
def stateMachine (host : Host R) (turns : ℕ) (w : World δ ρ R) : Option (Outcome (World δ ρ R)) :=
  if w.paused ∨ w.willRestore then some (.ok w)
  else match loop refresh16 host turns w with
    | none => none
    | some (.again w) => some (.ok w)
    | some (.left w) => some (.ok w)
    | some (.out w state i) => some (.ok ((w.interrupt i).setState state))
    | some (.raised kind w) => some (.raised kind w)
    | some (.died kind) => some (.died kind)

/-- `set_client`. -/
def setClient (w : World δ ρ R) (client : Option δ) (core : Bool) (host : Host R) (turns : ℕ) :
    Option (Outcome (World δ ρ R)) :=
  if w.client.isSome ∧ client.isSome then some (.died .clientAlreadySet)
  else stateMachine refresh16 host turns { w with client, core := client.isSome && core }

/-- `set_mode_list`. -/
def setModeList (w : World δ ρ R) (list : List (DisplayMode ρ)) (host : Host R) (turns : ℕ) :
    Option (Outcome (World δ ρ R)) :=
  stateMachine refresh16 host turns { w with modeList := some list }

/-- The ack expected is taken. -/
def takeAck (w : World δ ρ R) (ack : Word) : World δ ρ R :=
  { w with
    page := { w.page with lastAck := ack, ackPending := 0 }
    events := w.events ++ [.acked ack] }

/-- `ack`. -/
def ack (w : World δ ρ R) (ack : Word) (host : Host R) (turns : ℕ) :
    Option (Outcome (World δ ρ R)) :=
  if w.paused then some (.died .commandWhilePaused)
  else if w.page.ackPending &&& 1 = 0 then some (.raised .ackNothingPending w)
  else if ack ≠ w.page.expectedAck then some (.raised .ackUnexpected w)
  else stateMachine refresh16 host turns (w.takeAck ack)

/-- `finish_restore`: what raises on the way ends it. -/
def finishRestore (w : World δ ρ R) (host : Host R) (turns : ℕ) :
    Option (Outcome (World δ ρ R)) :=
  if w.willRestore = false then some (.died .finishRestoreUnexpected)
  else
    let w := { w with willRestore := false, didRestore := true }
    if w.paused then some (.died .commandWhilePaused)
    else match host.restore w.page.rest with
      | none => some (.raised .restore w)
      | some rest => stateMachine refresh16 host turns (w.setRest rest)

/-- A call, in at most so many turns of the loop; the core's going; and the guest's writes. -/
def call (turns : ℕ) (w : World δ ρ R) : Action δ ρ R → Option (Outcome (World δ ρ R))
  | .setClient client core host => w.setClient refresh16 client core host turns
  | .setModeList list host => w.setModeList refresh16 list host turns
  | .ack ack host => World.ack refresh16 w ack host turns
  | .pause => some (if w.paused then .died .pauseTwice else .ok { w with paused := true })
  | .unpause host =>
    if w.paused = false then some (.died .unpauseRunning)
    else stateMachine refresh16 host turns { w with paused := false }
  | .willRestore =>
    some (if w.willRestore then .died .willRestoreTwice else .ok { w with willRestore := true })
  | .finishRestore host => w.finishRestore refresh16 host turns
  | .coreGone => some (.ok { w with core := false })
  | .guest raised enabled rest =>
    some (.ok { w with
      page := { w.page with raisedInterrupts := raised, enabledInterrupts := enabled, rest } })

/-- A step of a run in which no call dies, and only an ack raises, and that by itself. Mode lists are
not empty. -/
inductive Step : World δ ρ R → Action δ ρ R → World δ ρ R → Prop
  | returns {w w' : World δ ρ R} {a : Action δ ρ R} {turns : ℕ}
      (hlist : ∀ list host, a = .setModeList list host → list ≠ [])
      (h : w.call refresh16 turns a = some (.ok w')) : Step w a w'
  | refused {w w' : World δ ρ R} {a : Action δ ρ R} {turns : ℕ} {kind : RaiseKind}
      (hkind : kind = .ackNothingPending ∨ kind = .ackUnexpected)
      (h : w.call refresh16 turns a = some (.raised kind w')) : Step w a w'

end World

end ReimsVgpu.Display
