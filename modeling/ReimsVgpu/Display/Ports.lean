import ReimsVgpu.Display.GuestDisplay

/-!
# The display ports

A port's client is named from three places: the port, where a display without a guest display is
parked; the port's guest display, whose client it is; and the display itself, which holds its guest
display. Attaching and detaching a display and changing a port's page run under the displays lock; in
between they hold the guest display's mutex and the display's, one after the other. Each such hold is a
step, and the other threads' calls come in between.

A guest display is the machine of `GuestDisplay`, and its mutex is held for one call of it. Left out
are the EFI display, the present state of a display and its responsiveness. The arrays of eight ports
are functions of the port. A thread is named only in a teardown, which goes from port to port.

## Main definitions

* `PortCount`, `Display`, `World`: the device's ports, displays and guest displays.
* `Held`: how far the call is that holds the displays lock.
* `World.advance`, `World.call`, `World.Step`: the steps.
-/

open ReimsVgpu.Display (Word DisplayMode Page Host)

namespace ReimsVgpu.DisplayPorts

/-- The ports of a device; its creation refuses 0 and more than eight. -/
structure PortCount where
  count : ℕ
  pos : 0 < count
  le : count ≤ 8

/-- Where the ports end the process, a guest display's own deaths among them. -/
inductive DeathKind
  | parkedOnFreePort
  | detachOutOfRange
  | detachNotClaimed
  | detachOtherGuestDisplayClient
  | detachOtherParkedClient
  | detachParkedWithGuestDisplay
  | parkedBesideGuestDisplay
  | guestDisplaySwapUnbalanced
  | guestDisplay (kind : Display.DeathKind)
deriving DecidableEq

/-- What a page change raises. -/
inductive RaiseKind
  | portOutOfRange
  | portInUse
  | portNotInUse
  | mapPage
  | noRootNode
deriving DecidableEq

/-- `port_bit`: an `int` shift, sign-extended. -/
def portBit (port : ℕ) : BitVec 64 := ((1 : BitVec 32) <<< (port % 32)).signExtend 64

/-- How far a display is from its making to its end. `claimed` is between the attach's return and the
store of the attached flag, `ending` from its last release to its detach. -/
inductive Life
  | unmade
  | made
  | claimed
  | attached
  | ending
  | detached
  | refused
  | gone
deriving DecidableEq

/-- A display: whether the device's registry has it, its own guest display, its modes, and its
`set_mode_list` between the display's mutex and the guest display's. -/
structure Display (γ ρ : Type*) where
  life : Life
  port : ℕ
  registered : Bool
  guestDisplay : Option γ
  modeList : Option (List (DisplayMode ρ))
  update : Option (List (DisplayMode ρ) × γ)

/-- What a port shows: its busy bit, its parked client, its guest display and the client of that. -/
structure PortView (δ γ : Type*) where
  busy : Bool
  parked : Option δ
  guestDisplay : Option γ
  client : Option δ

/-- The clients of a port. -/
def PortView.clients {δ γ : Type*} (v : PortView δ γ) : List δ := v.parked.toList ++ v.client.toList

/-- A page change: its arguments, the teardown that calls it, and the ports as it took the lock. -/
structure PageCall (δ γ τ : Type*) where
  page : Word
  port : ℕ
  restoring : Bool
  caller : Option τ
  before : ℕ → PortView δ γ

/-- A page change that returned, and the ports then. -/
structure PageChange (δ γ τ : Type*) where
  call : PageCall δ γ τ
  raised : Option RaiseKind
  after : ℕ → PortView δ γ

/-- Where the call is that holds the displays lock; `…Client` is before the guest display's
`set_client`, `…Own` before the display's `set_guest_display`. -/
inductive Held (δ γ τ : Type*)
  | attach (d : δ)
  | attachClient (d : δ) (g : γ)
  | attachOwn (d : δ) (g : γ)
  | attachEnd (d : δ)
  | detach (d : δ)
  | detachClient (d : δ) (g : γ)
  | detachEnd (d : δ)
  | page (c : PageCall δ γ τ)
  | pageOwn (c : PageCall δ γ τ) (g : γ) (client : δ)
  | pageClient (c : PageCall δ γ τ) (g : γ) (client : δ)
  | pageStore (c : PageCall δ γ τ) (g : γ)
  | zeroClient (c : PageCall δ γ τ) (g : γ) (client : Option δ)
  | zeroOwn (c : PageCall δ γ τ) (client : Option δ)
  | zeroStore (c : PageCall δ γ τ) (client : Option δ)

/-- Where a thread is in `teardown_displays`: before a port's check, or in its page 0. -/
inductive Teardown
  | idle
  | check (port : ℕ)
  | calling (port : ℕ)

structure World (δ γ τ ρ R : Type*) where
  displayPortBusyMask : BitVec 64
  guestDisplay : ℕ → Option γ
  displayClient : ℕ → Option δ
  rootWord : ℕ → Word
  guest : γ → Option (Display.World δ ρ R)
  display : δ → Display γ ρ
  held : Option (Held δ γ τ)
  teardown : τ → Teardown
  changes : List (PageChange δ γ τ)
  died : Option DeathKind

/-- What a step of the lock's holder is answered: the host's part in a guest display's call, the guest
display it makes, the page mapped for it, whether there is a root node, and whether the device runs. -/
structure Answer (γ R : Type*) where
  host : Host R
  made : γ
  mapped : Option (Page R)
  root : Bool
  running : Bool

inductive Action (δ γ τ ρ R : Type*)
  | make (d : δ) (port : ℕ) (reserved : Bool)
  | attach (d : δ)
  | storeAttached (d : δ)
  | drop (d : δ)
  | detach (d : δ)
  | deregister (d : δ)
  | setModeList (d : δ) (list : List (DisplayMode ρ)) (upgrades : Bool)
  | handModeList (d : δ) (host : Host R)
  | page (page : Word) (port : ℕ) (restoring : Bool)
  | teardown (t : τ)
  | teardownPort (t : τ)
  | teardownPage (t : τ)
  | advance (answer : Answer γ R)
  | guest (g : γ) (a : Display.Action δ ρ R)

/-- The calls of a guest display that are no display's and no port's. -/
def isGuests {δ ρ R : Type*} : Display.Action δ ρ R → Bool
  | .setClient _ _ _ => false
  | .setModeList _ _ => false
  | _ => true

namespace World

variable {δ γ τ ρ R : Type*}

/-- A device that is made: no display, no guest display. -/
def new : World δ γ τ ρ R where
  displayPortBusyMask := 0
  guestDisplay := fun _ => none
  displayClient := fun _ => none
  rootWord := fun _ => 0
  guest := fun _ => none
  display := fun _ => ⟨.unmade, 0, false, none, none, none⟩
  held := none
  teardown := fun _ => .idle
  changes := []
  died := none

/-- A guest display over a mapped page. -/
def onPage (page : Page R) (restoring : Bool) : Display.World δ ρ R :=
  { Display.World.new page.rest with page, willRestore := restoring }

/-- The client of a guest display. -/
def client (w : World δ γ τ ρ R) (g : γ) : Option δ := (w.guest g).bind (·.client)

def busy (w : World δ γ τ ρ R) (port : ℕ) : Bool :=
  decide (port < 8 ∧ w.displayPortBusyMask &&& portBit port ≠ 0)

def view (w : World δ γ τ ρ R) (port : ℕ) : PortView δ γ :=
  ⟨w.busy port, w.displayClient port, w.guestDisplay port, (w.guestDisplay port).bind w.client⟩

def die (w : World δ γ τ ρ R) (kind : DeathKind) : World δ γ τ ρ R := { w with died := some kind }

def hold (w : World δ γ τ ρ R) (held : Held δ γ τ) : World δ γ τ ρ R := { w with held := some held }

def unlock (w : World δ γ τ ρ R) : World δ γ τ ρ R := { w with held := none }

section

variable [DecidableEq δ]

def setDisplay (w : World δ γ τ ρ R) (d : δ) (display : Display γ ρ) : World δ γ τ ρ R :=
  { w with display := Function.update w.display d display }

def setLife (w : World δ γ τ ρ R) (d : δ) (life : Life) : World δ γ τ ρ R :=
  w.setDisplay d { w.display d with life }

def setBusy (w : World δ γ τ ρ R) (port : ℕ) (on : Bool) : World δ γ τ ρ R :=
  { w with
    displayPortBusyMask :=
      if on then w.displayPortBusyMask ||| portBit port
      else w.displayPortBusyMask &&& ~~~portBit port }

def setClientAt (w : World δ γ τ ρ R) (port : ℕ) (client : Option δ) : World δ γ τ ρ R :=
  { w with displayClient := Function.update w.displayClient port client }

def setGuestDisplayAt (w : World δ γ τ ρ R) (port : ℕ) (g : Option γ) : World δ γ τ ρ R :=
  { w with guestDisplay := Function.update w.guestDisplay port g }

def setRootWord (w : World δ γ τ ρ R) (port : ℕ) (page : Word) : World δ γ τ ρ R :=
  { w with rootWord := Function.update w.rootWord port page }

end

section

variable [DecidableEq δ] [DecidableEq γ] [DecidableEq τ] (refresh16 : ρ → Word) (count : PortCount)
  (turns : ℕ)

def setGuest (w : World δ γ τ ρ R) (g : γ) (guest : Display.World δ ρ R) : World δ γ τ ρ R :=
  { w with guest := Function.update w.guest g (some guest) }

/-- A call under a guest display's mutex, one that does not raise. -/
def guestCall (w : World δ γ τ ρ R) (g : γ) (a : Display.Action δ ρ R) :
    Option (World δ γ τ ρ R) :=
  match w.guest g with
  | none => none
  | some guest =>
    match guest.call refresh16 turns a with
    | some (.ok guest) => some (w.setGuest g guest)
    | some (.died kind) => some (w.die (.guestDisplay kind))
    | _ => none

/-- `GuestDisplay::set_client`, the core found by the registry. -/
def setClient (w : World δ γ τ ρ R) (g : γ) (client : Option δ) (host : Host R) :
    Option (World δ γ τ ρ R) :=
  w.guestCall refresh16 turns g
    (.setClient client (client.any fun d => (w.display d).registered) host)

/-- `Display::set_guest_display`, under the display's mutex: a new guest display is handed the modes. -/
def setGuestDisplay (w : World δ γ τ ρ R) (d : δ) (guestDisplay : Option γ) (host : Host R) :
    Option (World δ γ τ ρ R) :=
  if guestDisplay.isNone = (w.display d).guestDisplay.isNone then
    some (w.die .guestDisplaySwapUnbalanced)
  else
    let w := w.setDisplay d { w.display d with guestDisplay }
    match guestDisplay, (w.display d).modeList with
    | some g, some list => w.guestCall refresh16 turns g (.setModeList list host)
    | _, _ => some w

/-- The same for a display the registry has; nothing for one it has not. -/
def setCoreGuestDisplay (w : World δ γ τ ρ R) (d : δ) (guestDisplay : Option γ) (host : Host R) :
    Option (World δ γ τ ρ R) :=
  if (w.display d).registered then w.setGuestDisplay refresh16 turns d guestDisplay host
  else some w

/-- A page change returns, and the lock is free; a teardown goes on to its next port. -/
def endPage (w : World δ γ τ ρ R) (c : PageCall δ γ τ) (raised : Option RaiseKind) :
    World δ γ τ ρ R :=
  { w with
    held := none
    changes := w.changes ++ [⟨c, raised, w.view⟩]
    teardown :=
      match c.caller with
      | none => w.teardown
      | some t => Function.update w.teardown t (.check (c.port + 1)) }

/-- `attach_display` once the lock is taken: the claim, and the port's guest display or its parking. -/
def advanceAttach (w : World δ γ τ ρ R) (d : δ) : World δ γ τ ρ R :=
  let port := (w.display d).port
  if w.displayPortBusyMask &&& portBit port ≠ 0 then (w.setLife d .refused).unlock
  else
    let w := w.setBusy port true
    match w.guestDisplay port with
    | some g => w.hold (.attachClient d g)
    | none =>
      if (w.displayClient port).isSome then w.die .parkedOnFreePort
      else (w.setClientAt port (some d)).hold (.attachEnd d)

/-- `detach_display` once the lock is taken: its checks, and the parked client dropped. -/
def advanceDetach (w : World δ γ τ ρ R) (d : δ) : World δ γ τ ρ R :=
  let port := (w.display d).port
  if count.count ≤ port then w.die .detachOutOfRange
  else if w.displayPortBusyMask &&& portBit port = 0 then w.die .detachNotClaimed
  else match w.guestDisplay port with
    | some g =>
      if w.client g = some d then w.hold (.detachClient d g) else w.die .detachOtherGuestDisplayClient
    | none =>
      if (w.displayClient port).isSome ∧ w.displayClient port ≠ some d then
        w.die .detachOtherParkedClient
      else if (w.display d).registered ∧ (w.display d).guestDisplay.isSome then
        w.die .detachParkedWithGuestDisplay
      else (w.setClientAt port none).hold (.detachEnd d)

/-- `set_shared_display_state_page_locked` up to the first of the clients' calls. A guest display
whose making ends in a raise is kept for good. -/
def advancePage (w : World δ γ τ ρ R) (c : PageCall δ γ τ) (answer : Answer γ R) :
    Option (World δ γ τ ρ R) :=
  if c.page ≠ 0 then
    if (w.guestDisplay c.port).isSome then some (w.endPage c (some .portInUse))
    else match answer.mapped with
      | none => some (w.endPage c (some .mapPage))
      | some page =>
        if (w.guest answer.made).isSome then none
        else
          let w := w.setGuest answer.made (onPage page c.restoring)
          if c.restoring = false ∧ answer.root = false then some (w.endPage c (some .noRootNode))
          else
            let w := if c.restoring then w else w.setRootWord c.port c.page
            match w.displayClient c.port with
            | some client => some (w.hold (.pageOwn c answer.made client))
            | none => some (w.hold (.pageStore c answer.made))
  else match w.guestDisplay c.port with
    | none => some (w.endPage c (some .portNotInUse))
    | some g => some (w.hold (.zeroClient c g (w.client g)))

/-- Page 0's end: the client parks, the guest display goes. -/
def advanceZeroStore (w : World δ γ τ ρ R) (c : PageCall δ γ τ) (client : Option δ)
    (answer : Answer γ R) : World δ γ τ ρ R :=
  if (w.displayClient c.port).isSome then w.die .parkedBesideGuestDisplay
  else
    let w := (w.setClientAt c.port client).setGuestDisplayAt c.port none
    let w := if answer.root ∧ answer.running then w.setRootWord c.port 0 else w
    w.endPage c none

/-- The step of the call that holds the displays lock. -/
def advance (w : World δ γ τ ρ R) (answer : Answer γ R) : Held δ γ τ → Option (World δ γ τ ρ R)
  | .attach d => some (w.advanceAttach d)
  | .attachClient d g =>
    (w.setClient refresh16 turns g (some d) answer.host).map (·.hold (.attachOwn d g))
  | .attachOwn d g =>
    (w.setCoreGuestDisplay refresh16 turns d (some g) answer.host).map (·.hold (.attachEnd d))
  | .attachEnd d => some (w.setLife d .claimed).unlock
  | .detach d => some (w.advanceDetach count d)
  | .detachClient d g =>
    (w.setClient refresh16 turns g none answer.host).map (·.hold (.detachEnd d))
  | .detachEnd d =>
    some ((w.setBusy (w.display d).port false).setLife d .detached).unlock
  | .page c => w.advancePage c answer
  | .pageOwn c g client =>
    (w.setCoreGuestDisplay refresh16 turns client (some g) answer.host).map
      (·.hold (.pageClient c g client))
  | .pageClient c g client =>
    (w.setClient refresh16 turns g (some client) answer.host).map (·.hold (.pageStore c g))
  | .pageStore c g =>
    -- the slot of the parked client is empty already where there was none
    some (((w.setClientAt c.port none).setGuestDisplayAt c.port (some g)).endPage c none)
  | .zeroClient c g client =>
    (w.setClient refresh16 turns g none answer.host).map (·.hold (.zeroOwn c client))
  | .zeroOwn c client =>
    match client with
    | none => some (w.hold (.zeroStore c none))
    | some d =>
      (w.setCoreGuestDisplay refresh16 turns d none answer.host).map
        (·.hold (.zeroStore c (some d)))
  | .zeroStore c client => some (w.advanceZeroStore c client answer)

/-- `Display::new` up to the attach: refused for its port, its pipelines or its serial number, or
registered. -/
def make (w : World δ γ τ ρ R) (d : δ) (port : ℕ) (reserved : Bool) : World δ γ τ ρ R :=
  let display := w.display d
  if count.count ≤ port ∨ reserved = false then w.setDisplay d { display with life := .refused, port }
  else w.setDisplay d { display with life := .made, port, registered := true }

/-- `Display::set_mode_list` under the display's mutex: the modes stored, and the guest display read
and retained. The retain takes a guest display that a port has. -/
def setModeList (w : World δ γ τ ρ R) (d : δ) (list : List (DisplayMode ρ)) (upgrades : Bool) :
    Option (World δ γ τ ρ R) :=
  let display := w.display d
  if list = [] then some w
  else match display.guestDisplay with
    | none => some (w.setDisplay d { display with modeList := some list })
    | some g =>
      if upgrades then
        some (w.setDisplay d { display with modeList := some list, update := some (list, g) })
      else if (List.range 8).any fun port => w.guestDisplay port = some g then none
      else some (w.setDisplay d { display with modeList := some list })

/-- `set_shared_display_state_page` up to the lock. -/
def page (w : World δ γ τ ρ R) (page : Word) (port : ℕ) (restoring : Bool) (caller : Option τ) :
    Option (World δ γ τ ρ R) :=
  let c : PageCall δ γ τ := ⟨page, port, restoring, caller, w.view⟩
  if count.count ≤ port then
    some { w.endPage c (some .portOutOfRange) with held := w.held }
  else if w.held.isSome then none
  else some (w.hold (.page c))

/-- A step, `none` where it cannot be taken. -/
def call (w : World δ γ τ ρ R) (a : Action δ γ τ ρ R) : Option (World δ γ τ ρ R) :=
  if w.died.isSome then none
  else match a with
    | .make d port reserved =>
      if (w.display d).life = .unmade then some (w.make count d port reserved) else none
    | .attach d =>
      if (w.display d).life ≠ .made then none
      else if count.count ≤ (w.display d).port then some (w.setLife d .refused)
      else if w.held.isSome then none
      else some (w.hold (.attach d))
    | .storeAttached d =>
      if (w.display d).life = .claimed then some (w.setLife d .attached) else none
    | .drop d => if (w.display d).life = .attached then some (w.setLife d .ending) else none
    | .detach d =>
      if (w.display d).life = .ending ∧ w.held.isNone then some (w.hold (.detach d)) else none
    | .deregister d =>
      if (w.display d).life = .detached ∨ (w.display d).life = .refused then
        some (w.setDisplay d { w.display d with life := .gone, registered := false })
      else none
    | .setModeList d list upgrades =>
      if (w.display d).life = .unmade ∨ (w.display d).update.isSome then none
      else w.setModeList d list upgrades
    | .handModeList d host =>
      match (w.display d).update with
      | none => none
      | some (list, g) =>
        (w.setDisplay d { w.display d with update := none }).guestCall refresh16 turns g
          (.setModeList list host)
    | .page page port restoring => w.page count page port restoring none
    | .teardown t =>
      match w.teardown t with
      | .idle => some { w with teardown := Function.update w.teardown t (.check 0) }
      | _ => none
    | .teardownPort t =>
      match w.teardown t with
      | .check port =>
        some { w with
          teardown := Function.update w.teardown t
            (if count.count ≤ port then .idle
             else if (w.guestDisplay port).isSome then .calling port else .check (port + 1)) }
      | _ => none
    | .teardownPage t =>
      match w.teardown t with
      | .calling port => w.page count 0 port false (some t)
      | _ => none
    | .advance answer => w.held.bind (w.advance refresh16 count turns answer)
    | .guest g a => if isGuests a then w.guestCall refresh16 turns g a else none

/-- A step of a run in which no guest display's machine raises. -/
def Step (w : World δ γ τ ρ R) (a : Action δ γ τ ρ R) (w' : World δ γ τ ρ R) : Prop :=
  ∃ turns, w.call refresh16 count turns a = some w'

end

end World

end ReimsVgpu.DisplayPorts
