import Mathlib.Logic.Function.Basic
import ReimsVgpu.Library.Execution

/-!
# A window's calls, its jobs and its render thread

A window is attached and closed, and told what the guest did, on any thread. The opening, the guest's
changes, the close and the render thread's release are posted to the UI thread, which runs one job after
the other in the order posted. The shell is the UI thread's: what SDL's window is for. The render
thread draws into SDL's window through a presenter, and lets that go at the window's end.

Each atomic access, each hold of a lock, each post and each read of the window by the shell is a step.
A window that SDL has made has a size, so a relayout always lays out. Left out are the modes that the
display offers, the sizes and the input; SDL's events relayout the window, set the cursor again and
show or hide the window.

The world counts the closes that returned, and tells of the one that ended the window whether it has
returned; no step reads them.

## Main definitions

* `Call`, `Ui`, `Render`: where a thread is in a call, and the UI thread and the render thread.
* `World`, `World.step`, `World.Step`: the steps.
-/

namespace ReimsVgpu.Window

/-- What is posted to the UI thread. -/
inductive Job
  | opening
  | guestModeChanged
  | cursorChanged
  | close
  | released
deriving DecidableEq

/-- SDL's video on the UI thread. -/
inductive Video
  | starting
  | running
  | failed
deriving DecidableEq

/-- The guest's side: its mode, its cursor glyph, and whether it shows its cursor. -/
structure GuestState (M G : Type*) where
  mode : Option M
  cursor : Option G
  cursorVisible : Bool

/-- Where a thread is in a call. A guest's change, once stored, is late where the shell has read the
window already. -/
inductive Call (M G S : Type*)
  | outside
  | attach (sink : S)
  | attachStore (sink : S)
  | attachRecheck
  | attachTake
  | attachSwap
  | attachStart
  | attachPost
  | attachPosted
  | close
  | closeCallbacks
  | closeSink
  | closeSurface
  | closeAttached
  | closePost
  | guestMode (mode : M)
  | modeIsPosted (late : Bool)
  | modeIsClosed
  | modePost
  | cursorGlyph (glyph : G)
  | cursorShow (visible : Bool)
  | cursorIsPosted (late : Bool)
  | cursorIsClosed
  | cursorSwap
  | cursorPost

/-- A call that a thread makes. -/
inductive Entry (M G S : Type*)
  | attach (sink : S)
  | close
  | guestMode (mode : M)
  | cursorGlyph (glyph : G)
  | cursorShow (visible : Bool)

def Entry.call {M G S : Type*} : Entry M G S → Call M G S
  | .attach sink => .attach sink
  | .close => .close
  | .guestMode mode => .guestMode mode
  | .cursorGlyph glyph => .cursorGlyph glyph
  | .cursorShow visible => .cursorShow visible

/-- Where the UI thread is: in a job before its first step, or in one of the opening's, the
relayout's or the cursor's. -/
inductive Ui
  | idle
  | job (job : Job)
  | making
  | targeting (sdl : ℕ)
  | showing (sdl : ℕ)
  | relayout
  | refresh (relayout : Bool)
  | layout (changed : Bool)
deriving DecidableEq

/-- Where the render thread is; `waiting` has the draw to make again. -/
inductive Render
  | none
  | waiting (retry : Option ℕ)
  | drawing (target : ℕ)
  | ending
  | dropped
  | ended
deriving DecidableEq

/-- What the render thread draws with. -/
structure SurfaceState where
  target : Option ℕ
  layout : Bool
  visible : Bool
  dirty : Bool
  closed : Bool

/-- A window open on the UI thread: SDL's window, what the last relayout and the last refresh of the
cursor read, and its end. -/
structure Shell (M G : Type*) where
  sdl : ℕ
  mode : Option (Option M)
  cursor : Option (Option G × Bool)
  closed : Bool
  released : Bool

structure World (τ M G S K : Type*) where
  closed : Bool
  attached : Bool
  openPosted : Bool
  cursorPosted : Bool
  guest : GuestState M G
  callbacks : Option K
  sink : Option S
  surface : SurfaceState
  calls : τ → Call M G S
  video : Video
  queue : List Job
  ui : Ui
  shell : Option (Shell M G)
  render : Render
  /-- The SDL window over which the render thread's presenter has its surface. -/
  presenter : Option ℕ
  /-- SDL's windows, numbered as they are made. -/
  made : List ℕ
  destroyed : List ℕ
  closesReturned : ℕ
  /-- The close that ended the window has returned. -/
  endReturned : Bool

/-- What the UI thread's step is answered: whether the opening still finds the window, whether SDL
makes its window, and whether a relayout changes the layout. -/
structure UiAnswer where
  upgrades : Bool
  makes : Bool
  changes : Bool

/-- What the render thread's step is answered: whether the sink makes a presenter, whether the
presenter stays after its draw, and whether the draw is to be made again. -/
structure RenderAnswer where
  makes : Bool
  keeps : Bool
  again : Bool

inductive Action (τ M G S : Type*)
  | call (t : τ) (entry : Entry M G S)
  | goOn (t : τ)
  | newFrame
  | video (starts : Bool)
  | pop
  | ui (answer : UiAnswer)
  | eventRelayout
  | eventRefresh
  | eventShown (visible : Bool)
  | render (answer : RenderAnswer)

namespace World

variable {τ M G S K : Type*}

/-- A new window, with the host's callbacks. -/
def new (callbacks : K) : World τ M G S K where
  closed := false
  attached := false
  openPosted := false
  cursorPosted := false
  guest := ⟨none, none, false⟩
  callbacks := some callbacks
  sink := none
  surface := ⟨none, false, false, false, false⟩
  calls := fun _ => .outside
  video := .starting
  queue := []
  ui := .idle
  shell := none
  render := .none
  presenter := none
  made := []
  destroyed := []
  closesReturned := 0
  endReturned := false

/-- `ui::post`. -/
def post (w : World τ M G S K) (job : Job) : World τ M G S K :=
  if w.video = .failed then w else { w with queue := w.queue ++ [job] }

/-- The shell has read the mode, in a relayout. -/
def laidOut (w : World τ M G S K) : Bool := w.shell.any (·.mode.isSome)

/-- The shell has read the cursor. -/
def cursorRead (w : World τ M G S K) : Bool := w.shell.any (·.cursor.isSome)

section

variable [DecidableEq τ]

def setCall (w : World τ M G S K) (t : τ) (call : Call M G S) : World τ M G S K :=
  { w with calls := Function.update w.calls t call }

/-- A close returns. -/
def closeReturns (w : World τ M G S K) (t : τ) (ends : Bool) : World τ M G S K :=
  { w.setCall t .outside with
    closesReturned := w.closesReturned + 1, endReturned := w.endReturned || ends }

/-- The next step of a thread's call. -/
def goOn (w : World τ M G S K) (t : τ) : Call M G S → Option (World τ M G S K)
  | .outside => none
  | .attach sink => some (w.setCall t (if w.closed then .outside else .attachStore sink))
  | .attachStore sink => some { w.setCall t .attachRecheck with sink := some sink }
  | .attachRecheck => some (w.setCall t (if w.closed then .attachTake else .attachSwap))
  | .attachTake => some { w.setCall t .outside with sink := none }
  | .attachSwap =>
    some { w.setCall t (if w.attached then .outside else .attachStart) with attached := true }
  | .attachStart => some { w.setCall t .attachPost with render := .waiting none }
  | .attachPost => some ((w.setCall t .attachPosted).post .opening)
  | .attachPosted => some { w.setCall t .outside with openPosted := true }
  | .close =>
    if w.closed then some (w.closeReturns t false)
    else some { w.setCall t .closeCallbacks with closed := true }
  | .closeCallbacks => some { w.setCall t .closeSink with callbacks := none }
  | .closeSink => some { w.setCall t .closeSurface with sink := none }
  | .closeSurface =>
    some { w.setCall t .closeAttached with surface := { w.surface with closed := true } }
  | .closeAttached =>
    if w.attached then some (w.setCall t .closePost) else some (w.closeReturns t true)
  | .closePost => some ((w.closeReturns t true).post .close)
  | .guestMode mode =>
    some { w.setCall t (.modeIsPosted w.laidOut) with guest := { w.guest with mode := some mode } }
  | .modeIsPosted _ => some (w.setCall t (if w.openPosted then .modeIsClosed else .outside))
  | .modeIsClosed => some (w.setCall t (if w.closed then .outside else .modePost))
  | .modePost => some ((w.setCall t .outside).post .guestModeChanged)
  | .cursorGlyph glyph =>
    some { w.setCall t (.cursorIsPosted w.cursorRead) with
      guest := { w.guest with cursor := some glyph } }
  | .cursorShow visible =>
    some { w.setCall t (.cursorIsPosted w.cursorRead) with
      guest := { w.guest with cursorVisible := visible } }
  | .cursorIsPosted _ => some (w.setCall t (if w.openPosted then .cursorIsClosed else .outside))
  | .cursorIsClosed => some (w.setCall t (if w.closed then .outside else .cursorSwap))
  | .cursorSwap =>
    some { w.setCall t (if w.cursorPosted then .outside else .cursorPost) with cursorPosted := true }
  | .cursorPost => some ((w.setCall t .outside).post .cursorChanged)

end

/-! ### The UI thread -/

def setUi (w : World τ M G S K) (ui : Ui) : World τ M G S K := { w with ui }

def setShell (w : World τ M G S K) (shell : Shell M G) : World τ M G S K :=
  { w with shell := some shell }

/-- `shell::destroy`. -/
def destroy (w : World τ M G S K) (shell : Shell M G) : World τ M G S K :=
  { w with shell := none, destroyed := w.destroyed ++ [shell.sdl] }

/-- The first step of a job. -/
def uiJob (w : World τ M G S K) (answer : UiAnswer) : Job → World τ M G S K
  | .opening =>
    w.setUi (if answer.upgrades = false ∨ w.closed ∨ w.shell.isSome then .idle else .making)
  | .guestModeChanged => w.setUi (if w.shell.isSome then .relayout else .idle)
  | .cursorChanged =>
    match w.shell with
    | none => w.setUi .idle
    | some _ => { w.setUi (.refresh false) with cursorPosted := false }
  | .close =>
    match w.shell with
    | none => w.setUi .idle
    | some shell =>
      let shell := { shell with closed := true }
      if shell.released then (w.setUi .idle).destroy shell else (w.setUi .idle).setShell shell
  | .released =>
    match w.shell with
    | none => w.setUi .idle
    | some shell =>
      let shell := { shell with released := true }
      if shell.closed then (w.setUi .idle).destroy shell else (w.setUi .idle).setShell shell

/-- The next step of the UI thread's job. The layout of an opened window is a changed one. -/
def uiStep (w : World τ M G S K) (answer : UiAnswer) : Ui → Option (World τ M G S K)
  | .idle => none
  | .job job => some (w.uiJob answer job)
  | .making =>
    if answer.makes then
      some { w.setUi (.targeting w.made.length) with made := w.made ++ [w.made.length] }
    else some (w.setUi .idle)
  | .targeting sdl =>
    some { w.setUi (.showing sdl) with
      surface := { w.surface with target := some sdl, dirty := true } }
  | .showing sdl =>
    some ({ w.setUi .relayout with
      surface := { w.surface with visible := true, dirty := w.surface.dirty || !w.surface.visible }
      }.setShell ⟨sdl, none, none, false, false⟩)
  | .relayout =>
    w.shell.map fun shell =>
      (w.setUi (if shell.mode.isNone ∨ answer.changes then .refresh true else .layout false)).setShell
        { shell with mode := some w.guest.mode }
  | .refresh relayout =>
    w.shell.map fun shell =>
      (w.setUi (if relayout then .layout true else .idle)).setShell
        { shell with cursor := some (w.guest.cursor, w.guest.cursorVisible) }
  | .layout changed =>
    some { w.setUi .idle with
      surface := { w.surface with layout := true, dirty := w.surface.dirty || changed } }

/-! ### The render thread -/

/-- `SurfaceState::take`. -/
def take (w : World τ M G S K) : Option ℕ :=
  if w.surface.dirty ∧ w.surface.visible ∧ w.surface.layout then w.surface.target else none

/-- `Surface::next`, `run` and the release. A draw to be made again is made once its wait is over. -/
def renderStep (w : World τ M G S K) (answer : RenderAnswer) : Render → Option (World τ M G S K)
  | .none => none
  | .waiting retry =>
    if w.surface.closed then some { w with render := .ending }
    else match w.take, retry with
      | some target, _ =>
        some { w with render := .drawing target, surface := { w.surface with dirty := false } }
      | none, some target =>
        some { w with render := if w.surface.visible then .drawing target else .waiting none }
      | none, none => none
  | .drawing target =>
    if w.presenter.isNone ∧ w.sink.isNone then some { w with render := .waiting none }
    else
      let presenter := if w.presenter.isNone ∧ answer.makes then some target else w.presenter
      some { w with
        render := .waiting (if answer.again then some target else none)
        presenter := if answer.keeps then presenter else none }
  | .ending => some { w with render := .dropped, presenter := none }
  | .dropped => some ({ w with render := .ended }.post .released)
  | .ended => none

section

variable [DecidableEq τ]

/-- A step, `none` where it cannot be taken. -/
def step (w : World τ M G S K) : Action τ M G S → Option (World τ M G S K)
  | .call t entry =>
    match w.calls t with
    | .outside => some (w.setCall t entry.call)
    | _ => none
  | .goOn t => w.goOn t (w.calls t)
  | .newFrame => some { w with surface := { w.surface with dirty := true } }
  | .video starts =>
    if w.video ≠ .starting then none
    else if starts then some { w with video := .running }
    else some { w with video := .failed, queue := [] }
  | .pop =>
    match w.queue with
    | [] => none
    | job :: queue =>
      if w.video = .running ∧ w.ui = .idle then some { w.setUi (.job job) with queue } else none
  | .ui answer => w.uiStep answer w.ui
  | .eventRelayout =>
    if w.ui = .idle ∧ w.shell.isSome then some (w.setUi .relayout) else none
  | .eventRefresh =>
    if w.ui = .idle ∧ w.shell.any (!·.closed) then some (w.setUi (.refresh false)) else none
  | .eventShown visible =>
    if w.ui = .idle ∧ w.shell.any (!·.closed) then
      some { w with
        surface := { w.surface with
          visible, dirty := w.surface.dirty || (visible && !w.surface.visible) } }
    else none
  | .render answer => w.renderStep answer w.render

def Step (w : World τ M G S K) (a : Action τ M G S) (w' : World τ M G S K) : Prop :=
  w.step a = some w'

end

end World

end ReimsVgpu.Window
