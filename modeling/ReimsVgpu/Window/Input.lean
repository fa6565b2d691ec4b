import Mathlib.Algebra.Group.Int.Defs
import Mathlib.Data.Int.Notation
import Mathlib.Data.List.Nodup

/-!
# A window's input on Linux

What the person does with the pointer, the wheel and the keys, as the host's callbacks get it. The
input keeps the keys and buttons that the guest was told are down, and what to send since it was last
taken. What the code computes in floating point is a parameter, as no decision here depends on it but
whether a point is on the image and which pixel of the guest it is over.

## Main definitions

* `KeyState`, `Capture`: the keys held, and who gets the keyboard.
* `Input`: one window's input, with a function for each event.
-/

namespace ReimsVgpu.Window.LinuxInput

/-! ### The keys held -/

/-- A key went down or up. -/
structure KeyEvent where
  usage : UInt16
  down : Bool
  deriving DecidableEq, Repr

/-- Which modifiers are down, either side. -/
structure Modifiers where
  control : Bool
  option : Bool
  command : Bool
  shift : Bool
  deriving DecidableEq, Repr

/-- The usages of a kind of modifier, left then right. -/
structure ModifierPair where
  left : UInt16
  right : UInt16

def controlKeys : ModifierPair := ⟨0xE0, 0xE4⟩

def shiftKeys : ModifierPair := ⟨0xE1, 0xE5⟩

def optionKeys : ModifierPair := ⟨0xE2, 0xE6⟩

def commandKeys : ModifierPair := ⟨0xE3, 0xE7⟩

/-- The keys that the guest was told are down, in the order they went down. -/
structure KeyState where
  held : List UInt16
  nodup : held.Nodup

/-- No key down. -/
def KeyState.new : KeyState := ⟨[], List.nodup_nil⟩

def KeyState.isHeld (keys : KeyState) (usage : UInt16) : Bool := keys.held.contains usage

def KeyState.heldModifiers (keys : KeyState) : Modifiers :=
  let either (kind : ModifierPair) := keys.isHeld kind.left || keys.isHeld kind.right
  ⟨either controlKeys, either optionKeys, either commandKeys, either shiftKeys⟩

/-- A key went down; the host's repeats are dropped, and a key already down. -/
def KeyState.keyDown (keys : KeyState) (usage : UInt16) (isRepeat : Bool) :
    KeyState × Option KeyEvent :=
  if h : isRepeat || keys.isHeld usage then (keys, none)
  else (⟨keys.held ++ [usage], List.nodup_append.mpr ⟨keys.nodup, List.nodup_singleton _, by
    rintro a ha _ hb rfl
    obtain rfl := List.mem_singleton.mp hb
    exact h (Bool.or_eq_true_iff.mpr (.inr (List.contains_iff_mem.mpr ha)))⟩⟩, some ⟨usage, true⟩)

/-- A key went up. -/
def KeyState.keyUp (keys : KeyState) (usage : UInt16) : KeyState × Option KeyEvent :=
  if keys.isHeld usage then (⟨keys.held.erase usage, keys.nodup.erase usage⟩, some ⟨usage, false⟩)
  else (keys, none)

/-- Ups for every key down, the last down first. -/
def KeyState.releaseAll (keys : KeyState) : KeyState × List KeyEvent :=
  (.new, keys.held.reverse.map fun usage => ⟨usage, false⟩)

/-! ### Who gets the keyboard -/

/-- Whether the keyboard and the pointer are captured. -/
structure Capture where
  captured : Bool
  deriving DecidableEq, Repr

/-- A click landed in the image; whether it goes to the guest. -/
def Capture.clickInImage (_ : Capture) (windowWasKey : Bool) : Capture × Bool :=
  (⟨true⟩, windowWasKey)

/-- Releases the keyboard and the pointer; whether they were captured. -/
def Capture.release (capture : Capture) : Capture × Bool := (⟨false⟩, capture.captured)

/-- The window lost the keyboard. -/
def Capture.resignKey (capture : Capture) : Capture × Bool := capture.release

/-- Whether the modifiers are the chord that releases capture. -/
def Capture.releaseChord (capture : Capture) (held : Modifiers) : Bool :=
  capture.captured && held.control && held.option && held.command

/-! ### The input -/

variable {F L : Type*}

/-- A rectangle in points. -/
structure Rect (F : Type*) where
  x : F
  y : F
  width : F
  height : F

/-- A width and a height in pixels. -/
abbrev Mode := UInt16 × UInt16

/-- What the code computes in floating point. -/
structure Floats (F L : Type*) where
  /-- The guest's pixel under a point, for an image that shows a mode. -/
  pointerToGuest : F × F → Rect F → Mode → UInt16 × UInt16
  /-- Whether a point is on the image. -/
  contains : Rect F → F × F → Bool
  /-- The smooth distance of lines turned one way, in 1/256 point. -/
  fixed : ℤ → L → ℤ

/-- What the window knows when an event reaches it. -/
structure At (F : Type*) where
  point : Option (F × F)
  image : Rect F
  guest : Option Mode

/-- The guest's mode, where it has one with pixels. -/
def guestMode (a : At F) : Option Mode := a.guest.filter fun mode => 0 < mode.1 && 0 < mode.2

/-- Whether an event has a point, and the guest a mode with pixels: the pointer is sent only then. -/
def At.Shows (a : At F) : Prop := a.point.isSome ∧ (guestMode a).isSome

/-- What the window does after an event. -/
structure Reaction where
  captureChanged : Bool
  deriving DecidableEq, Repr

/-- What the input sends the host. -/
inductive ToHost
  | pointer (pixel : UInt16 × UInt16) (mode : Mode) (buttons : BitVec 32)
  | wheel (notches smooth : ℤ × ℤ)
  | key (event : KeyEvent)
  deriving DecidableEq, Repr

/-- One wheel event's values: notches and lines, right then away, and whether they are flipped. -/
structure Wheel (L : Type*) where
  notches : ℤ × ℤ
  lines : L × L
  flipped : Bool

/-- `i32::saturating_mul`. -/
def saturatingMul (a b : ℤ) : ℤ := max (-2 ^ 31) (min (2 ^ 31 - 1) (a * b))

/-- `FOCUS_CLICK_NS`. -/
def focusClickNs : ℕ := 100000000

/-- One window's input. -/
structure Input where
  keys : KeyState
  capture : Capture
  buttons : BitVec 32
  last : Option ToHost
  focused : Bool
  focusedAt : Option ℕ
  out : List ToHost

namespace Input

def new : Input := ⟨.new, ⟨false⟩, 0, none, false, none, []⟩

/-- What to send, taken. -/
def take (input : Input) : Input × List ToHost := ({ input with out := [] }, input.out)

def push (input : Input) (event : ToHost) : Input := { input with out := input.out ++ [event] }

/-- The pointer with the buttons held, sent where it differs from the one last sent, or always. -/
def pointer (f : Floats F L) (input : Input) (point : F × F) (image : Rect F) (mode : Mode)
    (always : Bool) : Input :=
  let event := ToHost.pointer (f.pointerToGuest point image mode) mode input.buttons
  if always ∨ input.last ≠ some event then { input with last := some event }.push event else input

/-- The pointer moved. -/
def moved (f : Floats F L) (input : Input) (a : At F) : Input :=
  match a.point, guestMode a with
  | some point, some mode => input.pointer f point a.image mode false
  | _, _ => input

/-- Whether a click is the one that focuses the window. -/
def focusing (input : Input) (timestamp : ℕ) : Bool :=
  !input.focused || input.focusedAt.any fun t => timestamp - t < focusClickNs

/-- A button went down. -/
def buttonDown (f : Floats F L) (input : Input) (bit : BitVec 32) (timestamp : ℕ) (a : At F) :
    Input × Reaction :=
  match a.point, guestMode a with
  | some point, some mode =>
    if bit = 0 ∨ ¬f.contains a.image point then (input, ⟨false⟩)
    else
      let wasCaptured := input.capture.captured
      let click := if wasCaptured then (input.capture, true)
        else input.capture.clickInImage !input.focusing timestamp
      let input := { input with capture := click.1 }
      let input := if click.2 then
          { input with buttons := input.buttons ||| bit }.pointer f point a.image mode true
        else input
      (input, ⟨input.capture.captured != wasCaptured⟩)
  | _, _ => (input, ⟨false⟩)

/-- A button went up. -/
def buttonUp (f : Floats F L) (input : Input) (bit : BitVec 32) (a : At F) : Input :=
  if input.buttons &&& bit = 0 then input
  else
    let input := { input with buttons := input.buttons &&& ~~~bit }
    match a.point, guestMode a with
    | some point, some mode => input.pointer f point a.image mode true
    | _, _ => input

/-- The wheel turned. -/
def wheel (f : Floats F L) (input : Input) (wheel : Wheel L) (a : At F) : Input :=
  match a.point, guestMode a with
  | some point, some _ =>
    if f.contains a.image point then
      let input := input.moved f a
      let sign : ℤ := if wheel.flipped then -1 else 1
      let notches := (saturatingMul wheel.notches.2 sign, saturatingMul wheel.notches.1 (-sign))
      let smooth := (f.fixed sign wheel.lines.2, f.fixed (-sign) wheel.lines.1)
      if notches ≠ (0, 0) ∨ smooth ≠ (0, 0) then input.push (.wheel notches smooth) else input
    else input
  | _, _ => input

/-- Ups for every key held. -/
def liftKeys (input : Input) : Input :=
  let (keys, ups) := input.keys.releaseAll
  { input with keys := keys, out := input.out ++ ups.map .key }

/-- A pointer event with no button, where one is held, at the last pointer's pixel. -/
def liftButtons (input : Input) : Input :=
  if input.buttons = 0 then input
  else
    let input := { input with buttons := 0 }
    match input.last with
    | some (.pointer pixel mode _) =>
      { input with last := some (.pointer pixel mode 0) }.push (.pointer pixel mode 0)
    | _ => input

/-- Releases capture, lifting every key held. -/
def releaseCapture (input : Input) : Input × Reaction :=
  let input := input.liftKeys
  let (capture, was) := input.capture.release
  ({ input with capture := capture }, ⟨was⟩)

/-- The keys held after a key's event, which is sent where there is one. -/
def keyed (input : Input) : KeyState × Option KeyEvent → Input
  | (keys, some event) => { input with keys := keys }.push (.key event)
  | (keys, none) => { input with keys := keys }

/-- A key went down or up. -/
def key (input : Input) (usage : UInt16) (down isRepeat : Bool) : Input × Reaction :=
  if !input.focused then (input, ⟨false⟩)
  else if !down then (input.keyed (input.keys.keyUp usage), ⟨false⟩)
  else
    let input := input.keyed (input.keys.keyDown usage isRepeat)
    if input.capture.releaseChord input.keys.heldModifiers then input.releaseCapture
    else (input, ⟨false⟩)

/-- The window gained the keyboard. -/
def focusGained (input : Input) (timestamp : ℕ) : Input :=
  { input with focused := true, focusedAt := some timestamp }

/-- The window lost the keyboard. -/
def focusLost (input : Input) : Input × Reaction :=
  let input := { input with focused := false }.liftKeys.liftButtons
  let (capture, was) := input.capture.resignKey
  ({ input with capture := capture }, ⟨was⟩)

/-- The window is closing. -/
def closing (input : Input) : Input :=
  let input := input.liftKeys.liftButtons
  { input with capture := input.capture.release.1 }

end Input

end ReimsVgpu.Window.LinuxInput
