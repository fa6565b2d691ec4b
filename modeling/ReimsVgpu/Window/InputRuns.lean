import Mathlib.Data.List.Chain
import Mathlib.Data.List.Induction
import ReimsVgpu.Window.Input

/-!
# What the guest is told of keys and buttons

Runs of a window's input. The guest is told through what is sent: a key's downs and ups, and the buttons
of the last pointer event. What it should be told is held is kept beside the run: the buttons whose
downs were forwarded and that neither went up nor were lifted since.

## Main definitions

* `Event`, `History`: the events, and a run's input with what was sent and what is held.
* `keyEvents`, `told`: what the guest was told of a key and of the buttons.

## Main results

* `nothing_stuck_iff`: what the guest is told agrees with what is held throughout a run, unless a held
  button goes up while the pointer cannot be sent.
-/

namespace ReimsVgpu.Window.LinuxInput

variable {F L : Type*} {f : Floats F L}

/-! ### What the guest was told -/

/-- What the events sent say of a key: its downs (`true`) and ups. -/
def keyEvents (usage : UInt16) (sent : List ToHost) : List Bool :=
  sent.filterMap fun
    | .key event => if event.usage = usage then some event.down else none
    | _ => none

/-- The last pointer event. -/
def lastPointer (sent : List ToHost) : Option ToHost :=
  (sent.filter fun | .pointer _ _ _ => true | _ => false).getLast?

/-- The buttons that the guest was last told are held. -/
def told (sent : List ToHost) : BitVec 32 :=
  match lastPointer sent with
  | some (.pointer _ _ buttons) => buttons
  | _ => 0

/-- Downs and ups one after the other, a down first. -/
def Alternates (downs : List Bool) : Prop := downs.IsChain (· ≠ ·) ∧ downs.head? ≠ some false

section

variable {sent : List ToHost} {usage : UInt16} {downs : List Bool} {down : Bool} {keys : KeyState}
  {input : Input}

theorem alternates_nil : Alternates [] := ⟨.nil, nofun⟩

theorem Alternates.concat (h : Alternates downs) (hdown : down ≠ downs.getLast?.getD false) :
    Alternates (downs ++ [down]) := by
  rcases downs.eq_nil_or_concat' with rfl | ⟨downs, last, rfl⟩
  · exact ⟨.singleton _, fun hhead => hdown (Option.some.inj hhead)⟩
  · rw [List.getLast?_concat, Option.getD_some] at hdown
    refine ⟨List.isChain_append.mpr ⟨h.1, .singleton _, fun x hx y hy => ?_⟩, ?_⟩
    · rw [List.getLast?_concat] at hx
      obtain rfl := Option.some.inj hx
      obtain rfl := Option.some.inj hy
      exact hdown.symm
    · rw [List.head?_append_of_ne_nil _ (List.append_ne_nil_of_right_ne_nil _ (List.cons_ne_nil _ _))]
      exact h.2

@[simp] theorem keyEvents_append (sent new : List ToHost) :
    keyEvents usage (sent ++ new) = keyEvents usage sent ++ keyEvents usage new :=
  List.filterMap_append

@[simp] theorem keyEvents_pointer (pixel : UInt16 × UInt16) (mode : Mode) (buttons : BitVec 32) :
    keyEvents usage [.pointer pixel mode buttons] = [] := rfl

@[simp] theorem keyEvents_wheel (notches smooth : ℤ × ℤ) :
    keyEvents usage [.wheel notches smooth] = [] := rfl

theorem keyEvents_key (event : KeyEvent) :
    keyEvents usage [.key event] = if event.usage = usage then [event.down] else [] := by
  by_cases heq : event.usage = usage
  · rw [if_pos heq]
    exact List.filterMap_cons_some (if_pos heq)
  · rw [if_neg heq]
    exact List.filterMap_cons_none (if_neg heq)

/-- Ups for keys of which none comes twice. -/
theorem keyEvents_ups {usages : List UInt16} (h : usages.Nodup) :
    keyEvents usage ((usages.map fun usage => ⟨usage, false⟩).map .key) =
      if usage ∈ usages then [false] else [] := by
  induction usages with
  | nil => rfl
  | cons first usages ih =>
    obtain ⟨hfirst, hrest⟩ := List.nodup_cons.mp h
    rw [List.map_cons, List.map_cons, ← List.singleton_append, keyEvents_append, keyEvents_key, ih hrest]
    dsimp only
    by_cases heq : first = usage
    · subst heq
      rw [if_pos rfl, if_neg hfirst, if_pos List.mem_cons_self, List.append_nil]
    · rw [if_neg heq, List.nil_append]
      exact if_congr (by rw [List.mem_cons, or_iff_right (Ne.symm heq)]) rfl rfl

@[simp] theorem lastPointer_concat_pointer (pixel : UInt16 × UInt16) (mode : Mode)
    (buttons : BitVec 32) : lastPointer (sent ++ [.pointer pixel mode buttons]) =
      some (.pointer pixel mode buttons) := by
  rw [lastPointer, List.filter_append]
  exact List.getLast?_concat

@[simp] theorem lastPointer_concat_wheel (notches smooth : ℤ × ℤ) :
    lastPointer (sent ++ [.wheel notches smooth]) = lastPointer sent := by
  rw [lastPointer, List.filter_append]
  exact congrArg List.getLast? (List.append_nil _)

@[simp] theorem lastPointer_append_keys (events : List KeyEvent) :
    lastPointer (sent ++ events.map .key) = lastPointer sent := by
  have hnone : (events.map ToHost.key).filter (fun | .pointer _ _ _ => true | _ => false) = [] := by
    rw [List.filter_eq_nil_iff]
    intro event hevent
    obtain ⟨_, _, rfl⟩ := List.mem_map.mp hevent
    exact nofun
  rw [lastPointer, List.filter_append]
  exact congrArg List.getLast? ((congrArg _ hnone).trans (List.append_nil _))

/-- A pointer event is what was last told. -/
theorem told_concat_pointer (pixel : UInt16 × UInt16) (mode : Mode) (buttons : BitVec 32) :
    told (sent ++ [.pointer pixel mode buttons]) = buttons := by
  rw [told, lastPointer_concat_pointer]

/-! ### What the input keeps of it -/

/-- The guest was told in turns of each key, and last of a down where the key is held. -/
def KeysTold (sent : List ToHost) (keys : KeyState) : Prop :=
  ∀ usage, Alternates (keyEvents usage sent) ∧
    (usage ∈ keys.held ↔ (keyEvents usage sent).getLast? = some true)

/-- What an input keeps agrees with what was sent, but for the buttons. -/
structure Kept (sent : List ToHost) (input : Input) : Prop where
  keys : KeysTold sent input.keys
  last : input.last = lastPointer sent
  pointed : input.buttons ≠ 0 → ∃ pixel mode buttons, input.last = some (.pointer pixel mode buttons)

theorem KeysTold.of_keyEvents {sent' : List ToHost} (h : KeysTold sent keys)
    (heq : ∀ usage, keyEvents usage sent' = keyEvents usage sent) : KeysTold sent' keys := by
  intro usage
  rw [heq]
  exact h usage

theorem KeysTold.up_of_not_held (h : KeysTold sent keys) (husage : usage ∉ keys.held) :
    (keyEvents usage sent).getLast?.getD false = false := by
  have hlast := (h usage).2.not.mp husage
  cases heq : (keyEvents usage sent).getLast? with
  | none => rfl
  | some last =>
    cases last with
    | false => rfl
    | true => exact absurd heq hlast

theorem KeysTold.down_of_held (h : KeysTold sent keys) (husage : usage ∈ keys.held) :
    (keyEvents usage sent).getLast?.getD false = true := by
  rw [(h usage).2.mp husage, Option.getD_some]

/-- One event of a key, by which it is held where it went down. -/
theorem KeysTold.key {keys' : KeyState} {event : KeyEvent} (h : KeysTold sent keys)
    (hevent : event.down ≠ (keyEvents event.usage sent).getLast?.getD false)
    (hheld : ∀ usage, usage ∈ keys'.held ↔
      if event.usage = usage then event.down = true else usage ∈ keys.held) :
    KeysTold (sent ++ [.key event]) keys' := by
  intro usage
  rw [keyEvents_append, keyEvents_key, hheld]
  split_ifs with heq
  · subst heq
    refine ⟨(h event.usage).1.concat hevent, ?_⟩
    rw [List.getLast?_concat, Option.some.injEq]
  · rw [List.append_nil]
    exact h usage

theorem KeysTold.keyDown (h : KeysTold sent keys) (usage : UInt16) (isRepeat : Bool) :
    KeysTold (sent ++ (keys.keyDown usage isRepeat).2.toList.map .key)
      (keys.keyDown usage isRepeat).1 := by
  rw [KeyState.keyDown]
  split_ifs with hdrop
  · exact h.of_keyEvents fun usage => congrArg (keyEvents usage) (List.append_nil sent)
  · have hfresh : usage ∉ keys.held := fun hmem =>
      hdrop (Bool.or_eq_true_iff.mpr (.inr (List.contains_iff_mem.mpr hmem)))
    refine KeysTold.key h ?_ fun other => ?_
    · rw [h.up_of_not_held hfresh]
      exact Bool.false_ne_true.symm
    · dsimp only
      rw [List.mem_append, List.mem_singleton]
      split_ifs with heq
      · exact iff_of_true (.inr heq.symm) rfl
      · exact or_iff_left (Ne.symm heq)

theorem KeysTold.keyUp (h : KeysTold sent keys) (usage : UInt16) :
    KeysTold (sent ++ (keys.keyUp usage).2.toList.map .key) (keys.keyUp usage).1 := by
  rw [KeyState.keyUp]
  split_ifs with hheld
  · refine KeysTold.key h ?_ fun other => ?_
    · rw [h.down_of_held (List.contains_iff_mem.mp hheld)]
      exact Bool.false_ne_true
    · dsimp only
      rw [keys.nodup.mem_erase_iff]
      split_ifs with heq
      · exact iff_of_false (fun hne => hne.1 heq.symm) id
      · exact and_iff_right (Ne.symm heq)
  · exact h.of_keyEvents fun usage => congrArg (keyEvents usage) (List.append_nil sent)

/-- Lifting every key held leaves none down. -/
theorem KeysTold.releaseAll (h : KeysTold sent keys) :
    KeysTold (sent ++ keys.releaseAll.2.map .key) keys.releaseAll.1 := by
  intro usage
  rw [KeyState.releaseAll, keyEvents_append, keyEvents_ups (List.nodup_reverse.mpr keys.nodup)]
  split_ifs with hheld
  · rw [List.mem_reverse] at hheld
    refine ⟨(h usage).1.concat ?_, ?_⟩
    · rw [h.down_of_held hheld]
      exact Bool.false_ne_true
    · rw [List.getLast?_concat]
      exact iff_of_false List.not_mem_nil nofun
  · rw [List.mem_reverse] at hheld
    rw [List.append_nil]
    exact ⟨(h usage).1, iff_of_false List.not_mem_nil ((h usage).2.not.mp hheld)⟩

/-! ### What an event sends -/

/-- What an input keeps agrees with what was taken and what it has to send. -/
def Agrees (taken : List ToHost) (input : Input) : Prop := Kept (taken ++ input.out) input

/-- What the guest is told with what an input has to send. -/
def toldWith (taken : List ToHost) (input : Input) : BitVec 32 := told (taken ++ input.out)

variable {taken : List ToHost} {a : At F}

/-- The pointer sent, or the same as the one last sent, tells the buttons held. -/
theorem pointer_spec (input : Input) (h : KeysTold (taken ++ input.out) input.keys)
    (hlast : input.last = lastPointer (taken ++ input.out)) (point : F × F) (image : Rect F)
    (mode : Mode) (always : Bool) :
    Agrees taken (input.pointer f point image mode always) ∧
      toldWith taken (input.pointer f point image mode always) = input.buttons ∧
      (input.pointer f point image mode always).buttons = input.buttons := by
  rw [Input.pointer]
  generalize hpixel : f.pointerToGuest point image mode = pixel
  split_ifs with hsent
  · refine ⟨⟨?_, ?_, fun _ => ⟨pixel, mode, input.buttons, rfl⟩⟩, ?_, rfl⟩
    · refine h.of_keyEvents fun usage => ?_
      rw [Input.push, ← List.append_assoc, keyEvents_append, keyEvents_pointer, List.append_nil]
    · rw [Input.push, ← List.append_assoc, lastPointer_concat_pointer]
    · rw [toldWith, Input.push, ← List.append_assoc, told_concat_pointer]
  · have hsame := not_not.mp (not_or.mp hsent).2
    refine ⟨⟨h, hlast, fun _ => ⟨pixel, mode, input.buttons, hsame⟩⟩, ?_, rfl⟩
    rw [toldWith, told, ← hlast, hsame]

theorem moved_spec (h : Agrees taken input) :
    Agrees taken (input.moved f a) ∧ (input.moved f a).buttons = input.buttons ∧
      (toldWith taken input = input.buttons → toldWith taken (input.moved f a) = input.buttons) := by
  rw [Input.moved]
  split
  · obtain ⟨hagrees, htold, hbuttons⟩ := pointer_spec (f := f) input h.keys h.last _ a.image _ false
    exact ⟨hagrees, hbuttons, fun _ => htold⟩
  · exact ⟨h, rfl, id⟩

/-- Whether a button's down is forwarded: it is on the image, and does not focus the window. -/
def Input.forwards (f : Floats F L) (input : Input) (bit : BitVec 32) (timestamp : ℕ) (a : At F) :
    Bool :=
  match a.point, guestMode a with
  | some point, some _ => bit ≠ 0 && f.contains a.image point &&
      (input.capture.captured || !input.focusing timestamp)
  | _, _ => false

theorem buttonDown_spec (h : Agrees taken input) (bit : BitVec 32) (timestamp : ℕ) :
    Agrees taken (input.buttonDown f bit timestamp a).1 ∧
      (input.buttonDown f bit timestamp a).1.buttons =
        (if input.forwards f bit timestamp a then input.buttons ||| bit else input.buttons) ∧
      (toldWith taken input = input.buttons → toldWith taken (input.buttonDown f bit timestamp a).1 =
        (input.buttonDown f bit timestamp a).1.buttons) := by
  rw [Input.buttonDown, Input.forwards]
  cases hpoint : a.point with
  | none => exact ⟨h, rfl, id⟩
  | some point =>
    cases hmode : guestMode a with
    | none => exact ⟨h, rfl, id⟩
    | some mode =>
      dsimp only
      by_cases hstarts : bit = 0 ∨ ¬f.contains a.image point
      · have hnot : ¬(bit ≠ 0 && f.contains a.image point &&
            (input.capture.captured || !input.focusing timestamp)) := by
          rw [Bool.and_eq_true, Bool.and_eq_true, decide_eq_true_iff]
          exact fun hgoes => hstarts.elim hgoes.1.1 fun hout => hout hgoes.1.2
        rw [if_pos hstarts, if_neg hnot]
        exact ⟨h, rfl, id⟩
      · rw [if_neg hstarts]
        obtain ⟨hbit, hin⟩ := not_or.mp hstarts
        generalize hclick : (if input.capture.captured then (input.capture, true)
          else input.capture.clickInImage !input.focusing timestamp) = click
        have hforward : click.2 = (bit ≠ 0 && f.contains a.image point &&
            (input.capture.captured || !input.focusing timestamp)) := by
          rw [← hclick, not_not.mp hin, decide_eq_true hbit, Bool.true_and, Bool.true_and]
          cases input.capture.captured <;> rfl
        obtain ⟨capture, forward⟩ := click
        obtain rfl := hforward
        split_ifs with hgoes
        · obtain ⟨hagrees, htold, hbuttons⟩ := pointer_spec (f := f)
            { input with capture := capture, buttons := input.buttons ||| bit }
            h.keys h.last point a.image mode true
          exact ⟨hagrees, hbuttons, fun _ => htold.trans hbuttons.symm⟩
        · exact ⟨⟨h.keys, h.last, h.pointed⟩, rfl, id⟩

theorem and_not_of_and_eq_zero {b bit : BitVec 32} (h : b &&& bit = 0) : b &&& ~~~bit = b := by
  ext i hi
  have hbit := congrArg (fun x => x[i]) h
  simp only [BitVec.getElem_and, BitVec.getElem_not, BitVec.ofNat_eq_ofNat,
    BitVec.getElem_zero] at hbit ⊢
  cases hb : b[i]
  · rfl
  · rw [hb, Bool.true_and] at hbit
    rw [hbit]
    rfl

/-- A held button's up tells the buttons held where the pointer is sent. -/
theorem buttonUp_spec (h : Agrees taken input) (bit : BitVec 32) :
    Agrees taken (input.buttonUp f bit a) ∧
      (input.buttonUp f bit a).buttons = input.buttons &&& ~~~bit ∧
      (input.buttons &&& bit = 0 ∨ a.Shows → toldWith taken input = input.buttons →
        toldWith taken (input.buttonUp f bit a) = (input.buttonUp f bit a).buttons) ∧
      (¬a.Shows → (input.buttonUp f bit a).out = input.out) := by
  rw [Input.buttonUp]
  split_ifs with hup
  · exact ⟨h, (and_not_of_and_eq_zero hup).symm, fun _ => id, fun _ => rfl⟩
  · dsimp only
    split
    · next point mode hpoint hmode =>
      obtain ⟨hagrees, htold, hbuttons⟩ := pointer_spec (f := f)
        { input with buttons := input.buttons &&& ~~~bit }
        h.keys h.last point a.image mode true
      refine ⟨hagrees, hbuttons, fun _ _ => htold.trans hbuttons.symm, fun hshows => ?_⟩
      refine absurd ⟨?_, ?_⟩ hshows
      · rw [hpoint, Option.isSome_some]
      · rw [hmode, Option.isSome_some]
    · next hnone =>
      refine ⟨⟨h.keys, h.last, fun hheld => h.pointed fun hzero => hheld ?_⟩, rfl,
        fun hshows => ?_, fun _ => rfl⟩
      · dsimp only
        rw [hzero]
        exact BitVec.zero_and
      · obtain ⟨hpoint, hmode⟩ := hshows.resolve_left hup
        obtain ⟨point, hpoint⟩ := Option.isSome_iff_exists.mp hpoint
        obtain ⟨mode, hmode⟩ := Option.isSome_iff_exists.mp hmode
        exact absurd hmode (hnone point mode hpoint)

theorem push_wheel_spec (h : Agrees taken input) (notches smooth : ℤ × ℤ) :
    Agrees taken (input.push (.wheel notches smooth)) ∧
      toldWith taken (input.push (.wheel notches smooth)) = toldWith taken input := by
  refine ⟨⟨h.keys.of_keyEvents fun usage => ?_, ?_, h.pointed⟩, ?_⟩
  · rw [Input.push, ← List.append_assoc, keyEvents_append, keyEvents_wheel, List.append_nil]
  · rw [Input.push, ← List.append_assoc, lastPointer_concat_wheel]
    exact h.last
  · rw [toldWith, told, Input.push, ← List.append_assoc, lastPointer_concat_wheel]
    rfl

theorem wheel_spec (h : Agrees taken input) (wheel : Wheel L) :
    Agrees taken (input.wheel f wheel a) ∧ (input.wheel f wheel a).buttons = input.buttons ∧
      (toldWith taken input = input.buttons →
        toldWith taken (input.wheel f wheel a) = input.buttons) := by
  rw [Input.wheel]
  split
  · next point _ _ _ =>
    by_cases hin : f.contains a.image point
    · obtain ⟨hagrees, hbuttons, htold⟩ := moved_spec (f := f) (a := a) h
      rw [if_pos hin]
      dsimp only
      generalize (if wheel.flipped then (-1 : ℤ) else 1) = sign
      split_ifs
      · obtain ⟨hpushed, hsame⟩ := push_wheel_spec hagrees
          (saturatingMul wheel.notches.2 sign, saturatingMul wheel.notches.1 (-sign))
          (f.fixed sign wheel.lines.2, f.fixed (-sign) wheel.lines.1)
        exact ⟨hpushed, hbuttons, fun h => hsame.trans (htold h)⟩
      · exact ⟨hagrees, hbuttons, htold⟩
    · rw [if_neg hin]
      exact ⟨h, rfl, id⟩
  · exact ⟨h, rfl, id⟩

/-- Events of keys leave the pointer as it was. -/
theorem keys_spec (h : Agrees taken input) {keys : KeyState} {events : List KeyEvent}
    (hkeys : KeysTold (taken ++ input.out ++ events.map .key) keys) :
    Agrees taken { input with keys := keys, out := input.out ++ events.map .key } ∧
      toldWith taken { input with keys := keys, out := input.out ++ events.map .key } =
        toldWith taken input := by
  refine ⟨⟨?_, ?_, h.pointed⟩, ?_⟩
  · rwa [← List.append_assoc]
  · rw [← List.append_assoc, lastPointer_append_keys]
    exact h.last
  · rw [toldWith, told, ← List.append_assoc, lastPointer_append_keys]
    rfl

theorem liftKeys_spec (h : Agrees taken input) :
    Agrees taken input.liftKeys ∧ toldWith taken input.liftKeys = toldWith taken input :=
  keys_spec h h.keys.releaseAll

theorem releaseCapture_spec (h : Agrees taken input) :
    Agrees taken input.releaseCapture.1 ∧
      toldWith taken input.releaseCapture.1 = toldWith taken input := by
  obtain ⟨hagrees, htold⟩ := liftKeys_spec h
  exact ⟨⟨hagrees.keys, hagrees.last, hagrees.pointed⟩, htold⟩

theorem keyed_spec (h : Agrees taken input) {keyed : KeyState × Option KeyEvent}
    (hkeys : KeysTold (taken ++ input.out ++ keyed.2.toList.map .key) keyed.1) :
    Agrees taken (input.keyed keyed) ∧ (input.keyed keyed).buttons = input.buttons ∧
      toldWith taken (input.keyed keyed) = toldWith taken input := by
  obtain ⟨hagrees, htold⟩ := keys_spec h hkeys
  obtain ⟨keys, event⟩ := keyed
  cases event with
  | none =>
    rw [show input.out ++ (none : Option KeyEvent).toList.map .key = input.out from
      List.append_nil _] at hagrees htold
    exact ⟨hagrees, rfl, htold⟩
  | some event => exact ⟨hagrees, rfl, htold⟩

theorem key_spec (h : Agrees taken input) (usage : UInt16) (down isRepeat : Bool) :
    Agrees taken (input.key usage down isRepeat).1 ∧
      (input.key usage down isRepeat).1.buttons = input.buttons ∧
      toldWith taken (input.key usage down isRepeat).1 = toldWith taken input := by
  obtain ⟨hagrees, hbuttons, htold⟩ := keyed_spec h (h.keys.keyDown usage isRepeat)
  rw [Input.key]
  split_ifs with hfocused hdown
  · exact ⟨h, rfl, rfl⟩
  · exact keyed_spec h (h.keys.keyUp usage)
  · dsimp only
    split_ifs with hchord
    · obtain ⟨hreleased, hsame⟩ := releaseCapture_spec hagrees
      exact ⟨hreleased, hbuttons, hsame.trans htold⟩
    · exact ⟨hagrees, hbuttons, htold⟩

/-- Lifting the buttons leaves none held, and none told where the guest was told right. -/
theorem liftButtons_spec (h : Agrees taken input) :
    Agrees taken input.liftButtons ∧ input.liftButtons.keys = input.keys ∧
      input.liftButtons.buttons = 0 ∧
      (toldWith taken input = input.buttons → toldWith taken input.liftButtons = 0) := by
  rw [Input.liftButtons]
  split_ifs with hzero
  · exact ⟨h, rfl, hzero, fun htold => htold.trans hzero⟩
  · obtain ⟨pixel, mode, buttons, hlast⟩ := h.pointed hzero
    dsimp only
    rw [hlast]
    have hout : taken ++ (input.out ++ [.pointer pixel mode 0]) =
        taken ++ input.out ++ [.pointer pixel mode 0] := (List.append_assoc _ _ _).symm
    refine ⟨⟨?_, ?_, fun hheld => absurd rfl hheld⟩, rfl, rfl, fun _ => ?_⟩
    · refine h.keys.of_keyEvents fun usage => ?_
      exact (congrArg (keyEvents usage) hout).trans
        ((keyEvents_append _ _).trans (List.append_nil _))
    · exact ((congrArg lastPointer hout).trans (lastPointer_concat_pointer _ _ _)).symm
    · exact (congrArg told hout).trans (told_concat_pointer _ _ _)

/-- Lifting all leaves no key held, no button held, and tells so. -/
theorem lift_spec (h : Agrees taken input) :
    Agrees taken input.liftKeys.liftButtons ∧ input.liftKeys.liftButtons.keys.held = [] ∧
      input.liftKeys.liftButtons.buttons = 0 ∧
      (toldWith taken input = input.buttons → toldWith taken input.liftKeys.liftButtons = 0) := by
  obtain ⟨hagrees, htold⟩ := liftKeys_spec h
  obtain ⟨hlifted, hkeys, hbuttons, hnone⟩ := liftButtons_spec hagrees
  exact ⟨hlifted, congrArg KeyState.held hkeys, hbuttons, fun heq => hnone (htold.trans heq)⟩

end

/-! ### Runs -/

/-- What happens to a window's input. -/
inductive Event (F L : Type*)
  | moved (a : At F)
  | buttonDown (bit : BitVec 32) (timestamp : ℕ) (a : At F)
  | buttonUp (bit : BitVec 32) (a : At F)
  | wheel (wheel : Wheel L) (a : At F)
  | key (usage : UInt16) (down isRepeat : Bool)
  | focusGained (timestamp : ℕ)
  | focusLost
  | releaseCapture
  | closing
  | take

/-- Whether an event lifts all that is held. -/
def Event.lifts : Event F L → Bool
  | focusLost | closing => true
  | _ => false

/-- The input after an event. -/
def Input.step (f : Floats F L) (input : Input) : Event F L → Input
  | .moved a => input.moved f a
  | .buttonDown bit timestamp a => (input.buttonDown f bit timestamp a).1
  | .buttonUp bit a => input.buttonUp f bit a
  | .wheel wheel a => input.wheel f wheel a
  | .key usage down isRepeat => (input.key usage down isRepeat).1
  | .focusGained timestamp => input.focusGained timestamp
  | .focusLost => input.focusLost.1
  | .releaseCapture => input.releaseCapture.1
  | .closing => input.closing
  | .take => input.take.1

/-- An input with what was taken from it, and the buttons whose downs were forwarded and that neither
went up nor were lifted since. -/
structure History where
  input : Input
  taken : List ToHost
  held : BitVec 32

namespace History

def start : History := ⟨.new, [], 0⟩

/-- What was sent, or is to be. -/
def sent (history : History) : List ToHost := history.taken ++ history.input.out

/-- The buttons held after an event. -/
def heldAfter (f : Floats F L) (history : History) : Event F L → BitVec 32
  | .buttonDown bit timestamp a =>
    if history.input.forwards f bit timestamp a then history.held ||| bit else history.held
  | .buttonUp bit _ => history.held &&& ~~~bit
  | .focusLost | .closing => 0
  | _ => history.held

def step (f : Floats F L) (history : History) (event : Event F L) : History where
  input := history.input.step f event
  taken := match event with
    | .take => history.taken ++ history.input.take.2
    | _ => history.taken
  held := history.heldAfter f event

/-- The history of events. -/
def run (f : Floats F L) (events : List (Event F L)) : History := events.foldl (step f) start

/-- Whether an event is no held button's up that cannot be sent. -/
def CanSend (history : History) : Event F L → Prop
  | .buttonUp bit a => history.held &&& bit = 0 ∨ a.Shows
  | _ => True

/-- What holds of every history. -/
structure Holds (history : History) : Prop where
  agrees : Agrees history.taken history.input
  buttons : history.input.buttons = history.held

theorem Holds.step {history : History} (h : history.Holds) (event : Event F L) :
    (history.step f event).Holds ∧
      (history.CanSend event → told history.sent = history.held →
        told (history.step f event).sent = (history.step f event).held) := by
  obtain ⟨hagrees, hbuttons⟩ := h
  cases event with
  | moved a =>
    obtain ⟨hmoved, hsame, htold⟩ := moved_spec (f := f) (a := a) hagrees
    exact ⟨⟨hmoved, hsame.trans hbuttons⟩,
      fun _ heq => (htold (heq.trans hbuttons.symm)).trans hbuttons⟩
  | buttonDown bit timestamp a =>
    obtain ⟨hdown, hheld, htold⟩ := buttonDown_spec (f := f) (a := a) hagrees bit timestamp
    rw [hbuttons] at hheld htold
    exact ⟨⟨hdown, hheld⟩, fun _ heq => (htold heq).trans hheld⟩
  | buttonUp bit a =>
    obtain ⟨hup, hheld, htold, -⟩ := buttonUp_spec (f := f) (a := a) hagrees bit
    rw [hbuttons] at hheld htold
    exact ⟨⟨hup, hheld⟩, fun hsends heq => (htold hsends heq).trans hheld⟩
  | wheel wheel a =>
    obtain ⟨hwheel, hsame, htold⟩ := wheel_spec (f := f) (a := a) hagrees wheel
    exact ⟨⟨hwheel, hsame.trans hbuttons⟩,
      fun _ heq => (htold (heq.trans hbuttons.symm)).trans hbuttons⟩
  | key usage down isRepeat =>
    obtain ⟨hkey, hsame, htold⟩ := key_spec hagrees usage down isRepeat
    exact ⟨⟨hkey, hsame.trans hbuttons⟩, fun _ heq => htold.trans heq⟩
  | focusGained timestamp =>
    exact ⟨⟨⟨hagrees.keys, hagrees.last, hagrees.pointed⟩, hbuttons⟩, fun _ => id⟩
  | focusLost =>
    have hunfocused : Agrees history.taken { history.input with focused := false } :=
      ⟨hagrees.keys, hagrees.last, hagrees.pointed⟩
    obtain ⟨hlifted, -, hnone, htold⟩ := lift_spec hunfocused
    exact ⟨⟨⟨hlifted.keys, hlifted.last, hlifted.pointed⟩, hnone⟩,
      fun _ heq => htold (heq.trans hbuttons.symm)⟩
  | releaseCapture =>
    obtain ⟨hreleased, htold⟩ := releaseCapture_spec hagrees
    exact ⟨⟨hreleased, hbuttons⟩, fun _ heq => htold.trans heq⟩
  | closing =>
    obtain ⟨hlifted, -, hnone, htold⟩ := lift_spec hagrees
    exact ⟨⟨⟨hlifted.keys, hlifted.last, hlifted.pointed⟩, hnone⟩,
      fun _ heq => htold (heq.trans hbuttons.symm)⟩
  | take =>
    have hsent : (history.step f .take).sent = history.sent := List.append_nil _
    refine ⟨⟨⟨?_, ?_, hagrees.pointed⟩, hbuttons⟩, fun _ heq => (congrArg told hsent).trans heq⟩
    · exact hagrees.keys.of_keyEvents fun usage => congrArg (keyEvents usage) hsent
    · exact hagrees.last.trans (congrArg lastPointer hsent).symm

theorem run_concat (events : List (Event F L)) (event : Event F L) :
    run f (events ++ [event]) = (run f events).step f event := by
  rw [run, List.foldl_append]
  rfl

theorem holds_run (events : List (Event F L)) : (run f events).Holds := by
  induction events using List.reverseRecOn with
  | nil => exact ⟨⟨fun usage => ⟨alternates_nil, iff_of_false List.not_mem_nil nofun⟩, rfl,
      fun hheld => absurd rfl hheld⟩, rfl⟩
  | append_singleton events event ih =>
    rw [run_concat]
    exact (ih.step event).1

/-- What the guest is told after a run of events. -/
structure Told (f : Floats F L) (events : List (Event F L)) : Prop where
  /-- Every key goes down and up in turns. -/
  keys : ∀ usage, Alternates (keyEvents usage (run f events).sent)
  /-- The buttons told are those held. -/
  buttons : told (run f events).sent = (run f events).held
  /-- After a lift all is up. -/
  lifted : ∀ event ∈ events.getLast?, event.lifts →
    (∀ usage, (keyEvents usage (run f events).sent).getLast? ≠ some true) ∧
      told (run f events).sent = 0

/-- A lift leaves no key held. -/
theorem Holds.held_of_lifts {history : History} (h : history.Holds) {event : Event F L}
    (hlifts : event.lifts) : (history.input.step f event).keys.held = [] := by
  cases event with
  | focusLost =>
    have hunfocused : Agrees history.taken { history.input with focused := false } :=
      ⟨h.agrees.keys, h.agrees.last, h.agrees.pointed⟩
    exact (lift_spec hunfocused).2.1
  | closing => exact (lift_spec h.agrees).2.1
  | moved | buttonDown | buttonUp | wheel | key | focusGained | releaseCapture | take =>
    exact absurd hlifts Bool.false_ne_true

theorem heldAfter_of_lifts (history : History) {event : Event F L} (hlifts : event.lifts) :
    history.heldAfter f event = 0 := by
  cases event with
  | focusLost | closing => rfl
  | moved | buttonDown | buttonUp | wheel | key | focusGained | releaseCapture | take =>
    exact absurd hlifts Bool.false_ne_true

theorem told_run {events : List (Event F L)}
    (h : ∀ before event, before ++ [event] <+: events → (run f before).CanSend event) :
    told (run f events).sent = (run f events).held := by
  induction events using List.reverseRecOn with
  | nil => rfl
  | append_singleton events event ih =>
    rw [run_concat]
    refine ((holds_run events).step event).2 (h events event List.prefix_rfl) (ih ?_)
    exact fun before event' hin =>
      h before event' (hin.trans (List.prefix_append events [event]))

/-- A held button's up that is not sent leaves the guest told of it. -/
theorem told_ne_held {history : History} (h : history.Holds) {event : Event F L}
    (hevent : ¬history.CanSend event) (htold : told history.sent = history.held) :
    told (history.step f event).sent ≠ (history.step f event).held := by
  cases event with
  | buttonUp bit a =>
    obtain ⟨hheld, hshows⟩ := not_or.mp hevent
    have hsame : (history.step f (.buttonUp bit a)).sent = history.sent :=
      congrArg (history.taken ++ ·) ((buttonUp_spec h.agrees bit).2.2.2 hshows)
    rw [hsame, htold]
    intro heq
    refine hheld ?_
    rw [heq]
    change history.held &&& ~~~bit &&& bit = 0
    rw [BitVec.and_assoc, BitVec.and_comm (~~~bit), BitVec.and_not_self]
    exact BitVec.and_zero
  | moved | buttonDown | wheel | key | focusGained | focusLost | releaseCapture | closing | take =>
    exact absurd trivial hevent

/-- The guest is told right throughout a run exactly where no held button goes up while the pointer
cannot be sent. -/
theorem nothing_stuck_iff (f : Floats F L) (events : List (Event F L)) :
    (∀ before, before <+: events → Told f before) ↔
      ∀ before event, before ++ [event] <+: events → (run f before).CanSend event := by
  constructor
  · intro h before event hin
    by_contra hevent
    have hbefore := (h before ((List.prefix_append before [event]).trans hin)).buttons
    refine told_ne_held (f := f) (holds_run before) hevent hbefore ?_
    rw [← run_concat]
    exact (h _ hin).buttons
  · intro h before hin
    have hkeys := (holds_run (f := f) before).agrees.keys
    have htold : told (run f before).sent = (run f before).held :=
      told_run fun before' event hbefore => h before' event (hbefore.trans hin)
    refine ⟨fun usage => (hkeys usage).1, htold, fun event hlast hlifts => ?_⟩
    obtain ⟨before, rfl⟩ := List.getLast?_eq_some_iff.mp hlast
    refine ⟨fun usage => (hkeys usage).2.not.mp ?_, ?_⟩
    · rw [run_concat]
      change usage ∉ ((run f before).input.step f event).keys.held
      rw [(holds_run before).held_of_lifts hlifts]
      exact List.not_mem_nil
    · rw [htold, run_concat]
      exact heldAfter_of_lifts _ hlifts

/-- Whole points: a pixel for each fraction of the image. -/
def wholePoints : Floats ℕ ℕ where
  pointerToGuest point image mode :=
    (.ofNat ((point.1 - image.x) * mode.1.toNat / image.width),
      .ofNat ((point.2 - image.y) * mode.2.toNat / image.height))
  contains image point := image.x ≤ point.1 && point.1 < image.x + image.width &&
    (image.y ≤ point.2 && point.2 < image.y + image.height)
  fixed sign lines := sign * 10 * lines * 256

/-- A press, the guest's mode emptied, the button's up, and the keyboard lost. -/
def emptiedMode : List (Event ℕ ℕ) :=
  [.focusGained 0, .buttonDown 1 1000000000 ⟨some (10, 10), ⟨0, 0, 100, 50⟩, some (200, 100)⟩,
    .buttonUp 1 ⟨some (10, 10), ⟨0, 0, 100, 50⟩, some (0, 0)⟩, .focusLost]

/-- The guest is left told of a button that went up. -/
theorem emptiedMode_stuck : (¬∀ before, before <+: emptiedMode → Told wholePoints before) ∧
    told (run wholePoints emptiedMode).sent = 1 ∧ (run wholePoints emptiedMode).held = 0 := by
  have hstuck : told (run wholePoints emptiedMode).sent = 1 ∧
      (run wholePoints emptiedMode).held = 0 := by decide
  refine ⟨fun h => ?_, hstuck⟩
  have hbuttons := (h emptiedMode List.prefix_rfl).buttons
  rw [hstuck.1, hstuck.2] at hbuttons
  exact absurd hbuttons (by decide)

end History

end ReimsVgpu.Window.LinuxInput
