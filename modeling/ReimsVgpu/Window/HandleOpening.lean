import ReimsVgpu.Window.Handle

/-!
# A window opens once

The first attach to find the window unattached posts the one opening: the opening is with that thread,
queued, run by the UI thread, or over. SDL's window is made in it, and the shell stands for it until
it is destroyed.

## Main definitions

* `Stage`, `World.At`: how far the opening is, and the state that goes with it.

## Main results

* `World.At.step`.
-/

namespace ReimsVgpu.Window

/-- How far the one opening is. -/
inductive Stage (τ : Type*)
  | unattached
  | starting (t : τ)
  | posting (t : τ)
  | queued
  | running
  | finished

/-- The openings that are queued. -/
def Stage.openings {τ : Type*} : Stage τ → ℕ
  | .queued => 1
  | _ => 0

/-- A thread's part in the opening. -/
inductive OpenPart
  | start
  | post
  | posted
  | other
deriving DecidableEq

def Call.openPart {M G S : Type*} : Call M G S → OpenPart
  | .attachStart => .start
  | .attachPost => .post
  | .attachPosted => .posted
  | _ => .other

/-- The UI thread is in the opening, before the shell is there. -/
def Ui.opening : Ui → Bool
  | .job .opening | .making | .targeting _ | .showing _ => true
  | _ => false

/-- SDL's window of an opening that is not yet over. -/
def Ui.sdl : Ui → List ℕ
  | .targeting sdl | .showing sdl => [sdl]
  | _ => []

theorem Ui.sdl_of_not_opening {ui : Ui} (h : ui.opening = false) : ui.sdl = [] := by
  cases ui <;> first | rfl | cases h

namespace World

variable {τ M G S K : Type*} {w w' : World τ M G S K} {s : Stage τ}

/-- SDL's windows that are not destroyed. -/
def standing (w : World τ M G S K) : List ℕ := (w.shell.map (·.sdl)).toList ++ w.ui.sdl

/-- What goes with a stage of the opening. -/
structure At (w : World τ M G S K) (s : Stage τ) : Prop where
  attached : w.attached = true ↔ s ≠ .unattached
  starting : ∀ t, (w.calls t).openPart = .start ↔ s = .starting t
  posting : ∀ t, (w.calls t).openPart = .post ↔ s = .posting t
  posted : ∀ t, (w.calls t).openPart = .posted → s = .queued ∨ s = .running ∨ s = .finished
  openPosted : w.openPosted = true → s = .queued ∨ s = .running ∨ s = .finished
  queued : w.queue.count .opening = s.openings
  running : w.ui.opening = true ↔ s = .running
  render : w.render = .none ↔ s = .unattached ∨ ∃ t, s = .starting t
  fresh : s ≠ .finished → w.shell = none ∧ w.destroyed = []
  made : w.made = w.destroyed ++ w.standing
  single : w.made.length ≤ 1
  video : w.video ≠ .running → w.ui = .idle ∧ w.shell = none

/-- The opening's part of the state is as it was. -/
structure OpenSame (w w' : World τ M G S K) : Prop where
  attached : w'.attached = w.attached
  calls : ∀ t, (w'.calls t).openPart = (w.calls t).openPart
  openPosted : w'.openPosted = w.openPosted
  queued : w'.queue.count .opening = w.queue.count .opening
  opening : w'.ui.opening = w.ui.opening
  sdl : w'.ui.sdl = w.ui.sdl
  render : w'.render = .none ↔ w.render = .none
  shell : w'.shell.map (·.sdl) = w.shell.map (·.sdl)
  made : w'.made = w.made
  destroyed : w'.destroyed = w.destroyed
  video : w'.video = w.video
  idle : w.video ≠ .running → w'.ui = w.ui

theorem At.same (h : w.At s) (hs : w.OpenSame w') : w'.At s where
  attached := hs.attached ▸ h.attached
  starting t := hs.calls t ▸ h.starting t
  posting t := hs.calls t ▸ h.posting t
  posted t ht := h.posted t (hs.calls t ▸ ht)
  openPosted ho := h.openPosted (hs.openPosted ▸ ho)
  queued := hs.queued.trans h.queued
  running := hs.opening ▸ h.running
  render := hs.render.trans h.render
  fresh ho := by
    have hshell := hs.shell
    rw [(h.fresh ho).1] at hshell
    exact ⟨Option.map_eq_none_iff.mp hshell, hs.destroyed.trans (h.fresh ho).2⟩
  made := by
    rw [hs.made, hs.destroyed, h.made]
    unfold standing
    rw [hs.shell, hs.sdl]
  single := hs.made ▸ h.single
  video hv := by
    rw [hs.video] at hv
    have hshell := hs.shell
    rw [(h.video hv).2] at hshell
    exact ⟨(hs.idle hv).trans (h.video hv).1, Option.map_eq_none_iff.mp hshell⟩

/-! ### A step of a thread -/

section

variable [DecidableEq τ] {t : τ} {c : Call M G S}

/-- A thread goes on, and plays the part in something that it played. -/
theorem setCall_part {α : Type*} (part : Call M G S → α) (h : part c = part (w.calls t)) (u : τ) :
    part ((w.setCall t c).calls u) = part (w.calls u) := by
  rcases eq_or_ne u t with rfl | hu
  · simpa [setCall] using h
  · simp [setCall, hu]

theorem setCall_of_ne {u : τ} (h : u ≠ t) : (w.setCall t c).calls u = w.calls u := by
  simp [setCall, h]

theorem setCall_self : (w.setCall t c).calls t = c := by simp [setCall]

omit [DecidableEq τ] in
theorem post_queue (w : World τ M G S K) (job : Job) :
    (w.post job).queue = w.queue ++ if w.video = .failed then [] else [job] := by
  unfold post
  split <;> simp

omit [DecidableEq τ] in
theorem OpenSame.post (h : w.OpenSame w') {job : Job} (hjob : job ≠ .opening) :
    w.OpenSame (w'.post job) := by
  have hqueue : (w'.post job).queue.count .opening = w'.queue.count .opening := by
    rw [post_queue, List.count_append]
    split <;> simp [hjob]
  have hrest : (w'.post job) = { w' with queue := (w'.post job).queue } := by
    unfold World.post
    split <;> rfl
  rw [hrest]
  exact { h with queued := hqueue.trans h.queued }

/-- A thread goes on and has no part in the opening, before or after. -/
theorem openSame_setCall (hc : (w.calls t).openPart = .other) (hc' : c.openPart = .other) :
    w.OpenSame (w.setCall t c) where
  attached := rfl
  calls := setCall_part Call.openPart (hc'.trans hc.symm)
  openPosted := rfl
  queued := rfl
  opening := rfl
  sdl := rfl
  render := .rfl
  shell := rfl
  made := rfl
  destroyed := rfl
  video := rfl
  idle _ := rfl

omit [DecidableEq τ] in
/-- A stage before the opening is posted: no thread but the one that opens has a part in it. -/
theorem At.sole (h : w.At s) (hs : s = .unattached ∨ s = .starting t ∨ s = .posting t) {u : τ}
    (hu : u ≠ t ∨ s = .unattached) : (w.calls u).openPart = .other := by
  have hstart := h.starting u
  have hpost := h.posting u
  have hposted := h.posted u
  cases hpart : (w.calls u).openPart with
  | other => rfl
  | start =>
    have hsu := hstart.mp hpart
    rcases hs with rfl | rfl | rfl <;> cases hsu
    exact absurd rfl (hu.resolve_right nofun)
  | post =>
    have hsu := hpost.mp hpart
    rcases hs with rfl | rfl | rfl <;> cases hsu
    exact absurd rfl (hu.resolve_right nofun)
  | posted =>
    have hsu := hposted hpart
    rcases hs with rfl | rfl | rfl <;> rcases hsu with hsu | hsu | hsu <;> cases hsu

/-- The threads' parts where one thread only has one. -/
theorem part_setCall {p : OpenPart} (hother : ∀ u, u ≠ t → (w.calls u).openPart = .other)
    (hc : c.openPart = p) (u : τ) :
    ((w.setCall t c).calls u).openPart = if u = t then p else .other := by
  split
  next hu => rw [hu, setCall_self, hc]
  next hu => rw [setCall_of_ne hu, hother u hu]

/-- An attach finds the window unattached. -/
theorem At.attachSwap (h : w.At s) (hnone : w.attached = false) :
    { w.setCall t .attachStart with attached := true }.At (.starting t) := by
  have hs : s = .unattached := by
    by_contra hs
    exact absurd (hnone.symm.trans (h.attached.mpr hs)) nofun
  subst hs
  have hpart := part_setCall (w := w) (t := t) (c := .attachStart) (p := .start)
    (fun u _ => h.sole (t := t) (.inl rfl) (.inr rfl)) rfl
  refine ⟨by simp, fun u => ?_, fun u => ?_, fun u hu => ?_, fun ho => ?_, h.queued,
    ⟨fun hr => absurd (h.running.mp hr) nofun, nofun⟩,
    ⟨fun _ => .inr ⟨t, rfl⟩, fun _ => h.render.mpr (.inl rfl)⟩, fun _ => h.fresh nofun, h.made,
    h.single, h.video⟩
  · dsimp only
    rw [hpart u]
    split
    next hu => simp [hu]
    next hu => simp [Ne.symm hu]
  · dsimp only
    rw [hpart u]
    split <;> simp
  · dsimp only at hu
    rw [hpart u] at hu
    split at hu <;> cases hu
  · exact absurd (h.openPosted ho) (by rintro (ho | ho | ho) <;> cases ho)

/-- The render thread starts. -/
theorem At.attachStart (h : w.At s) (hc : w.calls t = .attachStart) :
    { w.setCall t .attachPost with render := .waiting none }.At (.posting t) := by
  obtain rfl := (h.starting t).mp (by rw [hc]; rfl)
  have hpart := part_setCall (w := w) (t := t) (c := .attachPost) (p := .post)
    (fun u hu => h.sole (.inr (.inl rfl)) (.inl hu)) rfl
  refine ⟨⟨nofun, fun _ => h.attached.mpr nofun⟩, fun u => ?_, fun u => ?_, fun u hu => ?_,
    fun ho => ?_, h.queued, ⟨fun hr => absurd (h.running.mp hr) nofun, nofun⟩, ⟨nofun, ?_⟩,
    fun _ => h.fresh nofun, h.made, h.single, h.video⟩
  · dsimp only
    rw [hpart u]
    split <;> simp
  · dsimp only
    rw [hpart u]
    split
    next hu => simp [hu]
    next hu => simp [Ne.symm hu]
  · dsimp only at hu
    rw [hpart u] at hu
    split at hu <;> cases hu
  · exact absurd (h.openPosted ho) (by rintro (ho | ho | ho) <;> cases ho)
  · rintro (hu | ⟨u, hu⟩) <;> cases hu

/-- The opening is posted, or dropped. -/
theorem At.attachPost (h : w.At s) (hc : w.calls t = .attachPost) :
    ((w.setCall t .attachPosted).post .opening).At
      (if w.video = .failed then .finished else .queued) := by
  obtain rfl := (h.posting t).mp (by rw [hc]; rfl)
  have hpart := part_setCall (w := w) (t := t) (c := .attachPosted) (p := .posted)
    (fun u hu => h.sole (.inr (.inr rfl)) (.inl hu)) rfl
  have hfresh := h.fresh nofun
  have hqueued : w.queue.count .opening = 0 := h.queued
  have hopening : w.ui.opening = false := by
    cases ho : w.ui.opening with
    | false => rfl
    | true => exact absurd (h.running.mp ho) nofun
  have hrender : w.render ≠ .none := fun hr => by
    rcases h.render.mp hr with hr | ⟨u, hr⟩ <;> cases hr
  unfold World.post
  simp only [show (w.setCall t .attachPosted : World τ M G S K).video = w.video from rfl]
  split_ifs with hvideo
  · refine ⟨⟨nofun, fun _ => h.attached.mpr nofun⟩, fun u => ?_, fun u => ?_, fun _ _ => .inr (.inr rfl),
      fun _ => .inr (.inr rfl), hqueued, ?_, ⟨fun hr => absurd hr hrender, ?_⟩, nofun, h.made,
      h.single, h.video⟩
    · rw [hpart u]
      split <;> simp
    · rw [hpart u]
      split <;> simp
    · exact ⟨fun ho => absurd (hopening.symm.trans ho) nofun, nofun⟩
    · rintro (hu | ⟨u, hu⟩) <;> cases hu
  · refine ⟨⟨nofun, fun _ => h.attached.mpr nofun⟩, fun u => ?_, fun u => ?_, fun _ _ => .inl rfl,
      fun _ => .inl rfl, ?_, ?_, ⟨fun hr => absurd hr hrender, ?_⟩, fun _ => hfresh, h.made,
      h.single, h.video⟩
    · dsimp only
      rw [hpart u]
      split <;> simp
    · dsimp only
      rw [hpart u]
      split <;> simp
    · simp [setCall, List.count_append, hqueued, Stage.openings]
    · exact ⟨fun ho => absurd (hopening.symm.trans ho) nofun, nofun⟩
    · rintro (hu | ⟨u, hu⟩) <;> cases hu

/-- The opening is said to be posted. -/
theorem At.attachPosted (h : w.At s) (hc : w.calls t = .attachPosted) :
    { w.setCall t .outside with openPosted := true }.At s := by
  have hs := h.posted t (by rw [hc]; rfl)
  have hpart : ∀ u, ((w.setCall t .outside).calls u).openPart =
      if u = t then .other else (w.calls u).openPart := by
    intro u
    split
    next hu => rw [hu, setCall_self]; rfl
    next hu => rw [setCall_of_ne hu]
  refine ⟨h.attached, fun u => ?_, fun u => ?_, fun u hu => ?_, fun _ => hs, h.queued, h.running,
    h.render, h.fresh, h.made, h.single, h.video⟩
  · dsimp only
    rw [hpart u]
    split
    next hu => rcases hs with rfl | rfl | rfl <;> exact ⟨nofun, nofun⟩
    · exact h.starting u
  · dsimp only
    rw [hpart u]
    split
    next hu => rcases hs with rfl | rfl | rfl <;> exact ⟨nofun, nofun⟩
    · exact h.posting u
  · exact hs

theorem At.goOn (h : w.At s) (hw : w.goOn t (w.calls t) = some w') :
    ∃ s', w'.At s' ∧ (s = .finished → s' = .finished) := by
  cases hc : w.calls t <;> rw [hc] at hw <;> simp only [World.goOn] at hw
  case outside => cases hw
  case attachSwap =>
    cases hattached : w.attached with
    | true =>
      rw [hattached] at hw
      cases hw
      exact ⟨s, h.same ⟨hattached.symm, setCall_part Call.openPart (by rw [hc]; rfl), rfl, rfl, rfl,
        rfl, .rfl, rfl, rfl, rfl, rfl, fun _ => rfl⟩, id⟩
    | false =>
      rw [hattached] at hw
      cases hw
      refine ⟨_, h.attachSwap hattached, fun hs => ?_⟩
      exact absurd (hattached.symm.trans (h.attached.mpr (by rw [hs]; nofun))) nofun
  case attachStart =>
    cases hw
    have hs := (h.starting t).mp (by rw [hc]; rfl)
    exact ⟨_, h.attachStart hc, fun hover => absurd (hover.symm.trans hs) nofun⟩
  case attachPost =>
    cases hw
    have hs := (h.posting t).mp (by rw [hc]; rfl)
    exact ⟨_, h.attachPost hc, fun hover => absurd (hover.symm.trans hs) nofun⟩
  case attachPosted =>
    cases hw
    exact ⟨_, h.attachPosted hc, id⟩
  case closePost =>
    cases hw
    have hs : w.OpenSame (w.closeReturns t true) :=
      ⟨rfl, setCall_part Call.openPart (by rw [hc]; rfl), rfl, rfl, rfl, rfl, .rfl, rfl, rfl, rfl, rfl,
        fun _ => rfl⟩
    exact ⟨s, h.same (hs.post nofun), id⟩
  case modePost =>
    cases hw
    have hs : w.OpenSame (w.setCall t .outside) :=
      ⟨rfl, setCall_part Call.openPart (by rw [hc]; rfl), rfl, rfl, rfl, rfl, .rfl, rfl, rfl, rfl, rfl,
        fun _ => rfl⟩
    exact ⟨s, h.same (hs.post nofun), id⟩
  case cursorPost =>
    cases hw
    have hs : w.OpenSame (w.setCall t .outside) :=
      ⟨rfl, setCall_part Call.openPart (by rw [hc]; rfl), rfl, rfl, rfl, rfl, .rfl, rfl, rfl, rfl, rfl,
        fun _ => rfl⟩
    exact ⟨s, h.same (hs.post nofun), id⟩
  -- what is left has no part in the opening
  all_goals
    try split at hw
    all_goals
      cases hw
      exact ⟨s, h.same ⟨rfl, setCall_part Call.openPart (by rw [hc]; rfl), rfl, rfl, rfl, rfl, .rfl, rfl, rfl, rfl, rfl, fun _ => rfl⟩, id⟩

end

/-! ### A step of the UI thread -/

/-- The opening is over: it has left its SDL window, if any, with a shell. -/
theorem At.finished (h : w.At .running) (hvideo : w.video = .running)
    (hattached : w'.attached = w.attached) (hcalls : w'.calls = w.calls)
    (hqueue : w'.queue = w.queue)
    (hui : w'.ui.opening = false) (hrender : w'.render = w.render)
    (hmade : w'.made = w'.destroyed ++ w'.standing) (hsingle : w'.made.length ≤ 1)
    (hvideo' : w'.video = w.video) : w'.At .finished where
  attached := by
    rw [hattached]
    exact ⟨fun _ => nofun, fun _ => h.attached.mpr nofun⟩
  starting t := by
    rw [hcalls]
    exact ⟨fun ht => absurd ((h.starting t).mp ht) nofun, nofun⟩
  posting t := by
    rw [hcalls]
    exact ⟨fun ht => absurd ((h.posting t).mp ht) nofun, nofun⟩
  posted _ _ := .inr (.inr rfl)
  openPosted _ := .inr (.inr rfl)
  queued := by
    rw [hqueue]
    exact h.queued
  running := ⟨fun ho => absurd (hui.symm.trans ho) nofun, nofun⟩
  render := by
    rw [hrender]
    refine ⟨fun hr => ?_, ?_⟩
    · rcases h.render.mp hr with hr | ⟨u, hr⟩ <;> cases hr
    · rintro (hr | ⟨u, hr⟩) <;> cases hr
  fresh ho := absurd rfl ho
  made := hmade
  single := hsingle
  video hv := absurd (hvideo'.trans hvideo) hv

/-- The opening goes on. -/
theorem At.opens (h : w.At .running) (hvideo : w.video = .running)
    (hattached : w'.attached = w.attached) (hcalls : w'.calls = w.calls)
    (hqueue : w'.queue = w.queue)
    (hui : w'.ui.opening = true) (hrender : w'.render = w.render) (hshell : w'.shell = w.shell)
    (hdestroyed : w'.destroyed = w.destroyed) (hmade : w'.made = w'.ui.sdl)
    (hvideo' : w'.video = w.video) : w'.At .running where
  attached := hattached ▸ h.attached
  starting t := hcalls ▸ h.starting t
  posting t := hcalls ▸ h.posting t
  posted _ _ := .inr (.inl rfl)
  openPosted _ := .inr (.inl rfl)
  queued := hqueue ▸ h.queued
  running := ⟨fun _ => rfl, fun _ => hui⟩
  render := hrender ▸ h.render
  fresh _ := by
    rw [hshell, hdestroyed]
    exact h.fresh nofun
  made := by
    have hfresh := h.fresh nofun
    unfold standing
    rw [hmade, hdestroyed, hshell, hfresh.1, hfresh.2]
    rfl
  single := by
    rw [hmade]
    cases w'.ui <;> simp [Ui.sdl]
  video hv := absurd (hvideo'.trans hvideo) hv

/-- A shell that stands for the same SDL window, with the UI thread in no opening. -/
theorem At.setShell (h : w.At s) (hvideo : w.video = .running) (hui : w.ui.opening = false)
    {ui : Ui} (hui' : ui.opening = false) {shell shell' : Shell M G} (hshell : w.shell = some shell)
    (hsdl : shell'.sdl = shell.sdl) : ((w.setUi ui).setShell shell').At s :=
  h.same
    { attached := rfl, calls := fun _ => rfl, openPosted := rfl, queued := rfl
      opening := hui'.trans hui.symm
      sdl := (Ui.sdl_of_not_opening hui').trans (Ui.sdl_of_not_opening hui).symm
      render := .rfl
      shell := by rw [hshell]; exact congrArg some hsdl
      made := rfl, destroyed := rfl, video := rfl
      idle := fun hv => absurd hvideo hv }

/-- The UI thread goes on outside the opening. -/
theorem At.setUi (h : w.At s) (hvideo : w.video = .running) (hui : w.ui.opening = false)
    {u : Ui} (hui' : u.opening = false) : (w.setUi u).At s :=
  h.same
    { attached := rfl, calls := fun _ => rfl, openPosted := rfl, queued := rfl
      opening := hui'.trans hui.symm
      sdl := (Ui.sdl_of_not_opening hui').trans (Ui.sdl_of_not_opening hui).symm
      render := .rfl, shell := rfl, made := rfl, destroyed := rfl, video := rfl
      idle := fun hv => absurd hvideo hv }

/-- SDL's window is destroyed, with its shell. -/
theorem At.destroy (h : w.At s) (hvideo : w.video = .running) (hui : w.ui.opening = false)
    {shell shell' : Shell M G} (hshell : w.shell = some shell) (hsdl : shell'.sdl = shell.sdl) :
    ((w.setUi .idle).destroy shell').At s := by
  have hover : s = .finished := by
    by_contra hs
    exact absurd ((h.fresh hs).1.symm.trans hshell) nofun
  subst hover
  refine ⟨h.attached, h.starting, h.posting, h.posted, h.openPosted, h.queued,
    ⟨nofun, nofun⟩, h.render, fun hs => absurd rfl hs, ?_, h.single, fun hv => absurd hvideo hv⟩
  have hmade := h.made
  unfold standing at hmade
  rw [hshell, Ui.sdl_of_not_opening hui] at hmade
  change w.made = (w.destroyed ++ [shell'.sdl]) ++ standing _
  rw [hmade, hsdl]
  simp [standing, World.destroy, World.setUi, Ui.sdl]

theorem At.uiStep (h : w.At s) {answer : UiAnswer} (hw : w.uiStep answer w.ui = some w') :
    ∃ s', w'.At s' ∧ (s = .finished → s' = .finished) := by
  have hvideo : w.video = .running := by
    by_contra hv
    rw [(h.video hv).1] at hw
    cases hw
  have hopening : w.ui.opening = true → s = .running := h.running.mp
  cases hui : w.ui with
  | idle =>
    rw [hui] at hw
    cases hw
  | job job =>
    rw [hui] at hw
    cases hw
    cases job with
    | opening =>
      obtain rfl := hopening (by rw [hui]; rfl)
      have hfresh := h.fresh nofun
      have hmade : w.made = [] := by
        rw [h.made]
        simp [standing, hfresh, hui, Ui.sdl]
      simp only [uiJob]
      split
      · refine ⟨_, h.finished hvideo rfl rfl rfl rfl rfl ?_ h.single rfl, nofun⟩
        change w.made = w.destroyed ++ ((w.shell.map (·.sdl)).toList ++ [])
        simp [hmade, hfresh]
      · exact ⟨_, h.opens hvideo rfl rfl rfl rfl rfl rfl rfl hmade rfl, nofun⟩
    | guestModeChanged =>
      have hno : w.ui.opening = false := by rw [hui]; rfl
      simp only [uiJob]
      split
      · exact ⟨s, h.setUi hvideo hno rfl, id⟩
      · exact ⟨s, h.setUi hvideo hno rfl, id⟩
    | cursorChanged =>
      have hno : w.ui.opening = false := by rw [hui]; rfl
      simp only [uiJob]
      split
      · exact ⟨s, h.setUi hvideo hno rfl, id⟩
      · have hset := h.setUi hvideo hno (u := .refresh false) rfl
        exact ⟨s, hset.same ⟨rfl, fun _ => rfl, rfl, rfl, rfl, rfl, .rfl, rfl, rfl, rfl, rfl,
          fun _ => rfl⟩, id⟩
    | close =>
      have hno : w.ui.opening = false := by rw [hui]; rfl
      simp only [uiJob]
      split
      · exact ⟨s, h.setUi hvideo hno rfl, id⟩
      next shell hshell =>
        split
        · exact ⟨s, h.destroy hvideo hno hshell rfl, id⟩
        · exact ⟨s, h.setShell hvideo hno rfl hshell rfl, id⟩
    | released =>
      have hno : w.ui.opening = false := by rw [hui]; rfl
      simp only [uiJob]
      split
      · exact ⟨s, h.setUi hvideo hno rfl, id⟩
      next shell hshell =>
        split
        · exact ⟨s, h.destroy hvideo hno hshell rfl, id⟩
        · exact ⟨s, h.setShell hvideo hno rfl hshell rfl, id⟩
  | making =>
    obtain rfl := hopening (by rw [hui]; rfl)
    have hfresh := h.fresh nofun
    have hmade : w.made = [] := by
      rw [h.made]
      simp [standing, hfresh, hui, Ui.sdl]
    rw [hui] at hw
    simp only [World.uiStep] at hw
    split at hw
    · cases hw
      exact ⟨_, h.opens hvideo rfl rfl rfl rfl rfl rfl rfl (by rw [hmade]; rfl) rfl, nofun⟩
    · cases hw
      refine ⟨_, h.finished hvideo rfl rfl rfl rfl rfl ?_ h.single rfl, nofun⟩
      change w.made = w.destroyed ++ ((w.shell.map (·.sdl)).toList ++ [])
      simp [hmade, hfresh]
  | targeting sdl =>
    obtain rfl := hopening (by rw [hui]; rfl)
    have hfresh := h.fresh nofun
    have hmade : w.made = [sdl] := by
      rw [h.made]
      simp [standing, hfresh, hui, Ui.sdl]
    rw [hui] at hw
    cases hw
    exact ⟨_, h.opens hvideo rfl rfl rfl rfl rfl rfl rfl hmade rfl, nofun⟩
  | showing sdl =>
    obtain rfl := hopening (by rw [hui]; rfl)
    have hfresh := h.fresh nofun
    have hmade : w.made = [sdl] := by
      rw [h.made]
      simp [standing, hfresh, hui, Ui.sdl]
    rw [hui] at hw
    cases hw
    refine ⟨_, h.finished hvideo rfl rfl rfl rfl rfl ?_ h.single rfl, nofun⟩
    change w.made = w.destroyed ++ [sdl]
    rw [hmade, hfresh.2]
    rfl
  | relayout =>
    have hno : w.ui.opening = false := by rw [hui]; rfl
    rw [hui] at hw
    obtain ⟨shell, hshell, rfl⟩ := Option.map_eq_some_iff.mp hw
    exact ⟨s, h.setShell hvideo hno (by split <;> rfl) hshell rfl, id⟩
  | refresh relayout =>
    have hno : w.ui.opening = false := by rw [hui]; rfl
    rw [hui] at hw
    obtain ⟨shell, hshell, rfl⟩ := Option.map_eq_some_iff.mp hw
    exact ⟨s, h.setShell hvideo hno (by split <;> rfl) hshell rfl, id⟩
  | layout changed =>
    have hno : w.ui.opening = false := by rw [hui]; rfl
    rw [hui] at hw
    cases hw
    have hset := h.setUi hvideo hno (u := .idle) rfl
    exact ⟨s, hset.same ⟨rfl, fun _ => rfl, rfl, rfl, rfl, rfl, .rfl, rfl, rfl, rfl, rfl, fun _ => rfl⟩, id⟩

/-! ### A step of the render thread, and the others -/

/-- The render thread goes on, and has started before. -/
theorem openSame_render {answer : RenderAnswer} (hw : w.renderStep answer w.render = some w') :
    w.OpenSame w' := by
  have hset : ∀ (render : Render) (presenter : Option ℕ) (surface : SurfaceState),
      w.render ≠ .none → render ≠ .none →
        w.OpenSame { w with render, presenter, surface } := fun _ _ _ h h' =>
    ⟨rfl, fun _ => rfl, rfl, rfl, rfl, rfl, ⟨fun hr => absurd hr h', fun hr => absurd hr h⟩, rfl, rfl,
      rfl, rfl, fun _ => rfl⟩
  cases hr : w.render with
  | none =>
    rw [hr] at hw
    cases hw
  | waiting retry =>
    have hstarted : w.render ≠ .none := by rw [hr]; nofun
    rw [hr] at hw
    simp only [World.renderStep] at hw
    split at hw
    · cases hw
      exact hset _ _ _ hstarted nofun
    · split at hw
      · cases hw
        exact hset _ _ _ hstarted nofun
      · cases hw
        refine hset _ _ _ hstarted ?_
        split <;> nofun
      · cases hw
  | drawing target =>
    have hstarted : w.render ≠ .none := by rw [hr]; nofun
    rw [hr] at hw
    simp only [World.renderStep] at hw
    split at hw <;> cases hw <;> exact hset _ _ _ hstarted nofun
  | ending =>
    have hstarted : w.render ≠ .none := by rw [hr]; nofun
    rw [hr] at hw
    cases hw
    exact hset _ _ _ hstarted nofun
  | dropped =>
    have hstarted : w.render ≠ .none := by rw [hr]; nofun
    rw [hr] at hw
    cases hw
    exact (hset .ended w.presenter w.surface hstarted nofun).post nofun
  | ended =>
    rw [hr] at hw
    cases hw

section

variable [DecidableEq τ]

omit [DecidableEq τ] in
/-- SDL's video does not start: what was posted is dropped. -/
theorem At.videoFails (h : w.At s) (hvideo : w.video = .starting) :
    ∃ s', { w with video := .failed, queue := [] }.At s' ∧ (s = .finished → s' = .finished) := by
  obtain ⟨hidle, hshell⟩ := h.video (by rw [hvideo]; nofun)
  have hno : w.ui.opening = false := by rw [hidle]; rfl
  cases s with
  | queued =>
    have hfresh := h.fresh nofun
    refine ⟨.finished, ⟨⟨fun _ => nofun, fun _ => h.attached.mpr nofun⟩, fun u => ?_, fun u => ?_,
      fun _ _ => .inr (.inr rfl), fun _ => .inr (.inr rfl), rfl,
      ⟨fun ho => absurd (hno.symm.trans ho) nofun, nofun⟩, ⟨fun hr => ?_, ?_⟩, fun ho => absurd rfl ho,
      h.made, h.single, fun _ => ⟨hidle, hshell⟩⟩, nofun⟩
    · exact ⟨fun hu => absurd ((h.starting u).mp hu) nofun, nofun⟩
    · exact ⟨fun hu => absurd ((h.posting u).mp hu) nofun, nofun⟩
    · rcases h.render.mp hr with hr | ⟨u, hr⟩ <;> cases hr
    · rintro (hr | ⟨u, hr⟩) <;> cases hr
  | _ =>
    exact ⟨_, ⟨h.attached, h.starting, h.posting, h.posted, h.openPosted, rfl, h.running, h.render,
      h.fresh, h.made, h.single, fun _ => ⟨hidle, hshell⟩⟩, id⟩

omit [DecidableEq τ] in
/-- A job is taken from the queue. -/
theorem At.pop (h : w.At s) {job : Job} {queue : List Job} (hqueue : w.queue = job :: queue)
    (hvideo : w.video = .running) (hidle : w.ui = .idle) :
    ∃ s', { w.setUi (.job job) with queue }.At s' ∧ (s = .finished → s' = .finished) := by
  have hno : w.ui.opening = false := by rw [hidle]; rfl
  have hcount := h.queued
  rw [hqueue] at hcount
  by_cases hjob : job = .opening
  · subst hjob
    rw [List.count_cons_self] at hcount
    cases s <;> try exact absurd hcount (Nat.succ_ne_zero _)
    have hfresh := h.fresh nofun
    have hmade := h.made
    unfold standing at hmade
    rw [hidle] at hmade
    refine ⟨.running, ⟨⟨fun _ => nofun, fun _ => h.attached.mpr nofun⟩, fun u => ?_, fun u => ?_,
      fun _ _ => .inr (.inl rfl), fun _ => .inr (.inl rfl), Nat.succ.inj hcount,
      ⟨fun _ => rfl, fun _ => rfl⟩, ⟨fun hr => ?_, ?_⟩, fun _ => hfresh, hmade, h.single,
      fun hv => absurd hvideo hv⟩, nofun⟩
    · exact ⟨fun hu => absurd ((h.starting u).mp hu) nofun, nofun⟩
    · exact ⟨fun hu => absurd ((h.posting u).mp hu) nofun, nofun⟩
    · rcases h.render.mp hr with hr | ⟨u, hr⟩ <;> cases hr
    · rintro (hr | ⟨u, hr⟩) <;> cases hr
  · rw [List.count_cons_of_ne hjob] at hcount
    have hno' : (Ui.job job).opening = false := by
      cases job <;> first | rfl | exact absurd rfl hjob
    have hset := h.setUi hvideo hno hno'
    refine ⟨s, hset.same ⟨rfl, fun _ => rfl, rfl, ?_, rfl, rfl, .rfl, rfl, rfl, rfl, rfl,
      fun _ => rfl⟩, id⟩
    exact hcount.trans hset.queued.symm

/-- In every step the opening keeps its stage or goes on to the next; once over it stays so. -/
theorem At.step (h : w.At s) {a : Action τ M G S} (hw : w.step a = some w') :
    ∃ s', w'.At s' ∧ (s = .finished → s' = .finished) := by
  cases a with
  | call t entry =>
    simp only [World.step] at hw
    split at hw
    next hc =>
      cases hw
      exact ⟨s, h.same (openSame_setCall (by rw [hc]; rfl) (by cases entry <;> rfl)), id⟩
    · cases hw
  | goOn t => exact h.goOn hw
  | newFrame =>
    cases hw
    exact ⟨s, h.same ⟨rfl, fun _ => rfl, rfl, rfl, rfl, rfl, .rfl, rfl, rfl, rfl, rfl, fun _ => rfl⟩, id⟩
  | video starts =>
    simp only [World.step] at hw
    split_ifs at hw with hvideo hstarts
    · cases hw
      exact ⟨s, ⟨h.attached, h.starting, h.posting, h.posted, h.openPosted, h.queued, h.running,
        h.render, h.fresh, h.made, h.single, nofun⟩, id⟩
    · cases hw
      exact h.videoFails (not_not.mp hvideo)
  | pop =>
    simp only [World.step] at hw
    split at hw
    · cases hw
    next job queue hqueue =>
      split_ifs at hw with hcond
      cases hw
      exact h.pop hqueue hcond.1 hcond.2
  | ui answer => exact h.uiStep hw
  | eventRelayout =>
    simp only [World.step] at hw
    split_ifs at hw with hcond
    cases hw
    have hvideo : w.video = .running := by
      by_contra hv
      rw [(h.video hv).2] at hcond
      cases hcond.2
    exact ⟨s, h.setUi hvideo (by rw [hcond.1]; rfl) rfl, id⟩
  | eventRefresh =>
    simp only [World.step] at hw
    split_ifs at hw with hcond
    cases hw
    have hvideo : w.video = .running := by
      by_contra hv
      rw [(h.video hv).2] at hcond
      cases hcond.2
    exact ⟨s, h.setUi hvideo (by rw [hcond.1]; rfl) rfl, id⟩
  | eventShown visible =>
    simp only [World.step] at hw
    split_ifs at hw with hcond
    cases hw
    exact ⟨s, h.same ⟨rfl, fun _ => rfl, rfl, rfl, rfl, rfl, .rfl, rfl, rfl, rfl, rfl, fun _ => rfl⟩, id⟩
  | render answer => exact ⟨s, h.same (openSame_render hw), id⟩

omit [DecidableEq τ] in
theorem at_new (callbacks : K) : (new callbacks : World τ M G S K).At .unattached where
  attached := ⟨nofun, fun h => absurd rfl h⟩
  starting _ := ⟨nofun, nofun⟩
  posting _ := ⟨nofun, nofun⟩
  posted _ := nofun
  openPosted := nofun
  queued := rfl
  running := ⟨nofun, nofun⟩
  render := ⟨fun _ => .inl rfl, fun _ => rfl⟩
  fresh _ := ⟨rfl, rfl⟩
  made := rfl
  single := Nat.zero_le _
  video _ := ⟨rfl, rfl⟩

/-- What an attach and the opening do. -/
def opened : List (Action Bool Unit Unit Unit) :=
  .call false (.attach ()) :: List.replicate 7 (.goOn false) ++
    [.video true, .pop] ++ List.replicate 7 (.ui ⟨true, true, true⟩)

end

end World

end ReimsVgpu.Window
