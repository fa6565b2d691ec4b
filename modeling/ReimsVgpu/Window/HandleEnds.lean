import Mathlib.Data.List.Nodup
import ReimsVgpu.Window.HandleOpening

/-!
# A window's end is complete and ordered

A close that finds the window open ends it: it empties the callbacks' and the sink's slots, ends the
render thread, and posts the shell's close where the window is attached. The shell goes once it is
closed and the render thread has released it, whichever comes last. A later close returns at once,
while the first may still be on its way.

## Main definitions

* `World.Ends`: what goes with the ending, beside the stage of the opening.

## Main results

* `World.end_complete`, `World.not_end_of_any_close`.
-/

namespace ReimsVgpu.Window

/-- A thread's part in the window's end. -/
inductive EndPart
  | stored
  | callbacks
  | sink
  | surface
  | attached
  | post
  | other
deriving DecidableEq

def Call.endPart {M G S : Type*} : Call M G S → EndPart
  | .attachRecheck | .attachTake => .stored
  | .closeCallbacks => .callbacks
  | .closeSink => .sink
  | .closeSurface => .surface
  | .closeAttached => .attached
  | .closePost => .post
  | _ => .other

/-- The close that ends the window. -/
def EndPart.closing : EndPart → Bool
  | .stored | .other => false
  | _ => true

/-- An attach on its way. -/
def Call.attaching {M G S : Type*} : Call M G S → Bool
  | .attach _ | .attachStore _ | .attachRecheck | .attachTake | .attachSwap | .attachStart
  | .attachPost | .attachPosted => true
  | _ => false

/-- The opening has found the window not closed. -/
def Ui.past : Ui → Bool
  | .making | .targeting _ | .showing _ => true
  | _ => false

/-- The render thread has seen the end. -/
def Render.finished : Render → Bool
  | .ending | .dropped | .ended => true
  | _ => false

namespace World

variable {τ M G S K : Type*} {w w' : World τ M G S K} {s : Stage τ}

/-- A shell is there, or to come, that is not closed; and one that is not released. -/
def unclosed (w : World τ M G S K) : Bool := w.ui.past || w.shell.any (!·.closed)

def unreleased (w : World τ M G S K) : Bool := w.ui.past || w.shell.any (!·.released)

/-- What goes with the window's end. -/
structure Ends (w : World τ M G S K) : Prop where
  one : ∀ t u, (w.calls t).endPart.closing = true → (w.calls u).endPart.closing = true → t = u
  closing : ∀ t, (w.calls t).endPart.closing = true → w.closed = true ∧ w.endReturned = false
  ended : w.endReturned = true → w.closed = true
  surface : w.surface.closed = true → w.closed = true
  callbacks : w.closed = true → w.callbacks ≠ none → ∃ t, (w.calls t).endPart = .callbacks
  sink : w.closed = true → w.sink ≠ none → ∃ t, (w.calls t).endPart = .stored ∨
    (w.calls t).endPart = .callbacks ∨ (w.calls t).endPart = .sink
  close : w.unclosed = true → w.closed = true →
    (∃ t, (w.calls t).endPart.closing = true) ∨ .close ∈ w.queue ∨ w.ui = .job .close
  release : w.unreleased = true → w.render = .ended → .released ∈ w.queue ∨ w.ui = .job .released
  apart : ∀ shell, w.shell = some shell → shell.closed = true → shell.released = false
  finished : w.render.finished = true → w.surface.closed = true
  released : .released ∈ w.queue ∨ w.ui = .job .released ∨
    w.shell.any (·.released) = true ∨ w.destroyed ≠ [] → w.render = .ended
  presenter : w.render = .none ∨ w.render = .dropped ∨ w.render = .ended → w.presenter = none

/-- The end's part of the state is as it was. -/
structure EndSame (w w' : World τ M G S K) : Prop where
  calls : ∀ t, (w'.calls t).endPart = (w.calls t).endPart
  closed : w'.closed = w.closed
  endReturned : w'.endReturned = w.endReturned
  surface : w'.surface.closed = w.surface.closed
  callbacks : w'.callbacks = w.callbacks
  sink : w'.sink = w.sink
  unclosed : w'.unclosed = w.unclosed
  unreleased : w'.unreleased = w.unreleased
  close : (.close ∈ w'.queue ∨ w'.ui = .job .close) ↔ (.close ∈ w.queue ∨ w.ui = .job .close)
  release : (.released ∈ w'.queue ∨ w'.ui = .job .released) ↔
    (.released ∈ w.queue ∨ w.ui = .job .released)
  shell : w'.shell.map (fun shell => (shell.closed, shell.released)) =
    w.shell.map fun shell => (shell.closed, shell.released)
  render : w'.render = w.render
  presenter : w'.presenter = w.presenter
  destroyed : w'.destroyed = w.destroyed

theorem Ends.same (h : w.Ends) (hs : w.EndSame w') : w'.Ends where
  one t u ht hu := h.one t u (hs.calls t ▸ ht) (hs.calls u ▸ hu)
  closing t ht := by
    rw [hs.closed, hs.endReturned]
    exact h.closing t (hs.calls t ▸ ht)
  ended he := hs.closed ▸ h.ended (hs.endReturned ▸ he)
  surface hc := hs.closed ▸ h.surface (hs.surface ▸ hc)
  callbacks hc hne := by
    obtain ⟨t, ht⟩ := h.callbacks (hs.closed ▸ hc) (hs.callbacks ▸ hne)
    exact ⟨t, (hs.calls t).trans ht⟩
  sink hc hne := by
    obtain ⟨t, ht⟩ := h.sink (hs.closed ▸ hc) (hs.sink ▸ hne)
    exact ⟨t, by rwa [hs.calls t]⟩
  close hu hc := by
    rw [hs.close]
    refine (h.close (hs.unclosed ▸ hu) (hs.closed ▸ hc)).imp_left fun ⟨t, ht⟩ => ⟨t, ?_⟩
    rwa [hs.calls t]
  release hu hr := hs.release.mpr (h.release (hs.unreleased ▸ hu) (hs.render ▸ hr))
  apart shell hshell hc := by
    have hmap := hs.shell
    rw [hshell] at hmap
    obtain ⟨old, hold, heq⟩ := Option.map_eq_some_iff.mp hmap.symm
    obtain ⟨hclosed, hreleased⟩ := Prod.mk.inj heq
    rw [← hreleased]
    exact h.apart old hold (hclosed.trans hc)
  finished ho := hs.surface ▸ h.finished (hs.render ▸ ho)
  released hr := by
    have hany : w'.shell.any (·.released) = w.shell.any (·.released) := by
      have hmap := congrArg (fun o => o.any fun p : Bool × Bool => p.2) hs.shell
      simpa only [Option.any_map] using hmap
    rw [hany, hs.destroyed, ← or_assoc, hs.release, or_assoc] at hr
    rw [hs.render]
    exact h.released hr
  presenter hr := by
    rw [hs.render] at hr
    rw [hs.presenter]
    exact h.presenter hr

/-! ### A step of a thread -/

section

variable [DecidableEq τ] {t : τ} {c : Call M G S}

/-- A part that some thread plays is played after another step too, unless that thread gave it up. -/
theorem exists_endPart {P : EndPart → Prop} (h : ∃ u, P (w.calls u).endPart)
    (ht : P (w.calls t).endPart → P c.endPart) : ∃ u, P ((w.setCall t c).calls u).endPart := by
  obtain ⟨u, hu⟩ := h
  rcases eq_or_ne u t with rfl | hne
  · exact ⟨u, by rw [setCall_self]; exact ht hu⟩
  · exact ⟨u, by rwa [setCall_of_ne hne]⟩

/-- A close goes on, or ends: it is still the one that ends the window. -/
theorem closing_of_setCall (hc : c.endPart.closing = true → (w.calls t).endPart.closing = true)
    (u : τ) (hu : ((w.setCall t c).calls u).endPart.closing = true) :
    (w.calls u).endPart.closing = true := by
  rcases eq_or_ne u t with rfl | hne
  · rw [setCall_self] at hu
    exact hc hu
  · rwa [setCall_of_ne hne] at hu

/-- A thread that has no part in the end. -/
theorem endSame_setCall (h : c.endPart = (w.calls t).endPart) : w.EndSame (w.setCall t c) where
  calls := setCall_part Call.endPart h
  closed := rfl
  endReturned := rfl
  surface := rfl
  callbacks := rfl
  sink := rfl
  unclosed := rfl
  unreleased := rfl
  close := .rfl
  release := .rfl
  shell := rfl
  render := rfl
  presenter := rfl
  destroyed := rfl

omit [DecidableEq τ] in
theorem EndSame.post (h : w.EndSame w') {job : Job} (hclose : job ≠ .close)
    (hreleased : job ≠ .released) : w.EndSame (w'.post job) := by
  unfold World.post
  split
  · exact h
  · refine ⟨h.calls, h.closed, h.endReturned, h.surface, h.callbacks, h.sink, h.unclosed, h.unreleased,
      ?_, ?_, h.shell, h.render, h.presenter, h.destroyed⟩
    · rw [← h.close]
      simp [hclose.symm]
    · rw [← h.release]
      simp [hreleased.symm]

/-- An attach stores its sink. -/
theorem Ends.attachStore (h : w.Ends) {sink : S} (hc : w.calls t = .attachStore sink) :
    { w.setCall t .attachRecheck with sink := some sink }.Ends := by
  have hpart : (w.calls t).endPart = .other := by rw [hc]; rfl
  have hclosing := closing_of_setCall (w := w) (t := t) (c := .attachRecheck) nofun
  refine
    { h with
      one := fun u v hu hv => h.one u v (hclosing u hu) (hclosing v hv)
      closing := fun u hu => h.closing u (hclosing u hu)
      callbacks := fun hcl hne => exists_endPart (P := fun p => p = .callbacks) (h.callbacks hcl hne) ?_
      sink := fun _ _ => ⟨t, .inl (congrArg Call.endPart setCall_self)⟩
      close := fun hu hcl => (h.close hu hcl).imp_left fun he =>
        exists_endPart (P := fun p => p.closing = true) he ?_ } <;>
    (rw [hpart]; nofun)

/-- An attach finds the window not closed. -/
theorem Ends.attachRecheck (h : w.Ends) (hc : w.calls t = .attachRecheck) (hopen : w.closed = false) :
    (w.setCall t .attachSwap).Ends := by
  have hpart : (w.calls t).endPart = .stored := by rw [hc]; rfl
  have hclosing := closing_of_setCall (w := w) (t := t) (c := .attachSwap) nofun
  exact
    { h with
      one := fun u v hu hv => h.one u v (hclosing u hu) (hclosing v hv)
      closing := fun u hu => h.closing u (hclosing u hu)
      callbacks := fun hcl _ => absurd (hopen.symm.trans hcl) nofun
      sink := fun hcl _ => absurd (hopen.symm.trans hcl) nofun
      close := fun _ hcl => absurd (hopen.symm.trans hcl) nofun }

/-- An attach takes the sink back. -/
theorem Ends.attachTake (h : w.Ends) (hc : w.calls t = .attachTake) :
    { w.setCall t .outside with sink := none }.Ends := by
  have hpart : (w.calls t).endPart = .stored := by rw [hc]; rfl
  have hclosing := closing_of_setCall (w := w) (t := t) (c := .outside) nofun
  refine
    { h with
      one := fun u v hu hv => h.one u v (hclosing u hu) (hclosing v hv)
      closing := fun u hu => h.closing u (hclosing u hu)
      callbacks := fun hcl hne => exists_endPart (P := fun p => p = .callbacks) (h.callbacks hcl hne) ?_
      sink := fun _ hne => absurd rfl hne
      close := fun hu hcl => (h.close hu hcl).imp_left fun he =>
        exists_endPart (P := fun p => p.closing = true) he ?_ } <;>
    (rw [hpart]; nofun)

/-- The render thread starts. -/
theorem Ends.attachStart (h : w.Ends) (hs : w.At s) (hc : w.calls t = .attachStart) :
    { w.setCall t .attachPost with render := .waiting none }.Ends := by
  have hnone : w.render = .none :=
    hs.render.mpr (.inr ⟨t, (hs.starting t).mp (by rw [hc]; rfl)⟩)
  have hsame := h.same (endSame_setCall (t := t) (c := .attachPost) (by rw [hc]; rfl))
  refine { hsame with release := nofun, finished := nofun, released := fun hr => ?_, presenter := ?_ }
  · exact absurd (hnone.symm.trans (h.released hr)) nofun
  · rintro (hr | hr | hr) <;> cases hr

/-- A close finds the window open, and is the one that ends it. -/
theorem Ends.close_ends (h : w.Ends) (hopen : w.closed = false) :
    { w.setCall t .closeCallbacks with closed := true }.Ends := by
  have hnone : ∀ u, (w.calls u).endPart.closing = true → False := fun u hu =>
    absurd (hopen.symm.trans (h.closing u hu).1) nofun
  have hsole : ∀ u, ((w.setCall t .closeCallbacks).calls u).endPart.closing = true → u = t := by
    intro u hu
    by_contra hne
    rw [setCall_of_ne hne] at hu
    exact hnone u hu
  have hself : ((w.setCall t .closeCallbacks).calls t).endPart = .callbacks := by
    rw [setCall_self]
    rfl
  have hended : w.endReturned = false := by
    cases he : w.endReturned with
    | false => rfl
    | true => exact absurd (hopen.symm.trans (h.ended he)) nofun
  exact
    { h with
      one := fun u v hu hv => (hsole u hu).trans (hsole v hv).symm
      closing := fun _ _ => ⟨rfl, hended⟩
      ended := fun _ => rfl
      surface := fun _ => rfl
      callbacks := fun _ _ => ⟨t, hself⟩
      sink := fun _ _ => ⟨t, .inr (.inl hself)⟩
      close := fun _ _ => .inl ⟨t, by dsimp only; rw [hself]; rfl⟩ }

/-- A later close returns at once. -/
theorem Ends.close_later (h : w.Ends) (hc : w.calls t = .close) : (w.closeReturns t false).Ends :=
  h.same
    { endSame_setCall (w := w) (t := t) (c := .outside) (by rw [hc]; rfl) with
      endReturned := Bool.or_false _ }

/-- The ending close takes the callbacks. -/
theorem Ends.closeCallbacks (h : w.Ends) (hc : w.calls t = .closeCallbacks) :
    { w.setCall t .closeSink with callbacks := (none : Option K) }.Ends := by
  have hpart : (w.calls t).endPart = .callbacks := by rw [hc]; rfl
  have hclosing := closing_of_setCall (w := w) (t := t) (c := .closeSink) fun _ => by rw [hpart]; rfl
  exact
    { h with
      one := fun u v hu hv => h.one u v (hclosing u hu) (hclosing v hv)
      closing := fun u hu => h.closing u (hclosing u hu)
      callbacks := fun _ hne => absurd rfl hne
      sink := fun hcl hne => exists_endPart
        (P := fun p => p = .stored ∨ p = .callbacks ∨ p = .sink) (h.sink hcl hne)
        fun _ => .inr (.inr rfl)
      close := fun hu hcl => (h.close hu hcl).imp_left fun he =>
        exists_endPart (P := fun p => p.closing = true) he fun _ => rfl }

/-- The ending close takes the sink. -/
theorem Ends.closeSink (h : w.Ends) (hc : w.calls t = .closeSink) :
    { w.setCall t .closeSurface with sink := none }.Ends := by
  have hpart : (w.calls t).endPart = .sink := by rw [hc]; rfl
  have hclosing := closing_of_setCall (w := w) (t := t) (c := .closeSurface) fun _ => by rw [hpart]; rfl
  exact
    { h with
      one := fun u v hu hv => h.one u v (hclosing u hu) (hclosing v hv)
      closing := fun u hu => h.closing u (hclosing u hu)
      callbacks := fun hcl hne => exists_endPart (P := fun p => p = .callbacks)
        (h.callbacks hcl hne) (by rw [hpart]; nofun)
      sink := fun _ hne => absurd rfl hne
      close := fun hu hcl => (h.close hu hcl).imp_left fun he =>
        exists_endPart (P := fun p => p.closing = true) he fun _ => rfl }

/-- The ending close ends the render thread. -/
theorem Ends.closeSurface (h : w.Ends) (hc : w.calls t = .closeSurface) :
    { w.setCall t .closeAttached with surface := { w.surface with closed := true } }.Ends := by
  have hpart : (w.calls t).endPart = .surface := by rw [hc]; rfl
  have hclosing := closing_of_setCall (w := w) (t := t) (c := .closeAttached) fun _ => by rw [hpart]; rfl
  have hcl := (h.closing t (by rw [hpart]; rfl)).1
  exact
    { h with
      one := fun u v hu hv => h.one u v (hclosing u hu) (hclosing v hv)
      closing := fun u hu => h.closing u (hclosing u hu)
      surface := fun _ => hcl
      callbacks := fun hcl hne => exists_endPart (P := fun p => p = .callbacks)
        (h.callbacks hcl hne) (by rw [hpart]; nofun)
      sink := fun hcl hne => exists_endPart
        (P := fun p => p = .stored ∨ p = .callbacks ∨ p = .sink) (h.sink hcl hne)
        (by rw [hpart]; rintro (hp | hp | hp) <;> cases hp)
      close := fun hu hcl => (h.close hu hcl).imp_left fun he =>
        exists_endPart (P := fun p => p.closing = true) he fun _ => rfl
      finished := fun _ => rfl }

/-- The ending close is to post the shell's close. -/
theorem Ends.closeAttached (h : w.Ends) (hc : w.calls t = .closeAttached) :
    (w.setCall t .closePost).Ends := by
  have hpart : (w.calls t).endPart = .attached := by rw [hc]; rfl
  have hclosing := closing_of_setCall (w := w) (t := t) (c := .closePost) fun _ => by rw [hpart]; rfl
  exact
    { h with
      one := fun u v hu hv => h.one u v (hclosing u hu) (hclosing v hv)
      closing := fun u hu => h.closing u (hclosing u hu)
      callbacks := fun hcl hne => exists_endPart (P := fun p => p = .callbacks)
        (h.callbacks hcl hne) (by rw [hpart]; nofun)
      sink := fun hcl hne => exists_endPart
        (P := fun p => p = .stored ∨ p = .callbacks ∨ p = .sink) (h.sink hcl hne)
        (by rw [hpart]; rintro (hp | hp | hp) <;> cases hp)
      close := fun hu hcl => (h.close hu hcl).imp_left fun he =>
        exists_endPart (P := fun p => p.closing = true) he fun _ => rfl }

/-- The ending close returns: there is no shell to close, or its close is posted. -/
theorem Ends.closeReturns (h : w.Ends) {q : List Job}
    (hpart : (w.calls t).endPart = .attached ∨ (w.calls t).endPart = .post)
    (hqueue : ∀ job, job ∈ w.queue → job ∈ q) (hrel : .released ∈ q → .released ∈ w.queue)
    (hclose : w.unclosed = true → .close ∈ q) :
    { w.closeReturns t true with queue := q }.Ends := by
  have hself : (w.calls t).endPart.closing = true := by
    rcases hpart with hp | hp <;> rw [hp] <;> rfl
  have hcl := (h.closing t hself).1
  have hnone : ∀ u, ((w.setCall t .outside).calls u).endPart.closing = true → False := by
    intro u hu
    have hu' := closing_of_setCall (w := w) (t := t) (c := .outside) nofun u hu
    obtain rfl := h.one u t hu' hself
    rw [setCall_self] at hu
    cases hu
  exact
    { h with
      one := fun u v hu _ => (hnone u hu).elim
      closing := fun u hu => (hnone u hu).elim
      ended := fun _ => hcl
      callbacks := fun hcl hne => exists_endPart (P := fun p => p = .callbacks)
        (h.callbacks hcl hne) (by rcases hpart with hp | hp <;> rw [hp] <;> nofun)
      sink := fun hcl hne => exists_endPart
        (P := fun p => p = .stored ∨ p = .callbacks ∨ p = .sink) (h.sink hcl hne)
        (by rcases hpart with hp | hp <;> rw [hp] <;> rintro (hq | hq | hq) <;> cases hq)
      close := fun hu _ => .inr (.inl (hclose hu))
      release := fun hu hr => (h.release hu hr).imp_left (hqueue _)
      released := fun hr => h.released (hr.imp_left hrel) }

omit [DecidableEq τ] in
/-- Before the opening runs, and where SDL's video does not, there is no shell. -/
theorem At.unclosed_false (h : w.At s)
    (hs : w.attached = false ∨ w.video ≠ .running) : w.unclosed = false ∧ w.unreleased = false := by
  have hnone : w.shell = none ∧ w.ui.past = false := by
    rcases hs with hs | hs
    · have hun : s = .unattached := by
        by_contra hne
        exact absurd (hs.symm.trans (h.attached.mpr hne)) nofun
      subst hun
      refine ⟨(h.fresh nofun).1, ?_⟩
      cases hui : w.ui <;> first | rfl | exact absurd (h.running.mp (by rw [hui]; rfl)) nofun
    · obtain ⟨hidle, hshell⟩ := h.video hs
      exact ⟨hshell, by rw [hidle]; rfl⟩
  unfold World.unclosed World.unreleased
  rw [hnone.1, hnone.2]
  exact ⟨rfl, rfl⟩

theorem Ends.goOn (h : w.Ends) (hs : w.At s) (hw : w.goOn t (w.calls t) = some w') : w'.Ends := by
  cases hc : w.calls t <;> rw [hc] at hw <;> simp only [World.goOn] at hw
  case outside => cases hw
  case attachStore sink =>
    cases hw
    exact h.attachStore hc
  case attachRecheck =>
    cases hclosed : w.closed with
    | true =>
      rw [hclosed] at hw
      cases hw
      exact h.same (endSame_setCall (by rw [hc]; rfl))
    | false =>
      rw [hclosed] at hw
      cases hw
      exact h.attachRecheck hc hclosed
  case attachTake =>
    cases hw
    exact h.attachTake hc
  case attachStart =>
    cases hw
    exact h.attachStart hs hc
  case close =>
    split at hw
    · cases hw
      exact h.close_later hc
    next hclosed =>
      cases hw
      exact h.close_ends (by simpa using hclosed)
  case closeCallbacks =>
    cases hw
    exact h.closeCallbacks hc
  case closeSink =>
    cases hw
    exact h.closeSink hc
  case closeSurface =>
    cases hw
    exact h.closeSurface hc
  case closeAttached =>
    split at hw
    · cases hw
      exact h.closeAttached hc
    next hattached =>
      cases hw
      have hnone := (hs.unclosed_false (.inl (by simpa using hattached))).1
      exact h.closeReturns (.inl (by rw [hc]; rfl)) (fun _ hj => hj) id
        fun hu => absurd (hnone.symm.trans hu) (by rintro ⟨⟩)
  case closePost =>
    cases hw
    have hpart : (w.calls t).endPart = .attached ∨ (w.calls t).endPart = .post :=
      .inr (by rw [hc]; rfl)
    unfold World.post
    split
    next hvideo =>
      have hvideo' : w.video ≠ .running := fun hr => absurd (hvideo.symm.trans hr) (by rintro ⟨⟩)
      have hnone := (hs.unclosed_false (.inr hvideo')).1
      exact h.closeReturns hpart (fun _ hj => hj) id fun hu => absurd (hnone.symm.trans hu)
        (by rintro ⟨⟩)
    · refine h.closeReturns (q := w.queue ++ [.close]) hpart
        (fun _ hj => List.mem_append_left _ hj) (fun hr => ?_)
        fun _ => List.mem_append_right _ (List.mem_singleton_self _)
      simpa using hr
  -- what is left has no part in the end
  case attachPost =>
    cases hw
    exact h.same ((endSame_setCall (by rw [hc]; rfl)).post (by rintro ⟨⟩) (by rintro ⟨⟩))
  case modePost =>
    cases hw
    exact h.same ((endSame_setCall (by rw [hc]; rfl)).post (by rintro ⟨⟩) (by rintro ⟨⟩))
  case cursorPost =>
    cases hw
    exact h.same ((endSame_setCall (by rw [hc]; rfl)).post (by rintro ⟨⟩) (by rintro ⟨⟩))
  all_goals
    try split at hw
    all_goals
      cases hw
      exact h.same
        ⟨setCall_part Call.endPart (by rw [hc]; rfl), rfl, rfl, rfl, rfl, rfl, rfl, rfl, .rfl, .rfl, rfl,
          rfl, rfl, rfl⟩

end

/-! ### A step of the UI thread -/

/-- The UI thread goes on with nothing of the end. -/
theorem endSame_ui {v : World τ M G S K} (hcalls : v.calls = w.calls) (hclosed : v.closed = w.closed)
    (hended : v.endReturned = w.endReturned) (hsurface : v.surface.closed = w.surface.closed)
    (hcallbacks : v.callbacks = w.callbacks) (hsink : v.sink = w.sink) (hqueue : v.queue = w.queue)
    (hui : v.ui.past = w.ui.past)
    (hclose : w.ui ≠ .job .close ∧ v.ui ≠ .job .close)
    (hreleased : w.ui ≠ .job .released ∧ v.ui ≠ .job .released)
    (hshell : v.shell.map (fun shell => (shell.closed, shell.released)) =
      w.shell.map fun shell => (shell.closed, shell.released))
    (hrender : v.render = w.render) (hpresenter : v.presenter = w.presenter)
    (hdestroyed : v.destroyed = w.destroyed) : w.EndSame v where
  calls _ := by rw [hcalls]
  closed := hclosed
  endReturned := hended
  surface := hsurface
  callbacks := hcallbacks
  sink := hsink
  unclosed := by
    have hany := congrArg (fun o => o.any fun p : Bool × Bool => !p.1) hshell
    simp only [Option.any_map] at hany
    unfold World.unclosed
    rw [hui]
    exact congrArg _ hany
  unreleased := by
    have hany := congrArg (fun o => o.any fun p : Bool × Bool => !p.2) hshell
    simp only [Option.any_map] at hany
    unfold World.unreleased
    rw [hui]
    exact congrArg _ hany
  close := by
    rw [hqueue]
    exact or_congr_right ⟨fun h => absurd h hclose.2, fun h => absurd h hclose.1⟩
  release := by
    rw [hqueue]
    exact or_congr_right ⟨fun h => absurd h hreleased.2, fun h => absurd h hreleased.1⟩
  shell := hshell
  render := hrender
  presenter := hpresenter
  destroyed := hdestroyed

/-- The opening finds the window not closed: the render thread has not seen the end. -/
theorem Ends.opens (h : w.Ends) (hopen : w.closed = false) :
    (w.setUi .making).Ends := by
  have hover : w.render ≠ .ended := fun hr => by
    have hclosed := h.surface (h.finished (by rw [hr]; rfl))
    exact absurd (hopen.symm.trans hclosed) nofun
  exact
    { h with
      close := fun _ hcl => absurd (hopen.symm.trans hcl) nofun
      release := fun _ hr => absurd hr hover
      released := fun hr => h.released (hr.imp_right (·.imp_left fun hu => absurd hu nofun)) }

/-- A job of the end finds no shell. -/
theorem Ends.noShell (h : w.Ends) (hnone : w.shell = none) :
    (w.setUi .idle).Ends := by
  have hun : (w.setUi .idle).unclosed = false := by
    simp [World.unclosed, setUi, Ui.past, hnone]
  have hur : (w.setUi .idle).unreleased = false := by
    simp [World.unreleased, setUi, Ui.past, hnone]
  exact
    { h with
      close := fun hu => absurd (hun.symm.trans hu) (by rintro ⟨⟩)
      release := fun hu => absurd (hur.symm.trans hu) (by rintro ⟨⟩)
      released := fun hr => h.released (hr.imp_right (·.imp_left fun hu => absurd hu (by rintro ⟨⟩))) }

/-- The shell goes, closed and released. -/
theorem Ends.destroy (h : w.Ends) {shell : Shell M G} (hended : w.render = .ended) :
    ((w.setUi .idle).destroy shell).Ends :=
  { h with
    close := nofun
    release := nofun
    apart := nofun
    released := fun _ => hended }

/-- The shell is closed before it is released. -/
theorem Ends.closes (h : w.Ends) (hui : w.ui = .job .close) {shell : Shell M G}
    (hshell : w.shell = some shell) (hreleased : shell.released = false) :
    ((w.setUi .idle).setShell { shell with closed := true }).Ends := by
  refine { h with close := nofun, release := fun hu hr => ?_, apart := ?_, released := fun hr => ?_ }
  · have hun : w.unreleased = true := by
      simp [World.unreleased, hshell, hreleased]
    refine (h.release hun hr).imp_right fun hj => ?_
    exact absurd (hui.symm.trans hj) nofun
  · rintro _ ⟨⟩ -
    exact hreleased
  · refine h.released ?_
    rcases hr with hr | hr | hr | hr
    · exact .inl hr
    · cases hr
    · exact absurd (hreleased.symm.trans hr) nofun
    · exact .inr (.inr (.inr hr))

/-- The shell is released before it is closed. -/
theorem Ends.releases (h : w.Ends) (hui : w.ui = .job .released) {shell : Shell M G}
    (hshell : w.shell = some shell) (hclosed : shell.closed = false) :
    ((w.setUi .idle).setShell { shell with released := true }).Ends := by
  refine { h with close := fun hu hcl => ?_, release := nofun, apart := ?_, released := fun _ => ?_ }
  · have hun : w.unclosed = true := by
      simp [World.unclosed, hshell, hclosed]
    refine (h.close hun hcl).imp_right (·.imp_right fun hj => ?_)
    exact absurd (hui.symm.trans hj) nofun
  · rintro _ ⟨⟩ hcl
    exact absurd (hclosed.symm.trans hcl) nofun
  · exact h.released (.inr (.inl hui))

/-- The opening leaves its SDL window with a shell. -/
theorem Ends.shows (h : w.Ends) {sdl : ℕ} (hui : w.ui = .showing sdl) {surface : SurfaceState}
    (hsurface : surface.closed = w.surface.closed) :
    ({ w.setUi .relayout with surface }.setShell ⟨sdl, none, none, false, false⟩).Ends := by
  have hun : w.unclosed = true := by simp [World.unclosed, hui, Ui.past]
  have hur : w.unreleased = true := by simp [World.unreleased, hui, Ui.past]
  have hjob : ∀ job, w.ui ≠ .job job := by rw [hui]; nofun
  exact
    { h with
      surface := fun hs => h.surface (hsurface ▸ hs)
      close := fun _ hcl => (h.close hun hcl).imp_right (·.imp_right fun hj => absurd hj (hjob _))
      release := fun _ hr => (h.release hur hr).imp_right fun hj => absurd hj (hjob _)
      apart := by
        rintro _ ⟨⟩ hcl
        cases hcl
      finished := fun ho => hsurface.trans (h.finished ho)
      released := fun hr => by
        rcases hr with hr | hr | hr | hr
        · exact h.released (.inl hr)
        · cases hr
        · cases hr
        · exact h.released (.inr (.inr (.inr hr))) }

theorem Ends.uiStep (h : w.Ends) (hs : w.At s) {answer : UiAnswer}
    (hw : w.uiStep answer w.ui = some w') : w'.Ends := by
  have hopening : w.ui.opening = true → w.shell = none := fun ho => by
    obtain rfl := hs.running.mp ho
    exact (hs.fresh (by rintro ⟨⟩)).1
  cases hui : w.ui with
  | idle =>
    rw [hui] at hw
    cases hw
  | job job =>
    rw [hui] at hw
    cases hw
    cases job with
    | opening =>
      simp only [uiJob]
      split
      · exact h.noShell (hopening (by rw [hui]; rfl))
      next hcond =>
        refine h.opens ?_
        simpa using fun hcl => hcond (.inr (.inl hcl))
    | guestModeChanged =>
      simp only [uiJob]
      refine h.same (endSame_ui rfl rfl rfl rfl rfl rfl rfl ?_ ?_ ?_ rfl rfl rfl rfl)
      · rw [hui]
        unfold World.setUi
        split <;> rfl
      · rw [hui]
        unfold World.setUi
        split <;> exact ⟨by rintro ⟨⟩, by rintro ⟨⟩⟩
      · rw [hui]
        unfold World.setUi
        split <;> exact ⟨by rintro ⟨⟩, by rintro ⟨⟩⟩
    | cursorChanged =>
      simp only [uiJob]
      split
      next hnone => exact h.noShell hnone
      · exact h.same (endSame_ui rfl rfl rfl rfl rfl rfl rfl (by rw [hui]; rfl)
          (by rw [hui]; exact ⟨by rintro ⟨⟩, by rintro ⟨⟩⟩)
          (by rw [hui]; exact ⟨by rintro ⟨⟩, by rintro ⟨⟩⟩) rfl rfl rfl rfl)
    | close =>
      simp only [uiJob]
      split
      next hnone => exact h.noShell hnone
      next shell hshell =>
        split
        next hreleased =>
          exact h.destroy (h.released (.inr (.inr (.inl (by rw [hshell]; exact hreleased)))))
        next hreleased => exact h.closes hui hshell (by simpa using hreleased)
    | released =>
      simp only [uiJob]
      split
      next hnone => exact h.noShell hnone
      next shell hshell =>
        split
        · exact h.destroy (h.released (.inr (.inl hui)))
        next hclosed => exact h.releases hui hshell (by simpa using hclosed)
  | making =>
    rw [hui] at hw
    simp only [World.uiStep] at hw
    split at hw
    · cases hw
      exact h.same (endSame_ui rfl rfl rfl rfl rfl rfl rfl (by rw [hui]; rfl)
        (by rw [hui]; exact ⟨by rintro ⟨⟩, by rintro ⟨⟩⟩)
        (by rw [hui]; exact ⟨by rintro ⟨⟩, by rintro ⟨⟩⟩) rfl rfl rfl rfl)
    · cases hw
      exact h.noShell (hopening (by rw [hui]; rfl))
  | targeting sdl =>
    rw [hui] at hw
    cases hw
    exact h.same (endSame_ui rfl rfl rfl rfl rfl rfl rfl (by rw [hui]; rfl)
      (by rw [hui]; exact ⟨by rintro ⟨⟩, by rintro ⟨⟩⟩)
      (by rw [hui]; exact ⟨by rintro ⟨⟩, by rintro ⟨⟩⟩) rfl rfl rfl rfl)
  | showing sdl =>
    rw [hui] at hw
    cases hw
    exact h.shows hui rfl
  | relayout =>
    rw [hui] at hw
    obtain ⟨shell, hshell, rfl⟩ := Option.map_eq_some_iff.mp hw
    refine h.same (endSame_ui rfl rfl rfl rfl rfl rfl rfl ?_ ?_ ?_ (by rw [hshell]; rfl) rfl rfl rfl)
    · rw [hui]
      change Ui.past (if _ then _ else _) = _
      split <;> rfl
    · rw [hui]
      refine ⟨by rintro ⟨⟩, ?_⟩
      change (if _ then _ else _) ≠ _
      split <;> rintro ⟨⟩
    · rw [hui]
      refine ⟨by rintro ⟨⟩, ?_⟩
      change (if _ then _ else _) ≠ _
      split <;> rintro ⟨⟩
  | refresh relayout =>
    rw [hui] at hw
    obtain ⟨shell, hshell, rfl⟩ := Option.map_eq_some_iff.mp hw
    refine h.same (endSame_ui rfl rfl rfl rfl rfl rfl rfl ?_ ?_ ?_ (by rw [hshell]; rfl) rfl rfl rfl)
    · rw [hui]
      change Ui.past (if _ then _ else _) = _
      split <;> rfl
    · rw [hui]
      refine ⟨by rintro ⟨⟩, ?_⟩
      change (if _ then _ else _) ≠ _
      split <;> rintro ⟨⟩
    · rw [hui]
      refine ⟨by rintro ⟨⟩, ?_⟩
      change (if _ then _ else _) ≠ _
      split <;> rintro ⟨⟩
  | layout changed =>
    rw [hui] at hw
    cases hw
    exact h.same (endSame_ui rfl rfl rfl rfl rfl rfl rfl (by rw [hui]; rfl)
      (by rw [hui]; exact ⟨by rintro ⟨⟩, by rintro ⟨⟩⟩)
      (by rw [hui]; exact ⟨by rintro ⟨⟩, by rintro ⟨⟩⟩) rfl rfl rfl rfl)

/-! ### The render thread's steps, and the others -/

/-- The render thread goes on before it has seen the end. -/
theorem Ends.draws (h : w.Ends) {render : Render} {presenter : Option ℕ} {v : SurfaceState}
    (hbefore : w.render ≠ .ended) (hsurface : v.closed = w.surface.closed)
    (hover : render.finished = false) (hrender : render ≠ .none) :
    { w with render, presenter, surface := v }.Ends := by
  have hended : render ≠ .ended := by rintro rfl; cases hover
  refine
    { h with
      surface := fun hs => h.surface (hsurface ▸ hs)
      release := fun _ hr => absurd hr hended
      finished := fun ho => absurd (hover.symm.trans ho) nofun
      released := fun hr => absurd (h.released hr) hbefore
      presenter := ?_ }
  rintro (hr | hr | hr)
  · exact absurd hr hrender
  · exact absurd (show render = .dropped from hr) (by rintro rfl; cases hover)
  · exact absurd hr hended

theorem Ends.renderStep (h : w.Ends) (hs : w.At s) {answer : RenderAnswer}
    (hw : w.renderStep answer w.render = some w') : w'.Ends := by
  cases hr : w.render with
  | none =>
    rw [hr] at hw
    cases hw
  | waiting retry =>
    have hbefore : w.render ≠ .ended := by rw [hr]; rintro ⟨⟩
    rw [hr] at hw
    simp only [World.renderStep] at hw
    split at hw
    next hclosed =>
      cases hw
      refine
        { h with
          release := by rintro _ ⟨⟩
          finished := fun _ => hclosed
          presenter := ?_
          released := fun hr' => absurd (h.released hr') hbefore }
      rintro (hr | hr | hr) <;> cases hr
    · split at hw
      · cases hw
        exact h.draws hbefore rfl rfl (by rintro ⟨⟩)
      · cases hw
        refine h.draws (v := w.surface) hbefore rfl ?_ ?_
        · split <;> rfl
        · split <;> rintro ⟨⟩
      · cases hw
  | drawing target =>
    have hbefore : w.render ≠ .ended := by rw [hr]; rintro ⟨⟩
    rw [hr] at hw
    simp only [World.renderStep] at hw
    split at hw <;> cases hw <;> exact h.draws (v := w.surface) hbefore rfl rfl (by rintro ⟨⟩)
  | ending =>
    have hbefore : w.render ≠ .ended := by rw [hr]; rintro ⟨⟩
    have hclosed := h.finished (by rw [hr]; rfl)
    rw [hr] at hw
    cases hw
    exact
      { h with
        release := by rintro _ ⟨⟩
        finished := fun _ => hclosed
        presenter := fun _ => rfl
        released := fun hr' => absurd (h.released hr') hbefore }
  | dropped =>
    have hclosed := h.finished (by rw [hr]; rfl)
    have hnone := h.presenter (.inr (.inl hr))
    rw [hr] at hw
    cases hw
    unfold World.post
    dsimp only
    split
    next hvideo =>
      have hvideo' : w.video ≠ .running := fun hrun => absurd (hvideo.symm.trans hrun) (by rintro ⟨⟩)
      have hun := (hs.unclosed_false (.inr hvideo')).2
      exact
        { h with
          release := fun hu => absurd (hun.symm.trans hu) (by rintro ⟨⟩)
          finished := fun _ => hclosed, presenter := fun _ => hnone, released := fun _ => rfl }
    · exact
        { h with
          close := fun hu hcl => (h.close hu hcl).imp_right
            (·.imp_left fun hj => List.mem_append_left _ hj)
          release := fun _ _ => .inl (List.mem_append_right _ (List.mem_singleton_self _))
          finished := fun _ => hclosed, presenter := fun _ => hnone, released := fun _ => rfl }
  | ended =>
    rw [hr] at hw
    cases hw

/-- A job is taken from the queue. -/
theorem Ends.pop (h : w.Ends) {job : Job} {queue : List Job} (hqueue : w.queue = job :: queue)
    (hidle : w.ui = .idle) : { w.setUi (.job job) with queue }.Ends := by
  have hpast : (Ui.job job).past = w.ui.past := by rw [hidle]; rfl
  have hmem : ∀ j, (j ∈ queue ∨ Ui.job job = .job j) ↔ (j ∈ w.queue ∨ w.ui = .job j) := fun j => by
    rw [hqueue, hidle, List.mem_cons, Ui.job.injEq, or_comm, eq_comm]
    simp
  have hsame : w.EndSame { w.setUi (.job job) with queue } :=
    { calls := fun _ => rfl, closed := rfl, endReturned := rfl, surface := rfl, callbacks := rfl
      sink := rfl
      unclosed := by
        unfold World.unclosed
        exact congrArg (· || _) hpast
      unreleased := by
        unfold World.unreleased
        exact congrArg (· || _) hpast
      close := hmem .close
      release := hmem .released
      shell := rfl, render := rfl, presenter := rfl, destroyed := rfl }
  exact h.same hsame

/-- SDL's video does not start: there is no shell to close or to release. -/
theorem Ends.videoFails (h : w.Ends) (hs : w.At s) (hvideo : w.video = .starting) :
    { w with video := .failed, queue := [] }.Ends := by
  have hnone := hs.unclosed_false (.inr (by rw [hvideo]; nofun))
  exact
    { h with
      close := fun hu => absurd (hnone.1.symm.trans hu) nofun
      release := fun hu => absurd (hnone.2.symm.trans hu) nofun
      released := fun hr => h.released (hr.imp_left fun hj => absurd hj List.not_mem_nil) }

section

variable [DecidableEq τ]

theorem Ends.step (h : w.Ends) (hs : w.At s) {a : Action τ M G S} (hw : w.step a = some w') :
    w'.Ends := by
  have hevent : ∀ ui : Ui, w.ui = .idle → ui.past = false → (∀ job, ui ≠ .job job) →
      (w.setUi ui).Ends := fun ui hidle hpast hjob =>
    h.same (endSame_ui rfl rfl rfl rfl rfl rfl rfl (by rw [hidle]; exact hpast)
      ⟨by rw [hidle]; rintro ⟨⟩, hjob _⟩ ⟨by rw [hidle]; rintro ⟨⟩, hjob _⟩ rfl rfl rfl rfl)
  cases a with
  | call t entry =>
    simp only [World.step] at hw
    split at hw
    next hc =>
      cases hw
      exact h.same (endSame_setCall (by rw [hc]; cases entry <;> rfl))
    · cases hw
  | goOn t => exact h.goOn hs hw
  | newFrame =>
    cases hw
    exact h.same ⟨fun _ => rfl, rfl, rfl, rfl, rfl, rfl, rfl, rfl, .rfl, .rfl, rfl, rfl, rfl, rfl⟩
  | video starts =>
    simp only [World.step] at hw
    split_ifs at hw with hvideo hstarts
    · cases hw
      exact h.same ⟨fun _ => rfl, rfl, rfl, rfl, rfl, rfl, rfl, rfl, .rfl, .rfl, rfl, rfl, rfl, rfl⟩
    · cases hw
      exact h.videoFails hs (not_not.mp hvideo)
  | pop =>
    simp only [World.step] at hw
    split at hw
    · cases hw
    next job queue hqueue =>
      split_ifs at hw with hcond
      cases hw
      exact h.pop hqueue hcond.2
  | ui answer => exact h.uiStep hs hw
  | eventRelayout =>
    simp only [World.step] at hw
    split_ifs at hw with hcond
    cases hw
    exact hevent .relayout hcond.1 rfl (by rintro _ ⟨⟩)
  | eventRefresh =>
    simp only [World.step] at hw
    split_ifs at hw with hcond
    cases hw
    exact hevent (.refresh false) hcond.1 rfl (by rintro _ ⟨⟩)
  | eventShown visible =>
    simp only [World.step] at hw
    split_ifs at hw with hcond
    cases hw
    exact h.same ⟨fun _ => rfl, rfl, rfl, rfl, rfl, rfl, rfl, rfl, .rfl, .rfl, rfl, rfl, rfl, rfl⟩
  | render answer => exact h.renderStep hs hw

omit [DecidableEq τ] in
theorem ends_new (callbacks : K) : (new callbacks : World τ M G S K).Ends where
  one _ _ := nofun
  closing _ := nofun
  ended := nofun
  surface := nofun
  callbacks := nofun
  sink := nofun
  close := nofun
  release := nofun
  apart := nofun
  finished := nofun
  released := by
    rintro (hr | hr | hr | hr)
    · cases hr
    · cases hr
    · cases hr
    · exact absurd rfl hr
  presenter _ := rfl

/-! ### The runs -/

/-- No attach is on its way, the render thread is not running, and no job is left. -/
structure Rested (w : World τ M G S K) : Prop where
  attaches : ∀ t, (w.calls t).attaching = false
  render : w.render = .none ∨ w.render = .ended
  queue : w.queue = []
  ui : w.ui = .idle

/-- Nothing of the window is left. -/
structure Gone (w : World τ M G S K) : Prop where
  shell : w.shell = none
  sink : w.sink = none
  callbacks : w.callbacks = none
  destroyed : w.made = w.destroyed

omit [DecidableEq τ] in
theorem Ends.gone (h : w.Ends) (hs : w.At s) (hended : w.endReturned = true) (hr : w.Rested) :
    w.Gone := by
  have hclosed := h.ended hended
  have hnone : ∀ t, (w.calls t).endPart.closing = false := fun t => by
    cases ht : (w.calls t).endPart.closing with
    | false => rfl
    | true => exact absurd (hended.symm.trans (h.closing t ht).2) nofun
  have hno : ∀ job, ¬(job ∈ w.queue ∨ w.ui = .job job) := fun job => by
    rw [hr.queue, hr.ui]
    rintro (hj | hj) <;> cases hj
  have hshell : w.shell = none := by
    cases hshell : w.shell with
    | none => rfl
    | some shell =>
      have hended' : w.render = .ended := by
        refine hr.render.resolve_left fun hn => ?_
        have hfresh : s ≠ .finished := by
          rcases hs.render.mp hn with hs' | ⟨t, hs'⟩ <;> rw [hs'] <;> nofun
        exact absurd ((hs.fresh hfresh).1.symm.trans hshell) nofun
      have hcl : shell.closed = true := by
        by_contra hcl
        have hun : w.unclosed = true := by
          simp [World.unclosed, hshell, Bool.eq_false_iff.mpr hcl]
        rcases h.close hun hclosed with ⟨t, ht⟩ | hj
        · exact absurd ((hnone t).symm.trans ht) nofun
        · exact hno _ hj
      have hrel : shell.released = true := by
        by_contra hrel
        have hun : w.unreleased = true := by
          simp [World.unreleased, hshell, Bool.eq_false_iff.mpr hrel]
        exact hno _ (h.release hun hended')
      exact absurd (hrel.symm.trans (h.apart shell hshell hcl)) nofun
  refine ⟨hshell, ?_, ?_, ?_⟩
  · by_contra hsink
    obtain ⟨t, ht⟩ := h.sink hclosed hsink
    rcases ht with ht | ht | ht
    · have hattach := hr.attaches t
      cases hc : w.calls t <;> rw [hc] at ht hattach <;>
        first | exact absurd hattach Bool.noConfusion | cases ht
    all_goals
      have hclosing := hnone t
      rw [ht] at hclosing
      exact absurd hclosing Bool.noConfusion
  · by_contra hcallbacks
    obtain ⟨t, ht⟩ := h.callbacks hclosed hcallbacks
    have hclosing := hnone t
    rw [ht] at hclosing
    exact absurd hclosing Bool.noConfusion
  · rw [hs.made]
    simp [standing, hshell, hr.ui, Ui.sdl]

theorem ends_of_run {callbacks : K} {as : List (Action τ M G S)}
    (h : Execution Step (new callbacks) as w) : (∃ s, w.At s) ∧ w.Ends :=
  h.invariant (I := fun w : World τ M G S K => (∃ s, w.At s) ∧ w.Ends)
    ⟨⟨_, at_new callbacks⟩, ends_new callbacks⟩
    fun _ _ _ ⟨⟨_, hs⟩, he⟩ hstep => ⟨(hs.step hstep).imp fun _ => And.left, he.step hs hstep⟩

/-- In every run an SDL window is destroyed at most once, and only after the render thread has let its
presenter go and posted the release; and once the close that ended the window has returned, every
attach has, the render thread has ended and every job has run, nothing of the window is left. -/
theorem end_complete {callbacks : K} {as : List (Action τ M G S)}
    (h : Execution Step (new callbacks) as w) :
    (w.destroyed.Nodup ∧ ∀ sdl ∈ w.destroyed, sdl ∈ w.made) ∧
    (w.destroyed ≠ [] → w.render = .ended ∧ w.presenter = none) ∧
    (w.endReturned = true → w.Rested → w.Gone) := by
  obtain ⟨⟨s, hs⟩, he⟩ := ends_of_run h
  refine ⟨⟨?_, fun sdl hsdl => ?_⟩, fun hne => ?_, fun hended hr => he.gone hs hended hr⟩
  · have hlength := hs.single
    rw [hs.made, List.length_append] at hlength
    exact List.nodup_iff_count_le_one.mpr fun sdl =>
      Nat.le_trans List.count_le_length (by omega)
  · rw [hs.made]
    exact List.mem_append_left _ hsdl
  · have hended := he.released (.inr (.inr (.inr hne)))
    exact ⟨hended, he.presenter (.inr (.inr hended))⟩

/-- The window opens and is closed, and its SDL window goes. -/
theorem end_complete_closed : ∃ w : World Bool Unit Unit Unit Unit, ∃ as,
    Execution Step (new ()) as w ∧ w.made = [0] ∧ w.endReturned = true ∧ w.Rested ∧ w.Gone := by
  let as : List (Action Bool Unit Unit Unit) :=
    opened ++ .call false .close :: List.replicate 6 (.goOn false) ++
      List.replicate 3 (.render ⟨true, true, true⟩) ++
      [.pop, .ui ⟨true, true, true⟩, .pop, .ui ⟨true, true, true⟩]
  let run := as.foldlM (World.step (K := Unit)) (new ())
  have hrun : run.isSome = true := rfl
  have hex : Execution Step (new ()) as (run.get hrun) :=
    Execution.of_foldlM_option _ as (Option.some_get hrun).symm
  have hrested : (run.get hrun).Rested := ⟨fun t => by cases t <;> rfl, .inr rfl, rfl, rfl⟩
  exact ⟨run.get hrun, as, hex, rfl, rfl, hrested, (end_complete hex).2.2 rfl hrested⟩

/-- A later close returns while the first is to post the shell's close: the render thread has ended, no
job is left, and the shell still stands. -/
theorem not_end_of_any_close :
    ¬∀ (as : List (Action Bool Unit Unit Unit)) (w : World Bool Unit Unit Unit Unit),
      Execution Step (new ()) as w → 0 < w.closesReturned → w.Rested → w.Gone := by
  let as : List (Action Bool Unit Unit Unit) :=
    opened ++ .call false .close :: List.replicate 4 (.goOn false) ++
      [.call true .close, .goOn true] ++ List.replicate 3 (.render ⟨true, true, true⟩) ++
      [.pop, .ui ⟨true, true, true⟩]
  let run := as.foldlM (World.step (K := Unit)) (new ())
  have hrun : run.isSome = true := rfl
  have hex : Execution Step (new ()) as (run.get hrun) :=
    Execution.of_foldlM_option _ as (Option.some_get hrun).symm
  intro h
  have hreturned : (run.get hrun).closesReturned = 1 := rfl
  have hgone := h as _ hex (by omega) ⟨fun t => by cases t <;> rfl, .inr rfl, rfl, rfl⟩
  have hshell : (run.get hrun).shell.isSome = true := rfl
  rw [hgone.shell] at hshell
  cases hshell

end

end World

end ReimsVgpu.Window
