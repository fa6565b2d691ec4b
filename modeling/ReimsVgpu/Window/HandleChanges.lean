import ReimsVgpu.Window.HandleOpening

/-!
# The guest's changes reach its window

A change is stored and, once the window is said to be open, posted; the shell reads what is stored when
the job runs, and once in the opening. The window is said to be open only after the opening is posted:
a change that falls between the opening's read and that store is not posted, and is lost.

A refresh of the cursor is posted unless one is already: it is with the thread that posts it, queued,
or about to run.

## Main definitions

* `Refresh`, `World.Refreshing`: where the cursor's refresh is, and the state that goes with it.
* `World.Pending`, `World.Followed`: what the shell has not read yet is on its way to it.
* `World.Guarded`: the steps that do not lose a change.

## Main results

* `World.changes_read`, `World.not_changes_read`.
-/

namespace ReimsVgpu.Window

/-- Where the cursor's refresh is, up to its read. -/
inductive Refresh (τ : Type*)
  | none
  | posting (t : τ)
  | queued
  | running

/-- The refreshes that are queued. -/
def Refresh.jobs {τ : Type*} : Refresh τ → ℕ
  | .queued => 1
  | _ => 0

def Call.cursorPosting {M G S : Type*} : Call M G S → Bool
  | .cursorPost => true
  | _ => false

/-- The call has found the window said to be open. -/
def Call.cursorPassed {M G S : Type*} : Call M G S → Bool
  | .cursorIsClosed | .cursorSwap | .cursorPost => true
  | _ => false

/-- A changed mode that the shell is to read is with the call. -/
def Call.modeAwaits {M G S : Type*} : Call M G S → Bool
  | .modeIsPosted late => late
  | .modeIsClosed | .modePost => true
  | _ => false

/-- A changed cursor that the shell is to read is with the call. -/
def Call.cursorAwaits {M G S : Type*} : Call M G S → Bool
  | .cursorIsPosted late => late
  | .cursorIsClosed | .cursorSwap | .cursorPost => true
  | _ => false

/-- The call is to test whether the window is said to be open, with a change that was stored after the
shell's read in the opening. -/
def Call.late {M G S : Type*} : Call M G S → Bool
  | .modeIsPosted late | .cursorIsPosted late => late
  | _ => false

/-- The UI thread is about to read the mode. -/
def Ui.readsMode : Ui → Bool
  | .relayout => true
  | _ => false

/-- The UI thread is about to read the cursor; the first relayout of a shell comes before it. -/
def Ui.readsCursor (first : Bool) : Ui → Bool
  | .relayout => first
  | .refresh _ => true
  | _ => false

/-- A refresh of the cursor does not come before an opening. -/
def Job.Ordered (a b : Job) : Prop := a = .cursorChanged → b ≠ .opening

namespace World

variable {τ M G S K : Type*} {w w' : World τ M G S K} {s s' : Stage τ} {r : Refresh τ}

/-- What goes with the place of the cursor's refresh. -/
structure Refreshing (w : World τ M G S K) (s : Stage τ) (r : Refresh τ) : Prop where
  posting : ∀ t, (w.calls t).cursorPosting = true ↔ r = .posting t
  queued : w.queue.count .cursorChanged = r.jobs
  running : w.ui = .job .cursorChanged ↔ r = .running
  posted : r ≠ .none → w.cursorPosted = true
  owned : w.cursorPosted = true → r = .none → w.shell = none ∧ s = .finished
  passed : ∀ t, (w.calls t).cursorPassed = true → w.openPosted = true
  opened : r ≠ .none → w.openPosted = true
  ordered : w.queue.Pairwise Job.Ordered
  finished : r = .running → s = .finished
  failed : w.video = .failed → w.queue = []

/-- The part of the state that the cursor's refresh has is as it was. -/
structure RefreshSame (w w' : World τ M G S K) : Prop where
  posting : ∀ t, (w'.calls t).cursorPosting = (w.calls t).cursorPosting
  passed : ∀ t, (w'.calls t).cursorPassed = true →
    (w.calls t).cursorPassed = true ∨ w.openPosted = true
  queued : w'.queue.count .cursorChanged = w.queue.count .cursorChanged
  ordered : w.queue.Pairwise Job.Ordered → w'.queue.Pairwise Job.Ordered
  running : w'.ui = .job .cursorChanged ↔ w.ui = .job .cursorChanged
  posted : w'.cursorPosted = w.cursorPosted
  openPosted : w.openPosted = true → w'.openPosted = true
  failed : (w.video = .failed → w.queue = []) → w'.video = .failed → w'.queue = []

theorem Refreshing.same (h : w.Refreshing s r) (hs : w.RefreshSame w') (hover : s = .finished → s' = .finished)
    (hshell : s = .finished → w.shell = none → w'.shell = none) : w'.Refreshing s' r where
  posting t := hs.posting t ▸ h.posting t
  queued := hs.queued.trans h.queued
  running := hs.running.trans h.running
  posted hr := hs.posted.trans (h.posted hr)
  owned hp hr := by
    obtain ⟨hnone, hs'⟩ := h.owned (hs.posted.symm.trans hp) hr
    exact ⟨hshell hs' hnone, hover hs'⟩
  passed t ht := hs.openPosted ((hs.passed t ht).elim (h.passed t) id)
  opened hr := hs.openPosted (h.opened hr)
  ordered := hs.ordered h.ordered
  finished hr := hover (h.finished hr)
  failed := hs.failed h.failed

/-! ### A step of a thread -/

section

variable [DecidableEq τ] {t : τ} {c : Call M G S}

theorem passed_setCall (h : c.cursorPassed = true → (w.calls t).cursorPassed = true ∨ w.openPosted = true)
    (u : τ) (hu : ((w.setCall t c).calls u).cursorPassed = true) :
    (w.calls u).cursorPassed = true ∨ w.openPosted = true := by
  rcases eq_or_ne u t with rfl | hne
  · rw [setCall_self] at hu
    exact h hu
  · rw [setCall_of_ne hne] at hu
    exact .inl hu

/-- A thread that does not post the refresh. -/
theorem refreshSame_setCall (hposting : c.cursorPosting = (w.calls t).cursorPosting)
    (hpassed : c.cursorPassed = true → (w.calls t).cursorPassed = true ∨ w.openPosted = true) :
    w.RefreshSame (w.setCall t c) where
  posting := setCall_part Call.cursorPosting hposting
  passed := passed_setCall hpassed
  queued := rfl
  ordered := id
  running := .rfl
  posted := rfl
  openPosted := id
  failed := id

omit [DecidableEq τ] in
/-- Another job is posted: an opening only where no refresh is queued. -/
theorem RefreshSame.post (h : w.RefreshSame w') {job : Job} (hjob : job ≠ .cursorChanged)
    (hopening : job = .opening → .cursorChanged ∉ w'.queue) : w.RefreshSame (w'.post job) := by
  unfold World.post
  split
  · exact h
  next hvideo =>
    refine ⟨h.posting, h.passed, ?_, fun ho => ?_, h.running, h.posted, h.openPosted,
      fun _ hf => absurd hf hvideo⟩
    · rw [← h.queued]
      simp [hjob]
    · refine List.pairwise_append.mpr ⟨h.ordered ho, List.pairwise_singleton _ _, fun a ha b hb => ?_⟩
      rw [List.mem_singleton.mp hb]
      rintro rfl hb'
      exact hopening hb' ha

/-- A thread takes it on itself to post the refresh. -/
theorem Refreshing.cursorSwap (h : w.Refreshing s r) (hc : w.calls t = .cursorSwap)
    (hposted : w.cursorPosted = false) :
    { w.setCall t .cursorPost with cursorPosted := true }.Refreshing s (.posting t) := by
  have hr : r = .none := by
    by_contra hr
    exact absurd (hposted.symm.trans (h.posted hr)) nofun
  subst hr
  have hopen : w.openPosted = true := h.passed t (by rw [hc]; rfl)
  refine ⟨fun u => ?_, h.queued, ?_, fun _ => rfl, nofun, fun _ _ => hopen, fun _ => hopen, h.ordered,
    nofun, h.failed⟩
  · rcases eq_or_ne u t with rfl | hne
    · dsimp only
      rw [setCall_self]
      exact ⟨fun _ => rfl, fun _ => rfl⟩
    · dsimp only
      rw [setCall_of_ne hne, h.posting u]
      exact ⟨nofun, fun hu => absurd (Refresh.posting.inj hu).symm hne⟩
  · exact ⟨fun hu => absurd (h.running.mp hu) nofun, nofun⟩

/-- No thread is to post the refresh once the one that was has. -/
theorem posting_outside (h : w.Refreshing s r) (hr : r = .posting t) (u : τ) :
    ((w.setCall t .outside).calls u).cursorPosting = false := by
  rcases eq_or_ne u t with rfl | hne
  · rw [setCall_self]
    rfl
  · rw [setCall_of_ne hne]
    cases hu : (w.calls u).cursorPosting with
    | false => rfl
    | true => exact absurd (Refresh.posting.inj (hr.symm.trans ((h.posting u).mp hu))).symm hne

/-- The refresh is posted, or dropped. -/
theorem Refreshing.cursorPost (h : w.Refreshing s r) (hs : w.At s) (hc : w.calls t = .cursorPost) :
    ∃ r', ((w.setCall t .outside).post .cursorChanged).Refreshing s r' := by
  have hr : r = .posting t := (h.posting t).mp (by rw [hc]; rfl)
  have hopen : w.openPosted = true := h.passed t (by rw [hc]; rfl)
  have hnone := posting_outside h hr
  subst hr
  have hposted := h.posted (by rintro ⟨⟩)
  have hrunning : w.ui ≠ .job .cursorChanged := fun hu => absurd (h.running.mp hu) (by rintro ⟨⟩)
  have hpassed := passed_setCall (w := w) (t := t) (c := .outside) (by rintro ⟨⟩)
  unfold World.post
  split
  next hvideo =>
    have hover : s = .finished := by
      have hempty := h.failed hvideo
      obtain ⟨hidle, -⟩ := hs.video (by rw [show w.video = .failed from hvideo]; rintro ⟨⟩)
      rcases hs.openPosted hopen with rfl | rfl | rfl
      · have hqueued := hs.queued
        rw [hempty] at hqueued
        cases hqueued
      · have hopening := hs.running.mpr rfl
        rw [hidle] at hopening
        cases hopening
      · rfl
    refine ⟨.none, fun u => ⟨fun hu => absurd ((hnone u).symm.trans hu) (by rintro ⟨⟩),
      by rintro ⟨⟩⟩, h.queued,
      ⟨fun hu => absurd hu hrunning, by rintro ⟨⟩⟩, fun _ => hposted, fun _ _ => ⟨?_, hover⟩,
      fun _ _ => hopen, fun _ => hopen, h.ordered, (by rintro ⟨⟩), h.failed⟩
    exact (hs.video (by rw [show w.video = .failed from hvideo]; rintro ⟨⟩)).2
  next hvideo =>
    refine ⟨.queued, fun u => ⟨fun hu => absurd ((hnone u).symm.trans hu) (by rintro ⟨⟩),
      by rintro ⟨⟩⟩, ?_,
      ⟨fun hu => absurd hu hrunning, by rintro ⟨⟩⟩, fun _ => hposted, (by rintro _ ⟨⟩),
        fun _ _ => hopen,
      fun _ => hopen, ?_, (by rintro ⟨⟩), fun hf => absurd hf hvideo⟩
    · have hqueued : w.queue.count .cursorChanged = 0 := h.queued
      simp [setCall, List.count_append, hqueued, Refresh.jobs]
    · refine List.pairwise_append.mpr ⟨h.ordered, List.pairwise_singleton _ _, fun a _ b hb => ?_⟩
      rw [List.mem_singleton.mp hb]
      rintro - ⟨⟩

theorem Refreshing.goOn (h : w.Refreshing s r) (hs : w.At s) (hover : s = .finished → s' = .finished)
    (hw : w.goOn t (w.calls t) = some w') : ∃ r', w'.Refreshing s' r' := by
  have hkeep : ∀ {v : World τ M G S K} {r' : Refresh τ}, v.Refreshing s r' →
      ∃ r', v.Refreshing s' r' := fun {v} r' hv =>
    ⟨r', hv.posting, hv.queued, hv.running, hv.posted,
      fun hp hr => (hv.owned hp hr).imp_right hover, hv.passed, hv.opened, hv.ordered,
      fun hr => hover (hv.finished hr), hv.failed⟩
  cases hc : w.calls t <;> rw [hc] at hw <;> simp only [World.goOn] at hw
  case outside => cases hw
  case attachPost =>
    cases hw
    have hposting := (hs.posting t).mp (by rw [hc]; rfl)
    have hsame : w.RefreshSame (w.setCall t .attachPosted) :=
      refreshSame_setCall (by rw [hc]; rfl) (by rintro ⟨⟩)
    refine ⟨r, h.same (hsame.post (by rintro ⟨⟩) fun _ hmem => ?_) hover
      fun hs' => absurd (hs'.symm.trans hposting) (by rintro ⟨⟩)⟩
    -- a queued refresh has found the window said to be open
    have hr : r ≠ .none := by
      rintro rfl
      exact absurd hmem (List.count_eq_zero.mp h.queued)
    rcases hs.openPosted (h.opened hr) with hs' | hs' | hs' <;>
      exact absurd (hs'.symm.trans hposting) (by rintro ⟨⟩)
  case attachPosted =>
    cases hw
    refine ⟨r, h.same ?_ hover fun _ hnone => hnone⟩
    exact { refreshSame_setCall (w := w) (t := t) (c := .outside) (by rw [hc]; rfl) (by rintro ⟨⟩) with
      openPosted := fun _ => rfl }
  case cursorIsPosted =>
    cases hw
    refine ⟨r, h.same (refreshSame_setCall ?_ fun hp => .inr ?_) hover fun _ hnone => hnone⟩
    · rw [hc]
      split <;> rfl
    · by_contra ho
      rw [if_neg ho] at hp
      cases hp
  case cursorIsClosed =>
    cases hw
    refine ⟨r, h.same (refreshSame_setCall ?_ fun _ => .inl (by rw [hc]; rfl)) hover
      fun _ hnone => hnone⟩
    rw [hc]
    split <;> rfl
  case cursorSwap =>
    cases hw
    cases hposted : w.cursorPosted with
    | false => exact hkeep (h.cursorSwap hc hposted)
    | true =>
      refine ⟨r, h.same ?_ hover fun _ hnone => hnone⟩
      exact { refreshSame_setCall (w := w) (t := t) (c := .outside) (by rw [hc]; rfl)
        (by rintro ⟨⟩) with
        posted := hposted.symm }
  case cursorPost =>
    cases hw
    obtain ⟨r', hr'⟩ := h.cursorPost hs hc
    exact hkeep hr'
  case closePost =>
    cases hw
    have hsame : w.RefreshSame (w.closeReturns t true) :=
      ⟨setCall_part Call.cursorPosting (by rw [hc]; rfl), passed_setCall (by rintro ⟨⟩), rfl, id,
        .rfl, rfl, id, id⟩
    exact ⟨r, h.same (hsame.post (by rintro ⟨⟩) (by rintro ⟨⟩)) hover fun _ hnone => by
      unfold World.post
      split <;> exact hnone⟩
  case modePost =>
    cases hw
    have hsame : w.RefreshSame (w.setCall t .outside) :=
      refreshSame_setCall (by rw [hc]; rfl) (by rintro ⟨⟩)
    exact ⟨r, h.same (hsame.post (by rintro ⟨⟩) (by rintro ⟨⟩)) hover fun _ hnone => by
      unfold World.post
      split <;> exact hnone⟩
  -- what is left has no part in the refresh
  all_goals
    try split at hw
    all_goals
      cases hw
      refine ⟨r, h.same ⟨setCall_part Call.cursorPosting ?_, passed_setCall ?_, rfl, id, .rfl, rfl, id,
        id⟩ hover fun _ hnone => hnone⟩
      · first | (rw [hc]; rfl) | (rw [hc]; split <;> rfl)
      · first | (rintro ⟨⟩) | (split <;> rintro ⟨⟩)

end

/-! ### A step of the UI thread, and the others -/

/-- The UI thread goes on, and neither starts nor ends the run of a refresh. -/
theorem refreshSame_ui (hcalls : w'.calls = w.calls) (hqueue : w'.queue = w.queue)
    (hui : w.ui ≠ .job .cursorChanged) (hui' : w'.ui ≠ .job .cursorChanged)
    (hposted : w'.cursorPosted = w.cursorPosted) (hopen : w'.openPosted = w.openPosted)
    (hvideo : w'.video = w.video) : w.RefreshSame w' where
  posting _ := by rw [hcalls]
  passed t ht := by
    rw [hcalls] at ht
    exact .inl ht
  queued := by rw [hqueue]
  ordered := hqueue ▸ id
  running := ⟨fun hu => absurd hu hui', fun hu => absurd hu hui⟩
  posted := hposted
  openPosted := hopen ▸ id
  failed := by
    rw [hqueue, hvideo]
    exact id

/-- The refresh runs where the shell is gone, or reads what is stored. -/
theorem Refreshing.runs (h : w.Refreshing s r) (hover : s = .finished → s' = .finished)
    (hui : w.ui = .job .cursorChanged) (answer : UiAnswer) :
    (w.uiJob answer .cursorChanged).Refreshing s' .none := by
  have hr := h.running.mp hui
  subst hr
  have hposting : ∀ t, (w.calls t).cursorPosting = true ↔ Refresh.none = .posting t := fun t =>
    ⟨fun ht => absurd ((h.posting t).mp ht) (by rintro ⟨⟩), by rintro ⟨⟩⟩
  simp only [uiJob]
  split
  next hnone =>
    exact ⟨hposting, h.queued, ⟨by rintro ⟨⟩, by rintro ⟨⟩⟩, fun hr => absurd rfl hr,
      fun _ _ => ⟨hnone, hover (h.finished rfl)⟩, h.passed, fun hr => absurd rfl hr, h.ordered,
        (by rintro ⟨⟩), h.failed⟩
  · exact ⟨hposting, h.queued, ⟨by rintro ⟨⟩, by rintro ⟨⟩⟩, fun hr => absurd rfl hr,
      (by rintro ⟨⟩), h.passed,
      fun hr => absurd rfl hr, h.ordered, (by rintro ⟨⟩), h.failed⟩

theorem Refreshing.uiStep (h : w.Refreshing s r) (hs : w.At s) (hover : s = .finished → s' = .finished)
    {answer : UiAnswer} (hw : w.uiStep answer w.ui = some w') : ∃ r', w'.Refreshing s' r' := by
  have hset : ∀ {v : World τ M G S K}, w.ui ≠ .job .cursorChanged → v.calls = w.calls →
      v.queue = w.queue → v.ui ≠ .job .cursorChanged → v.cursorPosted = w.cursorPosted →
      v.openPosted = w.openPosted → v.video = w.video →
      (s = .finished → w.shell = none → v.shell = none) → ∃ r', v.Refreshing s' r' :=
    fun hui hcalls hqueue hui' hposted hopen hvideo hshell =>
      ⟨r, h.same (refreshSame_ui hcalls hqueue hui hui' hposted hopen hvideo) hover hshell⟩
  cases hui : w.ui with
  | idle =>
    rw [hui] at hw
    cases hw
  | job job =>
    rw [hui] at hw
    cases hw
    cases job with
    | opening =>
      refine hset (by rw [hui]; rintro ⟨⟩) rfl rfl ?_ rfl rfl rfl fun _ hnone => hnone
      simp only [uiJob, World.setUi]
      split <;> rintro ⟨⟩
    | guestModeChanged =>
      refine hset (by rw [hui]; rintro ⟨⟩) rfl rfl ?_ rfl rfl rfl fun _ hnone => hnone
      simp only [uiJob, World.setUi]
      split <;> rintro ⟨⟩
    | cursorChanged => exact ⟨.none, h.runs hover hui answer⟩
    | close =>
      have hne : w.ui ≠ .job .cursorChanged := by rw [hui]; rintro ⟨⟩
      simp only [uiJob]
      split
      next hnone => exact hset hne rfl rfl (by rintro ⟨⟩) rfl rfl rfl fun _ _ => hnone
      next shell hshell =>
        have hsome : s = .finished → w.shell = none → False := fun _ hnone =>
          absurd (hshell.symm.trans hnone) (by rintro ⟨⟩)
        split
        · exact hset hne rfl rfl (by rintro ⟨⟩) rfl rfl rfl fun _ _ => rfl
        · exact hset hne rfl rfl (by rintro ⟨⟩) rfl rfl rfl fun ho hnone => (hsome ho hnone).elim
    | released =>
      have hne : w.ui ≠ .job .cursorChanged := by rw [hui]; rintro ⟨⟩
      simp only [uiJob]
      split
      next hnone => exact hset hne rfl rfl (by rintro ⟨⟩) rfl rfl rfl fun _ _ => hnone
      next shell hshell =>
        have hsome : s = .finished → w.shell = none → False := fun _ hnone =>
          absurd (hshell.symm.trans hnone) (by rintro ⟨⟩)
        split
        · exact hset hne rfl rfl (by rintro ⟨⟩) rfl rfl rfl fun _ _ => rfl
        · exact hset hne rfl rfl (by rintro ⟨⟩) rfl rfl rfl fun ho hnone => (hsome ho hnone).elim
  | making =>
    have hne : w.ui ≠ .job .cursorChanged := by rw [hui]; rintro ⟨⟩
    rw [hui] at hw
    simp only [World.uiStep] at hw
    split at hw <;> cases hw <;>
      exact hset hne rfl rfl (by rintro ⟨⟩) rfl rfl rfl fun _ hnone => hnone
  | targeting sdl =>
    have hne : w.ui ≠ .job .cursorChanged := by rw [hui]; rintro ⟨⟩
    rw [hui] at hw
    cases hw
    exact hset hne rfl rfl (by rintro ⟨⟩) rfl rfl rfl fun _ hnone => hnone
  | showing sdl =>
    have hne : w.ui ≠ .job .cursorChanged := by rw [hui]; rintro ⟨⟩
    have hrunning := hs.running.mp (by rw [hui]; rfl)
    rw [hui] at hw
    cases hw
    exact hset hne rfl rfl
      (by rintro ⟨⟩) rfl rfl rfl fun ho => absurd (ho.symm.trans hrunning) (by rintro ⟨⟩)
  | relayout =>
    have hne : w.ui ≠ .job .cursorChanged := by rw [hui]; rintro ⟨⟩
    rw [hui] at hw
    obtain ⟨shell, hshell, rfl⟩ := Option.map_eq_some_iff.mp hw
    refine hset hne rfl rfl ?_ rfl rfl rfl fun _ hnone => absurd (hshell.symm.trans hnone)
      (by rintro ⟨⟩)
    change (if _ then _ else _) ≠ _
    split <;> rintro ⟨⟩
  | refresh relayout =>
    have hne : w.ui ≠ .job .cursorChanged := by rw [hui]; rintro ⟨⟩
    rw [hui] at hw
    obtain ⟨shell, hshell, rfl⟩ := Option.map_eq_some_iff.mp hw
    refine hset hne rfl rfl ?_ rfl rfl rfl fun _ hnone => absurd (hshell.symm.trans hnone)
      (by rintro ⟨⟩)
    change (if _ then _ else _) ≠ _
    split <;> rintro ⟨⟩
  | layout changed =>
    have hne : w.ui ≠ .job .cursorChanged := by rw [hui]; rintro ⟨⟩
    rw [hui] at hw
    cases hw
    exact hset hne rfl rfl (by rintro ⟨⟩) rfl rfl rfl fun _ hnone => hnone

/-- A job is taken from the queue. -/
theorem Refreshing.pop (h : w.Refreshing s r) (hs : w.At s) (hover : s = .finished → s' = .finished) {job : Job}
    {queue : List Job} (hqueue : w.queue = job :: queue) (hvideo : w.video = .running)
    (hidle : w.ui = .idle) : ∃ r', { w.setUi (.job job) with queue }.Refreshing s' r' := by
  have hqueued := h.queued
  have hordered := h.ordered
  rw [hqueue] at hqueued hordered
  obtain ⟨hhead, htail⟩ := List.pairwise_cons.mp hordered
  by_cases hjob : job = .cursorChanged
  · subst hjob
    rw [List.count_cons_self] at hqueued
    cases r <;> try exact absurd hqueued (Nat.succ_ne_zero _)
    have hopen := h.opened nofun
    -- the opening came before the refresh, and the UI thread has run it
    have hs' : s = .finished := by
      rcases hs.openPosted hopen with hs' | hs' | hs'
      · have hopening : queue.count .opening = 0 :=
          List.count_eq_zero.mpr fun hmem => hhead _ hmem rfl rfl
        have hne : Job.cursorChanged ≠ .opening := nofun
        have hcount := hs.queued
        rw [hqueue, List.count_cons_of_ne hne, hopening, hs'] at hcount
        cases hcount
      · have hopening := hs.running.mpr hs'
        rw [hidle] at hopening
        cases hopening
      · exact hs'
    refine ⟨.running, fun t => ⟨fun ht => absurd ((h.posting t).mp ht) nofun, nofun⟩,
      Nat.succ.inj hqueued, ⟨fun _ => rfl, fun _ => rfl⟩, fun _ => h.posted nofun, nofun, h.passed,
      fun _ => hopen, htail, fun _ => hover hs', fun hf => absurd (hvideo.symm.trans hf) nofun⟩
  · rw [List.count_cons_of_ne hjob] at hqueued
    have hrunning : (Ui.job job = .job .cursorChanged) ↔ r = .running := by
      rw [← h.running, hidle]
      exact ⟨fun hu => absurd (Ui.job.inj hu) hjob, nofun⟩
    refine ⟨r, h.posting, hqueued, hrunning, h.posted, fun hp hr => ?_, h.passed, h.opened, htail,
      fun hr => hover (h.finished hr), fun hf => absurd (hvideo.symm.trans hf) nofun⟩
    exact (h.owned hp hr).imp_right hover

/-- SDL's video does not start: a queued refresh is dropped, with the opening before it. -/
theorem Refreshing.videoFails (h : w.Refreshing s r) (hs : w.At s)
    (hs' : { w with video := .failed, queue := [] }.At s') (hover : s = .finished → s' = .finished)
    (hvideo : w.video = .starting) :
    ∃ r', { w with video := .failed, queue := [] }.Refreshing s' r' := by
  obtain ⟨hidle, hshell⟩ := hs.video (by rw [hvideo]; nofun)
  have hstage : w.openPosted = true → s' = .finished := fun hopen => by
    rcases hs'.openPosted hopen with rfl | rfl | rfl
    · cases hs'.queued
    · have hopening := hs'.running.mpr rfl
      change w.ui.opening = true at hopening
      rw [hidle] at hopening
      cases hopening
    · rfl
  cases r with
  | queued =>
    have hopen := h.opened nofun
    refine ⟨.none, fun t => ⟨fun ht => absurd ((h.posting t).mp ht) nofun, nofun⟩, rfl,
      ⟨fun hu => absurd (h.running.mp hu) nofun, nofun⟩, fun _ => h.posted nofun,
      fun _ _ => ⟨hshell, hstage hopen⟩, h.passed, fun _ => hopen, .nil, nofun, fun _ => rfl⟩
  | _ =>
    exact ⟨_, h.posting, rfl, h.running, h.posted, fun hp hr => (h.owned hp hr).imp_right hover,
      h.passed, h.opened, .nil, fun hr => hover (h.finished hr), fun _ => rfl⟩

/-- The render thread has no part in the refresh. -/
theorem refreshSame_render {answer : RenderAnswer} (hw : w.renderStep answer w.render = some w') :
    w.RefreshSame w' ∧ w'.shell = w.shell := by
  have hset : ∀ (render : Render) (presenter : Option ℕ) (surface : SurfaceState),
      w.RefreshSame { w with render, presenter, surface } := fun _ _ _ =>
    ⟨fun _ => rfl, fun _ => .inl, rfl, id, .rfl, rfl, id, id⟩
  cases hr : w.render with
  | waiting retry =>
    rw [hr] at hw
    simp only [World.renderStep] at hw
    split at hw
    · cases hw
      exact ⟨hset _ _ _, rfl⟩
    · split at hw <;> cases hw <;> exact ⟨hset _ _ _, rfl⟩
  | drawing target =>
    rw [hr] at hw
    simp only [World.renderStep] at hw
    split at hw <;> cases hw <;> exact ⟨hset _ _ _, rfl⟩
  | ending =>
    rw [hr] at hw
    cases hw
    exact ⟨hset _ _ _, rfl⟩
  | dropped =>
    rw [hr] at hw
    cases hw
    refine ⟨(hset .ended w.presenter w.surface).post (by rintro ⟨⟩) (by rintro ⟨⟩), ?_⟩
    unfold World.post
    split <;> rfl
  | none | ended =>
    rw [hr] at hw
    cases hw

section

variable [DecidableEq τ]

theorem Refreshing.step (h : w.Refreshing s r) (hs : w.At s) (hs' : w'.At s')
    (hover : s = .finished → s' = .finished) {a : Action τ M G S} (hw : w.step a = some w') :
    ∃ r', w'.Refreshing s' r' := by
  have hkeep : w.RefreshSame w' → w'.shell = w.shell → ∃ r', w'.Refreshing s' r' :=
    fun hsame hshell => ⟨r, h.same hsame hover fun _ hnone => hshell.trans hnone⟩
  cases a with
  | call t entry =>
    simp only [World.step] at hw
    split at hw
    next hc =>
      cases hw
      refine hkeep (refreshSame_setCall ?_ ?_) rfl
      · rw [hc]
        cases entry <;> rfl
      · cases entry <;> rintro ⟨⟩
    · cases hw
  | goOn t => exact h.goOn hs hover hw
  | newFrame =>
    cases hw
    exact hkeep ⟨fun _ => rfl, fun _ => .inl, rfl, id, .rfl, rfl, id, id⟩ rfl
  | video starts =>
    simp only [World.step] at hw
    split_ifs at hw with hvideo hstarts
    · cases hw
      exact hkeep ⟨fun _ => rfl, fun _ => .inl, rfl, id, .rfl, rfl, id, fun _ => (by rintro ⟨⟩)⟩ rfl
    · cases hw
      exact h.videoFails hs hs' hover (not_not.mp hvideo)
  | pop =>
    simp only [World.step] at hw
    split at hw
    · cases hw
    next job queue hqueue =>
      split_ifs at hw with hcond
      cases hw
      exact h.pop hs hover hqueue hcond.1 hcond.2
  | ui answer => exact h.uiStep hs hover hw
  | eventRelayout | eventRefresh =>
    simp only [World.step] at hw
    split_ifs at hw with hcond
    cases hw
    exact hkeep (refreshSame_ui rfl rfl (by rw [hcond.1]; rintro ⟨⟩) (by rintro ⟨⟩) rfl rfl rfl) rfl
  | eventShown visible =>
    simp only [World.step] at hw
    split_ifs at hw with hcond
    cases hw
    exact hkeep ⟨fun _ => rfl, fun _ => .inl, rfl, id, .rfl, rfl, id, id⟩ rfl
  | render answer =>
    obtain ⟨hsame, hshell⟩ := refreshSame_render hw
    exact hkeep hsame hshell

omit [DecidableEq τ] in
theorem refreshing_new (callbacks : K) :
    (new callbacks : World τ M G S K).Refreshing .unattached .none where
  posting _ := ⟨nofun, nofun⟩
  queued := rfl
  running := ⟨nofun, nofun⟩
  posted hr := absurd rfl hr
  owned := nofun
  passed _ := nofun
  opened hr := absurd rfl hr
  ordered := .nil
  finished := nofun
  failed := nofun

end

/-! ### What the shell has not read -/

/-- The shell is to read again: a call is about to have it read, a job of the reading is queued or
taken, or the UI thread is about to read. -/
def Pending (w : World τ M G S K) (awaits : Call M G S → Bool) (job : Job) (reads : Ui → Bool) : Prop :=
  (∃ t, awaits (w.calls t) = true) ∨ job ∈ w.queue ∨ w.ui = .job job ∨ reads w.ui = true

/-- What the shell of a window that is not closed read last is stored, or the shell is to read again. -/
structure Followed (w : World τ M G S K) : Prop where
  mode : w.closed = false → ∀ shell, w.shell = some shell → shell.mode = some w.guest.mode ∨
    w.Pending Call.modeAwaits .guestModeChanged Ui.readsMode
  cursor : w.closed = false → ∀ shell, w.shell = some shell →
    shell.cursor = some (w.guest.cursor, w.guest.cursorVisible) ∨
      w.Pending Call.cursorAwaits .cursorChanged (Ui.readsCursor shell.mode.isNone)

section

variable {awaits : Call M G S → Bool} {job : Job} {reads : Ui → Bool}

theorem Pending.imp (h : w.Pending awaits job reads)
    (hcalls : ∀ t, awaits (w.calls t) = true → w'.Pending awaits job reads)
    (hqueue : job ∈ w.queue → w'.Pending awaits job reads)
    (hui : w.ui = .job job ∨ reads w.ui = true → w'.Pending awaits job reads) :
    w'.Pending awaits job reads := by
  rcases h with ⟨t, ht⟩ | hj | hu | hu
  · exact hcalls t ht
  · exact hqueue hj
  · exact hui (.inl hu)
  · exact hui (.inr hu)

theorem Pending.post (h : w.Pending awaits job reads) (job' : Job) :
    (w.post job').Pending awaits job reads := by
  unfold World.post
  split
  · exact h
  · exact h.imp (fun t ht => .inl ⟨t, ht⟩) (fun hj => .inr (.inl (List.mem_append_left _ hj)))
      fun hu => .inr (.inr hu)

/-- A post only changes the queue. -/
theorem post_eq (w : World τ M G S K) (job : Job) :
    w.post job = { w with queue := (w.post job).queue } := by
  unfold World.post
  split <;> rfl

theorem pending_post (hvideo : w.video ≠ .failed) : (w.post job).Pending awaits job reads := by
  unfold World.post
  rw [if_neg hvideo]
  exact .inr (.inl (List.mem_append_right _ (List.mem_singleton_self _)))

/-- The UI thread goes on from where it neither takes the job nor reads. -/
theorem Pending.ui (h : w.Pending awaits job reads) (hcalls : w'.calls = w.calls)
    (hqueue : w'.queue = w.queue) (hui : w.ui ≠ .job job) (hreads : reads w.ui = false) :
    w'.Pending awaits job reads :=
  h.imp (fun t ht => .inl ⟨t, by rw [hcalls]; exact ht⟩) (fun hj => .inr (.inl (by rwa [hqueue])))
    fun hu => hu.elim (fun hu => absurd hu hui) fun hu => absurd (hreads.symm.trans hu) nofun

variable [DecidableEq τ] {t : τ} {c : Call M G S}

theorem Pending.setCall (h : w.Pending awaits job reads)
    (hc : awaits (w.calls t) = true → awaits c = true) : (w.setCall t c).Pending awaits job reads := by
  refine h.imp (fun u hu => ?_) (fun hj => .inr (.inl hj)) fun hu => .inr (.inr hu)
  rcases eq_or_ne u t with rfl | hne
  · exact .inl ⟨u, by rw [setCall_self]; exact hc hu⟩
  · exact .inl ⟨u, by rwa [setCall_of_ne hne]⟩

theorem pending_self (hc : awaits c = true) : (w.setCall t c).Pending awaits job reads :=
  .inl ⟨t, by rwa [setCall_self]⟩

end

/-- The shell, if there is one, is as it was. -/
theorem Followed.imp (h : w.Followed) (hclosed : w'.closed = false → w.closed = false)
    (hguest : w'.guest = w.guest)
    (hshell : ∀ shell', w'.shell = some shell' → ∃ shell, w.shell = some shell ∧
      shell'.mode = shell.mode ∧ shell'.cursor = shell.cursor)
    (hmode : w.closed = false → w.shell.isSome → w.Pending Call.modeAwaits .guestModeChanged Ui.readsMode →
      w'.Pending Call.modeAwaits .guestModeChanged Ui.readsMode)
    (hcursor : ∀ first, w.closed = false → w.shell.isSome →
      w.Pending Call.cursorAwaits .cursorChanged (Ui.readsCursor first) →
      w'.Pending Call.cursorAwaits .cursorChanged (Ui.readsCursor first)) : w'.Followed where
  mode hc shell' hs := by
    obtain ⟨shell, hold, hm, -⟩ := hshell shell' hs
    have hisSome : w.shell.isSome := by rw [hold]; rfl
    rw [hm, hguest]
    exact (h.mode (hclosed hc) shell hold).imp_right (hmode (hclosed hc) hisSome)
  cursor hc shell' hs := by
    obtain ⟨shell, hold, hm, hcur⟩ := hshell shell' hs
    have hisSome : w.shell.isSome := by rw [hold]; rfl
    rw [hm, hcur, hguest]
    exact (h.cursor (hclosed hc) shell hold).imp_right (hcursor _ (hclosed hc) hisSome)

/-! ### A step of a thread -/

section

variable [DecidableEq τ] {t : τ} {c : Call M G S}

/-- A thread goes on that has no change with it, or keeps it. -/
theorem Followed.setCall (h : w.Followed) (hcalls : w'.calls = (w.setCall t c).calls)
    (hqueue : w'.queue = w.queue) (hui : w'.ui = w.ui)
    (hclosed : w'.closed = false → w.closed = false) (hguest : w'.guest = w.guest)
    (hshell : w'.shell = w.shell)
    (hmode : w.closed = false → (w.calls t).modeAwaits = true → c.modeAwaits = true)
    (hcursor : w.closed = false → (w.calls t).cursorAwaits = true → c.cursorAwaits = true) :
    w'.Followed := by
  have hrest : ∀ {awaits : Call M G S → Bool} {job : Job} {reads : Ui → Bool},
      (w.setCall t c).Pending awaits job reads → w'.Pending awaits job reads := fun hp => by
    unfold Pending
    rw [hcalls, hqueue, hui]
    exact hp
  exact h.imp hclosed hguest (fun shell' hs => ⟨shell', hshell ▸ hs, rfl, rfl⟩)
    (fun hc _ hp => hrest (hp.setCall (hmode hc))) fun _ hc _ hp => hrest (hp.setCall (hcursor hc))

/-- The guest's mode is stored. -/
theorem Followed.guestMode (h : w.Followed) {mode : M} (hc : w.calls t = .guestMode mode) :
    { w.setCall t (.modeIsPosted w.laidOut) with
      guest := { w.guest with mode := some mode } }.Followed where
  mode hclosed shell hshell := by
    refine .inr ?_
    cases hm : shell.mode with
    | some m =>
      have hlate : w.laidOut = true := by
        unfold World.laidOut
        rw [show w.shell = some shell from hshell, Option.any_some, hm]
        rfl
      exact pending_self (w := w) (c := .modeIsPosted w.laidOut) hlate
    | none =>
      -- the shell's first read is still to come
      rcases h.mode hclosed shell hshell with hread | hp
      · exact absurd (hm.symm.trans hread) nofun
      · exact hp.setCall (t := t) (c := .modeIsPosted w.laidOut) (by rw [hc]; nofun)
  cursor hclosed shell hshell := (h.cursor hclosed shell hshell).imp_right fun hp =>
    hp.setCall (t := t) (c := .modeIsPosted w.laidOut) (by rw [hc]; nofun)

/-- The guest's glyph is stored, or whether it shows its cursor. -/
theorem Followed.guestCursor (h : w.Followed) {guest : GuestState M G}
    (hmode : (w.calls t).modeAwaits = false) (hcursor : (w.calls t).cursorAwaits = false)
    (hguest : guest.mode = w.guest.mode) :
    { w.setCall t (.cursorIsPosted w.cursorRead) with guest }.Followed where
  mode hclosed shell hshell := by
    change shell.mode = some guest.mode ∨ _
    rw [hguest]
    exact (h.mode hclosed shell hshell).imp_right fun hp =>
      hp.setCall (t := t) (c := .cursorIsPosted w.cursorRead) (by rw [hmode]; nofun)
  cursor hclosed shell hshell := by
    refine .inr ?_
    cases hread : shell.cursor with
    | some cursor =>
      have hlate : w.cursorRead = true := by
        unfold World.cursorRead
        rw [show w.shell = some shell from hshell, Option.any_some, hread]
        rfl
      exact pending_self (w := w) (c := .cursorIsPosted w.cursorRead) hlate
    | none =>
      rcases h.cursor hclosed shell hshell with hstored | hp
      · exact absurd (hread.symm.trans hstored) nofun
      · exact hp.setCall (t := t) (c := .cursorIsPosted w.cursorRead) (by rw [hcursor]; nofun)

omit [DecidableEq τ] in
theorem Followed.post (h : w.Followed) (job : Job) : (w.post job).Followed := by
  have hp : ∀ {awaits : Call M G S → Bool} {own : Job} {reads : Ui → Bool},
      w.Pending awaits own reads → (w.post job).Pending awaits own reads := fun hp => hp.post job
  rw [post_eq] at hp ⊢
  exact h.imp id rfl (fun shell' hs => ⟨shell', hs, rfl, rfl⟩) (fun _ _ => hp) fun _ _ _ => hp

/-- A call that has the shell read posts the job; the video runs where there is a shell. -/
theorem Followed.posts (h : w.Followed) (hs : w.At s) {job : Job}
    (hmode : (w.calls t).modeAwaits = true → job = .guestModeChanged)
    (hcursor : (w.calls t).cursorAwaits = true → job = .cursorChanged) :
    ((w.setCall t .outside).post job).Followed := by
  have hp : ∀ (awaits : Call M G S → Bool) (own : Job) (reads : Ui → Bool), w.shell.isSome = true →
      (awaits (w.calls t) = true → job = own) → w.Pending awaits own reads →
      ((w.setCall t .outside).post job).Pending awaits own reads := by
    intro awaits own reads hsome hown hp
    cases hawaits : awaits (w.calls t) with
    | false => exact (hp.setCall (by rw [hawaits]; nofun)).post job
    | true =>
      rw [hown hawaits]
      refine pending_post (w := w.setCall t .outside) fun hvideo => ?_
      rw [(hs.video (by rw [show w.video = .failed from hvideo]; nofun)).2] at hsome
      cases hsome
  rw [post_eq] at hp ⊢
  exact h.imp id rfl (fun shell' hs => ⟨shell', hs, rfl, rfl⟩)
    (fun _ hsome => hp _ _ _ hsome hmode) fun _ _ hsome => hp _ _ _ hsome hcursor

/-- A refresh that is posted already is on its way to the shell. -/
theorem Followed.cursorSwap (h : w.Followed) (hr : w.Refreshing s r) (hc : w.calls t = .cursorSwap)
    (hposted : w.cursorPosted = true) : (w.setCall t .outside).Followed where
  mode hclosed shell hshell := (h.mode hclosed shell hshell).imp_right fun hp =>
    hp.setCall (by rw [hc]; nofun)
  cursor hclosed shell hshell := by
    refine .inr ?_
    cases r with
    | none => exact absurd (hshell.symm.trans (hr.owned hposted rfl).1) nofun
    | posting u =>
      have hu := (hr.posting u).mpr rfl
      have hne : u ≠ t := by
        rintro rfl
        rw [hc] at hu
        cases hu
      refine .inl ⟨u, ?_⟩
      rw [setCall_of_ne hne]
      cases hcall : w.calls u <;> rw [hcall] at hu <;> cases hu
      rfl
    | queued =>
      have hmem : Job.cursorChanged ∈ w.queue := by
        rw [← List.count_pos_iff, hr.queued]
        exact Nat.zero_lt_one
      exact .inr (.inl hmem)
    | running => exact .inr (.inr (.inl (hr.running.mpr rfl)))

/-- A change that was stored after the shell's read in the opening finds the window said to be open. -/
def Guarded (w : World τ M G S K) : Action τ M G S → Prop
  | .goOn t => (w.calls t).late = true → w.openPosted = true
  | _ => True

theorem Followed.goOn (h : w.Followed) (hs : w.At s) (hr : w.Refreshing s r)
    (hguard : (w.calls t).late = true → w.openPosted = true)
    (hw : w.goOn t (w.calls t) = some w') : w'.Followed := by
  cases hc : w.calls t <;> rw [hc] at hw hguard <;> simp only [World.goOn] at hw
  case outside => cases hw
  case guestMode mode =>
    cases hw
    exact h.guestMode hc
  case cursorGlyph glyph =>
    cases hw
    exact h.guestCursor (by rw [hc]; rfl) (by rw [hc]; rfl) rfl
  case cursorShow visible =>
    cases hw
    exact h.guestCursor (by rw [hc]; rfl) (by rw [hc]; rfl) rfl
  case attachPost =>
    cases hw
    refine Followed.post (w := w.setCall t .attachPosted) ?_ .opening
    exact h.setCall (t := t) rfl rfl rfl id rfl rfl (fun _ => by rw [hc]; rintro ⟨⟩) fun _ => by rw [hc]; rintro ⟨⟩
  case closePost =>
    cases hw
    refine Followed.post (w := w.closeReturns t true) ?_ .close
    exact h.setCall (t := t) rfl rfl rfl id rfl rfl (fun _ => by rw [hc]; rintro ⟨⟩) fun _ => by rw [hc]; rintro ⟨⟩
  case modePost =>
    cases hw
    exact h.posts hs (fun _ => rfl) (by rw [hc]; rintro ⟨⟩)
  case cursorPost =>
    cases hw
    exact h.posts hs (by rw [hc]; rintro ⟨⟩) fun _ => rfl
  case modeIsPosted late =>
    cases hw
    refine h.setCall (t := t) rfl rfl rfl id rfl rfl (fun _ hlate => ?_) fun _ => by rw [hc]; rintro ⟨⟩
    rw [hc] at hlate
    rw [if_pos (hguard hlate)]
    rfl
  case modeIsClosed =>
    cases hw
    refine h.setCall (t := t) rfl rfl rfl id rfl rfl (fun hopen _ => ?_) fun _ => by rw [hc]; rintro ⟨⟩
    rw [hopen]
    rfl
  case cursorIsPosted late =>
    cases hw
    refine h.setCall (t := t) rfl rfl rfl id rfl rfl (fun _ => by rw [hc]; rintro ⟨⟩) fun _ hlate => ?_
    rw [hc] at hlate
    rw [if_pos (hguard hlate)]
    rfl
  case cursorIsClosed =>
    cases hw
    refine h.setCall (t := t) rfl rfl rfl id rfl rfl (fun _ => by rw [hc]; rintro ⟨⟩) fun hopen _ => ?_
    rw [hopen]
    rfl
  case cursorSwap =>
    cases hw
    cases hposted : w.cursorPosted with
    | false =>
      exact h.setCall (t := t) (c := .cursorPost) rfl rfl rfl id rfl rfl (fun _ => by rw [hc]; rintro ⟨⟩)
        fun _ _ => rfl
    | true =>
      have hswap := h.cursorSwap hr hc hposted
      rwa [show (w.setCall t .outside) = { w.setCall t .outside with cursorPosted := true } by
        rw [← hposted]; rfl] at hswap
  -- what is left has no change with it
  all_goals
    try split at hw
    all_goals
      cases hw
      refine h.setCall (t := t) rfl rfl rfl ?_ rfl rfl (fun _ => by rw [hc]; rintro ⟨⟩)
        fun _ => by rw [hc]; rintro ⟨⟩
      first | exact id | (rintro ⟨⟩)

end

/-! ### The steps of the UI thread, and the others -/

/-- The UI thread goes on from where it does not read, and the shell's reads stay. -/
theorem Followed.ui (h : w.Followed) (hclosed : w'.closed = w.closed) (hguest : w'.guest = w.guest)
    (hshell : ∀ shell', w'.shell = some shell' → ∃ shell, w.shell = some shell ∧
      shell'.mode = shell.mode ∧ shell'.cursor = shell.cursor)
    (hcalls : w'.calls = w.calls) (hqueue : w'.queue = w.queue)
    (hmode : w.ui ≠ .job .guestModeChanged) (hcursor : w.ui ≠ .job .cursorChanged)
    (hreads : ∀ first, w.ui.readsCursor first = false) (hreads' : w.ui.readsMode = false) :
    w'.Followed :=
  h.imp (fun hc => hclosed.symm.trans hc) hguest hshell
    (fun _ _ hp => hp.ui hcalls hqueue hmode hreads')
    fun first _ _ hp => hp.ui hcalls hqueue hcursor (hreads first)

/-- The shell is shown: it is to read the mode and the cursor. -/
theorem followed_shown (hui : w.ui = .relayout)
    (hshell : ∀ shell, w.shell = some shell → shell.mode = none) : w.Followed where
  mode _ _ _ := .inr (.inr (.inr (.inr (by rw [hui]; rfl))))
  cursor _ shell hs := by
    refine .inr (.inr (.inr (.inr ?_)))
    rw [hui, hshell shell hs]
    rfl

/-- The shell reads the mode; in its first relayout the cursor is next. -/
theorem Followed.relayout (h : w.Followed) {answer : UiAnswer} {shell : Shell M G}
    (hui : w.ui = .relayout) (hshell : w.shell = some shell) :
    ((w.setUi (if shell.mode.isNone ∨ answer.changes then .refresh true else .layout false)).setShell
      { shell with mode := some w.guest.mode }).Followed where
  mode _ shell' hs := by
    cases hs
    exact .inl rfl
  cursor hclosed shell' hs := by
    cases hs
    split
    · exact .inr (.inr (.inr (.inr rfl)))
    next hread =>
      have hsome : shell.mode.isNone = false := by
        cases hm : shell.mode.isNone with
        | false => rfl
        | true => exact absurd (.inl hm) hread
      refine (h.cursor hclosed shell hshell).imp_right fun hp => ?_
      rw [hsome] at hp
      exact hp.ui rfl rfl (by rw [hui]; nofun) (by rw [hui]; rfl)

/-- The shell reads the cursor. -/
theorem Followed.refresh (h : w.Followed) {relayout : Bool} {shell : Shell M G}
    (hui : w.ui = .refresh relayout) (hshell : w.shell = some shell) :
    ((w.setUi (if relayout then .layout true else .idle)).setShell
      { shell with cursor := some (w.guest.cursor, w.guest.cursorVisible) }).Followed where
  mode hclosed shell' hs := by
    cases hs
    exact (h.mode hclosed shell hshell).imp_right fun hp =>
      hp.ui rfl rfl (by rw [hui]; nofun) (by rw [hui]; rfl)
  cursor _ shell' hs := by
    cases hs
    exact .inl rfl

theorem Followed.uiJob (h : w.Followed) {job : Job} (hui : w.ui = .job job) (answer : UiAnswer) :
    (w.uiJob answer job).Followed := by
  have hreads : ∀ first, w.ui.readsCursor first = false := fun _ => by rw [hui]; rfl
  have hreads' : w.ui.readsMode = false := by rw [hui]; rfl
  cases job with
  | opening =>
    exact h.ui rfl rfl (fun shell' hs => ⟨shell', hs, rfl, rfl⟩) rfl rfl (by rw [hui]; rintro ⟨⟩)
      (by rw [hui]; rintro ⟨⟩) hreads hreads'
  | guestModeChanged =>
    refine h.imp id rfl (fun shell' hs => ⟨shell', hs, rfl, rfl⟩) (fun _ hsome _ => ?_)
      fun first _ _ hp => hp.ui rfl rfl (by rw [hui]; rintro ⟨⟩) (hreads first)
    refine .inr (.inr (.inr ?_))
    simp only [World.uiJob, World.setUi, hsome, if_true]
    rfl
  | cursorChanged =>
    simp only [World.uiJob]
    split
    next hnone =>
      exact ⟨fun _ shell hs => absurd (hnone.symm.trans hs) (by rintro ⟨⟩),
        fun _ shell hs => absurd (hnone.symm.trans hs) (by rintro ⟨⟩)⟩
    · exact h.imp id rfl (fun shell' hs => ⟨shell', hs, rfl, rfl⟩)
        (fun _ _ hp => hp.ui rfl rfl (by rw [hui]; rintro ⟨⟩) hreads')
        fun _ _ _ _ => .inr (.inr (.inr rfl))
  | close | released =>
    simp only [World.uiJob]
    split
    · exact h.ui rfl rfl (fun shell' hs => ⟨shell', hs, rfl, rfl⟩) rfl rfl (by rw [hui]; rintro ⟨⟩)
        (by rw [hui]; rintro ⟨⟩) hreads hreads'
    next shell hshell =>
      split
      · exact h.ui rfl rfl (fun _ hs => absurd hs (by rintro ⟨⟩)) rfl rfl (by rw [hui]; rintro ⟨⟩)
          (by rw [hui]; rintro ⟨⟩) hreads hreads'
      · refine h.ui rfl rfl (fun shell' hs => ?_) rfl rfl (by rw [hui]; rintro ⟨⟩)
          (by rw [hui]; rintro ⟨⟩)
          hreads hreads'
        cases hs
        exact ⟨shell, hshell, rfl, rfl⟩

theorem Followed.uiStep (h : w.Followed) {answer : UiAnswer} (hw : w.uiStep answer w.ui = some w') :
    w'.Followed := by
  cases hui : w.ui with
  | idle =>
    rw [hui] at hw
    cases hw
  | job job =>
    rw [hui] at hw
    cases hw
    exact h.uiJob hui answer
  | making =>
    rw [hui] at hw
    simp only [World.uiStep] at hw
    split at hw <;> cases hw <;>
      exact h.ui rfl rfl (fun shell' hs => ⟨shell', hs, rfl, rfl⟩) rfl rfl (by rw [hui]; rintro ⟨⟩)
        (by rw [hui]; rintro ⟨⟩) (fun _ => by rw [hui]; rfl) (by rw [hui]; rfl)
  | targeting sdl | layout changed =>
    rw [hui] at hw
    cases hw
    exact h.ui rfl rfl (fun shell' hs => ⟨shell', hs, rfl, rfl⟩) rfl rfl (by rw [hui]; rintro ⟨⟩)
      (by rw [hui]; rintro ⟨⟩) (fun _ => by rw [hui]; rfl) (by rw [hui]; rfl)
  | showing sdl =>
    rw [hui] at hw
    cases hw
    refine followed_shown rfl fun shell hs => ?_
    cases hs
    rfl
  | relayout =>
    rw [hui] at hw
    obtain ⟨shell, hshell, rfl⟩ := Option.map_eq_some_iff.mp hw
    exact h.relayout hui hshell
  | refresh relayout =>
    rw [hui] at hw
    obtain ⟨shell, hshell, rfl⟩ := Option.map_eq_some_iff.mp hw
    exact h.refresh hui hshell

/-- A job is taken from the queue. -/
theorem Followed.pop (h : w.Followed) {job : Job} {queue : List Job} (hqueue : w.queue = job :: queue)
    (hidle : w.ui = .idle) : { w.setUi (.job job) with queue }.Followed := by
  have hp : ∀ {awaits : Call M G S → Bool} {own : Job} {reads : Ui → Bool}, reads .idle = false →
      w.Pending awaits own reads →
      { w.setUi (.job job) with queue }.Pending awaits own reads := by
    intro awaits own reads hreads hp
    refine hp.imp (fun t ht => .inl ⟨t, ht⟩) (fun hj => ?_) fun hu => ?_
    · rw [hqueue] at hj
      rcases List.mem_cons.mp hj with rfl | hj
      · exact .inr (.inr (.inl rfl))
      · exact .inr (.inl hj)
    · rw [hidle] at hu
      exact hu.elim nofun fun hu => absurd (hreads.symm.trans hu) nofun
  exact h.imp id rfl (fun shell' hs => ⟨shell', hs, rfl, rfl⟩) (fun _ _ => hp rfl) fun _ _ _ => hp rfl

/-- The render thread has no part in the guest's changes. -/
theorem Followed.renderStep (h : w.Followed) {answer : RenderAnswer}
    (hw : w.renderStep answer w.render = some w') : w'.Followed := by
  have hset : ∀ (render : Render) (presenter : Option ℕ) (surface : SurfaceState),
      { w with render, presenter, surface }.Followed := fun _ _ _ => ⟨h.mode, h.cursor⟩
  cases hr : w.render with
  | waiting retry =>
    rw [hr] at hw
    simp only [World.renderStep] at hw
    split at hw
    · cases hw
      exact hset _ _ _
    · split at hw <;> cases hw <;> exact hset _ _ _
  | drawing target =>
    rw [hr] at hw
    simp only [World.renderStep] at hw
    split at hw <;> cases hw <;> exact hset _ _ _
  | ending =>
    rw [hr] at hw
    cases hw
    exact hset _ _ _
  | dropped =>
    rw [hr] at hw
    cases hw
    exact (hset .ended w.presenter w.surface).post .released
  | none | ended =>
    rw [hr] at hw
    cases hw

section

variable [DecidableEq τ]

theorem Followed.step (h : w.Followed) (hs : w.At s) (hr : w.Refreshing s r) {a : Action τ M G S}
    (hguard : w.Guarded a) (hw : w.step a = some w') : w'.Followed := by
  cases a with
  | call t entry =>
    simp only [World.step] at hw
    split at hw
    next hc =>
      cases hw
      exact h.setCall (t := t) rfl rfl rfl id rfl rfl (fun _ => by rw [hc]; rintro ⟨⟩)
        fun _ => by rw [hc]; rintro ⟨⟩
    · cases hw
  | goOn t => exact h.goOn hs hr hguard hw
  | newFrame =>
    cases hw
    exact ⟨h.mode, h.cursor⟩
  | video starts =>
    simp only [World.step] at hw
    split_ifs at hw with hvideo hstarts
    · cases hw
      exact ⟨h.mode, h.cursor⟩
    · cases hw
      have hnone := (hs.video (by rw [not_not.mp hvideo]; rintro ⟨⟩)).2
      exact ⟨fun _ shell hshell => absurd (hnone.symm.trans hshell) (by rintro ⟨⟩),
        fun _ shell hshell => absurd (hnone.symm.trans hshell) (by rintro ⟨⟩)⟩
  | pop =>
    simp only [World.step] at hw
    split at hw
    · cases hw
    next job queue hqueue =>
      split_ifs at hw with hcond
      cases hw
      exact h.pop hqueue hcond.2
  | ui answer => exact h.uiStep hw
  | eventRelayout | eventRefresh =>
    simp only [World.step] at hw
    split_ifs at hw with hcond
    cases hw
    exact h.ui rfl rfl (fun shell' hs => ⟨shell', hs, rfl, rfl⟩) rfl rfl (by rw [hcond.1]; rintro ⟨⟩)
      (by rw [hcond.1]; rintro ⟨⟩) (fun _ => by rw [hcond.1]; rfl) (by rw [hcond.1]; rfl)
  | eventShown visible =>
    simp only [World.step] at hw
    split_ifs at hw with hcond
    cases hw
    exact ⟨h.mode, h.cursor⟩
  | render answer => exact h.renderStep hw

/-! ### The runs -/

/-- A step that does not lose a change. -/
def GuardedStep (w : World τ M G S K) (a : Action τ M G S) (w' : World τ M G S K) : Prop :=
  w.Guarded a ∧ w.Step a w'

/-- No call is in progress, no job is queued or runs, and the window is not closed. -/
structure Settled (w : World τ M G S K) : Prop where
  calls : ∀ t, w.calls t = .outside
  queue : w.queue = []
  ui : w.ui = .idle
  closed : w.closed = false

omit [DecidableEq τ] in
theorem Settled.not_pending (h : w.Settled) {awaits : Call M G S → Bool} {job : Job} {reads : Ui → Bool}
    (hawaits : awaits .outside = false) (hreads : reads .idle = false) :
    ¬w.Pending awaits job reads := by
  rintro (⟨t, ht⟩ | hj | hu | hu)
  · rw [h.calls t, hawaits] at ht
    cases ht
  · rw [h.queue] at hj
    cases hj
  · rw [h.ui] at hu
    cases hu
  · rw [h.ui, hreads] at hu
    cases hu

theorem refreshing_of_run {callbacks : K} {as : List (Action τ M G S)}
    (h : Execution Step (new callbacks) as w) : ∃ s r, w.At s ∧ w.Refreshing s r :=
  h.invariant (I := fun w : World τ M G S K => ∃ s r, w.At s ∧ w.Refreshing s r)
    ⟨_, _, at_new callbacks, refreshing_new callbacks⟩
    fun _ _ _ ⟨_, _, hs, hr⟩ hstep => by
      obtain ⟨s', hs', hover⟩ := hs.step hstep
      obtain ⟨r', hr'⟩ := hr.step hs hs' hover hstep
      exact ⟨s', r', hs', hr'⟩

theorem followed_of_run {callbacks : K} {as : List (Action τ M G S)}
    (h : Execution GuardedStep (new callbacks) as w) : w.Followed :=
  (h.invariant (I := fun w : World τ M G S K => (∃ s r, w.At s ∧ w.Refreshing s r) ∧ w.Followed)
    ⟨⟨_, _, at_new callbacks, refreshing_new callbacks⟩, fun _ => nofun, fun _ => nofun⟩
    fun _ _ _ ⟨⟨_, _, hs, hr⟩, hf⟩ ⟨hguard, hstep⟩ => by
      obtain ⟨s', hs', hover⟩ := hs.step hstep
      obtain ⟨r', hr'⟩ := hr.step hs hs' hover hstep
      exact ⟨⟨s', r', hs', hr'⟩, hf.step hs hr hguard hstep⟩).2

/-- In every run at most one refresh of the cursor is queued; and where no change that was stored after
the shell's read in the opening finds the window not yet said to be open, the shell of a window that
settles has read the last mode and the last cursor. -/
theorem changes_read {callbacks : K} :
    (∀ (as : List (Action τ M G S)) (w : World τ M G S K),
      Execution Step (new callbacks) as w → w.queue.count .cursorChanged ≤ 1) ∧
    ∀ (as : List (Action τ M G S)) (w : World τ M G S K),
      Execution GuardedStep (new callbacks) as w → w.Settled → ∀ shell, w.shell = some shell →
        shell.mode = some w.guest.mode ∧
          shell.cursor = some (w.guest.cursor, w.guest.cursorVisible) := by
  refine ⟨fun as w h => ?_, fun as w h hsettled shell hshell => ?_⟩
  · obtain ⟨s, r, -, hr⟩ := refreshing_of_run h
    rw [hr.queued]
    cases r <;> simp [Refresh.jobs]
  · have hf := followed_of_run h
    exact ⟨(hf.mode hsettled.closed shell hshell).resolve_right (hsettled.not_pending rfl rfl),
      (hf.cursor hsettled.closed shell hshell).resolve_right (hsettled.not_pending rfl rfl)⟩

instance (w : World τ M G S K) : (a : Action τ M G S) → Decidable (w.Guarded a)
  | .goOn t => inferInstanceAs (Decidable ((w.calls t).late = true → w.openPosted = true))
  | .call .. | .newFrame | .video _ | .pop | .ui _ | .eventRelayout | .eventRefresh | .eventShown _
  | .render _ => .isTrue trivial

/-- The window opens, and reads a mode that is set after. -/
theorem changes_read_opened : ∃ w : World Bool Unit Unit Unit Unit, ∃ as,
    Execution GuardedStep (new ()) as w ∧ w.Settled ∧ w.guest.mode = some () ∧
      ∃ shell, w.shell = some shell ∧ shell.mode = some w.guest.mode ∧
        shell.cursor = some (w.guest.cursor, w.guest.cursorVisible) := by
  let as : List (Action Bool Unit Unit Unit) :=
    opened ++ .call true (.guestMode ()) :: List.replicate 4 (.goOn true) ++
      .pop :: List.replicate 4 (.ui ⟨true, true, true⟩)
  let guarded (w : World Bool Unit Unit Unit Unit) (a : Action Bool Unit Unit Unit) :=
    if w.Guarded a then w.step a else none
  let run := as.foldlM guarded (new ())
  have hrun : run.isSome = true := rfl
  have hex : Execution GuardedStep (new ()) as (run.get hrun) := by
    refine (Execution.of_foldlM_option guarded as (Option.some_get hrun).symm).mono ?_
    intro v a v' hv
    by_cases hguard : v.Guarded a
    · exact ⟨hguard, (if_pos hguard).symm.trans hv⟩
    · exact absurd ((if_neg hguard).symm.trans hv) nofun
  have hsettled : (run.get hrun).Settled := ⟨fun t => by cases t <;> rfl, rfl, rfl, rfl⟩
  exact ⟨run.get hrun, as, hex, hsettled, rfl, _, rfl, changes_read.2 as _ hex hsettled _ rfl⟩

/-- A mode is set between the opening's read and the attach's store that the window is open: it is not
posted. -/
theorem not_changes_read :
    ¬∀ (as : List (Action Bool Unit Unit Unit)) (w : World Bool Unit Unit Unit Unit),
      Execution Step (new ()) as w → w.Settled → ∀ shell, w.shell = some shell →
        shell.mode = some w.guest.mode := by
  let as : List (Action Bool Unit Unit Unit) :=
    .call false (.attach ()) :: List.replicate 6 (.goOn false) ++
      [.video true, .pop] ++ List.replicate 7 (.ui ⟨true, true, true⟩) ++
      [.call true (.guestMode ()), .goOn true, .goOn true, .goOn false]
  let run := as.foldlM (World.step (K := Unit)) (new ())
  have hrun : run.isSome = true := rfl
  have hex : Execution Step (new ()) as (run.get hrun) :=
    Execution.of_foldlM_option _ as (Option.some_get hrun).symm
  intro h
  have hread := h as _ hex ⟨fun t => by cases t <;> rfl, rfl, rfl, rfl⟩ _ rfl
  cases hread

end

end World

end ReimsVgpu.Window
