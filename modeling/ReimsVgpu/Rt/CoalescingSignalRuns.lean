import ReimsVgpu.Rt.CoalescingSignal

/-!
# A coalescing signal delivers what was merged, one call at a time

At most one thread is in a job of the source, or is to submit one: it is the one thread whose stage
the source's flags tell. From the stage follow the pending word, the handler's references and how
often it was freed.

## Main definitions

* `Stage`, `World.At`: how far the source's one job is, and the state that goes with it.
* `World.Coherent`: one thread has a stage, the source is at it, and no data is lost.

## Main results

* `World.coalesces`.
-/

namespace ReimsVgpu.Rt.Signal

variable {τ : Type*}

namespace Merge

theorem combine_zero (merge : Merge) (v : Word) : merge.combine v 0 = v := by
  cases merge with
  | add => exact BitVec.add_zero v
  | or => exact BitVec.or_zero

theorem combine_assoc (merge : Merge) (v u x : Word) :
    merge.combine (merge.combine v u) x = merge.combine v (merge.combine u x) := by
  cases merge with
  | add => exact BitVec.add_assoc v u x
  | or => exact BitVec.or_assoc v u x

theorem total_append (merge : Merge) (vs : List Word) (v : Word) :
    merge.total (vs ++ [v]) = merge.combine (merge.total vs) v :=
  List.foldl_append

end Merge

/-- How far the source's job is on a thread. -/
inductive Stage
  | rest
  /-- A job is to be submitted, is queued or is in `fire`. -/
  | owed
  | calling
  | callout
  | clearing
  | freeing
  | freed
deriving DecidableEq

def Code.stage : Code → Stage
  | outside => .rest
  | handler _ => .calling
  | dropped => .freed

namespace Phase

def stage : Phase → Stage
  | code c | releasing c => c.stage
  | submitting _ | queued | took _ | returned | again => .owed
  | callout => .callout
  | clearing _ => .clearing
  | freeing _ => .freeing
  | finished => .rest

/-- Only outside the source's jobs is one submitted by a call; and the callout has the handler. -/
def sound : Phase → Bool
  | submitting c => c = .outside
  | clearing handler | freeing handler => handler
  | _ => true

/-- A caller outside the source's jobs is there. -/
def caller : Phase → Bool
  | code c | releasing c => c = .outside
  | submitting _ => true
  | _ => false

/-- The data taken and not yet called with. -/
def inFlight : Phase → List Word
  | took data => [data]
  | _ => []

/-- The data that the handler is called with. -/
def inHandler : Phase → List Word
  | code (.handler data) | releasing (.handler data) => [data]
  | _ => []

theorem eq_finished {p : Phase} (h : p.stage = .rest) (hcaller : p.caller = false) :
    p = .finished := by
  cases p with
  | code c | releasing c =>
    cases c with
    | outside => cases hcaller
    | handler | dropped => cases h
  | finished => rfl
  | _ => cases h

theorem inFlight_eq_nil {p : Phase} (h : p.stage ≠ .owed) : p.inFlight = [] := by
  cases p with
  | took => exact absurd rfl h
  | _ => rfl

theorem inHandler_eq_nil {p : Phase} (h : p.stage ≠ .calling) : p.inHandler = [] := by
  cases p with
  | code c | releasing c =>
    cases c with
    | handler => exact absurd rfl h
    | _ => rfl
  | _ => rfl

end Phase

namespace World

variable [DecidableEq τ] {w w' : World τ} {t t' : τ ⊕ ℕ}

@[simp]
theorem threads_setPhase_self (w : World τ) (t : τ ⊕ ℕ) (p : Phase) :
    (w.setPhase t p).threads t = p :=
  Function.update_self _ _ _

theorem threads_setPhase_of_ne (w : World τ) (h : t' ≠ t) (p : Phase) :
    (w.setPhase t p).threads t' = w.threads t' :=
  Function.update_of_ne h _ _

/-! ### The one job -/

/-- The handler is set, with so many references; it is taken by the callout; or it is freed. -/
def Live (w : World τ) (n : ℕ) : Prop :=
  w.handler = true ∧ w.strong = n ∧ w.callouts = 0 ∧ w.freed = 0

def Taken (w : World τ) : Prop :=
  w.handler = false ∧ w.strong = 1 ∧ w.callouts = 1 ∧ w.freed = 0

def Freed (w : World τ) : Prop :=
  w.handler = false ∧ w.strong = 0 ∧ w.callouts = 1 ∧ w.freed = 1

/-- The source's state at a stage of its job. -/
def At (w : World τ) : Stage → Prop
  | .rest => w.scheduled = false ∧ w.pending = 0 ∧
      (w.cancelled = false ∧ w.Live 1 ∨ w.cancelled = true ∧ w.Freed)
  | .owed => w.scheduled = true ∧ (w.cancelled = true → w.pending = 0) ∧ w.Live 1
  | .calling => w.scheduled = true ∧ (w.cancelled = true → w.pending = 0) ∧ w.Live 2
  | .callout => w.scheduled = true ∧ w.cancelled = true ∧ w.pending = 0 ∧ w.Live 1
  | .clearing => w.scheduled = true ∧ w.cancelled = true ∧ w.pending = 0 ∧ w.Taken
  | .freeing => w.scheduled = false ∧ w.cancelled = true ∧ w.pending = 0 ∧ w.Taken
  | .freed => w.scheduled = false ∧ w.cancelled = true ∧ w.pending = 0 ∧ w.Freed

/-- The thread that the source's job is on, if one is; no other has a part in it. -/
structure Focus (w : World τ) (t : τ ⊕ ℕ) : Prop where
  alone : ∀ t', t' ≠ t → (w.threads t').stage = .rest
  books : w.At (w.threads t).stage
  taken : w.taken = w.called ++ (w.threads t).inFlight
  called : w.called = w.returned ++ (w.threads t).inHandler

/-- One job at a time, and no data is lost. -/
structure Coherent (w : World τ) : Prop where
  focus : ∃ t, w.Focus t
  sound : ∀ t, (w.threads t).sound = true
  unborn : ∀ n, w.jobs ≤ n → w.threads (.inr n) = .finished
  sides : ∀ t, (w.threads t).caller = t.isLeft
  unlost : w.cancelled = false →
    w.merge.combine (w.merge.total w.taken) w.pending = w.merge.total w.merged

namespace Focus

omit [DecidableEq τ] in
/-- Where the thread has no part in a job, any other may stand for it. -/
theorem move (h : w.Focus t) (ht : (w.threads t).stage = .rest) (t' : τ ⊕ ℕ) : w.Focus t' := by
  have hrest : ∀ t', (w.threads t').stage = .rest := fun t' => by
    rcases eq_or_ne t' t with rfl | hne
    · exact ht
    · exact h.alone t' hne
  have hinFlight : ∀ t', (w.threads t').inFlight = [] := fun t' =>
    Phase.inFlight_eq_nil (by rw [hrest]; nofun)
  have hinHandler : ∀ t', (w.threads t').inHandler = [] := fun t' =>
    Phase.inHandler_eq_nil (by rw [hrest]; nofun)
  refine ⟨fun t'' _ => hrest t'', ?_, ?_, ?_⟩
  · rw [hrest t', ← ht]
    exact h.books
  · rw [hinFlight t', ← hinFlight t]
    exact h.taken
  · rw [hinHandler t', ← hinHandler t]
    exact h.called

/-- A step of the thread that the job is on. -/
theorem update (h : w.Focus t) {p : Phase} (hthreads : w'.threads = Function.update w.threads t p)
    (hbooks : w'.At p.stage) (htaken : w'.taken = w'.called ++ p.inFlight)
    (hcalled : w'.called = w'.returned ++ p.inHandler) : w'.Focus t := by
  have hself : w'.threads t = p := by rw [hthreads, Function.update_self]
  refine ⟨fun t' hne => ?_, hself.symm ▸ hbooks, hself.symm ▸ htaken, hself.symm ▸ hcalled⟩
  rw [hthreads, Function.update_of_ne hne]
  exact h.alone t' hne

omit [DecidableEq τ] in
/-- A step that leaves every thread's part in the job as it was. -/
theorem keep (h : w.Focus t) (hstage : ∀ t', (w'.threads t').stage = (w.threads t').stage)
    (hinFlight : ∀ t', (w'.threads t').inFlight = (w.threads t').inFlight)
    (hinHandler : ∀ t', (w'.threads t').inHandler = (w.threads t').inHandler)
    (hbooks : w'.At (w.threads t).stage) (htaken : w'.taken = w.taken)
    (hcalled : w'.called = w.called) (hreturned : w'.returned = w.returned) : w'.Focus t := by
  refine ⟨fun t' hne => (hstage t').trans (h.alone t' hne), ?_, ?_, ?_⟩
  · rw [hstage]
    exact hbooks
  · rw [hinFlight, htaken, hcalled]
    exact h.taken
  · rw [hinHandler, hcalled, hreturned]
    exact h.called

end Focus

omit [DecidableEq τ] in
/-- The thread in a job is the one that the job is on. -/
theorem Coherent.focus_of (h : w.Coherent) (ht : (w.threads t).stage ≠ .rest) : w.Focus t := by
  obtain ⟨t', ht'⟩ := h.focus
  rcases eq_or_ne t t' with rfl | hne
  · exact ht'
  · exact absurd (ht'.alone t hne) ht

namespace Coherent

/-- A step of one thread, from what it does to the job. -/
theorem update (h : w.Coherent) {p : Phase} (hthreads : w'.threads = Function.update w.threads t p)
    (hjobs : w'.jobs = w.jobs) (ht : w.threads t ≠ .finished) (hsound : p.sound = true)
    (hcaller : p.caller = (w.threads t).caller)
    (hfocus : ∃ t, w'.Focus t)
    (hunlost : w'.cancelled = false →
      w'.merge.combine (w'.merge.total w'.taken) w'.pending = w'.merge.total w'.merged) :
    w'.Coherent := by
  refine ⟨hfocus, fun t' => ?_, fun n hn => ?_, fun t' => ?_, hunlost⟩
  · rw [hthreads]
    rcases eq_or_ne t' t with rfl | hne
    · rwa [Function.update_self]
    · rw [Function.update_of_ne hne]
      exact h.sound t'
  · rw [hjobs] at hn
    have hne : .inr n ≠ t := by
      rintro rfl
      exact ht (h.unborn n hn)
    rw [hthreads, Function.update_of_ne hne]
    exact h.unborn n hn
  · rw [hthreads]
    rcases eq_or_ne t' t with rfl | hne
    · rw [Function.update_self, hcaller]
      exact h.sides t'
    · rw [Function.update_of_ne hne]
      exact h.sides t'

/-- A thread goes on with no part in the job, or the part it had. -/
theorem rephase (h : w.Coherent) {p : Phase} (ht : w.threads t ≠ .finished) (hsound : p.sound = true)
    (hthreads : w'.threads = Function.update w.threads t p) (hjobs : w'.jobs = w.jobs)
    (hstage : p.stage = (w.threads t).stage) (hinFlight : p.inFlight = (w.threads t).inFlight)
    (hinHandler : p.inHandler = (w.threads t).inHandler) (hcaller : p.caller = (w.threads t).caller)
    (hbooks : ∀ s, w.At s → w'.At s) (htaken : w'.taken = w.taken) (hcalled : w'.called = w.called)
    (hreturned : w'.returned = w.returned)
    (hunlost : w'.cancelled = false →
      w'.merge.combine (w'.merge.total w'.taken) w'.pending = w'.merge.total w'.merged) :
    w'.Coherent := by
  have hsame : ∀ {α : Type} (f : Phase → α), f p = f (w.threads t) →
      ∀ t', f (w'.threads t') = f (w.threads t') := by
    intro α f hf t'
    rw [hthreads]
    rcases eq_or_ne t' t with rfl | hne
    · rwa [Function.update_self]
    · rw [Function.update_of_ne hne]
  obtain ⟨t', ht'⟩ := h.focus
  refine h.update hthreads hjobs ht hsound hcaller
    ⟨t', ht'.keep (hsame _ hstage) (hsame _ hinFlight) (hsame _ hinHandler) (hbooks _ ht'.books)
      htaken hcalled hreturned⟩ hunlost

/-- A source with no job and not cancelled gets one. -/
theorem owe (h : w.Coherent) {c : Code} (ht : w.threads t = .code c ∨ w.threads t = .releasing c)
    (hidle : w.scheduled = false) (hlive : w.cancelled = false)
    (hthreads : w'.threads = Function.update w.threads t (.submitting c)) (hjobs : w'.jobs = w.jobs)
    (hbooks : w.Live 1 → w'.At .owed) (htaken : w'.taken = w.taken) (hcalled : w'.called = w.called)
    (hreturned : w'.returned = w.returned)
    (hunlost : w'.cancelled = false →
      w'.merge.combine (w'.merge.total w'.taken) w'.pending = w'.merge.total w'.merged) :
    w'.Coherent := by
  obtain ⟨t', ht'⟩ := h.focus
  have hrest : (w.threads t').stage = .rest ∧ w.Live 1 := by
    have hbooks := ht'.books
    cases hstage : (w.threads t').stage <;> rw [hstage] at hbooks <;>
      simp [At, hidle, hlive] at hbooks
    exact ⟨rfl, hbooks.2⟩
  have hfocus := ht'.move hrest.1 t
  have hself : (w.threads t).stage = .rest := by
    rcases eq_or_ne t t' with rfl | hne
    · exact hrest.1
    · exact ht'.alone t hne
  have hstage : c.stage = .rest := by
    rcases ht with ht | ht <;> rw [ht] at hself <;> exact hself
  have hout : c = .outside := by
    cases c with
    | outside => rfl
    | handler | dropped => cases hstage
  have hne : w.threads t ≠ .finished := by
    rcases ht with ht | ht <;> rw [ht] <;> nofun
  have hnone : (w.threads t).inFlight = [] ∧ (w.threads t).inHandler = [] :=
    ⟨Phase.inFlight_eq_nil (by rw [hself]; nofun), Phase.inHandler_eq_nil (by rw [hself]; nofun)⟩
  have hcaller : (w.threads t).caller = true := by
    rcases ht with ht | ht <;> rw [ht, hout] <;> rfl
  refine h.update hthreads hjobs hne (by simp [Phase.sound, hout]) hcaller.symm
    ⟨t, hfocus.update hthreads (hbooks hrest.2) ?_ ?_⟩ hunlost
  · rw [htaken, hcalled, hfocus.taken, hnone.1]
    rfl
  · rw [hcalled, hreturned, hfocus.called, hnone.2]
    rfl

theorem mergeData (h : w.Coherent) {c : Code} (ht : w.threads t = .code c) (v : Word) :
    (w.mergeData t c v).Coherent := by
  have hunlost : w.cancelled = false → w.merge.combine (w.merge.total w.taken)
      (w.merge.combine w.pending v) = w.merge.total (w.merged ++ [v]) := fun hlive => by
    rw [Merge.total_append, ← h.unlost hlive, Merge.combine_assoc]
  obtain ⟨t', ht'⟩ := h.focus
  dsimp only [World.mergeData]
  split_ifs with hv hcancelled hscheduled
  · refine ⟨⟨t', ht'.alone, ht'.books, ht'.taken, ht'.called⟩, h.sound, h.unborn, h.sides,
      fun hlive => ?_⟩
    have heq := hunlost hlive
    rwa [hv, Merge.combine_zero, ← hv] at heq
  · exact ⟨⟨t', ht'.alone, ht'.books, ht'.taken, ht'.called⟩, h.sound, h.unborn, h.sides,
      fun hlive => absurd hcancelled (by rw [hlive]; decide)⟩
  · refine ⟨⟨t', ht'.alone, ?_, ht'.taken, ht'.called⟩, h.sound, h.unborn, h.sides, hunlost⟩
    have hbooks := ht'.books
    have hlive : w.cancelled = false := eq_false_of_ne_true hcancelled
    cases hstage : (w.threads t').stage <;> rw [hstage] at hbooks <;>
      simp_all [At, Live]
  · have hidle : w.scheduled = false := eq_false_of_ne_true fun hs => hscheduled (.inl hs)
    have hlive : w.cancelled = false := eq_false_of_ne_true hcancelled
    exact h.owe (.inl ht) hidle hlive rfl rfl
      (fun hl => ⟨rfl, fun hc => absurd hc hcancelled, hl⟩) rfl rfl rfl hunlost

theorem cancel (h : w.Coherent) {c : Code} (ht : w.threads t = .code c ∨ w.threads t = .releasing c) :
    (w.cancel t c).Coherent := by
  have hne : w.threads t ≠ .finished := by
    rcases ht with ht | ht <;> rw [ht] <;> nofun
  have hcode : (Phase.code c).stage = (w.threads t).stage ∧
      (Phase.code c).inFlight = (w.threads t).inFlight ∧
      (Phase.code c).inHandler = (w.threads t).inHandler ∧
      (Phase.code c).caller = (w.threads t).caller := by
    rcases ht with ht | ht <;> rw [ht] <;> cases c <;> exact ⟨rfl, rfl, rfl, rfl⟩
  rw [World.cancel]
  split_ifs with hcancelled hscheduled
  · exact h.rephase hne rfl rfl rfl hcode.1 hcode.2.1 hcode.2.2.1 hcode.2.2.2 (fun _ => id) rfl rfl rfl h.unlost
  · refine h.rephase hne rfl rfl rfl hcode.1 hcode.2.1 hcode.2.2.1 hcode.2.2.2 (fun s hs => ?_) rfl rfl rfl nofun
    cases s <;> simp_all [At, Live, Taken, Freed, setPhase]
  · have hidle : w.scheduled = false := eq_false_of_ne_true hscheduled
    have hlive : w.cancelled = false := eq_false_of_ne_true hcancelled
    exact h.owe ht hidle hlive rfl rfl (fun hl => ⟨rfl, fun _ => rfl, hl⟩) rfl rfl rfl nofun

theorem release (h : w.Coherent) {c : Code} (ht : w.threads t = .code c) :
    (w.release t c).Coherent := by
  have hne : w.threads t ≠ .finished := by rw [ht]; nofun
  rw [World.release]
  split_ifs
  · refine h.rephase (p := .releasing c) hne rfl rfl rfl ?_ ?_ ?_ ?_ (fun _ => id) rfl rfl rfl h.unlost
      <;> rw [ht] <;> cases c <;> rfl
  · exact h.rephase (p := .code c) hne rfl rfl rfl (by rw [ht]) (by rw [ht]) (by rw [ht])
      (by rw [ht]) (fun _ => id) rfl rfl rfl h.unlost

/-- The job that was to be submitted is queued. -/
theorem submit (h : w.Coherent) {p : Phase} (ht : (w.threads t).stage = .owed)
    (hinFlight : (w.threads t).inFlight = []) (hinHandler : (w.threads t).inHandler = [])
    (hp : p = .finished ∧ (w.threads t).caller = false ∨
      p = .code .outside ∧ (w.threads t).caller = true) :
    (w.submit t p).Coherent := by
  have hfocus := h.focus_of (t := t) (by rw [ht]; nofun)
  have hrest : p.stage = .rest := by
    rcases hp with ⟨rfl, -⟩ | ⟨rfl, -⟩ <;> rfl
  have hunborn := h.unborn w.jobs (Nat.le_refl _)
  have hne : t ≠ .inr w.jobs := by
    rintro rfl
    rw [hunborn] at ht
    cases ht
  have hself : (w.submit t p).threads t = p :=
    (threads_setPhase_of_ne _ hne _).trans (threads_setPhase_self _ _ _)
  have hjob : (w.submit t p).threads (.inr w.jobs) = .queued := threads_setPhase_self _ _ _
  have hothers : ∀ t', t' ≠ t → t' ≠ .inr w.jobs → (w.submit t p).threads t' = w.threads t' :=
    fun t' h₁ h₂ => (threads_setPhase_of_ne _ h₂ _).trans (threads_setPhase_of_ne _ h₁ _)
  refine ⟨⟨.inr w.jobs, fun t' hne' => ?_, ?_, ?_, ?_⟩, fun t' => ?_, fun n hn => ?_,
    fun t' => ?_, h.unlost⟩
  · rcases eq_or_ne t' t with rfl | hne''
    · rw [hself, hrest]
    · rw [hothers t' hne'' hne']
      exact hfocus.alone t' hne''
  · have hbooks := hfocus.books
    rw [ht] at hbooks
    rw [hjob]
    exact hbooks
  · have htaken := hfocus.taken
    rw [hinFlight] at htaken
    rw [hjob]
    exact htaken
  · have hcalled := hfocus.called
    rw [hinHandler] at hcalled
    rw [hjob]
    exact hcalled
  · rcases eq_or_ne t' (.inr w.jobs) with rfl | hne'
    · rw [hjob]
      rfl
    · rcases eq_or_ne t' t with rfl | hne''
      · rw [hself]
        rcases hp with ⟨rfl, -⟩ | ⟨rfl, -⟩ <;> rfl
      · rw [hothers t' hne'' hne']
        exact h.sound t'
  · have hlt : w.jobs < n := hn
    have hne' : (.inr n : τ ⊕ ℕ) ≠ .inr w.jobs := fun heq => Nat.ne_of_gt hlt (Sum.inr.inj heq)
    have hne'' : .inr n ≠ t := by
      rintro rfl
      rw [h.unborn n (Nat.le_of_lt hlt)] at ht
      cases ht
    rw [hothers _ hne'' hne']
    exact h.unborn n (Nat.le_of_lt hlt)
  · rcases eq_or_ne t' (.inr w.jobs) with rfl | hne'
    · rw [hjob]
      rfl
    · rcases eq_or_ne t' t with rfl | hne''
      · rw [hself, ← h.sides t']
        rcases hp with ⟨rfl, hcaller⟩ | ⟨rfl, hcaller⟩ <;> exact hcaller.symm
      · rw [hothers _ hne'' hne']
        exact h.sides t'

/-- A step of the job, by what it does to the source. -/
theorem advance (h : w.Coherent) {p : Phase} (ht : (w.threads t).stage ≠ .rest)
    (hsound : p.sound = true) (hcaller : p.caller = (w.threads t).caller)
    (hthreads : w'.threads = Function.update w.threads t p) (hjobs : w'.jobs = w.jobs)
    (hbooks : w.At (w.threads t).stage → w'.At p.stage)
    (htaken : w.taken = w.called ++ (w.threads t).inFlight → w'.taken = w'.called ++ p.inFlight)
    (hcalled : w.called = w.returned ++ (w.threads t).inHandler →
      w'.called = w'.returned ++ p.inHandler)
    (hunlost : w'.cancelled = false →
      w'.merge.combine (w'.merge.total w'.taken) w'.pending = w'.merge.total w'.merged) :
    w'.Coherent := by
  have hfocus := h.focus_of ht
  exact h.update hthreads hjobs (fun hfinished => ht (hfinished ▸ rfl)) hsound hcaller
    ⟨t, hfocus.update hthreads (hbooks hfocus.books) (htaken hfocus.taken) (hcalled hfocus.called)⟩
    hunlost

theorem fire (h : w.Coherent) (ht : w.threads t = .queued) : (w.fire t).Coherent := by
  have hstage : (w.threads t).stage ≠ .rest := by rw [ht]; nofun
  rw [World.fire]
  split_ifs with hcancelled hpending
  · refine h.advance hstage rfl (by rw [ht]; rfl) rfl rfl (fun hbooks => ?_) (by rw [ht]; exact id)
      (by rw [ht]; exact id) h.unlost
    rw [ht] at hbooks
    exact ⟨hbooks.1, hcancelled, hbooks.2.1 hcancelled, hbooks.2.2⟩
  · refine h.advance hstage rfl (by rw [ht]; rfl) rfl rfl (fun hbooks => ?_) (by rw [ht]; exact id)
      (by rw [ht]; exact id) h.unlost
    rw [ht] at hbooks
    exact ⟨rfl, hpending, .inl ⟨eq_false_of_ne_true hcancelled, hbooks.2.2⟩⟩
  · refine h.advance (p := .took w.pending) hstage rfl (by rw [ht]; rfl) rfl rfl (fun hbooks => ?_)
      (fun htaken => ?_) (by rw [ht]; exact id) fun hlive => ?_
    · rw [ht] at hbooks
      exact ⟨hbooks.1, fun _ => rfl, hbooks.2.2⟩
    · rw [ht] at htaken
      exact congrArg (· ++ [w.pending]) (htaken.trans (List.append_nil _))
    · change w.merge.combine (w.merge.total (w.taken ++ [w.pending])) 0 = w.merge.total w.merged
      rw [Merge.combine_zero, Merge.total_append]
      exact h.unlost hlive

/-- The handler is still set where a job has taken data. -/
theorem call (h : w.Coherent) {data : Word} (ht : w.threads t = .took data) :
    (w.call t data).Coherent := by
  have hstage : (w.threads t).stage ≠ .rest := by rw [ht]; nofun
  have hlive : w.Live 1 := by
    have hbooks := (h.focus_of hstage).books
    rw [ht] at hbooks
    exact hbooks.2.2
  rw [World.call, if_pos hlive.1]
  refine h.advance (p := .code (.handler data)) hstage rfl (by rw [ht]; rfl) rfl rfl (fun hbooks => ?_)
    (fun htaken => ?_) (fun hcalled => ?_) h.unlost
  · rw [ht] at hbooks
    exact ⟨hbooks.1, hbooks.2.1, hlive.1, congrArg (· + 1) hlive.2.1, hlive.2.2⟩
  · rw [ht] at htaken
    exact htaken.trans (List.append_nil _).symm
  · rw [ht] at hcalled
    exact congrArg (· ++ [data]) (hcalled.trans (List.append_nil _))

theorem handlerReturns (h : w.Coherent) {data : Word} (ht : w.threads t = .code (.handler data)) :
    (w.handlerReturns t data).Coherent := by
  have hstage : (w.threads t).stage ≠ .rest := by rw [ht]; nofun
  refine h.advance hstage rfl (by rw [ht]; rfl) rfl rfl (fun hbooks => ?_) (by rw [ht]; exact id)
    (fun hcalled => ?_) h.unlost
  · rw [ht] at hbooks
    obtain ⟨hscheduled, hpending, hhandler, hstrong, hcallouts, hfreed⟩ := hbooks
    refine ⟨hscheduled, hpending, hhandler, ?_, hcallouts, ?_⟩
    · change w.strong - 1 = 1
      rw [hstrong]
    · change (if w.strong = 1 then w.freed + 1 else w.freed) = 0
      rw [hstrong]
      exact hfreed
  · rw [ht] at hcalled
    exact hcalled.trans (List.append_nil _).symm

theorem next (h : w.Coherent) (ht : w.threads t = .returned) : (w.next t).Coherent := by
  have hstage : (w.threads t).stage ≠ .rest := by rw [ht]; nofun
  rw [World.next]
  split_ifs with hcancelled hpending
  · refine h.advance hstage rfl (by rw [ht]; rfl) rfl rfl (fun hbooks => ?_) (by rw [ht]; exact id)
      (by rw [ht]; exact id) h.unlost
    rw [ht] at hbooks
    exact ⟨hbooks.1, hcancelled, hbooks.2.1 hcancelled, hbooks.2.2⟩
  · refine h.advance hstage rfl (by rw [ht]; rfl) rfl rfl (fun hbooks => ?_) (by rw [ht]; exact id)
      (by rw [ht]; exact id) h.unlost
    rw [ht] at hbooks
    exact hbooks
  · refine h.advance hstage rfl (by rw [ht]; rfl) rfl rfl (fun hbooks => ?_) (by rw [ht]; exact id)
      (by rw [ht]; exact id) h.unlost
    rw [ht] at hbooks
    exact ⟨rfl, not_not.mp hpending, .inl ⟨eq_false_of_ne_true hcancelled, hbooks.2.2⟩⟩

theorem takeHandler (h : w.Coherent) (ht : w.threads t = .callout) :
    (w.takeHandler t).Coherent := by
  have hstage : (w.threads t).stage ≠ .rest := by rw [ht]; nofun
  have hbooks := (h.focus_of hstage).books
  rw [ht] at hbooks
  obtain ⟨hscheduled, hcancelled, hpending, hhandler, hstrong, hcallouts, hfreed⟩ := hbooks
  refine h.advance (p := .clearing w.handler) hstage hhandler (by rw [ht]; rfl) rfl rfl (fun _ => ?_)
    (by rw [ht]; exact id) (by rw [ht]; exact id) h.unlost
  exact ⟨hscheduled, hcancelled, hpending, rfl, hstrong, congrArg (· + 1) hcallouts, hfreed⟩

theorem clear (h : w.Coherent) {handler : Bool} (ht : w.threads t = .clearing handler) :
    (w.clear t handler).Coherent := by
  have hstage : (w.threads t).stage ≠ .rest := by rw [ht]; nofun
  have hsound : handler = true := by
    have hsound := h.sound t
    rwa [ht] at hsound
  refine h.advance (p := .freeing handler) hstage hsound (by rw [ht]; rfl) rfl rfl (fun hbooks => ?_)
    (by rw [ht]; exact id) (by rw [ht]; exact id) h.unlost
  rw [ht] at hbooks
  exact ⟨rfl, hbooks.2⟩

/-- The callout's reference is the last. -/
theorem free (h : w.Coherent) {handler : Bool} (ht : w.threads t = .freeing handler) :
    (w.free t handler).Coherent := by
  have hstage : (w.threads t).stage ≠ .rest := by rw [ht]; nofun
  have hsound : handler = true := by
    have hsound := h.sound t
    rwa [ht] at hsound
  rw [World.free, if_pos hsound]
  refine h.advance (p := .code .dropped) hstage rfl (by rw [ht]; rfl) rfl rfl (fun hbooks => ?_)
    (by rw [ht]; exact id) (by rw [ht]; exact id) h.unlost
  rw [ht] at hbooks
  obtain ⟨hscheduled, hcancelled, hpending, hhandler, hstrong, hcallouts, hfreed⟩ := hbooks
  refine ⟨hscheduled, hcancelled, hpending, hhandler, ?_, hcallouts, ?_⟩
  · change w.strong - 1 = 0
    rw [hstrong]
  · change (if w.strong = 1 then w.freed + 1 else w.freed) = 1
    rw [if_pos hstrong, hfreed]

theorem droppedReturns (h : w.Coherent) (ht : w.threads t = .code .dropped) :
    (w.setPhase t .finished).Coherent := by
  have hstage : (w.threads t).stage ≠ .rest := by rw [ht]; nofun
  refine h.advance hstage rfl (by rw [ht]; rfl) rfl rfl (fun hbooks => ?_) (by rw [ht]; exact id)
    (by rw [ht]; exact id) h.unlost
  rw [ht] at hbooks
  exact ⟨hbooks.1, hbooks.2.2.1, .inr ⟨hbooks.2.1, hbooks.2.2.2⟩⟩

/-- Every step keeps the source coherent. -/
theorem step (h : w.Coherent) {a : Action τ} (hs : Step w a w') : w'.Coherent := by
  cases hs with
  | merge ht _ => exact h.mergeData ht _
  | cancel ht _ => exact h.cancel (.inl ht)
  | retain _ _ =>
    obtain ⟨t, ht⟩ := h.focus
    exact ⟨⟨t, ht.alone, ht.books, ht.taken, ht.called⟩, h.sound, h.unborn, h.sides, h.unlost⟩
  | release ht _ => exact h.release ht
  | released ht => exact h.cancel (.inr ht)
  | @submit t c ht =>
    have hout : c = .outside := by
      have hsound := h.sound t
      rw [ht] at hsound
      exact of_decide_eq_true hsound
    refine h.submit (by rw [ht]; rfl) (by rw [ht]; rfl) (by rw [ht]; rfl) (.inr ⟨?_, ?_⟩)
    · rw [hout]
    · rw [ht]
      rfl
  | fire ht => exact h.fire ht
  | call ht => exact h.call ht
  | handlerReturns ht => exact h.handlerReturns ht
  | next ht => exact h.next ht
  | again ht =>
    exact h.submit (by rw [ht]; rfl) (by rw [ht]; rfl) (by rw [ht]; rfl)
      (.inl ⟨rfl, by rw [ht]; rfl⟩)
  | takeHandler ht => exact h.takeHandler ht
  | clear ht => exact h.clear ht
  | free ht => exact h.free ht
  | droppedReturns ht => exact h.droppedReturns ht

end Coherent

omit [DecidableEq τ] in
theorem coherent_new (merge : Merge) : (new merge : World τ).Coherent := by
  refine ⟨⟨.inr 0, fun t _ => ?_, ⟨rfl, rfl, .inl ⟨rfl, rfl, rfl, rfl, rfl⟩⟩, rfl, rfl⟩, fun t => ?_,
    fun _ _ => rfl, fun t => ?_, fun _ => merge.combine_zero _⟩
  · cases t <;> rfl
  · cases t <;> rfl
  · cases t <;> rfl

theorem coherent {merge : Merge} {as : List (Action τ)} (h : Execution Step (new merge) as w) :
    w.Coherent :=
  h.invariant (coherent_new merge) fun _ _ _ hc hs => hc.step hs

/-! ### After a cancel -/

/-- A cancelled source stays so, and no data is taken from it. -/
theorem Step.cancelled {a : Action τ} (hs : Step w a w') (h : w.cancelled = true) :
    w'.cancelled = true ∧ w'.taken = w.taken := by
  cases hs with
  | merge =>
    dsimp only [mergeData]
    split_ifs <;> exact ⟨h, rfl⟩
  | cancel | released => rw [World.cancel, if_pos h]; exact ⟨h, rfl⟩
  | fire => rw [World.fire, if_pos h]; exact ⟨h, rfl⟩
  | next => rw [World.next, if_pos h]; exact ⟨h, rfl⟩
  | call => rw [World.call]; split_ifs <;> exact ⟨h, rfl⟩
  | free => rw [World.free]; split_ifs <;> exact ⟨h, rfl⟩
  | _ => exact ⟨h, rfl⟩

/-- The references are gone where the last one's drop is to cancel the source, or has. -/
structure Retained (w : World τ) (as : List (Action τ)) : Prop where
  releasing : ∀ t c, w.threads t = .releasing c → w.retained = 0
  cancelled : w.cancelled = true → (∃ t, .cancel t ∈ as) ∨ w.retained = 0

namespace Retained

/-- A step that neither cancels nor releases. -/
theorem keep {as as' : List (Action τ)} (h : w.Retained as) (hsub : as ⊆ as') {p : Phase}
    (hthreads : w'.threads = Function.update w.threads t p) (hp : ∀ c, p ≠ .releasing c)
    (hretained : w'.retained = w.retained) (hcancelled : w'.cancelled = w.cancelled) :
    w'.Retained as' := by
  refine ⟨fun t' c ht' => ?_, fun hc => ?_⟩
  · rw [hthreads] at ht'
    rw [hretained]
    rcases eq_or_ne t' t with rfl | hne
    · rw [Function.update_self] at ht'
      exact absurd ht' (hp c)
    · rw [Function.update_of_ne hne] at ht'
      exact h.releasing t' c ht'
  · rw [hretained]
    exact (h.cancelled (hcancelled ▸ hc)).imp_left fun ⟨t', ht'⟩ => ⟨t', hsub ht'⟩

theorem submit {as as' : List (Action τ)} (h : w.Retained as) (hsub : as ⊆ as') {p : Phase}
    (hp : ∀ c, p ≠ .releasing c) : (w.submit t p).Retained as' := by
  have hphase : (w.setPhase t p).Retained as := h.keep (fun _ => id) rfl hp rfl rfl
  exact hphase.keep hsub rfl nofun rfl rfl

theorem cancel {as as' : List (Action τ)} (h : w.Retained as) (hsub : as ⊆ as') {c : Code}
    (hwhy : (∃ t, .cancel t ∈ as') ∨ w.retained = 0) : (w.cancel t c).Retained as' := by
  rw [World.cancel]
  split_ifs
  · exact h.keep hsub rfl nofun rfl rfl
  · have hphase : (w.setPhase t (.code c)).Retained as := h.keep (fun _ => id) rfl nofun rfl rfl
    exact ⟨hphase.releasing, fun _ => hwhy⟩
  · have hphase : (w.setPhase t (.submitting c)).Retained as :=
      h.keep (fun _ => id) rfl nofun rfl rfl
    exact ⟨hphase.releasing, fun _ => hwhy⟩

theorem step {as : List (Action τ)} (h : w.Retained as) {a : Action τ} (hs : Step w a w') :
    w'.Retained (as ++ [a]) := by
  have hsub : as ⊆ as ++ [a] := List.subset_append_left _ _
  cases hs with
  | @merge t c v ht href =>
    have hthreads : w.threads = Function.update w.threads t (.code c) := by
      rw [← ht, Function.update_eq_self]
    dsimp only [mergeData]
    split_ifs
    · exact h.keep hsub hthreads nofun rfl rfl
    · exact h.keep hsub hthreads nofun rfl rfl
    · exact h.keep hsub hthreads nofun rfl rfl
    · exact h.keep hsub rfl nofun rfl rfl
  | @cancel t c ht href =>
    exact h.cancel hsub (.inl ⟨t, List.mem_append_right _ (List.mem_singleton_self _)⟩)
  | retain ht href =>
    have hnone : w.retained ≠ 0 := Nat.ne_of_gt href
    refine ⟨fun t' c' ht' => absurd (h.releasing t' c' ht') hnone, fun hc => ?_⟩
    exact .inl (((h.cancelled hc).resolve_right hnone).imp fun _ => List.mem_append_left _)
  | @release t c ht href =>
    have hnone : w.retained ≠ 0 := Nat.ne_of_gt href
    refine ⟨fun t' c' ht' => ?_, fun hc => ?_⟩
    · change w.retained - 1 = 0
      rcases eq_or_ne t' t with rfl | hne
      · have hself : (if w.retained = 1 then Phase.releasing c else .code c) = .releasing c' :=
          (threads_setPhase_self w t' _).symm.trans ht'
        by_cases hone : w.retained = 1
        · rw [hone]
        · rw [if_neg hone] at hself
          cases hself
      · have hold := (threads_setPhase_of_ne w hne _).symm.trans ht'
        exact absurd (h.releasing t' c' hold) hnone
    · exact .inl (((h.cancelled hc).resolve_right hnone).imp fun _ => List.mem_append_left _)
  | released ht => exact h.cancel hsub (.inr (h.releasing _ _ ht))
  | submit ht => exact h.submit hsub nofun
  | fire ht =>
    rw [World.fire]
    split_ifs <;> exact h.keep hsub rfl nofun rfl rfl
  | call ht =>
    rw [World.call]
    split_ifs <;> exact h.keep hsub rfl nofun rfl rfl
  | handlerReturns ht => exact h.keep hsub rfl nofun rfl rfl
  | next ht =>
    rw [World.next]
    split_ifs <;> exact h.keep hsub rfl nofun rfl rfl
  | again ht => exact h.submit hsub nofun
  | takeHandler ht => exact h.keep hsub rfl nofun rfl rfl
  | clear ht => exact h.keep hsub rfl nofun rfl rfl
  | free ht =>
    rw [World.free]
    split_ifs <;> exact h.keep hsub rfl nofun rfl rfl
  | droppedReturns ht => exact h.keep hsub rfl nofun rfl rfl

end Retained

theorem retained_of_run {merge : Merge} {as : List (Action τ)} (h : Execution Step (new merge) as w) :
    w.Retained as := by
  refine h.history (P := fun as w => w.Retained as) ⟨fun t c ht => ?_, nofun⟩
    fun _ _ _ _ hr hs => hr.step hs
  cases t <;> cases ht

/-! ### What a job does -/

/-- No job is queued or runs, and no call is to submit one. -/
def Idle (w : World τ) : Prop :=
  (∀ n, w.threads (.inr n) = .finished) ∧ ∀ t c, w.threads t ≠ .submitting c

namespace Coherent

omit [DecidableEq τ] in
/-- Where no job is owed, nobody has a part in one. -/
theorem rest_of_idle (h : w.Coherent) (hidle : w.Idle) (t : τ ⊕ ℕ) :
    (w.threads t).stage = .rest := by
  cases t with
  | inr n =>
    rw [hidle.1 n]
    rfl
  | inl x =>
    have hcaller := h.sides (.inl x)
    cases hp : w.threads (.inl x) with
    | submitting c => exact absurd hp (hidle.2 _ c)
    | code c | releasing c =>
      rw [hp] at hcaller
      cases c with
      | outside => rfl
      | handler | dropped => cases hcaller
    | _ =>
      rw [hp] at hcaller
      cases hcaller

omit [DecidableEq τ] in
theorem at_rest (h : w.Coherent) (hidle : w.Idle) : w.At .rest := by
  obtain ⟨t, ht⟩ := h.focus
  have hbooks := ht.books
  rwa [h.rest_of_idle hidle t] at hbooks

omit [DecidableEq τ] in
theorem one_job (h : w.Coherent) {m n : ℕ} (hm : w.threads (.inr m) ≠ .finished)
    (hn : w.threads (.inr n) ≠ .finished) : m = n := by
  have hstage : ∀ k, w.threads (.inr k) ≠ .finished → (w.threads (.inr k)).stage ≠ .rest :=
    fun k hk hrest => hk (Phase.eq_finished hrest (h.sides (.inr k)))
  have hfocus := h.focus_of (hstage m hm)
  by_contra hne
  exact hstage n hn (hfocus.alone (.inr n) fun heq => hne (Sum.inr.inj heq).symm)

omit [DecidableEq τ] in
theorem one_call (h : w.Coherent) (ht : (w.threads t).inHandler ≠ [])
    (ht' : (w.threads t').inHandler ≠ []) : t = t' := by
  have hstage : ∀ t, (w.threads t).inHandler ≠ [] → (w.threads t).stage ≠ .rest :=
    fun t hin hrest => hin (Phase.inHandler_eq_nil (by rw [hrest]; nofun))
  by_contra hne
  exact hstage t' ht' ((h.focus_of (hstage t ht)).alone t' (Ne.symm hne))

omit [DecidableEq τ] in
/-- One callout frees the handler, once and after every call. -/
theorem freed_le (h : w.Coherent) : w.callouts ≤ 1 ∧ w.freed ≤ w.callouts ∧
    (w.freed = 1 → w.cancelled = true ∧ w.called = w.taken ∧ w.returned = w.called) := by
  obtain ⟨t, ht⟩ := h.focus
  have hbooks := ht.books
  have htaken := ht.taken
  have hcalled := ht.called
  have hinFlight := Phase.inFlight_eq_nil (p := w.threads t)
  have hinHandler := Phase.inHandler_eq_nil (p := w.threads t)
  cases hstage : (w.threads t).stage <;> rw [hstage] at hbooks hinFlight hinHandler <;>
    simp only [At, Live, Taken, Freed] at hbooks
  case rest =>
    rw [hinFlight nofun, List.append_nil] at htaken
    rw [hinHandler nofun, List.append_nil] at hcalled
    rcases hbooks with ⟨-, -, ⟨-, -, -, hcallouts, hfreed⟩ | ⟨hcancelled, -, -, hcallouts, hfreed⟩⟩
    · omega
    · exact ⟨by omega, by omega, fun _ => ⟨hcancelled, htaken.symm, hcalled.symm⟩⟩
  case freed =>
    rw [hinFlight nofun, List.append_nil] at htaken
    rw [hinHandler nofun, List.append_nil] at hcalled
    obtain ⟨-, hcancelled, -, -, -, hcallouts, hfreed⟩ := hbooks
    exact ⟨by omega, by omega, fun _ => ⟨hcancelled, htaken.symm, hcalled.symm⟩⟩
  all_goals omega

end Coherent

/-- Only the callout's drop frees the handler, all calls having returned. -/
theorem Coherent.frees (h : w.Coherent) {a : Action τ} (hs : Step w a w')
    (hfreed : w'.freed ≠ w.freed) : (∃ t, w.threads t = .freeing true) ∧ w.callouts = 1 ∧
      w.called = w.taken ∧ w.returned = w.called := by
  cases hs with
  | merge =>
    dsimp only [World.mergeData] at hfreed
    split_ifs at hfreed <;> exact absurd rfl hfreed
  | cancel | released =>
    rw [World.cancel] at hfreed
    split_ifs at hfreed <;> exact absurd rfl hfreed
  | fire =>
    rw [World.fire] at hfreed
    split_ifs at hfreed <;> exact absurd rfl hfreed
  | next =>
    rw [World.next] at hfreed
    split_ifs at hfreed <;> exact absurd rfl hfreed
  | call =>
    rw [World.call] at hfreed
    split_ifs at hfreed <;> exact absurd rfl hfreed
  | handlerReturns ht =>
    have hbooks := (h.focus_of (by rw [ht]; nofun)).books
    rw [ht] at hbooks
    have hstrong : w.strong ≠ 1 := by rw [hbooks.2.2.2.1]; decide
    exact absurd (if_neg hstrong) hfreed
  | @free t handler ht =>
    have hsound : handler = true := by
      have hsound := h.sound t
      rwa [ht] at hsound
    have hfocus := h.focus_of (t := t) (by rw [ht]; nofun)
    have hbooks := hfocus.books
    have htaken := hfocus.taken
    have hcalled := hfocus.called
    rw [ht] at hbooks htaken hcalled
    exact ⟨⟨t, hsound ▸ ht⟩, hbooks.2.2.2.2.2.1, (htaken.trans (List.append_nil _)).symm,
      (hcalled.trans (List.append_nil _)).symm⟩
  | _ => exact absurd rfl hfreed

/-- How data combines never changes. -/
theorem Step.merge_eq {a : Action τ} (hs : Step w a w') : w'.merge = w.merge := by
  cases hs with
  | merge =>
    dsimp only [mergeData]
    split_ifs <;> rfl
  | cancel | released => rw [World.cancel]; split_ifs <;> rfl
  | fire => rw [World.fire]; split_ifs <;> rfl
  | next => rw [World.next]; split_ifs <;> rfl
  | call => rw [World.call]; split_ifs <;> rfl
  | free => rw [World.free]; split_ifs <;> rfl
  | _ => rfl

/-- In every run: one job of the source at a time is submitted and not finished, so the handler's
calls never overlap; the data taken is called with in order; until a cancel or the last release, what
is taken and pending is what was merged, and nothing is pending where no job is owed; after it no job
takes data; and one callout frees the handler, once, every call having returned, and has freed it
where no job is owed. -/
theorem coalesces {merge : Merge} {as : List (Action τ)} (h : Execution Step (new merge) as w) :
    (∀ m n, w.threads (.inr m) ≠ .finished → w.threads (.inr n) ≠ .finished → m = n) ∧
    (∀ t t', (w.threads t).inHandler ≠ [] → (w.threads t').inHandler ≠ [] → t = t') ∧
    (w.taken = w.called ∨ ∃ t data, w.threads t = .took data ∧ w.taken = w.called ++ [data]) ∧
    (w.cancelled = true → (∃ t, .cancel t ∈ as) ∨ w.retained = 0) ∧
    (w.cancelled = false →
      merge.combine (merge.total w.taken) w.pending = merge.total w.merged ∧
        (w.Idle → w.pending = 0)) ∧
    (w.cancelled = true → ∀ bs v, Execution Step w bs v → v.cancelled = true ∧ v.taken = w.taken) ∧
    (w.freed ≤ 1 ∧ w.callouts ≤ 1) ∧
    (∀ a w', Step w a w' → w'.freed ≠ w.freed → (∃ t, w.threads t = .freeing true) ∧
      w.callouts = 1 ∧ w.called = w.taken ∧ w.returned = w.called) ∧
    (w.cancelled = true → w.Idle → w.freed = 1) := by
  have hc := coherent h
  have hmerge : w.merge = merge :=
    h.invariant (I := fun w => w.merge = merge) rfl fun _ _ _ hm hs => hs.merge_eq.trans hm
  obtain ⟨hcallouts, hfreed, -⟩ := hc.freed_le
  refine ⟨fun m n => hc.one_job, fun t t' => hc.one_call, ?_, (retained_of_run h).cancelled,
    fun hlive => ⟨hmerge ▸ hc.unlost hlive, fun hidle => (hc.at_rest hidle).2.1⟩,
    fun hcancelled bs v hrun => ?_, ⟨Nat.le_trans hfreed hcallouts, hcallouts⟩,
    fun a w' hs => hc.frees hs, fun hcancelled hidle => ?_⟩
  · obtain ⟨t, ht⟩ := hc.focus
    have htaken := ht.taken
    cases hp : w.threads t with
    | took data =>
      rw [hp] at htaken
      exact .inr ⟨t, data, hp, htaken⟩
    | _ =>
      rw [hp] at htaken
      exact .inl (htaken.trans (List.append_nil _))
  · refine hrun.invariant (I := fun v => v.cancelled = true ∧ v.taken = w.taken)
      ⟨hcancelled, rfl⟩ fun _ _ _ hv hs => ?_
    obtain ⟨hcancelled', htaken⟩ := hs.cancelled hv.1
    exact ⟨hcancelled', htaken.trans hv.2⟩
  · rcases (hc.at_rest hidle).2.2 with ⟨hlive, -⟩ | ⟨-, -, -, -, hfreed⟩
    · rw [hlive] at hcancelled
      cases hcancelled
    · exact hfreed

/-- More is merged once the job has taken the first data. -/
theorem coalesces_mergedAfter : ∃ w : World Unit,
    Execution Step (new .add) [.merge (.inl ()) 5, .goOn (.inl ()), .goOn (.inr 0),
      .merge (.inl ()) 7] w ∧ w.taken = [5] ∧ w.pending = 7 ∧
      Merge.add.combine (Merge.add.total w.taken) w.pending = Merge.add.total w.merged := by
  have hrun : Execution Step (new .add : World Unit) [.merge (.inl ()) 5, .goOn (.inl ()),
      .goOn (.inr 0), .merge (.inl ()) 7] _ :=
    .snoc (.snoc (.snoc (.snoc (.nil _) (.merge (c := .outside) rfl (by decide)))
      (.submit (c := .outside) rfl)) (.fire rfl)) (.merge (c := .outside) rfl (by decide))
  exact ⟨_, hrun, rfl, rfl, ((coalesces hrun).2.2.2.2.1 rfl).1⟩

end World

end ReimsVgpu.Rt.Signal
