import ReimsVgpu.Rt.SerialQueueItems

/-!
# The serial queue runs its items one at a time and in order, and loses none

The queue's worker is one thread, or one that is about to start, as long as the queue says that it
has a worker. While the queue has items and nobody holds it, that thread is awake, or another has
just queued or given up and is about to notify it.

## Main definitions

* `World.Attended`: the worker there is, and who sees to an idle queue.

## Main results

* `World.serial_fifo`.
-/

namespace ReimsVgpu.Rt.Queue

variable {τ : Type*}

/-- Blocks before a worker's turn run on the worker. -/
def Code.sound : Code → Bool
  | outside | drain | block _ => true
  | turnBlock _ _ code => code.onWorker && code.sound
  | .inSync _ code => code.sound
  | nested code => code.sound

namespace Phase

/-- The thread is the worker, or is to start it. -/
def mans : Phase → Bool
  | submitted start c => start || c.onWorker
  | p => p.onWorker

/-- Only the worker waits for its turn as the worker; the others wait, and start it. -/
def sound : Phase → Bool
  | code c | submitted false c | notifying c => c.sound
  | submitted true c | waiting _ c => !c.onWorker && c.sound
  | turnAsleep _ c | turnWoken _ c => c.onWorker && c.sound
  | asleep | woken _ => true

/-- The thread sees to an idle queue: it notifies, or it is the worker and awake. -/
def acts : Phase → Bool
  | code c => c.onWorker
  | submitted _ _ | notifying _ | woken _ | turnWoken _ _ => true
  | waiting _ _ | asleep | turnAsleep _ _ => false

/-- A worker that no notify would wake is awake. -/
theorem acts_of_mans {p : Phase} (hmans : p.mans = true) (hsound : p.sound = true)
    (hwoke : p.woke = none) : p.acts = true := by
  cases p with
  | code c => exact hmans
  | waiting turn c =>
    change (!c.onWorker && c.sound) = true at hsound
    change c.onWorker = true at hmans
    simp [hmans] at hsound
  | asleep | turnAsleep => cases hwoke
  | _ => rfl

theorem mans_of_notifies {p : Phase} {c : Code} (h : p.notifies = some c) :
    p.mans = c.onWorker ∧ p.sound = c.sound ∧ p.onWorker = c.onWorker := by
  cases p with
  | submitted start c' =>
    cases start with
    | false =>
      obtain rfl := Option.some.inj h
      exact ⟨rfl, rfl, rfl⟩
    | true => cases h
  | notifying c' =>
    obtain rfl := Option.some.inj h
    exact ⟨rfl, rfl, rfl⟩
  | _ => cases h

/-- A wait that ends is on the same thread, awake. -/
theorem mans_of_woke {p q : Phase} (h : p.woke = some q) :
    q.mans = p.mans ∧ q.sound = p.sound ∧ q.acts = true ∧ q.onWorker = true := by
  cases p with
  | asleep | turnAsleep =>
    obtain rfl := Option.some.inj h
    exact ⟨rfl, rfl, rfl, rfl⟩
  | _ => cases h

end Phase

/-- A step that a thread takes next by itself: the code that it runs returns, or a call or the worker
goes on. A new call, a spurious wake and an idle timeout are not. -/
def Action.own : Action τ → Bool
  | .returns _ | .goOn _ => true
  | _ => false

namespace World

variable [DecidableEq τ] {w w' : World τ}

/-! ### The worker there is -/

/-- At most one thread is the worker or is to start it, and the queue says whether one is; a block
has a worker; and somebody sees to an idle queue that has items. -/
structure Attended (w : World τ) : Prop where
  alone : ∀ t t', (w.threads t).mans = true → (w.threads t').mans = true → t = t'
  alive : w.worker = true ↔ ∃ t, (w.threads t).mans = true
  sound : ∀ t, (w.threads t).sound = true
  unborn : ∀ n, w.workers ≤ n → w.threads (.inr n) = .code .outside
  blocks : ∀ id, .block id ∈ w.items → w.worker = true
  attended : w.owner = .idle → w.items ≠ [] →
    w.worker = true ∧ ∃ t, (w.threads t).acts = true

namespace Attended

omit [DecidableEq τ] in
/-- A thread in a call or in a worker exists. -/
theorem exists_of_ne (h : w.Attended) {t : τ ⊕ ℕ} (ht : w.threads t ≠ .code .outside) :
    w.Exists t := by
  cases t with
  | inl => trivial
  | inr n => exact Nat.not_le.mp fun hle => ht (h.unborn n hle)

/-- A thread's step that makes no worker and ends none. -/
theorem keep (h : w.Attended) {t : τ ⊕ ℕ} {p : Phase} (hex : w.Exists t)
    (hthreads : w'.threads = Function.update w.threads t p)
    (hworker : w'.worker = w.worker) (hworkers : w'.workers = w.workers)
    (hmans : p.mans = (w.threads t).mans) (hsound : p.sound = true)
    (hblocks : ∀ id, .block id ∈ w'.items → .block id ∈ w.items ∨ w.worker = true)
    (hattended : w'.owner = .idle → w'.items ≠ [] →
      w.worker = true ∧ ∃ t, (w'.threads t).acts = true) : w'.Attended := by
  have hsame : ∀ t', (w'.threads t').mans = (w.threads t').mans := by
    intro t'
    rw [hthreads]
    rcases eq_or_ne t' t with rfl | hne
    · rw [Function.update_self, hmans]
    · rw [Function.update_of_ne hne]
  refine ⟨fun t₁ t₂ h₁ h₂ => h.alone t₁ t₂ (hsame t₁ ▸ h₁) (hsame t₂ ▸ h₂), ?_, fun t' => ?_,
    fun n hn => ?_, fun id hid => ?_, fun howner hitems => hworker ▸ hattended howner hitems⟩
  · simp only [hworker, hsame]
    exact h.alive
  · rw [hthreads]
    rcases eq_or_ne t' t with rfl | hne
    · rwa [Function.update_self]
    · rw [Function.update_of_ne hne]
      exact h.sound t'
  · rw [hworkers] at hn
    have hne : .inr n ≠ t := by
      rintro rfl
      exact Nat.not_le.mpr hex hn
    rw [hthreads, Function.update_of_ne hne]
    exact h.unborn n hn
  · rw [hworker]
    exact (hblocks id hid).elim (h.blocks id) fun hworker => hworker

/-- A thread goes on, and sees to the queue if it did. -/
theorem goOn (h : w.Attended) {t : τ ⊕ ℕ} {p : Phase} (hex : w.Exists t)
    (hmans : p.mans = (w.threads t).mans) (hsound : p.sound = true)
    (hacts : (w.threads t).acts = true → p.acts = true) : (w.setPhase t p).Attended := by
  refine h.keep hex rfl rfl rfl hmans hsound (fun _ => .inl) fun howner hitems => ?_
  obtain ⟨hworker, t', ht'⟩ := h.attended howner hitems
  refine ⟨hworker, t', ?_⟩
  rcases eq_or_ne t' t with rfl | hne
  · rw [threads_setPhase_self]
    exact hacts ht'
  · rwa [threads_setPhase_of_ne _ hne]

/-- What ran gives the queue up on a thread that sees to it. -/
theorem done (h : w.Attended) {t : τ ⊕ ℕ} {p : Phase} {it : Item} (hex : w.Exists t)
    (hmans : p.mans = (w.threads t).mans) (hsound : p.sound = true) (hacts : p.acts = true)
    (hworker : w.items ≠ [] → w.worker = true) : ((w.done it).setPhase t p).Attended := by
  refine h.keep hex rfl rfl rfl hmans hsound (fun _ => .inl) fun _ hitems => ?_
  exact ⟨hworker hitems, t, by rwa [threads_setPhase_self]⟩

/-- Somebody holds the queue. -/
theorem take {t : τ ⊕ ℕ} {p q : Phase} (h : (w.setPhase t p).Attended) (given : List Turn)
    (hex : w.Exists t) {it : Item} {rest : List Item} {owner : Owner} (howner : owner ≠ .idle)
    (hrest : ∀ i ∈ rest, i ∈ w.items) (hmans : q.mans = p.mans) (hsound : q.sound = true) :
    Attended { (w.take it rest owner).setPhase t q with given } := by
  refine h.keep hex (Function.update_idem _ _ _).symm rfl rfl ?_ hsound
    (fun _ hid => .inl (hrest _ hid)) fun hidle _ => absurd hidle howner
  rw [threads_setPhase_self, hmans]

/-- The thread stands elsewhere. -/
theorem replace {t : τ ⊕ ℕ} {p q : Phase} (h : (w.setPhase t p).Attended) (hex : w.Exists t)
    (hmans : q.mans = p.mans) (hsound : q.sound = true)
    (hacts : w.owner = .idle → w.items ≠ [] → q.acts = true) : (w.setPhase t q).Attended := by
  refine h.keep hex (Function.update_idem _ _ _).symm rfl rfl ?_ hsound (fun _ => .inl)
    fun howner hitems => ⟨(h.attended howner hitems).1, t, ?_⟩
  · rw [threads_setPhase_self, hmans]
  · rw [threads_setPhase_self]
    exact hacts howner hitems

/-- The worker ends on an empty queue. -/
theorem leave {t : τ ⊕ ℕ} {p : Phase} (h : (w.setPhase t p).Attended) (hex : w.Exists t)
    (hmans : p.mans = true) (hitems : w.items = []) :
    Attended { w.setPhase t (.code .outside) with worker := false } := by
  have hnone : ∀ t', ((w.setPhase t (.code .outside)).threads t').mans ≠ true := by
    intro t' ht'
    rcases eq_or_ne t' t with rfl | hne
    · rw [threads_setPhase_self] at ht'
      cases ht'
    · rw [threads_setPhase_of_ne _ hne] at ht'
      refine hne (h.alone t' t ?_ ?_)
      · rwa [threads_setPhase_of_ne _ hne]
      · rwa [threads_setPhase_self]
  refine ⟨fun t₁ _ h₁ => absurd h₁ (hnone t₁), ?_, fun t' => ?_, fun n hn => ?_, fun id hid => ?_,
    fun _ hne => absurd hitems hne⟩
  · exact ⟨nofun, fun ⟨t', ht'⟩ => absurd ht' (hnone t')⟩
  · change ((w.setPhase t (.code .outside)).threads t').sound = true
    rcases eq_or_ne t' t with rfl | hne
    · rw [threads_setPhase_self]
      rfl
    · have hsound := h.sound t'
      rw [threads_setPhase_of_ne _ hne] at hsound
      rwa [threads_setPhase_of_ne _ hne]
  · have hne : .inr n ≠ t := by
      rintro rfl
      exact Nat.not_le.mpr hex hn
    have hunborn := h.unborn n hn
    rw [threads_setPhase_of_ne _ hne] at hunborn
    exact (threads_setPhase_of_ne _ hne _).trans hunborn
  · change Item.block id ∈ w.items at hid
    rw [hitems] at hid
    cases hid

/-- `work` leaves an idle queue empty when it goes on. -/
theorem loop {t : τ ⊕ ℕ} {p : Phase} (h : (w.setPhase t p).Attended) (hex : w.Exists t)
    (hmans : p.mans = true) (drained : Bool) : (w.loop t drained).Attended := by
  rw [World.loop]
  split
  next id v hstep =>
    obtain ⟨-, ⟨id', rest, heq, hitems, rfl⟩ | ⟨turn, rest, heq, -⟩⟩ := step_eq_some hstep
    · refine h.take w.given hex (by decide) (fun i hi => ?_) hmans.symm rfl
      rw [hitems]
      exact List.mem_cons_of_mem _ hi
    · cases heq
  next turn v hstep =>
    obtain ⟨-, ⟨id', rest, heq, -⟩ | ⟨turn', rest, heq, hitems, rfl⟩⟩ := step_eq_some hstep
    · cases heq
    · refine h.take (turn' :: w.given) hex (by decide) (fun i hi => ?_) hmans.symm rfl
      rw [hitems]
      exact List.mem_cons_of_mem _ hi
  next hstep =>
    have hempty := step_eq_none hstep
    split_ifs with hdrained hend
    · exact h.replace hex hmans.symm rfl fun _ _ => rfl
    · exact h.leave hex hmans hend.2.1
    · exact h.replace hex hmans.symm rfl fun hidle hne => absurd (hempty hidle) hne

/-- `take_turn` on the worker sleeps only while somebody holds the queue. -/
theorem turnLoop {t : τ ⊕ ℕ} {p : Phase} {turn : Turn} {c : Code} (h : (w.setPhase t p).Attended)
    (hex : w.Exists t) (hmans : p.mans = true) (hworker : c.onWorker = true)
    (hsound : c.sound = true) : (w.turnLoop t turn c).Attended := by
  have hboth : (c.onWorker && c.sound) = true := by rw [hworker, hsound]; rfl
  rw [World.turnLoop]
  split_ifs with hgiven hown
  · exact h.replace hex (hmans ▸ hworker) hsound fun _ _ => hworker
  · exact h.take w.given hex (by decide) (fun i hi => List.mem_of_mem_tail hi) (hmans ▸ hworker)
      hsound
  · split
    next id v hstep =>
      obtain ⟨-, ⟨id', rest, heq, hitems, rfl⟩ | ⟨turn, rest, heq, -⟩⟩ := step_eq_some hstep
      · refine h.take w.given hex (by decide) (fun i hi => ?_) hmans.symm hboth
        rw [hitems]
        exact List.mem_cons_of_mem _ hi
      · cases heq
    next turn' v hstep =>
      obtain ⟨-, ⟨id', rest, heq, -⟩ | ⟨turn'', rest, heq, hitems, rfl⟩⟩ := step_eq_some hstep
      · cases heq
      · refine h.take (turn'' :: w.given) hex (by decide) (fun i hi => ?_) hmans.symm hboth
        rw [hitems]
        exact List.mem_cons_of_mem _ hi
    next hstep =>
      exact h.replace hex hmans.symm hboth fun hidle hne =>
        absurd (step_eq_none hstep hidle) hne

theorem takeTurn (h : w.Attended) {t : τ ⊕ ℕ} {c : Code} (hex : w.Exists t)
    (ht : w.threads t = .code c) : (w.takeTurn t c).Attended := by
  have hsound : c.sound = true := by
    have hsound := h.sound t
    rwa [ht] at hsound
  have hmans : (w.threads t).mans = c.onWorker := by rw [ht]; rfl
  have hblocks : ∀ turn id, .block id ∈ w.items ++ [Item.caller turn] → .block id ∈ w.items := by
    intro turn id hid
    rcases List.mem_append.mp hid with hid | hid
    · exact hid
    · cases List.mem_singleton.mp hid
  rw [World.takeTurn]
  split_ifs with hidle hworker
  · exact h.keep hex rfl rfl rfl hmans.symm hsound (by rintro _ ⟨⟩) (by rintro ⟨⟩)
  · have hawake : ((w.push (.caller ⟨w.queued.length, c.onWorker⟩)).setPhase t
        (.turnWoken ⟨w.queued.length, c.onWorker⟩ c)).Attended := by
      refine h.keep hex rfl rfl rfl (hmans.trans hworker).symm ?_ (fun id hid => .inl ?_)
        fun _ _ => ⟨?_, t, ?_⟩
      · change (c.onWorker && c.sound) = true
        rw [hworker, hsound]
        rfl
      · exact hblocks _ id hid
      · exact h.alive.mpr ⟨t, hmans.trans hworker⟩
      · rw [threads_setPhase_self]
        rfl
    exact hawake.turnLoop hex rfl hworker hsound
  · have hoff : c.onWorker = false := eq_false_of_ne_true hworker
    refine h.keep hex rfl rfl rfl hmans.symm ?_ (fun id hid => .inl (hblocks _ id hid))
      fun howner _ => ?_
    · change (!c.onWorker && c.sound) = true
      rw [hoff, hsound]
      rfl
    · obtain ⟨halive, t', ht'⟩ := h.attended howner fun hitems => hidle ⟨howner, hitems⟩
      have hne : t' ≠ t := by
        rintro rfl
        rw [ht] at ht'
        exact hworker ht'
      refine ⟨halive, t', ?_⟩
      rwa [threads_setPhase_of_ne _ hne]

theorem giveUp (h : w.Attended) {t : τ ⊕ ℕ} {turn : Turn} {c : Code}
    (ht : w.threads t = .code (.inSync turn c)) : (w.giveUp t turn c).Attended := by
  have hex : w.Exists t := h.exists_of_ne (by rw [ht]; rintro ⟨⟩)
  have hsound : c.sound = true := by
    have hsound := h.sound t
    rwa [ht] at hsound
  have hmans : (w.threads t).mans = c.onWorker := by rw [ht]; rfl
  rw [World.giveUp]
  split
  next next rest hitems =>
    refine h.keep (p := if next.onWorker then .notifying c else .code c) hex rfl rfl rfl ?_ ?_ ?_
      (by rintro ⟨⟩)
    · split_ifs <;> exact hmans.symm
    · split_ifs <;> exact hsound
    · intro id hid
      change w.items = _ at hitems
      rw [hitems]
      exact .inl (List.mem_cons_of_mem _ hid)
  next hcaller =>
    change ∀ next rest, w.items = .caller next :: rest → False at hcaller
    split_ifs with hitems
    · refine h.done hex hmans.symm hsound rfl fun _ => ?_
      cases heq : w.items with
      | nil => exact absurd heq hitems
      | cons it rest =>
        cases it with
        | block id => exact h.blocks id (heq ▸ List.mem_cons_self)
        | caller next => exact (hcaller next rest heq).elim
    · exact h.keep hex rfl rfl rfl hmans.symm hsound (fun _ => .inl) fun _ hne =>
        absurd hne hitems

/-- A block is queued by a thread that is to notify the worker, or to start one. -/
theorem submit (h : w.Attended) {t : τ ⊕ ℕ} {c : Code} (hex : w.Exists t)
    (ht : w.threads t = .code c) : (w.submit t c).Attended := by
  have hsound : c.sound = true := by
    have hsound := h.sound t
    rwa [ht] at hsound
  have hmans : (w.threads t).mans = c.onWorker := by rw [ht]; rfl
  cases hworker : w.worker with
  | true =>
    refine h.keep (p := .submitted (!w.worker) c) hex rfl hworker.symm rfl ?_ ?_
      (fun _ _ => .inr hworker) fun _ _ => ⟨hworker, t, ?_⟩
    · rw [hworker, hmans]
      rfl
    · rw [hworker]
      exact hsound
    · change ((World.setPhase _ t _).threads t).acts = true
      rw [threads_setPhase_self]
      rfl
  | false =>
    have hnone : ∀ t', (w.threads t').mans ≠ true := fun t' ht' => by
      have halive := h.alive.mpr ⟨t', ht'⟩
      rw [hworker] at halive
      cases halive
    have hself : (w.submit t c).threads t = .submitted true c := by
      change (World.setPhase _ t _).threads t = _
      rw [threads_setPhase_self, hworker]
      rfl
    have hothers : ∀ t', t' ≠ t → (w.submit t c).threads t' = w.threads t' := fun t' hne =>
      threads_setPhase_of_ne _ hne _
    have hme : ∀ t', ((w.submit t c).threads t').mans = true → t' = t := by
      intro t' ht'
      by_contra hne
      rw [hothers t' hne] at ht'
      exact hnone t' ht'
    refine ⟨fun t₁ t₂ h₁ h₂ => (hme t₁ h₁).trans (hme t₂ h₂).symm, ⟨fun _ => ⟨t, ?_⟩, fun _ => rfl⟩,
      fun t' => ?_, fun n hn => ?_, fun _ _ => rfl, fun _ _ => ⟨rfl, t, ?_⟩⟩
    · rw [hself]
      rfl
    · rcases eq_or_ne t' t with rfl | hne
      · rw [hself]
        have hoff : c.onWorker = false := eq_false_of_ne_true (hmans ▸ hnone t')
        change (!c.onWorker && c.sound) = true
        rw [hoff, hsound]
        rfl
      · rw [hothers t' hne]
        exact h.sound t'
    · have hne : .inr n ≠ t := by
        rintro rfl
        exact Nat.not_le.mpr hex hn
      rw [hothers _ hne]
      exact h.unborn n hn
    · rw [hself]
      rfl

/-- The worker that was to start has started. -/
theorem startWorker (h : w.Attended) {t : τ ⊕ ℕ} {c : Code}
    (ht : w.threads t = .submitted true c) : (w.startWorker t c).Attended := by
  have hex : w.Exists t := h.exists_of_ne (by rw [ht]; nofun)
  have hmans : (w.threads t).mans = true := by rw [ht]; rfl
  have hoff : c.onWorker = false ∧ c.sound = true := by
    have hsound := h.sound t
    rw [ht] at hsound
    change (!c.onWorker && c.sound) = true at hsound
    simpa using hsound
  have hborn : (w.startWorker t c).threads (.inr w.workers) = .code .drain :=
    Function.update_self _ _ _
  have hothers : ∀ t', t' ≠ .inr w.workers →
      (w.startWorker t c).threads t' = (w.setPhase t (.code c)).threads t' := fun t' hne =>
    Function.update_of_ne hne _ _
  have hme : ∀ t', ((w.startWorker t c).threads t').mans = true → t' = .inr w.workers := by
    intro t' ht'
    by_contra hne
    rw [hothers t' hne] at ht'
    rcases eq_or_ne t' t with rfl | hne'
    · rw [threads_setPhase_self] at ht'
      change c.onWorker = true at ht'
      rw [hoff.1] at ht'
      cases ht'
    · rw [threads_setPhase_of_ne _ hne'] at ht'
      exact hne' (h.alone t' t ht' hmans)
  have hworker : w.worker = true := h.alive.mpr ⟨t, hmans⟩
  refine ⟨fun t₁ t₂ h₁ h₂ => (hme t₁ h₁).trans (hme t₂ h₂).symm,
    ⟨fun _ => ⟨.inr w.workers, ?_⟩, fun _ => hworker⟩, fun t' => ?_, fun n hn => ?_,
    fun _ _ => hworker, fun _ _ => ⟨hworker, .inr w.workers, ?_⟩⟩
  · rw [hborn]
    rfl
  · rcases eq_or_ne t' (.inr w.workers) with rfl | hne
    · rw [hborn]
      rfl
    · rw [hothers t' hne]
      rcases eq_or_ne t' t with rfl | hne'
      · rw [threads_setPhase_self]
        exact hoff.2
      · rw [threads_setPhase_of_ne _ hne']
        exact h.sound t'
  · have hlt : w.workers < n := hn
    have hne : (.inr n : τ ⊕ ℕ) ≠ .inr w.workers := fun heq =>
      Nat.ne_of_gt hlt (Sum.inr.inj heq)
    have hne' : .inr n ≠ t := by
      rintro rfl
      exact Nat.not_le.mpr hex (Nat.le_of_lt hlt)
    rw [hothers _ hne, threads_setPhase_of_ne _ hne']
    exact h.unborn n (Nat.le_of_lt hlt)
  · rw [hborn]
    rfl

/-- A wait on the queue's condition ends. -/
theorem woke (h : w.Attended) {t : τ ⊕ ℕ} {p : Phase} (ht : (w.threads t).woke = some p) :
    (w.setPhase t p).Attended := by
  obtain ⟨hmans, hsound, hacts, -⟩ := Phase.mans_of_woke ht
  have hex : w.Exists t := h.exists_of_ne fun hout => by
    rw [hout] at ht
    cases ht
  exact h.goOn hex hmans (hsound.trans (h.sound t)) fun _ => hacts

/-- A notify wakes the worker. -/
theorem notifyOne (h : w.Attended) {t t' : τ ⊕ ℕ} {c : Code} {p : Phase}
    (ht : (w.threads t).notifies = some c) (ht' : (w.threads t').woke = some p) :
    ((w.setPhase t (.code c)).setPhase t' p).Attended := by
  have hne : t' ≠ t := by
    rintro rfl
    rw [Phase.woke_of_notifies ht] at ht'
    cases ht'
  obtain ⟨hmans, hsound, -⟩ := Phase.mans_of_notifies ht
  have hex : w.Exists t := h.exists_of_ne fun hout => by
    rw [hout] at ht
    cases ht
  refine (h.woke ht').keep (t := t) (p := .code c) hex (Function.update_comm hne.symm _ _ _) rfl rfl
    ?_ ?_ (fun _ => .inl) fun howner hitems => ⟨(h.attended howner hitems).1, t', ?_⟩
  · rw [threads_setPhase_of_ne _ hne.symm]
    exact hmans.symm
  · exact hsound.symm.trans (h.sound t)
  · rw [threads_setPhase_self]
    exact (Phase.mans_of_woke ht').2.2.1

/-- Where a notify wakes nobody the worker is awake. -/
theorem notifyNone (h : w.Attended) {t : τ ⊕ ℕ} {c : Code} (ht : (w.threads t).notifies = some c)
    (hnone : ∀ t', (w.threads t').woke = none) : (w.setPhase t (.code c)).Attended := by
  obtain ⟨hmans, hsound, -⟩ := Phase.mans_of_notifies ht
  have hex : w.Exists t := h.exists_of_ne fun hout => by
    rw [hout] at ht
    cases ht
  refine h.keep hex rfl rfl rfl hmans.symm (hsound.symm.trans (h.sound t)) (fun _ => .inl)
    fun howner hitems => ?_
  have hworker := (h.attended howner hitems).1
  obtain ⟨t', ht'⟩ := h.alive.mp hworker
  refine ⟨hworker, t', ?_⟩
  rcases eq_or_ne t' t with rfl | hne
  · rw [threads_setPhase_self]
    exact hmans.symm.trans ht'
  · rw [threads_setPhase_of_ne _ hne]
    exact Phase.acts_of_mans ht' (h.sound t') (hnone t')

/-- Every step keeps the queue attended. -/
theorem step (h : w.Attended) {a : Action τ} (hs : Step w a w') : w'.Attended := by
  have hborn : ∀ {t : τ ⊕ ℕ} {p : Phase}, w.threads t = p → p ≠ .code .outside → w.Exists t :=
    fun ht hne => h.exists_of_ne (ht ▸ hne)
  have hsound : ∀ {t : τ ⊕ ℕ} {p : Phase}, w.threads t = p → p.sound = true := fun ht =>
    ht ▸ h.sound _
  have hcode : ∀ {t : τ ⊕ ℕ} {c : Code}, w.threads t = .code c → c.sound = true := fun ht =>
    hsound ht
  have hsame : ∀ {t : τ ⊕ ℕ} {p : Phase}, w.threads t = p → (w.setPhase t p).Attended := by
    rintro t p rfl
    rwa [setPhase_threads]
  cases hs with
  | execAsync hex ht => exact h.submit hex ht
  | sync hex ht => exact h.takeTurn hex ht
  | syncNested ht howns =>
    have hc := hcode ht
    refine h.goOn (hborn ht ?_) (by rw [ht]; rfl) hc fun hacts => by rwa [ht] at hacts
    intro heq
    obtain rfl := Phase.code.inj heq
    cases howns
  | @dropHandle t c hex ht =>
    have hdrop : (w.setPhase t (.notifying c)).Attended :=
      h.goOn hex (by rw [ht]; rfl) (hcode ht) fun _ => rfl
    exact ⟨hdrop.alone, hdrop.alive, hdrop.sound, hdrop.unborn, hdrop.blocks, hdrop.attended⟩
  | drained ht => exact (hsame ht).loop (hborn ht (by rintro ⟨⟩)) rfl true
  | @blockRan t id ht =>
    have hdone : ((w.done (.block id)).setPhase t (.woken false)).Attended :=
      h.done (hborn ht (by rintro ⟨⟩)) (by rw [ht]; rfl) rfl rfl fun _ => h.alive.mpr ⟨t,
        by rw [ht]; rfl⟩
    exact hdone.loop (hborn ht (by rintro ⟨⟩)) rfl false
  | @turnBlockRan t id turn c ht =>
    have hboth : (c.onWorker && c.sound) = true := hsound ht
    have hdone : ((w.done (.block id)).setPhase t (.turnWoken turn c)).Attended :=
      h.done (hborn ht (by rintro ⟨⟩)) (by rw [ht]; rfl) hboth rfl
        fun _ => h.alive.mpr ⟨t, by rw [ht]; rfl⟩
    obtain ⟨hworker, hc⟩ := (Bool.and_eq_true _ _).mp hboth
    exact hdone.turnLoop (hborn ht (by rintro ⟨⟩)) rfl hworker hc
  | sectionRan ht => exact h.giveUp ht
  | nestedRan ht =>
    have hc := hcode ht
    exact h.goOn (hborn ht (by rintro ⟨⟩)) (by rw [ht]; rfl) hc fun hacts => by rwa [ht] at hacts
  | start ht => exact h.startWorker ht
  | notifyOne ht ht' => exact h.notifyOne ht ht'
  | notifyNone ht hnone => exact h.notifyNone ht hnone
  | @turned t turn c ht _ =>
    have hboth : (!c.onWorker && c.sound) = true := hsound ht
    refine h.goOn (hborn ht (by rintro ⟨⟩)) (by rw [ht]; rfl) ((Bool.and_eq_true _ _).mp hboth).2
      fun hacts => ?_
    rw [ht] at hacts
    cases hacts
  | @woken t timedOut ht =>
    rw [wake]
    split_ifs with hend
    · exact (hsame ht).leave (hborn ht (by rintro ⟨⟩)) rfl hend.2.2
    · exact (hsame ht).loop (hborn ht (by rintro ⟨⟩)) rfl true
  | @turnWoken t turn c ht =>
    obtain ⟨hworker, hc⟩ := (Bool.and_eq_true _ _).mp (hsound ht)
    exact (hsame ht).turnLoop (hborn ht (by rintro ⟨⟩)) rfl hworker hc
  | spurious ht => exact h.woke ht
  | timeout ht => exact h.goOn (hborn ht (by rintro ⟨⟩)) (by rw [ht]; rfl) rfl fun _ => rfl

end Attended

theorem attended_new : (new : World τ).Attended := by
  have hthreads : ∀ t, (new : World τ).threads t =
      if t = .inr 0 then .code .drain else .code .outside := fun _ => rfl
  have hmans : ∀ t, ((new : World τ).threads t).mans = true → t = .inr 0 := by
    intro t ht
    by_contra hne
    rw [hthreads, if_neg hne] at ht
    cases ht
  refine ⟨fun t t' ht ht' => (hmans t ht).trans (hmans t' ht').symm,
    ⟨fun _ => ⟨.inr 0, rfl⟩, fun _ => rfl⟩, fun t => ?_, fun n hn => ?_, nofun,
    fun _ hne => absurd rfl hne⟩
  · rw [hthreads]
    split_ifs <;> rfl
  · have hne : (.inr n : τ ⊕ ℕ) ≠ .inr 0 := fun heq => by
      rw [Sum.inr.inj heq] at hn
      exact Nat.not_succ_le_zero 0 hn
    rw [hthreads, if_neg hne]

/-! ### Runs -/

/-- Every reachable state is owned and attended. -/
theorem owned_attended {as : List (Action τ)} (h : Execution Step new as w) :
    w.Owned ∧ w.Attended := by
  induction h with
  | nil => exact ⟨owned_new, attended_new⟩
  | snoc _ hs ih => exact ⟨ih.1.step (ih.2.unborn _ (Nat.le_refl _)) hs, ih.2.step hs⟩

/-- A thread that sees to the queue has a step left. -/
theorem exists_step_of_acts {t : τ ⊕ ℕ} (h : (w.threads t).acts = true) :
    ∃ a w', a.own = true ∧ Step w a w' := by
  have hnotify : ∀ {c : Code}, (w.threads t).notifies = some c →
      ∃ a w', a.own = true ∧ Step w a w' := by
    intro c hc
    by_cases hwoke : ∃ t' p, (w.threads t').woke = some p
    · obtain ⟨t', p, ht'⟩ := hwoke
      exact ⟨.goOn t, _, rfl, .notifyOne hc ht'⟩
    · refine ⟨.goOn t, _, rfl, .notifyNone hc fun t' => ?_⟩
      exact Option.eq_none_iff_forall_ne_some.mpr fun p ht' => hwoke ⟨t', p, ht'⟩
  cases ht : w.threads t with
  | code c =>
    rw [ht] at h
    cases c with
    | outside => cases h
    | drain => exact ⟨.returns t, _, rfl, .drained ht⟩
    | block id => exact ⟨.returns t, _, rfl, .blockRan ht⟩
    | turnBlock id turn c => exact ⟨.returns t, _, rfl, .turnBlockRan ht⟩
    | inSync turn c => exact ⟨.returns t, _, rfl, .sectionRan ht⟩
    | nested c => exact ⟨.returns t, _, rfl, .nestedRan ht⟩
  | submitted start c =>
    cases start with
    | true => exact ⟨.goOn t, _, rfl, .start ht⟩
    | false => exact hnotify (c := c) (by rw [ht]; rfl)
  | notifying c => exact hnotify (c := c) (by rw [ht]; rfl)
  | woken timedOut => exact ⟨.goOn t, _, rfl, .woken ht⟩
  | turnWoken turn c => exact ⟨.goOn t, _, rfl, .turnWoken ht⟩
  | waiting | asleep | turnAsleep =>
    rw [ht] at h
    cases h

/-! ### A worker's end -/

/-- A step of one thread that does not end it. -/
theorem onWorker_of_update {t t' : τ ⊕ ℕ} {p : Phase}
    (hthreads : w'.threads = Function.update w.threads t p)
    (hp : (w.threads t).onWorker = true → p.onWorker = true)
    (ht' : (w.threads t').onWorker = true) : (w'.threads t').onWorker = true := by
  rw [hthreads]
  rcases eq_or_ne t' t with rfl | hne
  · rw [Function.update_self]
    exact hp ht'
  · rwa [Function.update_of_ne hne]

theorem loop_ends (w : World τ) (t : τ ⊕ ℕ) (drained : Bool) :
    (∃ p : Phase, p.onWorker = true ∧
        (w.loop t drained).threads = Function.update w.threads t p) ∨
      (w.loop t drained).items = [] ∧ (w.loop t drained).owner = .idle := by
  rw [World.loop]
  split
  next id v hstep =>
    obtain ⟨-, ⟨id', rest, -, -, rfl⟩ | ⟨turn, rest, heq, -⟩⟩ := step_eq_some hstep
    · exact .inl ⟨.code (.block id), rfl, rfl⟩
    · cases heq
  next turn v hstep =>
    obtain ⟨-, ⟨id', rest, heq, -⟩ | ⟨turn', rest, -, -, rfl⟩⟩ := step_eq_some hstep
    · cases heq
    · exact .inl ⟨.code .drain, rfl, rfl⟩
  next =>
    split_ifs with hdrained hend
    · exact .inl ⟨.code .drain, rfl, rfl⟩
    · exact .inr ⟨hend.2.1, hend.1⟩
    · exact .inl ⟨.asleep, rfl, rfl⟩

theorem turnLoop_stays (w : World τ) (t : τ ⊕ ℕ) (turn : Turn) (c : Code) :
    ∃ p : Phase, (c.onWorker = true → p.onWorker = true) ∧
      (w.turnLoop t turn c).threads = Function.update w.threads t p := by
  rw [World.turnLoop]
  split_ifs
  · exact ⟨.code (.inSync turn c), id, rfl⟩
  · exact ⟨.code (.inSync turn c), id, rfl⟩
  · split
    next id v hstep =>
      obtain ⟨-, ⟨id', rest, -, -, rfl⟩ | ⟨turn', rest, heq, -⟩⟩ := step_eq_some hstep
      · exact ⟨.code (.turnBlock id turn c), fun _ => rfl, rfl⟩
      · cases heq
    next turn' v hstep =>
      obtain ⟨-, ⟨id', rest, heq, -⟩ | ⟨turn'', rest, -, -, rfl⟩⟩ := step_eq_some hstep
      · cases heq
      · exact ⟨.turnAsleep turn c, fun _ => rfl, rfl⟩
    next => exact ⟨.turnAsleep turn c, fun _ => rfl, rfl⟩

/-- A worker ends only when nothing is queued and nobody holds the queue. -/
theorem Attended.ended (h : w.Attended) {a : Action τ} (hs : Step w a w') {t : τ ⊕ ℕ}
    (ht : (w.threads t).onWorker = true) (hends : (w'.threads t).onWorker = false) :
    w'.items = [] ∧ w'.owner = .idle := by
  have hkeep : ∀ {t₀ : τ ⊕ ℕ} {p : Phase}, w'.threads = Function.update w.threads t₀ p →
      ((w.threads t₀).onWorker = true → p.onWorker = true) → w'.items = [] ∧ w'.owner = .idle := by
    intro t₀ p hthreads hp
    have hstays := onWorker_of_update hthreads hp ht
    rw [hends] at hstays
    cases hstays
  have hsame : ∀ {t₀ : τ ⊕ ℕ} {c c' : Code}, w.threads t₀ = .code c → c.onWorker = c'.onWorker →
      (w.threads t₀).onWorker = true → c'.onWorker = true := by
    intro t₀ c c' hc heq hon
    rw [hc] at hon
    exact heq.symm.trans hon
  have hturn : ∀ {v : World τ} {t₀ : τ ⊕ ℕ} {turn : Turn} {c : Code}, w' = v.turnLoop t₀ turn c →
      v.threads = w.threads → c.onWorker = true → w'.items = [] ∧ w'.owner = .idle := by
    rintro v t₀ turn c rfl hthreads hworker
    obtain ⟨p, hp, heq⟩ := v.turnLoop_stays t₀ turn c
    exact hkeep (heq.trans (by rw [hthreads])) fun _ => hp hworker
  have hloop : ∀ {v : World τ} {t₀ : τ ⊕ ℕ} {drained : Bool}, w' = v.loop t₀ drained →
      v.threads = w.threads → w'.items = [] ∧ w'.owner = .idle := by
    rintro v t₀ drained rfl hthreads
    rcases v.loop_ends t₀ drained with ⟨p, hp, heq⟩ | hempty
    · exact hkeep (heq.trans (by rw [hthreads])) fun _ => hp
    · exact hempty
  cases hs with
  | execAsync _ hc => exact hkeep rfl (hsame hc rfl)
  | @sync t₀ c _ hc =>
    have htaken : (w.threads t₀).onWorker = true → c.onWorker = true := hsame hc rfl
    by_cases hidle : w.owner = .idle ∧ w.items = []
    · refine hkeep (p := .code (.inSync ⟨w.queued.length, c.onWorker⟩ c)) ?_ htaken
      rw [World.takeTurn, if_pos hidle]
      rfl
    · by_cases hworker : c.onWorker = true
      · have heq : w.takeTurn t₀ c = (w.push (.caller ⟨w.queued.length, c.onWorker⟩)).turnLoop t₀
            ⟨w.queued.length, c.onWorker⟩ c := by
          rw [World.takeTurn, if_neg hidle, if_pos hworker]
        exact hturn heq rfl hworker
      · refine hkeep (p := .waiting ⟨w.queued.length, c.onWorker⟩ c) ?_ htaken
        rw [World.takeTurn, if_neg hidle, if_neg hworker]
        rfl
  | syncNested hc _ => exact hkeep rfl (hsame hc rfl)
  | dropHandle _ hc => exact hkeep rfl (hsame hc rfl)
  | drained => exact hloop rfl rfl
  | blockRan => exact hloop rfl rfl
  | @turnBlockRan t₀ id turn c hc =>
    have hsound := h.sound t₀
    rw [hc] at hsound
    exact hturn rfl rfl ((Bool.and_eq_true _ _).mp hsound).1
  | @sectionRan t₀ turn c hc =>
    have hthreads : ∃ p : Phase, (p = .code c ∨ p = .notifying c) ∧
        (w.giveUp t₀ turn c).threads = Function.update w.threads t₀ p := by
      rw [World.giveUp]
      split
      next => split_ifs <;> exact ⟨_, by simp, rfl⟩
      next => split_ifs <;> exact ⟨_, by simp, rfl⟩
    have hran : (w.threads t₀).onWorker = true → c.onWorker = true := hsame hc rfl
    obtain ⟨p, rfl | rfl, heq⟩ := hthreads
    · exact hkeep heq hran
    · exact hkeep heq hran
  | nestedRan hc => exact hkeep rfl (hsame hc rfl)
  | @start t₀ c hc =>
    have hcode : ((w.setPhase t₀ (.code c)).threads t).onWorker = true :=
      onWorker_of_update rfl (fun hon => by rwa [hc] at hon) ht
    have hstays : ((w.startWorker t₀ c).threads t).onWorker = true :=
      onWorker_of_update rfl (fun _ => rfl) hcode
    rw [hends] at hstays
    cases hstays
  | @notifyOne t₀ t₁ c p hc hwoke =>
    have hcode : ((w.setPhase t₀ (.code c)).threads t).onWorker = true :=
      onWorker_of_update rfl (fun hon => (Phase.mans_of_notifies hc).2.2.symm.trans hon) ht
    have hstays : (((w.setPhase t₀ (.code c)).setPhase t₁ p).threads t).onWorker = true :=
      onWorker_of_update rfl (fun _ => (Phase.mans_of_woke hwoke).2.2.2) hcode
    rw [hends] at hstays
    cases hstays
  | notifyNone hc _ => exact hkeep rfl fun hon => (Phase.mans_of_notifies hc).2.2.symm.trans hon
  | @turned t₀ turn c hc _ => exact hkeep rfl fun hon => by rwa [hc] at hon
  | @woken t₀ timedOut hc =>
    by_cases hend : timedOut = true ∧ w.owner = .idle ∧ w.items = []
    · rw [wake, if_pos hend]
      exact ⟨hend.2.2, hend.2.1⟩
    · have heq : w.wake t₀ timedOut = w.loop t₀ true := by rw [wake, if_neg hend]
      exact hloop heq rfl
  | @turnWoken t₀ turn c hc =>
    have hsound := h.sound t₀
    rw [hc] at hsound
    exact hturn rfl rfl ((Bool.and_eq_true _ _).mp hsound).1
  | spurious hwoke => exact hkeep rfl fun _ => (Phase.mans_of_woke hwoke).2.2.2
  | timeout => exact hkeep rfl fun _ => rfl

/-- In every run: the items are those finished, the one that holds the queue, run by its thread or
its turn given to a caller that waits for it, and those queued, in the order of queueing and each
once; one item runs at a time, once everything queued before it has finished; a queued caller waits;
a worker ends only when nothing is queued and nobody holds the queue; and while something is queued
and nobody holds the queue, some thread has a step left that is no new call, wake or timeout. -/
theorem serial_fifo {as : List (Action τ)} (h : Execution Step new as w) :
    (w.queued = w.started ++ w.items ∧ w.queued.map Item.id = List.range w.queued.length) ∧
    (w.owner = .idle ∧ w.started = w.finished ∨
      w.owner ≠ .idle ∧ ∃ it, w.started = w.finished ++ [it] ∧
        ∃ t, it ∈ (w.threads t).running ∨
          ∃ turn ∈ (w.threads t).awaiting, turn ∈ w.given ∧ it = .caller turn) ∧
    (∀ t, (w.threads t).running.length ≤ 1) ∧
    (∀ t t', ∀ it ∈ (w.threads t).running, ∀ it' ∈ (w.threads t').running, t = t' ∧ it = it') ∧
    (∀ t, ∀ it ∈ (w.threads t).running, w.queued = w.finished ++ it :: w.items) ∧
    (∀ turn, .caller turn ∈ w.items → ∃ t, turn ∈ (w.threads t).awaiting) ∧
    (∀ a w', Step w a w' → ∀ t, (w.threads t).onWorker = true → (w'.threads t).onWorker = false →
      w'.items = [] ∧ w'.owner = .idle) ∧
    (w.items ≠ [] → w.owner = .idle → ∃ a w', a.own = true ∧ Step w a w') := by
  obtain ⟨howned, hattended⟩ := owned_attended h
  have hsame : ∀ t t', ∀ it ∈ (w.threads t).running, ∀ it' ∈ (w.threads t').running,
      t = t' ∧ it = it' := by
    intro t t' it hit it' hit'
    have heq := (howned.running t it hit).symm.trans (howned.running t' it' hit')
    obtain rfl := List.singleton_inj.mp (List.append_cancel_left heq)
    refine ⟨?_, rfl⟩
    by_contra hne
    exact howned.disjoint t t' hne (List.mem_append_left _ hit) (List.mem_append_left _ hit')
  refine ⟨⟨howned.order, howned.ids⟩, ?_, fun t => ?_, hsame, fun t it hit => ?_, howned.waits,
    fun a w' hs t ht hends => hattended.ended hs ht hends, fun hitems howner => ?_⟩
  · have hheld := howned.owner
    rw [HeldBy] at hheld
    cases howner : w.owner with
    | idle => exact .inl ⟨rfl, (howned.heldBy_idle howner).symm⟩
    | worker =>
      rw [howner] at hheld
      obtain ⟨id, hid⟩ := hheld
      exact .inr ⟨by rintro ⟨⟩, _, hid, howned.runs _ hid⟩
    | caller =>
      rw [howner] at hheld
      obtain ⟨turn, hturn⟩ := hheld
      exact .inr ⟨by rintro ⟨⟩, _, hturn, howned.runs _ hturn⟩
  · have hnodup : (w.threads t).running.Nodup := List.Nodup.of_append_left (howned.nodup t)
    cases hrun : (w.threads t).running with
    | nil => exact Nat.zero_le _
    | cons it rest =>
      cases rest with
      | nil => exact Nat.le_refl _
      | cons it' rest =>
        have heq := (hsame t t it (by simp [hrun]) it' (by simp [hrun])).2
        simp [hrun, heq] at hnodup
  · rw [howned.order, howned.running t it hit, List.append_assoc]
    rfl
  · obtain ⟨-, t, ht⟩ := hattended.attended howner hitems
    exact exists_step_of_acts ht

/-- A caller syncs while another's block runs. -/
theorem serial_fifo_syncBehind : ∃ w : World Bool,
    Execution Step new [.execAsync (.inl false), .returns (.inr 0), .sync (.inl true) false] w ∧
      (w.threads (.inr 0)).running = [.block 0] ∧ w.items = [.caller ⟨1, false⟩] ∧
      w.queued = w.finished ++ .block 0 :: w.items := by
  have hrun : Execution Step (new : World Bool) [.execAsync (.inl false), .returns (.inr 0),
      .sync (.inl true) false] _ :=
    .snoc (.snoc (.snoc (.nil _) (.execAsync (c := .outside) trivial rfl)) (.drained rfl))
      (.sync (c := .outside) trivial rfl)
  exact ⟨_, hrun, rfl, rfl, (serial_fifo hrun).2.2.2.2.1 (.inr 0) (.block 0) (.head _)⟩

end World

end ReimsVgpu.Rt.Queue
