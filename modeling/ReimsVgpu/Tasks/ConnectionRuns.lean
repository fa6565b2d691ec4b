import ReimsVgpu.Library.Execution
import ReimsVgpu.Tasks.Connection

/-!
# Runs of a connection

What holds in every state a connection reaches, whatever the order of its steps. A reply that was
sent is in one place: in the table, on the link's queue, run, or released. What was handed to the
link's queue runs in this order, and nothing but the invalidation follows an end.

## Main definitions

* `Connection.waiting`: what the link's queue has not run yet.
* `Connection.Replies`: every reply is in one place.
* `Connection.Ends`: what the flags, the queues and the table have to do with each other.

## Main results

* `Connection.replies_step`, `Connection.ends_step`: every step keeps them.
* `Connection.link_protocol`: what the host and its replies see in every run.
-/

namespace ReimsVgpu.Tasks

/-- An event is the run of a reply. -/
def HostEvent.isReply {M : Type*} (n : ℕ) : HostEvent M → Bool
  | HostEvent.reply r _ => r = n
  | _ => false

/-- An event is an end. -/
def HostEvent.isEnd {M : Type*} : HostEvent M → Bool
  | .ended _ => true
  | _ => false

/-- An event is the end that is told. -/
def HostEvent.tells {M : Type*} (e : ConnectionEnd) : HostEvent M → Bool
  | .ended e' => e' = e
  | _ => false

/-- A block is the end. -/
def ConnectionBlock.ends {S : Type*} (e : ConnectionEnd) : ConnectionBlock S → Bool
  | .ending e' => e' = e
  | _ => false

namespace Connection

variable {S M : Type*} {c c' : Connection S M}

/-! ### Replies -/

/-- What the link's queue has not run yet. -/
def waiting (c : Connection S M) : List (HostEvent M) :=
  match c.linkWork with
  | some (.running event _) => event :: c.linkQueue
  | _ => c.linkQueue

/-- How often a reply is in the table. -/
def inTable (c : Connection S M) (n : ℕ) : ℕ := ((c.pending.getD []).map (·.reply)).count n

/-- How often a reply is on the link's queue. -/
def queued (c : Connection S M) (n : ℕ) : ℕ := c.waiting.countP (·.isReply n)

/-- How often a reply was run. -/
def runs (c : Connection S M) (n : ℕ) : ℕ := c.ran.countP (·.isReply n)

/-- How often a reply was released unrun. -/
def releases (c : Connection S M) (n : ℕ) : ℕ := c.released.count n

/-- Every reply that was sent is in one place, and no other reply is in any. -/
def Replies (c : Connection S M) : Prop :=
  ∀ n, c.inTable n + c.queued n + c.runs n + c.releases n = if n < c.sent then 1 else 0

theorem waiting_toHost (c : Connection S M) (event : HostEvent M) :
    (c.toHost event).waiting = c.waiting ++ [event] := by
  simp only [waiting, toHost]
  split <;> rfl

theorem count_takePending {id : UInt64} {table rest : List PendingReply} {p : PendingReply}
    (h : takePending id table = some (p, rest)) (n : ℕ) :
    (table.map (·.reply)).count n = (rest.map (·.reply)).count n + if p.reply = n then 1 else 0 := by
  induction table generalizing rest with
  | nil => cases h
  | cons q table ih =>
    rw [takePending] at h
    split_ifs at h with hid
    · obtain ⟨rfl, rfl⟩ := Prod.mk.inj (Option.some.inj h)
      simp [List.count_cons]
    · obtain ⟨⟨p', rest'⟩, hp, hq⟩ := Option.map_eq_some_iff.mp h
      obtain ⟨rfl, rfl⟩ := Prod.mk.inj hq
      simp only [List.map_cons, List.count_cons, ih hp]
      omega

theorem Replies.relay (h : Replies c) (type : ReplyType) : Replies (c.relay type) := by
  unfold Connection.relay
  dsimp only
  split
  · rename_i table htable
    intro n
    have hn := h n
    simp only [inTable, htable, Option.getD_some] at hn
    change ((table ++ [(⟨c.nextReply, type, c.sent⟩ : PendingReply)]).map (·.reply)).count n +
      c.queued n + c.runs n + c.releases n = if n < c.sent + 1 then 1 else 0
    simp only [List.map_append, List.map_cons, List.map_nil, List.count_append,
      List.count_singleton, beq_iff_eq]
    split_ifs at hn ⊢ <;> omega
  · intro n
    have hn := h n
    change c.inTable n + c.queued n + c.runs n + (c.released ++ [c.sent]).count n =
      if n < c.sent + 1 then 1 else 0
    simp only [releases] at hn
    simp only [List.count_append, List.count_singleton, beq_iff_eq]
    split_ifs at hn ⊢ <;> omega

theorem Replies.dropMessage (h : Replies c) (m : ToService S) : Replies (c.dropMessage m) := by
  unfold Connection.dropMessage
  split
  · intro n
    have hn := h n
    change c.inTable n + c.queued n + c.runs n + (c.released ++ [c.sent]).count n =
      if n < c.sent + 1 then 1 else 0
    simp only [releases] at hn
    simp only [List.count_append, List.count_singleton, beq_iff_eq]
    split_ifs at hn ⊢ <;> omega
  · exact h

theorem Replies.send (h : Replies c) (m : ToService S) : Replies (c.send m) := by
  unfold Connection.send
  dsimp only
  split_ifs
  · exact h.dropMessage m
  · exact h.dropMessage m
  · unfold relayMessage
    split
    · exact h.relay _
    · exact h

theorem Replies.toHost (h : Replies c) {event : HostEvent M}
    (hevent : ∀ n, event.isReply n = false) : Replies (c.toHost event) := by
  intro n
  have hqueued : (c.toHost event).queued n = c.queued n := by
    rw [queued, waiting_toHost, List.countP_append, List.countP_singleton, hevent]
    rfl
  have hn := h n
  rw [← hqueued] at hn
  exact hn

theorem Replies.relayCall (h : Replies c) (id : UInt64) (value : ReplyValue) :
    Replies (c.relayCall id value) := by
  unfold Connection.relayCall
  split_ifs
  · exact h
  split
  · exact h
  rename_i table htable
  split
  · exact h
  rename_i p rest htake
  have hcount := count_takePending htake
  split_ifs
  · intro n
    have hn := h n
    have hqueued : (Connection.toHost { c with pending := some rest }
        (.reply p.reply value)).queued n = c.queued n + if p.reply = n then 1 else 0 := by
      rw [queued, waiting_toHost, List.countP_append, List.countP_singleton]
      simp only [HostEvent.isReply, decide_eq_true_eq]
      rfl
    change (rest.map (·.reply)).count n + _ + c.runs n + c.releases n = _
    simp only [inTable, htable, Option.getD_some, hcount n] at hn
    rw [hqueued]
    change _ = if n < c.sent then 1 else 0
    omega
  · intro n
    have hn := h n
    change (rest.map (·.reply)).count n + c.queued n + c.runs n + (c.released ++ [p.reply]).count n =
      if n < c.sent then 1 else 0
    simp only [inTable, htable, Option.getD_some, hcount n, releases] at hn
    simp only [List.count_append, List.count_singleton, beq_iff_eq]
    omega

theorem Replies.finishBlock (h : Replies c) (work : ConnectionWork S) :
    Replies (c.finishBlock work) := by
  cases work with
  | delivering m =>
    unfold Connection.finishBlock
    dsimp only
    split_ifs
    · exact h
    · exact h
  | releasing e =>
    unfold Connection.finishBlock
    dsimp only
    split_ifs
    · exact h
    · exact Replies.toHost (c := { c with connectionWork := none, ended := true }) h fun n => rfl

theorem Replies.connectionStep (h : Replies c) (hstep : c.connectionStep = some c') :
    Replies c' := by
  unfold Connection.connectionStep at hstep
  split at hstep
  · obtain rfl := Option.some.inj hstep
    exact h.finishBlock _
  · split at hstep
    · cases hstep
    · rename_i block rest _
      obtain rfl := Option.some.inj hstep
      cases block with
      | deliver m =>
        simp only [beginBlock]
        split_ifs
        · exact h
        · exact h
      | ending e => exact h

theorem Replies.runEvent {event : HostEvent M} {host : Bool} (h : Replies c)
    (hwork : c.linkWork = some (.running event host)) : Replies (c.runEvent event host) := by
  intro n
  have hn := h n
  simp only [queued, waiting, hwork, List.countP_cons] at hn
  cases event with
  | message m =>
    have hruns : (c.runEvent (.message m) host).runs n = c.runs n := by
      cases host with
      | true => simp [Connection.runEvent, runs, HostEvent.isReply]
      | false => simp [Connection.runEvent, runs]
    rw [hruns]
    exact hn
  | reply r value =>
    have hruns : (c.runEvent (.reply r value) host).runs n =
        c.runs n + if HostEvent.isReply n (.reply r value : HostEvent M) then 1 else 0 := by
      rw [runs, Connection.runEvent, List.countP_append, List.countP_singleton, runs]
    rw [hruns]
    change c.inTable n + c.linkQueue.countP (·.isReply n) + _ + c.releases n = _
    change _ = if n < c.sent then 1 else 0
    omega
  | ended e =>
    have hruns : (c.runEvent (.ended e) host).runs n = c.runs n := by
      cases host with
      | true => simp [Connection.runEvent, runs, HostEvent.isReply]
      | false => simp [Connection.runEvent, runs]
    rw [hruns]
    exact hn

theorem Replies.releasePending (h : Replies c) : Replies c.releasePending := by
  intro n
  have hn := h n
  change 0 + c.queued n + c.runs n + (c.released ++ (c.pending.getD []).map (·.reply)).count n =
    if n < c.sent then 1 else 0
  rw [List.count_append]
  simp only [inTable, releases] at hn
  omega

theorem Replies.finishEvent {work : LinkWork M} (h : Replies c) (hwork : c.linkWork = some work) :
    Replies (c.finishEvent work) := by
  cases work with
  | running event host => exact h.runEvent hwork
  | releasing e =>
    -- The queue is not changed: an event that is being released has run.
    have hwaiting : c.waiting = c.linkQueue := by rw [waiting, hwork]
    have hreleased : Replies { c.releasePending with linkWork := none } := by
      intro n
      have hn := h.releasePending n
      rw [queued, show c.releasePending.waiting = c.linkQueue from hwaiting] at hn
      exact hn
    cases e with
    | died => exact hreleased
    | invalidated => exact hreleased
  | lettingGo =>
    have hwaiting : c.waiting = c.linkQueue := by rw [waiting, hwork]
    intro n
    have hn := h n
    rw [queued, hwaiting] at hn
    exact hn

theorem Replies.linkStep (h : Replies c) (hstep : c.linkStep = some c') : Replies c' := by
  unfold Connection.linkStep at hstep
  split at hstep
  · rename_i work hwork
    obtain rfl := Option.some.inj hstep
    exact h.finishEvent hwork
  · rename_i hwork
    split at hstep
    · cases hstep
    · rename_i event rest hqueue
      obtain rfl := Option.some.inj hstep
      intro n
      have hn := h n
      simp only [queued, waiting, hwork, hqueue] at hn
      exact hn

theorem Replies.invalidate (h : Replies c) : Replies c.invalidate := by
  unfold Connection.invalidate
  split_ifs
  · exact h
  · exact h

/-- Every step keeps every reply in one place. -/
theorem replies_step (h : Replies c) {action : LinkAction S M} (hstep : c.step action = some c') :
    Replies c' := by
  cases action with
  | serve =>
    obtain rfl := Option.some.inj hstep
    exact h
  | send m =>
    obtain rfl := Option.some.inj hstep
    exact h.send m
  | invalidate =>
    obtain rfl := Option.some.inj hstep
    exact h.invalidate
  | sendInvalidates =>
    simp only [step] at hstep
    split_ifs at hstep
    obtain rfl := Option.some.inj hstep
    exact Replies.invalidate (c := { c with invalidates := c.invalidates - 1 }) h
  | invalidateStep =>
    simp only [step, invalidateStep] at hstep
    split at hstep
    · obtain rfl := Option.some.inj hstep
      unfold exit
      split
      · exact h
      · exact h
    · obtain rfl := Option.some.inj hstep
      exact h
    · cases hstep
  | relayCall n value =>
    simp only [step] at hstep
    split at hstep
    · split_ifs at hstep
      obtain rfl := Option.some.inj hstep
      exact h.relayCall _ _
    · cases hstep
  | hostLinkSend m =>
    obtain rfl := Option.some.inj hstep
    unfold hostLinkSend
    split_ifs
    · exact h
    · exact h.toHost fun n => rfl
  | die =>
    obtain rfl := Option.some.inj hstep
    unfold die
    split
    · exact h
    · exact h
  | reportDeath =>
    obtain rfl := Option.some.inj hstep
    unfold reportDeath
    split_ifs
    · exact h
    · exact h
  | connectionStep => exact h.connectionStep hstep
  | linkStep => exact h.linkStep hstep

/-! ### Ends -/

/-- How many invalidations there are to tell or told. -/
def invalidations (c : Connection S M) : ℕ :=
  (match c.invalidation with | .begun | .exited => 1 | _ => 0) +
  c.connectionQueue.countP (·.ends .invalidated) +
  (match c.connectionWork with | some (.releasing .invalidated) => 1 | _ => 0) +
  c.handed.countP (·.tells .invalidated)

/-- What the flags, the queues and the table have to do with each other. -/
structure Ends (c : Connection S M) : Prop where
  /-- The host ran what was handed to the link's queue, as far as the queue came. -/
  order : c.ran ++ c.waiting = c.handed
  /-- Nothing but the invalidation follows an end. -/
  last : c.handed.Pairwise fun a b => a.isEnd → b.tells .invalidated
  ended : (∃ event ∈ c.handed, event.isEnd) → c.ended
  begun : c.invalidated → c.ended
  idle : c.invalidated = false → c.invalidation = .idle
  /-- An invalidation that has begun is told once. -/
  once : c.invalidations = if c.invalidated then 1 else 0
  closed : c.pending = none → ∃ event ∈ c.ran, event.isEnd
  releasing : ∀ e, c.linkWork = some (.releasing e) → .ended e ∈ c.ran
  lettingGo : c.linkWork = some .lettingGo → .ended .invalidated ∈ c.ran ∧ c.pending = none
  host : c.host = false → .ended .invalidated ∈ c.ran
  running : ∀ event host, c.linkWork = some (.running event host) → host = true
  past : c.past ≠ [] → c.pending = none

theorem Ends.not_isEnd (h : Ends c) (hopen : c.ended = false) {event : HostEvent M}
    (hmem : event ∈ c.handed) : ¬ event.isEnd := by
  intro hend
  have hended := h.ended ⟨event, hmem, hend⟩
  rw [hopen] at hended
  cases hended

theorem tells_of_not_isEnd {e : ConnectionEnd} {event : HostEvent M} (h : ¬ event.isEnd) :
    event.tells e = false := by
  cases event with
  | message m => rfl
  | reply r value => rfl
  | ended e' => exact absurd rfl h

/-- What the service hands over while the connection has not ended. -/
theorem Ends.toHost (h : Ends c) (hopen : c.ended = false) {event : HostEvent M}
    (hevent : ¬ event.isEnd) : Ends (c.toHost event) := by
  refine { h with order := ?_, last := ?_, ended := ?_, once := ?_ }
  · rw [waiting_toHost, ← List.append_assoc]
    exact congrArg (· ++ [event]) h.order
  · refine List.pairwise_append.mpr ⟨h.last, List.pairwise_singleton _ _, fun a ha b _ hend => ?_⟩
    exact absurd hend (h.not_isEnd hopen ha)
  · rintro ⟨b, hb, hend⟩
    rcases List.mem_append.mp hb with hb | hb
    · exact h.ended ⟨b, hb, hend⟩
    · rw [List.mem_singleton.mp hb] at hend
      exact absurd hend hevent
  · have honce := h.once
    unfold invalidations at honce ⊢
    change _ + _ + _ + (c.handed ++ [event]).countP (·.tells .invalidated) = _
    rw [List.countP_append, List.countP_singleton, tells_of_not_isEnd hevent]
    exact honce

theorem Ends.mem_handed (h : Ends c) {event : HostEvent M} (hmem : event ∈ c.ran) :
    event ∈ c.handed := by
  rw [← h.order]
  exact List.mem_append_left _ hmem

/-- The table is open as long as the connection has not ended. -/
theorem Ends.pending_ne_none (h : Ends c) (hopen : c.ended = false) : c.pending ≠ none := by
  intro hnone
  obtain ⟨event, hmem, hend⟩ := h.closed hnone
  exact h.not_isEnd hopen (h.mem_handed hmem) hend

/-- A connection that has not ended, with another table, or with more messages to deliver. -/
theorem Ends.withTable (h : Ends c) (hopen : c.ended = false) (table : List PendingReply) :
    Ends { c with pending := some table } := by
  refine { h with closed := nofun, lettingGo := fun hwork => ?_, past := fun hover => ?_ }
  · exact absurd (h.lettingGo hwork).2 (h.pending_ne_none hopen)
  · exact absurd (h.past hover) (h.pending_ne_none hopen)

theorem Ends.relayMessage (h : Ends c) (hopen : c.ended = false) (m : ToService S) :
    Ends (c.relayMessage m) := by
  unfold Connection.relayMessage relay
  dsimp only
  split
  · split
    · exact { h.withTable hopen _ with }
    · rename_i hnone
      exact absurd hnone (h.pending_ne_none hopen)
  · exact h

theorem Ends.enqueue (h : Ends c) {block : ConnectionBlock S}
    (hblock : block.ends .invalidated = false) :
    Ends { c with connectionQueue := c.connectionQueue ++ [block] } := by
  refine { h with once := ?_ }
  have honce := h.once
  unfold invalidations at honce ⊢
  rw [List.countP_append, List.countP_singleton, hblock]
  exact honce

theorem Ends.send (h : Ends c) (m : ToService S) : Ends (c.send m) := by
  unfold Connection.send
  dsimp only
  split_ifs with hended
  · unfold dropMessage
    split
    · exact { h with }
    · exact h
  · unfold dropMessage
    split
    · exact { h with }
    · exact { h with }
  · exact (h.relayMessage (by simpa using hended) m).enqueue rfl

theorem Ends.invalidate (h : Ends c) : Ends c.invalidate := by
  unfold Connection.invalidate
  split_ifs with hinv
  · exact h
  · have hfalse : c.invalidated = false := by simpa using hinv
    refine { h with ended := fun _ => rfl, begun := fun _ => rfl, idle := nofun, once := ?_ }
    have honce := h.once
    unfold invalidations at honce ⊢
    rw [h.idle hfalse, hfalse] at honce
    simp only [Bool.false_eq_true, if_false] at honce
    simp only [if_true]
    omega

theorem Ends.invalidateStep (h : Ends c) (hstep : c.invalidateStep = some c') : Ends c' := by
  have honce := h.once
  unfold Connection.invalidateStep at hstep
  split at hstep
  · rename_i hbegun
    obtain rfl := Option.some.inj hstep
    have hinv : c.invalidated ≠ false := fun hfalse => by
      rw [h.idle hfalse] at hbegun
      cases hbegun
    unfold invalidations at honce
    rw [hbegun] at honce
    unfold exit
    split
    · exact { h with idle := fun hfalse => absurd hfalse hinv, once := honce }
    · exact { h with idle := fun hfalse => absurd hfalse hinv, once := honce }
  · rename_i hexited
    obtain rfl := Option.some.inj hstep
    have hinv : c.invalidated ≠ false := fun hfalse => by
      rw [h.idle hfalse] at hexited
      cases hexited
    refine { h with idle := fun hfalse => absurd hfalse hinv, once := ?_ }
    unfold invalidations at honce ⊢
    rw [hexited] at honce
    dsimp only [endLater]
    refine Eq.trans ?_ honce
    rw [List.countP_append, List.countP_singleton]
    simp only [ConnectionBlock.ends, decide_true, if_true]
    omega
  · cases hstep

theorem Ends.relayCall (h : Ends c) (id : UInt64) (value : ReplyValue) :
    Ends (c.relayCall id value) := by
  unfold Connection.relayCall
  split_ifs with hended
  · exact h
  have hopen : c.ended = false := by
    simp only [Bool.or_eq_true, not_or, Bool.not_eq_true] at hended
    exact hended.1
  split
  · exact h
  · split
    · exact h
    · split_ifs
      · exact (h.withTable hopen _).toHost hopen nofun
      · exact { h.withTable hopen _ with }

theorem Ends.hostLinkSend (h : Ends c) (m : M) : Ends (c.hostLinkSend m) := by
  unfold Connection.hostLinkSend
  split_ifs with hended
  · exact h
  · simp only [Bool.or_eq_true, not_or, Bool.not_eq_true] at hended
    exact h.toHost hended.1 nofun

theorem Ends.reportDeath (h : Ends c) : Ends c.reportDeath := by
  unfold Connection.reportDeath
  split_ifs
  · exact Ends.enqueue (c := { c with onDeath := false }) { h with } rfl
  · exact h

/-- The host is told of an end. -/
theorem Ends.tell (h : Ends c) {e : ConnectionEnd}
    (hwork : c.connectionWork = some (.releasing e)) (he : e = .died → c.ended = false) :
    Ends (Connection.toHost { c with connectionWork := none, ended := true } (.ended e)) := by
  have honce := h.once
  refine { h with
    order := ?_, last := ?_, ended := fun _ => rfl, begun := fun _ => rfl, once := ?_ }
  · rw [waiting_toHost, ← List.append_assoc]
    exact congrArg (· ++ [HostEvent.ended e]) h.order
  · refine List.pairwise_append.mpr ⟨h.last, List.pairwise_singleton _ _, fun a ha b hb hend => ?_⟩
    obtain rfl := List.mem_singleton.mp hb
    cases e with
    | died => exact absurd hend (h.not_isEnd (he rfl) ha)
    | invalidated => rfl
  · unfold invalidations at honce ⊢
    rw [hwork] at honce
    dsimp only [Connection.toHost]
    refine Eq.trans ?_ honce
    rw [List.countP_append, List.countP_singleton]
    cases e with
    | died => rfl
    | invalidated =>
      simp only [HostEvent.tells, decide_true, if_true]
      omega

theorem Ends.finishBlock {work : ConnectionWork S} (h : Ends c)
    (hwork : c.connectionWork = some work) : Ends (c.finishBlock work) := by
  have honce := h.once
  unfold invalidations at honce
  rw [hwork] at honce
  cases work with
  | delivering m =>
    unfold Connection.finishBlock
    dsimp only
    split_ifs
    · exact { h with once := honce }
    · exact { h with once := honce }
  | releasing e =>
    unfold Connection.finishBlock
    dsimp only
    split_ifs with hdied
    · simp only [Bool.and_eq_true, decide_eq_true_eq] at hdied
      rw [hdied.1] at honce
      exact { h with once := honce }
    · refine h.tell hwork fun he => ?_
      simpa [he] using hdied

theorem Ends.connectionStep (h : Ends c) (hstep : c.connectionStep = some c') : Ends c' := by
  unfold Connection.connectionStep at hstep
  split at hstep
  · rename_i work hwork
    obtain rfl := Option.some.inj hstep
    exact h.finishBlock hwork
  · rename_i hwork
    split at hstep
    · cases hstep
    · rename_i block rest hqueue
      obtain rfl := Option.some.inj hstep
      have honce := h.once
      unfold invalidations at honce
      rw [hwork, hqueue, List.countP_cons] at honce
      cases block with
      | deliver m =>
        unfold beginBlock
        dsimp only
        split_ifs
        · refine { h with once := ?_ }
          unfold invalidations
          exact honce
        · refine { h with once := ?_ }
          unfold invalidations
          dsimp only
          rw [hwork]
          exact honce
      | ending e =>
        unfold beginBlock
        refine { h with once := ?_ }
        unfold invalidations
        dsimp only
        rw [← honce]
        cases e with
        | died => rfl
        | invalidated =>
          simp only [ConnectionBlock.ends, decide_true, if_true]
          omega

/-- An event that comes to run finds the host. -/
theorem Ends.host_of_waiting (h : Ends c) {event : HostEvent M} {rest : List (HostEvent M)}
    (hwaiting : c.waiting = event :: rest) : c.host = true := by
  by_contra hgone
  have hran := h.host (by simpa using hgone)
  have horder := h.order
  rw [hwaiting] at horder
  have hlast := h.last
  rw [← horder] at hlast
  have htells : event.tells .invalidated :=
    (List.pairwise_append.mp hlast).2.2 _ hran event (List.mem_cons_self ..) rfl
  have hcount : 2 ≤ c.handed.countP (·.tells .invalidated) := by
    rw [← horder, List.countP_append, List.countP_cons, htells]
    have : 0 < c.ran.countP (·.tells .invalidated) :=
      List.countP_pos_iff.mpr ⟨_, hran, rfl⟩
    simp only [if_true]
    omega
  have honce := h.once
  unfold invalidations at honce
  split_ifs at honce <;> omega

theorem Ends.runEvent {event : HostEvent M} {host : Bool} (h : Ends c)
    (hwork : c.linkWork = some (.running event host)) : Ends (c.runEvent event host) := by
  obtain rfl := h.running event host hwork
  have horder : (c.ran ++ [event]) ++ c.linkQueue = c.handed := by
    rw [List.append_assoc, List.singleton_append, ← h.order, waiting, hwork]
  have hmono : ∀ {b : HostEvent M}, b ∈ c.ran → b ∈ c.ran ++ [event] :=
    List.mem_append_left _
  have hclosed : c.pending = none → ∃ b ∈ c.ran ++ [event], b.isEnd := fun hnone =>
    (h.closed hnone).imp fun b hb => ⟨hmono hb.1, hb.2⟩
  cases event with
  | message m =>
    exact { h with
      order := horder, closed := hclosed, releasing := nofun, lettingGo := nofun,
      host := fun hgone => hmono (h.host hgone), running := nofun }
  | reply r value =>
    exact { h with
      order := horder, closed := hclosed, releasing := nofun, lettingGo := nofun,
      host := fun hgone => hmono (h.host hgone), running := nofun }
  | ended e =>
    refine { h with
      order := horder, closed := hclosed, releasing := fun e' he => ?_, lettingGo := nofun,
      host := fun hgone => hmono (h.host hgone), running := nofun }
    obtain rfl : e = e' := by injection Option.some.inj he
    exact List.mem_append_right _ (List.mem_singleton_self _)

theorem Ends.finishEvent {work : LinkWork M} (h : Ends c) (hwork : c.linkWork = some work) :
    Ends (c.finishEvent work) := by
  have horder := h.order
  unfold waiting at horder
  rw [hwork] at horder
  cases work with
  | running event host => exact h.runEvent hwork
  | releasing e =>
    have hran := h.releasing e hwork
    cases e with
    | died =>
      exact { h with
        order := horder, closed := fun _ => ⟨_, hran, rfl⟩, releasing := nofun, lettingGo := nofun,
        running := nofun, past := fun _ => rfl }
    | invalidated =>
      exact { h with
        order := horder, closed := fun _ => ⟨_, hran, rfl⟩, releasing := nofun,
        lettingGo := fun _ => ⟨hran, rfl⟩, running := nofun, past := fun _ => rfl }
  | lettingGo =>
    obtain ⟨hran, hnone⟩ := h.lettingGo hwork
    exact { h with
      order := horder, releasing := nofun, lettingGo := nofun, host := fun _ => hran,
      running := nofun, past := fun _ => hnone }

theorem Ends.linkStep (h : Ends c) (hstep : c.linkStep = some c') : Ends c' := by
  unfold Connection.linkStep at hstep
  split at hstep
  · rename_i work hwork
    obtain rfl := Option.some.inj hstep
    exact h.finishEvent hwork
  · rename_i hwork
    split at hstep
    · cases hstep
    · rename_i event rest hqueue
      obtain rfl := Option.some.inj hstep
      have hwaiting : c.waiting = event :: rest := by
        rw [waiting, hwork, hqueue]
      have horder := h.order
      rw [hwaiting] at horder
      refine { h with
        order := horder, releasing := nofun, lettingGo := nofun, running := fun event' host he => ?_ }
      have hhost := h.host_of_waiting hwaiting
      injection Option.some.inj he with _ heq
      exact heq.symm.trans hhost

/-- Every step keeps what the flags, the queues and the table have to do with each other. -/
theorem ends_step (h : Ends c) {action : LinkAction S M} (hstep : c.step action = some c') :
    Ends c' := by
  cases action with
  | serve =>
    obtain rfl := Option.some.inj hstep
    exact { h with }
  | send m =>
    obtain rfl := Option.some.inj hstep
    exact h.send m
  | invalidate =>
    obtain rfl := Option.some.inj hstep
    exact h.invalidate
  | sendInvalidates =>
    simp only [step] at hstep
    split_ifs at hstep
    obtain rfl := Option.some.inj hstep
    exact Ends.invalidate (c := { c with invalidates := c.invalidates - 1 }) { h with }
  | invalidateStep => exact h.invalidateStep hstep
  | relayCall n value =>
    simp only [step] at hstep
    split at hstep
    · split_ifs at hstep
      obtain rfl := Option.some.inj hstep
      exact h.relayCall _ _
    · cases hstep
  | hostLinkSend m =>
    obtain rfl := Option.some.inj hstep
    exact h.hostLinkSend m
  | die =>
    obtain rfl := Option.some.inj hstep
    unfold die
    split
    · exact { h with }
    · exact h
  | reportDeath =>
    obtain rfl := Option.some.inj hstep
    exact h.reportDeath
  | connectionStep => exact h.connectionStep hstep
  | linkStep => exact h.linkStep hstep

/-! ### Whole runs -/

/-- A step of the connection. -/
def Steps (c : Connection S M) (action : LinkAction S M) (c' : Connection S M) : Prop :=
  c.step action = some c'

theorem replies_init : Replies ({} : Connection S M) := fun _ => rfl

theorem ends_init : Ends ({} : Connection S M) where
  order := rfl
  last := .nil
  ended := by rintro ⟨event, hmem, -⟩; cases hmem
  begun := nofun
  idle := fun _ => rfl
  once := rfl
  closed := nofun
  releasing := nofun
  lettingGo := nofun
  host := nofun
  running := nofun
  past := fun h => absurd rfl h

theorem ends_of_run {actions : List (LinkAction S M)} (hrun : Execution Steps {} actions c) :
    Ends c :=
  hrun.invariant ends_init fun _ _ _ h hstep => ends_step h hstep

theorem replies_of_run {actions : List (LinkAction S M)} (hrun : Execution Steps {} actions c) :
    Replies c :=
  hrun.invariant replies_init fun _ _ _ h hstep => replies_step h hstep

/-- Once a connection has ended, it stays so, and only the invalidation is handed to the link's
queue. -/
theorem handed_step {action : LinkAction S M} (hstep : c.step action = some c')
    (hended : c.ended = true) :
    c'.ended = true ∧ (c'.handed = c.handed ∨ c'.handed = c.handed ++ [.ended .invalidated]) := by
  cases action with
  | serve =>
    obtain rfl := Option.some.inj hstep
    exact ⟨hended, .inl rfl⟩
  | send m =>
    obtain rfl := Option.some.inj hstep
    unfold send dropMessage
    rw [if_pos hended]
    dsimp only
    split_ifs
    · split
      · exact ⟨hended, .inl rfl⟩
      · exact ⟨hended, .inl rfl⟩
    · split
      · exact ⟨hended, .inl rfl⟩
      · exact ⟨hended, .inl rfl⟩
  | invalidate =>
    obtain rfl := Option.some.inj hstep
    unfold invalidate
    split_ifs
    · exact ⟨hended, .inl rfl⟩
    · exact ⟨rfl, .inl rfl⟩
  | sendInvalidates =>
    simp only [step] at hstep
    split_ifs at hstep
    obtain rfl := Option.some.inj hstep
    unfold invalidate
    split_ifs
    · exact ⟨hended, .inl rfl⟩
    · exact ⟨rfl, .inl rfl⟩
  | invalidateStep =>
    simp only [step, invalidateStep] at hstep
    split at hstep
    · obtain rfl := Option.some.inj hstep
      unfold exit
      split
      · exact ⟨hended, .inl rfl⟩
      · exact ⟨hended, .inl rfl⟩
    · obtain rfl := Option.some.inj hstep
      exact ⟨hended, .inl rfl⟩
    · cases hstep
  | relayCall n value =>
    simp only [step] at hstep
    split at hstep
    · split_ifs at hstep
      obtain rfl := Option.some.inj hstep
      rw [relayCall, hended]
      exact ⟨hended, .inl rfl⟩
    · cases hstep
  | hostLinkSend m =>
    obtain rfl := Option.some.inj hstep
    rw [hostLinkSend, hended]
    exact ⟨hended, .inl rfl⟩
  | die =>
    obtain rfl := Option.some.inj hstep
    unfold die
    split
    · exact ⟨hended, .inl rfl⟩
    · exact ⟨hended, .inl rfl⟩
  | reportDeath =>
    obtain rfl := Option.some.inj hstep
    unfold reportDeath
    split_ifs
    · exact ⟨hended, .inl rfl⟩
    · exact ⟨hended, .inl rfl⟩
  | connectionStep =>
    simp only [step, connectionStep] at hstep
    split at hstep
    · rename_i work hwork
      obtain rfl := Option.some.inj hstep
      cases work with
      | delivering m =>
        unfold finishBlock
        dsimp only
        split_ifs
        · exact ⟨hended, .inl rfl⟩
        · exact ⟨hended, .inl rfl⟩
      | releasing e =>
        cases e with
        | died =>
          rw [finishBlock, hended]
          exact ⟨rfl, .inl rfl⟩
        | invalidated => exact ⟨rfl, .inr rfl⟩
    · split at hstep
      · cases hstep
      · rename_i block rest hqueue
        obtain rfl := Option.some.inj hstep
        cases block with
        | deliver m =>
          unfold beginBlock
          dsimp only
          split_ifs
          · exact ⟨hended, .inl rfl⟩
          · exact ⟨hended, .inl rfl⟩
        | ending e => exact ⟨hended, .inl rfl⟩
  | linkStep =>
    simp only [step, linkStep] at hstep
    split at hstep
    · rename_i work hwork
      obtain rfl := Option.some.inj hstep
      cases work with
      | running event host => cases event <;> exact ⟨hended, .inl rfl⟩
      | releasing e => cases e <;> exact ⟨hended, .inl rfl⟩
      | lettingGo => exact ⟨hended, .inl rfl⟩
    · split at hstep
      · cases hstep
      · obtain rfl := Option.some.inj hstep
        exact ⟨hended, .inl rfl⟩

/-- Once a connection has ended, no death is handed to the link's queue. -/
theorem deaths_of_run {actions : List (LinkAction S M)} (hrun : Execution Steps c actions c')
    (hended : c.ended = true) :
    c'.handed.countP (·.tells .died) = c.handed.countP (·.tells .died) := by
  have hkept : c'.ended = true ∧
      c'.handed.countP (·.tells .died) = c.handed.countP (·.tells .died) := by
    refine hrun.invariant (I := fun d => d.ended = true ∧
      d.handed.countP (·.tells .died) = c.handed.countP (·.tells .died)) ⟨hended, rfl⟩ ?_
    rintro d action d' ⟨hd, hcount⟩ hstep
    obtain ⟨hd', hhanded | hhanded⟩ := handed_step hstep hd
    · exact ⟨hd', by rw [hhanded, hcount]⟩
    · refine ⟨hd', ?_⟩
      rw [hhanded, List.countP_append, hcount]
      rfl
  exact hkept.2

/-- Where an event that is in a list once stands. -/
theorem eq_of_append_cons_eq {α : Type*} {p : α → Bool} {l₁ l₂ m₁ m₂ : List α} {x y : α}
    (h : l₁ ++ x :: m₁ = l₂ ++ y :: m₂) (hx : p x) (hy : p y)
    (honce : (l₁ ++ x :: m₁).countP p ≤ 1) : l₁ = l₂ := by
  rcases List.append_eq_append_iff.mp h with ⟨k, rfl, hk⟩ | ⟨k, rfl, hk⟩
  · cases k with
    | nil => rw [List.append_nil]
    | cons z k =>
      obtain ⟨rfl, rfl⟩ := List.cons.inj hk
      simp only [List.countP_append, List.countP_cons, List.append_eq, hx, hy, if_true] at honce
      omega
  · cases k with
    | nil => rw [List.append_nil]
    | cons z k =>
      obtain ⟨rfl, rfl⟩ := List.cons.inj hk
      simp only [List.countP_append, List.countP_cons, hx, hy, if_true] at honce
      omega

theorem Ends.countP_invalidated (h : Ends c) : c.handed.countP (·.tells .invalidated) ≤ 1 := by
  have honce := h.once
  unfold invalidations at honce
  split_ifs at honce <;> omega

theorem tells_iff {e : ConnectionEnd} {event : HostEvent M} :
    event.tells e = true ↔ event = .ended e := by
  cases event with
  | message m => exact ⟨nofun, nofun⟩
  | reply r value => exact ⟨nofun, nofun⟩
  | ended e' => simp [HostEvent.tells]

/-- Nothing but the invalidation follows an end, so that a death is told once. -/
theorem Ends.countP_died (h : Ends c) : c.handed.countP (·.tells .died) ≤ 1 := by
  have hlast := h.last
  generalize c.handed = l at hlast
  induction l with
  | nil => exact Nat.zero_le _
  | cons event l ih =>
    obtain ⟨hevent, hl⟩ := List.pairwise_cons.mp hlast
    rw [List.countP_cons]
    split_ifs with htells
    · have hzero : l.countP (·.tells .died) = 0 := by
        refine List.countP_eq_zero.mpr fun b hb hdied => ?_
        have hb' := hevent b hb (by rw [tells_iff.mp htells]; rfl)
        rw [tells_iff.mp hdied] at hb'
        cases hb'
      omega
    · exact ih hl

theorem Ends.countP_tells (h : Ends c) (e : ConnectionEnd) :
    c.handed.countP (·.tells e) ≤ 1 := by
  cases e with
  | died => exact h.countP_died
  | invalidated => exact h.countP_invalidated

/-- What holds in every run of a connection. Every reply that was sent is in one place, once: in the
table, handed to the link's queue and not run yet, run, or released unrun. What was handed over
before an end the host heard of ran before it, in this order, and nothing but the invalidation runs
after it. Each end is heard once, nothing is heard after the invalidation, and no death is handed
over once the invalidation has begun. A send that is accepted finds the table open, and an end that
is over leaves no reply in it. -/
theorem link_protocol {actions : List (LinkAction S M)}
    (hrun : Execution Steps ({} : Connection S M) actions c) :
    (∀ n < c.sent, c.inTable n + c.queued n + c.runs n + c.releases n = 1) ∧
    (∀ before e after, c.handed = before ++ .ended e :: after → .ended e ∈ c.ran →
      ∃ rest, c.ran = before ++ .ended e :: rest) ∧
    (∀ before e after, c.ran = before ++ .ended e :: after →
      ∀ event ∈ after, event = .ended .invalidated) ∧
    (∀ e, c.ran.countP (·.tells e) ≤ 1) ∧
    (∀ before after, c.ran = before ++ .ended .invalidated :: after → after = []) ∧
    (∀ later d, Execution Steps c later d → c.invalidated = true →
      d.handed.countP (·.tells .died) = c.handed.countP (·.tells .died)) ∧
    (c.ended = false → c.pending ≠ none ∧ ∀ e, c.linkWork ≠ some (.releasing e)) ∧
    (c.past ≠ [] → ∀ n, c.inTable n = 0) := by
  have h := ends_of_run hrun
  have hran : c.ran <+: c.handed := ⟨c.waiting, h.order⟩
  have hcount : ∀ e, c.ran.countP (·.tells e) ≤ 1 := fun e =>
    (hran.sublist.countP_le).trans (h.countP_tells e)
  have hlast : ∀ before e after, c.ran = before ++ .ended e :: after →
      ∀ event ∈ after, event = .ended .invalidated := by
    intro before e after heq event hevent
    have hpair := h.last.sublist hran.sublist
    rw [heq] at hpair
    have htail := (List.pairwise_append.mp hpair).2.1
    exact tells_iff.mp ((List.pairwise_cons.mp htail).1 event hevent rfl)
  refine ⟨fun n hn => ?_, ?_, hlast, hcount, ?_, ?_, fun hopen => ⟨h.pending_ne_none hopen, ?_⟩,
    fun hover n => ?_⟩
  · have hreply := replies_of_run hrun n
    rwa [if_pos hn] at hreply
  · intro before e after heq hmem
    obtain ⟨before', rest, hrest⟩ := List.append_of_mem hmem
    have horder := h.order
    rw [hrest, heq, List.append_assoc, List.cons_append] at horder
    have honce : (before' ++ .ended e :: (rest ++ c.waiting)).countP (·.tells e) ≤ 1 := by
      rw [horder, ← heq]
      exact h.countP_tells e
    have hsame : before' = before :=
      eq_of_append_cons_eq horder (tells_iff.mpr rfl) (tells_iff.mpr rfl) honce
    exact ⟨rest, hsame ▸ hrest⟩
  · intro before after heq
    by_contra hne
    obtain ⟨event, rest, rfl⟩ := List.exists_cons_of_ne_nil hne
    have hevent := hlast _ _ _ heq event (List.mem_cons_self ..)
    have htwice := hcount .invalidated
    rw [heq, hevent, List.countP_append, List.countP_cons, List.countP_cons,
      if_pos (tells_iff.mpr rfl)] at htwice
    omega
  · intro later d hlater hbegun
    exact deaths_of_run hlater (h.begun hbegun)
  · intro e hwork
    exact h.not_isEnd hopen (h.mem_handed (h.releasing e hwork)) rfl
  · rw [inTable, h.past hover]
    rfl

/-- A handshake that is sent and answered, a death the host is told of, and an invalidation. -/
def sampleRun : List (LinkAction Unit Unit) :=
  [.serve, .send ⟨.handshake, ()⟩, .connectionStep, .connectionStep,
    .relayCall 0 (.handshake 0 7), .hostLinkSend (), .die, .reportDeath, .connectionStep,
    .connectionStep, .invalidate, .linkStep, .linkStep, .linkStep, .linkStep, .linkStep, .linkStep,
    .linkStep]

theorem sampleRun_protocol :
    ∃ c, Execution Steps ({} : Connection Unit Unit) sampleRun c ∧
      c.ran = [.reply 0 (.handshake 0 7), .message (), .ended .died] ∧
      c.inTable 0 + c.queued 0 + c.runs 0 + c.releases 0 = 1 ∧ ∀ n, c.inTable n = 0 := by
  obtain ⟨c, hc⟩ : ∃ c, sampleRun.foldlM Connection.step ({} : Connection Unit Unit) = some c :=
    ⟨_, rfl⟩
  have hrun : Execution Steps ({} : Connection Unit Unit) sampleRun c :=
    Execution.of_foldlM_option Connection.step sampleRun hc
  obtain rfl := Option.some.inj hc
  have hall := link_protocol hrun
  exact ⟨_, hrun, rfl, hall.1 0 (by decide), hall.2.2.2.2.2.2.2 (by decide)⟩

/-- A reply that was handed to the link's queue and not run yet is neither in the table nor run nor
released; and a death handed to the link's queue is heard after an invalidation has begun. -/
theorem handedReply_in_no_place :
    (∃ actions c, Execution Steps ({} : Connection Unit Unit) actions c ∧ 0 < c.sent ∧
      c.inTable 0 = 0 ∧ c.runs 0 = 0 ∧ c.releases 0 = 0) ∧
    ∃ actions c, Execution Steps ({} : Connection Unit Unit) actions c ∧ c.invalidated = true ∧
      c.ran = [] ∧ ∃ later d, Execution Steps c later d ∧ d.ran = [.ended .died] := by
  refine ⟨⟨[.serve, .send ⟨.handshake, ()⟩, .relayCall 0 (.handshake 0 7)], _,
    Execution.of_foldlM_option Connection.step _ rfl, by decide, by decide, by decide, by decide⟩, ?_⟩
  exact ⟨[.serve, .die, .reportDeath, .connectionStep, .connectionStep, .invalidate], _,
    Execution.of_foldlM_option Connection.step _ rfl, rfl, rfl, [.linkStep, .linkStep], _,
    Execution.of_foldlM_option Connection.step _ rfl, rfl⟩

end Connection

end ReimsVgpu.Tasks
