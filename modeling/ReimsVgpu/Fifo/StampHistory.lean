import ReimsVgpu.Fifo.Stamps
import ReimsVgpu.Library.Execution
import Mathlib.Data.List.TakeWhile

/-!
# What every run of a stamp queue publishes

A run is followed by the history of its stamps: every stamp pushed, in push order, each with what
has happened to it (signalled, faulted at an offset, resumed), and how many of them have completed.
The history is written from the operations alone and the completed count from the queue's counter;
the ring's flags do not enter. `Tracks` says that the pending slots are the stamps of the history
that have not completed, flag by flag, and that the first of them is stuck: it is not signalled,
and not faulted while the queue is quiesced. One lemma, `Traced.Step.spec`, says what one operation
does to the history; the invariant and the theorems about runs follow from it.

## Main definitions

* `Stamp`, `Traced`, `Traced.Step`, `Traced.Tracks`.

## Main results

* `stamps_complete_in_push_order`: completion along every run that does not die.
* `no_publication_is_lost`: no completed prefix is left behind, and, without a quiesce, the fault
  latch and the calls of `fault`.
-/

namespace ReimsVgpu.Fifo

/-- One pushed stamp and what has happened to it. -/
structure Stamp where
  value : UInt32
  commandId : UInt32
  signalled : Bool := false
  fault : Option UInt32 := none
  resumed : Bool := false
  deriving DecidableEq, Repr

namespace Stamp

/-- The slot of a stamp. -/
def slot (s : Stamp) : PendingStamp :=
  let p : PendingStamp := { stampValue := s.value, commandId := s.commandId, flags := 0 }
  let p := match s.fault with
    | none => p
    | some offset => (p.setFaulted true).setOffset offset
  let p := if s.resumed then (p.setFaulted false).setSignaled true else p
  if s.signalled then p.setSignaled true else p

/-- The stamp completes at a pump. -/
def completes (quiesced : Bool) (s : Stamp) : Bool :=
  s.signalled || s.resumed || (s.fault.isSome && quiesced)

/-- The stamp is faulted and nothing has completed it. -/
def isFaulted (s : Stamp) : Bool := s.fault.isSome && !s.resumed

@[simp] theorem stampValue_slot (s : Stamp) : s.slot.stampValue = s.value := by
  unfold slot
  split <;> split_ifs <;> rfl

@[simp] theorem signaled_slot (s : Stamp) : s.slot.signaled = (s.signalled || s.resumed) := by
  have hnew : (⟨s.value, s.commandId, 0⟩ : PendingStamp).signaled = false := by
    simp [PendingStamp.signaled]
  unfold slot
  cases s.fault <;> cases s.resumed <;> cases s.signalled <;> simp [hnew]

@[simp] theorem faulted_slot (s : Stamp) : s.slot.faulted = s.isFaulted := by
  have hnew : (⟨s.value, s.commandId, 0⟩ : PendingStamp).faulted = false := by
    simp [PendingStamp.faulted]
  unfold slot isFaulted
  cases s.fault <;> cases s.resumed <;> cases s.signalled <;> simp [hnew]

@[simp] theorem completes_slot (q : Bool) (s : Stamp) :
    s.slot.completes q = s.completes q := by
  rw [PendingStamp.completes, signaled_slot, faulted_slot, completes, isFaulted]
  cases s.signalled <;> cases s.resumed <;> cases s.fault <;> cases q <;> rfl

/-- The slot of a faulted stamp has the offset the fault was given, modulo `2^30`. -/
theorem toNat_offset_slot {s : Stamp} {offset : UInt32} (hf : s.fault = some offset)
    (hr : s.resumed = false) (hs : s.signalled = false) :
    s.slot.offset.toNat = offset.toNat % 2 ^ 30 := by
  simp only [slot, hf, hr, hs, Bool.false_eq_true, ↓reduceIte]
  exact PendingStamp.toNat_offset_setOffset _ _

end Stamp

/-- A queue, the history of its stamps, how many of them have completed, and its sink's calls. -/
structure Traced where
  queue : StampQueue := {}
  history : List Stamp := []
  completed : ℕ := 0
  calls : List SinkCall := []

namespace Traced

/-- The stamps that have not completed. -/
def pending (t : Traced) : List Stamp := t.history.drop t.completed

/-- Apply `f` to the first stamp of the list with the value. -/
def markFirst (v : UInt32) (f : Stamp → Stamp) : List Stamp → List Stamp
  | [] => []
  | s :: rest => if s.value = v then f s :: rest else s :: markFirst v f rest

/-- What an operation writes on the stamps that have not completed. -/
def mark : StampQueue.Op → List Stamp → List Stamp
  | .pushStamp v c, l => l ++ [{ value := v, commandId := c }]
  | .signalStamp v, l => markFirst v (fun s => { s with signalled := true }) l
  | .faultStamp v o, l => markFirst v (fun s => { s with fault := some o }) l
  | .resumeFromFault, s :: rest =>
    (if s.isFaulted then { s with resumed := true } else s) :: rest
  | _, l => l

section

variable (v c o : UInt32) (s : Stamp) (l : List Stamp)

theorem mark_pushStamp : mark (.pushStamp v c) l = l ++ [{ value := v, commandId := c }] := rfl

theorem mark_signalStamp :
    mark (.signalStamp v) l = markFirst v (fun s => { s with signalled := true }) l := rfl

theorem mark_faultStamp :
    mark (.faultStamp v o) l = markFirst v (fun s => { s with fault := some o }) l := rfl

theorem mark_resumeFromFault :
    mark .resumeFromFault (s :: l) =
      (if s.isFaulted then { s with resumed := true } else s) :: l := rfl

end

/-- One operation, with the history it writes: it completes as many stamps as the queue's
completed count advances by. -/
def next (t : Traced) (op : StampQueue.Op) : Except Stop Traced := do
  let (q, calls) ← t.queue.step op
  return {
    queue := q
    history := t.history.take t.completed ++ mark op t.pending
    completed := t.completed + (q.state.completeCount - t.queue.state.completeCount).toNat
    calls := t.calls ++ calls }

/-- One operation that returns. -/
def Step (t : Traced) (op : StampQueue.Op) (t' : Traced) : Prop := t.next op = .ok t'

private theorem Step.exists_eq {t t' : Traced} {op : StampQueue.Op} (h : t.Step op t') :
    ∃ q calls, t.queue.step op = .ok (q, calls) ∧ t' =
      { queue := q
        history := t.history.take t.completed ++ mark op t.pending
        completed := t.completed +
          (q.state.completeCount - t.queue.state.completeCount).toNat
        calls := t.calls ++ calls } := by
  rw [Step, next] at h
  cases hs : t.queue.step op with
  | error e => rw [hs] at h; cases h
  | ok r =>
    rw [hs] at h
    exact ⟨r.1, r.2, rfl, (Except.ok.inj h).symm⟩

/-- The values of the calls of `signal`. -/
def signals (calls : List SinkCall) : List UInt32 :=
  calls.filterMap fun | .signal v => some v | _ => none

/-- The offsets of the calls of `fault`. -/
def faults (calls : List SinkCall) : List UInt32 :=
  calls.filterMap fun | .fault o => some o | _ => none

/-- The ring holds the stamps that have not completed; the first of them is stuck, and the latch
is set if it is faulted. -/
structure Tracks (t : Traced) : Prop where
  pending_le : t.queue.state.pendingCount.toNat ≤ 128
  completed_le : t.completed ≤ t.history.length
  window_eq : t.queue.state.window = t.pending.map Stamp.slot
  unresumed : ∀ s ∈ t.pending, s.resumed = false
  not_both : ∀ s ∈ t.pending, s.signalled = true → s.fault = none
  stuck : ∀ s ∈ t.pending.head?, s.completes t.queue.state.quiesced = false
  latched : ∀ s ∈ t.pending.head?, s.isFaulted = true → t.queue.state.faulted = true

/-! ### One operation is a write and a pump -/

private theorem markFirst_of_none {v : UInt32} {l : List Stamp} (f : Stamp → Stamp)
    (h : l.findIdx? (·.value = v) = none) : markFirst v f l = l := by
  induction l with
  | nil => rfl
  | cons s rest ih =>
    rw [List.findIdx?_cons] at h
    split at h
    · cases h
    · rename_i hs
      rw [markFirst, if_neg (by simpa using hs), ih (by simpa using h)]

private theorem markFirst_of_some {v : UInt32} {l : List Stamp} {k : ℕ} (f : Stamp → Stamp)
    (h : l.findIdx? (·.value = v) = some k) :
    ∃ s, l[k]? = some s ∧ s.value = v ∧ markFirst v f l = l.set k (f s) := by
  induction l generalizing k with
  | nil => cases h
  | cons s rest ih =>
    rw [List.findIdx?_cons] at h
    split at h
    · rename_i hs
      obtain rfl : 0 = k := by simpa using h
      have hs : s.value = v := by simpa using hs
      exact ⟨s, rfl, hs, by rw [markFirst, if_pos hs]; rfl⟩
    · rename_i hs
      obtain ⟨k', hk', rfl⟩ := Option.map_eq_some_iff.mp h
      obtain ⟨s', hget, hval, hset⟩ := ih hk'
      refine ⟨s', by simpa using hget, hval, ?_⟩
      rw [markFirst, if_neg (by simpa using hs), hset]
      rfl

private theorem head?_markFirst_of_ne {v : UInt32} {l : List Stamp} (f : Stamp → Stamp)
    (h : ∀ s ∈ l.head?, s.value ≠ v) : (markFirst v f l).head? = l.head? := by
  cases l with
  | nil => rfl
  | cons s rest => rw [markFirst, if_neg (h s rfl)]; rfl

/-- What the operation writes before its pump: the state it leaves holds the marked stamps. -/
structure Writes (t : Traced) (op : StampQueue.Op) (st : QueueState) : Prop where
  pending_le : st.pendingCount.toNat ≤ 128
  completeCount_eq : st.completeCount = t.queue.state.completeCount
  window_eq : st.window = (mark op t.pending).map Stamp.slot
  quiesced_le : op ≠ .quiesce → st.quiesced = true → t.queue.state.quiesced = true
  faulted_eq : op ≠ .resumeFromFault → st.faulted = t.queue.state.faulted
  faulted_resume : op = .resumeFromFault → st.faulted =
    (t.queue.state.faulted && !(t.queue.state.slot t.queue.state.completeCount).faulted)

/-- The marked stamps `l` keep what makes a stamp's flags readable, and only a resume touches a
faulted head of the stamps `l₀` before the mark. -/
structure Marked (op : StampQueue.Op) (l₀ l : List Stamp) : Prop where
  unresumed : ∀ s ∈ l.tail, s.resumed = false
  not_both : ∀ s ∈ l, s.signalled = true → s.fault = none
  resumed_head : ∀ s ∈ l.head?, s.resumed = true →
    op = .resumeFromFault ∧ s.fault.isSome = true ∧ s.signalled = false
  faulted_head : op ≠ .resumeFromFault → ∀ s ∈ l₀.head?, s.fault.isSome = true → s ∈ l.head?

variable {t : Traced}

private theorem Tracks.length_pending (h : t.Tracks) :
    t.pending.length = t.queue.state.pendingCount.toNat := by
  rw [← QueueState.length_window, h.window_eq, List.length_map]

private theorem Tracks.head_window (h : t.Tracks) {p : PendingStamp}
    (hp : p ∈ t.queue.state.window.head?) :
    p.completes t.queue.state.quiesced = false ∧
      (p.faulted = true → t.queue.state.faulted = true) := by
  rw [h.window_eq, List.head?_map] at hp
  obtain ⟨s, hs, rfl⟩ := Option.mem_map.mp hp
  rw [Stamp.completes_slot, Stamp.faulted_slot]
  exact ⟨h.stuck s hs, h.latched s hs⟩

/-- A state with the queue's head, latch and quiesced flag has nothing to pump. -/
private theorem Tracks.pump_eq_self (h : t.Tracks) {st : QueueState}
    (hhead : st.window.head? = t.queue.state.window.head?)
    (hq : st.quiesced = t.queue.state.quiesced) (hf : st.faulted = t.queue.state.faulted) :
    st.pump = (st, []) := by
  refine st.pump_eq_self ?_ ?_
  · intro p hp
    rw [hhead] at hp
    rw [hq]
    exact (h.head_window hp).1
  · intro p hp
    rw [hhead] at hp
    rw [hf]
    exact (h.head_window hp).2

/-- The scan's second answer: the first pending stamp has the value. -/
private theorem Tracks.scan_eq (h : t.Tracks) (v : UInt32) (hne : t.pending ≠ []) :
    t.queue.state.scan v =
      ((t.pending.findIdx? (·.value = v)).map
          fun k => t.queue.state.completeCount + UInt32.ofNat k,
        decide (∀ s ∈ t.pending.head?, s.value = v)) := by
  rw [QueueState.scan_eq, h.window_eq]
  refine Prod.ext ?_ ?_
  · rw [List.findIdx?_map]
    simp only [Function.comp_def, Stamp.stampValue_slot]
  · obtain ⟨s, rest, hpend⟩ := List.exists_cons_of_ne_nil hne
    have hstuck := h.stuck s (by rw [hpend]; rfl)
    have hsig : s.signalled = false ∧ s.resumed = false := by
      rw [Stamp.completes] at hstuck
      revert hstuck
      cases s.signalled <;> cases s.resumed <;> simp
    by_cases hv : s.value = v
    · simp [hpend, hv]
    · simp [hpend, hv, hsig]

private theorem marked_of_forall {op : StampQueue.Op} {l₀ l : List Stamp}
    (hr : ∀ s ∈ l, s.resumed = false) (hb : ∀ s ∈ l, s.signalled = true → s.fault = none)
    (hf : ∀ s ∈ l₀.head?, s.fault.isSome = true → s ∈ l.head?) : Marked op l₀ l where
  unresumed s hs := hr s (List.mem_of_mem_tail hs)
  not_both := hb
  resumed_head s hs h := by
    rw [hr s (List.mem_of_mem_head? hs)] at h
    cases h
  faulted_head _ := hf

/-- An operation leaves the pump of a state that holds the marked stamps. -/
private def Pumps (t : Traced) (op : StampQueue.Op) (q : StampQueue) (calls : List SinkCall) :
    Prop :=
  Marked op t.pending (mark op t.pending) ∧ ∃ st, t.Writes op st ∧ q.state = st.pump.1 ∧
    signals calls = signals st.pump.2 ∧ faults calls = faults st.pump.2

private theorem Tracks.pumps_push (h : t.Tracks) {v c : UInt32} {q : StampQueue}
    {calls : List SinkCall} (hs : t.queue.pushStamp v c = .ok (q, calls)) :
    t.Pumps (.pushStamp v c) q calls := by
  rw [StampQueue.pushStamp] at hs
  split_ifs at hs with hfull
  obtain ⟨rfl, rfl⟩ := Prod.ext_iff.mp (Except.ok.inj hs)
  have hlt : t.queue.state.pendingCount.toNat < 128 := by
    refine lt_of_le_of_ne h.pending_le fun hc => hfull ?_
    exact UInt32.toNat_inj.mp hc
  obtain ⟨hcount, hwin⟩ := t.queue.state.window_push hlt { stampValue := v, commandId := c }
  refine ⟨marked_of_forall ?_ ?_ ?_,
    { t.queue.state.setSlot t.queue.state.writeCount { stampValue := v, commandId := c } with
      writeCount := t.queue.state.writeCount + 1 },
    ⟨?_, rfl, ?_, ?_, fun _ => rfl, fun hop => by cases hop⟩, ?_⟩
  · intro s hs
    rcases List.mem_append.mp hs with hs | hs
    · exact h.unresumed s hs
    · rw [List.mem_singleton.mp hs]
  · intro s hs
    rcases List.mem_append.mp hs with hs | hs
    · exact h.not_both s hs
    · rw [List.mem_singleton.mp hs]
      exact fun _ => rfl
  · intro s hs _
    rw [mark_pushStamp, List.head?_append, Option.mem_def.mp hs]
    rfl
  · exact hcount.trans_le hlt
  · rw [hwin, h.window_eq, mark_pushStamp, List.map_append]
    rfl
  · exact fun _ hq => hq
  · rw [QueueState.pump_eq_self]
    · exact ⟨rfl, rfl, rfl⟩
    · intro p hp
      rw [hwin] at hp
      cases hw : t.queue.state.window with
      | nil =>
        rw [hw] at hp
        obtain rfl := Option.mem_some_iff.mp hp
        simp [PendingStamp.completes, PendingStamp.signaled, PendingStamp.faulted]
      | cons p' l =>
        rw [hw] at hp
        exact (h.head_window (p := p) (by rw [hw]; exact hp)).1
    · intro p hp
      rw [hwin] at hp
      cases hw : t.queue.state.window with
      | nil =>
        rw [hw] at hp
        obtain rfl := Option.mem_some_iff.mp hp
        simp [PendingStamp.faulted]
      | cons p' l =>
        rw [hw] at hp
        exact (h.head_window (p := p) (by rw [hw]; exact hp)).2

/-- A mark on the first pending stamp with the value: the write, and the pump the scan asks for,
which is the pump. -/
private theorem Tracks.writes_found (h : t.Tracks) {op : StampQueue.Op} {v : UInt32}
    {f : Stamp → Stamp} {k : ℕ} {s : Stamp} {p : PendingStamp}
    (hmark : mark op t.pending = markFirst v f t.pending)
    (hop : op ≠ .quiesce ∧ op ≠ .resumeFromFault) (hget : t.pending[k]? = some s)
    (hset : markFirst v f t.pending = t.pending.set k (f s)) (hp : (f s).slot = p) :
    let st := t.queue.state.setSlot (t.queue.state.completeCount + UInt32.ofNat k) p
    t.Writes op st ∧ st.pumpIf (decide (∀ s ∈ t.pending.head?, s.value = v)) = st.pump := by
  have hk : k < t.queue.state.pendingCount.toNat := by
    rw [← h.length_pending]
    exact (List.getElem?_eq_some_iff.mp hget).1
  have hwin : (t.queue.state.setSlot (t.queue.state.completeCount + UInt32.ofNat k) p).window =
      (mark op t.pending).map Stamp.slot := by
    rw [QueueState.window_setSlot _ h.pending_le hk, h.window_eq, hmark, hset, List.map_set, hp]
  refine ⟨⟨h.pending_le, rfl, hwin, fun _ hq => hq, fun _ => rfl, fun hc => ?_⟩, ?_⟩
  · exact absurd hc hop.2
  · by_cases hv : ∀ s ∈ t.pending.head?, s.value = v
    · rw [decide_eq_true hv]
      rfl
    · rw [decide_eq_false hv, QueueState.pumpIf, if_neg Bool.false_ne_true]
      refine (h.pump_eq_self ?_ (QueueState.quiesced_setSlot _ _ _)
        (QueueState.faulted_setSlot _ _ _)).symm
      have hne : ∀ s ∈ t.pending.head?, s.value ≠ v := by
        intro s hs hsv
        refine hv fun s' hs' => ?_
        rwa [Option.mem_unique hs' hs]
      rw [hwin, hmark, List.head?_map, head?_markFirst_of_ne f hne, h.window_eq, List.head?_map]

/-- A scan that finds no stamp: the queue as it is, and its pump does nothing. -/
private theorem Tracks.pumps_of_same (h : t.Tracks) (op : StampQueue.Op)
    (hmark : mark op t.pending = t.pending) (hop : op ≠ .resumeFromFault) (b : Bool) :
    t.Pumps op { t.queue with state := (t.queue.state.pumpIf b).1 } (t.queue.state.pumpIf b).2 := by
  have hself : t.queue.state.pump = (t.queue.state, []) := h.pump_eq_self rfl rfl rfl
  have hpump : t.queue.state.pumpIf b = t.queue.state.pump := by
    cases b with
    | false => rw [hself, QueueState.pumpIf, if_neg Bool.false_ne_true]
    | true => rfl
  rw [hpump]
  refine ⟨?_, t.queue.state, ⟨h.pending_le, rfl, ?_, fun _ hq => hq, fun _ => rfl, ?_⟩, rfl, rfl,
    rfl⟩
  · rw [hmark]
    exact marked_of_forall h.unresumed h.not_both fun _ hs _ => hs
  · rw [hmark, h.window_eq]
  · exact fun hc => absurd hc hop

/-- A scan that finds a stamp neither signalled nor faulted. -/
private theorem Tracks.pumps_found (h : t.Tracks) {op : StampQueue.Op} {v : UInt32}
    {f : Stamp → Stamp} {k : ℕ} {p : PendingStamp}
    (hmark : mark op t.pending = markFirst v f t.pending)
    (hop : op ≠ .quiesce ∧ op ≠ .resumeFromFault)
    (hk : t.pending.findIdx? (·.value = v) = some k)
    (hf : ∀ s, t.pending[k]? = some s → s.fault = none ∧ (f s).slot = p ∧
      (f s).resumed = false ∧ ((f s).signalled = true → (f s).fault = none)) :
    let st := t.queue.state.setSlot (t.queue.state.completeCount + UInt32.ofNat k) p
    let r := st.pumpIf (decide (∀ s ∈ t.pending.head?, s.value = v))
    t.Pumps op { t.queue with state := r.1 } r.2 := by
  obtain ⟨s, hget, -, hset⟩ := markFirst_of_some f hk
  obtain ⟨hnone, hslot, hres, hboth⟩ := hf s hget
  obtain ⟨hw, hpump⟩ := h.writes_found hmark hop hget hset hslot
  refine ⟨?_, _, hw, ?_, ?_, ?_⟩
  · rw [hmark, hset]
    refine marked_of_forall ?_ ?_ ?_
    · intro s' hs'
      rcases List.mem_or_eq_of_mem_set hs' with hs' | rfl
      · exact h.unresumed s' hs'
      · exact hres
    · intro s' hs'
      rcases List.mem_or_eq_of_mem_set hs' with hs' | rfl
      · exact h.not_both s' hs'
      · exact hboth
    · intro s' hs' hsome
      cases k with
      | zero =>
        rw [List.head?_eq_getElem?, hget] at hs'
        obtain rfl := Option.mem_some_iff.mp hs'
        rw [hnone] at hsome
        cases hsome
      | succ k =>
        rw [List.head?_eq_getElem?, List.getElem?_set_ne (Nat.succ_ne_zero k),
          ← List.head?_eq_getElem?]
        exact hs'
  all_goals rw [hpump]

private theorem Tracks.pending_ne_nil (h : t.Tracks) (h0 : ¬ t.queue.state.pendingCount = 0) :
    t.pending ≠ [] := by
  intro hc
  refine h0 (UInt32.toNat_inj.mp ?_)
  rw [← h.length_pending, hc]
  rfl

private theorem Tracks.slot_found (h : t.Tracks) {k : ℕ} {s : Stamp}
    (hget : t.pending[k]? = some s) :
    t.queue.state.slot (t.queue.state.completeCount + UInt32.ofNat k) = s.slot := by
  have hk : k < t.queue.state.pendingCount.toNat := by
    rw [← h.length_pending]
    exact (List.getElem?_eq_some_iff.mp hget).1
  refine Option.some_inj.mp ?_
  rw [QueueState.slot_eq _ hk, h.window_eq, List.getElem?_map, hget]
  rfl

/-- A pending stamp whose slot is neither signalled nor faulted. -/
private theorem Tracks.clean_of_slot (h : t.Tracks) {k : ℕ} {s : Stamp}
    (hget : t.pending[k]? = some s) (hsig : ¬ s.slot.signaled = true)
    (hfault : ¬ s.slot.faulted = true) :
    s.signalled = false ∧ s.fault = none ∧ s.resumed = false := by
  have hres := h.unresumed s (List.mem_of_getElem? hget)
  rw [Stamp.signaled_slot, hres, Bool.or_false, Bool.not_eq_true] at hsig
  rw [Stamp.faulted_slot, Stamp.isFaulted, hres, Bool.not_false, Bool.and_true, Bool.not_eq_true,
    Option.isSome_eq_false_iff, Option.isNone_iff_eq_none] at hfault
  exact ⟨hsig, hfault, hres⟩

private theorem Tracks.pumps_signal (h : t.Tracks) {v : UInt32} {q : StampQueue}
    {calls : List SinkCall} (hs : t.queue.signalStamp v = .ok (q, calls)) :
    t.Pumps (.signalStamp v) q calls := by
  rw [StampQueue.signalStamp] at hs
  split_ifs at hs with h0
  rw [h.scan_eq v (h.pending_ne_nil h0)] at hs
  cases hk : t.pending.findIdx? (·.value = v) with
  | none =>
    rw [hk] at hs
    obtain ⟨rfl, rfl⟩ := Prod.ext_iff.mp (Except.ok.inj hs)
    exact h.pumps_of_same (.signalStamp v) (markFirst_of_none _ hk) nofun _
  | some k =>
    rw [hk] at hs
    dsimp only [Option.map_some] at hs
    split_ifs at hs with hsig hfault
    obtain ⟨rfl, rfl⟩ := Prod.ext_iff.mp (Except.ok.inj hs)
    refine h.pumps_found rfl ⟨nofun, nofun⟩ hk fun s hget => ?_
    rw [h.slot_found hget] at hsig hfault ⊢
    obtain ⟨h1, h2, h3⟩ := h.clean_of_slot hget hsig hfault
    exact ⟨h2, by simp [Stamp.slot, h1, h2, h3], h3, fun _ => h2⟩

private theorem Tracks.pumps_fault (h : t.Tracks) {v o : UInt32} {q : StampQueue}
    {calls : List SinkCall} (hs : t.queue.faultStamp v o = .ok (q, calls)) :
    t.Pumps (.faultStamp v o) q calls := by
  rw [StampQueue.faultStamp] at hs
  split_ifs at hs with h0 hrange
  rw [h.scan_eq v (h.pending_ne_nil h0)] at hs
  cases hk : t.pending.findIdx? (·.value = v) with
  | none =>
    rw [hk] at hs
    obtain ⟨rfl, rfl⟩ := Prod.ext_iff.mp (Except.ok.inj hs)
    exact h.pumps_of_same (.faultStamp v o) (markFirst_of_none _ hk) nofun _
  | some k =>
    rw [hk] at hs
    dsimp only [Option.map_some] at hs
    split_ifs at hs with hsig hfault
    obtain ⟨rfl, rfl⟩ := Prod.ext_iff.mp (Except.ok.inj hs)
    refine h.pumps_found rfl ⟨nofun, nofun⟩ hk fun s hget => ?_
    rw [h.slot_found hget] at hsig hfault ⊢
    obtain ⟨h1, h2, h3⟩ := h.clean_of_slot hget hsig hfault
    exact ⟨h2, by simp [Stamp.slot, h1, h2, h3], h3, fun hc => absurd hc (by simp [h1])⟩

private theorem Tracks.pumps_resume_nil (h : t.Tracks) (hpend : t.pending = []) {q : StampQueue}
    {calls : List SinkCall} (hs : t.queue.resumeFromFault = .ok (q, calls)) :
    t.Pumps .resumeFromFault q calls := by
  rw [StampQueue.resumeFromFault] at hs
  have hmark : mark .resumeFromFault t.pending = [] := by rw [hpend]; rfl
  have hwin : t.queue.state.window = [] := by rw [h.window_eq, hpend]; rfl
  have hzero : t.queue.state.pendingCount.toNat = 0 := by rw [← h.length_pending, hpend]; rfl
  refine ⟨by rw [hmark]; exact marked_of_forall nofun nofun (by rw [hpend]; nofun), ?_⟩
  split_ifs at hs with hf
  · obtain ⟨rfl, rfl⟩ := Prod.ext_iff.mp (Except.ok.inj hs)
    refine ⟨{ t.queue.state.setSlot t.queue.state.completeCount
        (((t.queue.state.slot t.queue.state.completeCount).setFaulted false).setSignaled true) with
        faulted := false },
      ⟨h.pending_le, rfl, ?_, fun _ hq => hq, fun hc => absurd rfl hc, ?_⟩, rfl, rfl, rfl⟩
    · rw [hmark]
      refine List.eq_nil_of_length_eq_zero ?_
      rw [QueueState.length_window]
      exact hzero
    · intro _
      rw [hf, Bool.not_true, Bool.and_false]
  · obtain ⟨rfl, rfl⟩ := Prod.ext_iff.mp (Except.ok.inj hs)
    refine ⟨t.queue.state, ⟨h.pending_le, rfl, ?_, fun _ hq => hq, fun hc => absurd rfl hc, ?_⟩,
      rfl, rfl, rfl⟩
    · rw [hmark, hwin]
      rfl
    · intro _
      rw [Bool.not_eq_true] at hf
      rw [hf, Bool.not_false, Bool.and_true]

private theorem Tracks.pumps_resume_cons (h : t.Tracks) {s : Stamp} {rest : List Stamp}
    (hpend : t.pending = s :: rest) {q : StampQueue} {calls : List SinkCall}
    (hs : t.queue.resumeFromFault = .ok (q, calls)) : t.Pumps .resumeFromFault q calls := by
  rw [StampQueue.resumeFromFault] at hs
  have hget : t.pending[0]? = some s := by rw [hpend]; rfl
  have hslot : t.queue.state.slot t.queue.state.completeCount = s.slot := by
    have := h.slot_found hget
    rwa [show UInt32.ofNat 0 = 0 from rfl, UInt32.add_zero] at this
  have hmem : s ∈ t.pending := by rw [hpend]; exact List.mem_cons_self
  have hres := h.unresumed s hmem
  have hsig : s.signalled = false := by
    have := h.stuck s (by rw [hpend]; rfl)
    rw [Stamp.completes] at this
    revert this
    cases s.signalled <;> simp
  have hmark : mark .resumeFromFault t.pending =
      (if s.isFaulted then { s with resumed := true } else s) :: rest := by rw [hpend]; rfl
  rw [hslot, Stamp.faulted_slot] at hs
  split_ifs at hs with hf
  · obtain ⟨rfl, rfl⟩ := Prod.ext_iff.mp (Except.ok.inj hs)
    rw [if_pos hf] at hmark
    have hsome : s.fault.isSome = true := by
      rw [Stamp.isFaulted, hres, Bool.not_false, Bool.and_true] at hf
      exact hf
    refine ⟨⟨?_, ?_, ?_, fun hc => absurd rfl hc⟩, { t.queue.state.setSlot t.queue.state.completeCount
        ((s.slot.setFaulted false).setSignaled true) with faulted := false },
      ⟨h.pending_le, rfl, ?_, fun _ hq => hq, fun hc => absurd rfl hc, ?_⟩, rfl, rfl, rfl⟩
    · intro s' hs'
      rw [hmark, List.tail_cons] at hs'
      exact h.unresumed s' (by rw [hpend]; exact List.mem_cons_of_mem _ hs')
    · intro s' hs' hsig'
      rw [hmark] at hs'
      rcases List.mem_cons.mp hs' with rfl | hs'
      · rw [hsig] at hsig'
        cases hsig'
      · exact h.not_both s' (by rw [hpend]; exact List.mem_cons_of_mem _ hs') hsig'
    · intro s' hs' _
      rw [hmark] at hs'
      obtain rfl := Option.mem_some_iff.mp hs'
      exact ⟨rfl, hsome, hsig⟩
    · have hset := t.queue.state.window_setSlot h.pending_le (i := 0)
        (by rw [← h.length_pending, hpend]; exact Nat.succ_pos _)
        ((s.slot.setFaulted false).setSignaled true)
      rw [show UInt32.ofNat 0 = 0 from rfl, UInt32.add_zero] at hset
      rw [hmark]
      refine hset.trans ?_
      rw [h.window_eq, hpend, List.map_cons, List.map_cons, List.set_cons_zero]
      obtain ⟨o, ho⟩ := Option.isSome_iff_exists.mp hsome
      simp [Stamp.slot, ho, hres, hsig]
    · intro _
      rw [hslot, Stamp.faulted_slot, hf, Bool.not_true, Bool.and_false]
  · obtain ⟨rfl, rfl⟩ := Prod.ext_iff.mp (Except.ok.inj hs)
    rw [if_neg hf, ← hpend] at hmark
    refine ⟨?_, t.queue.state, ⟨h.pending_le, rfl, ?_, fun _ hq => hq, fun hc => absurd rfl hc, ?_⟩,
      rfl, rfl, rfl⟩
    · rw [hmark]
      exact marked_of_forall h.unresumed h.not_both fun _ hs _ => hs
    · rw [hmark, h.window_eq]
    · intro _
      rw [Bool.not_eq_true] at hf
      rw [hslot, Stamp.faulted_slot, hf, Bool.not_false, Bool.and_true]

/-- An operation on the queue as it stands, whose flags are those of `st`. -/
private theorem Tracks.pumps_flags (h : t.Tracks) (op : StampQueue.Op) (st : QueueState)
    (hmark : mark op t.pending = t.pending) (hop : op ≠ .resumeFromFault)
    (hst : st = { t.queue.state with quiesced := st.quiesced })
    (hq : op ≠ .quiesce → st.quiesced = true → t.queue.state.quiesced = true) :
    t.Pumps op { t.queue with state := st.pump.1 } st.pump.2 := by
  refine ⟨by rw [hmark]; exact marked_of_forall h.unresumed h.not_both fun _ hs _ => hs, st, ⟨?_, ?_, ?_, hq, ?_, ?_⟩,
    rfl, rfl, rfl⟩
  · rw [hst]
    exact h.pending_le
  · rw [hst]
  · rw [hst, hmark]
    exact h.window_eq
  · intro _
    rw [hst]
  · exact fun hc => absurd hc hop

/-- Every operation that returns is a write of its mark, followed by a pump: where the code skips
the pump, the pump would have done nothing. -/
theorem Tracks.pumps (h : t.Tracks) {op : StampQueue.Op} {q : StampQueue} {calls : List SinkCall}
    (hs : t.queue.step op = .ok (q, calls)) :
    Marked op t.pending (mark op t.pending) ∧ ∃ st, t.Writes op st ∧ q.state = st.pump.1 ∧
      signals calls = signals st.pump.2 ∧ faults calls = faults st.pump.2 := by
  change t.Pumps op q calls
  cases op with
  | pushStamp v c => exact h.pumps_push hs
  | signalStamp v => exact h.pumps_signal hs
  | faultStamp v o => exact h.pumps_fault hs
  | resumeFromFault =>
    cases hpend : t.pending with
    | nil => exact h.pumps_resume_nil hpend hs
    | cons s rest => exact h.pumps_resume_cons hpend hs
  | quiesce =>
    obtain ⟨rfl, rfl⟩ := Prod.ext_iff.mp (Except.ok.inj hs)
    exact h.pumps_flags _ _ rfl (by rintro ⟨⟩) rfl fun hc => absurd rfl hc
  | clearQuiesced =>
    obtain ⟨rfl, rfl⟩ := Prod.ext_iff.mp (Except.ok.inj hs)
    have hself : QueueState.pump { t.queue.state with quiesced := false } =
        ({ t.queue.state with quiesced := false }, []) := by
      refine QueueState.pump_eq_self _ ?_ fun p hp => (h.head_window hp).2
      intro p hp
      have hp := (h.head_window hp).1
      revert hp
      rw [PendingStamp.completes, PendingStamp.completes]
      cases p.signaled <;> simp
    have hflags := h.pumps_flags .clearQuiesced
      { t.queue.state with quiesced := false } rfl (by rintro ⟨⟩) rfl (by rintro - ⟨⟩)
    rwa [hself] at hflags
  | drain =>
    rw [StampQueue.step, StampQueue.drain] at hs
    split_ifs at hs with hq
    obtain ⟨rfl, rfl⟩ := Prod.ext_iff.mp (Except.ok.inj hs)
    exact h.pumps_flags _ _ rfl (by rintro ⟨⟩) rfl fun _ hq => hq

/-! ### What one operation publishes -/

/-- The stamps an operation leaves in the window it pumps, and how many of them complete. -/
structure Publishes (t : Traced) (op : StampQueue.Op) (t' : Traced) (calls : List SinkCall)
    (latch : Bool) (done rest : List Stamp) : Prop where
  mark_eq : mark op t.pending = done ++ rest
  history_eq : t'.history = t.history.take t.completed ++ (done ++ rest)
  completed_eq : t'.completed = t.completed + done.length
  done_completes : ∀ s ∈ done, s.completes t'.queue.state.quiesced = true
  rest_stuck : ∀ s ∈ rest.head?, s.completes t'.queue.state.quiesced = false
  pending_le : t'.queue.state.pendingCount.toNat ≤ 128
  window_eq : t'.queue.state.window = rest.map Stamp.slot
  calls_eq : t'.calls = t.calls ++ calls
  signals_eq : signals calls = (done.getLast?.map Stamp.value).toList
  faults_eq : faults calls =
    if latch then [] else ((rest.head?.filter Stamp.isFaulted).map fun s => s.slot.offset).toList
  faulted_eq : t'.queue.state.faulted = (latch || rest.head?.any Stamp.isFaulted)
  latch_eq : op ≠ .resumeFromFault → latch = t.queue.state.faulted
  latch_resume : op = .resumeFromFault → latch =
    (t.queue.state.faulted && !(t.queue.state.slot t.queue.state.completeCount).faulted)
  quiesced_le : op ≠ .quiesce → t'.queue.state.quiesced = true → t.queue.state.quiesced = true

private theorem signals_pump (o : Option PendingStamp) (b : Bool) (o' : Option PendingStamp) :
    signals ((o.map fun p => SinkCall.signal p.stampValue).toList ++
        if b then [] else (o'.map fun p => SinkCall.fault p.offset).toList) =
      (o.map PendingStamp.stampValue).toList := by
  cases o <;> cases b <;> cases o' <;> rfl

private theorem faults_pump (o : Option PendingStamp) (b : Bool) (o' : Option PendingStamp) :
    faults ((o.map fun p => SinkCall.signal p.stampValue).toList ++
        if b then [] else (o'.map fun p => SinkCall.fault p.offset).toList) =
      if b then [] else (o'.map PendingStamp.offset).toList := by
  cases o <;> cases b <;> cases o' <;> rfl

private theorem head?_dropWhile_not (C : Stamp → Bool) (l : List Stamp) :
    ∀ s ∈ (l.dropWhile C).head?, C s = false := by
  intro s hs
  have hnot := List.head?_dropWhile_not C l
  rw [Option.mem_def.mp hs] at hnot
  simpa using hnot

/-- One operation that returns marks the stamps that have not completed, completes the longest
prefix of them that can, and reports the next one if it is faulted and the latch is clear. -/
theorem Tracks.publishes (h : t.Tracks) {op : StampQueue.Op} {t' : Traced} (hs : t.Step op t') :
    Marked op t.pending (mark op t.pending) ∧
      ∃ calls latch done rest, t.Publishes op t' calls latch done rest := by
  obtain ⟨q, calls, hstep, rfl⟩ := hs.exists_eq
  obtain ⟨hmarked, st, hw, hq, hsig, hfault⟩ := h.pumps hstep
  obtain ⟨hcount, hwin⟩ := st.window_pump
  have hquiet : q.state.quiesced = st.quiesced := by rw [hq, QueueState.pump_eq]
  have hC : ((·.completes st.quiesced) : PendingStamp → Bool) ∘ Stamp.slot =
      Stamp.completes st.quiesced := by
    funext s
    exact Stamp.completes_slot _ s
  have hfin : st.finished = ((mark op t.pending).takeWhile (Stamp.completes st.quiesced)).map
      Stamp.slot := by
    rw [QueueState.finished, hw.window_eq, List.takeWhile_map, hC]
  have hdrop : st.window.dropWhile (·.completes st.quiesced) =
      ((mark op t.pending).dropWhile (Stamp.completes st.quiesced)).map Stamp.slot := by
    rw [hw.window_eq, List.dropWhile_map, hC]
  have hstuck : st.stuck =
      ((mark op t.pending).dropWhile (Stamp.completes st.quiesced)).head?.map Stamp.slot := by
    rw [QueueState.stuck, hdrop, List.head?_map]
  have hlen : st.finished.length < 2 ^ 32 := by
    have hle := (List.takeWhile_prefix (l := st.window) (·.completes st.quiesced)).length_le
    rw [QueueState.length_window] at hle
    exact hle.trans_lt st.pendingCount.toNat_lt
  refine ⟨hmarked, calls, st.faulted, (mark op t.pending).takeWhile (Stamp.completes st.quiesced),
    (mark op t.pending).dropWhile (Stamp.completes st.quiesced),
    ⟨List.takeWhile_append_dropWhile.symm, ?_, ?_, ?_, ?_, ?_, ?_, rfl, ?_, ?_, ?_, hw.faulted_eq,
      hw.faulted_resume, ?_⟩⟩
  · rw [List.takeWhile_append_dropWhile]
  · have hcc : q.state.completeCount - t.queue.state.completeCount =
        UInt32.ofNat st.finished.length := by
      rw [hq, QueueState.pump_eq, ← hw.completeCount_eq, UInt32.add_comm]
      exact UInt32.add_sub_cancel _ _
    rw [hcc, UInt32.toNat_ofNat_of_lt' hlen, hfin, List.length_map]
  · intro s hs
    rw [hquiet]
    exact List.mem_takeWhile_imp hs
  · rw [hquiet]
    exact head?_dropWhile_not _ _
  · rw [hq, hcount]
    exact (Nat.sub_le _ _).trans hw.pending_le
  · rw [hq]
    exact hwin.trans hdrop
  · rw [hsig, QueueState.pump_eq, signals_pump, hfin, List.getLast?_map, Option.map_map]
    simp only [Function.comp_def, Stamp.stampValue_slot]
  · rw [hfault, QueueState.pump_eq, faults_pump, hstuck, Option.filter_map,
      Option.map_map]
    simp only [Function.comp_def, Stamp.faulted_slot]
  · rw [hq, QueueState.pump_eq, hstuck]
    simp only [Option.any_map, Stamp.faulted_slot]
  · intro hop hq'
    rw [hquiet] at hq'
    exact hw.quiesced_le hop hq'

section

variable {op : StampQueue.Op} {t' : Traced} {calls : List SinkCall} {latch : Bool}
  {done rest : List Stamp}

private theorem Publishes.pending_eq (h : t.Tracks)
    (hp : t.Publishes op t' calls latch done rest) : t'.pending = rest := by
  have hlen : (t.history.take t.completed ++ done).length = t'.completed := by
    rw [hp.completed_eq, List.length_append, List.length_take_of_le h.completed_le]
  rw [pending, hp.history_eq, ← List.append_assoc, ← hlen]
  exact List.drop_left

/-- No stamp left pending has been resumed: the resumed one was the head, and it completed. -/
private theorem Publishes.unresumed (hm : Marked op t.pending (mark op t.pending))
    (hp : t.Publishes op t' calls latch done rest) : ∀ s ∈ rest, s.resumed = false := by
  intro s hs
  rw [hp.mark_eq] at hm
  cases done with
  | cons d done =>
    exact hm.unresumed s (List.mem_append_right _ hs)
  | nil =>
    cases rest with
    | nil => cases hs
    | cons r rest =>
      rcases List.mem_cons.mp hs with rfl | hs
      · have hstuck := hp.rest_stuck s rfl
        rw [Stamp.completes] at hstuck
        revert hstuck
        cases s.resumed <;> simp
      · exact hm.unresumed s hs

/-- A resumed stamp that completes was the faulted head. -/
private theorem Publishes.resumed_at (hm : Marked op t.pending (mark op t.pending))
    (hp : t.Publishes op t' calls latch done rest) {n : ℕ} {s : Stamp} (hget : done[n]? = some s)
    (hres : s.resumed = true) : op = .resumeFromFault ∧ n = 0 ∧ s.fault.isSome = true := by
  rw [hp.mark_eq] at hm
  cases n with
  | zero =>
    obtain ⟨hop, hsome, -⟩ := hm.resumed_head s (by
      rw [List.head?_append, List.head?_eq_getElem?, hget]
      rfl) hres
    exact ⟨hop, rfl, hsome⟩
  | succ n =>
    have hmem : s ∈ (done ++ rest).tail := by
      cases done with
      | nil => cases hget
      | cons d done => exact List.mem_append_left _ (List.mem_of_getElem? hget)
    rw [hm.unresumed s hmem] at hres
    cases hres

private theorem Tracks.step (h : t.Tracks) (hs : t.Step op t') : t'.Tracks := by
  obtain ⟨hm, calls, latch, done, rest, hp⟩ := h.publishes hs
  have hpend := hp.pending_eq h
  have hlen : t'.history.length = t.completed + (done.length + rest.length) := by
    rw [hp.history_eq, List.length_append, List.length_append,
      List.length_take_of_le h.completed_le]
  refine ⟨hp.pending_le, ?_, ?_, ?_, ?_, ?_, ?_⟩
  · rw [hlen, hp.completed_eq]
    omega
  · rw [hpend, hp.window_eq]
  · rw [hpend]
    exact hp.unresumed hm
  · rw [hpend]
    intro s hs
    exact hm.not_both s (by rw [hp.mark_eq]; exact List.mem_append_right _ hs)
  · rw [hpend]
    exact hp.rest_stuck
  · rw [hpend]
    intro s hs hf
    rw [hp.faulted_eq, Option.mem_def.mp hs, Option.any_some, hf, Bool.or_true]

private theorem tracks_init : Tracks {} where
  pending_le := by decide
  completed_le := Nat.le_refl _
  window_eq := rfl
  unresumed := nofun
  not_both := nofun
  stuck := nofun
  latched := nofun

theorem tracks_of_execution {ops : List StampQueue.Op} (hrun : Execution Step {} ops t) :
    t.Tracks :=
  hrun.invariant tracks_init fun _ _ _ h hs => h.step hs

end

/-! ### Completion -/

/-- The value an operation pushes. -/
def pushed : StampQueue.Op → Option UInt32
  | .pushStamp v _ => some v
  | _ => none

private theorem map_value_markFirst (v : UInt32) {f : Stamp → Stamp}
    (hf : ∀ s, (f s).value = s.value) (l : List Stamp) :
    (markFirst v f l).map Stamp.value = l.map Stamp.value := by
  induction l with
  | nil => rfl
  | cons s rest ih =>
    rw [markFirst]
    split_ifs
    · rw [List.map_cons, List.map_cons, hf]
    · rw [List.map_cons, List.map_cons, ih]

private theorem map_value_mark (op : StampQueue.Op) (l : List Stamp) :
    (mark op l).map Stamp.value = l.map Stamp.value ++ (pushed op).toList := by
  cases op with
  | pushStamp v c => rw [mark_pushStamp, List.map_append]; rfl
  | signalStamp v => simpa [mark_signalStamp, pushed] using map_value_markFirst v (by simp) l
  | faultStamp v o => simpa [mark_faultStamp, pushed] using map_value_markFirst v (by simp) l
  | resumeFromFault =>
    cases l with
    | nil => rfl
    | cons s rest =>
      rw [mark_resumeFromFault]
      split_ifs <;> simp [pushed]
  | quiesce | clearQuiesced | drain => exact (List.append_nil _).symm

/-- The history has the values pushed, in push order. -/
private theorem map_value_history {ops : List StampQueue.Op} (hrun : Execution Step {} ops t) :
    t.history.map Stamp.value = ops.filterMap pushed := by
  refine hrun.history (P := fun ops t => t.history.map Stamp.value = ops.filterMap pushed) rfl ?_
  intro as s a _ hvals hs
  obtain ⟨q, calls, -, rfl⟩ := hs.exists_eq
  rw [List.filterMap_append, ← hvals, List.map_append, map_value_mark, ← List.append_assoc,
    ← List.map_append, pending, List.take_append_drop]
  cases ha : pushed a with
  | none => simp [ha]
  | some v => simp [ha]

/-- Along every run that does not die, at most 128 stamps are pending and they are the last ones
pushed; each operation completes the next stamps in push order, each of them signalled, resumed at
the head or faulted in a quiesced queue, and signals the value of the last one it completes. A
push leaves the pending slots as they are. -/
theorem stamps_complete_in_push_order {ops : List StampQueue.Op}
    (hrun : Execution Step {} ops t) :
    t.queue.state.pendingCount.toNat ≤ 128 ∧
    t.history.map Stamp.value = ops.filterMap pushed ∧
    t.history.length = t.completed + t.queue.state.pendingCount.toNat ∧
    t.queue.state.window = (t.history.drop t.completed).map Stamp.slot ∧
    ∀ op t', t.Step op t' →
      (∀ v c, op = .pushStamp v c → t'.queue.state.window =
        t.queue.state.window ++ [{ stampValue := v, commandId := c, flags := 0 }]) ∧
      t'.history.take t.completed = t.history.take t.completed ∧
      t.completed ≤ t'.completed ∧ t'.completed ≤ t'.history.length ∧
      (∃ calls, t'.calls = t.calls ++ calls ∧
        signals calls = if t'.completed = t.completed then [] else
          (t'.history[t'.completed - 1]?.map Stamp.value).toList) ∧
      ∀ n s, t.completed ≤ n → n < t'.completed → t'.history[n]? = some s →
        s.signalled = true ∨
          (op = .resumeFromFault ∧ n = t.completed ∧ s.fault.isSome = true) ∨
          (s.fault.isSome = true ∧ t'.queue.state.quiesced = true) := by
  have h := tracks_of_execution hrun
  refine ⟨h.pending_le, map_value_history hrun, ?_, h.window_eq, ?_⟩
  · rw [← h.length_pending, pending, List.length_drop]
    exact (Nat.add_sub_cancel' h.completed_le).symm
  · intro op t' hs
    obtain ⟨hm, calls, latch, done, rest, hp⟩ := h.publishes hs
    have h' := h.step hs
    have htake : (t.history.take t.completed).length = t.completed :=
      List.length_take_of_le h.completed_le
    refine ⟨?_, ?_, ?_, h'.completed_le, ⟨calls, hp.calls_eq, ?_⟩, ?_⟩
    · rintro v c rfl
      obtain ⟨q, calls, hstep, rfl⟩ := hs.exists_eq
      rw [StampQueue.step, StampQueue.pushStamp] at hstep
      split_ifs at hstep with hfull
      obtain ⟨rfl, rfl⟩ := Prod.ext_iff.mp (Except.ok.inj hstep)
      refine (t.queue.state.window_push ?_ _).2
      exact lt_of_le_of_ne h.pending_le fun hc => hfull (UInt32.toNat_inj.mp hc)
    · rw [hp.history_eq, List.take_left' htake]
    · rw [hp.completed_eq]
      exact Nat.le_add_right _ _
    · rw [hp.signals_eq, hp.completed_eq]
      rcases List.eq_nil_or_concat done with rfl | ⟨l, s, rfl⟩
      · simp
      · rw [if_neg (by simp), hp.history_eq, List.getElem?_append_right (by simp [htake]),
          htake]
        simp [Nat.add_sub_assoc]
    · intro n s hn hn' hget
      rw [hp.history_eq, List.getElem?_append_right (by rw [htake]; exact hn), htake,
        List.getElem?_append_left (by rw [hp.completed_eq] at hn'; omega)] at hget
      have hcomp := hp.done_completes s (List.mem_of_getElem? hget)
      rw [Stamp.completes, Bool.or_eq_true, Bool.or_eq_true, Bool.and_eq_true] at hcomp
      rcases hcomp with (hsig | hres) | hquiet
      · exact .inl hsig
      · obtain ⟨hop, hzero, hsome⟩ := hp.resumed_at hm hget hres
        exact .inr (.inl ⟨hop, by omega, hsome⟩)
      · exact .inr (.inr hquiet)

/-! ### Faults -/

/-- The offset a stamp was faulted at, as the flags word keeps it. -/
def reported (s : Stamp) : Option ℕ := s.fault.map fun o => o.toNat % 2 ^ 30

/-- The states of a run without a quiesce: the latch says that the head is faulted, and every fault
that reached the head has been reported. -/
structure Reports (t : Traced) : Prop where
  unquiesced : t.queue.state.quiesced = false
  latch_iff : t.queue.state.faulted = t.pending.head?.any Stamp.isFaulted
  faults_eq : (faults t.calls).map UInt32.toNat =
    (t.history.take t.completed).filterMap reported ++ (t.pending.head?.bind reported).toList

section

variable {op : StampQueue.Op} {t' : Traced} {calls : List SinkCall} {latch : Bool}
  {done rest : List Stamp}

/-- The calls of `fault` of one operation report the stamp it stops at, if the latch is clear. -/
private theorem Publishes.map_faults (hm : Marked op t.pending (mark op t.pending))
    (hp : t.Publishes op t' calls latch done rest) :
    (faults calls).map UInt32.toNat = if latch then [] else (rest.head?.bind reported).toList := by
  rw [hp.faults_eq]
  cases latch with
  | true => rfl
  | false =>
    cases hr : rest.head? with
    | none => rfl
    | some s =>
      have hstuck := hp.rest_stuck s hr
      have hres := hp.unresumed hm s (List.mem_of_mem_head? hr)
      have hsig : s.signalled = false := by
        rw [Stamp.completes] at hstuck
        revert hstuck
        cases s.signalled <;> simp
      cases hf : s.fault with
      | none => simp [reported, Stamp.isFaulted, hf, Option.filter_some]
      | some o =>
        simp [reported, Stamp.isFaulted, hf, hres, Option.filter_some,
          Stamp.toNat_offset_slot hf hres hsig]

/-- Without a quiesce, the stamps that complete were signalled, so not faulted, except for a head
that was resumed. -/
private theorem Publishes.reported_done (hm : Marked op t.pending (mark op t.pending))
    (hp : t.Publishes op t' calls latch done rest) (hq : t'.queue.state.quiesced = false) {n : ℕ}
    {s : Stamp} (hget : done[n]? = some s) (hsome : (reported s).isSome = true) :
    op = .resumeFromFault ∧ n = 0 ∧ s.resumed = true := by
  have hmem := List.mem_of_getElem? hget
  have hcomp := hp.done_completes s hmem
  rw [Stamp.completes, hq, Bool.and_false, Bool.or_false, Bool.or_eq_true] at hcomp
  rcases hcomp with hsig | hres
  · have hnone := hm.not_both s (by rw [hp.mark_eq]; exact List.mem_append_left _ hmem) hsig
    rw [reported, hnone] at hsome
    cases hsome
  · obtain ⟨hop, hn, -⟩ := hp.resumed_at hm hget hres
    exact ⟨hop, hn, hres⟩

private theorem reported_eq_none {s : Stamp} (hres : s.resumed = false)
    (hf : s.isFaulted = false) : reported s = none := by
  rw [Stamp.isFaulted, hres, Bool.not_false, Bool.and_true, Option.isSome_eq_false_iff,
    Option.isNone_iff_eq_none] at hf
  rw [reported, hf]
  rfl

/-- Nothing completes while the head, unchanged, is stuck. -/
private theorem Publishes.done_eq_nil (hp : t.Publishes op t' calls latch done rest) {s : Stamp}
    (hhead : s ∈ (mark op t.pending).head?)
    (hstuck : s.completes t'.queue.state.quiesced = false) :
    done = [] ∧ rest.head? = some s := by
  rw [hp.mark_eq] at hhead
  cases done with
  | nil => exact ⟨rfl, hhead⟩
  | cons d l =>
    obtain rfl := Option.mem_some_iff.mp hhead
    rw [hp.done_completes d List.mem_cons_self] at hstuck
    cases hstuck

/-- An operation other than a resume: a reported fault stays at the head. -/
private theorem Publishes.balance (h : t.Tracks) (hr : t.Reports)
    (hm : Marked op t.pending (mark op t.pending))
    (hp : t.Publishes op t' calls latch done rest) (hq : t'.queue.state.quiesced = false)
    (hop : op ≠ .resumeFromFault) :
    (latch = true → rest.head?.any Stamp.isFaulted = true) ∧
    done.filterMap reported ++ (rest.head?.bind reported).toList =
      (t.pending.head?.bind reported).toList ++ (faults calls).map UInt32.toNat := by
  have hdone : done.filterMap reported = [] := by
    rw [List.filterMap_eq_nil_iff]
    intro s hs
    obtain ⟨n, hget⟩ := List.getElem?_of_mem hs
    by_contra hc
    exact hop (hp.reported_done hm hq hget (Option.isSome_iff_ne_none.mpr hc)).1
  rw [hdone, hp.map_faults hm, hp.latch_eq hop, hr.latch_iff]
  cases hhead : t.pending.head? with
  | none => simp
  | some s =>
    have hres := h.unresumed s (List.mem_of_mem_head? hhead)
    cases hf : s.isFaulted with
    | false => simp [hf, reported_eq_none hres hf]
    | true =>
      have hsome : s.fault.isSome = true := by
        rw [Stamp.isFaulted, hres, Bool.not_false, Bool.and_true] at hf
        exact hf
      have hstuck := h.stuck s hhead
      rw [hr.unquiesced] at hstuck
      obtain ⟨-, hrest⟩ := hp.done_eq_nil (hm.faulted_head hop s hhead hsome)
        (by rw [hq]; exact hstuck)
      simp [hrest, hf]

/-- A resume: the head completes if it was faulted, and the latch is clear for the next one. -/
private theorem Publishes.balance_resume (h : t.Tracks) (hr : t.Reports)
    (hm : Marked .resumeFromFault t.pending (mark .resumeFromFault t.pending))
    (hp : t.Publishes .resumeFromFault t' calls latch done rest)
    (hq : t'.queue.state.quiesced = false) :
    latch = false ∧
    done.filterMap reported ++ (rest.head?.bind reported).toList =
      (t.pending.head?.bind reported).toList ++ (faults calls).map UInt32.toNat := by
  have hlatch := hp.latch_resume rfl
  rw [hr.latch_iff] at hlatch
  rw [hp.map_faults hm]
  have hmark := hp.mark_eq
  cases hpend : t.pending with
  | nil =>
    rw [hpend] at hlatch hmark
    obtain ⟨rfl, rfl⟩ := List.append_eq_nil_iff.mp hmark.symm
    simp [hlatch]
  | cons s l =>
    have hres := h.unresumed s (by rw [hpend]; exact List.mem_cons_self)
    have hslot := h.slot_found (k := 0) (s := s) (by rw [hpend]; rfl)
    rw [show UInt32.ofNat 0 = 0 from rfl, UInt32.add_zero] at hslot
    rw [hslot, Stamp.faulted_slot, hpend, List.head?_cons, Option.any_some,
      Bool.and_not_self] at hlatch
    cases hf : s.isFaulted with
    | false =>
      have hstuck := h.stuck s (by rw [hpend]; rfl)
      rw [hr.unquiesced] at hstuck
      obtain ⟨rfl, hrest⟩ := hp.done_eq_nil (s := s) (by rw [hpend, mark_resumeFromFault, hf]; rfl)
        (by rw [hq]; exact hstuck)
      simp [hlatch, hrest, reported_eq_none hres hf]
    | true =>
      rw [hpend, mark_resumeFromFault, if_pos hf] at hmark
      cases done with
      | nil =>
        have hstuck := hp.rest_stuck { s with resumed := true } (by
          rw [List.nil_append] at hmark
          rw [← hmark]
          rfl)
        rw [Stamp.completes, Bool.or_true, Bool.true_or] at hstuck
        cases hstuck
      | cons d done =>
        obtain ⟨rfl, rfl⟩ := List.cons_eq_cons.mp hmark
        have hdone : done.filterMap reported = [] := by
          rw [List.filterMap_eq_nil_iff]
          intro s' hs'
          obtain ⟨n, hget⟩ := List.getElem?_of_mem hs'
          by_contra hc
          have hn := (hp.reported_done hm hq (n := n + 1) (s := s') (by simpa using hget)
            (Option.isSome_iff_ne_none.mpr hc)).2.1
          omega
        rw [List.filterMap_cons, hlatch, hdone]
        cases hfault : s.fault with
        | none => simp [reported, hfault]
        | some o => simp [reported, hfault]

private theorem Reports.step (h : t.Tracks) (hr : t.Reports) (hop : op ≠ .quiesce)
    (hs : t.Step op t') : t'.Reports := by
  obtain ⟨hm, calls, latch, done, rest, hp⟩ := h.publishes hs
  have hq : t'.queue.state.quiesced = false := by
    rw [← Bool.not_eq_true]
    intro hc
    have := hp.quiesced_le hop hc
    rw [hr.unquiesced] at this
    cases this
  have hpend := hp.pending_eq h
  have hbal : (latch = true → rest.head?.any Stamp.isFaulted = true) ∧
      done.filterMap reported ++ (rest.head?.bind reported).toList =
        (t.pending.head?.bind reported).toList ++ (faults calls).map UInt32.toNat := by
    by_cases hres : op = .resumeFromFault
    · subst hres
      obtain ⟨hlatch, hbal⟩ := hp.balance_resume h hr hm hq
      exact ⟨fun hc => absurd hc (by simp [hlatch]), hbal⟩
    · exact hp.balance h hr hm hq hres
  refine ⟨hq, ?_, ?_⟩
  · rw [hp.faulted_eq, hpend]
    cases hl : latch with
    | false => rfl
    | true => rw [hbal.1 hl]; rfl
  · have htake : (t.history.take t.completed).length = t.completed :=
      List.length_take_of_le h.completed_le
    have hfaults : faults t'.calls = faults t.calls ++ faults calls := by
      rw [hp.calls_eq, faults, List.filterMap_append]
      rfl
    rw [hfaults, List.map_append, hr.faults_eq, List.append_assoc, ← hbal.2, hpend, hp.history_eq,
      hp.completed_eq, ← List.append_assoc (t.history.take t.completed),
      List.take_left' (by rw [List.length_append, htake]), List.filterMap_append,
      List.append_assoc]

private theorem reports_init : Reports {} where
  unquiesced := rfl
  latch_iff := rfl
  faults_eq := rfl

private theorem reports_of_execution {ops : List StampQueue.Op} (hrun : Execution Step {} ops t)
    (hops : .quiesce ∉ ops) : t.Reports := by
  induction hrun with
  | nil => exact reports_init
  | snoc hrun hs ih =>
    rw [List.mem_append, List.mem_singleton, not_or] at hops
    exact (ih hops.1).step (tracks_of_execution hrun) (fun hc => hops.2 hc.symm) hs

end

/-- After every operation nothing is left to publish: the head is not signalled, nor faulted while
the queue is quiesced, and a pump would do nothing. In runs without a quiesce the latch is set
exactly when the head is faulted, the calls of `fault` are the faults of the stamps that have
reached the head, in order and each once, with its offset modulo `2^30`, and with the latch set
only a resume can report another. -/
theorem no_publication_is_lost {ops : List StampQueue.Op} (hrun : Execution Step {} ops t) :
    (∀ p ∈ t.queue.state.window.head?, p.signaled = false ∧
      (t.queue.state.quiesced = true → p.faulted = false)) ∧
    t.queue.state.pump = (t.queue.state, []) ∧
    (.quiesce ∉ ops →
      (t.queue.state.faulted = true ↔
        ∃ p ∈ t.queue.state.window.head?, p.faulted = true ∧ p.signaled = false) ∧
      (faults t.calls).map UInt32.toNat =
        (t.history.take (t.completed + 1)).filterMap reported ∧
      ∀ op t', op ≠ .quiesce → t.Step op t' → ∃ calls, t'.calls = t.calls ++ calls ∧
        (faults calls).length ≤ 1 ∧
        (t.queue.state.faulted = true → op ≠ .resumeFromFault → faults calls = [])) := by
  have h := tracks_of_execution hrun
  have hhead : ∀ p ∈ t.queue.state.window.head?, p.signaled = false ∧
      (t.queue.state.quiesced = true → p.faulted = false) := by
    intro p hp
    have hcomp := (h.head_window hp).1
    rw [PendingStamp.completes, Bool.or_eq_false_iff] at hcomp
    refine ⟨hcomp.1, fun hq => ?_⟩
    rw [hq, Bool.and_true] at hcomp
    exact hcomp.2
  refine ⟨hhead, h.pump_eq_self rfl rfl rfl, fun hops => ?_⟩
  have hr := reports_of_execution hrun hops
  refine ⟨?_, ?_, ?_⟩
  · rw [hr.latch_iff]
    constructor
    · intro hany
      obtain ⟨s, hs, hf⟩ := Option.any_eq_true _ _ |>.mp hany
      have hmem : s.slot ∈ t.queue.state.window.head? := by
        rw [h.window_eq, List.head?_map, hs]
        rfl
      exact ⟨s.slot, hmem, by rw [Stamp.faulted_slot, hf], (hhead _ hmem).1⟩
    · rintro ⟨p, hp, hf, -⟩
      rw [h.window_eq, List.head?_map] at hp
      obtain ⟨s, hs, rfl⟩ := Option.mem_map.mp hp
      rw [Stamp.faulted_slot] at hf
      rw [Option.mem_def.mp hs, Option.any_some, hf]
  · rw [hr.faults_eq, List.take_add_one, List.filterMap_append, pending, List.head?_drop]
    cases t.history[t.completed]? with
    | none => rfl
    | some s => cases hs : reported s <;> simp [hs]
  · intro op t' _ hs
    obtain ⟨hm, calls, latch, done, rest, hp⟩ := h.publishes hs
    refine ⟨calls, hp.calls_eq, ?_, ?_⟩
    · rw [hp.faults_eq]
      split_ifs
      · exact Nat.zero_le 1
      · cases rest.head?.filter Stamp.isFaulted <;> simp
    · intro hlatch hop
      rw [hp.faults_eq, hp.latch_eq hop, if_pos hlatch]

/-- A resume that completes a faulted head and the signalled stamp behind it. -/
theorem stamps_complete_in_push_order_resume : ∃ t t',
    Execution Step {} [.pushStamp 7 1, .pushStamp 8 2, .signalStamp 8, .faultStamp 7 5] t ∧
    t.Step .resumeFromFault t' ∧ t.completed = 0 ∧ t'.completed = 2 ∧
    t.history.length = t.completed + t.queue.state.pendingCount.toNat ∧
    ∃ calls, t'.calls = t.calls ++ calls ∧ signals calls = [8] := by
  obtain ⟨t, hrun, h0, t', hs, h2, hval⟩ : ∃ t,
      [.pushStamp 7 1, .pushStamp 8 2, .signalStamp 8, .faultStamp 7 5].foldlM next {} = .ok t ∧
      t.completed = 0 ∧ ∃ t', t.Step .resumeFromFault t' ∧ t'.completed = 2 ∧
      t'.history[1]?.map Stamp.value = some 8 := ⟨_, rfl, rfl, _, rfl, rfl, rfl⟩
  have hrun := Execution.of_foldlM _ (fun _ _ _ h => h) hrun
  obtain ⟨-, -, hlen, -, hstep⟩ := stamps_complete_in_push_order hrun
  obtain ⟨-, -, -, -, hsig, -⟩ := hstep .resumeFromFault t' hs
  rw [h0, h2, if_neg (by decide), hval] at hsig
  exact ⟨t, t', hrun, hs, h0, h2, hlen, hsig⟩

/-- A fault that waits for the stamp before it and is reported at the head. -/
theorem no_publication_is_lost_fault : ∃ t,
    Execution Step {} [.pushStamp 7 1, .pushStamp 8 2, .faultStamp 8 0x40000005, .signalStamp 7] t ∧
    (faults t.calls).map UInt32.toNat = [5] ∧
    (∃ p ∈ t.queue.state.window.head?, p.faulted = true ∧ p.signaled = false) := by
  obtain ⟨t, hrun, hlatch, hrep⟩ : ∃ t, [.pushStamp 7 1, .pushStamp 8 2, .faultStamp 8 0x40000005,
      .signalStamp 7].foldlM next {} = .ok t ∧ t.queue.state.faulted = true ∧
      (t.history.take (t.completed + 1)).filterMap reported = [5] := ⟨_, rfl, rfl, rfl⟩
  have hrun := Execution.of_foldlM _ (fun _ _ _ h => h) hrun
  obtain ⟨-, -, hquiet⟩ := no_publication_is_lost hrun
  obtain ⟨hiff, hfaults, -⟩ := hquiet (by decide)
  exact ⟨t, hrun, hfaults.trans hrep, hiff.mp hlatch⟩

end Traced

end ReimsVgpu.Fifo
