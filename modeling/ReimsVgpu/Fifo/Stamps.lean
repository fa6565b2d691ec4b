import ReimsVgpu.Library.RingWindow
import Mathlib.Tactic.IntervalCases

/-!
# The stamp queue

A FIFO's record of the commands it has started and not yet published: a ring of 128 slots and two
counters that wrap at `2^32`. Each slot has a value, a command and a flags word, whose bits 0 and 1
say that the stamp was signalled or faulted and whose upper 30 bits are the fault's offset.
Completed slots keep their contents. An operation runs under the queue's lock, so it is one step;
it answers the new state and the calls it made on the sink, in order, or why it did not return:
a death, or, for a push onto a full queue, that it waits.

The second half reads the ring as the list of its pending slots (`QueueState.window`): what the
scan finds (`scan_eq`), what the pump publishes (`pump_eq`), and what a write does.

## Main definitions

* `PendingStamp`, `QueueState`, `StampQueue`, `SinkCall`.
* `StampQueue.pushStamp`, `StampQueue.signalStamp`, `StampQueue.faultStamp`,
  `StampQueue.resumeFromFault`, `StampQueue.quiesce`, `StampQueue.clearQuiesced`,
  `StampQueue.drain`; `StampQueue.step` runs one of them.
* `QueueState.window`.

## Main results

* `QueueState.scan_eq`, `QueueState.pump_eq`: the two loops over the window.
-/

open RingWindow

namespace ReimsVgpu.Fifo

/-- How many stamps may be pending. -/
def stampQueueCapacity : UInt32 := 128

/-- "No fault to report". -/
def noFault : UInt32 := 0xffffffff

/-- The calls on the queue's sink. -/
inductive SinkCall
  | signal (stampValue : UInt32)
  | fault (faultOffset : UInt32)
  | headNotFaulted
  deriving DecidableEq, Repr

/-- How the queue ends the process. -/
inductive DeathKind
  | signalNothingPending
  | signalTwice
  | signalFaulted
  | faultNothingPending
  | faultOffsetRange
  | faultSignalled
  | faultTwice
  | queueDrainUnquiesced
  deriving DecidableEq, Repr

/-- Why an operation does not return: the process died, or the push waits for room. -/
inductive Stop
  | died (kind : DeathKind)
  | waits
  deriving DecidableEq, Repr

/-- One slot: the value, the command and the flags word. -/
structure PendingStamp where
  stampValue : UInt32 := 0
  commandId : UInt32 := 0
  flags : UInt32 := 0
  deriving DecidableEq, Repr

namespace PendingStamp

/-- Bit 0: signalled. -/
def signaled (p : PendingStamp) : Bool := p.flags &&& 1 != 0

/-- Bit 1: faulted. -/
def faulted (p : PendingStamp) : Bool := p.flags &&& 2 != 0

/-- Bits 2-31: the fault offset. -/
def offset (p : PendingStamp) : UInt32 := p.flags >>> (2 : UInt32)

def setSignaled (p : PendingStamp) (v : Bool) : PendingStamp :=
  { p with flags := (p.flags &&& ~~~(1 : UInt32)) ||| v.toUInt32 }

def setFaulted (p : PendingStamp) (v : Bool) : PendingStamp :=
  { p with flags := (p.flags &&& ~~~(2 : UInt32)) ||| (v.toUInt32 <<< (1 : UInt32)) }

/-- The offset field is 30 bits wide: bits 30 and 31 of `v` are lost. -/
def setOffset (p : PendingStamp) (v : UInt32) : PendingStamp :=
  { p with flags := (p.flags &&& (3 : UInt32)) ||| (v <<< (2 : UInt32)) }

end PendingStamp

/-- The queue's state, under its lock. -/
@[ext] structure QueueState where
  slots : Fin 128 → PendingStamp := fun _ => {}
  writeCount : UInt32 := 0
  completeCount : UInt32 := 0
  faulted : Bool := false
  quiesced : Bool := false

namespace QueueState

def pendingCount (st : QueueState) : UInt32 := st.writeCount - st.completeCount

/-- The slot of logical index `i`. -/
def slot (st : QueueState) (i : UInt32) : PendingStamp := st.slots (index 128 i)

def setSlot (st : QueueState) (i : UInt32) (p : PendingStamp) : QueueState :=
  { st with slots := Function.update st.slots (index 128 i) p }

/-- The scan's loop: `n` slots are left before the write count. -/
def scanLoop (st : QueueState) (stampValue : UInt32) : ℕ → UInt32 → Bool → Option UInt32 × Bool
  | 0, _, atHead => (none, atHead)
  | n + 1, i, atHead =>
    let slot := st.slot i
    if slot.stampValue != stampValue then
      scanLoop st stampValue n (i + 1) (if !slot.signaled then false else atHead)
    else (some i, atHead)

/-- The first pending slot with the value, and whether every slot before it (or every slot, when
none has it) is signalled. -/
def scan (st : QueueState) (stampValue : UInt32) : Option UInt32 × Bool :=
  st.scanLoop stampValue st.pendingCount.toNat st.completeCount true

/-- The pump's loop, `n` slots being left: the completed count, the last completed value, and the
offset of a fault to report. -/
def pumpLoop (st : QueueState) : ℕ → UInt32 → UInt32 → UInt32 → UInt32 × UInt32 × UInt32
  | 0, _, count, value => (count, value, noFault)
  | n + 1, i, count, value =>
    let pending := st.slot i
    if !pending.signaled && !pending.faulted then (count, value, noFault)
    else if !pending.signaled && !st.quiesced then
      (count, value, if !st.faulted then pending.offset else noFault)
    else pumpLoop st n (i + 1) (count + 1) pending.stampValue

/-- Publishes the contiguous completed prefix (one signal, of its last value), then reports a
faulted head once per latch. -/
def pump (st : QueueState) : QueueState × List SinkCall :=
  let (count, value, offset) := st.pumpLoop st.pendingCount.toNat st.completeCount 0 0
  let (st, calls) := if count != 0 then
      ({ st with completeCount := st.completeCount + count }, [SinkCall.signal value])
    else (st, [])
  if offset != noFault then ({ st with faulted := true }, calls ++ [.fault offset])
  else (st, calls)

/-- The pump, where the caller's scan asks for it. -/
def pumpIf (st : QueueState) (b : Bool) : QueueState × List SinkCall :=
  if b then st.pump else (st, [])

end QueueState

/-- The queue: its state, and the device's record of the last value pushed. -/
structure StampQueue where
  state : QueueState := {}
  lastPending : UInt32 := 0

namespace StampQueue

/-- What one operation does. -/
abbrev Result := Except Stop (StampQueue × List SinkCall)

/-- The operation returns with this state and these calls. -/
def done (q : StampQueue) (r : QueueState × List SinkCall) : Result :=
  .ok ({ q with state := r.1 }, r.2)

/-- Pushes a pending stamp; waits while 128 are pending. -/
def pushStamp (q : StampQueue) (stampValue commandId : UInt32) : Result :=
  if q.state.pendingCount = stampQueueCapacity then .error .waits
  else
    let write := q.state.writeCount
    let st := q.state.setSlot write { stampValue, commandId, flags := 0 }
    .ok ({ state := { st with writeCount := write + 1 }, lastPending := stampValue }, [])

/-- Marks the first pending slot with the value signalled, then pumps if everything before it
is. -/
def signalStamp (q : StampQueue) (stampValue : UInt32) : Result :=
  if q.state.pendingCount = 0 then .error (.died .signalNothingPending)
  else
    match q.state.scan stampValue with
    | (some i, atHead) =>
      let slot := q.state.slot i
      if slot.signaled then .error (.died .signalTwice)
      else if slot.faulted then .error (.died .signalFaulted)
      else q.done ((q.state.setSlot i (slot.setSignaled true)).pumpIf atHead)
    | (none, atHead) => q.done (q.state.pumpIf atHead)

/-- Marks the first pending slot with the value faulted at `offset`, then pumps if everything
before it is signalled. -/
def faultStamp (q : StampQueue) (stampValue offset : UInt32) : Result :=
  if q.state.pendingCount = 0 then .error (.died .faultNothingPending)
  else if ¬ offset < 0x80000000 then .error (.died .faultOffsetRange)
  else
    match q.state.scan stampValue with
    | (some i, atHead) =>
      let slot := q.state.slot i
      if slot.signaled then .error (.died .faultSignalled)
      else if slot.faulted then .error (.died .faultTwice)
      else q.done ((q.state.setSlot i ((slot.setFaulted true).setOffset offset)).pumpIf atHead)
    | (none, atHead) => q.done (q.state.pumpIf atHead)

/-- Resumes a faulted head: it counts as signalled and the latch clears. The head slot is read even
when nothing is pending. Then a pump. -/
def resumeFromFault (q : StampQueue) : Result :=
  let complete := q.state.completeCount
  let slot := q.state.slot complete
  if slot.faulted then
    let st := q.state.setSlot complete ((slot.setFaulted false).setSignaled true)
    q.done (QueueState.pump { st with faulted := false })
  else
    let (st, calls) := q.state.pump
    q.done (st, .headNotFaulted :: calls)

/-- Quiesces the queue, then pumps. -/
def quiesce (q : StampQueue) : Result :=
  q.done (QueueState.pump { q.state with quiesced := true })

/-- Clears the quiesced flag: no pump, and the fault latch as it is. -/
def clearQuiesced (q : StampQueue) : Result :=
  q.done ({ q.state with quiesced := false }, [])

/-- The pump a drain opens with; its wait for the last stamp changes nothing. -/
def drain (q : StampQueue) : Result :=
  if !q.state.quiesced then .error (.died .queueDrainUnquiesced)
  else q.done q.state.pump

/-- The operations on a queue. -/
inductive Op
  | pushStamp (stampValue commandId : UInt32)
  | signalStamp (stampValue : UInt32)
  | faultStamp (stampValue offset : UInt32)
  | resumeFromFault
  | quiesce
  | clearQuiesced
  | drain
  deriving DecidableEq, Repr

/-- One operation. -/
def step (q : StampQueue) : Op → Result
  | .pushStamp v c => q.pushStamp v c
  | .signalStamp v => q.signalStamp v
  | .faultStamp v o => q.faultStamp v o
  | .resumeFromFault => q.resumeFromFault
  | .quiesce => q.quiesce
  | .clearQuiesced => q.clearQuiesced
  | .drain => q.drain

end StampQueue

/-! ### The flags word -/

namespace PendingStamp

private theorem and_twoPow_ne_zero (x : UInt32) {i : ℕ} (hi : i < 32) :
    (x &&& UInt32.ofBitVec (BitVec.twoPow 32 i) != 0) = x.toBitVec[i] := by
  rw [Bool.eq_iff_iff, bne_iff_ne, ne_eq, ← UInt32.toBitVec_inj]
  constructor
  · intro h
    by_contra hc
    refine h ?_
    ext j hj
    by_cases hij : j = i
    · subst hij
      simpa using hc
    · simp [hij]
  · intro h hc
    have hbit : (x.toBitVec &&& BitVec.twoPow 32 i)[i] = false := by
      rw [show x.toBitVec &&& BitVec.twoPow 32 i = 0#32 from hc]
      simp
    simp [h] at hbit

variable (p : PendingStamp)

private theorem signaled_eq : p.signaled = p.flags.toBitVec[0] :=
  and_twoPow_ne_zero p.flags (i := 0) (by decide)

private theorem faulted_eq : p.faulted = p.flags.toBitVec[1] :=
  and_twoPow_ne_zero p.flags (i := 1) (by decide)

@[simp] theorem signaled_setSignaled (v : Bool) : (p.setSignaled v).signaled = v := by
  simp [signaled_eq, setSignaled]

@[simp] theorem faulted_setSignaled (v : Bool) : (p.setSignaled v).faulted = p.faulted := by
  simp [faulted_eq, setSignaled]

@[simp] theorem signaled_setFaulted (v : Bool) : (p.setFaulted v).signaled = p.signaled := by
  simp [signaled_eq, setFaulted]

@[simp] theorem faulted_setFaulted (v : Bool) : (p.setFaulted v).faulted = v := by
  simp [faulted_eq, setFaulted]

@[simp] theorem signaled_setOffset (v : UInt32) : (p.setOffset v).signaled = p.signaled := by
  simp [signaled_eq, setOffset]

@[simp] theorem faulted_setOffset (v : UInt32) : (p.setOffset v).faulted = p.faulted := by
  simp [faulted_eq, setOffset]

theorem toNat_offset_setOffset (v : UInt32) :
    (p.setOffset v).offset.toNat = v.toNat % 2 ^ 30 := by
  have hlow : p.flags.toNat &&& 3 < 4 := Nat.and_lt_two_pow _ (by decide : 3 < 2 ^ 2)
  simp only [offset, setOffset, UInt32.toNat_shiftRight, UInt32.toNat_or, UInt32.toNat_and,
    UInt32.toNat_shiftLeft, UInt32.toNat_ofNat, Nat.shiftRight_or_distrib]
  norm_num [Nat.shiftLeft_eq, Nat.shiftRight_eq_div_pow]
  rw [Nat.div_eq_of_lt hlow, Nat.zero_or]
  omega

theorem offset_ne_noFault : p.offset ≠ noFault := by
  intro h
  have hlt := p.flags.toNat_lt
  have hnat := congrArg UInt32.toNat h
  rw [show noFault.toNat = 4294967295 from rfl, offset, UInt32.toNat_shiftRight,
    Nat.shiftRight_eq_div_pow, show (2 : UInt32).toNat % 32 = 2 from rfl] at hnat
  omega

/-- A slot the pump counts as completed. -/
def completes (quiesced : Bool) (p : PendingStamp) : Bool := p.signaled || (p.faulted && quiesced)

end PendingStamp

/-! ### The pending window -/

namespace QueueState

variable (st : QueueState)

/-- The pending slots, from the head on. -/
def window : List PendingStamp := RingWindow.window st.slots st.completeCount st.pendingCount.toNat

theorem length_window : st.window.length = st.pendingCount.toNat := by
  simp [window]

private theorem capacity_dvd : 128 ∣ 2 ^ 32 := by decide

theorem add_pendingCount : st.completeCount + st.pendingCount = st.writeCount := by
  rw [pendingCount, UInt32.add_comm, UInt32.sub_add_cancel]

theorem slot_eq {i : ℕ} (hi : i < st.pendingCount.toNat) :
    some (st.slot (st.completeCount + UInt32.ofNat i)) = st.window[i]? :=
  (getElem?_window st.slots st.completeCount hi).symm

private theorem scanLoop_eq (v : UInt32) (n : ℕ) (i : UInt32) (b : Bool) :
    st.scanLoop v n i b =
      (((RingWindow.window st.slots i n).findIdx? (·.stampValue = v)).map
          fun k => i + UInt32.ofNat k,
        b && ((RingWindow.window st.slots i n).takeWhile (·.stampValue ≠ v)).all
          PendingStamp.signaled) := by
  induction n generalizing i b with
  | zero => simp [scanLoop]
  | succ n ih =>
    rw [window_succ, scanLoop]
    by_cases hv : (st.slot i).stampValue = v
    · have hv' : (st.slots (index 128 i)).stampValue = v := hv
      simp [hv, hv', List.findIdx?_cons]
    · have hv' : (st.slots (index 128 i)).stampValue ≠ v := hv
      have hne : ((st.slot i).stampValue != v) = true := by simpa using hv
      simp only [hne, ↓reduceIte, ih, List.findIdx?_cons, hv', decide_false, Bool.false_eq_true,
        Option.map_map, ne_eq, not_false_eq_true, decide_true, List.takeWhile_cons_of_pos,
        List.all_cons]
      refine Prod.ext ?_ ?_
      · refine Option.map_congr fun k _ => ?_
        rw [Function.comp_apply, UInt32.ofNat_add, UInt32.add_comm (UInt32.ofNat k),
          ← UInt32.add_assoc]
        rfl
      · rw [show (st.slots (index 128 i)).signaled = (st.slot i).signaled from rfl]
        cases (st.slot i).signaled <;> cases b <;> rfl

/-- The scan finds the first pending slot with the value, and whether every slot before it is
signalled. -/
theorem scan_eq (v : UInt32) : st.scan v =
    ((st.window.findIdx? (·.stampValue = v)).map fun k => st.completeCount + UInt32.ofNat k,
      (st.window.takeWhile (·.stampValue ≠ v)).all PendingStamp.signaled) := by
  rw [scan, scanLoop_eq, Bool.true_and, window]

private theorem pumpLoop_eq (n : ℕ) (i c v : UInt32) :
    st.pumpLoop n i c v =
      (c + UInt32.ofNat
          ((RingWindow.window st.slots i n).takeWhile (·.completes st.quiesced)).length,
        (((RingWindow.window st.slots i n).takeWhile (·.completes st.quiesced)).getLast?.map
          PendingStamp.stampValue).getD v,
        match ((RingWindow.window st.slots i n).dropWhile (·.completes st.quiesced)).head? with
        | some p => if p.faulted && !st.faulted then p.offset else noFault
        | none => noFault) := by
  induction n generalizing i c v with
  | zero => simp [pumpLoop]
  | succ n ih =>
    rw [window_succ, pumpLoop, show st.slots (index 128 i) = st.slot i from rfl]
    by_cases hc : (st.slot i).completes st.quiesced = true
    · have hgo : (!(st.slot i).signaled && !(st.slot i).faulted) = false ∧
          (!(st.slot i).signaled && !st.quiesced) = false := by
        rw [PendingStamp.completes] at hc
        revert hc
        cases (st.slot i).signaled <;> cases (st.slot i).faulted <;> cases st.quiesced <;> decide
      simp only [hgo, Bool.false_eq_true, ↓reduceIte, ih, hc, List.takeWhile_cons_of_pos,
        List.dropWhile_cons_of_pos, List.length_cons]
      refine Prod.ext ?_ (Prod.ext ?_ rfl)
      · change c + 1 + UInt32.ofNat _ = c + UInt32.ofNat (_ + 1)
        rw [UInt32.ofNat_add, UInt32.add_comm (UInt32.ofNat _), ← UInt32.add_assoc]
        rfl
      · cases (RingWindow.window st.slots (i + 1) n).takeWhile (·.completes st.quiesced) with
        | nil => rfl
        | cons p l => simp [List.getLast?_cons]
    · simp only [hc, Bool.false_eq_true, not_false_eq_true, List.takeWhile_cons_of_neg,
        List.dropWhile_cons_of_neg, List.length_nil, List.head?_cons]
      rw [PendingStamp.completes] at hc
      revert hc
      cases (st.slot i).signaled <;> cases (st.slot i).faulted <;> cases st.quiesced <;>
        cases st.faulted <;> simp

/-- The completed prefix of the window. -/
def finished : List PendingStamp := st.window.takeWhile (·.completes st.quiesced)

/-- The first pending slot that is not completed. -/
def stuck : Option PendingStamp := (st.window.dropWhile (·.completes st.quiesced)).head?

/-- The pump publishes the completed prefix of the window by one signal of its last value, and
reports the slot it stops at when that is faulted and the latch is clear. -/
theorem pump_eq : st.pump =
    ({ st with
        completeCount := st.completeCount + UInt32.ofNat st.finished.length
        faulted := st.faulted || st.stuck.any PendingStamp.faulted },
      (st.finished.getLast?.map fun p => SinkCall.signal p.stampValue).toList ++
        if st.faulted then [] else
          ((st.stuck.filter PendingStamp.faulted).map fun p => SinkCall.fault p.offset).toList) := by
  have hlen : st.finished.length < 2 ^ 32 := by
    have hle := (List.takeWhile_prefix (l := st.window) (·.completes st.quiesced)).length_le
    rw [length_window] at hle
    exact hle.trans_lt st.pendingCount.toNat_lt
  have hcount : ((0 + UInt32.ofNat st.finished.length) != 0) = !st.finished.isEmpty := by
    rw [UInt32.zero_add, Bool.eq_iff_iff, bne_iff_ne, ne_eq, ← UInt32.toNat_inj,
      UInt32.toNat_ofNat_of_lt' hlen]
    cases st.finished <;> simp
  have hpump := pumpLoop_eq st st.pendingCount.toNat st.completeCount 0 0
  change _ = (0 + UInt32.ofNat st.finished.length,
    (st.finished.getLast?.map PendingStamp.stampValue).getD 0,
    match st.stuck with
    | some p => if p.faulted && !st.faulted then p.offset else noFault
    | none => noFault) at hpump
  simp only [pump, hpump, hcount]
  have hne (p : PendingStamp) : (p.offset != noFault) = true := by
    simpa using p.offset_ne_noFault
  have hfilter (p : PendingStamp) : (some p).filter PendingStamp.faulted =
      if p.faulted then some p else none := by
    rw [Option.filter_some]
  cases st.finished with
  | nil =>
    cases st.stuck with
    | none => simp
    | some p =>
      cases hp : p.faulted <;> cases hf : st.faulted <;>
        simp [hp, hne, hfilter, QueueState.ext_iff, hf]
  | cons q l =>
    obtain ⟨x, hx⟩ : ∃ x, (q :: l).getLast? = some x := ⟨_, List.getLast?_cons⟩
    cases st.stuck with
    | none => simp [hx]
    | some p =>
      cases hp : p.faulted <;> cases hf : st.faulted <;> simp [hp, hne, hfilter, hx]

/-- A pump has nothing to do when the head is not completed and, if faulted, was reported. -/
theorem pump_eq_self (hhead : ∀ p ∈ st.window.head?, p.completes st.quiesced = false)
    (hlatch : ∀ p ∈ st.window.head?, p.faulted = true → st.faulted = true) :
    st.pump = (st, []) := by
  have hfin : st.finished = [] := by
    rw [finished]
    cases hw : st.window with
    | nil => rfl
    | cons p l =>
      have hp := hhead p (by simp [hw])
      simp [hp]
  have hstuck : st.stuck = st.window.head? := by
    rw [stuck]
    cases hw : st.window with
    | nil => rfl
    | cons p l =>
      have hp := hhead p (by simp [hw])
      simp [hp]
  rw [pump_eq, hfin, hstuck]
  cases hw : st.window.head? with
  | none => simp
  | some p =>
    have hp := hlatch p hw
    cases hf : p.faulted with
    | false => simp [hf, Option.filter_some]
    | true => simp [hp hf, QueueState.ext_iff]

/-! ### Writes and the window -/

@[simp] theorem faulted_setSlot (i : UInt32) (p : PendingStamp) :
    (st.setSlot i p).faulted = st.faulted := rfl

@[simp] theorem quiesced_setSlot (i : UInt32) (p : PendingStamp) :
    (st.setSlot i p).quiesced = st.quiesced := rfl

/-- Writing a pending slot replaces it in the window. -/
theorem window_setSlot (hle : st.pendingCount.toNat ≤ 128) {i : ℕ}
    (hi : i < st.pendingCount.toNat) (p : PendingStamp) :
    (st.setSlot (st.completeCount + UInt32.ofNat i) p).window = st.window.set i p :=
  window_update capacity_dvd st.slots st.completeCount hle hi p

/-- Pushing onto a queue that is not full appends to the window. -/
theorem window_push (hlt : st.pendingCount.toNat < 128) (p : PendingStamp) :
    let st' := { st.setSlot st.writeCount p with writeCount := st.writeCount + 1 }
    st'.pendingCount.toNat = st.pendingCount.toNat + 1 ∧ st'.window = st.window ++ [p] := by
  have hcount : st.writeCount + 1 - st.completeCount = st.pendingCount + 1 := by
    rw [pendingCount, UInt32.sub_eq_add_neg, UInt32.sub_eq_add_neg, UInt32.add_assoc,
      UInt32.add_comm 1, ← UInt32.add_assoc]
  have hpend : (st.writeCount + 1 - st.completeCount).toNat = st.pendingCount.toNat + 1 := by
    rw [hcount, UInt32.toNat_add, UInt32.toNat_one]
    omega
  have hidx : st.writeCount = st.completeCount + UInt32.ofNat st.pendingCount.toNat := by
    rw [UInt32.ofNat_toNat, add_pendingCount]
  refine ⟨hpend, ?_⟩
  have happ := window_update_succ capacity_dvd st.slots st.completeCount hlt p
  rw [← hidx, ← hpend] at happ
  exact happ

/-- The pump leaves the window from the slot it stops at on. -/
theorem window_pump : st.pump.1.pendingCount.toNat =
      st.pendingCount.toNat - st.finished.length ∧
    st.pump.1.window = st.window.dropWhile (·.completes st.quiesced) := by
  have hle := (List.takeWhile_prefix (l := st.window) (·.completes st.quiesced)).length_le
  rw [length_window] at hle
  have hlt := st.pendingCount.toNat_lt
  have hpend : (st.writeCount - (st.completeCount + UInt32.ofNat st.finished.length)).toNat =
      st.pendingCount.toNat - st.finished.length := by
    have hw := st.writeCount.toNat_lt
    have hc := st.completeCount.toNat_lt
    change st.finished.length ≤ _ at hle
    rw [pendingCount, UInt32.toNat_sub] at hle hlt ⊢
    rw [UInt32.toNat_sub, UInt32.toNat_add, UInt32.toNat_ofNat_of_lt' (hle.trans_lt hlt)]
    omega
  rw [pump_eq]
  refine ⟨hpend, ?_⟩
  have hdrop := window_drop st.slots st.completeCount st.finished.length st.pendingCount.toNat
  rw [← hpend] at hdrop
  have hsplit : st.window.drop st.finished.length =
      st.window.dropWhile (·.completes st.quiesced) := by
    conv_lhs => rw [← List.takeWhile_append_dropWhile (p := (·.completes st.quiesced))
      (l := st.window)]
    exact List.drop_left
  exact hdrop.trans hsplit

end QueueState

end ReimsVgpu.Fifo
