import ReimsVgpu.Library.ChainWalk
import ReimsVgpu.Library.Execution
import Mathlib.Data.UInt
import Mathlib.Data.Fintype.Basic

/-!
# The stamp waits

A FIFO that waits for a stamp registers as a waiter: its bit in the waiting word, and in its entry
the stamp index and the value it waits for. The registration walks the chain of waits it closes, a
waiter to the one it waits for, as long as the next is waiting too and has not pushed the value
awaited; a chain back to the waiter is a deadlock, and the registration is undone and raises. The
walk has no bound.

The waits form a graph, an edge from each waiter to the one whose stamp it awaits, live until that
stamp has been pushed. The walk finds the cycles through the new waiter, and no other cycle is ever
there: a FIFO pushes no stamp while it is registered, so that the edges a push brings to life end in
a FIFO that waits for nothing.

## Main definitions

* `Waits`, `Waits.addWait`, `Waits.finishWait`, `Waits.push`.
* `Waits.Live`: the live edges.
* `Waits.Step`: the steps of the FIFOs' threads.

## Main results

* `Waits.circular_wait_exact`.
-/

open Relation

namespace ReimsVgpu.Device

/-! ### The words -/

/-- Bit `n` of a 32-bit mask, the count taken mod 32. -/
def bit32 (n : UInt32) : UInt32 := 1 <<< n

/-- Whether bit `n` of `word` is set, the count taken mod 64. -/
def bit64Set (word : UInt64) (n : UInt32) : Bool := (word >>> n.toUInt64) &&& 1 != 0

/-- The 32 bits of an `int` widened to 64 by sign extension. -/
def signExtend32 (x : UInt32) : UInt64 := x.toInt32.toInt64.toUInt64

/-- Whether the slot has reached `value`. -/
def reached (slot value : UInt32) : Bool := 0 ≤ (slot - value).toInt32

/-- `!(1 << waiter)` as a 32-bit signed value, sign-extended to 64 bits. -/
def finishWaitMask (waiter : UInt32) : UInt64 := signExtend32 (~~~(bit32 waiter))

/-! ### The waits -/

/-- A waiter's next index when it waits on nothing. -/
def notWaiting : UInt32 := 0xffffffff

/-- `WAITING_INFO_COUNT`. -/
abbrev waitingInfoCount : ℕ := 64

/-- One stamp index's waiter. -/
structure WaitingInfo where
  nextWaitingIndex : UInt32 := notWaiting
  nextWaitingValue : UInt32 := 0
  lastPendingStamp : UInt32 := 0
  deriving DecidableEq, Repr

/-- The deaths of a registration. -/
inductive DeviceDeath
  | waiterPastMax
  | waiterBitTaken
  | pastWaitingInfo
  | waiterBusy
  deriving DecidableEq, Repr

/-- The raise of a registration. -/
inductive DeviceRaise
  | circularWait (waiter : UInt32)
  deriving DecidableEq, Repr

/-- The waiting word and the waiters. -/
structure Waits where
  waitingStamps : UInt64 := 0
  waitingInfo : Fin waitingInfoCount → WaitingInfo := fun _ => {}

/-- How a registration ends, if its walk does. -/
inductive Added
  | died (death : DeviceDeath)
  | walking
  | returned (w : Waits)
  | raised (w : Waits) (raise : DeviceRaise)

namespace Waits

/-- The waiter at an index, if there is one. -/
def infoAt (index : UInt32) : Option (Fin waitingInfoCount) :=
  if h : index.toNat < waitingInfoCount then some ⟨index.toNat, h⟩ else none

/-- The walk from `curr` back to `waiter`: whether it comes back, or `none` when it has not ended
after so many turns of the loop. -/
def walk (w : Waits) (waiter : UInt32) : ℕ → Fin waitingInfoCount → Option Bool
  | 0, _ => none
  | turns + 1, curr =>
    let next := (w.waitingInfo curr).nextWaitingIndex
    match infoAt next with
    | none => some false
    | some nextInfo =>
      if !bit64Set w.waitingStamps next then some false
      else if reached (w.waitingInfo nextInfo).lastPendingStamp
          (w.waitingInfo curr).nextWaitingValue then some false
      else if next = waiter then some true
      else w.walk waiter turns nextInfo

/-- Clears the waiter's bit and idles its entry. -/
def finishWait (w : Waits) (fifoIndex : UInt32) : Except DeviceDeath Waits :=
  let waitingStamps := w.waitingStamps &&& finishWaitMask fifoIndex
  match infoAt fifoIndex with
  | none => .error .pastWaitingInfo
  | some info => .ok
    { waitingStamps := waitingStamps
      waitingInfo := Function.update w.waitingInfo info
        { w.waitingInfo info with nextWaitingIndex := notWaiting } }

/-- The waits with a waiter's entry and bit set. -/
def register (w : Waits) (waiter : UInt32) (info : Fin waitingInfoCount)
    (stampIndex value : UInt32) : Waits where
  waitingStamps := w.waitingStamps ||| (bit32 waiter).toUInt64
  waitingInfo := Function.update w.waitingInfo info
    { w.waitingInfo info with nextWaitingIndex := stampIndex, nextWaitingValue := value }

/-- Registers a wait, then walks the chain of waits it closes for so many turns. -/
def addWait (turns : ℕ) (maxFifoCount : UInt32) (w : Waits) (fifoIndex stampIndex value : UInt32) :
    Added :=
  let waiter := fifoIndex
  if ¬ waiter < maxFifoCount then .died .waiterPastMax
  else if (bit32 waiter).toUInt64 &&& w.waitingStamps ≠ 0 then .died .waiterBitTaken
  else
    match infoAt waiter with
    | none => .died .pastWaitingInfo
    | some curr =>
      if (w.waitingInfo curr).nextWaitingIndex ≠ notWaiting then .died .waiterBusy
      else
        let w := w.register waiter curr stampIndex value
        match w.walk waiter turns curr with
        | none => .walking
        | some false => .returned w
        | some true =>
          match w.finishWait waiter with
          | .error death => .died death
          | .ok w => .raised w (.circularWait waiter)

/-- A FIFO's stamp queue records the stamp pushed last. -/
def push (w : Waits) (fifo : Fin waitingInfoCount) (value : UInt32) : Waits :=
  { w with
    waitingInfo := Function.update w.waitingInfo fifo
      { w.waitingInfo fifo with lastPendingStamp := value } }

/-! ### The graph of the waits -/

/-- The waiter's bit is set. -/
def registered (w : Waits) (i : Fin waitingInfoCount) : Bool :=
  bit64Set w.waitingStamps (UInt32.ofNat i)

/-- The waiters registered. -/
def waiters (w : Waits) : Finset (Fin waitingInfoCount) :=
  Finset.univ.filter fun i => w.registered i = true

/-- A waiter and the one whose stamp it awaits, which has not pushed it. -/
def Live (w : Waits) (i j : Fin waitingInfoCount) : Prop :=
  w.registered i = true ∧ infoAt (w.waitingInfo i).nextWaitingIndex = some j ∧
    reached (w.waitingInfo j).lastPendingStamp (w.waitingInfo i).nextWaitingValue = false

/-- What the FIFOs' threads do, each for the waiter and the stamps of its own. -/
inductive Op
  | addWait (maxFifoCount waiter stampIndex value : UInt32)
  | finishWait (waiter : UInt32)
  | push (fifo : Fin waitingInfoCount) (value : UInt32)
  deriving DecidableEq, Repr

/-- One step that does not die, the waiters below 32; a FIFO that is registered pushes nothing. -/
def Step (w : Waits) : Op → Waits → Prop
  | .addWait maxFifoCount waiter stampIndex value, w' => waiter.toNat < 32 ∧
    ∃ turns, addWait turns maxFifoCount w waiter stampIndex value = .returned w' ∨
      ∃ raise, addWait turns maxFifoCount w waiter stampIndex value = .raised w' raise
  | .finishWait waiter, w' => waiter.toNat < 32 ∧ w.finishWait waiter = .ok w'
  | .push fifo value, w' => w.registered fifo = false ∧ w' = w.push fifo value

/-! ### Bits -/

private theorem bit64Set_eq (word : UInt64) (n : UInt32) :
    bit64Set word n = word.toBitVec.getLsbD (n.toNat % 64) := by
  have hzero : (word >>> n.toUInt64) &&& 1 = 0 ↔
      word.toBitVec.getLsbD (n.toNat % 64) = false := by
    rw [← UInt64.toNat_inj, UInt64.toNat_and, UInt64.toNat_shiftRight,
      show (1 : UInt64).toNat = 1 from rfl, Nat.and_one_is_mod, BitVec.getLsbD,
      Nat.testBit_eq_decide_div_mod_eq, Nat.shiftRight_eq_div_pow]
    simp
  rw [bit64Set]
  cases hbit : word.toBitVec.getLsbD (n.toNat % 64)
  · simp [hzero, hbit]
  · simp [hzero, hbit]

private theorem bit64Set_or (u v : UInt64) (n : UInt32) :
    bit64Set (u ||| v) n = (bit64Set u n || bit64Set v n) := by
  rw [bit64Set_eq, bit64Set_eq, bit64Set_eq, UInt64.toBitVec_or, BitVec.getLsbD_or]

private theorem bit64Set_and (u v : UInt64) (n : UInt32) :
    bit64Set (u &&& v) n = (bit64Set u n && bit64Set v n) := by
  rw [bit64Set_eq, bit64Set_eq, bit64Set_eq, UInt64.toBitVec_and, BitVec.getLsbD_and]

private theorem eq_of_bit64Set {u v : UInt64}
    (h : ∀ i : Fin waitingInfoCount, bit64Set u (UInt32.ofNat i) = bit64Set v (UInt32.ofNat i)) :
    u = v := by
  refine UInt64.toBitVec_inj.mp (BitVec.eq_of_getLsbD_eq fun i hi => ?_)
  have hbit := h ⟨i, hi⟩
  rw [bit64Set_eq, bit64Set_eq, UInt32.toNat_ofNat_of_lt' (by
    change i < 2 ^ 32
    omega), Nat.mod_eq_of_lt hi] at hbit
  exact hbit

private theorem bit64Set_bit32 : ∀ (a : Fin 32) (i : Fin waitingInfoCount),
    bit64Set (bit32 (UInt32.ofNat a)).toUInt64 (UInt32.ofNat i) = decide (i.val = a.val) := by
  decide +kernel

private theorem bit64Set_finishWaitMask : ∀ (a : Fin 32) (i : Fin waitingInfoCount),
    bit64Set (finishWaitMask (UInt32.ofNat a)) (UInt32.ofNat i) =
      (decide (i.val ≠ a.val) && decide (¬ (a.val = 31 ∧ 32 ≤ i.val))) := by
  decide +kernel

theorem infoAt_eq_some {index : UInt32} {i : Fin waitingInfoCount} :
    infoAt index = some i ↔ index.toNat = i := by
  rw [infoAt]
  split_ifs with h
  · rw [Option.some.injEq, Fin.ext_iff]
  · constructor
    · intro hnone
      cases hnone
    · intro heq
      rw [heq] at h
      exact absurd i.isLt h

theorem eq_ofNat_of_infoAt {index : UInt32} {i : Fin waitingInfoCount}
    (h : infoAt index = some i) : index = UInt32.ofNat i := by
  rw [← infoAt_eq_some.mp h, UInt32.ofNat_toNat]

section Registered

variable {w : Waits} {waiter stampIndex value : UInt32} {a : Fin waitingInfoCount}

theorem registered_register (ha : infoAt waiter = some a) (hlow : waiter.toNat < 32)
    (i : Fin waitingInfoCount) :
    (w.register waiter a stampIndex value).registered i = (w.registered i || decide (i = a)) := by
  have heq := infoAt_eq_some.mp ha
  have hbit := bit64Set_bit32 ⟨waiter.toNat, hlow⟩ i
  rw [UInt32.ofNat_toNat] at hbit
  rw [registered, register, bit64Set_or, hbit, registered]
  simp only [Fin.ext_iff, heq]

/-- A finish clears the waiter's bit, and of the high bits, which no registration sets, none that is
set. -/
theorem registered_finishWait {w' : Waits} (hhigh : ∀ i, 32 ≤ i.val → w.registered i = false)
    (ha : infoAt waiter = some a) (hlow : waiter.toNat < 32) (h : w.finishWait waiter = .ok w')
    (i : Fin waitingInfoCount) : w'.registered i = (w.registered i && decide (i ≠ a)) := by
  have heq := infoAt_eq_some.mp ha
  have hbit := bit64Set_finishWaitMask ⟨waiter.toNat, hlow⟩ i
  rw [UInt32.ofNat_toNat] at hbit
  rw [finishWait, ha] at h
  obtain rfl := Except.ok.inj h
  rw [registered, bit64Set_and, hbit, ← registered]
  by_cases hi : 32 ≤ i.val
  · rw [hhigh i hi, Bool.false_and, Bool.false_and]
  · simp only [Fin.ext_iff, ne_eq, heq, hi, and_false, not_false_eq_true, decide_true,
      Bool.and_true]

theorem registered_eq_false (ha : infoAt waiter = some a) (hlow : waiter.toNat < 32)
    (h : (bit32 waiter).toUInt64 &&& w.waitingStamps = 0) : w.registered a = false := by
  have hbit := bit64Set_bit32 ⟨waiter.toNat, hlow⟩ a
  rw [UInt32.ofNat_toNat, decide_eq_true (infoAt_eq_some.mp ha).symm] at hbit
  have hand := bit64Set_and (bit32 waiter).toUInt64 w.waitingStamps (UInt32.ofNat a)
  rw [h, hbit, Bool.true_and] at hand
  rw [registered, ← hand, bit64Set_eq]
  exact BitVec.getLsbD_zero

end Registered

/-! ### The walk -/

/-- The waiter the walk goes on to: the one awaited, when it waits too and has not pushed the
value. -/
def awaited (w : Waits) (i : Fin waitingInfoCount) : Option (Fin waitingInfoCount) :=
  (infoAt (w.waitingInfo i).nextWaitingIndex).filter fun j => w.registered j &&
    !reached (w.waitingInfo j).lastPendingStamp (w.waitingInfo i).nextWaitingValue

theorem walk_eq_chase (w : Waits) {waiter : UInt32} {a : Fin waitingInfoCount}
    (ha : infoAt waiter = some a) (turns : ℕ) (x : Fin waitingInfoCount) :
    w.walk waiter turns x = ChainWalk.chase w.awaited a turns x := by
  induction turns generalizing x with
  | zero => rfl
  | succ turns ih =>
    rw [walk, ChainWalk.chase, awaited]
    cases hentry : infoAt (w.waitingInfo x).nextWaitingIndex with
    | none => rfl
    | some j =>
      have hbit : bit64Set w.waitingStamps (w.waitingInfo x).nextWaitingIndex =
          w.registered j := by
        rw [registered, ← eq_ofNat_of_infoAt hentry]
      have hback : (w.waitingInfo x).nextWaitingIndex = waiter ↔ j = a := by
        constructor
        · intro heq
          rw [heq] at hentry
          exact Option.some.inj (hentry.symm.trans ha)
        · rintro rfl
          rw [eq_ofNat_of_infoAt hentry, eq_ofNat_of_infoAt ha]
      rw [Option.filter_some, hbit]
      dsimp only
      cases w.registered j
      · rfl
      · cases reached (w.waitingInfo j).lastPendingStamp (w.waitingInfo x).nextWaitingValue
        · simp only [hback, ih]
          rfl
        · rfl

theorem edge_awaited {w : Waits} {i j : Fin waitingInfoCount} :
    ChainWalk.Edge w.awaited i j ↔ infoAt (w.waitingInfo i).nextWaitingIndex = some j ∧
      w.registered j = true ∧
      reached (w.waitingInfo j).lastPendingStamp (w.waitingInfo i).nextWaitingValue = false := by
  rw [ChainWalk.Edge, awaited, Option.filter_eq_some_iff, Bool.and_eq_true, Bool.not_eq_true']

/-- The walk's cycles through a waiter are the graph's. -/
theorem transGen_awaited_iff {w : Waits} {a : Fin waitingInfoCount} (ha : w.registered a = true) :
    TransGen (ChainWalk.Edge w.awaited) a a ↔ TransGen w.Live a a := by
  constructor
  · intro h
    have hpath : ∀ j, TransGen (ChainWalk.Edge w.awaited) a j →
        TransGen w.Live a j ∧ w.registered j = true := by
      intro j h
      induction h with
      | single hedge =>
        obtain ⟨hentry, hj, hpending⟩ := edge_awaited.mp hedge
        exact ⟨.single ⟨ha, hentry, hpending⟩, hj⟩
      | tail _ hedge ih =>
        obtain ⟨hentry, hj, hpending⟩ := edge_awaited.mp hedge
        exact ⟨ih.1.tail ⟨ih.2, hentry, hpending⟩, hj⟩
    exact (hpath a h).1
  · intro h
    have hpath : ∀ j, TransGen w.Live a j → w.registered j = true →
        TransGen (ChainWalk.Edge w.awaited) a j := by
      intro j h
      induction h with
      | single hedge =>
        intro hj
        exact .single (edge_awaited.mpr ⟨hedge.2.1, hj, hedge.2.2⟩)
      | tail _ hedge ih =>
        intro hj
        exact (ih hedge.1).tail (edge_awaited.mpr ⟨hedge.2.1, hj, hedge.2.2⟩)
    exact hpath a h ha

/-! ### The invariant -/

/-- No high bit is set, and the graph of the waits has no cycle. -/
structure Inv (w : Waits) : Prop where
  high : ∀ i, 32 ≤ i.val → w.registered i = false
  acyclic : ∀ i, ¬ TransGen w.Live i i

section Register

variable {w : Waits} {waiter stampIndex value : UInt32} {a : Fin waitingInfoCount}

theorem register_waitingInfo_self : (w.register waiter a stampIndex value).waitingInfo a =
    { w.waitingInfo a with nextWaitingIndex := stampIndex, nextWaitingValue := value } :=
  Function.update_self _ _ _

theorem register_waitingInfo_of_ne {i : Fin waitingInfoCount} (hi : i ≠ a) :
    (w.register waiter a stampIndex value).waitingInfo i = w.waitingInfo i :=
  Function.update_of_ne hi _ _

theorem register_lastPendingStamp (i : Fin waitingInfoCount) :
    ((w.register waiter a stampIndex value).waitingInfo i).lastPendingStamp =
      (w.waitingInfo i).lastPendingStamp := by
  by_cases hi : i = a
  · subst hi
    rw [register_waitingInfo_self]
  · rw [register_waitingInfo_of_ne hi]

/-- The new edge apart, a registration brings no edge to life. -/
theorem live_of_register (ha : infoAt waiter = some a) (hlow : waiter.toNat < 32)
    {i j : Fin waitingInfoCount} (hi : i ≠ a)
    (h : (w.register waiter a stampIndex value).Live i j) : w.Live i j := by
  obtain ⟨hregistered, hentry, hpending⟩ := h
  rw [registered_register ha hlow, decide_eq_false hi, Bool.or_false] at hregistered
  rw [register_waitingInfo_of_ne hi] at hentry hpending
  rw [register_lastPendingStamp] at hpending
  exact ⟨hregistered, hentry, hpending⟩

theorem off_register (h : w.Inv) (ha : infoAt waiter = some a) (hlow : waiter.toNat < 32)
    (i : Fin waitingInfoCount) :
    ¬ TransGen (ChainWalk.Off (w.register waiter a stampIndex value).Live a) i i := by
  intro hcycle
  have hsub : ChainWalk.Off (w.register waiter a stampIndex value).Live a ≤ w.Live :=
    fun _ _ hedge => live_of_register ha hlow hedge.2 hedge.1
  exact h.acyclic i (TransGen.mono hsub i i hcycle)

/-- A cycle of the walk's edges, off a waiter, is one of the graph. -/
theorem off_awaited_register (h : w.Inv) (ha : infoAt waiter = some a) (hlow : waiter.toNat < 32)
    (i : Fin waitingInfoCount) :
    ¬ TransGen (ChainWalk.Off (ChainWalk.Edge
      (w.register waiter a stampIndex value).awaited) a) i i := by
  intro hcycle
  have hsource : (w.register waiter a stampIndex value).registered i = true := by
    obtain ⟨j, -, hedge⟩ := TransGen.tail'_iff.mp hcycle
    exact (edge_awaited.mp hedge.1).2.1
  have hpath : ∀ j, TransGen (ChainWalk.Off (ChainWalk.Edge
      (w.register waiter a stampIndex value).awaited) a) i j →
      TransGen (ChainWalk.Off (w.register waiter a stampIndex value).Live a) i j ∧
        (w.register waiter a stampIndex value).registered j = true := by
    intro j hpath
    induction hpath with
    | single hedge =>
      obtain ⟨hentry, hj, hpending⟩ := edge_awaited.mp hedge.1
      exact ⟨.single ⟨⟨hsource, hentry, hpending⟩, hedge.2⟩, hj⟩
    | tail _ hedge ih =>
      obtain ⟨hentry, hj, hpending⟩ := edge_awaited.mp hedge.1
      exact ⟨ih.1.tail ⟨⟨ih.2, hentry, hpending⟩, hedge.2⟩, hj⟩
  exact off_register h ha hlow i (hpath i hcycle).1

theorem high_register (h : w.Inv) (ha : infoAt waiter = some a) (hlow : waiter.toNat < 32)
    (i : Fin waitingInfoCount) (hi : 32 ≤ i.val) :
    (w.register waiter a stampIndex value).registered i = false := by
  have hne : i ≠ a := by
    rintro rfl
    rw [infoAt_eq_some.mp ha] at hlow
    omega
  rw [registered_register ha hlow, h.high i hi, decide_eq_false hne]
  rfl

/-- A registration that closes no cycle. -/
theorem Inv.register (h : w.Inv) (ha : infoAt waiter = some a) (hlow : waiter.toNat < 32)
    (hopen : ¬ TransGen (w.register waiter a stampIndex value).Live a a) :
    (w.register waiter a stampIndex value).Inv where
  high := high_register h ha hlow
  acyclic := ChainWalk.acyclic_of_off (off_register h ha hlow) hopen

end Register

section Finish

variable {w w' : Waits} {waiter : UInt32} {a : Fin waitingInfoCount}

theorem finishWait_eq_ok (ha : infoAt waiter = some a) : w.finishWait waiter = .ok
    { waitingStamps := w.waitingStamps &&& finishWaitMask waiter
      waitingInfo := Function.update w.waitingInfo a
        { w.waitingInfo a with nextWaitingIndex := notWaiting } } := by
  rw [finishWait, ha]

theorem finishWait_waitingInfo_of_ne (ha : infoAt waiter = some a)
    (h : w.finishWait waiter = .ok w') {i : Fin waitingInfoCount} (hi : i ≠ a) :
    w'.waitingInfo i = w.waitingInfo i := by
  rw [finishWait_eq_ok ha] at h
  obtain rfl := Except.ok.inj h
  exact Function.update_of_ne hi _ _

theorem finishWait_waitingInfo_self (ha : infoAt waiter = some a)
    (h : w.finishWait waiter = .ok w') :
    w'.waitingInfo a = { w.waitingInfo a with nextWaitingIndex := notWaiting } := by
  rw [finishWait_eq_ok ha] at h
  obtain rfl := Except.ok.inj h
  exact Function.update_self _ _ _

theorem finishWait_lastPendingStamp (ha : infoAt waiter = some a)
    (h : w.finishWait waiter = .ok w') (i : Fin waitingInfoCount) :
    (w'.waitingInfo i).lastPendingStamp = (w.waitingInfo i).lastPendingStamp := by
  by_cases hi : i = a
  · subst hi
    rw [finishWait_waitingInfo_self ha h]
  · rw [finishWait_waitingInfo_of_ne ha h hi]

/-- A finish leaves the edges of the other waiters. -/
theorem live_of_finishWait (hhigh : ∀ i, 32 ≤ i.val → w.registered i = false)
    (ha : infoAt waiter = some a) (hlow : waiter.toNat < 32) (h : w.finishWait waiter = .ok w')
    {i j : Fin waitingInfoCount} (hedge : w'.Live i j) : i ≠ a ∧ w.Live i j := by
  obtain ⟨hregistered, hentry, hpending⟩ := hedge
  rw [registered_finishWait hhigh ha hlow h, Bool.and_eq_true, decide_eq_true_eq] at hregistered
  rw [finishWait_waitingInfo_of_ne ha h hregistered.2] at hentry hpending
  rw [finishWait_lastPendingStamp ha h] at hpending
  exact ⟨hregistered.2, hregistered.1, hentry, hpending⟩

theorem high_finishWait (hhigh : ∀ i, 32 ≤ i.val → w.registered i = false)
    (ha : infoAt waiter = some a) (hlow : waiter.toNat < 32) (h : w.finishWait waiter = .ok w')
    (i : Fin waitingInfoCount) (hi : 32 ≤ i.val) : w'.registered i = false := by
  rw [registered_finishWait hhigh ha hlow h, hhigh i hi, Bool.false_and]

theorem Inv.finishWait (h : w.Inv) (hlow : waiter.toNat < 32)
    (hfinish : w.finishWait waiter = .ok w') : w'.Inv := by
  obtain ⟨a, ha⟩ : ∃ a, infoAt waiter = some a :=
    ⟨⟨waiter.toNat, by rw [waitingInfoCount]; omega⟩, infoAt_eq_some.mpr rfl⟩
  refine ⟨high_finishWait h.high ha hlow hfinish, fun i hcycle => h.acyclic i ?_⟩
  have hsub : w'.Live ≤ w.Live := fun _ _ hedge =>
    (live_of_finishWait h.high ha hlow hfinish hedge).2
  exact TransGen.mono hsub i i hcycle

end Finish

/-- A push by a FIFO that waits for nothing. -/
theorem Inv.push {w : Waits} (h : w.Inv) {fifo : Fin waitingInfoCount}
    (hfifo : w.registered fifo = false) (value : UInt32) : (w.push fifo value).Inv := by
  refine ⟨h.high, ChainWalk.acyclic_of_sink h.acyclic (a := fifo) ?_ ?_⟩
  · rintro j ⟨hregistered, -⟩
    exact Bool.false_ne_true (hfifo.symm.trans hregistered)
  · rintro i j hj ⟨hregistered, hentry, hpending⟩
    have hnext : i ≠ fifo := by
      rintro rfl
      exact Bool.false_ne_true (hfifo.symm.trans hregistered)
    have hi : (w.push fifo value).waitingInfo i = w.waitingInfo i := Function.update_of_ne hnext _ _
    have hj' : (w.push fifo value).waitingInfo j = w.waitingInfo j := Function.update_of_ne hj _ _
    rw [hi] at hentry hpending
    rw [hj'] at hpending
    exact ⟨hregistered, hentry, hpending⟩

/-! ### A registration -/

section Add

variable {w : Waits} {maxFifoCount waiter stampIndex value : UInt32} {turns : ℕ}

/-- A registration past its checks: what its walk leads to. -/
theorem addWait_cases (hlow : waiter.toNat < 32)
    (halive : ∀ death, addWait turns maxFifoCount w waiter stampIndex value ≠ .died death) :
    ∃ a, infoAt waiter = some a ∧ w.registered a = false ∧
      ∃ w', (w.register waiter a stampIndex value).finishWait waiter = .ok w' ∧
        addWait turns maxFifoCount w waiter stampIndex value =
          match (w.register waiter a stampIndex value).walk waiter turns a with
          | none => .walking
          | some false => .returned (w.register waiter a stampIndex value)
          | some true => .raised w' (.circularWait waiter) := by
  obtain ⟨a, ha⟩ : ∃ a, infoAt waiter = some a :=
    ⟨⟨waiter.toNat, by rw [waitingInfoCount]; omega⟩, infoAt_eq_some.mpr rfl⟩
  have hmax : ¬ ¬ waiter < maxFifoCount := by
    intro hc
    refine halive .waiterPastMax ?_
    rw [addWait]
    dsimp only
    rw [if_pos hc]
  have hfree : ¬ (bit32 waiter).toUInt64 &&& w.waitingStamps ≠ 0 := by
    intro hc
    refine halive .waiterBitTaken ?_
    rw [addWait]
    dsimp only
    rw [if_neg hmax, if_pos hc]
  have hidle : ¬ (w.waitingInfo a).nextWaitingIndex ≠ notWaiting := by
    intro hc
    refine halive .waiterBusy ?_
    rw [addWait]
    dsimp only
    rw [if_neg hmax, if_neg hfree, ha]
    dsimp only
    rw [if_pos hc]
  refine ⟨a, ha, registered_eq_false ha hlow (not_not.mp hfree), _, finishWait_eq_ok ha, ?_⟩
  rw [addWait]
  dsimp only
  rw [if_neg hmax, if_neg hfree, ha]
  dsimp only
  rw [if_neg hidle, finishWait_eq_ok ha]

theorem waiters_register_mem {a : Fin waitingInfoCount} (ha : infoAt waiter = some a)
    (hlow : waiter.toNat < 32) : a ∈ (w.register waiter a stampIndex value).waiters := by
  refine Finset.mem_filter.mpr ⟨Finset.mem_univ a, ?_⟩
  rw [registered_register ha hlow, decide_eq_true rfl, Bool.or_true]

/-- The walk answers whether the waiter is on a cycle. -/
theorem walk_sound {a : Fin waitingInfoCount} (ha : infoAt waiter = some a)
    (hlow : waiter.toNat < 32) {found : Bool}
    (hwalk : (w.register waiter a stampIndex value).walk waiter turns a = some found) :
    found = true ↔ TransGen (w.register waiter a stampIndex value).Live a a := by
  rw [walk_eq_chase _ ha] at hwalk
  rw [ChainWalk.chase_sound hwalk, transGen_awaited_iff]
  exact (Finset.mem_filter.mp (waiters_register_mem ha hlow)).2

/-- The walk ends within the number of waiters. -/
theorem walk_ends (h : w.Inv) {a : Fin waitingInfoCount} (ha : infoAt waiter = some a)
    (hlow : waiter.toNat < 32)
    (hturns : (w.register waiter a stampIndex value).waiters.card ≤ turns) :
    ∃ found, (w.register waiter a stampIndex value).walk waiter turns a = some found := by
  have hnodes : ∀ i j, (w.register waiter a stampIndex value).awaited i = some j →
      j ∈ (w.register waiter a stampIndex value).waiters := fun i j hedge =>
    Finset.mem_filter.mpr ⟨Finset.mem_univ j, (edge_awaited.mp hedge).2.1⟩
  obtain ⟨found, hfound, -⟩ := ChainWalk.chase_spec (waiters_register_mem ha hlow) hnodes
    (off_awaited_register h ha hlow) hturns
  exact ⟨found, (walk_eq_chase _ ha turns a).trans hfound⟩

/-- A registration undone leaves every bit as it was. -/
theorem waitingStamps_undone {a : Fin waitingInfoCount} {w' : Waits} (h : w.Inv)
    (ha : infoAt waiter = some a) (hlow : waiter.toNat < 32) (hfree : w.registered a = false)
    (hfinish : (w.register waiter a stampIndex value).finishWait waiter = .ok w') :
    w'.waitingStamps = w.waitingStamps := by
  refine eq_of_bit64Set fun i => ?_
  change w'.registered i = w.registered i
  rw [registered_finishWait (high_register h ha hlow) ha hlow hfinish, registered_register ha hlow]
  by_cases hi : i = a
  · subst hi
    rw [hfree, decide_eq_true rfl]
    simp
  · rw [decide_eq_false hi, decide_eq_true hi, Bool.or_false, Bool.and_true]

theorem Inv.undone {a : Fin waitingInfoCount} {w' : Waits} (h : w.Inv)
    (ha : infoAt waiter = some a) (hlow : waiter.toNat < 32)
    (hfinish : (w.register waiter a stampIndex value).finishWait waiter = .ok w') : w'.Inv := by
  have hhigh : ∀ i, 32 ≤ i.val → (w.register waiter a stampIndex value).registered i = false :=
    high_register h ha hlow
  refine ⟨high_finishWait hhigh ha hlow hfinish, fun i hcycle => h.acyclic i ?_⟩
  have hsub : w'.Live ≤ w.Live := by
    intro i j hedge
    obtain ⟨hi, hlive⟩ := live_of_finishWait hhigh ha hlow hfinish hedge
    exact live_of_register ha hlow hi hlive
  exact TransGen.mono hsub i i hcycle

end Add

theorem Inv.step {w w' : Waits} {op : Op} (h : w.Inv) (hstep : w.Step op w') : w'.Inv := by
  cases op with
  | addWait maxFifoCount waiter stampIndex value =>
    obtain ⟨hlow, turns, hadd⟩ := hstep
    have halive : ∀ death,
        addWait turns maxFifoCount w waiter stampIndex value ≠ .died death := by
      intro death hdied
      rw [hdied] at hadd
      rcases hadd with hc | ⟨raise, hc⟩
      · cases hc
      · cases hc
    obtain ⟨a, ha, -, undone, hfinish, heq⟩ := addWait_cases hlow halive
    rw [heq] at hadd
    cases hwalk : (w.register waiter a stampIndex value).walk waiter turns a with
    | none =>
      rw [hwalk] at hadd
      rcases hadd with hc | ⟨raise, hc⟩
      · cases hc
      · cases hc
    | some found =>
      have hsound := walk_sound ha hlow hwalk
      rw [hwalk] at hadd
      cases found with
      | false =>
        rcases hadd with hreturned | ⟨raise, hc⟩
        · injection hreturned with hreturned
          subst hreturned
          exact h.register ha hlow fun hcycle => Bool.false_ne_true (hsound.mpr hcycle)
        · cases hc
      | true =>
        rcases hadd with hc | ⟨raise, hraised⟩
        · cases hc
        · injection hraised with hraised
          subst hraised
          exact h.undone ha hlow hfinish
  | finishWait waiter => exact h.finishWait hstep.1 hstep.2
  | push fifo value =>
    obtain ⟨hfifo, rfl⟩ := hstep
    exact h.push hfifo value

theorem inv_init : ({} : Waits).Inv := by
  have hnone : ∀ i, ({} : Waits).registered i = false := by decide +kernel
  refine ⟨fun i _ => hnone i, fun i hcycle => ?_⟩
  obtain ⟨j, hedge, -⟩ := TransGen.head'_iff.mp hcycle
  exact Bool.false_ne_true ((hnone i).symm.trans hedge.1)

/-- After every sequence of steps that do not die: the live waits have no cycle, and a registration
that does not die raises exactly when its wait closes one through the waiter, leaving then every
other waiter's entry and every bit as they were and the waiter idle, within as many turns of its
walk as there are waiters. -/
theorem circular_wait_exact {ops : List Op} {w : Waits} (h : Execution Step {} ops w) :
    (∀ i, ¬ TransGen w.Live i i) ∧
    ∀ maxFifoCount waiter stampIndex value, waiter.toNat < 32 →
      (∀ turns death, addWait turns maxFifoCount w waiter stampIndex value ≠ .died death) →
      ∃ a, infoAt waiter = some a ∧ w.registered a = false ∧
        ∀ turns, (w.register waiter a stampIndex value).waiters.card ≤ turns →
          (TransGen (w.register waiter a stampIndex value).Live a a →
            ∃ w', addWait turns maxFifoCount w waiter stampIndex value =
                .raised w' (.circularWait waiter) ∧
              w'.waitingStamps = w.waitingStamps ∧
              (∀ i ≠ a, w'.waitingInfo i = w.waitingInfo i) ∧
              (w'.waitingInfo a).nextWaitingIndex = notWaiting) ∧
          (¬ TransGen (w.register waiter a stampIndex value).Live a a →
            addWait turns maxFifoCount w waiter stampIndex value =
              .returned (w.register waiter a stampIndex value)) := by
  have hinv : w.Inv := h.invariant inv_init fun _ _ _ hi hs => hi.step hs
  refine ⟨hinv.acyclic, fun maxFifoCount waiter stampIndex value hlow halive => ?_⟩
  obtain ⟨a, ha, hfree, -⟩ := addWait_cases hlow (halive 0)
  refine ⟨a, ha, hfree, fun turns hturns => ?_⟩
  obtain ⟨b, hb, -, w', hfinish, heq⟩ := addWait_cases hlow (halive turns)
  obtain rfl : a = b := Option.some.inj (ha.symm.trans hb)
  obtain ⟨found, hwalk⟩ := walk_ends hinv ha hlow hturns
  have hsound := walk_sound ha hlow hwalk
  rw [hwalk] at heq
  refine ⟨fun hcycle => ?_, fun hopen => ?_⟩
  · obtain rfl : found = true := hsound.mpr hcycle
    refine ⟨w', heq, waitingStamps_undone hinv ha hlow hfree hfinish, fun i hi => ?_, ?_⟩
    · rw [finishWait_waitingInfo_of_ne ha hfinish hi, register_waitingInfo_of_ne hi]
    · rw [finishWait_waitingInfo_self ha hfinish]
  · obtain rfl : found = false := Bool.eq_false_iff.mpr fun hc => hopen (hsound.mp hc)
    exact heq

/-- FIFO 1 waits for FIFO 2, and FIFO 2's wait for FIFO 1 raises. -/
theorem circular_wait_of_two : ∃ w w',
    Execution Step {} [.push 2 3, .addWait 8 1 2 10] w ∧
      addWait 2 8 w 2 1 10 = .raised w' (.circularWait 2) ∧ w'.waitingStamps = 2 := by
  have hrun : Execution Step {} [.push 2 3, .addWait 8 1 2 10]
      ((({} : Waits).push 2 3).register 1 1 2 10) := by
    have hpush : Execution Step {} [.push 2 3] (({} : Waits).push 2 3) :=
      .single ⟨by decide +kernel, rfl⟩
    exact hpush.snoc ⟨by decide, 1, .inl rfl⟩
  obtain ⟨-, hadd⟩ := circular_wait_exact hrun
  obtain ⟨a, ha, -, hturns⟩ := hadd 8 2 1 10 (by decide) (by
    intro turns death
    rw [addWait]
    dsimp only
    rw [if_neg (by decide), if_neg (by decide +kernel), show infoAt 2 = some 2 from rfl]
    dsimp only
    rw [if_neg (by decide +kernel), finishWait_eq_ok rfl]
    split
    · exact fun hc => by cases hc
    · exact fun hc => by cases hc
    · exact fun hc => by cases hc)
  obtain rfl : 2 = a := Option.some.inj (show some 2 = some a from ha)
  have hfirst : Live (((({} : Waits).push 2 3).register 1 1 2 10).register 2 2 1 10) 2 1 :=
    ⟨by decide +kernel, by decide +kernel, by decide +kernel⟩
  have hsecond : Live (((({} : Waits).push 2 3).register 1 1 2 10).register 2 2 1 10) 1 2 :=
    ⟨by decide +kernel, by decide +kernel, by decide +kernel⟩
  obtain ⟨w', hraised, hstamps, -⟩ :=
    (hturns 2 (by decide +kernel)).1 ((TransGen.single hfirst).tail hsecond)
  exact ⟨_, w', hrun, hraised, hstamps.trans (by decide +kernel)⟩

end Waits

end ReimsVgpu.Device
