import ReimsVgpu.Memory.PageTable
import ReimsVgpu.Library.Execution
import Mathlib.Data.UInt
import Mathlib.Tactic.Ring

/-!
# The ring cursors

Where a FIFO's thread reads the next byte, and what it has published. A read runs in iterations: at
the ring's end the cursor wraps, else as many bytes are copied as are written, wanted and left before
the end. An advance publishes the bytes copied, a rewind returns to the last advance. The live
cursor wraps at the ring's length; the published count is a `u32`. At a child's start, and at a
root's resume, the cursor is computed again from the published count.

## Main definitions

* `ChildRing`, `ChildNode`, `ChildFifo`: a child's ring, with `ChildFifo.mapRing` at a start.
* `RootRing`: the root's ring, with `RootRing.setRead` at a resume.
* `ChildCursor`, `RootCursor`: a ring with the number of bytes advanced and copied.

## Main results

* `restart_keeps_cursor_iff`: when the cursor computed again is the one of the last advance.
-/

open ReimsVgpu.Memory

namespace ReimsVgpu.Fifo

/-- `a % b`, or `a` when `b` is 0. -/
def rem0 (a b : UInt32) : UInt32 := if b = 0 then a else a % b

/-- How many bytes one copy takes: what is available, but no more than asked for or than is left
before the ring wraps. -/
def copyCount (available : UInt32) (wanted : ℕ) (untilWrap : UInt32) : UInt32 :=
  min available (UInt32.ofNat (min wanted untilWrap.toNat))

/-- What an iteration of a read does. -/
inductive Load
  | wrap
  | done
  | wait
  | copy (count : UInt32)
  deriving DecidableEq, Repr

/-! ### A child's ring -/

/-- The counts of the guest's node. -/
structure ChildNode where
  written : UInt32 := 0
  readCount : UInt32 := 0
  deriving DecidableEq, Repr

/-- A child's cursors. -/
structure ChildRing where
  readOffset : UInt32 := 0
  lastReadOffset : UInt32 := 0
  readCount : UInt32 := 0
  lastReadCount : UInt32 := 0
  cacheWritten : UInt32 := 0
  deriving DecidableEq, Repr

namespace ChildRing

/-- What the node says is written past the read count; the node is reloaded only when the cached
value falls short of the request. -/
def available (c : ChildRing) (node : ChildNode) (wanted : ℕ) : UInt32 × ChildRing :=
  let count := c.cacheWritten - c.readCount
  if wanted > count.toNat then
    (node.written - c.readCount, { c with cacheWritten := node.written })
  else (count, c)

/-- An iteration up to its copy. -/
def load (c : ChildRing) (ringLength : UInt32) (node : ChildNode) (wanted : ℕ) :
    ChildRing × Load :=
  let untilWrap := ringLength - c.readOffset
  if untilWrap = 0 then ({ c with readOffset := 0 }, .wrap)
  else if wanted = 0 then (c, .done)
  else
    let (count, c) := c.available node wanted
    if count = 0 then (c, .wait) else (c, .copy (copyCount count wanted untilWrap))

/-- The cursors after a copy. -/
def copied (c : ChildRing) (count : UInt32) : ChildRing :=
  { c with readOffset := c.readOffset + count, readCount := c.readCount + count }

def rewind (c : ChildRing) : ChildRing :=
  { c with readCount := c.lastReadCount, readOffset := c.lastReadOffset }

end ChildRing

/-- A child FIFO's ring and its length, with its node. -/
structure ChildFifo where
  ringLength : UInt32 := 0
  ring : ChildRing := {}
  node : ChildNode := {}
  deriving DecidableEq, Repr

namespace ChildFifo

/-- Publishes the bytes read to the node. -/
def advance (f : ChildFifo) : ChildFifo :=
  { f with
    node := { f.node with readCount := f.ring.readCount }
    ring := { f.ring with
      lastReadOffset := f.ring.readOffset, lastReadCount := f.ring.readCount } }

/-- `PAGE_LIST_ENTRIES`. -/
def pageListEntries (a : Arch) : ℕ := (pageSize a).toNat / 4

/-- The ring's length, from the page list up to the first zero entry. -/
def listLength (a : Arch) (pageList : ℕ → UInt32) : UInt32 :=
  let pageCount := ((List.range (pageListEntries a)).takeWhile fun i => pageList i ≠ 0).length
  (UInt64.ofNat pageCount * pageSize a).toUInt32

/-- The ring mapped for a start, with a length: the cursor is computed from the node's read count. -/
def mapLength (f : ChildFifo) (length : UInt32) : ChildFifo :=
  let readOffset := rem0 f.node.readCount length
  { f with
    ringLength := length
    ring := { f.ring with readOffset := readOffset, lastReadOffset := readOffset } }

/-- Maps the ring for a start; an empty page list maps nothing. -/
def mapRing (a : Arch) (f : ChildFifo) (pageList : ℕ → UInt32) : Option ChildFifo :=
  let length := listLength a pageList
  if pageList 0 = 0 then none else some (f.mapLength length)

/-- The thread's exit: the unconsumed command is rewound and the ring unmapped. -/
def exit (f : ChildFifo) : ChildFifo :=
  { f with ringLength := 0, ring := f.ring.rewind }

end ChildFifo

/-! ### The root's ring -/

/-- The root's cursors and registers. -/
structure RootRing where
  readOffset : UInt32 := 0
  lastReadOffset : UInt32 := 0
  written : UInt32 := 0
  read : UInt32 := 0
  pendingAdvance : UInt32 := 0
  deriving DecidableEq, Repr

namespace RootRing

/-- An iteration up to its copy: what is available is counted from the published `read`. -/
def load (r : RootRing) (ringLength : UInt32) (wanted : ℕ) : RootRing × Load :=
  let untilWrap := ringLength - r.readOffset
  if untilWrap = 0 then ({ r with readOffset := 0 }, .wrap)
  else if wanted = 0 then (r, .done)
  else
    let available := r.written - r.read
    if available = 0 then (r, .wait) else (r, .copy (copyCount available wanted untilWrap))

def copied (r : RootRing) (count : UInt32) : RootRing :=
  { r with pendingAdvance := r.pendingAdvance + count, readOffset := r.readOffset + count }

def advance (r : RootRing) : RootRing :=
  { r with
    read := r.read + r.pendingAdvance
    pendingAdvance := 0
    lastReadOffset := r.readOffset }

def rewind (r : RootRing) : RootRing :=
  { r with readOffset := r.lastReadOffset, pendingAdvance := 0 }

/-- The read count, and the cursor at `read` modulo the ring's length. -/
def setRead (r : RootRing) (read ringLength : UInt32) : RootRing :=
  let offset := rem0 read ringLength
  { r with read := read, readOffset := offset, lastReadOffset := offset }

/-- A resume: a new ring with the registers saved at the suspend. -/
def resume (r : RootRing) (ringLength : UInt32) : RootRing :=
  ({ written := r.written } : RootRing).setRead r.read ringLength

end RootRing

/-! ### The cursor and the bytes advanced -/

/-- What happens to a ring of a fixed length: the guest's `written`, an iteration of a read for so
many bytes, an advance, a rewind, and a restart: a stop and a start of a child, a suspend and a
resume of the root. -/
inductive RingOp
  | written (value : UInt32)
  | iterate (wanted : ℕ)
  | advance
  | rewind
  | restart
  deriving DecidableEq, Repr

/-- A child's ring, the bytes it has advanced over in all, and those copied since. -/
structure ChildCursor where
  fifo : ChildFifo
  total : ℕ := 0
  pending : ℕ := 0

/-- A new child, started on a ring of the length. -/
def ChildCursor.start (length : UInt32) : ChildCursor where
  fifo := ({} : ChildFifo).mapLength length

def ChildCursor.next (length : UInt32) (s : ChildCursor) : RingOp → ChildCursor
  | .written value => { s with fifo := { s.fifo with node := { s.fifo.node with written := value } } }
  | .iterate wanted =>
    match s.fifo.ring.load s.fifo.ringLength s.fifo.node wanted with
    | (ring, .copy count) =>
      { s with fifo := { s.fifo with ring := ring.copied count }, pending := s.pending + count.toNat }
    | (ring, _) => { s with fifo := { s.fifo with ring := ring } }
  | .advance => { fifo := s.fifo.advance, total := s.total + s.pending }
  | .rewind => { fifo := { s.fifo with ring := s.fifo.ring.rewind }, total := s.total }
  | .restart => { fifo := s.fifo.exit.mapLength length, total := s.total }

/-- The root's ring, the bytes it has advanced over in all, and those copied since. -/
structure RootCursor where
  ring : RootRing := {}
  total : ℕ := 0
  pending : ℕ := 0

def RootCursor.next (length : UInt32) (s : RootCursor) : RingOp → RootCursor
  | .written value => { s with ring := { s.ring with written := value } }
  | .iterate wanted =>
    match s.ring.load length wanted with
    | (ring, .copy count) => { s with ring := ring.copied count, pending := s.pending + count.toNat }
    | (ring, _) => { s with ring := ring }
  | .advance => { ring := s.ring.advance, total := s.total + s.pending }
  | .rewind => { ring := s.ring.rewind, total := s.total }
  | .restart => { ring := s.ring.resume length, total := s.total }

theorem toNat_rem0 {b : UInt32} (hb : b ≠ 0) (a : UInt32) :
    (rem0 a b).toNat = a.toNat % b.toNat := by
  rw [rem0, if_neg hb, UInt32.toNat_mod]

theorem toNat_copyCount (available : UInt32) (wanted : ℕ) (untilWrap : UInt32) :
    (copyCount available wanted untilWrap).toNat =
      min available.toNat (min wanted untilWrap.toNat) := by
  have hlt := untilWrap.toNat_lt
  have hinner : (UInt32.ofNat (min wanted untilWrap.toNat)).toNat = min wanted untilWrap.toNat :=
    UInt32.toNat_ofNat_of_lt' (by rw [show UInt32.size = 2 ^ 32 from rfl]; omega)
  change (if available ≤ UInt32.ofNat (min wanted untilWrap.toNat) then available
    else UInt32.ofNat (min wanted untilWrap.toNat)).toNat = _
  split_ifs with hle
  · rw [UInt32.le_iff_toNat_le, hinner] at hle
    omega
  · rw [UInt32.le_iff_toNat_le, hinner] at hle
    rw [hinner]
    omega

/-- How a cursor stands to the bytes of a ring of length `n`: `total` of them advanced over and
`pending` copied since. -/
structure Positioned (n : ℕ) (offset lastOffset published : UInt32) (total pending : ℕ) : Prop where
  offset_le : offset.toNat ≤ n
  offset_mod : offset.toNat % n = (total + pending) % n
  last_le : lastOffset.toNat ≤ n
  last_mod : lastOffset.toNat % n = total % n
  published_eq : published.toNat = total % 2 ^ 32

namespace Positioned

variable {length offset lastOffset published : UInt32} {n total pending : ℕ}

theorem wrap (h : Positioned n offset lastOffset published total pending)
    (hend : offset.toNat = n) : Positioned n 0 lastOffset published total pending where
  offset_le := Nat.zero_le _
  offset_mod := by
    rw [← h.offset_mod, hend, Nat.mod_self]
    exact Nat.zero_mod n
  last_le := h.last_le
  last_mod := h.last_mod
  published_eq := h.published_eq

theorem copied (h : Positioned n offset lastOffset published total pending) {count : UInt32}
    (hn : n < 2 ^ 32) (hcount : offset.toNat + count.toNat ≤ n) :
    Positioned n (offset + count) lastOffset published total (pending + count.toNat) := by
  have hsum : (offset + count).toNat = offset.toNat + count.toNat := by
    rw [UInt32.toNat_add, Nat.mod_eq_of_lt (by omega)]
  refine ⟨by rw [hsum]; exact hcount, ?_, h.last_le, h.last_mod, h.published_eq⟩
  rw [hsum, Nat.add_mod, h.offset_mod, ← Nat.add_mod, Nat.add_assoc]

theorem rewind (h : Positioned n offset lastOffset published total pending) :
    Positioned n lastOffset lastOffset published total 0 :=
  ⟨h.last_le, by rw [Nat.add_zero]; exact h.last_mod, h.last_le, h.last_mod, h.published_eq⟩

/-- The offset computed from the published count is the cursor's exactly when the ring's length
divides what the count has lost. -/
theorem rem_eq_iff (h : Positioned n offset lastOffset published total pending) :
    published.toNat % n = lastOffset.toNat % n ↔ n ∣ 2 ^ 32 * (total / 2 ^ 32) := by
  have hsplit := Nat.div_add_mod total (2 ^ 32)
  rw [h.published_eq, h.last_mod]
  constructor
  · intro heq
    have hmod : total % 2 ^ 32 ≡ total [MOD n] := heq
    have hdvd := (Nat.modEq_iff_dvd' (Nat.mod_le _ _)).mp hmod
    rwa [show total - total % 2 ^ 32 = 2 ^ 32 * (total / 2 ^ 32) by omega] at hdvd
  · intro hdvd
    refine (Nat.modEq_iff_dvd' (Nat.mod_le _ _)).mpr ?_
    rwa [show total - total % 2 ^ 32 = 2 ^ 32 * (total / 2 ^ 32) by omega]

/-- A restart where the count has lost nothing that shows. -/
theorem restart (h : Positioned n offset lastOffset published total pending)
    (hdvd : n ∣ 2 ^ 32 * (total / 2 ^ 32)) {cursor : UInt32} (hpos : 0 < n)
    (hcursor : cursor.toNat = published.toNat % n) :
    Positioned n cursor cursor published total 0 := by
  have hle : cursor.toNat ≤ n := by
    rw [hcursor]
    exact (Nat.mod_lt _ hpos).le
  have hmod : cursor.toNat % n = total % n := by
    rw [hcursor, Nat.mod_mod, h.rem_eq_iff.mpr hdvd, h.last_mod]
  exact ⟨hle, by rw [Nat.add_zero]; exact hmod, hle, hmod, h.published_eq⟩

end Positioned

/-! ### A child's cursor -/

section Child

variable {length : UInt32} {s : ChildCursor}

/-- The invariant of a child's cursor. -/
structure ChildCursor.Inv (length : UInt32) (s : ChildCursor) : Prop where
  length_eq : s.fifo.ringLength = length
  positioned : Positioned length.toNat s.fifo.ring.readOffset s.fifo.ring.lastReadOffset
    s.fifo.node.readCount s.total s.pending
  count_eq : s.fifo.ring.readCount.toNat = (s.total + s.pending) % 2 ^ 32
  lastCount_eq : s.fifo.ring.lastReadCount = s.fifo.node.readCount

/-- The value of the node's `written` an iteration goes by. -/
def ChildRing.known (c : ChildRing) (node : ChildNode) (wanted : ℕ) : UInt32 :=
  if wanted > (c.cacheWritten - c.readCount).toNat then node.written else c.cacheWritten

theorem ChildRing.available_eq (c : ChildRing) (node : ChildNode) (wanted : ℕ) :
    c.available node wanted = (c.known node wanted - c.readCount,
      { c with cacheWritten := c.known node wanted }) := by
  rw [available, known]
  split_ifs <;> rfl

theorem ChildRing.load_eq (c : ChildRing) (length : UInt32) (node : ChildNode) (wanted : ℕ) :
    c.load length node wanted =
      if length - c.readOffset = 0 then ({ c with readOffset := 0 }, .wrap)
      else if wanted = 0 then (c, .done)
      else ({ c with cacheWritten := c.known node wanted },
        if c.known node wanted - c.readCount = 0 then .wait
        else .copy (copyCount (c.known node wanted - c.readCount) wanted
          (length - c.readOffset))) := by
  rw [load]
  dsimp only
  rw [available_eq]
  dsimp only
  split_ifs <;> rfl

private theorem toNat_sub_of_le {x y : UInt32} (h : y.toNat ≤ x.toNat) :
    (x - y).toNat = x.toNat - y.toNat :=
  UInt32.toNat_sub_of_le _ _ (UInt32.le_iff_toNat_le.mpr h)

theorem ChildCursor.Inv.iterate (h : s.Inv length) (wanted : ℕ) :
    (s.next length (.iterate wanted)).Inv length := by
  have hn := length.toNat_lt
  have hle := h.positioned.offset_le
  have huntil := toNat_sub_of_le hle
  rw [next, h.length_eq, ChildRing.load_eq]
  split_ifs with hwrap hdone hzero
  · refine ⟨h.length_eq, h.positioned.wrap ?_, h.count_eq, h.lastCount_eq⟩
    rw [hwrap] at huntil
    change 0 = _ at huntil
    omega
  · exact ⟨h.length_eq, h.positioned, h.count_eq, h.lastCount_eq⟩
  · exact ⟨h.length_eq, h.positioned, h.count_eq, h.lastCount_eq⟩
  · have hcount := toNat_copyCount (s.fifo.ring.known s.fifo.node wanted - s.fifo.ring.readCount)
      wanted (length - s.fifo.ring.readOffset)
    refine ⟨h.length_eq, h.positioned.copied hn (by omega), ?_, h.lastCount_eq⟩
    change (s.fifo.ring.readCount + _).toNat = _
    rw [UInt32.toNat_add, h.count_eq, Nat.mod_add_mod, Nat.add_assoc]

theorem ChildCursor.Inv.next (hlength : length ≠ 0) (h : s.Inv length) (op : RingOp)
    (hop : op = .restart → length.toNat ∣ 2 ^ 32 * (s.total / 2 ^ 32)) :
    (s.next length op).Inv length := by
  have hpos : 0 < length.toNat := by
    refine Nat.pos_of_ne_zero fun hc => hlength ?_
    exact UInt32.toNat_inj.mp hc
  cases op with
  | written value => exact ⟨h.length_eq, h.positioned, h.count_eq, h.lastCount_eq⟩
  | iterate wanted => exact h.iterate wanted
  | advance =>
    exact ⟨h.length_eq, ⟨h.positioned.offset_le, h.positioned.offset_mod, h.positioned.offset_le,
      h.positioned.offset_mod, h.count_eq⟩, h.count_eq, rfl⟩
  | rewind =>
    refine ⟨h.length_eq, h.positioned.rewind, ?_, h.lastCount_eq⟩
    change s.fifo.ring.lastReadCount.toNat = _
    rw [h.lastCount_eq, h.positioned.published_eq]
    rfl
  | restart =>
    refine ⟨rfl, h.positioned.restart (hop rfl) hpos (toNat_rem0 hlength _), ?_, h.lastCount_eq⟩
    change s.fifo.ring.lastReadCount.toNat = _
    rw [h.lastCount_eq, h.positioned.published_eq]
    rfl

theorem ChildCursor.inv_start (hlength : length ≠ 0) : (ChildCursor.start length).Inv length := by
  have hzero : rem0 0 length = 0 := by
    rw [← UInt32.toNat_inj, toNat_rem0 hlength]
    exact Nat.zero_mod _
  refine ⟨rfl, ?_, rfl, rfl⟩
  change Positioned length.toNat (rem0 0 length) (rem0 0 length) 0 0 0
  rw [hzero]
  exact ⟨Nat.zero_le _, rfl, Nat.zero_le _, rfl, rfl⟩

end Child

/-! ### The root's cursor -/

section Root

variable {length : UInt32} {s : RootCursor}

/-- The invariant of the root's cursor. -/
structure RootCursor.Inv (length : UInt32) (s : RootCursor) : Prop where
  positioned : Positioned length.toNat s.ring.readOffset s.ring.lastReadOffset s.ring.read s.total
    s.pending
  pending_eq : s.ring.pendingAdvance.toNat = s.pending % 2 ^ 32

theorem RootCursor.Inv.iterate (h : s.Inv length) (wanted : ℕ) :
    (s.next length (.iterate wanted)).Inv length := by
  have hn := length.toNat_lt
  have hle := h.positioned.offset_le
  have huntil := toNat_sub_of_le hle
  rw [next, RootRing.load]
  dsimp only
  split_ifs with hwrap hdone hzero
  · refine ⟨h.positioned.wrap ?_, h.pending_eq⟩
    rw [hwrap] at huntil
    change 0 = _ at huntil
    omega
  · exact h
  · exact h
  · have hcount := toNat_copyCount (s.ring.written - s.ring.read) wanted
      (length - s.ring.readOffset)
    refine ⟨h.positioned.copied hn (by omega), ?_⟩
    change (s.ring.pendingAdvance + _).toNat = _
    rw [UInt32.toNat_add, h.pending_eq, Nat.mod_add_mod]

theorem RootCursor.Inv.next (hlength : length ≠ 0) (h : s.Inv length) (op : RingOp)
    (hop : op = .restart → length.toNat ∣ 2 ^ 32 * (s.total / 2 ^ 32)) :
    (s.next length op).Inv length := by
  have hpos : 0 < length.toNat := by
    refine Nat.pos_of_ne_zero fun hc => hlength ?_
    exact UInt32.toNat_inj.mp hc
  cases op with
  | written value => exact ⟨h.positioned, h.pending_eq⟩
  | iterate wanted => exact h.iterate wanted
  | advance =>
    refine ⟨⟨h.positioned.offset_le, h.positioned.offset_mod, h.positioned.offset_le,
      h.positioned.offset_mod, ?_⟩, rfl⟩
    change (s.ring.read + s.ring.pendingAdvance).toNat = _
    rw [UInt32.toNat_add, h.positioned.published_eq, h.pending_eq, ← Nat.add_mod]
    rfl
  | rewind => exact ⟨h.positioned.rewind, rfl⟩
  | restart => exact ⟨h.positioned.restart (hop rfl) hpos (toNat_rem0 hlength _), rfl⟩

end Root

/-! ### Restarts -/

/-- Along every run of reads, advances, rewinds and restarts of a ring of any length, each restart
being one where the length divides what the 32-bit count has lost of the bytes advanced over: the
offset computed again from the published count is that of the last advance exactly when the length
divides what the count has lost. -/
theorem restart_keeps_cursor_iff (length : UInt32) (hlength : length ≠ 0) :
    (∀ ops s, Execution (fun s op s' => s' = ChildCursor.next length s op ∧
        (op = .restart → length.toNat ∣ 2 ^ 32 * (s.total / 2 ^ 32)))
        (ChildCursor.start length) ops s →
      ((s.fifo.exit.mapLength length).ring.readOffset.toNat =
          s.fifo.ring.lastReadOffset.toNat % length.toNat ↔
        length.toNat ∣ 2 ^ 32 * (s.total / 2 ^ 32))) ∧
    (∀ ops s, Execution (fun s op s' => s' = RootCursor.next length s op ∧
        (op = .restart → length.toNat ∣ 2 ^ 32 * (s.total / 2 ^ 32))) {} ops s →
      ((s.ring.resume length).readOffset.toNat = s.ring.lastReadOffset.toNat % length.toNat ↔
        length.toNat ∣ 2 ^ 32 * (s.total / 2 ^ 32))) := by
  constructor
  · intro ops s hrun
    have hinv : s.Inv length := hrun.invariant (ChildCursor.inv_start hlength) (by
      rintro s op _ h ⟨rfl, hop⟩
      exact h.next hlength op hop)
    rw [← hinv.positioned.rem_eq_iff]
    change (rem0 s.fifo.node.readCount length).toNat = _ ↔ _
    rw [toNat_rem0 hlength]
  · intro ops s hrun
    have hinv : s.Inv length := hrun.invariant ⟨⟨Nat.zero_le _, rfl, Nat.zero_le _, rfl, rfl⟩, rfl⟩
      (by
        rintro s op _ h ⟨rfl, hop⟩
        exact h.next hlength op hop)
    rw [← hinv.positioned.rem_eq_iff]
    change (rem0 s.ring.read length).toNat = _ ↔ _
    rw [toNat_rem0 hlength]

/-- So many commands of a whole ring, each read and advanced over. -/
def wholeRings (length : UInt32) (n : ℕ) : List RingOp :=
  (List.range n).flatMap fun k => [.written (UInt32.ofNat (k * length.toNat) + length),
    .iterate length.toNat, .iterate 0, .advance]

/-- A child that has advanced over `total` bytes and stands at the ring's start. -/
private def atStart (length : UInt32) (count : UInt32) (total : ℕ) : ChildCursor where
  fifo :=
    { ringLength := length
      ring := { readCount := count, lastReadCount := count, cacheWritten := count }
      node := { written := count, readCount := count } }
  total := total

private theorem foldl_wholeRing {length : UInt32} (hlength : length ≠ 0) (count : UInt32)
    (total : ℕ) :
    [.written (count + length), .iterate length.toNat, .iterate 0, .advance].foldl
        (ChildCursor.next length) (atStart length count total) =
      atStart length (count + length) (total + length.toNat) := by
  have hpos : length.toNat ≠ 0 := fun hc => hlength (UInt32.toNat_inj.mp hc)
  have hcopy : copyCount length length.toNat length = length := by
    rw [← UInt32.toNat_inj, toNat_copyCount]
    omega
  have hsub : count + length - count = length := by
    rw [UInt32.add_comm, UInt32.add_sub_cancel]
  simp [ChildCursor.next, atStart, ChildRing.load_eq, ChildRing.known, ChildRing.copied,
    ChildFifo.advance, hlength, hpos, hsub, hcopy, Nat.pos_of_ne_zero hpos]

private theorem foldl_wholeRings {length : UInt32} (hlength : length ≠ 0) (n : ℕ) :
    (wholeRings length n).foldl (ChildCursor.next length) (ChildCursor.start length) =
      atStart length (UInt32.ofNat (n * length.toNat)) (n * length.toNat) := by
  induction n with
  | zero =>
    have hzero : rem0 0 length = 0 := by
      rw [← UInt32.toNat_inj, toNat_rem0 hlength]
      exact Nat.zero_mod _
    simp [wholeRings, ChildCursor.start, ChildFifo.mapLength, atStart, hzero]
  | succ n ih =>
    rw [wholeRings, List.range_succ, List.flatMap_append, List.foldl_append, List.flatMap_singleton]
    change List.foldl _ ((wholeRings length n).foldl (ChildCursor.next length)
      (ChildCursor.start length)) _ = _
    rw [ih, foldl_wholeRing hlength, Nat.succ_mul, UInt32.ofNat_add, UInt32.ofNat_toNat]

/-- A ring of three pages of 16 KiB, after 87382 commands of a whole ring: the cursor stands at the
ring's start, and a restart moves it to the last page. -/
theorem restart_moves_cursor :
    ChildFifo.listLength .other (fun i => if i < 3 then 1 else 0) = 0xc000 ∧
    ∃ s, Execution (fun s op s' => s' = ChildCursor.next 0xc000 s op) (ChildCursor.start 0xc000)
        (wholeRings 0xc000 87382) s ∧
      s.fifo.ring.lastReadOffset = 0 ∧
      (s.fifo.exit.mapLength 0xc000).ring.readOffset = 0x8000 := by
  refine ⟨by decide +kernel, _, Execution.of_foldl _ _ _, ?_⟩
  rw [foldl_wholeRings (by decide)]
  exact ⟨rfl, by decide⟩

/-- A child of three pages, a command and a restart. -/
theorem restart_keeps_cursor_command : ∃ s, Execution (fun s op s' =>
      s' = ChildCursor.next 0xc000 s op ∧
        (op = .restart → (0xc000 : UInt32).toNat ∣ 2 ^ 32 * (s.total / 2 ^ 32)))
      (ChildCursor.start 0xc000) [.written 12, .iterate 12, .advance, .restart] s ∧
    s.total = 12 ∧ (s.fifo.exit.mapLength 0xc000).ring.readOffset.toNat =
      s.fifo.ring.lastReadOffset.toNat % (0xc000 : UInt32).toNat := by
  have hrun : Execution (fun s op s' => s' = ChildCursor.next 0xc000 s op ∧
      (op = .restart → (0xc000 : UInt32).toNat ∣ 2 ^ 32 * (s.total / 2 ^ 32)))
      (ChildCursor.start 0xc000) [.written 12, .iterate 12, .advance, .restart]
      ([.written 12, .iterate 12, .advance, .restart].foldl (ChildCursor.next 0xc000)
        (ChildCursor.start 0xc000)) :=
    ((((Execution.nil _).snoc ⟨rfl, nofun⟩).snoc ⟨rfl, nofun⟩).snoc ⟨rfl, nofun⟩).snoc
      ⟨rfl, fun _ => by decide⟩
  exact ⟨_, hrun, rfl, ((restart_keeps_cursor_iff 0xc000 (by decide)).1 _ _ hrun).mpr (by decide)⟩

end ReimsVgpu.Fifo
