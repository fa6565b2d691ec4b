import Mathlib.Data.UInt
import ReimsVgpu.Library.RunMap

/-!
# The table of the files behind addresses

Which file, from which offset, each byte of memory shows: runs of the process's own mappings, and
registrations of memory that it does not map. A file is known by its descriptor's identity, of any
type. Addresses are natural numbers; a range's end saturates at the largest word, as in the code.
File offsets are words, whose sums wrap.

## Main definitions

* `Backing`, `Run`, `Registered`, `Table`: the table.
* `Table.forget`, `Table.record`, `Table.protect`: ranges that show no file, another file, and the same
  file at another protection.
* `Table.pieces`: the pieces of a range.
* `Table.register`, `Table.unregister`: registrations, counted.
* `mappingsAdded`: the most mappings that a view adds.
-/

namespace ReimsVgpu.Os

/-- The file behind a range, and the file offset of the range's first byte. -/
structure Backing (φ : Type*) where
  fd : φ
  offset : UInt64
deriving DecidableEq

/-- A run of the process's own mapping. -/
structure Run (φ : Type*) where
  stop : ℕ
  backing : Backing φ
  prot : ℤ
deriving DecidableEq

/-- A registration: a range that shows a file, and how often it was registered. -/
structure Registered (φ : Type*) where
  first : ℕ
  stop : ℕ
  backing : Backing φ
  count : ℕ
deriving DecidableEq

/-- A piece of a range: some of its bytes, and what they show. -/
structure Piece (φ : Type*) where
  start : ℕ
  length : ℕ
  backing : Backing φ
  prot : ℤ
deriving DecidableEq

structure Table (φ : Type*) where
  registered : List (Registered φ)
  runs : List (ℕ × Run φ)
  joins : ℕ

/-- Read and write access. -/
def protReadWrite : ℤ := 3

/-- The end of a range, or the largest word. -/
def stopOf (first length : ℕ) : ℕ := min (first + length) (2 ^ 64 - 1)

variable {φ : Type*}

namespace Table

/-- No run and no registration. -/
def empty : Table φ where
  registered := []
  runs := []
  joins := 0

/-- The kernel's mappings that the runs take. -/
def mappings (t : Table φ) : ℕ := t.runs.length - t.joins

/-- The run that holds the byte. -/
def runAt (t : Table φ) (x : ℕ) : Option (ℕ × Run φ) :=
  (RunMap.before (x + 1) t.runs).filter fun e => decide (x < e.2.stop)

/-- The first run from the byte on, before the end. -/
def nextRun (t : Table φ) (x stop : ℕ) : Option ℕ :=
  ((RunMap.after x t.runs).filter fun e => decide (e.1 < stop)).map Prod.fst

/-- The registration that holds the byte. -/
def registeredAt (t : Table φ) (x : ℕ) : Option (Registered φ) :=
  t.registered.find? fun r => decide (r.first ≤ x ∧ x < r.stop)

/-- The runs that meet a range, from the last one down. -/
def meeting (t : Table φ) (first stop : ℕ) : List (ℕ × Run φ) :=
  RunMap.meeting Run.stop first stop t.runs

/-- The pieces of a range from a byte on, each of at least a byte. -/
def piecesFrom (t : Table φ) (first stop : ℕ) : ℕ → ℕ → Option (List (Piece φ))
  | 0, _ => some []
  | fuel + 1, x =>
    if stop ≤ x then some []
    else match t.runAt x with
      | some (runFirst, run) =>
        let high := min run.stop stop
        (t.piecesFrom first stop fuel high).map fun pieces =>
          { start := x - first, length := high - x, prot := run.prot,
            backing := { run.backing with
              offset := run.backing.offset + UInt64.ofNat (x - runFirst) } } :: pieces
      | none =>
        (t.registeredAt x).bind fun r =>
          let high := min (min r.stop stop) ((t.nextRun x stop).getD stop)
          (t.piecesFrom first stop fuel high).map fun pieces =>
            { start := x - first, length := high - x, prot := protReadWrite,
              backing := { r.backing with
                offset := r.backing.offset + UInt64.ofNat (x - r.first) } } :: pieces

/-- The pieces of a range, where each of its bytes has a file. -/
def pieces (t : Table φ) (first length : ℕ) : Option (List (Piece φ)) :=
  if first + length < 2 ^ 64 then t.piecesFrom first (first + length) length first else none

end Table

variable [DecidableEq φ]

/-- Two neighbouring runs that the kernel holds as one mapping. -/
def joined (a b : ℕ × Run φ) : Bool :=
  decide (a.2.stop = b.1) && decide (a.2.backing.fd = b.2.backing.fd) &&
    decide (a.2.backing.offset + UInt64.ofNat (a.2.stop - a.1) = b.2.backing.offset) &&
      decide (a.2.prot = b.2.prot)

namespace Table

/-- How many of the runs on either side join a run between them. -/
def joinsBeside (t : Table φ) (first : ℕ) (run : Run φ) : ℕ :=
  let before := (RunMap.before first t.runs).any fun e => joined e (first, run)
  let after := (RunMap.after run.stop t.runs).any fun e => joined (first, run) e
  before.toNat + after.toNat

/-- A run added over bytes that no run holds. -/
def insert (t : Table φ) (first : ℕ) (run : Run φ) : Table φ :=
  { t with joins := t.joins + t.joinsBeside first run, runs := RunMap.insert first run t.runs }

/-- The run from the byte removed. -/
def remove (t : Table φ) (first : ℕ) : Table φ :=
  match t.runs.find? fun e => decide (e.1 = first) with
  | none => t
  | some (_, run) =>
    let t := { t with runs := RunMap.erase first t.runs }
    { t with joins := t.joins - t.joinsBeside first run }

/-- What of a run lies in the range dropped, the rest kept. -/
def cut (first stop : ℕ) (t : Table φ) (e : ℕ × Run φ) : Table φ :=
  let t := t.remove e.1
  let t := if e.1 < first then t.insert e.1 { e.2 with stop := first } else t
  if stop < e.2.stop then
    t.insert stop
      { e.2 with backing.offset := e.2.backing.offset + UInt64.ofNat (stop - e.1) }
  else t

/-- What of the runs lies in the range dropped. -/
def forget (t : Table φ) (first stop : ℕ) : Table φ := (t.meeting first stop).foldl (cut first stop) t

/-- The range shows the file from now on. -/
def record (t : Table φ) (first stop : ℕ) (backing : Backing φ) (prot : ℤ) : Table φ :=
  let t := t.forget first stop
  if first < stop then t.insert first { stop, backing, prot } else t

/-- The protection of what of a run lies in the range set. -/
def repaint (first stop : ℕ) (prot : ℤ) (t : Table φ) (e : ℕ × Run φ) : Table φ :=
  let low := max e.1 first
  let high := min e.2.stop stop
  (t.forget low high).insert low
    { stop := high, prot,
      backing := { e.2.backing with
        offset := e.2.backing.offset + UInt64.ofNat (low - e.1) } }

/-- The protection of what of the runs lies in the range set. -/
def protect (t : Table φ) (first stop : ℕ) (prot : ℤ) : Table φ :=
  (t.meeting first stop).foldl (repaint first stop prot) t

/-! ### Registrations -/

/-- A registration of the range over the file. -/
def isRegistered (first stop : ℕ) (backing : Backing φ) (r : Registered φ) : Bool :=
  decide (r.first = first) && decide (r.stop = stop) && decide (r.backing = backing)

/-- The first entry that a test accepts, changed; or none. -/
def updateFirst {α : Type*} (p : α → Bool) (f : α → List α) : List α → Option (List α)
  | [] => none
  | a :: l => if p a then some (f a ++ l) else (updateFirst p f l).map (a :: ·)

/-- The range registered: counted again where it was registered over the same file and offset. -/
def register (t : Table φ) (first stop : ℕ) (backing : Backing φ) : Table φ :=
  match updateFirst (isRegistered first stop backing)
      (fun r => [{ r with count := r.count + 1 }]) t.registered with
  | some registered => { t with registered }
  | none => { t with registered := t.registered ++ [{ first, stop, backing, count := 1 }] }

/-- A registration dropped: counted down, and gone at the last. -/
def unregister (t : Table φ) (first stop : ℕ) (backing : Backing φ) : Table φ :=
  match updateFirst (isRegistered first stop backing)
      (fun r => if r.count - 1 = 0 then [] else [{ r with count := r.count - 1 }])
      t.registered with
  | some registered => { t with registered }
  | none => t

end Table

/-! ### Views -/

/-- A piece that goes on where the one before it ends. -/
def follows (a b : Piece φ) : Bool :=
  decide (a.backing.fd = b.backing.fd) &&
    decide (a.backing.offset + UInt64.ofNat a.length = b.backing.offset) && decide (a.prot = b.prot)

/-- How many pieces do not follow the one before them. -/
def apart : List (Piece φ) → ℕ
  | [] => 0
  | [_] => 0
  | a :: b :: pieces => (!follows a b).toNat + apart (b :: pieces)

/-- The most mappings that a view of the pieces adds. -/
def mappingsAdded (pieces : List (Piece φ)) : ℕ := apart pieces + 2

end ReimsVgpu.Os
