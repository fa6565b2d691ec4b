import Mathlib.Data.Finset.Max
import Mathlib.Data.Prod.Lex
import ReimsVgpu.Gpu.MetalSpace

/-!
# The numbers of indirect command buffers

An indirect command buffer has an ID, plain or placed, and a range of addresses. Plain IDs come from a
pool that doubles where none is free and that a reservation, taken before any buffer is made, keeps IDs
out of. The pool keeps its free ranges twice: by their starts, and by their lengths.

IDs are below the pool's size, so that no sum of one wraps.

## Main definitions

* `Pool.take`, `Pool.give`, `Pool.reserve`: the plain IDs.
* `Space.take`, `Space.giveBack`, `Space.reserve`, `Space.dropRange`: the numbers of the buffers.
-/

namespace ReimsVgpu.Gpu.IcbNumbers

/-- `FIRST_ADDRESS`. -/
def firstAddress : ℕ := 0x1_8000

/-- `PAGE`. -/
def page : ℕ := 0x4000

/-- `SLOT`. -/
def slot : ℕ := 0x8000

/-- `FIRST_POOL`. -/
def firstPool : ℕ := 32

/-- A sum that stops at the largest number. -/
def saturatingAdd (a b : ℕ) : ℕ := min (a + b) (2 ^ 64 - 1)

/-- `Reservation`: what Metal does with a reservation. -/
inductive Reservation where
  | taken
  | ignored
  | hangs
  | handsOutTwice
  deriving DecidableEq, Repr

/-- `Pool`: the free ranges, start to end, and the same ranges as length and start. -/
structure Pool where
  size : ℕ
  free : List (ℕ × ℕ)
  smallest : Finset (ℕ ×ₗ ℕ)
  started : Bool
  loneZero : Bool
  deriving DecidableEq

namespace Pool

/-- `add`. -/
def add (p : Pool) (start stop : ℕ) : Pool :=
  if start < stop then
    { p with
      free := RunMap.insert start stop p.free
      smallest := insert (toLex (stop - start, start)) p.smallest }
  else p

/-- `new`. -/
def new (size : ℕ) : Pool :=
  add { size, free := [], smallest := ∅, started := false, loneZero := false } 1 size

/-- `cut`. -/
def cut (p : Pool) (start : ℕ) : Option ℕ × Pool :=
  match p.free.find? fun e => decide (e.1 = start) with
  | none => (none, p)
  | some (_, stop) =>
    (some stop,
      { p with
        free := RunMap.erase start p.free
        smallest := p.smallest.erase (toLex (stop - start, start)) })

/-- The free range that ends at an ID cut out, as `grow` and `give` do: its start, or the ID where none
does. -/
def joined (p : Pool) (id : ℕ) : ℕ × Pool :=
  match RunMap.before id p.free with
  | some (start, stop) => if stop = id then (start, (p.cut start).2) else (id, p)
  | none => (id, p)

/-- `grow`. -/
def grow (p : Pool) : Pool :=
  let old := p.size
  let p := { p with size := min (old * 2) (2 ^ 64 - 1) }
  let joined := p.joined old
  joined.2.add joined.1 p.size

/-- `take`, once an ID is free. -/
def takeFirst (p : Pool) : ℕ × Pool :=
  let start := if h : p.smallest.Nonempty then (ofLex (p.smallest.min' h)).2 else p.size
  match p.cut start with
  | (some stop, p) => (start, p.add (start + 1) stop)
  | (none, p) => (start, p)

/-- `take`. -/
def take (p : Pool) : ℕ × Pool :=
  let p := { p with started := true }
  if p.smallest = ∅ then p.grow.takeFirst else p.takeFirst

/-- `give`. -/
def give (p : Pool) (id : ℕ) : Pool :=
  let joined := p.joined id
  match joined.2.cut (id + 1) with
  | (some stop, p) => p.add joined.1 stop
  | (none, p) => p.add joined.1 (id + 1)

/-- The inner loop of `reserve`, as many times as there is fuel for. -/
def growTo : ℕ → ℕ → Pool → Option Pool
  | 0, _, _ => none
  | fuel + 1, id, p => if p.size ≤ id then growTo fuel id p.grow else some p

/-- What `reserve` does with an ID below the pool's size. -/
def keep (p : Pool) (id : ℕ) : Pool :=
  match RunMap.before (id + 1) p.free with
  | some (start, stop) =>
    if id < stop then ((p.cut start).2.add start id).add (id + 1) stop else p
  | none => p

/-- The outer loop of `reserve`. -/
def keepAll (fuel : ℕ) : List ℕ → Pool → Option Pool
  | [], p => some p
  | id :: ids, p => (growTo fuel id p).bind fun p => keepAll fuel ids (p.keep id)

/-- `reserve`. -/
def reserve (fuel : ℕ) (ids : List ℕ) (p : Pool) : Option (Reservation × Pool) :=
  if p.started then some (.ignored, p)
  else
    let zero := ids.contains 0
    let ids := ids.filter fun id => decide (id ≠ 0)
    if ids.isEmpty then some (.ignored, { p with loneZero := p.loneZero || zero })
    else if ids.any fun id => decide (2 ^ 31 ≤ id) then some (.hangs, p)
    else if p.loneZero then some (.handsOutTwice, p)
    else (keepAll fuel ids { p with started := true }).map fun p => (.taken, p)

end Pool

/-- `Numbers`: the ID, whether it is plain, and the address. -/
structure Numbers where
  id : ℕ
  plain : Bool
  address : ℕ
  deriving DecidableEq, Repr

/-- `Space`: the plain IDs, once the pool was used, and the ranges of the live buffers: start, then
bytes. -/
structure Space where
  pool : Option Pool
  ranges : List (ℕ × ℕ)
  deriving DecidableEq

namespace Space

/-- `SPACE`. -/
def new : Space where
  pool := none
  ranges := []

/-- `pool`. -/
def thePool (s : Space) : Pool := s.pool.getD (Pool.new firstPool)

/-- The bytes of the range of a buffer; a rounding past the largest number wraps. -/
def footprint (size : ℕ) : ℕ := nextMultipleOf (saturatingAdd size page) slot % 2 ^ 64

/-- The loop of `take` over the live ranges. -/
def addressFrom (footprint : ℕ) : ℕ → List (ℕ × ℕ) → ℕ
  | address, [] => address
  | address, (start, bytes) :: ranges =>
    if saturatingAdd address footprint ≤ start then address
    else addressFrom footprint (max address (saturatingAdd start bytes)) ranges

/-- `take`. -/
def take (s : Space) (placed : Option ℕ) (size : ℕ) : Numbers × Space :=
  let taken : ℕ × Bool × Pool :=
    match placed with
    | some id => (id, false, { s.thePool with started := true })
    | none => (s.thePool.take.1, true, s.thePool.take.2)
  let address := addressFrom (footprint size) firstAddress s.ranges
  (⟨taken.1, taken.2.1, address⟩,
    { pool := some taken.2.2, ranges := RunMap.insert address (footprint size) s.ranges })

/-- `give_back`. -/
def giveBack (s : Space) (numbers : Numbers) : Space :=
  if numbers.plain then { s with pool := some (s.thePool.give numbers.id) } else s

/-- `reserve`. -/
def reserve (fuel : ℕ) (ids : List ℕ) (s : Space) : Option (Reservation × Space) :=
  if ids.any fun id => decide (2 ^ 32 - 1 < id) then some (.ignored, s)
  else (s.thePool.reserve fuel ids).map fun answer => (answer.1, { s with pool := some answer.2 })

/-- The drop of a `Reserved` range. -/
def dropRange (s : Space) (address : ℕ) : Space := { s with ranges := RunMap.erase address s.ranges }

end Space

end ReimsVgpu.Gpu.IcbNumbers
