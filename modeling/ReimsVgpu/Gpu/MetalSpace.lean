import Mathlib.Algebra.Group.Nat.Defs
import Mathlib.Data.Nat.Basic
import ReimsVgpu.Library.RunMap

/-!
# Metal's GPU address space

The model of the address space by which buffers, heaps and textures are placed: the held runs, the
pools of small allocations, and the two mempools of descriptors. The map of the held runs is a
`RunMap` from each run's first byte to its end. Addresses and lengths are natural numbers, and every sum
the code checks against 64 bits is checked here; the counts it does not check (the live textures, the
bytes of a pool's slots) are taken as unbounded.

## Main definitions

* `MetalSpace`: the space, with its pools and mempools.
* `MetalSpace.place`, `MetalSpace.pin`, `MetalSpace.release`: ranges of it.
* `MetalSpace.slot`, `MetalSpace.freeSlot`: slots in the pools.
* `MetalSpace.firstUse`, `MetalSpace.textureMade`, `MetalSpace.samplerPool`, `MetalSpace.placeTexture`,
  `MetalSpace.placeSurface`: what Metal takes for its own work, and textures.
-/

namespace ReimsVgpu.Gpu

/-! ### Numbers -/

/-- A 64-bit result, where it is one. -/
def checked (n : ℕ) : Option ℕ := if n < 2 ^ 64 then some n else none

/-- The least multiple that is not below the number. -/
def nextMultipleOf (n k : ℕ) : ℕ := (n + (k - 1)) / k * k

def checkedNextMultipleOf (n k : ℕ) : Option ℕ := checked (nextMultipleOf n k)

/-- Metal's page. -/
def page : ℕ := 0x4000

/-- The boundary a plain range starts on. -/
def slotSize : ℕ := 0x8000

/-- Where the space begins. -/
def base : ℕ := 0x10000000000

/-- The end of the space. -/
def spaceEnd : ℕ := 2 ^ 47

/-- The bytes of the heap made with the device. -/
def deviceHeap : ℕ := 0x10000

/-- The bytes of each pool of small allocations. -/
def poolBytes : ℕ := 0x20000

/-- The step of a pool's slots. -/
def slotStep : ℕ := 0x100

def sharedSetup : ℕ := 0x3e00

def privateSetup : ℕ := 0x100

def firstArray : ℕ := 0x200

def elementBytes : ℕ := 0x20

def firstPool : ℕ := firstArray / elementBytes

def ownHeapSize : ℕ := page

def shareableExtra : ℕ := 0x10

/-! ### What is held -/

/-- A range of addresses. -/
structure Range where
  start : ℕ
  stop : ℕ
deriving DecidableEq

/-- The bytes of the space that one resource holds. -/
structure Held where
  address : ℕ
  pages : Range
  guard : Range
  pinned : Bool
deriving DecidableEq

/-- The run a resource holds: its pages and the guard pages after them. -/
def Held.run (h : Held) : ℕ × ℕ := (h.pages.start, h.guard.stop)

/-- Why a pin is refused. -/
inductive PinRefused
  | held (requested : Range) (held : ℕ)
  | offGranule (requested : Range)
  | outside
deriving DecidableEq

inductive PoolClass
  | shared
  | «private»
  | managed
deriving DecidableEq

/-- One of the pools of small allocations. -/
structure Pool where
  poolClass : PoolClass
  held : Held
  free : List (ℕ × ℕ)
  used : ℕ
  kept : Bool

namespace Pool

/-- A pool, all of it free. -/
def new (poolClass : PoolClass) (held : Held) (kept : Bool) : Pool where
  poolClass
  held
  free := [(0, poolBytes)]
  used := 0
  kept

/-- The lowest offset with the bytes free, now taken. -/
def take (pool : Pool) (bytes : ℕ) : Option (ℕ × Pool) :=
  (pool.free.find? fun e => decide (bytes ≤ e.2 - e.1)).map fun (start, stop) =>
    let free := RunMap.erase start pool.free
    let free := if bytes < stop - start then RunMap.insert (start + bytes) stop free else free
    (start, { pool with free, used := pool.used + bytes })

/-- The bytes at the offset free again, merged with the free runs on either side. -/
def give (pool : Pool) (offset bytes : ℕ) : Pool :=
  let stop := offset + bytes
  let (start, free) := match RunMap.before offset pool.free with
    | some (before, beforeEnd) =>
      if beforeEnd = offset then (before, RunMap.erase before pool.free) else (offset, pool.free)
    | none => (offset, pool.free)
  let (stop, free) := match free.find? fun e => decide (e.1 = stop) with
    | some (_, afterEnd) => (afterEnd, RunMap.erase stop free)
    | none => (stop, free)
  { pool with free := RunMap.insert start stop free, used := pool.used - bytes }

end Pool

/-- A slot in one of the pools. -/
structure Slot where
  pool : ℕ
  offset : ℕ
  bytes : ℕ
deriving DecidableEq

/-- What a resource takes of the space. -/
inductive Holding
  | nothing
  | range (held : Held)
  | slot (slot : Slot)
deriving DecidableEq

/-- The mempool of texture descriptors. -/
structure Elements where
  live : ℕ
  array : ℕ
  arrays : List Holding

/-- The mempool of sampler descriptors. -/
structure Samplers where
  pool : ℕ
  array : ℕ
  held : Holding

/-! ### First uses -/

/-- A use of the device after which Metal has made its own allocations for it. -/
inductive FirstUse
  | queue
  | texture
  | computeEncoder
  | blitCommand
  | renderEncoder
  | tilerBlit
  | tilerSubmission
  | smallShared
  | smallPrivate
deriving DecidableEq

/-- One of Metal's own allocations. -/
inductive Own
  | sharedPool
  | poolHeap
  | privatePool
  | command (index : UInt8)
  | computeData
  | blitData
  | blitDispatch
  | programHeap
  | renderPool
  | renderData
  | tilerWork
deriving DecidableEq

def Own.bytes : Own → ℕ
  | .sharedPool => 0x20000
  | .privatePool => 0x20000
  | .poolHeap => 0x10000
  | .command _ => 0x8000
  | .computeData => 0xa980
  | .blitData => 0xa980
  | .blitDispatch => 0x400
  | .programHeap => 0x74000
  | .renderPool => 0x100000
  | .renderData => 0xc0000
  | .tilerWork => 0x208000 - page

/-- The allocations that a first use makes, in order. -/
def allocations : FirstUse → List Own
  | .queue => [.sharedPool, .poolHeap, .privatePool]
  | .texture => [.sharedPool, .poolHeap, .privatePool]
  | .computeEncoder =>
    [.command 0, .command 1, .command 2, .command 6, .command 7, .command 8, .computeData]
  | .blitCommand =>
    [.command 0, .command 1, .command 2, .command 3, .command 4, .command 5, .command 6, .blitData,
      .blitDispatch]
  | .renderEncoder =>
    [.programHeap, .command 3, .command 4, .command 0, .command 1, .renderPool, .command 5,
      .command 2, .command 9, .command 10, .command 11, .renderData]
  | .tilerBlit => [.programHeap]
  | .tilerSubmission => [.tilerWork]
  | .smallShared => [.sharedPool]
  | .smallPrivate => [.privatePool]

/-! ### Textures -/

/-- A kind of texture. -/
inductive TextureKind
  | overBuffer
  | inHeap
  | view
  | memoryless
  | ownMemory (heapSize : ℕ) (poolClass : PoolClass)
  | sharedBacking (allocation : ℕ)
  | fromSharedHandle
  | overSurface
deriving DecidableEq

/-- What a texture takes of the space. -/
inductive TextureSpace
  | none
  | own (bytes : ℕ)
  | slot (poolClass : PoolClass) (bytes : ℕ)
  | surface
deriving DecidableEq

def textureSpace : TextureKind → TextureSpace
  | .overBuffer => .none
  | .inHeap => .none
  | .view => .none
  | .memoryless => .none
  | .fromSharedHandle => .none
  | .overSurface => .surface
  | .ownMemory heapSize poolClass =>
    if heapSize < ownHeapSize then .slot poolClass heapSize else .own heapSize
  | .sharedBacking allocation => .own (min (allocation + shareableExtra) (2 ^ 64 - 1))

/-! ### The space -/

/-- The bytes of pages and the whole span that a plain range holds. -/
def plainSpan (length : ℕ) : Option (ℕ × ℕ) :=
  (checkedNextMultipleOf (max length 1) page).bind fun pages =>
    (checked (pages + page)).bind fun guarded =>
      (checkedNextMultipleOf guarded slotSize).map fun span => (pages, span)

/-- The scan for a gap: from a start, past every run that lies in its way. -/
def gapFrom (span : ℕ) : ℕ → List (ℕ × ℕ) → Option ℕ
  | low, [] => some low
  | low, (start, stop) :: runs =>
    if stop ≤ low then gapFrom span low runs
    else (checked (low + span)).bind fun high =>
      if high ≤ start then some low
      else (checkedNextMultipleOf stop slotSize).bind fun low => gapFrom span low runs

/-- One process's space. -/
structure MetalSpace where
  held : List (ℕ × ℕ)
  device : Bool
  own : List Own
  pools : List Pool
  elements : Elements
  samplers : Samplers

namespace MetalSpace

/-- A space where nothing is held. -/
def new : MetalSpace where
  held := []
  device := false
  own := []
  pools := []
  elements := { live := 0, array := 0, arrays := [] }
  samplers := { pool := firstPool, array := 0, held := .nothing }

/-- The device's heap, held from the first use of the space. -/
def makeDevice (s : MetalSpace) : MetalSpace :=
  if s.device then s
  else
    let span := ((plainSpan deviceHeap).getD (0, 0)).2
    { s with device := true, held := RunMap.insert base (base + span) s.held }

/-- The first held byte of a range. -/
def firstHeld (s : MetalSpace) (range : Range) : Option ℕ :=
  (RunMap.meeting id range.start range.stop s.held).getLast?.map fun e => max e.1 range.start

/-- The lowest aligned start where the span is free. -/
def lowestGap (s : MetalSpace) (span : ℕ) : Option ℕ :=
  (gapFrom span base s.held).bind fun low =>
    (checked (low + span)).bind fun high => if high ≤ spaceEnd then some low else none

/-- A plain range for the bytes, now held. -/
def place (s : MetalSpace) (length : ℕ) : Option Held × MetalSpace :=
  let s := s.makeDevice
  match plainSpan length with
  | none => (none, s)
  | some (pages, span) =>
    match s.lowestGap span with
    | none => (none, s)
    | some start =>
      match checked (start + span) with
      | none => (none, s)
      | some stop =>
        let s := { s with held := RunMap.insert start stop s.held }
        match checked (start + pages) with
        | none => (none, s)
        | some pagesEnd =>
          (some
            { address := start, pages := ⟨start, pagesEnd⟩, guard := ⟨pagesEnd, stop⟩,
              pinned := false }, s)

/-- The guest's pin, now held. -/
def pin (s : MetalSpace) (address length : ℕ) : Except PinRefused Held × MetalSpace :=
  let s := s.makeDevice
  let first := address - address % page
  match (checked (address + max length 1)).bind fun stop => checkedNextMultipleOf stop page with
  | none => (.error .outside, s)
  | some stop =>
    match (plainSpan (stop - first)).bind fun (_, span) => checked (first + span) with
    | none => (.error .outside, s)
    | some spanEnd =>
      let requested : Range := ⟨first, spanEnd⟩
      if first % slotSize ≠ 0 then (.error (.offGranule requested), s)
      else
        match s.firstHeld requested with
        | some held => (.error (.held requested held), s)
        | none =>
          (.ok { address, pages := ⟨first, stop⟩, guard := ⟨stop, spanEnd⟩, pinned := true },
            { s with held := RunMap.insert first spanEnd s.held })

/-- A resource released: its whole span free again. -/
def release (s : MetalSpace) (held : Held) : MetalSpace :=
  { s with held := RunMap.erase held.pages.start s.held }

/-! ### Slots -/

/-- The slot from the first pool of its class that holds it. -/
def takeFrom (poolClass : PoolClass) (bytes : ℕ) : List Pool → Option ((ℕ × ℕ) × List Pool)
  | [] => none
  | pool :: pools =>
    match if pool.poolClass = poolClass then pool.take bytes else none with
    | some (offset, pool') => some ((pool.held.address, offset), pool' :: pools)
    | none => (takeFrom poolClass bytes pools).map fun (found, pools) => (found, pool :: pools)

/-- A slot, in the first pool of its class that holds it or in a new one. -/
def slot (s : MetalSpace) (poolClass : PoolClass) (length : ℕ) : Option Slot × MetalSpace :=
  match checkedNextMultipleOf (max length 1) slotStep with
  | none => (none, s)
  | some bytes =>
    if poolBytes < bytes then (none, s)
    else
      match takeFrom poolClass bytes s.pools with
      | some ((pool, offset), pools) => (some { pool, offset, bytes }, { s with pools })
      | none =>
        match s.place poolBytes with
        | (none, s) => (none, s)
        | (some held, s) =>
          match (Pool.new poolClass held false).take bytes with
          | none => (none, s)
          | some (offset, pool) =>
            (some { pool := held.address, offset, bytes }, { s with pools := s.pools ++ [pool] })

/-- The slot given back to its pool, and the range of a pool that goes with its last slot. -/
def giveTo (slot : Slot) : List Pool → Option Held × List Pool
  | [] => (none, [])
  | pool :: pools =>
    if pool.held.address = slot.pool then
      let pool := pool.give slot.offset slot.bytes
      if pool.used = 0 ∧ !pool.kept then (some pool.held, pools) else (none, pool :: pools)
    else
      let (gone, pools) := giveTo slot pools
      (gone, pool :: pools)

/-- A slot free again. -/
def freeSlot (s : MetalSpace) (slot : Slot) : MetalSpace :=
  let (gone, pools) := giveTo slot s.pools
  let s := { s with pools }
  match gone with
  | none => s
  | some held => s.release held

/-- What a resource took, free again. -/
def free (s : MetalSpace) : Holding → MetalSpace
  | .nothing => s
  | .range held => s.release held
  | .slot slot => s.freeSlot slot

/-! ### Metal's own work -/

/-- One of Metal's own arrays: a slot in the shared pool under a page, else a plain range. -/
def ownArray (s : MetalSpace) (bytes : ℕ) : Holding × MetalSpace :=
  if bytes < page then
    let (made, s) := s.slot .shared bytes
    (made.elim .nothing .slot, s)
  else
    let (made, s) := s.place bytes
    (made.elim .nothing .range, s)

/-- Arrays made one after the other. -/
def ownArrays (s : MetalSpace) : List ℕ → List Holding × MetalSpace
  | [] => ([], s)
  | bytes :: rest =>
    let (array, s) := s.ownArray bytes
    let (arrays, s) := s.ownArrays rest
    (array :: arrays, s)

/-- The device's sampler ID pool of the size. -/
def samplerPool (s : MetalSpace) (size : ℕ) : MetalSpace :=
  let s := { s with samplers.pool := max s.samplers.pool size }
  let bytes := min (s.samplers.pool * elementBytes) (2 ^ 64 - 1)
  if 0 < s.samplers.array ∧ s.samplers.array < bytes then
    let (made, s) := s.ownArray bytes
    let old := s.samplers.held
    { s with samplers.array := bytes, samplers.held := made }.free old
  else s

/-- The first queue's setup, once. -/
def setup (s : MetalSpace) : MetalSpace :=
  if 0 < s.elements.array then s
  else
    let s := { s with elements.array := firstArray }
    let (arrays, s) := s.ownArrays [firstArray, firstArray, firstArray / 4]
    let s := { s with elements.arrays := arrays, samplers.array := firstArray }
    let (array, s) := s.ownArray firstArray
    let s := { s with samplers.held := array }
    let s := (s.slot .shared sharedSetup).2
    let s := (s.slot .private privateSetup).2
    s.samplerPool s.samplers.pool

/-- The pool that one of Metal's own allocations is. -/
def Own.poolClass : Own → Option PoolClass
  | .sharedPool => some .shared
  | .privatePool => some .private
  | _ => none

/-- One of Metal's own allocations, where no earlier use made it. -/
def makeOwn (s : MetalSpace) (own : Own) : MetalSpace :=
  if own ∈ s.own then s
  else
    let (held, s) := { s with own := own :: s.own }.place own.bytes
    match Own.poolClass own, held with
    | some poolClass, some held => { s with pools := s.pools ++ [Pool.new poolClass held true] }
    | _, _ => s

/-- The device used so for the first time. -/
def firstUse (s : MetalSpace) (first : FirstUse) : MetalSpace :=
  let s := (allocations first).foldl makeOwn s
  match first with
  | .queue => s.setup
  | .texture => s.setup
  | _ => s

/-- Arrays freed one after the other. -/
def freeAll (s : MetalSpace) (holdings : List Holding) : MetalSpace := holdings.foldl free s

/-- A texture made: its descriptor, for which the mempool grows. -/
def textureMade (s : MetalSpace) : MetalSpace :=
  let s := { s with elements.live := s.elements.live + 1 }
  let array := s.elements.array
  if 0 < array ∧ array / elementBytes ≤ s.elements.live then
    let array := array * 2
    let s := { s with elements.array := array }
    let (arrays, s) := s.ownArrays [array, array, array / 4]
    let old := s.elements.arrays
    { s with elements.arrays := arrays }.freeAll old
  else s

/-- A texture gone. -/
def textureGone (s : MetalSpace) : MetalSpace :=
  { s with elements.live := s.elements.live - 1 }

/-- A texture made: its descriptor, then what it holds of its own. -/
def placeTexture (s : MetalSpace) (kind : TextureKind) : Holding × MetalSpace :=
  let s := match kind with
    | .ownMemory _ _ => s.firstUse .texture
    | .sharedBacking _ => s.firstUse .texture
    | _ => s
  let s := s.textureMade
  match textureSpace kind with
  | .none => (.nothing, s)
  | .surface => (.nothing, s)
  | .own bytes =>
    let (made, s) := s.place bytes
    (made.elim .nothing .range, s)
  | .slot poolClass bytes =>
    let (made, s) := s.slot poolClass bytes
    (made.elim .nothing .slot, s)

/-- The range of a surface. -/
def placeSurface (s : MetalSpace) (allocSize : ℕ) : Option Held × MetalSpace :=
  (s.firstUse .texture).place allocSize

/-! ### Equations -/

variable {s : MetalSpace}

/-- Where no pool has the slot, the new one it would be in may have no place. -/
theorem slot_of_unplaced {poolClass : PoolClass} {length bytes : ℕ} {s' : MetalSpace}
    (hround : checkedNextMultipleOf (max length 1) slotStep = some bytes)
    (hfits : ¬poolBytes < bytes) (htake : takeFrom poolClass bytes s.pools = none)
    (hplace : s.place poolBytes = (none, s')) : s.slot poolClass length = (none, s') := by
  rw [slot, hround]
  dsimp only
  rw [if_neg hfits, htake, hplace]

theorem slot_of_placed {poolClass : PoolClass} {length bytes offset : ℕ} {held : Held}
    {pool : Pool} {s' : MetalSpace}
    (hround : checkedNextMultipleOf (max length 1) slotStep = some bytes)
    (hfits : ¬poolBytes < bytes) (htake : takeFrom poolClass bytes s.pools = none)
    (hplace : s.place poolBytes = (some held, s'))
    (htaken : (Pool.new poolClass held false).take bytes = some (offset, pool)) :
    s.slot poolClass length =
      (some ⟨held.address, offset, bytes⟩, { s' with pools := s'.pools ++ [pool] }) := by
  rw [slot, hround]
  dsimp only
  rw [if_neg hfits, htake, hplace]
  dsimp only
  rw [htaken]

theorem textureMade_of_not_full
    (hfull : ¬(0 < s.elements.array ∧
      s.elements.array / elementBytes ≤ s.elements.live + 1)) :
    s.textureMade = { s with elements.live := s.elements.live + 1 } := by
  rewrite [textureMade, if_neg hfull]
  rfl

/-- A full mempool: its arrays made anew at twice their size, and the old ones freed. -/
theorem textureMade_of_full
    (hfull : 0 < s.elements.array ∧ s.elements.array / elementBytes ≤ s.elements.live + 1)
    {arrays : List Holding} {s' : MetalSpace}
    (hmade : { s with
        elements.live := s.elements.live + 1
        elements.array := s.elements.array * 2 }.ownArrays
      [s.elements.array * 2, s.elements.array * 2, s.elements.array * 2 / 4] = (arrays, s')) :
    s.textureMade = { s' with elements.arrays := arrays }.freeAll s'.elements.arrays := by
  have hgrow : ∀ (grown : MetalSpace) (array : ℕ),
      grown.ownArrays [array, array, array / 4] = (arrays, s') →
      (match grown.ownArrays [array, array, array / 4] with
        | (arrays, s) =>
          have old := s.elements.arrays
          { s with elements.arrays := arrays }.freeAll old) =
        { s' with elements.arrays := arrays }.freeAll s'.elements.arrays := by
    intro grown array hmade
    rw [hmade]
  rewrite [textureMade, if_pos hfull]
  exact hgrow _ _ hmade

/-- A texture with no memory of its own is its descriptor alone. -/
theorem placeTexture_of_bare (s : MetalSpace) {kind : TextureKind}
    (hbare : textureSpace kind = .none ∨ textureSpace kind = .surface) :
    s.placeTexture kind = (.nothing, s.textureMade) := by
  cases kind with
  | ownMemory heapSize poolClass =>
    rw [textureSpace] at hbare
    split_ifs at hbare <;> simp at hbare
  | sharedBacking allocation => simp [textureSpace] at hbare
  | _ => rfl

/-- A texture with memory of its own makes the device's allocations, then takes a range or a slot. -/
theorem placeTexture_of_own {kind : TextureKind} {bytes : ℕ} (hown : textureSpace kind = .own bytes)
    {made : Option Held} {s' : MetalSpace}
    (hmade : (s.firstUse .texture).textureMade.place bytes = (made, s')) :
    s.placeTexture kind = (made.elim .nothing .range, s') := by
  unfold placeTexture
  rewrite [hown]
  -- the call stays closed, and only the pair it gives is taken apart
  obtain ⟨placeOf, hplaceOf⟩ : ∃ f, f = MetalSpace.place := ⟨_, rfl⟩
  rewrite [← hplaceOf] at hmade ⊢
  cases kind with
  | ownMemory heapSize poolClass =>
    dsimp only
    rw [hmade]
  | sharedBacking allocation =>
    dsimp only
    rw [hmade]
  | _ => cases hown

theorem placeTexture_of_slot {kind : TextureKind} {poolClass : PoolClass} {bytes : ℕ}
    (hslot : textureSpace kind = .slot poolClass bytes) {made : Option Slot} {s' : MetalSpace}
    (hmade : (s.firstUse .texture).textureMade.slot poolClass bytes = (made, s')) :
    s.placeTexture kind = (made.elim .nothing .slot, s') := by
  unfold placeTexture
  rewrite [hslot]
  obtain ⟨slotOf, hslotOf⟩ : ∃ f, f = MetalSpace.slot := ⟨_, rfl⟩
  rewrite [← hslotOf] at hmade ⊢
  cases kind with
  | ownMemory heapSize poolClass =>
    dsimp only
    rw [hmade]
  | _ => cases hslot

end MetalSpace

end ReimsVgpu.Gpu
