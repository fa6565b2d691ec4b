import ReimsVgpu.Memory.Cursor
import ReimsVgpu.Memory.Map

/-!
# Copies of task memory, and cursors over it

Three functions read a range of a task through its page table. `LocalTask::copy` and
`GpuTask::copy_from_virtual_offset` copy it page by page into a buffer, the first through the device
and the second through the task's memory map; `GpuTask::cursor` gathers the host ranges behind it. A
page that does not read is skipped without a raise, and the next page's bytes go where its own would
have.

The tables are read from guest memory that does not change, as in `PageTable`. What a host's read
block leaves in the buffer when it answers no is not kept.

## Main definitions

* `MemoryMap.read`, `DeviceMemory.readFromPhysicalAddress`.
* `LocalTask.copy`, `GpuTask.copyFromVirtualOffset`, `GpuTask.cursor`.
-/

namespace ReimsVgpu.Memory

variable (a : Arch)

/-- What ends a visit: the device's raise, and the deaths. -/
inductive VisitFault where
  | readPastPage
  | mapReadFault
  | physicalReadCopy
  | copyChunk
  | cursorLength
  deriving DecidableEq, Repr

/-- `GuestPtr::copy_to`: the bytes at the address. -/
def copyOut (host : HostMemory) (address : UInt64) (n : ℕ) (death : VisitFault) :
    Except VisitFault (List UInt8) :=
  if n ≠ 0 ∧ ¬ Accessible address (UInt64.ofNat n) then .error death
  else .ok ((span address n).map host)

/-- `MemoryMap::read`; none for false. -/
def MemoryMap.read (m : MemoryMap) (host : HostMemory) (physical : UInt64) (n : ℕ) :
    Except VisitFault (Option (List UInt8)) :=
  let source := m.virtualAddressForPhysical physical (UInt64.ofNat n)
  if source = 0 then .ok none else (copyOut host source n .mapReadFault).map some

/-- What a device reads guest memory through: its memory map, the host's read block, or mappings of
single pages in the root task. -/
structure DeviceMemory where
  memoryMap : Option MemoryMap
  readMemory : Option (UInt64 → UInt64 → Option (List UInt8))
  newContiguousMapping : UInt32 → Option UInt64

/-- `read_from_physical_address`, of a buffer's bytes. -/
def DeviceMemory.readFromPhysicalAddress (d : DeviceMemory) (host : HostMemory) (address : UInt64)
    (n : ℕ) : Except VisitFault (Option (List UInt8)) :=
  let length := (UInt32.ofNat n).toUInt64
  if length > pageSize a ∨ (address &&& pageMask a) + length > pageSize a then .error .readPastPage
  else
    match d.memoryMap, d.readMemory with
    | some m, _ => m.read host address n
    | none, some read => .ok (read address length)
    | none, none =>
      match d.newContiguousMapping (address >>> UInt64.ofNat (pageShift a)).toUInt32 with
      | none => .ok none
      | some base => (copyOut host (base + (address &&& pageMask a)) n .physicalReadCopy).map some

/-- What the functions read of a task. -/
structure PagedTask where
  taskLength : UInt64
  hasRoot : Bool
  walker : Option PageTableWalker

/-- Without a walker nothing is visited. -/
def PagedTask.visitPagesInRange {σ ε : Type*} (t : PagedTask) (mem : GuestMemory)
    (visit : Visitor σ ε) (fuel : ℕ) (start length : UInt64) (s : σ) : σ × WalkEnd ε :=
  match t.walker with
  | none => (s, .ok)
  | some walker => walker.visitPagesInRange a mem visit fuel start length s

/-- The first page's address. -/
def walkStart (offset : UInt64) : UInt64 := offset &&& ~~~pageMask a

/-- The length of the pages from an offset to an end. -/
def walkSize (offset stop : UInt64) : UInt64 :=
  ((stop + pageMask a) &&& ~~~pageMask a) - walkStart a offset

/-! ### Copies -/

/-- The variables of a copy: the buffer, the place in it, and what is left. -/
structure Copying where
  dst : List UInt8
  current : UInt64
  remaining : UInt64
  deriving DecidableEq, Repr

/-- How a copy ends: it refuses the range, or its walk ends. -/
inductive CopyEnd where
  | outOfRange
  | walked (e : WalkEnd VisitFault)
  deriving DecidableEq, Repr

/-- The bytes stored in the buffer from an index on. -/
def overwrite (dst : List UInt8) (i : ℕ) (bytes : List UInt8) : List UInt8 :=
  dst.take i ++ (bytes ++ dst.drop (i + bytes.length))

/-- Where a visit's page is read: its address, from the offset on in the first page, and how much. -/
def chunkOf (start pageOffset remaining : UInt64) (v : Visit) : UInt64 × UInt64 :=
  let physical := pageAddress a v.page
  let pageEnd := physical + pageSize a
  let physical := if v.address = start then physical + pageOffset else physical
  (physical, min (pageEnd - physical) remaining)

/-- The bytes of a page that was read are stored and the position goes on; it stays where the page did
not read. -/
def Copying.advance (s : Copying) (length : UInt64) :
    Except VisitFault (Option (List UInt8)) → Copying × Option VisitFault
  | .error e => (s, some e)
  | .ok none => (s, none)
  | .ok (some bytes) =>
    ({ dst := overwrite s.dst s.current.toNat bytes
       current := s.current + length
       remaining := s.remaining - length }, none)

/-- A visit of `LocalTask::copy_pages`; a part outside the buffer is no bytes. -/
def LocalTask.copyVisit (device : Option DeviceMemory) (host : HostMemory)
    (start pageOffset : UInt64) : Visitor Copying VisitFault := fun s v =>
  let (physical, currentLength) := chunkOf a start pageOffset s.remaining v
  let stop := (s.current + currentLength).toNat
  let into := if s.current.toNat ≤ stop ∧ stop ≤ s.dst.length then stop - s.current.toNat else 0
  s.advance currentLength <|
    match device with
    | some d => d.readFromPhysicalAddress a host physical into
    | none => .ok none

/-- `LocalTask::copy`. -/
def LocalTask.copy (t : PagedTask) (device : Option DeviceMemory) (mem : GuestMemory)
    (host : HostMemory) (fuel : ℕ) (offset : UInt64) (dst : List UInt8) : List UInt8 × CopyEnd :=
  let length := UInt64.ofNat dst.length
  let stop := offset + length
  if Overflows offset length ∨ stop ≥ t.taskLength then (dst, .outOfRange)
  else
    let start := walkStart a offset
    let (s, e) := t.visitPagesInRange a mem
      (LocalTask.copyVisit a device host start (offset &&& pageMask a)) fuel start
      (walkSize a offset stop) ⟨dst, 0, length⟩
    (s.dst, .walked e)

/-- A visit of `GpuTask::copy_from_virtual_offset`. -/
def GpuTask.copyVisit (map : Option MemoryMap) (host : HostMemory)
    (length start pageOffset : UInt64) : Visitor Copying VisitFault := fun s v =>
  let (physical, chunkLength) := chunkOf a start pageOffset s.remaining v
  let stop := (s.current + chunkLength).toNat
  if chunkLength > length then (s, some .copyChunk)
  else if ¬ (s.current.toNat ≤ stop ∧ stop ≤ s.dst.length) then (s, some .copyChunk)
  else
    s.advance chunkLength <|
      match map with
      | some m => m.read host physical (stop - s.current.toNat)
      | none => .ok none

/-- `GpuTask::copy_from_virtual_offset`. -/
def GpuTask.copyFromVirtualOffset (t : PagedTask) (map : Option MemoryMap) (mem : GuestMemory)
    (host : HostMemory) (fuel : ℕ) (offset : UInt64) (dst : List UInt8) : List UInt8 × CopyEnd :=
  let length := UInt64.ofNat dst.length
  let stop := offset + length
  if Overflows offset length ∨ stop ≥ t.taskLength then (dst, .outOfRange)
  else
    let start := walkStart a offset
    let (s, e) := t.visitPagesInRange a mem
      (GpuTask.copyVisit a map host length start (offset &&& pageMask a)) fuel start
      (walkSize a offset stop) ⟨dst, 0, length⟩
    (s.dst, .walked e)

/-! ### Cursors -/

/-- The variables of a cursor's walk. -/
structure Gathering where
  ranges : List CursorRange := []
  range : CursorRange := {}
  pageOffset : UInt64
  lengthRemaining : UInt64
  lastAddress : UInt64 := 0xffffffffffffffff
  allWritable : Bool := true
  deriving DecidableEq, Repr

/-- The ranges with the one the walk is in, if it has a byte. -/
def Gathering.pushed (g : Gathering) : List CursorRange :=
  if g.range.length ≠ 0 then g.ranges ++ [g.range] else g.ranges

/-- A visit of `GpuTask::cursor`: the page extends the range where it lies one page after the last
one, else it starts a new one. -/
def GpuTask.cursorVisit (map : Option MemoryMap) : Visitor Gathering VisitFault := fun g v =>
  if g.lengthRemaining = 0 then (g, some .cursorLength)
  else
    let physical := pageAddress a v.page
    let host :=
      match map with
      | some m => m.virtualAddressForPhysical physical (pageSize a)
      | none => 0
    let lengthInPage := min (pageSize a - g.pageOffset) g.lengthRemaining
    let g' : Gathering :=
      if g.lastAddress + pageSize a = host then
        { g with range := { g.range with length := g.range.length + lengthInPage } }
      else
        { g with
          ranges := g.pushed
          range := { address := host + g.pageOffset, length := lengthInPage } }
    if g.lengthRemaining < lengthInPage then (g', some .cursorLength)
    else
      ({ g' with
         pageOffset := 0
         lengthRemaining := g.lengthRemaining - lengthInPage
         lastAddress := host
         allWritable := if v.writable = 0 then false else g.allWritable }, none)

/-- `GpuTask::cursor`: a raise of the walk is no cursor. -/
def GpuTask.cursor (t : PagedTask) (map : Option MemoryMap) (mem : GuestMemory) (fuel : ℕ)
    (offset length : UInt64) (writable : Bool) : Except (WalkEnd VisitFault) (Option Cursor) :=
  let stop := offset + length
  if ¬ t.hasRoot then .ok none
  else if Overflows offset length ∨ stop > t.taskLength then .ok none
  else if length = 0 then .ok none
  else
    let walked := t.visitPagesInRange a mem (GpuTask.cursorVisit a map) fuel (walkStart a offset)
      (walkSize a offset stop)
      { pageOffset := offset &&& pageMask a, lengthRemaining := length }
    match walked with
    | (g, .ok) =>
      if writable && !g.allWritable then .ok none else .ok (some (Cursor.withRanges g.pushed))
    | (_, .raised _) => .ok none
    | (_, e) => .error e

end ReimsVgpu.Memory
