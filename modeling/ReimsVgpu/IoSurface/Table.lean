import Mathlib.Data.List.Basic
import Mathlib.Logic.Function.Basic

/-!
# The surface slots of the IOSurface host device

A slot for each mapping id, and the commands that act on slots: map, unmap, and the teardown of
every surface. A map reads the guest's descriptor, walks its page table unless the surface is the
host's alone, and asks the platform for a surface.

The guest's memory, its mapping and the platform are a `Host`: what they answer while one command
runs. The mapped bit that a map writes back is the guest's memory, and no part of the state; `mapWriting`
gives it beside the state.

## Main definitions

* `SurfaceSlot`, `QueueState`: what a slot holds, and what the queue works on.
* `map`, `unmap`, `testPattern`, `teardownSurfaces`: the commands.
-/

namespace ReimsVgpu.IoSurface

/-- `MAPPING_ID_COUNT`. -/
abbrev mappingIdCount : ℕ := 8192

/-- `PAGE_SLOTS`. -/
def pageSlots : ℕ := 4096

/-- `HOST_ONLY_LIMIT`. -/
def hostOnlyLimit : UInt64 := 0x40000000

/-- `TABLE_ENTRY_SIZE`. -/
def tableEntrySize : UInt64 := 4

/-- `MAX_PLANES`. -/
def maxPlanes : UInt8 := 7

/-- `MAX_COMPONENTS`. -/
def maxComponents : UInt8 := 4

/-- `CLIENT_DIRECTION_READ_ONLY`. -/
def clientDirectionReadOnly : UInt32 := 2

/-- `IoReturn`. -/
inductive IoReturn where
  | success
  | noMemory
  | badArgument
  | unsupported
  | busy
  deriving DecidableEq, Repr

/-- How a command ends the process. -/
inductive Death where
  | descriptorRead
  | tableRead
  | mappedBitSet
  | mappedBitClear
  | pageIndex
  deriving DecidableEq, Repr

/-- `Form`. -/
inductive Form where
  | first
  | second
  deriving DecidableEq, Repr

/-- `Form::size`. -/
def Form.size : Form → UInt64
  | .first => 0x200
  | .second => 0x400

/-- `IOSurfaceDescriptorPageTableEntry`. -/
structure Entry where
  word : UInt32
  deriving DecidableEq, Repr

namespace Entry

/-- `MAPPED`. -/
def mapped : UInt32 := 2

/-- `valid`. -/
def valid (e : Entry) : Bool := e.word &&& 1 != 0

/-- `is_table`. -/
def isTable (e : Entry) : Bool := e.word &&& 2 != 0

/-- `address`. -/
def address (e : Entry) (pageShift : UInt32) : UInt64 :=
  (e.word >>> 2).toUInt64 <<< pageShift.toUInt64

end Entry

/-- What the checks read of the descriptor of either form: the first form's sizes are 32 bits wide,
and it has no host-only bit. -/
structure Descriptor where
  word0 : UInt32 := 1
  offset : UInt64 := 0
  allocSize : UInt64 := 0
  bits41 : UInt8 := 0
  planeCount : UInt8 := 0
  /-- The component count of each of the seven planes. -/
  componentCounts : Vector UInt8 7 := Vector.replicate 7 0

namespace Descriptor

/-- `read_only`. -/
def readOnly (d : Descriptor) : Bool := d.bits41 &&& 1 != 0

/-- `host_only`. -/
def hostOnly (d : Descriptor) : Bool := d.bits41 &&& 2 != 0

end Descriptor

/-- What the checks read of a descriptor of the first form. -/
structure FirstDescriptor where
  word0 : UInt32 := 1
  offset : UInt32 := 0
  allocSize : UInt32 := 0
  bits27 : UInt8 := 0
  planeCount : UInt8 := 0
  componentCounts : Vector UInt8 7 := Vector.replicate 7 0

/-- `upgrade_descriptor`. -/
def upgradeDescriptor (original : FirstDescriptor) : Descriptor where
  word0 := original.word0
  offset := original.offset.toUInt64
  allocSize := original.allocSize.toUInt64
  bits41 := original.bits27 &&& 1
  planeCount := original.planeCount
  componentCounts := original.componentCounts

/-- `SurfaceSpec`: the properties a descriptor gives, and the two the slot decides. -/
structure SurfaceSpec where
  descriptor : Descriptor
  clientDirection : Option UInt32
  /-- The host addresses of the guest's pages, each of a page's length. -/
  clientAddressRanges : Option (List UInt64)

/-- An IOSurface: what it was made from, and its handle. -/
structure Surface where
  spec : SurfaceSpec
  handle : ℕ

/-- `SurfaceSlot`. -/
structure SurfaceSlot where
  pages : List UInt64 := []
  pageCount : UInt64 := 0
  baseOffset : UInt64 := 0
  surface : Option Surface := none
  readOnly : Bool := false
  hostOnly : Bool := false

/-- `QueueState`. -/
structure QueueState where
  tableLen : UInt64
  descriptorsPerPage : UInt64
  hostOnlyBytes : UInt64 := 0
  table : Option UInt64 := none
  /-- The host address of each cached descriptor page. -/
  pages : Fin pageSlots → Option UInt64 := fun _ => none
  slots : Fin mappingIdCount → SurfaceSlot := fun _ => {}

/-- The host's virtual memory: pages of `2 ^ pageShift` bytes. -/
structure Vm where
  pageShift : UInt32
  pageShift_lt : pageShift.toNat < 64

/-- `page_size`. -/
def Vm.pageSize (vm : Vm) : UInt64 := 1 <<< vm.pageShift.toUInt64

/-- What a command meets: the form, the guest's memory by host address, its mapping, the platform's
surfaces, and whether the device's teardown unmapped a range. -/
structure Host where
  vm : Vm
  form : Form
  readU32 : UInt64 → UInt32
  firstDescriptor : UInt64 → FirstDescriptor
  secondDescriptor : UInt64 → Descriptor
  virtualAddressForPhysical : UInt64 → UInt64 → Option UInt64
  newContiguousMapping : UInt64 → UInt64 → Option UInt64
  create : SurfaceSpec → Option ℕ
  retainCount : Surface → UInt64
  isUnmapped : UInt64 → UInt64 → Bool

variable (host : Host)

/-- `align_up_wrapping`. -/
def alignUpWrapping (x align : UInt64) : UInt64 :=
  let mask := align - 1
  (x + mask) &&& ~~~mask

/-! ### The page walk -/

/-- The host address of the page that the entry `j` of a table names; a bad entry is `bad`. -/
def entryPage (table : UInt64) (bad : IoReturn) (j : UInt64) : Except IoReturn UInt64 :=
  let entry : Entry := ⟨host.readU32 (table + j * tableEntrySize)⟩
  if !entry.valid || entry.isTable then .error bad
  else
    match host.virtualAddressForPhysical (entry.address host.vm.pageShift) host.vm.pageSize with
    | none => .error .noMemory
    | some page => .ok page

/-- The loop over a table's entries from `j` on, which fills the pages from `mapped` on. -/
def walkEntries (table : UInt64) (bad : IoReturn) :
    ℕ → UInt64 → UInt64 → List UInt64 → List UInt64 × Except IoReturn UInt64
  | 0, _, mapped, pages => (pages, .ok mapped)
  | n + 1, j, mapped, pages =>
    match entryPage host table bad j with
    | .error status => (pages, .error status)
    | .ok page =>
      walkEntries table bad n (j + 1) (mapped + 1) (pages.set mapped.toNat page)

/-- The host address of the table that the root's entry `i` names. -/
def rootTable (root i : UInt64) : Except IoReturn UInt64 :=
  let tableEntry : Entry := ⟨host.readU32 (root + i * tableEntrySize)⟩
  if !tableEntry.valid || !tableEntry.isTable then .error .badArgument
  else
    match host.virtualAddressForPhysical (tableEntry.address host.vm.pageShift)
      host.vm.pageSize with
    | none => .error .noMemory
    | some table => .ok table

/-- The loop of `walk_two_levels`, over the root's entries from `i` on. -/
def walkTables (root entriesPerPage : UInt64) :
    ℕ → UInt64 → UInt64 → UInt64 → List UInt64 → List UInt64 × Except IoReturn Unit
  | 0, _, _, _, pages => (pages, .ok ())
  | n + 1, i, remaining, mapped, pages =>
    match rootTable host root i with
    | .error status => (pages, .error status)
    | .ok table =>
      let count := min remaining entriesPerPage
      match walkEntries host table .noMemory count.toNat 0 mapped pages with
      | (pages, .error status) => (pages, .error status)
      | (pages, .ok mapped) =>
        walkTables root entriesPerPage n (i + 1) (remaining - count) mapped pages

/-- `walk_two_levels`. -/
def walkTwoLevels (root tableCount pageCount entriesPerPage : UInt64) (pages : List UInt64) :
    List UInt64 × Except IoReturn Unit :=
  walkTables host root entriesPerPage tableCount.toNat 0 pageCount 0 pages

/-- The loop of `walk` where the root is the only level: the index of an entry is its page's. -/
def walkOneLevel (root pageCount : UInt64) (pages : List UInt64) :
    List UInt64 × Except IoReturn Unit :=
  match walkEntries host root .badArgument pageCount.toNat 0 0 pages with
  | (pages, .error status) => (pages, .error status)
  | (pages, .ok _) => (pages, .ok ())

/-- `walk`: the slot it fills. -/
def walk (descriptor : Descriptor) (pageCount : UInt64) (slot : SurfaceSlot) :
    SurfaceSlot × Except IoReturn Unit :=
  let page := host.vm.pageSize
  match host.virtualAddressForPhysical
    ((⟨descriptor.word0⟩ : Entry).address host.vm.pageShift) page with
  | none => (slot, .error .noMemory)
  | some root =>
    let entriesPerPage := page / tableEntrySize
    if entriesPerPage * entriesPerPage < pageCount then (slot, .error .noMemory)
    else
      -- A quotient by zero is zero.
      let tableCount := (pageCount + entriesPerPage - 1) / entriesPerPage
      if entriesPerPage < tableCount then (slot, .error .noMemory)
      else
        let pages := List.replicate pageCount.toNat 0
        let walked :=
          if 1 < tableCount then
            walkTwoLevels host root tableCount pageCount entriesPerPage pages
          else walkOneLevel host root pageCount pages
        ({ slot with
            pages := walked.1, pageCount, readOnly := descriptor.readOnly, hostOnly := false },
          walked.2)

/-! ### Map -/

/-- Whether `plane_specs` takes the planes: at most four components each. -/
def planeSpecs (descriptor : Descriptor) : Bool :=
  (descriptor.componentCounts.toList.take descriptor.planeCount.toNat).all (· ≤ maxComponents)

/-- `surface_spec`, with the slot's base offset it stores. -/
def surfaceSpec (descriptor : Descriptor) (slot : SurfaceSlot) :
    SurfaceSlot × Option SurfaceSpec :=
  if descriptor.planeCount ≠ 0 ∧ (maxPlanes < descriptor.planeCount ∨ !planeSpecs descriptor) then
    (slot, none)
  else
    ({ slot with baseOffset := descriptor.offset },
      some
        { descriptor
          clientDirection := if slot.readOnly then some clientDirectionReadOnly else none
          clientAddressRanges :=
            if slot.hostOnly then none else some (slot.pages.take slot.pageCount.toNat) })

/-- The pages of a surface; whole pages, wrapping in 64 bits. -/
def pageCountOf (descriptor : Descriptor) : UInt64 :=
  alignUpWrapping descriptor.allocSize host.vm.pageSize >>> host.vm.pageShift.toUInt64

/-- The slot's pages, in `make_surface`: none for a host-only surface, which the budget bounds. -/
def backing (st : QueueState) (descriptor : Descriptor) (slot : SurfaceSlot) :
    SurfaceSlot × Except IoReturn Unit :=
  let pageCount := pageCountOf host descriptor
  if descriptor.hostOnly then
    let slot := { slot with pages := [], pageCount, readOnly := false, hostOnly := true }
    if hostOnlyLimit < st.hostOnlyBytes + pageCount * host.vm.pageSize then (slot, .error .noMemory)
    else (slot, .ok ())
  else walk host descriptor pageCount slot

/-- `make_surface`. -/
def makeSurface (st : QueueState) (descriptor : Descriptor) (slot : SurfaceSlot) :
    SurfaceSlot × IoReturn :=
  if !(⟨descriptor.word0⟩ : Entry).valid then (slot, .badArgument)
  else
    match backing host st descriptor slot with
    | (slot, .error status) => (slot, status)
    | (slot, .ok ()) =>
      match surfaceSpec descriptor slot with
      | (slot, none) => (slot, .noMemory)
      | (slot, some spec) =>
        match host.create spec with
        | none => ({ slot with surface := none }, .badArgument)
        | some handle => ({ slot with surface := some ⟨spec, handle⟩ }, .success)

/-- `mapped_access`: whether an access dies. -/
def mappedAccess (at_ length : UInt64) (kind : Death) : Except Death Unit :=
  if host.isUnmapped at_ length then .error kind else .ok ()

/-- `descriptor_page`: cached, or read from the descriptor table and mapped. -/
def descriptorPage (st : QueueState) (pageIndex : UInt64) :
    Except Death (QueueState × Except IoReturn UInt64) :=
  if h : pageIndex.toNat < pageSlots then
    match st.pages ⟨pageIndex.toNat, h⟩ with
    | some page => .ok (st, .ok page)
    | none =>
      let at_ := st.table.getD 0 + pageIndex * tableEntrySize
      match mappedAccess host at_ tableEntrySize .tableRead with
      | .error death => .error death
      | .ok () =>
        let entry : Entry := ⟨host.readU32 at_⟩
        if !entry.valid then .ok (st, .error .noMemory)
        else
          match host.newContiguousMapping (entry.address host.vm.pageShift) host.vm.pageSize with
          | none => .ok (st, .error .noMemory)
          | some page =>
            .ok ({ st with pages := Function.update st.pages ⟨pageIndex.toNat, h⟩ (some page) },
              .ok page)
  else .error .pageIndex

/-- The descriptor at an address, upgraded from the first form. -/
def readDescriptor (at_ : UInt64) : Except Death Descriptor :=
  match mappedAccess host at_ host.form.size .descriptorRead with
  | .error death => .error death
  | .ok () =>
    match host.form with
    | .second => .ok (host.secondDescriptor at_)
    | .first => .ok (upgradeDescriptor (host.firstDescriptor at_))

/-- A slot's mapping id, if it has one. -/
def slotOf (mappingId : UInt32) : Option (Fin mappingIdCount) :=
  if h : mappingId.toNat < mappingIdCount then
    if mappingId = 0 then none else some ⟨mappingId.toNat, h⟩
  else none

/-- The slot a map leaves of a surface made or not, and the budget with it. -/
def storeSlot (st : QueueState) (index : Fin mappingIdCount) (slot : SurfaceSlot)
    (status : IoReturn) : QueueState :=
  if status = .success then
    { st with
      hostOnlyBytes :=
        if slot.hostOnly then st.hostOnlyBytes + slot.pageCount * host.vm.pageSize
        else st.hostOnlyBytes
      slots := Function.update st.slots index slot }
  else { st with slots := Function.update st.slots index { slot with pages := [] } }

/-- `map`, and the words that it writes of the guest's memory, with their host addresses. -/
def mapWriting (st : QueueState) (mappingId : UInt32) :
    Except Death ((QueueState × IoReturn) × List (UInt64 × UInt32)) :=
  match slotOf mappingId with
  | none => .ok ((st, .badArgument), [])
  | some index =>
    if (st.slots index).surface.isSome then .ok ((st, .success), [])
    else
      let st := { st with slots := Function.update st.slots index {} }
      let id := mappingId.toUInt64
      let pageIndex := id / st.descriptorsPerPage
      let within := id % st.descriptorsPerPage
      if st.tableLen ≤ pageIndex then .ok ((st, .badArgument), [])
      else
        match descriptorPage host st pageIndex with
        | .error death => .error death
        | .ok (st, .error status) => .ok ((st, status), [])
        | .ok (st, .ok page) =>
          let at_ := page + within * host.form.size
          match readDescriptor host at_ with
          | .error death => .error death
          | .ok descriptor =>
            let (slot, status) := makeSurface host st descriptor {}
            let st := storeSlot host st index slot status
            if status = .success then
              match mappedAccess host at_ 4 .mappedBitSet with
              | .error death => .error death
              | .ok () => .ok ((st, status), [(at_, host.readU32 at_ ||| Entry.mapped)])
            else .ok ((st, status), [])

/-- `map`. -/
def map (st : QueueState) (mappingId : UInt32) : Except Death (QueueState × IoReturn) :=
  (mapWriting host st mappingId).map Prod.fst

/-! ### Unmap, test and teardown -/

/-- What unmapping and the teardown leave of a slot that holds a surface. -/
def SurfaceSlot.release (slot : SurfaceSlot) : SurfaceSlot :=
  { slot with surface := none, pages := [] }

/-- The budget less a slot's surface. -/
def giveBack (bytes : UInt64) (slot : SurfaceSlot) : UInt64 :=
  if slot.hostOnly then bytes - slot.pageCount * host.vm.pageSize else bytes

/-- `unmap`. -/
def unmap (st : QueueState) (mappingId : UInt32) : Except Death (QueueState × IoReturn) :=
  match slotOf mappingId with
  | none => .ok (st, .badArgument)
  | some index =>
    match (st.slots index).surface with
    | none => .ok (st, .success)
    | some surface =>
      if host.retainCount surface ≠ 1 then .ok (st, .busy)
      else
        let id := mappingId.toUInt64
        let pageIndex := id / st.descriptorsPerPage
        if st.tableLen ≤ pageIndex then .ok (st, .badArgument)
        else if h : pageIndex.toNat < pageSlots then
          match st.pages ⟨pageIndex.toNat, h⟩ with
          | none => .ok (st, .badArgument)
          | some page =>
            let within := id % st.descriptorsPerPage
            match mappedAccess host (page + within * host.form.size) 4 .mappedBitClear with
            | .error death => .error death
            | .ok () =>
              .ok
                ({ st with
                    hostOnlyBytes := giveBack host st.hostOnlyBytes (st.slots index)
                    slots := Function.update st.slots index (st.slots index).release },
                  .success)
        else .error .pageIndex

/-- `test_pattern`: its answer; what it writes is the surface's memory. -/
def testPattern (st : QueueState) (mappingId : UInt32) : IoReturn :=
  match slotOf mappingId with
  | none => .badArgument
  | some index => if (st.slots index).surface.isSome then .success else .badArgument

/-- What the loop of the teardown gives back of the slots it visits. -/
def giveBackAll (bytes : UInt64) (slots : List SurfaceSlot) : UInt64 :=
  slots.foldl (fun bytes slot => if slot.surface.isSome then giveBack host bytes slot else bytes)
    bytes

/-- `teardown_surfaces`. -/
def teardownSurfaces (st : QueueState) : QueueState :=
  { st with
    hostOnlyBytes := giveBackAll host st.hostOnlyBytes ((List.finRange mappingIdCount).map st.slots)
    slots := fun i => if (st.slots i).surface.isSome then (st.slots i).release else st.slots i }

/-- `set_descriptor_base`. -/
def setDescriptorBase (st : QueueState) (base : UInt64) : QueueState :=
  { teardownSurfaces host st with
    pages := fun i => if i.val < st.tableLen.toNat then none else st.pages i
    table := if base = 0 then none else host.newContiguousMapping base host.vm.pageSize }

/-- `set_descriptor_enable`, to a form. -/
def setDescriptorEnable (st : QueueState) (form : Form) : QueueState :=
  { setDescriptorBase host st 0 with descriptorsPerPage := host.vm.pageSize / form.size }

/-- What acts on the slots: the ring's commands, and the registers' writes that tear them down. -/
inductive Command where
  | map (mappingId : UInt32)
  | unmap (mappingId : UInt32)
  | test (mappingId : UInt32)
  | teardown
  | descriptorBase (base : UInt64)
  | descriptorEnable (form : Form)
  deriving DecidableEq, Repr

/-- A command on what it meets. -/
def Command.run (st : QueueState) : Command → Except Death (QueueState × IoReturn)
  | .map mappingId => IoSurface.map host st mappingId
  | .unmap mappingId => IoSurface.unmap host st mappingId
  | .test mappingId => .ok (st, testPattern st mappingId)
  | .teardown => .ok (teardownSurfaces host st, .success)
  | .descriptorBase base => .ok (setDescriptorBase host st base, .success)
  | .descriptorEnable form => .ok (setDescriptorEnable host st form, .success)

end ReimsVgpu.IoSurface
