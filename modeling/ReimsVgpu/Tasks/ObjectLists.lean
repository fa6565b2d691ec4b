import ReimsVgpu.Memory.PageTable
import ReimsVgpu.Memory.Cursor
import ReimsVgpu.Library.Execution

/-!
# The object lists of a task

A task has a list of objects and, with argument buffers, a list of placements, one of each for every
reference. The guest sets where the lists are in the task; they are mapped in the host later, and
looked up at a reference that is compared with the object list's count only.

What the lists are mapped to is kept with the address: the bytes the task was asked to map there.

## Main definitions

* `Lists`: the lists' state.
* `ObjectLists.setObjectList`, `ObjectLists.mapObjectList`, `ObjectLists.mapPlacementList`,
  `ObjectLists.getObjectEntry`, `ObjectLists.getPlacementListEntry`.
* `ListAction`, `ObjectLists.step`: the calls, in any order.
* `Covers`: a call does not set a placement list at offset 0 that is too short.

## Main results

* `ObjectLists.entries_inside`: in a run whose calls that set lists do not set a short placement list
  at offset 0, entries lie in the mapped lists.
-/

namespace ReimsVgpu.Tasks

open Memory

/-- A host address, and the bytes of the task mapped there. -/
structure Region where
  address : UInt64 := 0
  offset : UInt64 := 0
  length : UInt64 := 0
  deriving DecidableEq, Repr

/-- `is_null`. -/
def Region.isNull (r : Region) : Bool := r.address == 0

/-- What the lists ask of their task: a mapping of its bytes, whose address is answered (a raise is
swallowed as none); and a lazily mapped address, none for a raise. -/
structure ResourceHost where
  newVirtualMapping : (offset length : UInt64) → (writable : Bool) → Option UInt64
  mappedAddressForOffset : (offset length : UInt64) → Option UInt64

/-- The two kinds of object lists. -/
inductive ObjectListKind where
  | legacy (objectListMapped : Bool)
  | memoryMap
  deriving DecidableEq, Repr

/-- One list: where it is in the task, and where it is mapped in the host. -/
structure TaskList where
  mapping : Option Region := none
  address : Region := {}
  offset : UInt64 := 0
  length : UInt32 := 0
  mappedLength : UInt64 := 0
  deriving DecidableEq, Repr

/-- `List::unmap`. -/
def TaskList.unmap (l : TaskList) : TaskList := { l with mapping := none, address := {} }

/-- `List::adopt`: a mapping that is none leaves the address as it was. Whether there was one. -/
def TaskList.adopt (l : TaskList) (mapping : Option Region) : TaskList × Bool :=
  match mapping with
  | some r => ({ l with mapping, address := r }, true)
  | none => ({ l with mapping }, false)

/-- The lists' state. -/
structure Lists where
  objects : TaskList := {}
  objectCount : UInt32 := 0
  placements : TaskList := {}
  kind : ObjectListKind
  deriving DecidableEq, Repr

namespace Lists

/-- `is_legacy`. -/
def isLegacy (s : Lists) : Bool :=
  match s.kind with
  | .legacy _ => true
  | .memoryMap => false

/-- `object_list_mapped`. -/
def objectListMapped (s : Lists) : Bool :=
  match s.kind with
  | .legacy objectListMapped => objectListMapped
  | .memoryMap => !s.objects.address.isNull

/-- `placement_list_mapped`. -/
def placementListMapped (s : Lists) : Bool :=
  match s.kind with
  | .legacy _ => false
  | .memoryMap => !s.placements.address.isNull

/-- `unmap_object_list`. -/
def unmapObjectList (s : Lists) : Lists :=
  match s.kind with
  | .legacy _ => { s with kind := .legacy false }
  | .memoryMap => { s with objects := s.objects.unmap }

end Lists

/-- The task root's list fields. -/
structure TaskRoot where
  objectListOffset : UInt64
  objectListLength : UInt32
  placementListOffset : UInt64
  placementListLength : UInt32
  deriving DecidableEq, Repr

/-- `OBJECT_ENTRY_SIZE`. -/
def objectEntrySize : UInt32 := 12

/-- `OBJECT_PLACEMENT_SIZE`. -/
def objectPlacementSize : UInt64 := 16

/-- A lookup's error. -/
inductive ListError where
  | outOfRange (index count : UInt32)
  | objectListNotMapped
  | placementListNotMapped
  deriving DecidableEq, Repr

/-- A load of `bytes` bytes. -/
structure Load where
  address : UInt64
  bytes : ℕ
  deriving DecidableEq, Repr

/-- An object-list entry. -/
structure ObjectEntry where
  typeAndLength : UInt32
  offset : UInt64
  deriving DecidableEq, Repr

/-- A little-endian word of `bytes` bytes. -/
def word (memory : HostMemory) (address : UInt64) (bytes : ℕ) : UInt64 :=
  (List.range bytes).foldl
    (fun w i => w ||| (memory (address + UInt64.ofNat i)).toUInt64 <<< UInt64.ofNat (8 * i)) 0

/-- `load_object_entry`, with its loads: the offset's high word, then the first word with the offset's
low word. -/
def loadObjectEntry (memory : HostMemory) (entry : UInt64) : ObjectEntry × List Load :=
  let high := word memory (entry + 8) 4
  let low := word memory entry 8
  ({ typeAndLength := low.toUInt32, offset := high <<< 32 ||| low >>> 32 },
    [⟨entry + 8, 4⟩, ⟨entry, 8⟩])

/-- The lists a call sets. -/
structure SetLists where
  objectListOffset : UInt64
  objectListLength : UInt32
  placementListOffset : UInt64
  placementListLength : UInt32
  deriving DecidableEq, Repr

/-- The object list's entries: whole ones only. -/
def SetLists.count (c : SetLists) : UInt32 := c.objectListLength / objectEntrySize

/-- What does not change of a task's object lists. -/
structure ObjectLists where
  arch : Arch
  taskLength : UInt64
  supportsArgumentBuffers : Bool

/-- What setting the lists leaves: whether they were taken, the lists, the task root, and the bytes
of the old placement list copied to the new one. -/
structure SetOutcome where
  taken : Bool
  lists : Lists
  root : TaskRoot
  copied : Option UInt64 := none

namespace ObjectLists

variable (o : ObjectLists)

/-- `mapped_length`: the end rounded up to a page, less the offset. -/
def mappedLength (stop offset : UInt64) : UInt64 :=
  ((stop + pageMask o.arch) &&& ~~~pageMask o.arch) - offset

/-- `new_mapping`: the legacy kind never has one. -/
def newMapping (task : ResourceHost) (legacy : Bool) (offset length : UInt64) (writable : Bool) :
    Option Region :=
  if legacy then none
  else (task.newVirtualMapping offset length writable).map fun address => { address, offset, length }

/-- `get_object_entry`, with its loads. -/
def getObjectEntry (memory : HostMemory) (s : Lists) (index : UInt32) :
    Except ListError (ObjectEntry × List Load) :=
  if s.objectListMapped then
    if index ≥ s.objectCount then .error (.outOfRange index s.objectCount)
    else
      .ok (loadObjectEntry memory
        (s.objects.address.address + index.toUInt64 * objectEntrySize.toUInt64))
  else .error .objectListNotMapped

/-- `get_placement_list_entry`: where the entry is. -/
def getPlacementListEntry (s : Lists) (index : UInt32) : Except ListError (Option UInt64) :=
  if s.placementListMapped then
    if index ≥ s.objectCount then .error (.outOfRange index s.objectCount)
    else .ok (some (s.placements.address.address + index.toUInt64 * objectPlacementSize))
  else if o.supportsArgumentBuffers ∧ s.placements.length ≠ 0 then .error .placementListNotMapped
  else .ok none

/-- The test that refuses the lists. The alignment test is on the offsets of the lists before. -/
def refuses (s : Lists) (c : SetLists) : Prop :=
  Overflows c.objectListOffset c.objectListLength.toUInt64 ∨
  Overflows c.placementListOffset c.placementListLength.toUInt64 ∨
  c.objectListOffset + c.objectListLength.toUInt64 ≥ o.taskLength ∨
  c.placementListOffset + c.placementListLength.toUInt64 ≥ o.taskLength ∨
  s.objects.offset &&& pageMask o.arch ≠ 0 ∨
  s.placements.offset &&& pageMask o.arch ≠ 0 ∨
  (c.placementListOffset ≠ 0 ∧
    c.count.toUInt64 * objectPlacementSize > c.placementListLength.toUInt64)

instance (s : Lists) (c : SetLists) : Decidable (o.refuses s c) :=
  inferInstanceAs (Decidable (_ ∨ _ ∨ _ ∨ _ ∨ _ ∨ _ ∨ _ ∧ _))

/-- The lists and the task root refused. -/
def refuse (s : Lists) (root : TaskRoot) : SetOutcome where
  taken := false
  lists :=
    { s with
      objects := { s.objects with offset := 0, length := 0 }
      objectCount := 0
      placements := TaskList.unmap { s.placements with offset := 0, length := 0 } }
  root :=
    if o.supportsArgumentBuffers then ⟨0, 0, 0, 0⟩
    else { root with objectListOffset := 0, objectListLength := 0 }

/-- The new placement list mapped, and the old one copied to it; `s` holds the new lists, and the old
placement list is `old`. -/
def movePlacements (task : ResourceHost) (s : Lists) (old : TaskList) (root : TaskRoot) :
    SetOutcome :=
  let s := { s with placements := s.placements.unmap }
  let oldMapping :=
    if old.mapping = none ∧ old.offset ≠ 0 ∧ old.length ≠ 0 then
      newMapping task s.isLegacy old.offset old.mappedLength false
    else none
  let oldAddress :=
    match oldMapping with
    | some m => m
    | none => old.address
  let placements :=
    if s.placements.offset ≠ 0 ∧ s.placements.length ≠ 0 then
      (s.placements.adopt
        (newMapping task s.isLegacy s.placements.offset s.placements.mappedLength true)).1
    else s.placements
  let s := { s with placements }
  let newAddress := s.placements.address
  if (old.length ≠ 0 ∧ oldAddress.isNull) ∨
      (s.placements.length ≠ 0 ∧ old.length ≠ 0 ∧ newAddress.isNull) then
    { taken := false, lists := s, root := ⟨0, 0, 0, 0⟩ }
  else
    { taken := true
      lists := s
      root
      copied :=
        if !oldAddress.isNull && !newAddress.isNull then
          some (min old.length.toUInt64 s.placements.length.toUInt64)
        else none }

/-- `set_object_list`. The object list is unmapped first, and the root takes the new fields before the
test; a NULL root dies there, which is none. -/
def setObjectList (task : ResourceHost) (s : Lists) (c : SetLists) (root : Option TaskRoot) :
    Option SetOutcome := do
  let old := s.placements
  let s := s.unmapObjectList
  let s := { s with objectCount := c.count }
  let root ← root
  let root :=
    { root with
      objectListOffset := c.objectListOffset
      objectListLength := c.objectListLength }
  let root :=
    if o.supportsArgumentBuffers then
      { root with
        placementListOffset := c.placementListOffset
        placementListLength := c.placementListLength }
    else root
  if o.refuses s c then some (o.refuse s root)
  else
    let s :=
      { s with
        objects :=
          { s.objects with
            offset := c.objectListOffset
            length := c.objectListLength
            mappedLength := o.mappedLength
              (c.objectListOffset + c.objectListLength.toUInt64) c.objectListOffset } }
    if !o.supportsArgumentBuffers then some { taken := true, lists := s, root }
    else
      let s :=
        { s with
          placements :=
            { s.placements with
              offset := c.placementListOffset
              length := c.placementListLength
              mappedLength := o.mappedLength
                (c.placementListOffset + c.placementListLength.toUInt64) c.placementListOffset } }
      some (movePlacements task s old root)

/-- `map_object_list`, and whether it is mapped. -/
def mapObjectList (task : ResourceHost) (s : Lists) : Lists × Bool :=
  match s.kind with
  | .legacy objectListMapped =>
    let length := s.objects.length.toUInt64
    match task.mappedAddressForOffset s.objects.offset length with
    | none => ({ s with kind := .legacy false }, false)
    | some address =>
      if address = 0 then (s, objectListMapped)
      else
        ({ s with
            objects := { s.objects with address := { address, offset := s.objects.offset, length } }
            kind := .legacy true }, true)
  | .memoryMap =>
    if !s.objects.address.isNull then (s, true)
    else
      let (objects, mapped) := s.objects.adopt
        (newMapping task false s.objects.offset s.objects.mappedLength false)
      ({ s with objects }, mapped)

/-- `map_placement_list`, and whether it is mapped. -/
def mapPlacementList (task : ResourceHost) (s : Lists) : Lists × Bool :=
  if s.isLegacy then (s, s.placements.length == 0)
  else if !s.placements.address.isNull ∨ s.placements.length = 0 then (s, true)
  else
    let (placements, mapped) := s.placements.adopt
      (newMapping task false s.placements.offset s.placements.mappedLength true)
    ({ s with placements }, mapped)

/-- `ensure_object_list_mapped`. -/
def ensureObjectListMapped (task : ResourceHost) (s : Lists) : Lists × Bool :=
  if s.objectListMapped then (s, true) else mapObjectList task s

/-- `ensure_placement_list_mapped`. -/
def ensurePlacementListMapped (task : ResourceHost) (s : Lists) : Lists × Bool :=
  if s.placementListMapped then (s, true) else mapPlacementList task s

/-- `ensure_mapped`: the placement list only once the object list is. -/
def ensureMapped (task : ResourceHost) (s : Lists) : Lists × Bool :=
  match ensureObjectListMapped task s with
  | (s, false) => (s, false)
  | (s, true) => ensurePlacementListMapped task s

/-- `unmap_placement_list`. -/
def unmapPlacementList (s : Lists) : Lists :=
  if s.isLegacy then s else { s with placements := s.placements.unmap }

/-! ### Runs -/

/-- A call on the lists, with what its task answers. -/
inductive ListAction where
  | setObjectList (task : ResourceHost) (c : SetLists) (root : Option TaskRoot)
  | mapObjectList (task : ResourceHost)
  | mapPlacementList (task : ResourceHost)
  | ensureObjectListMapped (task : ResourceHost)
  | ensurePlacementListMapped (task : ResourceHost)
  | ensureMapped (task : ResourceHost)
  | unmapObjectList
  | unmapPlacementList
  | getObjectEntry (index : UInt32)
  | getPlacementListEntry (index : UInt32)

/-- The lists after a call; lookups change nothing, and none is a death. -/
def step (s : Lists) : ListAction → Option Lists
  | .setObjectList task c root => (o.setObjectList task s c root).map SetOutcome.lists
  | .mapObjectList task => some (mapObjectList task s).1
  | .mapPlacementList task => some (mapPlacementList task s).1
  | .ensureObjectListMapped task => some (ensureObjectListMapped task s).1
  | .ensurePlacementListMapped task => some (ensurePlacementListMapped task s).1
  | .ensureMapped task => some (ensureMapped task s).1
  | .unmapObjectList => some s.unmapObjectList
  | .unmapPlacementList => some (unmapPlacementList s)
  | .getObjectEntry _ => some s
  | .getPlacementListEntry _ => some s

/-- A call that sets the lists and is not refused does not set a placement list at offset 0 whose
pages are too short for the objects. -/
def Covers (s : Lists) : ListAction → Prop
  | .setObjectList _ c _ =>
    o.refuses s c ∨ c.placementListOffset ≠ 0 ∨ c.placementListLength = 0 ∨
      c.count.toNat * 16 ≤ (o.mappedLength c.placementListLength.toUInt64 0).toNat
  | _ => True

/-- The lists with nothing set, unmapped. -/
def new (legacy : Bool) : Lists where
  kind := if legacy then .legacy false else .memoryMap

/-! ### The invariant -/

/-- The lists' entries fit in what is mapped, or will be. -/
structure Fits (s : Lists) : Prop where
  objects : s.objectCount.toNat * 12 ≤ s.objects.length.toNat
  objectsMapped : s.objects.length.toNat ≤ s.objects.mappedLength.toNat
  objectsRegion : s.objectListMapped = true → s.objects.address.offset = s.objects.offset ∧
    s.objectCount.toNat * 12 ≤ s.objects.address.length.toNat
  placements : s.placements.length ≠ 0 →
    s.objectCount.toNat * 16 ≤ s.placements.mappedLength.toNat
  placementsRegion : s.placementListMapped = true →
    s.placements.address.offset = s.placements.offset ∧
    s.objectCount.toNat * 16 ≤ s.placements.address.length.toNat

theorem fits_new (legacy : Bool) : Fits (new legacy) := by
  cases legacy with
  | false =>
    exact ⟨le_rfl, le_rfl, fun h => absurd h (by decide), fun h => absurd rfl h,
      fun h => absurd h (by decide)⟩
  | true =>
    exact ⟨le_rfl, le_rfl, fun h => absurd h (by decide), fun h => absurd rfl h,
      fun h => absurd h (by decide)⟩

theorem toNat_pageMask (a : Arch) : (pageMask a).toNat = 2 ^ pageShift a - 1 := by
  cases a <;> rfl

/-- What is mapped of a list is no shorter than the list. -/
theorem le_mappedLength {offset : UInt64} {length : UInt32}
    (h : ¬ Overflows offset length.toUInt64) :
    length.toNat ≤ (o.mappedLength (offset + length.toUInt64) offset).toNat := by
  have hlength : length.toUInt64.toNat = length.toNat := UInt32.toNat_toUInt64 length
  have hlt := length.toNat_lt
  have hmask := toNat_pageMask o.arch
  have hshift : 1 ≤ 2 ^ pageShift o.arch ∧ 2 ^ pageShift o.arch ≤ 2 ^ 14 := by
    cases o.arch <;> decide
  rw [Overflows, hlength, Nat.not_le] at h
  have hstop : (offset + length.toUInt64).toNat = offset.toNat + length.toNat := by
    rw [UInt64.toNat_add_of_toNat_lt (by rw [hlength]; exact h), hlength]
  rw [mappedLength, UInt64.toNat_sub, UInt64.toNat_and_not_mask hmask, UInt64.toNat_add, hstop,
    hmask]
  generalize hm : 2 ^ pageShift o.arch = m at *
  -- rounding up past the top of the address space gives 0, and then the offset wraps back
  by_cases hwrap : offset.toNat + length.toNat + (m - 1) < 2 ^ 64
  · rw [Nat.mod_eq_of_lt hwrap]
    have hmod := Nat.mod_lt (offset.toNat + length.toNat + (m - 1)) (show 0 < m by omega)
    generalize (offset.toNat + length.toNat + (m - 1)) % m = r at *
    omega
  · have hsmall : (offset.toNat + length.toNat + (m - 1)) % 2 ^ 64 =
        offset.toNat + length.toNat + (m - 1) - 2 ^ 64 := by omega
    rw [hsmall, Nat.mod_eq_of_lt (b := m) (by omega)]
    omega

/-- Whether the object list is mapped depends on the kind and the list's address. -/
theorem mapped_ne_of_eq {s t : Lists} (ht : t.objectListMapped = true)
    (h : s.objectListMapped = false) (hkind : t.kind = s.kind)
    (haddress : t.objects.address = s.objects.address) : False := by
  rw [Lists.objectListMapped, hkind, haddress] at ht
  rw [Lists.objectListMapped, ht] at h
  cases h

theorem objectListMapped_unmapObjectList (s : Lists) :
    s.unmapObjectList.objectListMapped = false := by
  obtain ⟨objects, count, placements, kind⟩ := s
  cases kind with
  | legacy mapped => rfl
  | memoryMap => rfl

/-- Unmapping the object list changes only where it is mapped. -/
theorem unmapObjectList_eq (s : Lists) :
    s.unmapObjectList.placements = s.placements ∧
    s.unmapObjectList.objectCount = s.objectCount ∧
    s.unmapObjectList.objects.offset = s.objects.offset ∧
    s.unmapObjectList.objects.length = s.objects.length ∧
    s.unmapObjectList.objects.mappedLength = s.objects.mappedLength ∧
    s.unmapObjectList.placementListMapped = s.placementListMapped := by
  obtain ⟨objects, count, placements, kind⟩ := s
  cases kind with
  | legacy mapped => exact ⟨rfl, rfl, rfl, rfl, rfl, rfl⟩
  | memoryMap => exact ⟨rfl, rfl, rfl, rfl, rfl, rfl⟩

theorem Fits.unmapObjectList {s : Lists} (h : Fits s) : Fits s.unmapObjectList := by
  obtain ⟨hplacements, hcount, -, hlength, hmappedLength, hmapped⟩ := unmapObjectList_eq s
  refine ⟨?_, ?_, fun hobjects => ?_, ?_, ?_⟩
  · rw [hcount, hlength]
    exact h.objects
  · rw [hlength, hmappedLength]
    exact h.objectsMapped
  · rw [objectListMapped_unmapObjectList] at hobjects
    cases hobjects
  · rw [hplacements, hcount]
    exact h.placements
  · rw [hmapped, hplacements, hcount]
    exact h.placementsRegion

theorem placementListMapped_of_null {s : Lists} (h : s.placements.address = {}) :
    s.placementListMapped = false := by
  rw [Lists.placementListMapped, h]
  cases s.kind <;> rfl

theorem Fits.unmapPlacementList {s : Lists} (h : Fits s) : Fits (unmapPlacementList s) := by
  rw [ObjectLists.unmapPlacementList]
  split_ifs
  · exact h
  · refine ⟨h.objects, h.objectsMapped, h.objectsRegion, h.placements, fun hmapped => ?_⟩
    rw [placementListMapped_of_null rfl] at hmapped
    cases hmapped

/-- A new mapping is of the bytes asked for. -/
theorem newMapping_eq_some {task : ResourceHost} {legacy writable : Bool} {offset length : UInt64}
    {r : Region} (h : newMapping task legacy offset length writable = some r) :
    r.offset = offset ∧ r.length = length := by
  rw [newMapping] at h
  split_ifs at h
  obtain ⟨address, -, rfl⟩ := Option.map_eq_some_iff.mp h
  exact ⟨rfl, rfl⟩

theorem Fits.mapObjectList {s : Lists} (h : Fits s) (task : ResourceHost) :
    Fits (mapObjectList task s).1 := by
  have hlist := h.objects
  have hmapped := h.objectsMapped
  rw [ObjectLists.mapObjectList]
  split
  · dsimp only
    split
    · refine ⟨h.objects, h.objectsMapped, fun hfalse => ?_, h.placements, fun hfalse => ?_⟩
      · cases hfalse
      · cases hfalse
    · split_ifs
      · exact h
      · refine ⟨h.objects, h.objectsMapped, fun _ => ⟨rfl, ?_⟩, h.placements, fun hfalse => ?_⟩
        · exact hlist.trans (UInt32.toNat_toUInt64 _).ge
        · cases hfalse
  · split_ifs with hnull
    · exact h
    · cases hmapping : newMapping task false s.objects.offset s.objects.mappedLength false with
      | none =>
        exact ⟨h.objects, h.objectsMapped, h.objectsRegion, h.placements, h.placementsRegion⟩
      | some r =>
        obtain ⟨hoffset, hlength⟩ := newMapping_eq_some hmapping
        refine ⟨h.objects, h.objectsMapped, fun _ => ⟨hoffset, ?_⟩, h.placements,
          h.placementsRegion⟩
        change s.objectCount.toNat * 12 ≤ r.length.toNat
        rw [hlength]
        omega

theorem Fits.mapPlacementList {s : Lists} (h : Fits s) (task : ResourceHost) :
    Fits (mapPlacementList task s).1 := by
  rw [ObjectLists.mapPlacementList]
  split_ifs with hlegacy hmapped
  · exact h
  · exact h
  · rw [not_or] at hmapped
    cases hmapping : newMapping task false s.placements.offset s.placements.mappedLength true with
    | none =>
      exact ⟨h.objects, h.objectsMapped, h.objectsRegion, h.placements, h.placementsRegion⟩
    | some r =>
      obtain ⟨hoffset, hlength⟩ := newMapping_eq_some hmapping
      refine ⟨h.objects, h.objectsMapped, h.objectsRegion, h.placements, fun _ => ⟨hoffset, ?_⟩⟩
      change s.objectCount.toNat * 16 ≤ r.length.toNat
      rw [hlength]
      exact h.placements hmapped.2

theorem Fits.ensureObjectListMapped {s : Lists} (h : Fits s) (task : ResourceHost) :
    Fits (ensureObjectListMapped task s).1 := by
  rw [ObjectLists.ensureObjectListMapped]
  split_ifs
  · exact h
  · exact h.mapObjectList task

theorem Fits.ensurePlacementListMapped {s : Lists} (h : Fits s) (task : ResourceHost) :
    Fits (ensurePlacementListMapped task s).1 := by
  rw [ObjectLists.ensurePlacementListMapped]
  split_ifs
  · exact h
  · exact h.mapPlacementList task

theorem Fits.ensureMapped {s : Lists} (h : Fits s) (task : ResourceHost) :
    Fits (ensureMapped task s).1 := by
  have hobjects := h.ensureObjectListMapped task
  rw [ObjectLists.ensureMapped]
  split
  · rename_i s' heq
    rw [heq] at hobjects
    exact hobjects
  · rename_i s' heq
    rw [heq] at hobjects
    exact hobjects.ensurePlacementListMapped task

/-! ### Setting the lists -/

/-- The lists that moving the placement list leaves. -/
theorem movePlacements_lists (task : ResourceHost) (s : Lists) (old : TaskList) (root : TaskRoot) :
    (movePlacements task s old root).lists =
      { s with
        placements :=
          if s.placements.offset ≠ 0 ∧ s.placements.length ≠ 0 then
            (s.placements.unmap.adopt
              (newMapping task s.isLegacy s.placements.offset s.placements.mappedLength true)).1
          else s.placements.unmap } := by
  rw [movePlacements]
  exact (apply_ite SetOutcome.lists _ _ _).trans (ite_self _)

/-- Moving the placement list maps the new one, where it is not at offset 0. -/
theorem Fits.movePlacements {s : Lists} (task : ResourceHost) (old : TaskList) (root : TaskRoot)
    (hobjects : s.objectCount.toNat * 12 ≤ s.objects.length.toNat)
    (hmapped : s.objects.length.toNat ≤ s.objects.mappedLength.toNat)
    (hunmapped : s.objectListMapped = false)
    (hplacements : s.placements.length ≠ 0 →
      s.objectCount.toNat * 16 ≤ s.placements.mappedLength.toNat) :
    Fits (movePlacements task s old root).lists := by
  rw [movePlacements_lists]
  split_ifs with hset
  · cases hmapping : newMapping task s.isLegacy s.placements.offset s.placements.mappedLength
        true with
    | none =>
      refine ⟨hobjects, hmapped, fun h => ?_, hplacements, fun h => ?_⟩
      · exact (mapped_ne_of_eq h hunmapped rfl rfl).elim
      · rw [placementListMapped_of_null rfl] at h
        cases h
    | some r =>
      obtain ⟨hoffset, hlength⟩ := newMapping_eq_some hmapping
      refine ⟨hobjects, hmapped, fun h => ?_, hplacements, fun _ => ⟨hoffset, ?_⟩⟩
      · exact (mapped_ne_of_eq h hunmapped rfl rfl).elim
      · change s.objectCount.toNat * 16 ≤ r.length.toNat
        rw [hlength]
        exact hplacements hset.2
  · refine ⟨hobjects, hmapped, fun h => ?_, hplacements, fun h => ?_⟩
    · exact (mapped_ne_of_eq h hunmapped rfl rfl).elim
    · rw [placementListMapped_of_null rfl] at h
      cases h

/-- Refusing the lists leaves none. -/
theorem Fits.refuse (s : Lists) (root : TaskRoot) (hunmapped : s.objectListMapped = false) :
    Fits (o.refuse s root).lists := by
  refine ⟨Nat.zero_le _, Nat.zero_le _, fun h => ?_, fun h => absurd rfl h, fun h => ?_⟩
  · exact (mapped_ne_of_eq h hunmapped rfl rfl).elim
  · rw [placementListMapped_of_null rfl] at h
    cases h

theorem count_mul_le (c : SetLists) : c.count.toNat * 12 ≤ c.objectListLength.toNat := by
  rw [SetLists.count, UInt32.toNat_div]
  exact Nat.div_mul_le_self _ _

theorem toNat_required (c : SetLists) :
    (c.count.toUInt64 * objectPlacementSize).toNat = c.count.toNat * 16 := by
  have hlt := c.count.toNat_lt
  rw [UInt64.toNat_mul, UInt32.toNat_toUInt64]
  exact Nat.mod_eq_of_lt (show c.count.toNat * 16 < 2 ^ 64 by omega)

/-- Lists that are taken, and that do not have a short placement list at offset 0, fit. -/
theorem Fits.setObjectList {s : Lists} (hbuffers : o.supportsArgumentBuffers = true)
    {task : ResourceHost} {c : SetLists} {root : Option TaskRoot}
    (hcovers : o.Covers s (.setObjectList task c root)) {outcome : SetOutcome}
    (hset : o.setObjectList task s c root = some outcome) : Fits outcome.lists := by
  obtain ⟨hplacements, -, hoffset, -⟩ := unmapObjectList_eq s
  have hunmapped := objectListMapped_unmapObjectList s
  rw [ObjectLists.setObjectList] at hset
  obtain ⟨root, hroot, hset⟩ := Option.bind_eq_some_iff.mp hset
  simp only [hbuffers, if_true, Bool.not_true, Bool.false_eq_true, if_false] at hset
  split_ifs at hset with hrefuses
  · obtain rfl := Option.some.inj hset
    exact Fits.refuse o _ _ (Bool.eq_false_iff.mpr fun h => mapped_ne_of_eq h hunmapped rfl rfl)
  · obtain rfl := Option.some.inj hset
    have hrefuses' : ¬ o.refuses s c := by
      intro h
      refine hrefuses ?_
      rw [refuses] at h ⊢
      rw [hplacements, hoffset]
      exact h
    obtain hfalse | hcovers := hcovers
    · exact absurd hfalse hrefuses'
    rw [refuses] at hrefuses'
    simp only [not_or, not_and, gt_iff_lt, UInt64.not_lt] at hrefuses'
    obtain ⟨hobjects, hpl, -, -, -, -, hlong⟩ := hrefuses'
    refine Fits.movePlacements task _ _ (count_mul_le c) (o.le_mappedLength hobjects)
      (Bool.eq_false_iff.mpr fun h => mapped_ne_of_eq h hunmapped rfl rfl) fun hlength => ?_
    change c.count.toNat * 16 ≤ (o.mappedLength (c.placementListOffset +
      c.placementListLength.toUInt64) c.placementListOffset).toNat
    by_cases hzero : c.placementListOffset = 0
    · rw [hzero, UInt64.zero_add]
      obtain hne | hnil | hcovers := hcovers
      · exact absurd hzero hne
      · exact absurd hnil hlength
      · exact hcovers
    · have hle := UInt64.le_iff_toNat_le.mp (hlong hzero)
      rw [toNat_required, UInt32.toNat_toUInt64] at hle
      exact hle.trans (o.le_mappedLength hpl)

/-- One call keeps the lists' entries in what is mapped. -/
theorem Fits.step {s t : Lists} (h : Fits s) (hbuffers : o.supportsArgumentBuffers = true)
    {action : ListAction} (hcovers : o.Covers s action) (hstep : o.step s action = some t) :
    Fits t := by
  cases action with
  | setObjectList task c root =>
    obtain ⟨outcome, hset, rfl⟩ := Option.map_eq_some_iff.mp hstep
    exact Fits.setObjectList o hbuffers hcovers hset
  | mapObjectList task =>
    obtain rfl := Option.some.inj hstep
    exact h.mapObjectList task
  | mapPlacementList task =>
    obtain rfl := Option.some.inj hstep
    exact h.mapPlacementList task
  | ensureObjectListMapped task =>
    obtain rfl := Option.some.inj hstep
    exact h.ensureObjectListMapped task
  | ensurePlacementListMapped task =>
    obtain rfl := Option.some.inj hstep
    exact h.ensurePlacementListMapped task
  | ensureMapped task =>
    obtain rfl := Option.some.inj hstep
    exact h.ensureMapped task
  | unmapObjectList =>
    obtain rfl := Option.some.inj hstep
    exact h.unmapObjectList
  | unmapPlacementList =>
    obtain rfl := Option.some.inj hstep
    exact h.unmapPlacementList
  | getObjectEntry index =>
    obtain rfl := Option.some.inj hstep
    exact h
  | getPlacementListEntry index =>
    obtain rfl := Option.some.inj hstep
    exact h

/-! ### Lookups -/

/-- `bytes` bytes from an address are bytes of the region. -/
def Inside (r : Region) (address : UInt64) (bytes : ℕ) : Prop :=
  ∃ k : ℕ, address = r.address + UInt64.ofNat k ∧ k + bytes ≤ r.length.toNat

/-- An entry at an index below the count lies in what holds all of them. -/
theorem inside_entry {r : Region} {index count : UInt32} {size : UInt64}
    (hindex : index.toNat < count.toNat)
    (hregion : count.toNat * size.toNat ≤ r.length.toNat) :
    Inside r (r.address + index.toUInt64 * size) size.toNat := by
  have hle : (index.toNat + 1) * size.toNat ≤ count.toNat * size.toNat :=
    Nat.mul_le_mul_right _ hindex
  refine ⟨index.toNat * size.toNat, ?_, ?_⟩
  · rw [UInt64.ofNat_mul, UInt64.ofNat_toNat]
    congr 2
    exact UInt64.toNat_inj.mp (by
      rw [UInt32.toNat_toUInt64, UInt64.toNat_ofNat_of_lt']
      exact index.toNat_lt.trans (by decide))
  · rw [Nat.add_mul, Nat.one_mul] at hle
    exact hle.trans hregion

/-- In a run whose calls that set the lists do not set a short placement list at offset 0, every
object entry read lies in the mapped object list, and every placement entry found lies in the mapped
placement list. -/
theorem entries_inside (hbuffers : o.supportsArgumentBuffers = true) (legacy : Bool)
    {actions : List ListAction} {s : Lists}
    (hrun : Execution (fun s action t => o.step s action = some t ∧ o.Covers s action)
      (new legacy) actions s) :
    (∀ memory index entry loads, getObjectEntry memory s index = .ok (entry, loads) →
      s.objects.address.offset = s.objects.offset ∧
      ∃ e, loads = [⟨e + 8, 4⟩, ⟨e, 8⟩] ∧ Inside s.objects.address e 12) ∧
    ∀ index entry, o.getPlacementListEntry s index = .ok (some entry) →
      s.placements.address.offset = s.placements.offset ∧
      Inside s.placements.address entry 16 := by
  have hfits : Fits s := hrun.invariant (fits_new legacy) fun s action t h hstep =>
    h.step o hbuffers hstep.2 hstep.1
  refine ⟨fun memory index entry loads hget => ?_, fun index entry hget => ?_⟩
  · rw [getObjectEntry] at hget
    split_ifs at hget with hmapped hindex
    obtain ⟨hoffset, hlength⟩ := hfits.objectsRegion hmapped
    refine ⟨hoffset, _, (congrArg Prod.snd (Except.ok.inj hget)).symm, ?_⟩
    exact inside_entry (Nat.lt_of_not_le fun h => hindex (UInt32.le_iff_toNat_le.mpr h)) hlength
  · rw [getPlacementListEntry] at hget
    split_ifs at hget with hmapped hindex hunmapped
    obtain ⟨hoffset, hlength⟩ := hfits.placementsRegion hmapped
    obtain rfl := Option.some.inj (Except.ok.inj hget)
    refine ⟨hoffset, ?_⟩
    exact inside_entry (Nat.lt_of_not_le fun h => hindex (UInt32.le_iff_toNat_le.mpr h)) hlength
    · cases hget

/-- A task whose offsets are all mapped, each at an address of its own. -/
def identityHost : ResourceHost where
  newVirtualMapping offset _ _ := some (0x100000000 + offset)
  mappedAddressForOffset offset _ := some (0x100000000 + offset)

/-- Lists of a task of 1 MiB, with argument buffers. -/
def sampleObjects : ObjectLists := ⟨.other, 0x100000, true⟩

/-- A list of the task mapped by `identityHost`, in one page. -/
def mappedList (offset : UInt64) (length : UInt32) : TaskList where
  mapping := some ⟨0x100000000 + offset, offset, 0x4000⟩
  address := ⟨0x100000000 + offset, offset, 0x4000⟩
  offset
  length
  mappedLength := 0x4000

/-- Two objects and their placements, each list on a page of its own. -/
def sampleLists : SetLists := ⟨0x4000, 24, 0x8000, 32⟩

/-- The lists, set and mapped. -/
def sampleMapped : Lists where
  objects := mappedList 0x4000 24
  objectCount := 2
  placements := mappedList 0x8000 32
  kind := .memoryMap

/-- The second placement is found in its list. -/
theorem sampleMapped_inside :
    Execution (fun s action t => sampleObjects.step s action = some t ∧
        sampleObjects.Covers s action) (new false)
      ([.setObjectList identityHost sampleLists (some ⟨0, 0, 0, 0⟩)] ++
        [.ensureMapped identityHost]) sampleMapped ∧
    Inside sampleMapped.placements.address 0x100008010 16 := by
  have hset : Execution (fun s action t => sampleObjects.step s action = some t ∧
      sampleObjects.Covers s action) (new false)
      [.setObjectList identityHost sampleLists (some ⟨0, 0, 0, 0⟩)]
      { sampleMapped with
        objects := { mappedList 0x4000 24 with mapping := none, address := {} } } :=
    .single ⟨by decide, .inr (.inl (by decide))⟩
  have hmap : sampleObjects.step { sampleMapped with
      objects := { mappedList 0x4000 24 with mapping := none, address := {} } }
      (.ensureMapped identityHost) = some sampleMapped := by decide
  have hrun := hset.snoc ⟨hmap, trivial⟩
  exact ⟨hrun, ((entries_inside sampleObjects rfl false hrun).2 1 0x100008010 (by decide)).2⟩

/-- A page of objects, and a placement list of one entry at offset 0. -/
def shortLists : SetLists := ⟨0x4000, 0x4000, 0, 16⟩

/-- The lists, set and mapped. -/
def shortMapped : Lists where
  objects := mappedList 0x4000 0x4000
  objectCount := 1365
  placements := mappedList 0 16
  kind := .memoryMap

/-- The last object's placement lies past the page mapped for the placement list. -/
theorem shortMapped_outside :
    Execution (fun s action t => sampleObjects.step s action = some t) (new false)
      [.setObjectList identityHost shortLists (some ⟨0, 0, 0, 0⟩), .ensureMapped identityHost]
      shortMapped ∧
    sampleObjects.getPlacementListEntry shortMapped 1364 = .ok (some 0x100005540) ∧
    ¬ Inside shortMapped.placements.address 0x100005540 16 := by
  refine ⟨Execution.of_foldlM_option _ _ (by decide), by decide, ?_⟩
  rintro ⟨k, hk, hle⟩
  replace hle : k + 16 ≤ 0x4000 := hle
  replace hk : (0x5540 : UInt64) = UInt64.ofNat k := by
    change (0x100005540 : UInt64) = 0x100000000 + UInt64.ofNat k at hk
    grind
  have hnat := congrArg UInt64.toNat hk
  rw [UInt64.toNat_ofNat_of_lt' (show k < 2 ^ 64 by omega)] at hnat
  change 0x5540 = k at hnat
  omega

end ObjectLists

end ReimsVgpu.Tasks
