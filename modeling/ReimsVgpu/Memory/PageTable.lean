import Mathlib.Algebra.Group.Nat.Defs
import Mathlib.Data.Nat.Basic
import Mathlib.Logic.Function.Basic

/-!
# The guest page table and its walk

A task's page table has one to three levels of tables, each one guest page of little-endian `u32`
entries: a guest page number in the low 31 bits and the writable bit on top. The walk over an
address range keeps, for each level, the table's bytes as the read block filled them, an absolute
index, the index the range ends at and the absolute index of the table's first entry. It runs as an
iteration over one level at a time: it descends through a non-zero entry, visits at the last level,
and climbs when a table is exhausted.

Guest memory is a function of the address and does not change during a walk. The visitor is a
function on a state of the caller's, which it also answers when it raises. The walk's loop has no
bound of its own, so the model runs it with fuel and says when that is used up.

## Main definitions

* `Arch`, `pageShift`, `indexBits`, `entries`: the guest page on the two targets.
* `Level`, `Level.entry`, `readRange`.
* `PageTableWalker`, `PageTableWalker.step`, `PageTableWalker.visitPagesInRange`.
* `lookup`: the direct translation of one page, from the root table down.
-/

namespace ReimsVgpu.Memory

/-- The target decides the guest page's size. -/
inductive Arch
  | x86_64
  | other
  deriving DecidableEq, Repr

variable (a : Arch)

/-- `APV_PAGE_SHIFT`. -/
def pageShift : ℕ :=
  match a with
  | .x86_64 => 12
  | .other => 14

/-- `APV_PAGE_SIZE`. -/
def pageSize : UInt64 := 1 <<< UInt64.ofNat (pageShift a)

/-- `APV_PAGE_MASK`. -/
def pageMask : UInt64 := pageSize a - 1

/-- A table's index bits. -/
def indexBits : ℕ := pageShift a - 2

/-- Entries per table. -/
def entries : UInt64 := 1 <<< UInt64.ofNat (indexBits a)

/-- The walk's raises. -/
inductive RaiseKind
  | walkMisalignedStart
  | walkMisalignedLength
  | walkZeroLength
  | walkEndOverflow
  | walkRootUnread
  | walkHole
  deriving DecidableEq, Repr

/-- The walk's deaths. -/
inductive DeathKind
  | walkZeroTable
  | walkReadPastTable
  | walkNoLevels
  | walkEntryPastTable
  deriving DecidableEq, Repr

/-- Guest physical memory. -/
abbrev GuestMemory := ℕ → UInt8

/-- The little-endian word at `at` of a run of bytes. -/
def le32 (bytes : ℕ → UInt8) (pos : ℕ) : UInt32 :=
  (bytes pos).toUInt32 ||| (bytes (pos + 1)).toUInt32 <<< 8 |||
    (bytes (pos + 2)).toUInt32 <<< 16 ||| (bytes (pos + 3)).toUInt32 <<< 24

/-- The page number of an entry. -/
def entryPage (e : UInt32) : UInt32 := e &&& 0x7fffffff

/-- The writable bit of an entry. -/
def entryWritable (e : UInt32) : UInt32 := e >>> 31

/-- One level of the walk; the bytes start zeroed. -/
structure Level where
  bytes : ℕ → UInt8 := fun _ => 0
  index : UInt64
  last : UInt64
  base : UInt64 := 0

/-- Entry `offset`; an offset past the table's last is a death. -/
def Level.entry (l : Level) (offset : UInt64) : Except DeathKind UInt32 :=
  if offset < entries a then .ok (le32 l.bytes (offset.toNat * 4))
  else .error .walkEntryPastTable

/-- Reads `count` entries of the table at guest page `pa` from index `start` into the level's bytes.
False when the indices fall outside the table. -/
def readRange (mem : GuestMemory) (pa : UInt32) (level : Level) (start count : UInt64) :
    Except DeathKind (Bool × Level) :=
  if pa = 0 then .error .walkZeroTable
  else if start ≥ entries a then .ok (false, level)
  else if start + count > entries a then .ok (false, level)
  else
    let address := pa.toUInt64 <<< UInt64.ofNat (pageShift a)
    let src := start <<< 2
    let dst := (start + count) <<< 2
    if dst < src then .error .walkReadPastTable
    else .ok (true, { level with
      bytes := fun k => if src.toNat ≤ k ∧ k < dst.toNat
        then mem ((address + src).toNat + (k - src.toNat)) else level.bytes k })

/-- What the visitor is called with. -/
structure Visit where
  address : UInt64
  page : UInt32
  writable : UInt32
  deriving DecidableEq, Repr

/-- How a walk ends: it returns, with a raise of its own or of the visitor's, it dies, or the model
has run its loop as often as it was asked to. -/
inductive WalkEnd (ε : Type*)
  | ok
  | raised (kind : RaiseKind)
  | visitor (e : ε)
  | died (kind : DeathKind)
  | outOfFuel
  deriving DecidableEq, Repr

/-- A visitor: its state after the call, and its raise. -/
abbrev Visitor (σ ε : Type*) := σ → Visit → σ × Option ε

/-- The walk's variables. -/
structure Walk where
  levels : ℕ → Level
  level : ℕ
  index : UInt64
  base : UInt64

structure PageTableWalker where
  root : UInt64
  depth : ℕ
  allowHoles : Bool

namespace PageTableWalker

/-- A walker of the table at guest page `root`. -/
def new (root : UInt32) (depth : ℕ) (allowHoles : Bool) : PageTableWalker where
  root := root.toUInt64 <<< UInt64.ofNat (pageShift a)
  depth := depth
  allowHoles := allowHoles

/-- The climb from a table whose entries are used up: `none` above the root table. -/
def climb (levels : ℕ → Level) : ℕ → UInt64 → Option Walk
  | 0, _ => none
  | level + 1, index =>
    let levels := Function.update levels (level + 1) { levels (level + 1) with index := index }
    let parent := levels level
    let index := parent.index + 1
    if index - parent.base < entries a then some ⟨levels, level, index, parent.base⟩
    else climb levels level index

/-- The end of an iteration: the next index of the same table, or of the nearest level above that
has one. -/
def advance (w : Walk) : Option Walk :=
  let offset := w.index - w.base
  let index := w.index + 1
  if index > (w.levels w.level).last then none
  else if offset + 1 ≥ entries a then climb a w.levels w.level index
  else some { w with index := index }

/-- The descent through an entry with page `pa`: the level's index and base are saved, and the whole
child table is read into the level below, whose saved index goes on. -/
def descend (mem : GuestMemory) (w : Walk) (pa : UInt32) : Except DeathKind Walk :=
  let levels := Function.update w.levels w.level
    { w.levels w.level with index := w.index, base := w.base }
  let child := levels (w.level + 1)
  match readRange a mem pa child 0 (entries a) with
  | .error d => .error d
  | .ok (_, child') => .ok
    { levels := Function.update levels (w.level + 1) child'
      level := w.level + 1
      index := child.index
      base := w.index <<< UInt64.ofNat (indexBits a) }

variable {σ ε : Type*}

/-- The walk goes on to the next index, or returns. -/
def moveOn (w : Walk) : Walk ⊕ WalkEnd ε :=
  match advance a w with
  | some w => .inl w
  | none => .inr .ok

/-- One iteration of the walk's loop: the walk goes on, or it ends. -/
def step (walker : PageTableWalker) (mem : GuestMemory) (visit : Visitor σ ε) (w : Walk) (s : σ) :
    σ × (Walk ⊕ WalkEnd ε) :=
  if w.level ≥ walker.depth then (s, .inr (.died .walkEntryPastTable))
  else
    match (w.levels w.level).entry a (w.index - w.base) with
    | .error d => (s, .inr (.died d))
    | .ok entry =>
      let pa := entryPage entry
      if pa = 0 then
        if walker.allowHoles then (s, moveOn a w) else (s, .inr (.raised .walkHole))
      else if w.level < walker.depth - 1 then
        match descend a mem w pa with
        | .error d => (s, .inr (.died d))
        | .ok w => (s, .inl w)
      else
        match visit s ⟨w.index <<< UInt64.ofNat (pageShift a), pa, entryWritable entry⟩ with
        | (s, some e) => (s, .inr (.visitor e))
        | (s, none) => (s, moveOn a w)

/-- The walk's loop. -/
def loop (walker : PageTableWalker) (mem : GuestMemory) (visit : Visitor σ ε) :
    ℕ → Walk → σ → σ × WalkEnd ε
  | 0, _, s => (s, .outOfFuel)
  | fuel + 1, w, s =>
    match walker.step a mem visit w s with
    | (s, .inl w) => loop walker mem visit fuel w s
    | (s, .inr e) => (s, e)

/-- The levels a walk of the pages `startPage` to `endPage` starts with; both indices are truncated
to 32 bits. -/
def startLevels (depth : ℕ) (startPage endPage : UInt64) (i : ℕ) : Level :=
  let shift := UInt64.ofNat (indexBits a * (depth - 1 - i))
  { index := (startPage >>> shift).toUInt32.toUInt64, last := (endPage >>> shift).toUInt32.toUInt64 }

/-- Visits each mapped page of `start..start + length` in address order. -/
def visitPagesInRange (walker : PageTableWalker) (mem : GuestMemory) (visit : Visitor σ ε)
    (fuel : ℕ) (start length : UInt64) (s : σ) : σ × WalkEnd ε :=
  if start &&& pageMask a ≠ 0 then (s, .raised .walkMisalignedStart)
  else if length &&& pageMask a ≠ 0 then (s, .raised .walkMisalignedLength)
  else if length = 0 then (s, .raised .walkZeroLength)
  else if start.toNat + (length - 1).toNat ≥ 2 ^ 64 then (s, .raised .walkEndOverflow)
  else
    let startPage := start >>> UInt64.ofNat (pageShift a)
    let endPage := (start + (length - 1)) >>> UInt64.ofNat (pageShift a)
    if walker.depth = 0 then (s, .died .walkNoLevels)
    else
      let levels := startLevels a walker.depth startPage endPage
      let first := (levels 0).index
      let root := (walker.root >>> UInt64.ofNat (pageShift a)).toUInt32
      match readRange a mem root (levels 0) first ((levels 0).last - first + 1) with
      | .error d => (s, .died d)
      | .ok (false, _) => (s, .raised .walkRootUnread)
      | .ok (true, level) =>
        walker.loop a mem visit fuel ⟨Function.update levels 0 level, 0, first, 0⟩ s

end PageTableWalker

/-! ### The direct translation -/

/-- Entry `offset` of the table at guest page `table`. -/
def tableEntry (mem : GuestMemory) (table : UInt32) (offset : ℕ) : UInt32 :=
  le32 mem (table.toNat * 2 ^ pageShift a + offset * 4)

/-- The translation of one page through the tables below `table`, from the top down: the page number
and the writable bit of its leaf, unless an entry on the way has no page. -/
def lookup (mem : GuestMemory) : ℕ → UInt32 → ℕ → Option (UInt32 × UInt32)
  | 0, _, _ => none
  | below + 1, table, page =>
    let e := tableEntry a mem table (page / 2 ^ (indexBits a * below) % 2 ^ indexBits a)
    if entryPage e = 0 then none
    else if below = 0 then some (entryPage e, entryWritable e)
    else lookup mem below (entryPage e) page

/-- The visit of one page with its translation. -/
def pageVisit (page : ℕ) (leaf : UInt32 × UInt32) : Visit where
  address := UInt64.ofNat (page * 2 ^ pageShift a)
  page := leaf.1
  writable := leaf.2

/-- The walk as its callers mean it: each page in turn, with its direct translation, up to the first
that has none. -/
def visitEach {σ ε : Type*} (mem : GuestMemory) (depth : ℕ) (root : UInt32) (visit : Visitor σ ε) :
    List ℕ → σ → σ × WalkEnd ε
  | [], s => (s, .ok)
  | page :: pages, s =>
    match lookup a mem depth root page with
    | none => (s, .raised .walkHole)
    | some leaf =>
      match visit s (pageVisit a page leaf) with
      | (s, some e) => (s, .visitor e)
      | (s, none) => visitEach mem depth root visit pages s

end ReimsVgpu.Memory
