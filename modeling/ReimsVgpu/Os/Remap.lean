import Mathlib.Data.PNat.Basic
import ReimsVgpu.Os.BackingMappings

/-!
# Views of pages

A view of a range maps the files behind the range's pages over the pages of a target, and is recorded
once every piece is mapped. A piece that the kernel refuses ends it: what was mapped before is put back
from the table, by runs of pages that all have a file, or all have none.

The kernel's mappings are what each byte of memory shows. It maps whole pages, refuses a first byte or a
file offset off a page, and else grants or refuses each call as it likes, without effect where it
refuses. Which file a descriptor opens is a parameter, as a file's descriptors are duplicated for each
device. The views' budget is a parameter; past it the process ends.

## Main definitions

* `Kernel`: what memory shows, with `Kernel.file`, `Kernel.anonymous` and `Kernel.protectNone`.
* `Memory.putBack`, `Memory.remapSharedOverwrite`: the put-back, and the view.
-/

namespace ReimsVgpu.Os

variable {φ ψ : Type*}

/-- What a byte shows, by the files that descriptors open. -/
def Shown.map (f : φ → ψ) (s : Shown φ) : Shown ψ := ⟨f s.fd, s.offset, s.prot⟩

/-- The length of whole pages. -/
def roundUp (page : ℕ+) (length : ℕ) : ℕ := (length + (page - 1)) / page * page

/-- The whole pages a range lies in, unless they pass the end of the address space. -/
def pages (page : ℕ+) (address length : ℕ) : Option (ℕ × ℕ) :=
  let stop := address + length + (page - 1)
  if stop < 2 ^ 64 then
    some (address - address % page, stop - stop % page - (address - address % page))
  else none

/-! ### The kernel -/

/-- What each byte of memory shows, `none` where it is no file's; which calls are granted, in their
order; how many came, and how many were refused. -/
structure Kernel (ψ : Type*) where
  shows : ℕ → Option (Shown ψ)
  grants : ℕ → Bool
  asked : ℕ
  refused : ℕ

namespace Kernel

/-- A call, which leaves memory to show something else where it is granted. -/
def call (k : Kernel ψ) (allowed : Bool) (shows : ℕ → Option (Shown ψ)) : Bool × Kernel ψ :=
  if allowed && k.grants k.asked then (true, { k with shows := shows, asked := k.asked + 1 })
  else (false, { k with asked := k.asked + 1, refused := k.refused + 1 })

/-- What memory shows with whole pages of something else over a range. -/
def covered (k : Kernel ψ) (page : ℕ+) (first length : ℕ) (shows : ℕ → Option (Shown ψ)) :
    ℕ → Option (Shown ψ) := fun x =>
  if first ≤ x ∧ x < first + roundUp page length then shows x else k.shows x

/-- `file`, at a fixed address. -/
def file (k : Kernel ψ) (f : φ → ψ) (page : ℕ+) (first length : ℕ) (backing : Backing φ) (prot : ℤ) :
    Bool × Kernel ψ :=
  k.call (first % page = 0 ∧ backing.offset.toNat % page = 0 ∧ backing.offset.toNat < 2 ^ 63)
    (k.covered page first length fun x =>
      some ⟨f backing.fd, backing.offset + UInt64.ofNat (x - first), prot⟩)

/-- `anonymous`, at a fixed address. -/
def anonymous (k : Kernel ψ) (page : ℕ+) (first length : ℕ) : Bool × Kernel ψ :=
  k.call (first % page = 0) (k.covered page first length fun _ => none)

/-- No access to memory that is no file's. -/
def protectNone (k : Kernel ψ) : Bool × Kernel ψ := k.call true k.shows

/-- The files of pieces of a range mapped, up to the first that is refused. -/
def files (k : Kernel ψ) (f : φ → ψ) (page : ℕ+) (first : ℕ) : List (Piece φ) → Bool × Kernel ψ
  | [] => (true, k)
  | p :: pieces =>
    match k.file f page (first + p.start) p.length p.backing p.prot with
    | (true, k) => k.files f page first pieces
    | (false, k) => (false, k)

end Kernel

/-! ### The view -/

/-- The table and the kernel's mappings. -/
structure Memory (φ ψ : Type*) where
  table : Table φ
  kernel : Kernel ψ

/-- What the view fails with. -/
inductive KernReturn
  | invalidArgument
  | invalidAddress
  | refused
  deriving DecidableEq, Repr

/-- Whether each byte of a page has a file. -/
def Table.hasFile (t : Table φ) (page : ℕ+) (first : ℕ) : Bool := (t.pieces first page).isSome

/-- The end of the pages from one on that all have a file, or all have none. -/
def Table.alike (t : Table φ) (page : ℕ+) (stop : ℕ) (filed : Bool) : ℕ → ℕ → ℕ
  | 0, last => last
  | fuel + 1, last =>
    if last < stop ∧ t.hasFile page last = filed then t.alike page stop filed fuel (last + page)
    else last

namespace Memory

/-- Pages that all have a file, or all have none, mapped back. -/
def restore (m : Memory φ ψ) (f : φ → ψ) (page : ℕ+) (filed : Bool) (first last : ℕ) :
    Bool × Kernel ψ :=
  if filed then
    match m.table.pieces first (last - first) with
    | some pieces => m.kernel.files f page first pieces
    | none => (false, m.kernel)
  else
    match m.kernel.anonymous page first (last - first) with
    | (true, k) => k.protectNone
    | (false, k) => (false, k)

variable [DecidableEq φ]

/-- The loop of `put_back`. -/
def putBackFrom (f : φ → ψ) (page : ℕ+) (stop : ℕ) : ℕ → ℕ → Memory φ ψ → Memory φ ψ
  | 0, _, m => m
  | fuel + 1, first, m =>
    if first < stop then
      let filed := m.table.hasFile page first
      let last := m.table.alike page stop filed fuel (first + page)
      let (restored, kernel) := m.restore f page filed first last
      let table := if restored then m.table
        else m.table.forget first (stopOf first (last - first))
      putBackFrom f page stop fuel last ⟨table, kernel⟩
    else m

/-- `put_back`. -/
def putBack (m : Memory φ ψ) (f : φ → ψ) (page : ℕ+) (first length : ℕ) : Memory φ ψ :=
  putBackFrom f page (first + length) length first m

/-- The pieces mapped, and those done put back at one that is refused. -/
def mapPieces (f : φ → ψ) (page : ℕ+) (target : ℕ) (done : List (Piece φ)) :
    List (Piece φ) → Memory φ ψ → Bool × Memory φ ψ
  | [], m => (true, m)
  | p :: pieces, m =>
    match m.kernel.file f page (target + p.start) p.length p.backing p.prot with
    | (true, kernel) => mapPieces f page target (done ++ [p]) pieces ⟨m.table, kernel⟩
    | (false, kernel) =>
      (false, done.foldl (fun m p => m.putBack f page (target + p.start) p.length) ⟨m.table, kernel⟩)

/-- `remap_shared_overwrite`, unless the process ends. -/
def remapSharedOverwrite (m : Memory φ ψ) (f : φ → ψ) (page : ℕ+) (admits : ℕ → Bool)
    (dst src len : ℕ) : Option (Except KernReturn ℕ × Memory φ ψ) :=
  match pages page dst (min (len + src % page) (2 ^ 64 - 1)) with
  | none => some (.error .invalidArgument, m)
  | some (target, length) =>
    match pages page src len with
    | none => some (.error .invalidAddress, m)
    | some (source, _) =>
      if length = 0 then some (.ok dst, m)
      else match m.table.pieces source length with
        | none => some (.error .invalidAddress, m)
        | some pieces =>
          if admits (mappingsAdded pieces) then
            match mapPieces f page target [] pieces m with
            | (true, m) => some (.ok dst, { m with table := m.table.recordAll target pieces })
            | (false, m) => some (.error .refused, m)
          else none

end Memory

end ReimsVgpu.Os
