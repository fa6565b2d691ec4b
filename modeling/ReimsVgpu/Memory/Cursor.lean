import ReimsVgpu.Library.Words
import Mathlib.Data.List.Basic
import Mathlib.Logic.Function.Basic

/-!
# Cursors

A cursor is a read and write position over a shared list of host ranges. It holds the range it is in
and its offset there, its offset from where it started, and its length; moving past the end stops at
the end without walking the ranges.

The loops of reads and writes differ only in the copy of a step's bytes: `transfer` is the loop from
the cursor's position, which it moves, and `transferAt` the loop from further on, which leaves the
cursor where it is.

## Main definitions

* `Cursor`, `CursorRange`, `CursorDeath`, `CursorError`.
* `Cursor.advance`, `Cursor.readBytes`, `Cursor.readBytesAt`, `Cursor.subCursor`,
  `Cursor.subCursorAt`, `Cursor.truncateTo`, `Cursor.writeBytes`, `Cursor.writeBytesAt`.
-/

namespace ReimsVgpu.Memory

/-- Host memory. -/
abbrev HostMemory := UInt64 → UInt8

/-- The addresses of `n` bytes. -/
def span (address : UInt64) (n : ℕ) : List UInt64 :=
  (List.range n).map fun i => address + UInt64.ofNat i

/-- The bytes stored at the addresses, in order. -/
def store (memory : HostMemory) (addresses : List UInt64) (bytes : List UInt8) : HostMemory :=
  (addresses.zip bytes).foldl (fun m p => Function.update m p.1 p.2) memory

/-- Where the zero region ends. -/
def zeroRegionEnd : ℕ := 0x100000000

/-- An access that does not fault: outside the zero region, and not past the top of the address
space. -/
def Accessible (address length : UInt64) : Prop :=
  zeroRegionEnd ≤ address.toNat ∧ address.toNat + length.toNat < 2 ^ 64

instance (address length : UInt64) : Decidable (Accessible address length) :=
  inferInstanceAs (Decidable (_ ∧ _))

/-- What ends the process in a cursor's operation. -/
inductive CursorDeath where
  | rangeIndex
  | bufferEnd
  | readNull
  | writeNull
  deriving DecidableEq, Repr

/-- A host range. -/
structure CursorRange where
  address : UInt64 := 0
  length : UInt64 := 0
  deriving DecidableEq, Repr

/-- The operation an error names. -/
inductive CursorOperation where
  | read
  | write
  deriving DecidableEq, Repr

/-- A refusal, with what its message shows. -/
inductive CursorError where
  | pastEnd (operation : CursorOperation) (length offset cursorLength : UInt64)
  | pastEndAt (operation : CursorOperation) (length offset ahead cursorLength : UInt64)
  | subCursorLeft (subLength remaining : UInt64)
  | subCursorOverflows (subLength : UInt64)
  | subCursorAtOverflows (subLength ahead : UInt64)
  | subCursorAtLeft (subLength ahead remaining : UInt64)
  | lengthPast (newLength length : UInt64)
  | lengthBefore (newLength length offset : UInt64)
  deriving DecidableEq, Repr

/-- A position in the ranges. -/
structure Position where
  rangeIndex : ℕ
  rangeOffset : UInt64
  deriving DecidableEq, Repr

/-- A read position over a list of host ranges. -/
structure Cursor extends Position where
  ranges : List CursorRange
  length : UInt64
  offset : UInt64
  deriving DecidableEq, Repr

/-- An addition past `u64`. -/
def Overflows (x y : UInt64) : Prop := 2 ^ 64 ≤ x.toNat + y.toNat

instance (x y : UInt64) : Decidable (Overflows x y) := inferInstanceAs (Decidable (_ ≤ _))

/-- `validate_operation_size`. -/
def validateOperationSize (offset cursorLength length : UInt64) (operation : CursorOperation) :
    Except CursorError Unit :=
  if Overflows offset length ∨ length > cursorLength ∨ offset + length > cursorLength then
    .error (.pastEnd operation length offset cursorLength)
  else .ok ()

/-- `validate_operation_size_at`. -/
def validateOperationSizeAt (offset cursorLength length ahead : UInt64)
    (operation : CursorOperation) : Except CursorError Unit :=
  let start := offset + ahead
  if Overflows offset ahead ∨ Overflows start length ∨ length > cursorLength ∨
      start + length > cursorLength then
    .error (.pastEndAt operation length offset ahead cursorLength)
  else .ok ()

/-- The variables of a loop from the cursor's position, with the data of its copies. -/
structure Transfer (σ : Type) extends Position where
  offset : UInt64
  bytes : UInt64
  data : σ

variable {σ : Type} (copy : σ → UInt64 → UInt64 → Except CursorDeath σ)

/-- A step that stays in its range makes progress. -/
theorem bytes_sub_min_lt {bytes length rangeOffset : UInt64} (h : bytes ≠ 0)
    (hstays : length ≠ rangeOffset + min bytes (length - rangeOffset)) :
    (bytes - min bytes (length - rangeOffset)).toNat < bytes.toNat := by
  by_cases hle : bytes ≤ length - rangeOffset
  · rw [UInt64.min_eq_left hle, UInt64.sub_self]
    exact Nat.pos_of_ne_zero fun hzero => h (UInt64.toNat_inj.mp hzero)
  · refine absurd ?_ hstays
    rw [UInt64.min_eq_right hle]
    grind

/-- The loop of `read_bytes` and `write_bytes`, from the cursor's position: the ranges are those from
its index on. -/
def transfer (ranges : List CursorRange) (t : Transfer σ) : Except CursorDeath (Transfer σ) :=
  if _h : t.bytes = 0 then .ok t
  else
    match ranges with
    | [] => .error .rangeIndex
    | range :: rest =>
      let step := min t.bytes (range.length - t.rangeOffset)
      match copy t.data (range.address + t.rangeOffset) step with
      | .error death => .error death
      | .ok data =>
        let rangeOffset := t.rangeOffset + step
        if _hend : range.length = rangeOffset then
          transfer rest
            { rangeIndex := t.rangeIndex + 1
              rangeOffset := 0
              offset := t.offset + step
              bytes := t.bytes - step
              data }
        else
          transfer (range :: rest)
            { rangeIndex := t.rangeIndex
              rangeOffset
              offset := t.offset + step
              bytes := t.bytes - step
              data }
  termination_by (ranges.length, t.bytes.toNat)
  decreasing_by
    · exact Prod.Lex.left _ _ (Nat.lt_succ_self _)
    · exact Prod.Lex.right _ (bytes_sub_min_lt _h _hend)

/-- The loop of `read_bytes_at` and `write_bytes_at`: `ahead` bytes are passed over first, and the
cursor does not move. -/
def transferAt : List CursorRange → (ahead position bytes : UInt64) → σ → Except CursorDeath σ
  | [], _, _, bytes, data => if bytes = 0 then .ok data else .error .rangeIndex
  | range :: rest, ahead, position, bytes, data =>
    if bytes = 0 then .ok data
    else
      let position := position + ahead
      if position > range.length then transferAt rest (position - range.length) 0 bytes data
      else
        let step := min bytes (range.length - position)
        match copy data (range.address + position) step with
        | .error death => .error death
        | .ok data => transferAt rest 0 0 (bytes - step) data

/-- A read's destination: the bytes read and the room left. -/
structure Into where
  bytes : List UInt8
  room : ℕ

/-- The copy of a read's step: the step's part of the destination is taken first, and a copy of no
bytes touches nothing. -/
def copyTo (memory : HostMemory) (into : Into) (address step : UInt64) : Except CursorDeath Into :=
  if into.room < step.toNat then .error .bufferEnd
  else if step ≠ 0 ∧ ¬ Accessible address step then .error .readNull
  else
    .ok
      { bytes := into.bytes ++ (span address step.toNat).map memory
        room := into.room - step.toNat }

/-- A write's source, and the memory written. -/
structure From where
  memory : HostMemory
  bytes : List UInt8

/-- The copy of a write's step. -/
def copyFrom (source : From) (address step : UInt64) : Except CursorDeath From :=
  if source.bytes.length < step.toNat then .error .bufferEnd
  else if step ≠ 0 ∧ ¬ Accessible address step then .error .writeNull
  else
    .ok
      { memory := store source.memory (span address step.toNat) (source.bytes.take step.toNat)
        bytes := source.bytes.drop step.toNat }

namespace Cursor

/-- The checked sum of the ranges, 0 on overflow. -/
def sumLengths (length : UInt64) : List CursorRange → UInt64
  | [] => length
  | range :: rest =>
    if Overflows length range.length then 0 else sumLengths (length + range.length) rest

/-- `with_ranges`. -/
def withRanges (ranges : List CursorRange) : Cursor where
  rangeIndex := 0
  rangeOffset := 0
  ranges
  length := sumLengths 0 ranges
  offset := 0

/-- The loop of `advance`. -/
def advanceLoop (ranges : List CursorRange) (p : Position) (bytes : UInt64) :
    Except CursorDeath Position :=
  if _h : bytes = 0 then .ok p
  else
    match ranges with
    | [] => .error .rangeIndex
    | range :: rest =>
      let step := min bytes (range.length - p.rangeOffset)
      let rangeOffset := p.rangeOffset + step
      if _hend : range.length = rangeOffset then
        advanceLoop rest { rangeIndex := p.rangeIndex + 1, rangeOffset := 0 } (bytes - step)
      else
        advanceLoop (range :: rest) { rangeIndex := p.rangeIndex, rangeOffset } (bytes - step)
  termination_by (ranges.length, bytes.toNat)
  decreasing_by
    · exact Prod.Lex.left _ _ (Nat.lt_succ_self _)
    · exact Prod.Lex.right _ (bytes_sub_min_lt _h _hend)

/-- `advance`: the end is reached without walking the ranges. -/
def advance (c : Cursor) (bytes : UInt64) : Except CursorDeath Cursor :=
  if Overflows c.offset bytes ∨ c.offset + bytes ≥ c.length then .ok { c with offset := c.length }
  else do
    let p ← advanceLoop (c.ranges.drop c.rangeIndex) c.toPosition bytes
    .ok { c with toPosition := p, offset := c.offset + bytes }

/-- `read_bytes`: the bytes or the error, and the cursor after. -/
def readBytes (memory : HostMemory) (c : Cursor) (bytes : UInt64) :
    Except CursorDeath (Except CursorError (List UInt8) × Cursor) :=
  match validateOperationSize c.offset c.length bytes .read with
  | .error e => .ok (.error e, c)
  | .ok () => do
    let t ← transfer (copyTo memory) (c.ranges.drop c.rangeIndex)
      { toPosition := c.toPosition
        offset := c.offset
        bytes
        data := { bytes := [], room := bytes.toNat } }
    .ok (.ok t.data.bytes, { c with toPosition := t.toPosition, offset := t.offset })

/-- `read_bytes_at`. -/
def readBytesAt (memory : HostMemory) (c : Cursor) (ahead bytes : UInt64) :
    Except CursorDeath (Except CursorError (List UInt8)) :=
  match validateOperationSizeAt c.offset c.length bytes ahead .read with
  | .error e => .ok (.error e)
  | .ok () => do
    let into ← transferAt (copyTo memory) (c.ranges.drop c.rangeIndex) ahead c.rangeOffset bytes
      { bytes := [], room := bytes.toNat }
    .ok (.ok into.bytes)

/-- `remaining`. -/
def remaining (c : Cursor) : UInt64 := c.length - c.offset

/-- `child_of`: the child, and the parent after. -/
def childOf (parent : Cursor) (subLength : UInt64) : Except CursorDeath (Cursor × Cursor) := do
  let child := { parent with length := subLength, offset := 0 }
  let parent ← parent.advance subLength
  .ok (child, parent)

/-- `child_at`. -/
def childAt (other : Cursor) (ahead subLength : UInt64) : Except CursorDeath Cursor :=
  advance { other with length := ahead + subLength, offset := 0 } ahead

/-- `sub_cursor`: the child or the error, and the cursor after. -/
def subCursor (c : Cursor) (subLength : UInt64) :
    Except CursorDeath (Except CursorError Cursor × Cursor) :=
  if c.remaining < subLength then .ok (.error (.subCursorLeft subLength c.remaining), c)
  else if Overflows c.offset subLength then .ok (.error (.subCursorOverflows subLength), c)
  else do
    let (child, c) ← c.childOf subLength
    .ok (.ok child, c)

/-- `sub_cursor_at`. -/
def subCursorAt (c : Cursor) (ahead subLength : UInt64) :
    Except CursorDeath (Except CursorError Cursor) :=
  if Overflows ahead c.offset ∨ Overflows (ahead + c.offset) subLength then
    .ok (.error (.subCursorAtOverflows subLength ahead))
  else if ahead + c.offset + subLength > c.length then
    .ok (.error (.subCursorAtLeft subLength ahead c.remaining))
  else do
    let child ← c.childAt ahead subLength
    .ok (.ok child)

/-- `truncate_to`. -/
def truncateTo (c : Cursor) (newLength : UInt64) : Except CursorError Unit × Cursor :=
  if newLength > c.length then (.error (.lengthPast newLength c.length), c)
  else if newLength < c.offset then (.error (.lengthBefore newLength c.length c.offset), c)
  else (.ok (), { c with length := newLength })

/-- `write_bytes`: the memory after, the error if refused, and the cursor after. -/
def writeBytes (memory : HostMemory) (c : Cursor) (bytes : List UInt8) :
    Except CursorDeath (Except CursorError Unit × HostMemory × Cursor) :=
  match validateOperationSize c.offset c.length (UInt64.ofNat bytes.length) .write with
  | .error e => .ok (.error e, memory, c)
  | .ok () => do
    let t ← transfer copyFrom (c.ranges.drop c.rangeIndex)
      { toPosition := c.toPosition
        offset := c.offset
        bytes := UInt64.ofNat bytes.length
        data := { memory, bytes } }
    .ok (.ok (), t.data.memory, { c with toPosition := t.toPosition, offset := t.offset })

/-- `write_bytes_at`. -/
def writeBytesAt (memory : HostMemory) (c : Cursor) (ahead : UInt64) (bytes : List UInt8) :
    Except CursorDeath (Except CursorError Unit × HostMemory) :=
  match validateOperationSizeAt c.offset c.length (UInt64.ofNat bytes.length) ahead .write with
  | .error e => .ok (.error e, memory)
  | .ok () => do
    let source ← transferAt copyFrom (c.ranges.drop c.rangeIndex) ahead c.rangeOffset
      (UInt64.ofNat bytes.length) { memory, bytes }
    .ok (.ok (), source.memory)

end Cursor

end ReimsVgpu.Memory
