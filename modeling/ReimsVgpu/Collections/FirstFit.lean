import Mathlib.Data.UInt
import Mathlib.Data.List.Basic
import Mathlib.Tactic.Ring

/-!
# The first-fit allocator of the root task's address space

`FirstFitVa` keeps the free ranges of `0..=last` in a vector sorted by address, both ends of a
range inclusive, and hands out blocks in granules. The arithmetic is that of the source: 64-bit
words that wrap. `allocate` takes the first range whose end the block does not pass, the end being
computed with wrapping additions; `deallocate` finds the first range at or after the freed block
and merges with the ranges on either side, and nothing checks that the block was allocated.

The two spec lemmas read the vector operations as list decompositions: `allocate_eq_some` and
`allocate_eq_none` for the search, `deallocate_nil`, `deallocate_tail`, `deallocate_head` and
`deallocate_between` for the merge.

## Main definitions

* `FreeRange`, `FirstFitVa`, `FirstFitVa.new`, `FirstFitVa.round`.
* `FirstFitVa.allocate`, `FirstFitVa.deallocate`.
-/

namespace ReimsVgpu.Collections

/-- One free range, `start..=last`. -/
structure FreeRange where
  start : UInt64
  last : UInt64
  deriving DecidableEq, Repr

/-- First fit over the free ranges of an address space; `mask` is the granule less one. -/
structure FirstFitVa where
  free : List FreeRange
  mask : UInt64
  deriving DecidableEq, Repr

namespace FirstFitVa

/-- One free range, `0..=last`, allocated in granules (0 or 1 for bytes). -/
def new (last granule : UInt64) : FirstFitVa where
  free := [⟨0, last⟩]
  mask := if granule = 0 then 0 else granule - 1

/-- `size` rounded up to the granule, wrapping. -/
def round (va : FirstFitVa) (size : UInt64) : UInt64 :=
  (size + va.mask) &&& ~~~va.mask

/-- The block of `asz` bytes at the first granule boundary of `r`, with its last byte, if that
byte does not pass the end of `r`. -/
def fit (va : FirstFitVa) (asz : UInt64) (r : FreeRange) : Option (UInt64 × UInt64) :=
  let al := (r.start + va.mask) &&& ~~~va.mask
  let stop := al + asz - 1
  if stop ≤ r.last then some (al, stop) else none

/-- The first free range that `fit` accepts: its index, the range, and the block. -/
def find (va : FirstFitVa) (asz : UInt64) : Option (ℕ × FreeRange × UInt64 × UInt64) :=
  va.free.zipIdx.findSome? fun ri => (va.fit asz ri.1).map fun b => (ri.2, ri.1, b.1, b.2)

/-- The free ranges once the block `al..=stop` of `asz` bytes is taken out of range `i`. -/
def consume (va : FirstFitVa) (asz : UInt64) (i : ℕ) (range : FreeRange) (al stop : UInt64) :
    List FreeRange :=
  let after := al + asz
  match al == range.start, stop == range.last with
  | true, true => va.free.eraseIdx i
  | true, false => va.free.modify i fun r => { r with start := after }
  | false, true => va.free.modify i fun r => { r with last := al - 1 }
  | false, false =>
    (va.free.modify i fun r => { r with last := al - 1 }).insertIdx (i + 1) ⟨after, range.last⟩

/-- The start of the first free range that holds `size` rounded up to the granule. -/
def allocate (va : FirstFitVa) (size : UInt64) : Option UInt64 × FirstFitVa :=
  if size = 0 then (none, va)
  else
    let asz := va.round size
    match va.find asz with
    | none => (none, va)
    | some (i, range, al, stop) => (some al, { va with free := va.consume asz i range al stop })

/-- The index of the first free range at or after `start`; `none` when every range starts below
it. -/
def nextIndex (start : UInt64) : List FreeRange → Option ℕ
  | [] => none
  | first :: rest =>
    if start ≤ first.start then some 0
    else (rest.findIdx? fun r => start ≤ r.start).map (· + 1)

/-- Every range starts below the freed one: extend the last one or append after it. -/
def freeAtTail (free : List FreeRange) (freed : FreeRange) : List FreeRange :=
  match free.getLast? with
  | none => free
  | some tail =>
    if freed.start > tail.last + 1 then free ++ [freed]
    else if freed.last > tail.last then
      free.modify (free.length - 1) fun r => { r with last := freed.last }
    else free

/-- The freed range, whose exclusive end is `stop`, goes before range `i`. -/
def freeBefore (free : List FreeRange) (freed : FreeRange) (stop : UInt64) (i : ℕ) :
    List FreeRange :=
  let prev := if i = 0 then none else some (i - 1)
  let touchesPrev := match prev.bind fun p => free[p]? with
    | none => false
    | some p => freed.start ≤ p.last + 1
  match free[i]? with
  | none => free
  | some next =>
    let touchesNext : Bool := next.start ≤ stop
    match touchesPrev, prev with
    | true, some p =>
      if touchesNext then (free.modify p fun r => { r with last := next.last }).eraseIdx i
      else free.modify p fun r => if freed.last > r.last then { r with last := freed.last } else r
    | _, _ =>
      if !touchesNext then free.insertIdx i freed
      else free.modify i fun r =>
        if freed.start < r.start then { r with start := freed.start } else r

/-- Frees `size` bytes, rounded up to the granule, at `start`, coalescing with both sides. -/
def deallocate (va : FirstFitVa) (start size : UInt64) : FirstFitVa :=
  let stop := start + va.round size
  let freed : FreeRange := ⟨start, stop - 1⟩
  match va.free with
  | [] => { va with free := [freed] }
  | first :: rest =>
    match nextIndex start (first :: rest) with
    | none => { va with free := freeAtTail (first :: rest) freed }
    | some i => { va with free := freeBefore (first :: rest) freed stop i }

/-! ### The search and the block taken -/

theorem find_eq_none_iff (va : FirstFitVa) (asz : UInt64) :
    va.find asz = none ↔ ∀ r ∈ va.free, va.fit asz r = none := by
  simp only [find, List.findSome?_eq_none_iff, Option.map_eq_none_iff]
  constructor
  · intro h r hr
    obtain ⟨i, hi, rfl⟩ := List.getElem_of_mem hr
    exact h (va.free[i], i) (by simp [List.mem_zipIdx_iff_getElem?, hi])
  · rintro h ⟨r, i⟩ hri
    exact h r (List.fst_mem_of_mem_zipIdx hri)

private theorem findSome?_zipIdx_append (f : FreeRange → Option (UInt64 × UInt64))
    (pre post : List FreeRange) (r : FreeRange) (b : UInt64 × UInt64) (n : ℕ)
    (hpre : ∀ q ∈ pre, f q = none) (hr : f r = some b) :
    ((pre ++ r :: post).zipIdx n).findSome?
        (fun ri => (f ri.1).map fun b => (ri.2, ri.1, b.1, b.2)) =
      some (n + pre.length, r, b.1, b.2) := by
  induction pre generalizing n with
  | nil => simp [hr]
  | cons q pre ih =>
    have hq : f q = none := hpre q List.mem_cons_self
    have htail := ih (n + 1) fun p hp => hpre p (List.mem_cons_of_mem q hp)
    simpa [hq, Nat.add_assoc, Nat.add_comm 1] using htail

/-- The search stops at the first range that fits. -/
theorem find_eq_some (va : FirstFitVa) (asz : UInt64) {pre post : List FreeRange}
    {r : FreeRange} {al stop : UInt64} (hfree : va.free = pre ++ r :: post)
    (hpre : ∀ q ∈ pre, va.fit asz q = none) (hr : va.fit asz r = some (al, stop)) :
    va.find asz = some (pre.length, r, al, stop) := by
  have h := findSome?_zipIdx_append (va.fit asz) pre post r (al, stop) 0 hpre hr
  simpa [find, hfree] using h

@[simp] theorem modify_length_append {β : Type*} (pre post : List β) (r : β) (f : β → β) :
    (pre ++ r :: post).modify pre.length f = pre ++ f r :: post := by
  induction pre with
  | nil => rfl
  | cons q pre ih => simpa using ih

@[simp] theorem eraseIdx_length_append {β : Type*} (pre post : List β) (r : β) :
    (pre ++ r :: post).eraseIdx pre.length = pre ++ post := by
  induction pre with
  | nil => rfl
  | cons q pre ih => simpa using ih

@[simp] theorem insertIdx_length_append {β : Type*} (pre post : List β) (r : β) :
    (pre ++ post).insertIdx pre.length r = pre ++ r :: post := by
  induction pre with
  | nil => rfl
  | cons q pre ih => simpa using ih

theorem allocate_zero (va : FirstFitVa) : va.allocate 0 = (none, va) := by
  simp [allocate]

/-- No range fits: the allocation fails and changes nothing. -/
theorem allocate_eq_none (va : FirstFitVa) (size : UInt64)
    (h : ∀ r ∈ va.free, va.fit (va.round size) r = none) : va.allocate size = (none, va) := by
  simp [allocate, (va.find_eq_none_iff _).mpr h]

/-- What is left of a range once a block of `asz` bytes is cut off its front. -/
def cutFront (r : FreeRange) (asz : UInt64) : List FreeRange :=
  if r.start + asz - 1 = r.last then [] else [⟨r.start + asz, r.last⟩]

/-- A block that starts where its range does is cut off the front of the range. -/
theorem allocate_eq_some (va : FirstFitVa) {size : UInt64} (h0 : size ≠ 0)
    {pre post : List FreeRange} {r : FreeRange} (hfree : va.free = pre ++ r :: post)
    (hpre : ∀ q ∈ pre, va.fit (va.round size) q = none)
    (hr : va.fit (va.round size) r = some (r.start, r.start + va.round size - 1)) :
    va.allocate size =
      (some r.start, { va with free := pre ++ cutFront r (va.round size) ++ post }) := by
  simp only [allocate, h0, ↓reduceIte, va.find_eq_some _ hfree hpre hr, consume,
    beq_self_eq_true, cutFront]
  by_cases hs : r.start + va.round size - 1 = r.last
  · simp [hs, hfree]
  · have hne : (r.start + va.round size - 1 == r.last) = false := by simpa using hs
    simp [hne, hs, hfree]

/-! ### The merge -/

theorem nextIndex_eq_none {start : UInt64} {free : List FreeRange}
    (h : ∀ r ∈ free, r.start < start) : nextIndex start free = none := by
  cases free with
  | nil => rfl
  | cons first rest =>
    have hf := h first List.mem_cons_self
    simp only [nextIndex, UInt64.not_le.mpr hf, ↓reduceIte, Option.map_eq_none_iff,
      List.findIdx?_eq_none_iff]
    intro r hr
    simpa using h r (List.mem_cons_of_mem first hr)

theorem nextIndex_eq_some {start : UInt64} {pre post : List FreeRange} {next : FreeRange}
    (hpre : ∀ r ∈ pre, r.start < start) (hnext : start ≤ next.start) :
    nextIndex start (pre ++ next :: post) = some pre.length := by
  cases pre with
  | nil => simp [nextIndex, hnext]
  | cons first rest =>
    have hf := hpre first List.mem_cons_self
    have hrest : rest.findIdx? (fun r => decide (start ≤ r.start)) = none := by
      rw [List.findIdx?_eq_none_iff]
      intro r hr
      simpa using hpre r (List.mem_cons_of_mem first hr)
    simp [nextIndex, UInt64.not_le.mpr hf, List.findIdx?_append, hrest, hnext,
      List.findIdx?_cons]

theorem deallocate_nil (va : FirstFitVa) (start size : UInt64) (hfree : va.free = []) :
    va.deallocate start size =
      { va with free := [⟨start, start + va.round size - 1⟩] } := by
  simp [deallocate, hfree]

/-- Freeing past the last range. -/
theorem deallocate_tail (va : FirstFitVa) (start size : UInt64) {pre : List FreeRange}
    {t : FreeRange} (hfree : va.free = pre ++ [t]) (hlt : ∀ r ∈ pre ++ [t], r.start < start)
    (hpast : start + va.round size - 1 > t.last) :
    va.deallocate start size = { va with
      free := if start > t.last + 1 then pre ++ [t, ⟨start, start + va.round size - 1⟩]
        else pre ++ [{ t with last := start + va.round size - 1 }] } := by
  have hcons : ∃ first rest, pre ++ [t] = first :: rest :=
    List.exists_cons_of_ne_nil (by simp)
  obtain ⟨first, rest, hfr⟩ := hcons
  have hidx := nextIndex_eq_none hlt
  have hlen : (pre ++ [t]).length - 1 = pre.length := by simp
  rw [hfr] at hfree
  simp only [deallocate, hfree]
  rw [← hfr, hidx]
  simp only [freeAtTail, List.getLast?_append, List.getLast?_singleton, Option.some_or,
    hpast, ↓reduceIte, hlen, modify_length_append]
  split_ifs <;> simp

/-- Freeing before the first range. -/
theorem deallocate_head (va : FirstFitVa) (start size : UInt64) {post : List FreeRange}
    {next : FreeRange} (hfree : va.free = next :: post) (hlt : start < next.start) :
    va.deallocate start size = { va with
      free := if next.start ≤ start + va.round size then { next with start := start } :: post
        else ⟨start, start + va.round size - 1⟩ :: next :: post } := by
  have hle : start ≤ next.start := UInt64.le_of_lt hlt
  simp only [deallocate, hfree, nextIndex, hle, ↓reduceIte, freeBefore, Option.bind_none,
    List.getElem?_cons_zero]
  by_cases ht : next.start ≤ start + va.round size
  · simp [ht, hlt]
  · simp [ht]

/-- Freeing between two ranges. -/
theorem deallocate_between (va : FirstFitVa) (start size : UInt64)
    {pre post : List FreeRange} {p next : FreeRange}
    (hfree : va.free = pre ++ p :: next :: post) (hpre : ∀ r ∈ pre ++ [p], r.start < start)
    (hlt : start < next.start) (hpast : start + va.round size - 1 > p.last) :
    va.deallocate start size = { va with
      free := if start ≤ p.last + 1 then
          (if next.start ≤ start + va.round size then pre ++ { p with last := next.last } :: post
          else pre ++ { p with last := start + va.round size - 1 } :: next :: post)
        else (if next.start ≤ start + va.round size then
            pre ++ p :: { next with start := start } :: post
          else pre ++ p :: ⟨start, start + va.round size - 1⟩ :: next :: post) } := by
  have hle : start ≤ next.start := UInt64.le_of_lt hlt
  have hassoc : pre ++ p :: next :: post = (pre ++ [p]) ++ next :: post := by simp
  have hcons : ∃ first rest, pre ++ p :: next :: post = first :: rest :=
    List.exists_cons_of_ne_nil (by simp)
  obtain ⟨first, rest, hfr⟩ := hcons
  have hidx := @nextIndex_eq_some start (pre ++ [p]) post next hpre hle
  rw [← hassoc] at hidx
  have hlen : (pre ++ [p]).length = pre.length + 1 := by simp
  have hget : (pre ++ p :: next :: post)[pre.length + 1]? = some next := by
    rw [hassoc, ← hlen, List.getElem?_append_right le_rfl]
    simp
  have hmod (f : FreeRange → FreeRange) : (pre ++ p :: next :: post).modify (pre.length + 1) f =
      pre ++ p :: f next :: post := by
    rw [hassoc, ← hlen, modify_length_append]
    simp
  have hins (r : FreeRange) : (pre ++ p :: next :: post).insertIdx (pre.length + 1) r =
      pre ++ p :: r :: next :: post := by
    rw [hassoc, ← hlen, insertIdx_length_append]
    simp
  have herase (q : FreeRange) : (pre ++ q :: next :: post).eraseIdx (pre.length + 1) =
      pre ++ q :: post := by
    have : pre ++ q :: next :: post = (pre ++ [q]) ++ next :: post := by simp
    rw [this, show pre.length + 1 = (pre ++ [q]).length by simp, eraseIdx_length_append]
    simp
  rw [hfr] at hfree
  simp only [deallocate, hfree]
  rw [← hfr, hidx]
  simp only [freeBefore, hlen, Nat.add_one_ne_zero, ↓reduceIte, Nat.add_sub_cancel,
    Option.bind_some, List.getElem?_append_right le_rfl, Nat.sub_self, List.getElem?_cons_zero,
    hget]
  by_cases hp : start ≤ p.last + 1 <;> by_cases hn : next.start ≤ start + va.round size
  · simp [hp, hn, herase]
  · simp [hp, hn, hpast]
  · simp [hp, hn, hmod, hlt]
  · simp [hp, hn, hins]

end FirstFitVa

end ReimsVgpu.Collections
