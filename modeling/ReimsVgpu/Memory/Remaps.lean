import ReimsVgpu.Memory.Map

/-!
# Mappings made from the memory map

Two functions of the memory map remap a request's guest physical ranges, one after the other, to
consecutive host addresses: `new_range_mapping` into an allocation of its own, and
`map_memory_at_virtual_address` into the caller's region. Each walks the request's ranges against
the map's, and splits a range where it crosses from one range of the map to the next.

The walks are compared with `cut`, the pieces of one request range by the map.

## Main definitions

* `VmCall`, `Vm`: the virtual memory calls, and which of them succeed.
* `MemoryMap.newRangeMapping`, `MemoryMap.mapMemoryAtVirtualAddress`.
* `Mirrors`: the remaps read a request's bytes in order.

## Main results

* `MemoryMap.remaps_mirror`: both functions issue the same remaps, which read the request's bytes,
  and succeed where every byte is in the map; a refusal deallocates what was allocated.
-/

namespace ReimsVgpu.Memory

/-- A call of the host's virtual memory. -/
inductive VmCall where
  | allocate (length : UInt64)
  | remap (target source length : UInt64)
  | protect (address length : UInt64) (readOnly : Bool)
  | deallocate (address length : UInt64)
  deriving DecidableEq, Repr

/-- The host's virtual memory: what an allocation returns, and whether the last of the calls made
succeeds. -/
structure Vm where
  allocate : UInt64 → Option UInt64
  remap : List VmCall → Bool
  protect : List VmCall → Bool

/-- What a mapping holds. -/
structure Mapping where
  address : UInt64
  length : UInt64
  writable : Bool
  deriving DecidableEq, Repr

/-- How `new_range_mapping` ends, with the calls it made: a length that is not whole pages dies. -/
inductive MappingOutcome where
  | died
  | refused (calls : List VmCall)
  | made (mapping : Mapping) (calls : List VmCall)
  deriving DecidableEq, Repr

/-- The calls made. -/
def MappingOutcome.calls : MappingOutcome → List VmCall
  | died => []
  | refused calls => calls
  | made _ calls => calls

namespace MemoryMap

variable (vm : Vm)

/-- `map_physical_range`: one remap, and whether it succeeded. -/
def mapPhysicalRange (mapRange : MemoryMapRange) (pieceAddress pieceLength target : UInt64)
    (calls : List VmCall) : Bool × List VmCall :=
  let source := mapRange.virtualAddress + pieceAddress - mapRange.physicalAddress
  let calls := calls ++ [.remap target source pieceLength]
  (vm.remap calls, calls)

/-- What is left of the request range, the next target and the calls made. -/
structure Pieces where
  range : PhysRange
  target : UInt64
  calls : List VmCall

/-- The inner loop of `new_range_mapping`: the request range, up to `stop`, over the map's ranges.
A remap that fails ends it with the calls made. -/
def newPieces (stop : UInt64) :
    List MemoryMapRange → Pieces → Except (List VmCall) Pieces
  | [], p => .ok p
  | mapRange :: rest, p =>
    if p.range.address < mapRange.physicalAddress ∨ p.range.address ≥ mapRange.physicalEnd then
      newPieces stop rest p
    else
      let length := mapRange.physicalEnd - p.range.address
      if mapRange.physicalEnd < stop then
        match mapPhysicalRange vm mapRange p.range.address length p.target p.calls with
        | (false, calls) => .error calls
        | (true, calls) =>
          newPieces stop rest
            { range := { address := mapRange.physicalEnd, length := p.range.length - length }
              target := p.target + length
              calls }
      else
        match mapPhysicalRange vm mapRange p.range.address p.range.length p.target p.calls with
        | (false, calls) => .error calls
        | (true, calls) =>
          .ok
            { range := { p.range with length := 0 }
              target := p.target + p.range.length
              calls }

/-- The bytes mapped, the next target and the calls made. -/
structure Mapped where
  mapped : UInt64
  target : UInt64
  calls : List VmCall

/-- The outer loop of `new_range_mapping`; a refusal ends it with the calls made. Guest physical 0
is refused, even with length 0. -/
def newRequests (m : MemoryMap) (totalLength : UInt64) :
    List PhysRange → Mapped → Except (List VmCall) Mapped
  | [], s => .ok s
  | range :: rest, s =>
    if range.address = 0 then .error s.calls
    else
      match checkedAdd s.mapped range.length with
      | none => .error s.calls
      | some mapped =>
        if mapped > totalLength then .error s.calls
        else if range.length = 0 then newRequests m totalLength rest { s with mapped }
        else
          match checkedAdd range.address range.length with
          | none => .error s.calls
          | some stop =>
            match newPieces vm stop m.ranges { range, target := s.target, calls := s.calls } with
            | .error calls => .error calls
            | .ok p =>
              if p.range.length ≠ 0 then .error p.calls
              else
                newRequests m totalLength rest { mapped, target := p.target, calls := p.calls }

/-- `new_range_mapping`: every refusal after the allocation deallocates it; after a failed protect
it is deallocated and the mapping made anyway. -/
def newRangeMapping (a : Arch) (m : MemoryMap) (ranges : List PhysRange) (totalLength : UInt64)
    (readOnly : UInt32) : MappingOutcome :=
  if totalLength % pageSize a ≠ 0 then .died
  else
    let calls := [.allocate totalLength]
    match vm.allocate totalLength with
    | none => .refused calls
    | some address =>
      let freeAll : VmCall := .deallocate address totalLength
      match newRequests vm m totalLength ranges { mapped := 0, target := address, calls } with
      | .error calls => .refused (calls ++ [freeAll])
      | .ok s =>
        if s.mapped ≠ totalLength then .refused (s.calls ++ [freeAll])
        else
          let calls := s.calls ++ [.protect address totalLength (readOnly != 0)]
          let calls := if vm.protect calls then calls else calls ++ [freeAll]
          .made { address, length := totalLength, writable := readOnly == 0 } calls

/-- The inner loop of `map_memory_at_virtual_address`. -/
def mapPieces (stop : UInt64) :
    List MemoryMapRange → Pieces → Except (List VmCall) Pieces
  | [], p => .ok p
  | mapRange :: rest, p =>
    if p.range.address < mapRange.physicalAddress ∨ p.range.address ≥ mapRange.physicalEnd then
      mapPieces stop rest p
    else if mapRange.physicalEnd ≥ stop then
      match mapPhysicalRange vm mapRange p.range.address p.range.length p.target p.calls with
      | (false, calls) => .error calls
      | (true, calls) =>
        .ok
          { range := { p.range with length := 0 }
            target := p.target + p.range.length
            calls }
    else
      let length := mapRange.physicalEnd - p.range.address
      match mapPhysicalRange vm mapRange p.range.address length p.target p.calls with
      | (false, calls) => .error calls
      | (true, calls) =>
        mapPieces stop rest
          { range := { address := mapRange.physicalEnd, length := p.range.length - length }
            target := p.target + length
            calls }

/-- The outer loop of `map_memory_at_virtual_address`. -/
def mapRequests (m : MemoryMap) : List PhysRange → Mapped → Except (List VmCall) Mapped
  | [], s => .ok s
  | range :: rest, s =>
    if range.address = 0 then .error s.calls
    else
      match checkedAdd s.mapped range.length with
      | none => .error s.calls
      | some mapped =>
        if range.length = 0 then mapRequests m rest { s with mapped }
        else
          match checkedAdd range.address range.length with
          | none => .error s.calls
          | some stop =>
            match mapPieces vm stop m.ranges { range, target := s.target, calls := s.calls } with
            | .error calls => .error calls
            | .ok p =>
              if p.range.length ≠ 0 then .error p.calls
              else mapRequests m rest { mapped, target := p.target, calls := p.calls }

/-- `map_memory_at_virtual_address`: whether the region was mapped, and the calls made. -/
def mapMemoryAtVirtualAddress (m : MemoryMap) (address : UInt64) (ranges : List PhysRange)
    (readOnly : Bool) : Bool × List VmCall :=
  match mapRequests vm m ranges { mapped := 0, target := address, calls := [] } with
  | .error calls => (false, calls)
  | .ok s =>
    let calls := s.calls ++ [.protect address s.mapped readOnly]
    (vm.protect calls, calls)

end MemoryMap

/-! ### What the remaps are for -/

/-- A remap, its target as an offset from the base. -/
structure Remap where
  offset : UInt64
  source : UInt64
  length : UInt64
  deriving DecidableEq, Repr

/-- The remaps among the calls. -/
def remaps (base : UInt64) (calls : List VmCall) : List Remap :=
  calls.filterMap fun
    | .remap target source length => some { offset := target - base, source, length }
    | _ => none

/-- The host addresses a remap reads. -/
def Remap.bytes (r : Remap) : List UInt64 :=
  (List.range r.length.toNat).map fun i => r.source + UInt64.ofNat i

/-- The bytes remapped. -/
def remapLength (rs : List Remap) : ℕ := (rs.map fun r => r.length.toNat).sum

/-- The guest physical addresses of a range. -/
def PhysRange.bytes (q : PhysRange) : List ℕ := List.range' q.address.toNat q.length.toNat

/-- The guest physical addresses of a request, in request order. -/
def requestBytes (requests : List PhysRange) : List ℕ := requests.flatMap PhysRange.bytes

/-- The bytes requested. -/
def requestLength (requests : List PhysRange) : ℕ := (requests.map fun q => q.length.toNat).sum

namespace MemoryMap

/-- A guest physical address in the map. -/
def Contains (m : MemoryMap) (x : ℕ) : Prop :=
  ∃ r ∈ m.ranges, r.physicalAddress.toNat ≤ x ∧ x < r.physicalEnd.toNat

/-- The host address of a guest physical byte. -/
def hostByte (m : MemoryMap) (x : ℕ) : UInt64 := m.virtualAddressForPhysical (UInt64.ofNat x) 1

/-- The remaps mirror a request: their targets follow each other from the base, they read the host
addresses of the request's bytes in order, and one ends only with a range of the request or of the
map. -/
structure Mirrors (m : MemoryMap) (requests : List PhysRange) (rs : List Remap) : Prop where
  consecutive : ∀ before r after, rs = before ++ r :: after → r.offset.toNat = remapLength before
  bytes : rs.flatMap Remap.bytes =
    ((requestBytes requests).take (remapLength rs)).map m.hostByte
  splits : ∀ before r after, rs = before ++ r :: after →
    (∃ qs, qs <+: requests ∧ requestLength qs = remapLength (before ++ [r])) ∨
    ∃ s ∈ m.ranges, ∃ x,
      (requestBytes requests)[remapLength (before ++ [r]) - 1]? = some x ∧
        x + 1 = s.physicalEnd.toNat

/-- Every byte of the request is in the map, and none of its ranges is at guest physical 0. -/
def Maps (m : MemoryMap) (requests : List PhysRange) : Prop :=
  (∀ q ∈ requests, q.address ≠ 0) ∧ ∀ x ∈ requestBytes requests, m.Contains x

/-! ### The pieces of a request -/

/-- A piece of a request range, in one range of the map. -/
structure Piece where
  mapRange : MemoryMapRange
  range : PhysRange

/-- The host address of a piece. -/
def Piece.source (p : Piece) : UInt64 :=
  p.mapRange.virtualAddress + p.range.address - p.mapRange.physicalAddress

/-- The pieces of a request range that stops at `stop`, and what is left of it. -/
def cut (stop : UInt64) : List MemoryMapRange → PhysRange → List Piece × PhysRange
  | [], q => ([], q)
  | r :: rest, q =>
    if q.address < r.physicalAddress ∨ q.address ≥ r.physicalEnd then cut stop rest q
    else
      let length := r.physicalEnd - q.address
      if r.physicalEnd < stop then
        let c := cut stop rest { address := r.physicalEnd, length := q.length - length }
        (⟨r, { q with length }⟩ :: c.1, c.2)
      else ([⟨r, q⟩], { q with length := 0 })

/-- The pieces of a request up to a refusal, and whether there is none. -/
def cutAll (m : MemoryMap) : List PhysRange → List Piece × Bool
  | [] => ([], true)
  | q :: rest =>
    if q.address = 0 then ([], false)
    else if q.length = 0 then cutAll m rest
    else
      match checkedAdd q.address q.length with
      | none => ([], false)
      | some stop =>
        let c := cut stop m.ranges q
        if c.2.length ≠ 0 then (c.1, false)
        else (c.1 ++ (cutAll m rest).1, (cutAll m rest).2)

/-- The target after the pieces. -/
def advance (target : UInt64) : List Piece → UInt64
  | [] => target
  | p :: ps => advance (target + p.range.length) ps

/-- The remaps of the pieces. -/
def emit (target : UInt64) : List Piece → List VmCall
  | [] => []
  | p :: ps => .remap target p.source p.range.length :: emit (target + p.range.length) ps

theorem advance_append (target : UInt64) (ps ps' : List Piece) :
    advance target (ps ++ ps') = advance (advance target ps) ps' := by
  induction ps generalizing target with
  | nil => rfl
  | cons p ps ih => exact ih _

theorem emit_append (target : UInt64) (ps ps' : List Piece) :
    emit target (ps ++ ps') = emit target ps ++ emit (advance target ps) ps' := by
  induction ps generalizing target with
  | nil => rfl
  | cons p ps ih => exact congrArg _ (ih _)

theorem requestLength_cons (q : PhysRange) (qs : List PhysRange) :
    requestLength (q :: qs) = q.length.toNat + requestLength qs := List.sum_cons

theorem mapped_add (mapped : UInt64) (q : PhysRange) (qs : List PhysRange) :
    mapped + q.length + UInt64.ofNat (requestLength qs) =
      mapped + UInt64.ofNat (requestLength (q :: qs)) := by
  rw [requestLength_cons, UInt64.ofNat_add, UInt64.ofNat_toNat, UInt64.add_assoc]

section Loops

variable {vm : Vm} (hvm : ∀ calls, vm.remap calls = true)

include hvm

/-- Where every remap succeeds, the inner loop of `new_range_mapping` maps the pieces. -/
theorem newPieces_eq (stop : UInt64) (rs : List MemoryMapRange) (q : PhysRange) (t : UInt64)
    (calls : List VmCall) :
    newPieces vm stop rs ⟨q, t, calls⟩ =
      .ok ⟨(cut stop rs q).2, advance t (cut stop rs q).1, calls ++ emit t (cut stop rs q).1⟩ := by
  induction rs generalizing q t calls with
  | nil => simp [newPieces, cut, advance, emit]
  | cons r rest ih =>
    rw [newPieces, cut]
    dsimp only
    split_ifs with hout hend
    · exact ih q t calls
    · simp [mapPhysicalRange, hvm, ih, advance, emit, Piece.source]
    · simp [mapPhysicalRange, hvm, advance, emit, Piece.source]

/-- And so does that of `map_memory_at_virtual_address`. -/
theorem mapPieces_eq (stop : UInt64) (rs : List MemoryMapRange) (q : PhysRange) (t : UInt64)
    (calls : List VmCall) :
    mapPieces vm stop rs ⟨q, t, calls⟩ =
      .ok ⟨(cut stop rs q).2, advance t (cut stop rs q).1, calls ++ emit t (cut stop rs q).1⟩ := by
  induction rs generalizing q t calls with
  | nil => simp [mapPieces, cut, advance, emit]
  | cons r rest ih =>
    rw [mapPieces, cut]
    dsimp only
    by_cases hout : q.address < r.physicalAddress ∨ q.address ≥ r.physicalEnd
    · rw [if_pos hout, if_pos hout]
      exact ih q t calls
    · rw [if_neg hout, if_neg hout]
      by_cases hend : r.physicalEnd < stop
      · rw [if_neg (UInt64.not_le.mpr hend), if_pos hend]
        simp [mapPhysicalRange, hvm, ih, advance, emit, Piece.source]
      · rw [if_pos (UInt64.not_lt.mp hend), if_neg hend]
        simp [mapPhysicalRange, hvm, advance, emit, Piece.source]

/-- The outer loop of `new_range_mapping`, where the request is no longer than the allocation. -/
theorem newRequests_eq (m : MemoryMap) {total : UInt64} (qs : List PhysRange) {s : Mapped}
    (hfits : s.mapped.toNat + requestLength qs ≤ total.toNat) :
    newRequests vm m total qs s =
      if (cutAll m qs).2 then
        .ok
          { mapped := s.mapped + UInt64.ofNat (requestLength qs)
            target := advance s.target (cutAll m qs).1
            calls := s.calls ++ emit s.target (cutAll m qs).1 }
      else .error (s.calls ++ emit s.target (cutAll m qs).1) := by
  induction qs generalizing s with
  | nil => simp [newRequests, cutAll, requestLength, advance, emit]
  | cons q qs ih =>
    rw [requestLength_cons] at hfits
    have htotal := total.toNat_lt
    have hadd : checkedAdd s.mapped q.length = some (s.mapped + q.length) :=
      checkedAdd_isSome (by omega)
    have hmapped := toNat_of_checkedAdd hadd
    have hle : ¬ s.mapped + q.length > total := by
      rw [gt_iff_lt, UInt64.lt_iff_toNat_lt, hmapped]
      omega
    have hsum := mapped_add s.mapped q qs
    have hrest : (s.mapped + q.length).toNat + requestLength qs ≤ total.toNat := by
      rw [hmapped]
      omega
    rw [newRequests, cutAll, hadd]
    dsimp only
    by_cases hzero : q.address = 0
    · simp [hzero, emit]
    · rw [if_neg hzero, if_neg hle, if_neg hzero]
      by_cases hlength : q.length = 0
      · rw [if_pos hlength, if_pos hlength, ih hrest, hsum]
      · rw [if_neg hlength, if_neg hlength]
        cases checkedAdd q.address q.length with
        | none => simp [emit]
        | some stop =>
          dsimp only
          rw [newPieces_eq hvm]
          dsimp only
          by_cases hleft : (cut stop m.ranges q).2.length = 0
          · simp only [hleft, ne_eq, not_true_eq_false, if_false, advance_append, emit_append]
            rw [ih hrest, hsum, List.append_assoc]
          · simp only [hleft, ne_eq, not_false_eq_true, if_true, Bool.false_eq_true, if_false]

/-- The outer loop of `map_memory_at_virtual_address`, where the request's length is a `u64`. -/
theorem mapRequests_eq (m : MemoryMap) (qs : List PhysRange) {s : Mapped}
    (hfits : s.mapped.toNat + requestLength qs < 2 ^ 64) :
    mapRequests vm m qs s =
      if (cutAll m qs).2 then
        .ok
          { mapped := s.mapped + UInt64.ofNat (requestLength qs)
            target := advance s.target (cutAll m qs).1
            calls := s.calls ++ emit s.target (cutAll m qs).1 }
      else .error (s.calls ++ emit s.target (cutAll m qs).1) := by
  induction qs generalizing s with
  | nil => simp [mapRequests, cutAll, requestLength, advance, emit]
  | cons q qs ih =>
    rw [requestLength_cons] at hfits
    have hadd : checkedAdd s.mapped q.length = some (s.mapped + q.length) :=
      checkedAdd_isSome (by omega)
    have hmapped := toNat_of_checkedAdd hadd
    have hsum := mapped_add s.mapped q qs
    have hrest : (s.mapped + q.length).toNat + requestLength qs < 2 ^ 64 := by
      rw [hmapped]
      omega
    rw [mapRequests, cutAll, hadd]
    dsimp only
    by_cases hzero : q.address = 0
    · simp [hzero, emit]
    · rw [if_neg hzero, if_neg hzero]
      by_cases hlength : q.length = 0
      · rw [if_pos hlength, if_pos hlength, ih hrest, hsum]
      · rw [if_neg hlength, if_neg hlength]
        cases checkedAdd q.address q.length with
        | none => simp [emit]
        | some stop =>
          dsimp only
          rw [mapPieces_eq hvm]
          dsimp only
          by_cases hleft : (cut stop m.ranges q).2.length = 0
          · simp only [hleft, ne_eq, not_true_eq_false, if_false, advance_append, emit_append]
            rw [ih hrest, hsum, List.append_assoc]
          · simp only [hleft, ne_eq, not_false_eq_true, if_true, Bool.false_eq_true, if_false]

end Loops

/-! ### What the pieces are -/

/-- One past a piece's last byte. -/
def Piece.stop (p : Piece) : ℕ := p.range.address.toNat + p.range.length.toNat

/-- The bytes of the pieces. -/
def pieceBytes (ps : List Piece) : List ℕ := ps.flatMap fun p => p.range.bytes

/-- A piece has bytes, and they lie in its range of the map. -/
structure Piece.Lies (p : Piece) (rs : List MemoryMapRange) : Prop where
  mem : p.mapRange ∈ rs
  start : p.mapRange.physicalAddress.toNat ≤ p.range.address.toNat
  stop : p.stop ≤ p.mapRange.physicalEnd.toNat
  nonempty : 0 < p.range.length.toNat

theorem Piece.Lies.cons {p : Piece} {rs : List MemoryMapRange} (h : p.Lies rs)
    (r : MemoryMapRange) : p.Lies (r :: rs) :=
  ⟨List.mem_cons_of_mem r h.mem, h.start, h.stop, h.nonempty⟩

/-- The pieces of a request range and what is left of it: they are its bytes, a piece ends with its
range of the map unless it is the last, and what is left starts outside the map. -/
structure Cut (rs : List MemoryMapRange) (q : PhysRange) (ps : List Piece) (left : PhysRange) :
    Prop where
  bytes : pieceBytes ps ++ left.bytes = q.bytes
  lies : ∀ p ∈ ps, p.Lies rs
  splits : ∀ before p after, ps = before ++ p :: after →
    (after = [] ∧ left.length = 0) ∨ p.stop = p.mapRange.physicalEnd.toNat
  outside : left.length ≠ 0 → ∀ r ∈ rs, ¬ Holds left.address r.toMapRange
  start : q.address.toNat ≤ left.address.toNat

theorem bytes_eq_nil {q : PhysRange} (h : q.length = 0) : q.bytes = [] := by
  rw [PhysRange.bytes, h]
  rfl

theorem mem_bytes {q : PhysRange} {x : ℕ} :
    x ∈ q.bytes ↔ q.address.toNat ≤ x ∧ x < q.address.toNat + q.length.toNat :=
  List.mem_range'_1

/-- A request range before every range of the map has no piece. -/
theorem cut_of_lt {stop : UInt64} {rs : List MemoryMapRange} {q : PhysRange}
    (h : ∀ r ∈ rs, q.address < r.physicalAddress) : cut stop rs q = ([], q) := by
  induction rs with
  | nil => rfl
  | cons r rest ih =>
    rw [List.forall_mem_cons] at h
    rw [cut, if_pos (Or.inl h.1), ih h.2]

/-- A request range that starts in no range of the map is left whole. -/
theorem cut_nil {rs : List MemoryMapRange} {q : PhysRange}
    (h : ∀ r ∈ rs, ¬ Holds q.address r.toMapRange) : Cut rs q [] q where
  bytes := rfl
  lies _ hp := absurd hp List.not_mem_nil
  splits _ _ _ heq :=
    absurd heq.symm (List.append_ne_nil_of_right_ne_nil _ (List.cons_ne_nil _ _))
  outside _ := h
  start := le_rfl

theorem Cut.cons_of_ge {r : MemoryMapRange} {rs : List MemoryMapRange} {q : PhysRange}
    {ps : List Piece} {left : PhysRange} (h : Cut rs q ps left)
    (hge : r.physicalEnd.toNat ≤ q.address.toNat) : Cut (r :: rs) q ps left where
  bytes := h.bytes
  lies p hp := (h.lies p hp).cons r
  splits := h.splits
  outside hleft := by
    rw [List.forall_mem_cons]
    refine ⟨fun hr => ?_, h.outside hleft⟩
    have hlt := UInt64.lt_iff_toNat_lt.mp hr.2
    have hstart := h.start
    omega
  start := h.start

/-- The request range's first piece ends with its range of the map. -/
theorem Cut.cons_split {r : MemoryMapRange} {rs : List MemoryMapRange} {q q' : PhysRange}
    {length : UInt64} {ps : List Piece} {left : PhysRange} (h : Cut rs q' ps left)
    (hlow : r.physicalAddress.toNat ≤ q.address.toNat) (hpos : 0 < length.toNat)
    (hend : q.address.toNat + length.toNat = r.physicalEnd.toNat)
    (haddress : q'.address = r.physicalEnd)
    (hlength : length.toNat + q'.length.toNat = q.length.toNat) :
    Cut (r :: rs) q (⟨r, { q with length }⟩ :: ps) left where
  bytes := by
    have hbytes := h.bytes
    rw [PhysRange.bytes, PhysRange.bytes, haddress, ← hend] at hbytes
    rw [pieceBytes, List.flatMap_cons, List.append_assoc, PhysRange.bytes, PhysRange.bytes,
      PhysRange.bytes]
    change _ ++ (pieceBytes ps ++ _) = _
    rw [hbytes, List.range'_append_1, hlength]
  lies := by
    rw [List.forall_mem_cons]
    exact ⟨⟨List.mem_cons_self, hlow, hend.le, hpos⟩, fun p hp => (h.lies p hp).cons r⟩
  splits before p after heq := by
    rcases List.cons_eq_append_iff.mp heq with ⟨rfl, hcons⟩ | ⟨before', rfl, hps⟩
    · obtain ⟨rfl, rfl⟩ := List.cons.inj hcons
      exact .inr hend
    · exact h.splits before' p after hps
  outside hleft := by
    rw [List.forall_mem_cons]
    refine ⟨fun hr => ?_, h.outside hleft⟩
    have hlt := UInt64.lt_iff_toNat_lt.mp hr.2
    have hstart := h.start
    rw [haddress] at hstart
    omega
  start := by
    have hstart := h.start
    rw [haddress] at hstart
    omega

theorem toNat_sub_of_le {x y : UInt64} (h : y.toNat ≤ x.toNat) :
    (x - y).toNat = x.toNat - y.toNat := UInt64.toNat_sub_of_le _ _ (UInt64.le_iff_toNat_le.mpr h)

/-- The pieces of a request range by the ranges of a map. -/
theorem cut_spec {stop : UInt64} {rs : List MemoryMapRange} (hordered : Ordered rs)
    (hends : Ends rs) {q : PhysRange} (hstop : q.address.toNat + q.length.toNat = stop.toNat)
    (hlength : 0 < q.length.toNat) :
    Cut rs q (cut stop rs q).1 (cut stop rs q).2 := by
  induction rs generalizing q with
  | nil => exact cut_nil fun r hr => absurd hr List.not_mem_nil
  | cons r rest ih =>
    rw [Ordered, List.pairwise_cons] at hordered
    rw [Ends, List.forall_mem_cons] at hends
    by_cases hbelow : q.address < r.physicalAddress
    · -- the ranges after this one start no earlier
      have hlt : ∀ s ∈ r :: rest, q.address < s.physicalAddress := by
        rw [List.forall_mem_cons]
        refine ⟨hbelow, fun s hs => ?_⟩
        have hafter := hordered.1 s hs
        rw [UInt64.lt_iff_toNat_lt] at hbelow ⊢
        omega
      rw [cut_of_lt hlt]
      exact cut_nil fun s hs hheld => absurd (hlt s hs) (UInt64.not_lt.mpr hheld.1)
    · rw [UInt64.lt_iff_toNat_lt] at hbelow
      by_cases habove : q.address ≥ r.physicalEnd
      · rw [cut, if_pos (Or.inr habove)]
        exact (ih hordered.2 hends.2 hstop hlength).cons_of_ge (UInt64.le_iff_toNat_le.mp habove)
      · have hin : ¬ (q.address < r.physicalAddress ∨ q.address ≥ r.physicalEnd) := by
          rw [UInt64.lt_iff_toNat_lt]
          exact fun h => h.elim hbelow habove
        have hend : q.address.toNat < r.physicalEnd.toNat := by
          rw [ge_iff_le, UInt64.le_iff_toNat_le] at habove
          omega
        have hsub := toNat_sub_of_le (Nat.le_of_lt hend)
        rw [cut, if_neg hin]
        dsimp only
        split_ifs with hsplit
        · rw [UInt64.lt_iff_toNat_lt] at hsplit
          have hrest : (q.length - (r.physicalEnd - q.address)).toNat =
              q.length.toNat - (r.physicalEnd.toNat - q.address.toNat) := by
            rw [toNat_sub_of_le, hsub]
            rw [hsub]
            omega
          refine Cut.cons_split (ih hordered.2 hends.2 ?_ ?_) (Nat.le_of_not_lt hbelow) ?_ ?_ rfl ?_
          · change r.physicalEnd.toNat + (q.length - (r.physicalEnd - q.address)).toNat = _
            rw [hrest]
            omega
          · rw [hrest]
            omega
          · rw [hsub]
            omega
          · rw [hsub]
            omega
          · rw [hrest, hsub]
            omega
        · rw [UInt64.lt_iff_toNat_lt] at hsplit
          refine ⟨?_, ?_, ?_, fun hleft => absurd rfl hleft, le_rfl⟩
          · rw [bytes_eq_nil (q := { q with length := 0 }) rfl, pieceBytes, List.flatMap_singleton,
              List.append_nil]
          · rw [List.forall_mem_singleton]
            refine ⟨List.mem_cons_self, Nat.le_of_not_lt hbelow, ?_, hlength⟩
            rw [Piece.stop]
            dsimp only
            omega
          · intro before p after h
            rw [List.singleton_eq_append_iff] at h
            obtain ⟨rfl, h⟩ | ⟨-, h⟩ := h
            · exact .inl ⟨(List.cons.inj h).2, rfl⟩
            · cases h

/-! ### The pieces of a whole request -/

theorem contains_of_lies {m : MemoryMap} {p : Piece} (h : p.Lies m.ranges) {x : ℕ}
    (hx : x ∈ p.range.bytes) : m.Contains x := by
  have hstart := h.start
  have hstop := h.stop
  rw [Piece.stop] at hstop
  rw [mem_bytes] at hx
  exact ⟨p.mapRange, h.mem, by omega, by omega⟩

/-- What is left of a request range is what is not in the map. -/
theorem Cut.left_eq_zero_iff {m : MemoryMap} {q : PhysRange} {ps : List Piece} {left : PhysRange}
    (h : Cut m.ranges q ps left) : left.length = 0 ↔ ∀ x ∈ q.bytes, m.Contains x := by
  constructor
  · intro hleft x hx
    rw [← h.bytes, bytes_eq_nil hleft, List.append_nil] at hx
    obtain ⟨p, hp, hx⟩ := List.mem_flatMap.mp hx
    exact contains_of_lies (h.lies p hp) hx
  · intro hall
    by_contra hleft
    have hpos : 0 < left.length.toNat :=
      Nat.pos_of_ne_zero fun hzero => hleft (UInt64.toNat_inj.mp hzero)
    have hmem : left.address.toNat ∈ q.bytes := by
      rw [← h.bytes]
      exact List.mem_append_right _ (mem_bytes.mpr ⟨le_rfl, by omega⟩)
    obtain ⟨r, hr, hlow, hhigh⟩ := hall _ hmem
    exact h.outside hleft r hr
      ⟨UInt64.le_iff_toNat_le.mpr hlow, UInt64.lt_iff_toNat_lt.mpr hhigh⟩

/-- The pieces of a request, and whether it is refused. -/
structure CutAll (m : MemoryMap) (qs : List PhysRange) (ps : List Piece) (ok : Bool) : Prop where
  bytes : pieceBytes ps <+: requestBytes qs
  whole : ok = true → pieceBytes ps = requestBytes qs
  lies : ∀ p ∈ ps, p.Lies m.ranges
  splits : ∀ before p after, ps = before ++ p :: after →
    (∃ qs', qs' <+: qs ∧ requestBytes qs' = pieceBytes (before ++ [p])) ∨
      p.stop = p.mapRange.physicalEnd.toNat
  ok_iff : ok = true ↔ m.Maps qs

theorem not_maps_of_not_contains {m : MemoryMap} {q : PhysRange} {qs : List PhysRange} {x : ℕ}
    (hx : x ∈ q.bytes) (hout : ¬ m.Contains x) : ¬ m.Maps (q :: qs) := by
  intro h
  refine hout (h.2 x ?_)
  rw [requestBytes, List.flatMap_cons]
  exact List.mem_append_left _ hx

theorem maps_cons {m : MemoryMap} {q : PhysRange} {qs : List PhysRange} :
    m.Maps (q :: qs) ↔ q.address ≠ 0 ∧ (∀ x ∈ q.bytes, m.Contains x) ∧ m.Maps qs := by
  rw [Maps, Maps, List.forall_mem_cons, requestBytes, List.flatMap_cons, List.forall_mem_append]
  tauto

/-- A request refused before any of its bytes is cut. -/
theorem cutAll_refused {m : MemoryMap} {qs : List PhysRange} (h : ¬ m.Maps qs) :
    CutAll m qs [] false where
  bytes := List.nil_prefix
  whole hok := absurd hok Bool.false_ne_true
  lies _ hp := absurd hp List.not_mem_nil
  splits _ _ _ heq :=
    absurd heq.symm (List.append_ne_nil_of_right_ne_nil _ (List.cons_ne_nil _ _))
  ok_iff := ⟨fun hok => absurd hok Bool.false_ne_true, fun hmaps => absurd hmaps h⟩

/-- An empty range of the request is passed over. -/
theorem CutAll.cons_empty {m : MemoryMap} {q : PhysRange} {qs : List PhysRange} {ps : List Piece}
    {ok : Bool} (h : CutAll m qs ps ok) (haddress : q.address ≠ 0) (hlength : q.length = 0) :
    CutAll m (q :: qs) ps ok := by
  have hbytes : ∀ qs', requestBytes (q :: qs') = requestBytes qs' := fun qs' => by
    rw [requestBytes, List.flatMap_cons, bytes_eq_nil hlength]
    rfl
  refine ⟨?_, ?_, h.lies, fun before p after heq => ?_, ?_⟩
  · rw [hbytes]
    exact h.bytes
  · rw [hbytes]
    exact h.whole
  · obtain ⟨qs', hqs', hlengths⟩ | hstop := h.splits before p after heq
    · exact .inl ⟨q :: qs', (List.prefix_cons_inj q).mpr hqs', (hbytes qs').trans hlengths⟩
    · exact .inr hstop
  · rw [maps_cons, bytes_eq_nil hlength, h.ok_iff]
    exact ⟨fun hmaps => ⟨haddress, fun x hx => absurd hx List.not_mem_nil, hmaps⟩,
      fun hmaps => hmaps.2.2⟩

/-- A range of the request that is partly outside the map ends the walk. -/
theorem Cut.cutAll_refused {m : MemoryMap} {q left : PhysRange} {qs : List PhysRange}
    {ps : List Piece} (h : Cut m.ranges q ps left) (hleft : left.length ≠ 0) :
    CutAll m (q :: qs) ps false where
  bytes := by
    rw [requestBytes, List.flatMap_cons, ← h.bytes, List.append_assoc]
    exact List.prefix_append _ _
  whole hok := absurd hok Bool.false_ne_true
  lies := h.lies
  splits before p after heq := by
    obtain ⟨-, hzero⟩ | hstop := h.splits before p after heq
    · exact absurd hzero hleft
    · exact .inr hstop
  ok_iff := by
    rw [maps_cons, ← h.left_eq_zero_iff]
    exact ⟨fun hok => absurd hok Bool.false_ne_true, fun hmaps => absurd hmaps.2.1 hleft⟩

/-- A range of the request in the map, before the rest. -/
theorem CutAll.cons {m : MemoryMap} {q left : PhysRange} {qs : List PhysRange}
    {ps ps' : List Piece} {ok : Bool} (h : CutAll m qs ps' ok) (hq : Cut m.ranges q ps left)
    (haddress : q.address ≠ 0) (hleft : left.length = 0) :
    CutAll m (q :: qs) (ps ++ ps') ok := by
  have hbytes : pieceBytes ps = q.bytes := by
    rw [← hq.bytes, bytes_eq_nil hleft, List.append_nil]
  have happend : ∀ ps', pieceBytes (ps ++ ps') = q.bytes ++ pieceBytes ps' := fun ps' => by
    rw [← hbytes]
    exact List.flatMap_append
  refine ⟨?_, fun hok => ?_, ?_, fun before p after heq => ?_, ?_⟩
  · rw [happend]
    exact (List.prefix_append_right_inj _).mpr h.bytes
  · rw [happend, h.whole hok]
    rfl
  · rw [List.forall_mem_append]
    exact ⟨hq.lies, h.lies⟩
  · rcases List.append_eq_append_iff.mp heq with ⟨before', rfl, hps'⟩ | ⟨rest, hps, hrest⟩
    · obtain ⟨qs', hqs', hlengths⟩ | hstop := h.splits before' p after hps'
      · refine .inl ⟨q :: qs', (List.prefix_cons_inj q).mpr hqs', ?_⟩
        rw [List.append_assoc, happend, ← hlengths]
        rfl
      · exact .inr hstop
    · rcases List.cons_eq_append_iff.mp hrest with ⟨rfl, hps'⟩ | ⟨after', rfl, -⟩
      · obtain ⟨qs', hqs', hlengths⟩ | hstop := h.splits [] p after hps'
        · refine .inl ⟨q :: qs', (List.prefix_cons_inj q).mpr hqs', ?_⟩
          rw [List.append_nil] at hps
          rw [← hps, happend, ← List.nil_append [p], ← hlengths]
          rfl
        · exact .inr hstop
      · obtain ⟨rfl, -⟩ | hstop := hq.splits before p after' hps
        · refine .inl ⟨[q], List.prefix_cons_inj q |>.mpr List.nil_prefix, ?_⟩
          rw [← hps, hbytes]
          exact List.append_nil _
        · exact .inr hstop
  · rw [maps_cons, ← hq.left_eq_zero_iff, h.ok_iff]
    exact ⟨fun hmaps => ⟨haddress, hleft, hmaps⟩, fun hmaps => hmaps.2.2⟩

theorem cutAll_spec (m : MemoryMap) (qs : List PhysRange) :
    CutAll m qs (cutAll m qs).1 (cutAll m qs).2 := by
  induction qs with
  | nil =>
    refine ⟨List.nil_prefix, fun _ => rfl, fun p hp => absurd hp List.not_mem_nil,
      fun before p after h => ?_, fun _ => ⟨fun q hq => ?_, fun x hx => ?_⟩, fun _ => rfl⟩
    · exact absurd h.symm (List.append_ne_nil_of_right_ne_nil _ (List.cons_ne_nil _ _))
    · exact absurd hq List.not_mem_nil
    · exact absurd hx List.not_mem_nil
  | cons q qs ih =>
    rw [cutAll]
    by_cases hzero : q.address = 0
    · rw [if_pos hzero]
      exact MemoryMap.cutAll_refused fun hmaps => (maps_cons.mp hmaps).1 hzero
    rw [if_neg hzero]
    by_cases hlength : q.length = 0
    · rw [if_pos hlength]
      exact ih.cons_empty hzero hlength
    rw [if_neg hlength]
    have hpos : 0 < q.length.toNat :=
      Nat.pos_of_ne_zero fun h => hlength (UInt64.toNat_inj.mp h)
    cases hstop : checkedAdd q.address q.length with
    | none =>
      -- no range of the map reaches the last address
      refine MemoryMap.cutAll_refused (not_maps_of_not_contains (x := 2 ^ 64 - 1) ?_ ?_)
      · rw [checkedAdd] at hstop
        split_ifs at hstop with hlt
        have haddress := q.address.toNat_lt
        exact mem_bytes.mpr ⟨by omega, by omega⟩
      · rintro ⟨r, -, -, hlt⟩
        have hend := r.physicalEnd.toNat_lt
        omega
    | some stop =>
      obtain ⟨hordered, hends⟩ := m.ordered
      have hcut := cut_spec hordered hends (toNat_of_checkedAdd hstop).symm hpos
      dsimp only
      by_cases hleft : (cut stop m.ranges q).2.length = 0
      · rw [if_neg (not_not.mpr hleft)]
        exact ih.cons hcut hzero hleft
      · rw [if_pos hleft]
        exact hcut.cutAll_refused hleft

/-! ### The remaps of the pieces -/

/-- The remaps of the pieces, from an offset. -/
def place (offset : UInt64) : List Piece → List Remap
  | [] => []
  | p :: ps =>
    { offset, source := p.source, length := p.range.length } :: place (offset + p.range.length) ps

theorem remaps_emit (base target : UInt64) (ps : List Piece) :
    remaps base (emit target ps) = place (target - base) ps := by
  induction ps generalizing target with
  | nil => rfl
  | cons p ps ih =>
    change _ :: remaps base (emit (target + p.range.length) ps) = _ :: place _ ps
    have hoffset : target + p.range.length - base = target - base + p.range.length := by grind
    rw [ih, hoffset]

theorem remaps_append (base : UInt64) (calls calls' : List VmCall) :
    remaps base (calls ++ calls') = remaps base calls ++ remaps base calls' :=
  List.filterMap_append

theorem length_bytes (q : PhysRange) : q.bytes.length = q.length.toNat := List.length_range'

theorem remapLength_place (offset : UInt64) (ps : List Piece) :
    remapLength (place offset ps) = (pieceBytes ps).length := by
  induction ps generalizing offset with
  | nil => rfl
  | cons p ps ih =>
    rw [pieceBytes, List.flatMap_cons, List.length_append, length_bytes]
    exact congrArg (p.range.length.toNat + ·) (ih _)

theorem length_requestBytes (qs : List PhysRange) :
    (requestBytes qs).length = requestLength qs := by
  induction qs with
  | nil => rfl
  | cons q qs ih =>
    rw [requestBytes, List.flatMap_cons, List.length_append, length_bytes, requestLength_cons, ← ih]
    rfl

/-- A remap among the remaps of the pieces is that of one of the pieces. -/
theorem place_eq_append {offset : UInt64} {ps : List Piece} {before after : List Remap} {r : Remap}
    (h : place offset ps = before ++ r :: after) :
    ∃ before' p after', ps = before' ++ p :: after' ∧ before = place offset before' ∧
      r = { offset := advance offset before', source := p.source, length := p.range.length } := by
  induction ps generalizing offset before with
  | nil => exact absurd h.symm (List.append_ne_nil_of_right_ne_nil _ (List.cons_ne_nil _ _))
  | cons p ps ih =>
    rcases List.cons_eq_append_iff.mp h with ⟨rfl, hcons⟩ | ⟨before', rfl, hps⟩
    · obtain ⟨rfl, -⟩ := List.cons.inj hcons
      exact ⟨[], p, ps, rfl, rfl, rfl⟩
    · obtain ⟨before', q, after', rfl, rfl, rfl⟩ := ih hps
      exact ⟨p :: before', q, after', rfl, rfl, rfl⟩

theorem place_append (offset : UInt64) (ps ps' : List Piece) :
    place offset (ps ++ ps') = place offset ps ++ place (advance offset ps) ps' := by
  induction ps generalizing offset with
  | nil => rfl
  | cons p ps ih => exact congrArg _ (ih _)

theorem toNat_advance {offset : UInt64} {ps : List Piece}
    (h : offset.toNat + (pieceBytes ps).length < 2 ^ 64) :
    (advance offset ps).toNat = offset.toNat + (pieceBytes ps).length := by
  induction ps generalizing offset with
  | nil => rfl
  | cons p ps ih =>
    have hlength : (pieceBytes (p :: ps)).length = p.range.length.toNat + (pieceBytes ps).length := by
      rw [pieceBytes, List.flatMap_cons, List.length_append, length_bytes]
      rfl
    rw [hlength] at h ⊢
    have hadd : (offset + p.range.length).toNat = offset.toNat + p.range.length.toNat := by
      rw [UInt64.toNat_add]
      exact Nat.mod_eq_of_lt (by omega)
    rw [advance, ih (by rw [hadd]; omega), hadd]
    omega

/-- The host address of a byte in a range of the map. -/
theorem hostByte_of_mem {m : MemoryMap} {r : MemoryMapRange} (hr : r ∈ m.ranges) {x : ℕ}
    (hlow : r.physicalAddress.toNat ≤ x) (hhigh : x < r.physicalEnd.toNat) :
    m.hostByte x = UInt64.ofNat x - r.physicalAddress + r.virtualAddress := by
  have hend := r.physicalEnd.toNat_lt
  have hx : (UInt64.ofNat x).toNat = x := UInt64.toNat_ofNat_of_lt' (hhigh.trans hend)
  have hsum : (UInt64.ofNat x).toNat + (1 : UInt64).toNat < 2 ^ 64 := by
    rw [hx]
    change x + 1 < _
    omega
  have hpast : ¬ UInt64.ofNat x + 1 > r.physicalEnd := by
    rw [gt_iff_lt, UInt64.lt_iff_toNat_lt, UInt64.toNat_add, Nat.mod_eq_of_lt hsum, hx]
    exact Nat.not_lt.mpr hhigh
  have hholds : Holds (UInt64.ofNat x) r.toMapRange := by
    refine ⟨?_, ?_⟩
    · rw [UInt64.le_iff_toNat_le, hx]
      exact hlow
    · rw [UInt64.lt_iff_toNat_lt, hx]
      exact hhigh
  rw [hostByte, MemoryMap.virtualAddressForPhysical, Memory.virtualAddressForPhysical,
    if_neg (Nat.not_le.mpr hsum), m.ordered.1.find_eq hr hholds]
  dsimp only
  rw [if_neg hpast]

/-- A piece's remap reads the host addresses of its bytes. -/
theorem bytes_of_lies {m : MemoryMap} {p : Piece} (h : p.Lies m.ranges) (offset : UInt64) :
    Remap.bytes { offset, source := p.source, length := p.range.length } =
      p.range.bytes.map m.hostByte := by
  rw [Remap.bytes, PhysRange.bytes, List.range'_eq_map_range, List.map_map]
  refine List.map_congr_left fun i hi => ?_
  have hstart := h.start
  have hstop := h.stop
  rw [Piece.stop] at hstop
  replace hi : i < p.range.length.toNat := List.mem_range.mp hi
  rw [Function.comp_apply, hostByte_of_mem h.mem (by omega) (by omega), Piece.source,
    UInt64.ofNat_add, UInt64.ofNat_toNat]
  grind

theorem place_bytes {m : MemoryMap} {ps : List Piece} (h : ∀ p ∈ ps, p.Lies m.ranges)
    (offset : UInt64) :
    (place offset ps).flatMap Remap.bytes = (pieceBytes ps).map m.hostByte := by
  induction ps generalizing offset with
  | nil => rfl
  | cons p ps ih =>
    rw [List.forall_mem_cons] at h
    rw [place, List.flatMap_cons, bytes_of_lies h.1, ih h.2, ← List.map_append]
    rfl

/-- The remaps of a request's pieces mirror it. -/
theorem CutAll.mirrors {m : MemoryMap} {qs : List PhysRange} {ps : List Piece} {ok : Bool}
    (h : CutAll m qs ps ok) (hlength : requestLength qs < 2 ^ 64) :
    Mirrors m qs (place 0 ps) where
  consecutive before r after heq := by
    obtain ⟨before', p, after', rfl, rfl, rfl⟩ := place_eq_append heq
    have hle := h.bytes.length_le
    rw [length_requestBytes, pieceBytes, List.flatMap_append, List.length_append] at hle
    rw [remapLength_place, toNat_advance]
    · exact Nat.zero_add _
    · change 0 + (List.flatMap _ before').length < _
      omega
  bytes := by
    rw [place_bytes h.lies, remapLength_place]
    exact congrArg _ (List.prefix_iff_eq_take.mp h.bytes)
  splits before r after heq := by
    obtain ⟨before', p, after', hps, rfl, rfl⟩ := place_eq_append heq
    have hplace : place 0 before' ++ [⟨advance 0 before', p.source, p.range.length⟩] =
        place 0 (before' ++ [p]) := by
      rw [place_append]
      rfl
    rw [hplace, remapLength_place]
    obtain ⟨qs', hqs', hlengths⟩ | hstop := h.splits before' p after' hps
    · refine .inl ⟨qs', hqs', ?_⟩
      rw [← length_requestBytes, hlengths]
    · have hlies := h.lies p (hps ▸ List.mem_append_right _ List.mem_cons_self)
      have hnonempty := hlies.nonempty
      have hprefix : pieceBytes before' ++ p.range.bytes <+: requestBytes qs := by
        refine List.IsPrefix.trans ?_ h.bytes
        rw [hps, pieceBytes, pieceBytes, List.flatMap_append, List.flatMap_cons, ← List.append_assoc]
        exact List.prefix_append _ _
      have hbytes : pieceBytes (before' ++ [p]) = pieceBytes before' ++ p.range.bytes := by
        rw [pieceBytes, List.flatMap_append, List.flatMap_singleton]
        rfl
      have hlast : (pieceBytes before' ++ p.range.bytes)[
          (pieceBytes before' ++ p.range.bytes).length - 1]? = some (p.stop - 1) := by
        rw [← List.getLast?_eq_getElem?, List.getLast?_append, PhysRange.bytes, List.getLast?_range',
          if_neg (Nat.ne_of_gt hnonempty)]
        rfl
      refine .inr ⟨p.mapRange, hlies.mem, p.stop - 1, ?_, ?_⟩
      · rw [hbytes]
        obtain ⟨rest, hrest⟩ := hprefix
        rw [← hrest, List.getElem?_append_left]
        · exact hlast
        · exact List.getElem?_eq_some_iff.mp hlast |>.1
      · rw [← hstop, Piece.stop]
        omega

/-! ### Refusals -/

/-- What the calls deallocate. -/
def frees (calls : List VmCall) : List (UInt64 × UInt64) :=
  calls.filterMap fun
    | .deallocate address length => some (address, length)
    | _ => none

/-- The calls a loop ends with. -/
def ended {α : Type} (calls : α → List VmCall) : Except (List VmCall) α → List VmCall
  | .error c => c
  | .ok s => calls s

theorem frees_append (calls calls' : List VmCall) :
    frees (calls ++ calls') = frees calls ++ frees calls' := List.filterMap_append

theorem frees_mapPhysicalRange (vm : Vm) (r : MemoryMapRange) (address length target : UInt64)
    (calls : List VmCall) :
    frees (mapPhysicalRange vm r address length target calls).2 = frees calls := by
  rw [mapPhysicalRange, frees_append]
  exact List.append_nil _

theorem frees_newPieces (vm : Vm) (stop : UInt64) (rs : List MemoryMapRange) (p : Pieces) :
    frees (ended Pieces.calls (newPieces vm stop rs p)) = frees p.calls := by
  induction rs generalizing p with
  | nil => rfl
  | cons r rest ih =>
    rw [newPieces]
    dsimp only
    split_ifs with hout hend
    · exact ih p
    · have hfrees := frees_mapPhysicalRange vm r p.range.address (r.physicalEnd - p.range.address)
        p.target p.calls
      cases hmap : mapPhysicalRange vm r p.range.address (r.physicalEnd - p.range.address)
        p.target p.calls with
      | mk done calls =>
        rw [hmap] at hfrees
        cases done with
        | false => exact hfrees
        | true => exact (ih _).trans hfrees
    · have hfrees := frees_mapPhysicalRange vm r p.range.address p.range.length p.target p.calls
      cases hmap : mapPhysicalRange vm r p.range.address p.range.length p.target p.calls with
      | mk done calls =>
        rw [hmap] at hfrees
        cases done with
        | false => exact hfrees
        | true => exact hfrees

theorem frees_newRequests (vm : Vm) (m : MemoryMap) (total : UInt64) (qs : List PhysRange)
    (s : Mapped) :
    frees (ended Mapped.calls (newRequests vm m total qs s)) = frees s.calls := by
  induction qs generalizing s with
  | nil => rfl
  | cons q qs ih =>
    rw [newRequests]
    by_cases hzero : q.address = 0
    · rw [if_pos hzero]
      rfl
    rw [if_neg hzero]
    cases checkedAdd s.mapped q.length with
    | none => rfl
    | some mapped =>
      dsimp only
      by_cases hmore : mapped > total
      · rw [if_pos hmore]
        rfl
      rw [if_neg hmore]
      by_cases hlength : q.length = 0
      · rw [if_pos hlength]
        exact ih _
      rw [if_neg hlength]
      cases checkedAdd q.address q.length with
      | none => rfl
      | some stop =>
        have hfrees := frees_newPieces vm stop m.ranges
          { range := q, target := s.target, calls := s.calls }
        dsimp only
        cases hpieces : newPieces vm stop m.ranges
          { range := q, target := s.target, calls := s.calls } with
        | error calls =>
          rw [hpieces] at hfrees
          exact hfrees
        | ok p =>
          rw [hpieces] at hfrees
          dsimp only
          by_cases hleft : p.range.length = 0
          · rw [if_neg (not_not.mpr hleft)]
            exact (ih _).trans hfrees
          · rw [if_pos hleft]
            exact hfrees

/-- A refusal after the allocation deallocates it, and nothing else. -/
theorem frees_of_refused {vm : Vm} {a : Arch} {m : MemoryMap} {requests : List PhysRange}
    {total address : UInt64} {readOnly : UInt32} {calls : List VmCall}
    (h : newRangeMapping vm a m requests total readOnly = .refused calls)
    (haddress : vm.allocate total = some address) : frees calls = [(address, total)] := by
  have hfrees := frees_newRequests vm m total requests
    { mapped := 0, target := address, calls := [.allocate total] }
  rw [newRangeMapping] at h
  split_ifs at h with haligned
  rw [haddress] at h
  dsimp only at h
  cases hrequests : newRequests vm m total requests
    { mapped := 0, target := address, calls := [.allocate total] } with
  | error calls' =>
    rw [hrequests] at h hfrees
    obtain rfl := MappingOutcome.refused.inj h
    rw [frees_append]
    exact congrArg (· ++ _) hfrees
  | ok s =>
    rw [hrequests] at h hfrees
    dsimp only at h
    split_ifs at h with hshort
    obtain rfl := MappingOutcome.refused.inj h
    rw [frees_append]
    exact congrArg (· ++ _) hfrees

/-! ### Both functions -/

/-- The remaps of `map_memory_at_virtual_address`, and whether it succeeds. -/
theorem mapMemoryAtVirtualAddress_spec {vm : Vm} (hvm : ∀ calls, vm.remap calls = true)
    (m : MemoryMap) (requests : List PhysRange) (hlength : requestLength requests < 2 ^ 64)
    (address : UInt64) (readOnly : Bool) :
    remaps address (mapMemoryAtVirtualAddress vm m address requests readOnly).2 =
      place 0 (cutAll m requests).1 ∧
    ((∀ calls, vm.protect calls = true) →
      ((mapMemoryAtVirtualAddress vm m address requests readOnly).1 = true ↔ m.Maps requests)) := by
  have hok := (cutAll_spec m requests).ok_iff
  have hremaps : remaps address (emit address (cutAll m requests).1) =
      place 0 (cutAll m requests).1 := by
    rw [remaps_emit, UInt64.sub_self]
  rw [mapMemoryAtVirtualAddress, mapRequests_eq hvm m requests (by simpa using hlength)]
  cases hcut : (cutAll m requests).2 with
  | true =>
    rw [if_pos rfl]
    dsimp only
    refine ⟨?_, fun hprotect => ?_⟩
    · rw [remaps_append, List.nil_append, hremaps]
      exact List.append_nil _
    · rw [hprotect]
      exact ⟨fun _ => hok.mp hcut, fun _ => rfl⟩
  | false =>
    rw [if_neg Bool.false_ne_true]
    dsimp only
    refine ⟨?_, fun _ => ?_⟩
    · rw [List.nil_append, hremaps]
    · rw [← hok, hcut]

/-- The remaps of `new_range_mapping`, and whether it succeeds. -/
theorem newRangeMapping_spec {vm : Vm} (hvm : ∀ calls, vm.remap calls = true) {a : Arch}
    (m : MemoryMap) (requests : List PhysRange) {total base : UInt64}
    (hlength : requestLength requests = total.toNat) (haligned : total % pageSize a = 0)
    (hbase : vm.allocate total = some base) (readOnly : UInt32) :
    remaps base (newRangeMapping vm a m requests total readOnly).calls =
      place 0 (cutAll m requests).1 ∧
    ((∃ mapping calls, newRangeMapping vm a m requests total readOnly = .made mapping calls) ↔
      m.Maps requests) := by
  have hok := (cutAll_spec m requests).ok_iff
  have hremaps : remaps base (emit base (cutAll m requests).1) =
      place 0 (cutAll m requests).1 := by
    rw [remaps_emit, UInt64.sub_self]
  have htotal : (0 : UInt64) + UInt64.ofNat (requestLength requests) = total := by
    rw [UInt64.zero_add, hlength, UInt64.ofNat_toNat]
  rw [newRangeMapping, if_neg (not_not.mpr haligned), hbase]
  dsimp only
  rw [newRequests_eq hvm m requests (by simpa using hlength.le)]
  cases hcut : (cutAll m requests).2 with
  | true =>
    rw [if_pos rfl]
    dsimp only
    rw [if_neg (not_not.mpr htotal)]
    refine ⟨?_, fun _ => hok.mp hcut, fun _ => ⟨_, _, rfl⟩⟩
    rw [MappingOutcome.calls]
    split_ifs with hprotect
    · rw [remaps_append, remaps_append, hremaps]
      exact List.append_nil _
    · rw [remaps_append, remaps_append, remaps_append, hremaps]
      exact (List.append_nil _).trans (List.append_nil _)
  | false =>
    rw [if_neg Bool.false_ne_true]
    refine ⟨?_, fun hmade => ?_, fun hmaps => ?_⟩
    · rw [MappingOutcome.calls, remaps_append, remaps_append, hremaps]
      exact List.append_nil _
    · obtain ⟨mapping, calls, hmade⟩ := hmade
      cases hmade
    · rw [hok.mpr hmaps] at hcut
      cases hcut

/-- Where every remap succeeds, both functions issue the same remaps of a request, relative to their
base; the remaps mirror the request, and the functions succeed where it is in the map. Whatever
fails, a refusal of `new_range_mapping` after its allocation deallocates that, once. -/
theorem remaps_mirror (a : Arch) (vm : Vm) (m : MemoryMap) (requests : List PhysRange)
    (total : UInt64) (hlength : requestLength requests = total.toNat) (readOnly : UInt32) :
    ((∀ calls, vm.remap calls = true) →
      ∃ rs, Mirrors m requests rs ∧ (m.Maps requests → remapLength rs = total.toNat) ∧
        (∀ address protectReadOnly,
          remaps address (mapMemoryAtVirtualAddress vm m address requests protectReadOnly).2 = rs ∧
          ((∀ calls, vm.protect calls = true) →
            ((mapMemoryAtVirtualAddress vm m address requests protectReadOnly).1 = true ↔
              m.Maps requests))) ∧
        ∀ base, total % pageSize a = 0 → vm.allocate total = some base →
          remaps base (newRangeMapping vm a m requests total readOnly).calls = rs ∧
          ((∃ mapping calls,
              newRangeMapping vm a m requests total readOnly = .made mapping calls) ↔
            m.Maps requests)) ∧
    ∀ calls address, newRangeMapping vm a m requests total readOnly = .refused calls →
      vm.allocate total = some address → frees calls = [(address, total)] := by
  refine ⟨fun hvm => ?_, fun calls address h haddress => frees_of_refused h haddress⟩
  have hcut := cutAll_spec m requests
  have hlt : requestLength requests < 2 ^ 64 := by
    rw [hlength]
    exact total.toNat_lt
  refine ⟨place 0 (cutAll m requests).1, hcut.mirrors hlt, fun hmaps => ?_, ?_, ?_⟩
  · rw [remapLength_place, hcut.whole (hcut.ok_iff.mpr hmaps), length_requestBytes, hlength]
  · exact fun address protectReadOnly =>
      mapMemoryAtVirtualAddress_spec hvm m requests hlt address protectReadOnly
  · exact fun base haligned hbase =>
      newRangeMapping_spec hvm m requests hlength haligned hbase readOnly

/-- Two ranges of guest memory, one after the other, at unrelated host addresses. -/
def twoRanges : MemoryMap where
  ranges :=
    [⟨⟨0x4000, 0x8000, 0x10000⟩, 0x4000⟩, ⟨⟨0x8000, 0xc000, 0x30000⟩, 0x4000⟩]
  accepted := ⟨[⟨0x4000, 0x4000, 0x10000⟩, ⟨0x8000, 0x4000, 0x30000⟩], rfl⟩

/-- Every call succeeds, and allocations are at one address. -/
def alwaysVm : Vm := ⟨fun _ => some 0x70000, fun _ => true, fun _ => true⟩

/-- A request over both ranges is mapped. -/
theorem twoRanges_mapped :
    (∃ mapping calls, newRangeMapping alwaysVm .other twoRanges [⟨0x4000, 0x8000⟩] 0x8000 0 =
      .made mapping calls) := by
  obtain ⟨rs, -, -, -, hnew⟩ :=
    (remaps_mirror .other alwaysVm twoRanges [⟨0x4000, 0x8000⟩] 0x8000 rfl 0).1 fun _ => rfl
  refine (hnew 0x70000 rfl rfl).2.mpr ⟨by decide, fun x hx => ?_⟩
  rw [requestBytes, List.flatMap_singleton, mem_bytes] at hx
  by_cases hlow : x < 0x8000
  · exact ⟨_, List.mem_cons_self, hx.1, hlow⟩
  · exact ⟨_, List.mem_cons_of_mem _ List.mem_cons_self, Nat.le_of_not_lt hlow, hx.2⟩

/-- Guest memory at guest physical 0. -/
def zeroRange : MemoryMap where
  ranges := [⟨⟨0, 0x4000, 0x10000⟩, 0x4000⟩]
  accepted := ⟨[⟨0, 0x4000, 0x10000⟩], rfl⟩

/-- A range at guest physical 0 is refused, although all of it is in the map. -/
theorem zeroRange_refused :
    (∀ x ∈ requestBytes [⟨0, 0x4000⟩], zeroRange.Contains x) ∧
    newRangeMapping alwaysVm .other zeroRange [⟨0, 0x4000⟩] 0x4000 0 =
      .refused [.allocate 0x4000, .deallocate 0x70000 0x4000] ∧
    mapMemoryAtVirtualAddress alwaysVm zeroRange 0x70000 [⟨0, 0x4000⟩] false = (false, []) := by
  refine ⟨fun x hx => ?_, by decide, by decide⟩
  rw [requestBytes, List.flatMap_singleton, mem_bytes] at hx
  exact ⟨_, List.mem_cons_self, hx.1, hx.2⟩

end MemoryMap

end ReimsVgpu.Memory
