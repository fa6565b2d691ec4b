import ReimsVgpu.Memory.PageTable
import ReimsVgpu.Library.StartRuns
import ReimsVgpu.Library.Words

/-!
# The ranges built from a walk's pages

Four functions turn the pages a page-table walk visits into a list of ranges: the local task's
`map_into_host` and `virtual_mapping` and the GPU task's `new_virtual_mapping` and
`address_ranges_for_virtual_page`. Each keeps the run it is in as a start address and a length, and
extends it by a page at the start address plus one page. A run is meant to stop at two pages; a page
that repeats the second one still lies one page after the start, and extends the run over a page the
walk did not visit.

## Main definitions

* `LeafWalk`, `TaskMemory`, `PhysRange`, `RangeRuns`.
* `LocalTask.mapIntoHost`, `LocalTask.virtualMapping`, `GpuTask.newVirtualMapping`,
  `GpuTask.addressRangesForVirtualPage`.
* `expand`: the pages of a list of ranges.

## Main results

* `ranges_are_the_visits_iff`: when the ranges are the pages visited.
-/

namespace ReimsVgpu.Memory

variable (a : Arch)

/-! ### The functions -/

/-- A walk as its caller sees it: the leaves visited, and the raise it ends with. -/
structure LeafWalk where
  visits : List Visit := []
  raise : Option RaiseKind := none

/-- The raises of the functions here. -/
inductive TaskRaise
  | range
  | noPageTable
  | unalignedOffset
  | unalignedLength
  | zeroLength
  | hostMap
  | walk (kind : RaiseKind)
  deriving DecidableEq, Repr

/-- A range of physical or host memory. -/
structure PhysRange where
  address : UInt64 := 0
  length : UInt64 := 0
  deriving DecidableEq, Repr

/-- What the functions read of a task: its length, whether it has a task root, and its walker. -/
structure TaskMemory where
  taskLength : UInt64
  hasRoot : Bool
  walker : Option (UInt64 → UInt64 → LeafWalk)

/-- Without a walker there is nothing to visit. -/
def TaskMemory.visitPagesInRange (t : TaskMemory) (offset length : UInt64) : LeafWalk :=
  match t.walker with
  | none => {}
  | some walker => walker offset length

def checkTaskRange (offset length taskLength : UInt64) : Except TaskRaise Unit :=
  if offset.toNat + length.toNat ≥ 2 ^ 64 ∨ offset + length > taskLength then .error .range
  else .ok ()

def checkMappable (offset length taskLength : UInt64) (hasRoot : Bool) : Except TaskRaise Unit := do
  checkTaskRange offset length taskLength
  if !hasRoot then throw .noPageTable
  if offset &&& pageMask a ≠ 0 then throw .unalignedOffset
  if length &&& pageMask a ≠ 0 then throw .unalignedLength
  if length = 0 then throw .zeroLength

/-- The address of a guest page's first byte. -/
def pageAddress (page : UInt32) : UInt64 := page.toUInt64 <<< UInt64.ofNat (pageShift a)

/-- The ranges finished, and the run the loop is in. -/
structure RangeRuns where
  ranges : List PhysRange := []
  range : PhysRange := {}

/-- A page: one page after the run's start it extends the run, else it starts a new one. -/
def RangeRuns.visit (r : RangeRuns) (address : UInt64) : RangeRuns :=
  if address = r.range.address + pageSize a then
    { r with range := { r.range with length := r.range.length + pageSize a } }
  else
    { ranges := if r.range.length ≠ 0 then r.ranges ++ [r.range] else r.ranges
      range := { address := address, length := pageSize a } }

/-- The list, with the last run. -/
def RangeRuns.finish (r : RangeRuns) : List PhysRange :=
  if r.range.length ≠ 0 then r.ranges ++ [r.range] else r.ranges

/-- What a memory map is asked to map. -/
structure MappingRequest where
  ranges : List PhysRange
  length : UInt64
  readOnly : UInt32
  deriving DecidableEq, Repr

/-- The ranges of the task's pages `offset..offset + length`, read-only if any page is; `none`
without a memory map, or where a writable mapping is needed and a page is read-only. -/
def rangeMapping (t : TaskMemory) (offset length : UInt64) (needWritable memoryMap : Bool) :
    Except TaskRaise (Option MappingRequest) :=
  match checkMappable a offset length t.taskLength t.hasRoot with
  | .error e => .error e
  | .ok () =>
    let walk := t.visitPagesInRange offset length
    let runs := walk.visits.foldl (fun r v => r.visit a (pageAddress a v.page)) ({} : RangeRuns)
    let writable := walk.visits.foldl (fun w v => if v.writable = 0 then false else w) true
    match walk.raise with
    | some kind => .error (.walk kind)
    | none =>
      if needWritable && !writable then .ok none
      else if memoryMap then .ok (some ⟨runs.finish, length, if writable then 0 else 1⟩)
      else .ok none

def LocalTask.virtualMapping := rangeMapping a

def GpuTask.newVirtualMapping := rangeMapping a

/-- One range of a memory map. -/
structure MapRange where
  physicalAddress : UInt64
  physicalEnd : UInt64
  virtualAddress : UInt64

/-- The host address of guest physical memory: the first range that holds it decides; 0 is NULL. -/
def virtualAddressForPhysical (ranges : List MapRange) (physical length : UInt64) : UInt64 :=
  if physical.toNat + length.toNat ≥ 2 ^ 64 then 0
  else
    match ranges.find? (fun r => r.physicalAddress ≤ physical ∧ physical < r.physicalEnd) with
    | none => 0
    | some r =>
      if physical + length > r.physicalEnd then 0
      else physical - r.physicalAddress + r.virtualAddress

/-- The host address of a guest page: NULL without a memory map. -/
def hostAddress (map : Option (List MapRange)) (page : UInt32) : UInt64 :=
  match map with
  | none => 0
  | some ranges => virtualAddressForPhysical ranges (pageAddress a page) (pageSize a)

/-- The checks of the GPU task's address ranges: the offset is a whole number of pages, so its
alignment is not checked. -/
def checkPageRange (t : TaskMemory) (offset length : UInt64) : Except TaskRaise Unit := do
  checkTaskRange offset length t.taskLength
  if !t.hasRoot then throw .noPageTable
  if length &&& pageMask a ≠ 0 then throw .unalignedLength
  if length = 0 then throw .zeroLength

/-- The host ranges behind the task's pages `page..` for `length` bytes, and whether any leaf is
read-only. -/
def GpuTask.addressRangesForVirtualPage (t : TaskMemory) (map : Option (List MapRange))
    (page : UInt32) (length : UInt64) : Except TaskRaise (List PhysRange × Bool) :=
  let offset := page.toUInt64 * pageSize a
  match checkPageRange a t offset length with
  | .error e => .error e
  | .ok () =>
    let walk := t.visitPagesInRange offset length
    let runs := walk.visits.foldl (fun r v => r.visit a (hostAddress a map v.page)) ({} : RangeRuns)
    let writable := walk.visits.foldl (fun w v => if v.writable = 0 then false else w) true
    match walk.raise with
    | some kind => .error (.walk kind)
    | none => .ok (runs.finish, !writable)

/-- One call on the host: map the range at a task offset. -/
structure HostMap where
  start : UInt64
  readOnly : Bool
  range : PhysRange
  deriving DecidableEq, Repr

/-- The variables of `map_into_host`'s loop, the calls made on the host, and the raise. -/
structure HostRuns where
  mapped : List HostMap := []
  range : PhysRange := {}
  rangeStart : UInt64 := 0
  writable : Bool := false
  raise : Option TaskRaise := none

/-- A call on the host, which answers whether it maps the range. -/
def HostRuns.map (host : List HostMap → HostMap → Bool) (r : HostRuns) (readOnly : Bool) :
    HostRuns :=
  let call : HostMap := ⟨r.rangeStart, readOnly, r.range⟩
  { r with
    mapped := r.mapped ++ [call]
    raise := if host r.mapped call then none else some .hostMap }

/-- A page of `map_into_host`: it extends the run one page after its start and of its writability,
else the run is mapped, with the new page's writability, and a new one starts. A raise ends the
walk. -/
def HostRuns.visit (host : List HostMap → HostMap → Bool) (r : HostRuns) (v : Visit) : HostRuns :=
  if r.raise.isSome then r
  else
    let physical := pageAddress a v.page
    if physical = r.range.address + pageSize a ∧ v.writable = r.writable.toUInt32 then
      { r with range := { r.range with length := r.range.length + pageSize a } }
    else
      let r := if r.range.length ≠ 0 then r.map host (v.writable = 0) else r
      if r.raise.isSome then r
      else { r with
        range := { address := physical, length := pageSize a }
        rangeStart := v.address
        writable := v.writable ≠ 0 }

/-- Maps `offset..offset + length` into the host's task, one run of pages at a time; with no raise
the range is then added to the tracker of mapped ranges. -/
def LocalTask.mapIntoHost (t : TaskMemory) (host : List HostMap → HostMap → Bool)
    (offset length : UInt64) : List HostMap × Except TaskRaise Unit :=
  match checkMappable a offset length t.taskLength t.hasRoot with
  | .error e => ([], .error e)
  | .ok () =>
    let walk := t.visitPagesInRange offset length
    let r := walk.visits.foldl (HostRuns.visit a host) {}
    match r.raise, walk.raise with
    | some e, _ => (r.mapped, .error e)
    | none, some kind => (r.mapped, .error (.walk kind))
    | none, none =>
      let r := if r.range.length ≠ 0 then r.map host (!r.writable) else r
      match r.raise with
      | some e => (r.mapped, .error e)
      | none => (r.mapped, .ok ())

/-! ### The pages of a list of ranges -/

/-- The addresses of the pages of a range. -/
def pagesOf (r : PhysRange) : List UInt64 :=
  (List.range (r.length / pageSize a).toNat).map fun i => r.address + UInt64.ofNat i * pageSize a

/-- The addresses of the pages of a list of ranges, in order. -/
def expand (ranges : List PhysRange) : List UInt64 := ranges.flatMap (pagesOf a)

/-- The range of a run, as its length wraps. -/
private def runRange (r : UInt64 × ℕ) : PhysRange := ⟨r.1, UInt64.ofNat r.2 * pageSize a⟩

/-- The list with a last run, which is left out if its length is 0. -/
private def flush (ranges : List PhysRange) (r : PhysRange) : List PhysRange :=
  if r.length ≠ 0 then ranges ++ [r] else ranges

variable {a}

private theorem toNat_pageSize : (pageSize a).toNat = 2 ^ pageShift a := by
  cases a <;> rfl

private theorem runRange_one (x : UInt64) : runRange a (x, 1) = ⟨x, pageSize a⟩ := by
  rw [runRange, show UInt64.ofNat 1 = 1 from rfl, UInt64.one_mul]

private theorem runRange_succ (x : UInt64) (n : ℕ) :
    runRange a (x, n + 1) = ⟨x, (runRange a (x, n)).length + pageSize a⟩ := by
  rw [runRange, runRange, UInt64.ofNat_add, UInt64.add_mul, show UInt64.ofNat 1 = 1 from rfl,
    UInt64.one_mul]

private theorem flush_append (ranges ranges' : List PhysRange) (r : PhysRange) :
    flush (ranges ++ ranges') r = ranges ++ flush ranges' r := by
  rw [flush, flush]
  split_ifs
  · rw [List.append_assoc]
  · rfl

private theorem flush_eq (ranges : List PhysRange) (r : PhysRange) :
    flush ranges r = ranges ++ flush [] r := by
  rw [← flush_append, List.append_nil]

/-- The pages of a run's range: as many as the run has, modulo the pages of the address space. -/
private theorem expand_flush_runRange (x : UInt64) (n : ℕ) :
    expand a (flush [] (runRange a (x, n))) =
      (List.range (n % 2 ^ (64 - pageShift a))).map
        fun i => x + UInt64.ofNat i * pageSize a := by
  have hcount : (UInt64.ofNat n * pageSize a / pageSize a).toNat = n % 2 ^ (64 - pageShift a) := by
    rw [UInt64.toNat_div, UInt64.toNat_mul, UInt64.toNat_ofNat', toNat_pageSize]
    cases a with
    | x86_64 => norm_num [pageShift]; omega
    | other => norm_num [pageShift]; omega
  rw [flush]
  split_ifs with hzero
  · rw [expand, List.nil_append, List.flatMap_singleton, pagesOf, runRange, hcount]
  · have hlength : UInt64.ofNat n * pageSize a = 0 := not_not.mp hzero
    rw [← hcount, hlength]
    simp [expand]

/-- A run's range covers the run's own pages exactly when the run has at most two. -/
private theorem pages_eq_iff (x : UInt64) {n : ℕ} (hn : 0 < n) :
    expand a (flush [] (runRange a (x, n))) = x :: List.replicate (n - 1) (x + pageSize a) ↔
      n ≤ 2 := by
  have hmod : n ≤ 2 → n % 2 ^ (64 - pageShift a) = n := by
    intro h
    refine Nat.mod_eq_of_lt (h.trans_lt ?_)
    cases a <;> decide
  rw [expand_flush_runRange]
  constructor
  · intro h
    have hlen := congrArg List.length h
    simp only [List.length_map, List.length_range, List.length_cons, List.length_replicate] at hlen
    by_contra hlong
    have hthird := congrArg (fun l => l[2]?) h
    rw [show n % 2 ^ (64 - pageShift a) = n - 1 + 1 from hlen] at hthird
    simp only [List.getElem?_map, List.getElem?_range (show 2 < n - 1 + 1 by omega),
      List.getElem?_cons_succ, List.getElem?_replicate, if_pos (show 1 < n - 1 by omega),
      Option.map_some, Option.some_inj] at hthird
    revert hthird
    cases a <;> simp [pageSize, pageShift] <;> decide
  · intro h
    rw [hmod h]
    obtain rfl | rfl : n = 1 ∨ n = 2 := by omega
    · simp
    · simp [List.range_succ]

/-! ### The loops and their runs -/

private theorem RangeRuns.visit_join (ranges : List PhysRange) (x : UInt64) (n : ℕ) :
    RangeRuns.visit a ⟨ranges, runRange a (x, n)⟩ (x + pageSize a) =
      ⟨ranges, runRange a (x, n + 1)⟩ := by
  rw [runRange_succ]
  exact if_pos rfl

private theorem RangeRuns.visit_start (ranges : List PhysRange) {x y : UInt64} (n : ℕ)
    (hy : y ≠ x + pageSize a) : RangeRuns.visit a ⟨ranges, runRange a (x, n)⟩ y =
      ⟨flush ranges (runRange a (x, n)), runRange a (y, 1)⟩ := by
  rw [runRange_one]
  exact if_neg hy

/-- The range loop in a run makes the ranges of its runs. -/
private theorem finish_foldl_visit (l : List UInt64) (ranges : List PhysRange) (x : UInt64) (n : ℕ) :
    (l.foldl (RangeRuns.visit a) ⟨ranges, runRange a (x, n)⟩).finish =
      ranges ++ (startRuns (· + pageSize a) x n l).flatMap
        fun r => flush [] (runRange a r) := by
  induction l generalizing ranges x n with
  | nil =>
    rw [startRuns, List.flatMap_singleton, ← flush_eq]
    rfl
  | cons y l ih =>
    rw [List.foldl_cons, startRuns]
    split_ifs with hy
    · rw [hy, RangeRuns.visit_join, ih]
    · rw [RangeRuns.visit_start ranges n hy, ih, List.flatMap_cons, ← List.append_assoc, ← flush_eq]

section

variable {β : Type*} [DecidableEq β] (succ : β → β) (addr : β → UInt64)

omit [DecidableEq β] in
/-- A run's range has at most as many pages as the run. -/
private theorem length_expand_le (r : β × ℕ) (hr : 0 < r.2) :
    (expand a (flush [] (runRange a (addr r.1, r.2)))).length ≤
      ((runElements succ r).map addr).length := by
  rw [expand_flush_runRange, List.length_map, List.length_range, List.length_map, runElements,
    List.length_cons, List.length_replicate]
  exact (Nat.mod_le _ _).trans (by omega)

/-- The ranges of a sequence's runs have the sequence's pages exactly when it has no repeat after a
pair. The successor of an item is the one a run that starts at the item is extended by. -/
private theorem expand_startRuns_iff (haddr : ∀ x, addr (succ x) = addr x + pageSize a) (x : β)
    (l : List β) :
    expand a ((startRuns succ x 1 l).flatMap fun r => flush [] (runRange a (addr r.1, r.2))) =
      (x :: l).map addr ↔ NoRepeatAfterPair succ (x :: l) := by
  have hpos : ∀ r ∈ startRuns succ x 1 l, 0 < r.2 := fun r hr => pos_of_mem_startRuns Nat.one_pos hr
  have hruns : (x :: l).map addr =
      (startRuns succ x 1 l).flatMap fun r => (runElements succ r).map addr := by
    rw [← List.map_flatMap, flatMap_startRuns succ x Nat.one_pos l]
    rfl
  rw [← forall_startRuns_le_two, hruns, expand, List.flatMap_assoc]
  refine (flatMap_eq_iff_of_length_le fun r hr => length_expand_le succ addr r (hpos r hr)).trans ?_
  refine forall₂_congr fun r hr => ?_
  rw [runElements, List.map_cons, List.map_replicate, haddr]
  exact pages_eq_iff (addr r.1) (hpos r hr)

end

/-- A run that starts at 0 where no page is visited: its ranges are not the pages visited. -/
private theorem expand_startRuns_ne (l : List UInt64) :
    expand a ((startRuns (· + pageSize a) 0 1 l).flatMap fun r => flush [] (runRange a r)) ≠
      pageSize a :: l := by
  intro h
  obtain ⟨m, rs, hm, heq⟩ := startRuns_eq_cons (· + pageSize a) 0 1 l
  have hlen := congrArg List.length h
  rw [expand, List.flatMap_assoc] at hlen
  have hruns := congrArg List.length (flatMap_startRuns (· + pageSize a) 0 Nat.one_pos l)
  have hfirst := length_eq_of_length_flatMap_eq (g := runElements (· + pageSize a))
    (fun r hr => (length_expand_le (· + pageSize a) id r (pos_of_mem_startRuns Nat.one_pos hr)).trans_eq
      (List.length_map id))
    (hlen.trans hruns.symm) (0, m) (by rw [heq]; exact List.mem_cons_self)
  change (expand a (flush [] (runRange a (0, m)))).length = _ at hfirst
  rw [expand_flush_runRange, List.length_map, List.length_range] at hfirst
  have hhead := congrArg List.head? h
  rw [heq, List.flatMap_cons, expand, List.flatMap_append] at hhead
  change (expand a (flush [] (runRange a (0, m))) ++ _).head? = _ at hhead
  rw [expand_flush_runRange, hfirst, runElements, List.length_cons, List.range_succ_eq_map] at hhead
  revert hhead
  cases a <;> simp [pageSize, pageShift] <;> decide

/-- The range loop over a sequence of addresses, from the empty run at 0. -/
private theorem expand_foldl_visit_iff (l : List UInt64) :
    expand a (l.foldl (RangeRuns.visit a) {}).finish = l ↔
      (∀ x ∈ l.head?, x ≠ pageSize a) ∧ NoRepeatAfterPair (· + pageSize a) l := by
  have hzero : ({} : RangeRuns) = ⟨[], runRange a (0, 0)⟩ := by simp [runRange]
  cases l with
  | nil => simp [expand, RangeRuns.finish, NoRepeatAfterPair]
  | cons x l =>
    rw [List.foldl_cons, hzero]
    by_cases hx : x = pageSize a
    · have hjoin := RangeRuns.visit_join (a := a) [] 0 0
      rw [UInt64.zero_add] at hjoin
      rw [hx, hjoin, finish_foldl_visit, List.nil_append]
      simpa using expand_startRuns_ne l
    · rw [RangeRuns.visit_start [] 0 (by rwa [UInt64.zero_add]), finish_foldl_visit]
      have hiff := expand_startRuns_iff (a := a) (· + pageSize a) id (fun _ => rfl) x l
      rw [List.map_id] at hiff
      simpa [hx, flush, runRange] using hiff

/-! ### The loop of `map_into_host` -/

variable (a) in
/-- What a leaf is for `map_into_host`: an address and a writability. -/
def hostItem (v : Visit) : UInt64 × UInt32 := (pageAddress a v.page, v.writable)

variable (a) in
/-- The leaf that extends a run which starts at a leaf. -/
def hostSucc (x : UInt64 × UInt32) : UInt64 × UInt32 :=
  (x.1 + pageSize a, if x.2 ≠ 0 then 1 else 0)

/-- The loop is in a run that starts at `x` and has `n` pages. -/
private structure HostAt (a : Arch) (r : HostRuns) (x : UInt64 × UInt32) (n : ℕ) : Prop where
  raise : r.raise = none
  range : r.range = runRange a (x.1, n)
  writable : r.writable = decide (x.2 ≠ 0)

variable {host : List HostMap → HostMap → Bool} {r : HostRuns} {x : UInt64 × UInt32} {n : ℕ}

private theorem HostAt.joins_iff (h : HostAt a r x n) (v : Visit) :
    (pageAddress a v.page = r.range.address + pageSize a ∧ v.writable = r.writable.toUInt32) ↔
      hostItem a v = hostSucc a x := by
  have hw : r.writable.toUInt32 = if x.2 ≠ 0 then 1 else 0 := by
    rw [h.writable]
    by_cases hx : x.2 ≠ 0
    · rw [decide_eq_true hx, if_pos hx]
      rfl
    · rw [decide_eq_false hx, if_neg hx]
      rfl
  rw [hostItem, hostSucc, Prod.mk.injEq, h.range, hw]
  rfl

private theorem HostAt.visit_join (h : HostAt a r x n) (host : List HostMap → HostMap → Bool)
    {v : Visit} (hv : hostItem a v = hostSucc a x) :
    HostAt a (r.visit a host v) x (n + 1) ∧ (r.visit a host v).mapped = r.mapped := by
  have hsome : ¬ r.raise.isSome = true := by rw [h.raise]; nofun
  rw [HostRuns.visit, if_neg hsome]
  dsimp only
  rw [if_pos ((h.joins_iff v).mpr hv)]
  refine ⟨⟨h.raise, ?_, h.writable⟩, rfl⟩
  dsimp only
  rw [runRange_succ, h.range]
  rfl

private theorem HostAt.visit_start (h : HostAt a r x n) {v : Visit}
    (hv : hostItem a v ≠ hostSucc a x) (hraise : (r.visit a host v).raise = none) :
    HostAt a (r.visit a host v) (hostItem a v) 1 ∧
      (r.visit a host v).mapped.map HostMap.range =
        flush (r.mapped.map HostMap.range) (runRange a (x.1, n)) := by
  have hsome : ¬ r.raise.isSome = true := by rw [h.raise]; nofun
  rw [HostRuns.visit, if_neg hsome] at hraise ⊢
  dsimp only at hraise ⊢
  rw [if_neg (fun hc => hv ((h.joins_iff v).mp hc))] at hraise ⊢
  rw [← h.range, flush]
  split_ifs at hraise ⊢ with hlen hmap
  · rw [hraise] at hmap
    cases hmap
  · refine ⟨⟨?_, by rw [runRange_one]; rfl, rfl⟩, ?_⟩
    · simpa using hmap
    · simp [HostRuns.map]
  · exact ⟨⟨h.raise, by rw [runRange_one]; rfl, rfl⟩, rfl⟩

private theorem HostRuns.raise_foldl (l : List Visit) (hr : r.raise.isSome = true) :
    (l.foldl (HostRuns.visit a host) r).raise = r.raise := by
  induction l with
  | nil => rfl
  | cons v l ih => rw [List.foldl_cons, HostRuns.visit, if_pos hr, ih]

/-- The loop of `map_into_host` in a run, when the host refuses nothing. -/
private theorem HostAt.foldl_visit (h : HostAt a r x n) (l : List Visit)
    (hraise : (l.foldl (HostRuns.visit a host) r).raise = none) :
    flush ((l.foldl (HostRuns.visit a host) r).mapped.map HostMap.range)
        (l.foldl (HostRuns.visit a host) r).range =
      r.mapped.map HostMap.range ++ (startRuns (hostSucc a) x n (l.map (hostItem a))).flatMap
        fun r => flush [] (runRange a (r.1.1, r.2)) := by
  induction l generalizing r x n with
  | nil =>
    rw [List.foldl_nil, h.range, List.map_nil, startRuns, List.flatMap_singleton, ← flush_eq]
  | cons v l ih =>
    rw [List.foldl_cons] at hraise ⊢
    rw [List.map_cons, startRuns]
    split_ifs with hv
    · obtain ⟨h', hmapped⟩ := h.visit_join host hv
      rw [ih h' hraise, hmapped]
    · have hnone : (r.visit a host v).raise = none := by
        by_contra hc
        rw [HostRuns.raise_foldl l (Option.isSome_iff_ne_none.mpr hc)] at hraise
        exact hc hraise
      obtain ⟨h', hmapped⟩ := h.visit_start hv hnone
      rw [ih h' hraise, hmapped, List.flatMap_cons, ← List.append_assoc, ← flush_eq]

/-! ### When the ranges are the pages visited -/

private theorem pageAddress_ne {page : UInt32} (h : page ≠ 1) : pageAddress a page ≠ pageSize a := by
  intro hc
  refine h (UInt32.toNat_inj.mp ?_)
  have hnat := congrArg UInt64.toNat hc
  have hlt := page.toNat_lt
  rw [pageAddress, toNat_pageSize, UInt64.toNat_shiftLeft_ofNat (by cases a <;> decide)
    (by rw [UInt32.toNat_toUInt64]; cases a <;> norm_num [pageShift] <;> omega),
    UInt32.toNat_toUInt64] at hnat
  have hpos := Nat.two_pow_pos (pageShift a)
  exact Nat.eq_of_mul_eq_mul_right hpos (hnat.trans (Nat.one_mul _).symm)

variable (t : TaskMemory)

private theorem rangeMapping_ranges {offset length : UInt64} {needWritable memoryMap : Bool}
    {request : MappingRequest}
    (h : rangeMapping a t offset length needWritable memoryMap = .ok (some request)) :
    request.ranges = (((t.visitPagesInRange offset length).visits.map
      fun v => pageAddress a v.page).foldl (RangeRuns.visit a) {}).finish := by
  rw [List.foldl_map]
  rw [rangeMapping] at h
  split at h
  · cases h
  · dsimp only at h
    split at h
    · cases h
    · split at h
      · cases h
      · split at h
        · obtain rfl := Option.some_inj.mp (Except.ok.inj h)
          rfl
        · cases h

private theorem addressRanges_ranges {map : Option (List MapRange)} {page : UInt32}
    {length : UInt64} {ranges : List PhysRange} {readOnly : Bool}
    (h : GpuTask.addressRangesForVirtualPage a t map page length = .ok (ranges, readOnly)) :
    ranges = (((t.visitPagesInRange (page.toUInt64 * pageSize a) length).visits.map
      fun v => hostAddress a map v.page).foldl (RangeRuns.visit a) {}).finish := by
  rw [List.foldl_map]
  rw [GpuTask.addressRangesForVirtualPage] at h
  dsimp only at h
  split at h
  · cases h
  · split at h
    · cases h
    · exact (Prod.ext_iff.mp (Except.ok.inj h)).1.symm

private theorem mapIntoHost_mapped {offset length : UInt64} {mapped : List HostMap}
    (h : LocalTask.mapIntoHost a t host offset length = (mapped, .ok ())) :
    ((t.visitPagesInRange offset length).visits.foldl (HostRuns.visit a host) {}).raise = none ∧
    mapped.map HostMap.range = flush
      (((t.visitPagesInRange offset length).visits.foldl (HostRuns.visit a host) {}).mapped.map
        HostMap.range)
      ((t.visitPagesInRange offset length).visits.foldl (HostRuns.visit a host) {}).range := by
  rw [LocalTask.mapIntoHost] at h
  split at h
  · cases (Prod.ext_iff.mp h).2
  · dsimp only at h
    set r := (t.visitPagesInRange offset length).visits.foldl (HostRuns.visit a host) {} with hr
    split at h
    · cases (Prod.ext_iff.mp h).2
    · cases (Prod.ext_iff.mp h).2
    · rename_i hraise _
      refine ⟨hraise, ?_⟩
      split at h
      · cases (Prod.ext_iff.mp h).2
      · obtain rfl := (Prod.mk.inj h).1
        rw [flush]
        split_ifs with hlen
        · simp [HostRuns.map]
        · rfl

/-- The loop of `map_into_host` over a sequence of leaves the first of which is not page 1. -/
private theorem expand_mapIntoHost_iff {offset length : UInt64} {mapped : List HostMap}
    (h : LocalTask.mapIntoHost a t host offset length = (mapped, .ok ()))
    (hfirst : ∀ v ∈ (t.visitPagesInRange offset length).visits.head?, v.page ≠ 1) :
    expand a (mapped.map HostMap.range) =
        (t.visitPagesInRange offset length).visits.map (fun v => pageAddress a v.page) ↔
      NoRepeatAfterPair (hostSucc a)
        ((t.visitPagesInRange offset length).visits.map (hostItem a)) := by
  obtain ⟨hraise, hmapped⟩ := mapIntoHost_mapped t h
  rw [hmapped]
  have hinit : HostAt a {} (0, 0) 0 := ⟨rfl, by simp [runRange], rfl⟩
  cases hvisits : (t.visitPagesInRange offset length).visits with
  | nil => simp [flush, expand, NoRepeatAfterPair]
  | cons v l =>
    rw [hvisits] at hraise hfirst
    have hpage : hostItem a v ≠ hostSucc a (0, 0) := by
      intro hc
      rw [hostItem, hostSucc, UInt64.zero_add] at hc
      exact pageAddress_ne (hfirst v rfl) (Prod.mk.inj hc).1
    have hnone : (HostRuns.visit a host {} v).raise = none := by
      by_contra hc
      rw [List.foldl_cons, HostRuns.raise_foldl l (Option.isSome_iff_ne_none.mpr hc)] at hraise
      exact hc hraise
    obtain ⟨hat, hstart⟩ := hinit.visit_start hpage hnone
    rw [List.foldl_cons] at hraise ⊢
    have hempty : flush (({} : HostRuns).mapped.map HostMap.range) (runRange a (0, 0)) = [] := by
      simp [flush, runRange]
    have hiff := expand_startRuns_iff (a := a) (hostSucc a) Prod.fst (fun _ => rfl)
      (hostItem a v) (l.map (hostItem a))
    rw [hat.foldl_visit l hraise, hstart, hempty, List.nil_append]
    rw [List.map_cons, List.map_map] at hiff
    exact hiff

/-- The ranges that each of the four functions builds have, page by page, the addresses of the pages
visited, the first not being guest page 1, exactly when no page visited repeats the one before it
where that one ends an odd number of successive steps of one page: the second page of a run. For
`map_into_host` a step keeps the writability. The host addresses must also not start one page above
0. -/
theorem ranges_are_the_visits_iff :
    (∀ offset length needWritable memoryMap request,
      LocalTask.virtualMapping a t offset length needWritable memoryMap = .ok (some request) →
      let visits := (t.visitPagesInRange offset length).visits
      (∀ v ∈ visits.head?, v.page ≠ 1) →
      (expand a request.ranges = visits.map (fun v => pageAddress a v.page) ↔
        NoRepeatAfterPair (· + pageSize a) (visits.map fun v => pageAddress a v.page))) ∧
    (∀ offset length needWritable memoryMap request,
      GpuTask.newVirtualMapping a t offset length needWritable memoryMap = .ok (some request) →
      let visits := (t.visitPagesInRange offset length).visits
      (∀ v ∈ visits.head?, v.page ≠ 1) →
      (expand a request.ranges = visits.map (fun v => pageAddress a v.page) ↔
        NoRepeatAfterPair (· + pageSize a) (visits.map fun v => pageAddress a v.page))) ∧
    (∀ map page length ranges readOnly,
      GpuTask.addressRangesForVirtualPage a t map page length = .ok (ranges, readOnly) →
      let visits := (t.visitPagesInRange (page.toUInt64 * pageSize a) length).visits
      (expand a ranges = visits.map (fun v => hostAddress a map v.page) ↔
        (∀ v ∈ visits.head?, hostAddress a map v.page ≠ pageSize a) ∧
        NoRepeatAfterPair (· + pageSize a) (visits.map fun v => hostAddress a map v.page))) ∧
    (∀ host offset length mapped,
      LocalTask.mapIntoHost a t host offset length = (mapped, .ok ()) →
      let visits := (t.visitPagesInRange offset length).visits
      (∀ v ∈ visits.head?, v.page ≠ 1) →
      (expand a (mapped.map HostMap.range) = visits.map (fun v => pageAddress a v.page) ↔
        NoRepeatAfterPair (hostSucc a) (visits.map (hostItem a)))) := by
  have hmapping (offset length needWritable memoryMap request)
      (h : rangeMapping a t offset length needWritable memoryMap = .ok (some request))
      (hfirst : ∀ v ∈ (t.visitPagesInRange offset length).visits.head?, v.page ≠ 1) :
      expand a request.ranges =
          (t.visitPagesInRange offset length).visits.map (fun v => pageAddress a v.page) ↔
        NoRepeatAfterPair (· + pageSize a)
          ((t.visitPagesInRange offset length).visits.map fun v => pageAddress a v.page) := by
    rw [rangeMapping_ranges t h, expand_foldl_visit_iff]
    refine and_iff_right ?_
    rw [List.head?_map]
    intro x hx
    obtain ⟨v, hv, rfl⟩ := Option.mem_map.mp hx
    exact pageAddress_ne (hfirst v hv)
  refine ⟨hmapping, hmapping, ?_, fun host offset length mapped h hfirst =>
    expand_mapIntoHost_iff t h hfirst⟩
  intro map page length ranges readOnly h
  dsimp only
  rw [addressRanges_ranges t h, expand_foldl_visit_iff, List.head?_map]
  simp only [Option.mem_map, forall_exists_index, and_imp, forall_apply_eq_imp_iff₂]

/-- A task of three pages whose page table has the given leaves, writable. -/
def leavesTask (pages : List UInt32) : TaskMemory where
  taskLength := 0x3000
  hasRoot := true
  walker := some fun offset _ => { visits := pages.zipIdx.map fun (page, i) =>
    ⟨offset + UInt64.ofNat i * 0x1000, page, 1⟩ }

/-- The leaves 5, 6, 6: every range reaches over page 7. -/
theorem three_page_run :
    let visits := (leavesTask [5, 6, 6]).visitPagesInRange 0 0x3000 |>.visits
    let map := some [⟨0, 0x100000, 0x7f0000000000⟩]
    LocalTask.virtualMapping .x86_64 (leavesTask [5, 6, 6]) 0 0x3000 true true =
      .ok (some ⟨[⟨0x5000, 0x3000⟩], 0x3000, 0⟩) ∧
    GpuTask.newVirtualMapping .x86_64 (leavesTask [5, 6, 6]) 0 0x3000 true true =
      .ok (some ⟨[⟨0x5000, 0x3000⟩], 0x3000, 0⟩) ∧
    LocalTask.mapIntoHost .x86_64 (leavesTask [5, 6, 6]) (fun _ _ => true) 0 0x3000 =
      ([⟨0, false, ⟨0x5000, 0x3000⟩⟩], .ok ()) ∧
    GpuTask.addressRangesForVirtualPage .x86_64 (leavesTask [5, 6, 6]) map 0 0x3000 =
      .ok ([⟨0x7f0000005000, 0x3000⟩], false) ∧
    visits.map (fun v => pageAddress .x86_64 v.page) = [0x5000, 0x6000, 0x6000] ∧
    expand .x86_64 [⟨0x5000, 0x3000⟩] = [0x5000, 0x6000, 0x7000] ∧
    visits.map (fun v => hostAddress .x86_64 map v.page) =
      [0x7f0000005000, 0x7f0000006000, 0x7f0000006000] ∧
    expand .x86_64 [⟨0x7f0000005000, 0x3000⟩] =
      [0x7f0000005000, 0x7f0000006000, 0x7f0000007000] := by
  refine ⟨rfl, rfl, rfl, rfl, rfl, rfl, rfl, rfl⟩

/-- The leaves 5, 6, 7: a pair and a single page. -/
theorem ranges_are_the_visits_ascending :
    expand .x86_64 [⟨0x5000, 0x2000⟩, ⟨0x7000, 0x1000⟩] = [0x5000, 0x6000, 0x7000] :=
  ((ranges_are_the_visits_iff (a := .x86_64) (leavesTask [5, 6, 7])).1 0 0x3000 true true
    ⟨[⟨0x5000, 0x2000⟩, ⟨0x7000, 0x1000⟩], 0x3000, 0⟩ rfl (by decide)).mpr
    ⟨nofun, fun _ => by decide, trivial⟩

end ReimsVgpu.Memory
