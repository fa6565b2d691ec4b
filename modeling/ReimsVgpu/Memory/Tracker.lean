import ReimsVgpu.Memory.PageTable

/-!
# The tracker of mapped page runs

Which pages of a task the host has mapped: page runs in up to 128 blocks of up to 256 runs each.
Sums of pages wrap. A block is its runs in use and its hull; the blocks are those in use.

A run's subtraction can raise, but not where a block subtracts (`Run.subtractOverlap_isSome` in
`TrackerOrder`), so that what a raise there would leave half done is not kept.

## Main definitions

* `Run.compare`, `Run.subtractOverlap`, `Run.subtractInside`, `Run.merge`.
* `RunBlock.add`, `RunBlock.remove`, `RunBlock.test`, `RunBlock.split`.
* `Blocks.addToRange`, `Blocks.removeFromRange`, `Blocks.compact`.
* `RangeTracker.addToRange`, `RangeTracker.removeFromRange`, `RangeTracker.testRange`,
  `RangeTracker.visitUnmappedRanges`: of bytes.
-/

namespace ReimsVgpu.Memory.Tracker

/-- `MAX_BLOCKS`. -/
def maxBlocks : ℕ := 128

/-- `RUNS_PER_BLOCK`. -/
def runsPerBlock : ℕ := 256

/-- `FULL_BLOCK`. -/
def fullBlock : ℕ := 240

/-- `UNMAPPED_RUNS`. -/
def unmappedMax : ℕ := 16

/-- `Cmp`: what `Run.compare` says about a run against another. -/
inductive Cmp where
  | less
  | lessAdjacent
  | lessOverlap
  | equal
  | inside
  | insideEdge
  | contains
  | greaterOverlap
  | greaterAdjacent
  | greater
  deriving DecidableEq, Repr

/-- `Cmp::value`. -/
def Cmp.value : Cmp → ℤ
  | .less => -3
  | .lessAdjacent => -2
  | .lessOverlap => -1
  | .equal => 0
  | .inside => 1
  | .insideEdge => 2
  | .contains => 3
  | .greaterOverlap => 4
  | .greaterAdjacent => 5
  | .greater => 6

/-- The tracker's raises. -/
inductive RaiseKind where
  | runSubtractInside
  | trackerTooComplex
  | trackerAlignedLength
  | trackerAlignedOffset
  | trackerZeroLength
  | trackerUnmappedTooComplex
  | trackerUnmappedTooComplexTail
  deriving DecidableEq, Repr

/-- The tracker's deaths. -/
inductive DeathKind where
  | blockAddFull
  | blockAddUnordered
  | blockRemoveFull
  | blockRemoveEqualAfterMark
  | blockRemovePastCount
  | blockInsertFull
  | blockSplitCount
  | blockSplitOverlap
  | trackerSlotEmpty
  | trackerTargetMoved
  | trackerAddUnordered
  | trackerCompactEmptyNext
  | trackerTestLeftover
  | trackerVisitEmptyRun
  deriving DecidableEq, Repr

/-- How a call does not return. -/
inductive Failure where
  | raised (kind : RaiseKind)
  | died (kind : DeathKind)
  deriving DecidableEq, Repr

/-- How a call ends, and the state it leaves. -/
inductive Outcome (σ : Type*) where
  | ok (s : σ)
  | raised (kind : RaiseKind) (s : σ)
  | died (kind : DeathKind)
  deriving DecidableEq, Repr

/-- A failed call that leaves a state. -/
def Failure.leaving {σ : Type*} (f : Failure) (s : σ) : Outcome σ :=
  match f with
  | .raised kind => .raised kind s
  | .died kind => .died kind

/-! ### Runs -/

/-- A run of pages. -/
structure Run where
  pageOffset : UInt32 := 0
  pageLength : UInt32 := 0
  deriving DecidableEq, Repr

namespace Run

/-- `is_empty`. -/
def isEmpty (r : Run) : Bool := r.pageLength == 0

/-- `end`. -/
def stop (r : Run) : UInt32 := r.pageOffset + r.pageLength

/-- `compare`. The source's last test holds where it is reached
(`Run.stop_le_of_greaterOverlap`). -/
def compare (self other : Run) : Cmp :=
  if self.pageOffset = other.pageOffset ∧ self.pageLength = other.pageLength then .equal
  else if self.pageOffset = 0 ∧ self.pageLength = 0 then .greater
  else if self.stop < other.pageOffset then .less
  else if self.stop = other.pageOffset then .lessAdjacent
  else if other.pageOffset ≤ self.pageOffset ∧ self.stop ≤ other.stop then
    if self.pageOffset = other.pageOffset ∨ self.stop = other.stop then .insideEdge else .inside
  else if self.pageOffset < other.pageOffset ∧ other.stop < self.stop then .contains
  else if self.pageOffset ≤ other.pageOffset ∧ self.stop ≤ other.stop then .lessOverlap
  else if self.pageOffset = other.stop then .greaterAdjacent
  else if other.stop < self.pageOffset then .greater
  else .greaterOverlap

/-- `subtract_overlap`; none for its raise. -/
def subtractOverlap (self other : Run) : Option Run :=
  if other.pageOffset ≤ self.pageOffset then
    if self.stop ≤ other.stop then some {}
    else some ⟨other.stop, self.stop - other.stop⟩
  else if other.stop < self.stop then none
  else some ⟨self.pageOffset, other.pageOffset - self.pageOffset⟩

/-- `subtract_inside`: the part before, and the part after. -/
def subtractInside (self other : Run) : Run × Run :=
  (⟨self.pageOffset, other.pageOffset - self.pageOffset⟩, ⟨other.stop, self.stop - other.stop⟩)

/-- `merge`. -/
def merge (self other : Run) : Run :=
  if self.pageLength = 0 then other
  else
    let offset := if other.pageOffset < self.pageOffset then other.pageOffset else self.pageOffset
    if other.stop < self.stop then ⟨offset, self.stop - offset⟩ else ⟨offset, other.stop - offset⟩

end Run

/-! ### Blocks of runs -/

/-- `RunBlock`: the runs in use, and the hull. -/
structure RunBlock where
  runs : List Run := []
  blockRun : Run := {}
  deriving DecidableEq, Repr

namespace RunBlock

/-- `at`. -/
def at' (runs : List Run) (i : ℕ) : Run := runs.getD i {}

/-- `compare`. -/
def compare (b : RunBlock) (run : Run) : Cmp := b.blockRun.compare run

/-- The loop of `probe`. -/
def probeLoop (runs : List Run) (run : Run) (lower upper mid : ℕ) : ℕ :=
  if lower < upper then
    let mid := (lower + upper) / 2
    let probe := (at' runs mid).pageOffset
    if run.pageOffset < probe then probeLoop runs run lower mid mid
    else if run.pageOffset ≤ probe then mid
    else probeLoop runs run (mid + 1) upper mid
  else mid
termination_by upper - lower

/-- `probe`: the last probed index. -/
def probe (runs : List Run) (run : Run) : ℕ := probeLoop runs run 0 runs.length 0

/-- `remove_at_index`. -/
def removeAtIndex (runs : List Run) (i count : ℕ) : Except Failure (List Run) :=
  if i + count ≤ runs.length then .ok (runs.take i ++ runs.drop (i + count))
  else .error (.died .blockRemovePastCount)

/-- `insert_at_index`. -/
def insertAtIndex (runs : List Run) (i : ℕ) (run : Run) : Except Failure (List Run) :=
  if runs.length < runsPerBlock then .ok (runs.take i ++ run :: runs.drop i)
  else .error (.died .blockInsertFull)

/-- The loop of `add` over the runs after the one added: that run, the runs after it, and how many of
them to remove. -/
def cleanup (current : Run) : List Run → ℕ → Except Failure (Run × List Run × ℕ)
  | [], removeCount => .ok (current, [], removeCount)
  | next :: rest, removeCount =>
    match current.compare next with
    | .less | .lessAdjacent => .ok (current, next :: rest, removeCount)
    | .lessOverlap =>
      match next.subtractOverlap current with
      | none => .error (.raised .runSubtractInside)
      | some next =>
        .ok (current, next :: rest, if next.isEmpty then removeCount + 1 else removeCount)
    | .equal => .ok (current, next :: rest, removeCount + 1)
    | .insideEdge => .ok (current.merge next, next :: rest, removeCount + 1)
    | .contains =>
      (cleanup current rest (removeCount + 1)).map fun (c, tail, n) => (c, next :: tail, n)
    | .greaterOverlap =>
      (cleanup (current.merge next) rest (removeCount + 1)).map fun (c, tail, n) =>
        (c, next :: tail, n)
    | .inside | .greaterAdjacent | .greater => .error (.died .blockAddUnordered)

/-- The rest of `add`, once the run is at an index: the runs after it, and the hull. -/
def finishAdd (b : RunBlock) (run : Run) (runs : List Run) (index : ℕ) :
    Except Failure RunBlock :=
  match cleanup (at' runs index) (runs.drop (index + 1)) 0 with
  | .error e => .error e
  | .ok (current, tail, removeCount) =>
    let runs := runs.take index ++ current :: tail
    if removeCount ≠ 0 then
      (removeAtIndex runs (index + 1) removeCount).map fun runs => ⟨runs, b.blockRun.merge run⟩
    else .ok ⟨runs, b.blockRun.merge run⟩

/-- `add`. -/
def add (b : RunBlock) (run : Run) : Except Failure RunBlock :=
  if runsPerBlock ≤ b.runs.length then .error (.died .blockAddFull)
  else if b.runs = [] then .ok ⟨[run], run⟩
  else
    let mid := probe b.runs run
    let index := if (at' b.runs mid).pageOffset < run.pageOffset then mid + 1 else mid
    let before := at' b.runs (index - 1)
    let cmp := run.compare before
    if 0 < index ∧ cmp = .greaterOverlap then
      finishAdd b run (b.runs.set (index - 1) (before.merge run)) (index - 1)
    else if 0 < index ∧ (cmp = .equal ∨ cmp = .inside ∨ cmp = .insideEdge) then .ok b
    else
      let index :=
        if index < b.runs.length ∧ (at' b.runs index).pageOffset < run.pageOffset then index + 1
        else index
      match insertAtIndex b.runs index run with
      | .error e => .error e
      | .ok runs => finishAdd b run runs index

/-- The runs a scan marked to remove: from where on, and how many. -/
structure Marks where
  start : Option ℕ := none
  count : ℕ := 0
  deriving DecidableEq, Repr

/-- One more mark. -/
def Marks.mark (m : Marks) (i : ℕ) : Marks := ⟨some (m.start.getD i), m.count + 1⟩

/-- What the scan of `remove` leaves: runs with marks, or a run that was split in place. -/
inductive Scan where
  | marked (runs : List Run) (marks : Marks)
  | split (runs : List Run)
  deriving DecidableEq, Repr

/-- A scan with a run before it. -/
def Scan.cons (r : Run) : Scan → Scan
  | .marked runs marks => .marked (r :: runs) marks
  | .split runs => .split (r :: runs)

/-- The loop of `remove` over the runs from an index on. -/
def scan (run : Run) (runCount : ℕ) : ℕ → List Run → Marks → Except Failure Scan
  | _, [], marks => .ok (.marked [] marks)
  | i, r :: rest, marks =>
    match r.compare run with
    | .lessOverlap =>
      match r.subtractOverlap run with
      | none => .error (.raised .runSubtractInside)
      | some r =>
        (scan run runCount (i + 1) rest (if r.isEmpty then marks.mark i else marks)).map (Scan.cons r)
    | .equal =>
      if marks.start = none then .ok (.marked (r :: rest) ⟨some i, 1⟩)
      else .error (.died .blockRemoveEqualAfterMark)
    | .inside | .insideEdge =>
      (scan run runCount (i + 1) rest (marks.mark i)).map (Scan.cons r)
    | .contains =>
      let (r, remainder) := r.subtractInside run
      if runCount < runsPerBlock then .ok (.split (r :: remainder :: rest))
      else .error (.died .blockInsertFull)
    | .greaterOverlap =>
      match r.subtractOverlap run with
      | none => .error (.raised .runSubtractInside)
      | some r => .ok (.marked (r :: rest) (if r.isEmpty then marks.mark i else marks))
    | .less | .lessAdjacent | .greaterAdjacent | .greater =>
      (scan run runCount (i + 1) rest marks).map (Scan.cons r)

/-- The hull `remove` computes. -/
def hullOf (runs : List Run) : Run :=
  if runs = [] then {} else (at' runs 0).merge (at' runs (runs.length - 1))

/-- `remove`: a run that is split in place leaves the hull. -/
def remove (b : RunBlock) (run : Run) : Except Failure RunBlock :=
  if runsPerBlock ≤ b.runs.length then .error (.died .blockRemoveFull)
  else
    let mid := probe b.runs run
    match scan run b.runs.length mid (b.runs.drop mid) {} with
    | .error e => .error e
    | .ok (.split tail) => .ok { b with runs := b.runs.take mid ++ tail }
    | .ok (.marked tail marks) =>
      let runs := b.runs.take mid ++ tail
      if marks.count ≠ 0 then
        (removeAtIndex runs (marks.start.getD (2 ^ 32 - 1)) marks.count).map fun runs =>
          ⟨runs, hullOf runs⟩
      else .ok ⟨runs, hullOf runs⟩

/-- The loop of `test` over the runs from an index on: what is left of the run, and whether it is
covered. -/
def testLoop : List Run → Run → Except Failure (Run × Bool)
  | [], run => .ok (run, run.isEmpty)
  | current :: rest, run =>
    match current.compare run with
    | .less | .lessAdjacent => testLoop rest run
    | .lessOverlap | .insideEdge =>
      match run.subtractOverlap current with
      | none => .error (.raised .runSubtractInside)
      | some run => testLoop rest run
    | .inside => .ok (run, false)
    | .equal | .contains | .greaterOverlap =>
      match run.subtractOverlap current with
      | none => .error (.raised .runSubtractInside)
      | some run => .ok (run, run.isEmpty)
    | .greaterAdjacent | .greater => .ok (run, run.isEmpty)

/-- `test`. -/
def test (b : RunBlock) (run : Run) : Except Failure (Run × Bool) :=
  if b.runs = [] then .ok (run, false)
  else if run.stop < b.blockRun.pageOffset ∨ b.blockRun.stop < run.pageOffset then .ok (run, false)
  else testLoop (b.runs.drop (probe b.runs run)) run

/-- `split`: the block, and the new one. -/
def split (b : RunBlock) : Except Failure (RunBlock × RunBlock) :=
  let half := b.runs.length / 2
  let newRuns := b.runs.drop half
  let newBlock : RunBlock := ⟨newRuns, newRuns.foldl Run.merge {}⟩
  let keep := b.runs.length - half
  if keep + newRuns.length = b.runs.length then
    let last := at' b.runs (keep - 1)
    let blockRun : Run := ⟨b.blockRun.pageOffset, last.stop - b.blockRun.pageOffset⟩
    if (blockRun.compare newBlock.blockRun).value ≤ Cmp.lessAdjacent.value then
      .ok (⟨b.runs.take keep, blockRun⟩, newBlock)
    else .error (.died .blockSplitOverlap)
  else .error (.died .blockSplitCount)

end RunBlock

/-! ### The tracker's blocks -/

namespace Blocks

/-- `split_at_index`. -/
def splitAtIndex (blocks : List RunBlock) (index : ℕ) : Except Failure (List RunBlock) :=
  match blocks[index]? with
  | none => .error (.died .trackerSlotEmpty)
  | some b =>
    b.split.map fun (b, newBlock) =>
      blocks.take index ++ b :: newBlock :: blocks.drop (index + 1)

theorem length_splitAtIndex {blocks blocks' : List RunBlock} {index : ℕ}
    (h : splitAtIndex blocks index = .ok blocks') : blocks'.length = blocks.length + 1 := by
  unfold splitAtIndex at h
  split at h
  · cases h
  · rename_i b hb
    obtain ⟨hlt, -⟩ := List.getElem?_eq_some_iff.mp hb
    cases hsplit : b.split with
    | error e => rw [hsplit] at h; cases h
    | ok pair =>
      rw [hsplit] at h
      obtain rfl := Except.ok.inj h
      simp only [List.length_append, List.length_cons, List.length_take, List.length_drop]
      omega

/-- What a block takes from the next one in `compact`: the block, and what is left of the next. -/
def steal (b next : RunBlock) : Except Failure (RunBlock × Option RunBlock) :=
  let toSteal := min next.runs.length (fullBlock - b.runs.length)
  if toSteal = 0 then .error (.died .trackerCompactEmptyNext)
  else
    let runs := b.runs ++ next.runs.take toSteal
    let last := RunBlock.at' runs (runs.length - 1)
    let b : RunBlock := ⟨runs, ⟨b.blockRun.pageOffset, last.stop - b.blockRun.pageOffset⟩⟩
    if toSteal < next.runs.length then
      let nextRuns := next.runs.drop toSteal
      let offset := (RunBlock.at' nextRuns 0).pageOffset
      let nextLast := RunBlock.at' nextRuns (nextRuns.length - 1)
      .ok (b, some ⟨nextRuns, ⟨offset, nextLast.pageOffset - offset + nextLast.pageLength⟩⟩)
    else .ok (b, none)

/-- `compact`: a block that is filled is left, and the next one goes on. -/
def compact : List RunBlock → Except Failure (List RunBlock)
  | [] => .ok []
  | [b] => .ok [b]
  | b :: next :: rest =>
    if b.runs.length < fullBlock then
      match steal b next with
      | .error e => .error e
      | .ok (b, some next) => (compact (next :: rest)).map (b :: ·)
      | .ok (b, none) => compact (b :: rest)
    else (compact (next :: rest)).map (b :: ·)
termination_by blocks => blocks.length

/-- The search of `add_to_range` for the block to add to, and the comparison of the last block it
looked at. -/
def findTarget (run : Run) : ℕ → List RunBlock → Option ℕ → Cmp → Option ℕ × Cmp
  | _, [], target, cmp => (target, cmp)
  | i, b :: rest, target, _ =>
    let cmp := b.compare run
    match cmp with
    | .less | .greaterOverlap => findTarget run (i + 1) rest (some i) cmp
    | .greaterAdjacent | .greater =>
      if target.isSome then findTarget run (i + 1) rest target cmp else (some i, cmp)
    | .lessAdjacent | .lessOverlap | .equal | .inside | .insideEdge | .contains => (some i, cmp)

/-- The outer loop of `add_to_range`: the blocks, and the one to add to; none where it returns at
once. There are 128 slots, so that the count is never above. -/
def target (run : Run) (blocks : List RunBlock) (compacted : Bool) :
    Outcome (List RunBlock × Option ℕ) :=
  let found := findTarget run 0 blocks none .equal
  let index := found.1.getD 0
  match blocks[index]? with
  | none => .died .trackerSlotEmpty
  | some b =>
    if b.runs.length < fullBlock then .ok (blocks, some index)
    else if found.1 = none then .died .trackerTargetMoved
    else if maxBlocks ≤ blocks.length then
      match compacted with
      | true => .raised .trackerTooComplex (blocks, none)
      | false =>
        match compact blocks with
        | .error e => e.leaving (blocks, none)
        | .ok blocks => if blocks = [] then .ok (blocks, none) else target run blocks true
    else if (found.2 = .less ∨ found.2 = .lessAdjacent) ∧ index + 1 = blocks.length then
      .ok (blocks ++ [{}], some (index + 1))
    else
      match _h : splitAtIndex blocks index with
      | .error e => e.leaving (blocks, none)
      | .ok blocks => if blocks = [] then .ok (blocks, none) else target run blocks true
termination_by (if compacted then 0 else 1, maxBlocks - blocks.length)
decreasing_by
  · exact Prod.Lex.left _ _ Nat.zero_lt_one
  · have hlength := length_splitAtIndex _h
    cases compacted with
    | true =>
      refine Prod.Lex.right _ ?_
      omega
    | false => exact Prod.Lex.left _ _ Nat.zero_lt_one

/-- The loop of `add_to_range` over the blocks after the one added to. A block that moves into the
place of one that is removed is not looked at. -/
def cleanup (run : Run) : List RunBlock → Except Failure (List RunBlock)
  | [] => .ok []
  | b :: rest =>
    match b.compare run with
    | .insideEdge | .greaterOverlap => (b.remove run).map (· :: rest)
    | .equal | .inside =>
      match rest with
      | [] => .ok []
      | skipped :: rest => (cleanup run rest).map (skipped :: ·)
    | .contains | .greaterAdjacent | .greater => .ok (b :: rest)
    | .less | .lessAdjacent | .lessOverlap => .error (.died .trackerAddUnordered)

/-- `Blocks::add_to_range`. -/
def addToRange (blocks : List RunBlock) (run : Run) : Outcome (List RunBlock) :=
  if blocks = [] then
    match RunBlock.add {} run with
    | .error e => e.leaving [{}]
    | .ok b => .ok [b]
  else
    match target run blocks false with
    | .died kind => .died kind
    | .raised kind (blocks, _) => .raised kind blocks
    | .ok (blocks, none) => .ok blocks
    | .ok (blocks, some index) =>
      match (blocks.getD index {}).add run with
      | .error e => e.leaving blocks
      | .ok b =>
        match cleanup run (blocks.drop (index + 1)) with
        | .error e => e.leaving blocks
        | .ok rest => .ok (blocks.take index ++ b :: rest)

/-- The loop of `remove_from_range`. -/
def removeLoop (run : Run) : List RunBlock → Except Failure (List RunBlock)
  | [] => .ok []
  | b :: rest =>
    match b.compare run with
    | .less | .lessAdjacent => (removeLoop run rest).map (b :: ·)
    | .lessOverlap | .greaterOverlap =>
      match b.remove run with
      | .error e => .error e
      | .ok b => (removeLoop run rest).map (b :: ·)
    | .equal | .inside | .insideEdge => .ok rest
    | .contains => (b.remove run).map (· :: rest)
    | .greaterAdjacent | .greater => .ok (b :: rest)

/-- `Blocks::remove_from_range`. -/
def removeFromRange (blocks : List RunBlock) (run : Run) : Outcome (List RunBlock) :=
  match removeLoop run blocks with
  | .error e => e.leaving blocks
  | .ok blocks => .ok blocks

/-- The loop of `test_range`. -/
def testRange : List RunBlock → Run → Except Failure Bool
  | [], run => .ok run.isEmpty
  | b :: rest, run =>
    match b.compare run with
    | .less | .lessAdjacent => testRange rest run
    | .lessOverlap | .insideEdge =>
      match b.test run with
      | .error e => .error e
      | .ok (_, false) => .ok false
      | .ok (run, true) => testRange rest run
    | .inside => .ok false
    | .equal | .contains =>
      match b.test run with
      | .error e => .error e
      | .ok (_, false) => .ok false
      | .ok (run, true) => if run.isEmpty then .ok true else .error (.died .trackerTestLeftover)
    | .greaterOverlap => (b.test run).map fun (run, covered) => covered && run.isEmpty
    | .greaterAdjacent | .greater => .ok run.isEmpty

/-- The inner loop of `unmapped_runs`: what is left of the range, and the runs found so far. -/
def unmappedLoop : List Run → Run → List Run → Except Failure (Run × List Run)
  | [], current, unmapped => .ok (current, unmapped)
  | run :: rest, current, unmapped =>
    match run.compare current with
    | .less | .lessAdjacent => unmappedLoop rest current unmapped
    | .lessOverlap | .insideEdge =>
      match current.subtractOverlap run with
      | none => .error (.raised .runSubtractInside)
      | some current => unmappedLoop rest current unmapped
    | .equal | .contains => .ok ({}, unmapped)
    | .inside =>
      let (current, remainder) := current.subtractInside run
      if current.isEmpty then .error (.died .trackerVisitEmptyRun)
      else if unmapped.length < unmappedMax then unmappedLoop rest remainder (unmapped ++ [current])
      else .error (.raised .trackerUnmappedTooComplex)
    | .greaterOverlap =>
      match current.subtractOverlap run with
      | none => .error (.raised .runSubtractInside)
      | some current => .ok (current, unmapped)
    | .greaterAdjacent | .greater => .ok (current, unmapped)

/-- The outer loop of `unmapped_runs`. -/
def unmappedBlocks : List RunBlock → Run → List Run → Except Failure (Run × List Run)
  | [], current, unmapped => .ok (current, unmapped)
  | b :: rest, current, unmapped =>
    match b.compare current with
    | .less | .lessAdjacent => unmappedBlocks rest current unmapped
    | .greaterAdjacent | .greater => .ok (current, unmapped)
    | .equal | .contains | .greaterOverlap => unmappedLoop b.runs current unmapped
    | .lessOverlap | .inside | .insideEdge =>
      match unmappedLoop b.runs current unmapped with
      | .error e => .error e
      | .ok (current, unmapped) => unmappedBlocks rest current unmapped

/-- `unmapped_runs`, of a run of pages. -/
def unmappedRuns (blocks : List RunBlock) (run : Run) : Except Failure (List Run) :=
  match unmappedBlocks blocks run [] with
  | .error e => .error e
  | .ok (current, unmapped) =>
    if current.isEmpty then .ok unmapped
    else if unmapped.length < unmappedMax then .ok (unmapped ++ [current])
    else .error (.raised .trackerUnmappedTooComplexTail)

end Blocks

/-! ### Ranges of bytes -/

namespace RangeTracker

variable (a : Arch)

/-- `calculate_page_run_aligned`. -/
def calculatePageRunAligned (offset length : UInt64) : Except RaiseKind Run :=
  if length = 0 ∨ length &&& pageMask a ≠ 0 then .error .trackerAlignedLength
  else if offset &&& pageMask a ≠ 0 then .error .trackerAlignedOffset
  else
    .ok ⟨(offset >>> UInt64.ofNat (pageShift a)).toUInt32,
      (length >>> UInt64.ofNat (pageShift a)).toUInt32⟩

/-- `calculate_page_run_unaligned`. -/
def calculatePageRunUnaligned (offset length : UInt64) : Except RaiseKind Run :=
  if length = 0 then .error .trackerZeroLength
  else
    let sum := offset + length + (pageSize a - 2) - (offset &&& ~~~pageMask a)
    .ok ⟨(offset >>> UInt64.ofNat (pageShift a)).toUInt32,
      (sum >>> UInt64.ofNat (pageShift a)).toUInt32⟩

/-- `get_range`. -/
def getRange (run : Run) : UInt64 × UInt64 :=
  (run.pageOffset.toUInt64 <<< UInt64.ofNat (pageShift a),
    run.pageLength.toUInt64 <<< UInt64.ofNat (pageShift a))

/-- `RangeTracker::add_to_range`. -/
def addToRange (blocks : List RunBlock) (offset length : UInt64) : Outcome (List RunBlock) :=
  match calculatePageRunAligned a offset length with
  | .error kind => .raised kind blocks
  | .ok run => Blocks.addToRange blocks run

/-- `RangeTracker::remove_from_range`. -/
def removeFromRange (blocks : List RunBlock) (offset length : UInt64) : Outcome (List RunBlock) :=
  match calculatePageRunAligned a offset length with
  | .error kind => .raised kind blocks
  | .ok run => Blocks.removeFromRange blocks run

/-- `test_range`. -/
def testRange (blocks : List RunBlock) (offset length : UInt64) : Except Failure Bool :=
  match calculatePageRunUnaligned a offset length with
  | .error kind => .error (.raised kind)
  | .ok run => Blocks.testRange blocks run

/-- `unmapped_runs`. -/
def unmappedRuns (blocks : List RunBlock) (offset length : UInt64) : Except Failure (List Run) :=
  match calculatePageRunUnaligned a offset length with
  | .error kind => .error (.raised kind)
  | .ok run => Blocks.unmappedRuns blocks run

section Visit

variable {σ : Type*} (visitor : UInt64 → UInt64 → σ → Except Failure Bool × σ)

/-- The loop of `visit_unmapped_ranges`, up to an answer that is false or a raise. -/
def visitRanges : List Run → σ → Except Failure Unit × σ
  | [], s => (.ok (), s)
  | run :: rest, s =>
    match visitor (getRange a run).1 (getRange a run).2 s with
    | (.error e, s) => (.error e, s)
    | (.ok false, s) => (.ok (), s)
    | (.ok true, s) => visitRanges rest s

/-- `visit_unmapped_ranges`. The lock is released before the visits. -/
def visitUnmappedRanges (blocks : List RunBlock) (offset length : UInt64) (s : σ) :
    Except Failure Unit × σ :=
  match unmappedRuns a blocks offset length with
  | .error e => (.error e, s)
  | .ok runs => visitRanges a visitor runs s

end Visit

end RangeTracker

end ReimsVgpu.Memory.Tracker
