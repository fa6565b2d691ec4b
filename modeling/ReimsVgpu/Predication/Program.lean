import ReimsVgpu.Predication.Encoder

/-!
# What a unit means, and what its encoding does

A unit is a program: setters, work and changes of encoder, and conditional and repeated blocks of
them. Setters take effect in the order they are encoded, whichever branch runs, so the bindings of
a piece of work are those of the text. The flat sequence runs on the GPU, its steps on the skip
counter.

Memory and the effect of work on it are parameters: what a piece of work does is a function of what
it is bound to and of memory.

## Main definitions

* `predicationStep`: the step kernel.
* `Gpu`, `Gpu.runAll`: a run of what the adapter encodes.
* `Block`, `Block.exec`: a program and its run, no loop entered taking more turns than allowed.
* `Block.records`: the program as the guest sends it.
-/

namespace ReimsVgpu.Predication

/-! ### The step kernel -/

/-- Whether `word OP reference` holds. -/
def holds (word comparison reference : UInt32) : Bool :=
  if comparison = 1 then word != reference
  else if comparison = 2 then decide (word > reference)
  else if comparison = 3 then decide (word ≥ reference)
  else if comparison = 4 then decide (word < reference)
  else if comparison = 5 then decide (word ≤ reference)
  else word == reference

/-- The counter after a step that found it at `c`; `met` is whether the step's condition holds. -/
def nextCounter (op : StepOp) (c : UInt32) (met : Bool) : UInt32 :=
  match op with
  | .startIf => if c ≠ 0 then c + 1 else if met then 0 else 1
  | .startElse => if c = 0 then 1 else if c = 1 then 0 else c
  | .endBlock => if c ≠ 0 then c - 1 else 0
  | .enter => if c ≠ 0 then c + 1 else 0
  | .check => if c = 0 ∧ met = false then 1 else c
  | _ => c

/-- The arguments a step writes. -/
def stepOut (s : Step) (c : UInt32) (guest : ℕ → UInt32) : List UInt32 :=
  (List.range (min s.args.length 8)).map fun i =>
    let v := if s.op = .args then s.args.getD i 0 else guest i
    if c ≠ 0 ∧ (s.mask >>> UInt32.ofNat i) &&& 1 ≠ 0 then 0 else v

/-- The state buffer: the counter, then one flag per loop. -/
structure StateBuffer where
  counter : UInt32
  flags : ℕ → UInt32

/-- The step kernel: the state after it, and the arguments it writes, if it writes any. -/
def predicationStep (state : StateBuffer) (s : Step) (guest : ℕ → UInt32) :
    StateBuffer × Option (List UInt32) :=
  let c := if s.reset then 0 else state.counter
  let flags := if s.op = .overrun ∧ c = 0 then Function.update state.flags s.flag 1 else state.flags
  let out := if s.op = .args ∨ s.op = .guestArgs then some (stepOut s c guest) else none
  ({ counter := nextCounter s.op c (holds (guest 0) s.comparison s.reference), flags := flags }, out)

/-! ### Work and memory -/

/-- A memory, with what a piece of work does to it in its direct form, and in its indirect form with
given arguments. -/
structure Semantics (Mem : Type*) where
  word : Mem → Id → UInt64 → UInt32
  effect : Work → View → Mem → Mem
  indirect : Form → View → List UInt32 → Mem → Mem

/-- The words of the arguments that are 0 while skipped are 0. -/
def Form.idle (f : Form) (args : List UInt32) : Bool :=
  (List.range args.length).all fun i =>
    (f.mask >>> UInt32.ofNat i) &&& 1 == 0 || args.getD i 0 == 0

section

variable {Mem : Type*} (sem : Semantics Mem)

/-- So many words of a buffer. -/
def Semantics.words (m : Mem) (buffer : Id) (offset : UInt64) (count : ℕ) : List UInt32 :=
  (List.range count).map fun i => sem.word m buffer (offset + UInt64.ofNat (4 * i))

/-- The arguments a piece of work runs with. -/
def Semantics.arguments (m : Mem) : Work → List UInt32
  | .threadgroups groups _ => axes groups
  | .threadgroupsIndirect buffer offset _ => sem.words m buffer (offset &&& ~~~3) 3
  | .threads grid perGroup => axes grid ++ axes perGroup
  | .threadsIndirect buffer offset => sem.words m buffer (offset &&& ~~~3) 6
  | .execute _ start stop => [start.toUInt32, UInt32.ofNat (stop.toNat - start.toNat)]
  | .executeIndirect _ buffer offset => sem.words m buffer offset 2

/-- What the runtime documents: the indirect form does what the direct form does with the same
arguments, a direct form it takes as running nothing runs nothing, and so does an indirect form
whose masked words are 0. -/
structure Semantics.Lawful (device : Device) : Prop where
  effect_eq : ∀ w v m, w.directOnly device v.pipeline = false →
    sem.effect w v m = sem.indirect w.form v (sem.arguments m w) m
  effect_directOnly : ∀ w v m, w.directOnly device v.pipeline = true → sem.effect w v m = m
  indirect_idle : ∀ f v args m, f.idle args = true → sem.indirect f v args m = m

/-- A piece of work that ran, with what it was bound to and its arguments. -/
structure Done where
  work : Work
  view : View
  args : List UInt32

/-- Whether it can have had an effect. -/
def Done.effective (device : Device) (d : Done) : Bool :=
  !d.work.directOnly device d.view.pipeline && !d.work.form.idle d.args

/-- The work that can have had an effect. -/
def effective (device : Device) (done : List Done) : List Done :=
  done.filter fun d => d.effective device

/-! ### A run on the GPU -/

/-- The state buffer, the arguments of each step, guest memory and the work that ran. -/
structure Gpu (Mem : Type*) where
  state : StateBuffer
  outs : ℕ → List UInt32
  mem : Mem
  done : List Done

/-- The words a step reads: the guest's, or where it reads none the state buffer's. -/
def Gpu.guest (g : Gpu Mem) : Option (Id × UInt64) → ℕ → UInt32
  | some (buffer, offset), i => sem.word g.mem buffer (offset + UInt64.ofNat (4 * i))
  | none, 0 => g.state.counter
  | none, i + 1 => g.state.flags i

/-- One command. -/
def Gpu.run (g : Gpu Mem) : Flat → Gpu Mem
  | .step number s guest =>
    let (state, out) := predicationStep g.state s (g.guest sem guest)
    { g with
      state := state
      outs := match out with
        | some out => Function.update g.outs number out
        | none => g.outs }
  | .direct w v =>
    { g with mem := sem.effect w v g.mem, done := g.done ++ [⟨w, v, sem.arguments g.mem w⟩] }
  | .indirect w number v =>
    { g with
      mem := sem.indirect w.form v (g.outs number) g.mem
      done := g.done ++ [⟨w, v, g.outs number⟩] }

/-- A sequence of commands. -/
def Gpu.runAll (g : Gpu Mem) (seq : List Flat) : Gpu Mem := seq.foldl (Gpu.run sem) g

end

/-! ### Programs -/

/-- A condition of a record. -/
structure Test where
  buffer : Id
  offset : UInt64
  comparison : UInt64
  reference : UInt32
  deriving DecidableEq, Repr

/-- A program; each constructor has what follows it. -/
inductive Block
  | done
  | set (s : Setter) (rest : Block)
  | work (w : Work) (rest : Block)
  | encoder (rest : Block)
  | ifThen (c : Test) (body rest : Block)
  | ifElse (c : Test) (body other rest : Block)
  | whileDo (c : Test) (body rest : Block)
  | doWhile (body : Block) (c : Test) (rest : Block)
  deriving DecidableEq, Repr

section

variable {Mem : Type*} (sem : Semantics Mem)

/-- The comparisons of a record, unsigned; one that is none of 0 to 5 is equality. -/
def compares (comparison : ℕ) (word reference : UInt32) : Bool :=
  match comparison with
  | 1 => word != reference
  | 2 => decide (word > reference)
  | 3 => decide (word ≥ reference)
  | 4 => decide (word < reference)
  | 5 => decide (word ≤ reference)
  | _ => word == reference

/-- The condition, read now, of the aligned word at or below the offset. -/
def Test.holds (m : Mem) (c : Test) : Bool :=
  compares c.comparison.toNat (sem.word m c.buffer (c.offset &&& ~~~3)) c.reference

/-- The turns of a While, at most so many. -/
def turnsWhile (c : Mem → Bool) (body : Mem → Option (Mem × List Done)) :
    ℕ → Mem → Option (Mem × List Done)
  | 0, m => if c m then none else some (m, [])
  | n + 1, m =>
    if c m then do
      let (m, first) ← body m
      let (m, others) ← turnsWhile c body n m
      some (m, first ++ others)
    else some (m, [])

/-- The turns of a DoWhile, at most so many. -/
def turnsDoWhile (c : Mem → Bool) (body : Mem → Option (Mem × List Done)) :
    ℕ → Mem → Option (Mem × List Done)
  | 0, _ => none
  | n + 1, m => do
    let (m, first) ← body m
    if c m then do
      let (m, others) ← turnsDoWhile c body n m
      some (m, first ++ others)
    else some (m, first)

end

/-- The condition's word lies in its buffer. -/
def Test.Within (device : Device) (c : Test) : Prop :=
  (c.offset &&& ~~~3).toNat + 4 ≤ (device.bufferLength c.buffer).toNat

namespace Block

/-- The bindings after a program, each block's body encoded once. -/
def after : Block → Bindings → Bindings
  | done, b => b
  | set s rest, b => rest.after (b.apply s)
  | work _ rest, b => rest.after b
  | encoder rest, _ => rest.after {}
  | ifThen _ body rest, b => rest.after (body.after b)
  | ifElse _ body other rest, b => rest.after (other.after (body.after b))
  | whileDo _ body rest, b => rest.after (body.after b)
  | doWhile body _ rest, b => rest.after (body.after b)

/-- One run and then another, with the work of both. -/
def andThen {Mem : Type*} (first : Option (Mem × List Done))
    (next : Mem → Option (Mem × List Done)) : Option (Mem × List Done) := do
  let (m, ran) ← first
  let (m, others) ← next m
  some (m, ran ++ others)

/-- A run of a program inside `depth` loops, from bindings and a memory: the memory it leaves and
the work it ran. A loop entered inside `d` others may take at most `limit d` turns; past them there
is no run. -/
def exec {Mem : Type*} (sem : Semantics Mem) (limit : ℕ → ℕ) :
    Block → ℕ → Bindings → Mem → Option (Mem × List Done)
  | done, _, _, m => some (m, [])
  | set s rest, depth, b, m => rest.exec sem limit depth (b.apply s) m
  | work w rest, depth, b, m =>
    andThen (some (sem.effect w b.view m, [⟨w, b.view, sem.arguments m w⟩]))
      (rest.exec sem limit depth b)
  | encoder rest, depth, _, m => rest.exec sem limit depth {} m
  | ifThen c body rest, depth, b, m =>
    andThen (if c.holds sem m then body.exec sem limit depth b m else some (m, []))
      (rest.exec sem limit depth (body.after b))
  | ifElse c body other rest, depth, b, m =>
    andThen
      (if c.holds sem m then body.exec sem limit depth b m
      else other.exec sem limit depth (body.after b) m)
      (rest.exec sem limit depth (other.after (body.after b)))
  | whileDo c body rest, depth, b, m =>
    andThen
      (turnsWhile (c.holds sem) (fun m => body.exec sem limit (depth + 1) b m) (limit depth) m)
      (rest.exec sem limit depth (body.after b))
  | doWhile body c rest, depth, b, m =>
    andThen
      (turnsDoWhile (c.holds sem) (fun m => body.exec sem limit (depth + 1) b m) (limit depth) m)
      (rest.exec sem limit depth (body.after b))

/-- The program as the guest sends it. -/
def records : Block → List Logged
  | done => []
  | set s rest => .cmd (.set s) :: rest.records
  | work w rest => .cmd (.work w) :: rest.records
  | encoder rest => .encoder :: rest.records
  | ifThen c body rest =>
    .cmd (.startIf (some c.buffer) c.offset c.comparison c.reference) ::
      (body.records ++ .endIf :: rest.records)
  | ifElse c body other rest =>
    .cmd (.startIf (some c.buffer) c.offset c.comparison c.reference) ::
      (body.records ++ .cmd .startElse :: (other.records ++ .endIf :: rest.records))
  | whileDo c body rest =>
    .cmd (.startWhile (some c.buffer) c.offset c.comparison c.reference) ::
      (body.records ++ .endWhile :: rest.records)
  | doWhile body c rest =>
    .cmd .startDoWhile ::
      (body.records ++ .endDoWhile (some c.buffer) c.offset c.comparison c.reference ::
        rest.records)

/-- How many blocks are open at once, at most. -/
def depth : Block → ℕ
  | done => 0
  | set _ rest => rest.depth
  | work _ rest => rest.depth
  | encoder rest => rest.depth
  | ifThen _ body rest => max (body.depth + 1) rest.depth
  | ifElse _ body other rest => max (max body.depth other.depth + 1) rest.depth
  | whileDo _ body rest => max (body.depth + 1) rest.depth
  | doWhile body _ rest => max (body.depth + 1) rest.depth

/-- How many loops are open at once, at most. -/
def loopDepth : Block → ℕ
  | done => 0
  | set _ rest => rest.loopDepth
  | work _ rest => rest.loopDepth
  | encoder rest => rest.loopDepth
  | ifThen _ body rest => max body.loopDepth rest.loopDepth
  | ifElse _ body other rest => max (max body.loopDepth other.loopDepth) rest.loopDepth
  | whileDo _ body rest => max (body.loopDepth + 1) rest.loopDepth
  | doWhile body _ rest => max (body.loopDepth + 1) rest.loopDepth

/-- The loops of a program. -/
def loopCount : Block → ℕ
  | done => 0
  | set _ rest => rest.loopCount
  | work _ rest => rest.loopCount
  | encoder rest => rest.loopCount
  | ifThen _ body rest => body.loopCount + rest.loopCount
  | ifElse _ body other rest => body.loopCount + other.loopCount + rest.loopCount
  | whileDo _ body rest => body.loopCount + 1 + rest.loopCount
  | doWhile body _ rest => body.loopCount + 1 + rest.loopCount

/-- Every condition's word lies in its buffer, and so do the arguments of the work that is sent in
its indirect form: that inside a block that can skip (`predicated`), but for what is sent direct
there too. -/
def Within (device : Device) : Block → Bool → Bindings → Prop
  | done, _, _ => True
  | set s rest, predicated, b => rest.Within device predicated (b.apply s)
  | work w rest, predicated, b =>
    (predicated = true → w.emptyRange = false → w.directOnly device b.pipeline = false →
      ∃ s, w.arguments device = .ok s) ∧ rest.Within device predicated b
  | encoder rest, predicated, _ => rest.Within device predicated {}
  | ifThen c body rest, predicated, b =>
    c.Within device ∧ body.Within device true b ∧ rest.Within device predicated (body.after b)
  | ifElse c body other rest, predicated, b =>
    c.Within device ∧ body.Within device true b ∧ other.Within device true (body.after b) ∧
      rest.Within device predicated (other.after (body.after b))
  | whileDo c body rest, predicated, b =>
    c.Within device ∧ body.Within device true b ∧ rest.Within device predicated (body.after b)
  | doWhile body c rest, predicated, b =>
    c.Within device ∧ body.Within device true b ∧ rest.Within device predicated (body.after b)

/-- The guest has set a pipeline wherever it sends work inside a block that can skip, but for an
execution of no command. -/
def PipelineSet : Block → Bool → Bindings → Prop
  | done, _, _ => True
  | set s rest, predicated, b => rest.PipelineSet predicated (b.apply s)
  | work w rest, predicated, b =>
    (predicated = true → w.emptyRange = false → b.pipeline ≠ none) ∧ rest.PipelineSet predicated b
  | encoder rest, predicated, _ => rest.PipelineSet predicated {}
  | ifThen _ body rest, predicated, b =>
    body.PipelineSet true b ∧ rest.PipelineSet predicated (body.after b)
  | ifElse _ body other rest, predicated, b =>
    body.PipelineSet true b ∧ other.PipelineSet true (body.after b) ∧
      rest.PipelineSet predicated (other.after (body.after b))
  | whileDo _ body rest, predicated, b =>
    body.PipelineSet true b ∧ rest.PipelineSet predicated (body.after b)
  | doWhile body _ rest, predicated, b =>
    body.PipelineSet true b ∧ rest.PipelineSet predicated (body.after b)

end Block

/-- The turns laid down of a loop inside `depth` others. -/
def laidDown (depth : ℕ) : ℕ := if depth = 0 then unroll else nestedUnroll

end ReimsVgpu.Predication
