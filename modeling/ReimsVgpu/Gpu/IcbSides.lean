import Mathlib.Data.Finmap
import ReimsVgpu.Library.Beliefs

/-!
# What is kept beside the records of indirect commands

Metal answers some of what core set on an indirect command though the command's record does not
hold it: buffer slots past the record's, threadgroup memory lengths past its lengths, and the
pipeline state. That is kept beside the commands, with the values a blit of a failed command buffer
may or may not have changed marked unknown, one by one.

## Main definitions

* `SetSlot`, `SetPipeline`, `CommandSide`: what is kept of one command.
* `Unknown`, `CommandSide.differs`: the values not known, and those two sides would answer apart.
* `Sides`, `Sides.take`, `Sides.unsettle`: a buffer's commands, after a blit that ran and after one
  that may have.
* `Sides.side`: a getter's read or a setter's write of one command.
* `CommandSide.belief`: what is kept of a command, as a belief about its values.

## Main results

* `Setter.belief_edit`: a setter writes the values it sets, and they are known.
* `CommandSide.belief_differs`: the values two sides would answer apart are those one belief and
  another differ by.
* `Sides.commands_take`, `Sides.belief_unsettle`: where each command's side comes from.
-/

namespace ReimsVgpu.Gpu.Icb

/-! ### The values kept -/

/-- A command's buffer slots of one stage. -/
inductive Slots
  | vertex
  | fragment
  | kernel
  deriving DecidableEq, Repr

/-- A buffer offset as Metal keeps it: its low 32 bits. -/
def keptOffset (offset : UInt64) : UInt64 := offset &&& 0xffffffff

/-- What Metal's getters answer of a buffer slot core set. -/
structure SetSlot where
  address : UInt64 := 0
  stride : UInt64 := 0
  deriving DecidableEq, Repr

/-- What is kept of a slot core set to a buffer, by its address, or to nil. -/
def SetSlot.of (buffer : Option UInt64) (offset stride : UInt64) : SetSlot where
  address := buffer.getD 0 + keptOffset offset
  stride := stride

/-- A pipeline state core set on a command, by its numbers. -/
structure SetPipeline where
  id : UInt64
  identifier : UInt64
  deriving DecidableEq, Repr

/-- What a getter reads of what is kept of a command, or a setter writes. -/
inductive Kept
  | slot (slots : Slots) (index : UInt32)
  | length (index : UInt32)
  | pipeline
  /-- All of it: a reset of the command. -/
  | all
  deriving DecidableEq, Repr

/-- What is kept of a command that a blit of a failed command buffer may or may not have
changed. -/
structure Unknown where
  slots : Finset (Slots × UInt32) := ∅
  lengths : Finset UInt32 := ∅
  pipeline : Bool := false

namespace Unknown

/-- The other's are unknown too. -/
def join (u v : Unknown) : Unknown where
  slots := u.slots ∪ v.slots
  lengths := u.lengths ∪ v.lengths
  pipeline := u.pipeline || v.pipeline

/-- Nothing is unknown. -/
def isEmpty (u : Unknown) : Bool := u.slots = ∅ && u.lengths = ∅ && !u.pipeline

/-- A kept value is unknown. -/
def holds (u : Unknown) : Kept → Bool
  | .slot slots index => (slots, index) ∈ u.slots
  | .length index => index ∈ u.lengths
  | .pipeline => u.pipeline
  | .all => !u.isEmpty

/-- A kept value is known again: core set it. -/
def settle (u : Unknown) : Kept → Unknown
  | .slot slots index => { u with slots := u.slots.erase (slots, index) }
  | .length index => { u with lengths := u.lengths.erase index }
  | .pipeline => { u with pipeline := false }
  | .all => {}

end Unknown

/-- What Metal answers of one command that its record does not hold. -/
structure CommandSide where
  slots : Finmap fun _ : Slots × UInt32 => SetSlot := ∅
  lengths : Finmap fun _ : UInt32 => UInt32 := ∅
  pipeline : Option SetPipeline := none
  /-- The point of the order of creations, releases and sets at which core set it. -/
  pipelineAt : ℕ := 0
  unknown : Unknown := {}
  /-- Metal's copy of commands past the buffer's end may have written over the record. -/
  corrupted : Bool := false

namespace CommandSide

/-- A slot's value, a fresh slot's where core set none. -/
def slot (s : CommandSide) (key : Slots × UInt32) : SetSlot := (s.slots.lookup key).getD {}

/-- A threadgroup memory length, 0 where core set none. -/
def length (s : CommandSide) (index : UInt32) : UInt32 := (s.lengths.lookup index).getD 0

/-- What the getters may answer apart for two commands: what either does not know, and each value
they keep differently, one core never set counting as a fresh command's. -/
def differs (s other : CommandSide) : Unknown :=
  let unknown := s.unknown.join other.unknown
  { slots := unknown.slots ∪
      (s.slots.keys ∪ other.slots.keys).filter fun key => s.slot key ≠ other.slot key
    lengths := unknown.lengths ∪
      (s.lengths.keys ∪ other.lengths.keys).filter fun i => s.length i ≠ other.length i
    pipeline := unknown.pipeline ||
      match s.pipeline, other.pipeline with
      | none, none => false
      | some a, some b => a != b
      | _, _ => true }

end CommandSide

/-! ### Getters and setters -/

/-- Core's getters of what is kept of a command. -/
inductive Getter
  | slot (slots : Slots) (index : UInt32)
  | length (index : UInt32)
  | pipeline
  deriving DecidableEq, Repr

/-- What a getter answers. -/
abbrev Getter.Value : Getter → Type
  | .slot _ _ => SetSlot
  | .length _ => UInt32
  | .pipeline => Option SetPipeline

/-- The kept value a getter reads. -/
def Getter.kept : Getter → Kept
  | .slot slots index => .slot slots index
  | .length index => .length index
  | .pipeline => .pipeline

/-- What a getter answers of a fresh command. -/
def Getter.fresh : (g : Getter) → g.Value
  | .slot _ _ => {}
  | .length _ => 0
  | .pipeline => none

/-- What a getter reads. -/
def CommandSide.read (s : CommandSide) : (g : Getter) → g.Value
  | .slot slots index => s.slot (slots, index)
  | .length index => s.length index
  | .pipeline => s.pipeline

/-- Core's setters of what is kept of a command, and its reset of the command. -/
inductive Setter
  /-- A buffer by its address, or nil, with its offset and attribute stride. -/
  | slot (slots : Slots) (index : UInt32) (buffer : Option UInt64) (offset stride : UInt64)
  | length (index value : UInt32)
  | pipeline (state : SetPipeline) (now : ℕ)
  | reset

namespace Setter

/-- What a setter writes. -/
def kept : Setter → Kept
  | slot slots index _ _ _ => .slot slots index
  | length index _ => .length index
  | pipeline _ _ => .pipeline
  | reset => .all

/-- The command's side as the setter leaves it, before what it wrote is known. -/
def edit : Setter → CommandSide → CommandSide
  | slot slots index buffer offset stride, s =>
    { s with slots := s.slots.insert (slots, index) (.of buffer offset stride) }
  | length index value, s => { s with lengths := s.lengths.insert index value }
  | pipeline state now, s => { s with pipeline := some state, pipelineAt := now }
  | reset, _ => {}

/-- The values a setter sets: those of a fresh command, for a reset. -/
def sets : Setter → (g : Getter) → Option g.Value
  | slot slots index buffer offset stride, .slot slots' index' =>
    if (slots, index) = (slots', index') then some (.of buffer offset stride) else none
  | length index value, .length index' => if index = index' then some value else none
  | pipeline state _, .pipeline => some (some state)
  | reset, g => some g.fresh
  | _, _ => none

end Setter

/-! ### A buffer's commands -/

/-- A range of commands. -/
structure Indices where
  start : ℕ
  stop : ℕ
  le : start ≤ stop

/-- How many commands a range has. -/
def Indices.count (r : Indices) : ℕ := r.stop - r.start

instance : Membership ℕ Indices := ⟨fun r i => r.start ≤ i ∧ i < r.stop⟩

instance (i : ℕ) (r : Indices) : Decidable (i ∈ r) :=
  inferInstanceAs (Decidable (r.start ≤ i ∧ i < r.stop))

/-- The range of so many commands from an index on. -/
def Indices.ofCount (start count : ℕ) : Indices := ⟨start, start + count, Nat.le_add_right start count⟩

/-- Where a command buffer is. -/
inductive Stage
  | encoding
  | committed
  | completed
  | failed
  | dropped
  deriving DecidableEq, Repr

/-- The GPU may still run some of it. -/
def Stage.running : Stage → Bool
  | encoding | committed => true
  | _ => false

/-- A blit that copies commands from a buffer, into one or resets them, kept while its command
buffer may run it. -/
structure Blit where
  progress : ℕ
  commands : Indices
  writes : Bool
  corrupts : Bool

/-- A getter's read or a setter's write. -/
inductive Access
  | read (kept : Kept)
  | write (kept : Kept)

/-- Why an access dies. -/
inductive Death
  /-- A read of a command a blit of a committed command buffer may be writing. -/
  | readRaces
  /-- A write of a command a blit of a committed command buffer may be reaching. -/
  | writeRaces
  /-- A read of a command Metal's copy past the buffer's end may have written over. -/
  | overrun
  /-- A read of what a blit of a failed command buffer may or may not have changed. -/
  | unknown
  deriving DecidableEq, Repr

namespace Blit

variable (stage : ℕ → Stage) (b : Blit)

/-- It can still change an answer. -/
def matters : Bool := (stage b.progress).running

/-- What an answer depends on, if it depends on whether the GPU ran the blit yet. -/
def races (access : Access) (index : ℕ) : Option Death :=
  if index ∈ b.commands then
    match stage b.progress, access, b.writes with
    | .committed, .read _, true => some .readRaces
    | .committed, .write _, _ => some .writeRaces
    | _, _, _ => none
  else none

end Blit

/-- A `u32`, if it is one. -/
def tryU32 (i : ℕ) : Option ℕ := if i < 2 ^ 32 then some i else none

/-- What Metal answers of a buffer's commands that their records do not hold, and the blits of them
that may still change it. -/
structure Sides where
  commands : ℕ → Option CommandSide := fun _ => none
  blits : List Blit := []

namespace Sides

variable (s : Sides)

/-- A command's side, a fresh one's where nothing is kept. -/
def get (index : ℕ) : CommandSide := (s.commands index).getD {}

/-- A command's side kept, or none. -/
def put (index : ℕ) (side : Option CommandSide) : Sides :=
  { s with commands := Function.update s.commands index side }

/-- Copies of what is kept of a range of commands. -/
def copies (source : Indices) : List (ℕ × Option CommandSide) :=
  (List.range' source.start source.count).map fun i => (i, (tryU32 i).bind s.commands)

/-- Commands from `into` are copies of commands from `start`. -/
def take (start into : ℕ) (moved : List (ℕ × Option CommandSide)) : Sides :=
  moved.foldl (fun s x => match tryU32 (into + (x.1 - start)) with
    | none => s
    | some index => s.put index x.2) s

/-- A command may or may not be the side given, none for a fresh command's: what the two would
answer apart is unknown. -/
def mayBe (index : ℕ) (side : Option CommandSide) : Sides :=
  let unknown := (s.get index).differs (side.getD {})
  let corrupted := side.any CommandSide.corrupted
  if !unknown.isEmpty || corrupted || (s.commands index).isSome then
    s.put index (some { s.get index with
      unknown, corrupted := (s.get index).corrupted || corrupted })
  else s

/-- Commands from `into` may or may not be copies of commands from `start`. -/
def unsettle (start into : ℕ) (moved : List (ℕ × Option CommandSide)) : Sides :=
  moved.foldl (fun s x => match tryU32 (into + (x.1 - start)) with
    | none => s
    | some index => s.mayBe index x.2) s

/-- The commands of a range, one after the other. -/
def each (range : Indices) (f : Sides → ℕ → Sides) : Sides :=
  (List.range' range.start range.count).foldl (fun s i => match tryU32 i with
    | none => s
    | some index => f s index) s

/-- The commands of a range are fresh: a blit that reset them ran. -/
def clear (range : Indices) : Sides := s.each range fun s index => s.put index none

/-- The commands of a range may or may not be fresh. -/
def mayClear (range : Indices) : Sides := s.each range fun s index => s.mayBe index none

/-- Metal's copy past the buffer's end may have written over the commands of a range. -/
def corrupt (range : Indices) : Sides :=
  s.each range fun s index => s.put index (some { s.get index with corrupted := true })

/-- The blits that can change no answer are let go of. -/
def retain (stage : ℕ → Stage) : Sides := { s with blits := s.blits.filter (Blit.matters stage) }

/-- A blit is kept until it can change no answer. -/
def blit (stage : ℕ → Stage) (b : Blit) : Sides :=
  { s.retain stage with blits := (s.retain stage).blits ++ [b] }

/-- Metal's copy past the buffer's end may have written over a record of a range, or may yet. -/
def overrun (stage : ℕ → Stage) (range : Indices) : Bool :=
  (List.range' range.start range.count).any
      (fun i => (s.commands i).any CommandSide.corrupted) ||
    (s.retain stage).blits.any fun b =>
      b.corrupts && range.start < b.commands.stop && b.commands.start < range.stop

/-- An access of a command: what the edit answers, with the buffer's sides after it, or why it
dies. A write leaves what it writes known. -/
def side {T : Type} (stage : ℕ → Stage) (access : Access) (index : ℕ)
    (edit : CommandSide → T × CommandSide) : Except Death (T × Sides) :=
  let s := s.retain stage
  match s.blits.findSome? fun b => b.races stage access index with
  | some race => .error race
  | none =>
    let side := s.get index
    match access with
    | .read kept =>
      if side.corrupted then .error .overrun
      else if side.unknown.holds kept then .error .unknown
      else .ok ((edit side).1, s.put index (some (edit side).2))
    | .write kept =>
      let edited := (edit side).2
      .ok ((edit side).1, s.put index (some { edited with unknown := edited.unknown.settle kept }))

/-- A getter's answer. -/
def getValue (stage : ℕ → Stage) (index : ℕ) (g : Getter) : Except Death (g.Value × Sides) :=
  s.side stage (.read g.kept) index fun side => (side.read g, side)

/-- A setter's write. -/
def setValue (stage : ℕ → Stage) (index : ℕ) (set : Setter) : Except Death Sides :=
  (s.side stage (.write set.kept) index fun side => ((), set.edit side)).map Prod.snd

end Sides

/-! ### As beliefs -/

namespace Unknown

@[simp] theorem holds_slot {u : Unknown} {slots : Slots} {index : UInt32} :
    u.holds (.slot slots index) = true ↔ (slots, index) ∈ u.slots := decide_eq_true_iff

@[simp] theorem holds_length {u : Unknown} {index : UInt32} :
    u.holds (.length index) = true ↔ index ∈ u.lengths := decide_eq_true_iff

@[simp] theorem holds_pipeline {u : Unknown} : u.holds .pipeline = u.pipeline := rfl

theorem holds_settle (u : Unknown) (set : Setter) (g : Getter) :
    (u.settle set.kept).holds g.kept = true ↔
      u.holds g.kept = true ∧ set.sets g = none := by
  cases set with
  | slot slots index =>
    cases g with
    | slot slots' index' =>
      by_cases h : (slots, index) = (slots', index')
      · simp [settle, Setter.kept, Getter.kept, Setter.sets, h]
      · have h' : (slots', index') ≠ (slots, index) := Ne.symm h
        simp [settle, Setter.kept, Getter.kept, Setter.sets, h, h']
    | length | pipeline => simp [settle, Setter.kept, Getter.kept, Setter.sets]
  | length index =>
    cases g with
    | length index' =>
      by_cases h : index = index'
      · simp [settle, Setter.kept, Getter.kept, Setter.sets, h]
      · have h' : index' ≠ index := Ne.symm h
        simp [settle, Setter.kept, Getter.kept, Setter.sets, h, h']
    | slot | pipeline => simp [settle, Setter.kept, Getter.kept, Setter.sets]
  | pipeline => cases g <;> simp [settle, Setter.kept, Getter.kept, Setter.sets]
  | reset => cases g <;> simp [settle, Setter.kept, Getter.kept, Setter.sets]

theorem not_holds_of_isEmpty {u : Unknown} (h : u.isEmpty = true) (g : Getter) :
    u.holds g.kept = false := by
  simp only [isEmpty, Bool.and_eq_true, decide_eq_true_eq, Bool.not_eq_true'] at h
  cases g <;> simp [holds, Getter.kept, h]

end Unknown

namespace CommandSide

variable (s other : CommandSide)

/-- What is kept of a command, as a belief about what its getters answer. -/
def belief : Belief Getter.Value where
  value := s.read
  unknown := {g | s.unknown.holds g.kept = true}

@[simp] theorem belief_default : ({} : CommandSide).belief = Belief.sure Getter.fresh := by
  ext g
  · cases g <;> simp [belief, Belief.sure, read, slot, length, Getter.fresh]
  · cases g <;> simp [belief, Belief.sure, Unknown.holds, Getter.kept]

/-- Two sides may answer a getter apart where either does not know its value, or they keep it
differently. -/
theorem holds_differs (g : Getter) :
    (s.differs other).holds g.kept = true ↔
      (s.unknown.holds g.kept = true ∨ other.unknown.holds g.kept = true) ∨
        s.read g ≠ other.read g := by
  cases g with
  | slot slots index =>
    have hkeys : s.slot (slots, index) ≠ other.slot (slots, index) →
        (slots, index) ∈ s.slots ∨ (slots, index) ∈ other.slots := by
      intro hne
      by_contra hno
      rw [not_or, ← Finmap.lookup_eq_none, ← Finmap.lookup_eq_none] at hno
      exact hne (by rw [slot, slot, hno.1, hno.2])
    simp only [differs, Unknown.join, Unknown.holds, Getter.kept, read, Finset.mem_union,
      Finset.mem_filter, Finmap.mem_keys, decide_eq_true_eq]
    exact or_congr_right (and_iff_right_of_imp hkeys)
  | length index =>
    have hkeys : s.length index ≠ other.length index → index ∈ s.lengths ∨ index ∈ other.lengths := by
      intro hne
      by_contra hno
      rw [not_or, ← Finmap.lookup_eq_none, ← Finmap.lookup_eq_none] at hno
      exact hne (by rw [length, length, hno.1, hno.2])
    simp only [differs, Unknown.join, Unknown.holds, Getter.kept, read, Finset.mem_union,
      Finset.mem_filter, Finmap.mem_keys, decide_eq_true_eq]
    exact or_congr_right (and_iff_right_of_imp hkeys)
  | pipeline =>
    simp only [differs, Unknown.join, Unknown.holds, Getter.kept, read, Bool.or_eq_true]
    refine or_congr_right ?_
    cases s.pipeline <;> cases other.pipeline <;> simp

theorem belief_differs (corrupted : Bool) :
    ({ s with unknown := s.differs other, corrupted } : CommandSide).belief =
      s.belief.mayBe other.belief := by
  ext g
  · rfl
  · exact holds_differs s other g

end CommandSide

theorem Setter.belief_edit (set : Setter) (s : CommandSide) :
    ({ set.edit s with unknown := (set.edit s).unknown.settle set.kept } : CommandSide).belief =
      s.belief.write set.sets := by
  have hvalue (g : Getter) : (set.edit s).read g = (set.sets g).getD (s.read g) := by
    cases set with
    | slot slots index buffer offset stride =>
      cases g with
      | slot slots' index' =>
        by_cases h : (slots, index) = (slots', index')
        · simp [edit, sets, CommandSide.read, CommandSide.slot, h]
        · have h' : (slots', index') ≠ (slots, index) := Ne.symm h
          simp [edit, sets, CommandSide.read, CommandSide.slot, h, Finmap.lookup_insert_of_ne _ h']
      | length | pipeline => rfl
    | length index value =>
      cases g with
      | length index' =>
        by_cases h : index = index'
        · simp [edit, sets, CommandSide.read, CommandSide.length, h]
        · have h' : index' ≠ index := Ne.symm h
          simp [edit, sets, CommandSide.read, CommandSide.length, h,
            Finmap.lookup_insert_of_ne _ h']
      | slot | pipeline => rfl
    | pipeline state now => cases g <;> rfl
    | reset => cases g <;> rfl
  have hunknown : (set.edit s).unknown.settle set.kept = s.unknown.settle set.kept := by
    cases set <;> rfl
  ext g
  · exact hvalue g
  · change _ = true ↔ _
    rw [hunknown]
    exact s.unknown.holds_settle set g

namespace Sides

variable (s t : Sides)

/-- What is kept of each command of a buffer, as beliefs. -/
def belief (index : ℕ) : Belief Getter.Value := (s.get index).belief

theorem belief_put (index : ℕ) (side : Option CommandSide) :
    (s.put index side).belief = Function.update s.belief index (side.getD {}).belief := by
  funext j
  by_cases h : j = index
  · subst h
    change ((Function.update s.commands j side j).getD {}).belief = _
    rw [Function.update_self, Function.update_self]
  · change ((Function.update s.commands index side j).getD {}).belief = _
    rw [Function.update_of_ne h, Function.update_of_ne h]
    rfl

theorem belief_mayBe (index : ℕ) (side : Option CommandSide) :
    (s.mayBe index side).belief = Function.update s.belief index
      ((s.belief index).mayBe (side.getD {}).belief) := by
  rw [mayBe]
  dsimp only
  split_ifs with h
  · rw [belief_put, Option.getD_some, CommandSide.belief_differs]
    rfl
  · -- nothing is unknown of a command nothing is kept of: both sides are a fresh command's
    simp only [Bool.or_eq_true, Bool.not_eq_true', not_or, Bool.not_eq_false] at h
    have hsame : (s.belief index).mayBe (side.getD {}).belief = s.belief index := by
      rw [belief, ← CommandSide.belief_differs _ _ (s.get index).corrupted]
      ext g
      · rfl
      · have hnew := Unknown.not_holds_of_isEmpty h.1.1 g
        have hold : (s.get index).unknown.holds g.kept = false := by
          by_contra hu
          rw [Bool.not_eq_false] at hu
          rw [(CommandSide.holds_differs _ _ g).mpr (.inl (.inl hu))] at hnew
          cases hnew
        exact iff_of_false (by simpa [CommandSide.belief] using hnew)
          (by simpa [CommandSide.belief] using hold)
    rw [hsame, Function.update_eq_self]

/-- A fold over a range whose turns each change what is read of one command. -/
theorem value_foldl {T : Type*} (g : Sides → ℕ → T) {f : Sides → ℕ → Sides} {start n : ℕ}
    (into : ℕ) {h : ℕ → T → T}
    (hf : ∀ s i, start ≤ i → i < start + n → g (f s i) =
      Function.update (g s) (into + (i - start)) (h i (g s (into + (i - start))))) :
    g ((List.range' start n).foldl f s) = fun j =>
      if into ≤ j ∧ j < into + n then h (start + (j - into)) (g s j) else g s j := by
  induction n with
  | zero =>
    funext j
    rw [if_neg (by omega)]
    rfl
  | succ n ih =>
    rw [List.range'_concat, List.foldl_append, List.foldl_cons, List.foldl_nil, Nat.one_mul,
      hf _ _ (by omega) (by omega), ih fun s i hi hn => hf s i hi (by omega)]
    funext j
    rw [Nat.add_sub_cancel_left]
    by_cases hj : j = into + n
    · subst hj
      rw [Function.update_self, if_pos (by omega), Nat.add_sub_cancel_left]
      dsimp only
      rw [if_neg (by omega)]
    · rw [Function.update_of_ne hj]
      exact if_congr (by omega) rfl rfl

variable {source range : Indices} {into : ℕ}

theorem foldl_copies (f : Sides → ℕ × Option CommandSide → Sides) :
    (t.copies source).foldl f s =
      (List.range' source.start source.count).foldl
        (fun s i => f s (i, (tryU32 i).bind t.commands)) s := by
  rw [copies, List.foldl_map]

theorem tryU32_of_lt {i : ℕ} (h : i < 2 ^ 32) : tryU32 i = some i := if_pos h

/-- A copy that ran: each command it writes is believed as the one it copies was. -/
theorem belief_take (hsource : source.stop ≤ 2 ^ 32) (hinto : into + source.count ≤ 2 ^ 32) :
    (s.take source.start into (t.copies source)).belief = fun j =>
      if into ≤ j ∧ j < into + source.count then t.belief (source.start + (j - into))
      else s.belief j := by
  have hcount : source.start + source.count ≤ 2 ^ 32 := by
    rw [Indices.count, Nat.add_sub_cancel' source.le]
    exact hsource
  rw [take, foldl_copies]
  refine s.value_foldl belief into (h := fun i _ => t.belief i) fun s i hi hn => ?_
  dsimp only
  rw [tryU32_of_lt (i := i) (by omega), tryU32_of_lt (by omega), Option.bind_some]
  exact s.belief_put _ _

/-- A copy that may have run: each command it writes is believed as before or as the one it
copies. -/
theorem belief_unsettle (hsource : source.stop ≤ 2 ^ 32) (hinto : into + source.count ≤ 2 ^ 32) :
    (s.unsettle source.start into (t.copies source)).belief = fun j =>
      if into ≤ j ∧ j < into + source.count then
        (s.belief j).mayBe (t.belief (source.start + (j - into)))
      else s.belief j := by
  have hcount : source.start + source.count ≤ 2 ^ 32 := by
    rw [Indices.count, Nat.add_sub_cancel' source.le]
    exact hsource
  rw [unsettle, foldl_copies]
  refine s.value_foldl belief into (h := fun i b => b.mayBe (t.belief i)) fun s i hi hn => ?_
  dsimp only
  rw [tryU32_of_lt (i := i) (by omega), tryU32_of_lt (by omega), Option.bind_some]
  exact s.belief_mayBe _ _

/-- Each command of a range, one after the other. -/
theorem value_each {T : Type*} (g : Sides → ℕ → T) {f : Sides → ℕ → Sides} {h : T → T}
    (hrange : range.stop ≤ 2 ^ 32)
    (hf : ∀ s i, g (f s i) = Function.update (g s) i (h (g s i))) :
    g (s.each range f) = fun j => if j ∈ range then h (g s j) else g s j := by
  have hcount : range.start + range.count = range.stop := Nat.add_sub_cancel' range.le
  rw [each, s.value_foldl g range.start (h := fun _ => h) fun s i hi hn => ?_]
  · rw [hcount]
    rfl
  · rw [tryU32_of_lt (by omega), Nat.add_sub_cancel' hi]
    exact hf s i

theorem belief_clear (hrange : range.stop ≤ 2 ^ 32) :
    (s.clear range).belief = fun j =>
      if j ∈ range then Belief.sure Getter.fresh else s.belief j :=
  s.value_each belief (h := fun _ => Belief.sure Getter.fresh) hrange fun s i => by
    rw [belief_put, Option.getD_none, CommandSide.belief_default]

theorem belief_mayClear (hrange : range.stop ≤ 2 ^ 32) :
    (s.mayClear range).belief = fun j =>
      if j ∈ range then (s.belief j).mayBe (Belief.sure Getter.fresh) else s.belief j :=
  s.value_each belief (h := fun b => b.mayBe (Belief.sure Getter.fresh)) hrange fun s i => by
    rw [belief_mayBe, Option.getD_none, CommandSide.belief_default]

/-- A record written over leaves what is kept beside it as it was. -/
theorem belief_corrupt (hrange : range.stop ≤ 2 ^ 32) : (s.corrupt range).belief = s.belief := by
  rw [corrupt, s.value_each belief (h := id) hrange fun s i => by rw [belief_put]; rfl]
  funext j
  exact ite_self _

theorem belief_retain (stage : ℕ → Stage) : (s.retain stage).belief = s.belief := rfl

/-! ### Accesses -/

theorem mem_retain {stage : ℕ → Stage} {b : Blit} :
    b ∈ (s.retain stage).blits ↔ b ∈ s.blits ∧ (stage b.progress).running = true := by
  rw [retain, List.mem_filter]
  rfl

/-- An access that does not race reaches no command a committed blit does, but for a read of one
that blit does not write. -/
theorem races_eq_none {stage : ℕ → Stage} {access : Access} {index : ℕ}
    (h : (s.retain stage).blits.findSome? (fun b => b.races stage access index) = none) {b : Blit}
    (hb : b ∈ s.blits) (hstage : stage b.progress = .committed) (hi : index ∈ b.commands) :
    b.writes = false ∧ ∃ kept, access = .read kept := by
  have hmem : b ∈ (s.retain stage).blits := s.mem_retain.mpr ⟨hb, by rw [hstage]; rfl⟩
  have hrace := List.findSome?_eq_none_iff.mp h b hmem
  simp only [Blit.races, if_pos hi, hstage] at hrace
  cases access with
  | read kept =>
    cases hw : b.writes with
    | false => exact ⟨rfl, kept, rfl⟩
    | true => simp only [hw, reduceCtorEq] at hrace
  | write kept => simp only [reduceCtorEq] at hrace

/-- A getter answers what is kept, where it is known and no committed blit may be writing the
command. -/
theorem getValue_spec {stage : ℕ → Stage} {index : ℕ} {g : Getter} {v : g.Value} {s' : Sides}
    (h : s.getValue stage index g = .ok (v, s')) :
    (∀ b ∈ s.blits, stage b.progress = .committed → index ∈ b.commands → b.writes = false) ∧
      (s.get index).unknown.holds g.kept = false ∧ v = (s.get index).read g ∧
      s' = (s.retain stage).put index (some (s.get index)) := by
  rw [getValue, side] at h
  dsimp only at h
  split at h
  · cases h
  · rename_i hnone
    split_ifs at h with hcorrupted hunknown
    injection h with h
    injection h with hv hs
    refine ⟨fun b hb hstage hi => (s.races_eq_none hnone hb hstage hi).1, ?_, hv.symm, hs.symm⟩
    exact Bool.not_eq_true _ ▸ hunknown

/-- A setter writes a command no committed blit reaches. -/
theorem setValue_spec {stage : ℕ → Stage} {index : ℕ} {set : Setter} {s' : Sides}
    (h : s.setValue stage index set = .ok s') :
    (∀ b ∈ s.blits, stage b.progress = .committed → index ∉ b.commands) ∧
      s' = (s.retain stage).put index (some { set.edit (s.get index) with
        unknown := (set.edit (s.get index)).unknown.settle set.kept }) := by
  rw [setValue, side] at h
  dsimp only at h
  split at h
  · cases h
  · rename_i hnone
    injection h with h
    refine ⟨fun b hb hstage hi => ?_, h.symm⟩
    obtain ⟨-, kept, hkept⟩ := s.races_eq_none hnone hb hstage hi
    cases hkept

theorem belief_getValue {stage : ℕ → Stage} {index : ℕ} {g : Getter} {v : g.Value} {s' : Sides}
    (h : s.getValue stage index g = .ok (v, s')) : s'.belief = s.belief := by
  obtain ⟨-, -, -, rfl⟩ := s.getValue_spec h
  rw [belief_put, belief_retain]
  exact Function.update_eq_self index s.belief

theorem belief_setValue {stage : ℕ → Stage} {index : ℕ} {set : Setter} {s' : Sides}
    (h : s.setValue stage index set = .ok s') :
    s'.belief = Function.update s.belief index ((s.belief index).write set.sets) := by
  obtain ⟨-, rfl⟩ := s.setValue_spec h
  rw [belief_put, Option.getD_some, Setter.belief_edit]
  rfl

theorem blits_put (index : ℕ) (side : Option CommandSide) : (s.put index side).blits = s.blits := rfl

theorem blits_mayBe (index : ℕ) (side : Option CommandSide) :
    (s.mayBe index side).blits = s.blits := by
  rw [mayBe]
  dsimp only
  split_ifs <;> rfl

theorem blits_foldl {α : Type} {f : Sides → α → Sides} (hf : ∀ s x, (f s x).blits = s.blits)
    (l : List α) : (l.foldl f s).blits = s.blits := by
  induction l generalizing s with
  | nil => rfl
  | cons x l ih => exact (ih (f s x)).trans (hf s x)

theorem blits_take (start : ℕ) (moved : List (ℕ × Option CommandSide)) :
    (s.take start into moved).blits = s.blits :=
  s.blits_foldl (fun s x => by split <;> rfl) moved

theorem blits_unsettle (start : ℕ) (moved : List (ℕ × Option CommandSide)) :
    (s.unsettle start into moved).blits = s.blits :=
  s.blits_foldl (fun s x => by split; exacts [rfl, s.blits_mayBe _ _]) moved

theorem blits_each {f : Sides → ℕ → Sides} (hf : ∀ s i, (f s i).blits = s.blits) :
    (s.each range f).blits = s.blits :=
  s.blits_foldl (fun s i => by split; exacts [rfl, hf s _]) _

end Sides

end ReimsVgpu.Gpu.Icb
