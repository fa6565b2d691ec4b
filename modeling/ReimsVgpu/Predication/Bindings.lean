import Mathlib.Algebra.Group.Nat.Defs
import Mathlib.Data.List.Basic
import Mathlib.Logic.Function.Basic

/-!
# The bindings of a compute encoder

What the guest has set in the open encoder, and what the runtime's encoder holds. The two agree but
for the pipeline, which the runtime has no unset of: after a step of the adapter's, or a move to
bindings without one, the runtime's encoder may hold a pipeline the guest did not set.

Objects go by their ids. The stage-in region is left out.

## Main definitions

* `Setter`, `Bindings`, `Bindings.apply`: the setters, and what they set.
* `View`, `View.set`, `restore`: the runtime's encoder.

## Main results

* `View.set_viewWith`, `restore_viewWith`, `restore_step`.
-/

namespace ReimsVgpu.Predication

/-- An object, by its id. -/
abbrev Id := ℕ

/-- The commands that set bindings; a sampler's clamps by their bits. -/
inductive Setter
  | bufferOffset (offset index : UInt64)
  | bufferOffsetAttributeStride (offset stride index : UInt64)
  | buffersAttributeStrides (buffers : List (Option Id)) (offsets strides : List UInt64)
      (location : UInt64)
  | buffers (buffers : List (Option Id)) (offsets : List UInt64) (location : UInt64)
  | computePipelineState (state : Id)
  | imageblockWidth (width height : UInt64)
  | samplerStatesLodClamps (samplers : List (Option Id)) (lodMinClamps lodMaxClamps : List UInt32)
      (location : UInt64)
  | samplerStates (samplers : List (Option Id)) (location : UInt64)
  | texture (texture : Option Id) (index : UInt64)
  | textures (textures : List (Option Id)) (location : UInt64)
  | threadgroupMemoryLength (length index : UInt64)
  deriving DecidableEq, Repr

/-- The argument tables: each buffer with its offset and attribute stride, each sampler with the
clamps its bind set. -/
structure Tables where
  buffers : ℕ → Option (Id × UInt64 × UInt64) := fun _ => none
  textures : ℕ → Option Id := fun _ => none
  samplers : ℕ → Option (Id × Option (UInt32 × UInt32)) := fun _ => none

/-- The bindings of the open encoder, as the guest set them. -/
structure Bindings extends Tables where
  pipeline : Option Id := none
  threadgroupLengths : ℕ → Option UInt32 := fun _ => none
  imageblock : Option (UInt64 × UInt64) := none

/-- What the runtime's encoder holds: an unset length is 0, an unset imageblock 1 by 1. -/
structure View extends Tables where
  pipeline : Option Id := none
  threadgroupLengths : ℕ → UInt32 := fun _ => 0
  imageblock : UInt64 × UInt64 := (1, 1)

/-- `MTLAttributeStrideStatic`. -/
def strideStatic : UInt64 := 0xffffffffffffffff

/-- An index within `u32`. -/
def index (raw : UInt64) : Option ℕ := if raw.toNat < 2 ^ 32 then some raw.toNat else none

/-- The first `count` indices from `location`, up to the first past `u32`. -/
def indices (location : UInt64) (count : ℕ) : List ℕ :=
  ((List.range count).map fun i => location.toNat + i).takeWhile (· < 2 ^ 32)

namespace Tables

def bindBuffer (t : Tables) (slot : ℕ) (buffer : Option Id) (offset stride : UInt64) : Tables :=
  { t with buffers := Function.update t.buffers slot (buffer.map fun b => (b, offset, stride)) }

def bindTexture (t : Tables) (slot : ℕ) (texture : Option Id) : Tables :=
  { t with textures := Function.update t.textures slot texture }

def bindSampler (t : Tables) (slot : ℕ) (sampler : Option Id) (clamps : Option (UInt32 × UInt32)) :
    Tables :=
  { t with samplers := Function.update t.samplers slot (sampler.map fun s => (s, clamps)) }

/-- A buffer already bound moves to an offset and a stride. -/
def moveBuffer (t : Tables) (slot : Option ℕ) (offset stride : UInt64) : Tables :=
  match slot with
  | none => t
  | some slot =>
    match t.buffers slot with
    | none => t
    | some (b, _, _) => t.bindBuffer slot (some b) offset stride

/-- The tables after a setter. -/
def apply (t : Tables) : Setter → Tables
  | .bufferOffset offset slot => t.moveBuffer (index slot) offset strideStatic
  | .bufferOffsetAttributeStride offset stride slot => t.moveBuffer (index slot) offset stride
  | .buffersAttributeStrides buffers offsets strides location =>
    ((indices location buffers.length).zip (buffers.zip (offsets.zip strides))).foldl
      (fun t (slot, b, o, s) => t.bindBuffer slot b o s) t
  | .buffers buffers offsets location =>
    ((indices location buffers.length).zip (buffers.zip offsets)).foldl
      (fun t (slot, b, o) => t.bindBuffer slot b o strideStatic) t
  | .samplerStatesLodClamps samplers lodMinClamps lodMaxClamps location =>
    ((indices location samplers.length).zip (samplers.zip (lodMinClamps.zip lodMaxClamps))).foldl
      (fun t (slot, s, clamps) => t.bindSampler slot s (some clamps)) t
  | .samplerStates samplers location =>
    ((indices location samplers.length).zip samplers).foldl
      (fun t (slot, s) => t.bindSampler slot s none) t
  | .texture texture slot =>
    match index slot with
    | none => t
    | some slot => t.bindTexture slot texture
  | .textures textures location =>
    ((indices location textures.length).zip textures).foldl
      (fun t (slot, x) => t.bindTexture slot x) t
  | .computePipelineState _ => t
  | .imageblockWidth _ _ => t
  | .threadgroupMemoryLength _ _ => t

end Tables

/-- The bindings after a setter. -/
def Bindings.apply (b : Bindings) (s : Setter) : Bindings where
  toTables := b.toTables.apply s
  pipeline :=
    match s with
    | .computePipelineState state => some state
    | _ => b.pipeline
  threadgroupLengths :=
    match s with
    | .threadgroupMemoryLength length slot =>
      match index length, index slot with
      | some length, some slot =>
        Function.update b.threadgroupLengths slot (some (UInt32.ofNat length))
      | _, _ => b.threadgroupLengths
    | _ => b.threadgroupLengths
  imageblock :=
    match s with
    | .imageblockWidth width height => some (width, height)
    | _ => b.imageblock

/-- The runtime's encoder after a setter. -/
def View.set (v : View) (s : Setter) : View where
  toTables := v.toTables.apply s
  pipeline :=
    match s with
    | .computePipelineState state => some state
    | _ => v.pipeline
  threadgroupLengths :=
    match s with
    | .threadgroupMemoryLength length slot =>
      match index length, index slot with
      | some length, some slot => Function.update v.threadgroupLengths slot (UInt32.ofNat length)
      | _, _ => v.threadgroupLengths
    | _ => v.threadgroupLengths
  imageblock :=
    match s with
    | .imageblockWidth width height => (width, height)
    | _ => v.imageblock

/-- The buffer slots a step binds. -/
def stepSlots : ℕ := 3

/-- Binds in `e` what moves it from `source` to `target`, and, where a step bound them (`stepped`),
the pipeline and the step's slots whatever `source` holds. -/
def restore (e : View) (source target : Bindings) (stepped : Bool) : View where
  pipeline :=
    match target.pipeline with
    | some p => if stepped || source.pipeline != some p then some p else e.pipeline
    | none => e.pipeline
  buffers slot :=
    if source.buffers slot != target.buffers slot || (stepped && decide (slot < stepSlots)) then
      target.buffers slot
    else e.buffers slot
  textures slot :=
    if source.textures slot != target.textures slot then target.textures slot else e.textures slot
  samplers slot :=
    if source.samplers slot != target.samplers slot then target.samplers slot else e.samplers slot
  threadgroupLengths slot :=
    if source.threadgroupLengths slot != target.threadgroupLengths slot then
      (target.threadgroupLengths slot).getD 0
    else e.threadgroupLengths slot
  imageblock :=
    if source.imageblock.getD (1, 1) != target.imageblock.getD (1, 1) then
      target.imageblock.getD (1, 1)
    else e.imageblock

/-! ### What the runtime's encoder holds -/

/-- The runtime's encoder with the guest's bindings, but for its pipeline. -/
def Bindings.viewWith (b : Bindings) (pipeline : Option Id) : View where
  toTables := b.toTables
  pipeline := pipeline
  threadgroupLengths slot := (b.threadgroupLengths slot).getD 0
  imageblock := b.imageblock.getD (1, 1)

/-- The runtime's encoder with the guest's bindings. -/
def Bindings.view (b : Bindings) : View := b.viewWith b.pipeline

/-- The pipeline the runtime's encoder may hold where the guest has set `own`. -/
def Holds (own held : Option Id) : Prop := ∀ p, own = some p → held = some p

theorem View.set_viewWith (b : Bindings) (held : Option Id) (s : Setter) :
    ∃ held', (b.viewWith held).set s = (b.apply s).viewWith held' ∧
      (Holds b.pipeline held → Holds (b.apply s).pipeline held') ∧
      ((∃ p, s = .computePipelineState p) ∨ held' = held ∧ (b.apply s).pipeline = b.pipeline) := by
  cases s with
  | computePipelineState state =>
    exact ⟨some state, rfl, fun _ p hp => hp, .inl ⟨state, rfl⟩⟩
  | threadgroupMemoryLength length slot =>
    refine ⟨held, ?_, id, .inr ⟨rfl, rfl⟩⟩
    rw [set, Bindings.viewWith, Bindings.viewWith, Bindings.apply]
    congr 1
    funext i
    dsimp only
    cases index length with
    | none => rfl
    | some length =>
      cases index slot with
      | none => rfl
      | some slot =>
        dsimp only
        rw [Function.update_apply, Function.update_apply]
        split_ifs <;> rfl
  | _ => exact ⟨held, rfl, id, .inr ⟨rfl, rfl⟩⟩

/-- A move from the bindings the runtime's encoder holds. -/
theorem restore_viewWith (source target : Bindings) {held : Option Id}
    (hheld : Holds source.pipeline held) :
    restore (source.viewWith held) source target false =
      target.viewWith (target.pipeline.or held) := by
  rw [restore, Bindings.viewWith]
  congr 1
  · congr 1
    · funext i
      dsimp only [Bindings.viewWith]
      by_cases h : source.buffers i = target.buffers i
      · simp [h]
      · simp [h]
    · funext i
      dsimp only [Bindings.viewWith]
      by_cases h : source.textures i = target.textures i
      · simp [h]
      · simp [h]
    · funext i
      dsimp only [Bindings.viewWith]
      by_cases h : source.samplers i = target.samplers i
      · simp [h]
      · simp [h]
  · cases htarget : target.pipeline with
    | none => rfl
    | some p =>
      dsimp only [Bindings.viewWith]
      by_cases h : source.pipeline = some p
      · simp [h, hheld p h]
      · simp [h]
  · funext i
    dsimp only [Bindings.viewWith]
    by_cases h : source.threadgroupLengths i = target.threadgroupLengths i
    · simp [h]
    · simp [h]
  · dsimp only [Bindings.viewWith]
    by_cases h : source.imageblock.getD (1, 1) = target.imageblock.getD (1, 1)
    · simp [h]
    · simp [h]

/-- A step binds its pipeline and its slots, and then the guest's again. -/
theorem restore_step (b : Bindings) (held kernel : Option Id)
    (slots : ℕ → Option (Id × UInt64 × UInt64)) (hslots : ∀ i, stepSlots ≤ i → slots i = b.buffers i) :
    restore { b.viewWith held with buffers := slots, pipeline := kernel } b b true =
      b.viewWith (b.pipeline.or kernel) := by
  rw [restore, Bindings.viewWith]
  congr 1
  · congr 1
    · funext i
      dsimp only [Bindings.viewWith]
      by_cases h : i < stepSlots
      · simp [h]
      · simp [h, hslots i (Nat.le_of_not_lt h)]
    · funext i
      simp
    · funext i
      simp
  · cases b.pipeline <;> rfl
  · funext i
    simp
  · simp

end ReimsVgpu.Predication
