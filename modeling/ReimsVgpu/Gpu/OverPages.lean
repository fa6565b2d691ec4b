import Mathlib.Logic.Function.Basic
import ReimsVgpu.Library.Spans

/-!
# Textures kept apart over the guest's pages

Some textures of a heap may share no byte with anything of another heap, buffer or surface, which
meets them through the guest's pages alone. A registry lists these textures, the other textures, and
the heaps and buffers that commands used. What it knows of a heap's or buffer's memory is its `Seen`:
the pages it is over, and the memory that commands used through it since it was given them.

## Main definitions

* `Seen`, `Seen.givePages`, `Seen.forgetUses`, `Seen.zeroPages`, `Seen.memory`, `Seen.keep`.
* `Site`, `Reach`: where a texture's texels lie, and what a command reaches.
* `Registry`, `Registry.prune`, `Registry.keep`, `Registry.list`.
* `Registry.under`, `Registry.against`: what a check reads, one after the other.

## Main results

* `Seen.points_memory_subset`: the bytes of an object that has pages lie in them.
* `Seen.points_uses_keep`: a use kept is covered, and with it what was kept before.
-/

namespace ReimsVgpu.Gpu.OverPages

open Spans (points)

/-- A first byte of the host and an end. -/
abbrev HostRange := Span ℕ

/-! ### Memory laid out over runs -/

/-- The bytes `offsets` that lie in a run `before` bytes into the memory. -/
def inRun (offsets : HostRange) (before : ℕ) (run : HostRange) : List HostRange :=
  let first := max offsets.start before
  let stop := min offsets.stop (before + (run.stop - run.start))
  if h : first < stop then
    [⟨run.start + (first - before), run.start + (stop - before),
      Nat.add_le_add_left (Nat.sub_le_sub_right h.le _) _⟩]
  else []

/-- The bytes `offsets` of the runs from the one that starts `before` bytes into the memory. -/
def inRunsFrom (offsets : HostRange) (before : ℕ) : List HostRange → List HostRange
  | [] => []
  | run :: runs =>
    let after := before + (run.stop - run.start)
    let held := inRun offsets before run
    if offsets.stop ≤ after then held else held ++ inRunsFrom offsets after runs

/-- The host memory of the bytes `offsets` of memory laid out over `runs` in their order. -/
def inRuns (runs : List HostRange) (offsets : HostRange) : List HostRange :=
  inRunsFrom offsets 0 runs

theorem points_inRun_subset (offsets : HostRange) (before : ℕ) (run : HostRange) :
    points (inRun offsets before run) ⊆ run.points := by
  rw [inRun]
  split_ifs with h
  · have hle := run.start_le_stop
    rw [Spans.points_cons, Spans.points_nil, Set.union_empty]
    intro x hx
    rw [Span.mem_points] at hx ⊢
    dsimp only at h hx
    omega
  · rw [Spans.points_nil]
    exact Set.empty_subset _

theorem points_inRunsFrom_subset (offsets : HostRange) (before : ℕ) (runs : List HostRange) :
    points (inRunsFrom offsets before runs) ⊆ points runs := by
  induction runs generalizing before with
  | nil => exact fun _ hx => hx
  | cons run runs ih =>
    rw [inRunsFrom, Spans.points_cons]
    split_ifs with hend
    · exact (points_inRun_subset _ _ _).trans Set.subset_union_left
    · rw [Spans.points_append]
      exact Set.union_subset_union (points_inRun_subset _ _ _) (ih _)

theorem points_inRuns_subset (runs : List HostRange) (offsets : HostRange) :
    points (inRuns runs offsets) ⊆ points runs :=
  points_inRunsFrom_subset offsets 0 runs

/-! ### What the registry knows of a heap's or buffer's memory -/

/-- The guest's pages of the last replace, and whether a detach left the object in no memory since. -/
structure Paged where
  pages : List HostRange := []
  zeroed : Bool := false

/-- The pages of a heap or buffer, and the memory that commands used through it. -/
structure Seen where
  paged : Paged := {}
  guests : Bool := false
  uses : List HostRange := []
  allUsed : Bool := false
  listed : Bool := false
  stamp : ℕ := 0
  epoch : ℕ := 0

namespace Seen

variable (s : Seen)

/-- `set_pages`, under the lock of the pages; the uses are forgotten next. -/
def givePages (pages : List HostRange) : Seen :=
  { s with paged := ⟨pages, false⟩, guests := !pages.isEmpty }

/-- `forget_uses`, under the lock of the uses. -/
def forgetUses : Seen :=
  { s with uses := [], allUsed := false, epoch := s.epoch + 1 }

/-- `zero`, under the lock of the pages: a detach left the object in no memory; the epoch moves
next. -/
def zeroPages : Seen := { s with paged := { s.paged with zeroed := true }, guests := false }

/-- The epoch moves once a detach left the object in no memory. -/
def moveEpoch : Seen := { s with epoch := s.epoch + 1 }

/-- The memory of some of its bytes in the pages it is over; none over memory of its own. -/
def inPages (bytes : HostRange) : Option (List HostRange) :=
  if !s.paged.zeroed && !s.paged.pages.isEmpty then some (inRuns s.paged.pages bytes) else none

/-- The memory of some of its bytes, no byte once a detach left it in no memory; none for one never
given pages. -/
def memory (bytes : HostRange) : Option (List HostRange) :=
  if s.paged.zeroed then some []
  else if s.paged.pages.isEmpty then none
  else some (inRuns s.paged.pages bytes)

/-- Whether the uses kept hold all of some memory. -/
def holds (memory : List HostRange) : Bool := memory.all (Spans.holding s.uses)

/-- A use of memory that the uses kept do not hold, under their lock. -/
def keep (memory : List HostRange) : Seen :=
  let uses := memory.foldl Spans.merge s.uses
  let all := !s.paged.zeroed && !s.paged.pages.isEmpty &&
    s.paged.pages.all (Spans.holding uses)
  { s with uses, allUsed := s.allUsed || all }

/-- The object is listed among those whose uses a check reads. -/
def list : Seen := { s with listed := true }

/-- The stamp moves once a use is kept. -/
def moveStamp : Seen := { s with stamp := s.stamp + 1 }

/-- Bytes at `bytes` of the object, or of memory of its own while it was never given pages. -/
def memoryOr (bytes : HostRange) (own : List HostRange) : List HostRange :=
  (s.memory bytes).getD own

/-- What a change of one object leaves of it as it was stays for every object. -/
theorem apply_update {ο β : Type*} [DecidableEq ο] (f : Seen → β) (seens : ο → Seen) (o : ο)
    (s : Seen) (hs : f s = f (seens o)) (o' : ο) :
    f (Function.update seens o s o') = f (seens o') := by
  rcases eq_or_ne o' o with rfl | hne
  · rw [Function.update_self, hs]
  · rw [Function.update_of_ne hne]

variable {s}

theorem memoryOr_of_zeroed (h : s.paged.zeroed = true) (bytes : HostRange) (own : List HostRange) :
    s.memoryOr bytes own = [] := by
  rw [memoryOr, memory, if_pos h, Option.getD_some]

theorem memoryOr_of_paged_eq {s' : Seen} (h : s'.paged = s.paged) (bytes : HostRange)
    (own : List HostRange) : s'.memoryOr bytes own = s.memoryOr bytes own := by
  rw [memoryOr, memoryOr, memory, memory, h]

/-- The bytes of an object that was given pages lie in them. -/
theorem points_memory_subset (h : s.paged.pages ≠ []) (bytes : HostRange) (own : List HostRange) :
    points (s.memoryOr bytes own) ⊆ points s.paged.pages := by
  by_cases hz : s.paged.zeroed = true
  · rw [memoryOr_of_zeroed hz, Spans.points_nil]
    exact Set.empty_subset _
  · rw [memoryOr, memory, if_neg hz, if_neg (by rwa [List.isEmpty_iff])]
    exact points_inRuns_subset _ _

/-- The uses that are held already are covered. -/
theorem points_subset_of_holds {memory : List HostRange} (h : s.holds memory = true) :
    points memory ⊆ points s.uses :=
  Spans.points_subset_of_all_holding h

theorem points_uses_keep (memory : List HostRange) :
    points (s.keep memory).uses = points s.uses ∪ points memory :=
  Spans.points_foldl_merge memory s.uses

/-- Where all the pages are found used, they are. -/
theorem points_pages_subset_of_allUsed_keep {memory : List HostRange}
    (h : (s.keep memory).allUsed = true) :
    s.allUsed = true ∨
      s.paged.pages ≠ [] ∧ points s.paged.pages ⊆ points (s.keep memory).uses := by
  rcases (Bool.or_eq_true _ _).mp h with h | h
  · exact .inl h
  · obtain ⟨hpages, hall⟩ := (Bool.and_eq_true _ _).mp h
    obtain ⟨-, hne⟩ := (Bool.and_eq_true _ _).mp hpages
    refine .inr ⟨?_, Spans.points_subset_of_all_holding hall⟩
    rintro hnil
    rw [hnil] at hne
    exact Bool.noConfusion hne

end Seen

/-! ### Sites -/

/-- Where a texture's texels lie: in bytes of a heap or buffer, or, while it was never given pages, in
memory that stays; in that alone for a texture on a surface. -/
structure Site (ο : Type*) where
  seen : Option ο
  bytes : HostRange
  fixed : List HostRange
  deriving DecidableEq

/-- What a command reaches: bytes of a heap or buffer, or memory of its own while it has no pages. -/
structure Reach (ο : Type*) where
  owner : ο
  bytes : HostRange
  own : List HostRange
  deriving DecidableEq

section Sites

variable {ο : Type*}

/-- The memory the texels lie in now. -/
def Site.memory (s : Site ο) (seens : ο → Seen) : List HostRange :=
  (s.seen.bind fun o => (seens o).memory s.bytes).getD s.fixed

/-- The memory of the bytes reached: in the pages, none once a detach left the object in no memory,
or of its own. -/
def Reach.memory (r : Reach ο) (seens : ο → Seen) : List HostRange :=
  match (seens r.owner).inPages r.bytes with
  | some memory => memory
  | none => if (seens r.owner).paged.zeroed then [] else r.own

theorem Reach.memory_eq (r : Reach ο) (seens : ο → Seen) :
    r.memory seens = (seens r.owner).memoryOr r.bytes r.own := by
  rw [memory, Seen.memoryOr, Seen.memory, Seen.inPages]
  cases (seens r.owner).paged.zeroed <;> cases (seens r.owner).paged.pages.isEmpty <;> rfl

theorem Site.memory_of_some {s : Site ο} {o : ο} (h : s.seen = some o) (seens : ο → Seen) :
    s.memory seens = (seens o).memoryOr s.bytes s.fixed := by
  rw [memory, h, Option.bind_some, Seen.memoryOr]

theorem Site.memory_of_none {s : Site ο} (h : s.seen = none) (seens : ο → Seen) :
    s.memory seens = s.fixed := by
  rw [memory, h, Option.bind_none, Option.getD_none]

variable [DecidableEq ο]

/-- Whether the texels lie in that heap or buffer. -/
def Site.of (s : Site ο) (o : ο) : Bool := decide (s.seen = some o)

/-- Whether both lie in one heap or buffer. -/
def Site.isWith (s other : Site ο) : Bool := other.seen.any s.of

@[simp] theorem Site.of_iff {s : Site ο} {o : ο} : s.of o = true ↔ s.seen = some o :=
  decide_eq_true_iff

theorem Site.isWith_iff {s other : Site ο} :
    s.isWith other = true ↔ ∃ o, other.seen = some o ∧ s.seen = some o := by
  simp [isWith, Option.any_eq_true]

theorem Site.isWith_comm (s other : Site ο) : s.isWith other = other.isWith s := by
  rw [Bool.eq_iff_iff, isWith_iff, isWith_iff]
  exact exists_congr fun o => and_comm

end Sites

/-! ### The registry -/

/-- Why a texture shares no byte. -/
inductive Alone
  | twoPlane
  | optimized
  | untiled
  deriving DecidableEq

/-- What a check found. -/
inductive Clash
  /-- Bytes under a texture kept apart, or such a texture over another's. -/
  | pages (why : Alone)
  /-- Such a texture over pages that a command used through another heap or a buffer. -/
  | used (why : Alone)
  deriving DecidableEq

/-- A texture over the bytes of a heap, a buffer or a surface. -/
structure Other (ο θ : Type*) where
  texture : θ
  site : Site ο

/-- A texture kept apart. -/
structure Apart (ο θ : Type*) extends Other ο θ where
  why : Alone

/-- What one read of a check is of. -/
inductive Target (ο θ : Type*)
  | texture (other : Other ο θ)
  | user (seen : ο)

/-- One read of a check, and what the check returns if it shares a byte. -/
structure Probe (ο θ : Type*) where
  target : Target ο θ
  clash : Clash

/-- The textures kept apart, the others, and the heaps and buffers whose uses are kept. -/
structure Registry (ο θ : Type*) where
  apart : List (Apart ο θ) := []
  others : List (Other ο θ) := []
  kept : ℕ := 0
  users : List ο := []
  usersKept : ℕ := 0

namespace Registry

variable {ο θ : Type*} (r : Registry ο θ)

/-- Lets go of the textures kept apart that died. -/
def prune (alive : θ → Bool) : Registry ο θ :=
  { r with apart := r.apart.filter fun apart => alive apart.texture }

/-- Keeps a texture kept apart. -/
def push (apart : Apart ο θ) : Registry ο θ := { r with apart := r.apart ++ [apart] }

/-- Keeps another texture. -/
def keep (alive : θ → Bool) (other : Other ο θ) : Registry ο θ :=
  if 2 * max r.kept 16 ≤ r.others.length then
    let living := r.others.filter fun other => alive other.texture
    { r with others := living ++ [other], kept := living.length }
  else { r with others := r.others ++ [other] }

/-- Lists an object whose uses are kept. -/
def list (lives : ο → Bool) (user : ο) : Registry ο θ :=
  if 2 * max r.usersKept 16 ≤ r.users.length then
    let living := r.users.filter lives
    { r with users := living ++ [user], usersKept := living.length }
  else { r with users := r.users ++ [user] }

variable [DecidableEq ο]

/-- Whether a texture listed holds what is known of an object's memory. -/
def refers (o : ο) : Bool :=
  (r.apart.any fun apart => apart.site.of o) || r.others.any fun other => other.site.of o

/-- The reads of a check of memory against the textures that other objects keep apart. -/
def under (of : Option ο) : List (Probe ο θ) :=
  (r.apart.filter fun apart => of.all fun o => !apart.site.of o).map fun apart =>
    ⟨.texture apart.toOther, .pages apart.why⟩

/-- The reads of a check of a texture kept apart against the textures of other objects, and then
against their uses. -/
def against (site : Site ο) (why : Alone) : List (Probe ο θ) :=
  ((r.apart.filter fun apart => !apart.site.isWith site).map fun apart =>
      ⟨.texture apart.toOther, .pages why⟩) ++
    ((r.others.filter fun other => !other.site.isWith site).map fun other =>
      ⟨.texture other, .pages why⟩) ++
    (r.users.filter fun user => !site.of user).map fun user => ⟨.user user, .used why⟩

end Registry

end ReimsVgpu.Gpu.OverPages
