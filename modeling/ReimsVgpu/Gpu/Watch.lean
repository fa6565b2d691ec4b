import ReimsVgpu.Gpu.OverPages
import ReimsVgpu.Library.Execution

/-!
# The calls that watch over the guest's pages

Threads place textures, use memory and give objects other pages. Each section under a lock and each
sequentially consistent atomic is one step of a thread, and between two of them any other thread may
take one; the registry's lock stays with a thread over the reads of its check, each of which takes
another lock. A clash ends the process, so its thread goes no further.

Beside the state of the code, the world keeps the textures that were placed or made without a clash,
the memory that commands used and that was kept through each object since its pages were last given
or its uses forgotten, and its epoch then: no step reads them. The epochs, which the code counts in
64 bits, do not run out.

## Main definitions

* `Use`, `Purpose`, `Check`, `Phase`: where a thread is in its call.
* `World`, `World.Step`: the state and the steps.
* `World.Returned`, `World.Clashed`.
-/

namespace ReimsVgpu.Gpu.OverPages

open Spans (points)

variable {τ ο θ : Type*}

/-! ### Where a thread is in its call -/

/-- A command's use: what it reaches, the buffer whose whole that is, and whether it is to be kept. -/
structure Use (ο : Type*) where
  reach : Reach ο
  whole : Option ℕ
  keep : Bool

/-- The cell in which a use of all of a buffer records its epoch. -/
def Use.cell (u : Use ο) : Option (ℕ × Reach ο) := u.whole.map fun id => (id, u.reach)

/-- A use that has read its memory: its epoch plus one, and whether it still is to be kept. -/
structure UseCall (ο : Type*) where
  use : Use ο
  epoch : ℕ
  keep : Bool
  memory : List HostRange

/-- What a thread holds the registry's lock for. -/
inductive Purpose (ο θ : Type*)
  | apart (apart : Apart ο θ)
  | other (other : Other ο θ)
  | used (call : UseCall ο)
  | moved (seen : ο)

namespace Purpose

/-- The object of the use. -/
def user : Purpose ο θ → Option ο
  | used c => some c.use.reach.owner
  | _ => none

/-- The object whose pages changed. -/
def mover : Purpose ο θ → Option ο
  | moved o => some o
  | _ => none

/-- The texture to be kept apart. -/
def placing : Purpose ο θ → Option (Apart ο θ)
  | apart a => some a
  | _ => none

/-- The other texture to be kept. -/
def making : Purpose ο θ → Option (Other ο θ)
  | other x => some x
  | _ => none

end Purpose

/-- The memory of a texture to be read, only while it lives where `living` says so, and the reads of
its check. -/
structure Job (ο θ : Type*) where
  other : Other ο θ
  living : Bool
  probes : List (Probe ο θ)

/-- A check under the registry's lock: the memory checked, the texture whose it was when it was read,
the reads still to make of it, and the textures to check after it. -/
structure Check (ο θ : Type*) where
  memory : List HostRange := []
  about : Option (Other ο θ) := none
  probes : List (Probe ο θ) := []
  jobs : List (Job ο θ) := []

/-- Where a thread is in its call. -/
inductive Phase (ο θ : Type*)
  | idle
  /-- A use that read the epoch. -/
  | began (use : Use ο) (epoch : ℕ)
  /-- A use that read whether its whole is kept at that epoch. -/
  | recalled (use : Use ο) (epoch : ℕ) (kept : Bool)
  /-- A use that read whether all pages are used, and so whether it still is to be kept. -/
  | chosen (use : Use ο) (epoch : ℕ) (keep : Bool)
  /-- A use that is to read its memory. -/
  | reading (use : Use ο) (epoch : ℕ) (keep : Bool)
  /-- A use to be kept, whose object may not be listed. -/
  | listing (call : UseCall ο)
  /-- A use to be kept, whose object is listed. -/
  | keeping (call : UseCall ο)
  /-- A use that was kept, before its stamp. -/
  | stamping (call : UseCall ο)
  /-- A use that is to count the textures kept apart. -/
  | counting (call : UseCall ο)
  /-- A use that found some. -/
  | waiting (call : UseCall ο)
  /-- A use that passed. -/
  | passed (call : UseCall ο)
  /-- A change of pages before the uses are forgotten. -/
  | paged (seen : ο)
  /-- A change of pages before its check. -/
  | replaced (seen : ο)
  /-- A detach that left the object in no memory, before its epoch moves. -/
  | zeroed (seen : ο)
  /-- The registry's lock taken and the dead let go, before their count is stored. -/
  | pruned (purpose : Purpose ο θ) (changed : Bool)
  | checking (purpose : Purpose ο θ) (check : Check ο θ)
  /-- A check that found a clash. -/
  | failing (purpose : Purpose ο θ) (clash : Clash)
  /-- A call that returned a clash. -/
  | clashed (clash : Clash)

namespace Phase

/-- The object of the use in progress. -/
def user : Phase ο θ → Option ο
  | .began u _ | .recalled u _ _ | .chosen u _ _ | .reading u _ _ => some u.reach.owner
  | .listing c | .keeping c | .stamping c | .counting c | .waiting c | .passed c =>
    some c.use.reach.owner
  | .pruned p _ | .checking p _ | .failing p _ => p.user
  | _ => none

/-- The object whose pages the call in progress changes. -/
def mover : Phase ο θ → Option ο
  | .paged o | .replaced o | .zeroed o => some o
  | .pruned p _ | .checking p _ | .failing p _ => p.mover
  | _ => none

/-- The object that has other pages, its uses not forgotten yet. -/
def pages : Phase ο θ → Option ο
  | .paged o => some o
  | _ => none

/-- The texture to be kept apart once its check has passed. -/
def placing : Phase ο θ → Option (Apart ο θ)
  | .checking p _ => p.placing
  | _ => none

/-- The other texture to be kept once its check has passed. -/
def making : Phase ο θ → Option (Other ο θ)
  | .checking p _ => p.making
  | _ => none

/-- The object that a use found listed, or listed, and is to keep its memory in. -/
def keeps : Phase ο θ → Option ο
  | .keeping c => some c.use.reach.owner
  | _ => none

/-- What the lock was taken for, before the count of those let go is stored. -/
def prunes : Phase ο θ → Option (Purpose ο θ)
  | .pruned p _ => some p
  | _ => none

/-- Whether the thread holds the registry's lock. -/
def locks : Phase ο θ → Bool
  | .pruned _ _ | .checking _ _ | .failing _ _ => true
  | _ => false

/-- Whether the call found a clash. -/
def clashes : Phase ο θ → Bool
  | .failing _ _ | .clashed _ => true
  | _ => false

/-- Whether the call in progress refers to an object. -/
def refers [DecidableEq ο] (p : Phase ο θ) (o : ο) : Bool :=
  decide (p.user = some o) || decide (p.mover = some o) ||
    p.placing.any (fun a => a.site.of o) || p.making.any fun x => x.site.of o

end Phase

/-! ### The world -/

/-- Memory that a command used through an object, and whether the use was to be kept. -/
structure Entry (ο : Type*) where
  owner : ο
  keep : Bool
  memory : List HostRange

/-- The objects, the registry with its count and its lock, the buffers' records of their whole uses,
the textures and objects that live, and the threads; and the history. -/
structure World (τ ο θ : Type*) where
  seens : ο → Seen := fun _ => {}
  registry : Registry ο θ := {}
  count : ℕ := 0
  holder : Option τ := none
  wholes : ℕ × Reach ο → ℕ := fun _ => 0
  alive : θ → Bool := fun _ => true
  owned : ο → Bool := fun _ => true
  phase : τ → Phase ο θ := fun _ => .idle
  placed : List (Apart ο θ) := []
  made : List (Other ο θ) := []
  used : List (Entry ο) := []
  kept : List (Entry ο) := []
  since : ο → ℕ := fun _ => 0

/-- What the outside does, and a thread that goes on with its call. -/
inductive Action (τ ο θ : Type*)
  | used (t : τ) (use : Use ο)
  | apart (t : τ) (apart : Apart ο θ)
  | other (t : τ) (other : Other ο θ)
  | setPages (t : τ) (seen : ο) (pages : List HostRange)
  | forgetUses (t : τ) (seen : ο)
  | zero (t : τ) (seen : ο)
  | goOn (t : τ)
  /-- A texture's death. -/
  | drop (texture : θ)
  /-- The release of a heap or buffer. -/
  | release (seen : ο)

section Checks

variable [DecidableEq ο]

/-- The textures in or over an object, each with the reads of its check. -/
def Registry.moved (r : Registry ο θ) (seen : ο) : List (Job ο θ) :=
  ((r.apart.filter fun apart => apart.site.of seen).map fun apart =>
      ⟨apart.toOther, false, r.against apart.site apart.why⟩) ++
    (r.others.filter fun other => other.site.of seen).map fun other =>
      ⟨other, true, r.under (some seen)⟩

/-- The check of a call. -/
def Registry.check (r : Registry ο θ) : Purpose ο θ → Check ο θ
  | .apart a => { jobs := [⟨a.toOther, false, r.against a.site a.why⟩] }
  | .other x => { jobs := [⟨x, false, r.under x.site.seen⟩] }
  | .used c => { memory := c.memory, probes := r.under (some c.use.reach.owner) }
  | .moved o => { jobs := r.moved o }

end Checks

namespace World

section Updates

variable [DecidableEq τ] (w : World τ ο θ)

/-- A thread goes on to a phase. -/
def goOn (t : τ) (p : Phase ο θ) : World τ ο θ := { w with phase := Function.update w.phase t p }

/-- A thread takes the registry's lock and lets go of the textures kept apart that died. -/
def lock (t : τ) (p : Phase ο θ) : World τ ο θ :=
  { w.goOn t p with holder := some t, registry := w.registry.prune w.alive }

/-- A thread gives the registry's lock back. -/
def unlock (t : τ) (p : Phase ο θ) : World τ ο θ := { w.goOn t p with holder := none }

/-- A use returned. -/
def log (u : Use ο) (memory : List HostRange) : World τ ο θ :=
  { w with used := w.used ++ [⟨u.reach.owner, u.keep, memory⟩] }

variable [DecidableEq ο]

/-- An object's pages and uses change. -/
def setSeen (o : ο) (s : Seen) : World τ ο θ := { w with seens := Function.update w.seens o s }

/-- An object's uses are forgotten. -/
def forget (o : ο) : World τ ο θ :=
  { w.setSeen o (w.seens o).forgetUses with
    used := w.used.filter fun e => decide (e.owner ≠ o)
    kept := w.kept.filter fun e => decide (e.owner ≠ o)
    since := Function.update w.since o ((w.seens o).epoch + 1) }

/-- Whether what is known of an object is still held: by the object, or by a texture listed. -/
def lives (o : ο) : Bool := w.owned o || w.registry.refers o

/-- Whether a read of a check shares a byte with the memory checked. -/
def found (memory : List HostRange) : Target ο θ → Bool
  | .texture x => w.alive x.texture && Spans.shares (x.site.memory w.seens) memory
  | .user o => w.lives o && Spans.shares (w.seens o).uses memory

/-- Whether a use kept its whole at the epoch it read. -/
def recalls (u : Use ο) (epoch : ℕ) : Bool := u.cell.any fun cell => w.wholes cell == epoch

/-- The record of a whole use that was kept. -/
def record (c : UseCall ο) : World τ ο θ :=
  { w with wholes := match c.use.cell with
    | some cell => if c.keep then Function.update w.wholes cell c.epoch else w.wholes
    | none => w.wholes }

/-- No use of an object is in progress. -/
def Unused (o : ο) : Prop := ∀ t, (w.phase t).user ≠ some o

/-- No change of an object's pages is between the pages and the uses. -/
def Settled (o : ο) : Prop := ∀ t, (w.phase t).pages ≠ some o

variable [DecidableEq θ]

/-- One step of one thread. -/
inductive Step : World τ ο θ → Action τ ο θ → World τ ο θ → Prop
  | used {w : World τ ο θ} {t : τ} (u : Use ο) (ht : w.phase t = .idle)
      (ho : w.owned u.reach.owner = true) (hs : w.Settled u.reach.owner) :
      Step w (.used t u) (w.goOn t (.began u ((w.seens u.reach.owner).epoch + 1)))
  | recalled {w : World τ ο θ} {t : τ} {u : Use ο} {epoch : ℕ} (ht : w.phase t = .began u epoch) :
      Step w (.goOn t) (w.goOn t (.recalled u epoch (w.recalls u epoch)))
  | choose {w : World τ ο θ} {t : τ} {u : Use ο} {epoch : ℕ} {kept : Bool}
      (ht : w.phase t = .recalled u epoch kept) :
      Step w (.goOn t)
        (w.goOn t (.chosen u epoch (u.keep && !kept && !(w.seens u.reach.owner).allUsed)))
  | skip {w : World τ ο θ} {t : τ} {u : Use ο} {epoch : ℕ}
      (ht : w.phase t = .chosen u epoch false) (hc : w.count = 0) :
      Step w (.goOn t) ((w.log u (u.reach.memory w.seens)).goOn t .idle)
  | go {w : World τ ο θ} {t : τ} {u : Use ο} {epoch : ℕ} {keep : Bool}
      (ht : w.phase t = .chosen u epoch keep) (hc : keep = true ∨ 0 < w.count) :
      Step w (.goOn t) (w.goOn t (.reading u epoch keep))
  | readNone {w : World τ ο θ} {t : τ} {u : Use ο} {epoch : ℕ} {keep : Bool}
      (ht : w.phase t = .reading u epoch keep) (hm : u.reach.memory w.seens = []) :
      Step w (.goOn t) ((w.log u []).goOn t .idle)
  | read {w : World τ ο θ} {t : τ} {u : Use ο} {epoch : ℕ}
      (ht : w.phase t = .reading u epoch true) (hm : u.reach.memory w.seens ≠ []) :
      Step w (.goOn t) (w.goOn t (.listing ⟨u, epoch, true, u.reach.memory w.seens⟩))
  | readKept {w : World τ ο θ} {t : τ} {u : Use ο} {epoch : ℕ}
      (ht : w.phase t = .reading u epoch false) (hm : u.reach.memory w.seens ≠ []) :
      Step w (.goOn t) (w.goOn t (.counting ⟨u, epoch, false, u.reach.memory w.seens⟩))
  | listed {w : World τ ο θ} {t : τ} {c : UseCall ο} (ht : w.phase t = .listing c)
      (hl : (w.seens c.use.reach.owner).listed = true) :
      Step w (.goOn t) (w.goOn t (.keeping c))
  | list {w : World τ ο θ} {t : τ} {c : UseCall ο} (ht : w.phase t = .listing c)
      (hl : (w.seens c.use.reach.owner).listed = false) (hh : w.holder = none) :
      Step w (.goOn t)
        { (w.setSeen c.use.reach.owner (w.seens c.use.reach.owner).list).goOn t (.keeping c) with
          registry := w.registry.list w.lives c.use.reach.owner }
  | held {w : World τ ο θ} {t : τ} {c : UseCall ο} (ht : w.phase t = .keeping c)
      (hh : (w.seens c.use.reach.owner).holds c.memory = true) :
      Step w (.goOn t)
        { w.goOn t (.counting c) with
          kept := w.kept ++ [⟨c.use.reach.owner, c.use.keep, c.memory⟩] }
  | keep {w : World τ ο θ} {t : τ} {c : UseCall ο} (ht : w.phase t = .keeping c)
      (hh : (w.seens c.use.reach.owner).holds c.memory = false) :
      Step w (.goOn t)
        { (w.setSeen c.use.reach.owner ((w.seens c.use.reach.owner).keep c.memory)).goOn t
            (.stamping c) with
          kept := w.kept ++ [⟨c.use.reach.owner, c.use.keep, c.memory⟩] }
  | stamp {w : World τ ο θ} {t : τ} {c : UseCall ο} (ht : w.phase t = .stamping c) :
      Step w (.goOn t)
        ((w.setSeen c.use.reach.owner (w.seens c.use.reach.owner).moveStamp).goOn t (.counting c))
  | unwatched {w : World τ ο θ} {t : τ} {c : UseCall ο} (ht : w.phase t = .counting c)
      (hc : w.count = 0) : Step w (.goOn t) (w.goOn t (.passed c))
  | watched {w : World τ ο θ} {t : τ} {c : UseCall ο} (ht : w.phase t = .counting c)
      (hc : 0 < w.count) : Step w (.goOn t) (w.goOn t (.waiting c))
  | lockUsed {w : World τ ο θ} {t : τ} {c : UseCall ο} (ht : w.phase t = .waiting c)
      (hh : w.holder = none) :
      Step w (.goOn t) (w.lock t (.pruned (.used c)
        ((w.registry.prune w.alive).apart.length != w.registry.apart.length)))
  | lockMoved {w : World τ ο θ} {t : τ} {o : ο} (ht : w.phase t = .replaced o)
      (hh : w.holder = none) :
      Step w (.goOn t) (w.lock t (.pruned (.moved o)
        ((w.registry.prune w.alive).apart.length != w.registry.apart.length)))
  | pruned {w : World τ ο θ} {t : τ} {p : Purpose ο θ} {changed : Bool}
      (ht : w.phase t = .pruned p changed) :
      Step w (.goOn t)
        { w.goOn t (.checking p (w.registry.check p)) with
          count := if changed then w.registry.apart.length else w.count }
  | apart {w : World τ ο θ} {t : τ} (a : Apart ο θ) (ht : w.phase t = .idle)
      (ho : ∀ o, a.site.seen = some o → w.owned o = true) (hh : w.holder = none) :
      Step w (.apart t a)
        { w.lock t (.checking (.apart a) ((w.registry.prune w.alive).check (.apart a))) with
          count := w.count + 1 }
  | other {w : World τ ο θ} {t : τ} (x : Other ο θ) (ht : w.phase t = .idle)
      (ho : ∀ o, x.site.seen = some o → w.owned o = true) (hh : w.holder = none) :
      Step w (.other t x)
        { w.goOn t (.checking (.other x) (w.registry.check (.other x))) with holder := some t }
  | probe {w : World τ ο θ} {t : τ} {p : Purpose ο θ} {c : Check ο θ} {probe : Probe ο θ}
      {probes : List (Probe ο θ)} (ht : w.phase t = .checking p { c with probes := probe :: probes })
      (hf : w.found c.memory probe.target = false) :
      Step w (.goOn t) (w.goOn t (.checking p { c with probes := probes }))
  | clash {w : World τ ο θ} {t : τ} {p : Purpose ο θ} {c : Check ο θ} {probe : Probe ο θ}
      {probes : List (Probe ο θ)} (ht : w.phase t = .checking p { c with probes := probe :: probes })
      (hf : w.found c.memory probe.target = true) :
      Step w (.goOn t) (w.goOn t (.failing p probe.clash))
  | job {w : World τ ο θ} {t : τ} {p : Purpose ο θ} {c : Check ο θ} {job : Job ο θ}
      {jobs : List (Job ο θ)}
      (ht : w.phase t = .checking p { c with probes := [], jobs := job :: jobs })
      (hl : job.living = true → w.alive job.other.texture = true) :
      Step w (.goOn t) (w.goOn t
        (.checking p ⟨job.other.site.memory w.seens, some job.other, job.probes, jobs⟩))
  | jobDead {w : World τ ο θ} {t : τ} {p : Purpose ο θ} {c : Check ο θ} {job : Job ο θ}
      {jobs : List (Job ο θ)}
      (ht : w.phase t = .checking p { c with probes := [], jobs := job :: jobs })
      (hl : job.living = true) (hd : w.alive job.other.texture = false) :
      Step w (.goOn t) (w.goOn t (.checking p { c with probes := [], jobs := jobs }))
  | placed {w : World τ ο θ} {t : τ} {a : Apart ο θ} {c : Check ο θ}
      (ht : w.phase t = .checking (.apart a) { c with probes := [], jobs := [] }) :
      Step w (.goOn t)
        { w.unlock t .idle with
          registry := w.registry.push a
          count := (w.registry.push a).apart.length
          placed := w.placed ++ [a] }
  | made {w : World τ ο θ} {t : τ} {x : Other ο θ} {c : Check ο θ}
      (ht : w.phase t = .checking (.other x) { c with probes := [], jobs := [] }) :
      Step w (.goOn t)
        { w.unlock t .idle with
          registry := w.registry.keep w.alive x
          made := w.made ++ [x] }
  | passed {w : World τ ο θ} {t : τ} {call : UseCall ο} {c : Check ο θ}
      (ht : w.phase t = .checking (.used call) { c with probes := [], jobs := [] }) :
      Step w (.goOn t) (w.unlock t (.passed call))
  | moved {w : World τ ο θ} {t : τ} {o : ο} {c : Check ο θ}
      (ht : w.phase t = .checking (.moved o) { c with probes := [], jobs := [] }) :
      Step w (.goOn t) (w.unlock t .idle)
  | failedApart {w : World τ ο θ} {t : τ} {a : Apart ο θ} {clash : Clash}
      (ht : w.phase t = .failing (.apart a) clash) :
      Step w (.goOn t) { w.unlock t (.clashed clash) with count := w.registry.apart.length }
  | failed {w : World τ ο θ} {t : τ} {p : Purpose ο θ} {clash : Clash}
      (ht : w.phase t = .failing p clash) (hp : ∀ a, p ≠ .apart a) :
      Step w (.goOn t) (w.unlock t (.clashed clash))
  | returned {w : World τ ο θ} {t : τ} {c : UseCall ο} (ht : w.phase t = .passed c) :
      Step w (.goOn t) (((w.record c).log c.use c.memory).goOn t .idle)
  | setPages {w : World τ ο θ} {t : τ} (o : ο) (pages : List HostRange) (ht : w.phase t = .idle)
      (ho : w.owned o = true) (hu : w.Unused o) :
      Step w (.setPages t o pages)
        ((w.setSeen o ((w.seens o).givePages pages)).goOn t (.paged o))
  | forgot {w : World τ ο θ} {t : τ} {o : ο} (ht : w.phase t = .paged o) :
      Step w (.goOn t) ((w.forget o).goOn t (.replaced o))
  | forgetUses {w : World τ ο θ} {t : τ} (o : ο) (ht : w.phase t = .idle)
      (ho : w.owned o = true) (hu : w.Unused o) : Step w (.forgetUses t o) (w.forget o)
  | zero {w : World τ ο θ} {t : τ} (o : ο) (ht : w.phase t = .idle) (ho : w.owned o = true) :
      Step w (.zero t o) ((w.setSeen o (w.seens o).zeroPages).goOn t (.zeroed o))
  | zeroed {w : World τ ο θ} {t : τ} {o : ο} (ht : w.phase t = .zeroed o) :
      Step w (.goOn t) ((w.setSeen o (w.seens o).moveEpoch).goOn t .idle)
  | drop {w : World τ ο θ} (texture : θ) :
      Step w (.drop texture) { w with alive := Function.update w.alive texture false }
  | release {w : World τ ο θ} (o : ο) (hr : ∀ t, (w.phase t).refers o = false) :
      Step w (.release o) { w with owned := Function.update w.owned o false }

end Updates

variable [DecidableEq ο] (w : World τ ο θ)

/-- The memory kept through an object since its pages were given or its uses forgotten. -/
def keptBy (o : ο) : List HostRange :=
  (w.kept.filter fun e => decide (e.owner = o)).flatMap Entry.memory

/-- Every call has returned. -/
def Returned : Prop := ∀ t, w.phase t = .idle ∨ ∃ clash, w.phase t = .clashed clash

/-- Some call found a clash. -/
def Clashed : Prop := ∃ t, (w.phase t).clashes = true

end World

end ReimsVgpu.Gpu.OverPages
