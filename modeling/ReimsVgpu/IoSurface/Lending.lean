import ReimsVgpu.IoSurface.Table
import ReimsVgpu.Library.Execution

/-!
# Surfaces lent to a task's service

The service caches by mapping id the surfaces that the host lends it, with a count of its retains. A
retain that misses asks the host while it holds the cache's lock, and waits for the answer; the release
that ends a count tells the host. The host handles the messages in the order of the link: it looks an
asked surface up in the mapper's slots, keeps a reference under the id unless the id has an entry, and
answers with the service's own object over the surface. The guest meanwhile maps and unmaps.

The world keeps, beside the state of the code, the messages sent and the retains not yet released.

## Main definitions

* `Object`, `CachedSurface`, `ToHost`: what the two sides hold and send.
* `World`, `Action`, `World.Step`: the two sides, the link and the mapper, and their steps.
* `World.Answered`: the steps at which an asked retain is not answered nil.
-/

namespace ReimsVgpu.IoSurface.Lending

/-- The service's own object over a surface. -/
structure Object where
  surface : Surface
  id : ℕ

/-- `CachedSurface`. -/
structure CachedSurface where
  object : Object
  count : ℕ

/-- The service's messages about surfaces. -/
inductive ToHost
  | retainIoSurface (mappingId : ℕ)
  | releaseIoSurface (mappingId : ℕ)
deriving DecidableEq

/-- The id that a message is about. -/
def ToHost.mappingId : ToHost → ℕ
  | retainIoSurface id => id
  | releaseIoSurface id => id

/-- `retain_surface_with_mapping_id`: the surface in the id's slot. -/
def retainSurfaceWithMappingId (st : QueueState) (mappingId : ℕ) : Option Surface :=
  if h : mappingId < mappingIdCount then
    if mappingId = 0 then none else (st.slots ⟨mappingId, h⟩).surface
  else none

/-- A retain that waits under the cache's lock for the answer to its message. -/
structure Waiting where
  mappingId : ℕ
  reply : Option (Option Object)

/-- The service's cache, its lock's holder and the retains its callers have not released; the messages
on the link, the one being handled and those sent so far; the host's kept surfaces, and the mapper. -/
structure World where
  surfaces : ℕ → Option CachedSurface
  waiting : Option Waiting
  retained : List (ℕ × Object)
  died : Bool
  link : List ToHost
  handling : Option (ℕ × Option Surface)
  sent : List ToHost
  kept : ℕ → Option (Option Surface)
  mapper : QueueState

namespace World

/-- Nothing lent yet. -/
def start (mapper : QueueState) : World where
  surfaces _ := none
  waiting := none
  retained := []
  died := false
  link := []
  handling := none
  sent := []
  kept _ := none
  mapper := mapper

/-! ### The service -/

/-- A message handed to the link. -/
def send (w : World) (m : ToHost) : World := { w with link := w.link ++ [m], sent := w.sent ++ [m] }

/-- `GpuTask::retain_surface`, up to its wait. -/
def retainSurface (w : World) (mappingId : ℕ) : World :=
  match w.surfaces mappingId with
  | some cached =>
    { w with
      surfaces :=
        Function.update w.surfaces mappingId (some { cached with count := cached.count + 1 })
      retained := (mappingId, cached.object) :: w.retained }
  | none =>
    { w.send (.retainIoSurface mappingId) with waiting := some ⟨mappingId, none⟩ }

/-- `GpuTask::retain_surface`, with the answer. -/
def wake (w : World) (mappingId : ℕ) : Option Object → World
  | none => { w with waiting := none }
  | some object =>
    { w with
      waiting := none
      surfaces :=
        if (w.surfaces mappingId).isSome then w.surfaces
        else Function.update w.surfaces mappingId (some ⟨object, 1⟩)
      retained := (mappingId, object) :: w.retained }

/-- `GpuTask::release_surface`, of a retain among those not released. -/
def releaseSurface (w : World) (mappingId : ℕ) (object : Object)
    (retained : List (ℕ × Object)) : World :=
  let w := { w with retained }
  match w.surfaces mappingId with
  | none => { w with died := true }
  | some cached =>
    if object.id ≠ cached.object.id then { w with died := true }
    else if cached.count - 1 = 0 then
      send { w with surfaces := Function.update w.surfaces mappingId none }
        (.releaseIoSurface mappingId)
    else
      { w with
        surfaces :=
          Function.update w.surfaces mappingId (some { cached with count := cached.count - 1 }) }

/-! ### The host -/

/-- `DeviceLink::retain_surface`, the look up. -/
def lookUp (w : World) (mappingId : ℕ) (link : List ToHost) : World :=
  { w with link, handling := some (mappingId, retainSurfaceWithMappingId w.mapper mappingId) }

/-- `DeviceLink::retain_surface`, the entry and the answer: the service's object, where the lookup by
the surface's port finds one. -/
def answer (w : World) (mappingId : ℕ) (surface : Option Surface) (object : Option ℕ) : World :=
  { w with
    handling := none
    kept :=
      if (w.kept mappingId).isSome then w.kept
      else Function.update w.kept mappingId (some surface)
    waiting := w.waiting.map fun waiting =>
      { waiting with
        reply := some (waiting.reply.getD (surface.bind fun s => object.map (Object.mk s))) } }

/-- `DeviceLink::release_surface`. -/
def drop (w : World) (mappingId : ℕ) (link : List ToHost) : World :=
  { w with link, kept := Function.update w.kept mappingId none }

/-- The retain count of a surface counts, beside the slot's reference, each that the host keeps and the
one of the message it handles. -/
def Counts (w : World) (host : Host) : Prop :=
  ∀ s, (∃ id, w.kept id = some (some s)) ∨ (∃ id, w.handling = some (id, some s)) →
    host.retainCount s ≠ 1

end World

/-- The steps of the two sides and of the guest. -/
inductive Action
  | retainSurface (mappingId : ℕ)
  | wake
  | releaseSurface (mappingId : ℕ) (object : Object)
  | lookUp
  | answer (object : Option ℕ)
  | drop
  | map (host : Host) (mappingId : UInt32)
  | unmap (host : Host) (mappingId : UInt32)

namespace World

/-- One step. A call of the service's waits for the cache's lock. -/
inductive Step : World → Action → World → Prop
  | retainSurface {w : World} (mappingId : ℕ) (hlock : w.waiting = none) :
      Step w (.retainSurface mappingId) (w.retainSurface mappingId)
  | wake {w : World} {mappingId : ℕ} {reply : Option Object}
      (hreply : w.waiting = some ⟨mappingId, some reply⟩) :
      Step w .wake (w.wake mappingId reply)
  | releaseSurface {w : World} {mappingId : ℕ} {object : Object} {pre post : List (ℕ × Object)}
      (hlock : w.waiting = none) (hretained : w.retained = pre ++ (mappingId, object) :: post) :
      Step w (.releaseSurface mappingId object) (w.releaseSurface mappingId object (pre ++ post))
  | lookUp {w : World} {mappingId : ℕ} {link : List ToHost} (hidle : w.handling = none)
      (hlink : w.link = .retainIoSurface mappingId :: link) :
      Step w .lookUp (w.lookUp mappingId link)
  | answer {w : World} {mappingId : ℕ} {surface : Option Surface}
      (hhandling : w.handling = some (mappingId, surface)) (object : Option ℕ) :
      Step w (.answer object) (w.answer mappingId surface object)
  | drop {w : World} {mappingId : ℕ} {link : List ToHost} (hidle : w.handling = none)
      (hlink : w.link = .releaseIoSurface mappingId :: link) :
      Step w .drop (w.drop mappingId link)
  | map {w : World} {host : Host} {mappingId : UInt32} {mapper : QueueState} {status : IoReturn}
      (hcounts : w.Counts host) (hmap : IoSurface.map host w.mapper mappingId = .ok (mapper, status)) :
      Step w (.map host mappingId) { w with mapper }
  | unmap {w : World} {host : Host} {mappingId : UInt32} {mapper : QueueState} {status : IoReturn}
      (hcounts : w.Counts host)
      (hunmap : IoSurface.unmap host w.mapper mappingId = .ok (mapper, status)) :
      Step w (.unmap host mappingId) { w with mapper }

/-- A retain asked of the host is answered with an object: the mapper knows the id, and the lookup by
the surface's port finds the surface. -/
def Answered (w : World) : Action → Prop
  | .answer object => object.isSome ∧ ∃ id s, w.handling = some (id, some s)
  | _ => True

/-- A step whose answer, if it is one, is not nil. -/
def AnsweredStep (w : World) (a : Action) (w' : World) : Prop := w.Answered a ∧ w.Step a w'

end World

end ReimsVgpu.IoSurface.Lending
