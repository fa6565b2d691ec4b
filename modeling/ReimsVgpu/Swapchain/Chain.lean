import ReimsVgpu.Swapchain.Driver
import Mathlib.Algebra.Group.Nat.Defs

/-!
# A window's swapchain, on its render thread

A draw takes an image with a fence and waits for it; the image's frame is committed, and presented. A
draw at another size, or of a stale swapchain, makes a new one: the old one's frames are waited for, and
it is retired until its last present is known complete, which a fence of the present tells, or an image
taken again, or the queue once idle.

Every call of the driver is answered by the caller of the model. A frame is presented where the last
draw gave it and its signal was encoded. Left out are the textures, the semaphores, the surface's other
limits and what is logged.

## Main definitions

* `Presents`, `Fences`, `Chain`: the presents known complete, their fences, and a swapchain's images.
* `World`, `World.step`, `World.Step`: the draws, the presents and the end.
-/

namespace ReimsVgpu.Swapchain

/-- How many retired swapchains are kept. -/
def RETIRED : ℕ := 4

/-- `u32::MAX`: a surface with no size of its own. -/
def noExtent : ℕ := 2 ^ 32 - 1

/-! ### Presents and their fences -/

structure Presents where
  made : ℕ
  complete : ℕ

namespace Presents

/-- The number of the present made is the new `made`. -/
def make (p : Presents) : Presents := { p with made := p.made + 1 }

def takenAgain (p : Presents) (last : ℕ) : Presents := { p with complete := max p.complete last }

def done (p : Presents) (last : ℕ) : Bool := decide (last ≤ p.complete)

def signalled (p : Presents) (number : ℕ) : Presents := { p with complete := max p.complete number }

def idle (p : Presents) : Presents := { p with complete := p.made }

end Presents

/-- The fences of the presents; the pending ones with their presents' numbers. -/
structure Fences where
  free : List ℕ
  pending : List (ℕ × ℕ)

namespace Fences

def presented (f : Fences) (number fence : ℕ) (result : Except VkError Bool) : Fences :=
  match result with
  | .ok _ | .error .outOfDate | .error .surfaceLost | .error .fullScreenExclusiveModeLost =>
    { f with pending := f.pending ++ [(number, fence)] }
  | .error _ => { f with free := f.free ++ [fence] }

def all (f : Fences) : List ℕ := f.free ++ f.pending.map (·.2)

end Fences

/-! ### A swapchain's images -/

structure Image where
  /-- The command buffer of its last frame. -/
  last : Option ℕ
  /-- Its last present's number. -/
  presented : ℕ

structure Chain where
  raw : ℕ
  size : ℕ × ℕ
  extent : ℕ × ℕ
  images : List Image

def Chain.lastPresent (c : Chain) : ℕ := (c.images.map (·.presented)).foldr max 0

/-- The frames that a retiring swapchain waits for. -/
def Chain.lasts (c : Chain) : List ℕ := c.images.filterMap (·.last)

structure Frame where
  index : ℕ

inductive Acquired
  | image (frame : Frame)
  | retry
  | failed

/-- `extent_for`. -/
def extentFor (size : ℕ × ℕ) (caps : SurfaceCaps) : Option (ℕ × ℕ) :=
  let within (wanted min' max' : ℕ) := min (max (min wanted noExtent) min') (max max' min')
  let extent := if caps.currentExtent.1 = noExtent then
      (within size.1 caps.minImageExtent.1 caps.maxImageExtent.1,
        within size.2 caps.minImageExtent.2 caps.maxImageExtent.2)
    else caps.currentExtent
  if 0 < extent.1 ∧ 0 < extent.2 then some extent else none

structure World where
  drawables : Bool
  fence : ℕ
  chain : Option Chain
  retired : List Chain
  presents : Presents
  fences : Option Fences
  stale : Bool
  pending : Option ℕ
  held : Option ℕ
  lost : Bool
  driver : Driver
  /-- The frame that the last draw gave, with whether its signal was encoded, until it is presented. -/
  acquired : Option (Frame × Bool)
  /-- A draw has answered that there will be no image. -/
  failed : Bool
  dropped : Bool

/-! ### The answers of the driver -/

/-- The answers in a collection: the fences' statuses each time they are polled, and whether the wait
for the queue to idle succeeds. -/
structure CollectAnswers where
  polled : List Bool
  waited : List Bool
  idle : Bool
  idled : List Bool

/-- The answers in the making of a swapchain; the images' number once they are wrapped. -/
structure MakeAnswers where
  caps : Except VkError SurfaceCaps
  create : Except VkError Unit
  wrap : Option ℕ

structure AcquireAnswers where
  make : MakeAnswers
  settles : Bool
  remade : CollectAnswers
  take : Except VkError (ℕ × Bool)
  wait : Except VkError Unit
  taken : CollectAnswers
  fetches : Bool

structure PresentAnswers where
  scheduled : Bool
  result : Except VkError Bool

structure DropAnswers where
  settles : Bool
  waited : List Bool
  idle : Bool
  idled : List Bool

namespace World

/-- A swapchain over a surface, with fences for its presents or none. -/
def new (drawables presentFences : Bool) : World where
  drawables
  fence := 0
  chain := none
  retired := []
  presents := ⟨0, 0⟩
  fences := if presentFences then some ⟨[], []⟩ else none
  stale := false
  pending := none
  held := none
  lost := false
  driver := .new
  acquired := none
  failed := false
  dropped := false

/-! ### Presents known complete -/

/-- A present's fence is seen signalled, reset, and free again. -/
def presentSeen (w : World) (fences : Fences) (number fence : ℕ) (rest : List (ℕ × ℕ)) : World :=
  { w with
    fences := some { fences with free := fences.free ++ [fence], pending := rest }
    presents := w.presents.signalled number
    driver := w.driver.presentSignalled fence }

/-- `poll_fences`: each status answers whether the oldest pending fence is seen signalled. -/
def pollFences (w : World) : List Bool → World
  | [] => w
  | signalled :: statuses =>
    match w.fences with
    | none => w
    | some fences =>
      match fences.pending with
      | [] => w
      | (number, fence) :: rest =>
        if signalled then (w.presentSeen fences number fence rest).pollFences statuses else w

/-- `wait_idle`. -/
def waitIdle (w : World) (idle : Bool) (idled : List Bool) : World :=
  { w with presents := w.presents.idle, driver := w.driver.queueWaitIdle idle }.pollFences idled

/-- `wait_fences`, and whether the present is known complete then. What the wait answers is not read. -/
def waitFences (w : World) (last : ℕ) (waited : List Bool) : World × Bool :=
  match w.fences with
  | none => (w, w.presents.done last)
  | some _ =>
    let w := w.pollFences waited
    (w, w.presents.done last)

/-- `Swapchain::destroy`. -/
def destroy (w : World) (chain : Chain) : World :=
  { w with driver := w.driver.destroySwapchain chain.raw }

/-- The waits of a collection, where more swapchains are retired than are kept. -/
def collectWaits (w : World) (a : CollectAnswers) : World :=
  if RETIRED < w.retired.length then
    let oldest := w.retired.head?.elim 0 Chain.lastPresent
    let (w, known) := w.waitFences oldest a.waited
    if known then w else w.waitIdle a.idle a.idled
  else w

/-- The retired swapchains whose last present is known complete are destroyed. -/
def destroyDone (w : World) : World :=
  let done := w.retired.filter fun c => w.presents.done c.lastPresent
  let kept := w.retired.filter fun c => !w.presents.done c.lastPresent
  done.foldl destroy { w with retired := kept }

def collect (w : World) (a : CollectAnswers) : World :=
  ((w.pollFences a.polled).collectWaits a).destroyDone

/-! ### The swapchain made again -/

/-- `settle_fence`, where the wait succeeds or not. -/
def settleFence (w : World) (settles : Bool) : World × Option ℕ :=
  match w.pending with
  | none => (w, none)
  | some index =>
    let w := { w with pending := none }
    if settles then ({ w with driver := w.driver.resetFence w.fence }, some index)
    else ({ w with fence := w.driver.acquireFences, driver := w.driver.createFence }, none)

/-- The frame of each image is waited for, and forgotten. -/
def waitFrames (w : World) (chain : Chain) : World × Chain :=
  ({ w with driver := chain.lasts.foldl Driver.frameWaited w.driver },
    { chain with images := chain.images.map fun image => { image with last := none } })

/-- The fence has signalled for image `index` of `chain`, taken again where it is one. -/
def imageTaken (w : World) (chain : Chain) (index : ℕ) : World :=
  match chain.images[index]? with
  | none => w
  | some image =>
    { w with
      presents := w.presents.takenAgain image.presented
      driver := w.driver.imageSignalled chain.raw index }

def retire (w : World) (settles : Bool) : World × Option Chain :=
  match w.chain with
  | none => (w, none)
  | some chain =>
    let (w, chain) := { w with chain := none }.waitFrames chain
    let (w, index) := w.settleFence settles
    let w := index.elim w (w.imageTaken chain)
    ({ w with held := none }, some chain)

/-- `refused_by`. -/
def refusedBy (w : World) (error : VkError) : World :=
  { w with lost := w.lost || decide (error = .surfaceLost) }

/-- A swapchain whose images are not wrapped is destroyed at once. -/
def make (w : World) (size : ℕ × ℕ) (a : MakeAnswers) : World × Option Chain :=
  match a.caps with
  | .error error => (w.refusedBy error, none)
  | .ok caps =>
    match extentFor size caps, a.create with
    | none, _ => (w, none)
    | some _, .error error => (w.refusedBy error, none)
    | some extent, .ok _ =>
      let raw := w.driver.swapchains
      let w := { w with driver := w.driver.createSwapchain }
      match a.wrap with
      | none => ({ w with driver := w.driver.destroySwapchain raw }, none)
      | some count => (w, some ⟨raw, size, extent, List.replicate count ⟨none, 0⟩⟩)

/-- `remake`, and whether the swapchain is made. -/
def remake (w : World) (size : ℕ × ℕ) (a : AcquireAnswers) : World × Bool :=
  let (w, old) := w.retire a.settles
  let (w, made) := w.make size a.make
  let w := { w with retired := w.retired ++ old.toList }.collect a.remade
  match made with
  | none => (w, false)
  | some chain => ({ w with chain := some chain, stale := false }, true)

/-! ### A draw -/

/-- Image `index`, once its drawable is fetched where there is one to fetch. -/
def fetched (w : World) (index : ℕ) (fetches : Bool) : Acquired :=
  if w.drawables ∧ (w.chain.bind (·.images[index]?)).isSome ∧ fetches = false then .retry
  else .image ⟨index⟩

/-- `taken_again`, of the current swapchain's image. -/
def takenAgain (w : World) (index : ℕ) : World :=
  w.chain.elim w fun chain => w.imageTaken chain index

/-- The image whose fence has signalled is held. -/
def hold (w : World) (index : ℕ) : World :=
  { w with
    pending := none
    held := some index
    driver := w.driver.resetFence w.fence }.takenAgain index

def waitFor (w : World) (index : ℕ) (a : AcquireAnswers) : World × Acquired :=
  match a.wait with
  | .ok _ =>
    let w := (w.hold index).collect a.taken
    (w, w.fetched index a.fetches)
  | .error .timeout => ({ w with pending := some index }, .retry)
  | .error _ => (w, .failed)

/-- The next image is taken; the driver gives an image of the swapchain. -/
def takeNext (w : World) (a : AcquireAnswers) : Option (World × Acquired) :=
  match w.chain with
  | none => some (w, .failed)
  | some chain =>
    match a.take with
    | .ok (index, suboptimal) =>
      if index < chain.images.length then
        some ({ w with
          driver := w.driver.acquireNextImage w.fence true
          stale := w.stale || suboptimal }.waitFor index a)
      else none
    | .error error =>
      let w := { w with driver := w.driver.acquireNextImage w.fence false }
      match error with
      | .timeout | .notReady => some (w, .retry)
      | .outOfDate => some ({ w with stale := true }, .retry)
      | _ => some (w, .failed)

/-- An image of the swapchain: the one held, the one pending, or the next. -/
def takeImage (w : World) (a : AcquireAnswers) : Option (World × Acquired) :=
  match w.held, w.pending with
  | some index, _ => some (w, w.fetched index a.fetches)
  | none, some index => some (w.waitFor index a)
  | none, none => w.takeNext a

def acquire (w : World) (size : ℕ × ℕ) (a : AcquireAnswers) : Option (World × Acquired) :=
  if size.1 = 0 ∨ size.2 = 0 then some (w, .retry)
  else if w.stale ∨ w.chain.map (·.size) ≠ some size then
    let (w, made) := w.remake size a
    if made then w.takeImage a else some (w, if w.lost then .failed else .retry)
  else w.takeImage a

/-! ### A frame -/

/-- `encode_ready`, where the runtime accepts the signal or not. -/
def encodeReady (w : World) (frame : Frame) (accepts : Bool) : Bool :=
  (w.chain.bind (·.images[frame.index]?)).isSome && accepts

/-- The frame's command buffer is its image's last. -/
def commitFrame (w : World) (frame : Frame) : World :=
  match w.chain with
  | none => w
  | some chain =>
    match chain.images[frame.index]? with
    | none => w
    | some image =>
      let images := chain.images.set frame.index { image with last := some w.driver.frames.length }
      { w with driver := w.driver.commitFrame chain.raw, chain := some { chain with images } }

/-- `Fences::take`. -/
def takeFence (w : World) : World × Option ℕ :=
  match w.fences with
  | none => (w, none)
  | some fences =>
    match fences.free.getLast? with
    | some fence =>
      ({ w with fences := some { fences with free := fences.free.dropLast } }, some fence)
    | none =>
      ({ w with driver := w.driver.createPresentFence }, some w.driver.presentFences)

/-- The present of an image, with a fence or none. -/
def queuePresent (w : World) (chain : Chain) (frame : Frame) (committed : ℕ)
    (result : Except VkError Bool) : World :=
  let (w, fence) := w.takeFence
  let presents := w.presents.make
  { w with
    presents
    fences := match w.fences, fence with
      | some fences, some fence => some (fences.presented presents.made fence result)
      | fences, _ => fences
    driver := w.driver.queuePresent chain.raw frame.index committed fence result
    chain := some { chain with
      images := chain.images.set frame.index ⟨some committed, presents.made⟩ }
    stale := match result with
      | .ok suboptimal => w.stale || suboptimal
      | .error _ => true }

/-- `present`, of a frame whose command buffer is committed. -/
def present (w : World) (frame : Frame) (a : PresentAnswers) : World :=
  let committed := w.driver.frames.length
  let w := { w with held := none }.commitFrame frame
  if a.scheduled then
    match w.chain with
    | none => w
    | some chain =>
      if frame.index < chain.images.length then w.queuePresent chain frame committed a.result else w
  else { w with stale := true }

/-! ### The end -/

/-- The waits of the end, where a swapchain is left. -/
def dropWaits (w : World) (a : DropAnswers) : World :=
  if w.retired.isEmpty then w else
    let newest := (w.retired.map Chain.lastPresent).foldr max 0
    let (w, known) := w.waitFences newest a.waited
    if known then w else w.waitIdle a.idle a.idled

/-- Every swapchain and every fence goes. -/
def destroyAll (w : World) : World :=
  let w := w.retired.foldl destroy { w with retired := [] }
  { w with
    driver := w.driver.destroyFences (w.fences.elim [] Fences.all)
    dropped := true }

/-- `Swapchain::drop`. -/
def drop (w : World) (a : DropAnswers) : World :=
  let (w, last) := w.retire a.settles
  let (w, _) := { w with retired := w.retired ++ last.toList }.settleFence a.settles
  (w.dropWaits a).destroyAll

end World

/-! ### The steps -/

inductive Action
  | acquire (size : ℕ × ℕ) (answers : AcquireAnswers)
  | encodeReady (accepts : Bool)
  | present (answers : PresentAnswers)
  | drop (answers : DropAnswers)

namespace World

/-- The frame that a draw gives, and whether it fails. -/
def answered (w : World) : Acquired → World
  | .image frame => { w with acquired := some (frame, false) }
  | .retry => { w with acquired := none }
  | .failed => { w with acquired := none, failed := true }

/-- A step, `none` where it cannot be taken. -/
def step (w : World) : Action → Option World
  | .acquire size a =>
    if w.dropped then none else (w.acquire size a).map fun (w, acquired) => w.answered acquired
  | .encodeReady accepts =>
    if w.dropped then none
    else w.acquired.map fun (frame, _) => { w with acquired := some (frame, w.encodeReady frame accepts) }
  | .present a =>
    match w.dropped, w.acquired with
    | false, some (frame, true) => some { w.present frame a with acquired := none }
    | _, _ => none
  | .drop a => if w.dropped then none else some { w.drop a with acquired := none }

def Step (w : World) (a : Action) (w' : World) : Prop := w.step a = some w'

end World

end ReimsVgpu.Swapchain
