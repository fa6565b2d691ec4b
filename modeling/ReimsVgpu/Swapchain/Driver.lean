import Mathlib.Data.List.Basic
import Mathlib.Data.List.Nodup
import Mathlib.Logic.Function.Basic

/-!
# What a swapchain asks of the driver

The driver makes swapchains and fences, gives images, takes presents and answers waits. Its presents
are made on one queue and numbered in that order.

The driver's state holds what its answers tell to be complete, and no more: presents complete in the
order they were made; an image taken again, its fence waited for, has its last present complete; a
present's signalled fence tells the present complete, and an idle queue every present made. A present
that was enqueued waits on its frame's semaphore, so where it is complete so is the frame.

## Main definitions

* `VkError`, `SurfaceCaps`: answers.
* `Driver`, and its operations.
* `Driver.Unused`: every frame and every present of a swapchain is complete.
-/

namespace ReimsVgpu.Swapchain

/-- The errors that are told apart. -/
inductive VkError
  | timeout
  | notReady
  | outOfDate
  | surfaceLost
  | fullScreenExclusiveModeLost
  | other
deriving DecidableEq

/-- A surface's capabilities: its own size, and its limits. -/
structure SurfaceCaps where
  currentExtent : ℕ × ℕ
  minImageExtent : ℕ × ℕ
  maxImageExtent : ℕ × ℕ

/-- Whether a present's operations are enqueued: where it is taken, or rejected as out of date or for a
lost surface, which still waits on its semaphores. -/
def enqueues : Except VkError Bool → Bool
  | .ok _ | .error .outOfDate | .error .surfaceLost | .error .fullScreenExclusiveModeLost => true
  | .error _ => false

/-- A frame: a command buffer committed for an image of a swapchain. -/
structure FrameMade where
  id : ℕ
  swapchain : ℕ

/-- A present of a frame. -/
structure PresentMade where
  number : ℕ
  swapchain : ℕ
  image : ℕ
  frame : ℕ
  enqueued : Bool

structure Driver where
  /-- The swapchains made. -/
  swapchains : ℕ
  /-- The swapchains destroyed, in this order. -/
  destroyed : List ℕ
  /-- A swapchain was destroyed before it was unused. -/
  early : Bool
  frames : List FrameMade
  /-- The frames whose command buffers were waited for. -/
  waited : List ℕ
  presents : List PresentMade
  /-- The presents up to this number are complete. -/
  complete : ℕ
  /-- A wait for the queue to idle failed. -/
  idleFailed : Bool
  /-- The fences made to take images with. -/
  acquireFences : ℕ
  /-- Those with an image's taking pending on them, or signalled. -/
  armed : List ℕ
  /-- An image was taken with a fence that had one pending. -/
  misused : Bool
  /-- The fences made for presents. -/
  presentFences : ℕ
  /-- The number of the present that a fence was last chained into. -/
  chained : ℕ → ℕ
  fencesDestroyed : List ℕ

namespace Driver

/-- A driver, with the fence to take images with. -/
def new : Driver where
  swapchains := 0
  destroyed := []
  early := false
  frames := []
  waited := []
  presents := []
  complete := 0
  idleFailed := false
  acquireFences := 1
  armed := []
  misused := false
  presentFences := 0
  chained := fun _ => 0
  fencesDestroyed := []

/-- The number of the last present of a swapchain's image, 0 before its first. -/
def lastPresent (d : Driver) (raw image : ℕ) : ℕ :=
  d.presents.foldr (fun p n => if p.swapchain = raw ∧ p.image = image then max p.number n else n) 0

/-- A frame is complete: waited for, or waited for by a complete present. -/
def FrameDone (d : Driver) (frame : ℕ) : Prop :=
  frame ∈ d.waited ∨ ∃ p ∈ d.presents, p.frame = frame ∧ p.enqueued = true ∧ p.number ≤ d.complete

instance (d : Driver) (frame : ℕ) : Decidable (d.FrameDone frame) :=
  inferInstanceAs (Decidable (_ ∨ _))

/-- Every present and every frame made from a swapchain is complete. -/
def Unused (d : Driver) (raw : ℕ) : Prop :=
  (∀ p ∈ d.presents, p.swapchain = raw → p.number ≤ d.complete) ∧
    ∀ f ∈ d.frames, f.swapchain = raw → d.FrameDone f.id

instance (d : Driver) (raw : ℕ) : Decidable (d.Unused raw) :=
  inferInstanceAs (Decidable (_ ∧ _))

/-! ### Swapchains -/

def createSwapchain (d : Driver) : Driver := { d with swapchains := d.swapchains + 1 }

def destroySwapchain (d : Driver) (raw : ℕ) : Driver :=
  { d with destroyed := d.destroyed ++ [raw], early := d.early || !decide (d.Unused raw) }

/-! ### The fence that images are taken with -/

def createFence (d : Driver) : Driver := { d with acquireFences := d.acquireFences + 1 }

/-- `vkAcquireNextImageKHR`, which arms the fence where it gives an image. -/
def acquireNextImage (d : Driver) (fence : ℕ) (taken : Bool) : Driver :=
  { d with
    misused := d.misused || decide (fence ∈ d.armed)
    armed := if taken then fence :: d.armed else d.armed }

/-- The fence that an image was taken with has signalled: the image's last present is complete. -/
def imageSignalled (d : Driver) (raw image : ℕ) : Driver :=
  { d with complete := max d.complete (d.lastPresent raw image) }

def resetFence (d : Driver) (fence : ℕ) : Driver :=
  { d with armed := d.armed.filter (· ≠ fence) }

/-! ### Frames and presents -/

/-- A frame's command buffer is committed, for an image of a swapchain. -/
def commitFrame (d : Driver) (raw : ℕ) : Driver :=
  { d with frames := ⟨d.frames.length, raw⟩ :: d.frames }

/-- A frame's command buffer was waited for. -/
def frameWaited (d : Driver) (frame : ℕ) : Driver := { d with waited := frame :: d.waited }

def createPresentFence (d : Driver) : Driver := { d with presentFences := d.presentFences + 1 }

/-- `vkQueuePresentKHR`, with a fence chained into it or none. -/
def queuePresent (d : Driver) (raw image frame : ℕ) (fence : Option ℕ) (result : Except VkError Bool) :
    Driver :=
  { d with
    presents := ⟨d.presents.length + 1, raw, image, frame, enqueues result⟩ :: d.presents
    chained := match fence with
      | some fence => Function.update d.chained fence (d.presents.length + 1)
      | none => d.chained }

/-- A present's fence is seen signalled. -/
def presentSignalled (d : Driver) (fence : ℕ) : Driver :=
  { d with complete := max d.complete (d.chained fence) }

/-- `vkQueueWaitIdle`, and whether it succeeds. -/
def queueWaitIdle (d : Driver) (idle : Bool) : Driver :=
  if idle then { d with complete := max d.complete d.presents.length }
  else { d with idleFailed := true }

def destroyFences (d : Driver) (fences : List ℕ) : Driver :=
  { d with fencesDestroyed := d.fencesDestroyed ++ fences }

end Driver

end ReimsVgpu.Swapchain
