import Mathlib.Data.List.Perm.Basic
import Mathlib.Data.List.Range
import ReimsVgpu.Swapchain.Chain
import ReimsVgpu.Library.Execution

/-!
# What a window's swapchain keeps

What each part of a draw, a present or the end changes, and what is kept for it: the image that is held
or pending is the current swapchain's, the fence that images are taken with has nothing pending where no
image is, every present's fence is free or pending, and every swapchain is destroyed, retired or
current.

## Main definitions

* `World.Settled`, `World.Fenced`, `World.Owned`.
-/

namespace ReimsVgpu.Swapchain

namespace World

variable {w w' : World}

/-! ### What the collections change -/

/-- A poll of the fences tells presents complete, and frees their fences. -/
theorem pollFences_eq (w : World) (statuses : List Bool) : ∃ known fences complete,
    w.pollFences statuses =
      { w with presents := { w.presents with complete := known }, fences, driver := { w.driver with complete } } := by
  induction statuses generalizing w with
  | nil => exact ⟨w.presents.complete, w.fences, w.driver.complete, rfl⟩
  | cons signalled statuses ih =>
    unfold pollFences
    split
    · exact ⟨w.presents.complete, w.fences, w.driver.complete, rfl⟩
    next fences hfences =>
      split
      · exact ⟨w.presents.complete, w.fences, w.driver.complete, rfl⟩
      next number fence rest _ =>
        split
        · obtain ⟨known, fences', complete, h⟩ := ih (w.presentSeen fences number fence rest)
          exact ⟨known, fences', complete, h⟩
        · exact ⟨w.presents.complete, w.fences, w.driver.complete, rfl⟩

/-- A wait for the fences, or for the queue to idle, tells presents complete as well. -/
theorem waits_eq (w : World) (last : ℕ) (waited : List Bool) (idle : Bool) (idled : List Bool) :
    ∃ known fences complete idleFailed,
      (if (w.waitFences last waited).2 then (w.waitFences last waited).1
        else (w.waitFences last waited).1.waitIdle idle idled) =
      { w with presents := { w.presents with complete := known }, fences, driver := { w.driver with complete, idleFailed } } := by
  have hwait : ∃ known fences complete, (w.waitFences last waited).1 =
      { w with presents := { w.presents with complete := known }, fences, driver := { w.driver with complete } } := by
    unfold waitFences
    split
    · exact ⟨w.presents.complete, w.fences, w.driver.complete, rfl⟩
    · exact w.pollFences_eq waited
  obtain ⟨known, fences, complete, hw⟩ := hwait
  split
  · exact ⟨known, fences, complete, w.driver.idleFailed, hw⟩
  · rw [hw]
    unfold waitIdle Driver.queueWaitIdle
    dsimp only
    split
    · obtain ⟨known', fences', complete', hpoll⟩ := pollFences_eq
        { w with
          presents := { w.presents with complete := w.presents.made }, fences
          driver := { w.driver with complete := max complete w.driver.presents.length } } idled
      exact ⟨known', fences', complete', w.driver.idleFailed, hpoll⟩
    · obtain ⟨known', fences', complete', hpoll⟩ := pollFences_eq
        { w with
          presents := { w.presents with complete := w.presents.made }, fences
          driver := { w.driver with complete, idleFailed := true } } idled
      exact ⟨known', fences', complete', true, hpoll⟩

/-- Swapchains are destroyed one after the other: whether each is unused does not depend on the others. -/
theorem foldl_destroy (w : World) (chains : List Chain) :
    chains.foldl destroy w =
      { w with
        driver := { w.driver with
          destroyed := w.driver.destroyed ++ chains.map (·.raw)
          early := w.driver.early || chains.any fun c => !decide (w.driver.Unused c.raw) } } := by
  induction chains generalizing w with
  | nil => simp
  | cons chain chains ih =>
    rw [List.foldl_cons, ih]
    simp only [destroy, Driver.destroySwapchain, List.map_cons, List.append_assoc,
      List.singleton_append, List.any_cons, Bool.or_assoc]
    rfl

/-- The rest of the state, that a collection leaves. -/
structure CollectSame (w w' : World) : Prop where
  chain : w'.chain = w.chain
  stale : w'.stale = w.stale
  pending : w'.pending = w.pending
  held : w'.held = w.held
  fence : w'.fence = w.fence
  lost : w'.lost = w.lost
  drawables : w'.drawables = w.drawables
  acquired : w'.acquired = w.acquired
  failed : w'.failed = w.failed
  dropped : w'.dropped = w.dropped
  armed : w'.driver.armed = w.driver.armed
  misused : w'.driver.misused = w.driver.misused
  acquireFences : w'.driver.acquireFences = w.driver.acquireFences
  swapchains : w'.driver.swapchains = w.driver.swapchains
  presentFences : w'.driver.presentFences = w.driver.presentFences
  chained : w'.driver.chained = w.driver.chained
  presents : w'.driver.presents = w.driver.presents
  frames : w'.driver.frames = w.driver.frames
  fencesDestroyed : w'.driver.fencesDestroyed = w.driver.fencesDestroyed

theorem collectSame (w : World) (a : CollectAnswers) : w.CollectSame (w.collect a) := by
  obtain ⟨known, fences, complete, hpoll⟩ := w.pollFences_eq a.polled
  unfold collect
  rw [hpoll]
  unfold collectWaits
  split
  · obtain ⟨known', fences', complete', idleFailed, hwaits⟩ := waits_eq
      { w with presents := { w.presents with complete := known }, fences, driver := { w.driver with complete } }
      (w.retired.head?.elim 0 Chain.lastPresent) a.waited a.idle a.idled
    dsimp only
    rw [hwaits]
    unfold destroyDone
    rw [foldl_destroy]
    constructor <;> rfl
  · unfold destroyDone
    rw [foldl_destroy]
    constructor <;> rfl

/-! ### The image taken and its fence -/

/-- The fences that have been made. -/
structure FenceMade (w : World) : Prop where
  fence : w.fence < w.driver.acquireFences
  armed : ∀ f ∈ w.driver.armed, f < w.driver.acquireFences

/-- The image held or pending is the current swapchain's, and is one of the two. -/
structure Settled (w : World) : Prop extends w.FenceMade where
  apart : ∀ i, w.held = some i → w.pending = none
  image : ∀ i, w.held = some i ∨ w.pending = some i → ∃ c, w.chain = some c ∧ i < c.images.length

/-- The fence was given to take an image with nothing pending on it, and has nothing pending where no
image is. -/
structure Ready (w : World) : Prop where
  misused : w.driver.misused = false
  armed : w.fence ∈ w.driver.armed → w.pending ≠ none

/-- What is kept for the fence, up to a draw that fails. -/
structure Answered (w : World) : Prop extends w.Settled where
  ready : w.failed = false → w.Ready
  acquired : ∀ frame encoded, w.acquired = some (frame, encoded) → w.held = some frame.index

theorem Ready.same (h : w.Ready) (hpending : w'.pending = w.pending) (hfence : w'.fence = w.fence)
    (harmed : w'.driver.armed = w.driver.armed) (hmisused : w'.driver.misused = w.driver.misused) :
    w'.Ready where
  misused := hmisused.trans h.misused
  armed := by
    rw [hpending, hfence, harmed]
    exact h.armed

/-- Once the fence is reset nothing is pending on it. -/
theorem ready_reset (h : w.driver.misused = false) {w' : World} (hfence : w'.fence = w.fence)
    (hdriver : w'.driver.armed = (w.driver.resetFence w.fence).armed)
    (hmisused : w'.driver.misused = w.driver.misused) : w'.Ready where
  misused := hmisused.trans h
  armed hmem := by
    rw [hfence, hdriver] at hmem
    exact absurd rfl (of_decide_eq_true (List.mem_filter.mp hmem).2)

/-- A settled fence: no image is pending. -/
theorem settleFence_pending (w : World) (settles : Bool) : (w.settleFence settles).1.pending = none := by
  unfold settleFence
  split
  next hnone => exact hnone
  · split <;> rfl

theorem settleFence_ready (h : w.FenceMade) (hready : w.Ready) (settles : Bool) :
    (w.settleFence settles).1.Ready := by
  unfold settleFence
  split
  · exact hready
  · split
    · exact ready_reset hready.misused rfl rfl rfl
    · exact ⟨hready.misused, fun hmem => absurd (h.armed _ hmem) (Nat.lt_irrefl _)⟩

theorem settleFence_made (h : w.FenceMade) (settles : Bool) : (w.settleFence settles).1.FenceMade := by
  unfold settleFence
  split
  · exact h
  · split
    · exact ⟨h.fence, fun f hf => h.armed f (List.mem_of_mem_filter hf)⟩
    · exact ⟨Nat.lt_succ_self _, fun f hf => Nat.lt_succ_of_lt (h.armed f hf)⟩

theorem FenceMade.settled (h : w.FenceMade) (hheld : w.held = none) (hpending : w.pending = none) :
    w.Settled where
  toFenceMade := h
  apart _ hi := absurd (hheld.symm.trans hi) nofun
  image _ hi := by
    rw [hheld, hpending] at hi
    rcases hi with hi | hi <;> cases hi

theorem imageTaken_eq (w : World) (chain : Chain) (index : ℕ) : ∃ known complete,
    w.imageTaken chain index = { w with presents := { w.presents with complete := known }, driver := { w.driver with complete } } := by
  unfold imageTaken
  split
  · exact ⟨w.presents.complete, w.driver.complete, rfl⟩
  · exact ⟨_, _, rfl⟩

/-- The image of a settled fence, if there is one, tells a present complete. -/
theorem elim_imageTaken_eq (w : World) (chain : Chain) (index : Option ℕ) : ∃ known complete,
    index.elim w (w.imageTaken chain) =
      { w with
        presents := { w.presents with complete := known }, driver := { w.driver with complete } } := by
  cases index with
  | none => exact ⟨w.presents.complete, w.driver.complete, rfl⟩
  | some index => exact w.imageTaken_eq chain index

theorem foldl_frameWaited (d : Driver) (frames : List ℕ) :
    frames.foldl Driver.frameWaited d = { d with waited := frames.reverse ++ d.waited } := by
  induction frames generalizing d with
  | nil => rfl
  | cons frame frames ih =>
    rw [List.foldl_cons, ih, List.reverse_cons, List.append_assoc]
    rfl

/-- A settled fence changes nothing but the fence and what is pending on it. -/
theorem settleFence_eq (w : World) (settles : Bool) : ∃ fence armed acquireFences,
    (w.settleFence settles).1 =
      { w with pending := none, fence, driver := { w.driver with armed, acquireFences } } := by
  unfold settleFence
  split
  next hnone =>
    refine ⟨w.fence, w.driver.armed, w.driver.acquireFences, ?_⟩
    rw [← hnone]
  · split
    · exact ⟨_, _, _, rfl⟩
    · exact ⟨_, _, _, rfl⟩

theorem retire_of_none (h : w.chain = none) (settles : Bool) : w.retire settles = (w, none) := by
  unfold retire
  rw [h]

/-- Where a swapchain is retired its frames are waited for, and no image is held or pending. -/
theorem retire_eq {c : Chain} (h : w.chain = some c) (settles : Bool) :
    ∃ fence armed acquireFences known complete, w.retire settles =
      ({ w with
        chain := none, held := none, pending := none, fence
        presents := { w.presents with complete := known }
        driver := { w.driver with
          waited := c.lasts.reverse ++ w.driver.waited, armed, acquireFences, complete } },
        some { c with images := c.images.map fun image => { image with last := none } }) := by
  let v : World :=
    { w with chain := none, driver := { w.driver with waited := c.lasts.reverse ++ w.driver.waited } }
  obtain ⟨fence, armed, acquireFences, hsettle⟩ := v.settleFence_eq settles
  obtain ⟨known, complete, hu⟩ := (v.settleFence settles).1.elim_imageTaken_eq
    { c with images := c.images.map fun image => { image with last := none } } (v.settleFence settles).2
  refine ⟨fence, armed, acquireFences, known, complete, ?_⟩
  unfold retire
  rw [h]
  dsimp only
  unfold waitFrames
  rw [foldl_frameWaited]
  dsimp only
  rw [hu, hsettle]

/-- What is left where the swapchain is retired: nothing held or pending. -/
theorem retire_settled (h : w.Settled) (settles : Bool) :
    (w.retire settles).1.FenceMade ∧ (w.retire settles).1.chain = none ∧
      (w.retire settles).1.held = none ∧ (w.retire settles).1.pending = none ∧
      (w.Ready → (w.retire settles).1.Ready) := by
  unfold retire
  split
  next hnone =>
    have hno : ∀ i, ¬(w.held = some i ∨ w.pending = some i) := fun i hi => by
      obtain ⟨c, hc, -⟩ := h.image i hi
      exact absurd (hnone.symm.trans hc) nofun
    refine ⟨h.toFenceMade, hnone, ?_, ?_, id⟩
    · exact Option.eq_none_iff_forall_ne_some.mpr fun i hi => hno i (.inl hi)
    · exact Option.eq_none_iff_forall_ne_some.mpr fun i hi => hno i (.inr hi)
  next chain hchain =>
    unfold waitFrames
    rw [foldl_frameWaited]
    dsimp only
    let v : World :=
      { w with
        chain := none
        driver := { w.driver with waited := chain.lasts.reverse ++ w.driver.waited } }
    have hchain' : (v.settleFence settles).1.chain = none := by
      obtain ⟨fence, armed, acquireFences, hsettle⟩ := v.settleFence_eq settles
      rw [hsettle]
    have hmade : (v.settleFence settles).1.FenceMade := settleFence_made (w := v) ⟨h.fence, h.armed⟩ settles
    have hpending := v.settleFence_pending settles
    have hready : w.Ready → (v.settleFence settles).1.Ready := fun hr =>
      settleFence_ready (w := v) ⟨h.fence, h.armed⟩ ⟨hr.misused, hr.armed⟩ settles
    obtain ⟨known, complete, hu⟩ := (v.settleFence settles).1.elim_imageTaken_eq
      { chain with images := chain.images.map fun image => { image with last := none } }
      (v.settleFence settles).2
    rw [hu]
    exact ⟨⟨hmade.fence, hmade.armed⟩, hchain', rfl, hpending,
      fun hr => ⟨(hready hr).misused, (hready hr).armed⟩⟩

theorem make_eq (w : World) (size : ℕ × ℕ) (a : MakeAnswers) : ∃ lost swapchains destroyed early,
    (w.make size a).1 =
      { w with lost, driver := { w.driver with swapchains, destroyed, early } } := by
  unfold make refusedBy
  split
  · exact ⟨_, w.driver.swapchains, w.driver.destroyed, w.driver.early, rfl⟩
  · split
    · exact ⟨w.lost, w.driver.swapchains, w.driver.destroyed, w.driver.early, rfl⟩
    · exact ⟨_, w.driver.swapchains, w.driver.destroyed, w.driver.early, rfl⟩
    · split
      · exact ⟨w.lost, _, _, _, rfl⟩
      · exact ⟨w.lost, _, w.driver.destroyed, w.driver.early, rfl⟩

/-- Once a swapchain is made again nothing is held or pending. -/
theorem remake_settled (h : w.Settled) (size : ℕ × ℕ) (a : AcquireAnswers) :
    (w.remake size a).1.Settled ∧ (w.remake size a).1.held = none ∧
      (w.remake size a).1.pending = none ∧ (w.Ready → (w.remake size a).1.Ready) := by
  obtain ⟨hmade, -, hheld, hpending, hready⟩ := retire_settled h a.settles
  obtain ⟨lost, swapchains, destroyed, early, hmake⟩ := (w.retire a.settles).1.make_eq size a.make
  have hcollected := collectSame
    { ((w.retire a.settles).1.make size a.make).1 with
      retired := ((w.retire a.settles).1.make size a.make).1.retired ++
        (w.retire a.settles).2.toList } a.remade
  unfold remake
  dsimp only
  rw [hmake] at hcollected ⊢
  generalize World.collect _ a.remade = u at hcollected
  have hu : u.FenceMade := by
    constructor
    · rw [hcollected.fence, hcollected.acquireFences]
      exact hmade.fence
    · rw [hcollected.armed, hcollected.acquireFences]
      exact hmade.armed
  have hheld' : u.held = none := hcollected.held.trans hheld
  have hpending' : u.pending = none := hcollected.pending.trans hpending
  have hready' : w.Ready → u.Ready := fun hr =>
    (hready hr).same hcollected.pending hcollected.fence hcollected.armed hcollected.misused
  split
  · exact ⟨hu.settled hheld' hpending', hheld', hpending', hready'⟩
  · exact ⟨FenceMade.settled ⟨hu.fence, hu.armed⟩ hheld' hpending', hheld', hpending',
      fun hr => ⟨(hready' hr).misused, (hready' hr).armed⟩⟩

theorem takenAgain_eq (w : World) (index : ℕ) : ∃ known complete,
    w.takenAgain index = { w with presents := { w.presents with complete := known }, driver := { w.driver with complete } } := by
  have himage : ∀ o : Option Chain, ∃ known complete,
      (o.elim w fun chain => w.imageTaken chain index) =
        { w with presents := { w.presents with complete := known }, driver := { w.driver with complete } } := fun o => by
    cases o with
    | none => exact ⟨w.presents.complete, w.driver.complete, rfl⟩
    | some chain => exact w.imageTaken_eq chain index
  exact himage w.chain

/-- What is kept once a draw has answered: the fence is ready unless it failed. -/
structure Gives (v : World × Acquired) (ready : Prop) : Prop where
  settled : v.1.Settled
  misused : ready → v.1.driver.misused = false
  ready : ready → v.2 ≠ .failed → v.1.Ready
  frame : ∀ frame, v.2 = .image frame → v.1.held = some frame.index

/-- A wait for the fence holds the image, or leaves it pending, or fails. -/
theorem waitFor_gives (h : w.FenceMade) (hheld : w.held = none) {index : ℕ} {c : Chain}
    (hchain : w.chain = some c) (hindex : index < c.images.length)
    (hpending : ∀ i, w.pending = some i → i < c.images.length) (a : AcquireAnswers) :
    Gives (w.waitFor index a) (w.driver.misused = false) := by
  unfold waitFor
  split
  · obtain ⟨known, complete, htaken⟩ := takenAgain_eq
      { w with pending := none, held := some index, driver := w.driver.resetFence w.fence } index
    have hs := (w.hold index).collectSame a.taken
    unfold hold at hs ⊢
    rw [htaken] at hs ⊢
    dsimp only
    generalize World.collect _ a.taken = u at hs ⊢
    have hmisused : u.driver.misused = w.driver.misused := hs.misused
    refine ⟨⟨⟨?_, ?_⟩, fun _ _ => hs.pending, fun i hi => ⟨c, hs.chain.trans hchain, ?_⟩⟩,
      hmisused.trans, fun hm _ => ready_reset hm hs.fence hs.armed hmisused, fun frame hframe => ?_⟩
    · rw [hs.fence, hs.acquireFences]
      exact h.fence
    · rw [hs.armed, hs.acquireFences]
      exact fun f hf => h.armed f (List.mem_of_mem_filter hf)
    · rw [hs.held, hs.pending] at hi
      rcases hi with hi | hi
      · exact Option.some.inj hi ▸ hindex
      · cases hi
    · rw [hs.held]
      dsimp only at hframe
      unfold fetched at hframe
      split at hframe
      · cases hframe
      · cases hframe
        rfl
  · refine ⟨⟨⟨h.fence, h.armed⟩, fun i hi => absurd (hheld.symm.trans hi) nofun,
      fun i hi => ⟨c, hchain, ?_⟩⟩, id, fun hm _ => ⟨hm, fun _ => nofun⟩, fun _ => nofun⟩
    rcases hi with hi | hi
    · exact absurd (hheld.symm.trans hi) nofun
    · exact Option.some.inj hi ▸ hindex
  · refine ⟨⟨h, fun i hi => absurd (hheld.symm.trans hi) nofun, fun i hi => ⟨c, hchain, ?_⟩⟩, id,
      fun _ hne => absurd rfl hne, fun _ => nofun⟩
    rcases hi with hi | hi
    · exact absurd (hheld.symm.trans hi) nofun
    · exact hpending i hi

theorem Gives.imp {v : World × Acquired} {p q : Prop} (h : Gives v p) (hpq : q → p) : Gives v q :=
  ⟨h.settled, h.misused ∘ hpq, h.ready ∘ hpq, h.frame⟩

/-- The next image is taken with the fence, which has nothing pending on it. -/
theorem takeNext_gives (h : w.Settled) (hheld : w.held = none) (hpending : w.pending = none)
    {a : AcquireAnswers} {v : World × Acquired} (hv : w.takeNext a = some v) : Gives v w.Ready := by
  have hmisused : w.Ready → (w.driver.misused || decide (w.fence ∈ w.driver.armed)) = false := fun hr => by
    rw [hr.misused, decide_eq_false fun hmem => hr.armed hmem hpending]
    rfl
  unfold takeNext at hv
  split at hv
  · cases hv
    exact ⟨h, fun hr => hr.misused, fun _ hne => absurd rfl hne, fun _ => nofun⟩
  next c hchain =>
    split at hv
    next index suboptimal _ =>
      split_ifs at hv with hindex
      cases hv
      refine (waitFor_gives
        (w := { w with
          driver := w.driver.acquireNextImage w.fence true, stale := w.stale || suboptimal })
        ⟨h.fence, fun f hf => ?_⟩ hheld hchain hindex
        (fun i hi => absurd (hpending.symm.trans hi) nofun) a).imp hmisused
      rcases List.mem_cons.mp hf with rfl | hf
      · exact h.fence
      · exact h.armed f hf
    · have hset : ∀ stale, ({ w with
          stale, driver := w.driver.acquireNextImage w.fence false } : World).Settled := fun _ =>
        ⟨⟨h.fence, h.armed⟩, h.apart, h.image⟩
      have hready : ∀ stale, w.Ready → ({ w with
          stale, driver := w.driver.acquireNextImage w.fence false } : World).Ready := fun _ hr =>
        ⟨hmisused hr, hr.armed⟩
      dsimp only at hv
      split at hv <;> cases hv
      · exact ⟨hset _, hmisused, fun hr _ => hready _ hr, fun _ => nofun⟩
      · exact ⟨hset _, hmisused, fun hr _ => hready _ hr, fun _ => nofun⟩
      · exact ⟨hset _, hmisused, fun hr _ => hready _ hr, fun _ => nofun⟩
      · exact ⟨hset _, hmisused, fun _ hne => absurd rfl hne, fun _ => nofun⟩

theorem takeImage_gives (h : w.Settled) {a : AcquireAnswers} {v : World × Acquired}
    (hv : w.takeImage a = some v) : Gives v w.Ready := by
  unfold takeImage at hv
  split at hv
  next index hheld =>
    cases hv
    refine ⟨h, fun hr => hr.misused, fun hr _ => hr, fun frame hframe => ?_⟩
    rw [hheld]
    dsimp only at hframe
    unfold fetched at hframe
    split at hframe
    · cases hframe
    · cases hframe
      rfl
  next index hheld hpending =>
    cases hv
    obtain ⟨c, hchain, hindex⟩ := h.image index (.inr hpending)
    refine (waitFor_gives h.toFenceMade hheld hchain hindex (fun i hi => ?_) a).imp fun hr => hr.misused
    rw [hpending] at hi
    exact Option.some.inj hi ▸ hindex
  next hheld hpending => exact takeNext_gives h hheld hpending hv

theorem acquire_gives (h : w.Settled) {size : ℕ × ℕ} {a : AcquireAnswers} {v : World × Acquired}
    (hv : w.acquire size a = some v) : Gives v w.Ready := by
  unfold acquire at hv
  split_ifs at hv
  · cases hv
    exact ⟨h, fun hr => hr.misused, fun hr _ => hr, fun _ => nofun⟩
  · obtain ⟨hsettled, -, -, hready⟩ := remake_settled h size a
    dsimp only at hv
    split at hv
    · exact (takeImage_gives hsettled hv).imp hready
    · cases hv
      exact ⟨hsettled, fun hr => (hready hr).misused, fun hr _ => hready hr, fun frame hframe => by
        dsimp only at hframe
        split at hframe <;> cases hframe⟩
  · exact takeImage_gives h hv

/-! ### Frames and the end -/

/-- A present leaves the fence, and the images' number. -/
structure PresentSame (w w' : World) : Prop where
  fence : w'.fence = w.fence
  pending : w'.pending = w.pending
  held : w'.held = w.held
  failed : w'.failed = w.failed
  dropped : w'.dropped = w.dropped
  retired : w'.retired = w.retired
  armed : w'.driver.armed = w.driver.armed
  misused : w'.driver.misused = w.driver.misused
  acquireFences : w'.driver.acquireFences = w.driver.acquireFences
  swapchains : w'.driver.swapchains = w.driver.swapchains
  destroyed : w'.driver.destroyed = w.driver.destroyed
  fencesDestroyed : w'.driver.fencesDestroyed = w.driver.fencesDestroyed
  chain : w'.chain.map (fun c => (c.raw, c.images.length)) =
    w.chain.map fun c => (c.raw, c.images.length)

theorem PresentSame.trans {u : World} (h : w.PresentSame w') (h' : w'.PresentSame u) :
    w.PresentSame u :=
  ⟨h'.fence.trans h.fence, h'.pending.trans h.pending, h'.held.trans h.held, h'.failed.trans h.failed,
    h'.dropped.trans h.dropped, h'.retired.trans h.retired, h'.armed.trans h.armed,
    h'.misused.trans h.misused, h'.acquireFences.trans h.acquireFences,
    h'.swapchains.trans h.swapchains, h'.destroyed.trans h.destroyed,
    h'.fencesDestroyed.trans h.fencesDestroyed, h'.chain.trans h.chain⟩

theorem takeFence_eq (w : World) : ∃ fences presentFences, w.takeFence.1 =
    { w with fences, driver := { w.driver with presentFences } } := by
  unfold takeFence
  split
  · exact ⟨w.fences, w.driver.presentFences, rfl⟩
  · split
    · exact ⟨_, w.driver.presentFences, rfl⟩
    · exact ⟨w.fences, _, rfl⟩

theorem commitFrame_same (w : World) (frame : Frame) : w.PresentSame (w.commitFrame frame) := by
  unfold commitFrame
  split
  · constructor <;> rfl
  next chain hchain =>
    split
    · constructor <;> rfl
    · refine ⟨rfl, rfl, rfl, rfl, rfl, rfl, rfl, rfl, rfl, rfl, rfl, rfl, ?_⟩
      simp [hchain]

theorem queuePresent_same {c : Chain} (hchain : w.chain = some c) (frame : Frame) (committed : ℕ)
    (result : Except VkError Bool) : w.PresentSame (w.queuePresent c frame committed result) := by
  obtain ⟨fences, presentFences, htake⟩ := w.takeFence_eq
  unfold queuePresent
  dsimp only
  rw [htake]
  refine ⟨rfl, rfl, rfl, rfl, rfl, rfl, rfl, rfl, rfl, rfl, rfl, rfl, ?_⟩
  simp [hchain]

theorem present_same (w : World) (frame : Frame) (a : PresentAnswers) :
    ({ w with held := none } : World).PresentSame (w.present frame a) := by
  have hcommit := commitFrame_same { w with held := none } frame
  unfold present
  dsimp only
  split
  · split
    · exact hcommit
    next c hchain =>
      split
      · exact hcommit.trans (queuePresent_same hchain frame _ a.result)
      · exact hcommit
  · exact hcommit.trans (by constructor <;> rfl)

theorem Settled.present (h : w.Settled) (frame : Frame) (a : PresentAnswers) :
    (w.present frame a).Settled := by
  have hs := w.present_same frame a
  refine ⟨⟨?_, ?_⟩, fun i hi => ?_, fun i hi => ?_⟩
  · rw [hs.fence, hs.acquireFences]
    exact h.fence
  · rw [hs.armed, hs.acquireFences]
    exact h.armed
  · rw [hs.held] at hi
    cases hi
  · rw [hs.held, hs.pending] at hi
    obtain ⟨c, hc, hlt⟩ := h.image i (hi.imp_left nofun)
    have hmap := hs.chain
    dsimp only at hmap
    rw [hc] at hmap
    obtain ⟨c', hc', heq⟩ := Option.map_eq_some_iff.mp hmap
    exact ⟨c', hc', by rw [(Prod.mk.inj heq).2]; exact hlt⟩

theorem settleFence_of_none (h : w.pending = none) (settles : Bool) :
    w.settleFence settles = (w, none) := by
  unfold settleFence
  rw [h]

/-- The swapchain retired at the end, beside those that were. -/
def retiredLast (w : World) (settles : Bool) : World :=
  { (w.retire settles).1 with
    retired := (w.retire settles).1.retired ++ (w.retire settles).2.toList }

/-- At the end no image is pending once the swapchain is retired. -/
theorem drop_eq (h : w.Settled) (a : DropAnswers) :
    w.drop a = ((w.retiredLast a.settles).dropWaits a).destroyAll := by
  obtain ⟨-, -, -, hpending, -⟩ := retire_settled h a.settles
  have hsettle := settleFence_of_none (w := w.retiredLast a.settles) hpending a.settles
  exact congrArg (fun v => (v.1.dropWaits a).destroyAll) hsettle

theorem dropWaits_eq (w : World) (a : DropAnswers) : ∃ known fences complete idleFailed,
    w.dropWaits a = { w with presents := { w.presents with complete := known }, fences, driver := { w.driver with complete, idleFailed } } := by
  unfold dropWaits
  split
  · exact ⟨w.presents.complete, w.fences, w.driver.complete, w.driver.idleFailed, rfl⟩
  · exact w.waits_eq _ a.waited a.idle a.idled

theorem destroyAll_eq (w : World) : w.destroyAll =
    { w with
      retired := []
      dropped := true
      driver := { w.driver with
        destroyed := w.driver.destroyed ++ w.retired.map (·.raw)
        early := w.driver.early || w.retired.any fun c => !decide (w.driver.Unused c.raw)
        fencesDestroyed := w.driver.fencesDestroyed ++ w.fences.elim [] Fences.all } } := by
  unfold destroyAll
  rw [foldl_destroy]
  rfl

theorem drop_settled (h : w.Settled) (a : DropAnswers) : (w.drop a).Settled ∧
    (w.Ready → (w.drop a).Ready) := by
  obtain ⟨hmade, -, hheld, hpending, hready⟩ := retire_settled h a.settles
  rw [drop_eq h]
  obtain ⟨known, fences, complete, idleFailed, hwaits⟩ := (w.retiredLast a.settles).dropWaits_eq a
  rw [hwaits, destroyAll_eq]
  exact ⟨FenceMade.settled ⟨hmade.fence, hmade.armed⟩ hheld hpending,
    fun hr => ⟨(hready hr).misused, (hready hr).armed⟩⟩

/-! ### The steps -/

/-- What a draw leaves of how far the swapchain is. -/
structure AcquireSame (w w' : World) : Prop where
  failed : w'.failed = w.failed
  dropped : w'.dropped = w.dropped
  presentFences : w'.driver.presentFences = w.driver.presentFences
  fencesDestroyed : w'.driver.fencesDestroyed = w.driver.fencesDestroyed

theorem AcquireSame.trans {u : World} (h : w.AcquireSame w') (h' : w'.AcquireSame u) :
    w.AcquireSame u :=
  ⟨h'.failed.trans h.failed, h'.dropped.trans h.dropped, h'.presentFences.trans h.presentFences,
    h'.fencesDestroyed.trans h.fencesDestroyed⟩

theorem CollectSame.acquireSame (h : w.CollectSame w') : w.AcquireSame w' :=
  ⟨h.failed, h.dropped, h.presentFences, h.fencesDestroyed⟩

theorem retire_same (w : World) (settles : Bool) : w.AcquireSame (w.retire settles).1 := by
  cases hchain : w.chain with
  | none =>
    rw [retire_of_none hchain]
    constructor <;> rfl
  | some chain =>
    obtain ⟨fence, armed, acquireFences, known, complete, hretire⟩ := retire_eq hchain settles
    rw [hretire]
    constructor <;> rfl

theorem remake_same (w : World) (size : ℕ × ℕ) (a : AcquireAnswers) :
    w.AcquireSame (w.remake size a).1 := by
  have hretire := w.retire_same a.settles
  obtain ⟨lost, swapchains, destroyed, early, hmake⟩ := (w.retire a.settles).1.make_eq size a.make
  have hcollected := collectSame
    { ((w.retire a.settles).1.make size a.make).1 with
      retired := ((w.retire a.settles).1.make size a.make).1.retired ++
        (w.retire a.settles).2.toList } a.remade
  unfold remake
  dsimp only
  rw [hmake] at hcollected ⊢
  generalize World.collect _ a.remade = u at hcollected
  have hu : w.AcquireSame u :=
    hretire.trans ⟨hcollected.failed, hcollected.dropped, hcollected.presentFences,
      hcollected.fencesDestroyed⟩
  split
  · exact hu
  · exact ⟨hu.failed, hu.dropped, hu.presentFences, hu.fencesDestroyed⟩

theorem waitFor_same (w : World) (index : ℕ) (a : AcquireAnswers) :
    w.AcquireSame (w.waitFor index a).1 := by
  unfold waitFor
  split
  · obtain ⟨known, complete, htaken⟩ := takenAgain_eq
      { w with pending := none, held := some index, driver := w.driver.resetFence w.fence } index
    have hs := ((w.hold index).collectSame a.taken).acquireSame
    unfold hold at hs ⊢
    rw [htaken] at hs ⊢
    exact ⟨hs.failed, hs.dropped, hs.presentFences, hs.fencesDestroyed⟩
  · constructor <;> rfl
  · constructor <;> rfl

/-- What the making of a swapchain, a wait for an image and its taking keep, a draw keeps. -/
theorem acquire_rule {I : World → Prop} {size : ℕ × ℕ} {a : AcquireAnswers} {v : World × Acquired}
    (h : I w) (hremake : ∀ u, I u → I (u.remake size a).1)
    (hwait : ∀ u index, I u → I (u.waitFor index a).1)
    (htake : ∀ (u : World) taken stale, I u →
      I { u with stale, driver := u.driver.acquireNextImage u.fence taken })
    (hv : w.acquire size a = some v) : I v.1 := by
  have himage : ∀ {u : World}, I u → u.takeImage a = some v → I v.1 := by
    intro u hu hv
    unfold takeImage at hv
    split at hv
    · cases hv
      exact hu
    · cases hv
      exact hwait u _ hu
    · unfold takeNext at hv
      split at hv
      · cases hv
        exact hu
      · split at hv
        · split_ifs at hv
          cases hv
          exact hwait _ _ (htake u true _ hu)
        · dsimp only at hv
          split at hv <;> cases hv
          · exact htake u false u.stale hu
          · exact htake u false u.stale hu
          · exact htake u false true hu
          · exact htake u false u.stale hu
  unfold acquire at hv
  split_ifs at hv
  · cases hv
    exact h
  · have hmade := hremake w h
    dsimp only at hv
    split at hv
    · exact himage hmade hv
    · cases hv
      exact hmade
  · exact himage h hv

theorem acquire_same {size : ℕ × ℕ} {a : AcquireAnswers} {v : World × Acquired}
    (hv : w.acquire size a = some v) : w.AcquireSame v.1 :=
  acquire_rule (I := w.AcquireSame) ⟨rfl, rfl, rfl, rfl⟩ (fun u hu => hu.trans (u.remake_same size a))
    (fun u index hu => hu.trans (u.waitFor_same index a))
    (fun _ _ _ hu => ⟨hu.failed, hu.dropped, hu.presentFences, hu.fencesDestroyed⟩) hv

/-- In every step the fence is kept for the next image. -/
theorem Answered.step (h : w.Answered) {a : Action} (hs : w.Step a w') : w'.Answered := by
  unfold Step World.step at hs
  cases a with
  | acquire size a =>
    dsimp only at hs
    split at hs
    · cases hs
    obtain ⟨⟨u, acquired⟩, hv, rfl⟩ := Option.map_eq_some_iff.mp hs
    have hgives := acquire_gives h.toSettled hv
    have hfailed := (acquire_same hv).failed
    have hready : u.failed = false → w.Ready := fun hf => h.ready (hfailed.symm.trans hf)
    cases acquired with
    | image frame =>
      refine ⟨⟨⟨hgives.settled.fence, hgives.settled.armed⟩, hgives.settled.apart,
        hgives.settled.image⟩, fun hf => ?_, fun frame' encoded hacquired => ?_⟩
      · have hr := hgives.ready (hready hf) nofun
        exact ⟨hr.misused, hr.armed⟩
      · cases hacquired
        exact hgives.frame frame rfl
    | retry =>
      refine ⟨⟨⟨hgives.settled.fence, hgives.settled.armed⟩, hgives.settled.apart,
        hgives.settled.image⟩, fun hf => ?_, fun _ _ => nofun⟩
      have hr := hgives.ready (hready hf) nofun
      exact ⟨hr.misused, hr.armed⟩
    | failed =>
      exact ⟨⟨⟨hgives.settled.fence, hgives.settled.armed⟩, hgives.settled.apart,
        hgives.settled.image⟩, nofun, fun _ _ => nofun⟩
  | encodeReady accepts =>
    dsimp only at hs
    split at hs
    · cases hs
    obtain ⟨⟨frame, encoded⟩, hacquired, rfl⟩ := Option.map_eq_some_iff.mp hs
    refine ⟨⟨⟨h.fence, h.armed⟩, h.apart, h.image⟩, fun hf => ?_, fun frame' encoded' heq => ?_⟩
    · exact ⟨(h.ready hf).misused, (h.ready hf).armed⟩
    · cases heq
      exact h.acquired frame encoded hacquired
  | present a =>
    dsimp only at hs
    split at hs
    next frame _ hacquired =>
      cases hs
      have hsame := w.present_same frame a
      have hsettled := h.toSettled.present frame a
      refine ⟨⟨⟨hsettled.fence, hsettled.armed⟩, hsettled.apart, hsettled.image⟩, fun hf => ?_,
        fun _ _ => nofun⟩
      have hr := h.ready (hsame.failed.symm.trans hf)
      exact Ready.same ⟨hr.misused, hr.armed⟩ hsame.pending hsame.fence hsame.armed hsame.misused
    · cases hs
  | drop a =>
    dsimp only at hs
    split at hs
    · cases hs
    cases hs
    obtain ⟨hsettled, hready⟩ := drop_settled h.toSettled a
    have hfailed : (w.drop a).failed = w.failed := by
      rw [drop_eq h.toSettled]
      obtain ⟨known, fences, complete, idleFailed, hwaits⟩ :=
        (w.retiredLast a.settles).dropWaits_eq a
      rw [hwaits, destroyAll_eq]
      exact (w.retire_same a.settles).failed
    refine ⟨⟨⟨hsettled.fence, hsettled.armed⟩, hsettled.apart, hsettled.image⟩, fun hf => ?_,
      fun _ _ => nofun⟩
    have hr := hready (h.ready (hfailed.symm.trans hf))
    exact ⟨hr.misused, hr.armed⟩

theorem answered_new (drawables presentFences : Bool) : (new drawables presentFences).Answered where
  fence := Nat.zero_lt_one
  armed _ := nofun
  apart _ := nofun
  image _ := by rintro (hi | hi) <;> cases hi
  ready _ := ⟨rfl, nofun⟩
  acquired _ _ := nofun

end World

end ReimsVgpu.Swapchain
