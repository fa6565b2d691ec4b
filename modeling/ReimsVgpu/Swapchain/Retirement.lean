import ReimsVgpu.Swapchain.Places

/-!
# A swapchain goes once nothing uses it

The presents' numbers are the driver's: an image knows its last present, and where no wait for the queue
to idle failed what is known complete is complete. A frame that is not known complete is its image's
last, on the current swapchain, and its present is enqueued unless the swapchain is stale; so once the
image is taken again the frame is complete. A retiring swapchain waits for its images' last frames, and
goes once its last present is known complete.

## Main definitions

* `World.Tells`, `World.Known`, `World.Lasting`.

## Main results

* `World.retirement`, `World.not_unused_of_failed_idle`.
-/

namespace ReimsVgpu.Swapchain

namespace Driver

variable {d d' : Driver} {raw image : ℕ}

/-- The numbers of an image's presents are at most its last. -/
theorem number_le_lastPresent {p : PresentMade} (hp : p ∈ d.presents) (hraw : p.swapchain = raw)
    (himage : p.image = image) : p.number ≤ d.lastPresent raw image := by
  unfold lastPresent
  generalize d.presents = presents at hp
  induction presents with
  | nil => cases hp
  | cons q presents ih =>
    rw [List.foldr_cons]
    rcases List.mem_cons.mp hp with rfl | hp
    · rw [if_pos ⟨hraw, himage⟩]
      exact Nat.le_max_left _ _
    · split
      · exact Nat.le_trans (ih hp) (Nat.le_max_right _ _)
      · exact ih hp

theorem lastPresent_le {n : ℕ} (h : ∀ p ∈ d.presents, p.number ≤ n) : d.lastPresent raw image ≤ n := by
  unfold lastPresent
  generalize d.presents = presents at h
  induction presents with
  | nil => exact Nat.zero_le _
  | cons q presents ih =>
    rw [List.forall_mem_cons] at h
    rw [List.foldr_cons]
    split
    · exact Nat.max_le.mpr ⟨h.1, ih h.2⟩
    · exact ih h.2

/-- A swapchain from which nothing was presented. -/
theorem lastPresent_eq_zero (h : ∀ p ∈ d.presents, p.swapchain ≠ raw) : d.lastPresent raw image = 0 := by
  unfold lastPresent
  generalize d.presents = presents at h
  induction presents with
  | nil => rfl
  | cons q presents ih =>
    rw [List.forall_mem_cons] at h
    rw [List.foldr_cons, if_neg fun hq => h.1 hq.1]
    exact ih h.2

/-- What is complete stays so. -/
theorem FrameDone.mono {frame : ℕ} (h : d.FrameDone frame) (hwaited : ∀ f ∈ d.waited, f ∈ d'.waited)
    (hpresents : ∀ p ∈ d.presents, p ∈ d'.presents) (hcomplete : d.complete ≤ d'.complete) :
    d'.FrameDone frame := by
  rcases h with h | ⟨p, hp, hframe, henqueued, hnumber⟩
  · exact .inl (hwaited frame h)
  · exact .inr ⟨p, hpresents p hp, hframe, henqueued, Nat.le_trans hnumber hcomplete⟩

/-- Every frame of a swapchain is complete. -/
def FramesDone (d : Driver) (raw : ℕ) : Prop := ∀ f ∈ d.frames, f.swapchain = raw → d.FrameDone f.id

/-- A frame was presented to an image, and its present is enqueued. -/
def Presented (d : Driver) (raw image frame : ℕ) : Prop :=
  ∃ p ∈ d.presents, p.swapchain = raw ∧ p.image = image ∧ p.frame = frame ∧ p.enqueued = true

end Driver

/-- A swapchain's images know their last presents. -/
structure ChainKnown (d : Driver) (c : Chain) : Prop where
  presented : ∀ (i : ℕ) (image : Image), c.images[i]? = some image →
    image.presented = d.lastPresent c.raw i
  within : ∀ p ∈ d.presents, p.swapchain = c.raw → p.image < c.images.length

theorem ChainKnown.number_le {d : Driver} {c : Chain} (h : ChainKnown d c) {p : PresentMade}
    (hp : p ∈ d.presents) (hraw : p.swapchain = c.raw) : p.number ≤ c.lastPresent := by
  have hlt := h.within p hp hraw
  have himage := h.presented p.image c.images[p.image] (List.getElem?_eq_getElem hlt)
  have hle := Driver.number_le_lastPresent hp hraw rfl
  rw [← himage] at hle
  exact Nat.le_trans hle (World.lastPresent_le.mp (Nat.le_refl _) _ (List.getElem_mem hlt))

namespace World

variable {w w' : World} {b : Prop}

/-! ### What tells presents complete -/

/-- More presents are complete, and those that are known complete are, unless a wait for the queue to
idle failed. -/
def Tells (w w' : World) : Prop :=
  ∃ known fences complete idleFailed,
    w' =
      { w with
        presents := { w.presents with complete := known }, fences
        driver := { w.driver with complete, idleFailed } } ∧
    w.driver.complete ≤ complete ∧
    (idleFailed = false → w.driver.idleFailed = false ∧
      (w.presents.complete ≤ w.driver.complete → known ≤ complete))

theorem Tells.refl (w : World) : w.Tells w :=
  ⟨w.presents.complete, w.fences, w.driver.complete, w.driver.idleFailed, rfl, Nat.le_refl _,
    fun hidle => ⟨hidle, id⟩⟩

theorem Tells.trans {u : World} (h : w.Tells w') (h' : w'.Tells u) : w.Tells u := by
  obtain ⟨known, fences, complete, idleFailed, rfl, hle, hidle⟩ := h
  obtain ⟨known', fences', complete', idleFailed', rfl, hle', hidle'⟩ := h'
  exact ⟨known', fences', complete', idleFailed', rfl, Nat.le_trans hle hle', fun hf =>
    ⟨(hidle (hidle' hf).1).1, fun hk => (hidle' hf).2 ((hidle (hidle' hf).1).2 hk)⟩⟩

theorem Tells.chain (h : w.Tells w') : w'.chain = w.chain := by
  obtain ⟨known, fences, complete, idleFailed, rfl, -⟩ := h
  rfl

theorem chainKnown_tells {c : Chain} (h : ChainKnown w.driver c) (ht : w.Tells w') :
    ChainKnown w'.driver c := by
  obtain ⟨known, fences, complete, idleFailed, rfl, -⟩ := ht
  exact ⟨h.presented, h.within⟩

theorem framesDone_tells {raw : ℕ} (h : w.driver.FramesDone raw) (ht : w.Tells w') :
    w'.driver.FramesDone raw := by
  obtain ⟨known, fences, complete, idleFailed, rfl, hle, -⟩ := ht
  exact fun f hf hraw => (h f hf hraw).mono (fun _ => id) (fun _ => id) hle

theorem pollFences_tells (h : w.Fenced) (statuses : List Bool) : w.Tells (w.pollFences statuses) := by
  induction statuses generalizing w with
  | nil => exact .refl w
  | cons signalled statuses ih =>
    unfold pollFences
    split
    · exact .refl w
    next fences hfences =>
      split
      · exact .refl w
      next number fence rest hpending =>
        split
        · have hchained : w.driver.chained fence = number :=
            h.chained fences hfences (number, fence) (by rw [hpending]; exact List.mem_cons_self)
          have hseen : w.Tells (w.presentSeen fences number fence rest) := by
            refine ⟨max w.presents.complete number, (w.presentSeen fences number fence rest).fences,
              max w.driver.complete number, w.driver.idleFailed, ?_, Nat.le_max_left _ _, fun hidle => ⟨hidle, fun hk => ?_⟩⟩
            · rw [← hchained]
              rfl
            · omega
          have hfenced : (w.presentSeen fences number fence rest).Fenced := by
            have hpoll := h.pollFences [true]
            simp only [pollFences, hfences, hpending] at hpoll
            exact hpoll
          exact hseen.trans (ih hfenced)
        · exact .refl w

theorem waits_tells (h : w.Fenced) (hmade : w.presents.made = w.driver.presents.length) (last : ℕ)
    (waited : List Bool) (idle : Bool) (idled : List Bool) :
    w.Tells (if (w.waitFences last waited).2 then (w.waitFences last waited).1
      else (w.waitFences last waited).1.waitIdle idle idled) := by
  have hwait : w.Tells (w.waitFences last waited).1 ∧ (w.waitFences last waited).1.Fenced := by
    unfold waitFences
    split
    · exact ⟨.refl w, h⟩
    · exact ⟨pollFences_tells h waited, h.pollFences waited⟩
  obtain ⟨htells, hfenced⟩ := hwait
  split
  · exact htells
  · refine htells.trans ?_
    have hmade' : (w.waitFences last waited).1.presents.made =
        (w.waitFences last waited).1.driver.presents.length := by
      obtain ⟨known, fences, complete, idleFailed, heq, -⟩ := htells
      rw [heq]
      exact hmade
    generalize (w.waitFences last waited).1 = u at hfenced hmade'
    have hidle : u.Tells
        { u with presents := u.presents.idle, driver := u.driver.queueWaitIdle idle } := by
      unfold Driver.queueWaitIdle
      cases idle with
      | false =>
        exact ⟨u.presents.made, u.fences, u.driver.complete, true, rfl, Nat.le_refl _, nofun⟩
      | true =>
        refine ⟨u.presents.made, u.fences, max u.driver.complete u.driver.presents.length,
          u.driver.idleFailed, rfl, Nat.le_max_left _ _, fun hidle => ⟨hidle, fun _ => ?_⟩⟩
        rw [hmade']
        exact Nat.le_max_right _ _
    refine hidle.trans (pollFences_tells ?_ idled)
    unfold Driver.queueWaitIdle
    split <;> exact ⟨hfenced.perm, hfenced.chained⟩

/-- An image taken again tells its last present complete. -/
theorem imageTaken_tells {c : Chain} (h : ChainKnown w.driver c) (index : ℕ) :
    w.Tells (w.imageTaken c index) := by
  unfold imageTaken
  split
  · exact .refl w
  next image himage =>
    refine ⟨_, w.fences, _, w.driver.idleFailed, rfl, Nat.le_max_left _ _, fun hidle =>
      ⟨hidle, fun hk => ?_⟩⟩
    rw [h.presented index image himage]
    omega

/-! ### What is kept of the frames and the presents -/

/-- A frame that may not be complete is its image's last, and the image is not held. -/
def Waiting (w : World) (b : Prop) (c : Chain) (frame : ℕ) : Prop :=
  ∃ i image, c.images[i]? = some image ∧ image.last = some frame ∧ w.held ≠ some i ∧
    (b → w.driver.Presented c.raw i frame)

/-- What is kept of the frames and the presents; `b` where the presents of the current swapchain's frames
are enqueued. -/
structure Known (b : Prop) (w : World) : Prop where
  made : w.presents.made = w.driver.presents.length
  number : ∀ p ∈ w.driver.presents, p.number ≤ w.driver.presents.length
  complete : w.driver.idleFailed = false → w.presents.complete ≤ w.driver.complete
  chains : ∀ c ∈ w.retired ++ w.chain.toList, ChainKnown w.driver c
  retired : ∀ c ∈ w.retired, w.driver.FramesDone c.raw
  frames : ∀ c, w.chain = some c → ∀ f ∈ w.driver.frames, f.swapchain = c.raw →
    w.driver.FrameDone f.id ∨ w.Waiting b c f.id
  presentsOf : ∀ p ∈ w.driver.presents, p.swapchain < w.driver.swapchains
  framesOf : ∀ f ∈ w.driver.frames, f.swapchain < w.driver.swapchains
  early : w.driver.idleFailed = false → w.driver.early = false

theorem Known.mono {b' : Prop} (h : w.Known b) (hb : b' → b) : w.Known b' :=
  { h with
    frames := fun c hc f hf hraw => (h.frames c hc f hf hraw).imp_right
      fun ⟨i, image, himage, hlast, hheld, hpresented⟩ =>
        ⟨i, image, himage, hlast, hheld, fun hb' => hpresented (hb hb')⟩ }

theorem Known.tells (h : w.Known b) (ht : w.Tells w') : w'.Known b := by
  obtain ⟨known, fences, complete, idleFailed, rfl, hle, hidle⟩ := ht
  have hdone : ∀ {frame : ℕ}, w.driver.FrameDone frame →
      ({ w.driver with complete, idleFailed } : Driver).FrameDone frame := fun hf =>
    hf.mono (fun _ => id) (fun _ => id) hle
  exact
    { made := h.made
      number := h.number
      complete := fun hf => (hidle hf).2 (h.complete (hidle hf).1)
      chains := fun c hc => ⟨(h.chains c hc).presented, (h.chains c hc).within⟩
      retired := fun c hc f hf hraw => hdone (h.retired c hc f hf hraw)
      frames := fun c hc f hf hraw => (h.frames c hc f hf hraw).imp_left hdone
      presentsOf := h.presentsOf
      framesOf := h.framesOf
      early := fun hf => h.early (hidle hf).1 }

/-- A change that has no part in the frames and the presents. -/
theorem Known.same (h : w.Known b) (hpresents : w'.presents = w.presents)
    (hretired : w'.retired = w.retired) (hchain : w'.chain = w.chain)
    (hheld : ∀ i, w'.held = some i → w.held = some i) {armed acquireFences misused presentFences chained}
    (hdriver : w'.driver =
      { w.driver with armed, acquireFences, misused, presentFences, chained }) : w'.Known b where
  made := by
    rw [hpresents, hdriver]
    exact h.made
  number := by
    rw [hdriver]
    exact h.number
  complete := by
    rw [hpresents, hdriver]
    exact h.complete
  chains c hc := by
    rw [hretired, hchain] at hc
    rw [hdriver]
    exact ⟨(h.chains c hc).presented, (h.chains c hc).within⟩
  retired c hc := by
    rw [hretired] at hc
    rw [hdriver]
    exact h.retired c hc
  frames c hc f hf hraw := by
    rw [hchain] at hc
    rw [hdriver] at hf
    have hwait := h.frames c hc f hf hraw
    unfold Waiting at hwait ⊢
    rw [hdriver]
    exact hwait.imp_right fun ⟨i, image, himage, hlast, hne, hpresented⟩ =>
      ⟨i, image, himage, hlast, fun hi => hne (hheld i hi), hpresented⟩
  presentsOf := by
    rw [hdriver]
    exact h.presentsOf
  framesOf := by
    rw [hdriver]
    exact h.framesOf
  early := by
    rw [hdriver]
    exact h.early

/-- A swapchain whose last present is complete, and its frames, is unused. -/
theorem unused_of_done {d : Driver} {c : Chain} (hc : ChainKnown d c) (hframes : d.FramesDone c.raw)
    (hlast : c.lastPresent ≤ d.complete) : d.Unused c.raw :=
  ⟨fun _ hp hraw => Nat.le_trans (hc.number_le hp hraw) hlast, hframes⟩

/-- A retired swapchain that is known unused is. -/
theorem Known.unused (h : w.Known b) (hidle : w.driver.idleFailed = false) {c : Chain}
    (hc : c ∈ w.retired) (hdone : w.presents.done c.lastPresent = true) : w.driver.Unused c.raw :=
  unused_of_done (h.chains c (List.mem_append_left _ hc)) (h.retired c hc)
    (Nat.le_trans (of_decide_eq_true hdone) (h.complete hidle))

theorem Known.destroyDone (h : w.Known b) : w.destroyDone.Known b := by
  unfold World.destroyDone
  rw [foldl_destroy]
  refine
    { h with
      chains := fun c hc => ?_
      retired := fun c hc => h.retired c (List.mem_of_mem_filter hc)
      early := fun hidle => ?_ }
  · refine (fun hk => ⟨hk.presented, hk.within⟩ : ChainKnown w.driver c → _) (h.chains c ?_)
    rcases List.mem_append.mp hc with hc | hc
    · exact List.mem_append_left _ (List.mem_of_mem_filter hc)
    · exact List.mem_append_right _ hc
  · dsimp only at hidle ⊢
    rw [h.early hidle, Bool.false_or, List.any_eq_false]
    intro c hc
    obtain ⟨hmem, hdone⟩ := List.mem_filter.mp hc
    rw [decide_eq_true (h.unused hidle hmem hdone)]
    decide

theorem Known.collect (h : w.Known b) (hf : w.Fenced) (a : CollectAnswers) : (w.collect a).Known b := by
  have hpolled := h.tells (pollFences_tells hf a.polled)
  have hfenced := hf.pollFences a.polled
  refine Known.destroyDone ?_
  unfold collectWaits
  split
  · exact hpolled.tells (waits_tells hfenced hpolled.made _ a.waited a.idle a.idled)
  · exact hpolled

/-! ### A swapchain retired -/

/-- The frames of a swapchain that is taken out are waited for. -/
theorem waitFrames_done (h : w.Known b) {c : Chain} (hc : w.chain = some c) :
    ({ w.driver with waited := c.lasts.reverse ++ w.driver.waited } : Driver).FramesDone c.raw := by
  intro f hf hraw
  rcases h.frames c hc f hf hraw with hdone | ⟨i, image, himage, hlast, -⟩
  · exact hdone.mono (fun _ => List.mem_append_right _) (fun _ => id) (Nat.le_refl _)
  · refine .inl (List.mem_append_left _ (List.mem_reverse.mpr ?_))
    exact List.mem_filterMap.mpr ⟨image, List.mem_of_getElem? himage, hlast⟩

theorem chainKnown_waited {d : Driver} {c : Chain} (h : ChainKnown d c) :
    ChainKnown d { c with images := c.images.map fun image => { image with last := none } } where
  presented i image himage := by
    rw [List.getElem?_map] at himage
    obtain ⟨old, hold, rfl⟩ := Option.map_eq_some_iff.mp himage
    exact h.presented i old hold
  within p hp hraw := by
    rw [List.length_map]
    exact h.within p hp hraw

/-- A swapchain that is retired is complete but for its presents. -/
theorem Known.retire (h : w.Known b) (settles : Bool) :
    (w.retire settles).1.Known b ∧ (w.retire settles).1.chain = none ∧
      ∀ c ∈ (w.retire settles).2.toList,
        ChainKnown (w.retire settles).1.driver c ∧ (w.retire settles).1.driver.FramesDone c.raw := by
  cases hchain : w.chain with
  | none =>
    rw [retire_of_none hchain]
    exact ⟨h, hchain, fun _ => nofun⟩
  | some c =>
    let v : World :=
      { w with
        chain := none
        driver := { w.driver with waited := c.lasts.reverse ++ w.driver.waited } }
    let c' : Chain := { c with images := c.images.map fun image => { image with last := none } }
    have hknown : ChainKnown v.driver c' :=
      have hk := chainKnown_waited (h.chains c (by rw [hchain]; exact List.mem_append_right _ List.mem_cons_self))
      ⟨hk.presented, hk.within⟩
    have hv : v.Known b :=
      { h with
        chains := fun c' hc' => by
          have hk := h.chains c' (List.mem_append_left _ (by simpa [v] using hc'))
          exact ⟨hk.presented, hk.within⟩
        retired := fun c' hc' f hf hraw =>
          (h.retired c' hc' f hf hraw).mono (fun _ => List.mem_append_right _) (fun _ => id) (Nat.le_refl _)
        frames := fun _ => nofun }
    have hsettled : (v.settleFence settles).1.Known b ∧ (v.settleFence settles).1.chain = none ∧
        ChainKnown (v.settleFence settles).1.driver c' ∧
        (v.settleFence settles).1.driver.FramesDone c'.raw := by
      obtain ⟨fence, armed, acquireFences, hsettle⟩ := v.settleFence_eq settles
      rw [hsettle]
      exact ⟨hv.same rfl rfl rfl (fun _ => id) rfl, rfl, ⟨hknown.presented, hknown.within⟩,
        waitFrames_done h hchain⟩
    obtain ⟨hknown', hnone, hchain', hdone⟩ := hsettled
    have htells : (v.settleFence settles).1.Tells
        ((v.settleFence settles).2.elim (v.settleFence settles).1
          ((v.settleFence settles).1.imageTaken c')) := by
      cases (v.settleFence settles).2 with
      | none => exact .refl _
      | some index => exact imageTaken_tells hchain' index
    have hretire : w.retire settles =
        ({ (v.settleFence settles).2.elim (v.settleFence settles).1
          ((v.settleFence settles).1.imageTaken c') with held := none }, some c') := by
      unfold World.retire
      rw [hchain]
      dsimp only
      unfold waitFrames
      rw [foldl_frameWaited]
    have hkept := chainKnown_tells hchain' htells
    have hframes := framesDone_tells hdone htells
    rw [hretire]
    refine ⟨(hknown'.tells htells).same rfl rfl rfl (fun _ => nofun) rfl, ?_, fun c'' hc'' => ?_⟩
    · exact htells.chain.trans hnone
    · rw [List.mem_singleton.mp hc'']
      exact ⟨hkept, hframes⟩

/-! ### A swapchain made -/

/-- A swapchain that is not yet made has no presents and no frames. -/
theorem Known.fresh (h : w.Known b) : (∀ p ∈ w.driver.presents, p.swapchain ≠ w.driver.swapchains) ∧
    ∀ f ∈ w.driver.frames, f.swapchain ≠ w.driver.swapchains :=
  ⟨fun p hp => Nat.ne_of_lt (h.presentsOf p hp), fun f hf => Nat.ne_of_lt (h.framesOf f hf)⟩

/-- A swapchain that is made has no presents and no frames. -/
theorem Known.make (h : w.Known b) (size : ℕ × ℕ) (a : MakeAnswers) :
    (w.make size a).1.Known b ∧
      ∀ c ∈ (w.make size a).2.toList, ChainKnown (w.make size a).1.driver c ∧
        ∀ f ∈ (w.make size a).1.driver.frames, f.swapchain ≠ c.raw := by
  have hrefused : ∀ lost, ({ w with lost } : World).Known b := fun _ =>
    h.same rfl rfl rfl (fun _ => id) rfl
  have hmade : ∀ destroyed early, (w.driver.idleFailed = false → early = false) →
      ({ w with driver := { w.driver with swapchains := w.driver.swapchains + 1, destroyed, early } } :
        World).Known b := fun _ _ hearly =>
    { h with
      chains := fun c hc => ⟨(h.chains c hc).presented, (h.chains c hc).within⟩
      presentsOf := fun p hp => Nat.lt_succ_of_lt (h.presentsOf p hp)
      framesOf := fun f hf => Nat.lt_succ_of_lt (h.framesOf f hf)
      early := hearly }
  unfold World.make refusedBy
  split
  · exact ⟨hrefused _, fun _ => nofun⟩
  · split
    · exact ⟨h, fun _ => nofun⟩
    · exact ⟨hrefused _, fun _ => nofun⟩
    · split
      · refine ⟨hmade _ _ fun hidle => ?_, fun _ => nofun⟩
        have hunused : w.driver.createSwapchain.Unused w.driver.swapchains :=
          ⟨fun p hp hraw => absurd hraw (h.fresh.1 p hp), fun f hf hraw => absurd hraw (h.fresh.2 f hf)⟩
        rw [decide_eq_true hunused]
        exact (Bool.or_false _).trans (h.early hidle)
      · refine ⟨hmade _ _ h.early, fun c hc => ?_⟩
        rw [List.mem_singleton.mp hc]
        refine ⟨⟨fun i image himage => ?_, fun p hp hraw => absurd hraw (h.fresh.1 p hp)⟩, h.fresh.2⟩
        rw [List.eq_of_mem_replicate (List.mem_of_getElem? himage)]
        exact (Driver.lastPresent_eq_zero h.fresh.1).symm

/-- The swapchain that is made again, with the one before it retired. -/
theorem Known.remake (h : w.Known b) (hf : w.Fenced) (size : ℕ × ℕ) (a : AcquireAnswers) {b' : Prop} :
    (w.remake size a).1.Known b' := by
  obtain ⟨hretire, hnone, hold⟩ := h.retire a.settles
  obtain ⟨hmake, hnew⟩ := hretire.make size a.make
  obtain ⟨lost, swapchains, destroyed, early, heq⟩ := (w.retire a.settles).1.make_eq size a.make
  have hfenced : ((w.retire a.settles).1.make size a.make).1.Fenced := by
    rw [heq]
    exact (hf.retire a.settles).same rfl rfl rfl
  have hchain : ((w.retire a.settles).1.make size a.make).1.chain = none := by
    rw [heq]
    exact hnone
  have hold' : ∀ c ∈ (w.retire a.settles).2.toList,
      ChainKnown ((w.retire a.settles).1.make size a.make).1.driver c ∧
        ((w.retire a.settles).1.make size a.make).1.driver.FramesDone c.raw := by
    rw [heq]
    exact fun c hc => ⟨⟨(hold c hc).1.presented, (hold c hc).1.within⟩, (hold c hc).2⟩
  unfold World.remake
  dsimp only
  generalize (w.retire a.settles).1.make size a.make = v at hmake hnew hfenced hchain hold'
  generalize (w.retire a.settles).2.toList = old at hold'
  have hretired : ({ v.1 with retired := v.1.retired ++ old } : World).Known b :=
    { hmake with
      chains := fun c hc => by
        rw [show v.1.chain.toList = [] by rw [hchain]; rfl, List.append_nil] at hc
        rcases List.mem_append.mp hc with hc | hc
        · exact hmake.chains c (List.mem_append_left _ hc)
        · exact (hold' c hc).1
      retired := fun c hc => by
        rcases List.mem_append.mp hc with hc | hc
        · exact hmake.retired c hc
        · exact (hold' c hc).2 }
  have hcollected := hretired.collect (hfenced.same rfl rfl rfl) a.remade
  have hsame := collectSame { v.1 with retired := v.1.retired ++ old } a.remade
  generalize World.collect { v.1 with retired := v.1.retired ++ old } a.remade = u at hcollected hsame
  have hnone' : u.chain = none := hsame.chain.trans hchain
  split
  · exact { hcollected with frames := fun c hc => absurd (hnone'.symm.trans hc) nofun }
  next c hc =>
    obtain ⟨hknown, hframes⟩ := hnew c (by rw [hc]; exact List.mem_cons_self)
    refine
      { hcollected with
        chains := fun c' hc' => ?_
        frames := fun c' hc' f hf' hraw => ?_ }
    · rcases List.mem_append.mp hc' with hc' | hc'
      · exact hcollected.chains c' (List.mem_append_left _ hc')
      · rw [List.mem_singleton.mp hc']
        refine ⟨fun i image himage => ?_, ?_⟩
        · rw [hknown.presented i image himage]
          unfold Driver.lastPresent
          rw [hsame.presents]
        · rw [hsame.presents]
          exact hknown.within
    · cases hc'
      dsimp only at hf'
      rw [hsame.frames] at hf'
      exact absurd hraw (hframes f hf')

/-! ### A draw -/

/-- Once an image is taken again its last frame is complete. -/
theorem Known.hold (h : w.Known True) {c : Chain} (hchain : w.chain = some c) {index : ℕ}
    (hindex : index < c.images.length) : (w.hold index).Known True := by
  let u : World := { w with pending := none, held := none, driver := w.driver.resetFence w.fence }
  have hu : u.Known True := h.same rfl rfl rfl (fun _ => nofun) rfl
  have hc : ChainKnown u.driver c :=
    hu.chains c (List.mem_append_right _ (by rw [show u.chain = some c from hchain]; exact List.mem_cons_self))
  have htaken : w.hold index = { u.imageTaken c index with held := some index } := by
    unfold World.hold World.takenAgain imageTaken
    rw [hchain]
    simp only [Option.elim_some, List.getElem?_eq_getElem hindex]
    rfl
  have hcomplete : (u.imageTaken c index).driver =
      { u.driver with complete := max u.driver.complete (u.driver.lastPresent c.raw index) } := by
    unfold imageTaken
    rw [List.getElem?_eq_getElem hindex]
    rfl
  have hknown := hu.tells (imageTaken_tells hc index)
  have hchain' : (u.imageTaken c index).chain = some c := (imageTaken_tells hc index).chain.trans hchain
  rw [htaken]
  refine { hknown with frames := fun c' hc' f hf hraw => ?_ }
  obtain rfl := Option.some.inj (hchain'.symm.trans hc')
  rcases hknown.frames c hchain' f hf hraw with hdone | ⟨i, image, himage, hlast, -, hpresented⟩
  · exact .inl hdone
  · rcases eq_or_ne index i with rfl | hne
    · obtain ⟨p, hp, hpraw, hpimage, hframe, henqueued⟩ := hpresented trivial
      refine .inl (.inr ⟨p, hp, hframe, henqueued, ?_⟩)
      dsimp only
      rw [hcomplete] at hp ⊢
      exact Nat.le_trans (Driver.number_le_lastPresent (d := u.driver) hp hpraw hpimage)
        (Nat.le_max_right _ _)
    · exact .inr ⟨i, image, himage, hlast, fun hi => hne (Option.some.inj hi), hpresented⟩

theorem Known.waitFor (h : w.Known True) (hf : w.Fenced) {c : Chain} (hchain : w.chain = some c)
    {index : ℕ} (hindex : index < c.images.length) (a : AcquireAnswers) :
    (w.waitFor index a).1.Known True := by
  unfold World.waitFor
  split
  · refine (h.hold hchain hindex).collect ?_ a.taken
    obtain ⟨known, complete, htaken⟩ := takenAgain_eq
      { w with pending := none, held := some index, driver := w.driver.resetFence w.fence } index
    unfold World.hold
    rw [htaken]
    exact ⟨hf.perm, hf.chained⟩
  · exact h.same rfl rfl rfl (fun _ => id) rfl
  · exact h

theorem Known.takeImage (h : w.Known True) (hf : w.Fenced) (hs : w.Settled) {a : AcquireAnswers}
    {v : World × Acquired} (hv : w.takeImage a = some v) : v.1.Known True := by
  unfold World.takeImage at hv
  split at hv
  · cases hv
    exact h
  next index hheld hpending =>
    cases hv
    obtain ⟨c, hchain, hindex⟩ := hs.image index (.inr hpending)
    exact h.waitFor hf hchain hindex a
  next hheld hpending =>
    unfold takeNext at hv
    split at hv
    · cases hv
      exact h
    next c hchain =>
      split at hv
      · split_ifs at hv with hindex
        cases hv
        have hset : ∀ stale, ({ w with
            driver := w.driver.acquireNextImage w.fence true, stale } : World).Known True := fun _ =>
          h.same rfl rfl rfl (fun _ => id) rfl
        exact (hset _).waitFor ⟨hf.perm, hf.chained⟩ hchain hindex a
      · have hset : ∀ stale, ({ w with
            driver := w.driver.acquireNextImage w.fence false, stale } : World).Known True := fun _ =>
          h.same rfl rfl rfl (fun _ => id) rfl
        dsimp only at hv
        split at hv <;> cases hv <;> exact hset _

theorem Known.acquire (h : w.Known (w.stale = false)) (hf : w.Fenced) (hs : w.Settled) {size : ℕ × ℕ}
    {a : AcquireAnswers} {v : World × Acquired} (hv : w.acquire size a = some v) :
    v.1.Known (v.1.stale = false) := by
  unfold World.acquire at hv
  split_ifs at hv with _ hremake
  · cases hv
    exact h
  · dsimp only at hv
    split at hv
    · exact ((h.remake hf size a).takeImage (hf.remake size a) (remake_settled hs size a).1 hv).mono
        fun _ => trivial
    · cases hv
      exact h.remake hf size a
  · have hstale : w.stale = false := by
      cases hstale : w.stale with
      | false => rfl
      | true => exact absurd (.inl hstale) hremake
    exact ((h.mono fun _ => hstale).takeImage hf hs hv).mono fun _ => trivial

/-! ### A frame -/

/-- A frame is committed for the image that is held: the image's frames before it are complete. -/
theorem waiting_set {b' : Prop} (h : w.Known b) {c : Chain} (hchain : w.chain = some c) {index : ℕ}
    (hheld : w.held = some index) (hindex : index < c.images.length) {m : Image}
    (hm : m.last = some w.driver.frames.length) (hheld' : w'.held = none)
    (hframes : w'.driver.frames = ⟨w.driver.frames.length, c.raw⟩ :: w.driver.frames)
    (hwaited : w'.driver.waited = w.driver.waited)
    (hpresents : ∀ p ∈ w.driver.presents, p ∈ w'.driver.presents)
    (hcomplete : w'.driver.complete = w.driver.complete) (hb : b' → b)
    (hnew : b' → w'.driver.Presented c.raw index w.driver.frames.length) :
    ∀ f ∈ w'.driver.frames, f.swapchain = c.raw →
      w'.driver.FrameDone f.id ∨ w'.Waiting b' { c with images := c.images.set index m } f.id := by
  intro f hf hraw
  rw [hframes] at hf
  rcases List.mem_cons.mp hf with rfl | hf
  · refine .inr ⟨index, m, ?_, hm, by rw [hheld']; nofun, hnew⟩
    exact List.getElem?_set_self hindex
  · rcases h.frames c hchain f hf hraw with hdone | ⟨i, image, himage, hlast, hne, hpresented⟩
    · exact .inl (hdone.mono (by rw [hwaited]; exact fun _ => id) hpresents (Nat.le_of_eq hcomplete.symm))
    · have hindex' : index ≠ i := fun heq => hne (heq ▸ hheld)
      refine .inr ⟨i, image, ?_, hlast, by rw [hheld']; nofun, fun hb' => ?_⟩
      · exact (List.getElem?_set_ne hindex').trans himage
      · obtain ⟨p, hp, hrest⟩ := hpresented (hb hb')
        exact ⟨p, hpresents p hp, hrest⟩

/-- A retired swapchain is not the current one, and the current one was made. -/
theorem Kept.current (h : w.Kept) {c : Chain} (hchain : w.chain = some c) :
    (∀ c' ∈ w.retired, c'.raw ≠ c.raw) ∧ c.raw < w.driver.swapchains := by
  have hperm := h.owned.perm
  rw [hchain, Option.toList_some, List.map_append] at hperm
  have hnodup : (w.retired.map (·.raw) ++ [c].map (·.raw)).Nodup :=
    (List.nodup_append.mp (hperm.nodup_iff.mpr List.nodup_range)).2.1
  refine ⟨fun c' hc' heq => ?_, ?_⟩
  · exact (List.nodup_append.mp hnodup).2.2 _ (List.mem_map_of_mem hc') _ List.mem_cons_self heq
  · refine List.mem_range.mp (hperm.mem_iff.mp ?_)
    exact List.mem_append_right _ (List.mem_append_right _ List.mem_cons_self)

/-- A frame that is committed and not presented, its swapchain stale. -/
theorem Known.commit (h : w.Known b) (hkept : w.Kept) {c : Chain} (hchain : w.chain = some c)
    {frame : Frame} (hheld : w.held = some frame.index) (hindex : frame.index < c.images.length) {stale : Bool} :
    ({ ({ w with held := none } : World).commitFrame frame with stale } : World).Known False := by
  obtain ⟨hother, hraw⟩ := hkept.current hchain
  unfold commitFrame
  dsimp only
  rw [hchain]
  simp only [List.getElem?_eq_getElem hindex]
  have hdone : ∀ {f : ℕ}, w.driver.FrameDone f → (w.driver.commitFrame c.raw).FrameDone f := fun hf =>
    hf.mono (fun _ => id) (fun _ => id) (Nat.le_refl _)
  have hknown := h.chains c (by rw [hchain]; exact List.mem_append_right _ List.mem_cons_self)
  exact
    { h with
      chains := fun c' hc' => by
        rcases List.mem_append.mp hc' with hc' | hc'
        · have hk := h.chains c' (List.mem_append_left _ hc')
          exact ⟨hk.presented, hk.within⟩
        · rw [List.mem_singleton.mp hc']
          refine ⟨fun i image himage => ?_, fun p hp hp' => ?_⟩
          · dsimp only at himage
            rcases eq_or_ne frame.index i with rfl | hne
            · rw [List.getElem?_set_self hindex] at himage
              obtain rfl := Option.some.inj himage
              exact hknown.presented frame.index c.images[frame.index]
                (List.getElem?_eq_getElem hindex)
            · rw [List.getElem?_set_ne hne] at himage
              exact hknown.presented i image himage
          · dsimp only
            rw [List.length_set]
            exact hknown.within p hp hp'
      retired := fun c' hc' f hf hraw' => by
        rcases List.mem_cons.mp hf with rfl | hf
        · exact absurd hraw'.symm (hother c' hc')
        · exact hdone (h.retired c' hc' f hf hraw')
      frames := fun c' hc' => by
        cases hc'
        exact waiting_set h hchain hheld hindex rfl rfl rfl rfl (fun _ => id) rfl
          (fun (hnever : False) => hnever.elim) nofun
      framesOf := fun f hf => by
        rcases List.mem_cons.mp hf with rfl | hf
        · exact hraw
        · exact h.framesOf f hf }

/-- A present of an image gives it the new number, and leaves the others. -/
theorem lastPresent_queuePresent {d : Driver} (hnumber : ∀ p ∈ d.presents, p.number ≤ d.presents.length)
    (raw image frame : ℕ) (fence : Option ℕ) (result : Except VkError Bool) (raw' i : ℕ) :
    (d.queuePresent raw image frame fence result).lastPresent raw' i =
      if raw = raw' ∧ image = i then d.presents.length + 1 else d.lastPresent raw' i := by
  change (if raw = raw' ∧ image = i then max (d.presents.length + 1) (d.lastPresent raw' i)
    else d.lastPresent raw' i) = _
  split
  · exact Nat.max_eq_left (Nat.le_succ_of_le (Driver.lastPresent_le hnumber))
  · rfl

/-- A present that leaves the swapchain fresh is enqueued. -/
theorem enqueues_of_not_stale {stale : Bool} {result : Except VkError Bool}
    (h : (match result with
      | .ok suboptimal => stale || suboptimal
      | .error _ => true) = false) : stale = false ∧ enqueues result = true := by
  cases result with
  | ok suboptimal => exact ⟨(Bool.or_eq_false_iff.mp h).1, rfl⟩
  | error error => cases h

/-- A frame that is presented: its present is enqueued unless the swapchain is stale then. -/
theorem Known.queuePresent (h : w.Known (w.stale = false)) (hkept : w.Kept) {c : Chain}
    (hchain : w.chain = some c) {frame : Frame} (hheld : w.held = some frame.index)
    (hindex : frame.index < c.images.length) (hw' : w' = { w with
      held := none
      driver := w.driver.commitFrame c.raw
      chain := some { c with
        images := c.images.set frame.index
          { c.images[frame.index] with last := some w.driver.frames.length } } })
    {c' : Chain} (hc' : w'.chain = some c') (result : Except VkError Bool) :
    (w'.queuePresent c' frame w.driver.frames.length result).Known
      ((w'.queuePresent c' frame w.driver.frames.length result).stale = false) := by
  obtain ⟨hother, hraw⟩ := hkept.current hchain
  obtain ⟨fences, presentFences, htake⟩ := w'.takeFence_eq
  have hknown := h.chains c (by rw [hchain]; exact List.mem_append_right _ List.mem_cons_self)
  unfold World.queuePresent
  dsimp only
  rw [htake]
  generalize w'.takeFence.2 = fence
  subst hw'
  cases hc'
  dsimp only
  rw [List.set_set]
  have hlast := lastPresent_queuePresent (d := w.driver) h.number c.raw frame.index
    w.driver.frames.length fence result
  have hdone : ∀ {f : ℕ}, w.driver.FrameDone f →
      (w.driver.queuePresent c.raw frame.index w.driver.frames.length fence result).FrameDone f :=
    fun hf => hf.mono (fun _ => id) (fun _ => List.mem_cons_of_mem _) (Nat.le_refl _)
  exact
    { made := congrArg (· + 1) h.made
      number := fun p hp => by
        rcases List.mem_cons.mp hp with rfl | hp
        · exact Nat.le_refl _
        · exact Nat.le_succ_of_le (h.number p hp)
      complete := h.complete
      chains := fun c' hc' => by
        rcases List.mem_append.mp hc' with hc' | hc'
        · have hk := h.chains c' (List.mem_append_left _ hc')
          have hne := hother c' hc'
          refine ⟨fun i image himage => ?_, fun p hp hp' => ?_⟩
          · rw [hk.presented i image himage]
            exact ((hlast c'.raw i).trans (if_neg fun heq => hne heq.1.symm)).symm
          · rcases List.mem_cons.mp hp with rfl | hp
            · exact absurd hp'.symm hne
            · exact hk.within p hp hp'
        · rw [List.mem_singleton.mp hc']
          refine ⟨fun i image himage => ?_, fun p hp hp' => ?_⟩
          · refine Eq.trans ?_ (hlast c.raw i).symm
            dsimp only at himage
            rcases eq_or_ne frame.index i with rfl | hne
            · rw [List.getElem?_set_self hindex] at himage
              obtain rfl := Option.some.inj himage
              rw [if_pos ⟨rfl, rfl⟩]
              exact congrArg (· + 1) h.made
            · rw [List.getElem?_set_ne hne] at himage
              rw [if_neg fun heq => hne heq.2]
              exact hknown.presented i image himage
          · dsimp only
            rw [List.length_set]
            rcases List.mem_cons.mp hp with rfl | hp
            · exact hindex
            · exact hknown.within p hp hp'
      retired := fun c' hc' f hf hraw' => by
        rcases List.mem_cons.mp hf with rfl | hf
        · exact absurd hraw'.symm (hother c' hc')
        · exact hdone (h.retired c' hc' f hf hraw')
      frames := fun c' hc' => by
        cases hc'
        refine waiting_set h hchain hheld hindex rfl rfl rfl rfl (fun _ => List.mem_cons_of_mem _) rfl
          (fun hs => (enqueues_of_not_stale hs).1) fun hs => ?_
        exact ⟨_, List.mem_cons_self, rfl, rfl, rfl, (enqueues_of_not_stale hs).2⟩
      presentsOf := fun p hp => by
        rcases List.mem_cons.mp hp with rfl | hp
        · exact hraw
        · exact h.presentsOf p hp
      framesOf := fun f hf => by
        rcases List.mem_cons.mp hf with rfl | hf
        · exact hraw
        · exact h.framesOf f hf
      early := h.early }

theorem Known.present (h : w.Known (w.stale = false)) (hkept : w.Kept) (hs : w.Settled) {frame : Frame}
    (hheld : w.held = some frame.index) (a : PresentAnswers) :
    (w.present frame a).Known ((w.present frame a).stale = false) := by
  obtain ⟨c, hchain, hindex⟩ := hs.image frame.index (.inl hheld)
  have hcommit : ({ w with held := none } : World).commitFrame frame =
      { w with
        held := none
        driver := w.driver.commitFrame c.raw
        chain := some { c with
          images := c.images.set frame.index
            { c.images[frame.index] with last := some w.driver.frames.length } } } := by
    unfold commitFrame
    dsimp only
    rw [hchain]
    simp only [List.getElem?_eq_getElem hindex]
  unfold World.present
  dsimp only
  split
  · split
    next hnone =>
      rw [hcommit] at hnone
      cases hnone
    next c' hc' =>
      split
      · exact h.queuePresent hkept hchain hheld hindex hcommit hc' a.result
      next hlength =>
        rw [hcommit] at hc'
        cases hc'
        exact absurd (by rw [List.length_set]; exact hindex) hlength
  · exact (h.commit hkept hchain hheld hindex).mono nofun

/-! ### The end, and the runs -/

/-- At the end every swapchain is unused as it is destroyed, where no wait for the queue to idle failed. -/
theorem drop_early (h : w.Known b) (hf : w.Fenced) (hkept : w.Kept) (hs : w.Settled) (a : DropAnswers)
    (hidle : (w.drop a).driver.idleFailed = false) : (w.drop a).driver.early = false := by
  obtain ⟨hretire, hnone, hold⟩ := h.retire a.settles
  obtain ⟨howned, -, -⟩ := hkept.owned.retire a.settles
  have hretired : (w.retiredLast a.settles).Known b :=
    { hretire with
      chains := fun c hc => by
        rw [show (w.retiredLast a.settles).chain.toList = [] by
          rw [show (w.retiredLast a.settles).chain = none from hnone]; rfl, List.append_nil] at hc
        rcases List.mem_append.mp hc with hc | hc
        · exact hretire.chains c (List.mem_append_left _ hc)
        · exact (hold c hc).1
      retired := fun c hc => by
        rcases List.mem_append.mp hc with hc | hc
        · exact hretire.retired c hc
        · exact (hold c hc).2 }
  have hfenced : (w.retiredLast a.settles).Fenced := (hf.retire a.settles).same rfl rfl rfl
  have hnumbered : ∀ c ∈ (w.retiredLast a.settles).retired,
      c.lastPresent ≤ (w.retiredLast a.settles).presents.made := howned.numbered
  rw [drop_eq hs] at hidle ⊢
  generalize w.retiredLast a.settles = u at hretired hfenced hnumbered hidle ⊢
  have hwaits : (u.dropWaits a).Known b ∧ (u.dropWaits a).retired = u.retired ∧
      ∀ c ∈ u.retired, (u.dropWaits a).presents.done c.lastPresent = true := by
    unfold dropWaits
    split
    next hempty =>
      rw [List.isEmpty_iff] at hempty
      exact ⟨hretired, rfl, fun c hc => by rw [hempty] at hc; cases hc⟩
    · have htells := waits_tells hfenced hretired.made
        ((u.retired.map Chain.lastPresent).foldr max 0) a.waited a.idle a.idled
      have hdone := waits_done (w := u)
        (foldr_max_le.mpr (List.forall_mem_map.mpr hnumbered)) a.waited a.idle a.idled
      refine ⟨hretired.tells htells, ?_, fun c hc => ?_⟩
      · obtain ⟨known, fences, complete, idleFailed, heq, -⟩ := htells
        dsimp only
        rw [heq]
      · refine decide_eq_true (Nat.le_trans ?_ (of_decide_eq_true hdone))
        exact foldr_max_le.mp (Nat.le_refl _) _ (List.mem_map_of_mem hc)
  obtain ⟨hknown, hsame, hdone⟩ := hwaits
  rw [destroyAll_eq] at hidle ⊢
  dsimp only at hidle ⊢
  rw [hknown.early hidle, Bool.false_or, List.any_eq_false]
  intro c hc
  rw [decide_eq_true (hknown.unused hidle hc (hdone c (hsame ▸ hc)))]
  decide

/-- What is kept until the end. -/
structure Alive (w : World) : Prop extends w.Fenced, w.Kept where
  known : w.Known (w.stale = false)
  fencesDestroyed : w.driver.fencesDestroyed = []

/-- What the end leaves. -/
structure Over (w : World) : Prop where
  kept : w.Kept
  destroyed : w.driver.destroyed.Perm (List.range w.driver.swapchains)
  fencesDestroyed : w.driver.fencesDestroyed.Perm (List.range w.driver.presentFences)
  early : w.driver.idleFailed = false → w.driver.early = false

/-- The frame that a draw gives has no part in what is kept. -/
theorem Alive.same (h : w.Alive) (acquired : Option (Frame × Bool)) (failed : Bool) :
    { w with acquired, failed }.Alive where
  toFenced := ⟨h.perm, h.chained⟩
  toKept := ⟨⟨h.owned.perm, h.owned.numbered⟩, h.few⟩
  known := h.known.same rfl rfl rfl (fun _ => id) rfl
  fencesDestroyed := h.fencesDestroyed

theorem Alive.acquire (h : w.Alive) (hs : w.Settled) {size : ℕ × ℕ} {a : AcquireAnswers}
    {v : World × Acquired} (hv : w.acquire size a = some v) : v.1.Alive where
  toFenced := h.toFenced.acquire hv
  toKept := h.toKept.acquire hv
  known := h.known.acquire h.toFenced hs hv
  fencesDestroyed := (acquire_same hv).fencesDestroyed.trans h.fencesDestroyed

theorem Alive.present (h : w.Alive) (hs : w.Settled) {frame : Frame} (hheld : w.held = some frame.index)
    (a : PresentAnswers) : (w.present frame a).Alive where
  toFenced := h.toFenced.present frame a h.known.made
  toKept := h.toKept.present frame a
  known := h.known.present h.toKept hs hheld a
  fencesDestroyed := (w.present_same frame a).fencesDestroyed.trans h.fencesDestroyed

theorem Alive.drop (h : w.Alive) (hs : w.Settled) (a : DropAnswers) : (w.drop a).Over where
  kept := (drop_places h.toKept hs a).1
  destroyed := (drop_places h.toKept hs a).2
  fencesDestroyed := h.toFenced.drop hs h.fencesDestroyed a
  early := drop_early h.known h.toFenced h.toKept hs a

theorem drop_dropped (hs : w.Settled) (a : DropAnswers) : (w.drop a).dropped = true := by
  rw [drop_eq hs, destroyAll_eq]

/-- What is kept, before the end and after it. -/
structure Lasting (w : World) : Prop where
  answered : w.Answered
  alive : w.dropped = false → w.Alive
  past : w.dropped = true → w.Over

/-- A step that does not end it keeps it. -/
theorem lasting_of_alive (h : w.Answered) (ha : w.Alive) (hd : w.dropped = false) : w.Lasting :=
  ⟨h, fun _ => ha, fun ho => absurd (hd.symm.trans ho) nofun⟩

theorem Lasting.step (h : w.Lasting) {a : Action} (hs : w.Step a w') : w'.Lasting := by
  have hanswered := h.answered.step hs
  have hsettled := h.answered.toSettled
  unfold Step World.step at hs
  cases a with
  | acquire size a =>
    dsimp only at hs
    split_ifs at hs with hd
    rw [Bool.not_eq_true] at hd
    obtain ⟨⟨u, acquired⟩, hv, rfl⟩ := Option.map_eq_some_iff.mp hs
    have hdropped := (acquire_same hv).dropped.trans hd
    have halive := (h.alive hd).acquire hsettled hv
    cases acquired with
    | image frame => exact lasting_of_alive hanswered (halive.same _ _) hdropped
    | retry => exact lasting_of_alive hanswered (halive.same _ _) hdropped
    | failed => exact lasting_of_alive hanswered (halive.same _ _) hdropped
  | encodeReady accepts =>
    dsimp only at hs
    split_ifs at hs with hd
    rw [Bool.not_eq_true] at hd
    obtain ⟨⟨frame, encoded⟩, -, rfl⟩ := Option.map_eq_some_iff.mp hs
    exact lasting_of_alive hanswered ((h.alive hd).same _ _) hd
  | present a =>
    dsimp only at hs
    split at hs
    next frame hd hacquired =>
      cases hs
      have halive := (h.alive hd).present hsettled (h.answered.acquired frame true hacquired) a
      exact lasting_of_alive hanswered (halive.same _ _) ((w.present_same frame a).dropped.trans hd)
    · cases hs
  | drop a =>
    dsimp only at hs
    split_ifs at hs with hd
    rw [Bool.not_eq_true] at hd
    cases hs
    have hover := (h.alive hd).drop hsettled a
    refine ⟨hanswered, fun hd' => ?_, fun _ => ?_⟩
    · exact absurd ((drop_dropped hsettled a).symm.trans hd') nofun
    · exact ⟨⟨⟨hover.kept.owned.perm, hover.kept.owned.numbered⟩, hover.kept.few⟩, hover.destroyed,
        hover.fencesDestroyed, hover.early⟩

theorem alive_new (drawables presentFences : Bool) : (new drawables presentFences).Alive where
  perm := by cases presentFences <;> exact .refl _
  chained := by
    cases presentFences with
    | false => exact fun _ => nofun
    | true =>
      intro fences hf e he
      cases hf
      cases he
  owned := ⟨.refl _, nofun⟩
  few := Nat.zero_le _
  known :=
    { made := rfl
      number := nofun
      complete := fun _ => Nat.le_refl _
      chains := nofun
      retired := nofun
      frames := fun _ => nofun
      presentsOf := nofun
      framesOf := nofun
      early := fun _ => rfl }
  fencesDestroyed := rfl

theorem lasting_of_run {drawables presentFences : Bool} {as : List Action}
    (h : Execution Step (new drawables presentFences) as w) : w.Lasting :=
  h.invariant (I := Lasting)
    (lasting_of_alive (answered_new _ _) (alive_new drawables presentFences) rfl)
    fun _ _ _ hl hs => hl.step hs

/-- In every run where no wait for the queue to idle fails, a swapchain is destroyed once every frame and
every present made from it is complete. In every run each is destroyed once by the end, few are kept
retired, the image held or pending is one and the current swapchain's, the fence is free as an image is
taken up to a draw that fails, and each present's fence is in one place up to its end. -/
theorem retirement {drawables presentFences : Bool} {as : List Action}
    (h : Execution Step (new drawables presentFences) as w) :
    (w.driver.idleFailed = false → w.driver.early = false) ∧
    w.driver.destroyed.Nodup ∧
    (w.dropped = true → w.driver.destroyed.Perm (List.range w.driver.swapchains)) ∧
    w.retired.length ≤ RETIRED ∧
    (w.held = none ∨ w.pending = none) ∧
    (∀ i, w.held = some i ∨ w.pending = some i →
      ∃ chain, w.chain = some chain ∧ i < chain.images.length) ∧
    (w.failed = false → w.driver.misused = false) ∧
    (w.dropped = false → w.driver.fencesDestroyed = [] ∧
      (w.fences.elim [] Fences.all).Perm (List.range w.driver.presentFences)) ∧
    (w.dropped = true → w.driver.fencesDestroyed.Perm (List.range w.driver.presentFences)) := by
  have hl := lasting_of_run h
  have hkept : w.Kept := by
    cases hd : w.dropped with
    | false => exact (hl.alive hd).toKept
    | true => exact (hl.past hd).kept
  refine ⟨fun hidle => ?_, ?_, fun hd => (hl.past hd).destroyed, hkept.few, ?_, hl.answered.image,
    fun hf => (hl.answered.ready hf).misused,
    fun hd => ⟨(hl.alive hd).fencesDestroyed, (hl.alive hd).perm⟩,
    fun hd => (hl.past hd).fencesDestroyed⟩
  · cases hd : w.dropped with
    | false => exact (hl.alive hd).known.early hidle
    | true => exact (hl.past hd).early hidle
  · exact (List.nodup_append.mp (hkept.owned.perm.nodup_iff.mpr List.nodup_range)).1
  · cases hheld : w.held with
    | none => exact .inl rfl
    | some i => exact .inr (hl.answered.apart i hheld)

/-- The answers of a driver that refuses nothing: image 0 of two. -/
def granted : AcquireAnswers where
  make := ⟨.ok ⟨(noExtent, noExtent), (1, 1), (64, 64)⟩, .ok (), some 2⟩
  settles := true
  remade := ⟨[], [], true, []⟩
  take := .ok (0, false)
  wait := .ok ()
  taken := ⟨[], [], true, []⟩
  fetches := true

/-- A frame is presented, the window is resized, and the swapchain is dropped. -/
def resized : List Action :=
  [.acquire (8, 8) granted, .encodeReady true, .present ⟨true, .ok false⟩, .acquire (9, 8) granted,
    .drop ⟨true, [true], true, []⟩]

theorem retirement_resized : ∃ w, Execution Step (new true true) resized w ∧ w.dropped = true ∧
    w.driver.early = false ∧ w.driver.destroyed = [0, 1] ∧ w.driver.fencesDestroyed = [0] := by
  have hrun : (resized.foldlM World.step (new true true)).map (fun w =>
      (w.dropped, w.driver.idleFailed, w.driver.destroyed, w.driver.fencesDestroyed)) =
        some (true, false, [0, 1], [0]) := by
    decide +kernel
  obtain ⟨w, hw, heq⟩ := Option.map_eq_some_iff.mp hrun
  simp only [Prod.mk.injEq] at heq
  obtain ⟨hdropped, hidle, hdestroyed, hfences⟩ := heq
  have hex : Execution Step (new true true) resized w := Execution.of_foldlM_option _ resized hw
  exact ⟨w, hex, hdropped, (retirement hex).1 hidle, hdestroyed, hfences⟩

/-- A frame is presented, and at the end the wait for the queue to idle fails. -/
def idleFailing : List Action :=
  [.acquire (8, 8) granted, .encodeReady true, .present ⟨true, .ok false⟩,
    .drop ⟨true, [], false, []⟩]

/-- Where a wait for the queue to idle fails every present is taken as complete all the same: the
swapchain goes while its present is not. -/
theorem not_unused_of_failed_idle :
    ¬∀ (drawables presentFences : Bool) (as : List Action) (w : World),
      Execution Step (new drawables presentFences) as w → w.driver.early = false := by
  have hrun : (idleFailing.foldlM World.step (new true false)).map (fun w => w.driver.early) =
      some true := by
    decide +kernel
  obtain ⟨w, hw, hearly⟩ := Option.map_eq_some_iff.mp hrun
  intro h
  rw [h true false idleFailing w (Execution.of_foldlM_option _ idleFailing hw)] at hearly
  cases hearly

end World

end ReimsVgpu.Swapchain
