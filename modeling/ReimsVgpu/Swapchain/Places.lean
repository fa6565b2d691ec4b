import ReimsVgpu.Swapchain.Kept

/-!
# Where each present's fence and each swapchain is

A present's fence is free or pending, in one place, and a pending one was last chained into the present
it is pending for. A swapchain is destroyed, retired or current, and few are kept retired: past their
bound a collection waits for the oldest, which is known unused then.

## Main definitions

* `World.Fenced`, `World.Owned`.
-/

namespace ReimsVgpu.Swapchain

namespace World

variable {w w' : World}

/-! ### The presents' fences -/

/-- Each present's fence is in one place. -/
structure Fenced (w : World) : Prop where
  perm : (w.fences.elim [] Fences.all).Perm (List.range w.driver.presentFences)
  chained : ∀ fences, w.fences = some fences → ∀ e ∈ fences.pending, w.driver.chained e.2 = e.1

theorem Fenced.same (h : w.Fenced) (hfences : w'.fences = w.fences)
    (hmade : w'.driver.presentFences = w.driver.presentFences)
    (hchained : w'.driver.chained = w.driver.chained) : w'.Fenced where
  perm := by
    rw [hfences, hmade]
    exact h.perm
  chained := by
    rw [hfences, hchained]
    exact h.chained

theorem Fenced.pollFences (h : w.Fenced) (statuses : List Bool) : (w.pollFences statuses).Fenced := by
  induction statuses generalizing w with
  | nil => exact h
  | cons signalled statuses ih =>
    unfold World.pollFences
    split
    · exact h
    next fences hfences =>
      split
      · exact h
      next number fence rest hpending =>
        split
        · refine ih ⟨?_, fun fences' hf e he => ?_⟩
          · have hperm := h.perm
            rw [hfences] at hperm
            refine List.Perm.trans ?_ hperm
            simp only [presentSeen, Option.elim_some, Fences.all, hpending, List.map_cons,
              List.append_assoc, List.singleton_append]
            exact .refl _
          · cases hf
            exact h.chained fences hfences e (by rw [hpending]; exact List.mem_cons_of_mem _ he)
        · exact h

theorem Fenced.waits (h : w.Fenced) (last : ℕ) (waited : List Bool) (idle : Bool) (idled : List Bool) :
    (if (w.waitFences last waited).2 then (w.waitFences last waited).1
      else (w.waitFences last waited).1.waitIdle idle idled).Fenced := by
  have hwait : (w.waitFences last waited).1.Fenced := by
    unfold waitFences
    split
    · exact h
    · exact h.pollFences waited
  split
  · exact hwait
  · generalize (w.waitFences last waited).1 = u at hwait
    have hidle : ({ u with
        presents := u.presents.idle, driver := u.driver.queueWaitIdle idle } : World).Fenced := by
      unfold Driver.queueWaitIdle
      split <;> exact ⟨hwait.perm, hwait.chained⟩
    exact hidle.pollFences idled

theorem Fenced.destroyDone (h : w.Fenced) : w.destroyDone.Fenced := by
  unfold World.destroyDone
  rw [foldl_destroy]
  exact ⟨h.perm, h.chained⟩

theorem Fenced.collect (h : w.Fenced) (a : CollectAnswers) : (w.collect a).Fenced := by
  refine Fenced.destroyDone ?_
  unfold collectWaits
  split
  · exact (h.pollFences a.polled).waits _ a.waited a.idle a.idled
  · exact h.pollFences a.polled

theorem Fenced.retire (h : w.Fenced) (settles : Bool) : (w.retire settles).1.Fenced := by
  cases hchain : w.chain with
  | none =>
    rw [retire_of_none hchain]
    exact h
  | some c =>
    obtain ⟨fence, armed, acquireFences, presents, complete, hretire⟩ := retire_eq hchain settles
    rw [hretire]
    exact ⟨h.perm, h.chained⟩

theorem Fenced.remake (h : w.Fenced) (size : ℕ × ℕ) (a : AcquireAnswers) :
    (w.remake size a).1.Fenced := by
  have hretire := h.retire a.settles
  obtain ⟨lost, swapchains, destroyed, early, hmake⟩ := (w.retire a.settles).1.make_eq size a.make
  have hcollected := Fenced.collect (w := { ((w.retire a.settles).1.make size a.make).1 with
      retired := ((w.retire a.settles).1.make size a.make).1.retired ++
        (w.retire a.settles).2.toList }) (by rw [hmake]; exact ⟨hretire.perm, hretire.chained⟩) a.remade
  unfold World.remake
  dsimp only
  split
  · exact hcollected
  · exact ⟨hcollected.perm, hcollected.chained⟩

theorem Fenced.waitFor (h : w.Fenced) (index : ℕ) (a : AcquireAnswers) :
    (w.waitFor index a).1.Fenced := by
  unfold World.waitFor
  split
  · refine Fenced.collect ?_ a.taken
    unfold hold
    obtain ⟨presents, complete, htaken⟩ := takenAgain_eq
      { w with pending := none, held := some index, driver := w.driver.resetFence w.fence } index
    rw [htaken]
    exact ⟨h.perm, h.chained⟩
  · exact ⟨h.perm, h.chained⟩
  · exact h

theorem Fenced.acquire (h : w.Fenced) {size : ℕ × ℕ} {a : AcquireAnswers} {v : World × Acquired}
    (hv : w.acquire size a = some v) : v.1.Fenced :=
  acquire_rule (I := Fenced) h (fun _ hu => hu.remake size a) (fun _ index hu => hu.waitFor index a)
    (fun _ _ _ hu => ⟨hu.perm, hu.chained⟩) hv

/-- The fence taken for a present is not pending, and the others stay where they are. -/
theorem Fenced.takeFence (h : w.Fenced) :
    w.takeFence.1.driver.chained = w.driver.chained ∧
    ((w.takeFence.2 = none ∧ w.takeFence.1 = w ∧ w.fences = none) ∨
      ∃ fence fences, w.takeFence.2 = some fence ∧ w.takeFence.1.fences = some fences ∧
        (fences.all ++ [fence]).Perm (List.range w.takeFence.1.driver.presentFences) ∧
        ∀ e ∈ fences.pending, w.driver.chained e.2 = e.1) := by
  unfold World.takeFence
  split
  next hnone => exact ⟨rfl, .inl ⟨rfl, rfl, hnone⟩⟩
  next fences hfences =>
    have hperm := h.perm
    rw [hfences] at hperm
    split
    next fence hlast =>
      refine ⟨rfl, .inr ⟨fence, _, rfl, rfl, ?_, h.chained fences hfences⟩⟩
      obtain ⟨init, hinit⟩ := List.getLast?_eq_some_iff.mp hlast
      refine List.Perm.trans ?_ hperm
      simp only [Option.elim_some, Fences.all, hinit, List.dropLast_concat, List.append_assoc]
      have hswap : (fences.pending.map (·.2) ++ [fence]).Perm ([fence] ++ fences.pending.map (·.2)) :=
        List.perm_append_comm
      exact hswap.append_left init
    next hlast =>
      refine ⟨rfl, .inr ⟨w.driver.presentFences, fences, rfl, hfences, ?_, h.chained fences hfences⟩⟩
      change (fences.all ++ [w.driver.presentFences]).Perm (List.range (w.driver.presentFences + 1))
      rw [List.range_succ]
      exact hperm.append_right _

theorem perm_presented (f : Fences) (number fence : ℕ) (result : Except VkError Bool) :
    (f.presented number fence result).all.Perm (f.all ++ [fence]) := by
  have hpending : (⟨f.free, f.pending ++ [(number, fence)]⟩ : Fences).all.Perm (f.all ++ [fence]) := by
    simp only [Fences.all, List.map_append, List.map_cons, List.map_nil, List.append_assoc]
    exact .refl _
  have hfree : (⟨f.free ++ [fence], f.pending⟩ : Fences).all.Perm (f.all ++ [fence]) := by
    simp only [Fences.all, List.append_assoc]
    exact List.perm_append_comm.append_left f.free
  unfold Fences.presented
  split
  · exact hpending
  · exact hpending
  · exact hpending
  · exact hpending
  · exact hfree

/-- A fence that is pending was, or is the present's. -/
theorem mem_pending_presented {f : Fences} {number fence : ℕ} {result : Except VkError Bool} {e : ℕ × ℕ}
    (he : e ∈ (f.presented number fence result).pending) : e ∈ f.pending ∨ e = (number, fence) := by
  have hpending : e ∈ f.pending ++ [(number, fence)] → e ∈ f.pending ∨ e = (number, fence) := fun he =>
    (List.mem_append.mp he).imp_right List.mem_singleton.mp
  unfold Fences.presented at he
  split at he
  · exact hpending he
  · exact hpending he
  · exact hpending he
  · exact hpending he
  · exact .inl he

theorem Fenced.queuePresent (h : w.Fenced) (c : Chain) (frame : Frame) (committed : ℕ)
    (result : Except VkError Bool) (hnumber : w.presents.made = w.driver.presents.length) :
    (w.queuePresent c frame committed result).Fenced := by
  obtain ⟨fences, presentFences, htaken⟩ := w.takeFence_eq
  obtain ⟨hchained, htake⟩ := h.takeFence
  unfold World.queuePresent
  dsimp only
  rcases htake with ⟨hnone, hsame, hw⟩ | ⟨fence, fences', hfence, hfences, hperm, hpending⟩
  · rw [hnone, hsame, hw]
    have hperm := h.perm
    rw [hw] at hperm
    exact ⟨hperm, fun _ => nofun⟩
  · rw [hfence, hfences]
    dsimp only
    refine ⟨(perm_presented fences' _ fence result).trans hperm, fun f hf e he => ?_⟩
    cases hf
    have hlength : w.takeFence.1.driver.presents.length = w.driver.presents.length := by rw [htaken]
    have hmade : w.takeFence.1.presents.made = w.presents.made := by rw [htaken]
    change Function.update w.takeFence.1.driver.chained fence _ e.2 = e.1
    rcases mem_pending_presented he with he | rfl
    · have hne : e.2 ≠ fence := by
        intro heq
        have hnodup : (fences'.all ++ [fence]).Nodup := hperm.nodup_iff.mpr List.nodup_range
        refine (List.nodup_append.mp hnodup).2.2 e.2 ?_ fence (List.mem_singleton_self _) heq
        exact List.mem_append_right _ (List.mem_map_of_mem he)
      rw [Function.update_of_ne hne, hchained]
      exact hpending e he
    · rw [Function.update_self, hlength, ← hnumber, ← hmade]
      rfl

theorem Fenced.present (h : w.Fenced) (frame : Frame) (a : PresentAnswers)
    (hnumber : w.presents.made = w.driver.presents.length) : (w.present frame a).Fenced := by
  have hcommit : ({ w with held := none } : World).commitFrame frame |>.Fenced := by
    unfold commitFrame
    split
    · exact ⟨h.perm, h.chained⟩
    · split <;> exact ⟨h.perm, h.chained⟩
  have hnumber' : (({ w with held := none } : World).commitFrame frame).presents.made =
      (({ w with held := none } : World).commitFrame frame).driver.presents.length := by
    unfold commitFrame
    split
    · exact hnumber
    · split <;> exact hnumber
  unfold World.present
  dsimp only
  split
  · split
    · exact hcommit
    · split
      · exact hcommit.queuePresent _ frame _ a.result hnumber'
      · exact hcommit
  · exact ⟨hcommit.perm, hcommit.chained⟩

/-! ### Swapchains -/

/-- A poll does not forget a present that is known complete. -/
theorem le_pollFences (w : World) (statuses : List Bool) :
    w.presents.complete ≤ (w.pollFences statuses).presents.complete := by
  induction statuses generalizing w with
  | nil => exact Nat.le_refl _
  | cons signalled statuses ih =>
    unfold World.pollFences
    split
    · exact Nat.le_refl _
    next fences _ =>
      split
      · exact Nat.le_refl _
      next number fence rest _ =>
        split
        · exact Nat.le_trans (Nat.le_max_left _ number) (ih (w.presentSeen fences number fence rest))
        · exact Nat.le_refl _

/-- A present that was waited for, or else the queue idle, is known complete. -/
theorem waits_done {last : ℕ} (hlast : last ≤ w.presents.made) (waited : List Bool) (idle : Bool)
    (idled : List Bool) :
    (if (w.waitFences last waited).2 then (w.waitFences last waited).1
      else (w.waitFences last waited).1.waitIdle idle idled).presents.done last = true := by
  have hmade : (w.waitFences last waited).1.presents.made = w.presents.made := by
    unfold waitFences
    split
    · rfl
    · obtain ⟨known, fences, complete, hpoll⟩ := w.pollFences_eq waited
      rw [hpoll]
  have hdone : (w.waitFences last waited).2 = (w.waitFences last waited).1.presents.done last := by
    unfold waitFences
    split <;> rfl
  split
  next hknown => rw [← hdone, hknown]
  · rw [← hmade] at hlast
    exact decide_eq_true (Nat.le_trans hlast (le_pollFences
      { (w.waitFences last waited).1 with
        presents := (w.waitFences last waited).1.presents.idle
        driver := (w.waitFences last waited).1.driver.queueWaitIdle idle } idled))

/-- The swapchains that are alive, `chains` beside the retired ones, and those destroyed are all that
were made, each once; and their presents were made. -/
structure Owned (w : World) (chains : List Chain) : Prop where
  perm : (w.driver.destroyed ++ (w.retired ++ chains).map (·.raw)).Perm (List.range w.driver.swapchains)
  numbered : ∀ c ∈ w.retired ++ chains, c.lastPresent ≤ w.presents.made

theorem Owned.same {chains chains' : List Chain} (h : w.Owned chains)
    (hdestroyed : w'.driver.destroyed = w.driver.destroyed) (hretired : w'.retired = w.retired)
    (hswapchains : w'.driver.swapchains = w.driver.swapchains)
    (hmade : w'.presents.made = w.presents.made)
    (hchains : chains'.map (fun c => (c.raw, c.lastPresent)) = chains.map fun c => (c.raw, c.lastPresent)) :
    w'.Owned chains' := by
  have hraw : chains'.map (·.raw) = chains.map (·.raw) := by
    have hfst := congrArg (List.map Prod.fst) hchains
    rw [List.map_map, List.map_map] at hfst
    exact hfst
  refine ⟨?_, fun c hc => ?_⟩
  · rw [hdestroyed, hretired, hswapchains, List.map_append, hraw, ← List.map_append]
    exact h.perm
  · rw [hretired] at hc
    rw [hmade]
    rcases List.mem_append.mp hc with hc | hc
    · exact h.numbered c (List.mem_append_left _ hc)
    · have hmem := List.mem_map_of_mem (f := fun c : Chain => (c.raw, c.lastPresent)) hc
      rw [hchains] at hmem
      obtain ⟨c', hc', heq⟩ := List.mem_map.mp hmem
      rw [← (Prod.mk.inj heq).2]
      exact h.numbered c' (List.mem_append_right _ hc')

/-- The swapchains that are known unused are destroyed. -/
theorem Owned.destroyDone {chains : List Chain} (h : w.Owned chains) : w.destroyDone.Owned chains := by
  unfold World.destroyDone
  rw [foldl_destroy]
  refine ⟨?_, fun c hc => ?_⟩
  · refine List.Perm.trans ?_ h.perm
    dsimp only
    rw [List.append_assoc, ← List.map_append, ← List.append_assoc]
    refine (List.Perm.map _ ?_).append_left w.driver.destroyed
    exact (List.filter_append_perm (fun c => w.presents.done c.lastPresent) w.retired).append_right chains
  · dsimp only at hc ⊢
    refine h.numbered c ?_
    rcases List.mem_append.mp hc with hc | hc
    · exact List.mem_append_left _ (List.mem_of_mem_filter hc)
    · exact List.mem_append_right _ hc

/-- The waits of a collection leave the swapchains, and where too many are retired the oldest is known
unused. -/
theorem collectWaits_spec {chains : List Chain} (h : w.Owned chains) (a : CollectAnswers) :
    (w.collectWaits a).Owned chains ∧ (w.collectWaits a).retired = w.retired ∧
      (RETIRED < w.retired.length → ∀ c, w.retired.head? = some c →
        (w.collectWaits a).presents.done c.lastPresent = true) := by
  unfold collectWaits
  split
  next hmany =>
    obtain ⟨known, fences, complete, idleFailed, hwaits⟩ := waits_eq w
      (w.retired.head?.elim 0 Chain.lastPresent) a.waited a.idle a.idled
    dsimp only
    refine ⟨?_, ?_, fun _ c hc => ?_⟩
    · rw [hwaits]
      exact ⟨h.perm, h.numbered⟩
    · rw [hwaits]
    · rw [hc]
      refine waits_done (h.numbered c (List.mem_append_left _ ?_)) a.waited a.idle a.idled
      exact List.mem_of_mem_head? hc
  next hfew => exact ⟨h, rfl, fun hmany => absurd hmany hfew⟩

/-- A collection keeps no more retired swapchains than it may. -/
theorem Owned.collect {chains : List Chain} (h : w.Owned chains)
    (hlength : w.retired.length ≤ RETIRED + 1) (a : CollectAnswers) :
    (w.collect a).Owned chains ∧ (w.collect a).retired.length ≤ RETIRED := by
  have hpolled : (w.pollFences a.polled).Owned chains ∧ (w.pollFences a.polled).retired = w.retired := by
    obtain ⟨known, fences, complete, hpoll⟩ := w.pollFences_eq a.polled
    rw [hpoll]
    exact ⟨⟨h.perm, h.numbered⟩, rfl⟩
  obtain ⟨howned, hretired⟩ := hpolled
  obtain ⟨howned', hretired', hdone⟩ := collectWaits_spec howned a
  refine ⟨howned'.destroyDone, ?_⟩
  unfold World.collect
  unfold World.destroyDone
  rw [foldl_destroy]
  dsimp only
  rw [hretired'] at *
  rw [hretired] at *
  generalize ((w.pollFences a.polled).collectWaits a).presents = p at hdone
  by_cases hmany : RETIRED < w.retired.length
  · cases hw : w.retired with
    | nil =>
      rw [hw] at hmany
      cases hmany
    | cons oldest rest =>
      rw [hw] at hlength
      have hknown := hdone hmany oldest (by rw [hw]; rfl)
      rw [List.filter_cons_of_neg (by rw [hknown]; decide)]
      exact Nat.le_trans (List.length_filter_le _ _) (Nat.le_of_succ_le_succ hlength)
  · exact Nat.le_trans (List.length_filter_le _ _) (Nat.le_of_not_lt hmany)

theorem foldr_max_le {l : List ℕ} {n : ℕ} : l.foldr max 0 ≤ n ↔ ∀ m ∈ l, m ≤ n := by
  induction l with
  | nil => simp
  | cons m l ih => simp only [List.foldr_cons, Nat.max_le, ih, List.forall_mem_cons]

theorem lastPresent_le {c : Chain} {n : ℕ} :
    c.lastPresent ≤ n ↔ ∀ image ∈ c.images, image.presented ≤ n := by
  unfold Chain.lastPresent
  rw [foldr_max_le]
  exact List.forall_mem_map

/-- The frames that are waited for tell nothing of a swapchain's presents. -/
theorem lastPresent_waited (c : Chain) :
    ({ c with images := c.images.map fun image => { image with last := none } } : Chain).lastPresent =
      c.lastPresent := by
  unfold Chain.lastPresent
  rw [List.map_map]
  rfl

/-- The retired swapchain is the one that was current. -/
theorem Owned.retire (h : w.Owned w.chain.toList) (settles : Bool) :
    (w.retire settles).1.Owned (w.retire settles).2.toList ∧
      (w.retire settles).1.retired = w.retired ∧ (w.retire settles).2.toList.length ≤ 1 := by
  cases hchain : w.chain with
  | none =>
    rw [hchain] at h
    rw [retire_of_none hchain]
    exact ⟨h, rfl, Nat.zero_le _⟩
  | some c =>
    rw [hchain] at h
    obtain ⟨fence, armed, acquireFences, known, complete, hretire⟩ := retire_eq hchain settles
    rw [hretire]
    refine ⟨h.same rfl rfl rfl rfl ?_, rfl, Nat.le_refl _⟩
    simp only [Option.toList_some, List.map_cons, List.map_nil, lastPresent_waited]

/-- A swapchain that is made is alive, or destroyed at once where its images are not wrapped. -/
theorem Owned.make {chains : List Chain} (h : w.Owned chains) (size : ℕ × ℕ) (a : MakeAnswers) :
    (w.make size a).1.Owned (chains ++ (w.make size a).2.toList) := by
  have hrange : ∀ l : List ℕ, l.Perm (List.range w.driver.swapchains) →
      (l ++ [w.driver.swapchains]).Perm (List.range (w.driver.swapchains + 1)) := fun l hl => by
    rw [List.range_succ]
    exact hl.append_right _
  have hnone : ∀ {v : World}, v.driver = w.driver → v.retired = w.retired → v.presents = w.presents →
      v.Owned (chains ++ (none : Option Chain).toList) := fun {v} hd hr hp => by
    rw [Option.toList_none, List.append_nil]
    exact h.same (by rw [hd]) hr (by rw [hd]) (by rw [hp]) rfl
  unfold World.make refusedBy
  split
  · exact hnone rfl rfl rfl
  · split
    · exact hnone rfl rfl rfl
    · exact hnone rfl rfl rfl
    · split
      · rw [Option.toList_none, List.append_nil]
        refine ⟨?_, h.numbered⟩
        refine List.Perm.trans ?_ (hrange _ h.perm)
        simp only [Driver.createSwapchain, Driver.destroySwapchain, List.append_assoc]
        exact List.perm_append_comm.append_left w.driver.destroyed
      · rw [Option.toList_some]
        refine ⟨?_, fun c hc => ?_⟩
        · refine List.Perm.trans ?_ (hrange _ h.perm)
          simp only [Driver.createSwapchain, List.map_append, List.append_assoc, List.map_cons,
            List.map_nil]
          exact .refl _
        · rw [← List.append_assoc] at hc
          rcases List.mem_append.mp hc with hc | hc
          · exact h.numbered c hc
          · rw [List.mem_singleton.mp hc]
            refine lastPresent_le.mpr fun image himage => ?_
            rw [List.eq_of_mem_replicate himage]
            exact Nat.zero_le _

/-- What is kept of the swapchains between two calls. -/
structure Kept (w : World) : Prop where
  owned : w.Owned w.chain.toList
  few : w.retired.length ≤ RETIRED

theorem Kept.remake (h : w.Kept) (size : ℕ × ℕ) (a : AcquireAnswers) : (w.remake size a).1.Kept := by
  obtain ⟨hretire, hretired, hone⟩ := h.owned.retire a.settles
  have hmake := hretire.make size a.make
  obtain ⟨lost, swapchains, destroyed, early, heq⟩ := (w.retire a.settles).1.make_eq size a.make
  have hcurrent : { ((w.retire a.settles).1.make size a.make).1 with
      retired := ((w.retire a.settles).1.make size a.make).1.retired ++
        (w.retire a.settles).2.toList }.Owned ((w.retire a.settles).1.make size a.make).2.toList := by
    refine ⟨?_, fun c hc => ?_⟩
    · dsimp only
      rw [List.append_assoc]
      exact hmake.perm
    · dsimp only at hc
      rw [List.append_assoc] at hc
      exact hmake.numbered c hc
  have hfew : (((w.retire a.settles).1.make size a.make).1.retired ++
      (w.retire a.settles).2.toList).length ≤ RETIRED + 1 := by
    have hkept : ((w.retire a.settles).1.make size a.make).1.retired = w.retired := by
      rw [heq]
      exact hretired
    rw [List.length_append, hkept]
    exact Nat.add_le_add h.few hone
  have hcollected := hcurrent.collect hfew a.remade
  have hchain : (World.collect { ((w.retire a.settles).1.make size a.make).1 with
      retired := ((w.retire a.settles).1.make size a.make).1.retired ++
        (w.retire a.settles).2.toList } a.remade).chain = none := by
    rw [(collectSame _ a.remade).chain]
    dsimp only
    rw [heq]
    cases hw : w.chain with
    | none =>
      rw [retire_of_none hw]
      exact hw
    | some c =>
      obtain ⟨fence, armed, acquireFences, known, complete, hr⟩ := retire_eq hw a.settles
      rw [hr]
  unfold World.remake
  dsimp only
  split
  next hnone =>
    rw [hnone] at hcollected
    refine ⟨?_, hcollected.2⟩
    rw [hchain]
    exact hcollected.1
  next c hsome =>
    rw [hsome] at hcollected
    exact ⟨⟨hcollected.1.perm, hcollected.1.numbered⟩, hcollected.2⟩

theorem Kept.waitFor (h : w.Kept) (index : ℕ) (a : AcquireAnswers) : (w.waitFor index a).1.Kept := by
  unfold World.waitFor
  split
  · have hheld : (w.hold index).Owned (w.hold index).chain.toList ∧ (w.hold index).retired = w.retired := by
      obtain ⟨known, complete, htaken⟩ := takenAgain_eq
        { w with pending := none, held := some index, driver := w.driver.resetFence w.fence } index
      unfold hold
      rw [htaken]
      exact ⟨⟨h.owned.perm, h.owned.numbered⟩, rfl⟩
    have hcollected := hheld.1.collect (by rw [hheld.2]; exact Nat.le_succ_of_le h.few) a.taken
    refine ⟨?_, hcollected.2⟩
    rw [(collectSame _ a.taken).chain]
    exact hcollected.1
  · exact ⟨⟨h.owned.perm, h.owned.numbered⟩, h.few⟩
  · exact h

theorem Kept.acquire (h : w.Kept) {size : ℕ × ℕ} {a : AcquireAnswers} {v : World × Acquired}
    (hv : w.acquire size a = some v) : v.1.Kept :=
  acquire_rule (I := Kept) h (fun _ hu => hu.remake size a) (fun _ index hu => hu.waitFor index a)
    (fun _ _ _ hu => ⟨⟨hu.owned.perm, hu.owned.numbered⟩, hu.few⟩) hv

/-- A present's number is its image's last. -/
theorem Kept.present (h : w.Kept) (frame : Frame) (a : PresentAnswers) : (w.present frame a).Kept := by
  have hset : ∀ {v v' : World} {c : Chain} {m : Image}, v.Kept → v.chain = some c →
      v.presents.made ≤ v'.presents.made → m.presented ≤ v'.presents.made →
      v'.driver.destroyed = v.driver.destroyed → v'.driver.swapchains = v.driver.swapchains →
      v'.retired = v.retired →
      v'.chain = some { c with images := c.images.set frame.index m } → v'.Kept := by
    intro v v' c m hv hc hmade himage hdestroyed hswapchains hretired hc'
    have hperm := hv.owned.perm
    rw [hc] at hperm
    refine ⟨⟨?_, fun c' hmem => ?_⟩, ?_⟩
    · rw [hdestroyed, hswapchains, hretired, hc']
      simpa using hperm
    · rw [hretired, hc'] at hmem
      rcases List.mem_append.mp hmem with hmem | hmem
      · exact Nat.le_trans (hv.owned.numbered c' (List.mem_append_left _ hmem)) hmade
      · rw [List.mem_singleton.mp hmem]
        have hnumbered := hv.owned.numbered c (by rw [hc]; exact List.mem_append_right _ List.mem_cons_self)
        refine lastPresent_le.mpr fun i hi => ?_
        rcases List.mem_or_eq_of_mem_set hi with hi | rfl
        · exact Nat.le_trans (lastPresent_le.mp hnumbered i hi) hmade
        · exact himage
    · rw [hretired]
      exact hv.few
  have hcommit : (({ w with held := none } : World).commitFrame frame).Kept := by
    unfold commitFrame
    split
    · exact ⟨⟨h.owned.perm, h.owned.numbered⟩, h.few⟩
    next c hc =>
      split
      · exact ⟨⟨h.owned.perm, h.owned.numbered⟩, h.few⟩
      next image himage =>
        refine hset (m := { image with last := _ }) h hc (Nat.le_refl _) ?_ rfl rfl rfl rfl
        have hc' : w.chain = some c := hc
        have hnumbered := h.owned.numbered c (by
          rw [hc']
          exact List.mem_append_right _ List.mem_cons_self)
        exact lastPresent_le.mp hnumbered image (List.mem_of_getElem? himage)
  unfold World.present
  dsimp only
  generalize ({ w with held := none } : World).commitFrame frame = u at hcommit
  split
  · split
    · exact hcommit
    next c hc =>
      split
      · obtain ⟨fences, presentFences, htake⟩ := u.takeFence_eq
        unfold World.queuePresent
        dsimp only
        rw [htake]
        exact hset (m := ⟨some _, _⟩) hcommit hc (Nat.le_succ _) (Nat.le_refl _) rfl rfl rfl rfl
      · exact hcommit
  · exact ⟨⟨hcommit.owned.perm, hcommit.owned.numbered⟩, hcommit.few⟩

/-- At the end every swapchain is destroyed. -/
theorem drop_places (h : w.Kept) (hsettled : w.Settled) (a : DropAnswers) :
    (w.drop a).Kept ∧ (w.drop a).driver.destroyed.Perm (List.range (w.drop a).driver.swapchains) := by
  obtain ⟨hretire, -, -⟩ := h.owned.retire a.settles
  obtain ⟨-, hchain, -⟩ := retire_settled hsettled a.settles
  obtain ⟨known, fences, complete, idleFailed, hwaits⟩ := (w.retiredLast a.settles).dropWaits_eq a
  have hperm : (w.drop a).driver.destroyed.Perm (List.range (w.drop a).driver.swapchains) := by
    rw [drop_eq hsettled, hwaits, destroyAll_eq]
    exact hretire.perm
  have hretired : (w.drop a).retired = [] := by
    rw [drop_eq hsettled, destroyAll_eq]
  have hnone : (w.drop a).chain = none := by
    rw [drop_eq hsettled, hwaits, destroyAll_eq]
    exact hchain
  refine ⟨⟨⟨?_, ?_⟩, ?_⟩, hperm⟩
  · rw [hretired, hnone]
    simpa using hperm
  · rw [hretired, hnone]
    nofun
  · rw [hretired]
    exact Nat.zero_le _

/-- At the end every present's fence is destroyed. -/
theorem Fenced.drop (h : w.Fenced) (hsettled : w.Settled) (hnone : w.driver.fencesDestroyed = [])
    (a : DropAnswers) : (w.drop a).driver.fencesDestroyed.Perm
      (List.range (w.drop a).driver.presentFences) := by
  have hretired : (w.retiredLast a.settles).Fenced := (h.retire a.settles).same rfl rfl rfl
  have hwaits : ((w.retiredLast a.settles).dropWaits a).Fenced := by
    unfold dropWaits
    split
    · exact hretired
    · exact hretired.waits _ a.waited a.idle a.idled
  have hdestroyed : ((w.retiredLast a.settles).dropWaits a).driver.fencesDestroyed = [] := by
    obtain ⟨known, fences, complete, idleFailed, heq⟩ := (w.retiredLast a.settles).dropWaits_eq a
    rw [heq]
    exact (w.retire_same a.settles).fencesDestroyed.trans hnone
  rw [drop_eq hsettled, destroyAll_eq]
  dsimp only
  rw [hdestroyed]
  exact hwaits.perm

end World

end ReimsVgpu.Swapchain
