import ReimsVgpu.Gpu.Watch

/-!
# What the registry lists, over every interleaving

The registry's lock stays with one thread over its check. The count of the textures kept apart is
never below their number, nor 0 while one is placed, so a use that finds it 0 has nothing to check.
Dead textures are let go at different moments, and no living one is; an object whose uses a check must
read is listed before it has any.

## Main definitions

* `World.Locked`, `World.Counted`, `World.Registered`, `World.Listed`.

## Main results

* `World.Locked.step`, `World.Counted.step`, `World.Registered.step`, `World.Listed.step`: every step
  keeps them.
-/

namespace ReimsVgpu.Gpu.OverPages

open Spans (points)

namespace World

variable {τ ο θ : Type*} {w w' : World τ ο θ} {act : Action τ ο θ}

/-! ### The lock -/

/-- The thread that holds the registry's lock is the one in a section under it; the dead are let go
before the checks of uses and changes of pages alone. -/
structure Locked (w : World τ ο θ) : Prop where
  iff : ∀ t, (w.phase t).locks = true ↔ w.holder = some t
  pruned : ∀ t p, (w.phase t).prunes = some p → (∃ c, p = .used c) ∨ ∃ o, p = .moved o

theorem Locked.eq_of_locks (h : w.Locked) {s t : τ} (hs : (w.phase s).locks = true)
    (ht : (w.phase t).locks = true) : s = t :=
  Option.some_inj.mp (((h.iff s).mp hs).symm.trans ((h.iff t).mp ht))

theorem locks_of_placing {p : Phase ο θ} {a : Apart ο θ} (h : p.placing = some a) :
    p.locks = true := by
  cases p <;> first | rfl | exact absurd h (Option.some_ne_none a).symm

theorem locks_of_making {p : Phase ο θ} {x : Other ο θ} (h : p.making = some x) :
    p.locks = true := by
  cases p <;> first | rfl | exact absurd h (Option.some_ne_none x).symm

section

variable [DecidableEq τ]

theorem Locked.stay (h : w.Locked) {t : τ} {p : Phase ο θ} (hl : p.locks = (w.phase t).locks)
    (hp : p.prunes = none) (hw : w'.phase = Function.update w.phase t p)
    (hh : w'.holder = w.holder) : w'.Locked := by
  refine ⟨fun s => ?_, fun s q hq => ?_⟩
  · rw [hw, hh, ← h.iff s]
    rcases eq_or_ne s t with rfl | hne
    · rw [Function.update_self, hl]
    · rw [Function.update_of_ne hne]
  · rw [hw] at hq
    rcases eq_or_ne s t with rfl | hne
    · rw [Function.update_self] at hq
      exact absurd (hp.symm.trans hq) (Option.some_ne_none q).symm
    · rw [Function.update_of_ne hne] at hq
      exact h.pruned s q hq

theorem Locked.acquire (h : w.Locked) {t : τ} {p : Phase ο θ} (hh : w.holder = none)
    (hl : p.locks = true)
    (hp : ∀ q, p.prunes = some q → (∃ c, q = .used c) ∨ ∃ o, q = .moved o)
    (hw : w'.phase = Function.update w.phase t p) (hh' : w'.holder = some t) : w'.Locked := by
  refine ⟨fun s => ?_, fun s q hq => ?_⟩
  · rw [hw, hh']
    rcases eq_or_ne s t with rfl | hne
    · rw [Function.update_self]
      exact iff_of_true hl rfl
    · rw [Function.update_of_ne hne, h.iff s, hh]
      exact iff_of_false (Option.some_ne_none s).symm fun hst => hne (Option.some_inj.mp hst).symm
  · rw [hw] at hq
    rcases eq_or_ne s t with rfl | hne
    · rw [Function.update_self] at hq
      exact hp q hq
    · rw [Function.update_of_ne hne] at hq
      exact h.pruned s q hq

theorem Locked.release (h : w.Locked) {t : τ} {p : Phase ο θ} (ht : (w.phase t).locks = true)
    (hl : p.locks = false) (hw : w'.phase = Function.update w.phase t p)
    (hh' : w'.holder = none) : w'.Locked := by
  have hhold := (h.iff t).mp ht
  have hnot : p.prunes = none := by
    cases p <;> first | rfl | exact Bool.noConfusion hl
  refine ⟨fun s => ?_, fun s q hq => ?_⟩
  · rw [hw, hh']
    refine iff_of_false (fun hs => ?_) (Option.some_ne_none s).symm
    rcases eq_or_ne s t with rfl | hne
    · rw [Function.update_self, hl] at hs
      exact Bool.noConfusion hs
    · rw [Function.update_of_ne hne, h.iff s, hhold] at hs
      exact hne (Option.some_inj.mp hs).symm
  · rw [hw] at hq
    rcases eq_or_ne s t with rfl | hne
    · rw [Function.update_self] at hq
      exact absurd (hnot.symm.trans hq) (Option.some_ne_none q).symm
    · rw [Function.update_of_ne hne] at hq
      exact h.pruned s q hq

end

/-- Every step keeps the lock. -/
theorem Locked.step [DecidableEq τ] [DecidableEq ο] [DecidableEq θ] (h : w.Locked)
    (hs : Step w act w') : w'.Locked := by
  cases hs with
  | used _ ht | recalled ht | choose ht | skip ht | go ht | readNone ht | read ht | readKept ht
  | listed ht | list ht | held ht | keep ht | stamp ht | unwatched ht | watched ht | probe ht
  | clash ht | job ht | jobDead ht | pruned ht | returned ht | setPages _ _ ht | forgot ht
  | zero _ ht | zeroed ht =>
    exact h.stay (by rw [ht]; rfl) rfl rfl rfl
  | lockUsed ht hh =>
    refine h.acquire hh rfl ?_ rfl rfl
    rintro q ⟨⟩
    exact .inl ⟨_, rfl⟩
  | lockMoved ht hh =>
    refine h.acquire hh rfl ?_ rfl rfl
    rintro q ⟨⟩
    exact .inr ⟨_, rfl⟩
  | apart _ ht _ hh | other _ ht _ hh =>
    exact h.acquire hh rfl (by intro q hq; cases hq) rfl rfl
  | placed ht | made ht | passed ht | moved ht | failedApart ht | failed ht =>
    exact h.release (by rw [ht]; rfl) rfl rfl rfl
  | forgetUses _ ht | drop _ | release _ _ => exact ⟨h.iff, h.pruned⟩

/-! ### The count -/

/-- The count is at least the number of the textures kept apart, and not 0 while one is placed. -/
structure Counted (w : World τ ο θ) : Prop where
  le : w.registry.apart.length ≤ w.count
  pos : ∀ t a, (w.phase t).placing = some a → 0 < w.count

theorem Counted.stay [DecidableEq τ] (h : w.Counted) {t : τ} {p : Phase ο θ}
    (hp : p.placing = none ∨ p.placing = (w.phase t).placing)
    (hw : w'.phase = Function.update w.phase t p)
    (hr : w'.registry.apart.length ≤ w.registry.apart.length) (hc : w'.count = w.count) :
    w'.Counted := by
  refine ⟨hc ▸ hr.trans h.le, fun s a ha => ?_⟩
  rw [hw] at ha
  rw [hc]
  rcases eq_or_ne s t with rfl | hne
  · rw [Function.update_self] at ha
    rcases hp with hp | hp
    · exact absurd (hp.symm.trans ha) (Option.some_ne_none a).symm
    · exact h.pos s a (hp.symm.trans ha)
  · rw [Function.update_of_ne hne] at ha
    exact h.pos s a ha

/-- The thread that holds the lock stores the number of the textures kept apart. -/
theorem Counted.store [DecidableEq τ] (hl : w.Locked) {t : τ} {p : Phase ο θ}
    (ht : (w.phase t).locks = true) (hp : p.placing = none)
    (hw : w'.phase = Function.update w.phase t p) (hr : w'.registry.apart.length ≤ w'.count) :
    w'.Counted := by
  refine ⟨hr, fun s a ha => ?_⟩
  rw [hw] at ha
  rcases eq_or_ne s t with rfl | hne
  · rw [Function.update_self, hp] at ha
    exact absurd ha (Option.some_ne_none a).symm
  · rw [Function.update_of_ne hne] at ha
    exact absurd (hl.eq_of_locks (locks_of_placing ha) ht) hne

theorem apart_keep (r : Registry ο θ) (alive : θ → Bool) (other : Other ο θ) :
    (r.keep alive other).apart = r.apart := by
  rw [Registry.keep]
  split_ifs <;> rfl

theorem apart_list (r : Registry ο θ) (lives : ο → Bool) (user : ο) :
    (r.list lives user).apart = r.apart := by
  rw [Registry.list]
  split_ifs <;> rfl

/-- Every step keeps the count. -/
theorem Counted.step [DecidableEq τ] [DecidableEq ο] [DecidableEq θ] (h : w.Counted)
    (hl : w.Locked) (hs : Step w act w') : w'.Counted := by
  have hprune : (w.registry.prune w.alive).apart.length ≤ w.registry.apart.length :=
    List.length_filter_le _ _
  cases hs with
  | used _ ht | recalled ht | choose ht | skip ht | go ht | readNone ht | read ht | readKept ht
  | listed ht | held ht | keep ht | stamp ht | unwatched ht | watched ht | clash ht
  | moved ht | returned ht | setPages _ _ ht | forgot ht | zero _ ht | zeroed ht =>
    exact h.stay (.inl rfl) rfl le_rfl rfl
  | passed ht | failed ht => exact h.stay (.inl rfl) rfl le_rfl rfl
  | probe ht | job ht | jobDead ht =>
    exact h.stay (.inr (by rw [ht]; rfl)) rfl le_rfl rfl
  | list ht => exact h.stay (.inl rfl) rfl (by rw [apart_list]) rfl
  | lockUsed ht | lockMoved ht => exact h.stay (.inl rfl) rfl hprune rfl
  | @pruned t p changed ht =>
    refine .store hl (by rw [ht]; rfl) ?_ rfl ?_
    · rcases hl.pruned t p (by rw [ht]; rfl) with ⟨c, rfl⟩ | ⟨o, rfl⟩ <;> rfl
    · cases changed
      · exact h.le
      · exact le_rfl
  | apart a ht =>
    exact ⟨(hprune.trans h.le).trans (Nat.le_succ _), fun _ _ _ => Nat.succ_pos _⟩
  | other x ht => exact h.stay (.inl rfl) rfl le_rfl rfl
  | placed ht => exact .store hl (by rw [ht]; rfl) rfl rfl le_rfl
  | made ht =>
    exact h.stay (.inl rfl) rfl (by rw [apart_keep]) rfl
  | failedApart ht => exact .store hl (by rw [ht]; rfl) rfl rfl le_rfl
  | forgetUses _ ht | drop _ | release _ _ => exact ⟨h.le, h.pos⟩

/-! ### The textures -/

/-- The registry lists every texture placed or made without a clash that lives. -/
structure Registered (w : World τ ο θ) : Prop where
  placed : ∀ a ∈ w.placed, w.alive a.texture = true → a ∈ w.registry.apart
  made : ∀ x ∈ w.made, w.alive x.texture = true → x ∈ w.registry.others

theorem Registered.prune (h : w.Registered) (hw : w'.registry = w.registry.prune w.alive)
    (ha : w'.alive = w.alive) (hp : w'.placed = w.placed) (hm : w'.made = w.made) :
    w'.Registered := by
  refine ⟨fun a hmem hl => ?_, fun x hmem hl => ?_⟩
  · rw [ha] at hl
    rw [hw]
    exact List.mem_filter.mpr ⟨h.placed a (hp ▸ hmem) hl, hl⟩
  · rw [hw]
    exact h.made x (hm ▸ hmem) (ha ▸ hl)

theorem mem_others_keep {r : Registry ο θ} {alive : θ → Bool} {other x : Other ο θ} :
    x ∈ (r.keep alive other).others → x ∈ r.others ∨ x = other := by
  rw [Registry.keep]
  split_ifs
  · intro hx
    rcases List.mem_append.mp hx with hx | hx
    · exact .inl (List.mem_filter.mp hx).1
    · exact .inr (List.mem_singleton.mp hx)
  · intro hx
    rcases List.mem_append.mp hx with hx | hx
    · exact .inl hx
    · exact .inr (List.mem_singleton.mp hx)

theorem mem_others_keep_of_alive {r : Registry ο θ} {alive : θ → Bool} {other x : Other ο θ}
    (hx : x ∈ r.others ∨ x = other) (hl : alive x.texture = true) :
    x ∈ (r.keep alive other).others := by
  rw [Registry.keep]
  split_ifs
  · refine List.mem_append.mpr (hx.imp (fun hx => ?_) fun hx => List.mem_singleton.mpr hx)
    exact List.mem_filter.mpr ⟨hx, hl⟩
  · exact List.mem_append.mpr (hx.imp_right fun hx => List.mem_singleton.mpr hx)

theorem others_list (r : Registry ο θ) (lives : ο → Bool) (user : ο) :
    (r.list lives user).others = r.others := by
  rw [Registry.list]
  split_ifs <;> rfl

/-- What lives now lived before. -/
theorem of_update_false {ι : Type*} [DecidableEq ι] {f : ι → Bool} {i j : ι}
    (h : Function.update f i false j = true) : f j = true := by
  rcases eq_or_ne j i with rfl | hne
  · rw [Function.update_self] at h
    exact Bool.noConfusion h
  · rwa [Function.update_of_ne hne] at h

/-- Every step keeps the textures listed. -/
theorem Registered.step [DecidableEq τ] [DecidableEq ο] [DecidableEq θ] (h : w.Registered)
    (hs : Step w act w') : w'.Registered := by
  cases hs with
  | used | recalled | choose | skip | go | readNone | read | readKept | listed | held | keep | stamp
  | unwatched | watched | pruned | other | probe | clash | job | jobDead | passed | moved
  | failedApart | failed | returned | setPages | forgot | forgetUses | zero | zeroed | release =>
    exact ⟨h.placed, h.made⟩
  | list =>
    refine ⟨fun a ha hl => ?_, fun x hx hl => ?_⟩
    · rw [apart_list]
      exact h.placed a ha hl
    · rw [others_list]
      exact h.made x hx hl
  | lockUsed | lockMoved | apart => exact h.prune rfl rfl rfl rfl
  | @placed t a =>
    refine ⟨fun b hb hl => ?_, h.made⟩
    rcases List.mem_append.mp hb with hb | hb
    · exact List.mem_append_left _ (h.placed b hb hl)
    · exact List.mem_append_right _ hb
  | @made t x =>
    refine ⟨fun a ha hl => ?_, fun y hy hl => ?_⟩
    · rw [apart_keep]
      exact h.placed a ha hl
    · refine mem_others_keep_of_alive ?_ hl
      rcases List.mem_append.mp hy with hy | hy
      · exact .inl (h.made y hy hl)
      · exact .inr (List.mem_singleton.mp hy)
  | drop texture =>
    exact ⟨fun a ha hl => h.placed a ha (of_update_false hl), fun x hx hl =>
      h.made x hx (of_update_false hl)⟩

/-! ### The objects listed -/

/-- Every object that is listed and not released is among those whose uses a check reads, and so is
every one that has a use kept or to be kept. -/
structure Listed (w : World τ ο θ) : Prop where
  users : ∀ o, (w.seens o).listed = true → w.owned o = true → o ∈ w.registry.users
  uses : ∀ o, (w.seens o).uses ≠ [] → (w.seens o).listed = true
  keeps : ∀ t o, (w.phase t).keeps = some o → (w.seens o).listed = true

theorem users_keep (r : Registry ο θ) (alive : θ → Bool) (other : Other ο θ) :
    (r.keep alive other).users = r.users := by
  rw [Registry.keep]
  split_ifs <;> rfl

theorem mem_users_list {r : Registry ο θ} {lives : ο → Bool} {user o : ο}
    (ho : o ∈ r.users ∧ lives o = true ∨ o = user) : o ∈ (r.list lives user).users := by
  rw [Registry.list]
  split_ifs
  · refine List.mem_append.mpr (ho.imp (fun ho => ?_) fun ho => List.mem_singleton.mpr ho)
    exact List.mem_filter.mpr ho
  · exact List.mem_append.mpr (ho.imp (fun ho => ho.1) fun ho => List.mem_singleton.mpr ho)

section

theorem Listed.stay [DecidableEq τ] (h : w.Listed) {t : τ} {p : Phase ο θ}
    (hp : ∀ o, p.keeps = some o → (w'.seens o).listed = true)
    (hw : w'.phase = Function.update w.phase t p)
    (hl : ∀ o, (w'.seens o).listed = (w.seens o).listed)
    (hu : ∀ o, (w'.seens o).uses ≠ [] → (w.seens o).uses ≠ [] ∨ (w.seens o).listed = true)
    (ho : w'.owned = w.owned) (hr : w'.registry.users = w.registry.users) : w'.Listed := by
  refine ⟨fun o hlisted howned => ?_, fun o huses => ?_, fun s o hs => ?_⟩
  · rw [hr]
    exact h.users o (hl o ▸ hlisted) (ho ▸ howned)
  · rw [hl]
    exact (hu o huses).elim (h.uses o) id
  · rw [hw] at hs
    rcases eq_or_ne s t with rfl | hne
    · rw [Function.update_self] at hs
      exact hp o hs
    · rw [Function.update_of_ne hne] at hs
      rw [hl]
      exact h.keeps s o hs

variable [DecidableEq ο]

/-- A change of one object's pages or uses that leaves it listed or not. -/
theorem Listed.setSeen (h : w.Listed) {o : ο} {s : Seen} (hl : s.listed = (w.seens o).listed)
    (hu : s.uses ≠ [] → (w.seens o).uses ≠ [] ∨ (w.seens o).listed = true) :
    (w.setSeen o s).Listed := by
  have hof : ∀ o', ((w.setSeen o s).seens o').listed = (w.seens o').listed := by
    intro o'
    rcases eq_or_ne o' o with rfl | hne
    · exact (congrArg Seen.listed (Function.update_self _ _ _)).trans hl
    · exact congrArg Seen.listed (Function.update_of_ne hne _ _)
  refine ⟨fun o' hlisted howned => h.users o' (hof o' ▸ hlisted) howned, fun o' huses => ?_,
    fun t o' ht => (hof o').trans (h.keeps t o' ht)⟩
  rw [hof]
  rcases eq_or_ne o' o with rfl | hne
  · have huses' : s.uses ≠ [] := by
      intro hs
      exact huses ((congrArg Seen.uses (Function.update_self _ _ _)).trans hs)
    exact (hu huses').elim (h.uses o') id
  · exact h.uses o' fun hnil =>
      huses ((congrArg Seen.uses (Function.update_of_ne hne _ _)).trans hnil)

/-- A use lists its object. -/
theorem Listed.list [DecidableEq τ] (h : w.Listed) (t : τ) (c : UseCall ο) :
    Listed { (w.setSeen c.use.reach.owner (w.seens c.use.reach.owner).list).goOn t
        (.keeping c) with
      registry := w.registry.list w.lives c.use.reach.owner } := by
  have hself : ∀ o, o = c.use.reach.owner → (Function.update w.seens c.use.reach.owner
      (w.seens c.use.reach.owner).list o).listed = true := by
    rintro o rfl
    rw [Function.update_self]
    rfl
  have hmono : ∀ o, (w.seens o).listed = true → (Function.update w.seens c.use.reach.owner
      (w.seens c.use.reach.owner).list o).listed = true := by
    intro o ho
    rcases eq_or_ne o c.use.reach.owner with heq | hne
    · exact hself o heq
    · rwa [Function.update_of_ne hne]
  refine ⟨fun o hl ho => mem_users_list ?_, fun o hu => ?_, fun s o hs => ?_⟩
  · rcases eq_or_ne o c.use.reach.owner with heq | hne
    · exact .inr heq
    · have hl' : (w.seens o).listed = true := by
        rwa [← Function.update_of_ne hne (w.seens c.use.reach.owner).list w.seens]
      exact .inl ⟨h.users o hl' ho, (Bool.or_eq_true _ _).mpr (.inl ho)⟩
  · rcases eq_or_ne o c.use.reach.owner with heq | hne
    · exact hself o heq
    · refine hmono o (h.uses o fun hnil => hu ?_)
      exact (congrArg Seen.uses (Function.update_of_ne hne _ _)).trans hnil
  · rcases eq_or_ne s t with rfl | hne
    · have hp : Phase.keeps (Function.update w.phase s (.keeping c) s) = some o := hs
      rw [Function.update_self] at hp
      exact hself o (Option.some_inj.mp hp).symm
    · have hp : Phase.keeps (Function.update w.phase t (.keeping c) s) = some o := hs
      rw [Function.update_of_ne hne] at hp
      exact hmono o (h.keeps s o hp)

end

/-- Every step keeps the objects listed. -/
theorem Listed.step [DecidableEq τ] [DecidableEq ο] [DecidableEq θ] (h : w.Listed)
    (hs : Step w act w') : w'.Listed := by
  cases hs with
  | used | recalled | choose | skip | go | readNone | read | readKept | held | unwatched | watched
  | lockUsed | lockMoved | pruned | apart | other | clash | probe | job | jobDead | placed | passed
  | moved | failedApart | failed | returned =>
    exact h.stay (by intro o ho; cases ho) rfl (fun _ => rfl) (fun _ => .inl) rfl rfl
  | listed ht hl =>
    refine h.stay ?_ rfl (fun _ => rfl) (fun _ => .inl) rfl rfl
    rintro o ⟨⟩
    exact hl
  | made =>
    exact h.stay (by intro o ho; cases ho) rfl (fun _ => rfl) (fun _ => .inl) rfl
      (users_keep _ _ _)
  | list ht hl hh => exact h.list _ _
  | keep ht =>
    refine (h.setSeen (s := (w.seens _).keep _) rfl fun _ => .inr ?_).stay
      (by intro o ho; cases ho) rfl (fun _ => rfl) (fun _ => .inl) rfl rfl
    exact h.keeps _ _ (by rw [ht]; rfl)
  | stamp =>
    exact (h.setSeen (s := (w.seens _).moveStamp) rfl .inl).stay (by intro o ho; cases ho) rfl
      (fun _ => rfl) (fun _ => .inl) rfl rfl
  | setPages o pages =>
    exact (h.setSeen (s := (w.seens o).givePages pages) rfl .inl).stay (by intro o ho; cases ho) rfl
      (fun _ => rfl) (fun _ => .inl) rfl rfl
  | forgot =>
    exact (h.setSeen (s := (w.seens _).forgetUses) rfl fun hn => absurd rfl hn).stay
      (by intro o ho; cases ho) rfl (fun _ => rfl) (fun _ => .inl) rfl rfl
  | forgetUses o =>
    have hf := h.setSeen (o := o) (s := (w.seens o).forgetUses) rfl fun hn => absurd rfl hn
    exact ⟨hf.users, hf.uses, hf.keeps⟩
  | zero o =>
    exact (h.setSeen (s := (w.seens o).zeroPages) rfl .inl).stay (by intro o ho; cases ho) rfl
      (fun _ => rfl) (fun _ => .inl) rfl rfl
  | zeroed =>
    exact (h.setSeen (s := (w.seens _).moveEpoch) rfl .inl).stay (by intro o ho; cases ho) rfl
      (fun _ => rfl) (fun _ => .inl) rfl rfl
  | drop _ => exact ⟨h.users, h.uses, h.keeps⟩
  | release o =>
    exact ⟨fun o' hl ho => h.users o' hl (of_update_false ho), h.uses, h.keeps⟩

end World

end ReimsVgpu.Gpu.OverPages
