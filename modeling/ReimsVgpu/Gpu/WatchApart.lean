import ReimsVgpu.Gpu.WatchLists
import ReimsVgpu.Gpu.WatchUses

/-!
# Textures kept apart share no byte, over every interleaving

Two textures over one byte, one of them kept apart, or such a texture over a byte that a command used
through another object, are excused only while some thread still has to look: one that gave an object
of theirs other pages and has not yet read the registry, one that holds the registry's lock and has
the read ahead of it, or a use that was kept and has not yet been checked. Every step that drops an
excuse has found the two disjoint, and when every call has returned none is left.

## Main definitions

* `Phase.excuses`, `Phase.excusesUse`: what a thread still has to look at.
* `World.Parted`: everything else is disjoint.

## Main results

* `World.Parted.frame`: what a step of one thread must show to keep it.
* `World.Parted.stay`, `World.Parted.unchecked`, `World.Parted.rests`, `World.Parted.mono`: the steps
  that add nothing.
-/

namespace ReimsVgpu.Gpu.OverPages

open Spans (points)

variable {τ ο θ : Type*}

/-! ### What a thread still has to look at -/

/-- A check has a read of a target ahead of it, of the memory of a texture. -/
def Check.owes (c : Check ο θ) (x : Other ο θ) (g : Target ο θ) : Prop :=
  (c.about = some x ∧ ∃ p ∈ c.probes, p.target = g) ∨
    ∃ j ∈ c.jobs, j.other = x ∧ ∃ p ∈ j.probes, p.target = g

/-- The byte lies in the memory of the use, which is of the object. -/
def UseCall.Reaches (c : UseCall ο) (o : ο) (y : ℕ) : Prop :=
  c.use.reach.owner = o ∧ y ∈ points c.memory

/-- A use of the object that reaches the byte is checked. -/
def Purpose.Reaches (o : ο) (y : ℕ) : Purpose ο θ → Prop
  | .used c => c.Reaches o y
  | _ => False

namespace Phase

/-- The object whose pages the thread changed without having read the registry since. -/
def moving : Phase ο θ → Option ο
  | .paged o | .replaced o => some o
  | .pruned p _ => p.mover
  | _ => none

/-- The texture lies in such an object. -/
def Unsettles (p : Phase ο θ) (s : Site ο) : Prop := ∃ o, s.seen = some o ∧ p.moving = some o

/-- The thread has the read ahead of it. -/
def Owes (x : Other ο θ) (g : Target ο θ) : Phase ο θ → Prop
  | .checking _ c => c.owes x g
  | _ => False

/-- The thread's use of the object is kept, reaches the byte, and is not yet checked against the
texture. -/
def Pends (o : ο) (a : Other ο θ) (y : ℕ) : Phase ο θ → Prop
  | .stamping c | .counting c | .waiting c => c.Reaches o y
  | .pruned p _ => p.Reaches o y
  | .checking p c => p.Reaches o y ∧ ∃ probe ∈ c.probes, probe.target = .texture a
  | _ => False

/-- The thread still has to look at the two textures. -/
def Excuses (p : Phase ο θ) (a x : Other ο θ) : Prop :=
  p.Unsettles a.site ∨ p.Unsettles x.site ∨ p.Owes a (.texture x) ∨ p.Owes x (.texture a)

/-- The thread still has to look at the texture and the uses of the object. -/
def ExcusesUse (p : Phase ο θ) (a : Other ο θ) (o : ο) (y : ℕ) : Prop :=
  p.Unsettles a.site ∨ p.Owes a (.user o) ∨ p.Pends o a y

/-- The check in progress. -/
def check : Phase ο θ → Option (Check ο θ)
  | .checking _ c => some c
  | _ => none

/-- A thread that neither changed pages nor checks nor keeps a use has nothing to look at. -/
structure Quiet (p : Phase ο θ) : Prop where
  moving : p.moving = none
  owes : ∀ x g, ¬p.Owes x g
  pends : ∀ o a y, ¬p.Pends o a y

variable {p : Phase ο θ}

theorem Quiet.not_unsettles (h : p.Quiet) (s : Site ο) : ¬p.Unsettles s := by
  rintro ⟨o, -, ho⟩
  exact Option.some_ne_none o (ho.symm.trans h.moving)

theorem Quiet.not_excuses (h : p.Quiet) (a x : Other ο θ) : ¬p.Excuses a x := by
  rintro (hs | hs | hs | hs)
  · exact h.not_unsettles _ hs
  · exact h.not_unsettles _ hs
  · exact h.owes _ _ hs
  · exact h.owes _ _ hs

theorem Quiet.not_excusesUse (h : p.Quiet) (a : Other ο θ) (o : ο) (y : ℕ) :
    ¬p.ExcusesUse a o y := by
  rintro (hs | hs | hs)
  · exact h.not_unsettles _ hs
  · exact h.owes _ _ hs
  · exact h.pends _ _ _ hs

/-- Whether the thread neither changes pages nor checks, and keeps no use that is not yet checked. -/
def rests : Phase ο θ → Bool
  | .paged _ | .replaced _ | .stamping _ | .counting _ | .waiting _ | .pruned _ _ | .checking _ _ =>
    false
  | _ => true

theorem placing_of_check (h : p.check = none) : p.placing = none := by
  cases p <;> first | rfl | exact absurd h (Option.some_ne_none _)

theorem making_of_check (h : p.check = none) : p.making = none := by
  cases p <;> first | rfl | exact absurd h (Option.some_ne_none _)

/-- A check that has made all its reads. -/
theorem quiet_of_checked (q : Purpose ο θ) (c : Check ο θ) :
    (Phase.checking q { c with probes := [], jobs := [] }).Quiet := by
  refine ⟨rfl, fun x g => ?_, fun o a y => ?_⟩
  · rintro (⟨-, p, hp, -⟩ | ⟨j, hj, -⟩)
    · exact List.not_mem_nil hp
    · exact List.not_mem_nil hj
  · rintro ⟨-, p, hp, -⟩
    exact List.not_mem_nil hp

theorem quiet_of_rests (h : p.rests = true) : p.Quiet := by
  cases p <;> first
    | exact Bool.noConfusion h
    | exact ⟨rfl, fun _ _ ho => ho, fun _ _ _ hp => hp⟩

end Phase

/-! ### What a check reads -/

/-- The registry lists the texture. -/
def Registry.Lists (r : Registry ο θ) (x : Other ο θ) : Prop :=
  (∃ a ∈ r.apart, a.toOther = x) ∨ x ∈ r.others

section Reads

variable [DecidableEq ο] {r : Registry ο θ} {site : Site ο} {why : Alone}

theorem exists_under {a : Apart ο θ} {of : Option ο} (ha : a ∈ r.apart)
    (ho : ∀ o, of = some o → a.site.of o = false) :
    ∃ p ∈ r.under of, p.target = .texture a.toOther := by
  refine ⟨⟨.texture a.toOther, .pages a.why⟩, List.mem_map.mpr ⟨a, ?_, rfl⟩, rfl⟩
  refine List.mem_filter.mpr ⟨ha, Option.all_eq_true _ _ |>.mpr fun o hof => ?_⟩
  rw [ho o hof]
  rfl

theorem exists_against {x : Other ο θ} (hx : r.Lists x) (hw : x.site.isWith site = false) :
    ∃ p ∈ r.against site why, p.target = .texture x := by
  have hwith : (!x.site.isWith site) = true := by rw [hw]; rfl
  refine ⟨⟨.texture x, .pages why⟩, List.mem_append_left _ ?_, rfl⟩
  rcases hx with ⟨a, ha, rfl⟩ | hx
  · exact List.mem_append_left _ (List.mem_map.mpr ⟨a, List.mem_filter.mpr ⟨ha, hwith⟩, rfl⟩)
  · exact List.mem_append_right _ (List.mem_map.mpr ⟨x, List.mem_filter.mpr ⟨hx, hwith⟩, rfl⟩)

theorem exists_against_user {o : ο} (ho : o ∈ r.users) (hof : site.of o = false) :
    ∃ p ∈ r.against site why, p.target = .user o := by
  refine ⟨⟨.user o, .used why⟩, List.mem_append_right _ (List.mem_map.mpr ⟨o, ?_, rfl⟩), rfl⟩
  exact List.mem_filter.mpr ⟨ho, by rw [hof]; rfl⟩

theorem exists_job_apart {a : Apart ο θ} {o : ο} (ha : a ∈ r.apart) (ho : a.site.seen = some o) :
    ∃ j ∈ r.moved o, j.other = a.toOther ∧ j.probes = r.against a.site a.why := by
  refine ⟨⟨a.toOther, false, r.against a.site a.why⟩, List.mem_append_left _ ?_, rfl, rfl⟩
  exact List.mem_map.mpr ⟨a, List.mem_filter.mpr ⟨ha, Site.of_iff.mpr ho⟩, rfl⟩

theorem exists_job_other {x : Other ο θ} {o : ο} (hx : x ∈ r.others) (ho : x.site.seen = some o) :
    ∃ j ∈ r.moved o, j.other = x ∧ j.probes = r.under (some o) := by
  refine ⟨⟨x, true, r.under (some o)⟩, List.mem_append_right _ ?_, rfl, rfl⟩
  exact List.mem_map.mpr ⟨x, List.mem_filter.mpr ⟨hx, Site.of_iff.mpr ho⟩, rfl⟩

end Reads

/-! ### The textures -/

namespace World

variable (w : World τ ο θ)

/-- The texture is kept apart, or is to be once its check has passed. -/
def Watched (a : Apart ο θ) : Prop :=
  a ∈ w.registry.apart ∨ ∃ t, (w.phase t).placing = some a

/-- The texture is kept, or is to be once its check has passed. -/
def Recorded (x : Other ο θ) : Prop :=
  (∃ a, w.Watched a ∧ a.toOther = x) ∨ x ∈ w.registry.others ∨ ∃ t, (w.phase t).making = some x

/-- The bytes that the texels lie in now. -/
def bytes (s : Site ο) : Set ℕ := points (s.memory w.seens)

variable {w} {w' : World τ ο θ}

/-! ### What a step leaves as it was -/

section Goes

variable [DecidableEq τ] {t : τ} {p : Phase ο θ}

theorem watched_of_update (hw : w'.phase = Function.update w.phase t p)
    (hr : ∀ a ∈ w'.registry.apart, w.Watched a)
    (hp : ∀ a, p.placing = some a → w.Watched a) {a : Apart ο θ} (ha : w'.Watched a) :
    w.Watched a := by
  rcases ha with ha | ⟨s, hs⟩
  · exact hr a ha
  · rw [hw] at hs
    rcases eq_or_ne s t with rfl | hne
    · rw [Function.update_self] at hs
      exact hp a hs
    · rw [Function.update_of_ne hne] at hs
      exact .inr ⟨s, hs⟩

theorem recorded_of_update (hw : w'.phase = Function.update w.phase t p)
    (ha : ∀ a, w'.Watched a → w.Watched a) (ho : ∀ x ∈ w'.registry.others, w.Recorded x)
    (hp : ∀ x, p.making = some x → w.Recorded x) {x : Other ο θ} (hx : w'.Recorded x) :
    w.Recorded x := by
  rcases hx with ⟨a, hwa, hax⟩ | hx | ⟨s, hs⟩
  · exact .inl ⟨a, ha a hwa, hax⟩
  · exact ho x hx
  · rw [hw] at hs
    rcases eq_or_ne s t with rfl | hne
    · rw [Function.update_self] at hs
      exact hp x hs
    · rw [Function.update_of_ne hne] at hs
      exact .inr (.inr ⟨s, hs⟩)

/-- What another thread still has to look at stays. -/
theorem exists_update (P : Phase ο θ → Prop) (hw : w'.phase = Function.update w.phase t p)
    (h : ∃ s, P (w.phase s)) :
    (∃ s, P (w'.phase s)) ∨ P (w.phase t) := by
  obtain ⟨s, hs⟩ := h
  rcases eq_or_ne s t with rfl | hne
  · exact .inr hs
  · refine .inl ⟨s, ?_⟩
    rwa [hw, Function.update_of_ne hne]

theorem exists_self (P : Phase ο θ → Prop) (hw : w'.phase = Function.update w.phase t p)
    (h : P p) : ∃ s, P (w'.phase s) := by
  refine ⟨t, ?_⟩
  rwa [hw, Function.update_self]

/-- A thread goes on, and neither the objects nor the textures change. -/
structure Goes (w w' : World τ ο θ) (t : τ) (p : Phase ο θ) : Prop where
  phase : w'.phase = Function.update w.phase t p
  seens : w'.seens = w.seens
  registry : w'.registry = w.registry
  alive : w'.alive = w.alive
  owned : w'.owned = w.owned

theorem Goes.bytes_eq (hg : w.Goes w' t p) (s : Site ο) : w'.bytes s = w.bytes s := by
  rw [bytes, bytes, hg.seens]

theorem Goes.watched (hg : w.Goes w' t p)
    (hp : ∀ a, p.placing = some a → (w.phase t).placing = some a) (a : Apart ο θ)
    (ha : w'.Watched a) : w.Watched a :=
  watched_of_update hg.phase (fun _ hb => .inl (hg.registry ▸ hb))
    (fun b hb => .inr ⟨t, hp b hb⟩) ha

theorem Goes.recorded (hg : w.Goes w' t p)
    (hp : ∀ a, p.placing = some a → (w.phase t).placing = some a)
    (hm : ∀ x, p.making = some x → (w.phase t).making = some x) (x : Other ο θ)
    (hx : w'.Recorded x) : w.Recorded x :=
  recorded_of_update hg.phase (hg.watched hp) (fun _ hz => .inr (.inl (hg.registry ▸ hz)))
    (fun z hz => .inr (.inr ⟨t, hm z hz⟩)) hx

end Goes

/-! ### What the threads keep -/

variable [DecidableEq ο]

/-- Two living textures of two objects, one of them kept apart, share no byte, and neither do such a
texture and the uses of another object, but for what a thread still has to look at. A check has read
the memory of its texture, but for a change of pages since; that of a use, the memory used. -/
structure Parted (w : World τ ο θ) : Prop where
  textures : ∀ a x, w.Watched a → w.Recorded x → w.alive a.texture = true →
    w.alive x.texture = true → a.site.isWith x.site = false → a.toOther ≠ x →
      Disjoint (w.bytes a.site) (w.bytes x.site) ∨ ∃ t, (w.phase t).Excuses a.toOther x
  uses : ∀ a o y, w.Watched a → w.alive a.texture = true → w.owned o = true →
    a.site.of o = false → y ∈ w.bytes a.site → y ∈ points (w.seens o).uses →
      ∃ t, (w.phase t).ExcusesUse a.toOther o y
  about : ∀ t c x, (w.phase t).check = some c → c.about = some x →
    w.bytes x.site ⊆ points c.memory ∨ ∃ s, (w.phase s).Unsettles x.site
  used : ∀ t call c, w.phase t = .checking (.used call) c → c.memory = call.memory ∧ c.jobs = []

namespace Parted

section

variable [DecidableEq τ]

/-- What a step of one thread must show: that what it adds to the textures and to the uses it still
has to look at, that each pair it has looked at is disjoint, and what its check has read. -/
theorem frame (h : w.Parted) {t : τ} {p : Phase ο θ} (hw : w'.phase = Function.update w.phase t p)
    (halive : ∀ i, w'.alive i = true → w.alive i = true)
    (howned : ∀ o, w'.owned o = true → w.owned o = true)
    (hmem : ∀ s, w'.bytes s ⊆ w.bytes s ∨ p.Unsettles s)
    (hold : ∀ a x, w'.Watched a → w'.Recorded x → a.site.isWith x.site = false →
      a.toOther ≠ x → w.Watched a ∧ w.Recorded x ∨ p.Excuses a.toOther x)
    (holdUse : ∀ a o y, w'.Watched a → w'.owned o = true → a.site.of o = false →
      y ∈ points (w'.seens o).uses →
        w.Watched a ∧ y ∈ points (w.seens o).uses ∨ p.ExcusesUse a.toOther o y)
    (hex : ∀ a x, w'.Watched a → w'.Recorded x → w'.alive a.texture = true →
      w'.alive x.texture = true → a.site.isWith x.site = false →
        (w.phase t).Excuses a.toOther x →
          Disjoint (w'.bytes a.site) (w'.bytes x.site) ∨ ∃ s, (w'.phase s).Excuses a.toOther x)
    (hexUse : ∀ a o y, w'.Watched a → w'.alive a.texture = true → w'.owned o = true →
      a.site.of o = false → y ∈ w'.bytes a.site → y ∈ points (w'.seens o).uses →
        (w.phase t).ExcusesUse a.toOther o y → ∃ s, (w'.phase s).ExcusesUse a.toOther o y)
    (hmoving : ∀ o, (w.phase t).moving = some o →
      p.moving = some o ∨ ∀ s, s ≠ t → (w.phase s).check = none)
    (habout : ∀ c x, p.check = some c → c.about = some x →
      w'.bytes x.site ⊆ points c.memory ∨ ∃ s, (w'.phase s).Unsettles x.site)
    (hused : ∀ call c, p = .checking (.used call) c → c.memory = call.memory ∧ c.jobs = []) :
    w'.Parted where
  textures a x ha hx hla hlx hwith hne := by
    rcases hold a x ha hx hwith hne with ⟨hwa, hwx⟩ | hexc
    · rcases h.textures a x hwa hwx (halive _ hla) (halive _ hlx) hwith hne with hd | hs
      · rcases hmem a.site with hma | hma
        · rcases hmem x.site with hmx | hmx
          · exact .inl (hd.mono hma hmx)
          · exact .inr (exists_self (fun q => q.Excuses a.toOther x) hw (.inr (.inl hmx)))
        · exact .inr (exists_self (fun q => q.Excuses a.toOther x) hw (.inl hma))
      · rcases exists_update (fun q => q.Excuses a.toOther x) hw hs with hs | hs
        · exact .inr hs
        · exact hex a x ha hx hla hlx hwith hs
    · exact .inr (exists_self (fun q => q.Excuses a.toOther x) hw hexc)
  uses a o y ha hla ho hof hya hyo := by
    rcases holdUse a o y ha ho hof hyo with ⟨hwa, hwo⟩ | hexc
    · rcases hmem a.site with hma | hma
      · have hs := h.uses a o y hwa (halive _ hla) (howned o ho) hof (hma hya) hwo
        rcases exists_update (fun q => q.ExcusesUse a.toOther o y) hw hs with hs | hs
        · exact hs
        · exact hexUse a o y ha hla ho hof hya hyo hs
      · exact exists_self (fun q => q.ExcusesUse a.toOther o y) hw (.inl hma)
    · exact exists_self (fun q => q.ExcusesUse a.toOther o y) hw hexc
  about s c x hc hx := by
    rcases eq_or_ne s t with rfl | hst
    · refine habout c x ?_ hx
      rwa [hw, Function.update_self] at hc
    · rw [hw, Function.update_of_ne hst] at hc
      rcases hmem x.site with hmx | hmx
      · rcases h.about s c x hc hx with hsub | hs
        · exact .inl (hmx.trans hsub)
        · rcases exists_update (fun q => q.Unsettles x.site) hw hs with hs | ⟨o, ho, hmo⟩
          · exact .inr hs
          · rcases hmoving o hmo with hp | hnone
            · exact .inr (exists_self (fun q => q.Unsettles x.site) hw ⟨o, ho, hp⟩)
            · exact absurd (hc.symm.trans (hnone s hst)) (Option.some_ne_none c)
      · exact .inr (exists_self (fun q => q.Unsettles x.site) hw hmx)
  used s call c hs := by
    rcases eq_or_ne s t with rfl | hst
    · rw [hw, Function.update_self] at hs
      exact hused call c hs
    · rw [hw, Function.update_of_ne hst] at hs
      exact h.used s call c hs

/-- A step of one thread that adds no texture and no use, and still has to look at what it had to. -/
theorem stay (h : w.Parted) {t : τ} {p : Phase ο θ} (hw : w'.phase = Function.update w.phase t p)
    (hmoving : p.moving = (w.phase t).moving)
    (howes : ∀ x g, w.alive x.texture = true → (w.phase t).Owes x g → p.Owes x g)
    (hpends : ∀ a o y, w.Watched a → (w.phase t).Pends o a.toOther y → p.Pends o a.toOther y)
    (habout : ∀ c x, p.check = some c → c.about = some x →
      w.bytes x.site ⊆ points c.memory ∨ ∃ s, (w.phase s).Unsettles x.site)
    (hused : ∀ call c, p = .checking (.used call) c → c.memory = call.memory ∧ c.jobs = [])
    (halive : w'.alive = w.alive) (howned : w'.owned = w.owned)
    (hbytes : ∀ s, w'.bytes s ⊆ w.bytes s)
    (huses : ∀ o, points (w'.seens o).uses ⊆ points (w.seens o).uses)
    (hwatched : ∀ a, w'.Watched a → w.Watched a) (hrecorded : ∀ x, w'.Recorded x → w.Recorded x) :
    w'.Parted := by
  have hunsettles : ∀ s, (w.phase t).Unsettles s → p.Unsettles s := by
    rintro s ⟨o, hs, ho⟩
    exact ⟨o, hs, hmoving.trans ho⟩
  refine h.frame hw (fun i hi => halive ▸ hi) (fun o ho => howned ▸ ho) (fun s => .inl (hbytes s))
    (fun a x ha hx _ _ => .inl ⟨hwatched a ha, hrecorded x hx⟩)
    (fun a o y ha _ _ hy => .inl ⟨hwatched a ha, huses o hy⟩) ?_ ?_
    (fun o ho => .inl (hmoving.trans ho)) ?_ hused
  · intro a x _ _ hla hlx _ hs
    rw [halive] at hla hlx
    refine .inr (exists_self (fun q => q.Excuses a.toOther x) hw ?_)
    exact hs.imp (hunsettles _) (Or.imp (hunsettles _) (Or.imp (howes _ _ hla) (howes _ _ hlx)))
  · intro a o y ha hla _ _ _ _ hs
    rw [halive] at hla
    refine exists_self (fun q => q.ExcusesUse a.toOther o y) hw ?_
    exact hs.imp (hunsettles _) (Or.imp (howes _ _ hla) (hpends _ _ _ (hwatched a ha)))
  · intro c x hc hx
    rcases habout c x hc hx with hsub | hs
    · exact .inl ((hbytes _).trans hsub)
    · rcases exists_update (fun q => q.Unsettles x.site) hw hs with hs | hs
      · exact .inr hs
      · exact .inr (exists_self (fun q => q.Unsettles x.site) hw (hunsettles _ hs))

/-- A step of a thread that has no check in progress after it, and had no read ahead of it. -/
theorem unchecked (h : w.Parted) {t : τ} {p : Phase ο θ}
    (hw : w'.phase = Function.update w.phase t p) (hmoving : p.moving = (w.phase t).moving)
    (howes : ∀ x g, ¬(w.phase t).Owes x g)
    (hpends : ∀ a o y, w.Watched a → (w.phase t).Pends o a.toOther y → p.Pends o a.toOther y)
    (hc : p.check = none) (halive : w'.alive = w.alive) (howned : w'.owned = w.owned)
    (hbytes : ∀ s, w'.bytes s ⊆ w.bytes s)
    (huses : ∀ o, points (w'.seens o).uses ⊆ points (w.seens o).uses)
    (hr : ∀ a ∈ w'.registry.apart, w.Watched a) (ho : ∀ x ∈ w'.registry.others, w.Recorded x) :
    w'.Parted := by
  have hwatched : ∀ a, w'.Watched a → w.Watched a := fun a => watched_of_update hw hr fun b hb =>
    absurd ((Phase.placing_of_check hc).symm.trans hb) (Option.some_ne_none b).symm
  refine h.stay hw hmoving (fun x g _ hx => absurd hx (howes x g)) hpends ?_ ?_ halive howned hbytes
    huses hwatched fun x => recorded_of_update hw hwatched ho fun z hz => ?_
  · intro c x hcheck _
    exact absurd (hc.symm.trans hcheck) (Option.some_ne_none c).symm
  · rintro call c rfl
    exact absurd hc (Option.some_ne_none c)
  · exact absurd ((Phase.making_of_check hc).symm.trans hz) (Option.some_ne_none z).symm

/-- A step of a thread that had nothing to look at, and starts no check. -/
theorem rests (h : w.Parted) {t : τ} {p : Phase ο θ} (hw : w'.phase = Function.update w.phase t p)
    (ht : (w.phase t).Quiet) (hp : p.moving = none) (hc : p.check = none)
    (halive : w'.alive = w.alive) (howned : w'.owned = w.owned)
    (hbytes : ∀ s, w'.bytes s ⊆ w.bytes s)
    (huses : ∀ o, points (w'.seens o).uses ⊆ points (w.seens o).uses)
    (hr : ∀ a ∈ w'.registry.apart, w.Watched a) (ho : ∀ x ∈ w'.registry.others, w.Recorded x) :
    w'.Parted :=
  h.unchecked hw (hp.trans ht.moving.symm) ht.owes
    (fun a o y _ hs => absurd hs (ht.pends o a.toOther y)) hc halive howned hbytes huses hr ho

/-- A thread that had nothing to look at goes on, and starts no check. -/
theorem rest (h : w.Parted) {t : τ} {p : Phase ο θ} (hgo : w.Goes w' t p)
    (ht : (w.phase t).Quiet) (hp : p.moving = none) (hc : p.check = none) : w'.Parted :=
  h.rests hgo.phase ht hp hc hgo.alive hgo.owned (fun s => (hgo.bytes_eq s).le)
    (fun o => by rw [hgo.seens]) (fun _ ha => .inl (hgo.registry ▸ ha))
    fun _ hx => .inr (.inl (hgo.registry ▸ hx))

end

/-- A step of no thread, after which less lives and less is used. -/
theorem mono (h : w.Parted) (hw : w'.phase = w.phase) (hr : w'.registry = w.registry)
    (halive : ∀ i, w'.alive i = true → w.alive i = true)
    (howned : ∀ o, w'.owned o = true → w.owned o = true) (hbytes : ∀ s, w'.bytes s ⊆ w.bytes s)
    (huses : ∀ o, points (w'.seens o).uses ⊆ points (w.seens o).uses) : w'.Parted := by
  have hwatched : ∀ a, w'.Watched a → w.Watched a := by
    intro a ha
    rwa [Watched, hw, hr] at ha
  have hrecorded : ∀ x, w'.Recorded x → w.Recorded x := by
    rintro x (⟨a, ha, hax⟩ | hx)
    · exact .inl ⟨a, hwatched a ha, hax⟩
    · rw [hw, hr] at hx
      exact .inr hx
  refine ⟨fun a x ha hx hla hlx hwith hne => ?_, fun a o y ha hla ho hof hya hyo => ?_, ?_, ?_⟩
  · rw [hw]
    have hpair := h.textures a x (hwatched a ha) (hrecorded x hx) (halive _ hla) (halive _ hlx)
      hwith hne
    exact hpair.imp (fun hd => hd.mono (hbytes _) (hbytes _)) id
  · rw [hw]
    exact h.uses a o y (hwatched a ha) (halive _ hla) (howned o ho) hof (hbytes _ hya) (huses o hyo)
  · intro t c x hc hx
    rw [hw] at hc ⊢
    exact (h.about t c x hc hx).imp (hbytes _).trans id
  · intro t call c ht
    rw [hw] at ht
    exact h.used t call c ht

end Parted

end World

end ReimsVgpu.Gpu.OverPages
