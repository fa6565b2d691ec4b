import ReimsVgpu.Gpu.Watch

/-!
# The uses kept over the guest's pages

A use is kept unless one of three shortcuts says that it is kept already: its buffer's record of a
whole use at the epoch, the object's mark that all of its pages are used, or the uses themselves.
Each is right while no page change or forget of the object overlaps the use: a whole use recorded at
an epoch since the last of these is kept still, as a detach only takes memory away.

## Main definitions

* `Seen.Later`: what may become of an object's memory during a use.
* `World.Kept`: every use that was to be kept is covered by the uses kept.
* `World.Merged`: the uses kept are apart, and cover what was kept.

## Main results

* `World.Kept.step`, `World.Merged.step`.
-/

namespace ReimsVgpu.Gpu.OverPages

open Spans (points)

variable {τ ο θ : Type*}

/-! ### An object during a use -/

namespace Seen

/-- The pages stay, or a detach leaves the object in no memory; uses are added. -/
structure Later (s s' : Seen) : Prop where
  pages : s'.paged.pages = s.paged.pages
  zeroed : s.paged.zeroed = true → s'.paged.zeroed = true
  uses : points s.uses ⊆ points s'.uses
  epoch : s.epoch ≤ s'.epoch

theorem Later.of_paged_eq {s s' : Seen} (hp : s'.paged = s.paged) (he : s.epoch ≤ s'.epoch)
    (hu : points s.uses ⊆ points s'.uses) : s.Later s' where
  pages := congrArg Paged.pages hp
  zeroed h := (congrArg Paged.zeroed hp).trans h
  uses := hu
  epoch := he

theorem Later.refl (s : Seen) : s.Later s := .of_paged_eq rfl le_rfl subset_rfl

theorem Later.list (s : Seen) : s.Later s.list := .of_paged_eq rfl le_rfl subset_rfl

theorem Later.moveStamp (s : Seen) : s.Later s.moveStamp := .of_paged_eq rfl le_rfl subset_rfl

theorem Later.moveEpoch (s : Seen) : s.Later s.moveEpoch :=
  .of_paged_eq rfl (Nat.le_succ _) subset_rfl

theorem Later.zeroPages (s : Seen) : s.Later s.zeroPages where
  pages := rfl
  zeroed _ := rfl
  uses := subset_rfl
  epoch := le_rfl

theorem Later.keep (s : Seen) (memory : List HostRange) : s.Later (s.keep memory) :=
  .of_paged_eq rfl le_rfl (by rw [points_uses_keep]; exact Set.subset_union_left)

theorem later_update [DecidableEq ο] {seens : ο → Seen} {o : ο} {s : Seen}
    (h : (seens o).Later s) (o' : ο) : (seens o').Later (Function.update seens o s o') := by
  rcases eq_or_ne o' o with rfl | hne
  · rwa [Function.update_self]
  · rw [Function.update_of_ne hne]
    exact .refl _

/-- The bytes reached are among those reached before. -/
theorem Later.memory {s s' : Seen} (h : s.Later s') (bytes : HostRange) (own : List HostRange) :
    points (s'.memoryOr bytes own) ⊆ points (s.memoryOr bytes own) := by
  by_cases hz : s'.paged.zeroed = true
  · rw [memoryOr_of_zeroed hz, Spans.points_nil]
    exact Set.empty_subset _
  · have hz' : s'.paged.zeroed = s.paged.zeroed := by
      rw [Bool.eq_false_iff.mpr hz, Bool.eq_false_iff.mpr fun hs => hz (h.zeroed hs)]
    rw [memoryOr_of_paged_eq (congrArg₂ Paged.mk h.pages hz')]

/-- An epoch that a use in progress read, plus one: the pages have not changed, nor the uses been
forgotten, since. -/
structure Current (s : Seen) (since epoch : ℕ) : Prop where
  lt : since < epoch
  le : epoch ≤ s.epoch + 1

theorem Current.later {s s' : Seen} {since epoch : ℕ} (h : s.Current since epoch)
    (hl : s.Later s') : s'.Current since epoch :=
  ⟨h.lt, h.le.trans (Nat.succ_le_succ hl.epoch)⟩

/-- What is reached is among the uses kept. -/
def Covers (s : Seen) (r : Reach ο) : Prop :=
  points (s.memoryOr r.bytes r.own) ⊆ points s.uses

theorem Covers.later {s s' : Seen} {r : Reach ο} (h : s.Covers r) (hl : s.Later s') :
    s'.Covers r :=
  (hl.memory _ _).trans (h.trans hl.uses)

end Seen

/-! ### What a use in progress knows -/

/-- A use that read its memory: what it reaches is in that memory. -/
structure UseCall.Read (c : UseCall ο) (s : Seen) (since : ℕ) : Prop where
  current : s.Current since c.epoch
  asked : c.keep = true → c.use.keep = true
  memory : points (s.memoryOr c.use.reach.bytes c.use.reach.own) ⊆ points c.memory

/-- A use that was kept, where it was to be. -/
structure UseCall.Kept (c : UseCall ο) (s : Seen) (since : ℕ) : Prop extends c.Read s since where
  covered : c.use.keep = true → points c.memory ⊆ points s.uses

/-- A use that chose whether it still is to be kept. -/
structure Use.Chosen (u : Use ο) (epoch : ℕ) (keep : Bool) (s : Seen) (since : ℕ) : Prop where
  current : s.Current since epoch
  asked : keep = true → u.keep = true
  covered : u.keep = true → keep = false → s.Covers u.reach

section Later

variable {s s' : Seen} {c : UseCall ο} {u : Use ο} {since epoch : ℕ} {keep : Bool}

theorem UseCall.Read.later (h : c.Read s since) (hl : s.Later s') : c.Read s' since :=
  ⟨h.current.later hl, h.asked, (hl.memory _ _).trans h.memory⟩

theorem UseCall.Kept.later (h : c.Kept s since) (hl : s.Later s') : c.Kept s' since :=
  ⟨h.toRead.later hl, fun hk => (h.covered hk).trans hl.uses⟩

theorem Use.Chosen.later (h : u.Chosen epoch keep s since) (hl : s.Later s') :
    u.Chosen epoch keep s' since :=
  ⟨h.current.later hl, h.asked, fun hk hn => (h.covered hk hn).later hl⟩

end Later

/-- What the use for which a thread holds the lock knows of its object. -/
def Purpose.Sound (s : Seen) (since : ℕ) : Purpose ο θ → Prop
  | .used c => c.Kept s since
  | _ => True

/-- What a use in progress knows of its object. -/
def Phase.Sound (s : Seen) (since : ℕ) : Phase ο θ → Prop
  | .began _ epoch => s.Current since epoch
  | .recalled u epoch kept => s.Current since epoch ∧ (kept = true → s.Covers u.reach)
  | .chosen u epoch keep | .reading u epoch keep => u.Chosen epoch keep s since
  | .listing c | .keeping c => c.Read s since ∧ c.keep = true
  | .stamping c | .counting c | .waiting c | .passed c => c.Kept s since
  | .pruned p _ | .checking p _ => p.Sound s since
  | _ => True

theorem Phase.Sound.later {p : Phase ο θ} {s s' : Seen} {since : ℕ} (h : p.Sound s since)
    (hl : s.Later s') : p.Sound s' since := by
  have hpurpose : ∀ q : Purpose ο θ, q.Sound s since → q.Sound s' since := by
    rintro (a | x | c | o) hq
    · trivial
    · trivial
    · exact UseCall.Kept.later hq hl
    · trivial
  cases p with
  | began u epoch => exact Seen.Current.later h hl
  | recalled u epoch kept => exact ⟨h.1.later hl, fun hk => (h.2 hk).later hl⟩
  | chosen u epoch keep | reading u epoch keep => exact Use.Chosen.later h hl
  | listing c | keeping c => exact ⟨h.1.later hl, h.2⟩
  | stamping c | counting c | waiting c | passed c => exact UseCall.Kept.later h hl
  | pruned q changed => exact hpurpose q h
  | checking q check => exact hpurpose q h
  | idle | paged o | replaced o | zeroed o | failing q clash | clashed clash => trivial

/-! ### The uses kept -/

namespace World

variable {w w' : World τ ο θ} {act : Action τ ο θ}

/-- No use overlaps a page change; what each use in progress knows; and what the shortcuts rest on: a
whole use recorded at an epoch since the uses were forgotten is kept, and so are all the pages where
they are marked as used. Every use that returned and was to be kept is kept. -/
structure Kept (w : World τ ο θ) : Prop where
  settled : ∀ t o, (w.phase t).user = some o → w.Settled o
  sound : ∀ t o, (w.phase t).user = some o → (w.phase t).Sound (w.seens o) (w.since o)
  since_le : ∀ o, w.since o ≤ (w.seens o).epoch
  wholes_le : ∀ id r, w.wholes (id, r) ≤ (w.seens r.owner).epoch + 1
  wholes : ∀ id r, w.since r.owner < w.wholes (id, r) → w.Settled r.owner →
    (w.seens r.owner).Covers r
  allUsed : ∀ o, (w.seens o).allUsed = true → w.Settled o →
    (w.seens o).paged.pages ≠ [] ∧ points (w.seens o).paged.pages ⊆ points (w.seens o).uses
  used : ∀ e ∈ w.used, e.keep = true → points e.memory ⊆ points (w.seens e.owner).uses

namespace Kept

/-- The marked pages cover what a use reaches. -/
theorem covers_of_allUsed (h : w.Kept) {r : Reach ο} (ha : (w.seens r.owner).allUsed = true)
    (hs : w.Settled r.owner) : (w.seens r.owner).Covers r := by
  obtain ⟨hne, hsub⟩ := h.allUsed _ ha hs
  exact (Seen.points_memory_subset hne _ _).trans hsub

/-- A record of the epoch that a use read is of memory kept. -/
theorem covers_of_recalls (h : w.Kept) {u : Use ο} {epoch : ℕ}
    (hc : (w.seens u.reach.owner).Current (w.since u.reach.owner) epoch)
    (hs : w.Settled u.reach.owner)
    (hr : w.recalls u epoch = true) : (w.seens u.reach.owner).Covers u.reach := by
  obtain ⟨cell, hcell, heq⟩ := (Option.any_eq_true _ _).mp hr
  obtain ⟨id, -, rfl⟩ := Option.map_eq_some_iff.mp hcell
  have hwhole : w.wholes (id, u.reach) = epoch := beq_iff_eq.mp heq
  exact h.wholes id u.reach (hwhole ▸ hc.lt) hs

section

variable [DecidableEq τ]

theorem settled_update {t : τ} {p : Phase ο θ} (hw : w'.phase = Function.update w.phase t p)
    (ht : (w.phase t).pages = none) (hp : p.pages = none) (o : ο) :
    w'.Settled o ↔ w.Settled o := by
  refine forall_congr' fun s => not_congr ?_
  rw [hw]
  rcases eq_or_ne s t with rfl | hne
  · rw [Function.update_self, ht, hp]
  · rw [Function.update_of_ne hne]

/-- A step of a thread during which every object stays or is detached, and uses are added. -/
theorem later (h : w.Kept) {t : τ} {p : Phase ο θ} (hw : w'.phase = Function.update w.phase t p)
    (ht : (w.phase t).pages = none) (hp : p.pages = none)
    (hlater : ∀ o, (w.seens o).Later (w'.seens o))
    (huser : ∀ o, p.user = some o → (w.phase t).user = some o ∨ w.Settled o)
    (hsound : ∀ o, p.user = some o → p.Sound (w'.seens o) (w.since o))
    (hwholes : w'.wholes = w.wholes) (hsince : w'.since = w.since)
    (hall : ∀ o, (w'.seens o).allUsed = true → (w.seens o).allUsed = true ∨
      (w'.seens o).paged.pages ≠ [] ∧ points (w'.seens o).paged.pages ⊆ points (w'.seens o).uses)
    (hused : ∀ e ∈ w'.used, e.keep = true →
      e ∈ w.used ∨ points e.memory ⊆ points (w'.seens e.owner).uses) : w'.Kept where
  settled s o hs := by
    rw [settled_update hw ht hp]
    rw [hw] at hs
    rcases eq_or_ne s t with rfl | hne
    · rw [Function.update_self] at hs
      exact (huser o hs).elim (h.settled s o) id
    · rw [Function.update_of_ne hne] at hs
      exact h.settled s o hs
  sound s o hs := by
    rw [hsince]
    rw [hw] at hs ⊢
    rcases eq_or_ne s t with rfl | hne
    · rw [Function.update_self] at hs ⊢
      exact hsound o hs
    · rw [Function.update_of_ne hne] at hs ⊢
      exact (h.sound s o hs).later (hlater o)
  since_le o := by
    rw [hsince]
    exact (h.since_le o).trans (hlater o).epoch
  wholes_le id r := by
    rw [hwholes]
    exact (h.wholes_le id r).trans (Nat.succ_le_succ (hlater _).epoch)
  wholes id r hr hs := by
    rw [hwholes, hsince] at hr
    exact (h.wholes id r hr ((settled_update hw ht hp _).mp hs)).later (hlater _)
  allUsed o ha hs := by
    rcases hall o ha with ha | ha
    · obtain ⟨hne, hsub⟩ := h.allUsed o ha ((settled_update hw ht hp _).mp hs)
      rw [(hlater o).pages]
      exact ⟨hne, hsub.trans (hlater o).uses⟩
    · exact ha
  used e he hk := (hused e he hk).elim (fun he => (h.used e he hk).trans (hlater _).uses) id

/-- A step of a thread that changes no object. -/
theorem goOn (h : w.Kept) {t : τ} {p : Phase ο θ} (hw : w'.phase = Function.update w.phase t p)
    (ht : (w.phase t).pages = none) (hp : p.pages = none)
    (huser : ∀ o, p.user = some o → (w.phase t).user = some o ∨ w.Settled o)
    (hsound : ∀ o, p.user = some o → p.Sound (w.seens o) (w.since o))
    (hseens : w'.seens = w.seens) (hwholes : w'.wholes = w.wholes) (hsince : w'.since = w.since)
    (hused : w'.used = w.used) : w'.Kept :=
  h.later hw ht hp (fun _ => hseens ▸ Seen.Later.refl _) huser (fun o ho => hseens ▸ hsound o ho)
    hwholes hsince (fun _ ho => .inl (hseens ▸ ho)) fun _ he _ => .inl (hused ▸ he)

/-- A step of a use that changes no object. -/
theorem goes (h : w.Kept) {t : τ} {p q : Phase ο θ} (ht : w.phase t = q)
    (hw : w'.phase = Function.update w.phase t p) (hq : q.pages = none) (hp : p.pages = none)
    (huser : ∀ o, p.user = some o → q.user = some o)
    (hsound : ∀ o, q.user = some o → q.Sound (w.seens o) (w.since o) →
      p.Sound (w.seens o) (w.since o))
    (hseens : w'.seens = w.seens) (hwholes : w'.wholes = w.wholes) (hsince : w'.since = w.since)
    (hused : w'.used = w.used) : w'.Kept := by
  refine h.goOn hw (ht ▸ hq) hp (fun o ho => .inl (ht ▸ huser o ho)) (fun o ho => ?_) hseens
    hwholes hsince hused
  have hs := h.sound t o (ht ▸ huser o ho)
  exact hsound o (huser o ho) (ht ▸ hs)

/-- A use that returns, with nothing more to record. -/
theorem ends (h : w.Kept) {t : τ} {e : Entry ο} (hw : w'.phase = Function.update w.phase t .idle)
    (ht : (w.phase t).pages = none) (he : e.keep = true →
      points e.memory ⊆ points (w.seens e.owner).uses) (hseens : w'.seens = w.seens)
    (hwholes : w'.wholes = w.wholes) (hsince : w'.since = w.since)
    (hused : w'.used = w.used ++ [e]) : w'.Kept := by
  refine h.later hw ht rfl (fun _ => hseens ▸ Seen.Later.refl _)
    (fun o ho => absurd ho (Option.some_ne_none o).symm) (fun _ _ => trivial) hwholes hsince
    (fun _ ho => .inl (hseens ▸ ho)) fun e' he' hk => ?_
  rw [hused] at he'
  rcases List.mem_append.mp he' with he' | he'
  · exact .inl he'
  · obtain rfl := List.mem_singleton.mp he'
    exact .inr (hseens ▸ he hk)

/-- A step of a use that changes its object. -/
theorem changes [DecidableEq ο] (h : w.Kept) {t : τ} {p q : Phase ο θ} {o : ο} {s : Seen}
    (ht : w.phase t = q) (hs : (w.seens o).Later s) (hw : w'.phase = Function.update w.phase t p)
    (hq : q.pages = none) (hp : p.pages = none) (hqo : q.user = some o) (hpo : p.user = some o)
    (hsound : q.Sound (w.seens o) (w.since o) → p.Sound s (w.since o))
    (hall : s.allUsed = true → (w.seens o).allUsed = true ∨
      s.paged.pages ≠ [] ∧ points s.paged.pages ⊆ points s.uses)
    (hseens : w'.seens = Function.update w.seens o s) (hwholes : w'.wholes = w.wholes)
    (hsince : w'.since = w.since) (hused : w'.used = w.used) : w'.Kept := by
  have hself : w'.seens o = s := by rw [hseens, Function.update_self]
  have hother : ∀ o', o' ≠ o → w'.seens o' = w.seens o' := fun o' hne => by
    rw [hseens, Function.update_of_ne hne]
  refine h.later hw (ht ▸ hq) hp (fun o' => ?_) (fun o' ho => ?_) (fun o' ho => ?_) hwholes hsince
    (fun o' ho => ?_) fun _ he _ => .inl (hused ▸ he)
  · exact hseens ▸ Seen.later_update hs o'
  · exact .inl (ht ▸ hqo.trans (hpo.symm.trans ho))
  · obtain rfl := Option.some_inj.mp (hpo.symm.trans ho)
    have hsq := h.sound t o (ht ▸ hqo)
    exact hself.symm ▸ hsound (ht ▸ hsq)
  · rcases eq_or_ne o' o with rfl | hne
    · rw [hself] at ho ⊢
      exact hall ho
    · exact .inl (hother o' hne ▸ ho)

end

section

variable [DecidableEq ο]

/-- An object that no use is in progress of is given other pages. -/
theorem setPages [DecidableEq τ] (h : w.Kept) {t : τ} {o : ο} (pages : List HostRange)
    (ht : (w.phase t).pages = none) (hu : w.Unused o)
    (hseens : w'.seens = Function.update w.seens o ((w.seens o).givePages pages))
    (hphase : w'.phase = Function.update w.phase t (.paged o)) (hwholes : w'.wholes = w.wholes)
    (hsince : w'.since = w.since) (hused : w'.used = w.used) : w'.Kept := by
  have hself : w'.seens o = (w.seens o).givePages pages := by rw [hseens, Function.update_self]
  have hother : ∀ o', o' ≠ o → w'.seens o' = w.seens o' := fun o' hne => by
    rw [hseens, Function.update_of_ne hne]
  have hthread : w'.phase t = .paged o := by rw [hphase, Function.update_self]
  have hthreads : ∀ s, s ≠ t → w'.phase s = w.phase s := fun s hne => by
    rw [hphase, Function.update_of_ne hne]
  have hsettled : ∀ o', w'.Settled o' → o' ≠ o ∧ w.Settled o' := by
    intro o' hs
    refine ⟨fun heq => hs t (by rw [hthread, heq]; rfl), fun s hp => ?_⟩
    rcases eq_or_ne s t with rfl | hne
    · exact absurd (ht.symm.trans hp) (Option.some_ne_none o').symm
    · exact hs s (hthreads s hne ▸ hp)
  have huser : ∀ s o', (w'.phase s).user = some o' →
      w'.phase s = w.phase s ∧ (w.phase s).user = some o' ∧ o' ≠ o := by
    intro s o' hs
    rcases eq_or_ne s t with rfl | hne
    · rw [hthread] at hs
      exact absurd hs (Option.some_ne_none o').symm
    · rw [hthreads s hne] at hs
      exact ⟨hthreads s hne, hs, fun heq => hu s (heq ▸ hs)⟩
  refine ⟨fun s o' hs s' hp => ?_, fun s o' hs => ?_, fun o' => ?_, fun id r => ?_,
    fun id r hr hs => ?_, fun o' ha hs => ?_, fun e he hk => ?_⟩
  · obtain ⟨-, hs, hne⟩ := huser s o' hs
    rcases eq_or_ne s' t with rfl | hne'
    · rw [hthread] at hp
      exact hne (Option.some_inj.mp hp).symm
    · exact h.settled s o' hs s' (hthreads s' hne' ▸ hp)
  · obtain ⟨hp, hs, hne⟩ := huser s o' hs
    rw [hp, hother o' hne, hsince]
    exact h.sound s o' hs
  · rw [hsince]
    rcases eq_or_ne o' o with rfl | hne
    · rw [hself]
      exact h.since_le o'
    · rw [hother o' hne]
      exact h.since_le o'
  · rw [hwholes]
    rcases eq_or_ne r.owner o with heq | hne
    · rw [heq, hself]
      exact heq ▸ h.wholes_le id r
    · rw [hother _ hne]
      exact h.wholes_le id r
  · obtain ⟨hne, hs⟩ := hsettled _ hs
    rw [hwholes, hsince] at hr
    rw [hother _ hne]
    exact h.wholes id r hr hs
  · obtain ⟨hne, hs⟩ := hsettled _ hs
    rw [hother _ hne] at ha ⊢
    exact h.allUsed o' ha hs
  · rw [hused] at he
    rcases eq_or_ne e.owner o with heq | hne
    · rw [heq, hself]
      exact heq ▸ h.used e he hk
    · rw [hother _ hne]
      exact h.used e he hk

/-- The uses of an object that no use is in progress of are forgotten. -/
theorem forget (h : w.Kept) {o : ο} (hu : w.Unused o)
    (hseens : w'.seens = Function.update w.seens o (w.seens o).forgetUses)
    (hwholes : w'.wholes = w.wholes)
    (hsince : w'.since = Function.update w.since o ((w.seens o).epoch + 1))
    (hused : w'.used = w.used.filter fun e => decide (e.owner ≠ o))
    (hphase : ∀ s, w'.phase s = w.phase s ∨ (w'.phase s).user = none)
    (hsettled : ∀ o', o' ≠ o → (w'.Settled o' ↔ w.Settled o')) : w'.Kept := by
  have hself : w'.seens o = (w.seens o).forgetUses := by rw [hseens, Function.update_self]
  have hother : ∀ o', o' ≠ o → w'.seens o' = w.seens o' := fun o' hne => by
    rw [hseens, Function.update_of_ne hne]
  have huser : ∀ s o', (w'.phase s).user = some o' →
      w'.phase s = w.phase s ∧ (w.phase s).user = some o' ∧ o' ≠ o := by
    intro s o' hs
    rcases hphase s with hp | hp
    · exact ⟨hp, hp ▸ hs, fun heq => hu s (heq ▸ hp ▸ hs)⟩
    · exact absurd (hp.symm.trans hs) (Option.some_ne_none o').symm
  refine ⟨fun s o' hs => ?_, fun s o' hs => ?_, fun o' => ?_, fun id r => ?_, fun id r hr hs => ?_,
    fun o' ha hs => ?_, fun e he hk => ?_⟩
  · obtain ⟨-, hs, hne⟩ := huser s o' hs
    exact (hsettled o' hne).mpr (h.settled s o' hs)
  · obtain ⟨hp, hs, hne⟩ := huser s o' hs
    rw [hp, hother o' hne, hsince, Function.update_of_ne hne]
    exact h.sound s o' hs
  · rw [hsince]
    rcases eq_or_ne o' o with rfl | hne
    · rw [hself, Function.update_self]
      rfl
    · rw [hother o' hne, Function.update_of_ne hne]
      exact h.since_le o'
  · rw [hwholes]
    rcases eq_or_ne r.owner o with heq | hne
    · rw [heq, hself]
      exact (heq ▸ h.wholes_le id r).trans (Nat.le_succ _)
    · rw [hother _ hne]
      exact h.wholes_le id r
  · rw [hwholes, hsince] at hr
    rcases eq_or_ne r.owner o with heq | hne
    · -- what was recorded before is of an epoch before
      rw [heq, Function.update_self] at hr
      exact absurd (heq ▸ h.wholes_le id r) hr.not_ge
    · rw [Function.update_of_ne hne] at hr
      rw [hother _ hne]
      exact h.wholes id r hr ((hsettled _ hne).mp hs)
  · rcases eq_or_ne o' o with rfl | hne
    · rw [hself] at ha
      exact Bool.noConfusion ha
    · rw [hother _ hne] at ha ⊢
      exact h.allUsed o' ha ((hsettled _ hne).mp hs)
  · rw [hused] at he
    obtain ⟨he, hne⟩ := List.mem_filter.mp he
    rw [hother _ (of_decide_eq_true hne)]
    exact h.used e he hk

/-- A whole use that was kept is recorded. -/
theorem record (h : w.Kept) {t : τ} {c : UseCall ο} (ht : w.phase t = .passed c) :
    (w.record c).Kept := by
  have hkept : c.Kept (w.seens c.use.reach.owner) (w.since c.use.reach.owner) := by
    have hs := h.sound t c.use.reach.owner (by rw [ht]; rfl)
    rwa [ht] at hs
  have hcases : ∀ id r, (w.record c).wholes (id, r) = w.wholes (id, r) ∨
      c.use.reach = r ∧ c.keep = true ∧ (w.record c).wholes (id, r) = c.epoch := by
    intro id r
    rw [World.record]
    split
    · rename_i cell hcell
      split_ifs with hk
      · rcases eq_or_ne cell (id, r) with rfl | hne
        · obtain ⟨id', -, hid⟩ := Option.map_eq_some_iff.mp hcell
          exact .inr ⟨congrArg Prod.snd hid, hk, Function.update_self _ _ _⟩
        · exact .inl (Function.update_of_ne hne.symm _ _)
      · exact .inl rfl
    · exact .inl rfl
  refine ⟨h.settled, h.sound, h.since_le, fun id r => ?_, fun id r hr hs => ?_, h.allUsed, h.used⟩
  · rcases hcases id r with heq | ⟨rfl, -, heq⟩
    · rw [heq]
      exact h.wholes_le id r
    · rw [heq]
      exact hkept.current.le
  · rcases hcases id r with heq | ⟨rfl, hk, -⟩
    · rw [heq] at hr
      exact h.wholes id r hr hs
    · exact hkept.memory.trans (hkept.covered (hkept.asked hk))

end

/-- Every step keeps the uses. -/
theorem step [DecidableEq τ] [DecidableEq ο] [DecidableEq θ] (h : w.Kept) (hs : Step w act w') :
    w'.Kept := by
  have hpages : ∀ {t : τ} {p : Phase ο θ}, w.phase t = p → p.pages = none →
      (w.phase t).pages = none := fun ht hp => ht ▸ hp
  cases hs with
  | used u ht ho hs =>
    refine h.goOn rfl (hpages ht rfl) rfl ?_ ?_ rfl rfl rfl rfl
    · rintro o ⟨⟩
      exact .inr hs
    · rintro o ⟨⟩
      exact ⟨Nat.lt_succ_of_le (h.since_le _), le_rfl⟩
  | @recalled t u epoch ht =>
    refine h.goes ht rfl rfl rfl (fun _ => id) ?_ rfl rfl rfl rfl
    rintro o ⟨⟩ hc
    exact ⟨hc, h.covers_of_recalls hc (h.settled t _ (by rw [ht]; rfl))⟩
  | @choose t u epoch kept ht =>
    refine h.goes ht rfl rfl rfl (fun _ => id) ?_ rfl rfl rfl rfl
    rintro o ⟨⟩ ⟨hc, hkept⟩
    refine ⟨hc, fun hk => ?_, fun hk hn => ?_⟩
    · exact ((Bool.and_eq_true _ _).mp ((Bool.and_eq_true _ _).mp hk).1).1
    · rw [hk, Bool.true_and] at hn
      rcases (Bool.and_eq_false_iff).mp hn with hn | hn
      · exact hkept (by simpa using hn)
      · exact h.covers_of_allUsed (by simpa using hn) (h.settled t _ (by rw [ht]; rfl))
  | @skip t u epoch ht hc =>
    refine h.ends rfl (hpages ht rfl) (fun hk => ?_) rfl rfl rfl rfl
    have hs := h.sound t u.reach.owner (by rw [ht]; rfl)
    rw [ht] at hs
    rw [Reach.memory_eq]
    exact hs.covered hk rfl
  | go ht => exact h.goes ht rfl rfl rfl (fun _ => id) (fun _ _ => id) rfl rfl rfl rfl
  | readNone ht =>
    refine h.ends rfl (hpages ht rfl) (fun _ => ?_) rfl rfl rfl rfl
    rw [Spans.points_nil]
    exact Set.empty_subset _
  | read ht =>
    refine h.goes ht rfl rfl rfl (fun _ => id) ?_ rfl rfl rfl rfl
    rintro o ⟨⟩ hc
    exact ⟨⟨hc.current, hc.asked, (Reach.memory_eq _ _).symm ▸ subset_rfl⟩, rfl⟩
  | readKept ht =>
    refine h.goes ht rfl rfl rfl (fun _ => id) ?_ rfl rfl rfl rfl
    rintro o ⟨⟩ hc
    refine ⟨⟨hc.current, hc.asked, (Reach.memory_eq _ _).symm ▸ subset_rfl⟩, fun hk => ?_⟩
    exact (Reach.memory_eq _ _).symm ▸ hc.covered hk rfl
  | listed ht => exact h.goes ht rfl rfl rfl (fun _ => id) (fun _ _ => id) rfl rfl rfl rfl
  | held ht hh =>
    refine h.goes ht rfl rfl rfl (fun _ => id) ?_ rfl rfl rfl rfl
    rintro o ⟨⟩ ⟨hc, -⟩
    exact ⟨hc, fun _ => Seen.points_subset_of_holds hh⟩
  | list ht =>
    exact h.changes ht (.list _) rfl rfl rfl rfl rfl
      (fun hs => Phase.Sound.later hs (.list _)) .inl rfl rfl rfl rfl
  | @keep t c ht =>
    have hl := Seen.Later.keep (w.seens c.use.reach.owner) c.memory
    refine h.changes ht hl rfl rfl rfl rfl rfl (fun hs => ?_)
      (Seen.points_pages_subset_of_allUsed_keep) rfl rfl rfl rfl
    refine ⟨hs.1.later hl, fun _ => ?_⟩
    rw [Seen.points_uses_keep]
    exact Set.subset_union_right
  | stamp ht =>
    exact h.changes ht (.moveStamp _) rfl rfl rfl rfl rfl
      (fun hs => Phase.Sound.later hs (.moveStamp _)) .inl rfl rfl rfl rfl
  | unwatched ht | watched ht | lockUsed ht =>
    exact h.goes ht rfl rfl rfl (fun _ => id) (fun _ _ => id) rfl rfl rfl rfl
  | pruned ht | probe ht | job ht | jobDead ht =>
    exact h.goes ht rfl rfl rfl (fun _ => id) (fun _ _ => id) rfl rfl rfl rfl
  | passed ht => exact h.goes ht rfl rfl rfl (fun _ => id) (fun _ _ => id) rfl rfl rfl rfl
  | clash ht => exact h.goes ht rfl rfl rfl (fun _ => id) (fun _ _ _ => trivial) rfl rfl rfl rfl
  | lockMoved ht | moved ht | placed ht | made ht | failedApart ht | failed ht =>
    exact h.goes ht rfl rfl rfl nofun (fun _ _ _ => trivial) rfl rfl rfl rfl
  | apart a ht | other a ht =>
    exact h.goes ht rfl rfl rfl nofun (fun _ _ _ => trivial) rfl rfl rfl rfl
  | @returned t c ht =>
    have hs := h.sound t c.use.reach.owner (by rw [ht]; rfl)
    rw [ht] at hs
    exact (h.record ht).ends rfl (hpages ht rfl) (fun hk => hs.covered hk) rfl rfl rfl rfl
  | setPages o pages ht ho hu => exact h.setPages pages (hpages ht rfl) hu rfl rfl rfl rfl rfl
  | @forgot t o ht =>
    have hp : (w.phase t).pages = some o := by rw [ht]; rfl
    refine h.forget (fun s hs => h.settled s o hs t hp) rfl rfl rfl rfl (fun s => ?_)
      fun o' hne => ?_
    · rcases eq_or_ne s t with rfl | hst
      · have hnone := congrArg Phase.user (Function.update_self s (Phase.replaced o) w.phase)
        exact .inr hnone
      · exact .inl (Function.update_of_ne hst _ _)
    · refine forall_congr' fun s => not_congr ?_
      rcases eq_or_ne s t with rfl | hst
      · have hnone := congrArg Phase.pages (Function.update_self s (Phase.replaced o) w.phase)
        rw [hp, Option.some_inj]
        exact iff_of_false (fun hs => Option.some_ne_none o' (hs.symm.trans hnone)) hne.symm
      · have hsame := congrArg Phase.pages (Function.update_of_ne hst (Phase.replaced o) w.phase)
        exact ⟨fun hs => hsame.symm.trans hs, fun hs => hsame.trans hs⟩
  | forgetUses o ht ho hu =>
    exact h.forget hu rfl rfl rfl rfl (fun _ => .inl rfl) fun _ _ => Iff.rfl
  | @zero t o ht =>
    have hall := Seen.apply_update Seen.allUsed w.seens o (w.seens o).zeroPages rfl
    exact h.later rfl (hpages ht rfl) rfl (Seen.later_update (.zeroPages _))
      (fun o' ho => absurd ho (Option.some_ne_none o').symm) (fun _ _ => trivial) rfl rfl
      (fun o' ha => .inl ((hall o').symm.trans ha)) fun _ he _ => .inl he
  | @zeroed t o ht =>
    have hall := Seen.apply_update Seen.allUsed w.seens o (w.seens o).moveEpoch rfl
    exact h.later rfl (hpages ht rfl) rfl (Seen.later_update (.moveEpoch _))
      (fun o' ho => absurd ho (Option.some_ne_none o').symm) (fun _ _ => trivial) rfl rfl
      (fun o' ha => .inl ((hall o').symm.trans ha)) fun _ he _ => .inl he
  | drop _ | release _ _ =>
    exact ⟨h.settled, h.sound, h.since_le, h.wholes_le, h.wholes, h.allUsed, h.used⟩

end Kept

/-! ### The uses as they are kept -/

/-- The uses kept neither overlap nor touch, and cover the memory that was kept and nothing else. -/
structure Merged (w : World τ ο θ) [DecidableEq ο] : Prop where
  apart : ∀ o, Spans.Apart (w.seens o).uses
  points_eq : ∀ o, points (w.seens o).uses = points (w.keptBy o)

section Merged

variable [DecidableEq ο]

theorem keptBy_append (o : ο) {e : Entry ο} (hk : w'.kept = w.kept ++ [e]) :
    w'.keptBy o = w.keptBy o ++ if e.owner = o then e.memory else [] := by
  rw [keptBy, hk, List.filter_append, List.flatMap_append, ← keptBy, List.filter_singleton]
  by_cases ho : e.owner = o
  · rw [if_pos ho, decide_eq_true ho, cond_true, List.flatMap_singleton]
  · rw [if_neg ho, decide_eq_false ho]
    rfl

theorem keptBy_filter (o o' : ο) (hk : w'.kept = w.kept.filter fun e => decide (e.owner ≠ o)) :
    w'.keptBy o' = if o' = o then [] else w.keptBy o' := by
  rw [keptBy, hk, List.filter_filter]
  split_ifs with ho
  · rw [List.filter_eq_nil_iff.mpr, List.flatMap_nil]
    intro e _
    simp [ho]
  · rw [keptBy]
    congr 1
    refine List.filter_congr fun e _ => ?_
    by_cases he : e.owner = o' <;> simp [he, ho]

namespace Merged

theorem congr (h : w.Merged) (hu : ∀ o, (w'.seens o).uses = (w.seens o).uses)
    (hk : w'.kept = w.kept) : w'.Merged := by
  refine ⟨fun o => hu o ▸ h.apart o, fun o => ?_⟩
  rw [hu, h.points_eq, keptBy, keptBy, hk]

/-- A use that the uses kept hold already. -/
theorem held (h : w.Merged) {o : ο} {e : Entry ο} (ho : e.owner = o)
    (hh : points e.memory ⊆ points (w.seens o).uses) (hu : w'.seens = w.seens)
    (hk : w'.kept = w.kept ++ [e]) : w'.Merged := by
  refine ⟨fun o' => hu ▸ h.apart o', fun o' => ?_⟩
  rw [keptBy_append o' hk, hu, Spans.points_append, ← h.points_eq]
  split_ifs with heq
  · exact (Set.union_eq_self_of_subset_right (heq ▸ ho ▸ hh)).symm
  · rw [Spans.points_nil, Set.union_empty]

/-- A use that is kept. -/
theorem keep (h : w.Merged) {o : ο} {e : Entry ο} (ho : e.owner = o)
    (hu : w'.seens = Function.update w.seens o ((w.seens o).keep e.memory))
    (hk : w'.kept = w.kept ++ [e]) : w'.Merged := by
  have hself : w'.seens o = (w.seens o).keep e.memory := by rw [hu, Function.update_self]
  have hother : ∀ o', o' ≠ o → w'.seens o' = w.seens o' := fun o' hne => by
    rw [hu, Function.update_of_ne hne]
  refine ⟨fun o' => ?_, fun o' => ?_⟩
  · rcases eq_or_ne o' o with rfl | hne
    · rw [hself]
      exact (h.apart o').foldl_merge _
    · rw [hother o' hne]
      exact h.apart o'
  · rw [keptBy_append o' hk, Spans.points_append, ← h.points_eq]
    rcases eq_or_ne o' o with rfl | hne
    · rw [hself, if_pos ho, Seen.points_uses_keep]
    · rw [hother o' hne, if_neg (ho.trans_ne hne.symm), Spans.points_nil, Set.union_empty]

/-- Uses that are forgotten. -/
theorem forget (h : w.Merged) {o : ο}
    (hu : w'.seens = Function.update w.seens o (w.seens o).forgetUses)
    (hk : w'.kept = w.kept.filter fun e => decide (e.owner ≠ o)) : w'.Merged := by
  refine ⟨fun o' => ?_, fun o' => ?_⟩
  · rw [hu]
    rcases eq_or_ne o' o with rfl | hne
    · rw [Function.update_self]
      exact Spans.apart_nil
    · rw [Function.update_of_ne hne]
      exact h.apart o'
  · rw [keptBy_filter o o' hk, hu]
    rcases eq_or_ne o' o with rfl | hne
    · rw [Function.update_self, if_pos rfl]
      rfl
    · rw [Function.update_of_ne hne, if_neg hne, h.points_eq]

/-- Every step keeps the uses merged. -/
theorem step [DecidableEq τ] [DecidableEq θ] (h : w.Merged) (hs : Step w act w') : w'.Merged := by
  cases hs with
  | used | recalled | choose | skip | go | readNone | read | readKept | listed | unwatched | watched
  | lockUsed | lockMoved | pruned | apart | other | probe | clash | job | jobDead | placed | made
  | passed | moved | failedApart | failed | returned | drop | release =>
    exact h.congr (fun _ => rfl) rfl
  | list | stamp | setPages | zero | zeroed =>
    exact h.congr (Seen.apply_update Seen.uses _ _ _ rfl) rfl
  | held _ hh => exact h.held rfl (Seen.points_subset_of_holds hh) rfl rfl
  | keep => exact h.keep rfl rfl rfl
  | forgot | forgetUses => exact h.forget rfl rfl

end Merged

end Merged

end World

end ReimsVgpu.Gpu.OverPages
