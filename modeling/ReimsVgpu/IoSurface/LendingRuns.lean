import ReimsVgpu.IoSurface.Budget
import ReimsVgpu.IoSurface.Lending

/-!
# The two sides of a lent surface agree

While no asked retain is answered nil, the host keeps a reference to each surface that the service
caches, under the same id, and drops it exactly once for each time it was asked. An answer of nil leaves
an entry without a surface, and a later retain of the id is answered, cached, and kept by nothing.

## Main definitions

* `World.Lent`: where an id's surface is, on both sides and on the link.
* `World.Agrees`: what the two sides owe each other.

## Main results

* `World.agrees_of_execution`: in every state that answered steps reach.
* `World.nil_entry_unkept`: a run in which a surface is cached and not kept.
-/

namespace ReimsVgpu.IoSurface.Lending

/-! ### The mapper's slots -/

/-- A map leaves the surfaces that the slots hold. -/
theorem map_keeps {host : Host} {st st' : QueueState} {mappingId : UInt32} {status : IoReturn}
    (h : map host st mappingId = .ok (st', status)) {i : Fin mappingIdCount} {s : Surface}
    (hs : (st.slots i).surface = some s) : (st'.slots i).surface = some s := by
  rcases map_cases h with hrefused | ⟨-, d, -, hmapped⟩
  · obtain heq | ⟨hnone, -⟩ := hrefused.unchanged.slots i
    · rw [heq, hs]
    · rw [hs] at hnone
      cases hnone
  · obtain ⟨j, slot, hnone, -, -, hothers⟩ := hmapped.slot
    have hne : i ≠ j := by
      rintro rfl
      rw [hs] at hnone
      cases hnone
    rw [hothers i hne, hs]

/-- An unmap of a slot whose surface is held elsewhere is refused. -/
theorem unmap_busy {host : Host} {st : QueueState} {mappingId : UInt32} {i : Fin mappingIdCount}
    {s : Surface} (hi : slotOf mappingId = some i) (hs : (st.slots i).surface = some s)
    (hcount : host.retainCount s ≠ 1) : unmap host st mappingId = .ok (st, .busy) := by
  simp only [unmap, hi, hs]
  rw [if_pos hcount]

/-- An unmap leaves a slot whose surface is held elsewhere. -/
theorem unmap_keeps {host : Host} {st st' : QueueState} {mappingId : UInt32} {status : IoReturn}
    (h : unmap host st mappingId = .ok (st', status)) {i : Fin mappingIdCount} {s : Surface}
    (hs : (st.slots i).surface = some s) (hcount : host.retainCount s ≠ 1) :
    (st'.slots i).surface = some s := by
  by_cases hi : slotOf mappingId = some i
  · rw [unmap_busy hi hs hcount] at h
    obtain ⟨rfl, -⟩ := Prod.mk.inj (Except.ok.inj h)
    exact hs
  · unfold unmap at h
    split at h
    · rw [← (Prod.mk.inj (Except.ok.inj h)).1, hs]
    case h_2 index hindex =>
      have hne : i ≠ index := fun heq => hi (heq ▸ hindex)
      split at h
      · rw [← (Prod.mk.inj (Except.ok.inj h)).1, hs]
      case h_2 surface hsurface =>
        dsimp only at h
        split_ifs at h
        · rw [← (Prod.mk.inj (Except.ok.inj h)).1, hs]
        · rw [← (Prod.mk.inj (Except.ok.inj h)).1, hs]
        · split at h
          · rw [← (Prod.mk.inj (Except.ok.inj h)).1, hs]
          · split at h
            · cases h
            · obtain ⟨rfl, -⟩ := Prod.mk.inj (Except.ok.inj h)
              change (Function.update st.slots index _ i).surface = some s
              rw [Function.update_of_ne hne, hs]

theorem retainSurface_eq_some {st : QueueState} {mappingId : ℕ} {s : Surface} :
    retainSurfaceWithMappingId st mappingId = some s ↔
      ∃ i : Fin mappingIdCount, i.val = mappingId ∧ mappingId ≠ 0 ∧
        (st.slots i).surface = some s := by
  rw [retainSurfaceWithMappingId]
  constructor
  · intro h
    split_ifs at h with hlt hzero
    exact ⟨⟨mappingId, hlt⟩, rfl, hzero, h⟩
  · rintro ⟨i, rfl, hne, hs⟩
    rw [dif_pos i.isLt, if_neg hne, hs]

namespace World

variable {w w' : World}

/-! ### Both sides -/

/-- The message of a retain that waits and was not looked up yet. -/
def asked (w : World) : List ToHost :=
  match w.waiting, w.handling with
  | some ⟨id, none⟩, none => [.retainIoSurface id]
  | _, _ => []

/-- The messages of an id's spans: each asked for and released. -/
def spans (id : ℕ) : ℕ → List ToHost
  | 0 => []
  | n + 1 => spans id n ++ [.retainIoSurface id, .releaseIoSurface id]

/-- The messages sent about an id. -/
def sentAbout (w : World) (id : ℕ) : List ToHost :=
  w.sent.filter fun m => decide (m.mappingId = id)

/-- The retains of an id not yet released. -/
def retainedOf (w : World) (id : ℕ) : List (ℕ × Object) :=
  w.retained.filter fun h => decide (h.1 = id)

/-- An id cached, or asked for. -/
def Spanned (w : World) (id : ℕ) : Prop :=
  w.surfaces id ≠ none ∨ ∃ reply, w.waiting = some ⟨id, reply⟩

/-- Where an id's surface is, on both sides and on the link. -/
structure Lent (w : World) : Prop where
  alive : w.died = false
  kept_of_cached : ∀ id c, w.surfaces id = some c → w.kept id = some (some c.object.surface)
  count_eq : ∀ id c, w.surfaces id = some c → 0 < c.count ∧ c.count = (w.retainedOf id).length
  object_eq : ∀ id c, w.surfaces id = some c → ∀ h ∈ w.retained, h.1 = id → h.2 = c.object
  uncached : ∀ id, w.surfaces id = none → ∀ h ∈ w.retained, h.1 ≠ id
  waiting : ∀ id reply, w.waiting = some ⟨id, reply⟩ → w.surfaces id = none
  /-- The link holds the messages of ended spans, and then the one that a retain waits for. -/
  link : ∃ released : List ℕ, w.link = released.map .releaseIoSurface ++ w.asked ∧
    (∀ id ∈ released, w.surfaces id = none) ∧
      ∀ id, w.kept id ≠ none → w.surfaces id ≠ none ∨ id ∈ released ∨
        ∃ reply, w.waiting = some ⟨id, some reply⟩
  handling : ∀ id surface, w.handling = some (id, surface) →
    w.link = [] ∧ w.waiting = some ⟨id, none⟩ ∧
      ∀ s, surface = some s → retainSurfaceWithMappingId w.mapper id = some s
  replied : ∀ id reply, w.waiting = some ⟨id, some reply⟩ →
    w.link = [] ∧ w.handling = none ∧
      ∃ object, reply = some object ∧ w.kept id = some (some object.surface)
  slot : ∀ id entry, w.kept id = some entry →
    ∃ s, entry = some s ∧ retainSurfaceWithMappingId w.mapper id = some s
  spanned : ∀ id, w.Spanned id → ∃ n, w.sentAbout id = spans id n ++ [.retainIoSurface id]
  ended : ∀ id, ¬w.Spanned id → ∃ n, w.sentAbout id = spans id n

/-- While no retain waits, the link holds the messages of ended spans only. -/
theorem Lent.link_of_unlocked (h : w.Lent) (hlock : w.waiting = none) :
    w.handling = none ∧ ∃ released : List ℕ, w.link = released.map .releaseIoSurface ∧
      (∀ id ∈ released, w.surfaces id = none) ∧
        ∀ id, w.kept id ≠ none → w.surfaces id ≠ none ∨ id ∈ released := by
  have hidle : w.handling = none := by
    cases hhandling : w.handling with
    | none => rfl
    | some handling =>
      have hwaiting := (h.handling handling.1 handling.2 hhandling).2.1
      rw [hlock] at hwaiting
      cases hwaiting
  obtain ⟨released, hlink, hreleased, hkept⟩ := h.link
  refine ⟨hidle, released, ?_, hreleased, fun id hid => ?_⟩
  · rw [hlink, asked, hlock]
    exact List.append_nil _
  · refine (hkept id hid).imp_right fun hor => hor.resolve_right ?_
    rintro ⟨reply, hreply⟩
    rw [hlock] at hreply
    cases hreply

/-! ### The service's steps -/

theorem update_ne_none_iff {f : ℕ → Option CachedSurface} {id : ℕ} {c : CachedSurface}
    (hc : f id = some c) (c' : CachedSurface) (id' : ℕ) :
    Function.update f id (some c') id' = none ↔ f id' = none := by
  by_cases hid : id' = id
  · subst hid
    rw [Function.update_self, hc]
    exact iff_of_false (Option.some_ne_none _) (Option.some_ne_none _)
  · rw [Function.update_of_ne hid]

theorem update_some_cases {f : ℕ → Option CachedSurface} {id : ℕ} {c : CachedSurface} (id' : ℕ)
    (c' : CachedSurface) (hc' : Function.update f id (some c) id' = some c') :
    (id' = id ∧ c' = c) ∨ (id' ≠ id ∧ f id' = some c') := by
  by_cases hid : id' = id
  · subst hid
    rw [Function.update_self, Option.some_inj] at hc'
    exact .inl ⟨rfl, hc'.symm⟩
  · rw [Function.update_of_ne hid] at hc'
    exact .inr ⟨hid, hc'⟩

theorem retainedOf_cons (w : World) (id id' : ℕ) (object : Object) :
    retainedOf { w with retained := (id, object) :: w.retained } id' =
      if id = id' then (id, object) :: w.retainedOf id' else w.retainedOf id' := by
  rw [retainedOf, List.filter_cons]
  simp only [decide_eq_true_eq]
  rfl

theorem sentAbout_send (w : World) (m : ToHost) (id : ℕ) :
    (w.send m).sentAbout id = w.sentAbout id ++ if m.mappingId = id then [m] else [] := by
  rw [sentAbout, send, List.filter_append, List.filter_singleton]
  by_cases hid : m.mappingId = id
  · rw [if_pos hid, decide_eq_true hid]
    rfl
  · rw [if_neg hid, decide_eq_false hid]
    rfl

/-- A retain of a cached surface. -/
theorem Lent.retain_hit (h : w.Lent) {id : ℕ} {c : CachedSurface}
    (hc : w.surfaces id = some c) :
    Lent { w with
      surfaces := Function.update w.surfaces id (some { c with count := c.count + 1 })
      retained := (id, c.object) :: w.retained } := by
  have hnone := update_ne_none_iff hc { c with count := c.count + 1 }
  have hcases := @update_some_cases w.surfaces id { c with count := c.count + 1 }
  exact
    { alive := h.alive
      kept_of_cached := fun id' c' hc' => by
        rcases hcases id' c' hc' with ⟨rfl, rfl⟩ | ⟨-, hc'⟩
        · exact h.kept_of_cached id' c hc
        · exact h.kept_of_cached id' c' hc'
      count_eq := fun id' c' hc' => by
        have hlen := congrArg List.length (retainedOf_cons w id id' c.object)
        rcases hcases id' c' hc' with ⟨rfl, rfl⟩ | ⟨hne, hc'⟩
        · rw [if_pos rfl] at hlen
          exact ⟨Nat.succ_pos _, (congrArg (· + 1) (h.count_eq id' c hc).2).trans hlen.symm⟩
        · rw [if_neg hne.symm] at hlen
          exact ⟨(h.count_eq id' c' hc').1, (h.count_eq id' c' hc').2.trans hlen.symm⟩
      object_eq := fun id' c' hc' r hr hid => by
        rcases hcases id' c' hc' with ⟨rfl, rfl⟩ | ⟨hne, hc'⟩
        · rcases List.mem_cons.mp hr with rfl | hr
          · rfl
          · exact h.object_eq id' c hc r hr hid
        · rcases List.mem_cons.mp hr with rfl | hr
          · exact absurd hid.symm hne
          · exact h.object_eq id' c' hc' r hr hid
      uncached := fun id' hid' r hr => by
        have hid' := (hnone id').mp hid'
        rcases List.mem_cons.mp hr with rfl | hr
        · rintro rfl
          rw [hc] at hid'
          cases hid'
        · exact h.uncached id' hid' r hr
      waiting := fun id' reply hw => (hnone id').mpr (h.waiting id' reply hw)
      link := by
        obtain ⟨released, hlink, hreleased, hkept⟩ := h.link
        exact ⟨released, hlink, fun id' hid' => (hnone id').mpr (hreleased id' hid'),
          fun id' hid' => (hkept id' hid').imp_left fun hne => mt (hnone id').mp hne⟩
      handling := h.handling
      replied := h.replied
      slot := h.slot
      spanned := fun id' hsp => h.spanned id' (hsp.imp_left fun hne => mt (hnone id').mpr hne)
      ended := fun id' hsp => h.ended id' fun hor =>
        hsp (hor.imp_left fun hne => mt (hnone id').mp hne) }

/-- A retain of a surface that is not cached asks the host. -/
theorem Lent.retain_miss (h : w.Lent) (hlock : w.waiting = none) {id : ℕ}
    (hc : w.surfaces id = none) :
    Lent { w.send (.retainIoSurface id) with waiting := some ⟨id, none⟩ } := by
  obtain ⟨hidle, released, hlink, hreleased, hkept⟩ := h.link_of_unlocked hlock
  have hunspanned : ¬w.Spanned id := by
    rintro (hne | ⟨reply, hreply⟩)
    · exact hne hc
    · rw [hlock] at hreply
      cases hreply
  have hsent : ∀ id', World.sentAbout
      { w.send (.retainIoSurface id) with waiting := some ⟨id, none⟩ } id' =
        w.sentAbout id' ++ if id = id' then [.retainIoSurface id] else [] :=
    fun id' => sentAbout_send w (.retainIoSurface id) id'
  exact
    { alive := h.alive
      kept_of_cached := h.kept_of_cached
      count_eq := h.count_eq
      object_eq := h.object_eq
      uncached := h.uncached
      waiting := fun id' reply hw => by
        cases hw
        exact hc
      link := by
        refine ⟨released, ?_, hreleased, fun id' hid' => (hkept id' hid').imp_right .inl⟩
        change w.link ++ [_] = _
        rw [hlink, asked, World.send, hidle]
      handling := fun id' surface hh => by
        change w.handling = _ at hh
        rw [hidle] at hh
        cases hh
      replied := fun id' reply hw => by cases hw
      slot := h.slot
      spanned := fun id' hsp => by
        rw [hsent]
        by_cases hid : id = id'
        · subst hid
          obtain ⟨n, hn⟩ := h.ended id hunspanned
          exact ⟨n, by rw [hn, if_pos rfl]⟩
        · rw [if_neg hid, List.append_nil]
          refine h.spanned id' (hsp.imp_right ?_)
          rintro ⟨reply, hw⟩
          cases hw
          exact absurd rfl hid
      ended := fun id' hsp => by
        have hid : id ≠ id' := by
          rintro rfl
          exact hsp (.inr ⟨none, rfl⟩)
        rw [hsent, if_neg hid, List.append_nil]
        refine h.ended id' fun hor => hsp (.inl (hor.resolve_right ?_))
        rintro ⟨reply, hw⟩
        rw [hlock] at hw
        cases hw }

/-- The answer taken. -/
theorem Lent.wake (h : w.Lent) {id : ℕ} {reply : Option Object}
    (hreply : w.waiting = some ⟨id, some reply⟩) : (w.wake id reply).Lent := by
  obtain ⟨hnil, hidle, object, rfl, hkept⟩ := h.replied id reply hreply
  have hc := h.waiting id _ hreply
  have hw : w.wake id (some object) =
      { w with
        waiting := none
        surfaces := Function.update w.surfaces id (some ⟨object, 1⟩)
        retained := (id, object) :: w.retained } := by
    rw [World.wake, hc]
    rfl
  have hcases : ∀ id' c', Function.update w.surfaces id (some ⟨object, 1⟩) id' = some c' →
      (id' = id ∧ c' = ⟨object, 1⟩) ∨ (id' ≠ id ∧ w.surfaces id' = some c') := by
    intro id' c' hc'
    by_cases hid : id' = id
    · subst hid
      rw [Function.update_self, Option.some_inj] at hc'
      exact .inl ⟨rfl, hc'.symm⟩
    · rw [Function.update_of_ne hid] at hc'
      exact .inr ⟨hid, hc'⟩
  have hnone : ∀ id', Function.update w.surfaces id (some ⟨object, 1⟩) id' = none →
      id' ≠ id ∧ w.surfaces id' = none := by
    intro id' hid'
    have hne : id' ≠ id := by
      rintro rfl
      rw [Function.update_self] at hid'
      cases hid'
    rw [Function.update_of_ne hne] at hid'
    exact ⟨hne, hid'⟩
  have hspanned : ∀ id', Function.update w.surfaces id (some ⟨object, 1⟩) id' ≠ none ↔
      w.Spanned id' := by
    intro id'
    by_cases hid : id' = id
    · subst hid
      rw [Function.update_self]
      exact iff_of_true (Option.some_ne_none _) (.inr ⟨_, hreply⟩)
    · rw [Function.update_of_ne hid]
      refine (or_iff_left ?_).symm
      rintro ⟨reply, hw⟩
      rw [hreply] at hw
      cases hw
      exact hid rfl
  rw [hw]
  exact
    { alive := h.alive
      kept_of_cached := fun id' c' hc' => by
        rcases hcases id' c' hc' with ⟨rfl, rfl⟩ | ⟨-, hc'⟩
        · exact hkept
        · exact h.kept_of_cached id' c' hc'
      count_eq := fun id' c' hc' => by
        have hlen := congrArg List.length (retainedOf_cons w id id' object)
        rcases hcases id' c' hc' with ⟨rfl, rfl⟩ | ⟨hne, hc'⟩
        · have hempty : w.retainedOf id' = [] :=
            List.filter_eq_nil_iff.mpr fun r hr hid =>
              h.uncached id' hc r hr (of_decide_eq_true hid)
          rw [if_pos rfl, hempty] at hlen
          exact ⟨Nat.one_pos, hlen.symm⟩
        · rw [if_neg hne.symm] at hlen
          exact ⟨(h.count_eq id' c' hc').1, (h.count_eq id' c' hc').2.trans hlen.symm⟩
      object_eq := fun id' c' hc' r hr hid => by
        rcases hcases id' c' hc' with ⟨rfl, rfl⟩ | ⟨hne, hc'⟩
        · rcases List.mem_cons.mp hr with rfl | hr
          · rfl
          · exact absurd hid (h.uncached id' hc r hr)
        · rcases List.mem_cons.mp hr with rfl | hr
          · exact absurd hid.symm hne
          · exact h.object_eq id' c' hc' r hr hid
      uncached := fun id' hid' r hr => by
        obtain ⟨hne, hid'⟩ := hnone id' hid'
        rcases List.mem_cons.mp hr with rfl | hr
        · exact hne.symm
        · exact h.uncached id' hid' r hr
      waiting := fun id' reply hw => by cases hw
      link := by
        obtain ⟨released, hlink, -, hkept'⟩ := h.link
        have hreleased : released = [] := by
          rw [hnil] at hlink
          exact List.map_eq_nil_iff.mp (List.append_eq_nil_iff.mp hlink.symm).1
        refine ⟨[], hnil, fun _ hid' => absurd hid' List.not_mem_nil, fun id' hid' => .inl ?_⟩
        rw [hspanned]
        refine (hkept' id' hid').imp_right fun hor => ?_
        rcases hor with hmem | ⟨reply, hw⟩
        · rw [hreleased] at hmem
          exact absurd hmem List.not_mem_nil
        · exact ⟨_, hw⟩
      handling := fun id' surface hh => by
        change w.handling = _ at hh
        rw [hidle] at hh
        cases hh
      replied := fun id' reply hw => by cases hw
      slot := h.slot
      spanned := fun id' hsp => by
        refine h.spanned id' ((hspanned id').mp (hsp.resolve_right ?_))
        rintro ⟨reply, hw⟩
        cases hw
      ended := fun id' hsp => h.ended id' fun hor => hsp (.inl ((hspanned id').mpr hor)) }

/-- Of the retains of an id, one less. -/
theorem retainedOf_middle {pre post : List (ℕ × Object)} {id : ℕ} {object : Object}
    (hretained : w.retained = pre ++ (id, object) :: post) (id' : ℕ) :
    (w.retainedOf id').length =
      (retainedOf { w with retained := pre ++ post } id').length + if id = id' then 1 else 0 := by
  rw [retainedOf, retainedOf, hretained, List.filter_append, List.filter_append,
    List.length_append, List.length_append, List.filter_cons]
  by_cases hid : id = id'
  · rw [if_pos (decide_eq_true hid), if_pos hid, List.length_cons]
    omega
  · rw [if_neg (by rwa [decide_eq_true_eq]), if_neg hid]
    rfl

/-- A release that does not end a span. -/
theorem Lent.release_some (h : w.Lent) {id : ℕ} {object : Object} {pre post : List (ℕ × Object)}
    (hretained : w.retained = pre ++ (id, object) :: post) {c : CachedSurface}
    (hc : w.surfaces id = some c) (hcount : c.count - 1 ≠ 0) :
    Lent { w with
      retained := pre ++ post
      surfaces := Function.update w.surfaces id (some { c with count := c.count - 1 }) } := by
  have hsub : pre ++ post ⊆ w.retained :=
    hretained ▸ ((List.sublist_cons_self _ _).append_left pre).subset
  have hnone := update_ne_none_iff hc { c with count := c.count - 1 }
  have hcases := @update_some_cases w.surfaces id { c with count := c.count - 1 }
  exact
    { alive := h.alive
      kept_of_cached := fun id' c' hc' => by
        rcases hcases id' c' hc' with ⟨rfl, rfl⟩ | ⟨-, hc'⟩
        · exact h.kept_of_cached id' c hc
        · exact h.kept_of_cached id' c' hc'
      count_eq := fun id' c' hc' => by
        have hlen := retainedOf_middle hretained id'
        rcases hcases id' c' hc' with ⟨rfl, rfl⟩ | ⟨hne, hc'⟩
        · rw [if_pos rfl, ← (h.count_eq id' c hc).2] at hlen
          exact ⟨Nat.pos_of_ne_zero hcount, by rw [hlen]; exact Nat.add_sub_cancel _ _⟩
        · rw [if_neg hne.symm, ← (h.count_eq id' c' hc').2] at hlen
          exact ⟨(h.count_eq id' c' hc').1, hlen⟩
      object_eq := fun id' c' hc' r hr hid => by
        rcases hcases id' c' hc' with ⟨rfl, rfl⟩ | ⟨hne, hc'⟩
        · exact h.object_eq id' c hc r (hsub hr) hid
        · exact h.object_eq id' c' hc' r (hsub hr) hid
      uncached := fun id' hid' r hr => h.uncached id' ((hnone id').mp hid') r (hsub hr)
      waiting := fun id' reply hw => (hnone id').mpr (h.waiting id' reply hw)
      link := by
        obtain ⟨released, hlink, hreleased, hkept⟩ := h.link
        exact ⟨released, hlink, fun id' hid' => (hnone id').mpr (hreleased id' hid'),
          fun id' hid' => (hkept id' hid').imp_left fun hne => mt (hnone id').mp hne⟩
      handling := h.handling
      replied := h.replied
      slot := h.slot
      spanned := fun id' hsp => h.spanned id' (hsp.imp_left fun hne => mt (hnone id').mpr hne)
      ended := fun id' hsp => h.ended id' fun hor =>
        hsp (hor.imp_left fun hne => mt (hnone id').mp hne) }

/-- The release that ends a span tells the host. -/
theorem Lent.release_last (h : w.Lent) (hlock : w.waiting = none) {id : ℕ} {object : Object}
    {pre post : List (ℕ × Object)} (hretained : w.retained = pre ++ (id, object) :: post)
    {c : CachedSurface} (hc : w.surfaces id = some c) (hcount : c.count - 1 = 0) :
    Lent (World.send
      { w with retained := pre ++ post, surfaces := Function.update w.surfaces id none }
      (.releaseIoSurface id)) := by
  obtain ⟨hidle, released, hlink, hreleased, hkept⟩ := h.link_of_unlocked hlock
  have hsub : pre ++ post ⊆ w.retained :=
    hretained ▸ ((List.sublist_cons_self _ _).append_left pre).subset
  have hne : ∀ id' c', Function.update w.surfaces id none id' = some c' →
      id' ≠ id ∧ w.surfaces id' = some c' := by
    intro id' c' hc'
    have hid : id' ≠ id := by
      rintro rfl
      rw [Function.update_self] at hc'
      cases hc'
    rw [Function.update_of_ne hid] at hc'
    exact ⟨hid, hc'⟩
  have hnone : ∀ id', id' ≠ id → Function.update w.surfaces id none id' = w.surfaces id' :=
    fun id' hid => Function.update_of_ne hid none w.surfaces
  have hself : Function.update w.surfaces id none id = none := Function.update_self ..
  have hunlocked : ∀ id', ¬∃ reply, w.waiting = some ⟨id', reply⟩ := by
    rintro id' ⟨reply, hw⟩
    rw [hlock] at hw
    cases hw
  have hsent : ∀ id', World.sentAbout (World.send
      { w with retained := pre ++ post, surfaces := Function.update w.surfaces id none }
      (.releaseIoSurface id)) id' =
        w.sentAbout id' ++ if id = id' then [.releaseIoSurface id] else [] :=
    fun id' => sentAbout_send
      { w with retained := pre ++ post, surfaces := Function.update w.surfaces id none }
      (.releaseIoSurface id) id'
  exact
    { alive := h.alive
      kept_of_cached := fun id' c' hc' => h.kept_of_cached id' c' (hne id' c' hc').2
      count_eq := fun id' c' hc' => by
        obtain ⟨hid, hc'⟩ := hne id' c' hc'
        have hlen := retainedOf_middle hretained id'
        rw [if_neg hid.symm, ← (h.count_eq id' c' hc').2] at hlen
        exact ⟨(h.count_eq id' c' hc').1, hlen⟩
      object_eq := fun id' c' hc' r hr hid =>
        h.object_eq id' c' (hne id' c' hc').2 r (hsub hr) hid
      uncached := fun id' hid' r hr => by
        by_cases hid : id' = id
        · subst hid
          have hlen := retainedOf_middle hretained id'
          obtain ⟨hpos, hlen'⟩ := h.count_eq id' c hc
          rw [if_pos rfl, ← hlen'] at hlen
          have hempty : retainedOf { w with retained := pre ++ post } id' = [] :=
            List.length_eq_zero_iff.mp (by omega)
          exact fun heq => List.filter_eq_nil_iff.mp hempty r hr (decide_eq_true heq)
        · exact h.uncached id' ((hnone id' hid).symm.trans hid') r (hsub hr)
      waiting := fun id' reply hw => absurd ⟨reply, hw⟩ (hunlocked id')
      link := by
        refine ⟨released ++ [id], ?_, fun id' hid' => ?_, fun id' hid' => ?_⟩
        · change w.link ++ [_] = _
          rw [hlink, asked, World.send, hlock, List.map_append, List.append_nil]
          rfl
        · by_cases hid : id' = id
          · subst hid
            exact hself
          · refine (hnone id' hid).trans (hreleased id' ?_)
            exact (List.mem_append.mp hid').resolve_right fun hmem =>
              hid (List.mem_singleton.mp hmem)
        · by_cases hid : id' = id
          · exact .inr (.inl (hid ▸ List.mem_append_right _ (List.mem_singleton_self _)))
          · refine (hkept id' hid').imp (fun hsome => ?_) fun hmem =>
              .inl (List.mem_append_left _ hmem)
            exact fun hn => hsome ((hnone id' hid).symm.trans hn)
      handling := fun id' surface hh => by
        change w.handling = _ at hh
        rw [hidle] at hh
        cases hh
      replied := fun id' reply hw => absurd ⟨_, hw⟩ (hunlocked id')
      slot := h.slot
      spanned := fun id' hsp => by
        have hsome := hsp.resolve_right (hunlocked id')
        have hid : id' ≠ id := by
          rintro rfl
          exact hsome hself
        rw [hsent, if_neg (Ne.symm hid), List.append_nil]
        exact h.spanned id' (.inl fun hn => hsome ((hnone id' hid).trans hn))
      ended := fun id' hsp => by
        rw [hsent]
        by_cases hid : id' = id
        · subst hid
          obtain ⟨n, hn⟩ := h.spanned id' (.inl (hc ▸ Option.some_ne_none c))
          refine ⟨n + 1, ?_⟩
          rw [if_pos rfl, spans, hn, List.append_assoc]
          rfl
        · rw [if_neg (Ne.symm hid), List.append_nil]
          exact h.ended id' fun hor => hsp (.inl fun hn =>
            (hor.resolve_right (hunlocked id')) ((hnone id' hid).symm.trans hn)) }

theorem Lent.releaseSurface (h : w.Lent) (hlock : w.waiting = none) {id : ℕ} {object : Object}
    {pre post : List (ℕ × Object)} (hretained : w.retained = pre ++ (id, object) :: post) :
    (w.releaseSurface id object (pre ++ post)).Lent := by
  have hmem : (id, object) ∈ w.retained := hretained ▸ List.mem_append_right _ List.mem_cons_self
  cases hc : w.surfaces id with
  | none => exact absurd rfl (h.uncached id hc _ hmem)
  | some c =>
    have hobject : object = c.object := h.object_eq id c hc _ hmem rfl
    simp only [World.releaseSurface, hc, hobject, ne_eq, not_true_eq_false, if_false]
    split_ifs with hcount
    · exact h.release_last hlock hretained hc hcount
    · exact h.release_some hretained hc hcount

/-! ### The host's steps -/

/-- A message that a retain waits for comes after every message of an ended span. -/
theorem Lent.lookUp (h : w.Lent) (hidle : w.handling = none) {id : ℕ} {rest : List ToHost}
    (hfirst : w.link = .retainIoSurface id :: rest) : (w.lookUp id rest).Lent := by
  obtain ⟨released, hlink, hreleased, hkept⟩ := h.link
  have hnil : released = [] ∧ w.asked = .retainIoSurface id :: rest := by
    cases released with
    | nil => exact ⟨rfl, (hlink.symm.trans hfirst)⟩
    | cons id' released =>
      rw [hfirst] at hlink
      cases hlink
  have hwaiting : w.waiting = some ⟨id, none⟩ ∧ rest = [] := by
    have hasked := hnil.2
    rw [asked, hidle] at hasked
    split at hasked
    · rename_i id' hw _
      cases hasked
      exact ⟨hw, rfl⟩
    · cases hasked
  obtain ⟨hwaiting, rfl⟩ := hwaiting
  exact
    { h with
      link := by
        refine ⟨[], ?_, fun _ hid' => absurd hid' List.not_mem_nil, hnil.1 ▸ hkept⟩
        change [] = [] ++ asked (w.lookUp id [])
        rw [asked, World.lookUp, hwaiting]
        rfl
      handling := fun id' surface hh => by
        cases hh
        exact ⟨rfl, hwaiting, fun s hs => hs⟩
      replied := fun id' reply hw => by
        change w.waiting = _ at hw
        rw [hwaiting] at hw
        cases hw }

/-- An answer of a surface keeps it for the service. -/
theorem Lent.answer (h : w.Lent) {id : ℕ} {s : Surface} (hhandling : w.handling = some (id, some s))
    (object : ℕ) : (w.answer id (some s) (some object)).Lent := by
  obtain ⟨hnil, hwaiting, hs⟩ := h.handling id (some s) hhandling
  obtain ⟨released, hlink, -, hkept⟩ := h.link
  have hreleased : released = [] := by
    rw [hnil] at hlink
    exact List.map_eq_nil_iff.mp (List.append_eq_nil_iff.mp hlink.symm).1
  have hc := h.waiting id none hwaiting
  have hnone : w.kept id = none := by
    by_contra hne
    rcases hkept id hne with hsome | hmem | ⟨reply, hw⟩
    · exact hsome hc
    · rw [hreleased] at hmem
      exact List.not_mem_nil hmem
    · rw [hwaiting] at hw
      cases hw
  have hw : w.answer id (some s) (some object) =
      { w with
        handling := none
        kept := Function.update w.kept id (some (some s))
        waiting := some ⟨id, some (some ⟨s, object⟩)⟩ } := by
    rw [World.answer, hnone, hwaiting]
    rfl
  have hself : Function.update w.kept id (some (some s)) id = some (some s) :=
    Function.update_self ..
  have hother : ∀ id', id' ≠ id → Function.update w.kept id (some (some s)) id' = w.kept id' :=
    fun id' hid => Function.update_of_ne hid _ w.kept
  have hspanned : ∀ id', (w.surfaces id' ≠ none ∨ ∃ reply,
      some (Waiting.mk id (some (some ⟨s, object⟩))) = some ⟨id', reply⟩) ↔ w.Spanned id' := by
    refine fun id' => or_congr_right ⟨?_, ?_⟩
    · rintro ⟨reply, hw⟩
      cases hw
      exact ⟨none, hwaiting⟩
    · rintro ⟨reply, hw⟩
      rw [hwaiting] at hw
      cases hw
      exact ⟨_, rfl⟩
  rw [hw]
  exact
    { alive := h.alive
      kept_of_cached := fun id' c hc' => by
        have hid : id' ≠ id := by
          rintro rfl
          rw [hc] at hc'
          cases hc'
        exact (hother id' hid).trans (h.kept_of_cached id' c hc')
      count_eq := h.count_eq
      object_eq := h.object_eq
      uncached := h.uncached
      waiting := fun id' reply hw => by
        cases hw
        exact hc
      link := by
        refine ⟨[], hnil, fun _ hid' => absurd hid' List.not_mem_nil, fun id' hid' => ?_⟩
        by_cases hid : id' = id
        · subst hid
          exact .inr (.inr ⟨_, rfl⟩)
        · have hne : w.kept id' ≠ none := fun hn => hid' ((hother id' hid).trans hn)
          rcases hkept id' hne with hsome | hmem | ⟨reply, hw⟩
          · exact .inl hsome
          · rw [hreleased] at hmem
            exact absurd hmem List.not_mem_nil
          · rw [hwaiting] at hw
            cases hw
      handling := fun id' surface hh => by cases hh
      replied := fun id' reply hw => by
        cases hw
        exact ⟨hnil, rfl, ⟨s, object⟩, rfl, hself⟩
      slot := fun id' entry he => by
        by_cases hid : id' = id
        · subst hid
          change Function.update w.kept id' (some (some s)) id' = some entry at he
          rw [hself, Option.some_inj] at he
          exact ⟨s, he.symm, hs s rfl⟩
        · exact h.slot id' entry ((hother id' hid).symm.trans he)
      spanned := fun id' hsp => h.spanned id' ((hspanned id').mp hsp)
      ended := fun id' hsp => h.ended id' fun hor => hsp ((hspanned id').mpr hor) }

/-- The message of an ended span drops its entry. -/
theorem Lent.drop (h : w.Lent) (hidle : w.handling = none) {id : ℕ} {rest : List ToHost}
    (hfirst : w.link = .releaseIoSurface id :: rest) : (w.drop id rest).Lent := by
  obtain ⟨released, hlink, hreleased, hkept⟩ := h.link
  obtain ⟨released, rfl⟩ : ∃ released', released = id :: released' := by
    cases released with
    | nil =>
      rw [hfirst, asked] at hlink
      split at hlink <;> cases hlink
    | cons id' released =>
      rw [hfirst] at hlink
      cases hlink
      exact ⟨released, rfl⟩
  have hrest : rest = released.map .releaseIoSurface ++ w.asked := by
    rw [hfirst] at hlink
    exact (List.cons_eq_cons.mp hlink).2
  have hself : Function.update w.kept id none id = none := Function.update_self ..
  have hother : ∀ id', id' ≠ id → Function.update w.kept id none id' = w.kept id' :=
    fun id' hid => Function.update_of_ne hid _ w.kept
  have hne : ∀ id' e, Function.update w.kept id none id' = some e →
      id' ≠ id ∧ w.kept id' = some e := by
    intro id' e he
    have hid : id' ≠ id := by
      rintro rfl
      rw [hself] at he
      cases he
    exact ⟨hid, (hother id' hid).symm.trans he⟩
  exact
    { h with
      kept_of_cached := fun id' c hc => by
        have hid : id' ≠ id := by
          rintro rfl
          cases (hreleased id' List.mem_cons_self).symm.trans hc
        exact (hother id' hid).trans (h.kept_of_cached id' c hc)
      link := by
        refine ⟨released, hrest, fun id' hid' => hreleased id' (List.mem_cons_of_mem id hid'),
          fun id' hid' => ?_⟩
        obtain ⟨e, he⟩ := Option.ne_none_iff_exists'.mp hid'
        obtain ⟨hid, he⟩ := hne id' e he
        exact (hkept id' (he ▸ Option.some_ne_none e)).imp_right fun hor =>
          hor.imp_left fun hmem => (List.mem_cons.mp hmem).resolve_left hid
      handling := fun id' surface hh => by
        change w.handling = _ at hh
        rw [hidle] at hh
        cases hh
      replied := fun id' reply hw => by
        obtain ⟨hnil, -⟩ := h.replied id' reply hw
        rw [hfirst] at hnil
        cases hnil
      slot := fun id' e he => h.slot id' e (hne id' e he).2 }

/-! ### The guest's steps -/

/-- The mapper's slots may change where nothing lent is in them. -/
theorem Lent.mapper (h : w.Lent) {mapper : QueueState}
    (hslots : ∀ i s, (w.mapper.slots i).surface = some s →
      ((∃ id, w.kept id = some (some s)) ∨ ∃ id, w.handling = some (id, some s)) →
        (mapper.slots i).surface = some s) : Lent { w with mapper } := by
  have hstays : ∀ id s, ((∃ id, w.kept id = some (some s)) ∨ ∃ id, w.handling = some (id, some s)) →
      retainSurfaceWithMappingId w.mapper id = some s →
        retainSurfaceWithMappingId mapper id = some s := by
    intro id s hheld hs
    obtain ⟨i, rfl, hne, hi⟩ := retainSurface_eq_some.mp hs
    exact retainSurface_eq_some.mpr ⟨i, rfl, hne, hslots i s hi hheld⟩
  exact
    { h with
      handling := fun id surface hh => by
        obtain ⟨hnil, hwaiting, hs⟩ := h.handling id surface hh
        refine ⟨hnil, hwaiting, fun s hsurface => hstays id s (.inr ⟨id, ?_⟩) (hs s hsurface)⟩
        rw [← hsurface]
        exact hh
      slot := fun id e he => by
        obtain ⟨s, rfl, hs⟩ := h.slot id e he
        exact ⟨s, rfl, hstays id s (.inl ⟨id, he⟩) hs⟩ }

theorem Lent.step (h : w.Lent) {a : Action} (hs : AnsweredStep w a w') : w'.Lent := by
  obtain ⟨hanswered, hs⟩ := hs
  cases hs with
  | retainSurface id hlock =>
    rw [World.retainSurface]
    split
    case h_1 c hc => exact h.retain_hit hc
    case h_2 hc => exact h.retain_miss hlock hc
  | wake hreply => exact h.wake hreply
  | releaseSurface hlock hretained => exact h.releaseSurface hlock hretained
  | lookUp hidle hlink => exact h.lookUp hidle hlink
  | answer hhandling object =>
    obtain ⟨hobject, id, s, hs⟩ := hanswered
    obtain ⟨k, rfl⟩ := Option.isSome_iff_exists.mp hobject
    obtain ⟨rfl, rfl⟩ := Prod.mk.inj (Option.some_inj.mp (hhandling.symm.trans hs))
    exact h.answer hhandling k
  | drop hidle hlink => exact h.drop hidle hlink
  | map _ hmap => exact h.mapper fun i s hs _ => map_keeps hmap hs
  | unmap hcounts hunmap =>
    exact h.mapper fun i s hs hheld => unmap_keeps hunmap hs (hcounts s hheld)

/-- What the two sides owe each other. -/
structure Agrees (w : World) : Prop where
  alive : w.died = false
  kept : ∀ id c, w.surfaces id = some c → w.kept id = some (some c.object.surface)
  /-- The guest's unmap of a cached surface is refused. -/
  busy : ∀ id c host mappingId, w.surfaces id = some c → mappingId.toNat = id → w.Counts host →
    IoSurface.unmap host w.mapper mappingId = .ok (w.mapper, .busy)
  count : ∀ id c, w.surfaces id = some c → c.count = (w.retainedOf id).length
  unretained : ∀ id, w.surfaces id = none → w.retainedOf id = []
  /-- Of each id the host was asked and told in turns, and asked last where it is cached or waited
  for. -/
  spanned : ∀ id, w.Spanned id → ∃ n, w.sentAbout id = spans id n ++ [.retainIoSurface id]
  ended : ∀ id, ¬w.Spanned id → ∃ n, w.sentAbout id = spans id n
  /-- With every message delivered, and its answer, the host keeps what the service caches. -/
  delivered : w.link = [] → w.handling = none → w.waiting = none →
    ∀ id, w.kept id ≠ none → w.surfaces id ≠ none

theorem Lent.agrees (h : w.Lent) : w.Agrees where
  alive := h.alive
  kept := h.kept_of_cached
  busy id c host mappingId hc hid hcounts := by
    have hkept := h.kept_of_cached id c hc
    obtain ⟨s, hs, hslot⟩ := h.slot id _ hkept
    obtain ⟨i, hi, hne, hsurface⟩ := retainSurface_eq_some.mp hslot
    have hindex : slotOf mappingId = some i := by
      have hlt : mappingId.toNat < mappingIdCount := by
        rw [hid, ← hi]
        exact i.isLt
      have hzero : mappingId ≠ 0 := by
        rintro rfl
        exact hne hid.symm
      rw [slotOf, dif_pos hlt, if_neg hzero]
      exact congrArg some (Fin.ext (hid.trans hi.symm))
    refine unmap_busy hindex hsurface (hcounts s (.inl ⟨id, ?_⟩))
    rw [hkept, hs]
  count id c hc := (h.count_eq id c hc).2
  unretained id hc := List.filter_eq_nil_iff.mpr fun r hr hid =>
    h.uncached id hc r hr (of_decide_eq_true hid)
  spanned := h.spanned
  ended := h.ended
  delivered hnil hidle hlock id hid := by
    obtain ⟨-, released, hlink, -, hkept⟩ := h.link_of_unlocked hlock
    have hreleased : released = [] := List.map_eq_nil_iff.mp (hlink.symm.trans hnil)
    refine (hkept id hid).resolve_right fun hmem => ?_
    rw [hreleased] at hmem
    exact List.not_mem_nil hmem

end World

end ReimsVgpu.IoSurface.Lending
