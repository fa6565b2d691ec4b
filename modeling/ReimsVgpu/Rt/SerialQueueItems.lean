import Mathlib.Data.List.Nodup
import ReimsVgpu.Rt.SerialQueue

/-!
# Who holds the serial queue

Whoever runs a block or a section holds the queue for the item started last, and no two threads hold
one item. One lemma an operation of the queue says so: an item is taken, an item joins, a turn is
granted, what ran gives the queue up.

## Main definitions

* `World.Owned`: who holds the queue, and the items' order.

## Main results

* `World.Owned.step`, `World.owned_new`.
-/

namespace ReimsVgpu.Rt.Queue

variable {τ : Type*}

namespace Phase

/-- The items that the thread runs or waits with. -/
def holds (p : Phase) : List Item := p.running ++ p.awaiting.map .caller

/-- Who notifies does not wait. -/
theorem woke_of_notifies {p : Phase} {c : Code} (h : p.notifies = some c) : p.woke = none := by
  cases p with
  | asleep | turnAsleep => cases h
  | _ => rfl

end Phase

namespace World

variable [DecidableEq τ] {w w' : World τ}

@[simp]
theorem threads_setPhase_self (w : World τ) (t : τ ⊕ ℕ) (p : Phase) :
    (w.setPhase t p).threads t = p :=
  Function.update_self _ _ _

theorem threads_setPhase_of_ne (w : World τ) {t t' : τ ⊕ ℕ} (h : t' ≠ t) (p : Phase) :
    (w.setPhase t p).threads t' = w.threads t' :=
  Function.update_of_ne h _ _

theorem setPhase_setPhase (w : World τ) (t : τ ⊕ ℕ) (p q : Phase) :
    (w.setPhase t p).setPhase t q = w.setPhase t q := by
  simp only [setPhase, Function.update_idem]

theorem setPhase_threads (w : World τ) (t : τ ⊕ ℕ) : w.setPhase t (w.threads t) = w := by
  simp only [setPhase, Function.update_eq_self]

/-! ### Who holds the queue -/

/-- The item that holds the queue, by who the queue says holds it. -/
def HeldBy (w : World τ) : Prop :=
  match w.owner with
  | .idle => w.finished = w.started
  | .worker => ∃ id, w.started = w.finished ++ [.block id]
  | .caller => ∃ turn, w.started = w.finished ++ [.caller turn]

/-- The items in their order; who runs, or has its turn, holds the queue for the item started last;
no item is of two threads, or twice of one; and a queued caller waits, and somebody runs what is
started and not finished, or has its turn. -/
structure Owned (w : World τ) : Prop where
  order : w.queued = w.started ++ w.items
  ids : w.queued.map Item.id = List.range w.queued.length
  owner : w.HeldBy
  running : ∀ t, ∀ it ∈ (w.threads t).running, w.started = w.finished ++ [it]
  granted : ∀ t, ∀ turn ∈ (w.threads t).awaiting, turn ∈ w.given →
    w.started = w.finished ++ [.caller turn]
  nodup : ∀ t, (w.threads t).holds.Nodup
  disjoint : ∀ t t', t ≠ t' → (w.threads t).holds.Disjoint (w.threads t').holds
  held : ∀ t, ∀ it ∈ (w.threads t).holds, it ∈ w.queued
  given : ∀ turn ∈ w.given, .caller turn ∈ w.started
  waits : ∀ turn, .caller turn ∈ w.items → ∃ t, turn ∈ (w.threads t).awaiting
  runs : ∀ it, w.started = w.finished ++ [it] → ∃ t, it ∈ (w.threads t).running ∨
    ∃ turn ∈ (w.threads t).awaiting, turn ∈ w.given ∧ it = .caller turn

namespace Owned

omit [DecidableEq τ] in
/-- What has started is no longer queued. -/
theorem notMem_items (h : w.Owned) {it : Item} (hit : it ∈ w.started) : it ∉ w.items := by
  have hnodup : w.queued.Nodup := List.Nodup.of_map Item.id (h.ids ▸ List.nodup_range)
  rw [h.order] at hnodup
  exact List.disjoint_of_nodup_append hnodup hit

omit [DecidableEq τ] in
theorem heldBy_idle (h : w.Owned) (hidle : w.owner = .idle) : w.finished = w.started := by
  have howner := h.owner
  rwa [HeldBy, hidle] at howner

omit [DecidableEq τ] in
/-- Nobody runs while nobody holds the queue. -/
theorem running_idle (h : w.Owned) (hidle : w.owner = .idle) (t : τ ⊕ ℕ) :
    (w.threads t).running = [] := by
  refine List.eq_nil_iff_forall_not_mem.mpr fun it hit => ?_
  have heq := h.running t it hit
  rw [h.heldBy_idle hidle] at heq
  simp at heq

omit [DecidableEq τ] in
/-- Nobody has its turn while nobody holds the queue. -/
theorem not_given_idle (h : w.Owned) (hidle : w.owner = .idle) {t : τ ⊕ ℕ} {turn : Turn}
    (hturn : turn ∈ (w.threads t).awaiting) : turn ∉ w.given := by
  intro hgiven
  have heq := h.granted t turn hturn hgiven
  rw [h.heldBy_idle hidle] at heq
  simp at heq

omit [DecidableEq τ] in
theorem block_notMem_idle (h : w.Owned) (hidle : w.owner = .idle) (t : τ ⊕ ℕ) (id : ℕ) :
    .block id ∉ (w.threads t).holds := by
  rw [Phase.holds, h.running_idle hidle]
  simp

omit [DecidableEq τ] in
/-- A step of one thread, from what it says of that thread and of the items. -/
theorem update (h : w.Owned) (t : τ ⊕ ℕ) (hothers : ∀ t', t' ≠ t → w'.threads t' = w.threads t')
    (horder : w'.queued = w'.started ++ w'.items)
    (hids : w'.queued.map Item.id = List.range w'.queued.length) (howner : w'.HeldBy)
    (hqueued : ∀ it ∈ w.queued, it ∈ w'.queued) (hgiven : ∀ turn ∈ w'.given, .caller turn ∈ w'.started)
    (hrunning : ∀ t', ∀ it ∈ (w'.threads t').running, w'.started = w'.finished ++ [it])
    (hgranted : ∀ t', ∀ turn ∈ (w'.threads t').awaiting, turn ∈ w'.given →
      w'.started = w'.finished ++ [.caller turn])
    (hnodup : (w'.threads t).holds.Nodup)
    (hnew : ∀ it ∈ (w'.threads t).holds, it ∈ (w.threads t).holds ∨
      it ∈ w'.queued ∧ ∀ t', t' ≠ t → it ∉ (w.threads t').holds)
    (hwaits : ∀ turn, .caller turn ∈ w'.items → ∃ t, turn ∈ (w'.threads t).awaiting)
    (hruns : ∀ it, w'.started = w'.finished ++ [it] → ∃ t, it ∈ (w'.threads t).running ∨
      ∃ turn ∈ (w'.threads t).awaiting, turn ∈ w'.given ∧ it = .caller turn) : w'.Owned := by
  have hapart : ∀ t', t' ≠ t → (w'.threads t).holds.Disjoint (w'.threads t').holds := by
    intro t' hne it hit hit'
    rw [hothers t' hne] at hit'
    rcases hnew it hit with hold | ⟨-, hnot⟩
    · exact h.disjoint t t' hne.symm hold hit'
    · exact hnot t' hne hit'
  refine ⟨horder, hids, howner, hrunning, hgranted, fun t' => ?_, fun t₁ t₂ hne => ?_,
    fun t' it hit => ?_, hgiven, hwaits, hruns⟩
  · rcases eq_or_ne t' t with rfl | hne
    · exact hnodup
    · rw [hothers t' hne]
      exact h.nodup t'
  · rcases eq_or_ne t₁ t with rfl | h₁
    · exact hapart t₂ hne.symm
    · rcases eq_or_ne t₂ t with rfl | h₂
      · exact fun it hit hit' => hapart t₁ h₁ hit' hit
      · rw [hothers t₁ h₁, hothers t₂ h₂]
        exact h.disjoint t₁ t₂ hne
  · rcases eq_or_ne t' t with rfl | hne
    · exact (hnew it hit).elim (fun hold => hqueued it (h.held t' it hold)) fun hnew => hnew.1
    · rw [hothers t' hne] at hit
      exact hqueued it (h.held t' it hit)

/-- A thread goes on to a phase of the same items, and nothing else of the books changes. -/
theorem rephase (h : w.Owned) {t : τ ⊕ ℕ} {p : Phase}
    (hthreads : w'.threads = Function.update w.threads t p)
    (hrunning : p.running = (w.threads t).running)
    (hawaiting : p.awaiting = (w.threads t).awaiting) (horder : w'.queued = w.queued)
    (hstarted : w'.started = w.started) (hitems : w'.items = w.items) (howner : w'.owner = w.owner)
    (hfinished : w'.finished = w.finished) (hgiven : w'.given = w.given) : w'.Owned := by
  have hself : w'.threads t = p := by rw [hthreads, Function.update_self]
  have hothers : ∀ t', t' ≠ t → w'.threads t' = w.threads t' := fun t' hne => by
    rw [hthreads, Function.update_of_ne hne]
  have hboth : ∀ t', (w'.threads t').running = (w.threads t').running ∧
      (w'.threads t').awaiting = (w.threads t').awaiting := by
    intro t'
    rcases eq_or_ne t' t with rfl | hne
    · rw [hself]
      exact ⟨hrunning, hawaiting⟩
    · rw [hothers t' hne]
      exact ⟨rfl, rfl⟩
  have hholds : (w'.threads t).holds = (w.threads t).holds := by
    rw [Phase.holds, Phase.holds, (hboth t).1, (hboth t).2]
  refine h.update t hothers ?_ ?_ ?_ ?_ ?_ ?_ ?_ ?_ ?_ ?_ ?_
  · rw [horder, hstarted, hitems, h.order]
  · rw [horder, h.ids]
  · rw [HeldBy, howner, hfinished, hstarted]
    exact h.owner
  · exact fun it hit => horder ▸ hit
  · rw [hgiven, hstarted]
    exact h.given
  · rw [hstarted, hfinished]
    exact fun t' it hit => h.running t' it ((hboth t').1 ▸ hit)
  · rw [hstarted, hfinished, hgiven]
    exact fun t' turn hturn => h.granted t' turn ((hboth t').2 ▸ hturn)
  · rw [hholds]
    exact h.nodup t
  · rw [hholds]
    exact fun it hit => .inl hit
  · simp only [hitems, hboth]
    exact h.waits
  · simp only [hstarted, hfinished, hgiven, hboth]
    exact h.runs

/-- An item comes off an idle queue, and its thread, if another than its waiting caller, runs it. -/
theorem take {t : τ ⊕ ℕ} {p p' : Phase} (h : (w.setPhase t p).Owned) (given : List Turn)
    (hidle : w.owner = .idle) {it : Item} {rest : List Item} (hitems : w.items = it :: rest)
    {owner : Owner}
    (howner : match owner with
      | .idle => False
      | .worker => ∃ id, it = .block id
      | .caller => ∃ turn, it = .caller turn)
    (hgiven : ∀ turn ∈ given, turn ∈ w.given ∨ it = .caller turn)
    (hrunning : ∀ i ∈ p'.running, i = it)
    (hawaiting : ∀ turn ∈ p'.awaiting, turn ∈ p.awaiting)
    (hnodup : p'.holds.Nodup)
    (hnew : it ∈ p'.holds → it ∈ p.holds ∨ ∃ id, it = .block id)
    (hstill : ∀ turn ∈ p.awaiting, turn ∈ p'.awaiting ∨ it = .caller turn)
    (hruns : it ∈ p'.running ∨ ∃ turn ∈ given, it = .caller turn ∧
      (turn ∈ p.awaiting → turn ∈ p'.awaiting)) :
    Owned { (w.take it rest owner).setPhase t p' with given } := by
  have hfinished : w.finished = w.started := h.heldBy_idle hidle
  have horder : w.queued = w.started ++ it :: rest := h.order.trans (by rw [← hitems]; rfl)
  have hothers : ∀ t', t' ≠ t → (((w.take it rest owner).setPhase t p').threads t') =
      (w.setPhase t p).threads t' := fun t' hne => by
    rw [threads_setPhase_of_ne _ hne, threads_setPhase_of_ne _ hne]
    rfl
  have hlast : w.started ++ [it] = w.finished ++ [it] := by rw [hfinished]
  have hself : ((w.take it rest owner).setPhase t p').threads t = p' := threads_setPhase_self _ _ _
  have hwaits : ∀ turn, .caller turn ∈ w.items → (turn ∈ p.awaiting → turn ∈ p'.awaiting) →
      ∃ t', turn ∈ (((w.take it rest owner).setPhase t p').threads t').awaiting := by
    intro turn hturn hkeeps
    obtain ⟨t', ht'⟩ := h.waits turn hturn
    refine ⟨t', ?_⟩
    rcases eq_or_ne t' t with rfl | hne
    · rw [threads_setPhase_self] at ht'
      rw [hself]
      exact hkeeps ht'
    · rwa [hothers t' hne]
  refine h.update t hothers ?_ h.ids ?_ (fun _ => id) ?_ ?_ ?_ ?_ ?_ ?_ ?_
  · change w.queued = (w.started ++ [it]) ++ rest
    rw [horder, List.append_assoc, List.singleton_append]
  · cases owner with
    | idle => exact howner.elim
    | worker =>
      obtain ⟨id, rfl⟩ := howner
      exact ⟨id, hlast⟩
    | caller =>
      obtain ⟨turn, rfl⟩ := howner
      exact ⟨turn, hlast⟩
  · intro turn hturn
    rcases hgiven turn hturn with hold | rfl
    · exact List.mem_append_left _ (h.given turn hold)
    · exact List.mem_append_right _ (List.mem_singleton_self _)
  · intro t' i hi
    rcases eq_or_ne t' t with rfl | hne
    · change i ∈ (((w.take it rest owner).setPhase t' p').threads t').running at hi
      rw [threads_setPhase_self] at hi
      rw [hrunning i hi]
      exact hlast
    · have hrun := hothers t' hne ▸ hi
      rw [h.running_idle hidle] at hrun
      cases hrun
  · intro t' turn hturn hmem
    have hold : turn ∈ ((w.setPhase t p).threads t').awaiting := by
      rcases eq_or_ne t' t with rfl | hne
      · change turn ∈ (((w.take it rest owner).setPhase t' p').threads t').awaiting at hturn
        rw [threads_setPhase_self] at hturn
        rw [threads_setPhase_self]
        exact hawaiting turn hturn
      · exact hothers t' hne ▸ hturn
    rcases hgiven turn hmem with hin | rfl
    · exact absurd hin (h.not_given_idle hidle hold)
    · exact hlast
  · change (((w.take it rest owner).setPhase t p').threads t).holds.Nodup
    rw [threads_setPhase_self]
    exact hnodup
  · intro i hi
    change i ∈ (((w.take it rest owner).setPhase t p').threads t).holds at hi
    rw [threads_setPhase_self] at hi
    rw [threads_setPhase_self]
    have hfresh : ∀ id, it = .block id → it ∈ w.queued ∧
        ∀ t', t' ≠ t → it ∉ ((w.setPhase t p).threads t').holds := by
      rintro id rfl
      refine ⟨?_, fun t' _ => h.block_notMem_idle hidle t' id⟩
      rw [horder]
      exact List.mem_append_right _ List.mem_cons_self
    rcases List.mem_append.mp hi with hrun | hwait
    · obtain rfl := hrunning i hrun
      exact (hnew hi).imp_right fun ⟨id, heq⟩ => hfresh id heq
    · obtain ⟨turn, hturn, rfl⟩ := List.mem_map.mp hwait
      exact .inl (List.mem_append_right _ (List.mem_map_of_mem (hawaiting turn hturn)))
  · intro turn hturn
    refine hwaits turn (hitems ▸ List.mem_cons_of_mem _ hturn) fun hin => ?_
    rcases hstill turn hin with hkeeps | rfl
    · exact hkeeps
    · have hnodup : w.queued.Nodup := List.Nodup.of_map Item.id (h.ids ▸ List.nodup_range)
      rw [horder] at hnodup
      exact absurd hturn (List.nodup_cons.mp (List.Nodup.of_append_right hnodup)).1
  · intro i hi
    obtain rfl : it = i := List.singleton_inj.mp (List.append_cancel_left (hlast.symm.trans hi))
    rcases hruns with hrun | ⟨turn, hturn, rfl, hkeeps⟩
    · exact ⟨t, .inl (hself.symm ▸ hrun)⟩
    · obtain ⟨t', ht'⟩ := hwaits turn (hitems ▸ List.mem_cons_self) hkeeps
      exact ⟨t', .inr ⟨turn, ht', hturn, rfl⟩⟩

omit [DecidableEq τ] in
/-- A new item's number is no other's. -/
theorem fresh (h : w.Owned) {it i : Item} (hit : it.id = w.queued.length) (hi : i ∈ w.queued) :
    i ≠ it := by
  rintro rfl
  have hmem : i.id ∈ List.range w.queued.length := h.ids ▸ List.mem_map_of_mem hi
  rw [hit] at hmem
  exact Nat.lt_irrefl _ (List.mem_range.mp hmem)

/-- An item joins the queue, with the thread that waits for it if it is a turn. -/
theorem push (h : w.Owned) {t : τ ⊕ ℕ} {p : Phase} {i : Item} (hit : i.id = w.queued.length)
    (hrunning : p.running = (w.threads t).running)
    (hawaiting : ∀ turn, turn ∈ p.awaiting ↔ turn ∈ (w.threads t).awaiting ∨ i = .caller turn)
    (hnodup : p.holds.Nodup) : ((w.push i).setPhase t p).Owned := by
  have hothers : ∀ t', t' ≠ t → ((w.push i).setPhase t p).threads t' = w.threads t' :=
    fun t' hne => threads_setPhase_of_ne _ hne _
  have hgivenNe : ∀ turn ∈ w.given, .caller turn ≠ i := fun turn hturn =>
    h.fresh hit (h.order ▸ List.mem_append_left _ (h.given turn hturn))
  have hstill : ∀ t' turn, turn ∈ (w.threads t').awaiting →
      turn ∈ (((w.push i).setPhase t p).threads t').awaiting := by
    intro t' turn hturn
    rcases eq_or_ne t' t with rfl | hne
    · rw [threads_setPhase_self]
      exact (hawaiting turn).mpr (.inl hturn)
    · rwa [hothers t' hne]
  refine h.update t hothers ?_ ?_ h.owner (fun _ => List.mem_append_left _) h.given ?_ ?_ ?_ ?_ ?_ ?_
  · change w.queued ++ [i] = w.started ++ (w.items ++ [i])
    rw [h.order, List.append_assoc]
  · change (w.queued ++ [i]).map Item.id = List.range (w.queued ++ [i]).length
    rw [List.map_append, h.ids, List.length_append, List.length_singleton, List.range_succ,
      List.map_singleton, hit]
  · intro t' i hi
    rcases eq_or_ne t' t with rfl | hne
    · rw [threads_setPhase_self, hrunning] at hi
      exact h.running t' i hi
    · rw [hothers t' hne] at hi
      exact h.running t' i hi
  · intro t' turn hturn hgiven
    rcases eq_or_ne t' t with rfl | hne
    · rw [threads_setPhase_self] at hturn
      rcases (hawaiting turn).mp hturn with hold | rfl
      · exact h.granted t' turn hold hgiven
      · exact absurd rfl (hgivenNe turn hgiven)
    · rw [hothers t' hne] at hturn
      exact h.granted t' turn hturn hgiven
  · rwa [threads_setPhase_self]
  · intro i hi
    rw [threads_setPhase_self] at hi
    rcases List.mem_append.mp hi with hrun | hwait
    · exact .inl (List.mem_append_left _ (hrunning ▸ hrun))
    · obtain ⟨turn, hturn, rfl⟩ := List.mem_map.mp hwait
      rcases (hawaiting turn).mp hturn with hold | rfl
      · exact .inl (List.mem_append_right _ (List.mem_map_of_mem hold))
      · refine .inr ⟨List.mem_append_right _ (List.mem_singleton_self _), fun t' _ hin => ?_⟩
        exact h.fresh hit (h.held t' _ hin) rfl
  · intro turn hturn
    rcases List.mem_append.mp hturn with hold | hnew
    · obtain ⟨t', ht'⟩ := h.waits turn hold
      exact ⟨t', hstill t' turn ht'⟩
    · refine ⟨t, ?_⟩
      rw [threads_setPhase_self]
      exact (hawaiting turn).mpr (.inr (List.mem_singleton.mp hnew).symm)
  · intro i hi
    obtain ⟨t', hrun | ⟨turn, hturn, hgiven, heq⟩⟩ := h.runs i hi
    · refine ⟨t', .inl ?_⟩
      rcases eq_or_ne t' t with rfl | hne
      · rwa [threads_setPhase_self, hrunning]
      · rwa [hothers t' hne]
    · exact ⟨t', .inr ⟨turn, hstill t' turn hturn, hgiven, heq⟩⟩

/-- A caller that has been given its turn runs. -/
theorem grant (h : w.Owned) {t : τ ⊕ ℕ} {p : Phase} {turn : Turn} (hgiven : turn ∈ w.given)
    (hrunning : p.running = .caller turn :: (w.threads t).running)
    (hawaiting : (w.threads t).awaiting = turn :: p.awaiting) : (w.setPhase t p).Owned := by
  have hperm : p.holds.Perm (w.threads t).holds := by
    rw [Phase.holds, Phase.holds, hrunning, hawaiting, List.map_cons, List.cons_append]
    exact List.perm_middle.symm
  have hothers : ∀ t', t' ≠ t → (w.setPhase t p).threads t' = w.threads t' :=
    fun t' hne => threads_setPhase_of_ne _ hne _
  have hturn : turn ∈ (w.threads t).awaiting := hawaiting ▸ List.mem_cons_self
  refine h.update t hothers h.order h.ids h.owner (fun _ => id) h.given ?_ ?_ ?_ ?_ ?_ ?_
  · intro t' i hi
    rcases eq_or_ne t' t with rfl | hne
    · rw [threads_setPhase_self, hrunning] at hi
      rcases List.mem_cons.mp hi with rfl | hi
      · exact h.granted t' turn hturn hgiven
      · exact h.running t' i hi
    · exact h.running t' i (hothers t' hne ▸ hi)
  · intro t' turn' hturn' hmem
    rcases eq_or_ne t' t with rfl | hne
    · rw [threads_setPhase_self] at hturn'
      exact h.granted t' turn' (hawaiting ▸ List.mem_cons_of_mem _ hturn') hmem
    · exact h.granted t' turn' (hothers t' hne ▸ hturn') hmem
  · rw [threads_setPhase_self]
    exact hperm.nodup_iff.mpr (h.nodup t)
  · rw [threads_setPhase_self]
    exact fun i hi => .inl (hperm.mem_iff.mp hi)
  · intro turn' hturn'
    obtain ⟨t', ht'⟩ := h.waits turn' hturn'
    refine ⟨t', ?_⟩
    rcases eq_or_ne t' t with rfl | hne
    · rw [threads_setPhase_self]
      rw [hawaiting] at ht'
      refine (List.mem_cons.mp ht').resolve_left ?_
      rintro rfl
      exact h.notMem_items (h.given turn' hgiven) hturn'
    · rwa [hothers t' hne]
  · intro i hi
    have hlast := h.granted t turn hturn hgiven
    obtain rfl : .caller turn = i :=
      List.singleton_inj.mp (List.append_cancel_left (hlast.symm.trans hi))
    refine ⟨t, .inl ?_⟩
    rw [threads_setPhase_self, hrunning]
    exact List.mem_cons_self

/-- What ran gives the queue up: nobody runs, and nobody has a turn. -/
theorem done (h : w.Owned) {t : τ ⊕ ℕ} {p : Phase} {it : Item}
    (hrunning : (w.threads t).running = it :: p.running)
    (hawaiting : p.awaiting = (w.threads t).awaiting) : ((w.done it).setPhase t p).Owned := by
  have hmem : it ∈ (w.threads t).running := hrunning ▸ List.mem_cons_self
  have hlast := h.running t it hmem
  have hholds : (w.threads t).holds = it :: p.holds := by
    rw [Phase.holds, Phase.holds, hrunning, hawaiting, List.cons_append]
  have hnot : it ∉ p.holds := (List.nodup_cons.mp (hholds ▸ h.nodup t)).1
  have hothers : ∀ t', t' ≠ t → ((w.done it).setPhase t p).threads t' = w.threads t' :=
    fun t' hne => threads_setPhase_of_ne _ hne _
  have hnone : ∀ t', it ∉ (((w.done it).setPhase t p).threads t').holds := by
    intro t'
    rcases eq_or_ne t' t with rfl | hne
    · rw [threads_setPhase_self]
      exact hnot
    · rw [hothers t' hne]
      exact fun hin => h.disjoint t t' hne.symm (List.mem_append_left _ hmem) hin
  have hsame : ∀ i, w.started = w.finished ++ [i] → i = it := fun i heq => by
    rw [hlast] at heq
    exact (List.singleton_inj.mp (List.append_cancel_left heq)).symm
  refine h.update t hothers h.order h.ids ?_ (fun _ => id) h.given ?_ ?_ ?_ ?_ ?_ ?_
  · exact hlast.symm
  · intro t' i hi
    have hrun : i ∈ (w.threads t').running := by
      rcases eq_or_ne t' t with rfl | hne
      · rw [threads_setPhase_self] at hi
        exact hrunning ▸ List.mem_cons_of_mem _ hi
      · exact hothers t' hne ▸ hi
    obtain rfl := hsame i (h.running t' i hrun)
    exact absurd (List.mem_append_left _ hi) (hnone t')
  · intro t' turn hturn hgiven
    have hwait : turn ∈ (w.threads t').awaiting := by
      rcases eq_or_ne t' t with rfl | hne
      · rw [threads_setPhase_self] at hturn
        exact hawaiting ▸ hturn
      · exact hothers t' hne ▸ hturn
    have heq := hsame _ (h.granted t' turn hwait hgiven)
    exact absurd (heq ▸ List.mem_append_right _ (List.mem_map_of_mem hturn)) (hnone t')
  · rw [threads_setPhase_self]
    exact (List.nodup_cons.mp (hholds ▸ h.nodup t)).2
  · rw [threads_setPhase_self]
    exact fun i hi => .inl (hholds ▸ List.mem_cons_of_mem _ hi)
  · intro turn hturn
    obtain ⟨t', ht'⟩ := h.waits turn hturn
    refine ⟨t', ?_⟩
    rcases eq_or_ne t' t with rfl | hne
    · rwa [threads_setPhase_self, hawaiting]
    · rwa [hothers t' hne]
  · intro i hi
    change w.started = w.finished ++ [it] ++ [i] at hi
    simp [← hlast] at hi

end Owned

/-! ### What each hold of the lock does -/

omit [DecidableEq τ] in
/-- The next item of an idle queue. -/
theorem step_eq_some {it : Item} {v : World τ} (h : w.step = some (it, v)) :
    w.owner = .idle ∧ ((∃ id rest, it = .block id ∧ w.items = .block id :: rest ∧
        v = w.take (.block id) rest .worker) ∨
      ∃ turn rest, it = .caller turn ∧ w.items = .caller turn :: rest ∧
        v = (w.take (.caller turn) rest .caller).give turn) := by
  rw [step] at h
  split_ifs at h with howner
  refine ⟨not_not.mp howner, ?_⟩
  split at h
  next => cases h
  next id rest hitems =>
    obtain ⟨rfl, rfl⟩ := Prod.mk.inj (Option.some.inj h)
    exact .inl ⟨id, rest, rfl, hitems, rfl⟩
  next turn rest hitems =>
    obtain ⟨rfl, rfl⟩ := Prod.mk.inj (Option.some.inj h)
    exact .inr ⟨turn, rest, rfl, hitems, rfl⟩

omit [DecidableEq τ] in
theorem step_eq_none (h : w.step = none) : w.owner = .idle → w.items = [] := by
  intro hidle
  rw [step, if_neg (not_not.mpr hidle)] at h
  split at h
  next hitems => exact hitems
  next => cases h
  next => cases h

namespace Owned

/-- A thread stands at another phase of the same items. -/
theorem replace {t : τ ⊕ ℕ} {p q : Phase} (h : (w.setPhase t p).Owned)
    (hrunning : q.running = p.running) (hawaiting : q.awaiting = p.awaiting) :
    (w.setPhase t q).Owned := by
  refine h.rephase (t := t) (p := q) (Function.update_idem _ _ _).symm ?_ ?_ rfl rfl rfl rfl rfl rfl
  · rw [threads_setPhase_self, hrunning]
  · rw [threads_setPhase_self, hawaiting]

omit [DecidableEq τ] in
/-- The books say nothing of the worker that there is. -/
theorem flags (h : w.Owned) {worker released : Bool} : Owned { w with worker, released } :=
  ⟨h.order, h.ids, h.owner, h.running, h.granted, h.nodup, h.disjoint, h.held, h.given, h.waits,
    h.runs⟩

theorem loop {t : τ ⊕ ℕ} {p : Phase} (h : (w.setPhase t p).Owned) (hrunning : p.running = [])
    (hawaiting : p.awaiting = []) (drained : Bool) : (w.loop t drained).Owned := by
  rw [World.loop]
  split
  next id v hstep =>
    obtain ⟨hidle, ⟨id', rest, heq, hitems, rfl⟩ | ⟨turn, rest, heq, -⟩⟩ := step_eq_some hstep
    · obtain rfl := Item.block.inj heq
      exact h.take w.given hidle hitems ⟨id, rfl⟩ (fun _ => .inl)
        (by simp [Phase.running, Code.running]) nofun (by simp [Phase.holds, Phase.running,
          Phase.awaiting, Code.running, Code.awaiting]) (fun _ => .inr ⟨id, rfl⟩)
        (by simp [hawaiting]) (.inl List.mem_cons_self)
    · cases heq
  next turn v hstep =>
    obtain ⟨hidle, ⟨id', rest, heq, -⟩ | ⟨turn', rest, heq, hitems, rfl⟩⟩ := step_eq_some hstep
    · cases heq
    · obtain rfl := Item.caller.inj heq
      exact h.take (turn :: w.given) hidle hitems ⟨turn, rfl⟩
        (fun _ hin => (List.mem_cons.mp hin).elim (fun heq => .inr (heq ▸ rfl)) .inl) nofun nofun
        List.nodup_nil nofun (by simp [hawaiting])
        (.inr ⟨turn, List.mem_cons_self, rfl, by simp [hawaiting]⟩)
  next =>
    split_ifs
    · exact h.replace hrunning.symm hawaiting.symm
    · have hout : (w.setPhase t (.code .outside)).Owned :=
        h.replace hrunning.symm hawaiting.symm
      exact hout.flags
    · exact h.replace hrunning.symm hawaiting.symm

theorem turnLoop {t : τ ⊕ ℕ} {p : Phase} {turn : Turn} {c : Code} (h : (w.setPhase t p).Owned)
    (hrunning : p.running = c.running) (hawaiting : p.awaiting = turn :: c.awaiting) :
    (w.turnLoop t turn c).Owned := by
  have hself := w.threads_setPhase_self t p
  have hnodup := h.nodup t
  rw [hself, Phase.holds, hrunning, hawaiting, List.map_cons] at hnodup
  have hnone : w.owner = .idle → c.running = [] := fun hidle => by
    have hrun := h.running_idle hidle t
    rwa [hself, hrunning] at hrun
  have hcons := List.perm_middle.nodup_iff.mp hnodup
  rw [World.turnLoop]
  split_ifs with hgiven hown
  · have hgrant := h.grant (p := .code (.inSync turn c)) hgiven (by rw [hself, hrunning]; rfl)
      (by rw [hself, hawaiting]; rfl)
    rwa [setPhase_setPhase] at hgrant
  · obtain ⟨hidle, hhead⟩ := hown
    obtain ⟨rest, hitems⟩ := List.head?_eq_some_iff.mp hhead
    have hrun := hnone hidle
    rw [hitems, List.tail_cons]
    refine h.take w.given hidle hitems ⟨turn, rfl⟩ (fun _ => .inl) ?_ ?_ hcons ?_ ?_
      (.inl List.mem_cons_self)
    · intro i hi
      change i ∈ Item.caller turn :: c.running at hi
      rw [hrun] at hi
      exact List.mem_singleton.mp hi
    · exact fun turn' hturn' => hawaiting ▸ List.mem_cons_of_mem _ hturn'
    · refine fun _ => .inl (List.mem_append_right _ ?_)
      rw [hawaiting]
      exact List.mem_cons_self
    · rw [hawaiting]
      exact fun turn' hturn' => (List.mem_cons.mp hturn').symm.imp_right (congrArg _ ·.symm)
  · split
    next id v hstep =>
      obtain ⟨hidle, ⟨id', rest, heq, hitems, rfl⟩ | ⟨turn, rest, heq, -⟩⟩ := step_eq_some hstep
      · obtain rfl := Item.block.inj heq
        have hrun := hnone hidle
        refine h.take w.given hidle hitems ⟨id, rfl⟩ (fun _ => .inl) ?_ ?_ ?_
          (fun _ => .inr ⟨id, rfl⟩) ?_ (.inl List.mem_cons_self)
        · intro i hi
          change i ∈ Item.block id :: c.running at hi
          rw [hrun] at hi
          exact List.mem_singleton.mp hi
        · exact fun turn' hturn' => hawaiting.symm ▸ hturn'
        · change (Item.block id :: (c.running ++ _)).Nodup
          refine List.nodup_cons.mpr ⟨?_, hnodup⟩
          rw [hrun]
          simp [Phase.awaiting, Code.awaiting]
        · rw [hawaiting]
          exact fun turn' => .inl
      · cases heq
    next turn' v hstep =>
      obtain ⟨hidle, ⟨id', rest, heq, -⟩ | ⟨turn'', rest, heq, hitems, rfl⟩⟩ := step_eq_some hstep
      · cases heq
      · obtain rfl := Item.caller.inj heq
        have hrun := hnone hidle
        refine h.take (turn' :: w.given) hidle hitems ⟨turn', rfl⟩
          (fun _ hin => (List.mem_cons.mp hin).elim (fun heq => .inr (heq ▸ rfl)) .inl) ?_ ?_
          hnodup (fun hin => .inl ?_) ?_ (.inr ⟨turn', List.mem_cons_self, rfl, ?_⟩)
        · intro i hi
          change i ∈ c.running at hi
          rw [hrun] at hi
          cases hi
        · exact fun turn' hturn' => hawaiting.symm ▸ hturn'
        · rw [Phase.holds, hrunning, hawaiting]
          exact hin
        · rw [hawaiting]
          exact fun turn'' => .inl
        · rw [hawaiting]
          exact id
    next => exact h.replace hrunning.symm hawaiting.symm

/-- A thread in code that has a caller's turn, before the turn is its own. -/
theorem pushTurn (h : w.Owned) {t : τ ⊕ ℕ} {c : Code} (ht : w.threads t = .code c) {turn : Turn}
    (hturn : turn.id = w.queued.length) {p : Phase} (hrunning : p.running = c.running)
    (hawaiting : p.awaiting = turn :: c.awaiting) :
    ((w.push (.caller turn)).setPhase t p).Owned := by
  refine h.push hturn ?_ ?_ ?_
  · rw [ht, hrunning]
    rfl
  · intro turn'
    rw [hawaiting, ht, List.mem_cons, or_comm, Item.caller.injEq, eq_comm (a := turn)]
    rfl
  · have hnodup := h.nodup t
    rw [ht] at hnodup
    rw [Phase.holds, hrunning, hawaiting, List.map_cons]
    refine List.perm_middle.nodup_iff.mpr (List.nodup_cons.mpr ⟨fun hin => ?_, hnodup⟩)
    have hold : .caller turn ∈ w.queued := h.held t _ (by rw [ht]; exact hin)
    have hid : (Item.caller turn).id = w.queued.length := hturn
    exact h.fresh hid hold rfl

theorem takeTurn (h : w.Owned) {t : τ ⊕ ℕ} {c : Code} (ht : w.threads t = .code c) :
    (w.takeTurn t c).Owned := by
  have hpush : ((w.push (.caller ⟨w.queued.length, c.onWorker⟩)).setPhase t
      (.waiting ⟨w.queued.length, c.onWorker⟩ c)).Owned := h.pushTurn ht rfl rfl rfl
  have hself := threads_setPhase_self (w.push (.caller ⟨w.queued.length, c.onWorker⟩)) t
    (.waiting ⟨w.queued.length, c.onWorker⟩ c)
  rw [World.takeTurn]
  split_ifs with hidle
  · obtain ⟨howner, hitems⟩ := hidle
    have hone : (w.push (.caller ⟨w.queued.length, c.onWorker⟩)).items =
        [.caller ⟨w.queued.length, c.onWorker⟩] := by
      change w.items ++ _ = _
      rw [hitems]
      rfl
    have hrun : c.running = [] := by
      have hrun := hpush.running_idle howner t
      rwa [hself] at hrun
    refine hpush.take w.given howner hone ⟨_, rfl⟩ (fun _ => .inl) ?_ ?_ ?_ ?_ ?_
      (.inl List.mem_cons_self)
    · intro i hi
      change i ∈ Item.caller _ :: c.running at hi
      rw [hrun] at hi
      exact List.mem_singleton.mp hi
    · exact fun _ => List.mem_cons_of_mem _
    · have hnodup := hpush.nodup t
      rw [hself] at hnodup
      exact List.perm_middle.nodup_iff.mp hnodup
    · exact fun _ => .inl (List.mem_append_right _ List.mem_cons_self)
    · exact fun turn' hturn' => (List.mem_cons.mp hturn').symm.imp_right (congrArg _ ·.symm)
  · exact hpush.turnLoop rfl rfl
  · exact hpush

theorem giveUp (h : w.Owned) {t : τ ⊕ ℕ} {turn : Turn} {c : Code}
    (ht : w.threads t = .code (.inSync turn c)) : (w.giveUp t turn c).Owned := by
  have hdone : ((w.done (.caller turn)).setPhase t (.code c)).Owned :=
    h.done (by rw [ht]; rfl) (by rw [ht]; rfl)
  have hrun : c.running = [] := by
    have hrun := hdone.running_idle rfl t
    rwa [threads_setPhase_self] at hrun
  have hnodup := hdone.nodup t
  rw [threads_setPhase_self] at hnodup
  rw [World.giveUp]
  split
  next next rest hitems =>
    have htake : ((((w.done (.caller turn)).take (.caller next) rest .caller).give next).setPhase t
        (.code c)).Owned :=
      hdone.take (next :: w.given) rfl hitems ⟨next, rfl⟩
        (fun _ hin => (List.mem_cons.mp hin).elim (fun heq => .inr (heq ▸ rfl)) .inl)
        (fun i hi => absurd (hrun ▸ hi : i ∈ []) List.not_mem_nil) (fun _ => id) hnodup .inl
        (fun _ => .inl) (.inr ⟨next, List.mem_cons_self, rfl, id⟩)
    split_ifs
    · exact htake.replace rfl rfl
    · exact htake
  next =>
    split_ifs
    · exact hdone.replace rfl rfl
    · exact hdone

/-- A worker starts: its thread holds nothing. -/
theorem startWorker (h : w.Owned) {t : τ ⊕ ℕ} {c : Code} (ht : w.threads t = .submitted true c)
    (hfresh : w.threads (.inr w.workers) = .code .outside) : (w.startWorker t c).Owned := by
  have hcode : (w.setPhase t (.code c)).Owned := by
    refine h.rephase rfl ?_ ?_ rfl rfl rfl rfl rfl rfl
    · rw [ht]
      rfl
    · rw [ht]
      rfl
  have hne : .inr w.workers ≠ t := by
    rintro rfl
    rw [ht] at hfresh
    cases hfresh
  refine hcode.rephase (p := .code .drain) (t := .inr w.workers) rfl ?_ ?_ rfl rfl rfl rfl rfl rfl
  · rw [threads_setPhase_of_ne _ hne, hfresh]
    rfl
  · rw [threads_setPhase_of_ne _ hne, hfresh]
    rfl

/-- A wait on the queue's condition that ends holds what it held. -/
theorem woke (h : w.Owned) {t : τ ⊕ ℕ} {p : Phase} (ht : (w.threads t).woke = some p) :
    (w.setPhase t p).Owned := by
  have hsame : p.running = (w.threads t).running ∧ p.awaiting = (w.threads t).awaiting := by
    cases hp : w.threads t <;> rw [hp] at ht <;> cases ht <;> exact ⟨rfl, rfl⟩
  exact h.rephase rfl hsame.1 hsame.2 rfl rfl rfl rfl rfl rfl

/-- A notify's thread goes back to its code. -/
theorem notifies (h : w.Owned) {t : τ ⊕ ℕ} {c : Code} (ht : (w.threads t).notifies = some c) :
    (w.setPhase t (.code c)).Owned := by
  have hsame : c.running = (w.threads t).running ∧ c.awaiting = (w.threads t).awaiting := by
    cases hp : w.threads t with
    | submitted start c' =>
      rw [hp] at ht
      cases start
      · obtain rfl := Option.some.inj ht
        exact ⟨rfl, rfl⟩
      · cases ht
    | notifying c' =>
      rw [hp] at ht
      obtain rfl := Option.some.inj ht
      exact ⟨rfl, rfl⟩
    | _ =>
      rw [hp] at ht
      cases ht
  exact h.rephase rfl hsame.1 hsame.2 rfl rfl rfl rfl rfl rfl

/-- A thread goes on where it holds what it held. -/
theorem goOn (h : w.Owned) {t : τ ⊕ ℕ} {p q : Phase} (ht : w.threads t = p)
    (hrunning : q.running = p.running) (hawaiting : q.awaiting = p.awaiting) :
    (w.setPhase t q).Owned :=
  h.rephase rfl (ht ▸ hrunning) (ht ▸ hawaiting) rfl rfl rfl rfl rfl rfl

/-- Every step keeps who holds the queue. -/
theorem step (h : w.Owned) (hfresh : w.threads (.inr w.workers) = .code .outside) {a : Action τ}
    (hs : Step w a w') : w'.Owned := by
  cases hs with
  | @execAsync t c _ ht =>
    have hnodup := h.nodup t
    rw [ht] at hnodup
    have hpush := h.push (p := .submitted (!w.worker) c) (i := .block w.queued.length) rfl
      (by rw [ht]; rfl) (fun _ => by simp [ht, Phase.awaiting]) hnodup
    exact hpush.flags
  | sync _ ht => exact h.takeTurn ht
  | syncNested ht _ => exact h.goOn ht rfl rfl
  | @dropHandle t c _ ht =>
    have hdrop : (w.setPhase t (.notifying c)).Owned := h.goOn ht rfl rfl
    exact hdrop.flags
  | @drained t ht =>
    have hsame : (w.setPhase t (.code .drain)).Owned := h.goOn ht rfl rfl
    exact hsame.loop rfl rfl true
  | blockRan ht =>
    have hdone := h.done (p := .asleep) (by rw [ht]; rfl) (by rw [ht]; rfl)
    exact hdone.loop rfl rfl false
  | @turnBlockRan t id turn c ht =>
    have hdone := h.done (p := .turnAsleep turn c) (by rw [ht]; rfl) (by rw [ht]; rfl)
    exact hdone.turnLoop rfl rfl
  | sectionRan ht => exact h.giveUp ht
  | nestedRan ht => exact h.goOn ht rfl rfl
  | start ht => exact h.startWorker ht hfresh
  | @notifyOne t t' c p ht ht' =>
    have hnotified := h.notifies ht
    have hne : t' ≠ t := by
      rintro rfl
      rw [Phase.woke_of_notifies ht] at ht'
      cases ht'
    exact hnotified.woke (by rwa [threads_setPhase_of_ne _ hne])
  | notifyNone ht _ => exact h.notifies ht
  | turned ht hgiven => exact h.grant hgiven (by rw [ht]; rfl) (by rw [ht]; rfl)
  | @woken t timedOut ht =>
    have hsame : (w.setPhase t (.woken timedOut)).Owned := h.goOn ht rfl rfl
    rw [wake]
    split_ifs
    · have hout : (w.setPhase t (.code .outside)).Owned := hsame.replace rfl rfl
      exact hout.flags
    · exact hsame.loop rfl rfl true
  | @turnWoken t turn c ht =>
    have hsame : (w.setPhase t (.turnWoken turn c)).Owned := h.goOn ht rfl rfl
    exact hsame.turnLoop rfl rfl
  | spurious ht => exact h.woke ht
  | timeout ht => exact h.goOn ht rfl rfl

end Owned

theorem owned_new : (new : World τ).Owned := by
  have hnone : ∀ t, ((new : World τ).threads t).holds = [] := fun t => by
    change Phase.holds (if t = .inr 0 then .code .drain else .code .outside) = []
    split_ifs <;> rfl
  refine ⟨rfl, rfl, rfl, fun t it hit => ?_, fun _ _ _ => nofun, fun t => ?_, fun t t' _ => ?_,
    fun t it hit => ?_, nofun, nofun, nofun⟩
  · have hin : it ∈ ((new : World τ).threads t).holds := List.mem_append_left _ hit
    rw [hnone] at hin
    cases hin
  · rw [hnone]
    exact List.nodup_nil
  · rw [hnone]
    exact List.disjoint_nil_left _
  · rw [hnone] at hit
    cases hit

end World

end ReimsVgpu.Rt.Queue
