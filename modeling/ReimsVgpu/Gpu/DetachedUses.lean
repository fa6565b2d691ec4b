import Mathlib.Data.List.Perm.Basic
import Mathlib.Data.List.Lookmap
import ReimsVgpu.Gpu.Detached

/-!
# The registry of detached objects answers as one that forgets nothing

A release is forgotten when no open command buffer was made before it, and a command buffer that may
still submit is open: so what is forgotten is asked for no more. Every answer that a live command
buffer's check acts on is that of a registry that forgets nothing, and each submission is failed or
noted once, in the hold of the lock that decides it.

## Main definitions

* `Detached.Exact`: the table answers for every open command buffer as the events do.
* `World.Kept`, `World.Accounted`: the live command buffers are open, and the submissions begun are
  pending, failed or noted.
* `World.Decided`: what a step decides.

## Main results

* `World.uses_decided`.
-/

namespace ReimsVgpu.Gpu.Backing

variable {τ : Type*}

/-! ### The answers of the events -/

theorem releasedSince_made_self (id : ObjectId) (made : ℕ) (log : List Event) :
    releasedSince id made (.made made :: log) = false := by
  simp [releasedSince]

theorem releasedSince_made_of_ne (id : ObjectId) {made n : ℕ} (h : n ≠ made) (log : List Event) :
    releasedSince id made (.made n :: log) = releasedSince id made log := by
  simp [releasedSince, h]

theorem releasedSince_detached (id i : ObjectId) (made : ℕ) (log : List Event) :
    releasedSince id made (.detached i :: log) = releasedSince id made log := by
  simp [releasedSince]

theorem releasedSince_attached (id i : ObjectId) (made : ℕ) (log : List Event) :
    releasedSince id made (.attached i :: log) = releasedSince id made log := by
  simp [releasedSince]

theorem releasedSince_released (id i : ObjectId) (made : ℕ) (log : List Event) :
    releasedSince id made (.released i :: log) = (decide (i = id) || releasedSince id made log) := by
  simp [releasedSince, eq_comm]

/-! ### The table -/

namespace Detached

/-- No object fails a command buffer that none can fail. -/
theorem fails_of_any {d : Detached τ} {made : ℕ} (h : d.any made = false) (id : ObjectId) :
    d.fails id made = false := by
  simp only [any, Bool.or_eq_false_iff, decide_eq_false_iff_not, not_not, List.any_eq_false,
    decide_eq_true_eq] at h
  obtain ⟨hdetached, hreleased⟩ := h
  cases hlookup : d.released.lookup id with
  | none => simp [fails, hdetached, hlookup]
  | some number =>
    have hmem : (id, number) ∈ d.released := by
      obtain ⟨l₁, l₂, heq, -⟩ := List.lookup_eq_some_iff.mp hlookup
      simp [heq]
    have hle := hreleased _ hmem
    simp only [not_lt] at hle
    simp [fails, hdetached, hlookup, hle]

/-- For every open command buffer, the table answers as the events do. -/
structure Exact (d : Detached τ) (log : List Event) : Prop where
  opened_lt : ∀ e ∈ d.opened, e.1 < d.next
  released_lt : ∀ e ∈ d.released, e.2 < d.next
  detached_eq : ∀ id, decide (id ∈ d.detached) = detachedNow id log
  since : ∀ e ∈ d.released, ∀ o ∈ d.opened, releasedSince e.1 o.1 log = decide (o.1 < e.2)
  kept : ∀ o ∈ d.opened, ∀ id, releasedSince id o.1 log = true → ∃ n, (id, n) ∈ d.released

theorem exact_new : (new : Detached τ).Exact [] where
  opened_lt _ he := absurd he List.not_mem_nil
  released_lt _ he := absurd he List.not_mem_nil
  detached_eq id := by simp [new, detachedNow]
  since _ he := absurd he List.not_mem_nil
  kept _ ho := absurd ho List.not_mem_nil

namespace Exact

variable {d : Detached τ} {log : List Event}

/-- An open command buffer fails as by the events. -/
theorem fails_eq (h : d.Exact log) {o : ℕ × Option τ} (ho : o ∈ d.opened) (id : ObjectId) :
    d.fails id o.1 = reference log id o.1 := by
  rw [fails, reference, h.detached_eq]
  congr 1
  cases hlookup : d.released.lookup id with
  | none =>
    rw [Option.any_none, eq_comm, Bool.eq_false_iff]
    intro hsince
    obtain ⟨n, hn⟩ := h.kept o ho id hsince
    have hne := List.lookup_eq_none_iff.mp hlookup _ hn
    simp at hne
  | some n =>
    obtain ⟨l₁, l₂, heq, -⟩ := List.lookup_eq_some_iff.mp hlookup
    have hmem : (id, n) ∈ d.released := by simp [heq]
    rw [Option.any_some, h.since _ hmem o ho]

theorem make (h : d.Exact log) (task : Option τ) :
    (d.make task).2.Exact (.made d.next :: log) where
  opened_lt e he := by
    rcases List.mem_append.mp he with he | he
    · exact (h.opened_lt e he).trans (Nat.lt_succ_self _)
    · obtain rfl := List.mem_singleton.mp he
      exact Nat.lt_succ_self _
  released_lt e he := (h.released_lt e he).trans (Nat.lt_succ_self _)
  detached_eq := h.detached_eq
  since e he o ho := by
    rcases List.mem_append.mp ho with ho | ho
    · rw [releasedSince_made_of_ne _ (h.opened_lt o ho).ne']
      exact h.since e he o ho
    · obtain rfl := List.mem_singleton.mp ho
      rw [eq_comm, releasedSince_made_self, decide_eq_false_iff_not]
      exact (h.released_lt e he).asymm
  kept o ho id hsince := by
    rcases List.mem_append.mp ho with ho | ho
    · rw [releasedSince_made_of_ne _ (h.opened_lt o ho).ne'] at hsince
      exact h.kept o ho id hsince
    · obtain rfl := List.mem_singleton.mp ho
      rw [releasedSince_made_self] at hsince
      cases hsince

/-- Whose task an open command buffer is of changes no answer. -/
theorem congr_opened (h : d.Exact log) {opened : List (ℕ × Option τ)}
    (hopened : ∀ e ∈ opened, ∃ o ∈ d.opened, o.1 = e.1) :
    Exact { d with opened } log where
  opened_lt e he := by
    obtain ⟨o, ho, heq⟩ := hopened e he
    exact heq ▸ h.opened_lt o ho
  released_lt := h.released_lt
  detached_eq := h.detached_eq
  since e he o ho := by
    obtain ⟨o', ho', heq⟩ := hopened o ho
    exact heq ▸ h.since e he o' ho'
  kept o ho := by
    obtain ⟨o', ho', heq⟩ := hopened o ho
    exact heq ▸ h.kept o' ho'

theorem commit (h : d.Exact log) (made : ℕ) : (d.commit made).Exact log := by
  refine h.congr_opened fun e he => ?_
  obtain ⟨o, ho, rfl⟩ := List.mem_map.mp he
  refine ⟨o, ho, ?_⟩
  split_ifs <;> rfl

theorem detach (h : d.Exact log) (id : ObjectId) :
    (d.detach id).Exact (.detached id :: log) where
  opened_lt := h.opened_lt
  released_lt := h.released_lt
  detached_eq i := by
    rw [detachedNow, ← h.detached_eq]
    simp [Detached.detach, eq_comm]
  since e he o ho := by
    rw [releasedSince_detached]
    exact h.since e he o ho
  kept o ho i hsince := by
    rw [releasedSince_detached] at hsince
    exact h.kept o ho i hsince

theorem attached (h : d.Exact log) (id : ObjectId) :
    (d.attached id).Exact (.attached id :: log) where
  opened_lt := h.opened_lt
  released_lt := h.released_lt
  detached_eq i := by
    rw [detachedNow, ← h.detached_eq]
    simp [Detached.attached, eq_comm]
  since e he o ho := by
    rw [releasedSince_attached]
    exact h.since e he o ho
  kept o ho i hsince := by
    rw [releasedSince_attached] at hsince
    exact h.kept o ho i hsince

/-- A release that is kept: it comes after every open command buffer's make. -/
theorem release (h : d.Exact log) (id : ObjectId) :
    (d.release id).Exact (.released id :: log) := by
  have hdetached : ∀ i, decide (i ∈ d.detached.erase id) = detachedNow i (.released id :: log) := by
    intro i
    rw [detachedNow, ← h.detached_eq]
    simp [eq_comm]
  have hlt : ∀ e ∈ d.opened, e.1 < d.next + 1 := fun e he =>
    (h.opened_lt e he).trans (Nat.lt_succ_self _)
  rw [Detached.release]
  dsimp only [number]
  split_ifs with hnil
  · refine ⟨hlt, fun e he => (h.released_lt e he).trans (Nat.lt_succ_self _), hdetached, ?_, ?_⟩
    · intro e _ o ho
      exact absurd ho (hnil ▸ List.not_mem_nil)
    · intro o ho
      exact absurd ho (hnil ▸ List.not_mem_nil)
  · refine ⟨hlt, ?_, hdetached, ?_, ?_⟩
    · intro e he
      rcases List.mem_cons.mp he with rfl | he
      · exact Nat.lt_succ_self _
      · exact (h.released_lt e (List.mem_of_mem_filter he)).trans (Nat.lt_succ_self _)
    · intro e he o ho
      rw [releasedSince_released]
      rcases List.mem_cons.mp he with rfl | he
      · simp [h.opened_lt o ho]
      · obtain ⟨he, hne⟩ := List.mem_filter.mp he
        have hne : id ≠ e.1 := (of_decide_eq_true hne).symm
        simp [hne, h.since e he o ho]
    · intro o ho i hsince
      rw [releasedSince_released, Bool.or_eq_true, decide_eq_true_eq] at hsince
      rcases eq_or_ne id i with rfl | hne
      · exact ⟨d.next, List.mem_cons_self⟩
      · obtain ⟨n, hn⟩ := h.kept o ho i (hsince.resolve_left hne)
        exact ⟨n, List.mem_cons_of_mem _ (List.mem_filter.mpr ⟨hn, decide_eq_true hne.symm⟩)⟩

/-- What is forgotten no open command buffer was made before. -/
theorem forget (h : d.Exact log) : d.forget.Exact log := by
  rw [Detached.forget]
  cases holdest : d.oldest with
  | none =>
    have hnil : d.opened = [] := by simpa [Detached.oldest] using holdest
    refine ⟨h.opened_lt, fun _ he => absurd he List.not_mem_nil, h.detached_eq,
      fun _ he => absurd he List.not_mem_nil, fun o ho => ?_⟩
    exact absurd ho (hnil ▸ List.not_mem_nil)
  | some oldest =>
    have hle : ∀ o ∈ d.opened, oldest ≤ o.1 := fun o ho =>
      (List.min?_eq_some_iff.mp holdest).2 o.1 (List.mem_map_of_mem ho)
    refine ⟨h.opened_lt, fun e he => h.released_lt e (List.mem_of_mem_filter he), h.detached_eq,
      fun e he => h.since e (List.mem_of_mem_filter he), fun o ho id hsince => ?_⟩
    obtain ⟨n, hn⟩ := h.kept o ho id hsince
    have hlt : o.1 < n := by
      rw [h.since _ hn o ho] at hsince
      exact of_decide_eq_true hsince
    exact ⟨n, List.mem_filter.mpr ⟨hn, decide_eq_true ((hle o ho).trans_lt hlt)⟩⟩

theorem closed (h : d.Exact log) (made : ℕ) (alive : ℕ → τ → Bool) :
    (d.closed made alive).Exact log := by
  have hopened : ∀ e ∈ (d.opened.filter fun e => decide (e.1 ≠ made)).filter
      (fun e => e.2.all (alive e.1)), ∃ o ∈ d.opened, o.1 = e.1 := fun e he =>
    ⟨e, List.mem_of_mem_filter (List.mem_of_mem_filter he), rfl⟩
  have hforget := (h.congr_opened hopened).forget
  exact ⟨hforget.opened_lt, hforget.released_lt, hforget.detached_eq, hforget.since, hforget.kept⟩

theorem submit (h : d.Exact log) (made : ℕ) (s : Submission) : (d.submit made s).Exact log :=
  ⟨h.opened_lt, h.released_lt, h.detached_eq, h.since, h.kept⟩

end Exact

theorem opened_forget (d : Detached τ) : d.forget.opened = d.opened := by
  rw [forget]
  split <;> rfl

theorem next_forget (d : Detached τ) : d.forget.next = d.next := by
  rw [forget]
  split <;> rfl

theorem submitted_forget (d : Detached τ) : d.forget.submitted = d.submitted := by
  rw [forget]
  split <;> rfl

theorem opened_release (d : Detached τ) (id : ObjectId) : (d.release id).opened = d.opened := by
  rw [release]
  dsimp only [number]
  split_ifs <;> rfl

theorem next_release (d : Detached τ) (id : ObjectId) : (d.release id).next = d.next + 1 := by
  rw [release]
  dsimp only [number]
  split_ifs <;> rfl

theorem submitted_release (d : Detached τ) (id : ObjectId) :
    (d.release id).submitted = d.submitted := by
  rw [release]
  dsimp only [number]
  split_ifs <;> rfl

theorem next_closed (d : Detached τ) (made : ℕ) (alive : ℕ → τ → Bool) :
    (d.closed made alive).next = d.next :=
  next_forget _

/-- What stays open at a close: all others but those whose task's life answers that it is over. -/
theorem mem_opened_closed (d : Detached τ) (made : ℕ) (alive : ℕ → τ → Bool)
    (e : ℕ × Option τ) :
    e ∈ (d.closed made alive).opened ↔
      e ∈ d.opened ∧ e.1 ≠ made ∧ e.2.all (alive e.1) = true := by
  change e ∈ (forget _).opened ↔ _
  rw [opened_forget, List.mem_filter, List.mem_filter, decide_eq_true_eq, and_assoc]

/-! ### What the runtime took -/

theorem lookup_filter_of_ne {β : Type*} (l : List (ℕ × β)) {m made : ℕ} (h : m ≠ made) :
    (l.filter fun e => decide (e.1 ≠ made)).lookup m = l.lookup m := by
  induction l with
  | nil => rfl
  | cons e l ih =>
    obtain ⟨n, x⟩ := e
    by_cases hn : n = made
    · have hne : (m == n) = false := by simpa [hn] using h
      rw [List.filter_cons_of_neg (by simp [hn]), ih, List.lookup_cons, hne]
    · rw [List.filter_cons_of_pos (by simp [hn]), List.lookup_cons, List.lookup_cons, ih]

theorem encoders_submit_self (d : Detached τ) (made : ℕ) (s : Submission) :
    (d.submit made s).encoders made = d.encoders made ++ [s.encoders] := by
  simp [encoders, submit]

theorem encoders_submit_of_ne (d : Detached τ) {made m : ℕ} (h : m ≠ made) (s : Submission) :
    (d.submit made s).encoders m = d.encoders m := by
  have hne : (m == made) = false := by simpa using h
  simp only [encoders, submit, List.lookup_cons, hne, lookup_filter_of_ne _ h]

theorem encoders_closed_of_ne (d : Detached τ) {made m : ℕ} (h : m ≠ made)
    (alive : ℕ → τ → Bool) : (d.closed made alive).encoders m = d.encoders m := by
  change (((forget _).submitted.filter fun e => decide (e.1 ≠ made)).lookup m).getD [] = _
  rw [lookup_filter_of_ne _ h, submitted_forget]
  rfl

end Detached

/-! ### The live command buffers -/

namespace World

variable {w w' : World τ}

/-- The table answers as the events do, and every live command buffer is open in it. -/
structure Kept (w : World τ) : Prop where
  exact : w.detached.Exact w.log
  nodup : w.cbs.Nodup
  cbs_lt : ∀ m ∈ w.cbs, m < w.detached.next
  opened : ∀ m, w.Live m →
    (m, if w.committed m = true then none else w.task m) ∈ w.detached.opened

theorem kept_new : (new : World τ).Kept where
  exact := Detached.exact_new
  nodup := List.nodup_nil
  cbs_lt _ hm := absurd hm List.not_mem_nil
  opened _ hm := absurd hm.1 List.not_mem_nil

namespace Kept

/-- A live command buffer fails as by the events. -/
theorem fails_eq (h : w.Kept) {m : ℕ} (hm : w.Live m) (id : ObjectId) :
    w.detached.fails id m = reference w.log id m :=
  h.exact.fails_eq (h.opened m hm) id

/-- No object fails a live command buffer that none can fail. -/
theorem reference_of_any (h : w.Kept) {m : ℕ} (hm : w.Live m) (hany : w.detached.any m = false)
    (id : ObjectId) : reference w.log id m = false := by
  rw [← h.fails_eq hm id]
  exact Detached.fails_of_any hany id

/-- A step that leaves the command buffers, and what is open of them. -/
theorem frame (h : w.Kept) (hexact : w'.detached.Exact w'.log) (hcbs : w'.cbs = w.cbs)
    (hnext : w.detached.next ≤ w'.detached.next) (hopened : w'.detached.opened = w.detached.opened)
    (htask : w'.task = w.task) (hcommitted : w'.committed = w.committed)
    (hlife : ∀ t, w'.life t = .running → w.life t = .running) : w'.Kept where
  exact := hexact
  nodup := hcbs ▸ h.nodup
  cbs_lt m hm := (h.cbs_lt m (hcbs ▸ hm)).trans_le hnext
  opened m hm := by
    rw [hopened, htask, hcommitted]
    refine h.opened m ⟨hcbs ▸ hm.1, ?_⟩
    refine hm.2.imp (fun hc => hcommitted ▸ hc) fun hruns t ht => ?_
    exact hlife t (hruns t (htask ▸ ht))

theorem make (h : w.Kept) (task : Option τ) : (w.make task).Kept where
  exact := h.exact.make task
  nodup := List.nodup_cons.mpr ⟨fun hmem => (h.cbs_lt _ hmem).ne rfl, h.nodup⟩
  cbs_lt m hm := by
    rcases List.mem_cons.mp hm with rfl | hm
    · exact Nat.lt_succ_self _
    · exact (h.cbs_lt m hm).trans (Nat.lt_succ_self _)
  opened m hm := by
    obtain ⟨hcb, hlive⟩ := hm
    simp only [World.make, Detached.make, Detached.number] at hcb hlive ⊢
    rcases List.mem_cons.mp hcb with rfl | hcb
    · simp
    · have hne : m ≠ w.detached.next := (h.cbs_lt m hcb).ne
      simp only [TaskRuns, Function.update_of_ne hne] at hlive ⊢
      exact List.mem_append_left _ (h.opened m ⟨hcb, hlive⟩)

theorem commit (h : w.Kept) {made : ℕ} : (w.commit made).Kept where
  exact := h.exact.commit made
  nodup := h.nodup
  cbs_lt := h.cbs_lt
  opened m hm := by
    obtain ⟨hcb, hlive⟩ := hm
    rcases eq_or_ne m made with rfl | hne
    · have hself : (w.commit m).committed m =
          (w.committed m || Decidable.decide (w.TaskRuns m)) := Function.update_self m _ _
      have hold : w.committed m = true ∨ w.TaskRuns m := by
        refine hlive.elim (fun hc => ?_) .inr
        rwa [hself, Bool.or_eq_true, decide_eq_true_eq] at hc
      have hsent : (w.commit m).committed m = true := by
        rwa [hself, Bool.or_eq_true, decide_eq_true_eq]
      rw [if_pos hsent]
      exact List.mem_map.mpr ⟨_, h.opened m ⟨hcb, hold⟩, if_pos rfl⟩
    · have hother : (w.commit made).committed m = w.committed m := Function.update_of_ne hne _ _
      rw [hother] at hlive ⊢
      exact List.mem_map.mpr ⟨_, h.opened m ⟨hcb, hlive⟩, if_neg hne⟩

/-- A close drops from the open ones only those of ended tasks. -/
theorem drop (h : w.Kept) {made : ℕ} {alive : ℕ → τ → Bool} {life : τ → Life}
    (hends : ∀ t, life t = .running → w.life t = .running)
    (hover : ∀ n t, alive n t = false → life t ≠ .running) :
    (w.drop made alive life).Kept where
  exact := h.exact.closed made alive
  nodup := h.nodup.erase made
  cbs_lt m hm := by
    change m < (w.detached.closed made alive).next
    rw [Detached.next_closed]
    exact h.cbs_lt m (List.mem_of_mem_erase hm)
  opened m hm := by
    obtain ⟨hcb, hlive⟩ := hm
    obtain ⟨hne, hcb⟩ := h.nodup.mem_erase_iff.mp hcb
    have hold : w.Live m := ⟨hcb, hlive.imp_right fun hruns t ht => hends t (hruns t ht)⟩
    refine (Detached.mem_opened_closed _ _ _ _).mpr ⟨h.opened m hold, hne, ?_⟩
    change (if w.committed m = true then none else w.task m).all (alive m) = true
    split_ifs with hc
    · rfl
    · rw [Option.all_eq_true]
      intro t ht
      by_contra hdead
      exact hover m t (Bool.eq_false_iff.mpr hdead) (hlive.resolve_left hc t ht)

/-- Every step keeps the live command buffers open. -/
theorem step [DecidableEq τ] (h : w.Kept) {a : Action τ} (hs : Step w a w') : w'.Kept := by
  have hle : w.detached.next ≤ w.detached.next := le_rfl
  cases hs with
  | make task => exact h.make task
  | commit => exact h.commit
  | drop _ _ hends _ hover => exact h.drop hends hover
  | detach i => exact h.frame (h.exact.detach i) rfl hle rfl rfl rfl fun _ => id
  | attach i => exact h.frame (h.exact.attached i) rfl hle rfl rfl rfl fun _ => id
  | release i =>
    exact h.frame (h.exact.release i) rfl
      ((Nat.le_succ _).trans_eq (Detached.next_release _ i).symm)
      (Detached.opened_release _ i) rfl rfl fun _ => id
  | submit s _ _ =>
    rw [World.submit]
    dsimp only
    split_ifs
    · exact h.frame h.exact rfl hle rfl rfl rfl fun _ => id
    · exact h.frame (h.exact.submit _ s) rfl hle rfl rfl rfl fun _ => id
  | uses used _ =>
    rw [World.uses]
    split_ifs
    · exact h.frame h.exact rfl hle rfl rfl rfl fun _ => id
    · exact h.frame h.exact rfl hle rfl rfl rfl fun _ => id
  | @decide call _ =>
    cases call with
    | submit made s =>
      rw [World.decide]
      dsimp only
      split_ifs
      · exact h.frame h.exact rfl hle rfl rfl rfl fun _ => id
      · exact h.frame (h.exact.submit _ s) rfl hle rfl rfl rfl fun _ => id
    | uses made used => exact h.frame h.exact rfl hle rfl rfl rfl fun _ => id
  | endTask t hlife =>
    refine h.frame h.exact rfl hle rfl rfl rfl fun t' ht' => ?_
    rcases eq_or_ne t' t with rfl | hne
    · exact absurd ((Function.update_self t' _ w.life).symm.trans ht') hlife
    · exact (Function.update_of_ne hne _ w.life).symm.trans ht'

end Kept

theorem kept_of_execution [DecidableEq τ] {as : List (Action τ)} (h : Execution Step new as w) :
    w.Kept :=
  h.invariant kept_new fun _ _ _ hk hs => hk.step hs

/-! ### The submissions -/

/-- The submissions whose check has let go of the lock. -/
def pending (w : World τ) : List (ℕ × Submission) := w.calls.filterMap Call.submission

/-- The encoders of the submissions noted of a command buffer. -/
def notedOf (w : World τ) (made : ℕ) : List (ℕ × ℕ) :=
  (w.noted.filter fun e => e.1 = made).map fun e => e.2.encoders

/-- The submissions begun are pending, failed or noted, each in one way, and those noted of a command
buffer that has not dropped stand in the table. -/
structure Accounted (w : World τ) : Prop where
  submitted_lt : ∀ e ∈ w.detached.submitted, e.1 < w.detached.next
  noted_lt : ∀ e ∈ w.noted, e.1 < w.detached.next
  encoders : ∀ m ∈ w.cbs, w.detached.encoders m = w.notedOf m
  begun : w.begun.Perm (w.pending ++ w.failed ++ w.noted)
  calls : ∀ c ∈ w.calls, c.made ∈ w.cbs ∧ (c.submission ≠ none → w.committed c.made = true)

theorem accounted_new : (new : World τ).Accounted where
  submitted_lt _ he := absurd he List.not_mem_nil
  noted_lt _ he := absurd he List.not_mem_nil
  encoders _ hm := absurd hm List.not_mem_nil
  begun := .refl _
  calls _ hc := absurd hc List.not_mem_nil

theorem pending_erase {call : Call} (h : call ∈ w.calls) :
    w.pending.Perm (call.submission.toList ++ (w.calls.erase call).filterMap Call.submission) := by
  have hperm := (List.perm_cons_erase h).filterMap Call.submission
  rw [List.filterMap_cons] at hperm
  cases hsub : call.submission with
  | none =>
    rw [hsub] at hperm
    exact hperm
  | some x =>
    rw [hsub] at hperm
    exact hperm

namespace Accounted

/-- A step that decides no submission and closes no command buffer. -/
theorem frame (h : w.Accounted) (hsubmitted : w'.detached.submitted = w.detached.submitted)
    (hnext : w.detached.next ≤ w'.detached.next) (hcbs : w'.cbs = w.cbs)
    (hcommitted : ∀ m, w.committed m = true → w'.committed m = true)
    (hnoted : w'.noted = w.noted) (hbegun : w'.begun.Perm (w'.pending ++ w'.failed ++ w.noted))
    (hcalls : ∀ c ∈ w'.calls,
      c ∈ w.calls ∨ c.made ∈ w.cbs ∧ (c.submission ≠ none → w.committed c.made = true)) :
    w'.Accounted where
  submitted_lt e he := (h.submitted_lt e (hsubmitted ▸ he)).trans_le hnext
  noted_lt e he := (h.noted_lt e (hnoted ▸ he)).trans_le hnext
  encoders m hm := by
    rw [Detached.encoders, hsubmitted, notedOf, hnoted]
    exact h.encoders m (hcbs ▸ hm)
  begun := hnoted.symm ▸ hbegun
  calls c hc := by
    obtain ⟨hmade, hsent⟩ := (hcalls c hc).elim (h.calls c) id
    exact ⟨hcbs.symm ▸ hmade, fun hsub => hcommitted _ (hsent hsub)⟩

/-- A submission noted. -/
theorem note (h : w.Accounted) (hk : w.Kept) {made : ℕ} {s : Submission} (hcb : made ∈ w.cbs)
    {begun : List (ℕ × Submission)} {calls : List Call}
    (hcalls : ∀ c ∈ calls, c ∈ w.calls)
    (hbegun : begun.Perm (calls.filterMap Call.submission ++ w.failed ++ w.noted ++ [(made, s)])) :
    (note { w with begun, calls } made s).Accounted where
  submitted_lt e he := by
    rcases List.mem_cons.mp he with rfl | he
    · exact hk.cbs_lt made hcb
    · exact h.submitted_lt e (List.mem_of_mem_filter he)
  noted_lt e he := by
    rcases List.mem_append.mp he with he | he
    · exact h.noted_lt e he
    · obtain rfl := List.mem_singleton.mp he
      exact hk.cbs_lt made hcb
  encoders m hm := by
    change (w.detached.submit made s).encoders m =
      ((w.noted ++ [(made, s)]).filter fun e => e.1 = m).map fun e => e.2.encoders
    rw [List.filter_append, List.map_append]
    rcases eq_or_ne m made with rfl | hne
    · rw [Detached.encoders_submit_self, h.encoders m hm, List.filter_singleton, decide_eq_true rfl]
      rfl
    · rw [Detached.encoders_submit_of_ne _ hne, h.encoders m hm, List.filter_singleton,
        decide_eq_false hne.symm]
      exact (List.append_nil _).symm
  begun := by
    change begun.Perm (calls.filterMap Call.submission ++ w.failed ++ (w.noted ++ [(made, s)]))
    rwa [← List.append_assoc]
  calls c hc := h.calls c (hcalls c hc)

theorem drop (h : w.Accounted) (hk : w.Kept) {made : ℕ} {alive : ℕ → τ → Bool} {life : τ → Life}
    (hcalls : ∀ c ∈ w.calls, c.made ≠ made) : (w.drop made alive life).Accounted where
  submitted_lt e he := by
    change e ∈ (Detached.forget _).submitted.filter _ at he
    rw [Detached.submitted_forget] at he
    change e.1 < (w.detached.closed made alive).next
    rw [Detached.next_closed]
    exact h.submitted_lt e (List.mem_of_mem_filter he)
  noted_lt e he := by
    change e.1 < (w.detached.closed made alive).next
    rw [Detached.next_closed]
    exact h.noted_lt e he
  encoders m hm := by
    obtain ⟨hne, hm⟩ := hk.nodup.mem_erase_iff.mp hm
    exact (Detached.encoders_closed_of_ne _ hne alive).trans (h.encoders m hm)
  begun := h.begun
  calls c hc := by
    obtain ⟨hmade, hsent⟩ := h.calls c hc
    exact ⟨hk.nodup.mem_erase_iff.mpr ⟨hcalls c hc, hmade⟩, hsent⟩

theorem make (h : w.Accounted) (hk : w.Kept) (task : Option τ) : (w.make task).Accounted where
  submitted_lt e he := (h.submitted_lt e he).trans (Nat.lt_succ_self _)
  noted_lt e he := (h.noted_lt e he).trans (Nat.lt_succ_self _)
  encoders m hm := by
    rcases List.mem_cons.mp hm with rfl | hm
    · have hlookup : w.detached.submitted.lookup w.detached.next = none := by
        refine List.lookup_eq_none_iff.mpr fun e he => ?_
        exact bne_iff_ne.mpr (h.submitted_lt e he).ne'
      have hnoted : w.notedOf w.detached.next = [] := by
        rw [notedOf, List.map_eq_nil_iff, List.filter_eq_nil_iff]
        intro e he
        simp [(h.noted_lt e he).ne]
      change (w.detached.submitted.lookup w.detached.next).getD [] = w.notedOf w.detached.next
      rw [hlookup, hnoted]
      rfl
    · exact h.encoders m hm
  begun := h.begun
  calls c hc := by
    obtain ⟨hmade, hsent⟩ := h.calls c hc
    refine ⟨List.mem_cons_of_mem _ hmade, fun hsub => ?_⟩
    exact (Function.update_of_ne (hk.cbs_lt _ hmade).ne _ _).trans (hsent hsub)

theorem submit (h : w.Accounted) (hk : w.Kept) {made : ℕ} (s : Submission) (hcb : made ∈ w.cbs)
    (hcommitted : w.committed made = true) : (w.submit made s).Accounted := by
  rw [World.submit]
  dsimp only
  split_ifs
  · refine h.frame rfl le_rfl rfl (fun _ => id) rfl ?_ fun c hc => ?_
    · have hfirst : (w.begun ++ [(made, s)]).Perm ((made, s) :: w.begun) :=
        List.perm_append_singleton _ _
      exact hfirst.trans (h.begun.cons (made, s))
    · rcases List.mem_cons.mp hc with rfl | hc
      · exact .inr ⟨hcb, fun _ => hcommitted⟩
      · exact .inl hc
  · exact h.note hk hcb (fun _ => id) (h.begun.append_right _)

theorem uses (h : w.Accounted) {made : ℕ} (used : List ObjectId) (hcb : made ∈ w.cbs) :
    (w.uses made used).Accounted := by
  rw [World.uses]
  split_ifs
  · refine h.frame rfl le_rfl rfl (fun _ => id) rfl h.begun fun c hc => ?_
    rcases List.mem_cons.mp hc with rfl | hc
    · exact .inr ⟨hcb, fun hsub => absurd rfl hsub⟩
    · exact .inl hc
  · exact h.frame rfl le_rfl rfl (fun _ => id) rfl h.begun fun _ => .inl

theorem decide (h : w.Accounted) (hk : w.Kept) {call : Call} (hcall : call ∈ w.calls) :
    (w.decide call).Accounted := by
  have hpending := pending_erase hcall
  have hmem : ∀ c ∈ w.calls.erase call, c ∈ w.calls := fun _ => List.mem_of_mem_erase
  cases call with
  | submit made s =>
    have hbegun : w.begun.Perm
        ((made, s) :: ((w.calls.erase (.submit made s)).filterMap Call.submission ++ w.failed ++
          w.noted)) :=
      h.begun.trans ((hpending.append_right _).append_right _)
    rw [World.decide]
    dsimp only
    split_ifs
    · refine h.frame rfl le_rfl rfl (fun _ => id) rfl ?_ fun c hc => .inl (hmem c hc)
      refine hbegun.trans ?_
      change List.Perm _ ((w.calls.erase (.submit made s)).filterMap Call.submission ++
        (w.failed ++ [(made, s)]) ++ w.noted)
      rw [← List.append_assoc, List.append_assoc _ [(made, s)]]
      exact List.perm_middle.symm
    · exact h.note hk (h.calls _ hcall).1 hmem
        (hbegun.trans (List.perm_append_singleton _ _).symm)
  | uses made used =>
    exact h.frame rfl le_rfl rfl (fun _ => id) rfl
      (h.begun.trans ((hpending.append_right _).append_right _)) fun c hc => .inl (hmem c hc)

/-- Every step keeps the submissions accounted for. -/
theorem step [DecidableEq τ] (h : w.Accounted) (hk : w.Kept) {a : Action τ} (hs : Step w a w') :
    w'.Accounted := by
  cases hs with
  | make task => exact h.make hk task
  | @commit made _ =>
    refine h.frame rfl le_rfl rfl (fun m hm => ?_) rfl h.begun fun _ => .inl
    change Function.update w.committed made _ m = true
    rcases eq_or_ne m made with rfl | hne
    · rw [Function.update_self, hm, Bool.true_or]
    · rwa [Function.update_of_ne hne]
  | drop _ hcalls => exact h.drop hk hcalls
  | detach => exact h.frame rfl le_rfl rfl (fun _ => id) rfl h.begun fun _ => .inl
  | attach => exact h.frame rfl le_rfl rfl (fun _ => id) rfl h.begun fun _ => .inl
  | release i =>
    exact h.frame (Detached.submitted_release _ i)
      ((Nat.le_succ _).trans_eq (Detached.next_release _ i).symm) rfl (fun _ => id) rfl h.begun
      fun _ => .inl
  | submit s hcb hcommitted => exact h.submit hk s hcb hcommitted
  | uses used hcb => exact h.uses used hcb
  | decide hcall => exact h.decide hk hcall
  | endTask => exact h.frame rfl le_rfl rfl (fun _ => id) rfl h.begun fun _ => .inl

end Accounted

theorem accounted_of_execution [DecidableEq τ] {as : List (Action τ)}
    (h : Execution Step new as w) : w.Accounted := by
  induction h with
  | nil => exact accounted_new
  | snoc h hs ih => exact ih.step (kept_of_execution h) hs

/-! ### What a step decides -/

/-- A submission is failed or noted by the step that decides it, as the events before that step say of
what it uses; a look at what a command buffer uses answers so as long as the command buffer is live;
and no other step fails, notes or answers. -/
def Decided (w : World τ) : Action τ → World τ → Prop
  | .submit made s, w' =>
    w'.failed = w.failed ∧ w'.answers = w.answers ∧
      ((w'.noted = w.noted ++ [(made, s)] ∧ w'.calls = w.calls ∧
          ∀ id, reference w.log id made = false) ∨
        (w'.noted = w.noted ∧ w'.calls = .submit made s :: w.calls))
  | .decide (.submit made s), w' =>
    w'.calls = w.calls.erase (.submit made s) ∧ w'.answers = w.answers ∧
      if s.used.any (reference w.log · made) then
        w'.failed = w.failed ++ [(made, s)] ∧ w'.noted = w.noted
      else w'.failed = w.failed ∧ w'.noted = w.noted ++ [(made, s)]
  | .uses made used, w' =>
    w'.failed = w.failed ∧ w'.noted = w.noted ∧
      ((w'.answers = w.answers ++ [⟨made, used, false⟩] ∧ w'.calls = w.calls ∧
          (w.Live made → ∀ id, reference w.log id made = false)) ∨
        (w'.answers = w.answers ∧ w'.calls = .uses made used :: w.calls))
  | .decide (.uses made used), w' =>
    w'.calls = w.calls.erase (.uses made used) ∧ w'.failed = w.failed ∧ w'.noted = w.noted ∧
      ∃ fails, w'.answers = w.answers ++ [⟨made, used, fails⟩] ∧
        (w.Live made → fails = used.any (reference w.log · made))
  | _, w' => w'.failed = w.failed ∧ w'.noted = w.noted ∧ w'.answers = w.answers

theorem decided_of_step [DecidableEq τ] (hk : w.Kept) (ha : w.Accounted) {a : Action τ}
    (hs : Step w a w') : Decided w a w' := by
  cases hs with
  | make | commit | drop | detach | attach | release | endTask => exact ⟨rfl, rfl, rfl⟩
  | @submit made s hcb hcommitted =>
    rw [World.submit]
    dsimp only
    split_ifs with hany
    · exact ⟨rfl, rfl, .inr ⟨rfl, rfl⟩⟩
    · have hlive : w.Live made := ⟨hcb, .inl hcommitted⟩
      exact ⟨rfl, rfl, .inl ⟨rfl, rfl, hk.reference_of_any hlive (Bool.eq_false_iff.mpr hany)⟩⟩
  | @uses made used hcb =>
    rw [World.uses]
    split_ifs with hany
    · exact ⟨rfl, rfl, .inr ⟨rfl, rfl⟩⟩
    · exact ⟨rfl, rfl, .inl ⟨rfl, rfl, fun hlive =>
        hk.reference_of_any hlive (Bool.eq_false_iff.mpr hany)⟩⟩
  | @decide call hcall =>
    cases call with
    | submit made s =>
      obtain ⟨hcb, hsent⟩ := ha.calls _ hcall
      have hlive : w.Live made := ⟨hcb, .inl (hsent nofun)⟩
      have hfails : (w.detached.fails · made) = (reference w.log · made) :=
        funext (hk.fails_eq hlive)
      simp only [Decided, World.decide, hfails]
      split_ifs with hany
      · exact ⟨rfl, rfl, rfl, rfl⟩
      · exact ⟨rfl, rfl, rfl, rfl⟩
    | uses made used =>
      refine ⟨rfl, rfl, rfl, _, rfl, fun hlive => ?_⟩
      have hfails : (w.detached.fails · made) = (reference w.log · made) :=
        funext (hk.fails_eq hlive)
      exact congrArg used.any hfails

/-- In every state reached, a live command buffer fails as by a registry that forgets nothing, a
command buffer that no object can fail fails by none, the submissions begun are pending, failed or
noted, each in one way, and every step decides as that registry does. -/
theorem uses_decided [DecidableEq τ] {as : List (Action τ)} (h : Execution Step new as w) :
    (∀ m, w.Live m → ∀ id, w.detached.fails id m = reference w.log id m) ∧
      (∀ m, w.detached.any m = false → ∀ id, w.detached.fails id m = false) ∧
      w.begun.Perm (w.pending ++ w.failed ++ w.noted) ∧
      (∀ m ∈ w.cbs, w.detached.encoders m = w.notedOf m) ∧
      ∀ a w', Step w a w' → Decided w a w' := by
  have hk := kept_of_execution h
  have ha := accounted_of_execution h
  exact ⟨fun _ hm => hk.fails_eq hm, fun _ => Detached.fails_of_any, ha.begun, ha.encoders,
    fun _ _ hs => decided_of_step hk ha hs⟩

/-- A submission that uses object 7. -/
def useOfSeven : Submission := ⟨(0, 1), [7]⟩

/-- A command buffer that uses a detached object is committed, and its submission begun; then the
object is released. -/
def releasedInCheck : World Unit :=
  ((((new.make none).commit 0).detach 7).submit 0 useOfSeven).release 7

theorem execution_releasedInCheck :
    Execution Step new [.make none, .commit 0, .detach 7, .submit 0 useOfSeven, .release 7]
      releasedInCheck := by
  have hmake : Execution Step (new : World Unit) _ _ := .single (.make none)
  have hcommit := hmake.snoc (.commit (by decide : 0 ∈ _))
  have hsubmit := (hcommit.snoc (.detach 7)).snoc
    (.submit useOfSeven (by decide : 0 ∈ _) (by decide))
  exact hsubmit.snoc (.release 7)

/-- The rest of the check fails the submission. -/
theorem uses_decided_releasedInCheck :
    releasedInCheck.detached.fails 7 0 = true ∧
      (releasedInCheck.decide (.submit 0 useOfSeven)).failed = [(0, useOfSeven)] := by
  obtain ⟨hfails, -, -, -, hdecided⟩ := uses_decided execution_releasedInCheck
  have hlive : releasedInCheck.Live 0 := ⟨by decide, .inl (by decide)⟩
  obtain ⟨-, -, hfailed⟩ := hdecided _ _ (.decide (by decide : .submit 0 useOfSeven ∈ _))
  rw [if_pos (by decide)] at hfailed
  exact ⟨(hfails 0 hlive 7).trans (by decide), hfailed.1⟩

end World

end ReimsVgpu.Gpu.Backing
