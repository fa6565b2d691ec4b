import Mathlib.Data.List.Count
import ReimsVgpu.Tasks.Completions

/-!
# Every token is signalled once

The account of the tokens: each id issued is in the table, or owed by one call in progress, or
signalled, and so once. The crash takes the whole table for itself; what it found there it signals in
ascending order, while nothing else gets at the table.

## Main definitions

* `World.pending`, `World.owed`, `World.signalled`: where a token may be.
* `World.Kept`: the account, and what the crash has done.
* `World.Sane`: what the completions promise.

## Main results

* `World.kept_of_execution`, `World.Kept.sane`: after every interleaving of steps.
* `World.empty_of_drain`: a drain returns only from an empty table.
-/

namespace ReimsVgpu.Tasks.Remote

/-- The signal that a crash makes of a token it finds in the table. -/
def crashSignal (id : ℕ) : Signal := ⟨id, .crashed, .crashed⟩

/-- The signal of a token born crashed. -/
def bornSignal (id : ℕ) : Signal := ⟨id, .crashed, .born⟩

/-- The tokens that calls in progress are to signal. -/
def owedBy {τ : Type*} (calls : List (τ × Call)) : List ℕ := calls.flatMap fun c => c.2.owed

namespace World

variable {τ : Type*} {w w' : World τ} {t : τ}

/-- The tokens in the table that no call has taken. -/
def pending (w : World τ) : List ℕ := if w.completions.crashed then [] else w.completions.tokens

/-- The tokens that a call in progress is to signal. -/
def owed (w : World τ) : List ℕ := owedBy w.calls

/-- The tokens signalled, once for each signal. -/
def signalled (w : World τ) : List ℕ := w.signals.map Signal.id

/-- The signals that crashes made of tokens in the table. -/
def swept (w : World τ) : List Signal := w.signals.filter fun s => decide (s.origin = .crashed)

/-- Each id issued is accounted for, once. -/
def Accounted (w : World τ) : Prop :=
  ∀ id, w.pending.count id + w.owed.count id + w.signalled.count id =
    if 0 < id ∧ id < w.completions.nextId then 1 else 0

/-- The account, and what the crash has done. -/
structure Kept (w : World τ) : Prop where
  nextId_pos : 0 < w.completions.nextId
  account : w.Accounted
  sorted : w.completions.tokens.Pairwise (· < ·)
  locks : w.calls.countP (fun c => c.2.locks) ≤ 1
  /-- A crash in progress has signalled some of what the first crash found. -/
  crashing : ∀ t left, (t, Call.crashing left) ∈ w.calls →
    w.completions.crashed = true ∧
      (w.completions.tokens = w.left ∨ w.completions.tokens = [] ∧ left = []) ∧
        ∃ done, w.swept = done.map crashSignal ∧ done ++ left = w.left
  /-- With none in progress it has signalled all of it. -/
  rested : (∀ t left, (t, Call.crashing left) ∉ w.calls) →
    w.swept = w.left.map crashSignal ∧ (w.completions.crashed = true → w.completions.tokens = [])
  left_sorted : w.left.Pairwise (· < ·)
  bearing : ∀ t id, (t, Call.bearing id) ∈ w.calls → w.completions.crashed = true
  origin : ∀ s ∈ w.signals, s.origin ≠ .completed →
    s.status = .crashed ∧ w.completions.crashed = true
  status_eq : ∀ s ∈ w.signals, w.status s.id = s.status
  status_zero : ∀ id ∉ w.signalled, w.status id = .notComplete
  alive : w.died = false
  crashId_pos : w.completions.crashed = true → 0 < w.crashId
  /-- What was issued after the crash is signalled at its birth. -/
  late_owed : w.completions.crashed = true → ∀ c ∈ w.calls, ∀ id ∈ c.2.owed, w.crashId ≤ id →
    c.2 = .bearing id
  late : w.completions.crashed = true → ∀ s ∈ w.signals, w.crashId ≤ s.id → s = bornSignal s.id

/-! ### The account -/

theorem owedBy_cons (c : τ × Call) (calls : List (τ × Call)) :
    owedBy (c :: calls) = c.2.owed ++ owedBy calls :=
  rfl

theorem mem_owedBy {calls : List (τ × Call)} {id : ℕ} :
    id ∈ owedBy calls ↔ ∃ c ∈ calls, id ∈ c.2.owed :=
  List.mem_flatMap

theorem count_owedBy_erase [DecidableEq τ] {calls : List (τ × Call)} {c : τ × Call}
    (hc : c ∈ calls) (id : ℕ) :
    (owedBy calls).count id = c.2.owed.count id + (owedBy (calls.erase c)).count id := by
  have hperm := (List.perm_cons_erase hc).flatMap_right fun c => c.2.owed
  rw [owedBy, hperm.count_eq, List.flatMap_cons, List.count_append]
  rfl

/-- An id is accounted for in one place. -/
theorem Accounted.cases (h : w.Accounted) {id : ℕ} (hpos : 0 < id)
    (hlt : id < w.completions.nextId) : id ∈ w.pending ∨ id ∈ w.owed ∨ id ∈ w.signalled := by
  have hone := h id
  rw [if_pos ⟨hpos, hlt⟩] at hone
  by_contra hnone
  simp only [not_or] at hnone
  rw [List.count_eq_zero_of_not_mem hnone.1, List.count_eq_zero_of_not_mem hnone.2.1,
    List.count_eq_zero_of_not_mem hnone.2.2] at hone
  cases hone

theorem Accounted.le_one (h : w.Accounted) (id : ℕ) :
    w.pending.count id + w.owed.count id + w.signalled.count id ≤ 1 := by
  rw [h id]
  split_ifs <;> omega

theorem Accounted.lt (h : w.Accounted) {id : ℕ}
    (hid : id ∈ w.pending ∨ id ∈ w.owed ∨ id ∈ w.signalled) :
    0 < id ∧ id < w.completions.nextId := by
  by_contra hout
  have hzero := h id
  rw [if_neg hout] at hzero
  have hpos : 0 < w.pending.count id + w.owed.count id + w.signalled.count id := by
    rcases hid with hid | hid | hid
    · have := List.count_pos_iff.mpr hid
      omega
    · have := List.count_pos_iff.mpr hid
      omega
    · have := List.count_pos_iff.mpr hid
      omega
  omega

/-- A token owed is neither in the table nor signalled. -/
theorem Accounted.of_owed (h : w.Accounted) {id : ℕ} (hid : id ∈ w.owed) :
    id ∉ w.pending ∧ id ∉ w.signalled ∧ w.owed.count id = 1 := by
  have hle := h.le_one id
  have hpos := List.count_pos_iff.mpr hid
  exact ⟨fun hmem => by have := List.count_pos_iff.mpr hmem; omega,
    fun hmem => by have := List.count_pos_iff.mpr hmem; omega, by omega⟩

theorem Accounted.nodup (h : w.Accounted) : w.signalled.Nodup :=
  List.nodup_iff_count_le_one.mpr fun id => by
    have hle := h.le_one id
    omega

/-- A token of the table that no call has taken is not signalled. -/
theorem Accounted.of_pending (h : w.Accounted) {id : ℕ} (hid : id ∈ w.pending) :
    id ∉ w.owed ∧ id ∉ w.signalled := by
  have hle := h.le_one id
  have hpos := List.count_pos_iff.mpr hid
  exact ⟨fun hmem => by have := List.count_pos_iff.mpr hmem; omega,
    fun hmem => by have := List.count_pos_iff.mpr hmem; omega⟩

theorem kept_new : (new : World τ).Kept where
  nextId_pos := Nat.one_pos
  account id := by
    rw [if_neg (by rintro ⟨h, h'⟩; exact h'.not_ge h)]
    rfl
  sorted := List.Pairwise.nil
  locks := Nat.zero_le 1
  crashing _ _ h := absurd h List.not_mem_nil
  rested _ := ⟨rfl, fun _ => rfl⟩
  left_sorted := List.Pairwise.nil
  bearing _ _ h := absurd h List.not_mem_nil
  origin _ h := absurd h List.not_mem_nil
  status_eq _ h := absurd h List.not_mem_nil
  status_zero _ _ := rfl
  alive := rfl
  crashId_pos := fun h => Bool.noConfusion h
  late_owed := fun h => Bool.noConfusion h
  late := fun h => Bool.noConfusion h

/-! ### The holds of the lock -/

theorem Free.not_crashing (h : w.Free) (t : τ) (left : List ℕ) :
    (t, Call.crashing left) ∉ w.calls :=
  fun hmem => Bool.noConfusion (h _ hmem)

theorem Free.countP_locks (h : w.Free) : w.calls.countP (fun c => c.2.locks) = 0 :=
  List.countP_eq_zero.mpr fun c hc => by rw [h c hc]; exact Bool.false_ne_true

theorem insert_eq {c : Completions} {id : ℕ} (h : ∀ id' ∈ c.tokens, id' < id) :
    c.insert id = { c with tokens := c.tokens ++ [id] } := by
  have hsorted : ∀ l : List ℕ, (∀ id' ∈ l, id' < id) →
      l.orderedInsert (· ≤ ·) id = l ++ [id] := by
    intro l hl
    induction l with
    | nil => rfl
    | cons a l ih =>
      obtain ⟨ha, hl⟩ := List.forall_mem_cons.mp hl
      rw [List.orderedInsert, if_neg ha.not_ge, ih hl]
      rfl
  rw [Completions.insert, if_neg fun hmem => lt_irrefl id (h id hmem), hsorted c.tokens h]

theorem Kept.pending_of_not_crashed (hcrashed : w.completions.crashed = false) :
    w.pending = w.completions.tokens := by
  rw [pending, hcrashed]
  rfl

theorem Kept.swept_of_not_crashed (h : w.Kept) (hcrashed : w.completions.crashed = false) :
    w.swept = [] := by
  refine List.filter_eq_nil_iff.mpr fun s hs hswept => ?_
  have hne : s.origin ≠ .completed := by
    rw [of_decide_eq_true hswept]
    rintro ⟨⟩
  have hboth := (h.origin s hs hne).2
  rw [hcrashed] at hboth
  cases hboth

theorem Kept.issue (h : w.Kept) (hfree : w.Free) : (w.issue t).Kept := by
  have hsame := h.rested hfree.not_crashing
  by_cases hcrashed : w.completions.crashed = true
  · have hw : w.issue t =
        { w with
          completions := { w.completions with nextId := w.completions.nextId + 1 }
          calls := (t, .bearing w.completions.nextId) :: w.calls } := by
      simp only [World.issue, Completions.issueToken, hcrashed, if_true]
    rw [hw]
    exact
      { nextId_pos := Nat.succ_pos _
        account := fun id => by
          have hid := h.account id
          have hpos := h.nextId_pos
          simp only [pending, hcrashed, if_true, owed, signalled, owedBy_cons, Call.owed,
            List.singleton_append, List.count_cons, List.count_nil, beq_iff_eq] at hid ⊢
          split_ifs at hid ⊢ <;> omega
        sorted := h.sorted
        locks := by
          rw [List.countP_cons, hfree.countP_locks]
          split_ifs <;> omega
        crashing := fun t' left hmem => by
          rcases List.mem_cons.mp hmem with heq | hmem
          · cases heq
          · exact absurd hmem (hfree.not_crashing t' left)
        rested := fun _ => hsame
        left_sorted := h.left_sorted
        bearing := fun _ _ _ => hcrashed
        origin := h.origin
        status_eq := h.status_eq
        status_zero := h.status_zero
        alive := h.alive
        crashId_pos := h.crashId_pos
        late_owed := fun _ c hc id hid hle => by
          rcases List.mem_cons.mp hc with rfl | hc
          · rw [List.mem_singleton.mp hid]
          · exact h.late_owed hcrashed c hc id hid hle
        late := h.late }
  · have hcrashed' := Bool.eq_false_of_not_eq_true hcrashed
    have hbelow : ∀ id ∈ w.completions.tokens, id < w.completions.nextId := fun id hid =>
      (h.account.lt (.inl (Kept.pending_of_not_crashed hcrashed' ▸ hid))).2
    have hw : w.issue t =
        { w with
          completions :=
            { w.completions with
              nextId := w.completions.nextId + 1
              tokens := w.completions.tokens ++ [w.completions.nextId] } } := by
      simp only [World.issue, Completions.issueToken, hcrashed, if_false, Bool.false_eq_true]
      rw [insert_eq]
      exact hbelow
    have hnotCrashed : ∀ {P : Prop}, w.completions.crashed = true → P := fun hc => absurd hc hcrashed
    rw [hw]
    exact
      { nextId_pos := Nat.succ_pos _
        account := fun id => by
          have hid := h.account id
          have hpos := h.nextId_pos
          simp only [pending, hcrashed', Bool.false_eq_true, if_false, owed, signalled,
            List.count_append, List.count_cons, List.count_nil, beq_iff_eq] at hid ⊢
          split_ifs at hid ⊢ <;> omega
        sorted := List.pairwise_append.mpr ⟨h.sorted, List.pairwise_singleton _ _,
          fun id hid id' hid' => List.mem_singleton.mp hid' ▸ hbelow id hid⟩
        locks := h.locks
        crashing := fun t' left hmem => absurd hmem (hfree.not_crashing t' left)
        rested := fun _ => ⟨hsame.1, hnotCrashed⟩
        left_sorted := h.left_sorted
        bearing := h.bearing
        origin := h.origin
        status_eq := h.status_eq
        status_zero := h.status_zero
        alive := h.alive
        crashId_pos := h.crashId_pos
        late_owed := hnotCrashed
        late := hnotCrashed }

theorem Kept.take (h : w.Kept) (hfree : w.Free) (id : ℕ) (status : ExecStatus) :
    (w.take t id status).Kept := by
  have hsame := h.rested hfree.not_crashing
  by_cases hid : id ∈ w.completions.tokens
  · have hcrashed : w.completions.crashed = false := by
      refine Bool.eq_false_of_not_eq_true fun hc => ?_
      rw [hsame.2 hc] at hid
      exact List.not_mem_nil hid
    have hnotCrashed : ∀ {P : Prop}, w.completions.crashed = true → P := fun hc => by
      rw [hcrashed] at hc
      cases hc
    have hw : w.take t id status =
        { w with
          completions := { w.completions with tokens := w.completions.tokens.erase id }
          calls := (t, .signalling id status) :: w.calls } := by
      simp only [World.take, Completions.erase, hid, if_true]
    rw [hw]
    exact
      { nextId_pos := h.nextId_pos
        account := fun id' => by
          have hid' := h.account id'
          have hpos := List.count_pos_iff.mpr hid
          simp only [pending, hcrashed, Bool.false_eq_true, if_false, owed, signalled, owedBy_cons,
            Call.owed, List.count_append, List.count_cons, List.count_nil, List.count_erase,
            beq_iff_eq] at hid' ⊢
          rw [← hid']
          split_ifs with heq
          · subst heq
            omega
          · omega
        sorted := h.sorted.sublist List.erase_sublist
        locks := by
          rw [List.countP_cons, hfree.countP_locks]
          exact Nat.zero_le 1
        crashing := fun t' left hmem => by
          rcases List.mem_cons.mp hmem with heq | hmem
          · cases heq
          · exact absurd hmem (hfree.not_crashing t' left)
        rested := fun _ => ⟨hsame.1, hnotCrashed⟩
        left_sorted := h.left_sorted
        bearing := fun t' id' hmem => by
          rcases List.mem_cons.mp hmem with heq | hmem
          · cases heq
          · exact h.bearing t' id' hmem
        origin := h.origin
        status_eq := h.status_eq
        status_zero := h.status_zero
        alive := h.alive
        crashId_pos := h.crashId_pos
        late_owed := hnotCrashed
        late := hnotCrashed }
  · have hw : w.take t id status = w := by
      simp only [World.take, Completions.erase, hid, if_false, List.erase_of_not_mem hid]
    rw [hw]
    exact h

theorem Kept.crash (h : w.Kept) (hfree : w.Free) : (w.crash t).Kept := by
  have hsame := h.rested hfree.not_crashing
  have hlocks : ((t, Call.crashing w.completions.tokens) :: w.calls).countP
      (fun c => c.2.locks) ≤ 1 := by
    rw [List.countP_cons, hfree.countP_locks]
    split_ifs <;> omega
  have hrested : ¬∀ t' left, (t', Call.crashing left) ∉
      (t, Call.crashing w.completions.tokens) :: w.calls :=
    fun hnone => hnone t w.completions.tokens List.mem_cons_self
  by_cases hcrashed : w.completions.crashed = true
  · have hnil := hsame.2 hcrashed
    have hw : w.crash t = { w with calls := (t, .crashing w.completions.tokens) :: w.calls } := by
      simp only [World.crash, hcrashed, if_true]
      rw [← hcrashed]
    rw [hw]
    exact
      { h with
        account := fun id => by
          have hid := h.account id
          simp only [pending, hcrashed, if_true, owed, signalled, owedBy_cons, Call.owed, hnil,
            List.nil_append] at hid ⊢
          exact hid
        locks := hlocks
        crashing := fun t' left hmem => by
          rcases List.mem_cons.mp hmem with heq | hmem
          · obtain ⟨rfl, hleft⟩ := Prod.mk.inj heq
            obtain rfl := Call.crashing.inj hleft
            refine ⟨hcrashed, .inr ⟨hnil, hnil⟩, w.left, hsame.1, ?_⟩
            rw [hnil, List.append_nil]
          · exact absurd hmem (hfree.not_crashing t' left)
        rested := fun hnone => absurd hnone hrested
        bearing := fun _ _ _ => hcrashed
        late_owed := fun _ c hc id hid hle => by
          rcases List.mem_cons.mp hc with rfl | hc
          · change id ∈ w.completions.tokens at hid
            rw [hnil] at hid
            exact absurd hid List.not_mem_nil
          · exact h.late_owed hcrashed c hc id hid hle }
  · have hcrashed' := Bool.eq_false_of_not_eq_true hcrashed
    have hpending := Kept.pending_of_not_crashed hcrashed'
    have hw : w.crash t =
        { w with
          completions := { w.completions with crashed := true }
          calls := (t, .crashing w.completions.tokens) :: w.calls
          left := w.completions.tokens
          crashId := w.completions.nextId } := by
      simp only [World.crash, hcrashed, if_false, Bool.false_eq_true]
    rw [hw]
    exact
      { nextId_pos := h.nextId_pos
        account := fun id => by
          have hid := h.account id
          simp only [pending, hcrashed', Bool.false_eq_true, if_false, if_true, owed, signalled,
            owedBy_cons, Call.owed, List.count_append, List.count_nil] at hid ⊢
          omega
        sorted := h.sorted
        locks := hlocks
        crashing := fun t' left hmem => by
          rcases List.mem_cons.mp hmem with heq | hmem
          · obtain ⟨rfl, hleft⟩ := Prod.mk.inj heq
            obtain rfl := Call.crashing.inj hleft
            exact ⟨rfl, .inl rfl, [], h.swept_of_not_crashed hcrashed', rfl⟩
          · exact absurd hmem (hfree.not_crashing t' left)
        rested := fun hnone => absurd hnone hrested
        left_sorted := h.sorted
        bearing := fun _ _ _ => rfl
        origin := fun s hs hne => ⟨(h.origin s hs hne).1, rfl⟩
        status_eq := h.status_eq
        status_zero := h.status_zero
        alive := h.alive
        crashId_pos := fun _ => h.nextId_pos
        late_owed := fun _ c hc id hid hle => by
          have hlt : id < w.completions.nextId := by
            rcases List.mem_cons.mp hc with rfl | hc
            · exact (h.account.lt (.inl (hpending ▸ hid))).2
            · exact (h.account.lt (.inr (.inl (mem_owedBy.mpr ⟨c, hc, hid⟩)))).2
          exact absurd hle hlt.not_ge
        late := fun _ s hs hle => by
          have hmem : s.id ∈ w.signalled := List.mem_map_of_mem hs
          exact absurd hle (h.account.lt (.inr (.inr hmem))).2.not_ge }

/-- Calls that owe the same, and are a crash's or a birth's where they were. -/
theorem Kept.congr_calls (h : w.Kept) {calls : List (τ × Call)}
    (howed : ∀ id, (owedBy calls).count id = w.owed.count id)
    (hlocks : calls.countP (fun c => c.2.locks) ≤ 1)
    (hmem : ∀ c ∈ calls, c.2 ≠ .draining → c ∈ w.calls)
    (hcrashing : ∀ t left, (t, Call.crashing left) ∈ w.calls → (t, Call.crashing left) ∈ calls) :
    Kept { w with calls } :=
  { h with
    account := fun id => by
      have hid := h.account id
      rw [← howed id] at hid
      exact hid
    locks := hlocks
    crashing := fun t left hin => h.crashing t left (hmem _ hin (by rintro ⟨⟩))
    rested := fun hnone => h.rested fun t left hin => hnone t left (hcrashing t left hin)
    bearing := fun t id hin => h.bearing t id (hmem _ hin (by rintro ⟨⟩))
    late_owed := fun hc c hin id hid hle => by
      refine h.late_owed hc c (hmem c hin ?_) id hid hle
      intro heq
      rw [heq] at hid
      exact List.not_mem_nil hid }

theorem Kept.drain (h : w.Kept) (hfree : w.Free) : (w.drain t).Kept := by
  rw [World.drain]
  split_ifs
  · exact h
  · refine h.congr_calls (fun id => rfl) ?_ ?_ fun t left hin => List.mem_cons_of_mem _ hin
    · rw [List.countP_cons, hfree.countP_locks]
      exact Nat.zero_le 1
    · rintro c (_ | ⟨_, hc⟩) hne
      · exact absurd rfl hne
      · exact hc

/-! ### Where a token is -/

theorem Quiet.owed_eq (h : w.Quiet) : w.owed = [] :=
  List.flatMap_eq_nil_iff.mpr h

/-- Where no call owes a signal, a token that is not in the table is signalled, once. -/
theorem Kept.count_of_quiet (h : w.Kept) (hquiet : w.Quiet) {id : ℕ} (hpos : 0 < id)
    (hlt : id < w.completions.nextId) (hid : id ∉ w.pending) : w.signalled.count id = 1 := by
  have hone := h.account id
  rw [if_pos ⟨hpos, hlt⟩, List.count_eq_zero_of_not_mem hid, hquiet.owed_eq, List.count_nil] at hone
  omega

theorem Kept.pending_of_crashed (hcrashed : w.completions.crashed = true) : w.pending = [] :=
  if_pos hcrashed

/-- Where the lock is free, no token in the table is signalled. -/
theorem Kept.unsignalled (h : w.Kept) (hfree : w.Free) {id : ℕ}
    (hid : id ∈ w.completions.tokens) : id ∉ w.signalled := by
  by_cases hcrashed : w.completions.crashed = true
  · rw [(h.rested hfree.not_crashing).2 hcrashed] at hid
    exact absurd hid List.not_mem_nil
  · rw [← Kept.pending_of_not_crashed (Bool.eq_false_of_not_eq_true hcrashed)] at hid
    exact (h.account.of_pending hid).2

/-- A token issued after the crash is being signalled at its birth, or was. -/
theorem Kept.born (h : w.Kept) (hcrashed : w.completions.crashed = true) {id : ℕ}
    (hpos : 0 < id) (hle : w.crashId ≤ id) (hlt : id < w.completions.nextId) :
    (∃ t, (t, Call.bearing id) ∈ w.calls) ∨ bornSignal id ∈ w.signals := by
  rcases h.account.cases hpos hlt with hmem | howed | hmem
  · rw [Kept.pending_of_crashed hcrashed] at hmem
    exact absurd hmem List.not_mem_nil
  · obtain ⟨⟨t, call⟩, hc, hid⟩ := mem_owedBy.mp howed
    have hborn := h.late_owed hcrashed _ hc id hid hle
    exact .inl ⟨t, hborn ▸ hc⟩
  · obtain ⟨s, hs, rfl⟩ := List.mem_map.mp hmem
    exact .inr (h.late hcrashed s hs hle ▸ hs)

/-! ### The signals -/

/-- An owed token signalled. -/
theorem Kept.signal (h : w.Kept) {calls : List (τ × Call)} {s : Signal}
    (howed : ∀ id, w.owed.count id = (owedBy calls).count id + if s.id = id then 1 else 0)
    (hlocks : calls.countP (fun c => c.2.locks) ≤ 1)
    (hcrashing : ∀ t left, (t, Call.crashing left) ∈ calls →
      w.completions.crashed = true ∧
        (w.completions.tokens = w.left ∨ w.completions.tokens = [] ∧ left = []) ∧
          ∃ done, (w.signals ++ [s]).filter (fun s => decide (s.origin = .crashed)) =
            done.map crashSignal ∧ done ++ left = w.left)
    (hrested : (∀ t left, (t, Call.crashing left) ∉ calls) →
      s.origin ≠ .crashed ∧ ∀ t left, (t, Call.crashing left) ∉ w.calls)
    (hbearing : ∀ t id, (t, Call.bearing id) ∈ calls → (t, Call.bearing id) ∈ w.calls)
    (horigin : s.origin ≠ .completed → s.status = .crashed ∧ w.completions.crashed = true)
    (hlateOwed : w.completions.crashed = true → ∀ c ∈ calls, ∀ id ∈ c.2.owed, w.crashId ≤ id →
      c.2 = .bearing id)
    (hlate : w.completions.crashed = true → w.crashId ≤ s.id → s = bornSignal s.id) :
    (World.signal { w with calls } s).Kept := by
  have hid : s.id ∈ w.owed := by
    rw [← List.count_pos_iff, howed, if_pos rfl]
    exact Nat.succ_pos _
  obtain ⟨-, hnot, -⟩ := h.account.of_owed hid
  have hne : ∀ s' ∈ w.signals, s'.id ≠ s.id := fun s' hs' heq =>
    hnot (heq ▸ List.mem_map_of_mem hs')
  have hw : World.signal { w with calls } s =
      { w with
        calls
        status := Function.update w.status s.id s.status
        signals := w.signals ++ [s] } := if_pos (h.status_zero s.id hnot)
  rw [hw]
  exact
    { nextId_pos := h.nextId_pos
      account := fun id => by
        have hid := h.account id
        rw [howed] at hid
        simp only [pending, owed, signalled, List.map_append, List.map_cons, List.map_nil,
          List.count_append, List.count_cons, List.count_nil, beq_iff_eq] at hid ⊢
        rw [← hid]
        omega
      sorted := h.sorted
      locks := hlocks
      crashing := hcrashing
      rested := fun hnone => by
        obtain ⟨hswept, hnone'⟩ := hrested hnone
        obtain ⟨hsame, hempty⟩ := h.rested hnone'
        refine ⟨?_, hempty⟩
        rw [swept, List.filter_append, List.filter_singleton, decide_eq_false hswept]
        exact (List.append_nil _).trans hsame
      left_sorted := h.left_sorted
      bearing := fun t id hin => h.bearing t id (hbearing t id hin)
      origin := fun s' hs' hne' => by
        rcases List.mem_append.mp hs' with hs' | hs'
        · exact h.origin s' hs' hne'
        · obtain rfl := List.mem_singleton.mp hs'
          exact horigin hne'
      status_eq := fun s' hs' => by
        rcases List.mem_append.mp hs' with hs' | hs'
        · exact (Function.update_of_ne (hne s' hs') _ _).trans (h.status_eq s' hs')
        · obtain rfl := List.mem_singleton.mp hs'
          exact Function.update_self _ _ _
      status_zero := fun id hid' => by
        simp only [signalled, List.map_append, List.map_cons, List.map_nil, List.mem_append,
          List.mem_singleton, not_or] at hid'
        exact (Function.update_of_ne hid'.2 _ _).trans (h.status_zero id hid'.1)
      alive := h.alive
      crashId_pos := h.crashId_pos
      late_owed := hlateOwed
      late := fun hc s' hs' hle => by
        rcases List.mem_append.mp hs' with hs' | hs'
        · exact h.late hc s' hs' hle
        · obtain rfl := List.mem_singleton.mp hs'
          exact hlate hc hle }

variable [DecidableEq τ]

/-- A call that holds the lock is the only one. -/
theorem Kept.not_locks_erase (h : w.Kept) {c : τ × Call} (hc : c ∈ w.calls)
    (hlocks : c.2.locks = true) : ∀ c' ∈ w.calls.erase c, c'.2.locks = false := by
  intro c' hc'
  have hone := h.locks
  rw [(List.perm_cons_erase hc).countP_eq, List.countP_cons, if_pos hlocks] at hone
  have hzero : (w.calls.erase c).countP (fun c => c.2.locks) = 0 := by omega
  exact Bool.eq_false_of_not_eq_true (List.countP_eq_zero.mp hzero c' hc')

theorem Kept.countP_erase_le (h : w.Kept) (c : τ × Call) :
    (w.calls.erase c).countP (fun c => c.2.locks) ≤ 1 :=
  (List.erase_sublist.countP_le).trans h.locks

/-- The signal of a token that its completer took. -/
theorem Kept.goOn_signalling (h : w.Kept) {id : ℕ} {status : ExecStatus}
    (hcall : (t, Call.signalling id status) ∈ w.calls) :
    (w.goOn t (.signalling id status)).Kept := by
  have hrest := fun id' => count_owedBy_erase hcall id'
  simp only [Call.owed, List.count_cons, List.count_nil, beq_iff_eq, Nat.zero_add] at hrest
  refine h.signal (s := ⟨id, status, .completed⟩) (fun id' => ?_) (h.countP_erase_le _)
    (fun t' left hin => ?_) (fun hnone => ⟨by rintro ⟨⟩, fun t' left hin => hnone t' left ?_⟩)
    (fun t' id' hin => List.mem_of_mem_erase hin) (fun hne => absurd rfl hne)
    (fun hc c hin => h.late_owed hc c (List.mem_of_mem_erase hin)) fun hc hle => ?_
  · rw [owed, hrest, Nat.add_comm]
  · have hsame := h.crashing t' left (List.mem_of_mem_erase hin)
    rwa [List.filter_append, List.filter_singleton, decide_eq_false (by rintro ⟨⟩), cond_false,
      List.append_nil]
  · exact (List.mem_erase_of_ne (by rintro ⟨⟩)).mpr hin
  · have hborn := h.late_owed hc _ hcall id (List.mem_singleton_self id) hle
    cases hborn

/-- The signal of a token born crashed. -/
theorem Kept.goOn_bearing (h : w.Kept) {id : ℕ} (hcall : (t, Call.bearing id) ∈ w.calls) :
    (w.goOn t (.bearing id)).Kept := by
  have hcrashed := h.bearing t id hcall
  have hrest := fun id' => count_owedBy_erase hcall id'
  simp only [Call.owed, List.count_cons, List.count_nil, beq_iff_eq, Nat.zero_add] at hrest
  refine h.signal (s := ⟨id, .crashed, .born⟩) (fun id' => ?_) (h.countP_erase_le _)
    (fun t' left hin => ?_) (fun hnone => ⟨by rintro ⟨⟩, fun t' left hin => hnone t' left ?_⟩)
    (fun t' id' hin => List.mem_of_mem_erase hin) (fun _ => ⟨rfl, hcrashed⟩)
    (fun hc c hin => h.late_owed hc c (List.mem_of_mem_erase hin)) fun _ _ => rfl
  · rw [owed, hrest, Nat.add_comm]
  · cases h.not_locks_erase hcall rfl _ hin
  · exact (List.mem_erase_of_ne (by rintro ⟨⟩)).mpr hin

/-- The next signal of a crash. -/
theorem Kept.goOn_crashing (h : w.Kept) {id : ℕ} {left : List ℕ}
    (hcall : (t, Call.crashing (id :: left)) ∈ w.calls) :
    (w.goOn t (.crashing (id :: left))).Kept := by
  obtain ⟨hcrashed, htokens, done, hswept, hleft⟩ := h.crashing t (id :: left) hcall
  have hrest := fun id' => count_owedBy_erase hcall id'
  simp only [Call.owed, List.count_cons, beq_iff_eq] at hrest
  have hothers := h.not_locks_erase hcall rfl
  refine h.signal (s := ⟨id, .crashed, .crashed⟩) (fun id' => ?_) ?_ (fun t' left' hin => ?_)
    (fun hnone => absurd List.mem_cons_self (hnone t left)) (fun t' id' hin => ?_)
    (fun _ => ⟨rfl, hcrashed⟩) (fun hc c hin id' hid' hle => ?_) fun hc hle => ?_
  · rw [owed, hrest, owedBy_cons, List.count_append, Call.owed]
    change _ = _ + if id = id' then 1 else 0
    omega
  · rw [List.countP_cons, List.countP_eq_zero.mpr fun c hc => by
      rw [hothers c hc]; exact Bool.false_ne_true]
    split_ifs <;> omega
  · rcases List.mem_cons.mp hin with heq | hin
    · obtain ⟨rfl, hcrash⟩ := Prod.mk.inj heq
      obtain rfl := Call.crashing.inj hcrash
      refine ⟨hcrashed, htokens.imp_right fun hnil => absurd hnil.2 (List.cons_ne_nil _ _),
        done ++ [id], ?_, by rw [List.append_assoc]; exact hleft⟩
      rw [List.filter_append, ← swept, hswept, List.map_append]
      rfl
    · cases hothers _ hin
  · rcases List.mem_cons.mp hin with heq | hin
    · cases heq
    · exact List.mem_of_mem_erase hin
  · rcases List.mem_cons.mp hin with rfl | hin
    · have hborn := h.late_owed hc _ hcall id' (List.mem_cons_of_mem id hid') hle
      cases hborn
    · exact h.late_owed hc c (List.mem_of_mem_erase hin) id' hid' hle
  · have hborn := h.late_owed hc _ hcall id List.mem_cons_self hle
    cases hborn

/-- The end of a crash. -/
theorem Kept.goOn_crashed (h : w.Kept) (hcall : (t, Call.crashing []) ∈ w.calls) :
    (w.goOn t (.crashing [])).Kept := by
  obtain ⟨hcrashed, -, done, hswept, hleft⟩ := h.crashing t [] hcall
  have hothers := h.not_locks_erase hcall rfl
  rw [List.append_nil] at hleft
  have hw : w.goOn t (.crashing []) =
      { w with
        completions := { w.completions with tokens := [] }
        calls := w.calls.erase (t, .crashing []) } := rfl
  rw [hw]
  exact
    { nextId_pos := h.nextId_pos
      account := fun id => by
        have hid := h.account id
        have hrest := count_owedBy_erase hcall id
        simp only [pending, hcrashed, if_true, owed, signalled, Call.owed, List.count_nil,
          Nat.zero_add] at hid hrest ⊢
        rw [← hid, hrest]
      sorted := List.Pairwise.nil
      locks := h.countP_erase_le _
      crashing := fun t' left' hin => by cases hothers _ hin
      rested := fun _ => ⟨hleft ▸ hswept, fun _ => rfl⟩
      left_sorted := h.left_sorted
      bearing := fun t' id hin => h.bearing t' id (List.mem_of_mem_erase hin)
      origin := h.origin
      status_eq := h.status_eq
      status_zero := h.status_zero
      alive := h.alive
      crashId_pos := h.crashId_pos
      late_owed := fun hc c hin => h.late_owed hc c (List.mem_of_mem_erase hin)
      late := h.late }

theorem Kept.goOn_draining (h : w.Kept) (hcall : (t, Call.draining) ∈ w.calls) :
    (w.goOn t .draining).Kept := by
  rw [World.goOn]
  split_ifs
  · refine h.congr_calls (fun id => ?_) (h.countP_erase_le _)
      (fun c hc _ => List.mem_of_mem_erase hc) fun t' left hin => ?_
    · have hrest := count_owedBy_erase hcall id
      rw [Call.owed, List.count_nil, Nat.zero_add] at hrest
      exact hrest.symm
    · exact (List.mem_erase_of_ne (by rintro ⟨⟩)).mpr hin
  · exact h

/-! ### Runs -/

theorem Kept.step (h : w.Kept) {a : Action τ} (hs : Step w a w') : w'.Kept := by
  cases hs with
  | issue _ hfree => exact h.issue hfree
  | completeId id status _ hfree => exact h.take hfree id status
  | complete id status _ hfree => exact h.take hfree id status
  | crash _ hfree => exact h.crash hfree
  | drain _ hfree => exact h.drain hfree
  | @goOn t call hcall _ =>
    match call with
    | .signalling _ _ => exact h.goOn_signalling hcall
    | .crashing [] => exact h.goOn_crashed hcall
    | .crashing (_ :: _) => exact h.goOn_crashing hcall
    | .bearing _ => exact h.goOn_bearing hcall
    | .draining => exact h.goOn_draining hcall

theorem kept_of_execution {as : List (Action τ)} (hrun : Execution Step new as w) : w.Kept :=
  hrun.invariant kept_new fun _ _ _ h hs => h.step hs

/-! ### What the completions promise -/

/-- The step by which a drain returns. -/
def Drained (a : Action τ) (w' : World τ) : Prop :=
  ∃ t, (a = .drain t ∨ a = .goOn t .draining) ∧ w'.Idle t

/-- What the completions promise. -/
structure Sane (w : World τ) : Prop where
  alive : w.died = false
  once : w.signalled.Nodup
  unsignalled : w.Free → ∀ id ∈ w.completions.tokens, id ∉ w.signalled
  /-- A crash signals what it finds in the table, in ascending order. -/
  swept : (∀ t left, (t, Call.crashing left) ∉ w.calls) → w.swept = w.left.map crashSignal
  sweeping : ∀ t left, (t, Call.crashing left) ∈ w.calls →
    ∃ done, w.swept = done.map crashSignal ∧ done ++ left = w.left
  ascending : w.left.Pairwise (· < ·)
  /-- A token issued after the crash is signalled at its birth. -/
  born : w.completions.crashed = true → ∀ id, w.crashId ≤ id → id < w.completions.nextId →
    (∃ t, (t, Call.bearing id) ∈ w.calls) ∨
      bornSignal id ∈ w.signals ∧ w.status id = .crashed
  /-- After a crash every token is signalled. -/
  all : w.completions.crashed = true → w.Quiet → ∀ id, 0 < id → id < w.completions.nextId →
    w.signalled.count id = 1
  /-- A drain returns from an empty table. -/
  drained : ∀ a w', Step w a w' → Drained a w' → w.completions.tokens = []

/-- A drain returns only from an empty table. -/
theorem empty_of_drain {a : Action τ} (hs : Step w a w') (hdrained : Drained a w') :
    w.completions.tokens = [] := by
  obtain ⟨t, rfl | rfl, hidle⟩ := hdrained
  · cases hs
    by_contra hne
    rw [World.drain, if_neg hne] at hidle
    exact hidle _ List.mem_cons_self rfl
  · cases hs with
    | goOn hcall _ =>
      by_contra hne
      rw [World.goOn, if_neg hne] at hidle
      exact hidle _ hcall rfl

theorem Kept.sane (h : w.Kept) : w.Sane where
  alive := h.alive
  once := h.account.nodup
  unsignalled hfree _ hid := h.unsignalled hfree hid
  swept hnone := (h.rested hnone).1
  sweeping t left hin := (h.crashing t left hin).2.2
  ascending := h.left_sorted
  born hcrashed id hle hlt := by
    refine (h.born hcrashed ((h.crashId_pos hcrashed).trans_le hle) hle hlt).imp_right fun hs => ⟨hs, ?_⟩
    exact h.status_eq (bornSignal id) hs
  all hcrashed hquiet id hid hlt :=
    h.count_of_quiet hquiet hid hlt (Kept.pending_of_crashed hcrashed ▸ List.not_mem_nil)
  drained _ _ hs hdrained := empty_of_drain hs hdrained

end World

end ReimsVgpu.Tasks.Remote
