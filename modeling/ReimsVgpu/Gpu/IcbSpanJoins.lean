import ReimsVgpu.Gpu.IcbSpans

/-!
# Joined spans

A joined span covers its parts and what lies between them, where no state was made and released. So it
names what its parts name, for a command that was set before all their ends or after all of them.

## Main definitions

* `Straddles`: a set lies between the ends of what a span was joined of.
* `Covers`: a span covers its parts, and no state beside theirs.
* `Names.Fits`: what holds of a span that a buffer keeps.

## Main results

* `write_cases`: what keeping a span does.
* `namedState_eq`: spans that cover all of those apart name the same states.
* `Names.Joined.join`: two spans of a buffer joined.
-/

namespace ReimsVgpu.Gpu.Icb

/-! ### A span written -/

/-- Neighbours of a list are related as all its members are. -/
theorem rel_of_mem_zip_tail {α : Type*} {R : α → α → Prop} {l : List α} (h : l.Pairwise R)
    {x y : α} (hxy : (x, y) ∈ l.zip l.tail) : R x y := by
  induction l with
  | nil => exact absurd hxy List.not_mem_nil
  | cons a l ih =>
    obtain ⟨hrel, htail⟩ := List.pairwise_cons.mp h
    cases l with
    | nil => exact absurd hxy List.not_mem_nil
    | cons b l =>
      rcases List.mem_cons.mp hxy with heq | hrest
      · obtain ⟨rfl, rfl⟩ := Prod.mk.inj heq
        exact hrel y List.mem_cons_self
      · exact ih htail hrest

/-- The members of a list with one changed and another erased. -/
theorem mem_set_eraseIdx {α : Type*} {l : List α} {i j : ℕ} {a y x : α} (ha : l[i]? = some a)
    (hne : i ≠ j) :
    x ∈ (l.set i y).eraseIdx j ↔ x = y ∨ ∃ k, k ≠ i ∧ k ≠ j ∧ l[k]? = some x := by
  obtain ⟨hlt, -⟩ := List.getElem?_eq_some_iff.mp ha
  rw [List.mem_eraseIdx_iff_getElem?]
  constructor
  · rintro ⟨k, hk, hx⟩
    rw [List.getElem?_set] at hx
    split_ifs at hx with hi
    · exact .inl (Option.some.inj hx).symm
    · exact .inr ⟨k, Ne.symm hi, hk, hx⟩
  · rintro (rfl | ⟨k, hi, hk, hx⟩)
    · exact ⟨i, hne, List.getElem?_set_self hlt⟩
    · exact ⟨k, hk, by rw [List.getElem?_set_ne hi.symm, hx]⟩

instance : Std.Total spanLe := ⟨fun a b => by
  unfold spanLe
  omega⟩

instance : IsTrans (ℕ × ℕ × ℕ) spanLe := ⟨fun a b c hab hbc => by
  unfold spanLe at *
  omega⟩

variable {cells : Cells} {writes : List Window} {histories : List (UInt64 × History)}
  {points : List ℕ}

theorem mem_endedSpans {start stop i : ℕ} (h : (start, stop, i) ∈ endedSpans cells writes) :
    ∃ w, writes[i]? = some w ∧ w.start = start ∧ cells.ends w.stop = stop := by
  rw [endedSpans, (List.perm_insertionSort _ _).mem_iff, List.mem_filterMap] at h
  obtain ⟨⟨w, j⟩, hmem, hspan⟩ := h
  dsimp only at hspan
  split_ifs at hspan with hopen
  obtain ⟨n, hn⟩ := ENat.ne_top_iff_exists.mp hopen
  simp only [Option.some.injEq, Prod.mk.injEq] at hspan
  obtain ⟨rfl, rfl, rfl⟩ := hspan
  refine ⟨w, List.mk_mem_zipIdx_iff_getElem?.mp hmem, rfl, ?_⟩
  rw [← hn, ENat.toNat_natCast]

/-- The spans that ended, in order, are of different places. -/
theorem pairwise_endedSpans (cells : Cells) (writes : List Window) :
    (endedSpans cells writes).Pairwise fun a b => a.1 ≤ b.1 ∧ a.2.2 ≠ b.2.2 := by
  have hle : (endedSpans cells writes).Pairwise fun a b => a.1 ≤ b.1 :=
    (List.pairwise_insertionSort spanLe _).imp fun h => by
      unfold spanLe at h
      omega
  have hne : (endedSpans cells writes).Pairwise fun a b => a.2.2 ≠ b.2.2 := by
    rw [endedSpans, (List.perm_insertionSort _ _).pairwise_iff fun h => h.symm,
      List.pairwise_filterMap]
    refine (List.pairwise_map.mp writes.nodup_zipIdx_map_snd).imp fun hij x hx y hy => ?_
    dsimp only at hx hy
    split_ifs at hx hy
    cases hx
    cases hy
    exact hij
  exact hle.and hne

/-- What covers two spans, in a new cell. -/
def Window.join (a b : Window) (stop : ℕ) : Window := ⟨a.start, stop, none, a.parts ++ b.parts⟩

/-- Two of the spans that ended are joined in one. -/
structure Joins (histories : List (UInt64 × History)) (points : List ℕ) (cells : Cells)
    (before after : List Window) (after' : Cells) (a b : Window) : Prop where
  left : a ∈ before
  right : b ∈ before
  start_le : a.start ≤ b.start
  stops : ∃ m n : ℕ, cells.ends a.stop = m ∧ cells.ends b.stop = n ∧
    joinable histories m b.start n points = true ∧ after' = cells.new (max m n : ℕ)
  mem : ∀ w ∈ after, w = a.join b cells.count ∨ w ∈ before
  joined : a.join b cells.count ∈ after
  kept : ∀ w ∈ before, w = a ∨ w = b ∨ w ∈ after

/-- A span is kept already, or added, and two that ended may be joined. -/
theorem write_cases (histories : List (UInt64 × History)) (points : List ℕ) (writes : List Window)
    (cells : Cells) (w : Window) :
    (∃ kept ∈ writes, kept.stop = w.stop) ∧
        write histories points writes cells w = (writes, cells) ∨
      write histories points writes cells w = (writes ++ [w], cells) ∨
      ∃ a b, Joins histories points cells (writes ++ [w])
        (write histories points writes cells w).1 (write histories points writes cells w).2 a b := by
  rw [write]
  dsimp only
  split_ifs with hkept hfew
  · obtain ⟨kept, hmem, hstop⟩ := List.any_eq_true.mp hkept
    exact .inl ⟨⟨kept, hmem, of_decide_eq_true hstop⟩, rfl⟩
  · exact .inr (.inl rfl)
  · generalize writes ++ [w] = before
    cases hfind : (((endedSpans cells before).zip (endedSpans cells before).tail).find?
        fun x => joinable histories x.1.2.1 x.2.1 x.2.2.1 points) with
    | none => exact .inr (.inl rfl)
    | some pair =>
      obtain ⟨⟨start, m, i⟩, start', n, j⟩ := pair
      refine .inr (.inr ?_)
      have hmem := List.mem_of_find?_eq_some hfind
      have hjoinable := List.find?_some hfind
      obtain ⟨hle, hne⟩ := rel_of_mem_zip_tail (pairwise_endedSpans cells before) hmem
      obtain ⟨hleft, hright⟩ := List.of_mem_zip hmem
      obtain ⟨a, ha, rfl, hm⟩ := mem_endedSpans hleft
      obtain ⟨b, hb, rfl, hn⟩ := mem_endedSpans (List.mem_of_mem_tail hright)
      dsimp only at hle hne hjoinable
      dsimp only
      rw [ha, hb, Option.elim_some, Option.elim_some]
      refine ⟨a, b, List.mem_of_getElem? ha, List.mem_of_getElem? hb, hle,
        ⟨m, n, hm, hn, hjoinable, rfl⟩, fun w hw => ?_, ?_, fun w hw => ?_⟩
      · rcases (mem_set_eraseIdx ha hne).mp hw with rfl | ⟨k, -, -, hw⟩
        · exact .inl rfl
        · exact .inr (List.mem_of_getElem? hw)
      · exact (mem_set_eraseIdx ha hne).mpr (.inl rfl)
      · obtain ⟨k, hw⟩ := List.mem_iff_getElem?.mp hw
        by_cases hi : k = i
        · exact .inl (Option.some.inj (hw.symm.trans (hi ▸ ha)))
        · by_cases hj : k = j
          · exact .inr (.inl (Option.some.inj (hw.symm.trans (hj ▸ hb))))
          · exact .inr (.inr ((mem_set_eraseIdx ha hne).mpr (.inr ⟨k, hi, hj, hw⟩)))

/-- No set lies between the ends of joinable spans, and a state that came after the one's end and went
before the other's start leaves no time between them. -/
theorem joinable_spec {m start n : ℕ} (h : joinable histories m start n points = true) :
    (∀ point ∈ points, min m n ≤ point → max m n ≤ point) ∧
      ∀ e ∈ histories, ∀ holder ∈ e.2.holders, (m : ℕ∞) ≤ holder.made →
        holder.gone ≤ start → start ≤ m := by
  rw [joinable] at h
  split_ifs at h with hsets
  refine ⟨fun point hpoint hlow => ?_, fun e he holder hholder hmade hgone => ?_⟩
  · by_contra hhigh
    refine hsets (List.any_eq_true.mpr ⟨point, hpoint, ?_⟩)
    rw [Bool.and_eq_true, decide_eq_true_eq, decide_eq_true_eq]
    exact ⟨hlow, not_le.mp hhigh⟩
  · rcases Bool.or_eq_true_iff.mp h with hle | hnone
    · exact of_decide_eq_true hle
    · rw [Bool.not_eq_true', ← Bool.not_eq_true] at hnone
      refine absurd (List.any_eq_true.mpr ⟨e, he, List.any_eq_true.mpr ⟨holder, hholder, ?_⟩⟩) hnone
      simp only [Bool.and_eq_true, decide_eq_true_eq]
      exact ⟨⟨Nat.cast_le.mp hmade, ne_top_of_le_ne_top (ENat.natCast_ne_top _) hgone⟩, hgone⟩

theorem Cells.new_self (c : Cells) (stop : ℕ∞) : (c.new stop).ends c.count = stop :=
  Function.update_self _ _ _

theorem Cells.new_of_ne (c : Cells) {stop : ℕ∞} {cell : ℕ} (h : cell ≠ c.count) :
    (c.new stop).ends cell = c.ends cell :=
  Function.update_of_ne h _ _

theorem Cells.new_of_ne_top (c : Cells) {stop : ℕ∞} {cell : ℕ} (hfresh : c.ends c.count = ⊤)
    (hcell : c.ends cell ≠ ⊤) : (c.new stop).ends cell = c.ends cell :=
  c.new_of_ne fun h => hcell (h ▸ hfresh)

/-! ### The states that spans name -/

/-- A state held its ID in a span. -/
def Holder.Within (h : Holder) (x : ℕ × ℕ∞) : Prop :=
  (h.made : ℕ∞) < x.2 ∧ (x.1 : ℕ∞) < h.gone

theorem foldl_insert (holders : List Holder) (x : ℕ × ℕ∞) (states : List UInt64)
    (hnodup : states.Nodup) :
    (holders.foldl (fun states holder => if (holder.made : ℕ∞) < x.2 ∧
        (x.1 : ℕ∞) < holder.gone then states.insert holder.identifier else states)
      states).Nodup ∧
    ∀ i, i ∈ holders.foldl (fun states holder => if (holder.made : ℕ∞) < x.2 ∧
        (x.1 : ℕ∞) < holder.gone then states.insert holder.identifier else states) states ↔
      i ∈ states ∨ ∃ h ∈ holders, h.Within x ∧ h.identifier = i := by
  induction holders generalizing states with
  | nil => exact ⟨hnodup, fun i => by simp⟩
  | cons h holders ih =>
    rw [List.foldl_cons]
    split_ifs with hwithin
    · obtain ⟨hnodup, hmem⟩ := ih (states.insert h.identifier) hnodup.insert
      refine ⟨hnodup, fun i => ?_⟩
      rw [hmem, List.mem_insert_iff, List.exists_mem_cons_iff, or_assoc, or_left_comm]
      have hself : (h.Within x ∧ h.identifier = i) ↔ i = h.identifier :=
        ⟨fun hi => hi.2.symm, fun hi => ⟨hwithin, hi.symm⟩⟩
      rw [hself]
    · obtain ⟨hnodup, hmem⟩ := ih _ hnodup
      refine ⟨hnodup, fun i => ?_⟩
      rw [hmem, List.exists_mem_cons_iff]
      have hself : ¬(h.Within x ∧ h.identifier = i) := fun hi => hwithin hi.1
      rw [or_iff_right hself]

/-- The states of spans are those that held the ID in one, unless some are no longer kept. -/
theorem addStates_spec (h : History) (spans : List (ℕ × ℕ∞)) (states : List UInt64)
    (hnodup : states.Nodup) :
    ((∃ x ∈ spans, (x.1 : ℕ∞) < h.lostUntil) ∧ addStates h spans states = .error .lost) ∨
      (¬∃ x ∈ spans, (x.1 : ℕ∞) < h.lostUntil) ∧ ∃ found, addStates h spans states = .ok found ∧
        found.Nodup ∧ ∀ i, i ∈ found ↔
          i ∈ states ∨ ∃ x ∈ spans, ∃ holder ∈ h.holders, holder.Within x ∧ holder.identifier = i := by
  induction spans generalizing states with
  | nil => exact .inr ⟨by simp, states, rfl, hnodup, by simp⟩
  | cons x spans ih =>
    obtain ⟨start, stop⟩ := x
    rw [addStates, List.exists_mem_cons_iff]
    split_ifs with hlost
    · exact .inl ⟨.inl hlost, rfl⟩
    · obtain ⟨hnodup', hmem'⟩ := foldl_insert h.holders (start, stop) states hnodup
      rcases ih _ hnodup' with ⟨hlost', heq⟩ | ⟨hkept, found, heq, hfound, hmem⟩
      · exact .inl ⟨.inr hlost', heq⟩
      · refine .inr ⟨not_or.mpr ⟨hlost, hkept⟩, found, heq, hfound, fun i => ?_⟩
        rw [hmem, hmem', List.exists_mem_cons_iff, or_assoc]

theorem only_perm {history : Option History} {l l' : List UInt64} (h : l.Perm l') :
    only history l = only history l' := by
  match l, h with
  | [], h => rw [h.nil_eq]
  | [x], h => rw [List.singleton_perm.mp h]
  | x :: y :: l, h =>
    match l', h with
    | [], h => exact absurd h.length_eq (by simp)
    | [z], h => exact absurd h.length_eq (by simp)
    | z :: z' :: l', h => rfl

/-- A set lies between the ends of what a span was joined of. -/
def Straddles (ends : ℕ → ℕ∞) (w : Window) (point : ℕ) : Prop :=
  (∃ q ∈ w.parts, ends q.stop ≤ (point : ℕ∞)) ∧ (point : ℕ∞) < ends w.stop

/-- A span covers its parts, and a state that held its ID in it did in one of them. -/
structure Covers (ends : ℕ → ℕ∞) (histories : List (UInt64 × History)) (w : Window) :
    Prop where
  low : ∀ q ∈ w.parts, w.start ≤ q.start
  first : ∃ q ∈ w.parts, q.start = w.start
  high : ∀ q ∈ w.parts, ends q.stop ≤ ends w.stop
  last : ∃ q ∈ w.parts, ends q.stop = ends w.stop
  tight : ∀ e ∈ histories, ∀ h ∈ e.2.holders, h.Within (w.start, ends w.stop) →
    ∃ q ∈ w.parts, h.Within (q.start, ends q.stop)

section

variable {ends : ℕ → ℕ∞} {apart : List Opened}

/-- What holds of a span that counts if and only if it does of one of its parts. -/
theorem exists_counted_iff {P : ℕ × ℕ∞ → Prop} {point : ℕ}
    (hkept : ∀ w ∈ writes, ∀ q ∈ w.parts, q ∈ apart)
    (hcovered : ∀ q ∈ apart, ∃ w ∈ writes, q ∈ w.parts)
    (hcovers : ∀ w ∈ writes, Covers ends histories w)
    (hunsplit : ∀ w ∈ writes, ¬Straddles ends w point)
    (hdown : ∀ w ∈ writes, P (w.start, ends w.stop) → ∃ q ∈ w.parts, P (q.start, ends q.stop))
    (hup : ∀ w ∈ writes, ∀ q ∈ w.parts, P (q.start, ends q.stop) → P (w.start, ends w.stop)) :
    (∃ x ∈ (writes.map fun w => (w.start, ends w.stop)).filter
        fun x => (point : ℕ∞) < x.2, P x) ↔
      ∃ x ∈ (apart.map fun w => (w.start, ends w.stop)).filter
        fun x => (point : ℕ∞) < x.2, P x := by
  simp only [List.mem_filter, List.mem_map, decide_eq_true_eq]
  constructor
  · rintro ⟨_, ⟨⟨w, hw, rfl⟩, hcounts⟩, hx⟩
    obtain ⟨q, hq, hp⟩ := hdown w hw hx
    refine ⟨_, ⟨⟨q, hkept w hw q hq, rfl⟩, ?_⟩, hp⟩
    by_contra hearly
    exact hunsplit w hw ⟨⟨q, hq, not_lt.mp hearly⟩, hcounts⟩
  · rintro ⟨_, ⟨⟨q, hq, rfl⟩, hcounts⟩, hx⟩
    obtain ⟨w, hw, hqw⟩ := hcovered q hq
    exact ⟨_, ⟨⟨w, hw, rfl⟩, hcounts.trans_le ((hcovers w hw).high q hqw)⟩, hup w hw q hqw hx⟩

/-- Spans that cover all of those apart name the same states, for a set that none straddles. -/
theorem namedState_eq {own : Option (SetPipeline × ℕ)}
    (hkept : ∀ w ∈ writes, ∀ q ∈ w.parts, q ∈ apart)
    (hcovered : ∀ q ∈ apart, ∃ w ∈ writes, q ∈ w.parts)
    (hcovers : ∀ w ∈ writes, Covers ends histories w)
    (hpos : ∀ stop, ((0 : ℕ) : ℕ∞) < ends stop)
    (hunsplit : ∀ w ∈ writes, ∀ x, own = some x → ¬Straddles ends w x.2) (id : UInt64) :
    namedState own (writes.map fun w => (w.start, ends w.stop)) id (histories.lookup id) =
      namedState own (apart.map fun w => (w.start, ends w.stop)) id (histories.lookup id) := by
  have hcore : (own.elim [] fun set => if set.1.id = id then [set.1.identifier] else []).Nodup := by
    cases own with
    | none => exact .nil
    | some set =>
      rw [Option.elim_some]
      split_ifs
      · exact List.nodup_singleton _
      · exact .nil
  have hpoint : ∀ w ∈ writes, ¬Straddles ends w (own.elim 0 Prod.snd) := by
    cases own with
    | none => exact fun w _ ⟨⟨q, _, hq⟩, _⟩ => (hpos q.stop).not_ge hq
    | some x => exact fun w hw => hunsplit w hw x rfl
  unfold namedState
  cases hlookup : histories.lookup id with
  | none => rfl
  | some h =>
    have hmem : (id, h) ∈ histories := by
      obtain ⟨before, after, rfl, -⟩ := List.lookup_eq_some_iff.mp hlookup
      exact List.mem_append_right _ List.mem_cons_self
    have hlost := exists_counted_iff (P := fun x => (x.1 : ℕ∞) < h.lostUntil) hkept hcovered
      hcovers hpoint (fun w hw hx => by
        obtain ⟨q, hq, hstart⟩ := (hcovers w hw).first
        exact ⟨q, hq, by rwa [hstart]⟩)
      fun w hw q hq hx => (Nat.cast_le.mpr ((hcovers w hw).low q hq)).trans_lt hx
    have hstates (i : UInt64) := exists_counted_iff
      (P := fun x => ∃ holder ∈ h.holders, holder.Within x ∧ holder.identifier = i) hkept hcovered
      hcovers hpoint (fun w hw ⟨holder, hholder, hwithin, hi⟩ => by
        obtain ⟨q, hq, hpart⟩ := (hcovers w hw).tight _ hmem holder hholder hwithin
        exact ⟨q, hq, holder, hholder, hpart, hi⟩)
      fun w hw q hq ⟨holder, hholder, ⟨hmade, hgone⟩, hi⟩ =>
        ⟨holder, hholder, ⟨hmade.trans_le ((hcovers w hw).high q hq),
          (Nat.cast_le.mpr ((hcovers w hw).low q hq)).trans_lt hgone⟩, hi⟩
    dsimp only
    rcases addStates_spec h _ _ hcore with ⟨hgone, heq⟩ | ⟨hheld, found, heq, hfound, hin⟩
    · rcases addStates_spec h _ _ hcore with ⟨hgone', heq'⟩ | ⟨hheld', -⟩
      · rw [heq, heq']
      · exact absurd (hlost.mp hgone) hheld'
    · rcases addStates_spec h _ _ hcore with ⟨hgone', -⟩ | ⟨-, found', heq', hfound', hin'⟩
      · exact absurd (hlost.mpr hgone') hheld
      · rw [heq, heq', Except.bind, Except.bind]
        refine only_perm ((List.perm_ext_iff_of_nodup hfound hfound').mpr fun i => ?_)
        rw [hin, hin', hstates]

end

/-! ### Core's sets -/

namespace Sides

variable (s t : Sides) {source range : Indices} {into : ℕ}

theorem own_put (index : ℕ) (side : Option CommandSide) :
    (s.put index side).own = Function.update s.own index (side.getD {}).own := by
  funext j
  have hget : (s.put index side).own j =
      ((Function.update s.commands index side j).getD {}).own := rfl
  rw [hget]
  by_cases h : j = index
  · rw [h, Function.update_self, Function.update_self]
  · rw [Function.update_of_ne h, Function.update_of_ne h]
    rfl

theorem own_mayBe (index : ℕ) (side : Option CommandSide) : (s.mayBe index side).own = s.own := by
  rw [mayBe]
  dsimp only
  split_ifs
  · rw [own_put]
    exact Function.update_eq_self index s.own
  · rfl

theorem own_take (hsource : source.stop ≤ 2 ^ 32) (hinto : into + source.count ≤ 2 ^ 32) :
    (s.take source.start into (t.copies source)).own = fun j =>
      if into ≤ j ∧ j < into + source.count then t.own (source.start + (j - into)) else s.own j := by
  have hcount : source.start + source.count ≤ 2 ^ 32 := by
    rw [Indices.count, Nat.add_sub_cancel' source.le]
    exact hsource
  rw [take, foldl_copies]
  refine s.value_foldl own into (h := fun i _ => t.own i) fun s i hi hn => ?_
  dsimp only
  rw [tryU32_of_lt (i := i) (by omega), tryU32_of_lt (by omega), Option.bind_some]
  exact s.own_put _ _

theorem own_foldl {α : Type} {f : Sides → α → Sides} (hf : ∀ s x, (f s x).own = s.own)
    (l : List α) : (l.foldl f s).own = s.own := by
  induction l generalizing s with
  | nil => rfl
  | cons x l ih => exact (ih (f s x)).trans (hf s x)

theorem own_unsettle (start : ℕ) (moved : List (ℕ × Option CommandSide)) :
    (s.unsettle start into moved).own = s.own :=
  s.own_foldl (fun s x => by split; exacts [rfl, s.own_mayBe _ _]) moved

theorem own_mayClear : (s.mayClear range).own = s.own :=
  s.own_foldl (fun s i => by split; exacts [rfl, s.own_mayBe _ _]) _

theorem own_clear (hrange : range.stop ≤ 2 ^ 32) :
    (s.clear range).own = fun j => if j ∈ range then none else s.own j :=
  s.value_each own (h := fun _ => none) hrange fun s i => s.own_put i none

end Sides

/-! ### The spans kept -/

/-- A span that is one command buffer's. -/
def Window.Alone (w : Window) : Prop := ∃ c, w.parts = [⟨w.start, w.stop, c⟩]

namespace Window.Alone

variable {w : Window} {ends : ℕ → ℕ∞}

theorem covers (h : w.Alone) : Covers ends histories w := by
  obtain ⟨c, hparts⟩ := h
  have hmem : (⟨w.start, w.stop, c⟩ : Opened) ∈ w.parts := by
    rw [hparts]
    exact List.mem_singleton_self _
  have hself {q : Opened} (hq : q ∈ w.parts) : q = ⟨w.start, w.stop, c⟩ :=
    List.mem_singleton.mp (hparts ▸ hq)
  exact ⟨fun q hq => by rw [hself hq], ⟨_, hmem, rfl⟩, fun q hq => by rw [hself hq], ⟨_, hmem, rfl⟩,
    fun e he holder hholder hwithin => ⟨_, hmem, hwithin⟩⟩

theorem not_straddles (h : w.Alone) (point : ℕ) : ¬Straddles ends w point := by
  obtain ⟨c, hparts⟩ := h
  rintro ⟨⟨q, hq, hle⟩, hlt⟩
  obtain rfl : q = ⟨w.start, w.stop, c⟩ := List.mem_singleton.mp (hparts ▸ hq)
  exact hlt.not_ge hle

end Window.Alone

namespace Names

variable {β δ : Type} {made : β → Made} {device : β → δ} {p p' : Names β δ} {b : β} {w : Window}

/-- A span that was joined of ended ones, with no set of the buffer's commands between their ends. -/
structure Joined (made : β → Made) (device : β → δ) (p : Names β δ) (b : β) (w : Window) : Prop
    extends Covers p.cells.ends (p.histories (device b)) w where
  ended : p.cells.ends w.stop ≠ ⊤
  unsplit : ∀ i < (made b).size, ∀ x, p.own b i = some x → ¬Straddles p.cells.ends w x.2

/-- A span that a buffer may keep. -/
structure Fits (made : β → Made) (device : β → δ) (p : Names β δ) (b : β) (w : Window) : Prop where
  stop_lt : w.stop < p.cells.count
  start_le : ∀ q ∈ w.parts, q.start ≤ p.order
  alone_or : w.Alone ∨ Joined made device p b w
  unique : ∀ b', ∀ w' ∈ p.writes b', w'.stop = w.stop → w' = w

theorem Fits.covers (h : Fits made device p b w) : Covers p.cells.ends (p.histories (device b)) w :=
  h.alone_or.elim (fun h => h.covers) fun h => h.toCovers

theorem Fits.unsplit (h : Fits made device p b w) {i : ℕ} (hi : i < (made b).size)
    {x : SetPipeline × ℕ} (hx : p.own b i = some x) : ¬Straddles p.cells.ends w x.2 :=
  h.alone_or.elim (fun h => h.not_straddles _) fun h => h.unsplit i hi x hx

/-- A joined span's ends came before, so it stays joined where ends come, while its states and the
buffer's sets stay or are spared. -/
theorem Joined.frame (h : Joined made device p b w)
    (hends : ∀ stop, p.cells.ends stop ≠ ⊤ → p'.cells.ends stop = p.cells.ends stop)
    (htight : ∀ e ∈ p'.histories (device b), ∀ holder ∈ e.2.holders,
      holder.Within (w.start, p.cells.ends w.stop) →
        ∃ q ∈ w.parts, holder.Within (q.start, p.cells.ends q.stop))
    (hown : ∀ i < (made b).size, ∀ x, p'.own b i = some x → ¬Straddles p.cells.ends w x.2) :
    Joined made device p' b w := by
  have hstop := hends w.stop h.ended
  have hparts {q : Opened} (hq : q ∈ w.parts) : p'.cells.ends q.stop = p.cells.ends q.stop :=
    hends q.stop (ne_top_of_le_ne_top h.ended (h.high q hq))
  refine ⟨⟨h.low, h.first, fun q hq => ?_, ?_, fun e he holder hholder hwithin => ?_⟩, ?_,
    fun i hi x hx => ?_⟩
  · rw [hparts hq, hstop]
    exact h.high q hq
  · obtain ⟨q, hq, hlast⟩ := h.last
    exact ⟨q, hq, by rw [hparts hq, hstop, hlast]⟩
  · rw [hstop] at hwithin
    obtain ⟨q, hq, hpart⟩ := htight e he holder hholder hwithin
    exact ⟨q, hq, by rwa [hparts hq]⟩
  · rw [hstop]
    exact h.ended
  · rintro ⟨⟨q, hq, hle⟩, hlt⟩
    rw [hparts hq] at hle
    rw [hstop] at hlt
    exact hown i hi x hx ⟨⟨q, hq, hle⟩, hlt⟩

/-- Two spans joined: a state that held its ID in what covers both and in neither would have been made
and released between them, and a set between the ends keeps them apart. -/
theorem Joined.join {a b' : Window} {before after : List Window} {cells : Cells}
    (hjoins : Joins (p.histories (device b)) (p.setPoints made b) p.cells before after cells a b')
    (hleft : Fits made device p b a) (hright : Fits made device p b b')
    (hfresh : p.cells.ends p.cells.count = ⊤)
    (hmade : ∀ e ∈ p.histories (device b), ∀ h ∈ e.2.holders, (h.made : ℕ∞) < h.gone)
    (hcells : p'.cells = cells) (hhistories : p'.histories = p.histories)
    (hsides : p'.sides = p.sides) :
    Joined made device p' b (a.join b' p.cells.count) := by
  obtain ⟨m, n, hm, hn, hjoinable, rfl⟩ := hjoins.stops
  obtain ⟨hsets, hbetween⟩ := joinable_spec hjoinable
  have hstop : p'.cells.ends p.cells.count = (max m n : ℕ) := by
    rw [hcells, Cells.new_self]
  have hends {stop : ℕ} (h : p.cells.ends stop ≠ ⊤) : p'.cells.ends stop = p.cells.ends stop := by
    rw [hcells, p.cells.new_of_ne_top hfresh h]
  have ha (q : Opened) (hq : q ∈ a.parts) : p.cells.ends q.stop ≤ m := hm ▸ hleft.covers.high q hq
  have hb (q : Opened) (hq : q ∈ b'.parts) : p.cells.ends q.stop ≤ n := hn ▸ hright.covers.high q hq
  have haends (q : Opened) (hq : q ∈ a.parts) : p'.cells.ends q.stop = p.cells.ends q.stop :=
    hends (ne_top_of_le_ne_top (ENat.natCast_ne_top _) (ha q hq))
  have hbends (q : Opened) (hq : q ∈ b'.parts) : p'.cells.ends q.stop = p.cells.ends q.stop :=
    hends (ne_top_of_le_ne_top (ENat.natCast_ne_top _) (hb q hq))
  refine ⟨⟨fun q hq => ?low, ?first, fun q hq => ?high, ?last, fun e he h hh hwithin => ?tight⟩, ?ended,
    fun i hi x hx => ?unsplit⟩
  case low =>
    rcases List.mem_append.mp hq with hq | hq
    · exact hleft.covers.low q hq
    · exact hjoins.start_le.trans (hright.covers.low q hq)
  case first =>
    obtain ⟨q, hq, hfirst⟩ := hleft.covers.first
    exact ⟨q, List.mem_append_left _ hq, hfirst⟩
  case high =>
    show p'.cells.ends q.stop ≤ p'.cells.ends p.cells.count
    rw [hstop]
    rcases List.mem_append.mp hq with hq | hq
    · rw [haends q hq]
      exact (ha q hq).trans (Nat.cast_le.mpr (le_max_left m n))
    · rw [hbends q hq]
      exact (hb q hq).trans (Nat.cast_le.mpr (le_max_right m n))
  case last =>
    show ∃ q ∈ a.parts ++ b'.parts, p'.cells.ends q.stop = p'.cells.ends p.cells.count
    rw [hstop]
    rcases le_total m n with hle | hle
    · obtain ⟨q, hq, hlast⟩ := hright.covers.last
      exact ⟨q, List.mem_append_right _ hq, by rw [hbends q hq, hlast, hn, max_eq_right hle]⟩
    · obtain ⟨q, hq, hlast⟩ := hleft.covers.last
      exact ⟨q, List.mem_append_left _ hq, by rw [haends q hq, hlast, hm, max_eq_left hle]⟩
  case tight =>
    rw [hhistories] at he
    obtain ⟨hbefore, hafter⟩ : (h.made : ℕ∞) < p'.cells.ends p.cells.count ∧
        (a.start : ℕ∞) < h.gone := hwithin
    rw [hstop] at hbefore
    by_cases hwithin : (h.made : ℕ∞) < m
    · obtain ⟨q, hq, hpart⟩ := hleft.covers.tight e he h hh ⟨hm ▸ hwithin, hafter⟩
      exact ⟨q, List.mem_append_left _ hq, by rwa [haends q hq]⟩
    · rw [Nat.cast_lt, lt_max_iff] at hbefore
      have hlast : (h.made : ℕ∞) < n :=
        Nat.cast_lt.mpr (hbefore.resolve_left fun hlt => hwithin (Nat.cast_lt.mpr hlt))
      have hgone : (b'.start : ℕ∞) < h.gone := by
        by_contra hgone
        exact hwithin ((hmade e he h hh).trans_le
          ((not_lt.mp hgone).trans (Nat.cast_le.mpr (hbetween e he h hh (not_lt.mp hwithin)
            (not_lt.mp hgone)))))
      obtain ⟨q, hq, hpart⟩ := hright.covers.tight e he h hh ⟨hn ▸ hlast, hgone⟩
      exact ⟨q, List.mem_append_right _ hq, by rwa [hbends q hq]⟩
  case ended =>
    show p'.cells.ends p.cells.count ≠ ⊤
    rw [hstop]
    exact ENat.natCast_ne_top _
  case unsplit =>
    have hown : p.own b i = some x := by rw [← hx, own, own, hsides]
    have hset : x.2 ∈ p.setPoints made b :=
      List.mem_filterMap.mpr ⟨i, List.mem_range.mpr hi, by rw [hown, Option.map_some]⟩
    rintro ⟨⟨q, hq, hle⟩, hlt⟩
    have hlt : x.2 < max m n := Nat.cast_lt.mp (hstop ▸ hlt)
    rcases List.mem_append.mp hq with hq | hq
    · rw [haends q hq] at hle
      have hm' : m ≤ x.2 :=
        not_lt.mp fun hlt => hleft.unsplit hi hown ⟨⟨q, hq, hle⟩, hm ▸ Nat.cast_lt.mpr hlt⟩
      exact hlt.not_ge (hsets x.2 hset (min_le_of_left_le hm'))
    · rw [hbends q hq] at hle
      have hn' : n ≤ x.2 :=
        not_lt.mp fun hlt => hright.unsplit hi hown ⟨⟨q, hq, hle⟩, hn ▸ Nat.cast_lt.mpr hlt⟩
      exact hlt.not_ge (hsets x.2 hset (min_le_of_right_le hn'))

end Names

end ReimsVgpu.Gpu.Icb
