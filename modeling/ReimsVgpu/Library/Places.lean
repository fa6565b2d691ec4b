import Mathlib.Data.List.Perm.Basic
import Mathlib.Data.Set.Insert

/-!
# Items kept apart in places

Each place has a list of items. Places are apart where every item there is lies in one place only, and
once. An item new to all of them can be put in any place, and items can be moved from a place to
another, in whatever order they come to lie there.

## Main results

* `Places.Apart.add`, `Places.Apart.move`.
-/

namespace Places

open List (Perm)

variable {P α : Type*} {places places' : P → List α} {all : Set α}

/-- Every item of `all` lies in one place, and once. -/
structure Apart (places : P → List α) (all : Set α) : Prop where
  nodup : ∀ p, (places p).Nodup
  mem_all : ∀ p, ∀ a ∈ places p, a ∈ all
  exists_mem : ∀ a ∈ all, ∃ p, a ∈ places p
  eq_of_mem : ∀ p q, ∀ a ∈ places p, a ∈ places q → p = q

theorem Apart.empty : Apart (fun _ : P => ([] : List α)) ∅ where
  nodup _ := List.nodup_nil
  mem_all _ _ := nofun
  exists_mem _ := nofun
  eq_of_mem _ _ _ := nofun

/-- A new item put in a place. -/
theorem Apart.add (h : Apart places all) {a : α} (ha : a ∉ all) {p : P}
    (hput : Perm (places' p) (a :: places p)) (hothers : ∀ q, q ≠ p → Perm (places' q) (places q)) :
    Apart places' (insert a all) := by
  have hmem (q : P) (b : α) : b ∈ places' q ↔ (b = a ∧ q = p) ∨ b ∈ places q := by
    by_cases hq : q = p
    · rw [hq, hput.mem_iff, List.mem_cons, and_iff_left rfl]
    · rw [(hothers q hq).mem_iff, or_iff_right fun hboth => hq hboth.2]
  have hold (q : P) : a ∉ places q := fun hin => ha (h.mem_all q a hin)
  refine ⟨fun q => ?_, fun q b hb => ?_, fun b hb => ?_, fun q q' b hb hb' => ?_⟩
  · by_cases hq : q = p
    · rw [hq, hput.nodup_iff]
      exact List.nodup_cons.mpr ⟨hold p, h.nodup p⟩
    · exact (hothers q hq).nodup_iff.mpr (h.nodup q)
  · rcases (hmem q b).mp hb with ⟨rfl, -⟩ | hb
    · exact Set.mem_insert _ _
    · exact Set.mem_insert_of_mem _ (h.mem_all q b hb)
  · rcases Set.mem_insert_iff.mp hb with rfl | hb
    · exact ⟨p, (hmem p b).mpr (.inl ⟨rfl, rfl⟩)⟩
    · obtain ⟨q, hq⟩ := h.exists_mem b hb
      exact ⟨q, (hmem q b).mpr (.inr hq)⟩
  · rcases (hmem q b).mp hb with ⟨rfl, rfl⟩ | hb
    · rcases (hmem q' b).mp hb' with ⟨-, rfl⟩ | hb'
      · rfl
      · exact absurd hb' (hold q')
    · rcases (hmem q' b).mp hb' with ⟨rfl, -⟩ | hb'
      · exact absurd hb (hold q)
      · exact h.eq_of_mem q q' b hb hb'

/-- Items moved from a place to another. -/
theorem Apart.move (h : Apart places all) {src dst : P} (hne : src ≠ dst) (moved rest : List α)
    (hsrc : Perm (places src) (moved ++ rest)) (hleft : Perm (places' src) rest)
    (hdst : Perm (places' dst) (moved ++ places dst))
    (hothers : ∀ q, q ≠ src → q ≠ dst → Perm (places' q) (places q)) : Apart places' all := by
  obtain ⟨hmoved, hrest, happart⟩ := List.nodup_append.mp (hsrc.nodup_iff.mp (h.nodup src))
  have hin {b : α} (hb : b ∈ moved) : b ∈ places src := hsrc.mem_iff.mpr (List.mem_append_left _ hb)
  -- An item lies where it lay, or was moved.
  have hmem (q : P) (b : α) :
      b ∈ places' q ↔ (b ∈ moved ∧ q = dst) ∨ (b ∉ moved ∧ b ∈ places q) := by
    by_cases hq : q = src
    · subst hq
      rw [hleft.mem_iff, hsrc.mem_iff, List.mem_append, or_iff_right fun hboth => hne hboth.2]
      constructor
      · exact fun hb => ⟨fun hb' => happart b hb' b hb rfl, .inr hb⟩
      · exact fun hb => hb.2.resolve_left hb.1
    · by_cases hq' : q = dst
      · subst hq'
        rw [hdst.mem_iff, List.mem_append, and_iff_left rfl]
        by_cases hb : b ∈ moved
        · exact iff_of_true (.inl hb) (.inl hb)
        · rw [or_iff_right hb, or_iff_right hb, and_iff_right hb]
      · rw [(hothers q hq hq').mem_iff, or_iff_right fun hboth => hq' hboth.2]
        exact ⟨fun hb => ⟨fun hb' => hq (h.eq_of_mem q src b hb (hin hb')), hb⟩, And.right⟩
  refine ⟨fun q => ?_, fun q b hb => ?_, fun b hb => ?_, fun q q' b hb hb' => ?_⟩
  · by_cases hq : q = src
    · rw [hq, hleft.nodup_iff]
      exact hrest
    · by_cases hq' : q = dst
      · rw [hq', hdst.nodup_iff]
        refine List.nodup_append.mpr ⟨hmoved, h.nodup dst, fun b hb c hc heq => hne ?_⟩
        exact h.eq_of_mem src dst b (hin hb) (heq ▸ hc)
      · exact (hothers q hq hq').nodup_iff.mpr (h.nodup q)
  · rcases (hmem q b).mp hb with ⟨hb, -⟩ | ⟨-, hb⟩
    · exact h.mem_all src b (hin hb)
    · exact h.mem_all q b hb
  · by_cases hb' : b ∈ moved
    · exact ⟨dst, (hmem dst b).mpr (.inl ⟨hb', rfl⟩)⟩
    · obtain ⟨q, hq⟩ := h.exists_mem b hb
      exact ⟨q, (hmem q b).mpr (.inr ⟨hb', hq⟩)⟩
  · rcases (hmem q b).mp hb with ⟨hb, rfl⟩ | ⟨hnot, hb⟩
    · rcases (hmem q' b).mp hb' with ⟨-, rfl⟩ | ⟨hnot, -⟩
      · rfl
      · exact absurd hb hnot
    · rcases (hmem q' b).mp hb' with ⟨hb', -⟩ | ⟨-, hb'⟩
      · exact absurd hb' hnot
      · exact h.eq_of_mem q q' b hb hb'

end Places
