import Mathlib.Data.Finset.Card
import Mathlib.Data.Finset.Lattice.Basic
import Mathlib.Combinatorics.Pigeonhole
import Mathlib.Logic.Relation

/-!
# Walking a chain of successors

Every node of a graph has at most one successor. A walk from a node follows the chain of successors
until it ends or comes back to the start. Where no cycle avoids the start, it ends within as many
steps as the chain has nodes to visit, and it comes back exactly when the start lies on a cycle.

## Main definitions

* `ChainWalk.chase`: the walk.
* `ChainWalk.Off`: the edges that do not leave a node.

## Main results

* `ChainWalk.chase_spec`: when the walk ends, and with which answer.
* `ChainWalk.acyclic_of_off`, `ChainWalk.acyclic_of_sink`: how acyclicity survives a new edge, and
  a change of the edges into a node without successors.
-/

open Relation

namespace ChainWalk

variable {α : Type*}

/-- The edges of `r` that do not leave `a`. -/
def Off (r : α → α → Prop) (a x y : α) : Prop := r x y ∧ x ≠ a

section Acyclic

variable {r r' : α → α → Prop} {a x y : α}

theorem TransGen.of_off (h : TransGen (Off r a) x y) : TransGen r x y :=
  TransGen.mono (fun _ _ (hedge : Off r a _ _) => hedge.1) x y h

/-- A path either avoids the edges of a node or passes through the node. -/
theorem off_or_through (a : α) (h : TransGen r x y) :
    TransGen (Off r a) x y ∨ ReflTransGen r x a ∧ TransGen r a y := by
  induction h with
  | single hedge =>
    by_cases hx : x = a
    · subst hx
      exact .inr ⟨.refl, .single hedge⟩
    · exact .inl (.single ⟨hedge, hx⟩)
  | tail _ hedge ih =>
    rename_i b c _
    rcases ih with hoff | ⟨hto, hfrom⟩
    · by_cases hb : b = a
      · subst hb
        exact .inr ⟨(TransGen.of_off hoff).to_reflTransGen, .single hedge⟩
      · exact .inl (hoff.tail ⟨hedge, hb⟩)
    · exact .inr ⟨hto, hfrom.tail hedge⟩

/-- A graph without cycles off a node, and with none through it, has none. -/
theorem acyclic_of_off (hoff : ∀ x, ¬ TransGen (Off r a) x x) (ha : ¬ TransGen r a a) (x : α) :
    ¬ TransGen r x x := by
  intro hcycle
  rcases off_or_through a hcycle with hpath | ⟨hto, hfrom⟩
  · exact hoff x hpath
  · exact ha (hfrom.trans_left hto)

/-- Edges into a node that no edge leaves are on no cycle. -/
theorem acyclic_of_sink (hacyclic : ∀ x, ¬ TransGen r x x) (hsink : ∀ y, ¬ r' a y)
    (hsub : ∀ x y, y ≠ a → r' x y → r x y) (x : α) : ¬ TransGen r' x x := by
  have hpath : ∀ y, TransGen r' x y → y ≠ a → TransGen r x y := by
    intro y h
    induction h with
    | single hedge => exact fun hne => .single (hsub _ _ hne hedge)
    | tail _ hedge ih =>
      intro hne
      refine (ih ?_).tail (hsub _ _ hne hedge)
      rintro rfl
      exact hsink _ hedge
  intro hcycle
  have hne : x ≠ a := by
    rintro rfl
    obtain ⟨y, hedge, -⟩ := TransGen.head'_iff.mp hcycle
    exact hsink y hedge
  exact hacyclic x (hpath x hcycle hne)

end Acyclic

section Walk

variable [DecidableEq α] {succ : α → Option α} {a : α}

/-- Follows the chain from `x`: whether it comes to `a`, or `none` when it has not ended after so
many steps. -/
def chase (succ : α → Option α) (a : α) : ℕ → α → Option Bool
  | 0, _ => none
  | n + 1, x =>
    match succ x with
    | none => some false
    | some y => if y = a then some true else chase succ a n y

/-- The edge to the successor. -/
def Edge (succ : α → Option α) (x y : α) : Prop := succ x = some y

theorem chase_sound {n : ℕ} {x : α} {found : Bool} (h : chase succ a n x = some found) :
    found = true ↔ TransGen (Edge succ) x a := by
  induction n generalizing x with
  | zero => cases h
  | succ n ih =>
    rw [chase] at h
    cases hx : succ x with
    | none =>
      rw [hx] at h
      obtain rfl := Option.some.inj h
      refine ⟨fun hc => (Bool.false_ne_true hc).elim, fun hpath => ?_⟩
      obtain ⟨y, hedge, -⟩ := TransGen.head'_iff.mp hpath
      cases hx.symm.trans hedge
    | some y =>
      rw [hx] at h
      dsimp only at h
      split_ifs at h with hy
      · obtain rfl := Option.some.inj h
        subst hy
        exact ⟨fun _ => .single hx, fun _ => rfl⟩
      · rw [ih h]
        refine ⟨fun hpath => .head hx hpath, fun hpath => ?_⟩
        obtain ⟨z, hedge, hrest⟩ := TransGen.head'_iff.mp hpath
        obtain rfl : y = z := Option.some.inj (hx.symm.trans hedge)
        exact (reflTransGen_iff_eq_or_transGen.mp hrest).resolve_left fun heq => hy heq.symm

/-- A walk that has not ended has passed through so many successors. -/
theorem exists_of_chase_eq_none {n : ℕ} {x : α} (h : chase succ a n x = none) :
    ∃ v : ℕ → α, v 0 = x ∧ ∀ i < n, succ (v i) = some (v (i + 1)) ∧ v (i + 1) ≠ a := by
  induction n generalizing x with
  | zero => exact ⟨fun _ => x, rfl, fun i hi => absurd hi (Nat.not_lt_zero i)⟩
  | succ n ih =>
    rw [chase] at h
    cases hx : succ x with
    | none =>
      rw [hx] at h
      cases h
    | some y =>
      rw [hx] at h
      dsimp only at h
      split_ifs at h with hy
      obtain ⟨v, hv, hstep⟩ := ih h
      refine ⟨fun i => Nat.casesOn i x v, rfl, fun i hi => ?_⟩
      cases i with
      | zero =>
        refine ⟨?_, ?_⟩
        · change succ x = some (v 0)
          rw [hx, hv]
        · change v 0 ≠ a
          rw [hv]
          exact hy
      | succ i => exact hstep i (by omega)

/-- A walk that stays in a finite set, where no cycle avoids the start, ends within the number of
its members. -/
theorem chase_ne_none {nodes : Finset α} (ha : a ∈ nodes)
    (hnodes : ∀ x y, succ x = some y → y ∈ nodes)
    (hoff : ∀ x, ¬ TransGen (Off (Edge succ) a) x x) {n : ℕ} (hn : nodes.card ≤ n) :
    chase succ a n a ≠ none := by
  intro h
  obtain ⟨v, hzero, hstep⟩ := exists_of_chase_eq_none h
  have hpath : ∀ i j, i < j → j ≤ n → 0 < i → TransGen (Off (Edge succ) a) (v i) (v j) := by
    intro i j hij
    induction j, hij using Nat.le_induction with
    | base =>
      intro hj hi
      obtain ⟨k, rfl⟩ : ∃ k, i = k + 1 := ⟨i - 1, by omega⟩
      exact .single ⟨(hstep (k + 1) (by omega)).1, (hstep k (by omega)).2⟩
    | succ j hij ih =>
      intro hj hi
      obtain ⟨k, rfl⟩ : ∃ k, j = k + 1 := ⟨j - 1, by omega⟩
      exact (ih (by omega) hi).tail ⟨(hstep (k + 1) (by omega)).1, (hstep k (by omega)).2⟩
  have hne : ∀ i, 0 < i → i ≤ n → v i ≠ a := by
    intro i hi hle
    obtain ⟨k, rfl⟩ : ∃ k, i = k + 1 := ⟨i - 1, by omega⟩
    exact (hstep k (by omega)).2
  have hmem : ∀ i ∈ Finset.range (n + 1), v i ∈ nodes := by
    intro i hi
    have hle := Finset.mem_range_succ_iff.mp hi
    cases i with
    | zero => rw [hzero]; exact ha
    | succ k => exact hnodes _ _ (hstep k (by omega)).1
  have hcard : nodes.card < (Finset.range (n + 1)).card := by
    rw [Finset.card_range]
    omega
  obtain ⟨i, hi, j, hj, hij, heq⟩ :=
    Finset.exists_ne_map_eq_of_card_lt_of_maps_to hcard hmem
  have hrepeat : ∀ i j, i < j → j ≤ n → v i = v j → False := by
    intro i j hlt hle heq
    rcases Nat.eq_zero_or_pos i with rfl | hpos
    · exact hne j (by omega) hle (heq.symm.trans hzero)
    · exact hoff (v j) (heq ▸ hpath i j hlt hle hpos)
  have hile := Finset.mem_range_succ_iff.mp hi
  have hjle := Finset.mem_range_succ_iff.mp hj
  rcases Nat.lt_or_gt_of_ne hij with hlt | hlt
  · exact hrepeat i j hlt hjle heq
  · exact hrepeat j i hlt hile heq.symm

/-- The walk from a node off which there is no cycle answers whether the node is on one. -/
theorem chase_spec {nodes : Finset α} (ha : a ∈ nodes)
    (hnodes : ∀ x y, succ x = some y → y ∈ nodes)
    (hoff : ∀ x, ¬ TransGen (Off (Edge succ) a) x x) {n : ℕ} (hn : nodes.card ≤ n) :
    ∃ found, chase succ a n a = some found ∧ (found = true ↔ TransGen (Edge succ) a a) := by
  obtain ⟨found, hfound⟩ := Option.ne_none_iff_exists'.mp (chase_ne_none ha hnodes hoff hn)
  exact ⟨found, hfound, chase_sound hfound⟩

end Walk

end ChainWalk
