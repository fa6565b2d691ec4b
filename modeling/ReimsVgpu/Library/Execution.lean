import Mathlib.Data.List.Basic
import Mathlib.Data.List.Induction

/-!
# Runs of a labelled step relation

A system is a step relation `step s a s'`: from the state `s`, the action `a` may lead to `s'`.
A run is a list of actions together with the states it passes through; the last action is the
outermost constructor, so an induction over a run adds one step at its end. Properties of every
reachable state follow from one step (`Execution.invariant`), and properties of the whole history
of actions from one step as well (`Execution.history`).

## Main definitions

* `Execution`: `Execution step s as t` says that the actions `as` lead from `s` to `t`.

## Main results

* `Execution.invariant`, `Execution.history`, `Execution.mono`, `Execution.trans`,
  `Execution.of_middle`, `Execution.of_foldlM`, `Execution.of_foldl`.
-/

variable {σ α : Type*}

/-- The actions `as`, in this order, lead from the first state to the second. -/
inductive Execution (step : σ → α → σ → Prop) : σ → List α → σ → Prop
  | nil (s : σ) : Execution step s [] s
  | snoc {s t u : σ} {as : List α} {a : α} (h : Execution step s as t) (hs : step t a u) :
      Execution step s (as ++ [a]) u

namespace Execution

variable {step step' : σ → α → σ → Prop} {s t u : σ} {as bs : List α}

/-- What holds at the start and is kept by every step holds in every state reached. -/
theorem invariant {I : σ → Prop} (h : Execution step s as t) (h0 : I s)
    (hstep : ∀ s a s', I s → step s a s' → I s') : I t := by
  induction h with
  | nil => exact h0
  | snoc _ hs ih => exact hstep _ _ _ ih hs

/-- The invariant rule for properties of the actions taken so far and the state they led to. -/
theorem history {P : List α → σ → Prop} (h : Execution step s as t) (h0 : P [] s)
    (hstep : ∀ as s a s', P as s → step s a s' → P (as ++ [a]) s') : P as t := by
  induction h with
  | nil => exact h0
  | snoc _ hs ih => exact hstep _ _ _ _ ih hs

/-- A run of one relation is a run of any larger one. -/
theorem mono (h : Execution step s as t) (hle : ∀ s a s', step s a s' → step' s a s') :
    Execution step' s as t := by
  induction h with
  | nil => exact .nil _
  | snoc _ hs ih => exact .snoc ih (hle _ _ _ hs)

/-- One step is a run. -/
theorem single {a : α} (h : step s a t) : Execution step s [a] t :=
  .snoc (.nil s) h

/-- Runs compose. -/
theorem trans (h : Execution step s as t) (h' : Execution step t bs u) :
    Execution step s (as ++ bs) u := by
  induction h' with
  | nil => simpa using h
  | snoc _ hs ih =>
    rw [← List.append_assoc]
    exact .snoc ih hs

/-- A run of a list that ends in an action ends in a step of that action. -/
theorem of_concat {a : α} (h : Execution step s (as ++ [a]) u) :
    ∃ t, Execution step s as t ∧ step t a u := by
  generalize has : as ++ [a] = cs at h
  cases h with
  | nil => exact absurd has (List.append_ne_nil_of_right_ne_nil as (List.cons_ne_nil a []))
  | snoc h hs =>
    obtain ⟨rfl, ha⟩ := List.append_inj' has rfl
    obtain rfl := List.singleton_inj.mp ha
    exact ⟨_, h, hs⟩

/-- A run of two lists is a run of the one and then a run of the other. -/
theorem of_append (h : Execution step s (as ++ bs) u) :
    ∃ t, Execution step s as t ∧ Execution step t bs u := by
  induction bs using List.reverseRecOn generalizing u with
  | nil => exact ⟨u, by rwa [List.append_nil] at h, .nil u⟩
  | append_singleton bs b ih =>
    rw [← List.append_assoc] at h
    obtain ⟨v, hv, hs⟩ := of_concat h
    obtain ⟨t, hpre, hpost⟩ := ih hv
    exact ⟨t, hpre, .snoc hpost hs⟩

/-- A run passes through the step of each of its actions. -/
theorem of_middle {a : α} (h : Execution step s (as ++ a :: bs) u) :
    ∃ t v, Execution step s as t ∧ step t a v ∧ Execution step v bs u := by
  rw [List.append_cons] at h
  obtain ⟨v, hpre, hpost⟩ := of_append h
  obtain ⟨t, hpre, hs⟩ := of_concat hpre
  exact ⟨t, v, hpre, hs, hpost⟩

/-- Running a step function along a list of actions is a run. -/
theorem of_foldlM {ε : Type*} {f : σ → α → Except ε σ} (as : List α)
    (hf : ∀ s a t, f s a = .ok t → step s a t) {s : σ} (h : as.foldlM f s = .ok t) : Execution step s as t := by
  induction as generalizing s with
  | nil =>
    obtain rfl := Except.ok.inj h
    exact .nil _
  | cons a as ih =>
    rw [List.foldlM_cons] at h
    cases ha : f s a with
    | error e => rw [ha] at h; cases h
    | ok u =>
      rw [ha] at h
      exact (single (hf s a u ha)).trans (ih h)

/-- Running a partial step function along a list of actions is a run. -/
theorem of_foldlM_option (f : σ → α → Option σ) (as : List α) {s : σ}
    (h : as.foldlM f s = some t) : Execution (fun s a t => f s a = some t) s as t := by
  induction as generalizing s with
  | nil =>
    obtain rfl := Option.some.inj h
    exact .nil _
  | cons a as ih =>
    rw [List.foldlM_cons] at h
    obtain ⟨u, hu, hrest⟩ := Option.bind_eq_some_iff.mp h
    exact (single hu).trans (ih hrest)

/-- Running a total step function along a list of actions is a run. -/
theorem of_foldl (f : σ → α → σ) (s : σ) (as : List α) :
    Execution (fun s a t => t = f s a) s as (as.foldl f s) := by
  induction as generalizing s with
  | nil => exact .nil s
  | cons a as ih =>
    have hstep : Execution (fun s a t => t = f s a) s [a] (f s a) := single rfl
    exact hstep.trans (ih (f s a))

end Execution
