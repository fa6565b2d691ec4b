import ReimsVgpu.Library.Effect
import Mathlib.Data.List.Induction

/-!
# What programs keep of their history

A program of `Effect` is run after others have logged events. A triple says what holds of the whole
history and of the state after it, whichever way it ends, when something holds of them before. An
invariant of the history is one that a program keeps, and a program made of others keeps what they all
keep; of the values passed from one to the next, facts that no state changes are enough.

## Main definitions

* `Effect.EachAfter`: what each event is of the events before it.
* `Effect.Triple`: a precondition, and what holds at each end.
* `Effect.Upholds`: an invariant kept at each end, with a fact about the value.
* `Effect.require`, `Effect.found`, `Effect.cleanup`: forms of programs.
-/

namespace Effect

variable {σ ω ε α β : Type}

/-! ### Forms of programs -/

/-- The program goes on where `p` holds. -/
def require (p : Prop) [Decidable p] (e : ε) : Effect σ ω ε Unit := if p then pure () else stop e

/-- The program goes on with what there is. -/
def found (a : Option α) (e : ε) : Effect σ ω ε α := a.elim (stop e) pure

/-- An error that is caught runs `c` and goes on, or `c`'s error in its place. -/
def cleanup (caught : ε → Bool) (m : Effect σ ω ε α) (c : Effect σ ω ε Unit) : Effect σ ω ε α := do
  match ← attempt m with
  | .ok a => pure a
  | .error e =>
    if caught e then do
      c
      stop e
    else stop e

/-! ### Histories -/

/-- Each event is of `p` of the events before it. -/
def EachAfter (p : List ω → ω → Prop) (log : List ω) : Prop :=
  ∀ before e after, log = before ++ e :: after → p before e

section EachAfter

variable {p p' : List ω → ω → Prop} {log : List ω}

theorem EachAfter.nil : EachAfter p [] := by
  intro before e after h
  exact absurd h.symm (List.append_ne_nil_of_right_ne_nil before (List.cons_ne_nil e after))

theorem EachAfter.concat {e : ω} (h : EachAfter p log) (he : p log e) : EachAfter p (log ++ [e]) := by
  intro before x after heq
  rcases List.eq_nil_or_concat after with rfl | ⟨rest, y, rfl⟩
  · obtain ⟨rfl, hx⟩ := List.append_inj' heq rfl
    obtain rfl := List.singleton_inj.mp hx
    exact he
  · rw [List.concat_eq_append, ← List.cons_append, ← List.append_assoc] at heq
    exact h before x rest (List.append_inj_left' heq rfl)

theorem EachAfter.mono (h : EachAfter p log) (hp : ∀ before e, p before e → p' before e) :
    EachAfter p' log :=
  fun before e after heq => hp before e (h before e after heq)

/-- What each event is of every one before it. -/
theorem EachAfter.pairwise {r : ω → ω → Prop} (h : EachAfter p log)
    (hr : ∀ before e, p before e → ∀ a ∈ before, r a e) : log.Pairwise r := by
  induction log using List.reverseRecOn with
  | nil => exact .nil
  | append_singleton log e ih =>
    rw [List.pairwise_append]
    refine ⟨ih fun before x after heq => h before x (after ++ [e]) ?_, List.pairwise_singleton r e, ?_⟩
    · rw [heq, List.append_assoc, List.cons_append]
    · intro a ha b hb
      obtain rfl := List.mem_singleton.mp hb
      exact hr log b (h log b [] rfl) a ha

end EachAfter

/-! ### Triples -/

/-- After events and in a state of `P`, the program ends in `Q` of its value, or stops in `R` of its
error, the events it logs counted in. -/
def Triple (P : List ω → σ → Prop) (m : Effect σ ω ε α) (Q : α → List ω → σ → Prop)
    (R : ε → List ω → σ → Prop) : Prop :=
  ∀ past s, P past s →
    match (m s).1 with
    | .ok a => Q a (past ++ (m s).2.1) (m s).2.2
    | .error e => R e (past ++ (m s).2.1) (m s).2.2

variable {P P' : List ω → σ → Prop} {m : Effect σ ω ε α} {Q Q' : α → List ω → σ → Prop}
  {R R' : ε → List ω → σ → Prop}

theorem Triple.imp (h : Triple P m Q R) (hP : ∀ past s, P' past s → P past s)
    (hQ : ∀ a past s, Q a past s → Q' a past s) (hR : ∀ e past s, R e past s → R' e past s) :
    Triple P' m Q' R' := by
  intro past s hs
  have hend := h past s (hP past s hs)
  split
  · next heq =>
    rw [heq] at hend
    exact hQ _ _ _ hend
  · next heq =>
    rw [heq] at hend
    exact hR _ _ _ hend

/-- A fact that no state changes is read out of a precondition. -/
theorem Triple.of_fact {p : Prop} (h : p → Triple P m Q R) :
    Triple (fun past s => P past s ∧ p) m Q R :=
  fun past s hs => h hs.2 past s hs.1

theorem Triple.pure {a : α} (h : ∀ past s, P past s → Q a past s) :
    Triple P (pure a : Effect σ ω ε α) Q R := by
  intro past s hs
  have hQ := h past s hs
  rw [← List.append_nil past] at hQ
  exact hQ

theorem Triple.stop {e : ε} (h : ∀ past s, P past s → R e past s) :
    Triple P (stop e : Effect σ ω ε α) Q R := by
  intro past s hs
  have hR := h past s hs
  rw [← List.append_nil past] at hR
  exact hR

theorem Triple.log {e : ω} {Q : Unit → List ω → σ → Prop}
    (h : ∀ past s, P past s → Q () (past ++ [e]) s) :
    Triple P (log e : Effect σ ω ε Unit) Q R :=
  fun past s hs => h past s hs

theorem Triple.ask {f : σ → α × σ} (h : ∀ past s, P past s → Q (f s).1 past (f s).2) :
    Triple P (ask f : Effect σ ω ε α) Q R := by
  intro past s hs
  have hQ := h past s hs
  rw [← List.append_nil past] at hQ
  exact hQ

theorem Triple.bind {f : α → Effect σ ω ε β} {Q : β → List ω → σ → Prop}
    {M : α → List ω → σ → Prop} (h : Triple P m M R) (hf : ∀ a, Triple (M a) (f a) Q R) :
    Triple P (m >>= f) Q R := by
  intro past s hs
  have hend := h past s hs
  rw [bind_apply]
  generalize m s = ended at hend ⊢
  obtain ⟨result, log, s'⟩ := ended
  cases result with
  | error e => exact hend
  | ok a =>
    have hrest := hf a _ _ hend
    rw [List.append_assoc] at hrest
    exact hrest

theorem Triple.ite {c : Prop} [Decidable c] {m' : Effect σ ω ε α} (h : c → Triple P m Q R)
    (h' : ¬ c → Triple P m' Q R) : Triple P (if c then m else m') Q R := by
  split
  · next hc => exact h hc
  · next hc => exact h' hc

theorem Triple.attempt {ε' : Type} {R' : ε' → List ω → σ → Prop} (h : Triple P m Q R) :
    Triple P (attempt m : Effect σ ω ε' (Except ε α))
      (fun result past s => match result with
        | .ok a => Q a past s
        | .error e => R e past s) R' :=
  fun past s hs => h past s hs

/-- What is caught is cleaned up after, from where the program stopped. -/
theorem Triple.cleanup {caught : ε → Bool} {c : Effect σ ω ε Unit} {S : ε → List ω → σ → Prop}
    (h : Triple P m Q S) (hS : ∀ e past s, caught e = false → S e past s → R e past s)
    (hc : ∀ e, caught e = true → Triple (S e) c (fun _ past s => R e past s) R) :
    Triple P (cleanup caught m c) Q R := by
  refine Triple.bind h.attempt fun result => ?_
  cases result with
  | ok a => exact .pure fun past s hs => hs
  | error e =>
    by_cases he : caught e = true
    · simp only [he, if_true]
      exact .bind (hc e he) fun _ => .stop fun past s hs => hs
    · simp only [he]
      exact .stop fun past s hs => hS e past s (eq_false_of_ne_true he) hs

theorem Triple.require {p : Prop} [Decidable p] {e : ε} (h : ∀ past s, ¬ p → P past s → R e past s) :
    Triple P (require p e) (fun _ past s => P past s ∧ p) R :=
  .ite (fun hp => .pure fun _ _ hs => ⟨hs, hp⟩) fun hp => .stop fun past s hs => h past s hp hs

theorem Triple.found {a : Option α} {e : ε} (h : ∀ past s, P past s → R e past s) :
    Triple P (found a e) (fun x past s => P past s ∧ a = some x) R := by
  cases a with
  | none => exact .stop h
  | some x => exact .pure fun _ _ hs => ⟨hs, rfl⟩

/-! ### Invariants of the history -/

/-- The program keeps `I`, and its value is of `Q`. -/
def Upholds (I : List ω → σ → Prop) (m : Effect σ ω ε α) (Q : α → Prop) : Prop :=
  Triple I m (fun a past s => I past s ∧ Q a) fun _ => I

variable {I : List ω → σ → Prop} {q q' : α → Prop}

theorem Upholds.pure {a : α} (h : q a) : Upholds I (pure a : Effect σ ω ε α) q :=
  Triple.pure fun _ _ hs => ⟨hs, h⟩

theorem Upholds.stop {e : ε} : Upholds I (stop e : Effect σ ω ε α) q := Triple.stop fun _ _ => id

theorem Upholds.bind {f : α → Effect σ ω ε β} {r : β → Prop} (h : Upholds I m q)
    (hf : ∀ a, q a → Upholds I (f a) r) : Upholds I (m >>= f) r :=
  Triple.bind h fun a => Triple.of_fact fun ha => hf a ha

theorem Upholds.ite {c : Prop} [Decidable c] {m' : Effect σ ω ε α} (h : c → Upholds I m q)
    (h' : ¬ c → Upholds I m' q) : Upholds I (if c then m else m') q :=
  Triple.ite h h'

theorem Upholds.require {p : Prop} [Decidable p] {e : ε} :
    Upholds I (require p e : Effect σ ω ε Unit) fun _ => p :=
  Triple.require fun _ _ _ => id

theorem Upholds.found {a : Option α} {e : ε} :
    Upholds I (found a e : Effect σ ω ε α) fun x => a = some x :=
  Triple.found fun _ _ => id

/-! ### Runs from the start -/

/-- A program run before anything has been logged. -/
theorem Triple.run {s : σ} (h : Triple P m Q R) (hs : P [] s) :
    match (m s).1 with
    | .ok a => Q a (m s).2.1 (m s).2.2
    | .error e => R e (m s).2.1 (m s).2.2 :=
  h [] s hs

/-- What holds at either end holds of what the program logged. -/
theorem Triple.always {J : List ω → σ → Prop} {s : σ} (h : Triple P m (fun _ => J) fun _ => J)
    (hs : P [] s) : J (m s).2.1 (m s).2.2 := by
  have hend := h.run hs
  cases hr : (m s).1 with
  | ok a =>
    rw [hr] at hend
    exact hend
  | error e =>
    rw [hr] at hend
    exact hend

end Effect
