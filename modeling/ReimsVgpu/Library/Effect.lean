import Mathlib.Tactic.Basic

/-!
# Programs that ask and log

A program of `Effect σ ω ε` asks the outside, whose state is of type `σ`, logs events of type `ω`, and
ends in a value or stops with an error of type `ε`. Its weakest precondition `wp E m Q R` says that every
event it logs is of `E`, and that it ends in `Q` or stops in `R`. Each rule says what the precondition of
one form of program is, so that the rules rewrite it step by step.

## Main definitions

* `Effect`, `Effect.stop`, `Effect.log`, `Effect.ask`, `Effect.attempt`, `Effect.mapError`.
* `Effect.wp`: the weakest precondition.
* `Effect.Keeps`: every event logged is of a kind.

## Main results

* `Effect.wp_bind`, and the rule of each form.
-/

/-- A program over an outside state, with the events it logs. -/
def Effect (σ ω ε α : Type) : Type := σ → Except ε α × List ω × σ

namespace Effect

variable {σ ω ε ε' α β : Type}

instance : Monad (Effect σ ω ε) where
  pure a s := (.ok a, [], s)
  bind m f s :=
    match m s with
    | (.error e, log, s) => (.error e, log, s)
    | (.ok a, log, s) =>
      let (result, rest, s) := f a s
      (result, log ++ rest, s)

/-- The program stopped. -/
def stop (e : ε) : Effect σ ω ε α := fun s => (.error e, [], s)

/-- An event logged. -/
def log (e : ω) : Effect σ ω ε Unit := fun s => (.ok (), [e], s)

/-- The outside asked. -/
def ask (f : σ → α × σ) : Effect σ ω ε α := fun s => (.ok (f s).1, [], (f s).2)

/-- A program run for how it ends. -/
def attempt (m : Effect σ ω ε α) : Effect σ ω ε' (Except ε α) := fun s => (.ok (m s).1, (m s).2)

/-- A program's error changed. -/
def mapError (f : ε → ε') (m : Effect σ ω ε α) : Effect σ ω ε' α := fun s =>
  (match (m s).1 with
    | .ok a => .ok a
    | .error e => .error (f e), (m s).2)

/-- Every event logged is of `E`, and the program ends in `Q` or stops in `R`. -/
def wp (E : ω → Prop) (m : Effect σ ω ε α) (Q : α → σ → Prop) (R : ε → σ → Prop) (s : σ) : Prop :=
  (∀ e ∈ (m s).2.1, E e) ∧
    match (m s).1 with
    | .ok a => Q a (m s).2.2
    | .error e => R e (m s).2.2

/-- From every state, every event logged is of `E`. -/
def Keeps (E : ω → Prop) (m : Effect σ ω ε α) : Prop :=
  ∀ s, wp E m (fun _ _ => True) (fun _ _ => True) s

variable {E E' : ω → Prop} {m : Effect σ ω ε α} {Q Q' : α → σ → Prop} {R R' : ε → σ → Prop} {s : σ}

@[simp]
theorem wp_pure (a : α) : wp E (pure a : Effect σ ω ε α) Q R s ↔ Q a s :=
  ⟨fun h => h.2, fun h => ⟨fun _ he => absurd he List.not_mem_nil, h⟩⟩

theorem bind_apply (m : Effect σ ω ε α) (f : α → Effect σ ω ε β) (s : σ) : (m >>= f) s =
    match m s with
    | (.error e, log, s) => (.error e, log, s)
    | (.ok a, log, s) => ((f a s).1, log ++ (f a s).2.1, (f a s).2.2) := rfl

@[simp]
theorem wp_bind (f : α → Effect σ ω ε β) {Q : β → σ → Prop} :
    wp E (m >>= f) Q R s ↔ wp E m (fun a s => wp E (f a) Q R s) R s := by
  unfold wp
  rw [bind_apply]
  obtain ⟨result, log, s'⟩ := m s
  cases result with
  | error e => exact Iff.rfl
  | ok a =>
    dsimp only
    rw [List.forall_mem_append, and_assoc]

@[simp]
theorem wp_discard {Q : PUnit → σ → Prop} :
    wp E (discard m) Q R s ↔ wp E m (fun _ s => Q ⟨⟩ s) R s := by
  change wp E (m >>= fun _ => pure ⟨⟩) Q R s ↔ _
  simp only [wp_bind, wp_pure]

@[simp]
theorem wp_ite (c : Prop) [Decidable c] {m' : Effect σ ω ε α} :
    wp E (if c then m else m') Q R s ↔ if c then wp E m Q R s else wp E m' Q R s := by
  split <;> rfl

@[simp]
theorem wp_stop (e : ε) : wp E (stop e : Effect σ ω ε α) Q R s ↔ R e s :=
  ⟨fun h => h.2, fun h => ⟨fun _ he => absurd he List.not_mem_nil, h⟩⟩

@[simp]
theorem wp_log (e : ω) {Q : Unit → σ → Prop} :
    wp E (log e : Effect σ ω ε Unit) Q R s ↔ E e ∧ Q () s :=
  and_congr_left fun _ => List.forall_mem_singleton

@[simp]
theorem wp_ask (f : σ → α × σ) :
    wp E (ask f : Effect σ ω ε α) Q R s ↔ Q (f s).1 (f s).2 :=
  ⟨fun h => h.2, fun h => ⟨fun _ he => absurd he List.not_mem_nil, h⟩⟩

@[simp]
theorem wp_attempt {Q : Except ε α → σ → Prop} {R : ε' → σ → Prop} :
    wp E (attempt m : Effect σ ω ε' (Except ε α)) Q R s ↔
      wp E m (fun a s => Q (.ok a) s) (fun e s => Q (.error e) s) s := by
  unfold wp attempt
  cases (m s).1 <;> rfl

@[simp]
theorem wp_mapError (f : ε → ε') {R : ε' → σ → Prop} :
    wp E (mapError f m) Q R s ↔ wp E m Q (fun e s => R (f e) s) s := by
  unfold wp mapError
  cases (m s).1 <;> rfl

/-- More events, and weaker ends. -/
theorem wp.imp (h : wp E m Q R s) (hE : ∀ e, E e → E' e) (hQ : ∀ a s, Q a s → Q' a s)
    (hR : ∀ e s, R e s → R' e s) : wp E' m Q' R' s := by
  obtain ⟨hlog, hend⟩ := h
  refine ⟨fun e he => hE e (hlog e he), ?_⟩
  split
  · next heq =>
    rw [heq] at hend
    exact hQ _ _ hend
  · next heq =>
    rw [heq] at hend
    exact hR _ _ hend

/-- A program that keeps a kind of event, of which its end says nothing. -/
theorem Keeps.wp (h : Keeps E m) (hQ : ∀ a s, Q a s) (hR : ∀ e s, R e s) : wp E m Q R s :=
  (h s).imp (fun _ => id) (fun a s _ => hQ a s) fun e s _ => hR e s

theorem Keeps.mem {e : ω} (h : Keeps E m) (he : e ∈ (m s).2.1) : E e := (h s).1 e he

end Effect
