import Mathlib.Data.Set.Basic
import Mathlib.Logic.Function.Basic

/-!
# Beliefs about values moved out of sight

A keeper follows values that something else moves. Of each place it keeps a belief: a value under
each key, and the keys whose values it does not know. A belief holds of the real values when each
value it knows is the real one.

A transfer moves the values of some places to others, or makes them fresh. One that happened moves
the beliefs as it moves the values. One that may or may not have happened leaves unknown what its
two outcomes would tell apart, and the belief holds of either. Transfers happen out of sight before
the keeper hears of them, so the real values are those the beliefs hold of after the transfers at
work that happened.

## Main definitions

* `Belief`, `Belief.Holds`: what is believed of a place, and of which values it holds.
* `Belief.write`, `Belief.mayBe`: some keys written; this belief or another.
* `Transfer`, `Transfer.moved`: where the values of each place come from, and the move.
* `Transfer.ran`, `Agrees`: the transfers at work, and the beliefs that hold but for them.

## Main results

* `Agrees.write`, `Agrees.decide`, `Agrees.land`, `Agrees.mayLand`: what each event keeps.
* `Agrees.read`: a value known at a place no transfer at work writes is the real one.
-/

/-- What is believed of one place: a value under each key, and the keys whose values are not
known. -/
@[ext]
structure Belief {κ : Type*} (V : κ → Type*) where
  value : ∀ k, V k
  unknown : Set κ

namespace Belief

variable {κ : Type*} {V : κ → Type*} {b c : Belief V} {r : ∀ k, V k}

/-- Each value that is known is the real one. -/
def Holds (b : Belief V) (r : ∀ k, V k) : Prop := ∀ k ∉ b.unknown, b.value k = r k

/-- Every value is known. -/
def sure (r : ∀ k, V k) : Belief V := ⟨r, ∅⟩

/-- The keys that `w` gives a value are written, and known. -/
def write (w : ∀ k, Option (V k)) (b : Belief V) : Belief V where
  value k := (w k).getD (b.value k)
  unknown := {k | k ∈ b.unknown ∧ w k = none}

/-- The place is as before or as another: what the two would tell apart is unknown. -/
def mayBe (b c : Belief V) : Belief V where
  value := b.value
  unknown := b.unknown ∪ c.unknown ∪ {k | b.value k ≠ c.value k}

theorem holds_sure : (sure r).Holds r := fun _ _ => rfl

theorem mayBe_self : b.mayBe b = b := by
  ext k
  · rfl
  · simp [mayBe]

theorem Holds.write (h : b.Holds r) (w : ∀ k, Option (V k)) :
    (b.write w).Holds fun k => (w k).getD (r k) := by
  intro k hk
  cases hw : w k with
  | none =>
    have hknown : k ∉ b.unknown := fun hu => hk ⟨hu, hw⟩
    simp only [Belief.write, hw, Option.getD_none, h k hknown]
  | some v => simp only [Belief.write, hw, Option.getD_some]

theorem Holds.mayBe (h : b.Holds r) (c : Belief V) : (b.mayBe c).Holds r :=
  fun k hk => h k fun hu => hk (.inl (.inl hu))

theorem Holds.mayBe_other (h : c.Holds r) (b : Belief V) : (b.mayBe c).Holds r := by
  intro k hk
  have hsame : b.value k = c.value k := not_not.mp fun hne => hk (.inr hne)
  have hknown : k ∉ c.unknown := fun hu => hk (.inl (.inr hu))
  exact hsame.trans (h k hknown)

end Belief

/-- Where the values of a place come from in a transfer. -/
inductive Origin (α : Type*)
  /-- The place keeps its own. -/
  | kept
  /-- They are made fresh. -/
  | fresh
  /-- They are another place's before the transfer. -/
  | place (a : α)

/-- A transfer of values between places. -/
abbrev Transfer (α : Type*) := α → Origin α

namespace Transfer

variable {α β : Type*} {m : Transfer α} {a : α}

/-- What each place holds after the transfer. -/
def moved (m : Transfer α) (fresh : β) (f : α → β) (a : α) : β :=
  match m a with
  | .kept => f a
  | .fresh => fresh
  | .place s => f s

theorem moved_kept (h : m a = .kept) (fresh : β) (f : α → β) : m.moved fresh f a = f a := by
  rw [moved, h]

theorem moved_fresh (h : m a = .fresh) (fresh : β) (f : α → β) : m.moved fresh f a = fresh := by
  rw [moved, h]

theorem moved_place {s : α} (h : m a = .place s) (fresh : β) (f : α → β) :
    m.moved fresh f a = f s := by
  rw [moved, h]

/-- The transfer neither reads the place nor writes it. -/
def Spares (m : Transfer α) (a : α) : Prop := m a = .kept ∧ ∀ a', m a' ≠ .place a

variable [DecidableEq α]

/-- A place the transfer spares may as well be written after it. -/
theorem Spares.moved_update (h : m.Spares a) (fresh : β) (f : α → β) (x : β) :
    m.moved fresh (Function.update f a x) = Function.update (m.moved fresh f) a x := by
  ext a'
  by_cases ha : a' = a
  · subst ha
    rw [moved_kept h.1, Function.update_self, Function.update_self]
  · rw [Function.update_of_ne ha]
    cases hm : m a' with
    | kept => rw [moved_kept hm, moved_kept hm, Function.update_of_ne ha]
    | fresh => rw [moved_fresh hm, moved_fresh hm]
    | place s =>
      have hs : s ≠ a := fun hs => h.2 a' (hs ▸ hm)
      rw [moved_place hm, moved_place hm, Function.update_of_ne hs]

omit [DecidableEq α]

/-- What each place holds once those of the transfers at work that happened did: of each come to,
in order, whether it did. -/
def ran (fresh : β) (f : α → β) : List (Transfer α) → List Bool → α → β
  | m :: l, true :: ahead => ran fresh (m.moved fresh f) l ahead
  | _ :: l, false :: ahead => ran fresh f l ahead
  | _, _ => f

variable {fresh : β} {f : α → β} {l : List (Transfer α)} {ahead : List Bool}

@[simp] theorem ran_nil : ran fresh f l [] = f := by
  cases l <;> rfl

/-- Work that comes later changes nothing yet. -/
theorem ran_append (h : ahead.length ≤ l.length) (l' : List (Transfer α)) :
    ran fresh f (l ++ l') ahead = ran fresh f l ahead := by
  induction ahead generalizing f l with
  | nil => rw [ran_nil, ran_nil]
  | cons b ahead ih =>
    cases l with
    | nil => exact absurd h (Nat.not_succ_le_zero _)
    | cons m l =>
      have hle : ahead.length ≤ l.length := Nat.le_of_succ_le_succ h
      cases b
      · exact ih hle
      · exact ih hle

/-- The next transfer is come to. -/
theorem ran_concat {m : Transfer α} (h : l[ahead.length]? = some m) (b : Bool) :
    ran fresh f l (ahead ++ [b]) =
      if b then m.moved fresh (ran fresh f l ahead) else ran fresh f l ahead := by
  induction ahead generalizing f l with
  | nil =>
    cases l with
    | nil => cases h
    | cons m' l =>
      obtain rfl : m' = m := Option.some.inj h
      cases b <;> simp [ran]
  | cons b' ahead ih =>
    cases l with
    | nil => cases h
    | cons m' l =>
      have hnext : l[ahead.length]? = some m := h
      cases b'
      · exact ih hnext
      · exact ih hnext

/-- Transfers that did not happen change nothing. -/
theorem ran_pad (n : ℕ) :
    ran fresh f l (ahead ++ List.replicate n false) = ran fresh f l ahead := by
  induction ahead generalizing f l with
  | nil =>
    rw [List.nil_append, ran_nil]
    induction n generalizing l with
    | zero => exact ran_nil
    | succ n ih =>
      cases l with
      | nil => rfl
      | cons m l => exact ih
  | cons b ahead ih =>
    cases l with
    | nil => rfl
    | cons m l => cases b <;> exact ih

/-- A place that every transfer at work keeps holds what it held. -/
theorem ran_apply (h : ∀ m ∈ l, m a = .kept) : ran fresh f l ahead a = f a := by
  induction ahead generalizing f l with
  | nil => rw [ran_nil]
  | cons b ahead ih =>
    cases l with
    | nil => rfl
    | cons m l =>
      have hrest : ∀ m ∈ l, m a = .kept := fun m' hm => h m' (List.mem_cons_of_mem m hm)
      cases b
      · exact ih hrest
      · exact (ih hrest).trans (moved_kept (h m List.mem_cons_self) fresh f)

/-- A place that every transfer at work spares may as well be written after them. -/
theorem ran_update [DecidableEq α] (h : ∀ m ∈ l, m.Spares a) (y : β) :
    ran fresh (Function.update f a y) l ahead = Function.update (ran fresh f l ahead) a y := by
  induction ahead generalizing f l with
  | nil => rw [ran_nil, ran_nil]
  | cons b ahead ih =>
    cases l with
    | nil => rfl
    | cons m l =>
      have hrest : ∀ m ∈ l, m.Spares a := fun m' hm => h m' (List.mem_cons_of_mem m hm)
      have hspares : m.Spares a := h m List.mem_cons_self
      cases b
      · exact ih hrest
      · simp only [ran]
        rw [hspares.moved_update, ih hrest]

end Transfer

/-- The beliefs hold of values that are the real ones once those of the transfers at work that
happened did. -/
def Agrees {α κ : Type*} {V : κ → Type*} (fresh : ∀ k, V k) (B : α → Belief V)
    (R : α → ∀ k, V k) (l : List (Transfer α)) (ahead : List Bool) : Prop :=
  ∃ R₀ : α → ∀ k, V k, (∀ a, (B a).Holds (R₀ a)) ∧ R = Transfer.ran fresh R₀ l ahead

namespace Agrees

variable {α κ : Type*} {V : κ → Type*} {fresh : ∀ k, V k} {B : α → Belief V}
  {R : α → ∀ k, V k} {l : List (Transfer α)} {ahead : List Bool}

/-- A value known at a place that no transfer at work writes is the real one. -/
theorem read (h : Agrees fresh B R l ahead) {a : α} (ha : ∀ m ∈ l, m a = .kept) {k : κ}
    (hk : k ∉ (B a).unknown) : (B a).value k = R a k := by
  obtain ⟨R₀, hB, rfl⟩ := h
  rw [Transfer.ran_apply ha]
  exact hB a k hk

/-- Keys of a place that the transfers at work spare are written. -/
theorem write [DecidableEq α] (h : Agrees fresh B R l ahead) {a : α}
    (ha : ∀ m ∈ l, m.Spares a) (w : ∀ k, Option (V k)) :
    Agrees fresh (Function.update B a ((B a).write w))
      (Function.update R a fun k => (w k).getD (R a k)) l ahead := by
  obtain ⟨R₀, hB, rfl⟩ := h
  have hkept : Transfer.ran fresh R₀ l ahead a = R₀ a :=
    Transfer.ran_apply fun m hm => (ha m hm).1
  refine ⟨Function.update R₀ a fun k => (w k).getD (R₀ a k), fun a' => ?_, ?_⟩
  · by_cases h' : a' = a
    · subst h'
      simp only [Function.update_self]
      exact (hB a').write w
    · simp only [Function.update_of_ne h']
      exact hB a'
  · rw [Transfer.ran_update ha, hkept]

/-- More transfers are at work. -/
theorem append (h : Agrees fresh B R l ahead) (hle : ahead.length ≤ l.length)
    (l' : List (Transfer α)) : Agrees fresh B R (l ++ l') ahead := by
  obtain ⟨R₀, hB, rfl⟩ := h
  exact ⟨R₀, hB, (Transfer.ran_append hle l').symm⟩

/-- The next transfer is come to, and happens or does not. -/
theorem decide (h : Agrees fresh B R l ahead) {m : Transfer α} (hm : l[ahead.length]? = some m)
    (b : Bool) : Agrees fresh B (if b then m.moved fresh R else R) l (ahead ++ [b]) := by
  obtain ⟨R₀, hB, rfl⟩ := h
  exact ⟨R₀, hB, (Transfer.ran_concat hm b).symm⟩

/-- The next transfers are not to happen. -/
theorem pad (h : Agrees fresh B R l ahead) (n : ℕ) :
    Agrees fresh B R l (ahead ++ List.replicate n false) := by
  obtain ⟨R₀, hB, rfl⟩ := h
  exact ⟨R₀, hB, (Transfer.ran_pad n).symm⟩

/-- The keeper hears of the first transfer at work, that it happened. -/
theorem land {m : Transfer α} (h : Agrees fresh B R (m :: l) (true :: ahead)) :
    Agrees fresh (m.moved (Belief.sure fresh) B) R l ahead := by
  obtain ⟨R₀, hB, rfl⟩ := h
  refine ⟨m.moved fresh R₀, fun a => ?_, rfl⟩
  cases hm : m a with
  | kept =>
    rw [Transfer.moved_kept hm, Transfer.moved_kept hm]
    exact hB a
  | fresh =>
    rw [Transfer.moved_fresh hm, Transfer.moved_fresh hm]
    exact Belief.holds_sure
  | place s =>
    rw [Transfer.moved_place hm, Transfer.moved_place hm]
    exact hB s

/-- The keeper hears of the first transfer at work, but not whether it happened. -/
theorem mayLand {m : Transfer α} {b : Bool} (h : Agrees fresh B R (m :: l) (b :: ahead)) :
    Agrees fresh (fun a => (B a).mayBe (m.moved (Belief.sure fresh) B a)) R l ahead := by
  cases b with
  | true =>
    obtain ⟨R₁, hB, hR⟩ := h.land
    exact ⟨R₁, fun a => (hB a).mayBe_other (B a), hR⟩
  | false =>
    obtain ⟨R₀, hB, hR⟩ := h
    exact ⟨R₀, fun a => (hB a).mayBe _, hR⟩

end Agrees
