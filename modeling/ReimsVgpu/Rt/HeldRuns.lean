import Mathlib.Data.List.Induction
import ReimsVgpu.Rt.Held

/-!
# Where held values are, and the order of their releases

In every run of a program, each value that was ever held is in one holder, in one raise, or released,
and holders and raises keep their values in the order they were first held, by whatever way they came.

## Main definitions

* `Place`, `World.values`: where a value is.
* `World.releasedBy`: what a holder's drop released.

## Main results

* `held_in_order`: one place for each value, and a holder's drop releases the most recent first.
-/

namespace ReimsVgpu.Rt.Held

open List (Perm)

variable {α T : Type*}

/-! ### The ordered insertions -/

/-- Values in the order they were first held. -/
def Sorted (values : List (Value α)) : Prop := values.Pairwise fun a b => a.heldAt < b.heldAt

section

variable {values mine : List (Value α)} {v e : Value α}

theorem insert_perm (values : List (Value α)) (v : Value α) : Perm (insert values v) (v :: values) := by
  refine List.perm_middle.trans (Perm.cons v ?_)
  rw [List.takeWhile_append_dropWhile]

theorem insert_cons (e : Value α) (values : List (Value α)) (v : Value α) :
    insert (e :: values) v =
      if e.heldAt ≤ v.heldAt then e :: insert values v else v :: e :: values := by
  unfold insert
  split_ifs with hle
  · rw [List.takeWhile_cons_of_pos (p := fun e : Value α => e.heldAt ≤ v.heldAt)
      (decide_eq_true hle), List.dropWhile_cons_of_pos (p := fun e : Value α => e.heldAt ≤ v.heldAt)
      (decide_eq_true hle), List.cons_append]
  · have he : ¬decide (e.heldAt ≤ v.heldAt) = true := by rwa [decide_eq_true_iff]
    rw [List.takeWhile_cons_of_neg (p := fun e : Value α => e.heldAt ≤ v.heldAt) he,
      List.dropWhile_cons_of_neg (p := fun e : Value α => e.heldAt ≤ v.heldAt) he, List.nil_append]

theorem insert_sorted (h : Sorted values) (hv : ∀ e ∈ values, e.heldAt ≠ v.heldAt) :
    Sorted (insert values v) := by
  induction values with
  | nil => exact List.pairwise_singleton _ _
  | cons e values ih =>
    obtain ⟨hfirst, hrest⟩ := List.pairwise_cons.mp h
    obtain ⟨he, hne⟩ := List.forall_mem_cons.mp hv
    rw [insert_cons]
    split_ifs with hle
    · refine List.pairwise_cons.mpr ⟨fun e' he' => ?_, ih hrest hne⟩
      rcases List.mem_cons.mp ((insert_perm values v).mem_iff.mp he') with rfl | he'
      · exact lt_of_le_of_ne hle he
      · exact hfirst e' he'
    · have hlt := not_le.mp hle
      refine List.pairwise_cons.mpr ⟨fun e' he' => ?_, h⟩
      rcases List.mem_cons.mp he' with rfl | he'
      · exact hlt
      · exact hlt.trans (hfirst e' he')

theorem carry_perm (mine values : List (Value α)) : Perm (carry mine values) (values ++ mine) := by
  induction values generalizing mine with
  | nil => exact Perm.refl mine
  | cons v values ih =>
    refine (ih (insert mine v)).trans ?_
    exact (Perm.append_left values (insert_perm mine v)).trans List.perm_middle

theorem carry_sorted (h : Sorted mine) (hvalues : values.Pairwise fun a b => a.heldAt ≠ b.heldAt)
    (happart : ∀ e ∈ mine, ∀ v ∈ values, e.heldAt ≠ v.heldAt) : Sorted (carry mine values) := by
  induction values generalizing mine with
  | nil => exact h
  | cons v values ih =>
    obtain ⟨hfirst, hrest⟩ := List.pairwise_cons.mp hvalues
    refine ih (insert_sorted h fun e he => happart e he v List.mem_cons_self) hrest ?_
    intro e he v' hv'
    rcases List.mem_cons.mp ((insert_perm mine v).mem_iff.mp he) with rfl | he
    · exact hfirst v' hv'
    · exact happart e he v' (List.mem_cons_of_mem _ hv')

end

/-! ### Where a value is -/

/-- Where a value can be. -/
inductive Place
  | holder (i : ℕ)
  | raise (r : ℕ)
  | released
  | forgotten
  deriving DecidableEq

namespace World

variable {w w' : World α T} {i r : ℕ} {held : Holder α}

/-- The values in a place. -/
def values (w : World α T) : Place → List (Value α)
  | .holder i => ((w.holders i).map Holder.values).getD []
  | .raise r => (w.raises r).getD []
  | .released => w.released.map Release.value
  | .forgotten => w.forgotten

/-- What a holder's drop released, in order. -/
def releasedBy (w : World α T) (i : ℕ) : List (Value α) :=
  (w.released.filter fun release => release.holder = some i).map Release.value

theorem holders_setHolder_self (w : World α T) (i : ℕ) (held : Option (Holder α)) :
    (w.setHolder i held).holders i = held := Function.update_self _ _ _

theorem holders_setHolder_of_ne (w : World α T) {i j : ℕ} (h : j ≠ i) (held : Option (Holder α)) :
    (w.setHolder i held).holders j = w.holders j := Function.update_of_ne h _ _

theorem raises_setRaise_self (w : World α T) (r : ℕ) (carried : Option (List (Value α))) :
    (w.setRaise r carried).raises r = carried := Function.update_self _ _ _

theorem raises_setRaise_of_ne (w : World α T) {r s : ℕ} (h : s ≠ r)
    (carried : Option (List (Value α))) : (w.setRaise r carried).raises s = w.raises s :=
  Function.update_of_ne h _ _

theorem values_setHolder (w : World α T) (i : ℕ) (held : Option (Holder α)) :
    (w.setHolder i held).values =
      Function.update w.values (.holder i) ((held.map Holder.values).getD []) := by
  funext p
  cases p with
  | holder j =>
    by_cases hj : j = i
    · subst hj
      rw [Function.update_self]
      exact congrArg (fun held : Option (Holder α) => (held.map Holder.values).getD [])
        (w.holders_setHolder_self j held)
    · rw [Function.update_of_ne fun heq => hj (Place.holder.inj heq)]
      exact congrArg (fun held : Option (Holder α) => (held.map Holder.values).getD [])
        (w.holders_setHolder_of_ne hj held)
  | raise r => exact (Function.update_of_ne (nofun : Place.raise r ≠ .holder i) _ _).symm
  | released => exact (Function.update_of_ne (nofun : Place.released ≠ .holder i) _ _).symm
  | forgotten => exact (Function.update_of_ne (nofun : Place.forgotten ≠ .holder i) _ _).symm

theorem values_setRaise (w : World α T) (r : ℕ) (carried : Option (List (Value α))) :
    (w.setRaise r carried).values = Function.update w.values (.raise r) (carried.getD []) := by
  funext p
  cases p with
  | raise s =>
    by_cases hs : s = r
    · subst hs
      rw [Function.update_self]
      exact congrArg (fun values : Option (List (Value α)) => values.getD [])
        (w.raises_setRaise_self s carried)
    · rw [Function.update_of_ne fun heq => hs (Place.raise.inj heq)]
      exact congrArg (fun values : Option (List (Value α)) => values.getD [])
        (w.raises_setRaise_of_ne hs carried)
  | holder i => exact (Function.update_of_ne (nofun : Place.holder i ≠ .raise r) _ _).symm
  | released => exact (Function.update_of_ne (nofun : Place.released ≠ .raise r) _ _).symm
  | forgotten => exact (Function.update_of_ne (nofun : Place.forgotten ≠ .raise r) _ _).symm

theorem values_release (w : World α T) (holder : Option ℕ) (v : Value α) :
    (w.release holder v).values =
      Function.update w.values .released (w.values .released ++ [v]) := by
  funext p
  cases p with
  | released =>
    rw [Function.update_self]
    exact List.map_append
  | holder i => exact (Function.update_of_ne (nofun : Place.holder i ≠ .released) _ _).symm
  | raise r => exact (Function.update_of_ne (nofun : Place.raise r ≠ .released) _ _).symm
  | forgotten => exact (Function.update_of_ne (nofun : Place.forgotten ≠ .released) _ _).symm

theorem values_forget (w : World α T) (forgotten : List (Value α)) :
    (w.forget forgotten).values =
      Function.update w.values .forgotten (w.values .forgotten ++ forgotten) := by
  funext p
  cases p with
  | forgotten => rw [Function.update_self]; rfl
  | holder i => exact (Function.update_of_ne (nofun : Place.holder i ≠ .forgotten) _ _).symm
  | raise r => exact (Function.update_of_ne (nofun : Place.raise r ≠ .forgotten) _ _).symm
  | released => exact (Function.update_of_ne (nofun : Place.released ≠ .forgotten) _ _).symm

/-! ### The order of the values -/

/-- Holders and raises keep their values in order, and a holder's drop releases from the end. -/
structure Ordered (w : World α T) : Prop where
  holders : ∀ i held, w.holders i = some held → Sorted held.values
  raises : ∀ r values, w.raises r = some values → Sorted values
  released : ∀ i, (w.releasedBy i).Pairwise fun a b => b.heldAt < a.heldAt
  behind : ∀ i, ∀ v ∈ w.releasedBy i, ∀ held, w.holders i = some held →
    held.dropping ∧ ∀ e ∈ held.values, e.heldAt < v.heldAt
  fresh : ∀ i, w.nextHeld ≤ i → w.holders i = none ∧ w.releasedBy i = []

theorem releasedBy_release (w : World α T) (holder : Option ℕ) (v : Value α) (i : ℕ) :
    (w.release holder v).releasedBy i =
      w.releasedBy i ++ if holder = some i then [v] else [] := by
  rw [releasedBy, release, List.filter_append, List.map_append]
  refine congrArg (w.releasedBy i ++ ·) ?_
  split_ifs with hi
  · exact congrArg (List.map Release.value) (List.filter_cons_of_pos (decide_eq_true hi))
  · exact congrArg (List.map Release.value)
      (List.filter_cons_of_neg (by rwa [decide_eq_true_iff]))

theorem reach_eq (h : w.reach i = some held) : w.holders i = some held ∧ held.dropping = false := by
  obtain ⟨hheld, hdropping⟩ := Option.filter_eq_some_iff.mp h
  exact ⟨hheld, by simpa only [Bool.not_eq_true'] using hdropping⟩

/-- A holder that can be reached has released nothing. -/
theorem Ordered.releasedBy_of_reach (h : w.Ordered) (hreach : w.reach i = some held) :
    w.releasedBy i = [] := by
  obtain ⟨hheld, hdropping⟩ := reach_eq hreach
  rw [List.eq_nil_iff_forall_not_mem]
  intro v hv
  exact Bool.false_ne_true (hdropping.symm.trans (h.behind i v hv held hheld).1)

/-- Another holder in the place of one, behind what its drop released. -/
theorem Ordered.setHolder (h : w.Ordered) (hi : w.holders i ≠ none) {new : Option (Holder α)}
    (hsorted : ∀ held ∈ new, Sorted held.values)
    (hbehind : ∀ v ∈ w.releasedBy i, ∀ held ∈ new,
      held.dropping ∧ ∀ e ∈ held.values, e.heldAt < v.heldAt) :
    (w.setHolder i new).Ordered := by
  refine ⟨fun j held hheld => ?_, h.raises, h.released, fun j v hv held hheld => ?_, fun j hj => ?_⟩
  · by_cases hji : j = i
    · subst hji
      exact hsorted held ((w.holders_setHolder_self j new).symm.trans hheld)
    · exact h.holders j held ((w.holders_setHolder_of_ne hji new).symm.trans hheld)
  · by_cases hji : j = i
    · subst hji
      exact hbehind v hv held ((w.holders_setHolder_self j new).symm.trans hheld)
    · exact h.behind j v hv held ((w.holders_setHolder_of_ne hji new).symm.trans hheld)
  · have hji : j ≠ i := fun heq => hi (heq ▸ (h.fresh j hj).1)
    exact ⟨(w.holders_setHolder_of_ne hji new).trans (h.fresh j hj).1, (h.fresh j hj).2⟩

theorem Ordered.closeHolder (h : w.Ordered) (hi : w.holders i ≠ none) :
    (w.setHolder i none).Ordered :=
  h.setHolder hi (fun held hheld => absurd hheld (Option.not_mem_none held))
    fun _ _ held hheld => absurd hheld (Option.not_mem_none held)

theorem Ordered.setRaise (h : w.Ordered) {new : Option (List (Value α))}
    (hsorted : ∀ values ∈ new, Sorted values) : (w.setRaise r new).Ordered := by
  refine ⟨h.holders, fun s values hvalues => ?_, h.released, h.behind, h.fresh⟩
  by_cases hsr : s = r
  · subst hsr
    exact hsorted values ((w.raises_setRaise_self s new).symm.trans hvalues)
  · exact h.raises s values ((w.raises_setRaise_of_ne hsr new).symm.trans hvalues)

theorem Ordered.releaseNone (h : w.Ordered) (v : Value α) : (w.release none v).Ordered := by
  have hsame (i : ℕ) : (w.release none v).releasedBy i = w.releasedBy i := by
    rw [releasedBy_release, if_neg nofun, List.append_nil]
  refine ⟨h.holders, h.raises, fun i => ?_, fun i => ?_, fun i hi => ?_⟩
  · rw [hsame]
    exact h.released i
  · rw [hsame]
    exact h.behind i
  · rw [hsame]
    exact h.fresh i hi

theorem values_holder (h : w.holders i = some held) : w.values (.holder i) = held.values := by
  rw [values, h]
  rfl

theorem values_raise {carried : List (Value α)} (h : w.raises r = some carried) :
    w.values (.raise r) = carried := by
  rw [values, h]
  rfl

theorem values_value (w : World α T) (x : α) : (w.value x).1.values = w.values := by
  funext p
  cases p <;> rfl

theorem Ordered.value (h : w.Ordered) (x : α) : (w.value x).1.Ordered :=
  ⟨h.holders, h.raises, h.released, h.behind, h.fresh⟩

/-! ### A value handed to a hold -/

/-- A value is handed to a holder that can be reached, or released at once. -/
theorem take_cases {hold : Hold T} {v : Value α} (h : w.take hold v = some w') :
    (∃ i held, w.reach i = some held ∧ w' = w.setHolder i (some (held.take v))) ∨
      w' = w.release none v := by
  have hinto {i : ℕ} (h : w.takeInto i v = some w') :
      ∃ i held, w.reach i = some held ∧ w' = w.setHolder i (some (held.take v)) := by
    obtain ⟨held, hreach, heq⟩ := Option.map_eq_some_iff.mp h
    exact ⟨i, held, hreach, heq.symm⟩
  cases hold with
  | of i => exact .inl (hinto h)
  | none thread =>
    rw [take, toLastResort] at h
    split at h
    · exact .inl (hinto h)
    · exact .inr (Option.some.inj h).symm

/-- A value handed on is in one more place, and leaves the rest as it was. -/
theorem values_take {hold : Hold T} {v : Value α} (h : w.take hold v = some w') :
    w'.raises = w.raises ∧ w'.nextAt = w.nextAt ∧
      ∃ p l, (∀ r, p ≠ .raise r) ∧ Perm l (v :: w.values p) ∧
        w'.values = Function.update w.values p l := by
  rcases take_cases h with ⟨i, held, hreach, rfl⟩ | rfl
  · refine ⟨rfl, rfl, .holder i, (held.take v).values, fun r => nofun, ?_, values_setHolder w i _⟩
    rw [values_holder (reach_eq hreach).1]
    exact insert_perm held.values v
  · exact ⟨rfl, rfl, .released, _, fun r => nofun, List.perm_append_singleton v _,
      values_release w none v⟩

theorem Ordered.take {hold : Hold T} {v : Value α} (h : w.Ordered) (htake : w.take hold v = some w')
    (hv : ∀ i, ∀ e ∈ w.values (.holder i), e.heldAt ≠ v.heldAt) : w'.Ordered := by
  rcases take_cases htake with ⟨i, held, hreach, rfl⟩ | rfl
  · have hheld := (reach_eq hreach).1
    refine h.setHolder (by rw [hheld]; exact nofun) (fun new hnew => ?_) fun e he => ?_
    · obtain rfl := Option.some.inj hnew
      exact insert_sorted (h.holders i held hheld) (values_holder hheld ▸ hv i)
    · rw [h.releasedBy_of_reach hreach] at he
      exact absurd he List.not_mem_nil
  · exact h.releaseNone v

theorem cleanupStep_cases {hold : Hold T} {body step : Option ℕ}
    (h : w.cleanupStep hold body step = some w') :
    (∃ r, w.land hold r = some w') ∨ w' = w := by
  cases step with
  | none => exact .inr (Option.some.inj h).symm
  | some _ =>
    cases body with
    | none => exact .inr (Option.some.inj h).symm
    | some r => exact .inl ⟨r, h⟩

/-- The release of a drop, after all that its holder has left. -/
theorem Ordered.releaseLast (h : w.Ordered) {v : Value α}
    (hbehind : ∀ e ∈ w.releasedBy i, v.heldAt < e.heldAt)
    (hheld : ∀ held, w.holders i = some held →
      held.dropping ∧ ∀ e ∈ held.values, e.heldAt < v.heldAt)
    (hi : w.holders i ≠ none) : (w.release (some i) v).Ordered := by
  have hself : (w.release (some i) v).releasedBy i = w.releasedBy i ++ [v] := by
    rw [releasedBy_release, if_pos rfl]
  have hother {j : ℕ} (hj : j ≠ i) : (w.release (some i) v).releasedBy j = w.releasedBy j := by
    rw [releasedBy_release, if_neg fun heq => hj (Option.some.inj heq).symm, List.append_nil]
  refine ⟨h.holders, h.raises, fun j => ?_, fun j e he held hj => ?_, fun j hj => ?_⟩
  · by_cases hji : j = i
    · subst hji
      rw [hself]
      refine List.pairwise_append.mpr ⟨h.released j, List.pairwise_singleton _ _, ?_⟩
      intro e he v' hv'
      obtain rfl := List.mem_singleton.mp hv'
      exact hbehind e he
    · rw [hother hji]
      exact h.released j
  · by_cases hji : j = i
    · subst hji
      rw [hself] at he
      rcases List.mem_append.mp he with he | he
      · exact h.behind j e he held hj
      · obtain rfl := List.mem_singleton.mp he
        exact hheld held hj
    · rw [hother hji] at he
      exact h.behind j e he held hj
  · have hji : j ≠ i := fun heq => hi (heq ▸ (h.fresh j hj).1)
    rw [hother hji]
    exact h.fresh j hj

theorem Ordered.newHeld (h : w.Ordered) : w.newHeld.Ordered := by
  refine ⟨fun i held hheld => ?_, h.raises, h.released, fun i v hv held hheld => ?_, fun i hi => ?_⟩
  · by_cases hi : i = w.nextHeld
    · subst hi
      obtain rfl := Option.some.inj ((w.holders_setHolder_self _ _).symm.trans hheld)
      exact List.Pairwise.nil
    · exact h.holders i held ((w.holders_setHolder_of_ne hi _).symm.trans hheld)
  · by_cases hi : i = w.nextHeld
    · subst hi
      have hv : v ∈ w.releasedBy w.nextHeld := hv
      rw [(h.fresh _ le_rfl).2] at hv
      exact absurd hv List.not_mem_nil
    · exact h.behind i v hv held ((w.holders_setHolder_of_ne hi _).symm.trans hheld)
  · have hlt : w.nextHeld < i := hi
    exact ⟨(w.holders_setHolder_of_ne hlt.ne' _).trans (h.fresh i hlt.le).1, (h.fresh i hlt.le).2⟩

theorem values_newHeld (h : w.Ordered) : w.newHeld.values = w.values := by
  refine (values_setHolder w w.nextHeld (some .new)).trans (Function.update_eq_iff.mpr ⟨?_, ?_⟩)
  · rw [values, (h.fresh _ le_rfl).1]
    rfl
  · exact fun _ _ => rfl

end World

/-! ### Every value has its place -/

/-- The values given, in the order they were first held. -/
def Given (given : List α) : Set (Value α) := {v | given[v.heldAt]? = some v.value}

variable {given : List α} {x : α}

theorem heldAt_lt {v : Value α} (h : v ∈ Given given) : v.heldAt < given.length :=
  (List.getElem?_eq_some_iff.mp h).1

theorem eq_of_heldAt {v e : Value α} (hv : v ∈ Given given) (he : e ∈ Given given)
    (heq : v.heldAt = e.heldAt) : v = e := by
  obtain ⟨n, x⟩ := v
  obtain ⟨m, y⟩ := e
  obtain rfl : n = m := heq
  exact congrArg (Value.mk n) (Option.some.inj (Eq.trans (Eq.symm hv) he))

theorem given_concat (given : List α) (x : α) :
    Given (given ++ [x]) = Insert.insert ⟨given.length, x⟩ (Given given) := by
  ext ⟨n, y⟩
  rw [Set.mem_insert_iff, Value.mk.injEq]
  change (given ++ [x])[n]? = some y ↔ n = given.length ∧ y = x ∨ given[n]? = some y
  rcases lt_trichotomy n given.length with hlt | rfl | hgt
  · rw [List.getElem?_append_left hlt, or_iff_right fun hboth => hlt.ne hboth.1]
  · rw [List.getElem?_concat_length, Option.some.injEq, and_iff_right rfl,
      List.getElem?_eq_none le_rfl, or_iff_left nofun]
    exact eq_comm
  · rw [List.getElem?_eq_none (by rw [List.length_append]; exact hgt),
      List.getElem?_eq_none hgt.le]
    exact iff_of_false nofun fun h => h.elim (fun hboth => hgt.ne' hboth.1) nofun

/-- What holds of a world in which values were given. -/
structure Holds (given : List α) (w : World α T) : Prop where
  count : w.nextAt = given.length
  apart : Places.Apart w.values (Given given)
  ordered : w.Ordered

namespace Holds

variable {w w' : World α T} {i r : ℕ} {held : Holder α} {carried : List (Value α)}

/-- Values in other places were first held at other times. -/
theorem heldAt_ne {places : Place → List (Value α)} (h : Places.Apart places (Given given))
    {p q : Place} (hne : p ≠ q) {e v : Value α} (he : e ∈ places p) (hv : v ∈ places q) :
    e.heldAt ≠ v.heldAt := fun heq =>
  hne (h.eq_of_mem p q e he (eq_of_heldAt (h.mem_all p e he) (h.mem_all q v hv) heq ▸ hv))

/-- Values that lie where they lay. -/
theorem of_values (h : Holds given w) (hcount : w'.nextAt = w.nextAt) (hvalues : w'.values = w.values)
    (hordered : w'.Ordered) : Holds given w' :=
  ⟨hcount.trans h.count, hvalues ▸ h.apart, hordered⟩

/-- A value just held, put in a place. -/
theorem add (h : Holds given w) (hcount : w'.nextAt = w.nextAt + 1) {p : Place}
    {l : List (Value α)} (hput : Perm l (⟨w.nextAt, x⟩ :: w.values p))
    (hvalues : w'.values = Function.update w.values p l) (hordered : w'.Ordered) :
    Holds (given ++ [x]) w' := by
  refine ⟨?_, ?_, hordered⟩
  · rw [hcount, h.count, List.length_append, List.length_singleton]
  · rw [given_concat, ← h.count]
    refine h.apart.add (p := p) (fun hin => (heldAt_lt hin).ne h.count) ?_ fun q hq => ?_
    · rw [hvalues, Function.update_self]
      exact hput
    · rw [hvalues, Function.update_of_ne hq]

theorem keep (h : Holds given w) {hold : Hold T} (hkeep : w.keep hold x = some w') :
    Holds (given ++ [x]) w' := by
  obtain ⟨-, hcount, p, l, -, hput, hvalues⟩ := World.values_take (w := (w.value x).1) hkeep
  rw [World.values_value] at hput hvalues
  refine h.add hcount hput hvalues ((h.ordered.value x).take hkeep fun i e he => ?_)
  rw [World.values_value] at he
  exact ((heldAt_lt (h.apart.mem_all _ e he)).trans_eq h.count.symm).ne

theorem defer (h : Holds given w) (hdefer : w.defer r x = some w') : Holds (given ++ [x]) w' := by
  obtain ⟨carried, hcarried, rfl⟩ := Option.map_eq_some_iff.mp hdefer
  have hraise : w.values (.raise r) = carried := World.values_raise hcarried
  have hvalues := World.values_setRaise (w.value x).1 r (some (carried ++ [⟨w.nextAt, x⟩]))
  rw [World.values_value] at hvalues
  refine h.add (x := x) rfl (p := .raise r) ?_ hvalues ?_
  · rw [hraise]
    exact List.perm_append_singleton _ _
  · refine (h.ordered.value x).setRaise fun values hvalues => ?_
    obtain rfl := Option.some.inj hvalues
    refine List.pairwise_append.mpr ⟨h.ordered.raises r carried hcarried,
      List.pairwise_singleton _ _, fun e he v hv => ?_⟩
    obtain rfl := List.mem_singleton.mp hv
    exact (heldAt_lt (h.apart.mem_all (.raise r) e (hraise.symm ▸ he))).trans_eq h.count.symm

/-- A landing frame's values go on with the raise, in their order among its own. -/
theorem raising (h : Holds given w) (hraising : w.raising i r = some w') : Holds given w' := by
  obtain ⟨held, hreach, hmap⟩ := Option.bind_eq_some_iff.mp hraising
  obtain ⟨mine, hmine, rfl⟩ := Option.map_eq_some_iff.mp hmap
  have hheld := (World.reach_eq hreach).1
  have hholder := World.values_holder hheld
  have hraise := World.values_raise hmine
  have hvalues : ((w.setHolder i none).setRaise r (some (carry mine held.values))).values =
      Function.update (Function.update w.values (.holder i) []) (.raise r)
        (carry mine held.values) := by
    rw [World.values_setRaise, World.values_setHolder]
    rfl
  refine ⟨h.count, ?_, ?_⟩
  · rw [hvalues]
    have hne : Place.holder i ≠ .raise r := nofun
    refine h.apart.move hne held.values [] ?_ ?_ ?_ fun q hq hq' => ?_
    · rw [hholder, List.append_nil]
    · rw [Function.update_of_ne hne, Function.update_self]
    · rw [Function.update_self, hraise]
      exact carry_perm mine held.values
    · rw [Function.update_of_ne hq', Function.update_of_ne hq]
  · refine (h.ordered.closeHolder (by rw [hheld]; exact nofun)).setRaise fun values hvalues => ?_
    obtain rfl := Option.some.inj hvalues
    refine carry_sorted (h.ordered.raises r mine hmine)
      ((h.ordered.holders i held hheld).imp fun hlt => hlt.ne) fun e he v hv => ?_
    exact heldAt_ne h.apart (p := .raise r) (q := .holder i) nofun (hraise.symm ▸ he)
      (hholder.symm ▸ hv)

/-- The values of a raise that ends go one by one to the hold. -/
theorem land_rest {hold : Hold T} {rest : List (Value α)} (h : w.Ordered) (hr : w.raises r = none)
    (hcount : w.nextAt = given.length)
    (happart : Places.Apart (Function.update w.values (.raise r) rest) (Given given))
    (hland : rest.foldlM (fun w v => w.take hold v) w = some w') : Holds given w' := by
  induction rest generalizing w with
  | nil =>
    obtain rfl := Option.some.inj hland
    have hnone : w.values (.raise r) = [] := by rw [World.values, hr, Option.getD_none]
    rw [← hnone, Function.update_eq_self] at happart
    exact ⟨hcount, happart, h⟩
  | cons v rest ih =>
    obtain ⟨w₁, htake, hrest⟩ := Option.bind_eq_some_iff.mp hland
    obtain ⟨hraises, hcount₁, p, l, hp, hput, hvalues⟩ := World.values_take htake
    refine ih (h.take htake fun i e he => ?_) (by rw [hraises, hr]) (hcount₁.trans hcount) ?_ hrest
    · have hne : Place.holder i ≠ .raise r := nofun
      refine heldAt_ne happart hne ?_ (v := v) ?_
      · rwa [Function.update_of_ne hne]
      · rw [Function.update_self]
        exact List.mem_cons_self
    · refine happart.move (hp r).symm [v] rest ?_ ?_ ?_ fun q hq hq' => ?_
      · rw [Function.update_self, List.singleton_append]
      · rw [Function.update_self]
      · rw [Function.update_of_ne (hp r), Function.update_of_ne (hp r), hvalues,
          Function.update_self, List.singleton_append]
        exact hput
      · rw [Function.update_of_ne hq, Function.update_of_ne hq, hvalues, Function.update_of_ne hq']

theorem land (h : Holds given w) {hold : Hold T} (hland : w.land hold r = some w') :
    Holds given w' := by
  obtain ⟨carried, hcarried, hrest⟩ := Option.bind_eq_some_iff.mp hland
  refine land_rest (h.ordered.setRaise (r := r) fun _ hnone => absurd hnone (Option.not_mem_none _))
    (w.raises_setRaise_self r none) h.count ?_ hrest
  rw [World.values_setRaise, Function.update_idem, ← World.values_raise hcarried,
    Function.update_eq_self]
  exact h.apart

theorem drop (h : Holds given w) (hdrop : w.drop i = some w') : Holds given w' := by
  obtain ⟨held, hreach, rfl⟩ := Option.map_eq_some_iff.mp hdrop
  have hheld := (World.reach_eq hreach).1
  refine h.of_values rfl ?_ (h.ordered.setHolder (by rw [hheld]; exact nofun) (fun new hnew => ?_)
    fun v hv => ?_)
  · rw [World.values_setHolder, Function.update_eq_iff]
    exact ⟨(World.values_holder hheld).symm, fun _ _ => rfl⟩
  · obtain rfl := Option.some.inj hnew
    exact h.ordered.holders i held hheld
  · rw [h.ordered.releasedBy_of_reach hreach] at hv
    exact absurd hv List.not_mem_nil

/-- The next of a drop releases the most recent value left. -/
theorem pop (h : Holds given w) (hpop : w.pop i = some w') : Holds given w' := by
  obtain ⟨held, hfilter, heq⟩ := Option.map_eq_some_iff.mp hpop
  obtain ⟨hheld, hdropping⟩ := Option.filter_eq_some_iff.mp hfilter
  have hholder := World.values_holder hheld
  have hi : w.holders i ≠ none := by
    rw [hheld]
    exact nofun
  have hsorted := h.ordered.holders i held hheld
  rcases held.values.eq_nil_or_concat' with hnil | ⟨rest, v, hconcat⟩
  · rw [hnil] at heq hholder
    obtain rfl : w.setHolder i none = w' := heq
    refine h.of_values rfl ?_ (h.ordered.closeHolder hi)
    rw [World.values_setHolder, Function.update_eq_iff]
    exact ⟨hholder.symm, fun _ _ => rfl⟩
  · rw [hconcat] at hsorted
    obtain ⟨hrest, -, hlast⟩ := List.pairwise_append.mp hsorted
    rw [hconcat, List.getLast?_concat] at heq
    dsimp only at heq
    rw [List.dropLast_concat] at heq
    obtain rfl := heq
    have hne : Place.holder i ≠ .released := nofun
    have hvalues : ((w.setHolder i (some ⟨rest, held.dropping⟩)).release (some i) v).values =
        Function.update (Function.update w.values (.holder i) rest) .released
          (w.values .released ++ [v]) := by
      rw [World.values_release, World.values_setHolder, Function.update_of_ne hne.symm]
      rfl
    refine ⟨h.count, ?_, ?_⟩
    · rw [hvalues]
      refine h.apart.move hne [v] rest ?_ ?_ ?_ fun q hq hq' => ?_
      · rw [hholder, hconcat]
        exact List.perm_append_comm
      · rw [Function.update_of_ne hne, Function.update_self]
      · rw [Function.update_self]
        exact List.perm_append_comm
      · rw [Function.update_of_ne hq', Function.update_of_ne hq]
    · have hself := w.holders_setHolder_self i (some ⟨rest, held.dropping⟩)
      have hordered : (w.setHolder i (some ⟨rest, held.dropping⟩)).Ordered := by
        refine h.ordered.setHolder hi (fun new hnew => ?_) fun e he new hnew => ?_
        · obtain rfl := Option.some.inj hnew
          exact hrest
        · obtain rfl := Option.some.inj hnew
          refine ⟨hdropping, fun e' he' => ?_⟩
          refine (h.ordered.behind i e he held hheld).2 e' ?_
          rw [hconcat]
          exact List.mem_append_left _ he'
      refine hordered.releaseLast (fun e he => ?_) (fun new hnew => ?_) ?_
      · refine (h.ordered.behind i e he held hheld).2 v ?_
        rw [hconcat]
        exact List.mem_append_right _ (List.mem_singleton_self v)
      · obtain rfl := Option.some.inj (hself.symm.trans hnew)
        exact ⟨hdropping, fun e he => hlast e he v (List.mem_singleton_self v)⟩
      · rw [hself]
        exact nofun

theorem newHeld (h : Holds given w) : Holds given w.newHeld :=
  h.of_values rfl (World.values_newHeld h.ordered) h.ordered.newHeld

theorem raise (h : Holds given w) (hraise : w.raise r = some w') : Holds given w' := by
  rw [World.raise] at hraise
  split_ifs at hraise with hnone
  obtain rfl := Option.some.inj hraise
  refine h.of_values rfl ?_ (h.ordered.setRaise fun values hvalues => ?_)
  · rw [World.values_setRaise, Function.update_eq_iff]
    refine ⟨?_, fun _ _ => rfl⟩
    rw [World.values, Option.isNone_iff_eq_none.mp hnone]
    rfl
  · obtain rfl := Option.some.inj hvalues
    exact List.Pairwise.nil

/-- A death forgets what a holder holds. -/
theorem unwind (h : Holds given w) (hunwind : w.unwind i = some w') : Holds given w' := by
  obtain ⟨held, hreach, rfl⟩ := Option.map_eq_some_iff.mp hunwind
  have hheld := (World.reach_eq hreach).1
  have hordered := h.ordered.closeHolder (i := i) (by rw [hheld]; exact nofun)
  have hne : Place.holder i ≠ .forgotten := nofun
  refine ⟨h.count, h.apart.move hne held.values [] ?_ ?_ ?_ fun q hq hq' => ?_,
    ⟨hordered.holders, hordered.raises, hordered.released, hordered.behind, hordered.fresh⟩⟩
  · rw [World.values_holder hheld, List.append_nil]
  · rw [World.values_forget, Function.update_of_ne hne,
      World.values_setHolder, Function.update_self]
    rfl
  · rw [World.values_forget, Function.update_self]
    exact List.perm_append_comm
  · rw [World.values_forget, Function.update_of_ne hq',
      World.values_setHolder, Function.update_of_ne hq]

/-- A death forgets what a raise carries. -/
theorem die (h : Holds given w) (hdie : w.die r = some w') : Holds given w' := by
  obtain ⟨carried, hcarried, rfl⟩ := Option.map_eq_some_iff.mp hdie
  have hordered : (w.setRaise r none).Ordered :=
    h.ordered.setRaise fun _ hnone => absurd hnone (Option.not_mem_none _)
  have hne : Place.raise r ≠ .forgotten := nofun
  refine ⟨h.count, h.apart.move hne carried [] ?_ ?_ ?_ fun q hq hq' => ?_,
    ⟨hordered.holders, hordered.raises, hordered.released, hordered.behind, hordered.fresh⟩⟩
  · rw [World.values_raise hcarried, List.append_nil]
  · rw [World.values_forget, Function.update_of_ne hne,
      World.values_setRaise, Function.update_self]
    rfl
  · rw [World.values_forget, Function.update_self]
    exact List.perm_append_comm
  · rw [World.values_forget, Function.update_of_ne hq',
      World.values_setRaise, Function.update_of_ne hq]

theorem start : Holds [] (World.start : World α T) := by
  refine ⟨rfl, ?_, fun _ _ => nofun, fun _ _ => nofun, fun _ => List.Pairwise.nil, fun _ _ => nofun,
    fun _ _ => ⟨rfl, rfl⟩⟩
  have hempty : (World.start : World α T).values = fun _ => [] := by
    funext p
    cases p <;> rfl
  have hnone : Given ([] : List α) = ∅ := Set.eq_empty_iff_forall_notMem.mpr fun _ => nofun
  rw [hempty, hnone]
  exact Places.Apart.empty

theorem cleanupStep (h : Holds given w) {hold : Hold T} {body step : Option ℕ}
    (hcleanup : w.cleanupStep hold body step = some w') : Holds given w' := by
  rcases World.cleanupStep_cases hcleanup with ⟨r, hland⟩ | rfl
  · exact h.land hland
  · exact h

variable [DecidableEq T]

theorem takeLastResort (h : Holds given w) {thread : T}
    (htake : w.takeLastResort thread = some w') : Holds given w' := by
  rw [World.takeLastResort] at htake
  split at htake
  · have hordered := h.ordered
    have hout : Holds given { w with lastResort := Function.update w.lastResort thread none } := by
      refine h.of_values rfl ?_ ?_
      · funext p
        cases p <;> rfl
      · exact ⟨hordered.holders, hordered.raises, hordered.released, hordered.behind,
          hordered.fresh⟩
    exact hout.drop htake
  · obtain rfl := Option.some.inj htake
    exact h

theorem makeLastResort (h : Holds given w) {thread : T}
    (hmake : w.makeLastResort thread = some w') : Holds given w' := by
  rw [World.makeLastResort] at hmake
  split_ifs at hmake
  obtain rfl := Option.some.inj hmake
  have hordered := h.newHeld.ordered
  refine h.newHeld.of_values rfl ?_ ?_
  · funext p
    cases p <;> rfl
  · exact ⟨hordered.holders, hordered.raises, hordered.released, hordered.behind, hordered.fresh⟩

theorem step (h : Holds given w) {op : Op α T} (hstep : w.step op = some w') :
    Holds (given ++ op.given.toList) w' := by
  have hsame (hw : Holds given w') : Holds (given ++ []) w' := (List.append_nil given).symm ▸ hw
  cases op with
  | newHeld =>
    obtain rfl := Option.some.inj hstep
    exact hsame h.newHeld
  | keep hold x => exact h.keep hstep
  | raise r => exact hsame (h.raise hstep)
  | defer r x => exact h.defer hstep
  | raising i r => exact hsame (h.raising hstep)
  | land hold r => exact hsame (h.land hstep)
  | cleanupStep hold body step => exact hsame (h.cleanupStep hstep)
  | drop i => exact hsame (h.drop hstep)
  | pop i => exact hsame (h.pop hstep)
  | takeLastResort thread => exact hsame (h.takeLastResort hstep)
  | makeLastResort thread => exact hsame (h.makeLastResort hstep)
  | unwind i => exact hsame (h.unwind hstep)
  | die r => exact hsame (h.die hstep)

end Holds

/-! ### Deaths -/

variable [DecidableEq T]

theorem run_concat (ops : List (Op α T)) (op : Op α T) :
    run (ops ++ [op]) = (run ops).bind fun w => w.step op := by
  rw [run, List.foldlM_append]
  exact congrArg (Option.bind (run ops)) (funext fun w => Option.bind_fun_some _)

theorem holds_run {ops : List (Op α T)} {w : World α T} (h : run ops = some w) :
    Holds (ops.filterMap Op.given) w := by
  induction ops using List.reverseRecOn generalizing w with
  | nil =>
    obtain rfl := Option.some.inj h
    exact Holds.start
  | append_singleton ops op ih =>
    rw [run_concat] at h
    obtain ⟨w₁, hrun, hstep⟩ := Option.bind_eq_some_iff.mp h
    have hnext := (ih hrun).step hstep
    rw [List.filterMap_append, List.filterMap_cons]
    cases hgiven : op.given with
    | none => rwa [hgiven] at hnext
    | some x => rwa [hgiven] at hnext

end ReimsVgpu.Rt.Held
