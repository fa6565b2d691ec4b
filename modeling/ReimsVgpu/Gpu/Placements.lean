import Mathlib.Data.Set.Lattice
import Mathlib.Logic.Function.Basic
import Mathlib.Order.Interval.Set.Basic
import ReimsVgpu.Library.Execution

/-!
# What is placed in a heap

A heap keeps its buffers and textures while they live: those that share no byte with another, the
others, and its cover, a buffer over all of it that is placed without a check. Entries of objects that
died are let go of late.

## Main definitions

* `Placements.place`, `Placements.attempt`, `Placements.placeBuffer`.
* `HeapHistory`, `HeapHistory.Step`: the placements with all that was placed, and what of it lives.
* `Conflict`: an object would share a byte that one of the two shares with none.

## Main results

* `placements_apart`: in every history no two that live are in conflict, and a call dies where the object
  it places would be.
-/

namespace ReimsVgpu.Gpu

/-- A range of bytes. -/
structure ByteRange where
  start : ℕ
  stop : ℕ
  deriving DecidableEq, Repr

namespace ByteRange

/-- `is_empty`. -/
def isEmpty (r : ByteRange) : Bool := decide (¬ r.start < r.stop)

/-- `overlap`. -/
def overlap (a b : ByteRange) : Bool := decide (a.start < b.stop ∧ b.start < a.stop)

/-- The bytes of a range. -/
def bytes (r : ByteRange) : Set ℕ := Set.Ico r.start r.stop

end ByteRange

/-- `Alone`: why a texture shares no byte. -/
inductive Alone where
  | twoPlane
  | optimized
  | untiled
  deriving DecidableEq, Repr

/-- How a placement dies, naming why. -/
inductive PlacementDeath where
  | dies (why : Alone)
  | besideTheCover (why : Alone)
  deriving DecidableEq, Repr

/-- `Placements`. -/
structure Placements where
  alone : List (ByteRange × ℕ × Alone) := []
  others : List (ByteRange × ℕ) := []
  kept : ℕ := 0
  made : Bool := false
  cover : Option (ByteRange × ℕ) := none
  deriving DecidableEq, Repr

namespace Placements

/-- The other entries whose objects live, counted. -/
def pruneOthers (lives : ℕ → Bool) (p : Placements) : Placements :=
  { p with
    others := p.others.filter fun e => lives e.2
    kept := (p.others.filter fun e => lives e.2).length }

/-- The check of `place` against what lives. -/
def check (lives : ℕ → Bool) (p : Placements) (range : ByteRange) (alone : Option Alone) :
    Except PlacementDeath Unit :=
  match p.alone.find? fun e => e.1.overlap range with
  | some (_, _, why) => .error (.dies why)
  | none =>
    match alone with
    | none => .ok ()
    | some why =>
      if p.others.any fun e => e.1.overlap range then .error (.dies why)
      else if p.cover.any fun e => lives e.2 && e.1.overlap range then .error (.besideTheCover why)
      else .ok ()

/-- What `place` lets go of before it checks: the dead textures that share no byte, and for a new one the
other dead objects. -/
def prune (lives : ℕ → Bool) (alone : Option Alone) (p : Placements) : Placements :=
  let p := { p with alone := p.alone.filter fun e => lives e.2.1 }
  if alone.isSome then p.pruneOthers lives else p

/-- What `place` keeps once it has checked. -/
def keep (lives : ℕ → Bool) (p : Placements) (range : ByteRange) (object : ℕ) (alone : Option Alone) :
    Placements :=
  match alone with
  | none =>
    let p := if 2 * max p.kept 16 ≤ p.others.length then p.pruneOthers lives else p
    { p with others := p.others ++ [(range, object)] }
  | some why => { p with alone := p.alone ++ [(range, object, why)] }

/-- `place`. -/
def place (lives : ℕ → Bool) (p : Placements) (range : ByteRange) (object : ℕ)
    (alone : Option Alone) : Except PlacementDeath Placements :=
  let p := { p with made := true }
  if range.isEmpty then .ok p
  else
    let p := p.prune lives alone
    (p.check lives range alone).map fun _ => p.keep lives range object alone

/-- `attempt`. -/
def attempt (p : Placements) : Bool × Placements := (!p.made, { p with made := true })

/-- `place_buffer`. -/
def placeBuffer (lives : ℕ → Bool) (p : Placements) (range : ByteRange) (object : ℕ) (cover : Bool) :
    Except PlacementDeath Placements :=
  if cover then .ok { p with made := true, cover := some (range, object) }
  else p.place lives range object none

end Placements

/-- A placement of an object. -/
structure Placed where
  range : ByteRange
  object : ℕ
  alone : Option Alone
  deriving DecidableEq, Repr

/-- Two objects share a byte, and one of them shares none. -/
def Conflict (a b : Placed) : Prop :=
  (a.alone.isSome ∨ b.alone.isSome) ∧ ∃ x, x ∈ a.range.bytes ∧ x ∈ b.range.bytes

/-- The placements with all that was placed, what of it lives, and whether an attempt was the first and
its call has not placed the cover. -/
structure HeapHistory where
  placements : Placements := {}
  placed : List Placed := []
  lives : ℕ → Bool := fun _ => true
  first : Bool := false

/-- A call on the placements, or an object's death. -/
inductive HeapEvent where
  | attempt
  | place (placed : Placed)
  | placeBuffer (range : ByteRange) (object : ℕ) (cover : Bool)
  | died (object : ℕ)

namespace HeapHistory

/-- The cover may be placed: the call's own attempt was the first, no texture placed since shares no
byte, and the range starts the heap, or is not empty. -/
def MayCover (h : HeapHistory) (range : ByteRange) : Prop :=
  h.first = true ∧ (∀ e ∈ h.placed, e.alone = none) ∧ (range.start = 0 ∨ range.start < range.stop)

/-- The calls that return, and the deaths. -/
inductive Step : HeapHistory → HeapEvent → HeapHistory → Prop
  | attempt {h : HeapHistory} :
      Step h .attempt
        { h with placements := h.placements.attempt.2, first := h.first || h.placements.attempt.1 }
  | place {h : HeapHistory} {e : Placed} {p : Placements}
      (hp : h.placements.place h.lives e.range e.object e.alone = .ok p) :
      Step h (.place e) { h with placements := p, placed := h.placed ++ [e] }
  | placeBuffer {h : HeapHistory} {range : ByteRange} {object : ℕ} {cover : Bool} {p : Placements}
      (hcover : cover = true → h.MayCover range)
      (hp : h.placements.placeBuffer h.lives range object cover = .ok p) :
      Step h (.placeBuffer range object cover)
        { h with
          placements := p
          placed := h.placed ++ [⟨range, object, none⟩]
          first := h.first && !cover }
  | died {h : HeapHistory} {object : ℕ} :
      Step h (.died object) { h with lives := Function.update h.lives object false }

/-- The placement is still kept. -/
def Kept (p : Placements) (e : Placed) : Prop :=
  match e.alone with
  | some why => (e.range, e.object, why) ∈ p.alone
  | none => (e.range, e.object) ∈ p.others ∨ p.cover = some (e.range, e.object)

end HeapHistory

/-! ### What a placement checks -/

theorem ByteRange.isEmpty_eq_false {r : ByteRange} : r.isEmpty = false ↔ r.start < r.stop := by
  rw [isEmpty, decide_eq_false_iff_not, not_not]

theorem ByteRange.overlap_iff {a b : ByteRange} (ha : a.start = 0 ∨ a.start < a.stop)
    (hb : b.start < b.stop) : a.overlap b = true ↔ ∃ x, x ∈ a.bytes ∧ x ∈ b.bytes := by
  rw [overlap, decide_eq_true_eq]
  constructor
  · intro h
    exact ⟨max a.start b.start, ⟨le_max_left _ _, by omega⟩, ⟨le_max_right _ _, by omega⟩⟩
  · rintro ⟨x, ⟨h1, h2⟩, h3, h4⟩
    omega

theorem Conflict.symm {a b : Placed} (h : Conflict a b) : Conflict b a :=
  ⟨h.1.symm, h.2.imp fun _ hx => hx.symm⟩

theorem Conflict.nonempty {a b : Placed} (h : Conflict a b) : b.range.start < b.range.stop := by
  obtain ⟨-, x, -, hle, hlt⟩ := h
  omega

namespace Placements

variable {lives : ℕ → Bool} {p p' : Placements} {range : ByteRange} {object : ℕ}
  {alone : Option Alone}

/-- What the check dies at. -/
theorem check_eq_error : (∃ death, p.check lives range alone = .error death) ↔
    (∃ e ∈ p.alone, e.1.overlap range = true) ∨ alone.isSome = true ∧
      ((∃ e ∈ p.others, e.1.overlap range = true) ∨
        ∃ c, p.cover = some c ∧ lives c.2 = true ∧ c.1.overlap range = true) := by
  unfold check
  cases hfind : p.alone.find? fun e => e.1.overlap range with
  | some e =>
    have hmem := List.mem_of_find?_eq_some hfind
    have htest := List.find?_some (p := fun e : ByteRange × ℕ × Alone => e.1.overlap range) hfind
    exact ⟨fun _ => .inl ⟨e, hmem, htest⟩, fun _ => ⟨_, rfl⟩⟩
  | none =>
    have hnone : ¬∃ e ∈ p.alone, e.1.overlap range = true := fun ⟨e, he, htest⟩ =>
      List.find?_eq_none.mp hfind e he htest
    rw [or_iff_right hnone]
    cases alone with
    | none => exact ⟨fun ⟨_, h⟩ => (nomatch h), fun h => (nomatch h.1)⟩
    | some why =>
      dsimp only
      rw [Option.isSome_some, and_iff_right rfl]
      by_cases hothers : p.others.any fun e => e.1.overlap range
      · rw [if_pos hothers]
        exact ⟨fun _ => .inl (List.any_eq_true.mp hothers), fun _ => ⟨_, rfl⟩⟩
      · rw [if_neg hothers, or_iff_right fun h => hothers (List.any_eq_true.mpr h)]
        cases hcover : p.cover with
        | none => exact ⟨fun ⟨_, h⟩ => (nomatch h), fun ⟨_, h, _⟩ => (nomatch h)⟩
        | some c =>
          rw [Option.any_some]
          by_cases hboth : (lives c.2 && c.1.overlap range) = true
          · rw [if_pos hboth]
            exact ⟨fun _ => ⟨c, rfl, Bool.and_eq_true_iff.mp hboth⟩, fun _ => ⟨_, rfl⟩⟩
          · rw [if_neg hboth]
            refine ⟨fun ⟨_, h⟩ => (nomatch h), fun ⟨c', heq, hlives, hoverlap⟩ => ?_⟩
            obtain rfl := Option.some.inj heq
            exact absurd (Bool.and_eq_true_iff.mpr ⟨hlives, hoverlap⟩) hboth

/-- What a placement lets go of: entries whose objects died. -/
theorem mem_alone_prune {a : ByteRange × ℕ × Alone} :
    a ∈ (p.prune lives alone).alone ↔ a ∈ p.alone ∧ lives a.2.1 = true := by
  unfold prune pruneOthers
  dsimp only
  split_ifs <;> exact List.mem_filter

theorem others_prune : (p.prune lives alone).others =
    if alone.isSome then p.others.filter fun e => lives e.2 else p.others := by
  unfold prune pruneOthers
  dsimp only
  split_ifs <;> rfl

theorem cover_prune : (p.prune lives alone).cover = p.cover := by
  unfold prune pruneOthers
  dsimp only
  split_ifs <;> rfl

theorem made_prune : (p.prune lives alone).made = p.made := by
  unfold prune pruneOthers
  dsimp only
  split_ifs <;> rfl

/-- What a placement that returns leaves: the entries whose objects live, and the new one. -/
structure After (lives : ℕ → Bool) (p : Placements) (e : Placed) (p' : Placements) : Prop where
  made : p'.made = p.made
  cover : p'.cover = p.cover
  alone : ∀ a ∈ p'.alone, a ∈ p.alone ∨ a.1 = e.range ∧ a.2.1 = e.object ∧ some a.2.2 = e.alone
  others : ∀ o ∈ p'.others, o ∈ p.others ∨ o = (e.range, e.object) ∧ e.alone = none
  alone_live : ∀ a ∈ p.alone, lives a.2.1 = true → a ∈ p'.alone
  others_live : ∀ o ∈ p.others, lives o.2 = true → o ∈ p'.others
  kept : HeapHistory.Kept p' e

/-- Another object is kept with those of the others that live. -/
theorem keep_none (lives : ℕ → Bool) (p : Placements) (range : ByteRange) (object : ℕ) :
    ∃ others kept, p.keep lives range object none =
        { p with others := others ++ [(range, object)], kept } ∧
      (∀ o ∈ others, o ∈ p.others) ∧ ∀ o ∈ p.others, lives o.2 = true → o ∈ others := by
  unfold keep pruneOthers
  dsimp only
  split_ifs
  · exact ⟨_, _, rfl, fun o ho => (List.mem_filter.mp ho).1,
      fun o ho hlives => List.mem_filter.mpr ⟨ho, hlives⟩⟩
  · exact ⟨_, _, rfl, fun o ho => ho, fun o ho _ => ho⟩

theorem after_prune_keep (lives : ℕ → Bool) (p : Placements) (e : Placed) :
    After lives p e ((p.prune lives e.alone).keep lives e.range e.object e.alone) := by
  obtain ⟨range, object, alone⟩ := e
  cases alone with
  | some why =>
    have hothers : (p.prune lives (some why)).others = p.others.filter fun e => lives e.2 :=
      others_prune
    refine ⟨made_prune, cover_prune, fun a ha => ?_, fun o ho => ?_, fun a ha hlives => ?_,
      fun o ho hlives => ?_, List.mem_append_right _ (List.mem_singleton_self _)⟩
    · rcases List.mem_append.mp ha with ha | ha
      · exact .inl (mem_alone_prune.mp ha).1
      · rw [List.mem_singleton.mp ha]
        exact .inr ⟨rfl, rfl, rfl⟩
    · exact .inl (List.mem_filter.mp (hothers ▸ ho)).1
    · exact List.mem_append_left _ (mem_alone_prune.mpr ⟨ha, hlives⟩)
    · change o ∈ (p.prune lives (some why)).others
      rw [hothers]
      exact List.mem_filter.mpr ⟨ho, hlives⟩
  | none =>
    have hothers : (p.prune lives none).others = p.others := others_prune
    obtain ⟨others, kept, heq, hsub, hlive⟩ := keep_none lives (p.prune lives none) range object
    dsimp only
    rw [heq]
    refine ⟨made_prune, cover_prune, fun a ha => .inl (mem_alone_prune.mp ha).1, fun o ho => ?_,
      fun a ha hlives => mem_alone_prune.mpr ⟨ha, hlives⟩, fun o ho hlives => ?_,
      .inl (List.mem_append_right _ (List.mem_singleton_self _))⟩
    · rcases List.mem_append.mp ho with ho | ho
      · exact .inl (hothers ▸ hsub o ho)
      · exact .inr ⟨List.mem_singleton.mp ho, rfl⟩
    · exact List.mem_append_left _ (hlive o (hothers.symm ▸ ho) hlives)

/-- A placement over an empty range is not kept. -/
theorem place_of_isEmpty (h : range.isEmpty = true) :
    p.place lives range object alone = .ok { p with made := true } := by
  rw [place, if_pos h]

theorem place_eq (h : range.isEmpty = false) :
    p.place lives range object alone =
      (({ p with made := true }.prune lives alone).check lives range alone).map fun _ =>
        ({ p with made := true }.prune lives alone).keep lives range object alone := by
  rw [place, if_neg (by rw [h]; exact Bool.false_ne_true)]

theorem place_eq_ok (h : range.isEmpty = false)
    (hp : p.place lives range object alone = .ok p') :
    After lives { p with made := true } ⟨range, object, alone⟩ p' := by
  rw [place_eq h] at hp
  cases hcheck : ({ p with made := true }.prune lives alone).check lives range alone with
  | error death =>
    rw [hcheck] at hp
    cases hp
  | ok u =>
    rw [hcheck] at hp
    obtain rfl := Except.ok.inj hp
    exact after_prune_keep lives { p with made := true } ⟨range, object, alone⟩

/-- A placement dies at what lives: a texture that shares no byte, or, for such a one, anything. -/
theorem place_eq_error (h : range.isEmpty = false) :
    (∃ death, p.place lives range object alone = .error death) ↔
      (∃ a ∈ p.alone, lives a.2.1 = true ∧ a.1.overlap range = true) ∨ alone.isSome = true ∧
        ((∃ o ∈ p.others, lives o.2 = true ∧ o.1.overlap range = true) ∨
          ∃ c, p.cover = some c ∧ lives c.2 = true ∧ c.1.overlap range = true) := by
  have hmap : (∃ death, p.place lives range object alone = .error death) ↔
      ∃ death, ({ p with made := true }.prune lives alone).check lives range alone = .error death := by
    rw [place_eq h]
    cases ({ p with made := true }.prune lives alone).check lives range alone with
    | error death => exact ⟨fun _ => ⟨death, rfl⟩, fun _ => ⟨death, rfl⟩⟩
    | ok u => exact ⟨fun ⟨_, h⟩ => (nomatch h), fun ⟨_, h⟩ => (nomatch h)⟩
  rw [hmap, check_eq_error, cover_prune, others_prune]
  refine or_congr ?_ (and_congr_right fun hsome => ?_)
  · simp only [mem_alone_prune, and_assoc]
  · rw [if_pos hsome]
    simp only [List.mem_filter, and_assoc]

end Placements

namespace HeapHistory

variable {h h' : HeapHistory}

/-- What each call keeps: the entries are of what was placed, and what lives has an entry. -/
structure Holds (h : HeapHistory) : Prop where
  alone : ∀ a ∈ h.placements.alone,
    ⟨a.1, a.2.1, some a.2.2⟩ ∈ h.placed ∧ a.1.start < a.1.stop
  others : ∀ o ∈ h.placements.others, ⟨o.1, o.2, none⟩ ∈ h.placed ∧ o.1.start < o.1.stop
  cover : ∀ c, h.placements.cover = some c →
    ⟨c.1, c.2, none⟩ ∈ h.placed ∧ (c.1.start = 0 ∨ c.1.start < c.1.stop)
  kept : ∀ e ∈ h.placed, h.lives e.object = true → e.range.start < e.range.stop →
    Kept h.placements e
  apart : h.placed.Pairwise fun a b =>
    h.lives a.object = true → h.lives b.object = true → ¬Conflict a b
  unmade : h.placements.made = false →
    h.placed = [] ∧ h.first = false ∧ h.placements.cover = none
  first : h.first = true → h.placements.cover = none

theorem holds_new : Holds {} where
  alone _ ha := absurd ha List.not_mem_nil
  others _ ho := absurd ho List.not_mem_nil
  cover _ hc := nomatch hc
  kept _ he := absurd he List.not_mem_nil
  apart := .nil
  unmade _ := ⟨rfl, rfl, rfl⟩
  first hfirst := nomatch hfirst

/-- A call dies where the object it places would be in conflict with one that lives. -/
theorem Holds.place_eq_error (hh : h.Holds) (e : Placed) :
    (∃ death, h.placements.place h.lives e.range e.object e.alone = .error death) ↔
      ∃ o ∈ h.placed, h.lives o.object = true ∧ Conflict o e := by
  by_cases hempty : e.range.isEmpty = true
  · rw [Placements.place_of_isEmpty hempty]
    refine ⟨fun ⟨_, hdeath⟩ => (nomatch hdeath), fun ⟨o, _, _, hconflict⟩ => ?_⟩
    exact absurd (ByteRange.isEmpty_eq_false.mpr hconflict.nonempty) (by rw [hempty]; decide)
  rw [Bool.not_eq_true] at hempty
  have hrange := ByteRange.isEmpty_eq_false.mp hempty
  rw [Placements.place_eq_error hempty]
  constructor
  · rintro (⟨a, ha, hlives, hoverlap⟩ | ⟨hsome, ⟨o, ho, hlives, hoverlap⟩ | ⟨c, hc, hlives, hoverlap⟩⟩)
    · obtain ⟨hmem, hlt⟩ := hh.alone a ha
      exact ⟨_, hmem, hlives, .inl rfl, (ByteRange.overlap_iff (.inr hlt) hrange).mp hoverlap⟩
    · obtain ⟨hmem, hlt⟩ := hh.others o ho
      exact ⟨_, hmem, hlives, .inr hsome, (ByteRange.overlap_iff (.inr hlt) hrange).mp hoverlap⟩
    · obtain ⟨hmem, hlt⟩ := hh.cover c hc
      exact ⟨_, hmem, hlives, .inr hsome, (ByteRange.overlap_iff hlt hrange).mp hoverlap⟩
  · rintro ⟨o, ho, hlives, hconflict⟩
    have hlt := hconflict.symm.nonempty
    have hoverlap := (ByteRange.overlap_iff (.inr hlt) hrange).mpr hconflict.2
    have hkept := hh.kept o ho hlives hlt
    unfold Kept at hkept
    split at hkept
    · exact .inl ⟨_, hkept, hlives, hoverlap⟩
    · rename_i hnone
      have hsome : e.alone.isSome = true := hconflict.1.resolve_left (by rw [hnone]; decide)
      rcases hkept with hkept | hkept
      · exact .inr ⟨hsome, .inl ⟨_, hkept, hlives, hoverlap⟩⟩
      · exact .inr ⟨hsome, .inr ⟨_, hkept, hlives, hoverlap⟩⟩

/-- What lives is kept by a placement that returns. -/
theorem kept_of_after {p p' : Placements} {e o : Placed} (hafter : Placements.After h.lives p e p')
    (hlives : h.lives o.object = true) (hkept : Kept p o) : Kept p' o := by
  unfold Kept at hkept ⊢
  split at hkept
  · exact hafter.alone_live _ hkept hlives
  · exact hkept.imp (fun ho => hafter.others_live _ ho hlives) fun hc => hafter.cover.trans hc

theorem Holds.place (hh : h.Holds) {e : Placed} {p : Placements}
    (hp : h.placements.place h.lives e.range e.object e.alone = .ok p) :
    Holds { h with placements := p, placed := h.placed ++ [e] } := by
  have happart : (h.placed ++ [e]).Pairwise fun a b =>
      h.lives a.object = true → h.lives b.object = true → ¬Conflict a b := by
    refine List.pairwise_append.mpr ⟨hh.apart, List.pairwise_singleton _ _, fun o ho e' he' => ?_⟩
    rw [List.mem_singleton.mp he']
    intro hlives _ hconflict
    obtain ⟨death, hdeath⟩ := (hh.place_eq_error e).mpr ⟨o, ho, hlives, hconflict⟩
    rw [hp] at hdeath
    cases hdeath
  cases hempty : e.range.isEmpty with
  | true =>
    rw [Placements.place_of_isEmpty hempty] at hp
    obtain rfl := Except.ok.inj hp
    refine ⟨fun a ha => ⟨List.mem_append_left _ (hh.alone a ha).1, (hh.alone a ha).2⟩,
      fun o ho => ⟨List.mem_append_left _ (hh.others o ho).1, (hh.others o ho).2⟩,
      fun c hc => ⟨List.mem_append_left _ (hh.cover c hc).1, (hh.cover c hc).2⟩,
      fun o ho hlives hlt => ?_, happart, fun hmade => (nomatch hmade), hh.first⟩
    rcases List.mem_append.mp ho with ho | ho
    · exact hh.kept o ho hlives hlt
    · rw [List.mem_singleton.mp ho] at hlt
      exact absurd (ByteRange.isEmpty_eq_false.mpr hlt) (by rw [hempty]; decide)
  | false =>
    have hrange := ByteRange.isEmpty_eq_false.mp hempty
    have hlast : e ∈ h.placed ++ [e] := List.mem_append_right _ (List.mem_singleton_self e)
    have hafter := Placements.place_eq_ok hempty hp
    refine ⟨fun a ha => ?_, fun o ho => ?_, fun c hc => ?_, fun o ho hlives hlt => ?_, happart,
      fun hmade => (nomatch hafter.made.symm.trans hmade), fun hfirst => hafter.cover.trans (hh.first hfirst)⟩
    · rcases hafter.alone a ha with hold | ⟨h1, h2, h3⟩
      · exact ⟨List.mem_append_left _ (hh.alone a hold).1, (hh.alone a hold).2⟩
      · rw [h1, h2, h3]
        exact ⟨hlast, hrange⟩
    · rcases hafter.others o ho with hold | ⟨rfl, hnone⟩
      · exact ⟨List.mem_append_left _ (hh.others o hold).1, (hh.others o hold).2⟩
      · obtain ⟨range, object, alone⟩ := e
        obtain rfl := hnone
        exact ⟨hlast, hrange⟩
    · obtain ⟨hmem, hlt⟩ := hh.cover c (hafter.cover.symm.trans hc)
      exact ⟨List.mem_append_left _ hmem, hlt⟩
    · rcases List.mem_append.mp ho with ho | ho
      · exact kept_of_after hafter hlives (hh.kept o ho hlives hlt)
      · rw [List.mem_singleton.mp ho]
        exact hafter.kept

/-- No texture that shares no byte was placed before the cover. -/
theorem MayCover.not_conflict {range : ByteRange} (hcover : h.MayCover range) {object : ℕ} {o : Placed}
    (ho : o ∈ h.placed) : ¬Conflict o ⟨range, object, none⟩ := by
  rintro ⟨hsome | hsome, -⟩
  · rw [hcover.2.1 o ho] at hsome
    cases hsome
  · cases hsome

theorem Holds.cover_placed (hh : h.Holds) {range : ByteRange} (object : ℕ) (hcover : h.MayCover range) :
    Holds
      { h with
        placements := { h.placements with made := true, cover := some (range, object) }
        placed := h.placed ++ [⟨range, object, none⟩]
        first := h.first && !true } := by
  have hlast : (⟨range, object, none⟩ : Placed) ∈ h.placed ++ [⟨range, object, none⟩] :=
    List.mem_append_right _ (List.mem_singleton_self _)
  refine ⟨fun a ha => ⟨List.mem_append_left _ (hh.alone a ha).1, (hh.alone a ha).2⟩,
    fun o ho => ⟨List.mem_append_left _ (hh.others o ho).1, (hh.others o ho).2⟩, fun c hc => ?_,
    fun o ho hlives hlt => ?_, ?_, fun hmade => (nomatch hmade), fun hfirst => ?_⟩
  · obtain rfl := Option.some.inj hc
    exact ⟨hlast, hcover.2.2⟩
  · rcases List.mem_append.mp ho with ho | ho
    · have hkept := hh.kept o ho hlives hlt
      have hnone := hcover.2.1 o ho
      unfold Kept at hkept ⊢
      rw [hnone] at hkept ⊢
      -- There was no cover that this one replaces.
      refine .inl (hkept.resolve_right fun hold => ?_)
      rw [hh.first hcover.1] at hold
      cases hold
    · rw [List.mem_singleton.mp ho]
      exact .inr rfl
  · refine List.pairwise_append.mpr ⟨hh.apart, List.pairwise_singleton _ _, fun o ho e he => ?_⟩
    rw [List.mem_singleton.mp he]
    exact fun _ _ => hcover.not_conflict ho
  · rw [Bool.not_true, Bool.and_false] at hfirst
    cases hfirst

theorem Holds.step (hh : h.Holds) {event : HeapEvent} (hstep : Step h event h') : h'.Holds := by
  cases hstep with
  | attempt =>
    refine ⟨hh.alone, hh.others, hh.cover, hh.kept, hh.apart, fun hmade => (nomatch hmade),
      fun hfirst => ?_⟩
    rcases Bool.or_eq_true_iff.mp hfirst with hfirst | hfirst
    · exact hh.first hfirst
    · exact (hh.unmade ((Bool.not_eq_true' _).mp hfirst)).2.2
  | place hp => exact hh.place hp
  | @placeBuffer range object cover p hcover hp =>
    cases cover with
    | true =>
      obtain rfl := Except.ok.inj hp
      exact hh.cover_placed object (hcover rfl)
    | false =>
      rw [Bool.not_false, Bool.and_true]
      exact Holds.place hh (e := ⟨range, object, none⟩) hp
  | @died object =>
    have hold (o : ℕ) (hlives : Function.update h.lives object false o = true) : h.lives o = true := by
      by_cases heq : o = object
      · rw [heq, Function.update_self] at hlives
        cases hlives
      · rwa [Function.update_of_ne heq] at hlives
    exact ⟨hh.alone, hh.others, hh.cover, fun e he hlives => hh.kept e he (hold _ hlives),
      hh.apart.imp fun hapart ha hb => hapart (hold _ ha) (hold _ hb), hh.unmade, hh.first⟩

theorem holds_of_execution {events : List HeapEvent} (hrun : Execution Step {} events h) : h.Holds :=
  hrun.invariant holds_new fun _ _ _ hh hstep => hh.step hstep

end HeapHistory

/-- Dead entries of the others stay until a texture is placed that shares no byte, or there are twice as
many as were left the last time. -/
theorem Placements.others_place {lives : ℕ → Bool} {p p' : Placements} {range : ByteRange} {object : ℕ}
    (hrange : range.isEmpty = false) (hfew : p.others.length < 2 * max p.kept 16)
    (hp : p.place lives range object none = .ok p') : p'.others = p.others ++ [(range, object)] := by
  rw [place_eq hrange] at hp
  cases hcheck : ({ p with made := true }.prune lives none).check lives range none with
  | error death =>
    rw [hcheck] at hp
    cases hp
  | ok u =>
    rw [hcheck] at hp
    obtain rfl := Except.ok.inj hp
    change (if 2 * max p.kept 16 ≤ p.others.length then _ else _ : Placements).others ++ _ = _
    rw [if_neg (not_le.mpr hfew)]
    rfl

open HeapHistory in
/-- In every history no two placements that live are in conflict. A call dies where the object it places
would be in conflict with one that lives. What lives is kept, and dead entries of the others are let go of
late. -/
theorem placements_apart {events : List HeapEvent} {h : HeapHistory}
    (hrun : Execution Step {} events h) :
    (h.placed.Pairwise fun a b =>
      h.lives a.object = true → h.lives b.object = true → ¬Conflict a b) ∧
    (∀ e, (∃ death, h.placements.place h.lives e.range e.object e.alone = .error death) ↔
      ∃ o ∈ h.placed, h.lives o.object = true ∧ Conflict o e) ∧
    (∀ range object cover, (cover = true → h.MayCover range) →
      ((∃ death, h.placements.placeBuffer h.lives range object cover = .error death) ↔
        ∃ o ∈ h.placed, h.lives o.object = true ∧ Conflict o ⟨range, object, none⟩)) ∧
    (∀ e ∈ h.placed, h.lives e.object = true → e.range.start < e.range.stop →
      Kept h.placements e) ∧
    ∀ range object p, range.isEmpty = false →
      h.placements.others.length < 2 * max h.placements.kept 16 →
      h.placements.place h.lives range object none = .ok p →
      p.others = h.placements.others ++ [(range, object)] := by
  have hh := holds_of_execution hrun
  refine ⟨hh.apart, hh.place_eq_error, fun range object cover hcover => ?_, hh.kept,
    fun range object p hrange hfew hp => Placements.others_place hrange hfew hp⟩
  cases cover with
  | false => exact hh.place_eq_error ⟨range, object, none⟩
  | true =>
    refine ⟨fun ⟨_, hdeath⟩ => (nomatch hdeath), fun ⟨o, ho, _, hconflict⟩ => ?_⟩
    exact absurd hconflict ((hcover rfl).not_conflict ho)

open HeapHistory in
/-- The cover, which dies, and a texture over part of it. -/
theorem placements_apart_cover :
    ∃ h, Execution Step {} [.attempt, .placeBuffer ⟨0, 100⟩ 1 true, .died 1,
        .place ⟨⟨0, 10⟩, 2, some .twoPlane⟩] h ∧
      ∃ death, h.placements.place h.lives ⟨9, 20⟩ 3 none = .error death := by
  have hattempt : Execution Step {} [.attempt]
      { placements := { made := true }, first := true } := .single .attempt
  have hcover : Step { placements := { made := true }, first := true }
      (.placeBuffer ⟨0, 100⟩ 1 true)
      { placements := { made := true, cover := some (⟨0, 100⟩, 1) }
        placed := [⟨⟨0, 100⟩, 1, none⟩] } :=
    .placeBuffer (fun _ => ⟨rfl, fun _ he => (nomatch he), .inl rfl⟩) rfl
  have hplace : Step
      { placements := { made := true, cover := some (⟨0, 100⟩, 1) }
        placed := [⟨⟨0, 100⟩, 1, none⟩]
        lives := Function.update (fun _ => true) 1 false }
      (.place ⟨⟨0, 10⟩, 2, some .twoPlane⟩)
      { placements :=
          { alone := [(⟨0, 10⟩, 2, .twoPlane)], made := true, cover := some (⟨0, 100⟩, 1) }
        placed := [⟨⟨0, 100⟩, 1, none⟩, ⟨⟨0, 10⟩, 2, some .twoPlane⟩]
        lives := Function.update (fun _ => true) 1 false } := .place rfl
  have hrun := ((hattempt.snoc hcover).snoc .died).snoc hplace
  refine ⟨_, hrun, ((placements_apart hrun).2.1 ⟨⟨9, 20⟩, 3, none⟩).mpr
    ⟨⟨⟨0, 10⟩, 2, some .twoPlane⟩, List.mem_cons_of_mem _ List.mem_cons_self, rfl, .inl rfl, 9, ?_⟩⟩
  exact ⟨⟨by decide, by decide⟩, le_rfl, by decide⟩

/-- The cover is placed without a check: a texture placed after the cover's own attempt shares its bytes,
and a cover over no byte inside the texture's range is one the texture dies beside. -/
theorem cover_unchecked :
    Placements.attempt {} = (true, { made := true }) ∧
    (∃ p, Placements.place (fun _ => true) { made := true } ⟨0, 10⟩ 1 (some .twoPlane) = .ok p ∧
      (∃ p', p.placeBuffer (fun _ => true) ⟨0, 100⟩ 2 true = .ok p') ∧
      Conflict ⟨⟨0, 10⟩, 1, some .twoPlane⟩ ⟨⟨0, 100⟩, 2, none⟩) ∧
    ∃ p, Placements.placeBuffer (fun _ => true) { made := true } ⟨5, 5⟩ 1 true = .ok p ∧
      p.place (fun _ => true) ⟨0, 10⟩ 2 (some .twoPlane) = .error (.besideTheCover .twoPlane) ∧
      ¬Conflict ⟨⟨5, 5⟩, 1, none⟩ ⟨⟨0, 10⟩, 2, some .twoPlane⟩ := by
  refine ⟨rfl, ⟨_, rfl, ⟨_, rfl⟩, .inl rfl, 0, ⟨le_rfl, by decide⟩, ⟨le_rfl, by decide⟩⟩,
    ⟨_, rfl, rfl, ?_⟩⟩
  rintro ⟨-, x, ⟨hle, hlt⟩, -⟩
  exact absurd (hle.trans_lt hlt) (lt_irrefl 5)

end ReimsVgpu.Gpu
