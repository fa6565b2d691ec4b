import Mathlib.Algebra.Ring.Nat
import Mathlib.Data.List.Chain
import ReimsVgpu.Library.Spans

/-!
# Spans laid out one after the other

The points of a list of spans, in their order, as often as they come. A span that starts where the last
one ends is glued to it, which leaves the points where they were; what the spans of a list become is one
span for each longest stretch of them in which every one starts where the one before it ends.

## Main definitions

* `Spans.layout`: the points in their order.
* `Spans.glue`: a span put last.
* `Spans.Follows`, `Spans.Stretch`: a span that starts where another ends, and the span of a stretch.

## Main results

* `Spans.layout_foldl_glue`, `Spans.exists_stretches`.
-/

namespace Spans

variable {l ms : List (Span ℕ)} {a b s : Span ℕ}

/-- The points of spans laid out one after the other. -/
def layout (l : List (Span ℕ)) : List ℕ := l.flatMap fun s => List.range' s.start (s.stop - s.start)

@[simp] theorem layout_nil : layout [] = [] := rfl

@[simp] theorem layout_cons (s : Span ℕ) (l : List (Span ℕ)) :
    layout (s :: l) = List.range' s.start (s.stop - s.start) ++ layout l := rfl

@[simp] theorem layout_append (l l' : List (Span ℕ)) : layout (l ++ l') = layout l ++ layout l' :=
  List.flatMap_append

/-- The second span starts where the first ends. -/
def Follows (a b : Span ℕ) : Prop := a.stop = b.start

instance : Decidable (Follows a b) := inferInstanceAs (Decidable (_ = _))

/-- The span from the start of one to the end of one that follows on. -/
def join (a b : Span ℕ) (h : Follows a b) : Span ℕ :=
  ⟨a.start, b.stop, (a.start_le_stop.trans h.le).trans b.start_le_stop⟩

/-- A span put last, glued to the one before it where it follows on. -/
def glue (l : List (Span ℕ)) (s : Span ℕ) : List (Span ℕ) :=
  match l.getLast? with
  | some last => if h : Follows last s then l.dropLast ++ [join last s h] else l ++ [s]
  | none => l ++ [s]

theorem glue_concat (l : List (Span ℕ)) (a s : Span ℕ) :
    glue (l ++ [a]) s = if h : Follows a s then l ++ [join a s h] else l ++ [a] ++ [s] := by
  rw [glue, List.getLast?_concat]
  dsimp only
  rw [List.dropLast_concat]

theorem layout_join (h : Follows a b) : layout [join a b h] = layout [a, b] := by
  have ha := a.start_le_stop
  have hb := b.start_le_stop
  have hab : a.stop = b.start := h
  simp only [layout_cons, layout_nil, List.append_nil, join]
  rw [show b.start = a.start + 1 * (a.stop - a.start) by omega, List.range'_append,
    show a.stop - a.start + (b.stop - (a.start + 1 * (a.stop - a.start))) = b.stop - a.start by omega]

theorem layout_glue (l : List (Span ℕ)) (s : Span ℕ) : layout (glue l s) = layout (l ++ [s]) := by
  rcases l.eq_nil_or_concat' with rfl | ⟨l, a, rfl⟩
  · rfl
  · rw [glue_concat]
    split_ifs with h
    · rw [layout_append, layout_join, List.append_assoc, layout_append]
      rfl
    · rfl

/-- Gluing spans leaves the points where they were. -/
theorem layout_foldl_glue (ms l : List (Span ℕ)) : layout (ms.foldl glue l) = layout (l ++ ms) := by
  induction ms generalizing l with
  | nil => rw [List.foldl_nil, List.append_nil]
  | cons m ms ih =>
    rw [List.foldl_cons, ih, layout_append, layout_glue, ← layout_append, List.append_assoc,
      List.singleton_append]

/-- What spans become ends where one of them does. -/
theorem exists_stop_of_mem_glue (h : a ∈ glue l s) : ∃ b ∈ l ++ [s], b.stop = a.stop := by
  have hlast : s ∈ l ++ [s] := List.mem_append_right _ (List.mem_singleton_self s)
  rcases l.eq_nil_or_concat' with rfl | ⟨l, b, rfl⟩
  · exact ⟨a, h, rfl⟩
  · rw [glue_concat] at h
    split_ifs at h
    · rcases List.mem_append.mp h with h | h
      · exact ⟨a, List.mem_append_left _ (List.mem_append_left _ h), rfl⟩
      · rw [List.mem_singleton.mp h]
        exact ⟨s, hlast, rfl⟩
    · exact ⟨a, h, rfl⟩

theorem exists_stop_of_mem_foldl_glue (h : a ∈ ms.foldl glue l) :
    ∃ b ∈ l ++ ms, b.stop = a.stop := by
  induction ms generalizing l with
  | nil => exact ⟨a, List.mem_append_left _ h, rfl⟩
  | cons m ms ih =>
    obtain ⟨b, hb, heq⟩ := ih h
    rcases List.mem_append.mp hb with hb | hb
    · obtain ⟨c, hc, heq'⟩ := exists_stop_of_mem_glue hb
      refine ⟨c, ?_, heq'.trans heq⟩
      rcases List.mem_append.mp hc with hc | hc
      · exact List.mem_append_left _ hc
      · exact List.mem_append_right _ (List.mem_singleton.mp hc ▸ List.mem_cons_self)
    · exact ⟨b, List.mem_append_right _ (List.mem_cons_of_mem _ hb), heq⟩

theorem length_layout_cons (s : Span ℕ) (l : List (Span ℕ)) :
    (layout (s :: l)).length = s.stop - s.start + (layout l).length := by
  rw [layout_cons, List.length_append, List.length_range']

theorem length_layout (l : List (Span ℕ)) :
    (layout l).length = (l.map fun s => s.stop - s.start).sum := by
  induction l with
  | nil => rfl
  | cons s l ih => rw [length_layout_cons, ih, List.map_cons, List.sum_cons]

/-- A span is that of a stretch: spans each of which follows on from the one before it. -/
structure Stretch (g : List (Span ℕ)) (s : Span ℕ) : Prop where
  chain : g.IsChain Follows
  first : g.head?.map Span.start = some s.start
  last : g.getLast?.map Span.stop = some s.stop

/-- A stretch and a span that follows on. -/
theorem Stretch.concat {g : List (Span ℕ)} (h : Stretch g a) (hfollows : Follows a s) :
    Stretch (g ++ [s]) (join a s hfollows) := by
  refine ⟨List.isChain_append.mpr ⟨h.chain, .singleton s, fun x hx y hy => ?_⟩, ?_, ?_⟩
  · obtain rfl := Option.some.inj hy
    have hlast := h.last
    rw [Option.mem_def.mp hx] at hlast
    exact (Option.some.inj hlast).trans hfollows
  · have hfirst := h.first
    cases g with
    | nil => exact absurd hfirst nofun
    | cons b g => exact hfirst
  · rw [List.getLast?_concat]
    rfl

theorem forall₂_concat {α β : Type*} {R : α → β → Prop} {as : List α} {bs : List β} {b : β}
    (h : List.Forall₂ R as (bs ++ [b])) :
    ∃ as' a, as = as' ++ [a] ∧ List.Forall₂ R as' bs ∧ R a b := by
  rw [← List.forall₂_reverse_iff, List.reverse_append, List.reverse_singleton,
    List.singleton_append] at h
  obtain ⟨a, as', hab, hrest, heq⟩ := List.forall₂_cons_right_iff.mp h
  refine ⟨as'.reverse, a, ?_, ?_, hab⟩
  · rw [← List.reverse_reverse as, heq, List.reverse_cons]
  · rwa [← List.forall₂_reverse_iff, List.reverse_reverse]

/-- The spans glued are those of the longest stretches. -/
theorem exists_stretches (ms : List (Span ℕ)) :
    ∃ gs : List (List (Span ℕ)), gs.flatten = ms ∧ List.Forall₂ Stretch gs (ms.foldl glue []) ∧
      (ms.foldl glue []).IsChain fun a b => ¬Follows a b := by
  induction ms using List.reverseRecOn with
  | nil => exact ⟨[], rfl, .nil, .nil⟩
  | append_singleton ms s ih =>
    obtain ⟨gs, hflat, hstretch, hchain⟩ := ih
    have hself : Stretch [s] s := ⟨.singleton s, rfl, rfl⟩
    rw [List.foldl_append, List.foldl_cons, List.foldl_nil]
    rcases (ms.foldl glue []).eq_nil_or_concat' with hnil | ⟨l, a, hconcat⟩
    · rw [hnil] at hstretch ⊢
      obtain rfl := List.forall₂_nil_right_iff.mp hstretch
      refine ⟨[[s]], ?_, .cons hself .nil, .singleton s⟩
      rw [← hflat]
      rfl
    · rw [hconcat] at hstretch hchain ⊢
      rw [glue_concat]
      obtain ⟨gs, g, rfl, hstretches, hlast⟩ := forall₂_concat hstretch
      obtain ⟨hbefore, -, hend⟩ := List.isChain_append.mp hchain
      split_ifs with hfollows
      · refine ⟨gs ++ [g ++ [s]], ?_, List.rel_append hstretches (.cons (hlast.concat hfollows) .nil),
          List.isChain_append.mpr ⟨hbefore, .singleton _, fun x hx y hy => ?_⟩⟩
        · rw [← hflat]
          simp only [List.flatten_append, List.flatten_cons, List.flatten_nil, List.append_nil,
            List.append_assoc]
        · obtain rfl := Option.some.inj hy
          exact hend x hx a rfl
      · refine ⟨gs ++ [g] ++ [[s]], ?_, List.rel_append hstretch (.cons hself .nil),
          List.isChain_append.mpr ⟨hchain, .singleton _, fun x hx y hy => ?_⟩⟩
        · rw [← hflat]
          simp only [List.flatten_append, List.flatten_cons, List.flatten_nil, List.append_nil]
        · obtain rfl := Option.some.inj hy
          rw [List.getLast?_concat] at hx
          obtain rfl := Option.some.inj hx
          exact hfollows

end Spans
