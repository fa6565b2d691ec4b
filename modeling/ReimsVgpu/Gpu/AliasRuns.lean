import Mathlib.Data.PNat.Basic
import ReimsVgpu.Gpu.MetalSpace
import ReimsVgpu.Gpu.OverPages
import ReimsVgpu.Library.LaidSpans

/-!
# An alias of address ranges

An alias maps the host's pages that a list of address ranges lies in, one after the other, up to its
size. Ranges that follow on in bytes are one run of bytes, which takes the pages it lies in; pages that
follow on in the host's memory are one remap. What lies under a byte of the alias is also looked up in
the pages, merged apart from the remaps. Sums of lengths do not wrap here.

## Main definitions

* `spans`, `pages`, `runs`: the pages of the ranges, those that meet merged, and the remaps.
* `Tiles`, `bytesOf`: remaps that lie one after the other in the alias, and the host's bytes under them.

## Main results

* `runs_inRuns`: the remaps and the lookup agree.
-/

namespace ReimsVgpu.Gpu.AliasRuns

open Spans (layout glue Follows Stretch)
open OverPages (HostRange inRuns inRun inRunsFrom)

/-- `ResourceAddressRange`. -/
structure AddressRange where
  address : ℕ
  length : ℕ
  deriving DecidableEq, Repr

/-- The bytes of a range. -/
def AddressRange.span (r : AddressRange) : Span ℕ :=
  ⟨r.address, r.address + r.length, Nat.le_add_right _ _⟩

/-- The first loop of `spans`: ranges whose bytes follow on are one run of bytes. -/
def byteRuns (ranges : List AddressRange) : Option (List (Span ℕ)) :=
  ranges.foldlM (fun bytes r => (checked (r.address + r.length)).map fun _ => glue bytes r.span) []

theorem le_nextMultipleOf (n : ℕ) (page : ℕ+) : n ≤ nextMultipleOf n page := by
  have hpos := page.pos
  have hmod := Nat.mod_lt (n + (page - 1)) hpos
  have hdiv := Nat.div_add_mod' (n + (page - 1)) page
  unfold nextMultipleOf
  omega

/-- The pages a run of bytes lies in. -/
def pageSpan (page : ℕ+) (run : Span ℕ) : Span ℕ where
  start := run.start - run.start % page
  stop := nextMultipleOf run.stop page
  start_le_stop := (Nat.sub_le _ _).trans (run.start_le_stop.trans (le_nextMultipleOf _ page))

/-- `spans`. -/
def spans (ranges : List AddressRange) (page : ℕ+) : Option (List (Span ℕ)) :=
  (byteRuns ranges).bind fun bytes =>
    (bytes.filter fun run => decide (run.start < run.stop)).mapM fun run =>
      (checkedNextMultipleOf run.stop page).map fun _ => pageSpan page run

/-- `pages`. -/
def pages (ranges : List AddressRange) (page : ℕ+) : List HostRange :=
  ((spans ranges page).getD []).foldl glue []

/-- `Run`: bytes from a source, at an offset in the alias. -/
structure Run where
  offset : ℕ
  source : ℕ
  length : ℕ
  deriving DecidableEq, Repr

/-- A part of a span put behind the remaps, merged with the last one where its source goes on there. -/
def addRun (runs : List Run) (offset length : ℕ) (span : Span ℕ) : List Run :=
  match runs.getLast? with
  | some run =>
    if checked (run.source + run.length) = some span.start then
      runs.dropLast ++ [{ run with length := run.length + length }]
    else runs ++ [⟨offset, span.start, length⟩]
  | none => runs ++ [⟨offset, span.start, length⟩]

/-- The loop of `runs`. -/
def runsFrom (size : ℕ) : List Run → ℕ → List (Span ℕ) → List Run
  | runs, _, [] => runs
  | runs, offset, span :: spans =>
    let length := min (span.stop - span.start) (size - offset)
    if length = 0 then runs else runsFrom size (addRun runs offset length span) (offset + length) spans

/-- `off_the_page`: a first range that starts off its page. -/
structure OffThePage where
  address : ℕ
  into : ℕ
  deriving DecidableEq, Repr

/-- `runs`. -/
def runs (ranges : List AddressRange) (size : ℕ) (page : ℕ+) : Except OffThePage (Option (List Run)) :=
  match ranges with
  | [] => .ok none
  | first :: _ =>
    if ranges.any fun range => decide (range.address = 0) then .ok none
    else if first.address % page ≠ 0 then .error ⟨first.address, first.address % page⟩
    else .ok ((spans ranges page).map (runsFrom size [] 0))

/-! ### The pages of the ranges -/

variable {ranges : List AddressRange} {page : ℕ+} {size : ℕ}

theorem byteRuns_eq (h : ∀ r ∈ ranges, r.address + r.length < 2 ^ 64) :
    byteRuns ranges = some ((ranges.map AddressRange.span).foldl glue []) := by
  unfold byteRuns
  generalize ([] : List (Span ℕ)) = bytes
  induction ranges generalizing bytes with
  | nil => rfl
  | cons r ranges ih =>
    obtain ⟨hr, hranges⟩ := List.forall_mem_cons.mp h
    rw [List.foldlM_cons, checked, if_pos hr, List.map_cons, List.foldl_cons]
    exact ih hranges _

/-- The runs of bytes that are not empty. -/
def bytesRuns (ranges : List AddressRange) : List (Span ℕ) :=
  ((ranges.map AddressRange.span).foldl glue []).filter fun run => decide (run.start < run.stop)

theorem mapM_eq_map {α β : Type*} {f : α → Option β} {g : α → β} {l : List α}
    (h : ∀ a ∈ l, f a = some (g a)) : l.mapM f = some (l.map g) := by
  induction l with
  | nil => rfl
  | cons a l ih =>
    obtain ⟨ha, hl⟩ := List.forall_mem_cons.mp h
    rw [List.mapM_cons, ha, ih hl]
    rfl

/-- Where nothing overflows, a span is the pages of a run of bytes. -/
theorem spans_eq (h : ∀ r ∈ ranges, nextMultipleOf (r.address + r.length) page < 2 ^ 64) :
    spans ranges page = some ((bytesRuns ranges).map (pageSpan page)) := by
  rw [spans, byteRuns_eq fun r hr => (le_nextMultipleOf _ page).trans_lt (h r hr), Option.bind_some]
  refine mapM_eq_map fun run hrun => ?_
  obtain ⟨s, hs, hstop⟩ := Spans.exists_stop_of_mem_foldl_glue (List.mem_filter.mp hrun).1
  obtain ⟨r, hr, rfl⟩ := List.mem_map.mp hs
  rw [checkedNextMultipleOf, checked, ← hstop]
  exact congrArg (Option.map fun _ => pageSpan page run) (if_pos (h r hr))

/-- The pages of a run of bytes are those that have a byte of it. -/
theorem mem_pageSpan {run : Span ℕ} (hrun : run.start < run.stop) {x : ℕ} :
    x ∈ (pageSpan page run).points ↔ ∃ y ∈ run.points, y / page = x / page := by
  have hpos := page.pos
  have hstart : run.start - run.start % page = run.start / page * page := by
    have := Nat.div_add_mod' run.start page
    omega
  have hstop : nextMultipleOf run.stop page = ((run.stop - 1) / page + 1) * page := by
    rw [nextMultipleOf, show run.stop + (page - 1) = run.stop - 1 + page by omega,
      Nat.add_div_right _ hpos]
  change run.start - run.start % page ≤ x ∧ x < nextMultipleOf run.stop page ↔ _
  rw [hstart, hstop, ← Nat.le_div_iff_mul_le hpos,
    ← Nat.div_lt_iff_lt_mul hpos, Nat.lt_succ_iff]
  constructor
  · rintro ⟨hfirst, hlast⟩
    -- The page of `x` has its first byte in the run, or the first byte of the run.
    refine ⟨max run.start (x / page * page), ?_, ?_⟩
    · rw [Span.mem_points]
      have := (Nat.le_div_iff_mul_le hpos).mp hlast
      omega
    · rcases le_total run.start (x / page * page) with hle | hle
      · rw [max_eq_right hle, Nat.mul_div_cancel _ hpos]
      · rw [max_eq_left hle]
        exact le_antisymm hfirst ((Nat.le_div_iff_mul_le hpos).mpr hle)
  · rintro ⟨y, hy, heq⟩
    rw [Span.mem_points] at hy
    rw [← heq]
    exact ⟨Nat.div_le_div_right hy.1, Nat.div_le_div_right (Nat.le_sub_one_of_lt hy.2)⟩

theorem pageSpan_lt {run : Span ℕ} (hrun : run.start < run.stop) :
    (pageSpan page run).start < (pageSpan page run).stop :=
  (Nat.sub_le _ _).trans_lt (hrun.trans_le (le_nextMultipleOf _ page))

/-! ### The remaps -/

/-- Remaps that lie one after the other, from one offset to another. -/
def Tiles : ℕ → List Run → ℕ → Prop
  | first, [], last => first = last
  | first, run :: runs, last => run.offset = first ∧ 0 < run.length ∧ Tiles (first + run.length) runs last

/-- The host's bytes under the remaps. -/
def bytesOf (runs : List Run) : List ℕ := runs.flatMap fun run => List.range' run.source run.length

/-- The bytes of the alias that a remap maps. -/
def Run.offsets (r : Run) : Set ℕ := Set.Ico r.offset (r.offset + r.length)

variable {rs : List Run} {r : Run} {first last k : ℕ}

theorem tiles_concat : Tiles first (rs ++ [r]) last ↔
    Tiles first rs r.offset ∧ 0 < r.length ∧ r.offset + r.length = last := by
  induction rs generalizing first with
  | nil =>
    constructor
    · rintro ⟨rfl, hpos, heq⟩
      exact ⟨rfl, hpos, heq⟩
    · rintro ⟨rfl, hpos, heq⟩
      exact ⟨rfl, hpos, heq⟩
  | cons run rs ih =>
    rw [List.cons_append, Tiles, Tiles, ih]
    tauto

theorem bytesOf_append (rs rs' : List Run) : bytesOf (rs ++ rs') = bytesOf rs ++ bytesOf rs' :=
  List.flatMap_append

/-- Remaps one after the other leave no byte out. -/
theorem Tiles.exists_mem (h : Tiles first rs last) (hle : first ≤ k) (hlt : k < last) :
    ∃ r ∈ rs, k ∈ r.offsets := by
  induction rs generalizing first with
  | nil => exact absurd (h ▸ hlt) hle.not_gt
  | cons run rs ih =>
    obtain ⟨rfl, -, hrest⟩ := h
    rcases lt_or_ge k (run.offset + run.length) with hin | hpast
    · exact ⟨run, List.mem_cons_self, hle, hin⟩
    · obtain ⟨r, hr, hk⟩ := ih hrest hpast
      exact ⟨r, List.mem_cons_of_mem _ hr, hk⟩

/-- The byte of the host under a byte of a remap. -/
theorem Tiles.getElem?_bytesOf (h : Tiles first rs last) (hr : r ∈ rs) (hk : k ∈ r.offsets) :
    first ≤ r.offset ∧ (bytesOf rs)[k - first]? = some (r.source + (k - r.offset)) := by
  obtain ⟨hle, hlt⟩ := hk
  induction rs generalizing first with
  | nil => exact absurd hr List.not_mem_nil
  | cons run rs ih =>
    obtain ⟨rfl, -, hrest⟩ := h
    rw [bytesOf, List.flatMap_cons]
    rcases List.mem_cons.mp hr with rfl | hr
    · refine ⟨le_rfl, ?_⟩
      rw [List.getElem?_append_left (by rw [List.length_range']; omega),
        List.getElem?_range' (by omega), Nat.one_mul]
    · obtain ⟨hbefore, hbyte⟩ := ih hrest hr
      refine ⟨(Nat.le_add_right _ _).trans hbefore, ?_⟩
      rw [List.getElem?_append_right (by rw [List.length_range']; omega), List.length_range',
        ← hbyte, bytesOf]
      congr 1
      omega

/-- A part of a span put behind the remaps. -/
theorem addRun_spec (h : Tiles 0 rs first) {length : ℕ} (hpos : 0 < length) (span : Span ℕ) :
    Tiles 0 (addRun rs first length span) (first + length) ∧
      bytesOf (addRun rs first length span) = bytesOf rs ++ List.range' span.start length := by
  have hput : Tiles 0 (rs ++ [⟨first, span.start, length⟩]) (first + length) ∧
      bytesOf (rs ++ [⟨first, span.start, length⟩]) = bytesOf rs ++ List.range' span.start length := by
    refine ⟨tiles_concat.mpr ⟨h, hpos, rfl⟩, ?_⟩
    rw [bytesOf_append]
    exact congrArg (bytesOf rs ++ ·) (List.append_nil _)
  rcases rs.eq_nil_or_concat' with rfl | ⟨rs, run, rfl⟩
  · exact hput
  · rw [addRun, List.getLast?_concat]
    dsimp only
    split_ifs with hmeets
    · obtain ⟨hbefore, hrun, hend⟩ := tiles_concat.mp h
      have heq : run.source + run.length = span.start := by
        unfold checked at hmeets
        split_ifs at hmeets
        exact Option.some.inj hmeets
      rw [List.dropLast_concat, bytesOf_append, bytesOf_append, List.append_assoc]
      refine ⟨tiles_concat.mpr ⟨hbefore, Nat.add_pos_left hrun _, by dsimp only; omega⟩, ?_⟩
      refine congrArg (bytesOf rs ++ ·) ?_
      rw [bytesOf, bytesOf, List.flatMap_singleton, List.flatMap_singleton, ← heq,
        ← List.range'_append_1]
    · exact hput

/-- The remaps lie over the pages of the spans, up to the size. -/
theorem runsFrom_spec {ss : List (Span ℕ)} (h : Tiles 0 rs first) (hss : ∀ s ∈ ss, s.start < s.stop)
    (hle : first ≤ size) :
    Tiles 0 (runsFrom size rs first ss) (min size (first + (layout ss).length)) ∧
      bytesOf (runsFrom size rs first ss) = bytesOf rs ++ (layout ss).take (size - first) := by
  induction ss generalizing rs first with
  | nil =>
    rw [runsFrom, Spans.layout_nil, List.take_nil, List.append_nil, List.length_nil, Nat.add_zero,
      min_eq_right hle]
    exact ⟨h, rfl⟩
  | cons s ss ih =>
    obtain ⟨hs, hss⟩ := List.forall_mem_cons.mp hss
    rw [runsFrom, Spans.length_layout_cons]
    split_ifs with hfull
    · -- The alias is full.
      obtain rfl : size = first := by omega
      rw [Nat.sub_self, List.take_zero, List.append_nil, min_eq_left (Nat.le_add_right _ _)]
      exact ⟨h, rfl⟩
    · obtain ⟨htiles, hbytes⟩ := addRun_spec h (Nat.pos_of_ne_zero hfull) s
      obtain ⟨htiles, hrest⟩ := ih htiles hss (by omega)
      refine ⟨?_, ?_⟩
      · convert htiles using 1
        omega
      · rw [hrest, hbytes, List.append_assoc, Spans.layout_cons, List.take_append,
          List.length_range']
        rcases le_total (s.stop - s.start) (size - first) with hall | hpart
        · rw [min_eq_left hall, List.take_range'_of_length_le hall, Nat.sub_sub]
        · rw [min_eq_right hpart, List.take_range'_of_length_ge hpart, Nat.sub_eq_zero_of_le hpart,
            Nat.add_sub_cancel' hle, Nat.sub_self]

/-- The lookup of one byte in the runs from one that starts `before` bytes into the memory. -/
theorem inRunsFrom_single {l : List HostRange} {before x : ℕ} (hle : before ≤ k)
    (hx : (layout l)[k - before]? = some x) :
    inRunsFrom ⟨k, k + 1, Nat.le_succ k⟩ before l = [⟨x, x + 1, Nat.le_succ x⟩] := by
  induction l generalizing before with
  | nil => exact absurd hx nofun
  | cons run l ih =>
    have hrun := run.start_le_stop
    rw [Spans.layout_cons] at hx
    rw [inRunsFrom]
    dsimp only
    rcases lt_or_ge k (before + (run.stop - run.start)) with hlt | hge
    · -- The byte is one of the run's.
      rw [List.getElem?_append_left (by rw [List.length_range']; omega),
        List.getElem?_range' (by omega), Nat.one_mul] at hx
      obtain rfl := Option.some.inj hx
      rw [if_pos (show k + 1 ≤ _ from hlt), inRun]
      dsimp only
      rw [dif_pos (by omega)]
      congr 2 <;> omega
    · rw [List.getElem?_append_right (by rw [List.length_range']; omega), List.length_range',
        Nat.sub_sub] at hx
      rw [if_neg (by omega), inRun, dif_neg (by dsimp only; omega), List.nil_append]
      exact ih hge hx

/-- The lookup of one byte. -/
theorem inRuns_single {l : List HostRange} {x : ℕ} (hx : (layout l)[k]? = some x) :
    inRuns l ⟨k, k + 1, Nat.le_succ k⟩ = [⟨x, x + 1, Nat.le_succ x⟩] :=
  inRunsFrom_single k.zero_le hx

/-- The remaps of an alias lie one after the other over all it has, and under each of its bytes is the
byte of the host that the lookup gives; ranges that follow on share the pages of their run of bytes. -/
theorem runs_inRuns {head : AddressRange} {tail : List AddressRange} (hranges : ranges = head :: tail)
    (hnull : ∀ r ∈ ranges, r.address ≠ 0) (hpage : head.address % page = 0)
    (hfits : ∀ r ∈ ranges, nextMultipleOf (r.address + r.length) page < 2 ^ 64) (size : ℕ) :
    ∃ ss rs, spans ranges page = some ss ∧ runs ranges size page = .ok (some rs) ∧
      Tiles 0 rs (min size (ss.map fun s => s.stop - s.start).sum) ∧
      (∀ k < min size (ss.map fun s => s.stop - s.start).sum, (∃ r ∈ rs, k ∈ r.offsets) ∧
        ∀ r ∈ rs, k ∈ r.offsets → inRuns (pages ranges page) ⟨k, k + 1, Nat.le_succ k⟩ =
          [⟨r.source + (k - r.offset), r.source + (k - r.offset) + 1, Nat.le_succ _⟩]) ∧
      ∃ gs bytes, gs.flatten = ranges.map AddressRange.span ∧ List.Forall₂ Stretch gs bytes ∧
        (bytes.IsChain fun a b => ¬Follows a b) ∧
        List.Forall₂ (fun run s => ∀ x, x ∈ s.points ↔ ∃ y ∈ run.points, y / (page : ℕ) = x / page)
          (bytes.filter fun run => decide (run.start < run.stop)) ss := by
  have hspans := spans_eq hfits
  have hwhole : ∀ s ∈ (bytesRuns ranges).map (pageSpan page), s.start < s.stop := by
    intro s hs
    obtain ⟨run, hrun, rfl⟩ := List.mem_map.mp hs
    exact pageSpan_lt (of_decide_eq_true (List.mem_filter.mp hrun).2)
  have hruns : runs ranges size page = .ok ((spans ranges page).map (runsFrom size [] 0)) := by
    have hany : ¬(ranges.any fun range => decide (range.address = 0)) := by
      rw [List.any_eq_true]
      rintro ⟨r, hr, hzero⟩
      exact hnull r hr (of_decide_eq_true hzero)
    subst hranges
    rw [runs, if_neg hany, if_neg (not_not.mpr hpage)]
  generalize hss : (bytesRuns ranges).map (pageSpan page) = ss at hspans hwhole
  have hnone : Tiles 0 [] 0 := rfl
  obtain ⟨htiles, hbytes⟩ := runsFrom_spec hnone hwhole size.zero_le
  rw [Nat.zero_add, Spans.length_layout] at htiles
  refine ⟨ss, runsFrom size [] 0 ss, hspans, ?_, htiles, fun k hk => ⟨?_, fun r hr hin => ?_⟩, ?_⟩
  · rw [hruns, hspans, Option.map_some]
  · exact htiles.exists_mem k.zero_le hk
  · obtain ⟨-, hbyte⟩ := htiles.getElem?_bytesOf hr hin
    rw [hbytes, Nat.sub_zero, Nat.sub_zero, bytesOf, List.flatMap_nil, List.nil_append,
      List.getElem?_take_of_lt (hk.trans_le (min_le_left _ _))] at hbyte
    refine inRuns_single ?_
    rw [pages, hspans, Option.getD_some, Spans.layout_foldl_glue, List.nil_append, hbyte]
  · obtain ⟨gs, hflat, hstretch, hchain⟩ := Spans.exists_stretches (ranges.map AddressRange.span)
    refine ⟨gs, _, hflat, hstretch, hchain, ?_⟩
    rw [← hss, List.forall₂_map_right_iff]
    exact List.forall₂_same.mpr fun run hrun x =>
      mem_pageSpan (of_decide_eq_true (List.mem_filter.mp hrun).2)

/-- Two ranges that follow on end within a page, an empty one follows, and one more page is shared. -/
theorem runs_inRuns_shared :
    let ranges : List AddressRange := [⟨0x4000, 0x1000⟩, ⟨0x5000, 0x100⟩, ⟨0x9000, 0⟩, ⟨0x5200, 0x20⟩]
    ∃ ss rs, spans ranges ⟨0x1000, by decide⟩ = some ss ∧
      runs ranges 0x3000 ⟨0x1000, by decide⟩ = .ok (some rs) ∧
      Tiles 0 rs (min 0x3000 (ss.map fun s => s.stop - s.start).sum) := by
  intro ranges
  obtain ⟨ss, rs, hspans, hruns, htiles, -⟩ :=
    runs_inRuns (show ranges = _ :: _ from rfl) (by decide)
      (show 0x4000 % ((⟨0x1000, by decide⟩ : ℕ+) : ℕ) = 0 by decide) (by decide) 0x3000
  exact ⟨ss, rs, hspans, hruns, htiles⟩

end ReimsVgpu.Gpu.AliasRuns
