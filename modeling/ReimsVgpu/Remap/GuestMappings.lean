import Mathlib.Data.List.Range
import ReimsVgpu.Library.RunCuts
import ReimsVgpu.Remap.Holds

/-!
# Core's mappings of the guest's pages

Which host bytes of core's own mappings show which pages of the guest, as the memory map names them:
a map from the first byte of each run to its end and to the first byte of what it shows. A mapping of a
mapping is named by what that one shows, where it lies in one run of it.

Beside the map stands the renaming that a history of mappings and unmappings defines, byte by byte:
the name of each byte, whether a mapping shows it, and whether it is in one run with the byte before
it. The two agree after every history, so that a list of ranges is named byte by byte and in order.

Addresses are natural numbers, as in the other bookkeeping of host pages; the one sum that saturates
in the code saturates here.

## Main definitions

* `GuestMappings`, `GuestMappings.holding`, `GuestMappings.mapped`, `GuestMappings.unmapped`,
  `GuestMappings.named`, `GuestMappings.shows`: the map and its operations.
* `Renaming`, `Renaming.mapped`, `Renaming.unmapped`: what a history defines.
* `Renaming.Of`: the renaming is what the runs say.

## Main results

* `guestMappings_rename`: after every history.
* `emptyRange_shown`: a range of no byte may be said to be shown.
-/

namespace ReimsVgpu.Remap

/-! ### The map of the runs -/

/-- A run of a mapping: its end, and the first byte of the pages it shows. -/
structure GuestRun where
  stop : ℕ
  source : ℕ
deriving DecidableEq

/-- What a run says of the rest of it once it ends earlier, or starts later. -/
def GuestRun.cutting : RunMap.Cutting GuestRun.stop where
  head k run := { run with stop := k }
  tail k e := { stop := e.2.stop, source := e.2.source + (k - e.1) }
  stop_head _ _ := rfl
  stop_tail _ _ := rfl

/-- The bytes of a range, in order. -/
def Pages.bytes (pages : Pages) : List ℕ := List.range' pages.start (pages.stop - pages.start)

structure GuestMappings where
  runs : List (ℕ × GuestRun)
deriving DecidableEq

namespace GuestMappings

/-- No mapping. -/
def new : GuestMappings := ⟨[]⟩

/-- The run that holds the byte: the last one that starts no later, if it does not end before. -/
def holding (m : GuestMappings) (x : ℕ) : Option (ℕ × GuestRun) :=
  (RunMap.before (x + 1) m.runs).filter fun e => decide (x < e.2.stop)

/-- The range shows none of the guest's pages: what of a run lies in it goes. -/
def unmapped (m : GuestMappings) (first stop : ℕ) : GuestMappings :=
  ⟨RunMap.takeOut GuestRun.cutting first stop m.runs⟩

/-- How a range of the length from the byte is named: as the mapping that holds it in one run does. -/
def nameOf (m : GuestMappings) (source length : ℕ) : ℕ :=
  match m.holding source with
  | some (first, run) =>
    -- The sum saturates, so that no range past the last address lies in a run.
    if min (source + length) (2 ^ 64 - 1) ≤ run.stop then run.source + (source - first) else source
  | none => source

/-- The range shows the pages from the source on. -/
def mapped (m : GuestMappings) (first stop source : ℕ) : GuestMappings :=
  let source := m.nameOf source (stop - first)
  let m := m.unmapped first stop
  if first < stop then ⟨RunMap.insert first { stop, source } m.runs⟩ else m

/-- The loop of `named` over one range, as many times as there is fuel for. -/
def namedFrom (m : GuestMappings) (stop : ℕ) : ℕ → ℕ → Option (List Pages)
  | fuel, x =>
    if stop ≤ x then some []
    else match fuel with
      | 0 => none
      | fuel + 1 =>
        match m.holding x with
        | some (first, run) =>
          let high := min run.stop stop
          (m.namedFrom stop fuel high).map
            (⟨run.source + (x - first), run.source + (high - first)⟩ :: ·)
        | none =>
          let next := (RunMap.after x m.runs).map Prod.fst
          let high := min (next.getD (2 ^ 64 - 1)) stop
          (m.namedFrom stop fuel high).map (⟨x, high⟩ :: ·)

/-- The ranges named by the pages they show, each cut where a run starts or ends. -/
def named (m : GuestMappings) (fuel : ℕ) (memory : List Pages) : Option (List Pages) :=
  if m.runs = [] then some memory
  else (memory.mapM fun pages => m.namedFrom pages.stop fuel pages.start).map List.flatten

/-- Whether a byte of the range lies in a mapping. -/
def shows (m : GuestMappings) (pages : Pages) : Bool :=
  (m.holding pages.start).isSome ||
    (RunMap.after pages.start m.runs).any fun e => decide (e.1 < pages.stop)

end GuestMappings

/-! ### The renaming -/

/-- The name of each byte, the bytes that a mapping shows, and those that are in one run with the byte
before them. -/
structure Renaming where
  name : ℕ → ℕ
  shown : ℕ → Prop
  inside : ℕ → Prop

namespace Renaming

/-- Every byte its own name. -/
def identity : Renaming where
  name x := x
  shown _ := False
  inside _ := False

/-- All bytes of the range lie in one run. -/
def OneRun (r : Renaming) (first stop : ℕ) : Prop :=
  r.shown first ∧ ∀ x, first < x → x < stop → r.inside x

/-- The bytes of the range are named by themselves. -/
def unmapped (r : Renaming) (first stop : ℕ) : Renaming where
  name x := if first ≤ x ∧ x < stop then x else r.name x
  shown x := r.shown x ∧ ¬(first ≤ x ∧ x < stop)
  inside x := r.inside x ∧ ¬(first ≤ x ∧ x ≤ stop)

open Classical in
/-- The bytes of the range are named as those from the source on are, where these lie in one run, and
by the source's own bytes otherwise. -/
noncomputable def mapped (r : Renaming) (first stop source : ℕ) : Renaming where
  name x :=
    if first ≤ x ∧ x < stop then
      (if r.OneRun source (source + (stop - first)) then r.name source else source) + (x - first)
    else r.name x
  shown x := r.shown x ∨ first ≤ x ∧ x < stop
  inside x := r.inside x ∧ ¬(first ≤ x ∧ x ≤ stop) ∨ first < x ∧ x < stop

/-- The renaming is what the runs say. -/
structure Of (m : GuestMappings) (r : Renaming) : Prop where
  runs : RunMap.Runs GuestRun.stop m.runs
  name : ∀ e ∈ m.runs, ∀ x, e.1 ≤ x → x < e.2.stop → r.name x = e.2.source + (x - e.1)
  name_off : ∀ x, ¬r.shown x → r.name x = x
  shown : ∀ x, r.shown x ↔ ∃ e ∈ m.runs, e.1 ≤ x ∧ x < e.2.stop
  inside : ∀ x, r.inside x ↔ ∃ e ∈ m.runs, e.1 < x ∧ x < e.2.stop

end Renaming

/-- A range mapped or unmapped. -/
inductive MappingEvent
  | mapped (first stop source : ℕ)
  | unmapped (first stop : ℕ)
deriving DecidableEq

namespace MappingEvent

/-- The range ends where it starts or later, and no byte of it, nor of what it shows, is past the last
address. -/
def Allowed : MappingEvent → Prop
  | mapped first stop source => first ≤ stop ∧ stop < 2 ^ 64 ∧ source + (stop - first) < 2 ^ 64
  | unmapped first stop => first ≤ stop ∧ stop < 2 ^ 64

end MappingEvent

def GuestMappings.step (m : GuestMappings) : MappingEvent → GuestMappings
  | .mapped first stop source => m.mapped first stop source
  | .unmapped first stop => m.unmapped first stop

noncomputable def Renaming.step (r : Renaming) : MappingEvent → Renaming
  | .mapped first stop source => r.mapped first stop source
  | .unmapped first stop => r.unmapped first stop

/-! ### The runs and the renaming agree -/

namespace Renaming.Of

variable {m : GuestMappings} {r : Renaming} {first stop source x : ℕ}

theorem new : Of .new .identity where
  runs := RunMap.runs_nil
  name _ he := absurd he List.not_mem_nil
  name_off _ _ := rfl
  shown x := ⟨False.elim, fun ⟨_, he, _⟩ => absurd he List.not_mem_nil⟩
  inside x := ⟨False.elim, fun ⟨_, he, _⟩ => absurd he List.not_mem_nil⟩

theorem holding_eq (h : Of m r) (x : ℕ) : m.holding x = RunMap.holding GuestRun.stop x m.runs :=
  h.runs.before_filter_eq x

theorem holding_eq_some (h : Of m r) {e : ℕ × GuestRun} :
    m.holding x = some e ↔ e ∈ m.runs ∧ e.1 ≤ x ∧ x < e.2.stop := by
  rw [h.holding_eq, h.runs.holding_eq_some_iff]

theorem holding_eq_none (h : Of m r) : m.holding x = none ↔ ¬r.shown x := by
  rw [h.holding_eq, RunMap.holding_eq_none_iff, h.shown]
  push Not
  rfl

/-- A range lies in one run of the renaming as it does in one of the map. -/
theorem oneRun_iff (h : Of m r) (hlt : first < stop) :
    r.OneRun first stop ↔ ∃ e ∈ m.runs, e.1 ≤ first ∧ stop ≤ e.2.stop := by
  constructor
  · rintro ⟨hshown, hinside⟩
    obtain ⟨e, he, hle, hfirst⟩ := (h.shown first).mp hshown
    refine ⟨e, he, hle, not_lt.mp fun hend => ?_⟩
    -- The byte at the run's end is in one run with the byte before it, which is the run's own.
    obtain ⟨e', he', hle', hlt'⟩ := (h.inside e.2.stop).mp (hinside _ hfirst hend)
    obtain rfl := h.runs.eq_of_lt he he' (by have := h.runs.lt e he; omega) hle'
    exact hlt'.false
  · rintro ⟨e, he, hle, hend⟩
    refine ⟨(h.shown first).mpr ⟨e, he, hle, hlt.trans_le hend⟩, fun x hfirst hx => ?_⟩
    exact (h.inside x).mpr ⟨e, he, hle.trans_lt hfirst, hx.trans_le hend⟩

/-! ### One event -/

/-- Where the runs after a range is unmapped come from. -/
theorem mem_unmapped (h : Of m r) (hle : first ≤ stop) {e' : ℕ × GuestRun} :
    e' ∈ (m.unmapped first stop).runs ↔ ∃ e ∈ m.runs,
      (e.1 < stop ∧ first < e.2.stop) ∧
          (e.1 < first ∧ e' = (e.1, { e.2 with stop := first }) ∨
            stop < e.2.stop ∧ e' = (stop, ⟨e.2.stop, e.2.source + (stop - e.1)⟩)) ∨
        ¬(e.1 < stop ∧ first < e.2.stop) ∧ e' = e := by
  rw [GuestMappings.unmapped, h.runs.mem_takeOut hle]
  simp only [RunMap.mem_remnants]
  rfl

/-- A byte outside the range keeps its place in its run. -/
theorem exists_unmapped (h : Of m r) (hle : first ≤ stop) {e : ℕ × GuestRun} (he : e ∈ m.runs)
    (hx : x < first ∨ stop ≤ x) (hlow : e.1 ≤ x) (hhigh : x < e.2.stop) :
    ∃ e' ∈ (m.unmapped first stop).runs, e'.1 ≤ x ∧ x < e'.2.stop ∧
      (x ≠ stop ∨ e.2.stop ≤ first → (e.1 < x ↔ e'.1 < x)) := by
  by_cases hmeets : e.1 < stop ∧ first < e.2.stop
  · rcases hx with hx | hx
    · exact ⟨_, (h.mem_unmapped hle).mpr ⟨e, he, .inl ⟨hmeets, .inl ⟨hlow.trans_lt hx, rfl⟩⟩⟩, hlow,
        hx, fun _ => Iff.rfl⟩
    · refine ⟨_, (h.mem_unmapped hle).mpr ⟨e, he, .inl ⟨hmeets, .inr ⟨hx.trans_lt hhigh, rfl⟩⟩⟩, hx,
        hhigh, fun hne => ?_⟩
      dsimp only
      omega
  · exact ⟨e, (h.mem_unmapped hle).mpr ⟨e, he, .inr ⟨hmeets, rfl⟩⟩, hlow, hhigh, fun _ => Iff.rfl⟩

theorem unmapped (h : Of m r) (hle : first ≤ stop) :
    Of (m.unmapped first stop) (r.unmapped first stop) where
  runs := h.runs.takeOut hle
  name e' he' x hlow hhigh := by
    have hrun := (h.runs.apart_takeOut (c := GuestRun.cutting) hle) e' he'
    have hx : ¬(first ≤ x ∧ x < stop) := by omega
    refine (if_neg hx).trans ?_
    obtain ⟨e, he, ⟨hmeets, ⟨hfirst, rfl⟩ | ⟨hstop, rfl⟩⟩ | ⟨-, rfl⟩⟩ := (h.mem_unmapped hle).mp he'
    · exact h.name e he x hlow (hhigh.trans hmeets.2)
    · dsimp only at hlow hhigh ⊢
      rw [h.name e he x (hmeets.1.le.trans hlow) hhigh]
      omega
    · exact h.name e' he x hlow hhigh
  name_off x hx := by
    by_cases hin : first ≤ x ∧ x < stop
    · exact if_pos hin
    · exact (if_neg hin).trans (h.name_off x fun hshown => hx ⟨hshown, hin⟩)
  shown x := by
    constructor
    · rintro ⟨hshown, hx⟩
      obtain ⟨e, he, hlow, hhigh⟩ := (h.shown x).mp hshown
      obtain ⟨e', he', hlow', hhigh', -⟩ := h.exists_unmapped hle he (by omega) hlow hhigh
      exact ⟨e', he', hlow', hhigh'⟩
    · rintro ⟨e', he', hlow, hhigh⟩
      have hrun := (h.runs.apart_takeOut (c := GuestRun.cutting) hle) e' he'
      refine ⟨(h.shown x).mpr ?_, by omega⟩
      obtain ⟨e, he, ⟨hmeets, ⟨hfirst, rfl⟩ | ⟨hstop, rfl⟩⟩ | ⟨-, rfl⟩⟩ := (h.mem_unmapped hle).mp he'
      · exact ⟨e, he, hlow, hhigh.trans hmeets.2⟩
      · exact ⟨e, he, hmeets.1.le.trans hlow, hhigh⟩
      · exact ⟨e', he, hlow, hhigh⟩
  inside x := by
    constructor
    · rintro ⟨hinside, hx⟩
      obtain ⟨e, he, hlow, hhigh⟩ := (h.inside x).mp hinside
      obtain ⟨e', he', -, hhigh', hiff⟩ := h.exists_unmapped hle he (by omega) hlow.le hhigh
      exact ⟨e', he', (hiff (.inl (by omega))).mp hlow, hhigh'⟩
    · rintro ⟨e', he', hlow, hhigh⟩
      have hrun := (h.runs.apart_takeOut (c := GuestRun.cutting) hle) e' he'
      refine ⟨(h.inside x).mpr ?_, by omega⟩
      obtain ⟨e, he, ⟨hmeets, ⟨hfirst, rfl⟩ | ⟨hstop, rfl⟩⟩ | ⟨-, rfl⟩⟩ := (h.mem_unmapped hle).mp he'
      · exact ⟨e, he, hlow, hhigh.trans hmeets.2⟩
      · exact ⟨e, he, hmeets.1.trans hlow, hhigh⟩
      · exact ⟨e', he, hlow, hhigh⟩

open Classical in
theorem nameOf_eq (h : Of m r) {length : ℕ} (hpos : 0 < length) (hsum : source + length < 2 ^ 64) :
    m.nameOf source length =
      if r.OneRun source (source + length) then r.name source else source := by
  have hone := h.oneRun_iff (show source < source + length by omega)
  rw [GuestMappings.nameOf]
  cases hholding : m.holding source with
  | none =>
    exact (if_neg fun hshown => h.holding_eq_none.mp hholding hshown.1).symm
  | some e =>
    obtain ⟨he, hlow, hhigh⟩ := h.holding_eq_some.mp hholding
    dsimp only
    rw [Nat.min_eq_left (by omega), h.name e he source hlow hhigh]
    refine if_congr ⟨fun hend => hone.mpr ⟨e, he, hlow, hend⟩, fun hrun => ?_⟩ rfl rfl
    obtain ⟨e', he', hlow', hend⟩ := hone.mp hrun
    obtain rfl := h.runs.eq_of_lt he he' (by omega) (by omega)
    exact hend

theorem mapped (h : Of m r) (hle : first ≤ stop) (hsum : source + (stop - first) < 2 ^ 64) :
    Of (m.mapped first stop source) (r.mapped first stop source) := by
  have hcut := h.unmapped hle
  rw [GuestMappings.mapped]
  rcases hle.eq_or_lt with rfl | hlt
  · rw [if_neg (lt_irrefl first)]
    refine ⟨hcut.runs, fun e he x hlow hhigh => ?_, fun x hx => ?_, fun x => ?_, fun x => ?_⟩
    · have hname := hcut.name e he x hlow hhigh
      simp only [Renaming.unmapped, Renaming.mapped] at hname ⊢
      rwa [if_neg (by omega)] at hname ⊢
    · refine (if_neg (by omega)).trans (h.name_off x fun hshown => hx (.inl hshown))
    · rw [← hcut.shown]
      simp only [Renaming.unmapped, Renaming.mapped]
      refine ⟨fun hx => ⟨hx.resolve_right (by omega), by omega⟩, fun hx => .inl hx.1⟩
    · rw [← hcut.inside]
      simp only [Renaming.unmapped, Renaming.mapped]
      exact ⟨fun hx => hx.resolve_right (by omega), .inl⟩
  rw [if_pos hlt]
  have hfree := h.runs.apart_takeOut (c := GuestRun.cutting) hle
  have hmem : ∀ e, e ∈ RunMap.insert first ⟨stop, m.nameOf source (stop - first)⟩
      (m.unmapped first stop).runs ↔
      e = (first, ⟨stop, m.nameOf source (stop - first)⟩) ∨ e ∈ (m.unmapped first stop).runs :=
    fun e => hcut.runs.mem_insert (k := first)
      (v := GuestRun.mk stop (m.nameOf source (stop - first))) hfree hlt
  refine ⟨hcut.runs.insert hfree hlt, fun e he x hlow hhigh => ?_, fun x hx => ?_, fun x => ?_,
    fun x => ?_⟩
  · rcases (hmem e).mp he with rfl | he
    · refine (if_pos ⟨hlow, hhigh⟩).trans ?_
      dsimp only
      rw [h.nameOf_eq (by omega) hsum]
    · have hrun := hfree e he
      have hname := hcut.name e he x hlow hhigh
      simp only [Renaming.unmapped, Renaming.mapped] at hname ⊢
      rwa [if_neg (by omega)] at hname ⊢
  · simp only [Renaming.mapped, not_or] at hx ⊢
    rw [if_neg hx.2]
    exact h.name_off x hx.1
  · have hshown := hcut.shown x
    simp only [Renaming.unmapped, Renaming.mapped] at hshown ⊢
    constructor
    · intro hx
      by_cases hin : first ≤ x ∧ x < stop
      · exact ⟨_, (hmem _).mpr (.inl rfl), hin⟩
      · obtain ⟨e, he, hx⟩ := hshown.mp ⟨hx.resolve_right hin, hin⟩
        exact ⟨e, (hmem e).mpr (.inr he), hx⟩
    · rintro ⟨e, he, hx⟩
      rcases (hmem e).mp he with rfl | he
      · exact .inr hx
      · exact .inl (hshown.mpr ⟨e, he, hx⟩).1
  · have hinside := hcut.inside x
    simp only [Renaming.unmapped, Renaming.mapped] at hinside ⊢
    constructor
    · rintro (hx | hx)
      · obtain ⟨e, he, hx⟩ := hinside.mp hx
        exact ⟨e, (hmem e).mpr (.inr he), hx⟩
      · exact ⟨_, (hmem _).mpr (.inl rfl), hx⟩
    · rintro ⟨e, he, hx⟩
      rcases (hmem e).mp he with rfl | he
      · exact .inr hx
      · exact .inl (hinside.mpr ⟨e, he, hx⟩)

theorem step (h : Of m r) {e : MappingEvent} (hallowed : e.Allowed) :
    Of (m.step e) (r.step e) := by
  cases e with
  | mapped first stop source => exact h.mapped hallowed.1 hallowed.2.2
  | unmapped first stop => exact h.unmapped hallowed.1

theorem foldl (h : Of m r) {events : List MappingEvent} (hallowed : ∀ e ∈ events, e.Allowed) :
    Of (events.foldl GuestMappings.step m) (events.foldl Renaming.step r) := by
  induction events generalizing m r with
  | nil => exact h
  | cons e events ih =>
    obtain ⟨he, hrest⟩ := List.forall_mem_cons.mp hallowed
    exact ih (h.step he) hrest

/-! ### Ranges named -/

/-- What the loop of `named` makes of the bytes from one on, with a turn for each of them. -/
theorem namedFrom_spec (h : Of m r) (hstop : stop < 2 ^ 64) {fuel : ℕ} (hfuel : stop - x ≤ fuel) :
    ∃ named, m.namedFrom stop fuel x = some named ∧
      named.flatMap Pages.bytes = (List.range' x (stop - x)).map r.name := by
  induction fuel generalizing x with
  | zero =>
    refine ⟨[], ?_, ?_⟩
    · rw [GuestMappings.namedFrom, if_pos (by omega)]
    · rw [Nat.le_zero.mp hfuel]
      rfl
  | succ fuel ih =>
    by_cases hend : stop ≤ x
    · refine ⟨[], ?_, ?_⟩
      · rw [GuestMappings.namedFrom, if_pos hend]
      · rw [Nat.sub_eq_zero_of_le hend]
        rfl
    -- A turn names the bytes up to `high`, and the loop goes on there.
    suffices hturn : ∃ high piece, x < high ∧ high ≤ stop ∧
        (m.namedFrom stop (fuel + 1) x = (m.namedFrom stop fuel high).map (piece :: ·)) ∧
        piece.bytes = (List.range' x (high - x)).map r.name by
      obtain ⟨high, piece, hlow, hhigh, hloop, hpiece⟩ := hturn
      obtain ⟨named, hnamed, hbytes⟩ := ih (x := high) (by omega)
      refine ⟨piece :: named, by rw [hloop, hnamed, Option.map_some], ?_⟩
      have hsplit : List.range' x (stop - x) =
          List.range' x (high - x) ++ List.range' high (stop - high) := by
        have happend := List.range'_append_1 (s := x) (m := high - x) (n := stop - high)
        rw [show x + (high - x) = high by omega,
          show high - x + (stop - high) = stop - x by omega] at happend
        exact happend.symm
      rw [List.flatMap_cons, hpiece, hbytes, hsplit, List.map_append]
    rw [GuestMappings.namedFrom, if_neg hend]
    cases hholding : m.holding x with
    | some e =>
      obtain ⟨he, hlow, hhigh⟩ := h.holding_eq_some.mp hholding
      refine ⟨min e.2.stop stop, _, by omega, min_le_right _ _, rfl, ?_⟩
      rw [Pages.bytes]
      dsimp only
      have hlength : e.2.source + (min e.2.stop stop - e.1) - (e.2.source + (x - e.1)) =
          min e.2.stop stop - x := by omega
      rw [hlength]
      refine List.ext_getElem (by simp) fun i hi hi' => ?_
      rw [List.length_range'] at hi
      rw [List.getElem_map, List.getElem_range', List.getElem_range', Nat.one_mul,
        h.name e he _ (by omega) (by omega)]
      omega
    | none =>
      have hoff := h.holding_eq_none.mp hholding
      -- No run starts at the byte, and the next one starts at `next` or later.
      obtain ⟨next, hnext, hlow, hfree⟩ : ∃ next,
          next = (((RunMap.after x m.runs).map Prod.fst).getD (2 ^ 64 - 1)) ∧ x < min next stop ∧
            ∀ y, x ≤ y → y < min next stop → ¬r.shown y := by
        refine ⟨_, rfl, ?_⟩
        cases hafter : RunMap.after x m.runs with
        | none =>
          have hbelow := RunMap.after_eq_none_iff.mp hafter
          refine ⟨?_, fun y hy _ hshown => ?_⟩
          · change x < min (2 ^ 64 - 1) stop
            omega
          · obtain ⟨e, he, hle, hlt⟩ := (h.shown y).mp hshown
            exact hoff ((h.shown x).mpr ⟨e, he, (hbelow e he).le, hy.trans_lt hlt⟩)
        | some e =>
          obtain ⟨he, hle, hfirst⟩ := h.runs.le_of_after hafter
          have hne : e.1 ≠ x := fun heq =>
            hoff ((h.shown x).mpr ⟨e, he, heq.le, heq ▸ h.runs.lt e he⟩)
          refine ⟨?_, fun y hy hlt hshown => ?_⟩
          · change x < min e.1 stop
            omega
          · obtain ⟨e', he', hle', hlt'⟩ := (h.shown y).mp hshown
            change y < min e.1 stop at hlt
            by_cases hbefore : e'.1 ≤ x
            · exact hoff ((h.shown x).mpr ⟨e', he', hbefore, hy.trans_lt hlt'⟩)
            · have := hfirst e' he' (by omega)
              omega
      refine ⟨min next stop, ⟨x, min next stop⟩, hlow, min_le_right _ _, by rw [hnext], ?_⟩
      rw [Pages.bytes]
      dsimp only
      refine (List.map_id _).symm.trans (List.map_congr_left fun y hy => ?_)
      obtain ⟨hy, hlt⟩ := List.mem_range'_1.mp hy
      exact (h.name_off y (hfree y hy (by omega))).symm

/-- The ranges named are those given, byte by byte. -/
theorem named_spec (h : Of m r) {memory : List Pages} (hmemory : ∀ p ∈ memory, p.stop < 2 ^ 64)
    {fuel : ℕ} (hfuel : ∀ p ∈ memory, p.stop - p.start ≤ fuel) :
    ∃ named, m.named fuel memory = some named ∧
      named.flatMap Pages.bytes = (memory.flatMap Pages.bytes).map r.name := by
  rw [GuestMappings.named]
  split_ifs with hempty
  · refine ⟨memory, rfl, ?_⟩
    have hname : ∀ x, r.name x = x := fun x => h.name_off x fun hshown => by
      obtain ⟨e, he, -⟩ := (h.shown x).mp hshown
      rw [hempty] at he
      exact absurd he List.not_mem_nil
    rw [List.map_congr_left fun x _ => hname x, List.map_id']
  · induction memory with
    | nil => exact ⟨[], rfl, rfl⟩
    | cons p memory ih =>
      obtain ⟨hp, hmemory⟩ := List.forall_mem_cons.mp hmemory
      obtain ⟨hpfuel, hfuel⟩ := List.forall_mem_cons.mp hfuel
      obtain ⟨named, hnamed, hbytes⟩ := h.namedFrom_spec hp hpfuel
      obtain ⟨rest, hrest, hrestBytes⟩ := ih hmemory hfuel
      obtain ⟨lists, hlists, rfl⟩ := Option.map_eq_some_iff.mp hrest
      refine ⟨named ++ lists.flatten, ?_, ?_⟩
      · rw [List.mapM_cons, hnamed, hlists]
        rfl
      · rw [List.flatMap_append, hbytes, hrestBytes, List.flatMap_cons, List.map_append]
        rfl

/-- A range that holds a byte is shown where one of its bytes lies in a run. -/
theorem shows_iff (h : Of m r) {p : Pages} (hp : p.start < p.stop) :
    m.shows p = true ↔ ∃ x ∈ p, r.shown x := by
  rw [GuestMappings.shows, Bool.or_eq_true]
  constructor
  · rintro (hstart | hafter)
    · obtain ⟨e, he⟩ := Option.isSome_iff_exists.mp hstart
      obtain ⟨hmem, hlow, hhigh⟩ := h.holding_eq_some.mp he
      exact ⟨p.start, ⟨le_rfl, hp⟩, (h.shown _).mpr ⟨e, hmem, hlow, hhigh⟩⟩
    · obtain ⟨e, he, hlt⟩ := (Option.any_eq_true _ _).mp hafter
      obtain ⟨hmem, hle, -⟩ := h.runs.le_of_after he
      exact ⟨e.1, ⟨hle, of_decide_eq_true hlt⟩, (h.shown _).mpr ⟨e, hmem, le_rfl, h.runs.lt e hmem⟩⟩
  · rintro ⟨x, ⟨hstart, hx⟩, hshown⟩
    obtain ⟨e, he, hlow, hhigh⟩ := (h.shown x).mp hshown
    by_cases hbefore : e.1 ≤ p.start
    · refine .inl (Option.isSome_iff_exists.mpr ⟨e, ?_⟩)
      exact h.holding_eq_some.mpr ⟨he, hbefore, hstart.trans_lt hhigh⟩
    · refine .inr ?_
      cases hafter : RunMap.after p.start m.runs with
      | none => exact absurd (RunMap.after_eq_none_iff.mp hafter e he) (by omega)
      | some e' =>
        have hfirst := (h.runs.le_of_after hafter).2.2 e he (by omega)
        exact decide_eq_true (by omega)

end Renaming.Of

/-- After every history of mappings and unmappings, the runs are nonempty and disjoint, and they name
a list of ranges, byte by byte and in order, as the history does; it takes no more turns than a range
has bytes. A range that holds a byte is said to be shown where a byte of it lies in a run, and a range
lies in one run for the renaming as it does in the map. -/
theorem guestMappings_rename (events : List MappingEvent) (hallowed : ∀ e ∈ events, e.Allowed) :
    let m := events.foldl GuestMappings.step .new
    let r := events.foldl Renaming.step .identity
    RunMap.Runs GuestRun.stop m.runs ∧
    (∀ memory : List Pages, (∀ p ∈ memory, p.stop < 2 ^ 64) →
      ∀ fuel, (∀ p ∈ memory, p.stop - p.start ≤ fuel) →
        ∃ named, m.named fuel memory = some named ∧
          named.flatMap Pages.bytes = (memory.flatMap Pages.bytes).map r.name) ∧
    (∀ p : Pages, p.start < p.stop →
      (m.shows p = true ↔ ∃ x ∈ p, ∃ e ∈ m.runs, e.1 ≤ x ∧ x < e.2.stop)) ∧
    ∀ first stop, first < stop →
      (r.OneRun first stop ↔ ∃ e ∈ m.runs, e.1 ≤ first ∧ stop ≤ e.2.stop) := by
  have h := Renaming.Of.new.foldl hallowed
  refine ⟨h.runs, fun memory hmemory fuel hfuel => h.named_spec hmemory hfuel, fun p hp => ?_,
    fun first stop hlt => h.oneRun_iff hlt⟩
  rw [h.shows_iff hp]
  exact exists_congr fun x => and_congr_right fun _ => h.shown x

/-- A mapping, part of it unmapped, and a mapping of the mapping. -/
theorem guestMappings_rename_three :
    let m : GuestMappings := ⟨[(0x10, ⟨0x12, 0x90⟩), (0x14, ⟨0x18, 0x94⟩), (0x20, ⟨0x21, 0x91⟩)]⟩
    [MappingEvent.mapped 0x10 0x18 0x90, .unmapped 0x12 0x14, .mapped 0x20 0x21 0x11].foldl
        GuestMappings.step .new = m ∧
      RunMap.Runs GuestRun.stop m.runs := by
  have hrun := (guestMappings_rename
    [.mapped 0x10 0x18 0x90, .unmapped 0x12 0x14, .mapped 0x20 0x21 0x11] (by
      simp [MappingEvent.Allowed])).1
  have hfinal : [MappingEvent.mapped 0x10 0x18 0x90, .unmapped 0x12 0x14,
      .mapped 0x20 0x21 0x11].foldl GuestMappings.step .new =
      ⟨[(0x10, ⟨0x12, 0x90⟩), (0x14, ⟨0x18, 0x94⟩), (0x20, ⟨0x21, 0x91⟩)]⟩ := by decide
  exact ⟨hfinal, hfinal ▸ hrun⟩

/-- A range of no byte is said to be shown where its start lies in a run. -/
theorem emptyRange_shown :
    ¬∀ events : List MappingEvent, (∀ e ∈ events, e.Allowed) →
      let m := events.foldl GuestMappings.step .new
      ∀ p : Pages, m.shows p = true ↔ ∃ x ∈ p, ∃ e ∈ m.runs, e.1 ≤ x ∧ x < e.2.stop := by
  intro h
  have hshown : (GuestMappings.new.step (.mapped 0x10 0x18 0x90)).shows ⟨0x11, 0x11⟩ = true := by
    decide
  have hallowed : ∀ e ∈ [MappingEvent.mapped 0x10 0x18 0x90], e.Allowed := by
    simp [MappingEvent.Allowed]
  obtain ⟨x, ⟨hle, hlt⟩, -⟩ := (h [.mapped 0x10 0x18 0x90] hallowed ⟨0x11, 0x11⟩).mp hshown
  exact absurd hlt hle.not_gt

end ReimsVgpu.Remap
