import Mathlib.Algebra.Order.Group.Nat
import Mathlib.Order.Bounds.Basic
import ReimsVgpu.Gpu.MetalSpace

/-!
# Where ranges of Metal's space lie

One placement and one pin in a space whose held runs are disjoint: the scan for a gap finds the lowest
aligned start whose span is free, and a pin is refused for a held byte exactly where its span has
one.

## Main definitions

* `Free`: a span that no held run meets.
* `plainBytes`, `FitsAt`: the span of a plain range, and the starts where it fits.
* `pinFirst`, `pinStop`, `pinSpanEnd`: the span of a pin.

## Main results

* `MetalSpace.Wf.place_eq_none_iff`, `MetalSpace.Wf.place_eq_some`: a placement's answer.
* `MetalSpace.Wf.pin_outside_iff`, `MetalSpace.Wf.pin_offGranule_iff`, `MetalSpace.Wf.pin_held_iff`,
  `MetalSpace.Wf.pin_eq_ok`: a pin's answer.
-/

namespace ReimsVgpu.Gpu

/-! ### Numbers -/

theorem checked_of_lt {n : ℕ} (h : n < 2 ^ 64) : checked n = some n := if_pos h

theorem checked_of_le {n : ℕ} (h : 2 ^ 64 ≤ n) : checked n = none := if_neg h.not_gt

theorem checked_eq_some {n m : ℕ} : checked n = some m ↔ n < 2 ^ 64 ∧ n = m := by
  rw [checked, Option.ite_none_right_eq_some, Option.some_inj]

theorem le_nextMultipleOf {k : ℕ} (hk : 0 < k) (n : ℕ) : n ≤ nextMultipleOf n k := by
  have hdiv := Nat.div_add_mod (n + (k - 1)) k
  have hmod := Nat.mod_lt (n + (k - 1)) hk
  rw [nextMultipleOf, Nat.mul_comm]
  omega

theorem nextMultipleOf_mod (n k : ℕ) : nextMultipleOf n k % k = 0 := Nat.mul_mod_left _ _

/-- The least multiple: any other one that is not below the number is not below it. -/
theorem nextMultipleOf_le {n m k : ℕ} (hk : 0 < k) (hm : m % k = 0) (h : n ≤ m) :
    nextMultipleOf n k ≤ m := by
  obtain ⟨q, rfl⟩ := Nat.dvd_of_mod_eq_zero hm
  rw [nextMultipleOf, Nat.mul_comm]
  refine Nat.mul_le_mul_left k ((Nat.div_le_iff_le_mul_add_pred hk).mpr ?_)
  omega

theorem slotSize_pos : 0 < slotSize := by decide

theorem page_pos : 0 < page := by decide

/-! ### The scan for a gap -/

/-- A span that no held run meets. -/
def Free (held : List (ℕ × ℕ)) (start span : ℕ) : Prop :=
  ∀ e ∈ held, e.2 ≤ start ∨ start + span ≤ e.1

theorem free_cons_iff {e : ℕ × ℕ} {held : List (ℕ × ℕ)} {start span : ℕ} :
    Free (e :: held) start span ↔
      (e.2 ≤ start ∨ start + span ≤ e.1) ∧ Free held start span :=
  List.forall_mem_cons

/-- A start that the scan finds is aligned and free, and the lowest such one. -/
theorem gapFrom_eq_some {span : ℕ} {held : List (ℕ × ℕ)}
    (hr : RunMap.Runs id held) {low a : ℕ} (hlow : low % slotSize = 0)
    (h : gapFrom span low held = some a) :
    (a % slotSize = 0 ∧ low ≤ a ∧ Free held a span) ∧
      ∀ b, b % slotSize = 0 → low ≤ b → Free held b span → a ≤ b := by
  induction held generalizing low with
  | nil =>
    obtain rfl := Option.some.inj h
    exact ⟨⟨hlow, Nat.le_refl _, fun _ he => absurd he List.not_mem_nil⟩, fun _ _ hb _ => hb⟩
  | cons e held ih =>
    obtain ⟨hlt, hrest, hsep⟩ := RunMap.runs_cons_iff.mp hr
    rw [id_eq] at hlt hsep
    rw [gapFrom] at h
    simp only [free_cons_iff]
    by_cases hpassed : e.2 ≤ low
    · rw [if_pos hpassed] at h
      obtain ⟨⟨ha, hla, hfree⟩, hleast⟩ := ih hrest hlow h
      exact ⟨⟨ha, hla, .inl (hpassed.trans hla), hfree⟩,
        fun b hb hlb hbfree => hleast b hb hlb hbfree.2⟩
    · rw [if_neg hpassed] at h
      obtain ⟨high, hhigh, h⟩ := Option.bind_eq_some_iff.mp h
      obtain ⟨-, rfl⟩ := checked_eq_some.mp hhigh
      by_cases hgap : low + span ≤ e.1
      · rw [if_pos hgap] at h
        obtain rfl := Option.some.inj h
        refine ⟨⟨hlow, Nat.le_refl _, .inr hgap, fun e' he' => .inr ?_⟩, fun _ _ hb _ => hb⟩
        exact hgap.trans (hlt.le.trans (hsep e' he'))
      · rw [if_neg hgap] at h
        obtain ⟨next, hnext, h⟩ := Option.bind_eq_some_iff.mp h
        obtain ⟨-, rfl⟩ := checked_eq_some.mp hnext
        have hpast := le_nextMultipleOf slotSize_pos e.2
        obtain ⟨⟨ha, hla, hfree⟩, hleast⟩ := ih hrest (nextMultipleOf_mod e.2 slotSize) h
        refine ⟨⟨ha, ?_, .inl (hpast.trans hla), hfree⟩, fun b hb hlb hbfree => ?_⟩
        · omega
        · have hpastb : e.2 ≤ b := hbfree.1.resolve_right (by omega)
          exact hleast b hb (nextMultipleOf_le slotSize_pos hb hpastb) hbfree.2

/-- Where the scan finds no start, no span that fits into 64 bits is free. -/
theorem gapFrom_eq_none {span : ℕ} {held : List (ℕ × ℕ)} (hr : RunMap.Runs id held) {low : ℕ}
    (h : gapFrom span low held = none) {b : ℕ} (hb : b % slotSize = 0) (hlb : low ≤ b)
    (hfree : Free held b span) : 2 ^ 64 ≤ b + span := by
  induction held generalizing low with
  | nil => cases h
  | cons e held ih =>
    obtain ⟨hlt, hrest, -⟩ := RunMap.runs_cons_iff.mp hr
    rw [id_eq] at hlt
    rw [gapFrom] at h
    obtain ⟨hhead, hfree⟩ := free_cons_iff.mp hfree
    by_cases hpassed : e.2 ≤ low
    · rw [if_pos hpassed] at h
      exact ih hrest h hlb hfree
    · rw [if_neg hpassed] at h
      by_cases hhigh : 2 ^ 64 ≤ low + span
      · omega
      · rw [checked_of_lt (not_le.mp hhigh), Option.bind_some] at h
        by_cases hgap : low + span ≤ e.1
        · rw [if_pos hgap] at h
          cases h
        · rw [if_neg hgap] at h
          have hpastb : e.2 ≤ b := hhead.resolve_right (by omega)
          have hnextb := nextMultipleOf_le slotSize_pos hb hpastb
          by_cases hnext : 2 ^ 64 ≤ nextMultipleOf e.2 slotSize
          · omega
          · rw [checkedNextMultipleOf, checked_of_lt (not_le.mp hnext), Option.bind_some] at h
            exact ih hrest h hnextb hfree

/-! ### Plain ranges -/

/-- The bytes of pages of a plain range. -/
def plainBytes (length : ℕ) : ℕ := nextMultipleOf (max length 1) page

/-- The whole span of a plain range. -/
def plainLength (length : ℕ) : ℕ := nextMultipleOf (plainBytes length + page) slotSize

theorem plainBytes_add_page_le (length : ℕ) : plainBytes length + page ≤ plainLength length :=
  le_nextMultipleOf slotSize_pos _

theorem plainLength_pos (length : ℕ) : 0 < plainLength length :=
  page_pos.trans_le ((Nat.le_add_left _ _).trans (plainBytes_add_page_le length))

theorem plainSpan_of_lt {length : ℕ} (h : plainLength length < 2 ^ 64) :
    plainSpan length = some (plainBytes length, plainLength length) := by
  have hguarded := (plainBytes_add_page_le length).trans_lt h
  have hpages := (Nat.le_add_right (plainBytes length) page).trans_lt hguarded
  rw [plainSpan, checkedNextMultipleOf, ← plainBytes, checked_of_lt hpages, Option.bind_some,
    checked_of_lt hguarded, Option.bind_some, checkedNextMultipleOf, ← plainLength,
    checked_of_lt h, Option.map_some]

theorem plainSpan_of_le {length : ℕ} (h : 2 ^ 64 ≤ plainLength length) :
    plainSpan length = none := by
  rw [plainSpan, checkedNextMultipleOf, ← plainBytes]
  by_cases hpages : 2 ^ 64 ≤ plainBytes length
  · rw [checked_of_le hpages, Option.bind_none]
  · rw [checked_of_lt (not_le.mp hpages), Option.bind_some]
    by_cases hguarded : 2 ^ 64 ≤ plainBytes length + page
    · rw [checked_of_le hguarded, Option.bind_none]
    · rw [checked_of_lt (not_le.mp hguarded), Option.bind_some, checkedNextMultipleOf,
        ← plainLength, checked_of_le h, Option.map_none]

/-- The starts where a plain range fits: aligned, in the space, its whole span free. -/
structure FitsAt (held : List (ℕ × ℕ)) (length a : ℕ) : Prop where
  aligned : a % slotSize = 0
  base_le : base ≤ a
  le_end : a + plainLength length ≤ spaceEnd
  free : Free held a (plainLength length)

namespace MetalSpace

/-- The held runs are disjoint, and there are none before the device's heap. -/
structure Wf (s : MetalSpace) : Prop where
  runs : RunMap.Runs id s.held
  device : s.device = false → s.held = []

theorem Wf.lowestGap_eq_some {s : MetalSpace} (hs : s.Wf) {length a : ℕ}
    (h : s.lowestGap (plainLength length) = some a) :
    FitsAt s.held length a ∧ ∀ b, FitsAt s.held length b → a ≤ b := by
  obtain ⟨low, hgap, h⟩ := Option.bind_eq_some_iff.mp h
  obtain ⟨high, hhigh, h⟩ := Option.bind_eq_some_iff.mp h
  obtain ⟨-, rfl⟩ := checked_eq_some.mp hhigh
  obtain ⟨hend, h⟩ := Option.ite_none_right_eq_some.mp h
  obtain rfl := Option.some.inj h
  obtain ⟨⟨ha, hbase, hfree⟩, hleast⟩ :=
    gapFrom_eq_some hs.runs (by decide) hgap
  exact ⟨⟨ha, hbase, hend, hfree⟩, fun b hb => hleast b hb.aligned hb.base_le hb.free⟩

theorem Wf.lowestGap_eq_none {s : MetalSpace} (hs : s.Wf) {length : ℕ}
    (h : s.lowestGap (plainLength length) = none) (b : ℕ) : ¬FitsAt s.held length b := by
  intro hb
  have hlt : b + plainLength length < 2 ^ 64 := hb.le_end.trans_lt (by decide)
  rw [lowestGap] at h
  cases hgap : gapFrom (plainLength length) base s.held with
  | none =>
    exact absurd hlt (gapFrom_eq_none hs.runs hgap hb.aligned hb.base_le hb.free).not_gt
  | some low =>
    obtain ⟨-, hleast⟩ := gapFrom_eq_some hs.runs (by decide) hgap
    have hle := hleast b hb.aligned hb.base_le hb.free
    have hend := hb.le_end
    rw [hgap, Option.bind_some, checked_of_lt (by omega), Option.bind_some, if_pos (by omega)] at h
    cases h

theorem Wf.makeDevice {s : MetalSpace} (hs : s.Wf) : s.makeDevice.Wf := by
  rw [MetalSpace.makeDevice]
  split_ifs with hdevice
  · exact hs
  · refine ⟨?_, fun h => Bool.noConfusion h⟩
    rw [hs.device (Bool.eq_false_iff.mpr hdevice)]
    exact RunMap.runs_nil.insert (fun _ he => absurd he List.not_mem_nil) (by decide)

theorem Wf.insert {s : MetalSpace} (hs : s.Wf) {start stop : ℕ} (hlt : start < stop)
    (hfree : ∀ e ∈ s.held, e.2 ≤ start ∨ stop ≤ e.1) (hdevice : s.device = true) :
    Wf { s with held := RunMap.insert start stop s.held } where
  runs := hs.runs.insert hfree hlt
  device h := Bool.noConfusion (hdevice.symm.trans h)

theorem device_makeDevice (s : MetalSpace) : s.makeDevice.device = true := by
  rw [MetalSpace.makeDevice]
  split_ifs with hdevice
  · exact hdevice
  · rfl

/-- The plain range of some bytes at a start. -/
def plainHeld (length a : ℕ) : Held where
  address := a
  pages := ⟨a, a + plainBytes length⟩
  guard := ⟨a + plainBytes length, a + plainLength length⟩
  pinned := false

theorem place_eq {s : MetalSpace} {length pages span start stop pagesEnd : ℕ}
    (hspan : plainSpan length = some (pages, span))
    (hgap : s.makeDevice.lowestGap span = some start) (hstop : checked (start + span) = some stop)
    (hpages : checked (start + pages) = some pagesEnd) :
    s.place length = (some ⟨start, ⟨start, pagesEnd⟩, ⟨pagesEnd, stop⟩, false⟩,
      { s.makeDevice with held := RunMap.insert start stop s.makeDevice.held }) := by
  rw [place, hspan]
  dsimp only
  rw [hgap]
  dsimp only
  rw [hstop]
  dsimp only
  rw [hpages]

/-- A placement finds the lowest start that fits. -/
theorem Wf.place_of_fits {s : MetalSpace} (hs : s.Wf) {length b : ℕ}
    (hb : FitsAt s.makeDevice.held length b) :
    ∃ a, FitsAt s.makeDevice.held length a ∧ (∀ b, FitsAt s.makeDevice.held length b → a ≤ b) ∧
      s.place length = (some (plainHeld length a),
        { s.makeDevice with
          held := RunMap.insert a (a + plainLength length) s.makeDevice.held }) := by
  have hlt : plainLength length < 2 ^ 64 :=
    ((Nat.le_add_left _ _).trans hb.le_end).trans_lt (by decide)
  cases hgap : s.makeDevice.lowestGap (plainLength length) with
  | none => exact absurd hb (hs.makeDevice.lowestGap_eq_none hgap b)
  | some a =>
    obtain ⟨hfits, hleast⟩ := hs.makeDevice.lowestGap_eq_some hgap
    have hstop : a + plainLength length < 2 ^ 64 := hfits.le_end.trans_lt (by decide)
    have hbytes : a + plainBytes length ≤ a + plainLength length :=
      Nat.add_le_add_left ((Nat.le_add_right _ _).trans (plainBytes_add_page_le length)) a
    exact ⟨a, hfits, hleast, place_eq (plainSpan_of_lt hlt) hgap (checked_of_lt hstop)
      (checked_of_lt (hbytes.trans_lt hstop))⟩

theorem Wf.place_of_not_fits {s : MetalSpace} (hs : s.Wf) {length : ℕ}
    (h : ∀ a, ¬FitsAt s.makeDevice.held length a) : s.place length = (none, s.makeDevice) := by
  rw [place]
  by_cases hlt : plainLength length < 2 ^ 64
  · rw [plainSpan_of_lt hlt]
    cases hgap : s.makeDevice.lowestGap (plainLength length) with
    | none => simp only [hgap]
    | some a => exact absurd (hs.makeDevice.lowestGap_eq_some hgap).1 (h a)
  · rw [plainSpan_of_le (not_lt.mp hlt)]

theorem Wf.place_eq_none_iff {s : MetalSpace} (hs : s.Wf) (length : ℕ) :
    (s.place length).1 = none ↔ ¬∃ a, FitsAt s.makeDevice.held length a := by
  constructor
  · rintro h ⟨b, hb⟩
    obtain ⟨a, -, -, hplace⟩ := hs.place_of_fits hb
    rw [hplace] at h
    cases h
  · intro h
    rw [hs.place_of_not_fits (not_exists.mp h)]

theorem Wf.place_eq_some {s : MetalSpace} (hs : s.Wf) {length : ℕ} {held : Held}
    (h : (s.place length).1 = some held) :
    ∃ a, held = plainHeld length a ∧ FitsAt s.makeDevice.held length a ∧
      (∀ b, FitsAt s.makeDevice.held length b → a ≤ b) ∧
      (s.place length).2 =
        { s.makeDevice with
          held := RunMap.insert a (a + plainLength length) s.makeDevice.held } := by
  by_cases hfits : ∃ b, FitsAt s.makeDevice.held length b
  · obtain ⟨b, hb⟩ := hfits
    obtain ⟨a, ha, hleast, hplace⟩ := hs.place_of_fits hb
    rw [hplace] at h ⊢
    exact ⟨a, (Option.some.inj h).symm, ha, hleast, rfl⟩
  · rw [(hs.place_eq_none_iff length).mpr hfits] at h
    cases h

/-! ### Pins -/

/-- The first byte of a pin's first page. -/
def pinFirst (address : ℕ) : ℕ := address - address % page

/-- The end of a pin's last page. -/
def pinStop (address length : ℕ) : ℕ := nextMultipleOf (address + max length 1) page

/-- The end of the span of a pin: from its first page, that of a plain range of its pages. -/
def pinSpanEnd (address length : ℕ) : ℕ :=
  pinFirst address + plainLength (pinStop address length - pinFirst address)

/-- A pin in the 64-bit space. -/
def PinInside (address length : ℕ) : Prop :=
  pinStop address length < 2 ^ 64 ∧ pinSpanEnd address length < 2 ^ 64

/-- The span of a pin. -/
def pinSpan (address length : ℕ) : Range := ⟨pinFirst address, pinSpanEnd address length⟩

/-- A pin's bytes. -/
def pinHeld (address length : ℕ) : Held where
  address
  pages := ⟨pinFirst address, pinStop address length⟩
  guard := ⟨pinStop address length, pinSpanEnd address length⟩
  pinned := true

theorem pinFirst_lt_pinSpanEnd (address length : ℕ) :
    pinFirst address < pinSpanEnd address length :=
  Nat.lt_add_of_pos_right (plainLength_pos _)

/-- The first held byte of a range that no run meets. -/
theorem Wf.firstHeld_eq_none_iff {s : MetalSpace} (hs : s.Wf) {range : Range} :
    s.firstHeld range = none ↔ ∀ e ∈ s.held, e.2 ≤ range.start ∨ range.stop ≤ e.1 := by
  rw [firstHeld, hs.runs.meeting_eq, Option.map_eq_none_iff, List.getLast?_reverse,
    List.head?_eq_none_iff, List.filter_eq_nil_iff]
  refine forall₂_congr fun e _ => ?_
  rw [decide_eq_true_eq, id_eq, not_and_or, not_lt, not_lt]
  exact or_comm

/-- The first held byte of a range is its lowest. -/
theorem Wf.firstHeld_eq_some {s : MetalSpace} (hs : s.Wf) {range : Range}
    (hrange : range.start < range.stop) {x : ℕ} (h : s.firstHeld range = some x) :
    IsLeast {y | range.start ≤ y ∧ y < range.stop ∧ ∃ e ∈ s.held, e.1 ≤ y ∧ y < e.2} x := by
  rw [firstHeld, hs.runs.meeting_eq, List.getLast?_reverse] at h
  obtain ⟨e, hhead, rfl⟩ := Option.map_eq_some_iff.mp h
  obtain ⟨rest, hfilter⟩ := List.head?_eq_some_iff.mp hhead
  have hmem : e ∈ s.held.filter fun e => decide (e.1 < range.stop ∧ range.start < id e.2) :=
    hfilter ▸ List.mem_cons_self
  obtain ⟨he, hmeets⟩ := List.mem_filter.mp hmem
  rw [decide_eq_true_eq, id_eq] at hmeets
  have hlt : e.1 < e.2 := hs.runs.lt e he
  refine ⟨⟨le_max_right _ _, max_lt hmeets.1 hrange, e, he, le_max_left _ _,
    max_lt hlt hmeets.2⟩, ?_⟩
  rintro y ⟨hstart, hstop, e', he', hey, hye⟩
  refine max_le ?_ hstart
  have hmem' : e' ∈ e :: rest := by
    rw [← hfilter]
    refine List.mem_filter.mpr ⟨he', decide_eq_true ⟨hey.trans_lt hstop, hstart.trans_lt hye⟩⟩
  rcases List.mem_cons.mp hmem' with rfl | hrest
  · exact hey
  · have hsep := hs.runs.sep.sublist (hfilter ▸ List.filter_sublist)
    exact hlt.le.trans (((List.pairwise_cons.mp hsep).1 e' hrest).trans hey)

theorem checked_pinStop_of_lt {address length : ℕ} (h : pinStop address length < 2 ^ 64) :
    ((checked (address + max length 1)).bind fun stop => checkedNextMultipleOf stop page) =
      some (pinStop address length) := by
  rw [checked_of_lt ((le_nextMultipleOf page_pos _).trans_lt h), Option.bind_some,
    checkedNextMultipleOf]
  exact checked_of_lt h

theorem checked_pinStop_of_le {address length : ℕ} (h : 2 ^ 64 ≤ pinStop address length) :
    ((checked (address + max length 1)).bind fun stop => checkedNextMultipleOf stop page) =
      none := by
  by_cases hlt : address + max length 1 < 2 ^ 64
  · rw [checked_of_lt hlt, Option.bind_some, checkedNextMultipleOf]
    exact checked_of_le h
  · rw [checked_of_le (not_lt.mp hlt), Option.bind_none]

theorem checked_pinSpanEnd_of_lt {address length : ℕ} (h : pinSpanEnd address length < 2 ^ 64) :
    ((plainSpan (pinStop address length - pinFirst address)).bind fun x =>
      checked (pinFirst address + x.2)) = some (pinSpanEnd address length) := by
  rw [plainSpan_of_lt ((Nat.le_add_left _ _).trans_lt h), Option.bind_some]
  exact checked_of_lt h

theorem checked_pinSpanEnd_of_le {address length : ℕ} (h : 2 ^ 64 ≤ pinSpanEnd address length) :
    ((plainSpan (pinStop address length - pinFirst address)).bind fun x =>
      checked (pinFirst address + x.2)) = none := by
  by_cases hlt : plainLength (pinStop address length - pinFirst address) < 2 ^ 64
  · rw [plainSpan_of_lt hlt, Option.bind_some]
    exact checked_of_le h
  · rw [plainSpan_of_le (not_lt.mp hlt), Option.bind_none]

theorem pin_of_not_inside (s : MetalSpace) {address length : ℕ} (h : ¬PinInside address length) :
    s.pin address length = (.error .outside, s.makeDevice) := by
  rw [pin]
  by_cases hstop : pinStop address length < 2 ^ 64
  · have hend : 2 ^ 64 ≤ pinSpanEnd address length :=
      not_lt.mp fun hend => h ⟨hstop, hend⟩
    have hchecked := checked_pinSpanEnd_of_le hend
    rw [pinFirst] at hchecked
    rw [checked_pinStop_of_lt hstop]
    -- the span stays closed, and only its answer is looked at
    obtain ⟨spanOf, hspanOf⟩ : ∃ f, f = plainSpan := ⟨_, rfl⟩
    rw [← hspanOf] at hchecked ⊢
    dsimp only
    rw [hchecked]
  · rw [checked_pinStop_of_le (not_lt.mp hstop)]

/-- A pin in the 64-bit space. -/
theorem pin_of_inside (s : MetalSpace) {address length : ℕ} (h : PinInside address length) :
    s.pin address length =
      if pinFirst address % slotSize ≠ 0 then
        (.error (.offGranule (pinSpan address length)), s.makeDevice)
      else match s.makeDevice.firstHeld (pinSpan address length) with
        | some held => (.error (.held (pinSpan address length) held), s.makeDevice)
        | none => (.ok (pinHeld address length),
            { s.makeDevice with
              held := RunMap.insert (pinFirst address) (pinSpanEnd address length)
                s.makeDevice.held }) := by
  have hchecked := checked_pinSpanEnd_of_lt h.2
  rw [pinFirst] at hchecked
  rw [pin, checked_pinStop_of_lt h.1]
  obtain ⟨spanOf, hspanOf⟩ : ∃ f, f = plainSpan := ⟨_, rfl⟩
  obtain ⟨firstOf, hfirstOf⟩ : ∃ f, f = MetalSpace.firstHeld := ⟨_, rfl⟩
  rw [← hspanOf] at hchecked ⊢
  rw [← hfirstOf]
  dsimp only
  rw [hchecked]
  rfl

/-- Why a pin is refused. -/
theorem Wf.pin_eq_error {s : MetalSpace} (hs : s.Wf) {address length : ℕ} {e : PinRefused}
    (h : (s.pin address length).1 = .error e) :
    (s.pin address length).2 = s.makeDevice ∧
      (e = .outside ∧ ¬PinInside address length ∨
        e = .offGranule (pinSpan address length) ∧ PinInside address length ∧
          pinFirst address % slotSize ≠ 0 ∨
        ∃ x, e = .held (pinSpan address length) x ∧ PinInside address length ∧
          pinFirst address % slotSize = 0 ∧
          IsLeast {y | pinFirst address ≤ y ∧ y < pinSpanEnd address length ∧
            ∃ e ∈ s.makeDevice.held, e.1 ≤ y ∧ y < e.2} x) := by
  by_cases hinside : PinInside address length
  · rw [s.pin_of_inside hinside] at h ⊢
    by_cases hgranule : pinFirst address % slotSize ≠ 0
    · rw [if_pos hgranule] at h ⊢
      exact ⟨rfl, .inr (.inl ⟨(Except.error.inj h).symm, hinside, hgranule⟩)⟩
    · rw [if_neg hgranule] at h ⊢
      cases hheld : s.makeDevice.firstHeld (pinSpan address length) with
      | none =>
        rw [hheld] at h
        cases h
      | some x =>
        rw [hheld] at h
        refine ⟨rfl, .inr (.inr ⟨x, (Except.error.inj h).symm, hinside, not_not.mp hgranule, ?_⟩)⟩
        exact hs.makeDevice.firstHeld_eq_some (pinFirst_lt_pinSpanEnd address length) hheld
  · rw [s.pin_of_not_inside hinside] at h ⊢
    exact ⟨rfl, .inl ⟨(Except.error.inj h).symm, hinside⟩⟩

/-- A pin that is made. -/
theorem Wf.pin_eq_ok {s : MetalSpace} (hs : s.Wf) {address length : ℕ} {held : Held}
    (h : (s.pin address length).1 = .ok held) :
    held = pinHeld address length ∧ PinInside address length ∧
      pinFirst address % slotSize = 0 ∧
      (∀ e ∈ s.makeDevice.held, e.2 ≤ pinFirst address ∨ pinSpanEnd address length ≤ e.1) ∧
      (s.pin address length).2 =
        { s.makeDevice with
          held := RunMap.insert (pinFirst address) (pinSpanEnd address length)
            s.makeDevice.held } := by
  by_cases hinside : PinInside address length
  · rw [s.pin_of_inside hinside] at h ⊢
    by_cases hgranule : pinFirst address % slotSize ≠ 0
    · rw [if_pos hgranule] at h
      cases h
    · rw [if_neg hgranule] at h ⊢
      cases hheld : s.makeDevice.firstHeld (pinSpan address length) with
      | none =>
        rw [hheld] at h
        exact ⟨(Except.ok.inj h).symm, hinside, not_not.mp hgranule,
          hs.makeDevice.firstHeld_eq_none_iff.mp hheld, rfl⟩
      | some x =>
        rw [hheld] at h
        cases h
  · rw [s.pin_of_not_inside hinside] at h
    cases h

end MetalSpace

end ReimsVgpu.Gpu
