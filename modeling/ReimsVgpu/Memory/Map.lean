import ReimsVgpu.Memory.PageRuns
import Mathlib.Data.List.Sort

/-!
# The memory map

The host describes guest physical memory as a list of ranges. The map is made from it once: an end
is added to each range, the ranges are sorted by start and then length, and each is compared with
the one before it. What holds of neighbours then holds of every two, so an address lies in at most
one range, and lookups do not depend on the order of the description.

## Main definitions

* `MemoryMap.accept`: the map's ranges, where the description is accepted.
* `MemoryMap`: a map, its ranges those of an accepted description.
* `Overlap`: two described ranges overlap.

## Main results

* `MemoryMap.ordered`: the ranges of a map lie one after the other.
* `MemoryMap.memoryMap_accepts`: which descriptions are accepted, and what lookups answer.
-/

namespace ReimsVgpu.Memory

/-- `u64::checked_add`. -/
def checkedAdd (a b : UInt64) : Option UInt64 :=
  if a.toNat + b.toNat < 2 ^ 64 then some (a + b) else none

theorem toNat_of_checkedAdd {a b c : UInt64} (h : checkedAdd a b = some c) :
    c.toNat = a.toNat + b.toNat := by
  rw [checkedAdd] at h
  split_ifs at h with hlt
  obtain rfl := Option.some.inj h
  rw [UInt64.toNat_add, Nat.mod_eq_of_lt hlt]

theorem checkedAdd_isSome {a b : UInt64} (h : a.toNat + b.toNat < 2 ^ 64) :
    checkedAdd a b = some (a + b) := if_pos h

/-- One range of guest physical memory, as the host describes it. -/
structure GuestPhysicalRange where
  physicalAddress : UInt64
  physicalLength : UInt64
  hostAddress : UInt64
  deriving DecidableEq, Repr

/-- One past a described range's last address, as a number. -/
def GuestPhysicalRange.stop (d : GuestPhysicalRange) : ℕ :=
  d.physicalAddress.toNat + d.physicalLength.toNat

/-- One range of the map. -/
structure MemoryMapRange extends MapRange where
  physicalLength : UInt64

namespace MemoryMap

/-- A range with its end; an end past `u64` refuses the map. -/
def withEnd (d : GuestPhysicalRange) : Option MemoryMapRange := do
  let stop ← checkedAdd d.physicalAddress d.physicalLength
  some
    { physicalAddress := d.physicalAddress
      physicalEnd := stop
      physicalLength := d.physicalLength
      virtualAddress := d.hostAddress }

/-- By start, then length. -/
def SortsBefore (r s : MemoryMapRange) : Prop :=
  r.physicalAddress < s.physicalAddress ∨
    r.physicalAddress = s.physicalAddress ∧ r.physicalLength ≤ s.physicalLength

instance : DecidableRel SortsBefore := fun _ _ => inferInstanceAs (Decidable (_ ∨ _ ∧ _))

/-- Each range is compared with the end of the one before. -/
def valid : UInt64 → List MemoryMapRange → Bool
  | _, [] => true
  | stop, r :: rest =>
    if r.physicalAddress < stop then false
    else
      match checkedAdd r.physicalAddress r.physicalLength with
      | some stop => valid stop rest
      | none => false

/-- The map's ranges, sorted; `none` refuses the description. -/
def accept (descriptor : List GuestPhysicalRange) : Option (List MemoryMapRange) := do
  let ranges ← descriptor.mapM withEnd
  let ranges := ranges.insertionSort SortsBefore
  if valid 0 ranges then some ranges else none

end MemoryMap

/-- A memory map. -/
structure MemoryMap where
  ranges : List MemoryMapRange
  accepted : ∃ descriptor, MemoryMap.accept descriptor = some ranges

/-- `MemoryMap::new`. -/
def MemoryMap.new (descriptor : List GuestPhysicalRange) : Option MemoryMap :=
  match h : MemoryMap.accept descriptor with
  | some ranges => some ⟨ranges, descriptor, h⟩
  | none => none

/-- `virtual_address_for_physical`. -/
def MemoryMap.virtualAddressForPhysical (m : MemoryMap) (physical length : UInt64) : UInt64 :=
  Memory.virtualAddressForPhysical (m.ranges.map MemoryMapRange.toMapRange) physical length

/-- Two described ranges overlap: each starts before the other's end. -/
def Overlap (d e : GuestPhysicalRange) : Prop :=
  d.physicalAddress.toNat < e.stop ∧ e.physicalAddress.toNat < d.stop

/-- Some address lies in both. -/
def Intersect (d e : GuestPhysicalRange) : Prop :=
  ∃ x, (d.physicalAddress.toNat ≤ x ∧ x < d.stop) ∧ e.physicalAddress.toNat ≤ x ∧ x < e.stop

theorem Overlap.symm {d e : GuestPhysicalRange} (h : Overlap d e) : Overlap e d := ⟨h.2, h.1⟩

namespace MemoryMap

/-! ### The ranges of a description -/

/-- The map's range of a described range. -/
def Describes (d : GuestPhysicalRange) (r : MemoryMapRange) : Prop :=
  r.physicalAddress = d.physicalAddress ∧ r.physicalLength = d.physicalLength ∧
    r.virtualAddress = d.hostAddress ∧ r.physicalEnd.toNat = d.stop

theorem describes_of_withEnd {d : GuestPhysicalRange} {r : MemoryMapRange}
    (h : withEnd d = some r) : Describes d r := by
  rw [withEnd] at h
  obtain ⟨stop, hstop, h⟩ := Option.bind_eq_some_iff.mp h
  obtain rfl := Option.some.inj h
  exact ⟨rfl, rfl, rfl, toNat_of_checkedAdd hstop⟩

theorem withEnd_eq_none {d : GuestPhysicalRange} (h : 2 ^ 64 ≤ d.stop) : withEnd d = none := by
  have hadd : checkedAdd d.physicalAddress d.physicalLength = none := if_neg (Nat.not_lt.mpr h)
  rw [withEnd, hadd]
  rfl

theorem withEnd_isSome {d : GuestPhysicalRange} (h : d.stop < 2 ^ 64) :
    ∃ r, withEnd d = some r := by
  rw [withEnd, checkedAdd_isSome h]
  exact ⟨_, rfl⟩

theorem mapM_withEnd_iff {ds : List GuestPhysicalRange} :
    (∃ rs, ds.mapM withEnd = some rs) ↔ ∀ d ∈ ds, d.stop < 2 ^ 64 := by
  induction ds with
  | nil => simp
  | cons d ds ih =>
    rw [List.forall_mem_cons, ← ih]
    constructor
    · rintro ⟨rs, h⟩
      rw [List.mapM_cons] at h
      obtain ⟨r, hr, h⟩ := Option.bind_eq_some_iff.mp h
      obtain ⟨rs', hrs, -⟩ := Option.bind_eq_some_iff.mp h
      refine ⟨?_, rs', hrs⟩
      by_contra hge
      rw [withEnd_eq_none (Nat.le_of_not_lt hge)] at hr
      cases hr
    · rintro ⟨hd, rs, hrs⟩
      obtain ⟨r, hr⟩ := withEnd_isSome hd
      rw [List.mapM_cons, hr, hrs]
      exact ⟨_, rfl⟩

theorem forall₂_of_mapM {ds : List GuestPhysicalRange} {rs : List MemoryMapRange}
    (h : ds.mapM withEnd = some rs) : List.Forall₂ Describes ds rs := by
  induction ds generalizing rs with
  | nil =>
    obtain rfl := Option.some.inj h
    exact .nil
  | cons d ds ih =>
    rw [List.mapM_cons] at h
    obtain ⟨r, hr, h⟩ := Option.bind_eq_some_iff.mp h
    obtain ⟨rs', hrs, h⟩ := Option.bind_eq_some_iff.mp h
    obtain rfl := Option.some.inj h
    exact .cons (describes_of_withEnd hr) (ih hrs)

/-! ### The sort -/

instance : Std.Total SortsBefore where
  total r s := by
    simp only [SortsBefore, UInt64.lt_iff_toNat_lt, UInt64.le_iff_toNat_le, ← UInt64.toNat_inj]
    omega

instance : IsTrans MemoryMapRange SortsBefore where
  trans r s t := by
    simp only [SortsBefore, UInt64.lt_iff_toNat_lt, UInt64.le_iff_toNat_le, ← UInt64.toNat_inj]
    omega

/-- Each range's end is its start and length. -/
def Ends (rs : List MemoryMapRange) : Prop :=
  ∀ r ∈ rs, r.physicalEnd.toNat = r.physicalAddress.toNat + r.physicalLength.toNat

/-- The ranges lie one after the other. -/
def Ordered (rs : List MemoryMapRange) : Prop :=
  rs.Pairwise fun r s => r.physicalEnd.toNat ≤ s.physicalAddress.toNat

/-- Comparing neighbours compares every two. -/
theorem valid_iff {stop : UInt64} {rs : List MemoryMapRange} (hends : Ends rs) :
    valid stop rs = true ↔
      (∀ r ∈ rs, stop.toNat ≤ r.physicalAddress.toNat) ∧ Ordered rs := by
  induction rs generalizing stop with
  | nil => simp [valid, Ordered]
  | cons r rest ih =>
    have hrest : Ends rest := fun s hs => hends s (List.mem_cons_of_mem r hs)
    have hr := hends r List.mem_cons_self
    have hadd : checkedAdd r.physicalAddress r.physicalLength =
        some (r.physicalAddress + r.physicalLength) := by
      refine checkedAdd_isSome ?_
      rw [← hr]
      exact r.physicalEnd.toNat_lt
    have hstop : (r.physicalAddress + r.physicalLength).toNat = r.physicalEnd.toNat :=
      (toNat_of_checkedAdd hadd).trans hr.symm
    rw [valid, hadd, Ordered, List.pairwise_cons, List.forall_mem_cons]
    by_cases hlt : r.physicalAddress < stop
    · rw [if_pos hlt]
      rw [UInt64.lt_iff_toNat_lt] at hlt
      constructor
      · intro hfalse
        cases hfalse
      · rintro ⟨⟨hle, -⟩, -⟩
        omega
    · rw [if_neg hlt]
      rw [UInt64.lt_iff_toNat_lt] at hlt
      refine (ih hrest).trans ?_
      rw [hstop]
      constructor
      · rintro ⟨hfirst, hrest⟩
        refine ⟨⟨Nat.le_of_not_lt hlt, fun s hs => ?_⟩, hfirst, hrest⟩
        have := hfirst s hs
        omega
      · rintro ⟨-, hfirst, hrest⟩
        exact ⟨hfirst, hrest⟩

/-- Of two ranges in sorted order, the first ends where the second starts or before, or they
overlap. -/
theorem ordered_iff_of_sortsBefore {d e : GuestPhysicalRange} {r s : MemoryMapRange}
    (hr : Describes d r) (hs : Describes e s) (h : SortsBefore r s) :
    r.physicalEnd.toNat ≤ s.physicalAddress.toNat ↔ ¬ Overlap d e := by
  obtain ⟨hra, hrl, -, hre⟩ := hr
  obtain ⟨hsa, hsl, -, hse⟩ := hs
  simp only [SortsBefore, UInt64.lt_iff_toNat_lt, UInt64.le_iff_toNat_le, ← UInt64.toNat_inj] at h
  rw [hra, hsa, hrl, hsl] at h
  rw [Overlap, hre, hsa]
  rw [GuestPhysicalRange.stop, GuestPhysicalRange.stop] at *
  omega

theorem exists_of_mem_right {ds : List GuestPhysicalRange} {rs : List MemoryMapRange}
    (h : List.Forall₂ Describes ds rs) {r : MemoryMapRange} (hr : r ∈ rs) :
    ∃ d ∈ ds, Describes d r := by
  induction h with
  | nil => cases hr
  | cons hd _ ih =>
    rcases List.mem_cons.mp hr with rfl | hr
    · exact ⟨_, List.mem_cons_self, hd⟩
    · obtain ⟨d, hmem, hd⟩ := ih hr
      exact ⟨d, List.mem_cons_of_mem _ hmem, hd⟩

theorem exists_of_mem_left {ds : List GuestPhysicalRange} {rs : List MemoryMapRange}
    (h : List.Forall₂ Describes ds rs) {d : GuestPhysicalRange} (hd : d ∈ ds) :
    ∃ r ∈ rs, Describes d r := by
  induction h with
  | nil => cases hd
  | cons hr _ ih =>
    rcases List.mem_cons.mp hd with rfl | hd
    · exact ⟨_, List.mem_cons_self, hr⟩
    · obtain ⟨r, hmem, hr⟩ := ih hd
      exact ⟨r, List.mem_cons_of_mem _ hmem, hr⟩

theorem ends_of_describes {ds : List GuestPhysicalRange} {rs : List MemoryMapRange}
    (h : List.Forall₂ Describes ds rs) : Ends rs := by
  intro r hr
  obtain ⟨d, -, haddress, hlength, -, hend⟩ := exists_of_mem_right h hr
  rw [hend, haddress, hlength, GuestPhysicalRange.stop]

theorem ordered_iff {ds : List GuestPhysicalRange} {rs : List MemoryMapRange}
    (h : List.Forall₂ Describes ds rs) (hsorted : rs.Pairwise SortsBefore) :
    Ordered rs ↔ ds.Pairwise fun d e => ¬ Overlap d e := by
  induction h with
  | nil => simp [Ordered]
  | @cons d r ds rs hd hrest ih =>
    rw [List.pairwise_cons] at hsorted
    rw [Ordered, List.pairwise_cons, List.pairwise_cons]
    refine and_congr ⟨fun hfirst e he => ?_, fun hfirst s hs => ?_⟩ (ih hsorted.2)
    · obtain ⟨s, hs, hes⟩ := exists_of_mem_left hrest he
      exact (ordered_iff_of_sortsBefore hd hes (hsorted.1 s hs)).mp (hfirst s hs)
    · obtain ⟨e, he, hes⟩ := exists_of_mem_right hrest hs
      exact (ordered_iff_of_sortsBefore hd hes (hsorted.1 s hs)).mpr (hfirst e he)

/-- The sorted ranges are those of the description in some order. -/
theorem describes_sorted {ds : List GuestPhysicalRange} {rs : List MemoryMapRange}
    (h : List.Forall₂ Describes ds rs) :
    ∃ ds', ds'.Perm ds ∧ List.Forall₂ Describes ds' (rs.insertionSort SortsBefore) := by
  obtain ⟨ds', hforall, hperm⟩ :=
    List.perm_comp_forall₂ (List.perm_insertionSort SortsBefore rs) h.flip
  exact ⟨ds', hperm, hforall.flip⟩

theorem pairwise_overlap_perm {ds ds' : List GuestPhysicalRange} (h : ds'.Perm ds) :
    (ds'.Pairwise fun d e => ¬ Overlap d e) ↔ ds.Pairwise fun d e => ¬ Overlap d e :=
  h.pairwise_iff fun hno hoverlap => hno hoverlap.symm

/-- What an accepted description's ranges are. -/
theorem accept_eq_some_iff {ds : List GuestPhysicalRange} {rs : List MemoryMapRange} :
    accept ds = some rs ↔ ∃ rs', ds.mapM withEnd = some rs' ∧
      rs = rs'.insertionSort SortsBefore ∧ valid 0 rs = true := by
  rw [accept]
  constructor
  · intro h
    obtain ⟨rs', hrs, h⟩ := Option.bind_eq_some_iff.mp h
    dsimp only at h
    split_ifs at h with hvalid
    obtain rfl := Option.some.inj h
    exact ⟨rs', hrs, rfl, hvalid⟩
  · rintro ⟨rs', hrs, rfl, hvalid⟩
    rw [hrs]
    exact if_pos hvalid

/-- A description is accepted where no range's end overflows and no two ranges overlap. -/
theorem accept_isSome_iff (ds : List GuestPhysicalRange) :
    (accept ds).isSome = true ↔
      (∀ d ∈ ds, d.stop < 2 ^ 64) ∧ ds.Pairwise fun d e => ¬ Overlap d e := by
  rw [Option.isSome_iff_exists, ← mapM_withEnd_iff]
  constructor
  · rintro ⟨rs, h⟩
    obtain ⟨rs', hrs, rfl, hvalid⟩ := accept_eq_some_iff.mp h
    obtain ⟨ds', hperm, hdescribes⟩ := describes_sorted (forall₂_of_mapM hrs)
    have hordered := ((valid_iff (ends_of_describes hdescribes)).mp hvalid).2
    rw [ordered_iff hdescribes (List.pairwise_insertionSort _ rs')] at hordered
    exact ⟨⟨rs', hrs⟩, (pairwise_overlap_perm hperm).mp hordered⟩
  · rintro ⟨⟨rs', hrs⟩, hpairwise⟩
    obtain ⟨ds', hperm, hdescribes⟩ := describes_sorted (forall₂_of_mapM hrs)
    refine ⟨_, accept_eq_some_iff.mpr ⟨rs', hrs, rfl, ?_⟩⟩
    refine (valid_iff (ends_of_describes hdescribes)).mpr ⟨fun r _ => Nat.zero_le _, ?_⟩
    rw [ordered_iff hdescribes (List.pairwise_insertionSort _ rs')]
    exact (pairwise_overlap_perm hperm).mpr hpairwise

/-- The ranges of an accepted description: those described, in order. -/
theorem accepted_spec {ds : List GuestPhysicalRange} {rs : List MemoryMapRange}
    (h : accept ds = some rs) :
    Ends rs ∧ Ordered rs ∧ (∀ r ∈ rs, ∃ d ∈ ds, Describes d r) ∧ ∀ d ∈ ds, ∃ r ∈ rs, Describes d r := by
  obtain ⟨rs', hrs, rfl, hvalid⟩ := accept_eq_some_iff.mp h
  obtain ⟨ds', hperm, hdescribes⟩ := describes_sorted (forall₂_of_mapM hrs)
  have hends := ends_of_describes hdescribes
  refine ⟨hends, ((valid_iff hends).mp hvalid).2, fun r hr => ?_, fun d hd => ?_⟩
  · obtain ⟨d, hd, hdr⟩ := exists_of_mem_right hdescribes hr
    exact ⟨d, hperm.mem_iff.mp hd, hdr⟩
  · exact exists_of_mem_left hdescribes (hperm.mem_iff.mpr hd)

theorem accept_of_new {ds : List GuestPhysicalRange} {m : MemoryMap} (h : new ds = some m) :
    accept ds = some m.ranges := by
  rw [new] at h
  split at h
  · obtain rfl := Option.some.inj h
    assumption
  · cases h

theorem new_isSome (ds : List GuestPhysicalRange) : (new ds).isSome = (accept ds).isSome := by
  rw [new]
  split
  · rename_i ranges h
    exact (congrArg Option.isSome h).symm
  · rename_i h
    exact (congrArg Option.isSome h).symm

theorem new_isSome_iff (ds : List GuestPhysicalRange) :
    (new ds).isSome = true ↔
      (∀ d ∈ ds, d.stop < 2 ^ 64) ∧ ds.Pairwise fun d e => ¬ Overlap d e := by
  rw [new_isSome, accept_isSome_iff]

/-- The ranges of a map lie one after the other, each ending where its length has it. -/
theorem ordered (m : MemoryMap) : Ordered m.ranges ∧ Ends m.ranges := by
  obtain ⟨ds, h⟩ := m.accepted
  obtain ⟨hends, hordered, -⟩ := accepted_spec h
  exact ⟨hordered, hends⟩

/-! ### Lookups -/

/-- The address lies in the range. -/
def Holds (x : UInt64) (r : MapRange) : Prop := r.physicalAddress ≤ x ∧ x < r.physicalEnd

instance (x : UInt64) : DecidablePred (Holds x) := fun _ => inferInstanceAs (Decidable (_ ∧ _))

/-- At most one range holds an address. -/
theorem Ordered.holds_length_le_one {rs : List MemoryMapRange} (h : Ordered rs) (x : UInt64) :
    (rs.filter fun r => Holds x r.toMapRange).length ≤ 1 := by
  induction rs with
  | nil => exact Nat.zero_le 1
  | cons r rest ih =>
    rw [Ordered, List.pairwise_cons] at h
    rw [List.filter_cons]
    split_ifs with hr
    · have hnone : rest.filter (fun s => Holds x s.toMapRange) = [] := by
        rw [List.filter_eq_nil_iff]
        intro s hs hholds
        rw [decide_eq_true_eq] at hr hholds
        have hle := h.1 s hs
        have h₁ := UInt64.lt_iff_toNat_lt.mp hr.2
        have h₂ := UInt64.le_iff_toNat_le.mp hholds.1
        omega
      rw [hnone]
      exact le_rfl
    · exact ih h.2

/-- The lookup finds the range that holds an address. -/
theorem Ordered.find_eq {rs : List MemoryMapRange} (h : Ordered rs) {x : UInt64}
    {r : MemoryMapRange} (hr : r ∈ rs) (hx : Holds x r.toMapRange) :
    (rs.map MemoryMapRange.toMapRange).find?
      (fun r => r.physicalAddress ≤ x ∧ x < r.physicalEnd) = some r.toMapRange := by
  induction rs with
  | nil => cases hr
  | cons s rest ih =>
    rw [Ordered, List.pairwise_cons] at h
    rw [List.map_cons, List.find?_cons]
    rcases List.mem_cons.mp hr with rfl | hr
    · rw [decide_eq_true (show r.physicalAddress ≤ x ∧ x < r.physicalEnd from hx)]
    · have hs : ¬ (s.physicalAddress ≤ x ∧ x < s.physicalEnd) := by
        intro hs
        have hle := h.1 r hr
        have h₁ := UInt64.lt_iff_toNat_lt.mp hs.2
        have h₂ := UInt64.le_iff_toNat_le.mp hx.1
        omega
      rw [decide_eq_false hs]
      exact ih h.2 hr

theorem find_eq_none {rs : List MemoryMapRange} {x : UInt64}
    (h : ∀ r ∈ rs, ¬ Holds x r.toMapRange) :
    (rs.map MemoryMapRange.toMapRange).find?
      (fun r => r.physicalAddress ≤ x ∧ x < r.physicalEnd) = none := by
  rw [List.find?_eq_none]
  intro m hm
  obtain ⟨r, hr, rfl⟩ := List.mem_map.mp hm
  exact fun hx => h r hr (of_decide_eq_true hx)

/-- `length` bytes from an address lie in a described range. -/
def Inside (d : GuestPhysicalRange) (physical length : UInt64) : Prop :=
  d.physicalAddress.toNat ≤ physical.toNat ∧ physical.toNat < d.stop ∧
    physical.toNat + length.toNat ≤ d.stop

theorem holds_iff_of_describes {d : GuestPhysicalRange} {r : MemoryMapRange} (h : Describes d r)
    (x : UInt64) :
    Holds x r.toMapRange ↔ d.physicalAddress.toNat ≤ x.toNat ∧ x.toNat < d.stop := by
  rw [Holds, UInt64.le_iff_toNat_le, UInt64.lt_iff_toNat_lt, h.1, h.2.2.2]

/-- A lookup inside a described range answers its host address. -/
theorem lookup_of_inside {ds : List GuestPhysicalRange} {m : MemoryMap}
    (h : new ds = some m) {d : GuestPhysicalRange} (hd : d ∈ ds) {physical length : UInt64}
    (hin : Inside d physical length) :
    m.virtualAddressForPhysical physical length =
      physical - d.physicalAddress + d.hostAddress := by
  obtain ⟨-, hordered, -, hleft⟩ := accepted_spec (accept_of_new h)
  obtain ⟨r, hr, hdr⟩ := hleft d hd
  have hend := hdr.2.2.2
  have hlt := r.physicalEnd.toNat_lt
  have hsum : physical.toNat + length.toNat < 2 ^ 64 := by
    have := hin.2.2
    omega
  have hpast : ¬ physical + length > r.physicalEnd := by
    rw [gt_iff_lt, UInt64.lt_iff_toNat_lt, UInt64.toNat_add, Nat.mod_eq_of_lt hsum, hend]
    exact Nat.not_lt.mpr hin.2.2
  have hholds : Holds physical r.toMapRange :=
    (holds_iff_of_describes hdr physical).mpr ⟨hin.1, hin.2.1⟩
  rw [MemoryMap.virtualAddressForPhysical, Memory.virtualAddressForPhysical, if_neg (Nat.not_le.mpr hsum), hordered.find_eq hr hholds]
  dsimp only
  rw [if_neg hpast, hdr.1, hdr.2.2.1]

/-- A lookup inside no described range answers NULL. -/
theorem lookup_of_not_inside {ds : List GuestPhysicalRange} {m : MemoryMap}
    (h : new ds = some m) {physical length : UInt64}
    (hout : ∀ d ∈ ds, ¬ Inside d physical length) :
    m.virtualAddressForPhysical physical length = 0 := by
  obtain ⟨-, hordered, hright, -⟩ := accepted_spec (accept_of_new h)
  rw [MemoryMap.virtualAddressForPhysical, Memory.virtualAddressForPhysical]
  by_cases hsum : physical.toNat + length.toNat ≥ 2 ^ 64
  · rw [if_pos hsum]
  · rw [if_neg hsum]
    by_cases hheld : ∃ r ∈ m.ranges, Holds physical r.toMapRange
    · obtain ⟨r, hr, hx⟩ := hheld
      obtain ⟨d, hd, hdr⟩ := hright r hr
      have hin := (holds_iff_of_describes hdr physical).mp hx
      have hpast : physical + length > r.physicalEnd := by
        have hno := hout d hd
        rw [Inside] at hno
        rw [gt_iff_lt, UInt64.lt_iff_toNat_lt, UInt64.toNat_add,
          Nat.mod_eq_of_lt (Nat.lt_of_not_le hsum), hdr.2.2.2]
        omega
      rw [hordered.find_eq hr hx]
      exact if_pos hpast
    · rw [find_eq_none fun r hr hx => hheld ⟨r, hr, hx⟩]

/-- The map of a description: it is accepted where no range's end overflows and no two ranges
overlap, in whatever order they are described; at most one of its ranges holds an address, and a
lookup answers where the bytes lie in a described range, and NULL elsewhere. -/
theorem memoryMap_accepts (ds : List GuestPhysicalRange) :
    ((new ds).isSome = true ↔
      (∀ d ∈ ds, d.stop < 2 ^ 64) ∧ ds.Pairwise fun d e => ¬ Overlap d e) ∧
    ∀ ds', ds'.Perm ds →
      (new ds').isSome = (new ds).isSome ∧
      ∀ m m', new ds = some m → new ds' = some m' →
        (∀ x : UInt64, (m'.ranges.filter fun r => Holds x r.toMapRange).length ≤ 1) ∧
        ∀ physical length : UInt64,
          m'.virtualAddressForPhysical physical length =
            m.virtualAddressForPhysical physical length ∧
          (∀ d ∈ ds, Inside d physical length →
            m'.virtualAddressForPhysical physical length =
              physical - d.physicalAddress + d.hostAddress) ∧
          ((∀ d ∈ ds, ¬ Inside d physical length) →
            m'.virtualAddressForPhysical physical length = 0) := by
  refine ⟨new_isSome_iff ds, fun ds' hperm => ⟨?_, fun m m' h h' => ⟨?_, ?_⟩⟩⟩
  · rw [Bool.eq_iff_iff, new_isSome_iff, new_isSome_iff, pairwise_overlap_perm hperm]
    exact and_congr_left fun _ => forall_congr' fun d => imp_congr_left hperm.mem_iff
  · exact m'.ordered.1.holds_length_le_one
  · intro physical length
    have hin : ∀ d ∈ ds, Inside d physical length →
        m'.virtualAddressForPhysical physical length =
          physical - d.physicalAddress + d.hostAddress := fun d hd hin =>
      lookup_of_inside h' (hperm.mem_iff.mpr hd) hin
    have hout : (∀ d ∈ ds, ¬ Inside d physical length) →
        m'.virtualAddressForPhysical physical length = 0 :=
      fun hout => lookup_of_not_inside h' fun d hd => hout d (hperm.mem_iff.mp hd)
    refine ⟨?_, hin, hout⟩
    by_cases hex : ∃ d ∈ ds, Inside d physical length
    · obtain ⟨d, hd, hinside⟩ := hex
      rw [hin d hd hinside, lookup_of_inside h hd hinside]
    · have hno : ∀ d ∈ ds, ¬ Inside d physical length := fun d hd hinside => hex ⟨d, hd, hinside⟩
      rw [hout hno, lookup_of_not_inside h hno]

/-- A range of no bytes inside another: no address lies in both, and the map is refused. -/
theorem emptyInside_refused :
    ¬ ∀ ds : List GuestPhysicalRange, (new ds).isSome = true ↔
      (∀ d ∈ ds, d.stop < 2 ^ 64) ∧ ds.Pairwise fun d e => ¬ Intersect d e := by
  intro h
  have haccepted := (h [⟨0x4000, 0x8000, 0⟩, ⟨0x6000, 0, 0⟩]).mpr (by
    refine ⟨by decide, ?_⟩
    rw [List.pairwise_pair]
    rintro ⟨x, -, hle, hlt⟩
    change 0x6000 ≤ x at hle
    change x < 0x6000 at hlt
    omega)
  rw [new_isSome_iff, List.pairwise_pair] at haccepted
  refine haccepted.2 ⟨?_, ?_⟩
  · change 0x4000 < 0x6000
    omega
  · change 0x6000 < 0xc000
    omega

end MemoryMap

end ReimsVgpu.Memory
