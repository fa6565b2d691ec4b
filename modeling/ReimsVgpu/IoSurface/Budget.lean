import Mathlib.Algebra.BigOperators.Fin
import Mathlib.Algebra.Order.BigOperators.Group.Finset
import ReimsVgpu.IoSurface.Table
import ReimsVgpu.Library.Execution
import ReimsVgpu.Library.Words

/-!
# The budget of host-only surfaces

The count of host-only bytes against the surfaces that the slots hold. A surface's size is the one it
was made with, in whole pages, and not the product that the code computes in 64 bits: the two differ
where the size wraps, and so may the count.

## Main definitions

* `exactSize`, `charge`, `spent`: a surface's size, a slot's part of the budget, and the budget spent.
* `Budgeted`: the count is what is spent, within the limit.
* `Fits`: a command that wraps nothing.

## Main results

* `run_budgeted_iff`: a command keeps the budget if and only if it fits.
* `budgeted_of_run`: the runs whose commands fit.
-/

namespace ReimsVgpu.IoSurface

open Finset

/-! ### Sizes -/

/-- A size in whole pages. -/
def exactSize (vm : Vm) (allocSize : UInt64) : ℕ :=
  2 ^ vm.pageShift.toNat *
    ((allocSize.toNat + (2 ^ vm.pageShift.toNat - 1)) / 2 ^ vm.pageShift.toNat)

theorem toUInt64_eq_ofNat (w : UInt32) : w.toUInt64 = UInt64.ofNat w.toNat := by
  apply UInt64.toNat_inj.mp
  rw [UInt32.toNat_toUInt64, UInt64.toNat_ofNat_of_lt']
  exact w.toNat_lt.trans (by decide)

theorem Vm.toNat_pageSize (vm : Vm) : vm.pageSize.toNat = 2 ^ vm.pageShift.toNat := by
  have hlt : 2 ^ vm.pageShift.toNat < 2 ^ 64 := Nat.pow_lt_pow_right (by decide) vm.pageShift_lt
  rw [Vm.pageSize, toUInt64_eq_ofNat, UInt64.toNat_shiftLeft_ofNat vm.pageShift_lt]
  · exact Nat.one_mul _
  · change 1 * _ < _
    rwa [Nat.one_mul]

theorem exactSize_le (vm : Vm) (allocSize : UInt64) : exactSize vm allocSize ≤ 2 ^ 64 := by
  have hsplit : 2 ^ 64 = 2 ^ vm.pageShift.toNat * 2 ^ (64 - vm.pageShift.toNat) := by
    rw [← pow_add, Nat.add_sub_cancel' vm.pageShift_lt.le]
  have hpow : 1 ≤ 2 ^ vm.pageShift.toNat := Nat.one_le_two_pow
  have hlt := allocSize.toNat_lt
  rw [exactSize, hsplit]
  refine Nat.mul_le_mul_left _ (Nat.le_of_lt_succ ?_)
  rw [Nat.div_lt_iff_lt_mul hpow, Nat.succ_mul, Nat.mul_comm, ← hsplit]
  omega

/-- What the code takes for a surface's size: its size, wrapped. -/
theorem toNat_pageCountOf_mul (host : Host) (d : Descriptor) :
    (pageCountOf host d * host.vm.pageSize).toNat = exactSize host.vm d.allocSize % 2 ^ 64 := by
  have hshift := host.vm.pageShift_lt
  have hsize := host.vm.toNat_pageSize
  generalize hk : host.vm.pageShift.toNat = k at hshift hsize
  have hpow : 1 ≤ 2 ^ k := Nat.one_le_two_pow
  have hpowLt : 2 ^ k < 2 ^ 64 := Nat.pow_lt_pow_right (by decide) hshift
  have hmask : (host.vm.pageSize - 1).toNat = 2 ^ k - 1 := by
    rw [UInt64.toNat_sub_of_toNat_le (by rw [hsize]; exact hpow), hsize]
    rfl
  have hsplit : 2 ^ 64 = 2 ^ k * 2 ^ (64 - k) := by
    rw [← pow_add]
    congr 1
    omega
  have hcount : (pageCountOf host d).toNat =
      (d.allocSize.toNat + (2 ^ k - 1)) % 2 ^ 64 / 2 ^ k := by
    rw [pageCountOf, toUInt64_eq_ofNat, hk, UInt64.toNat_shiftRight_ofNat _ hshift]
    unfold alignUpWrapping
    rw [UInt64.toNat_and_not_mask hmask, UInt64.toNat_add, hmask]
    generalize (d.allocSize.toNat + (2 ^ k - 1)) % 2 ^ 64 = y
    rw [← Nat.div_add_mod y (2 ^ k), Nat.mul_add_mod, Nat.mod_mod, Nat.add_sub_cancel,
      Nat.mul_div_cancel_left _ hpow, Nat.mul_add_div hpow, Nat.div_eq_of_lt (Nat.mod_lt _ hpow),
      Nat.add_zero]
  have hprod : (pageCountOf host d).toNat * host.vm.pageSize.toNat < 2 ^ 64 := by
    rw [hcount, hsize]
    exact (Nat.div_mul_le_self _ _).trans_lt (Nat.mod_lt _ (by decide))
  rw [UInt64.toNat_mul_of_toNat_lt hprod, hcount, hsize, exactSize, hk, hsplit,
    Nat.mul_mod_mul_left, Nat.mod_mul_right_div_self, Nat.mul_comm]

/-! ### The budget -/

/-- A slot's part of the budget: the size of a host-only surface. -/
def charge (vm : Vm) (slot : SurfaceSlot) : ℕ :=
  match slot.surface with
  | some s => if slot.hostOnly then exactSize vm s.spec.descriptor.allocSize else 0
  | none => 0

/-- The budget spent. -/
def spent (vm : Vm) (st : QueueState) : ℕ := ∑ i, charge vm (st.slots i)

/-- The count is what is spent, and it is within the limit. -/
structure Budgeted (vm : Vm) (st : QueueState) : Prop where
  bytes : st.hostOnlyBytes.toNat = spent vm st
  limit : spent vm st ≤ hostOnlyLimit.toNat

/-- A slot's page count is that of its host-only surface. -/
def SurfaceSlot.Sized (vm : Vm) (slot : SurfaceSlot) : Prop :=
  slot.surface.isSome → slot.hostOnly → (slot.pageCount * vm.pageSize).toNat = charge vm slot

/-- The budget with what makes it last: every slot's page count is its surface's. -/
structure Kept (vm : Vm) (st : QueueState) : Prop extends Budgeted vm st where
  sized : ∀ i, (st.slots i).Sized vm

theorem charge_of_surface_none {vm : Vm} {slot : SurfaceSlot} (h : slot.surface = none) :
    charge vm slot = 0 := by
  rw [charge, h]

theorem charge_le_spent (vm : Vm) (st : QueueState) (i : Fin mappingIdCount) :
    charge vm (st.slots i) ≤ spent vm st :=
  single_le_sum (f := fun i => charge vm (st.slots i)) (fun _ _ => Nat.zero_le _) (mem_univ i)

/-- A slot's change is the budget's. -/
theorem spent_add_charge {vm : Vm} {st st' : QueueState} (i : Fin mappingIdCount)
    (h : ∀ j ≠ i, charge vm (st'.slots j) = charge vm (st.slots j)) :
    spent vm st' + charge vm (st.slots i) = spent vm st + charge vm (st'.slots i) := by
  have hrest : ∑ j ∈ univ.erase i, charge vm (st'.slots j) =
      ∑ j ∈ univ.erase i, charge vm (st.slots j) :=
    sum_congr rfl fun j hj => h j (ne_of_mem_erase hj)
  rw [spent, spent, ← add_sum_erase univ _ (mem_univ i),
    ← add_sum_erase univ (fun j => charge vm (st.slots j)) (mem_univ i), hrest]
  omega

/-- Nothing was made or released: a slot that changed held no surface and holds none. -/
structure Unchanged (st st' : QueueState) : Prop where
  bytes : st'.hostOnlyBytes = st.hostOnlyBytes
  slots : ∀ i, st'.slots i = st.slots i ∨
    (st.slots i).surface = none ∧ (st'.slots i).surface = none

theorem Unchanged.charge {st st' : QueueState} (h : Unchanged st st') (vm : Vm)
    (i : Fin mappingIdCount) : charge vm (st'.slots i) = charge vm (st.slots i) := by
  obtain heq | ⟨hnone, hnone'⟩ := h.slots i
  · rw [heq]
  · rw [charge_of_surface_none hnone, charge_of_surface_none hnone']

theorem Unchanged.kept {vm : Vm} {st st' : QueueState} (h : Unchanged st st') (hk : Kept vm st) :
    Kept vm st' := by
  have hspent : spent vm st' = spent vm st := sum_congr rfl fun i _ => h.charge vm i
  refine ⟨⟨?_, ?_⟩, fun i => ?_⟩
  · rw [h.bytes, hspent, hk.bytes]
  · rw [hspent]
    exact hk.limit
  · obtain heq | ⟨-, hnone⟩ := h.slots i
    · rw [heq]
      exact hk.sized i
    · intro hsome
      rw [hnone] at hsome
      cases hsome

theorem Unchanged.refl (st : QueueState) : Unchanged st st := ⟨rfl, fun _ => Or.inl rfl⟩

/-! ### Map -/

section Commands

variable {host : Host} {st st' : QueueState}

/-- A descriptor that the platform makes a host-only surface of. -/
def Makes (host : Host) (d : Descriptor) : Prop :=
  (⟨d.word0⟩ : Entry).valid ∧
    ¬ (d.planeCount ≠ 0 ∧ (maxPlanes < d.planeCount ∨ !planeSpecs d)) ∧
    (host.create ⟨d, none, none⟩).isSome

/-- The budget with a host-only surface more wraps. -/
def Wraps (host : Host) (st : QueueState) (d : Descriptor) : Prop :=
  2 ^ 64 ≤ st.hostOnlyBytes.toNat + exactSize host.vm d.allocSize

theorem surfaceSpec_eq_some {d : Descriptor} {slot slot' : SurfaceSlot} {spec : SurfaceSpec}
    (h : surfaceSpec d slot = (slot', some spec)) :
    ¬ (d.planeCount ≠ 0 ∧ (maxPlanes < d.planeCount ∨ !planeSpecs d)) ∧
      slot' = { slot with baseOffset := d.offset } ∧
      spec =
        { descriptor := d
          clientDirection := if slot.readOnly then some clientDirectionReadOnly else none
          clientAddressRanges :=
            if slot.hostOnly then none else some (slot.pages.take slot.pageCount.toNat) } := by
  unfold surfaceSpec at h
  by_cases hplanes : d.planeCount ≠ 0 ∧ (maxPlanes < d.planeCount ∨ !planeSpecs d)
  · rw [if_pos hplanes] at h
    injection h with _ hspec
    cases hspec
  · rw [if_neg hplanes] at h
    injection h with hslot hspec
    exact ⟨hplanes, hslot.symm, (Option.some.inj hspec).symm⟩

theorem walk_slot {d : Descriptor} {pageCount : UInt64} {slot slot' : SurfaceSlot}
    {r : Except IoReturn Unit} (h : walk host d pageCount slot = (slot', r)) :
    slot'.surface = slot.surface ∧ (slot'.hostOnly = slot.hostOnly ∨ slot'.hostOnly = false) := by
  unfold walk at h
  dsimp only at h
  split at h
  · injection h with h _
    rw [← h]
    exact ⟨rfl, Or.inl rfl⟩
  · split_ifs at h
    · injection h with h _
      rw [← h]
      exact ⟨rfl, Or.inl rfl⟩
    · injection h with h _
      rw [← h]
      exact ⟨rfl, Or.inl rfl⟩
    all_goals
      injection h with h _
      rw [← h]
      exact ⟨rfl, Or.inr rfl⟩

theorem entryPage_error {table : UInt64} {bad status : IoReturn} {j : UInt64}
    (h : entryPage host table bad j = .error status) : status = bad ∨ status = .noMemory := by
  unfold entryPage at h
  dsimp only at h
  split_ifs at h
  · exact Or.inl (Except.error.inj h).symm
  · split at h
    · exact Or.inr (Except.error.inj h).symm
    · cases h

theorem walkEntries_error {table : UInt64} {bad status : IoReturn} {n : ℕ} {j mapped : UInt64}
    {pages : List UInt64} (h : (walkEntries host table bad n j mapped pages).2 = .error status) :
    status = bad ∨ status = .noMemory := by
  induction n generalizing j mapped pages with
  | zero => cases h
  | succ n ih =>
    rw [walkEntries] at h
    split at h
    case h_1 e hentry =>
      rw [← Except.error.inj h]
      exact entryPage_error hentry
    case h_2 => exact ih h

theorem rootTable_error {root i : UInt64} {status : IoReturn}
    (h : rootTable host root i = .error status) : status = .badArgument ∨ status = .noMemory := by
  unfold rootTable at h
  dsimp only at h
  split_ifs at h
  · exact Or.inl (Except.error.inj h).symm
  · split at h
    · exact Or.inr (Except.error.inj h).symm
    · cases h

theorem walkTables_error {root entriesPerPage : UInt64} {status : IoReturn} {n : ℕ}
    {i remaining mapped : UInt64} {pages : List UInt64}
    (h : (walkTables host root entriesPerPage n i remaining mapped pages).2 = .error status) :
    status = .badArgument ∨ status = .noMemory := by
  induction n generalizing i remaining mapped pages with
  | zero => cases h
  | succ n ih =>
    rw [walkTables] at h
    split at h
    case h_1 e hroot =>
      rw [← Except.error.inj h]
      exact rootTable_error hroot
    case h_2 table hroot =>
      dsimp only at h
      split at h
      case h_1 pages' e hentries =>
        rw [← Except.error.inj h]
        exact Or.inr ((walkEntries_error (congrArg Prod.snd hentries)).elim id id)
      case h_2 => exact ih h

theorem walkOneLevel_error {root pageCount : UInt64} {pages : List UInt64} {status : IoReturn}
    (h : (walkOneLevel host root pageCount pages).2 = .error status) :
    status = .badArgument ∨ status = .noMemory := by
  unfold walkOneLevel at h
  split at h
  case h_1 e hentries =>
    rw [← Except.error.inj h]
    exact walkEntries_error (congrArg Prod.snd hentries)
  case h_2 => cases h

theorem walk_error {d : Descriptor} {pageCount : UInt64} {slot slot' : SurfaceSlot}
    {status : IoReturn} (h : walk host d pageCount slot = (slot', .error status)) :
    status = .badArgument ∨ status = .noMemory := by
  unfold walk at h
  dsimp only at h
  split at h
  · injection h with _ h
    exact Or.inr (Except.error.inj h).symm
  · split_ifs at h
    · injection h with _ h
      exact Or.inr (Except.error.inj h).symm
    · injection h with _ h
      exact Or.inr (Except.error.inj h).symm
    · injection h with _ h
      exact walkTables_error h
    · injection h with _ h
      exact walkOneLevel_error h

/-- What a slot that backs a surface is. -/
structure Backs (host : Host) (st : QueueState) (d : Descriptor) (slot : SurfaceSlot) : Prop where
  surface : slot.surface = none
  hostOnly : slot.hostOnly = d.hostOnly
  pageCount : d.hostOnly → slot.pageCount = pageCountOf host d
  readOnly : d.hostOnly → slot.readOnly = false
  limit : d.hostOnly →
    st.hostOnlyBytes + pageCountOf host d * host.vm.pageSize ≤ hostOnlyLimit

theorem backing_eq_ok {d : Descriptor} {slot : SurfaceSlot}
    (h : backing host st d {} = (slot, .ok ())) : Backs host st d slot := by
  unfold backing at h
  dsimp only at h
  split_ifs at h with hhost hlimit
  · injection h with _ h
    cases h
  · injection h with h _
    rw [← h]
    refine ⟨rfl, hhost.symm, fun _ => rfl, fun _ => rfl, fun _ => ?_⟩
    exact UInt64.le_iff_toNat_le.mpr
      (Nat.le_of_not_lt fun hlt => hlimit (UInt64.lt_iff_toNat_lt.mpr hlt))
  · obtain ⟨hsurface, hhostOnly⟩ := walk_slot h
    have hfalse : slot.hostOnly = false := by
      obtain heq | heq := hhostOnly
      · exact heq
      · exact heq
    have hd : d.hostOnly = false := Bool.eq_false_of_not_eq_true hhost
    refine ⟨hsurface, hfalse.trans hd.symm, ?_, ?_, ?_⟩ <;>
      exact fun hc => absurd hc hhost

theorem backing_surface {d : Descriptor} {slot : SurfaceSlot} {r : Except IoReturn Unit}
    (h : backing host st d {} = (slot, r)) : slot.surface = none := by
  unfold backing at h
  dsimp only at h
  split_ifs at h
  · injection h with h _
    rw [← h]
  · injection h with h _
    rw [← h]
  · exact (walk_slot h).1

theorem backing_error {d : Descriptor} {slot : SurfaceSlot} {status : IoReturn}
    (h : backing host st d {} = (slot, .error status)) : status ≠ .success := by
  unfold backing at h
  dsimp only at h
  split_ifs at h
  · injection h with _ h
    rw [← Except.error.inj h]
    decide
  · injection h with _ h
    cases h
  · obtain rfl | rfl := walk_error h <;> decide

/-- What a slot is that holds a surface just made. -/
structure Made (host : Host) (st : QueueState) (d : Descriptor) (slot : SurfaceSlot) : Prop where
  surface : ∃ s, slot.surface = some s ∧ s.spec.descriptor = d
  hostOnly : slot.hostOnly = d.hostOnly
  pageCount : d.hostOnly → slot.pageCount = pageCountOf host d
  limit : d.hostOnly →
    st.hostOnlyBytes + pageCountOf host d * host.vm.pageSize ≤ hostOnlyLimit
  makes : d.hostOnly → Makes host d

theorem makeSurface_success {d : Descriptor} {slot : SurfaceSlot}
    (h : makeSurface host st d {} = (slot, .success)) : Made host st d slot := by
  unfold makeSurface at h
  by_cases hvalid : !(⟨d.word0⟩ : Entry).valid
  · rw [if_pos hvalid] at h
    injection h with _ h
    cases h
  rw [if_neg hvalid] at h
  split at h
  case h_1 status hback =>
    injection h with _ hstatus
    exact absurd hstatus (backing_error hback)
  case h_2 slot₁ hback =>
    have hb := backing_eq_ok hback
    split at h
    · injection h with _ h
      cases h
    case h_2 slot₂ spec hspec =>
      obtain ⟨hplanes, hslot, hspec⟩ := surfaceSpec_eq_some hspec
      split at h
      · injection h with _ h
        cases h
      case h_2 handle hcreate =>
        injection h with h _
        rw [← h, hslot]
        refine ⟨⟨⟨spec, handle⟩, rfl, by rw [hspec]⟩, hb.hostOnly, hb.pageCount, hb.limit,
          fun hd => ⟨?_, hplanes, ?_⟩⟩
        · simpa using hvalid
        · have hspec' : spec = ⟨d, none, none⟩ := by
            rw [hspec, hb.hostOnly, hd, hb.readOnly hd]
            rfl
          rw [← hspec', hcreate]
          rfl

theorem surfaceSpec_surface {d : Descriptor} {slot slot' : SurfaceSlot}
    {r : Option SurfaceSpec} (h : surfaceSpec d slot = (slot', r)) :
    slot'.surface = slot.surface := by
  have hslot : slot' = (surfaceSpec d slot).1 := by rw [h]
  rw [hslot]
  unfold surfaceSpec
  split_ifs <;> rfl

theorem makeSurface_failed {d : Descriptor} {slot : SurfaceSlot} {status : IoReturn}
    (h : makeSurface host st d {} = (slot, status)) (hs : status ≠ .success) :
    slot.surface = none := by
  unfold makeSurface at h
  by_cases hvalid : !(⟨d.word0⟩ : Entry).valid
  · rw [if_pos hvalid] at h
    injection h with h _
    rw [← h]
  rw [if_neg hvalid] at h
  split at h
  case h_1 status hback =>
    injection h with h _
    rw [← h]
    exact backing_surface hback
  case h_2 slot₁ hback =>
    split at h
    case h_1 slot₂ hspec =>
      injection h with h _
      rw [← h, surfaceSpec_surface hspec]
      exact backing_surface hback
    case h_2 slot₂ spec hspec =>
      split at h
      · injection h with h _
        rw [← h]
      · injection h with _ h
        exact absurd h.symm hs

/-- What a platform makes a host-only surface of, only the limit refuses. -/
theorem makeSurface_refused {d : Descriptor} {slot : SurfaceSlot} {status : IoReturn}
    (h : makeSurface host st d {} = (slot, status)) (hs : status ≠ .success) (hd : d.hostOnly)
    (hmakes : Makes host d) :
    hostOnlyLimit < st.hostOnlyBytes + pageCountOf host d * host.vm.pageSize := by
  obtain ⟨hvalid, hplanes, hcreate⟩ := hmakes
  by_contra hlimit
  have hback : backing host st d {} =
      ({ pageCount := pageCountOf host d, hostOnly := true }, .ok ()) := by
    rw [backing]
    dsimp only
    rw [if_pos hd, if_neg hlimit]
  have hspec : surfaceSpec d { pageCount := pageCountOf host d, hostOnly := true } =
      ({ pageCount := pageCountOf host d, hostOnly := true, baseOffset := d.offset },
        some ⟨d, none, none⟩) := by
    rw [surfaceSpec, if_neg hplanes]
    rfl
  obtain ⟨handle, hhandle⟩ := Option.isSome_iff_exists.mp hcreate
  have hvalid' : ¬ (!(⟨d.word0⟩ : Entry).valid) = true := by simpa using hvalid
  rw [makeSurface, if_neg hvalid', hback] at h
  dsimp only at h
  rw [hspec] at h
  dsimp only at h
  rw [hhandle] at h
  exact hs (Prod.mk.inj h).2.symm

/-- The descriptor that a map of an id with no surface reads. -/
def described (host : Host) (st : QueueState) (mappingId : UInt32) : Option Descriptor :=
  match slotOf mappingId with
  | none => none
  | some index =>
    if (st.slots index).surface.isSome then none
    else
      let st := { st with slots := Function.update st.slots index {} }
      let id := mappingId.toUInt64
      let pageIndex := id / st.descriptorsPerPage
      let within := id % st.descriptorsPerPage
      if st.tableLen ≤ pageIndex then none
      else
        match descriptorPage host st pageIndex with
        | .ok (_, .ok page) => (readDescriptor host (page + within * host.form.size)).toOption
        | _ => none

/-- A map that made a surface of a descriptor. -/
structure Mapped (host : Host) (st st' : QueueState) (d : Descriptor) : Prop where
  slot : ∃ i slot, (st.slots i).surface = none ∧ st'.slots i = slot ∧ Made host st d slot ∧
    ∀ j ≠ i, st'.slots j = st.slots j
  bytes : st'.hostOnlyBytes =
    if d.hostOnly then st.hostOnlyBytes + pageCountOf host d * host.vm.pageSize
    else st.hostOnlyBytes

theorem descriptorPage_eq_ok {pageIndex : UInt64} {r : Except IoReturn UInt64}
    (h : descriptorPage host st pageIndex = .ok (st', r)) :
    st'.hostOnlyBytes = st.hostOnlyBytes ∧ st'.slots = st.slots := by
  unfold descriptorPage at h
  split_ifs at h with hindex
  split at h
  · obtain ⟨rfl, -⟩ := Prod.mk.inj (Except.ok.inj h)
    exact ⟨rfl, rfl⟩
  · dsimp only at h
    split at h
    · cases h
    · split_ifs at h
      · obtain ⟨rfl, -⟩ := Prod.mk.inj (Except.ok.inj h)
        exact ⟨rfl, rfl⟩
      · split at h
        · obtain ⟨rfl, -⟩ := Prod.mk.inj (Except.ok.inj h)
          exact ⟨rfl, rfl⟩
        · obtain ⟨rfl, -⟩ := Prod.mk.inj (Except.ok.inj h)
          exact ⟨rfl, rfl⟩

/-- Emptying a slot without a surface changes nothing. -/
theorem unchanged_update {index : Fin mappingIdCount} {slot : SurfaceSlot}
    (hbytes : st'.hostOnlyBytes = st.hostOnlyBytes)
    (hslots : st'.slots = Function.update st.slots index slot)
    (hnone : (st.slots index).surface = none) (hslot : slot.surface = none) :
    Unchanged st st' := by
  refine ⟨hbytes, fun i => ?_⟩
  rw [hslots]
  by_cases hi : i = index
  · subst hi
    rw [Function.update_self]
    exact Or.inr ⟨hnone, hslot⟩
  · rw [Function.update_of_ne hi]
    exact Or.inl rfl

/-- A map that made nothing: of what it reads, only the limit refuses what the platform makes. -/
structure Refused (host : Host) (st st' : QueueState) (mappingId : UInt32) : Prop where
  unchanged : Unchanged st st'
  limit : ∀ d ∈ described host st mappingId, d.hostOnly → Makes host d →
    hostOnlyLimit < st.hostOnlyBytes + pageCountOf host d * host.vm.pageSize

theorem Refused.of_described_eq_none {mappingId : UInt32} (h : Unchanged st st')
    (hnone : described host st mappingId = none) : Refused host st st' mappingId :=
  ⟨h, fun d hd => by rw [hnone] at hd; cases hd⟩

/-- `map`, without what it writes of the guest's memory. -/
theorem map_eq (mappingId : UInt32) :
    map host st mappingId =
      match slotOf mappingId with
      | none => .ok (st, .badArgument)
      | some index =>
        if (st.slots index).surface.isSome then .ok (st, .success)
        else
          let st := { st with slots := Function.update st.slots index {} }
          let id := mappingId.toUInt64
          let pageIndex := id / st.descriptorsPerPage
          let within := id % st.descriptorsPerPage
          if st.tableLen ≤ pageIndex then .ok (st, .badArgument)
          else
            match descriptorPage host st pageIndex with
            | .error death => .error death
            | .ok (st, .error status) => .ok (st, status)
            | .ok (st, .ok page) =>
              let at_ := page + within * host.form.size
              match readDescriptor host at_ with
              | .error death => .error death
              | .ok descriptor =>
                let (slot, status) := makeSurface host st descriptor {}
                let st := storeSlot host st index slot status
                if status = .success then
                  match mappedAccess host at_ 4 .mappedBitSet with
                  | .error death => .error death
                  | .ok () => .ok (st, status)
                else .ok (st, status) := by
  unfold map mapWriting
  cases slotOf mappingId with
  | none => rfl
  | some index =>
    dsimp only
    split_ifs
    · rfl
    · rfl
    cases descriptorPage host { st with slots := Function.update st.slots index {} }
      (mappingId.toUInt64 / st.descriptorsPerPage) with
    | error death => rfl
    | ok answer =>
      obtain ⟨st', status | page⟩ := answer
      · rfl
      dsimp only
      cases readDescriptor host
        (page + mappingId.toUInt64 % st.descriptorsPerPage * host.form.size) with
      | error death => rfl
      | ok descriptor =>
        dsimp only
        split_ifs
        · cases mappedAccess host
            (page + mappingId.toUInt64 % st.descriptorsPerPage * host.form.size) 4 .mappedBitSet <;> rfl
        · rfl

/-- What a map can do: make a surface of the descriptor it reads, or nothing. -/
theorem map_cases {mappingId : UInt32} {status : IoReturn}
    (h : map host st mappingId = .ok (st', status)) :
    Refused host st st' mappingId ∨
      status = .success ∧ ∃ d ∈ described host st mappingId, Mapped host st st' d := by
  rw [map_eq] at h
  split at h
  case h_1 hslot =>
    obtain ⟨rfl, -⟩ := Prod.mk.inj (Except.ok.inj h)
    exact Or.inl (Refused.of_described_eq_none (Unchanged.refl _) (by rw [described, hslot]))
  case h_2 index hindex =>
    by_cases hsome : (st.slots index).surface.isSome
    · rw [if_pos hsome] at h
      obtain ⟨rfl, -⟩ := Prod.mk.inj (Except.ok.inj h)
      refine Or.inl (Refused.of_described_eq_none (Unchanged.refl _) ?_)
      rw [described, hindex]
      exact if_pos hsome
    rw [if_neg hsome] at h
    have hnone : (st.slots index).surface = none := Option.not_isSome_iff_eq_none.mp hsome
    dsimp only at h
    split_ifs at h with htable
    · obtain ⟨rfl, -⟩ := Prod.mk.inj (Except.ok.inj h)
      refine Or.inl (Refused.of_described_eq_none (unchanged_update rfl rfl hnone rfl) ?_)
      rw [described, hindex]
      dsimp only
      rw [if_neg hsome, if_pos htable]
    split at h
    · cases h
    case h_2 st₁ status₁ hpage =>
      obtain ⟨hbytes, hslots⟩ := descriptorPage_eq_ok hpage
      obtain ⟨rfl, -⟩ := Prod.mk.inj (Except.ok.inj h)
      refine Or.inl (Refused.of_described_eq_none (unchanged_update hbytes hslots hnone rfl) ?_)
      rw [described, hindex]
      dsimp only
      rw [if_neg hsome, if_neg htable, hpage]
    case h_3 st₁ page hpage =>
      obtain ⟨hbytes, hslots⟩ := descriptorPage_eq_ok hpage
      split at h
      · cases h
      case h_2 d hread =>
        dsimp only at hbytes hslots
        have hd : described host st mappingId = some d := by
          rw [described, hindex]
          dsimp only
          rw [if_neg hsome, if_neg htable, hpage]
          dsimp only
          rw [hread]
          rfl
        generalize hmake : makeSurface host st₁ d {} = made at h
        obtain ⟨slot, status'⟩ := made
        dsimp only at h
        by_cases hstatus : status' = .success
        · -- The budget the check met is the one the slot is charged to.
          subst hstatus
          have hmade := makeSurface_success hmake
          rw [if_pos rfl] at h
          split at h
          · cases h
          obtain ⟨rfl, rfl⟩ := Prod.mk.inj (Except.ok.inj h)
          refine Or.inr ⟨rfl, d, hd, ⟨index, slot, hnone, ?_, ?_, fun j hj => ?_⟩, ?_⟩
          · rw [storeSlot, if_pos rfl]
            exact Function.update_self _ _ _
          · refine ⟨hmade.surface, hmade.hostOnly, hmade.pageCount, fun hd => ?_, hmade.makes⟩
            rw [← hbytes]
            exact hmade.limit hd
          · rw [storeSlot, if_pos rfl]
            dsimp only
            rw [Function.update_of_ne hj, hslots, Function.update_of_ne hj]
          · rw [storeSlot, if_pos rfl]
            dsimp only
            rw [hmade.hostOnly, hbytes]
            split_ifs with hhost
            · rw [hmade.pageCount hhost]
            · rfl
        · rw [if_neg hstatus] at h
          obtain ⟨rfl, -⟩ := Prod.mk.inj (Except.ok.inj h)
          have hfailed := makeSurface_failed hmake hstatus
          have hempty : ({ slot with pages := [] } : SurfaceSlot).surface = none := hfailed
          refine Or.inl ⟨unchanged_update ?_ ?_ hnone hempty, fun d' hd' hhost hmakes => ?_⟩
          · rw [storeSlot, if_neg hstatus]
            exact hbytes
          · rw [storeSlot, if_neg hstatus]
            dsimp only
            rw [hslots, Function.update_idem]
          · obtain rfl : d = d' := Option.some.inj (hd.symm.trans hd')
            rw [← hbytes]
            exact makeSurface_refused hmake hstatus hhost hmakes

/-- A map that makes a surface keeps the budget if and only if the budget with it does not wrap. -/
theorem mapped_budgeted_iff {d : Descriptor} (hk : Kept host.vm st) (h : Mapped host st st' d) :
    Budgeted host.vm st' ↔ (d.hostOnly → ¬ Wraps host st d) := by
  obtain ⟨⟨i, slot, hnone, hslot, hmade, hrest⟩, hbytes⟩ := h
  obtain ⟨s, hs, hsd⟩ := hmade.surface
  have hspent : spent host.vm st' + charge host.vm (st.slots i) =
      spent host.vm st + charge host.vm (st'.slots i) :=
    spent_add_charge i fun j hj => congrArg _ (hrest j hj)
  rw [charge_of_surface_none hnone, hslot, Nat.add_zero] at hspent
  have hkb := hk.bytes
  have hkl := hk.limit
  by_cases hd : d.hostOnly
  · have hcharge : charge host.vm slot = exactSize host.vm d.allocSize := by
      rw [charge, hs]
      dsimp only
      rw [hmade.hostOnly, if_pos hd, hsd]
    rw [if_pos hd] at hbytes
    have hlimit := UInt64.le_iff_toNat_le.mp (hmade.limit hd)
    rw [← hbytes] at hlimit
    have hsum : st'.hostOnlyBytes.toNat =
        (st.hostOnlyBytes.toNat + exactSize host.vm d.allocSize) % 2 ^ 64 := by
      rw [hbytes, UInt64.toNat_add, toNat_pageCountOf_mul, Nat.add_mod_mod]
    constructor
    · rintro ⟨hb, hl⟩ - hwraps
      -- The count is below the wrap, and what is spent is not.
      have hmod := Nat.mod_lt (st.hostOnlyBytes.toNat + exactSize host.vm d.allocSize)
        (show 0 < 2 ^ 64 by decide)
      rw [← hsum, hb] at hmod
      unfold Wraps at hwraps
      omega
    · intro hfits
      have hlt := Nat.lt_of_not_le (hfits hd)
      rw [Nat.mod_eq_of_lt hlt] at hsum
      exact ⟨by omega, by omega⟩
  · have hcharge : charge host.vm slot = 0 := by
      rw [charge, hs]
      dsimp only
      rw [hmade.hostOnly, if_neg hd]
    rw [if_neg hd] at hbytes
    refine ⟨fun _ hc => absurd hc hd, fun _ => ⟨?_, ?_⟩⟩
    · rw [hbytes]
      omega
    · omega

theorem Mapped.sized {d : Descriptor} (hk : Kept host.vm st) (h : Mapped host st st' d)
    (hfits : d.hostOnly → ¬ Wraps host st d) (i : Fin mappingIdCount) :
    (st'.slots i).Sized host.vm := by
  obtain ⟨⟨j, slot, -, hslot, hmade, hrest⟩, -⟩ := h
  by_cases hi : i = j
  · subst hi
    obtain ⟨s, hs, hsd⟩ := hmade.surface
    intro _ hhost
    rw [hslot] at hhost ⊢
    rw [hmade.hostOnly] at hhost
    have hlt : exactSize host.vm d.allocSize < 2 ^ 64 :=
      (Nat.le_add_left _ _).trans_lt (Nat.lt_of_not_le (hfits hhost))
    rw [hmade.pageCount hhost, toNat_pageCountOf_mul, Nat.mod_eq_of_lt hlt, charge, hs]
    dsimp only
    rw [hmade.hostOnly, if_pos hhost, hsd]
  · rw [hrest i hi]
    exact hk.sized i

/-! ### Unmap and teardown -/

theorem toNat_giveBack {vm : Vm} {slot : SurfaceSlot} {bytes : UInt64} (hvm : host.vm = vm)
    (hsome : slot.surface.isSome) (hsized : slot.Sized vm)
    (hle : charge vm slot ≤ bytes.toNat) :
    (giveBack host bytes slot).toNat = bytes.toNat - charge vm slot := by
  subst hvm
  unfold giveBack
  by_cases hhost : slot.hostOnly
  · have hsize := hsized hsome hhost
    rw [if_pos hhost, UInt64.toNat_sub_of_toNat_le (by rw [hsize]; exact hle), hsize]
  · obtain ⟨s, hs⟩ := Option.isSome_iff_exists.mp hsome
    have hcharge : charge host.vm slot = 0 := by
      rw [charge, hs]
      exact if_neg hhost
    rw [if_neg hhost, hcharge, Nat.sub_zero]

/-- What an unmap can do: release a surface, or nothing. -/
theorem unmap_cases {mappingId : UInt32} {status : IoReturn}
    (h : unmap host st mappingId = .ok (st', status)) :
    st' = st ∨ status = .success ∧ ∃ i, (st.slots i).surface.isSome ∧
      st'.hostOnlyBytes = giveBack host st.hostOnlyBytes (st.slots i) ∧
      st'.slots = Function.update st.slots i (st.slots i).release := by
  unfold unmap at h
  split at h
  · exact Or.inl (Prod.mk.inj (Except.ok.inj h)).1.symm
  case h_2 index hindex =>
    split at h
    · exact Or.inl (Prod.mk.inj (Except.ok.inj h)).1.symm
    case h_2 surface hsurface =>
      dsimp only at h
      split_ifs at h with hbusy htable hpage
      · exact Or.inl (Prod.mk.inj (Except.ok.inj h)).1.symm
      · exact Or.inl (Prod.mk.inj (Except.ok.inj h)).1.symm
      · split at h
        · exact Or.inl (Prod.mk.inj (Except.ok.inj h)).1.symm
        · split at h
          · cases h
          · obtain ⟨rfl, rfl⟩ := Prod.mk.inj (Except.ok.inj h)
            exact Or.inr ⟨rfl, index, by rw [hsurface]; rfl, rfl, rfl⟩

/-- Unmapping gives back what the surface took. -/
theorem released_kept {i : Fin mappingIdCount} (hk : Kept host.vm st)
    (hsome : (st.slots i).surface.isSome)
    (hbytes : st'.hostOnlyBytes = giveBack host st.hostOnlyBytes (st.slots i))
    (hslots : st'.slots = Function.update st.slots i (st.slots i).release) :
    Kept host.vm st' ∧
      st'.hostOnlyBytes.toNat + charge host.vm (st.slots i) = st.hostOnlyBytes.toNat := by
  have hle : charge host.vm (st.slots i) ≤ st.hostOnlyBytes.toNat := by
    rw [hk.bytes]
    exact charge_le_spent host.vm st i
  have hgive := toNat_giveBack rfl hsome (hk.sized i) hle
  have hspent : spent host.vm st' + charge host.vm (st.slots i) =
      spent host.vm st + charge host.vm (st'.slots i) :=
    spent_add_charge i fun j hj => by rw [hslots, Function.update_of_ne hj]
  have hself : st'.slots i = (st.slots i).release := by rw [hslots, Function.update_self]
  have hzero : charge host.vm (st'.slots i) = 0 := by
    rw [hself]
    rfl
  have hkb := hk.bytes
  have hkl := hk.limit
  rw [← hbytes] at hgive
  refine ⟨⟨⟨by omega, by omega⟩, fun j => ?_⟩, by omega⟩
  by_cases hj : j = i
  · subst hj
    rw [hself]
    exact fun hc => absurd hc (by simp [SurfaceSlot.release])
  · rw [hslots, Function.update_of_ne hj]
    exact hk.sized j

/-- The loop of the teardown gives back what its slots hold. -/
theorem toNat_giveBackAll {vm : Vm} (hvm : host.vm = vm) {slots : List SurfaceSlot}
    {bytes : UInt64} (hsized : ∀ slot ∈ slots, slot.Sized vm)
    (hle : (slots.map (charge vm)).sum ≤ bytes.toNat) :
    (giveBackAll host bytes slots).toNat = bytes.toNat - (slots.map (charge vm)).sum := by
  induction slots generalizing bytes with
  | nil => rfl
  | cons slot slots ih =>
    rw [List.map_cons, List.sum_cons] at hle ⊢
    have hsized' := hsized slot List.mem_cons_self
    have hrest : ∀ slot ∈ slots, slot.Sized vm := fun s hs => hsized s (List.mem_cons_of_mem _ hs)
    rw [giveBackAll, List.foldl_cons]
    change (giveBackAll host _ slots).toNat = _
    by_cases hsome : slot.surface.isSome
    · rw [if_pos hsome]
      have hgive := toNat_giveBack hvm hsome hsized' (by omega : charge vm slot ≤ bytes.toNat)
      rw [ih hrest (by rw [hgive]; omega), hgive]
      omega
    · rw [if_neg hsome]
      have hzero : charge vm slot = 0 :=
        charge_of_surface_none (Option.not_isSome_iff_eq_none.mp hsome)
      rw [ih hrest (by omega)]
      omega

/-- The teardown gives back everything. -/
theorem teardown_kept (hk : Kept host.vm st) :
    Kept host.vm (teardownSurfaces host st) ∧ (teardownSurfaces host st).hostOnlyBytes = 0 := by
  have hsum : ((((List.finRange mappingIdCount).map st.slots).map (charge host.vm)).sum) =
      spent host.vm st := by
    rw [spent, Fin.sum_univ_def, List.map_map]
    rfl
  have hbytes : (teardownSurfaces host st).hostOnlyBytes.toNat = 0 := by
    rw [teardownSurfaces]
    dsimp only
    rw [toNat_giveBackAll rfl, hsum, hk.bytes, Nat.sub_self]
    · intro slot hslot
      obtain ⟨i, -, rfl⟩ := List.mem_map.mp hslot
      exact hk.sized i
    · rw [hsum, hk.bytes]
  have hnone : ∀ i, ((teardownSurfaces host st).slots i).surface = none := by
    intro i
    rw [teardownSurfaces]
    dsimp only
    split_ifs with hsome
    · rfl
    · exact Option.not_isSome_iff_eq_none.mp hsome
  have hspent : spent host.vm (teardownSurfaces host st) = 0 :=
    sum_eq_zero fun i _ => charge_of_surface_none (hnone i)
  refine ⟨⟨⟨hbytes.trans hspent.symm, by rw [hspent]; exact Nat.zero_le _⟩, fun i hsome => ?_⟩,
    UInt64.toNat_inj.mp hbytes⟩
  rw [hnone i] at hsome
  cases hsome

/-! ### Runs -/

/-- A command that wraps nothing: a map that makes a host-only surface meets a budget with room, in
64 bits, for its size. -/
def Fits (host : Host) (st : QueueState) : Command → Prop
  | .map mappingId => ∀ d ∈ described host st mappingId, d.hostOnly → Makes host d →
      st.hostOnlyBytes.toNat + exactSize host.vm d.allocSize < 2 ^ 64
  | _ => True

/-- The step lemma. -/
theorem run_kept_iff {command : Command} {status : IoReturn} (hk : Kept host.vm st)
    (h : command.run host st = .ok (st', status)) :
    (Budgeted host.vm st' ↔ Fits host st command) ∧
      (Fits host st command → Kept host.vm st') := by
  have hkept : Kept host.vm st' → Fits host st command →
      (Budgeted host.vm st' ↔ Fits host st command) ∧
        (Fits host st command → Kept host.vm st') := fun hk' hfits =>
    ⟨iff_of_true hk'.toBudgeted hfits, fun _ => hk'⟩
  cases command with
  | map mappingId =>
    obtain hrefused | ⟨-, d, hd, hmapped⟩ := map_cases h
    · refine hkept (hrefused.unchanged.kept hk) fun d hd hhost hmakes => ?_
      -- A budget that wraps is within the limit.
      have hlimit := UInt64.lt_iff_toNat_lt.mp (hrefused.limit d hd hhost hmakes)
      rw [UInt64.toNat_add, toNat_pageCountOf_mul, Nat.add_mod_mod] at hlimit
      have hsize := exactSize_le host.vm d.allocSize
      have hle := hk.limit
      rw [← hk.bytes] at hle
      have hmax : hostOnlyLimit.toNat < 2 ^ 64 := hostOnlyLimit.toNat_lt
      by_contra hwraps
      omega
    · have hfits : Fits host st (.map mappingId) ↔ (d.hostOnly → ¬ Wraps host st d) := by
        obtain ⟨⟨i, slot, -, -, hmade, -⟩, -⟩ := hmapped
        constructor
        · intro hf hhost
          exact Nat.not_le_of_lt (hf d hd hhost (hmade.makes hhost))
        · intro hf d' hd' hhost _
          obtain rfl : d = d' := Option.some.inj (hd.symm.trans hd')
          exact Nat.lt_of_not_le (hf hhost)
      have hiff := mapped_budgeted_iff hk hmapped
      exact ⟨hiff.trans hfits.symm, fun hf =>
        ⟨hiff.mpr (hfits.mp hf), hmapped.sized hk (hfits.mp hf)⟩⟩
  | unmap mappingId =>
    obtain rfl | ⟨-, i, hsome, hbytes, hslots⟩ := unmap_cases h
    · exact hkept hk trivial
    · exact hkept (released_kept hk hsome hbytes hslots).1 trivial
  | test mappingId =>
    obtain ⟨rfl, -⟩ := Prod.mk.inj (Except.ok.inj h)
    exact hkept hk trivial
  | teardown =>
    obtain ⟨rfl, -⟩ := Prod.mk.inj (Except.ok.inj h)
    exact hkept (teardown_kept hk).1 trivial
  | descriptorBase base =>
    obtain ⟨rfl, -⟩ := Prod.mk.inj (Except.ok.inj h)
    have hsame : Unchanged (teardownSurfaces host st) (setDescriptorBase host st base) :=
      ⟨by simp only [setDescriptorBase], fun _ => Or.inl (by simp only [setDescriptorBase])⟩
    exact hkept (hsame.kept (teardown_kept hk).1) trivial
  | descriptorEnable form =>
    obtain ⟨rfl, -⟩ := Prod.mk.inj (Except.ok.inj h)
    have hsame : Unchanged (teardownSurfaces host st) (setDescriptorEnable host st form) :=
      ⟨by simp only [setDescriptorEnable, setDescriptorBase],
        fun _ => Or.inl (by simp only [setDescriptorEnable, setDescriptorBase])⟩
    exact hkept (hsame.kept (teardown_kept hk).1) trivial

theorem run_refused_bytes {command : Command} {status : IoReturn}
    (h : command.run host st = .ok (st', status)) (hs : status ≠ .success) :
    st'.hostOnlyBytes = st.hostOnlyBytes := by
  cases command with
  | map mappingId =>
    obtain hrefused | ⟨hsuccess, -⟩ := map_cases h
    · exact hrefused.unchanged.bytes
    · exact absurd hsuccess hs
  | unmap mappingId =>
    obtain rfl | ⟨hsuccess, -⟩ := unmap_cases h
    · rfl
    · exact absurd hsuccess hs
  | test mappingId =>
    obtain ⟨rfl, -⟩ := Prod.mk.inj (Except.ok.inj h)
    rfl
  | teardown => exact absurd (Prod.mk.inj (Except.ok.inj h)).2.symm hs
  | descriptorBase base => exact absurd (Prod.mk.inj (Except.ok.inj h)).2.symm hs
  | descriptorEnable form => exact absurd (Prod.mk.inj (Except.ok.inj h)).2.symm hs

end Commands

/-- A command that fits, on what it meets, over a host of one page size. -/
def FittingStep (vm : Vm) (st : QueueState) (a : Host × Command) (st' : QueueState) : Prop :=
  a.1.vm = vm ∧ Fits a.1 st a.2 ∧ ∃ status, a.2.run a.1 st = .ok (st', status)

/-- The run lemma. -/
theorem kept_of_run {vm : Vm} {st st' : QueueState} {as : List (Host × Command)}
    (h : Execution (FittingStep vm) st as st') (h0 : Kept vm st) : Kept vm st' := by
  refine h.invariant h0 fun s a s' hk hstep => ?_
  obtain ⟨rfl, hfits, status, hrun⟩ := hstep
  exact (run_kept_iff hk hrun).2 hfits

theorem kept_initial (vm : Vm) (tableLen descriptorsPerPage : UInt64) :
    Kept vm { tableLen, descriptorsPerPage } := by
  have hspent : spent vm { tableLen, descriptorsPerPage } = 0 :=
    sum_eq_zero fun i _ => charge_of_surface_none rfl
  exact ⟨⟨hspent.symm, by rw [hspent]; exact Nat.zero_le _⟩, fun i hsome => by cases hsome⟩

/-- In every run of commands that fit, the count is what is spent and within the limit; whatever is
run next keeps it so if and only if it fits, and changes nothing of the count where it is refused. -/
theorem budgeted_of_run (vm : Vm) (tableLen descriptorsPerPage : UInt64)
    (as : List (Host × Command)) (st : QueueState)
    (h : Execution (FittingStep vm) { tableLen, descriptorsPerPage } as st) :
    Budgeted vm st ∧ ∀ (host : Host) (command : Command) (st' : QueueState) (status : IoReturn),
      host.vm = vm → command.run host st = .ok (st', status) →
        (Budgeted vm st' ↔ Fits host st command) ∧
          (status ≠ .success → st'.hostOnlyBytes = st.hostOnlyBytes) := by
  have hk := kept_of_run h (kept_initial vm tableLen descriptorsPerPage)
  refine ⟨hk.toBudgeted, fun host command st' status hvm hrun => ?_⟩
  subst hvm
  exact ⟨(run_kept_iff hk hrun).1, run_refused_bytes hrun⟩

/-- A host whose guest's every descriptor is host-only and of a size, and whose platform makes every
surface. -/
def generousHost (allocSize : UInt64) : Host where
  vm := ⟨14, by decide⟩
  form := .second
  readU32 _ := 1
  firstDescriptor _ := {}
  secondDescriptor _ := { bits41 := 2, allocSize }
  virtualAddressForPhysical _ _ := none
  newContiguousMapping _ _ := some 0x4000
  create _ := some 0
  retainCount _ := 1
  isUnmapped _ _ := false

theorem generousHost_budgeted :
    ∃ st, Execution (FittingStep (generousHost 1).vm)
        { tableLen := 0x1000, descriptorsPerPage := 0x10 } [(generousHost 1, .map 1)] st ∧
      Budgeted (generousHost 1).vm st := by
  have hstep : ∃ st status, (Command.map 1).run (generousHost 1)
      { tableLen := 0x1000, descriptorsPerPage := 0x10 } = .ok (st, status) := ⟨_, _, rfl⟩
  obtain ⟨st, status, hrun⟩ := hstep
  have hfits : Fits (generousHost 1) { tableLen := 0x1000, descriptorsPerPage := 0x10 } (.map 1) := by
    intro d hd _ _
    obtain rfl : { bits41 := 2, allocSize := 1 } = d := Option.some.inj hd
    decide
  have hexec : Execution (FittingStep (generousHost 1).vm)
      { tableLen := 0x1000, descriptorsPerPage := 0x10 } [(generousHost 1, .map 1)] st :=
    Execution.single ⟨rfl, hfits, status, hrun⟩
  exact ⟨st, hexec, (budgeted_of_run _ _ _ _ _ hexec).1⟩

/-- A host-only surface of `2 ^ 64 - 1` bytes is made, and counts as none. -/
theorem unbounded_surface_made :
    ∃ st, (Command.map 1).run (generousHost 0xffffffffffffffff)
        { tableLen := 0x1000, descriptorsPerPage := 0x10 } = .ok (st, .success) ∧
      ¬ Budgeted (generousHost 0xffffffffffffffff).vm st := by
  have hrun : ∃ st, (Command.map 1).run (generousHost 0xffffffffffffffff)
      { tableLen := 0x1000, descriptorsPerPage := 0x10 } = .ok (st, .success) := ⟨_, rfl⟩
  obtain ⟨st, hrun⟩ := hrun
  refine ⟨st, hrun, fun hb => ?_⟩
  have hk := kept_initial (generousHost 0xffffffffffffffff).vm 0x1000 0x10
  have hfits := (run_kept_iff hk hrun).1.mp hb
  have hlt := hfits { bits41 := 2, allocSize := 0xffffffffffffffff } rfl rfl
    ⟨by decide, by decide, by decide⟩
  exact absurd hlt (by decide)

end ReimsVgpu.IoSurface
