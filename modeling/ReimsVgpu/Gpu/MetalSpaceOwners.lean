import Mathlib.Algebra.Order.Group.Multiset
import Mathlib.Data.Multiset.MapFold
import ReimsVgpu.Gpu.MetalSpaceFit

/-!
# The owners of the runs of Metal's space

Each held run that can be released has one owner: a resource given out, a pool, or an array of one
of the two mempools. Every operation keeps this, with the resources given out as an account that it
adds to or takes from.

## Main definitions

* `MetalSpace.owners`: the resources that the space keeps for itself.
* `MetalSpace.Sound`: the resources given out and the space's own each hold a run of their own.

## Main results

* `MetalSpace.Sound.place`, `MetalSpace.Sound.pin`, `MetalSpace.Sound.release`: ranges.
* `MetalSpace.Sound.slot`, `MetalSpace.Sound.freeSlot`, `MetalSpace.Sound.free`: slots.
* `MetalSpace.Sound.firstUse`, `MetalSpace.Sound.samplerPool`, `MetalSpace.Sound.textureMade`,
  `MetalSpace.Sound.placeTexture`, `MetalSpace.Sound.placeSurface`: Metal's own work, and textures.
-/

namespace ReimsVgpu.Gpu

/-- The ranges that a resource takes. -/
def Holding.helds : Holding → Multiset Held
  | .nothing => 0
  | .range held => {held}
  | .slot _ => 0

/-- The ranges that some resources take. -/
def heldsOf (holdings : List Holding) : Multiset Held := (holdings.map Holding.helds).sum

/-- The ranges of some pools. -/
def poolHelds (pools : List Pool) : Multiset Held := pools.map Pool.held

namespace MetalSpace

/-- The ranges that the space keeps for itself: its pools' and its mempools'. -/
def owners (s : MetalSpace) : Multiset Held :=
  poolHelds s.pools + heldsOf s.elements.arrays + s.samplers.held.helds

/-- The ranges given out and the space's own hold runs of their own. -/
structure Sound (s : MetalSpace) (out : Multiset Held) : Prop extends Wf s where
  owned : (out + s.owners).map Held.run ≤ (s.held : Multiset (ℕ × ℕ))

variable {s : MetalSpace} {out out' : Multiset Held}

/-- The same runs, kept by fewer owners. -/
theorem Sound.regroup {s' : MetalSpace} (h : s.Sound out) (hheld : s'.held = s.held)
    (hdevice : s'.device = s.device) (hle : out' + s'.owners ≤ out + s.owners) :
    s'.Sound out' where
  runs := hheld ▸ h.runs
  device hd := hheld ▸ h.device (hdevice ▸ hd)
  owned := by
    rw [hheld]
    exact (Multiset.map_le_map hle).trans h.owned

theorem Sound.mono (h : s.Sound out) (hle : out' ≤ out) : s.Sound out' :=
  h.regroup rfl rfl (by gcongr)

/-! ### Ranges -/

theorem owners_makeDevice (s : MetalSpace) : s.makeDevice.owners = s.owners := by
  rw [MetalSpace.makeDevice]
  split_ifs <;> rfl

theorem Sound.makeDevice (h : s.Sound out) : s.makeDevice.Sound out where
  toWf := h.toWf.makeDevice
  owned := by
    rw [owners_makeDevice]
    refine h.owned.trans ?_
    cases hdevice : s.device with
    | false =>
      rw [h.device hdevice]
      exact Multiset.zero_le _
    | true =>
      rw [MetalSpace.makeDevice, hdevice]
      rfl

/-- A run made where none lies, for a resource given out. -/
theorem Sound.insert (h : s.Sound out) (hdevice : s.device = true) (held : Held)
    (hlt : held.run.1 < held.run.2)
    (hfree : ∀ e ∈ s.held, e.2 ≤ held.run.1 ∨ held.run.2 ≤ e.1) :
    Sound { s with held := RunMap.insert held.run.1 held.run.2 s.held } (held ::ₘ out) where
  toWf := h.toWf.insert hlt hfree hdevice
  owned := by
    have hperm := h.runs.insert_perm hfree hlt
    rw [Multiset.cons_add, Multiset.map_cons]
    refine (Multiset.cons_le_cons held.run h.owned).trans_eq ?_
    rw [Multiset.cons_coe, Multiset.coe_eq_coe]
    exact hperm.symm

theorem Sound.place (h : s.Sound out) (length : ℕ) :
    (s.place length).2.Sound ((s.place length).1.toList + out) := by
  by_cases hfits : ∃ b, FitsAt s.makeDevice.held length b
  · obtain ⟨b, hb⟩ := hfits
    obtain ⟨a, ha, -, hplace⟩ := h.toWf.place_of_fits hb
    rw [hplace]
    exact h.makeDevice.insert s.device_makeDevice (plainHeld length a)
      (Nat.lt_add_of_pos_right (plainLength_pos length)) ha.free
  · rw [h.toWf.place_of_not_fits (not_exists.mp hfits)]
    exact h.makeDevice.mono (zero_add out).le

theorem Sound.pin (h : s.Sound out) (address length : ℕ) :
    (s.pin address length).2.Sound ((s.pin address length).1.toOption.toList + out) := by
  cases hpin : (s.pin address length).1 with
  | error e =>
    obtain ⟨hspace, -⟩ := h.toWf.pin_eq_error hpin
    rw [hspace]
    exact h.makeDevice.mono (zero_add out).le
  | ok held =>
    obtain ⟨rfl, -, -, hfree, hspace⟩ := h.toWf.pin_eq_ok hpin
    rw [hspace]
    exact h.makeDevice.insert s.device_makeDevice (pinHeld address length)
      (pinFirst_lt_pinSpanEnd address length) hfree

theorem Sound.run_mem (h : s.Sound out) {held : Held} (hmem : held ∈ out + s.owners) :
    held.run ∈ s.held :=
  Multiset.mem_coe.mp (Multiset.mem_of_le h.owned (Multiset.mem_map_of_mem Held.run hmem))

theorem Sound.release {held : Held} (h : s.Sound (held ::ₘ out)) : (s.release held).Sound out where
  runs := h.runs.erase _
  device hd := by
    have hnone := h.device hd
    have hmem := h.run_mem (Multiset.mem_add.mpr (.inl (Multiset.mem_cons_self held out)))
    rw [hnone] at hmem
    exact absurd hmem List.not_mem_nil
  owned := by
    have hmem := h.run_mem (Multiset.mem_add.mpr (.inl (Multiset.mem_cons_self held out)))
    have hperm := h.runs.erase_perm hmem
    have hle := h.owned
    rw [Multiset.cons_add, Multiset.map_cons, ← Multiset.coe_eq_coe.mpr hperm,
      ← Multiset.cons_coe] at hle
    exact (Multiset.cons_le_cons_iff _).mp hle

/-! ### What a range leaves as it was -/

theorem pools_makeDevice (s : MetalSpace) : s.makeDevice.pools = s.pools := by
  rw [MetalSpace.makeDevice]
  split_ifs <;> rfl

theorem elements_makeDevice (s : MetalSpace) : s.makeDevice.elements = s.elements := by
  rw [MetalSpace.makeDevice]
  split_ifs <;> rfl

theorem samplers_makeDevice (s : MetalSpace) : s.makeDevice.samplers = s.samplers := by
  rw [MetalSpace.makeDevice]
  split_ifs <;> rfl

theorem pools_place (s : MetalSpace) (length : ℕ) : (s.place length).2.pools = s.pools := by
  rw [← s.pools_makeDevice, MetalSpace.place]
  repeat' split
  all_goals rfl

theorem elements_place (s : MetalSpace) (length : ℕ) :
    (s.place length).2.elements = s.elements := by
  rw [← s.elements_makeDevice, MetalSpace.place]
  repeat' split
  all_goals rfl

theorem samplers_place (s : MetalSpace) (length : ℕ) :
    (s.place length).2.samplers = s.samplers := by
  rw [← s.samplers_makeDevice, MetalSpace.place]
  repeat' split
  all_goals rfl

/-! ### Slots -/

theorem held_of_take {pool pool' : Pool} {bytes offset : ℕ}
    (h : pool.take bytes = some (offset, pool')) : pool'.held = pool.held := by
  obtain ⟨e, -, he⟩ := Option.map_eq_some_iff.mp h
  obtain ⟨-, rfl⟩ := Prod.mk.inj he
  rfl

theorem poolHelds_takeFrom {poolClass : PoolClass} {bytes : ℕ} {pools pools' : List Pool}
    {found : ℕ × ℕ} (h : takeFrom poolClass bytes pools = some (found, pools')) :
    poolHelds pools' = poolHelds pools := by
  induction pools generalizing pools' found with
  | nil => cases h
  | cons pool pools ih =>
    rw [takeFrom] at h
    split at h
    · next offset pool' htake =>
      obtain ⟨-, rfl⟩ := Prod.mk.inj (Option.some.inj h)
      split_ifs at htake
      rw [poolHelds, poolHelds, List.map_cons, List.map_cons, held_of_take htake]
    · obtain ⟨⟨found', pools''⟩, hrest, he⟩ := Option.map_eq_some_iff.mp h
      obtain ⟨-, rfl⟩ := Prod.mk.inj he
      rw [poolHelds, poolHelds, List.map_cons, List.map_cons, ← Multiset.cons_coe,
        ← Multiset.cons_coe]
      exact congrArg _ (ih hrest)

theorem poolHelds_append (pools pools' : List Pool) :
    poolHelds (pools ++ pools') = poolHelds pools + poolHelds pools' := by
  rw [poolHelds, List.map_append, ← Multiset.coe_add]
  rfl

theorem Sound.slot (h : s.Sound out) (poolClass : PoolClass) (length : ℕ) :
    (s.slot poolClass length).2.Sound out := by
  rw [MetalSpace.slot]
  split
  · exact h
  · next bytes _ =>
    split_ifs
    · exact h
    · split
      · next pool offset pools htake =>
        refine h.regroup rfl rfl ?_
        rw [owners, owners, poolHelds_takeFrom htake]
      · have hplace := h.place poolBytes
        have hpools := s.pools_place poolBytes
        split
        · next s' hs' =>
          rw [hs'] at hplace
          exact hplace.mono (zero_add out).ge
        · next held s' hs' =>
          rw [hs'] at hplace hpools
          have hout : out ≤ ((some held).toList : Multiset Held) + out := Multiset.le_add_left _ _
          split
          · exact hplace.mono hout
          · next offset pool' htake =>
            refine hplace.regroup rfl rfl ?_
            rw [owners, owners, poolHelds_append]
            have hnew : poolHelds [pool'] = {held} := by
              rw [poolHelds, List.map_singleton, held_of_take htake]
              rfl
            rw [hnew]
            refine le_of_eq ?_
            change _ = {held} + out + _
            ac_rfl

theorem elements_slot (s : MetalSpace) (poolClass : PoolClass) (length : ℕ) :
    (s.slot poolClass length).2.elements = s.elements := by
  have hplace := s.elements_place poolBytes
  rw [MetalSpace.slot]
  repeat' split
  all_goals first | rfl | simp_all

theorem samplers_slot (s : MetalSpace) (poolClass : PoolClass) (length : ℕ) :
    (s.slot poolClass length).2.samplers = s.samplers := by
  have hplace := s.samplers_place poolBytes
  rw [MetalSpace.slot]
  repeat' split
  all_goals first | rfl | simp_all

/-- A slot given back leaves each pool its range, and gives out that of a pool that goes. -/
theorem poolHelds_giveTo (slot : Slot) (pools : List Pool) :
    ((giveTo slot pools).1.toList : Multiset Held) + poolHelds (giveTo slot pools).2 =
      poolHelds pools := by
  induction pools with
  | nil => rfl
  | cons pool pools ih =>
    have hcons : poolHelds (pool :: pools) = {pool.held} + poolHelds pools := rfl
    have hheld : (pool.give slot.offset slot.bytes).held = pool.held := rfl
    simp only [giveTo]
    split_ifs
    · rw [hheld]
      exact hcons.symm
    · exact zero_add _
    · rw [hcons, ← ih]
      change _ + ({pool.held} + poolHelds (giveTo slot pools).2) = _
      ac_rfl

theorem Sound.freeSlot (h : s.Sound out) (slot : Slot) : (s.freeSlot slot).Sound out := by
  have hpools := poolHelds_giveTo slot s.pools
  rw [MetalSpace.freeSlot]
  generalize giveTo slot s.pools = given at hpools
  obtain ⟨gone, pools⟩ := given
  have hgive : Sound { s with pools } ((gone.toList : Multiset Held) + out) := by
    refine h.regroup rfl rfl (le_of_eq ?_)
    rw [owners, owners, ← hpools]
    ac_rfl
  cases gone with
  | none => exact hgive.mono (zero_add out).ge
  | some held => exact hgive.release

theorem Sound.free {holding : Holding} (h : s.Sound (holding.helds + out)) :
    (s.free holding).Sound out := by
  cases holding with
  | nothing => exact h.mono (zero_add out).ge
  | range held => exact h.release
  | slot slot => exact (h.mono (zero_add out).ge).freeSlot slot

theorem Sound.freeAll {holdings : List Holding} (h : s.Sound (heldsOf holdings + out)) :
    (s.freeAll holdings).Sound out := by
  induction holdings generalizing s with
  | nil => exact h.mono (zero_add out).ge
  | cons holding holdings ih =>
    refine ih (Sound.free ?_)
    rw [← add_assoc]
    exact h

/-! ### Metal's own arrays -/

theorem Sound.placeHolding (h : s.Sound out) (bytes : ℕ) :
    (s.place bytes).2.Sound (((s.place bytes).1.elim .nothing .range : Holding).helds + out) := by
  have hplace := h.place bytes
  cases hmade : (s.place bytes).1 with
  | none =>
    rw [hmade] at hplace
    exact hplace
  | some held =>
    rw [hmade] at hplace
    exact hplace

theorem Sound.slotHolding (h : s.Sound out) (poolClass : PoolClass) (bytes : ℕ) :
    (s.slot poolClass bytes).2.Sound
      (((s.slot poolClass bytes).1.elim .nothing .slot : Holding).helds + out) := by
  have hslot := h.slot poolClass bytes
  cases (s.slot poolClass bytes).1 with
  | none => exact hslot.mono (zero_add out).le
  | some slot => exact hslot.mono (zero_add out).le

theorem Sound.ownArray (h : s.Sound out) (bytes : ℕ) :
    (s.ownArray bytes).2.Sound ((s.ownArray bytes).1.helds + out) := by
  rw [MetalSpace.ownArray]
  split_ifs
  · have hslot := h.slotHolding .shared bytes
    generalize s.slot .shared bytes = made at hslot ⊢
    obtain ⟨taken, s₁⟩ := made
    exact hslot
  · have hplace := h.placeHolding bytes
    generalize s.place bytes = made at hplace ⊢
    obtain ⟨taken, s₁⟩ := made
    exact hplace

theorem elements_ownArray (s : MetalSpace) (bytes : ℕ) :
    (s.ownArray bytes).2.elements = s.elements := by
  rw [MetalSpace.ownArray]
  split_ifs
  · have hslot := s.elements_slot .shared bytes
    generalize s.slot .shared bytes = made at hslot ⊢
    obtain ⟨taken, s₁⟩ := made
    exact hslot
  · have hplace := s.elements_place bytes
    generalize s.place bytes = made at hplace ⊢
    obtain ⟨taken, s₁⟩ := made
    exact hplace

theorem samplers_ownArray (s : MetalSpace) (bytes : ℕ) :
    (s.ownArray bytes).2.samplers = s.samplers := by
  rw [MetalSpace.ownArray]
  split_ifs
  · have hslot := s.samplers_slot .shared bytes
    generalize s.slot .shared bytes = made at hslot ⊢
    obtain ⟨taken, s₁⟩ := made
    exact hslot
  · have hplace := s.samplers_place bytes
    generalize s.place bytes = made at hplace ⊢
    obtain ⟨taken, s₁⟩ := made
    exact hplace

theorem Sound.ownArrays (h : s.Sound out) (sizes : List ℕ) :
    (s.ownArrays sizes).2.Sound (heldsOf (s.ownArrays sizes).1 + out) := by
  induction sizes generalizing s out with
  | nil => exact h.mono (zero_add out).le
  | cons bytes sizes ih =>
    have hrest := ih (h.ownArray bytes)
    refine hrest.mono (le_of_eq ?_)
    change ((s.ownArray bytes).1.helds + heldsOf ((s.ownArray bytes).2.ownArrays sizes).1) + out = _
    ac_rfl

theorem elements_ownArrays (s : MetalSpace) (sizes : List ℕ) :
    (s.ownArrays sizes).2.elements = s.elements := by
  induction sizes generalizing s with
  | nil => rfl
  | cons bytes sizes ih => exact (ih (s.ownArray bytes).2).trans (s.elements_ownArray bytes)

theorem samplers_ownArrays (s : MetalSpace) (sizes : List ℕ) :
    (s.ownArrays sizes).2.samplers = s.samplers := by
  induction sizes generalizing s with
  | nil => rfl
  | cons bytes sizes ih => exact (ih (s.ownArray bytes).2).trans (s.samplers_ownArray bytes)

theorem Sound.samplerPool (h : s.Sound out) (size : ℕ) : (s.samplerPool size).Sound out := by
  rw [MetalSpace.samplerPool]
  have hcounted : Sound { s with samplers.pool := max s.samplers.pool size } out :=
    h.regroup rfl rfl le_rfl
  generalize { s with samplers.pool := max s.samplers.pool size } = s' at hcounted
  dsimp only
  split_ifs
  · have hmade := hcounted.ownArray (min (s'.samplers.pool * elementBytes) (2 ^ 64 - 1))
    refine Sound.free (hmade.regroup rfl rfl (le_of_eq ?_))
    rw [owners, owners]
    ac_rfl
  · exact hcounted

theorem Sound.setup (h : s.Sound out) : s.setup.Sound out := by
  rw [MetalSpace.setup]
  split_ifs
  · exact h
  · have hgrown : Sound { s with elements.array := firstArray } out := h.regroup rfl rfl le_rfl
    have harrays := hgrown.ownArrays [firstArray, firstArray, firstArray / 4]
    dsimp only
    generalize { s with elements.array := firstArray }.ownArrays
      [firstArray, firstArray, firstArray / 4] = made at harrays
    obtain ⟨arrays, s₁⟩ := made
    have hkept : Sound { s₁ with elements.arrays := arrays, samplers.array := firstArray } out := by
      refine harrays.regroup rfl rfl ?_
      change out + (poolHelds s₁.pools + heldsOf arrays + s₁.samplers.held.helds) ≤
        heldsOf arrays + out + (poolHelds s₁.pools + heldsOf s₁.elements.arrays +
          s₁.samplers.held.helds)
      calc out + (poolHelds s₁.pools + heldsOf arrays + s₁.samplers.held.helds)
          = heldsOf arrays + out + (poolHelds s₁.pools + 0 + s₁.samplers.held.helds) := by
            rw [add_zero]
            ac_rfl
        _ ≤ heldsOf arrays + out + (poolHelds s₁.pools + heldsOf s₁.elements.arrays +
              s₁.samplers.held.helds) := by
            gcongr
            exact Multiset.zero_le _
    have harray := hkept.ownArray firstArray
    generalize { s₁ with elements.arrays := arrays, samplers.array := firstArray }.ownArray
      firstArray = made at harray
    obtain ⟨array, s₂⟩ := made
    have hheld : Sound { s₂ with samplers.held := array } out := by
      refine harray.regroup rfl rfl ?_
      change out + (poolHelds s₂.pools + heldsOf s₂.elements.arrays + array.helds) ≤
        array.helds + out + (poolHelds s₂.pools + heldsOf s₂.elements.arrays +
          s₂.samplers.held.helds)
      calc out + (poolHelds s₂.pools + heldsOf s₂.elements.arrays + array.helds)
          = array.helds + out + (poolHelds s₂.pools + heldsOf s₂.elements.arrays + 0) := by
            rw [add_zero]
            ac_rfl
        _ ≤ array.helds + out + (poolHelds s₂.pools + heldsOf s₂.elements.arrays +
              s₂.samplers.held.helds) := by
            gcongr
            exact Multiset.zero_le _
    exact ((hheld.slot .shared sharedSetup).slot .private privateSetup).samplerPool _

/-! ### First uses and textures -/

theorem Sound.makeOwn (h : s.Sound out) (own : Own) : (s.makeOwn own).Sound out := by
  rw [MetalSpace.makeOwn]
  split_ifs
  · exact h
  · have hnoted : Sound { s with own := own :: s.own } out := h.regroup rfl rfl le_rfl
    have hplace := hnoted.place own.bytes
    generalize { s with own := own :: s.own }.place own.bytes = made at hplace
    obtain ⟨held, s'⟩ := made
    have hleft : s'.Sound out := hplace.mono (Multiset.le_add_left _ _)
    dsimp only
    split
    · next poolClass held _ =>
      refine hplace.regroup rfl rfl (le_of_eq ?_)
      rw [owners, owners, poolHelds_append]
      have hnew : poolHelds [Pool.new poolClass held true] = {held} := rfl
      rw [hnew]
      change _ = {held} + out + _
      ac_rfl
    · exact hleft

theorem Sound.firstUse (h : s.Sound out) (first : FirstUse) : (s.firstUse first).Sound out := by
  have hmade : ((allocations first).foldl MetalSpace.makeOwn s).Sound out := by
    generalize allocations first = owns
    induction owns generalizing s with
    | nil => exact h
    | cons own owns ih => exact ih (h.makeOwn own)
  cases first with
  | queue => exact hmade.setup
  | texture => exact hmade.setup
  | _ => exact hmade

theorem Sound.textureMade (h : s.Sound out) : s.textureMade.Sound out := by
  by_cases hfull : 0 < s.elements.array ∧ s.elements.array / elementBytes ≤ s.elements.live + 1
  · have hgrown : Sound
        { s with
          elements.live := s.elements.live + 1
          elements.array := s.elements.array * 2 } out :=
      h.regroup rfl rfl le_rfl
    have hmade := hgrown.ownArrays
      [s.elements.array * 2, s.elements.array * 2, s.elements.array * 2 / 4]
    generalize hs₁ : { s with
        elements.live := s.elements.live + 1
        elements.array := s.elements.array * 2 }.ownArrays
      [s.elements.array * 2, s.elements.array * 2, s.elements.array * 2 / 4] = made at hmade
    obtain ⟨arrays, s₁⟩ := made
    rw [textureMade_of_full hfull hs₁]
    refine Sound.freeAll (hmade.regroup rfl rfl (le_of_eq ?_))
    rw [owners, owners]
    ac_rfl
  · rw [textureMade_of_not_full hfull]
    exact h.regroup rfl rfl le_rfl

theorem Sound.textureGone (h : s.Sound out) : s.textureGone.Sound out :=
  h.regroup rfl rfl le_rfl

theorem Sound.placeTexture (h : s.Sound out) (kind : TextureKind) :
    (s.placeTexture kind).2.Sound ((s.placeTexture kind).1.helds + out) := by
  have hnone := h.textureMade.mono (zero_add out).le
  have hused := (h.firstUse .texture).textureMade
  cases hspace : textureSpace kind with
  | none =>
    rw [placeTexture_of_bare s (.inl hspace)]
    exact hnone
  | surface =>
    rw [placeTexture_of_bare s (.inr hspace)]
    exact hnone
  | own bytes =>
    have hplace := hused.placeHolding bytes
    generalize hmade : (s.firstUse .texture).textureMade.place bytes = made at hplace
    obtain ⟨held, s₁⟩ := made
    rw [placeTexture_of_own hspace hmade]
    exact hplace
  | slot poolClass bytes =>
    have hslot := hused.slotHolding poolClass bytes
    generalize hmade : (s.firstUse .texture).textureMade.slot poolClass bytes = made at hslot
    obtain ⟨slot, s₁⟩ := made
    rw [placeTexture_of_slot hspace hmade]
    exact hslot

theorem Sound.placeSurface (h : s.Sound out) (allocSize : ℕ) :
    (s.placeSurface allocSize).2.Sound ((s.placeSurface allocSize).1.toList + out) :=
  (h.firstUse .texture).place allocSize

end MetalSpace

end ReimsVgpu.Gpu
