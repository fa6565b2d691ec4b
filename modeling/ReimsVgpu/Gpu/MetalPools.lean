import Mathlib.Algebra.Order.BigOperators.Group.Multiset
import ReimsVgpu.Gpu.MetalPool
import ReimsVgpu.Gpu.MetalSpaceOwners

/-!
# The pools of Metal's space

Each pool holds the live slots that name its address, and no other. Pools have addresses of their own, and
one that no first use made goes with its last slot, so a live slot names the pool it was taken from.

## Main definitions

* `inPool`: the slots that name an address.
* `PoolsHold`: what the pools keep of the live slots.
* `MetalSpace.Pooled`: what a space keeps of them, beside its own.

## Main results

* `PoolsHold.takeFrom`, `PoolsHold.giveTo`: one slot.
* `MetalSpace.Pooled.slot`, `MetalSpace.Pooled.freeSlot`, and those of the operations above them.
-/

namespace ReimsVgpu.Gpu

open MetalSpace (takeFrom giveTo)

/-! ### A list of pools -/

/-- The slots that name a pool's address. -/
def inPool (slots : Multiset Slot) (address : ℕ) : Multiset Slot := slots.filter (·.pool = address)

theorem inPool_cons_self (slot : Slot) (slots : Multiset Slot) :
    inPool (slot ::ₘ slots) slot.pool = slot ::ₘ inPool slots slot.pool :=
  Multiset.filter_cons_of_pos _ rfl

theorem inPool_cons_of_ne {slot : Slot} {address : ℕ} (h : address ≠ slot.pool)
    (slots : Multiset Slot) : inPool (slot ::ₘ slots) address = inPool slots address :=
  Multiset.filter_cons_of_neg _ (Ne.symm h)

/-- Each pool holds the live slots that name it, one that is not kept has such a slot, and every live slot
names one pool. -/
structure PoolsHold (pools : List Pool) (live : Multiset Slot) : Prop where
  holds : ∀ pool ∈ pools, pool.Holds (inPool live pool.held.address)
  used : ∀ pool ∈ pools, pool.kept = false → inPool live pool.held.address ≠ 0
  named : ∀ slot ∈ live, ∃ pool ∈ pools, pool.held.address = slot.pool
  nodup : (pools.map fun pool => pool.held.address).Nodup
  start : ∀ pool ∈ pools, pool.held.address = pool.held.pages.start

theorem poolsHold_nil : PoolsHold [] 0 where
  holds _ h := absurd h List.not_mem_nil
  used _ h := absurd h List.not_mem_nil
  named _ h := absurd h (Multiset.notMem_zero _)
  nodup := .nil
  start _ h := absurd h List.not_mem_nil

variable {pools pre post : List Pool} {pool pool' : Pool} {live live' : Multiset Slot}

/-- Pools on either side of one have other addresses. -/
theorem PoolsHold.address_ne (h : PoolsHold (pre ++ pool :: post) live) {p : Pool}
    (hp : p ∈ pre ++ post) : p.held.address ≠ pool.held.address := by
  have hnodup := h.nodup
  rw [List.map_append, List.map_cons] at hnodup
  obtain ⟨hnot, -⟩ := List.nodup_middle.mp hnodup |> List.nodup_cons.mp
  intro heq
  refine hnot ?_
  rw [← List.map_append, ← heq]
  exact List.mem_map_of_mem hp

theorem PoolsHold.unique (h : PoolsHold pools live) {p p' : Pool} (hp : p ∈ pools) (hp' : p' ∈ pools)
    (heq : p.held.address = p'.held.address) : p = p' :=
  List.inj_on_of_nodup_map h.nodup hp hp' heq

/-- One pool changed, and its own live slots with it. -/
theorem PoolsHold.update (h : PoolsHold (pre ++ pool :: post) live) (hheld : pool'.held = pool.held)
    (hother : ∀ address, address ≠ pool.held.address → inPool live' address = inPool live address)
    (hmem : ∀ slot ∈ live', slot.pool = pool.held.address ∨ slot ∈ live)
    (hholds : pool'.Holds (inPool live' pool.held.address))
    (hused : pool'.kept = false → inPool live' pool.held.address ≠ 0) :
    PoolsHold (pre ++ pool' :: post) live' := by
  have hcases {p : Pool} (hp : p ∈ pre ++ pool' :: post) : p = pool' ∨ p ∈ pre ++ post := by
    rcases List.mem_append.mp hp with hp | hp
    · exact .inr (List.mem_append_left _ hp)
    · exact (List.mem_cons.mp hp).imp id (List.mem_append_right _)
  have hold {p : Pool} (hp : p ∈ pre ++ post) : p ∈ pre ++ pool :: post :=
    (List.mem_append.mp hp).elim (List.mem_append_left _)
      fun hp => List.mem_append_right _ (List.mem_cons_of_mem _ hp)
  refine ⟨fun p hp => ?_, fun p hp hkept => ?_, fun slot hslot => ?_, ?_, fun p hp => ?_⟩
  · rcases hcases hp with rfl | hp
    · rwa [hheld]
    · rw [hother _ (h.address_ne hp)]
      exact h.holds p (hold hp)
  · rcases hcases hp with rfl | hp
    · rw [hheld]
      exact hused hkept
    · rw [hother _ (h.address_ne hp)]
      exact h.used p (hold hp) hkept
  · rcases hmem slot hslot with hpool | hslot
    · exact ⟨pool', List.mem_append_right _ List.mem_cons_self, by rw [hheld, hpool]⟩
    · obtain ⟨p, hp, heq⟩ := h.named slot hslot
      rcases List.mem_append.mp hp with hp | hp
      · exact ⟨p, List.mem_append_left _ hp, heq⟩
      · rcases List.mem_cons.mp hp with rfl | hp
        · exact ⟨pool', List.mem_append_right _ List.mem_cons_self, by rw [hheld, heq]⟩
        · exact ⟨p, List.mem_append_right _ (List.mem_cons_of_mem _ hp), heq⟩
  · have hnodup := h.nodup
    rw [List.map_append, List.map_cons] at hnodup ⊢
    rwa [hheld]
  · rcases hcases hp with rfl | hp
    · rw [hheld]
      exact h.start pool (List.mem_append_right _ List.mem_cons_self)
    · exact h.start p (hold hp)

/-- A slot that a list of pools gives: from the first pool of its class where it fits, at the lowest offset. -/
structure TakenFrom (poolClass : PoolClass) (bytes : ℕ) (pools pools' : List Pool) (slot : Slot) :
    Prop where
  size : slot.bytes = bytes
  from_first : ∃ pre pool post pool', pools = pre ++ pool :: post ∧ pools' = pre ++ pool' :: post ∧
    pool.poolClass = poolClass ∧ pool.held.address = slot.pool ∧
    (pool'.poolClass = pool.poolClass ∧ pool'.held = pool.held ∧ pool'.kept = pool.kept) ∧
    (∀ p ∈ pre, p.poolClass = poolClass → ∀ o, ¬ p.Fits bytes o) ∧
    IsLeast {o | pool.Fits bytes o} slot.offset

theorem PoolsHold.takeFrom {poolClass : PoolClass} {bytes : ℕ} (h : PoolsHold pools live)
    (hpos : 0 < bytes) (hmod : bytes % slotStep = 0) :
    (∃ address offset pools', takeFrom poolClass bytes pools = some ((address, offset), pools') ∧
      TakenFrom poolClass bytes pools pools' ⟨address, offset, bytes⟩ ∧
      PoolsHold pools' (⟨address, offset, bytes⟩ ::ₘ live)) ∨
    takeFrom poolClass bytes pools = none ∧
      ∀ p ∈ pools, p.poolClass = poolClass → ∀ o, ¬ p.Fits bytes o := by
  -- the pools before the one at hand have no room
  suffices hloop : ∀ pre rest, pools = pre ++ rest →
      (∀ p ∈ pre, p.poolClass = poolClass → ∀ o, ¬ p.Fits bytes o) →
      (∃ address offset rest', MetalSpace.takeFrom poolClass bytes rest =
          some ((address, offset), rest') ∧
        TakenFrom poolClass bytes pools (pre ++ rest') ⟨address, offset, bytes⟩ ∧
        PoolsHold (pre ++ rest') (⟨address, offset, bytes⟩ ::ₘ live)) ∨
      MetalSpace.takeFrom poolClass bytes rest = none ∧
        ∀ p ∈ rest, p.poolClass = poolClass → ∀ o, ¬ p.Fits bytes o by
    exact hloop [] pools rfl fun p hp => absurd hp List.not_mem_nil
  intro pre rest
  induction rest generalizing pre with
  | nil => exact fun _ _ => .inr ⟨rfl, fun p hp => absurd hp List.not_mem_nil⟩
  | cons pool rest ih =>
    intro hpools hpre
    have hmem : pool ∈ pools := by
      rw [hpools]
      exact List.mem_append_right _ List.mem_cons_self
    rw [MetalSpace.takeFrom]
    by_cases hclass : pool.poolClass = poolClass
    · rw [if_pos hclass]
      rcases (h.holds pool hmem).take hpos hmod with ⟨offset, free, htake, hleast, hholds⟩ | ⟨htake, hnone⟩
      · rw [htake]
        refine .inl ⟨pool.held.address, offset, _, rfl,
          ⟨rfl, pre, pool, rest, _, hpools, rfl, hclass, rfl, ⟨rfl, rfl, rfl⟩, hpre, hleast⟩, ?_⟩
        rw [hpools] at h
        refine h.update rfl (fun address hne => inPool_cons_of_ne hne live)
          (fun slot hslot => (Multiset.mem_cons.mp hslot).imp (fun heq => by rw [heq]) id) ?_ fun _ => ?_
        · exact (inPool_cons_self ⟨pool.held.address, offset, bytes⟩ live).symm ▸ hholds _
        · exact (inPool_cons_self ⟨pool.held.address, offset, bytes⟩ live).symm ▸
            Multiset.cons_ne_zero
      · rw [htake]
        have hpre' : ∀ p ∈ pre ++ [pool], p.poolClass = poolClass → ∀ o, ¬ p.Fits bytes o :=
          fun p hp hp' => (List.mem_append.mp hp).elim (fun hp => hpre p hp hp')
            fun hp => by
              rw [List.mem_singleton.mp hp]
              exact hnone
        rcases ih (pre ++ [pool]) (by rw [hpools, List.append_assoc, List.singleton_append]) hpre' with
          ⟨address, offset, rest', hrest, htaken, hhold⟩ | ⟨hrest, hall⟩
        · rw [List.append_assoc, List.singleton_append] at htaken hhold
          dsimp only
          rw [hrest]
          exact .inl ⟨address, offset, pool :: rest', rfl, htaken, hhold⟩
        · dsimp only
          rw [hrest]
          exact .inr ⟨rfl, List.forall_mem_cons.mpr ⟨fun _ => hnone, hall⟩⟩
    · rw [if_neg hclass]
      have hpre' : ∀ p ∈ pre ++ [pool], p.poolClass = poolClass → ∀ o, ¬ p.Fits bytes o :=
        fun p hp hp' => (List.mem_append.mp hp).elim (fun hp => hpre p hp hp')
          fun hp => absurd (by rw [← List.mem_singleton.mp hp]; exact hp') hclass
      rcases ih (pre ++ [pool]) (by rw [hpools, List.append_assoc, List.singleton_append]) hpre' with
        ⟨address, offset, rest', hrest, htaken, hhold⟩ | ⟨hrest, hall⟩
      · rw [List.append_assoc, List.singleton_append] at htaken hhold
        dsimp only
        rw [hrest]
        exact .inl ⟨address, offset, pool :: rest', rfl, htaken, hhold⟩
      · dsimp only
        rw [hrest]
        exact .inr ⟨rfl, List.forall_mem_cons.mpr ⟨fun hp => absurd hp hclass, hall⟩⟩

/-- A slot given back: its pool goes with the last slot of it, unless it is kept, and else has its bytes
free; no other pool changes. -/
theorem PoolsHold.giveTo {slot : Slot} (h : PoolsHold pools (slot ::ₘ live)) :
    ∃ pre pool post, pools = pre ++ pool :: post ∧ pool.held.address = slot.pool ∧
      ((pool.kept = false ∧ inPool live slot.pool = 0 ∧
          giveTo slot pools = (some pool.held, pre ++ post) ∧ PoolsHold (pre ++ post) live) ∨
        ((pool.kept = true ∨ inPool live slot.pool ≠ 0) ∧
          giveTo slot pools = (none, pre ++ pool.give slot.offset slot.bytes :: post) ∧
          PoolsHold (pre ++ pool.give slot.offset slot.bytes :: post) live)) := by
  obtain ⟨pool, hmem, haddress⟩ := h.named slot (Multiset.mem_cons_self slot live)
  obtain ⟨pre, post, rfl⟩ := List.append_of_mem hmem
  have hholds := h.holds pool hmem
  rw [haddress, inPool_cons_self] at hholds
  have hgiven := hholds.give
  have hrest : ∀ address, address ≠ pool.held.address →
      inPool live address = inPool (slot ::ₘ live) address := fun address hne =>
    (inPool_cons_of_ne (by rwa [← haddress]) live).symm
  -- the slots of a pool have bytes, so it has none live just where none are used
  have hempty : (pool.give slot.offset slot.bytes).used = 0 ↔ inPool live slot.pool = 0 := by
    rw [hgiven.used]
    constructor
    · intro hzero
      refine Multiset.eq_zero_of_forall_notMem fun s hs => ?_
      have hle := Multiset.single_le_sum (fun _ _ => Nat.zero_le _) s.bytes
        (Multiset.mem_map_of_mem Slot.bytes hs)
      have hpos := (hgiven.aligned s hs).2.2
      omega
    · intro hzero
      rw [hzero]
      rfl
  have hgive : MetalSpace.giveTo slot (pre ++ pool :: post) =
      if (pool.give slot.offset slot.bytes).used = 0 ∧ !pool.kept then
        (some pool.held, pre ++ post)
      else (none, pre ++ pool.give slot.offset slot.bytes :: post) := by
    have hne : ∀ p ∈ pre, p.held.address ≠ slot.pool := fun p hp => by
      rw [← haddress]
      exact h.address_ne (List.mem_append_left _ hp)
    clear hholds hgiven hrest hempty h hmem
    induction pre with
    | nil =>
      rw [List.nil_append, MetalSpace.giveTo, if_pos haddress]
      rfl
    | cons p pre ih =>
      obtain ⟨hp, hne⟩ := List.forall_mem_cons.mp hne
      rw [List.cons_append, MetalSpace.giveTo, if_neg hp, ih hne]
      split_ifs <;> rfl
  refine ⟨pre, pool, post, rfl, haddress, ?_⟩
  rw [hgive]
  by_cases hgone : (pool.give slot.offset slot.bytes).used = 0 ∧ !pool.kept
  · have hnone := hempty.mp hgone.1
    have hold {p : Pool} (hp : p ∈ pre ++ post) : p ∈ pre ++ pool :: post :=
      (List.mem_append.mp hp).elim (List.mem_append_left _)
        fun hp => List.mem_append_right _ (List.mem_cons_of_mem _ hp)
    rw [if_pos hgone]
    refine .inl ⟨by simpa using hgone.2, hnone, rfl, fun p hp => ?_, fun p hp hkept => ?_,
      fun s hs => ?_, ?_, fun p hp => h.start p (hold hp)⟩
    · rw [hrest _ (h.address_ne hp)]
      exact h.holds p (hold hp)
    · rw [hrest _ (h.address_ne hp)]
      exact h.used p (hold hp) hkept
    · obtain ⟨p, hp, heq⟩ := h.named s (Multiset.mem_cons_of_mem hs)
      rcases List.mem_append.mp hp with hp | hp
      · exact ⟨p, List.mem_append_left _ hp, heq⟩
      · rcases List.mem_cons.mp hp with rfl | hp
        · have hlast : s ∈ inPool live slot.pool :=
            Multiset.mem_filter.mpr ⟨hs, heq.symm.trans haddress⟩
          rw [hnone] at hlast
          exact absurd hlast (Multiset.notMem_zero s)
        · exact ⟨p, List.mem_append_right _ hp, heq⟩
    · have hnodup := h.nodup
      rw [List.map_append, List.map_cons] at hnodup
      rw [List.map_append]
      exact (List.nodup_cons.mp (List.nodup_middle.mp hnodup)).2
  · have hstays : pool.kept = true ∨ inPool live slot.pool ≠ 0 := by
      by_contra hnot
      rw [not_or, not_not] at hnot
      exact hgone ⟨hempty.mpr hnot.2, by simpa using hnot.1⟩
    rw [if_neg hgone]
    refine .inr ⟨hstays, rfl, h.update rfl hrest (fun s hs => ?_) ?_ fun hkept => ?_⟩
    · exact .inr (Multiset.mem_cons_of_mem hs)
    · rwa [haddress]
    · rw [haddress]
      exact hstays.resolve_left (by rw [show pool.kept = false from hkept]; decide)

/-- A pool made at an address of its own, with the slots that name it. -/
theorem PoolsHold.append (h : PoolsHold pools live) (hstart : pool.held.address = pool.held.pages.start)
    (hfresh : pool.held.address ∉ pools.map fun pool => pool.held.address)
    {slots : Multiset Slot} (hslots : ∀ slot ∈ slots, slot.pool = pool.held.address)
    (hholds : pool.Holds slots) (hused : pool.kept = false → slots ≠ 0) :
    PoolsHold (pools ++ [pool]) (slots + live) := by
  have hnew : inPool live pool.held.address = 0 := by
    refine Multiset.filter_eq_nil.mpr fun s hs heq => ?_
    obtain ⟨p, hp, hpool⟩ := h.named s hs
    refine hfresh ?_
    rw [← heq, ← hpool]
    exact List.mem_map_of_mem hp
  have hself : inPool (slots + live) pool.held.address = slots := by
    unfold inPool at hnew ⊢
    rw [Multiset.filter_add, hnew, add_zero]
    exact Multiset.filter_eq_self.mpr hslots
  have hother {p : Pool} (hp : p ∈ pools) :
      inPool (slots + live) p.held.address = inPool live p.held.address := by
    have hne : inPool slots p.held.address = 0 := by
      refine Multiset.filter_eq_nil.mpr fun s hs heq => hfresh ?_
      rw [← hslots s hs, heq]
      exact List.mem_map_of_mem hp
    unfold inPool at hne ⊢
    rw [Multiset.filter_add, hne, zero_add]
  refine ⟨fun p hp => ?_, fun p hp hkept => ?_, fun s hs => ?_, ?_, fun p hp => ?_⟩
  · rcases List.mem_append.mp hp with hp | hp
    · rw [hother hp]
      exact h.holds p hp
    · rw [List.mem_singleton.mp hp, hself]
      exact hholds
  · rcases List.mem_append.mp hp with hp | hp
    · rw [hother hp]
      exact h.used p hp hkept
    · rw [List.mem_singleton.mp hp] at hkept ⊢
      rw [hself]
      exact hused hkept
  · rcases Multiset.mem_add.mp hs with hs | hs
    · exact ⟨pool, List.mem_append_right _ (List.mem_singleton.mpr rfl), (hslots s hs).symm⟩
    · obtain ⟨p, hp, heq⟩ := h.named s hs
      exact ⟨p, List.mem_append_left _ hp, heq⟩
  · rw [List.map_append, List.nodup_append]
    refine ⟨h.nodup, List.nodup_singleton _, fun a ha b hb heq => hfresh ?_⟩
    have haddress : b = pool.held.address := List.mem_singleton.mp hb
    rw [← haddress, ← heq]
    exact ha
  · rcases List.mem_append.mp hp with hp | hp
    · exact h.start p hp
    · rw [List.mem_singleton.mp hp]
      exact hstart

/-! ### A space -/

/-- The slots that a resource takes. -/
def Holding.slots : Holding → Multiset Slot
  | .nothing => 0
  | .range _ => 0
  | .slot taken => {taken}

/-- The slots that some resources take. -/
def slotsOf (holdings : List Holding) : Multiset Slot := (holdings.map Holding.slots).sum

namespace MetalSpace

/-- The slots of a space's own arrays. -/
def ownSlots (s : MetalSpace) : Multiset Slot := slotsOf s.elements.arrays + s.samplers.held.slots

/-- The pools hold the slots given out and the space's own. Before the first setup there are no arrays. -/
structure Pooled (s : MetalSpace) (out : Multiset Slot) : Prop where
  pools : PoolsHold s.pools (out + s.ownSlots)
  unset : s.elements.array = 0 →
    s.elements.arrays = [] ∧ s.samplers.array = 0 ∧ s.samplers.held = .nothing

variable {s s' : MetalSpace} {out out' : Multiset Slot} {helds : Multiset Held}

/-- The same pools, with the slots in other hands. -/
theorem Pooled.regroup (h : s.Pooled out) (hpools : s'.pools = s.pools)
    (hslots : out' + s'.ownSlots = out + s.ownSlots)
    (hunset : s'.elements.array = 0 →
      s'.elements.arrays = [] ∧ s'.samplers.array = 0 ∧ s'.samplers.held = .nothing) :
    s'.Pooled out' where
  pools := by
    rw [hpools, hslots]
    exact h.pools
  unset := hunset

/-- The same pools and arrays. -/
theorem Pooled.same (h : s.Pooled out) (hpools : s'.pools = s.pools)
    (helements : s'.elements = s.elements) (hsamplers : s'.samplers = s.samplers) : s'.Pooled out := by
  refine h.regroup hpools ?_ ?_
  · rw [ownSlots, ownSlots, helements, hsamplers]
  · rw [helements, hsamplers]
    exact h.unset

theorem Pooled.place (h : s.Pooled out) (length : ℕ) : (s.place length).2.Pooled out :=
  h.same (s.pools_place length) (s.elements_place length) (s.samplers_place length)

/-- A range that was placed is at its first byte. -/
theorem Wf.start_of_place (hs : s.Wf) {length : ℕ} {held : Held}
    (h : (s.place length).1 = some held) : held.address = held.pages.start := by
  obtain ⟨a, rfl, -⟩ := hs.place_eq_some h
  rfl

/-- A range given out has another address than the pools. -/
theorem Sound.address_notMem {held : Held} (h : s.Sound (held ::ₘ helds))
    (hheld : held.address = held.pages.start)
    (hpools : ∀ pool ∈ s.pools, pool.held.address = pool.held.pages.start) :
    held.address ∉ s.pools.map fun pool => pool.held.address := by
  intro hmem
  obtain ⟨pool, hpool, heq⟩ := List.mem_map.mp hmem
  have hstart : held.pages.start = pool.held.pages.start := by
    rw [← hheld, ← heq]
    exact hpools pool hpool
  have hpoolMem : pool.held ∈ helds + s.owners := by
    refine Multiset.mem_add.mpr (.inr ?_)
    unfold owners poolHelds
    rw [Multiset.mem_add, Multiset.mem_add]
    exact .inl (.inl (Multiset.mem_coe.mpr (List.mem_map_of_mem hpool)))
  -- two owners of one run, which is held once
  have hrun := h.run_mem (Multiset.mem_add.mpr (.inl (Multiset.mem_cons_self held helds)))
  have hpoolRun : pool.held.run ∈ s.held := h.run_mem (by
    rw [Multiset.cons_add]
    exact Multiset.mem_cons_of_mem hpoolMem)
  have hsame : held.run = pool.held.run := h.runs.eq_of_key hrun hpoolRun hstart
  have howned := h.owned
  rw [Multiset.cons_add, Multiset.map_cons] at howned
  have hnodup := Multiset.nodup_of_le howned (Multiset.coe_nodup.mpr h.runs.nodup)
  refine (Multiset.nodup_cons.mp hnodup).1 ?_
  rw [hsame]
  exact Multiset.mem_map_of_mem Held.run hpoolMem

theorem nextMultipleOf_pos {n k : ℕ} (hk : 0 < k) (hn : 0 < n) : 0 < nextMultipleOf n k :=
  hn.trans_le (le_nextMultipleOf hk n)

/-- A new pool's slot is at its first byte. -/
theorem take_new (poolClass : PoolClass) (held : Held) {bytes : ℕ} (hpos : 0 < bytes)
    (hmod : bytes % slotStep = 0) (hle : bytes ≤ poolBytes) :
    ∃ pool, (Pool.new poolClass held false).take bytes = some (0, pool) ∧
      pool.poolClass = poolClass ∧ pool.held = held ∧ pool.kept = false ∧
      ∀ address, pool.Holds {⟨address, 0, bytes⟩} := by
  have hfits : (Pool.new poolClass held false).Fits bytes 0 := fun x hx => by
    refine ⟨(0, poolBytes), List.mem_singleton.mpr rfl, Nat.zero_le x, ?_⟩
    have hlt := hx.2
    dsimp only
    omega
  rcases (Pool.holds_new poolClass held false).take hpos hmod with
    ⟨offset, free, htake, hleast, hholds⟩ | ⟨-, hnone⟩
  · obtain rfl : offset = 0 := Nat.le_zero.mp (hleast.2 hfits)
    exact ⟨_, htake, rfl, rfl, rfl, hholds⟩
  · exact absurd hfits (hnone 0)

/-- What a slot asked for comes to. -/
structure SlotAnswers (s : MetalSpace) (poolClass : PoolClass) (length : ℕ) : Prop where
  refused : (s.slot poolClass length).1 = none → (s.slot poolClass length).2.pools = s.pools ∧
    ∀ p ∈ s.pools, p.poolClass = poolClass →
      ∀ o, ¬ p.Fits (nextMultipleOf (max length 1) slotStep) o
  taken : ∀ slot, (s.slot poolClass length).1 = some slot →
    TakenFrom poolClass (nextMultipleOf (max length 1) slotStep) s.pools
        (s.slot poolClass length).2.pools slot ∨
      (∀ p ∈ s.pools, p.poolClass = poolClass →
          ∀ o, ¬ p.Fits (nextMultipleOf (max length 1) slotStep) o) ∧
        slot.bytes = nextMultipleOf (max length 1) slotStep ∧ slot.offset = 0 ∧
        ∃ pool, (s.slot poolClass length).2.pools = s.pools ++ [pool] ∧
          pool.poolClass = poolClass ∧ pool.held.address = slot.pool ∧ pool.kept = false

/-- A slot refused. -/
theorem pooled_of_refused {poolClass : PoolClass} {length : ℕ}
    (heq : s.slot poolClass length = (none, s')) (hsame : s'.Pooled out) (hpools : s'.pools = s.pools)
    (hnone : ∀ p ∈ s.pools, p.poolClass = poolClass →
      ∀ o, ¬ p.Fits (nextMultipleOf (max length 1) slotStep) o) :
    (s.slot poolClass length).2.Pooled ((s.slot poolClass length).1.toList + out) ∧
      SlotAnswers s poolClass length := by
  rw [heq]
  refine ⟨by simpa using hsame, fun _ => by rw [heq]; exact ⟨hpools, hnone⟩, fun slot hslot => ?_⟩
  rw [heq] at hslot
  cases hslot

/-- A slot taken. -/
theorem slotAnswers_of_taken {poolClass : PoolClass} {length : ℕ} {slot : Slot}
    (heq : s.slot poolClass length = (some slot, s'))
    (h : TakenFrom poolClass (nextMultipleOf (max length 1) slotStep) s.pools s'.pools slot ∨
      (∀ p ∈ s.pools, p.poolClass = poolClass →
          ∀ o, ¬ p.Fits (nextMultipleOf (max length 1) slotStep) o) ∧
        slot.bytes = nextMultipleOf (max length 1) slotStep ∧ slot.offset = 0 ∧
        ∃ pool, s'.pools = s.pools ++ [pool] ∧
          pool.poolClass = poolClass ∧ pool.held.address = slot.pool ∧ pool.kept = false) :
    SlotAnswers s poolClass length where
  refused hno := by
    rw [heq] at hno
    cases hno
  taken slot' hslot := by
    rw [heq] at hslot ⊢
    obtain rfl := Option.some.inj hslot
    exact h

theorem Pooled.slot_spec (h : s.Pooled out) (hs : s.Sound helds) (poolClass : PoolClass) (length : ℕ) :
    (s.slot poolClass length).2.Pooled ((s.slot poolClass length).1.toList + out) ∧
      SlotAnswers s poolClass length := by
  have hlarge (hlt : poolBytes < nextMultipleOf (max length 1) slotStep) : ∀ p ∈ s.pools,
      p.poolClass = poolClass → ∀ o, ¬ p.Fits (nextMultipleOf (max length 1) slotStep) o :=
    fun p hp _ o ho => ((h.pools.holds p hp).le_of_fits ho).not_gt hlt
  by_cases hlong : 2 ^ 64 ≤ nextMultipleOf (max length 1) slotStep
  · refine pooled_of_refused ?_ h rfl (hlarge (lt_of_lt_of_le (by decide) hlong))
    rw [slot, checkedNextMultipleOf, checked_of_le hlong]
  have hround : checkedNextMultipleOf (max length 1) slotStep =
      some (nextMultipleOf (max length 1) slotStep) := checked_of_lt (not_le.mp hlong)
  have hpos : 0 < nextMultipleOf (max length 1) slotStep :=
    nextMultipleOf_pos (by decide) (Nat.lt_of_lt_of_le Nat.zero_lt_one (le_max_right _ _))
  have hmod := nextMultipleOf_mod (max length 1) slotStep
  generalize hbytes : nextMultipleOf (max length 1) slotStep = bytes at hround hpos hmod
  by_cases hmany : poolBytes < bytes
  · refine pooled_of_refused ?_ h rfl (hlarge (by rwa [hbytes]))
    rw [slot, hround]
    exact if_pos hmany
  rcases @PoolsHold.takeFrom _ _ poolClass bytes h.pools hpos hmod with
    ⟨address, offset, pools, htake, htaken, hhold⟩ | ⟨htake, hnone⟩
  · have heq : s.slot poolClass length =
        (some ⟨address, offset, bytes⟩, { s with pools }) := by
      rw [slot, hround]
      dsimp only
      rw [if_neg hmany, htake]
    refine ⟨?_, slotAnswers_of_taken heq (.inl (by rw [hbytes]; exact htaken))⟩
    rw [heq]
    refine ⟨?_, h.unset⟩
    change PoolsHold pools ({⟨address, offset, bytes⟩} + out + s.ownSlots)
    rw [add_assoc, Multiset.singleton_add]
    exact hhold
  · have hplaced := h.place poolBytes
    have hsound := hs.place poolBytes
    have hpools := s.pools_place poolBytes
    have hstart := @Wf.start_of_place s hs.toWf poolBytes
    generalize hmade : s.place poolBytes = made at hplaced hsound hpools hstart
    obtain ⟨held | held, s'⟩ := made
    · have hnew := slot_of_unplaced hround hmany htake hmade
      exact pooled_of_refused hnew hplaced hpools (by rwa [hbytes])
    obtain ⟨pool, htaken, hclass, hheld, hkept, hholds⟩ :=
      take_new poolClass held hpos hmod (not_lt.mp hmany)
    have heq := slot_of_placed hround hmany htake hmade htaken
    have haddress : pool.held.address ∉ s'.pools.map fun pool => pool.held.address := by
      rw [hheld]
      exact Sound.address_notMem hsound (hstart rfl) hplaced.pools.start
    have hname : ∀ slot ∈ ({⟨held.address, 0, bytes⟩} : Multiset Slot),
        slot.pool = pool.held.address := fun slot hslot => by
      rw [Multiset.mem_singleton.mp hslot, hheld]
    have happend := hplaced.pools.append (by rw [hheld]; exact hstart rfl) haddress hname (hholds _)
      (fun _ => Multiset.singleton_ne_zero _)
    rw [← add_assoc] at happend
    refine ⟨?_, slotAnswers_of_taken heq (.inr ?_)⟩
    · rw [heq]
      exact ⟨happend, hplaced.unset⟩
    · rw [hbytes]
      refine ⟨hnone, rfl, rfl, pool, ?_, hclass, by rw [hheld], hkept⟩
      rw [← hpools]

theorem Pooled.slot (h : s.Pooled out) (hs : s.Sound helds) (poolClass : PoolClass) (length : ℕ) :
    (s.slot poolClass length).2.Pooled ((s.slot poolClass length).1.toList + out) :=
  (h.slot_spec hs poolClass length).1

/-- What a live slot given back comes to: its pool alone changes, or goes with its last slot. -/
def FreeAnswers (s : MetalSpace) (slot : Slot) (live : Multiset Slot) : Prop :=
  ∃ pre pool post, s.pools = pre ++ pool :: post ∧ pool.held.address = slot.pool ∧
    ((pool.kept = false ∧ inPool live slot.pool = 0 ∧ (s.freeSlot slot).pools = pre ++ post) ∨
      ((pool.kept = true ∨ inPool live slot.pool ≠ 0) ∧
        (s.freeSlot slot).pools = pre ++ pool.give slot.offset slot.bytes :: post))

theorem freeSlot_of_poolsHold {slot : Slot} {live : Multiset Slot}
    (h : PoolsHold s.pools (slot ::ₘ live)) :
    PoolsHold (s.freeSlot slot).pools live ∧ FreeAnswers s slot live := by
  obtain ⟨pre, pool, post, heq, haddress, hend⟩ := h.giveTo
  unfold FreeAnswers freeSlot
  rcases hend with ⟨hkept, hlast, hgive, hhold⟩ | ⟨hstays, hgive, hhold⟩
  · rw [hgive]
    exact ⟨hhold, pre, pool, post, heq, haddress, .inl ⟨hkept, hlast, rfl⟩⟩
  · rw [hgive]
    exact ⟨hhold, pre, pool, post, heq, haddress, .inr ⟨hstays, rfl⟩⟩

/-- A slot given back leaves the mempools as they are. -/
theorem mempools_freeSlot (s : MetalSpace) (slot : Slot) :
    (s.freeSlot slot).elements = s.elements ∧ (s.freeSlot slot).samplers = s.samplers := by
  unfold freeSlot
  generalize giveTo slot s.pools = given
  obtain ⟨gone | held, pools⟩ := given
  · exact ⟨rfl, rfl⟩
  · exact ⟨rfl, rfl⟩

theorem Pooled.freeSlot {slot : Slot} (h : s.Pooled (slot ::ₘ out)) : (s.freeSlot slot).Pooled out := by
  obtain ⟨helements, hsamplers⟩ := s.mempools_freeSlot slot
  have hpools := h.pools
  rw [Multiset.cons_add] at hpools
  have hhold := (freeSlot_of_poolsHold hpools).1
  refine ⟨?_, ?_⟩
  · rw [ownSlots, helements, hsamplers]
    exact hhold
  · rw [helements, hsamplers]
    exact h.unset

theorem Pooled.free {holding : Holding} (h : s.Pooled (holding.slots + out)) :
    (s.free holding).Pooled out := by
  cases holding with
  | nothing =>
    rw [Holding.slots, zero_add] at h
    exact h
  | range held =>
    rw [Holding.slots, zero_add] at h
    exact h.same rfl rfl rfl
  | slot slot => exact Pooled.freeSlot h

theorem Pooled.freeAll {holdings : List Holding} (h : s.Pooled (slotsOf holdings + out)) :
    (s.freeAll holdings).Pooled out := by
  induction holdings generalizing s with
  | nil =>
    change s.Pooled (0 + out) at h
    rw [zero_add] at h
    exact h
  | cons holding holdings ih =>
    refine ih (Pooled.free ?_)
    rw [← add_assoc]
    exact h

/-! ### Metal's own arrays -/

theorem Pooled.placeHolding (h : s.Pooled out) (bytes : ℕ) :
    (s.place bytes).2.Pooled (((s.place bytes).1.elim .nothing .range : Holding).slots + out) := by
  have hnone : ((s.place bytes).1.elim .nothing .range : Holding).slots = 0 := by
    cases (s.place bytes).1 <;> rfl
  rw [hnone, zero_add]
  exact h.place bytes

theorem Pooled.slotHolding (h : s.Pooled out) (hs : s.Sound helds) (poolClass : PoolClass)
    (bytes : ℕ) :
    (s.slot poolClass bytes).2.Pooled
      (((s.slot poolClass bytes).1.elim .nothing .slot : Holding).slots + out) := by
  have hslots : ((s.slot poolClass bytes).1.elim .nothing .slot : Holding).slots =
      ((s.slot poolClass bytes).1.toList : Multiset Slot) := by
    cases (s.slot poolClass bytes).1 <;> rfl
  rw [hslots]
  exact h.slot hs poolClass bytes

theorem Pooled.ownArray (h : s.Pooled out) (hs : s.Sound helds) (bytes : ℕ) :
    (s.ownArray bytes).2.Pooled ((s.ownArray bytes).1.slots + out) := by
  rw [MetalSpace.ownArray]
  split_ifs
  · have hslot := h.slotHolding hs .shared bytes
    generalize s.slot .shared bytes = made at hslot ⊢
    obtain ⟨taken, s₁⟩ := made
    exact hslot
  · have hplace := h.placeHolding bytes
    generalize s.place bytes = made at hplace ⊢
    obtain ⟨taken, s₁⟩ := made
    exact hplace

theorem Pooled.ownArrays (h : s.Pooled out) (hs : s.Sound helds) (sizes : List ℕ) :
    (s.ownArrays sizes).2.Pooled (slotsOf (s.ownArrays sizes).1 + out) := by
  induction sizes generalizing s out helds with
  | nil =>
    change s.Pooled (0 + out)
    rw [zero_add]
    exact h
  | cons bytes sizes ih =>
    have hrest := ih (h.ownArray hs bytes) (hs.ownArray bytes)
    have hslots : slotsOf (s.ownArrays (bytes :: sizes)).1 + out =
        slotsOf ((s.ownArray bytes).2.ownArrays sizes).1 + ((s.ownArray bytes).1.slots + out) := by
      change (s.ownArray bytes).1.slots + slotsOf ((s.ownArray bytes).2.ownArrays sizes).1 + out = _
      ac_rfl
    rw [hslots]
    exact hrest

theorem Pooled.samplerPool (h : s.Pooled out) (hs : s.Sound helds) (size : ℕ) :
    (s.samplerPool size).Pooled out := by
  rw [MetalSpace.samplerPool]
  have hcounted : Pooled { s with samplers.pool := max s.samplers.pool size } out :=
    h.regroup rfl rfl h.unset
  have hsound : Sound { s with samplers.pool := max s.samplers.pool size } helds :=
    hs.regroup rfl rfl le_rfl
  generalize { s with samplers.pool := max s.samplers.pool size } = s' at hcounted hsound
  dsimp only
  split_ifs with hgrows
  · have hset : s'.elements.array ≠ 0 := fun hzero => by
      have hnone := (hcounted.unset hzero).2.1
      omega
    have hmade := hcounted.ownArray hsound (min (s'.samplers.pool * elementBytes) (2 ^ 64 - 1))
    have helements := s'.elements_ownArray (min (s'.samplers.pool * elementBytes) (2 ^ 64 - 1))
    refine Pooled.free (hmade.regroup rfl ?_ fun hzero => ?_)
    · rw [ownSlots, ownSlots]
      ac_rfl
    · exact absurd ((congrArg Elements.array helements).symm.trans hzero) hset
  · exact hcounted

/-! ### Metal's own work -/

/-- The slots that the setup takes for good. -/
def setupSlots (s : MetalSpace) : List Slot :=
  if 0 < s.elements.array then []
  else
    let s := { s with elements.array := firstArray }
    let (arrays, s) := s.ownArrays [firstArray, firstArray, firstArray / 4]
    let s := { s with elements.arrays := arrays, samplers.array := firstArray }
    let (array, s) := s.ownArray firstArray
    let s := { s with samplers.held := array }
    let (shared, s) := s.slot .shared sharedSetup
    (s.slot .private privateSetup).1.toList ++ shared.toList

theorem Pooled.setup (h : s.Pooled out) (hs : s.Sound helds) :
    s.setup.Pooled (s.setupSlots + out) := by
  rw [MetalSpace.setup, setupSlots]
  split_ifs with hset
  · exact h.regroup rfl (by rw [Multiset.coe_nil, zero_add]) h.unset
  · obtain ⟨harrays, hsampler, hheld⟩ := h.unset (Nat.eq_zero_of_not_pos hset)
    have hgrown : Pooled { s with elements.array := firstArray } out :=
      h.regroup rfl rfl fun hzero => absurd hzero (show firstArray ≠ 0 by decide)
    have hsound : Sound { s with elements.array := firstArray } helds := hs.regroup rfl rfl le_rfl
    have hmade := hgrown.ownArrays hsound [firstArray, firstArray, firstArray / 4]
    have hmadeSound := hsound.ownArrays [firstArray, firstArray, firstArray / 4]
    have helements := elements_ownArrays { s with elements.array := firstArray }
      [firstArray, firstArray, firstArray / 4]
    have hsamplers := samplers_ownArrays { s with elements.array := firstArray }
      [firstArray, firstArray, firstArray / 4]
    dsimp only
    generalize { s with elements.array := firstArray }.ownArrays
      [firstArray, firstArray, firstArray / 4] = made at hmade hmadeSound helements hsamplers
    obtain ⟨arrays, s₁⟩ := made
    dsimp only at hmade hmadeSound helements hsamplers ⊢
    have harray₁ : s₁.elements.array = firstArray := by rw [helements]
    -- the arrays of before the setup, which are none, go unfreed
    have hnone₁ : slotsOf s₁.elements.arrays = 0 := by
      rw [helements]
      change slotsOf s.elements.arrays = 0
      rw [harrays]
      rfl
    have hkept : Pooled { s₁ with elements.arrays := arrays, samplers.array := firstArray } out := by
      refine hmade.regroup rfl ?_ fun hzero => absurd (harray₁.symm.trans hzero) (by decide)
      change out + (slotsOf arrays + s₁.samplers.held.slots) =
        slotsOf arrays + out + (slotsOf s₁.elements.arrays + s₁.samplers.held.slots)
      rw [hnone₁]
      ac_rfl
    have hkeptSound :
        Sound { s₁ with elements.arrays := arrays, samplers.array := firstArray } helds :=
      hmadeSound.regroup rfl rfl (by
        change helds + (poolHelds s₁.pools + heldsOf arrays + s₁.samplers.held.helds) ≤
          heldsOf arrays + helds + (poolHelds s₁.pools + heldsOf s₁.elements.arrays +
            s₁.samplers.held.helds)
        calc helds + (poolHelds s₁.pools + heldsOf arrays + s₁.samplers.held.helds)
            = heldsOf arrays + helds + (poolHelds s₁.pools + 0 + s₁.samplers.held.helds) := by
              rw [add_zero]
              ac_rfl
          _ ≤ _ := by
              gcongr
              exact Multiset.zero_le _)
    have hheld₁ : s₁.samplers.held = .nothing := by rw [hsamplers]; exact hheld
    have harray := hkept.ownArray hkeptSound firstArray
    have harraySound := hkeptSound.ownArray firstArray
    have helements₂ := elements_ownArray
      { s₁ with elements.arrays := arrays, samplers.array := firstArray } firstArray
    have hsamplers₂ := samplers_ownArray
      { s₁ with elements.arrays := arrays, samplers.array := firstArray } firstArray
    generalize { s₁ with elements.arrays := arrays, samplers.array := firstArray }.ownArray
      firstArray = made at harray harraySound helements₂ hsamplers₂
    obtain ⟨array, s₂⟩ := made
    dsimp only at harray harraySound helements₂ hsamplers₂ ⊢
    have harray₂ : s₂.elements.array = firstArray := by rw [helements₂]; exact harray₁
    have hheld₂ : s₂.samplers.held = .nothing := by rw [hsamplers₂]; exact hheld₁
    have hlast : Pooled { s₂ with samplers.held := array } out := by
      refine harray.regroup rfl ?_ fun hzero => absurd (harray₂.symm.trans hzero) (by decide)
      change out + (slotsOf s₂.elements.arrays + array.slots) =
        array.slots + out + (slotsOf s₂.elements.arrays + s₂.samplers.held.slots)
      rw [hheld₂, Holding.slots]
      ac_rfl
    have hlastSound : Sound { s₂ with samplers.held := array } helds := by
      refine harraySound.regroup rfl rfl (le_of_eq ?_)
      change helds + (poolHelds s₂.pools + heldsOf s₂.elements.arrays + array.helds) =
        array.helds + helds + (poolHelds s₂.pools + heldsOf s₂.elements.arrays +
          s₂.samplers.held.helds)
      rw [hheld₂, Holding.helds]
      ac_rfl
    have hshared := hlast.slot hlastSound .shared sharedSetup
    have hsharedSound := hlastSound.slot .shared sharedSetup
    have hprivate := hshared.slot hsharedSound .private privateSetup
    have hprivateSound := hsharedSound.slot .private privateSetup
    rw [← add_assoc, Multiset.coe_add] at hprivate
    exact hprivate.samplerPool hprivateSound _

theorem Pooled.makeOwn (h : s.Pooled out) (hs : s.Sound helds) (own : Own) :
    (s.makeOwn own).Pooled out := by
  rw [MetalSpace.makeOwn]
  split_ifs
  · exact h
  · have hnoted : Pooled { s with own := own :: s.own } out := h.same rfl rfl rfl
    have hsound : Sound { s with own := own :: s.own } helds := hs.regroup rfl rfl le_rfl
    have hplaced := hnoted.place own.bytes
    have hplacedSound := hsound.place own.bytes
    have hstart := @Wf.start_of_place _ hsound.toWf own.bytes
    generalize { s with own := own :: s.own }.place own.bytes = made
      at hplaced hplacedSound hstart
    obtain ⟨held, s'⟩ := made
    dsimp only at hplaced hplacedSound hstart ⊢
    split
    · next poolClass held _ =>
      have haddress := Sound.address_notMem hplacedSound (hstart rfl) hplaced.pools.start
      have hnew := Pool.holds_new poolClass held true
      have hname : ∀ slot ∈ (0 : Multiset Slot),
          slot.pool = (Pool.new poolClass held true).held.address :=
        fun slot hslot => absurd hslot (Multiset.notMem_zero slot)
      have happend := hplaced.pools.append (hstart rfl) haddress hname hnew
        (fun hkept => by cases hkept)
      rw [zero_add] at happend
      exact ⟨happend, hplaced.unset⟩
    · exact hplaced

theorem Pooled.makeOwns (h : s.Pooled out) (hs : s.Sound helds) (owns : List Own) :
    (owns.foldl MetalSpace.makeOwn s).Pooled out ∧ (owns.foldl MetalSpace.makeOwn s).Sound helds := by
  induction owns generalizing s with
  | nil => exact ⟨h, hs⟩
  | cons own owns ih => exact ih (h.makeOwn hs own) (hs.makeOwn own)

/-- The slots that a first use takes for good: those of the setup. -/
def firstUseSlots (s : MetalSpace) (first : FirstUse) : List Slot :=
  match first with
  | .queue => ((allocations first).foldl makeOwn s).setupSlots
  | .texture => ((allocations first).foldl makeOwn s).setupSlots
  | _ => []

theorem Pooled.firstUse (h : s.Pooled out) (hs : s.Sound helds) (first : FirstUse) :
    (s.firstUse first).Pooled (s.firstUseSlots first + out) := by
  obtain ⟨hmade, hsound⟩ := h.makeOwns hs (allocations first)
  have hnone : ((allocations first).foldl MetalSpace.makeOwn s).Pooled
      (([] : List Slot) + out) := by
    rw [Multiset.coe_nil, zero_add]
    exact hmade
  cases first with
  | queue => exact hmade.setup hsound
  | texture => exact hmade.setup hsound
  | _ => exact hnone

/-! ### Textures -/

theorem Pooled.textureMade (h : s.Pooled out) (hs : s.Sound helds) : s.textureMade.Pooled out := by
  by_cases hfull : 0 < s.elements.array ∧ s.elements.array / elementBytes ≤ s.elements.live + 1
  · have hgrown : Pooled
        { s with
          elements.live := s.elements.live + 1
          elements.array := s.elements.array * 2 } out :=
      h.regroup rfl rfl fun hzero => by
        change s.elements.array * 2 = 0 at hzero
        omega
    have hgrownSound : Sound
        { s with
          elements.live := s.elements.live + 1
          elements.array := s.elements.array * 2 } helds :=
      hs.regroup rfl rfl le_rfl
    have hmade := hgrown.ownArrays hgrownSound
      [s.elements.array * 2, s.elements.array * 2, s.elements.array * 2 / 4]
    have helements := elements_ownArrays
      { s with
        elements.live := s.elements.live + 1
        elements.array := s.elements.array * 2 }
      [s.elements.array * 2, s.elements.array * 2, s.elements.array * 2 / 4]
    generalize hs₁ : { s with
        elements.live := s.elements.live + 1
        elements.array := s.elements.array * 2 }.ownArrays
      [s.elements.array * 2, s.elements.array * 2, s.elements.array * 2 / 4] = made
      at hmade helements
    obtain ⟨arrays, s₁⟩ := made
    rw [textureMade_of_full hfull hs₁]
    refine Pooled.freeAll (hmade.regroup rfl ?_ fun hzero => ?_)
    · rw [ownSlots, ownSlots]
      ac_rfl
    · have harray := (congrArg Elements.array helements).symm.trans hzero
      change s.elements.array * 2 = 0 at harray
      omega
  · rw [textureMade_of_not_full hfull]
    exact h.regroup rfl rfl h.unset

theorem Pooled.textureGone (h : s.Pooled out) : s.textureGone.Pooled out :=
  h.regroup rfl rfl h.unset

/-- The slots that a texture's own memory takes for good before it, at a first use. -/
def textureSlots (s : MetalSpace) (kind : TextureKind) : List Slot :=
  match kind with
  | .ownMemory _ _ => s.firstUseSlots .texture
  | .sharedBacking _ => s.firstUseSlots .texture
  | _ => []

theorem Pooled.placeTexture (h : s.Pooled out) (hs : s.Sound helds) (kind : TextureKind) :
    (s.placeTexture kind).2.Pooled
      ((s.placeTexture kind).1.slots + (s.textureSlots kind + out)) := by
  have hnone : s.textureMade.Pooled
      (Holding.nothing.slots + ((([] : List Slot) : Multiset Slot) + out)) := by
    change s.textureMade.Pooled (0 + (0 + out))
    rw [zero_add, zero_add]
    exact h.textureMade hs
  have hused := (h.firstUse hs .texture).textureMade (hs.firstUse .texture)
  have husedSound := (hs.firstUse .texture).textureMade
  cases kind with
  | ownMemory heapSize poolClass =>
    by_cases hsmall : heapSize < ownHeapSize
    · have hspace : textureSpace (.ownMemory heapSize poolClass) = .slot poolClass heapSize :=
        if_pos hsmall
      have hslot := hused.slotHolding husedSound poolClass heapSize
      generalize hmade : (s.firstUse .texture).textureMade.slot poolClass heapSize = made at hslot
      obtain ⟨slot, s₁⟩ := made
      rw [placeTexture_of_slot hspace hmade]
      exact hslot
    · have hspace : textureSpace (.ownMemory heapSize poolClass) = .own heapSize := if_neg hsmall
      have hplace := hused.placeHolding heapSize
      generalize hmade : (s.firstUse .texture).textureMade.place heapSize = made at hplace
      obtain ⟨held, s₁⟩ := made
      rw [placeTexture_of_own hspace hmade]
      exact hplace
  | sharedBacking allocation =>
    have hplace := hused.placeHolding (min (allocation + shareableExtra) (2 ^ 64 - 1))
    generalize hmade : (s.firstUse .texture).textureMade.place
      (min (allocation + shareableExtra) (2 ^ 64 - 1)) = made at hplace
    obtain ⟨held, s₁⟩ := made
    have hspace : textureSpace (.sharedBacking allocation) =
        .own (min (allocation + shareableExtra) (2 ^ 64 - 1)) := rfl
    rw [placeTexture_of_own hspace hmade]
    exact hplace
  | overSurface =>
    rw [placeTexture_of_bare s (.inr rfl)]
    exact hnone
  | _ =>
    rw [placeTexture_of_bare s (.inl rfl)]
    exact hnone

theorem Pooled.placeSurface (h : s.Pooled out) (hs : s.Sound helds) (allocSize : ℕ) :
    (s.placeSurface allocSize).2.Pooled (s.firstUseSlots .texture + out) :=
  (h.firstUse hs .texture).place allocSize

theorem Pooled.pin (h : s.Pooled out) (hs : s.Sound helds) (address length : ℕ) :
    (s.pin address length).2.Pooled out := by
  have hdevice : s.makeDevice.Pooled out := by
    rw [MetalSpace.makeDevice]
    split_ifs
    · exact h
    · exact h.same rfl rfl rfl
  cases hpin : (s.pin address length).1 with
  | error e =>
    rw [(hs.toWf.pin_eq_error hpin).1]
    exact hdevice
  | ok held =>
    obtain ⟨-, -, -, -, hspace⟩ := hs.toWf.pin_eq_ok hpin
    rw [hspace]
    exact hdevice.same rfl rfl rfl

end MetalSpace

end ReimsVgpu.Gpu
