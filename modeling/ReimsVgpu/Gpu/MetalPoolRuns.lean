import ReimsVgpu.Gpu.MetalPools
import ReimsVgpu.Gpu.MetalSpaceRuns

/-!
# The pools of Metal's space in every history

In every history of the calls on Metal's space, each pool's live slots lie apart in it, its free runs are
what they leave, and the next slot is taken at the lowest offset of the first pool with room. The live
slots are those of callers, of the space's arrays, and of its setup, which keeps two for good.

The texture mempool grows ahead of the live textures, where a setup made it before the first of them.

## Main definitions

* `Client.keptSlots`, `Client.liveSlots`: the slots of the setup in a history, and all live ones.
* `PoolSane`, `Client.PoolsSane`: what the pools owe the live slots.
* `SetupFirst`: a setup comes before any texture.

## Main results

* `Client.poolsSane_of_execution`.
-/

namespace ReimsVgpu.Gpu

/-! ### Textures counted -/

/-- A call that makes a texture. -/
def Call.makesTexture : Call → Bool
  | .textureMade => true
  | .placeTexture _ => true
  | _ => false

/-- A call at which the setup is made, if none was: before the texture, where the call makes one. -/
def Call.setsUp : Call → Bool
  | .firstUse .queue => true
  | .firstUse .texture => true
  | .placeTexture (.ownMemory _ _) => true
  | .placeTexture (.sharedBacking _) => true
  | .placeSurface _ => true
  | _ => false

/-- The first setup of a history comes before any texture. -/
def SetupFirst (calls : List Call) : Prop :=
  ∀ pre call post, calls = pre ++ call :: post → call.makesTexture → ∃ c ∈ pre ++ [call], c.setsUp

theorem SetupFirst.of_concat {calls : List Call} {call : Call} (h : SetupFirst (calls ++ [call])) :
    SetupFirst calls := fun pre c post heq =>
  h pre c (post ++ [call]) (by rw [heq, List.append_assoc, List.cons_append])

/-- A setup comes first. -/
theorem setupFirst_cons {call : Call} (h : call.setsUp) (calls : List Call) :
    SetupFirst (call :: calls) := by
  intro pre c post heq _
  refine ⟨call, ?_, h⟩
  cases pre with
  | nil => exact List.mem_singleton.mpr (List.cons.inj heq).1
  | cons call' pre =>
    rw [(List.cons.inj heq).1]
    exact List.mem_cons_self

namespace MetalSpace

variable {s : MetalSpace}

/-- There are no textures and no arrays, or there are fewer textures than the arrays serve. -/
def Counted (isSetUp : Bool) (e : Elements) : Prop :=
  if isSetUp then e.live < e.array / elementBytes else e.live = 0 ∧ e.array = 0

theorem elements_free (s : MetalSpace) (holding : Holding) :
    (s.free holding).elements = s.elements := by
  cases holding with
  | nothing => rfl
  | range held => rfl
  | slot slot => exact (s.mempools_freeSlot slot).1

theorem elements_freeAll (s : MetalSpace) (holdings : List Holding) :
    (s.freeAll holdings).elements = s.elements := by
  induction holdings generalizing s with
  | nil => rfl
  | cons holding holdings ih => exact (ih (s.free holding)).trans (s.elements_free holding)

theorem elements_samplerPool (s : MetalSpace) (size : ℕ) :
    (s.samplerPool size).elements = s.elements := by
  rw [samplerPool]
  dsimp only
  split_ifs
  · rw [elements_free]
    exact elements_ownArray { s with samplers.pool := max s.samplers.pool size } _
  · rfl

theorem elements_setup (s : MetalSpace) :
    s.setup.elements.live = s.elements.live ∧
      s.setup.elements.array = if 0 < s.elements.array then s.elements.array else firstArray := by
  rw [setup]
  split_ifs
  · exact ⟨rfl, rfl⟩
  · dsimp only
    rw [elements_samplerPool, elements_slot, elements_slot]
    dsimp only
    rw [elements_ownArray]
    dsimp only
    rw [elements_ownArrays]
    exact ⟨rfl, rfl⟩

theorem elements_makeOwn (s : MetalSpace) (own : Own) : (s.makeOwn own).elements = s.elements := by
  rw [makeOwn]
  split_ifs
  · rfl
  · have hplace := elements_place { s with own := own :: s.own } own.bytes
    generalize place { s with own := own :: s.own } own.bytes = placed at hplace ⊢
    obtain ⟨held, s'⟩ := placed
    dsimp only at hplace ⊢
    split
    · exact hplace
    · exact hplace

theorem elements_makeOwns (s : MetalSpace) (owns : List Own) :
    (owns.foldl makeOwn s).elements = s.elements := by
  induction owns generalizing s with
  | nil => rfl
  | cons own owns ih => exact (ih (s.makeOwn own)).trans (s.elements_makeOwn own)

theorem Counted.firstUse {isSetUp : Bool} (h : Counted isSetUp s.elements) (first : FirstUse) :
    Counted (isSetUp || (Call.firstUse first).setsUp) (s.firstUse first).elements := by
  have hmade := s.elements_makeOwns (allocations first)
  obtain ⟨hlive, harray⟩ := elements_setup ((allocations first).foldl makeOwn s)
  rw [hmade] at hlive harray
  have hset : Counted true ((allocations first).foldl makeOwn s).setup.elements := by
    rw [Counted, if_pos rfl, hlive, harray]
    cases isSetUp with
    | true =>
      have hcounted : s.elements.live < s.elements.array / elementBytes := h
      have hpos : 0 < s.elements.array := Nat.pos_of_ne_zero fun hzero => by
        rw [hzero, Nat.zero_div] at hcounted
        exact absurd hcounted (Nat.not_lt_zero _)
      rwa [if_pos hpos]
    | false =>
      obtain ⟨hnone, hzero⟩ : s.elements.live = 0 ∧ s.elements.array = 0 := h
      rw [hnone, hzero]
      decide
  have hsame : Counted isSetUp ((allocations first).foldl makeOwn s).elements := by
    rw [hmade]
    exact h
  cases first with
  | queue =>
    rw [show (Call.firstUse .queue).setsUp = true from rfl, Bool.or_true]
    exact hset
  | texture =>
    rw [show (Call.firstUse .texture).setsUp = true from rfl, Bool.or_true]
    exact hset
  | _ =>
    change Counted (isSetUp || false) _
    rw [Bool.or_false]
    exact hsame

/-- The texture that fills the arrays doubles them. -/
theorem Counted.textureMade (h : Counted true s.elements) : Counted true s.textureMade.elements := by
  have hcounted : s.elements.live < s.elements.array / elementBytes := h
  by_cases hfull : 0 < s.elements.array ∧ s.elements.array / elementBytes ≤ s.elements.live + 1
  · have helements := elements_ownArrays
      { s with
        elements.live := s.elements.live + 1
        elements.array := s.elements.array * 2 }
      [s.elements.array * 2, s.elements.array * 2, s.elements.array * 2 / 4]
    generalize hs₁ : { s with
        elements.live := s.elements.live + 1
        elements.array := s.elements.array * 2 }.ownArrays
      [s.elements.array * 2, s.elements.array * 2, s.elements.array * 2 / 4] = made at helements
    obtain ⟨arrays, s₁⟩ := made
    have hdouble : 2 * (s.elements.array / elementBytes) ≤ s.elements.array * 2 / elementBytes := by
      rw [elementBytes]
      omega
    rw [textureMade_of_full hfull hs₁, elements_freeAll, Counted, if_pos rfl]
    dsimp only at helements ⊢
    rw [helements]
    dsimp only
    omega
  · rw [textureMade_of_not_full hfull, Counted, if_pos rfl]
    dsimp only
    have hpos : 0 < s.elements.array := Nat.pos_of_ne_zero fun hzero => by
      rw [hzero, Nat.zero_div] at hcounted
      exact absurd hcounted (Nat.not_lt_zero _)
    exact not_le.mp fun hle => hfull ⟨hpos, hle⟩

theorem Counted.textureGone {isSetUp : Bool} (h : Counted isSetUp s.elements) :
    Counted isSetUp s.textureGone.elements := by
  cases isSetUp with
  | true => exact (Nat.sub_le _ _).trans_lt h
  | false =>
    obtain ⟨hlive, harray⟩ : s.elements.live = 0 ∧ s.elements.array = 0 := h
    exact ⟨by rw [MetalSpace.textureGone, hlive], harray⟩

theorem elements_pin (s : MetalSpace) (address length : ℕ) :
    (s.pin address length).2.elements = s.elements := by
  have hdevice := s.elements_makeDevice
  by_cases hinside : PinInside address length
  · rw [s.pin_of_inside hinside]
    split_ifs
    · exact hdevice
    · cases s.makeDevice.firstHeld (pinSpan address length) with
      | none => exact hdevice
      | some x => exact hdevice
  · rw [s.pin_of_not_inside hinside]
    exact hdevice

/-- A texture placed is made once the setup of its first use is. -/
theorem Counted.placeTexture {isSetUp : Bool} (h : Counted isSetUp s.elements) (kind : TextureKind)
    (hset : isSetUp || (Call.placeTexture kind).setsUp) :
    Counted (isSetUp || (Call.placeTexture kind).setsUp) (s.placeTexture kind).2.elements := by
  have hused : Counted true (s.firstUse .texture).textureMade.elements := by
    have hfirst := h.firstUse .texture
    rw [show (Call.firstUse .texture).setsUp = true from rfl, Bool.or_true] at hfirst
    exact hfirst.textureMade
  have hown {kind : TextureKind} {bytes : ℕ} (hspace : textureSpace kind = .own bytes) :
      Counted true (s.placeTexture kind).2.elements := by
    have helements := (s.firstUse .texture).textureMade.elements_place bytes
    generalize hmade : (s.firstUse .texture).textureMade.place bytes = made at helements
    obtain ⟨held, s₁⟩ := made
    rw [placeTexture_of_own hspace hmade]
    dsimp only at helements ⊢
    rwa [helements]
  rw [hset]
  cases kind with
  | ownMemory heapSize poolClass =>
    by_cases hsmall : heapSize < ownHeapSize
    · have hspace : textureSpace (.ownMemory heapSize poolClass) = .slot poolClass heapSize :=
        if_pos hsmall
      have helements := (s.firstUse .texture).textureMade.elements_slot poolClass heapSize
      generalize hmade : (s.firstUse .texture).textureMade.slot poolClass heapSize = made
        at helements
      obtain ⟨slot, s₁⟩ := made
      rw [placeTexture_of_slot hspace hmade]
      dsimp only at helements ⊢
      rwa [helements]
    · have hspace : textureSpace (.ownMemory heapSize poolClass) = .own heapSize := if_neg hsmall
      exact hown hspace
  | sharedBacking allocation => exact hown rfl
  | overSurface =>
    obtain rfl : isSetUp = true := (Bool.or_false isSetUp).symm.trans hset
    rw [placeTexture_of_bare s (.inr rfl)]
    exact Counted.textureMade h
  | _ =>
    obtain rfl : isSetUp = true := (Bool.or_false isSetUp).symm.trans hset
    rw [placeTexture_of_bare s (.inl rfl)]
    exact Counted.textureMade h

end MetalSpace

/-! ### What the pools owe the live slots -/

/-- What a pool owes its live slots. -/
structure PoolSane (pool : Pool) (slots : Multiset Slot) : Prop where
  apart : slots.Pairwise fun slot slot' =>
    slot.offset + slot.bytes ≤ slot'.offset ∨ slot'.offset + slot'.bytes ≤ slot.offset
  inside : ∀ slot ∈ slots, slot.offset < slot.offset + slot.bytes ∧
    slot.offset + slot.bytes ≤ poolBytes
  aligned : ∀ slot ∈ slots,
    slot.offset % slotStep = 0 ∧ (slot.offset + slot.bytes) % slotStep = 0
  free_lt : ∀ e ∈ pool.free, e.1 < e.2
  free_apart : pool.free.Pairwise fun e e' => e.2 < e'.1
  free_iff : ∀ x, (∃ e ∈ pool.free, e.1 ≤ x ∧ x < e.2) ↔
    x < poolBytes ∧ ∀ slot ∈ slots, ¬ slot.Covers x
  used : pool.used = (slots.map Slot.bytes).sum

/-- Slots with bytes, of which none has a byte of another, lie apart. -/
theorem pairwise_of_covering_le {slots : Multiset Slot} (h : ∀ x, covering slots x ≤ 1)
    (hpos : ∀ slot ∈ slots, 0 < slot.bytes) :
    slots.Pairwise fun slot slot' =>
      slot.offset + slot.bytes ≤ slot'.offset ∨ slot'.offset + slot'.bytes ≤ slot.offset := by
  induction slots using Multiset.induction with
  | empty => exact Multiset.pairwise_zero _
  | cons slot slots ih =>
    obtain ⟨hslot, hpos⟩ := Multiset.forall_mem_cons.mp hpos
    obtain ⟨l, rfl, hl⟩ := ih (fun x => (Multiset.countP_le_of_le _
      (Multiset.le_cons_self slots slot)).trans (h x)) hpos
    refine ⟨slot :: l, rfl, List.pairwise_cons.mpr ⟨fun slot' hmem => ?_, hl⟩⟩
    by_contra hnot
    rw [not_or, not_le, not_le] at hnot
    -- the later first byte of the two is in both
    have hboth := h (max slot.offset slot'.offset)
    have hslot' := hpos slot' hmem
    have hcovers : slot.Covers (max slot.offset slot'.offset) := by
      unfold Slot.Covers
      omega
    have hcovers' : slot'.Covers (max slot.offset slot'.offset) := by
      unfold Slot.Covers
      omega
    have hone : 0 < covering (l : Multiset Slot) (max slot.offset slot'.offset) :=
      Multiset.countP_pos.mpr ⟨slot', hmem, hcovers'⟩
    rw [covering_cons, if_pos hcovers] at hboth
    omega

theorem Pool.Holds.poolSane {pool : Pool} {slots : Multiset Slot} (h : pool.Holds slots) :
    PoolSane pool slots where
  apart := pairwise_of_covering_le
    (fun x => (h.covering_le x).trans (by split_ifs <;> decide)) fun slot hslot =>
      (h.aligned slot hslot).2.2
  inside slot hslot := by
    have hpos := (h.aligned slot hslot).2.2
    refine ⟨Nat.lt_add_of_pos_right hpos, ?_⟩
    have hlast : 0 < covering slots (slot.offset + slot.bytes - 1) :=
      Multiset.countP_pos.mpr ⟨slot, hslot, by unfold Slot.Covers; omega⟩
    have hle := h.covering_le (slot.offset + slot.bytes - 1)
    split_ifs at hle
    · omega
    · omega
  aligned slot hslot := by
    obtain ⟨hoffset, hbytes, -⟩ := h.aligned slot hslot
    exact ⟨hoffset, by rw [Nat.add_mod, hoffset, hbytes, Nat.add_zero, Nat.zero_mod]⟩
  free_lt := h.separated.lt
  free_apart := h.separated.sep
  free_iff x := by
    have hzero : covering slots x = 0 ↔ ∀ slot ∈ slots, ¬ slot.Covers x := Multiset.countP_eq_zero
    rw [← hzero]
    exact h.mem_points x
  used := h.used

namespace Client

/-- The slots of the setup that a call makes. -/
def setupSlots (c : Client) : Call → List Slot
  | .firstUse first => c.space.firstUseSlots first
  | .placeTexture kind => c.space.textureSlots kind
  | .placeSurface _ => c.space.firstUseSlots .texture
  | _ => []

/-- The client after the calls, and the slots of the setup, which stay live. -/
def history (calls : List Call) : Client × List Slot :=
  calls.foldl (fun (c, kept) call => (c.step call, c.setupSlots call ++ kept)) (new, [])

/-- The slots of the setup in the calls. -/
def keptSlots (calls : List Call) : List Slot := (history calls).2

/-- The live slots: those of callers, of the setup and of the space's arrays. -/
def liveSlots (c : Client) (kept : List Slot) : Multiset Slot := c.slots + kept + c.space.ownSlots

/-- What the space's pools owe the live slots. -/
structure PoolsSane (c : Client) (kept : List Slot) : Prop where
  pool : ∀ pool ∈ c.space.pools, PoolSane pool (inPool (c.liveSlots kept) pool.held.address)
  used : ∀ pool ∈ c.space.pools, pool.kept = false →
    ∃ slot ∈ c.liveSlots kept, slot.pool = pool.held.address
  named : ∀ slot ∈ c.liveSlots kept, ∃! pool, pool ∈ c.space.pools ∧ pool.held.address = slot.pool
  nodup : (c.space.pools.map fun pool => pool.held.address).Nodup
  slot : ∀ poolClass length, c.space.SlotAnswers poolClass length
  free : ∀ slot ∈ c.liveSlots kept, c.space.FreeAnswers slot ((c.liveSlots kept).erase slot)

variable {c : Client} {kept : Multiset Slot}

theorem pooled_new : new.space.Pooled 0 := ⟨poolsHold_nil, fun _ => ⟨rfl, rfl, rfl⟩⟩

theorem pooled_give {holding : Holding} {space : MetalSpace}
    (h : space.Pooled (holding.slots + ((c.slots : Multiset Slot) + kept))) :
    (c.give holding space).space.Pooled ((c.give holding space).slots + kept) := by
  cases holding with
  | nothing =>
    rw [Holding.slots, zero_add] at h
    exact h
  | range held =>
    rw [Holding.slots, zero_add] at h
    exact h
  | slot slot =>
    rw [Holding.slots, ← add_assoc] at h
    exact h

/-- A range given out is no slot. -/
theorem slots_elim_range (held : Option Held) :
    (held.elim .nothing .range : Holding).slots = 0 := by
  cases held <;> rfl

theorem pooled_giveRange {held : Option Held} {space : MetalSpace}
    (h : space.Pooled ((c.slots : Multiset Slot) + kept)) :
    (c.give (held.elim .nothing .range) space).space.Pooled
      ((c.give (held.elim .nothing .range) space).slots + kept) := by
  refine pooled_give ?_
  rw [slots_elim_range, zero_add]
  exact h

/-- A slot that a caller gives back. -/
theorem pooled_erase (h : c.space.Pooled ((c.slots : Multiset Slot) + kept)) {slot : Slot}
    (hmem : slot ∈ c.slots) :
    c.space.Pooled (slot ::ₘ (((c.slots.erase slot : List Slot) : Multiset Slot) + kept)) := by
  rw [← Multiset.cons_add, Multiset.cons_coe,
    Multiset.coe_eq_coe.mpr (List.perm_cons_erase hmem).symm]
  exact h

/-- A call that takes no slots for good. -/
theorem pooled_none {s : MetalSpace} {slots : Multiset Slot} (h : s.Pooled (slots + kept)) :
    s.Pooled (slots + ((([] : List Slot) : Multiset Slot) + kept)) := by
  rw [Multiset.coe_nil, zero_add]
  exact h

theorem pooled_step (h : c.space.Pooled ((c.slots : Multiset Slot) + kept)) (hs : c.Sound)
    {call : Call} (hallowed : c.Allowed call) :
    (c.step call).space.Pooled ((c.step call).slots + (c.setupSlots call + kept)) := by
  have hmove (slots taken : Multiset Slot) : taken + (slots + kept) = slots + (taken + kept) := by
    ac_rfl
  cases call with
  | firstUse first =>
    rw [← hmove]
    exact MetalSpace.Pooled.firstUse h hs first
  | placeTexture kind =>
    have hplace := MetalSpace.Pooled.placeTexture h hs kind
    generalize hmade : c.space.placeTexture kind = made at hplace
    obtain ⟨holding, space⟩ := made
    rw [step_placeTexture hmade]
    refine pooled_give ?_
    rw [← hmove]
    exact hplace
  | placeSurface allocSize =>
    have hplace := MetalSpace.Pooled.placeSurface h hs allocSize
    generalize hmade : c.space.placeSurface allocSize = made at hplace
    obtain ⟨held, space⟩ := made
    rw [step_placeSurface hmade]
    refine pooled_giveRange ?_
    rw [← hmove]
    exact hplace
  | place length =>
    have hplace := h.place length
    generalize hmade : c.space.place length = made at hplace
    obtain ⟨held, space⟩ := made
    rw [step_place hmade]
    exact pooled_none (pooled_giveRange hplace)
  | pin address length =>
    have hpin := MetalSpace.Pooled.pin h hs address length
    generalize hmade : c.space.pin address length = made at hpin
    obtain ⟨held, space⟩ := made
    rw [step_pin hmade]
    exact pooled_none (pooled_giveRange hpin)
  | slot poolClass length =>
    have hslot := MetalSpace.Pooled.slotHolding h hs poolClass length
    generalize hmade : c.space.slot poolClass length = made at hslot
    obtain ⟨slot, space⟩ := made
    rw [step_slot hmade]
    exact pooled_none (pooled_give hslot)
  | textureMade =>
    exact pooled_none (MetalSpace.Pooled.textureMade h hs)
  | textureGone =>
    exact pooled_none h.textureGone
  | samplerPool size =>
    exact pooled_none (MetalSpace.Pooled.samplerPool h hs size)
  | release held =>
    exact pooled_none (h.same rfl rfl rfl)
  | free holding =>
    cases holding with
    | nothing => exact pooled_none h
    | range held => exact pooled_none (h.same rfl rfl rfl)
    | slot slot => exact pooled_none (pooled_erase h hallowed).freeSlot
  | freeSlot slot =>
    exact pooled_none (pooled_erase h hallowed).freeSlot

/-! ### Every history -/

theorem space_give (c : Client) (holding : Holding) (space : MetalSpace) :
    (c.give holding space).space = space := by
  cases holding <;> rfl

open MetalSpace in
theorem counted_step {isSetUp : Bool} (h : Counted isSetUp c.space.elements) {call : Call}
    (hset : call.makesTexture → isSetUp || call.setsUp) :
    Counted (isSetUp || call.setsUp) (c.step call).space.elements := by
  have hsame {e : Elements} (he : e = c.space.elements) : Counted (isSetUp || false) e := by
    rw [Bool.or_false, he]
    exact h
  have htexture := h.firstUse .texture
  cases call with
  | firstUse first => exact h.firstUse first
  | placeTexture kind =>
    have hplace := h.placeTexture kind (hset rfl)
    generalize hmade : c.space.placeTexture kind = made at hplace
    obtain ⟨holding, space⟩ := made
    rw [step_placeTexture hmade, space_give]
    exact hplace
  | placeSurface allocSize =>
    have helements := elements_place (c.space.firstUse .texture) allocSize
    generalize hmade : (c.space.firstUse .texture).place allocSize = made at helements
    obtain ⟨held, space⟩ := made
    rw [step_placeSurface hmade, space_give]
    dsimp only at helements
    rw [helements]
    exact htexture
  | place length =>
    have helements := c.space.elements_place length
    generalize hmade : c.space.place length = made at helements
    obtain ⟨held, space⟩ := made
    rw [step_place hmade, space_give]
    exact hsame helements
  | pin address length =>
    have helements := c.space.elements_pin address length
    generalize hmade : c.space.pin address length = made at helements
    obtain ⟨held, space⟩ := made
    rw [step_pin hmade, space_give]
    exact hsame helements
  | slot poolClass length =>
    have helements := c.space.elements_slot poolClass length
    generalize hmade : c.space.slot poolClass length = made at helements
    obtain ⟨slot, space⟩ := made
    rw [step_slot hmade, space_give]
    exact hsame helements
  | textureMade =>
    obtain rfl : isSetUp = true := (Bool.or_false isSetUp).symm.trans (hset rfl)
    exact Counted.textureMade h
  | textureGone =>
    have hgone := Counted.textureGone h
    rw [← Bool.or_false isSetUp] at hgone
    exact hgone
  | samplerPool size => exact hsame (elements_samplerPool _ _)
  | release held => exact hsame rfl
  | free holding =>
    cases holding with
    | nothing => exact hsame rfl
    | range held => exact hsame rfl
    | slot slot => exact hsame (elements_free _ (.slot slot))
  | freeSlot slot => exact hsame (elements_free _ (.slot slot))

theorem history_concat (calls : List Call) (call : Call) :
    history (calls ++ [call]) = ((history calls).1.step call,
      (history calls).1.setupSlots call ++ (history calls).2) := by
  rw [history, List.foldl_append]
  rfl

theorem pooled_of_execution {calls : List Call} (hrun : Execution Step new calls c) :
    (history calls).1 = c ∧ c.space.Pooled ((c.slots : Multiset Slot) + keptSlots calls) := by
  have hall : c.Sound ∧ (history calls).1 = c ∧
      c.space.Pooled ((c.slots : Multiset Slot) + keptSlots calls) := by
    refine hrun.history (P := fun calls c => c.Sound ∧ (history calls).1 = c ∧
      c.space.Pooled ((c.slots : Multiset Slot) + keptSlots calls)) ⟨sound_new, rfl, pooled_new⟩ ?_
    rintro calls c call _ ⟨hsound, hhist, hpooled⟩ ⟨hallowed, rfl⟩
    refine ⟨hsound.step ⟨hallowed, rfl⟩, by rw [history_concat, hhist], ?_⟩
    rw [keptSlots, history_concat, hhist, ← Multiset.coe_add]
    exact pooled_step hpooled hsound hallowed
  exact hall.2

theorem counted_of_execution {calls : List Call} (hrun : Execution Step new calls c) :
    SetupFirst calls → MetalSpace.Counted (calls.any Call.setsUp) c.space.elements := by
  refine hrun.history (P := fun calls c =>
    SetupFirst calls → MetalSpace.Counted (calls.any Call.setsUp) c.space.elements)
    (fun _ => ⟨rfl, rfl⟩) ?_
  rintro calls c call _ ih ⟨-, rfl⟩ hfirst
  rw [List.any_append, List.any_cons, List.any_nil, Bool.or_false]
  refine counted_step (ih hfirst.of_concat) fun hmakes => ?_
  obtain ⟨call', hmem, hset⟩ := hfirst calls call [] rfl hmakes
  rcases List.mem_append.mp hmem with hmem | hmem
  · rw [List.any_eq_true.mpr ⟨call', hmem, hset⟩, Bool.true_or]
  · rw [← List.mem_singleton.mp hmem, hset, Bool.or_true]

theorem poolsSane_of_pooled {kept : List Slot} (hsound : c.Sound)
    (h : c.space.Pooled ((c.slots : Multiset Slot) + kept)) : c.PoolsSane kept where
  pool pool hpool := (h.pools.holds pool hpool).poolSane
  used pool hpool hkept := by
    obtain ⟨slot, hslot⟩ := Multiset.exists_mem_of_ne_zero (h.pools.used pool hpool hkept)
    obtain ⟨hmem, hname⟩ := Multiset.mem_filter.mp hslot
    exact ⟨slot, hmem, hname⟩
  named slot hslot := by
    obtain ⟨pool, hpool, hname⟩ := h.pools.named slot hslot
    exact ⟨pool, ⟨hpool, hname⟩, fun pool' ⟨hpool', hname'⟩ =>
      h.pools.unique hpool' hpool (hname'.trans hname.symm)⟩
  nodup := h.pools.nodup
  slot poolClass length := (h.slot_spec hsound poolClass length).2
  free slot hslot := by
    have hpools : PoolsHold c.space.pools (c.liveSlots kept) := h.pools
    rw [← Multiset.cons_erase hslot] at hpools
    exact (MetalSpace.freeSlot_of_poolsHold hpools).2

/-- After every history the pools hold the live slots and no other, and where a setup came before any
texture, the arrays have room for more textures than live. -/
theorem poolsSane_of_execution {calls : List Call} (hrun : Execution Step new calls c) :
    c.PoolsSane (keptSlots calls) ∧
      (SetupFirst calls → (∃ call ∈ calls, call.makesTexture) →
        c.space.elements.live < c.space.elements.array / elementBytes) := by
  refine ⟨poolsSane_of_pooled (sound_of_execution hrun) (pooled_of_execution hrun).2,
    fun hfirst ⟨call, hmem, hmakes⟩ => ?_⟩
  have hcounted := counted_of_execution hrun hfirst
  obtain ⟨pre, post, rfl⟩ := List.append_of_mem hmem
  obtain ⟨call', hbefore, hset⟩ := hfirst pre call post rfl hmakes
  have hmade : call' ∈ pre ++ call :: post := by
    rcases List.mem_append.mp hbefore with hpre | hlast
    · exact List.mem_append_left _ hpre
    · rw [List.mem_singleton.mp hlast]
      exact hmem
  rw [List.any_eq_true.mpr ⟨call', hmade, hset⟩] at hcounted
  exact hcounted

/-- A queue, a texture, and a shared slot of a page. -/
theorem queue_texture_slot_poolsSane :
    (((new.step (.firstUse .queue)).step .textureMade).step (.slot .shared 0x100)).PoolsSane
        (keptSlots [.firstUse .queue, .textureMade, .slot .shared 0x100]) ∧
      (((new.step (.firstUse .queue)).step .textureMade).step
          (.slot .shared 0x100)).space.elements.live <
        (((new.step (.firstUse .queue)).step .textureMade).step
          (.slot .shared 0x100)).space.elements.array / elementBytes := by
  have hqueue : Execution Step new [.firstUse .queue] _ := .single ⟨trivial, rfl⟩
  have htexture := hqueue.snoc (a := Call.textureMade) ⟨trivial, rfl⟩
  have hslot := htexture.snoc (a := Call.slot .shared 0x100) ⟨trivial, rfl⟩
  obtain ⟨hsane, hcounted⟩ := poolsSane_of_execution hslot
  exact ⟨hsane, hcounted (setupFirst_cons rfl _)
    ⟨.textureMade, List.mem_cons_of_mem _ List.mem_cons_self, rfl⟩⟩

end Client

end ReimsVgpu.Gpu
