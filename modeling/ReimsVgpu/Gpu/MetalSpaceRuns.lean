import ReimsVgpu.Gpu.MetalSpaceOwners
import ReimsVgpu.Library.Execution

/-!
# Every history of Metal's space

Callers place, pin and take slots in any order, and give back what they were given, each thing once.
After every history no two held runs overlap, each live resource holds one run and it alone, and the
answers to the next placement, pin and release are the right ones.

## Main definitions

* `Client`, `Call`, `Client.step`: the space with what callers were given and have not given back.
* `Client.Sane`: what the space owes its callers.

## Main results

* `Client.sane_of_execution`: after every history.
-/

namespace ReimsVgpu.Gpu

open MetalSpace (pinFirst pinStop pinSpanEnd pinHeld)

/-- A call on the space. -/
inductive Call
  | firstUse (first : FirstUse)
  | place (length : ℕ)
  | pin (address length : ℕ)
  | placeTexture (kind : TextureKind)
  | placeSurface (allocSize : ℕ)
  | slot (poolClass : PoolClass) (length : ℕ)
  | textureMade
  | textureGone
  | samplerPool (size : ℕ)
  | release (held : Held)
  | free (holding : Holding)
  | freeSlot (slot : Slot)

/-- The space, with the ranges and slots that callers hold. -/
structure Client where
  space : MetalSpace
  live : List Held
  slots : List Slot

namespace Client

def new : Client where
  space := .new
  live := []
  slots := []

/-- What a call gives back, its caller holds. -/
def Allowed (c : Client) : Call → Prop
  | .release held => held ∈ c.live
  | .free (.range held) => held ∈ c.live
  | .free (.slot slot) => slot ∈ c.slots
  | .freeSlot slot => slot ∈ c.slots
  | _ => True

/-- The resource given out to a caller. -/
def give (c : Client) (holding : Holding) (space : MetalSpace) : Client :=
  match holding with
  | .nothing => { c with space }
  | .range held => { c with space, live := held :: c.live }
  | .slot slot => { c with space, slots := slot :: c.slots }

/-- The client after a call. -/
def step (c : Client) : Call → Client
  | .firstUse first => { c with space := c.space.firstUse first }
  | .place length =>
    let (held, space) := c.space.place length
    c.give (held.elim .nothing .range) space
  | .pin address length =>
    let (held, space) := c.space.pin address length
    c.give (held.toOption.elim .nothing .range) space
  | .placeTexture kind =>
    let (holding, space) := c.space.placeTexture kind
    c.give holding space
  | .placeSurface allocSize =>
    let (held, space) := c.space.placeSurface allocSize
    c.give (held.elim .nothing .range) space
  | .slot poolClass length =>
    let (slot, space) := c.space.slot poolClass length
    c.give (slot.elim .nothing .slot) space
  | .textureMade => { c with space := c.space.textureMade }
  | .textureGone => { c with space := c.space.textureGone }
  | .samplerPool size => { c with space := c.space.samplerPool size }
  | .release held => { c with space := c.space.release held, live := c.live.erase held }
  | .free .nothing => { c with space := c.space.free .nothing }
  | .free (.range held) =>
    { c with space := c.space.free (.range held), live := c.live.erase held }
  | .free (.slot slot) => { c with space := c.space.free (.slot slot), slots := c.slots.erase slot }
  | .freeSlot slot => { c with space := c.space.freeSlot slot, slots := c.slots.erase slot }

/-- A call that its caller may make. -/
def Step (c : Client) (call : Call) (c' : Client) : Prop := c.Allowed call ∧ c' = c.step call

end Client

/-- A byte that a run of the space holds. -/
def MetalSpace.HeldByte (s : MetalSpace) (x : ℕ) : Prop := ∃ e ∈ s.held, e.1 ≤ x ∧ x < e.2

/-- The right answer to a placement: the lowest start that fits, or none where none does, its whole
span then held. -/
structure PlaceAnswers (s : MetalSpace) (length : ℕ) : Prop where
  none_iff : (s.place length).1 = none ↔ ¬∃ a, FitsAt s.makeDevice.held length a
  lowest : ∀ held, (s.place length).1 = some held →
    IsLeast {a | FitsAt s.makeDevice.held length a} held.pages.start
  span : ∀ held, (s.place length).1 = some held →
    held.address = held.pages.start ∧ held.pages.stop = held.pages.start + plainBytes length ∧
      held.guard.start = held.pages.stop ∧
      held.guard.stop = held.pages.start + plainLength length
  held : ∀ held, (s.place length).1 = some held → ∀ x, (s.place length).2.HeldByte x ↔
    s.makeDevice.HeldByte x ∨ held.pages.start ≤ x ∧ x < held.guard.stop

/-- The right answer to a pin: it is refused where it passes the 64-bit space, starts off a granule, or
has a held byte, the lowest of which is told; else its whole span is held. -/
structure PinAnswers (s : MetalSpace) (address length : ℕ) : Prop where
  refused_iff : (∃ e, (s.pin address length).1 = .error e) ↔
    2 ^ 64 ≤ pinStop address length ∨ 2 ^ 64 ≤ pinSpanEnd address length ∨
      pinFirst address % slotSize ≠ 0 ∨
      ∃ x, pinFirst address ≤ x ∧ x < pinSpanEnd address length ∧ s.makeDevice.HeldByte x
  reported : ∀ requested x, (s.pin address length).1 = .error (.held requested x) →
    IsLeast {y | pinFirst address ≤ y ∧ y < pinSpanEnd address length ∧
      s.makeDevice.HeldByte y} x
  span : ∀ held, (s.pin address length).1 = .ok held →
    held = pinHeld address length
  held : ∀ held, (s.pin address length).1 = .ok held → ∀ x, (s.pin address length).2.HeldByte x ↔
    s.makeDevice.HeldByte x ∨ held.pages.start ≤ x ∧ x < held.guard.stop

/-- What the space owes its callers. -/
structure Client.Sane (c : Client) : Prop where
  nonempty : ∀ e ∈ c.space.held, e.1 < e.2
  disjoint : c.space.held.Pairwise fun e e' => e.2 ≤ e'.1 ∨ e'.2 ≤ e.1
  live_run : ∀ held ∈ c.live, c.space.held.count held.run = 1
  live_apart : (c.live.map Held.run).Nodup
  place : ∀ length, PlaceAnswers c.space length
  pin : ∀ address length, PinAnswers c.space address length
  release : ∀ held ∈ c.live, ∀ x, (c.space.release held).HeldByte x ↔
    c.space.HeldByte x ∧ ¬(held.pages.start ≤ x ∧ x < held.guard.stop)

namespace MetalSpace

/-! ### The answers of a sound space -/

variable {s : MetalSpace} {out : Multiset Held}

theorem Wf.heldByte_insert (hs : s.Wf) {start stop : ℕ} (hlt : start < stop)
    (hfree : ∀ e ∈ s.held, e.2 ≤ start ∨ stop ≤ e.1) (x : ℕ) :
    HeldByte { s with held := RunMap.insert start stop s.held } x ↔
      s.HeldByte x ∨ start ≤ x ∧ x < stop := by
  have hmem : ∀ e, e ∈ RunMap.insert start stop s.held ↔ e = (start, stop) ∨ e ∈ s.held :=
    fun e => hs.runs.mem_insert hfree hlt
  constructor
  · rintro ⟨e, he, hx⟩
    rcases (hmem e).mp he with rfl | he
    · exact .inr hx
    · exact .inl ⟨e, he, hx⟩
  · rintro (⟨e, he, hx⟩ | hx)
    · exact ⟨e, (hmem e).mpr (.inr he), hx⟩
    · exact ⟨(start, stop), (hmem _).mpr (.inl rfl), hx⟩

theorem Wf.placeAnswers (hs : s.Wf) (length : ℕ) : PlaceAnswers s length where
  none_iff := hs.place_eq_none_iff length
  lowest held h := by
    obtain ⟨a, rfl, ha, hleast, -⟩ := hs.place_eq_some h
    exact ⟨ha, hleast⟩
  span held h := by
    obtain ⟨a, rfl, -, -, -⟩ := hs.place_eq_some h
    exact ⟨rfl, rfl, rfl, rfl⟩
  held held h x := by
    obtain ⟨a, rfl, ha, -, hspace⟩ := hs.place_eq_some h
    rw [hspace]
    exact hs.makeDevice.heldByte_insert (Nat.lt_add_of_pos_right (plainLength_pos length)) ha.free x

theorem Wf.pinAnswers (hs : s.Wf) (address length : ℕ) : PinAnswers s address length where
  refused_iff := by
    constructor
    · rintro ⟨e, he⟩
      rcases (hs.pin_eq_error he).2 with ⟨-, hout⟩ | ⟨-, -, hgranule⟩ | ⟨x, -, -, -, hx⟩
      · rw [PinInside, not_and_or, not_lt, not_lt] at hout
        exact hout.elim .inl fun hspan => .inr (.inl hspan)
      · exact .inr (.inr (.inl hgranule))
      · exact .inr (.inr (.inr ⟨x, hx.1⟩))
    · intro h
      cases hpin : (s.pin address length).1 with
      | error e => exact ⟨e, rfl⟩
      | ok held =>
        obtain ⟨-, hinside, hgranule, hfree, -⟩ := hs.pin_eq_ok hpin
        rcases h with hstop | hspan | hoff | ⟨x, hfirst, hend, e, he, hle, hlt⟩
        · exact absurd hinside.1 hstop.not_gt
        · exact absurd hinside.2 hspan.not_gt
        · exact absurd hgranule hoff
        · rcases hfree e he with hbelow | habove
          · exact absurd (hlt.trans_le hbelow) hfirst.not_gt
          · exact absurd (hend.trans_le habove) hle.not_gt
  reported requested x h := by
    rcases (hs.pin_eq_error h).2 with ⟨he, -⟩ | ⟨he, -⟩ | ⟨y, he, -, -, hy⟩
    · cases he
    · cases he
    · obtain ⟨-, rfl⟩ := PinRefused.held.inj he
      exact hy
  span held h := (hs.pin_eq_ok h).1
  held held h x := by
    obtain ⟨rfl, -, -, hfree, hspace⟩ := hs.pin_eq_ok h
    rw [hspace]
    exact hs.makeDevice.heldByte_insert (pinFirst_lt_pinSpanEnd address length) hfree x

/-- A release frees the bytes of its run and no other. -/
theorem Sound.heldByte_release (h : s.Sound out) {held : Held} (hmem : held ∈ out) (x : ℕ) :
    (s.release held).HeldByte x ↔
      s.HeldByte x ∧ ¬(held.pages.start ≤ x ∧ x < held.guard.stop) := by
  have hrun : held.run ∈ s.held := h.run_mem (Multiset.mem_add.mpr (.inl hmem))
  constructor
  · rintro ⟨e, he, hle, hlt⟩
    obtain ⟨he, hne⟩ := RunMap.mem_erase.mp he
    refine ⟨⟨e, he, hle, hlt⟩, fun hx => hne ?_⟩
    exact congrArg Prod.fst (h.runs.eq_of_lt he hrun (hle.trans_lt hx.2) (hx.1.trans_lt hlt))
  · rintro ⟨⟨e, he, hle, hlt⟩, hx⟩
    refine ⟨e, RunMap.mem_erase.mpr ⟨he, fun hkey => hx ?_⟩, hle, hlt⟩
    obtain rfl := h.runs.eq_of_key he hrun hkey
    exact ⟨hle, hlt⟩

end MetalSpace

namespace Client

/-! ### The calls that give a resource out -/

section Step

variable {c : Client} {held : Option Held} {space : MetalSpace}

theorem step_place {length : ℕ} (hmade : c.space.place length = (held, space)) :
    c.step (.place length) = c.give (held.elim .nothing .range) space := by
  unfold step
  -- the call stays closed, and only the pair it gives is taken apart
  obtain ⟨placeOf, hplaceOf⟩ : ∃ f, f = MetalSpace.place := ⟨_, rfl⟩
  rewrite [← hplaceOf] at hmade ⊢
  dsimp only
  rw [hmade]

theorem step_pin {address length : ℕ} {held : Except PinRefused Held}
    (hmade : c.space.pin address length = (held, space)) :
    c.step (.pin address length) = c.give (held.toOption.elim .nothing .range) space := by
  unfold step
  obtain ⟨pinOf, hpinOf⟩ : ∃ f, f = MetalSpace.pin := ⟨_, rfl⟩
  rewrite [← hpinOf] at hmade ⊢
  dsimp only
  rw [hmade]

theorem step_placeTexture {kind : TextureKind} {holding : Holding}
    (hmade : c.space.placeTexture kind = (holding, space)) :
    c.step (.placeTexture kind) = c.give holding space := by
  unfold step
  obtain ⟨placeOf, hplaceOf⟩ : ∃ f, f = MetalSpace.placeTexture := ⟨_, rfl⟩
  rewrite [← hplaceOf] at hmade ⊢
  dsimp only
  rw [hmade]

theorem step_placeSurface {allocSize : ℕ}
    (hmade : c.space.placeSurface allocSize = (held, space)) :
    c.step (.placeSurface allocSize) = c.give (held.elim .nothing .range) space := by
  unfold step
  obtain ⟨placeOf, hplaceOf⟩ : ∃ f, f = MetalSpace.placeSurface := ⟨_, rfl⟩
  rewrite [← hplaceOf] at hmade ⊢
  dsimp only
  rw [hmade]

theorem step_slot {poolClass : PoolClass} {length : ℕ} {slot : Option Slot}
    (hmade : c.space.slot poolClass length = (slot, space)) :
    c.step (.slot poolClass length) = c.give (slot.elim .nothing .slot) space := by
  unfold step
  obtain ⟨slotOf, hslotOf⟩ : ∃ f, f = MetalSpace.slot := ⟨_, rfl⟩
  rewrite [← hslotOf] at hmade ⊢
  dsimp only
  rw [hmade]

end Step

/-! ### Every history -/

/-- The space is sound, with what callers hold as given out. -/
def Sound (c : Client) : Prop := c.space.Sound (c.live : Multiset Held)

theorem sound_new : new.Sound where
  runs := RunMap.runs_nil
  device _ := rfl
  owned := le_rfl

theorem Sound.give {c : Client} {holding : Holding} {space : MetalSpace}
    (h : space.Sound (holding.helds + (c.live : Multiset Held))) : (c.give holding space).Sound := by
  cases holding with
  | nothing => exact h.mono (zero_add _).ge
  | range held => exact h
  | slot slot => exact h.mono (zero_add _).ge

/-- What is given out, of a resource that was asked for. -/
theorem helds_elim_range (held : Option Held) :
    (held.elim .nothing .range : Holding).helds = (held.toList : Multiset Held) := by
  cases held <;> rfl

theorem Sound.erase {c : Client} (h : c.Sound) {held : Held} (hmem : held ∈ c.live) :
    c.space.Sound (held ::ₘ (c.live.erase held : Multiset Held)) := by
  have hcons : held ::ₘ (c.live.erase held : Multiset Held) = (c.live : Multiset Held) := by
    rw [Multiset.cons_coe, Multiset.coe_eq_coe]
    exact (List.perm_cons_erase hmem).symm
  rw [hcons]
  exact h

theorem Sound.step {c c' : Client} {call : Call} (h : c.Sound) (hs : c.Step call c') :
    c'.Sound := by
  obtain ⟨hallowed, rfl⟩ := hs
  cases call with
  | firstUse first => exact MetalSpace.Sound.firstUse h first
  | place length =>
    have hplace := MetalSpace.Sound.place h length
    generalize hmade : c.space.place length = made at hplace
    obtain ⟨held, space⟩ := made
    rw [step_place hmade]
    refine Sound.give ?_
    rw [helds_elim_range]
    exact hplace
  | pin address length =>
    have hpin := MetalSpace.Sound.pin h address length
    generalize hmade : c.space.pin address length = made at hpin
    obtain ⟨held, space⟩ := made
    rw [step_pin hmade]
    refine Sound.give ?_
    rw [helds_elim_range]
    exact hpin
  | placeTexture kind =>
    have hplace := MetalSpace.Sound.placeTexture h kind
    generalize hmade : c.space.placeTexture kind = made at hplace
    obtain ⟨holding, space⟩ := made
    rw [step_placeTexture hmade]
    exact Sound.give hplace
  | placeSurface allocSize =>
    have hplace := MetalSpace.Sound.placeSurface h allocSize
    generalize hmade : c.space.placeSurface allocSize = made at hplace
    obtain ⟨held, space⟩ := made
    rw [step_placeSurface hmade]
    refine Sound.give ?_
    rw [helds_elim_range]
    exact hplace
  | slot poolClass length =>
    have hslot := MetalSpace.Sound.slotHolding h poolClass length
    generalize hmade : c.space.slot poolClass length = made at hslot
    obtain ⟨slot, space⟩ := made
    rw [step_slot hmade]
    exact Sound.give hslot
  | textureMade => exact MetalSpace.Sound.textureMade h
  | textureGone => exact MetalSpace.Sound.textureGone h
  | samplerPool size => exact MetalSpace.Sound.samplerPool h size
  | release held => exact (h.erase hallowed).release
  | free holding =>
    cases holding with
    | nothing => exact h
    | range held => exact (h.erase hallowed).release
    | slot slot => exact MetalSpace.Sound.freeSlot h slot
  | freeSlot slot => exact MetalSpace.Sound.freeSlot h slot

theorem sound_of_execution {calls : List Call} {c : Client}
    (hrun : Execution Step new calls c) : c.Sound :=
  hrun.invariant sound_new fun _ _ _ h hs => h.step hs

/-- Distinct resources hold distinct runs, each once. -/
theorem Sound.nodup {c : Client} (h : c.Sound) :
    c.space.held.Nodup ∧ (c.live.map Held.run).Nodup := by
  have hheld : c.space.held.Nodup := h.runs.nodup
  refine ⟨hheld, ?_⟩
  have hle : ((c.live.map Held.run : List (ℕ × ℕ)) : Multiset (ℕ × ℕ)) ≤ c.space.held := by
    rw [← Multiset.map_coe]
    exact (Multiset.map_le_map (Multiset.le_add_right _ _)).trans h.owned
  exact Multiset.coe_nodup.mp (Multiset.nodup_of_le hle (Multiset.coe_nodup.mpr hheld))

/-- After every history of calls the space owes its callers nothing. -/
theorem sane_of_execution {calls : List Call} {c : Client} (hrun : Execution Step new calls c) :
    c.Sane := by
  have h := sound_of_execution hrun
  obtain ⟨hheld, hlive⟩ := h.nodup
  exact
    { nonempty := h.runs.lt
      disjoint := h.runs.sep.imp fun hab => .inl hab
      live_run := fun held hmem => List.count_eq_one_of_mem hheld
        (MetalSpace.Sound.run_mem h (Multiset.mem_add.mpr (.inl (Multiset.mem_coe.mpr hmem))))
      live_apart := hlive
      place := fun length => h.toWf.placeAnswers length
      pin := fun address length => h.toWf.pinAnswers address length
      release := fun held hmem => MetalSpace.Sound.heldByte_release h (Multiset.mem_coe.mpr hmem) }

/-- A plain range of a page, a pin below the space, and the range released. -/
theorem placed_pinned_sane :
    (((new.step (.place 0x4000)).step (.pin 0x8010 1)).step
      (.release (MetalSpace.plainHeld 0x4000 0x10000018000))).Sane := by
  have hplace : Execution Step new [.place 0x4000] _ := .single ⟨trivial, rfl⟩
  have hpin := hplace.snoc (a := Call.pin 0x8010 1) ⟨trivial, rfl⟩
  have hlive : MetalSpace.plainHeld 0x4000 0x10000018000 ∈
      ((new.step (.place 0x4000)).step (.pin 0x8010 1)).live := by
    decide
  exact sane_of_execution (hpin.snoc (a := Call.release _) ⟨hlive, rfl⟩)

end Client

end ReimsVgpu.Gpu
