import Mathlib.Order.Bounds.Basic
import ReimsVgpu.Gpu.IcbPool
import ReimsVgpu.Library.Execution

/-!
# Histories of the numbers of indirect command buffers

A buffer's ID and its range are freed at different times, in any order. In every history the plain IDs
in use, the reserved ones and the free ones are all there are, each of one kind, and the ranges in use
do not meet.

## Main definitions

* `History`, `Step`: the space, beside the buffers whose ID is not given back, the ranges not dropped
  and the IDs reserved.
* `History.Sane`: what holds in every history.

## Main results

* `icbNumbers_apart`: no ID and no address is handed out twice.
-/

namespace ReimsVgpu.Gpu.IcbNumbers

open IntervalList (points Separated)

/-- A space with what its history made of it. -/
structure History where
  space : Space
  live : List Numbers
  held : List (ℕ × ℕ)
  kept : List ℕ

/-- A call on the space. -/
inductive Event where
  | took (placed : Option ℕ) (size : ℕ)
  | gaveBack (numbers : Numbers)
  | reserved (ids : List ℕ) (answer : Reservation)
  | dropped (range : ℕ × ℕ)

/-- The plain IDs of buffers. -/
def plainIds (live : List Numbers) : List ℕ := (live.filter (·.plain)).map (·.id)

/-- The bytes of a range that meet no range held. -/
def Apart (address bytes : ℕ) (held : List (ℕ × ℕ)) : Prop :=
  ∀ r ∈ held, address + bytes ≤ r.1 ∨ r.1 + r.2 ≤ address

/-- The bytes of the range of a buffer, where no sum wraps. -/
def bytesFor (size : ℕ) : ℕ := nextMultipleOf (size + page) slot

/-- The addresses a buffer may lie at. -/
def places (size : ℕ) (held : List (ℕ × ℕ)) : Set ℕ :=
  {address | firstAddress ≤ address ∧ slot ∣ address ∧ Apart address (bytesFor size) held}

/-- A buffer of the size does not overflow the space. -/
def RoomFor (size : ℕ) (held : List (ℕ × ℕ)) : Prop :=
  ∃ address ∈ places size held, address + bytesFor size < 2 ^ 64

/-- The doublings that hold any ID a reservation takes. -/
def enoughFuel : ℕ := 27

namespace History

/-- A space that nothing was taken from. -/
def new : History where
  space := .new
  live := []
  held := []
  kept := []

/-- A buffer is made. -/
def took (h : History) (placed : Option ℕ) (size : ℕ) : History where
  space := (h.space.take placed size).2
  live := (h.space.take placed size).1 :: h.live
  held := ((h.space.take placed size).1.address, bytesFor size) :: h.held
  kept := h.kept

/-- A buffer is released. -/
def gaveBack (h : History) (numbers : Numbers) : History :=
  { h with space := h.space.giveBack numbers, live := h.live.erase numbers }

/-- A reservation is answered. -/
def reserved (h : History) (ids : List ℕ) (answer : Reservation) (space : Space) : History :=
  { h with
    space
    kept := (if answer = .taken then ids.filter fun id => decide (id ≠ 0) else []) ++ h.kept }

/-- The range of a buffer is dropped. -/
def dropped (h : History) (range : ℕ × ℕ) : History :=
  { h with space := h.space.dropRange range.1, held := h.held.erase range }

end History

/-- The calls: the buffers given back are live, and the ranges dropped are held. -/
inductive Step : History → Event → History → Prop
  | took {h : History} {placed : Option ℕ} {size : ℕ} (hsize : h.space.thePool.size < 2 ^ 63)
      (hroom : RoomFor size h.held) : Step h (.took placed size) (h.took placed size)
  | gaveBack {h : History} {numbers : Numbers} (hlive : numbers ∈ h.live) :
      Step h (.gaveBack numbers) (h.gaveBack numbers)
  | reserved {h : History} {ids : List ℕ} {answer : Reservation} {space : Space} {fuel : ℕ}
      (hfuel : enoughFuel ≤ fuel) (hanswer : h.space.reserve fuel ids = some (answer, space)) :
      Step h (.reserved ids answer) (h.reserved ids answer space)
  | dropped {h : History} {range : ℕ × ℕ} (hheld : range ∈ h.held) :
      Step h (.dropped range) (h.dropped range)

/-- Each ID of the pool is of one kind: free, plain and in use by one buffer, or reserved. -/
structure Split (p : Pool) (plain kept : List ℕ) : Prop where
  mem_iff : ∀ id, (id ∈ points p.free ∨ id ∈ plain ∨ id ∈ kept) ↔ 1 ≤ id ∧ id < p.size
  free_apart : ∀ id ∈ points p.free, id ∉ plain ∧ id ∉ kept
  plain_apart : ∀ id ∈ plain, id ∉ kept
  nodup : plain.Nodup

namespace History

/-- The free ranges do not touch, lie inside the pool and are those of both indexes, and each ID of the
pool is free, or plain and in use, or reserved. -/
structure Sane (h : History) : Prop where
  separated : Separated h.space.thePool.free
  inside : ∀ e ∈ h.space.thePool.free, 1 ≤ e.1 ∧ e.2 ≤ h.space.thePool.size
  smallest : h.space.thePool.smallest = Pool.smallestOf h.space.thePool.free
  split : Split h.space.thePool (plainIds h.live) h.kept

/-! ### The ranges -/

/-- The ranges of the space are those held, in order. -/
structure Ranged (ranges held : List (ℕ × ℕ)) : Prop where
  perm : ranges.Perm held
  sorted : ranges.Pairwise fun r s => r.1 + r.2 ≤ s.1
  range : ∀ r ∈ ranges, slot ∣ r.1 ∧ slot ∣ r.2 ∧ 0 < r.2 ∧ r.1 + r.2 < 2 ^ 64

end History

theorem slot_dvd_bytesFor (size : ℕ) : slot ∣ bytesFor size := Nat.dvd_mul_left _ _

theorem bytesFor_pos (size : ℕ) : size < bytesFor size := by
  unfold bytesFor nextMultipleOf slot page
  omega

/-- Where no sum wraps, the range has the bytes. -/
theorem footprint_eq {size : ℕ} (h : bytesFor size < 2 ^ 64) : Space.footprint size = bytesFor size := by
  have hsum : size + page ≤ bytesFor size := by
    unfold bytesFor nextMultipleOf slot page
    omega
  unfold Space.footprint saturatingAdd
  rw [min_eq_left (by omega)]
  exact Nat.mod_eq_of_lt h

theorem Space.address_take (s : Space) (placed : Option ℕ) (size : ℕ) :
    (s.take placed size).1.address =
      Space.addressFrom (Space.footprint size) firstAddress s.ranges := rfl

theorem Space.ranges_take (s : Space) (placed : Option ℕ) (size : ℕ) :
    (s.take placed size).2.ranges =
      RunMap.insert (s.take placed size).1.address (Space.footprint size) s.ranges := rfl

/-- The search answers the lowest address from the given one on. -/
theorem isLeast_addressFrom {bytes address room : ℕ} {ranges : List (ℕ × ℕ)}
    (hsorted : ranges.Pairwise fun r s => r.1 + r.2 ≤ s.1)
    (hrange : ∀ r ∈ ranges, slot ∣ r.1 ∧ slot ∣ r.2 ∧ 0 < r.2 ∧ r.1 + r.2 < 2 ^ 64)
    (hslot : slot ∣ address)
    (hroom : address ≤ room ∧ slot ∣ room ∧ Apart room bytes ranges) (hfits : room + bytes < 2 ^ 64) :
    IsLeast {a | address ≤ a ∧ slot ∣ a ∧ Apart a bytes ranges}
      (Space.addressFrom bytes address ranges) := by
  induction ranges generalizing address with
  | nil => exact ⟨⟨le_rfl, hslot, fun r hr => absurd hr List.not_mem_nil⟩, fun a ha => ha.1⟩
  | cons r ranges ih =>
    obtain ⟨start, held⟩ := r
    obtain ⟨hfirst, hsorted⟩ := List.pairwise_cons.mp hsorted
    obtain ⟨⟨hstart, hheld, hpos, hend⟩, hrange⟩ := List.forall_mem_cons.mp hrange
    obtain ⟨hle, hroomSlot, hapart⟩ := hroom
    obtain ⟨hroomFirst, hapart⟩ := List.forall_mem_cons.mp hapart
    dsimp only at hfirst hend hroomFirst hpos
    rw [Space.addressFrom, saturatingAdd, min_eq_left (by omega)]
    split_ifs with hbefore
    · refine ⟨⟨le_rfl, hslot, List.forall_mem_cons.mpr ⟨.inl hbefore, fun s hs => .inl ?_⟩⟩,
        fun a ha => ha.1⟩
      have := hfirst s hs
      omega
    · rw [saturatingAdd, min_eq_left (by omega)]
      have hnext : ∀ a, address ≤ a ∧ slot ∣ a ∧ Apart a bytes ((start, held) :: ranges) ↔
          max address (start + held) ≤ a ∧ slot ∣ a ∧ Apart a bytes ranges := fun a => by
        unfold Apart
        rw [List.forall_mem_cons, max_le_iff]
        constructor
        · rintro ⟨ha, hdvd, hor, hrest⟩
          exact ⟨⟨ha, hor.resolve_left fun hle => by dsimp only at hle; omega⟩, hdvd, hrest⟩
        · rintro ⟨⟨ha, hafter⟩, hdvd, hrest⟩
          exact ⟨ha, hdvd, .inr hafter, hrest⟩
      rw [show {a | address ≤ a ∧ slot ∣ a ∧ Apart a bytes ((start, held) :: ranges)} =
        {a | max address (start + held) ≤ a ∧ slot ∣ a ∧ Apart a bytes ranges} from Set.ext hnext]
      refine ih hsorted hrange ?_ ((hnext room).mp ⟨hle, hroomSlot,
        List.forall_mem_cons.mpr ⟨hroomFirst, hapart⟩⟩)
      rcases max_choice address (start + held) with heq | heq
      · rwa [heq]
      · rw [heq]
        exact (Nat.dvd_add_iff_right hstart).mp hheld

/-! ### The kinds of IDs -/

section Split

variable {p q : Pool} {plain plain' kept ids : List ℕ} {id : ℕ}

theorem Split.perm (h : Split p plain kept) (hperm : plain.Perm plain') : Split p plain' kept where
  mem_iff x := by
    rw [← hperm.mem_iff]
    exact h.mem_iff x
  free_apart x hx := by
    rw [← hperm.mem_iff]
    exact h.free_apart x hx
  plain_apart x hx := h.plain_apart x (hperm.mem_iff.mpr hx)
  nodup := hperm.nodup_iff.mp h.nodup

/-- An ID handed out was free, or is new. -/
theorem Split.take (h : Split p plain kept) (hpos : 0 < p.size) (htaken : Pool.Taken p id q) :
    Split q (id :: plain) kept := by
  have hsize := htaken.size_le
  have hpoints (x : ℕ) : (x ∈ points p.free ∨ p.size ≤ x ∧ x < q.size) ↔
      x = id ∨ x ∈ points q.free := Set.ext_iff.mp htaken.points x
  have hid : id ∉ plain ∧ id ∉ kept := by
    rcases (hpoints id).mpr (.inl rfl) with hfree | ⟨hle, -⟩
    · exact h.free_apart id hfree
    · have hnew : ¬(id ∈ points p.free ∨ id ∈ plain ∨ id ∈ kept) := fun hor =>
        absurd ((h.mem_iff id).mp hor).2 (not_lt.mpr hle)
      exact ⟨fun hp => hnew (.inr (.inl hp)), fun hk => hnew (.inr (.inr hk))⟩
  refine ⟨fun x => ?_, fun x hx => ?_, List.forall_mem_cons.mpr ⟨hid.2, h.plain_apart⟩,
    List.nodup_cons.mpr ⟨hid.1, h.nodup⟩⟩
  · have hx := h.mem_iff x
    have hp := hpoints x
    rw [List.mem_cons]
    constructor
    · rintro (hfree | (rfl | hplain) | hkept)
      · rcases hp.mpr (.inr hfree) with hold | hnew
        · have := hx.mp (.inl hold)
          omega
        · omega
      · rcases hp.mpr (.inl rfl) with hold | hnew
        · have := hx.mp (.inl hold)
          omega
        · omega
      · have := hx.mp (.inr (.inl hplain))
        omega
      · have := hx.mp (.inr (.inr hkept))
        omega
    · rintro ⟨h1, hlt⟩
      by_cases hold : x < p.size
      · rcases hx.mpr ⟨h1, hold⟩ with hfree | hplain | hkept
        · rcases hp.mp (.inl hfree) with heq | hfree
          · exact .inr (.inl (.inl heq))
          · exact .inl hfree
        · exact .inr (.inl (.inr hplain))
        · exact .inr (.inr hkept)
      · rcases hp.mp (.inr ⟨not_lt.mp hold, hlt⟩) with heq | hfree
        · exact .inr (.inl (.inl heq))
        · exact .inl hfree
  · have hapart : x ∉ plain ∧ x ∉ kept := by
      rcases (hpoints x).mpr (.inr hx) with hfree | ⟨hle, -⟩
      · exact h.free_apart x hfree
      · have hnew : ¬(x ∈ points p.free ∨ x ∈ plain ∨ x ∈ kept) := fun hor =>
          absurd ((h.mem_iff x).mp hor).2 (not_lt.mpr hle)
        exact ⟨fun hp => hnew (.inr (.inl hp)), fun hk => hnew (.inr (.inr hk))⟩
    refine ⟨fun hmem => ?_, hapart.2⟩
    rcases List.mem_cons.mp hmem with rfl | hmem
    · exact htaken.notMem hx
    · exact hapart.1 hmem

/-- An ID in use is given back. -/
theorem Split.give (h : Split p (id :: plain) kept) (hsize : q.size = p.size)
    (hpoints : points q.free = insert id (points p.free)) : Split q plain kept := by
  obtain ⟨hfresh, hnodup⟩ := List.nodup_cons.mp h.nodup
  obtain ⟨hkept, happart⟩ := List.forall_mem_cons.mp h.plain_apart
  refine ⟨fun x => ?_, fun x hx => ?_, happart, hnodup⟩
  · rw [hpoints, hsize, ← h.mem_iff x, Set.mem_insert_iff, List.mem_cons]
    tauto
  · rw [hpoints] at hx
    rcases hx with rfl | hx
    · exact ⟨hfresh, hkept⟩
    · exact ⟨fun hmem => (h.free_apart x hx).1 (List.mem_cons_of_mem _ hmem), (h.free_apart x hx).2⟩

/-- IDs are reserved before any is in use. -/
theorem Split.keep (h : Split p [] []) (hpos : 0 < p.size) (hsize : p.size ≤ q.size)
    (hids : ∀ id ∈ ids, 1 ≤ id ∧ id < q.size)
    (hpoints : points q.free = (points p.free ∪ Set.Ico p.size q.size) \ {id | id ∈ ids}) :
    Split q [] ids := by
  have hfree (x : ℕ) : x ∈ points q.free ↔ (1 ≤ x ∧ x < q.size) ∧ x ∉ ids := by
    have hx := h.mem_iff x
    simp only [List.not_mem_nil, or_false] at hx
    rw [hpoints, Set.mem_sdiff, Set.mem_union, hx, Set.mem_Ico, Set.mem_ofPred_eq]
    refine and_congr_left' ?_
    omega
  refine ⟨fun x => ?_, fun x hx => ⟨List.not_mem_nil, ((hfree x).mp hx).2⟩,
    fun x hx => absurd hx List.not_mem_nil, List.nodup_nil⟩
  rw [hfree]
  by_cases hx : x ∈ ids
  · exact ⟨fun _ => hids x hx, fun _ => .inr (.inr hx)⟩
  · simp [hx]

end Split

namespace History

variable {ranges held : List (ℕ × ℕ)}

/-! ### The ranges in use -/

/-- An address handed out is the lowest that the buffer may lie at. -/
theorem Ranged.address (h : Ranged ranges held) {size : ℕ} (hroom : RoomFor size held) :
    Space.footprint size = bytesFor size ∧
      IsLeast (places size held) (Space.addressFrom (bytesFor size) firstAddress ranges) ∧
      Space.addressFrom (bytesFor size) firstAddress ranges + bytesFor size < 2 ^ 64 := by
  obtain ⟨room, ⟨hle, hslot, hapart⟩, hfits⟩ := hroom
  have hiff (a : ℕ) : Apart a (bytesFor size) ranges ↔ Apart a (bytesFor size) held :=
    forall_congr' fun r => imp_congr_left h.perm.mem_iff
  have hleast := isLeast_addressFrom h.sorted h.range (⟨3, rfl⟩ : slot ∣ firstAddress)
    ⟨hle, hslot, (hiff room).mpr hapart⟩ hfits
  have hset : {a | firstAddress ≤ a ∧ slot ∣ a ∧ Apart a (bytesFor size) ranges} =
      places size held := Set.ext fun a => and_congr_right' (and_congr_right' (hiff a))
  rw [hset] at hleast
  refine ⟨footprint_eq (by omega), hleast, ?_⟩
  have := hleast.2 ⟨hle, hslot, hapart⟩
  omega

theorem Ranged.insert (h : Ranged ranges held) {address bytes : ℕ} (hslot : slot ∣ address)
    (hbytes : slot ∣ bytes) (hpos : 0 < bytes) (hfits : address + bytes < 2 ^ 64)
    (hapart : Apart address bytes held) :
    Ranged (RunMap.insert address bytes ranges) ((address, bytes) :: held) := by
  obtain ⟨pre, post, rfl, hpre, hpost⟩ := IntervalList.exists_split_of_pairwise h.sorted
    (P := fun r : ℕ × ℕ => r.1 < address) fun r s hrs hs => by omega
  have hbelow : ∀ r ∈ pre, r.1 + r.2 ≤ address := fun r hr => by
    have hside := hapart r (h.perm.mem_iff.mp (List.mem_append_left _ hr))
    have := hpre r hr
    omega
  have habove : ∀ r ∈ post, address + bytes ≤ r.1 := fun r hr => by
    have hmem := List.mem_append_right pre hr
    have hside := hapart r (h.perm.mem_iff.mp hmem)
    have := hpost r hr
    have := (h.range r hmem).2.2.1
    omega
  rw [RunMap.insert_middle hpre fun r hr => by
    have := habove r hr
    omega]
  obtain ⟨hsortedPre, hsortedPost, hacross⟩ := List.pairwise_append.mp h.sorted
  refine ⟨List.perm_middle.trans (h.perm.cons _), List.pairwise_append.mpr ⟨hsortedPre,
    List.pairwise_cons.mpr ⟨habove, hsortedPost⟩, fun r hr s hs => ?_⟩, fun r hr => ?_⟩
  · rcases List.mem_cons.mp hs with rfl | hs
    · exact hbelow r hr
    · exact hacross r hr s hs
  · rcases List.mem_cons.mp (List.perm_middle.mem_iff.mp hr) with rfl | hr
    · exact ⟨hslot, hbytes, hpos, hfits⟩
    · exact h.range r hr

theorem Ranged.erase (h : Ranged ranges held) {range : ℕ × ℕ} (hheld : range ∈ held) :
    Ranged (RunMap.erase range.1 ranges) (held.erase range) := by
  have hsub : (RunMap.erase range.1 ranges).Sublist ranges := List.filter_sublist
  refine ⟨?_, h.sorted.sublist hsub, fun r hr => h.range r (hsub.subset hr)⟩
  obtain ⟨pre, post, hsplit⟩ := List.append_of_mem (h.perm.mem_iff.mpr hheld)
  have hsorted := h.sorted
  rw [hsplit] at hsorted
  obtain ⟨-, hpost, hacross⟩ := List.pairwise_append.mp hsorted
  have hpos : ∀ r ∈ ranges, 0 < r.2 := fun r hr => (h.range r hr).2.2.1
  have hne : ∀ r ∈ pre ++ post, r.1 ≠ range.1 := fun r hr => by
    rcases List.mem_append.mp hr with hr | hr
    · have h1 := hacross r hr range List.mem_cons_self
      have h2 := hpos r (hsplit ▸ List.mem_append_left _ hr)
      omega
    · have h1 := (List.pairwise_cons.mp hpost).1 r hr
      have h2 := hpos range (hsplit ▸ List.mem_append_right _ List.mem_cons_self)
      omega
  have herase : RunMap.erase range.1 ranges = pre ++ post := by
    rw [hsplit, RunMap.erase, List.filter_append, List.filter_cons_of_neg (by simp),
      ← List.filter_append]
    exact RunMap.erase_of_notMem hne
  rw [herase]
  refine List.Perm.cons_inv (a := range) ?_
  exact (List.perm_middle.symm.trans (hsplit ▸ h.perm)).trans (List.perm_cons_erase hheld)

/-! ### The calls -/

theorem plainIds_cons (numbers : Numbers) (live : List Numbers) :
    plainIds (numbers :: live) =
      if numbers.plain then numbers.id :: plainIds live else plainIds live := by
  unfold plainIds
  rw [List.filter_cons]
  split_ifs <;> rfl

theorem plainIds_erase {numbers : Numbers} {live : List Numbers} (hlive : numbers ∈ live) :
    (plainIds live).Perm (if numbers.plain then numbers.id :: plainIds (live.erase numbers)
      else plainIds (live.erase numbers)) := by
  rw [← plainIds_cons]
  exact ((List.perm_cons_erase hlive).filter _).map _

/-- What each call keeps. -/
structure Holds (h : History) : Prop where
  sane : h.Sane
  nodup : (h.space.thePool.free.map Prod.fst).Nodup
  size_le : firstPool ≤ h.space.thePool.size
  unstarted : h.space.thePool.started = false → plainIds h.live = [] ∧ h.kept = []
  ranged : Ranged h.space.ranges h.held

variable {h h' : History}

theorem Holds.ok (hh : h.Holds) : h.space.thePool.Ok :=
  ⟨hh.sane.separated, ⟨hh.nodup, hh.sane.smallest⟩, hh.sane.inside⟩

theorem Holds.pos (hh : h.Holds) : 0 < h.space.thePool.size :=
  Nat.lt_of_lt_of_le (by decide) hh.size_le

theorem holds_of {h : History} (hok : h.space.thePool.Ok)
    (hsplit : Split h.space.thePool (plainIds h.live) h.kept) (hsize : firstPool ≤ h.space.thePool.size)
    (hunstarted : h.space.thePool.started = false → plainIds h.live = [] ∧ h.kept = [])
    (hranged : Ranged h.space.ranges h.held) : h.Holds :=
  ⟨⟨hok.separated, hok.inside, hok.indexed.smallest, hsplit⟩, hok.indexed.nodup, hsize, hunstarted,
    hranged⟩

theorem holds_new : new.Holds := by
  refine holds_of (Pool.ok_new firstPool) ⟨fun id => ?_, fun id _ => ⟨List.not_mem_nil, List.not_mem_nil⟩,
    fun id hid => absurd hid List.not_mem_nil, List.nodup_nil⟩ (by decide) (fun _ => ⟨rfl, rfl⟩)
    ⟨.nil, .nil, fun r hr => absurd hr List.not_mem_nil⟩
  change (id ∈ points (Pool.new firstPool).free ∨ id ∈ [] ∨ id ∈ []) ↔ _
  rw [Pool.points_new]
  simp only [List.not_mem_nil, or_false]
  exact Iff.rfl

theorem Holds.took (hh : h.Holds) {placed : Option ℕ} {size : ℕ} (hsize : h.space.thePool.size < 2 ^ 63)
    (hroom : RoomFor size h.held) : (h.took placed size).Holds := by
  obtain ⟨hbytes, ⟨⟨-, hslot, hapart⟩, -⟩, hfits⟩ := hh.ranged.address hroom
  have hranged : Ranged (h.took placed size).space.ranges (h.took placed size).held := by
    have hinsert := hh.ranged.insert hslot (slot_dvd_bytesFor size)
      ((Nat.zero_le size).trans_lt (bytesFor_pos size)) hfits hapart
    rw [History.took, Space.ranges_take, Space.address_take, hbytes]
    exact hinsert
  cases placed with
  | some id =>
    refine holds_of (hh.ok.flags true _) ?_ hh.size_le (fun hstarted => nomatch hstarted) hranged
    rw [History.took, plainIds_cons]
    exact ⟨hh.sane.split.mem_iff, hh.sane.split.free_apart, hh.sane.split.plain_apart,
      hh.sane.split.nodup⟩
  | none =>
    have htaken := hh.ok.take hh.pos hsize
    refine holds_of htaken.ok ?_ (hh.size_le.trans htaken.size_le)
      (fun hstarted => absurd (htaken.started.symm.trans hstarted) (by decide)) hranged
    rw [History.took, plainIds_cons]
    exact hh.sane.split.take hh.pos htaken

theorem Holds.gaveBack (hh : h.Holds) {numbers : Numbers} (hlive : numbers ∈ h.live) :
    (h.gaveBack numbers).Holds := by
  have hperm := plainIds_erase hlive
  unfold History.gaveBack Space.giveBack
  by_cases hplain : numbers.plain
  · rw [if_pos hplain] at hperm ⊢
    have hsplit := hh.sane.split.perm hperm
    have hid := (hsplit.mem_iff numbers.id).mp (.inr (.inl List.mem_cons_self))
    obtain ⟨hok, hsize, hstarted, hpoints⟩ := hh.ok.give
      (fun hmem => (hsplit.free_apart numbers.id hmem).1 List.mem_cons_self) hid
    refine holds_of hok (hsplit.give hsize hpoints) (hsize.symm ▸ hh.size_le) (fun hfalse => ?_)
      hh.ranged
    obtain ⟨hnone, -⟩ := hh.unstarted (hstarted.symm.trans hfalse)
    rw [hnone] at hperm
    exact absurd hperm.length_eq (by simp)
  · rw [if_neg hplain] at hperm ⊢
    refine holds_of hh.ok (hh.sane.split.perm hperm) hh.size_le (fun hfalse => ?_) hh.ranged
    obtain ⟨hnone, hkept⟩ := hh.unstarted hfalse
    rw [hnone] at hperm
    exact ⟨List.nil_perm.mp hperm, hkept⟩

theorem Holds.dropped (hh : h.Holds) {range : ℕ × ℕ} (hheld : range ∈ h.held) :
    (h.dropped range).Holds :=
  holds_of hh.ok hh.sane.split hh.size_le hh.unstarted (hh.ranged.erase hheld)

end History

/-- A reservation that is not taken leaves the pool, or marks it. -/
theorem Pool.eq_of_reserve {p q : Pool} {ids : List ℕ} {answer : Reservation} {fuel : ℕ}
    (h : p.reserve fuel ids = some (answer, q)) (hanswer : answer ≠ .taken) :
    ∃ loneZero, q = { p with loneZero } := by
  unfold Pool.reserve at h
  dsimp only at h
  split_ifs at h
  · obtain ⟨-, rfl⟩ := Prod.mk.inj (Option.some.inj h)
    exact ⟨_, rfl⟩
  · obtain ⟨-, rfl⟩ := Prod.mk.inj (Option.some.inj h)
    exact ⟨_, rfl⟩
  · obtain ⟨-, rfl⟩ := Prod.mk.inj (Option.some.inj h)
    exact ⟨_, rfl⟩
  · obtain ⟨-, rfl⟩ := Prod.mk.inj (Option.some.inj h)
    exact ⟨_, rfl⟩
  · obtain ⟨q', -, heq⟩ := Option.map_eq_some_iff.mp h
    exact absurd (Prod.mk.inj heq).1.symm hanswer

/-- A reservation ends, and one that is taken comes before any use of the pool. -/
theorem Pool.Ok.reserve {p : Pool} (h : p.Ok) (hsize : firstPool ≤ p.size) (ids : List ℕ) {fuel : ℕ}
    (hfuel : enoughFuel ≤ fuel) :
    ∃ answer q, p.reserve fuel ids = some (answer, q) ∧
      (answer = .taken → p.started = false ∧ q.Ok ∧ p.size ≤ q.size ∧ q.started = true ∧
        (∀ id ∈ ids.filter fun id => decide (id ≠ 0), 1 ≤ id ∧ id < q.size) ∧
        points q.free = (points p.free ∪ Set.Ico p.size q.size) \
          {id | id ∈ ids.filter fun id => decide (id ≠ 0)}) := by
  unfold Pool.reserve
  dsimp only
  split_ifs with hstarted hempty hhigh hzero
  · exact ⟨_, _, rfl, fun hanswer => nomatch hanswer⟩
  · exact ⟨_, _, rfl, fun hanswer => nomatch hanswer⟩
  · exact ⟨_, _, rfl, fun hanswer => nomatch hanswer⟩
  · exact ⟨_, _, rfl, fun hanswer => nomatch hanswer⟩
  · have hids : ∀ id ∈ ids.filter fun id => decide (id ≠ 0), id < 2 ^ 31 := fun id hid => by
      by_contra hle
      exact hhigh (List.any_eq_true.mpr ⟨id, hid, decide_eq_true (not_lt.mp hle)⟩)
    obtain ⟨fuel, rfl⟩ := Nat.exists_eq_add_of_le' (show 1 ≤ fuel from le_trans (by decide) hfuel)
    have henough : 2 ^ 31 ≤ p.size * 2 ^ fuel :=
      calc 2 ^ 31 = firstPool * 2 ^ 26 := rfl
        _ ≤ p.size * 2 ^ fuel :=
          Nat.mul_le_mul hsize (Nat.pow_le_pow_right (by decide) (Nat.le_of_lt_succ hfuel))
    obtain ⟨q, hq, hok, hle, hall, hstart, hpoints⟩ :=
      (h.flags true p.loneZero).keepAll (Nat.lt_of_lt_of_le (by decide) hsize) hids henough
    refine ⟨.taken, q, by rw [hq]; rfl, fun _ => ⟨eq_false_of_ne_true hstarted, hok, hle, hstart,
      fun id hid => ⟨?_, hall id hid⟩, hpoints⟩⟩
    exact Nat.one_le_iff_ne_zero.mpr (of_decide_eq_true (List.mem_filter.mp hid).2)

namespace History

variable {h h' : History}

theorem Holds.reserved (hh : h.Holds) {ids : List ℕ} {answer : Reservation} {space : Space} {fuel : ℕ}
    (hfuel : enoughFuel ≤ fuel) (hanswer : h.space.reserve fuel ids = some (answer, space)) :
    (h.reserved ids answer space).Holds := by
  unfold History.reserved
  unfold Space.reserve at hanswer
  split_ifs at hanswer with hhigh
  · obtain ⟨rfl, rfl⟩ := Prod.mk.inj (Option.some.inj hanswer)
    exact hh
  obtain ⟨⟨answer', q⟩, hq, heq⟩ := Option.map_eq_some_iff.mp hanswer
  obtain ⟨rfl, rfl⟩ := Prod.mk.inj heq
  dsimp only
  by_cases htaken : answer' = .taken
  · rw [if_pos htaken]
    obtain ⟨_, _, hq', hspec⟩ := hh.ok.reserve hh.size_le ids hfuel
    rw [hq] at hq'
    obtain ⟨rfl, rfl⟩ := Prod.mk.inj (Option.some.inj hq')
    obtain ⟨hstarted, hok, hle, hstart, hids, hpoints⟩ := hspec htaken
    obtain ⟨hplain, hkept⟩ := hh.unstarted hstarted
    have hsplit := hh.sane.split
    rw [hplain, hkept] at hsplit
    refine holds_of hok ?_ (hh.size_le.trans hle)
      (fun hfalse => absurd (hstart.symm.trans hfalse) (by decide)) hh.ranged
    dsimp only
    rw [hplain, hkept, List.append_nil]
    exact hsplit.keep hh.pos hle hids hpoints
  · rw [if_neg htaken, List.nil_append]
    obtain ⟨loneZero, rfl⟩ := Pool.eq_of_reserve hq htaken
    exact holds_of (hh.ok.flags _ loneZero) ⟨hh.sane.split.mem_iff, hh.sane.split.free_apart,
      hh.sane.split.plain_apart, hh.sane.split.nodup⟩ hh.size_le hh.unstarted hh.ranged

theorem Holds.step (hh : h.Holds) {event : Event} (hstep : Step h event h') : h'.Holds := by
  cases hstep with
  | took hsize hroom => exact hh.took hsize hroom
  | gaveBack hlive => exact hh.gaveBack hlive
  | reserved hfuel hanswer => exact hh.reserved hfuel hanswer
  | dropped hheld => exact hh.dropped hheld

theorem holds_of_execution {events : List Event} (hrun : Execution Step new events h) : h.Holds :=
  hrun.invariant holds_new fun _ _ _ hh hstep => hh.step hstep

end History

/-- In every history the free ranges are those of both indexes, and each ID is of one kind. A plain ID is
the lowest of the shortest free range, or the first of those the pool doubles by where none is free, and
is neither in use nor reserved. A reservation ends, and one that is not taken leaves the free IDs. The
address handed out is the lowest one whose range meets none in use. -/
theorem icbNumbers_apart {events : List Event} {h : History}
    (hrun : Execution Step History.new events h) :
    h.Sane ∧
    (∀ size, h.space.thePool.size < 2 ^ 63 →
      (if h.space.thePool.free = [] then
        (h.space.take none size).1.id = h.space.thePool.size
      else ∃ e, Pool.Shortest h.space.thePool.free e ∧ (h.space.take none size).1.id = e.1) ∧
      (h.space.take none size).1.id ∉ plainIds h.live ∧ (h.space.take none size).1.id ∉ h.kept) ∧
    (∀ ids fuel, enoughFuel ≤ fuel → ∃ answer space, h.space.reserve fuel ids = some (answer, space) ∧
      (answer ≠ .taken → space.thePool.free = h.space.thePool.free)) ∧
    ∀ placed size, RoomFor size h.held →
      IsLeast (places size h.held) (h.space.take placed size).1.address := by
  have hh := History.holds_of_execution hrun
  refine ⟨hh.sane, fun size hsize => ?_, fun ids fuel hfuel => ?_, fun placed size hroom => ?_⟩
  · have htaken := hh.ok.take hh.pos hsize
    have hsplit := hh.sane.split.take hh.pos htaken
    exact ⟨htaken.first, (List.nodup_cons.mp hsplit.nodup).1,
      hsplit.plain_apart _ List.mem_cons_self⟩
  · unfold Space.reserve
    split_ifs with hhigh
    · exact ⟨_, _, rfl, fun _ => rfl⟩
    obtain ⟨answer, q, hq, -⟩ := hh.ok.reserve hh.size_le ids hfuel
    rw [hq]
    refine ⟨answer, _, rfl, fun hanswer => ?_⟩
    obtain ⟨loneZero, rfl⟩ := Pool.eq_of_reserve hq hanswer
    rfl
  · obtain ⟨hbytes, hleast, -⟩ := hh.ranged.address hroom
    rw [Space.address_take, hbytes]
    exact hleast

/-- Two plain buffers, the first of which is released before its range is free: its ID is the next. -/
theorem icbNumbers_apart_two :
    ∃ h, Execution Step History.new
        [.took none 100, .took none 5, .gaveBack ⟨1, true, firstAddress⟩] h ∧
      h.Sane ∧ (h.space.take none 9).1 = ⟨1, true, 0x2_8000⟩ := by
  have hroom : RoomFor 100 [] := ⟨firstAddress, ⟨le_rfl, ⟨3, rfl⟩, nofun⟩, by decide⟩
  have hroom' : RoomFor 5 [(firstAddress, slot)] :=
    ⟨0x2_0000, ⟨by decide, ⟨4, rfl⟩, by unfold Apart; decide⟩, by decide⟩
  have h1 : Execution Step .new [.took none 100] (History.new.took none 100) :=
    .single (.took (by decide) hroom)
  have hsecond : Step (History.new.took none 100) (.took none 5)
      ((History.new.took none 100).took none 5) := .took (by decide +kernel) hroom'
  have hback : Step ((History.new.took none 100).took none 5) (.gaveBack ⟨1, true, firstAddress⟩)
      (((History.new.took none 100).took none 5).gaveBack ⟨1, true, firstAddress⟩) :=
    .gaveBack (by decide +kernel)
  have h3 := (h1.snoc hsecond).snoc hback
  exact ⟨_, h3, (icbNumbers_apart h3).1, by decide +kernel⟩

end ReimsVgpu.Gpu.IcbNumbers
