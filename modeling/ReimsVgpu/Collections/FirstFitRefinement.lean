import ReimsVgpu.Collections.FirstFit
import ReimsVgpu.Library.Execution
import ReimsVgpu.Library.IntervalList
import ReimsVgpu.Library.Words
import Mathlib.Order.CompletePartialOrder

/-!
# The first-fit allocator against a bitmap of granules

The reference allocator is a bitmap with one bit for each granule of the space. It serves a
request of `k` granules at the lowest maximal block of free granules that holds them. Both
allocators are run side by side over a history of allocations and of deallocations of blocks that
are live, and the file compares their answers.

The two agree exactly as long as no allocation meets a free range whose end the code computes past
`2^64` before it has met one that holds the block (`NoWrap`). Where that happens the wrapped end
lies below the end of the range, the code hands the range out, and the next free range starts below
the block: `allocate_past_the_space` is such a run of the root task's space.

## Main definitions

* `Bitmap`, `Bitmap.allocate`, `Bitmap.release`: the reference.
* `State`, `Step`: both allocators and the live blocks, over one history.
* `NoWrap`: the rounded size does not wrap at a range met by the search.
* `WellFormed`: what is promised of every state.

## Main results

* `refines_bitmap_of_noWrap`: along every history whose allocations meet `NoWrap`, the states are
  well formed, and an allocation answers as the reference does exactly when it meets `NoWrap`.
-/

open IntervalList

namespace ReimsVgpu.Collections

/-! ### The reference -/

/-- A bitmap of the granules of a space. -/
structure Bitmap where
  granules : ℕ
  used : ℕ → Bool

namespace Bitmap

/-- Granule `i` lies in the space and is free. -/
def isFree (m : Bitmap) (i : ℕ) : Bool := i < m.granules && !m.used i

/-- A maximal block of free granules starts at `i`. -/
def startsBlock (m : Bitmap) (i : ℕ) : Bool := m.isFree i && (i == 0 || !m.isFree (i - 1))

/-- The `k` granules from `i` on are free. -/
def holds (m : Bitmap) (k i : ℕ) : Bool := (List.range k).all fun j => m.isFree (i + j)

/-- Set the `k` granules from `i` on. -/
def mark (m : Bitmap) (i k : ℕ) (v : Bool) : Bitmap :=
  { m with used := fun j => if i ≤ j ∧ j < i + k then v else m.used j }

/-- The lowest maximal free block that holds `k` granules; a request of none fails. -/
def find (m : Bitmap) (k : ℕ) : Option ℕ :=
  if k = 0 then none
  else (List.range m.granules).find? fun i => m.startsBlock i && m.holds k i

/-- Serve a request of `k` granules at the block `find` gives. -/
def allocate (m : Bitmap) (k : ℕ) : Option ℕ × Bitmap :=
  match m.find k with
  | none => (none, m)
  | some i => (some i, m.mark i k true)

/-- Free the `k` granules from `i` on. -/
def release (m : Bitmap) (i k : ℕ) : Bitmap := m.mark i k false

theorem isFree_iff (m : Bitmap) (i : ℕ) :
    m.isFree i = true ↔ i < m.granules ∧ m.used i = false := by
  simp [isFree]

theorem isFree_mark_true (m : Bitmap) (i k j : ℕ) :
    (m.mark i k true).isFree j = true ↔ m.isFree j = true ∧ j ∉ Set.Ico i (i + k) := by
  rw [isFree_iff, isFree_iff, Set.mem_Ico]
  simp only [mark]
  split_ifs with h <;> simp [h]

theorem isFree_mark_false (m : Bitmap) {i k : ℕ} (hik : i + k ≤ m.granules) (j : ℕ) :
    (m.mark i k false).isFree j = true ↔ m.isFree j = true ∨ j ∈ Set.Ico i (i + k) := by
  rw [isFree_iff, isFree_iff, Set.mem_Ico]
  simp only [mark]
  split_ifs with h
  · simp only [h, and_self, or_true, and_true, iff_true]
    omega
  · simp [h]

variable {m : Bitmap} {l : List (ℕ × ℕ)} {k : ℕ}

section

variable (hsep : Separated l) (hfree : ∀ i, m.isFree i = true ↔ i ∈ points l)

include hsep hfree

private theorem startsBlock_iff (i : ℕ) : m.startsBlock i = true ↔ ∃ b, (i, b) ∈ l := by
  rw [hsep.exists_mem_iff_starts_block, startsBlock]
  simp only [Bool.and_eq_true, Bool.or_eq_true, beq_iff_eq, Bool.not_eq_true', hfree,
    ← Bool.not_eq_true]

private theorem holds_iff {a b : ℕ} (hab : (a, b) ∈ l) : m.holds k a = true ↔ a + k ≤ b := by
  rw [hsep.add_le_iff_points hab]
  simp only [holds, List.all_eq_true, List.mem_range, hfree]

/-- The reference answers the first interval of the free list that holds the request. -/
theorem find_eq_some_of_first {pre post : List (ℕ × ℕ)} {a b : ℕ}
    (hl : l = pre ++ (a, b) :: post) (hk : 0 < k) (hpre : ∀ p ∈ pre, ¬ p.1 + k ≤ p.2)
    (hab : a + k ≤ b) : m.find k = some a := by
  subst hl
  have hmem : (a, b) ∈ pre ++ (a, b) :: post := by simp
  have hlt : a < m.granules := by
    have ha : m.isFree a = true := (hfree a).mpr ⟨(a, b), hmem, le_rfl, by simp only; omega⟩
    exact ((m.isFree_iff a).mp ha).1
  rw [find, if_neg hk.ne', List.find?_range_eq_some]
  refine ⟨?_, List.mem_range.mpr hlt, fun j hj => ?_⟩
  · rw [Bool.and_eq_true]
    exact ⟨(startsBlock_iff hsep hfree a).mpr ⟨b, hmem⟩, (holds_iff hsep hfree hmem).mpr hab⟩
  · rw [Bool.not_eq_true', ← Bool.not_eq_true, Bool.and_eq_true]
    rintro ⟨hstart, hholds⟩
    obtain ⟨c, hc⟩ := (startsBlock_iff hsep hfree j).mp hstart
    exact hpre (j, c) (hsep.mem_pre_of_start_lt hc hj) ((holds_iff hsep hfree hc).mp hholds)

/-- The reference fails when no interval of the free list holds the request. -/
theorem find_eq_none_of_forall (h : ∀ p ∈ l, ¬ p.1 + k ≤ p.2) : m.find k = none := by
  rw [find]
  split_ifs with h0
  · rfl
  · rw [List.find?_eq_none]
    intro i _ hi
    rw [Bool.and_eq_true] at hi
    obtain ⟨b, hb⟩ := (startsBlock_iff hsep hfree i).mp hi.1
    exact h (i, b) hb ((holds_iff hsep hfree hb).mp hi.2)

end

theorem isFree_of_find_eq_some {i : ℕ} (h : m.find k = some i) :
    ∀ j < k, m.isFree (i + j) = true := by
  rw [find] at h
  split_ifs at h
  rw [List.find?_range_eq_some, Bool.and_eq_true] at h
  exact fun j hj => List.all_eq_true.mp h.1.2 j (List.mem_range.mpr hj)

end Bitmap

/-! ### Both allocators over one history -/

/-- The granules a size takes. -/
def granulesOf (g : ℕ) (size : UInt64) : ℕ := (size.toNat + (g - 1)) / g

/-- The bytes of a live block. -/
def liveBytes (g : ℕ) (p : UInt64 × UInt64) : Set ℕ :=
  Set.Ico p.1.toNat (p.1.toNat + g * granulesOf g p.2)

/-- An operation of the history. -/
inductive Op
  | allocate (size : UInt64)
  | deallocate (start size : UInt64)

/-- The allocator, the blocks it has handed out and not taken back (start and size asked for), and
the reference. -/
structure State where
  va : FirstFitVa
  live : List (UInt64 × UInt64)
  bits : Bitmap

namespace State

/-- The empty space `0..=last`. -/
def init (last granule : UInt64) : State where
  va := .new last granule
  live := []
  bits := ⟨(last.toNat + 1) / granule.toNat, fun _ => false⟩

/-- An allocation: the block the allocator answers is live. -/
def allocate (s : State) (g : ℕ) (size : UInt64) : State where
  va := (s.va.allocate size).2
  live := match (s.va.allocate size).1 with
    | none => s.live
    | some a => (a, size) :: s.live
  bits := (s.bits.allocate (granulesOf g size)).2

/-- The deallocation of a block. -/
def deallocate (s : State) (g : ℕ) (start size : UInt64) : State where
  va := s.va.deallocate start size
  live := s.live.erase (start, size)
  bits := s.bits.release (start.toNat / g) (granulesOf g size)

/-- The allocator and the reference answer an allocation alike. -/
def Agree (s : State) (g : ℕ) (size : UInt64) : Prop :=
  (s.va.allocate size).1.map UInt64.toNat = (s.bits.allocate (granulesOf g size)).1.map (g * ·)

end State

/-- The histories: allocations whose rounding does not wrap, deallocations of live blocks. -/
inductive Step (g : ℕ) : State → Op → State → Prop
  | allocate (s : State) (size : UInt64) (h : size.toNat + g < 2 ^ 64) :
      Step g s (.allocate size) (s.allocate g size)
  | deallocate (s : State) (start size : UInt64) (h : (start, size) ∈ s.live) :
      Step g s (.deallocate start size) (s.deallocate g start size)

/-- Range `r` holds a block of `asz` bytes at its start. -/
def Fits (asz : ℕ) (r : FreeRange) : Prop := r.start.toNat + asz ≤ r.last.toNat + 1

instance (asz : ℕ) (r : FreeRange) : Decidable (Fits asz r) := Nat.decLe _ _

/-- Up to the first range that holds `asz` bytes, no range starts so high that its start plus
`asz` passes `2^64`. -/
def NoWrap (asz : ℕ) : List FreeRange → Prop
  | [] => True
  | r :: rest => Fits asz r ∨ (r.start.toNat + asz ≤ 2 ^ 64 ∧ NoWrap asz rest)

instance decidableNoWrap (asz : ℕ) : (l : List FreeRange) → Decidable (NoWrap asz l)
  | [] => isTrue trivial
  | _ :: rest => @instDecidableOr _ _ _ (@instDecidableAnd _ _ _ (decidableNoWrap asz rest))

theorem noWrap_zero (l : List FreeRange) : NoWrap 0 l := by
  induction l with
  | nil => trivial
  | cons r rest ih => exact Or.inr ⟨r.start.toNat_lt.le, ih⟩

/-- The steps whose allocation does not wrap. -/
def NoWrapStep (g : ℕ) (s : State) (op : Op) (s' : State) : Prop :=
  Step g s op s' ∧ ∀ size, op = .allocate size → NoWrap (g * granulesOf g size) s.va.free

/-- What every state promises: the free ranges are nonempty, inside the space, ascending, disjoint
and not adjacent, exactly the complement of the live blocks, which are inside the space and do not
overlap. -/
structure WellFormed (last : UInt64) (g : ℕ) (s : State) : Prop where
  nonempty : ∀ r ∈ s.va.free, r.start ≤ r.last ∧ r.last ≤ last
  ascending : s.va.free.Pairwise fun r q => r.last.toNat + 1 < q.start.toNat
  complement : ∀ x ≤ last.toNat, (∃ r ∈ s.va.free, r.start.toNat ≤ x ∧ x ≤ r.last.toNat) ↔
    ¬ ∃ p ∈ s.live, x ∈ liveBytes g p
  live_inside : ∀ p ∈ s.live, liveBytes g p ⊆ Set.Iic last.toNat
  live_disjoint : s.live.Pairwise fun p q => Disjoint (liveBytes g p) (liveBytes g q)

/-! ### Ranges in granules -/

/-- A range in granules, half open. -/
def block (g : ℕ) (r : FreeRange) : ℕ × ℕ := (r.start.toNat / g, (r.last.toNat + 1) / g)

/-- Both ends of a range lie on granule boundaries. -/
structure Aligned (g : ℕ) (r : FreeRange) : Prop where
  start : g ∣ r.start.toNat
  last : g ∣ r.last.toNat + 1

section Words

variable {g : ℕ} {r q : FreeRange}

theorem Aligned.start_eq (h : Aligned g r) : r.start.toNat = g * (block g r).1 :=
  (Nat.mul_div_cancel' h.start).symm

theorem Aligned.last_eq (h : Aligned g r) : r.last.toNat + 1 = g * (block g r).2 :=
  (Nat.mul_div_cancel' h.last).symm

theorem aligned_of_eq {a b : ℕ} (ha : r.start.toNat = g * a) (hb : r.last.toNat + 1 = g * b) :
    Aligned g r :=
  ⟨⟨a, ha⟩, ⟨b, hb⟩⟩

theorem block_of_eq (hg : 0 < g) {a b : ℕ} (ha : r.start.toNat = g * a)
    (hb : r.last.toNat + 1 = g * b) : block g r = (a, b) := by
  rw [block, ha, hb, Nat.mul_div_cancel_left _ hg, Nat.mul_div_cancel_left _ hg]

/-- A range is ahead of another, not touching it, exactly when its block is. -/
theorem Aligned.lt_iff (hg : 0 < g) (hr : Aligned g r) (hq : Aligned g q) :
    r.last.toNat + 1 < q.start.toNat ↔ (block g r).2 < (block g q).1 := by
  rw [hr.last_eq, hq.start_eq, Nat.mul_lt_mul_left hg]

/-- A byte lies in a range exactly when its granule lies in the block. -/
theorem Aligned.mem_iff (hg : 0 < g) (hr : Aligned g r) (x : ℕ) :
    (r.start.toNat ≤ x ∧ x ≤ r.last.toNat) ↔ (block g r).1 ≤ x / g ∧ x / g < (block g r).2 := by
  rw [Nat.le_div_iff_mul_le hg, Nat.div_lt_iff_lt_mul hg, Nat.mul_comm _ g, Nat.mul_comm _ g,
    ← hr.start_eq, ← hr.last_eq, Nat.lt_succ_iff]

theorem Aligned.fits_iff (hg : 0 < g) (hr : Aligned g r) (k : ℕ) :
    Fits (g * k) r ↔ (block g r).1 + k ≤ (block g r).2 := by
  rw [Fits, hr.start_eq, hr.last_eq, ← Nat.mul_add, Nat.mul_le_mul_left_iff hg]

/-- The last byte of a block of whole granules that ends inside the 64-bit space. -/
theorem toNat_stop {start asz : UInt64} {a k : ℕ} (hk : 0 < k) (hg : 0 < g)
    (hs : start.toNat = g * a) (ha : asz.toNat = g * k) (hle : g * (a + k) ≤ 2 ^ 64) :
    (start + asz - 1).toNat + 1 = g * (a + k) := by
  have hpos : 0 < g * k := Nat.mul_pos hg hk
  rw [Nat.mul_add] at hle ⊢
  rw [UInt64.toNat_sub, UInt64.toNat_add, hs, ha, UInt64.toNat_one]
  omega

theorem toNat_add_of_lt {start asz : UInt64} {a k : ℕ} (hs : start.toNat = g * a)
    (ha : asz.toNat = g * k) (hlt : g * (a + k) < 2 ^ 64) :
    (start + asz).toNat = g * (a + k) := by
  rw [Nat.mul_add] at hlt ⊢
  rw [UInt64.toNat_add, hs, ha, Nat.mod_eq_of_lt hlt]

theorem granulesOf_pos (hg : 0 < g) {size : UInt64} (h : size ≠ 0) : 0 < granulesOf g size := by
  have hpos : size.toNat ≠ 0 := fun h0 => h (UInt64.toNat_inj.mp h0)
  exact Nat.div_pos (by omega) hg

end Words

section Allocator

variable {k : ℕ} {va : FirstFitVa} (hmask : va.mask.toNat = 2 ^ k - 1)

include hmask

theorem toNat_round {size : UInt64} (h : size.toNat + 2 ^ k < 2 ^ 64) :
    (va.round size).toNat = 2 ^ k * granulesOf (2 ^ k) size :=
  UInt64.toNat_roundUp hmask (by have := Nat.two_pow_pos k; omega)

/-- A range on a granule boundary is served at its own start. -/
theorem align_start (hk : k ≤ 64) {r : FreeRange} (hr : Aligned (2 ^ k) r) :
    (r.start + va.mask) &&& ~~~va.mask = r.start := by
  have hg : 0 < 2 ^ k := Nat.two_pow_pos k
  have hle : r.start.toNat + (2 ^ k - 1) < 2 ^ 64 := by
    have hlt := r.start.toNat_lt
    obtain ⟨c, hc⟩ := pow_dvd_pow 2 hk
    rw [hr.start_eq] at hlt ⊢
    rw [hc, Nat.mul_lt_mul_left hg] at hlt
    have hmul := Nat.mul_le_mul_left (2 ^ k) hlt
    rw [hc]
    rw [Nat.succ_eq_add_one, Nat.mul_add] at hmul
    omega
  apply UInt64.toNat_inj.mp
  rw [UInt64.toNat_roundUp hmask hle, hr.start_eq, Nat.mul_add_div hg,
    Nat.div_eq_of_lt (by omega), Nat.add_zero]

/-- What the search makes of a range: a range that holds the block is accepted, one too short for
it is passed over as long as the end does not wrap, and is accepted when it does. -/
theorem fit_eq (hk : k ≤ 64) {asz : UInt64} (hasz : asz ≠ 0) {r : FreeRange}
    (hr : Aligned (2 ^ k) r) (hne : r.start ≤ r.last) :
    va.fit asz r = if Fits asz.toNat r ∨ 2 ^ 64 < r.start.toNat + asz.toNat then
      some (r.start, r.start + asz - 1) else none := by
  have hpos : asz.toNat ≠ 0 := fun h0 => hasz (UInt64.toNat_inj.mp h0)
  have h1 := asz.toNat_lt
  have h2 := r.start.toNat_lt
  have h3 := r.last.toNat_lt
  rw [UInt64.le_iff_toNat_le] at hne
  simp only [FirstFitVa.fit, align_start hmask hk hr]
  refine if_congr ?_ rfl rfl
  rw [UInt64.le_iff_toNat_le, UInt64.toNat_sub, UInt64.toNat_add, UInt64.toNat_one, Fits]
  omega

/-- Under `NoWrap` the search stops at the first range that holds the block, and only there. -/
theorem noWrap_cases (hk : k ≤ 64) {asz : UInt64} (hasz : asz ≠ 0) {free : List FreeRange}
    (hal : ∀ r ∈ free, Aligned (2 ^ k) r) (hne : ∀ r ∈ free, r.start ≤ r.last)
    (h : NoWrap asz.toNat free) :
    (∀ r ∈ free, ¬ Fits asz.toNat r ∧ va.fit asz r = none) ∨
    ∃ pre r post, free = pre ++ r :: post ∧ Fits asz.toNat r ∧
      va.fit asz r = some (r.start, r.start + asz - 1) ∧
      ∀ q ∈ pre, ¬ Fits asz.toNat q ∧ va.fit asz q = none := by
  induction free with
  | nil => exact Or.inl (by simp)
  | cons r rest ih =>
    have hfit := fit_eq hmask hk hasz (hal r List.mem_cons_self) (hne r List.mem_cons_self)
    by_cases hr : Fits asz.toNat r
    · exact Or.inr ⟨[], r, rest, rfl, hr, by simp [hfit, hr], by simp⟩
    · obtain ⟨hle, hrest⟩ := h.resolve_left hr
      have hnone : va.fit asz r = none := by
        rw [hfit, if_neg]
        rintro (hc | hc)
        · exact hr hc
        · omega
      rcases ih (fun q hq => hal q (List.mem_cons_of_mem r hq))
        (fun q hq => hne q (List.mem_cons_of_mem r hq)) hrest with hall | ⟨pre, q, post, hq⟩
      · exact Or.inl (List.forall_mem_cons.mpr ⟨⟨hr, hnone⟩, hall⟩)
      · obtain ⟨rfl, hf, hs, hpre⟩ := hq
        exact Or.inr ⟨r :: pre, q, post, rfl, hf, hs,
          List.forall_mem_cons.mpr ⟨⟨hr, hnone⟩, hpre⟩⟩

/-- Where `NoWrap` fails, the search hands out a range too short for the block before it has met
one that holds it. -/
theorem exists_wrap_of_not_noWrap (hk : k ≤ 64) {asz : UInt64} (hasz : asz ≠ 0)
    {free : List FreeRange} (hal : ∀ r ∈ free, Aligned (2 ^ k) r)
    (hne : ∀ r ∈ free, r.start ≤ r.last) (h : ¬ NoWrap asz.toNat free) :
    ∃ pre r post, free = pre ++ r :: post ∧ ¬ Fits asz.toNat r ∧
      va.fit asz r = some (r.start, r.start + asz - 1) ∧
      ∀ q ∈ pre, ¬ Fits asz.toNat q ∧ va.fit asz q = none := by
  induction free with
  | nil => exact absurd trivial h
  | cons r rest ih =>
    have hfit := fit_eq hmask hk hasz (hal r List.mem_cons_self) (hne r List.mem_cons_self)
    rw [NoWrap, not_or, not_and_or] at h
    obtain ⟨hr, hle⟩ := h
    by_cases hw : 2 ^ 64 < r.start.toNat + asz.toNat
    · exact ⟨[], r, rest, rfl, hr, by rw [hfit, if_pos (Or.inr hw)], by simp⟩
    · have hnone : va.fit asz r = none := by
        rw [hfit, if_neg]
        exact not_or.mpr ⟨hr, hw⟩
      have hrest := hle.resolve_left (by omega)
      obtain ⟨pre, q, post, rfl, hf, hs, hpre⟩ := ih
        (fun q hq => hal q (List.mem_cons_of_mem r hq))
        (fun q hq => hne q (List.mem_cons_of_mem r hq)) hrest
      exact ⟨r :: pre, q, post, rfl, hf, hs, List.forall_mem_cons.mpr ⟨⟨hr, hnone⟩, hpre⟩⟩

end Allocator

/-! ### Free lists and sets of granules -/

/-- The free ranges lie on granule boundaries and list the granules of `S` in maximal blocks. -/
structure Lists (g : ℕ) (free : List FreeRange) (S : Set ℕ) : Prop where
  aligned : ∀ r ∈ free, Aligned g r
  sep : Separated (free.map (block g))
  points_eq : points (free.map (block g)) = S

namespace Lists

variable {g : ℕ} {free pre post : List FreeRange} {r : FreeRange} {S : Set ℕ}

theorem start_le_last (h : Lists g free S) (hg : 0 < g) (hr : r ∈ free) : r.start ≤ r.last := by
  have hlt := h.sep.lt _ (List.mem_map_of_mem hr)
  have hal := h.aligned r hr
  have hmul := (Nat.mul_lt_mul_left hg).mpr hlt
  rw [← hal.start_eq, ← hal.last_eq] at hmul
  exact UInt64.le_iff_toNat_le.mpr (Nat.lt_succ_iff.mp hmul)

theorem block_subset (h : Lists g free S) (hr : r ∈ free) :
    Set.Ico (block g r).1 (block g r).2 ⊆ S := fun _ hx =>
  h.points_eq ▸ ⟨block g r, List.mem_map_of_mem hr, hx⟩

theorem mem_iff (h : Lists g free S) (i : ℕ) : i ∈ S ↔
    ∃ r ∈ free, (block g r).1 ≤ i ∧ i < (block g r).2 := by
  rw [← h.points_eq]
  simp only [mem_points, List.mem_map, exists_exists_and_eq_and]

/-- Cut a block of `m` granules off the front of a range. -/
theorem carve (h : Lists g (pre ++ r :: post) S) (hg : 0 < g) {asz : UInt64} {m : ℕ}
    (hm : 0 < m) (hasz : asz.toNat = g * m) (hle : (block g r).1 + m ≤ (block g r).2) :
    Lists g (pre ++ FirstFitVa.cutFront r asz ++ post)
      (S \ Set.Ico (block g r).1 ((block g r).1 + m)) := by
  have hr : Aligned g r := h.aligned r (by simp)
  have hlast := hr.last_eq
  have hbound := r.last.toNat_lt
  have hmul := Nat.mul_le_mul_left g hle
  have hstop := toNat_stop hm hg hr.start_eq hasz (by omega)
  have hiff : r.start + asz - 1 = r.last ↔ (block g r).1 + m = (block g r).2 := by
    rw [← UInt64.toNat_inj, ← Nat.add_right_cancel_iff (n := 1), hstop, hlast,
      Nat.mul_right_inj hg.ne']
  have hcut : (FirstFitVa.cutFront r asz).map (block g) =
        (if (block g r).1 + m = (block g r).2 then [] else
          [((block g r).1 + m, (block g r).2)]) ∧
      ∀ q ∈ FirstFitVa.cutFront r asz, Aligned g q := by
    by_cases heq : (block g r).1 + m = (block g r).2
    · rw [FirstFitVa.cutFront, if_pos (hiff.mpr heq), if_pos heq]
      exact ⟨rfl, by simp⟩
    · have hlt : g * ((block g r).1 + m) < g * (block g r).2 :=
        (Nat.mul_lt_mul_left hg).mpr (lt_of_le_of_ne hle heq)
      have hstart := toNat_add_of_lt hr.start_eq hasz (by omega)
      rw [FirstFitVa.cutFront, if_neg fun hc => heq (hiff.mp hc), if_neg heq, List.map_singleton]
      refine ⟨?_, List.forall_mem_singleton.mpr (aligned_of_eq hstart hlast)⟩
      rw [@block_of_eq g ⟨r.start + asz, r.last⟩ hg _ _ hstart hlast]
  have hsep := h.sep
  have hpts := h.points_eq
  rw [List.map_append, List.map_cons] at hsep hpts
  obtain ⟨hsep', hpts'⟩ := Separated.carve (a := (block g r).1) (b := (block g r).2) hsep
    (Nat.le_add_right _ m) hle
  refine ⟨?_, ?_, ?_⟩
  · have hall := h.aligned
    simp only [List.forall_mem_append, List.forall_mem_cons] at hall ⊢
    exact ⟨⟨hall.1, hcut.2⟩, hall.2.2⟩
  · rw [List.map_append, List.map_append, hcut.1]
    exact hsep'
  · rw [List.map_append, List.map_append, hcut.1, hpts', ← hpts]

end Lists

/-! ### Deallocation -/

namespace Lists

variable {g a m : ℕ} {va : FirstFitVa} {S : Set ℕ} {start size : UInt64}

private theorem of_map_eq {free : List FreeRange} {l : List (ℕ × ℕ)} {T : Set ℕ}
    (hal : ∀ r ∈ free, Aligned g r) (hmap : free.map (block g) = l)
    (h : Separated l ∧ points l = T) : Lists g free T :=
  ⟨hal, hmap ▸ h.1, hmap ▸ h.2⟩

/-- The free ranges on the two sides of a block that is not free: those that start below it end at
or below its start, the others start at or after its end. -/
theorem split_at (h : Lists g va.free S) (hg : 0 < g) (hm : 0 < m) (hs : start.toNat = g * a)
    (hdisj : ∀ i ∈ Set.Ico a (a + m), i ∉ S) :
    ∃ pre post, va.free = pre ++ post ∧
      (∀ r ∈ pre, r.start < start ∧ (block g r).2 ≤ a) ∧
      (∀ r ∈ post, start < r.start ∧ a + m ≤ (block g r).1) := by
  have hpair : va.free.Pairwise fun r q => (block g r).1 < (block g q).1 := by
    refine (List.pairwise_map.mp h.sep.sep).imp_of_mem fun hr _ hrq => ?_
    exact (h.sep.lt _ (List.mem_map_of_mem hr)).trans hrq
  obtain ⟨pre, post, hfree, hpre, hpost⟩ :=
    exists_split_of_pairwise (P := fun r => (block g r).1 < a) hpair fun _ _ hrq hq => hrq.trans hq
  have hlt_iff {r : FreeRange} (hr : r ∈ va.free) :
      r.start < start ↔ (block g r).1 < a := by
    rw [UInt64.lt_iff_toNat_lt, (h.aligned r hr).start_eq, hs, Nat.mul_lt_mul_left hg]
  refine ⟨pre, post, hfree, fun r hr => ?_, fun r hr => ?_⟩
  · have hmem : r ∈ va.free := hfree ▸ List.mem_append_left post hr
    refine ⟨(hlt_iff hmem).mpr (hpre r hr), Nat.le_of_not_lt fun hc => ?_⟩
    exact hdisj a ⟨le_rfl, by omega⟩ (h.block_subset hmem ⟨(hpre r hr).le, hc⟩)
  · have hmem : r ∈ va.free := hfree ▸ List.mem_append_right pre hr
    have hge := hpost r hr
    have hlt := h.sep.lt _ (List.mem_map_of_mem hmem)
    have hout : ¬ (block g r).1 < a + m := fun hc =>
      hdisj (block g r).1 ⟨by omega, hc⟩ (h.block_subset hmem ⟨le_rfl, hlt⟩)
    refine ⟨?_, by omega⟩
    rw [UInt64.lt_iff_toNat_lt, (h.aligned r hmem).start_eq, hs, Nat.mul_lt_mul_left hg]
    omega

section Touch

variable {asz : UInt64} {p q : FreeRange} (hg : 0 < g) (hs : start.toNat = g * a)
  (hasz : asz.toNat = g * m)

include hg hs in
private theorem touches_prev_iff (hp : Aligned g p) (hle : (block g p).2 ≤ a) :
    start ≤ p.last + 1 ↔ (block g p).2 = a := by
  have hmul := Nat.mul_le_mul_left g hle
  have hlt := start.toNat_lt
  have hlast := hp.last_eq
  rw [UInt64.le_iff_toNat_le, UInt64.toNat_add, UInt64.toNat_one, hlast,
    Nat.mod_eq_of_lt (by omega), hs, Nat.mul_le_mul_left_iff hg]
  omega

include hg hs hasz in
private theorem touches_next_iff (hq : Aligned g q) (hle : a + m ≤ (block g q).1) :
    q.start ≤ start + asz ↔ (block g q).1 = a + m := by
  have hmul := Nat.mul_le_mul_left g hle
  have hlt := q.start.toNat_lt
  have hstart := hq.start_eq
  rw [UInt64.le_iff_toNat_le, toNat_add_of_lt hs hasz (by omega), hstart,
    Nat.mul_le_mul_left_iff hg]
  omega

include hg hs hasz in
private theorem last_lt_stop (hm : 0 < m) (hend : g * (a + m) ≤ 2 ^ 64) (hp : Aligned g p)
    (hle : (block g p).2 ≤ a) : p.last < start + asz - 1 := by
  have hmul := Nat.mul_le_mul_left g hle
  have hlast := hp.last_eq
  have hstop := toNat_stop hm hg hs hasz hend
  have hpos := Nat.mul_pos hg hm
  rw [Nat.mul_add] at hstop
  rw [UInt64.lt_iff_toNat_lt]
  omega

end Touch

private theorem block_join {p q : FreeRange} (hg : 0 < g) (hp : Aligned g p) (hq : Aligned g q) :
    Aligned g ⟨p.start, q.last⟩ ∧
      block g ⟨p.start, q.last⟩ = ((block g p).1, (block g q).2) :=
  ⟨aligned_of_eq hp.start_eq hq.last_eq, block_of_eq hg hp.start_eq hq.last_eq⟩

section Glue

variable (pre post : List FreeRange) {f p q : FreeRange}

private theorem insert_freed (h : Lists g (pre ++ post) S) (hf : Aligned g f)
    (hlt : (block g f).1 < (block g f).2) (hpre : ∀ r ∈ pre, (block g r).2 < (block g f).1)
    (hpost : ∀ r ∈ post, (block g f).2 < (block g r).1) :
    Lists g (pre ++ f :: post) (S ∪ Set.Ico (block g f).1 (block g f).2) := by
  have hsep := h.sep
  rw [List.map_append] at hsep
  refine of_map_eq (l := pre.map (block g) ++ block g f :: post.map (block g)) ?_ (by simp) ?_
  · have hal := h.aligned
    simp only [List.forall_mem_append, List.forall_mem_cons] at hal ⊢
    exact ⟨hal.1, hf, hal.2⟩
  · rw [← h.points_eq, List.map_append]
    exact hsep.insert_between hlt (List.forall_mem_map.mpr hpre) (List.forall_mem_map.mpr hpost)

variable (hg : 0 < g)

include hg

private theorem extend_prev (h : Lists g (pre ++ p :: post) S) (hf : Aligned g f)
    (hlt : (block g f).1 < (block g f).2) (hp : (block g p).2 = (block g f).1)
    (hpost : ∀ r ∈ post, (block g f).2 < (block g r).1) :
    Lists g (pre ++ ⟨p.start, f.last⟩ :: post)
      (S ∪ Set.Ico (block g f).1 (block g f).2) := by
  have hal := h.aligned
  simp only [List.forall_mem_append, List.forall_mem_cons] at hal
  obtain ⟨hjal, hjoin⟩ := block_join hg hal.2.1 hf
  have hsep := h.sep
  rw [List.map_append, List.map_cons, ← Prod.mk.eta (p := block g p), hp] at hsep
  refine of_map_eq (l := pre.map (block g) ++ ((block g p).1, (block g f).2) ::
    post.map (block g)) ?_ (by simp [hjoin]) ?_
  · simp only [List.forall_mem_append, List.forall_mem_cons]
    exact ⟨hal.1, hjal, hal.2.2⟩
  · rw [← h.points_eq, List.map_append, List.map_cons, ← Prod.mk.eta (p := block g p), hp]
    exact hsep.extend_right hlt (List.forall_mem_map.mpr hpost)

private theorem extend_next (h : Lists g (pre ++ q :: post) S) (hf : Aligned g f)
    (hlt : (block g f).1 < (block g f).2) (hq : (block g q).1 = (block g f).2)
    (hpre : ∀ r ∈ pre, (block g r).2 < (block g f).1) :
    Lists g (pre ++ ⟨f.start, q.last⟩ :: post)
      (S ∪ Set.Ico (block g f).1 (block g f).2) := by
  have hal := h.aligned
  simp only [List.forall_mem_append, List.forall_mem_cons] at hal
  obtain ⟨hjal, hjoin⟩ := block_join hg hf hal.2.1
  have hsep := h.sep
  rw [List.map_append, List.map_cons, ← Prod.mk.eta (p := block g q), hq] at hsep
  refine of_map_eq (l := pre.map (block g) ++ ((block g f).1, (block g q).2) ::
    post.map (block g)) ?_ (by simp [hjoin]) ?_
  · simp only [List.forall_mem_append, List.forall_mem_cons]
    exact ⟨hal.1, hjal, hal.2.2⟩
  · rw [← h.points_eq, List.map_append, List.map_cons, ← Prod.mk.eta (p := block g q), hq]
    exact hsep.extend_left hlt (List.forall_mem_map.mpr hpre)

private theorem bridge_freed (h : Lists g (pre ++ p :: q :: post) S)
    (hp : (block g p).2 = (block g f).1) (hq : (block g q).1 = (block g f).2) :
    Lists g (pre ++ ⟨p.start, q.last⟩ :: post)
      (S ∪ Set.Ico (block g f).1 (block g f).2) := by
  have hal := h.aligned
  simp only [List.forall_mem_append, List.forall_mem_cons] at hal
  obtain ⟨hjal, hjoin⟩ := block_join hg hal.2.1 hal.2.2.1
  have hsep := h.sep
  rw [List.map_append, List.map_cons, List.map_cons, ← Prod.mk.eta (p := block g p),
    ← Prod.mk.eta (p := block g q), hp, hq] at hsep
  refine of_map_eq (l := pre.map (block g) ++ ((block g p).1, (block g q).2) ::
    post.map (block g)) ?_ (by simp [hjoin]) ?_
  · simp only [List.forall_mem_append, List.forall_mem_cons]
    exact ⟨hal.1, hjal, hal.2.2.2⟩
  · rw [← h.points_eq, List.map_append, List.map_cons, List.map_cons,
      ← Prod.mk.eta (p := block g p), ← Prod.mk.eta (p := block g q), hp, hq]
    exact hsep.bridge

end Glue

/-- Ranges before one that ends at or below `a` end strictly below `a`. -/
private theorem lt_of_mem_before (pre post : List FreeRange) {p : FreeRange}
    (h : Lists g (pre ++ p :: post) S) (hle : (block g p).2 ≤ a) :
    ∀ r ∈ pre, (block g r).2 < a := by
  have hsep := h.sep
  rw [List.map_append, List.map_cons] at hsep
  obtain ⟨-, hlt, -, hpre, -, -⟩ :=
    Separated.middle_iff (a := (block g p).1) (b := (block g p).2) |>.mp hsep
  intro r hr
  exact ((hpre _ (List.mem_map_of_mem hr)).trans hlt).trans_le hle

/-- Ranges after one that starts at or after `b` start strictly after `b`. -/
private theorem lt_of_mem_after (pre post : List FreeRange) {q : FreeRange} {b : ℕ}
    (h : Lists g (pre ++ q :: post) S) (hle : b ≤ (block g q).1) :
    ∀ r ∈ post, b < (block g r).1 := by
  have hsep := h.sep
  rw [List.map_append, List.map_cons] at hsep
  obtain ⟨-, hlt, -, -, hpost, -⟩ :=
    Separated.middle_iff (a := (block g q).1) (b := (block g q).2) |>.mp hsep
  intro r hr
  exact (hle.trans_lt hlt).trans (hpost _ (List.mem_map_of_mem hr))

/-- Freeing a block of `m` granules from granule `a` on adds them to the free ones. -/
theorem deallocate (h : Lists g va.free S) (hg : 0 < g) (hm : 0 < m) (hs : start.toNat = g * a)
    (hasz : (va.round size).toNat = g * m) (hend : g * (a + m) ≤ 2 ^ 64)
    (hdisj : ∀ i ∈ Set.Ico a (a + m), i ∉ S) :
    Lists g (va.deallocate start size).free (S ∪ Set.Ico a (a + m)) := by
  obtain ⟨pre, post, hfree, hpre, hpost⟩ := h.split_at hg hm hs hdisj
  have hstop := toNat_stop hm hg hs hasz hend
  have hfal : Aligned g ⟨start, start + va.round size - 1⟩ := aligned_of_eq hs hstop
  have hfb : block g ⟨start, start + va.round size - 1⟩ = (a, a + m) := block_of_eq hg hs hstop
  have hflt : (block g ⟨start, start + va.round size - 1⟩).1 <
      (block g ⟨start, start + va.round size - 1⟩).2 := by rw [hfb]; simp only; omega
  rw [show Set.Ico a (a + m) = Set.Ico (block g ⟨start, start + va.round size - 1⟩).1
    (block g ⟨start, start + va.round size - 1⟩).2 by rw [hfb]]
  have hal := h.aligned
  rw [hfree] at h hal
  rcases List.eq_nil_or_concat pre with rfl | ⟨pre, p, rfl⟩ <;> rcases post with _ | ⟨q, post⟩
  · rw [va.deallocate_nil start size (by simpa using hfree)]
    exact insert_freed [] [] h hfal hflt (by simp) (by simp)
  · have hq := (hpost q List.mem_cons_self).2
    have hqa : Aligned g q := hal q (by simp)
    have hafter := lt_of_mem_after [] post h hq
    rw [va.deallocate_head start size (by simpa using hfree) (hpost q List.mem_cons_self).1]
    simp only [touches_next_iff hg hs hasz hqa hq]
    split_ifs with ht
    · exact extend_next [] post hg h hfal hflt (by rw [ht, hfb]) (by simp)
    · refine insert_freed [] (q :: post) h hfal hflt (by simp) (List.forall_mem_cons.mpr ⟨?_, ?_⟩)
      · rw [hfb]; simp only; omega
      · rwa [hfb]
  · have hp := (hpre p (by simp)).2
    have hpa : Aligned g p := hal p (by simp)
    simp only [List.concat_eq_append, List.append_nil] at h hfree hpre
    rw [va.deallocate_tail start size hfree (fun r hr => (hpre r hr).1)
      (last_lt_stop hg hs hasz hm hend hpa hp)]
    have hbefore := lt_of_mem_before _ _ h hp
    simp only [gt_iff_lt, ← UInt64.not_le, touches_prev_iff hg hs hpa hp, ite_not]
    split_ifs with ht
    · exact extend_prev _ _ hg h hfal hflt (by rw [ht, hfb]) (by simp)
    · have := insert_freed (pre ++ [p]) [] (by simpa using h) hfal hflt
        (List.forall_mem_append.mpr ⟨by rwa [hfb], List.forall_mem_singleton.mpr ?_⟩) (by simp)
      · simpa using this
      · rw [hfb]; simp only; omega
  · have hp := (hpre p (by simp)).2
    have hpa : Aligned g p := hal p (by simp)
    have hq := (hpost q List.mem_cons_self).2
    have hqa : Aligned g q := hal q (by simp)
    simp only [List.concat_eq_append, List.append_assoc, List.singleton_append] at h hfree hpre
    have hbefore := lt_of_mem_before _ _ h hp
    have hafter := lt_of_mem_after (pre ++ [p]) post (by simpa using h) hq
    rw [va.deallocate_between start size hfree (fun r hr => (hpre r hr).1)
      (hpost q List.mem_cons_self).1 (last_lt_stop hg hs hasz hm hend hpa hp)]
    simp only [touches_prev_iff hg hs hpa hp, touches_next_iff hg hs hasz hqa hq]
    split_ifs with htp htq htq
    · exact bridge_freed _ _ hg h (by rw [htp, hfb]) (by rw [htq, hfb])
    · refine extend_prev _ _ hg h hfal hflt (by rw [htp, hfb]) (List.forall_mem_cons.mpr ⟨?_, ?_⟩)
      · rw [hfb]; simp only; omega
      · rwa [hfb]
    · have := extend_next (pre ++ [p]) post hg (by simpa using h) hfal hflt (by rw [htq, hfb])
        (List.forall_mem_append.mpr ⟨by rwa [hfb], List.forall_mem_singleton.mpr ?_⟩)
      · simpa using this
      · rw [hfb]; simp only; omega
    · have := insert_freed (pre ++ [p]) (q :: post) (by simpa using h) hfal hflt
        (List.forall_mem_append.mpr ⟨by rwa [hfb], List.forall_mem_singleton.mpr ?_⟩)
        (List.forall_mem_cons.mpr ⟨?_, by rwa [hfb]⟩)
      · simpa using this
      · rw [hfb]; simp only; omega
      · rw [hfb]; simp only; omega

end Lists

/-! ### The histories -/

/-- The granules of a live block. -/
def liveGranules (g : ℕ) (p : UInt64 × UInt64) : Set ℕ :=
  Set.Ico (p.1.toNat / g) (p.1.toNat / g + granulesOf g p.2)

/-- The free ranges list the free granules of the reference, and the granules that are not free
are those of the live blocks, which do not overlap. -/
structure Invariant (k n : ℕ) (s : State) : Prop where
  mask : s.va.mask.toNat = 2 ^ k - 1
  granules : s.bits.granules = n
  lists : Lists (2 ^ k) s.va.free {i | s.bits.isFree i = true}
  live_ok : ∀ p ∈ s.live, 2 ^ k ∣ p.1.toNat ∧ p.2 ≠ 0 ∧ p.2.toNat + 2 ^ k < 2 ^ 64 ∧
    p.1.toNat / 2 ^ k + granulesOf (2 ^ k) p.2 ≤ n
  live_iff : ∀ i < n, ¬ s.bits.isFree i = true ↔ ∃ p ∈ s.live, i ∈ liveGranules (2 ^ k) p
  live_disjoint : s.live.Pairwise fun p q =>
    Disjoint (liveGranules (2 ^ k) p) (liveGranules (2 ^ k) q)

namespace Invariant

variable {k n : ℕ} {s : State}

/-- No block of the free list passes the end of the space. -/
theorem block_le (h : Invariant k n s) {r : FreeRange} (hr : r ∈ s.va.free) :
    (block (2 ^ k) r).2 ≤ n := by
  have hlt := h.lists.sep.lt _ (List.mem_map_of_mem hr)
  have hlast : s.bits.isFree ((block (2 ^ k) r).2 - 1) = true :=
    h.lists.block_subset hr ⟨Nat.le_sub_one_of_lt hlt, by omega⟩
  have := ((s.bits.isFree_iff _).mp hlast).1
  have := h.granules
  omega

private theorem forall_not_fits_block {pre : List FreeRange} {g m : ℕ} (hg : 0 < g)
    (hal : ∀ q ∈ pre, Aligned g q) (hpre : ∀ q ∈ pre, ¬ Fits (g * m) q) :
    ∀ p ∈ pre.map (block g), ¬ p.1 + m ≤ p.2 := by
  intro p hp
  obtain ⟨q, hq, rfl⟩ := List.mem_map.mp hp
  rw [← (hal q hq).fits_iff hg]
  exact hpre q hq

private theorem free_iff (h : Invariant k n s) (i : ℕ) :
    s.bits.isFree i = true ↔ i ∈ points (s.va.free.map (block (2 ^ k))) := by
  rw [h.lists.points_eq, Set.mem_ofPred_eq]

/-- The reference's answer where the first range that holds the block is known. -/
theorem bits_find_eq_some (h : Invariant k n s) {m : ℕ} (hm : 0 < m)
    {pre post : List FreeRange} {r : FreeRange} (hfree : s.va.free = pre ++ r :: post)
    (hpre : ∀ q ∈ pre, ¬ Fits (2 ^ k * m) q) (hr : Fits (2 ^ k * m) r) :
    s.bits.find m = some (block (2 ^ k) r).1 := by
  have hal := h.lists.aligned
  simp only [hfree, List.forall_mem_append, List.forall_mem_cons] at hal
  refine Bitmap.find_eq_some_of_first h.lists.sep h.free_iff (b := (block (2 ^ k) r).2)
    (by rw [hfree, List.map_append, List.map_cons]) hm
    (forall_not_fits_block (Nat.two_pow_pos k) hal.1 hpre) ?_
  exact (hal.2.1.fits_iff (Nat.two_pow_pos k) m).mp hr

/-- The reference fails where no range holds the block. -/
theorem bits_find_eq_none (h : Invariant k n s) {m : ℕ}
    (hall : ∀ r ∈ s.va.free, ¬ Fits (2 ^ k * m) r) : s.bits.find m = none :=
  Bitmap.find_eq_none_of_forall h.lists.sep h.free_iff
    (forall_not_fits_block (Nat.two_pow_pos k) h.lists.aligned hall)

theorem granulesOf_zero (k : ℕ) : granulesOf (2 ^ k) 0 = 0 :=
  Nat.div_eq_of_lt (by have := Nat.two_pow_pos k; simp)

private theorem round_ne_zero (h : Invariant k n s) {size : UInt64} (h0 : size ≠ 0)
    (hsize : size.toNat + 2 ^ k < 2 ^ 64) : s.va.round size ≠ 0 := by
  intro hz
  have hround := toNat_round h.mask hsize
  rw [hz, UInt64.toNat_zero] at hround
  exact (Nat.mul_pos (Nat.two_pow_pos k) (granulesOf_pos (Nat.two_pow_pos k) h0)).ne hround

/-- The two ways an allocation that does not wrap can go, for both allocators. -/
theorem allocate_cases (h : Invariant k n s) (hk : k ≤ 64) {size : UInt64}
    (hsize : size.toNat + 2 ^ k < 2 ^ 64)
    (hw : NoWrap (2 ^ k * granulesOf (2 ^ k) size) s.va.free) :
    (s.va.allocate size = (none, s.va) ∧ s.bits.find (granulesOf (2 ^ k) size) = none) ∨
    (size ≠ 0 ∧ ∃ pre r post, s.va.free = pre ++ r :: post ∧
      (block (2 ^ k) r).1 + granulesOf (2 ^ k) size ≤ (block (2 ^ k) r).2 ∧
      s.bits.find (granulesOf (2 ^ k) size) = some (block (2 ^ k) r).1 ∧
      s.va.allocate size = (some r.start, { s.va with
        free := pre ++ FirstFitVa.cutFront r (s.va.round size) ++ post })) := by
  have hg : 0 < 2 ^ k := Nat.two_pow_pos k
  by_cases h0 : size = 0
  · subst h0
    exact Or.inl ⟨s.va.allocate_zero, by simp [Bitmap.find, granulesOf_zero]⟩
  have hround := toNat_round h.mask hsize
  rw [← hround] at hw
  rcases noWrap_cases h.mask hk (h.round_ne_zero h0 hsize) h.lists.aligned
    (fun r hr => h.lists.start_le_last hg hr) hw with hall | ⟨pre, r, post, hfree, hf, hs, hpre⟩
  · left
    rw [hround] at hall
    exact ⟨s.va.allocate_eq_none size fun r hr => (hall r hr).2,
      h.bits_find_eq_none fun r hr => (hall r hr).1⟩
  · right
    rw [hround] at hf hpre
    have hal : Aligned (2 ^ k) r := h.lists.aligned r (by simp [hfree])
    exact ⟨h0, pre, r, post, hfree, (hal.fits_iff hg _).mp hf,
      h.bits_find_eq_some (granulesOf_pos hg h0) hfree (fun q hq => (hpre q hq).1) hf,
      s.va.allocate_eq_some h0 hfree (fun q hq => (hpre q hq).2) hs⟩

/-- An allocation that does not wrap keeps the invariant. -/
theorem allocate (h : Invariant k n s) (hk : k ≤ 64) {size : UInt64}
    (hsize : size.toNat + 2 ^ k < 2 ^ 64)
    (hw : NoWrap (2 ^ k * granulesOf (2 ^ k) size) s.va.free) :
    Invariant k n (s.allocate (2 ^ k) size) := by
  have hg : 0 < 2 ^ k := Nat.two_pow_pos k
  rcases h.allocate_cases hk hsize hw with
    ⟨hnone, hfind⟩ | ⟨h0, pre, r, post, hfree, hle, hfind, ha⟩
  · have hst : s.allocate (2 ^ k) size = s := by
      simp [State.allocate, hnone, Bitmap.allocate, hfind]
    rwa [hst]
  have hm := granulesOf_pos hg h0
  have hlists := h.lists
  rw [hfree] at hlists
  have hr : Aligned (2 ^ k) r := hlists.aligned r (by simp)
  have hcarve := hlists.carve hg hm (toNat_round h.mask hsize) hle
  have hblock := hlists.block_subset (r := r) (by simp)
  have hend : (block (2 ^ k) r).1 + granulesOf (2 ^ k) size ≤ n :=
    hle.trans (h.block_le (by simp [hfree]))
  have hfree' (i : ℕ) : (s.allocate (2 ^ k) size).bits.isFree i = true ↔
      s.bits.isFree i = true ∧ i ∉ liveGranules (2 ^ k) (r.start, size) := by
    simp only [State.allocate, Bitmap.allocate, hfind]
    exact s.bits.isFree_mark_true _ _ i
  refine ⟨?_, ?_, ?_, ?_, fun i hi => ?_, ?_⟩
  · simpa only [State.allocate, ha] using h.mask
  · simpa only [State.allocate, Bitmap.allocate, hfind, Bitmap.mark] using h.granules
  · rw [show {i | (s.allocate (2 ^ k) size).bits.isFree i = true} =
      {i | s.bits.isFree i = true} \ liveGranules (2 ^ k) (r.start, size) from Set.ext hfree']
    simp only [State.allocate, ha]
    exact hcarve
  · simp only [State.allocate, ha, List.forall_mem_cons]
    exact ⟨⟨hr.start, h0, hsize, hend⟩, h.live_ok⟩
  · rw [hfree', not_and_or, not_not, h.live_iff i hi, or_comm]
    simp only [State.allocate, ha, List.mem_cons, exists_eq_or_imp]
  · simp only [State.allocate, ha, List.pairwise_cons]
    refine ⟨fun p hp => Set.disjoint_left.mpr fun x hx hxp => ?_, h.live_disjoint⟩
    exact (h.live_iff x (hx.2.trans_le hend)).mpr ⟨p, hp, hxp⟩ (hblock ⟨hx.1, hx.2.trans_le hle⟩)

/-- The deallocation of a live block keeps the invariant. -/
theorem deallocate (h : Invariant k n s) (hn : 2 ^ k * n ≤ 2 ^ 64) {start size : UInt64}
    (hlive : (start, size) ∈ s.live) : Invariant k n (s.deallocate (2 ^ k) start size) := by
  have hg : 0 < 2 ^ k := Nat.two_pow_pos k
  obtain ⟨hal, h0, hsize, hend⟩ := h.live_ok _ hlive
  have hm := granulesOf_pos hg h0
  have hs : start.toNat = 2 ^ k * (start.toNat / 2 ^ k) := (Nat.mul_div_cancel' hal).symm
  have hused (i : ℕ) (hi : i ∈ liveGranules (2 ^ k) (start, size)) :
      i ∉ {i | s.bits.isFree i = true} :=
    (h.live_iff i (hi.2.trans_le hend)).mpr ⟨_, hlive, hi⟩
  have hlists := h.lists.deallocate hg hm hs (toNat_round h.mask hsize)
    ((Nat.mul_le_mul_left _ hend).trans hn) hused
  have hfree' (i : ℕ) : (s.deallocate (2 ^ k) start size).bits.isFree i = true ↔
      s.bits.isFree i = true ∨ i ∈ liveGranules (2 ^ k) (start, size) :=
    s.bits.isFree_mark_false (h.granules ▸ hend) i
  have hperm := List.perm_cons_erase hlive
  have hdisj : (s.live.erase (start, size)).Pairwise (fun p q =>
        Disjoint (liveGranules (2 ^ k) p) (liveGranules (2 ^ k) q)) ∧
      ∀ p ∈ s.live.erase (start, size),
        Disjoint (liveGranules (2 ^ k) (start, size)) (liveGranules (2 ^ k) p) := by
    have := (hperm.pairwise_iff fun hpq => hpq.symm).mp h.live_disjoint
    exact ⟨(List.pairwise_cons.mp this).2, (List.pairwise_cons.mp this).1⟩
  refine ⟨?_, h.granules, ?_, fun p hp => h.live_ok p (List.mem_of_mem_erase hp), fun i hi => ?_,
    hdisj.1⟩
  · have hmask : (s.va.deallocate start size).mask = s.va.mask := by
      unfold FirstFitVa.deallocate
      split
      · rfl
      · split <;> rfl
    exact hmask ▸ h.mask
  · rw [show {i | (s.deallocate (2 ^ k) start size).bits.isFree i = true} =
      {i | s.bits.isFree i = true} ∪ liveGranules (2 ^ k) (start, size) from Set.ext hfree']
    exact hlists
  · rw [hfree', not_or, h.live_iff i hi]
    constructor
    · rintro ⟨⟨p, hp, hip⟩, hni⟩
      refine ⟨p, (List.mem_erase_of_ne ?_).mpr hp, hip⟩
      rintro rfl
      exact hni hip
    · rintro ⟨p, hp, hip⟩
      exact ⟨⟨p, List.mem_of_mem_erase hp, hip⟩, fun hc =>
        Set.disjoint_left.mp (hdisj.2 p hp) hc hip⟩

/-- Where the search meets a range whose end wraps, the allocator hands that range out and the
reference does not. -/
theorem not_agree_of_wrap (h : Invariant k n s) (hk : k ≤ 64) {size : UInt64} (h0 : size ≠ 0)
    (hsize : size.toNat + 2 ^ k < 2 ^ 64)
    (hw : ¬ NoWrap (2 ^ k * granulesOf (2 ^ k) size) s.va.free) : ¬ s.Agree (2 ^ k) size := by
  have hg : 0 < 2 ^ k := Nat.two_pow_pos k
  have hround := toNat_round h.mask hsize
  rw [← hround] at hw
  obtain ⟨pre, r, post, hfree, hr, hs, hpre⟩ := exists_wrap_of_not_noWrap h.mask hk
    (h.round_ne_zero h0 hsize) h.lists.aligned (fun r hr => h.lists.start_le_last hg hr) hw
  have hal : Aligned (2 ^ k) r := h.lists.aligned r (by simp [hfree])
  intro hagree
  rw [State.Agree, s.va.allocate_eq_some h0 hfree (fun q hq => (hpre q hq).2) hs,
    Bitmap.allocate] at hagree
  rw [hround] at hr
  cases hfind : s.bits.find (granulesOf (2 ^ k) size) with
  | none => simp [hfind] at hagree
  | some i =>
    simp only [hfind, Option.map_some, Option.some.injEq, hal.start_eq,
      Nat.mul_right_inj hg.ne'] at hagree
    have hmem : block (2 ^ k) r ∈ s.va.free.map (block (2 ^ k)) :=
      List.mem_map_of_mem (by simp [hfree])
    refine hr ((hal.fits_iff hg _).mpr ((h.lists.sep.add_le_iff_points hmem _).mpr ?_))
    intro j hj
    subst hagree
    exact (h.free_iff _).mp (Bitmap.isFree_of_find_eq_some hfind j hj)

/-- An allocation answers as the reference does exactly when it does not wrap. -/
theorem agree_iff (h : Invariant k n s) (hk : k ≤ 64) {size : UInt64}
    (hsize : size.toNat + 2 ^ k < 2 ^ 64) :
    s.Agree (2 ^ k) size ↔ NoWrap (2 ^ k * granulesOf (2 ^ k) size) s.va.free := by
  constructor
  · intro hagree
    by_contra hw
    by_cases h0 : size = 0
    · subst h0
      exact hw (by simpa only [granulesOf_zero, Nat.mul_zero] using noWrap_zero s.va.free)
    · exact h.not_agree_of_wrap hk h0 hsize hw hagree
  · intro hw
    rcases h.allocate_cases hk hsize hw with
      ⟨hnone, hfind⟩ | ⟨-, pre, r, post, hfree, -, hfind, ha⟩
    · simp [State.Agree, hnone, Bitmap.allocate, hfind]
    · have hal : Aligned (2 ^ k) r := h.lists.aligned r (by simp [hfree])
      simp [State.Agree, ha, Bitmap.allocate, hfind, hal.start_eq]

/-- The empty space. -/
theorem init (hk : k < 64) {last : UInt64} (hn : 2 ^ k * n = last.toNat + 1) :
    Invariant k n (State.init last (UInt64.ofNat (2 ^ k))) := by
  have hg : 0 < 2 ^ k := Nat.two_pow_pos k
  have hlt : 2 ^ k < 2 ^ 64 := Nat.pow_lt_pow_right (by decide) hk
  have hgran : (UInt64.ofNat (2 ^ k)).toNat = 2 ^ k := UInt64.toNat_ofNat_of_lt hlt
  have hne : UInt64.ofNat (2 ^ k) ≠ 0 := by
    intro hc
    rw [hc, UInt64.toNat_zero] at hgran
    omega
  have hbits : (State.init last (UInt64.ofNat (2 ^ k))).bits = ⟨n, fun _ => false⟩ := by
    simp only [State.init, hgran, ← hn, Nat.mul_div_cancel_left n hg]
  have hfree : (State.init last (UInt64.ofNat (2 ^ k))).va.free = [⟨0, last⟩] := rfl
  have hblock : block (2 ^ k) ⟨0, last⟩ = (0, n) := block_of_eq hg (by simp) hn.symm
  refine ⟨?_, by rw [hbits], ⟨?_, ?_, ?_⟩, ?_, fun i hi => ?_, ?_⟩
  · simp only [State.init, FirstFitVa.new, hne, ↓reduceIte]
    rw [UInt64.toNat_sub, hgran, UInt64.toNat_one]
    omega
  · rw [hfree, List.forall_mem_singleton]
    exact aligned_of_eq (a := 0) (by simp) hn.symm
  · rw [hfree, List.map_singleton, hblock]
    refine separated_singleton ?_
    rcases Nat.eq_zero_or_pos n with rfl | hpos
    · simp at hn
    · exact hpos
  · rw [hfree, List.map_singleton, hblock, hbits]
    ext i
    simp [Bitmap.isFree_iff]
  · simp [State.init]
  · rw [hbits, Bitmap.isFree_iff]
    simp [State.init, hi]
  · simp [State.init]

/-- The invariant in bytes. -/
theorem wellFormed (h : Invariant k n s) {last : UInt64} (hn : 2 ^ k * n = last.toNat + 1) :
    WellFormed last (2 ^ k) s := by
  have hg : 0 < 2 ^ k := Nat.two_pow_pos k
  have hbytes {p : UInt64 × UInt64} (hp : p ∈ s.live) (x : ℕ) :
      x ∈ liveBytes (2 ^ k) p ↔ x / 2 ^ k ∈ liveGranules (2 ^ k) p := by
    have hal := (h.live_ok p hp).1
    rw [liveBytes, liveGranules, Set.mem_Ico, Set.mem_Ico, Nat.le_div_iff_mul_le hg,
      Nat.div_lt_iff_lt_mul hg, Nat.mul_comm _ (2 ^ k), Nat.mul_comm _ (2 ^ k), Nat.mul_add,
      Nat.mul_div_cancel' hal]
  have hlt_iff (x : ℕ) : x / 2 ^ k < n ↔ x ≤ last.toNat := by
    rw [Nat.div_lt_iff_lt_mul hg, Nat.mul_comm, hn, Nat.lt_succ_iff]
  refine ⟨fun r hr => ⟨h.lists.start_le_last hg hr, ?_⟩, ?_, fun x hx => ?_, fun p hp x hx => ?_, ?_⟩
  · have hle := Nat.mul_le_mul_left (2 ^ k) (h.block_le hr)
    rw [← (h.lists.aligned r hr).last_eq, hn] at hle
    exact UInt64.le_iff_toNat_le.mpr (Nat.le_of_succ_le_succ hle)
  · refine (List.pairwise_map.mp h.lists.sep.sep).imp_of_mem fun hr hq hrq => ?_
    exact ((h.lists.aligned _ hr).lt_iff hg (h.lists.aligned _ hq)).mpr hrq
  · have hfree : (∃ r ∈ s.va.free, r.start.toNat ≤ x ∧ x ≤ r.last.toNat) ↔
        s.bits.isFree (x / 2 ^ k) = true := by
      rw [← Set.mem_ofPred_eq (p := fun i => s.bits.isFree i = true), h.lists.mem_iff]
      exact exists_congr fun r => and_congr_right fun hr => (h.lists.aligned r hr).mem_iff hg x
    rw [hfree, ← not_iff_not, not_not, h.live_iff _ ((hlt_iff x).mpr hx)]
    exact exists_congr fun p => and_congr_right fun hp => (hbytes hp x).symm
  · exact (hlt_iff x).mp (((hbytes hp x).mp hx).2.trans_le (h.live_ok p hp).2.2.2)
  · refine h.live_disjoint.imp_of_mem fun hp hq hpq => Set.disjoint_left.mpr fun x hx hy => ?_
    exact Set.disjoint_left.mp hpq ((hbytes hp x).mp hx) ((hbytes hq x).mp hy)

end Invariant

/-- A step that does not wrap keeps the invariant. -/
theorem NoWrapStep.invariant {k n : ℕ} (hk : k ≤ 64) (hn : 2 ^ k * n ≤ 2 ^ 64) {s s' : State}
    {op : Op} (h : Invariant k n s) (hstep : NoWrapStep (2 ^ k) s op s') : Invariant k n s' := by
  obtain ⟨hs, hw⟩ := hstep
  cases hs with
  | allocate size hsize => exact h.allocate hk hsize (hw size rfl)
  | deallocate start size hlive => exact h.deallocate hn hlive

/-- Along every history whose allocations do not wrap, in every space whose length is a multiple of
its power-of-two granule: the free list is ascending, disjoint, coalesced and the complement of the
live blocks, which do not overlap and stay in the space; and an allocation answers as the bitmap
does exactly when it does not wrap either. -/
theorem refines_bitmap_of_noWrap (k : ℕ) (hk : k < 64) (last : UInt64)
    (hlast : 2 ^ k ∣ last.toNat + 1) (ops : List Op) (s : State)
    (hrun : Execution (NoWrapStep (2 ^ k)) (State.init last (UInt64.ofNat (2 ^ k))) ops s) :
    WellFormed last (2 ^ k) s ∧ ∀ size : UInt64, size.toNat + 2 ^ k < 2 ^ 64 →
      (s.Agree (2 ^ k) size ↔ NoWrap (2 ^ k * granulesOf (2 ^ k) size) s.va.free) := by
  obtain ⟨n, hn⟩ := hlast
  have hle : 2 ^ k * n ≤ 2 ^ 64 := by have := last.toNat_lt; omega
  have hinv : Invariant k n s := hrun.invariant (Invariant.init hk hn.symm)
    fun _ _ _ h hstep => hstep.invariant hk.le hle h
  exact ⟨hinv.wellFormed hn.symm, fun size hsize => hinv.agree_iff hk.le hsize⟩

/-- The root task's space once its first two granules are taken. -/
def rootSpaceTaken : State := (State.init 0xffffff (UInt64.ofNat (2 ^ 14))).allocate (2 ^ 14) 0x8000

private theorem rootSpaceTaken_run :
    Execution (NoWrapStep (2 ^ 14)) (State.init 0xffffff (UInt64.ofNat (2 ^ 14)))
      [.allocate 0x8000] rootSpaceTaken := by
  refine .single ⟨.allocate _ _ (by decide), ?_⟩
  rintro size ⟨⟩
  decide

theorem refines_bitmap_rootSpaceTaken : WellFormed 0xffffff (2 ^ 14) rootSpaceTaken ∧
    rootSpaceTaken.Agree (2 ^ 14) 0x4000 := by
  obtain ⟨hwf, hagree⟩ := refines_bitmap_of_noWrap 14 (by decide) 0xffffff (by decide)
    [.allocate 0x8000] rootSpaceTaken rootSpaceTaken_run
  exact ⟨hwf, (hagree 0x4000 (by decide)).mpr (by decide)⟩

/-- In the root task's space with its first two granules taken, a size of `2^64 - 0x4001` bytes is
served at `0x8000`, and the free range left starts at `0x4000`, inside the live block. The bitmap
has no room for it. -/
theorem allocate_past_the_space :
    Execution (Step (2 ^ 14)) (State.init 0xffffff (UInt64.ofNat (2 ^ 14))) [.allocate 0x8000]
      rootSpaceTaken ∧
    (0xffffffffffffbfff : UInt64).toNat + 2 ^ 14 < 2 ^ 64 ∧
    rootSpaceTaken.live = [(0, 0x8000)] ∧
    rootSpaceTaken.va.allocate 0xffffffffffffbfff =
      (some 0x8000, ⟨[⟨0x4000, 0xffffff⟩], 0x3fff⟩) ∧
    ¬ rootSpaceTaken.Agree (2 ^ 14) 0xffffffffffffbfff := by
  have hinv : Invariant 14 1024 rootSpaceTaken := rootSpaceTaken_run.invariant
    (Invariant.init (by decide) (by decide))
    fun _ _ _ h hstep => hstep.invariant (by decide) (by decide) h
  refine ⟨rootSpaceTaken_run.mono fun _ _ _ h => h.1, by decide, by decide, by decide, ?_⟩
  exact hinv.not_agree_of_wrap (by decide) (by decide) (by decide) (by decide)

end ReimsVgpu.Collections
