import Mathlib.Algebra.BigOperators.Group.Multiset.Basic
import Mathlib.Order.Bounds.Basic
import ReimsVgpu.Gpu.MetalSpace
import ReimsVgpu.Library.FreeRuns

/-!
# One pool of Metal's space

A pool of small allocations keeps the runs of its free bytes. They are the bytes that no live slot of it
holds, and no two of them touch, so that a slot is taken at the lowest offset where it fits, and the bytes
of a slot given back join those on either side.

## Main definitions

* `Slot.Covers`, `Pool.Fits`: the bytes of a slot, and the offsets where one fits.
* `Pool.Holds`: what a pool keeps of its live slots.

## Main results

* `Pool.Holds.take`, `Pool.Holds.give`.
-/

namespace ReimsVgpu.Gpu

open IntervalList (points Separated)
open FreeRuns (free_take)

/-- A byte of the slot. -/
def Slot.Covers (x : ℕ) (slot : Slot) : Prop := slot.offset ≤ x ∧ x < slot.offset + slot.bytes

instance (x : ℕ) : DecidablePred (Slot.Covers x) := fun _ => inferInstanceAs (Decidable (_ ∧ _))

/-- The slots that have the byte. -/
def covering (slots : Multiset Slot) (x : ℕ) : ℕ := slots.countP (Slot.Covers x)

theorem covering_cons (slot : Slot) (slots : Multiset Slot) (x : ℕ) :
    covering (slot ::ₘ slots) x = covering slots x + if slot.Covers x then 1 else 0 :=
  Multiset.countP_cons _ _ _

namespace Pool

/-- Bytes from the offset on are free. -/
def Fits (pool : Pool) (bytes offset : ℕ) : Prop := Set.Ico offset (offset + bytes) ⊆ points pool.free

/-- The pool's free runs are what its live slots leave of it, and no two touch. -/
structure Holds (pool : Pool) (slots : Multiset Slot) : Prop where
  separated : Separated pool.free
  start_mod : ∀ e ∈ pool.free, e.1 % slotStep = 0
  mem_points : ∀ x, x ∈ points pool.free ↔ x < poolBytes ∧ covering slots x = 0
  covering_le : ∀ x, covering slots x ≤ if x < poolBytes then 1 else 0
  aligned : ∀ slot ∈ slots, slot.offset % slotStep = 0 ∧ slot.bytes % slotStep = 0 ∧ 0 < slot.bytes
  used : pool.used = (slots.map Slot.bytes).sum

theorem holds_new (poolClass : PoolClass) (held : Held) (kept : Bool) :
    (new poolClass held kept).Holds 0 where
  separated := IntervalList.separated_singleton (by decide)
  start_mod e he := by
    rw [List.mem_singleton.mp he]
    rfl
  mem_points x := by
    rw [new, IntervalList.points_cons, IntervalList.points_nil, Set.union_empty]
    exact ⟨fun hx => ⟨hx.2, rfl⟩, fun hx => ⟨Nat.zero_le x, hx.1⟩⟩
  covering_le x := Nat.zero_le _
  aligned _ hslot := absurd hslot (Multiset.notMem_zero _)
  used := rfl

variable {pool : Pool} {slots : Multiset Slot}

/-! ### A slot taken -/

/-- A run that holds bytes from an offset on starts no later, and is as long. -/
theorem Fits.exists_run {bytes offset : ℕ} (h : pool.Fits bytes offset) (hsep : Separated pool.free) (hpos : 0 < bytes) :
    ∃ e ∈ pool.free, e.1 ≤ offset ∧ offset + bytes ≤ e.2 := by
  obtain ⟨⟨a, b⟩, he, hle, hlt⟩ := h ⟨le_rfl, Nat.lt_add_of_pos_right hpos⟩
  refine ⟨(a, b), he, hle, ?_⟩
  have hall : a + (offset + bytes - a) ≤ b := by
    refine (hsep.add_le_iff_points he _).mpr fun j hj => ?_
    by_cases hbelow : a + j < offset
    · exact ⟨(a, b), he, Nat.le_add_right a j, hbelow.trans hlt⟩
    · exact h ⟨not_lt.mp hbelow, by omega⟩
  dsimp only at hle ⊢
  omega

/-- What fits in a pool is no larger than one. -/
theorem Holds.le_of_fits (h : pool.Holds slots) {bytes offset : ℕ} (hfits : pool.Fits bytes offset) :
    bytes ≤ poolBytes := by
  rcases Nat.eq_zero_or_pos bytes with rfl | hpos
  · exact Nat.zero_le _
  · have hlast := ((h.mem_points _).mp
      (hfits ⟨Nat.le_add_right offset (bytes - 1), by omega⟩)).1
    omega

/-- A slot is taken at the lowest offset where it fits, if there is one. -/
theorem Holds.take (h : pool.Holds slots) {bytes : ℕ} (hpos : 0 < bytes) (hmod : bytes % slotStep = 0) :
    (∃ offset free, pool.take bytes =
        some (offset, { pool with free, used := pool.used + bytes }) ∧
      IsLeast {o | pool.Fits bytes o} offset ∧
      ∀ address, Holds { pool with free, used := pool.used + bytes }
        (⟨address, offset, bytes⟩ ::ₘ slots)) ∨
    pool.take bytes = none ∧ ∀ o, ¬ pool.Fits bytes o := by
  cases hfind : pool.free.find? fun e => decide (bytes ≤ e.2 - e.1) with
  | none =>
    refine .inr ⟨by rw [Pool.take, hfind]; rfl, fun o ho => ?_⟩
    obtain ⟨e, he, hle, hend⟩ := ho.exists_run h.separated hpos
    have hshort := List.find?_eq_none.mp hfind e he
    rw [decide_eq_true_eq] at hshort
    omega
  | some e =>
    obtain ⟨a, b⟩ := e
    obtain ⟨hlong, pre, post, hfree, hpre⟩ := List.find?_eq_some_iff_append.mp hfind
    rw [decide_eq_true_eq] at hlong
    have hsep := h.separated
    rw [hfree] at hsep
    obtain ⟨hpre', hab, -, -, hpost, -⟩ := IntervalList.Separated.middle_iff.mp hsep
    dsimp only at hlong
    have hfits : pool.Fits bytes a := fun x hx => by
      refine ⟨(a, b), by rw [hfree]; exact List.mem_append_right _ List.mem_cons_self, hx.1, ?_⟩
      have hlt := hx.2
      dsimp only
      omega
    obtain ⟨hsep', hpoints⟩ := hsep.carve (m := a + bytes) (by omega) (by omega)
    refine .inl ⟨a, pre ++ (if a + bytes = b then [] else [(a + bytes, b)]) ++ post, ?_,
      ⟨hfits, fun o ho => ?_⟩, fun address => ?_⟩
    · rw [Pool.take, hfind, ← free_take hsep hlong hpos, ← hfree]
      rfl
    · -- a run that fits comes no earlier than the first that is long enough
      obtain ⟨e, he, hle, hend⟩ := Fits.exists_run ho h.separated hpos
      rw [hfree, List.mem_append] at he
      rcases he with he | he
      · have hshort := hpre e he
        rw [Bool.not_eq_true', decide_eq_false_iff_not] at hshort
        omega
      · rcases List.mem_cons.mp he with rfl | he
        · exact hle
        · have hstart := hpost e he
          omega
    · have hbytes (x : ℕ) : x ∈ Set.Ico a (a + bytes) ↔ Slot.Covers x ⟨address, a, bytes⟩ := Iff.rfl
      refine ⟨hsep', fun e he => ?_, fun x => ?_, fun x => ?_, fun slot hslot => ?_, ?_⟩
      · have ha := h.start_mod (a, b) (by rw [hfree]; exact List.mem_append_right _ List.mem_cons_self)
        rw [List.mem_append, List.mem_append] at he
        rcases he with (he | he) | he
        · exact h.start_mod e (by rw [hfree]; exact List.mem_append_left _ he)
        · split_ifs at he
          · exact absurd he List.not_mem_nil
          · rw [List.mem_singleton.mp he]
            change (a + bytes) % slotStep = 0
            rw [Nat.add_mod, ha, hmod]
            rfl
        · exact h.start_mod e (by
            rw [hfree]
            exact List.mem_append_right _ (List.mem_cons_of_mem _ he))
      · change x ∈ points (pre ++ _ ++ post) ↔ _
        rw [hpoints, Set.mem_sdiff, ← hfree, h.mem_points, covering_cons, hbytes]
        split_ifs with hcovers
        · exact ⟨fun hx => absurd hcovers hx.2, fun hx => hx.2.elim⟩
        · exact ⟨fun hx => hx.1, fun hx => ⟨hx, hcovers⟩⟩
      · rw [covering_cons]
        by_cases hcovers : Slot.Covers x ⟨address, a, bytes⟩
        · obtain ⟨hinside, hnone⟩ := (h.mem_points x).mp (hfits ((hbytes x).mpr hcovers))
          rw [if_pos hcovers, if_pos hinside, hnone]
        · rw [if_neg hcovers]
          exact h.covering_le x
      · rcases Multiset.mem_cons.mp hslot with rfl | hslot
        · exact ⟨h.start_mod (a, b) (by rw [hfree]; exact List.mem_append_right _ List.mem_cons_self),
            hmod, hpos⟩
        · exact h.aligned slot hslot
      · rw [Multiset.map_cons, Multiset.sum_cons, ← h.used]
        exact Nat.add_comm _ _

/-! ### A slot given back -/

/-- What the free runs of a pool are with some bytes free again that were not. -/
structure Freed (pool : Pool) (offset bytes : ℕ) (free : List (ℕ × ℕ)) : Prop where
  give : pool.give offset bytes = { pool with free, used := pool.used - bytes }
  separated : Separated free
  points : points free = points pool.free ∪ Set.Ico offset (offset + bytes)
  start_mod : offset % slotStep = 0 → ∀ e ∈ free, e.1 % slotStep = 0

/-- The bytes of a slot given back join the free runs on either side. -/
theorem exists_freed (hsep : Separated pool.free) (hmod : ∀ e ∈ pool.free, e.1 % slotStep = 0)
    {offset bytes : ℕ} (hpos : 0 < bytes)
    (hapart : ∀ x, offset ≤ x → x < offset + bytes → x ∉ points pool.free) :
    ∃ free, Freed pool offset bytes free := by
  obtain ⟨hsep', hpoints, hstarts⟩ :=
    FreeRuns.giveBack_spec hsep (Nat.lt_add_of_pos_right hpos) hapart
  refine ⟨_, rfl, hsep', hpoints, fun hzero e he => ?_⟩
  rcases hstarts e he with hstart | ⟨e', he', hstart⟩
  · rw [hstart]
    exact hzero
  · rw [← hstart]
    exact hmod e' he'

/-- A live slot's bytes given back. -/
theorem Holds.give {slot : Slot} (h : pool.Holds (slot ::ₘ slots)) :
    (pool.give slot.offset slot.bytes).Holds slots := by
  obtain ⟨hoffset, hbytes, hpos⟩ := h.aligned slot (Multiset.mem_cons_self slot slots)
  have hcovered (x : ℕ) (hle : slot.offset ≤ x) (hlt : x < slot.offset + slot.bytes) :
      covering (slot ::ₘ slots) x = covering slots x + 1 := by
    rw [covering_cons, if_pos ⟨hle, hlt⟩]
  obtain ⟨free, hfreed⟩ := exists_freed h.separated h.start_mod hpos fun x hle hlt hx => by
    have hnone := ((h.mem_points x).mp hx).2
    rw [hcovered x hle hlt] at hnone
    exact absurd hnone (Nat.succ_ne_zero _)
  rw [hfreed.give]
  refine ⟨hfreed.separated, hfreed.start_mod hoffset, fun x => ?_, fun x => ?_, fun s hs => ?_, ?_⟩
  · change x ∈ points free ↔ _
    rw [hfreed.points, Set.mem_union, h.mem_points]
    by_cases hx : slot.Covers x
    · have hone := h.covering_le x
      rw [hcovered x hx.1 hx.2] at hone
      split_ifs at hone with hinside
      · exact ⟨fun _ => ⟨hinside, by omega⟩, fun _ => .inr hx⟩
      · omega
    · rw [covering_cons, if_neg hx, Nat.add_zero]
      exact ⟨fun hor => hor.elim id fun hin => absurd hin hx, .inl⟩
  · have hone := h.covering_le x
    rw [covering_cons] at hone
    omega
  · exact h.aligned s (Multiset.mem_cons_of_mem hs)
  · have hused := h.used
    rw [Multiset.map_cons, Multiset.sum_cons] at hused
    change pool.used - slot.bytes = _
    rw [hused, Nat.add_sub_cancel_left]

end Pool

end ReimsVgpu.Gpu
