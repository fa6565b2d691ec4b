import ReimsVgpu.Memory.TrackerBlocks

/-!
# The tracker's slots

The blocks of the tracker lie in an array of slots, of which the first ones are in use. The loops that
move blocks from slot to slot, and runs from block to block, are compared with the operations on the
list of blocks: where a block is deleted or put in, the blocks after it move by one slot, and `compact`
looks again at the slot it fills for as long as there is a block after it. Its loops end: in each turn
of the inner one a block goes, or the slot's block is full.

## Main definitions

* `Slots`, `Slots.Holds`: the array with its count, and the list that it stands for.
* `Slots.removeAtIndex`, `Slots.splitAtIndex`, `Slots.fill`, `Slots.compact`.

## Main results

* `compact_conserves`: `compact` ends and keeps the runs, and so does a split.
* `noBlocks_die`: without a block it reads an empty slot.
-/

namespace ReimsVgpu.Memory.Tracker

open RunBlock

/-- The array of slots, and how many are in use. -/
structure Slots where
  count : ℕ
  slot : ℕ → Option RunBlock

/-- How an operation on the slots ends the process. -/
inductive SlotDeath where
  | block (failure : Failure)
  | slotIndex
  | slotEmpty
  | runIndex
  | removeEmptySlot
  | removeNoBlocks
  | compactPastBlocks
  deriving DecidableEq, Repr

namespace Slots

/-- No slot in use. -/
def new : Slots where
  count := 0
  slot _ := none

/-- The count less one, which wraps. -/
def last (s : Slots) : ℕ := (s.count + (2 ^ 32 - 1)) % 2 ^ 32

/-- `block`. -/
def block (s : Slots) (i : ℕ) : Except SlotDeath RunBlock :=
  match s.slot i with
  | some b => .ok b
  | none => .error .slotEmpty

/-- A block stored. -/
def store (s : Slots) (i : ℕ) (b : RunBlock) : Slots :=
  { s with slot := Function.update s.slot i (some b) }

/-- The loop of `remove_at_index`: each block from the slot on moves down. -/
def shiftDown (count i : ℕ) (slot : ℕ → Option RunBlock) : ℕ → Option RunBlock :=
  if i < count then
    shiftDown count (i + 1) (Function.update (Function.update slot i none) (i - 1) (slot i))
  else slot
termination_by count - i

/-- `remove_at_index`. -/
def removeAtIndex (s : Slots) (index : ℕ) : Except SlotDeath Slots :=
  if s.slot index = none then .error .removeEmptySlot
  else if s.count = 0 then .error .removeNoBlocks
  else
    let slot := shiftDown s.count (index + 1) (Function.update s.slot index none)
    .ok { count := s.count - 1, slot := Function.update slot (s.count - 1) none }

/-- The loop of `split_at_index`: each block above the slot moves up, the last one first. -/
def shiftUp (index : ℕ) : ℕ → (ℕ → Option RunBlock) → ℕ → Option RunBlock
  | 0, slot => slot
  | i + 1, slot =>
    if index < i then
      shiftUp index i (Function.update (Function.update slot i none) (i + 1) (slot i))
    else slot

/-- `split_at_index`: one more slot than are in use is stored to. -/
def splitAtIndex (s : Slots) (index : ℕ) : Except SlotDeath Slots :=
  if index + 1 < s.count ∧ maxBlocks ≤ s.count then .error .slotIndex
  else
    let s := { s with slot := shiftUp index s.count s.slot }
    match s.block index with
    | .error death => .error death
    | .ok b =>
      if b.runs = [] then .error .runIndex
      else
        match b.split with
        | .error failure => .error (.block failure)
        | .ok (b, newBlock) =>
          if maxBlocks ≤ index + 1 then .error .slotIndex
          else
            let s := (s.store index b).store (index + 1) newBlock
            .ok { s with count := s.count + 1 }

/-- A turn of the inner loop of `compact`: the slot's block takes runs of the next one, which is
deleted once it has none left. -/
def fillOnce (s : Slots) (i : ℕ) : Except SlotDeath Slots :=
  if maxBlocks ≤ i + 1 then .error .compactPastBlocks
  else
    match s.block i, s.block (i + 1) with
    | .ok b, .ok next =>
      match Blocks.steal b next with
      | .error failure => .error (.block failure)
      | .ok (b, some next) => .ok ((s.store i b).store (i + 1) next)
      | .ok (b, none) => (s.store i b).removeAtIndex (i + 1)
    | .error death, _ => .error death
    | _, .error death => .error death

/-- The inner loop of `compact`, as many times as there is fuel for. -/
def fill : ℕ → Slots → ℕ → Option (Except SlotDeath Slots)
  | 0, _, _ => none
  | fuel + 1, s, i =>
    match s.block i with
    | .error death => some (.error death)
    | .ok b =>
      if b.runs.length < fullBlock ∧ i < s.last then
        match s.fillOnce i with
        | .error death => some (.error death)
        | .ok s => fill fuel s i
      else some (.ok s)

/-- The outer loop of `compact`. -/
def compactFrom : ℕ → Slots → ℕ → Option (Except SlotDeath Slots)
  | 0, _, _ => none
  | fuel + 1, s, i =>
    if i < s.last then
      match fill (fuel + 1) s i with
      | none => none
      | some (.error death) => some (.error death)
      | some (.ok s) => compactFrom fuel s (i + 1)
    else some (.ok s)

/-- `compact`. -/
def compact (fuel : ℕ) (s : Slots) : Option (Except SlotDeath Slots) := compactFrom fuel s 0

/-- The slots in use hold the blocks, in order, and the others nothing. -/
structure Holds (s : Slots) (blocks : List RunBlock) : Prop where
  count : s.count = blocks.length
  slot : ∀ i, s.slot i = blocks[i]?

/-! ### Blocks moved from slot to slot -/

theorem shiftDown_apply (count i : ℕ) (slot : ℕ → Option RunBlock) (hi : 0 < i) (j : ℕ) :
    shiftDown count i slot j =
      if i ≤ j + 1 ∧ j + 1 < count then slot (j + 1)
      else if j + 1 = count ∧ i ≤ j then none
      else slot j := by
  fun_induction shiftDown count i slot with
  | case1 i slot hlt ih =>
    rw [ih (Nat.succ_pos i)]
    -- The slot just moved is below those the rest of the loop reads.
    rcases lt_trichotomy (j + 1) i with hj | hj | hj
    · rw [if_neg (by omega), if_neg (by omega), if_neg (by omega), if_neg (by omega),
        Function.update_of_ne (by omega), Function.update_of_ne (by omega)]
    · rw [if_neg (by omega), if_neg (by omega), if_pos (by omega), show i - 1 = j by omega,
        Function.update_self, hj]
    · by_cases hlast : j + 1 < count
      · rw [if_pos ⟨by omega, hlast⟩, if_pos ⟨by omega, hlast⟩, Function.update_of_ne (by omega),
          Function.update_of_ne (by omega)]
      · rcases (not_lt.mp hlast).eq_or_lt with hend | hend
        · rcases (show i ≤ j by omega).eq_or_lt with rfl | hij
          · rw [if_neg (by omega), if_neg (by omega), if_neg (by omega), if_pos (by omega),
              Function.update_of_ne (by omega), Function.update_self]
          · rw [if_neg (by omega), if_pos (by omega), if_neg (by omega), if_pos (by omega)]
        · rw [if_neg (by omega), if_neg (by omega), if_neg (by omega), if_neg (by omega),
            Function.update_of_ne (by omega), Function.update_of_ne (by omega)]
  | case2 i slot hle =>
    rw [if_neg (by omega), if_neg (by omega)]

theorem shiftUp_apply (index i : ℕ) (slot : ℕ → Option RunBlock) (j : ℕ) :
    shiftUp index i slot j =
      if index + 1 < j ∧ j ≤ i then slot (j - 1)
      else if j = index + 1 ∧ index + 1 < i then none
      else slot j := by
  induction i generalizing slot with
  | zero => rw [shiftUp, if_neg (by omega), if_neg (by omega)]
  | succ i ih =>
    rw [shiftUp]
    split_ifs with hindex h1 h2 h2
    · rw [ih]
      rcases h1.2.eq_or_lt with rfl | hj
      · rw [if_neg (by omega), if_neg (by omega), Function.update_self, Nat.add_sub_cancel]
      · rw [if_pos (by omega), Function.update_of_ne (by omega), Function.update_of_ne (by omega)]
    · rw [ih, if_neg (by omega)]
      split_ifs with hi
      · rfl
      · rw [Function.update_of_ne (by omega), show j = i by omega, Function.update_self]
    · rw [ih, if_neg (by omega), if_neg (by omega), Function.update_of_ne (by omega),
        Function.update_of_ne (by omega)]
    · omega
    · omega
    · rfl

variable {s : Slots} {blocks done rest : List RunBlock} {b next : RunBlock}

theorem Holds.block (h : s.Holds blocks) {i : ℕ} (hi : blocks[i]? = some b) :
    s.block i = .ok b := by
  rw [Slots.block, h.slot, hi]

theorem Holds.store (h : s.Holds blocks) {i : ℕ} (hi : i < blocks.length) (b : RunBlock) :
    (s.store i b).Holds (blocks.set i b) where
  count := h.count.trans List.length_set.symm
  slot j := by
    rw [Slots.store, List.getElem?_set]
    dsimp only
    by_cases hj : j = i
    · subst hj
      rw [Function.update_self, if_pos rfl, if_pos hi]
    · rw [Function.update_of_ne hj, if_neg (Ne.symm hj), h.slot]

theorem Holds.removeAtIndex (h : s.Holds (done ++ b :: rest)) :
    ∃ s', s.removeAtIndex done.length = .ok s' ∧ s'.Holds (done ++ rest) := by
  have hcount := h.count
  rw [List.length_append, List.length_cons] at hcount
  rw [Slots.removeAtIndex, if_neg (by simp [h.slot]), if_neg (by omega)]
  refine ⟨_, rfl, ?_, fun j => ?_⟩
  · dsimp only
    rw [List.length_append]
    omega
  · dsimp only
    rw [List.getElem?_append]
    by_cases hlast : j = s.count - 1
    · subst hlast
      rw [Function.update_self, if_neg (by omega), List.getElem?_eq_none (by omega)]
    rw [Function.update_of_ne hlast, shiftDown_apply _ _ _ (Nat.succ_pos _)]
    by_cases hbelow : j < done.length
    · rw [if_neg (by omega), if_neg (by omega), if_pos hbelow, Function.update_of_ne (by omega), h.slot,
        List.getElem?_append_left hbelow]
    rw [if_neg hbelow]
    by_cases habove : j + 1 < s.count
    · rw [if_pos (by omega), Function.update_of_ne (by omega), h.slot,
        List.getElem?_append_right (by omega), show j + 1 - done.length = j - done.length + 1 by omega,
        List.getElem?_cons_succ]
    · rw [if_neg (by omega), if_neg (by omega), Function.update_of_ne (by omega), h.slot,
        List.getElem?_append_right (by omega), List.getElem?_eq_none (by rw [List.length_cons]; omega),
        List.getElem?_eq_none (by omega)]

/-- Moving the blocks above a slot up leaves the slot. -/
theorem block_shiftUp (s : Slots) (index : ℕ) :
    Slots.block { s with slot := shiftUp index s.count s.slot } index = s.block index := by
  rw [Slots.block, Slots.block]
  dsimp only
  rw [shiftUp_apply, if_neg (by omega), if_neg (by omega)]

/-- Splitting on the slots is splitting on the list. -/
theorem Holds.splitAtIndex (h : s.Holds blocks) (hlen : blocks.length < maxBlocks) {index : ℕ}
    {blocks' : List RunBlock} (hne : ∀ b, blocks[index]? = some b → b.runs ≠ [])
    (hsplit : Blocks.splitAtIndex blocks index = .ok blocks') :
    ∃ s', s.splitAtIndex index = .ok s' ∧ s'.Holds blocks' := by
  obtain ⟨pre, b, post, b₁, b₂, rfl, rfl, hb, rfl⟩ := Blocks.splitAtIndex_eq_ok hsplit
  have hget : (pre ++ b :: post)[pre.length]? = some b := by simp
  have hcount := h.count
  rw [List.length_append, List.length_cons] at hcount hlen
  rw [Slots.splitAtIndex, if_neg (by omega)]
  dsimp only
  rw [block_shiftUp, h.block hget]
  dsimp only
  rw [if_neg (hne b hget), hb]
  dsimp only
  rw [if_neg (by omega)]
  refine ⟨_, rfl, ?_, fun j => ?_⟩
  · dsimp only [Slots.store]
    simp only [List.length_append, List.length_cons]
    omega
  · dsimp only [Slots.store]
    rcases lt_trichotomy j pre.length with hj | rfl | hj
    · rw [Function.update_of_ne (by omega), Function.update_of_ne (by omega), shiftUp_apply,
        if_neg (by omega), if_neg (by omega), h.slot, List.getElem?_append_left hj,
        List.getElem?_append_left hj]
    · rw [Function.update_of_ne (by omega), Function.update_self, List.getElem?_append_right le_rfl,
        Nat.sub_self, List.getElem?_cons_zero]
    obtain ⟨k, rfl⟩ : ∃ k, j = pre.length + (k + 1) := ⟨j - pre.length - 1, by omega⟩
    rw [List.getElem?_append_right (by omega), Nat.add_sub_cancel_left, List.getElem?_cons_succ]
    cases k with
    | zero => rw [Function.update_self, List.getElem?_cons_zero]
    | succ k =>
      rw [Function.update_of_ne (by omega), Function.update_of_ne (by omega), shiftUp_apply,
        List.getElem?_cons_succ]
      by_cases hin : pre.length + (k + 1 + 1) ≤ s.count
      · rw [if_pos ⟨by omega, hin⟩, h.slot, List.getElem?_append_right (by omega),
          show pre.length + (k + 1 + 1) - 1 - pre.length = k + 1 by omega, List.getElem?_cons_succ]
      · rw [if_neg (by omega), if_neg (by omega), h.slot, List.getElem?_append_right (by omega),
          Nat.add_sub_cancel_left, List.getElem?_eq_none (by rw [List.length_cons]; omega),
          List.getElem?_eq_none (by omega)]

/-- A split that ends has split the block. -/
theorem Holds.splitAtIndex_eq_ok (h : s.Holds blocks) {index : ℕ} (hb : blocks[index]? = some b)
    {s' : Slots} (hs' : s.splitAtIndex index = .ok s') :
    blocks.length < maxBlocks ∧ b.runs ≠ [] ∧
      ∃ blocks', Blocks.splitAtIndex blocks index = .ok blocks' ∧ s'.Holds blocks' := by
  obtain ⟨hindex, -⟩ := List.getElem?_eq_some_iff.mp hb
  have hcount := h.count
  have hends := hs'
  rw [Slots.splitAtIndex] at hs'
  dsimp only at hs'
  rw [block_shiftUp, h.block hb] at hs'
  dsimp only at hs'
  split_ifs at hs' with hroom hne hlast
  · split at hs' <;> cases hs'
  split at hs'
  · cases hs'
  rename_i b₁ b₂ hsplit
  have hlen : blocks.length < maxBlocks := by omega
  have hlist : Blocks.splitAtIndex blocks index =
      .ok (blocks.take index ++ b₁ :: b₂ :: blocks.drop (index + 1)) := by
    rw [Blocks.splitAtIndex, hb]
    dsimp only
    rw [hsplit]
    rfl
  obtain ⟨s'', hends', hs''⟩ := h.splitAtIndex hlen
    (fun c hc => Option.some.inj (hb.symm.trans hc) ▸ hne) hlist
  rw [hends] at hends'
  obtain rfl := Except.ok.inj hends'
  exact ⟨hlen, hne, _, hlist, hs''⟩

/-! ### Blocks that are filled -/

/-- A block that is not full takes from the next one all it has, or until it is full. -/
theorem steal_cases (hb : b.runs.length < fullBlock) (hnext : next.runs ≠ []) :
    (∃ b', Blocks.steal b next = .ok (b', none)) ∨
    ∃ b' next', Blocks.steal b next = .ok (b', some next') ∧ b'.runs.length = fullBlock ∧
      next'.runs ≠ [] := by
  have hpos := List.length_pos_iff.mpr hnext
  unfold Blocks.steal
  dsimp only
  rw [if_neg (by omega)]
  split_ifs with hpart
  · refine .inr ⟨_, _, rfl, ?_, ?_⟩
    · rw [List.length_append, List.length_take]
      omega
    · rw [← List.length_pos_iff, List.length_drop]
      omega
  · exact .inl ⟨_, rfl⟩

theorem Holds.last (h : s.Holds (done ++ b :: rest)) (hlen : (done ++ b :: rest).length ≤ maxBlocks) :
    s.last = done.length + rest.length := by
  have hmax : maxBlocks = 128 := rfl
  have hcount := h.count
  rw [List.length_append, List.length_cons] at hcount hlen
  rw [Slots.last]
  omega

section FillOnce

variable {b' next' : RunBlock} (h : s.Holds (done ++ b :: next :: rest))
  (hlen : (done ++ b :: next :: rest).length ≤ maxBlocks)

include h hlen

theorem Holds.fillOnce_some (hsteal : Blocks.steal b next = .ok (b', some next')) :
    ∃ s', s.fillOnce done.length = .ok s' ∧ s'.Holds (done ++ b' :: next' :: rest) := by
  rw [List.length_append, List.length_cons, List.length_cons] at hlen
  rw [Slots.fillOnce, if_neg (by omega), h.block (b := b) (by simp), h.block (b := next) (by simp)]
  dsimp only
  rw [hsteal]
  refine ⟨_, rfl, ?_⟩
  have hstored := (h.store (i := done.length) (by simp) b').store (i := done.length + 1) (by simp) next'
  rwa [List.set_append_right _ _ le_rfl, Nat.sub_self, List.set_cons_zero,
    List.set_append_right _ _ (Nat.le_add_right _ 1), Nat.add_sub_cancel_left, List.set_cons_succ,
    List.set_cons_zero] at hstored

theorem Holds.fillOnce_none (hsteal : Blocks.steal b next = .ok (b', none)) :
    ∃ s', s.fillOnce done.length = .ok s' ∧ s'.Holds (done ++ b' :: rest) := by
  rw [List.length_append, List.length_cons, List.length_cons] at hlen
  rw [Slots.fillOnce, if_neg (by omega), h.block (b := b) (by simp), h.block (b := next) (by simp)]
  dsimp only
  rw [hsteal]
  have hstored := h.store (i := done.length) (by simp) b'
  rw [List.set_append_right _ _ le_rfl, Nat.sub_self, List.set_cons_zero, List.append_cons] at hstored
  obtain ⟨s', hs', hholds⟩ := hstored.removeAtIndex
  rw [List.length_append, List.length_singleton] at hs'
  rw [List.append_assoc, List.singleton_append] at hholds
  exact ⟨s', hs', hholds⟩

end FillOnce

/-- The inner loop ends, and has done what `compact` does to the first of the blocks. -/
theorem Holds.fill (h : s.Holds (done ++ b :: rest)) (hlen : (done ++ b :: rest).length ≤ maxBlocks)
    (hrest : ∀ c ∈ rest, c.runs ≠ []) {fuel : ℕ} (hfuel : rest.length + 1 < fuel) :
    ∃ s' b' rest', Slots.fill fuel s done.length = some (.ok s') ∧ s'.Holds (done ++ b' :: rest') ∧
      Blocks.compact (b :: rest) = (Blocks.compact rest').map (b' :: ·) ∧
      (rest' = [] ∨ fullBlock ≤ b'.runs.length) ∧ rest'.length ≤ rest.length ∧
      ∀ c ∈ rest', c.runs ≠ [] := by
  induction rest generalizing b s fuel with
  | nil =>
    obtain ⟨fuel, rfl⟩ := Nat.exists_eq_add_one_of_ne_zero (Nat.ne_zero_of_lt hfuel)
    refine ⟨s, b, [], ?_, h, by rw [Blocks.compact, Blocks.compact]; rfl, .inl rfl, le_rfl, hrest⟩
    rw [Slots.fill, h.block (b := b) (by simp)]
    dsimp only
    rw [h.last hlen, if_neg (by simp)]
  | cons next rest ih =>
    obtain ⟨fuel, rfl⟩ := Nat.exists_eq_add_one_of_ne_zero (Nat.ne_zero_of_lt hfuel)
    obtain ⟨hnext, hrest'⟩ := List.forall_mem_cons.mp hrest
    have hb : s.block done.length = .ok b := h.block (by simp)
    rw [Slots.fill, hb]
    dsimp only
    rw [h.last hlen]
    by_cases hfull : b.runs.length < fullBlock
    · rw [if_pos ⟨hfull, by rw [List.length_cons]; omega⟩]
      rcases steal_cases hfull hnext with ⟨b', hsteal⟩ | ⟨b', next', hsteal, hb', hnext'⟩
      · obtain ⟨s', honce, hs'⟩ := h.fillOnce_none hlen hsteal
        rw [honce]
        have hfuel' : rest.length + 1 < fuel := by
          rw [List.length_cons] at hfuel
          omega
        obtain ⟨s'', b'', rest'', hend, hs'', hcompact, hstop, hle, hne⟩ := ih hs'
          (by simp only [List.length_append, List.length_cons] at hlen ⊢; omega) hrest' hfuel'
        refine ⟨s'', b'', rest'', hend, hs'', ?_, hstop, hle.trans (Nat.le_succ _), hne⟩
        rw [Blocks.compact, if_pos hfull, hsteal]
        exact hcompact
      · obtain ⟨s', honce, hs'⟩ := h.fillOnce_some hlen hsteal
        rw [honce]
        -- The block is full, and the next turn stops.
        obtain ⟨fuel, rfl⟩ := Nat.exists_eq_add_one_of_ne_zero (n := fuel) (by omega)
        refine ⟨s', b', next' :: rest, ?_, hs', ?_, .inr hb'.ge, le_rfl,
          List.forall_mem_cons.mpr ⟨hnext', hrest'⟩⟩
        · dsimp only
          rw [Slots.fill, hs'.block (b := b') (by simp)]
          dsimp only
          rw [if_neg (fun hand => absurd hand.1 (by omega))]
        · rw [Blocks.compact, if_pos hfull, hsteal]
    · rw [if_neg (fun hand => hfull hand.1)]
      refine ⟨s, b, next :: rest, rfl, h, ?_, .inr (not_lt.mp hfull), le_rfl, hrest⟩
      rw [Blocks.compact, if_neg hfull]

/-- The outer loop ends, and has done what `compact` does; the blocks before the last one are full. -/
theorem Holds.compactFrom {fuel : ℕ} (h : s.Holds (done ++ b :: rest))
    (hlen : (done ++ b :: rest).length ≤ maxBlocks) (hrest : ∀ c ∈ rest, c.runs ≠ [])
    (hfuel : rest.length + 1 < fuel) :
    ∃ s' blocks', Slots.compactFrom fuel s done.length = some (.ok s') ∧
      Blocks.compact (b :: rest) = .ok blocks' ∧ s'.Holds (done ++ blocks') ∧
      ∀ c ∈ blocks'.dropLast, fullBlock ≤ c.runs.length := by
  induction fuel generalizing s done b rest with
  | zero => exact absurd hfuel (Nat.not_lt_zero _)
  | succ fuel ih =>
    rw [Slots.compactFrom, h.last hlen]
    cases rest with
    | nil =>
      rw [if_neg (by simp), Blocks.compact]
      exact ⟨s, [b], rfl, rfl, h, by simp⟩
    | cons next rest =>
      rw [if_pos (by rw [List.length_cons]; omega)]
      obtain ⟨s', b', rest', hend, hs', hcompact, hstop, hle, hne⟩ := h.fill hlen hrest hfuel
      rw [hend, hcompact]
      dsimp only
      cases rest' with
      | nil =>
        have hlen' : (done ++ [b']).length ≤ maxBlocks := by
          simp only [List.length_append, List.length_cons, List.length_nil] at hlen ⊢
          omega
        obtain ⟨fuel, rfl⟩ := Nat.exists_eq_add_one_of_ne_zero (n := fuel)
          (by rw [List.length_cons] at hfuel; omega)
        rw [Slots.compactFrom, hs'.last hlen', if_neg (by simp), Blocks.compact]
        exact ⟨s', [b'], rfl, rfl, hs', by simp⟩
      | cons c rest' =>
        have hfull : fullBlock ≤ b'.runs.length := hstop.resolve_left (List.cons_ne_nil _ _)
        rw [List.append_cons] at hs'
        obtain ⟨s'', blocks', hend', hlist, hs'', hbefore⟩ := ih hs'
          (by simp only [List.length_append, List.length_cons, List.length_nil] at hlen hle ⊢; omega)
          (List.forall_mem_cons.mp hne).2
          (by simp only [List.length_cons] at hfuel hle; omega)
        rw [List.length_append, List.length_singleton] at hend'
        refine ⟨s'', b' :: blocks', hend', by rw [hlist]; rfl, ?_, fun d hd => ?_⟩
        · rwa [List.append_assoc, List.singleton_append] at hs''
        · rcases eq_or_ne blocks' [] with rfl | hblocks'
          · cases hd
          rw [List.dropLast_cons_of_ne_nil hblocks'] at hd
          rcases List.mem_cons.mp hd with rfl | hd
          · exact hfull
          · exact hbefore d hd

/-- Splitting blocks in order at one with an even count, where there is room for one more. -/
theorem Holds.splitAtIndex_ordered (h : s.Holds blocks) (hblocks : Blocks.Ordered blocks) {index : ℕ}
    (hb : blocks[index]? = some b) (heven : b.runs.length % 2 = 0)
    (hlen : blocks.length < maxBlocks) : ∃ s', s.splitAtIndex index = .ok s' := by
  have hord := hblocks.block b (List.mem_of_getElem? hb)
  have hlist : Blocks.splitAtIndex blocks index =
      .ok (blocks.take index ++ b.keptHalf :: b.newHalf :: blocks.drop (index + 1)) := by
    rw [Blocks.splitAtIndex, hb]
    dsimp only
    rw [split_ok hord heven]
    rfl
  obtain ⟨s', hends, -⟩ := h.splitAtIndex hlen
    (fun c hc => Option.some.inj (hb.symm.trans hc) ▸ hord.nonempty) hlist
  exact ⟨s', hends⟩

end Slots

open Slots

/-- `compact` ends where there is a block and none is empty, and keeps the runs; the blocks before the
last one are full, and the order stays. A split keeps the runs and the order where it ends, which it
does in blocks in order, at one with an even count where there is room. -/
theorem compact_conserves :
    (∀ (s : Slots) (blocks : List RunBlock), s.Holds blocks → blocks ≠ [] →
      blocks.length ≤ maxBlocks → (∀ b ∈ blocks, b.runs ≠ []) → ∀ fuel, blocks.length < fuel →
      ∃ s' blocks', s.compact fuel = some (.ok s') ∧ s'.Holds blocks' ∧
        Blocks.runsOf blocks' = Blocks.runsOf blocks ∧
        (∀ b ∈ blocks'.dropLast, fullBlock ≤ b.runs.length) ∧
        (Blocks.Ordered blocks → Blocks.Ordered blocks')) ∧
    ∀ (s : Slots) (blocks : List RunBlock) (index : ℕ) (b : RunBlock), s.Holds blocks →
      blocks[index]? = some b → b.runs.length % 2 = 0 →
      (∀ s', s.splitAtIndex index = .ok s' → ∃ blocks', s'.Holds blocks' ∧
        Blocks.runsOf blocks' = Blocks.runsOf blocks ∧
        (Blocks.Ordered blocks → Blocks.Ordered blocks')) ∧
      (Blocks.Ordered blocks → blocks.length < maxBlocks → ∃ s', s.splitAtIndex index = .ok s') := by
  constructor
  · intro s blocks h hne hlen hnonempty fuel hfuel
    obtain ⟨b, rest, rfl⟩ := List.exists_cons_of_ne_nil hne
    rw [← List.nil_append (b :: rest)] at h
    obtain ⟨s', blocks', hends, hcompact, hs', hfull⟩ := h.compactFrom hlen
      (List.forall_mem_cons.mp hnonempty).2 hfuel
    exact ⟨s', blocks', hends, hs', Blocks.compact_runs hcompact, hfull,
      fun hord => Blocks.ordered_compact hord hcompact⟩
  · intro s blocks index b h hb heven
    constructor
    · intro s' hends
      obtain ⟨hlen, -, blocks', hsplit, hs'⟩ := h.splitAtIndex_eq_ok hb hends
      exact ⟨blocks', hs', Blocks.splitAtIndex_runs hsplit,
        fun hord => Blocks.ordered_splitAtIndex hord hlen hsplit⟩
    · intro hord hlen
      exact h.splitAtIndex_ordered hord hb heven hlen

/-- A block with the pages 0 and 2, and one with the page 4. -/
def twoBlocks : Slots where
  count := 2
  slot
    | 0 => some ⟨[⟨0, 1⟩, ⟨2, 1⟩], ⟨0, 3⟩⟩
    | 1 => some ⟨[⟨4, 1⟩], ⟨4, 1⟩⟩
    | _ => none

theorem twoBlocks_holds :
    twoBlocks.Holds [⟨[⟨0, 1⟩, ⟨2, 1⟩], ⟨0, 3⟩⟩, ⟨[⟨4, 1⟩], ⟨4, 1⟩⟩] where
  count := rfl
  slot
    | 0 => rfl
    | 1 => rfl
    | _ + 2 => rfl

/-- The two blocks become one, and a split of the first keeps the runs. -/
theorem compact_conserves_two :
    (∃ s' blocks', twoBlocks.compact 3 = some (.ok s') ∧ s'.Holds blocks' ∧
      Blocks.runsOf blocks' = [⟨0, 1⟩, ⟨2, 1⟩, ⟨4, 1⟩]) ∧
    ∀ s', twoBlocks.splitAtIndex 0 = .ok s' → ∃ blocks', s'.Holds blocks' ∧
      Blocks.runsOf blocks' = [⟨0, 1⟩, ⟨2, 1⟩, ⟨4, 1⟩] := by
  constructor
  · obtain ⟨s', blocks', hends, hs', hruns, -⟩ := compact_conserves.1 twoBlocks _ twoBlocks_holds
      (by decide) (by decide) (by decide) 3 (by decide)
    exact ⟨s', blocks', hends, hs', hruns⟩
  · intro s' hends
    obtain ⟨blocks', hs', hruns, -⟩ :=
      (compact_conserves.2 twoBlocks _ 0 _ twoBlocks_holds rfl (by decide)).1 s' hends
    exact ⟨blocks', hs', hruns⟩

/-- Without a block the count less one wraps, and `compact` reads an empty slot. -/
theorem noBlocks_die :
    Slots.Holds .new [] ∧ (∀ b ∈ ([] : List RunBlock), b.runs ≠ []) ∧
      ∀ fuel, Slots.compact (fuel + 1) .new = some (.error .slotEmpty) := by
  refine ⟨⟨rfl, fun i => rfl⟩, by simp, fun fuel => ?_⟩
  rw [Slots.compact, Slots.compactFrom, if_pos (by decide), Slots.fill]
  rfl

end ReimsVgpu.Memory.Tracker
