import ReimsVgpu.Memory.PageTable
import ReimsVgpu.Library.Words

/-!
# The walk visits the direct translations

The loop is followed by the next page it has to visit. `At p w` says how the walk's variables stand
to the page `p`: the current index is that of `p` at the current level, the levels above have saved
the indices of `p` there, the tables read are those on the way to `p`, and the levels below have
saved the index of `p`, or, in a walk that has stepped over a hole, one that lies before the table
`p` is in. Each iteration keeps this for the same page (a descent) or for the next one (an advance),
so the pages come in order, each through its own tables.

## Main results

* `visits_direct_translations`: without holes, the walk is the sequence of direct translations; with
  holes allowed, every visit made is one, in ascending order.
-/

namespace ReimsVgpu.Memory

variable (a : Arch)

@[simp] theorem toNat_entries : (entries a).toNat = 2 ^ indexBits a := by
  cases a <;> rfl

theorem pageShift_eq : pageShift a = indexBits a + 2 := by
  cases a <;> rfl

theorem indexBits_bounds : 0 < indexBits a ∧ indexBits a ≤ 12 := by
  cases a <;> decide

/-! ### The indices of a page -/

variable (d : ℕ)

/-- The absolute index of a page at a level. -/
def levelIndex (p j : ℕ) : ℕ := p / 2 ^ (indexBits a * (d - 1 - j))

/-- The first page after the one entry of level `l` that `p` lies in. -/
def nextPage (p l : ℕ) : ℕ := (levelIndex a d p l + 1) * 2 ^ (indexBits a * (d - 1 - l))

variable {a d}

theorem levelIndex_eq_div (p : ℕ) {j l : ℕ} (hjl : j ≤ l) (hl : l < d) :
    levelIndex a d p j = levelIndex a d p l / 2 ^ (indexBits a * (l - j)) := by
  rw [levelIndex, levelIndex, Nat.div_div_eq_div_mul, ← pow_add, ← Nat.mul_add]
  congr 3
  omega

theorem levelIndex_last (p : ℕ) : levelIndex a d p (d - 1) = p := by
  rw [levelIndex, Nat.sub_self, Nat.mul_zero, pow_zero, Nat.div_one]

theorem levelIndex_le (p j : ℕ) : levelIndex a d p j ≤ p := Nat.div_le_self _ _

theorem levelIndex_mono {p q : ℕ} (h : p ≤ q) (j : ℕ) : levelIndex a d p j ≤ levelIndex a d q j :=
  Nat.div_le_div_right h

theorem levelIndex_succ_div (p : ℕ) {j : ℕ} (hj : j + 1 < d) :
    levelIndex a d p (j + 1) / 2 ^ indexBits a = levelIndex a d p j := by
  rw [levelIndex_eq_div p (Nat.le_add_right j 1) hj, Nat.add_sub_cancel_left, Nat.mul_one]

theorem levelIndex_eq_of_div {p q l : ℕ} (hl : l < d)
    (h : levelIndex a d p l / 2 ^ indexBits a = levelIndex a d q l / 2 ^ indexBits a) {j : ℕ}
    (hj : j < l) : levelIndex a d p j = levelIndex a d q j := by
  have hsplit : indexBits a * (l - j) = indexBits a + indexBits a * (l - j - 1) := by
    rw [Nat.add_comm, ← Nat.mul_add_one]
    congr 1
    omega
  rw [levelIndex_eq_div p hj.le hl, levelIndex_eq_div q hj.le hl, hsplit, pow_add,
    ← Nat.div_div_eq_div_mul, ← Nat.div_div_eq_div_mul, h]

theorem levelIndex_nextPage (p l : ℕ) :
    levelIndex a d (nextPage a d p l) l = levelIndex a d p l + 1 := by
  rw [nextPage]
  exact Nat.mul_div_cancel _ (Nat.two_pow_pos _)

theorem nextPage_le_iff (p q l : ℕ) :
    nextPage a d p l ≤ q ↔ levelIndex a d p l + 1 ≤ levelIndex a d q l := by
  rw [nextPage, levelIndex, levelIndex, Nat.le_div_iff_mul_le (Nat.two_pow_pos _)]

theorem lt_nextPage (p l : ℕ) : p < nextPage a d p l :=
  (Nat.div_lt_iff_lt_mul (Nat.two_pow_pos _)).mp (Nat.lt_succ_self _)

/-- The next page is the first of its tables below the level. -/
theorem levelIndex_nextPage_mod (p : ℕ) {j l : ℕ} (hl : l < j) (hj : j < d) :
    levelIndex a d (nextPage a d p l) j % 2 ^ indexBits a = 0 := by
  have hsplit : indexBits a * (d - 1 - l) =
      indexBits a * (j - l - 1) + indexBits a + indexBits a * (d - 1 - j) := by
    rw [← Nat.mul_add_one, ← Nat.mul_add]
    congr 1
    omega
  rw [levelIndex, nextPage, hsplit, pow_add, ← Nat.mul_assoc,
    Nat.mul_div_cancel _ (Nat.two_pow_pos _), pow_add, ← Nat.mul_assoc, Nat.mul_mod_left]

theorem nextPage_last (p : ℕ) : nextPage a d p (d - 1) = p + 1 := by
  rw [nextPage, levelIndex_last p, Nat.sub_self, Nat.mul_zero, pow_zero, Nat.mul_one]

/-! ### The tables on the way to a page -/

section

variable (a d) (mem : GuestMemory) (root : UInt32)

/-- The table of a page at a level. -/
def tableOn (p : ℕ) : ℕ → Option UInt32
  | 0 => some root
  | j + 1 => (tableOn p j).bind fun t =>
    let pa := entryPage (tableEntry a mem t (levelIndex a d p j % 2 ^ indexBits a))
    if pa = 0 then none else some pa

end

variable {mem : GuestMemory} {root : UInt32}

theorem tableOn_congr {p q j : ℕ} (h : ∀ i < j, levelIndex a d p i = levelIndex a d q i) :
    tableOn a d mem root p j = tableOn a d mem root q j := by
  induction j with
  | zero => rfl
  | succ j ih =>
    rw [tableOn, tableOn, ih fun i hi => h i (hi.trans (Nat.lt_succ_self j)),
      h j (Nat.lt_succ_self j)]

/-- The translation goes on from any table on the way. -/
theorem lookup_of_tableOn {p j : ℕ} {t : UInt32} (hj : j < d)
    (h : tableOn a d mem root p j = some t) :
    lookup a mem d root p = lookup a mem (d - j) t p := by
  induction j generalizing t with
  | zero =>
    obtain rfl := Option.some_inj.mp h
    rfl
  | succ j ih =>
    rw [tableOn, Option.bind_eq_some_iff] at h
    obtain ⟨t', ht', hpa⟩ := h
    dsimp only at hpa
    split_ifs at hpa with hzero
    obtain rfl := Option.some_inj.mp hpa
    have hsub : d - j = (d - 1 - j) + 1 := by omega
    rw [ih (by omega) ht', hsub, lookup]
    change (if entryPage (tableEntry a mem t' (levelIndex a d p j % 2 ^ indexBits a)) = 0 then _
      else _) = _
    rw [if_neg hzero, if_neg (by omega)]
    congr 1
    omega

/-! ### The walk's variables at a page -/

section

variable (a d mem root) (first last : ℕ)

/-- The levels from the root down to `l`: the indices saved above it, the ends of the range, and
the tables on the way to `p`, of which the entries the range touches have been read. -/
structure Frames (p l : ℕ) (levels : ℕ → Level) : Prop where
  saved : ∀ j < l, (levels j).index.toNat = levelIndex a d p j ∧
    (levels j).base.toNat = levelIndex a d p j / 2 ^ indexBits a * 2 ^ indexBits a
  ends : ∀ j < d, (levels j).last.toNat = levelIndex a d last j
  tables : ∀ j ≤ l, ∃ t, tableOn a d mem root p j = some t ∧ ∀ q, first ≤ q → q ≤ last →
    levelIndex a d q j / 2 ^ indexBits a = levelIndex a d p j / 2 ^ indexBits a →
    le32 (levels j).bytes (levelIndex a d q j % 2 ^ indexBits a * 4) =
      tableEntry a mem t (levelIndex a d q j % 2 ^ indexBits a)

/-- The index a level below has saved: that of `p`, or, once a hole was stepped over, one before
the table `p` is the first page of. -/
def Saved (holes : Bool) (p j : ℕ) (level : Level) : Prop :=
  level.index.toNat = levelIndex a d p j ∨
    (holes = true ∧ level.index.toNat < levelIndex a d p j ∧
      levelIndex a d p j % 2 ^ indexBits a = 0)

/-- The walk is about to look at the page `p`, or at a table on the way to it. -/
structure At (holes : Bool) (p : ℕ) (w : Walk) : Prop where
  first_le : first ≤ p
  le_last : p ≤ last
  level_lt : w.level < d
  index_eq : w.index.toNat = levelIndex a d p w.level
  base_eq : w.base.toNat = levelIndex a d p w.level / 2 ^ indexBits a * 2 ^ indexBits a
  frames : Frames a d mem root first last p w.level w.levels
  below : ∀ j, w.level < j → j < d → Saved a d holes p j (w.levels j)

end

variable {first last : ℕ} {p q l : ℕ} {levels : ℕ → Level} {holes : Bool} {w : Walk}

/-- Another page of the same table. -/
private theorem Frames.of_div (h : Frames a d mem root first last p l levels) (hl : l < d)
    (hdiv : levelIndex a d q l / 2 ^ indexBits a = levelIndex a d p l / 2 ^ indexBits a) :
    Frames a d mem root first last q l levels where
  saved j hj := by
    rw [levelIndex_eq_of_div hl hdiv hj]
    exact h.saved j hj
  ends := h.ends
  tables j hj := by
    obtain ⟨t, ht, hread⟩ := h.tables j hj
    have hdiv' : levelIndex a d q j / 2 ^ indexBits a = levelIndex a d p j / 2 ^ indexBits a := by
      rcases hj.lt_or_eq with hj | rfl
      · rw [levelIndex_eq_of_div hl hdiv hj]
      · exact hdiv
    refine ⟨t, ?_, fun q' h1 h2 h3 => hread q' h1 h2 (h3.trans hdiv')⟩
    rw [← ht]
    exact tableOn_congr fun i hi => levelIndex_eq_of_div hl hdiv (hi.trans_le hj)

/-- Saving an index at a level leaves the frames down to it. -/
private theorem Frames.save (h : Frames a d mem root first last p l levels) {l' k : ℕ}
    (hl' : l' ≤ l) (hk : l' ≤ k) (x : UInt64) : Frames a d mem root first last p l'
      (Function.update levels k { levels k with index := x }) where
  saved j hj := by
    rw [Function.update_of_ne (by omega)]
    exact h.saved j (hj.trans_le hl')
  ends j hj := by
    by_cases hjk : j = k
    · subst hjk
      rw [Function.update_self]
      exact h.ends j hj
    · rw [Function.update_of_ne hjk]
      exact h.ends j hj
  tables j hj := by
    have hbytes : (Function.update levels k { levels k with index := x } j).bytes =
        (levels j).bytes := by
      by_cases hjk : j = k
      · subst hjk
        rw [Function.update_self]
      · rw [Function.update_of_ne hjk]
    rw [hbytes]
    exact h.tables j (hj.trans hl')

/-- Where the next index of a level starts a new table, the level above moves on as well. -/
private theorem levelIndex_succ_of_mod (hl : l + 1 < d)
    (hsucc : levelIndex a d q (l + 1) = levelIndex a d p (l + 1) + 1)
    (hmod : levelIndex a d q (l + 1) % 2 ^ indexBits a = 0) :
    levelIndex a d q l = levelIndex a d p l + 1 := by
  rw [← levelIndex_succ_div q hl, ← levelIndex_succ_div p hl, hsucc, Nat.succ_div,
    if_pos (Nat.dvd_of_mod_eq_zero (hsucc ▸ hmod))]

private theorem div_eq_of_mod_lt {n m : ℕ} (h : n % m + 1 < m) : (n + 1) / m = n / m := by
  rw [Nat.succ_div, if_neg, Nat.add_zero]
  intro hdvd
  have := Nat.mod_eq_zero_of_dvd hdvd
  rw [Nat.add_mod, Nat.mod_eq_of_lt (show 1 < m by omega), Nat.mod_eq_of_lt h] at this
  omega

private theorem toNat_index_succ {x : UInt64} {n : ℕ} (hx : x.toNat = n) (hn : n < 2 ^ 32) :
    (x + 1).toNat = n + 1 := by
  rw [UInt64.toNat_add_of_toNat_lt (by rw [hx, UInt64.toNat_one]; omega), hx, UInt64.toNat_one]

private theorem toNat_offset {x y : UInt64} {n m : ℕ} (hx : x.toNat = n)
    (hy : y.toNat = n / m * m) : (x - y).toNat = n % m := by
  have := Nat.div_add_mod' n m
  rw [UInt64.toNat_sub_of_toNat_le (by omega), hx, hy]
  omega

/-- The climb from an exhausted table arrives at the next page. -/
private theorem climb_spec (hroot : levelIndex a d last 0 < 2 ^ indexBits a)
    (hlast : last < 2 ^ 32) (hp : first ≤ p) (hq : q ≤ last) (hpq : p ≤ q) {index : UInt64}
    (hl : l < d) (hindex : index.toNat = levelIndex a d q l)
    (hsucc : levelIndex a d q l = levelIndex a d p l + 1)
    (hmod : levelIndex a d q l % 2 ^ indexBits a = 0)
    (hframes : Frames a d mem root first last p l levels)
    (hbelow : ∀ j, l < j → j < d → Saved a d holes q j (levels j)) :
    ∃ w', PageTableWalker.climb a levels l index = some w' ∧
      At a d mem root first last holes q w' := by
  induction l generalizing levels index with
  | zero =>
    have hle := levelIndex_mono (a := a) (d := d) hq 0
    rw [Nat.mod_eq_of_lt (hle.trans_lt hroot)] at hmod
    omega
  | succ l ih =>
    have hup := levelIndex_succ_of_mod hl hsucc hmod
    obtain ⟨hsaved, hbase⟩ := hframes.saved l (Nat.lt_succ_self l)
    have hlt : levelIndex a d p l < 2 ^ 32 :=
      (levelIndex_le p l).trans_lt ((hpq.trans hq).trans_lt hlast)
    have hnext := toNat_index_succ hsaved hlt
    set levels' := Function.update levels (l + 1) { levels (l + 1) with index := index } with hlv
    have hself : levels' l = levels l := Function.update_of_ne (Nat.ne_of_lt (Nat.lt_succ_self l)) _ _
    have hoffset : ((levels l).index + 1 - (levels l).base).toNat =
        levelIndex a d p l % 2 ^ indexBits a + 1 := by
      have := Nat.div_add_mod' (levelIndex a d p l) (2 ^ indexBits a)
      rw [UInt64.toNat_sub_of_toNat_le (by omega), hnext, hbase]
      omega
    have hframes' : Frames a d mem root first last p l levels' :=
      hframes.save (Nat.le_succ l) (Nat.le_succ l) index
    have hbelow' : ∀ j, l < j → j < d → Saved a d holes q j (levels' j) := by
      intro j hj hjd
      by_cases hjl : j = l + 1
      · subst hjl
        rw [hlv, Function.update_self]
        exact .inl hindex
      · rw [hlv, Function.update_of_ne hjl]
        exact hbelow j (by omega) hjd
    rw [PageTableWalker.climb]
    dsimp only
    rw [← hlv, hself]
    have hmodlt := Nat.mod_lt (levelIndex a d p l) (Nat.two_pow_pos (indexBits a))
    by_cases hfit : levelIndex a d p l % 2 ^ indexBits a + 1 < 2 ^ indexBits a
    · have hdiv := div_eq_of_mod_lt hfit
      rw [if_pos (by rw [UInt64.lt_iff_toNat_lt, hoffset, toNat_entries]; exact hfit)]
      refine ⟨_, rfl, hp.trans hpq, hq, by simpa using (Nat.lt_succ_self l).trans hl, ?_, ?_, ?_,
        hbelow'⟩
      · rw [hup]
        exact hnext
      · rw [hup, hdiv]
        exact hbase
      · exact hframes'.of_div ((Nat.lt_succ_self l).trans hl) (by rw [hup, hdiv])
    · rw [if_neg (by rw [UInt64.lt_iff_toNat_lt, hoffset, toNat_entries]; exact hfit)]
      refine ih ((Nat.lt_succ_self l).trans hl) ?_ hup ?_ hframes' hbelow'
      · rw [hnext, hup]
      · rw [hup, Nat.add_mod, Nat.mod_eq_of_lt (Nat.one_lt_two_pow (indexBits_bounds a).1.ne')]
        rw [show levelIndex a d p l % 2 ^ indexBits a + 1 = 2 ^ indexBits a by omega, Nat.mod_self]

/-- What the walk's callers promise: one to three levels, and a range whose last page is below
`2^32` and in the root table. -/
structure Fits (a : Arch) (d : ℕ) (first last : ℕ) : Prop where
  depth_pos : 0 < d
  depth_le : d ≤ 3
  first_le : first ≤ last
  last_lt : last < 2 ^ 32
  root_lt : levelIndex a d last 0 < 2 ^ indexBits a

private theorem At.toNat_offset (h : At a d mem root first last holes p w) :
    (w.index - w.base).toNat = levelIndex a d p w.level % 2 ^ indexBits a :=
  Memory.toNat_offset h.index_eq h.base_eq

/-- An iteration that moves on at the current level arrives at the next page, if the range has
one. At a level above the last this happens only over a hole. -/
private theorem At.advance (hfits : Fits a d first last) (h : At a d mem root first last holes p w)
    (hlevel : holes = true ∨ w.level = d - 1) :
    (last < nextPage a d p w.level ∧ PageTableWalker.advance a w = none) ∨
    (nextPage a d p w.level ≤ last ∧ ∃ w', PageTableWalker.advance a w = some w' ∧
      At a d mem root first last holes (nextPage a d p w.level) w') := by
  have hlt : levelIndex a d p w.level < 2 ^ 32 :=
    (levelIndex_le p _).trans_lt (h.le_last.trans_lt hfits.last_lt)
  have hnext := toNat_index_succ h.index_eq hlt
  have hsucc := levelIndex_nextPage (a := a) (d := d) p w.level
  have hle := nextPage_le_iff (a := a) (d := d) p last w.level
  have hcmp : w.index + 1 > (w.levels w.level).last ↔ last < nextPage a d p w.level := by
    rw [gt_iff_lt, UInt64.lt_iff_toNat_lt, hnext, h.frames.ends _ h.level_lt]
    omega
  rw [PageTableWalker.advance]
  by_cases hend : last < nextPage a d p w.level
  · exact .inl ⟨hend, if_pos (hcmp.mpr hend)⟩
  · have hq : nextPage a d p w.level ≤ last := Nat.le_of_not_lt hend
    refine .inr ⟨hq, ?_⟩
    rw [if_neg (fun hc => hend (hcmp.mp hc))]
    have hbelow : ∀ j, w.level < j → j < d →
        Saved a d holes (nextPage a d p w.level) j (w.levels j) := by
      intro j hj hjd
      rcases hlevel with rfl | hlevel
      · have hmod := levelIndex_nextPage_mod (a := a) p hj hjd
        have hmono := levelIndex_mono (a := a) (d := d) (lt_nextPage (a := a) (d := d) p w.level).le j
        have hsaved : (w.levels j).index.toNat ≤ levelIndex a d p j := by
          rcases h.below j hj hjd with heq | ⟨-, hlt, -⟩
          · exact heq.le
          · exact hlt.le
        rcases (hsaved.trans hmono).lt_or_eq with hlt | heq
        · exact .inr ⟨rfl, hlt, hmod⟩
        · exact .inl heq
      · omega
    have hmodlt := Nat.mod_lt (levelIndex a d p w.level) (Nat.two_pow_pos (indexBits a))
    have hbits : 2 ^ indexBits a ≤ 2 ^ 12 :=
      Nat.pow_le_pow_right (by decide) (indexBits_bounds a).2
    have hoffset : (w.index - w.base + 1).toNat =
        levelIndex a d p w.level % 2 ^ indexBits a + 1 :=
      toNat_index_succ h.toNat_offset (hmodlt.trans (hbits.trans_lt (by decide)))
    by_cases hfit : levelIndex a d p w.level % 2 ^ indexBits a + 1 < 2 ^ indexBits a
    · have hdiv := div_eq_of_mod_lt hfit
      rw [if_neg (by rw [ge_iff_le, UInt64.le_iff_toNat_le, hoffset, toNat_entries]; omega)]
      refine ⟨_, rfl, h.first_le.trans (lt_nextPage p _).le, hq, h.level_lt, ?_, ?_, ?_, hbelow⟩
      · rw [hsucc]
        exact hnext
      · rw [hsucc, hdiv]
        exact h.base_eq
      · exact h.frames.of_div h.level_lt (by rw [hsucc, hdiv])
    · rw [if_pos (by rw [ge_iff_le, UInt64.le_iff_toNat_le, hoffset, toNat_entries]; omega)]
      refine climb_spec hfits.root_lt hfits.last_lt h.first_le hq (lt_nextPage p _).le h.level_lt
        (by rw [hsucc]; exact hnext) hsucc ?_ h.frames hbelow
      rw [hsucc, Nat.add_mod, Nat.mod_eq_of_lt (Nat.one_lt_two_pow (indexBits_bounds a).1.ne'),
        show levelIndex a d p w.level % 2 ^ indexBits a + 1 = 2 ^ indexBits a by omega,
        Nat.mod_self]

/-- A table read inside the table: the bytes of the entries asked for are the guest's. -/
private theorem readRange_spec {pa : UInt32} (hpa : pa ≠ 0) (level : Level) (start count : UInt64)
    (hcount : 0 < count.toNat) (hfit : start.toNat + count.toNat ≤ 2 ^ indexBits a) :
    ∃ bytes, readRange a mem pa level start count = .ok (true, { level with bytes := bytes }) ∧
      ∀ o, start.toNat ≤ o → o < start.toNat + count.toNat →
        le32 bytes (o * 4) = tableEntry a mem pa o := by
  have hbits : 2 ^ indexBits a ≤ 2 ^ 12 :=
    Nat.pow_le_pow_right (by decide) (indexBits_bounds a).2
  have hsum : (start + count).toNat = start.toNat + count.toNat :=
    UInt64.toNat_add_of_toNat_lt (by omega)
  have hsrc : (start <<< 2).toNat = start.toNat * 4 :=
    UInt64.toNat_shiftLeft_ofNat (n := 2) (by decide) (by omega)
  have hdst : ((start + count) <<< 2).toNat = (start.toNat + count.toNat) * 4 := by
    rw [← hsum]
    exact UInt64.toNat_shiftLeft_ofNat (n := 2) (by decide) (by omega)
  have hshift : 2 ^ pageShift a ≤ 2 ^ 14 :=
    Nat.pow_le_pow_right (by decide) (by have := indexBits_bounds a; rw [pageShift_eq]; omega)
  have hpage : pa.toNat * 2 ^ pageShift a ≤ pa.toNat * 2 ^ 14 := Nat.mul_le_mul_left _ hshift
  have hpalt := pa.toNat_lt
  have haddress : (pa.toUInt64 <<< UInt64.ofNat (pageShift a)).toNat =
      pa.toNat * 2 ^ pageShift a := by
    refine UInt64.toNat_shiftLeft_ofNat ?_ ?_
    · have := indexBits_bounds a
      rw [pageShift_eq]
      omega
    · rw [UInt32.toNat_toUInt64]
      omega
  have hbase : (pa.toUInt64 <<< UInt64.ofNat (pageShift a) + start <<< 2).toNat =
      pa.toNat * 2 ^ pageShift a + start.toNat * 4 := by
    rw [UInt64.toNat_add_of_toNat_lt (by rw [haddress, hsrc]; omega), haddress, hsrc]
  rw [readRange, if_neg hpa,
    if_neg (by rw [ge_iff_le, UInt64.le_iff_toNat_le, toNat_entries]; omega),
    if_neg (by rw [gt_iff_lt, UInt64.lt_iff_toNat_lt, toNat_entries, hsum]; omega)]
  dsimp only
  rw [if_neg (by rw [UInt64.lt_iff_toNat_lt, hsrc, hdst]; omega)]
  refine ⟨_, rfl, fun o ho ho' => ?_⟩
  have hbyte (i : ℕ) (hi : i < 4) : (if (start <<< 2).toNat ≤ o * 4 + i ∧
      o * 4 + i < ((start + count) <<< 2).toNat then
        mem ((pa.toUInt64 <<< UInt64.ofNat (pageShift a) + start <<< 2).toNat +
          (o * 4 + i - (start <<< 2).toNat)) else level.bytes (o * 4 + i)) =
      mem (pa.toNat * 2 ^ pageShift a + o * 4 + i) := by
    rw [if_pos (by rw [hsrc, hdst]; omega), hbase, hsrc]
    congr 1
    omega
  simp only [le32, tableEntry, hbyte 1 (by decide), hbyte 2 (by decide), hbyte 3 (by decide)]
  rw [show o * 4 = o * 4 + 0 from rfl, hbyte 0 (by decide)]
  rfl

/-! ### One iteration -/

section

variable {σ ε : Type*} (visit : Visitor σ ε) (s : σ)

private theorem At.entry_eq (h : At a d mem root first last holes p w) :
    ∃ t, tableOn a d mem root p w.level = some t ∧
      (w.levels w.level).entry a (w.index - w.base) =
        .ok (tableEntry a mem t (levelIndex a d p w.level % 2 ^ indexBits a)) := by
  obtain ⟨t, ht, hread⟩ := h.frames.tables w.level le_rfl
  refine ⟨t, ht, ?_⟩
  rw [Level.entry, if_pos, h.toNat_offset, hread p h.first_le h.le_last rfl]
  rw [UInt64.lt_iff_toNat_lt, h.toNat_offset, toNat_entries]
  exact Nat.mod_lt _ (Nat.two_pow_pos _)

/-- A walk whose index lies before its table dies at its next entry. -/
private def Doomed (a : Arch) (w : Walk) : Prop := ¬ w.index - w.base < entries a

private theorem Doomed.step (h : Doomed a w) (hw : w.level < d) :
    (PageTableWalker.new a root d holes).step a mem visit w s =
      (s, .inr (.died .walkEntryPastTable)) := by
  rw [PageTableWalker.step, if_neg (by exact Nat.not_le.mpr hw), Level.entry, if_neg h]

/-- A descent arrives in the table of `p`, at `p`'s index or, over a hole, before it. -/
private theorem At.descend (hfits : Fits a d first last)
    (h : At a d mem root first last holes p w) {pa : UInt32} (hpa : pa ≠ 0)
    (ht : tableOn a d mem root p (w.level + 1) = some pa) (hlevel : w.level + 1 < d) :
    ∃ w', PageTableWalker.descend a mem w pa = .ok w' ∧ w'.level = w.level + 1 ∧
      (At a d mem root first last holes p w' ∨ (holes = true ∧ Doomed a w')) := by
  have hbits : 2 ^ indexBits a ≤ 2 ^ 12 :=
    Nat.pow_le_pow_right (by decide) (indexBits_bounds a).2
  have hplt : levelIndex a d p w.level < 2 ^ 32 :=
    (levelIndex_le p _).trans_lt (h.le_last.trans_lt hfits.last_lt)
  have hne : w.level + 1 ≠ w.level := by omega
  set saved := Function.update w.levels w.level
    { w.levels w.level with index := w.index, base := w.base } with hsavedeq
  have hchild : saved (w.level + 1) = w.levels (w.level + 1) := Function.update_of_ne hne _ _
  obtain ⟨bytes, hread, hbytes⟩ : ∃ bytes,
      readRange a mem pa (saved (w.level + 1)) 0 (entries a) =
        .ok (true, { saved (w.level + 1) with bytes := bytes }) ∧
      ∀ o, (0 : UInt64).toNat ≤ o → o < (0 : UInt64).toNat + (entries a).toNat →
        le32 bytes (o * 4) = tableEntry a mem pa o :=
    readRange_spec hpa (saved (w.level + 1)) 0 (entries a)
      (by rw [toNat_entries]; exact Nat.two_pow_pos _)
      (by rw [toNat_entries, UInt64.toNat_zero]; omega)
  rw [UInt64.toNat_zero, Nat.zero_add, toNat_entries] at hbytes
  have hbase : (w.index <<< UInt64.ofNat (indexBits a)).toNat =
      levelIndex a d p (w.level + 1) / 2 ^ indexBits a * 2 ^ indexBits a := by
    have hmul := Nat.mul_le_mul_left (levelIndex a d p w.level) hbits
    rw [levelIndex_succ_div p hlevel, ← h.index_eq]
    refine UInt64.toNat_shiftLeft_ofNat (by have := indexBits_bounds a; omega) ?_
    rw [h.index_eq]
    omega
  have hlv (j : ℕ) (hj : j < w.level) : Function.update saved (w.level + 1)
      { saved (w.level + 1) with bytes := bytes } j = w.levels j := by
    rw [Function.update_of_ne (by omega), hsavedeq, Function.update_of_ne (by omega)]
  have hlvself : Function.update saved (w.level + 1)
      { saved (w.level + 1) with bytes := bytes } w.level =
      { w.levels w.level with index := w.index, base := w.base } := by
    rw [Function.update_of_ne (by omega), hsavedeq, Function.update_self]
  have hframes : Frames a d mem root first last p (w.level + 1)
      (Function.update saved (w.level + 1) { saved (w.level + 1) with bytes := bytes }) := by
    refine ⟨fun j hj => ?_, fun j hj => ?_, fun j hj => ?_⟩
    · rcases Nat.lt_succ_iff_lt_or_eq.mp hj with hj | rfl
      · rw [hlv j hj]
        exact h.frames.saved j hj
      · rw [hlvself]
        exact ⟨h.index_eq, h.base_eq⟩
    · rcases lt_trichotomy j w.level with hjl | rfl | hjl
      · rw [hlv j hjl]
        exact h.frames.ends j hj
      · rw [hlvself]
        exact h.frames.ends _ hj
      · by_cases hjc : j = w.level + 1
        · subst hjc
          rw [Function.update_self, hchild]
          exact h.frames.ends _ hj
        · rw [Function.update_of_ne hjc, hsavedeq, Function.update_of_ne (by omega)]
          exact h.frames.ends j hj
    · rcases Nat.lt_succ_iff_lt_or_eq.mp (Nat.lt_succ_of_le hj) with hj | rfl
      · rcases Nat.lt_succ_iff_lt_or_eq.mp hj with hj | rfl
        · rw [hlv j hj]
          exact h.frames.tables j hj.le
        · rw [hlvself]
          exact h.frames.tables _ le_rfl
      · rw [Function.update_self]
        exact ⟨pa, ht, fun q _ _ _ => hbytes _ (Nat.zero_le _) (Nat.mod_lt _ (Nat.two_pow_pos _))⟩
  rw [PageTableWalker.descend]
  dsimp only
  rw [← hsavedeq, hread]
  refine ⟨_, rfl, rfl, ?_⟩
  have hbelow := h.below (w.level + 1) (Nat.lt_succ_self _) hlevel
  rw [← hchild] at hbelow
  rcases hbelow with heq | ⟨hholes, hlt, hmod⟩
  · refine .inl ⟨h.first_le, h.le_last, hlevel, heq, hbase, hframes, fun j hj hjd => ?_⟩
    change w.level + 1 < j at hj
    change Saved a d holes p j (Function.update saved (w.level + 1) _ j)
    rw [Function.update_of_ne (by omega), hsavedeq, Function.update_of_ne (by omega)]
    exact h.below j (by omega) hjd
  · refine .inr ⟨hholes, ?_⟩
    change ¬ (saved (w.level + 1)).index - w.index <<< UInt64.ofNat (indexBits a) < entries a
    have hdm := Nat.div_add_mod' (levelIndex a d p (w.level + 1)) (2 ^ indexBits a)
    have hle := (levelIndex_le (a := a) (d := d) p (w.level + 1)).trans_lt
      (h.le_last.trans_lt hfits.last_lt)
    rw [UInt64.lt_iff_toNat_lt, toNat_entries, UInt64.toNat_sub, hbase]
    omega

/-- An iteration at the page `p`: a hole on the way to it; a descent towards it; or its visit, with
its translation. -/
private theorem At.step (hfits : Fits a d first last)
    (h : At a d mem root first last holes p w) :
    (lookup a mem d root p = none ∧ (PageTableWalker.new a root d holes).step a mem visit w s =
      if holes then (s, PageTableWalker.moveOn a w) else (s, .inr (.raised .walkHole))) ∨
    (∃ w', (PageTableWalker.new a root d holes).step a mem visit w s = (s, .inl w') ∧
      w.level + 1 < d ∧ w'.level = w.level + 1 ∧
      (At a d mem root first last holes p w' ∨ (holes = true ∧ Doomed a w'))) ∨
    (w.level = d - 1 ∧ ∃ leaf, lookup a mem d root p = some leaf ∧
      (PageTableWalker.new a root d holes).step a mem visit w s =
        match visit s (pageVisit a p leaf) with
        | (s, some e) => (s, .inr (.visitor e))
        | (s, none) => (s, PageTableWalker.moveOn a w)) := by
  obtain ⟨t, ht, hentry⟩ := h.entry_eq
  have hlookup := lookup_of_tableOn h.level_lt ht
  have hlevel := h.level_lt
  rw [show d - w.level = (d - 1 - w.level) + 1 by omega, lookup] at hlookup
  rw [PageTableWalker.step, if_neg (by exact Nat.not_le.mpr hlevel), hentry]
  dsimp only at hlookup ⊢
  rw [show p / 2 ^ (indexBits a * (d - 1 - w.level)) = levelIndex a d p w.level from rfl] at hlookup
  set e := tableEntry a mem t (levelIndex a d p w.level % 2 ^ indexBits a) with he
  by_cases hpa : entryPage e = 0
  · rw [if_pos hpa] at hlookup
    rw [if_pos hpa]
    exact .inl ⟨hlookup, rfl⟩
  · rw [if_neg hpa] at hlookup
    rw [if_neg hpa]
    refine .inr ?_
    by_cases hleaf : w.level < d - 1
    · have ht' : tableOn a d mem root p (w.level + 1) = some (entryPage e) := by
        rw [tableOn, ht]
        exact if_neg hpa
      obtain ⟨w', hdesc, hl', hw'⟩ := h.descend hfits hpa ht' (by omega)
      refine .inl ⟨w', ?_, by omega, hl', hw'⟩
      rw [if_pos (by exact hleaf), hdesc]
    · have hl : w.level = d - 1 := by omega
      rw [if_pos (by omega)] at hlookup
      refine .inr ⟨hl, _, hlookup, ?_⟩
      rw [if_neg (by exact hleaf)]
      have haddress : w.index <<< UInt64.ofNat (pageShift a) =
          UInt64.ofNat (p * 2 ^ pageShift a) := by
        have hindex := h.index_eq
        have hplt := h.le_last.trans_lt hfits.last_lt
        have hshift : 2 ^ pageShift a ≤ 2 ^ 14 := Nat.pow_le_pow_right (by decide) (by
          have := indexBits_bounds a
          rw [pageShift_eq]
          omega)
        have hmul := Nat.mul_le_mul_left p hshift
        rw [hl, levelIndex_last] at hindex
        refine UInt64.toNat_inj.mp ?_
        rw [UInt64.toNat_shiftLeft_ofNat, hindex,
          UInt64.toNat_ofNat_of_lt' (by rw [show UInt64.size = 2 ^ 64 from rfl]; omega)]
        · have := indexBits_bounds a
          rw [pageShift_eq]
          omega
        · rw [hindex]
          omega
      rw [haddress]
      rfl

/-! ### The whole walk -/

/-- Without holes the loop visits the pages from `p` on, each with its translation; `d` iterations
for each page are enough. -/
private theorem At.loop_eq (hfits : Fits a d first last)
    (h : At a d mem root first last false p w) {fuel : ℕ}
    (hfuel : (last - p) * d + (d - w.level) ≤ fuel) :
    (PageTableWalker.new a root d false).loop a mem visit fuel w s =
      visitEach a mem d root visit (List.range' p (last - p + 1)) s := by
  induction fuel generalizing p w s with
  | zero =>
    have := h.level_lt
    omega
  | succ fuel ih =>
    rw [PageTableWalker.loop, List.range'_succ, visitEach]
    rcases h.step visit s hfits with ⟨hnone, hstep⟩ | ⟨w', hstep, hlt, hl', hw'⟩ |
      ⟨hleaf, leaf, hsome, hstep⟩
    · rw [hstep, hnone]
      rfl
    · have hat : At a d mem root first last false p w' := by
        rcases hw' with hw' | ⟨hc, -⟩
        · exact hw'
        · cases hc
      rw [hstep]
      dsimp only
      rw [ih s hat (by rw [hl']; omega), List.range'_succ, visitEach]
    · rw [hstep, hsome]
      dsimp only
      cases hv : visit s (pageVisit a p leaf) with
      | mk s' r =>
        cases r with
        | some e => rfl
        | none =>
          dsimp only
          have hadv := h.advance hfits (.inr hleaf)
          rw [hleaf, nextPage_last] at hadv
          rw [PageTableWalker.moveOn]
          rcases hadv with ⟨hend, hadv⟩ | ⟨hle, w', hadv, hw'⟩
          · rw [hadv, show last - p = 0 by omega]
            rfl
          · rw [hadv]
            dsimp only
            have hsplit : (last - p) * d = (last - (p + 1)) * d + d := by
              rw [← Nat.succ_mul]
              congr 1
              omega
            have hlt := h.level_lt
            rw [ih s' hw' (by omega), show last - (p + 1) + 1 = last - p by omega]

/-- A visitor that also keeps the visits made. -/
def Visitor.traced (visit : Visitor σ ε) : Visitor (σ × List Visit) ε := fun s v =>
  (((visit s.1 v).1, s.2 ++ [v]), (visit s.1 v).2)

/-- The visits are those of some pages from `p` to `last`, in ascending order, each with its
translation. -/
def Translations (a : Arch) (mem : GuestMemory) (d : ℕ) (root : UInt32) (p last : ℕ)
    (visits : List Visit) : Prop :=
  ∃ pages : List ℕ, pages.Pairwise (· < ·) ∧ (∀ q ∈ pages, p ≤ q ∧ q ≤ last) ∧
    List.Forall₂ (fun q v => ∃ leaf, lookup a mem d root q = some leaf ∧ v = pageVisit a q leaf)
      pages visits

private theorem Translations.nil : Translations a mem d root p last [] :=
  ⟨[], .nil, nofun, .nil⟩

private theorem Translations.mono {visits : List Visit} (hpq : p ≤ q)
    (h : Translations a mem d root q last visits) : Translations a mem d root p last visits := by
  obtain ⟨pages, hsorted, hrange, hvisits⟩ := h
  exact ⟨pages, hsorted, fun q' hq' => ⟨hpq.trans (hrange q' hq').1, (hrange q' hq').2⟩, hvisits⟩

private theorem Translations.cons {visits : List Visit} {leaf : UInt32 × UInt32}
    (hp : p ≤ last) (hleaf : lookup a mem d root p = some leaf)
    (h : Translations a mem d root (p + 1) last visits) :
    Translations a mem d root p last (pageVisit a p leaf :: visits) := by
  obtain ⟨pages, hsorted, hrange, hvisits⟩ := h
  refine ⟨p :: pages, List.pairwise_cons.mpr ⟨fun q hq => (hrange q hq).1, hsorted⟩, ?_,
    .cons ⟨leaf, hleaf, rfl⟩ hvisits⟩
  intro q hq
  rcases List.mem_cons.mp hq with rfl | hq
  · exact ⟨le_rfl, hp⟩
  · exact ⟨(Nat.le_succ p).trans (hrange q hq).1, (hrange q hq).2⟩

/-- With or without holes, the visits the loop makes from `p` on are translations. -/
private theorem At.translations (hfits : Fits a d first last) (fuel : ℕ) (log : List Visit)
    (h : At a d mem root first last holes p w) :
    ∃ visits, ((PageTableWalker.new a root d holes).loop a mem visit.traced fuel w (s, log)).1.2 =
      log ++ visits ∧ Translations a mem d root p last visits := by
  induction fuel generalizing p w s log with
  | zero => exact ⟨[], (List.append_nil _).symm, .nil⟩
  | succ fuel ih =>
    have hmove (hlevel : holes = true ∨ w.level = d - 1) (s : σ) (log : List Visit) :
        ∃ visits, (match (PageTableWalker.moveOn a w : Walk ⊕ WalkEnd ε) with
          | .inl w => (PageTableWalker.new a root d holes).loop a mem visit.traced fuel w (s, log)
          | .inr e => ((s, log), e)).1.2 = log ++ visits ∧
          Translations a mem d root (p + 1) last visits := by
      rw [PageTableWalker.moveOn]
      rcases h.advance hfits hlevel with ⟨-, hadv⟩ | ⟨-, w', hadv, hw'⟩
      · rw [hadv]
        exact ⟨[], (List.append_nil _).symm, .nil⟩
      · rw [hadv]
        obtain ⟨visits, hlog, htrans⟩ := ih s log hw'
        exact ⟨visits, hlog, htrans.mono (lt_nextPage p w.level)⟩
    rw [PageTableWalker.loop]
    rcases h.step visit.traced (s, log) hfits with ⟨hnone, hstep⟩ | ⟨w', hstep, hlt, hl', hw'⟩ |
      ⟨hleaf, leaf, hsome, hstep⟩
    · rw [hstep]
      cases hholes : holes with
      | false => exact ⟨[], (List.append_nil _).symm, .nil⟩
      | true =>
        obtain ⟨visits, hlog, htrans⟩ := hmove (.inl hholes) s log
        refine ⟨visits, ?_, htrans.mono (Nat.le_succ p)⟩
        rw [← hlog, hholes]
        cases (PageTableWalker.moveOn a w : Walk ⊕ WalkEnd ε) <;> rfl
    · rw [hstep]
      rcases hw' with hw' | ⟨-, hdoomed⟩
      · exact ih s log hw'
      · refine ⟨[], ?_, .nil⟩
        cases fuel with
        | zero => exact (List.append_nil _).symm
        | succ fuel =>
          dsimp only
          rw [PageTableWalker.loop, hdoomed.step visit.traced (s, log) (by omega)]
          exact (List.append_nil _).symm
    · rw [hstep, Visitor.traced]
      dsimp only
      obtain ⟨visits, hlog, htrans⟩ := hmove (.inr hleaf) (visit s (pageVisit a p leaf)).1
        (log ++ [pageVisit a p leaf])
      cases hr : (visit s (pageVisit a p leaf)).2 with
      | some e =>
        exact ⟨[pageVisit a p leaf], rfl, Translations.nil.cons h.le_last hsome⟩
      | none =>
        refine ⟨pageVisit a p leaf :: visits, ?_, htrans.cons h.le_last hsome⟩
        refine Eq.trans ?_ (hlog.trans (List.append_cons _ _ _).symm)
        cases (PageTableWalker.moveOn a w : Walk ⊕ WalkEnd ε) <;> rfl

end

private theorem toNat_startIndex (hd : d ≤ 3) {page : UInt64} (hpage : page.toNat < 2 ^ 32) (i : ℕ) :
    (page >>> UInt64.ofNat (indexBits a * (d - 1 - i))).toUInt32.toUInt64.toNat =
      levelIndex a d page.toNat i := by
  have hshift : indexBits a * (d - 1 - i) < 64 :=
    (Nat.mul_le_mul (indexBits_bounds a).2 (show d - 1 - i ≤ 2 by omega)).trans_lt (by decide)
  rw [UInt32.toNat_toUInt64, UInt64.toNat_toUInt32, UInt64.toNat_shiftRight_ofNat _ hshift,
    Nat.mod_eq_of_lt ((Nat.div_le_self _ _).trans_lt hpage)]
  rfl

private theorem root_new (root : UInt32) (d : ℕ) (holes : Bool) :
    ((PageTableWalker.new a root d holes).root >>> UInt64.ofNat (pageShift a)).toUInt32 = root := by
  have hshift : pageShift a ≤ 14 := by
    have := indexBits_bounds a
    rw [pageShift_eq]
    omega
  have hpow : 2 ^ pageShift a ≤ 2 ^ 14 := Nat.pow_le_pow_right (by decide) hshift
  have hmul := Nat.mul_le_mul_left root.toNat hpow
  have hlt := root.toNat_lt
  refine UInt32.toNat_inj.mp ?_
  rw [UInt64.toNat_toUInt32, UInt64.toNat_shiftRight_ofNat _ (by omega), PageTableWalker.new,
    UInt64.toNat_shiftLeft_ofNat (by omega) (by rw [UInt32.toNat_toUInt64]; omega),
    Nat.mul_div_cancel _ (Nat.two_pow_pos _), UInt32.toNat_toUInt64, Nat.mod_eq_of_lt hlt]

variable (mem) in
/-- The walk starts at the first page of its range. -/
private theorem visitPagesInRange_eq_loop {σ ε : Type*} (visit : Visitor σ ε) (s : σ) (fuel : ℕ)
    (hroot : root ≠ 0) {start length : UInt64} (hstart : start &&& pageMask a = 0)
    (hlength : length &&& pageMask a = 0) (hne : length ≠ 0)
    (hover : start.toNat + (length - 1).toNat < 2 ^ 64)
    (hfirst : first = start.toNat / 2 ^ pageShift a)
    (hlast : last = (start.toNat + (length - 1).toNat) / 2 ^ pageShift a)
    (hfits : Fits a d first last) (holes : Bool) :
    ∃ w, At a d mem root first last holes first w ∧ w.level = 0 ∧
      (PageTableWalker.new a root d holes).visitPagesInRange a mem visit fuel start length s =
        (PageTableWalker.new a root d holes).loop a mem visit fuel w s := by
  have hshift : pageShift a < 64 := by
    have := indexBits_bounds a
    rw [pageShift_eq]
    omega
  have hstartPage : (start >>> UInt64.ofNat (pageShift a)).toNat = first := by
    rw [UInt64.toNat_shiftRight_ofNat _ hshift, hfirst]
  have hendPage : ((start + (length - 1)) >>> UInt64.ofNat (pageShift a)).toNat = last := by
    rw [UInt64.toNat_shiftRight_ofNat _ hshift, UInt64.toNat_add_of_toNat_lt hover, hlast]
  have hindex (i : ℕ) : (PageTableWalker.startLevels a d (start >>> UInt64.ofNat (pageShift a))
      ((start + (length - 1)) >>> UInt64.ofNat (pageShift a)) i).index.toNat =
        levelIndex a d first i := by
    rw [← hstartPage]
    exact toNat_startIndex hfits.depth_le
      (by rw [hstartPage]; exact hfits.first_le.trans_lt hfits.last_lt) i
  have hends (i : ℕ) : (PageTableWalker.startLevels a d (start >>> UInt64.ofNat (pageShift a))
      ((start + (length - 1)) >>> UInt64.ofNat (pageShift a)) i).last.toNat =
        levelIndex a d last i := by
    rw [← hendPage]
    exact toNat_startIndex hfits.depth_le (by rw [hendPage]; exact hfits.last_lt) i
  rw [PageTableWalker.visitPagesInRange, if_neg (not_not_intro hstart),
    if_neg (not_not_intro hlength), if_neg hne, if_neg (Nat.not_le.mpr hover)]
  dsimp only
  rw [if_neg (by exact hfits.depth_pos.ne'), root_new,
    show (PageTableWalker.new a root d holes).depth = d from rfl]
  set levels := PageTableWalker.startLevels a d (start >>> UInt64.ofNat (pageShift a))
    ((start + (length - 1)) >>> UInt64.ofNat (pageShift a)) with hlevels
  have hle := levelIndex_mono (a := a) (d := d) hfits.first_le 0
  have hrootlt := hfits.root_lt
  have hbits : 2 ^ indexBits a ≤ 2 ^ 12 :=
    Nat.pow_le_pow_right (by decide) (indexBits_bounds a).2
  have hcount : ((levels 0).last - (levels 0).index + 1).toNat =
      levelIndex a d last 0 - levelIndex a d first 0 + 1 := by
    refine toNat_index_succ ?_ (show levelIndex a d last 0 - levelIndex a d first 0 < 2 ^ 32 by omega)
    rw [UInt64.toNat_sub_of_toNat_le (by rw [hindex, hends]; exact hle), hindex, hends]
  obtain ⟨bytes, hread, hbytes⟩ := readRange_spec (a := a) hroot (levels 0) (levels 0).index
    ((levels 0).last - (levels 0).index + 1) (by rw [hcount]; omega)
    (by rw [hcount, hindex]; omega)
  rw [hread]
  refine ⟨_, ⟨le_rfl, hfits.first_le, hfits.depth_pos, hindex 0, ?_,
    ⟨fun j hj => absurd hj (Nat.not_lt_zero j), ?_, ?_⟩, ?_⟩, rfl, rfl⟩
  · rw [Nat.div_eq_of_lt (hle.trans_lt hrootlt), Nat.zero_mul]
    rfl
  · intro j _
    by_cases hj : j = 0
    · subst hj
      exact hends 0
    · dsimp only
      rw [Function.update_of_ne hj]
      exact hends j
  · intro j hj
    obtain rfl : j = 0 := Nat.le_zero.mp hj
    refine ⟨root, rfl, fun q hq hq' _ => ?_⟩
    have h1 := levelIndex_mono (a := a) (d := d) hq 0
    have h2 := levelIndex_mono (a := a) (d := d) hq' 0
    dsimp only
    rw [Nat.mod_eq_of_lt (h2.trans_lt hrootlt), Function.update_self]
    exact hbytes _ (by rw [hindex]; exact h1) (by rw [hcount, hindex]; omega)
  · intro j hj _
    dsimp only at hj ⊢
    rw [Function.update_of_ne (Nat.ne_of_gt hj)]
    exact .inl (hindex j)

/-- Without holes the walk visits the pages of its range in turn. -/
theorem visitPagesInRange_eq_visitEach (hroot : root ≠ 0) (hstart : start &&& pageMask a = 0)
    (hlength : length &&& pageMask a = 0) (hne : length ≠ 0)
    (hover : start.toNat + (length - 1).toNat < 2 ^ 64)
    (hfirst : first = start.toNat / 2 ^ pageShift a)
    (hlast : last = (start.toNat + (length - 1).toNat) / 2 ^ pageShift a)
    (hfits : Fits a d first last) (visit : Visitor σ ε) (s : σ) {fuel : ℕ}
    (hfuel : d * (last - first + 1) ≤ fuel) :
    (PageTableWalker.new a root d false).visitPagesInRange a mem visit fuel start length s =
      visitEach a mem d root visit (List.range' first (last - first + 1)) s := by
  obtain ⟨w, hw, hlevel, hrun⟩ := visitPagesInRange_eq_loop mem visit s fuel hroot hstart hlength hne
    hover hfirst hlast hfits false
  rw [hrun]
  refine hw.loop_eq visit s hfits ?_
  rw [hlevel, Nat.mul_comm, Nat.sub_zero, ← Nat.mul_add_one]
  exact hfuel

/-- A walk whose range passes the refusals and whose last page is below `2^32` and in the root
table: without holes allowed it visits, in order, exactly the pages of the range, each with the
page number and writable bit of its direct translation, up to the first page that has none, where
it raises the hole; with holes allowed, however far it gets, the visits it has made are
translations of pages of the range in ascending order. -/
theorem visits_direct_translations (a : Arch) (mem : GuestMemory) (root : UInt32) (depth : ℕ)
    (start length : UInt64) (first last : ℕ) (hroot : root ≠ 0)
    (hdepth : 0 < depth ∧ depth ≤ 3) (hstart : start &&& pageMask a = 0)
    (hlength : length &&& pageMask a = 0) (hne : length ≠ 0)
    (hover : start.toNat + (length - 1).toNat < 2 ^ 64)
    (hfirst : first = start.toNat / 2 ^ pageShift a)
    (hlast : last = (start.toNat + (length - 1).toNat) / 2 ^ pageShift a)
    (hlast_lt : last < 2 ^ 32)
    (hindex_lt : last / 2 ^ (indexBits a * (depth - 1)) < (entries a).toNat)
    {σ ε : Type*} (visit : Visitor σ ε) (s : σ) (fuel : ℕ) :
    (depth * (last - first + 1) ≤ fuel →
      (PageTableWalker.new a root depth false).visitPagesInRange a mem visit fuel start length s =
        visitEach a mem depth root visit (List.range' first (last - first + 1)) s) ∧
    Translations a mem depth root first last
      ((PageTableWalker.new a root depth true).visitPagesInRange a mem visit.traced fuel start length
        (s, [])).1.2 := by
  have hle : first ≤ last := by
    rw [hfirst, hlast]
    exact Nat.div_le_div_right (Nat.le_add_right _ _)
  have hfits : Fits a depth first last := by
    rw [toNat_entries] at hindex_lt
    exact ⟨hdepth.1, hdepth.2, hle, hlast_lt, hindex_lt⟩
  constructor
  · exact visitPagesInRange_eq_visitEach hroot hstart hlength hne hover hfirst hlast hfits visit s
  · obtain ⟨w, hw, -, hrun⟩ := visitPagesInRange_eq_loop mem visit.traced (s, []) fuel hroot
      hstart hlength hne hover hfirst hlast hfits true
    rw [hrun]
    obtain ⟨visits, hlog, htrans⟩ := hw.translations visit s hfits fuel []
    rw [hlog]
    exact htrans

/-- Two levels of tables at the pages 1 and 2, for the pages 0 and 1 of a task. -/
private def twoLevels : GuestMemory := fun address =>
  if address = 0x1000 then 2
  else if address = 0x2000 then 5
  else if address = 0x2003 then 0x80
  else if address = 0x2004 then 9
  else 0

/-- A walk of three pages of two tables: two visits, and a hole. -/
theorem visits_direct_translations_twoLevels :
    (PageTableWalker.new .x86_64 1 2 false).visitPagesInRange .x86_64 twoLevels
      (fun (s : List Visit) v => (s ++ [v], (none : Option Empty))) 6 0 0x3000 [] =
        ([⟨0, 5, 1⟩, ⟨0x1000, 9, 0⟩], .raised .walkHole) := by
  have h := (visits_direct_translations .x86_64 twoLevels 1 2 0 0x3000 0 2 (by decide) (by decide)
    (by decide) (by decide) (by decide) (by decide) (by decide) (by decide) (by decide) (by decide)
    (fun (s : List Visit) v => (s ++ [v], (none : Option Empty))) [] 6).1 (by decide)
  rw [h]
  rfl

end ReimsVgpu.Memory
