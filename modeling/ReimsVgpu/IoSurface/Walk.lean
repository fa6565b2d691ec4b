import ReimsVgpu.IoSurface.Budget

/-!
# The page walk finds the surface's pages

Page `i` of a surface of at most a table page of entries is the page of the root's entry `i`; of a larger
one, with `E` entries to a page, that of entry `i % E` of the table of the root's entry `i / E`. The walk
finds every page that this lookup finds, or answers of the first entry in its order that the lookup of a
page meets and that names none.

## Main definitions

* `lookup`: the page that the tables give.
* `walkOrder`, `found`: the entries in the walk's order, and what each names.

## Main results

* `walk_looks_up`.
-/

namespace ReimsVgpu.IoSurface

/-- The entries that a page holds. -/
def Vm.entries (vm : Vm) : ℕ := vm.pageSize.toNat / 4

/-- The entries of a full two-level table are counted in 64 bits: a host's pages are of some KiB, and pages of
up to 8 GiB meet this. -/
def Vm.Counts (vm : Vm) : Prop := vm.entries * vm.entries < 2 ^ 64

variable (host : Host)

/-! ### The reference -/

/-- Entry `i` of the table whose page is at `table`. -/
def entryAt (table : UInt64) (i : ℕ) : Entry :=
  ⟨host.readU32 (table + UInt64.ofNat i * tableEntrySize)⟩

/-- Entry `i` of a table is valid, and a table's entry or a page's. -/
def wellFormed (table : UInt64) (isTable : Bool) (i : ℕ) : Bool :=
  (entryAt host table i).valid && (entryAt host table i).isTable == isTable

/-- The host address of what a well-formed entry names. -/
def named (table : UInt64) (isTable : Bool) (i : ℕ) : Option UInt64 :=
  if wellFormed host table isTable i then
    host.virtualAddressForPhysical ((entryAt host table i).address host.vm.pageShift) host.vm.pageSize
  else none

/-- The root's page. -/
def rootPage (d : Descriptor) : Option UInt64 :=
  host.virtualAddressForPhysical ((⟨d.word0⟩ : Entry).address host.vm.pageShift) host.vm.pageSize

/-- The host address of page `i` of `count`. -/
def lookup (root : UInt64) (count i : ℕ) : Option UInt64 :=
  if count ≤ host.vm.entries then named host root false i
  else (named host root true (i / host.vm.entries)).bind fun table =>
    named host table false (i % host.vm.entries)

/-- An entry that a walk reads: of the root, or of the table of an entry of it. -/
inductive EntryRef where
  | root (i : ℕ)
  | table (i j : ℕ)
  deriving DecidableEq, Repr

/-- The host address of what an entry of the walk names. -/
def found (root : UInt64) (count : ℕ) : EntryRef → Option UInt64
  | .root i => named host root (decide (host.vm.entries < count)) i
  | .table i j => (named host root true i).bind fun table => named host table false j

/-- An entry of the root that is not valid, or not of its level's kind. -/
def illFormedRoot (root : UInt64) (count : ℕ) : EntryRef → Bool
  | .root i => !wellFormed host root (decide (host.vm.entries < count)) i
  | .table _ _ => false

/-- The entry `i` of the root, and its table's entries. -/
def tableRefs (entries count i : ℕ) : List EntryRef :=
  .root i :: (List.range' 0 (min (count - i * entries) entries)).map (.table i)

/-- The entries of the root and the tables in the walk's order. -/
def walkOrder (entries count : ℕ) : List EntryRef :=
  if count ≤ entries then (List.range' 0 count).map .root
  else (List.range' 0 ((count + entries - 1) / entries)).flatMap (tableRefs entries count)

/-- The first entry in the walk's order that names nothing. -/
def firstFailing (root : UInt64) (count : ℕ) (refs : List EntryRef) : Option EntryRef :=
  refs.find? fun ref => (found host root count ref).isNone

variable {host}

/-! ### The loop over a table -/

theorem entryPage_spec (table : UInt64) (bad : IoReturn) (j : ℕ) :
    (∃ page, named host table false j = some page ∧
      entryPage host table bad (UInt64.ofNat j) = .ok page) ∨
    named host table false j = none ∧ entryPage host table bad (UInt64.ofNat j) =
      .error (if wellFormed host table false j then .noMemory else bad) := by
  rw [entryPage, named, wellFormed, entryAt]
  generalize (⟨host.readU32 (table + UInt64.ofNat j * tableEntrySize)⟩ : Entry) = entry
  cases host.virtualAddressForPhysical (entry.address host.vm.pageShift) host.vm.pageSize with
  | none => cases entry.valid <;> cases entry.isTable <;> exact .inr ⟨rfl, rfl⟩
  | some page =>
    cases entry.valid <;> cases entry.isTable
    · exact .inr ⟨rfl, rfl⟩
    · exact .inr ⟨rfl, rfl⟩
    · exact .inl ⟨page, rfl, rfl⟩
    · exact .inr ⟨rfl, rfl⟩

theorem rootTable_spec (root : UInt64) (i : ℕ) :
    (∃ table, named host root true i = some table ∧
      rootTable host root (UInt64.ofNat i) = .ok table) ∨
    named host root true i = none ∧ rootTable host root (UInt64.ofNat i) =
      .error (if wellFormed host root true i then .noMemory else .badArgument) := by
  rw [rootTable, named, wellFormed, entryAt]
  generalize (⟨host.readU32 (root + UInt64.ofNat i * tableEntrySize)⟩ : Entry) = entry
  cases host.virtualAddressForPhysical (entry.address host.vm.pageShift) host.vm.pageSize with
  | none => cases entry.valid <;> cases entry.isTable <;> exact .inr ⟨rfl, rfl⟩
  | some table =>
    cases entry.valid <;> cases entry.isTable
    · exact .inr ⟨rfl, rfl⟩
    · exact .inr ⟨rfl, rfl⟩
    · exact .inr ⟨rfl, rfl⟩
    · exact .inl ⟨table, rfl, rfl⟩

/-- Pages filled from `m` on with those that a table's entries from `a` on name, `n` of them. -/
structure Filled (pages pages' : List UInt64) (m n : ℕ) (page : ℕ → Option UInt64) : Prop where
  length : pages'.length = pages.length
  before : ∀ p < m, pages'[p]? = pages[p]?
  within : ∀ k < n, pages'[m + k]? = page k

theorem toNat_ofNat_of_lt {m : ℕ} (h : m < 2 ^ 64) : (UInt64.ofNat m).toNat = m :=
  UInt64.toNat_ofNat_of_lt' h

/-- The loop fills a page for each entry, or stops at the first that names none. -/
theorem walkEntries_spec (table : UInt64) (bad : IoReturn) {n a m : ℕ} {pages : List UInt64}
    (hroom : m + n ≤ pages.length) (hlt : pages.length < 2 ^ 64) :
    ((List.range' a n).find? (fun j => (named host table false j).isNone) = none ∧
      ∃ pages', walkEntries host table bad n (UInt64.ofNat a) (UInt64.ofNat m) pages =
          (pages', .ok (UInt64.ofNat (m + n))) ∧
        Filled pages pages' m n fun k => named host table false (a + k)) ∨
    ∃ j pages', (List.range' a n).find? (fun j => (named host table false j).isNone) = some j ∧
      walkEntries host table bad n (UInt64.ofNat a) (UInt64.ofNat m) pages =
        (pages', .error (if wellFormed host table false j then .noMemory else bad)) := by
  induction n generalizing a m pages with
  | zero => exact .inl ⟨rfl, pages, rfl, rfl, fun _ _ => rfl, fun k hk => absurd hk (Nat.not_lt_zero k)⟩
  | succ n ih =>
    rw [List.range'_succ, List.find?_cons, walkEntries]
    rcases @entryPage_spec host table bad a with ⟨page, hnamed, hpage⟩ | ⟨hnamed, hpage⟩
    · have hm : (UInt64.ofNat m).toNat = m := toNat_ofNat_of_lt (by omega)
      have ha : UInt64.ofNat a + 1 = UInt64.ofNat (a + 1) := (UInt64.ofNat_add a 1).symm
      have hm' : UInt64.ofNat m + 1 = UInt64.ofNat (m + 1) := (UInt64.ofNat_add m 1).symm
      rw [hpage, hnamed]
      dsimp only [Option.isNone_some]
      rw [ha, hm', hm]
      rcases @ih (a + 1) (m + 1) (pages.set m page)
        (by rw [List.length_set]; omega) (by rwa [List.length_set]) with
        ⟨hfind, pages', heq, hfilled⟩ | ⟨j, pages', hfind, heq⟩
      · refine .inl ⟨hfind, pages', ?_, ?_, fun p hp => ?_, fun k hk => ?_⟩
        · rw [heq, Nat.add_assoc, Nat.add_comm 1 n]
        · rw [hfilled.length, List.length_set]
        · rw [hfilled.before p (by omega), List.getElem?_set_ne (by omega)]
        · cases k with
          | zero =>
            rw [Nat.add_zero, Nat.add_zero, hfilled.before m (by omega), hnamed,
              List.getElem?_set_self (by omega)]
          | succ k =>
            rw [show m + (k + 1) = m + 1 + k by omega, hfilled.within k (by omega),
              show a + 1 + k = a + (k + 1) by omega]
      · exact .inr ⟨j, pages', hfind, heq⟩
    · rw [hpage, hnamed]
      exact .inr ⟨a, pages, rfl, rfl⟩

/-! ### The loop over the root's tables -/

theorem lookup_of_large {root : UInt64} {count : ℕ} (hlarge : host.vm.entries < count) (p : ℕ) :
    lookup host root count p = (named host root true (p / host.vm.entries)).bind fun table =>
      named host table false (p % host.vm.entries) := if_neg (not_le.mpr hlarge)

theorem found_root_of_large {root : UInt64} {count : ℕ} (hlarge : host.vm.entries < count) (i : ℕ) :
    found host root count (.root i) = named host root true i := by
  rw [found, decide_eq_true hlarge]

/-- The status that the walk answers of an entry that names nothing. -/
def statusOf (host : Host) (root : UInt64) (count : ℕ) (ref : EntryRef) : IoReturn :=
  if illFormedRoot host root count ref then .badArgument else .noMemory

/-- The first failing entry of a table is that of the root's, or of its own. -/
theorem firstFailing_tableRefs {root table : UInt64} {count i : ℕ}
    (hlarge : host.vm.entries < count) (hnamed : named host root true i = some table)
    (rest : List EntryRef) :
    firstFailing host root count (tableRefs host.vm.entries count i ++ rest) =
      (((List.range' 0 (min (count - i * host.vm.entries) host.vm.entries)).find? fun j =>
        (named host table false j).isNone).map (.table i)).or (firstFailing host root count rest) := by
  rw [firstFailing, tableRefs, List.cons_append, List.find?_cons, found_root_of_large hlarge, hnamed]
  dsimp only [Option.isNone_some]
  rw [List.find?_append, List.find?_map]
  congr 3
  funext j
  rw [Function.comp_apply, found, hnamed]
  rfl

theorem toNat_min_ofNat {x y : ℕ} (hx : x < 2 ^ 64) (hy : y < 2 ^ 64) :
    min (UInt64.ofNat x) (UInt64.ofNat y) = UInt64.ofNat (min x y) := by
  refine UInt64.toNat_inj.mp ?_
  rw [toNat_ofNat_of_lt (by omega)]
  by_cases hle : UInt64.ofNat x ≤ UInt64.ofNat y
  · rw [UInt64.min_eq_left hle, toNat_ofNat_of_lt hx]
    rw [UInt64.le_iff_toNat_le, toNat_ofNat_of_lt hx, toNat_ofNat_of_lt hy] at hle
    omega
  · rw [UInt64.min_eq_right hle, toNat_ofNat_of_lt hy]
    rw [UInt64.le_iff_toNat_le, toNat_ofNat_of_lt hx, toNat_ofNat_of_lt hy] at hle
    omega

/-- The loop fills the pages of its tables, or stops at the first entry that names nothing: `mapped` is the
pages before the table it is at, and `remaining` those after. -/
theorem walkTables_spec (root : UInt64) {count n a : ℕ} {pages : List UInt64}
    (hlarge : host.vm.entries < count) (hlt : count < 2 ^ 64) (hentries : 0 < host.vm.entries)
    (hlength : pages.length = count) (hall : ∀ i < a + n, i * host.vm.entries < count) :
    (firstFailing host root count ((List.range' a n).flatMap (tableRefs host.vm.entries count)) = none ∧
      ∃ pages', walkTables host root (UInt64.ofNat host.vm.entries) n (UInt64.ofNat a)
          (UInt64.ofNat (count - a * host.vm.entries))
          (UInt64.ofNat (min (a * host.vm.entries) count)) pages = (pages', .ok ()) ∧
        pages'.length = count ∧
        (∀ p < min (a * host.vm.entries) count, pages'[p]? = pages[p]?) ∧
        ∀ p, a * host.vm.entries ≤ p → p < min ((a + n) * host.vm.entries) count →
          pages'[p]? = lookup host root count p) ∨
    ∃ ref pages', firstFailing host root count
        ((List.range' a n).flatMap (tableRefs host.vm.entries count)) = some ref ∧
      walkTables host root (UInt64.ofNat host.vm.entries) n (UInt64.ofNat a)
        (UInt64.ofNat (count - a * host.vm.entries))
        (UInt64.ofNat (min (a * host.vm.entries) count)) pages =
          (pages', .error (statusOf host root count ref)) := by
  induction n generalizing a pages with
  | zero =>
    refine .inl ⟨rfl, pages, rfl, hlength, fun _ _ => rfl, fun p hle hp => ?_⟩
    rw [Nat.add_zero] at hp
    omega
  | succ n ih =>
    have hat : a * host.vm.entries < count := hall a (by omega)
    have hsucc : (a + 1) * host.vm.entries = a * host.vm.entries + host.vm.entries := Nat.succ_mul _ _
    rw [List.range'_succ, List.flatMap_cons, walkTables]
    rcases @rootTable_spec host root a with ⟨table, hnamed, htable⟩ | ⟨hnamed, htable⟩
    · rw [htable, firstFailing_tableRefs hlarge hnamed]
      dsimp only
      set c := min (count - a * host.vm.entries) host.vm.entries with hc
      rw [toNat_min_ofNat (by omega) (by omega), ← hc, toNat_ofNat_of_lt (by omega),
        Nat.min_eq_left hat.le]
      rcases @walkEntries_spec host table .noMemory c 0 (a * host.vm.entries) pages
        (by omega) (by omega) with
        ⟨hfind, pages₁, heq, hfilled⟩ | ⟨j, pages₁, hfind, heq⟩
      · have hnext : UInt64.ofNat a + 1 = UInt64.ofNat (a + 1) := (UInt64.ofNat_add a 1).symm
        have hremaining : UInt64.ofNat (count - a * host.vm.entries) - UInt64.ofNat c =
            UInt64.ofNat (count - (a + 1) * host.vm.entries) := by
          rw [← UInt64.ofNat_sub (by omega)]
          congr 1
          omega
        have hmapped : a * host.vm.entries + c = min ((a + 1) * host.vm.entries) count := by omega
        rw [hfind, show UInt64.ofNat 0 = 0 from rfl] at *
        rw [heq]
        dsimp only [Option.map_none, Option.none_or]
        rw [hnext, hremaining, hmapped]
        rcases @ih (a + 1) pages₁ (hfilled.length.trans hlength)
          (fun i hi => hall i (by omega)) with ⟨hrest, pages', hwalk, hlen, hbefore, hwithin⟩ | hfailed
        · refine .inl ⟨hrest, pages', hwalk, hlen, fun p hp => ?_, fun p hle hp => ?_⟩
          · rw [hbefore p (by omega), hfilled.before p hp]
          · by_cases hthis : p < (a + 1) * host.vm.entries
            · have hp' : p = a * host.vm.entries + (p - a * host.vm.entries) := by omega
              have hdiv : p / host.vm.entries = a := Nat.div_eq_of_lt_le (by omega) hthis
              have hmod : p % host.vm.entries = p - a * host.vm.entries := by
                have := Nat.div_add_mod p host.vm.entries
                rw [hdiv, Nat.mul_comm] at this
                omega
              rw [hbefore p (by omega), lookup_of_large hlarge, hdiv, hnamed, hmod]
              conv_lhs => rw [hp', hfilled.within _ (by omega), Nat.zero_add]
              rfl
            · rw [hwithin p (by omega) (by rw [show a + 1 + n = a + (n + 1) by omega]; exact hp)]
        · exact .inr hfailed
      · rw [hfind, show UInt64.ofNat 0 = 0 from rfl] at *
        rw [heq]
        exact .inr ⟨.table a j, pages₁, rfl, by rw [ite_self]; rfl⟩
    · rw [htable]
      refine .inr ⟨.root a, pages, ?_, ?_⟩
      · rw [firstFailing, tableRefs, List.cons_append, List.find?_cons, found_root_of_large hlarge,
          hnamed]
        rfl
      · dsimp only
        rw [statusOf, illFormedRoot, decide_eq_true hlarge]
        cases wellFormed host root true a <;> rfl

/-! ### The walk -/

theorem entriesPerPage_eq (vm : Vm) : vm.pageSize / tableEntrySize = UInt64.ofNat vm.entries := by
  refine UInt64.toNat_inj.mp ?_
  have hlt := vm.pageSize.toNat_lt
  have hle : vm.entries ≤ vm.pageSize.toNat := Nat.div_le_self _ _
  rw [UInt64.toNat_div, toNat_ofNat_of_lt (by omega)]
  rfl

theorem entries_lt {vm : Vm} (h : vm.Counts) : vm.entries < 2 ^ 32 := by
  by_contra hle
  rw [Nat.not_lt] at hle
  have hmul := Nat.mul_le_mul hle hle
  unfold Vm.Counts at h
  omega

/-- The tables of a surface, as the walk counts them. -/
theorem toNat_tableCount {vm : Vm} (h : vm.Counts) {pageCount : UInt64}
    (hle : pageCount.toNat ≤ vm.entries * vm.entries) :
    ((pageCount + UInt64.ofNat vm.entries - 1) / UInt64.ofNat vm.entries).toNat =
      (pageCount.toNat + vm.entries - 1) / vm.entries := by
  have hlt := entries_lt h
  have hentries : (UInt64.ofNat vm.entries).toNat = vm.entries := toNat_ofNat_of_lt (by omega)
  rw [UInt64.toNat_div, hentries]
  rcases Nat.eq_zero_or_pos vm.entries with hzero | hpos
  · rw [hzero, Nat.div_zero, Nat.div_zero]
  · have hmul : vm.entries * vm.entries ≤ (2 ^ 32 - 1) * (2 ^ 32 - 1) :=
      Nat.mul_le_mul (by omega) (by omega)
    have hadd : (pageCount + UInt64.ofNat vm.entries).toNat = pageCount.toNat + vm.entries := by
      rw [UInt64.toNat_add_of_toNat_lt (by rw [hentries]; omega), hentries]
    rw [UInt64.toNat_sub_of_toNat_le (by rw [hadd]; exact Nat.le_add_left_of_le hpos), hadd]
    rfl

theorem tables_le {entries count : ℕ} (hle : count ≤ entries * entries) :
    (count + entries - 1) / entries ≤ entries := by
  rcases Nat.eq_zero_or_pos entries with rfl | hpos
  · rw [Nat.div_zero]
  · refine Nat.le_of_lt_succ ((Nat.div_lt_iff_lt_mul hpos).mpr ?_)
    rw [Nat.succ_mul]
    omega

theorem one_lt_tables {entries count : ℕ} (hpos : 0 < entries) :
    1 < (count + entries - 1) / entries ↔ entries < count := by
  rw [← Nat.succ_le_iff, Nat.le_div_iff_mul_le hpos]
  omega

theorem mul_lt_of_lt_tables {entries count i : ℕ} (hi : i < (count + entries - 1) / entries) :
    i * entries < count := by
  rcases Nat.eq_zero_or_pos entries with rfl | hpos
  · rw [Nat.div_zero] at hi
    exact absurd hi (Nat.not_lt_zero i)
  · have hle := (Nat.le_div_iff_mul_le hpos).mp (Nat.succ_le_of_lt hi)
    rw [Nat.succ_mul] at hle
    omega

theorem le_tables_mul {entries : ℕ} (count : ℕ) (hpos : 0 < entries) :
    count ≤ (count + entries - 1) / entries * entries := by
  have hdiv := Nat.div_add_mod (count + entries - 1) entries
  have hmod := Nat.mod_lt (count + entries - 1) hpos
  rw [Nat.mul_comm] at hdiv
  omega

/-- What the walk comes to of a root's page, over its tables: every page of the lookup, or the status of the
first entry that names nothing. -/
def Walks (host : Host) (root : UInt64) (count : ℕ) (walked : List UInt64 × Except IoReturn Unit) :
    Prop :=
  (firstFailing host root count (walkOrder host.vm.entries count) = none ∧ walked.2 = .ok () ∧
    walked.1.length = count ∧ ∀ p < count, walked.1[p]? = lookup host root count p) ∨
  ∃ ref, firstFailing host root count (walkOrder host.vm.entries count) = some ref ∧
    walked.2 = .error (statusOf host root count ref)

theorem walkOneLevel_walks (root : UInt64) {pageCount : UInt64}
    (hsmall : pageCount.toNat ≤ host.vm.entries) :
    Walks host root pageCount.toNat
      (walkOneLevel host root pageCount (List.replicate pageCount.toNat 0)) := by
  have hkind : decide (host.vm.entries < pageCount.toNat) = false :=
    decide_eq_false (Nat.not_lt.mpr hsmall)
  have horder : firstFailing host root pageCount.toNat (walkOrder host.vm.entries pageCount.toNat) =
      ((List.range' 0 pageCount.toNat).find? fun j => (named host root false j).isNone).map .root := by
    rw [firstFailing, walkOrder, if_pos hsmall, List.find?_map]
    congr 2
    funext j
    rw [Function.comp_apply, found, hkind]
  unfold Walks walkOneLevel
  rw [horder]
  rcases @walkEntries_spec host root .badArgument pageCount.toNat 0 0
    (List.replicate pageCount.toNat 0) (by rw [List.length_replicate]; omega)
    (by rw [List.length_replicate]; exact pageCount.toNat_lt) with
    ⟨hfind, pages', heq, hfilled⟩ | ⟨j, pages', hfind, heq⟩
  · rw [show UInt64.ofNat 0 = 0 from rfl] at heq
    rw [heq, hfind]
    refine .inl ⟨rfl, rfl, hfilled.length.trans List.length_replicate, fun p hp => ?_⟩
    have hpage := hfilled.within p hp
    rw [Nat.zero_add] at hpage
    rw [lookup, if_pos hsmall]
    exact hpage
  · rw [show UInt64.ofNat 0 = 0 from rfl] at heq
    rw [heq, hfind]
    refine .inr ⟨.root j, rfl, ?_⟩
    rw [statusOf, illFormedRoot, hkind]
    cases wellFormed host root false j <;> rfl

theorem walkTwoLevels_walks (root : UInt64) {pageCount tableCount : UInt64}
    (hlarge : host.vm.entries < pageCount.toNat) (hentries : 0 < host.vm.entries)
    (htables : tableCount.toNat = (pageCount.toNat + host.vm.entries - 1) / host.vm.entries) :
    Walks host root pageCount.toNat
      (walkTwoLevels host root tableCount pageCount (UInt64.ofNat host.vm.entries)
        (List.replicate pageCount.toNat 0)) := by
  have hall : ∀ i < 0 + tableCount.toNat, i * host.vm.entries < pageCount.toNat := fun i hi => by
    rw [Nat.zero_add, htables] at hi
    exact mul_lt_of_lt_tables hi
  have hspec := @walkTables_spec host root _ tableCount.toNat 0
    (List.replicate pageCount.toNat 0) hlarge pageCount.toNat_lt hentries List.length_replicate hall
  rw [Nat.zero_mul, Nat.sub_zero, Nat.zero_min, UInt64.ofNat_toNat, Nat.zero_add] at hspec
  have hcover := le_tables_mul pageCount.toNat hentries
  rw [← htables] at hcover
  unfold Walks walkTwoLevels walkOrder
  rw [if_neg (not_le.mpr hlarge), ← htables]
  rcases hspec with ⟨hfind, pages', heq, hlength, -, hwithin⟩ | ⟨ref, pages', hfind, heq⟩
  · rw [show UInt64.ofNat 0 = 0 from rfl] at heq
    rw [heq]
    exact .inl ⟨hfind, rfl, hlength, fun p hp => hwithin p (Nat.zero_le p) (by omega)⟩
  · rw [show UInt64.ofNat 0 = 0 from rfl] at heq
    rw [heq]
    exact .inr ⟨ref, hfind, rfl⟩

/-- What the walk comes to. -/
theorem walk_cases (hcounts : host.vm.Counts) (d : Descriptor) (pageCount : UInt64)
    (slot : SurfaceSlot) :
    (rootPage host d = none ∧ walk host d pageCount slot = (slot, .error .noMemory)) ∨
    ∃ root, rootPage host d = some root ∧
      (host.vm.entries * host.vm.entries < pageCount.toNat ∧
          walk host d pageCount slot = (slot, .error .noMemory) ∨
        pageCount.toNat ≤ host.vm.entries * host.vm.entries ∧
          ∃ walked slot', walk host d pageCount slot = (slot', walked.2) ∧ slot'.pages = walked.1 ∧
            Walks host root pageCount.toNat walked) := by
  have hlt := entries_lt hcounts
  have hentries : (UInt64.ofNat host.vm.entries).toNat = host.vm.entries :=
    toNat_ofNat_of_lt (by omega)
  have hsquare : (UInt64.ofNat host.vm.entries * UInt64.ofNat host.vm.entries).toNat =
      host.vm.entries * host.vm.entries := by
    rw [UInt64.toNat_mul, hentries]
    exact Nat.mod_eq_of_lt hcounts
  unfold walk rootPage
  dsimp only
  rw [entriesPerPage_eq]
  cases host.virtualAddressForPhysical ((⟨d.word0⟩ : Entry).address host.vm.pageShift)
    host.vm.pageSize with
  | none => exact .inl ⟨rfl, rfl⟩
  | some root =>
    refine .inr ⟨root, rfl, ?_⟩
    dsimp only
    by_cases hbound : UInt64.ofNat host.vm.entries * UInt64.ofNat host.vm.entries < pageCount
    · rw [if_pos hbound]
      rw [UInt64.lt_iff_toNat_lt, hsquare] at hbound
      exact .inl ⟨hbound, rfl⟩
    rw [if_neg hbound]
    rw [UInt64.lt_iff_toNat_lt, hsquare, Nat.not_lt] at hbound
    have htables := toNat_tableCount hcounts hbound
    have hnever : ¬ UInt64.ofNat host.vm.entries <
        (pageCount + UInt64.ofNat host.vm.entries - 1) / UInt64.ofNat host.vm.entries := by
      rw [UInt64.lt_iff_toNat_lt, htables, hentries]
      exact Nat.not_lt.mpr (tables_le hbound)
    rw [if_neg hnever]
    refine .inr ⟨hbound, ?_⟩
    have hlevels : 1 < (pageCount + UInt64.ofNat host.vm.entries - 1) / UInt64.ofNat host.vm.entries ↔
        0 < host.vm.entries ∧ host.vm.entries < pageCount.toNat := by
      rw [UInt64.lt_iff_toNat_lt, htables]
      change 1 < _ ↔ _
      rcases Nat.eq_zero_or_pos host.vm.entries with hzero | hpos
      · rw [hzero, Nat.div_zero]
        omega
      · rw [one_lt_tables hpos]
        exact (and_iff_right hpos).symm
    refine ⟨_, _, rfl, rfl, ?_⟩
    split_ifs with hmany
    · obtain ⟨hpos, hlarge⟩ := hlevels.mp hmany
      exact walkTwoLevels_walks root hlarge hpos htables
    · refine walkOneLevel_walks root ?_
      by_contra hlarge
      refine hmany (hlevels.mpr ⟨Nat.pos_of_ne_zero fun hzero => ?_, not_le.mp hlarge⟩)
      rw [hzero] at hbound hlarge
      exact hlarge hbound

/-- An entry that names nothing is one that the lookup of a page meets. -/
theorem exists_lookup_eq_none {root : UInt64} {count : ℕ} {ref : EntryRef}
    (h : firstFailing host root count (walkOrder host.vm.entries count) = some ref) :
    ∃ p < count, lookup host root count p = none := by
  have hmem := List.mem_of_find?_eq_some h
  have hnone : found host root count ref = none := by
    unfold firstFailing at h
    have hfails := List.find?_some h
    exact Option.isNone_iff_eq_none.mp hfails
  by_cases hsmall : count ≤ host.vm.entries
  · rw [walkOrder, if_pos hsmall, List.mem_map] at hmem
    obtain ⟨p, hp, rfl⟩ := hmem
    rw [found, decide_eq_false (Nat.not_lt.mpr hsmall)] at hnone
    refine ⟨p, ?_, by rw [lookup, if_pos hsmall, hnone]⟩
    rw [List.mem_range'_1] at hp
    omega
  have hlarge := not_le.mp hsmall
  rw [walkOrder, if_neg hsmall, List.mem_flatMap] at hmem
  obtain ⟨i, hi, hmem⟩ := hmem
  rw [List.mem_range'_1, Nat.zero_add] at hi
  have hat := mul_lt_of_lt_tables hi.2
  have hpos : 0 < host.vm.entries := Nat.pos_of_ne_zero fun hzero => by
    rw [hzero, Nat.div_zero] at hi
    exact absurd hi.2 (Nat.not_lt_zero i)
  rw [tableRefs, List.mem_cons, List.mem_map] at hmem
  rcases hmem with rfl | ⟨j, hj, rfl⟩
  · rw [found_root_of_large hlarge] at hnone
    refine ⟨i * host.vm.entries, hat, ?_⟩
    rw [lookup_of_large hlarge, Nat.mul_div_cancel _ hpos, hnone]
    rfl
  · rw [List.mem_range'_1, Nat.zero_add] at hj
    refine ⟨i * host.vm.entries + j, by omega, ?_⟩
    rw [lookup_of_large hlarge, Nat.mul_comm, Nat.mul_add_div hpos, Nat.mul_add_mod,
      Nat.div_eq_of_lt (by omega), Nat.mod_eq_of_lt (by omega), Nat.add_zero]
    exact hnone

/-! ### A failed map -/

theorem makeSurface_stores {host : Host} {st : QueueState} {d : Descriptor} {slot : SurfaceSlot}
    {status : IoReturn} (h : makeSurface host st d {} = (slot, status)) (hs : status ≠ .success)
    (index : Fin mappingIdCount) :
    (storeSlot host st index slot status).hostOnlyBytes = st.hostOnlyBytes ∧
      ((storeSlot host st index slot status).slots index).surface = none ∧
      ((storeSlot host st index slot status).slots index).pages = [] := by
  have hnone : slot.surface = none := makeSurface_failed h hs
  rw [storeSlot, if_neg hs]
  dsimp only
  rw [Function.update_self]
  exact ⟨rfl, hnone, rfl⟩

/-- What a failed map leaves. -/
structure FailedMap (st st' : QueueState) (mappingId : UInt32) (writes : List (UInt64 × UInt32)) :
    Prop where
  hostOnlyBytes : st'.hostOnlyBytes = st.hostOnlyBytes
  unwritten : writes = []
  slot : ∀ index, slotOf mappingId = some index →
    (st'.slots index).surface = none ∧ (st'.slots index).pages = []

theorem mapWriting_failed {st st' : QueueState} {mappingId : UInt32} {status : IoReturn}
    {writes : List (UInt64 × UInt32)}
    (h : mapWriting host st mappingId = .ok ((st', status), writes)) (hs : status ≠ .success) :
    FailedMap st st' mappingId writes := by
  unfold mapWriting at h
  split at h
  case h_1 hslot =>
    cases h
    exact ⟨rfl, rfl, fun index hindex => by rw [hslot] at hindex; cases hindex⟩
  case h_2 index hslot =>
    split_ifs at h with hsome
    · cases h
      exact absurd rfl hs
    dsimp only at h
    -- the slot is emptied before anything is read
    have hempty {st₁ : QueueState} (hslots : st₁.slots = Function.update st.slots index {}) :
        ∀ i, slotOf mappingId = some i → (st₁.slots i).surface = none ∧ (st₁.slots i).pages = [] := by
      intro i hi
      rw [hslot] at hi
      obtain rfl := Option.some.inj hi
      rw [hslots, Function.update_self]
      exact ⟨rfl, rfl⟩
    split_ifs at h with htable
    · cases h
      exact ⟨rfl, rfl, hempty rfl⟩
    split at h
    · cases h
    case h_2 st₁ status₁ hpage =>
      obtain ⟨hbytes, hslots⟩ := descriptorPage_eq_ok hpage
      cases h
      exact ⟨hbytes, rfl, hempty hslots⟩
    case h_3 st₁ page hpage =>
      obtain ⟨hbytes, -⟩ := descriptorPage_eq_ok hpage
      split at h
      · cases h
      case h_2 d hread =>
        generalize hmake : makeSurface host st₁ d {} = made at h
        obtain ⟨slot, status'⟩ := made
        dsimp only at h
        split_ifs at h with hstatus
        · split at h
          · cases h
          · cases h
            exact absurd hstatus hs
        · cases h
          obtain ⟨hstored, hsurface, hpages⟩ := makeSurface_stores hmake hstatus index
          refine ⟨hstored.trans hbytes, rfl, fun i hi => ?_⟩
          rw [hslot] at hi
          obtain rfl := Option.some.inj hi
          exact ⟨hsurface, hpages⟩

/-! ### The walk looks every page up -/

/-- The walk of a surface's pages, against the lookup. -/
structure LooksUp (host : Host) (d : Descriptor) (count : ℕ) (walked : SurfaceSlot × Except IoReturn Unit) :
    Prop where
  ok_iff : walked.2 = .ok () ↔ count ≤ host.vm.entries ^ 2 ∧
    ∃ root, rootPage host d = some root ∧ ∀ i < count, (lookup host root count i).isSome
  pages : walked.2 = .ok () → ∃ root, rootPage host d = some root ∧ walked.1.pages.length = count ∧
    ∀ i < count, walked.1.pages[i]? = lookup host root count i
  badArgument_iff : walked.2 = .error .badArgument ↔ count ≤ host.vm.entries ^ 2 ∧
    ∃ root, rootPage host d = some root ∧
      ∃ ref, firstFailing host root count (walkOrder host.vm.entries count) = some ref ∧
        illFormedRoot host root count ref
  noMemory : ∀ status, walked.2 = .error status → status ≠ .badArgument → status = .noMemory

/-- A walk that reads no entry. -/
theorem looksUp_of_refused {d : Descriptor} {count : ℕ} (slot : SurfaceSlot)
    (h : ¬ (count ≤ host.vm.entries ^ 2 ∧ ∃ root, rootPage host d = some root)) :
    LooksUp host d count (slot, .error .noMemory) where
  ok_iff := ⟨fun hok => (by cases hok), fun ⟨hle, root, hroot, _⟩ => absurd ⟨hle, root, hroot⟩ h⟩
  pages := fun hok => by cases hok
  badArgument_iff :=
    ⟨fun hbad => (by cases hbad), fun ⟨hle, root, hroot, _⟩ => absurd ⟨hle, root, hroot⟩ h⟩
  noMemory := fun status hstatus _ => (Except.error.inj hstatus).symm

theorem looksUp_of_walks {d : Descriptor} {count : ℕ} {root : UInt64} {slot : SurfaceSlot}
    {walked : List UInt64 × Except IoReturn Unit} (hroot : rootPage host d = some root)
    (hle : count ≤ host.vm.entries ^ 2) (hpages : slot.pages = walked.1)
    (hwalks : Walks host root count walked) : LooksUp host d count (slot, walked.2) := by
  have hsame {root' : UInt64} (h : rootPage host d = some root') : root' = root :=
    Option.some.inj (h.symm.trans hroot)
  rcases hwalks with ⟨hall, hok, hlength, hlookup⟩ | ⟨ref, hfirst, herror⟩
  · have hsome (i : ℕ) (hi : i < count) : (lookup host root count i).isSome := by
      rw [← hlookup i hi, List.getElem?_eq_getElem (by omega)]
      rfl
    refine ⟨⟨fun _ => ⟨hle, root, hroot, hsome⟩, fun _ => hok⟩, fun _ => ⟨root, hroot, ?_, ?_⟩,
      ⟨fun hbad => ?_, ?_⟩, fun status hstatus => ?_⟩
    · rw [hpages, hlength]
    · rw [hpages]
      exact hlookup
    · rw [hok] at hbad
      cases hbad
    · rintro ⟨-, root', hroot', ref, hfirst, -⟩
      rw [hsame hroot', hall] at hfirst
      cases hfirst
    · rw [hok] at hstatus
      cases hstatus
  · obtain ⟨p, hp, hnone⟩ := exists_lookup_eq_none hfirst
    refine ⟨⟨fun hok => ?_, ?_⟩, fun hok => ?_, ⟨fun hbad => ?_, ?_⟩, fun status hstatus hne => ?_⟩
    · rw [herror] at hok
      cases hok
    · rintro ⟨-, root', hroot', hsome⟩
      have hfound := hsome p hp
      rw [hsame hroot', hnone] at hfound
      cases hfound
    · rw [herror] at hok
      cases hok
    · refine ⟨hle, root, hroot, ref, hfirst, ?_⟩
      by_contra hwell
      rw [herror, statusOf, if_neg hwell] at hbad
      cases hbad
    · rintro ⟨-, root', hroot', ref', hfirst', hill⟩
      rw [hsame hroot', hfirst] at hfirst'
      rw [hsame hroot', ← Option.some.inj hfirst'] at hill
      rw [herror, statusOf, if_pos hill]
    · rw [herror, statusOf] at hstatus
      split_ifs at hstatus
      · exact absurd (Except.error.inj hstatus).symm hne
      · exact (Except.error.inj hstatus).symm

theorem looksUp_walk (hcounts : host.vm.Counts) (d : Descriptor) (pageCount : UInt64)
    (slot : SurfaceSlot) : LooksUp host d pageCount.toNat (walk host d pageCount slot) := by
  rcases walk_cases hcounts d pageCount slot with ⟨hnone, heq⟩ |
    ⟨root, hroot, ⟨hpast, heq⟩ | ⟨hle, walked, slot', heq, hpages, hwalks⟩⟩
  · rw [heq]
    refine looksUp_of_refused slot ?_
    rintro ⟨-, root, hroot⟩
    rw [hnone] at hroot
    cases hroot
  · rw [heq]
    refine looksUp_of_refused slot ?_
    rintro ⟨hle, -⟩
    rw [Nat.pow_two] at hle
    omega
  · rw [heq]
    exact looksUp_of_walks hroot (by rwa [Nat.pow_two]) hpages hwalks

/-- The walk finds the pages that the lookup finds, and a failed map leaves nothing. -/
theorem walk_looks_up (host : Host) (hcounts : host.vm.Counts) :
    (∀ (d : Descriptor) (pageCount : UInt64) (slot : SurfaceSlot),
      LooksUp host d pageCount.toNat (walk host d pageCount slot)) ∧
    ∀ (st st' : QueueState) (mappingId : UInt32) (status : IoReturn)
      (writes : List (UInt64 × UInt32)),
      mapWriting host st mappingId = .ok ((st', status), writes) → status ≠ .success →
        FailedMap st st' mappingId writes :=
  ⟨looksUp_walk hcounts, fun _ _ _ _ _ h hs => mapWriting_failed h hs⟩

theorem tableShift_lt : (14 : UInt32).toNat < 64 := by decide

/-- A host of 16 KiB pages, whose tables name the pages that are in guest memory. -/
def tableHost (readU32 : UInt64 → UInt32) : Host where
  vm := { pageShift := 14, pageShift_lt := tableShift_lt }
  form := .second
  readU32 := readU32
  firstDescriptor := fun _ => {}
  secondDescriptor := fun _ => {}
  virtualAddressForPhysical := fun address _ => if address = 0 then none else some (address + 0x100000000)
  newContiguousMapping := fun address _ => some (address + 0x100000000)
  create := fun _ => none
  retainCount := fun _ => 1
  isUnmapped := fun _ _ => false

/-- The walk of a table whose entries all name the page at `0x4000`. -/
theorem walk_looks_up_tableHost :
    (∀ (d : Descriptor) (pageCount : UInt64) (slot : SurfaceSlot),
      LooksUp (tableHost fun _ => 5) d pageCount.toNat (walk (tableHost fun _ => 5) d pageCount slot)) ∧
    ∀ (st st' : QueueState) (mappingId : UInt32) (status : IoReturn)
      (writes : List (UInt64 × UInt32)),
      mapWriting (tableHost fun _ => 5) st mappingId = .ok ((st', status), writes) →
        status ≠ .success → FailedMap st st' mappingId writes :=
  walk_looks_up (tableHost fun _ => 5) (by rw [Vm.Counts]; decide)

end ReimsVgpu.IoSurface
