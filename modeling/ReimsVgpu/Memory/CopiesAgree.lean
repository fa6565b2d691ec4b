import ReimsVgpu.Memory.Copies
import ReimsVgpu.Memory.CursorRefinement
import ReimsVgpu.Memory.PageWalk

/-!
# The copies and the cursor read the same bytes

A walk of a range is followed by the byte it has reached: it is at the range's first byte in the first
page and at the start of every page after, and leaves a page at its end or at the end of the range. A
copy has then stored the translated bytes up to there; a cursor's ranges have them, and the range it is
in ends where the next page of host memory would go on.

## Main definitions

* `taskBytes`: the bytes a range of a task translates to.
* `Backs`, `DeviceMemory.Reads`: pages of guest memory that are read.
* `reached`: the byte a walk is at.
* `Copied`, `Gathered`: what a copy and a cursor have of the pages before one.

## Main results

* `copies_agree`: both copies and the cursor over a range have its translated bytes.
-/

namespace ReimsVgpu.Memory

variable {a : Arch}

/-! ### Words and pages -/

theorem toNat_ofNat_of_le {n : ℕ} {x : UInt64} (h : n ≤ x.toNat) : (UInt64.ofNat n).toNat = n :=
  UInt64.toNat_ofNat_of_lt' (h.trans_lt x.toNat_lt)

section Pages

variable (a)

theorem pageBytes_toNat : (pageSize a).toNat = 2 ^ pageShift a := by
  cases a <;> rfl

theorem pageMask_toNat : (pageMask a).toNat = 2 ^ pageShift a - 1 := by
  cases a <;> rfl

theorem pageBytes_pos : 0 < 2 ^ pageShift a := Nat.two_pow_pos _

theorem pageBytes_le : 2 ^ pageShift a ≤ 2 ^ 14 := by
  cases a <;> decide

theorem toNat_pageAddress (page : UInt32) :
    (pageAddress a page).toNat = page.toNat * 2 ^ pageShift a := by
  have hlt := page.toNat_lt
  rw [pageAddress, UInt64.toNat_shiftLeft_ofNat (by cases a <;> decide), UInt32.toNat_toUInt64]
  rw [UInt32.toNat_toUInt64]
  cases a <;> norm_num [pageShift] <;> omega

/-- The address of a byte of a page. -/
theorem toNat_pageAddress_add (page : UInt32) {o : ℕ} (ho : o ≤ 2 ^ pageShift a) :
    (pageAddress a page + UInt64.ofNat o).toNat = page.toNat * 2 ^ pageShift a + o := by
  have hle := pageBytes_le a
  have hlt := page.toNat_lt
  have hpage := toNat_pageAddress a page
  have hmul : page.toNat * 2 ^ pageShift a ≤ 2 ^ 32 * 2 ^ 14 := Nat.mul_le_mul hlt.le hle
  have hofNat : (UInt64.ofNat o).toNat = o := UInt64.toNat_ofNat_of_lt' (by
    change o < 2 ^ 64
    omega)
  rw [UInt64.toNat_add_of_toNat_lt (by rw [hpage, hofNat]; omega), hpage, hofNat]

end Pages

/-! ### The bytes of a task -/

section Translation

variable (a) (mem : GuestMemory) (depth : ℕ) (root : UInt32)

/-- A byte of a task: that of the guest page its page translates to. -/
def taskByte (x : ℕ) : Option UInt8 :=
  (lookup a mem depth root (x / 2 ^ pageShift a)).map fun leaf =>
    mem (leaf.1.toNat * 2 ^ pageShift a + x % 2 ^ pageShift a)

/-- The bytes of a task from an offset on. -/
def taskBytes (offset n : ℕ) : List (Option UInt8) :=
  (List.range n).map fun k => taskByte a mem depth root (offset + k)

end Translation

variable {mem : GuestMemory} {depth : ℕ} {root : UInt32}

theorem taskBytes_add (offset n k : ℕ) :
    taskBytes a mem depth root offset (n + k) =
      taskBytes a mem depth root offset n ++ taskBytes a mem depth root (offset + n) k := by
  rw [taskBytes, List.range_add, List.map_append, List.map_map]
  refine congrArg _ (List.map_congr_left fun i _ => ?_)
  rw [Function.comp_apply, Nat.add_assoc]

/-- The bytes of guest memory in a page. -/
def pageBytes (a : Arch) (mem : GuestMemory) (page : UInt32) (o n : ℕ) : List UInt8 :=
  (List.range n).map fun k => mem (page.toNat * 2 ^ pageShift a + o + k)

@[simp]
theorem length_pageBytes (page : UInt32) (o n : ℕ) : (pageBytes a mem page o n).length = n := by
  rw [pageBytes, List.length_map, List.length_range]

/-- The task's bytes in one page. -/
theorem taskBytes_of_lookup {x n : ℕ} {leaf : UInt32 × UInt32}
    (hleaf : lookup a mem depth root (x / 2 ^ pageShift a) = some leaf)
    (hn : x % 2 ^ pageShift a + n ≤ 2 ^ pageShift a) :
    taskBytes a mem depth root x n =
      (pageBytes a mem leaf.1 (x % 2 ^ pageShift a) n).map some := by
  rw [taskBytes, pageBytes, List.map_map]
  refine List.map_congr_left fun k hk => ?_
  rw [List.mem_range] at hk
  have hdiv : (x + k) / 2 ^ pageShift a = x / 2 ^ pageShift a := by
    rw [Nat.div_eq_of_lt_le]
    · have := Nat.div_mul_le_self x (2 ^ pageShift a)
      omega
    · have := Nat.div_add_mod' x (2 ^ pageShift a)
      rw [Nat.succ_mul]
      omega
  have hmod : (x + k) % 2 ^ pageShift a = x % 2 ^ pageShift a + k := by
    have h1 := Nat.div_add_mod' x (2 ^ pageShift a)
    have h2 := Nat.div_add_mod' (x + k) (2 ^ pageShift a)
    rw [hdiv] at h2
    omega
  rw [taskByte, hdiv, hleaf, hmod, Option.map_some, Function.comp_apply, Nat.add_assoc]

/-! ### Pages that read -/

/-- A page of guest memory is one of host memory through the map. -/
structure Backs (a : Arch) (m : MemoryMap) (host : HostMemory) (mem : GuestMemory) (page : UInt32) :
    Prop where
  accessible : Accessible (m.virtualAddressForPhysical (pageAddress a page) (pageSize a)) (pageSize a)
  bytes : ∀ k < 2 ^ pageShift a,
    host (m.virtualAddressForPhysical (pageAddress a page) (pageSize a) + UInt64.ofNat k) =
      mem (page.toNat * 2 ^ pageShift a + k)

/-- The lookup of a part of what the map has in one range. -/
theorem MemoryMap.lookup_part (m : MemoryMap) {physical physical' length : UInt64}
    (length' : UInt64) (o : ℕ) (hne : m.virtualAddressForPhysical physical length ≠ 0)
    (hphysical : physical'.toNat = physical.toNat + o) (hlt : o < length.toNat)
    (hle : o + length'.toNat ≤ length.toNat) :
    m.virtualAddressForPhysical physical' length' =
      m.virtualAddressForPhysical physical length + UInt64.ofNat o := by
  obtain ⟨hordered, -⟩ := m.ordered
  unfold MemoryMap.virtualAddressForPhysical Memory.virtualAddressForPhysical at hne ⊢
  by_cases hsum : physical.toNat + length.toNat ≥ 2 ^ 64
  · rw [if_pos hsum] at hne
    exact absurd rfl hne
  rw [if_neg hsum] at hne ⊢
  split at hne
  · exact absurd rfl hne
  · rename_i r hfind
    by_cases hend : physical + length > r.physicalEnd
    · rw [if_pos hend] at hne
      exact absurd rfl hne
    rw [if_neg (by omega), if_neg hend]
    obtain ⟨r', hr', rfl⟩ := List.mem_map.mp (List.mem_of_find?_eq_some hfind)
    have hholds := List.find?_some hfind
    rw [decide_eq_true_eq, UInt64.le_iff_toNat_le, UInt64.lt_iff_toNat_lt] at hholds
    rw [UInt64.not_lt, UInt64.le_iff_toNat_le, UInt64.toNat_add_of_toNat_lt (by omega)] at hend
    have hholds' : Holds physical' r'.toMapRange := by
      rw [Holds, UInt64.le_iff_toNat_le, UInt64.lt_iff_toNat_lt]
      omega
    rw [hordered.find_eq hr' hholds']
    dsimp only
    rw [if_neg]
    · have hsplit : physical' = physical + UInt64.ofNat o := by
        refine UInt64.toNat_inj.mp ?_
        have hofNat : (UInt64.ofNat o).toNat = o := toNat_ofNat_of_le hlt.le
        rw [UInt64.toNat_add_of_toNat_lt (by rw [hofNat]; omega), hofNat, hphysical]
      rw [hsplit]
      grind
    · rw [UInt64.not_lt, UInt64.le_iff_toNat_le, UInt64.toNat_add_of_toNat_lt (by omega)]
      omega

/-- Host bytes that are a page's. -/
theorem map_span_eq {host : HostMemory} {base : UInt64} {page : UInt32}
    (hbytes : ∀ k < 2 ^ pageShift a,
      host (base + UInt64.ofNat k) = mem (page.toNat * 2 ^ pageShift a + k))
    {o n : ℕ} (hle : o + n ≤ 2 ^ pageShift a) :
    (span (base + UInt64.ofNat o) n).map host = pageBytes a mem page o n := by
  rw [span, pageBytes, List.map_map]
  refine List.map_congr_left fun k hk => ?_
  rw [List.mem_range] at hk
  rw [Function.comp_apply, UInt64.add_assoc, ← UInt64.ofNat_add, hbytes _ (by omega), Nat.add_assoc]

theorem copyOut_eq {host : HostMemory} {base : UInt64} {page : UInt32}
    (haccessible : Accessible base (pageSize a))
    (hbytes : ∀ k < 2 ^ pageShift a,
      host (base + UInt64.ofNat k) = mem (page.toNat * 2 ^ pageShift a + k))
    {o n : ℕ} (hle : o + n ≤ 2 ^ pageShift a) (death : VisitFault) :
    copyOut host (base + UInt64.ofNat o) n death = .ok (pageBytes a mem page o n) := by
  obtain ⟨hzero, hend⟩ := haccessible
  rw [pageBytes_toNat] at hend
  have hofNat : ∀ k ≤ 2 ^ pageShift a, (UInt64.ofNat k).toNat = k := fun k hk =>
    toNat_ofNat_of_le (hk.trans (pageBytes_toNat a).ge)
  have hbase : (base + UInt64.ofNat o).toNat = base.toNat + o := by
    rw [UInt64.toNat_add_of_toNat_lt, hofNat o (by omega)]
    rw [hofNat o (by omega)]
    omega
  have hinside : Accessible (base + UInt64.ofNat o) (UInt64.ofNat n) := by
    rw [Accessible, hbase, hofNat n (by omega)]
    exact ⟨by omega, by omega⟩
  rw [copyOut, if_neg (fun h => h.2 hinside), map_span_eq hbytes hle]

/-- A part of a page reads through the map. -/
theorem Backs.read {m : MemoryMap} {host : HostMemory} {page : UInt32}
    (h : Backs a m host mem page) {o n : ℕ} (hlt : o < 2 ^ pageShift a)
    (hle : o + n ≤ 2 ^ pageShift a) :
    m.read host (pageAddress a page + UInt64.ofNat o) n = .ok (some (pageBytes a mem page o n)) := by
  have hsize := pageBytes_toNat a
  have hofNat : (UInt64.ofNat n).toNat = n := toNat_ofNat_of_le (by rw [hsize]; omega)
  obtain ⟨hzero, hend⟩ := h.accessible
  have hpart := m.lookup_part (UInt64.ofNat n) o
    (fun hnull => by rw [hnull] at hzero; exact absurd hzero (by decide))
    ((toNat_pageAddress_add a page hlt.le).trans (by rw [toNat_pageAddress])) (by omega)
    (by rw [hofNat]; omega)
  have hsource : m.virtualAddressForPhysical (pageAddress a page) (pageSize a) + UInt64.ofNat o ≠ 0 := by
    intro hnull
    have hnat := congrArg UInt64.toNat hnull
    have hofNat' : (UInt64.ofNat o).toNat = o := toNat_ofNat_of_le (by rw [hsize]; omega)
    rw [UInt64.toNat_add_of_toNat_lt (by rw [hofNat']; omega), hofNat'] at hnat
    rw [zeroRegionEnd] at hzero
    change _ = 0 at hnat
    omega
  rw [MemoryMap.read, hpart, if_neg hsource, copyOut_eq h.accessible h.bytes hle]
  rfl

/-- The device reads a page of guest memory: through its memory map, by the host's read block, or from
a mapping of the page. -/
def DeviceMemory.Reads (a : Arch) (d : DeviceMemory) (host : HostMemory) (mem : GuestMemory)
    (page : UInt32) : Prop :=
  match d.memoryMap, d.readMemory with
  | some m, _ => Backs a m host mem page
  | none, some read => ∀ o n, o + n ≤ 2 ^ pageShift a →
    read (pageAddress a page + UInt64.ofNat o) (UInt64.ofNat n) = some (pageBytes a mem page o n)
  | none, none => ∃ base, d.newContiguousMapping page = some base ∧
    Accessible base (pageSize a) ∧
    ∀ k < 2 ^ pageShift a, host (base + UInt64.ofNat k) = mem (page.toNat * 2 ^ pageShift a + k)

/-- A part of a page that the device reads. -/
theorem DeviceMemory.Reads.read {d : DeviceMemory} {host : HostMemory} {page : UInt32}
    (h : d.Reads a host mem page) {o n : ℕ} (hlt : o < 2 ^ pageShift a)
    (hle : o + n ≤ 2 ^ pageShift a) :
    d.readFromPhysicalAddress a host (pageAddress a page + UInt64.ofNat o) n =
      .ok (some (pageBytes a mem page o n)) := by
  have hsize := pageBytes_toNat a
  have hpage := pageBytes_le a
  have haddress := toNat_pageAddress_add a page hlt.le
  have hlength : (UInt32.ofNat n).toUInt64 = UInt64.ofNat n := by
    refine UInt64.toNat_inj.mp ?_
    rw [UInt32.toNat_toUInt64, UInt32.toNat_ofNat_of_lt' (by change n < 2 ^ 32; omega),
      UInt64.toNat_ofNat_of_lt' (by change n < 2 ^ 64; omega)]
  have hofNat : (UInt64.ofNat n).toNat = n := toNat_ofNat_of_le (by rw [hsize]; omega)
  have hmask : (pageAddress a page + UInt64.ofNat o) &&& pageMask a = UInt64.ofNat o := by
    refine UInt64.toNat_inj.mp ?_
    rw [UInt64.toNat_and, pageMask_toNat, Nat.and_two_pow_sub_one_eq_mod, haddress, Nat.mul_add_mod',
      Nat.mod_eq_of_lt hlt, toNat_ofNat_of_le (x := pageSize a) (by omega)]
  have hnumber : ((pageAddress a page + UInt64.ofNat o) >>> UInt64.ofNat (pageShift a)).toUInt32 =
      page := by
    refine UInt32.toNat_inj.mp ?_
    rw [UInt64.toNat_toUInt32, UInt64.toNat_shiftRight_ofNat _ (by cases a <;> decide), haddress,
      Nat.add_comm, Nat.add_mul_div_right _ _ (pageBytes_pos a), Nat.div_eq_of_lt hlt, Nat.zero_add,
      Nat.mod_eq_of_lt page.toNat_lt]
  have hin : ¬ ((UInt32.ofNat n).toUInt64 > pageSize a ∨
      (pageAddress a page + UInt64.ofNat o &&& pageMask a) + (UInt32.ofNat n).toUInt64 >
        pageSize a) := by
    rw [hlength, hmask, ← UInt64.ofNat_add, gt_iff_lt, gt_iff_lt, UInt64.lt_iff_toNat_lt,
      UInt64.lt_iff_toNat_lt, hsize, hofNat, toNat_ofNat_of_le (x := pageSize a) (by omega)]
    omega
  rw [DeviceMemory.readFromPhysicalAddress, if_neg hin]
  obtain ⟨memoryMap, readMemory, newContiguousMapping⟩ := d
  cases memoryMap with
  | some m => exact Backs.read h hlt hle
  | none =>
    cases readMemory with
    | some read =>
      change Except.ok (read _ (UInt32.ofNat n).toUInt64) = _
      rw [hlength, h o n hle]
    | none =>
      obtain ⟨base, hbase, haccessible, hbytes⟩ := h
      dsimp only at hbase ⊢
      rw [hnumber, hbase]
      dsimp only
      rw [hmask, copyOut_eq haccessible hbytes hle]
      rfl

/-! ### The walk of a range -/

/-- A range of a task, with at least one byte, that a page table of one to three levels covers, below
page `2^32`. -/
structure InTable (a : Arch) (root : UInt32) (depth : ℕ) (offset length : UInt64) : Prop where
  root_ne : root ≠ 0
  depth_pos : 0 < depth
  depth_le : depth ≤ 3
  length_ne : length ≠ 0
  le_coverage : offset.toNat + length.toNat ≤ 2 ^ (indexBits a * depth) * 2 ^ pageShift a
  le_pages : offset.toNat + length.toNat ≤ 2 ^ 32 * 2 ^ pageShift a

/-- The first page of a range. -/
def firstPage (a : Arch) (offset : UInt64) : ℕ := offset.toNat / 2 ^ pageShift a

/-- The page of a range's last byte. -/
def lastPage (a : Arch) (offset length : UInt64) : ℕ :=
  (offset.toNat + length.toNat - 1) / 2 ^ pageShift a

/-- How many pages a range lies in. -/
def pageCount (a : Arch) (offset length : UInt64) : ℕ :=
  lastPage a offset length - firstPage a offset + 1

/-- The byte a walk is at before it visits a page. -/
def reached (a : Arch) (offset length : UInt64) (p : ℕ) : ℕ :=
  min (offset.toNat + length.toNat) (max offset.toNat (p * 2 ^ pageShift a))

section Walk

variable {offset length : UInt64}

theorem InTable.length_pos (h : InTable a root depth offset length) : 0 < length.toNat := by
  rw [Nat.pos_iff_ne_zero]
  exact fun hzero => h.length_ne (UInt64.toNat_inj.mp hzero)

theorem InTable.stop_lt (h : InTable a root depth offset length) :
    offset.toNat + length.toNat < 2 ^ 47 := by
  have h1 := h.le_pages
  have h2 : 2 ^ 32 * 2 ^ pageShift a ≤ 2 ^ 32 * 2 ^ 14 := Nat.mul_le_mul_left _ (pageBytes_le a)
  omega

theorem InTable.toNat_stop (h : InTable a root depth offset length) :
    (offset + length).toNat = offset.toNat + length.toNat :=
  UInt64.toNat_add_of_toNat_lt (h.stop_lt.trans (by decide))

theorem toNat_walkStart (offset : UInt64) :
    (walkStart a offset).toNat = firstPage a offset * 2 ^ pageShift a := by
  rw [walkStart, UInt64.toNat_and_not_mask (pageMask_toNat a), firstPage]
  have := Nat.div_add_mod' offset.toNat (2 ^ pageShift a)
  omega

/-- Where the pages of a range start and end. -/
theorem InTable.pages (h : InTable a root depth offset length) :
    firstPage a offset ≤ lastPage a offset length ∧
      firstPage a offset * 2 ^ pageShift a ≤ offset.toNat ∧
      offset.toNat < (firstPage a offset + 1) * 2 ^ pageShift a ∧
      lastPage a offset length * 2 ^ pageShift a < offset.toNat + length.toNat ∧
      offset.toNat + length.toNat ≤ (lastPage a offset length + 1) * 2 ^ pageShift a := by
  have hpos := h.length_pos
  have h1 := Nat.div_add_mod' offset.toNat (2 ^ pageShift a)
  have h2 := Nat.div_add_mod' (offset.toNat + length.toNat - 1) (2 ^ pageShift a)
  have h3 := Nat.mod_lt offset.toNat (pageBytes_pos a)
  have h4 := Nat.mod_lt (offset.toNat + length.toNat - 1) (pageBytes_pos a)
  refine ⟨Nat.div_le_div_right (by omega), ?_, ?_, ?_, ?_⟩
  · rw [firstPage]
    omega
  · rw [firstPage, Nat.succ_mul]
    omega
  · rw [lastPage]
    omega
  · rw [lastPage, Nat.succ_mul]
    omega

theorem InTable.toNat_walkSize (h : InTable a root depth offset length) :
    (walkSize a offset (offset + length)).toNat = pageCount a offset length * 2 ^ pageShift a := by
  have hle := pageBytes_le a
  have hpos := pageBytes_pos a
  have hlt := h.stop_lt
  obtain ⟨hfirst, -, -, hlast, hend⟩ := h.pages
  have hround : ((offset + length + pageMask a) &&& ~~~pageMask a).toNat =
      (lastPage a offset length + 1) * 2 ^ pageShift a := by
    rw [UInt64.toNat_roundUp (pageMask_toNat a) (by rw [h.toNat_stop]; omega), h.toNat_stop,
      Nat.mul_comm]
    congr 1
    rw [Nat.div_eq_of_lt_le]
    · rw [Nat.succ_mul]
      omega
    · rw [Nat.succ_mul]
      omega
  have hle' : firstPage a offset * 2 ^ pageShift a ≤
      (lastPage a offset length + 1) * 2 ^ pageShift a := Nat.mul_le_mul_right _ (by omega)
  rw [walkSize, UInt64.toNat_sub_of_toNat_le (by rw [toNat_walkStart, hround]; exact hle'), hround,
    toNat_walkStart, ← Nat.sub_mul, pageCount]
  congr 1
  omega

/-- The walk of a range visits its pages in turn. -/
theorem InTable.walk_eq (h : InTable a root depth offset length) {σ ε : Type*}
    (visit : Visitor σ ε) (s : σ) {fuel : ℕ} (hfuel : depth * pageCount a offset length ≤ fuel) :
    (PageTableWalker.new a root depth false).visitPagesInRange a mem visit fuel (walkStart a offset)
        (walkSize a offset (offset + length)) s =
      visitEach a mem depth root visit
        (List.range' (firstPage a offset) (pageCount a offset length)) s := by
  have hpos := pageBytes_pos a
  have hle := pageBytes_le a
  have hlt := h.stop_lt
  obtain ⟨hfirst, hfirstLe, -, hlast, hend⟩ := h.pages
  have hsize := h.toNat_walkSize
  have hcount : 0 < pageCount a offset length := Nat.succ_pos _
  have hsizePos : 2 ^ pageShift a ≤ (walkSize a offset (offset + length)).toNat := by
    rw [hsize]
    exact Nat.le_mul_of_pos_left _ hcount
  have hsum : firstPage a offset * 2 ^ pageShift a + pageCount a offset length * 2 ^ pageShift a =
      (lastPage a offset length + 1) * 2 ^ pageShift a := by
    rw [← Nat.add_mul, pageCount]
    congr 1
    omega
  have hminus : (walkSize a offset (offset + length) - 1).toNat =
      pageCount a offset length * 2 ^ pageShift a - 1 := by
    rw [UInt64.toNat_sub_of_toNat_le, hsize]
    · rfl
    · change 1 ≤ _
      omega
  have hover : (lastPage a offset length + 1) * 2 ^ pageShift a ≤ 2 ^ 47 + 2 ^ 14 := by
    rw [Nat.succ_mul]
    omega
  have hmask : ∀ {x : UInt64} {n : ℕ}, x.toNat = n * 2 ^ pageShift a → x &&& pageMask a = 0 := by
    intro x n hx
    refine UInt64.toNat_inj.mp ?_
    rw [UInt64.toNat_and, pageMask_toNat, Nat.and_two_pow_sub_one_eq_mod, hx, Nat.mul_mod_left]
    rfl
  have hlastEq : lastPage a offset length =
      ((walkStart a offset).toNat + (walkSize a offset (offset + length) - 1).toNat) /
        2 ^ pageShift a := by
    rw [toNat_walkStart, hminus, eq_comm, Nat.div_eq_of_lt_le]
    · rw [Nat.succ_mul] at hsum
      omega
    · omega
  have hfirstEq : firstPage a offset = (walkStart a offset).toNat / 2 ^ pageShift a := by
    rw [toNat_walkStart, Nat.mul_div_cancel _ hpos]
  have hlast32 : lastPage a offset length < 2 ^ 32 :=
    Nat.lt_of_mul_lt_mul_right (hlast.trans_le h.le_pages)
  have hlastRoot : levelIndex a depth (lastPage a offset length) 0 < 2 ^ indexBits a := by
    have hcover : lastPage a offset length < 2 ^ (indexBits a * depth) :=
      Nat.lt_of_mul_lt_mul_right (hlast.trans_le h.le_coverage)
    rw [levelIndex, Nat.sub_zero, Nat.div_lt_iff_lt_mul (Nat.two_pow_pos _), ← pow_add]
    have hexp : indexBits a + indexBits a * (depth - 1) = indexBits a * depth := by
      have := h.depth_pos
      rw [Nat.add_comm, ← Nat.mul_add_one]
      congr 1
      omega
    rw [hexp]
    exact hcover
  refine visitPagesInRange_eq_visitEach h.root_ne (hmask (toNat_walkStart offset)) (hmask hsize) ?_ ?_
    hfirstEq hlastEq ⟨h.depth_pos, h.depth_le, hfirst, hlast32, hlastRoot⟩ visit s hfuel
  · intro hzero
    rw [hzero] at hsizePos
    exact absurd hsizePos (by change ¬ _ ≤ 0; omega)
  · rw [toNat_walkStart, hminus]
    omega

/-- Before a page of the range the walk is at a byte of that page. -/
theorem InTable.reached_spec (h : InTable a root depth offset length) {p : ℕ}
    (hp : firstPage a offset ≤ p) (hp' : p < firstPage a offset + pageCount a offset length) :
    reached a offset length p / 2 ^ pageShift a = p ∧ offset.toNat ≤ reached a offset length p ∧
      reached a offset length p < offset.toNat + length.toNat ∧
      reached a offset length p % 2 ^ pageShift a =
        (if p = firstPage a offset then offset.toNat % 2 ^ pageShift a else 0) ∧
      reached a offset length (p + 1) = reached a offset length p +
        min (2 ^ pageShift a - reached a offset length p % 2 ^ pageShift a)
          (offset.toNat + length.toNat - reached a offset length p) := by
  obtain ⟨hfirst, hle, hlt, hlast, hend⟩ := h.pages
  have hlen := h.length_pos
  have hlastLe : p ≤ lastPage a offset length := by
    rw [pageCount] at hp'
    omega
  have hbound : p * 2 ^ pageShift a ≤ lastPage a offset length * 2 ^ pageShift a :=
    Nat.mul_le_mul_right _ hlastLe
  have hmod := Nat.div_add_mod' offset.toNat (2 ^ pageShift a)
  have hmodlt := Nat.mod_lt offset.toNat (pageBytes_pos a)
  have hsucc : (p + 1) * 2 ^ pageShift a = p * 2 ^ pageShift a + 2 ^ pageShift a := Nat.succ_mul _ _
  -- The walk is at the offset in the first page, and at the start of every other one.
  have hat : p = firstPage a offset ∧ reached a offset length p = offset.toNat ∨
      p ≠ firstPage a offset ∧ reached a offset length p = p * 2 ^ pageShift a ∧
        offset.toNat < p * 2 ^ pageShift a := by
    rw [reached]
    by_cases heq : p = firstPage a offset
    · exact .inl ⟨heq, by rw [heq]; omega⟩
    · have hge : (firstPage a offset + 1) * 2 ^ pageShift a ≤ p * 2 ^ pageShift a :=
        Nat.mul_le_mul_right _ (by omega)
      exact .inr ⟨heq, by omega, by omega⟩
  have hnext : reached a offset length (p + 1) =
      min (offset.toNat + length.toNat) (p * 2 ^ pageShift a + 2 ^ pageShift a) := by
    rw [reached, hsucc]
    rcases hat with ⟨rfl, -⟩ | ⟨-, -, hoff⟩
    · rw [Nat.succ_mul] at hlt
      omega
    · omega
  rcases hat with ⟨rfl, hat⟩ | ⟨hne, hat, hoff⟩
  · rw [hnext, hat, if_pos rfl]
    rw [firstPage] at hle hlt ⊢
    rw [Nat.succ_mul] at hlt
    refine ⟨rfl, le_rfl, by omega, rfl, ?_⟩
    omega
  · rw [hnext, hat, if_neg hne, Nat.mul_div_cancel _ (pageBytes_pos a), Nat.mul_mod_left]
    refine ⟨rfl, by omega, by omega, rfl, ?_⟩
    omega

theorem InTable.reached_first (h : InTable a root depth offset length) :
    reached a offset length (firstPage a offset) = offset.toNat := by
  obtain ⟨-, hle, -, -, -⟩ := h.pages
  rw [reached]
  omega

/-- After the last page the walk is at the end of the range. -/
theorem InTable.reached_last (h : InTable a root depth offset length) :
    reached a offset length (firstPage a offset + pageCount a offset length) =
      offset.toNat + length.toNat := by
  obtain ⟨hfirst, -, -, -, hend⟩ := h.pages
  have hlast : firstPage a offset + pageCount a offset length = lastPage a offset length + 1 := by
    rw [pageCount]
    omega
  rw [hlast, reached]
  omega

/-- What a walk keeps from page to page: a visit that goes on moves it to the next page, and one that
does not ends the walk with a fault of a kind. -/
theorem visitEach_rule {σ ε : Type*} (visit : Visitor σ ε) {I : ℕ → σ → Prop} {E : ε → Prop}
    {first n : ℕ}
    (hstep : ∀ p leaf s, first ≤ p → p < first + n → lookup a mem depth root p = some leaf → I p s →
      (∃ s', visit s (pageVisit a p leaf) = (s', none) ∧ I (p + 1) s') ∨
        ∃ s' e, visit s (pageVisit a p leaf) = (s', some e) ∧ E e)
    {s : σ} (hs : I first s) :
    (∃ s', visitEach a mem depth root visit (List.range' first n) s = (s', .ok) ∧ I (first + n) s') ∨
      (∃ s' p, visitEach a mem depth root visit (List.range' first n) s = (s', .raised .walkHole) ∧
        first ≤ p ∧ p < first + n ∧ lookup a mem depth root p = none ∧ I p s') ∨
      ∃ s' e, visitEach a mem depth root visit (List.range' first n) s = (s', .visitor e) ∧ E e := by
  induction n generalizing first s with
  | zero => exact .inl ⟨s, rfl, hs⟩
  | succ n ih =>
    rw [List.range'_succ, visitEach]
    cases hlookup : lookup a mem depth root first with
    | none => exact .inr (.inl ⟨s, first, rfl, le_rfl, by omega, hlookup, hs⟩)
    | some leaf =>
      dsimp only
      rcases hstep first leaf s le_rfl (by omega) hlookup hs with ⟨s', hvisit, hs'⟩ | ⟨s', e, hvisit, he⟩
      · rw [hvisit]
        dsimp only
        have hrest := ih (fun p leaf s hp hp' => hstep p leaf s (by omega) (by omega)) hs'
        rw [Nat.add_right_comm] at hrest
        rcases hrest with hok | ⟨s'', p, hraised, hp, hp', hnone, hs''⟩ | hfault
        · exact .inl hok
        · exact .inr (.inl ⟨s'', p, hraised, by omega, by omega, hnone, hs''⟩)
        · exact .inr (.inr hfault)
      · rw [hvisit]
        exact .inr (.inr ⟨s', e, rfl, he⟩)

/-- The part of a page that a copy reads: from the byte the walk is at. -/
theorem InTable.chunkOf_eq (h : InTable a root depth offset length) {p : ℕ}
    (hp : firstPage a offset ≤ p) (hp' : p < firstPage a offset + pageCount a offset length)
    (leaf : UInt32 × UInt32) (remaining : UInt64) :
    (chunkOf a (walkStart a offset) (offset &&& pageMask a) remaining (pageVisit a p leaf)).1 =
        pageAddress a leaf.1 +
          UInt64.ofNat (reached a offset length p % 2 ^ pageShift a) ∧
      (chunkOf a (walkStart a offset) (offset &&& pageMask a) remaining (pageVisit a p leaf)).2.toNat =
        min (2 ^ pageShift a - reached a offset length p % 2 ^ pageShift a) remaining.toNat := by
  obtain ⟨-, -, hlt, hmod, -⟩ := h.reached_spec hp hp'
  have hbound := Nat.mod_lt (reached a offset length p) (pageBytes_pos a)
  have hsize := pageBytes_toNat a
  have hle : p * 2 ^ pageShift a < 2 ^ 64 := by
    obtain ⟨hfirst, -, -, hlast, -⟩ := h.pages
    have hstop := h.stop_lt
    have hp'' : p ≤ lastPage a offset length := by
      rw [pageCount] at hp'
      omega
    have := Nat.mul_le_mul_right (2 ^ pageShift a) hp''
    omega
  have hstart : (UInt64.ofNat (p * 2 ^ pageShift a) = walkStart a offset) ↔ p = firstPage a offset := by
    rw [← UInt64.toNat_inj, UInt64.toNat_ofNat_of_lt' hle, toNat_walkStart,
      Nat.mul_left_inj (pageBytes_pos a).ne']
  have hoffset : offset &&& pageMask a = UInt64.ofNat (offset.toNat % 2 ^ pageShift a) := by
    refine UInt64.toNat_inj.mp ?_
    have := Nat.mod_lt offset.toNat (pageBytes_pos a)
    rw [UInt64.toNat_and, pageMask_toNat, Nat.and_two_pow_sub_one_eq_mod,
      toNat_ofNat_of_le (x := pageSize a) (by omega)]
  have hphysical : (chunkOf a (walkStart a offset) (offset &&& pageMask a) remaining
      (pageVisit a p leaf)).1 =
        pageAddress a leaf.1 + UInt64.ofNat (reached a offset length p % 2 ^ pageShift a) := by
    rw [chunkOf, pageVisit]
    dsimp only
    rw [hmod, hoffset]
    by_cases heq : p = firstPage a offset
    · rw [if_pos (hstart.mpr heq), if_pos heq]
    · rw [if_neg (fun hc => heq (hstart.mp hc)), if_neg heq]
      exact (UInt64.add_zero _).symm
  refine ⟨hphysical, ?_⟩
  have hend : (pageAddress a leaf.1 + pageSize a -
      (pageAddress a leaf.1 + UInt64.ofNat (reached a offset length p % 2 ^ pageShift a))).toNat =
        2 ^ pageShift a - reached a offset length p % 2 ^ pageShift a := by
    have hpage := toNat_pageAddress_add a leaf.1 (le_refl (2 ^ pageShift a))
    rw [show UInt64.ofNat (2 ^ pageShift a) = pageSize a by cases a <;> rfl] at hpage
    have hpart := toNat_pageAddress_add a leaf.1 hbound.le
    rw [UInt64.toNat_sub_of_toNat_le (by omega), hpage, hpart]
    omega
  rw [← hend, ← hphysical, ← UInt64.toNat_min]
  rfl

end Walk

/-! ### Copies -/

theorem length_overwrite {dst bytes : List UInt8} {i : ℕ} (h : i + bytes.length ≤ dst.length) :
    (overwrite dst i bytes).length = dst.length := by
  rw [overwrite, List.length_append, List.length_append, List.length_take, List.length_drop]
  omega

theorem take_overwrite {dst bytes : List UInt8} {i : ℕ} (h : i + bytes.length ≤ dst.length) :
    (overwrite dst i bytes).take (i + bytes.length) = dst.take i ++ bytes := by
  rw [overwrite, ← List.append_assoc]
  refine List.take_left' ?_
  rw [List.length_append, List.length_take_of_le (by omega)]

section Copies

variable {offset length : UInt64}

/-- A copy that has read every page before `p`. -/
structure Copied (a : Arch) (mem : GuestMemory) (depth : ℕ) (root : UInt32) (offset length : UInt64)
    (p : ℕ) (s : Copying) : Prop where
  length_dst : s.dst.length = length.toNat
  current : offset.toNat + s.current.toNat = reached a offset length p
  remaining : reached a offset length p + s.remaining.toNat = offset.toNat + length.toNat
  bytes : (s.dst.take s.current.toNat).map some = taskBytes a mem depth root offset.toNat s.current.toNat

/-- What a visit of a copy does with a page that reads. -/
theorem InTable.copied_advance (h : InTable a root depth offset length) {p : ℕ}
    {leaf : UInt32 × UInt32} {s : Copying} (hp : firstPage a offset ≤ p)
    (hp' : p < firstPage a offset + pageCount a offset length)
    (hleaf : lookup a mem depth root p = some leaf)
    (hs : Copied a mem depth root offset length p s) {n : UInt64}
    (hn : n.toNat = min (2 ^ pageShift a - reached a offset length p % 2 ^ pageShift a)
      s.remaining.toNat) :
    ∃ s', s.advance n (.ok (some (pageBytes a mem leaf.1
        (reached a offset length p % 2 ^ pageShift a) n.toNat))) = (s', none) ∧
      Copied a mem depth root offset length (p + 1) s' := by
  obtain ⟨hdiv, hge, hlt, hmod, hnext⟩ := h.reached_spec hp hp'
  have hcurrent := hs.current
  have hremaining := hs.remaining
  have hlength := hs.length_dst
  have hbound := Nat.mod_lt (reached a offset length p) (pageBytes_pos a)
  have hlong := h.stop_lt
  have hnext' : reached a offset length (p + 1) = reached a offset length p + n.toNat := by
    rw [hnext, hn]
    omega
  have hsum : (s.current + n).toNat = s.current.toNat + n.toNat :=
    UInt64.toNat_add_of_toNat_lt (by omega)
  have hfits : s.current.toNat + (pageBytes a mem leaf.1
      (reached a offset length p % 2 ^ pageShift a) n.toNat).length ≤ s.dst.length := by
    rw [length_pageBytes]
    omega
  refine ⟨_, rfl, ?_, ?_, ?_, ?_⟩
  · rw [length_overwrite hfits]
    exact hlength
  · dsimp only
    rw [hsum]
    omega
  · dsimp only
    rw [UInt64.toNat_sub_of_toNat_le (by omega)]
    omega
  · have htake := take_overwrite hfits
    rw [length_pageBytes] at htake
    have hpage : taskBytes a mem depth root (reached a offset length p) n.toNat =
        (pageBytes a mem leaf.1 (reached a offset length p % 2 ^ pageShift a) n.toNat).map some :=
      taskBytes_of_lookup (hdiv.symm ▸ hleaf) (by omega)
    rw [hsum, htake, List.map_append, hs.bytes, taskBytes_add, hcurrent, hpage]

/-- A visit of the local task's copy, of a page that the device reads. -/
theorem InTable.local_visit (h : InTable a root depth offset length) {p : ℕ}
    {leaf : UInt32 × UInt32} {s : Copying} {d : DeviceMemory} {host : HostMemory}
    (hp : firstPage a offset ≤ p) (hp' : p < firstPage a offset + pageCount a offset length)
    (hleaf : lookup a mem depth root p = some leaf) (hreads : d.Reads a host mem leaf.1)
    (hs : Copied a mem depth root offset length p s) :
    ∃ s', LocalTask.copyVisit a (some d) host (walkStart a offset) (offset &&& pageMask a) s
        (pageVisit a p leaf) = (s', none) ∧
      Copied a mem depth root offset length (p + 1) s' := by
  obtain ⟨hphysical, hn⟩ := h.chunkOf_eq hp hp' leaf s.remaining
  have hbound := Nat.mod_lt (reached a offset length p) (pageBytes_pos a)
  have hcurrent := hs.current
  have hremaining := hs.remaining
  have hlength := hs.length_dst
  have hlong := h.stop_lt
  obtain ⟨s', hadvance, hs'⟩ := h.copied_advance hp hp' hleaf hs hn
  refine ⟨s', ?_, hs'⟩
  rw [← hadvance, LocalTask.copyVisit]
  dsimp only
  rw [hphysical]
  generalize (chunkOf a (walkStart a offset) (offset &&& pageMask a) s.remaining
    (pageVisit a p leaf)).2 = n at hn
  have hsum : (s.current + n).toNat = s.current.toNat + n.toNat :=
    UInt64.toNat_add_of_toNat_lt (by omega)
  rw [hsum, if_pos (by omega), Nat.add_sub_cancel_left, hreads.read hbound (by omega)]

/-- A visit of the GPU task's copy: its part of the page lies in the buffer. -/
theorem InTable.gpu_visit_eq (h : InTable a root depth offset length) {p : ℕ} {s : Copying}
    (hp : firstPage a offset ≤ p) (hp' : p < firstPage a offset + pageCount a offset length)
    (leaf : UInt32 × UInt32) (map : Option MemoryMap) (host : HostMemory)
    (hdst : s.dst.length = length.toNat) (hsplit : s.current.toNat + s.remaining.toNat = length.toNat) :
    ∃ n : UInt64, n.toNat = min (2 ^ pageShift a - reached a offset length p % 2 ^ pageShift a)
        s.remaining.toNat ∧
      GpuTask.copyVisit a map host length (walkStart a offset) (offset &&& pageMask a) s
          (pageVisit a p leaf) =
        s.advance n (match map with
          | some m => m.read host (pageAddress a leaf.1 +
              UInt64.ofNat (reached a offset length p % 2 ^ pageShift a)) n.toNat
          | none => .ok none) := by
  obtain ⟨hphysical, hn⟩ := h.chunkOf_eq hp hp' leaf s.remaining
  refine ⟨_, hn, ?_⟩
  rw [GpuTask.copyVisit]
  dsimp only
  rw [hphysical]
  generalize (chunkOf a (walkStart a offset) (offset &&& pageMask a) s.remaining
    (pageVisit a p leaf)).2 = n at hn ⊢
  have hlong := length.toNat_lt
  have hsum : (s.current + n).toNat = s.current.toNat + n.toNat :=
    UInt64.toNat_add_of_toNat_lt (by omega)
  have hle : ¬ n > length := by
    rw [gt_iff_lt, UInt64.lt_iff_toNat_lt]
    omega
  rewrite [hsum, if_neg hle, if_neg (by omega), Nat.add_sub_cancel_left]
  cases map <;> rfl

theorem InTable.gpu_visit (h : InTable a root depth offset length) {p : ℕ}
    {leaf : UInt32 × UInt32} {s : Copying} {m : MemoryMap} {host : HostMemory}
    (hp : firstPage a offset ≤ p) (hp' : p < firstPage a offset + pageCount a offset length)
    (hleaf : lookup a mem depth root p = some leaf) (hbacks : Backs a m host mem leaf.1)
    (hs : Copied a mem depth root offset length p s) :
    ∃ s', GpuTask.copyVisit a (some m) host length (walkStart a offset) (offset &&& pageMask a) s
        (pageVisit a p leaf) = (s', none) ∧
      Copied a mem depth root offset length (p + 1) s' := by
  have hbound := Nat.mod_lt (reached a offset length p) (pageBytes_pos a)
  have hcurrent := hs.current
  have hremaining := hs.remaining
  obtain ⟨n, hn, hvisit⟩ := h.gpu_visit_eq hp hp' leaf (some m) host hs.length_dst (by omega)
  obtain ⟨s', hadvance, hs'⟩ := h.copied_advance hp hp' hleaf hs hn
  refine ⟨s', ?_, hs'⟩
  rw [hvisit, ← hadvance]
  dsimp only
  rw [hbacks.read hbound (by omega)]

/-- A walk whose visits all go on reaches the end of its range. -/
theorem InTable.walk_all (h : InTable a root depth offset length) {σ : Type*}
    (visit : Visitor σ VisitFault) {I : ℕ → σ → Prop}
    (hstep : ∀ p s, firstPage a offset ≤ p → p < firstPage a offset + pageCount a offset length →
      I p s → ∃ leaf s', lookup a mem depth root p = some leaf ∧
        visit s (pageVisit a p leaf) = (s', none) ∧ I (p + 1) s')
    {s : σ} (hs : I (firstPage a offset) s) {fuel : ℕ}
    (hfuel : depth * pageCount a offset length ≤ fuel) :
    ∃ s', (PageTableWalker.new a root depth false).visitPagesInRange a mem visit fuel
          (walkStart a offset) (walkSize a offset (offset + length)) s = (s', .ok) ∧
      I (firstPage a offset + pageCount a offset length) s' := by
  rw [h.walk_eq visit s hfuel]
  have hrule := visitEach_rule visit (E := fun _ => False) (n := pageCount a offset length)
    (fun p leaf s hp hp' hleaf hs => by
      obtain ⟨leaf', s', hleaf', hvisit, hs'⟩ := hstep p s hp hp' hs
      obtain rfl := Option.some.inj (hleaf.symm.trans hleaf')
      exact .inl ⟨s', hvisit, hs'⟩) hs
  rcases hrule with hok | ⟨s', p, -, hp, hp', hnone, hs'⟩ | ⟨-, -, -, hfalse⟩
  · exact hok
  · obtain ⟨leaf, -, hleaf, -⟩ := hstep p s' hp hp' hs'
    rw [hnone] at hleaf
    cases hleaf
  · exact hfalse.elim

/-- A copy that has read every page has every byte. -/
theorem InTable.copied_last (h : InTable a root depth offset length) {s : Copying}
    (hs : Copied a mem depth root offset length
      (firstPage a offset + pageCount a offset length) s) :
    s.dst.map some = taskBytes a mem depth root offset.toNat length.toNat := by
  have hcurrent := hs.current
  rw [h.reached_last] at hcurrent
  have heq : s.current.toNat = length.toNat := by omega
  have hbytes := hs.bytes
  rw [heq, List.take_of_length_le hs.length_dst.le] at hbytes
  exact hbytes

theorem InTable.copied_first (h : InTable a root depth offset length) {dst : List UInt8}
    (hdst : dst.length = length.toNat) :
    Copied a mem depth root offset length (firstPage a offset) ⟨dst, 0, length⟩ := by
  refine ⟨hdst, ?_, ?_, rfl⟩
  · rw [h.reached_first]
    rfl
  · rw [h.reached_first]

end Copies

/-! ### The cursor -/

theorem flatten_append (memory : HostMemory) (rs rs' : List CursorRange) :
    flatten memory (rs ++ rs') = flatten memory rs ++ flatten memory rs' := by
  rw [flatten, addresses_append, List.map_append]
  rfl

theorem flatten_singleton (memory : HostMemory) (r : CursorRange) :
    flatten memory [r] = (span r.address r.length.toNat).map memory := by
  rw [flatten, addresses_cons]
  exact congrArg _ (List.append_nil _)

theorem totalLength_singleton (r : CursorRange) : totalLength [r] = r.length.toNat := by
  rw [totalLength_cons]
  rfl

section Cursor

variable {offset length : UInt64}

/-- A cursor's walk that has gathered every page before `p`. The run it is in ends where the next
page of host memory starts. -/
structure Gathered (a : Arch) (mem : GuestMemory) (depth : ℕ) (root : UInt32) (host : HostMemory)
    (offset length : UInt64) (p : ℕ) (g : Gathering) : Prop where
  remaining : reached a offset length p + g.lengthRemaining.toNat = offset.toNat + length.toNat
  total : offset.toNat + totalLength g.pushed = reached a offset length p
  bytes : (flatten host g.pushed).map some =
    taskBytes a mem depth root offset.toNat (totalLength g.pushed)
  first : p = firstPage a offset → g.range = {} ∧ g.lastAddress = 0xffffffffffffffff ∧
    g.pageOffset.toNat = offset.toNat % 2 ^ pageShift a
  later : p ≠ firstPage a offset → g.range.length ≠ 0 ∧ g.pageOffset = 0 ∧
    (p < firstPage a offset + pageCount a offset length →
      g.range.address + g.range.length = g.lastAddress + pageSize a)

/-- The bytes of a page behind those gathered before it. -/
theorem InTable.gathered_next (h : InTable a root depth offset length) {p : ℕ}
    {leaf : UInt32 × UInt32} {g g' : Gathering} {host : HostMemory} {base n : UInt64}
    (hp : firstPage a offset ≤ p) (hp' : p < firstPage a offset + pageCount a offset length)
    (hleaf : lookup a mem depth root p = some leaf)
    (hg : Gathered a mem depth root host offset length p g)
    (hn : n.toNat = min (2 ^ pageShift a - reached a offset length p % 2 ^ pageShift a)
      g.lengthRemaining.toNat)
    (hremaining : g'.lengthRemaining = g.lengthRemaining - n) (hoffset : g'.pageOffset = 0)
    (hlast : g'.lastAddress = base) (htotal : totalLength g'.pushed = totalLength g.pushed + n.toNat)
    (hbytes : flatten host g'.pushed = flatten host g.pushed ++
      pageBytes a mem leaf.1 (reached a offset length p % 2 ^ pageShift a) n.toNat)
    (hne : g'.range.length ≠ 0)
    (hend : g'.range.address + g'.range.length =
      base + UInt64.ofNat (reached a offset length p % 2 ^ pageShift a) + n) :
    Gathered a mem depth root host offset length (p + 1) g' := by
  obtain ⟨hdiv, hge, hlt, hmod, hnext⟩ := h.reached_spec hp hp'
  have hbound := Nat.mod_lt (reached a offset length p) (pageBytes_pos a)
  have hleft := hg.remaining
  have hsum := hg.total
  refine ⟨?_, by omega, ?_, fun hc => by omega, fun _ => ⟨hne, hoffset, fun hp'' => ?_⟩⟩
  · rw [hremaining, UInt64.toNat_sub_of_toNat_le (by omega)]
    omega
  · have hpage : taskBytes a mem depth root (reached a offset length p) n.toNat =
        (pageBytes a mem leaf.1 (reached a offset length p % 2 ^ pageShift a) n.toNat).map some :=
      taskBytes_of_lookup (hdiv.symm ▸ hleaf) (by omega)
    rw [hbytes, List.map_append, hg.bytes, htotal, taskBytes_add, hsum, hpage]
  · -- There is a next page, so this one was read to its end.
    obtain ⟨-, -, hlt', -, -⟩ := h.reached_spec (by omega) hp''
    have hwhole : UInt64.ofNat (reached a offset length p % 2 ^ pageShift a) + n = pageSize a := by
      refine UInt64.toNat_inj.mp ?_
      have hpage := pageBytes_le a
      have hofNat : (UInt64.ofNat (reached a offset length p % 2 ^ pageShift a)).toNat =
          reached a offset length p % 2 ^ pageShift a :=
        UInt64.toNat_ofNat_of_lt' (hbound.trans_le (hpage.trans (by decide)))
      rw [UInt64.toNat_add_of_toNat_lt (by omega), hofNat, pageBytes_toNat]
      omega
    rw [hend, hlast, UInt64.add_assoc, hwhole]

/-- A visit of the cursor's walk, of a page that the map has. -/
theorem InTable.cursor_visit (h : InTable a root depth offset length) {p : ℕ}
    {leaf : UInt32 × UInt32} {g : Gathering} {m : MemoryMap} {host : HostMemory}
    (hp : firstPage a offset ≤ p) (hp' : p < firstPage a offset + pageCount a offset length)
    (hleaf : lookup a mem depth root p = some leaf) (hbacks : Backs a m host mem leaf.1)
    (hg : Gathered a mem depth root host offset length p g) :
    ∃ g', GpuTask.cursorVisit a (some m) g (pageVisit a p leaf) = (g', none) ∧
      g'.allWritable = (if leaf.2 = 0 then false else g.allWritable) ∧
      Gathered a mem depth root host offset length (p + 1) g' := by
  obtain ⟨hdiv, hge, hlt, hmod, hnext⟩ := h.reached_spec hp hp'
  have hbound := Nat.mod_lt (reached a offset length p) (pageBytes_pos a)
  have hsize := pageBytes_toNat a
  have hlong := h.stop_lt
  have hremaining := hg.remaining
  have htotal := hg.total
  obtain ⟨hzero, hend⟩ := hbacks.accessible
  have hoffset : g.pageOffset.toNat = reached a offset length p % 2 ^ pageShift a := by
    rw [hmod]
    split_ifs with heq
    · exact (hg.first heq).2.2
    · rw [(hg.later heq).2.1]
      rfl
  have hoffset' : g.pageOffset = UInt64.ofNat (reached a offset length p % 2 ^ pageShift a) := by
    rw [← hoffset, UInt64.ofNat_toNat]
  rw [GpuTask.cursorVisit]
  dsimp only [pageVisit]
  generalize hmin : min (pageSize a - g.pageOffset) g.lengthRemaining = n
  have hn : n.toNat = min (2 ^ pageShift a - reached a offset length p % 2 ^ pageShift a)
      g.lengthRemaining.toNat := by
    rw [← hmin, UInt64.toNat_min, UInt64.toNat_sub_of_toNat_le (by omega), hsize, hoffset]
  have hne : g.lengthRemaining ≠ 0 := by
    intro hc
    rw [hc] at hremaining
    change _ + 0 = _ at hremaining
    omega
  have hnle : ¬ g.lengthRemaining < n := by
    rw [UInt64.lt_iff_toNat_lt]
    omega
  have hn0 : n ≠ 0 := by
    intro hc
    rw [hc] at hn
    change 0 = _ at hn
    omega
  have hspan := map_span_eq hbacks.bytes (o := reached a offset length p % 2 ^ pageShift a)
    (n := n.toNat) (by omega)
  generalize m.virtualAddressForPhysical (pageAddress a leaf.1) (pageSize a) = base at hzero hend hspan ⊢
  rw [if_neg hne, if_neg hnle]
  by_cases hjoin : g.lastAddress + pageSize a = base
  · -- The page lies one page after the last one, and the range grows.
    have hlater : p ≠ firstPage a offset := by
      intro heq
      rw [(hg.first heq).2.1] at hjoin
      rw [← hjoin] at hzero
      exact absurd hzero (by cases a <;> decide)
    obtain ⟨hlen, hoff, hrun⟩ := hg.later hlater
    have hpushed : g.pushed = g.ranges ++ [g.range] := if_pos hlen
    rw [hpushed, totalLength_append, totalLength_singleton] at htotal
    have hgrown : (g.range.length + n).toNat = g.range.length.toNat + n.toNat :=
      UInt64.toNat_add_of_toNat_lt (by omega)
    have hgrown0 : g.range.length + n ≠ 0 := by
      intro hc
      rw [hc] at hgrown
      have : 0 < n.toNat := by omega
      change 0 = _ at hgrown
      omega
    rw [if_pos hjoin]
    refine ⟨_, rfl, rfl, h.gathered_next hp hp' hleaf hg hn rfl rfl rfl ?_ ?_ hgrown0 ?_⟩
    · rw [Gathering.pushed, if_pos hgrown0, hpushed, totalLength_append, totalLength_append,
        totalLength_singleton, totalLength_singleton]
      dsimp only
      omega
    · rw [Gathering.pushed, if_pos hgrown0, hpushed, flatten_append, flatten_append,
        flatten_singleton, flatten_singleton, List.append_assoc]
      dsimp only
      rw [hgrown, span_add, UInt64.ofNat_toNat, hrun hp', hjoin, List.map_append, ← hspan, ← hoffset',
        hoff, UInt64.add_zero]
    · dsimp only
      rw [← hoffset', hoff, UInt64.add_zero, ← UInt64.add_assoc, hrun hp', hjoin]
  · rw [if_neg hjoin]
    refine ⟨_, rfl, rfl, h.gathered_next hp hp' hleaf hg hn rfl rfl rfl ?_ ?_ hn0 ?_⟩
    · rw [Gathering.pushed, if_pos hn0, totalLength_append, totalLength_singleton]
    · rw [Gathering.pushed, if_pos hn0, flatten_append, flatten_singleton]
      dsimp only
      rw [hoffset', hspan]
    · dsimp only
      rw [hoffset']

end Cursor

/-! ### Where a walk can end -/

theorem MemoryMap.read_cases (m : MemoryMap) (host : HostMemory) (physical : UInt64) (n : ℕ) :
    m.read host physical n = .ok none ∨ m.read host physical n = .error .mapReadFault ∨
      ∃ bytes, m.read host physical n = .ok (some bytes) ∧ bytes.length = n := by
  rw [MemoryMap.read]
  split_ifs
  · exact .inl rfl
  · rw [copyOut]
    split_ifs
    · exact .inr (.inl rfl)
    · exact .inr (.inr ⟨_, rfl, by rw [List.length_map, length_span]⟩)

section Ends

variable {offset length : UInt64}

/-- The place of a copy lies in its buffer. -/
def Copying.InBuffer (length : UInt64) (s : Copying) : Prop :=
  s.dst.length = length.toNat ∧ s.current.toNat + s.remaining.toNat = length.toNat

/-- A visit of the GPU task's copy, whatever the page reads. -/
theorem InTable.gpu_visit_inBuffer (h : InTable a root depth offset length) {p : ℕ} {s : Copying}
    (hp : firstPage a offset ≤ p) (hp' : p < firstPage a offset + pageCount a offset length)
    (leaf : UInt32 × UInt32) (map : Option MemoryMap) (host : HostMemory) (hs : s.InBuffer length) :
    (∃ s', GpuTask.copyVisit a map host length (walkStart a offset) (offset &&& pageMask a) s
        (pageVisit a p leaf) = (s', none) ∧ s'.InBuffer length) ∨
      ∃ s' e, GpuTask.copyVisit a map host length (walkStart a offset) (offset &&& pageMask a) s
        (pageVisit a p leaf) = (s', some e) ∧ e ≠ .copyChunk := by
  obtain ⟨hlength, hsplit⟩ := hs
  obtain ⟨n, hn, hvisit⟩ := h.gpu_visit_eq hp hp' leaf map host hlength hsplit
  rw [hvisit]
  cases map with
  | none => exact .inl ⟨s, rfl, hlength, hsplit⟩
  | some m =>
    dsimp only
    rcases m.read_cases host (pageAddress a leaf.1 +
      UInt64.ofNat (reached a offset length p % 2 ^ pageShift a)) n.toNat with
      hread | hread | ⟨bytes, hread, hbytes⟩
    · rw [hread]
      exact .inl ⟨s, rfl, hlength, hsplit⟩
    · rw [hread]
      exact .inr ⟨s, .mapReadFault, rfl, nofun⟩
    · rw [hread]
      have hlong := length.toNat_lt
      refine .inl ⟨_, rfl, ?_, ?_⟩
      · rw [length_overwrite (by omega)]
        exact hlength
      · dsimp only
        rw [UInt64.toNat_add_of_toNat_lt (by omega), UInt64.toNat_sub_of_toNat_le (by omega)]
        omega

/-- A GPU task's copy never leaves its buffer, whatever its pages translate to and read. -/
theorem InTable.copy_ends (h : InTable a root depth offset length) (mem : GuestMemory)
    (map : Option MemoryMap)
    (host : HostMemory) {dst : List UInt8} (hdst : dst.length = length.toNat) {fuel : ℕ}
    (hfuel : depth * pageCount a offset length ≤ fuel) :
    ((PageTableWalker.new a root depth false).visitPagesInRange a mem
      (GpuTask.copyVisit a map host length (walkStart a offset) (offset &&& pageMask a)) fuel
      (walkStart a offset) (walkSize a offset (offset + length)) ⟨dst, 0, length⟩).2 ≠
        .visitor .copyChunk := by
  have hs : Copying.InBuffer length ⟨dst, 0, length⟩ := ⟨hdst, Nat.zero_add _⟩
  rw [h.walk_eq _ _ hfuel]
  rcases visitEach_rule (GpuTask.copyVisit a map host length (walkStart a offset)
    (offset &&& pageMask a)) (I := fun _ s => s.InBuffer length)
    (fun p leaf s hp hp' _ hs => h.gpu_visit_inBuffer hp hp' leaf map host hs) hs with
    ⟨s', hend, -⟩ | ⟨s', p, hend, -⟩ | ⟨s', e, hend, he⟩
  · rw [hend]
    nofun
  · rw [hend]
    nofun
  · rw [hend]
    exact fun hc => he (WalkEnd.visitor.inj hc)

/-- What a cursor's walk has left, before a page. -/
def Gathering.LeftAt (a : Arch) (offset length : UInt64) (p : ℕ) (g : Gathering) : Prop :=
  reached a offset length p + g.lengthRemaining.toNat = offset.toNat + length.toNat ∧
    g.pageOffset.toNat = if p = firstPage a offset then offset.toNat % 2 ^ pageShift a else 0

/-- A visit of the cursor's walk has a byte left, wherever the page lies. -/
theorem InTable.cursor_visit_left (h : InTable a root depth offset length) {p : ℕ} {g : Gathering}
    (hp : firstPage a offset ≤ p) (hp' : p < firstPage a offset + pageCount a offset length)
    (leaf : UInt32 × UInt32) (map : Option MemoryMap) (hg : g.LeftAt a offset length p) :
    ∃ g', GpuTask.cursorVisit a map g (pageVisit a p leaf) = (g', none) ∧
      g'.LeftAt a offset length (p + 1) := by
  obtain ⟨hdiv, hge, hlt, hmod, hnext⟩ := h.reached_spec hp hp'
  obtain ⟨hremaining, hoffset⟩ := hg
  have hbound := Nat.mod_lt (reached a offset length p) (pageBytes_pos a)
  have hsize := pageBytes_toNat a
  rw [← hmod] at hoffset
  have hn : (min (pageSize a - g.pageOffset) g.lengthRemaining).toNat =
      min (2 ^ pageShift a - reached a offset length p % 2 ^ pageShift a) g.lengthRemaining.toNat := by
    rw [UInt64.toNat_min, UInt64.toNat_sub_of_toNat_le (by omega), hsize, hoffset]
  have hne : g.lengthRemaining ≠ 0 := by
    intro hc
    rw [hc] at hremaining
    change _ + 0 = _ at hremaining
    omega
  have hnle : ¬ g.lengthRemaining < min (pageSize a - g.pageOffset) g.lengthRemaining := by
    rw [UInt64.lt_iff_toNat_lt]
    omega
  rw [GpuTask.cursorVisit, if_neg hne, if_neg hnle]
  refine ⟨_, rfl, ?_, ?_⟩
  · dsimp only
    rw [UInt64.toNat_sub_of_toNat_le (by omega)]
    omega
  · have hlater : p + 1 ≠ firstPage a offset := by omega
    rw [if_neg hlater]
    exact UInt64.toNat_zero

/-- A cursor's walk ends at the end of its range or at a hole, whatever its pages translate to. -/
theorem InTable.cursor_ends (h : InTable a root depth offset length) (mem : GuestMemory)
    (map : Option MemoryMap)
    {fuel : ℕ} (hfuel : depth * pageCount a offset length ≤ fuel) :
    ∃ g e, (PageTableWalker.new a root depth false).visitPagesInRange a mem
      (GpuTask.cursorVisit a map) fuel (walkStart a offset) (walkSize a offset (offset + length))
      { pageOffset := offset &&& pageMask a, lengthRemaining := length } = (g, e) ∧
        (e = .ok ∨ e = .raised .walkHole) := by
  have hg : Gathering.LeftAt a offset length (firstPage a offset)
      { pageOffset := offset &&& pageMask a, lengthRemaining := length } := by
    refine ⟨by rw [h.reached_first], ?_⟩
    rw [if_pos rfl, UInt64.toNat_and, pageMask_toNat, Nat.and_two_pow_sub_one_eq_mod]
  rw [h.walk_eq _ _ hfuel]
  rcases visitEach_rule (E := fun _ => False) (GpuTask.cursorVisit a map)
    (fun p leaf g hp hp' _ hg => .inl (h.cursor_visit_left hp hp' leaf map hg)) hg with
    ⟨g, hend, -⟩ | ⟨g, p, hend, -⟩ | ⟨-, -, -, hfalse⟩
  · exact ⟨g, .ok, hend, .inl rfl⟩
  · exact ⟨g, .raised .walkHole, hend, .inr rfl⟩
  · exact hfalse.elim

end Ends

/-! ### The three functions -/

section Functions

variable {taskLength offset length : UInt64} {m : MemoryMap} {d : DeviceMemory} {host : HostMemory}

/-- A task whose page table has `depth` levels below the table at page `root`. -/
def PagedTask.ofTable (a : Arch) (taskLength : UInt64) (root : UInt32) (depth : ℕ) : PagedTask where
  taskLength := taskLength
  hasRoot := true
  walker := some (PageTableWalker.new a root depth false)

theorem InTable.not_overflows (h : InTable a root depth offset length) : ¬ Overflows offset length := by
  have hlt := h.stop_lt
  rw [Overflows]
  omega

theorem ofNat_length {dst : List UInt8} (hdst : dst.length = length.toNat) :
    UInt64.ofNat dst.length = length := by
  rw [hdst, UInt64.ofNat_toNat]

/-- A copy's range check passes before the task's end. -/
theorem InTable.not_refused (h : InTable a root depth offset length)
    (hend : offset.toNat + length.toNat < taskLength.toNat) :
    ¬ (Overflows offset length ∨
      offset + length ≥ (PagedTask.ofTable a taskLength root depth).taskLength) := by
  rintro (hover | hge)
  · exact h.not_overflows hover
  · rw [ge_iff_le, UInt64.le_iff_toNat_le, h.toNat_stop] at hge
    change taskLength.toNat ≤ _ at hge
    omega

/-- The local task's copy of a range whose pages the device reads. -/
theorem InTable.local_copy (h : InTable a root depth offset length)
    (hend : offset.toNat + length.toNat < taskLength.toNat)
    (hpages : ∀ p, firstPage a offset ≤ p → p < firstPage a offset + pageCount a offset length →
      ∃ leaf, lookup a mem depth root p = some leaf ∧ d.Reads a host mem leaf.1)
    {dst : List UInt8} (hdst : dst.length = length.toNat) {fuel : ℕ}
    (hfuel : depth * pageCount a offset length ≤ fuel) :
    ∃ bytes, LocalTask.copy a (.ofTable a taskLength root depth) (some d) mem host fuel offset dst =
        (bytes, .walked .ok) ∧
      bytes.map some = taskBytes a mem depth root offset.toNat length.toNat := by
  obtain ⟨s, hwalk, hs⟩ := h.walk_all (LocalTask.copyVisit a (some d) host (walkStart a offset)
    (offset &&& pageMask a)) (fun p s hp hp' hs => by
      obtain ⟨leaf, hleaf, hreads⟩ := hpages p hp hp'
      obtain ⟨s', hvisit, hs'⟩ := h.local_visit hp hp' hleaf hreads hs
      exact ⟨leaf, s', hleaf, hvisit, hs'⟩) (h.copied_first hdst) hfuel
  refine ⟨s.dst, ?_, h.copied_last hs⟩
  rw [LocalTask.copy, ofNat_length hdst, if_neg (h.not_refused hend)]
  dsimp only [PagedTask.visitPagesInRange, PagedTask.ofTable]
  rw [hwalk]

/-- The GPU task's copy of a range whose pages the map has. -/
theorem InTable.gpu_copy (h : InTable a root depth offset length)
    (hend : offset.toNat + length.toNat < taskLength.toNat)
    (hpages : ∀ p, firstPage a offset ≤ p → p < firstPage a offset + pageCount a offset length →
      ∃ leaf, lookup a mem depth root p = some leaf ∧ Backs a m host mem leaf.1)
    {dst : List UInt8} (hdst : dst.length = length.toNat) {fuel : ℕ}
    (hfuel : depth * pageCount a offset length ≤ fuel) :
    ∃ bytes, GpuTask.copyFromVirtualOffset a (.ofTable a taskLength root depth) (some m) mem host fuel
        offset dst = (bytes, .walked .ok) ∧
      bytes.map some = taskBytes a mem depth root offset.toNat length.toNat := by
  obtain ⟨s, hwalk, hs⟩ := h.walk_all (GpuTask.copyVisit a (some m) host length
    (walkStart a offset) (offset &&& pageMask a)) (fun p s hp hp' hs => by
      obtain ⟨leaf, hleaf, hbacks⟩ := hpages p hp hp'
      obtain ⟨s', hvisit, hs'⟩ := h.gpu_visit hp hp' hleaf hbacks hs
      exact ⟨leaf, s', hleaf, hvisit, hs'⟩) (h.copied_first hdst) hfuel
  refine ⟨s.dst, ?_, h.copied_last hs⟩
  rw [GpuTask.copyFromVirtualOffset, ofNat_length hdst, if_neg (h.not_refused hend)]
  dsimp only [PagedTask.visitPagesInRange, PagedTask.ofTable]
  rw [hwalk]

/-- A cursor's checks pass up to the task's end. -/
theorem InTable.cursor_of_walk (h : InTable a root depth offset length)
    (hend : offset.toNat + length.toNat ≤ taskLength.toNat) (map : Option MemoryMap) (fuel : ℕ)
    (writable : Bool) :
    GpuTask.cursor a (.ofTable a taskLength root depth) map mem fuel offset length writable =
      match (PageTableWalker.new a root depth false).visitPagesInRange a mem
        (GpuTask.cursorVisit a map) fuel (walkStart a offset) (walkSize a offset (offset + length))
        { pageOffset := offset &&& pageMask a, lengthRemaining := length } with
      | (g, .ok) =>
        if writable && !g.allWritable then .ok none else .ok (some (Cursor.withRanges g.pushed))
      | (_, .raised _) => .ok none
      | (_, e) => .error e := by
  have hin : ¬ (Overflows offset length ∨ offset + length > taskLength) := by
    rintro (hover | hgt)
    · exact h.not_overflows hover
    · rw [gt_iff_lt, UInt64.lt_iff_toNat_lt, h.toNat_stop] at hgt
      omega
  have hroot : ¬ ¬ (PagedTask.ofTable a taskLength root depth).hasRoot = true := not_not.mpr rfl
  rw [GpuTask.cursor, if_neg hroot]
  refine (if_neg hin).trans ((if_neg h.length_ne).trans ?_)
  rfl

/-- The cursor over a range whose pages the map has. -/
theorem InTable.cursor_bytes (h : InTable a root depth offset length)
    (hend : offset.toNat + length.toNat ≤ taskLength.toNat) (writable : Bool)
    (hpages : ∀ p, firstPage a offset ≤ p → p < firstPage a offset + pageCount a offset length →
      ∃ leaf, lookup a mem depth root p = some leaf ∧ Backs a m host mem leaf.1 ∧
        (writable = true → leaf.2 ≠ 0))
    {fuel : ℕ} (hfuel : depth * pageCount a offset length ≤ fuel) :
    ∃ c, GpuTask.cursor a (.ofTable a taskLength root depth) (some m) mem fuel offset length
        writable = .ok (some c) ∧ c.length = length ∧
      (flatten host c.ranges).map some = taskBytes a mem depth root offset.toNat length.toNat := by
  have hstart : Gathered a mem depth root host offset length (firstPage a offset)
      { pageOffset := offset &&& pageMask a, lengthRemaining := length } := by
    refine ⟨by rw [h.reached_first], by rw [h.reached_first]; rfl, rfl, fun _ => ⟨rfl, rfl, ?_⟩,
      fun hc => absurd rfl hc⟩
    rw [UInt64.toNat_and, pageMask_toNat, Nat.and_two_pow_sub_one_eq_mod]
  obtain ⟨g, hwalk, hg, hwritable⟩ := h.walk_all (GpuTask.cursorVisit a (some m))
    (I := fun p g => Gathered a mem depth root host offset length p g ∧
      (writable = true → g.allWritable = true)) (fun p g hp hp' hg => by
      obtain ⟨leaf, hleaf, hbacks, hleafWritable⟩ := hpages p hp hp'
      obtain ⟨g', hvisit, hall, hg'⟩ := h.cursor_visit hp hp' hleaf hbacks hg.1
      refine ⟨leaf, g', hleaf, hvisit, hg', fun hw => ?_⟩
      rw [hall, if_neg (hleafWritable hw), hg.2 hw]) ⟨hstart, fun _ => rfl⟩ hfuel
  have htotal := hg.total
  rw [h.reached_last] at htotal
  have hlen : totalLength g.pushed = length.toNat := by omega
  have hbytes := hg.bytes
  rw [hlen] at hbytes
  have hsum : (Cursor.sumLengths 0 g.pushed).toNat = 0 + totalLength g.pushed :=
    toNat_sumLengths (by
      rw [hlen]
      exact (Nat.zero_add _).trans_lt length.toNat_lt)
  refine ⟨Cursor.withRanges g.pushed, ?_, ?_, hbytes⟩
  · rw [h.cursor_of_walk hend, hwalk]
    dsimp only
    rw [if_neg]
    rw [Bool.and_eq_true, Bool.not_eq_true', not_and]
    intro hw
    rw [hwritable hw]
    nofun
  · refine UInt64.toNat_inj.mp (hsum.trans ?_)
    rw [hlen]
    exact Nat.zero_add _

end Functions

section Functions

variable {offset length : UInt64}

/-- Every page of a range has a byte of it. -/
theorem InTable.page_of_byte (h : InTable a root depth offset length) {Q : ℕ → Prop}
    (hQ : ∀ x, offset.toNat ≤ x → x < offset.toNat + length.toNat → Q (x / 2 ^ pageShift a)) (p : ℕ)
    (hp : firstPage a offset ≤ p) (hp' : p < firstPage a offset + pageCount a offset length) : Q p := by
  obtain ⟨hdiv, hge, hlt, -, -⟩ := h.reached_spec hp hp'
  rw [← hdiv]
  exact hQ _ hge hlt

end Functions

/-- A range of a task, not empty, inside the task and below page `2^32`, in a page table that covers
the task. No GPU task's copy of it leaves its buffer, and no cursor's walk over it runs out of bytes.
Where its pages translate, and lie whole in a range of the map and read through the device, both copies
fill their buffer with its translated bytes, unless it ends at the task's end; and the cursor over it,
if not asked to write to a read-only page, is of its length and over its translated bytes. -/
theorem copies_agree (a : Arch) (mem : GuestMemory) (root : UInt32) (depth : ℕ)
    (taskLength offset length : UInt64) (hroot : root ≠ 0) (hdepth : 0 < depth ∧ depth ≤ 3)
    (hcoverage : taskLength.toNat ≤ 2 ^ (indexBits a * depth) * 2 ^ pageShift a)
    (hlength : length ≠ 0) (hend : offset.toNat + length.toNat ≤ taskLength.toNat)
    (hpage : offset.toNat + length.toNat ≤ 2 ^ 32 * 2 ^ pageShift a) :
    ∃ enough, ∀ fuel ≥ enough,
      (∀ map host dst, dst.length = length.toNat →
        (GpuTask.copyFromVirtualOffset a (.ofTable a taskLength root depth) map mem host fuel offset
          dst).2 ≠ .walked (.visitor .copyChunk)) ∧
      (∀ map writable, GpuTask.cursor a (.ofTable a taskLength root depth) map mem fuel offset length
        writable ≠ .error (.visitor .cursorLength)) ∧
      ∀ (m : MemoryMap) (d : DeviceMemory) (host : HostMemory),
        (∀ x, offset.toNat ≤ x → x < offset.toNat + length.toNat →
          ∃ leaf, lookup a mem depth root (x / 2 ^ pageShift a) = some leaf ∧
            Backs a m host mem leaf.1 ∧ d.Reads a host mem leaf.1) →
        (offset.toNat + length.toNat < taskLength.toNat → ∀ dst, dst.length = length.toNat →
          ∃ bytes,
            LocalTask.copy a (.ofTable a taskLength root depth) (some d) mem host fuel offset dst =
              (bytes, .walked .ok) ∧
            GpuTask.copyFromVirtualOffset a (.ofTable a taskLength root depth) (some m) mem host fuel
              offset dst = (bytes, .walked .ok) ∧
            bytes.map some = taskBytes a mem depth root offset.toNat length.toNat) ∧
        ∀ writable, (writable = true → ∀ x, offset.toNat ≤ x → x < offset.toNat + length.toNat →
            ∀ leaf, lookup a mem depth root (x / 2 ^ pageShift a) = some leaf → leaf.2 ≠ 0) →
          ∃ c, GpuTask.cursor a (.ofTable a taskLength root depth) (some m) mem fuel offset length
              writable = .ok (some c) ∧ c.length = length ∧
            (flatten host c.ranges).map some =
              taskBytes a mem depth root offset.toNat length.toNat := by
  have h : InTable a root depth offset length :=
    ⟨hroot, hdepth.1, hdepth.2, hlength, hend.trans hcoverage, hpage⟩
  refine ⟨depth * pageCount a offset length, fun fuel hfuel => ⟨?_, ?_, ?_⟩⟩
  · intro map host dst hdst
    rw [GpuTask.copyFromVirtualOffset, ofNat_length hdst]
    split_ifs
    · nofun
    · have hends := h.copy_ends mem map host hdst hfuel
      exact fun hc => hends (CopyEnd.walked.inj hc)
  · intro map writable
    obtain ⟨g, e, hwalk, he⟩ := h.cursor_ends mem map hfuel
    rw [h.cursor_of_walk hend, hwalk]
    rcases he with rfl | rfl
    · dsimp only
      split_ifs <;> nofun
    · nofun
  · intro m d host hpages
    have hread := h.page_of_byte (Q := fun p => ∃ leaf, lookup a mem depth root p = some leaf ∧
      Backs a m host mem leaf.1 ∧ d.Reads a host mem leaf.1) hpages
    constructor
    · intro hend' dst hdst
      obtain ⟨bytes, hlocal, hbytes⟩ := h.local_copy hend' (fun p hp hp' => by
        obtain ⟨leaf, hleaf, -, hreads⟩ := hread p hp hp'
        exact ⟨leaf, hleaf, hreads⟩) hdst hfuel
      obtain ⟨bytes', hgpu, hbytes'⟩ := h.gpu_copy hend' (fun p hp hp' => by
        obtain ⟨leaf, hleaf, hbacks, -⟩ := hread p hp hp'
        exact ⟨leaf, hleaf, hbacks⟩) hdst hfuel
      obtain rfl : bytes' = bytes :=
        List.map_injective_iff.mpr (Option.some_injective _) (hbytes'.trans hbytes.symm)
      exact ⟨bytes', hlocal, hgpu, hbytes⟩
    · intro writable hwritable
      refine h.cursor_bytes hend writable (fun p hp hp' => ?_) hfuel
      obtain ⟨leaf, hleaf, hbacks, -⟩ := hread p hp hp'
      exact ⟨leaf, hleaf, hbacks, fun hw => h.page_of_byte (Q := fun p => ∀ leaf,
        lookup a mem depth root p = some leaf → leaf.2 ≠ 0) (hwritable hw) p hp hp' leaf hleaf⟩

/-- Guest memory with a table of one level at page 1, in 4 KiB pages: pages 0 and 1 of a task are the
guest's pages 5 and 9, the second read-only. -/
def twoPages : GuestMemory := fun x =>
  if x = 0x1000 then 5
  else if x = 0x1003 then 0x80
  else if x = 0x1004 then 9
  else if x < 0x2000 then 0
  else UInt8.ofNat (x / 3)

/-- Where the host has guest memory. -/
def hostOf (mem : GuestMemory) : HostMemory := fun x => mem (x - 0x100000000).toNat

/-- A map of the first `length` bytes of guest memory. -/
def mapOf (length : UInt64) (h : MemoryMap.accept [⟨0, length, 0x100000000⟩] ≠ none) : MemoryMap where
  ranges := (MemoryMap.accept [⟨0, length, 0x100000000⟩]).getD []
  accepted := ⟨_, by
    obtain ⟨ranges, hranges⟩ := Option.ne_none_iff_exists'.mp h
    rw [hranges]
    rfl⟩

theorem backs_hostOf {m : MemoryMap} {page : UInt32}
    (h : m.virtualAddressForPhysical (pageAddress .x86_64 page) (pageSize .x86_64) =
      0x100000000 + pageAddress .x86_64 page) : Backs .x86_64 m (hostOf mem) mem page := by
  have hpage := toNat_pageAddress .x86_64 page
  have hlt := page.toNat_lt
  have hshift : 2 ^ pageShift .x86_64 = 4096 := rfl
  rw [hshift] at hpage
  have hbase : (0x100000000 + pageAddress .x86_64 page).toNat = 0x100000000 + page.toNat * 4096 := by
    rw [UInt64.toNat_add_of_toNat_lt, hpage]
    · rfl
    · rw [hpage]
      change 0x100000000 + _ < _
      omega
  refine ⟨?_, fun k hk => ?_⟩
  · rw [h, Accessible, hbase, zeroRegionEnd]
    change _ ∧ _ + 4096 < _
    omega
  · have hsum := toNat_pageAddress_add .x86_64 page hk.le
    rw [h, hostOf, UInt64.add_assoc, UInt64.add_comm, UInt64.add_sub_cancel, hsum]

/-- The task's bytes from the middle of its first page to the middle of the second. -/
theorem twoPages_copied :
    ∃ enough, ∀ fuel ≥ enough,
      (∃ bytes,
        LocalTask.copy .x86_64 (.ofTable .x86_64 0x2000 1 1)
            (some ⟨some (mapOf 0x10000 (by decide)), none, fun _ => none⟩) twoPages (hostOf twoPages)
            fuel 0x800 (List.replicate 0x1000 0) = (bytes, .walked .ok) ∧
          GpuTask.copyFromVirtualOffset .x86_64 (.ofTable .x86_64 0x2000 1 1)
            (some (mapOf 0x10000 (by decide))) twoPages (hostOf twoPages) fuel 0x800
            (List.replicate 0x1000 0) = (bytes, .walked .ok)) ∧
      ∃ c, GpuTask.cursor .x86_64 (.ofTable .x86_64 0x2000 1 1) (some (mapOf 0x10000 (by decide)))
          twoPages fuel 0x800 0x1000 false = .ok (some c) ∧ c.length = 0x1000 := by
  have hpages : ∀ x, 0x800 ≤ x → x < 0x800 + 0x1000 →
      ∃ leaf, lookup .x86_64 twoPages 1 1 (x / 2 ^ pageShift .x86_64) = some leaf ∧
        Backs .x86_64 (mapOf 0x10000 (by decide)) (hostOf twoPages) twoPages leaf.1 ∧
        DeviceMemory.Reads .x86_64 ⟨some (mapOf 0x10000 (by decide)), none, fun _ => none⟩
          (hostOf twoPages) twoPages leaf.1 := by
    intro x hx hx'
    have hcases : x / 2 ^ pageShift .x86_64 = 0 ∨ x / 2 ^ pageShift .x86_64 = 1 := by
      change x / 4096 = 0 ∨ x / 4096 = 1
      omega
    rcases hcases with hpage | hpage
    · rw [hpage]
      exact ⟨(5, 1), rfl, backs_hostOf rfl, backs_hostOf rfl⟩
    · rw [hpage]
      exact ⟨(9, 0), rfl, backs_hostOf rfl, backs_hostOf rfl⟩
  obtain ⟨enough, henough⟩ := copies_agree .x86_64 twoPages 1 1 0x2000 0x800 0x1000 (by decide)
    (by decide) (by decide) (by decide) (by decide) (by decide)
  refine ⟨enough, fun fuel hfuel => ?_⟩
  obtain ⟨hcopies, hcursor⟩ := (henough fuel hfuel).2.2 _ _ _ hpages
  obtain ⟨bytes, hlocal, hgpu, -⟩ := hcopies (by decide) (List.replicate 0x1000 0)
    List.length_replicate
  obtain ⟨c, hc, hlength, -⟩ := hcursor false nofun
  exact ⟨⟨bytes, hlocal, hgpu⟩, c, hc, hlength⟩

/-- Three levels of tables in 16 KiB pages: a task's page `2^32` is the guest's page 4. -/
def deepTable : GuestMemory := fun x =>
  if x = 0x4400 then 2 else if x = 0x8000 then 3 else if x = 0xc000 then 4 else 0

/-- The copies refuse a range that ends at the task's end; a cursor over no bytes is none; a cursor
over a page whose first half only the map has is at NULL, where the copy reads the half; and a copy from
page `2^32` on dies, though the page translates. -/
theorem copies_differ_at_edges :
    (∀ mem host fuel device map,
      LocalTask.copy .x86_64 (.ofTable .x86_64 0x2000 1 1) device mem host fuel 0x1fff [0] =
          ([0], .outOfRange) ∧
        GpuTask.copyFromVirtualOffset .x86_64 (.ofTable .x86_64 0x2000 1 1) map mem host fuel 0x1fff
          [0] = ([0], .outOfRange)) ∧
    (∀ mem fuel map, GpuTask.cursor .x86_64 (.ofTable .x86_64 0x2000 1 1) map mem fuel 0x800 0 false =
      .ok none) ∧
    (GpuTask.copyFromVirtualOffset .x86_64 (.ofTable .x86_64 0x2000 1 1)
        (some (mapOf 0x5800 (by decide))) twoPages (hostOf twoPages) 1 0 [0] =
          ([twoPages 0x5000], .walked .ok) ∧
      GpuTask.cursor .x86_64 (.ofTable .x86_64 0x2000 1 1) (some (mapOf 0x5800 (by decide))) twoPages 1
        0 1 false = .ok (some (.withRanges [⟨0, 1⟩]))) ∧
    lookup .other deepTable 3 1 (2 ^ 32) = some (4, 0) ∧
    GpuTask.copyFromVirtualOffset .other (.ofTable .other (2 ^ 50) 1 3)
        (some (mapOf 0x20000 (by decide))) deepTable (hostOf deepTable) 3 (2 ^ 46) [0] =
      ([0], .walked (.died .walkEntryPastTable)) := by
  refine ⟨fun _ _ _ _ _ => ⟨rfl, rfl⟩, fun _ _ _ => rfl, ⟨?_, ?_⟩, ?_, ?_⟩
  · decide +kernel
  · decide +kernel
  · decide +kernel
  · decide +kernel

end ReimsVgpu.Memory
