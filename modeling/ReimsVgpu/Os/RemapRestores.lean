import ReimsVgpu.Os.Remap

/-!
# A refused view changes nothing

The kernel agrees with the table where each byte that the table resolves shows what the table says. A
view that the kernel refuses at one of its pieces leaves the table as it was, and every byte of a page
that the table resolves whole as it was; a view that succeeds leaves the kernel in agreement.

## Main definitions

* `Memory.Agrees`, `Table.SamePages`: the table and the kernel agree, and registrations do.
* `Table.Whole`: a byte of a page of which each byte has a file.

## Main results

* `remapSharedOverwrite_restores`.
-/

namespace ReimsVgpu.Os

variable {φ ψ : Type*} {f : φ → ψ} {page : ℕ+} {k k' : Kernel ψ} {first last x : ℕ}

/-! ### Whole pages -/

theorem roundUp_of_dvd {length : ℕ} (h : (page : ℕ) ∣ length) : roundUp page length = length := by
  obtain ⟨n, rfl⟩ := h
  have hpos := page.pos
  rw [roundUp, Nat.mul_add_div hpos, Nat.div_eq_of_lt (by omega), Nat.add_zero, Nat.mul_comm]

theorem le_roundUp (page : ℕ+) (length : ℕ) : length ≤ roundUp page length := by
  have hpos := page.pos
  have hmod := Nat.mod_lt (length + (page - 1)) hpos
  have hdiv := Nat.div_add_mod' (length + (page - 1)) page
  unfold roundUp
  omega

theorem dvd_roundUp (page : ℕ+) (length : ℕ) : (page : ℕ) ∣ roundUp page length :=
  Nat.dvd_mul_left _ _

theorem roundUp_le {length high : ℕ} (h : length ≤ high) (hhigh : (page : ℕ) ∣ high) :
    roundUp page length ≤ high := by
  have hpos := page.pos
  rw [← roundUp_of_dvd hhigh]
  exact Nat.mul_le_mul_right _ (Nat.div_le_div_right (Nat.add_le_add_right h _))

/-- The byte of a page's start. -/
theorem page_start {q : ℕ} (hq : (page : ℕ) ∣ q) (hle : q ≤ x) (hlt : x < q + page) (y : ℕ) :
    y / page = x / page ↔ q ≤ y ∧ y < q + page := by
  obtain ⟨n, rfl⟩ := hq
  have hpos := page.pos
  have hx : x / page = n := Nat.div_eq_of_lt_le (by rwa [Nat.mul_comm]) (by
    rw [Nat.succ_mul, Nat.mul_comm n]
    exact hlt)
  rw [hx, Nat.div_eq_iff hpos, Nat.mul_comm n, Nat.lt_iff_le_pred (by omega)]

/-- A page's start before an end of a page has the page before it. -/
theorem add_page_le {q stop : ℕ} (hq : (page : ℕ) ∣ q) (hstop : (page : ℕ) ∣ stop) (h : q < stop) :
    q + page ≤ stop := by
  obtain ⟨n, rfl⟩ := hq
  obtain ⟨m, rfl⟩ := hstop
  have hlt : n < m := Nat.lt_of_mul_lt_mul_left h
  calc page * n + page = page * (n + 1) := (Nat.mul_succ _ _).symm
    _ ≤ page * m := Nat.mul_le_mul_left _ hlt

/-! ### Calls of the kernel -/

namespace Kernel

/-- A call is granted, with its effect, or is refused with none. -/
theorem call_cases (k : Kernel ψ) (allowed : Bool) (shows : ℕ → Option (Shown ψ)) :
    (allowed = true ∧ (k.call allowed shows).1 = true ∧
        (k.call allowed shows).2.refused = k.refused ∧ (k.call allowed shows).2.shows = shows) ∨
      ((k.call allowed shows).1 = false ∧ (k.call allowed shows).2.refused = k.refused + 1 ∧
        (k.call allowed shows).2.shows = k.shows) := by
  rw [call]
  split_ifs with hgrant
  · exact .inl ⟨(Bool.and_eq_true_iff.mp hgrant).1, rfl, rfl, rfl⟩
  · exact .inr ⟨rfl, rfl, rfl⟩

/-- What a granted view of a file leaves. -/
structure Filed (k k' : Kernel ψ) (f : φ → ψ) (page : ℕ+) (first length : ℕ) (backing : Backing φ)
    (prot : ℤ) : Prop where
  aligned : (page : ℕ) ∣ first
  refused : k'.refused = k.refused
  inside : ∀ x, first ≤ x → x < first + roundUp page length →
    k'.shows x = some ⟨f backing.fd, backing.offset + UInt64.ofNat (x - first), prot⟩
  outside : ∀ x, x < first ∨ first + roundUp page length ≤ x → k'.shows x = k.shows x

theorem file_cases (k : Kernel ψ) (f : φ → ψ) (page : ℕ+) (first length : ℕ) (backing : Backing φ)
    (prot : ℤ) :
    ((k.file f page first length backing prot).1 = true ∧
        Filed k (k.file f page first length backing prot).2 f page first length backing prot) ∨
      ((k.file f page first length backing prot).1 = false ∧
        (k.file f page first length backing prot).2.refused = k.refused + 1 ∧
        (k.file f page first length backing prot).2.shows = k.shows) := by
  rcases k.call_cases (first % page = 0 ∧ backing.offset.toNat % page = 0 ∧
      backing.offset.toNat < 2 ^ 63) (k.covered page first length fun x =>
        some ⟨f backing.fd, backing.offset + UInt64.ofNat (x - first), prot⟩) with
    ⟨hallowed, hgranted, hrefused, hshows⟩ | hno
  · refine .inl ⟨hgranted, Nat.dvd_of_mod_eq_zero (of_decide_eq_true hallowed).1, hrefused,
      fun x hle hlt => ?_, fun x hx => ?_⟩
    · exact (congrFun hshows x).trans (if_pos ⟨hle, hlt⟩)
    · exact (congrFun hshows x).trans (if_neg (by omega))
  · exact .inr hno

theorem files_cons (k : Kernel ψ) (f : φ → ψ) (page : ℕ+) (first : ℕ) (p : Piece φ)
    (pieces : List (Piece φ)) :
    (∃ k₁, Filed k k₁ f page (first + p.start) p.length p.backing p.prot ∧
        k.files f page first (p :: pieces) = k₁.files f page first pieces) ∨
      (k.files f page first (p :: pieces)).2.refused = k.refused + 1 := by
  rw [files]
  have hcases := k.file_cases f page (first + p.start) p.length p.backing p.prot
  generalize k.file f page (first + p.start) p.length p.backing p.prot = call at hcases ⊢
  obtain ⟨granted, k₁⟩ := call
  rcases hcases with ⟨rfl, hfiled⟩ | ⟨rfl, hrefused, -⟩
  · exact .inl ⟨k₁, hfiled, rfl⟩
  · exact .inr hrefused

theorem refused_le_files (k : Kernel ψ) (f : φ → ψ) (page : ℕ+) (first : ℕ)
    (pieces : List (Piece φ)) : k.refused ≤ (k.files f page first pieces).2.refused := by
  induction pieces generalizing k with
  | nil => exact le_rfl
  | cons p pieces ih =>
    rcases files_cons k f page first p pieces with ⟨k₁, hfiled, heq⟩ | hrefused
    · rw [heq, ← hfiled.refused]
      exact ih k₁
    · rw [hrefused]
      exact Nat.le_succ _

/-- Files mapped with no call refused, over whole pages. -/
theorem files_granted {pieces : List (Piece φ)} {low high : ℕ} (htiles : Tiles low pieces high)
    (hhigh : (page : ℕ) ∣ first + high)
    (h : (k.files f page first pieces).2.refused = k.refused) :
    (k.files f page first pieces).1 = true ∧ (page : ℕ) ∣ first + low ∧
      (∀ p ∈ pieces, ∀ i < p.length,
        (k.files f page first pieces).2.shows (first + p.start + i) = some ((p.shown i).map f)) ∧
      ∀ x, x < first + low ∨ first + high ≤ x →
        (k.files f page first pieces).2.shows x = k.shows x := by
  induction pieces generalizing k low with
  | nil =>
    obtain rfl : low = high := htiles
    exact ⟨rfl, hhigh, fun p hp => absurd hp List.not_mem_nil, fun _ _ => rfl⟩
  | cons p pieces ih =>
    obtain ⟨rfl, -, htiles⟩ := htiles
    have hle := htiles.le
    rcases files_cons k f page first p pieces with ⟨k₁, hfiled, heq⟩ | hrefused
    · rw [heq] at h ⊢
      obtain ⟨hgranted, hnext, hpieces, hsame⟩ := ih htiles (h.trans hfiled.refused.symm)
      -- The piece is whole pages, as the next one starts a page.
      have hlength : roundUp page p.length = p.length := by
        rw [← Nat.add_assoc] at hnext
        exact roundUp_of_dvd ((Nat.dvd_add_right hfiled.aligned).mp hnext)
      refine ⟨hgranted, hfiled.aligned, fun q hq i hi => ?_, fun x hx => ?_⟩
      · rcases List.mem_cons.mp hq with rfl | hq
        · rw [hsame _ (.inl (by omega)), hfiled.inside _ (by omega) (by omega),
            Nat.add_sub_cancel_left]
          rfl
        · exact hpieces q hq i hi
      · rw [hsame x (by omega)]
        exact hfiled.outside x (by omega)
    · omega

end Kernel

/-! ### The table and the kernel -/

namespace Table

/-- The kernel shows what the table's entries say: the run of a byte, or each of its registrations. -/
structure Shows (t : Table φ) (f : φ → ψ) (shows : ℕ → Option (Shown ψ)) : Prop where
  runs : ∀ x s, t.shownAt x = some s → shows x = some (s.map f)
  registered : ∀ x, t.shownAt x = none → ∀ r ∈ t.registered, r.first ≤ x → x < r.stop →
    shows x = some ((r.shown x).map f)

/-- The registrations that hold a byte show the same byte of the same file. -/
def SamePages (t : Table φ) (f : φ → ψ) : Prop :=
  ∀ r ∈ t.registered, ∀ r' ∈ t.registered, ∀ x, r.first ≤ x → x < r.stop → r'.first ≤ x →
    x < r'.stop → (r.shown x).map f = (r'.shown x).map f

variable {t : Table φ} {shows : ℕ → Option (Shown ψ)}

/-- Registrations that hold no byte in common show no page differently. -/
theorem samePages_of_apart
    (h : t.registered.Pairwise fun r r' => r.stop ≤ r'.first ∨ r'.stop ≤ r.first) :
    t.SamePages f := by
  let Same (r r' : Registered φ) : Prop := ∀ x, r.first ≤ x → x < r.stop → r'.first ≤ x →
    x < r'.stop → (r.shown x).map f = (r'.shown x).map f
  have hpairwise : t.registered.Pairwise Same := h.imp fun hapart x _ _ _ _ => by omega
  have : Std.Symm Same := ⟨fun _ _ hsame x hle hlt hle' hlt' => (hsame x hle' hlt' hle hlt).symm⟩
  exact fun r hr r' hr' => hpairwise.forall_of_forall (fun _ _ _ _ _ _ _ => rfl) hr hr'

theorem shows_of_fileAt (hsame : t.SamePages f)
    (h : ∀ x s, t.fileAt x = some s → shows x = some (s.map f)) : t.Shows f shows := by
  refine ⟨fun x s hs => h x s (fileAt_of_shownAt hs), fun x hnone r hr hle hlt => ?_⟩
  have hfile := fileAt_ne_none hr hle hlt
  rw [fileAt_of_none hnone] at hfile
  obtain ⟨r', hr'⟩ := Option.ne_none_iff_exists'.mp (mt Option.map_eq_none_iff.mpr hfile)
  obtain ⟨hmem, hle', hlt'⟩ := registeredAt_mem hr'
  rw [h x (r'.shown x) (by rw [fileAt_of_none hnone, hr', Option.map_some]),
    hsame r hr r' hmem x hle hlt hle' hlt']

/-- What a piece shows is what memory shows. -/
theorem Shows.of_pieceOf (h : t.Shows f shows) {p : Piece φ} (hp : t.PieceOf first p) {i : ℕ}
    (hi : i < p.length) : shows (first + p.start + i) = some ((p.shown i).map f) := by
  rcases hp with hrun | ⟨r, hreg, hbytes⟩
  · exact h.runs _ _ (hrun i hi)
  · obtain ⟨hmem, hle, -⟩ := registeredAt_mem hreg
    obtain ⟨hnone, hlt, hshown⟩ := hbytes i hi
    rw [hshown]
    exact h.registered _ hnone r hmem (hle.trans (Nat.le_add_right _ i)) hlt

/-- A byte of a page of which each byte has a file. -/
def Whole (t : Table φ) (page : ℕ+) (x : ℕ) : Prop := ∀ y, y / page = x / page → t.fileAt y ≠ none

theorem hasFile_iff (hr : RunMap.Runs Run.stop t.runs) (hwithin : t.Within) {q : ℕ}
    (hq : (page : ℕ) ∣ q) (hlt : q < 2 ^ 64) (hle : q ≤ x) (hx : x < q + page) :
    t.hasFile page q = true ↔ t.Whole page x := by
  rw [hasFile, Option.isSome_iff_ne_none, ne_eq, pieces_eq_none_iff hr hwithin hlt]
  constructor
  · intro hall y hy hnone
    obtain ⟨hqy, hyq⟩ := (page_start hq hle hx y).mp hy
    exact hall ⟨y, hqy, hyq, hnone⟩
  · rintro hwhole ⟨y, hqy, hyq, hnone⟩
    exact hwhole y ((page_start hq hle hx y).mpr ⟨hqy, hyq⟩) hnone

/-- The pages up to the end are alike. -/
theorem alike_spec {stop fuel : ℕ} {filed : Bool} (hlast : (page : ℕ) ∣ last)
    (hfuel : stop - last ≤ fuel) :
    last ≤ t.alike page stop filed fuel last ∧ (page : ℕ) ∣ t.alike page stop filed fuel last ∧
      ∀ q, (page : ℕ) ∣ q → last ≤ q → q < t.alike page stop filed fuel last →
        q < stop ∧ t.hasFile page q = filed := by
  have hpos := page.pos
  induction fuel generalizing last with
  | zero => exact ⟨le_rfl, hlast, fun q _ hle hlt => absurd hlt hle.not_gt⟩
  | succ fuel ih =>
    rw [alike]
    split_ifs with hmore
    · obtain ⟨hle, hdvd, hall⟩ := ih (Nat.dvd_add hlast dvd_rfl) (by omega)
      refine ⟨(Nat.le_add_right last page).trans hle, hdvd, fun q hq hle' hlt => ?_⟩
      rcases hle'.eq_or_lt with rfl | hgt
      · exact hmore
      · exact hall q hq (add_page_le hlast hq hgt) hlt
    · exact ⟨le_rfl, hlast, fun q _ hle hlt => absurd hlt hle.not_gt⟩

theorem Exact.registered_recordAll [DecidableEq φ] (h : t.Exact) (target : ℕ)
    (pieces : List (Piece φ)) (hword : ∀ p ∈ pieces, target + p.start < 2 ^ 64) :
    (t.recordAll target pieces).registered = t.registered := by
  induction pieces generalizing t with
  | nil => rfl
  | cons p pieces ih =>
    obtain ⟨hp, hword⟩ := List.forall_mem_cons.mp hword
    have hle : target + p.start ≤ stopOf (target + p.start) p.length := by
      unfold stopOf
      omega
    have hstep := h.record hle p.backing p.prot
    exact (ih hstep.toExact hword).trans hstep.registered_eq

end Table

theorem Tiles.exists_mem {pieces : List (Piece φ)} {low high y : ℕ} (h : Tiles low pieces high)
    (hle : low ≤ y) (hlt : y < high) : ∃ p ∈ pieces, p.start ≤ y ∧ y < p.start + p.length := by
  induction pieces generalizing low with
  | nil => exact absurd (h ▸ hlt) hle.not_gt
  | cons p pieces ih =>
    obtain ⟨rfl, -, hrest⟩ := h
    rcases lt_or_ge y (p.start + p.length) with hin | hpast
    · exact ⟨p, List.mem_cons_self, hle, hin⟩
    · obtain ⟨q, hq, hy⟩ := ih hrest hpast
      exact ⟨q, List.mem_cons_of_mem _ hq, hy⟩

theorem Tiles.le_of_mem {pieces : List (Piece φ)} {low high : ℕ} (h : Tiles low pieces high)
    {p : Piece φ} (hp : p ∈ pieces) : p.start + p.length ≤ high := by
  induction pieces generalizing low with
  | nil => exact absurd hp List.not_mem_nil
  | cons q pieces ih =>
    obtain ⟨rfl, -, hrest⟩ := h
    rcases List.mem_cons.mp hp with rfl | hp
    · exact hrest.le
    · exact ih hrest hp

/-! ### The put-back -/

namespace Memory

variable {m : Memory φ ψ} {shows : ℕ → Option (Shown ψ)} {filed : Bool} {stop : ℕ}

theorem start_le (page : ℕ+) (x : ℕ) : (page : ℕ) ∣ x - x % page ∧ x - x % page ≤ x ∧
    x < x - x % page + page := by
  have hmod := Nat.mod_lt x page.pos
  have hle := Nat.mod_le x page
  exact ⟨Nat.dvd_sub_mod x, Nat.sub_le _ _, by omega⟩

theorem le_start {q : ℕ} (hq : (page : ℕ) ∣ q) (h : q ≤ x) : q ≤ x - x % page := by
  obtain ⟨hdvd, -, hlt⟩ := start_le page x
  by_contra hgt
  exact absurd (add_page_le hdvd hq (not_le.mp hgt)) (h.trans_lt hlt).not_ge

theorem refused_le_restore (m : Memory φ ψ) (f : φ → ψ) (page : ℕ+) (filed : Bool)
    (first last : ℕ) : m.kernel.refused ≤ (m.restore f page filed first last).2.refused := by
  rw [restore]
  split_ifs
  · split
    · exact Kernel.refused_le_files _ _ _ _ _
    · exact le_rfl
  · have hanonymous := m.kernel.call_cases (first % page = 0)
      (m.kernel.covered page first (last - first) fun _ => none)
    rw [← Kernel.anonymous] at hanonymous
    generalize m.kernel.anonymous page first (last - first) = call at hanonymous ⊢
    obtain ⟨granted, k⟩ := call
    rcases hanonymous with ⟨-, rfl, hrefused, -⟩ | ⟨rfl, hrefused, -⟩
    · rcases k.call_cases true k.shows with ⟨-, -, hsame, -⟩ | ⟨-, hsame, -⟩
      · exact (hsame.trans hrefused).ge
      · exact ((Nat.le_succ _).trans_eq (hsame.trans (congrArg Nat.succ hrefused)).symm)
    · exact (Nat.le_succ _).trans_eq hrefused.symm

/-- Pages mapped back with no call refused: a byte of a whole page shows what it did. -/
theorem restore_granted (hr : RunMap.Runs Run.stop m.table.runs) (hwithin : m.table.Within)
    (hshows : m.table.Shows f shows) (hfirst : (page : ℕ) ∣ first) (hlast : (page : ℕ) ∣ last)
    (hlt : first < last) (hword : last < 2 ^ 64)
    (halike : ∀ q, (page : ℕ) ∣ q → first ≤ q → q < last → m.table.hasFile page q = filed)
    (h : (m.restore f page filed first last).2.refused = m.kernel.refused) :
    (m.restore f page filed first last).1 = true ∧
      (∀ x, first ≤ x → x < last → m.table.Whole page x →
        (m.restore f page filed first last).2.shows x = shows x) ∧
      ∀ x, x < first ∨ last ≤ x →
        (m.restore f page filed first last).2.shows x = m.kernel.shows x := by
  -- A byte of these pages is of a whole page exactly where they have files.
  have hwhole : ∀ x, first ≤ x → x < last → (filed = true ↔ m.table.Whole page x) := by
    intro x hle hx
    obtain ⟨hdvd, hstart, hend⟩ := start_le page x
    rw [← Table.hasFile_iff hr hwithin hdvd ((hstart.trans_lt hx).trans hword) hstart hend,
      halike _ hdvd (le_start hfirst hle) (hstart.trans_lt hx)]
  have hlength : first + (last - first) = last := Nat.add_sub_of_le hlt.le
  rw [restore] at h ⊢
  cases filed with
  | true =>
    rw [if_pos rfl] at h ⊢
    have hwalked := Table.pieces_walked hr hwithin (hlt.trans hword) (last - first)
    rw [hlength] at hwalked
    cases hpieces : m.table.pieces first (last - first) with
    | none =>
      rw [hpieces] at hwalked
      obtain ⟨y, hle, hy, hnone⟩ := hwalked
      exact absurd hnone ((hwhole y hle hy).mp rfl y rfl)
    | some pieces =>
      rw [hpieces] at hwalked h
      obtain ⟨htiles, hof, -⟩ := hwalked
      rw [Nat.sub_self] at htiles
      dsimp only at h ⊢
      obtain ⟨hgranted, -, hin, hout⟩ := Kernel.files_granted htiles (hlength.symm ▸ hlast) h
      refine ⟨hgranted, fun x hle hx _ => ?_, fun x hx => hout x (by omega)⟩
      obtain ⟨p, hp, hpx, hxp⟩ := htiles.exists_mem (Nat.zero_le (x - first)) (by omega)
      have hbyte : first + p.start + (x - first - p.start) = x := by omega
      have hi : x - first - p.start < p.length := by omega
      have hsame := (hin p hp _ hi).trans (hshows.of_pieceOf (hof p hp) hi).symm
      rwa [hbyte] at hsame
  | false =>
    rw [if_neg Bool.false_ne_true] at h ⊢
    have hround : first + roundUp page (last - first) = last := by
      rw [roundUp_of_dvd (Nat.dvd_sub hlast hfirst), hlength]
    have hanonymous := m.kernel.call_cases (first % page = 0)
      (m.kernel.covered page first (last - first) fun _ => none)
    rw [← Kernel.anonymous] at hanonymous
    generalize m.kernel.anonymous page first (last - first) = call at hanonymous h ⊢
    obtain ⟨granted, k⟩ := call
    rcases hanonymous with ⟨-, rfl, hrefused, hover⟩ | ⟨rfl, hrefused, -⟩
    · dsimp only at h hrefused hover ⊢
      rcases k.call_cases true k.shows with ⟨-, hgranted, -, hsame⟩ | ⟨-, hmore, -⟩
      · refine ⟨hgranted, fun x hle hx hwholex => ?_, fun x hx => ?_⟩
        · exact absurd ((hwhole x hle hx).mpr hwholex) Bool.false_ne_true
        · rw [Kernel.protectNone, hsame, hover, Kernel.covered, if_neg (by omega)]
      · have hcount : k.protectNone.2.refused = k.refused + 1 := hmore
        omega
    · dsimp only at h hrefused
      omega

variable [DecidableEq φ]

/-- Pages that are alike are mapped back, and then the pages from there on. -/
theorem putBackFrom_succ (f : φ → ψ) (page : ℕ+) {stop first : ℕ} (fuel : ℕ) (m : Memory φ ψ)
    (h : first < stop) : ∃ last table,
      last = m.table.alike page stop (m.table.hasFile page first) fuel (first + page) ∧
      ((m.restore f page (m.table.hasFile page first) first last).1 = true → table = m.table) ∧
      putBackFrom f page stop (fuel + 1) first m = putBackFrom f page stop fuel last
        ⟨table, (m.restore f page (m.table.hasFile page first) first last).2⟩ := by
  let last := m.table.alike page stop (m.table.hasFile page first) fuel (first + page)
  refine ⟨last, if (m.restore f page (m.table.hasFile page first) first last).1 then m.table
    else m.table.forget first (stopOf first (last - first)), rfl, fun h => if_pos h, ?_⟩
  rw [putBackFrom, if_pos h]

theorem refused_le_putBackFrom (f : φ → ψ) (page : ℕ+) (stop fuel first : ℕ) (m : Memory φ ψ) :
    m.kernel.refused ≤ (putBackFrom f page stop fuel first m).kernel.refused := by
  induction fuel generalizing first m with
  | zero => exact le_rfl
  | succ fuel ih =>
    by_cases hmore : first < stop
    · obtain ⟨last, table, -, -, heq⟩ := putBackFrom_succ f page fuel m hmore
      rw [heq]
      refine (refused_le_restore m f page (m.table.hasFile page first) first last).trans ?_
      exact ih last ⟨table, _⟩
    · rw [putBackFrom, if_neg hmore]

/-- A put-back with no call refused leaves the table, and bytes of whole pages as they showed. -/
theorem putBackFrom_granted (hr : RunMap.Runs Run.stop m.table.runs) (hwithin : m.table.Within)
    (hshows : m.table.Shows f shows) {high fuel : ℕ} (hfirst : (page : ℕ) ∣ first)
    (hfuel : stop - first ≤ fuel) (hhigh : (page : ℕ) ∣ high) (hstop : stop ≤ high)
    (hword : high < 2 ^ 64)
    (h : (putBackFrom f page stop fuel first m).kernel.refused = m.kernel.refused) :
    (putBackFrom f page stop fuel first m).table = m.table ∧
      (∀ x, first ≤ x → x - x % page < stop → m.table.Whole page x →
        (putBackFrom f page stop fuel first m).kernel.shows x = shows x) ∧
      ∀ x, x < first ∨ stop ≤ x - x % page →
        (putBackFrom f page stop fuel first m).kernel.shows x = m.kernel.shows x := by
  have hpos := page.pos
  have hdone (hend : stop ≤ first) (x : ℕ) (hle : first ≤ x) (hx : x - x % page < stop) : False := by
    have := le_start hfirst hle
    omega
  induction fuel generalizing first m with
  | zero => exact ⟨rfl, fun x hle hx => (hdone (by omega) x hle hx).elim, fun _ _ => rfl⟩
  | succ fuel ih =>
    by_cases hmore : first < stop
    · obtain ⟨last, table, hlast, htable, heq⟩ := putBackFrom_succ f page fuel m hmore
      rw [heq] at h ⊢
      obtain ⟨hnext, hdvd, halike⟩ : first + page ≤ last ∧ (page : ℕ) ∣ last ∧
          ∀ q, (page : ℕ) ∣ q → first + page ≤ q → q < last →
            q < stop ∧ m.table.hasFile page q = m.table.hasFile page first := by
        rw [hlast]
        exact Table.alike_spec (Nat.dvd_add hfirst dvd_rfl) (by omega)
      have hpages : ∀ q, (page : ℕ) ∣ q → first ≤ q → q < last →
          q < stop ∧ m.table.hasFile page q = m.table.hasFile page first := by
        intro q hq hle hlt
        rcases hle.eq_or_lt with rfl | hgt
        · exact ⟨hmore, rfl⟩
        · exact halike q hq (add_page_le hfirst hq hgt) hlt
      have hbound : last ≤ high := by
        by_contra hgt
        obtain ⟨n, rfl⟩ := hdvd
        have hlastPage := hpages high hhigh (hmore.le.trans hstop) (not_le.mp hgt)
        omega
      have hmono := refused_le_restore m f page (m.table.hasFile page first) first last
      have hrest := refused_le_putBackFrom f page stop fuel last
        ⟨table, (m.restore f page (m.table.hasFile page first) first last).2⟩
      have hfirstRefused : (m.restore f page (m.table.hasFile page first) first last).2.refused =
          m.kernel.refused := le_antisymm (hrest.trans h.le) hmono
      obtain ⟨hrestored, hin, hout⟩ := restore_granted hr hwithin hshows hfirst hdvd (by omega)
        (hbound.trans_lt hword) (fun q hq hle hlt => (hpages q hq hle hlt).2) hfirstRefused
      obtain rfl := htable hrestored
      obtain ⟨htable, hafter, hsame⟩ := ih (m := ⟨m.table,
        (m.restore f page (m.table.hasFile page first) first last).2⟩) hr hwithin hshows hdvd
        (by omega) (h.trans hfirstRefused.symm) fun hend x hle hx => by
          have := le_start hdvd hle
          omega
      refine ⟨htable, fun x hle hx hwhole => ?_, fun x hx => ?_⟩
      · rcases lt_or_ge x last with hlt | hge
        · rw [hsame x (.inl hlt)]
          exact hin x hle hlt hwhole
        · exact hafter x hge hx hwhole
      · rcases hx with hx | hx
        · rw [hsame x (.inl (by omega))]
          exact hout x (.inl hx)
        · rw [hsame x (.inr hx)]
          refine hout x (.inr ?_)
          by_contra hlt
          obtain ⟨hstart, hle, -⟩ := start_le page x
          have := (hpages _ hstart (by omega) (hle.trans_lt (not_le.mp hlt))).1
          omega
    · rw [putBackFrom, if_neg hmore]
      exact ⟨rfl, fun x hle hx => (hdone (not_lt.mp hmore) x hle hx).elim, fun _ _ => rfl⟩

theorem refused_le_putBack (m : Memory φ ψ) (f : φ → ψ) (page : ℕ+) (first length : ℕ) :
    m.kernel.refused ≤ (m.putBack f page first length).kernel.refused :=
  refused_le_putBackFrom f page _ _ _ m

theorem refused_le_foldl (f : φ → ψ) (page : ℕ+) (target : ℕ) (done : List (Piece φ))
    (m : Memory φ ψ) : m.kernel.refused ≤ (done.foldl
      (fun m p => m.putBack f page (target + p.start) p.length) m).kernel.refused := by
  induction done generalizing m with
  | nil => exact le_rfl
  | cons p done ih => exact (m.refused_le_putBack f page _ _).trans (ih _)

/-- A byte is in a view's pages from a piece's start on exactly where its page starts in the piece. -/
theorem lt_roundUp_iff (hfirst : (page : ℕ) ∣ first) {length : ℕ} (hle : first ≤ x) :
    x < first + roundUp page length ↔ x - x % page < first + length := by
  obtain ⟨hdvd, hstart, hend⟩ := start_le page x
  constructor
  · intro hlt
    by_contra hpast
    have hround : roundUp page length ≤ x - x % page - first :=
      roundUp_le (by omega) (Nat.dvd_sub hdvd hfirst)
    omega
  · intro hlt
    have hnext := add_page_le hdvd (Nat.dvd_add hfirst (dvd_roundUp page length))
      (hlt.trans_le (Nat.add_le_add_left (le_roundUp page length) first))
    omega

/-- The bytes a view of a piece maps. -/
def Touched (page : ℕ+) (target : ℕ) (p : Piece φ) (x : ℕ) : Prop :=
  target + p.start ≤ x ∧ x < target + p.start + roundUp page p.length

/-- A piece of a view that was mapped: whole pages of the target. -/
def Placed (page : ℕ+) (target length : ℕ) (p : Piece φ) : Prop :=
  (page : ℕ) ∣ target + p.start ∧ p.start + p.length ≤ length

/-- What memory shows is off only in the pages of these pieces. -/
def Off (m : Memory φ ψ) (page : ℕ+) (target length : ℕ) (shows : ℕ → Option (Shown ψ))
    (done : List (Piece φ)) : Prop :=
  ∀ x, (target ≤ x → x < target + length → m.table.Whole page x) →
    (∀ p ∈ done, ¬Touched page target p x) → m.kernel.shows x = shows x

variable {target length : ℕ}

omit [DecidableEq φ] in
theorem Placed.le_of_touched {p : Piece φ} (hp : Placed page target length p)
    (hend : (page : ℕ) ∣ target + length) (hx : Touched page target p x) :
    target ≤ x ∧ x < target + length := by
  have hround : roundUp page p.length ≤ target + length - (target + p.start) := by
    have := hp.2
    exact roundUp_le (by omega) (Nat.dvd_sub hend hp.1)
  have := hx.1
  have := hx.2
  have := hp.2
  omega

/-- The pieces put back one by one leave nothing off. -/
theorem Off.foldl (hr : RunMap.Runs Run.stop m.table.runs) (hwithin : m.table.Within)
    (hshows : m.table.Shows f shows) (hend : (page : ℕ) ∣ target + length)
    (hword : target + length < 2 ^ 64) {done : List (Piece φ)}
    (hplaced : ∀ p ∈ done, Placed page target length p)
    (hoff : m.Off page target length shows done)
    (h : (done.foldl (fun m p => m.putBack f page (target + p.start) p.length) m).kernel.refused =
      m.kernel.refused) :
    (done.foldl (fun m p => m.putBack f page (target + p.start) p.length) m).table = m.table ∧
      (done.foldl (fun m p => m.putBack f page (target + p.start) p.length) m).Off page target length
        shows [] := by
  induction done generalizing m with
  | nil => exact ⟨rfl, hoff⟩
  | cons p done ih =>
    rw [List.foldl_cons] at h ⊢
    obtain ⟨hp, hplaced⟩ := List.forall_mem_cons.mp hplaced
    have hback : (m.putBack f page (target + p.start) p.length).kernel.refused =
        m.kernel.refused :=
      le_antisymm ((refused_le_foldl f page target done _).trans h.le)
        (m.refused_le_putBack f page _ _)
    obtain ⟨htable, hin, hout⟩ := putBackFrom_granted hr hwithin hshows
      hp.1 (by omega) hend (by have := hp.2; omega) hword hback
    rw [← putBack] at htable hin hout
    have hnext : (m.putBack f page (target + p.start) p.length).Off page target length shows
        done := by
      intro x hwhole hdone
      rw [htable] at hwhole
      by_cases htouched : Touched page target p x
      · obtain ⟨hle, hlt⟩ := hp.le_of_touched hend htouched
        exact hin x htouched.1 ((lt_roundUp_iff hp.1 htouched.1).mp htouched.2) (hwhole hle hlt)
      · rw [hout x ?_]
        · exact hoff x hwhole (List.forall_mem_cons.mpr ⟨htouched, hdone⟩)
        · by_contra hx
          obtain ⟨hle, hlt⟩ := not_or.mp hx
          exact htouched ⟨not_lt.mp hle, (lt_roundUp_iff hp.1 (not_lt.mp hle)).mpr (not_le.mp hlt)⟩
    obtain ⟨hsame, hleft⟩ := ih (htable ▸ hr) (htable ▸ hwithin) (htable ▸ hshows) hplaced hnext
      (h.trans hback.symm)
    exact ⟨hsame.trans htable, hleft⟩

/-! ### The pieces of a view -/

/-- A piece is mapped, or refused and the pieces before it put back. -/
theorem mapPieces_cons (f : φ → ψ) (page : ℕ+) (target : ℕ) (done : List (Piece φ)) (p : Piece φ)
    (pieces : List (Piece φ)) (m : Memory φ ψ) :
    (∃ k, Kernel.Filed m.kernel k f page (target + p.start) p.length p.backing p.prot ∧
        mapPieces f page target done (p :: pieces) m =
          mapPieces f page target (done ++ [p]) pieces ⟨m.table, k⟩ ∧
        m.kernel.files f page target (p :: pieces) = k.files f page target pieces) ∨
      ∃ k : Kernel ψ, k.refused = m.kernel.refused + 1 ∧ k.shows = m.kernel.shows ∧
        mapPieces f page target done (p :: pieces) m = (false,
          done.foldl (fun m p => m.putBack f page (target + p.start) p.length) ⟨m.table, k⟩) := by
  rw [mapPieces, Kernel.files]
  have hcases := m.kernel.file_cases f page (target + p.start) p.length p.backing p.prot
  generalize m.kernel.file f page (target + p.start) p.length p.backing p.prot = call at hcases ⊢
  obtain ⟨granted, k⟩ := call
  rcases hcases with ⟨rfl, hfiled⟩ | ⟨rfl, hrefused, hshows⟩
  · exact .inl ⟨k, hfiled, rfl, rfl⟩
  · exact .inr ⟨k, hrefused, hshows, rfl⟩

/-- Pieces all mapped: what mapping their files leaves, with no call refused. -/
theorem mapPieces_granted {done pieces : List (Piece φ)}
    (h : (mapPieces f page target done pieces m).1 = true) :
    (mapPieces f page target done pieces m).2 =
        ⟨m.table, (m.kernel.files f page target pieces).2⟩ ∧
      (m.kernel.files f page target pieces).2.refused = m.kernel.refused := by
  induction pieces generalizing done m with
  | nil => exact ⟨rfl, rfl⟩
  | cons p pieces ih =>
    rcases mapPieces_cons f page target done p pieces m with
      ⟨k, hfiled, hmap, hfiles⟩ | ⟨k, -, -, hmap⟩
    · rw [hmap] at h ⊢
      rw [hfiles, ← hfiled.refused]
      exact ih h
    · rw [hmap] at h
      exact absurd h Bool.false_ne_true

/-- A piece refused: the table stays, and nothing is left off. -/
theorem mapPieces_refused (hr : RunMap.Runs Run.stop m.table.runs) (hwithin : m.table.Within)
    (hshows : m.table.Shows f shows) (hend : (page : ℕ) ∣ target + length)
    (hword : target + length < 2 ^ 64) {done pieces : List (Piece φ)} {low : ℕ}
    (htiles : Tiles low pieces length) (hplaced : ∀ p ∈ done, Placed page target length p)
    (hoff : m.Off page target length shows done)
    (hfails : (mapPieces f page target done pieces m).1 = false)
    (hone : (mapPieces f page target done pieces m).2.kernel.refused ≤ m.kernel.refused + 1) :
    (mapPieces f page target done pieces m).2.table = m.table ∧
      (mapPieces f page target done pieces m).2.Off page target length shows [] := by
  induction pieces generalizing done m low with
  | nil => exact absurd hfails.symm Bool.false_ne_true
  | cons p pieces ih =>
    obtain ⟨rfl, -, htiles⟩ := htiles
    rcases mapPieces_cons f page target done p pieces m with
      ⟨k, hfiled, hmap, -⟩ | ⟨k, hrefused, hsame, hmap⟩
    · rw [hmap] at hfails hone ⊢
      refine ih (m := ⟨m.table, k⟩) hr hwithin hshows htiles ?_ ?_ hfails
        (hone.trans_eq (congrArg Nat.succ hfiled.refused.symm))
      · intro q hq
        rcases List.mem_append.mp hq with hq | hq
        · exact hplaced q hq
        · obtain rfl := List.mem_singleton.mp hq
          exact ⟨hfiled.aligned, htiles.le⟩
      · intro x hwhole hdone
        have hp := hdone p (List.mem_append_right _ (List.mem_singleton_self p))
        have hshown : k.shows x = m.kernel.shows x := by
          refine hfiled.outside x ?_
          by_contra hx
          obtain ⟨hle, hlt⟩ := not_or.mp hx
          exact hp ⟨not_lt.mp hle, not_le.mp hlt⟩
        exact hshown.trans (hoff x hwhole fun q hq => hdone q (List.mem_append_left _ hq))
    · rw [hmap] at hone ⊢
      refine Off.foldl (m := ⟨m.table, k⟩) hr hwithin hshows hend hword hplaced ?_ ?_
      · intro x hwhole hdone
        exact (congrFun hsame x).trans (hoff x hwhole hdone)
      · exact le_antisymm (hone.trans_eq hrefused.symm) (refused_le_foldl f page target done _)

/-! ### The view -/

/-- The kernel shows what the table says of every byte that the table resolves. -/
def Agrees (m : Memory φ ψ) (f : φ → ψ) : Prop :=
  ∀ x s, m.table.fileAt x = some s → m.kernel.shows x = some (s.map f)

/-- A byte of the pages that a view is mapped over. -/
def InTarget (page : ℕ+) (dst src len x : ℕ) : Prop :=
  ∃ target length, pages page dst (min (len + src % page) (2 ^ 64 - 1)) = some (target, length) ∧
    target ≤ x ∧ x < target + length

theorem pages_spec {address length target size : ℕ}
    (h : pages page address length = some (target, size)) :
    (page : ℕ) ∣ target ∧ (page : ℕ) ∣ target + size ∧ target + size < 2 ^ 64 := by
  rw [pages] at h
  split_ifs at h with hword
  obtain ⟨rfl, rfl⟩ := Prod.mk.inj (Option.some.inj h)
  obtain ⟨hfirst, hle, -⟩ := start_le page address
  obtain ⟨hstop, hle', -⟩ := start_le page (address + length + (page - 1))
  have hin := le_start (x := address + length + (page - 1)) hfirst (by omega)
  rw [Nat.add_sub_of_le hin]
  exact ⟨hfirst, hstop, hle'.trans_lt hword⟩

/-- A view all mapped: recorded, the table and the kernel agree again. -/
theorem Agrees.recordAll (h : m.Agrees f) (hexact : m.table.Exact) {pieces : List (Piece φ)}
    {k : Kernel ψ} (htiles : Tiles 0 pieces length) (hword : target + length < 2 ^ 64)
    (hin : ∀ p ∈ pieces, ∀ i < p.length,
      k.shows (target + p.start + i) = some ((p.shown i).map f))
    (hout : ∀ x, x < target ∨ target + length ≤ x → k.shows x = m.kernel.shows x) :
    Agrees ⟨m.table.recordAll target pieces, k⟩ f := by
  obtain ⟨-, hshows, hsame⟩ := hexact.recordAll htiles hword
  intro x s hs
  by_cases hx : target ≤ x ∧ x < target + length
  · obtain ⟨p, hp, hpx, hxp⟩ := htiles.exists_mem (Nat.zero_le (x - target)) (by omega)
    have hbyte : target + p.start + (x - target - p.start) = x := by omega
    have hi : x - target - p.start < p.length := by omega
    have hshown := hshows p hp _ hi
    have hkernel := hin p hp _ hi
    rw [hbyte] at hshown hkernel
    have hfile : (m.table.recordAll target pieces).fileAt x = some s := hs
    rw [Table.fileAt_of_shownAt hshown] at hfile
    rwa [← Option.some.inj hfile]
  · have hfile : (m.table.recordAll target pieces).fileAt x = m.table.fileAt x := by
      rw [Table.fileAt, Table.fileAt, hsame x (by omega), Table.registeredAt, Table.registeredAt,
        hexact.registered_recordAll target pieces fun p hp => ?_]
      have := htiles.le_of_mem hp
      omega
    exact (hout x (by omega)).trans (h x s (hfile ▸ hs))

/-- A view refused at one of its pieces, and at no put-back, leaves the table as it was, and every byte
as it showed but those in pages of the target that the table does not resolve whole; a view that
succeeds leaves the table and the kernel in agreement. -/
theorem remapSharedOverwrite_restores {m m' : Memory φ ψ} {admits : ℕ → Bool} {dst src len : ℕ}
    {result : Except KernReturn ℕ} (hexact : m.table.Exact) (hwithin : m.table.Within)
    (hagrees : m.Agrees f) (hsame : m.table.SamePages f)
    (hrun : m.remapSharedOverwrite f page admits dst src len = some (result, m'))
    (hone : m'.kernel.refused ≤ m.kernel.refused + 1) :
    match result with
    | .ok _ => m'.Agrees f
    | .error _ => m'.table = m.table ∧
        ∀ x, (InTarget page dst src len x → m.table.Whole page x) →
          m'.kernel.shows x = m.kernel.shows x := by
  rw [remapSharedOverwrite] at hrun
  cases htarget : pages page dst (min (len + src % page) (2 ^ 64 - 1)) with
  | none =>
    rw [htarget] at hrun
    obtain ⟨rfl, rfl⟩ := Prod.mk.inj (Option.some.inj hrun)
    exact ⟨rfl, fun _ _ => rfl⟩
  | some range =>
    obtain ⟨target, length⟩ := range
    rw [htarget] at hrun
    cases hsource : pages page src len with
    | none =>
      rw [hsource] at hrun
      obtain ⟨rfl, rfl⟩ := Prod.mk.inj (Option.some.inj hrun)
      exact ⟨rfl, fun _ _ => rfl⟩
    | some range =>
      obtain ⟨source, rest⟩ := range
      rw [hsource] at hrun
      dsimp only at hrun
      split_ifs at hrun with hempty
      · obtain ⟨rfl, rfl⟩ := Prod.mk.inj (Option.some.inj hrun)
        exact hagrees
      cases hpieces : m.table.pieces source length with
      | none =>
        rw [hpieces] at hrun
        obtain ⟨rfl, rfl⟩ := Prod.mk.inj (Option.some.inj hrun)
        exact ⟨rfl, fun _ _ => rfl⟩
      | some pieces =>
        rw [hpieces] at hrun
        dsimp only at hrun
        split_ifs at hrun with hadmits
        obtain ⟨hfirst, hend, hword⟩ := pages_spec htarget
        have hsourceWord : source < 2 ^ 64 := by
          have := (pages_spec hsource).2.2
          omega
        have htiles := Table.pieces_tiles hexact.runs hwithin hsourceWord hpieces
        cases hmapped : mapPieces f page target [] pieces m with
        | mk granted left =>
          rw [hmapped] at hrun
          cases granted with
          | true =>
            obtain ⟨rfl, rfl⟩ := Prod.mk.inj (Option.some.inj hrun)
            obtain ⟨hleft, hnone⟩ := mapPieces_granted (congrArg Prod.fst hmapped)
            rw [hmapped] at hleft
            obtain rfl : left = _ := hleft
            obtain ⟨-, -, hin, hout⟩ := Kernel.files_granted htiles hend hnone
            exact hagrees.recordAll hexact htiles hword hin hout
          | false =>
            obtain ⟨rfl, rfl⟩ := Prod.mk.inj (Option.some.inj hrun)
            have hrefused := mapPieces_refused hexact.runs hwithin
              (Table.shows_of_fileAt hsame hagrees) hend hword htiles
              (fun p hp => absurd hp List.not_mem_nil) (fun _ _ _ => rfl)
              (congrArg Prod.fst hmapped) (by rw [hmapped]; exact hone)
            rw [hmapped] at hrefused
            obtain ⟨htable, hoff⟩ := hrefused
            refine ⟨htable, fun x hwhole => hoff x ?_ fun p hp => absurd hp List.not_mem_nil⟩
            intro hle hlt
            rw [htable]
            exact hwhole ⟨target, length, htarget, hle, hlt⟩

/-- Memory of a table with no runs, with what the kernel shows and which calls it grants. -/
def ofRegistered (registered : List (Registered ℕ)) (grants : ℕ → Bool) : Memory ℕ ℕ where
  table := ⟨registered, [], 0⟩
  kernel := ⟨(⟨registered, [], 0⟩ : Table ℕ).fileAt, grants, 0, 0⟩

theorem ofRegistered_exact (registered : List (Registered ℕ)) (grants : ℕ → Bool) :
    (ofRegistered registered grants).table.Exact := ⟨RunMap.runs_nil, rfl⟩

theorem ofRegistered_agrees (registered : List (Registered ℕ)) (grants : ℕ → Bool) :
    (ofRegistered registered grants).Agrees id := fun _ _ hs => hs

/-- Two pages of two files viewed over two pages of a third, with the second piece refused. -/
theorem secondPiece_restores :
    let m := ofRegistered [⟨0x1000, 0x2000, ⟨1, 0⟩, 1⟩, ⟨0x2000, 0x3000, ⟨2, 0⟩, 1⟩,
      ⟨0x5000, 0x7000, ⟨3, 0⟩, 1⟩] fun n => n != 1
    ∃ m', m.remapSharedOverwrite id 0x1000 (fun _ => true) 0x5000 0x1000 0x2000 =
        some (.error .refused, m') ∧ m'.table = m.table ∧
      ∀ x, (InTarget 0x1000 0x5000 0x1000 0x2000 x → m.table.Whole 0x1000 x) →
        m'.kernel.shows x = m.kernel.shows x := by
  intro m
  have hresult : (m.remapSharedOverwrite id 0x1000 (fun _ => true) 0x5000 0x1000 0x2000).map
      (fun r => (r.1, r.2.kernel.refused)) = some (.error .refused, 1) := by decide
  obtain ⟨⟨result, m'⟩, hrun, hr⟩ := Option.map_eq_some_iff.mp hresult
  obtain ⟨rfl, hone⟩ := Prod.mk.inj hr
  have hsame : m.table.SamePages id := Table.samePages_of_apart (by decide)
  refine ⟨m', hrun, remapSharedOverwrite_restores (ofRegistered_exact _ _) ?_
    (ofRegistered_agrees _ _) hsame hrun hone.le⟩
  exact ⟨fun e he => absurd he List.not_mem_nil, by decide⟩

/-- A registration that ends within a page of the target: put back, the page shows no file. -/
theorem partPage_zeros :
    ∃ (m m' : Memory ℕ ℕ) (x : ℕ), m.table.Exact ∧ m.table.Within ∧ m.Agrees id ∧
      m.table.SamePages id ∧ m.remapSharedOverwrite id 0x1000 (fun _ => true) 0x5000 0x1000 0x2000 =
        some (.error .refused, m') ∧ m'.kernel.refused ≤ m.kernel.refused + 1 ∧
      InTarget 0x1000 0x5000 0x1000 0x2000 x ∧ m.table.fileAt x ≠ none ∧
      m'.kernel.shows x ≠ m.kernel.shows x := by
  let m := ofRegistered [⟨0x1000, 0x2000, ⟨1, 0⟩, 1⟩, ⟨0x2000, 0x3000, ⟨2, 0⟩, 1⟩,
    ⟨0x5000, 0x5800, ⟨3, 0⟩, 1⟩] fun n => n != 1
  have hresult : (m.remapSharedOverwrite id 0x1000 (fun _ => true) 0x5000 0x1000 0x2000).map
      (fun r => (r.1, r.2.kernel.refused, r.2.kernel.shows 0x5000)) =
        some (.error .refused, 1, none) := by decide
  obtain ⟨⟨result, m'⟩, hrun, hr⟩ := Option.map_eq_some_iff.mp hresult
  obtain ⟨rfl, hr⟩ := Prod.mk.inj hr
  obtain ⟨hone, hnone⟩ := Prod.mk.inj hr
  have hsame : m.table.SamePages id := Table.samePages_of_apart (by decide)
  refine ⟨m, m', 0x5000, ofRegistered_exact _ _, ⟨fun e he => absurd he List.not_mem_nil, by decide⟩,
    ofRegistered_agrees _ _, hsame, hrun, hone.le, ⟨0x5000, 0x2000, by decide⟩, by decide, ?_⟩
  rw [show m'.kernel.shows 0x5000 = none from hnone]
  decide

end Memory

end ReimsVgpu.Os
