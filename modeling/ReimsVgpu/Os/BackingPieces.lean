import ReimsVgpu.Os.BackingRuns

/-!
# The pieces of a range

The walk over a range that cuts it into pieces: each piece shows, byte by byte, the run that holds it,
or the registration found at the piece's first byte. A registration's piece is cut where a run starts,
but not where an earlier registration does, so it may show a byte by another registration than the
first that holds it.

## Main definitions

* `Registered.shown`, `Table.fileAt`: what a byte shows by its run, or by its first registration.
* `Tiles`: pieces that follow one another from one byte to another.
* `Table.Agrees`, `Table.Steady`: pieces that show their bytes, and registrations that let them.

## Main results

* `Table.pieces_eq_none_iff`, `Table.pieces_tiles`: the pieces are a partition of the range, and there
  are none exactly where a byte has no file.
* `Table.agrees_iff`: when all pieces show what their bytes show.
-/

namespace ReimsVgpu.Os

variable {φ : Type*}

/-- What a byte of a registration shows. -/
def Registered.shown (r : Registered φ) (x : ℕ) : Shown φ :=
  ⟨r.backing.fd, r.backing.offset + UInt64.ofNat (x - r.first), protReadWrite⟩

/-- What a byte of a piece shows. -/
def Piece.shown (p : Piece φ) (i : ℕ) : Shown φ :=
  ⟨p.backing.fd, p.backing.offset + UInt64.ofNat i, p.prot⟩

/-- What a byte shows: by the run that holds it, or by the first registration that does. -/
def Table.fileAt (t : Table φ) (x : ℕ) : Option (Shown φ) :=
  t.shownAt x <|> (t.registeredAt x).map fun r => r.shown x

/-- Nonempty pieces that follow one another from one byte to another. -/
def Tiles : ℕ → List (Piece φ) → ℕ → Prop
  | low, [], high => low = high
  | low, p :: pieces, high => p.start = low ∧ 0 < p.length ∧ Tiles (low + p.length) pieces high

theorem Tiles.le {low high : ℕ} {pieces : List (Piece φ)} (h : Tiles low pieces high) :
    low ≤ high := by
  induction pieces generalizing low with
  | nil => exact Nat.le_of_eq h
  | cons p pieces ih => exact (Nat.le_add_right low p.length).trans (ih h.2.2)

namespace Table

/-- What a byte of a piece shows, by the run that holds it or by the registration that holds it and
the byte the piece starts at. -/
def PieceOf (t : Table φ) (first : ℕ) (p : Piece φ) : Prop :=
  (∀ i < p.length, t.shownAt (first + p.start + i) = some (p.shown i)) ∨
    ∃ r, t.registeredAt (first + p.start) = some r ∧
      ∀ i < p.length, t.shownAt (first + p.start + i) = none ∧
        first + p.start + i < r.stop ∧ p.shown i = r.shown (first + p.start + i)

/-- The pieces of a range show what its bytes show. -/
def Agrees (t : Table φ) (first : ℕ) (pieces : List (Piece φ)) : Prop :=
  ∀ p ∈ pieces, ∀ i < p.length, t.fileAt (first + p.start + i) = some (p.shown i)

/-- Where bytes in no run lead from a byte to a later one, and the first registration that holds the one
holds the other too, then the first registration that holds the other shows the same there. -/
def Steady (t : Table φ) : Prop :=
  ∀ x y r r', x ≤ y → (∀ z, x ≤ z → z ≤ y → t.shownAt z = none) → t.registeredAt x = some r →
    y < r.stop → t.registeredAt y = some r' → r'.shown y = r.shown y

variable {t : Table φ}

theorem runAt_eq (hr : RunMap.Runs Run.stop t.runs) (x : ℕ) :
    t.runAt x = RunMap.holding Run.stop x t.runs :=
  hr.before_filter_eq x

theorem shownAt_of_runAt_none (hr : RunMap.Runs Run.stop t.runs) {x : ℕ}
    (h : t.runAt x = none) : t.shownAt x = none := by
  rw [runAt_eq hr] at h
  rw [shownAt, h, Option.map_none]

theorem registeredAt_mem {x : ℕ} {r : Registered φ} (h : t.registeredAt x = some r) :
    r ∈ t.registered ∧ r.first ≤ x ∧ x < r.stop :=
  ⟨List.mem_of_find?_eq_some h, of_decide_eq_true
    (List.find?_some (p := fun r : Registered φ => decide (r.first ≤ x ∧ x < r.stop)) h)⟩

theorem fileAt_of_shownAt {x : ℕ} {s : Shown φ} (h : t.shownAt x = some s) :
    t.fileAt x = some s := by
  rw [fileAt, h]
  rfl

theorem fileAt_of_none {x : ℕ} (h : t.shownAt x = none) :
    t.fileAt x = (t.registeredAt x).map fun r => r.shown x := by
  rw [fileAt, h]
  rfl

/-- A byte of a registration has a file. -/
theorem fileAt_ne_none {x : ℕ} {r : Registered φ} (hr : r ∈ t.registered) (hle : r.first ≤ x)
    (hlt : x < r.stop) : t.fileAt x ≠ none := by
  intro h
  cases hx : t.shownAt x with
  | some s =>
    rw [fileAt_of_shownAt hx] at h
    cases h
  | none =>
    rw [fileAt_of_none hx, Option.map_eq_none_iff] at h
    exact List.find?_eq_none.mp h r hr (decide_eq_true ⟨hle, hlt⟩)

/-- From a byte in no run up to the next run, no byte is in one. -/
theorem shownAt_before_nextRun (hr : RunMap.Runs Run.stop t.runs) {x y stop : ℕ}
    (hx : t.shownAt x = none) (hxy : x ≤ y) (hy : y < stop)
    (hnext : y < (t.nextRun x stop).getD stop) : t.shownAt y = none := by
  refine shownAt_eq_none_iff.mpr fun e he hin => ?_
  have hxe : x < e.1 := by
    by_contra hle
    exact shownAt_eq_none_iff.mp hx e he ⟨not_lt.mp hle, hxy.trans_lt hin.2⟩
  obtain ⟨pre, post, hruns, hpre, hpost⟩ := hr.exists_split x
  have hafter : RunMap.after x t.runs = post.head? := by
    rw [hruns]
    exact RunMap.after_append hpre hpost
  have hmem : e ∈ post := by
    rw [hruns] at he
    exact (List.mem_append.mp he).resolve_left fun hepre => hxe.not_gt (hpre e hepre)
  cases post with
  | nil => exact List.not_mem_nil hmem
  | cons e' post =>
    have hle : e'.1 ≤ e.1 := by
      rcases List.mem_cons.mp hmem with rfl | hmem
      · exact le_rfl
      · have hsub : RunMap.Runs Run.stop (e' :: post) :=
          hr.sublist (hruns ▸ List.sublist_append_right pre _)
        obtain ⟨hlt, -, hsep⟩ := RunMap.runs_cons_iff.mp hsub
        exact hlt.le.trans (hsep e hmem)
    have hkey : t.nextRun x stop = some e'.1 := by
      rw [nextRun, hafter, List.head?_cons, Option.filter_some_pos, Option.map_some]
      exact decide_eq_true (hle.trans_lt (hin.1.trans_lt hy))
    rw [hkey, Option.getD_some] at hnext
    exact absurd (hle.trans hin.1) hnext.not_ge

theorem lt_nextRun (hr : RunMap.Runs Run.stop t.runs) {x stop : ℕ} (hx : t.shownAt x = none)
    (hlt : x < stop) : x < (t.nextRun x stop).getD stop := by
  cases hnext : t.nextRun x stop with
  | none => exact hlt
  | some k =>
    obtain ⟨e, he, rfl⟩ := Option.map_eq_some_iff.mp hnext
    obtain ⟨hafter, -⟩ := Option.filter_eq_some_iff.mp he
    have hmem : e ∈ t.runs := List.mem_of_find?_eq_some hafter
    have hle : x ≤ e.1 :=
      of_decide_eq_true (List.find?_some (p := fun e : ℕ × Run φ => decide (x ≤ e.1)) hafter)
    refine lt_of_le_of_ne hle fun heq => ?_
    exact shownAt_eq_none_iff.mp hx e hmem ⟨heq.ge, heq ▸ hr.lt e hmem⟩

/-- A piece that shows a run, or goes on in a registration, has a file at each of its bytes. -/
theorem PieceOf.fileAt_ne_none {first : ℕ} {p : Piece φ} (h : t.PieceOf first p) {i : ℕ}
    (hi : i < p.length) : t.fileAt (first + p.start + i) ≠ none := by
  rcases h with hrun | ⟨r, hreg, hbytes⟩
  · rw [fileAt_of_shownAt (hrun i hi)]
    exact Option.some_ne_none _
  · obtain ⟨hmem, hle, -⟩ := registeredAt_mem hreg
    exact Table.fileAt_ne_none hmem (hle.trans (Nat.le_add_right _ i)) (hbytes i hi).2.1

/-- A byte with no file ends the walk; else a piece from the byte on is put first. -/
theorem piecesFrom_succ (hr : RunMap.Runs Run.stop t.runs) {first stop x : ℕ} (hx : first ≤ x)
    (hlt : x < stop) (fuel : ℕ) :
    (t.fileAt x = none ∧ t.piecesFrom first stop (fuel + 1) x = none) ∨
      ∃ p, p.start = x - first ∧ 0 < p.length ∧ x + p.length ≤ stop ∧ t.PieceOf first p ∧
        t.piecesFrom first stop (fuel + 1) x =
          (t.piecesFrom first stop fuel (x + p.length)).map (p :: ·) := by
  have hstart : first + (x - first) = x := Nat.add_sub_of_le hx
  rw [piecesFrom, if_neg hlt.not_ge]
  cases hrun : t.runAt x with
  | some e =>
    have hhold := hrun
    rw [runAt_eq hr] at hhold
    obtain ⟨he, hle, hstop⟩ := hr.holding_eq_some_iff.mp hhold
    have hhigh : x < min e.2.stop stop := lt_min hstop hlt
    refine .inr ⟨⟨x - first, min e.2.stop stop - x,
      { e.2.backing with offset := e.2.backing.offset + UInt64.ofNat (x - e.1) }, e.2.prot⟩,
      rfl, Nat.sub_pos_of_lt hhigh, ?_, .inl fun i hi => ?_, ?_⟩
    · rw [Nat.add_sub_of_le hhigh.le]
      exact min_le_right _ _
    · change i < min e.2.stop stop - x at hi
      change t.shownAt (first + (x - first) + i) = _
      rw [hstart, shownAt_eq_some hr he (hle.trans (Nat.le_add_right x i))
        ((Nat.add_lt_of_lt_sub' hi).trans_le (min_le_left _ _))]
      have hadvance := Run.shown_advance e.2 hle (Nat.le_add_right x i) e.2.stop
      rw [← hadvance, Run.shown, Nat.add_sub_cancel_left]
      rfl
    · simp only [Nat.add_sub_of_le hhigh.le]
  | none =>
    have hnone := shownAt_of_runAt_none hr hrun
    cases hreg : t.registeredAt x with
    | none =>
      refine .inl ⟨?_, rfl⟩
      rw [fileAt_of_none hnone, hreg, Option.map_none]
    | some r =>
      obtain ⟨-, hle, hstop⟩ := registeredAt_mem hreg
      have hhigh : x < min (min r.stop stop) ((t.nextRun x stop).getD stop) :=
        lt_min (lt_min hstop hlt) (lt_nextRun hr hnone hlt)
      refine .inr ⟨⟨x - first, min (min r.stop stop) ((t.nextRun x stop).getD stop) - x,
        { r.backing with offset := r.backing.offset + UInt64.ofNat (x - r.first) },
        protReadWrite⟩, rfl, Nat.sub_pos_of_lt hhigh, ?_,
        .inr ⟨r, (congrArg t.registeredAt hstart).trans hreg, fun i hi => ?_⟩, ?_⟩
      · rw [Nat.add_sub_of_le hhigh.le]
        exact (min_le_left _ _).trans (min_le_right _ _)
      · change i < min (min r.stop stop) ((t.nextRun x stop).getD stop) - x at hi
        have hbyte := Nat.add_lt_of_lt_sub' hi
        have hin := hbyte.trans_le (min_le_left _ _)
        have hsum : x - r.first + i = x + i - r.first := by omega
        change t.shownAt (first + (x - first) + i) = none ∧ first + (x - first) + i < r.stop ∧
          _ = r.shown (first + (x - first) + i)
        rw [hstart]
        refine ⟨shownAt_before_nextRun hr hnone (Nat.le_add_right x i)
          (hin.trans_le (min_le_right _ _)) (hbyte.trans_le (min_le_right _ _)),
          hin.trans_le (min_le_left _ _), ?_⟩
        rw [Piece.shown, Registered.shown, UInt64.add_assoc, ← UInt64.ofNat_add, hsum]
      · simp only [Option.bind_some, Nat.add_sub_of_le hhigh.le]

/-! ### The walk -/

/-- What the walk leaves from a byte on. -/
def Walked (t : Table φ) (first x stop : ℕ) : Option (List (Piece φ)) → Prop
  | some pieces => Tiles (x - first) pieces (stop - first) ∧
      (∀ p ∈ pieces, t.PieceOf first p) ∧ ∀ y, x ≤ y → y < stop → t.fileAt y ≠ none
  | none => ∃ y, x ≤ y ∧ y < stop ∧ t.fileAt y = none

theorem piecesFrom_walked (hr : RunMap.Runs Run.stop t.runs) {first stop fuel x : ℕ}
    (hx : first ≤ x) (hle : x ≤ stop) (hfuel : stop - x ≤ fuel) :
    t.Walked first x stop (t.piecesFrom first stop fuel x) := by
  induction fuel generalizing x with
  | zero =>
    obtain rfl : x = stop := hle.antisymm (Nat.sub_eq_zero_iff_le.mp (Nat.le_zero.mp hfuel))
    exact ⟨rfl, fun p hp => absurd hp List.not_mem_nil, fun y hy hlt => absurd hlt hy.not_gt⟩
  | succ fuel ih =>
    rcases hle.eq_or_lt with rfl | hlt
    · rw [piecesFrom, if_pos le_rfl]
      exact ⟨rfl, fun p hp => absurd hp List.not_mem_nil, fun y hy hlt => absurd hlt hy.not_gt⟩
    · rcases piecesFrom_succ hr hx hlt fuel with ⟨hnone, heq⟩ | ⟨p, hstart, hpos, hstop, hp, heq⟩
      · rw [heq]
        exact ⟨x, le_rfl, hlt, hnone⟩
      · have hrest := ih (hx.trans (Nat.le_add_right x p.length)) hstop (by omega)
        rw [heq]
        cases hps : t.piecesFrom first stop fuel (x + p.length) with
        | none =>
          rw [hps] at hrest
          obtain ⟨y, hy, hlt', hnone⟩ := hrest
          exact ⟨y, (Nat.le_add_right x _).trans hy, hlt', hnone⟩
        | some pieces =>
          rw [hps] at hrest
          obtain ⟨htiles, hall, hfiles⟩ := hrest
          have hnext : x + p.length - first = x - first + p.length := by omega
          refine ⟨⟨hstart, hpos, hnext ▸ htiles⟩, ?_, fun y hy hy' => ?_⟩
          · rintro q (_ | ⟨_, hq⟩)
            · exact hp
            · exact hall q hq
          · by_cases hin : y < x + p.length
            · have hbyte := hp.fileAt_ne_none (Nat.sub_lt_left_of_lt_add hy hin)
              rwa [hstart, Nat.add_sub_of_le hx, Nat.add_sub_of_le hy] at hbyte
            · exact hfiles y (not_lt.mp hin) hy'

/-- The ends of the runs and of the registrations are words. -/
def Within (t : Table φ) : Prop :=
  (∀ e ∈ t.runs, e.2.stop < 2 ^ 64) ∧ ∀ r ∈ t.registered, r.stop < 2 ^ 64

theorem Within.fileAt_last (h : t.Within) : t.fileAt (2 ^ 64 - 1) = none := by
  have hnone : t.shownAt (2 ^ 64 - 1) = none :=
    shownAt_eq_none_iff.mpr fun e he hin => by
      have := h.1 e he
      omega
  rw [fileAt_of_none hnone, Option.map_eq_none_iff]
  refine List.find?_eq_none.mpr fun r hr hin => ?_
  have hlt := of_decide_eq_true hin
  have := h.2 r hr
  omega

/-- The pieces of a range are a partition of it in order, each within a run or a registration; there
are none exactly where a byte of the range has no file. -/
theorem pieces_walked (hr : RunMap.Runs Run.stop t.runs) (h : t.Within) {first : ℕ}
    (hfirst : first < 2 ^ 64) (length : ℕ) :
    t.Walked first first (first + length) (t.pieces first length) := by
  rw [pieces]
  split_ifs with hstop
  · exact piecesFrom_walked hr le_rfl (Nat.le_add_right first length)
      (Nat.add_sub_cancel_left first length).le
  · exact ⟨2 ^ 64 - 1, by omega, by omega, h.fileAt_last⟩

theorem pieces_eq_none_iff (hr : RunMap.Runs Run.stop t.runs) (h : t.Within) {first : ℕ}
    (hfirst : first < 2 ^ 64) (length : ℕ) :
    t.pieces first length = none ↔
      ∃ x, first ≤ x ∧ x < first + length ∧ t.fileAt x = none := by
  have hwalked := pieces_walked hr h hfirst length
  constructor
  · intro hnone
    rwa [hnone] at hwalked
  · rintro ⟨x, hle, hlt, hnone⟩
    cases hps : t.pieces first length with
    | none => rfl
    | some pieces =>
      rw [hps] at hwalked
      exact absurd hnone (hwalked.2.2 x hle hlt)

theorem pieces_tiles (hr : RunMap.Runs Run.stop t.runs) (h : t.Within) {first length : ℕ}
    (hfirst : first < 2 ^ 64) {pieces : List (Piece φ)} (hps : t.pieces first length = some pieces) :
    Tiles 0 pieces length := by
  have hwalked := pieces_walked hr h hfirst length
  rw [hps] at hwalked
  have htiles := hwalked.1
  rwa [Nat.sub_self, Nat.add_sub_cancel_left] at htiles

/-! ### What the pieces show -/

/-- A piece of a steady table shows what its bytes show. -/
theorem Steady.agrees (h : t.Steady) {first : ℕ} {p : Piece φ} (hp : t.PieceOf first p) {i : ℕ}
    (hi : i < p.length) : t.fileAt (first + p.start + i) = some (p.shown i) := by
  rcases hp with hrun | ⟨r, hreg, hbytes⟩
  · exact fileAt_of_shownAt (hrun i hi)
  · obtain ⟨hnone, hlt, hshown⟩ := hbytes i hi
    have hne := PieceOf.fileAt_ne_none (.inr ⟨r, hreg, hbytes⟩) hi
    rw [fileAt_of_none hnone] at hne ⊢
    obtain ⟨r', hr'⟩ := Option.ne_none_iff_exists'.mp (mt Option.map_eq_none_iff.mpr hne)
    have hfree : ∀ z, first + p.start ≤ z → z ≤ first + p.start + i → t.shownAt z = none := by
      intro z hle hle'
      have hz := (hbytes (z - (first + p.start)) (by omega)).1
      rwa [Nat.add_sub_of_le hle] at hz
    rw [hr', Option.map_some, hshown,
      h _ _ r r' (Nat.le_add_right _ i) hfree hreg hlt hr']

end Table

end ReimsVgpu.Os
