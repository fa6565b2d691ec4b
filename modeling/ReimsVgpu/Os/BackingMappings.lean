import Mathlib.Data.List.SplitBy
import Mathlib.Data.List.Perm.Subperm
import ReimsVgpu.Os.BackingPieces

/-!
# The kernel's mappings

The count of mappings is the number of maximal groups of joined runs, and the number of bytes at which
a stretch of one file's bytes starts. A view's pieces start no more stretches than their own that do not
follow, one at the view's first byte, and one where the view ends.

## Main definitions

* `StartsAt`: a byte of a byte map at which a stretch starts.
* `heads`, `Table.recordAll`, `apartStarts`: the runs that start a mapping, the pieces of a view
  recorded, and the pieces that do not follow.

## Main results

* `Table.Exact.joins_le`, `Table.Exact.mappings_eq`: the mappings are the groups of joined runs.
* `Table.Exact.mappings_recordAll`: what a view adds.
-/

namespace ReimsVgpu.Os

variable {φ : Type*}

/-- A byte that shows what a byte shows after the byte of the file before it. -/
def GoesOn (f : ℕ → Option (Shown φ)) (x : ℕ) : Prop :=
  ∃ y s, x = y + 1 ∧ f y = some s ∧ f x = some { s with offset := s.offset + 1 }

/-- A byte at which a stretch of a file's bytes starts. -/
def StartsAt (f : ℕ → Option (Shown φ)) (x : ℕ) : Prop := f x ≠ none ∧ ¬GoesOn f x

theorem StartsAt.congr {f g : ℕ → Option (Shown φ)} {x : ℕ} (h : StartsAt f x) (hx : f x = g x)
    (hpred : ∀ y, x = y + 1 → f y = g y) : StartsAt g x := by
  refine ⟨hx ▸ h.1, ?_⟩
  rintro ⟨y, s, rfl, hy, hs⟩
  exact h.2 ⟨y, s, rfl, (hpred y rfl).trans hy, hx.trans hs⟩

theorem Run.shown_succ (run : Run φ) {first x : ℕ} (h : first ≤ x) :
    run.shown first (x + 1) =
      { run.shown first x with offset := (run.shown first x).offset + 1 } := by
  rw [Run.shown, Run.shown, Nat.sub_add_comm h, UInt64.ofNat_add, ← UInt64.add_assoc]
  rfl

theorem Piece.shown_succ (p : Piece φ) (i : ℕ) :
    p.shown (i + 1) = { p.shown i with offset := (p.shown i).offset + 1 } := by
  rw [Piece.shown, Piece.shown, UInt64.ofNat_add, ← UInt64.add_assoc]
  rfl

variable [DecidableEq φ]

/-! ### Groups of runs -/

theorem joinCount_of_isChain {l : List (ℕ × Run φ)} (h : l.IsChain fun a b => joined a b)
    (hne : l ≠ []) : joinCount l + 1 = l.length := by
  induction l with
  | nil => exact absurd rfl hne
  | cons a l ih =>
    cases l with
    | nil => rfl
    | cons b l =>
      obtain ⟨hab, hrest⟩ := List.isChain_cons_cons.mp h
      rw [joinCount, List.head?_cons, between, hab, List.length_cons,
        ← ih hrest (List.cons_ne_nil b l), Bool.toNat_true]
      omega

theorem joinCount_flatten {groups : List (List (ℕ × Run φ))} (hne : [] ∉ groups)
    (hin : ∀ l ∈ groups, l.IsChain fun a b => joined a b)
    (hout : groups.IsChain fun l l' => ∃ h h', joined (l.getLast h) (l'.head h') = false) :
    joinCount groups.flatten + groups.length = groups.flatten.length := by
  induction groups with
  | nil => rfl
  | cons l groups ih =>
    obtain ⟨hl, hrest⟩ := List.forall_mem_cons.mp hin
    rw [List.mem_cons, not_or] at hne
    have hgroup := joinCount_of_isChain hl (Ne.symm hne.1)
    have hbetween : between l.getLast? groups.flatten.head? = 0 := by
      cases groups with
      | nil => exact between_none_right _
      | cons l' groups =>
        obtain ⟨⟨hlne, hlne', hjoined⟩, -⟩ := List.isChain_cons_cons.mp hout
        have hhead : (l' ++ groups.flatten).head? = some (l'.head hlne') := by
          rw [List.head?_append_of_ne_nil _ hlne', List.head?_eq_some_head hlne']
        rw [List.flatten_cons, hhead, List.getLast?_eq_some_getLast hlne, between, hjoined]
        rfl
    rw [List.flatten_cons, joinCount_append, hbetween, List.length_append, List.length_cons,
      ← ih hne.2 hrest hout.tail]
    omega

theorem joinCount_splitBy (l : List (ℕ × Run φ)) :
    joinCount l + (l.splitBy joined).length = l.length := by
  have hflat := joinCount_flatten (List.nil_notMem_splitBy joined l)
    (fun _ hg => List.isChain_of_mem_splitBy hg) (List.isChain_getLast_head_splitBy joined l)
  rwa [List.flatten_splitBy] at hflat

namespace Table

variable {t : Table φ}

theorem Exact.joins_le (h : t.Exact) : t.joins ≤ t.runs.length := by
  rw [h.joins, ← joinCount_splitBy t.runs]
  exact Nat.le_add_right _ _

/-- The mappings are the maximal groups of runs of which each joins the next. -/
theorem Exact.mappings_eq (h : t.Exact) : t.mappings = (t.runs.splitBy joined).length := by
  rw [mappings, h.joins, ← joinCount_splitBy t.runs, Nat.add_sub_cancel_left]

end Table

/-! ### Where the mappings start -/

/-- The first bytes of the runs that the run before them does not join. -/
def heads : Option (ℕ × Run φ) → List (ℕ × Run φ) → List ℕ
  | _, [] => []
  | before, e :: runs =>
    if between before (some e) = 0 then e.1 :: heads (some e) runs else heads (some e) runs

theorem length_heads (before : Option (ℕ × Run φ)) (l : List (ℕ × Run φ)) :
    (heads before l).length + (between before l.head? + joinCount l) = l.length := by
  induction l generalizing before with
  | nil =>
    rw [List.head?_nil, between_none_right]
    rfl
  | cons e l ih =>
    have hone : between before (some e) = 0 ∨ between before (some e) = 1 := by
      cases before with
      | none => exact .inl rfl
      | some a => rw [between]; cases joined a e <;> simp
    rw [heads, List.head?_cons, joinCount, List.length_cons, ← ih (some e)]
    rcases hone with hzero | hone
    · rw [if_pos hzero, hzero, List.length_cons]
      omega
    · rw [if_neg (by omega), hone]
      omega

theorem heads_sublist (before : Option (ℕ × Run φ)) (l : List (ℕ × Run φ)) :
    (heads before l).Sublist (l.map Prod.fst) := by
  induction l generalizing before with
  | nil => exact List.Sublist.slnil
  | cons e l ih =>
    rw [heads, List.map_cons]
    split_ifs
    · exact (ih _).cons_cons e.1
    · exact (ih _).cons e.1

/-- A head is the first byte of a run that no run before it joins. -/
theorem mem_heads_iff {before : Option (ℕ × Run φ)} {l : List (ℕ × Run φ)} {x : ℕ} :
    x ∈ heads before l ↔ ∃ pre e post, l = pre ++ e :: post ∧ e.1 = x ∧
      between (pre.getLast?.or before) (some e) = 0 := by
  induction l generalizing before with
  | nil =>
    refine iff_of_false List.not_mem_nil ?_
    rintro ⟨pre, e, post, hnil, -⟩
    exact List.cons_ne_nil e post (List.append_eq_nil_iff.mp hnil.symm).2
  | cons a l ih =>
    have hlast : ∀ pre : List (ℕ × Run φ),
        (a :: pre).getLast?.or before = pre.getLast?.or (some a) := by
      intro pre
      rw [List.getLast?_cons]
      cases pre.getLast? <;> rfl
    have hmem : x ∈ heads before (a :: l) ↔
        (a.1 = x ∧ between before (some a) = 0) ∨ x ∈ heads (some a) l := by
      rw [heads]
      split_ifs with hzero
      · rw [List.mem_cons, eq_comm, and_iff_left hzero]
      · rw [or_iff_right fun hc => hzero hc.2]
    rw [hmem, ih]
    constructor
    · rintro (⟨rfl, hzero⟩ | ⟨pre, e, post, rfl, hkey, hzero⟩)
      · exact ⟨[], a, l, rfl, rfl, hzero⟩
      · exact ⟨a :: pre, e, post, rfl, hkey, (hlast pre).symm ▸ hzero⟩
    · rintro ⟨_ | ⟨b, pre⟩, e, post, heq, hkey, hzero⟩
      · obtain ⟨rfl, -⟩ := List.cons_eq_cons.mp heq
        exact .inl ⟨hkey, hzero⟩
      · obtain ⟨rfl, rfl⟩ := List.cons_eq_cons.mp heq
        exact .inr ⟨pre, e, post, rfl, hkey, hlast pre ▸ hzero⟩

namespace Table

variable {t : Table φ}

/-- A run that joins the next goes on in it. -/
theorem goesOn_of_joined (h : t.Exact) {a e : ℕ × Run φ} (ha : a ∈ t.runs) (he : e ∈ t.runs)
    (hjoined : joined a e = true) : GoesOn t.shownAt e.1 := by
  have hlt : a.1 < a.2.stop := h.runs.lt a ha
  simp only [joined, Bool.and_eq_true, decide_eq_true_eq] at hjoined
  obtain ⟨⟨⟨hstop, hfd⟩, hoffset⟩, hprot⟩ := hjoined
  refine ⟨e.1 - 1, a.2.shown a.1 (e.1 - 1), by omega,
    shownAt_eq_some h.runs ha (by omega) (by omega), ?_⟩
  have hle : a.1 ≤ e.1 - 1 := by omega
  have hsucc := a.2.shown_succ hle
  rw [shownAt_eq_some h.runs he le_rfl (h.runs.lt e he), ← hsucc,
    Nat.sub_add_cancel (by omega), Run.shown, Run.shown, ← hfd, ← hprot, ← hoffset, hstop,
    Nat.sub_self]
  exact congrArg some (congrArg (Shown.mk _ · _) (UInt64.add_zero _))

/-- A run that goes on from the byte before it is joined by the run that holds that byte. -/
theorem joined_of_goesOn (h : t.Exact) {e : ℕ × Run φ} (he : e ∈ t.runs)
    (hgoes : GoesOn t.shownAt e.1) :
    ∃ a ∈ t.runs, a.1 < e.1 ∧ a.2.stop = e.1 ∧ joined a e = true := by
  obtain ⟨y, s, hy, hs, hnext⟩ := hgoes
  obtain ⟨a, hhold, rfl⟩ := Option.map_eq_some_iff.mp hs
  obtain ⟨ha, hle, hlt⟩ := h.runs.holding_eq_some_iff.mp hhold
  have hbelow : a.1 < e.1 := by omega
  have hstop : a.2.stop = e.1 := by
    refine le_antisymm (not_lt.mp fun habove => ?_) (by omega)
    have heq := h.runs.eq_of_lt ha he (hbelow.trans (h.runs.lt e he)) habove
    exact hbelow.ne (congrArg Prod.fst heq)
  rw [shownAt_eq_some h.runs he le_rfl (h.runs.lt e he), ← a.2.shown_succ hle, ← hy,
    Option.some_inj, Run.shown, Run.shown, Shown.mk.injEq, Nat.sub_self] at hnext
  obtain ⟨hfd, hoffset, hprot⟩ := hnext
  refine ⟨a, ha, hbelow, hstop, ?_⟩
  simp only [joined, Bool.and_eq_true, decide_eq_true_eq]
  refine ⟨⟨⟨hstop, hfd.symm⟩, ?_⟩, hprot.symm⟩
  rw [hstop, ← hoffset]
  exact UInt64.add_zero _

/-- A mapping starts where a stretch of a file's bytes does. -/
theorem mem_heads_iff_startsAt (h : t.Exact) {x : ℕ} :
    x ∈ heads none t.runs ↔ StartsAt t.shownAt x := by
  rw [mem_heads_iff]
  constructor
  · rintro ⟨pre, e, post, hruns, rfl, hzero⟩
    have he : e ∈ t.runs := hruns ▸ List.mem_append_right pre List.mem_cons_self
    refine ⟨?_, fun hgoes => ?_⟩
    · rw [shownAt_eq_some h.runs he le_rfl (h.runs.lt e he)]
      exact Option.some_ne_none _
    · obtain ⟨a, ha, hlt, hstop, hjoined⟩ := joined_of_goesOn h he hgoes
      have hr : RunMap.Runs Run.stop (pre ++ (e.1, e.2) :: post) := hruns ▸ h.runs
      obtain ⟨hrun, -, hbelow, hpost⟩ := RunMap.runs_middle_iff.mp hr
      have hpre : a ∈ pre := by
        rw [hruns] at ha
        refine (List.mem_append.mp ha).resolve_right fun hmem => ?_
        rcases List.mem_cons.mp hmem with rfl | hmem
        · exact lt_irrefl _ hlt
        · exact (hlt.trans hrun).not_ge (hpost a hmem)
      obtain ⟨init, b, rfl⟩ :=
        (List.eq_nil_or_concat' pre).resolve_left (List.ne_nil_of_mem hpre)
      rw [List.getLast?_concat, Option.some_or] at hzero
      rcases List.mem_append.mp hpre with hinit | hlast
      · obtain ⟨hsep, -, -⟩ := List.pairwise_append.mp hr.sep
        have hafter := (List.pairwise_append.mp hsep).2.2 a hinit b (List.mem_singleton_self b)
        have hb : b ∈ init ++ [b] := List.mem_append_right init (List.mem_singleton_self b)
        have hblt := hr.lt b (List.mem_append_left _ hb)
        have hbstop := hbelow b hb
        omega
      · obtain rfl := List.mem_singleton.mp hlast
        rw [between, hjoined] at hzero
        cases hzero
  · rintro ⟨hne, hgoes⟩
    obtain ⟨s, hs⟩ := Option.ne_none_iff_exists'.mp hne
    obtain ⟨e, hhold, rfl⟩ := Option.map_eq_some_iff.mp hs
    obtain ⟨he, hle, hlt⟩ := h.runs.holding_eq_some_iff.mp hhold
    have hkey : e.1 = x := by
      refine hle.antisymm (not_lt.mp fun hbelow => hgoes ⟨x - 1, e.2.shown e.1 (x - 1), by omega,
        shownAt_eq_some h.runs he (by omega) (by omega), ?_⟩)
      rw [hs, ← e.2.shown_succ (by omega), Nat.sub_add_cancel (by omega)]
    obtain ⟨pre, post, hruns⟩ := List.append_of_mem he
    refine ⟨pre, e, post, hruns, hkey, ?_⟩
    cases hlast : pre.getLast? with
    | none => rfl
    | some a =>
      have ha : a ∈ t.runs :=
        hruns ▸ List.mem_append_left _ (List.mem_of_getLast? hlast)
      cases hjoined : joined a e with
      | false => rw [Option.some_or, between, hjoined]; rfl
      | true => exact absurd (hkey ▸ goesOn_of_joined h ha he hjoined) hgoes

/-- As many mappings as bytes at which a stretch starts. -/
theorem Exact.mappings_eq_length_heads (h : t.Exact) :
    t.mappings = (heads none t.runs).length := by
  have hlength := length_heads none t.runs
  rw [between, Nat.zero_add] at hlength
  · rw [mappings, h.joins, ← hlength, Nat.add_sub_cancel]
  · rintro a b ⟨⟩

theorem Exact.nodup_heads (h : t.Exact) : (heads none t.runs).Nodup := by
  refine (heads_sublist none t.runs).nodup ?_
  refine h.runs.nodup.map_on fun e he e' he' hkey => h.runs.eq_of_key he he' hkey

end Table

/-! ### A view -/

/-- The bytes at which a view shows a piece that does not follow the one before it. -/
def apartStarts (target : ℕ) : List (Piece φ) → List ℕ
  | [] => []
  | [_] => []
  | a :: b :: pieces =>
    if follows a b then apartStarts target (b :: pieces)
    else (target + b.start) :: apartStarts target (b :: pieces)

theorem length_apartStarts (target : ℕ) (pieces : List (Piece φ)) :
    (apartStarts target pieces).length = apart pieces := by
  fun_induction apart pieces with
  | case1 => rfl
  | case2 => rfl
  | case3 a b pieces ih =>
    rw [apartStarts]
    split_ifs with hfollows
    · rw [ih, hfollows, Bool.not_true, Bool.toNat_false, Nat.zero_add]
    · rw [List.length_cons, ih, Bool.eq_false_of_not_eq_true hfollows, Bool.not_false,
        Bool.toNat_true, Nat.add_comm]

/-- A byte map in which a view at the target shows the pieces. -/
def ShowsPieces (f : ℕ → Option (Shown φ)) (target : ℕ) (pieces : List (Piece φ)) : Prop :=
  ∀ p ∈ pieces, ∀ i < p.length, f (target + p.start + i) = some (p.shown i)

/-- Within a view, a stretch starts only where a piece does not follow. -/
theorem ShowsPieces.mem_apartStarts {f : ℕ → Option (Shown φ)} {target low high x : ℕ}
    {pieces : List (Piece φ)} (h : ShowsPieces f target pieces) (htiles : Tiles low pieces high)
    (hlow : target + low < x) (hhigh : x < target + high) (hx : StartsAt f x) :
    x ∈ apartStarts target pieces := by
  induction pieces generalizing low with
  | nil =>
    obtain rfl : low = high := htiles
    exact absurd hlow hhigh.not_gt
  | cons a pieces ih =>
    obtain ⟨rfl, hpos, htiles⟩ := htiles
    obtain ⟨ha, hrest⟩ := List.forall_mem_cons.mp h
    rcases lt_trichotomy x (target + (a.start + a.length)) with hin | rfl | habove
    · refine absurd ⟨x - 1, a.shown (x - 1 - (target + a.start)), by omega, ?_, ?_⟩ hx.2
      · rw [← ha _ (by omega), Nat.add_sub_of_le (by omega)]
      · rw [← a.shown_succ, ← ha _ (by omega)]
        congr 1
        omega
    · cases pieces with
      | nil =>
        obtain rfl : a.start + a.length = high := htiles
        exact absurd hhigh (lt_irrefl _)
      | cons b pieces =>
        obtain ⟨hstart, hpos', -⟩ := htiles
        rw [apartStarts]
        split_ifs with hfollows
        · simp only [follows, Bool.and_eq_true, decide_eq_true_eq] at hfollows
          obtain ⟨⟨hfd, hoffset⟩, hprot⟩ := hfollows
          refine absurd ⟨target + a.start + (a.length - 1), a.shown (a.length - 1), by omega,
            ha _ (by omega), ?_⟩ hx.2
          have hb := (List.forall_mem_cons.mp hrest).1 0 hpos'
          rw [← a.shown_succ, Nat.sub_add_cancel hpos, ← hstart]
          rw [Nat.add_zero] at hb
          rw [hb, Piece.shown, Piece.shown, hfd, hprot, hoffset]
          exact congrArg some (congrArg (Shown.mk _ · _) (UInt64.add_zero _))
        · rw [← hstart]
          exact List.mem_cons_self
    · have hmem := ih hrest htiles habove
      cases pieces with
      | nil => exact absurd hmem List.not_mem_nil
      | cons b pieces =>
        rw [apartStarts]
        split_ifs
        · exact hmem
        · exact List.mem_cons_of_mem _ hmem

namespace Table

/-- The pieces of a view recorded one after another. -/
def recordAll (t : Table φ) (target : ℕ) (pieces : List (Piece φ)) : Table φ :=
  pieces.foldl (fun t p => t.record (target + p.start) (stopOf (target + p.start) p.length)
    p.backing p.prot) t

variable {t : Table φ}

theorem stopOf_eq {first length : ℕ} (h : first + length < 2 ^ 64) :
    stopOf first length = first + length :=
  min_eq_left (Nat.le_sub_one_of_lt h)

/-- The view shows the pieces, and every other byte what it showed. -/
theorem Exact.recordAll (h : t.Exact) {target low high : ℕ} {pieces : List (Piece φ)}
    (htiles : Tiles low pieces high) (hhigh : target + high < 2 ^ 64) :
    (t.recordAll target pieces).Exact ∧
      ShowsPieces (t.recordAll target pieces).shownAt target pieces ∧
        ∀ x, x < target + low ∨ target + high ≤ x →
          (t.recordAll target pieces).shownAt x = t.shownAt x := by
  induction pieces generalizing t low with
  | nil => exact ⟨h, fun p hp => absurd hp List.not_mem_nil, fun _ _ => rfl⟩
  | cons a pieces ih =>
    obtain ⟨rfl, hpos, htiles⟩ := htiles
    have hle := htiles.le
    have hstop : stopOf (target + a.start) a.length = target + a.start + a.length :=
      stopOf_eq (by omega)
    have hstep := h.record (Nat.le_add_right (target + a.start) a.length) a.backing a.prot
    obtain ⟨hexact, hshows, hsame⟩ := ih hstep.toExact htiles
    rw [Table.recordAll, List.foldl_cons, hstop]
    refine ⟨hexact, ?_, fun x hx => ?_⟩
    · rintro p (_ | ⟨_, hp⟩) i hi
      · rw [← Table.recordAll, hsame _ (.inl (by omega)), hstep.shownAt_eq, if_pos (by omega),
          Nat.add_sub_cancel_left, Piece.shown]
      · exact hshows p hp i hi
    · rw [← Table.recordAll, hsame x (by omega), hstep.shownAt_eq, if_neg (by omega)]

/-- A view adds no more mappings than its pieces that do not follow, and two. -/
theorem Exact.mappings_recordAll (h : t.Exact) {target length : ℕ} {pieces : List (Piece φ)}
    (htiles : Tiles 0 pieces length) (hlength : target + length < 2 ^ 64) :
    (t.recordAll target pieces).mappings ≤ t.mappings + mappingsAdded pieces := by
  obtain ⟨hexact, hshows, hsame⟩ := h.recordAll htiles hlength
  have hsub : heads none (t.recordAll target pieces).runs ⊆
      heads none t.runs ++ ([target, target + length] ++ apartStarts target pieces) := by
    intro x hx
    rw [mem_heads_iff_startsAt hexact] at hx
    rw [List.mem_append, List.mem_append, mem_heads_iff_startsAt h, List.mem_cons,
      List.mem_singleton]
    by_cases hout : x < target ∨ target + length < x
    · refine .inl (hx.congr (hsame x (by omega)) fun y hy => hsame y (by omega))
    · by_cases hend : x = target ∨ x = target + length
      · exact .inr (.inl hend)
      · exact .inr (.inr (hshows.mem_apartStarts htiles (by omega) (by omega) hx))
  have hlen := (hexact.nodup_heads.subperm hsub).length_le
  rw [List.length_append, List.length_append, length_apartStarts, ← h.mappings_eq_length_heads,
    ← hexact.mappings_eq_length_heads] at hlen
  rw [mappingsAdded, Nat.add_comm (apart pieces)]
  exact hlen

end Table

end ReimsVgpu.Os
