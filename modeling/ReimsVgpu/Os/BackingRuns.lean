import Mathlib.Order.Interval.Set.Basic
import ReimsVgpu.Os.BackingTable

/-!
# The runs of the backing table, byte by byte

What each operation on the runs does to the byte map that they stand for, and that the count of the
joined neighbours stays exact through the cuts.

## Main definitions

* `Shown`, `Table.shownAt`: what a byte shows by the runs.
* `joinCount`, `Table.Exact`: the joined neighbours of a list of runs, and a table that counts them.
* `Table.Becomes`: a table that shows something else, the runs that were not touched still there.

## Main results

* `Table.Exact.insert`, `Table.Exact.remove`: one run.
* `Table.Exact.forget`, `Table.Exact.record`, `Table.Exact.protect`: a range.
-/

namespace ReimsVgpu.Os

/-- What a byte shows: a file's byte, at a protection. -/
structure Shown (φ : Type*) where
  fd : φ
  offset : UInt64
  prot : ℤ
deriving DecidableEq

variable {φ : Type*}

/-- What a byte of a run shows. -/
def Run.shown (first : ℕ) (run : Run φ) (x : ℕ) : Shown φ :=
  ⟨run.backing.fd, run.backing.offset + UInt64.ofNat (x - first), run.prot⟩

/-- What a byte shows by the runs. -/
def Table.shownAt (t : Table φ) (x : ℕ) : Option (Shown φ) :=
  (RunMap.holding Run.stop x t.runs).map fun e => e.2.shown e.1 x

/-! ### Bytes -/

/-- A run that goes on from a later byte shows the same. -/
theorem Run.shown_advance {first low x : ℕ} (run : Run φ) (hfirst : first ≤ low) (hlow : low ≤ x)
    (stop : ℕ) :
    Run.shown low { run with
      stop, backing.offset := run.backing.offset + UInt64.ofNat (low - first) } x =
      run.shown first x := by
  have hsum : low - first + (x - low) = x - first := by omega
  rw [Run.shown, Run.shown, UInt64.add_assoc, ← UInt64.ofNat_add, hsum]

namespace Table

variable {t : Table φ}

theorem shownAt_eq_some (hr : RunMap.Runs Run.stop t.runs) {e : ℕ × Run φ} (he : e ∈ t.runs)
    {x : ℕ} (hle : e.1 ≤ x) (hlt : x < e.2.stop) : t.shownAt x = some (e.2.shown e.1 x) := by
  rw [shownAt, hr.holding_eq_some_iff.mpr ⟨he, hle, hlt⟩, Option.map_some]

theorem shownAt_eq_none_iff {x : ℕ} :
    t.shownAt x = none ↔ ∀ e ∈ t.runs, ¬(e.1 ≤ x ∧ x < e.2.stop) := by
  rw [shownAt, Option.map_eq_none_iff, RunMap.holding_eq_none_iff]

/-- Two tables show the same of a byte if the same runs hold it. -/
theorem shownAt_congr {t' : Table φ} (hr : RunMap.Runs Run.stop t.runs)
    (hr' : RunMap.Runs Run.stop t'.runs) {x : ℕ}
    (h : ∀ e : ℕ × Run φ, e.1 ≤ x → x < e.2.stop → (e ∈ t'.runs ↔ e ∈ t.runs)) :
    t'.shownAt x = t.shownAt x := by
  cases hx : RunMap.holding Run.stop x t.runs with
  | none =>
    have hnone := RunMap.holding_eq_none_iff.mp hx
    have hnone' : t.shownAt x = none := by rw [shownAt, hx, Option.map_none]
    rw [hnone', shownAt_eq_none_iff]
    exact fun e he hin => hnone e ((h e hin.1 hin.2).mp he) hin
  | some e =>
    obtain ⟨he, hle, hlt⟩ := hr.holding_eq_some_iff.mp hx
    rw [shownAt_eq_some hr he hle hlt, shownAt_eq_some hr' ((h e hle hlt).mpr he) hle hlt]

/-- Where the bytes of a range show nothing, no run meets it. -/
theorem apart_of_shownAt (hr : RunMap.Runs Run.stop t.runs) {first stop : ℕ} (hlt : first < stop)
    (h : ∀ x, first ≤ x → x < stop → t.shownAt x = none) :
    ∀ e ∈ t.runs, e.2.stop ≤ first ∨ stop ≤ e.1 := by
  intro e he
  have hrun : e.1 < e.2.stop := hr.lt e he
  by_contra hmeets
  rw [not_or, not_le, not_le] at hmeets
  have hnone := h (max first e.1) (le_max_left _ _) (max_lt hlt hmeets.2)
  exact shownAt_eq_none_iff.mp hnone e he ⟨le_max_right _ _, max_lt hmeets.1 hrun⟩

end Table

/-! ### Joined neighbours -/

variable [DecidableEq φ]

/-- Two neighbours, where there are both, that are joined. -/
def between : Option (ℕ × Run φ) → Option (ℕ × Run φ) → ℕ
  | some a, some b => (joined a b).toNat
  | _, _ => 0

/-- The neighbouring runs that the kernel holds as one. -/
def joinCount : List (ℕ × Run φ) → ℕ
  | [] => 0
  | a :: runs => between (some a) runs.head? + joinCount runs

theorem between_none_right (a : Option (ℕ × Run φ)) : between a none = 0 := by
  cases a <;> rfl

theorem joinCount_append (l l' : List (ℕ × Run φ)) :
    joinCount (l ++ l') = joinCount l + between l.getLast? l'.head? + joinCount l' := by
  induction l with
  | nil => exact (Nat.zero_add _).symm
  | cons a l ih =>
    rw [List.cons_append, joinCount, joinCount, ih]
    cases l with
    | nil =>
      rw [List.nil_append, List.head?_nil, between_none_right, List.getLast?_singleton,
        List.getLast?_nil, joinCount]
      change _ + (0 + 0 + _) = _
      omega
    | cons b l =>
      rw [List.cons_append, List.head?_cons, List.head?_cons, List.getLast?_cons_cons]
      omega

theorem between_eq_zero {a b : Option (ℕ × Run φ)}
    (h : ∀ e e', a = some e → b = some e' → e.2.stop < e'.1) : between a b = 0 := by
  cases a with
  | none => rfl
  | some e =>
    cases b with
    | none => rfl
    | some e' =>
      have hlt := h e e' rfl rfl
      rw [between, joined, decide_eq_false hlt.ne]
      rfl

namespace Table

/-- The runs are disjoint, and the joined neighbours counted. -/
structure Exact (t : Table φ) : Prop where
  runs : RunMap.Runs Run.stop t.runs
  joins : t.joins = joinCount t.runs

variable {t : Table φ} {pre post : List (ℕ × Run φ)} {first : ℕ} {run : Run φ}

theorem joinsBeside_eq (hlt : first < run.stop) (hruns : t.runs = pre ++ post)
    (hr : RunMap.Runs Run.stop (pre ++ post)) (hpre : ∀ e ∈ pre, e.2.stop ≤ first)
    (hpost : ∀ e ∈ post, run.stop ≤ e.1) :
    t.joinsBeside first run =
      between pre.getLast? (some (first, run)) + between (some (first, run)) post.head? := by
  have hbefore : RunMap.before first t.runs = pre.getLast? := by
    rw [hruns]
    refine RunMap.before_append (fun e he => ?_) fun e he => hlt.le.trans (hpost e he)
    exact (hr.lt e (List.mem_append_left _ he)).trans_le (hpre e he)
  have hafter : RunMap.after run.stop t.runs = post.head? := by
    rw [hruns]
    refine RunMap.after_append (fun e he => ?_) hpost
    exact ((hr.lt e (List.mem_append_left _ he)).trans_le (hpre e he)).trans hlt
  rw [joinsBeside, hbefore, hafter]
  cases pre.getLast? <;> cases post.head? <;> rfl

/-- A run between its neighbours, and the joins it makes. -/
theorem joinCount_middle (hlt : first < run.stop) (hpre : ∀ e ∈ pre, e.2.stop ≤ first)
    (hpost : ∀ e ∈ post, run.stop ≤ e.1) :
    joinCount (pre ++ (first, run) :: post) = joinCount (pre ++ post) +
      (between pre.getLast? (some (first, run)) + between (some (first, run)) post.head?) := by
  have hnone : between pre.getLast? post.head? = 0 := by
    refine between_eq_zero fun e e' he he' => ?_
    exact (hpre e (List.mem_of_getLast? he)).trans_lt
      (hlt.trans_le (hpost e' (List.mem_of_mem_head? he')))
  rw [joinCount_append, joinCount_append, joinCount, List.head?_cons, hnone]
  omega

theorem Exact.insert (h : t.Exact) (hlt : first < run.stop)
    (hfree : ∀ x, first ≤ x → x < run.stop → t.shownAt x = none) :
    (t.insert first run).Exact := by
  obtain ⟨pre, post, hruns, hins, hpre, hpost⟩ :=
    h.runs.exists_insert_eq (apart_of_shownAt h.runs hlt hfree) hlt
  have hr : RunMap.Runs Run.stop (pre ++ post) := hruns ▸ h.runs
  refine ⟨h.runs.insert (apart_of_shownAt h.runs hlt hfree) hlt, ?_⟩
  change t.joins + t.joinsBeside first run = joinCount (RunMap.insert first run t.runs)
  rw [hins, joinCount_middle hlt hpre hpost, joinsBeside_eq hlt hruns hr hpre hpost, h.joins, hruns]

theorem Exact.shownAt_insert (h : t.Exact) (hlt : first < run.stop)
    (hfree : ∀ x, first ≤ x → x < run.stop → t.shownAt x = none) (x : ℕ) :
    (t.insert first run).shownAt x =
      if first ≤ x ∧ x < run.stop then some (run.shown first x) else t.shownAt x := by
  have hapart := apart_of_shownAt h.runs hlt hfree
  have hmem : ∀ e, e ∈ (t.insert first run).runs ↔ e = (first, run) ∨ e ∈ t.runs :=
    fun e => h.runs.mem_insert hapart hlt
  split_ifs with hx
  · exact shownAt_eq_some (h.insert hlt hfree).runs ((hmem _).mpr (.inl rfl)) hx.1 hx.2
  · refine shownAt_congr h.runs (h.insert hlt hfree).runs fun e hle hltx => ?_
    rw [hmem]
    refine or_iff_right ?_
    rintro rfl
    exact hx ⟨hle, hltx⟩

theorem Exact.remove_eq (h : t.Exact) {e : ℕ × Run φ} (he : e ∈ t.runs) :
    t.remove e.1 =
      { t with
        joins := t.joins - joinsBeside { t with runs := RunMap.erase e.1 t.runs } e.1 e.2
        runs := RunMap.erase e.1 t.runs } := by
  cases hfind : t.runs.find? fun e' => decide (e'.1 = e.1) with
  | none => exact absurd (decide_eq_true rfl) (List.find?_eq_none.mp hfind e he)
  | some e' =>
    have hkey : e'.1 = e.1 :=
      of_decide_eq_true (List.find?_some (p := fun e' : ℕ × Run φ => decide (e'.1 = e.1)) hfind)
    obtain rfl := h.runs.eq_of_key (List.mem_of_find?_eq_some hfind) he hkey
    rw [Table.remove, hfind]

theorem Exact.remove (h : t.Exact) {e : ℕ × Run φ} (he : e ∈ t.runs) : (t.remove e.1).Exact := by
  obtain ⟨pre, post, hruns⟩ := List.append_of_mem he
  have hr : RunMap.Runs Run.stop (pre ++ (e.1, e.2) :: post) := hruns ▸ h.runs
  obtain ⟨hlt, hrest, hpre, hpost⟩ := RunMap.runs_middle_iff.mp hr
  have herase : RunMap.erase e.1 t.runs = pre ++ post := by
    rw [hruns]
    exact hr.erase_middle
  rw [h.remove_eq he]
  refine ⟨h.runs.erase e.1, ?_⟩
  change t.joins - _ = joinCount (RunMap.erase e.1 t.runs)
  rw [joinsBeside_eq hlt herase hrest hpre hpost, h.joins, herase, hruns]
  have hmiddle := joinCount_middle hlt hpre hpost
  rw [Prod.mk.eta] at hmiddle ⊢
  rw [hmiddle, Nat.add_sub_cancel]

theorem Exact.runs_remove (h : t.Exact) {e : ℕ × Run φ} (he : e ∈ t.runs) :
    (t.remove e.1).runs = RunMap.erase e.1 t.runs := by
  rw [h.remove_eq he]

theorem Exact.mem_remove (h : t.Exact) {e e' : ℕ × Run φ} (he : e ∈ t.runs) :
    e' ∈ (t.remove e.1).runs ↔ e' ∈ t.runs ∧ e' ≠ e := by
  rw [h.runs_remove he, RunMap.mem_erase]
  refine and_congr_right fun he' => not_congr ⟨fun hkey => h.runs.eq_of_key he' he hkey, ?_⟩
  rintro rfl
  rfl

theorem Exact.shownAt_remove (h : t.Exact) {e : ℕ × Run φ} (he : e ∈ t.runs) (x : ℕ) :
    (t.remove e.1).shownAt x = if e.1 ≤ x ∧ x < e.2.stop then none else t.shownAt x := by
  split_ifs with hx
  · refine shownAt_eq_none_iff.mpr fun e' he' hx' => ?_
    obtain ⟨hmem, hne⟩ := (h.mem_remove he).mp he'
    exact hne (h.runs.eq_of_lt hmem he (hx'.1.trans_lt hx.2) (hx.1.trans_lt hx'.2))
  · refine shownAt_congr h.runs (h.remove he).runs fun e' hle hlt => ?_
    rw [h.mem_remove he]
    refine and_iff_left ?_
    rintro rfl
    exact hx ⟨hle, hlt⟩

/-! ### One run cut -/

/-- A table that shows something else, in which the runs of a kind are still there. -/
structure Becomes (t t' : Table φ) (shown : ℕ → Option (Shown φ))
    (stays : ℕ × Run φ → Prop) : Prop extends t'.Exact where
  shownAt_eq : ∀ x, t'.shownAt x = shown x
  mem_of_stays : ∀ e ∈ t.runs, stays e → e ∈ t'.runs
  registered_eq : t'.registered = t.registered

theorem registered_remove (t : Table φ) (first : ℕ) :
    (t.remove first).registered = t.registered := by
  rw [Table.remove]
  split <;> rfl

theorem Exact.becomes (h : t.Exact) : t.Becomes t t.shownAt fun _ => True where
  toExact := h
  shownAt_eq _ := rfl
  mem_of_stays _ he _ := he
  registered_eq := rfl

/-- A run put where the bytes show nothing. -/
theorem Becomes.insert {t' : Table φ} {shown : ℕ → Option (Shown φ)} {stays : ℕ × Run φ → Prop}
    (h : t.Becomes t' shown stays) (first : ℕ) (run : Run φ) (hlt : first < run.stop)
    (hfree : ∀ x, first ≤ x → x < run.stop → shown x = none) :
    t.Becomes (t'.insert first run)
      (fun x => if first ≤ x ∧ x < run.stop then some (run.shown first x) else shown x) stays := by
  have hfree' : ∀ x, first ≤ x → x < run.stop → t'.shownAt x = none :=
    fun x hle hltx => (h.shownAt_eq x).trans (hfree x hle hltx)
  refine ⟨h.toExact.insert hlt hfree', fun x => ?_, fun e he hstays => ?_, h.registered_eq⟩
  · rw [h.toExact.shownAt_insert hlt hfree', h.shownAt_eq]
  · exact (h.runs.mem_insert (apart_of_shownAt h.runs hlt hfree') hlt).mpr
      (.inr (h.mem_of_stays e he hstays))

/-- A run put, or not, where the bytes show nothing. -/
theorem Becomes.insert_if {t' : Table φ} {shown : ℕ → Option (Shown φ)}
    {stays : ℕ × Run φ → Prop} (h : t.Becomes t' shown stays) (c : Prop) [Decidable c]
    (first : ℕ) (run : Run φ) (hlt : c → first < run.stop)
    (hfree : c → ∀ x, first ≤ x → x < run.stop → shown x = none) :
    t.Becomes (if c then t'.insert first run else t')
      (fun x => if c ∧ first ≤ x ∧ x < run.stop then some (run.shown first x) else shown x)
      stays := by
  by_cases hc : c
  · simp only [hc, true_and, if_true]
    exact h.insert first run (hlt hc) (hfree hc)
  · simp only [hc, false_and, if_false]
    exact h

theorem Exact.becomes_remove (h : t.Exact) {e : ℕ × Run φ} (he : e ∈ t.runs) :
    t.Becomes (t.remove e.1)
      (fun x => if e.1 ≤ x ∧ x < e.2.stop then none else t.shownAt x) fun e' => e' ≠ e where
  toExact := h.remove he
  shownAt_eq := h.shownAt_remove he
  mem_of_stays _ he' hne := (h.mem_remove he).mpr ⟨he', hne⟩
  registered_eq := t.registered_remove e.1

theorem Becomes.congr {t' : Table φ} {shown shown' : ℕ → Option (Shown φ)}
    {stays : ℕ × Run φ → Prop} (h : t.Becomes t' shown stays) (hshown : ∀ x, shown x = shown' x) :
    t.Becomes t' shown' stays :=
  { h with shownAt_eq := fun x => (h.shownAt_eq x).trans (hshown x) }

theorem Becomes.weaken {t' : Table φ} {shown : ℕ → Option (Shown φ)}
    {stays stays' : ℕ × Run φ → Prop} (h : t.Becomes t' shown stays)
    (hstays : ∀ e ∈ t.runs, stays' e → stays e) : t.Becomes t' shown stays' :=
  { h with mem_of_stays := fun e he hs => h.mem_of_stays e he (hstays e he hs) }

/-- A cut run leaves what of it lies outside the range. -/
theorem Exact.cut (h : t.Exact) {e : ℕ × Run φ} (he : e ∈ t.runs) {first stop : ℕ}
    (hle : first ≤ stop) (hlow : e.1 < stop) (hhigh : first < e.2.stop) :
    t.Becomes (Table.cut first stop t e)
      (fun x => if (e.1 ≤ x ∧ x < e.2.stop) ∧ first ≤ x ∧ x < stop then none else t.shownAt x)
      fun e' => e' ≠ e := by
  have hhead := (h.becomes_remove he).insert_if (e.1 < first) e.1 { e.2 with stop := first } id
    (fun hc x hx hx' => if_pos ⟨hx, hx'.trans hhigh⟩)
  have htail := hhead.insert_if (stop < e.2.stop) stop
    { e.2 with backing.offset := e.2.backing.offset + UInt64.ofNat (stop - e.1) } id
    (fun hc x hx hx' => by
      rw [if_neg (fun hin => absurd (hin.2.2.trans_le hle) hx.not_gt),
        if_pos ⟨hlow.le.trans hx, hx'⟩])
  refine htail.congr fun x => ?_
  have hshown : e.1 ≤ x → x < e.2.stop → t.shownAt x = some (e.2.shown e.1 x) :=
    shownAt_eq_some h.runs he
  by_cases hx : e.1 ≤ x ∧ x < e.2.stop
  · by_cases hbelow : x < first
    · have hhead : (e.1 < first ∧ e.1 ≤ x ∧ x < first) := ⟨hx.1.trans_lt hbelow, hx.1, hbelow⟩
      rw [if_neg (fun hc => absurd (hbelow.trans_le hle) hc.2.1.not_gt), if_pos hhead,
        if_neg (fun hc => absurd hbelow hc.2.1.not_gt), hshown hx.1 hx.2]
      rfl
    · by_cases habove : stop ≤ x
      · rw [if_pos ⟨habove.trans_lt hx.2, habove, hx.2⟩,
          if_neg (fun hc => absurd hc.2.2 habove.not_gt), hshown hx.1 hx.2]
        exact congrArg some (e.2.shown_advance hlow.le habove e.2.stop)
      · rw [if_neg (fun hc => habove hc.2.1), if_neg (fun hc => hbelow hc.2.2), if_pos hx,
          if_pos ⟨hx, not_lt.mp hbelow, not_le.mp habove⟩]
  · have hhead : ¬(e.1 < first ∧ e.1 ≤ x ∧ x < first) :=
      fun hc => hx ⟨hc.2.1, hc.2.2.trans hhigh⟩
    have htail : ¬(stop < e.2.stop ∧ stop ≤ x ∧ x < e.2.stop) :=
      fun hc => hx ⟨hlow.le.trans hc.2.1, hc.2.2⟩
    rw [if_neg htail, if_neg hhead, if_neg hx, if_neg fun hc => hx hc.1]

/-! ### A range -/

theorem Becomes.trans {t₁ t₂ : Table φ} {shown₁ shown₂ : ℕ → Option (Shown φ)}
    {stays₁ stays₂ stays : ℕ × Run φ → Prop} (h₁ : t.Becomes t₁ shown₁ stays₁)
    (h₂ : t₁.Becomes t₂ shown₂ stays₂) (hstays : ∀ e, stays e → stays₁ e ∧ stays₂ e) :
    t.Becomes t₂ shown₂ stays where
  toExact := h₂.toExact
  shownAt_eq := h₂.shownAt_eq
  mem_of_stays e he hs :=
    h₂.mem_of_stays e (h₁.mem_of_stays e he (hstays e hs).1) (hstays e hs).2
  registered_eq := h₂.registered_eq.trans h₁.registered_eq

/-- A run that holds a byte. -/
def Covers (e : ℕ × Run φ) (x : ℕ) : Prop := e.1 ≤ x ∧ x < e.2.stop

instance (e : ℕ × Run φ) (x : ℕ) : Decidable (Covers e x) :=
  inferInstanceAs (Decidable (_ ∧ _))

/-- What a step on each run that meets a range does to the bytes of the run in the range, it does, run
after run, to the bytes of all of them. -/
theorem Exact.foldl_becomes {f : Table φ → ℕ × Run φ → Table φ}
    {g : Option (Shown φ) → Option (Shown φ)} {first stop : ℕ}
    (hf : ∀ (t : Table φ) (e : ℕ × Run φ), t.Exact → e ∈ t.runs → e.1 < stop → first < e.2.stop →
      t.Becomes (f t e)
        (fun x => if Covers e x ∧ first ≤ x ∧ x < stop then g (t.shownAt x) else t.shownAt x)
        fun e' => e' ≠ e)
    (h : t.Exact) {runs : List (ℕ × Run φ)}
    (hruns : ∀ e ∈ runs, e ∈ t.runs ∧ e.1 < stop ∧ first < e.2.stop) (hnodup : runs.Nodup) :
    t.Becomes (runs.foldl f t)
      (fun x => if (∃ e ∈ runs, Covers e x) ∧ first ≤ x ∧ x < stop then g (t.shownAt x)
        else t.shownAt x)
      fun e' => e' ∉ runs := by
  induction runs generalizing t with
  | nil =>
    refine { h.becomes with shownAt_eq := fun x => ?_, mem_of_stays := fun _ he _ => he }
    rw [if_neg fun hc => ?_]
    · rfl
    · obtain ⟨⟨e, he, -⟩, -⟩ := hc
      exact List.not_mem_nil he
  | cons e runs ih =>
    obtain ⟨hehead, hnodup⟩ := List.nodup_cons.mp hnodup
    obtain ⟨⟨he, hlow, hhigh⟩, hrest⟩ := List.forall_mem_cons.mp hruns
    have hstep := hf t e h he hlow hhigh
    have hrest' : ∀ e' ∈ runs, e' ∈ (f t e).runs ∧ e'.1 < stop ∧ first < e'.2.stop := by
      intro e' he'
      refine ⟨hstep.mem_of_stays e' (hrest e' he').1 ?_, (hrest e' he').2⟩
      rintro rfl
      exact hehead he'
    refine ((hstep.trans (ih hstep.toExact hrest' hnodup)) fun e' he' => ?_).congr fun x => ?_
    · exact ⟨fun heq => he' (heq ▸ List.mem_cons_self), fun hmem => he' (List.mem_cons_of_mem e hmem)⟩
    · rw [hstep.shownAt_eq]
      by_cases hrange : first ≤ x ∧ x < stop
      · simp only [hrange, and_true, List.exists_mem_cons_iff]
        by_cases hcover : Covers e x
        · have hothers : ¬∃ e' ∈ runs, Covers e' x := by
            rintro ⟨e', he', hx⟩
            obtain rfl := h.runs.eq_of_lt he (hrest e' he').1 (hcover.1.trans_lt hx.2)
              (hx.1.trans_lt hcover.2)
            exact hehead he'
          rw [if_neg hothers, if_pos hcover, if_pos (.inl hcover)]
        · simp only [hcover, false_or, if_false]
      · simp only [hrange, and_false, if_false]

/-- What a step does to the bytes of each run that meets a range, the scan does to all the bytes of the
range that show something. -/
theorem Exact.foldl_meeting {f : Table φ → ℕ × Run φ → Table φ}
    {g : Option (Shown φ) → Option (Shown φ)} {first stop : ℕ}
    (hf : ∀ (t : Table φ) (e : ℕ × Run φ), t.Exact → e ∈ t.runs → e.1 < stop → first < e.2.stop →
      t.Becomes (f t e)
        (fun x => if Covers e x ∧ first ≤ x ∧ x < stop then g (t.shownAt x) else t.shownAt x)
        fun e' => e' ≠ e)
    (hg : g none = none) (h : t.Exact) :
    t.Becomes ((t.meeting first stop).foldl f t)
      (fun x => if first ≤ x ∧ x < stop then g (t.shownAt x) else t.shownAt x)
      fun e => e.2.stop ≤ first ∨ stop ≤ e.1 := by
  have hmem : ∀ e, e ∈ t.meeting first stop ↔ e ∈ t.runs ∧ e.1 < stop ∧ first < e.2.stop := by
    intro e
    rw [Table.meeting, h.runs.meeting_eq, List.mem_reverse, List.mem_filter, decide_eq_true_eq]
  have hnodup : (t.meeting first stop).Nodup := by
    rw [Table.meeting, h.runs.meeting_eq, List.nodup_reverse]
    exact h.runs.nodup.filter _
  have hfold := h.foldl_becomes hf (fun e he => (hmem e).mp he) hnodup
  have hstays : ∀ e ∈ t.runs, (e.2.stop ≤ first ∨ stop ≤ e.1) → e ∉ t.meeting first stop := by
    intro e _ he hmeets
    obtain ⟨-, hlow, hhigh⟩ := (hmem e).mp hmeets
    exact he.elim hhigh.not_ge hlow.not_ge
  refine (hfold.weaken hstays).congr fun x => ?_
  by_cases hrange : first ≤ x ∧ x < stop
  · rw [if_pos hrange]
    split_ifs with hcover
    · rfl
    · have hnone : t.shownAt x = none := by
        refine shownAt_eq_none_iff.mpr fun e he hx => hcover ⟨⟨e, ?_, hx⟩, hrange⟩
        exact (hmem e).mpr ⟨he, hx.1.trans_lt hrange.2, hrange.1.trans_lt hx.2⟩
      rw [hnone, hg]
  · rw [if_neg hrange, if_neg fun hc => hrange hc.2]

theorem Exact.forget (h : t.Exact) {first stop : ℕ} (hle : first ≤ stop) :
    t.Becomes (t.forget first stop)
      (fun x => if first ≤ x ∧ x < stop then none else t.shownAt x)
      fun e => e.2.stop ≤ first ∨ stop ≤ e.1 :=
  h.foldl_meeting (g := fun _ => none) (fun _ _ ht he hlow hhigh => ht.cut he hle hlow hhigh) rfl

theorem Exact.record (h : t.Exact) {first stop : ℕ} (hle : first ≤ stop) (backing : Backing φ)
    (prot : ℤ) :
    t.Becomes (t.record first stop backing prot)
      (fun x => if first ≤ x ∧ x < stop then
        some ⟨backing.fd, backing.offset + UInt64.ofNat (x - first), prot⟩ else t.shownAt x)
      fun e => e.2.stop ≤ first ∨ stop ≤ e.1 := by
  have hinsert := (h.forget hle).insert_if (first < stop) first { stop, backing, prot } id
    fun _ x hx hx' => if_pos ⟨hx, hx'⟩
  refine hinsert.congr fun x => ?_
  by_cases hx : first ≤ x ∧ x < stop
  · rw [if_pos ⟨hx.1.trans_lt hx.2, hx⟩, if_pos hx]
    rfl
  · rw [if_neg fun hc => hx hc.2, if_neg hx, if_neg hx]

/-- The bytes of a run in the range, at another protection. -/
theorem Exact.repaint (h : t.Exact) {e : ℕ × Run φ} (he : e ∈ t.runs) {first stop : ℕ}
    (prot : ℤ) (hlow : e.1 < stop) (hhigh : first < e.2.stop) (hlt : first < stop) :
    t.Becomes (Table.repaint first stop prot t e)
      (fun x => if Covers e x ∧ first ≤ x ∧ x < stop then
        (t.shownAt x).map fun s => { s with prot } else t.shownAt x)
      fun e' => e' ≠ e := by
  have hrun : e.1 < e.2.stop := h.runs.lt e he
  have hmeet : max e.1 first < min e.2.stop stop :=
    max_lt (lt_min hrun hlow) (lt_min hhigh hlt)
  have hinsert := (h.forget hmeet.le).insert (max e.1 first)
    { stop := min e.2.stop stop, prot,
      backing := { e.2.backing with
        offset := e.2.backing.offset + UInt64.ofNat (max e.1 first - e.1) } } hmeet
    fun x hx hx' => if_pos ⟨hx, hx'⟩
  have hstays : ∀ e' ∈ t.runs, e' ≠ e →
      e'.2.stop ≤ max e.1 first ∨ min e.2.stop stop ≤ e'.1 := by
    intro e' he' hne
    by_contra hmeets
    rw [not_or, not_le, not_le] at hmeets
    exact hne (h.runs.eq_of_lt he' he (hmeets.2.trans_le (min_le_left _ _))
      ((le_max_left _ _).trans_lt hmeets.1))
  refine (hinsert.weaken hstays).congr fun x => ?_
  have hiff : (max e.1 first ≤ x ∧ x < min e.2.stop stop) ↔
      Covers e x ∧ first ≤ x ∧ x < stop := by
    rw [max_le_iff, lt_min_iff, Covers]
    tauto
  simp only [hiff]
  split_ifs with hx
  · rw [shownAt_eq_some h.runs he hx.1.1 hx.1.2, Option.map_some]
    have hadvance := Run.shown_advance { e.2 with prot } (le_max_left e.1 first) (hiff.mpr hx).1
      (min e.2.stop stop)
    exact congrArg some hadvance
  · rfl

theorem Exact.protect (h : t.Exact) {first stop : ℕ} (hlt : first < stop) (prot : ℤ) :
    t.Becomes (t.protect first stop prot)
      (fun x => if first ≤ x ∧ x < stop then
        (t.shownAt x).map fun s => { s with prot } else t.shownAt x)
      fun e => e.2.stop ≤ first ∨ stop ≤ e.1 :=
  h.foldl_meeting (g := Option.map fun s => { s with prot })
    (fun _ _ ht he hlow hhigh => ht.repaint he prot hlow hhigh hlt) rfl

end Table

end ReimsVgpu.Os
