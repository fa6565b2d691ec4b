import Mathlib.Logic.Function.Basic
import Mathlib.Tactic.FinCases
import ReimsVgpu.Library.Execution
import ReimsVgpu.Remap.Holds

/-!
# Deferred unmaps among the threads that overwrite

Threads unmap, overwrite and let holds go. Each call of the operating system and each hold of the
lock over the bookkeeping is one step, and between two steps of a thread any other thread may take
one. An overwrite maps first and takes its pages out of the waiting unmaps in a second step; a hold's
drop takes the waiting ranges in one step and unmaps them, one after the other, in later ones. In
these two windows an unmap may reach a newer mapping.

Beside the state of the code, the world keeps a clock and, for each byte, when an overwrite last
mapped it and when its unmap was last asked for: no step reads them.

## Main definitions

* `changedPages`: the pages that a call changes.
* `World`, `Action`, `World.Step`: the threads' steps.
* `World.Spares`: a drop unmaps no byte that was mapped after its unmap was asked for.
* `World.Guarded`: no overwrite and no drop in the other's window.

## Main results

* `spares_of_guarded`: in a run of guarded steps every unmap spares the newer mappings.
* `newer_mapping_unmapped`: a run in which one does not.
-/

namespace ReimsVgpu.Remap

/-! ### The pages of a call -/

/-- The sum, or the largest word. -/
def saturatingAdd (a b : UInt64) : UInt64 := UInt64.ofNat (min (a.toNat + b.toNat) (2 ^ 64 - 1))

/-- The difference, or zero. -/
def saturatingSub (a b : UInt64) : UInt64 := UInt64.ofNat (a.toNat - b.toNat)

/-- The first byte and the length of the pages that a call over some bytes changes. -/
def pages (addr len page : UInt64) : UInt64 × UInt64 :=
  let mask := page - 1
  let first := addr &&& ~~~mask
  let stop := saturatingAdd (saturatingAdd addr len) mask &&& ~~~mask
  (first, saturatingSub stop first)

/-- The pages that a call changes, as a range. -/
def changedPages (addr len page : UInt64) : Pages :=
  let (first, length) := pages addr len page
  ⟨first.toNat, (saturatingAdd first length).toNat⟩

/-- The pages of a hold: at least one. -/
def holdPages (bytes length page : UInt64) : Pages := changedPages bytes (max length 1) page

/-- The pages that a remap maps: as many bytes more as the source lies past its page. -/
def remapPages (dst src len page : UInt64) : Pages :=
  changedPages dst (saturatingAdd len (src &&& (page - 1))) page

/-! ### The threads -/

/-- What a thread is in the middle of. -/
inductive Phase
  | idle
  /-- An unmap that does not wait, to be made. -/
  | unmapping (pages : Pages)
  /-- An overwrite that has mapped its pages. -/
  | overwriting (pages : Pages)
  /-- A drop that has taken ranges, with when each byte's unmap had been asked for. -/
  | dropping (taken : List Pages) (asked : ℕ → ℕ)

/-- The steps of the threads. -/
inductive Action (τ : Type*)
  /-- `UnmapHold::new`. -/
  | hold (t : τ) (bytes length : UInt64)
  /-- `deallocate`, under the lock. -/
  | deallocate (t : τ) (addr len : UInt64)
  /-- `deallocate`, the call that does not wait. -/
  | unmapNow (t : τ)
  /-- `allocate_fixed_overwrite`, the call. -/
  | allocateFixedOverwrite (t : τ) (addr len : UInt64)
  /-- `remap_shared_overwrite`, the call. -/
  | remapSharedOverwrite (t : τ) (dst src len : UInt64)
  /-- Either overwrite, under the lock. -/
  | replace (t : τ)
  /-- The drop of a hold, under the lock. -/
  | drop (t : τ) (first : ℕ) (id : UInt64)
  /-- The drop's next call. -/
  | unmapTaken (t : τ)
  /-- The drop's end. -/
  | dropped (t : τ)

/-- The bookkeeping, the holds that were not dropped, and the threads; and the history of each byte. -/
structure World (τ : Type*) where
  holds : Holds
  handles : List (ℕ × UInt64)
  phase : τ → Phase
  clock : ℕ
  mappedAt : ℕ → ℕ
  askedAt : ℕ → ℕ

namespace World

variable {τ : Type*} [DecidableEq τ]

def new : World τ where
  holds := .new
  handles := []
  phase _ := .idle
  clock := 1
  mappedAt _ := 0
  askedAt _ := 0

/-- A thread goes on to a phase. -/
def goOn (w : World τ) (t : τ) (p : Phase) : World τ :=
  { w with phase := Function.update w.phase t p, clock := w.clock + 1 }

/-- An overwrite's call. -/
def overwrite (w : World τ) (t : τ) (pages : Pages) : World τ :=
  { w.goOn t (.overwriting pages) with
    mappedAt := fun x => if x ∈ pages then w.clock else w.mappedAt x }

/-- An unmap asked for, under the lock. -/
def ask (w : World τ) (t : τ) (pages : Pages) : World τ :=
  let (waits, holds) := w.holds.unmap pages
  { w.goOn t (if waits then .idle else .unmapping pages) with
    holds
    askedAt := fun x => if x ∈ pages then w.clock else w.askedAt x }

/-- A drop, under the lock. -/
def take (w : World τ) (t : τ) (first : ℕ) (id : UInt64) : World τ :=
  let (free, holds) := w.holds.release first id
  { w.goOn t (.dropping free w.askedAt) with holds, handles := w.handles.erase (first, id) }

/-- One step of one thread. -/
inductive Step (page : UInt64) : World τ → Action τ → World τ → Prop
  | hold {w : World τ} {t : τ} (bytes length : UInt64) (ht : w.phase t = .idle) :
      Step page w (.hold t bytes length)
        { w.goOn t .idle with
          holds := (w.holds.hold (holdPages bytes length page)).2
          handles := ((holdPages bytes length page).start,
            (w.holds.hold (holdPages bytes length page)).1) :: w.handles }
  | deallocate {w : World τ} {t : τ} (addr len : UInt64) (ht : w.phase t = .idle) :
      Step page w (.deallocate t addr len) (w.ask t (changedPages addr len page))
  | unmapNow {w : World τ} {t : τ} {pages : Pages} (ht : w.phase t = .unmapping pages) :
      Step page w (.unmapNow t) (w.goOn t .idle)
  | allocateFixedOverwrite {w : World τ} {t : τ} (addr len : UInt64) (ht : w.phase t = .idle) :
      Step page w (.allocateFixedOverwrite t addr len) (w.overwrite t (changedPages addr len page))
  | remapSharedOverwrite {w : World τ} {t : τ} (dst src len : UInt64) (ht : w.phase t = .idle) :
      Step page w (.remapSharedOverwrite t dst src len)
        (w.overwrite t (remapPages dst src len page))
  | replace {w : World τ} {t : τ} {pages : Pages} (ht : w.phase t = .overwriting pages) :
      Step page w (.replace t) { w.goOn t .idle with holds := w.holds.replaced pages }
  | drop {w : World τ} {t : τ} {first : ℕ} {id : UInt64} (ht : w.phase t = .idle)
      (hlive : (first, id) ∈ w.handles) : Step page w (.drop t first id) (w.take t first id)
  | unmapTaken {w : World τ} {t : τ} {range : Pages} {taken : List Pages} {asked : ℕ → ℕ}
      (ht : w.phase t = .dropping (range :: taken) asked) :
      Step page w (.unmapTaken t) (w.goOn t (.dropping taken asked))
  | dropped {w : World τ} {t : τ} {asked : ℕ → ℕ} (ht : w.phase t = .dropping [] asked) :
      Step page w (.dropped t) (w.goOn t .idle)

/-! ### What a drop may unmap -/

/-- A drop's call covers no byte that an overwrite mapped after its unmap was asked for. -/
def Spares (w : World τ) : Action τ → Prop
  | .unmapTaken t => ∀ range taken asked, w.phase t = .dropping (range :: taken) asked →
      ∀ x ∈ range, ¬asked x < w.mappedAt x
  | _ => True

/-- No drop has taken a byte of the pages that it has not unmapped yet. -/
def NoneTaken (w : World τ) (pages : Pages) : Prop :=
  ∀ t taken asked, w.phase t = .dropping taken asked → ∀ range ∈ taken, ¬range.Shares pages

/-- No waiting range that no hold but the given one meets has a byte that an overwrite has mapped
since its unmap was asked for and not yet taken out. -/
def NoneOverwritten (w : World τ) (first : ℕ) (id : UInt64) : Prop :=
  ∀ range ∈ w.holds.waiting,
    (∀ e ∈ w.holds.held, e.key ≠ (first, id) → ¬(e.first < range.stop ∧ range.start < e.stop)) →
      ∀ x ∈ range, ∀ t pages, w.phase t = .overwriting pages → x ∈ pages →
        ¬w.askedAt x < w.mappedAt x

/-- An overwrite and a drop that are not in each other's window. -/
def Guarded (page : UInt64) (w : World τ) : Action τ → Prop
  | .allocateFixedOverwrite _ addr len => w.NoneTaken (changedPages addr len page)
  | .remapSharedOverwrite _ dst src len => w.NoneTaken (remapPages dst src len page)
  | .drop _ first id => w.NoneOverwritten first id
  | _ => True

/-! ### What guarded steps keep -/

/-- A thread has overwritten a byte and not yet taken it out of the waiting unmaps. -/
def Overwriting (w : World τ) (x : ℕ) : Prop :=
  ∃ t pages, w.phase t = .overwriting pages ∧ x ∈ pages

/-- A byte that waits, and one that a drop has taken, was not mapped after its unmap was asked for,
unless the overwrite that mapped it is still to take it out. -/
structure Kept (w : World τ) : Prop where
  bounded : w.holds.Bounded
  mapped_lt : ∀ x, w.mappedAt x < w.clock
  waits : ∀ x, 0 < w.holds.waitsAt x → w.mappedAt x ≤ w.askedAt x ∨ w.Overwriting x
  taken : ∀ t taken asked, w.phase t = .dropping taken asked →
    ∀ range ∈ taken, ∀ x ∈ range, w.mappedAt x ≤ asked x

omit [DecidableEq τ] in
theorem kept_new : Kept (new : World τ) where
  bounded _ he := absurd he List.not_mem_nil
  mapped_lt _ := Nat.one_pos
  waits _ hx := absurd hx (lt_irrefl 0)
  taken _ _ _ ht := Phase.noConfusion ht

theorem phase_goOn_self (w : World τ) (t : τ) (p : Phase) : (w.goOn t p).phase t = p := by
  simp only [goOn, Function.update_self]

theorem phase_goOn_of_ne (w : World τ) {t t' : τ} (h : t' ≠ t) (p : Phase) :
    (w.goOn t p).phase t' = w.phase t' := by
  simp only [goOn, Function.update_of_ne h]

/-- A thread that does not overwrite the byte goes on: the other overwrites stay. -/
theorem Overwriting.goOn {w : World τ} {t : τ} {x : ℕ} (hx : w.Overwriting x)
    (ht : ∀ pages, w.phase t = .overwriting pages → x ∉ pages) (p : Phase) :
    (w.goOn t p).Overwriting x := by
  obtain ⟨t', pages, ht', hmem⟩ := hx
  have hne : t' ≠ t := by
    rintro rfl
    exact ht pages ht' hmem
  exact ⟨t', pages, (w.phase_goOn_of_ne hne p).trans ht', hmem⟩

/-- What a thread has taken after another step: what it had taken before, or what the step took. -/
theorem dropping_goOn {w : World τ} {t t' : τ} {p : Phase} {taken : List Pages} {asked : ℕ → ℕ}
    (h : (w.goOn t p).phase t' = .dropping taken asked) :
    p = .dropping taken asked ∨ w.phase t' = .dropping taken asked := by
  by_cases ht : t' = t
  · rw [ht] at h
    exact .inl ((w.phase_goOn_self t p).symm.trans h)
  · exact .inr ((w.phase_goOn_of_ne ht p).symm.trans h)

/-- A step that maps nothing and asks for nothing keeps what it leaves waiting and taken. -/
theorem Kept.goOn {w : World τ} (hk : w.Kept) {t : τ} {p : Phase} {holds : Holds}
    {handles : List (ℕ × UInt64)} (hbounded : holds.Bounded)
    (hwaits : ∀ x, 0 < holds.waitsAt x →
      0 < w.holds.waitsAt x ∧ ∀ pages, w.phase t = .overwriting pages → x ∉ pages)
    (htaken : ∀ taken asked, p = .dropping taken asked →
      ∀ range ∈ taken, ∀ x ∈ range, w.mappedAt x ≤ asked x) :
    Kept { w.goOn t p with holds, handles } where
  bounded := hbounded
  mapped_lt x := (hk.mapped_lt x).trans (Nat.lt_succ_self _)
  waits x hx :=
    (hk.waits x (hwaits x hx).1).imp_right fun hover => hover.goOn (hwaits x hx).2 p
  taken t' taken asked ht' :=
    (dropping_goOn ht').elim (htaken taken asked) (hk.taken t' taken asked)

/-- The step of a thread that overwrites nothing. -/
theorem Kept.goOn_of_ne {w : World τ} (hk : w.Kept) {t : τ} {p : Phase} {holds : Holds}
    {handles : List (ℕ × UInt64)} (hne : ∀ pages, w.phase t ≠ .overwriting pages)
    (hbounded : holds.Bounded) (hwaits : ∀ x, holds.waitsAt x ≤ w.holds.waitsAt x)
    (htaken : ∀ taken asked, p = .dropping taken asked →
      ∀ range ∈ taken, ∀ x ∈ range, w.mappedAt x ≤ asked x) :
    Kept { w.goOn t p with holds, handles } :=
  hk.goOn hbounded
    (fun x hx => ⟨hx.trans_le (hwaits x), fun pages ht => absurd ht (hne pages)⟩) htaken

theorem Kept.overwrite {w : World τ} (hk : w.Kept) {t : τ} {pages : Pages}
    (ht : w.phase t = .idle) (hnone : w.NoneTaken pages) : (w.overwrite t pages).Kept where
  bounded := hk.bounded
  mapped_lt x := by
    change (if x ∈ pages then w.clock else w.mappedAt x) < w.clock + 1
    split_ifs
    · exact Nat.lt_succ_self _
    · exact (hk.mapped_lt x).trans (Nat.lt_succ_self _)
  waits x hx := by
    by_cases hmem : x ∈ pages
    · exact .inr ⟨t, pages, w.phase_goOn_self t _, hmem⟩
    · have hsame : (w.overwrite t pages).mappedAt x = w.mappedAt x := if_neg hmem
      rw [hsame]
      refine (hk.waits x hx).imp_right fun hover => hover.goOn ?_ (.overwriting pages)
      intro pages' ht'
      rw [ht] at ht'
      cases ht'
  taken t' taken asked ht' range hrange x hx := by
    rcases dropping_goOn ht' with hp | ht'
    · cases hp
    · have hmem : x ∉ pages := fun hmem => hnone t' taken asked ht' range hrange ⟨x, hx, hmem⟩
      have hsame : (w.overwrite t pages).mappedAt x = w.mappedAt x := if_neg hmem
      rw [hsame]
      exact hk.taken t' taken asked ht' range hrange x hx

theorem Kept.ask {w : World τ} (hk : w.Kept) {t : τ} (ht : w.phase t = .idle) (pages : Pages) :
    (w.ask t pages).Kept where
  bounded := by
    change (w.holds.unmap pages).2.Bounded
    rw [Holds.Bounded, w.holds.held_unmap, w.holds.longest_unmap]
    exact hk.bounded
  mapped_lt x := (hk.mapped_lt x).trans (Nat.lt_succ_self _)
  waits x hx := by
    change 0 < (w.holds.unmap pages).2.waitsAt x at hx
    change w.mappedAt x ≤ (if x ∈ pages then w.clock else w.askedAt x) ∨ _
    by_cases hmem : x ∈ pages
    · rw [if_pos hmem]
      exact .inl (hk.mapped_lt x).le
    · rw [Holds.waitsAt_unmap, if_neg hmem] at hx
      rw [if_neg hmem]
      refine (hk.waits x hx).imp_right fun hover => hover.goOn ?_ _
      intro pages' ht'
      rw [ht] at ht'
      cases ht'
  taken t' taken asked ht' := by
    refine (dropping_goOn ht').elim (fun hp => ?_) (hk.taken t' taken asked)
    split_ifs at hp

theorem Kept.take {w : World τ} (hk : w.Kept) {t : τ} {first : ℕ} {id : UInt64}
    (ht : w.phase t = .idle) (hnone : w.NoneOverwritten first id) :
    (w.take t first id).Kept := by
  have hbounded : (w.holds.release first id).2.Bounded := by
    intro e he
    rw [w.holds.longest_release]
    rw [w.holds.held_release] at he
    exact hk.bounded e (List.mem_of_mem_filter he)
  refine hk.goOn_of_ne (fun pages => ?_) hbounded (fun x => ?_) ?_
  · rw [ht]
    exact Phase.noConfusion
  · have htotal := w.holds.answers_add_waitsAt_release first id x
    exact (Nat.le_add_left _ _).trans_eq htotal
  · intro taken asked hp range hrange x hx
    obtain ⟨rfl, rfl⟩ := Phase.dropping.inj hp
    obtain ⟨hwaiting, hmeets⟩ := Holds.of_mem_release hrange
    have hwaits : 0 < w.holds.waitsAt x :=
      List.countP_pos_iff.mpr ⟨range, hwaiting, decide_eq_true hx⟩
    rcases hk.waits x hwaits with hle | ⟨t', pages, ht', hmem⟩
    · exact hle
    · refine not_lt.mp (hnone range hwaiting ?_ x hx t' pages ht' hmem)
      intro e he hkey hover
      have hstays : e ∈ (w.holds.release first id).2.held := by
        rw [w.holds.held_release]
        exact List.mem_filter.mpr ⟨he, decide_eq_true hkey⟩
      rw [(Holds.meets_iff hbounded range).mpr ⟨e, hstays, hover⟩] at hmeets
      cases hmeets

theorem Kept.step {page : UInt64} {w w' : World τ} {a : Action τ} (hk : w.Kept)
    (hs : Step page w a w') (hguard : w.Guarded page a) : w'.Kept := by
  cases hs with
  | hold bytes length ht =>
    refine hk.goOn_of_ne (fun pages => ?_) (Holds.bounded_hold hk.bounded _) (fun x => le_rfl)
      fun _ _ hp => Phase.noConfusion hp
    rw [ht]
    exact Phase.noConfusion
  | deallocate addr len ht => exact hk.ask ht _
  | unmapNow ht =>
    refine hk.goOn_of_ne (fun pages => ?_) hk.bounded (fun x => le_rfl)
      fun _ _ hp => Phase.noConfusion hp
    rw [ht]
    exact Phase.noConfusion
  | allocateFixedOverwrite addr len ht => exact hk.overwrite ht hguard
  | remapSharedOverwrite dst src len ht => exact hk.overwrite ht hguard
  | @replace t pages ht =>
    refine hk.goOn ?_ (fun x hx => ?_) fun _ _ hp => Phase.noConfusion hp
    · rw [Holds.Bounded, w.holds.held_replaced, w.holds.longest_replaced]
      exact hk.bounded
    · rw [Holds.waitsAt_replaced] at hx
      split_ifs at hx with hmem
      · exact absurd hx (lt_irrefl 0)
      · refine ⟨hx, fun pages' ht' => ?_⟩
        rw [ht] at ht'
        obtain rfl := Phase.overwriting.inj ht'
        exact hmem
  | drop ht hlive => exact hk.take ht hguard
  | @unmapTaken t range taken asked ht =>
    refine hk.goOn_of_ne (fun pages => ?_) hk.bounded (fun x => le_rfl)
      fun taken' asked' hp range' hrange => ?_
    · rw [ht]
      exact Phase.noConfusion
    · obtain ⟨rfl, rfl⟩ := Phase.dropping.inj hp
      exact hk.taken t (range :: taken) asked ht range' (List.mem_cons_of_mem range hrange)
  | dropped ht =>
    refine hk.goOn_of_ne (fun pages => ?_) hk.bounded (fun x => le_rfl)
      fun _ _ hp => Phase.noConfusion hp
    rw [ht]
    exact Phase.noConfusion

/-! ### Every guarded run -/

/-- Whatever thread goes next after a run of guarded steps, its call spares every byte that was
mapped after its unmap was asked for. -/
theorem spares_of_guarded {page : UInt64} {w w' : World τ} {as : List (Action τ)} {a : Action τ}
    (hrun : Execution (fun w a w' => Step page w a w' ∧ w.Guarded page a) new as w)
    (hs : Step page w a w') : w.Spares a := by
  have hk : w.Kept := hrun.invariant kept_new fun w a w' hk hs => hk.step hs.1 hs.2
  cases hs with
  | unmapTaken ht =>
    intro range taken asked ht' x hx
    exact not_lt.mpr (hk.taken _ _ asked ht' range List.mem_cons_self x hx)
  | _ => trivial

/-- A hold's page, unmapped under it, is overwritten and taken out before the hold drops. -/
theorem overwritten_page_spared :
    ∃ (as : List (Action (Fin 2))) (w w' : World (Fin 2)),
      as = [.hold 0 0x4000 0x1000, .deallocate 1 0x4000 0x2000,
        .allocateFixedOverwrite 1 0x4000 0x1000, .replace 1, .drop 0 0x4000 0] ∧
      Execution (Step 0x1000) new as w ∧ Step 0x1000 w (.unmapTaken 0) w' ∧
        w.Spares (.unmapTaken 0) := by
  have hhold : Execution (fun w a w' => Step 0x1000 w a w' ∧ w.Guarded 0x1000 a)
      (new : World (Fin 2)) [.hold 0 0x4000 0x1000] _ :=
    .single ⟨.hold 0x4000 0x1000 rfl, trivial⟩
  have hask := hhold.snoc (a := Action.deallocate 1 0x4000 0x2000)
    ⟨.deallocate 0x4000 0x2000 rfl, trivial⟩
  have hmap := hask.snoc (a := Action.allocateFixedOverwrite 1 0x4000 0x1000)
    ⟨.allocateFixedOverwrite 0x4000 0x1000 rfl, fun t taken asked ht => by
      fin_cases t <;> exact Phase.noConfusion ht⟩
  have hreplace := hmap.snoc (a := Action.replace 1) ⟨.replace rfl, trivial⟩
  have hdrop := hreplace.snoc (a := Action.drop 0 0x4000 0)
    ⟨.drop rfl (by decide), fun _ _ _ _ _ t pages ht => by
      fin_cases t <;> exact Phase.noConfusion ht⟩
  exact ⟨_, _, _, rfl, hdrop.mono fun _ _ _ hs => hs.1, .unmapTaken rfl,
    spares_of_guarded hdrop (.unmapTaken rfl)⟩

/-- A page whose unmap waits is overwritten and then taken by the drop of the only hold on it, before
the overwrite takes it out: the drop unmaps what the overwrite mapped. -/
theorem newer_mapping_unmapped :
    ∃ (as : List (Action (Fin 2))) (w w' : World (Fin 2)) (a : Action (Fin 2)),
      as = [.hold 0 0x4000 0x1000, .deallocate 1 0x4000 0x1000,
        .allocateFixedOverwrite 1 0x4000 0x1000, .drop 0 0x4000 0] ∧
      Execution (Step 0x1000) new as w ∧ Step 0x1000 w a w' ∧ ¬w.Spares a := by
  have hhold : Execution (Step 0x1000) (new : World (Fin 2)) [.hold 0 0x4000 0x1000] _ :=
    .single (.hold 0x4000 0x1000 rfl)
  have hask := hhold.snoc (a := Action.deallocate 1 0x4000 0x1000) (.deallocate 0x4000 0x1000 rfl)
  have hmap := hask.snoc (a := Action.allocateFixedOverwrite 1 0x4000 0x1000)
    (.allocateFixedOverwrite 0x4000 0x1000 rfl)
  have hdrop := hmap.snoc (a := Action.drop 0 0x4000 0) (.drop rfl (by decide))
  refine ⟨_, _, _, .unmapTaken 0, rfl, hdrop, .unmapTaken rfl, fun hspares => ?_⟩
  exact hspares _ _ _ rfl 0x4000 (by decide) (by decide)

end World

end ReimsVgpu.Remap
