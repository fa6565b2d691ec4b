import ReimsVgpu.Library.Execution
import ReimsVgpu.Remap.Holds

/-!
# Runs of holds and deferred unmaps

Any sequence of the operations, with what each answered. The live holds are those made and not yet
released, counted over the run and not read from the bookkeeping: the two agree as long as no hold
takes the number of a live hold with the same first byte, which needs as many holds as there are
numbers.

## Main definitions

* `Event`, `Step`: an operation with its answer.
* `live`: the holds that a run made and did not release.
* `Sound`: a run whose holds are of whole pages, under numbers of their own.
* `Exact`: what the bookkeeping owes its callers after a run.

## Main results

* `exact_of_sound`: after every sound run.
* `unsound_holds_mistaken`: an empty hold, and one that takes a live hold's number, are mistaken.
-/

namespace ReimsVgpu.Remap

/-- An operation on the bookkeeping, with what it answered. -/
inductive Event
  | held (pages : Pages) (id : UInt64)
  | unmapped (pages : Pages) (waits : Bool)
  | replaced (pages : Pages)
  | released (first : ℕ) (id : UInt64) (free : List Pages)
deriving DecidableEq

/-- One operation. -/
inductive Step : Holds → Event → Holds → Prop
  | hold (h : Holds) (pages : Pages) : Step h (.held pages (h.hold pages).1) (h.hold pages).2
  | unmap (h : Holds) (pages : Pages) :
      Step h (.unmapped pages (h.unmap pages).1) (h.unmap pages).2
  | replaced (h : Holds) (pages : Pages) : Step h (.replaced pages) (h.replaced pages)
  | release (h : Holds) (first : ℕ) (id : UInt64) :
      Step h (.released first id (h.release first id).1) (h.release first id).2

/-- The live holds after one more event. -/
def liveAfter (live : List Hold) : Event → List Hold
  | .held pages id => ⟨pages.start, id, pages.stop⟩ :: live
  | .released first id _ => live.eraseP fun e => decide (e.key = (first, id))
  | .unmapped _ _ => live
  | .replaced _ => live

/-- The holds made and not released. -/
def live (es : List Event) : List Hold := es.foldl liveAfter []

/-- A hold takes at least a byte, and not the number of a live hold with its first byte. -/
def Event.Sound (live : List Hold) : Event → Prop
  | .held pages id => pages.start < pages.stop ∧ ∀ e ∈ live, e.key ≠ (pages.start, id)
  | _ => True

/-- A run of sound events. -/
def Sound (es : List Event) : Prop := ∀ pre e post, es = pre ++ e :: post → e.Sound (live pre)

/-- An event that unmaps or replaces a byte. -/
def Event.Touches (x : ℕ) : Event → Prop
  | .unmapped pages _ => x ∈ pages
  | .replaced pages => x ∈ pages
  | _ => False

/-- An event that lets an unmap of a byte wait. -/
def Event.Defers (x : ℕ) (e : Event) : Prop := ∃ pages, e = .unmapped pages true ∧ x ∈ pages

/-- How often an event answers a byte. -/
def Event.answers (x : ℕ) : Event → ℕ
  | .released _ _ free => Remap.answers free x
  | _ => 0

/-- How often a run answers a byte. -/
def answered (x : ℕ) (es : List Event) : ℕ := (es.map (Event.answers x)).sum

/-- What the bookkeeping owes after the events. -/
structure Exact (es : List Event) (h : Holds) : Prop where
  waiting_nonempty : ∀ w ∈ h.waiting, w.start < w.stop
  waiting_disjoint : h.waiting.Pairwise fun w w' => ¬w.Shares w'
  meets_iff : ∀ pages, pages.start < pages.stop →
    (h.meets pages = true ↔ ∃ e ∈ live es, e.pages.Shares pages)
  unmap_now : ∀ pre post pages waits, es = pre ++ .unmapped pages waits :: post →
    (waits = false ↔ pages.stop ≤ pages.start ∨ ¬∃ e ∈ live pre, e.pages.Shares pages)
  answered_free : ∀ pre post first id free, es = pre ++ .released first id free :: post →
    ∀ w ∈ free, ∀ e ∈ live (pre ++ [.released first id free]), ¬e.pages.Shares w
  answered_once : ∀ pre post pages x, es = pre ++ .unmapped pages true :: post → x ∈ pages →
    (∀ e ∈ post, ¬e.Touches x) →
      answered x post + (h.waiting.countP fun w => decide (x ∈ w)) = 1
  replaced_never : ∀ pre post pages x, es = pre ++ .replaced pages :: post → x ∈ pages →
    (∀ e ∈ post, ¬e.Defers x) → answered x post = 0
  idle : live es = [] → h.waiting = []

/-! ### The accounts of a byte -/

theorem live_concat (es : List Event) (e : Event) : live (es ++ [e]) = liveAfter (live es) e := by
  rw [live, List.foldl_append]
  rfl

theorem answered_concat (x : ℕ) (es : List Event) (e : Event) :
    answered x (es ++ [e]) = answered x es + e.answers x := by
  rw [answered, List.map_append, List.sum_append]
  rfl

theorem Step.answers_add_of_untouched {h h' : Holds} {e : Event} {x : ℕ} (hs : Step h e h')
    (hx : ¬e.Touches x) : e.answers x + h'.waitsAt x = h.waitsAt x := by
  cases hs with
  | hold pages => exact Nat.zero_add _
  | unmap pages =>
    rw [Holds.waitsAt_unmap, if_neg (show x ∉ pages from hx)]
    exact Nat.zero_add _
  | replaced pages =>
    rw [Holds.waitsAt_replaced, if_neg (show x ∉ pages from hx)]
    exact Nat.zero_add _
  | release first id => exact h.answers_add_waitsAt_release first id x

theorem Step.answers_add_le {h h' : Holds} {e : Event} {x : ℕ} (hs : Step h e h')
    (hx : ¬e.Defers x) : e.answers x + h'.waitsAt x ≤ h.waitsAt x := by
  by_cases htouch : e.Touches x
  · cases hs with
    | hold pages => exact htouch.elim
    | unmap pages =>
      rw [Holds.waitsAt_unmap, if_pos (show x ∈ pages from htouch)]
      split_ifs with hwaits
      · rw [hwaits] at hx
        exact absurd ⟨pages, rfl, htouch⟩ hx
      · exact Nat.zero_le _
    | replaced pages =>
      rw [Holds.waitsAt_replaced, if_pos (show x ∈ pages from htouch)]
      exact Nat.zero_le _
    | release first id => exact htouch.elim
  · exact (hs.answers_add_of_untouched htouch).le

/-- While nothing unmaps or replaces a byte, it is answered as often as it stops waiting. -/
theorem answered_add_of_untouched {h h' : Holds} {es : List Event} {x : ℕ}
    (hrun : Execution Step h es h') (hx : ∀ e ∈ es, ¬e.Touches x) :
    answered x es + h'.waitsAt x = h.waitsAt x := by
  induction hrun with
  | nil => exact Nat.zero_add _
  | @snoc t u es e hrun hs ih =>
    have hbefore := ih fun e he => hx e (List.mem_append_left _ he)
    have hlast := hs.answers_add_of_untouched (hx e (List.mem_append_right _ List.mem_cons_self))
    rw [answered_concat]
    omega

/-- While no unmap of a byte is made to wait, it is answered no more often than it waited. -/
theorem answered_add_le {h h' : Holds} {es : List Event} {x : ℕ}
    (hrun : Execution Step h es h') (hx : ∀ e ∈ es, ¬e.Defers x) :
    answered x es + h'.waitsAt x ≤ h.waitsAt x := by
  induction hrun with
  | nil => exact (Nat.zero_add _).le
  | @snoc t u es e hrun hs ih =>
    have hbefore := ih fun e he => hx e (List.mem_append_left _ he)
    have hlast := hs.answers_add_le (hx e (List.mem_append_right _ List.mem_cons_self))
    rw [answered_concat]
    omega

/-! ### Sound runs -/

/-- What a sound run keeps of the bookkeeping. -/
structure Kept (es : List Event) (h : Holds) : Prop where
  held : h.held = live es
  keys : (live es).Pairwise fun e e' => e.key ≠ e'.key
  hold_nonempty : ∀ e ∈ live es, e.first < e.stop
  bounded : h.Bounded
  waiting_nonempty : ∀ w ∈ h.waiting, w.start < w.stop
  once : ∀ x, h.waitsAt x ≤ 1
  idle : h.waiting ≠ [] → h.held ≠ []

theorem Pages.shares_iff {p q : Pages} (hp : p.start < p.stop) (hq : q.start < q.stop) :
    p.Shares q ↔ p.start < q.stop ∧ q.start < p.stop := by
  constructor
  · rintro ⟨x, hxp, hxq⟩
    exact ⟨hxp.1.trans_lt hxq.2, hxq.1.trans_lt hxp.2⟩
  · rintro ⟨hpq, hqp⟩
    exact ⟨max p.start q.start, ⟨le_max_left _ _, max_lt hp hqp⟩, le_max_right _ _, max_lt hpq hq⟩

/-- Ranges that cover no byte twice share none. -/
theorem pairwise_not_shares {l : List Pages}
    (h : ∀ x, (l.countP fun w => decide (x ∈ w)) ≤ 1) : l.Pairwise fun w w' => ¬w.Shares w' := by
  induction l with
  | nil => exact .nil
  | cons w l ih =>
    refine .cons ?_ (ih fun x => ((List.sublist_cons_self w l).countP_le).trans (h x))
    rintro w' hw' ⟨x, hx, hx'⟩
    have hrest : 0 < l.countP fun w => decide (x ∈ w) :=
      List.countP_pos_iff.mpr ⟨w', hw', decide_eq_true hx'⟩
    have htwo := h x
    rw [List.countP_cons_of_pos (p := fun w => decide (x ∈ w)) (decide_eq_true hx)] at htwo
    omega

theorem Kept.meets_iff {es : List Event} {h : Holds} (hk : Kept es h) {pages : Pages}
    (hpages : pages.start < pages.stop) :
    h.meets pages = true ↔ ∃ e ∈ live es, e.pages.Shares pages := by
  rw [Holds.meets_iff hk.bounded, hk.held]
  refine exists_congr fun e => and_congr_right fun he => ?_
  rw [Pages.shares_iff (hk.hold_nonempty e he) hpages]
  rfl

theorem Kept.unmap_fst_iff {es : List Event} {h : Holds} (hk : Kept es h) (pages : Pages) :
    (h.unmap pages).1 = false ↔
      pages.stop ≤ pages.start ∨ ¬∃ e ∈ live es, e.pages.Shares pages := by
  by_cases hempty : pages.stop ≤ pages.start
  · rw [h.unmap_fst, Pages.isEmpty, decide_eq_true hempty]
    exact iff_of_true rfl (.inl hempty)
  · rw [h.unmap_fst, Pages.isEmpty, decide_eq_false hempty, ← hk.meets_iff (not_le.mp hempty),
      Bool.not_eq_true]
    exact (or_iff_right hempty).symm

/-! ### One operation of a sound run -/

theorem kept_new : Kept [] Holds.new where
  held := rfl
  keys := .nil
  hold_nonempty _ he := absurd he List.not_mem_nil
  bounded _ he := absurd he List.not_mem_nil
  waiting_nonempty _ hw := absurd hw List.not_mem_nil
  once _ := Nat.zero_le 1
  idle hne := absurd rfl hne

theorem Kept.hold {es : List Event} {h : Holds} (hk : Kept es h) {pages : Pages}
    (hlt : pages.start < pages.stop) (hfresh : ∀ e ∈ live es, e.key ≠ (pages.start, h.next)) :
    Kept (es ++ [.held pages h.next]) (h.hold pages).2 where
  held := by
    rw [live_concat]
    refine congrArg (List.cons _) ?_
    rw [List.filter_eq_self.mpr, hk.held]
    intro e he
    rw [hk.held] at he
    exact decide_eq_true (hfresh e he)
  keys := by
    rw [live_concat]
    exact .cons (fun e he => (hfresh e he).symm) hk.keys
  hold_nonempty := by
    rw [live_concat]
    intro e he
    rcases List.mem_cons.mp he with rfl | he
    · exact hlt
    · exact hk.hold_nonempty e he
  bounded := Holds.bounded_hold hk.bounded pages
  waiting_nonempty := hk.waiting_nonempty
  once := hk.once
  idle _ := List.cons_ne_nil _ _

theorem Kept.replaced {es : List Event} {h : Holds} (hk : Kept es h) (pages : Pages) :
    Kept (es ++ [.replaced pages]) (h.replaced pages) where
  held := by
    rw [live_concat, h.held_replaced]
    exact hk.held
  keys := live_concat es _ ▸ hk.keys
  hold_nonempty := live_concat es _ ▸ hk.hold_nonempty
  bounded := by
    rw [Holds.Bounded, h.held_replaced, h.longest_replaced]
    exact hk.bounded
  waiting_nonempty w hw := (Holds.mem_waiting_replaced hw).elim id (hk.waiting_nonempty w)
  once x := by
    rw [Holds.waitsAt_replaced]
    split_ifs
    · exact Nat.zero_le 1
    · exact hk.once x
  idle hne := by
    rw [h.held_replaced]
    exact hk.idle fun hnil => hne (Holds.waiting_replaced_of_nil hnil pages)

theorem Kept.unmap {es : List Event} {h : Holds} (hk : Kept es h) (pages : Pages) :
    Kept (es ++ [.unmapped pages (h.unmap pages).1]) (h.unmap pages).2 where
  held := by
    rw [live_concat, h.held_unmap]
    exact hk.held
  keys := live_concat es _ ▸ hk.keys
  hold_nonempty := live_concat es _ ▸ hk.hold_nonempty
  bounded := by
    rw [Holds.Bounded, h.held_unmap, h.longest_unmap]
    exact hk.bounded
  waiting_nonempty w hw := by
    have hreplaced := (hk.replaced pages).waiting_nonempty
    by_cases hnow : pages.isEmpty ∨ (h.replaced pages).meets pages = false
    · rw [Holds.unmap_of_not h hnow] at hw
      exact hreplaced w hw
    · obtain ⟨hne, hmeets⟩ := not_or.mp hnow
      rw [Holds.unmap_of_meets h hne (Bool.eq_true_of_not_eq_false hmeets)] at hw
      rcases List.mem_append.mp hw with hw | hw
      · exact hreplaced w hw
      · rw [List.mem_singleton.mp hw]
        exact not_le.mp fun hle => hne (decide_eq_true hle)
  once x := by
    rw [Holds.waitsAt_unmap]
    split_ifs
    · exact Nat.le_refl 1
    · exact Nat.zero_le 1
    · exact hk.once x
  idle hne := by
    rw [h.held_unmap]
    by_cases hnow : pages.isEmpty ∨ (h.replaced pages).meets pages = false
    · rw [Holds.unmap_of_not h hnow] at hne
      exact hk.idle fun hnil => hne (Holds.waiting_replaced_of_nil hnil pages)
    · have hmeets := Bool.eq_true_of_not_eq_false (not_or.mp hnow).2
      rw [Holds.meets_replaced] at hmeets
      obtain ⟨e, he, -⟩ := (Holds.meets_iff hk.bounded pages).mp hmeets
      exact List.ne_nil_of_mem he

/-- A hold's release takes it, and it alone, out of the map. -/
theorem filter_key_eq_eraseP {l : List Hold} (hl : l.Pairwise fun e e' => e.key ≠ e'.key)
    (k : ℕ × UInt64) :
    (l.filter fun e => decide (e.key ≠ k)) = l.eraseP fun e => decide (e.key = k) := by
  induction hl with
  | nil => rfl
  | @cons e l hne hl ih =>
    by_cases hk : e.key = k
    · rw [List.eraseP_cons_of_pos (p := fun e : Hold => decide (e.key = k)) (decide_eq_true hk),
        List.filter_cons_of_neg (p := fun e : Hold => decide (e.key ≠ k)) (by simp [hk])]
      refine List.filter_eq_self.mpr fun e' he' => decide_eq_true fun hk' => ?_
      exact hne e' he' (hk.trans hk'.symm)
    · rw [List.eraseP_cons_of_neg (p := fun e : Hold => decide (e.key = k)) (by simp [hk]),
        List.filter_cons_of_pos (p := fun e : Hold => decide (e.key ≠ k)) (decide_eq_true hk), ih]

theorem Kept.release {es : List Event} {h : Holds} (hk : Kept es h) (first : ℕ) (id : UInt64) :
    Kept (es ++ [.released first id (h.release first id).1]) (h.release first id).2 := by
  have hheld : (h.release first id).2.held =
      live (es ++ [.released first id (h.release first id).1]) := by
    rw [h.held_release, hk.held, live_concat]
    exact filter_key_eq_eraseP hk.keys _
  have hsub : (live (es ++ [.released first id (h.release first id).1])).Sublist (live es) := by
    rw [live_concat]
    exact List.eraseP_sublist
  have hbounded : (h.release first id).2.Bounded := by
    intro e he
    rw [h.longest_release]
    rw [h.held_release] at he
    exact hk.bounded e (List.mem_of_mem_filter he)
  exact
    { held := hheld
      keys := hk.keys.sublist hsub
      hold_nonempty := fun e he => hk.hold_nonempty e (hsub.subset he)
      bounded := hbounded
      waiting_nonempty := fun w hw =>
        hk.waiting_nonempty w (Holds.of_mem_waiting_release hw).1
      once := fun x => by
        have htotal := h.answers_add_waitsAt_release first id x
        have honce := hk.once x
        omega
      idle := fun hne => by
        obtain ⟨w, hw⟩ := List.exists_mem_of_ne_nil _ hne
        obtain ⟨e, he, -⟩ :=
          (Holds.meets_iff hbounded w).mp (Holds.of_mem_waiting_release hw).2
        exact List.ne_nil_of_mem he }

theorem Kept.step {es : List Event} {h h' : Holds} {e : Event} (hk : Kept es h)
    (hs : Step h e h') (hsound : e.Sound (live es)) : Kept (es ++ [e]) h' := by
  cases hs with
  | hold pages => exact hk.hold hsound.1 hsound.2
  | unmap pages => exact hk.unmap pages
  | replaced pages => exact hk.replaced pages
  | release first id => exact hk.release first id

theorem Sound.of_append {es es' : List Event} (h : Sound (es ++ es')) : Sound es := by
  rintro pre e post rfl
  refine h pre e (post ++ es') ?_
  rw [List.append_assoc, List.cons_append]

theorem Sound.last {es : List Event} {e : Event} (h : Sound (es ++ [e])) : e.Sound (live es) :=
  h es e [] rfl

theorem kept_of_sound {es : List Event} {h : Holds} (hrun : Execution Step Holds.new es h)
    (hsound : Sound es) : Kept es h := by
  refine hrun.history (P := fun es h => Sound es → Kept es h) (fun _ => kept_new) ?_ hsound
  intro es h e h' ih hs hsound
  exact (ih hsound.of_append).step hs hsound.last

/-! ### Every sound run -/

/-- After every sound run the bookkeeping owes its callers nothing: it defers the unmaps of bytes
that a live hold shares, and answers each once no live hold covers it, once, unless the byte was
replaced. -/
theorem exact_of_sound {es : List Event} {h : Holds} (hrun : Execution Step Holds.new es h)
    (hsound : Sound es) : Exact es h := by
  have hk := kept_of_sound hrun hsound
  refine
    { waiting_nonempty := hk.waiting_nonempty
      waiting_disjoint := pairwise_not_shares hk.once
      meets_iff := fun pages hpages => hk.meets_iff hpages
      unmap_now := ?_
      answered_free := ?_
      answered_once := ?_
      replaced_never := ?_
      idle := ?_ }
  · rintro pre post pages waits rfl
    obtain ⟨s, t, hpre, hs, -⟩ := hrun.of_middle
    have hkept := kept_of_sound hpre hsound.of_append
    cases hs with
    | unmap => exact hkept.unmap_fst_iff pages
  · rintro pre post first id free rfl w hw e he hshares
    obtain ⟨s, t, hpre, hs, -⟩ := hrun.of_middle
    have hkept := kept_of_sound hpre hsound.of_append
    cases hs with
    | release =>
      obtain ⟨hwaits, hmeets⟩ := Holds.of_mem_release hw
      have hlt := hkept.waiting_nonempty w hwaits
      rw [((hkept.release first id).meets_iff hlt).mpr ⟨e, he, hshares⟩] at hmeets
      cases hmeets
  · rintro pre post pages x rfl hx huntouched
    obtain ⟨s, t, hpre, hs, hpost⟩ := hrun.of_middle
    have htotal := answered_add_of_untouched hpost huntouched
    generalize hwaits : true = waits at hs
    cases hs with
    | unmap =>
      rw [Holds.waitsAt_unmap, if_pos hx, ← hwaits, if_pos rfl] at htotal
      exact htotal
  · rintro pre post pages x rfl hx hdefers
    obtain ⟨s, t, hpre, hs, hpost⟩ := hrun.of_middle
    have htotal := answered_add_le hpost hdefers
    cases hs with
    | replaced =>
      rw [Holds.waitsAt_replaced, if_pos hx] at htotal
      omega
  · intro hnone
    by_contra hne
    exact hk.idle hne (hk.held.trans hnone)

/-! ### Runs of fewer holds than numbers -/

/-- How many holds a run makes. -/
def holdsMade (es : List Event) : ℕ :=
  es.countP fun e => match e with
    | .held _ _ => true
    | _ => false

/-- The next number is the count of the holds made, and every live hold has a smaller one. -/
theorem next_of_holdsMade {es : List Event} {h : Holds} (hrun : Execution Step Holds.new es h)
    (hfew : holdsMade es < 2 ^ 64) :
    h.next.toNat = holdsMade es ∧ ∀ e ∈ live es, e.id.toNat < holdsMade es := by
  refine hrun.history (P := fun es h => holdsMade es < 2 ^ 64 →
    h.next.toNat = holdsMade es ∧ ∀ e ∈ live es, e.id.toNat < holdsMade es)
    (fun _ => ⟨rfl, fun _ he => absurd he List.not_mem_nil⟩) ?_ hfew
  intro es h e h' ih hs hfew
  have hcount : holdsMade (es ++ [e]) = holdsMade es + holdsMade [e] := List.countP_append
  rw [hcount] at hfew ⊢
  obtain ⟨hnext, hlive⟩ := ih (by omega)
  rw [live_concat]
  cases hs with
  | hold pages =>
    have hmade : holdsMade [.held pages (h.hold pages).1] = 1 := rfl
    rw [hmade] at hfew ⊢
    refine ⟨?_, fun e he => ?_⟩
    · change (h.next + 1).toNat = _
      rw [UInt64.toNat_add, hnext]
      exact Nat.mod_eq_of_lt hfew
    · rcases List.mem_cons.mp he with rfl | he
      · exact (Nat.lt_succ_of_le hnext.le)
      · exact (hlive e he).trans (Nat.lt_succ_self _)
  | unmap pages =>
    refine ⟨?_, hlive⟩
    rw [← hnext]
    exact congrArg UInt64.toNat (h.next_unmap pages)
  | replaced pages =>
    refine ⟨?_, hlive⟩
    rw [← hnext]
    exact congrArg UInt64.toNat (h.next_replaced pages)
  | release first id =>
    refine ⟨?_, fun e he => hlive e (List.mem_of_mem_eraseP he)⟩
    rw [← hnext]
    exact congrArg UInt64.toNat (h.next_release first id)

/-- A run of fewer holds than there are numbers is sound if each takes a byte. -/
theorem sound_of_holdsMade_lt {es : List Event} {h : Holds}
    (hrun : Execution Step Holds.new es h) (hfew : holdsMade es < 2 ^ 64)
    (hbytes : ∀ pages id, .held pages id ∈ es → pages.start < pages.stop) : Sound es := by
  rintro pre e post rfl
  cases e with
  | held pages id =>
    refine ⟨hbytes pages id (List.mem_append_right _ List.mem_cons_self), fun e he hkey => ?_⟩
    obtain ⟨s, t, hpre, hs, -⟩ := hrun.of_middle
    have hcount : holdsMade (pre ++ .held pages id :: post) =
        holdsMade pre + holdsMade (.held pages id :: post) := List.countP_append
    obtain ⟨hnext, hlive⟩ := next_of_holdsMade hpre (by omega)
    have hid : e.id = id := congrArg Prod.snd hkey
    have hlt := hlive e he
    cases hs with
    | hold =>
      rw [hid, Holds.hold, hnext] at hlt
      exact lt_irrefl _ hlt
  | unmapped pages waits => trivial
  | replaced pages => trivial
  | released first id free => trivial

/-- A page, held and then deferred, is answered as the hold goes. -/
theorem page_exact :
    Exact
      [.held ⟨0x4000, 0x8000⟩ 0, .unmapped ⟨0x4000, 0x8000⟩ true,
        .released 0x4000 0 [⟨0x4000, 0x8000⟩]]
      { next := 1, held := [], longest := 0x4000, waiting := [] } := by
  have hhold := Execution.single (Step.hold Holds.new ⟨0x4000, 0x8000⟩)
  have hunmap := hhold.snoc (Step.unmap _ ⟨0x4000, 0x8000⟩)
  have hrun := hunmap.snoc (Step.release _ 0x4000 0)
  refine exact_of_sound hrun (sound_of_holdsMade_lt hrun (by decide) fun pages id hmem => ?_)
  simp only [List.mem_cons, List.not_mem_nil, or_false] at hmem
  rcases hmem with hmem | hmem | hmem
  · obtain ⟨rfl, -⟩ := Event.held.inj hmem
    decide
  · cases hmem
  · cases hmem

/-! ### Runs that are not sound -/

/-- An empty hold, and an unmap of pages around it. -/
def emptyHeld : List Event :=
  [.held ⟨0x4000, 0x4000⟩ 0, .unmapped ⟨0, 0x8000⟩ true]

/-- Holds on one page that come and go, numbered from the second number on. -/
def passing (n : ℕ) : List Event :=
  (List.range n).flatMap fun i =>
    [.held ⟨0x4000, 0x8000⟩ (UInt64.ofNat (i + 1)), .released 0x4000 (UInt64.ofNat (i + 1)) []]

/-- A hold that lives through all the numbers, a second one on its page that takes its number, the
release of one of the two, and an unmap of the page. -/
def reusedNumber : List Event :=
  .held ⟨0, 0x4000⟩ 0 :: passing (2 ^ 64 - 1) ++
    [.held ⟨0, 0x4000⟩ 0, .released 0 0 [], .unmapped ⟨0, 0x4000⟩ false]

theorem passing_succ (n : ℕ) :
    passing (n + 1) = passing n ++ [.held ⟨0x4000, 0x8000⟩ (UInt64.ofNat (n + 1))] ++
      [.released 0x4000 (UInt64.ofNat (n + 1)) []] := by
  rw [passing, List.range_succ, List.flatMap_append, List.append_assoc]
  rfl

/-- The bookkeeping while one hold lives. -/
def oneHeld (n : ℕ) : Holds where
  next := UInt64.ofNat n
  held := [⟨0, 0, 0x4000⟩]
  longest := 0x4000
  waiting := []

theorem execution_passing (n : ℕ) :
    Execution Step Holds.new (.held ⟨0, 0x4000⟩ 0 :: passing n) (oneHeld (n + 1)) := by
  induction n with
  | zero => exact Execution.single (Step.hold Holds.new ⟨0, 0x4000⟩)
  | succ n ih =>
    have hhold : (oneHeld (n + 1)).hold ⟨0x4000, 0x8000⟩ = (UInt64.ofNat (n + 1),
        { oneHeld (n + 1 + 1) with
          held := [⟨0x4000, UInt64.ofNat (n + 1), 0x8000⟩, ⟨0, 0, 0x4000⟩] }) := by
      simp [Holds.hold, oneHeld, Hold.key]
    have hrelease : Holds.release
        { oneHeld (n + 1 + 1) with
          held := [⟨0x4000, UInt64.ofNat (n + 1), 0x8000⟩, ⟨0, 0, 0x4000⟩] }
        0x4000 (UInt64.ofNat (n + 1)) = ([], oneHeld (n + 1 + 1)) := by
      simp [Holds.release, oneHeld, Hold.key]
    have hfirst := Step.hold (oneHeld (n + 1)) ⟨0x4000, 0x8000⟩
    rw [hhold] at hfirst
    have hsecond := Step.release
      { oneHeld (n + 1 + 1) with
        held := [⟨0x4000, UInt64.ofNat (n + 1), 0x8000⟩, ⟨0, 0, 0x4000⟩] }
      0x4000 (UInt64.ofNat (n + 1))
    rw [hrelease] at hsecond
    rw [passing_succ, ← List.cons_append, ← List.cons_append]
    exact (ih.snoc hfirst).snoc hsecond

theorem live_passing (n : ℕ) :
    live (.held ⟨0, 0x4000⟩ 0 :: passing n) = [⟨0, 0, 0x4000⟩] := by
  induction n with
  | zero => rfl
  | succ n ih =>
    rw [passing_succ, ← List.cons_append, ← List.cons_append, live_concat, live_concat, ih]
    simp [liveAfter, Hold.key]

theorem execution_reusedNumber :
    Execution Step Holds.new reusedNumber ⟨1, [], 0x4000, []⟩ := by
  have hhold := (execution_passing (2 ^ 64 - 1)).snoc (Step.hold _ ⟨0, 0x4000⟩)
  have hrelease := hhold.snoc (Step.release _ 0 0)
  have hunmap := hrelease.snoc (Step.unmap _ ⟨0, 0x4000⟩)
  rw [List.append_assoc, List.append_assoc] at hunmap
  exact hunmap

/-- A hold of no bytes makes an unmap around it wait, a range of no bytes meets a hold around it,
and a hold that takes the number of a live one on its page hides it. -/
theorem unsound_holds_mistaken :
    (∃ h, Execution Step Holds.new emptyHeld h ∧ ¬Exact emptyHeld h) ∧
      (∃ h, Execution Step Holds.new [.held ⟨0, 0x8000⟩ 0] h ∧
        h.meets ⟨0x4000, 0x4000⟩ = true ∧
          ¬∃ e ∈ live [.held ⟨0, 0x8000⟩ 0], e.pages.Shares ⟨0x4000, 0x4000⟩) ∧
      ∃ h, Execution Step Holds.new reusedNumber h ∧ ¬Exact reusedNumber h := by
  have hempty := (Execution.single (Step.hold Holds.new ⟨0x4000, 0x4000⟩)).snoc
    (Step.unmap _ ⟨0, 0x8000⟩)
  have haround := Execution.single (Step.hold Holds.new ⟨0, 0x8000⟩)
  refine ⟨⟨_, hempty, fun h => ?_⟩, ⟨_, haround, by decide, ?_⟩,
    ⟨_, execution_reusedNumber, fun h => ?_⟩⟩
  · refine Bool.noConfusion ((h.unmap_now [.held ⟨0x4000, 0x4000⟩ 0] [] _ true rfl).mpr (.inr ?_))
    rintro ⟨e, he, x, hx, -⟩
    obtain rfl := List.mem_singleton.mp he
    exact (hx.1.trans_lt hx.2).ne rfl
  · rintro ⟨e, -, x, -, hx⟩
    exact (hx.1.trans_lt hx.2).ne rfl
  · have hnow := (h.unmap_now (.held ⟨0, 0x4000⟩ 0 :: passing (2 ^ 64 - 1) ++
      [.held ⟨0, 0x4000⟩ 0, .released 0 0 []]) [] ⟨0, 0x4000⟩ false
        (by rw [List.append_assoc]; rfl)).mp rfl
    rcases hnow with hempty | hnone
    · exact absurd hempty (by decide)
    · refine hnone ⟨⟨0, 0, 0x4000⟩, ?_, 0, ⟨Nat.le_refl 0, by decide⟩, Nat.le_refl 0, by decide⟩
      rw [live, List.foldl_append, ← live, live_passing]
      decide

end ReimsVgpu.Remap
