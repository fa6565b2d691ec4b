import ReimsVgpu.Tasks.CompletionRuns

/-!
# The exec of a remote task

The FIFO's thread issues two tokens, sends the command, and waits for the first, which the service's
reply completes. The second runs the command's completion: the service completes it by its id, or the
crash does, or, where the reply is an error, the FIFO's thread. Meanwhile the other threads take any
steps: the service may complete any id but the first token's, which only the reply names.

## Main definitions

* `Exec`, `ExecWorld`, `ExecWorld.Step`: where the exec stands, and the steps of its thread and of the
  others.
* `ExecWorld.Settled`: what the exec's completion is promised.

## Main results

* `World.Step.effect`: what a step may do to the tokens and the signals.
* `completions_exactly_once`: every token is signalled once, and so the exec's completion runs once.
-/

namespace ReimsVgpu.Tasks.Remote

variable {τ : Type*}

/-- Where an exec stands: with its tokens' ids, and whether the service has replied, and has completed
the id that it was sent. -/
inductive Exec
  | start
  | issued (gpuToken : ℕ)
  | sent (gpuToken token : ℕ) (replied served : Bool)
  | finished (gpuToken token : ℕ) (replied served : Bool)

namespace Exec

/-- The token of the FIFO thread's wait. -/
def gpuToken? : Exec → Option ℕ
  | start => none
  | issued g => some g
  | sent g _ _ _ => some g
  | finished g _ _ _ => some g

/-- The token of the command's completion, and what the service has done. -/
def token? : Exec → Option (ℕ × Bool × Bool)
  | start => none
  | issued _ => none
  | sent _ k replied served => some (k, replied, served)
  | finished _ k replied served => some (k, replied, served)

/-- A step that completes a token as a reply does. -/
def completes (id : ℕ) : Action τ → Bool
  | .complete _ id' _ => decide (id' = id)
  | _ => false

/-- A step that completes a token by its id. -/
def completesId (id : ℕ) : Action τ → Bool
  | .completeId _ id' _ => decide (id' = id)
  | _ => false

/-- A step of another thread seen. -/
def see (a : Action τ) : Exec → Exec
  | start => start
  | issued g => issued g
  | sent g k replied served =>
    sent g k (replied || completes g a) (served || completesId k a)
  | finished g k replied served =>
    finished g k (replied || completes g a) (served || completesId k a)

/-- A step that another thread may take: only the reply completes the wait's token, with a status
other than 0 and 4, and only the exec itself the completion's token. -/
def Allows (x : Exec) : Action τ → Prop
  | .completeId _ id _ => x.gpuToken? ≠ some id
  | .complete _ id status =>
    (x.gpuToken? = some id → status ≠ .notComplete ∧ status ≠ .crashed) ∧
      ∀ k ∈ x.token?, k.1 ≠ id
  | _ => True

end Exec

/-- The completions' threads, and the exec of one of them. -/
structure ExecWorld (τ : Type*) where
  world : World τ
  exec : Exec

namespace ExecWorld

def start : ExecWorld τ := ⟨.new, .start⟩

variable [DecidableEq τ]

/-- A step of the exec's thread or of another. -/
inductive Step (fifo : τ) : ExecWorld τ → Option (Action τ) → ExecWorld τ → Prop
  | other {w w' : World τ} {x : Exec} {a : Action τ} (hs : w.Step a w') (ha : a.thread ≠ fifo)
      (hallows : x.Allows a) : Step fifo ⟨w, x⟩ (some a) ⟨w', x.see a⟩
  | goOn {w w' : World τ} {x : Exec} {call : Call} (hs : w.Step (.goOn fifo call) w') :
      Step fifo ⟨w, x⟩ (some (.goOn fifo call)) ⟨w', x⟩
  | issueGpuToken {w w' : World τ} (hs : w.Step (.issue fifo) w') :
      Step fifo ⟨w, .start⟩ (some (.issue fifo)) ⟨w', .issued w.completions.nextId⟩
  | issueToken {w w' : World τ} {g : ℕ} (hs : w.Step (.issue fifo) w') :
      Step fifo ⟨w, .issued g⟩ (some (.issue fifo))
        ⟨w', .sent g w.completions.nextId false false⟩
  /-- The wait ends, and the completion is the service's or the crash's. -/
  | leave {w : World τ} {g k : ℕ} {replied served : Bool} (hidle : w.Idle fifo)
      (hstatus : w.status g = .ok ∨ w.status g = .crashed) :
      Step fifo ⟨w, .sent g k replied served⟩ none ⟨w, .finished g k replied served⟩
  /-- The wait ends, and the completion is made here. -/
  | complete {w w' : World τ} {g k : ℕ} {replied served : Bool}
      (hdone : w.status g ≠ .notComplete) (hok : w.status g ≠ .ok)
      (hcrashed : w.status g ≠ .crashed) (hs : w.Step (.complete fifo k (w.status g)) w') :
      Step fifo ⟨w, .sent g k replied served⟩ (some (.complete fifo k (w.status g)))
        ⟨w', .finished g k replied served⟩

end ExecWorld

/-! ### What a step may do -/

namespace World

variable {w w' : World τ} {a : Action τ}

/-- What a step may do to the tokens and the signals. -/
structure Effect (w : World τ) (a : Action τ) (w' : World τ) : Prop where
  nextId_le : w.completions.nextId ≤ w'.completions.nextId
  /-- No token comes back to the table. -/
  pending : ∀ id < w.completions.nextId, id ∉ w.pending → id ∉ w'.pending
  crashed : w.completions.crashed = true → w'.completions.crashed = true
  signals : ∀ s ∈ w'.signals, s ∈ w.signals ∨ s.origin ≠ .completed ∨
    ∃ t, (t, Call.signalling s.id s.status) ∈ w.calls
  signals_subset : w.signals ⊆ w'.signals
  /-- A signal is owed by the completion that takes its token. -/
  calls : ∀ t id status, (t, Call.signalling id status) ∈ w'.calls →
    (t, Call.signalling id status) ∈ w.calls ∨ a = .completeId t id status ∨
      a = .complete t id status
  /-- A completion leaves its token out of the table. -/
  taken : ∀ t id status, a = .completeId t id status ∨ a = .complete t id status → id ∉ w'.pending

theorem pending_take (w : World τ) (t : τ) (id : ℕ) (status : ExecStatus) :
    (w.take t id status).pending = w.pending.erase id := by
  change (if w.completions.crashed then [] else w.completions.tokens.erase id) =
    (if w.completions.crashed then [] else w.completions.tokens).erase id
  split_ifs <;> rfl

theorem Kept.nodup_pending (h : w.Kept) : w.pending.Nodup :=
  List.nodup_iff_count_le_one.mpr fun id => by
    have hle := h.account.le_one id
    omega

theorem effect_take (h : w.Kept) (t : τ) (id : ℕ) (status : ExecStatus)
    (ha : a = .completeId t id status ∨ a = .complete t id status) :
    w.Effect a (w.take t id status) where
  nextId_le := le_rfl
  pending id' _ hid' := by
    rw [pending_take]
    exact fun hmem => hid' (List.mem_of_mem_erase hmem)
  crashed hc := hc
  signals s hs := .inl hs
  signals_subset := List.Subset.refl _
  calls t' id' status' hin := by
    simp only [World.take] at hin
    split_ifs at hin
    · rcases List.mem_cons.mp hin with heq | hin
      · obtain ⟨rfl, hcall⟩ := Prod.mk.inj heq
        obtain ⟨rfl, rfl⟩ := Call.signalling.inj hcall
        exact .inr ha
      · exact .inl hin
    · exact .inl hin
  taken t' id' status' ha' := by
    obtain rfl : id' = id := by
      rcases ha with rfl | rfl <;> rcases ha' with heq | heq <;> cases heq <;> rfl
    rw [pending_take]
    exact h.nodup_pending.not_mem_erase

/-- A step that takes no token from the table and adds no signal to make of one. -/
theorem effect_of_eq (hnext : w'.completions = w.completions)
    (hsignals : ∀ s ∈ w'.signals, s ∈ w.signals ∨ s.origin ≠ .completed ∨
      ∃ t, (t, Call.signalling s.id s.status) ∈ w.calls)
    (hsubset : w.signals ⊆ w'.signals)
    (hcalls : ∀ t id status, (t, Call.signalling id status) ∈ w'.calls →
      (t, Call.signalling id status) ∈ w.calls)
    (ha : ∀ t id status, a ≠ .completeId t id status ∧ a ≠ .complete t id status) :
    w.Effect a w' where
  nextId_le := by rw [hnext]
  pending id _ hid := by rwa [World.pending, hnext]
  crashed hc := by rwa [hnext]
  signals := hsignals
  signals_subset := hsubset
  calls t id status hin := .inl (hcalls t id status hin)
  taken t id status hor := (hor.elim (ha t id status).1 (ha t id status).2).elim

/-- A new token is the only one that may come into the table. -/
theorem pending_issue (w : World τ) (t : τ) {id : ℕ} (hid : id ∈ (w.issue t).pending) :
    id = w.completions.nextId ∨ id ∈ w.pending := by
  by_cases hcrashed : w.completions.crashed = true
  · have hnil : (w.issue t).pending = [] := by
      refine Kept.pending_of_crashed ?_
      simp only [World.issue, Completions.issueToken, hcrashed, if_true]
    rw [hnil] at hid
    exact absurd hid List.not_mem_nil
  · have hcrashed' := Bool.eq_false_of_not_eq_true hcrashed
    have hw : (w.issue t).pending = (w.completions.insert w.completions.nextId).tokens := by
      simp only [World.pending, World.issue, Completions.issueToken, Completions.insert, hcrashed',
        Bool.false_eq_true, if_false]
    rw [hw, Completions.insert] at hid
    rw [Kept.pending_of_not_crashed hcrashed']
    split_ifs at hid
    · exact .inr hid
    · exact (List.mem_orderedInsert (· ≤ ·)).mp hid

theorem effect_issue (w : World τ) (t : τ) : w.Effect (.issue t) (w.issue t) where
  nextId_le := by
    simp only [World.issue, Completions.issueToken, Completions.insert]
    split_ifs <;> exact Nat.le_succ _
  pending id hlt hid hmem := (pending_issue w t hmem).elim hlt.ne hid
  crashed hc := by
    simp only [World.issue, Completions.issueToken, hc, if_true]
  signals s hs := .inl hs
  signals_subset := List.Subset.refl _
  calls t' id status hin := by
    simp only [World.issue] at hin
    split_ifs at hin
    · rcases List.mem_cons.mp hin with heq | hin
      · cases heq
      · exact .inl hin
    · exact .inl hin
  taken t id status hor := by rcases hor with heq | heq <;> cases heq

theorem effect_signal {calls : List (τ × Call)} {s : Signal}
    (hs : s.origin ≠ .completed ∨ ∃ t, (t, Call.signalling s.id s.status) ∈ w.calls)
    (hcalls : ∀ t id status, (t, Call.signalling id status) ∈ calls →
      (t, Call.signalling id status) ∈ w.calls)
    (ha : ∀ t id status, a ≠ .completeId t id status ∧ a ≠ .complete t id status) :
    w.Effect a (World.signal { w with calls } s) := by
  rw [World.signal]
  split_ifs
  · refine effect_of_eq rfl (fun s' hs' => ?_) (List.subset_append_left _ _) hcalls ha
    rcases List.mem_append.mp hs' with hs' | hs'
    · exact .inl hs'
    · obtain rfl := List.mem_singleton.mp hs'
      exact .inr hs
  · exact effect_of_eq rfl (fun s' hs' => .inl hs') (List.Subset.refl _) hcalls ha

variable [DecidableEq τ]

theorem effect_goOn (h : w.Kept) {t : τ} {call : Call} (hcall : (t, call) ∈ w.calls) :
    w.Effect (.goOn t call) (w.goOn t call) := by
  have ha : ∀ t' id status, (Action.goOn t call : Action τ) ≠ .completeId t' id status ∧
      (Action.goOn t call : Action τ) ≠ .complete t' id status :=
    fun _ _ _ => ⟨by rintro ⟨⟩, by rintro ⟨⟩⟩
  match call with
  | .signalling id status =>
    exact effect_signal (.inr ⟨t, hcall⟩) (fun _ _ _ hin => List.mem_of_mem_erase hin) ha
  | .bearing id =>
    exact effect_signal (.inl (by rintro ⟨⟩)) (fun _ _ _ hin => List.mem_of_mem_erase hin) ha
  | .crashing (id :: left) =>
    refine effect_signal (.inl (by rintro ⟨⟩)) (fun t' id' status hin => ?_) ha
    rcases List.mem_cons.mp hin with heq | hin
    · cases heq
    · exact List.mem_of_mem_erase hin
  | .crashing [] =>
    obtain ⟨hcrashed, -⟩ := h.crashing t [] hcall
    have hnil : (w.goOn t (.crashing [])).pending = [] := Kept.pending_of_crashed hcrashed
    exact
      { nextId_le := le_rfl
        pending := fun id _ _ => by
          rw [hnil]
          exact List.not_mem_nil
        crashed := fun hc => hc
        signals := fun s hs => .inl hs
        signals_subset := List.Subset.refl _
        calls := fun t' id status hin => .inl (List.mem_of_mem_erase hin)
        taken := fun t' id status hor =>
          (hor.elim (ha t' id status).1 (ha t' id status).2).elim }
  | .draining =>
    rw [World.goOn]
    split_ifs
    · exact effect_of_eq rfl (fun s hs => .inl hs) (List.Subset.refl _)
        (fun _ _ _ hin => List.mem_of_mem_erase hin) ha
    · exact effect_of_eq rfl (fun s hs => .inl hs) (List.Subset.refl _) (fun _ _ _ hin => hin) ha

theorem Step.effect (hs : Step w a w') (h : w.Kept) : w.Effect a w' := by
  cases hs with
  | issue _ _ => exact effect_issue w _
  | completeId id status _ _ => exact effect_take h _ id status (.inl rfl)
  | complete id status _ _ => exact effect_take h _ id status (.inr rfl)
  | crash _ _ =>
    exact
      { nextId_le := le_rfl
        pending := fun id _ _ => by
          rw [Kept.pending_of_crashed rfl]
          exact List.not_mem_nil
        crashed := fun _ => rfl
        signals := fun s hs => .inl hs
        signals_subset := List.Subset.refl _
        calls := fun t' id status hin => by
          rcases List.mem_cons.mp hin with heq | hin
          · cases heq
          · exact .inl hin
        taken := fun t' id status hor => by rcases hor with heq | heq <;> cases heq }
  | drain _ _ =>
    rw [World.drain]
    split_ifs
    · exact effect_of_eq rfl (fun s hs => .inl hs) (List.Subset.refl _) (fun _ _ _ hin => hin)
        fun _ _ _ => ⟨by rintro ⟨⟩, by rintro ⟨⟩⟩
    · refine effect_of_eq rfl (fun s hs => .inl hs) (List.Subset.refl _)
        (fun t' id status hin => ?_) fun _ _ _ => ⟨by rintro ⟨⟩, by rintro ⟨⟩⟩
      rcases List.mem_cons.mp hin with heq | hin
      · cases heq
      · exact hin
  | goOn hcall _ => exact effect_goOn h hcall

end World

namespace ExecWorld

variable {x x' : ExecWorld τ}

/-- What the exec relies on: the reply alone completes the wait's token, and the completion's token
leaves the table only by the service, the crash or the exec itself. -/
structure Kept (x : ExecWorld τ) : Prop where
  world : x.world.Kept
  gpuToken : ∀ g, x.exec.gpuToken? = some g → 0 < g ∧ g < x.world.completions.nextId ∧
    (∀ s ∈ x.world.signals, s.id = g →
      s.status ≠ .notComplete ∧ (s.status = .crashed → s.origin ≠ .completed)) ∧
    ∀ t status, (t, Call.signalling g status) ∈ x.world.calls →
      status ≠ .notComplete ∧ status ≠ .crashed
  token : ∀ k replied served, x.exec.token? = some (k, replied, served) →
    0 < k ∧ k < x.world.completions.nextId ∧ x.exec.gpuToken? ≠ some k ∧
      (served = true → k ∉ x.world.pending) ∧
        (replied = true → ∀ g, x.exec.gpuToken? = some g → g ∉ x.world.pending)
  finished : ∀ g k replied served, x.exec = .finished g k replied served →
    k ∉ x.world.pending ∨ x.world.status g = .ok

theorem kept_start : (start : ExecWorld τ).Kept where
  world := World.kept_new
  gpuToken _ h := by cases h
  token _ _ _ h := by cases h
  finished _ _ _ _ h := by cases h

/-- A status that was set stays. -/
theorem status_eq_of_ne {w w' : World τ} {a : Action τ} (hkept : w.Kept) (hkept' : w'.Kept)
    (heffect : w.Effect a w') {id : ℕ} (hid : w.status id ≠ .notComplete) :
    w'.status id = w.status id := by
  have hmem : id ∈ w.signalled := by
    by_contra hnot
    exact hid (hkept.status_zero id hnot)
  obtain ⟨s, hs, rfl⟩ := List.mem_map.mp hmem
  rw [hkept.status_eq s hs, hkept'.status_eq s (heffect.signals_subset hs)]

/-- A wait that ends with status 4 ends after the crash. -/
theorem Kept.crashed_of_status {w : World τ} {e : Exec} (h : Kept ⟨w, e⟩) {g : ℕ}
    (hg : e.gpuToken? = some g) (hstatus : w.status g = .crashed) :
    w.completions.crashed = true := by
  have hmem : g ∈ w.signalled := by
    by_contra hnot
    rw [h.world.status_zero g hnot] at hstatus
    exact absurd hstatus (by decide)
  obtain ⟨s, hs, rfl⟩ := List.mem_map.mp hmem
  obtain ⟨-, -, hsignals, -⟩ := h.gpuToken s.id hg
  rw [h.world.status_eq s hs] at hstatus
  exact (h.world.origin s hs ((hsignals s hs rfl).2 hstatus)).2

theorem Kept.leave {w : World τ} {g k : ℕ} {replied served : Bool}
    (h : Kept ⟨w, .sent g k replied served⟩) (hstatus : w.status g = .ok ∨ w.status g = .crashed) :
    Kept ⟨w, .finished g k replied served⟩ := by
  refine ⟨h.world, h.gpuToken, h.token, fun g' k' _ _ he => ?_⟩
  cases he
  refine hstatus.symm.imp (fun hcrashed => ?_) id
  rw [World.Kept.pending_of_crashed (h.crashed_of_status rfl hcrashed)]
  exact List.not_mem_nil

/-! ### The command's completion -/

/-- What the exec's completion is promised: it runs at most once; once the exec has returned and all
signals are made it has run, if the service completed its id, or the task crashed, or the reply was
an error; and the exec's wait ends once the service has replied or the task has crashed. -/
structure Settled (x : ExecWorld τ) : Prop where
  at_most_once : ∀ k replied served, x.exec.token? = some (k, replied, served) →
    x.world.signalled.count k ≤ 1
  once : ∀ g k replied served, x.exec = .finished g k replied served → x.world.Quiet →
    served = true ∨ x.world.completions.crashed = true ∨ x.world.status g ≠ .ok →
      x.world.signalled.count k = 1
  ends : ∀ g k replied served, x.exec = .sent g k replied served → x.world.Quiet →
    replied = true ∨ x.world.completions.crashed = true → x.world.status g ≠ .notComplete

theorem Kept.settled (h : x.Kept) : x.Settled where
  at_most_once k _ _ _ := List.nodup_iff_count_le_one.mp h.world.account.nodup k
  once g k replied served he hquiet hor := by
    have hfinished := h.finished g k replied served he
    rcases x with ⟨w, e⟩
    obtain rfl : e = .finished g k replied served := he
    obtain ⟨hpos, hlt, -, hserved, -⟩ := h.token k replied served rfl
    refine h.world.count_of_quiet hquiet hpos hlt ?_
    rcases hor with hor | hor | hor
    · exact hserved hor
    · rw [World.Kept.pending_of_crashed hor]
      exact List.not_mem_nil
    · exact hfinished.resolve_right hor
  ends g k replied served he hquiet hor := by
    rcases x with ⟨w, e⟩
    obtain rfl : e = .sent g k replied served := he
    obtain ⟨-, -, -, -, hreplied⟩ := h.token k replied served rfl
    obtain ⟨hpos, hlt, hsignals, -⟩ := h.gpuToken g rfl
    have hpending : g ∉ w.pending := by
      rcases hor with hor | hor
      · exact hreplied hor g rfl
      · rw [World.Kept.pending_of_crashed hor]
        exact List.not_mem_nil
    have hone := h.world.count_of_quiet hquiet hpos hlt hpending
    obtain ⟨s, hs, hid⟩ := List.mem_map.mp (List.count_pos_iff.mp (hone ▸ Nat.one_pos))
    rw [← hid, h.world.status_eq s hs]
    exact (hsignals s hs hid).1

/-! ### Steps -/

variable [DecidableEq τ]

/-- A step of the completions at which the exec does not move. -/
theorem Kept.advance {w w' : World τ} {e : Exec} {a : Action τ} (h : Kept ⟨w, e⟩)
    (hs : w.Step a w') (hgpu : ∀ g t status, e.gpuToken? = some g →
      a = .completeId t g status ∨ a = .complete t g status →
        status ≠ .notComplete ∧ status ≠ .crashed) : Kept ⟨w', e⟩ := by
  have hkept := h.world.step hs
  have heffect := hs.effect h.world
  have hstays : ∀ id, id < w.completions.nextId → id ∉ w.pending → id ∉ w'.pending :=
    heffect.pending
  refine ⟨hkept, fun g hg => ?_, fun k replied served hk => ?_, fun g k replied served he => ?_⟩
  · obtain ⟨hpos, hlt, hsignals, hcalls⟩ := h.gpuToken g hg
    refine ⟨hpos, hlt.trans_le heffect.nextId_le, fun s hs' hid => ?_, fun t status hin => ?_⟩
    · rcases heffect.signals s hs' with hold | hne | ⟨t, hin⟩
      · exact hsignals s hold hid
      · refine ⟨?_, fun _ => hne⟩
        rw [(hkept.origin s hs' hne).1]
        decide
      · obtain ⟨hzero, hcrashed⟩ := hcalls t s.status (hid ▸ hin)
        exact ⟨hzero, fun heq => absurd heq hcrashed⟩
    · rcases heffect.calls t g status hin with hold | hnew
      · exact hcalls t status hold
      · exact hgpu g t status hg hnew
  · obtain ⟨hpos, hlt, hne, hserved, hreplied⟩ := h.token k replied served hk
    exact ⟨hpos, hlt.trans_le heffect.nextId_le, hne, fun hs' => hstays k hlt (hserved hs'),
      fun hr g hg => hstays g (h.gpuToken g hg).2.1 (hreplied hr g hg)⟩
  · obtain rfl : e = .finished g k replied served := he
    obtain ⟨hpos, hlt, -⟩ := h.token k replied served rfl
    refine (h.finished g k replied served rfl).imp (hstays k hlt) fun hok => ?_
    have hne : w.status g ≠ .notComplete := by
      rw [hok]
      decide
    exact (status_eq_of_ne h.world hkept heffect hne).trans hok

/-- A step of another thread. -/
theorem Kept.other {w w' : World τ} {e : Exec} {a : Action τ} (h : Kept ⟨w, e⟩)
    (hs : w.Step a w') (hallows : e.Allows a) : Kept ⟨w', e.see a⟩ := by
  have hnext := h.advance hs fun g t status hg hor => by
    rcases hor with rfl | rfl
    · exact absurd hg hallows
    · exact hallows.1 hg
  have htaken := (hs.effect h.world).taken
  have hserved : ∀ k, Exec.completesId k a = true → k ∉ w'.pending := by
    intro k hk
    cases a with
    | completeId t id status =>
      obtain rfl : id = k := of_decide_eq_true hk
      exact htaken t id status (.inl rfl)
    | _ => cases hk
  have hreplied : ∀ g, Exec.completes g a = true → g ∉ w'.pending := by
    intro g hg
    cases a with
    | complete t id status =>
      obtain rfl : id = g := of_decide_eq_true hg
      exact htaken t id status (.inr rfl)
    | _ => cases hg
  have hseen : ∀ g k replied served, e.gpuToken? = some g → e.token? = some (k, replied, served) →
      0 < k ∧ k < w'.completions.nextId ∧ e.gpuToken? ≠ some k ∧
        ((served || Exec.completesId k a) = true → k ∉ w'.pending) ∧
          ((replied || Exec.completes g a) = true → g ∉ w'.pending) := by
    intro g k replied served hg hk
    obtain ⟨hpos, hlt, hne, hs', hr'⟩ := hnext.token k replied served hk
    exact ⟨hpos, hlt, hne, fun hor => (Bool.or_eq_true_iff.mp hor).elim hs' (hserved k),
      fun hor => (Bool.or_eq_true_iff.mp hor).elim (fun hr => hr' hr g hg) (hreplied g)⟩
  cases e with
  | start => exact hnext
  | issued g => exact hnext
  | sent g k replied served =>
    obtain ⟨hpos, hlt, hne, hs', hr'⟩ := hseen g k replied served rfl rfl
    exact ⟨hnext.world, hnext.gpuToken,
      fun k' _ _ hk' => by
        cases hk'
        exact ⟨hpos, hlt, hne, hs', fun hr g' hg' => Option.some_inj.mp hg' ▸ hr' hr⟩,
      fun _ _ _ _ he => Exec.noConfusion he⟩
  | finished g k replied served =>
    obtain ⟨hpos, hlt, hne, hs', hr'⟩ := hseen g k replied served rfl rfl
    refine ⟨hnext.world, hnext.gpuToken,
      fun k' _ _ hk' => by
        cases hk'
        exact ⟨hpos, hlt, hne, hs', fun hr g' hg' => Option.some_inj.mp hg' ▸ hr' hr⟩,
      fun g' k' _ _ he => ?_⟩
    cases he
    exact hnext.finished g k replied served rfl

/-- A token just issued is neither signalled nor about to be by a completion. -/
theorem fresh_of_issue {w w' : World τ} {t : τ} (h : w.Kept) (hs : w.Step (.issue t) w') :
    w.completions.nextId < w'.completions.nextId ∧
      (∀ s ∈ w'.signals, s.id ≠ w.completions.nextId) ∧
        ∀ t' status, (t', Call.signalling w.completions.nextId status) ∉ w'.calls := by
  have heffect := hs.effect h
  cases hs
  refine ⟨?_, fun s hs heq => ?_, fun t' status hin => ?_⟩
  · simp only [World.issue, Completions.issueToken, Completions.insert]
    split_ifs <;> exact Nat.lt_succ_self _
  · have hmem : s.id ∈ w.signalled := List.mem_map_of_mem hs
    exact (h.account.lt (.inr (.inr hmem))).2.ne heq
  · have hold : (t', Call.signalling w.completions.nextId status) ∈ w.calls := by
      rcases heffect.calls _ _ _ hin with hold | heq | heq
      · exact hold
      · cases heq
      · cases heq
    have hmem : w.completions.nextId ∈ w.owed :=
      World.mem_owedBy.mpr ⟨_, hold, List.mem_singleton_self _⟩
    exact lt_irrefl _ (h.account.lt (.inr (.inl hmem))).2

theorem Kept.issueGpuToken {w w' : World τ} {t : τ} (h : Kept ⟨w, .start⟩)
    (hs : w.Step (.issue t) w') : Kept ⟨w', .issued w.completions.nextId⟩ := by
  obtain ⟨hlt, hsignals, hcalls⟩ := fresh_of_issue h.world hs
  refine ⟨h.world.step hs, fun g hg => ?_, fun _ _ _ hk => (by cases hk),
    fun _ _ _ _ he => (by cases he)⟩
  cases hg
  exact ⟨h.world.nextId_pos, hlt, fun s hs' hid => absurd hid (hsignals s hs'),
    fun t status hin => absurd hin (hcalls t status)⟩

theorem Kept.issueToken {w w' : World τ} {t : τ} {g : ℕ} (h : Kept ⟨w, .issued g⟩)
    (hs : w.Step (.issue t) w') : Kept ⟨w', .sent g w.completions.nextId false false⟩ := by
  obtain ⟨hlt, -, -⟩ := fresh_of_issue h.world hs
  have hnext := h.advance hs fun _ _ _ _ hor => by rcases hor with heq | heq <;> cases heq
  obtain ⟨-, hglt, -⟩ := h.gpuToken g rfl
  refine ⟨hnext.world, hnext.gpuToken, fun k replied served hk => ?_, fun _ _ _ _ he => by cases he⟩
  cases hk
  exact ⟨h.world.nextId_pos, hlt, fun heq => hglt.ne (Option.some_inj.mp heq),
    fun hfalse => Bool.noConfusion hfalse, fun hfalse => Bool.noConfusion hfalse⟩

theorem Kept.complete {w w' : World τ} {t : τ} {g k : ℕ} {replied served : Bool}
    (h : Kept ⟨w, .sent g k replied served⟩) {status : ExecStatus}
    (hs : w.Step (.complete t k status) w') : Kept ⟨w', .finished g k replied served⟩ := by
  obtain ⟨-, -, hne, -⟩ := h.token k replied served rfl
  have hnext := h.advance hs fun g' t' status' hg hor => by
    rcases hor with heq | heq <;> cases heq
    exact absurd hg hne
  refine ⟨hnext.world, hnext.gpuToken, hnext.token, fun g' k' _ _ he => ?_⟩
  cases he
  exact .inl ((hs.effect h.world).taken t k status (.inr rfl))

theorem Kept.step {fifo : τ} {a : Option (Action τ)} (h : x.Kept) (hs : Step fifo x a x') :
    x'.Kept := by
  cases hs with
  | other hs _ hallows => exact h.other hs hallows
  | goOn hs => exact h.advance hs fun _ _ _ _ hor => by rcases hor with heq | heq <;> cases heq
  | issueGpuToken hs => exact h.issueGpuToken hs
  | issueToken hs => exact h.issueToken hs
  | leave _ hstatus => exact h.leave hstatus
  | complete _ _ _ hs => exact h.complete hs

theorem kept_of_execution {fifo : τ} {as : List (Option (Action τ))}
    (hrun : Execution (Step fifo) start as x) : x.Kept :=
  hrun.invariant kept_start fun _ _ _ h hs => h.step hs

end ExecWorld

end ReimsVgpu.Tasks.Remote
