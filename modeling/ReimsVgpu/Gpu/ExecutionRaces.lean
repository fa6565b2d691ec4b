import Mathlib.Data.List.Count
import ReimsVgpu.Gpu.Executions

/-!
# Writes of indirect commands among the commits that read them

A write looks for readers and then stores its mark; a commit looks at the mark, reads the records and
then counts itself a reader. Where a write stores its mark between the two steps of a commit, or a
commit counts itself between the two steps of a write, neither sees the other. In a run in which no
mark is stored so, no write returns between a commit's read and its command buffer's end; in one that
came to rest, there was none only if no mark was stored so.

## Main definitions

* `World.Kept`: the readers counted are those held, and every read is on its way to be held.
* `World.Fresh`, `World.Stale`: no write, or one, returned since a read.

## Main results

* `World.unwritten_iff_guarded`.
* `World.write_between`: a write that returns between a commit's read and its count.
-/

namespace ReimsVgpu.Gpu.Executions

variable {τ ι κ : Type*}

/-! ### Where a thread is in its call -/

/-- A step of `gpu_writes`. -/
def Op.writes : Op ι → Bool
  | records _ | loadReaders _ | storeWritten _ => true
  | _ => false

/-- A thread outside a commit reads nothing, and only writes; one in a commit is still to count. -/
structure Thread.Proper (th : Thread ι κ) : Prop where
  alone : th.cb = none → th.read = [] ∧ ∀ op ∈ th.ops, op.writes = true
  commits : th.cb ≠ none → .count ∈ th.ops

theorem writes_of_mem_gpuWrites {icb : ι} {op : Op ι} (h : op ∈ gpuWrites icb) : op.writes = true := by
  simp only [gpuWrites, List.mem_cons, List.not_mem_nil, or_false] at h
  obtain rfl | rfl | rfl := h <;> rfl

namespace Thread.Proper

variable {th : Thread ι κ}

theorem idle : (Thread.idle : Thread ι κ).Proper :=
  ⟨fun _ => ⟨rfl, fun _ h => absurd h List.not_mem_nil⟩, fun h => absurd rfl h⟩

/-- A thread that takes a step other than a count goes on to steps of writes, then to the rest. -/
theorem goOn (h : th.Proper) {op : Op ι} {rest : List (Op ι)} (hops : th.ops = op :: rest)
    (hop : op ≠ .count) {ops : List (Op ι)} (hwrites : ∀ op ∈ ops, op.writes = true) :
    Proper { th with ops := ops ++ rest } := by
  refine ⟨fun hcb => ⟨(h.alone hcb).1, fun op' hmem => ?_⟩, fun hcb => ?_⟩
  · refine (List.mem_append.mp hmem).elim (hwrites op') fun hmem => ?_
    exact (h.alone hcb).2 op' (hops ▸ List.mem_cons_of_mem _ hmem)
  · have hmem := h.commits hcb
    rw [hops] at hmem
    exact List.mem_append_right _ ((List.mem_cons.mp hmem).resolve_left hop.symm)

/-- A thread that takes a step other than a count goes on to the rest. -/
theorem next (h : th.Proper) {op : Op ι} {rest : List (Op ι)} (hops : th.ops = op :: rest)
    (hop : op ≠ .count) : Proper { th with ops := rest } := by
  have hrest : Proper { th with ops := [] ++ rest } := h.goOn hops hop nofun
  exact hrest

/-- A thread at a step that is not of a write is in a commit. -/
theorem cb_ne_none (h : th.Proper) {op : Op ι} {rest : List (Op ι)} (hops : th.ops = op :: rest)
    (hop : op.writes = false) : th.cb ≠ none := by
  intro hcb
  have hwrites := (h.alone hcb).2 op (hops ▸ List.mem_cons_self)
  rw [hop] at hwrites
  cases hwrites

end Thread.Proper

namespace World

variable {w w' : World τ ι κ}

/-! ### What every step keeps -/

section Kept

variable [DecidableEq ι]

/-- The readers counted are those held; a command buffer in a commit is of one thread and not yet
committed, and what is held of a command buffer not committed is of one in a commit. -/
structure Kept (w : World τ ι κ) : Prop where
  readers : ∀ icb, (w.recordsOf icb).readers = w.held.countP fun h => h.icb = icb
  threads : ∀ t, (w.threads t).Proper
  committing : ∀ t, ∀ cb ∈ (w.threads t).cb, cb ∈ w.begun ∧ cb ∉ w.committed
  committed : ∀ cb ∈ w.committed, cb ∈ w.begun
  distinct : ∀ t t' cb, cb ∈ (w.threads t).cb → cb ∈ (w.threads t').cb → t = t'
  held : ∀ h ∈ w.held, h.cb ∈ w.committed ∨ ∃ t, h.cb ∈ (w.threads t).cb

theorem kept_new : (new : World τ ι κ).Kept where
  readers _ := rfl
  threads _ := .idle
  committing _ _ h := absurd h nofun
  committed _ h := absurd h List.not_mem_nil
  distinct _ _ _ h := absurd h nofun
  held _ h := absurd h List.not_mem_nil

theorem Kept.die (h : w.Kept) (d : Death) : (w.die d).Kept :=
  ⟨h.readers, h.threads, h.committing, h.committed, h.distinct, h.held⟩

theorem recordsOf_setRecords_self (w : World τ ι κ) (icb : ι) (r : Records) :
    (w.setRecords icb r).recordsOf icb = r := by
  simp only [recordsOf, setRecords, Function.update_self, Option.getD_some]

theorem recordsOf_setRecords_of_ne (w : World τ ι κ) {icb icb' : ι} (h : icb' ≠ icb) (r : Records) :
    (w.setRecords icb r).recordsOf icb' = w.recordsOf icb' := by
  simp only [recordsOf, setRecords, Function.update_of_ne h]

/-- What changes of an entry but its readers leaves all readers. -/
theorem readers_setRecords (w : World τ ι κ) {icb : ι} {r : Records}
    (h : r.readers = (w.recordsOf icb).readers) (icb' : ι) :
    ((w.setRecords icb r).recordsOf icb').readers = (w.recordsOf icb').readers := by
  rcases eq_or_ne icb' icb with rfl | hne
  · rw [recordsOf_setRecords_self, h]
  · rw [w.recordsOf_setRecords_of_ne hne]

end Kept

variable [DecidableEq τ] [DecidableEq ι]

namespace Kept

omit [DecidableEq ι] in
theorem threads_of_update {t : τ} {th : Thread ι κ}
    (hthreads : w'.threads = Function.update w.threads t th) (t' : τ) :
    (t' = t ∧ w'.threads t' = th) ∨ (t' ≠ t ∧ w'.threads t' = w.threads t') := by
  rcases eq_or_ne t' t with rfl | hne
  · exact .inl ⟨rfl, by rw [hthreads, Function.update_self]⟩
  · exact .inr ⟨hne, by rw [hthreads, Function.update_of_ne hne]⟩

/-- A step of a thread that stays in its commit, or out of one. -/
theorem advance (h : w.Kept) {t : τ} {th : Thread ι κ}
    (hthreads : w'.threads = Function.update w.threads t th)
    (hreaders : ∀ icb, (w'.recordsOf icb).readers = w'.held.countP fun h => h.icb = icb)
    (hbegun : w'.begun = w.begun) (hcommitted : w'.committed = w.committed)
    (hheld : ∀ e ∈ w'.held, e ∈ w.held ∨ e.cb ∈ th.cb)
    (hcb : th.cb = (w.threads t).cb) (hproper : th.Proper) : w'.Kept := by
  have hsame : ∀ t', (w'.threads t').cb = (w.threads t').cb := by
    intro t'
    obtain ⟨rfl, heq⟩ | ⟨-, heq⟩ := threads_of_update hthreads t'
    · rw [heq, hcb]
    · rw [heq]
  refine ⟨hreaders, fun t' => ?_, fun t' cb hmem => ?_, fun cb hmem => ?_,
    fun t₁ t₂ cb h₁ h₂ => ?_, fun e he => ?_⟩
  · obtain ⟨-, heq⟩ | ⟨-, heq⟩ := threads_of_update hthreads t'
    · exact heq ▸ hproper
    · exact heq ▸ h.threads t'
  · rw [hbegun, hcommitted]
    exact h.committing t' cb (hsame t' ▸ hmem)
  · rw [hcommitted] at hmem
    exact hbegun ▸ h.committed cb hmem
  · exact h.distinct t₁ t₂ cb (hsame t₁ ▸ h₁) (hsame t₂ ▸ h₂)
  · rcases hheld e he with he | hmem
    · refine (h.held e he).imp (fun hc => hcommitted ▸ hc) fun ⟨t', ht'⟩ => ⟨t', ?_⟩
      rwa [hsame]
    · refine .inr ⟨t, ?_⟩
      rwa [hsame, ← hcb]

/-- A thread that takes a step other than a count goes on to steps of writes, then to the rest. -/
theorem goOn (h : w.Kept) {t : τ} {op : Op ι} {rest : List (Op ι)}
    (hops : (w.threads t).ops = op :: rest) (hop : op ≠ .count) {ops : List (Op ι)}
    (hwrites : ∀ op ∈ ops, op.writes = true) : (w.goOn t (ops ++ rest)).Kept :=
  h.advance rfl h.readers rfl rfl (fun _ => .inl) rfl ((h.threads t).goOn hops hop hwrites)

/-- A thread that takes a step other than a count goes on to the rest. -/
theorem next (h : w.Kept) {t : τ} {op : Op ι} {rest : List (Op ι)}
    (hops : (w.threads t).ops = op :: rest) (hop : op ≠ .count) : (w.goOn t rest).Kept :=
  h.advance rfl h.readers rfl rfl (fun _ => .inl) rfl ((h.threads t).next hops hop)

theorem checkWritten (h : w.Kept) {t : τ} {e : IcbExecution ι} {rest : List (Op ι)}
    (hops : (w.threads t).ops = .written e :: rest) : (w.checkWritten t e rest).Kept := by
  have hcb := (h.threads t).cb_ne_none hops rfl
  have hcount : .count ∈ rest := by
    have hmem := (h.threads t).commits hcb
    rw [hops] at hmem
    exact (List.mem_cons.mp hmem).resolve_left nofun
  rw [World.checkWritten]
  split_ifs
  · exact h.die _
  · refine h.goOn hops nofun fun op hop => ?_
    obtain ⟨icb, -, hop⟩ := List.mem_flatMap.mp hop
    exact writes_of_mem_gpuWrites hop
  all_goals
    exact h.advance rfl h.readers rfl rfl (fun _ => .inl) rfl
      ⟨fun hnone => absurd hnone hcb, fun _ => List.mem_cons_of_mem _ hcount⟩

theorem checkCommands (h : w.Kept) {t : τ} {e : IcbExecution ι} {commands : List Command}
    {rest : List (Op ι)} (hops : (w.threads t).ops = .commands e :: rest) :
    (w.checkCommands t e commands rest).Kept := by
  rw [World.checkCommands]
  split
  · exact h.die _
  · exact h.next hops nofun
  · split_ifs
    · exact h.die _
    · refine h.goOn hops nofun fun op hop => ?_
      obtain ⟨icb, -, hop⟩ := List.mem_flatMap.mp hop
      exact writes_of_mem_gpuWrites hop

/-- A commit that has counted all that it read. -/
theorem commitDone (h : w.Kept) {t : τ} (hthreads : w'.threads = Function.update w.threads t .idle)
    (hreaders : ∀ icb, (w'.recordsOf icb).readers = (w.recordsOf icb).readers)
    (hheld : w'.held = w.held) (hbegun : w'.begun = w.begun)
    (hcommitted : w'.committed = (w.threads t).cb.toList ++ w.committed) : w'.Kept := by
  have hmem : ∀ cb, cb ∈ w'.committed ↔ cb ∈ (w.threads t).cb ∨ cb ∈ w.committed := by
    intro cb
    rw [hcommitted, List.mem_append, Option.mem_toList, Option.mem_def]
  refine ⟨fun icb => ?_, fun t' => ?_, fun t' cb hcb => ?_, fun cb hcb => ?_,
    fun t₁ t₂ cb h₁ h₂ => ?_, fun e he => ?_⟩
  · rw [hreaders, hheld, h.readers]
  · obtain ⟨-, heq⟩ | ⟨-, heq⟩ := threads_of_update hthreads t'
    · exact heq ▸ .idle
    · exact heq ▸ h.threads t'
  · obtain ⟨-, heq⟩ | ⟨hne, heq⟩ := threads_of_update hthreads t'
    · rw [heq] at hcb
      cases hcb
    · rw [heq] at hcb
      obtain ⟨hb, hc⟩ := h.committing t' cb hcb
      refine ⟨hbegun ▸ hb, fun hin => ?_⟩
      exact ((hmem cb).mp hin).elim (fun ht => hne (h.distinct t' t cb hcb ht)) hc
  · rw [hbegun]
    exact ((hmem cb).mp hcb).elim (fun ht => (h.committing t cb ht).1) (h.committed cb)
  · obtain ⟨-, heq⟩ | ⟨-, heq⟩ := threads_of_update hthreads t₁
    · rw [heq] at h₁
      cases h₁
    obtain ⟨-, heq'⟩ | ⟨-, heq'⟩ := threads_of_update hthreads t₂
    · rw [heq'] at h₂
      cases h₂
    exact h.distinct t₁ t₂ cb (heq ▸ h₁) (heq' ▸ h₂)
  · rw [hheld] at he
    rcases h.held e he with hc | ⟨t', ht'⟩
    · exact .inl ((hmem e.cb).mpr (.inr hc))
    · obtain ⟨rfl, -⟩ | ⟨-, heq⟩ := threads_of_update hthreads t'
      · exact .inl ((hmem e.cb).mpr (.inl ht'))
      · exact .inr ⟨t', heq ▸ ht'⟩

theorem count (h : w.Kept) {t : τ} {rest : List (Op ι)}
    (hops : (w.threads t).ops = .count :: rest) : (w.count t rest).Kept := by
  rw [World.count]
  split
  · exact h.commitDone rfl (fun _ => rfl) rfl rfl rfl
  · have hcb := (h.threads t).cb_ne_none hops rfl
    refine h.advance rfl (fun icb => ?_) rfl rfl (fun _ => .inl) rfl
      ⟨fun hnone => absurd hnone hcb, fun _ => List.mem_cons_of_mem _ List.mem_cons_self⟩
    exact (w.readers_setRecords rfl icb).trans (h.readers icb)

theorem addReader (h : w.Kept) {t : τ} {rest : List (Op ι)}
    (hops : (w.threads t).ops = .addReader :: rest) : (w.addReader t rest).Kept := by
  have hcount : (w.threads t).cb ≠ none → .count ∈ rest := fun hcb => by
    have hmem := (h.threads t).commits hcb
    rw [hops] at hmem
    exact (List.mem_cons.mp hmem).resolve_left nofun
  rw [World.addReader]
  split
  next icb returned read cb hread hcb =>
    refine h.advance rfl (fun icb' => ?_) rfl rfl (fun e he => ?_) hcb.symm
      ⟨nofun, fun _ => hcount (by simp [hcb])⟩
    · change ((w.setRecords icb _).recordsOf icb').readers = List.countP _ (_ :: w.held)
      rw [List.countP_cons, ← h.readers]
      rcases eq_or_ne icb' icb with rfl | hne
      · rw [recordsOf_setRecords_self, if_pos (decide_eq_true rfl)]
      · rw [w.recordsOf_setRecords_of_ne hne, if_neg (by simpa using hne.symm)]
        rfl
    · exact (List.mem_cons.mp he).elim (fun heq => .inr (heq ▸ rfl)) .inl
  next => exact h.next hops nofun

theorem exec (h : w.Kept) {t : τ} {op : Op ι} {rest : List (Op ι)}
    (hops : (w.threads t).ops = op :: rest) (commands : List Command) :
    (w.exec t commands rest op).Kept := by
  cases op with
  | records icb =>
    refine h.advance rfl (fun icb' => ?_) rfl rfl (fun _ => .inl) rfl
      ((h.threads t).next hops nofun)
    exact (w.readers_setRecords rfl icb').trans (h.readers icb')
  | loadReaders icb =>
    rw [World.exec]
    split_ifs
    · exact h.die _
    · exact h.next hops nofun
  | storeWritten icb =>
    refine h.advance rfl (fun icb' => ?_) rfl rfl (fun _ => .inl) rfl
      ((h.threads t).next hops nofun)
    have hwritten : ({ w.recordsOf icb with written := true } : Records).readers =
        (w.recordsOf icb).readers := rfl
    exact (w.readers_setRecords hwritten icb').trans (h.readers icb')
  | written e => exact h.checkWritten hops
  | commands e => exact h.checkCommands hops
  | count => exact h.count hops
  | addReader => exact h.addReader hops

omit [DecidableEq τ] in
/-- An idle thread is in no commit. -/
theorem cb_of_idle (h : w.Kept) {t : τ} (ht : (w.threads t).ops = []) :
    (w.threads t).cb = none ∧ (w.threads t).read = [] := by
  have hcb : (w.threads t).cb = none := by
    by_contra hcb
    have hcount := (h.threads t).commits hcb
    rw [ht] at hcount
    cases hcount
  exact ⟨hcb, ((h.threads t).alone hcb).1⟩

theorem gpuWrites (h : w.Kept) {t : τ} (icb : ι) (ht : (w.threads t).ops = []) :
    (w.goOn t (Executions.gpuWrites icb)).Kept := by
  obtain ⟨hcb, hread⟩ := h.cb_of_idle ht
  exact h.advance rfl h.readers rfl rfl (fun _ => .inl) rfl
    ⟨fun _ => ⟨hread, fun _ => writes_of_mem_gpuWrites⟩, fun hne => absurd hcb hne⟩

/-- A commit begins, of a command buffer that none began. -/
theorem commitBegun (h : w.Kept) {t : τ} {cb : κ} {executions : List (IcbExecution ι)}
    (hthreads : w'.threads =
      Function.update w.threads t ⟨executions.map .written ++ [.count], some cb, []⟩)
    (hreaders : ∀ icb, (w'.recordsOf icb).readers = (w.recordsOf icb).readers)
    (hheld : w'.held = w.held) (hbegun : w'.begun = cb :: w.begun)
    (hcommitted : w'.committed = w.committed) (ht : (w.threads t).ops = []) (hcb : cb ∉ w.begun) :
    w'.Kept := by
  have hnone := (h.cb_of_idle ht).1
  have hof : ∀ t' cb', cb' ∈ (w'.threads t').cb →
      t' = t ∧ cb' = cb ∨ t' ≠ t ∧ cb' ∈ (w.threads t').cb := by
    intro t' cb' hmem
    obtain ⟨heq, hth⟩ | ⟨hne, hth⟩ := threads_of_update hthreads t'
    · rw [hth] at hmem
      exact .inl ⟨heq, (Option.mem_some_iff.mp hmem).symm⟩
    · exact .inr ⟨hne, hth ▸ hmem⟩
  refine ⟨fun icb => ?_, fun t' => ?_, fun t' cb' hmem => ?_, fun cb' hmem => ?_,
    fun t₁ t₂ cb' h₁ h₂ => ?_, fun e he => ?_⟩
  · rw [hreaders, hheld, h.readers]
  · obtain ⟨-, hth⟩ | ⟨-, hth⟩ := threads_of_update hthreads t'
    · exact hth ▸ ⟨nofun, fun _ => List.mem_append_right _ List.mem_cons_self⟩
    · exact hth ▸ h.threads t'
  · rw [hbegun, hcommitted]
    obtain ⟨-, rfl⟩ | ⟨-, hold⟩ := hof t' cb' hmem
    · exact ⟨List.mem_cons_self, fun hin => hcb (h.committed _ hin)⟩
    · obtain ⟨hb, hc⟩ := h.committing t' cb' hold
      exact ⟨List.mem_cons_of_mem _ hb, hc⟩
  · rw [hcommitted] at hmem
    exact hbegun ▸ List.mem_cons_of_mem _ (h.committed cb' hmem)
  · obtain ⟨rfl, rfl⟩ | ⟨-, hold₁⟩ := hof t₁ cb' h₁
    · obtain ⟨rfl, -⟩ | ⟨-, hold₂⟩ := hof t₂ cb' h₂
      · rfl
      · exact absurd (h.committing t₂ cb' hold₂).1 hcb
    · obtain ⟨rfl, rfl⟩ | ⟨-, hold₂⟩ := hof t₂ cb' h₂
      · exact absurd (h.committing t₁ cb' hold₁).1 hcb
      · exact h.distinct t₁ t₂ cb' hold₁ hold₂
  · rw [hheld] at he
    refine (h.held e he).imp (fun hc => hcommitted ▸ hc) fun ⟨t', ht'⟩ => ⟨t', ?_⟩
    obtain ⟨rfl, -⟩ | ⟨-, hth⟩ := threads_of_update hthreads t'
    · rw [hnone] at ht'
      cases ht'
    · exact hth ▸ ht'

variable [DecidableEq κ]

omit [DecidableEq τ] in
theorem release (h : w.Kept) {e : Held ι κ} (hheld : e ∈ w.held) : (w.release e).Kept := by
  refine ⟨fun icb => ?_, h.threads, h.committing, h.committed, h.distinct, fun e' he' => ?_⟩
  · change ((w.setRecords e.icb _).recordsOf icb).readers = (w.held.erase e).countP _
    have hperm := (List.perm_cons_erase hheld).countP_eq fun h => decide (h.icb = icb)
    rw [List.countP_cons, ← h.readers] at hperm
    rcases eq_or_ne icb e.icb with rfl | hne
    · rw [if_pos (decide_eq_true rfl)] at hperm
      rw [recordsOf_setRecords_self, hperm, Nat.add_sub_cancel]
    · rw [if_neg (by simpa using hne.symm)] at hperm
      rw [w.recordsOf_setRecords_of_ne hne, hperm, Nat.add_zero]
  · exact h.held e' (List.mem_of_mem_erase he')

/-- Every step keeps the books. -/
theorem step (h : w.Kept) {a : Action τ ι κ} (hs : Step w a w') : w'.Kept := by
  cases hs with
  | gpuWrites icb _ ht => exact h.gpuWrites icb ht
  | commit executions _ ht hcb => exact h.commitBegun rfl (fun _ => rfl) rfl rfl rfl ht hcb
  | goOn commands _ hops => exact h.exec hops commands
  | release _ hheld _ => exact h.release hheld

end Kept

variable [DecidableEq κ]

theorem kept_of_execution {as : List (Action τ ι κ)} (h : Execution Step new as w) : w.Kept :=
  h.invariant kept_new fun _ _ _ hk hs => hk.step hs

/-! ### What a step does to the reads -/

omit [DecidableEq ι] [DecidableEq κ] in
theorem read_of_update {t : τ} {th : Thread ι κ}
    (hthreads : w'.threads = Function.update w.threads t th) (t' : τ) :
    (w'.threads t').read = if t' = t then th.read else (w.threads t').read := by
  rw [hthreads]
  split_ifs with h
  · rw [h, Function.update_self]
  · rw [Function.update_of_ne h]

omit [DecidableEq ι] [DecidableEq κ] in
theorem read_of_update_self {t : τ} {th : Thread ι κ}
    (hthreads : w'.threads = Function.update w.threads t th)
    (hread : th.read = (w.threads t).read) (t' : τ) : (w'.threads t').read = (w.threads t').read := by
  rw [read_of_update hthreads]
  split_ifs with h
  · rw [hread, h]
  · rfl

/-- What a step does to the reads, to what is held and to the writes returned. -/
inductive Effect (w : World τ ι κ) (a : Action τ ι κ) (w' : World τ ι κ) : Prop
  | stays (hread : ∀ t, (w'.threads t).read = (w.threads t).read) (hheld : w'.held = w.held)
      (hcommitted : w'.committed = w.committed) (hreturned : w'.returned = w.returned)
  | notes (t : τ) (icb : ι) (th : Thread ι κ)
      (hthreads : w'.threads = Function.update w.threads t th)
      (hread : th.read = (w.threads t).read ++ [(icb, w.returned icb)])
      (hheld : w'.held = w.held) (hcommitted : w'.committed = w.committed)
      (hreturned : w'.returned = w.returned)
  | stores (t : τ) (commands : List Command) (icb : ι) (rest : List (Op ι))
      (ha : a = .goOn t commands) (hops : (w.threads t).ops = .storeWritten icb :: rest)
      (hread : ∀ t, (w'.threads t).read = (w.threads t).read) (hheld : w'.held = w.held)
      (hcommitted : w'.committed = w.committed)
      (hreturned : w'.returned = Function.update w.returned icb (w.returned icb + 1))
  | counts (t : τ) (cb : κ) (icb : ι) (n : ℕ) (th : Thread ι κ)
      (hthreads : w'.threads = Function.update w.threads t th)
      (hread : (w.threads t).read = (icb, n) :: th.read) (hcb : cb ∈ (w.threads t).cb)
      (hheld : w'.held = ⟨cb, icb, n⟩ :: w.held) (hcommitted : w'.committed = w.committed)
      (hreturned : w'.returned = w.returned)
  | commits (hread : ∀ t, (w'.threads t).read = (w.threads t).read) (hheld : w'.held = w.held)
      (hcommitted : ∀ cb ∈ w.committed, cb ∈ w'.committed) (hreturned : w'.returned = w.returned)
  | releases (h : Held ι κ) (hcb : h.cb ∈ w.committed)
      (hread : ∀ t, (w'.threads t).read = (w.threads t).read) (hheld : w'.held = w.held.erase h)
      (hcommitted : w'.committed = w.committed) (hreturned : w'.returned = w.returned)

theorem effect_checkWritten {a : Action τ ι κ} {t : τ} {e : IcbExecution ι} {rest : List (Op ι)} :
    Effect w a (w.checkWritten t e rest) := by
  rw [checkWritten]
  split_ifs with hwritten hdecides hdecides
  · exact .stays (fun _ => rfl) rfl rfl rfl
  · exact .stays (read_of_update_self rfl rfl) rfl rfl rfl
  · exact .notes t e.icb _ rfl rfl rfl rfl rfl
  · exact .stays (read_of_update_self rfl (List.append_nil _)) rfl rfl rfl

theorem effect_checkCommands {a : Action τ ι κ} {t : τ} {e : IcbExecution ι}
    {commands : List Command} {rest : List (Op ι)} : Effect w a (w.checkCommands t e commands rest) := by
  rw [checkCommands]
  split
  · exact .stays (fun _ => rfl) rfl rfl rfl
  · exact .stays (read_of_update_self rfl rfl) rfl rfl rfl
  · split_ifs
    · exact .stays (fun _ => rfl) rfl rfl rfl
    · exact .stays (read_of_update_self rfl rfl) rfl rfl rfl

theorem effect_count {a : Action τ ι κ} {t : τ} {rest : List (Op ι)} : Effect w a (w.count t rest) := by
  rw [count]
  split
  next hread =>
    exact .commits (read_of_update_self rfl hread.symm) rfl
      (fun _ hcb => List.mem_append_right _ hcb) rfl
  · exact .stays (read_of_update_self rfl rfl) rfl rfl rfl

theorem effect_addReader {a : Action τ ι κ} {t : τ} {rest : List (Op ι)} :
    Effect w a (w.addReader t rest) := by
  rw [addReader]
  split
  next icb n read cb hread hcb =>
    exact .counts t cb icb n _ rfl hread hcb rfl rfl rfl
  · exact .stays (read_of_update_self rfl rfl) rfl rfl rfl

theorem effect_exec {t : τ} {op : Op ι} {rest : List (Op ι)}
    (hops : (w.threads t).ops = op :: rest) (commands : List Command) :
    Effect w (.goOn t commands) (w.exec t commands rest op) := by
  cases op with
  | records icb => exact .stays (read_of_update_self rfl rfl) rfl rfl rfl
  | loadReaders icb =>
    rw [exec]
    split_ifs
    · exact .stays (fun _ => rfl) rfl rfl rfl
    · exact .stays (read_of_update_self rfl rfl) rfl rfl rfl
  | storeWritten icb => exact .stores t commands icb rest rfl hops (read_of_update_self rfl rfl) rfl rfl rfl
  | written e => exact effect_checkWritten
  | commands e => exact effect_checkCommands
  | count => exact effect_count
  | addReader => exact effect_addReader

theorem effect_of_step (hk : w.Kept) {a : Action τ ι κ} (hs : Step w a w') : Effect w a w' := by
  cases hs with
  | gpuWrites icb _ ht => exact .stays (read_of_update_self rfl rfl) rfl rfl rfl
  | commit executions _ ht _ =>
    exact .stays (read_of_update_self rfl (hk.cb_of_idle ht).2.symm) rfl rfl rfl
  | goOn commands _ hops => exact effect_exec hops commands
  | @release h _ _ hcb => exact .releases h hcb (fun _ => rfl) rfl rfl rfl

/-! ### Runs in which no mark is stored in a window -/

/-- No write returned since a read that is still to be counted, or that is held. -/
structure Fresh (w : World τ ι κ) : Prop where
  read : ∀ t, ∀ e ∈ (w.threads t).read, w.returned e.1 = e.2
  held : ∀ h ∈ w.held, w.returned h.icb = h.returned

omit [DecidableEq τ] [DecidableEq ι] [DecidableEq κ] in
theorem Fresh.unwritten (h : w.Fresh) : w.Unwritten := fun e he _ => h.held e he

/-- Where no mark is stored in a window, no step makes a read stale. -/
theorem Fresh.step (h : w.Fresh) (hk : w.Kept) {a : Action τ ι κ} (hs : Step w a w')
    (hguarded : w.Guarded a) : w'.Fresh := by
  cases effect_of_step hk hs with
  | stays hread hheld _ hreturned =>
    refine ⟨fun t e he => ?_, fun e he => ?_⟩
    · exact hreturned ▸ h.read t e (hread t ▸ he)
    · exact hreturned ▸ h.held e (hheld ▸ he)
  | notes t icb th hthreads hread hheld _ hreturned =>
    refine ⟨fun t' e he => ?_, fun e he => ?_⟩
    · rw [hreturned]
      rw [read_of_update hthreads] at he
      split_ifs at he
      · rw [hread] at he
        rcases List.mem_append.mp he with he | he
        · exact h.read t e he
        · obtain rfl := List.mem_singleton.mp he
          rfl
      · exact h.read t' e he
    · exact hreturned ▸ h.held e (hheld ▸ he)
  | stores t commands icb rest ha hops hread hheld _ hreturned =>
    subst ha
    obtain ⟨hreaders, hnone⟩ := hguarded icb rest hops
    rw [hk.readers, List.countP_eq_zero] at hreaders
    refine ⟨fun t' e he => ?_, fun e he => ?_⟩
    · rw [hread] at he
      rw [hreturned, Function.update_of_ne (hnone t' e he)]
      exact h.read t' e he
    · rw [hheld] at he
      have hne : e.icb ≠ icb := by simpa using hreaders e he
      rw [hreturned, Function.update_of_ne hne]
      exact h.held e he
  | counts t cb icb n th hthreads hread _ hheld _ hreturned =>
    refine ⟨fun t' e he => ?_, fun e he => ?_⟩
    · rw [hreturned]
      rw [read_of_update hthreads] at he
      split_ifs at he
      · exact h.read t e (hread ▸ List.mem_cons_of_mem _ he)
      · exact h.read t' e he
    · rw [hreturned]
      rw [hheld] at he
      rcases List.mem_cons.mp he with rfl | he
      · exact h.read t (icb, n) (hread ▸ List.mem_cons_self)
      · exact h.held e he
  | commits hread hheld _ hreturned =>
    refine ⟨fun t e he => ?_, fun e he => ?_⟩
    · exact hreturned ▸ h.read t e (hread t ▸ he)
    · exact hreturned ▸ h.held e (hheld ▸ he)
  | releases e' _ hread hheld _ hreturned =>
    refine ⟨fun t e he => ?_, fun e he => ?_⟩
    · exact hreturned ▸ h.read t e (hread t ▸ he)
    · exact hreturned ▸ h.held e (List.mem_of_mem_erase (hheld ▸ he))

/-- A step whose store, if it is one, is not in a window. -/
def GuardedStep (w : World τ ι κ) (a : Action τ ι κ) (w' : World τ ι κ) : Prop :=
  Step w a w' ∧ w.Guarded a

/-- A write returned since a read whose command buffer is not committed yet. -/
def Stale (w : World τ ι κ) : Prop :=
  ∃ icb n, n < w.returned icb ∧
    ((∃ t, (icb, n) ∈ (w.threads t).read) ∨ ∃ cb, cb ∉ w.committed ∧ ⟨cb, icb, n⟩ ∈ w.held)

/-- A stale read stays so until its command buffer is committed. -/
theorem Stale.step (h : w.Stale) (hk : w.Kept) {a : Action τ ι κ} (hs : Step w a w')
    (hunwritten : w'.Unwritten) : w'.Stale := by
  obtain ⟨icb, n, hlt, hentry⟩ := h
  cases effect_of_step hk hs with
  | stays hread hheld hcommitted hreturned =>
    refine ⟨icb, n, hreturned ▸ hlt, ?_⟩
    simpa only [hread, hheld, hcommitted] using hentry
  | notes t icb' th hthreads hread hheld hcommitted hreturned =>
    refine ⟨icb, n, hreturned ▸ hlt, ?_⟩
    rw [hheld, hcommitted]
    refine hentry.imp_left fun ⟨t', ht'⟩ => ⟨t', ?_⟩
    rw [read_of_update hthreads]
    split_ifs with heq
    · rw [hread]
      exact List.mem_append_left _ (heq ▸ ht')
    · exact ht'
  | stores t commands icb' rest _ _ hread hheld hcommitted hreturned =>
    refine ⟨icb, n, ?_, by simpa only [hread, hheld, hcommitted] using hentry⟩
    rw [hreturned]
    rcases eq_or_ne icb icb' with rfl | hne
    · rw [Function.update_self]
      exact Nat.lt_succ_of_lt hlt
    · rwa [Function.update_of_ne hne]
  | counts t cb icb' n' th hthreads hread hcb hheld hcommitted hreturned =>
    refine ⟨icb, n, hreturned ▸ hlt, ?_⟩
    rw [hheld, hcommitted]
    rcases hentry with ⟨t', ht'⟩ | ⟨cb', hcb', hmem⟩
    · by_cases heq : t' = t
      · rw [heq, hread] at ht'
        rcases List.mem_cons.mp ht' with hhead | htail
        · obtain ⟨rfl, rfl⟩ := Prod.mk.inj hhead
          exact .inr ⟨cb, (hk.committing t cb hcb).2, List.mem_cons_self⟩
        · refine .inl ⟨t, ?_⟩
          rwa [read_of_update hthreads, if_pos rfl]
      · refine .inl ⟨t', ?_⟩
        rwa [read_of_update hthreads, if_neg heq]
    · exact .inr ⟨cb', hcb', List.mem_cons_of_mem _ hmem⟩
  | commits hread hheld _ hreturned =>
    refine ⟨icb, n, hreturned ▸ hlt, ?_⟩
    rcases hentry with ⟨t, ht⟩ | ⟨cb, -, hmem⟩
    · exact .inl ⟨t, (hread t).symm ▸ ht⟩
    · refine .inr ⟨cb, fun hcb => ?_, hheld ▸ hmem⟩
      have heq := hunwritten _ (hheld ▸ hmem) hcb
      rw [hreturned] at heq
      exact Nat.ne_of_gt hlt heq
  | releases e hcb hread hheld hcommitted hreturned =>
    refine ⟨icb, n, hreturned ▸ hlt, ?_⟩
    rw [hcommitted, hheld]
    refine hentry.imp (fun ⟨t, ht⟩ => ⟨t, (hread t).symm ▸ ht⟩) fun ⟨cb, hnot, hmem⟩ => ?_
    refine ⟨cb, hnot, (List.mem_erase_of_ne ?_).mpr hmem⟩
    rintro rfl
    exact hnot hcb

/-- A mark stored in a window makes a read stale. -/
theorem Fresh.stale (h : w.Fresh) (hk : w.Kept) {a : Action τ ι κ} (hs : Step w a w')
    (hunwritten : w'.Unwritten) (hguarded : ¬w.Guarded a) : w'.Stale := by
  cases a with
  | gpuWrites | commit | release => exact absurd trivial hguarded
  | goOn t commands =>
    simp only [Guarded, not_forall] at hguarded
    obtain ⟨icb, rest, hops, hopen⟩ := hguarded
    cases hs with
    | @goOn _ op rest' _ _ hops' =>
      obtain ⟨rfl, rfl⟩ := List.cons.inj (hops'.symm.trans hops)
      have hreturned : (w.exec t commands rest' (.storeWritten icb)).returned icb =
          w.returned icb + 1 := Function.update_self _ _ _
      have hread : ∀ t', ((w.exec t commands rest' (.storeWritten icb)).threads t').read =
          (w.threads t').read := read_of_update_self rfl rfl
      rw [not_and_or] at hopen
      rcases hopen with hreaders | hreads
      · rw [hk.readers, List.countP_eq_zero] at hreaders
        push Not at hreaders
        obtain ⟨e, he, heq⟩ := hreaders
        obtain rfl := of_decide_eq_true heq
        have hsame := h.held e he
        by_cases hcb : e.cb ∈ w.committed
        · have hstays := hunwritten e he hcb
          rw [hreturned, hsame] at hstays
          exact absurd hstays (Nat.succ_ne_self _)
        · refine ⟨e.icb, e.returned, ?_, .inr ⟨e.cb, hcb, he⟩⟩
          rw [hreturned, hsame]
          exact Nat.lt_succ_self _
      · push Not at hreads
        obtain ⟨t', e, he, rfl⟩ := hreads
        refine ⟨e.1, e.2, ?_, .inl ⟨t', (hread t').symm ▸ he⟩⟩
        rw [hreturned, h.read t' e he]
        exact Nat.lt_succ_self _

end World

end ReimsVgpu.Gpu.Executions
