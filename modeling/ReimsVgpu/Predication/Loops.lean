import ReimsVgpu.Predication.Conditionals

/-!
# Loops, encoded

A loop's start leaves a frame with what its end lays down; its body is encoded once from the guest,
and its end encodes it again from the log, each copy from the bindings the loop started with.

## Main definitions

* `Opens`, `LoopBody`: a loop's start, and its body from the guest.
* `Laying`, `Lays`, `LaidDown`: the copies of a loop's body.

## Main results

* `lays_copies`, `layDown_spec`: the copies, and the rest of a loop.
* `encodes_whileDo`, `encodes_doWhile`: a loop, its body encoded.
-/

namespace ReimsVgpu.Predication

namespace ComputeUnit

/-- A loop's entry: inside a block that can skip, a step counts it. -/
def entered (device : Device) (u : ComputeUnit) : ComputeUnit :=
  if u.predicated then u.step device { op := .enter } none else u

/-- A loop's start, its flag taken. -/
def opened (device : Device) (u : ComputeUnit) (l : Loop) : ComputeUnit :=
  match l.cond with
  | some cond =>
    let v := (u.entered device).test device .check cond
    { v with stack := ⟨.whileLoop l, true⟩ :: v.stack }
  | none =>
    let v := u.entered device
    { v with stack := ⟨.doWhile l, u.predicated⟩ :: v.stack }

theorem entered_emptied (device : Device) (u : ComputeUnit) :
    (u.entered device).emptied = u.emptied := by
  rw [entered]
  split_ifs <;> rfl

theorem bodyAndFlag_guest {v : ComputeUnit} (hcursor : v.cursor = none) (hv : v.emptied = false)
    (hroom : v.loops ≠ maxFlags) (logged : Bool) :
    v.bodyAndFlag logged = .ok
      (if logged then
        { v with
          loops := v.loops + 1
          flags := Function.update v.flags (v.log.length - 1) (some v.loops) }
      else { v with loops := v.loops + 1 }, v.log.length, v.loops) := by
  rw [bodyAndFlag]
  split
  · rename_i entry hentry
    cases hcursor.symm.trans hentry
  · rw [if_neg (by rw [hv]; exact Bool.false_ne_true), flag, if_neg hroom]
    cases logged <;> rfl

theorem startLoop_of_flag {device : Device} {w v : ComputeUnit} {body flag : ℕ}
    (hdepth : w.loopCount ≤ loopDepth) (hv : v.emptied = false)
    (hpred : v.predicated = w.predicated) (cond : Option Cond)
    (hflag : (if w.cursor.isNone && !w.recording then { w with log := [], flags := fun _ => none }
      else w).bodyAndFlag w.recording = .ok (v, body, flag)) :
    w.startLoop device cond = .ok (v.opened device
      { body := body, start := v.bindings, flag := flag, unroll := laidDown w.loopCount
        cond := cond }) := by
  have hentered : (if !v.emptied && w.predicated then v.step device { op := .enter } none else v) =
      v.entered device := by
    rw [hv, ← hpred, entered]
    rfl
  have hemptied : (v.entered device).emptied = false := (v.entered_emptied device).trans hv
  rw [startLoop, if_neg (Nat.not_lt.mpr hdepth)]
  dsimp only
  rw [hflag]
  cases cond with
  | none =>
    change Except.ok _ = _
    simp only [hentered, hpred, opened]
    rfl
  | some cond =>
    change Except.ok _ = _
    simp only [hentered, hemptied, opened, Bool.false_eq_true, if_false]
    rfl

end ComputeUnit

section LoopStart

variable {Mem : Type*} {device : Device} {sem : Semantics Mem} {fuel : ℕ} {mode : Option ℕ}
variable {u : ComputeUnit} {rs : List Logged} {r : Logged}

theorem entered_spec (device : Device) (h : Sound u) :
    Kept u (u.entered device) ∧ (u.entered device).emptied = false ∧
      Bound u.bindings (u.entered device).foreign (u.entered device).runtime ∧
      (u.entered device).stepped = u.stepped := by
  rw [ComputeUnit.entered]
  cases hp : u.predicated with
  | false => exact ⟨⟨rfl, rfl, rfl, rfl, rfl⟩, h.emptied, h.bound, rfl⟩
  | true =>
    exact ⟨Kept.step device u _ _, h.emptied, ComputeUnit.step_bound h.bound device _ _,
      (h.stepped hp).symm⟩

theorem entered_out (device : Device) (sem : Semantics Mem) (h : Sound u) :
    ∃ seg, (u.entered device).out = u.out ++ seg ∧
      Runs device sem u.stepped u.stepped seg (fun m => some (m, [])) ∧
      (u.predicated = true → Moves sem true seg atEnter) := by
  rw [ComputeUnit.entered]
  cases hp : u.predicated with
  | false => exact ⟨[], (List.append_nil _).symm, runs_nil _, fun hfalse => by cases hfalse⟩
  | true =>
    have hmoves : Moves sem true [stepFlat true u.steps { op := .enter } none] atEnter :=
      moves_plain u.steps 0 fun _ _ => rfl
    rw [h.stepped hp]
    refine ⟨[stepFlat true u.steps { op := .enter } none], ?_, hmoves.runs fun _ => rfl,
      fun _ => hmoves⟩
    change u.out ++ [stepFlat u.stepped u.steps { op := .enter } none] = _
    rw [h.stepped hp]

theorem startLoop_eq (device : Device) (h : Sound u) (r : Logged) (hopen : u.loopCount ≤ 1)
    (hflags : mode = none → u.loops < maxFlags) (cond : Option Cond) :
    ∃ (log : List Logged) (flags : ℕ → Option ℕ) (loops body flag : ℕ),
      ComputeUnit.startLoop device (u.noted mode r) cond =
        .ok (ComputeUnit.opened device
          { u with cursor := mode, log := log, flags := flags, loops := loops }
          { body := body, start := u.bindings, flag := flag, unroll := laidDown u.loopCount
            cond := cond }) ∧
      Logs mode u.loopCount u.log [r] log ∧ (mode ≠ none → loops = u.loops) ∧
      (mode = none → loops = u.loops + 1) ∧ (mode = none → body = log.length) ∧
      ∀ i, mode = some i → body = i + 1 := by
  have hrecording : (u.noted mode r).recording = (mode.isNone && decide (0 < u.loopCount)) :=
    ComputeUnit.recording_eq (u := u.noted mode r) h.emptied mode
  have hdepth : (u.noted mode r).loopCount ≤ loopDepth := hopen
  have hstart : ∀ (v : ComputeUnit) (body flag : ℕ), v.emptied = false → v.stack = u.stack →
      v.bindings = u.bindings →
      ((if (u.noted mode r).cursor.isNone && !(u.noted mode r).recording then
        { u.noted mode r with log := [], flags := fun _ => none } else u.noted mode r).bodyAndFlag
          (u.noted mode r).recording = .ok (v, body, flag)) →
      ComputeUnit.startLoop device (u.noted mode r) cond = .ok (v.opened device
        { body := body, start := u.bindings, flag := flag, unroll := laidDown u.loopCount
          cond := cond }) := by
    intro v body flag hv hstack hbindings hflag
    rw [ComputeUnit.startLoop_of_flag hdepth hv (predicated_of_stack hstack) cond hflag, hbindings]
    rfl
  cases mode with
  | some i =>
    refine ⟨u.log, u.flags, u.loops, i + 1, (u.flags i).getD 0, ?_, ⟨fun _ => rfl, by simp⟩,
      fun _ => rfl, by simp, by simp, by simp⟩
    exact hstart _ _ _ h.emptied rfl rfl rfl
  | none =>
    have hroom : u.loops ≠ maxFlags := (hflags rfl).ne
    by_cases hloops : 0 < u.loopCount
    · have hnoted : u.noted none r = { u with cursor := none, log := u.log ++ [r] } := by
        rw [ComputeUnit.noted, decide_eq_true hloops]
        rfl
      refine ⟨u.log ++ [r], Function.update u.flags ((u.log ++ [r]).length - 1) (some u.loops),
        u.loops + 1, (u.log ++ [r]).length, u.loops, ?_, ⟨by simp, fun _ _ => rfl⟩, by simp,
        fun _ => rfl, fun _ => rfl, by simp⟩
      refine hstart _ _ _ h.emptied rfl rfl ?_
      rw [hrecording, decide_eq_true hloops, hnoted]
      exact ComputeUnit.bodyAndFlag_guest (v := { u with cursor := none, log := u.log ++ [r] })
        rfl h.emptied hroom true
    · have hnoted : u.noted none r = { u with cursor := none } := by
        rw [ComputeUnit.noted, decide_eq_false hloops]
        rfl
      refine ⟨[], fun _ => none, u.loops + 1, 0, u.loops, ?_,
        ⟨by simp, fun _ hpos => absurd hpos hloops⟩, by simp, fun _ => rfl, by simp, by simp⟩
      refine hstart _ _ _ h.emptied rfl rfl ?_
      rw [hrecording, decide_eq_false hloops, hnoted]
      exact ComputeUnit.bodyAndFlag_guest
        (v := { u with cursor := none, log := [], flags := fun _ => none }) rfl h.emptied hroom false

/-- What a loop's start leaves: the loop's frame, with what its end lays down, and where its body
will lie in the log. -/
structure Opens (enc : ComputeUnit → Logged → Except Death ComputeUnit) (mode : Option ℕ)
    (u : ComputeUnit) (r : Logged) (l : Loop) (frame : Frame) (u' : ComputeUnit) : Prop
    extends Feeds enc u.loopCount mode u [r] 1 u' where
  stack : u'.stack = frame :: u.stack
  bindings : u'.bindings = u.bindings
  start : l.start = u.bindings
  unroll : l.unroll = laidDown u.loopCount
  guest : mode = none → l.body = u'.log.length
  logged : ∀ i, mode = some i → l.body = i + 1

/-- A loop's start, from a unit `w` that differs from the one before it in its log and flags. -/
theorem opens_loop {fuel : ℕ} (h : Sound u) (hcursor : mode = none → u.cursor = none)
    (cond : Option Cond)
    (henc : ComputeUnit.encode device fuel { u with cursor := mode } r =
      ComputeUnit.startLoop device (u.noted mode r) cond) (hr : r ≠ .encoder)
    (hplaced : Placed mode u.log (r :: rs)) (hopen : u.loopCount ≤ 1)
    (hflags : mode = none → u.loops < maxFlags) :
    ∃ (w : ComputeUnit) (l : Loop), Sound w ∧ w.stack = u.stack ∧ w.stepped = u.stepped ∧
      w.out = u.out ∧ l.cond = cond ∧
      Opens (ComputeUnit.encode device fuel) mode u r l
        (match cond with
        | some _ => ⟨.whileLoop l, true⟩
        | none => ⟨.doWhile l, u.predicated⟩) { w.opened device l with cursor := u.cursor } := by
  obtain ⟨log, flags, loops, body, flag, hstart, hlogs, hkept, hflagged, hguest, hlogged⟩ :=
    startLoop_eq device h r hopen hflags cond
  rw [hstart] at henc
  let w : ComputeUnit := { u with cursor := mode, log := log, flags := flags, loops := loops }
  have hw : Sound w := ⟨h.emptied, h.bound, h.stepped⟩
  obtain ⟨hkeptw, hemptied, hbound, hstepped⟩ := entered_spec device hw
  cases cond with
  | none =>
    refine ⟨w, _, hw, rfl, rfl, rfl, rfl, {
      fed := feed_one hplaced hr hcursor henc hkeptw.cursor
      emptied := hemptied
      bound := ?_
      cursor := rfl
      stepped := fun hs => hstepped.trans hs
      log := ?_
      kept := fun hmode => hkeptw.loops.trans (hkept hmode)
      flagged := fun hmode => hkeptw.loops.trans (hflagged hmode)
      stack := congrArg (_ :: ·) hkeptw.stack
      bindings := hkeptw.bindings
      start := rfl
      unroll := rfl
      guest := fun hmode => ?_
      logged := hlogged }⟩
    · change Bound (w.entered device).bindings _ _
      rw [hkeptw.bindings]
      exact hbound
    · change Logs mode u.loopCount u.log [r] (w.entered device).log
      rw [hkeptw.log]
      exact hlogs
    · change body = (w.entered device).log.length
      rw [hkeptw.log]
      exact hguest hmode
  | some cond =>
    refine ⟨w, _, hw, rfl, rfl, rfl, rfl, {
      fed := feed_one hplaced hr hcursor henc hkeptw.cursor
      emptied := hemptied
      bound := ?_
      cursor := rfl
      stepped := fun _ => rfl
      log := ?_
      kept := fun hmode => hkeptw.loops.trans (hkept hmode)
      flagged := fun hmode => hkeptw.loops.trans (hflagged hmode)
      stack := congrArg (_ :: ·) hkeptw.stack
      bindings := hkeptw.bindings
      start := rfl
      unroll := rfl
      guest := fun hmode => ?_
      logged := hlogged }⟩
    · rw [← hkeptw.bindings] at hbound
      exact ComputeUnit.step_bound hbound device
        { op := .check, comparison := cond.comparison, reference := cond.reference }
        (some (cond.buffer, cond.word))
    · change Logs mode u.loopCount u.log [r] (w.entered device).log
      rw [hkeptw.log]
      exact hlogs
    · change body = (w.entered device).log.length
      rw [hkeptw.log]
      exact hguest hmode

theorem opens_while (sem : Semantics Mem) (fuel : ℕ) (h : Sound u)
    (hcursor : mode = none → u.cursor = none) {c : Test} (hwithin : c.Within device)
    (hplaced : Placed mode u.log
      (.cmd (.startWhile (some c.buffer) c.offset c.comparison c.reference) :: rs))
    (hopen : u.loopCount ≤ 1) (hflags : mode = none → u.loops < maxFlags) :
    ∃ u' l cond, Opens (ComputeUnit.encode device fuel) mode u
        (.cmd (.startWhile (some c.buffer) c.offset c.comparison c.reference)) l
        ⟨.whileLoop l, true⟩ u' ∧
      Cond.new device c.buffer c.offset c.comparison c.reference = .ok cond ∧ l.cond = some cond ∧
      u'.stepped = true ∧ ∃ enter check, u'.out = u.out ++ (enter ++ check) ∧
        Runs device sem u.stepped u.stepped enter (fun m => some (m, [])) ∧
        (u.predicated = true → Moves sem true enter atEnter) ∧
        Moves sem u.stepped check (atTest .check (c.holds sem)) := by
  obtain ⟨cond, hcond⟩ : ∃ cond, Cond.new device c.buffer c.offset c.comparison c.reference =
    .ok cond := ⟨_, hwithin.cond_eq⟩
  have henc : ComputeUnit.encode device fuel { u with cursor := mode }
      (.cmd (.startWhile (some c.buffer) c.offset c.comparison c.reference)) =
        ComputeUnit.startLoop device (u.noted mode
          (.cmd (.startWhile (some c.buffer) c.offset c.comparison c.reference))) (some cond) := by
    rw [encode_cmd, ComputeUnit.command, ComputeUnit.observe_eq h.emptied mode _ (by simp)]
    rw [ComputeUnit.startWhile, hcond]
    rfl
  obtain ⟨w, l, hw, hstack, hstepped, hwout, hl, hopens⟩ :=
    opens_loop h hcursor (some cond) henc (by simp) hplaced hopen hflags
  obtain ⟨enter, hout, hruns, hmoves⟩ := entered_out device sem hw
  obtain ⟨-, -, -, hentered⟩ := entered_spec device hw
  rw [predicated_of_stack hstack] at hmoves
  rw [hstepped] at hruns hentered
  have hopened : (w.opened device l).stepped = true ∧ (w.opened device l).out =
      (w.entered device).out ++ [stepFlat (w.entered device).stepped (w.entered device).steps
        { op := .check, comparison := cond.comparison, reference := cond.reference }
        (some (cond.buffer, cond.word))] := by
    rw [ComputeUnit.opened, hl]
    exact ⟨rfl, rfl⟩
  refine ⟨_, l, cond, hopens, hcond, hl, hopened.1, enter, _, ?_, hruns, hmoves,
    moves_test (w.entered device).steps .check hwithin hcond⟩
  rw [← List.append_assoc, ← hwout, ← hout, ← hentered]
  exact hopened.2

theorem opens_doWhile (device : Device) (sem : Semantics Mem) (fuel : ℕ) (h : Sound u)
    (hcursor : mode = none → u.cursor = none)
    (hplaced : Placed mode u.log (.cmd .startDoWhile :: rs))
    (hopen : u.loopCount ≤ 1) (hflags : mode = none → u.loops < maxFlags) :
    ∃ u' l, Opens (ComputeUnit.encode device fuel) mode u (.cmd .startDoWhile) l
        ⟨.doWhile l, u.predicated⟩ u' ∧
      u'.stepped = u.stepped ∧ ∃ enter, u'.out = u.out ++ enter ∧
        Runs device sem u.stepped u.stepped enter (fun m => some (m, [])) ∧
        (u.predicated = true → Moves sem true enter atEnter) := by
  have henc : ComputeUnit.encode device fuel { u with cursor := mode } (.cmd .startDoWhile) =
      ComputeUnit.startLoop device (u.noted mode (.cmd .startDoWhile)) none := by
    rw [encode_cmd, ComputeUnit.command, ComputeUnit.observe_eq h.emptied mode _ (by simp)]
    rfl
  obtain ⟨w, l, hw, hstack, hstepped, hwout, hl, hopens⟩ :=
    opens_loop h hcursor none henc (by simp) hplaced hopen hflags
  obtain ⟨enter, hout, hruns, hmoves⟩ := entered_out device sem hw
  obtain ⟨-, -, -, hentered⟩ := entered_spec device hw
  rw [predicated_of_stack hstack] at hmoves
  rw [hstepped] at hruns hentered
  have hopened : (w.opened device l).stepped = (w.entered device).stepped ∧
      (w.opened device l).out = (w.entered device).out := by
    rw [ComputeUnit.opened, hl]
    exact ⟨rfl, rfl⟩
  refine ⟨_, l, hopens, hopened.1.trans hentered, enter, ?_, hruns, hmoves⟩
  rw [← hwout, ← hout]
  exact hopened.2

end LoopStart

section LayDown

variable {Mem : Type*} {device : Device} {sem : Semantics Mem} {fuel : ℕ} {u : ComputeUnit}
variable {body : Block} {start : Bindings} {entry : ℕ} {c : Test} {cond : Cond}

/-- The turns of a While, whose test comes before each, or of a DoWhile. -/
def turns (beforeEach : Bool) (t : Mem → Bool) (run : Mem → Option (Mem × List Done)) :
    ℕ → Mem → Option (Mem × List Done) :=
  if beforeEach then turnsWhile t run else turnsDoWhile t run

/-- A unit whose innermost loop's copies are laid down: it skips, and the body lies in the log. -/
structure Laying (device : Device) (fuel : ℕ) (body : Block) (start : Bindings) (entry : ℕ)
    (u : ComputeUnit) : Prop where
  emptied : u.emptied = false
  bound : Bound u.bindings u.foreign u.runtime
  stepped : u.stepped = true
  predicated : u.predicated = true
  placed : Placed (some entry) u.log body.records
  opened : u.loopCount + body.loopDepth ≤ 2
  fuel : body.loopDepth ≤ fuel
  within : body.Within device true start
  pipeline : body.PipelineSet true start
  depth : body.depth + 1 < 2 ^ 32
  bindings : u.bindings = body.after start

/-- A copy more of a loop's body, as `layCopies` encodes it. -/
def layCopy (device : Device) (replay : ComputeUnit → ℕ → ℕ → Except Death ComputeUnit)
    (start : Bindings) (body stop : ℕ) (cond : Cond) (beforeEach : Bool) (u : ComputeUnit) :
    Except Death ComputeUnit := do
  let u := u.rebind start
  let u := if beforeEach then u.test device .check cond else u
  let u ← replay u body stop
  .ok (if beforeEach then u else u.test device .check cond)

theorem layCopies_succ (device : Device)
    (replay : ComputeUnit → ℕ → ℕ → Except Death ComputeUnit) (start : Bindings) (body stop : ℕ)
    (cond : Cond) (beforeEach : Bool) (n : ℕ) (u : ComputeUnit) :
    ComputeUnit.layCopies device replay start body stop cond beforeEach (n + 1) u =
      layCopy device replay start body stop cond beforeEach u >>=
        ComputeUnit.layCopies device replay start body stop cond beforeEach n := by
  rw [ComputeUnit.layCopies, layCopy]
  dsimp only
  cases replay _ body stop with
  | error e => rfl
  | ok v => rfl

/-- What laying down leaves alone, and the copies encoded. -/
structure Lays (device : Device) (sem : Semantics Mem) (beforeEach : Bool) (t : Mem → Bool)
    (run : Mem → Option (Mem × List Done)) (levels n : ℕ) (u u' : ComputeUnit) : Prop extends
    Kept u u' where
  emptied : u'.emptied = false
  bound : Bound u'.bindings u'.foreign u'.runtime
  stepped : u'.stepped = true
  seg : ∃ copies, u'.out = u.out ++ copies ∧ ∀ tail k,
    Turns device sem (turns beforeEach t run) levels k tail →
      Turns device sem (turns beforeEach t run) levels (n + k) (copies ++ tail)

theorem Lays.laying {beforeEach : Bool} {t : Mem → Bool} {run : Mem → Option (Mem × List Done)}
    {levels n : ℕ} {u' : ComputeUnit} (h : Lays device sem beforeEach t run levels n u u')
    (hu : Laying device fuel body start entry u) : Laying device fuel body start entry u' where
  emptied := h.emptied
  bound := h.bound
  stepped := h.stepped
  predicated := (predicated_of_stack h.stack).trans hu.predicated
  placed := by
    rw [h.log]
    exact hu.placed
  opened := by
    rw [loopCount_of_stack h.stack]
    exact hu.opened
  fuel := hu.fuel
  within := hu.within
  pipeline := hu.pipeline
  depth := hu.depth
  bindings := h.bindings.trans hu.bindings

theorem rebind_spec (h : Laying device fuel body start entry u) :
    Sound (u.rebind start) ∧ (u.rebind start).stepped = true :=
  ⟨⟨h.emptied, h.bound.rebind start, fun _ => h.stepped⟩, h.stepped⟩

/-- The body of a copy, from the log. -/
theorem Laying.replayed (hbody : body.Encoded device sem)
    (h : Laying device fuel body start entry u) {v : ComputeUnit} (hv : Sound v)
    (hstack : v.stack = u.stack) (hlog : v.log = u.log) (hbindings : v.bindings = start) :
    ∃ v', ComputeUnit.replayWith (ComputeUnit.encode device fuel) v entry
        (entry + body.records.length) = .ok v' ∧
      Encodes device sem (ComputeUnit.encode device fuel) (some entry) v body.records
        body.loopCount body.depth (body.after start)
        (body.exec sem laidDown u.loopCount start) v' := by
  have hpred : v.predicated = true := (predicated_of_stack hstack).trans h.predicated
  have hdepth := h.depth
  have hready : Ready device fuel (some entry) v body := {
    sound := hv
    cursor := fun hmode => by cases hmode
    placed := hlog ▸ h.placed
    opened := by
      rw [loopCount_of_stack hstack]
      exact h.opened
    fuel := h.fuel
    flags := fun hmode => by cases hmode
    within := by
      rw [hpred, hbindings]
      exact h.within
    pipeline := by
      rw [hpred, hbindings]
      exact h.pipeline
    depth := by omega }
  obtain ⟨v', henc, -⟩ := hbody fuel (some entry) v hready
  rw [hbindings, loopCount_of_stack hstack] at henc
  exact ⟨v', (feed_some v entry body.records).symm.trans henc.fed, henc⟩

theorem lays_copy (hbody : body.Encoded device sem) (h : Laying device fuel body start entry u)
    (hc : c.Within device)
    (hcond : Cond.new device c.buffer c.offset c.comparison c.reference = .ok cond)
    (beforeEach : Bool) :
    ∃ u', layCopy device (ComputeUnit.replayWith (ComputeUnit.encode device fuel)) start entry
        (entry + body.records.length) cond beforeEach u = .ok u' ∧
      Lays device sem beforeEach (c.holds sem) (body.exec sem laidDown u.loopCount start)
        body.depth 1 u u' := by
  obtain ⟨hsound, hstepped⟩ := rebind_spec h
  let s : Step := { op := .check, comparison := cond.comparison, reference := cond.reference }
  cases beforeEach with
  | true =>
    let v := (u.rebind start).test device .check cond
    have hv : Sound v :=
      ⟨hsound.emptied, ComputeUnit.step_bound hsound.bound device s _, fun _ => rfl⟩
    obtain ⟨v', hreplay, henc⟩ := h.replayed hbody hv rfl rfl rfl
    have hpred : v.predicated = true := h.predicated
    have htrue : v'.stepped = true := henc.stepped rfl
    obtain ⟨seg, hout, hruns, hskips⟩ := henc.seg
    rw [htrue] at hruns
    refine ⟨v', ?_, {
      stack := henc.stack
      cursor := henc.cursor
      log := henc.log.1 (Option.some_ne_none entry)
      bindings := henc.bindings.trans h.bindings.symm
      loops := henc.kept (Option.some_ne_none entry)
      emptied := henc.emptied
      bound := henc.bound
      stepped := htrue
      seg := ⟨[stepFlat u.stepped u.steps s (some (cond.buffer, cond.word))] ++ seg, ?_, ?_⟩ }⟩
    · rw [layCopy]
      change (ComputeUnit.replayWith _ v entry _ >>= _) = _
      rw [hreplay]
      rfl
    · rw [hout, ← List.append_assoc]
      rfl
    · intro tail k htail
      have hmoves : Moves sem true [stepFlat u.stepped u.steps s (some (cond.buffer, cond.word))]
          (atTest .check (c.holds sem)) := by
        rw [h.stepped]
        exact moves_test u.steps .check hc hcond
      rw [List.append_assoc, Nat.add_comm]
      exact ⟨runsTo_while_turn hmoves hruns (hskips hpred) h.depth htail,
        hmoves.test_skips.append ((hskips hpred).append htail.skips)⟩
  | false =>
    obtain ⟨v', hreplay, henc⟩ := h.replayed hbody hsound rfl rfl rfl
    have hpred : (u.rebind start).predicated = true := h.predicated
    have htrue : v'.stepped = true := henc.stepped hstepped
    obtain ⟨seg, hout, hruns, hskips⟩ := henc.seg
    rw [hstepped, htrue] at hruns
    refine ⟨v'.test device .check cond, ?_, {
      stack := henc.stack
      cursor := henc.cursor
      log := henc.log.1 (Option.some_ne_none entry)
      bindings := henc.bindings.trans h.bindings.symm
      loops := henc.kept (Option.some_ne_none entry)
      emptied := henc.emptied
      bound := ComputeUnit.step_bound henc.bound device s _
      stepped := rfl
      seg := ⟨seg ++ [stepFlat v'.stepped v'.steps s (some (cond.buffer, cond.word))], ?_, ?_⟩ }⟩
    · rw [layCopy]
      change (ComputeUnit.replayWith _ (u.rebind start) entry _ >>= _) = _
      rw [hreplay]
      rfl
    · rw [← List.append_assoc]
      exact congrArg (· ++ _) hout
    · intro tail k htail
      have hmoves : Moves sem true [stepFlat v'.stepped v'.steps s (some (cond.buffer, cond.word))]
          (atTest .check (c.holds sem)) := by
        rw [htrue]
        exact moves_test v'.steps .check hc hcond
      rw [List.append_assoc, Nat.add_comm]
      exact ⟨runsTo_doWhile_turn hruns hmoves h.depth htail,
        (hskips hpred).append (hmoves.test_skips.append htail.skips)⟩

theorem lays_copies (hbody : body.Encoded device sem) (hc : c.Within device)
    (hcond : Cond.new device c.buffer c.offset c.comparison c.reference = .ok cond)
    (beforeEach : Bool) (n : ℕ) (h : Laying device fuel body start entry u) :
    ∃ u', ComputeUnit.layCopies device
        (ComputeUnit.replayWith (ComputeUnit.encode device fuel)) start entry
        (entry + body.records.length) cond beforeEach n u = .ok u' ∧
      Lays device sem beforeEach (c.holds sem) (body.exec sem laidDown u.loopCount start)
        body.depth n u u' := by
  induction n generalizing u with
  | zero =>
    refine ⟨u, rfl, ⟨⟨rfl, rfl, rfl, rfl, rfl⟩, h.emptied, h.bound, h.stepped, [],
      (List.append_nil _).symm, ?_⟩⟩
    intro tail k htail
    rw [Nat.zero_add]
    exact htail
  | succ n ih =>
    obtain ⟨v, hcopy, hlays⟩ := lays_copy hbody h hc hcond beforeEach
    obtain ⟨u', hcopies, hlays'⟩ := ih (hlays.laying h)
    rw [loopCount_of_stack hlays.stack] at hlays'
    obtain ⟨copy, hout, hcopyturns⟩ := hlays.seg
    obtain ⟨copies, hout', hturns⟩ := hlays'.seg
    refine ⟨u', ?_, ⟨hlays.toKept.trans hlays'.toKept, hlays'.emptied, hlays'.bound,
      hlays'.stepped, copy ++ copies, ?_, ?_⟩⟩
    · rw [layCopies_succ, hcopy]
      exact hcopies
    · rw [hout', hout, List.append_assoc]
    · intro tail k htail
      have := hcopyturns _ _ (hturns tail k htail)
      rw [List.append_assoc, Nat.add_right_comm, Nat.add_comm (n + k)]
      exact this

/-- What a loop's end leaves: the loop closed, and the rest of it laid down. -/
structure LaidDown (device : Device) (sem : Semantics Mem) (beforeEach : Bool) (t : Mem → Bool)
    (run : Mem → Option (Mem × List Done)) (levels n : ℕ) (rest : List Frame)
    (u u' : ComputeUnit) : Prop where
  stack : u'.stack = rest
  cursor : u'.cursor = u.cursor
  bindings : u'.bindings = u.bindings
  loops : u'.loops = u.loops
  emptied : u'.emptied = false
  bound : Bound u'.bindings u'.foreign u'.runtime
  stepped : u'.stepped = true
  log : u.cursor ≠ none ∨ 0 < (rest.filter Frame.isLoop).length → u'.log = u.log
  seg : ∃ copies last, u'.out = u.out ++ (copies ++ last) ∧
    Turns device sem (turns beforeEach t run) levels n copies ∧ Moves sem true last atEnd

/-- A While's last test. -/
def lastTest (device : Device) (beforeEach : Bool) (cond : Cond) (u : ComputeUnit) : ComputeUnit :=
  if beforeEach then u.test device .check cond else u

/-- The end of a loop's last copy: the overrun step, and after a While's last test. -/
theorem lastTest_spec (sem : Semantics Mem) (hc : c.Within device)
    (hcond : Cond.new device c.buffer c.offset c.comparison c.reference = .ok cond)
    (beforeEach : Bool) (hbound : Bound u.bindings u.foreign u.runtime) (hstepped : u.stepped = true)
    (run : Mem → Option (Mem × List Done)) {levels : ℕ} (hroom : levels + 1 < 2 ^ 32) (flag : ℕ) :
    let v := (lastTest device beforeEach cond u).overrun device flag
    Kept u v ∧ v.emptied = u.emptied ∧ Bound v.bindings v.foreign v.runtime ∧ v.stepped = true ∧
      ∃ seg, v.out = u.out ++ seg ∧
        Turns device sem (turns beforeEach (c.holds sem) run) levels 0 seg := by
  let s : Step := { op := .check, comparison := cond.comparison, reference := cond.reference }
  let o : Step := { op := .overrun, flag := flag }
  cases beforeEach with
  | true =>
    have hcheck : Moves sem true [stepFlat u.stepped u.steps s (some (cond.buffer, cond.word))]
        (atTest .check (c.holds sem)) := by
      rw [hstepped]
      exact moves_test u.steps .check hc hcond
    have hover : Moves sem true [stepFlat true (u.steps + 1) o none] atOverrun :=
      moves_plain (u.steps + 1) flag fun _ _ => rfl
    have hbound₁ := ComputeUnit.step_bound hbound device s (some (cond.buffer, cond.word))
    refine ⟨⟨rfl, rfl, rfl, rfl, rfl⟩, rfl, ComputeUnit.step_bound hbound₁ device o none, rfl,
      _, ?_, turns_while_zero hcheck hover hroom⟩
    rw [← List.append_assoc]
    rfl
  | false =>
    have hover : Moves sem true [stepFlat u.stepped u.steps o none] atOverrun := by
      rw [hstepped]
      exact moves_plain u.steps flag fun _ _ => rfl
    exact ⟨⟨rfl, rfl, rfl, rfl, rfl⟩, rfl, ComputeUnit.step_bound hbound device o none, rfl,
      _, rfl, turns_none hover fun _ => rfl⟩

theorem layDown_spec (hbody : body.Encoded device sem) (hc : c.Within device)
    (hcond : Cond.new device c.buffer c.offset c.comparison c.reference = .ok cond)
    (beforeEach : Bool) {l : Loop} {kind : Kind} (hkind : kind = .whileLoop l ∨ kind = .doWhile l)
    {predicated : Bool} {rest : List Frame} (hstack : u.stack = ⟨kind, predicated⟩ :: rest)
    (h : Laying device fuel body l.start l.body { u with stack := ⟨kind, true⟩ :: rest })
    {stop : ℕ} (hstop : stop = l.body + body.records.length) :
    ∃ u', ComputeUnit.layDown device (ComputeUnit.replayWith (ComputeUnit.encode device fuel)) u
        stop cond beforeEach = .ok u' ∧
      LaidDown device sem beforeEach (c.holds sem)
        (body.exec sem laidDown u.loopCount l.start) body.depth (l.unroll - 1) rest u u' := by
  let v : ComputeUnit := { u with stack := ⟨kind, true⟩ :: rest }
  obtain ⟨w, hcopies, hlays⟩ := lays_copies hbody hc hcond beforeEach (l.unroll - 1) h
  have hloops : v.loopCount = u.loopCount := by
    rw [ComputeUnit.loopCount, ComputeUnit.loopCount, hstack]
    rcases hkind with rfl | rfl <;> rfl
  rw [hloops] at hlays
  let x := (lastTest device beforeEach cond w).overrun device l.flag
  let y := x.step device { op := .endBlock } none
  let z : ComputeUnit := { y with stack := y.stack.tail }
  have hlay : ComputeUnit.layDown device
      (ComputeUnit.replayWith (ComputeUnit.encode device fuel)) u stop cond beforeEach =
        .ok z.closed := by
    rw [← hstop] at hcopies
    rw [ComputeUnit.layDown, hstack]
    rcases hkind with rfl | rfl
    · change (ComputeUnit.layCopies _ _ _ _ _ _ _ _ v >>= _) = _
      rw [hcopies]
      rfl
    · change (ComputeUnit.layCopies _ _ _ _ _ _ _ _ v >>= _) = _
      rw [hcopies]
      rfl
  obtain ⟨copies, hout, hturns⟩ := hlays.seg
  obtain ⟨hkeptx, hemptiedx, hboundx, hsteppedx, tail, houtx, htail⟩ :=
    lastTest_spec sem hc hcond beforeEach hlays.bound hlays.stepped
      (body.exec sem laidDown u.loopCount l.start) h.depth l.flag
  obtain ⟨hemptied, hbindings, hforeign, hruntime, hst, hcur, hstepped, hl, houtz, hlog⟩ :=
    closed_spec z
  have hkept : Kept v x := hlays.toKept.trans hkeptx
  have hz : z.stack = rest := congrArg List.tail hkept.stack
  refine ⟨z.closed, hlay, {
    stack := hst.trans hz
    cursor := hcur.trans hkept.cursor
    bindings := hbindings.trans hkept.bindings
    loops := hl.trans hkept.loops
    emptied := hemptied.trans (hemptiedx.trans hlays.emptied)
    bound := ?_
    stepped := hstepped
    log := fun hopen => ?_
    seg := ⟨copies ++ tail, [stepFlat true x.steps { op := .endBlock } none], ?_, ?_, ?_⟩ }⟩
  · rw [hbindings, hforeign, hruntime]
    exact ComputeUnit.step_bound hboundx device { op := .endBlock } none
  · refine (hlog ?_).trans hkept.log
    rcases hopen with hcursor | hloops
    · exact .inl fun hnone => hcursor (hkept.cursor.symm.trans hnone)
    · right
      rw [ComputeUnit.loopCount, hz]
      exact hloops
  · rw [houtz]
    change x.out ++ [stepFlat x.stepped x.steps { op := .endBlock } none] = _
    rw [hsteppedx, houtx, hout]
    simp only [List.append_assoc]
  · exact hturns tail 0 htail
  · exact moves_plain x.steps 0 fun _ _ => rfl

/-! ### Loops, whole -/

variable {mode : Option ℕ} {rs : List Logged} {r r' : Logged} {u₁ u₂ : ComputeUnit} {l : Loop}

theorem Feeds.weaken {enc : ComputeUnit → Logged → Except Death ComputeUnit} {opened opened' : ℕ}
    {loops : ℕ} (h : Feeds enc opened mode u rs loops u₁) (hle : opened' ≤ opened) :
    Feeds enc opened' mode u rs loops u₁ :=
  { h with log := ⟨h.log.1, fun hmode hloops => h.log.2 hmode (hloops.trans_le hle)⟩ }

/-- Where a loop's body lies in the log at the loop's end. -/
theorem Opens.placed {enc : ComputeUnit → Logged → Except Death ComputeUnit} {frame : Frame}
    (hopens : Opens enc mode u r l frame u₁) (hframe : frame.isLoop = true)
    {records : List Logged} {loops : ℕ}
    (hfeeds : Feeds enc u₁.loopCount (mode.map (· + 1)) u₁ records loops u₂)
    (hstack : u₂.stack = u₁.stack) (hplaced : Placed mode u.log (r :: (records ++ rs)))
    (r' : Logged) :
    Placed (some l.body) (u₂.noted (mode.map (· + (records.length + 1))) r').log records ∧
      (mode.map (· + (records.length + 1))).getD u₂.log.length = l.body + records.length := by
  have hpos : 0 < u₁.loopCount := by
    rw [ComputeUnit.loopCount, hopens.stack, List.filter_cons, if_pos hframe]
    exact Nat.succ_pos _
  cases mode with
  | none =>
    have hlog : u₂.log = u₁.log ++ records := hfeeds.log.2 rfl hpos
    have hnoted : (u₂.noted none r').log = u₂.log ++ [r'] :=
      (u₂.noted_logs none r').2 rfl (by rw [loopCount_of_stack hstack]; exact hpos)
    refine ⟨fun i hi => ⟨u₁.log, [r'], ?_, ?_⟩, ?_⟩
    · change (u₂.noted none r').log = _
      rw [hnoted, hlog, List.append_assoc]
    · rw [← hopens.guest rfl]
      exact Option.some.inj hi
    · change u₂.log.length = _
      rw [hlog, List.length_append, hopens.guest rfl]
  | some i =>
    have hbody := hopens.logged i rfl
    have hlog : u₂.log = u.log := (hfeeds.log.1 (by simp)).trans (hopens.log.1 (by simp))
    refine ⟨?_, ?_⟩
    · change Placed (some l.body) u₂.log records
      rw [hlog, hbody]
      exact hplaced.tail.left
    · change i + (records.length + 1) = l.body + records.length
      omega

/-- The end record of a loop, its rest laid down from `w`. -/
theorem LaidDown.feeds {enc : ComputeUnit → Logged → Except Death ComputeUnit} {beforeEach : Bool}
    {t : Mem → Bool} {run : Mem → Option (Mem × List Done)} {levels n : ℕ} {w u' : ComputeUnit}
    (h : LaidDown device sem beforeEach t run levels n u.stack w u')
    (hcursor : mode = none → u₂.cursor = none) (hplaced : Placed mode u₂.log (r :: rs))
    (hr : r ≠ .encoder) (henc : enc { u₂ with cursor := mode } r = .ok u')
    (hloops : u₂.loopCount = u.loopCount + 1) (hw : Kept (u₂.noted mode r) w) :
    Feeds enc u.loopCount mode u₂ [r] 0 { u' with cursor := u₂.cursor } where
  fed := feed_one hplaced hr hcursor henc (h.cursor.trans hw.cursor)
  emptied := h.emptied
  bound := h.bound
  cursor := rfl
  stepped := fun _ => h.stepped
  log := by
    have hnoted := u₂.noted_logs mode r
    refine ⟨fun hmode => ?_, fun hmode hopen => ?_⟩
    · have hlog := h.log (.inl (by rw [hw.cursor]; exact hmode))
      exact hlog.trans (hw.log.trans (hnoted.1 hmode))
    · have hlog := h.log (.inr hopen)
      exact hlog.trans (hw.log.trans (hnoted.2 hmode (by omega)))
  kept := fun _ => h.loops.trans hw.loops
  flagged := fun _ => h.loops.trans hw.loops

theorem encode_endWhile (hu : u.emptied = false) {predicated : Bool} {rest : List Frame}
    (hstack : u.stack = ⟨.whileLoop l, predicated⟩ :: rest) (hcond : l.cond = some cond)
    {u' : ComputeUnit}
    (hlay : ComputeUnit.layDown device (ComputeUnit.replayWith (ComputeUnit.encode device fuel))
      (u.noted mode .endWhile) (mode.getD u.log.length) cond true = .ok u') :
    ComputeUnit.encode device (fuel + 1) { u with cursor := mode } .endWhile = .ok u' := by
  have hnoted : (if ({ u with cursor := mode } : ComputeUnit).recording then
      { ({ u with cursor := mode } : ComputeUnit) with log := u.log ++ [.endWhile] }
      else { u with cursor := mode }) = u.noted mode .endWhile := by
    rw [ComputeUnit.recording_eq hu, ComputeUnit.noted]
    split_ifs <;> rfl
  have heq : ComputeUnit.endWhile device
      (ComputeUnit.replayWith (ComputeUnit.encode device fuel)) { u with cursor := mode } =
        .ok (u', true) := by
    have hs : (u.noted mode .endWhile).stack = ⟨.whileLoop l, predicated⟩ :: rest := hstack
    have he : (u.noted mode .endWhile).emptied = false := hu
    rw [ComputeUnit.endWhile]
    dsimp only
    rw [hnoted, hs]
    dsimp only
    rw [he, hcond]
    change (ComputeUnit.layDown _ _ _ (mode.getD u.log.length) cond true >>= _) = _
    rw [hlay]
    rfl
  exact congrArg (fun x => x >>= _) heq

theorem encode_endDoWhile (hu : u.emptied = false) {predicated : Bool} {rest : List Frame}
    (hstack : u.stack = ⟨.doWhile l, predicated⟩ :: rest)
    (hcond : Cond.new device c.buffer c.offset c.comparison c.reference = .ok cond)
    {u' : ComputeUnit}
    (hlay : ComputeUnit.layDown device (ComputeUnit.replayWith (ComputeUnit.encode device fuel))
      ((u.noted mode (.endDoWhile (some c.buffer) c.offset c.comparison c.reference)).test device
        .check cond) (mode.getD u.log.length) cond false = .ok u') :
    ComputeUnit.encode device (fuel + 1) { u with cursor := mode }
      (.endDoWhile (some c.buffer) c.offset c.comparison c.reference) = .ok u' := by
  have heq : ComputeUnit.endDoWhile device
      (ComputeUnit.replayWith (ComputeUnit.encode device fuel)) { u with cursor := mode }
      (some c.buffer) c.offset c.comparison c.reference = .ok (u', true) := by
    rw [ComputeUnit.endDoWhile, ComputeUnit.recording_eq hu]
    dsimp only
    split
    · rw [if_neg (by rw [hu]; exact Bool.false_ne_true), hcond]
      change (ComputeUnit.layDown _ _ ((u.noted mode _).test device .check cond) _ cond false >>= _) =
        _
      rw [hlay]
      rfl
    · rename_i hno
      exact absurd hstack (hno l predicated rest)
  exact congrArg (fun x => x >>= _) heq

theorem laidDown_pos (depth : ℕ) : laidDown depth - 1 + 1 = laidDown depth := by
  rw [laidDown]
  split_ifs <;> rfl

/-- A loop's body as the guest sends it, and what its end then finds. -/
structure LoopBody (device : Device) (sem : Semantics Mem) (fuel : ℕ) (mode : Option ℕ)
    (u : ComputeUnit) (r : Logged) (l : Loop) (frame : Frame) (body : Block) (rest : List Logged)
    (u₁ u₂ : ComputeUnit) : Prop extends
    Feeds (ComputeUnit.encode device (fuel + 1)) u.loopCount mode u (r :: body.records)
      (1 + body.loopCount) u₂ where
  sound : Sound u₂
  stack : u₂.stack = frame :: u.stack
  bindings : u₂.bindings = body.after u.bindings
  opened : u₂.loopCount = u.loopCount + 1
  guest : mode.map (· + (body.records.length + 1)) = none → u₂.cursor = none
  next : Placed (mode.map (· + (body.records.length + 1))) u₂.log rest
  logged : ∀ r', Placed (some l.body)
    (u₂.noted (mode.map (· + (body.records.length + 1))) r').log body.records
  stop : (mode.map (· + (body.records.length + 1))).getD u₂.log.length =
    l.body + body.records.length
  seg : ∃ seg, u₂.out = u₁.out ++ seg ∧
    Runs device sem u₁.stepped u₂.stepped seg
      (body.exec sem laidDown (u.loopCount + 1) u.bindings) ∧
    (frame.predicated = true → Skips device sem true true seg body.depth)

theorem Opens.loopBody {frame : Frame}
    (hopens : Opens (ComputeUnit.encode device (fuel + 1)) mode u r l frame u₁)
    (hframe : frame.isLoop = true) (hstepped : frame.predicated = true → u₁.stepped = true)
    (hbody : body.Encoded device sem) (hcursor : mode = none → u.cursor = none)
    (hplaced : Placed mode u.log (r :: (body.records ++ rs)))
    (hopen : u.loopCount + (body.loopDepth + 1) ≤ 2) (hfuel : body.loopDepth ≤ fuel)
    (hflags : mode = none → u.loops + (body.loopCount + 1) ≤ maxFlags)
    (hwithin : body.Within device frame.predicated u.bindings)
    (hpipeline : body.PipelineSet frame.predicated u.bindings)
    (hdepth : body.depth + 1 < 2 ^ 32) :
    ∃ u₂, LoopBody device sem fuel mode u r l frame body rs u₁ u₂ := by
  have hpred₁ : u₁.predicated = frame.predicated := by
    rw [ComputeUnit.predicated, hopens.stack]
  have hsound₁ : Sound u₁ :=
    ⟨hopens.emptied, hopens.bound, fun hp => hstepped (hpred₁.symm.trans hp)⟩
  have hloops₁ : u₁.loopCount = u.loopCount + 1 := by
    rw [ComputeUnit.loopCount, hopens.stack, List.filter_cons, if_pos hframe]
    rfl
  have hready : Ready device (fuel + 1) (mode.map (· + 1)) u₁ body := by
    refine hopens.ready hsound₁ hcursor hplaced (by omega) (by omega)
      (fun hmode => by have := hflags hmode; omega) ?_ ?_ (by omega)
    · rw [hpred₁, hopens.bindings]
      exact hwithin
    · rw [hpred₁, hopens.bindings]
      exact hpipeline
  obtain ⟨u₂, henc, -⟩ := hbody (fuel + 1) _ u₁ hready
  have hfeeds := hopens.toFeeds.append (henc.toFeeds.weaken (hloops₁ ▸ Nat.le_succ _))
  have hseg := henc.seg
  rw [hloops₁, hopens.bindings, hpred₁] at hseg
  exact ⟨u₂, {
    toFeeds := hfeeds
    sound := henc.sound hsound₁
    stack := henc.stack.trans hopens.stack
    bindings := by rw [henc.bindings, hopens.bindings]
    opened := (loopCount_of_stack henc.stack).trans hloops₁
    guest := fun hmode => hfeeds.cursor.trans (hcursor (map_eq_none.mp hmode))
    next := (Placed.right (_ :: body.records) hplaced).logs hfeeds.log
    logged := fun r' => (hopens.placed hframe henc.toFeeds henc.stack hplaced r').1
    stop := (hopens.placed hframe henc.toFeeds henc.stack hplaced .endIf).2
    seg := hseg }⟩

theorem encodes_whileDo (fuel : ℕ) (hbody : body.Encoded device sem) (h : Sound u)
    (hcursor : mode = none → u.cursor = none) (hc : c.Within device)
    (hplaced : Placed mode u.log
      (.cmd (.startWhile (some c.buffer) c.offset c.comparison c.reference) ::
        (body.records ++ .endWhile :: rs)))
    (hopen : u.loopCount + (body.loopDepth + 1) ≤ 2) (hfuel : body.loopDepth ≤ fuel)
    (hflags : mode = none → u.loops + (body.loopCount + 1) ≤ maxFlags)
    (hwithin : body.Within device true u.bindings) (hpipeline : body.PipelineSet true u.bindings)
    (hdepth : body.depth + 1 < 2 ^ 32) :
    ∃ u', Encodes device sem (ComputeUnit.encode device (fuel + 1)) mode u
      (.cmd (.startWhile (some c.buffer) c.offset c.comparison c.reference) ::
        body.records ++ [.endWhile]) (1 + body.loopCount) (body.depth + 1) (body.after u.bindings)
      (turnsWhile (c.holds sem)
        (fun m => body.exec sem laidDown (u.loopCount + 1) u.bindings m) (laidDown u.loopCount))
      u' ∧ u'.stepped = true := by
  obtain ⟨u₁, l, cond, hopens, hcond, hl, hstepped₁, enter, check, hout₁, henter, hmoves, hcheck⟩ :=
    opens_while sem (fuel + 1) h hcursor hc hplaced (by omega)
      (fun hmode => by have := hflags hmode; omega)
  obtain ⟨u₂, hloop⟩ := hopens.loopBody rfl (fun _ => hstepped₁) hbody hcursor hplaced hopen hfuel
    hflags hwithin hpipeline hdepth
  have htrue₂ : u₂.stepped = true := hloop.sound.stepped (by
    rw [ComputeUnit.predicated, hloop.stack])
  let w := u₂.noted (mode.map (· + (body.records.length + 1))) .endWhile
  have hlaying : Laying device fuel body l.start l.body
      { w with stack := ⟨.whileLoop l, true⟩ :: u.stack } := {
    emptied := hloop.sound.emptied
    bound := hloop.sound.bound
    stepped := htrue₂
    predicated := rfl
    placed := hloop.logged .endWhile
    opened := by
      change u.loopCount + 1 + body.loopDepth ≤ 2
      omega
    fuel := hfuel
    within := hopens.start ▸ hwithin
    pipeline := hopens.start ▸ hpipeline
    depth := hdepth
    bindings := by
      rw [hopens.start]
      exact hloop.bindings }
  obtain ⟨u₃, hlay, hlaid⟩ := layDown_spec (u := w) hbody hc hcond true (.inl rfl) hloop.stack
    hlaying hloop.stop
  have hend := encode_endWhile hloop.sound.emptied hloop.stack hl hlay
  have hlast := hlaid.feeds hloop.guest hloop.next (by simp) hend hloop.opened
    ⟨rfl, rfl, rfl, rfl, rfl⟩
  obtain ⟨seg, hout₂, hruns, hskips⟩ := hloop.seg
  obtain ⟨copies, last, hout₃, hturns, hmovesEnd⟩ := hlaid.seg
  rw [hopens.start, hopens.unroll, show w.loopCount = u.loopCount + 1 from hloop.opened] at hturns
  rw [hstepped₁, htrue₂] at hruns
  refine ⟨_, {
    toFeeds := hloop.toFeeds.append hlast
    stack := hlaid.stack
    bindings := hlaid.bindings.trans hloop.bindings
    seg := ⟨enter ++ ((check ++ (seg ++ copies)) ++ last), ?_, ?_, fun hp => ?_⟩ }, hlaid.stepped⟩
  · change u₃.out = _
    rw [hout₃]
    change u₂.out ++ _ = _
    rw [hout₂, hout₁]
    simp only [List.append_assoc]
  · have hturn := runsTo_while_turn hcheck hruns (hskips rfl) hdepth hturns
    rw [laidDown_pos] at hturn
    rw [← List.append_assoc]
    change Runs device sem u.stepped u₃.stepped _ _
    rw [hlaid.stepped]
    exact (henter.before hturn).ended hmovesEnd
  · rw [h.stepped hp] at hcheck
    refine Skips.block (hmoves hp) (fun m c hne => ?_)
      (hcheck.test_skips.append ((hskips rfl).append hturns.skips)) hmovesEnd
    rw [atEnter, nextCounter, if_pos hne]

/-- What is ready inside a block that can skip is ready outside. -/
theorem Block.Within.mono {B : Block} {b : Bindings} (h : B.Within device true b)
    (predicated : Bool) : B.Within device predicated b := by
  induction B generalizing b with
  | done => trivial
  | set s rest ih => exact ih h
  | work w rest ih => exact ⟨fun _ => h.1 rfl, ih h.2⟩
  | encoder rest ih => exact ih h
  | ifThen c body rest _ ih => exact ⟨h.1, h.2.1, ih h.2.2⟩
  | ifElse c body other rest _ _ ih => exact ⟨h.1, h.2.1, h.2.2.1, ih h.2.2.2⟩
  | whileDo c body rest _ ih => exact ⟨h.1, h.2.1, ih h.2.2⟩
  | doWhile body c rest _ ih => exact ⟨h.1, h.2.1, ih h.2.2⟩

theorem Block.PipelineSet.mono {B : Block} {b : Bindings} (h : B.PipelineSet true b)
    (predicated : Bool) : B.PipelineSet predicated b := by
  induction B generalizing b with
  | done => trivial
  | set s rest ih => exact ih h
  | work w rest ih => exact ⟨fun _ => h.1 rfl, ih h.2⟩
  | encoder rest ih => exact ih h
  | ifThen c body rest _ ih => exact ⟨h.1, ih h.2⟩
  | ifElse c body other rest _ _ ih => exact ⟨h.1, h.2.1, ih h.2.2⟩
  | whileDo c body rest _ ih => exact ⟨h.1, ih h.2⟩
  | doWhile body c rest _ ih => exact ⟨h.1, ih h.2⟩

theorem encodes_doWhile (fuel : ℕ) (hbody : body.Encoded device sem) (h : Sound u)
    (hcursor : mode = none → u.cursor = none) (hc : c.Within device)
    (hplaced : Placed mode u.log (.cmd .startDoWhile ::
        (body.records ++ .endDoWhile (some c.buffer) c.offset c.comparison c.reference :: rs)))
    (hopen : u.loopCount + (body.loopDepth + 1) ≤ 2) (hfuel : body.loopDepth ≤ fuel)
    (hflags : mode = none → u.loops + (body.loopCount + 1) ≤ maxFlags)
    (hwithin : body.Within device true u.bindings) (hpipeline : body.PipelineSet true u.bindings)
    (hdepth : body.depth + 1 < 2 ^ 32) :
    ∃ u', Encodes device sem (ComputeUnit.encode device (fuel + 1)) mode u
      (.cmd .startDoWhile :: body.records ++
        [.endDoWhile (some c.buffer) c.offset c.comparison c.reference])
      (1 + body.loopCount) (body.depth + 1) (body.after u.bindings)
      (turnsDoWhile (c.holds sem)
        (fun m => body.exec sem laidDown (u.loopCount + 1) u.bindings m) (laidDown u.loopCount))
      u' ∧ u'.stepped = true := by
  obtain ⟨cond, hcond⟩ : ∃ cond, Cond.new device c.buffer c.offset c.comparison c.reference =
    .ok cond := ⟨_, hc.cond_eq⟩
  obtain ⟨u₁, l, hopens, hstepped₁, enter, hout₁, henter, hmoves⟩ :=
    opens_doWhile device sem (fuel + 1) h hcursor hplaced (by omega)
      (fun hmode => by have := hflags hmode; omega)
  obtain ⟨u₂, hloop⟩ := hopens.loopBody rfl (fun hp => hstepped₁.trans (h.stepped hp)) hbody hcursor
    hplaced hopen hfuel hflags (hwithin.mono u.predicated) (hpipeline.mono u.predicated) hdepth
  let s : Step := { op := .check, comparison := cond.comparison, reference := cond.reference }
  let w₀ := u₂.noted (mode.map (· + (body.records.length + 1)))
    (.endDoWhile (some c.buffer) c.offset c.comparison c.reference)
  let w := w₀.test device .check cond
  have hlaying : Laying device fuel body l.start l.body
      { w with stack := ⟨.doWhile l, true⟩ :: u.stack } := {
    emptied := hloop.sound.emptied
    bound := ComputeUnit.step_bound (u := w₀) hloop.sound.bound device s _
    stepped := rfl
    predicated := rfl
    placed := hloop.logged _
    opened := by
      change u.loopCount + 1 + body.loopDepth ≤ 2
      omega
    fuel := hfuel
    within := hopens.start ▸ hwithin
    pipeline := hopens.start ▸ hpipeline
    depth := hdepth
    bindings := by
      rw [hopens.start]
      exact hloop.bindings }
  obtain ⟨u₃, hlay, hlaid⟩ := layDown_spec (u := w) hbody hc hcond false (.inr rfl) hloop.stack
    hlaying hloop.stop
  have hend := encode_endDoWhile hloop.sound.emptied hloop.stack hcond hlay
  have hlast := hlaid.feeds hloop.guest hloop.next (by simp) hend hloop.opened
    (Kept.step device w₀ s _)
  obtain ⟨seg, hout₂, hruns, hskips⟩ := hloop.seg
  obtain ⟨copies, last, hout₃, hturns, hmovesEnd⟩ := hlaid.seg
  rw [hopens.start, hopens.unroll, show w.loopCount = u.loopCount + 1 from hloop.opened] at hturns
  rw [hstepped₁] at hruns
  have hcheck : Moves sem u₂.stepped
      [stepFlat u₂.stepped u₂.steps s (some (cond.buffer, cond.word))]
      (atTest .check (c.holds sem)) := moves_test u₂.steps .check hc hcond
  refine ⟨_, {
    toFeeds := hloop.toFeeds.append hlast
    stack := hlaid.stack
    bindings := hlaid.bindings.trans hloop.bindings
    seg := ⟨enter ++ ((seg ++ ([stepFlat u₂.stepped u₂.steps s (some (cond.buffer, cond.word))] ++
      copies)) ++ last), ?_, ?_, fun hp => ?_⟩ }, hlaid.stepped⟩
  · change u₃.out = _
    rw [hout₃]
    change (u₂.out ++ [stepFlat u₂.stepped u₂.steps s (some (cond.buffer, cond.word))]) ++ _ = _
    rw [hout₂, hout₁]
    simp only [List.append_assoc]
  · have hturn := runsTo_doWhile_turn hruns hcheck hdepth hturns
    rw [laidDown_pos] at hturn
    rw [← List.append_assoc]
    change Runs device sem u.stepped u₃.stepped _ _
    rw [hlaid.stepped]
    exact (henter.before hturn).ended hmovesEnd
  · have htrue₂ : u₂.stepped = true := hloop.sound.stepped (by
      rw [ComputeUnit.predicated, hloop.stack]
      exact hp)
    rw [htrue₂] at hcheck ⊢
    refine Skips.block (hmoves hp) (fun m c hne => ?_)
      ((hskips hp).append (hcheck.test_skips.append hturns.skips)) hmovesEnd
    rw [atEnter, nextCounter, if_pos hne]

end LayDown

end ReimsVgpu.Predication
