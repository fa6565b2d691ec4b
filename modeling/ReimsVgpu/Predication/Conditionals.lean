import ReimsVgpu.Predication.Sending

/-!
# Conditional blocks, encoded

## Main results

* `encodes_ifThen`, `encodes_ifElse`: an If, its branches encoded.
-/

namespace ReimsVgpu.Predication

section Conditional

variable {Mem : Type*} (device : Device) (sem : Semantics Mem)

/-- What a record that is one step leaves: the open blocks are `stack`, and what is encoded moves
the counter as `next` does. -/
structure Marks (enc : ComputeUnit → Logged → Except Death ComputeUnit) (mode : Option ℕ)
    (u : ComputeUnit) (r : Logged) (stack : List Frame) (next : Mem → UInt32 → UInt32)
    (u' : ComputeUnit) : Prop extends Feeds enc u.loopCount mode u [r] 0 u' where
  stack : u'.stack = stack
  bindings : u'.bindings = u.bindings
  marked : u'.stepped = true
  seg : ∃ seg, u'.out = u.out ++ seg ∧ Moves sem u.stepped seg next

variable {device sem} {fuel : ℕ} {mode : Option ℕ} {u : ComputeUnit} {rs : List Logged}

theorem Marks.sound {enc : ComputeUnit → Logged → Except Death ComputeUnit} {r : Logged}
    {stack : List Frame} {next : Mem → UInt32 → UInt32} {u' : ComputeUnit}
    (h : Marks sem enc mode u r stack next u') : Sound u' :=
  ⟨h.emptied, h.bound, fun _ => h.marked⟩

theorem marks_startIf (sem : Semantics Mem) (fuel : ℕ) (h : Sound u) (hcursor : mode = none → u.cursor = none) {c : Test}
    (hwithin : c.Within device)
    (hplaced : Placed mode u.log
      (.cmd (.startIf (some c.buffer) c.offset c.comparison c.reference) :: rs)) :
    ∃ u', Marks sem (ComputeUnit.encode device fuel) mode u
      (.cmd (.startIf (some c.buffer) c.offset c.comparison c.reference))
      (⟨.ifBlock false, true⟩ :: u.stack) (atTest .startIf (c.holds sem)) u' := by
  obtain ⟨cond, hcond⟩ : ∃ cond, Cond.new device c.buffer c.offset c.comparison c.reference =
    .ok cond := ⟨_, hwithin.cond_eq⟩
  let r : Logged := .cmd (.startIf (some c.buffer) c.offset c.comparison c.reference)
  let v : ComputeUnit := { u.noted mode r with stack := ⟨.ifBlock false, true⟩ :: u.stack }
  have henc : ComputeUnit.encode device fuel { u with cursor := mode } r =
      .ok (v.test device .startIf cond) := by
    rw [encode_cmd, ComputeUnit.command, ComputeUnit.observe_eq h.emptied mode _ (by simp)]
    rw [ComputeUnit.startIf, hcond]
    change Except.ok (if u.emptied then v else v.test device .startIf cond) = _
    rw [h.emptied]
    rfl
  have hbound := ComputeUnit.step_bound (show Bound v.bindings v.foreign v.runtime from h.bound)
    device { op := .startIf, comparison := cond.comparison, reference := cond.reference }
    (some (cond.buffer, cond.word))
  exact ⟨_, {
    fed := feed_one hplaced (by simp) hcursor henc rfl
    emptied := h.emptied
    bound := hbound
    stack := rfl
    cursor := rfl
    bindings := rfl
    stepped := fun _ => rfl
    marked := rfl
    log := u.noted_logs mode r
    kept := fun _ => rfl
    flagged := fun _ => rfl
    seg := ⟨_, rfl, moves_test u.steps .startIf hwithin hcond⟩ }⟩

theorem marks_startElse (device : Device) (sem : Semantics Mem) (fuel : ℕ) (h : Sound u) (hcursor : mode = none → u.cursor = none)
    {rest : List Frame} (hstack : u.stack = ⟨.ifBlock false, true⟩ :: rest)
    (hplaced : Placed mode u.log (.cmd .startElse :: rs)) :
    ∃ u', Marks sem (ComputeUnit.encode device fuel) mode u (.cmd .startElse)
      (⟨.ifBlock true, true⟩ :: rest) atElse u' := by
  let v : ComputeUnit := { u.noted mode (.cmd .startElse) with stack := ⟨.ifBlock true, true⟩ :: rest }
  have henc : ComputeUnit.encode device fuel { u with cursor := mode } (.cmd .startElse) =
      .ok (v.step device { op := .startElse } none) := by
    rw [encode_cmd, ComputeUnit.command, ComputeUnit.observe_eq h.emptied mode _ (by simp)]
    have hnoted : (u.noted mode (.cmd .startElse)).stack = ⟨.ifBlock false, true⟩ :: rest := hstack
    rw [ComputeUnit.startElse, hnoted]
    change Except.ok (if u.emptied then v else v.step device { op := .startElse } none) = _
    rw [h.emptied]
    rfl
  have hbound := ComputeUnit.step_bound (show Bound v.bindings v.foreign v.runtime from h.bound)
    device { op := .startElse } none
  exact ⟨_, {
    fed := feed_one hplaced (by simp) hcursor henc rfl
    emptied := h.emptied
    bound := hbound
    stack := rfl
    cursor := rfl
    bindings := rfl
    stepped := fun _ => rfl
    marked := rfl
    log := u.noted_logs mode _
    kept := fun _ => rfl
    flagged := fun _ => rfl
    seg := ⟨_, rfl, moves_plain u.steps 0 fun _ _ => rfl⟩ }⟩

/-- A closed block's log, where a loop is open about it or it comes from the log. -/
theorem closed_spec (v : ComputeUnit) : v.closed.emptied = v.emptied ∧
    v.closed.bindings = v.bindings ∧ v.closed.foreign = v.foreign ∧
    v.closed.runtime = v.runtime ∧ v.closed.stack = v.stack ∧ v.closed.cursor = v.cursor ∧
    v.closed.stepped = v.stepped ∧ v.closed.loops = v.loops ∧ v.closed.out = v.out ∧
    (v.cursor ≠ none ∨ 0 < v.loopCount → v.closed.log = v.log) := by
  rw [ComputeUnit.closed]
  split_ifs with hclosed
  · refine ⟨rfl, rfl, rfl, rfl, rfl, rfl, rfl, rfl, rfl, fun hopen => ?_⟩
    rw [Bool.and_eq_true, Option.isNone_iff_eq_none, beq_iff_eq] at hclosed
    rcases hopen with hcursor | hloops
    · exact absurd hclosed.1 hcursor
    · omega
  · exact ⟨rfl, rfl, rfl, rfl, rfl, rfl, rfl, rfl, rfl, fun _ => rfl⟩

theorem marks_endIf (device : Device) (sem : Semantics Mem) (fuel : ℕ) (h : Sound u) (hcursor : mode = none → u.cursor = none)
    {rest : List Frame} {orelse predicated : Bool}
    (hstack : u.stack = ⟨.ifBlock orelse, predicated⟩ :: rest)
    (hplaced : Placed mode u.log (.endIf :: rs)) :
    ∃ u', Marks sem (ComputeUnit.encode device fuel) mode u .endIf rest atEnd u' := by
  let v : ComputeUnit := { u.noted mode .endIf with stack := rest }
  let w : ComputeUnit := v.step device { op := .endBlock } none
  have hnoted : (if ({ u with cursor := mode } : ComputeUnit).recording then
      { ({ u with cursor := mode } : ComputeUnit) with log := u.log ++ [.endIf] }
      else { u with cursor := mode }) = u.noted mode .endIf := by
    rw [ComputeUnit.recording_eq h.emptied, ComputeUnit.noted]
    split_ifs <;> rfl
  have henc : ComputeUnit.encode device fuel { u with cursor := mode } .endIf = .ok w.closed := by
    have heq : ComputeUnit.endIf device { u with cursor := mode } = .ok (w.closed, true) := by
      rw [ComputeUnit.endIf]
      dsimp only
      rw [hnoted]
      have hs : (u.noted mode .endIf).stack = ⟨.ifBlock orelse, predicated⟩ :: rest := hstack
      rw [hs]
      change Except.ok ((if u.emptied then v else w).closed, true) = _
      rw [h.emptied]
      rfl
    cases fuel with
    | zero => exact congrArg (fun x => x >>= _) heq
    | succ fuel => exact congrArg (fun x => x >>= _) heq
  have hbound := ComputeUnit.step_bound (show Bound v.bindings v.foreign v.runtime from h.bound)
    device { op := .endBlock } none
  have hloops : v.loopCount = u.loopCount := by
    rw [ComputeUnit.loopCount, ComputeUnit.loopCount, hstack]
    rfl
  obtain ⟨hemptied, hbindings, hforeign, hruntime, hst, hcur, hstepped, hl, hout, hlog⟩ :=
    closed_spec w
  refine ⟨_, {
    fed := feed_one hplaced (by simp) hcursor henc hcur
    emptied := hemptied.trans h.emptied
    bound := ?_
    stack := hst
    cursor := rfl
    bindings := hbindings
    stepped := fun _ => hstepped
    marked := hstepped
    log := ?_
    kept := fun _ => hl
    flagged := fun _ => hl
    seg := ⟨_, hout, moves_plain u.steps 0 fun _ _ => rfl⟩ }⟩
  · change Bound w.closed.bindings w.closed.foreign w.closed.runtime
    rw [hbindings, hforeign, hruntime]
    exact hbound
  · change Logs mode u.loopCount u.log [.endIf] w.closed.log
    have hnoted := u.noted_logs mode .endIf
    refine ⟨fun hmode => ?_, fun hmode hopen => ?_⟩
    · rw [hlog (.inl hmode)]
      exact hnoted.1 hmode
    · rw [hlog (.inr (hloops.symm ▸ hopen))]
      exact hnoted.2 hmode hopen

/-- What a branch of an If leaves: its step, and its body. -/
structure Branch (device : Device) (sem : Semantics Mem)
    (enc : ComputeUnit → Logged → Except Death ComputeUnit) (mode : Option ℕ) (u : ComputeUnit)
    (records : List Logged) (loops levels : ℕ) (stack : List Frame)
    (next : Mem → UInt32 → UInt32) (after : Bindings) (run : Mem → Option (Mem × List Done))
    (u' : ComputeUnit) : Prop extends Feeds enc u.loopCount mode u records loops u' where
  stack : u'.stack = stack
  bindings : u'.bindings = after
  marked : u'.stepped = true
  seg : ∃ first seg, u'.out = u.out ++ (first ++ seg) ∧ Moves sem u.stepped first next ∧
    Runs device sem true true seg run ∧ Skips device sem true true seg levels

theorem Branch.sound {enc : ComputeUnit → Logged → Except Death ComputeUnit}
    {records : List Logged} {loops levels : ℕ} {stack : List Frame}
    {next : Mem → UInt32 → UInt32} {after : Bindings} {run : Mem → Option (Mem × List Done)}
    {u' : ComputeUnit}
    (h : Branch device sem enc mode u records loops levels stack next after run u') : Sound u' :=
  ⟨h.emptied, h.bound, fun _ => h.marked⟩

theorem Marks.branch {r : Logged} {orelse : Bool} {rest : List Frame}
    {next : Mem → UInt32 → UInt32} {u₁ : ComputeUnit} {body : Block}
    (hmark : Marks sem (ComputeUnit.encode device fuel) mode u r
      (⟨.ifBlock orelse, true⟩ :: rest) next u₁)
    (hrest : (rest.filter Frame.isLoop).length = u.loopCount) (hbody : body.Encoded device sem)
    (hcursor : mode = none → u.cursor = none)
    (hplaced : Placed mode u.log (r :: (body.records ++ rs)))
    (hopen : u.loopCount + body.loopDepth ≤ 2) (hfuel : body.loopDepth ≤ fuel)
    (hflags : mode = none → u.loops + body.loopCount ≤ maxFlags)
    (hwithin : body.Within device true u.bindings) (hpipeline : body.PipelineSet true u.bindings)
    (hdepth : body.depth < 2 ^ 32) :
    ∃ u', Branch device sem (ComputeUnit.encode device fuel) mode u (r :: body.records)
      body.loopCount body.depth (⟨.ifBlock orelse, true⟩ :: rest) next (body.after u.bindings)
      (body.exec sem laidDown u.loopCount u.bindings) u' := by
  have hpred : u₁.predicated = true := by
    rw [ComputeUnit.predicated, hmark.stack]
  have hloops : u₁.loopCount = u.loopCount := by
    rw [ComputeUnit.loopCount, hmark.stack]
    exact hrest
  have hready : Ready device fuel (mode.map (· + 1)) u₁ body := by
    refine hmark.ready hmark.sound hcursor hplaced (hloops ▸ hopen) hfuel ?_ ?_ ?_ hdepth
    · rw [Nat.zero_add]
      exact hflags
    · rw [hpred, hmark.bindings]
      exact hwithin
    · rw [hpred, hmark.bindings]
      exact hpipeline
  obtain ⟨u₂, henc, -⟩ := hbody fuel _ u₁ hready
  refine ⟨u₂, {
    toFeeds := ?_
    stack := henc.stack.trans hmark.stack
    bindings := by rw [henc.bindings, hmark.bindings]
    marked := henc.stepped hmark.marked
    seg := ?_ }⟩
  · have hmiddle := henc.toFeeds
    rw [hloops] at hmiddle
    have hall := hmark.toFeeds.append hmiddle
    rw [Nat.zero_add] at hall
    exact hall
  · obtain ⟨first, hout₁, hmoves⟩ := hmark.seg
    obtain ⟨seg, hout₂, hruns, hskips⟩ := henc.seg
    rw [hmark.marked, henc.stepped hmark.marked, hloops, hmark.bindings] at hruns
    refine ⟨first, seg, ?_, hmoves, hruns, hskips hpred⟩
    rw [hout₂, hout₁, List.append_assoc]

theorem encodes_ifThen (fuel : ℕ) {body : Block} (hbody : body.Encoded device sem) (h : Sound u)
    (hcursor : mode = none → u.cursor = none) {c : Test} (hc : c.Within device)
    (hplaced : Placed mode u.log
      (.cmd (.startIf (some c.buffer) c.offset c.comparison c.reference) ::
        (body.records ++ .endIf :: rs)))
    (hopen : u.loopCount + body.loopDepth ≤ 2) (hfuel : body.loopDepth ≤ fuel)
    (hflags : mode = none → u.loops + body.loopCount ≤ maxFlags)
    (hwithin : body.Within device true u.bindings) (hpipeline : body.PipelineSet true u.bindings)
    (hdepth : body.depth + 1 < 2 ^ 32) :
    ∃ u', Encodes device sem (ComputeUnit.encode device fuel) mode u
      (.cmd (.startIf (some c.buffer) c.offset c.comparison c.reference) ::
        body.records ++ [.endIf]) body.loopCount (body.depth + 1) (body.after u.bindings)
      (fun m => if c.holds sem m then body.exec sem laidDown u.loopCount u.bindings m
        else some (m, [])) u' ∧ u'.stepped = true := by
  obtain ⟨u₀, hstart⟩ := marks_startIf sem fuel h hcursor hc hplaced
  obtain ⟨u₁, hbranch⟩ := hstart.branch rfl hbody hcursor hplaced hopen hfuel hflags hwithin
    hpipeline (by omega)
  have hplaced₁ := (Placed.right (_ :: body.records) hplaced).logs hbranch.log
  obtain ⟨u₂, hend⟩ := marks_endIf device sem fuel hbranch.sound
    (fun hmode => hbranch.cursor.trans (hcursor (map_eq_none.mp hmode))) hbranch.stack hplaced₁
  have hloops : u₁.loopCount = u.loopCount := by
    rw [ComputeUnit.loopCount, hbranch.stack]
    rfl
  refine ⟨u₂, {
    toFeeds := ?_
    stack := hend.stack
    bindings := hend.bindings.trans hbranch.bindings
    seg := ?_ }, hend.marked⟩
  · have hlast := hend.toFeeds
    rw [hloops] at hlast
    exact hbranch.toFeeds.append hlast
  · obtain ⟨first, seg, hout₁, hmoves₁, hruns, hskips⟩ := hbranch.seg
    obtain ⟨last, hout₂, hmoves₂⟩ := hend.seg
    rw [hbranch.marked] at hmoves₂
    refine ⟨first ++ (seg ++ last), ?_, ?_, fun hp => ?_⟩
    · rw [hout₂, hout₁]
      simp only [List.append_assoc]
    · rw [hend.marked]
      exact runs_ifThen hmoves₁ hruns hskips hdepth hmoves₂
    · rw [h.stepped hp] at hmoves₁
      refine Skips.block hmoves₁ (fun m c hne => ?_) hskips hmoves₂
      rw [atTest, nextCounter, if_pos hne]

theorem encodes_ifElse (fuel : ℕ) {body other : Block} (hbody : body.Encoded device sem)
    (hother : other.Encoded device sem) (h : Sound u)
    (hcursor : mode = none → u.cursor = none) {c : Test} (hc : c.Within device)
    (hplaced : Placed mode u.log
      (.cmd (.startIf (some c.buffer) c.offset c.comparison c.reference) ::
        (body.records ++ .cmd .startElse :: (other.records ++ .endIf :: rs))))
    (hopen : u.loopCount + max body.loopDepth other.loopDepth ≤ 2)
    (hfuel : max body.loopDepth other.loopDepth ≤ fuel)
    (hflags : mode = none → u.loops + (body.loopCount + other.loopCount) ≤ maxFlags)
    (hwithin : body.Within device true u.bindings) (hpipeline : body.PipelineSet true u.bindings)
    (hwithin' : other.Within device true (body.after u.bindings))
    (hpipeline' : other.PipelineSet true (body.after u.bindings))
    (hdepth : max body.depth other.depth + 1 < 2 ^ 32) :
    ∃ u', Encodes device sem (ComputeUnit.encode device fuel) mode u
      (.cmd (.startIf (some c.buffer) c.offset c.comparison c.reference) ::
        body.records ++ (.cmd .startElse :: other.records ++ [.endIf]))
      (body.loopCount + other.loopCount) (max body.depth other.depth + 1)
      (other.after (body.after u.bindings))
      (fun m => if c.holds sem m then body.exec sem laidDown u.loopCount u.bindings m
        else other.exec sem laidDown u.loopCount (body.after u.bindings) m) u' ∧
      u'.stepped = true := by
  obtain ⟨u₀, hstart⟩ := marks_startIf sem fuel h hcursor hc hplaced
  obtain ⟨u₁, hbranch⟩ := hstart.branch rfl hbody hcursor hplaced (by omega) (by omega)
    (fun hmode => by have := hflags hmode; omega) hwithin hpipeline (by omega)
  have hloops₁ : u₁.loopCount = u.loopCount := by
    rw [ComputeUnit.loopCount, hbranch.stack]
    rfl
  have hplaced₁ := (Placed.right (_ :: body.records) hplaced).logs hbranch.log
  have hcursor₁ : mode.map (· + (body.records.length + 1)) = none → u₁.cursor = none :=
    fun hmode => hbranch.cursor.trans (hcursor (map_eq_none.mp hmode))
  obtain ⟨u₂, helse⟩ := marks_startElse device sem fuel hbranch.sound hcursor₁ hbranch.stack hplaced₁
  obtain ⟨u₃, hbranch'⟩ := helse.branch hloops₁.symm hother hcursor₁ hplaced₁
    (by rw [hloops₁]; omega) (by omega)
    (fun hmode => by
      have hmode := map_eq_none.mp hmode
      have := hflags hmode
      rw [hbranch.flagged hmode]
      omega)
    (by rw [hbranch.bindings]; exact hwithin') (by rw [hbranch.bindings]; exact hpipeline')
    (by omega)
  have hplaced₃ := (Placed.right (_ :: other.records) hplaced₁).logs hbranch'.log
  obtain ⟨u₄, hend⟩ := marks_endIf device sem fuel hbranch'.sound
    (fun hmode => hbranch'.cursor.trans (hcursor₁ (map_eq_none.mp hmode))) hbranch'.stack hplaced₃
  have hloops₃ : u₃.loopCount = u.loopCount := by
    rw [ComputeUnit.loopCount, hbranch'.stack]
    rfl
  refine ⟨u₄, {
    toFeeds := ?_
    stack := hend.stack
    bindings := by rw [hend.bindings, hbranch'.bindings, hbranch.bindings]
    seg := ?_ }, hend.marked⟩
  · have hlast := hend.toFeeds
    rw [hloops₃] at hlast
    have hmiddle := hbranch'.toFeeds
    rw [hloops₁] at hmiddle
    exact hbranch.toFeeds.append (hmiddle.append hlast)
  · obtain ⟨first, seg, hout₁, hmoves₁, hruns, hskips⟩ := hbranch.seg
    obtain ⟨middle, seg', hout₂, hmoves₂, hruns', hskips'⟩ := hbranch'.seg
    obtain ⟨last, hout₃, hmoves₃⟩ := hend.seg
    rw [hbranch.marked] at hmoves₂
    rw [hbranch'.marked] at hmoves₃
    rw [hloops₁, hbranch.bindings] at hruns'
    refine ⟨first ++ (seg ++ (middle ++ (seg' ++ last))), ?_, ?_, fun hp => ?_⟩
    · rw [hout₃, hout₂, hout₁]
      simp only [List.append_assoc]
    · rw [hend.marked]
      exact runs_ifElse hmoves₁ hruns hskips hmoves₂ hruns' hskips' (by omega) (by omega) hmoves₃
    · rw [h.stepped hp] at hmoves₁
      exact Skips.ifElse hmoves₁ hskips hmoves₂ hskips' hmoves₃

end Conditional

end ReimsVgpu.Predication
