import ReimsVgpu.Gpu.IcbBlits

/-!
# The getters of indirect commands answer Metal's values

The platform's beliefs about the kept values hold of an execution's reference sides but for the
blits in flight, those its GPU came to whose command buffers have not landed them. Each blit of a
command buffer that may run is kept by the buffers it reaches, so an access that does not race
reaches no command a blit in flight touches.

## Main definitions

* `World.Registered`: a change's blits are kept by the buffers it reaches.
* `Sound`: what holds of the platform and the reference sides in every state of an execution.

## Main results

* `Sound.step`: every event keeps it.
* `sound_of_execution`, `getter_answers_reference`.
-/

namespace ReimsVgpu.Gpu.Icb

variable {β : Type} [DecidableEq β]

/-! ### A blit's landing -/

namespace Change

variable {k : Change β} {sides : β → Sides}

/-- The commands a change reaches have an index. -/
def Fits : Change β → Prop
  | .copy _ commands _ into => commands.stop ≤ 2 ^ 32 ∧ into + commands.count ≤ 2 ^ 32
  | .reset _ commands | .overrun _ commands => commands.stop ≤ 2 ^ 32

/-- A blit that completed moves the beliefs as it moved the values. -/
theorem belief_lands (h : k.Fits) (a : β × ℕ) :
    (k.lands sides a.1).belief a.2 =
      k.transfer.moved (Belief.sure Getter.fresh) (fun a => (sides a.1).belief a.2) a := by
  obtain ⟨b, j⟩ := a
  cases k with
  | copy source commands destination into =>
    by_cases hb : b = destination
    · subst hb
      simp only [lands, Function.update_self, Transfer.moved, transfer, true_and,
        Sides.belief_take _ _ h.1 h.2]
      split_ifs <;> rfl
    · simp only [lands, Function.update_of_ne hb, Transfer.moved, transfer, hb, false_and,
        if_false]
  | reset buffer commands =>
    by_cases hb : b = buffer
    · subst hb
      simp only [lands, Function.update_self, Transfer.moved, transfer, true_and,
        Sides.belief_clear _ h]
      split_ifs <;> rfl
    · simp only [lands, Function.update_of_ne hb, Transfer.moved, transfer, hb, false_and,
        if_false]
  | overrun buffer commands =>
    by_cases hb : b = buffer
    · subst hb
      simp only [lands, Function.update_self, Transfer.moved, transfer, Sides.belief_corrupt _ h]
    · simp only [lands, Function.update_of_ne hb, Transfer.moved, transfer]

/-- A blit of a failed command buffer leaves unknown what it would tell apart. -/
theorem belief_fails (h : k.Fits) (a : β × ℕ) :
    (k.fails sides a.1).belief a.2 = ((sides a.1).belief a.2).mayBe
      (k.transfer.moved (Belief.sure Getter.fresh) (fun a => (sides a.1).belief a.2) a) := by
  obtain ⟨b, j⟩ := a
  cases k with
  | copy source commands destination into =>
    by_cases hb : b = destination
    · subst hb
      simp only [fails, Function.update_self, Transfer.moved, transfer, true_and,
        Sides.belief_unsettle _ _ h.1 h.2]
      split_ifs
      · rfl
      · exact Belief.mayBe_self.symm
    · simp only [fails, Function.update_of_ne hb, Transfer.moved, transfer, hb, false_and,
        if_false, Belief.mayBe_self]
  | reset buffer commands =>
    by_cases hb : b = buffer
    · subst hb
      simp only [fails, Function.update_self, Transfer.moved, transfer, true_and,
        Sides.belief_mayClear _ h]
      split_ifs
      · rfl
      · exact Belief.mayBe_self.symm
    · simp only [fails, Function.update_of_ne hb, Transfer.moved, transfer, hb, false_and,
        if_false, Belief.mayBe_self]
  | overrun buffer commands =>
    by_cases hb : b = buffer
    · subst hb
      simp only [fails, Function.update_self, Transfer.moved, transfer,
        Sides.belief_corrupt _ h, Belief.mayBe_self]
    · simp only [fails, Function.update_of_ne hb, Transfer.moved, transfer, Belief.mayBe_self]

theorem blits_lands (k : Change β) (sides : β → Sides) (b : β) :
    (k.lands sides b).blits = (sides b).blits := by
  have hupdate (b' : β) (s : Sides) (hs : s.blits = (sides b').blits) :
      (Function.update sides b' s b).blits = (sides b).blits := by
    by_cases hb : b = b'
    · rw [hb, Function.update_self, hs]
    · rw [Function.update_of_ne hb]
  cases k with
  | copy source commands destination into => exact hupdate _ _ (Sides.blits_take _ _ _)
  | reset buffer commands =>
    exact hupdate _ _ (Sides.blits_each _ fun s i => s.blits_put i none)
  | overrun buffer commands =>
    exact hupdate _ _ (Sides.blits_each _ fun s i => s.blits_put i _)

theorem blits_fails (k : Change β) (sides : β → Sides) (b : β) :
    (k.fails sides b).blits = (sides b).blits := by
  have hupdate (b' : β) (s : Sides) (hs : s.blits = (sides b').blits) :
      (Function.update sides b' s b).blits = (sides b).blits := by
    by_cases hb : b = b'
    · rw [hb, Function.update_self, hs]
    · rw [Function.update_of_ne hb]
  cases k with
  | copy source commands destination into => exact hupdate _ _ (Sides.blits_unsettle _ _ _)
  | reset buffer commands =>
    exact hupdate _ _ (Sides.blits_each _ fun s i => s.blits_mayBe i none)
  | overrun buffer commands =>
    exact hupdate _ _ (Sides.blits_each _ fun s i => s.blits_put i _)

end Change

/-! ### The blits kept -/

namespace World

variable {w w' : World β} {m m' : Metal β} {c : ℕ} {k : Change β}

/-- A buffer keeps a command buffer's blit of some commands, which writes them where it says so. -/
def Keeps (w : World β) (b : β) (c : ℕ) (commands : Indices) (writes : Bool) : Prop :=
  ∃ blit ∈ (w.sides b).blits,
    blit.progress = c ∧ blit.commands = commands ∧ (writes = true → blit.writes = true)

/-- The blits of a change are kept by the buffers it reaches. -/
def Registered (w : World β) (c : ℕ) : Change β → Prop
  | .copy source commands destination into =>
    w.Keeps source c commands false ∧ w.Keeps destination c (.ofCount into commands.count) true
  | .reset buffer commands => w.Keeps buffer c commands true
  | .overrun _ _ => True

omit [DecidableEq β] in
theorem Keeps.of_blits {b : β} {commands : Indices} {writes : Bool}
    (h : w.Keeps b c commands writes)
    (hblits : ∀ blit ∈ (w.sides b).blits, blit.progress = c → blit ∈ (w'.sides b).blits) :
    w'.Keeps b c commands writes := by
  obtain ⟨blit, hmem, hc, hrest⟩ := h
  exact ⟨blit, hblits blit hmem hc, hc, hrest⟩

theorem Registered.of_blits (h : w.Registered c k)
    (hblits : ∀ b, ∀ blit ∈ (w.sides b).blits, blit.progress = c → blit ∈ (w'.sides b).blits) :
    w'.Registered c k := by
  cases k with
  | copy source commands destination into =>
    exact ⟨h.1.of_blits (hblits source), h.2.of_blits (hblits destination)⟩
  | reset buffer commands => exact Keeps.of_blits h (hblits buffer)
  | overrun buffer commands => trivial

/-- A change of a committed command buffer keeps a command that no committed blit writes. -/
theorem Registered.kept (h : w.Registered c k) (hc : w.stage c = .committed) {b : β} {j : ℕ}
    (hb : ∀ blit ∈ (w.sides b).blits, w.stage blit.progress = .committed →
      j ∈ blit.commands → blit.writes = false) :
    k.transfer (b, j) = .kept := by
  have hno {commands : Indices} (hk : w.Keeps b c commands true) : j ∉ commands := by
    rintro hj
    obtain ⟨blit, hmem, rfl, rfl, hwrites⟩ := hk
    exact absurd ((hb blit hmem hc hj).symm.trans (hwrites rfl)) nofun
  cases k with
  | copy source commands destination into =>
    refine if_neg ?_
    rintro ⟨rfl, hj⟩
    exact hno h.2 hj
  | reset buffer commands =>
    refine if_neg ?_
    rintro ⟨rfl, hj⟩
    exact hno h hj
  | overrun buffer commands => rfl

/-- A change of a committed command buffer spares a command that no committed blit reaches. -/
theorem Registered.spares (h : w.Registered c k) (hc : w.stage c = .committed) {b : β} {j : ℕ}
    (hb : ∀ blit ∈ (w.sides b).blits, w.stage blit.progress = .committed → j ∉ blit.commands) :
    k.transfer.Spares (b, j) := by
  refine ⟨h.kept hc fun blit hmem hstage hj => absurd hj (hb blit hmem hstage), fun a ha => ?_⟩
  cases k with
  | copy source commands destination into =>
    obtain ⟨b', j'⟩ := a
    rw [Change.transfer] at ha
    split_ifs at ha with hreached
    injection ha with ha
    injection ha with hsource hj
    obtain ⟨blit, hmem, rfl, hcommands, -⟩ := h.1
    subst hsource
    refine hb blit hmem hc ?_
    have hle := commands.le
    have hlt := hreached.2.2
    rw [Indices.count] at hlt
    rw [hcommands]
    exact ⟨by omega, by omega⟩
  | reset buffer commands =>
    obtain ⟨b', j'⟩ := a
    rw [Change.transfer] at ha
    split_ifs at ha
  | overrun buffer commands => cases ha

end World

/-! ### The invariant -/

/-- What holds of the platform and an execution's reference sides. The platform's beliefs hold of
them but for the blits in flight. A completed command buffer's blits all ran. -/
structure Sound (w : World β) (m : Metal β) : Prop where
  agrees : Agrees Getter.fresh w.belief m.answers (w.work.map Change.transfer) m.ahead
  ahead : m.ahead.length ≤ w.work.length
  nodup : w.committed.Nodup
  committed : ∀ c ∈ w.committed, w.stage c = .committed
  ending : ∀ e, w.ending = some e → w.stage e.of = .committed ∧ e.of ∉ w.committed ∧
    (w.progress e.of).changes = []
  decided : ∀ e, w.ending = some e → e.left.length ≤ m.ahead.length ∧
    (e.failed = false → m.ahead.take e.left.length = List.replicate e.left.length true)
  changes : ∀ c, (w.stage c).running = true → ∀ k ∈ (w.progress c).changes,
    k.Fits ∧ w.Registered c k
  left : ∀ e, w.ending = some e → ∀ k ∈ e.left, k.Fits ∧ w.Registered e.of k

namespace Sound

variable {made : β → Made} {w w' : World β} {m m' : Metal β}

theorem init : Sound (β := β) {} {} where
  agrees := by
    have hfresh (a : β × ℕ) : (({} : World β).belief a) = Belief.sure Getter.fresh :=
      CommandSide.belief_default
    exact ⟨fun _ => Getter.fresh, fun a => by rw [hfresh a]; exact Belief.holds_sure, rfl⟩
  ahead := le_rfl
  nodup := .nil
  committed := nofun
  ending := nofun
  decided := nofun
  changes := nofun
  left := nofun

/-- A blit at work is of a command buffer committed and not ended, and is kept. -/
theorem of_mem_work (h : Sound w m) {k : Change β} (hk : k ∈ w.work) :
    ∃ c, w.stage c = .committed ∧ w.Registered c k := by
  rw [World.work, List.mem_append, List.mem_flatMap] at hk
  rcases hk with hk | ⟨c, hc, hk⟩
  · cases he : w.ending with
    | none => rw [he] at hk; cases hk
    | some e =>
      rw [he] at hk
      exact ⟨e.of, (h.ending e he).1, (h.left e he k hk).2⟩
  · have hstage := h.committed c hc
    exact ⟨c, hstage, (h.changes c (by rw [hstage]; rfl) k hk).2⟩

/-- What each change at work does, every transfer at work does. -/
theorem forall_transfer {P : Transfer (β × ℕ) → Prop} (h : ∀ k ∈ w.work, P k.transfer) :
    ∀ t ∈ w.work.map Change.transfer, P t := by
  intro t ht
  obtain ⟨k, hk, rfl⟩ := List.mem_map.mp ht
  exact h k hk

/-- A value a getter answers is the reference side's. -/
theorem getValue (h : Sound w m) {b : β} {j : ℕ} {g : Getter} {v : g.Value} {s : Sides}
    (hv : (w.sides b).getValue w.stage j g = .ok (v, s)) : v = m.answers (b, j) g := by
  obtain ⟨hraces, hknown, rfl, -⟩ := Sides.getValue_spec _ hv
  have hkept : ∀ t ∈ w.work.map Change.transfer, t (b, j) = .kept := by
    refine forall_transfer (P := fun t => t (b, j) = .kept) fun k hk => ?_
    obtain ⟨c, hc, hk⟩ := h.of_mem_work hk
    exact hk.kept hc hraces
  exact h.agrees.read hkept (k := g) fun hu => absurd (hknown.symm.trans hu) nofun

/-- What leaves the work alone, and the blits kept of the command buffers that may run. -/
theorem frame (h : Sound w m)
    (hagrees : Agrees Getter.fresh w'.belief m'.answers (w.work.map Change.transfer) m.ahead)
    (hahead : m'.ahead = m.ahead) (hcommitted : w'.committed = w.committed)
    (hending : w'.ending = w.ending)
    (hstage : ∀ c, w.stage c = .committed → w'.progress c = w.progress c)
    (hrunning : ∀ c, (w'.stage c).running = true → (w.stage c).running = true ∧
      ∀ k ∈ (w'.progress c).changes,
        k ∈ (w.progress c).changes ∨ k.Fits ∧ w'.Registered c k)
    (hblits : ∀ b, ∀ blit ∈ (w.sides b).blits, (w.stage blit.progress).running = true →
      blit ∈ (w'.sides b).blits) : Sound w' m' := by
  have hregistered {c : ℕ} {k : Change β} (hc : (w.stage c).running = true)
      (hk : w.Registered c k) : w'.Registered c k :=
    hk.of_blits fun b blit hmem hprogress => hblits b blit hmem (by rw [hprogress]; exact hc)
  have hkept {c : ℕ} (hc : w.stage c = .committed) : w'.stage c = .committed := by
    rw [World.stage, hstage c hc]
    exact hc
  have hwork : w'.work = w.work := by
    rw [World.work, World.work, hending, hcommitted]
    refine congrArg _ (List.flatMap_congr fun c hc => ?_)
    rw [hstage c (h.committed c hc)]
  refine ⟨?_, ?_, hcommitted ▸ h.nodup, fun c hc => ?_, fun e he => ?_, fun e he => ?_,
    fun c hc k hk => ?_, fun e he k hk => ?_⟩
  · rw [hwork, hahead]
    exact hagrees
  · rw [hwork, hahead]
    exact h.ahead
  · exact hkept (h.committed c (hcommitted ▸ hc))
  · obtain ⟨hc, hnot, hnil⟩ := h.ending e (hending ▸ he)
    exact ⟨hkept hc, hcommitted ▸ hnot, by rw [hstage _ hc, hnil]⟩
  · rw [hahead]
    exact h.decided e (hending ▸ he)
  · obtain ⟨hc', hchanges⟩ := hrunning c hc
    rcases hchanges k hk with hold | hnew
    · obtain ⟨hfits, hk⟩ := h.changes c hc' k hold
      exact ⟨hfits, hregistered hc' hk⟩
    · exact hnew
  · obtain ⟨hfits, hk⟩ := h.left e (hending ▸ he) k hk
    exact ⟨hfits, hregistered (by rw [(h.ending e (hending ▸ he)).1]; rfl) hk⟩

/-! ### Accesses and encoding -/

/-- One buffer's sides set, its beliefs changed at one command at most. -/
theorem belief_setSides {b : β} {s : Sides} {j : ℕ} {x : Belief Getter.Value}
    (hs : s.belief = Function.update (w.sides b).belief j x) :
    (w.setSides b s).belief = Function.update w.belief (b, j) x := by
  funext ⟨b', j'⟩
  by_cases hb : b' = b
  · subst hb
    have hset : (w.setSides b' s).belief (b', j') = s.belief j' := by
      rw [World.belief, World.sides_setSides_self]
    rw [hset, hs]
    by_cases hj : j' = j
    · rw [hj, Function.update_self, Function.update_self]
    · rw [Function.update_of_ne hj, Function.update_of_ne fun h => hj (congrArg Prod.snd h)]
      rfl
  · rw [Function.update_of_ne fun h => hb (congrArg Prod.fst h), World.belief,
      World.sides_setSides_of_ne w hb]
    rfl

theorem belief_setSides_same {b : β} {s : Sides} (hs : s.belief = (w.sides b).belief) :
    (w.setSides b s).belief = w.belief := by
  rw [belief_setSides (j := 0) (x := (w.sides b).belief 0) (by rw [hs, Function.update_eq_self])]
  exact Function.update_eq_self (b, 0) w.belief

/-- A buffer's sides set, with the blits of the command buffers that may run. -/
theorem mem_setSides {b : β} {s : Sides}
    (hs : ∀ blit ∈ (w.sides b).blits, (w.stage blit.progress).running = true → blit ∈ s.blits)
    {b' : β} {blit : Blit} (hmem : blit ∈ (w.sides b').blits)
    (hrunning : (w.stage blit.progress).running = true) :
    blit ∈ ((w.setSides b s).sides b').blits := by
  by_cases hb : b' = b
  · subst hb
    rw [World.sides_setSides_self]
    exact hs blit hmem hrunning
  · rw [World.sides_setSides_of_ne w hb]
    exact hmem

theorem set (h : Sound w m) {b : β} {j : ℕ} {setter : Setter} {s : Sides}
    (hset : (w.sides b).setValue w.stage j setter = .ok s) :
    Sound (w.setSides b s) (m.set (b, j) setter) := by
  obtain ⟨hraces, hs⟩ := Sides.setValue_spec _ hset
  have hspares : ∀ t ∈ w.work.map Change.transfer, t.Spares (b, j) := by
    refine forall_transfer (P := fun t => t.Spares (b, j)) fun k hk => ?_
    obtain ⟨c, hc, hk⟩ := h.of_mem_work hk
    exact hk.spares hc hraces
  refine h.frame ?_ rfl rfl rfl (fun _ _ => rfl) (fun c hc => ⟨hc, fun k hk => .inl hk⟩)
    fun b' blit hmem hrunning => mem_setSides (fun blit hmem hrunning => ?_) hmem hrunning
  · rw [belief_setSides (Sides.belief_setValue _ hset)]
    exact h.agrees.write hspares setter.sets
  · rw [hs, Sides.blits_put]
    exact (Sides.mem_retain _).mpr ⟨hmem, hrunning⟩

theorem get (h : Sound w m) {b : β} {j : ℕ} {g : Getter} {v : g.Value} {s : Sides}
    (hget : (w.sides b).getValue w.stage j g = .ok (v, s)) : Sound (w.setSides b s) m := by
  obtain ⟨-, -, -, hs⟩ := Sides.getValue_spec _ hget
  refine h.frame ?_ rfl rfl rfl (fun _ _ => rfl) (fun c hc => ⟨hc, fun k hk => .inl hk⟩)
    fun b' blit hmem hrunning => mem_setSides (fun blit hmem hrunning => ?_) hmem hrunning
  · rw [belief_setSides_same (Sides.belief_getValue _ hget)]
    exact h.agrees
  · rw [hs, Sides.blits_put]
    exact (Sides.mem_retain _).mpr ⟨hmem, hrunning⟩

theorem blit (h : Sound w m) (c : ℕ) (b : β) (commands : Indices) (writes corrupts : Bool) :
    Sound (w.blit c b commands writes corrupts) m := by
  refine h.frame ?_ rfl rfl rfl (fun _ _ => rfl) (fun c hc => ⟨hc, fun k hk => .inl hk⟩)
    fun b' blit hmem hrunning => mem_setSides (fun blit hmem hrunning => ?_) hmem hrunning
  · rw [World.blit, belief_setSides_same (by rfl)]
    exact h.agrees
  · exact List.mem_append_left _ ((Sides.mem_retain _).mpr ⟨hmem, hrunning⟩)

theorem keeps_blit (w : World β) (c : ℕ) (b : β) (commands : Indices) (writes corrupts : Bool) :
    (w.blit c b commands writes corrupts).Keeps b c commands writes := by
  refine ⟨{ progress := c, commands, writes, corrupts }, ?_, rfl, rfl, id⟩
  rw [World.blit, World.sides_setSides_self]
  exact List.mem_append_right _ List.mem_cons_self

theorem keeps_of_blit {c : ℕ} (hc : (w.stage c).running = true) {b' : β} {commands' : Indices}
    {writes' : Bool} (h : w.Keeps b' c commands' writes') (b : β) (commands : Indices)
    (writes corrupts : Bool) :
    (w.blit c b commands writes corrupts).Keeps b' c commands' writes' := by
  refine h.of_blits fun blit hmem hprogress => mem_setSides (fun blit hmem hrunning => ?_) hmem
    (by rw [hprogress]; exact hc)
  exact List.mem_append_left _ ((Sides.mem_retain _).mpr ⟨hmem, hrunning⟩)

theorem atEnd (h : Sound w m) {c : ℕ} (hc : w.stage c = .encoding) {k : Change β} (hfits : k.Fits)
    (hk : w.Registered c k) : Sound (w.atEnd c k) m := by
  have hother {c' : ℕ} (hne : c' ≠ c) : (w.atEnd c k).progress c' = w.progress c' :=
    w.progress_setProgress_of_ne hne _
  have hself : (w.atEnd c k).progress c =
      { w.progress c with changes := (w.progress c).changes ++ [k] } :=
    w.progress_setProgress_self c _
  refine h.frame h.agrees rfl rfl rfl (fun c' hc' => hother ?_) (fun c' hc' => ?_)
    fun b' blit hmem _ => hmem
  · rintro rfl
    rw [hc] at hc'
    cases hc'
  · by_cases hne : c' = c
    · subst hne
      refine ⟨by rw [hc]; rfl, fun k' hk' => ?_⟩
      rw [hself, List.mem_append, List.mem_singleton] at hk'
      rcases hk' with hk' | rfl
      · exact .inl hk'
      · exact .inr ⟨hfits, hk⟩
    · rw [World.stage, hother hne] at hc'
      exact ⟨hc', fun k' hk' => .inl (hother hne ▸ hk')⟩

theorem copied (h : Sound w m) {c : ℕ} (hc : w.stage c = .encoding) {source destination : β}
    {commands : Indices} {into : ℕ}
    (hfits : (Change.copy source commands destination into).Fits) :
    Sound (w.copied c source commands destination into) m := by
  have hrunning : ((w.blit c source commands false false).stage c).running = true := by
    change (w.stage c).running = true
    rw [hc]
    rfl
  exact ((h.blit ..).blit ..).atEnd hc hfits
    ⟨keeps_of_blit hrunning (keeps_blit w c source commands false false) .., keeps_blit ..⟩

theorem overrun (h : Sound w m) {c : ℕ} (hc : w.stage c = .encoding) {b : β} {commands : Indices}
    (hfits : (Change.overrun b commands).Fits) : Sound (w.overrun c b commands) m :=
  (h.blit ..).atEnd hc hfits trivial

theorem reset (h : Sound w m) {c : ℕ} (hc : w.stage c = .encoding) {b : β} {commands : Indices}
    (hfits : (Change.reset b commands).Fits) : Sound (w.reset c b commands) m :=
  (h.blit ..).atEnd hc hfits (keeps_blit ..)

theorem copyIndirectCommandBuffer (h : Sound w m) {c : ℕ} (hc : w.stage c = .encoding)
    {source destination : β} {commands : Indices} {into : ℕ}
    (hw : w.copyIndirectCommandBuffer made c source commands destination into = some w') :
    Sound w' m := by
  have hsource := (made source).size_le
  have hdestination := (made destination).size_le
  have hcount : commands.start + commands.count = commands.stop := Nat.add_sub_cancel' commands.le
  rw [World.copyIndirectCommandBuffer] at hw
  dsimp only at hw
  split_ifs at hw with hoverrun hsize hpast hmeasured
  · obtain rfl := Option.some.inj hw
    exact h.copied hc ⟨by omega, by omega⟩
  · obtain rfl := Option.some.inj hw
    simp only [overrunMeasured, Bool.and_eq_true, decide_eq_true_eq] at hmeasured
    obtain ⟨⟨⟨⟨-, hle⟩, hinto⟩, -⟩, -⟩ := hmeasured
    have hlanding : (Indices.ofCount commands.start ((made destination).size - into)).count =
        (made destination).size - into := Nat.add_sub_cancel_left ..
    have hbefore : (Change.overrun destination (.ofCount 0 into)).Fits := by
      change 0 + into ≤ _
      omega
    refine (h.overrun hc hbefore).copied ?_ ⟨?_, ?_⟩
    · rw [World.overrun, World.stage_atEnd]
      exact hc
    · change commands.start + ((made destination).size - into) ≤ _
      omega
    · rw [hlanding]
      omega

/-! ### Commits, the GPU and the ends -/

theorem commit (h : Sound w m) {c : ℕ} (hc : w.stage c = .encoding)
    (hw : w' = { w.setProgress c { w.progress c with stage := .committed } with
      committed := w.committed ++ [c] }) : Sound w' m := by
  subst hw
  have hnot {c' : ℕ} (hc' : w.stage c' = .committed) : c' ≠ c := by
    rintro rfl
    rw [hc] at hc'
    cases hc'
  have hself := w.progress_setProgress_self c { w.progress c with stage := .committed }
  have hother {c' : ℕ} (hne : c' ≠ c) :=
    w.progress_setProgress_of_ne hne { w.progress c with stage := .committed }
  have hkept {c' : ℕ} (hc' : w.stage c' = .committed) :
      ((w.setProgress c { w.progress c with stage := .committed }).progress c').stage =
        .committed := by
    rw [hother (hnot hc')]
    exact hc'
  have hwork : World.work { w.setProgress c { w.progress c with stage := .committed } with
      committed := w.committed ++ [c] } = w.work ++ (w.progress c).changes := by
    rw [World.work, World.work, List.append_assoc, List.flatMap_append, List.flatMap_singleton,
      hself]
    refine congrArg _ (congrArg (· ++ _) (List.flatMap_congr fun c' hc' => ?_))
    rw [hother (hnot (h.committed c' hc'))]
  refine ⟨?_, ?_, ?_, fun c' hc' => ?_, fun e he => ?_, h.decided, fun c' hc' k hk => ?_, h.left⟩
  · rw [hwork, List.map_append]
    exact h.agrees.append (by rw [List.length_map]; exact h.ahead) _
  · rw [hwork, List.length_append]
    exact h.ahead.trans (Nat.le_add_right ..)
  · refine List.nodup_append.mpr ⟨h.nodup, List.nodup_singleton c, fun a ha b hb => ?_⟩
    rw [List.mem_singleton.mp hb]
    exact hnot (h.committed a ha)
  · rcases List.mem_append.mp hc' with hc' | hc'
    · exact hkept (h.committed c' hc')
    · obtain rfl := List.mem_singleton.mp hc'
      exact congrArg Progress.stage hself
  · obtain ⟨hstage, hnotin, hnil⟩ := h.ending e he
    refine ⟨hkept hstage, fun hmem => ?_, (congrArg Progress.changes (hother (hnot hstage))).trans hnil⟩
    rcases List.mem_append.mp hmem with hmem | hmem
    · exact hnotin hmem
    · exact hnot hstage (List.mem_singleton.mp hmem)
  · by_cases hne : c' = c
    · subst hne
      exact h.changes c' (by rw [hc]; rfl) k ((congrArg Progress.changes hself) ▸ hk)
    · have hsame := hother hne
      exact h.changes c' ((congrArg (Stage.running ∘ Progress.stage) hsame).symm.trans hc') k
        ((congrArg Progress.changes hsame) ▸ hk)

theorem drop (h : Sound w m) {c : ℕ} (hc : w.stage c = .encoding) :
    Sound (w.setProgress c { stage := .dropped }) m := by
  refine h.frame h.agrees rfl rfl rfl (fun c' hc' => w.progress_setProgress_of_ne ?_ _)
    (fun c' hc' => ?_) fun b blit hmem _ => hmem
  · rintro rfl
    rw [hc] at hc'
    cases hc'
  · by_cases hne : c' = c
    · rw [hne, World.stage, w.progress_setProgress_self] at hc'
      cases hc'
    · rw [World.stage, w.progress_setProgress_of_ne hne] at hc'
      rw [w.progress_setProgress_of_ne hne]
      exact ⟨hc', fun k hk => .inl hk⟩

theorem gpu (h : Sound w m) {k : Change β} (hk : w.work[m.ahead.length]? = some k) (ran : Bool) :
    Sound w
      { answers := if ran then k.transfer.moved Getter.fresh m.answers else m.answers
        ahead := m.ahead ++ [ran] } := by
  have hlt : m.ahead.length < w.work.length := (List.getElem?_eq_some_iff.mp hk).1
  refine { h with agrees := ?_, ahead := ?_, decided := fun e he => ?_ }
  · refine h.agrees.decide ?_ ran
    rw [List.getElem?_map, hk]
    rfl
  · rw [List.length_append]
    exact hlt
  · obtain ⟨hle, hran⟩ := h.decided e he
    refine ⟨?_, fun hf => ?_⟩
    · rw [List.length_append]
      exact hle.trans (Nat.le_add_right ..)
    · rw [List.take_append_of_le_length hle]
      exact hran hf

/-- The oldest committed command buffer begins to end. -/
theorem ends (h : Sound w m) {c : ℕ} {rest : List ℕ} (hc : w.committed = c :: rest)
    (he : w.ending = none) {failed : Bool}
    (hw : w' = { w.setProgress c { w.progress c with changes := [] } with
      committed := rest
      ending := some { of := c, failed, left := (w.progress c).changes } })
    (hm : m.step w (.ends failed) = some m') : Sound w' m' := by
  subst hw
  have hstage : w.stage c = .committed := h.committed c (hc ▸ List.mem_cons_self)
  have hnodup := h.nodup
  rw [hc] at hnodup
  obtain ⟨hnotin, hrest⟩ := List.nodup_cons.mp hnodup
  have hself := w.progress_setProgress_self c { w.progress c with changes := [] }
  have hother {c' : ℕ} (hne : c' ≠ c) :=
    w.progress_setProgress_of_ne hne { w.progress c with changes := [] }
  have hsame (c' : ℕ) :
      ((w.setProgress c { w.progress c with changes := [] }).progress c').stage = w.stage c' := by
    by_cases hne : c' = c
    · rw [hne, hself]
      rfl
    · rw [hother hne]
      rfl
  have hwork : World.work { w.setProgress c { w.progress c with changes := [] } with
      committed := rest
      ending := some { of := c, failed, left := (w.progress c).changes } } = w.work := by
    rw [World.work, World.work, he, hc, List.flatMap_cons]
    refine congrArg ((w.progress c).changes ++ ·) (List.flatMap_congr fun c' hc' => ?_)
    rw [hother (ne_of_mem_of_not_mem hc' hnotin)]
  have hlen : (w.progress c).changes.length ≤ w.work.length := by
    rw [World.work, he, hc, List.flatMap_cons]
    simp
  -- what the GPU's part of the end says of the blits it came to
  obtain ⟨hagrees, hahead, hdecided⟩ :
      Agrees Getter.fresh w.belief m'.answers (w.work.map Change.transfer) m'.ahead ∧
        m'.ahead.length ≤ w.work.length ∧ (w.progress c).changes.length ≤ m'.ahead.length ∧
        (failed = false → m'.ahead.take (w.progress c).changes.length =
          List.replicate (w.progress c).changes.length true) := by
    have hle := h.ahead
    simp only [Metal.step, hc, List.head?_cons, Option.elim_some] at hm
    split_ifs at hm with hfailed hran
    · obtain rfl := Option.some.inj hm
      refine ⟨h.agrees.pad _, ?_, ?_, fun hf => absurd (hf.symm.trans hfailed) nofun⟩
      · rw [List.length_append, List.length_replicate]
        omega
      · rw [List.length_append, List.length_replicate]
        omega
    · obtain rfl := Option.some.inj hm
      have hlength := congrArg List.length hran
      rw [List.length_take, List.length_replicate] at hlength
      exact ⟨h.agrees, hle, by omega, fun _ => hran⟩
  refine ⟨hwork ▸ hagrees, hwork ▸ hahead, hrest, fun c' hc' => ?_, fun e he' => ?_, fun e he' => ?_,
    fun c' hc' k hk => ?_, fun e he' k hk => ?_⟩
  · exact (hsame c').trans (h.committed c' (hc ▸ List.mem_cons_of_mem c hc'))
  · obtain rfl := Option.some.inj he'
    exact ⟨(hsame c).trans hstage, hnotin, congrArg Progress.changes hself⟩
  · obtain rfl := Option.some.inj he'
    exact hdecided
  · by_cases hne : c' = c
    · subst hne
      rw [show _ = [] from congrArg Progress.changes hself] at hk
      cases hk
    · exact h.changes c' ((congrArg Stage.running (hsame c')).symm.trans hc') k
        ((congrArg Progress.changes (hother hne)) ▸ hk)
  · obtain rfl := Option.some.inj he'
    exact h.changes c (by rw [hstage]; rfl) k hk

/-- The next change of the command buffer that ends runs. -/
theorem lands (h : Sound w m) {c : ℕ} {failed : Bool} {k : Change β} {left : List (Change β)}
    (he : w.ending = some { of := c, failed, left := k :: left })
    (hsides : w'.sides = if failed then k.fails w.sides else k.lands w.sides)
    (hprogress : w'.progress = w.progress) (hcommitted : w'.committed = w.committed)
    (he' : w'.ending = some { of := c, failed, left }) :
    Sound w' { m with ahead := m.ahead.tail } := by
  obtain ⟨hle, hran⟩ := h.decided _ he
  obtain ⟨hfits, -⟩ := h.left _ he k List.mem_cons_self
  have hstage : w'.stage = w.stage := by
    funext c'
    rw [World.stage, hprogress, World.stage]
  have hwork : w.work = k :: w'.work := by
    rw [World.work, World.work, he, he', hcommitted, hprogress]
    rfl
  have hblits (b : β) : (w'.sides b).blits = (w.sides b).blits := by
    rw [hsides]
    split_ifs
    · exact k.blits_fails w.sides b
    · exact k.blits_lands w.sides b
  have hregistered {c' : ℕ} {k' : Change β} (hk : w.Registered c' k') : w'.Registered c' k' :=
    hk.of_blits fun b blit hmem _ => (hblits b).symm ▸ hmem
  cases hahead : m.ahead with
  | nil =>
    rw [hahead] at hle
    exact absurd hle (Nat.not_succ_le_zero _)
  | cons b ahead =>
    have hagrees := h.agrees
    have hlen := h.ahead
    rw [hwork, hahead] at hagrees hlen
    rw [hahead] at hle hran
    refine ⟨?_, Nat.le_of_succ_le_succ hlen, hcommitted ▸ h.nodup, fun c' hc' => ?_, fun e hend => ?_,
      fun e hend => ?_, fun c' hc' k' hk => ?_, fun e hend k' hk => ?_⟩
    · rw [List.tail_cons]
      cases failed with
      | true =>
        have hbelief : w'.belief = fun a => (w.belief a).mayBe
            (k.transfer.moved (Belief.sure Getter.fresh) w.belief a) := by
          funext a
          rw [World.belief, hsides, if_pos rfl]
          exact k.belief_fails hfits a
        rw [hbelief]
        exact hagrees.mayLand
      | false =>
        obtain rfl : b = true := (List.cons.inj (hran rfl)).1
        have hbelief : w'.belief = k.transfer.moved (Belief.sure Getter.fresh) w.belief := by
          funext a
          rw [World.belief, hsides, if_neg Bool.false_ne_true]
          exact k.belief_lands hfits a
        rw [hbelief]
        exact hagrees.land
    · rw [hstage]
      exact h.committed c' (hcommitted ▸ hc')
    · obtain rfl := Option.some.inj (he'.symm.trans hend)
      rw [hstage, hcommitted, hprogress]
      exact h.ending { of := c, failed, left := k :: left } he
    · obtain rfl := Option.some.inj (he'.symm.trans hend)
      exact ⟨Nat.le_of_succ_le_succ hle, fun hf => (List.cons.inj (hran hf)).2⟩
    · obtain ⟨hfits', hk⟩ := h.changes c' (hstage ▸ hc') k' (hprogress ▸ hk)
      exact ⟨hfits', hregistered hk⟩
    · obtain rfl := Option.some.inj (he'.symm.trans hend)
      obtain ⟨hfits', hk⟩ := h.left _ he k' (List.mem_cons_of_mem k hk)
      exact ⟨hfits', hregistered hk⟩

/-- The command buffer that ended is at its stage. -/
theorem ended (h : Sound w m) {c : ℕ} {failed : Bool} (he : w.ending = some { of := c, failed, left := [] })
    {stage : Stage} (hstage : stage.running = false)
    (hw : w' = { w.setProgress c { w.progress c with stage } with ending := none }) :
    Sound w' m := by
  subst hw
  obtain ⟨hcommitted, hnotin, hnil⟩ := h.ending _ he
  have hself := w.progress_setProgress_self c { w.progress c with stage }
  have hother {c' : ℕ} (hne : c' ≠ c) :=
    w.progress_setProgress_of_ne hne { w.progress c with stage }
  have hwork : World.work { w.setProgress c { w.progress c with stage } with ending := none } =
      w.work := by
    rw [World.work, World.work, he]
    refine congrArg ([] ++ ·) (List.flatMap_congr fun c' hc' => ?_)
    rw [hother (ne_of_mem_of_not_mem hc' hnotin)]
  refine ⟨hwork ▸ h.agrees, hwork ▸ h.ahead, h.nodup, fun c' hc' => ?_, nofun, nofun,
    fun c' hc' k hk => ?_, nofun⟩
  · exact (congrArg Progress.stage (hother (ne_of_mem_of_not_mem hc' hnotin))).trans
      (h.committed c' hc')
  · by_cases hne : c' = c
    · subst hne
      have hrunning := (congrArg (Stage.running ∘ Progress.stage) hself).symm.trans hc'
      exact absurd (hstage.symm.trans hrunning) nofun
    · have hsame := hother hne
      exact h.changes c' ((congrArg (Stage.running ∘ Progress.stage) hsame).symm.trans hc') k
        ((congrArg Progress.changes hsame) ▸ hk)

/-- Every event keeps it. -/
theorem step (h : Sound w m) {e : Event β} (hs : Step made (w, m) e (w', m')) : Sound w' m' := by
  obtain ⟨hw, hm⟩ := hs
  dsimp only at hw hm
  cases e with
  | set b index setter =>
    rw [World.step] at hw
    split_ifs at hw
    obtain rfl := Option.some.inj hm
    obtain ⟨s, hs, rfl⟩ := Option.map_eq_some_iff.mp hw
    cases hset : (w.sides b).setValue w.stage index setter with
    | error e => rw [hset] at hs; cases hs
    | ok s' =>
      rw [hset] at hs
      obtain rfl := Option.some.inj hs
      exact h.set hset
  | get b index g =>
    rw [World.step] at hw
    split_ifs at hw
    obtain rfl := Option.some.inj hm
    obtain ⟨x, hx, rfl⟩ := Option.map_eq_some_iff.mp hw
    cases hget : (w.sides b).getValue w.stage index g with
    | error e => rw [hget] at hx; cases hx
    | ok x' =>
      rw [hget] at hx
      obtain rfl := Option.some.inj hx
      exact h.get hget
  | copy c source commands destination into =>
    rw [World.step] at hw
    split_ifs at hw with hc
    obtain rfl := Option.some.inj hm
    exact h.copyIndirectCommandBuffer hc hw
  | reset c b commands =>
    rw [World.step] at hw
    split_ifs at hw with hc
    obtain rfl := Option.some.inj hm
    obtain rfl := Option.some.inj hw
    exact h.reset hc.1 (hc.2.trans (made b).size_le)
  | commit c =>
    rw [World.step] at hw
    split_ifs at hw with hc
    obtain rfl := Option.some.inj hm
    exact h.commit hc (Option.some.inj hw).symm
  | drop c =>
    rw [World.step] at hw
    split_ifs at hw with hc
    obtain rfl := Option.some.inj hm
    obtain rfl := Option.some.inj hw
    exact h.drop hc
  | gpu ran =>
    obtain rfl := Option.some.inj hw
    obtain ⟨k, hk, rfl⟩ := Option.map_eq_some_iff.mp hm
    exact h.gpu hk ran
  | ends failed =>
    rw [World.step] at hw
    split at hw
    · rename_i c rest hc he
      exact h.ends hc he (Option.some.inj hw).symm hm
    · cases hw
  | lands =>
    rw [World.step] at hw
    split at hw
    · rename_i he
      obtain rfl := Option.some.inj hm
      obtain rfl := Option.some.inj hw
      exact h.lands he rfl rfl rfl rfl
    · cases hw
  | ended =>
    rw [World.step] at hw
    split at hw
    · rename_i failed he
      obtain rfl := Option.some.inj hm
      exact h.ended he (by cases failed <;> rfl) (Option.some.inj hw).symm
    · cases hw

end Sound

/-- In every execution the platform's beliefs hold of the reference sides but for the blits in
flight. -/
theorem sound_of_execution {made : β → Made} {events : List (Event β)} {w : World β} {m : Metal β}
    (h : Execution (Step made) ({}, {}) events (w, m)) : Sound w m :=
  h.invariant (I := fun s => Sound s.1 s.2) Sound.init fun _ _ _ hsound hstep => hsound.step hstep

/-! ### Two executions -/

/-- What the platform keeps is a function of the events apart from the GPU's. -/
theorem foldlM_visible {made : β → Made} {events : List (Event β)} {s s' : World β × Metal β}
    (h : Execution (Step made) s events s') :
    (events.filter Event.visible).foldlM (fun w e => w.step made e) s.1 = some s'.1 := by
  induction h with
  | nil => rfl
  | @snoc t u as e h hs ih =>
    rw [List.filter_append, List.foldlM_append, ih]
    cases he : e.visible with
    | true =>
      rw [List.filter_cons_of_pos he, List.filter_nil]
      change (t.1.step made e >>= pure) = _
      rw [bind_pure, hs.1]
    | false =>
      obtain ⟨ran, rfl⟩ : ∃ ran, e = .gpu ran := by
        cases e <;> first | exact ⟨_, rfl⟩ | cases he
      rw [List.filter_cons_of_neg (by rw [he]; exact Bool.false_ne_true), List.filter_nil]
      exact hs.1

/-! ### Known again -/

section

variable {made : β → Made} {w w' : World β} {m m' : Metal β} {b : β} {j : ℕ} {g : Getter}

omit [DecidableEq β] in
theorem known_iff : w.Known b j g ↔ g ∉ (w.belief (b, j)).unknown :=
  (Bool.not_eq_true _).to_iff.symm

theorem known_of_set {setter : Setter} (hs : Step made (w, m) (.set b j setter) (w', m'))
    (hg : (setter.sets g).isSome = true) : w'.Known b j g := by
  obtain ⟨hw, -⟩ := hs
  dsimp only at hw
  rw [World.step] at hw
  split_ifs at hw
  obtain ⟨s, hs, rfl⟩ := Option.map_eq_some_iff.mp hw
  cases hset : (w.sides b).setValue w.stage j setter with
  | error e => rw [hset] at hs; cases hs
  | ok s' =>
    rw [hset] at hs
    obtain rfl := Option.some.inj hs
    rw [known_iff, Sound.belief_setSides (Sides.belief_setValue _ hset), Function.update_self]
    rintro ⟨-, hnone⟩
    rw [hnone] at hg
    cases hg

/-- A blit that completed leaves known what it moved from known. -/
theorem Sound.belief_of_lands (h : Sound w m) {c : ℕ} {k : Change β} {left : List (Change β)}
    (he : w.ending = some { of := c, failed := false, left := k :: left })
    (hs : Step made (w, m) .lands (w', m')) (a : β × ℕ) :
    w'.belief a = k.transfer.moved (Belief.sure Getter.fresh) w.belief a := by
  obtain ⟨hw, -⟩ := hs
  simp only [World.step, he] at hw
  obtain rfl := Option.some.inj hw
  exact k.belief_lands (h.left _ he k List.mem_cons_self).1 a

theorem Sound.known_of_reset (h : Sound w m) {c : ℕ} {commands : Indices}
    {left : List (Change β)}
    (he : w.ending = some { of := c, failed := false, left := .reset b commands :: left })
    (hs : Step made (w, m) .lands (w', m')) (hj : j ∈ commands) : w'.Known b j g := by
  have hfresh : Change.transfer (.reset b commands) (b, j) = .fresh := if_pos ⟨rfl, hj⟩
  rw [known_iff, h.belief_of_lands he hs, Transfer.moved_fresh hfresh]
  exact id

theorem Sound.known_of_copy (h : Sound w m) {c : ℕ} {source : β} {commands : Indices} {into : ℕ}
    {left : List (Change β)}
    (he : w.ending = some { of := c, failed := false, left := .copy source commands b into :: left })
    (hs : Step made (w, m) .lands (w', m')) (hj : j < commands.count)
    (hknown : w.Known source (commands.start + j) g) : w'.Known b (into + j) g := by
  have hplace : Change.transfer (.copy source commands b into) (b, into + j) =
      .place (source, commands.start + j) := by
    rw [Change.transfer, if_pos ⟨rfl, Nat.le_add_right into j, Nat.add_lt_add_left hj into⟩,
      Nat.add_sub_cancel_left]
  rw [known_iff, h.belief_of_lands he hs, Transfer.moved_place hplace]
  exact known_iff.mp hknown

end

/-- In two executions that differ in what their GPUs ran alone, the platform keeps the same, and
each value a getter answers is both reference sides'. A value is known again once core sets it or
resets its command, and once a blit that completed resets its command or copies a command over it
of which it is known. -/
theorem getter_answers_reference (made : β → Made) {h₁ h₂ : List (Event β)} {w₁ w₂ : World β}
    {m₁ m₂ : Metal β} (hvisible : h₁.filter Event.visible = h₂.filter Event.visible)
    (e₁ : Execution (Step made) ({}, {}) h₁ (w₁, m₁))
    (e₂ : Execution (Step made) ({}, {}) h₂ (w₂, m₂)) :
    w₁ = w₂ ∧
    (∀ b j g v s, (w₁.sides b).getValue w₁.stage j g = .ok (v, s) →
      v = m₁.answers (b, j) g ∧ v = m₂.answers (b, j) g) ∧
    (∀ b j setter w m, Step made (w₁, m₁) (.set b j setter) (w, m) →
      ∀ g, (setter.sets g).isSome = true → w.Known b j g) ∧
    (∀ c b commands left w m,
      w₁.ending = some { of := c, failed := false, left := .reset b commands :: left } →
      Step made (w₁, m₁) .lands (w, m) → ∀ j ∈ commands, ∀ g, w.Known b j g) ∧
    (∀ c source commands destination into left w m,
      w₁.ending = some
        { of := c, failed := false, left := .copy source commands destination into :: left } →
      Step made (w₁, m₁) .lands (w, m) → ∀ j < commands.count, ∀ g,
        w₁.Known source (commands.start + j) g → w.Known destination (into + j) g) := by
  have hsound₁ := sound_of_execution e₁
  have hsound₂ := sound_of_execution e₂
  obtain rfl : w₁ = w₂ := by
    have hrun₁ := foldlM_visible e₁
    rw [hvisible, foldlM_visible e₂] at hrun₁
    exact (Option.some.inj hrun₁).symm
  refine ⟨rfl, fun b j g v s hv => ⟨hsound₁.getValue hv, hsound₂.getValue hv⟩,
    fun b j setter w m hs g hg => known_of_set hs hg,
    fun c b commands left w m he hs j hj g => hsound₁.known_of_reset he hs hj,
    fun c source commands destination into left w m he hs j hj g hknown =>
      hsound₁.known_of_copy he hs hj hknown⟩

/-- Two buffers of four commands. -/
def twoBuffers (_ : Bool) : Made := ⟨4, none, by decide⟩

/-- A length is set on a command, and a copy of it to another buffer fails. -/
def failedCopy (ran : Bool) : List (Event Bool) :=
  [.set false 0 (.length 40 64), .copy 0 false ⟨0, 1, Nat.zero_le 1⟩ true 1, .commit 0, .gpu ran,
    .ends true, .lands, .ended]

/-- The state that run ends in. -/
def failedCopied (ran : Bool) : World Bool × Metal Bool :=
  ((failedCopy ran).foldlM (next twoBuffers) ({}, {})).getD ({}, {})

theorem failedCopied_execution (ran : Bool) :
    Execution (Step twoBuffers) ({}, {}) (failedCopy ran) (failedCopied ran) := by
  have hsome : ((failedCopy ran).foldlM (next twoBuffers) ({}, {})).isSome = true := by
    cases ran <;> decide +kernel
  obtain ⟨s, hs⟩ := Option.isSome_iff_exists.mp hsome
  rw [failedCopied, hs]
  exact (Execution.of_foldlM_option _ _ hs).mono fun _ _ _ h => step_iff.mpr h

/-- The length of the command copied is answered alike whether the copy ran or not, where that of
the command it was copied over is unknown, and differs. -/
theorem failedCopy_answers :
    (failedCopied true).1 = (failedCopied false).1 ∧
    (64 = (failedCopied true).2.answers (false, 0) (.length 40) ∧
      64 = (failedCopied false).2.answers (false, 0) (.length 40)) ∧
    (failedCopied true).2.answers (true, 1) (.length 40) ≠
      (failedCopied false).2.answers (true, 1) (.length 40) ∧
    ¬ (failedCopied true).1.Known true 1 (.length 40) := by
  have hvisible : (failedCopy true).filter Event.visible =
      (failedCopy false).filter Event.visible := rfl
  obtain ⟨hsame, hgets, -⟩ := getter_answers_reference twoBuffers hvisible
    (failedCopied_execution true) (failedCopied_execution false)
  have hvalue : (((failedCopied true).1.sides false).getValue (failedCopied true).1.stage 0
      (.length 40)).toOption.map Prod.fst = some (64 : UInt32) := by
    decide +kernel
  obtain ⟨⟨v, s⟩, hs, rfl⟩ := Option.map_eq_some_iff.mp hvalue
  cases hget : ((failedCopied true).1.sides false).getValue (failedCopied true).1.stage 0
      (.length 40) with
  | error e => rw [hget] at hs; cases hs
  | ok x =>
    rw [hget] at hs
    obtain rfl := Option.some.inj hs
    refine ⟨hsame, hgets false 0 (.length 40) 64 s hget, ?_, ?_⟩
    · decide +kernel
    · unfold World.Known
      decide +kernel

end ReimsVgpu.Gpu.Icb
