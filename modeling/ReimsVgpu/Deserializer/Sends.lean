import ReimsVgpu.Deserializer.Walk

/-!
# What holds of the sends so far

Of each send, by the sends before it: its encoder is no older than theirs and has not been ended, and a
command that runs the pipeline comes after its decoder set one. `Serving` is what the desk keeps of this
while a decoder decodes: the decoder's encoder is the last one made and is open, and every other encoder
made is ended, kept for good, or held by a decoder that an envelope let go.

## Main definitions

* `Ended`, `lastSet`, `Proper`: a send by the sends before it.
* `Recorded`, `Accounted`, `Serving`, `Ending`, `Resting`: what the desk keeps.

## Main results

* `triple_send`, `Serving.sendOther`, `Serving.sendWork`: what a send keeps.
* `Recorded.place`: a decoder's encoder in place of the one it held.
* `Serving.setPipeline`, `Serving.replaceEncoder`: the decoder goes on.
* `Serving.endPass`, `Ending.fault`: no decoder is at work after a pass has ended, nor after a fault.
-/

namespace ReimsVgpu.Deserializer

open Memory Effect

/-! ### A send by the sends before it -/

/-- The encoder was sent its end, which it took or raised at. -/
def Ended (took : Bool) (log : List Event) (e : ℕ) : Prop :=
  ∃ ev ∈ log, ev.encoder = e ∧ ev.took = took ∧ ev.command.ends = true

/-- What a send does to the pipeline that its decoder set last, and to the encoder it was set on. -/
def Event.sets (ev : Event) (last : Option (ℕ × ℕ)) : Option (ℕ × ℕ) :=
  if ev.took = true then
    if ev.command.ends = true then none
    else ev.command.pipeline.elim last fun state => state.map (·, ev.encoder)
  else last

/-- The pipeline that a decoder set last in its pass, and the encoder it set it on. -/
def lastSet (d : ℕ) (log : List Event) : Option (ℕ × ℕ) :=
  (log.filter (·.decoder = d)).foldl (fun last ev => ev.sets last) none

/-- The one send may come after the other: its encoder is no older, and not one that took its end. -/
def MayFollow (a b : Event) : Prop :=
  a.encoder ≤ b.encoder ∧ (a.encoder = b.encoder → ¬ (a.took = true ∧ a.command.ends = true))

/-- A send that runs the pipeline comes after its decoder set one, in the same pass, on the same encoder
or on one that was replaced open. -/
def Supplied (kept : List ℕ) (before : List Event) (ev : Event) : Prop :=
  ev.command.isWork = true →
    ∃ p e, lastSet ev.decoder before = some (p, e) ∧ (e = ev.encoder ∨ e ∈ kept)

/-- A send as it should be, after the sends before it. -/
structure Proper (kept : List ℕ) (before : List Event) (ev : Event) : Prop where
  follows : ∀ a ∈ before, MayFollow a ev
  supplied : Supplied kept before ev

section Sends

variable {kept kept' : List ℕ} {past : List Event} {ev : Event} {d e : ℕ}

theorem Ended.concat {took : Bool} (h : Ended took past e) : Ended took (past ++ [ev]) e :=
  h.imp fun _ hx => ⟨List.mem_append_left _ hx.1, hx.2⟩

theorem not_ended_concat (h : ¬ Ended true past e) (hev : ¬ (ev.took = true ∧ ev.command.ends = true)) :
    ¬ Ended true (past ++ [ev]) e := by
  rintro ⟨x, hx, hxe, hends⟩
  rcases List.mem_append.mp hx with hx | hx
  · exact h ⟨x, hx, hxe, hends⟩
  · obtain rfl := List.mem_singleton.mp hx
    exact hev hends

theorem ended_self (hends : ev.command.ends = true) : Ended ev.took (past ++ [ev]) ev.encoder :=
  ⟨ev, List.mem_append_right _ (List.mem_singleton_self ev), rfl, rfl, hends⟩

theorem lastSet_concat : lastSet d (past ++ [ev]) =
    if ev.decoder = d then ev.sets (lastSet d past) else lastSet d past := by
  unfold lastSet
  rw [List.filter_append, List.foldl_append]
  by_cases hd : ev.decoder = d
  · rw [List.filter_cons_of_pos (by simpa using hd), if_pos hd]
    rfl
  · rw [List.filter_cons_of_neg (by simpa using hd), if_neg hd]
    rfl

/-- A send that neither ends nor sets anything, or that raised, leaves the pipeline set. -/
theorem lastSet_concat_of_plain
    (h : ev.took = false ∨ ev.command.ends = false ∧ ev.command.pipeline = none) :
    lastSet d (past ++ [ev]) = lastSet d past := by
  rw [lastSet_concat, Event.sets]
  rcases h with h | ⟨hends, hset⟩
  · simp [h]
  · simp [hends, hset]

/-- A decoder that has sent nothing has set nothing. -/
theorem lastSet_eq_none (h : ∀ ev ∈ past, ev.decoder ≠ d) : lastSet d past = none := by
  rw [lastSet, List.filter_eq_nil_iff.mpr fun ev hev => by simpa using h ev hev]
  rfl

theorem Proper.mono (h : Proper kept past ev) (hkept : ∀ e ∈ kept, e ∈ kept') :
    Proper kept' past ev where
  follows := h.follows
  supplied hwork := by
    obtain ⟨p, e, hset, he⟩ := h.supplied hwork
    exact ⟨p, e, hset, he.imp_right (hkept e)⟩

end Sends

/-! ### What the desk keeps -/

/-- The sends so far, and the numbers given so far. -/
structure Recorded (past : List Event) (w : Desk) : Prop where
  proper : EachAfter (Proper w.kept) past
  encoders : ∀ ev ∈ past, ev.encoder < w.encoders
  decoders : ∀ ev ∈ past, ev.decoder < w.made
  unmade : ∀ x, w.made ≤ x → (w.decoders x).encoder = none
  info : ∀ x, (w.decoders x).encoderType = .info → (w.decoders x).encoder = none

/-- Each encoder made is ended, kept for good, or held by a decoder that may hold it open. -/
def Accounted (may : ℕ → Prop) (past : List Event) (w : Desk) : Prop :=
  ∀ e < w.encoders, Ended true past e ∨ e ∈ w.kept ∨
    ∃ x, (w.decoders x).encoder = some e ∧ (may x ∨ x ∈ w.letGo ∨ Ended false past e)

/-- The decoder's encoder is the last one made, and open. -/
def Current (d : ℕ) (past : List Event) (w : Desk) : Prop :=
  ∀ e, (w.decoders d).encoder = some e → e + 1 = w.encoders ∧ ¬ Ended true past e

/-- No decoder is at work. -/
structure Resting (past : List Event) (w : Desk) : Prop extends Recorded past w where
  accounted : Accounted (fun _ => False) past w

/-- The decoder is at work or to be ended. -/
structure Ending (d : ℕ) (past : List Event) (w : Desk) : Prop
    extends Recorded past w where
  made : d < w.made
  accounted : Accounted (· = d) past w
  current : Current d past w

/-- The decoder is at work; its type and its encoder are of `held`. -/
structure Serving (d : ℕ) (held : EncoderType → Option ℕ → Prop) (past : List Event)
    (w : Desk) : Prop extends Ending d past w where
  held : held (w.decoders d).encoderType (w.decoders d).encoder
  pipeline : (w.decoders d).pipeline = (lastSet d past).map Prod.fst
  source : ∀ p e, lastSet d past = some (p, e) → (w.decoders d).encoder = some e ∨ e ∈ w.kept

/-- What holds whatever the time is. -/
def Steady (I : List Event → Desk → Prop) : Prop :=
  ∀ past w t, I past w → I past { w with time := t }

theorem Recorded.steady : Steady Recorded :=
  fun _ _ _ h => ⟨h.proper, h.encoders, h.decoders, h.unmade, h.info⟩

theorem Resting.steady : Steady Resting :=
  fun past w t h => ⟨Recorded.steady past w t h.toRecorded, h.accounted⟩

theorem Ending.steady (d : ℕ) : Steady (Ending d) :=
  fun past w t h => ⟨Recorded.steady past w t h.toRecorded, h.made, h.accounted, h.current⟩

theorem Serving.steady (d : ℕ) (held : EncoderType → Option ℕ → Prop) :
    Steady (Serving d held) :=
  fun past w t h => ⟨Ending.steady d past w t h.toEnding, h.held, h.pipeline, h.source⟩

section Programs

variable {α : Type} {I : List Event → Desk → Prop} {g : Guest}

theorem upholds_framed (result : Except CursorDeath (Except FrameRaise α × Cursor)) :
    Upholds I (framed result) fun _ => True := by
  rcases result with death | ⟨frameRaise | a, c⟩
  · exact .stop
  · exact .stop
  · exact .pure trivial

variable (hI : Steady I)

include hI

theorem Steady.answer (f : ℕ → α) : Upholds I (answer f) fun _ => True :=
  Triple.ask fun past w h => ⟨hI past w _ h, trivial⟩

theorem Steady.platform (f : ℕ → Except DecodeStop α) : Upholds I (platform f) fun _ => True := by
  refine .bind (hI.answer f) fun result _ => ?_
  cases result with
  | error stop => exact .stop
  | ok a => exact .pure trivial

theorem Steady.tryRead (c : Cursor) (bytes : UInt64) :
    Upholds I (tryRead g c bytes) fun _ => True := by
  refine .bind (hI.answer g.memory) fun memory _ => ?_
  rcases c.readBytes memory bytes with death | ⟨error | read, c'⟩
  · exact .stop
  · exact .pure trivial
  · exact .pure trivial

theorem Steady.recordLoop {handle : UInt32 → Decoding Unit}
    (h : ∀ id, Upholds I (handle id) fun _ => True) (fuel : ℕ) (segment : Cursor) :
    Upholds I (recordLoop g handle fuel segment) fun _ => True := by
  induction fuel generalizing segment with
  | zero => exact .pure trivial
  | succ fuel ih =>
    refine .bind (hI.answer g.memory) fun memory _ => .bind (upholds_framed _) fun taken _ => ?_
    rcases taken with ⟨none | record, next⟩
    · exact .pure trivial
    · exact .bind (h record.1.commandId) fun _ _ => ih next

end Programs

/-! ### Sends -/

section Sends

variable {g : Guest} {past : List Event} {w : Desk} {d e n : ℕ} {x : Decoder} {command : Command}
  {held : EncoderType → Option ℕ → Prop}

/-- A decoder read, with what is known of it. -/
theorem triple_decoder {α : Type} {P : List Event → Desk → Prop} {f : Decoder → Decoding α}
    {Q : α → List Event → Desk → Prop} {R : DecodeStop → List Event → Desk → Prop}
    (h : ∀ self, Triple (fun past w => P past w ∧ w.decoders d = self) (f self) Q R) :
    Triple P (decoder d >>= f) Q R :=
  Triple.bind (M := fun self past w => P past w ∧ w.decoders d = self)
    (.ask fun _ _ hP => ⟨hP, rfl⟩) h

/-- A send goes nowhere, is taken, or raises. -/
theorem triple_send {P : List Event → Desk → Prop} (hP : Steady P) {Q : Unit → List Event → Desk → Prop}
    {R : DecodeStop → List Event → Desk → Prop}
    (hnone : ∀ past w, P past w → (w.decoders d).encoder = none → Q () past w)
    (htook : ∀ past w e, P past w → (w.decoders d).encoder = some e →
      Q () (past ++ [⟨d, e, command, true⟩]) w)
    (hraised : ∀ past w e stop, P past w → (w.decoders d).encoder = some e →
      R stop (past ++ [⟨d, e, command, false⟩]) w) :
    Triple P (send g d command) Q R := by
  refine triple_decoder fun self => ?_
  cases he : self.encoder with
  | none => exact .pure fun past w h => hnone past w h.1 (by rw [h.2, he])
  | some e =>
    have hsteady : Steady fun past w => P past w ∧ w.decoders d = self :=
      fun past w t h => ⟨hP past w t h.1, h.2⟩
    refine Triple.bind (M := fun _ past w => P past w ∧ w.decoders d = self)
      (.ask fun past w h => hsteady past w _ h) fun result => ?_
    cases result with
    | ok => exact .log fun past w h => htook past w e h.1 (by rw [h.2, he])
    | error stop =>
      exact .bind (.log fun past w h => hraised past w e stop h.1 (by rw [h.2, he]))
        fun _ => .stop fun _ _ => id

theorem Accounted.mono {may may' : ℕ → Prop} (h : Accounted may past w) (hmay : ∀ x, may x → may' x) :
    Accounted may' past w := fun e he =>
  (h e he).imp_right (Or.imp_right fun ⟨x, hx, hheld⟩ => ⟨x, hx, hheld.imp_left (hmay x)⟩)

theorem Accounted.concat {may : ℕ → Prop} {ev : Event} (h : Accounted may past w) :
    Accounted may (past ++ [ev]) w := fun e he =>
  (h e he).imp Ended.concat (Or.imp_right fun ⟨x, hx, hmay⟩ =>
    ⟨x, hx, hmay.imp_right (Or.imp_right Ended.concat)⟩)

/-- The decoder may no longer hold its encoder open: it has none, or it is ended, or it raised at its
end. -/
theorem Accounted.rest (h : Accounted (· = d) past w)
    (hd : ∀ e, (w.decoders d).encoder = some e → Ended true past e ∨ Ended false past e) :
    Accounted (fun _ => False) past w := by
  intro e he
  rcases h e he with h | h | ⟨x, hx, rfl | hlet⟩
  · exact .inl h
  · exact .inr (.inl h)
  · exact (hd e hx).imp_right fun h => .inr ⟨x, hx, .inr (.inr h)⟩
  · exact .inr (.inr ⟨x, hx, .inr hlet⟩)

/-- A send to the decoder's encoder is a proper one. -/
theorem Ending.concat (h : Ending d past w) (he : (w.decoders d).encoder = some e) (took : Bool)
    (hsupplied : Supplied w.kept past ⟨d, e, command, took⟩) :
    Recorded (past ++ [⟨d, e, command, took⟩]) w where
  proper := h.proper.concat
    { follows := fun a ha => by
        obtain ⟨hlast, hopen⟩ := h.current e he
        have hbelow := h.encoders a ha
        refine ⟨?_, fun heq hends => hopen ⟨a, ha, heq, hends⟩⟩
        change a.encoder ≤ e
        omega
      supplied := hsupplied }
  encoders := by
    refine List.forall_mem_append.mpr ⟨h.encoders, List.forall_mem_singleton.mpr ?_⟩
    have hcurrent := (h.current e he).1
    change e < w.encoders
    omega
  decoders := List.forall_mem_append.mpr ⟨h.decoders, List.forall_mem_singleton.mpr h.made⟩
  unmade := h.unmade
  info := h.info

/-- What a decoder's pipeline supplies. -/
theorem Serving.supplied (h : Serving d held past w) (he : (w.decoders d).encoder = some e)
    (took : Bool) (hwork : command.isWork = true → (w.decoders d).pipeline ≠ none) :
    Supplied w.kept past ⟨d, e, command, took⟩ := by
  intro hw
  have hset := hwork hw
  rw [h.pipeline] at hset
  obtain ⟨⟨p, e'⟩, hlast⟩ := Option.ne_none_iff_exists'.mp (mt (congrArg (Option.map Prod.fst)) hset)
  refine ⟨p, e', hlast, (h.source p e' hlast).imp_left fun heq => ?_⟩
  exact Option.some_inj.mp (heq.symm.trans he)

/-- A send that neither ends nor sets anything, or that raised, keeps the decoder at work. -/
theorem Serving.concat (h : Serving d held past w) (he : (w.decoders d).encoder = some e) (took : Bool)
    (hplain : took = false ∨ command.ends = false ∧ command.pipeline = none)
    (hwork : command.isWork = true → (w.decoders d).pipeline ≠ none) :
    Serving d held (past ++ [⟨d, e, command, took⟩]) w := by
  have hlast : lastSet d (past ++ [⟨d, e, command, took⟩]) = lastSet d past :=
    lastSet_concat_of_plain hplain
  refine
    { toRecorded := h.toEnding.concat he took (h.supplied he took hwork)
      made := h.made
      accounted := h.accounted.concat
      current := fun x hx => ⟨(h.current x hx).1, not_ended_concat (h.current x hx).2 ?_⟩
      held := h.held
      pipeline := by rw [hlast]; exact h.pipeline
      source := fun p x hset => h.source p x (hlast ▸ hset) }
  rintro ⟨htook, hends⟩
  rcases hplain with hfalse | ⟨hfalse, -⟩
  · exact Bool.false_ne_true (hfalse.symm.trans htook)
  · exact Bool.false_ne_true (hfalse.symm.trans hends)

theorem Serving.sendOther (id : UInt32) :
    Upholds (Serving d held) (send g d (.other id)) fun _ => True :=
  triple_send (Serving.steady d held) (fun _ _ h _ => ⟨h, trivial⟩)
    (fun _ _ _ h he => ⟨h.concat he true (.inr ⟨rfl, rfl⟩) (fun hw => by cases hw), trivial⟩)
    fun _ _ _ _ h he => h.concat he false (.inl rfl) fun hw => by cases hw

/-- A send that runs the pipeline, where the decoder has one. -/
theorem Serving.sendWork (id : UInt32) :
    Triple (fun past w => Serving d held past w ∧ (w.decoders d).pipeline ≠ none)
      (send g d (.work id)) (fun _ past w => Serving d held past w ∧ True)
      fun _ => Serving d held :=
  triple_send (fun past w t h => ⟨Serving.steady d held past w t h.1, h.2⟩)
    (fun _ _ h _ => ⟨h.1, trivial⟩)
    (fun _ _ _ h he => ⟨h.1.concat he true (.inr ⟨rfl, rfl⟩) fun _ => h.2, trivial⟩)
    fun _ _ _ _ h he => h.1.concat he false (.inl rfl) fun _ => h.2

/-! ### Changes of a decoder -/

@[simp]
theorem Desk.decoders_set_self : (w.set d x).decoders d = x := Function.update_self ..

theorem Desk.decoders_set_of_ne {y : ℕ} (h : y ≠ d) : (w.set d x).decoders y = w.decoders y :=
  Function.update_of_ne h ..

/-- A change of a decoder's pipeline keeps every decoder's encoder and type. -/
theorem Desk.held_set (p : Option ℕ) (y : ℕ) :
    ((w.set d { w.decoders d with pipeline := p }).decoders y).encoder = (w.decoders y).encoder ∧
      ((w.set d { w.decoders d with pipeline := p }).decoders y).encoderType =
        (w.decoders y).encoderType := by
  by_cases h : y = d
  · rw [h, Desk.decoders_set_self]
    exact ⟨rfl, rfl⟩
  · rw [Desk.decoders_set_of_ne h]
    exact ⟨rfl, rfl⟩

theorem Recorded.set (h : Recorded past w) (p : Option ℕ) :
    Recorded past (w.set d { w.decoders d with pipeline := p }) where
  proper := h.proper
  encoders := h.encoders
  decoders := h.decoders
  unmade y hy := (Desk.held_set p y).1.trans (h.unmade y hy)
  info y hy := (Desk.held_set p y).1.trans (h.info y ((Desk.held_set p y).2.symm.trans hy))

theorem Accounted.set {may : ℕ → Prop} (h : Accounted may past w) (p : Option ℕ) :
    Accounted may past (w.set d { w.decoders d with pipeline := p }) := fun e he =>
  (h e he).imp_right (Or.imp_right fun ⟨y, hy, hmay⟩ => ⟨y, (Desk.held_set p y).1.trans hy, hmay⟩)

/-- An encoder has been made for the decoder, or none was. -/
def Placed (x : Decoder) (n : ℕ) (w : Desk) : Prop :=
  x.encoder = none ∧ n = w.encoders ∨ x.encoder = some n ∧ n + 1 = w.encoders

/-- A decoder's encoder in place of the one it held, which is accounted for without it. -/
theorem Recorded.place {may : ℕ → Prop} {made : ℕ} {kept : List ℕ}
    (h : Recorded past { w with encoders := n }) (haccounted : Accounted may past { w with encoders := n })
    (hmay : ∀ y, may y → y = d) (hmade : d < made) (hle : w.made ≤ made) (hnew : Placed x n w)
    (hinfo : x.encoderType = .info → x.encoder = none) (hkept : ∀ e ∈ w.kept, e ∈ kept)
    (hold : ∀ e, (w.decoders d).encoder = some e → Ended true past e ∨ e ∈ kept) :
    Ending d past { w.set d x with made, kept } := by
  have hn : n ≤ w.encoders := hnew.elim (fun hnone => hnone.2.le) fun hsome => by omega
  have hself : ({ w.set d x with made, kept } : Desk).decoders d = x := Desk.decoders_set_self
  have hothers (y : ℕ) (hy : y ≠ d) : ({ w.set d x with made, kept } : Desk).decoders y = w.decoders y :=
    Desk.decoders_set_of_ne hy
  refine
    { proper := h.proper.mono fun before ev hev => hev.mono hkept
      encoders := fun ev hev => (h.encoders ev hev).trans_le hn
      decoders := fun ev hev => (h.decoders ev hev).trans_le hle
      unmade := fun y hy => ?_
      info := fun y hy => ?_
      made := hmade
      accounted := fun e he => ?_
      current := fun e he => ?_ }
  · rw [hothers y (hmade.trans_le hy).ne']
    exact h.unmade y (hle.trans hy)
  · by_cases hyd : y = d
    · rw [hyd, hself] at hy ⊢
      exact hinfo hy
    · rw [hothers y hyd] at hy ⊢
      exact h.info y hy
  · by_cases hlt : e < n
    · rcases haccounted e hlt with hended | hin | ⟨y, hy, hheld⟩
      · exact .inl hended
      · exact .inr (.inl (hkept e hin))
      · by_cases hyd : y = d
        · exact (hold e (hyd ▸ hy)).imp_right .inl
        · refine .inr (.inr ⟨y, ?_, .inr (hheld.resolve_left fun hm => hyd (hmay y hm))⟩)
          rw [hothers y hyd]
          exact hy
    · -- The encoder just made is the decoder's.
      change e < w.encoders at he
      obtain ⟨hencoder, heq⟩ := hnew.resolve_left fun hnone => by omega
      obtain rfl : e = n := by omega
      exact .inr (.inr ⟨d, by rw [hself]; exact hencoder, .inl rfl⟩)
  · rw [hself] at he
    obtain ⟨hencoder, heq⟩ := hnew.resolve_left fun hnone =>
      Option.some_ne_none e (he.symm.trans hnone.1)
    obtain rfl := Option.some_inj.mp (he.symm.trans hencoder)
    refine ⟨heq, ?_⟩
    rintro ⟨ev, hev, hof, -⟩
    exact (h.encoders ev hev).ne hof

/-! ### Pipelines -/

/-- A decoder that has an encoder sets the pipeline on it, and holds what it set. -/
theorem Serving.setPipeline (state : Option ℕ) (hheld : ∀ t o, held t o → o ≠ none) :
    Upholds (Serving d held) (setPipeline g d state) fun _ => True := by
  refine Triple.bind (M := fun _ past w =>
    Serving d held past (w.set d { w.decoders d with pipeline := state }))
    (triple_send (Serving.steady d held) ?_ ?_ ?_) fun _ => .ask fun past w h => ⟨h, trivial⟩
  · intro past w h hnone
    exact absurd hnone (hheld _ _ h.held)
  · intro past w e h he
    have hrecorded : Recorded (past ++ [⟨d, e, .setPipelineState state, true⟩]) w :=
      h.toEnding.concat he true fun hwork => by cases hwork
    have hlast : lastSet d (past ++ [⟨d, e, .setPipelineState state, true⟩]) = state.map (·, e) := by
      rw [lastSet_concat, if_pos rfl]
      rfl
    refine
      { toRecorded := hrecorded.set state
        made := h.made
        accounted := h.accounted.concat.set state
        current := fun e' he' => ?_
        held := ?_
        pipeline := ?_
        source := fun p y hy => ?_ }
    · rw [(Desk.held_set state d).1] at he'
      exact ⟨(h.current e' he').1, not_ended_concat (h.current e' he').2 fun hboth =>
        Bool.false_ne_true hboth.2⟩
    · rw [Desk.decoders_set_self]
      exact h.held
    · rw [Desk.decoders_set_self, hlast]
      cases state <;> rfl
    · rw [Desk.decoders_set_self]
      rw [hlast] at hy
      obtain ⟨p', -, hy⟩ := Option.map_eq_some_iff.mp hy
      obtain ⟨rfl, rfl⟩ := Prod.mk.inj hy
      exact .inl he
  · intro past w e stop h he
    exact h.concat he false (.inl rfl) fun hwork => by cases hwork

/-! ### Passes -/

/-- An encoder has been made, or none was, and is nowhere yet. -/
def Made (I : List Event → Desk → Prop) (encoder : Option ℕ) (past : List Event) (w : Desk) : Prop :=
  ∃ n, I past { w with encoders := n } ∧ Placed { encoder } n w

theorem triple_newEncoder {I : List Event → Desk → Prop} (hI : Steady I) :
    Triple I (newEncoder g) (Made I) fun _ => I := by
  have hnone (past : List Event) (w : Desk) (h : I past w) : Made I none past w :=
    ⟨w.encoders, h, .inl ⟨rfl, rfl⟩⟩
  refine .ite (fun _ => ?_) fun _ => .pure hnone
  refine Triple.bind (hI.platform g.newEncoder) fun made => ?_
  exact .ite (fun _ => .ask fun past w h => ⟨w.encoders, h.1, .inr ⟨rfl, rfl⟩⟩)
    fun _ => .pure fun past w h => hnone past w h.1

/-- The decoder's encoder replaced: the old one is kept, and what was set on it stays the decoder's. -/
theorem Serving.replaceEncoder (hheld : ∀ t o o', held t o → held t o')
    (hinfo : ∀ t o, held t o → t ≠ .info) :
    Upholds (Serving d held) (replaceEncoder g d) fun _ => True := by
  refine Triple.bind (triple_newEncoder (Serving.steady d held)) fun encoder => .ask fun past w h => ?_
  obtain ⟨n, h, hnew⟩ := h
  have hold (e : ℕ) (he : (w.decoders d).encoder = some e) :
      e ∈ w.kept ++ (w.decoders d).encoder.toList :=
    List.mem_append_right _ (Option.mem_toList.mpr he)
  refine ⟨
    { toEnding := h.toRecorded.place (x := { w.decoders d with encoder }) h.accounted (fun _ => id)
        h.made le_rfl hnew (fun htype => absurd htype (hinfo _ _ h.held))
        (fun e he => List.mem_append_left _ he) fun e he => .inr (hold e he)
      held := ?_
      pipeline := ?_
      source := fun p e hset => .inr ?_ }, trivial⟩
  · change held ((w.set d _).decoders d).encoderType ((w.set d _).decoders d).encoder
    rw [Desk.decoders_set_self]
    exact hheld _ _ _ h.held
  · change ((w.set d _).decoders d).pipeline = _
    rw [Desk.decoders_set_self]
    exact h.pipeline
  · exact (h.source p e hset).elim (hold e) fun hkept => List.mem_append_left _ hkept

/-! ### Ends -/

/-- After a fault: the decoder holds no encoder open but one that raised at its end. -/
structure Faulted (d : ℕ) (past : List Event) (w : Desk) : Prop extends Ending d past w where
  rested : Accounted (fun _ => False) past w

theorem Faulted.resting (h : Faulted d past w) : Resting past w := ⟨h.toRecorded, h.rested⟩

theorem Ending.faulted (h : Ending d past w)
    (hd : ∀ e, (w.decoders d).encoder = some e → Ended true past e ∨ Ended false past e) : Faulted d past w :=
  ⟨h, h.accounted.rest hd⟩

/-- The end of an encoder supplies nothing. -/
theorem supplied_end {kept : List ℕ} (took : Bool) : Supplied kept past ⟨d, e, .endEncoding, took⟩ :=
  fun hwork => by cases hwork

/-- The end of a pass: the encoder has taken its end, or the decoder is still at work. -/
theorem Serving.endPass :
    Triple (Serving d held) (endPass g d) (fun _ => Resting) fun _ => Serving d held := by
  refine Triple.bind (M := fun _ => Resting) (triple_send (Serving.steady d held) ?_ ?_ ?_)
    fun _ => .ask fun past w h => ⟨h.toRecorded.set none, h.accounted.set none⟩
  · intro past w h hnone
    exact ⟨h.toRecorded, h.accounted.rest fun e he =>
      absurd (he.symm.trans hnone) (Option.some_ne_none e)⟩
  · intro past w e h he
    refine ⟨h.toEnding.concat he true (supplied_end true), h.accounted.concat.rest fun e' he' => ?_⟩
    obtain rfl := Option.some_inj.mp (he.symm.trans he')
    exact .inl (ended_self rfl)
  · intro past w e stop h he
    exact h.concat he false (.inl rfl) fun hwork => by cases hwork

/-- A fault ends the decoder's encoder and lets it go, or its end raises and it stays held. -/
theorem Ending.fault :
    Triple (Ending d) (fault g d) (fun _ => Faulted d) fun _ => Faulted d := by
  refine triple_decoder fun self => .ite (fun hinfo => .pure fun past w h => ?_) fun _ => ?_
  · refine h.1.faulted fun e he => absurd (he.symm.trans ?_) (Option.some_ne_none e)
    exact h.1.info d ((congrArg Decoder.encoderType h.2).trans hinfo)
  have hsteady : Steady fun past w => Ending d past w ∧ w.decoders d = self :=
    fun past w t h => ⟨Ending.steady d past w t h.1, h.2⟩
  -- Whatever the decoder holds when it lets go has taken its end.
  refine Triple.bind (M := fun _ past w => Recorded past w ∧ d < w.made ∧
      Accounted (· = d) past w ∧ ∀ e, (w.decoders d).encoder = some e → Ended true past e)
    (triple_send hsteady ?_ ?_ ?_) fun _ => .ask fun past w h => ?_
  · intro past w h hnone
    exact ⟨h.1.toRecorded, h.1.made, h.1.accounted, fun e he =>
      absurd (he.symm.trans hnone) (Option.some_ne_none e)⟩
  · intro past w e h he
    refine ⟨h.1.concat he true (supplied_end true), h.1.made, h.1.accounted.concat, fun e' he' => ?_⟩
    obtain rfl := Option.some_inj.mp (he.symm.trans he')
    exact ended_self rfl
  · intro past w e stop h he
    have hending : Ending d (past ++ [⟨d, e, .endEncoding, false⟩]) w :=
      { toRecorded := h.1.concat he false (supplied_end false)
        made := h.1.made
        accounted := h.1.accounted.concat
        current := fun e' he' => ⟨(h.1.current e' he').1, not_ended_concat (h.1.current e' he').2
          fun hboth => Bool.false_ne_true hboth.1⟩ }
    refine hending.faulted fun e' he' => ?_
    obtain rfl := Option.some_inj.mp (he.symm.trans he')
    exact .inr (ended_self rfl)
  · obtain ⟨hrecorded, hmade, haccounted, hended⟩ := h
    have hplaced := hrecorded.place (x := { w.decoders d with encoder := none, pipeline := none })
      haccounted (fun _ => id) hmade le_rfl (.inl ⟨rfl, rfl⟩) (fun _ => rfl) (fun _ => id)
      fun e he => .inl (hended e he)
    refine hplaced.faulted fun e he => ?_
    change ((w.set d _).decoders d).encoder = some e at he
    rw [Desk.decoders_set_self] at he
    exact absurd he.symm (Option.some_ne_none e)

end Sends

end ReimsVgpu.Deserializer
