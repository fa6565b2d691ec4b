import ReimsVgpu.Deserializer.Sends

/-!
# Runs of the segment walk

The walk over any segments, whatever the guest writes into them meanwhile and whatever the platform
answers: what its decoders send is proper, send by send, and the encoders it leaves open are those it is
known to leave open.

## Main definitions

* `Carrying`, `Broken`: what the desk keeps between two segments, and after a raise.

## Main results

* `triple_decodeSegments`: the walk.
* `decodeSegments_mayFollow`, `decodeSegments_supplied`: its sends.
* `decodeSegments_accounted`: the encoders it made.
-/

namespace ReimsVgpu.Deserializer

open Memory Effect

variable {g : Guest} {d : ℕ} {held : EncoderType → Option ℕ → Prop}

/-! ### Records -/

theorem triple_requirePipeline : Triple (Serving d held) (requirePipeline d)
    (fun _ past w => Serving d held past w ∧ (w.decoders d).pipeline ≠ none)
    fun _ => Serving d held := by
  refine triple_decoder fun self => ?_
  refine Triple.imp (.require fun _ _ _ h => h.1) (fun _ _ => id) (fun _ past w h => ?_)
    fun _ _ _ => id
  exact ⟨h.1.1, h.1.2 ▸ h.2⟩

theorem upholds_decodeRecord (kindOf : UInt32 → Option RecordKind) (id : UInt32)
    (hheld : (∃ id, kindOf id = some .pipeline) → ∀ t o, held t o → o ≠ none) :
    Upholds (Serving d held) (decodeRecord g d kindOf id) fun _ => True := by
  have hsteady := Serving.steady d held
  refine .bind .found fun kind hkind => ?_
  cases kind with
  | work =>
    refine .bind (hsteady.platform _) fun _ _ => Triple.bind triple_requirePipeline fun _ => ?_
    have hset : Steady fun past w => Serving d held past w ∧ (w.decoders d).pipeline ≠ none :=
      fun past w t h => ⟨hsteady past w t h.1, h.2⟩
    exact Triple.bind (Triple.imp (hset.platform _) (fun _ _ h => h) (fun _ _ _ h => h.1)
      fun _ _ _ h => h.1) fun _ => Serving.sendWork id
  | pipeline =>
    exact .bind (hsteady.platform _) fun state _ => Serving.setPipeline state (hheld ⟨id, hkind⟩)
  | other => exact .bind (hsteady.platform _) fun _ _ => Serving.sendOther id
  | silent => exact hsteady.platform _

theorem upholds_passPrefixLoop (fuel : ℕ) (segment : Cursor) :
    Upholds (Serving d held) (passPrefixLoop g fuel segment) fun _ => True := by
  have hsteady := Serving.steady d held
  induction fuel generalizing segment with
  | zero => exact .pure trivial
  | succ fuel ih =>
    refine .bind (hsteady.answer g.memory) fun memory _ => ?_
    refine .bind (upholds_framed _) fun taken _ => ?_
    rcases taken with ⟨none | record, next⟩
    · exact .pure trivial
    · refine .ite (fun _ => .bind (hsteady.platform _) fun _ _ => .pure trivial) fun _ => ?_
      exact .ite (fun _ => .bind (hsteady.platform _) fun _ _ => ih next) fun _ => .stop

/-! ### Segments -/

/-- What a segment leaves: a decoder still at work, or none. -/
def Left (d : ℕ) (header : SegmentHeader) (past : List Event) (w : Desk) : Prop :=
  if header.continuedByNext = 0 then Resting past w else Serving d (fun _ _ => True) past w

theorem Serving.any {past : List Event} {w : Desk} (h : Serving d held past w) :
    Serving d (fun _ _ => True) past w :=
  { h with held := trivial }

theorem triple_requireEncoder :
    Triple (Serving d held) (requireEncoder d)
      (fun _ => Serving d fun t o => held t o ∧ o ≠ none) fun _ => Serving d held := by
  refine triple_decoder fun self => ?_
  refine Triple.imp (.require fun _ _ _ h => h.1) (fun _ _ => id) (fun _ past w h => ?_)
    fun _ _ _ => id
  obtain ⟨⟨hserving, rfl⟩, hencoder⟩ := h
  exact { hserving with held := ⟨hserving.held, hencoder⟩ }

/-- The end of a segment: its pass ends where no segment continues it. -/
theorem triple_endSegment (header : SegmentHeader) :
    Triple (Serving d held) (if header.continuedByNext = 0 then endPass g d else pure ())
      (fun _ => Left d header) fun _ => Serving d fun _ _ => True := by
  refine .ite (fun hlast => ?_) fun hlast => .pure fun past w h => ?_
  · refine Triple.imp Serving.endPass (fun _ _ => id) (fun _ past w h => ?_) fun _ _ _ h => h.any
    rw [Left, if_pos hlast]
    exact h
  · rw [Left, if_neg hlast]
    exact h.any

theorem triple_decodePassSegment {type : EncoderType} {header : SegmentHeader} {segment : Cursor}
    {fresh : Cursor → Decoding Cursor} {kindOf : UInt32 → Option RecordKind}
    (hfresh : Upholds (Serving d fun t _ => t = type) (fresh segment) fun _ => True) :
    Triple (Serving d fun t _ => t = type) (decodePassSegment g d fresh kindOf header segment)
      (fun _ => Left d header) fun _ => Serving d fun _ _ => True := by
  have hfirst : Upholds (Serving d fun t _ => t = type)
      (if header.continuesPrevious = 0 then fresh segment else pure segment) fun _ => True :=
    .ite (fun _ => hfresh) fun _ => .pure trivial
  refine Triple.bind (Triple.imp hfirst (fun _ _ => id) (fun _ _ _ h => h.1)
    fun _ _ _ h => h.any) fun segment => ?_
  refine Triple.bind (Triple.imp triple_requireEncoder (fun _ _ => id) (fun _ _ _ => id)
    fun _ _ _ h => h.any) fun _ => ?_
  have hrecords := (Serving.steady d fun t o => t = type ∧ o ≠ none).recordLoop (g := g)
    (fun id => upholds_decodeRecord (g := g) kindOf id fun _ _ _ h => h.2)
    (segment.remaining.toNat + 1) segment
  refine Triple.bind (Triple.imp hrecords (fun _ _ => id) (fun _ _ _ h => h.1)
    fun _ _ _ h => h.any) fun _ => ?_
  exact triple_endSegment header

theorem upholds_freshComputePass {segment : Cursor} :
    Upholds (Serving d fun t _ => t = .compute) (freshComputePass g d segment) fun _ => True := by
  refine .bind ((Serving.steady d _).answer g.memory) fun memory _ => ?_
  refine .bind (upholds_framed _) fun descriptor _ => ?_
  refine .bind (Serving.replaceEncoder (fun _ _ _ => id) ?_) fun _ _ => .pure trivial
  rintro _ _ rfl ⟨⟩

theorem upholds_freshRenderPass {segment : Cursor} :
    Upholds (Serving d fun t _ => t = .render) (freshRenderPass g d segment) fun _ => True := by
  refine .bind (upholds_passPrefixLoop _ segment) fun segment _ => ?_
  refine .bind (Serving.replaceEncoder (fun _ _ _ => id) ?_) fun _ _ => .pure trivial
  rintro _ _ rfl ⟨⟩

/-- A segment through a decoder of its type. -/
theorem triple_decodeOfType (type : EncoderType) (header : SegmentHeader) (segment : Cursor) :
    Triple (Serving d fun t _ => t = type) (decodeOfType g d type header segment)
      (fun _ => Left d header) fun _ => Serving d fun _ _ => True := by
  have hsteady := Serving.steady d fun t _ => t = type
  cases type with
  | render => exact triple_decodePassSegment upholds_freshRenderPass
  | compute => exact triple_decodePassSegment upholds_freshComputePass
  | blit =>
    have hnone : ¬ ∃ id, blitKind id = some .pipeline := by
      rintro ⟨id, hset⟩
      grind [blitKind]
    have hrecords := hsteady.recordLoop (g := g) (fun id => upholds_decodeRecord (g := g) blitKind id
      fun hset => absurd hset hnone) (segment.remaining.toNat + 1) segment
    refine Triple.bind (Triple.imp hrecords (fun _ _ => id) (fun _ _ _ h => h.1)
      fun _ _ _ h => h.any) fun _ => ?_
    exact triple_endSegment header
  | info =>
    -- An info decoder has no encoder to end.
    refine Triple.imp (hsteady.recordLoop (fun id => hsteady.platform _) _ segment)
      (fun _ _ => id) (fun _ past w h => ?_) fun _ _ _ h => h.any
    rw [Left]
    split
    · refine ⟨h.1.toRecorded, h.1.accounted.rest fun e he => ?_⟩
      exact absurd (he.symm.trans (h.1.info d h.1.held)) (Option.some_ne_none e)
    · exact h.1.any

/-- What is left where a program stops, with what a raise leaves. -/
def Stopped (P : List Event → Desk → Prop) (stop : DecodeStop) (past : List Event) (w : Desk) : Prop :=
  Recorded past w ∧ (stop.caught = true → P past w)

theorem triple_decode (header : SegmentHeader) (segment : Cursor) :
    Triple (Serving d fun _ _ => True) (decode g d header segment) (fun _ => Left d header)
      (Stopped (Faulted d)) := by
  refine Triple.bind (M := fun self => Serving d fun t _ => t = self.encoderType)
    (.ask fun past w h => { h with held := rfl }) fun self => ?_
  refine Triple.cleanup (triple_decodeOfType self.encoderType header segment) ?_ fun e _ => ?_
  · intro e past w huncaught h
    exact ⟨h.toRecorded, fun hcaught => absurd (huncaught.symm.trans hcaught) Bool.false_ne_true⟩
  · exact Triple.imp Ending.fault (fun _ _ h => h.toEnding)
      (fun _ _ _ h => ⟨h.toRecorded, fun _ => h⟩) fun _ _ _ h => ⟨h.toRecorded, fun _ => h⟩

/-! ### The walk -/

/-- What the desk keeps between two segments. -/
def Carrying : Option ℕ → List Event → Desk → Prop
  | none => Resting
  | some d => Serving d fun _ _ => True

/-- What a turn of the walk leaves where it stops, before the decoder carried into it is faulted. -/
def Broken (carried : Option ℕ) : DecodeStop → List Event → Desk → Prop :=
  Stopped (carried.elim Resting Ending)

theorem Carrying.recorded {carried : Option ℕ} {past : List Event} {w : Desk}
    (h : Carrying carried past w) : Recorded past w := by
  cases carried with
  | none => exact Resting.toRecorded h
  | some d => exact (Serving.toEnding h).toRecorded

theorem Carrying.broken {carried : Option ℕ} {past : List Event} {w : Desk}
    (h : Carrying carried past w) (stop : DecodeStop) : Broken carried stop past w := by
  refine ⟨h.recorded, fun _ => ?_⟩
  cases carried with
  | none => exact h
  | some d => exact Serving.toEnding h

theorem Carrying.steady (carried : Option ℕ) : Steady (Carrying carried) := by
  cases carried with
  | none => exact Resting.steady
  | some d => exact Serving.steady d _

theorem triple_forSegment (byte : UInt8) :
    Triple Resting (forSegment g byte) (fun d => Serving d fun _ _ => True) fun _ => Resting := by
  refine Triple.bind (.found fun _ _ => id) fun type => .of_fact fun _ => ?_
  refine Triple.bind (M := fun encoder past w =>
    Made Resting encoder past w ∧ (type = .info → encoder = none)) (.ite (fun hblit => ?_) ?_)
    fun encoder => .ask fun past w h => ?_
  · refine Triple.imp (triple_newEncoder Resting.steady) (fun _ _ => id) (fun _ _ _ h => ⟨h, ?_⟩)
      fun _ _ _ => id
    rintro rfl
    exact absurd hblit EncoderType.noConfusion
  · exact fun _ => .pure fun _ w h => ⟨⟨w.encoders, h, .inl ⟨rfl, rfl⟩⟩, fun _ => rfl⟩
  -- The decoder made has sent nothing yet, and no decoder was made at its number before.
  · obtain ⟨⟨n, hresting, hnew⟩, hinfo⟩ := h
    have hlast : lastSet w.made past = none :=
      lastSet_eq_none fun ev hev => (hresting.decoders ev hev).ne
    exact
      { toEnding := hresting.toRecorded.place (x := { encoderType := type, encoder })
          hresting.accounted (fun _ => False.elim) (Nat.lt_succ_self _) (Nat.le_succ _) hnew hinfo
          (fun _ => id) fun e he => absurd (he.symm.trans (hresting.unmade _ le_rfl))
            (Option.some_ne_none e)
        held := trivial
        pipeline := by
          change ((w.set w.made _).decoders w.made).pipeline = _
          rw [Desk.decoders_set_self, hlast]
          rfl
        source := fun p e hset => absurd (hlast.symm.trans hset) (Option.some_ne_none _).symm }

/-- The decoder of a segment is the one carried into it, or there is none and it is made. -/
theorem triple_decoderFor (carried : Option ℕ) (header : SegmentHeader) :
    Triple (Carrying carried) (decoderFor g carried header)
      (fun d past w => Serving d (fun _ _ => True) past w ∧ (carried = some d ∨ carried = none))
      (Broken carried) := by
  refine .ite (fun _ => ?_) fun _ => ?_
  · have htype : Upholds (Carrying carried) (carriedType carried) fun _ => True := by
      cases carried with
      | none => exact .pure trivial
      | some d => exact triple_decoder fun _ => .pure fun _ _ h => ⟨h.1, trivial⟩
    have hfound : Upholds (Carrying carried)
        (carriedType carried >>= fun byte =>
          Effect.require (header.encoderType = byte)
              (.raised (.continuationType header.encoderType byte)) >>= fun _ =>
            Effect.found carried (.raised .continuationMissing)) fun d => carried = some d :=
      .bind htype fun _ _ => .bind .require fun _ _ => .found
    refine Triple.imp hfound (fun _ _ => id) (fun d past w h => ?_) fun e past w h => h.broken e
    obtain ⟨hcarrying, rfl⟩ := h
    exact ⟨hcarrying, .inl rfl⟩
  · cases carried with
    | some d => exact .pure fun past w h => ⟨h, .inl rfl⟩
    | none =>
      refine Triple.imp (triple_forSegment header.encoderType) (fun _ _ => id)
        (fun d past w h => ⟨h, .inr rfl⟩) fun e past w h => ?_
      exact ⟨Resting.toRecorded h, fun _ => h⟩

theorem upholds_openEnvelope (carried : Option ℕ) (header : SegmentHeader) (segment : Cursor) :
    Upholds (Carrying carried) (openEnvelope g header segment) fun _ => True := by
  have hsteady := Carrying.steady carried
  refine .ite (fun _ => .bind (hsteady.tryRead segment 8) fun options _ => ?_)
    fun _ => .pure trivial
  cases options with
  | none => exact .pure trivial
  | some options =>
    have hset : Upholds (Carrying carried) (setProtectionOptions g options.1)
        fun _ => True :=
      .ite (fun _ => hsteady.platform _) fun _ => .pure trivial
    refine .bind hset fun _ _ => .bind (hsteady.tryRead options.2 8) fun inner _ => ?_
    cases inner with
    | none => exact .pure trivial
    | some inner => exact .pure trivial

/-- Only the decoder carried may be at work. -/
theorem Carrying.accounted {carried : Option ℕ} {past : List Event} {w : Desk}
    (h : Carrying carried past w) : Accounted (carried = some ·) past w := by
  cases carried with
  | none => exact (Resting.accounted h).mono fun _ => False.elim
  | some d => exact (Serving.toEnding h).accounted.mono fun _ heq => congrArg some heq.symm

/-- An envelope that is too short lets the decoder carried into it go. -/
theorem Carrying.letGo {carried : Option ℕ} {past : List Event} {w : Desk}
    (h : Carrying carried past w) : Resting past { w with letGo := w.letGo ++ carried.toList } := by
  have hrecorded := h.recorded
  refine ⟨⟨hrecorded.proper, hrecorded.encoders, hrecorded.decoders, hrecorded.unmade,
    hrecorded.info⟩, fun e he => ?_⟩
  refine (h.accounted e he).imp_right (Or.imp_right fun ⟨x, hx, hheld⟩ => ⟨x, hx, .inr ?_⟩)
  rcases hheld with rfl | hlet | hrefused
  · exact .inl (List.mem_append_right _ (List.mem_singleton_self x))
  · exact .inl (List.mem_append_left _ hlet)
  · exact .inr hrefused

theorem triple_decodeSegment (carried : Option ℕ) (header : SegmentHeader) (segment : Cursor) :
    Triple (Carrying carried) (decodeSegment g carried header segment)
      Carrying (Broken carried) := by
  refine Triple.bind (Triple.imp (upholds_openEnvelope carried header segment) (fun _ _ => id)
    (fun _ _ _ h => h.1) fun e past w h => h.broken e) fun opened => ?_
  cases opened with
  | none => exact .ask fun past w h => h.letGo
  | some opened =>
    refine Triple.bind (triple_decoderFor carried opened.1) fun d => .of_fact fun hcarried => ?_
    refine Triple.bind (Triple.imp (triple_decode opened.1 opened.2) (fun _ _ => id)
      (fun _ _ _ => id) fun e past w h => ?_) fun _ => .pure fun past w h => ?_
    · refine ⟨h.1, fun hcaught => ?_⟩
      rcases hcarried with rfl | rfl
      · exact (h.2 hcaught).toEnding
      · exact (h.2 hcaught).resting
    · rw [Left] at h
      by_cases hlast : opened.1.continuedByNext = 0
      · rw [if_pos hlast] at h
        rw [if_neg (not_not.mpr hlast)]
        exact h
      · rw [if_neg hlast] at h
        rw [if_pos hlast]
        exact h

theorem triple_walkSegment (carried : Option ℕ) (segment : Cursor) :
    Triple (Carrying carried) (walkSegment g carried segment) Carrying
      (Broken carried) := by
  refine Triple.bind (Triple.imp ((Carrying.steady carried).tryRead segment 8) (fun _ _ => id)
    (fun _ _ _ h => h.1) fun e past w h => h.broken e) fun read => ?_
  cases read with
  | none => exact .pure fun _ _ => id
  | some read =>
    dsimp only
    generalize read.2.truncateTo _ = truncated
    rcases truncated with ⟨error | _, segment⟩
    · exact .stop fun past w h => h.broken _
    · exact triple_decodeSegment carried _ segment

/-- The walk, from whatever decoder is carried into it. -/
theorem triple_decodeSegments (segments : List (Option Cursor)) (carried : Option ℕ) :
    Triple (Carrying carried) (decodeSegments g segments carried) Carrying
      (Stopped Resting) := by
  induction segments generalizing carried with
  | nil => exact .pure fun _ _ => id
  | cons slot segments ih =>
    cases slot with
    | none =>
      refine .stop fun past w h => ⟨h.recorded, fun hcaught => ?_⟩
      exact absurd hcaught Bool.false_ne_true
    | some segment =>
      refine Triple.bind (Triple.cleanup (triple_walkSegment carried segment) ?_ fun e hcaught => ?_)
        fun next => ih next
      · intro e past w huncaught h
        exact ⟨h.1, fun hcaught => absurd (huncaught.symm.trans hcaught) Bool.false_ne_true⟩
      · cases carried with
        | none => exact .pure fun past w h => ⟨h.1, fun _ => h.2 hcaught⟩
        | some d =>
          exact Triple.imp Ending.fault (fun past w h => h.2 hcaught)
            (fun _ past w h => ⟨h.toRecorded, fun _ => h.resting⟩)
            fun _ past w h => ⟨h.toRecorded, fun _ => h.resting⟩

/-! ### The sends of a walk -/

/-- Before the walk nothing has been made. -/
theorem carrying_init : Carrying none [] {} where
  proper := .nil
  encoders := fun _ h => absurd h List.not_mem_nil
  decoders := fun _ h => absurd h List.not_mem_nil
  unmade := fun _ _ => rfl
  info := fun _ _ => rfl
  accounted := fun _ h => absurd h (Nat.not_lt_zero _)

/-- What the walk leaves, whichever way it ends. -/
theorem decodeSegments_recorded (g : Guest) (segments : List (Option Cursor)) :
    Recorded (decodeSegments g segments none {}).2.1 (decodeSegments g segments none {}).2.2 :=
  Triple.always (Triple.imp (triple_decodeSegments segments none) (fun _ _ => id)
    (fun _ _ _ h => h.recorded) fun _ _ _ h => h.1) carrying_init

/-- The encoders take their commands one after the other, in the order they were made, and an encoder
that took its end is sent nothing more: whatever the segments, whatever the guest writes into them
meanwhile, and however the walk ends. -/
theorem decodeSegments_mayFollow (g : Guest) (segments : List (Option Cursor)) :
    (decodeSegments g segments none {}).2.1.Pairwise MayFollow :=
  (decodeSegments_recorded g segments).proper.pairwise fun _ _ h => h.follows

/-- A draw or a dispatch comes after its decoder set a pipeline that is not nil, in the same pass; that
pipeline was set on the encoder the draw goes to, or on one that was replaced open. -/
theorem decodeSegments_supplied (g : Guest) (segments : List (Option Cursor)) :
    EachAfter (Supplied (decodeSegments g segments none {}).2.2.kept)
      (decodeSegments g segments none {}).2.1 :=
  (decodeSegments_recorded g segments).proper.mono fun _ _ h => h.supplied

/-- Of the encoders a walk made: each has taken its end, or it was replaced open and is kept for good, or
it is held by a decoder that an envelope let go, or its end raised; or the walk went through and it is
held by the decoder still carried. -/
def EncodersAccounted : Except DecodeStop (Option ℕ) × List Event × Desk → Prop
  | (.ok carried, log, w) => Accounted (carried = some ·) log w
  | (.error (.raised _), log, w) => Accounted (fun _ => False) log w
  | (.error _, _, _) => True

theorem decodeSegments_accounted (g : Guest) (segments : List (Option Cursor)) :
    EncodersAccounted (decodeSegments g segments none {}) := by
  have hrun := (triple_decodeSegments (g := g) segments none).run carrying_init
  generalize decodeSegments g segments none {} = ended at hrun ⊢
  obtain ⟨result, log, w⟩ := ended
  cases result with
  | ok carried => exact Carrying.accounted hrun
  | error stop =>
    cases stop with
    | raised raise => exact (hrun.2 rfl).accounted
    | cursor death => trivial
    | nullSegment => trivial

end ReimsVgpu.Deserializer
