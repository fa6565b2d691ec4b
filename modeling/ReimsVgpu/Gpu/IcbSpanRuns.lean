import ReimsVgpu.Gpu.IcbSpanJoins

/-!
# Runs of joined spans

Core sets a command only after the ends of the spans joined so far, but a copy can bring a set from
between them, or a joined span around a set. In every run without such a copy, each record names by the
spans kept what it names by all of them apart.

## Main definitions

* `Names.Sane`, `Names.Holds`: what holds in every state of a run.
* `Names.Clear`: a copy brings no set that a span straddles, and no span that straddles a set.

## Main results

* `Names.Holds.step`, `Names.named_eq_of_execution`.
* `Names.copied_set_several`: a copy that brings a set from between the ends.
-/

namespace ReimsVgpu.Gpu.Icb

namespace Names

variable {β δ : Type} {made : β → Made} {device : β → δ} {p p' : Names β δ} {b : β} {w v : Window}

/-! ### What holds of the spans -/

/-- A span of a command buffer is in what a buffer keeps. -/
def Shown (p : Names β δ) (b : β) (q : Opened) : Prop := ∃ w ∈ p.writes b, q ∈ w.parts

/-- The spans kept fit, ends and states lie in the order's past, and the cells of a command buffer that
did not end are open and its own. -/
structure Sane (made : β → Made) (device : β → δ) (p : Names β δ) : Prop where
  windows : ∀ b, ∀ w ∈ p.writes b, Fits made device p b w
  ended : ∀ (stop n : ℕ), p.cells.ends stop = n → 0 < n ∧ n ≤ p.order
  fresh : ∀ stop, p.cells.count ≤ stop → p.cells.ends stop = ⊤
  holders : ∀ d, ∀ e ∈ p.histories d, ∀ h ∈ e.2.holders,
    h.made ≤ p.order ∧ (h.made : ℕ∞) < h.gone
  held : ∀ c, ∀ s ∈ p.holds c, s < p.cells.count ∧ p.cells.ends s = ⊤ ∧ ∀ c', s ∈ p.holds c' → c' = c

/-- What holds in every state of a run: the spans kept are made of all the spans. -/
structure Holds (made : β → Made) (device : β → δ) (p : Names β δ) : Prop
    extends Sane made device p where
  shown : ∀ b q, q ∈ p.apart b ↔ p.Shown b q

/-- Ends and states only come: an end stays, and a state was there, or was live and goes now, or is
made now. -/
structure Later (p p' : Names β δ) : Prop where
  order_le : p.order ≤ p'.order
  count_le : p.cells.count ≤ p'.cells.count
  ends : ∀ stop, p.cells.ends stop ≠ ⊤ → p'.cells.ends stop = p.cells.ends stop
  holders : ∀ d, ∀ e ∈ p'.histories d, ∀ h ∈ e.2.holders, p.order < h.made ∨
    ∃ e' ∈ p.histories d, ∃ h' ∈ e'.2.holders,
      h'.made = h.made ∧ (h'.gone = h.gone ∨ h'.gone = ⊤ ∧ (p.order : ℕ∞) < h.gone)

theorem Later.of_eq (hcells : p'.cells = p.cells) (hhistories : p'.histories = p.histories)
    (horder : p.order ≤ p'.order) : Later p p' :=
  ⟨horder, by rw [hcells], fun _ _ => by rw [hcells],
    fun d e he h hh => .inr ⟨e, hhistories ▸ he, h, hh, rfl, .inl rfl⟩⟩

/-- A span that fits does so later, where no command was given a set that it straddles. -/
theorem Fits.later (h : Fits made device p b w) (hp : Sane made device p) (hlater : Later p p')
    (hown : ∀ i < (made b).size, ∀ x, p'.own b i = some x → ¬Straddles p.cells.ends w x.2)
    (hunique : ∀ b', ∀ w' ∈ p'.writes b', w'.stop = w.stop → w' = w) : Fits made device p' b w := by
  refine ⟨h.stop_lt.trans_le hlater.count_le, fun q hq => (h.start_le q hq).trans hlater.order_le,
    h.alone_or.imp_right fun hjoined => hjoined.frame hlater.ends (fun e he holder hholder hwithin => ?_)
      hown, hunique⟩
  obtain ⟨n, hn⟩ := ENat.ne_top_iff_exists.mp hjoined.ended
  have hstop : p.cells.ends w.stop ≤ (p.order : ℕ∞) := by
    rw [← hn]
    exact Nat.cast_le.mpr (hp.ended w.stop n hn.symm).2
  obtain ⟨hmade, hgone⟩ := hwithin
  rcases hlater.holders _ e he holder hholder with hnew | ⟨e', he', holder', hholder', hsame, hheld⟩
  · exact absurd (hmade.trans_le hstop) (Nat.cast_lt.mpr hnew).not_gt
  · have hbefore : (w.start : ℕ∞) < holder'.gone := by
      rcases hheld with hheld | ⟨hlive, -⟩
      · exact hheld ▸ hgone
      · exact hlive ▸ WithTop.natCast_lt_top _
    obtain ⟨q, hq, hqmade, hqgone⟩ := hjoined.tight e' he' holder' hholder' ⟨hsame ▸ hmade, hbefore⟩
    refine ⟨q, hq, hsame ▸ hqmade, ?_⟩
    rcases hheld with hheld | ⟨-, hgoes⟩
    · exact hheld ▸ hqgone
    · exact (Nat.cast_le.mpr (h.start_le q hq)).trans_lt hgoes

/-- No span straddles a point that comes now. -/
theorem Fits.not_straddles (h : Fits made device p b w) (hp : Sane made device p) {point : ℕ}
    (hpoint : p.order ≤ point) : ¬Straddles p.cells.ends w point := by
  rcases h.alone_or with halone | hjoined
  · exact halone.not_straddles point
  · rintro ⟨-, hlt⟩
    obtain ⟨n, hn⟩ := ENat.ne_top_iff_exists.mp hjoined.ended
    rw [← hn] at hlt
    exact ((hp.ended w.stop n hn.symm).2.trans hpoint).not_gt (Nat.cast_lt.mp hlt)

/-- What changes no span stays sane. -/
theorem Sane.later (hp : Sane made device p) (hlater : Later p p') (hwrites : p'.writes = p.writes)
    (hown : ∀ b, ∀ w ∈ p.writes b, ∀ i < (made b).size, ∀ x, p'.own b i = some x →
      ¬Straddles p.cells.ends w x.2)
    (hended : ∀ (stop n : ℕ), p'.cells.ends stop = n → 0 < n ∧ n ≤ p'.order)
    (hfresh : ∀ stop, p'.cells.count ≤ stop → p'.cells.ends stop = ⊤)
    (hholders : ∀ d, ∀ e ∈ p'.histories d, ∀ h ∈ e.2.holders,
      h.made ≤ p'.order ∧ (h.made : ℕ∞) < h.gone)
    (hheld : ∀ c, ∀ s ∈ p'.holds c,
      s < p'.cells.count ∧ p'.cells.ends s = ⊤ ∧ ∀ c', s ∈ p'.holds c' → c' = c) :
    Sane made device p' :=
  ⟨fun b w hw => by
    rw [hwrites] at hw
    exact (hp.windows b w hw).later hp hlater (hown b w hw) (hwrites ▸ (hp.windows b w hw).unique),
    hended, hfresh, hholders, hheld⟩

/-! ### A span kept -/

theorem mem_update [DecidableEq β] {α : Type*} {f : β → List α} {l : List α} {b' : β} {x : α}
    (h : x ∈ Function.update f b l b') : x ∈ f b' ∨ b' = b ∧ x ∈ l := by
  by_cases hb : b' = b
  · subst hb
    rw [Function.update_self] at h
    exact .inr ⟨rfl, h⟩
  · rw [Function.update_of_ne hb] at h
    exact .inl h

/-- What keeping a span does: it is added, or with it two are joined in one of a new cell. -/
structure Keeps (made : β → Made) (device : β → δ) (p : Names β δ) (b : β) (w : Window)
    (p' : Names β δ) : Prop where
  later : Later p p'
  order : p'.order = p.order
  own : p'.own = p.own
  histories : p'.histories = p.histories
  holds : p'.holds = p.holds
  apart : p'.apart = p.apart
  ended : ∀ (stop n : ℕ), p'.cells.ends stop = n → 0 < n ∧ n ≤ p'.order
  fresh : ∀ stop, p'.cells.count ≤ stop → p'.cells.ends stop = ⊤
  kept : ∀ stop < p.cells.count, p'.cells.ends stop = p.cells.ends stop
  mem : ∃ joined : Window, ∀ b', ∀ v ∈ p'.writes b', v ∈ p.writes b' ∨ b' = b ∧ (v = w ∨
    v = joined ∧ v.stop = p.cells.count ∧ p.cells.count < p'.cells.count ∧
      (∀ q ∈ v.parts, q.start ≤ p.order) ∧ Joined made device p' b v)
  shown : ∀ b' q, p'.Shown b' q ↔ p.Shown b' q ∨ b' = b ∧ q ∈ w.parts

theorem keeps [DecidableEq β] (hp : Sane made device p) (hw : Fits made device p b w) :
    Keeps made device p b w (p.keep made device b w) := by
  have hbefore (v : Window) (hv : v ∈ p.writes b ++ [w]) : Fits made device p b v := by
    rcases List.mem_append.mp hv with hv | hv
    · exact hp.windows b v hv
    · rwa [List.mem_singleton.mp hv]
  have hshown {after : List Window} {cells : Cells}
      (h : ∀ q, (∃ v ∈ after, q ∈ v.parts) ↔ ∃ v ∈ p.writes b ++ [w], q ∈ v.parts) (b' : β)
      (q : Opened) : Shown { p with writes := Function.update p.writes b after, cells } b' q ↔
        p.Shown b' q ∨ b' = b ∧ q ∈ w.parts := by
    unfold Shown
    dsimp only
    by_cases hb : b' = b
    · subst hb
      rw [Function.update_self, h]
      simp [or_and_right, exists_or]
    · rw [Function.update_of_ne hb]
      simp [hb]
  rcases write_cases (p.histories (device b)) (p.setPoints made b) (p.writes b) p.cells w with
    ⟨⟨kept, hmem, hstop⟩, hsame⟩ | hadded | ⟨a, a', hjoins⟩
  · obtain rfl := hw.unique b kept hmem hstop
    have hp' : p.keep made device b kept = p := by
      rw [keep, hsame]
      dsimp only
      rw [Function.update_eq_self]
    rw [hp']
    refine ⟨.of_eq rfl rfl le_rfl, rfl, rfl, rfl, rfl, rfl, hp.ended, hp.fresh, fun _ _ => rfl,
      ⟨kept, fun b' v hv => .inl hv⟩, fun b' q => (or_iff_left_of_imp ?_).symm⟩
    rintro ⟨rfl, hq⟩
    exact ⟨kept, hmem, hq⟩
  · have hp' : p.keep made device b w =
        { p with writes := Function.update p.writes b (p.writes b ++ [w]) } := by
      rw [keep, hadded]
    rw [hp']
    refine ⟨.of_eq rfl rfl le_rfl, rfl, rfl, rfl, rfl, rfl, hp.ended, hp.fresh, fun _ _ => rfl,
      ⟨w, fun b' v hv => ?_⟩, hshown fun q => Iff.rfl⟩
    rcases mem_update hv with hv | ⟨rfl, hv⟩
    · exact .inl hv
    · rcases List.mem_append.mp hv with hv | hv
      · exact .inl hv
      · exact .inr ⟨rfl, .inl (List.mem_singleton.mp hv)⟩
  · obtain ⟨m, n, hm, hn, -, hcells⟩ := hjoins.stops
    have hjoined : Joined made device (p.keep made device b w) b (a.join a' p.cells.count) :=
      Joined.join hjoins (hbefore a hjoins.left) (hbefore a' hjoins.right) (hp.fresh _ le_rfl)
        (fun e he h hh => (hp.holders _ e he h hh).2) rfl rfl rfl
    have hp' : (p.keep made device b w).cells = p.cells.new (max m n : ℕ) := hcells
    refine ⟨⟨le_rfl, ?count_le, fun stop hstop => ?ends, fun d e he h hh =>
      .inr ⟨e, he, h, hh, rfl, .inl rfl⟩⟩, rfl, rfl, rfl, rfl, rfl, fun stop k hk => ?ended,
      fun stop hstop => ?fresh, fun stop hstop => ?kept, ⟨a.join a' p.cells.count, fun b' v hv => ?mem⟩,
      hshown fun q => ?shown⟩
    case count_le =>
      rw [hp']
      exact Nat.le_succ _
    case ends => rw [hp', p.cells.new_of_ne_top (hp.fresh _ le_rfl) hstop]
    case ended =>
      rw [hp'] at hk
      by_cases hnew : stop = p.cells.count
      · rw [hnew, Cells.new_self, Nat.cast_inj] at hk
        have hleft := hp.ended _ m hm
        have hright := hp.ended _ n hn
        show 0 < k ∧ k ≤ p.order
        omega
      · rw [p.cells.new_of_ne hnew] at hk
        exact hp.ended stop k hk
    case fresh =>
      rw [hp'] at hstop ⊢
      have hnew : stop ≠ p.cells.count := by
        rintro rfl
        exact absurd hstop (Nat.not_succ_le_self _)
      rw [p.cells.new_of_ne hnew]
      exact hp.fresh stop (Nat.le_of_succ_le hstop)
    case kept => rw [hp', p.cells.new_of_ne hstop.ne]
    case mem =>
      rcases mem_update hv with hv | ⟨rfl, hv⟩
      · exact .inl hv
      · rcases hjoins.mem v hv with rfl | hv
        · refine .inr ⟨rfl, .inr ⟨rfl, rfl, by rw [hp']; exact Nat.lt_succ_self _, fun q hq => ?_,
            hjoined⟩⟩
          rcases List.mem_append.mp hq with hq | hq
          · exact (hbefore a hjoins.left).start_le q hq
          · exact (hbefore a' hjoins.right).start_le q hq
        · rcases List.mem_append.mp hv with hv | hv
          · exact .inl hv
          · exact .inr ⟨rfl, .inl (List.mem_singleton.mp hv)⟩
    case shown =>
      constructor
      · rintro ⟨v, hv, hq⟩
        rcases hjoins.mem v hv with rfl | hv
        · rcases List.mem_append.mp hq with hq | hq
          · exact ⟨a, hjoins.left, hq⟩
          · exact ⟨a', hjoins.right, hq⟩
        · exact ⟨v, hv, hq⟩
      · rintro ⟨v, hv, hq⟩
        rcases hjoins.kept v hv with rfl | rfl | hv
        · exact ⟨_, hjoins.joined, List.mem_append_left _ hq⟩
        · exact ⟨_, hjoins.joined, List.mem_append_right _ hq⟩
        · exact ⟨v, hv, hq⟩

namespace Keeps

/-- A span kept elsewhere fits on, if its end is kept once. -/
theorem fits (h : Keeps made device p b w p') (hp : Sane made device p) {b' : β}
    (hv : Fits made device p b' v) (hsame : v.stop = w.stop → v = w) : Fits made device p' b' v := by
  obtain ⟨joined, hmem⟩ := h.mem
  refine hv.later hp h.later (fun i hi x hx => hv.unsplit hi (h.own ▸ hx)) fun b'' u hu hstop => ?_
  rcases hmem b'' u hu with hu | ⟨-, rfl | ⟨-, hnew, -⟩⟩
  · exact hv.unique b'' u hu hstop
  · exact (hsame hstop.symm).symm
  · exact absurd (hstop.symm.trans hnew) hv.stop_lt.ne

theorem sane (h : Keeps made device p b w p') (hp : Sane made device p)
    (hw : Fits made device p b w) : Sane made device p' := by
  obtain ⟨joined, hmem⟩ := h.mem
  refine ⟨fun b' v hv => ?windows, h.ended, h.fresh, ?holders, fun c s hs => ?held⟩
  case windows =>
    rcases hmem b' v hv with hv | ⟨rfl, rfl | ⟨rfl, hnew, hlt, hstart, hjoined⟩⟩
    · exact h.fits hp (hp.windows b' v hv) (hw.unique b' v hv)
    · exact h.fits hp hw fun _ => rfl
    · refine ⟨hnew ▸ hlt, fun q hq => h.order ▸ hstart q hq, .inr hjoined, fun b'' u hu hstop => ?_⟩
      rcases hmem b'' u hu with hu | ⟨-, rfl | ⟨rfl, -⟩⟩
      · exact absurd (hstop.trans hnew) (hp.windows b'' u hu).stop_lt.ne
      · exact absurd (hstop.trans hnew) hw.stop_lt.ne
      · rfl
  case holders =>
    rw [h.histories, h.order]
    exact hp.holders
  case held =>
    rw [h.holds] at hs ⊢
    obtain ⟨hlt, hopen, hown⟩ := hp.held c s hs
    exact ⟨hlt.trans_le h.later.count_le, (h.kept s hlt).trans hopen, hown⟩

end Keeps

/-- Spans that fit, each end once among them, are kept one after another. -/
theorem Sane.foldl_keep [DecidableEq β] (l : List Window) (hp : Sane made device p)
    (hfits : ∀ w ∈ l, Fits made device p b w)
    (hsame : ∀ w ∈ l, ∀ w' ∈ l, w.stop = w'.stop → w = w') :
    Sane made device (l.foldl (fun p w => p.keep made device b w) p) ∧
      (l.foldl (fun p w => p.keep made device b w) p).apart = p.apart ∧
      (l.foldl (fun p w => p.keep made device b w) p).own = p.own ∧
      ∀ b' q, (l.foldl (fun p w => p.keep made device b w) p).Shown b' q ↔
        p.Shown b' q ∨ b' = b ∧ ∃ w ∈ l, q ∈ w.parts := by
  induction l generalizing p with
  | nil => exact ⟨hp, rfl, rfl, by simp⟩
  | cons w l ih =>
    have hw := hfits w List.mem_cons_self
    have hkeeps := keeps hp hw
    obtain ⟨hsane, hapart, hown, hshown⟩ := ih (hkeeps.sane hp hw)
      (fun v hv => hkeeps.fits hp (hfits v (List.mem_cons_of_mem w hv))
        (hsame v (List.mem_cons_of_mem w hv) w List.mem_cons_self))
      fun v hv v' hv' => hsame v (List.mem_cons_of_mem w hv) v' (List.mem_cons_of_mem w hv')
    refine ⟨hsane, hapart.trans hkeeps.apart, hown.trans hkeeps.own, fun b' q => ?_⟩
    rw [List.foldl_cons, hshown, hkeeps.shown, List.exists_mem_cons_iff, or_assoc, and_or_left]

/-! ### What holds in a run -/

/-- What changes no span and no end stays sane. -/
theorem Sane.edit (hp : Sane made device p) (hlater : Later p p') (hcells : p'.cells = p.cells)
    (hwrites : p'.writes = p.writes) (hholds : p'.holds = p.holds)
    (hown : ∀ b, ∀ w ∈ p.writes b, ∀ i < (made b).size, ∀ x, p'.own b i = some x →
      ¬Straddles p.cells.ends w x.2)
    (hholders : ∀ d, ∀ e ∈ p'.histories d, ∀ h ∈ e.2.holders,
      h.made ≤ p'.order ∧ (h.made : ℕ∞) < h.gone) :
    Sane made device p' :=
  hp.later hlater hwrites hown
    (fun stop n h => (hp.ended stop n (hcells ▸ h)).imp_right fun h => h.trans hlater.order_le)
    (by rw [hcells]; exact hp.fresh) hholders (by rw [hcells, hholds]; exact hp.held)

theorem Holds.of_sane (h : Sane made device p') (hp : Holds made device p)
    (hwrites : p'.writes = p.writes) (hapart : p'.apart = p.apart) : Holds made device p' :=
  ⟨h, fun b q => by
    unfold Shown
    rw [hwrites, hapart]
    exact hp.shown b q⟩

/-- The states of the IDs change: each was there, is made now, or was live and goes now. -/
theorem Holds.grow (hp : Holds made device p) (hcells : p'.cells = p.cells)
    (hwrites : p'.writes = p.writes) (hholds : p'.holds = p.holds) (hapart : p'.apart = p.apart)
    (hown : p'.own = p.own) (horder : p'.order = p.order + 1)
    (hnew : ∀ d, ∀ e ∈ p'.histories d, ∀ h ∈ e.2.holders,
      (h.made = p.order + 1 ∧ h.gone = ⊤) ∨ ∃ e' ∈ p.histories d, ∃ h' ∈ e'.2.holders,
        h = h' ∨ h'.gone = ⊤ ∧ h = { h' with gone := ((p.order + 1 : ℕ) : ℕ∞) }) :
    Holds made device p' := by
  have hsucc : (p.order : ℕ∞) < (p.order + 1 : ℕ) := Nat.cast_lt.mpr (Nat.lt_succ_self _)
  refine .of_sane (hp.edit ⟨by omega, by rw [hcells], fun _ _ => by rw [hcells],
    fun d e he h hh => ?later⟩ hcells hwrites hholds (fun b w hw i hi x hx => ?own)
    fun d e he h hh => ?holders) hp hwrites hapart
  case later =>
    rcases hnew d e he h hh with ⟨hmade, -⟩ | ⟨e', he', h', hh', rfl | ⟨hlive, rfl⟩⟩
    · exact .inl (by omega)
    · exact .inr ⟨e', he', h, hh', rfl, .inl rfl⟩
    · exact .inr ⟨e', he', h', hh', rfl, .inr ⟨hlive, hsucc⟩⟩
  case own =>
    rw [hown] at hx
    exact (hp.windows b w hw).unsplit hi hx
  case holders =>
    rcases hnew d e he h hh with ⟨hmade, hlive⟩ | ⟨e', he', h', hh', rfl | ⟨-, rfl⟩⟩
    · exact ⟨by omega, hlive ▸ WithTop.natCast_lt_top _⟩
    · obtain ⟨hmade, hgone⟩ := hp.holders d e' he' h hh'
      exact ⟨by omega, hgone⟩
    · have hmade := (hp.holders d e' he' h' hh').1
      exact ⟨by dsimp only; omega, (Nat.cast_le.mpr hmade).trans_lt hsucc⟩

theorem mem_alter {l : List (UInt64 × History)} {id : UInt64} {f : History → History}
    {e : UInt64 × History} (h : e ∈ alter l id f) :
    e ∈ l ∨ ∃ history, ((id, history) ∈ l ∨ history = ⟨[], (0 : ℕ)⟩) ∧ e = (id, f history) := by
  unfold alter at h
  split_ifs at h
  · obtain ⟨e', he', rfl⟩ := List.mem_map.mp h
    split_ifs with hid
    · exact .inr ⟨e'.2, .inl (hid ▸ he'), by rw [hid]⟩
    · exact .inl he'
  · rcases List.mem_append.mp h with h | h
    · exact .inl h
    · exact .inr ⟨_, .inr rfl, List.mem_singleton.mp h⟩

theorem mem_nextOf {h : History} {identifier : UInt64} {now : ℕ} {x : Holder}
    (hx : x ∈ (h.nextOf identifier now).holders) : x ∈ h.holders ∨ x = ⟨identifier, now, ⊤⟩ := by
  have hx : x ∈ h.holders ++ [⟨identifier, now, ⊤⟩] := by
    unfold History.nextOf at hx
    dsimp only at hx
    split_ifs at hx
    · exact hx
    · exact List.mem_of_mem_eraseIdx hx
    · exact List.mem_of_mem_eraseIdx hx
  exact (List.mem_append.mp hx).imp_right List.mem_singleton.mp

theorem mem_released {h : History} {identifier : UInt64} {now : ℕ} {x : Holder}
    (hx : x ∈ (h.released identifier now).holders) :
    x ∈ h.holders ∨ ∃ y ∈ h.holders, y.identifier = identifier ∧ x = { y with gone := now } := by
  unfold History.released at hx
  split at hx
  · exact .inl hx
  next i hi =>
    obtain ⟨hlt, hid, -⟩ := List.findIdx?_eq_some_iff_getElem.mp hi
    obtain ⟨k, hk, rfl⟩ := List.mem_iff_getElem.mp hx
    dsimp only at hk ⊢
    rw [List.getElem_modify]
    split_ifs with hik
    · subst hik
      exact .inr ⟨_, List.getElem_mem hlt, of_decide_eq_true hid, rfl⟩
    · exact .inl (List.getElem_mem _)

section

variable [DecidableEq δ]

theorem Holds.makes (hp : Holds made device p) (d : δ) (id : UInt64)
    (f : History → History) (hf : ∀ h, ∀ x ∈ (f h).holders,
      x ∈ h.holders ∨ (x.made = p.order + 1 ∧ x.gone = ⊤)) (identifiers : ℕ) :
    Holds made device { p with
      identifiers
      order := p.order + 1
      histories := Function.update p.histories d (alter (p.histories d) id f) } := by
  refine hp.grow rfl rfl rfl rfl rfl rfl fun d' e he h hh => ?_
  have hkept (he : e ∈ p.histories d') : ∃ e' ∈ p.histories d', ∃ h' ∈ e'.2.holders,
      h = h' ∨ h'.gone = ⊤ ∧ h = { h' with gone := ((p.order + 1 : ℕ) : ℕ∞) } :=
    ⟨e, he, h, hh, .inl rfl⟩
  rcases mem_update he with he | ⟨rfl, he⟩
  · exact .inr (hkept he)
  · rcases mem_alter he with he | ⟨history, hhistory, rfl⟩
    · exact .inr (hkept he)
    · rcases hf history h hh with hold | hnew
      · rcases hhistory with hmem | rfl
        · exact .inr ⟨_, hmem, h, hold, .inl rfl⟩
        · exact absurd hold List.not_mem_nil
      · exact .inl hnew

theorem Holds.releases (hp : Holds made device p) (d : δ) (id identifier : UInt64)
    (hlive : ∀ e ∈ p.histories d, e.1 = id → ∀ h ∈ e.2.holders, h.identifier = identifier → h.gone = ⊤) :
    Holds made device { p with
      order := p.order + 1
      histories := Function.update p.histories d ((p.histories d).map fun e =>
        if e.1 = id then (e.1, e.2.released identifier (p.order + 1)) else e) } := by
  refine hp.grow rfl rfl rfl rfl rfl rfl fun d' e he h hh => .inr ?_
  rcases mem_update he with he | ⟨rfl, he⟩
  · exact ⟨e, he, h, hh, .inl rfl⟩
  · obtain ⟨e', he', rfl⟩ := List.mem_map.mp he
    split_ifs at hh with hid
    · rcases mem_released hh with hold | ⟨y, hy, hidentifier, rfl⟩
      · exact ⟨e', he', h, hold, .inl rfl⟩
      · exact ⟨e', he', y, hy, .inr ⟨hlive e' he' hid y hy hidentifier, rfl⟩⟩
    · exact ⟨e', he', h, hh, .inl rfl⟩

end

section

variable [DecidableEq β]

theorem own_setSides (s : Sides) (b' : β) (i : ℕ) :
    (p.setSides b s).own b' i = if b' = b then s.own i else p.own b' i := by
  unfold own setSides
  dsimp only
  by_cases hb : b' = b
  · rw [if_pos hb, hb, Function.update_self]
  · rw [if_neg hb, Function.update_of_ne hb]

/-- Sets by core or by a blit, which no span straddles. -/
theorem Sane.setSides (hp : Sane made device p) {s : Sides} {now : ℕ} (hnow : p.order ≤ now)
    (hown : ∀ w ∈ p.writes b, ∀ i < (made b).size, ∀ x, s.own i = some x →
      ¬Straddles p.cells.ends w x.2) : Sane made device { p.setSides b s with order := now } := by
  refine hp.edit (.of_eq rfl rfl hnow) rfl rfl rfl (fun b' w hw i hi x hx => ?_) fun d e he h hh =>
    (hp.holders d e he h hh).imp_left fun h => h.trans hnow
  replace hx : (p.setSides b s).own b' i = some x := hx
  rw [own_setSides] at hx
  split_ifs at hx with hb
  · subst hb
    exact hown w hw i hi x hx
  · exact (hp.windows b' w hw).unsplit hi hx

theorem Holds.sets (hp : Holds made device p) {index : ℕ} {set : Setter} {now : ℕ}
    (hnow : p.order ≤ now) (hset : ∀ s, (set.edit s).own = s.own ∨
      ∀ x, (set.edit s).own = some x → p.order ≤ x.2) :
    Holds made device { p.setCommand b index set with order := now } := by
  refine .of_sane (hp.setSides hnow fun w hw i hi x hx => ?_) hp rfl rfl
  have hfits := hp.windows b w hw
  rw [Sides.own_put, Option.getD_some] at hx
  by_cases hindex : i = index
  · subst hindex
    rw [Function.update_self] at hx
    replace hx : (set.edit ((p.sides b).get i)).own = some x := hx
    rcases hset ((p.sides b).get i) with hsame | hlater
    · rw [hsame] at hx
      exact hfits.unsplit hi hx
    · exact hfits.not_straddles hp.toSane (hlater x hx)
  · rw [Function.update_of_ne hindex] at hx
    exact hfits.unsplit hi hx

theorem Holds.resets (hp : Holds made device p) {commands : Indices} (failed : Bool)
    (hrange : commands.stop ≤ 2 ^ 32) :
    Holds made device (p.setSides b (if failed then (p.sides b).mayClear commands
      else (p.sides b).clear commands)) := by
  refine .of_sane (hp.setSides le_rfl fun w hw i hi x hx => (hp.windows b w hw).unsplit hi ?_) hp rfl rfl
  split_ifs at hx
  · rwa [Sides.own_mayClear] at hx
  · rw [Sides.own_clear _ hrange] at hx
    dsimp only at hx
    split_ifs at hx
    exact hx

end

/-- The cells of a list end one after another. -/
structure Ended (p : Names β δ) (l : List ℕ) (p' : Names β δ) : Prop where
  order_le : p.order ≤ p'.order
  count : p'.cells.count = p.cells.count
  kept : ∀ stop, stop ∉ l → p'.cells.ends stop = p.cells.ends stop
  closed : ∀ stop ∈ l, ∃ n : ℕ, p'.cells.ends stop = n ∧ p.order < n ∧ n ≤ p'.order
  histories : p'.histories = p.histories
  own : p'.own = p.own
  writes : p'.writes = p.writes
  apart : p'.apart = p.apart
  holds : p'.holds = p.holds

theorem ended_foldl (p : Names β δ) (l : List ℕ) :
    Ended p l (l.foldl (fun p stop => { p with
      order := p.order + 1
      cells := { p.cells with ends := Function.update p.cells.ends stop ((p.order + 1 : ℕ)) } }) p) := by
  induction l generalizing p with
  | nil => exact ⟨le_rfl, rfl, fun _ _ => rfl, nofun, rfl, rfl, rfl, rfl, rfl⟩
  | cons s l ih =>
    obtain ⟨hle, hcount, hkept, hclosed, hhistories, hown, hwrites, hapart, hholds⟩ := ih { p with
      order := p.order + 1
      cells := { p.cells with ends := Function.update p.cells.ends s ((p.order + 1 : ℕ)) } }
    rw [List.foldl_cons]
    refine ⟨(Nat.le_succ _).trans hle, hcount, fun stop hstop => ?kept, fun stop hstop => ?closed,
      hhistories, hown, hwrites, hapart, hholds⟩
    case kept =>
      rw [List.mem_cons, not_or] at hstop
      rw [hkept stop hstop.2]
      exact Function.update_of_ne hstop.1 _ _
    case closed =>
      by_cases hl : stop ∈ l
      · obtain ⟨n, hn, hlt, hle⟩ := hclosed stop hl
        exact ⟨n, hn, (Nat.lt_succ_self _).trans hlt, hle⟩
      · obtain rfl := (List.mem_cons.mp hstop).resolve_right hl
        exact ⟨p.order + 1, (hkept stop hl).trans (Function.update_self _ _ _), Nat.lt_succ_self _, hle⟩

/-- The cells of a command buffer end, which were open. -/
theorem Holds.ends (hp : Holds made device p) (c : ℕ) : Holds made device (p.ends c) := by
  have h := ended_foldl p (p.holds c)
  unfold Names.ends
  dsimp only
  generalize (p.holds c).foldl _ p = closed at h
  have hopen (stop : ℕ) (hstop : p.cells.ends stop ≠ ⊤) : stop ∉ p.holds c :=
    fun hmem => hstop (hp.held c stop hmem).2.1
  refine .of_sane (hp.later ⟨h.order_le, h.count.ge, fun stop hstop => h.kept stop (hopen stop hstop),
    fun d e he x hx => ?later⟩ h.writes (fun b' w hw i hi x hx => ?own) (fun stop n hn => ?ended)
    (fun stop hstop => ?fresh) ?holders fun c' s hs => ?held) hp h.writes h.apart
  case later =>
    replace he : e ∈ closed.histories d := he
    rw [h.histories] at he
    exact .inr ⟨e, he, x, hx, rfl, .inl rfl⟩
  case own =>
    replace hx : closed.own b' i = some x := hx
    rw [h.own] at hx
    exact (hp.windows b' w hw).unsplit hi hx
  case ended =>
    dsimp only at hn ⊢
    by_cases hmem : stop ∈ p.holds c
    · obtain ⟨k, hk, hlt, hle⟩ := h.closed stop hmem
      rw [hk, Nat.cast_inj] at hn
      omega
    · rw [h.kept stop hmem] at hn
      exact (hp.ended stop n hn).imp_right fun hn => hn.trans h.order_le
  case fresh =>
    dsimp only at hstop ⊢
    rw [h.count] at hstop
    rw [h.kept stop fun hmem => (hp.held c stop hmem).1.not_ge hstop]
    exact hp.fresh stop hstop
  case holders =>
    dsimp only
    rw [h.histories]
    exact fun d e he x hx => (hp.holders d e he x hx).imp_left fun hle => hle.trans h.order_le
  case held =>
    dsimp only at hs ⊢
    rw [h.holds] at hs ⊢
    by_cases hc : c' = c
    · subst hc
      rw [Function.update_self] at hs
      exact absurd hs List.not_mem_nil
    · rw [Function.update_of_ne hc] at hs
      obtain ⟨hlt, hlive, hown⟩ := hp.held c' s hs
      refine ⟨h.count ▸ hlt, (h.kept s fun hmem => hc (hown c hmem).symm).trans hlive, fun d hd => ?_⟩
      by_cases hdc : d = c
      · subst hdc
        rw [Function.update_self] at hd
        exact absurd hd List.not_mem_nil
      · rw [Function.update_of_ne hdc] at hd
        exact hown d hd

/-- A copy brings no set that lies between the ends of what a span of its destination was joined of, and
no span that a set of its destination, if it is left there, lies so in. -/
def Clear (made : β → Made) (p : Names β δ) : NameEvent β δ → Prop
  | .copied source commands destination into failed =>
    (∀ w ∈ p.writes source, ∀ j < (made destination).size,
      (failed = false → ¬(into ≤ j ∧ j < into + commands.count)) →
        ∀ x, p.own destination j = some x → ¬Straddles p.cells.ends w x.2) ∧
      (failed = false → ∀ w ∈ p.writes destination, ∀ i ∈ commands, ∀ x, p.own source i = some x →
        ¬Straddles p.cells.ends w x.2)
  | _ => True

/-- A span fits a buffer of the same device whose sets it straddles none of. -/
theorem Fits.moved {b' : β} (h : Fits made device p b w) (hdevice : device b = device b')
    (hown : ∀ i < (made b').size, ∀ x, p.own b' i = some x → ¬Straddles p.cells.ends w x.2) :
    Fits made device p b' w :=
  ⟨h.stop_lt, h.start_le, h.alone_or.imp_right fun h => ⟨hdevice ▸ h.toCovers, h.ended, hown⟩, h.unique⟩

section

variable [DecidableEq β]

theorem Holds.mayBeWritten (hp : Holds made device p) (c : ℕ) (b : β) :
    Holds made device (p.mayBeWritten made device c b) := by
  unfold Names.mayBeWritten
  split_ifs
  · exact hp
  dsimp only
  generalize hopened : ({ p with
    order := p.order + 1
    cells := p.cells.new ⊤
    apart := Function.update p.apart b (p.apart b ++ [⟨p.order + 1, p.cells.count, c⟩])
    holds := Function.update p.holds c (p.holds c ++ [p.cells.count]) } : Names β δ) = opened
  have hends : opened.cells.ends = p.cells.ends := by
    rw [← hopened]
    exact Function.update_eq_self_iff.mpr (hp.fresh _ le_rfl).symm
  have hcount : opened.cells.count = p.cells.count + 1 := by rw [← hopened, Cells.new]
  have horder : opened.order = p.order + 1 := by rw [← hopened]
  have hwrites : opened.writes = p.writes := by rw [← hopened]
  have hsane : Sane made device opened := by
    refine hp.later ⟨by omega, by omega, fun stop _ => by rw [hends], fun d e he h hh => ?later⟩ hwrites
      (fun b' w hw i hi x hx => ?own) (fun stop n hn => ?ended) (fun stop hstop => ?fresh)
      (fun d e he h hh => ?holders) fun c' s hs => ?held
    case later =>
      subst hopened
      exact .inr ⟨e, he, h, hh, rfl, .inl rfl⟩
    case own =>
      subst hopened
      exact (hp.windows b' w hw).unsplit hi hx
    case ended =>
      rw [hends] at hn
      have hn := hp.ended stop n hn
      omega
    case fresh =>
      rw [hends]
      exact hp.fresh stop (by omega)
    case holders =>
      subst hopened
      exact (hp.holders d e he h hh).imp_left fun hle => hle.trans (Nat.le_succ _)
    case held =>
      have hnew (c' : ℕ) (s : ℕ) (hs : s ∈ opened.holds c') :
          s ∈ p.holds c' ∨ c' = c ∧ s = p.cells.count := by
        subst hopened
        rcases mem_update hs with hs | ⟨rfl, hs⟩
        · exact .inl hs
        · exact (List.mem_append.mp hs).imp_right fun hs => ⟨rfl, List.mem_singleton.mp hs⟩
      rw [hends, hcount]
      rcases hnew c' s hs with hs | ⟨rfl, rfl⟩
      · obtain ⟨hlt, hlive, hown⟩ := hp.held c' s hs
        refine ⟨hlt.trans (Nat.lt_succ_self _), hlive, fun d hd => ?_⟩
        rcases hnew d s hd with hd | ⟨-, rfl⟩
        · exact hown d hd
        · exact absurd hlt (lt_irrefl _)
      · refine ⟨Nat.lt_succ_self _, hp.fresh _ le_rfl, fun d hd => ?_⟩
        rcases hnew d _ hd with hd | ⟨rfl, -⟩
        · exact absurd (hp.held d _ hd).1 (lt_irrefl _)
        · rfl
  have hfits : Fits made device opened b
      ⟨p.order + 1, p.cells.count, some c, [⟨p.order + 1, p.cells.count, c⟩]⟩ := by
    refine ⟨hcount ▸ Nat.lt_succ_self _, fun q hq => ?_, .inl ⟨c, rfl⟩, fun b' w hw hstop => ?_⟩
    · rw [List.mem_singleton.mp hq, horder]
    · rw [hwrites] at hw
      exact absurd hstop (hp.windows b' w hw).stop_lt.ne
  have hkeeps := keeps hsane hfits
  refine ⟨hkeeps.sane hsane hfits, fun b' q => ?_⟩
  have hshown : opened.Shown b' q ↔ p.Shown b' q := by
    unfold Shown
    rw [hwrites]
  rw [hkeeps.shown, hkeeps.apart, hshown, ← hp.shown, List.mem_singleton, ← hopened]
  dsimp only
  by_cases hb : b' = b
  · subst hb
    rw [Function.update_self, List.mem_append, List.mem_singleton, eq_self_iff_true, true_and]
  · rw [Function.update_of_ne hb, or_iff_left fun h => hb h.1]

theorem Holds.carry {source destination : β} (hp : Holds made device p)
    (hfits : ∀ w ∈ p.writes source, Fits made device p destination w) :
    Holds made device (p.carry made device source destination) := by
  obtain ⟨hsane, hapart, -, hshown⟩ := hp.toSane.foldl_keep (p.writes source) hfits
    fun w hw w' hw' hstop => (hp.windows source w' hw').unique source w hw hstop
  unfold Names.carry
  dsimp only
  generalize (p.writes source).foldl _ p = carried at hsane hapart hshown
  refine ⟨hsane.edit (.of_eq rfl rfl le_rfl) rfl rfl rfl
    (fun b w hw i hi x hx => (hsane.windows b w hw).unsplit hi hx) hsane.holders, fun b q => ?_⟩
  have hsame : Shown { carried with
      apart := Function.update p.apart destination (p.apart destination ++ p.apart source) } b q ↔
        carried.Shown b q := Iff.rfl
  rw [hsame, hshown, ← hp.shown]
  dsimp only
  by_cases hb : b = destination
  · subst hb
    rw [Function.update_self, List.mem_append, hp.shown source, eq_self_iff_true, true_and, Shown]
  · rw [Function.update_of_ne hb, or_iff_left fun h => hb h.1]

theorem Holds.copied {source destination : β} {commands : Indices} {into : ℕ} {failed : Bool}
    (hp : Holds made device p) (hdevice : device source = device destination)
    (hsource : commands.stop ≤ (made source).size)
    (hinto : into + commands.count ≤ (made destination).size)
    (hclear : p.Clear made (.copied source commands destination into failed)) :
    Holds made device ((p.setSides destination (if failed then
      (p.sides destination).unsettle commands.start into ((p.sides source).copies commands)
      else (p.sides destination).take commands.start into ((p.sides source).copies commands))).carry
        made device source destination) := by
  obtain ⟨hstay, hbring⟩ := hclear
  generalize hs : (if failed then
    (p.sides destination).unsettle commands.start into ((p.sides source).copies commands)
    else (p.sides destination).take commands.start into ((p.sides source).copies commands)) = s
  -- A set that the destination has then is one it keeps, or one of the source's commands.
  have hown (j : ℕ) (x : SetPipeline × ℕ) (hx : s.own j = some x) :
      ((failed = false → ¬(into ≤ j ∧ j < into + commands.count)) ∧ p.own destination j = some x) ∨
        failed = false ∧ ∃ i ∈ commands, p.own source i = some x := by
    cases failed with
    | true =>
      rw [if_pos rfl] at hs
      rw [← hs, Sides.own_unsettle] at hx
      exact .inl ⟨nofun, hx⟩
    | false =>
      rw [if_neg Bool.false_ne_true] at hs
      rw [← hs, Sides.own_take _ _ (hsource.trans (made source).size_le)
        (hinto.trans (made destination).size_le)] at hx
      dsimp only at hx
      split_ifs at hx with hj
      · refine .inr ⟨rfl, commands.start + (j - into), ⟨Nat.le_add_right _ _, ?_⟩, hx⟩
        have hle := commands.le
        have hlt := hj.2
        unfold Indices.count at hlt
        omega
      · exact .inl ⟨fun _ => hj, hx⟩
  have hlanded : Holds made device (p.setSides destination s) := by
    refine .of_sane (hp.setSides le_rfl fun w hw j hj x hx => ?_) hp rfl rfl
    rcases hown j x hx with ⟨-, hx⟩ | ⟨hcompleted, i, hi, hx⟩
    · exact (hp.windows destination w hw).unsplit hj hx
    · exact hbring hcompleted w hw i hi x hx
  refine hlanded.carry fun w hw => (hlanded.windows source w hw).moved hdevice fun j hj x hx => ?_
  rw [own_setSides, if_pos rfl] at hx
  rcases hown j x hx with ⟨hkept, hx⟩ | ⟨-, i, hi, hx⟩
  · exact hstay w hw j hj hkept x hx
  · exact (hp.windows source w hw).unsplit (hi.2.trans_le hsource) hx

end

theorem Holds.init : Holds made device ({} : Names β δ) :=
  ⟨⟨nofun, fun _ _ h => absurd h.symm (ENat.natCast_ne_top _), fun _ _ => rfl, nofun, nofun⟩,
    fun _ _ => ⟨nofun, nofun⟩⟩

/-- The spans that a buffer keeps name what all of them apart name. -/
theorem Holds.named_eq (hp : Holds made device p) (b : β) {i : ℕ} (hi : i < (made b).size)
    (id : UInt64) : p.named device b i id = p.namedApart device b i id := by
  refine namedState_eq (fun w hw q hq => (hp.shown b q).mpr ⟨w, hw, hq⟩)
    (fun q hq => (hp.shown b q).mp hq) (fun w hw => (hp.windows b w hw).covers) (fun stop => ?_)
    (fun w hw x hx => (hp.windows b w hw).unsplit hi hx) id
  by_cases hopen : p.cells.ends stop = ⊤
  · rw [hopen]
    exact WithTop.natCast_lt_top 0
  · obtain ⟨n, hn⟩ := ENat.ne_top_iff_exists.mp hopen
    rw [← hn]
    exact Nat.cast_lt.mpr (hp.ended stop n hn.symm).1

section

variable [DecidableEq β] [DecidableEq δ]

theorem Holds.step (hp : Holds made device p) {e : NameEvent β δ}
    (hs : p.step made device e = some p') (hclear : p.Clear made e) : Holds made device p' := by
  cases e with
  | makes d id =>
    rw [Names.step] at hs
    dsimp only at hs
    split_ifs at hs <;> obtain rfl := Option.some.inj hs
    · exact .of_sane (hp.edit (.of_eq rfl rfl le_rfl) rfl rfl rfl
        (fun b w hw i hi x hx => (hp.windows b w hw).unsplit hi hx) hp.holders) hp rfl rfl
    · refine hp.makes d id _ (fun h x hx => (mem_nextOf hx).imp_right ?_) _
      rintro rfl
      exact ⟨rfl, rfl⟩
  | releases d id identifier =>
    rw [Names.step] at hs
    split_ifs at hs with hid hgone <;> obtain rfl := Option.some.inj hs
    · exact hp
    · refine hp.releases d id identifier fun e he hid h hh hidentifier => ?_
      by_contra hlive
      refine hgone (List.any_eq_true.mpr ⟨e, he, ?_⟩)
      rw [Bool.and_eq_true, decide_eq_true_eq, List.any_eq_true]
      exact ⟨hid, h, hh, by rw [Bool.and_eq_true, decide_eq_true_eq, decide_eq_true_eq]
                            exact ⟨hidentifier, hlive⟩⟩
  | sets b index setter =>
    cases setter with
    | pipeline state now =>
      obtain ⟨⟨-, rfl⟩, hs⟩ := Option.ite_none_right_eq_some.mp hs
      obtain rfl := Option.some.inj hs
      refine hp.sets (Nat.le_succ _) fun s => .inr fun x hx => ?_
      obtain rfl := Option.some.inj hx
      exact Nat.le_succ _
    | slot | length =>
      obtain ⟨-, hs⟩ := Option.ite_none_right_eq_some.mp hs
      obtain rfl := Option.some.inj hs
      exact hp.sets le_rfl fun s => .inl rfl
    | reset =>
      obtain ⟨-, hs⟩ := Option.ite_none_right_eq_some.mp hs
      obtain rfl := Option.some.inj hs
      exact hp.sets le_rfl fun s => .inr nofun
  | resets b commands failed =>
    rw [Names.step] at hs
    split_ifs at hs with hrange <;> obtain rfl := Option.some.inj hs
    · exact hp.resets true (hrange.trans (made b).size_le)
    · exact hp.resets false (hrange.trans (made b).size_le)
  | mayBeWritten c b =>
    obtain rfl := Option.some.inj hs
    exact hp.mayBeWritten c b
  | ends c =>
    obtain rfl := Option.some.inj hs
    exact hp.ends c
  | copied source commands destination into failed =>
    obtain ⟨⟨hdevice, hsource, hinto⟩, hs⟩ := Option.ite_none_right_eq_some.mp hs
    obtain rfl := Option.some.inj hs
    exact hp.copied hdevice hsource hinto hclear

/-- **In every run whose copies bring no set from between the ends of joined spans, nor spans joined
around a set, each record of each buffer names, at every moment, by the spans kept what it names by all
of them apart.** -/
theorem named_eq_of_execution {events : List (NameEvent β δ)}
    (h : Execution (fun p e p' => p.step made device e = some p' ∧ p.Clear made e) {} events p)
    (b : β) {i : ℕ} (hi : i < (made b).size) (id : UInt64) :
    p.named device b i id = p.namedApart device b i id :=
  (h.invariant Holds.init fun _ _ _ hp hs => hp.step hs.1 hs.2).named_eq b hi id

end

/-- A buffer of one command. -/
def oneCommand : Made := ⟨1, none, by decide⟩

/-- A set, and a copy of its command to a buffer that the GPU may have written. -/
theorem named_eq_of_copied_set : ∃ p : Names Bool Unit,
    p.own true 0 = some (⟨5, 1⟩, 2) ∧ (p.writes true).length = 1 ∧
      p.named (fun _ => ()) true 0 5 = p.namedApart (fun _ => ()) true 0 5 :=
  ⟨_, rfl, rfl, @named_eq_of_execution Bool Unit (fun _ => oneCommand) _ _ _ _ _
    (.snoc (.snoc (.snoc (.snoc (.snoc (.nil _) ⟨(rfl : Names.step _ _ _ (.makes () 5) = _), trivial⟩)
      ⟨(rfl : Names.step _ _ _ (.sets false 0 (.pipeline ⟨5, 1⟩ 2)) = _), trivial⟩)
      ⟨(rfl : Names.step _ _ _ (.mayBeWritten 0 true) = _), trivial⟩)
      ⟨(rfl : Names.step _ _ _ (.ends 0) = _), trivial⟩)
      ⟨(rfl : Names.step _ _ _ (.copied false ⟨0, 1, Nat.zero_le _⟩ true 0 false) = _),
        nofun, fun _ w hw i hi x hx =>
          Window.Alone.not_straddles ⟨0, by rw [List.mem_singleton.mp hw]⟩ x.2⟩)
    true 0 Nat.zero_lt_one 5⟩

theorem firstCommand_le : 0 ≤ 1 := Nat.zero_le 1

/-- The span of a first command buffer, in which a state holds the ID, and the span of a second, in which
another does, are joined past the spans kept. A copy then brings a command that core set in between. -/
def copiedSet : List (NameEvent Bool Unit) :=
  [.makes () 5, .mayBeWritten 0 true, .ends 0, .releases () 5 1, .makes () 5,
    .sets false 0 (.pipeline ⟨5, 2⟩ 6), .mayBeWritten 1 true, .ends 1] ++
    (List.range 63).map (fun c => .mayBeWritten (c + 2) true) ++
    [.copied false ⟨0, 1, firstCommand_le⟩ true 0 false]

set_option maxRecDepth 10000 in
/-- The spans apart name the state that core set, and the joined one two. -/
theorem copied_set_several : ∃ p : Names Bool Unit,
    Execution (fun p e p' => p.step (fun _ => oneCommand) (fun _ => ()) e = some p') {} copiedSet p ∧
      p.named (fun _ => ()) true 0 5 = .error .several ∧ p.namedApart (fun _ => ()) true 0 5 = .ok 2 := by
  have hnames : (copiedSet.foldlM (Names.step (fun _ => oneCommand) fun _ => ()) {}).map
      (fun p => (p.named (fun _ => ()) true 0 5, p.namedApart (fun _ => ()) true 0 5)) =
      some (.error .several, .ok 2) := by
    decide +kernel
  obtain ⟨p, hrun, hnames⟩ := Option.map_eq_some_iff.mp hnames
  exact ⟨p, Execution.of_foldlM_option _ _ hrun, Prod.mk.inj hnames⟩

end Names

end ReimsVgpu.Gpu.Icb
