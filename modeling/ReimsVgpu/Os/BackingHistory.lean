import Mathlib.Data.List.Count
import ReimsVgpu.Library.Execution
import ReimsVgpu.Os.BackingMappings

/-!
# Histories of the backing table

The table beside a reference that keeps, for each byte, what was last recorded there and not
forgotten since, and the live registrations in the order they became live. After every history of
ranges recorded, forgotten and protected and of registrations made and dropped, the table says what the
reference says, and counts the kernel's mappings.

## Main definitions

* `Reference`: what each byte shows, by its history.
* `Event`, `Books`, `Books.Step`: the calls on the table, and their effect on both sides.
* `Books.Kept`: the table and the reference agree.
* `Books.Sane`: what the table owes its callers.

## Main results

* `Books.sane_of_execution`: after every history.
-/

namespace ReimsVgpu.Os

/-- A registration as its holder knows it. -/
structure Handle (φ : Type*) where
  first : ℕ
  stop : ℕ
  backing : Backing φ
deriving DecidableEq

variable {φ : Type*}

/-- What a byte of a registration shows. -/
def Handle.shown (h : Handle φ) (x : ℕ) : Shown φ :=
  ⟨h.backing.fd, h.backing.offset + UInt64.ofNat (x - h.first), protReadWrite⟩

/-- The registration that an entry of the table counts. -/
def Registered.handle (r : Registered φ) : Handle φ := ⟨r.first, r.stop, r.backing⟩

/-- What each byte was last recorded to show and has not been forgotten since, the registrations live
in the order they became live, and the handles held. -/
structure Reference (φ : Type*) where
  recorded : ℕ → Option (Shown φ)
  live : List (Handle φ)
  handles : List (Handle φ)

namespace Reference

/-- Nothing recorded, nothing registered. -/
def empty : Reference φ where
  recorded _ := none
  live := []
  handles := []

/-- The first live registration that holds the byte. -/
def registeredAt (r : Reference φ) (x : ℕ) : Option (Handle φ) :=
  r.live.find? fun h => decide (h.first ≤ x ∧ x < h.stop)

/-- What a byte shows. -/
def fileAt (r : Reference φ) (x : ℕ) : Option (Shown φ) :=
  r.recorded x <|> (r.registeredAt x).map fun h => h.shown x

/-- The bytes of a range changed. -/
def update (r : Reference φ) (first stop : ℕ) (shown : ℕ → Option (Shown φ)) : Reference φ :=
  { r with recorded := fun x => if first ≤ x ∧ x < stop then shown x else r.recorded x }

variable [DecidableEq φ]

/-- A registration made is live from its first handle. -/
def register (r : Reference φ) (h : Handle φ) : Reference φ :=
  { r with
    live := if h ∈ r.live then r.live else r.live ++ [h]
    handles := h :: r.handles }

/-- A registration dropped is live until its last handle. -/
def unregister (r : Reference φ) (h : Handle φ) : Reference φ :=
  { r with
    live := if h ∈ r.handles.erase h then r.live else r.live.erase h
    handles := r.handles.erase h }

end Reference

/-- A call on the table. -/
inductive Event (φ : Type*)
  | record (first length : ℕ) (backing : Backing φ) (prot : ℤ)
  | forget (first length : ℕ)
  | protect (first length : ℕ) (prot : ℤ)
  | register (first length : ℕ) (backing : Backing φ)
  | unregister (h : Handle φ)

/-- The table, and the reference beside it. -/
structure Books (φ : Type*) where
  table : Table φ
  reference : Reference φ

variable [DecidableEq φ]

namespace Books

/-- No call yet. -/
def empty : Books φ := ⟨.empty, .empty⟩

/-- What a call does to both sides. -/
def step (b : Books φ) : Event φ → Books φ
  | .record first length backing prot =>
    ⟨b.table.record first (stopOf first length) backing prot,
      b.reference.update first (stopOf first length) fun x =>
        some ⟨backing.fd, backing.offset + UInt64.ofNat (x - first), prot⟩⟩
  | .forget first length =>
    ⟨b.table.forget first (stopOf first length),
      b.reference.update first (stopOf first length) fun _ => none⟩
  | .protect first length prot =>
    ⟨b.table.protect first (stopOf first length) prot,
      b.reference.update first (stopOf first length) fun x =>
        (b.reference.recorded x).map fun s => { s with prot }⟩
  | .register first length backing =>
    ⟨b.table.register first (stopOf first length) backing,
      b.reference.register ⟨first, stopOf first length, backing⟩⟩
  | .unregister h =>
    ⟨b.table.unregister h.first h.stop h.backing, b.reference.unregister h⟩

/-- A range recorded, forgotten or protected holds a byte, and a handle dropped is held. -/
def Allowed (b : Books φ) : Event φ → Prop
  | .record first length _ _ => first < stopOf first length
  | .forget first length => first < stopOf first length
  | .protect first length _ => first < stopOf first length
  | .register _ _ _ => True
  | .unregister h => h ∈ b.reference.handles

/-- A call made. -/
def Step (b : Books φ) (e : Event φ) (b' : Books φ) : Prop := b.Allowed e ∧ b' = b.step e

end Books

/-! ### Registrations -/

/-- The entries count the handles, in the order their registrations became live. -/
structure Registrations (registered : List (Registered φ)) (live handles : List (Handle φ)) :
    Prop where
  live_eq : registered.map Registered.handle = live
  nodup : live.Nodup
  count_eq : ∀ r ∈ registered, r.count = handles.count r.handle
  live_of_handle : ∀ h ∈ handles, h ∈ live
  stop_lt : ∀ h ∈ live, h.stop < 2 ^ 64

namespace Table

theorem updateFirst_eq {α : Type*} (p : α → Bool) (f : α → List α) (l : List α) :
    (updateFirst p f l = none ∧ ∀ a ∈ l, p a = false) ∨
      ∃ pre a post, l = pre ++ a :: post ∧ p a = true ∧
        updateFirst p f l = some (pre ++ (f a ++ post)) := by
  induction l with
  | nil => exact .inl ⟨rfl, fun a ha => absurd ha List.not_mem_nil⟩
  | cons a l ih =>
    rw [updateFirst]
    split_ifs with ha
    · exact .inr ⟨[], a, l, rfl, ha, rfl⟩
    · rcases ih with ⟨hnone, hall⟩ | ⟨pre, b, post, rfl, hb, hsome⟩
      · exact .inl ⟨by rw [hnone, Option.map_none],
          List.forall_mem_cons.mpr ⟨Bool.eq_false_of_not_eq_true ha, hall⟩⟩
      · exact .inr ⟨a :: pre, b, post, rfl, hb, by rw [hsome, Option.map_some]; rfl⟩

theorem isRegistered_iff {first stop : ℕ} {backing : Backing φ} {r : Registered φ} :
    isRegistered first stop backing r = true ↔ r.handle = ⟨first, stop, backing⟩ := by
  rw [isRegistered, Bool.and_eq_true, Bool.and_eq_true, decide_eq_true_eq, decide_eq_true_eq,
    decide_eq_true_eq, Registered.handle, Handle.mk.injEq, and_assoc]

end Table

namespace Registrations

variable {t : Table φ} {live handles : List (Handle φ)}

/-- A handle counted anew in the entry of its registration. -/
theorem replace {pre post : List (Registered φ)} {r r' : Registered φ} {handles' : List (Handle φ)}
    (h : Registrations (pre ++ r :: post) live handles) (hhandle : r'.handle = r.handle)
    (hcount : r'.count = handles'.count r.handle)
    (hother : ∀ k, k ≠ r.handle → handles'.count k = handles.count k)
    (hlive : ∀ k ∈ handles', k ∈ live) : Registrations (pre ++ r' :: post) live handles' := by
  have hkeys := h.live_eq
  rw [List.map_append, List.map_cons] at hkeys
  refine ⟨?_, h.nodup, fun s hs => ?_, hlive, h.stop_lt⟩
  · rw [List.map_append, List.map_cons, hhandle, hkeys]
  · have hne : s ∈ pre ∨ s ∈ post → s.handle ≠ r.handle := by
      intro hmem heq
      have hnodup := h.nodup
      rw [← hkeys] at hnodup
      have hnot := (List.nodup_middle.mp hnodup).notMem
      refine hnot (heq ▸ List.mem_append.mpr ?_)
      exact hmem.imp (List.mem_map_of_mem) (List.mem_map_of_mem)
    have hmem : s ∈ pre ∨ s = r' ∨ s ∈ post := by
      rwa [List.mem_append, List.mem_cons] at hs
    have hold : s ∈ pre ∨ s ∈ post → s.count = handles'.count s.handle := by
      intro hor
      rw [hother _ (hne hor)]
      exact h.count_eq s (List.mem_append.mpr (hor.imp_right (List.mem_cons_of_mem r)))
    rcases hmem with hpre | rfl | hpost
    · exact hold (.inl hpre)
    · rw [hhandle, hcount]
    · exact hold (.inr hpost)

theorem register (h : Registrations t.registered live handles) {first stop : ℕ}
    (hstop : stop < 2 ^ 64) (backing : Backing φ) :
    Registrations (t.register first stop backing).registered
      (if ⟨first, stop, backing⟩ ∈ live then live else live ++ [⟨first, stop, backing⟩])
      (⟨first, stop, backing⟩ :: handles) := by
  rw [Table.register]
  rcases Table.updateFirst_eq (Table.isRegistered first stop backing)
    (fun r => [{ r with count := r.count + 1 }]) t.registered with
    ⟨hnone, hall⟩ | ⟨pre, r, post, hreg, hr, hsome⟩
  · have hfresh : (⟨first, stop, backing⟩ : Handle φ) ∉ live := by
      rw [← h.live_eq, List.mem_map]
      rintro ⟨r, hr, hhandle⟩
      rw [← Table.isRegistered_iff, hall r hr] at hhandle
      cases hhandle
    rw [hnone, if_neg hfresh]
    refine ⟨?_, ?_, fun r hr => ?_, ?_, fun k hk => ?_⟩
    · rw [List.map_append, h.live_eq]
      rfl
    · rw [List.nodup_append_comm]
      exact List.nodup_cons.mpr ⟨hfresh, h.nodup⟩
    · rcases List.mem_append.mp hr with hr | hr
      · have hne : (⟨first, stop, backing⟩ : Handle φ) ≠ r.handle := by
          rintro heq
          exact hfresh (heq ▸ h.live_eq ▸ List.mem_map_of_mem hr)
        rw [List.count_cons_of_ne hne, h.count_eq r hr]
      · obtain rfl := List.mem_singleton.mp hr
        have hzero : handles.count ⟨first, stop, backing⟩ = 0 :=
          List.count_eq_zero_of_not_mem fun hmem => hfresh (h.live_of_handle _ hmem)
        change 1 = (_ :: handles).count (⟨first, stop, backing⟩ : Handle φ)
        rw [List.count_cons_self, hzero]
    · rintro k (_ | ⟨_, hk⟩)
      · exact List.mem_append_right _ (List.mem_singleton_self _)
      · exact List.mem_append_left _ (h.live_of_handle k hk)
    · rcases List.mem_append.mp hk with hk | hk
      · exact h.stop_lt k hk
      · rw [List.mem_singleton.mp hk]
        exact hstop
  · have hhandle := Table.isRegistered_iff.mp hr
    rw [hreg] at h
    have hmem : r.handle ∈ live :=
      h.live_eq ▸ List.mem_map_of_mem (List.mem_append_right pre List.mem_cons_self)
    rw [hsome, if_pos (hhandle ▸ hmem), ← hhandle]
    refine h.replace rfl ?_ (fun k hk => List.count_cons_of_ne hk.symm) ?_
    · rw [List.count_cons_self,
        ← h.count_eq r (List.mem_append_right pre List.mem_cons_self)]
    · rintro k (_ | ⟨_, hk⟩)
      · exact hmem
      · exact h.live_of_handle k hk

theorem unregister (h : Registrations t.registered live handles) {k : Handle φ}
    (hk : k ∈ handles) :
    Registrations (t.unregister k.first k.stop k.backing).registered
      (if k ∈ handles.erase k then live else live.erase k) (handles.erase k) := by
  rw [Table.unregister]
  rcases Table.updateFirst_eq (Table.isRegistered k.first k.stop k.backing)
    (fun r => if r.count - 1 = 0 then [] else [{ r with count := r.count - 1 }]) t.registered with
    ⟨-, hall⟩ | ⟨pre, r, post, hreg, hr, hsome⟩
  · have hlive := h.live_of_handle k hk
    rw [← h.live_eq, List.mem_map] at hlive
    obtain ⟨r, hr, hhandle⟩ := hlive
    have hfalse := hall r hr
    rw [Table.isRegistered_iff.mpr hhandle] at hfalse
    cases hfalse
  · obtain rfl : r.handle = k := Table.isRegistered_iff.mp hr
    rw [hreg] at h
    have hcount := h.count_eq r (List.mem_append_right pre List.mem_cons_self)
    have herase : (handles.erase r.handle).count r.handle = r.count - 1 := by
      rw [List.count_erase_self, hcount]
    have hother : ∀ k, k ≠ r.handle → (handles.erase r.handle).count k = handles.count k :=
      fun k hne => List.count_erase_of_ne hne
    rw [hsome]
    by_cases hlast : r.count - 1 = 0
    · have hgone : r.handle ∉ handles.erase r.handle :=
        List.count_eq_zero.mp (herase.trans hlast)
      have hkeys := h.live_eq
      rw [List.map_append, List.map_cons] at hkeys
      have hnodup := h.nodup
      rw [← hkeys] at hnodup
      have hnot := (List.nodup_middle.mp hnodup).notMem
      have herased : live.erase r.handle = (pre ++ post).map Registered.handle := by
        rw [← hkeys, List.erase_append_right _ fun hmem => hnot (List.mem_append_left _ hmem),
          List.erase_cons_head, List.map_append]
      rw [if_neg hgone, if_pos hlast, herased, List.nil_append]
      refine ⟨rfl, herased ▸ h.nodup.erase _, fun s hs => ?_, fun k' hk' => ?_, fun k' hk' => ?_⟩
      · have hne : s.handle ≠ r.handle := by
          rintro heq
          exact hnot (heq ▸ List.map_append ▸ List.mem_map_of_mem hs)
        have hmem : s ∈ pre ++ r :: post :=
          List.mem_append.mpr ((List.mem_append.mp hs).imp_right (List.mem_cons_of_mem r))
        rw [hother _ hne, h.count_eq s hmem]
      · rw [← herased]
        refine (List.mem_erase_of_ne ?_).mpr (h.live_of_handle k' (List.mem_of_mem_erase hk'))
        rintro rfl
        exact hgone hk'
      · rw [← herased] at hk'
        exact h.stop_lt k' (List.mem_of_mem_erase hk')
    · have hstays : r.handle ∈ handles.erase r.handle := by
        rw [← List.count_pos_iff, herase]
        exact Nat.pos_of_ne_zero hlast
      rw [if_pos hstays, if_neg hlast]
      exact h.replace rfl herase.symm hother fun k' hk' =>
        h.live_of_handle k' (List.mem_of_mem_erase hk')

end Registrations

namespace Table

theorem runs_register (t : Table φ) (first stop : ℕ) (backing : Backing φ) :
    (t.register first stop backing).runs = t.runs ∧
      (t.register first stop backing).joins = t.joins := by
  rw [Table.register]
  split <;> exact ⟨rfl, rfl⟩

theorem runs_unregister (t : Table φ) (first stop : ℕ) (backing : Backing φ) :
    (t.unregister first stop backing).runs = t.runs ∧
      (t.unregister first stop backing).joins = t.joins := by
  rw [Table.unregister]
  split <;> exact ⟨rfl, rfl⟩

/-- A table of the same runs counts and shows the same. -/
theorem Exact.congr {t t' : Table φ} (h : t.Exact) (hruns : t'.runs = t.runs ∧ t'.joins = t.joins) :
    t'.Exact ∧ ∀ x, t'.shownAt x = t.shownAt x := by
  obtain ⟨hruns, hjoins⟩ := hruns
  refine ⟨⟨hruns ▸ h.runs, ?_⟩, fun x => ?_⟩
  · rw [hjoins, hruns, h.joins]
  · rw [shownAt, shownAt, hruns]

end Table

/-! ### Both sides -/

namespace Books

variable {b b' : Books φ}

/-- The table and the reference agree. -/
structure Kept (b : Books φ) : Prop where
  exact : b.table.Exact
  shownAt_eq : ∀ x, b.table.shownAt x = b.reference.recorded x
  lt_of_recorded : ∀ x, b.reference.recorded x ≠ none → x + 1 < 2 ^ 64
  registrations :
    Registrations b.table.registered b.reference.live b.reference.handles

theorem kept_empty : (empty : Books φ).Kept where
  exact := ⟨RunMap.runs_nil, rfl⟩
  shownAt_eq _ := rfl
  lt_of_recorded _ h := absurd rfl h
  registrations := ⟨rfl, List.nodup_nil, fun _ h => absurd h List.not_mem_nil,
    fun _ h => absurd h List.not_mem_nil, fun _ h => absurd h List.not_mem_nil⟩

/-- A range of the table changed as the reference's is. -/
theorem Kept.update (h : b.Kept) {t' : Table φ} {first length : ℕ}
    {shown : ℕ → Option (Shown φ)} {stays : ℕ × Run φ → Prop}
    (ht : b.table.Becomes t' (fun x =>
      if first ≤ x ∧ x < stopOf first length then shown x else b.table.shownAt x) stays) :
    Kept ⟨t', b.reference.update first (stopOf first length) shown⟩ where
  exact := ht.toExact
  shownAt_eq x := by
    rw [ht.shownAt_eq, h.shownAt_eq]
    rfl
  lt_of_recorded x hx := by
    change (if first ≤ x ∧ x < stopOf first length then shown x else b.reference.recorded x) ≠ none
      at hx
    split_ifs at hx with hin
    · have hstop : stopOf first length ≤ 2 ^ 64 - 1 := min_le_right _ _
      omega
    · exact h.lt_of_recorded x hx
  registrations := by
    rw [ht.registered_eq]
    exact h.registrations

theorem stopOf_lt (first length : ℕ) : stopOf first length < 2 ^ 64 :=
  (min_le_right _ _).trans_lt (by decide)

theorem Kept.step (h : b.Kept) {e : Event φ} (he : b.Allowed e) : (b.step e).Kept := by
  cases e with
  | record first length backing prot => exact h.update (h.exact.record (le_of_lt he) backing prot)
  | forget first length => exact h.update (h.exact.forget (le_of_lt he))
  | protect first length prot =>
    refine h.update ((h.exact.protect he prot).congr fun x => ?_)
    rw [h.shownAt_eq]
  | register first length backing =>
    obtain ⟨hexact, hshown⟩ :=
      h.exact.congr (b.table.runs_register first (stopOf first length) backing)
    exact ⟨hexact, fun x => (hshown x).trans (h.shownAt_eq x), h.lt_of_recorded,
      h.registrations.register (stopOf_lt first length) backing⟩
  | unregister k =>
    obtain ⟨hexact, hshown⟩ := h.exact.congr (b.table.runs_unregister k.first k.stop k.backing)
    exact ⟨hexact, fun x => (hshown x).trans (h.shownAt_eq x), h.lt_of_recorded,
      h.registrations.unregister he⟩

theorem kept_of_execution {events : List (Event φ)} (hrun : Execution Step empty events b) :
    b.Kept :=
  hrun.invariant kept_empty fun _ _ _ h hs => hs.2 ▸ h.step hs.1

theorem Kept.within (h : b.Kept) : b.table.Within := by
  refine ⟨fun e he => ?_, fun r hr => ?_⟩
  · have hlt : e.1 < e.2.stop := h.exact.runs.lt e he
    have hlast := Table.shownAt_eq_some h.exact.runs he (Nat.le_sub_one_of_lt hlt) (by omega)
    rw [h.shownAt_eq] at hlast
    have hbound := h.lt_of_recorded _ (hlast ▸ Option.some_ne_none _)
    omega
  · exact h.registrations.stop_lt r.handle (h.registrations.live_eq ▸ List.mem_map_of_mem hr)

/-- A byte shows what the reference says. -/
theorem Kept.fileAt_eq (h : b.Kept) (x : ℕ) : b.table.fileAt x = b.reference.fileAt x := by
  have hfind : b.reference.registeredAt x =
      (b.table.registeredAt x).map Registered.handle := by
    rw [Reference.registeredAt, ← h.registrations.live_eq, List.find?_map]
    rfl
  rw [Table.fileAt, Reference.fileAt, h.shownAt_eq, hfind, Option.map_map]
  rfl

/-! ### What the table owes its callers -/

/-- What the table owes its callers: runs, pieces and counts. -/
structure Sane (b : Books φ) : Prop where
  nonempty : ∀ e ∈ b.table.runs, e.1 < e.2.stop
  disjoint : b.table.runs.Pairwise fun e e' => e.2.stop ≤ e'.1
  pieces_eq_none_iff : ∀ first length, first < 2 ^ 64 → (b.table.pieces first length = none ↔
    ∃ x, first ≤ x ∧ x < first + length ∧ b.reference.fileAt x = none)
  tiles : ∀ first length pieces, first < 2 ^ 64 → b.table.pieces first length = some pieces →
    Tiles 0 pieces length
  joins_eq : b.table.joins = joinCount b.table.runs
  joins_le : b.table.joins ≤ b.table.runs.length
  mappings_eq : b.table.mappings = (b.table.runs.splitBy joined).length
  mappings_le : ∀ first length pieces target, first < 2 ^ 64 →
    b.table.pieces first length = some pieces → target + length < 2 ^ 64 →
      (b.table.recordAll target pieces).mappings ≤ b.table.mappings + mappingsAdded pieces

theorem Kept.sane (h : b.Kept) : b.Sane where
  nonempty := h.exact.runs.lt
  disjoint := h.exact.runs.sep
  pieces_eq_none_iff first length hfirst := by
    rw [Table.pieces_eq_none_iff h.exact.runs h.within hfirst length]
    simp only [h.fileAt_eq]
  tiles _ _ _ hfirst hps := Table.pieces_tiles h.exact.runs h.within hfirst hps
  joins_eq := h.exact.joins
  joins_le := h.exact.joins_le
  mappings_eq := h.exact.mappings_eq
  mappings_le _ _ _ _ hfirst hps htarget :=
    h.exact.mappings_recordAll (Table.pieces_tiles h.exact.runs h.within hfirst hps) htarget

end Books

end ReimsVgpu.Os
