import ReimsVgpu.Display.Ports

/-!
# A claimed port has one client

What the ports, the guest displays and the displays say of each other's clients is drawn out of a
state (`Ports`). While nobody holds the displays lock every port is free or claimed (`Ports.PortOk`);
while a call holds it, the other ports are, and the call's own port is as far as the call is
(`Ports.At`). Only the call that holds the lock changes what is drawn out, but for a display's steps
towards and away from its port's claim.

## Main definitions

* `Ports`, `World.ports`: the clients of a state.
* `Ports.PortOk`, `Ports.At`, `World.Coherent`: the invariant.

## Main results

* `World.claimed_once`.
-/

open ReimsVgpu.Display (Word DisplayMode Page Host)

namespace ReimsVgpu.Display

/-! ### The machine and the client -/

/-- The client after a call of the guest display. -/
def Action.client {δ ρ R : Type*} (old : Option δ) : Action δ ρ R → Option δ
  | .setClient client _ _ => client
  | _ => old

namespace World

variable {δ ρ R : Type*} {refresh16 : ρ → Word} {v v' : World δ ρ R}

/-- A turn leaves the client, and does not end in a client's death. -/
def KeepsClient (v : World δ ρ R) : Turn (World δ ρ R) → Prop
  | .again v' | .left v' | .out v' _ _ | .raised _ v' => v'.client = v.client
  | .died kind => kind ≠ .clientAlreadySet

variable (refresh16) in
theorem syncModeList_client : (∀ v' changed, v.syncModeList refresh16 = .ok (v', changed) →
    v'.client = v.client) ∧ v.syncModeList refresh16 ≠ .error .clientAlreadySet := by
  unfold syncModeList
  refine ⟨fun v' changed h => ?_, ?_⟩
  · split at h
    · cases h
    · split_ifs at h
      cases h
      rfl
  · split
    · nofun
    · split_ifs <;> nofun

theorem turnDisconnected_client (host : Host R) (v : World δ ρ R) :
    v.KeepsClient (v.turnDisconnected refresh16 host) := by
  unfold turnDisconnected
  split_ifs
  · dsimp only
    have hsync := syncModeList_client refresh16
      (v := v.setRest (host.syncSettings v.page.rest).1)
    split
    next kind hkind => exact fun h => hsync.2 (h ▸ hkind)
    next x changed hx =>
      have hclient : x.client = v.client := hsync.1 x changed hx
      split
      · nofun
      · split <;> exact hclient
  · rfl

variable (refresh16) in
/-- What the settings and the modes leave of the client. -/
theorem updated_client (host : Host R) (v : World δ ρ R) :
    (∀ v' state i, v.updated refresh16 host = .ok (v', state, i) → v'.client = v.client) ∧
      v.updated refresh16 host ≠ .error .clientAlreadySet := by
  have hsync := syncModeList_client refresh16
    (v := v.setRest (host.syncSettings v.page.rest).1)
  unfold updated
  dsimp only
  generalize hmodes : (if (v.setRest (host.syncSettings v.page.rest).1).modeList.isSome then
      (v.setRest (host.syncSettings v.page.rest).1).syncModeList refresh16
    else .ok (v.setRest (host.syncSettings v.page.rest).1, false)) = modes
  have hclient : (∀ x changed, modes = .ok (x, changed) → x.client = v.client) ∧
      modes ≠ .error .clientAlreadySet := by
    split at hmodes
    · exact hmodes ▸ hsync
    · subst hmodes
      exact ⟨by rintro x changed ⟨⟩; rfl, nofun⟩
  split
  · match modes, hclient with
    | .error kind, hclient =>
      refine ⟨nofun, fun h => hclient.2 ?_⟩
      cases h
      rfl
    | .ok (x, changed), hclient =>
      have hx := hclient.1 x changed rfl
      refine ⟨fun v' state i h => ?_, ?_⟩
      · dsimp only at h
        split at h <;> cases h <;> exact hx
      · dsimp only
        split <;> nofun
  · exact ⟨by rintro v' state i ⟨⟩; rfl, nofun⟩

variable (refresh16) in
theorem turn_client (host : Host R) (v : World δ ρ R) : v.KeepsClient (v.turn refresh16 host) := by
  unfold turn
  split_ifs
  · exact turnDisconnected_client host v
  · rfl
  · rfl
  · have hupdated := updated_client refresh16 host v
    unfold turnConnected
    split
    next kind hkind => exact fun h => hupdated.2 (h ▸ hkind)
    next x state i hx =>
      have hclient := hupdated.1 x state i hx
      split_ifs <;> exact hclient

theorem loop_client (host : Host R) (turns : ℕ) (v : World δ ρ R) {t : Turn (World δ ρ R)}
    (h : loop refresh16 host turns v = some t) : v.KeepsClient t := by
  induction turns generalizing v with
  | zero => cases h
  | succ turns ih =>
    have hturn := turn_client refresh16 host v
    unfold loop at h
    split at h
    next v' hv =>
      rw [hv] at hturn
      have hclient : v'.client = v.client := hturn
      have hrest := ih v' h
      cases t <;> simp only [KeepsClient] at hrest ⊢
      case died => exact hrest
      all_goals rw [hrest, hclient]
    · cases h
      exact hturn

/-- What a call leaves of a client, where it does not die of a client. -/
def LeavesClient (client : Option δ) : Outcome (World δ ρ R) → Prop
  | .ok v | .raised _ v => v.client = client
  | .died kind => kind ≠ .clientAlreadySet

theorem stateMachine_client {host : Host R} {turns : ℕ} {o : Outcome (World δ ρ R)}
    (h : v.stateMachine refresh16 host turns = some o) : LeavesClient v.client o := by
  unfold stateMachine at h
  split_ifs at h
  · cases h
    rfl
  · cases hloop : loop refresh16 host turns v with
    | none =>
      rw [hloop] at h
      cases h
    | some t =>
      have hkept := loop_client host turns v hloop
      rw [hloop] at h
      cases t with
      | out v' state i =>
        cases h
        cases i <;> exact hkept
      | _ =>
        cases h
        exact hkept

/-- A call that sets no client over another leaves the client it names, or else the old one. -/
theorem call_client {turns : ℕ} {a : Action δ ρ R} {o : Outcome (World δ ρ R)}
    (h : v.call refresh16 turns a = some o)
    (hone : ∀ client core host, a = .setClient client core host → v.client = none ∨ client = none) :
    LeavesClient (a.client v.client) o := by
  cases a with
  | setClient client core host =>
    simp only [World.call, setClient] at h
    split at h
    next hboth =>
      obtain ⟨d, hd⟩ := Option.isSome_iff_exists.mp hboth.1
      obtain ⟨e, rfl⟩ := Option.isSome_iff_exists.mp hboth.2
      rcases hone _ _ _ rfl with hnone | hnone
      · exact absurd (hd.symm.trans hnone) nofun
      · cases hnone
    · exact stateMachine_client h
  | setModeList list host => exact stateMachine_client (v := { v with modeList := some list }) h
  | ack n host =>
    simp only [World.call, ack] at h
    split_ifs at h
    · cases h
      nofun
    · cases h
      rfl
    · cases h
      rfl
    · exact stateMachine_client (v := v.takeAck n) h
  | pause =>
    simp only [World.call] at h
    split_ifs at h
    · cases h
      nofun
    · cases h
      rfl
  | unpause host =>
    simp only [World.call] at h
    split_ifs at h
    · cases h
      nofun
    · exact stateMachine_client (v := { v with paused := false }) h
  | willRestore =>
    simp only [World.call] at h
    split_ifs at h
    · cases h
      nofun
    · cases h
      rfl
  | finishRestore host =>
    simp only [World.call, finishRestore] at h
    split_ifs at h
    · cases h
      nofun
    · cases h
      nofun
    · split at h
      · cases h
        rfl
      next rest _ =>
        exact stateMachine_client
          (v := World.setRest { v with willRestore := false, didRestore := true } rest) h
  | coreGone =>
    cases h
    rfl
  | guest raised enabled rest =>
    cases h
    rfl

end World

end ReimsVgpu.Display

namespace ReimsVgpu.DisplayPorts

/-! ### The busy mask -/

theorem portBit_eq {port : ℕ} (h : port < 8) : portBit port = BitVec.twoPow 64 port := by
  have hall : ∀ p : Fin 8, portBit p = BitVec.twoPow 64 p := by decide
  exact hall ⟨port, h⟩

theorem and_portBit_ne {port : ℕ} (h : port < 8) (mask : BitVec 64) :
    mask &&& portBit port ≠ 0 ↔ mask.getLsbD port = true := by
  rw [portBit_eq h, BitVec.and_twoPow]
  have hne : BitVec.twoPow 64 port ≠ 0 := by
    have hall : ∀ p : Fin 8, BitVec.twoPow 64 p ≠ 0 := by decide
    exact hall ⟨port, h⟩
  split_ifs with hbit
  · simpa [hbit] using hne
  · simp [hbit]

/-- The bit of a port in a mask with a port's bit set or cleared. -/
theorem and_portBit_put {p q : ℕ} (hp : p < 8) (hq : q < 8) (mask : BitVec 64) (on : Bool) :
    (if on then mask ||| portBit p else mask &&& ~~~portBit p) &&& portBit q ≠ 0 ↔
      if q = p then on = true else mask &&& portBit q ≠ 0 := by
  rw [and_portBit_ne hq, and_portBit_ne hq, portBit_eq hp]
  by_cases hqp : q = p
  · subst hqp
    cases on <;> simp [Nat.lt_trans hq (by decide : 8 < 64)]
  · have hpq : p ≠ q := Ne.symm hqp
    cases on <;> simp [BitVec.getLsbD_twoPow, hqp, hpq]
    omega

/-! ### The clients -/

/-- A display that claims its port. -/
def Life.claims : Life → Bool
  | .claimed | .attached | .ending => true
  | _ => false

/-- The ports' bits, guest displays and parked clients; the guest displays' clients, for those made;
and the displays. -/
@[ext]
structure Ports (δ γ : Type*) where
  busy : ℕ → Bool
  slot : ℕ → Option γ
  parked : ℕ → Option δ
  client : γ → Option (Option δ)
  life : δ → Life
  port : δ → ℕ
  registered : δ → Bool
  own : δ → Option γ

namespace Ports

variable {δ γ τ : Type*}

def view (s : Ports δ γ) (p : ℕ) : PortView δ γ :=
  ⟨s.busy p, s.parked p, s.slot p, (s.slot p).bind fun g => (s.client g).join⟩

/-- A display claims a port. -/
def Claims (s : Ports δ γ) (p : ℕ) (d : δ) : Prop := (s.life d).claims = true ∧ s.port d = p

/-- A display is a port's client: parked with no guest display of its own, or the client of the
port's guest display, which is its own. -/
inductive Has (s : Ports δ γ) (p : ℕ) (d : δ) : Prop
  | parked (hp : s.parked p = some d) (hs : s.slot p = none) (ho : s.own d = none)
  | bound {g : γ} (hp : s.parked p = none) (hs : s.slot p = some g) (hc : s.client g = some (some d))
      (ho : s.own d = some g)

/-- A port has no client. -/
structure Vacant (s : Ports δ γ) (p : ℕ) : Prop where
  parked : s.parked p = none
  client : ∀ g, s.slot p = some g → s.client g = some none

/-- A port is free and has no client, or is claimed by the one display that is its client. -/
inductive PortOk (s : Ports δ γ) (p : ℕ) : Prop
  | claimed {d : δ} (hb : s.busy p = true) (hd : s.Claims p d) (hone : ∀ e, s.Claims p e → e = d)
      (hhas : s.Has p d)
  | free (hb : s.busy p = false) (hnone : ∀ d, ¬s.Claims p d) (hv : s.Vacant p)

/-- What holds of all ports and displays, whoever holds the lock; a display that an attach has just
made a client is set apart. -/
structure Apart (s : Ports δ γ) (count : PortCount) (attaching : Option δ) : Prop where
  slots : ∀ p q g, s.slot p = some g → s.slot q = some g → p = q
  known : ∀ p g, s.slot p = some g → (s.client g).isSome = true
  made : ∀ d, s.life d = .made ∨ (s.life d).claims = true → s.port d < count.count ∧
    s.registered d = true
  idle : ∀ d, attaching ≠ some d → s.life d = .unmade ∨ s.life d = .made → s.own d = none

/-- A display before its claim, on a port that its attach has just marked. -/
structure Marked (s : Ports δ γ) (d : δ) : Prop where
  life : s.life d = .made
  busy : s.busy (s.port d) = true
  none : ∀ e, ¬s.Claims (s.port d) e

/-- The claim is about to be cleared: it is the display's alone. -/
structure Clearing (s : Ports δ γ) (d : δ) : Prop where
  life : s.life d = .ending
  busy : s.busy (s.port d) = true
  one : ∀ e, s.Claims (s.port d) e → e = d

/-- The port's claim while a page change moves its client. -/
structure Moving (s : Ports δ γ) (p : ℕ) (client : Option δ) : Prop where
  busy : s.busy p = client.isSome
  claims : ∀ e, s.Claims p e ↔ client = some e

/-- How far the port is of the call that holds the lock. -/
def At (s : Ports δ γ) (count : PortCount) : Held δ γ τ → Prop
  | .attach d => s.life d = .made ∧ s.PortOk (s.port d)
  | .attachClient d g =>
    s.Marked d ∧ s.slot (s.port d) = some g ∧ s.parked (s.port d) = none ∧
      s.client g = some none ∧ s.own d = none
  | .attachOwn d g =>
    s.Marked d ∧ s.slot (s.port d) = some g ∧ s.parked (s.port d) = none ∧
      s.client g = some (some d) ∧ s.own d = none
  | .attachEnd d => s.Marked d ∧ s.Has (s.port d) d
  | .detach d => s.life d = .ending ∧ s.PortOk (s.port d)
  | .detachClient d g =>
    s.Clearing d ∧ s.slot (s.port d) = some g ∧ s.parked (s.port d) = none ∧
      s.client g = some (some d)
  | .detachEnd d => s.Clearing d ∧ s.Vacant (s.port d)
  | .page c => c.port < count.count ∧ s.view = c.before ∧ s.PortOk c.port
  | .pageOwn c g client =>
    c.port < count.count ∧ s.view = c.before ∧ s.Moving c.port (some client) ∧
      s.slot c.port = none ∧ s.parked c.port = some client ∧ (∀ p, s.slot p ≠ some g) ∧
      s.client g = some none ∧ s.own client = none
  | .pageClient c g client =>
    c.port < count.count ∧ s.view = c.before ∧ s.Moving c.port (some client) ∧
      s.slot c.port = none ∧ s.parked c.port = some client ∧ (∀ p, s.slot p ≠ some g) ∧
      s.client g = some none ∧ s.own client = some g
  | .pageStore c g =>
    c.port < count.count ∧ s.view = c.before ∧ s.Moving c.port (s.parked c.port) ∧
      s.slot c.port = none ∧ (∀ p, s.slot p ≠ some g) ∧ s.client g = some (s.parked c.port) ∧
      (∀ d, s.parked c.port = some d → s.own d = some g)
  | .zeroClient c g client =>
    c.port < count.count ∧ s.view = c.before ∧ s.Moving c.port client ∧
      s.slot c.port = some g ∧ s.parked c.port = none ∧ s.client g = some client ∧
      (∀ d, client = some d → s.own d = some g)
  | .zeroOwn c client =>
    c.port < count.count ∧ (∀ q, q ≠ c.port → s.view q = c.before q) ∧
      (c.before c.port).clients = client.toList ∧ s.Moving c.port client ∧ s.Vacant c.port ∧
      (s.slot c.port).isSome = true ∧ (∀ d, client = some d → s.own d = s.slot c.port)
  | .zeroStore c client =>
    c.port < count.count ∧ (∀ q, q ≠ c.port → s.view q = c.before q) ∧
      (c.before c.port).clients = client.toList ∧ s.Moving c.port client ∧ s.Vacant c.port ∧
      (∀ d, client = some d → s.own d = none)

/-! ### A change at one port -/

/-- What another port's claim rests on is as it was. -/
structure OnlyAt (s s' : Ports δ γ) (p : ℕ) : Prop where
  busy : ∀ q, q ≠ p → s'.busy q = s.busy q
  slot : ∀ q, q ≠ p → s'.slot q = s.slot q
  parked : ∀ q, q ≠ p → s'.parked q = s.parked q
  client : ∀ q g, q ≠ p → s.slot q = some g → s'.client g = s.client g
  claims : ∀ q d, q ≠ p → (s'.Claims q d ↔ s.Claims q d)
  own : ∀ q d, q ≠ p → s.Claims q d → s'.own d = s.own d

variable {s s' s'' : Ports δ γ} {p q : ℕ}

theorem OnlyAt.refl (s : Ports δ γ) (p : ℕ) : s.OnlyAt s p :=
  ⟨fun _ _ => rfl, fun _ _ => rfl, fun _ _ => rfl, fun _ _ _ _ => rfl, fun _ _ _ => .rfl,
    fun _ _ _ _ => rfl⟩

theorem OnlyAt.trans (h : s.OnlyAt s' p) (h' : s'.OnlyAt s'' p) : s.OnlyAt s'' p where
  busy q hq := (h'.busy q hq).trans (h.busy q hq)
  slot q hq := (h'.slot q hq).trans (h.slot q hq)
  parked q hq := (h'.parked q hq).trans (h.parked q hq)
  client q g hq hg := (h'.client q g hq ((h.slot q hq).trans hg)).trans (h.client q g hq hg)
  claims q d hq := (h'.claims q d hq).trans (h.claims q d hq)
  own q d hq hd := (h'.own q d hq ((h.claims q d hq).mpr hd)).trans (h.own q d hq hd)

theorem OnlyAt.portOk (h : s.OnlyAt s' p) (hq : q ≠ p) (hok : s.PortOk q) : s'.PortOk q := by
  cases hok with
  | claimed hb hd hone hhas =>
    have hown := h.own q _ hq hd
    refine .claimed ((h.busy q hq).trans hb) ((h.claims q _ hq).mpr hd)
      (fun e he => hone e ((h.claims q e hq).mp he)) ?_
    cases hhas with
    | parked hp hs ho =>
      exact .parked ((h.parked q hq).trans hp) ((h.slot q hq).trans hs) (hown.trans ho)
    | bound hp hs hc ho =>
      exact .bound ((h.parked q hq).trans hp) ((h.slot q hq).trans hs)
        ((h.client q _ hq hs).trans hc) (hown.trans ho)
  | free hb hnone hv =>
    refine .free ((h.busy q hq).trans hb) (fun d hd => hnone d ((h.claims q d hq).mp hd))
      ⟨(h.parked q hq).trans hv.parked, fun g hg => ?_⟩
    have hg' := (h.slot q hq).symm.trans hg
    exact (h.client q g hq hg').trans (hv.client g hg')

theorem OnlyAt.view (h : s.OnlyAt s' p) (hq : q ≠ p) : s'.view q = s.view q := by
  have hclient : ((s.slot q).bind fun g => (s'.client g).join) =
      (s.slot q).bind fun g => (s.client g).join := by
    cases hg : s.slot q with
    | none => rfl
    | some g => exact congrArg Option.join (h.client q g hq hg)
  unfold Ports.view
  rw [h.busy q hq, h.slot q hq, h.parked q hq, hclient]

theorem onlyAt_busy (s : Ports δ γ) (p : ℕ) (on : Bool) :
    s.OnlyAt { s with busy := Function.update s.busy p on } p where
  busy _ hq := Function.update_of_ne hq _ _
  slot _ _ := rfl
  parked _ _ := rfl
  client _ _ _ _ := rfl
  claims _ _ _ := .rfl
  own _ _ _ _ := rfl

theorem onlyAt_parked (s : Ports δ γ) (p : ℕ) (client : Option δ) :
    s.OnlyAt { s with parked := Function.update s.parked p client } p where
  busy _ _ := rfl
  slot _ _ := rfl
  parked _ hq := Function.update_of_ne hq _ _
  client _ _ _ _ := rfl
  claims _ _ _ := .rfl
  own _ _ _ _ := rfl

theorem onlyAt_slot (s : Ports δ γ) (p : ℕ) (g : Option γ) :
    s.OnlyAt { s with slot := Function.update s.slot p g } p where
  busy _ _ := rfl
  slot _ hq := Function.update_of_ne hq _ _
  parked _ _ := rfl
  client _ _ _ _ := rfl
  claims _ _ _ := .rfl
  own _ _ _ _ := rfl

/-- The guest display whose client changes is no other port's. -/
theorem onlyAt_client [DecidableEq γ] {g : γ} (hg : ∀ q, q ≠ p → s.slot q ≠ some g)
    (client : Option (Option δ)) :
    s.OnlyAt { s with client := Function.update s.client g client } p where
  busy _ _ := rfl
  slot _ _ := rfl
  parked _ _ := rfl
  client q e hq he := Function.update_of_ne (by rintro rfl; exact hg q hq he) _ _
  claims _ _ _ := .rfl
  own _ _ _ _ := rfl

/-- The display whose own guest display changes claims no other port. -/
theorem onlyAt_own [DecidableEq δ] {d : δ} (hd : ∀ q, q ≠ p → ¬s.Claims q d) (g : Option γ) :
    s.OnlyAt { s with own := Function.update s.own d g } p where
  busy _ _ := rfl
  slot _ _ := rfl
  parked _ _ := rfl
  client _ _ _ _ := rfl
  claims _ _ _ := .rfl
  own q e hq he := Function.update_of_ne (by rintro rfl; exact hd q hq he) _ _

theorem onlyAt_life [DecidableEq δ] (s : Ports δ γ) (d : δ) (life : Life) :
    s.OnlyAt { s with life := Function.update s.life d life } (s.port d) where
  busy _ _ := rfl
  slot _ _ := rfl
  parked _ _ := rfl
  client _ _ _ _ := rfl
  claims q e hq := by
    rcases eq_or_ne e d with rfl | hed
    · exact ⟨fun h => absurd h.2.symm hq, fun h => absurd h.2.symm hq⟩
    · simp [Claims, hed]
  own _ _ _ _ := rfl

/-- A change that makes no display claim a port, or stop claiming it. -/
theorem claims_life [DecidableEq δ] (s : Ports δ γ) {d : δ} {life : Life}
    (h : life.claims = (s.life d).claims) (q : ℕ) (e : δ) :
    ({ s with life := Function.update s.life d life } : Ports δ γ).Claims q e ↔ s.Claims q e := by
  rcases eq_or_ne e d with rfl | hed
  · simp [Claims, h]
  · simp [Claims, hed]

theorem PortOk.life [DecidableEq δ] (hok : s.PortOk q) {d : δ} {life : Life}
    (h : life.claims = (s.life d).claims) :
    ({ s with life := Function.update s.life d life } : Ports δ γ).PortOk q := by
  have hclaims := s.claims_life h q
  cases hok with
  | claimed hb hd hone hhas =>
    refine .claimed hb ((hclaims _).mpr hd) (fun e he => hone e ((hclaims e).mp he)) ?_
    cases hhas with
    | parked hp hs ho => exact .parked hp hs ho
    | bound hp hs hc ho => exact .bound hp hs hc ho
  | free hb hnone hv => exact .free hb (fun e he => hnone e ((hclaims e).mp he)) ⟨hv.parked, hv.client⟩

variable {count : PortCount} {x : Option δ}

/-- A display's life goes on. -/
theorem Apart.life [DecidableEq δ] (h : s.Apart count x) {d : δ} {l : Life}
    (hmade : l = .made ∨ l.claims = true → s.port d < count.count ∧ s.registered d = true)
    (hidle : l = .unmade ∨ l = .made → s.own d = none) :
    ({ s with life := Function.update s.life d l } : Ports δ γ).Apart count x where
  slots := h.slots
  known := h.known
  made e he := by
    rcases eq_or_ne e d with rfl | hed
    · simp only [Function.update_self] at he
      exact hmade he
    · simp only [Function.update_of_ne hed] at he
      exact h.made e he
  idle e hx he := by
    rcases eq_or_ne e d with rfl | hed
    · simp only [Function.update_self] at he
      exact hidle he
    · simp only [Function.update_of_ne hed] at he
      exact h.idle e hx he

/-- A display changes its own guest display: one that claims its port, or is set apart. -/
theorem Apart.own [DecidableEq δ] (h : s.Apart count none) {d : δ}
    (hd : x = some d ∨ (s.life d).claims = true) (g : Option γ) :
    ({ s with own := Function.update s.own d g } : Ports δ γ).Apart count x where
  slots := h.slots
  known := h.known
  made := h.made
  idle e hx he := by
    have hed : e ≠ d := by
      rintro rfl
      rcases hd with hd | hd
      · exact hx hd
      · change s.life e = .unmade ∨ s.life e = .made at he
        rcases he with he | he <;> rw [he] at hd <;> cases hd
    simp only [Function.update_of_ne hed]
    exact h.idle e nofun he

/-- A port takes a guest display that no port has, or gives one up. -/
theorem Apart.slot (h : s.Apart count x) (p : ℕ) {g : Option γ}
    (hg : ∀ e, g = some e → (s.client e).isSome = true ∧ ∀ q, s.slot q ≠ some e) :
    ({ s with slot := Function.update s.slot p g } : Ports δ γ).Apart count x where
  slots q r e hq hr := by
    simp only [Function.update_apply] at hq hr
    split_ifs at hq hr with hqp hrp hrp
    · rw [hqp, hrp]
    · exact absurd hr ((hg e hq).2 r)
    · exact absurd hq ((hg e hr).2 q)
    · exact h.slots q r e hq hr
  known q e hq := by
    simp only [Function.update_apply] at hq
    split_ifs at hq
    · exact (hg e hq).1
    · exact h.known q e hq
  made := h.made
  idle := h.idle

/-- A guest display is made, or has its client changed. -/
theorem Apart.client [DecidableEq γ] (h : s.Apart count x) (g : γ) (client : Option δ) :
    ({ s with client := Function.update s.client g (some client) } : Ports δ γ).Apart count x where
  slots := h.slots
  known q e hq := by
    rcases eq_or_ne e g with rfl | heg
    · simp
    · simpa only [Function.update_of_ne heg] using h.known q e hq
  made := h.made
  idle := h.idle

/-- The client of a guest display that no port has is not seen. -/
theorem view_client [DecidableEq γ] {g : γ} (hg : ∀ q, s.slot q ≠ some g)
    (client : Option (Option δ)) :
    ({ s with client := Function.update s.client g client } : Ports δ γ).view = s.view := by
  funext q
  exact (onlyAt_client (p := q + 1) (fun r _ => hg r) client).view (by omega)

/-- What a port's client is, parked or the guest display's. -/
theorem PortOk.moving (h : s.PortOk p) : ∃ client, s.Moving p client ∧
    ((s.slot p = none ∧ s.parked p = client ∧ ∀ d, client = some d → s.own d = none) ∨
      ∃ g, s.slot p = some g ∧ s.parked p = none ∧ s.client g = some client ∧
        ∀ d, client = some d → s.own d = some g) := by
  cases h with
  | @claimed d hb hd hone hhas =>
    refine ⟨some d, ⟨hb, fun e => ⟨fun he => congrArg some (hone e he).symm, ?_⟩⟩, ?_⟩
    · rintro ⟨⟩
      exact hd
    · cases hhas with
      | parked hp hs ho => exact .inl ⟨hs, hp, by rintro e ⟨⟩; exact ho⟩
      | @bound g hp hs hc ho => exact .inr ⟨g, hs, hp, hc, by rintro e ⟨⟩; exact ho⟩
  | free hb hnone hv =>
    refine ⟨none, ⟨hb, fun e => ⟨fun he => absurd he (hnone e), nofun⟩⟩, ?_⟩
    cases hs : s.slot p with
    | none => exact .inl ⟨rfl, hv.parked, nofun⟩
    | some g => exact .inr ⟨g, rfl, hv.parked, hv.client g hs, nofun⟩

/-- A port whose client is parked. -/
theorem Moving.portOk_parked {client : Option δ} (h : s.Moving p client) (hs : s.slot p = none)
    (hp : s.parked p = client) (ho : ∀ d, client = some d → s.own d = none) : s.PortOk p := by
  cases client with
  | none =>
    exact .free h.busy (fun e he => absurd ((h.claims e).mp he) nofun)
      ⟨hp, fun g hg => absurd (hs.symm.trans hg) nofun⟩
  | some d =>
    exact .claimed h.busy ((h.claims d).mpr rfl)
      (fun e he => (Option.some.inj ((h.claims e).mp he)).symm) (.parked hp hs (ho d rfl))

/-- A port whose client is its guest display's. -/
theorem Moving.portOk_bound {client : Option δ} {g : γ} (h : s.Moving p client)
    (hs : s.slot p = some g) (hp : s.parked p = none) (hc : s.client g = some client)
    (ho : ∀ d, client = some d → s.own d = some g) : s.PortOk p := by
  cases client with
  | none =>
    refine .free h.busy (fun e he => absurd ((h.claims e).mp he) nofun) ⟨hp, fun e he => ?_⟩
    obtain rfl := Option.some.inj (hs.symm.trans he)
    exact hc
  | some d =>
    exact .claimed h.busy ((h.claims d).mpr rfl)
      (fun e he => (Option.some.inj ((h.claims e).mp he)).symm) (.bound hp hs hc (ho d rfl))

theorem Claims.not_of_life {d : δ} (h : (s.life d).claims = false) (p : ℕ) : ¬s.Claims p d :=
  fun hd => absurd (hd.1.symm.trans h) nofun

end Ports

namespace Ports

variable {δ γ τ : Type*} {s s' : Ports δ γ} {count : PortCount} {d : δ} {p : ℕ}

/-! ### A display's steps towards its claim and away from it -/

/-- Displays go on that neither wait for an attach nor for a detach. -/
structure Aside (s s' : Ports δ γ) : Prop where
  busy : s'.busy = s.busy
  slot : s'.slot = s.slot
  parked : s'.parked = s.parked
  client : s'.client = s.client
  own : s'.own = s.own
  claims : ∀ q d, s'.Claims q d ↔ s.Claims q d
  life : ∀ d, s.life d = .made ∨ s.life d = .ending → s'.life d = s.life d ∧ s'.port d = s.port d

namespace Aside

theorem onlyAt (h : s.Aside s') (p : ℕ) : s.OnlyAt s' p where
  busy q _ := congrFun h.busy q
  slot q _ := congrFun h.slot q
  parked q _ := congrFun h.parked q
  client _ g _ _ := congrFun h.client g
  claims q d _ := h.claims q d
  own _ d _ _ := congrFun h.own d

theorem portOk (h : s.Aside s') (hok : s.PortOk p) : s'.PortOk p :=
  (h.onlyAt (p + 1)).portOk (by omega) hok

theorem view (h : s.Aside s') : s'.view = s.view :=
  funext fun q => (h.onlyAt (q + 1)).view (by omega)

theorem marked (h : s.Aside s') (hd : s.Marked d) : s'.Marked d := by
  obtain ⟨hlife, hport⟩ := h.life d (.inl hd.life)
  refine ⟨hlife.trans hd.life, ?_, fun e he => ?_⟩
  · rw [h.busy, hport]
    exact hd.busy
  · rw [hport] at he
    exact hd.none e ((h.claims _ e).mp he)

theorem clearing (h : s.Aside s') (hd : s.Clearing d) : s'.Clearing d := by
  obtain ⟨hlife, hport⟩ := h.life d (.inr hd.life)
  refine ⟨hlife.trans hd.life, ?_, fun e he => ?_⟩
  · rw [h.busy, hport]
    exact hd.busy
  · rw [hport] at he
    exact hd.one e ((h.claims _ e).mp he)

theorem moving (h : s.Aside s') {client : Option δ} (hp : s.Moving p client) : s'.Moving p client :=
  ⟨(congrFun h.busy p).trans hp.busy, fun e => (h.claims p e).trans (hp.claims e)⟩

theorem vacant (h : s.Aside s') (hp : s.Vacant p) : s'.Vacant p :=
  ⟨(congrFun h.parked p).trans hp.parked, fun g hg =>
    (congrFun h.client g).trans (hp.client g ((congrFun h.slot p).symm.trans hg))⟩

theorem has (h : s.Aside s') (hd : s.Has p d) : s'.Has p d := by
  cases hd with
  | parked hp hs ho =>
    exact .parked ((congrFun h.parked p).trans hp) ((congrFun h.slot p).trans hs)
      ((congrFun h.own d).trans ho)
  | @bound g hp hs hc ho =>
    exact .bound ((congrFun h.parked p).trans hp) ((congrFun h.slot p).trans hs)
      ((congrFun h.client g).trans hc) ((congrFun h.own d).trans ho)

/-- The call that holds the lock is as far, and at the same port. -/
theorem at_held (h : s.Aside s') {held : Held δ γ τ} (hat : s.At count held) : s'.At count held := by
  have hmade : ∀ {d}, s.life d = .made → s'.port d = s.port d := fun hd => (h.life _ (.inl hd)).2
  have hending : ∀ {d}, s.life d = .ending → s'.port d = s.port d := fun hd => (h.life _ (.inr hd)).2
  cases held <;> simp only [At, h.view, h.slot, h.parked, h.client, h.own] at hat ⊢
  case attach d =>
    rw [hmade hat.1]
    exact ⟨(h.life d (.inl hat.1)).1.trans hat.1, h.portOk hat.2⟩
  case attachClient d g =>
    rw [hmade hat.1.life]
    exact ⟨h.marked hat.1, hat.2⟩
  case attachOwn d g =>
    rw [hmade hat.1.life]
    exact ⟨h.marked hat.1, hat.2⟩
  case attachEnd d =>
    rw [hmade hat.1.life]
    exact ⟨h.marked hat.1, h.has hat.2⟩
  case detach d =>
    rw [hending hat.1]
    exact ⟨(h.life d (.inr hat.1)).1.trans hat.1, h.portOk hat.2⟩
  case detachClient d g =>
    rw [hending hat.1.life]
    exact ⟨h.clearing hat.1, hat.2⟩
  case detachEnd d =>
    rw [hending hat.1.life]
    exact ⟨h.clearing hat.1, h.vacant hat.2⟩
  case page c => exact ⟨hat.1, hat.2.1, h.portOk hat.2.2⟩
  case pageOwn c g d => exact ⟨hat.1, hat.2.1, h.moving hat.2.2.1, hat.2.2.2⟩
  case pageClient c g d => exact ⟨hat.1, hat.2.1, h.moving hat.2.2.1, hat.2.2.2⟩
  case pageStore c g => exact ⟨hat.1, hat.2.1, h.moving hat.2.2.1, hat.2.2.2⟩
  case zeroClient c g client => exact ⟨hat.1, hat.2.1, h.moving hat.2.2.1, hat.2.2.2⟩
  case zeroOwn c client =>
    exact ⟨hat.1, hat.2.1, hat.2.2.1, h.moving hat.2.2.2.1, h.vacant hat.2.2.2.2.1, hat.2.2.2.2.2⟩
  case zeroStore c client =>
    exact ⟨hat.1, hat.2.1, hat.2.2.1, h.moving hat.2.2.2.1, h.vacant hat.2.2.2.2.1, hat.2.2.2.2.2⟩

end Aside

end Ports

/-- The display that an attach has just made a client. -/
def Held.attaching {δ γ τ : Type*} : Held δ γ τ → Option δ
  | .attachEnd d => some d
  | _ => none

/-- The port of the call that holds the lock. -/
def Held.port {δ γ τ : Type*} (h : Held δ γ τ) (port : δ → ℕ) : ℕ :=
  match h with
  | .attach d | .attachClient d _ | .attachOwn d _ | .attachEnd d | .detach d | .detachClient d _
  | .detachEnd d => port d
  | .page c | .pageOwn c _ _ | .pageClient c _ _ | .pageStore c _ | .zeroClient c _ _ | .zeroOwn c _
  | .zeroStore c _ => c.port

namespace World

variable {δ γ τ ρ R : Type*}

/-- The clients of a state. -/
def ports (w : World δ γ τ ρ R) : Ports δ γ where
  busy := w.busy
  slot := w.guestDisplay
  parked := w.displayClient
  client g := (w.guest g).map (·.client)
  life d := (w.display d).life
  port d := (w.display d).port
  registered d := (w.display d).registered
  own d := (w.display d).guestDisplay

theorem view_eq (w : World δ γ τ ρ R) : w.view = w.ports.view := by
  funext p
  have hclient : w.client = fun g => ((w.guest g).map (·.client)).join := by
    funext g
    unfold client
    cases w.guest g <;> rfl
  unfold view
  rw [hclient]
  rfl

@[simp] theorem ports_hold (w : World δ γ τ ρ R) (h : Held δ γ τ) : (w.hold h).ports = w.ports := rfl

@[simp] theorem ports_unlock (w : World δ γ τ ρ R) : w.unlock.ports = w.ports := rfl

@[simp] theorem ports_setClientAt (w : World δ γ τ ρ R) (p : ℕ) (client : Option δ) :
    (w.setClientAt p client).ports =
      { w.ports with parked := Function.update w.ports.parked p client } := rfl

@[simp] theorem ports_setGuestDisplayAt (w : World δ γ τ ρ R) (p : ℕ) (g : Option γ) :
    (w.setGuestDisplayAt p g).ports =
      { w.ports with slot := Function.update w.ports.slot p g } := rfl

theorem busy_setBusy (w : World δ γ τ ρ R) {p : ℕ} (hp : p < 8) (on : Bool) :
    (w.setBusy p on).busy = Function.update w.busy p on := by
  funext q
  unfold busy setBusy
  by_cases hq : q < 8
  · simp only [hq, true_and, and_portBit_put hp hq]
    rcases eq_or_ne q p with rfl | hqp
    · simp
    · simp [hq, hqp]
  · have hqp : q ≠ p := fun h => hq (h ▸ hp)
    simp [hq, hqp]

theorem ports_setBusy (w : World δ γ τ ρ R) {p : ℕ} (hp : p < 8) (on : Bool) :
    (w.setBusy p on).ports = { w.ports with busy := Function.update w.ports.busy p on } := by
  have hbusy := busy_setBusy w hp on
  ext1 <;> first | exact hbusy | rfl

theorem ports_setGuest [DecidableEq γ] (w : World δ γ τ ρ R) (g : γ) (guest : Display.World δ ρ R) :
    (w.setGuest g guest).ports =
      { w.ports with client := Function.update w.ports.client g (some guest.client) } := by
  ext1 <;> try rfl
  funext e
  rcases eq_or_ne e g with rfl | heg
  · simp [ports, setGuest]
  · simp [ports, setGuest, heg]

theorem ports_setDisplay [DecidableEq δ] (w : World δ γ τ ρ R) (d : δ) (display : Display γ ρ) :
    (w.setDisplay d display).ports =
      { w.ports with
        life := Function.update w.ports.life d display.life
        port := Function.update w.ports.port d display.port
        registered := Function.update w.ports.registered d display.registered
        own := Function.update w.ports.own d display.guestDisplay } := by
  ext1 <;> try rfl
  all_goals
    funext e
    rcases eq_or_ne e d with rfl | hed
    · simp [ports, setDisplay]
    · simp [ports, setDisplay, hed]

/-! ### The calls under a mutex -/

/-- The process ended in a guest display's own death, one of no client. -/
def Ended (w w' : World δ γ τ ρ R) : Prop :=
  (∃ kind, kind ≠ .clientAlreadySet ∧ w'.died = some (.guestDisplay kind)) ∧ w'.changes = w.changes

/-- The clients changed, and neither the lock nor what has returned. -/
structure Moves (w w' : World δ γ τ ρ R) (s : Ports δ γ) : Prop where
  ports : w'.ports = s
  held : w'.held = w.held
  changes : w'.changes = w.changes
  died : w'.died = w.died

section

variable [DecidableEq δ] [DecidableEq γ] [DecidableEq τ] {refresh16 : ρ → Word} {count : PortCount}
  {turns : ℕ} {w w' : World δ γ τ ρ R}

omit [DecidableEq δ] [DecidableEq τ] in
theorem guestCall_moves {g : γ} {a : Display.Action δ ρ R}
    (h : w.guestCall refresh16 turns g a = some w')
    (hone : ∀ client core host, a = .setClient client core host → w.client g = none ∨ client = none) :
    w.Ended w' ∨ w.Moves w' { w.ports with
      client := Function.update w.ports.client g (some (a.client (w.client g))) } := by
  unfold guestCall at h
  cases hg : w.guest g with
  | none =>
    rw [hg] at h
    cases h
  | some guest =>
    have hclient : w.client g = guest.client := by simp [client, hg]
    rw [hg] at h
    dsimp only at h
    split at h
    next guest' hcall =>
      have hleft := Display.World.call_client hcall (hclient ▸ hone)
      cases h
      right
      refine ⟨?_, rfl, rfl, rfl⟩
      rw [ports_setGuest, hclient, ← show guest'.client = a.client guest.client from hleft]
    next kind hcall =>
      have hleft := Display.World.call_client hcall (hclient ▸ hone)
      cases h
      exact .inl ⟨⟨kind, hleft, rfl⟩, rfl⟩
    · cases h

omit [DecidableEq δ] [DecidableEq τ] in
/-- A guest display's other calls leave the clients. -/
theorem guestCall_quiet {g : γ} {a : Display.Action δ ρ R}
    (h : w.guestCall refresh16 turns g a = some w')
    (hnone : ∀ client core host, a ≠ .setClient client core host) :
    w.Ended w' ∨ w.Moves w' w.ports := by
  have hmade : w.ports.client g = some (w.client g) := by
    unfold guestCall at h
    cases hg : w.guest g with
    | none =>
      rw [hg] at h
      cases h
    | some guest => simp [ports, client, hg]
  have hsame : a.client (w.client g) = w.client g := by
    cases a with
    | setClient client core host => exact absurd rfl (hnone client core host)
    | _ => rfl
  refine (guestCall_moves h fun client core host ha => absurd ha (hnone client core host)).imp_right
    fun hmoves => ?_
  rwa [hsame, ← hmade, Function.update_eq_self] at hmoves

omit [DecidableEq δ] [DecidableEq τ] in
theorem setClient_moves {g : γ} {client : Option δ} {host : Host R}
    (h : w.setClient refresh16 turns g client host = some w')
    (hone : w.ports.client g = some none ∨ client = none) :
    w.Ended w' ∨ w.Moves w' { w.ports with
      client := Function.update w.ports.client g (some client) } := by
  refine guestCall_moves h fun client' core host' ha => ?_
  cases ha
  refine hone.imp_left fun hnone => ?_
  cases hg : w.guest g with
  | none => simp [World.client, hg]
  | some guest => simpa [ports, World.client, hg] using hnone

omit [DecidableEq τ] in
/-- A display takes the guest display, or gives it up. -/
theorem setGuestDisplay_moves {d : δ} {g : Option γ} {host : Host R}
    (h : w.setGuestDisplay refresh16 turns d g host = some w')
    (hswap : g.isNone ≠ (w.ports.own d).isNone) :
    w.Ended w' ∨ w.Moves w' { w.ports with own := Function.update w.ports.own d g } := by
  have hports : (w.setDisplay d { w.display d with guestDisplay := g }).ports =
      { w.ports with own := Function.update w.ports.own d g } := by
    rw [ports_setDisplay]
    simp [ports]
  unfold setGuestDisplay at h
  rw [if_neg (show ¬g.isNone = (w.display d).guestDisplay.isNone from hswap)] at h
  dsimp only at h
  split at h
  · rcases guestCall_quiet h nofun with hended | hmoves
    · exact .inl hended
    · exact .inr ⟨hmoves.ports.trans hports, hmoves.held, hmoves.changes, hmoves.died⟩
  · cases h
    exact .inr ⟨hports, rfl, rfl, rfl⟩

omit [DecidableEq τ] in
theorem setCoreGuestDisplay_moves {d : δ} {g : Option γ} {host : Host R}
    (h : w.setCoreGuestDisplay refresh16 turns d g host = some w')
    (hregistered : w.ports.registered d = true) (hswap : g.isNone ≠ (w.ports.own d).isNone) :
    w.Ended w' ∨ w.Moves w' { w.ports with own := Function.update w.ports.own d g } := by
  unfold setCoreGuestDisplay at h
  rw [if_pos (show (w.display d).registered = true from hregistered)] at h
  exact setGuestDisplay_moves h hswap

end

end World

/-- A page change left each port its clients, and one that raised left every port as it was. -/
structure PageChange.Kept {δ γ τ : Type*} (c : PageChange δ γ τ) : Prop where
  clients : ∀ p, (c.after p).clients = (c.call.before p).clients
  refused : c.raised ≠ none → c.after = c.call.before

namespace World

variable {δ γ τ ρ R : Type*}

/-- Every port is free or claimed, but for the port of the call that holds the lock. -/
structure Coherent (count : PortCount) (w : World δ γ τ ρ R) : Prop where
  apart : w.ports.Apart count (w.held.bind Held.attaching)
  others : ∀ q, q < count.count → (∀ h, w.held = some h → q ≠ h.port w.ports.port) →
    w.ports.PortOk q
  phase : ∀ h, w.held = some h → w.ports.At count h

/-- Where a step of the call that holds the lock leads, at its port. -/
inductive Advanced (count : PortCount) (w : World δ γ τ ρ R) (p : ℕ) (w' : World δ γ τ ρ R) : Prop
  | ended (h : w.Ended w')
  | holds {h : Held δ γ τ} (hheld : w'.held = some h) (hport : h.port w'.ports.port = p)
      (hapart : w'.ports.Apart count h.attaching) (honly : w.ports.OnlyAt w'.ports p)
      (hat : w'.ports.At count h) (hdied : w'.died = w.died) (hchanges : w'.changes = w.changes)
  | frees (hheld : w'.held = none) (hapart : w'.ports.Apart count none)
      (honly : w.ports.OnlyAt w'.ports p) (hok : w'.ports.PortOk p) (hdied : w'.died = w.died)
      (hchanges : ∀ c ∈ w'.changes, c ∈ w.changes ∨ c.Kept)

/-- What a step leaves, unless a guest display ends the process. -/
def Steps (count : PortCount) (w w' : World δ γ τ ρ R) : Prop :=
  w.Ended w' ∨ w'.Coherent count ∧ w'.died = w.died ∧ ∀ c ∈ w'.changes, c ∈ w.changes ∨ c.Kept

variable [DecidableEq δ] [DecidableEq γ] [DecidableEq τ] {refresh16 : ρ → Word} {count : PortCount}
  {turns : ℕ} {w w' : World δ γ τ ρ R} {d : δ} {g : γ}

omit [DecidableEq δ] [DecidableEq γ] [DecidableEq τ] in
theorem busy_iff {p : ℕ} (hp : p < 8) :
    w.displayPortBusyMask &&& portBit p ≠ 0 ↔ w.ports.busy p = true := by
  simp [ports, busy, hp]

omit [DecidableEq δ] [DecidableEq γ] [DecidableEq τ] in
/-- A display before its claim, and a port whose claim is not its own. -/
theorem Coherent.made_lt (h : w.Coherent count)
    (hd : w.ports.life d = .made ∨ (w.ports.life d).claims = true) :
    w.ports.port d < count.count ∧ w.ports.port d < 8 ∧ w.ports.registered d = true := by
  have hmade := h.apart.made d hd
  exact ⟨hmade.1, Nat.lt_of_lt_of_le hmade.1 count.le, hmade.2⟩

omit [DecidableEq γ] [DecidableEq τ] in
theorem ports_setLife (w : World δ γ τ ρ R) (d : δ) (life : Life) :
    (w.setLife d life).ports = { w.ports with life := Function.update w.ports.life d life } := by
  rw [setLife, ports_setDisplay]
  simp [ports]

/-! ### Attaching -/

omit [DecidableEq γ] [DecidableEq τ] in
theorem attach_advanced (h : w.Coherent count) (hheld : w.held = some (.attach d)) :
    w.Advanced count (w.ports.port d) (w.advanceAttach d) := by
  obtain ⟨hmade, hok⟩ := h.phase _ hheld
  obtain ⟨-, hp, -⟩ := h.made_lt (.inl hmade)
  have hapart : w.ports.Apart count none := by simpa [hheld, Held.attaching] using h.apart
  have hown := hapart.idle d nofun (.inr hmade)
  have hlife := ports_setLife w d .refused
  have hset := ports_setBusy w hp true
  have hslot : ∀ p, (w.setBusy p true).guestDisplay p = w.ports.slot p := fun _ => rfl
  have hparked : ∀ p, (w.setBusy p true).displayClient p = w.ports.parked p := fun _ => rfl
  have hiff := busy_iff (w := w) hp
  unfold advanceAttach
  dsimp only
  rw [show (w.display d).port = w.ports.port d from rfl, hslot, hparked]
  by_cases hbusy : w.displayPortBusyMask &&& portBit (w.ports.port d) ≠ 0
  · rw [if_pos hbusy]
    refine .frees rfl ?_ ?_ ?_ rfl fun c hc => .inl hc
    · rw [ports_unlock, hlife]
      exact hapart.life (by rintro (h | h) <;> cases h) (by rintro (h | h) <;> cases h)
    · rw [ports_unlock, hlife]
      exact Ports.onlyAt_life w.ports d .refused
    · rw [ports_unlock, hlife]
      exact hok.life (by rw [hmade]; rfl)
  · rw [if_neg hbusy]
    obtain ⟨hb, hd, -, -⟩ | ⟨-, hnone, hvacant⟩ := hok
    · exact absurd (hiff.mpr hb) hbusy
    have hmarked : (w.setBusy (w.ports.port d) true).ports.Marked d := by
      rw [hset]
      exact ⟨hmade, Function.update_self _ _ _, hnone⟩
    cases hg : w.ports.slot (w.ports.port d) with
    | some g =>
      refine .holds rfl rfl ?_ ?_ ⟨hmarked, ?_⟩ rfl rfl
      · rw [ports_hold, hset]
        exact ⟨hapart.slots, hapart.known, hapart.made, hapart.idle⟩
      · rw [ports_hold, hset]
        exact Ports.onlyAt_busy w.ports _ true
      · rw [ports_hold, hset]
        exact ⟨hg, hvacant.parked, hvacant.client g hg, hown⟩
    | none =>
      rw [hvacant.parked]
      simp only [Option.isSome_none, Bool.false_eq_true, if_false]
      refine .holds rfl rfl ?_ ?_ ⟨⟨hmarked.life, hmarked.busy, hmarked.none⟩, ?_⟩ rfl rfl
      · rw [ports_hold, ports_setClientAt, hset]
        exact ⟨hapart.slots, hapart.known, hapart.made, fun e _ => hapart.idle e nofun⟩
      · rw [ports_hold, ports_setClientAt, hset]
        exact (Ports.onlyAt_busy w.ports _ true).trans (Ports.onlyAt_parked _ _ _)
      · rw [ports_hold, ports_setClientAt, hset]
        exact .parked (Function.update_self _ _ _) hg hown

omit [DecidableEq δ] [DecidableEq γ] [DecidableEq τ] in
/-- A call under a mutex, and the lock's holder before its next one. -/
theorem Moves.advanced {s : Ports δ γ} {held : Held δ γ τ} {p : ℕ} {o : Option (World δ γ τ ρ R)}
    (h : ∀ v, o = some v → w.Ended v ∨ w.Moves v s) (ho : o.map (·.hold held) = some w')
    (hport : held.port s.port = p) (hapart : s.Apart count held.attaching)
    (honly : w.ports.OnlyAt s p) (hat : s.At count held) : w.Advanced count p w' := by
  obtain ⟨v, hv, rfl⟩ := Option.map_eq_some_iff.mp ho
  rcases h v hv with hended | hmoves
  · exact .ended ⟨hended.1, hended.2⟩
  · have hports : (v.hold held).ports = s := hmoves.ports
    refine .holds rfl ?_ ?_ ?_ ?_ hmoves.died hmoves.changes
    · rw [hports]
      exact hport
    · rwa [hports]
    · rwa [hports]
    · rwa [hports]

omit [DecidableEq δ] [DecidableEq τ] in
theorem attachClient_advanced {host : Host R} (h : w.Coherent count)
    (hheld : w.held = some (.attachClient d g))
    (ho : (w.setClient refresh16 turns g (some d) host).map (·.hold (.attachOwn d g)) = some w') :
    w.Advanced count (w.ports.port d) w' := by
  obtain ⟨hmarked, hslot, hparked, hclient, hown⟩ := h.phase _ hheld
  have hapart : w.ports.Apart count none := by simpa [hheld, Held.attaching] using h.apart
  refine Moves.advanced (fun v hv => setClient_moves hv (.inl hclient)) ho rfl
    (hapart.client _ _) (Ports.onlyAt_client (fun q hq hg => ?_) _)
    ⟨⟨hmarked.life, hmarked.busy, hmarked.none⟩, hslot, hparked, Function.update_self _ _ _, hown⟩
  exact hq (hapart.slots q _ g hg hslot)

omit [DecidableEq τ] in
theorem attachOwn_advanced {host : Host R} (h : w.Coherent count)
    (hheld : w.held = some (.attachOwn d g))
    (ho : (w.setCoreGuestDisplay refresh16 turns d (some g) host).map (·.hold (.attachEnd d)) =
      some w') :
    w.Advanced count (w.ports.port d) w' := by
  obtain ⟨hmarked, hslot, hparked, hclient, hown⟩ := h.phase _ hheld
  have hapart : w.ports.Apart count none := by simpa [hheld, Held.attaching] using h.apart
  obtain ⟨-, -, hregistered⟩ := h.made_lt (.inl hmarked.life)
  have hnone : ∀ p, ¬w.ports.Claims p d :=
    Ports.Claims.not_of_life (by rw [hmarked.life]; rfl)
  exact Moves.advanced
    (fun v hv => setCoreGuestDisplay_moves hv hregistered (by rw [hown]; nofun)) ho rfl
    (hapart.own (.inl rfl) _) (Ports.onlyAt_own (fun q _ => hnone q) _)
    ⟨⟨hmarked.life, hmarked.busy, hmarked.none⟩,
      .bound hparked hslot hclient (Function.update_self _ _ _)⟩

omit [DecidableEq γ] [DecidableEq τ] in
theorem attachEnd_advanced (h : w.Coherent count) (hheld : w.held = some (.attachEnd d)) :
    w.Advanced count (w.ports.port d) (w.setLife d .claimed).unlock := by
  obtain ⟨hmarked, hhas⟩ := h.phase _ hheld
  have hapart : w.ports.Apart count (some d) := by simpa [hheld, Held.attaching] using h.apart
  have hmade := hapart.made d (.inl hmarked.life)
  have hlife := ports_setLife w d .claimed
  refine .frees rfl ?_ ?_ ?_ rfl fun c hc => .inl hc
  · rw [ports_unlock, hlife]
    refine ⟨hapart.slots, hapart.known, (hapart.life (l := .claimed) (fun _ => hmade) nofun).made,
      fun e _ he => ?_⟩
    have hed : e ≠ d := by
      rintro rfl
      simp only [Function.update_self] at he
      rcases he with he | he <;> cases he
    simp only [Function.update_of_ne hed] at he
    exact hapart.idle e (fun hde => hed (Option.some.inj hde).symm) he
  · rw [ports_unlock, hlife]
    exact Ports.onlyAt_life w.ports d .claimed
  · rw [ports_unlock, hlife]
    refine .claimed (d := d) hmarked.busy ⟨by simp [Life.claims], rfl⟩ (fun e he => ?_) ?_
    · by_contra hed
      refine hmarked.none e ⟨?_, he.2⟩
      simpa only [Function.update_of_ne hed] using he.1
    · cases hhas with
      | parked hp hs ho => exact .parked hp hs ho
      | bound hp hs hc ho => exact .bound hp hs hc ho

/-! ### Detaching -/

omit [DecidableEq γ] [DecidableEq τ] in
theorem detach_advanced (h : w.Coherent count) (hheld : w.held = some (.detach d)) :
    w.Advanced count (w.ports.port d) (w.advanceDetach count d) := by
  obtain ⟨hending, hok⟩ := h.phase _ hheld
  have hapart : w.ports.Apart count none := by simpa [hheld, Held.attaching] using h.apart
  have hclaims : (w.ports.life d).claims = true := by rw [hending]; rfl
  obtain ⟨hlt, hp, -⟩ := h.made_lt (.inr hclaims)
  have hiff := busy_iff (w := w) hp
  obtain ⟨hb, hone, hhas⟩ : w.ports.busy (w.ports.port d) = true ∧
      (∀ e, w.ports.Claims (w.ports.port d) e → e = d) ∧ w.ports.Has (w.ports.port d) d := by
    cases hok with
    | claimed hb hd hone hhas =>
      obtain rfl := hone d ⟨hclaims, rfl⟩
      exact ⟨hb, hone, hhas⟩
    | free hb hnone hv => exact absurd ⟨hclaims, rfl⟩ (hnone d)
  have hclearing : w.ports.Clearing d := ⟨hending, hb, hone⟩
  have hslot : ∀ p, w.guestDisplay p = w.ports.slot p := fun _ => rfl
  have hparked : ∀ p, w.displayClient p = w.ports.parked p := fun _ => rfl
  unfold advanceDetach
  dsimp only
  rw [show (w.display d).port = w.ports.port d from rfl, if_neg (Nat.not_le.mpr hlt), if_neg (hiff.mpr hb),
    hslot, hparked]
  cases hhas with
  | @bound g hp hs hc ho =>
    have hclient : w.client g = some d := by
      cases hguest : w.guest g with
      | none => simp [ports, hguest] at hc
      | some guest => simpa [ports, World.client, hguest] using hc
    rw [hs]
    dsimp only
    rw [if_pos hclient]
    exact .holds rfl rfl ⟨hapart.slots, hapart.known, hapart.made, hapart.idle⟩ (Ports.OnlyAt.refl _ _)
      ⟨hclearing, hs, hp, hc⟩ rfl rfl
  | parked hp hs ho =>
    rw [hs, hp]
    dsimp only
    rw [if_neg (fun h => h.2 rfl), if_neg ?_]
    · refine .holds rfl rfl ⟨hapart.slots, hapart.known, hapart.made, hapart.idle⟩ (Ports.onlyAt_parked _ _ _)
        ⟨⟨hending, hb, hone⟩, Function.update_self _ _ _, fun g hg => ?_⟩ rfl rfl
      exact absurd (hs.symm.trans hg) nofun
    · rintro ⟨-, hsome⟩
      rw [show (w.display d).guestDisplay = none from ho] at hsome
      cases hsome

omit [DecidableEq δ] [DecidableEq τ] in
theorem detachClient_advanced {host : Host R} (h : w.Coherent count)
    (hheld : w.held = some (.detachClient d g))
    (ho : (w.setClient refresh16 turns g none host).map (·.hold (.detachEnd d)) = some w') :
    w.Advanced count (w.ports.port d) w' := by
  obtain ⟨hclearing, hslot, hparked, hclient⟩ := h.phase _ hheld
  have hapart : w.ports.Apart count none := by simpa [hheld, Held.attaching] using h.apart
  refine Moves.advanced (fun v hv => setClient_moves hv (.inr rfl)) ho rfl
    (hapart.client _ _) (Ports.onlyAt_client (fun q hq hg => ?_) _)
    ⟨⟨hclearing.life, hclearing.busy, hclearing.one⟩, hparked, fun e he => ?_⟩
  · exact hq (hapart.slots q _ g hg hslot)
  · obtain rfl := Option.some.inj (hslot.symm.trans he)
    exact Function.update_self _ _ _

omit [DecidableEq γ] [DecidableEq τ] in
theorem detachEnd_advanced (h : w.Coherent count) (hheld : w.held = some (.detachEnd d)) :
    w.Advanced count (w.ports.port d)
      ((w.setBusy (w.display d).port false).setLife d .detached).unlock := by
  obtain ⟨hclearing, hvacant⟩ := h.phase _ hheld
  have hapart : w.ports.Apart count none := by simpa [hheld, Held.attaching] using h.apart
  obtain ⟨-, hp, -⟩ := h.made_lt (.inr (by rw [hclearing.life]; rfl))
  have hports : ((w.setBusy (w.display d).port false).setLife d .detached).unlock.ports =
      { w.ports with
        busy := Function.update w.ports.busy (w.ports.port d) false
        life := Function.update w.ports.life d .detached } := by
    rw [ports_unlock, ports_setLife, show (w.display d).port = w.ports.port d from rfl,
      ports_setBusy w hp]
  refine .frees rfl ?_ ?_ ?_ rfl fun c hc => .inl hc <;> rw [hports]
  · have hlife := hapart.life (d := d) (l := .detached) (by rintro (h | h) <;> cases h)
      (by rintro (h | h) <;> cases h)
    exact ⟨hlife.slots, hlife.known, hlife.made, hlife.idle⟩
  · exact (Ports.onlyAt_busy w.ports _ false).trans (Ports.onlyAt_life _ d .detached)
  · refine .free (Function.update_self _ _ _) (fun e he => ?_) ⟨hvacant.parked, hvacant.client⟩
    rcases eq_or_ne e d with rfl | hed
    · have hclaims := he.1
      simp [Life.claims] at hclaims
    · refine hed (hclearing.one e ⟨?_, he.2⟩)
      simpa only [Function.update_of_ne hed] using he.1

/-! ### A port's page -/

variable {c : PageCall δ γ τ}

omit [DecidableEq δ] [DecidableEq γ] in
/-- A page change that ends: its port's claim is as before, and its clients are. -/
theorem endPage_advanced {v : World δ γ τ ρ R} {raised : Option RaiseKind}
    (hapart : v.ports.Apart count none) (honly : w.ports.OnlyAt v.ports c.port)
    (hok : v.ports.PortOk c.port) (hdied : v.died = w.died) (hchanges : v.changes = w.changes)
    (hkept : (⟨c, raised, v.view⟩ : PageChange δ γ τ).Kept) :
    w.Advanced count c.port (v.endPage c raised) := by
  refine .frees rfl hapart honly hok hdied fun e he => ?_
  rcases List.mem_append.mp he with he | he
  · exact .inl (hchanges ▸ he)
  · obtain rfl := List.mem_singleton.mp he
    exact .inr hkept

omit [DecidableEq δ] [DecidableEq γ] [DecidableEq τ] in
/-- A page change that raised, or one after which the ports are seen as before. -/
theorem kept_of_view {v : World δ γ τ ρ R} {raised : Option RaiseKind}
    (h : v.ports.view = c.before) : (⟨c, raised, v.view⟩ : PageChange δ γ τ).Kept := by
  have hview : v.view = c.before := v.view_eq.trans h
  exact ⟨fun p => congrArg (fun after => (after p).clients) hview, fun _ => hview⟩

omit [DecidableEq δ] in
theorem page_advanced {answer : Answer γ R} (h : w.Coherent count)
    (hheld : w.held = some (.page c)) (hw : w.advancePage c answer = some w') :
    w.Advanced count c.port w' := by
  obtain ⟨hlt, hview, hok⟩ := h.phase _ hheld
  have hapart : w.ports.Apart count none := by simpa [hheld, Held.attaching] using h.apart
  have hrefused : ∀ kind, w.Advanced count c.port (w.endPage c (some kind)) := fun kind =>
    endPage_advanced hapart (.refl _ _) hok rfl rfl (kept_of_view hview)
  obtain ⟨client, hmoving, hplace⟩ := hok.moving
  unfold advancePage at hw
  split at hw
  · split at hw
    · cases hw
      exact hrefused _
    next hfree =>
    have hnone : w.ports.slot c.port = none := Option.not_isSome_iff_eq_none.mp hfree
    obtain ⟨-, hparked, hown⟩ | ⟨g, hg, -⟩ := hplace
    swap
    · exact absurd (hnone.symm.trans hg) nofun
    split at hw
    · cases hw
      exact hrefused _
    next page _ =>
    split at hw
    · cases hw
    next hfresh =>
    -- the guest display made is no port's
    have hnew : w.ports.client answer.made = none := by
      simpa [ports] using hfresh
    have hunslotted : ∀ q, w.ports.slot q ≠ some answer.made := fun q hq => by
      have hknown := hapart.known q _ hq
      rw [hnew] at hknown
      cases hknown
    have hports : (w.setGuest answer.made (onPage page c.restoring)).ports =
        { w.ports with client := Function.update w.ports.client answer.made (some none) } :=
      ports_setGuest w answer.made _
    have honly := Ports.onlyAt_client (p := c.port) (fun q _ => hunslotted q) (some none)
    have hseen := (Ports.view_client hunslotted (some none)).trans hview
    have hmade : ({ w.ports with
        client := Function.update w.ports.client answer.made (some none) } : Ports δ γ).client
          answer.made = some none := Function.update_self _ _ _
    dsimp only at hw
    split at hw
    · cases hw
      refine endPage_advanced ?_ ?_ ?_ rfl rfl (kept_of_view ?_) <;> rw [hports]
      · exact hapart.client _ _
      · exact honly
      · exact Ports.Moving.portOk_parked ⟨hmoving.busy, hmoving.claims⟩ hnone hparked hown
      · exact hseen
    · -- the root word is no port's client
      have hroot : ∀ v, (v = if c.restoring = true then
            w.setGuest answer.made (onPage page c.restoring)
          else (w.setGuest answer.made (onPage page c.restoring)).setRootWord c.port c.page) →
          v.ports = { w.ports with
            client := Function.update w.ports.client answer.made (some none) } ∧
          v.displayClient = w.displayClient ∧ v.died = w.died ∧ v.changes = w.changes := by
        rintro v rfl
        split <;> exact ⟨hports, rfl, rfl, rfl⟩
      generalize hv : (if c.restoring = true then
            w.setGuest answer.made (onPage page c.restoring)
          else (w.setGuest answer.made (onPage page c.restoring)).setRootWord c.port c.page) = v at hw
      obtain ⟨hvports, hvclient, hvdied, hvchanges⟩ := hroot v hv.symm
      rw [hvclient, show w.displayClient c.port = client from hparked] at hw
      cases client with
      | some d =>
        cases hw
        refine .holds rfl rfl ?_ ?_ ?_ hvdied hvchanges <;> rw [ports_hold, hvports]
        · exact hapart.client _ _
        · exact honly
        · exact ⟨hlt, hseen, ⟨hmoving.busy, hmoving.claims⟩, hnone, hparked, hunslotted, hmade,
            hown d rfl⟩
      | none =>
        cases hw
        refine .holds rfl rfl ?_ ?_ ?_ hvdied hvchanges <;> rw [ports_hold, hvports]
        · exact hapart.client _ _
        · exact honly
        · refine ⟨hlt, hseen, ⟨?_, ?_⟩, hnone, hunslotted, ?_, ?_⟩
          · rw [hparked]
            exact hmoving.busy
          · rw [hparked]
            exact hmoving.claims
          · rw [hparked]
            exact hmade
          · rw [hparked]
            nofun
  · split at hw
    · cases hw
      exact hrefused _
    next g hg =>
    have hg' : w.ports.slot c.port = some g := hg
    obtain ⟨hnone, -⟩ | ⟨e, he, hparked, hclient, hown⟩ := hplace
    · exact absurd (hnone.symm.trans hg') nofun
    obtain rfl := Option.some.inj (hg'.symm.trans he)
    have hread : w.client g = client := by
      cases hguest : w.guest g with
      | none => simp [ports, hguest] at hclient
      | some guest => simpa [ports, World.client, hguest] using hclient
    cases hw
    rw [hread]
    exact .holds rfl rfl hapart (.refl _ _) ⟨hlt, hview, hmoving, hg', hparked, hclient, hown⟩ rfl rfl

omit [DecidableEq τ] in
theorem pageOwn_advanced {host : Host R} (h : w.Coherent count)
    (hheld : w.held = some (.pageOwn c g d))
    (ho : (w.setCoreGuestDisplay refresh16 turns d (some g) host).map (·.hold (.pageClient c g d)) =
      some w') :
    w.Advanced count c.port w' := by
  obtain ⟨hlt, hview, hmoving, hslot, hparked, hunslotted, hclient, hown⟩ := h.phase _ hheld
  have hapart : w.ports.Apart count none := by simpa [hheld, Held.attaching] using h.apart
  have hclaims := (hmoving.claims d).mpr rfl
  obtain ⟨-, -, hregistered⟩ := h.made_lt (.inr hclaims.1)
  refine Moves.advanced
    (fun v hv => setCoreGuestDisplay_moves hv hregistered (by rw [hown]; nofun)) ho rfl
    (hapart.own (.inr hclaims.1) _) (Ports.onlyAt_own (fun q hq hd => ?_) _)
    ⟨hlt, hview, ⟨hmoving.busy, hmoving.claims⟩, hslot, hparked, hunslotted, hclient,
      Function.update_self _ _ _⟩
  exact hq (hd.2.symm.trans hclaims.2)

omit [DecidableEq δ] [DecidableEq τ] in
theorem pageClient_advanced {host : Host R} (h : w.Coherent count)
    (hheld : w.held = some (.pageClient c g d))
    (ho : (w.setClient refresh16 turns g (some d) host).map (·.hold (.pageStore c g)) = some w') :
    w.Advanced count c.port w' := by
  obtain ⟨hlt, hview, hmoving, hslot, hparked, hunslotted, hclient, hown⟩ := h.phase _ hheld
  have hapart : w.ports.Apart count none := by simpa [hheld, Held.attaching] using h.apart
  refine Moves.advanced (fun v hv => setClient_moves hv (.inl hclient)) ho rfl
    (hapart.client _ _) (Ports.onlyAt_client (fun q _ => hunslotted q) _)
    ⟨hlt, (Ports.view_client hunslotted _).trans hview, ?_, hslot, hunslotted, ?_, ?_⟩
  · change Ports.Moving _ c.port (w.ports.parked c.port)
    rw [hparked]
    exact ⟨hmoving.busy, hmoving.claims⟩
  · exact (Function.update_self _ _ _).trans (congrArg some hparked.symm)
  · intro e he
    obtain rfl := Option.some.inj (hparked.symm.trans he)
    exact hown

omit [DecidableEq δ] [DecidableEq γ] in
/-- The guest display becomes the port's, with the client that was parked. -/
theorem pageStore_advanced (h : w.Coherent count) (hheld : w.held = some (.pageStore c g)) :
    w.Advanced count c.port
      (((w.setClientAt c.port none).setGuestDisplayAt c.port (some g)).endPage c none) := by
  obtain ⟨hlt, hview, hmoving, hslot, hunslotted, hclient, hown⟩ := h.phase _ hheld
  have hapart : w.ports.Apart count none := by simpa [hheld, Held.attaching] using h.apart
  have honly : w.ports.OnlyAt
      ((w.setClientAt c.port none).setGuestDisplayAt c.port (some g)).ports c.port := by
    rw [ports_setGuestDisplayAt, ports_setClientAt]
    exact (Ports.onlyAt_parked w.ports _ _).trans (Ports.onlyAt_slot _ _ _)
  refine endPage_advanced ?_ honly ?_ rfl rfl ⟨fun p => ?_, nofun⟩
  · refine Ports.Apart.slot (s := (w.setClientAt c.port none).ports)
      ⟨hapart.slots, hapart.known, hapart.made, hapart.idle⟩ c.port fun e he => ?_
    obtain rfl := Option.some.inj he
    exact ⟨by rw [ports_setClientAt, hclient]; rfl, hunslotted⟩
  · exact Ports.Moving.portOk_bound ⟨hmoving.busy, hmoving.claims⟩ (Function.update_self _ _ _)
      (Function.update_self _ _ _) hclient hown
  · rw [view_eq, ← hview]
    dsimp only
    rcases eq_or_ne p c.port with rfl | hp
    · simp only [ports_setGuestDisplayAt, ports_setClientAt, Ports.view, PortView.clients,
        Function.update_self, Option.bind_some, hslot, Option.bind_none, hclient]
      simp
    · rw [honly.view hp]

omit [DecidableEq δ] [DecidableEq τ] in
theorem zeroClient_advanced {host : Host R} {client : Option δ} (h : w.Coherent count)
    (hheld : w.held = some (.zeroClient c g client))
    (ho : (w.setClient refresh16 turns g none host).map (·.hold (.zeroOwn c client)) = some w') :
    w.Advanced count c.port w' := by
  obtain ⟨hlt, hview, hmoving, hslot, hparked, hclient, hown⟩ := h.phase _ hheld
  have hapart : w.ports.Apart count none := by simpa [hheld, Held.attaching] using h.apart
  have honly := Ports.onlyAt_client (s := w.ports) (p := c.port) (g := g)
    (fun q hq hg => hq (hapart.slots q _ g hg hslot)) (some none)
  refine Moves.advanced (fun v hv => setClient_moves hv (.inr rfl)) ho rfl (hapart.client _ _) honly
    ⟨hlt, fun q hq => (honly.view hq).trans (congrFun hview q), ?_,
      ⟨hmoving.busy, hmoving.claims⟩, ⟨hparked, fun e he => ?_⟩, by simp [hslot],
      fun d hd => (hown d hd).trans hslot.symm⟩
  · rw [← hview]
    simp [Ports.view, PortView.clients, hparked, hslot, hclient]
  · obtain rfl := Option.some.inj (hslot.symm.trans he)
    exact Function.update_self _ _ _

omit [DecidableEq τ] in
theorem zeroOwn_advanced {host : Host R} (h : w.Coherent count)
    (hheld : w.held = some (.zeroOwn c (some d)))
    (ho : (w.setCoreGuestDisplay refresh16 turns d none host).map (·.hold (.zeroStore c (some d))) =
      some w') :
    w.Advanced count c.port w' := by
  obtain ⟨hlt, hview, hbefore, hmoving, hvacant, hslot, hown⟩ := h.phase _ hheld
  have hapart : w.ports.Apart count none := by simpa [hheld, Held.attaching] using h.apart
  have hclaims := (hmoving.claims d).mpr rfl
  obtain ⟨-, -, hregistered⟩ := h.made_lt (.inr hclaims.1)
  have hswap : (none : Option γ).isNone ≠ (w.ports.own d).isNone := by
    rw [hown d rfl]
    simpa [Option.isSome_iff_ne_none] using hslot
  refine Moves.advanced (fun v hv => setCoreGuestDisplay_moves hv hregistered hswap) ho rfl
    (hapart.own (.inr hclaims.1) _) (Ports.onlyAt_own (fun q hq hd => ?_) _)
    ⟨hlt, hview, hbefore, ⟨hmoving.busy, hmoving.claims⟩, ⟨hvacant.parked, hvacant.client⟩, ?_⟩
  · exact hq (hd.2.symm.trans hclaims.2)
  · rintro e ⟨⟩
    exact Function.update_self _ _ _

omit [DecidableEq δ] [DecidableEq γ] [DecidableEq τ] in
theorem zeroOwn_none_advanced (h : w.Coherent count) (hheld : w.held = some (.zeroOwn c none)) :
    w.Advanced count c.port (w.hold (.zeroStore c none)) := by
  obtain ⟨hlt, hview, hbefore, hmoving, hvacant, -, -⟩ := h.phase _ hheld
  have hapart : w.ports.Apart count none := by simpa [hheld, Held.attaching] using h.apart
  exact .holds rfl rfl hapart (.refl _ _) ⟨hlt, hview, hbefore, hmoving, hvacant, nofun⟩ rfl rfl

omit [DecidableEq δ] [DecidableEq γ] in
/-- The client is parked, and the guest display is no port's. -/
theorem zeroStore_advanced {client : Option δ} {answer : Answer γ R} (h : w.Coherent count)
    (hheld : w.held = some (.zeroStore c client)) :
    w.Advanced count c.port (w.advanceZeroStore c client answer) := by
  obtain ⟨hlt, hview, hbefore, hmoving, hvacant, hown⟩ := h.phase _ hheld
  have hapart : w.ports.Apart count none := by simpa [hheld, Held.attaching] using h.apart
  have hroot : ∀ v, (v = if answer.root ∧ answer.running then
        ((w.setClientAt c.port client).setGuestDisplayAt c.port none).setRootWord c.port 0
      else (w.setClientAt c.port client).setGuestDisplayAt c.port none) →
      v.ports = { w.ports with
        parked := Function.update w.ports.parked c.port client
        slot := Function.update w.ports.slot c.port none } ∧
      v.died = w.died ∧ v.changes = w.changes := by
    rintro v rfl
    split <;> exact ⟨rfl, rfl, rfl⟩
  unfold advanceZeroStore
  rw [show w.displayClient c.port = none from hvacant.parked]
  simp only [Option.isSome_none, Bool.false_eq_true, if_false]
  generalize hv : (if answer.root ∧ answer.running then
        ((w.setClientAt c.port client).setGuestDisplayAt c.port none).setRootWord c.port 0
      else (w.setClientAt c.port client).setGuestDisplayAt c.port none) = v
  obtain ⟨hports, hdied, hchanges⟩ := hroot v hv.symm
  have honly : w.ports.OnlyAt v.ports c.port := by
    rw [hports]
    exact (Ports.onlyAt_parked w.ports _ _).trans (Ports.onlyAt_slot _ _ _)
  refine endPage_advanced ?_ honly ?_ hdied hchanges ⟨fun p => ?_, nofun⟩
  · rw [hports]
    have hslot := hapart.slot c.port (g := none) nofun
    exact ⟨hslot.slots, hslot.known, hslot.made, hslot.idle⟩
  · rw [hports]
    exact Ports.Moving.portOk_parked ⟨hmoving.busy, hmoving.claims⟩ (Function.update_self _ _ _)
      (Function.update_self _ _ _) hown
  · rw [view_eq]
    dsimp only
    rcases eq_or_ne p c.port with rfl | hp
    · rw [hbefore, hports]
      simp [Ports.view, PortView.clients]
    · rw [honly.view hp, hview p hp]

/-- Each step of the lock's holder. -/
theorem advance_advanced {held : Held δ γ τ} {answer : Answer γ R} (h : w.Coherent count)
    (hheld : w.held = some held) (hw : w.advance refresh16 count turns answer held = some w') :
    w.Advanced count (held.port w.ports.port) w' := by
  cases held with
  | attach d =>
    cases hw
    exact attach_advanced h hheld
  | attachClient d g => exact attachClient_advanced h hheld hw
  | attachOwn d g => exact attachOwn_advanced h hheld hw
  | attachEnd d =>
    cases hw
    exact attachEnd_advanced h hheld
  | detach d =>
    cases hw
    exact detach_advanced h hheld
  | detachClient d g => exact detachClient_advanced h hheld hw
  | detachEnd d =>
    cases hw
    exact detachEnd_advanced h hheld
  | page c => exact page_advanced h hheld hw
  | pageOwn c g d => exact pageOwn_advanced h hheld hw
  | pageClient c g d => exact pageClient_advanced h hheld hw
  | pageStore c g =>
    cases hw
    exact pageStore_advanced h hheld
  | zeroClient c g client => exact zeroClient_advanced h hheld hw
  | zeroOwn c client =>
    cases client with
    | none =>
      cases hw
      exact zeroOwn_none_advanced h hheld
    | some d => exact zeroOwn_advanced h hheld hw
  | zeroStore c client =>
    cases hw
    exact zeroStore_advanced h hheld

omit [DecidableEq δ] [DecidableEq γ] [DecidableEq τ] in
theorem Advanced.coherent {held : Held δ γ τ} (h : w.Coherent count) (hheld : w.held = some held)
    (ha : w.Advanced count (held.port w.ports.port) w') : w.Steps count w' := by
  have hothers : ∀ q, q < count.count → q ≠ held.port w.ports.port → w.ports.PortOk q :=
    fun q hq hne => h.others q hq fun e he => by rwa [← Option.some.inj (hheld.symm.trans he)]
  cases ha with
  | ended h => exact .inl h
  | holds hheld' hport hapart honly hat hdied hchanges =>
    refine .inr ⟨⟨?_, fun q hq hne => ?_, fun e he => ?_⟩, hdied, fun c hc => .inl (hchanges ▸ hc)⟩
    · rw [hheld']
      exact hapart
    · have hqp := hport ▸ hne _ hheld'
      exact honly.portOk hqp (hothers q hq hqp)
    · obtain rfl := Option.some.inj (hheld'.symm.trans he)
      exact hat
  | frees hheld' hapart honly hok hdied hchanges =>
    refine .inr ⟨⟨?_, fun q hq _ => ?_, fun e he => absurd (hheld'.symm.trans he) nofun⟩, hdied,
      hchanges⟩
    · rw [hheld']
      exact hapart
    · rcases eq_or_ne q (held.port w.ports.port) with rfl | hqp
      · exact hok
      · exact honly.portOk hqp (hothers q hq hqp)

/-! ### The other steps -/

omit [DecidableEq δ] [DecidableEq γ] [DecidableEq τ] in
/-- A step that leaves the clients and the lock. -/
theorem Coherent.same (h : w.Coherent count) (hports : w'.ports = w.ports)
    (hheld : w'.held = w.held) : w'.Coherent count where
  apart := by
    rw [hports, hheld]
    exact h.apart
  others := by
    rw [hports, hheld]
    exact h.others
  phase := by
    rw [hports, hheld]
    exact h.phase

omit [DecidableEq δ] [DecidableEq γ] [DecidableEq τ] in
/-- A call takes the lock. -/
theorem Coherent.take (h : w.Coherent count) (hfree : w.held = none) {held : Held δ γ τ}
    (hat : w.ports.At count held) (hattaching : held.attaching = none) :
    (w.hold held).Coherent count where
  apart := by
    change w.ports.Apart count held.attaching
    rw [hattaching]
    simpa [hfree] using h.apart
  others q hq _ := h.others q hq fun e he => absurd (hfree.symm.trans he) nofun
  phase e he := by
    obtain rfl := Option.some.inj he
    exact hat

omit [DecidableEq δ] [DecidableEq γ] [DecidableEq τ] in
theorem Coherent.aside (h : w.Coherent count) (haside : w.ports.Aside w'.ports)
    (hapart : w'.ports.Apart count (w.held.bind Held.attaching)) (hheld : w'.held = w.held) :
    w'.Coherent count where
  apart := by
    rw [hheld]
    exact hapart
  others q hq hne := by
    rw [hheld] at hne
    refine haside.portOk (h.others q hq fun held hh => ?_)
    have hport : held.port w'.ports.port = held.port w.ports.port := by
      have hat := h.phase held hh
      have hmade : ∀ {d}, w.ports.life d = .made → w'.ports.port d = w.ports.port d :=
        fun hd => (haside.life _ (.inl hd)).2
      have hending : ∀ {d}, w.ports.life d = .ending → w'.ports.port d = w.ports.port d :=
        fun hd => (haside.life _ (.inr hd)).2
      cases held <;> try rfl
      case attach d => exact hmade hat.1
      case attachClient d g => exact hmade hat.1.life
      case attachOwn d g => exact hmade hat.1.life
      case attachEnd d => exact hmade hat.1.life
      case detach d => exact hending hat.1
      case detachClient d g => exact hending hat.1.life
      case detachEnd d => exact hending hat.1.life
    exact hport ▸ hne held hh
  phase held hh := haside.at_held (h.phase held (hheld ▸ hh))

omit [DecidableEq γ] [DecidableEq τ] in
/-- A display goes on that waits for no attach and no detach, and claims its port as before. -/
theorem Coherent.setDisplay (h : w.Coherent count) {display : Display γ ρ}
    (hold : w.ports.life d ≠ .made ∧ w.ports.life d ≠ .ending)
    (hclaims : display.life.claims = (w.ports.life d).claims)
    (hport : display.life.claims = true → display.port = w.ports.port d)
    (hmade : display.life = .made ∨ display.life.claims = true →
      display.port < count.count ∧ display.registered = true)
    (hown : display.guestDisplay = w.ports.own d)
    (hidle : display.life = .unmade ∨ display.life = .made → w.ports.own d = none) :
    (w.setDisplay d display).Coherent count := by
  have hports := ports_setDisplay w d display
  rw [hown, Function.update_eq_self] at hports
  refine h.aside ?_ ?_ rfl
  · rw [hports]
    refine ⟨rfl, rfl, rfl, rfl, rfl, fun q e => ?_, fun e he => ?_⟩
    · rcases eq_or_ne e d with rfl | hed
      · simp only [Ports.Claims, Function.update_self]
        rw [← hclaims]
        exact and_congr_right fun hc => by rw [hport hc]
      · simp [Ports.Claims, hed]
    · have hed : e ≠ d := by
        rintro rfl
        exact he.elim hold.1 hold.2
      simp [hed]
  · rw [hports]
    refine ⟨h.apart.slots, h.apart.known, fun e he => ?_, fun e hx he => ?_⟩
    · rcases eq_or_ne e d with rfl | hed
      · simp only [Function.update_self] at he ⊢
        exact hmade he
      · simp only [Function.update_of_ne hed] at he ⊢
        exact h.apart.made e he
    · rcases eq_or_ne e d with rfl | hed
      · simp only [Function.update_self] at he
        exact hidle he
      · simp only [Function.update_of_ne hed] at he
        exact h.apart.idle e hx he

omit [DecidableEq γ] [DecidableEq τ] in
/-- A display goes on in its life, and claims its port as before. -/
theorem Coherent.setLife (h : w.Coherent count) {life : Life}
    (hold : w.ports.life d ≠ .made ∧ w.ports.life d ≠ .ending)
    (hclaims : life.claims = (w.ports.life d).claims) (hnew : life ≠ .unmade ∧ life ≠ .made) :
    (w.setLife d life).Coherent count :=
  h.setDisplay hold hclaims (fun _ => rfl)
    (fun hd => h.apart.made d (.inr (hclaims ▸ hd.resolve_left hnew.2))) rfl
    (fun hd => absurd hd (not_or.mpr hnew))

omit [DecidableEq δ] [DecidableEq γ] [DecidableEq τ] in
theorem Steps.of_coherent (h : w'.Coherent count) (hdied : w'.died = w.died)
    (hchanges : w'.changes = w.changes) : w.Steps count w' :=
  .inr ⟨h, hdied, fun _ hc => .inl (hchanges ▸ hc)⟩

omit [DecidableEq δ] [DecidableEq γ] [DecidableEq τ] in
theorem Steps.of_moves (h : w.Coherent count) (hm : w.Ended w' ∨ w.Moves w' w.ports) :
    w.Steps count w' := by
  rcases hm with hended | hm
  · exact .inl hended
  · exact .of_coherent (h.same hm.ports hm.held) hm.died hm.changes

omit [DecidableEq γ] [DecidableEq τ] in
/-- A display's modes are no client. -/
theorem ports_setModes (w : World δ γ τ ρ R) (d : δ) (modeList : Option (List (DisplayMode ρ)))
    (update : Option (List (DisplayMode ρ) × γ)) :
    (w.setDisplay d { w.display d with modeList, update }).ports = w.ports := by
  rw [ports_setDisplay]
  simp [ports]

omit [DecidableEq γ] [DecidableEq τ] in
theorem make_steps (h : w.Coherent count) (hlife : (w.display d).life = .unmade) (port : ℕ)
    (reserved : Bool) : w.Steps count (w.make count d port reserved) := by
  have hunmade : w.ports.life d = .unmade := hlife
  have hattaching : w.held.bind Held.attaching ≠ some d := fun hd => by
    obtain ⟨held, hheld, hd⟩ := Option.bind_eq_some_iff.mp hd
    have hat := h.phase held hheld
    cases held <;> cases hd
    rw [hat.1.life] at hunmade
    cases hunmade
  have hown := h.apart.idle d hattaching (.inl hunmade)
  have hold : w.ports.life d ≠ .made ∧ w.ports.life d ≠ .ending := by rw [hunmade]; decide
  unfold make
  dsimp only
  split
  · refine .of_coherent (h.setDisplay hold ?_ nofun ?_ rfl fun _ => hown) rfl rfl
    · rw [hunmade]
      rfl
    · rintro (h | h) <;> cases h
  next hreserved =>
    refine .of_coherent (h.setDisplay hold ?_ nofun ?_ rfl fun _ => hown) rfl rfl
    · rw [hunmade]
      rfl
    · exact fun _ => ⟨Nat.not_le.mp fun hle => hreserved (.inl hle), rfl⟩

omit [DecidableEq δ] [DecidableEq γ] in
theorem pageCall_steps {page : Word} {port : ℕ} {restoring : Bool} {caller : Option τ}
    (h : w.Coherent count) (hw : w.page count page port restoring caller = some w') :
    w.Steps count w' := by
  unfold World.page at hw
  dsimp only at hw
  split_ifs at hw with hrange hheld
  · cases hw
    refine .inr ⟨h.same rfl rfl, rfl, fun c hc => ?_⟩
    rcases List.mem_append.mp hc with hc | hc
    · exact .inl hc
    · obtain rfl := List.mem_singleton.mp hc
      exact .inr ⟨fun _ => rfl, fun _ => rfl⟩
  · cases hw
    have hfree : w.held = none := Option.not_isSome_iff_eq_none.mp hheld
    have hlt := Nat.not_le.mp hrange
    exact .of_coherent (h.take hfree ⟨hlt, w.view_eq.symm,
      h.others port hlt fun e he => absurd (hfree.symm.trans he) nofun⟩ rfl) rfl rfl

theorem Coherent.call {a : Action δ γ τ ρ R} (h : w.Coherent count)
    (hw : w.call refresh16 count turns a = some w') : w.Steps count w' := by
  unfold World.call at hw
  split at hw
  · cases hw
  have hfree : w.held.isSome = false → w.held = none := fun hh => by simpa using hh
  cases a <;> dsimp only at hw
  case make d port reserved =>
    split_ifs at hw with hlife
    cases hw
    exact make_steps h hlife port reserved
  case attach d =>
    split_ifs at hw with hlife hrange hheld
    · have hmade : w.ports.life d = .made := not_not.mp hlife
      exact absurd hrange (Nat.not_le.mpr (h.apart.made d (.inl hmade)).1)
    · cases hw
      have hmade : w.ports.life d = .made := not_not.mp hlife
      have hnone := hfree (by simpa using hheld)
      have hok := h.others _ (h.apart.made d (.inl hmade)).1 fun e he =>
        absurd (hnone.symm.trans he) nofun
      exact .of_coherent (h.take hnone ⟨hmade, hok⟩ rfl) rfl rfl
  case storeAttached d =>
    split_ifs at hw with hlife
    cases hw
    have hclaimed : w.ports.life d = .claimed := hlife
    exact .of_coherent (h.setLife (by rw [hclaimed]; decide) (by rw [hclaimed]; rfl) (by decide))
      rfl rfl
  case drop d =>
    split_ifs at hw with hlife
    cases hw
    have hattached : w.ports.life d = .attached := hlife
    exact .of_coherent (h.setLife (by rw [hattached]; decide) (by rw [hattached]; rfl) (by decide))
      rfl rfl
  case detach d =>
    split_ifs at hw with hcond
    cases hw
    have hending : w.ports.life d = .ending := hcond.1
    have hnone := Option.isNone_iff_eq_none.mp hcond.2
    have hok := h.others _ (h.apart.made d (.inr (by rw [hending]; rfl))).1 fun e he =>
      absurd (hnone.symm.trans he) nofun
    exact .of_coherent (h.take hnone ⟨hending, hok⟩ rfl) rfl rfl
  case deregister d =>
    split_ifs at hw with hlife
    cases hw
    have hlife' : w.ports.life d = .detached ∨ w.ports.life d = .refused := hlife
    refine .of_coherent (h.setDisplay ?_ ?_ (fun _ => rfl) ?_ rfl ?_) rfl rfl
    · rcases hlife' with hd | hd <;> rw [hd] <;> decide
    · rcases hlife' with hd | hd <;> rw [hd] <;> rfl
    · rintro (hd | hd) <;> cases hd
    · rintro (hd | hd) <;> cases hd
  case setModeList d list upgrades =>
    split_ifs at hw with hlife
    unfold World.setModeList at hw
    dsimp only at hw
    split at hw
    · cases hw
      exact .of_coherent h rfl rfl
    · split at hw
      · cases hw
        exact .of_coherent (h.same (ports_setModes w d _ _) rfl) rfl rfl
      · split_ifs at hw <;> cases hw <;>
          exact .of_coherent (h.same (ports_setModes w d _ _) rfl) rfl rfl
  case handModeList d host =>
    split at hw
    · cases hw
    · have hports := ports_setModes w d (w.display d).modeList none
      rcases guestCall_quiet hw nofun with hended | hmoves
      · exact .inl hended
      · exact .of_coherent (h.same (hmoves.ports.trans hports) hmoves.held) hmoves.died
          hmoves.changes
  case page page port restoring => exact pageCall_steps h hw
  case teardown t =>
    split at hw
    · cases hw
      exact .of_coherent (h.same rfl rfl) rfl rfl
    · cases hw
  case teardownPort t =>
    split at hw
    · cases hw
      exact .of_coherent (h.same rfl rfl) rfl rfl
    · cases hw
  case teardownPage t =>
    split at hw
    · exact pageCall_steps h hw
    · cases hw
  case advance answer =>
    obtain ⟨held, hheld, hw⟩ := Option.bind_eq_some_iff.mp hw
    exact (advance_advanced h hheld hw).coherent h hheld
  case guest g a =>
    split_ifs at hw with hguest
    refine .of_moves h (guestCall_quiet hw fun client core host ha => ?_)
    rw [ha] at hguest
    cases hguest

/-! ### The runs -/

/-- What holds in every state of a run. -/
structure Safe (count : PortCount) (w : World δ γ τ ρ R) : Prop where
  died : ∀ kind, w.died = some kind → ∃ own, own ≠ .clientAlreadySet ∧ kind = .guestDisplay own
  coherent : w.died = none → w.Coherent count
  kept : ∀ c ∈ w.changes, c.Kept

omit [DecidableEq δ] [DecidableEq γ] [DecidableEq τ] in
theorem safe_new : (new : World δ γ τ ρ R).Safe count where
  died _ hkind := absurd hkind nofun
  coherent _ :=
    { apart := ⟨nofun, nofun, fun _ hd => absurd hd (by rintro (hd | hd) <;> cases hd),
        fun _ _ _ => rfl⟩
      others := fun q _ _ => by
        refine .free ?_ (fun d hd => absurd hd.1 nofun) ⟨rfl, nofun⟩
        simp [ports, busy, new]
      phase := nofun }
  kept _ hc := absurd hc List.not_mem_nil

theorem Safe.step (h : w.Safe count) {a : Action δ γ τ ρ R}
    (hs : Step refresh16 count w a w') : w'.Safe count := by
  obtain ⟨turns, hw⟩ := hs
  have hdied : w.died = none := by
    unfold World.call at hw
    split at hw
    · cases hw
    next hnone => exact Option.not_isSome_iff_eq_none.mp hnone
  rcases (h.coherent hdied).call hw with ⟨⟨own, hown, hkind⟩, hchanges⟩ | ⟨hc, hsame, hchanges⟩
  · refine ⟨fun kind hk => ?_, fun hnone => absurd (hkind.symm.trans hnone) nofun, ?_⟩
    · exact ⟨own, hown, (Option.some.inj (hkind.symm.trans hk)).symm⟩
    · rw [hchanges]
      exact h.kept
  · refine ⟨fun kind hk => ?_, fun _ => hc, fun c hc => (hchanges c hc).elim (h.kept c) id⟩
    rw [hsame, hdied] at hk
    cases hk

/-- A display is a port's client: parked there, or the client of the port's guest display. -/
def Client (w : World δ γ τ ρ R) (port : ℕ) (d : δ) : Prop :=
  w.displayClient port = some d ∨ (w.guestDisplay port).bind w.client = some d

/-- What a port, its guest display and its client's display say of the client. -/
structure OneClient (w : World δ γ τ ρ R) (port : ℕ) : Prop where
  busy : w.busy port = true ↔ ∃ d, w.Client port d
  one : ∀ d e, w.Client port d → w.Client port e → d = e
  either : w.displayClient port = none ∨ (w.guestDisplay port).bind w.client = none
  attached : ∀ d, w.Client port d ↔ (w.display d).life.claims = true ∧ (w.display d).port = port
  parked : ∀ d, w.displayClient port = some d → (w.display d).guestDisplay = none
  own : ∀ d, w.Client port d → ((w.guestDisplay port).bind w.client = some d ↔
    ∃ g, w.guestDisplay port = some g ∧ (w.display d).guestDisplay = some g)

omit [DecidableEq δ] [DecidableEq γ] [DecidableEq τ] in
theorem oneClient_of_portOk {p : ℕ} (h : w.ports.PortOk p) : w.OneClient p := by
  obtain ⟨client, hmoving, hplace⟩ := h.moving
  have hbusy : w.busy p = client.isSome := hmoving.busy
  -- either place shows the client, and the other one nothing
  have hshown : (w.displayClient p = client ∧ (w.guestDisplay p).bind w.client = none ∧
        w.guestDisplay p = none ∧ ∀ d, client = some d → (w.display d).guestDisplay = none) ∨
      (w.displayClient p = none ∧ (w.guestDisplay p).bind w.client = client ∧
        ∀ d, client = some d → (w.display d).guestDisplay = w.guestDisplay p ∧
          (w.guestDisplay p).isSome) := by
    rcases hplace with ⟨hs, hp, ho⟩ | ⟨g, hs, hp, hc, ho⟩
    · have hs' : w.guestDisplay p = none := hs
      exact .inl ⟨hp, by rw [hs']; rfl, hs', ho⟩
    · have hs' : w.guestDisplay p = some g := hs
      have hread : w.client g = client := by
        cases hguest : w.guest g with
        | none => simp [ports, hguest] at hc
        | some guest => simpa [ports, World.client, hguest] using hc
      refine .inr ⟨hp, by rw [hs']; exact hread, fun d hd => ?_⟩
      rw [hs']
      exact ⟨ho d hd, rfl⟩
  have hclient : ∀ d, w.Client p d ↔ client = some d := by
    intro d
    unfold Client
    rcases hshown with ⟨hp, hb, -, -⟩ | ⟨hp, hb, -⟩ <;> simp [hp, hb]
  refine ⟨?_, fun d e hd he => ?_, ?_, fun d => (hclient d).trans (hmoving.claims d).symm,
    fun d hd => ?_, fun d hd => ?_⟩
  · rw [hbusy, Option.isSome_iff_exists]
    exact exists_congr fun d => (hclient d).symm
  · exact Option.some.inj (((hclient d).mp hd).symm.trans ((hclient e).mp he))
  · exact hshown.imp (·.2.1) (·.1) |>.symm
  · rcases hshown with ⟨hp, -, -, ho⟩ | ⟨hp, -⟩
    · exact ho d (hp.symm.trans hd)
    · exact absurd (hp.symm.trans hd) nofun
  · have hd' := (hclient d).mp hd
    rcases hshown with ⟨-, hb, hs, -⟩ | ⟨-, hb, ho⟩
    · rw [hb, hs]
      exact ⟨nofun, fun ⟨_, hg, _⟩ => absurd hg nofun⟩
    · obtain ⟨hown, hsome⟩ := ho d hd'
      obtain ⟨g, hg⟩ := Option.isSome_iff_exists.mp hsome
      exact ⟨fun _ => ⟨g, hg, hown.trans hg⟩, fun _ => hb.trans hd'⟩

/-- In every run a busy port has one client, parked or its guest display's, and an attached display is
its port's; a page change loses and doubles no client, and one refused changes no port; and the process
ends only in a guest display's own death, never over a client. -/
theorem claimed_once {as : List (Action δ γ τ ρ R)}
    (h : Execution (Step refresh16 count) new as w) :
    (∀ kind, w.died = some kind → ∃ own, own ≠ .clientAlreadySet ∧ kind = .guestDisplay own) ∧
    (∀ c ∈ w.changes, (∀ p, (c.after p).clients = (c.call.before p).clients) ∧
      (c.raised ≠ none → c.after = c.call.before)) ∧
    (w.died = none → w.held = none → ∀ port, port < count.count → w.OneClient port) := by
  have hsafe : w.Safe count :=
    h.invariant (I := fun w => w.Safe count) safe_new fun _ _ _ hs hstep => hs.step hstep
  refine ⟨hsafe.died, fun c hc => ⟨(hsafe.kept c hc).clients, (hsafe.kept c hc).refused⟩,
    fun hdied hheld port hport => ?_⟩
  exact oneClient_of_portOk ((hsafe.coherent hdied).others port hport
    fun e he => absurd (hheld.symm.trans he) nofun)

/-- A display parks on a free port, and is the client of the guest display made there. -/
theorem claimed_once_binds : ∃ w : World Unit Unit Unit Unit Unit, ∃ as,
    Execution (Step (fun _ => 0) ⟨1, by decide, by decide⟩) new as w ∧
      w.died = none ∧ w.held = none ∧ (w.guestDisplay 0).bind w.client = some () ∧
      w.changes.length = 2 ∧ w.OneClient 0 := by
  let host : Host Unit := ⟨fun r => (r, false), some, some, some⟩
  let page : Page Unit := ⟨0, 0, 0, 0, 0, fun _ => ⟨0, 0, 0, 0⟩, 0, 0, ()⟩
  let advance : Action Unit Unit Unit Unit Unit := .advance ⟨host, (), some page, true, true⟩
  let as : List (Action Unit Unit Unit Unit Unit) :=
    [.make () 0 true, .attach (), advance, advance, .storeAttached (),
      .page 0 0 false, advance, .page 5 0 false, advance, advance, advance, advance]
  let run := as.foldlM (World.call (fun _ => 0) ⟨1, by decide, by decide⟩ 2) new
  have hrun : run.isSome = true := rfl
  have hex : Execution (Step (fun _ => 0) ⟨1, by decide, by decide⟩) new as (run.get hrun) :=
    (Execution.of_foldlM_option _ as (Option.some_get hrun).symm).mono fun _ _ _ h => ⟨2, h⟩
  exact ⟨run.get hrun, as, hex, rfl, rfl, rfl, rfl,
    (claimed_once hex).2.2 rfl rfl 0 (by decide)⟩

end World

end ReimsVgpu.DisplayPorts
