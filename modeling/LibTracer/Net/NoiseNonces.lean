import LibTracer.Lib.Machine
import LibTracer.Net.NoiseMoves

/-!
# No key and nonce twice

Every key a side encrypts under names an ephemeral key of its own: the key of a handshake message, or
the sending key of a session.  Ephemeral keys are drawn once, so what is left is that the session of
one ephemeral key is armed once and that its nonce only goes up.

* **`no_key_and_nonce_twice`** — in every run of a link no two uses of a cipher share key and nonce.
-/

namespace LibTracer.Net.Noise

open List

section

variable {κ τ : Type} (C : IdealCrypto κ τ) (psk : κ)

/-! ## Whose key it is -/

def sendKey (side : Side) (ck : κ) : κ :=
  match side with
  | .initiator => C.hkdf ck none 0
  | .responder => C.hkdf ck none 1

/-- The chaining key ends a handshake with this side's ephemeral key `own`. -/
def ChainOf : Side → Nat → κ → Prop
  | .initiator, own, ck => ∃ re ee, ck = chainLast C psk (C.publicKey .initiator own) re ee
  | .responder, own, ck => ∃ re ee, ck = chainLast C psk re (C.publicKey .responder own) ee

/-- The key of the handshake message that carries this side's ephemeral key `own`. -/
def HandshakeKey : Side → Nat → κ → Prop
  | .initiator, own, k => k = firstKey C psk (C.publicKey .initiator own)
  | .responder, own, k => ∃ re ee, k = secondKey C psk re (C.publicKey .responder own) ee

variable {C psk} {side : Side} {ck : κ}

variable {side' : Side} {p : FirstPayload} {opens : Opener κ τ} {r : Sealed κ τ}

theorem sendKey_inj {ck' : κ}
    (h : sendKey C side ck = sendKey C side' ck') : side = side' ∧ ck = ck' := by
  cases side <;> cases side'
  · exact ⟨rfl, (C.hkdf_inj h).1⟩
  · exact absurd (C.hkdf_inj h).2.2 (by decide)
  · exact absurd (C.hkdf_inj h).2.2 (by decide)
  · exact ⟨rfl, (C.hkdf_inj h).1⟩

variable {own own' n b : Nat} {k : κ} {c : τ}

theorem ChainOf.own_unique (h : ChainOf C psk side own ck)
    (h' : ChainOf C psk side own' ck) : own = own' := by
  cases side with
  | initiator =>
    obtain ⟨re, ee, rfl⟩ := h
    obtain ⟨re', ee', heq⟩ := h'
    exact (C.publicKey_inj (chainLast_inj heq).1).2
  | responder =>
    obtain ⟨re, ee, rfl⟩ := h
    obtain ⟨re', ee', heq⟩ := h'
    exact (C.publicKey_inj (chainLast_inj heq).2.1).2

theorem HandshakeKey.own_unique
    (h : HandshakeKey C psk side own k) (h' : HandshakeKey C psk side own' k) : own = own' := by
  cases side with
  | initiator => exact (C.publicKey_inj (firstKey_inj (h.symm.trans h'))).2
  | responder =>
    obtain ⟨re, ee, rfl⟩ := h
    obtain ⟨re', ee', heq⟩ := h'
    exact (C.publicKey_inj (secondKey_inj heq).2.1).2

theorem HandshakeKey.ne_sendKey (h : HandshakeKey C psk side own k) : k ≠ sendKey C side' ck := by
  cases side with
  | initiator =>
    have hk : k = firstKey C psk (C.publicKey .initiator own) := h
    rw [hk]
    cases side' <;> exact firstKey_ne_transport _ _ _
  | responder =>
    obtain ⟨re, ee, rfl⟩ := h
    cases side' <;> exact secondKey_ne_transport _ _ _ _ _

theorem Side.other_ne (side : Side) : side.other ≠ side := by
  cases side <;> decide

theorem split_send (ss : SymmetricState κ) (side : Side) :
    (ss.split C side).send = sendKey C side ss.ck := by
  cases side <;> rfl

theorem split_recv (ss : SymmetricState κ) (side : Side) :
    (ss.split C side).recv = sendKey C side.other ss.ck := by
  cases side <;> rfl

/-! ## What the handshake steps leave -/

variable {re : κ} {ss : SymmetricState κ}

theorem readFirst_ck (h : readFirst C psk opens re c = some (ss, p)) : ss.ck = chainFirst C psk re ∧
      ∃ plain, opens (firstKey C psk re) 0 (some (firstState C psk re).h) c = some plain ∧
        p = decodeFirstPayload plain := by
  rw [readFirst, SymmetricState.decryptAndHash] at h
  cases ho : opens (firstState C psk re).k (firstState C psk re).n (some (firstState C psk re).h) c
    with
  | none =>
    rw [ho] at h
    cases h
  | some plain =>
    rw [ho] at h
    dsimp only [Option.map_some] at h
    split at h
    · cases h
    · cases h
      exact ⟨rfl, plain, ho, rfl⟩

variable {ss' : SymmetricState κ} {flags : UInt8}

theorem writeSecond_keys {re' : κ} {e : Nat} (hss : ss.ck = chainFirst C psk re')
    (h : writeSecond C ss re e flags = some (ss', r)) :
    ∃ ee, r.key = secondKey C psk re' (C.publicKey .responder e) ee ∧ r.nonce = 0 ∧
      r.side = .responder ∧ ss'.ck = chainLast C psk re' (C.publicKey .responder e) ee := by
  obtain ⟨ee, -, heq⟩ := Option.map_eq_some_iff.mp h
  cases heq
  refine ⟨ee, ?_, rfl, rfl, ?_⟩
  · show C.hkdf (C.hkdf ss.ck _ 0) _ 1 = _
    rw [hss]
    rfl
  · show C.hkdf (C.hkdf ss.ck _ 0) _ 0 = _
    rw [hss]
    rfl

theorem readSecond_keys {hs : Handshake κ} {e : κ}
    (hhs : hs.ss.ck = chainFirst C psk e) (h : readSecond C opens hs re c = some (ss, flags)) :
    ∃ ee, ss.ck = chainLast C psk e re ee ∧
      ∃ ad plain, opens (secondKey C psk e re ee) 0 ad c = some plain := by
  rw [readSecond] at h
  cases ha : C.agree .initiator hs.e re with
  | none =>
    rw [ha] at h
    cases h
  | some ee =>
    rw [ha] at h
    dsimp only [SymmetricState.decryptAndHash] at h
    have hk : (secondState C hs.ss re ee).k = secondKey C psk e re ee := by
      show C.hkdf (C.hkdf hs.ss.ck _ 0) _ 1 = _
      rw [hhs]
      rfl
    have hck : (secondState C hs.ss re ee).ck = chainLast C psk e re ee := by
      show C.hkdf (C.hkdf hs.ss.ck _ 0) _ 0 = _
      rw [hhs]
      rfl
    cases ho : opens (secondState C hs.ss re ee).k (secondState C hs.ss re ee).n
        (some (secondState C hs.ss re ee).h) c with
    | none =>
      rw [ho] at h
      cases h
    | some plain =>
      rw [ho] at h
      dsimp only [Option.map_some] at h
      split at h
      · cases h
      · cases h
        exact ⟨ee, hck, _, plain, hk ▸ ho⟩

/-! ## The account of one side -/

def Sealed.SameUse (r r' : Sealed κ τ) : Prop := r.key = r'.key ∧ r.nonce = r'.nonce

variable (C psk)

/-- A session of a side: its keys come from a chaining key of an ephemeral key below `b`, and its
window stands for the nonces taken under its receiving key. -/
structure SessionOf (side : Side) (b : Nat) (taken : List (κ × Nat)) (s : Session κ) : Prop where
  chain : ChainOf C psk side s.own s.ck
  send : s.keys.send = sendKey C side s.ck
  recv : s.keys.recv = sendKey C side.other s.ck
  below : s.own < b
  window : s.window.Tracks fun n => (s.keys.recv, n) ∈ taken

/-- A use of a cipher in a session of an ephemeral key below `b`: if a slot still holds the session,
its nonce has moved past. -/
structure SealedIn (side : Side) (b : Nat) (c : Core κ) (r : Sealed κ τ) (own : Nat) (ck : κ) :
    Prop where
  chain : ChainOf C psk side own ck
  key : r.key = sendKey C side ck
  below : own < b
  past : ∀ place s, c.slot place = some s → s.own = own → r.nonce < s.sendNonce

/-- The nonce was taken in a session of an ephemeral key below `b`. -/
def TakenIn (side : Side) (b : Nat) (x : κ × Nat) : Prop :=
  ∃ own ck, own < b ∧ ChainOf C psk side own ck ∧ x.1 = sendKey C side.other ck

/-- **What holds of one side**: the sessions of ephemeral keys below `b` are all armed, those from `b`
on are not. -/
structure Owned (side : Side) (b : Nat) (c : Core κ) (log : List (Sealed κ τ))
    (taken : List (κ × Nat)) : Prop where
  bound : b ≤ c.drawn
  handshake : ∀ h, c.hs = some h → side = .initiator ∧
    h.ss.ck = chainFirst C psk (C.publicKey .initiator h.e) ∧ b ≤ h.e ∧ h.e < c.drawn
  session : ∀ place s, c.slot place = some s → SessionOf C psk side b taken s
  apart : ∀ s t, c.current = some s → c.next = some t → s.own ≠ t.own
  seals : ∀ r ∈ log, r.side = side →
    (r.nonce = 0 ∧ ∃ e < c.drawn, HandshakeKey C psk side e r.key) ∨
      ∃ own ck, SealedIn C psk side b c r own ck
  takes : ∀ x ∈ taken, TakenIn C psk side b x
  once : log.Pairwise fun r r' => r.side = side → r'.side = side → ¬ r.SameUse r'
  fresh : taken.Nodup

/-- The handshake is dropped, kept or of an unused ephemeral key. -/
def Renews (side : Side) (b : Nat) (c c' : Core κ) : Prop :=
  ∀ x, c'.hs = some x → c.hs = some x ∨ side = .initiator ∧
    x.ss.ck = chainFirst C psk (C.publicKey .initiator x.e) ∧ b ≤ x.e ∧ x.e < c'.drawn

variable {C psk}

namespace Core

section

variable (c : Core κ) (s : Session κ)

theorem slot_put (place q : Link.Slot) :
    (c.put s place).slot q = if q = place then some s else c.slot q := by
  cases place <;> cases q <;> rfl

@[simp] theorem put_hs (place : Link.Slot) : (c.put s place).hs = c.hs := by
  cases place <;> rfl

@[simp] theorem put_drawn (place : Link.Slot) : (c.put s place).drawn = c.drawn := by
  cases place <;> rfl

end

end Core

theorem owned_start (side : Side) : Owned C psk side 0 ({} : Core κ) ([] : List (Sealed κ τ)) [] where
  bound := Nat.le_refl 0
  handshake _ h := by cases h
  session place _ h := by cases place <;> cases h
  apart _ _ h := by cases h
  seals _ h := by cases h
  takes _ h := by cases h
  once := .nil
  fresh := .nil

namespace Owned

variable {side : Side} {b : Nat} {c c' : Core κ} {log : List (Sealed κ τ)} {taken : List (κ × Nat)}

variable {s : Session κ}

section

variable (h : Owned C psk side b c log taken)
include h

theorem place_eq {p q : Link.Slot} {t : Session κ}
    (hs : c.slot p = some s) (ht : c.slot q = some t) (heq : s.own = t.own) : p = q := by
  cases p <;> cases q
  · rfl
  · exact absurd heq (h.apart s t hs ht)
  · exact absurd heq.symm (h.apart t s ht hs)
  · rfl

section

variable (hd : c.drawn ≤ c'.drawn) (hhs : Renews C psk side b c c')
include hd hhs

/-- The slots only lose sessions or swap. -/
theorem restrict (hslots : ∀ place s, c'.slot place = some s → ∃ place', c.slot place' = some s)
    (hapart : ∀ s t, c'.current = some s → c'.next = some t → s.own ≠ t.own) :
    Owned C psk side b c' log taken where
  bound := Nat.le_trans h.bound hd
  handshake x hx := by
    rcases hhs x hx with hold | hnew
    · obtain ⟨h1, h2, h3, h4⟩ := h.handshake x hold
      exact ⟨h1, h2, h3, Nat.lt_of_lt_of_le h4 hd⟩
    · exact hnew
  session place s hs := by
    obtain ⟨place', hs'⟩ := hslots place s hs
    exact h.session place' s hs'
  apart := hapart
  seals r hr hside := by
    rcases h.seals r hr hside with ⟨hn, e, he, hk⟩ | ⟨own, ck, hin⟩
    · exact .inl ⟨hn, e, Nat.lt_of_lt_of_le he hd, hk⟩
    refine .inr ⟨own, ck, hin.chain, hin.key, hin.below, fun place s hs => ?_⟩
    obtain ⟨place', hs'⟩ := hslots place s hs
    exact hin.past place' s hs'
  takes := h.takes
  once := h.once
  fresh := h.fresh

theorem regrow (hslots : c'.slot = c.slot) : Owned C psk side b c' log taken := by
  have hkeep : ∀ place s, c'.slot place = some s → c.slot place = some s := fun _ _ hs => hslots ▸ hs
  exact h.restrict hd hhs (fun place s hs => ⟨place, hkeep place s hs⟩) fun s t hs ht =>
    h.apart s t (hkeep .current s hs) (hkeep .next t ht)

theorem dropNext (hcur : ∃ place, c'.current = c.slot place) (hnext : c'.next = none) :
    Owned C psk side b c' log taken := by
  obtain ⟨q, hcur⟩ := hcur
  refine h.restrict hd hhs (fun place s hs => ?_) fun s t _ ht => absurd (hnext.symm.trans ht) (by simp)
  cases place with
  | current => exact ⟨q, hcur.symm.trans hs⟩
  | next => cases hnext.symm.trans hs

end

theorem foreign {more : List (Sealed κ τ)}
    (hmore : ∀ r ∈ more, r.side ≠ side) : Owned C psk side b c (log ++ more) taken :=
  { h with
    seals := fun r hr hside => by
      rcases mem_append.mp hr with hr | hr
      · exact h.seals r hr hside
      · exact absurd hside (hmore r hr)
    once := by
      refine pairwise_append.mpr ⟨h.once, ?_, ?_⟩
      · exact pairwise_of_forall_mem_list fun r hr _ _ hside => absurd hside (hmore r hr)
      · intro r _ r' hr' _ hside
        exact absurd hside (hmore r' hr') }

theorem sealHandshake (hnonce : r.nonce = 0) (hkey : HandshakeKey C psk side c.drawn r.key) :
    Owned C psk side b { c with drawn := c.drawn + 1 } (log ++ [r]) taken := by
  have hgrown : Owned C psk side b { c with drawn := c.drawn + 1 } log taken :=
    h.restrict (Nat.le_succ _) (fun x hx => .inl hx) (fun place s hs => ⟨place, hs⟩) h.apart
  refine { hgrown with seals := fun r' hr' hside => ?_, once := ?_ }
  · rcases mem_append.mp hr' with hr' | hr'
    · exact hgrown.seals r' hr' hside
    · rw [mem_singleton.mp hr']
      exact .inl ⟨hnonce, c.drawn, Nat.lt_succ_self _, hkey⟩
  · refine pairwise_append.mpr ⟨h.once, pairwise_singleton _ _, fun x hx y hy => ?_⟩
    rw [mem_singleton.mp hy]
    intro hside _ hsame
    rcases h.seals x hx hside with ⟨-, e, he, hk⟩ | ⟨own, ck, hin⟩
    · -- the ephemeral key of `r` was not drawn before
      have heq := hk.own_unique (hsame.1 ▸ hkey)
      omega
    · exact hkey.ne_sendKey (hsame.1.symm.trans hin.key)

theorem join {b' : Nat}
    (hnext : c'.next = some s) (hb' : b' = s.own + 1) (hb : b ≤ s.own) (hd : s.own < c'.drawn)
    (hchain : ChainOf C psk side s.own s.ck) (hsend : s.keys.send = sendKey C side s.ck)
    (hrecv : s.keys.recv = sendKey C side.other s.ck) (hwin : s.window = {})
    (hcur : ∀ t, c'.current = some t → c.current = some t) (hhs : c'.hs = none)
    (hdrawn : c.drawn ≤ c'.drawn) : Owned C psk side b' c' log taken := by
  subst hb'
  have hgrow : ∀ {n}, n < b → n < s.own + 1 := fun hn => by omega
  have hold : ∀ place t, c'.slot place = some t → t = s ∨ ∃ place', c.slot place' = some t := by
    intro place t ht
    cases place with
    | current => exact .inr ⟨.current, hcur t ht⟩
    | next => exact .inl (Option.some.inj (ht.symm.trans hnext))
  refine ⟨by omega, ?_, ?_, ?_, ?_, ?_, h.once, h.fresh⟩
  · intro x hx
    rw [hhs] at hx
    cases hx
  · intro place t ht
    rcases hold place t ht with rfl | ⟨place', ht'⟩
    · refine ⟨hchain, hsend, hrecv, Nat.lt_succ_self _, ?_⟩
      rw [hwin]
      refine ReplayWindow.tracks_empty.congr fun n => ⟨False.elim, fun hn => ?_⟩
      obtain ⟨own, ck, hown, hc, hk⟩ := h.takes _ hn
      obtain ⟨-, rfl⟩ := sendKey_inj (hrecv.symm.trans hk)
      have := hc.own_unique hchain
      omega
    · obtain ⟨h1, h2, h3, h4, h5⟩ := h.session place' t ht'
      exact ⟨h1, h2, h3, hgrow h4, h5⟩
  · intro t u ht hu
    have hlt := (h.session .current t (hcur t ht)).below
    have heq : s = u := Option.some.inj (hnext.symm.trans hu)
    rw [← heq]
    omega
  · intro r hr hside
    rcases h.seals r hr hside with ⟨hn, e, he, hk⟩ | ⟨own, ck, hin⟩
    · exact .inl ⟨hn, e, Nat.lt_of_lt_of_le he hdrawn, hk⟩
    refine .inr ⟨own, ck, hin.chain, hin.key, hgrow hin.below, fun place t ht hown => ?_⟩
    rcases hold place t ht with rfl | ⟨place', ht'⟩
    · have := hin.below
      omega
    · exact hin.past place' t ht' hown
  · intro x hx
    obtain ⟨own, ck, hown, hrest⟩ := h.takes x hx
    exact ⟨own, ck, hgrow hown, hrest⟩

end

variable {place : Link.Slot}

section

variable (h : Owned C psk side b c log taken) (hs : c.slot place = some s)
include h hs

theorem replace (s' : Session κ) (hck : s'.ck = s.ck) (hown : s'.own = s.own)
    (hkeys : s'.keys = s.keys) (hnonce : s.sendNonce ≤ s'.sendNonce)
    {taken' : List (κ × Nat)} (hwin : s'.window.Tracks fun n => (s'.keys.recv, n) ∈ taken')
    (hothers : ∀ t q, c.slot q = some t → q ≠ place → t.window.Tracks fun n => (t.keys.recv, n) ∈ taken')
    (htakes : ∀ x ∈ taken', TakenIn C psk side b x) (hfresh : taken'.Nodup) :
    Owned C psk side b (c.put s' place) log taken' := by
  have hslot : ∀ q t, (c.put s' place).slot q = some t →
      q = place ∧ t = s' ∨ q ≠ place ∧ c.slot q = some t := by
    intro q t ht
    rw [Core.slot_put] at ht
    split at ht
    next hq =>
      exact .inl ⟨hq, (Option.some.inj ht).symm⟩
    next hq =>
      exact .inr ⟨hq, ht⟩
  refine ⟨by simpa using h.bound, ?_, ?_, ?_, ?_, htakes, h.once, hfresh⟩
  · intro x hx
    rw [Core.put_hs] at hx
    rw [Core.put_drawn]
    exact h.handshake x hx
  · intro q t ht
    rcases hslot q t ht with ⟨-, rfl⟩ | ⟨hq, ht'⟩
    · obtain ⟨h1, h2, h3, h4, -⟩ := h.session place s hs
      exact ⟨by rw [hown, hck]; exact h1, by rw [hkeys, hck]; exact h2,
        by rw [hkeys, hck]; exact h3, by rw [hown]; exact h4, hwin⟩
    · obtain ⟨h1, h2, h3, h4, -⟩ := h.session q t ht'
      exact ⟨h1, h2, h3, h4, hothers t q ht' hq⟩
  · intro t u ht hu heq
    rcases hslot .current t ht with ⟨hp, rfl⟩ | ⟨hp, ht'⟩ <;>
      rcases hslot .next u hu with ⟨hq, rfl⟩ | ⟨hq, hu'⟩
    · exact absurd (hp.trans hq.symm) (by decide)
    · rw [hown] at heq
      exact hq (h.place_eq hu' hs heq.symm)
    · rw [hown] at heq
      exact hp (h.place_eq ht' hs heq)
    · exact h.apart t u ht' hu' heq
  · intro r hr hside
    rw [Core.put_drawn]
    rcases h.seals r hr hside with hhand | ⟨own, ck, hin⟩
    · exact .inl hhand
    refine .inr ⟨own, ck, hin.chain, hin.key, hin.below, fun q t ht ho => ?_⟩
    rcases hslot q t ht with ⟨-, rfl⟩ | ⟨-, ht'⟩
    · have := hin.past place s hs (hown ▸ ho)
      omega
    · exact hin.past q t ht' ho

theorem sealTransport (frame : List UInt8) :
    Owned C psk side b (c.put { s with sendNonce := s.sendNonce + 1 } place)
      (log ++ [s.sealed C side frame]) taken := by
  have hses := h.session place s hs
  have hput : Owned C psk side b (c.put { s with sendNonce := s.sendNonce + 1 } place) log taken :=
    h.replace hs { s with sendNonce := s.sendNonce + 1 } rfl rfl rfl (Nat.le_succ _) hses.window
      (fun t q ht _ => (h.session q t ht).window) h.takes h.fresh
  refine { hput with seals := fun r hr hside => ?_, once := ?_ }
  · rcases mem_append.mp hr with hr | hr
    · exact hput.seals r hr hside
    rw [mem_singleton.mp hr]
    refine .inr ⟨s.own, s.ck, hses.chain, hses.send, hses.below, fun q t ht hown => ?_⟩
    rw [Core.slot_put] at ht
    split at ht
    · cases ht
      exact Nat.lt_succ_self _
    next hq =>
      exact absurd (h.place_eq ht hs hown) hq
  · refine pairwise_append.mpr ⟨h.once, pairwise_singleton _ _, fun x hx y hy => ?_⟩
    rw [mem_singleton.mp hy]
    intro hside _ hsame
    have hkey : x.key = sendKey C side s.ck := hsame.1.trans hses.send
    rcases h.seals x hx hside with ⟨-, e, -, hk⟩ | ⟨own, ck, hin⟩
    · exact hk.ne_sendKey hkey
    -- the same key is the same session, whose nonce is past that of `x`
    obtain ⟨-, rfl⟩ := sendKey_inj (hin.key.symm.trans hkey)
    have hpast := hin.past place s hs (hses.chain.own_unique hin.chain)
    have hnonce : x.nonce = s.sendNonce := hsame.2
    omega

theorem take (hn : s.window.refused n = false) (address : Nat) :
    Owned C psk side b (c.put { s with window := s.window.accept n, peer := address } place) log
      (taken ++ [(s.keys.recv, n)]) := by
  have hses := h.session place s hs
  have hnew : (s.keys.recv, n) ∉ taken := hses.window.not_taken hn
  refine h.replace hs { s with window := s.window.accept n, peer := address } rfl rfl rfl
    le_rfl ?_ ?_ ?_ ?_
  · exact (hses.window.accept hn).congr fun m => by simp
  · intro t q ht hq
    have hses' := h.session q t ht
    refine hses'.window.congr fun m => ?_
    rw [mem_append, mem_singleton]
    refine ⟨.inl, fun hm => hm.elim id fun heq => absurd ?_ hq⟩
    -- one key in two slots would be one ephemeral key in two slots
    have hkey : t.keys.recv = s.keys.recv := congrArg Prod.fst heq
    obtain ⟨-, hck⟩ := sendKey_inj (hses'.recv.symm.trans (hkey.trans hses.recv))
    exact h.place_eq ht hs (hses'.chain.own_unique (hck ▸ hses.chain))
  · exact forall_mem_append.mpr ⟨h.takes,
      forall_mem_singleton.mpr ⟨s.own, s.ck, hses.below, hses.chain, hses.recv⟩⟩
  · exact nodup_append.mpr ⟨h.fresh, pairwise_singleton _ _, fun x hx y hy heq => by
      rw [mem_singleton.mp hy] at heq
      exact hnew (heq ▸ hx)⟩

end

end Owned

/-! ## Every move -/

variable {side : Side} {gives : Core κ → Nat → Prop} {opens : Opener κ τ} {c c' : Core κ} {log : List (Sealed κ τ)}
  {taken : List (κ × Nat)} {more : List (Sealed κ τ)} {accepted : Option (κ × Nat)}
  {made : Option Nat}

theorem Move.side_eq (h : Move C psk side gives opens c c' more accepted made) :
    ∀ r ∈ more, r.side = side := by
  intro r hr
  cases h with
  | wasted n flags hmay | attempted n flags hmay =>
    rw [mem_singleton.mp hr, hmay.dials]
    rfl
  | sealed place s frame hs hsend hlim =>
    rw [mem_singleton.mp hr]
    rfl
  | unanswered re ct ss p ss' r' flags hmay hw | unsplit re ct ss p ss' r' flags hmay hw
  | answered re ct ss p ss' r' flags address hmay hw =>
    obtain ⟨ee, -, -, hside, -⟩ := writeSecond_keys (readFirst_ck hmay.read).1 hw
    rw [mem_singleton.mp hr, hside, hmay.listens]
  | _ => cases hr

theorem Owned.attempt (h : Owned C psk side b c log taken) (hmay : MayAttempt side gives c n)
    (flags : UInt8) : Owned C psk side b { c with drawn := c.drawn + 1 }
      (log ++ [(writeFirst C psk c.drawn ⟨flags, n⟩).2]) taken := by
  refine h.sealHandshake rfl ?_
  rw [hmay.dials]
  exact rfl

theorem Owned.answer (h : Owned C psk side b c log taken) {ct : τ}
    (hmay : MayAnswer C psk side opens c re ct ss p)
    (hw : writeSecond C ss re c.drawn flags = some (ss', r)) :
    Owned C psk side b { c with drawn := c.drawn + 1 } (log ++ [r]) taken := by
  obtain ⟨ee, hkey, hnonce, -, -⟩ := writeSecond_keys (readFirst_ck hmay.read).1 hw
  refine h.sealHandshake hnonce ?_
  rw [hmay.listens]
  exact ⟨re, ee, hkey⟩

/-- **Every move keeps the account of its side.** -/
theorem Move.owned (hm : Move C psk side gives opens c c' more accepted made)
    (h : ∃ b, Owned C psk side b c log taken) :
    ∃ b, Owned C psk side b c' (log ++ more) (taken ++ accepted.toList) := by
  obtain ⟨b, h⟩ := h
  cases hm with simp only [Option.toList_none, append_nil]
  | stay => exact ⟨b, h⟩
  | counted n d hmay hd => exact ⟨b, h.regrow hd (fun x hx => by cases hx) rfl⟩
  | wasted n flags hmay =>
    exact ⟨b, (h.attempt hmay flags).regrow le_rfl (fun x hx => by cases hx) rfl⟩
  | attempted n flags hmay =>
    refine ⟨b, (h.attempt hmay flags).regrow le_rfl (fun x hx => ?_) rfl⟩
    cases hx
    exact .inr ⟨hmay.dials, rfl, h.bound, Nat.lt_succ_self _⟩
  | sealed place s frame hs hsend hlim => exact ⟨b, h.sealTransport hs frame⟩
  | marked re ct ss p d hmay hd => exact ⟨b, h.regrow hd (fun x hx => .inl hx) rfl⟩
  | unanswered re ct ss p ss' r flags hmay hw =>
    exact ⟨b, (h.answer hmay hw).regrow le_rfl (fun x hx => .inl hx) rfl⟩
  | unsplit re ct ss p ss' r flags hmay hw =>
    exact ⟨b, (h.answer hmay hw).dropNext le_rfl (fun x hx => .inl hx) ⟨.current, rfl⟩ rfl⟩
  | answered re ct ss p ss' r flags address hmay hw =>
    obtain ⟨ee, -, -, -, hck⟩ := writeSecond_keys (readFirst_ck hmay.read).1 hw
    have hnone : c.hs = none := by
      cases hhs : c.hs with
      | none => rfl
      | some x => cases hmay.listens.symm.trans (h.handshake x hhs).1
    refine ⟨c.drawn + 1, (h.answer hmay hw).join rfl rfl h.bound (Nat.lt_succ_self _) ?_ ?_ ?_ rfl
      (fun t ht => ht) hnone le_rfl⟩
    all_goals rw [hmay.listens]
    · exact ⟨re, ee, hck⟩
    · exact split_send _ _
    · exact split_recv _ _
  | second hs re ct ss flags current next stage hdials hhs hstage hr hnext =>
    obtain ⟨-, hck, hb, hlt⟩ := h.handshake hs hhs
    rcases hnext with ⟨rfl, rfl, rfl⟩ | ⟨phase, address, rfl, rfl, rfl⟩
    · exact ⟨b, h.regrow le_rfl (fun x hx => by cases hx) rfl⟩
    obtain ⟨ee, hlast, -⟩ := readSecond_keys hck hr
    refine ⟨hs.e + 1, h.join rfl rfl hb hlt ?_ ?_ ?_ rfl
      (fun t ht => (Option.filter_eq_some_iff.mp ht).1) rfl le_rfl⟩
    all_goals rw [hdials]
    · exact ⟨re, ee, hlast⟩
    · exact split_send _ _
    · exact split_recv _ _
  | accepted s nonce address ct plain hs hw ho =>
    exact ⟨b, h.take (show c.slot .current = some s from hs) hw address⟩
  | promoted s nonce address ct plain hs hw ho =>
    have htaken := h.take (show c.slot .next = some s from hs) hw address
    exact ⟨b, htaken.dropNext le_rfl (fun x hx => .inl hx) ⟨.next, rfl⟩ rfl⟩
  | expired hs hhs =>
    refine ⟨b, h.dropNext le_rfl (fun x hx => ?_) ⟨.current, rfl⟩ rfl⟩
    rcases hhs with rfl | ⟨rfl, -⟩
    · cases hx
    · exact .inl hx

variable {out : Link κ τ × Effect κ τ}

theorem MovesTo.owned (hm : MovesTo C psk side gives opens c out)
    (h : ∃ b, Owned C psk side b c log taken) : ∃ b, Owned C psk side b out.1.core (log ++ out.2.sealed)
      (taken ++ out.2.accepted.toList) := by
  obtain ⟨mid, s₁, s₂, h₁, h₂, hsealed⟩ := hm
  have hend := h₂.owned (h₁.owned h)
  rw [hsealed, ← append_assoc]
  simpa using hend

theorem MovesTo.side_eq (hm : MovesTo C psk side gives opens c out) :
    ∀ r ∈ out.2.sealed, r.side = side := by
  obtain ⟨mid, s₁, s₂, h₁, h₂, hsealed⟩ := hm
  intro r hr
  rw [hsealed] at hr
  exact (mem_append.mp hr).elim (h₁.side_eq r) (h₂.side_eq r)

end

/-! ## Every run of a link -/

section

variable {κ τ : Type} [DecidableEq κ] [DecidableEq τ]

/-- A link with all it sealed and all it took in since it was built. -/
structure Account (κ τ : Type) where
  link : Link κ τ := {}
  log : List (Sealed κ τ) := []
  taken : List (κ × Nat) := []

omit [DecidableEq κ] [DecidableEq τ] in
theorem Link.Call.exists_under (call : Link.Call κ τ) : ∃ opens, call.under opens = call := by
  cases call with
  | datagram d source opens host => exact ⟨opens, rfl⟩
  | _ => exact ⟨fun _ _ _ _ => none, rfl⟩

/-- The calls on one link.  What a datagram opens to is anything at all, call by call. -/
def linkMachine (C : IdealCrypto κ τ) (psk : κ) (cfg : LinkConfig) :
    Machine (Account κ τ) (Link.Call κ τ) (Effect κ τ) where
  start := {}
  step a call :=
    let out := a.link.step C psk cfg call
    (⟨out.1, a.log ++ out.2.sealed, a.taken ++ out.2.accepted.toList⟩, out.2)

/-- **No key and nonce twice**: in every run of a link, on either side, no two uses of a cipher share
key and nonce. -/
theorem no_key_and_nonce_twice (C : IdealCrypto κ τ) (psk : κ) (cfg : LinkConfig)
    (calls : List (Link.Call κ τ)) :
    ((linkMachine C psk cfg).run calls).log.Pairwise fun r r' => ¬ r.SameUse r' := by
  have hinv : ∀ a, (linkMachine C psk cfg).Reachable a →
      (∃ b, Owned C psk cfg.side b a.link.core a.log a.taken) ∧ ∀ r ∈ a.log, r.side = cfg.side := by
    intro a ha
    refine (linkMachine C psk cfg).invariant (P := fun a =>
      (∃ b, Owned C psk cfg.side b a.link.core a.log a.taken) ∧ ∀ r ∈ a.log, r.side = cfg.side)
      ⟨⟨0, owned_start cfg.side⟩, fun r hr => by cases hr⟩ (fun a call h => ?_) ha
    obtain ⟨opens, hsame⟩ := call.exists_under
    have hmoves : MovesTo C psk cfg.side (fun _ _ => True) opens a.link.core
        (a.link.step C psk cfg call) := by
      rw [← hsame]
      exact step_moves a.link opens (call.gives_any _)
    exact ⟨hmoves.owned h.1, fun r hr => (mem_append.mp hr).elim (h.2 r) (hmoves.side_eq r)⟩
  obtain ⟨⟨b, hown⟩, hside⟩ := hinv _ ((linkMachine C psk cfg).reachable_run calls)
  exact hown.once.imp_of_mem fun hr hr' h => h (hside _ hr) (hside _ hr')

end

end LibTracer.Net.Noise
