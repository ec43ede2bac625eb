import LibTracer.Net.NoiseLink

/-!
# What a call on a Noise link can do

The sessions, the handshake and the counters of a link change in a dozen ways, whatever call it was.
They are listed here once, each with what was checked before it.

* **`step_moves`** — every call makes at most two moves.
-/

namespace LibTracer.Net.Noise

/-! ## The core of a link -/

/-- The sessions, the handshake and the counters of a link. -/
structure Core (κ : Type) where
  current : Option (Session κ) := none
  next : Option (Session κ) := none
  stage : Stage := .idle
  hs : Option (Handshake κ) := none
  mark : Nat := 0
  drawn : Nat := 0
  counter : Nat := 0

def Link.core {κ τ : Type} (L : Link κ τ) : Core κ :=
  ⟨L.current, L.next, L.stage, L.hs, L.mark, L.drawn, L.counter⟩

namespace Core

variable {κ : Type}

def slot (c : Core κ) : Link.Slot → Option (Session κ)
  | .current => c.current
  | .next => c.next

def put (c : Core κ) (s : Session κ) : Link.Slot → Core κ
  | .current => { c with current := some s }
  | .next => { c with next := some s }

def answerPhase (c : Core κ) : Bool :=
  match c.current with
  | some s => !s.phase
  | none => false

end Core

/-! ## The moves -/

section

variable {κ τ : Type} (C : IdealCrypto κ τ) (psk : κ) (side : Side) (gives : Core κ → Nat → Prop)
  (opens : Opener κ τ)

def Session.sealed (s : Session κ) (frame : List UInt8) : Sealed κ τ :=
  ⟨side, s.keys.send, s.sendNonce, none, frame, C.encrypt s.keys.send s.sendNonce none frame⟩

/-- An attempt may start: a DIAL link without a session and without a handshake, and a counter the host
gives. -/
structure MayAttempt (c : Core κ) (n : Nat) : Prop where
  dials : side = .initiator
  idle : c.stage = .idle
  noSession : c.current = none
  given : gives c n
  lt : n < 2 ^ 64

/-- A first message is authentic and its counter is above the mark. -/
structure MayAnswer (c : Core κ) (re : κ) (ct : τ) (ss : SymmetricState κ) (p : FirstPayload) :
    Prop where
  listens : side = .responder
  read : readFirst C psk opens re ct = some (ss, p)
  above : c.mark < p.counter

/-- **The moves of a link**: from a core to a core, with the uses of a cipher, the key and nonce of the
transport message that was accepted and the counter a session was made for. -/
inductive Move : Core κ → Core κ → List (Sealed κ τ) → Option (κ × Nat) → Option Nat → Prop
  /-- Nothing but deadlines, addresses and stored messages. -/
  | stay (c : Core κ) : Move c c [] none none
  /-- An attempt that did not get its first message written; it may have cost an ephemeral key. -/
  | counted (c : Core κ) (n d : Nat) (h : MayAttempt side gives c n) (hd : c.drawn ≤ d) :
      Move c { c with counter := n, hs := none, drawn := d } [] none none
  /-- An attempt whose first message was sealed and not kept. -/
  | wasted (c : Core κ) (n : Nat) (flags : UInt8) (h : MayAttempt side gives c n) :
      Move c { c with counter := n, hs := none, drawn := c.drawn + 1 }
        [(writeFirst C psk c.drawn ⟨flags, n⟩).2] none none
  /-- An attempt. -/
  | attempted (c : Core κ) (n : Nat) (flags : UInt8) (h : MayAttempt side gives c n) :
      Move c { c with counter := n, drawn := c.drawn + 1, stage := .awaitSecond
                      hs := some (writeFirst C psk c.drawn ⟨flags, n⟩).1 }
        [(writeFirst C psk c.drawn ⟨flags, n⟩).2] none none
  /-- A transport message on the current session or on an unacknowledged one. -/
  | sealed (c : Core κ) (place : Link.Slot) (s : Session κ) (frame : List UInt8)
      (hs : c.slot place = some s) (hsend : place = .next → c.stage = .unacked)
      (hlim : s.sendNonce < nonceLimit) :
      Move c (c.put { s with sendNonce := s.sendNonce + 1 } place) [s.sealed C side frame] none none
  /-- A first message was taken and could not be answered; it may have cost an ephemeral key. -/
  | marked (c : Core κ) (re : κ) (ct : τ) (ss : SymmetricState κ) (p : FirstPayload) (d : Nat)
      (h : MayAnswer C psk side opens c re ct ss p) (hd : c.drawn ≤ d) :
      Move c { c with mark := p.counter, drawn := d } [] none none
  /-- A second message was sealed and not kept, and the pending session stays. -/
  | unanswered (c : Core κ) (re : κ) (ct : τ) (ss : SymmetricState κ) (p : FirstPayload)
      (ss' : SymmetricState κ) (r : Sealed κ τ) (flags : UInt8)
      (h : MayAnswer C psk side opens c re ct ss p)
      (hw : writeSecond C ss re c.drawn flags = some (ss', r)) :
      Move c { c with mark := p.counter, drawn := c.drawn + 1 } [r] none none
  /-- A second message was sealed and gave no session. -/
  | unsplit (c : Core κ) (re : κ) (ct : τ) (ss : SymmetricState κ) (p : FirstPayload)
      (ss' : SymmetricState κ) (r : Sealed κ τ) (flags : UInt8)
      (h : MayAnswer C psk side opens c re ct ss p)
      (hw : writeSecond C ss re c.drawn flags = some (ss', r)) :
      Move c { c with mark := p.counter, drawn := c.drawn + 1, next := none, stage := .idle } [r]
        none none
  /-- An answer, and the pending session. -/
  | answered (c : Core κ) (re : κ) (ct : τ) (ss : SymmetricState κ) (p : FirstPayload)
      (ss' : SymmetricState κ) (r : Sealed κ τ) (flags : UInt8) (address : Nat)
      (h : MayAnswer C psk side opens c re ct ss p)
      (hw : writeSecond C ss re c.drawn flags = some (ss', r)) :
      Move c { c with
                mark := p.counter, drawn := c.drawn + 1, stage := .pending
                next := some { keys := ss'.split C .responder, peer := address,
                               phase := c.answerPhase, ck := ss'.ck, own := c.drawn,
                               counter := p.counter } } [r] none (some p.counter)
  /-- The second message came, and its session: or none, when the keys could not be split. -/
  | second (c : Core κ) (hs : Handshake κ) (re : κ) (ct : τ) (ss : SymmetricState κ) (flags : UInt8)
      (current next : Option (Session κ)) (stage : Stage) (dials : side = .initiator)
      (hhs : c.hs = some hs) (hstage : c.stage = .awaitSecond)
      (hr : readSecond C opens hs re ct = some (ss, flags))
      (hnext : current = c.current ∧ next = c.next ∧ stage = .idle ∨
        ∃ phase address, current = c.current.filter (fun s => s.phase != phase) ∧
          next = some { keys := ss.split C .initiator, peer := address, phase := phase, ck := ss.ck,
                        own := hs.e, counter := c.counter } ∧ stage = .unacked) :
      Move c { c with current := current, next := next, stage := stage, hs := none } [] none none
  /-- A transport message on the current session. -/
  | accepted (c : Core κ) (s : Session κ) (nonce address : Nat) (ct : τ) (plain : List UInt8)
      (hs : c.current = some s) (hw : s.window.refused nonce = false)
      (ho : opens s.keys.recv nonce none ct = some plain) :
      Move c { c with current := some { s with window := s.window.accept nonce, peer := address } }
        [] (some (s.keys.recv, nonce)) none
  /-- A transport message on the next session, which becomes current. -/
  | promoted (c : Core κ) (s : Session κ) (nonce address : Nat) (ct : τ) (plain : List UInt8)
      (hs : c.next = some s) (hw : s.window.refused nonce = false)
      (ho : opens s.keys.recv nonce none ct = some plain) :
      Move c { c with
                current := some { s with window := s.window.accept nonce, peer := address }
                next := none, stage := .idle } [] (some (s.keys.recv, nonce)) none
  /-- An attempt or a pending session expires. -/
  | expired (c : Core κ) (hs : Option (Handshake κ)) (hhs : hs = none ∨ hs = c.hs ∧ c.stage = .pending) :
      Move c { c with hs := hs, next := none, stage := .idle } [] none none

abbrev Moved (c : Core κ) (out : Link κ τ × Effect κ τ) : Prop :=
  Move C psk side gives opens c out.1.core out.2.sealed out.2.accepted out.2.made

/-- What a call makes of the core: at most two moves, the first of which may accept a message. -/
def MovesTo (c : Core κ) (out : Link κ τ × Effect κ τ) : Prop :=
  ∃ mid s₁ s₂, Move C psk side gives opens c mid s₁ out.2.accepted out.2.made ∧
    Move C psk side gives opens mid out.1.core s₂ none none ∧ out.2.sealed = s₁ ++ s₂

end

/-! ## Every call -/

section

variable {κ τ : Type} {C : IdealCrypto κ τ} {psk : κ} {cfg : LinkConfig}
  {gives : Core κ → Nat → Prop}

structure Effect.Quiet (eff : Effect κ τ) : Prop where
  accepted : eff.accepted = none
  frame : eff.frame = none

variable {place : Slot} {s : Session κ} {L : Link κ τ} {opens : Opener κ τ} {c : τ}

namespace Link

@[simp] theorem core_slot (L : Link κ τ) (place : Slot) : L.core.slot place = L.slot place := by
  cases place <;> rfl

theorem core_put (L : Link κ τ) (s : Session κ) (place : Slot) :
    (L.put s place).core = L.core.put s place := by
  cases place <;> rfl

theorem sealIn_quiet (L : Link κ τ) (place : Slot) (s : Session κ) (frame : List UInt8) (host : Host) :
    (L.sealIn C cfg place s frame host).2.Quiet ∧ (L.sealIn C cfg place s frame host).2.made = none := by
  rw [sealIn]
  split <;> exact ⟨⟨rfl, rfl⟩, rfl⟩

theorem sealIn_move (C : IdealCrypto κ τ) (psk : κ) (cfg : LinkConfig)
    (gives : Core κ → Nat → Prop) (opens : Opener κ τ)
    (hs : L.slot place = some s) (hsend : place = .next → L.stage = .unacked)
    (frame : List UInt8) (host : Host) :
    Moved C psk cfg.side gives opens L.core (L.sealIn C cfg place s frame host) := by
  fun_cases sealIn C cfg L place s frame host
  · exact .stay _
  · show Move C psk cfg.side gives opens L.core (L.put _ place).core _ none none
    rw [core_put]
    exact .sealed L.core place s frame (by rw [core_slot]; exact hs) hsend (by omega)

theorem slot_sendingSession (h : L.sendingSession = some (place, s)) :
    L.slot place = some s ∧ (place = .next → L.stage = .unacked) := by
  revert h
  fun_cases sendingSession L <;> intro h
  · cases h
    exact ⟨‹_›, fun hp => by cases hp⟩
  · obtain ⟨t, ht, heq⟩ := Option.map_eq_some_iff.mp h
    cases heq
    exact ⟨ht, fun _ => ‹_›⟩
  · cases h

variable {host : Host}

theorem startAttempt_move (opens : Opener κ τ)
    (hd : cfg.side = .initiator) (hi : L.stage = .idle) (hc : L.current = none)
    (hgives : gives L.core host.counter) :
    Moved C psk cfg.side gives opens L.core (L.startAttempt C psk cfg host) := by
  have hmay : ¬2 ^ 64 ≤ host.counter → MayAttempt cfg.side gives L.core host.counter :=
    fun hlim => ⟨hd, hi, hc, hgives, by omega⟩
  fun_cases startAttempt C psk cfg L host
  · exact .stay _
  · exact .counted L.core _ L.drawn (hmay ‹_›) le_rfl
  · exact .counted L.core _ (L.drawn + 1) (hmay ‹_›) (Nat.le_succ _)
  · exact .wasted L.core _ _ (hmay ‹_›)
  · exact .attempted L.core _ _ (hmay ‹_›)

theorem demand_move (opens : Opener κ τ) (L : Link κ τ) (hgives : gives L.core host.counter) :
    Moved C psk cfg.side gives opens L.core (L.demand C psk cfg host) := by
  fun_cases demand C psk cfg L host
  next h => exact startAttempt_move opens h.1 h.2.1 (Option.isNone_iff_eq_none.mp h.2.2) hgives
  · exact .stay _

theorem send_move (opens : Opener κ τ) (L : Link κ τ) (iov : List (List UInt8))
    (hgives : gives L.core host.counter) :
    Moved C psk cfg.side gives opens L.core (L.send C psk cfg iov host) := by
  fun_cases send C psk cfg L iov host
  · exact .stay _
  · exact demand_move opens L hgives
  next h _ =>
    obtain ⟨hs, hsend⟩ := slot_sendingSession h
    exact sealIn_move C psk cfg gives opens hs hsend iov.flatten host

theorem answer_move {ss : SymmetricState κ} {re : κ}
    {p : FirstPayload} (h : MayAnswer C psk cfg.side opens L.core re c ss p) (source : Nat) (host : Host) :
    Moved C psk cfg.side gives opens L.core
      (({ L with mark := p.counter } : Link κ τ).answer C cfg ss re c source host) := by
  fun_cases answer C cfg { L with mark := p.counter } ss re c source host
  · exact .marked L.core re c ss p L.drawn h le_rfl
  · exact .marked L.core re c ss p (L.drawn + 1) h (Nat.le_succ _)
  · exact .marked L.core re c ss p (L.drawn + 1) h (Nat.le_succ _)
  · exact .unanswered L.core re c ss p _ _ _ h ‹_›
  · exact .unsplit L.core re c ss p _ _ _ h ‹_›
  · exact .answered L.core re c ss p _ _ _ source h ‹_›

theorem onSecond_move (L : Link κ τ) (opens : Opener κ τ) (re : κ) (c : τ) (host : Host) :
    Moved C psk cfg.side gives opens L.core (L.onSecond C cfg opens re c host) := by
  have hdials : ¬(1 + 32 + C.size c ≠ 50 ∨ cfg.side = .responder ∨ L.stage ≠ .awaitSecond) →
      cfg.side = .initiator ∧ L.stage = .awaitSecond := by
    cases cfg.side <;> simp
  fun_cases onSecond C cfg L opens re c host
  case case4 hg hs hhs ss flags hr _ _ =>
    exact .second L.core hs re c ss flags L.current L.next .idle (hdials hg).1 hhs (hdials hg).2 hr
      (.inl ⟨rfl, rfl, rfl⟩)
  case case5 hg hs hhs ss flags hr _ _ _ =>
    exact .second L.core hs re c ss flags _ _ .unacked (hdials hg).1 hhs (hdials hg).2 hr
      (.inr ⟨_, _, rfl, rfl, rfl⟩)
  all_goals exact .stay _

theorem runDeadlines_move (opens : Opener κ τ) (L : Link κ τ) (host : Host) :
    Moved C psk cfg.side gives opens L.core (L.runDeadlines C cfg host) := by
  have hrearm : (L.rearm cfg).core = L.core ∧ (L.rearm cfg).stage = L.stage := by
    rw [rearm]
    split <;> exact ⟨rfl, rfl⟩
  have hidle : ∀ eff, eff.sealed = [] → eff.accepted = none → eff.made = none →
      Moved C psk cfg.side gives opens L.core (L.rearm cfg, eff) := by
    intro eff hsealed haccepted hmade
    rw [Moved, hrearm.1, hsealed, haccepted, hmade]
    exact .stay _
  fun_cases runDeadlines C cfg L host
  case case2 hst _ => exact .expired L.core L.hs (.inr ⟨rfl, hst⟩)
  case case4 => exact .expired L.core none (.inl rfl)
  case case5 => exact hidle _ rfl rfl rfl
  case case6 => exact .expired L.core none (.inl rfl)
  case case7 => exact hidle _ rfl rfl rfl
  case case8 hst _ _ s hn =>
    have hm := sealIn_move C psk cfg gives opens (show (L.rearm cfg).slot .next = some s from hn)
      (fun _ => hrearm.2.trans hst) [] host
    rw [hrearm.1] at hm
    exact hm
  all_goals exact .stay _

theorem onFirst_move [DecidableEq κ] [DecidableEq τ] (L : Link κ τ) (opens : Opener κ τ) (re : κ)
    (c : τ) (source : Nat) (host : Host) :
    Moved C psk cfg.side gives opens L.core (L.onFirst C psk cfg opens re c source host) := by
  fun_cases onFirst C psk cfg L opens re c source host
  case case5 hg _ ss p hr hm =>
    have hside : cfg.side = .responder := by
      cases hs : cfg.side with
      | responder => rfl
      | initiator => exact absurd (.inr hs) hg
    exact answer_move ⟨hside, hr, Nat.lt_of_not_le hm⟩ source host
  all_goals exact .stay _

end Link

theorem MovesTo.one {side : Side} {c : Core κ} {out : Link κ τ × Effect κ τ}
    (h : Moved C psk side gives opens c out) : MovesTo C psk side gives opens c out :=
  ⟨out.1.core, out.2.sealed, [], h, .stay _, (List.append_nil _).symm⟩

namespace Link

theorem of_sessionFor {phase : Bool}
    (h : L.sessionFor phase = some (place, s)) : L.slot place = some s := by
  revert h
  fun_cases sessionFor L phase <;> intro h
  · cases h
    exact (Option.filter_eq_some_iff.mp ‹_›).1
  · obtain ⟨t, ht, heq⟩ := Option.map_eq_some_iff.mp h
    cases heq
    exact (Option.filter_eq_some_iff.mp ht).1

/-- What became of a transport message: nothing, or it was accepted, and then answered if it was empty
or handed up if it was a frame. -/
theorem onTransport_cases (L : Link κ τ) (opens : Opener κ τ) (phase : Bool) (nonce : Nat) (c : τ)
    (source : Nat) (host : Host) : L.onTransport C cfg opens phase nonce c source host = (L, {}) ∨
      ∃ place s plain frame, L.slot place = some s ∧ s.window.refused nonce = false ∧
        opens s.keys.recv nonce none c = some plain ∧ (frame = none ∨ frame = some plain) ∧
        (L.onTransport C cfg opens phase nonce c source host =
            (L.settled place (acceptIn cfg s nonce source),
              { accepted := some (s.keys.recv, nonce), frame := frame }) ∨
          frame = none ∧
          L.onTransport C cfg opens phase nonce c source host =
            let out := (L.settled place (acceptIn cfg s nonce source)).sealIn C cfg .current
              (acceptIn cfg s nonce source) [] host
            (out.1, { out.2 with accepted := some (s.keys.recv, nonce) })) := by
  fun_cases onTransport C cfg L opens phase nonce c source host
  case case5 place s hf hw plain ho _ _ _ _ _ _ =>
    exact .inr ⟨place, s, plain, none, of_sessionFor hf, by simpa using hw, ho, .inl rfl, .inr ⟨rfl, rfl⟩⟩
  case case6 place s hf hw plain ho _ _ _ _ _ =>
    exact .inr ⟨place, s, plain, none, of_sessionFor hf, by simpa using hw, ho, .inl rfl, .inl rfl⟩
  case case7 place s hf hw plain ho _ _ _ _ =>
    refine .inr ⟨place, s, plain, _, of_sessionFor hf, by simpa using hw, ho, ?_, .inl rfl⟩
    split
    · exact .inr rfl
    · exact .inl rfl
  all_goals exact .inl rfl

theorem settled_move {nonce : Nat} {plain : List UInt8} (hs : L.slot place = some s)
    (hw : s.window.refused nonce = false) (ho : opens s.keys.recv nonce none c = some plain)
    (source : Nat) :
    Move C psk cfg.side gives opens L.core (L.settled place (acceptIn cfg s nonce source)).core []
      (some (s.keys.recv, nonce)) none := by
  cases place with
  | current => exact .accepted L.core s nonce _ c plain hs hw ho
  | next => exact .promoted L.core s nonce _ c plain hs hw ho

theorem onTransport_moves (L : Link κ τ) (opens : Opener κ τ) (phase : Bool) (nonce : Nat) (c : τ)
    (source : Nat) (host : Host) :
    MovesTo C psk cfg.side gives opens L.core (L.onTransport C cfg opens phase nonce c source host) := by
  rcases onTransport_cases L opens phase nonce c source host with heq | ⟨place, s, plain, frame,
    hs, hw, ho, -, heq | ⟨-, heq⟩⟩
  · rw [heq]
    exact .one (.stay _)
  · rw [heq]
    exact .one (settled_move hs hw ho source)
  · rw [heq]
    have hcur : (L.settled place (acceptIn cfg s nonce source)).slot .current =
        some (acceptIn cfg s nonce source) := by
      cases place <;> rfl
    have hm := sealIn_move C psk cfg gives opens hcur (fun h => by cases h) [] host
    obtain ⟨hq, hmade⟩ := sealIn_quiet (L.settled place (acceptIn cfg s nonce source)) .current
      (acceptIn cfg s nonce source) [] host
    rw [Moved, hq.accepted, hmade] at hm
    refine ⟨_, [], _, ?_, hm, rfl⟩
    dsimp only
    rw [hmade]
    exact settled_move hs hw ho source

end Link

def Link.Call.Gives (gives : Core κ → Nat → Prop) (c : Core κ) : Link.Call κ τ → Prop
  | .send _ host => gives c host.counter
  | .dial host => gives c host.counter
  | _ => True

theorem Link.Call.gives_any (call : Link.Call κ τ) (c : Core κ) : call.Gives (fun _ _ => True) c := by
  cases call <;> exact trivial

def Link.Call.under (opens : Opener κ τ) : Link.Call κ τ → Link.Call κ τ
  | .datagram d source _ host => .datagram d source opens host
  | call => call

/-- **Every call makes at most two moves**, whatever the cipher, the host and the backend answer. -/
theorem step_moves [DecidableEq κ] [DecidableEq τ] (L : Link κ τ) (opens : Opener κ τ)
    {call : Link.Call κ τ} (hgives : call.Gives gives L.core) :
    MovesTo C psk cfg.side gives opens L.core (L.step C psk cfg (call.under opens)) := by
  cases call with
  | send iov host => exact .one (Link.send_move _ L iov hgives)
  | dial host => exact .one (Link.demand_move _ L hgives)
  | sweep now host => exact .one (Link.runDeadlines_move _ { L with now := now } host)
  | datagram d source _ host =>
    cases d with
    | first e c => exact .one (Link.onFirst_move L opens e c source host)
    | second e c => exact .one (Link.onSecond_move L opens e c host)
    | transport phase nonce c => exact Link.onTransport_moves L opens phase nonce c source host
    | other => exact .one (.stay _)

/-! ## What a call takes in -/

namespace Link

section

variable (L : Link κ τ)

theorem startAttempt_quiet (host : Host) : (L.startAttempt C psk cfg host).2.Quiet := by
  fun_cases startAttempt C psk cfg L host <;> exact ⟨rfl, rfl⟩

theorem demand_quiet (host : Host) : (L.demand C psk cfg host).2.Quiet := by
  fun_cases demand C psk cfg L host
  · exact startAttempt_quiet L host
  · exact ⟨rfl, rfl⟩

theorem send_quiet (iov : List (List UInt8)) (host : Host) : (L.send C psk cfg iov host).2.Quiet := by
  fun_cases send C psk cfg L iov host
  · exact ⟨rfl, rfl⟩
  · exact demand_quiet L host
  · exact ⟨(sealIn_quiet ..).1.accepted, (sealIn_quiet ..).1.frame⟩

theorem runDeadlines_quiet (host : Host) : (L.runDeadlines C cfg host).2.Quiet := by
  fun_cases runDeadlines C cfg L host
  all_goals first | exact ⟨rfl, rfl⟩ | exact (sealIn_quiet ..).1

theorem onSecond_quiet (opens : Opener κ τ) (re : κ) (c : τ) (host : Host) :
    (L.onSecond C cfg opens re c host).2.Quiet := by
  fun_cases onSecond C cfg L opens re c host <;> exact ⟨rfl, rfl⟩

end

theorem onFirst_quiet [DecidableEq κ] [DecidableEq τ] (L : Link κ τ) (opens : Opener κ τ) (re : κ)
    (c : τ) (source : Nat) (host : Host) : (L.onFirst C psk cfg opens re c source host).2.Quiet := by
  fun_cases onFirst C psk cfg L opens re c source host
  case case5 ss p _ _ =>
    fun_cases answer C cfg { L with mark := p.counter } ss re c source host <;> exact ⟨rfl, rfl⟩
  all_goals exact ⟨rfl, rfl⟩

/-- What a call took in: a transport message that opened, whose plaintext is the frame handed up. -/
structure TookIn (call : Call κ τ) (eff : Effect κ τ) (phase : Bool) (n : Nat) (c : τ)
    (source : Nat) (opens : Opener κ τ) (host : Host) (k : κ) (plain : List UInt8) : Prop where
  call : call = .datagram (.transport phase n c) source opens host
  opened : opens k n none c = some plain
  accepted : eff.accepted = some (k, n)
  frame : eff.frame = none ∨ eff.frame = some plain

variable (C psk cfg) in
theorem step_took [DecidableEq κ] [DecidableEq τ] (L : Link κ τ) (call : Call κ τ) :
    (L.step C psk cfg call).2.Quiet ∨ ∃ phase n c source opens host k plain,
        TookIn call (L.step C psk cfg call).2 phase n c source opens host k plain := by
  cases call with
  | send iov host => exact .inl (send_quiet L iov host)
  | dial host => exact .inl (demand_quiet L host)
  | sweep now host => exact .inl (runDeadlines_quiet { L with now := now } host)
  | datagram d source opens host =>
    cases d with
    | first e c => exact .inl (onFirst_quiet L opens e c source host)
    | second e c => exact .inl (onSecond_quiet L opens e c host)
    | other => exact .inl ⟨rfl, rfl⟩
    | transport phase n c =>
      show (L.onTransport C cfg opens phase n c source host).2.Quiet ∨ _
      rcases onTransport_cases L opens phase n c source host with heq | ⟨place, s, plain,
        frame, -, -, ho, hframe, heq | ⟨hnone, heq⟩⟩
      · rw [heq]
        exact .inl ⟨rfl, rfl⟩
      · refine .inr ⟨phase, n, c, source, opens, host, s.keys.recv, plain, rfl, ho, ?_, ?_⟩
        · exact congrArg (fun out => out.2.accepted) heq
        · have hf := congrArg (fun out => out.2.frame) heq
          rcases hframe with hn | hp
          · exact .inl (hf.trans hn)
          · exact .inr (hf.trans hp)
      · refine .inr ⟨phase, n, c, source, opens, host, s.keys.recv, plain, rfl, ho, ?_, .inl ?_⟩
        · exact congrArg (fun out => out.2.accepted) heq
        · exact (congrArg (fun out => out.2.frame) heq).trans (sealIn_quiet _ _ _ _ _).1.frame

end Link

end

end LibTracer.Net.Noise
