import LibTracer.Lib.ReplayWindow
import LibTracer.Net.NoiseCrypto
import LibTracer.Wire.Grammar

/-!
# The Noise link

A link holds two session slots and a handshake slot over a datagram carrier.  Every call runs under
its lock, so a link is a machine whose events are the calls (`Link.step`).  Beside the new state a call
gives the uses it made of a cipher, the datagrams it handed to the carrier and the frame it hands up.
-/

namespace LibTracer.Net.Noise

open Wire.Grammar (SpanCursor parseHeader)

/-! ## Data -/

/-- `kReplayWindow`. -/
def replayWidth : Nat := 64

/-- `kNonceLimit`: no nonce at or above it is sealed or opened. -/
def nonceLimit : Nat := 2 ^ 62

/-- `kMaxFrameBytes`. -/
def maxFrameBytes : Nat := 65535 - 16

/-- `kTransportHeaderBytes`. -/
def transportHeaderBytes : Nat := 9

/-- `kTransportOverhead`. -/
def transportOverhead : Nat := transportHeaderBytes + 16

/-- A datagram by its type byte.  `other` stands for a reserved type and for an empty datagram. -/
inductive Datagram (κ τ : Type) where
  | first (e : κ) (c : τ)
  | second (e : κ) (c : τ)
  | transport (phase : Bool) (nonce : Nat) (c : τ)
  | other
  deriving DecidableEq, Repr

/-- A live session.  `ck`, `own` and `counter` are an account no call reads: the chaining key it was
split from, this side's ephemeral key and the initiator counter of its handshake. -/
structure Session (κ : Type) where
  keys : TransportKeys κ
  sendNonce : Nat := 0
  window : ReplayWindow replayWidth := {}
  peer : Nat
  phase : Bool
  ck : κ
  own : Nat
  counter : Nat
  deriving DecidableEq

inductive Stage where
  | idle
  | awaitSecond
  | unacked
  | pending
  deriving DecidableEq, Repr

structure LinkConfig where
  side : Side
  maxFrame : Nat
  retry : Nat
  retryCap : Nat
  attempt : Nat
  pendingExpiry : Nat
  /-- The configured peer of a DIAL link. -/
  peerAddress : Nat
  deriving DecidableEq, Repr

/-- A link's state; a slot without a session is `none`. -/
structure Link (κ τ : Type) where
  current : Option (Session κ) := none
  next : Option (Session κ) := none
  stage : Stage := .idle
  hs : Option (Handshake κ) := none
  /-- The stored first message, of either side. -/
  first : Option (κ × τ) := none
  /-- The stored second message. -/
  second : Option (κ × τ) := none
  mark : Nat := 0
  peer : Nat := 0
  now : Nat := 0
  retryStep : Nat := 0
  retryAt : Nat := 0
  attemptAt : Nat := 0
  pendingAt : Nat := 0
  /-- How many ephemeral keys the host has drawn for this link. -/
  drawn : Nat := 0
  /-- The last initiator counter the host gave. -/
  counter : Nat := 0

/-- Where the writing of a handshake message fails, if it does. -/
inductive Fault where
  | none
  | beforeSeal
  | afterSeal
  deriving DecidableEq, Repr

/-- What the host, the backend and the store answer in one call. -/
structure Host where
  /-- The random source gave an ephemeral key. -/
  ephemeral : Bool := true
  /-- The initiator counter it gives. -/
  counter : Nat := 1
  message : Fault := .none
  /-- `Split()` succeeded. -/
  splits : Bool := true
  /-- The cipher sealed the transport message. -/
  seals : Bool := true
  /-- The store had the block of a send. -/
  block : Bool := true
  deriving DecidableEq, Repr

structure Effect (κ τ : Type) where
  sealed : List (Sealed κ τ) := []
  sent : List (Nat × Datagram κ τ) := []
  frame : Option (List UInt8) := none
  /-- Account: the key and nonce of the transport message the call accepted. -/
  accepted : Option (κ × Nat) := none
  /-- Account: the initiator counter a responder's call made a session for. -/
  made : Option Nat := none

namespace Link

variable {κ τ : Type} (C : IdealCrypto κ τ) (psk : κ) (cfg : LinkConfig)

/-- `deadline`: `now + d`, and never for 0. -/
def deadline (L : Link κ τ) (d : Nat) : Nat := if d = 0 then 0 else L.now + d

def due (L : Link κ τ) (t : Nat) : Bool := t != 0 && decide (t ≤ L.now)

inductive Slot where
  | current
  | next
  deriving DecidableEq, Repr

def slot (L : Link κ τ) : Slot → Option (Session κ)
  | .current => L.current
  | .next => L.next

def put (L : Link κ τ) (s : Session κ) : Slot → Link κ τ
  | .current => { L with current := some s }
  | .next => { L with next := some s }

/-! ## Sealing -/

/-- One transport message on the session `s` of a slot, drawing its nonce.  The cipher refuses at the
nonce limit and for a backend failure; the nonce then stays. -/
def sealIn (L : Link κ τ) (place : Slot) (s : Session κ) (frame : List UInt8) (host : Host) :
    Link κ τ × Effect κ τ :=
  if nonceLimit ≤ s.sendNonce ∨ maxFrameBytes < frame.length ∨ host.seals = false then (L, {})
  else
    let c := C.encrypt s.keys.send s.sendNonce none frame
    (L.put { s with sendNonce := s.sendNonce + 1 } place,
      { sealed := [⟨cfg.side, s.keys.send, s.sendNonce, none, frame, c⟩]
        sent := [(s.peer, .transport s.phase s.sendNonce c)] })

/-- `sending_session`: the current one, or the initiator's unacknowledged one. -/
def sendingSession (L : Link κ τ) : Option (Slot × Session κ) :=
  match L.current with
  | some s => some (.current, s)
  | none => if L.stage = .unacked then L.next.map fun s => (.next, s) else none

/-! ## The initiator's attempt -/

/-- `start_attempt`.  A host whose counter is used up has no value left to give. -/
def startAttempt (L : Link κ τ) (host : Host) : Link κ τ × Effect κ τ :=
  let counter := host.counter
  if 2 ^ 64 ≤ counter then (L, {})
  else if host.ephemeral = false then ({ L with counter := counter, hs := none }, {})
  else
    let e := L.drawn
    let out := writeFirst C psk e ⟨if L.current.isSome then 0 else 1, counter⟩
    let L := { L with counter := counter, hs := none, drawn := e + 1 }
    match host.message with
    | .beforeSeal => (L, {})
    | .afterSeal => (L, { sealed := [out.2] })
    | .none =>
      let pub := C.publicKey .initiator e
      ({ L with
          hs := some out.1, first := some (pub, out.2.cipher), stage := .awaitSecond,
          peer := cfg.peerAddress, retryStep := cfg.retry, retryAt := L.deadline cfg.retry,
          attemptAt := L.deadline cfg.attempt },
        { sealed := [out.2], sent := [(cfg.peerAddress, .first pub out.2.cipher)] })

/-- `demand`: DIAL with no session and no attempt in flight. -/
def demand (L : Link κ τ) (host : Host) : Link κ τ × Effect κ τ :=
  if cfg.side = .initiator ∧ L.stage = .idle ∧ L.current.isNone then
    L.startAttempt C psk cfg host
  else (L, {})

/-- `send`: the gathered spans as one transport message; with no session it is a demand. -/
def send (L : Link κ τ) (iov : List (List UInt8)) (host : Host) : Link κ τ × Effect κ τ :=
  let frame := iov.flatten
  if cfg.maxFrame < frame.length ∨ frame.length = 0 ∨ host.block = false then (L, {})
  else
    match L.sendingSession with
    | none => L.demand C psk cfg host
    | some (place, s) =>
      let out := L.sealIn C cfg place s frame host
      (out.1, { out.2 with sent := out.2.sent.filter fun d => d.1 ≠ 0 })

/-! ## The handshake messages -/

def answerPhase (L : Link κ τ) : Bool :=
  match L.current with
  | some s => !s.phase
  | none => false

/-- The flags byte of a second message: the phase, and that the responder holds no session. -/
def answerFlags (L : Link κ τ) : UInt8 :=
  (if L.answerPhase then 1 else 0) ||| (if L.current.isSome then 0 else 2)

/-- `answer`: a fresh ephemeral key, the second message, and the pending session. -/
def answer (L : Link κ τ) (ss : SymmetricState κ) (re : κ) (c : τ) (source : Nat) (host : Host) :
    Link κ τ × Effect κ τ :=
  if host.ephemeral = false then (L, {})
  else
    let e := L.drawn
    let L := { L with drawn := e + 1 }
    match writeSecond C ss re e L.answerFlags with
    | none => (L, {})
    | some (ss', r) =>
      match host.message with
      | .beforeSeal => (L, {})
      | .afterSeal => (L, { sealed := [r] })
      | .none =>
        if host.splits = false then
          ({ L with next := none, stage := .idle }, { sealed := [r] })
        else
          let pub := C.publicKey .responder e
          ({ L with
              next := some { keys := ss'.split C .responder, peer := source,
                             phase := L.answerPhase, ck := ss'.ck, own := e,
                             counter := L.mark }
              first := some (re, c), second := some (pub, r.cipher), stage := .pending,
              pendingAt := L.deadline cfg.pendingExpiry },
            { sealed := [r], sent := [(source, .second pub r.cipher)], made := some L.mark })

/-- The current session goes if the responder answered in its phase: it no longer holds that one. -/
def dropPhase (L : Link κ τ) (phase : Bool) : Option (Session κ) :=
  L.current.filter fun s => s.phase != phase

/-- `on_second`: the initiator's session, unacknowledged. -/
def onSecond (L : Link κ τ) (opens : Opener κ τ) (re : κ) (c : τ) (host : Host) :
    Link κ τ × Effect κ τ :=
  if 1 + 32 + C.size c ≠ 50 ∨ cfg.side = .responder ∨ L.stage ≠ .awaitSecond then (L, {})
  else
    match L.hs with
    | none => (L, {})
    | some hs =>
      match readSecond C opens hs re c with
      | none => (L, {})
      | some (ss, flags) =>
        let phase : Bool := flags &&& 1 ≠ 0
        let L := { L with hs := none, stage := .idle }
        if host.splits = false then (L, {})
        else
          ({ L with
              current := L.dropPhase phase
              next := some { keys := ss.split C .initiator, peer := L.peer, phase := phase,
                             ck := ss.ck, own := hs.e, counter := L.counter }
              stage := .unacked, retryStep := cfg.retry, retryAt := L.deadline cfg.retry }, {})

section

variable [DecidableEq κ] [DecidableEq τ]

/-- `on_first`: the byte-identical retransmission, the PSK proof, the counter, then the answer.  The
mark moves whether or not the handshake completes. -/
def onFirst (L : Link κ τ) (opens : Opener κ τ) (re : κ) (c : τ) (source : Nat) (host : Host) :
    Link κ τ × Effect κ τ :=
  if 1 + 32 + C.size c ≠ 58 ∨ cfg.side = .initiator then (L, {})
  else if L.stage = .pending ∧ L.first = some (re, c) then
    (L, { sent := (L.second.map fun m => (source, .second m.1 m.2)).toList })
  else
    match readFirst C psk opens re c with
    | none => (L, {})
    | some (ss, p) =>
      if p.counter ≤ L.mark then (L, {})
      else { L with mark := p.counter }.answer C cfg ss re c source host

end

/-! ## Transport messages -/

/-- `session_for`: the session a key phase names. -/
def sessionFor (L : Link κ τ) (phase : Bool) : Option (Slot × Session κ) :=
  match L.current.filter fun s => s.phase == phase with
  | some s => some (.current, s)
  | none => (L.next.filter fun s => s.phase == phase).map fun s => (.next, s)

/-- `promote`: the next session becomes current, and the one it replaces is dropped. -/
def promote (L : Link κ τ) (s : Session κ) : Link κ τ :=
  { L with current := some s, next := none, stage := .idle, retryAt := 0, attemptAt := 0,
           pendingAt := 0 }

/-- A session after an accepted message: it stays in its slot if it is current, and is promoted if not. -/
def settled (L : Link κ τ) (place : Slot) (s : Session κ) : Link κ τ :=
  match place with
  | .current => L.put s .current
  | .next => L.promote s

/-- `one_frame`: exactly one complete frame, nothing left over. -/
def oneFrame (plain : List UInt8) : Bool :=
  match parseHeader (SpanCursor.mk plain) .DEFER with
  | .ok h => h.total == plain.length
  | .error _ => false

/-- The session after an accepted message: its nonce is marked, and a responder follows the sender. -/
def acceptIn (s : Session κ) (nonce source : Nat) : Session κ :=
  { s with window := s.window.accept nonce
           peer := if cfg.side = .responder then source else s.peer }

/-- `on_transport`: size and nonce bound, replay check, tag, window; the first message on the next
session promotes it. -/
def onTransport (L : Link κ τ) (opens : Opener κ τ) (phase : Bool) (nonce : Nat) (c : τ)
    (source : Nat) (host : Host) : Link κ τ × Effect κ τ :=
  if cfg.maxFrame + transportOverhead < transportHeaderBytes + C.size c ∨
      transportHeaderBytes + C.size c < transportOverhead ∨ nonceLimit ≤ nonce then (L, {})
  else
    match L.sessionFor phase with
    | none => (L, {})
    | some (place, s) =>
      if s.window.refused nonce then (L, {})
      else
        match opens s.keys.recv nonce none c with
        | none => (L, {})
        | some plain =>
          let s' := acceptIn cfg s nonce source
          let L := L.settled place s'
          let took : Effect κ τ := { accepted := some (s.keys.recv, nonce) }
          if plain.isEmpty then
            if cfg.side = .responder then
              -- the answer to an empty message
              let out := L.sealIn C cfg .current s' [] host
              (out.1, { out.2 with accepted := took.accepted })
            else (L, took)
          else (L, { took with frame := if oneFrame plain then some plain else none })

/-! ## Deadlines and calls -/

/-- `link_state_t`, as far as a Noise link with its state block reports it. -/
inductive LinkState where
  | listening
  | up
  | dormant
  | dialing
  deriving DecidableEq, Repr

/-- `state_locked`: a DIAL link is up once its session is acknowledged. -/
def state (L : Link κ τ) : LinkState :=
  match cfg.side with
  | .responder => .listening
  | .initiator =>
    if L.current.isSome then .up else if L.stage = .idle then .dormant else .dialing

/-- `abandon`: the attempt deadline passed. -/
def abandon (L : Link κ τ) : Link κ τ :=
  { L with hs := none, next := none, stage := .idle, retryAt := 0, attemptAt := 0 }

def rearm (L : Link κ τ) : Link κ τ :=
  if L.due L.retryAt then
    let step := min (L.retryStep * 2) (max cfg.retry cfg.retryCap)
    { L with retryStep := step, retryAt := L.deadline step }
  else L

/-- `run_deadlines`: the deadlines of the stage the handshake slot is in. -/
def runDeadlines (L : Link κ τ) (host : Host) : Link κ τ × Effect κ τ :=
  match L.stage with
  | .idle => (L, {})
  | .pending =>
    if L.due L.pendingAt then ({ L with next := none, stage := .idle, pendingAt := 0 }, {})
    else (L, {})
  | .awaitSecond =>
    if L.due L.attemptAt then (L.abandon, {})
    else
      (L.rearm cfg, { sent := if L.due L.retryAt then
        (L.first.map fun m => (L.peer, .first m.1 m.2)).toList else [] })
  | .unacked =>
    if L.due L.attemptAt then (L.abandon, {})
    else if L.due L.retryAt then
      match (L.rearm cfg).next with
      | none => (L.rearm cfg, {})
      | some s => (L.rearm cfg).sealIn C cfg .next s [] host
    else (L, {})

/-- A call on a link, with what its host answers.  What a datagram opens to is the cipher's answer. -/
inductive Call (κ τ : Type) where
  | send (iov : List (List UInt8)) (host : Host)
  | dial (host : Host)
  | datagram (d : Datagram κ τ) (source : Nat) (opens : Opener κ τ) (host : Host)
  | sweep (now : Nat) (host : Host)

variable [DecidableEq κ] [DecidableEq τ]

/-- `dispatch`. -/
def onDatagram (L : Link κ τ) (opens : Opener κ τ) (source : Nat) (host : Host) :
    Datagram κ τ → Link κ τ × Effect κ τ
  | .first e c => L.onFirst C psk cfg opens e c source host
  | .second e c => L.onSecond C cfg opens e c host
  | .transport phase nonce c => L.onTransport C cfg opens phase nonce c source host
  | .other => (L, {})

def step (L : Link κ τ) : Call κ τ → Link κ τ × Effect κ τ
  | .send iov host => L.send C psk cfg iov host
  | .dial host => L.demand C psk cfg host
  | .datagram d source opens host => L.onDatagram C psk cfg opens source host d
  | .sweep now host => { L with now := now }.runDeadlines C cfg host

end Link

end LibTracer.Net.Noise
