import LibTracer.Net.NoiseCrypto
import LibTracer.Wire.Crc

/-!
# The NNpsk0 handshake in bytes (`security_noise.hpp`)

`NoiseCrypto` has the handshake over an ideal backend.  Here it is as the code runs it: datagrams of bytes,
a backend whose every call may refuse, and the working copy that a refused step drops.

* **`handshake_correct`** — what one side writes the other reads, and a refused step is forgotten.
-/

namespace LibTracer.Net.Nnpsk0

open List
open LibTracer.Crc (Bytes)
open Noise (FirstPayload encodeFirstPayload decodeFirstPayload decode_encodeFirstPayload)

/-! ## The backend -/

/-- `key32_t`. -/
structure Key where
  bytes : Bytes
  length_bytes : bytes.length = 32
  deriving DecidableEq

namespace Key

/-- A zeroed array with the front of `bs` copied into it. -/
def ofBytes (bs : Bytes) : Key where
  bytes := (bs ++ List.replicate 32 0).take 32
  length_bytes := by
    rw [length_take, length_append, length_replicate]
    omega

def zero : Key := ofBytes []

def allZero (k : Key) : Bool := k.bytes.all (· == 0)

theorem ofBytes_append (k : Key) (rest : Bytes) : ofBytes (k.bytes ++ rest) = k := by
  obtain ⟨bs, hbs⟩ := k
  have htake : (bs ++ (rest ++ List.replicate 32 0)).take 32 = bs := take_left' hbs
  simp only [ofBytes, append_assoc, htake]

end Key

def kTagLen : Nat := 16

/-- `crypto_backend`: every call may refuse.  A cipher's key is passed with each use; `setKey` says whether
    it is taken. -/
structure Backend where
  hash : Bytes → Option Key
  /-- `HKDF(ck, ikm, n)`: `n` blocks. -/
  hkdf : Key → Bytes → (n : Nat) → Option (Fin n → Key)
  /-- `dh_key_t::set`: the public key of a private one. -/
  publicKey : Key → Option Key
  /-- `dh_key_t::agree`, with the private key the pair was set from. -/
  agree : Key → Key → Option Key
  setKey : Key → Bool
  encrypt : Key → Nat → Bytes → Bytes → Option Bytes
  decrypt : Key → Nat → Bytes → Bytes → Option Bytes
  length_encrypt : ∀ {k : Key} {n : Nat} {ad pt ct : Bytes},
    encrypt k n ad pt = some ct → ct.length = pt.length + kTagLen

/-- The key agreement commutes, and the cipher opens what it sealed. -/
structure Backend.Lawful (B : Backend) : Prop where
  agree_comm : ∀ {a b pa pb : Key}, B.publicKey a = some pa → B.publicKey b = some pb →
    B.agree a pb = B.agree b pa
  decrypt_encrypt : ∀ {k : Key} {n : Nat} {ad pt ct : Bytes},
    B.encrypt k n ad pt = some ct → B.decrypt k n ad ct = some pt

def Backend.Authentic (B : Backend) : Prop :=
  ∀ {k : Key} {n : Nat} {ad ct pt : Bytes},
    B.decrypt k n ad ct = some pt → B.encrypt k n ad pt = some ct

inductive Refusal where
  | MALFORMED
  | AUTH
  | PAYLOAD
  | LOW_ORDER
  | NONCE_BOUND
  | STATE
  | BACKEND
  deriving DecidableEq, Repr

/-! ## The symmetric state -/

structure SymmetricState where
  ck : Key
  h : Key
  k : Key
  n : Nat
  hasKey : Bool
  deriving DecidableEq

def kHashLen : Nat := 32
def kMaxMixHash : Nat := 64

namespace SymmetricState

variable (B : Backend)

/-- `initialize`. -/
def initializeSymmetric (protocolName : Bytes) : Option SymmetricState :=
  if protocolName.length ≤ kHashLen then none
  else (B.hash protocolName).map fun h => ⟨h, h, .zero, 0, false⟩

def mixHash (ss : SymmetricState) (data : Bytes) : Option SymmetricState :=
  if kMaxMixHash < data.length then none
  else (B.hash (ss.h.bytes ++ data)).map fun h => { ss with h }

/-- `mix_key`; what it leaves of a state when the backend refuses, every caller drops. -/
def mixKey (ss : SymmetricState) (ikm : Bytes) : Option SymmetricState :=
  (B.hkdf ss.ck ikm 2).map fun out => { ss with ck := out 0, k := out 1, hasKey := true, n := 0 }

def mixKeyAndHash (ss : SymmetricState) (ikm : Bytes) : Option SymmetricState :=
  (B.hkdf ss.ck ikm 3).bind fun out =>
    (mixHash B { ss with ck := out 0, k := out 2 } (out 1).bytes).map fun ss =>
      { ss with hasKey := true, n := 0 }

def encryptAndHash (ss : SymmetricState) (pt : Bytes) : Option (SymmetricState × Bytes) :=
  if ss.hasKey = true ∧ pt.length + kTagLen ≤ kMaxMixHash ∧ B.setKey ss.k = true then
    (B.encrypt ss.k ss.n ss.h.bytes pt).bind fun ct =>
      (mixHash B { ss with n := ss.n + 1 } ct).map fun ss => (ss, ct)
  else none

def decryptAndHash (ss : SymmetricState) (ct : Bytes) : Option (SymmetricState × Bytes) :=
  if ss.hasKey = true ∧ kTagLen ≤ ct.length ∧ ct.length ≤ kMaxMixHash ∧ B.setKey ss.k = true then
    (B.decrypt ss.k ss.n ss.h.bytes ct).bind fun pt =>
      (mixHash B { ss with n := ss.n + 1 } ct).map fun ss => (ss, pt)
  else none

def split (ss : SymmetricState) : Option (Key × Key) :=
  (B.hkdf ss.ck [] 2).map fun out => (out 0, out 1)

end SymmetricState

def pskState (B : Backend) (psk : Key) : Option SymmetricState :=
  (SymmetricState.initializeSymmetric B Noise.protocolName).bind fun ss =>
    (ss.mixHash B Noise.prologue).bind fun ss => ss.mixKeyAndHash B psk.bytes

/-! ## Transport datagrams -/

def kTransportHeaderBytes : Nat := 9
def kTransportOverhead : Nat := 25
def kMaxFrameBytes : Nat := 65519
def kNonceLimit : Nat := 4611686018427387904

structure TransportHeader where
  phase : UInt8
  nonce : Nat
  deriving DecidableEq, Repr

def parseTransportHeader (datagram : Bytes) : Except Refusal TransportHeader :=
  if datagram.length < kTransportOverhead then .error .MALFORMED
  else
    let type := datagram.headD 0
    if type ≠ 0x04 ∧ type ≠ 0x05 then .error .MALFORMED
    else
      let n := LittleEndian.load ((datagram.drop 1).take 8)
      if kNonceLimit ≤ n then .error .NONCE_BOUND else .ok ⟨type &&& 1, n⟩

/-- The keys a `transport_cipher_t` holds. -/
structure TransportCipher where
  send : Key
  recv : Key
  deriving DecidableEq

namespace TransportCipher

def mirror (t : TransportCipher) : TransportCipher := ⟨t.recv, t.send⟩

variable (B : Backend)

/-- `set_keys`: whether the backend takes both. -/
def setKeys (t : TransportCipher) : Bool := B.setKey t.send && B.setKey t.recv

def clearHeader (phase : UInt8) (n : Nat) : Bytes := (0x04 ||| phase) :: LittleEndian.store n 8

/-- `seal`, into a buffer of `room` bytes. -/
def sealFrame (t : TransportCipher) (phase : UInt8) (n : Nat) (frame : Bytes) (room : Nat) :
    Except Refusal Bytes :=
  if kNonceLimit ≤ n then .error .NONCE_BOUND
  else if 1 < phase ∨ kMaxFrameBytes < frame.length ∨ room < frame.length + kTransportOverhead then
    .error .MALFORMED
  else
    match B.encrypt t.send n [] frame with
    | none => .error .BACKEND
    | some ct => .ok (clearHeader phase n ++ ct)

/-- `open`. -/
def openFrame (t : TransportCipher) (h : TransportHeader) (datagram : Bytes) : Except Refusal Bytes :=
  if datagram.length < kTransportOverhead then .error .MALFORMED
  else
    match B.decrypt t.recv h.nonce [] (datagram.drop kTransportHeaderBytes) with
    | none => .error .AUTH
    | some frame => .ok frame

def receive (t : TransportCipher) (datagram : Bytes) : Except Refusal Bytes :=
  match parseTransportHeader datagram with
  | .error r => .error r
  | .ok h => t.openFrame B h datagram

end TransportCipher

/-! ## The handshake -/

inductive Role where
  | INITIATOR
  | RESPONDER
  deriving DecidableEq, Repr

inductive Step where
  | FIRST
  | SECOND
  | DONE
  deriving DecidableEq, Repr

def kDhLen : Nat := 32
def kFirstMessageBytes : Nat := 58
def kSecondMessageBytes : Nat := 50

/-- `handshake_t`, without the cipher it borrows, which holds no key between two messages. -/
structure Handshake where
  role : Role
  step : Step
  ss : SymmetricState
  /-- The private key of the ephemeral pair, once set. -/
  e : Option Key
  re : Key
  deriving DecidableEq

namespace Handshake

def start (role : Role) (keyed : SymmetricState) : Handshake := ⟨role, .FIRST, keyed, none, .zero⟩

variable (B : Backend)

/-- The `e` token. -/
def mixE (ss : SymmetricState) (e : Key) : Option SymmetricState :=
  (ss.mixHash B e.bytes).bind fun ss => ss.mixKey B e.bytes

def mixEe (e : Option Key) (ss : SymmetricState) (re : Key) : Except Refusal SymmetricState :=
  match e.bind fun priv => B.agree priv re with
  | none => .error .LOW_ORDER
  | some shared =>
    if shared.allZero then .error .LOW_ORDER
    else
      match ss.mixKey B shared.bytes with
      | none => .error .BACKEND
      | some ss => .ok ss

def message (type : UInt8) (e : Key) (ct : Bytes) : Bytes := type :: (e.bytes ++ ct)

/-- `write_first`.  The ephemeral pair is set in place, before anything can be refused. -/
def writeFirst (hs : Handshake) (ePriv : Key) (payload : FirstPayload) :
    Handshake × Except Refusal Bytes :=
  if hs.role ≠ .INITIATOR ∨ hs.step ≠ .FIRST then (hs, .error .STATE)
  else
    match B.publicKey ePriv with
    | none => ({ hs with e := none }, .error .BACKEND)
    | some pub =>
      let hs := { hs with e := some ePriv }
      match (mixE B hs.ss pub).bind fun ss => ss.encryptAndHash B (encodeFirstPayload payload) with
      | none => (hs, .error .BACKEND)
      | some (next, ct) => ({ hs with ss := next, step := .SECOND }, .ok (message 0x01 pub ct))

def readFirst (hs : Handshake) (datagram : Bytes) : Handshake × Except Refusal FirstPayload :=
  if hs.role ≠ .RESPONDER ∨ hs.step ≠ .FIRST then (hs, .error .STATE)
  else if datagram.length ≠ kFirstMessageBytes ∨ datagram.headD 0 ≠ 0x01 then (hs, .error .MALFORMED)
  else
    let re := Key.ofBytes (datagram.drop 1)
    match mixE B hs.ss re with
    | none => (hs, .error .BACKEND)
    | some ss =>
      match ss.decryptAndHash B (datagram.drop (1 + kDhLen)) with
      | none => (hs, .error .AUTH)
      | some (next, plain) =>
        let out := decodeFirstPayload plain
        if out.flags &&& 0xFE ≠ 0 then (hs, .error .PAYLOAD)
        else ({ hs with ss := next, re, step := .SECOND }, .ok out)

def writeSecond (hs : Handshake) (ePriv : Key) (flags : UInt8) : Handshake × Except Refusal Bytes :=
  if hs.role ≠ .RESPONDER ∨ hs.step ≠ .SECOND then (hs, .error .STATE)
  else
    match B.publicKey ePriv with
    | none => ({ hs with e := none }, .error .BACKEND)
    | some pub =>
      let hs := { hs with e := some ePriv }
      match mixE B hs.ss pub with
      | none => (hs, .error .BACKEND)
      | some ss =>
        match mixEe B hs.e ss hs.re with
        | .error r => (hs, .error r)
        | .ok ss =>
          match ss.encryptAndHash B [flags] with
          | none => (hs, .error .BACKEND)
          | some (next, ct) => ({ hs with ss := next, step := .DONE }, .ok (message 0x02 pub ct))

def readSecond (hs : Handshake) (datagram : Bytes) : Handshake × Except Refusal UInt8 :=
  if hs.role ≠ .INITIATOR ∨ hs.step ≠ .SECOND then (hs, .error .STATE)
  else if datagram.length ≠ kSecondMessageBytes ∨ datagram.headD 0 ≠ 0x02 then (hs, .error .MALFORMED)
  else
    let re := Key.ofBytes (datagram.drop 1)
    match mixE B hs.ss re with
    | none => (hs, .error .BACKEND)
    | some ss =>
      match mixEe B hs.e ss re with
      | .error r => (hs, .error r)
      | .ok ss =>
        match ss.decryptAndHash B (datagram.drop (1 + kDhLen)) with
        | none => (hs, .error .AUTH)
        | some (next, plain) =>
          let flags := plain.headD 0
          if flags &&& 0xFC ≠ 0 then (hs, .error .PAYLOAD)
          else ({ hs with ss := next, re, step := .DONE }, .ok flags)

def transportKeys (role : Role) (k1 k2 : Key) : TransportCipher :=
  match role with
  | .INITIATOR => ⟨k1, k2⟩
  | .RESPONDER => ⟨k2, k1⟩

def split (hs : Handshake) : Except Refusal TransportCipher :=
  if hs.step ≠ .DONE then .error .STATE
  else
    match hs.ss.split B with
    | none => .error .BACKEND
    | some (k1, k2) =>
      let t := transportKeys hs.role k1 k2
      if t.setKeys B then .ok t else .error .BACKEND

end Handshake

/-! ## Message by message -/

namespace SymmetricState

variable {B : Backend} {ss : SymmetricState} {pt ct : Bytes} {next : SymmetricState}

theorem of_encrypt (h : ss.encryptAndHash B pt = some (next, ct)) :
    (ss.hasKey = true ∧ pt.length + kTagLen ≤ kMaxMixHash ∧ B.setKey ss.k = true) ∧
      B.encrypt ss.k ss.n ss.h.bytes pt = some ct ∧
      mixHash B { ss with n := ss.n + 1 } ct = some next := by
  unfold encryptAndHash at h
  split at h
  · obtain ⟨c, hseal, hmix⟩ := Option.bind_eq_some_iff.mp h
    obtain ⟨s, hs, heq⟩ := Option.map_eq_some_iff.mp hmix
    cases heq
    exact ⟨‹_›, hseal, hs⟩
  · cases h

/-- **What a side seals, the other opens from the same state, and both go on from one state.** -/
theorem decrypt_of_encrypt (hB : B.Lawful)
    (h : ss.encryptAndHash B pt = some (next, ct)) : ss.decryptAndHash B ct = some (next, pt) := by
  obtain ⟨hguard, hseal, hmix⟩ := of_encrypt h
  have hlen := B.length_encrypt hseal
  have hroom : ss.hasKey = true ∧ kTagLen ≤ ct.length ∧ ct.length ≤ kMaxMixHash ∧ B.setKey ss.k = true :=
    ⟨hguard.1, by omega, by omega, hguard.2.2⟩
  rw [decryptAndHash, if_pos hroom, hB.decrypt_encrypt hseal, Option.bind_some, hmix, Option.map_some]

theorem length_of_encrypt
    (h : ss.encryptAndHash B pt = some (next, ct)) : ct.length = pt.length + kTagLen :=
  B.length_encrypt (of_encrypt h).2.1

end SymmetricState

variable {p : FirstPayload}

namespace Handshake

variable {B : Backend}

section Message

variable (type : UInt8) (e : Key) (ct : Bytes)

theorem length_message : (message type e ct).length = 33 + ct.length := by
  rw [message, length_cons, length_append, e.length_bytes]
  omega

theorem message_key : Key.ofBytes ((message type e ct).drop 1) = e := by
  rw [message, drop_one, tail_cons, Key.ofBytes_append]

theorem message_text : (message type e ct).drop (1 + kDhLen) = ct := by
  have hlen : e.bytes.length = kDhLen := e.length_bytes
  rw [message, add_comm, drop_succ_cons, drop_left' hlen]

end Message

variable {hs : Handshake} {ePriv : Key} {d : Bytes} {next : Handshake} {flags : UInt8}

theorem of_writeFirst (h : hs.writeFirst B ePriv p = (next, .ok d)) :
    hs.role = .INITIATOR ∧ hs.step = .FIRST ∧ ∃ pub ss ss' ct, B.publicKey ePriv = some pub ∧
      mixE B hs.ss pub = some ss ∧ ss.encryptAndHash B (encodeFirstPayload p) = some (ss', ct) ∧
      d = message 0x01 pub ct ∧ next = { hs with e := some ePriv, ss := ss', step := .SECOND } := by
  revert h
  fun_cases writeFirst B hs ePriv p <;> simp only [Prod.mk.injEq, reduceCtorEq, and_false, false_implies]
  next hstate pub hpub _ ss' ct hseal =>
  intro ⟨hnext, hd⟩
  obtain ⟨ss, hmix, henc⟩ := Option.bind_eq_some_iff.mp hseal
  rw [not_or, not_not, not_not] at hstate
  exact ⟨hstate.1, hstate.2, pub, ss, ss', ct, hpub, hmix, henc, (Except.ok.inj hd).symm, hnext.symm⟩

theorem of_writeSecond (h : hs.writeSecond B ePriv flags = (next, .ok d)) :
    hs.role = .RESPONDER ∧ hs.step = .SECOND ∧ ∃ pub ss ss' ss'' ct, B.publicKey ePriv = some pub ∧
      mixE B hs.ss pub = some ss ∧ mixEe B (some ePriv) ss hs.re = .ok ss' ∧
      ss'.encryptAndHash B [flags] = some (ss'', ct) ∧ d = message 0x02 pub ct ∧
      next = { hs with e := some ePriv, ss := ss'', step := .DONE } := by
  revert h
  fun_cases writeSecond B hs ePriv flags <;>
    simp only [Prod.mk.injEq, reduceCtorEq, and_false, false_implies]
  next hstate pub hpub _ ss hmix ss' hee ss'' ct henc =>
  intro ⟨hnext, hd⟩
  rw [not_or, not_not, not_not] at hstate
  exact ⟨hstate.1, hstate.2, pub, ss, ss', ss'', ct, hpub, hmix, hee, henc, (Except.ok.inj hd).symm,
    hnext.symm⟩

variable {i r : Handshake}

/-- **The first message is read as it was written**, and both sides go on from one symmetric state. -/
theorem readFirst_writeFirst (hB : B.Lawful) {i' : Handshake}
    (hwrite : i.writeFirst B ePriv p = (i', .ok d)) (hrole : r.role = .RESPONDER)
    (hstep : r.step = .FIRST) (hss : r.ss = i.ss) (hcounter : p.counter < 2 ^ 64)
    (hflags : p.flags &&& 0xFE = 0) : ∃ pub, B.publicKey ePriv = some pub ∧
      r.readFirst B d = ({ r with ss := i'.ss, re := pub, step := .SECOND }, .ok p) := by
  obtain ⟨-, -, pub, ss, ss', ct, hpub, hmix, henc, rfl, rfl⟩ := of_writeFirst hwrite
  have hlen : (message 0x01 pub ct).length = kFirstMessageBytes := by
    rw [length_message, SymmetricState.length_of_encrypt henc, encodeFirstPayload, length_cons,
      LittleEndian.length_store]
    rfl
  have hstate : ¬(r.role ≠ .RESPONDER ∨ r.step ≠ .FIRST) := fun hno =>
    hno.elim (fun hne => hne hrole) fun hne => hne hstep
  have hshape : ¬((message 0x01 pub ct).length ≠ kFirstMessageBytes ∨
      (message 0x01 pub ct).headD 0 ≠ 0x01) := fun hno =>
    hno.elim (fun hne => hne hlen) fun hne => hne rfl
  refine ⟨pub, hpub, ?_⟩
  rw [readFirst, if_neg hstate, if_neg hshape]
  simp only [message_key, message_text, hss, hmix, SymmetricState.decrypt_of_encrypt hB henc,
    decode_encodeFirstPayload hcounter, hflags, ne_eq, not_true_eq_false, if_false]

/-- **The second message is read as it was written**, and both sides end with one symmetric state. -/
theorem readSecond_writeSecond (hB : B.Lawful) {r' : Handshake} {ei er pubI : Key}
    (hwrite : r.writeSecond B er flags = (r', .ok d)) (hrole : i.role = .INITIATOR)
    (hstep : i.step = .SECOND) (hss : i.ss = r.ss) (he : i.e = some ei)
    (hpubI : B.publicKey ei = some pubI) (hre : r.re = pubI) (hflags : flags &&& 0xFC = 0) :
    ∃ pub, i.readSecond B d = ({ i with ss := r'.ss, re := pub, step := .DONE }, .ok flags) := by
  obtain ⟨-, -, pub, ss, ss', ss'', ct, hpub, hmix, hee, henc, rfl, rfl⟩ := of_writeSecond hwrite
  have hlen : (message 0x02 pub ct).length = kSecondMessageBytes := by
    rw [length_message, SymmetricState.length_of_encrypt henc]
    rfl
  have hstate : ¬(i.role ≠ .INITIATOR ∨ i.step ≠ .SECOND) := fun hno =>
    hno.elim (fun hne => hne hrole) fun hne => hne hstep
  have hshape : ¬((message 0x02 pub ct).length ≠ kSecondMessageBytes ∨
      (message 0x02 pub ct).headD 0 ≠ 0x02) := fun hno =>
    hno.elim (fun hne => hne hlen) fun hne => hne rfl
  -- both sides agree on the secret, each from its own private key
  have hagree : mixEe B i.e ss pub = .ok ss' := by
    rw [← hee, he, hre, mixEe, mixEe, Option.bind_some, Option.bind_some, hB.agree_comm hpubI hpub]
  refine ⟨pub, ?_⟩
  rw [readSecond, if_neg hstate, if_neg hshape]
  simp only [message_key, message_text, hss, hmix, hagree, SymmetricState.decrypt_of_encrypt hB henc,
    headD_cons, hflags, ne_eq, not_true_eq_false, if_false]

theorem split_ok_iff {t : TransportCipher} : hs.split B = .ok t ↔
    hs.step = .DONE ∧ ∃ k1 k2, hs.ss.split B = some (k1, k2) ∧ B.setKey k1 = true ∧ B.setKey k2 = true ∧
      t = transportKeys hs.role k1 k2 := by
  have hkeys : ∀ k1 k2, (transportKeys hs.role k1 k2).setKeys B = true ↔
      B.setKey k1 = true ∧ B.setKey k2 = true := by
    intro k1 k2
    cases hs.role
    · exact Bool.and_eq_true_iff
    · exact Bool.and_eq_true_iff.trans and_comm
  fun_cases split B hs with
  | case1 hstep => simp [hstep]
  | case2 hstep hks => simp [hks]
  | case3 hstep k1 k2 hks t' hset =>
    obtain ⟨h1, h2⟩ := (hkeys k1 k2).mp hset
    refine ⟨fun ht => ⟨not_not.mp hstep, k1, k2, hks, h1, h2, (Except.ok.inj ht).symm⟩, ?_⟩
    intro ⟨_, l1, l2, hl, _, _, ht⟩
    cases hks.symm.trans hl
    rw [ht]
  | case4 hstep k1 k2 hks t' hset =>
    simp only [reduceCtorEq, false_iff]
    intro ⟨_, l1, l2, hl, h1, h2, _⟩
    cases hks.symm.trans hl
    exact hset ((hkeys k1 k2).mpr ⟨h1, h2⟩)

/-- **The two splits of one symmetric state are mirror images**: one gives a cipher exactly when the other
    gives its mirror. -/
theorem split_mirror (hi : i.role = .INITIATOR) (hr : r.role = .RESPONDER)
    (hidone : i.step = .DONE) (hrdone : r.step = .DONE) (hss : i.ss = r.ss) (t : TransportCipher) :
    i.split B = .ok t ↔ r.split B = .ok t.mirror := by
  have hmirror : ∀ k1 k2, t = transportKeys .INITIATOR k1 k2 ↔ t.mirror = transportKeys .RESPONDER k1 k2 := by
    intro k1 k2
    obtain ⟨send, recv⟩ := t
    simp only [transportKeys, TransportCipher.mirror, TransportCipher.mk.injEq]
    exact and_comm
  rw [split_ok_iff, split_ok_iff, hi, hr, hss]
  simp only [hidone, hrdone, hmirror]

end Handshake

/-! ## What the ciphers exchange -/

namespace TransportCipher

variable {B : Backend} {phase : UInt8}

theorem phase_cases (h : ¬1 < phase) : phase = 0 ∨ phase = 1 := by
  have hle : phase.toNat ≤ 1 := by
    have := UInt8.lt_iff_toNat_lt.not.mp h
    simpa using this
  rcases Nat.le_one_iff_eq_zero_or_eq_one.mp hle with h0 | h1
  · exact .inl (UInt8.toNat_inj.mp h0)
  · exact .inr (UInt8.toNat_inj.mp h1)

theorem length_clearHeader (phase : UInt8) (n : Nat) :
    (clearHeader phase n).length = kTransportHeaderBytes := by
  rw [clearHeader, length_cons, LittleEndian.length_store]
  rfl

variable {n : Nat}

theorem parse_clearHeader {ct : Bytes} (hphase : ¬1 < phase)
    (hn : n < kNonceLimit) (hct : kTagLen ≤ ct.length) :
    parseTransportHeader (clearHeader phase n ++ ct) = .ok ⟨phase, n⟩ := by
  have hlen : ¬(clearHeader phase n ++ ct).length < kTransportOverhead := by
    rw [length_append, length_clearHeader, kTransportHeaderBytes, kTransportOverhead]
    rw [kTagLen] at hct
    omega
  have hload : LittleEndian.load ((((clearHeader phase n ++ ct).drop 1).take 8)) = n := by
    rw [clearHeader, cons_append, drop_one, tail_cons,
      take_left' (LittleEndian.length_store _ _), LittleEndian.load_store_of_lt]
    exact Nat.lt_trans hn (by decide)
  have htype : ¬((clearHeader phase n ++ ct).headD 0 ≠ 0x04 ∧ (clearHeader phase n ++ ct).headD 0 ≠ 0x05) ∧
      (clearHeader phase n ++ ct).headD 0 &&& 1 = phase := by
    rw [clearHeader, cons_append, headD_cons]
    rcases phase_cases hphase with rfl | rfl <;> decide
  unfold parseTransportHeader
  rw [if_neg hlen, if_neg htype.1, hload, if_neg (Nat.not_le.mpr hn), htype.2]

variable {t : TransportCipher} {d frame : Bytes}

/-- **What one side seals, the other receives.** -/
theorem receive_sealFrame (hB : B.Lawful) {room : Nat}
    (h : t.sealFrame B phase n frame room = .ok d) : t.mirror.receive B d = .ok frame := by
  revert h
  fun_cases sealFrame B t phase n frame room <;> intro h <;> cases h
  next hn hshape ct hseal =>
  have hlen := B.length_encrypt hseal
  have hlong : ¬(clearHeader phase n ++ ct).length < kTransportOverhead := by
    rw [length_append, length_clearHeader, hlen, kTagLen, kTransportHeaderBytes, kTransportOverhead]
    omega
  have hrecv : t.mirror.recv = t.send := rfl
  rw [receive, parse_clearHeader (fun hno => hshape (.inl hno)) (Nat.lt_of_not_le hn) (by omega)]
  dsimp only
  rw [openFrame, if_neg hlong, drop_left' (length_clearHeader phase n), hrecv, hB.decrypt_encrypt hseal]

theorem of_parseTransportHeader {h : TransportHeader} (hparse : parseTransportHeader d = .ok h) :
    ¬d.length < kTransportOverhead ∧ h.nonce < kNonceLimit ∧
      d = clearHeader h.phase h.nonce ++ d.drop kTransportHeaderBytes := by
  revert hparse
  fun_cases parseTransportHeader d <;> intro hparse <;> cases hparse
  next hlen type htype nonce hn =>
  refine ⟨hlen, Nat.lt_of_not_le hn, ?_⟩
  cases d with
  | nil => exact absurd (by decide) hlen
  | cons type' rest =>
    have hphase : 0x04 ||| (type' &&& 1) = type' := by
      rw [not_and_or, not_not, not_not] at htype
      rcases htype with rfl | rfl <;> decide
    have hlong : (rest.take 8).length = 8 := by
      rw [length_take]
      rw [length_cons, kTransportOverhead] at hlen
      omega
    have hnonce := LittleEndian.store_load (rest.take 8)
    rw [hlong] at hnonce
    simp only [headD_cons, clearHeader, hphase, cons_append, kTransportHeaderBytes,
      drop_succ_cons, drop_zero, hnonce, take_append_drop, type, nonce]

/-- **A side receives only what was sealed under the other side's key**, where the cipher opens nothing
    else. -/
theorem of_receive (hB : B.Authentic) (h : t.mirror.receive B d = .ok frame) :
    ∃ phase n ct, n < kNonceLimit ∧ d = clearHeader phase n ++ ct ∧
      B.encrypt t.send n [] frame = some ct := by
  revert h
  fun_cases receive B t.mirror d with
  | case1 r => intro h; cases h
  | case2 hd hparse =>
    obtain ⟨-, hn, hd'⟩ := of_parseTransportHeader hparse
    fun_cases openFrame B t.mirror hd d <;> intro h <;> cases h
    exact ⟨hd.phase, hd.nonce, _, hn, hd', hB ‹_›⟩

end TransportCipher

/-! ## Refused steps -/

namespace Handshake

/-- One call on a handshake, with the backend as it behaves at that call. -/
inductive Call where
  | writeFirst (B : Backend) (ePriv : Key) (payload : FirstPayload)
  | readFirst (B : Backend) (datagram : Bytes)
  | writeSecond (B : Backend) (ePriv : Key) (flags : UInt8)
  | readSecond (B : Backend) (datagram : Bytes)
  | split (B : Backend)

inductive Answer where
  | message (datagram : Bytes)
  | payload (p : FirstPayload)
  | flags (f : UInt8)
  | keys (t : TransportCipher)
  deriving DecidableEq

def call (hs : Handshake) : Call → Handshake × Except Refusal Answer
  | .writeFirst B ePriv p => (hs.writeFirst B ePriv p).map id (Except.map .message)
  | .readFirst B d => (hs.readFirst B d).map id (Except.map .payload)
  | .writeSecond B ePriv f => (hs.writeSecond B ePriv f).map id (Except.map .message)
  | .readSecond B d => (hs.readSecond B d).map id (Except.map .flags)
  | .split B => (hs, (hs.split B).map .keys)

def answers (hs : Handshake) : List Call → List (Except Refusal Answer)
  | [] => []
  | c :: cs => (hs.call c).2 :: answers (hs.call c).1 cs

/-- **Two handshakes that nothing tells apart**: they may hold different ephemeral keys, where the next use
    of the key sets it first. -/
structure Alike (a b : Handshake) : Prop where
  role : a.role = b.role
  step : a.step = b.step
  ss : a.ss = b.ss
  re : a.re = b.re
  e : a.role = .INITIATOR → a.step = .SECOND → a.e = b.e

theorem Alike.refl (hs : Handshake) : Alike hs hs := ⟨rfl, rfl, rfl, rfl, fun _ _ => rfl⟩

theorem alike_set (hs : Handshake) (e : Option Key) (h : hs.role = .INITIATOR → hs.step ≠ .SECOND) :
    Alike hs { hs with e } :=
  ⟨rfl, rfl, rfl, rfl, fun hrole hstep => absurd hstep (h hrole)⟩

variable {hs : Handshake} {B : Backend} {r : Refusal} {ePriv : Key}

theorem writeFirst_refused
    (h : (hs.writeFirst B ePriv p).2 = .error r) : Alike hs (hs.writeFirst B ePriv p).1 := by
  have hset : ∀ e, ¬(hs.role ≠ .INITIATOR ∨ hs.step ≠ .FIRST) → Alike hs { hs with e } :=
    fun e hstate => alike_set hs e (by grind)
  revert h
  fun_cases writeFirst B hs ePriv p <;> intro h
  case case1 => exact .refl hs
  all_goals first | exact hset _ ‹_› | cases h

theorem writeSecond_refused {f : UInt8}
    (h : (hs.writeSecond B ePriv f).2 = .error r) : Alike hs (hs.writeSecond B ePriv f).1 := by
  have hset : ∀ e, ¬(hs.role ≠ .RESPONDER ∨ hs.step ≠ .SECOND) → Alike hs { hs with e } :=
    fun e hstate => alike_set hs e (by grind)
  revert h
  fun_cases writeSecond B hs ePriv f <;> intro h
  case case1 => exact .refl hs
  all_goals first | exact hset _ ‹_› | cases h

variable {d : Bytes} {c : Call}

theorem readFirst_refused (h : (hs.readFirst B d).2 = .error r) : (hs.readFirst B d).1 = hs := by
  revert h
  fun_cases readFirst B hs d <;> simp

theorem readSecond_refused (h : (hs.readSecond B d).2 = .error r) : (hs.readSecond B d).1 = hs := by
  revert h
  fun_cases readSecond B hs d <;> simp

theorem error_of_map {α β : Type} {f : α → β} {x : Except Refusal α}
    (h : x.map f = .error r) : x = .error r := by
  cases x with
  | error e =>
    cases h
    rfl
  | ok a => cases h

/-- **A refused call leaves the handshake alike.** -/
theorem call_refused (h : (hs.call c).2 = .error r) : Alike hs (hs.call c).1 := by
  cases c with
  | writeFirst B ePriv p => exact writeFirst_refused (error_of_map h)
  | readFirst B d =>
    have hsame : (hs.call (.readFirst B d)).1 = hs := readFirst_refused (error_of_map h)
    rw [hsame]
    exact .refl hs
  | writeSecond B ePriv f => exact writeSecond_refused (error_of_map h)
  | readSecond B d =>
    have hsame : (hs.call (.readSecond B d)).1 = hs := readSecond_refused (error_of_map h)
    rw [hsame]
    exact .refl hs
  | split B => exact .refl hs

/-! Alike handshakes answer alike: a write sets the key it uses, the responder's read uses none, and the
initiator's read uses the one both hold. -/

theorem set_readFirst (hs : Handshake) (e : Option Key) (B : Backend) (d : Bytes) : ({ hs with e }).readFirst B d =
    ({ (hs.readFirst B d).1 with e }, (hs.readFirst B d).2) := by
  unfold readFirst
  dsimp only
  split <;> [rfl; split <;> [rfl; split <;> [rfl; split <;> [rfl; split <;> rfl]]]]

theorem readFirst_role (hs : Handshake) (B : Backend) (d : Bytes) :
    (hs.readFirst B d).1.role = hs.role := by
  fun_cases readFirst B hs d <;> rfl

variable {a b : Handshake}

theorem Alike.exists_set (h : Alike a b) :
    ∃ e, b = { a with e } ∧ (a.role = .INITIATOR → a.step = .SECOND → e = a.e) := by
  refine ⟨b.e, ?_, fun hrole hstep => (h.e hrole hstep).symm⟩
  rw [h.role, h.step, h.ss, h.re]

/-- **Alike handshakes answer a call alike**, and are alike after it. -/
theorem Alike.call (h : Alike a b) (c : Call) :
    (a.call c).2 = (b.call c).2 ∧ Alike (a.call c).1 (b.call c).1 := by
  obtain ⟨e, rfl, he⟩ := h.exists_set
  cases c with
  | writeFirst B ePriv p =>
    by_cases hstate : a.role ≠ .INITIATOR ∨ a.step ≠ .FIRST
    · simp only [Handshake.call, writeFirst, if_pos hstate]
      exact ⟨rfl, h⟩
    · simp only [Handshake.call, writeFirst, if_neg hstate]
      exact ⟨trivial, .refl _⟩
  | writeSecond B ePriv f =>
    by_cases hstate : a.role ≠ .RESPONDER ∨ a.step ≠ .SECOND
    · simp only [Handshake.call, writeSecond, if_pos hstate]
      exact ⟨rfl, h⟩
    · simp only [Handshake.call, writeSecond, if_neg hstate]
      exact ⟨trivial, .refl _⟩
  | readFirst B d =>
    by_cases hrole : a.role = .INITIATOR
    · have hstate : a.role ≠ .RESPONDER ∨ a.step ≠ .FIRST := .inl (by rw [hrole]; decide)
      simp only [Handshake.call, readFirst, if_pos hstate]
      exact ⟨rfl, h⟩
    · rw [Handshake.call, Handshake.call, set_readFirst a e B d]
      exact ⟨rfl, alike_set _ e fun hother => absurd ((readFirst_role a B d).symm.trans hother) hrole⟩
  | readSecond B d =>
    by_cases hstate : a.role ≠ .INITIATOR ∨ a.step ≠ .SECOND
    · simp only [Handshake.call, readSecond, if_pos hstate]
      exact ⟨rfl, h⟩
    rw [not_or, not_not, not_not] at hstate
    rw [he hstate.1 hstate.2]
    exact ⟨rfl, .refl _⟩
  | split B => exact ⟨rfl, h⟩

theorem Alike.answers (h : Alike a b) (cs : List Call) : a.answers cs = b.answers cs := by
  induction cs generalizing a b with
  | nil => rfl
  | cons c cs ih =>
    obtain ⟨hanswer, hnext⟩ := h.call c
    rw [Handshake.answers, Handshake.answers, hanswer, ih hnext]

/-- **A refused call is forgotten**: whatever is called after it is answered as if it had not been made. -/
theorem refused_forgotten (h : (hs.call c).2 = .error r)
    (later : List Call) : (hs.call c).1.answers later = hs.answers later :=
  ((call_refused h).answers later).symm

end Handshake

/-! ## The handshake as a whole -/

open Handshake

/-- **Each side opens exactly what the other seals.** -/
def Opens (B : Backend) (mine theirs : TransportCipher) : Prop :=
  (∀ phase n frame room d, theirs.sealFrame B phase n frame room = .ok d → mine.receive B d = .ok frame) ∧
  (B.Authentic → ∀ frame d, mine.receive B d = .ok frame →
    ∃ phase n ct, n < kNonceLimit ∧ d = TransportCipher.clearHeader phase n ++ ct ∧
      B.encrypt theirs.send n [] frame = some ct)

theorem opens_mirror {B : Backend} (hB : B.Lawful) (t : TransportCipher) : Opens B t.mirror t :=
  ⟨fun _ _ _ _ _ hseal => TransportCipher.receive_sealFrame hB hseal,
    fun hauth _ _ hrecv => TransportCipher.of_receive hauth hrecv⟩

/-- **The handshake is correct** over every backend whose key agreement commutes and whose cipher opens what
    it sealed, for payloads without reserved bits: the messages are read as they were written, the splits
    mirror each other, and a refused step is as if it had not been tried. -/
theorem handshake_correct (B : Backend) (hB : B.Lawful) :
    (∀ (psk : Key) (keyed : SymmetricState) (ei er : Key) (p : FirstPayload) (flags : UInt8)
      (first : Bytes) (i : Handshake),
      pskState B psk = some keyed → p.counter < 2 ^ 64 → p.flags &&& 0xFE = 0 → flags &&& 0xFC = 0 →
      (start .INITIATOR keyed).writeFirst B ei p = (i, .ok first) →
      ∃ r, (start .RESPONDER keyed).readFirst B first = (r, .ok p) ∧
        ∀ second r', r.writeSecond B er flags = (r', .ok second) →
          ∃ i', i.readSecond B second = (i', .ok flags) ∧
            ∀ t, (i'.split B = .ok t ↔ r'.split B = .ok t.mirror) ∧
              Opens B t.mirror t ∧ Opens B t t.mirror) ∧
    (∀ (hs : Handshake) (c : Call) (refusal : Refusal) (later : List Call),
      (hs.call c).2 = .error refusal → (hs.call c).1.answers later = hs.answers later) := by
  refine ⟨?_, fun hs c refusal later hrefused => refused_forgotten hrefused later⟩
  intro psk keyed ei er p flags first i _ hcounter hp hflags hfirst
  obtain ⟨pubI, hpubI, hread⟩ := readFirst_writeFirst hB hfirst rfl rfl rfl hcounter hp
    (r := start .RESPONDER keyed)
  refine ⟨_, hread, ?_⟩
  intro second r' hsecond
  obtain ⟨-, -, pub, ss, ss', ct, -, -, -, -, rfl⟩ := of_writeFirst hfirst
  obtain ⟨pubR, hread'⟩ := readSecond_writeSecond hB hsecond rfl rfl rfl rfl hpubI rfl hflags
    (i := { start .INITIATOR keyed with e := some ei, ss := ss', step := .SECOND })
  refine ⟨_, hread', ?_⟩
  intro t
  obtain ⟨-, -, -, -, -, -, -, -, -, -, -, -, rfl⟩ := of_writeSecond hsecond
  refine ⟨?_, opens_mirror hB t, opens_mirror hB t.mirror⟩
  apply split_mirror <;> rfl

def plain : Backend where
  hash bs := some (Key.ofBytes bs)
  hkdf ck _ _ := some fun _ => ck
  publicKey := some
  agree _ _ := some (Key.ofBytes [1])
  setKey _ := true
  encrypt _ _ _ pt := some (pt ++ List.replicate kTagLen 0)
  decrypt _ _ _ ct := some (ct.take (ct.length - kTagLen))
  length_encrypt h := by
    cases h
    rw [length_append, length_replicate]

theorem plain_lawful : plain.Lawful where
  agree_comm _ _ := rfl
  decrypt_encrypt h := by
    cases h
    simp only [plain, length_append, length_replicate, Nat.add_sub_cancel, take_left]

/-- Over the plain backend a first message with the `fresh` bit is written and read, the second one goes
back, and both ends split. -/
theorem plain_handshake : ∃ keyed i first, pskState plain .zero = some keyed ∧
    (start .INITIATOR keyed).writeFirst plain .zero ⟨1, 7⟩ = (i, .ok first) ∧
    ∃ r r' second i' t, (start .RESPONDER keyed).readFirst plain first = (r, .ok ⟨1, 7⟩) ∧
      r.writeSecond plain .zero 0 = (r', .ok second) ∧ i.readSecond plain second = (i', .ok 0) ∧
        i'.split plain = .ok t ∧ r'.split plain = .ok t.mirror := by
  refine ⟨_, _, _, rfl, rfl, ?_⟩
  obtain ⟨r, hread, hsecond⟩ := (handshake_correct plain plain_lawful).1 .zero _ .zero .zero ⟨1, 7⟩ 0 _ _ rfl
    (by decide) (by decide) (by decide) rfl
  cases hread
  obtain ⟨i', hread', hsplit⟩ := hsecond _ _ rfl
  obtain ⟨t, ht⟩ : ∃ t, i'.split plain = .ok t := by
    cases hread'
    exact ⟨_, rfl⟩
  exact ⟨_, _, _, i', t, rfl, rfl, hread', ht, (hsplit t).1.mp ht⟩

/-- **`write_first` takes a payload that `read_first` refuses**: it does not look at the reserved flags. -/
theorem reserved_flag_refused : ∃ keyed i first, pskState plain .zero = some keyed ∧
    (start .INITIATOR keyed).writeFirst plain .zero ⟨2, 7⟩ = (i, .ok first) ∧
    ((start .RESPONDER keyed).readFirst plain first).2 = .error .PAYLOAD :=
  ⟨_, _, _, rfl, rfl, rfl⟩

end LibTracer.Net.Nnpsk0
