import LibTracer.Lib.LittleEndian

/-!
# The NNpsk0 handshake over an ideal backend

The two handshake messages and `Split()` as functions of a crypto backend whose key derivation is
ideal: outputs of `HKDF` differ unless their inputs do not, and no two ephemeral keys share a public
key.  An ideal cipher opens exactly what was sealed.

* `firstKey_ne_secondKey`, … — the keys of the three kinds of message never coincide.
-/

namespace LibTracer.Net.Noise

open List

/-! ## The backend -/

/-- The side a link plays: a DIAL link initiates, a LISTEN link answers. -/
inductive Side where
  | initiator
  | responder
  deriving DecidableEq, Repr

def Side.other : Side → Side
  | .initiator => .responder
  | .responder => .initiator

/-- What `MixHash` takes: the prologue, a public key or a hash, or a sealed payload. -/
inductive HashInput (κ τ : Type) where
  | text (bs : List UInt8)
  | value (v : κ)
  | cipher (c : τ)
  deriving DecidableEq, Repr

/-- A crypto backend over 32-byte values `κ` and sealed texts `τ`, with ideal key derivation.  The
ephemeral private keys of a side are numbered in the order it draws them. -/
structure IdealCrypto (κ τ : Type) where
  /-- `HASH` of the protocol name. -/
  hashName : List UInt8 → κ
  /-- `HASH(h || data)`. -/
  hash : κ → HashInput κ τ → κ
  /-- The `i`th output of `HKDF(ck, ikm)`; no input is the empty one of `Split()`. -/
  hkdf : κ → Option κ → Nat → κ
  publicKey : Side → Nat → κ
  /-- X25519 with a peer's public key; `none` where the result is all zero. -/
  agree : Side → Nat → κ → Option κ
  /-- ChaChaPoly under a key, a nonce and associated data. -/
  encrypt : κ → Nat → Option κ → List UInt8 → τ
  /-- The length of a sealed text, tag included. -/
  size : τ → Nat
  hkdf_inj : ∀ {c c' : κ} {i i' : Option κ} {n n' : Nat},
    hkdf c i n = hkdf c' i' n' → c = c' ∧ i = i' ∧ n = n'
  hkdf_ne_hashName : ∀ (c : κ) (i : Option κ) (n : Nat) (bs : List UInt8), hkdf c i n ≠ hashName bs
  publicKey_inj : ∀ {s s' : Side} {n n' : Nat}, publicKey s n = publicKey s' n' → s = s' ∧ n = n'

/-- One use of a cipher: who sealed what, under which key, nonce and associated data. -/
structure Sealed (κ τ : Type) where
  side : Side
  key : κ
  nonce : Nat
  ad : Option κ
  plain : List UInt8
  cipher : τ
  deriving DecidableEq, Repr

abbrev Opener (κ τ : Type) := κ → Nat → Option κ → τ → Option (List UInt8)

/-- **The ideal cipher**: it opens what is on record, and nothing else. -/
def recorded {κ τ : Type} [DecidableEq κ] [DecidableEq τ] (log : List (Sealed κ τ)) : Opener κ τ :=
  fun k n ad c => (log.find? fun r => r.key = k ∧ r.nonce = n ∧ r.ad = ad ∧ r.cipher = c).map
    Sealed.plain

theorem of_recorded {κ τ : Type} [DecidableEq κ] [DecidableEq τ] {log : List (Sealed κ τ)} {k : κ}
    {n : Nat} {ad : Option κ} {c : τ} {plain : List UInt8} (h : recorded log k n ad c = some plain) :
    ∃ r ∈ log, r.key = k ∧ r.nonce = n ∧ r.ad = ad ∧ r.cipher = c ∧ r.plain = plain := by
  obtain ⟨r, hr, hp⟩ := Option.map_eq_some_iff.mp h
  have hkey := find?_some hr
  simp only [decide_eq_true_eq] at hkey
  exact ⟨r, mem_of_find?_eq_some hr, hkey.1, hkey.2.1, hkey.2.2.1, hkey.2.2.2, hp⟩

inductive Term where
  | name (bs : List UInt8)
  | bytes (n : Nat)
  | hashText (h : Term) (bs : List UInt8)
  | hashValue (h v : Term)
  | hashCipher (h k : Term) (n : Nat) (plain : List UInt8)
  | hkdf (ck ikm : Term) (i : Nat)
  | split (ck : Term) (i : Nat)
  | publicKey (s : Side) (n : Nat)
  | shared (i r : Nat)
  deriving DecidableEq, Repr

/-- A backend of terms: it has every law an ideal one needs.  The `ee` result names the exponents of
both sides, and a value that is no public key is of low order. -/
def symbolic : IdealCrypto Term (Term × Nat × List UInt8) where
  hashName := .name
  hash h
    | .text bs => .hashText h bs
    | .value v => .hashValue h v
    | .cipher c => .hashCipher h c.1 c.2.1 c.2.2
  hkdf ck
    | some ikm, i => .hkdf ck ikm i
    | none, i => .split ck i
  publicKey := .publicKey
  agree s n
    | .publicKey _ m => some (if s = .initiator then .shared n m else .shared m n)
    | _ => none
  encrypt k n _ plain := (k, n, plain)
  size c := c.2.2.length + 16
  hkdf_inj {c c' i i' n n'} h := by
    cases i <;> cases i' <;> cases h <;> exact ⟨rfl, rfl, rfl⟩
  hkdf_ne_hashName c i n bs h := by cases i <;> cases h
  publicKey_inj h := by cases h; exact ⟨rfl, rfl⟩

/-! ## The symmetric state -/

/-- Noise's SymmetricState from the `psk` token on, so that a cipher key is always set. -/
structure SymmetricState (κ : Type) where
  ck : κ
  h : κ
  k : κ
  n : Nat
  deriving DecidableEq, Repr

/-- The two transport keys of a session, as one side holds them. -/
structure TransportKeys (κ : Type) where
  send : κ
  recv : κ
  deriving DecidableEq, Repr

/-- `kProtocolName`. -/
def protocolName : List UInt8 :=
  "Noise_NNpsk0_25519_ChaChaPoly_SHA256".toList.map fun c => UInt8.ofNat c.toNat

/-- `kPrologue`. -/
def prologue : List UInt8 := "Tracer over Noise v1".toList.map fun c => UInt8.ofNat c.toNat

section

variable {κ τ : Type} (C : IdealCrypto κ τ)

namespace SymmetricState

def mixHash (ss : SymmetricState κ) (d : HashInput κ τ) : SymmetricState κ :=
  { ss with h := C.hash ss.h d }

def mixKey (ss : SymmetricState κ) (ikm : κ) : SymmetricState κ :=
  { ss with ck := C.hkdf ss.ck (some ikm) 0, k := C.hkdf ss.ck (some ikm) 1, n := 0 }

/-- `encrypt_and_hash`: the state after it, and the use of the cipher. -/
def encryptAndHash (ss : SymmetricState κ) (side : Side) (plain : List UInt8) :
    SymmetricState κ × Sealed κ τ :=
  let c := C.encrypt ss.k ss.n (some ss.h) plain
  ({ ss with h := C.hash ss.h (.cipher c), n := ss.n + 1 },
    ⟨side, ss.k, ss.n, some ss.h, plain, c⟩)

/-- `decrypt_and_hash`; `none` on a bad tag. -/
def decryptAndHash (opens : Opener κ τ) (ss : SymmetricState κ) (c : τ) :
    Option (SymmetricState κ × List UInt8) :=
  (opens ss.k ss.n (some ss.h) c).map fun plain =>
    ({ ss with h := C.hash ss.h (.cipher c), n := ss.n + 1 }, plain)

/-- `Split()`: the first key encrypts initiator to responder, the second the reverse. -/
def split (ss : SymmetricState κ) (side : Side) : TransportKeys κ :=
  match side with
  | .initiator => ⟨C.hkdf ss.ck none 0, C.hkdf ss.ck none 1⟩
  | .responder => ⟨C.hkdf ss.ck none 1, C.hkdf ss.ck none 0⟩

end SymmetricState

/-- `psk_state`: the state every handshake of a link starts from. -/
def pskState (psk : κ) : SymmetricState κ :=
  let name := C.hashName protocolName
  let h := C.hash name (.text prologue)
  { ck := C.hkdf name (some psk) 0
    h := C.hash h (.value (C.hkdf name (some psk) 1))
    k := C.hkdf name (some psk) 2
    n := 0 }

/-! ## The handshake messages -/

structure FirstPayload where
  flags : UInt8
  counter : Nat
  deriving DecidableEq, Repr

def encodeFirstPayload (p : FirstPayload) : List UInt8 := p.flags :: LittleEndian.store p.counter 8

def decodeFirstPayload (plain : List UInt8) : FirstPayload :=
  ⟨plain.headD 0, LittleEndian.load ((plain.drop 1).take 8)⟩

theorem decode_encodeFirstPayload {p : FirstPayload} (h : p.counter < 2 ^ 64) :
    decodeFirstPayload (encodeFirstPayload p) = p := by
  have hlen : (LittleEndian.store p.counter 8).length = 8 := LittleEndian.length_store _ _
  have hload : LittleEndian.load (LittleEndian.store p.counter 8) = p.counter :=
    LittleEndian.load_store_of_lt (by simpa using h)
  simp only [decodeFirstPayload, encodeFirstPayload, headD_cons, drop_one, tail_cons]
  rw [take_of_length_le hlen.le, hload]

/-- The initiator's handshake between its two messages: its state and its ephemeral key. -/
structure Handshake (κ : Type) where
  ss : SymmetricState κ
  e : Nat
  deriving DecidableEq, Repr

variable (psk : κ)

/-- The state after `-> psk, e`, before its payload. -/
def firstState (e : κ) : SymmetricState κ :=
  ((pskState C psk).mixHash C (.value e)).mixKey C e

/-- The state after `<- e, ee`, before its payload. -/
def secondState (ss : SymmetricState κ) (e ee : κ) : SymmetricState κ :=
  ((ss.mixHash C (.value e)).mixKey C e).mixKey C ee

/-- `write_first`: the handshake that waits for the second message, and the use of the cipher whose
text is sent. -/
def writeFirst (e : Nat) (p : FirstPayload) : Handshake κ × Sealed κ τ :=
  let out := (firstState C psk (C.publicKey .initiator e)).encryptAndHash C .initiator
    (encodeFirstPayload p)
  (⟨out.1, e⟩, out.2)

/-- `read_first`: the tag is checked with no key agreement. -/
def readFirst (opens : Opener κ τ) (re : κ) (c : τ) :
    Option (SymmetricState κ × FirstPayload) :=
  match (firstState C psk re).decryptAndHash C opens c with
  | none => none
  | some (ss, plain) =>
    let p := decodeFirstPayload plain
    if p.flags &&& 0xFE ≠ 0 then none else some (ss, p)

/-- `write_second`; `none` where the agreement gives zero. -/
def writeSecond (ss : SymmetricState κ) (re : κ) (e : Nat) (flags : UInt8) :
    Option (SymmetricState κ × Sealed κ τ) :=
  (C.agree .responder e re).map fun ee =>
    (secondState C ss (C.publicKey .responder e) ee).encryptAndHash C .responder [flags]

/-- `read_second`: the flags byte, and the state after the last message. -/
def readSecond (opens : Opener κ τ) (hs : Handshake κ) (re : κ) (c : τ) :
    Option (SymmetricState κ × UInt8) :=
  match C.agree .initiator hs.e re with
  | none => none
  | some ee =>
    match (secondState C hs.ss re ee).decryptAndHash C opens c with
    | none => none
    | some (ss, plain) =>
      let flags := plain.headD 0
      if flags &&& 0xFC ≠ 0 then none else some (ss, flags)

/-! ## Which key is which -/

def rootKey : κ := C.hkdf (C.hashName protocolName) (some psk) 0

/-- The chaining key after the first message's `e`. -/
def chainFirst (re : κ) : κ := C.hkdf (rootKey C psk) (some re) 0

/-- The chaining key after both `e`s. -/
def chainSecond (re e : κ) : κ := C.hkdf (chainFirst C psk re) (some e) 0

def chainLast (re e ee : κ) : κ := C.hkdf (chainSecond C psk re e) (some ee) 0

def firstKey (re : κ) : κ := C.hkdf (rootKey C psk) (some re) 1

def secondKey (re e ee : κ) : κ := C.hkdf (chainSecond C psk re e) (some ee) 1

variable {C psk} {a b c d : κ}

theorem chainFirst_inj (h : chainFirst C psk a = chainFirst C psk b) : a = b :=
  Option.some.inj (C.hkdf_inj h).2.1

theorem chainSecond_inj (h : chainSecond C psk a c = chainSecond C psk b d) : a = b ∧ c = d := by
  obtain ⟨h1, h2, -⟩ := C.hkdf_inj h
  exact ⟨chainFirst_inj h1, Option.some.inj h2⟩

variable {x y : κ}

theorem chainLast_inj (h : chainLast C psk a c x = chainLast C psk b d y) : a = b ∧ c = d ∧ x = y := by
  obtain ⟨h1, h2, -⟩ := C.hkdf_inj h
  obtain ⟨hab, hcd⟩ := chainSecond_inj h1
  exact ⟨hab, hcd, Option.some.inj h2⟩

theorem firstKey_inj (h : firstKey C psk a = firstKey C psk b) : a = b :=
  Option.some.inj (C.hkdf_inj h).2.1

theorem secondKey_inj (h : secondKey C psk a c x = secondKey C psk b d y) : a = b ∧ c = d ∧ x = y := by
  obtain ⟨h1, h2, -⟩ := C.hkdf_inj h
  obtain ⟨hab, hcd⟩ := chainSecond_inj h1
  exact ⟨hab, hcd, Option.some.inj h2⟩

theorem firstKey_ne_secondKey (a b e ee : κ) : firstKey C psk a ≠ secondKey C psk b e ee := by
  intro h
  have hroot : rootKey C psk = chainSecond C psk b e := (C.hkdf_inj h).1
  have hname : C.hashName protocolName = chainFirst C psk b := (C.hkdf_inj hroot).1
  exact C.hkdf_ne_hashName _ _ _ _ hname.symm

theorem firstKey_ne_transport (a ck : κ) (i : Nat) : firstKey C psk a ≠ C.hkdf ck none i := by
  intro h
  exact absurd (C.hkdf_inj h).2.1 (by simp)

theorem secondKey_ne_transport (a e ee ck : κ) (i : Nat) : secondKey C psk a e ee ≠ C.hkdf ck none i := by
  intro h
  exact absurd (C.hkdf_inj h).2.1 (by simp)

end

end LibTracer.Net.Noise
