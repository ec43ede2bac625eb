import LibTracer.Wire.Crc

/-!
# TLV headers and trees (`tlv.hpp`, `path_ref.hpp`, `frame.hpp`, `error.hpp`)

The vocabulary of the wire format. Trees are generic in the type of a timestamp's nanoseconds, since
the three codecs of the repository store them as a 64-bit word or as an unbounded integer.
-/

namespace LibTracer.Wire

open Crc (Bytes)

/-! ## Errors -/

/-- `err_t`, the registered protocol errors. -/
inductive Err where
  | FRAME_TRUNCATED | FRAME_INVALID | FRAME_CRC_FAIL | TLV_NESTING_TOO_DEEP
  | PATH_NOT_FOUND | PATH_INVALID | PATH_IN_USE
  | SCHEMA_TYPE_MISMATCH | SCHEMA_NOT_FOUND
  | FLOW_BACKPRESSURE | FLOW_TIMEOUT | FLOW_ADDRESS_SHIFT_GAP
  | ACCESS_DENIED | TRANSPORT_DOWN | VERSION_MISMATCH
  deriving DecidableEq, Repr

/-! ## The `opt` byte -/

/-- `opt_t`: R | PL | TS | CR | LL | CW | TF | R, most significant bit first. -/
structure Opt where
  /-- payload is structured (children, not opaque bytes) -/
  pl : Bool := false
  /-- the trailer carries a timestamp -/
  ts : Bool := false
  /-- the trailer carries a CRC -/
  cr : Bool := false
  /-- length width: `false` = u16, `true` = u32 -/
  ll : Bool := false
  /-- CRC width: `false` = CRC-32C, `true` = CRC-16-CCITT -/
  cw : Bool := false
  /-- timestamp form: `false` = absolute u64, `true` = relative i32 -/
  tf : Bool := false
  deriving DecidableEq, Repr

namespace Opt

def kReservedMask : UInt8 := 0b10000001

def reservedSet (b : UInt8) : Bool := b &&& kReservedMask != 0

def decode (b : UInt8) : Opt where
  pl := b &&& 0x40 != 0
  ts := b &&& 0x20 != 0
  cr := b &&& 0x10 != 0
  ll := b &&& 0x08 != 0
  cw := b &&& 0x04 != 0
  tf := b &&& 0x02 != 0

def encode (o : Opt) : UInt8 :=
  (if o.pl then 0x40 else 0) ||| (if o.ts then 0x20 else 0) ||| (if o.cr then 0x10 else 0) |||
    (if o.ll then 0x08 else 0) ||| (if o.cw then 0x04 else 0) ||| (if o.tf then 0x02 else 0)

@[simp] theorem decode_encode (o : Opt) : decode o.encode = o := by
  obtain ⟨pl, ts, cr, ll, cw, tf⟩ := o
  cases pl <;> cases ts <;> cases cr <;> cases ll <;> cases cw <;> cases tf <;> rfl

@[simp] theorem reservedSet_encode (o : Opt) : reservedSet o.encode = false := by
  obtain ⟨pl, ts, cr, ll, cw, tf⟩ := o
  cases pl <;> cases ts <;> cases cr <;> cases ll <;> cases cw <;> cases tf <;> rfl

/-- **No second spelling**: an `opt` byte without reserved bits is what its bits pack to. -/
theorem encode_decode (b : UInt8) (h : reservedSet b = false) : (decode b).encode = b := by
  have hall : ∀ n : Fin 256, reservedSet (UInt8.ofNat n) = false →
      (decode (UInt8.ofNat n)).encode = UInt8.ofNat n := by decide +kernel
  have hb := hall ⟨b.toNat, b.toNat_lt⟩
  simpa [h] using hb

/-- Header length: 4, or 6 with the `LL` bit. -/
def header (o : Opt) : Nat := if o.ll then 6 else 4

def lengthWidth (o : Opt) : Nat := if o.ll then 4 else 2

def tsSize (o : Opt) : Nat := if o.ts then (if o.tf then 4 else 8) else 0

def crcSize (o : Opt) : Nat := if o.cr then (if o.cw then 2 else 4) else 0

theorem header_eq (o : Opt) : o.header = 2 + o.lengthWidth := by
  unfold header lengthWidth
  split <;> rfl

theorem four_le_header (o : Opt) : 4 ≤ o.header := by
  unfold header
  split <;> omega

end Opt

/-! ## The `PATH_REF` body rule -/

/-- The type code of a retired bound path (`type_t::PATH_REF`). -/
def PATH_REF : UInt8 := 0x14

def isPathRefType (t : UInt8) : Bool := t == PATH_REF

def kPathRefElementBytes : Nat := 8

def kMaxPathRefElements : Nat := 255

def kMaxPathRefBodyBytes : Nat := kMaxPathRefElements * kPathRefElementBytes

/-- `path_ref_body_valid`: the grammar's one per-type structural rule. -/
def pathRefBodyValid (pl ll : Bool) (bodyLen : Nat) : Bool :=
  !pl && !ll && bodyLen % kPathRefElementBytes == 0 && bodyLen ≤ kMaxPathRefBodyBytes

def shapeOk (type : UInt8) (opt : Opt) (bodyLen : Nat) : Bool :=
  !(isPathRefType type && !pathRefBodyValid opt.pl opt.ll bodyLen)

/-! ## Trailers and trees -/

/-- `crc_t::width_t`. -/
inductive CrcWidth where
  | CRC32C | CRC16_CCITT
  deriving DecidableEq, Repr

/-- `crc_t`; 16-bit values are zero-extended. -/
structure CrcField where
  width : CrcWidth
  value : BitVec 32
  deriving DecidableEq, Repr

/-- `timestamp_t`, its nanoseconds in `τ`. -/
structure TimestampOf (τ : Type) where
  relative : Bool
  value : τ
  deriving DecidableEq, Repr

/-- `trailer_t`. -/
structure TrailerOf (τ : Type) where
  ts : Option (TimestampOf τ) := none
  crc : Option CrcField := none
  deriving DecidableEq, Repr

/-- `tlv_t`: a TLV tree a caller builds to encode. -/
inductive TlvOf (τ : Type) where
  | mk (type : UInt8) (opt : Opt) (payload : Bytes) (children : List (TlvOf τ))
      (trailer : Option (TrailerOf τ))

/-- Timestamps of `frame.hpp` and of the Rust codec are `i64` words. -/
abbrev Timestamp := TimestampOf (BitVec 64)

abbrev Trailer := TrailerOf (BitVec 64)

abbrev Tlv := TlvOf (BitVec 64)

namespace TlvOf

variable {τ : Type}

def type : TlvOf τ → UInt8
  | .mk type _ _ _ _ => type

def opt : TlvOf τ → Opt
  | .mk _ opt _ _ _ => opt

def payload : TlvOf τ → Bytes
  | .mk _ _ payload _ _ => payload

def children : TlvOf τ → List (TlvOf τ)
  | .mk _ _ _ children _ => children

def trailer : TlvOf τ → Option (TrailerOf τ)
  | .mk _ _ _ _ trailer => trailer

def stamp (t : TlvOf τ) : Option (TimestampOf τ) := t.trailer.bind TrailerOf.ts

section Projections

variable (ty : UInt8) (o : Opt) (p : Bytes) (cs : List (TlvOf τ)) (tr : Option (TrailerOf τ))

@[simp] theorem type_mk : (TlvOf.mk ty o p cs tr).type = ty := rfl
@[simp] theorem opt_mk : (TlvOf.mk ty o p cs tr).opt = o := rfl
@[simp] theorem payload_mk : (TlvOf.mk ty o p cs tr).payload = p := rfl
@[simp] theorem children_mk : (TlvOf.mk ty o p cs tr).children = cs := rfl
@[simp] theorem trailer_mk : (TlvOf.mk ty o p cs tr).trailer = tr := rfl
@[simp] theorem stamp_mk : (TlvOf.mk ty o p cs tr).stamp = tr.bind TrailerOf.ts := rfl

end Projections

theorem induct {P : TlvOf τ → Prop} (h : ∀ ty o p cs tr, (∀ c ∈ cs, P c) → P (.mk ty o p cs tr)) : ∀ t, P t
  | .mk ty o p cs tr => h ty o p cs tr (list cs)
where
  list : ∀ (cs : List (TlvOf τ)), ∀ c ∈ cs, P c
    | [] => List.forall_mem_nil P
    | c :: cs => List.forall_mem_cons.mpr ⟨induct h c, list cs⟩

mutual

def nodes : TlvOf τ → List (TlvOf τ)
  | .mk ty o p cs tr => .mk ty o p cs tr :: nodesList cs

def nodesList : List (TlvOf τ) → List (TlvOf τ)
  | [] => []
  | c :: cs => c.nodes ++ nodesList cs

end

def All (P : TlvOf τ → Prop) (t : TlvOf τ) : Prop := ∀ n ∈ t.nodes, P n

instance (P : TlvOf τ → Prop) [DecidablePred P] (t : TlvOf τ) : Decidable (All P t) :=
  inferInstanceAs (Decidable (∀ n ∈ t.nodes, P n))

theorem mem_nodesList {n : TlvOf τ} {cs : List (TlvOf τ)} : n ∈ nodesList cs ↔ ∃ c ∈ cs, n ∈ c.nodes := by
  induction cs with
  | nil => simp [nodesList]
  | cons c cs ih => simp [nodesList, ih]

theorem all_mk {P : TlvOf τ → Prop} {ty : UInt8} {o : Opt} {p : Bytes} {cs : List (TlvOf τ)}
    {tr : Option (TrailerOf τ)} : All P (.mk ty o p cs tr) ↔ P (.mk ty o p cs tr) ∧ ∀ c ∈ cs, All P c := by
  simp only [All, nodes, List.forall_mem_cons, mem_nodesList]
  constructor
  · exact fun h => ⟨h.1, fun c hc n hn => h.2 n ⟨c, hc, hn⟩⟩
  · rintro ⟨h, hcs⟩
    exact ⟨h, fun n ⟨c, hc, hn⟩ => hcs c hc n hn⟩

theorem All.imp {P Q : TlvOf τ → Prop} (h : ∀ t, P t → Q t) {t : TlvOf τ} (ht : All P t) :
    All Q t := fun n hn => h n (ht n hn)

end TlvOf

end LibTracer.Wire
