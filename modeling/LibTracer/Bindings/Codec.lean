import LibTracer.Wire.RoundTrip

/-!
# The Rust and TypeScript codecs (`bindings/rust/src/lib.rs`, `packages/core/src/codec.mjs`)

Two hand-written ports of the C++ codec. They share their structure, branch by branch, and differ
in their number types and in how they spell checksums and little-endian fields: a `Port` holds
those parts, and `parseOne`, `decode` and `encode` are written once over it.
-/

namespace LibTracer.Bindings

open Window Wire Grammar
open LittleEndian (foldl_range_eq_load load ofNat_and_255 or_shiftLeft_of_lt store store_eq_iff store_succ)
open Crc (Bytes)

/-! ## Errors and ports -/

/-- `Error` of the Rust crate and the `ERROR` table of the TypeScript package. -/
inductive Error where
  | FrameTruncated | FrameInvalid | FrameCrcFail | TlvNestingTooDeep
  deriving DecidableEq, Repr

/-- `Error::name`, and the strings of the `ERROR` table. -/
def Error.name : Error → String
  | .FrameTruncated => "FRAME_TRUNCATED"
  | .FrameInvalid => "FRAME_INVALID"
  | .FrameCrcFail => "FRAME_CRC_FAIL"
  | .TlvNestingTooDeep => "TLV_NESTING_TOO_DEEP"

/-- The parts in which the two ports differ; `τ` holds a timestamp's nanoseconds. -/
structure Port (τ : Type) where
  crc32c : Bytes → Nat
  crc16Ccitt : Bytes → Nat
  /-- at most four little-endian bytes at an offset -/
  readLe : Bytes → Nat → Nat → Nat
  /-- eight of them -/
  readLe64 : Bytes → Nat → Nat
  /-- at most four little-endian bytes of a number -/
  writeLe : Nat → Nat → Bytes
  /-- a raw relative or absolute timestamp field as nanoseconds -/
  ofRelative : Nat → τ
  ofAbsolute : Nat → τ
  /-- and back -/
  writeRelative : τ → Bytes
  writeAbsolute : τ → Bytes
  zero : τ
  /-- what `parse_one` returns as the children region of an opaque TLV; no caller reads it -/
  opaqueRegion : Bytes → Bytes

/-- What `parse_one` returns. -/
structure Parsed (τ : Type) where
  tlv : TlvOf τ
  total : Nat
  children : Bytes

/-- `Open`: a structured node whose children are still being parsed. -/
structure Open (τ : Type) where
  node : TlvOf τ
  payload : Bytes
  pos : Nat
  total : Nat

/-- `node.children.push(child)`. -/
def addChild {τ : Type} : TlvOf τ → TlvOf τ → TlvOf τ
  | .mk type opt payload children trailer, child => .mk type opt payload (children ++ [child]) trailer

def mapTrailer {τ σ : Type} (f : τ → σ) (t : TrailerOf τ) : TrailerOf σ where
  ts := t.ts.map fun s => ⟨s.relative, f s.value⟩
  crc := t.crc

mutual

def mapStamp {τ σ : Type} (f : τ → σ) : TlvOf τ → TlvOf σ
  | .mk type opt payload children trailer =>
    .mk type opt payload (mapStamps f children) (trailer.map (mapTrailer f))

def mapStamps {τ σ : Type} (f : τ → σ) : List (TlvOf τ) → List (TlvOf σ)
  | [] => []
  | c :: cs => mapStamp f c :: mapStamps f cs

end

mutual

theorem mapStamp_id {τ : Type} : ∀ t : TlvOf τ, mapStamp id t = t
  | .mk type opt payload children trailer => by
    have htrailer : trailer.map (mapTrailer id) = trailer := by
      cases trailer with
      | none => rfl
      | some tr =>
        obtain ⟨ts, crc⟩ := tr
        cases ts <;> rfl
    rw [mapStamp, mapStamps_id children, htrailer]

theorem mapStamps_id {τ : Type} : ∀ ts : List (TlvOf τ), mapStamps id ts = ts
  | [] => rfl
  | t :: ts => by rw [mapStamps, mapStamp_id t, mapStamps_id ts]

end

namespace Port

variable {τ : Type} (P : Port τ)

/-! ## Decoding -/

/-- The timestamp arm of `parse_one`. -/
def readStamp (buf : Bytes) (opt : Opt) (off : Nat) : Option (TimestampOf τ) :=
  if opt.ts then
    if opt.tf then some ⟨opt.tf, P.ofRelative (P.readLe buf off 4)⟩
    else some ⟨opt.tf, P.ofAbsolute (P.readLe64 buf off)⟩
  else none

/-- The CRC arm of `parse_one`: the stored value, if the covered bytes have it. -/
def readCrc (buf : Bytes) (opt : Opt) (header length tsSize : Nat) : Except Error CrcField :=
  let covered := window buf header (length + tsSize)
  let crcOff := header + length + tsSize
  if opt.cw then
    let value := P.readLe buf crcOff 2
    if P.crc16Ccitt covered ≠ value then .error .FrameCrcFail
    else .ok ⟨.CRC16_CCITT, BitVec.ofNat 32 value⟩
  else
    let value := P.readLe buf crcOff 4
    if P.crc32c covered ≠ value then .error .FrameCrcFail
    else .ok ⟨.CRC32C, BitVec.ofNat 32 value⟩

/-- The trailer of `parse_one`: the timestamp is read, then the CRC is read and checked. -/
def parseTrailer (buf : Bytes) (opt : Opt) (header length tsSize : Nat) :
    Except Error (Option (TrailerOf τ)) :=
  if opt.ts || opt.cr then
    let ts := P.readStamp buf opt (header + length)
    if opt.cr then
      match P.readCrc buf opt header length tsSize with
      | .error e => .error e
      | .ok crc => .ok (some { ts, crc := some crc })
    else .ok (some { ts })
  else .ok none

/-- `parse_one`: one TLV at the front of `buf`, its children left to the caller. -/
def parseOne (buf : Bytes) : Except Error (Parsed τ) :=
  if buf.length < 4 then .error .FrameTruncated else
  let typeB := buf.getD 0 0
  let optB := buf.getD 1 0
  if typeB = 0x00 then .error .FrameInvalid else
  if Opt.reservedSet optB then .error .FrameInvalid else
  let opt := Opt.decode optB
  let header := if opt.ll then 6 else 4
  if buf.length < header then .error .FrameTruncated else
  let length := P.readLe buf 2 (if opt.ll then 4 else 2)
  if isPathRefType typeB && !pathRefBodyValid opt.pl opt.ll length then .error .FrameInvalid else
  let tsSize := if opt.ts then (if opt.tf then 4 else 8) else 0
  let crcSize := if opt.cr then (if opt.cw then 2 else 4) else 0
  let total := header + length + tsSize + crcSize
  if buf.length < total then .error .FrameTruncated else
  let payload := window buf header length
  match P.parseTrailer buf opt header length tsSize with
  | .error e => .error e
  | .ok trailer =>
    .ok ⟨.mk typeB opt (if opt.pl then [] else payload) [] trailer, total,
      if opt.pl then payload else P.opaqueRegion payload⟩

/-- The loop of `decode` over its stack of open nodes, innermost first. `none` is a run cut off by
    `fuel`. -/
def decodeLoop : Nat → List (Open τ) → Option (Except Error (TlvOf τ))
  | 0, _ => none
  | _ + 1, [] => none
  | fuel + 1, top :: below =>
    if top.pos = top.payload.length then
      match below with
      | [] => some (.ok top.node)
      | parent :: below =>
        decodeLoop fuel ({ parent with
          node := addChild parent.node top.node
          pos := parent.pos + top.total } :: below)
    else
      match P.parseOne (top.payload.drop top.pos) with
      | .error e => some (.error e)
      | .ok child =>
        if child.tlv.opt.pl then
          decodeLoop fuel (⟨child.tlv, child.children, 0, child.total⟩ :: top :: below)
        else
          decodeLoop fuel ({ top with
            node := addChild top.node child.tlv
            pos := top.pos + child.total } :: below)

/-- `decode`: exactly one TLV that fills `input`. Every round closes a node or consumes a header, so
    the input's length bounds the rounds. -/
def decode (input : Bytes) : Option (Except Error (TlvOf τ)) :=
  match P.parseOne input with
  | .error e => some (.error e)
  | .ok root =>
    if root.total ≠ input.length then some (.error .FrameInvalid)
    else if !root.tlv.opt.pl then some (.ok root.tlv)
    else P.decodeLoop (input.length + 1) [⟨root.tlv, root.children, 0, root.total⟩]

/-! ## Encoding -/

/-- The timestamp bytes of `encode`; an absent value counts as zero. -/
def stampBytes (opt : Opt) (trailer : Option (TrailerOf τ)) : Bytes :=
  if opt.ts then
    let t := (trailer.bind TrailerOf.ts).getD ⟨opt.tf, P.zero⟩
    if opt.tf then P.writeRelative t.value else P.writeAbsolute t.value
  else []

/-- Header, body and trailer as `encode` lays them out: the length in the width `opt.ll` says. -/
def frame (type : UInt8) (opt : Opt) (body tsBytes : Bytes) : Bytes :=
  let crc : Bytes :=
    if opt.cr then
      if opt.cw then P.writeLe (P.crc16Ccitt (body ++ tsBytes)) 2
      else P.writeLe (P.crc32c (body ++ tsBytes)) 4
    else []
  [type, opt.encode] ++ P.writeLe body.length (if opt.ll then 4 else 2) ++ body ++ tsBytes ++ crc

mutual

/-- `encode`: the empty string is a refusal. -/
def encode : TlvOf τ → Bytes
  | .mk type opt payload children trailer =>
    if isPathRefType type && !pathRefBodyValid opt.pl opt.ll payload.length then []
    else
      match (if opt.pl then encodeChildren children else some payload) with
      | none => []
      | some body => P.frame type opt body (P.stampBytes opt trailer)

/-- The children's frames one after the other; a refused child refuses its parent. -/
def encodeChildren : List (TlvOf τ) → Option Bytes
  | [] => some []
  | c :: cs =>
    let cb := encode c
    if cb = [] then none else (encodeChildren cs).map (cb ++ ·)

end

end Port

/-! ## The Rust crate -/

namespace Rust

/-- `crc32c`: the table entry of each byte is computed on the fly. -/
def crc32c (data : Bytes) : BitVec 32 :=
  data.foldl (fun c b =>
    let x := (c ^^^ ReflectedCrc.ofByte b) &&& 0xFF#32
    let x := (fun x => if x &&& 1#32 ≠ 0#32 then 0x82F63B78#32 ^^^ (x >>> 1) else x >>> 1)^[8] x
    x ^^^ (c >>> 8)) 0xFFFFFFFF#32 ^^^ 0xFFFFFFFF#32

def crc16Ccitt (data : Bytes) : BitVec 16 :=
  data.foldl (fun c b =>
    let idx := (c >>> 8).setWidth 8 ^^^ b.toBitVec
    let t := (fun t => if t &&& 0x8000#16 ≠ 0#16 then (t <<< 1) ^^^ 0x1021#16 else t <<< 1)^[8]
      (idx.setWidth 16 <<< 8)
    t ^^^ (c <<< 8)) 0xFFFF#16

/-- `read_le`: the bytes are or-ed together. -/
def readLe (b : Bytes) (off n : Nat) : Nat :=
  (List.range n).foldl (fun v i => v ||| ((b.getD (off + i) 0).toNat <<< (8 * i))) 0

def writeLe (v n : Nat) : Bytes := (List.range n).map fun i => UInt8.ofNat ((v >>> (8 * i)) &&& 0xFF)

end Rust

/-- The Rust port: a timestamp is an `i64` word. -/
def rust : Port (BitVec 64) where
  crc32c data := (Rust.crc32c data).toNat
  crc16Ccitt data := (Rust.crc16Ccitt data).toNat
  readLe := Rust.readLe
  readLe64 b off := Rust.readLe b off 8
  writeLe := Rust.writeLe
  ofRelative raw := (BitVec.ofNat 32 raw).signExtend 64
  ofAbsolute raw := BitVec.ofNat 64 raw
  writeRelative value := Rust.writeLe (value.setWidth 32).toNat 4
  writeAbsolute value := Rust.writeLe value.toNat 8
  zero := 0
  opaqueRegion _ := []

/-! ## The TypeScript package -/

namespace TypeScript

def crc32cTable (i : BitVec 32) : BitVec 32 :=
  (fun c => if c &&& 1#32 ≠ 0#32 then 0x82F63B78#32 ^^^ (c >>> 1) else c >>> 1)^[8] i

def crc16Table (i : BitVec 8) : BitVec 16 :=
  (fun c => if c &&& 0x8000#16 ≠ 0#16 then (c <<< 1) ^^^ 0x1021#16 else c <<< 1)^[8]
    (i.setWidth 16 <<< 8)

def crc32c (data : Bytes) : BitVec 32 :=
  data.foldl (fun c b => crc32cTable ((c ^^^ ReflectedCrc.ofByte b) &&& 0xFF#32) ^^^ (c >>> 8))
    0xFFFFFFFF#32 ^^^ 0xFFFFFFFF#32

def crc16ccitt (data : Bytes) : BitVec 16 :=
  data.foldl (fun c b => crc16Table ((c >>> 8).setWidth 8 ^^^ b.toBitVec) ^^^ (c <<< 8)) 0xFFFF#16

/-- `readLe`: a sum of doubles, exact below 2⁵³. -/
def readLe (b : Bytes) (off n : Nat) : Nat :=
  (List.range n).foldl (fun v i => v + (b.getD (off + i) 0).toNat * 2 ^ (8 * i)) 0

/-- `readLe64`: a sum of big integers. -/
def readLe64 (b : Bytes) (off : Nat) : Nat :=
  (List.range 8).foldl (fun v i => v + ((b.getD (off + i) 0).toNat <<< (8 * i))) 0

/-- `writeLe`: `>>>` first takes its operand modulo 2³². -/
def writeLe (v n : Nat) : Bytes :=
  (List.range n).map fun i => UInt8.ofNat (((v % 2 ^ 32) >>> (8 * i)) &&& 0xFF)

/-- The loop of `writeLe64`. -/
def pushBytes : Nat → Nat → Bytes
  | 0, _ => []
  | n + 1, x => UInt8.ofNat (x &&& 0xFF) :: pushBytes n (x >>> 8)

def writeLe64 (v : Int) : Bytes := pushBytes 8 (v % 2 ^ 64).toNat

/-- `raw | 0`: a number as a signed 32-bit integer. -/
def toInt32 (raw : Nat) : Int := (BitVec.ofNat 32 raw).toInt

end TypeScript

def typeScript : Port Int where
  crc32c data := (TypeScript.crc32c data).toNat
  crc16Ccitt data := (TypeScript.crc16ccitt data).toNat
  readLe := TypeScript.readLe
  readLe64 := TypeScript.readLe64
  writeLe := TypeScript.writeLe
  ofRelative := TypeScript.toInt32
  ofAbsolute raw := raw
  writeRelative value := TypeScript.writeLe (value % 2 ^ 32).toNat 4
  writeAbsolute := TypeScript.writeLe64
  zero := 0
  opaqueRegion payload := payload

/-! ## What the parts compute -/

/-- The parts of a port compute what the C++ core's do; `word` is the 64-bit word a port's timestamp
    stands for. -/
structure Port.Lawful {τ : Type} (P : Port τ) (word : τ → BitVec 64) : Prop where
  crc32c_eq (data : Bytes) : P.crc32c data = (Crc.crc32c data).toNat
  crc16_eq (data : Bytes) : P.crc16Ccitt data = (Crc.crc16Ccitt data).toNat
  readLe_eq (b : Bytes) (off n : Nat) : off + n ≤ b.length →
    P.readLe b off n = LittleEndian.load (window b off n)
  readLe64_eq (b : Bytes) (off : Nat) : off + 8 ≤ b.length →
    P.readLe64 b off = LittleEndian.load (window b off 8)
  writeLe_eq {v n : Nat} : n ≤ 4 → P.writeLe v n = LittleEndian.store v n
  ofRelative_eq (raw : Nat) : word (P.ofRelative raw) = (BitVec.ofNat 32 raw).signExtend 64
  ofAbsolute_eq (raw : Nat) : word (P.ofAbsolute raw) = BitVec.ofNat 64 raw
  writeRelative_eq (v : τ) : P.writeRelative v = storeTrailerTs true (word v)
  writeAbsolute_eq (v : τ) : P.writeAbsolute v = storeTrailerTs false (word v)
  zero_eq : word P.zero = 0

theorem Rust.readLe_eq {b : Bytes} {off n : Nat} (h : off + n ≤ b.length) :
    Rust.readLe b off n = load (window b off n) :=
  @foldl_range_eq_load (fun v b i => v ||| (b.toNat <<< (8 * i)))
    (fun _ b _ hv => or_shiftLeft_of_lt hv b.toNat) b off n h

theorem Rust.writeLe_eq (v n : Nat) : Rust.writeLe v n = store v n := by
  simp only [Rust.writeLe, store, ofNat_and_255]

theorem rust_lawful : rust.Lawful id where
  crc32c_eq _ := rfl
  crc16_eq _ := rfl
  readLe_eq _ _ _ := Rust.readLe_eq
  readLe64_eq _ _ := Rust.readLe_eq
  writeLe_eq _ := Rust.writeLe_eq _ _
  ofRelative_eq _ := rfl
  ofAbsolute_eq _ := rfl
  writeRelative_eq _ := Rust.writeLe_eq _ _
  writeAbsolute_eq _ := Rust.writeLe_eq _ _
  zero_eq := rfl

theorem TypeScript.readLe_eq {b : Bytes} {off n : Nat} (h : off + n ≤ b.length) :
    TypeScript.readLe b off n = load (window b off n) :=
  @foldl_range_eq_load (fun v b i => v + b.toNat * 2 ^ (8 * i))
    (fun _ _ _ _ => rfl) b off n h

theorem TypeScript.readLe64_eq {b : Bytes} {off : Nat} (h : off + 8 ≤ b.length) :
    TypeScript.readLe64 b off = load (window b off 8) :=
  @foldl_range_eq_load (fun v b i => v + (b.toNat <<< (8 * i)))
    (fun v b i _ => by rw [Nat.shiftLeft_eq]) b off 8 h

theorem TypeScript.writeLe_eq {v n : Nat} (hn : n ≤ 4) : TypeScript.writeLe v n = store v n := by
  simp only [TypeScript.writeLe, ofNat_and_255]
  show store (v % 2 ^ 32) n = _
  have hdvd : (256 : Nat) ^ n ∣ 2 ^ 32 := by
    rw [show (2 : Nat) ^ 32 = 256 ^ 4 from rfl]
    exact Nat.pow_dvd_pow 256 hn
  rw [store_eq_iff, Nat.mod_mod_of_dvd v hdvd]

theorem TypeScript.pushBytes_eq (n x : Nat) : TypeScript.pushBytes n x = store x n := by
  induction n generalizing x with
  | zero => rfl
  | succ n ih =>
    rw [TypeScript.pushBytes, ih, store_succ, ofNat_and_255, Nat.shiftRight_eq_div_pow]

theorem TypeScript.writeRelative_eq (v : Int) :
    TypeScript.writeLe (v % 2 ^ 32).toNat 4 = storeTrailerTs true (BitVec.ofInt 64 v) := by
  have hnat : ((BitVec.ofInt 64 v).setWidth 32).toNat = (v % 2 ^ 32).toNat := by
    rw [BitVec.toNat_setWidth, BitVec.toNat_ofInt]
    omega
  rw [TypeScript.writeLe_eq (by decide), storeTrailerTs, if_pos rfl, hnat]

theorem TypeScript.writeLe64_eq (v : Int) :
    TypeScript.writeLe64 v = storeTrailerTs false (BitVec.ofInt 64 v) := by
  have hnat : (BitVec.ofInt 64 v).toNat = (v % 2 ^ 64).toNat := by
    rw [BitVec.toNat_ofInt]
    omega
  rw [TypeScript.writeLe64, TypeScript.pushBytes_eq, storeTrailerTs, if_neg (by decide), hnat]

theorem typeScript_lawful : typeScript.Lawful (BitVec.ofInt 64) where
  crc32c_eq _ := rfl
  crc16_eq _ := rfl
  readLe_eq _ _ _ := TypeScript.readLe_eq
  readLe64_eq _ _ := TypeScript.readLe64_eq
  writeLe_eq := TypeScript.writeLe_eq
  ofRelative_eq _ := rfl
  ofAbsolute_eq raw := BitVec.ofInt_natCast 64 raw
  writeRelative_eq := TypeScript.writeRelative_eq
  writeAbsolute_eq := TypeScript.writeLe64_eq
  zero_eq := rfl

end LibTracer.Bindings
