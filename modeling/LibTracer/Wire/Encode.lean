import LibTracer.Wire.Frame

/-!
# What `encode` emits

* `narrow_eq_iff` : a relative timestamp survives the wire exactly when it is a signed 32-bit
  value.
-/

namespace LibTracer.Wire

open Window Grammar List
open Crc (Bytes crc16Ccitt crc32c)

/-! ## Timestamps and checksums on the wire -/

/-- What survives of a timestamp on the wire: a relative one is narrowed to 32 bits. -/
def narrow (relative : Bool) (v : BitVec 64) : BitVec 64 :=
  if relative then (v.setWidth 32).signExtend 64 else v

def FitsI32 (v : BitVec 64) : Prop := -2 ^ 31 ≤ v.toInt ∧ v.toInt < 2 ^ 31

instance (v : BitVec 64) : Decidable (FitsI32 v) := inferInstanceAs (Decidable (_ ∧ _))

/-- A relative stamp is kept exactly if it fits 32 bits. -/
theorem narrow_eq_iff (v : BitVec 64) : narrow true v = v ↔ FitsI32 v := by
  have h64 := v.isLt
  simp only [narrow, if_true, FitsI32]
  rw [← BitVec.toInt_inj, BitVec.toInt_signExtend_of_le (by decide), BitVec.toInt_setWidth]
  constructor
  · intro h
    rw [← h]
    constructor
    · exact Int.le_bmod (by decide)
    · exact Int.bmod_lt (by decide)
  · rintro ⟨hlo, hhi⟩
    rw [BitVec.toInt_eq_toNat_cond] at hlo hhi ⊢
    rw [Int.bmod_def]
    by_cases hpos : 2 * v.toNat < 2 ^ 64
    · simp only [hpos, if_true] at hlo hhi ⊢
      split <;> omega
    · simp only [hpos, if_false] at hlo hhi ⊢
      split <;> omega

theorem loadStamp_store (relative : Bool) (v : BitVec 64) :
    loadStamp relative (storeTrailerTs relative v) = narrow relative v := by
  cases relative
  · simp only [loadStamp, storeTrailerTs, narrow, Bool.false_eq_true, if_false]
    rw [LittleEndian.load_store_of_lt (by exact v.isLt), BitVec.ofNat_toNat, BitVec.setWidth_eq]
  · simp only [loadStamp, storeTrailerTs, narrow, if_true]
    rw [LittleEndian.load_store_of_lt (by exact (v.setWidth 32).isLt), BitVec.ofNat_toNat,
      BitVec.setWidth_eq]

theorem length_storeTrailerTs (relative : Bool) (v : BitVec 64) :
    (storeTrailerTs relative v).length = if relative then 4 else 8 := by
  cases relative <;> simp [storeTrailerTs]

theorem setWidth_signExtend_word (x : BitVec 32) : (x.signExtend 64).setWidth 32 = x := by
  apply BitVec.eq_of_getLsbD_eq
  intro i hi
  have h64 : i < 64 := by omega
  simp only [BitVec.getLsbD_setWidth, BitVec.getLsbD_signExtend, hi, h64, decide_true,
    Bool.true_and, if_true]

/-- A stamp that was read is written back. -/
theorem store_loadStamp (relative : Bool) {f : Bytes} (hf : f.length = if relative then 4 else 8) :
    storeTrailerTs relative (loadStamp relative f) = f := by
  have hlt := LittleEndian.load_lt f
  have hst := LittleEndian.store_load f
  cases relative
  · simp only [Bool.false_eq_true, if_false] at hf
    rw [hf] at hlt hst
    simp only [loadStamp, storeTrailerTs, Bool.false_eq_true, if_false, BitVec.toNat_ofNat]
    rw [Nat.mod_eq_of_lt (by exact hlt), hst]
  · simp only [if_true] at hf
    rw [hf] at hlt hst
    simp only [loadStamp, storeTrailerTs, if_true]
    rw [setWidth_signExtend_word]
    simp only [BitVec.toNat_ofNat]
    rw [Nat.mod_eq_of_lt (by exact hlt), hst]

/-! ## Emitted frames are cells -/

/-- The body of the frame a tree is sent as. -/
def content : Tlv → Bytes
  | .mk _ opt payload children _ => if opt.pl then putChildren children else payload

/-- What the CRC covers: the body and the stamp. -/
def covered (t : Tlv) : Bytes := content t ++ stampBytes t.opt t.trailer

/-- A frame is its header, what the CRC covers, and the CRC. -/
theorem putTlv_eq (t : Tlv) :
    putTlv t = emitHeader t.type (widen t.opt ((bodyBytes t).getD 0)) ((bodyBytes t).getD 0) ++
      covered t ++ crcBytes t.opt (covered t) := by
  obtain ⟨type, opt, payload, children, trailer⟩ := t
  have hcrc : ∀ cov : Bytes, (if opt.cr then LittleEndian.store
        (if opt.cw then (crc16Ccitt cov).toNat else (crc32c cov).toNat) opt.crcSize else []) =
      crcBytes opt cov := by
    intro cov
    unfold crcBytes Opt.crcSize
    cases opt.cr <;> cases opt.cw <;> rfl
  rw [putTlv]
  simp only [hcrc, content, covered, TlvOf.opt_mk, TlvOf.trailer_mk, TlvOf.type_mk]

section Widen

variable (o : Opt) (b : Nat)

@[simp] theorem widen_pl : (widen o b).pl = o.pl := by unfold widen; split <;> rfl
@[simp] theorem widen_ts : (widen o b).ts = o.ts := by unfold widen; split <;> rfl
@[simp] theorem widen_cr : (widen o b).cr = o.cr := by unfold widen; split <;> rfl
@[simp] theorem widen_cw : (widen o b).cw = o.cw := by unfold widen; split <;> rfl
@[simp] theorem widen_tf : (widen o b).tf = o.tf := by unfold widen; split <;> rfl
@[simp] theorem widen_tsSize : (widen o b).tsSize = o.tsSize := by simp [Opt.tsSize]
@[simp] theorem widen_crcSize : (widen o b).crcSize = o.crcSize := by simp [Opt.crcSize]
@[simp] theorem widen_crcBytes (cov : Bytes) : crcBytes (widen o b) cov = crcBytes o cov := by
  simp [crcBytes]

theorem widen_of_le (h : b ≤ 0xFFFF) : widen o b = o := if_neg (by omega)

theorem lt_lengthWidth_widen (h : b < 2 ^ 32) : b < 256 ^ (widen o b).lengthWidth := by
  unfold widen Opt.lengthWidth
  split
  · simpa using h
  · split <;> omega

end Widen

theorem length_emitHeader (type : UInt8) (opt : Opt) (n : Nat) :
    (emitHeader type opt n).length = opt.header := by
  rw [emitHeader, length_cons, length_cons, LittleEndian.length_store, Opt.header_eq, Opt.lengthWidth]
  omega

theorem length_stampBytes (opt : Opt) (trailer : Option Trailer) :
    (stampBytes opt trailer).length = opt.tsSize := by
  unfold stampBytes Opt.tsSize
  cases opt.ts
  · rfl
  · exact length_storeTrailerTs _ _

theorem bodyBytes_eq (t : Tlv) : bodyBytes t =
      if shapeOk t.type t.opt t.payload.length && stampOk t.opt t.trailer then
        if t.opt.pl then childrenBytes t.children else some t.payload.length else none := by
  obtain ⟨type, opt, payload, children, trailer⟩ := t
  show bodyBytes _ = if shapeOk type opt payload.length && stampOk opt trailer then
    if opt.pl then childrenBytes children else some payload.length else none
  rw [bodyBytes, shapeOk]
  cases isPathRefType type && !pathRefBodyValid opt.pl opt.ll payload.length <;>
    cases stampOk opt trailer <;> cases opt.pl <;> rfl

/-- What `body_bytes` has checked where it gives a size. -/
theorem bodyBytes_some {t : Tlv} {b : Nat} (h : bodyBytes t = some b) :
    shapeOk t.type t.opt t.payload.length = true ∧ stampOk t.opt t.trailer = true ∧
    (t.opt.pl = false → b = t.payload.length) ∧ (t.opt.pl = true → childrenBytes t.children = some b) := by
  rw [bodyBytes_eq] at h
  split at h
  next hok =>
    rw [Bool.and_eq_true] at hok
    refine ⟨hok.1, hok.2, ?_, ?_⟩
    · intro hpl
      rw [hpl] at h
      cases h
      rfl
    · intro hpl
      rw [hpl] at h
      exact h
  · cases h

theorem childrenBytes_cons {c : Tlv} {cs : List Tlv} {n : Nat} (h : childrenBytes (c :: cs) = some n) :
    ∃ b m, bodyBytes c = some b ∧ childrenBytes cs = some m ∧ n = frameBytes c.opt b + m := by
  rw [childrenBytes] at h
  split at h
  next b m hb hm =>
    cases h
    exact ⟨b, m, hb, hm, rfl⟩
  · cases h

mutual

/-- **`encode` emits what it sized**: the body is as long as `body_bytes` said, and so is the
    frame. -/
theorem length_put : ∀ (t : Tlv) (b : Nat), bodyBytes t = some b →
    (content t).length = b ∧ (putTlv t).length = frameBytes t.opt b
  | .mk type opt payload children trailer, b, hb => by
    obtain ⟨-, -, hleaf, hbranch⟩ := bodyBytes_some hb
    simp only [TlvOf.opt_mk, TlvOf.payload_mk, TlvOf.children_mk] at hleaf hbranch
    have hcontent : (content (.mk type opt payload children trailer)).length = b := by
      cases hpl : opt.pl
      · simp only [content, hpl, Bool.false_eq_true, if_false]
        exact (hleaf hpl).symm
      · simp only [content, hpl, if_true]
        exact length_putChildren children b (hbranch hpl)
    refine ⟨hcontent, ?_⟩
    rw [putTlv_eq, hb]
    simp only [Option.getD_some, length_append, covered, hcontent, length_stampBytes,
      length_crcBytes, TlvOf.opt_mk, TlvOf.trailer_mk, TlvOf.type_mk, frameBytes,
      length_emitHeader]
    omega

theorem length_putChildren : ∀ (cs : List Tlv) (n : Nat), childrenBytes cs = some n →
    (putChildren cs).length = n
  | [], n, h => by
    cases h
    rfl
  | c :: cs, n, h => by
    obtain ⟨b, m, hb, hm, rfl⟩ := childrenBytes_cons h
    rw [putChildren, length_append, (length_put c b hb).2, length_putChildren cs m hm]

end

/-- What children are sent as. -/
def Sends (cs : List Tlv) (bs : Bytes) : Prop :=
  childrenBytes cs = some bs.length ∧ putChildren cs = bs

namespace Sends

variable {cs ds : List Tlv} {bs es : Bytes}

theorem nil : Sends [] [] := ⟨rfl, rfl⟩

theorem cons {c : Tlv} (hc : (bodyBytes c).isSome = true) (h : Sends cs bs) :
    Sends (c :: cs) (putTlv c ++ bs) := by
  obtain ⟨b, hb⟩ := Option.isSome_iff_exists.mp hc
  refine ⟨?_, congrArg (putTlv c ++ ·) h.2⟩
  rw [childrenBytes, hb, h.1, length_append, (length_put c b hb).2]

theorem append (h : Sends cs bs) (h' : Sends ds es) : Sends (cs ++ ds) (bs ++ es) := by
  induction cs generalizing bs with
  | nil =>
    rw [← h.2]
    exact h'
  | cons c cs ih =>
    obtain ⟨b, n, hb, hn, -⟩ := childrenBytes_cons h.1
    have hrest : Sends cs (putChildren cs) := ⟨by rw [hn, length_putChildren cs n hn], rfl⟩
    have hcons := cons (c := c) (by rw [hb]; rfl) (ih hrest)
    rw [← h.2, putChildren, append_assoc]
    exact hcons

variable {type : UInt8} (ht : isPathRefType type = false)
include ht

/-- A plain leaf. -/
theorem leaf (body : Bytes) : bodyBytes (.mk type {} body [] none) = some body.length ∧
    Sends [.mk type {} body [] none] (emitHeader type (widen {} body.length) body.length ++ body) := by
  have hbody : bodyBytes (.mk type {} body [] none) = some body.length := by
    rw [bodyBytes, ht]
    rfl
  have hone := cons (c := .mk type {} body [] none) (by rw [hbody]; rfl) nil
  rw [putTlv_eq, hbody] at hone
  exact ⟨hbody, by simpa [covered, content, stampBytes, crcBytes] using hone⟩

/-- A plain container. -/
theorem branch (h : Sends cs bs) : bodyBytes (.mk type { pl := true } [] cs none) = some bs.length ∧
    putTlv (.mk type { pl := true } [] cs none) =
      emitHeader type (widen { pl := true } bs.length) bs.length ++ bs := by
  have hbody : bodyBytes (.mk type { pl := true } [] cs none) = some bs.length := by
    rw [bodyBytes, ht]
    exact h.1
  refine ⟨hbody, ?_⟩
  rw [putTlv_eq, hbody]
  simp [covered, content, stampBytes, crcBytes, h.2]

end Sends

/-- **A tree `encode` accepts is sent as a sealed cell.** -/
theorem exists_cell {t : Tlv} {b : Nat} (hb : bodyBytes t = some b) (h0 : t.type ≠ 0) (hlt : b < 2 ^ 32) :
    ∃ c : Cell, putTlv t = c.wire ∧ c.Sealed ∧ c.type = t.type ∧ c.opt = widen t.opt b ∧
      c.body = content t ∧ c.ts = stampBytes t.opt t.trailer := by
  have hlen := (length_put t b hb).1
  obtain ⟨hshape, -, hleaf, -⟩ := bodyBytes_some hb
  have hshape' : shapeOk t.type (widen t.opt b) (content t).length = true := by
    rw [hlen]
    by_cases hp : isPathRefType t.type = true
    · -- a `PATH_REF` body is opaque and far too short to be widened
      have hv : pathRefBodyValid t.opt.pl t.opt.ll t.payload.length = true := by
        simpa [shapeOk, hp] using hshape
      have hpl : t.opt.pl = false ∧ t.payload.length ≤ 2040 := by
        simp only [pathRefBodyValid, kMaxPathRefBodyBytes, kMaxPathRefElements,
          kPathRefElementBytes, Bool.and_eq_true, Bool.not_eq_true'] at hv
        exact ⟨hv.1.1.1, of_decide_eq_true hv.2⟩
      rw [hleaf hpl.1, widen_of_le _ _ (by omega)]
      exact hshape
    · simp [shapeOk, hp]
  let c : Cell :=
    { type := t.type, opt := widen t.opt b, body := content t
      ts := stampBytes t.opt t.trailer, crc := crcBytes t.opt (covered t)
      type_ne := h0
      fits := by rw [hlen]; exact lt_lengthWidth_widen _ _ hlt
      shape := hshape'
      ts_length := by rw [length_stampBytes, widen_tsSize]
      crc_length := by rw [length_crcBytes, widen_crcSize] }
  refine ⟨c, ?_, ?_, rfl, rfl, rfl, rfl⟩
  · rw [putTlv_eq, hb]
    simp only [Option.getD_some, Cell.wire, Cell.head, emitHeader, c, hlen, covered,
      Nat.mod_eq_of_lt hlt, append_assoc, cons_append]
    rfl
  · simp only [Cell.Sealed, c, widen_crcBytes, covered]

end LibTracer.Wire
