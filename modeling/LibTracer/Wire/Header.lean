import LibTracer.Wire.Grammar

/-!
# What a header parse means on bytes

* `Cell.readHeader_wire`, `Cell.of_readHeader` : bytes are accepted exactly when they begin with a
  cell, sealed by its CRC where the policy verifies.
-/

namespace LibTracer.Wire.Grammar

open LittleEndian (length_store load load_lt load_store_of_lt store store_load)
open Window List
open Crc (Bytes Crc32cState Crc16State)

/-! ## The header parse on bytes -/

instance : LawfulCursor SpanCursor where
  Reads c bs := c.buf = bs
  size_eq h := by rw [← h]; rfl
  region_reads h _ := by rw [← h]; rfl
  byteAt_eq h _ := by rw [← h]; rfl
  loadLe_eq {c bs off n} h hn h8 := by
    subst h
    show load ((window c.buf off n).take 8) = _
    rw [take_of_length_le (by rw [length_window hn]; exact h8)]
  spans_eq {c bs off n} h _ := by
    subst h
    simp [Cursor.forEachSpan]
  spans_reads h _ := h
  not_poisoned _ := rfl

@[simp] theorem reads_span (bs : Bytes) : LawfulCursor.Reads (SpanCursor.mk bs) bs := rfl

def crcBytes (opt : Opt) (covered : Bytes) : Bytes :=
  if opt.cr then
    if opt.cw then store (Crc.crc16Ccitt covered).toNat 2
    else store (Crc.crc32c covered).toNat 4
  else []

theorem length_crcBytes (opt : Opt) (covered : Bytes) : (crcBytes opt covered).length = opt.crcSize := by
  unfold crcBytes Opt.crcSize
  split
  · split <;> simp
  · rfl

/-- What `parse_header` decides, as a function of the bytes alone. -/
def readHeader (bs : Bytes) (crcPolicy : CrcCheck) : Except Err Header :=
  let type := bs.getD 0 0
  let opt := Opt.decode (bs.getD 1 0)
  let length := load (window bs 2 opt.lengthWidth)
  let total := opt.header + length + opt.tsSize + opt.crcSize
  if bs.length < 4 then .error .FRAME_TRUNCATED
  else if type = 0 then .error .FRAME_INVALID
  else if Opt.reservedSet (bs.getD 1 0) then .error .FRAME_INVALID
  else if bs.length < opt.header then .error .FRAME_TRUNCATED
  else if !shapeOk type opt length then .error .FRAME_INVALID
  else if bs.length < total then .error .FRAME_TRUNCATED
  else if crcPolicy = .VERIFY ∧ window bs (opt.header + length + opt.tsSize) opt.crcSize ≠
      crcBytes opt (window bs opt.header (length + opt.tsSize)) then .error .FRAME_CRC_FAIL
  else .ok ⟨type, opt, opt.header, length, opt.tsSize, opt.crcSize, total⟩

section Reads

variable {C : Type} [Cursor C] [LawfulCursor C] {c : C} {bs : Bytes}

open LawfulCursor

section

variable {w n : Nat} {f : Bytes} (hw : 2 ^ w = 256 ^ n) (v : BitVec w) (hf : f.length = n)
include hw hf

theorem ofNat_load_eq_iff : v = BitVec.ofNat w (load f) ↔ f = store v.toNat n := by
  have hlt : load f < 2 ^ w := by rw [hw, ← hf]; exact load_lt f
  constructor
  · rintro rfl
    rw [BitVec.toNat_ofNat, Nat.mod_eq_of_lt hlt, ← hf, store_load]
  · rintro rfl
    have hv : v.toNat < 256 ^ n := by rw [← hw]; exact v.isLt
    rw [load_store_of_lt hv, BitVec.ofNat_toNat, BitVec.setWidth_eq]

theorem crc_verdict : (if (!v == BitVec.ofNat w (load f)) = true then some Err.FRAME_CRC_FAIL
      else if false = true then some Err.FRAME_TRUNCATED else none) =
      if f = store v.toNat n then none else some .FRAME_CRC_FAIL := by
  have hiff := ofNat_load_eq_iff hw v hf
  by_cases h : f = store v.toNat n
  · have hv : (v == BitVec.ofNat w (load f)) = true := beq_iff_eq.mpr (hiff.mpr h)
    rw [hv, if_pos h]
    rfl
  have hv : (v == BitVec.ofNat w (load f)) = false :=
    beq_eq_false_iff_ne.mpr (mt hiff.mp h)
  rw [hv, if_neg h]
  rfl

end

theorem checkCrc_reads (hr : Reads c bs) {opt : Opt} {header payLen tsSize : Nat}
    (hcr : opt.cr = true) (hfit : header + payLen + tsSize + opt.crcSize ≤ bs.length) :
    checkCrc c opt header payLen tsSize = if window bs (header + payLen + tsSize) opt.crcSize =
        crcBytes opt (window bs header (payLen + tsSize)) then none else some .FRAME_CRC_FAIL := by
  have hr1 : Reads (Cursor.forEachSpan c header payLen).2 bs := spans_reads hr (by omega)
  have hr2 : Reads (Cursor.forEachSpan (Cursor.forEachSpan c header payLen).2
      (header + payLen) tsSize).2 bs := spans_reads hr1 (by omega)
  have hfed : ((Cursor.forEachSpan c header payLen).1 ++
      (Cursor.forEachSpan (Cursor.forEachSpan c header payLen).2 (header + payLen)
        tsSize).1).flatten = window bs header (payLen + tsSize) := by
    rw [flatten_append, spans_eq hr (by omega), spans_eq hr1 (by omega), window_append_window]
  unfold checkCrc
  simp only [Crc16State.foldl_feed, Crc32cState.foldl_feed, hfed, not_poisoned hr2]
  unfold Opt.crcSize at hfit
  unfold crcBytes Opt.crcSize
  simp only [hcr, if_true] at hfit ⊢
  cases hcw : opt.cw
  · simp only [hcw, Bool.false_eq_true, if_false] at hfit ⊢
    rw [loadLe_eq hr2 (by omega) (by omega)]
    exact crc_verdict (by decide) _ (length_window (by omega))
  · simp only [hcw, if_true] at hfit ⊢
    rw [loadLe_eq hr2 (by omega) (by omega)]
    exact crc_verdict (by decide) _ (length_window (by omega))

/-- **A lawful cursor parses the bytes it reads**: the verdict on a header depends on nothing but
    the bytes. -/
theorem parseHeader_reads (hr : Reads c bs) (crcPolicy : CrcCheck) :
    parseHeader c crcPolicy = readHeader bs crcPolicy := by
  unfold parseHeader readHeader
  simp only [size_eq hr]
  by_cases h4 : bs.length < 4
  · simp only [h4, if_true]
  simp only [h4, if_false, byteAt_eq hr (show 0 < bs.length by omega),
    byteAt_eq hr (show 1 < bs.length by omega)]
  generalize bs.getD 0 0 = type
  by_cases h0 : type = 0
  · simp only [h0, if_true]
  simp only [h0, if_false]
  by_cases hres : Opt.reservedSet (bs.getD 1 0) = true
  · simp only [hres, if_true]
  simp only [hres]
  generalize Opt.decode (bs.getD 1 0) = opt
  have hheader : (if opt.ll = true then 6 else 4) = opt.header := rfl
  have hwidth : (if opt.ll = true then 4 else 2) = opt.lengthWidth := rfl
  have hts : (if opt.ts = true then if opt.tf = true then 4 else 8 else 0) = opt.tsSize := rfl
  have hcrc : (if opt.cr = true then if opt.cw = true then 2 else 4 else 0) = opt.crcSize := rfl
  simp only [hheader, hwidth, hts, hcrc]
  by_cases hhd : bs.length < opt.header
  · simp only [hhd, if_true]
  have hw4 : opt.lengthWidth ≤ 4 := by unfold Opt.lengthWidth; split <;> omega
  have hroom : 2 + opt.lengthWidth ≤ bs.length := by rw [← opt.header_eq]; omega
  have hload : Cursor.loadLe c 2 opt.lengthWidth % 2 ^ 32 =
      load (window bs 2 opt.lengthWidth) := by
    rw [loadLe_eq hr hroom (by omega)]
    apply Nat.mod_eq_of_lt
    have hlt := load_lt (window bs 2 opt.lengthWidth)
    rw [length_window hroom] at hlt
    calc _ < 256 ^ opt.lengthWidth := hlt
      _ ≤ 256 ^ 4 := Nat.pow_le_pow_right (by omega) hw4
      _ = 2 ^ 32 := by decide
  simp only [hhd, if_false, hload]
  generalize load (window bs 2 opt.lengthWidth) = length
  have hshape : (isPathRefType type && !pathRefBodyValid opt.pl opt.ll length) =
      !shapeOk type opt length := by simp [shapeOk]
  simp only [hshape, totalSizeFits]
  by_cases hok : shapeOk type opt length = true
  swap
  · simp only [hok, Bool.not_false, if_true]
  simp only [hok, Bool.not_true, Bool.false_eq_true, if_false]
  by_cases hfit : bs.length < opt.header + length + opt.tsSize + opt.crcSize
  · simp only [hfit, if_true]
  simp only [hfit, if_false]
  cases crcPolicy with
  | DEFER => simp
  | VERIFY =>
    cases hcr : opt.cr
    · have hcs : opt.crcSize = 0 := by simp [Opt.crcSize, hcr]
      simp [hcs, crcBytes, hcr]
    · rw [checkCrc_reads hr hcr (by omega)]
      by_cases heq : window bs (opt.header + length + opt.tsSize) opt.crcSize =
          crcBytes opt (window bs opt.header (length + opt.tsSize))
      all_goals simp [heq]

end Reads

/-! ## Cells -/

/-- One TLV seen flat: its header fields, its body and the two parts of its trailer, of the sizes
    the header announces. -/
@[ext] structure Cell where
  type : UInt8
  opt : Opt
  body : Bytes
  ts : Bytes
  crc : Bytes
  type_ne : type ≠ 0
  fits : body.length < 256 ^ opt.lengthWidth
  shape : shapeOk type opt body.length = true
  ts_length : ts.length = opt.tsSize
  crc_length : crc.length = opt.crcSize

namespace Cell

/-- The header bytes of a TLV: `<type> <opt> <length>`. -/
def head (c : Cell) : Bytes :=
  c.type :: c.opt.encode :: store c.body.length c.opt.lengthWidth

def wire (c : Cell) : Bytes := c.head ++ (c.body ++ (c.ts ++ c.crc))

/-- The header `parse_header` reports for a cell. -/
def header (c : Cell) : Header where
  type := c.type
  opt := c.opt
  header := c.opt.header
  length := c.body.length
  tsSize := c.opt.tsSize
  crcSize := c.opt.crcSize
  total := c.opt.header + c.body.length + c.opt.tsSize + c.opt.crcSize

def Sealed (c : Cell) : Prop := c.crc = crcBytes c.opt (c.body ++ c.ts)

@[simp] theorem length_head (c : Cell) : c.head.length = c.opt.header := by
  rw [Opt.header_eq]
  simp only [head, length_cons, length_store]
  omega

theorem length_wire (c : Cell) : c.wire.length = c.header.total := by
  simp only [wire, header, length_append, length_head, c.ts_length, c.crc_length]
  omega

theorem length_body_lt (c : Cell) : c.body.length + 4 ≤ c.wire.length := by
  have h := c.opt.four_le_header
  rw [length_wire]
  simp only [header]
  omega

section Windows

variable (c : Cell) (rest : Bytes)

theorem window_body : window (c.wire ++ rest) c.opt.header c.body.length = c.body := by
  have h := window_append_mid c.head c.body (c.ts ++ c.crc ++ rest)
  simpa only [wire, length_head, append_assoc] using h

theorem window_covered :
    window (c.wire ++ rest) c.opt.header (c.body.length + c.opt.tsSize) = c.body ++ c.ts := by
  have h := window_append_mid c.head (c.body ++ c.ts) (c.crc ++ rest)
  simpa only [wire, length_head, append_assoc, length_append, c.ts_length] using h

theorem window_ts : window (c.wire ++ rest) (c.opt.header + c.body.length) c.opt.tsSize = c.ts := by
  have h := window_append_mid (c.head ++ c.body) c.ts (c.crc ++ rest)
  simpa only [wire, length_head, append_assoc, length_append, c.ts_length] using h

theorem window_crc : window (c.wire ++ rest) (c.opt.header + c.body.length + c.opt.tsSize) c.opt.crcSize =
      c.crc := by
  have h := window_append_mid (c.head ++ c.body ++ c.ts) c.crc rest
  simpa only [wire, length_head, append_assoc, length_append, c.ts_length,
    c.crc_length, add_assoc] using h

theorem window_length : load (window (c.wire ++ rest) 2 c.opt.lengthWidth) = c.body.length := by
  have h := window_append_mid [c.type, c.opt.encode]
    (store c.body.length c.opt.lengthWidth) (c.body ++ (c.ts ++ c.crc) ++ rest)
  simp only [length_store, length_cons, length_nil, zero_add] at h
  simp only [wire, head, cons_append, append_assoc, nil_append] at h ⊢
  rw [h, load_store_of_lt c.fits]

end Windows

theorem readHeader_wire_eq (c : Cell) (rest : Bytes) (crcPolicy : CrcCheck) :
    readHeader (c.wire ++ rest) crcPolicy =
      if crcPolicy = .VERIFY ∧ c.crc ≠ crcBytes c.opt (c.body ++ c.ts) then .error .FRAME_CRC_FAIL
      else .ok c.header := by
  have hlen : (c.wire ++ rest).length = c.header.total + rest.length := by
    rw [length_append, length_wire]
  have h4 := c.opt.four_le_header
  have htype : (c.wire ++ rest).getD 0 0 = c.type := rfl
  have hopt : (c.wire ++ rest).getD 1 0 = c.opt.encode := rfl
  unfold readHeader
  simp only [htype, hopt, Opt.decode_encode, window_length, window_crc, window_covered, hlen,
    Opt.reservedSet_encode, c.type_ne, c.shape, Bool.not_true, Bool.false_eq_true, if_false]
  have htotal : c.header.total =
      c.opt.header + c.body.length + c.opt.tsSize + c.opt.crcSize := rfl
  rw [if_neg (by omega), if_neg (by omega), if_neg (by omega)]
  rfl

theorem readHeader_wire (c : Cell) (rest : Bytes) (crcPolicy : CrcCheck)
    (hs : crcPolicy = .VERIFY → c.Sealed) : readHeader (c.wire ++ rest) crcPolicy = .ok c.header := by
  rw [readHeader_wire_eq, if_neg fun h => h.2 (hs h.1)]

theorem sealed_of_cr {c : Cell} (hcr : c.opt.cr = false) : c.Sealed := by
  have hlen : c.crc.length = 0 := by rw [c.crc_length, Opt.crcSize, hcr]; rfl
  rw [Sealed, length_eq_zero_iff.mp hlen, crcBytes, hcr]
  rfl

variable {bs : Bytes}

theorem getD_cons_getD (h : 2 ≤ bs.length) : [bs.getD 0 0, bs.getD 1 0] = window bs 0 2 := by
  match bs with
  | [] | [_] => simp at h
  | _ :: _ :: _ => rfl

/-- **Inversion of the header parse**: what is accepted begins with a cell. -/
theorem of_readHeader {crcPolicy : CrcCheck} {h : Header} (hok : readHeader bs crcPolicy = .ok h) :
    ∃ (c : Cell) (rest : Bytes), bs = c.wire ++ rest ∧ h = c.header ∧
      (crcPolicy = .VERIFY → c.Sealed) := by
  unfold readHeader at hok
  simp only at hok
  generalize hty : bs.getD 0 0 = type at hok
  generalize hob : bs.getD 1 0 = optB at hok
  generalize hopt : Opt.decode optB = opt at hok
  generalize hln : load (window bs 2 opt.lengthWidth) = length at hok
  split at hok
  · cases hok
  rename_i h4
  split at hok
  · cases hok
  rename_i h0
  split at hok
  · cases hok
  rename_i hres
  split at hok
  · cases hok
  split at hok
  · cases hok
  rename_i hshape
  split at hok
  · cases hok
  rename_i hfit
  split at hok
  · cases hok
  rename_i hcrc
  have hhd := opt.header_eq
  have hw : (window bs 2 opt.lengthWidth).length = opt.lengthWidth := length_window (by omega)
  have hbody : (window bs opt.header length).length = length := length_window (by omega)
  refine ⟨⟨type, opt, window bs opt.header length, window bs (opt.header + length) opt.tsSize,
    window bs (opt.header + length + opt.tsSize) opt.crcSize, h0, ?_, ?_, length_window (by omega),
    length_window (by omega)⟩, bs.drop (opt.header + length + opt.tsSize + opt.crcSize), ?_, ?_, ?_⟩
  · rw [hbody, ← hln]
    calc _ < 256 ^ (window bs 2 opt.lengthWidth).length := load_lt _
      _ = _ := by rw [hw]
  · rw [hbody]
    simpa using hshape
  · -- the bytes are their own windows, one after the other
    have hhead : type :: opt.encode :: store length opt.lengthWidth =
        window bs 0 opt.header := by
      have henc : opt.encode = optB := by
        rw [← hopt]
        exact Opt.encode_decode optB (by simpa using hres)
      have hst : store length opt.lengthWidth = window bs 2 opt.lengthWidth := by
        have h := store_load (window bs 2 opt.lengthWidth)
        rwa [hln, hw] at h
      rw [henc, hst, hhd, ← window_append_window, ← getD_cons_getD (by omega), hty, hob]
      rfl
    simp only [wire, head, hbody]
    have hsum : window bs 0 opt.header ++ (window bs opt.header length ++
        (window bs (opt.header + length) opt.tsSize ++
          window bs (opt.header + length + opt.tsSize) opt.crcSize)) =
        window bs 0 (opt.header + length + opt.tsSize + opt.crcSize) := by
      simp only [← window_append_window, zero_add, append_assoc]
    rw [hhead, hsum, window_zero, take_append_drop]
  · cases hok
    simp only [header, hbody]
  · intro hv
    simp only [Sealed, window_append_window]
    by_contra hne
    exact hcrc ⟨hv, hne⟩

theorem readHeader_verify_error {e : Err} (h : readHeader bs .DEFER = .error e) :
    readHeader bs .VERIFY = .error e := by
  unfold readHeader at h ⊢
  simp only [reduceCtorEq, false_and, if_false] at h
  simp only
  -- the two parses differ in the last test only, where the deferred one accepts
  split_ifs at h ⊢ <;> exact h

/-- Other bytes where the checksum covers them: only the checksum is in question. -/
theorem readHeader_covered (c : Cell) {x : Bytes} (hx : x.length = c.body.length + c.opt.tsSize)
    (hbad : c.crc ≠ crcBytes c.opt x) : readHeader (c.head ++ (x ++ c.crc)) .VERIFY = .error .FRAME_CRC_FAIL := by
  have hbody : (x.take c.body.length).length = c.body.length := length_take_of_le (by omega)
  let d : Cell := { c with
    body := x.take c.body.length
    ts := x.drop c.body.length
    fits := hbody.symm ▸ c.fits
    shape := hbody.symm ▸ c.shape
    ts_length := by rw [length_drop]; omega }
  have hx : d.body ++ d.ts = x := take_append_drop ..
  have hhead : d.head = c.head := by rw [head, head, hbody]
  have h := d.readHeader_wire_eq [] .VERIFY
  rwa [append_nil, wire, hhead, ← append_assoc d.body, hx, if_pos ⟨rfl, hbad⟩] at h

end Cell

end LibTracer.Wire.Grammar
