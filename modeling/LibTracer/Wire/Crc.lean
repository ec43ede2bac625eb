import LibTracer.Lib.Crc
import LibTracer.Lib.LittleEndian

/-!
# The two checksums of the wire format (`crc.hpp`)

CRC-32C and CRC-16-CCITT as `crc.hpp` computes them: tables built by a bit loop, a running state
fed chunk by chunk, and for CRC-32C a portable slice-by-8 fold next to the byte-at-a-time one.

* **`checksums_eq_bitwise`** : both are the remainders their polynomials define.
* `crc32c_burst` : a burst of at most 32 bits changes CRC-32C.
-/

namespace LibTracer.Crc

open ReflectedCrc List

/-- A contiguous run of bytes (`std::span<const std::byte>`). -/
abbrev Bytes := List UInt8

/-! ## Tables -/

def crc32cPoly : BitVec 32 := 0x82F63B78#32

/-- Entry `i` of `crc32c_table()`. -/
def crc32cTable (i : BitVec 32) : BitVec 32 :=
  (fun c => if c &&& 1#32 ≠ 0#32 then crc32cPoly ^^^ (c >>> 1) else c >>> 1)^[8] i

/-- Entry `i` of `crc16_table()`. -/
def crc16Table (i : BitVec 8) : BitVec 16 :=
  (fun c => if c &&& 0x8000#16 ≠ 0#16 then (c <<< 1) ^^^ 0x1021#16 else c <<< 1)^[8]
    (i.setWidth 16 <<< 8)

/-- Entry `[k][i]` of `crc32c_slice_tables()`: `i` folded forward `k` extra bytes. -/
def crc32cSlice (k : Nat) (i : BitVec 32) : BitVec 32 :=
  (fun c => crc32cTable (c &&& 0xFF#32) ^^^ (c >>> 8))^[k] (crc32cTable i)

/-! ## Running states -/

/-- `crc32c_update`, the byte-at-a-time loop (also `crc32c_soft<1>`). -/
def crc32cUpdate (c : BitVec 32) (data : Bytes) : BitVec 32 :=
  data.foldl (fun c b => crc32cTable ((c ^^^ ofByte b) &&& 0xFF#32) ^^^ (c >>> 8)) c

def crc16Update (c : BitVec 16) (data : Bytes) : BitVec 16 :=
  data.foldl (fun c b =>
    let idx := (c >>> 8).setWidth 8 ^^^ b.toBitVec
    crc16Table idx ^^^ (c <<< 8)) c

/-- `crc_load_le32` of four bytes. -/
def crcLoadLe32 (b0 b1 b2 b3 : UInt8) : BitVec 32 :=
  ofByte b0 ||| (ofByte b1 <<< 8) ||| (ofByte b2 <<< 16) ||| (ofByte b3 <<< 24)

/-- `crc32c_soft<8>`: eight bytes an iteration, then the tail byte by byte. -/
def crc32cSoft8 (c : BitVec 32) : Bytes → BitVec 32
  | b0 :: b1 :: b2 :: b3 :: b4 :: b5 :: b6 :: b7 :: rest =>
    let lo := c ^^^ crcLoadLe32 b0 b1 b2 b3
    let hi := crcLoadLe32 b4 b5 b6 b7
    crc32cSoft8
      (crc32cSlice 7 (lo &&& 0xFF#32) ^^^ crc32cSlice 6 ((lo >>> 8) &&& 0xFF#32) ^^^
        crc32cSlice 5 ((lo >>> 16) &&& 0xFF#32) ^^^ crc32cSlice 4 ((lo >>> 24) &&& 0xFF#32) ^^^
        crc32cSlice 3 (hi &&& 0xFF#32) ^^^ crc32cSlice 2 ((hi >>> 8) &&& 0xFF#32) ^^^
        crc32cSlice 1 ((hi >>> 16) &&& 0xFF#32) ^^^ crc32cSlice 0 ((hi >>> 24) &&& 0xFF#32))
      rest
  | tail => tail.foldl (fun c b => crc32cSlice 0 ((c ^^^ ofByte b) &&& 0xFF#32) ^^^ (c >>> 8)) c

structure Crc32cState where
  c : BitVec 32 := 0xFFFFFFFF#32
  deriving DecidableEq, Repr

def Crc32cState.feed (s : Crc32cState) (data : Bytes) : Crc32cState := ⟨crc32cUpdate s.c data⟩

def Crc32cState.value (s : Crc32cState) : BitVec 32 := s.c ^^^ 0xFFFFFFFF#32

/-- `crc16_ccitt_state_t`. -/
structure Crc16State where
  c : BitVec 16 := 0xFFFF#16
  deriving DecidableEq, Repr

def Crc16State.feed (s : Crc16State) (data : Bytes) : Crc16State := ⟨crc16Update s.c data⟩

def Crc16State.value (s : Crc16State) : BitVec 16 := s.c

/-- `crc32c` over one span. -/
def crc32c (data : Bytes) : BitVec 32 := (Crc32cState.feed {} data).value

/-- `crc16_ccitt` over one span. -/
def crc16Ccitt (data : Bytes) : BitVec 16 := (Crc16State.feed {} data).value

/-! ## Incremental feeds -/

theorem crc32cUpdate_append (c : BitVec 32) (a b : Bytes) :
    crc32cUpdate c (a ++ b) = crc32cUpdate (crc32cUpdate c a) b := by
  simp [crc32cUpdate, foldl_append]

theorem crc16Update_append (c : BitVec 16) (a b : Bytes) :
    crc16Update c (a ++ b) = crc16Update (crc16Update c a) b := by
  simp [crc16Update, foldl_append]

/-- **Chunks**: feeding spans one after the other is feeding their concatenation. -/
theorem Crc32cState.foldl_feed (spans : List Bytes) (s : Crc32cState) :
    spans.foldl Crc32cState.feed s = s.feed spans.flatten := by
  induction spans generalizing s with
  | nil => simp [feed, crc32cUpdate]
  | cons a spans ih => simp [ih, feed, crc32cUpdate_append]

theorem Crc16State.foldl_feed (spans : List Bytes) (s : Crc16State) :
    spans.foldl Crc16State.feed s = s.feed spans.flatten := by
  induction spans generalizing s with
  | nil => simp [feed, crc16Update]
  | cons a spans ih => simp [ih, feed, crc16Update_append]

/-! ## The table loop and the slice-by-8 fold -/

theorem crc32cTable_eq (i : BitVec 32) : crc32cTable i = bits crc32cPoly 8 i := rfl

/-- **The table loop is the polynomial feed.** -/
theorem crc32cUpdate_eq_feed (c : BitVec 32) (data : Bytes) :
    crc32cUpdate c data = feed crc32cPoly c data := by
  unfold crc32cUpdate feed
  congr 1
  funext c b
  rw [feedByte_eq_table, crc32cTable_eq, octet]

theorem crc32cSlice_eq (k : Nat) (i : BitVec 32) : crc32cSlice k i = bits crc32cPoly (8 + 8 * k) i := by
  induction k with
  | zero => rfl
  | succ k ih =>
    have hstep : crc32cSlice (k + 1) i =
        crc32cTable (crc32cSlice k i &&& 0xFF#32) ^^^ (crc32cSlice k i >>> 8) := by
      unfold crc32cSlice
      rw [Function.iterate_succ_apply']
    rw [hstep, crc32cTable_eq, ih, show (8 + 8 * (k + 1)) = (8 + 8 * k) + 8 by omega,
      bits_add _ (8 + 8 * k) 8, bits_eight crc32cPoly (bits crc32cPoly (8 + 8 * k) i), octet]

theorem octet_toNat (x : BitVec 32) : (octet x).toNat = x.toNat % 256 := by
  rw [octet, BitVec.toNat_and]
  exact Nat.and_two_pow_sub_one_eq_mod x.toNat 8

theorem ofByte_toNat (b : UInt8) : (ofByte b : BitVec 32).toNat = b.toNat := by
  have hb : b.toNat < 256 := b.toNat_lt
  rw [ofByte, BitVec.toNat_ofNat, Nat.mod_eq_of_lt (by omega)]

theorem crcLoadLe32_toNat (b0 b1 b2 b3 : UInt8) :
    (crcLoadLe32 b0 b1 b2 b3).toNat = LittleEndian.load [b0, b1, b2, b3] := by
  have h0 : b0.toNat < 256 := b0.toNat_lt
  have h1 : b1.toNat < 256 := b1.toNat_lt
  have h2 : b2.toNat < 256 := b2.toNat_lt
  have h3 : b3.toNat < 256 := b3.toNat_lt
  simp only [crcLoadLe32, BitVec.toNat_or, BitVec.toNat_shiftLeft, ofByte_toNat,
    LittleEndian.load, LittleEndian.loadFrom, Nat.zero_or, Nat.shiftLeft_zero]
  rw [Nat.mod_eq_of_lt, Nat.mod_eq_of_lt, Nat.mod_eq_of_lt] <;>
    (rw [Nat.shiftLeft_eq]; omega)

theorem bits_word (n : Nat) (x : BitVec 32) : bits crc32cPoly (32 + n) x =
      bits crc32cPoly (32 + n) (octet x) ^^^ bits crc32cPoly (24 + n) (octet (x >>> 8)) ^^^
      bits crc32cPoly (16 + n) (octet (x >>> 16)) ^^^ bits crc32cPoly (8 + n) (octet (x >>> 24)) := by
  have hzero : x >>> 24 >>> 8 = 0#32 := by
    apply BitVec.eq_of_toNat_eq
    have hx : x.toNat < 2 ^ 32 := x.isLt
    simp only [BitVec.toNat_ushiftRight, Nat.shiftRight_eq_div_pow, BitVec.toNat_zero]
    omega
  rw [show 32 + n = 8 + (24 + n) by omega, bits_octet, show 24 + n = 8 + (16 + n) by omega,
    bits_octet _ _ (x >>> 8), show 16 + n = 8 + (8 + n) by omega, ← BitVec.shiftRight_add,
    bits_octet _ _ (x >>> (8 + 8)), ← BitVec.shiftRight_add, bits_octet _ _ (x >>> (8 + 8 + 8)),
    hzero, bits_zero, BitVec.xor_zero]
  ac_rfl

theorem octet_crcLoadLe32 (b0 b1 b2 b3 : UInt8) : octet (crcLoadLe32 b0 b1 b2 b3) = ofByte b0 ∧
    octet (crcLoadLe32 b0 b1 b2 b3 >>> 8) = ofByte b1 ∧
    octet (crcLoadLe32 b0 b1 b2 b3 >>> 16) = ofByte b2 ∧
    octet (crcLoadLe32 b0 b1 b2 b3 >>> 24) = ofByte b3 := by
  have h0 : b0.toNat < 256 := b0.toNat_lt
  have h1 : b1.toNat < 256 := b1.toNat_lt
  have h2 : b2.toNat < 256 := b2.toNat_lt
  have h3 : b3.toNat < 256 := b3.toNat_lt
  refine ⟨?_, ?_, ?_, ?_⟩ <;> apply BitVec.eq_of_toNat_eq <;>
    simp only [octet_toNat, ofByte_toNat, BitVec.toNat_ushiftRight, crcLoadLe32_toNat,
      LittleEndian.load_cons, LittleEndian.load_nil, Nat.shiftRight_eq_div_pow] <;>
    omega

theorem feed_word (c : BitVec 32) (b0 b1 b2 b3 : UInt8) : feed crc32cPoly c [b0, b1, b2, b3] =
      bits crc32cPoly 32 (c ^^^ crcLoadLe32 b0 b1 b2 b3) := by
  obtain ⟨h0, h1, h2, h3⟩ := octet_crcLoadLe32 b0 b1 b2 b3
  have hbytes : feed crc32cPoly 0#32 [b0, b1, b2, b3] =
      bits crc32cPoly 32 (crcLoadLe32 b0 b1 b2 b3) := by
    rw [bits_word 0, h0, h1, h2, h3]
    simp only [feed_cons, feed_nil, feedByte, BitVec.zero_xor, bits_xor, ← bits_add]
  rw [feed_eq_xor, hbytes, bits_xor]
  rfl

/-- **Slice-by-8 is the byte loop**: the build's choice of fold is not observable. -/
theorem crc32cSoft8_eq_update (c : BitVec 32) (data : Bytes) :
    crc32cSoft8 c data = crc32cUpdate c data := by
  fun_induction crc32cSoft8 c data with
  | case1 c b0 b1 b2 b3 b4 b5 b6 b7 rest lo hi ih =>
    -- the eight bytes are two words: the first meets the register, the second is fed after it
    have hblock : feed crc32cPoly c [b0, b1, b2, b3, b4, b5, b6, b7] =
        bits crc32cPoly (32 + 32) lo ^^^ bits crc32cPoly (32 + 0) hi := by
      rw [show [b0, b1, b2, b3, b4, b5, b6, b7] = [b0, b1, b2, b3] ++ [b4, b5, b6, b7] by rfl,
        feed_append, feed_word, feed_word, bits_xor, ← bits_add]
    have hupd : crc32cUpdate c (b0 :: b1 :: b2 :: b3 :: b4 :: b5 :: b6 :: b7 :: rest) =
        crc32cUpdate (feed crc32cPoly c [b0, b1, b2, b3, b4, b5, b6, b7]) rest := by
      rw [← crc32cUpdate_eq_feed, ← crc32cUpdate_append]
      rfl
    rw [ih, hupd, hblock, bits_word 32 lo, bits_word 0 hi]
    simp only [crc32cSlice_eq, octet]
    congr 1
    ac_rfl
  | case2 c tail _ => rfl

/-! ## The polynomial definition -/

def down (c : BitVec 32) : BitVec 32 := c >>> 1

def up (c : BitVec 16) : BitVec 16 := c <<< 1

/-- CRC-32C by its definition: the message divided bit by bit, the low bit of a byte first. -/
def crc32cBitwise (data : Bytes) : BitVec 32 :=
  (data.flatMap fun b => (List.range 8).map b.toNat.testBit).foldl
    (serial crc32cPoly down (·.getLsbD 0)) 0xFFFFFFFF#32 ^^^ 0xFFFFFFFF#32

/-- CRC-16-CCITT by its definition: the high bit of a byte first. -/
def crc16Bitwise (data : Bytes) : BitVec 16 :=
  (data.flatMap fun b => (List.range 8).map fun i => b.toNat.testBit (7 - i)).foldl
    (serial 0x1021#16 up BitVec.msb) 0xFFFF#16

theorem iterate_down (x : BitVec 32) (i : Nat) : down^[i] x = x >>> i := by
  induction i with
  | zero => simp
  | succ i ih => rw [Function.iterate_succ_apply', ih, down, BitVec.shiftRight_add]

theorem iterate_up (x : BitVec 16) (i : Nat) : up^[i] x = x <<< i := by
  induction i with
  | zero => simp
  | succ i ih => rw [Function.iterate_succ_apply', ih, up, BitVec.shiftLeft_add]

theorem feedByte_eq_serial (c : BitVec 32) (b : UInt8) : feedByte crc32cPoly c b =
      ((List.range 8).map b.toNat.testBit).foldl (serial crc32cPoly down (·.getLsbD 0)) c := by
  have hbit : (serial crc32cPoly down (·.getLsbD 0) · false) = bit crc32cPoly := by
    funext c
    simp [serial, bit, and_one_ne_zero, down]
  have hbits : (List.range 8).map b.toNat.testBit =
      (List.range 8).map fun i => (down^[i] (ofByte b)).getLsbD 0 := by
    refine map_congr_left fun i hi => ?_
    rw [mem_range] at hi
    rw [iterate_down, BitVec.getLsbD_ushiftRight, ofByte, BitVec.getLsbD_ofNat]
    simp [show i < 32 by omega]
  rw [hbits, foldl_serial _ (fun _ _ => BitVec.ushiftRight_xor_distrib ..) (by simp), hbit, iterate_down,
    ofByte_shift, BitVec.xor_zero]
  rfl

theorem crc16Update_eq_serial (c : BitVec 16) (b : UInt8) :
    crc16Update c [b] = ((List.range 8).map fun i => b.toNat.testBit (7 - i)).foldl
      (serial 0x1021#16 up BitVec.msb) c := by
  have hup : ∀ x y, up (x ^^^ y) = up x ^^^ up y := fun _ _ => BitVec.shiftLeft_xor_distrib ..
  have hmsb : ∀ x y : BitVec 16, (x ^^^ y).msb = (x.msb ^^ y.msb) := fun _ _ => BitVec.msb_xor
  have hstep : (fun c => if c &&& 0x8000#16 ≠ 0#16 then (c <<< 1) ^^^ 0x1021#16 else c <<< 1) =
      (serial 0x1021#16 up BitVec.msb · false) := by
    funext c
    rw [show (0x8000#16) = BitVec.twoPow 16 15 by decide, BitVec.and_twoPow, serial, Bool.xor_false,
      BitVec.msb_eq_getLsbD_last]
    cases c.getLsbD 15 <;> simp [up, BitVec.xor_comm]
  -- the register is the octet that the table is asked for, and the octet that only moves up
  set x : BitVec 16 := b.toBitVec.setWidth 16 <<< 8 with hx
  set high : BitVec 16 := ((c >>> 8).setWidth 8 ^^^ b.toBitVec).setWidth 16 <<< 8 with hhigh
  set low : BitVec 16 := (c.setWidth 8).setWidth 16 with hlow
  have hbits : ((List.range 8).map fun i => b.toNat.testBit (7 - i)) =
      (List.range 8).map fun i => (up^[i] x).msb := by
    refine map_congr_left fun i hi => ?_
    rw [mem_range] at hi
    rw [iterate_up, hx, BitVec.msb_eq_getLsbD_last]
    simp [show ¬15 < i by omega, show ¬15 - i < 8 by omega, show 15 - i - 8 = 7 - i by omega]
    rfl
  have hnone : ((List.range 8).map fun i => (up^[i] low).msb) = (List.range 8).map fun _ => false := by
    refine map_congr_left fun i hi => ?_
    rw [mem_range] at hi
    rw [iterate_up, hlow, BitVec.msb_eq_getLsbD_last]
    simp [show ¬15 - i < 8 by omega]
  have hsum : c ^^^ x = high ^^^ low := by
    refine BitVec.eq_of_getLsbD_eq fun i hi => ?_
    by_cases h8 : i < 8
    · simp [hx, hhigh, hlow, hi, h8]
    · simp [hx, hhigh, hlow, hi, h8, show i - 8 < 8 by omega, show 8 + (i - 8) = i by omega]
  have hshift : low <<< 8 = c <<< 8 := by
    refine BitVec.eq_of_getLsbD_eq fun i hi => ?_
    by_cases h8 : i < 8
    · simp [hlow, hi, h8]
    · simp [hlow, hi, h8, show i - 8 < 8 by omega]
      exact BitVec.getLsbD_eq_getElem _
  have hout : x <<< 8 = 0#16 := by
    refine BitVec.eq_of_getLsbD_eq fun i hi => ?_
    simp [hx]
  have hdue := foldl_serial 0x1021#16 hup hmsb high low 8
  rw [hnone, ← hsum, iterate_up, hshift] at hdue
  rw [hbits, foldl_serial _ hup hmsb, iterate_up, hout, BitVec.xor_zero]
  show crc16Table _ ^^^ (c <<< 8) = _
  rw [crc16Table, hstep]
  exact (congrArg (· ^^^ c <<< 8) hdue).trans (by rw [BitVec.xor_assoc, BitVec.xor_self, BitVec.xor_zero])

/-- **The checksums are the polynomial's remainders**, whatever chunks the bytes come in: the table loop and
the slice-by-8 fold of CRC-32C, and the table loop of CRC-16. -/
theorem checksums_eq_bitwise (spans : List Bytes) :
    (spans.foldl Crc32cState.feed {}).value = crc32cBitwise spans.flatten ∧
      spans.foldl crc32cSoft8 0xFFFFFFFF#32 ^^^ 0xFFFFFFFF#32 = crc32cBitwise spans.flatten ∧
      (spans.foldl Crc16State.feed {}).value = crc16Bitwise spans.flatten := by
  have h32 : ∀ c data, crc32cUpdate c data =
      (data.flatMap fun b => (List.range 8).map b.toNat.testBit).foldl
        (serial crc32cPoly down (·.getLsbD 0)) c := by
    intro c data
    rw [crc32cUpdate_eq_feed]
    induction data generalizing c with
    | nil => rfl
    | cons b data ih => rw [feed_cons, ih, feedByte_eq_serial, flatMap_cons, foldl_append]
  have h16 : ∀ c data, crc16Update c data =
      (data.flatMap fun b => (List.range 8).map fun i => b.toNat.testBit (7 - i)).foldl
        (serial 0x1021#16 up BitVec.msb) c := by
    intro c data
    induction data generalizing c with
    | nil => rfl
    | cons b data ih =>
      rw [← singleton_append, crc16Update_append, ih, crc16Update_eq_serial, singleton_append,
        flatMap_cons, foldl_append]
  have hsoft : spans.foldl crc32cSoft8 0xFFFFFFFF#32 = (spans.foldl Crc32cState.feed {}).c := by
    have hspans : ∀ s : Crc32cState, spans.foldl crc32cSoft8 s.c = (spans.foldl Crc32cState.feed s).c := by
      induction spans with
      | nil => exact fun _ => rfl
      | cons a spans ih =>
        intro s
        rw [foldl_cons, foldl_cons, crc32cSoft8_eq_update, ← ih]
        rfl
    exact hspans {}
  rw [hsoft, Crc32cState.foldl_feed, Crc16State.foldl_feed]
  exact ⟨congrArg (· ^^^ _) (h32 _ _), congrArg (· ^^^ _) (h32 _ _), h16 _ _⟩

/-! ## Bursts -/

theorem msb_crc32cPoly : crc32cPoly.msb = true := by decide

theorem feed_four_inj {c : BitVec 32} {as bs : Bytes} (ha : as.length = 4) (hb : bs.length = 4)
    (h : feed crc32cPoly c as = feed crc32cPoly c bs) : as = bs := by
  match as, bs, ha, hb with
  | [_, _, _, _], [_, _, _, _], _, _ =>
    rw [feed_word, feed_word] at h
    have h := congrArg BitVec.toNat ((BitVec.xor_right_inj _).mp ((bit_injective msb_crc32cPoly).iterate 32 h))
    rw [crcLoadLe32_toNat, crcLoadLe32_toNat] at h
    exact (LittleEndian.store_load _).symm.trans (h ▸ LittleEndian.store_load _)

/-- **A burst of at most 32 bits shows**: with other bytes in its place the checksum is another. -/
theorem crc32c_burst {pre old new post : Bytes} (hlen : old.length = new.length) (hle : old.length ≤ 4)
    (h : crc32c (pre ++ old ++ post) = crc32c (pre ++ new ++ post)) : old = new := by
  have h := (BitVec.xor_left_inj _).mp h
  simp only [Crc32cState.feed, crc32cUpdate_eq_feed, feed_append] at h
  -- with zeros behind it, the burst fills the register
  have h := congrArg (feed crc32cPoly · (replicate (4 - old.length) 0)) (feed_injective msb_crc32cPoly _ h)
  generalize feed crc32cPoly _ pre = c at h
  rw [← feed_append, ← feed_append] at h
  refine (append_inj (feed_four_inj ?_ ?_ h) hlen).1
  all_goals rw [length_append, length_replicate]; omega

end LibTracer.Crc
