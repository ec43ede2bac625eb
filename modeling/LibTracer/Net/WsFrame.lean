import LibTracer.Lib.Framing
import LibTracer.Lib.LittleEndian

/-!
# WebSocket frames

A frame is a header of two to fourteen bytes and a payload that may be masked.  The receiver judges the
header alone, before a byte of the payload is read: an opcode that is not one of the six, a control frame
that is long or fragmented, and a length over the cap fail the connection.  The three reserved bits are
not looked at.

* **`maskCopy_eq`** — masking in words of eight is masking byte by byte.
-/

namespace LibTracer.Net.Ws

open List

/-! ## Opcodes and lengths -/

/-- `opcode_t`: the six that are defined. -/
inductive Opcode where
  | cont
  | text
  | binary
  | close
  | ping
  | pong
  deriving DecidableEq, Repr

def Opcode.code : Opcode → Nat
  | .cont => 0
  | .text => 1
  | .binary => 2
  | .close => 8
  | .ping => 9
  | .pong => 10

/-- `is_control_opcode`. -/
def Opcode.isControl (op : Opcode) : Bool := op.code &&& 8 != 0

/-- `is_defined_opcode`, on the four bits of a header. -/
def Opcode.ofNibble : Nat → Option Opcode
  | 0 => some .cont
  | 1 => some .text
  | 2 => some .binary
  | 8 => some .close
  | 9 => some .ping
  | 10 => some .pong
  | _ => none

def kMaxControlPayload : Nat := 125

/-- `kMaxClientFrameHeader`: two bytes, the longest length and a key. -/
def kMaxClientFrameHeader : Nat := 14

def bigEndian (bs : List UInt8) : Nat := bs.foldl (fun n b => n <<< 8 ||| b.toNat) 0

theorem bigEndian_eq_load (bs : List UInt8) : bigEndian bs = LittleEndian.load bs.reverse := by
  induction bs using List.reverseRecOn with
  | nil => rfl
  | append_singleton bs b ih =>
    have hb : b.toNat < 2 ^ 8 := b.toNat_lt
    rw [bigEndian, foldl_append, foldl_cons, foldl_nil, ← bigEndian, ih,
      reverse_append, reverse_singleton, singleton_append, LittleEndian.load_cons,
      Nat.shiftLeft_eq, Nat.mul_comm _ (2 ^ 8), ← Nat.two_pow_add_eq_or_of_lt hb]
    omega

/-! ## Headers -/

/-- `header_t` of a whole header. -/
structure Header where
  op : Opcode
  fin : Bool
  masked : Bool
  maskKey : List UInt8
  len : Nat
  size : Nat
  deriving DecidableEq, Repr

/-- `decode_status_t`, with what each outcome says. -/
inductive HeaderStatus where
  | needMore
  | protocolError
  | ok (h : Header)
  deriving DecidableEq, Repr

def extBytes (b1 : UInt8) : Nat :=
  if (b1 &&& 0x7F).toNat < 126 then 0 else if (b1 &&& 0x7F).toNat = 126 then 2 else 8

def headerSize (b1 : UInt8) : Nat := 2 + extBytes b1 + if b1 &&& 0x80 != 0 then 4 else 0

/-- The declared length; `rest` is what follows the second byte. -/
def declared (b1 : UInt8) (rest : List UInt8) : Nat :=
  if extBytes b1 = 0 then (b1 &&& 0x7F).toNat else bigEndian (rest.take (extBytes b1))

def breaks (cap : Nat) (op : Opcode) (fin : Bool) (len : Nat) : Bool :=
  op.isControl && (decide (kMaxControlPayload < len) || !fin) || decide (cap < len)

/-- `decode_header`, failing on a violation. -/
def decodeHeader (cap : Nat) : List UInt8 → HeaderStatus
  | b0 :: b1 :: rest =>
    match Opcode.ofNibble (b0 &&& 0x0F).toNat with
    | none => .protocolError
    | some op =>
      let fin := b0 &&& 0x80 != 0
      if rest.length < extBytes b1 then .needMore
      else if breaks cap op fin (declared b1 rest) then .protocolError
      else if rest.length + 2 < headerSize b1 then .needMore
      else
        .ok ⟨op, fin, b1 &&& 0x80 != 0,
          (rest.drop (extBytes b1)).take (headerSize b1 - 2 - extBytes b1), declared b1 rest,
          headerSize b1⟩
  | _ => .needMore

variable {b0 : UInt8}

theorem decodeHeader_reserved (h : Opcode.ofNibble (b0 &&& 0x0F).toNat = none) (cap : Nat)
    (b1 : UInt8) (rest : List UInt8) : decodeHeader cap (b0 :: b1 :: rest) = .protocolError := by
  rw [decodeHeader, h]

theorem decodeHeader_defined {op : Opcode}
    (h : Opcode.ofNibble (b0 &&& 0x0F).toNat = some op) (cap : Nat) (b1 : UInt8) (rest : List UInt8) :
    decodeHeader cap (b0 :: b1 :: rest) = if rest.length < extBytes b1 then .needMore
      else if breaks cap op (b0 &&& 0x80 != 0) (declared b1 rest) then .protocolError
      else if rest.length + 2 < headerSize b1 then .needMore else
        .ok ⟨op, b0 &&& 0x80 != 0, b1 &&& 0x80 != 0,
          (rest.drop (extBytes b1)).take (headerSize b1 - 2 - extBytes b1), declared b1 rest,
          headerSize b1⟩ := by
  rw [decodeHeader, h]

theorem extBytes_le (b1 : UInt8) : extBytes b1 ≤ 8 := by
  rw [extBytes]
  split
  · omega
  · split <;> omega

theorem headerSize_le (b1 : UInt8) : headerSize b1 ≤ kMaxClientFrameHeader := by
  have := extBytes_le b1
  rw [headerSize, kMaxClientFrameHeader]
  split <;> omega

theorem le_headerSize (b1 : UInt8) : 2 + extBytes b1 ≤ headerSize b1 := Nat.le_add_right _ _

theorem declared_append {b1 : UInt8} {rest : List UInt8} (h : extBytes b1 ≤ rest.length)
    (t : List UInt8) : declared b1 (rest ++ t) = declared b1 rest := by
  rw [declared, declared, take_append_of_le_length h]

section

variable {cap : Nat} {buf : List UInt8}

theorem needMore_length (h : decodeHeader cap buf = .needMore) : buf.length < kMaxClientFrameHeader := by
  match buf, h with
  | [], _ => exact Nat.zero_lt_succ _
  | [_], _ => exact Nat.succ_lt_succ (Nat.zero_lt_succ _)
  | b0 :: b1 :: rest, h =>
    have hsize := headerSize_le b1
    have hext := le_headerSize b1
    rw [length_cons, length_cons]
    cases hop : Opcode.ofNibble (b0 &&& 0x0F).toNat with
    | none =>
      rw [decodeHeader_reserved hop] at h
      cases h
    | some op =>
      rw [decodeHeader_defined hop] at h
      by_cases hlong : rest.length < extBytes b1
      · omega
      rw [if_neg hlong] at h
      split at h
      · cases h
      split at h
      · omega
      · cases h

/-- **A whole header stays what it is**, whatever follows. -/
theorem decodeHeader_ok {hd : Header} (h : decodeHeader cap buf = .ok hd) :
    2 ≤ hd.size ∧ hd.size ≤ buf.length ∧ hd.len ≤ cap ∧
      ∀ t, decodeHeader cap (buf.take hd.size ++ t) = .ok hd := by
  match buf, h with
  | b0 :: b1 :: rest, h =>
    have hle := le_headerSize b1
    cases hop : Opcode.ofNibble (b0 &&& 0x0F).toNat with
    | none =>
      rw [decodeHeader_reserved hop] at h
      cases h
    | some op =>
      rw [decodeHeader_defined hop] at h
      split at h
      · cases h
      next hext =>
      split at h
      · cases h
      next hbreak =>
      split at h
      · cases h
      next hwhole =>
      cases h
      have hcap : declared b1 rest ≤ cap := by
        rw [breaks, Bool.not_eq_true, Bool.or_eq_false_iff, decide_eq_false_iff_not] at hbreak
        exact Nat.le_of_not_lt hbreak.2
      refine ⟨by dsimp only; omega, ?_, hcap, fun t => ?_⟩
      · rw [length_cons, length_cons]
        dsimp only
        omega
      -- the header keeps its bytes, and what follows it is not read
      obtain ⟨k, hk⟩ : ∃ k, headerSize b1 = k + 2 := ⟨headerSize b1 - 2, by omega⟩
      obtain ⟨kept, hkept⟩ : ∃ kept, kept = rest.take k := ⟨_, rfl⟩
      have hlen : kept.length = k := by
        rw [hkept, length_take]
        omega
      have htake : (b0 :: b1 :: rest).take (headerSize b1) = b0 :: b1 :: kept := by
        rw [hk, take_succ_cons, take_succ_cons, hkept]
      have hdeclared : declared b1 (kept ++ t) = declared b1 rest := by
        have hsplit : rest = kept ++ rest.drop k := by rw [hkept, take_append_drop]
        rw [declared_append (by omega), hsplit, declared_append (by omega)]
      have hkey : ((kept ++ t).drop (extBytes b1)).take (headerSize b1 - 2 - extBytes b1) =
          (rest.drop (extBytes b1)).take (headerSize b1 - 2 - extBytes b1) := by
        rw [drop_append_of_le_length (by omega), take_append_of_le_length (by
          rw [length_drop]; omega), hkept, drop_take, take_take]
        congr 1
        omega
      dsimp only
      rw [htake, cons_append, cons_append, decodeHeader_defined hop,
        if_neg (by rw [length_append]; omega), hdeclared, if_neg hbreak,
        if_neg (by rw [length_append]; omega), hkey]

theorem decodeHeader_protocolError (h : decodeHeader cap buf = .protocolError) (t : List UInt8) :
    decodeHeader cap (buf ++ t) = .protocolError := by
  match buf, h with
  | b0 :: b1 :: rest, h =>
    rw [cons_append, cons_append]
    cases hop : Opcode.ofNibble (b0 &&& 0x0F).toNat with
    | none => exact decodeHeader_reserved hop cap b1 (rest ++ t)
    | some op =>
      rw [decodeHeader_defined hop] at h ⊢
      split at h
      · cases h
      split at h
      next hbreak =>
        rw [if_neg (by rw [length_append]; omega), declared_append (by omega), if_pos hbreak]
      · split at h <;> cases h

end

/-! ## Masking -/

/-- Each byte with its byte of the key; `phase` bytes were masked before. -/
def maskBytes (key : List UInt8) (phase : Nat) (bs : List UInt8) : List UInt8 :=
  bs.mapIdx fun i b => b ^^^ key.getD ((phase + i) % 4) 0

/-- The key from its byte `r` on, twice over. -/
def rotated (key : List UInt8) (r : Nat) : List UInt8 :=
  (List.range 8).map fun j => key.getD ((r + j) % 4) 0

/-- `mask_copy`, its aligned middle: word after word with one key word. -/
def maskWords (word : List UInt8) : Nat → List UInt8 → List UInt8
  | 0, _ => []
  | k + 1, bs => List.zipWith (· ^^^ ·) (bs.take 8) word ++ maskWords word k (bs.drop 8)

/-- `mask_copy` to the address `addr`: bytes up to the first aligned one, then words, then the rest. -/
def maskCopy (addr : Nat) (key : List UInt8) (phase : Nat) (src : List UInt8) : List UInt8 :=
  let head := min ((8 - addr % 8) % 8) src.length
  let words := (src.length - head) / 8
  maskBytes key phase (src.take head) ++
    (maskWords (rotated key ((phase + head) % 4)) words (src.drop head) ++
      maskBytes key (phase + head + 8 * words) ((src.drop head).drop (8 * words)))

section

variable (key : List UInt8) (phase : Nat)

@[simp] theorem length_maskBytes (bs : List UInt8) : (maskBytes key phase bs).length = bs.length := by
  rw [maskBytes, length_mapIdx]

theorem maskBytes_append (xs ys : List UInt8) :
    maskBytes key phase (xs ++ ys) = maskBytes key phase xs ++ maskBytes key (phase + xs.length) ys := by
  rw [maskBytes, maskBytes, maskBytes, mapIdx_append]
  congr 2
  funext i b
  rw [Nat.add_right_comm, add_assoc phase, add_comm i]

variable {bs : List UInt8}

theorem zipWith_rotated (h : bs.length = 8) :
    List.zipWith (· ^^^ ·) bs (rotated key (phase % 4)) = maskBytes key phase bs := by
  refine ext_getElem ?_ fun i hi hi' => ?_
  · rw [length_zipWith, length_maskBytes, rotated, length_map, length_range, h]
    rfl
  · have hmod : (phase % 4 + i) % 4 = (phase + i) % 4 := by omega
    simp only [getElem_zipWith, rotated, getElem_map, getElem_range, maskBytes, getElem_mapIdx, hmod]

theorem maskWords_eq {k : Nat} (h : 8 * k ≤ bs.length) :
    maskWords (rotated key (phase % 4)) k bs = maskBytes key phase (bs.take (8 * k)) := by
  induction k generalizing phase bs with
  | zero => rfl
  | succ k ih =>
    have hword : (bs.take 8).length = 8 := length_take_of_le (by omega)
    have hphase : phase % 4 = (phase + 8) % 4 := by omega
    have hsplit : bs.take (8 * (k + 1)) = bs.take 8 ++ (bs.drop 8).take (8 * k) := by
      rw [← take_add]
      congr 1
      omega
    rw [maskWords, zipWith_rotated key phase hword, hsplit, maskBytes_append, hword, hphase,
      ih (phase + 8) (by rw [length_drop]; omega)]

end

/-- **Masking by words is masking byte by byte**, wherever the bytes go. -/
theorem maskCopy_eq (addr : Nat) (key : List UInt8) (phase : Nat) (src : List UInt8) :
    maskCopy addr key phase src = maskBytes key phase src := by
  rw [maskCopy]
  obtain ⟨head, hhead⟩ : ∃ head, head = min ((8 - addr % 8) % 8) src.length := ⟨_, rfl⟩
  obtain ⟨words, hwords⟩ : ∃ words, words = (src.length - head) / 8 := ⟨_, rfl⟩
  have hhl : (src.take head).length = head := length_take_of_le (by omega)
  have hfits : 8 * words ≤ (src.drop head).length := by
    rw [length_drop]
    omega
  have hwl : ((src.drop head).take (8 * words)).length = 8 * words := by
    rw [length_take]
    omega
  rw [← hhead, ← hwords, maskWords_eq key (phase + head) hfits]
  have hrest := maskBytes_append key (phase + head) ((src.drop head).take (8 * words))
    ((src.drop head).drop (8 * words))
  have hall := maskBytes_append key phase (src.take head) (src.drop head)
  rw [hwl, take_append_drop] at hrest
  rw [hhl, take_append_drop] at hall
  rw [← hrest, ← hall]

theorem maskBytes_maskBytes (key : List UInt8) (phase : Nat) (bs : List UInt8) :
    maskBytes key phase (maskBytes key phase bs) = bs := by
  refine ext_getElem (by simp) fun i hi hi' => ?_
  simp only [maskBytes, getElem_mapIdx]
  rw [UInt8.xor_assoc, UInt8.xor_self, UInt8.xor_zero]

/-! ## Frames on the wire -/

structure MaskKey where
  k0 : UInt8
  k1 : UInt8
  k2 : UInt8
  k3 : UInt8
  deriving DecidableEq, Repr

def MaskKey.bytes (k : MaskKey) : List UInt8 := [k.k0, k.k1, k.k2, k.k3]

/-- How a length is written: in seven bits, or in two or eight bytes behind them. -/
inductive LengthForm where
  | short
  | medium
  | long
  deriving DecidableEq, Repr

def LengthForm.limit : LengthForm → Nat
  | .short => 126
  | .medium => 65536
  | .long => 18446744073709551616

structure Frame where
  op : Opcode
  fin : Bool
  rsv : Fin 8 := 0
  key : Option MaskKey := none
  form : LengthForm := .short
  payload : List UInt8
  holds : payload.length < form.limit

namespace Frame

variable (f : Frame)

def byte0 : UInt8 := UInt8.ofNat ((if f.fin then 128 else 0) + f.rsv * 16 + f.op.code)

def len7 : Nat :=
  match f.form with
  | .short => f.payload.length
  | .medium => 126
  | .long => 127

def byte1 : UInt8 := UInt8.ofNat ((if f.key.isSome then 128 else 0) + f.len7)

def ext : List UInt8 :=
  match f.form with
  | .short => []
  | .medium => (LittleEndian.store f.payload.length 2).reverse
  | .long => (LittleEndian.store f.payload.length 8).reverse

def keyBytes : List UInt8 := (f.key.map MaskKey.bytes).getD []

def header : List UInt8 := f.byte0 :: f.byte1 :: (f.ext ++ f.keyBytes)

def sent : List UInt8 := if f.key.isSome then maskBytes f.keyBytes 0 f.payload else f.payload

def wire : List UInt8 := f.header ++ f.sent

@[simp] theorem length_sent : f.sent.length = f.payload.length := by
  rw [sent]
  split
  · exact length_maskBytes _ _ _
  · rfl

theorem byte0_bits : Opcode.ofNibble (f.byte0 &&& 0x0F).toNat = some f.op ∧
    (f.byte0 &&& 0x80 != 0) = f.fin := by
  have hall : ∀ (fin : Bool) (rsv : Fin 8), ∀ op ∈ [Opcode.cont, .text, .binary, .close, .ping, .pong],
      Opcode.ofNibble (UInt8.ofNat ((if fin then 128 else 0) + rsv * 16 + op.code) &&& 0x0F).toNat =
          some op ∧
        (UInt8.ofNat ((if fin then 128 else 0) + rsv * 16 + op.code) &&& 0x80 != 0) = fin := by
    decide
  exact hall f.fin f.rsv f.op (by cases f.op <;> decide)

theorem len7_lt : f.len7 < 128 := by
  have hh := f.holds
  rw [len7]
  cases hform : f.form <;> rw [hform] at hh
  · exact Nat.lt_trans hh (by decide)
  · exact (by decide : 126 < 128)
  · exact (by decide : 127 < 128)

theorem byte1_bits : (f.byte1 &&& 0x80 != 0) = f.key.isSome ∧ (f.byte1 &&& 0x7F).toNat = f.len7 := by
  have hall : ∀ (masked : Bool), ∀ n < 128,
      (UInt8.ofNat ((if masked then 128 else 0) + n) &&& 0x80 != 0) = masked ∧
        (UInt8.ofNat ((if masked then 128 else 0) + n) &&& 0x7F).toNat = n := by
    decide
  exact hall f.key.isSome f.len7 f.len7_lt

theorem extBytes_byte1 : extBytes f.byte1 = f.ext.length := by
  have hh := f.holds
  rw [extBytes, f.byte1_bits.2, len7, ext]
  cases hform : f.form <;> rw [hform] at hh
  · exact if_pos hh
  · simp
  · simp

theorem declared_byte1 (t : List UInt8) : declared f.byte1 (f.ext ++ t) = f.payload.length := by
  have hh := f.holds
  rw [declared, f.extBytes_byte1, f.byte1_bits.2, take_left' rfl, bigEndian_eq_load, ext, len7]
  cases hform : f.form <;> rw [hform] at hh
  · rfl
  all_goals
    rw [if_neg (by simp), reverse_reverse]
    exact LittleEndian.load_store_of_lt hh

theorem headerSize_byte1 : headerSize f.byte1 = f.header.length := by
  rw [headerSize, f.extBytes_byte1, f.byte1_bits.1, header, keyBytes]
  cases f.key with
  | none =>
    simp only [Option.isSome_none, Option.map_none, Option.getD_none, append_nil,
      length_cons, Bool.false_eq_true, if_false]
    omega
  | some k =>
    simp only [Option.isSome_some, Option.map_some, Option.getD_some, MaskKey.bytes,
      length_append, length_cons, length_nil, if_true]
    omega

variable {cap : Nat}

/-- **A frame that breaks no rule is read as it was sent.** -/
theorem decodeHeader_header (h : breaks cap f.op f.fin f.payload.length = false) :
    decodeHeader cap f.header =
      .ok ⟨f.op, f.fin, f.key.isSome, f.keyBytes, f.payload.length, f.header.length⟩ := by
  have hdecl := f.declared_byte1 f.keyBytes
  have hlen : f.header.length = 2 + f.ext.length + f.keyBytes.length := by
    rw [header, length_cons, length_cons, length_append]
    omega
  rw [header, decodeHeader_defined f.byte0_bits.1, f.extBytes_byte1, hdecl, f.byte0_bits.2,
    f.byte1_bits.1, f.headerSize_byte1, if_neg (by rw [length_append]; omega),
    if_neg (by rw [h]; exact nofun), if_neg (by rw [length_append]; omega),
    drop_left' rfl, take_of_length_le (by omega)]
  rfl

/-- **A frame that breaks a rule fails the connection at its header.** -/
theorem decodeHeader_breach (h : breaks cap f.op f.fin f.payload.length = true) :
    decodeHeader cap f.header = .protocolError := by
  rw [header, decodeHeader_defined f.byte0_bits.1, f.extBytes_byte1, f.declared_byte1 f.keyBytes,
    f.byte0_bits.2, if_neg (by rw [length_append]; omega), if_pos h]

end Frame

end LibTracer.Net.Ws
