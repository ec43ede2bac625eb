import LibTracer.Net.WsFrame

/-!
# The WebSocket codec

`decode_frame` reads one frame off the front of a buffer and unmasks it in place; the encoders write the
server's frames unmasked, and the client's masked while they gather its parts.

* **`codec_round_trip`** — what either encoder writes is read back.
-/

namespace LibTracer.Net.Ws

open List

/-! ## Decoding -/

/-- `kNoPayloadCap`, the largest size. -/
def kNoPayloadCap : Nat := 18446744073709551615

/-- `frame_t`, its opcode as the four bits are: reserved ones pass. -/
structure RawFrame where
  op : Nat
  fin : Bool
  payload : List UInt8
  deriving DecidableEq, Repr

/-- `decode_frame`, of a buffer at the address `addr`: no rule fails, and the payload is unmasked in
place. -/
def decodeFrame (addr : Nat) : List UInt8 → Option (RawFrame × Nat)
  | b0 :: b1 :: rest =>
    let len := declared b1 rest
    let body := rest.drop (headerSize b1 - 2)
    if rest.length < extBytes b1 then none
    else if kNoPayloadCap < len then none
    else if rest.length + 2 < headerSize b1 then none
    else if body.length < len then none
    else
      let key := (rest.drop (extBytes b1)).take 4
      let payload := body.take len
      some (⟨(b0 &&& 0x0F).toNat, b0 &&& 0x80 != 0,
        if b1 &&& 0x80 != 0 then maskCopy (addr + headerSize b1) key 0 payload else payload⟩,
        headerSize b1 + len)
  | _ => none

/-! ## Encoding -/

def byteZero (op : Opcode) (fin : Bool) : UInt8 := UInt8.ofNat ((if fin then 0x80 else 0) ||| op.code)

/-- The second byte and the length behind it, with the mask bit: both encoders' ladder. -/
def lengthLadder (mask len : Nat) : List UInt8 :=
  if len < 126 then [UInt8.ofNat (mask ||| len)]
  else if len ≤ 0xFFFF then
    [UInt8.ofNat (mask ||| 126), UInt8.ofNat (len >>> 8 &&& 0xFF), UInt8.ofNat (len &&& 0xFF)]
  else
    UInt8.ofNat (mask ||| 127) :: (List.range 8).map fun i => UInt8.ofNat (len >>> ((7 - i) * 8) &&& 0xFF)

def encodeFrameHeader (op : Opcode) (len : Nat) (fin : Bool) : List UInt8 :=
  byteZero op fin :: lengthLadder 0 len

/-- `try_encode_frame`, where its store can be grown. -/
def encodeFrame (op : Opcode) (payload : List UInt8) (fin : Bool) : List UInt8 :=
  encodeFrameHeader op payload.length fin ++ payload

/-- The four bytes of a mask key, in wire order. -/
def maskKeyOf (key : BitVec 32) : MaskKey where
  k0 := UInt8.ofNat (key.toNat >>> 24 &&& 0xFF)
  k1 := UInt8.ofNat (key.toNat >>> 16 &&& 0xFF)
  k2 := UInt8.ofNat (key.toNat >>> 8 &&& 0xFF)
  k3 := UInt8.ofNat (key.toNat &&& 0xFF)

/-- The parts, masked one after the other to the address `addr`; `phase` bytes were masked before. -/
def gatherMasked (addr : Nat) (key : List UInt8) (phase : Nat) : List (List UInt8) → List UInt8
  | [] => []
  | part :: parts =>
    maskCopy (addr + phase) key phase part ++ gatherMasked addr key (phase + part.length) parts

/-- `put_client_frame` to the address `addr`. -/
def putClientFrame (addr : Nat) (op : Opcode) (parts : List (List UInt8)) (key : BitVec 32) (fin : Bool) :
    List UInt8 :=
  let mk := (maskKeyOf key).bytes
  let head := byteZero op fin :: lengthLadder 0x80 (parts.map length).sum ++ mk
  head ++ gatherMasked (addr + head.length) mk 0 parts

/-! ## What is written is read back -/

theorem Opcode.code_of_ofNibble {n : Nat} {op : Opcode} (h : Opcode.ofNibble n = some op) : n = op.code := by
  unfold Opcode.ofNibble at h
  split at h <;> cases h <;> rfl

/-- The frame both encoders write. -/
def codecFrame (op : Opcode) (fin : Bool) (key : Option MaskKey) (payload : List UInt8)
    (h : payload.length ≤ kNoPayloadCap) : Frame where
  op := op
  fin := fin
  key := key
  form := if payload.length < 126 then .short else if payload.length ≤ 0xFFFF then .medium else .long
  payload := payload
  holds := by
    rw [kNoPayloadCap] at h
    split
    · assumption
    split <;> simp only [LengthForm.limit] <;> omega

theorem decodeFrame_wire (f : Frame) (addr : Nat) (rest : List UInt8)
    (h : f.payload.length ≤ kNoPayloadCap) :
    decodeFrame addr (f.wire ++ rest) = some (⟨f.op.code, f.fin, f.payload⟩, f.wire.length) := by
  have hop : (f.byte0 &&& 0x0F).toNat = f.op.code := Opcode.code_of_ofNibble f.byte0_bits.1
  have hlen : f.header.length = 2 + (f.ext ++ f.keyBytes).length := by
    rw [Frame.header, length_cons, length_cons]
    omega
  have hwire : f.wire ++ rest = f.byte0 :: f.byte1 :: (f.ext ++ f.keyBytes ++ (f.sent ++ rest)) := by
    rw [Frame.wire, Frame.header]
    simp
  have hbody : (f.ext ++ f.keyBytes ++ (f.sent ++ rest)).drop (f.header.length - 2) = f.sent ++ rest :=
    drop_left' (by omega)
  have hext : f.ext.length ≤ (f.ext ++ f.keyBytes).length := by simp
  have htake : (f.sent ++ rest).take f.payload.length = f.sent := take_left' f.length_sent
  have hdecl : declared f.byte1 (f.ext ++ f.keyBytes ++ (f.sent ++ rest)) = f.payload.length := by
    rw [append_assoc]
    exact f.declared_byte1 _
  rw [hwire, decodeFrame, f.extBytes_byte1, f.headerSize_byte1, hdecl, hbody, htake, hop,
    f.byte0_bits.2, f.byte1_bits.1, if_neg (by rw [length_append]; omega), if_neg (by omega),
    if_neg (by rw [length_append]; omega), if_neg (by rw [length_append, f.length_sent]; omega),
    Frame.wire, length_append, f.length_sent]
  have hpayload : (if f.key.isSome then maskCopy (addr + f.header.length) (((f.ext ++ f.keyBytes ++
      (f.sent ++ rest)).drop f.ext.length).take 4) 0 f.sent else f.sent) = f.payload := by
    rw [append_assoc, drop_left' rfl, Frame.sent, Frame.keyBytes]
    cases f.key with
    | none => rfl
    | some k => exact (maskCopy_eq _ _ _ _).trans (maskBytes_maskBytes k.bytes 0 f.payload)
  dsimp only
  rw [hpayload]

theorem gatherMasked_eq (addr : Nat) (key : List UInt8) (phase : Nat) (parts : List (List UInt8)) :
    gatherMasked addr key phase parts = maskBytes key phase parts.flatten := by
  induction parts generalizing phase with
  | nil => rfl
  | cons part parts ih => rw [gatherMasked, maskCopy_eq, ih, flatten_cons, maskBytes_append]

theorem ladder_eq (op : Opcode) (fin : Bool) (key : Option MaskKey) (payload : List UInt8)
    (h : payload.length ≤ kNoPayloadCap) :
    byteZero op fin :: lengthLadder (if key.isSome then 0x80 else 0) payload.length ++
      (codecFrame op fin key payload h).keyBytes = (codecFrame op fin key payload h).header := by
  have hzero : byteZero op fin = (codecFrame op fin key payload h).byte0 := by
    cases op <;> cases fin <;> rfl
  have hmask : ∀ n < 128, (if key.isSome then 0x80 else 0) ||| n = (if key.isSome then 128 else 0) + n := by
    cases key.isSome <;> decide
  have hladder : lengthLadder (if key.isSome then 0x80 else 0) payload.length =
      (codecFrame op fin key payload h).byte1 :: (codecFrame op fin key payload h).ext := by
    rw [lengthLadder, Frame.byte1, Frame.ext, Frame.len7, codecFrame]
    dsimp only
    by_cases hshort : payload.length < 126
    · simp only [if_pos hshort, hmask _ (show payload.length < 128 by omega)]
    by_cases hmedium : payload.length ≤ 0xFFFF
    · simp only [if_neg hshort, if_pos hmedium, hmask 126 (by decide), LittleEndian.ofNat_and_255]
      rfl
    · simp only [if_neg hshort, if_neg hmedium, hmask 127 (by decide), LittleEndian.ofNat_and_255]
      rfl
  rw [hzero, hladder]
  rfl

theorem encodeFrame_eq (op : Opcode) (payload : List UInt8) (fin : Bool)
    (h : payload.length ≤ kNoPayloadCap) :
    encodeFrame op payload fin = (codecFrame op fin none payload h).wire := by
  rw [encodeFrame, encodeFrameHeader, Frame.wire, ← ladder_eq]
  exact (congrArg (· ++ payload) (append_nil _)).symm

theorem putClientFrame_eq (addr : Nat) (op : Opcode) (parts : List (List UInt8)) (key : BitVec 32)
    (fin : Bool) (h : parts.flatten.length ≤ kNoPayloadCap) :
    putClientFrame addr op parts key fin =
      (codecFrame op fin (some (maskKeyOf key)) parts.flatten h).wire := by
  rw [putClientFrame, gatherMasked_eq, Frame.wire, ← ladder_eq, length_flatten]
  rfl

/-- **The codec**: what either encoder writes is read back whole, whatever follows it, and masking gives
each byte its byte of the key. -/
theorem codec_round_trip (op : Opcode) (fin : Bool) (addr at' : Nat) (rest : List UInt8) :
    (∀ payload, payload.length ≤ kNoPayloadCap →
      decodeFrame addr (encodeFrame op payload fin ++ rest) =
        some (⟨op.code, fin, payload⟩, (encodeFrame op payload fin).length)) ∧
    (∀ parts key, parts.flatten.length ≤ kNoPayloadCap →
      decodeFrame addr (putClientFrame at' op parts key fin ++ rest) =
        some (⟨op.code, fin, parts.flatten⟩, (putClientFrame at' op parts key fin).length)) ∧
    ∀ key phase src i, (maskCopy at' key phase src)[i]? =
      src[i]?.map fun b => b ^^^ key.getD ((phase + i) % 4) 0 := by
  refine ⟨fun payload h => ?_, fun parts key h => ?_, fun key phase src i => ?_⟩
  · rw [encodeFrame_eq op payload fin h]
    exact decodeFrame_wire _ addr rest h
  · rw [putClientFrame_eq at' op parts key fin h]
    exact decodeFrame_wire _ addr rest h
  · rw [maskCopy_eq, maskBytes, getElem?_mapIdx]

end LibTracer.Net.Ws
