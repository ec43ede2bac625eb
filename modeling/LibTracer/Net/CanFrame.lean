import LibTracer.Lib.Cut

/-!
# CAN identifiers, frames and advertises

A data frame carries an identifier and up to 8 or 64 bytes, and nothing that names its group.  What it
belongs to is said ahead of it by an advertise, which rides the control identifier of its node as a byte
stream in pieces of 8.

* **`decodeAdvertise_encode`** — an advertise is decoded when it is whole.
-/

namespace LibTracer.Net.Can

open List
open LittleEndian (length_store load load_store_of_lt store)

/-! ## Identifiers -/

/-- `kEndpointMax`. -/
def endpointMax : Nat := 4095

/-- `kCanControlEndpoint`. -/
def controlEndpoint : Nat := 0

/-- `kCanFirstDataEndpoint`. -/
def firstDataEndpoint : Nat := 1

/-- `kCanMaxGroupSlices`. -/
def maxGroupSlices : Nat := 4095

/-- `kCanBroadcastNode`. -/
def broadcastNode : Nat := 0xFFFF

def bandOf (id : Nat) : Nat := id / 4096

def endpointOf (id : Nat) : Nat := id % 4096

def nodeOf (id : Nat) : Nat := id / 4096 % 8192

def versionOf (id : Nat) : Nat := id / 33554432 % 16

/-- `encode_can_id`: 4 bits of version, 13 of node, 12 of endpoint. -/
def encodeCanId (version node endpoint : Nat) : Nat :=
  version % 16 * 33554432 + node % 8192 * 4096 + endpoint % 4096

theorem endpointOf_encodeCanId {endpoint : Nat} (version node : Nat) (h : endpoint ≤ endpointMax) :
    endpointOf (encodeCanId version node endpoint) = endpoint := by
  simp only [endpointOf, encodeCanId, endpointMax] at *
  omega

theorem encodeCanId_add {base i : Nat} (version node : Nat) (h : base + i ≤ endpointMax) :
    encodeCanId version node (base + i) = encodeCanId version node base + i := by
  simp only [encodeCanId, endpointMax] at *
  omega

section

variable (version node endpoint : Nat)

theorem bandOf_encodeCanId :
    bandOf (encodeCanId version node endpoint) = version % 16 * 8192 + node % 8192 := by
  simp only [bandOf, encodeCanId]
  omega

theorem nodeOf_encodeCanId : nodeOf (encodeCanId version node endpoint) = node % 8192 := by
  simp only [nodeOf, encodeCanId]
  omega

theorem versionOf_encodeCanId : versionOf (encodeCanId version node endpoint) = version % 16 := by
  simp only [versionOf, encodeCanId]
  omega

theorem encodeCanId_lt : encodeCanId version node endpoint < 536870912 := by
  simp only [encodeCanId]
  omega

end

/-! ## Data fields -/

/-- `can_frame_mode_t`. -/
inductive Mode where
  | classic
  | fd
  deriving DecidableEq, Repr

/-- `can_max_data`. -/
def Mode.maxData : Mode → Nat
  | .classic => 8
  | .fd => 64

theorem Mode.maxData_pos (m : Mode) : 0 < m.maxData := by
  cases m <;> decide

/-- A CAN frame.  `group` is an account no receiver reads: which send it is part of. -/
structure CanFrame where
  id : Nat
  fd : Bool
  data : List UInt8
  group : Nat
  deriving DecidableEq, Repr

/-- `can_fd_dlc_round_up`. -/
def fdDlcRoundUp (len : Nat) : Nat :=
  if len ≤ 8 then len
  else if len ≤ 12 then 12
  else if len ≤ 16 then 16
  else if len ≤ 20 then 20
  else if len ≤ 24 then 24
  else if len ≤ 32 then 32
  else if len ≤ 48 then 48
  else 64

/-- `can_frame_count`. -/
def frameCount (mode : Mode) (payload : List UInt8) : Nat := Window.cuts mode.maxData payload.length

/-- `can_frame_at`. -/
def frameAt (mode : Mode) (payload : List UInt8) (i : Nat) : List UInt8 :=
  Window.window payload (i * mode.maxData) mode.maxData

/-- The data field as it is put on the bus: CAN-FD pads to the next length it can say. -/
def onWire (mode : Mode) (field : List UInt8) : List UInt8 :=
  match mode with
  | .classic => field
  | .fd => field ++ List.replicate (fdDlcRoundUp field.length - field.length) 0

theorem take_onWire {mode : Mode} {field : List UInt8} {n : Nat} (h : n = field.length) :
    (onWire mode field).take n = field := by
  cases mode with
  | classic => rw [onWire, h, take_length]
  | fd => rw [onWire, h, take_left]

theorem length_le_onWire (mode : Mode) (field : List UInt8) :
    field.length ≤ (onWire mode field).length := by
  cases mode <;> simp [onWire]

/-! ## Advertises -/

/-- `kAdvertiseMagic`. -/
def magic : UInt8 := 0xAD

/-- `kAdvertiseHeaderSize`. -/
def headerSize : Nat := 18

/-- `kAdvertiseMaxPathLen`. -/
def maxPathLen : Nat := 1024

structure Advertise where
  canId : Nat
  group : Bool
  total : Nat
  count : Nat
  target : Nat
  deriving DecidableEq, Repr

structure Advertise.Fits (a : Advertise) : Prop where
  canId : a.canId < 2 ^ 32
  total : a.total < 2 ^ 32
  count : a.count < 2 ^ 16
  target : a.target < 2 ^ 16

/-- `encode_advertise_header`, without its check of the path. -/
def encodeHeader (a : Advertise) (pathLen : Nat) : List UInt8 :=
  [magic, 2, if a.group then 1 else 0, 0] ++ store a.canId 4 ++
    store a.total 4 ++ store a.count 2 ++ store a.target 2 ++
    store pathLen 2

def encodeAdvertise (a : Advertise) (path : List UInt8) : List UInt8 :=
  encodeHeader a path.length ++ path

def field (buf : List UInt8) (off n : Nat) : Nat := load (Window.window buf off n)

/-- `decode_advertise`: the advertise at the front, and how many bytes it takes. -/
def decodeAdvertise (buf : List UInt8) : Option (Advertise × Nat) :=
  if buf.length < headerSize then none
  else if field buf 0 1 ≠ 0xAD ∨ field buf 1 1 ≠ 2 ∨ field buf 3 1 ≠ 0 then none
  else
    let pathLen := field buf 16 2
    if maxPathLen < pathLen ∨ buf.length - headerSize < pathLen then none
    else
      some ({ canId := field buf 4 4, group := field buf 2 1 % 2 = 1, total := field buf 8 4,
              count := field buf 12 2, target := field buf 14 2 }, headerSize + pathLen)

/-- `advertise_prefix_plausible`. -/
def prefixPlausible (buf : List UInt8) : Bool :=
  (buf.length = 0 ∨ field buf 0 1 = 0xAD) ∧ (buf.length < 2 ∨ field buf 1 1 = 2) ∧
    (buf.length < 4 ∨ field buf 3 1 = 0) ∧ (buf.length < headerSize ∨ field buf 16 2 ≤ maxPathLen)

theorem length_encodeHeader (a : Advertise) (n : Nat) : (encodeHeader a n).length = headerSize := by
  simp [encodeHeader, headerSize]

theorem length_encodeAdvertise (a : Advertise) (path : List UInt8) :
    (encodeAdvertise a path).length = headerSize + path.length := by
  rw [encodeAdvertise, length_append, length_encodeHeader]

/-- A field stored behind others is read back. -/
theorem field_stored (front rest : List UInt8) (fs : List (Nat × Nat)) {buf : List UInt8}
    (hbuf : buf = front ++ (fs.flatMap (fun f => store f.1 f.2) ++ rest)) (i : Nat) {v n off : Nat}
    (hi : fs[i]? = some (v, n)) (hoff : off = front.length + ((fs.take i).map Prod.snd).sum)
    (hv : v < 256 ^ n) : field buf off n = v := by
  induction fs generalizing front i with
  | nil => cases hi
  | cons f fs ih =>
    rw [List.flatMap_cons, List.append_assoc] at hbuf
    cases i with
    | zero =>
      cases hi
      have hwin := Window.window_append_mid front (store v n) (fs.flatMap (fun f => store f.1 f.2) ++ rest)
      rw [length_store] at hwin
      rw [field, hbuf, hoff, List.take_zero, List.map_nil, List.sum_nil, Nat.add_zero, hwin,
        load_store_of_lt hv]
    | succ i =>
      refine ih (front ++ store f.1 f.2) (by rw [hbuf, List.append_assoc]) i hi ?_
      rw [hoff, List.take_succ_cons, List.map_cons, List.sum_cons, List.length_append, length_store,
        add_assoc]

theorem field_take {buf : List UInt8} {n off w : Nat} (h : off + w ≤ n) :
    field (buf.take n) off w = field buf off w := by
  rw [field, field, Window.window, Window.window, drop_take, take_take, Nat.min_eq_left (by omega)]

/-! ## A head is settled by its own bytes -/

variable {buf more : List UInt8}

theorem field_append_left {off w : Nat} (h : off + w ≤ buf.length) (more : List UInt8) :
    field (buf ++ more) off w = field buf off w := by
  rw [← field_take h, take_left]

theorem prefixPlausible_iff : prefixPlausible buf = true ↔
    (buf.length = 0 ∨ field buf 0 1 = 0xAD) ∧ (buf.length < 2 ∨ field buf 1 1 = 2) ∧
      (buf.length < 4 ∨ field buf 3 1 = 0) ∧ (buf.length < 18 ∨ field buf 16 2 ≤ maxPathLen) :=
  decide_eq_true_iff

theorem plausible_of_append (h : prefixPlausible (buf ++ more) = true) : prefixPlausible buf = true := by
  have hkeep {n off w : Nat} {P : Nat → Prop} (hn : off + w ≤ n)
      (hor : (buf ++ more).length < n ∨ P (field (buf ++ more) off w)) :
      buf.length < n ∨ P (field buf off w) := by
    by_cases hlen : buf.length < n
    · exact .inl hlen
    · rw [length_append, field_append_left (by omega)] at hor
      exact .inr (hor.resolve_left (by omega))
  rw [prefixPlausible_iff, ← Nat.lt_one_iff] at h ⊢
  exact ⟨hkeep (P := (· = 0xAD)) (by decide) h.1, hkeep (P := (· = 2)) (by decide) h.2.1,
    hkeep (P := (· = 0)) (by decide) h.2.2.1, hkeep (P := (· ≤ maxPathLen)) (by decide) h.2.2.2⟩

theorem of_decodeAdvertise {adv : Advertise} {n : Nat} (h : decodeAdvertise buf = some (adv, n)) :
    headerSize ≤ n ∧ n ≤ buf.length ∧ prefixPlausible buf = true ∧
      ∀ more, decodeAdvertise (buf ++ more) = some (adv, n) := by
  rw [decodeAdvertise] at h
  split at h
  · cases h
  next hlen =>
  split at h
  · cases h
  next hhead =>
  dsimp only at h
  split at h
  · cases h
  next hpath =>
  rw [headerSize] at hlen hpath
  cases h
  refine ⟨Nat.le_add_right _ _, by rw [headerSize]; omega, ?_, fun more => ?_⟩
  · rw [prefixPlausible_iff]
    omega
  · have happ := @field_append_left buf
    rw [decodeAdvertise, length_append, happ (by omega), happ (by omega), happ (by omega),
      happ (by omega), happ (by omega), happ (by omega), happ (by omega), happ (by omega),
      happ (by omega), if_neg (by rw [headerSize]; omega), if_neg hhead]
    exact if_neg (by rw [headerSize]; omega)

theorem implausible_of_ne {b : UInt8} (h : b ≠ magic) : prefixPlausible (b :: buf) = false := by
  have hfield : field (b :: buf) 0 1 = b.toNat := by simp [field, Window.window, LittleEndian.load_cons]
  refine Bool.eq_false_iff.mpr fun hall => ?_
  rcases (prefixPlausible_iff.mp hall).1 with hnil | hmagic
  · cases hnil
  · rw [hfield] at hmagic
    exact h (UInt8.toNat_inj.mp hmagic)

/-- Fewer bytes wait than the longest advertise takes. -/
theorem length_lt_of_waits (hnone : decodeAdvertise buf = none) (hyet : prefixPlausible buf = true) :
    buf.length < headerSize + maxPathLen := by
  rw [prefixPlausible_iff] at hyet
  refine Nat.not_le.mp fun hle => ?_
  rw [headerSize] at hle
  rw [decodeAdvertise, headerSize, if_neg (by omega), if_neg (by omega)] at hnone
  dsimp only at hnone
  rw [if_neg (by omega)] at hnone
  cases hnone

section

variable {a : Advertise} {path rest : List UInt8}

structure Header (a : Advertise) (pathLen : Nat) (buf : List UInt8) : Prop where
  magic : field buf 0 1 = 0xAD
  version : field buf 1 1 = 2
  group : field buf 2 1 = if a.group then 1 else 0
  reserved : field buf 3 1 = 0
  canId : field buf 4 4 = a.canId
  total : field buf 8 4 = a.total
  count : field buf 12 2 = a.count
  target : field buf 14 2 = a.target
  pathLen : field buf 16 2 = pathLen

theorem header_encode (ha : a.Fits) (hp : path.length < 2 ^ 16) (rest : List UInt8) :
    Header a path.length (encodeAdvertise a path ++ rest) := by
  have hread := @field_stored [magic, 2, if a.group then 1 else 0, 0] (path ++ rest)
    [(a.canId, 4), (a.total, 4), (a.count, 2), (a.target, 2), (path.length, 2)]
    (encodeAdvertise a path ++ rest) (by simp [encodeAdvertise, encodeHeader])
  exact {
    magic := rfl
    version := rfl
    group := by
      cases hg : a.group <;> simp [encodeAdvertise, encodeHeader, field, Window.window, hg] <;> rfl
    reserved := rfl
    canId := hread 0 rfl rfl (by simpa using ha.canId)
    total := hread 1 rfl rfl (by simpa using ha.total)
    count := hread 2 rfl rfl (by simpa using ha.count)
    target := hread 3 rfl rfl (by simpa using ha.target)
    pathLen := hread 4 rfl rfl (by simpa using hp) }

/-- **A whole advertise at the front of the stream is decoded**, whatever follows. -/
theorem decodeAdvertise_encode (ha : a.Fits) (hp : path.length ≤ maxPathLen) (rest : List UInt8) :
    decodeAdvertise (encodeAdvertise a path ++ rest) = some (a, headerSize + path.length) := by
  have hlt : path.length < 2 ^ 16 := by
    rw [maxPathLen] at hp
    omega
  obtain ⟨h0, h1, h2, h3, h4, h5, h6, h7, h8⟩ := header_encode ha hlt rest
  have hlen : (encodeAdvertise a path ++ rest).length = headerSize + path.length + rest.length := by
    rw [length_append, length_encodeAdvertise]
  rw [decodeAdvertise, if_neg (by omega), if_neg (by simp [h0, h1, h3])]
  dsimp only
  rw [h8, if_neg (by omega), h2, h4, h5, h6, h7]
  cases a with
  | mk canId group total count target => cases group <;> rfl

theorem decodeAdvertise_take (ha : a.Fits) (hp : path.length ≤ maxPathLen) {n : Nat}
    (hn : n < headerSize + path.length) : decodeAdvertise ((encodeAdvertise a path).take n) = none ∧
      prefixPlausible ((encodeAdvertise a path).take n) = true := by
  have hwhole := decodeAdvertise_encode ha hp []
  have hcut := take_append_drop n (encodeAdvertise a path)
  rw [append_nil] at hwhole
  refine ⟨Option.eq_none_iff_forall_ne_some.mpr fun p hdec => ?_, ?_⟩
  · -- what is decoded of a part is decoded of the whole, and takes no more than the part
    obtain ⟨-, hle, -, hmore⟩ := of_decodeAdvertise (n := p.2) hdec
    have hsame := hmore ((encodeAdvertise a path).drop n)
    rw [hcut, hwhole] at hsame
    have hlen := congrArg Prod.snd (Option.some.inj hsame)
    have := length_take_le n (encodeAdvertise a path)
    dsimp only at hlen
    omega
  · have hyet := (of_decodeAdvertise hwhole).2.2.1
    rw [← hcut] at hyet
    exact plausible_of_append hyet

end

end LibTracer.Net.Can
