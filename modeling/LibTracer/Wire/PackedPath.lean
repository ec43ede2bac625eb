import LibTracer.Lib.Window
import LibTracer.Wire.Crc

/-!
# Packed paths (`packed_path.hpp`, `path_pair.hpp`)

The body of a `PATH` is a run of records: a literal segment behind its length octet, or an escape
`00 <kind> <len> <payload>`.  An escape of kind `0x16` and eight octets is a `PAIR`, an element that
names a vertex by its slot.

* **`records_wire_append`** : a run of records is read back, whatever follows it.
-/

namespace LibTracer.Wire

open Window List
open Crc (Bytes)

/-! ## Records -/

def kPackedSegMaxBytes : Nat := 255

def kPackedEscapeOverhead : Nat := 3

/-- One record of a packed path; a segment is never empty, since its length would be the escape's. -/
inductive PathRecord where
  | literal (seg : Bytes) (ne : seg ≠ []) (fits : seg.length ≤ kPackedSegMaxBytes)
  | escape (kind : UInt8) (payload : Bytes) (fits : payload.length ≤ kPackedSegMaxBytes)
  deriving DecidableEq

namespace PathRecord

def wire : PathRecord → Bytes
  | .literal seg _ _ => UInt8.ofNat seg.length :: seg
  | .escape kind payload _ => 0 :: kind :: UInt8.ofNat payload.length :: payload

def seg? : PathRecord → Option Bytes
  | .literal seg _ _ => some seg
  | .escape _ _ _ => none

theorem two_le_length_wire (r : PathRecord) : 2 ≤ r.wire.length := by
  cases r with
  | literal seg ne _ =>
    have := length_pos_iff.mpr ne
    simp only [wire, length_cons]
    omega
  | escape => simp only [wire, length_cons]; omega

end PathRecord

def wireOf (rs : List PathRecord) : Bytes := rs.flatMap PathRecord.wire

@[simp] theorem wireOf_nil : wireOf [] = [] := rfl

@[simp] theorem wireOf_cons (r : PathRecord) (rs : List PathRecord) :
    wireOf (r :: rs) = r.wire ++ wireOf rs := rfl

/-! ## Reading -/

variable {len : UInt8} {rest : Bytes}

theorem take_ne_nil (hlen : len ≠ 0) (hroom : len.toNat ≤ rest.length) : rest.take len.toNat ≠ [] := by
  intro hnil
  have htake := congrArg List.length hnil
  rw [length_take, Nat.min_eq_left hroom, length_nil] at htake
  exact hlen (UInt8.toNat_inj.mp htake)

theorem length_take_le (len : UInt8) (rest : Bytes) :
    (rest.take len.toNat).length ≤ kPackedSegMaxBytes := by
  have := len.toNat_lt
  rw [length_take, kPackedSegMaxBytes]
  omega

def escapeAt : Bytes → Option (PathRecord × Bytes)
  | kind :: esc :: rest =>
    if esc.toNat ≤ rest.length then
      some (.escape kind (rest.take esc.toNat) (length_take_le esc rest), rest.drop esc.toNat)
    else none
  | _ => none

/-- `packed_record_span` and what it spans: the record at the front, and what follows it. -/
def recordAt : Bytes → Option (PathRecord × Bytes)
  | [] => none
  | len :: rest =>
    if hlen : len = 0 then escapeAt rest
    else if hroom : len.toNat ≤ rest.length then
      some (.literal (rest.take len.toNat) (take_ne_nil hlen hroom) (length_take_le len rest),
        rest.drop len.toNat)
    else none

theorem toNat_ofNat_length {xs : Bytes} (h : xs.length ≤ kPackedSegMaxBytes) :
    (UInt8.ofNat xs.length).toNat = xs.length := by
  rw [kPackedSegMaxBytes] at h
  rw [UInt8.toNat_ofNat']
  omega

theorem recordAt_wire (r : PathRecord) (rest : Bytes) : recordAt (r.wire ++ rest) = some (r, rest) := by
  cases r with
  | literal seg ne fits =>
    have hlen := toNat_ofNat_length fits
    have hne : UInt8.ofNat seg.length ≠ 0 := by
      intro h
      rw [h] at hlen
      exact ne (length_eq_zero_iff.mp hlen.symm)
    simp [PathRecord.wire, recordAt, hlen, hne]
  | escape kind payload fits =>
    have hlen := toNat_ofNat_length fits
    simp [PathRecord.wire, recordAt, escapeAt, hlen]

theorem ofNat_length_take (hroom : len.toNat ≤ rest.length) :
    UInt8.ofNat (rest.take len.toNat).length = len := by
  rw [length_take, Nat.min_eq_left hroom]
  exact UInt8.ofNat_toNat

variable {bs : Bytes}

theorem of_recordAt {r : PathRecord} (h : recordAt bs = some (r, rest)) : bs = r.wire ++ rest := by
  match bs with
  | [] => cases h
  | len :: tl =>
    rw [recordAt] at h
    split at h
    next hlen =>
      subst hlen
      unfold escapeAt at h
      split at h
      · split at h
        next hroom =>
          cases h
          simp only [PathRecord.wire, cons_append, take_append_drop, ofNat_length_take hroom]
        · cases h
      · cases h
    · split at h
      next hroom =>
        cases h
        simp only [PathRecord.wire, cons_append, take_append_drop, ofNat_length_take hroom]
      · cases h

/-- The records a body opens with, `fuel` of them at most, and the rest. -/
def recordsTo : Nat → Bytes → List PathRecord × Bytes
  | 0, bs => ([], bs)
  | fuel + 1, bs =>
    match recordAt bs with
    | none => ([], bs)
    | some (r, rest) => let (rs, ragged) := recordsTo fuel rest; (r :: rs, ragged)

def records (bs : Bytes) : List PathRecord × Bytes := recordsTo bs.length bs

variable {fuel : Nat}

theorem recordsTo_of_le (h : bs.length ≤ fuel) : recordsTo fuel bs = records bs := by
  suffices hs : ∀ (n m : Nat) (bs : Bytes), bs.length ≤ n → bs.length ≤ m →
      recordsTo n bs = recordsTo m bs from hs _ _ _ h le_rfl
  intro n
  induction n with
  | zero =>
    intro m bs hn _
    have hnil : bs = [] := length_eq_zero_iff.mp (Nat.le_zero.mp hn)
    subst hnil
    cases m <;> rfl
  | succ n ih =>
    intro m bs hn hm
    cases m with
    | zero =>
      have hnil : bs = [] := length_eq_zero_iff.mp (Nat.le_zero.mp hm)
      subst hnil
      rfl
    | succ m =>
      unfold recordsTo
      split
      · rfl
      next r rest hr =>
      have hlen := congrArg List.length (of_recordAt hr)
      have := r.two_le_length_wire
      rw [length_append] at hlen
      rw [ih m rest (by omega) (by omega)]

theorem records_wire_cons (r : PathRecord) (rest : Bytes) :
    records (r.wire ++ rest) = (r :: (records rest).1, (records rest).2) := by
  have hlen := r.two_le_length_wire
  rw [← recordsTo_of_le (show (r.wire ++ rest).length ≤ (r.wire ++ rest).length + 1 by omega),
    recordsTo, recordAt_wire]
  simp only
  rw [recordsTo_of_le (by rw [length_append]; omega)]

/-- **A run of records is read back**, whatever follows it. -/
theorem records_wire_append (rs : List PathRecord) (rest : Bytes) :
    records (wireOf rs ++ rest) = (rs ++ (records rest).1, (records rest).2) := by
  induction rs with
  | nil => rfl
  | cons r rs ih =>
    rw [wireOf_cons, append_assoc, records_wire_cons, ih]
    rfl

variable {rs : List PathRecord}

theorem wireOf_inj {rs' : List PathRecord} (h : wireOf rs = wireOf rs') : rs = rs' := by
  have hread := records_wire_append rs []
  rw [h, records_wire_append rs' []] at hread
  have hnil : (records []).1 = [] := rfl
  rw [hnil, append_nil, append_nil] at hread
  exact (congrArg Prod.fst hread).symm

/-! ## Keys -/

/-- `store_path_segment`, what it stores: nothing for a segment no record can hold. -/
def storePathSegment (seg : Bytes) : Bytes :=
  if seg = [] ∨ kPackedSegMaxBytes < seg.length then [] else UInt8.ofNat seg.length :: seg

/-- The loop of `packed_path_valid_key`. -/
def packedPathValidKeyTo : Nat → Bytes → Bool
  | _, [] => true
  | 0, _ :: _ => false
  | fuel + 1, len :: rest =>
    if len = 0 then false
    else if rest.length < len.toNat then false
    else packedPathValidKeyTo fuel (rest.drop len.toNat)

/-- `packed_path_valid_key`: a record takes a byte at least. -/
def packedPathValidKey (body : Bytes) : Bool := packedPathValidKeyTo body.length body

def AllLiteral (rs : List PathRecord) : Prop := ∀ r ∈ rs, ∃ seg, r.seg? = some seg

theorem recordAt_of_packedPathValidKeyTo (h : packedPathValidKeyTo (fuel + 1) (len :: rest) = true) :
    ∃ r : PathRecord, r.seg? = some (rest.take len.toNat) ∧ len :: rest = r.wire ++ rest.drop len.toNat ∧
      packedPathValidKeyTo fuel (rest.drop len.toNat) = true := by
  rw [packedPathValidKeyTo] at h
  split at h
  · cases h
  next hlen =>
  split at h
  · cases h
  next hroom =>
    have hle : len.toNat ≤ rest.length := Nat.not_lt.mp hroom
    refine ⟨.literal (rest.take len.toNat) (take_ne_nil hlen hle) (length_take_le len rest), rfl, ?_, h⟩
    rw [PathRecord.wire, ofNat_length_take hle, cons_append, take_append_drop]

theorem packedPathValidKeyTo_wireOf (h : AllLiteral rs)
    (hfuel : (wireOf rs).length ≤ fuel) : packedPathValidKeyTo fuel (wireOf rs) = true := by
  induction rs generalizing fuel with
  | nil => cases fuel <;> rfl
  | cons r rs ih =>
    obtain ⟨seg, hseg⟩ := h r mem_cons_self
    cases r with
    | escape kind payload fits => cases hseg
    | literal seg' ne fits =>
      have hlen := toNat_ofNat_length fits
      have hne : UInt8.ofNat seg'.length ≠ 0 := by
        intro hzero
        rw [hzero] at hlen
        exact ne (length_eq_zero_iff.mp hlen.symm)
      rw [wireOf_cons, PathRecord.wire, cons_append, length_cons] at hfuel
      obtain ⟨fuel, rfl⟩ : ∃ k, fuel = k + 1 := ⟨fuel - 1, by omega⟩
      rw [wireOf_cons, PathRecord.wire, cons_append, packedPathValidKeyTo, if_neg hne, hlen,
        if_neg (by rw [length_append]; omega), drop_left' rfl]
      rw [length_append] at hfuel
      exact ih (fun r hr => h r (mem_cons_of_mem _ hr)) (by omega)

/-- **A body is a key when it is a run of literal records.** -/
theorem packedPathValidKey_iff {body : Bytes} :
    packedPathValidKey body = true ↔ ∃ rs, AllLiteral rs ∧ body = wireOf rs := by
  constructor
  · have hto : ∀ fuel body, packedPathValidKeyTo fuel body = true →
        ∃ rs, AllLiteral rs ∧ body = wireOf rs := by
      intro fuel
      induction fuel with
      | zero =>
        intro body h
        cases body with
        | nil => exact ⟨[], (forall_mem_nil _), rfl⟩
        | cons len rest => cases h
      | succ fuel ih =>
        intro body h
        cases body with
        | nil => exact ⟨[], (forall_mem_nil _), rfl⟩
        | cons len rest =>
          obtain ⟨r, hseg, hwire, hmore⟩ := recordAt_of_packedPathValidKeyTo h
          obtain ⟨rs, hall, hrest⟩ := ih _ hmore
          refine ⟨r :: rs, ?_, ?_⟩
          · intro r' hr'
            obtain rfl | hr' := mem_cons.mp hr'
            · exact ⟨_, hseg⟩
            · exact hall r' hr'
          · rw [wireOf_cons, ← hrest, hwire]
    exact hto body.length body
  · intro h
    obtain ⟨rs, hall, rfl⟩ := h
    exact packedPathValidKeyTo_wireOf hall le_rfl

theorem exists_literals {segs : List Bytes}
    (h : ∀ seg ∈ segs, seg ≠ [] ∧ seg.length ≤ kPackedSegMaxBytes) :
    ∃ rs, AllLiteral rs ∧ wireOf rs = segs.flatMap storePathSegment ∧
      rs.filterMap PathRecord.seg? = segs := by
  induction segs with
  | nil => exact ⟨[], (forall_mem_nil _), rfl, rfl⟩
  | cons seg segs ih =>
    obtain ⟨hne, hfits⟩ := h seg mem_cons_self
    obtain ⟨rs, hall, hwire, hsegs⟩ := ih fun s hs => h s (mem_cons_of_mem _ hs)
    refine ⟨.literal seg hne hfits :: rs, ?_, ?_, ?_⟩
    · intro r hr
      obtain rfl | hr := mem_cons.mp hr
      · exact ⟨seg, rfl⟩
      · exact hall r hr
    · rw [wireOf_cons, hwire, flatMap_cons, storePathSegment,
        if_neg (not_or.mpr ⟨hne, Nat.not_lt.mpr hfits⟩)]
      rfl
    · rw [filterMap_cons, hsegs]
      rfl

/-! ## The `PAIR` element -/

/-- `pair_t`: a slot index and the generation it was issued under. -/
structure PathPair where
  index : BitVec 32
  generation : BitVec 32
  deriving DecidableEq, Repr

def kPathPairKind : UInt8 := 0x16

def kPathPairBodyBytes : Nat := 8

def kPathPairRecordBytes : Nat := kPackedEscapeOverhead + kPathPairBodyBytes

def pathPairRecordValid (kind payloadLen : UInt8) : Bool :=
  kind == kPathPairKind && payloadLen.toNat == kPathPairBodyBytes

def pathPairStore (p : PathPair) : Bytes :=
  0 :: kPathPairKind :: UInt8.ofNat kPathPairBodyBytes ::
    (LittleEndian.store p.index.toNat 4 ++ LittleEndian.store p.generation.toNat 4)

@[simp] theorem length_pathPairStore (p : PathPair) : (pathPairStore p).length = kPathPairRecordBytes := by
  simp [pathPairStore, kPathPairRecordBytes, kPackedEscapeOverhead, kPathPairBodyBytes]

/-- A `PAIR` is one record. -/
def PathRecord.ofPair (p : PathPair) : PathRecord :=
  .escape kPathPairKind
    (LittleEndian.store p.index.toNat 4 ++ LittleEndian.store p.generation.toNat 4)
    (by simp [kPackedSegMaxBytes])

end LibTracer.Wire
