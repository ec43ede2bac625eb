import LibTracer.Wire.PackedPath

/-!
# The elements of a packed path (`path_element.hpp`)

`path_element_at` says what the record at an offset is, a cursor hands the elements of a body out and
stops at the first that refuses the address, `emit_path_element` spells an element back.  Which bytes
are a record is `recordAt`'s to say, for this walk as for the router's `readPackedSeg`.

* **`walkElements_emits`** : walking undoes emitting, and emitting undoes an accepted walk.
-/

namespace LibTracer.Wire

open List
open LittleEndian (load load_store_of_lt store store_load store_mod)
open Crc (Bytes)

/-- `path_element_t` by its kind, with what the kind carries; the record's place is the walk's. -/
inductive PathElement where
  | SEGMENT (payload : Bytes)
  | PAIR (pair : PathPair)
  | FOREIGN (escapeKind : UInt8) (payload : Bytes)
  | MALFORMED
  deriving DecidableEq

def pathPairLoad (payload : Bytes) : PathPair :=
  ⟨BitVec.ofNat 32 (load (payload.take 4)), BitVec.ofNat 32 (load ((payload.drop 4).take 4))⟩

/-- The element a whole record is: a `0x16` of another size than a `PAIR`'s refuses the address. -/
def PathRecord.element : PathRecord → PathElement
  | .literal seg _ _ => .SEGMENT seg
  | .escape kind payload _ =>
    if kind ≠ kPathPairKind then .FOREIGN kind payload
    else if !pathPairRecordValid kind (UInt8.ofNat payload.length) then .MALFORMED
    else .PAIR (pathPairLoad payload)

/-- `path_element_at`: the element at `pos` and the bytes of its record, none when it is ragged. -/
def pathElementAt (body : Bytes) (pos : Nat) : PathElement × Nat :=
  match recordAt (body.drop pos) with
  | none => (.MALFORMED, 0)
  | some (r, _) => (r.element, r.wire.length)

/-- `path_element_cursor_t::next` from `pos` until it is done; a refusal is handed out once. -/
def walkElementsFrom (body : Bytes) : Nat → Nat → List (PathElement × Nat)
  | 0, _ => []
  | fuel + 1, pos =>
    if pos ≥ body.length then []
    else
      let el := pathElementAt body pos
      el :: walkElementsFrom body fuel (if el.1 = .MALFORMED then body.length else pos + el.2)

def walkElements (body : Bytes) : List (PathElement × Nat) := walkElementsFrom body body.length 0

/-- `emit_path_element`: what it appends, nothing when it answers false. -/
def emitPathElement : PathElement → Option Bytes
  | .SEGMENT seg =>
    if seg = [] ∨ kPackedSegMaxBytes < seg.length then none
    else some (UInt8.ofNat seg.length :: seg)
  | .PAIR p => some (pathPairStore p)
  | .FOREIGN kind payload =>
    if kPackedSegMaxBytes < payload.length then none
    else some (0 :: kind :: UInt8.ofNat payload.length :: payload)
  | .MALFORMED => none

def emitAll : List PathElement → Option Bytes
  | [] => some []
  | el :: els => (emitPathElement el).bind fun bytes => (emitAll els).map (bytes ++ ·)

/-- The elements that have a spelling. -/
def PathElement.Legal : PathElement → Prop
  | .SEGMENT seg => seg ≠ [] ∧ seg.length ≤ kPackedSegMaxBytes
  | .PAIR _ => True
  | .FOREIGN kind payload => kind ≠ kPathPairKind ∧ payload.length ≤ kPackedSegMaxBytes
  | .MALFORMED => False

/-! ## Records and elements -/

theorem pathPairLoad_store (p : PathPair) : pathPairLoad
    (store p.index.toNat 4 ++ store p.generation.toNat 4) = p := by
  have hi : load (store p.index.toNat 4) = p.index.toNat :=
    load_store_of_lt p.index.isLt
  have hg : load (store p.generation.toNat 4) = p.generation.toNat :=
    load_store_of_lt p.generation.isLt
  rw [pathPairLoad, take_left' (by simp), drop_left' (by simp), take_of_length_le (by simp), hi, hg,
    BitVec.ofNat_toNat, BitVec.ofNat_toNat, BitVec.setWidth_eq, BitVec.setWidth_eq]

theorem store_load_word {bs : Bytes} (h : bs.length = 4) :
    store (BitVec.ofNat 32 (load bs)).toNat 4 = bs := by
  rw [BitVec.toNat_ofNat, show 2 ^ 32 = 256 ^ 4 from rfl, store_mod, ← h, store_load]

theorem store_pathPairLoad {payload : Bytes} (h : payload.length = kPathPairBodyBytes) :
    pathPairStore (pathPairLoad payload) =
      0 :: kPathPairKind :: UInt8.ofNat payload.length :: payload := by
  rw [kPathPairBodyBytes] at h
  have hhi : (payload.drop 4).length = 4 := by rw [length_drop, h]
  rw [pathPairStore, pathPairLoad, take_of_length_le hhi.le, store_load_word (by simp [h]),
    store_load_word hhi, take_append_drop, h]
  rfl

variable {r : PathRecord} {els : List PathElement} {body : Bytes}

theorem element_eq_segment {seg : Bytes} : r.element = .SEGMENT seg ↔ r.seg? = some seg := by
  cases r with
  | literal => simp [PathRecord.element, PathRecord.seg?]
  | escape =>
    simp only [PathRecord.element, PathRecord.seg?]
    split <;> [skip; split] <;> simp

theorem exists_record {el : PathElement} (h : el.Legal) : ∃ r : PathRecord, r.element = el := by
  cases el with
  | SEGMENT seg => exact ⟨.literal seg h.1 h.2, rfl⟩
  | PAIR p =>
    refine ⟨.ofPair p, ?_⟩
    simp [PathRecord.ofPair, PathRecord.element, pathPairLoad_store, pathPairRecordValid, kPathPairBodyBytes]
  | FOREIGN kind payload => exact ⟨.escape kind payload h.2, if_pos h.1⟩
  | MALFORMED => cases h

theorem emit_element (h : r.element ≠ .MALFORMED) : emitPathElement r.element = some r.wire := by
  cases r with
  | literal seg ne fits => exact if_neg (not_or.mpr ⟨ne, Nat.not_lt.mpr fits⟩)
  | escape kind payload fits =>
    rw [PathRecord.element] at h ⊢
    split
    · exact if_neg (Nat.not_lt.mpr fits)
    next hkind =>
    rw [if_neg hkind] at h
    split
    next hbad =>
      exact absurd (if_pos hbad) h
    next hvalid =>
      obtain ⟨rfl, hlen⟩ : kind = kPathPairKind ∧ payload.length = kPathPairBodyBytes := by
        simpa [pathPairRecordValid, toNat_ofNat_length fits] using hvalid
      rw [emitPathElement, store_pathPairLoad hlen, PathRecord.wire]

variable {rs : List PathRecord}

theorem emitAll_map (h : ∀ r ∈ rs, r.element ≠ .MALFORMED) :
    emitAll (rs.map PathRecord.element) = some (wireOf rs) := by
  induction rs with
  | nil => rfl
  | cons r rs ih =>
    obtain ⟨hr, hrs⟩ := forall_mem_cons.mp h
    rw [map_cons, emitAll, emit_element hr, ih hrs]
    rfl

theorem emitAll_eq_none (h : .MALFORMED ∈ els) : emitAll els = none := by
  induction els with
  | nil => cases h
  | cons el els ih =>
    rw [emitAll]
    obtain rfl | h := mem_cons.mp h
    · rfl
    · simp [ih h]

/-! ## The walk -/

theorem walkElementsFrom_wireOf (h : ∀ r ∈ rs, r.element ≠ .MALFORMED) (front : Bytes) {fuel : Nat}
    (hfuel : (wireOf rs).length ≤ fuel) : walkElementsFrom (front ++ wireOf rs) fuel front.length =
      rs.map fun r => (r.element, r.wire.length) := by
  induction rs generalizing front fuel with
  | nil => cases fuel <;> simp [walkElementsFrom]
  | cons r rs ih =>
    obtain ⟨hr, hrs⟩ := forall_mem_cons.mp h
    have hlen := r.two_le_length_wire
    rw [wireOf_cons, length_append] at hfuel
    obtain ⟨fuel, rfl⟩ : ∃ k, fuel = k + 1 := ⟨fuel - 1, by omega⟩
    have hat : pathElementAt (front ++ wireOf (r :: rs)) front.length = (r.element, r.wire.length) := by
      rw [pathElementAt, drop_left' rfl, wireOf_cons, recordAt_wire]
    have hmore := @ih hrs (front ++ r.wire) fuel (by omega)
    rw [append_assoc, ← wireOf_cons, length_append] at hmore
    rw [walkElementsFrom, if_neg (by simp only [wireOf_cons, length_append]; omega), hat]
    simp only [if_neg hr, hmore, map_cons]

theorem walkElements_wireOf (h : ∀ r ∈ rs, r.element ≠ .MALFORMED) :
    walkElements (wireOf rs) = rs.map fun r => (r.element, r.wire.length) :=
  walkElementsFrom_wireOf h [] le_rfl

/-- A walk without a refusal went over whole records to the end. -/
theorem exists_of_walkElementsFrom {fuel pos : Nat} (hfuel : body.length ≤ fuel + pos)
    (h : .MALFORMED ∉ (walkElementsFrom body fuel pos).map Prod.fst) :
    ∃ rs : List PathRecord, (∀ r ∈ rs, r.element ≠ .MALFORMED) ∧ body.drop pos = wireOf rs := by
  induction fuel generalizing pos with
  | zero => exact ⟨[], (forall_mem_nil _), drop_of_length_le (by omega)⟩
  | succ fuel ih =>
    rw [walkElementsFrom] at h
    split at h
    next hdone =>
      exact ⟨[], (forall_mem_nil _), drop_of_length_le hdone⟩
    next hpos =>
    simp only [map_cons, mem_cons, not_or] at h
    obtain ⟨hel, hmore⟩ := h
    rw [if_neg (Ne.symm hel)] at hmore
    cases hrec : recordAt (body.drop pos) with
    | none => simp [pathElementAt, hrec] at hel
    | some p =>
      obtain ⟨r, rest⟩ := p
      simp only [pathElementAt, hrec] at hel hmore
      have hbytes := of_recordAt hrec
      have hlen := r.two_le_length_wire
      obtain ⟨rs, hrs, hrest⟩ := ih (by omega) hmore
      rw [← drop_drop, hbytes, drop_left' rfl] at hrest
      exact ⟨r :: rs, forall_mem_cons.mpr ⟨Ne.symm hel, hrs⟩, by rw [hbytes, hrest, wireOf_cons]⟩

theorem exists_of_walkElements (h : .MALFORMED ∉ (walkElements body).map Prod.fst) :
    ∃ rs : List PathRecord, (∀ r ∈ rs, r.element ≠ .MALFORMED) ∧ body = wireOf rs :=
  exists_of_walkElementsFrom le_rfl h

theorem exists_records (h : ∀ el ∈ els, el.Legal) :
    ∃ rs : List PathRecord, rs.map PathRecord.element = els := by
  induction els with
  | nil => exact ⟨[], rfl⟩
  | cons el els ih =>
    obtain ⟨hel, hels⟩ := forall_mem_cons.mp h
    obtain ⟨r, rfl⟩ := exists_record hel
    obtain ⟨rs, rfl⟩ := ih hels
    exact ⟨r :: rs, rfl⟩

theorem walkElements_fst (h : ∀ r ∈ rs, r.element ≠ .MALFORMED) :
    (walkElements (wireOf rs)).map Prod.fst = rs.map PathRecord.element := by
  rw [walkElements_wireOf h, map_map]
  rfl

/-- **The walk and the emission of path elements undo each other**, and the keys are the bodies whose
    walk yields segments only. -/
theorem walkElements_emits :
    (∀ els : List PathElement, (∀ el ∈ els, el.Legal) → ∃ body, emitAll els = some body ∧
      (walkElements body).map Prod.fst = els ∧ ((walkElements body).map Prod.snd).sum = body.length) ∧
    (∀ body, emitAll ((walkElements body).map Prod.fst) =
      if .MALFORMED ∈ (walkElements body).map Prod.fst then none else some body) ∧
    ∀ body, packedPathValidKey body = true ↔
      ∀ el ∈ (walkElements body).map Prod.fst, ∃ seg, el = .SEGMENT seg := by
  refine ⟨fun els hels => ?_, fun body => ?_, fun body => ?_⟩
  · obtain ⟨rs, rfl⟩ := exists_records hels
    have hok : ∀ r ∈ rs, r.element ≠ .MALFORMED := by
      intro r hr hbad
      have hlegal := hels _ (mem_map_of_mem hr)
      rw [hbad] at hlegal
      exact hlegal
    refine ⟨wireOf rs, emitAll_map hok, walkElements_fst hok, ?_⟩
    rw [walkElements_wireOf hok, map_map, wireOf, length_flatMap]
    rfl
  · split
    · exact emitAll_eq_none ‹_›
    · obtain ⟨rs, hok, rfl⟩ := exists_of_walkElements ‹_›
      rw [walkElements_fst hok, emitAll_map hok]
  · rw [packedPathValidKey_iff]
    constructor
    · rintro ⟨rs, hall, rfl⟩
      have hseg : ∀ r ∈ rs, ∃ seg, r.element = .SEGMENT seg :=
        fun r hr => (hall r hr).imp fun _ => element_eq_segment.mpr
      have hok : ∀ r ∈ rs, r.element ≠ .MALFORMED := by
        intro r hr hbad
        obtain ⟨seg, h⟩ := hseg r hr
        cases hbad.symm.trans h
      rw [walkElements_fst hok]
      intro el hel
      obtain ⟨r, hr, rfl⟩ := mem_map.mp hel
      exact hseg r hr
    · intro hseg
      obtain ⟨rs, hok, rfl⟩ := exists_of_walkElements fun hbad => by
        obtain ⟨seg, h⟩ := hseg _ hbad
        cases h
      rw [walkElements_fst hok] at hseg
      exact ⟨rs, fun r hr => (hseg _ (mem_map_of_mem hr)).imp fun _ => element_eq_segment.mp, rfl⟩

end LibTracer.Wire
