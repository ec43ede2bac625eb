import LibTracer.Graph.FoldedFrame
import LibTracer.Wire.RoundTrip
import Mathlib.Algebra.Order.BigOperators.Group.List

/-!
# How an `:acl` is stored and shown

An `:acl` is written as a container of entries, each a list of named fields in any order.  The parser takes
nothing it does not know, and reading writes the stored list out again.

* **`acl_stored_as_spelt`** — what is accepted is enforced and shown as spelt, if the list written out is
  shorter than 4 GiB.
-/

namespace LibTracer.Graph

open Wire Wire.Grammar List
open LittleEndian (load load_lt load_store_of_lt store)
open Crc (Bytes)

/-! ## The parser -/

def ACL : UInt8 := 0x0A

/-- The rows of `kAceKeys`. -/
inductive AceKey where
  | type | flags | subject | accessMask | expiresNs
  deriving DecidableEq, Repr

def AceKey.text : AceKey → Bytes
  | .type => octets "type".toList
  | .flags => octets "flags".toList
  | .subject => octets "subject".toList
  | .accessMask => octets "access_mask".toList
  | .expiresNs => octets "expires_ns".toList

/-- The width of a numeric field; the subject is opaque, `kAceOpaque`. -/
def AceKey.width : AceKey → Option Nat
  | .type | .flags => some 1
  | .subject => none
  | .accessMask => some 4
  | .expiresNs => some 8

def aceKeyOf (text : Bytes) : Option AceKey :=
  [AceKey.type, .flags, .subject, .accessMask, .expiresNs].find? (·.text == text)

/-- `tlv_node_t::payload`: a structured value reads as empty. -/
def plainPayload (t : Tlv) : Bytes := if t.opt.pl then [] else t.payload

/-- A value its row takes: `ace_field_ok`, and a numeric one is a VALUE. -/
def fieldOk (k : AceKey) (val : Tlv) : Bool :=
  match k.width with
  | none => !(plainPayload val).isEmpty
  | some w => val.type == VALUE && !(plainPayload val).isEmpty && decide ((plainPayload val).length ≤ w)

/-- The fields of an entry as they were read, `raw`. -/
abbrev AceFields := List (AceKey × Bytes)

/-- `parse_acl_into`: the pairs of one entry, with what was read so far. -/
def readPairs : List Tlv → AceFields → Except Status (AceFields)
  | [], raw => .ok raw
  | [_], _ => .error .TYPE_MISMATCH
  | key :: val :: rest, raw =>
    if key.type ≠ NAME then .error .TYPE_MISMATCH
    else
      match aceKeyOf (plainPayload key) with
      | none => .error .TYPE_MISMATCH
      | some k =>
        if k ∈ raw.map Prod.fst ∨ fieldOk k val = false then .error .TYPE_MISMATCH
        else readPairs rest (raw ++ [(k, plainPayload val)])

def fieldAt (raw : AceFields) (k : AceKey) : Bytes :=
  ((raw.find? (·.1 == k)).map Prod.snd).getD []

/-- `load_le` of a field. -/
def wordAt (raw : AceFields) (k : AceKey) : Nat := LittleEndian.load ((fieldAt raw k).take 8)

/-- `kAcceptsDeny` -/
def AclPolicy.acceptsDeny : AclPolicy → Nat
  | .allowOnly => 0
  | .full => 1

/-- `parse_acl_into`: the required fields and the values that are stored; INHERIT is the one flag, and
READ and WRITE are the rights. -/
def aceOf (policy : AclPolicy) (raw : AceFields) : Except Status Ace :=
  if (∀ k ∈ [AceKey.type, .subject, .accessMask], k ∈ raw.map Prod.fst) ∧
      wordAt raw .type ≤ policy.acceptsDeny ∧ wordAt raw .flags ≤ 1 ∧ wordAt raw .accessMask ≤ 3 then
    .ok { type := if wordAt raw .type = 0 then .ALLOW else .DENY
          flags := BitVec.ofNat 8 (wordAt raw .flags)
          subject := segment (fieldAt raw .subject)
          accessMask := BitVec.ofNat 32 (wordAt raw .accessMask)
          expiresNs := BitVec.ofNat 64 (wordAt raw .expiresNs) }
  else .error .TYPE_MISMATCH

def parseEntry (policy : AclPolicy) (entry : Tlv) : Except Status Ace :=
  if entry.type ≠ ACL ∨ entry.opt.pl = false then .error .TYPE_MISMATCH
  else
    match readPairs entry.children [] with
    | .error e => .error e
    | .ok raw => aceOf policy raw

/-- `parse_acl`, its array reserved. -/
def parseAcl (policy : AclPolicy) : List Tlv → Except Status (List Ace)
  | [] => .ok []
  | entry :: entries =>
    match parseEntry policy entry with
    | .error e => .error e
    | .ok a =>
      match parseAcl policy entries with
      | .error e => .error e
      | .ok as => .ok (a :: as)

/-! ## Writing and reading -/

/-- `emit_tlv` -/
def emitTlv (type : UInt8) (body : Bytes) : Bytes :=
  emitHeader type (widen {} body.length) body.length ++ body

def pairBytes (key : Bytes) (valueLen : Nat) : Nat :=
  Opt.header {} + key.length + (widen {} valueLen).header + valueLen

def aceEntryBytes (a : Ace) : Nat :=
  pairBytes AceKey.type.text 1 + pairBytes AceKey.flags.text 1 +
    pairBytes AceKey.subject.text a.subject.length + pairBytes AceKey.accessMask.text 4 +
    if a.expiresNs ≠ 0 then pairBytes AceKey.expiresNs.text 8 else 0

def putU (k : AceKey) (v width : Nat) : Bytes :=
  emitTlv NAME k.text ++ emitTlv VALUE (LittleEndian.store v width)

/-- The loop body of `encode_acl`; a standing entry has no expiry. -/
def putAce (a : Ace) : Bytes :=
  emitHeader ACL (widen { pl := true } (aceEntryBytes a)) (aceEntryBytes a) ++
    putU .type (if a.type = .DENY then 1 else 0) 1 ++ putU .flags a.flags.toNat 1 ++
    emitTlv NAME AceKey.subject.text ++ emitTlv VALUE (octets a.subject) ++
    putU .accessMask a.accessMask.toNat 4 ++
    if a.expiresNs = 0 then [] else putU .expiresNs a.expiresNs.toNat 8

/-- The size `encode_acl` counts for the body. -/
def aclBytes (aces : List Ace) : Nat :=
  (aces.map fun a => (widen {} (aceEntryBytes a)).header + aceEntryBytes a).sum

def encodeAcl (reserve : Nat → Bool) (aces : List Ace) (out : Bytes) : Option Bytes :=
  if reserve (out.length + (widen {} (aclBytes aces)).header + aclBytes aces) = false then none
  else some (out ++ emitHeader ACL (widen { pl := true } (aclBytes aces)) (aclBytes aces) ++
    aces.flatMap putAce)

/-- What a write of `:acl` meets besides its value. -/
structure AclWrite where
  wholeField : Bool := true
  isLocalOwner : Bool := true
  /-- Where the check of the value draws its stack. -/
  spill : Grammar.BlockSource := serveAll
  /-- The array of parsed entries could be reserved. -/
  reserved : Bool := true
  blocks : AclBlocks := .granted

/-- `write_acl` -/
def writeAclValue (policy : AclPolicy) (g : AclGraph) (k : Key) (value : Bytes) (w : AclWrite) :
    AclGraph × Except Status Unit :=
  if w.wholeField = false then (g, .error .SCHEMA_NOT_FOUND)
  else if w.isLocalOwner = false then (g, .error .PERMISSION_DENIED)
  else
    match TlvNode.overSpan value w.spill with
    | .error _ => (g, .error .TYPE_MISMATCH)
    | .ok n =>
      if n.tree.type ≠ ACL ∨ n.tree.opt.pl = false then (g, .error .TYPE_MISMATCH)
      else if w.reserved = false then (g, .error .BACKPRESSURE)
      else
        match parseAcl policy n.tree.children with
        | .error e => (g, .error e)
        | .ok aces =>
          (writeAcl g k aces w.blocks, if w.blocks = .granted then .ok () else .error .BACKPRESSURE)

/-- `graph_t::read_acl`; `backend` grants the segment of the answer. -/
def readAcl (reserve backend : Nat → Bool) (g : AclGraph) (k : Key) : Except Status Bytes :=
  match (g k).acl with
  | none => .error .NOT_FOUND
  | some a =>
    if a.present = false then .error .NOT_FOUND
    else
      match encodeAcl reserve a.aces [] with
      | none => .error .BACKPRESSURE
      | some b => if backend b.length then .ok b else .error .BACKPRESSURE

/-! ## The fields of a list -/

/-- The fields `encode_acl` writes for an entry. -/
def encodeFields (a : Ace) : AceFields :=
  [(.type, LittleEndian.store (if a.type = .DENY then 1 else 0) 1),
    (.flags, LittleEndian.store a.flags.toNat 1), (.subject, octets a.subject),
    (.accessMask, LittleEndian.store a.accessMask.toNat 4)] ++
  if a.expiresNs = 0 then [] else [(.expiresNs, LittleEndian.store a.expiresNs.toNat 8)]

def aclLeaf (type : UInt8) (body : Bytes) : Tlv := .mk type {} body [] none

def fieldLeaves (raw : AceFields) : List Tlv :=
  raw.flatMap fun f => [aclLeaf NAME f.1.text, aclLeaf VALUE f.2]

def entryTree (raw : AceFields) : Tlv := .mk ACL { pl := true } [] (fieldLeaves raw) none

def aclTree (raws : List (AceFields)) : Tlv :=
  .mk ACL { pl := true } [] (raws.map entryTree) none

def fieldBytes (raw : AceFields) : Bytes := raw.flatMap fun f => emitTlv NAME f.1.text ++ emitTlv VALUE f.2

def entryBytes (raw : AceFields) : Bytes :=
  emitHeader ACL (widen { pl := true } (fieldBytes raw).length) (fieldBytes raw).length ++ fieldBytes raw

theorem sends_fieldLeaves (raw : AceFields) : Sends (fieldLeaves raw) (fieldBytes raw) := by
  induction raw with
  | nil => exact .nil
  | cons f raw ih =>
    exact ((Sends.leaf (by decide) f.1.text).2.append (Sends.leaf (by decide) f.2).2).append ih

theorem sends_entryTree (raw : AceFields) : bodyBytes (entryTree raw) = some (fieldBytes raw).length ∧
    putTlv (entryTree raw) = entryBytes raw := (sends_fieldLeaves raw).branch (by decide)

theorem sends_aclTree (raws : List AceFields) :
    bodyBytes (aclTree raws) = some (raws.flatMap entryBytes).length ∧
      putTlv (aclTree raws) = emitHeader ACL (widen { pl := true } (raws.flatMap entryBytes).length)
        (raws.flatMap entryBytes).length ++ raws.flatMap entryBytes := by
  refine Sends.branch (by decide) ?_
  induction raws with
  | nil => exact .nil
  | cons raw raws ih =>
    obtain ⟨hbody, hput⟩ := sends_entryTree raw
    have hcons := Sends.cons (c := entryTree raw) (by rw [hbody]; rfl) ih
    rwa [hput] at hcons

theorem header_widen (opt : Opt) (h : opt.ll = false) (n : Nat) :
    (widen opt n).header = if n > 0xFFFF then 6 else 4 := by
  unfold widen Opt.header
  split <;> simp [h]

theorem length_emitTlv (type : UInt8) (body : Bytes) :
    (emitTlv type body).length = (widen {} body.length).header + body.length := by
  rw [emitTlv, length_append, length_emitHeader]

theorem widen_key (k : AceKey) : widen {} k.text.length = {} := by cases k <;> decide

theorem length_fieldBytes (raw : AceFields) :
    (fieldBytes raw).length = (raw.map fun f => pairBytes f.1.text f.2.length).sum := by
  rw [fieldBytes, length_flatMap]
  congr 1
  refine map_congr_left fun f _ => ?_
  rw [length_append, length_emitTlv, length_emitTlv, widen_key, pairBytes, ← add_assoc]

theorem aceEntryBytes_eq (a : Ace) : aceEntryBytes a = (fieldBytes (encodeFields a)).length := by
  have hlen : (octets a.subject).length = a.subject.length := length_map _
  rw [length_fieldBytes]
  by_cases h0 : a.expiresNs = 0#64 <;> simp [aceEntryBytes, encodeFields, h0, hlen, add_assoc]

theorem putAce_eq (a : Ace) : putAce a = entryBytes (encodeFields a) := by
  rw [putAce, aceEntryBytes_eq, entryBytes]
  by_cases h0 : a.expiresNs = 0#64 <;> simp [fieldBytes, encodeFields, h0, putU]

theorem aclBytes_eq (aces : List Ace) :
    aclBytes aces = ((aces.map encodeFields).flatMap entryBytes).length := by
  rw [aclBytes, flatMap_map, length_flatMap]
  congr 1
  refine map_congr_left fun a _ => ?_
  rw [entryBytes, length_append, length_emitHeader, aceEntryBytes_eq, header_widen _ rfl, header_widen _ rfl]

/-- **`encode_acl` appends the bytes of the list**, as the codec has them. -/
theorem encodeAcl_eq (reserve : Nat → Bool) (aces : List Ace) (out : Bytes) : encodeAcl reserve aces out =
      if reserve (out.length + (widen {} (aclBytes aces)).header + aclBytes aces) = false then none
      else some (out ++ putTlv (aclTree (aces.map encodeFields))) := by
  rw [encodeAcl, (sends_aclTree _).2, ← aclBytes_eq, flatMap_map, append_assoc]
  rw [show putAce = fun a => entryBytes (encodeFields a) from funext putAce_eq]

/-! ## What a value spells -/

/-- An entry that can be stored. -/
structure Storable (policy : AclPolicy) (a : Ace) : Prop where
  type : a.type = .DENY → policy = .full
  flags : a.flags.toNat ≤ 1
  rights : a.accessMask.toNat ≤ 3
  named : a.subject ≠ []
  octet : ∀ c ∈ a.subject, c.toNat < 256

def Ace.word (a : Ace) : AceKey → Nat
  | .type => if a.type = .DENY then 1 else 0
  | .flags => a.flags.toNat
  | .subject => 0
  | .accessMask => a.accessMask.toNat
  | .expiresNs => a.expiresNs.toNat

/-- A field as it may be written: a NAME that spells its key, and a value its row takes. -/
structure SpeltField where
  key : AceKey
  name : Tlv
  val : Tlv
  isName : name.type = NAME
  spells : plainPayload name = key.text
  fits : fieldOk key val = true

def SpeltField.raw (f : SpeltField) : AceKey × Bytes := (f.key, plainPayload f.val)

/-- Fields that give an entry: no key twice, none of the required ones missing, and in each what the entry
has there. -/
structure Gives (policy : AclPolicy) (raw : AceFields) (a : Ace) : Prop where
  required : ∀ k ∈ [AceKey.type, .subject, .accessMask], k ∈ raw.map Prod.fst
  words : ∀ k, k ≠ .subject → wordAt raw k = a.word k
  subject : a.subject = segment (fieldAt raw .subject)
  storable : Storable policy a

def SpellsAce (policy : AclPolicy) (entry : Tlv) (a : Ace) : Prop :=
  entry.type = ACL ∧ entry.opt.pl = true ∧ ∃ fs : List SpeltField,
    entry.children = fs.flatMap (fun f => [f.name, f.val]) ∧ (fs.map (·.key)).Nodup ∧
      Gives policy (fs.map SpeltField.raw) a

def SpellsAcl (policy : AclPolicy) (entries : List Tlv) (aces : List Ace) : Prop :=
  List.Forall₂ (SpellsAce policy) entries aces

/-- Bytes that spell a list: a container of its entries. -/
def Spells (policy : AclPolicy) (value : Bytes) (aces : List Ace) : Prop :=
  ∃ n, TlvNode.overSpan value serveAll = .ok n ∧ n.tree.type = ACL ∧ n.tree.opt.pl = true ∧
    SpellsAcl policy n.tree.children aces

variable {k : AceKey}

theorem aceKeyOf_eq_some {text : Bytes} : aceKeyOf text = some k ↔ text = k.text := by
  constructor
  · intro h
    rw [aceKeyOf] at h
    exact (beq_iff_eq.mp (find?_some (p := fun k : AceKey => k.text == text) h)).symm
  · rintro rfl
    cases k <;> decide

variable {raw : AceFields}

theorem of_readPairs {kids : List Tlv} {out : AceFields}
    (h : readPairs kids raw = .ok out) : ∃ fs : List SpeltField,
      kids = fs.flatMap (fun f => [f.name, f.val]) ∧ out = raw ++ fs.map SpeltField.raw ∧
        (fs.map (·.key)).Nodup ∧ ∀ f ∈ fs, f.key ∉ raw.map Prod.fst := by
  fun_induction readPairs kids raw with
  | case1 raw =>
    cases h
    exact ⟨[], rfl, (append_nil _).symm, nodup_nil, by simp⟩
  | case2 | case3 | case4 | case5 => cases h
  | case6 key val rest raw hname k hk hnew ih =>
    obtain ⟨fs, rfl, rfl, hnodup, hout⟩ := ih h
    rw [not_or, Bool.not_eq_false] at hnew
    refine ⟨⟨k, key, val, not_not.mp hname, aceKeyOf_eq_some.mp hk, hnew.2⟩ :: fs, rfl,
      append_assoc _ _ _, ?_, ?_⟩
    · refine nodup_cons.mpr ⟨fun hmem => ?_, hnodup⟩
      obtain ⟨f, hf, heq⟩ := mem_map.mp hmem
      exact hout f hf (by simp [show f.key = k from heq])
    · exact forall_mem_cons.mpr ⟨hnew.1, fun f hf hmem => hout f hf (by simp [hmem])⟩

variable {fs : List SpeltField}

theorem readPairs_fields (hnodup : (fs.map (·.key)).Nodup) (hout : ∀ f ∈ fs, f.key ∉ raw.map Prod.fst) :
    readPairs (fs.flatMap fun f => [f.name, f.val]) raw = .ok (raw ++ fs.map SpeltField.raw) := by
  induction fs generalizing raw with
  | nil => simp [readPairs]
  | cons f fs ih =>
    obtain ⟨hone, hnodup⟩ := nodup_cons.mp hnodup
    rw [forall_mem_cons] at hout
    rw [flatMap_cons, cons_append, cons_append, nil_append, readPairs,
      if_neg (not_not.mpr f.isName), aceKeyOf_eq_some.mpr f.spells]
    dsimp only
    rw [if_neg (by simp [hout.1, f.fits]), ih hnodup ?_, append_assoc]
    · rfl
    · intro f' hf' hmem
      rw [map_append, mem_append] at hmem
      rcases hmem with hmem | hmem
      · exact hout.2 f' hf' hmem
      · exact hone (mem_map.mpr ⟨f', hf', by simpa using hmem⟩)

/-! ## Entries and their fields -/

theorem toNat_segment (b : UInt8) : (Char.ofNat b.toNat).toNat = b.toNat := by
  have hvalid : b.toNat.isValidChar := .inl (Nat.lt_trans b.toNat_lt (by decide))
  rw [Char.ofNat, dif_pos hvalid]
  rfl

theorem wordAt_lt (raw : AceFields) (k : AceKey) : wordAt raw k < 2 ^ 64 :=
  Nat.lt_of_lt_of_le (load_lt _)
    (Nat.pow_le_pow_right (by decide : 0 < 256) (List.length_take_le 8 _))

theorem fieldAt_ne_nil (h : k ∈ (fs.map SpeltField.raw).map Prod.fst) :
    fieldAt (fs.map SpeltField.raw) k ≠ [] := by
  obtain ⟨r, hr, rfl⟩ := mem_map.mp h
  cases hfind : (fs.map SpeltField.raw).find? (·.1 == r.1) with
  | none => exact absurd (beq_self_eq_true r.1) (find?_eq_none.mp hfind r hr)
  | some q =>
    obtain ⟨f, -, rfl⟩ := mem_map.mp (mem_of_find?_eq_some hfind)
    have hfits := f.fits
    rw [fieldAt, hfind]
    intro hnil
    rw [fieldOk, show plainPayload f.val = [] from hnil] at hfits
    split at hfits <;> simp at hfits

variable {policy : AclPolicy} {a : Ace}

theorem gives_of_aceOf
    (h : aceOf policy (fs.map SpeltField.raw) = .ok a) : Gives policy (fs.map SpeltField.raw) a := by
  rw [aceOf] at h
  split at h
  case isFalse => cases h
  rename_i hok
  obtain ⟨hreq, htype, hflags, hmask⟩ := hok
  have hexp := wordAt_lt (fs.map SpeltField.raw) .expiresNs
  have hdeny : policy.acceptsDeny ≤ 1 := by cases policy <;> decide
  cases h
  refine ⟨hreq, fun k hk => ?_, rfl, ⟨fun hd => ?_, ?_, ?_, ?_, ?_⟩⟩
  · cases k <;> simp only [Ace.word, BitVec.toNat_ofNat]
    · by_cases h0 : wordAt (fs.map SpeltField.raw) .type = 0
      · simp [h0]
      · simp only [h0, if_false, if_true]
        omega
    · omega
    · exact absurd rfl hk
    · omega
    · omega
  · by_contra hp
    have hzero : policy.acceptsDeny = 0 := by cases policy <;> simp_all [AclPolicy.acceptsDeny]
    simp only [show wordAt (fs.map SpeltField.raw) .type = 0 by omega, if_true] at hd
    cases hd
  · simp only [BitVec.toNat_ofNat]
    omega
  · simp only [BitVec.toNat_ofNat]
    omega
  · have hne := fieldAt_ne_nil (hreq .subject (by decide))
    simpa [segment] using hne
  · intro c hc
    obtain ⟨b, -, rfl⟩ := mem_map.mp hc
    rw [toNat_segment]
    exact b.toNat_lt

theorem aceOf_of_gives (h : Gives policy raw a) : aceOf policy raw = .ok a := by
  obtain ⟨hreq, hwords, hsubject, hstore⟩ := h
  have htype := hwords .type (by decide)
  have hflags := hwords .flags (by decide)
  have hmask := hwords .accessMask (by decide)
  have hexp := hwords .expiresNs (by decide)
  simp only [Ace.word] at htype hflags hmask hexp
  have hle : wordAt raw .type ≤ policy.acceptsDeny := by
    rw [htype]
    split
    next hd =>
      rw [hstore.type hd]
      decide
    · exact Nat.zero_le _
  rw [aceOf, if_pos ⟨hreq, hle, hflags ▸ hstore.flags, hmask ▸ hstore.rights⟩, htype, hflags, hmask, hexp,
    ← hsubject]
  obtain ⟨type, flags, subject, mask, expires⟩ := a
  cases type <;> simp

variable {aces : List Ace} {entries : List Tlv}

/-- **The parser accepts what spells a list, and gives it.** -/
theorem parseAcl_iff : parseAcl policy entries = .ok aces ↔ SpellsAcl policy entries aces := by
  have hentry : ∀ entry a, parseEntry policy entry = .ok a ↔ SpellsAce policy entry a := by
    intro entry a
    rw [parseEntry]
    split
    next hno =>
      refine ⟨nofun, fun h => absurd hno ?_⟩
      simp [h.1, h.2.1]
    next hyes =>
    rw [not_or, not_not, Bool.not_eq_false] at hyes
    constructor
    · intro h
      split at h
      · cases h
      next raw hraw =>
        obtain ⟨fs, hkids, rfl, hnodup, -⟩ := of_readPairs hraw
        exact ⟨hyes.1, hyes.2, fs, hkids, hnodup, gives_of_aceOf h⟩
    · rintro ⟨-, -, fs, hkids, hnodup, hgives⟩
      rw [hkids, readPairs_fields hnodup (by simp)]
      exact aceOf_of_gives hgives
  induction entries generalizing aces with
  | nil =>
    constructor
    · rintro ⟨⟩
      exact .nil
    · rintro ⟨⟩
      rfl
  | cons entry entries ih =>
    rw [parseAcl]
    constructor
    · intro h
      split at h
      · cases h
      rename_i a ha
      split at h
      · cases h
      rename_i as has
      cases h
      exact .cons ((hentry entry a).mp ha) (ih.mp has)
    · rintro ⟨⟩
      rename_i a as ha has
      rw [(hentry entry a).mpr ha, ih.mpr has]

theorem fits_encodeFields (h : Storable policy a) :
    ∀ f ∈ encodeFields a, fieldOk f.1 (aclLeaf VALUE f.2) = true := by
  have hsubject : fieldOk .subject (aclLeaf VALUE (octets a.subject)) = true := by
    simp [fieldOk, AceKey.width, plainPayload, aclLeaf, octets, h.named]
  have hword : ∀ (k : AceKey) (n w : Nat), k.width = some w → 0 < w →
      fieldOk k (aclLeaf VALUE (store n w)) = true := by
    intro k n w hw hpos
    have hne : store n w ≠ [] := ne_nil_of_length_pos (by simpa using hpos)
    simp [fieldOk, hw, plainPayload, aclLeaf, hne]
  intro f hf
  rw [encodeFields, mem_append] at hf
  rcases hf with hf | hf
  · simp only [mem_cons, not_mem_nil, or_false] at hf
    rcases hf with rfl | rfl | rfl | rfl
    · exact hword _ _ _ rfl (by decide)
    · exact hword _ _ _ rfl (by decide)
    · exact hsubject
    · exact hword _ _ _ rfl (by decide)
  · split at hf
    · cases hf
    · rw [mem_singleton.mp hf]
      exact hword _ _ _ rfl (by decide)

theorem plainPayload_sent (type : UInt8) (body : Bytes) : plainPayload (sent (aclLeaf type body)) = body := by
  simp [aclLeaf, sent, plainPayload]

theorem exists_spelt (h : ∀ f ∈ raw, fieldOk f.1 (aclLeaf VALUE f.2) = true) : ∃ fs : List SpeltField,
      sentAll (fieldLeaves raw) = fs.flatMap (fun f => [f.name, f.val]) ∧
        fs.map (·.key) = raw.map Prod.fst ∧ fs.map SpeltField.raw = raw := by
  rw [sentAll_eq_map, fieldLeaves, map_flatMap]
  induction raw with
  | nil => exact ⟨[], rfl, rfl, rfl⟩
  | cons f raw ih =>
    rw [forall_mem_cons] at h
    obtain ⟨fs, hkids, hkeys, hraw⟩ := ih h.2
    have hfits : fieldOk f.1 (sent (aclLeaf VALUE f.2)) = true := by
      rw [← h.1, fieldOk, fieldOk, plainPayload_sent]
      rfl
    refine ⟨⟨f.1, _, _, rfl, plainPayload_sent NAME f.1.text, hfits⟩ :: fs, ?_, ?_, ?_⟩
    · rw [flatMap_cons, flatMap_cons, hkids]
      rfl
    · rw [map_cons, map_cons, hkeys]
    · rw [map_cons, hraw, SpeltField.raw, plainPayload_sent]

theorem spells_entryTree (hfits : ∀ f ∈ raw, fieldOk f.1 (aclLeaf VALUE f.2) = true)
    (hkeys : (raw.map Prod.fst).Nodup) (h : Gives policy raw a) : SpellsAce policy (sent (entryTree raw)) a := by
  obtain ⟨fs, hkids, hfields, hraw⟩ := exists_spelt hfits
  refine ⟨rfl, ?_, fs, ?_, hfields ▸ hkeys, hraw.symm ▸ h⟩
  · rw [entryTree, sent]
    exact widen_pl _ _
  · rw [entryTree, sent]
    exact hkids

/-- **The fields of an entry that can be stored give it.** -/
theorem gives_encodeFields (h : Storable policy a) :
    ((encodeFields a).map Prod.fst).Nodup ∧ Gives policy (encodeFields a) a := by
  have hload : ∀ n w, n < 256 ^ w → w ≤ 8 →
      load ((store n w).take 8) = n := by
    intro n w hn hw
    rw [take_of_length_le (by simpa using hw)]
    exact load_store_of_lt hn
  constructor
  · rw [encodeFields, map_append]
    by_cases h0 : a.expiresNs = 0
    · rw [if_pos h0]
      show [AceKey.type, .flags, .subject, .accessMask].Nodup
      decide
    rw [if_neg h0]
    show [AceKey.type, .flags, .subject, .accessMask, .expiresNs].Nodup
    decide
  · refine ⟨by simp [encodeFields], fun k hk => ?_, (spelt_eq h.octet).symm, h⟩
    cases k with
    | type =>
      refine hload _ 1 ?_ (by decide)
      split <;> decide
    | flags => exact hload _ 1 a.flags.isLt (by decide)
    | subject => exact absurd rfl hk
    | accessMask => exact hload _ 4 a.accessMask.isLt (by decide)
    | expiresNs =>
      by_cases h0 : a.expiresNs = 0
      · simp [wordAt, fieldAt, encodeFields, h0, Ace.word]
      have hfield : fieldAt (encodeFields a) .expiresNs = store a.expiresNs.toNat 8 := by
        rw [fieldAt, encodeFields, if_neg h0]
        rfl
      rw [wordAt, hfield]
      exact hload _ 8 a.expiresNs.isLt (by decide)

theorem storable_of_spells (h : SpellsAcl policy entries aces) : ∀ a ∈ aces, Storable policy a := by
  induction h with
  | nil => simp
  | cons hone _ ih =>
    obtain ⟨-, -, fs, -, -, hgives⟩ := hone
    exact forall_mem_cons.mpr ⟨hgives.storable, ih⟩

/-! ## The bytes of a list -/

variable {raws : List (AceFields)}

theorem all_aclTree {P : Tlv → Prop} (hroot : P (aclTree raws)) (hentry : ∀ r ∈ raws, P (entryTree r))
    (hleaf : ∀ r ∈ raws, ∀ f ∈ r, P (aclLeaf NAME f.1.text) ∧ P (aclLeaf VALUE f.2)) :
    (aclTree raws).All P := by
  refine TlvOf.all_mk.mpr ⟨hroot, fun e he => ?_⟩
  obtain ⟨r, hr, rfl⟩ := mem_map.mp he
  refine TlvOf.all_mk.mpr ⟨hentry r hr, fun c hc => ?_⟩
  obtain ⟨f, hf, hc⟩ := mem_flatMap.mp hc
  simp only [mem_cons, not_mem_nil, or_false] at hc
  rcases hc with rfl | rfl
  · exact TlvOf.all_mk.mpr ⟨(hleaf r hr f hf).1, forall_mem_nil _⟩
  · exact TlvOf.all_mk.mpr ⟨(hleaf r hr f hf).2, forall_mem_nil _⟩

theorem length_le_flatMap {α : Type} {f : α → Bytes} {l : List α} {a : α} (h : a ∈ l) :
    (f a).length ≤ (l.flatMap f).length := by
  rw [length_flatMap]
  exact single_le_sum (fun _ _ => Nat.zero_le _) _ (mem_map_of_mem h)

theorem short_aclTree (h : (raws.flatMap entryBytes).length < 2 ^ 32) : (aclTree raws).All Short := by
  have hentry : ∀ r ∈ raws, (fieldBytes r).length < 2 ^ 32 := by
    intro r hr
    have hle := length_le_flatMap (f := entryBytes) hr
    rw [entryBytes, length_append] at hle
    omega
  refine all_aclTree ?_ (fun r hr => ?_) fun r hr f hf => ?_
  · rwa [Short, (sends_aclTree raws).1]
  · rw [Short, (sends_entryTree r).1]
    exact hentry r hr
  · have hle := length_le_flatMap (f := fun f : AceKey × Bytes => emitTlv NAME f.1.text ++ emitTlv VALUE f.2) hf
    have hlt := hentry r hr
    unfold fieldBytes at hlt
    rw [length_append, length_emitTlv, length_emitTlv] at hle
    rw [Short, Short, aclLeaf, aclLeaf, (Sends.leaf (by decide) _).1, (Sends.leaf (by decide) _).1]
    simp only [Option.getD_some]
    omega

/-- **Fields written out spell the list they give**, if they take less than 4 GiB. -/
theorem spells_aclTree (hsize : (raws.flatMap entryBytes).length < 2 ^ 32)
    (h : Forall₂ (fun raw a => (∀ f ∈ raw, fieldOk f.1 (aclLeaf VALUE f.2) = true) ∧
      (raw.map Prod.fst).Nodup ∧ Gives policy raw a) raws aces) :
    Spells policy (putTlv (aclTree raws)) aces := by
  have hacl : ACL ≠ 0 := by decide
  obtain ⟨nd, hp, htree⟩ := parses_put _ _ (sends_aclTree raws).1
    (all_aclTree hacl (fun _ _ => hacl) fun _ _ _ _ => ⟨show NAME ≠ 0 by decide, show VALUE ≠ 0 by decide⟩)
    (short_aclTree hsize)
  refine ⟨nodeOf nd, over_of_parses hp, ?_⟩
  rw [(tree_of_parses hp).1, htree, aclTree, sent]
  refine ⟨rfl, widen_pl _ _, ?_⟩
  show SpellsAcl policy (sentAll (raws.map entryTree)) aces
  clear hp htree hsize
  induction h with
  | nil => exact .nil
  | cons hone _ ih => exact .cons (spells_entryTree hone.1 hone.2.1 hone.2.2) ih

theorem spells_encodeAcl (h : ∀ a ∈ aces, Storable policy a) (hsize : aclBytes aces < 2 ^ 32) :
    Spells policy (putTlv (aclTree (aces.map encodeFields))) aces := by
  refine spells_aclTree (aclBytes_eq aces ▸ hsize) ?_
  clear hsize
  induction aces with
  | nil => exact .nil
  | cons a aces ih =>
    rw [forall_mem_cons] at h
    exact .cons ⟨fits_encodeFields h.1, gives_encodeFields h.1⟩ (ih h.2)

theorem Spells.unique {value : Bytes} {other : List Ace} (h : Spells policy value aces)
    (h' : Spells policy value other) : other = aces := by
  obtain ⟨n, hn, -, -, hspells⟩ := h
  obtain ⟨n', hn', -, -, hspells'⟩ := h'
  cases hn.symm.trans hn'
  exact Except.ok.inj ((parseAcl_iff.mpr hspells').symm.trans (parseAcl_iff.mpr hspells))

/-! ## Stored, enforced and shown -/

/-- The gate answers from the lists in force: as the reference does when its blocks are granted, and never
more openly. -/
def Enforces (policy : AclPolicy) (g : AclGraph) (a : AclSpec) : Prop :=
  ∀ lookup v caller right,
    (aclAllows policy lookup (fun _ => true) g v caller right).1 = reference policy lookup a v caller right ∧
    ∀ grants, (aclAllows policy lookup grants g v caller right).1 = true →
      reference policy lookup a v caller right = true

theorem Agrees.enforces {g : AclGraph} {a : AclSpec} (h : Agrees g a) : Enforces policy g a := by
  refine fun lookup v caller right => ⟨?_, fun grants hallow => ?_⟩
  · rcases (h.check policy lookup (fun _ => true) v caller right).1 with heq | ⟨-, hno⟩
    · exact heq
    · exact absurd (fun _ => rfl) hno
  · rcases (h.check policy lookup grants v caller right).1 with heq | ⟨hfalse, -⟩
    · rw [← heq]
      exact hallow
    · rw [hfalse] at hallow
      exact absurd hallow (by decide)

theorem readAcl_writeAcl (g : AclGraph) (k : Key) (aces : List Ace) :
    readAcl (fun _ => true) (fun _ => true) (writeAcl g k aces .granted) k =
      .ok (putTlv (aclTree (aces.map encodeFields))) := by
  have hacl : (writeAcl g k aces .granted k).acl =
      some ⟨aces, (((g k).acl.getD .fresh).eff.invalidate).invalidate, true⟩ := by
    simp [writeAcl, AclVertex.setAcl, AclGraph.onSubtree, AclVertex.markAclCacheDirty]
  simp [readAcl, hacl, encodeAcl_eq]

theorem readAcl_refused {blocks : AclBlocks} (hb : blocks ≠ .granted) (reserve backend : Nat → Bool)
    (g : AclGraph) (k : Key) (aces : List Ace) :
    readAcl reserve backend (writeAcl g k aces blocks) k = readAcl reserve backend g k := by
  cases blocks with
  | granted => exact absurd rfl hb
  | stateRefused => simp [writeAcl, AclVertex.setAcl]
  | tableRefused => cases hv : (g k).acl <;> simp [readAcl, writeAcl, AclVertex.setAcl, hv, AclState.fresh]

/-- A write that nothing but its value can refuse. -/
structure AclWrite.Granted (w : AclWrite) : Prop where
  whole : w.wholeField = true
  owner : w.isLocalOwner = true
  spill : w.spill = serveAll
  reserved : w.reserved = true
  blocks : w.blocks = .granted

theorem writeAclValue_cases (policy : AclPolicy) (g : AclGraph) (k : Key) (value : Bytes) (w : AclWrite) :
    ((writeAclValue policy g k value w).1 = g ∧ (writeAclValue policy g k value w).2 ≠ .ok () ∧
      (w.Granted → ∀ spelt, ¬Spells policy value spelt)) ∨
    ∃ spelt, Spells policy value spelt ∧ writeAclValue policy g k value w =
      (writeAcl g k spelt w.blocks, if w.blocks = .granted then .ok () else .error .BACKPRESSURE) := by
  fun_cases writeAclValue policy g k value w with
  | case1 h => exact .inl ⟨rfl, nofun, fun hw => absurd hw.whole (by simp [h])⟩
  | case2 _ h => exact .inl ⟨rfl, nofun, fun hw => absurd hw.owner (by simp [h])⟩
  | case3 _ _ e hover =>
    refine .inl ⟨rfl, nofun, fun hw spelt hspells => ?_⟩
    obtain ⟨n, hn, -⟩ := hspells
    rw [hw.spill, hn] at hover
    cases hover
  | case4 _ _ n hover hshape =>
    refine .inl ⟨rfl, nofun, fun hw spelt hspells => ?_⟩
    obtain ⟨n', hn', htype, hpl, -⟩ := hspells
    rw [hw.spill, hn'] at hover
    cases hover
    simp [htype, hpl] at hshape
  | case5 _ _ n _ _ h => exact .inl ⟨rfl, nofun, fun hw => absurd hw.reserved (by simp [h])⟩
  | case6 _ _ n hover _ _ e hparse =>
    refine .inl ⟨rfl, nofun, fun hw spelt hspells => ?_⟩
    obtain ⟨n', hn', -, -, hspells⟩ := hspells
    rw [hw.spill, hn'] at hover
    cases hover
    rw [parseAcl_iff.mpr hspells] at hparse
    cases hparse
  | case7 _ _ n hover hshape _ spelt hparse =>
    obtain ⟨nd, hp, rfl, -⟩ := parses_of_over hover
    rw [not_or, not_not, Bool.not_eq_false] at hshape
    exact .inr ⟨spelt, ⟨_, over_of_parses hp, hshape.1, hshape.2, parseAcl_iff.mp hparse⟩, rfl⟩

/-- **An `:acl` is stored, enforced and shown as it was spelt.**  Every list that can be stored and takes
less than 4 GiB is read back from its encoding.  Nothing but the value refuses a write that is granted, and it
accepts exactly the values that spell a list.  The list of an accepted value is the one the gate then
enforces and, within the size, the one that is shown; a refused write leaves the lists enforced and shown. -/
theorem acl_stored_as_spelt (policy : AclPolicy) (es : List AclEvent) (k : Key) (value : Bytes)
    (w : AclWrite) :
    let g := (aclMachine policy).run es
    let r := writeAclValue policy g k value w
    (∀ aces reserve out res, (∀ a ∈ aces, Storable policy a) → aclBytes aces < 2 ^ 32 →
      encodeAcl reserve aces out = some res → ∃ b n, res = out ++ b ∧
        TlvNode.overSpan b serveAll = .ok n ∧ parseAcl policy n.tree.children = .ok aces) ∧
    (w.Granted → (r.2 = .ok () ↔ ∃ spelt, Spells policy value spelt)) ∧
    (r.2 = .ok () → ∃ spelt, Spells policy value spelt ∧
      (∀ other, Spells policy value other → other = spelt) ∧
      Enforces policy r.1 { aclSpec.run es with own := Function.update (aclSpec.run es).own k spelt } ∧
      (aclBytes spelt < 2 ^ 32 → ∃ shown, readAcl (fun _ => true) (fun _ => true) r.1 k = .ok shown ∧
        Spells policy shown spelt)) ∧
    (r.2 ≠ .ok () → Enforces policy r.1 (aclSpec.run es) ∧
      ∀ reserve backend, readAcl reserve backend r.1 k = readAcl reserve backend g k) := by
  intro g r
  have hagrees : Agrees g (aclSpec.run es) := (aclMachine_simulation policy).run_rel es
  refine ⟨fun aces reserve out res hstore hsize henc => ?_, ?_⟩
  · rw [encodeAcl_eq] at henc
    split at henc
    · cases henc
    cases henc
    obtain ⟨n, hn, -, -, hspells⟩ := spells_encodeAcl hstore hsize
    exact ⟨_, n, rfl, hn, parseAcl_iff.mpr hspells⟩
  rcases writeAclValue_cases policy g k value w with ⟨hsame, hno, hnone⟩ | ⟨spelt, hspells, hrun⟩
  · refine ⟨fun hw => ⟨fun hok => absurd hok hno, ?_⟩, fun hok => absurd hok hno, fun _ => ⟨?_, ?_⟩⟩
    · rintro ⟨spelt, hspells⟩
      exact absurd hspells (hnone hw spelt)
    · exact hsame.symm ▸ hagrees.enforces
    · exact fun _ _ => by rw [hsame]
  · have hr : r = _ := hrun
    have hstep := (aclMachine_simulation policy).step g _ (.writeAcl k spelt w.blocks) hagrees
    rw [hr]
    by_cases hb : w.blocks = .granted
    · rw [if_pos hb]
      refine ⟨fun _ => ⟨fun _ => ⟨spelt, hspells⟩, fun _ => rfl⟩, fun _ => ⟨spelt, hspells,
        fun _ => hspells.unique, ?_, fun hsize => ?_⟩, fun hno => absurd rfl hno⟩
      · refine Agrees.enforces ?_
        simpa [aclMachine, aclStep, aclSpec, AclSpec.step, hb] using hstep
      · obtain ⟨_, -, -, -, hlist⟩ := hspells
        rw [hb]
        exact ⟨_, readAcl_writeAcl g k spelt, spells_encodeAcl (storable_of_spells hlist) hsize⟩
    · rw [if_neg hb]
      refine ⟨fun hw => absurd hw.blocks hb, nofun, fun _ => ⟨Agrees.enforces ?_, ?_⟩⟩
      · simpa [aclMachine, aclStep, aclSpec, AclSpec.step, hb] using hstep
      · exact fun reserve backend => readAcl_refused hb reserve backend g k spelt

/-- An entry for `bob`, its fields out of order: then `bob` may read and `eve` may not. -/
theorem acl_stored_as_spelt_bob :
    let k : Key := ["a".toList]
    let value := putTlv (aclTree [[(.subject, octets "bob".toList), (.accessMask, [1]), (.type, [0])]])
    let r := writeAclValue .allowOnly ((aclMachine .allowOnly).run [.register k]) k value {}
    let reads (caller : Name) : Bool :=
      (aclAllows .allowOnly (.resolver fun c => some (c, 0)) (fun _ => true) r.1 k caller .READ).1
    r.2 = .ok () ∧ reads "bob".toList = true ∧ reads "eve".toList = false ∧
      ∃ shown, readAcl (fun _ => true) (fun _ => true) r.1 k = .ok shown ∧
        Spells .allowOnly shown [{ subject := "bob".toList, accessMask := 1 }] := by
  intro k value r reads
  have hspells : Spells .allowOnly value [{ subject := "bob".toList, accessMask := 1 }] := by
    refine spells_aclTree (by decide) (.cons ⟨by decide, by decide, by decide, fun k hk => ?_, by decide,
      nofun, by decide, by decide, by decide,
      show ∀ c ∈ ['b', 'o', 'b'], c.toNat < 256 by simp⟩ .nil)
    cases k with
    | subject => exact absurd rfl hk
    | _ => rfl
  obtain ⟨-, hgranted, haccepted, -⟩ := acl_stored_as_spelt .allowOnly [.register k] k value {}
  have hok := (hgranted ⟨rfl, rfl, rfl, rfl, rfl⟩).mpr ⟨_, hspells⟩
  obtain ⟨spelt, -, hunique, henforces, hshown⟩ := haccepted hok
  cases hunique _ hspells
  exact ⟨hok, (henforces _ k _ .READ).1.trans (by decide), (henforces _ k _ .READ).1.trans (by decide),
    hshown (by decide)⟩

/-! ### Shown past the size -/

/-- Bytes the codec accepts take little more than the 4 GiB its length field reaches. -/
theorem length_of_over {b : Bytes} {spill : Grammar.BlockSource} {n : TlvNode}
    (h : TlvNode.overSpan b spill = .ok n) : b.length < 2 ^ 32 + 18 := by
  obtain ⟨nd, hp, -⟩ := parses_of_over h
  obtain ⟨c, kids, rfl, -⟩ := hp.root
  have hbody := c.fits
  have hwidth : (256 : Nat) ^ c.opt.lengthWidth ≤ 2 ^ 32 := by
    unfold Opt.lengthWidth
    split <;> decide
  have htotal : c.wire.length = c.opt.header + c.body.length + c.opt.tsSize + c.opt.crcSize := c.length_wire
  unfold Opt.header Opt.tsSize Opt.crcSize at htotal
  split_ifs at htotal <;> omega

/-- **A list that was accepted and is shown as no frame at all**: its subject is so long that the value
just fits its length field, and what `encode_acl` makes of it, with every field at full width, does not. -/
theorem long_acl_shown_unreadable : ∃ (value : Bytes) (k : Key) (a : Ace),
    let r := writeAclValue .allowOnly ((aclMachine .allowOnly).run [.register k]) k value {}
    Spells .allowOnly value [a] ∧ r.2 = .ok () ∧
      ∃ shown, readAcl (fun _ => true) (fun _ => true) r.1 k = .ok shown ∧
        ∀ spill n, TlvNode.overSpan shown spill ≠ .ok n := by
  obtain ⟨subject, hlen⟩ : ∃ s : Bytes, s.length = 4294967239 :=
    ⟨replicate 4294967239 0x78, length_replicate⟩
  let raw : AceFields := [(.type, [0]), (.subject, subject), (.accessMask, [1])]
  let a : Ace := { subject := segment subject, accessMask := 1 }
  have hne : subject ≠ [] := ne_nil_of_length_pos (by omega)
  have hheader : Opt.header {} = 4 := rfl
  have hgives : Gives .allowOnly raw a := by
    refine ⟨by simp [raw], fun k hk => ?_, rfl, nofun, show (0 : BitVec 8).toNat ≤ 1 by decide,
      show (1 : BitVec 32).toNat ≤ 3 by decide, by simpa [a, segment] using hne, fun c hc => ?_⟩
    · cases k with
      | subject => exact absurd rfl hk
      | _ => rfl
    · obtain ⟨b, -, rfl⟩ := mem_map.mp hc
      rw [toNat_segment]
      exact b.toNat_lt
  have hspells : Spells .allowOnly (putTlv (aclTree [raw])) [a] := by
    refine spells_aclTree ?_ (.cons ⟨?_, by simp [raw], hgives⟩ .nil)
    · simp [raw, entryBytes, length_emitHeader, length_fieldBytes, pairBytes, header_widen, hheader,
        AceKey.text, octets, hlen]
    · simp [raw, fieldOk, AceKey.width, plainPayload, aclLeaf, hne]
  refine ⟨putTlv (aclTree [raw]), ["a".toList], a, hspells, ?_⟩
  rcases writeAclValue_cases .allowOnly ((aclMachine .allowOnly).run [.register ["a".toList]])
    ["a".toList] (putTlv (aclTree [raw])) {} with ⟨-, -, hnone⟩ | ⟨spelt, hspelt, hrun⟩
  · exact absurd hspells (hnone ⟨rfl, rfl, rfl, rfl, rfl⟩ _)
  cases hspells.unique hspelt
  rw [hrun]
  refine ⟨rfl, _, readAcl_writeAcl _ _ _, fun spill n hover => ?_⟩
  have hlong := length_of_over hover
  rw [(length_put _ _ (sends_aclTree _).1).2, ← aclBytes_eq] at hlong
  have hsubject : (segment subject).length = 4294967239 := (length_map _).trans hlen
  simp [aclTree, frameBytes, Opt.tsSize, Opt.crcSize, aclBytes, aceEntryBytes, pairBytes, header_widen, hheader,
    AceKey.text, octets, a, hsubject] at hlong

end LibTracer.Graph
