import LibTracer.Wire.Encode

/-!
# The codec's round trips

* `over_encode` : what `encode` appends for a normalised tree is accepted, and read back resealed.
* `faithful_iff` : `encode` sends a tree it would reject or alter exactly when the tree has a zero
  type code or a relative timestamp beyond 32 bits.
* `encode_over` : an accepted frame is re-encoded byte for byte; acceptance is injective.
-/

namespace LibTracer.Wire

open Window Grammar List
open Crc (Bytes crc16Ccitt crc32c)

/-! ## The tree a frame is read back as -/

def crcFieldOf (opt : Opt) (cov : Bytes) : CrcField where
  width := if opt.cw then .CRC16_CCITT else .CRC32C
  value := if opt.cw then (crc16Ccitt cov).setWidth 32 else crc32c cov

theorem load_crcBytes {opt : Opt} (hcr : opt.cr = true) (cov : Bytes) :
    BitVec.ofNat 32 (LittleEndian.load (crcBytes opt cov)) = (crcFieldOf opt cov).value := by
  unfold crcBytes crcFieldOf
  rw [hcr]
  cases opt.cw
  · simp only [if_true, Bool.false_eq_true, if_false]
    rw [LittleEndian.load_store_of_lt (by exact (crc32c cov).isLt), BitVec.ofNat_toNat, BitVec.setWidth_eq]
  · simp only [if_true]
    rw [LittleEndian.load_store_of_lt (by exact (crc16Ccitt cov).isLt), BitVec.ofNat_toNat]

/-- The trailer a frame is sent with: the timestamp as the wire keeps it, the CRC recomputed. -/
def sentTrailer (opt : Opt) (trailer : Option Trailer) (cov : Bytes) : Option Trailer :=
  if !opt.ts && !opt.cr then none
  else some {
    ts := if opt.ts then
        some ⟨opt.tf, narrow opt.tf (((trailer.bind TrailerOf.ts).map (·.value)).getD 0)⟩
      else none
    crc := if opt.cr then some (crcFieldOf opt cov) else none }

mutual

def sent : Tlv → Tlv
  | .mk type opt payload children trailer =>
    let t : Tlv := .mk type opt payload children trailer
    .mk type (widen opt ((bodyBytes t).getD 0)) (if opt.pl then [] else payload)
      (if opt.pl then sentAll children else []) (sentTrailer opt trailer (covered t))

def sentAll : List Tlv → List Tlv
  | [] => []
  | c :: cs => sent c :: sentAll cs

end

theorem sentAll_eq_map (cs : List Tlv) : sentAll cs = cs.map sent := by
  induction cs with
  | nil => rfl
  | cons c cs ih => rw [sentAll, ih, map_cons]

theorem cellTrailer_sent {c : Cell} {opt : Opt} {b : Nat} {trailer : Option Trailer}
    (hs : c.Sealed) (hopt : c.opt = widen opt b) (hts : c.ts = stampBytes opt trailer) :
    cellTrailer c = sentTrailer opt trailer (c.body ++ c.ts) := by
  have hstamp : opt.ts = true → loadStamp opt.tf (stampBytes opt trailer) =
      narrow opt.tf (((trailer.bind TrailerOf.ts).map (·.value)).getD 0) := by
    intro h
    simp only [stampBytes, h, if_true, loadStamp_store]
  have hcrc : opt.cr = true → BitVec.ofNat 32 (LittleEndian.load c.crc) =
      (crcFieldOf opt (c.body ++ c.ts)).value := by
    intro h
    rw [hs, hopt, widen_crcBytes, load_crcBytes h]
  have hfield : ∀ v, v = (crcFieldOf opt (c.body ++ c.ts)).value →
      (⟨if opt.cw then .CRC16_CCITT else .CRC32C, v⟩ : CrcField) =
        crcFieldOf opt (c.body ++ c.ts) := by
    rintro v rfl
    rfl
  unfold cellTrailer sentTrailer
  simp only [hopt, widen_ts, widen_cr, widen_tf, widen_cw]
  cases hT : opt.ts <;> cases hC : opt.cr
  · rfl
  · simp [hfield _ (hcrc hC)]
  · simp [hts, hstamp hT]
  · simp [hfield _ (hcrc hC), hts, hstamp hT]

theorem Grammar.Parses.append {p : CrcCheck} {as bs : Bytes} {ns ms : List Node}
    (h : Parses p as ns) (h' : Parses p bs ms) : Parses p (as ++ bs) (ns ++ ms) := by
  induction h with
  | nil => exact h'
  | leaf hs hpl _ ih => rw [append_assoc]; exact .leaf hs hpl ih
  | branch hs hpl hk _ _ ih => rw [append_assoc]; exact .branch hs hpl hk ih

def Short (t : Tlv) : Prop := (bodyBytes t).getD 0 < 2 ^ 32

instance (t : Tlv) : Decidable (Short t) := inferInstanceAs (Decidable (_ < _))

mutual

/-- **An accepted tree without a zero type code is decoded again**, to what the wire keeps of
    it. -/
theorem parses_put : ∀ (t : Tlv) (b : Nat), bodyBytes t = some b →
    t.All (fun n => n.type ≠ 0) → t.All Short → ∃ nd, Parses .VERIFY (putTlv t) [nd] ∧ treeOf nd = sent t
  | .mk type opt payload children trailer, b, hb, h0, hshort => by
    obtain ⟨-, -, -, hbranch⟩ := bodyBytes_some hb
    rw [TlvOf.all_mk] at h0 hshort
    have hlt : b < 2 ^ 32 := by
      have h : Short _ := hshort.1
      rwa [Short, hb] at h
    obtain ⟨c, hput, hs, hty, hopt, hbody, hts⟩ := exists_cell hb h0.1 hlt
    have htree : ∀ kids, treeOf (.mk c.header c.wire kids) =
        .mk type (widen opt b) (if opt.pl then [] else c.body) (treesOf kids)
          (sentTrailer opt trailer (covered (.mk type opt payload children trailer))) := by
      intro kids
      have hcov : c.body ++ c.ts = covered (.mk type opt payload children trailer) := by
        rw [covered, hbody, hts]
      rw [treeOf_cell, cellTrailer_sent hs hopt hts, hcov, hty, hopt, widen_pl]
      rfl
    rw [sent, hput, ← append_nil c.wire]
    simp only [TlvOf.opt_mk, TlvOf.children_mk] at hbranch hopt
    simp only [hb, Option.getD_some]
    cases hpl : opt.pl
    · refine ⟨_, .leaf (fun _ => hs) (by rw [hopt, widen_pl, hpl]) .nil, ?_⟩
      rw [htree, hbody]
      simp only [content, hpl, Bool.false_eq_true, if_false]
      rfl
    · obtain ⟨kids, hks, htk⟩ := parses_putChildren children b (hbranch hpl) h0.2 hshort.2
      have hbody' : c.body = putChildren children := by
        rw [hbody]
        simp only [content, hpl, if_true]
      refine ⟨_, .branch (fun _ => hs) (by rw [hopt, widen_pl, hpl]) (hbody' ▸ hks) .nil, ?_⟩
      rw [htree, htk]
      simp only [hpl, if_true]

theorem parses_putChildren : ∀ (cs : List Tlv) (n : Nat), childrenBytes cs = some n →
    (∀ c ∈ cs, c.All fun n => n.type ≠ 0) → (∀ c ∈ cs, c.All Short) →
    ∃ kids, Parses .VERIFY (putChildren cs) kids ∧ treesOf kids = sentAll cs
  | [], _, _, _, _ => ⟨[], .nil, rfl⟩
  | c :: cs, n, h, h0, hshort => by
    obtain ⟨b, m, hb, hm, -⟩ := childrenBytes_cons h
    rw [forall_mem_cons] at h0 hshort
    obtain ⟨nd, hnd, htd⟩ := parses_put c b hb h0.1 hshort.1
    obtain ⟨kids, hks, htk⟩ := parses_putChildren cs m hm h0.2 hshort.2
    refine ⟨nd :: kids, hnd.append hks, ?_⟩
    rw [treesOf, sentAll, htd, htk]

end

/-! ## Encode, then decode -/

/-- Structured nodes carry no payload, opaque nodes no children, and a trailer value is present
    exactly when its opt bit is set. -/
def Normalised (t : Tlv) : Prop :=
  (t.opt.pl = true → t.payload = []) ∧ (t.opt.pl = false → t.children = []) ∧
  t.trailer.isSome = (t.opt.ts || t.opt.cr) ∧
  (t.trailer.bind TrailerOf.ts).isSome = t.opt.ts ∧
  (t.trailer.bind TrailerOf.crc).isSome = t.opt.cr

instance (t : Tlv) : Decidable (Normalised t) := inferInstanceAs (Decidable (_ ∧ _))

def RelativeFits (t : Tlv) : Prop := ∀ ts ∈ t.stamp, ts.relative = true → FitsI32 ts.value

instance (t : Tlv) : Decidable (RelativeFits t) :=
  inferInstanceAs (Decidable (∀ ts ∈ t.stamp, ts.relative = true → FitsI32 ts.value))

mutual

/-- A tree with the length widened where the body needs it and every CRC recomputed. -/
def reseal : Tlv → Tlv
  | .mk type opt payload children trailer =>
    let t : Tlv := .mk type opt payload children trailer
    .mk type (widen opt ((bodyBytes t).getD 0)) payload (resealAll children)
      (trailer.map fun tr => { tr with crc := tr.crc.map fun _ => crcFieldOf opt (covered t) })

def resealAll : List Tlv → List Tlv
  | [] => []
  | c :: cs => reseal c :: resealAll cs

end

section

variable {t : Tlv} {b : Nat} (hb : bodyBytes t = some b) (hn : Normalised t) (hr : RelativeFits t)
include hb hn hr

theorem narrow_stamp : (if t.opt.ts then
      some ⟨t.opt.tf, narrow t.opt.tf (((t.trailer.bind TrailerOf.ts).map (·.value)).getD 0)⟩
      else none : Option Timestamp) = t.stamp := by
  obtain ⟨-, hstamp, -, -⟩ := bodyBytes_some hb
  have hts : t.stamp.isSome = t.opt.ts := hn.2.2.2.1
  unfold stampOk at hstamp
  rw [← TlvOf.stamp] at hstamp ⊢
  cases hst : t.stamp with
  | none =>
    rw [hst] at hts
    rw [← hts]
    rfl
  | some ts =>
    rw [hst] at hts hstamp
    rw [← hts] at hstamp ⊢
    have hform : ts.relative = t.opt.tf := by simpa using hstamp
    have hval : narrow t.opt.tf ts.value = ts.value := by
      cases htf : t.opt.tf
      · rfl
      · exact (narrow_eq_iff _).mpr (hr ts hst (by rw [hform, htf]))
    simp only [Option.isSome_some, if_true, Option.map_some, Option.getD_some, hval]
    rw [← hform]

theorem sentTrailer_eq : sentTrailer t.opt t.trailer (covered t) =
      t.trailer.map fun tr => { tr with crc := tr.crc.map fun _ => crcFieldOf t.opt (covered t) } := by
  have hstamp := narrow_stamp hb hn hr
  obtain ⟨-, -, hsome, -, hcrc⟩ := hn
  unfold sentTrailer
  rw [hstamp]
  cases htr : t.trailer with
  | none =>
    rw [htr] at hsome
    have h := hsome.symm
    simp only [Option.isSome_none, Bool.or_eq_false_iff] at h
    simp [h.1, h.2]
  | some tr =>
    rw [htr] at hsome hcrc
    have hcond : (!t.opt.ts && !t.opt.cr) = false := by
      rw [← Bool.not_or, ← hsome]
      rfl
    rw [hcond]
    simp only [Option.bind_some] at hcrc
    simp only [Bool.false_eq_true, if_false, Option.map_some, TlvOf.stamp, htr, Option.bind_some]
    rw [← hcrc]
    cases tr.crc <;> rfl

end

mutual

theorem sent_eq_reseal : ∀ (t : Tlv) (b : Nat), bodyBytes t = some b → t.All Normalised →
    t.All RelativeFits → sent t = reseal t
  | .mk type opt payload children trailer, b, hb, hn, hr => by
    obtain ⟨-, -, -, hbranch⟩ := bodyBytes_some hb
    rw [TlvOf.all_mk] at hn hr
    have htr := sentTrailer_eq hb hn.1 hr.1
    obtain ⟨hpay, hch, -⟩ := hn.1
    simp only [TlvOf.opt_mk, TlvOf.payload_mk, TlvOf.children_mk, TlvOf.trailer_mk]
      at hpay hch hbranch htr
    rw [sent, reseal]
    simp only [htr]
    cases hpl : opt.pl
    · rw [hch hpl]
      rfl
    · rw [hpay hpl]
      simp only [if_true]
      rw [sentAll_eq_resealAll children b (hbranch hpl) hn.2 hr.2]

theorem sentAll_eq_resealAll : ∀ (cs : List Tlv) (n : Nat), childrenBytes cs = some n →
    (∀ c ∈ cs, c.All Normalised) → (∀ c ∈ cs, c.All RelativeFits) → sentAll cs = resealAll cs
  | [], _, _, _, _ => rfl
  | c :: cs, n, h, hn, hr => by
    obtain ⟨b, m, hb, hm, -⟩ := childrenBytes_cons h
    rw [forall_mem_cons] at hn hr
    rw [sentAll, resealAll, sent_eq_reseal c b hb hn.1 hr.1, sentAll_eq_resealAll cs m hm hn.2 hr.2]

end

theorem encode_some {reserve : Nat → Bool} {t : Tlv} {out res : Bytes}
    (h : encode reserve t out = some res) : res = out ++ putTlv t ∧ ∃ b, bodyBytes t = some b := by
  unfold encode tlvBytes at h
  cases hb : bodyBytes t with
  | none => rw [hb] at h; cases h
  | some b =>
    rw [hb] at h
    simp only [Option.map_some] at h
    split at h
    · cases h
      exact ⟨rfl, b, rfl⟩
    · cases h

/-- **Encode, then decode**: the bytes `encode` appends for a normalised tree are accepted, and
    the tree read back is the original with `opt.ll` set where the body exceeds `0xFFFF` bytes and
    every CRC value the recomputed one. -/
theorem over_encode (reserve : Nat → Bool) (t : Tlv) (out res : Bytes)
    (henc : encode reserve t out = some res) (h0 : t.All fun n => n.type ≠ 0)
    (hshort : t.All Short) (hrel : t.All RelativeFits) (hnorm : t.All Normalised) :
    ∃ b n, res = out ++ b ∧ TlvNode.overSpan b serveAll = .ok n ∧ n.tree = reseal t := by
  obtain ⟨rfl, b, hb⟩ := encode_some henc
  obtain ⟨nd, hp, htree⟩ := parses_put t b hb h0 hshort
  refine ⟨putTlv t, nodeOf nd, rfl, over_of_parses hp, ?_⟩
  rw [(tree_of_parses hp).1, htree, sent_eq_reseal t b hb hnorm hrel]

def sampleTree : Tlv :=
  .mk 0x07 { pl := true } []
    [.mk 0x01 { ts := true, cr := true, cw := true, tf := true } [0xAB, 0xCD] []
      (some { ts := some ⟨true, -5⟩, crc := some ⟨.CRC16_CCITT, 0⟩ })] none

theorem over_encode_sampleTree :
    ∃ b n, putTlv sampleTree = b ∧ TlvNode.overSpan b serveAll = .ok n ∧ n.tree = reseal sampleTree := by
  obtain ⟨b, n, hb, hn⟩ := over_encode (fun _ => true) sampleTree [] (putTlv sampleTree)
    (by decide +kernel) (by decide +kernel) (by decide +kernel) (by decide +kernel)
    (by decide +kernel)
  exact ⟨b, n, hb, hn⟩

/-- A CRC value handed to `encode` is not sent: it is recomputed. -/
theorem encode_replaces_crc :
    let t : Tlv := .mk 0x01 { cr := true } [7] [] (some { crc := some ⟨.CRC32C, 0⟩ })
    let b : Bytes := [0x01, 0x10, 0x01, 0x00, 0x07, 0xBA, 0x37, 0xB7, 0x86]
    let n : TlvNode := ⟨b, 0x01, { cr := true }, 4, 1⟩
    t.All (fun n => n.type ≠ 0) ∧ t.All Short ∧ t.All RelativeFits ∧ t.All Normalised ∧
      encode (fun _ => true) t [] = some b ∧
      TlvNode.overSpan b serveAll = .ok n ∧ n.tree.trailer ≠ t.trailer := by
  decide +kernel

/-! ## No frame the codec would reject or alter -/

mutual

def SameStamps : Tlv → Tlv → Prop
  | .mk type _ _ children trailer, .mk type' _ _ children' trailer' =>
    type = type' ∧ trailer.bind TrailerOf.ts = trailer'.bind TrailerOf.ts ∧
      SameStampsAll children children'

def SameStampsAll : List Tlv → List Tlv → Prop
  | [], [] => True
  | c :: cs, d :: ds => SameStamps c d ∧ SameStampsAll cs ds
  | _, _ => False

end

/-- `encode` refuses the tree, or what it appends is accepted and reads back with the same type
    codes and timestamps. -/
def Faithful (reserve : Nat → Bool) (t : Tlv) (out : Bytes) : Prop :=
  encode reserve t out = none ∨
  ∃ b n, encode reserve t out = some (out ++ b) ∧ TlvNode.overSpan b serveAll = .ok n ∧
    SameStamps t n.tree

mutual

theorem sameStamps_sent : ∀ (t : Tlv) (b : Nat), bodyBytes t = some b → t.All Normalised →
    t.All RelativeFits → SameStamps t (sent t)
  | .mk type opt payload children trailer, b, hb, hn, hr => by
    obtain ⟨-, -, -, hbranch⟩ := bodyBytes_some hb
    rw [TlvOf.all_mk] at hn hr
    have htr := sentTrailer_eq hb hn.1 hr.1
    have hch := hn.1.2.1
    simp only [TlvOf.opt_mk, TlvOf.children_mk, TlvOf.trailer_mk] at hbranch htr hch
    rw [sent]
    refine ⟨rfl, ?_, ?_⟩
    · rw [htr]
      cases trailer <;> rfl
    · cases hpl : opt.pl
      · rw [hch hpl]
        trivial
      · exact sameStampsAll_sent children b (hbranch hpl) hn.2 hr.2

theorem sameStampsAll_sent : ∀ (cs : List Tlv) (n : Nat), childrenBytes cs = some n →
    (∀ c ∈ cs, c.All Normalised) → (∀ c ∈ cs, c.All RelativeFits) → SameStampsAll cs (sentAll cs)
  | [], _, _, _, _ => trivial
  | c :: cs, n, h, hn, hr => by
    obtain ⟨b, m, hb, hm, -⟩ := childrenBytes_cons h
    rw [forall_mem_cons] at hn hr
    exact ⟨sameStamps_sent c b hb hn.1 hr.1, sameStampsAll_sent cs m hm hn.2 hr.2⟩

end

mutual

theorem SameStamps.all {P : UInt8 → Option Timestamp → Prop} : ∀ (t t' : Tlv), SameStamps t t' →
    t'.All (fun n => P n.type n.stamp) → t.All (fun n => P n.type n.stamp)
  | .mk type opt payload children trailer, .mk type' opt' payload' children' trailer',
    ⟨hty, hst, hch⟩, hall => by
    rw [TlvOf.all_mk] at hall ⊢
    refine ⟨?_, SameStampsAll.all children children' hch hall.2⟩
    have h := hall.1
    simp only [TlvOf.type_mk, TlvOf.stamp_mk, ← hty, ← hst] at h
    exact h

theorem SameStampsAll.all {P : UInt8 → Option Timestamp → Prop} : ∀ (cs ds : List Tlv),
    SameStampsAll cs ds → (∀ d ∈ ds, d.All fun n => P n.type n.stamp) →
    ∀ c ∈ cs, c.All fun n => P n.type n.stamp
  | [], _, _, _ => forall_mem_nil _
  | c :: cs, d :: ds, ⟨hs, hss⟩, hall => by
    rw [forall_mem_cons] at hall ⊢
    exact ⟨SameStamps.all c d hs hall.1, SameStampsAll.all cs ds hss hall.2⟩

end

/-- **What an accepted frame presents**: no zero type code, and relative timestamps are 32-bit. -/
theorem all_of_parses {p : CrcCheck} {bs : Bytes} {ns : List Node} (h : Parses p bs ns) :
    ∀ t ∈ treesOf ns, t.All fun n => n.type ≠ 0 ∧ RelativeFits n := by
  have hcell : ∀ (c : Cell) (payload : Bytes) (children : List Tlv),
      (∀ t ∈ children, t.All fun n => n.type ≠ 0 ∧ RelativeFits n) →
      (TlvOf.mk c.type c.opt payload children (cellTrailer c)).All
        fun n => n.type ≠ 0 ∧ RelativeFits n := by
    intro c payload children hch
    refine TlvOf.all_mk.mpr ⟨⟨c.type_ne, ?_⟩, hch⟩
    intro ts hts hrel
    simp only [TlvOf.stamp_mk, cellTrailer, Option.mem_def] at hts
    split at hts
    · cases hts
    simp only [Option.bind_some] at hts
    split at hts
    · cases hts
      have htf : c.opt.tf = true := hrel
      simp only [loadStamp, htf, if_true]
      rw [← narrow_eq_iff, narrow]
      simp only [if_true, setWidth_signExtend_word]
    · cases hts
  induction h with
  | nil => intro t ht; cases ht
  | leaf _ _ _ ih =>
    rw [treesOf, treeOf_cell]
    exact forall_mem_cons.mpr ⟨hcell _ _ _ (by intro t ht; cases ht), ih⟩
  | branch _ _ _ _ ihk ih =>
    rw [treesOf, treeOf_cell]
    exact forall_mem_cons.mpr ⟨hcell _ _ _ ihk, ih⟩

/-- **When the codec keeps its law**: a normalised tree is refused, or read back with its type
    codes and timestamps, exactly when it is refused or has no zero type code and no relative
    timestamp beyond 32 bits. -/
theorem faithful_iff (reserve : Nat → Bool) (t : Tlv) (out : Bytes) (hshort : t.All Short)
    (hnorm : t.All Normalised) : Faithful reserve t out ↔
      encode reserve t out = none ∨ (t.All (fun n => n.type ≠ 0) ∧ t.All RelativeFits) := by
  constructor
  · rintro (h | ⟨b, n, -, hover, hsame⟩)
    · exact .inl h
    · obtain ⟨nd, hp, -, htree, -⟩ := parses_of_over hover
      have hall := all_of_parses hp (treeOf nd) (by rw [treesOf]; exact mem_cons_self ..)
      rw [htree] at hsame
      have h := SameStamps.all (P := fun ty st => ty ≠ 0 ∧
        ∀ ts ∈ st, ts.relative = true → FitsI32 ts.value) t _ hsame hall
      exact .inr ⟨h.imp fun _ hn => hn.1, h.imp fun _ hn => hn.2⟩
  · rintro (h | ⟨h0, hrel⟩)
    · exact .inl h
    · cases henc : encode reserve t out with
      | none => exact .inl henc
      | some res =>
        obtain ⟨rfl, b, hb⟩ := encode_some henc
        obtain ⟨nd, hp, htree⟩ := parses_put t b hb h0 hshort
        refine .inr ⟨putTlv t, nodeOf nd, henc, over_of_parses hp, ?_⟩
        rw [(tree_of_parses hp).1, htree]
        exact sameStamps_sent t b hb hnorm hrel

theorem faithful_iff_sampleTree :
    Faithful (fun _ => true) sampleTree [] ∧ sampleTree.All RelativeFits := by
  have h := (faithful_iff (fun _ => true) sampleTree [] (by decide +kernel) (by decide +kernel)).mpr
    (.inr ⟨by decide +kernel, by decide +kernel⟩)
  exact ⟨h, by decide +kernel⟩

/-- A tree with a zero type code, and one with a relative timestamp of `2 ^ 31` ns, are both sent:
    the first is rejected by the reader, the second read back negative. -/
theorem encode_mints_rejected_and_altered :
    let zero : Tlv := .mk 0x00 {} [] [] none
    let late : Tlv := .mk 0x01 { ts := true, tf := true } [] []
      (some { ts := some ⟨true, 0x80000000#64⟩ })
    (zero.All Normalised ∧ zero.All Short ∧ encode (fun _ => true) zero [] = some [0, 0, 0, 0] ∧
      TlvNode.overSpan [0, 0, 0, 0] serveAll = .error .FRAME_INVALID) ∧
    (late.All Normalised ∧ late.All Short ∧
      encode (fun _ => true) late [] = some [0x01, 0x22, 0, 0, 0, 0, 0, 0x80] ∧
      TlvNode.overSpan [0x01, 0x22, 0, 0, 0, 0, 0, 0x80] serveAll =
        .ok ⟨[0x01, 0x22, 0, 0, 0, 0, 0, 0x80], 0x01, { ts := true, tf := true }, 4, 0⟩ ∧
      (TlvNode.mk [0x01, 0x22, 0, 0, 0, 0, 0, 0x80] 0x01 { ts := true, tf := true } 4 0).tree.stamp =
        some ⟨true, 0xFFFFFFFF80000000#64⟩) := by
  decide +kernel

/-! ## Decode, then encode -/

mutual

/-- The tree a caller rebuilds from an accepted frame: type, opt, payload or children, and the
    timestamp. -/
def rebuilt : Tlv → Tlv
  | .mk type opt payload children trailer =>
    .mk type opt payload (rebuiltAll children)
      ((trailer.bind TrailerOf.ts).map fun ts => { ts := some ts })

def rebuiltAll : List Tlv → List Tlv
  | [] => []
  | c :: cs => rebuilt c :: rebuiltAll cs

end

theorem widen_cell (c : Cell) : widen c.opt c.body.length = c.opt := by
  have hfits := c.fits
  unfold widen
  split
  next hbig =>
    have hll : c.opt.ll = true := by
      by_contra hll
      rw [Opt.lengthWidth, if_neg hll] at hfits
      omega
    rw [← hll]
  · rfl

theorem cellTrailer_ts (c : Cell) : (cellTrailer c).bind TrailerOf.ts =
    if c.opt.ts then some ⟨c.opt.tf, loadStamp c.opt.tf c.ts⟩ else none := by
  unfold cellTrailer
  cases c.opt.ts <;> cases c.opt.cr <;> rfl

/-- **A sealed cell is what `encode` makes of its rebuilt tree**, provided its children are. -/
theorem put_rebuilt_cell {c : Cell} (hs : c.Sealed) (payload : Bytes) (children : List Tlv)
    (hbody : (if c.opt.pl then putChildren children else payload) = c.body)
    (hsize : c.opt.pl = true → childrenBytes children = some c.body.length) :
    let t : Tlv := .mk c.type c.opt payload children
      (((cellTrailer c).bind TrailerOf.ts).map fun ts => { ts := some ts })
    bodyBytes t = some c.body.length ∧ putTlv t = c.wire := by
  intro t
  have hstamp : t.stamp = if c.opt.ts then some ⟨c.opt.tf, loadStamp c.opt.tf c.ts⟩ else none := by
    show (((cellTrailer c).bind TrailerOf.ts).map fun ts => ({ ts := some ts } : Trailer)).bind
      TrailerOf.ts = _
    rw [cellTrailer_ts]
    cases c.opt.ts <;> rfl
  have hts : stampBytes c.opt t.trailer = c.ts := by
    have hlen := c.ts_length
    unfold stampBytes
    rw [← TlvOf.stamp, hstamp]
    unfold Opt.tsSize at hlen
    cases h : c.opt.ts
    · rw [h] at hlen
      exact (length_eq_zero_iff.mp hlen).symm
    · rw [h] at hlen
      exact store_loadStamp c.opt.tf hlen
  have hok : stampOk c.opt t.trailer = true := by
    unfold stampOk
    rw [← TlvOf.stamp, hstamp]
    cases c.opt.ts
    · rfl
    · simp
  have hlen : c.opt.pl = false → payload.length = c.body.length := by
    intro hpl
    rw [← hbody, hpl]
    rfl
  have hshape : shapeOk c.type c.opt payload.length = true := by
    by_cases hpl : c.opt.pl = true
    · -- a structured cell is not a `PATH_REF`, whatever its body
      have h := c.shape
      simp only [shapeOk, pathRefBodyValid, hpl, Bool.not_true, Bool.false_and,
        Bool.not_false, Bool.and_true] at h ⊢
      exact h
    · rw [hlen (by simpa using hpl)]
      exact c.shape
  have hbytes : bodyBytes t = some c.body.length := by
    rw [bodyBytes_eq, show t.opt = c.opt from rfl, show t.type = c.type from rfl,
      show t.payload = payload from rfl, show t.children = children from rfl, hshape, hok]
    cases hpl : c.opt.pl
    · simp [hlen hpl]
    · simp [hsize hpl]
  refine ⟨hbytes, ?_⟩
  have hcov : covered t = c.body ++ c.ts := by
    rw [covered, ← hts]
    show (if c.opt.pl then putChildren children else payload) ++ _ = _
    rw [hbody]
    rfl
  rw [putTlv_eq, hbytes, hcov]
  show emitHeader c.type (widen c.opt c.body.length) c.body.length ++ (c.body ++ c.ts) ++
    crcBytes c.opt (c.body ++ c.ts) = c.wire
  have hlt : c.body.length < 2 ^ 32 := by
    have hfits := c.fits
    unfold Opt.lengthWidth at hfits
    split at hfits <;> omega
  rw [widen_cell, ← hs, Cell.wire, Cell.head, emitHeader, Nat.mod_eq_of_lt hlt]
  simp only [append_assoc]
  rfl

theorem put_rebuilt {bs : Bytes} {ns : List Node} (h : Parses .VERIFY bs ns) :
    childrenBytes (rebuiltAll (treesOf ns)) = some bs.length ∧
    putChildren (rebuiltAll (treesOf ns)) = bs := by
  have hcons : ∀ (c : Cell) (kids ns : List Node) (rest : Bytes),
      bodyBytes (rebuilt (treeOf (.mk c.header c.wire kids))) = some c.body.length →
      putTlv (rebuilt (treeOf (.mk c.header c.wire kids))) = c.wire →
      childrenBytes (rebuiltAll (treesOf ns)) = some rest.length →
      putChildren (rebuiltAll (treesOf ns)) = rest →
      childrenBytes (rebuiltAll (treesOf (.mk c.header c.wire kids :: ns))) =
        some (c.wire ++ rest).length ∧
      putChildren (rebuiltAll (treesOf (.mk c.header c.wire kids :: ns))) = c.wire ++ rest := by
    intro c kids ns rest hb hp hcs hps
    have hopt : (rebuilt (treeOf (.mk c.header c.wire kids))).opt = c.opt := by
      rw [treeOf_cell, rebuilt, TlvOf.opt_mk]
    rw [treesOf, rebuiltAll, childrenBytes, putChildren, hb, hcs, hp, hps, hopt]
    refine ⟨?_, rfl⟩
    show some (frameBytes c.opt c.body.length + rest.length) = _
    rw [length_append, c.length_wire, frameBytes, widen_cell]
    rfl
  induction h with
  | nil => exact ⟨rfl, rfl⟩
  | @leaf c rest ns hs hpl _ ih =>
    have h := put_rebuilt_cell (hs rfl) c.body []
      (by rw [hpl]; rfl) (by rw [hpl]; intro h; cases h)
    have htree := treeOf_cell c []
    rw [hpl] at htree
    exact hcons c [] ns rest (htree ▸ h.1) (htree ▸ h.2) ih.1 ih.2
  | @branch c rest kids ns hs hpl _ _ ihk ih =>
    have h := put_rebuilt_cell (hs rfl) [] (rebuiltAll (treesOf kids))
      (by rw [hpl, if_pos rfl]; exact ihk.2) (fun _ => ihk.1)
    have htree := treeOf_cell c kids
    rw [hpl] at htree
    exact hcons c kids ns rest (htree ▸ h.1) (htree ▸ h.2) ih.1 ih.2

/-- **Decode, then encode**: rebuilding an accepted frame and encoding it gives the frame back,
    byte for byte, so two accepted frames that present the same tree are the same frame. -/
theorem encode_over (b : Bytes) (spill : BlockSource) (n : TlvNode)
    (hover : TlvNode.overSpan b spill = .ok n) : encode (fun _ => true) (rebuilt n.tree) [] = some b ∧
    ∀ b' spill' n', TlvNode.overSpan b' spill' = .ok n' → rebuilt n'.tree = rebuilt n.tree → b' = b := by
  have hput : ∀ b spill n, TlvNode.overSpan b spill = .ok n →
      (bodyBytes (rebuilt n.tree)).isSome ∧ putTlv (rebuilt n.tree) = b := by
    intro b spill n h
    obtain ⟨nd, hp, -, htree, -⟩ := parses_of_over h
    obtain ⟨hsize, hput⟩ := put_rebuilt hp
    rw [treesOf, rebuiltAll, ← htree] at hsize hput
    obtain ⟨body, m, hbody, -, -⟩ := childrenBytes_cons hsize
    refine ⟨by rw [hbody]; rfl, ?_⟩
    simpa [putChildren, treesOf, rebuiltAll] using hput
  obtain ⟨hsome, hb⟩ := hput b spill n hover
  refine ⟨?_, ?_⟩
  · obtain ⟨body, hbody⟩ := Option.isSome_iff_exists.mp hsome
    simp only [encode, tlvBytes, hbody, Option.map_some, if_true, nil_append, hb]
  · intro b' spill' n' hover' heq
    rw [← (hput b' spill' n' hover').2, heq, hb]

theorem encode_over_widened_length :
    let b : Bytes := [0x07, 0x48, 4, 0, 0, 0, 0x01, 0x00, 0, 0]
    let n : TlvNode := ⟨b, 0x07, { pl := true, ll := true }, 6, 4⟩
    TlvNode.overSpan b refuseAll = .ok n ∧ encode (fun _ => true) (rebuilt n.tree) [] = some b := by
  have hover : TlvNode.overSpan [0x07, 0x48, 4, 0, 0, 0, 0x01, 0x00, 0, 0] refuseAll =
      .ok ⟨[0x07, 0x48, 4, 0, 0, 0, 0x01, 0x00, 0, 0], 0x07, { pl := true, ll := true }, 6, 4⟩ := by
    decide +kernel
  exact ⟨hover, (encode_over _ _ _ hover).1⟩

end LibTracer.Wire
