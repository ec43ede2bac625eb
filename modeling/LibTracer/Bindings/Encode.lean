import LibTracer.Bindings.Codec

/-!
# Where the three encoders agree

The C++ encoder widens the length field of a node whose body outgrows 16 bits; the two ports write
the length in the width `opt.ll` asks for, whatever the body.

* `encoders_agree_iff` : the three agree exactly on the trees that are refused or not widened.
-/

namespace LibTracer.Bindings

open Window Wire Grammar List
open Crc (Bytes)

/-! ## One frame -/

def Fits (t : Tlv) : Prop := t.opt.ll = false → (bodyBytes t).getD 0 ≤ 0xFFFF

instance (t : Tlv) : Decidable (Fits t) := inferInstanceAs (Decidable (_ → _))

theorem widen_of_fits {o : Opt} {b : Nat} (h : o.ll = false → b ≤ 0xFFFF) : widen o b = o := by
  cases hll : o.ll
  · exact widen_of_le _ _ (h hll)
  · unfold widen
    split
    · rw [← hll]
    · rfl

theorem header_widen (o : Opt) (b : Nat) : o.header ≤ (widen o b).header ∧
      ((widen o b).header = o.header → o.ll = false → b ≤ 0xFFFF) := by
  by_cases hb : b > 0xFFFF
  · have hwide : (widen o b).header = 6 := by rw [widen, if_pos hb]; rfl
    rw [hwide]
    unfold Opt.header
    cases o.ll <;> simp
  · rw [widen_of_le _ _ (by omega)]
    exact ⟨le_rfl, fun _ _ => by omega⟩

section Lawful

variable {τ : Type} {P : Port τ} {word : τ → BitVec 64} (hP : P.Lawful word)
include hP

theorem Port.stampBytes_eq (opt : Opt) (trailer : Option (TrailerOf τ)) :
    P.stampBytes opt trailer = Wire.stampBytes opt (trailer.map (mapTrailer word)) := by
  have hvalue : word ((trailer.bind TrailerOf.ts).getD ⟨opt.tf, P.zero⟩).value =
      ((((trailer.map (mapTrailer word)).bind TrailerOf.ts).map (·.value)).getD 0) := by
    cases trailer with
    | none => exact hP.zero_eq
    | some tr =>
      obtain ⟨ts, crc⟩ := tr
      cases ts with
      | none => exact hP.zero_eq
      | some ts => rfl
  unfold Port.stampBytes Wire.stampBytes
  simp only [hP.writeRelative_eq, hP.writeAbsolute_eq, hvalue]
  cases opt.ts
  · rfl
  · cases opt.tf <;> rfl

theorem Port.frame_eq (type : UInt8) (opt : Opt) (body ts : Bytes) : P.frame type opt body ts =
      type :: opt.encode :: LittleEndian.store body.length opt.lengthWidth ++ (body ++ ts) ++
        crcBytes opt (body ++ ts) := by
  have hcrc : (if opt.cr then
      if opt.cw then P.writeLe (P.crc16Ccitt (body ++ ts)) 2
      else P.writeLe (P.crc32c (body ++ ts)) 4 else []) = crcBytes opt (body ++ ts) := by
    rw [hP.writeLe_eq (by decide), hP.writeLe_eq (by decide), hP.crc16_eq, hP.crc32c_eq]
    rfl
  have hwidth : (if opt.ll = true then 4 else 2) = opt.lengthWidth := rfl
  have hw4 : opt.lengthWidth ≤ 4 := by unfold Opt.lengthWidth; split <;> omega
  simp only [Port.frame, hcrc, hwidth, hP.writeLe_eq hw4, append_assoc, cons_append, nil_append]

theorem Port.length_frame (type : UInt8) (opt : Opt) (body : Bytes) (trailer : Option Trailer) :
    (P.frame type opt body (Wire.stampBytes opt trailer)).length =
      opt.header + body.length + opt.tsSize + opt.crcSize := by
  rw [Port.frame_eq hP]
  simp only [cons_append, length_cons, length_append, LittleEndian.length_store,
    length_stampBytes, length_crcBytes, opt.header_eq]
  omega

/-! ## Trees -/

theorem Port.frame_ne_nil (type : UInt8) (opt : Opt) (body ts : Bytes) :
    P.frame type opt body ts ≠ [] := by
  rw [Port.frame_eq hP]
  simp

theorem Port.encode_mk {type : UInt8} {opt : Opt} {payload : Bytes} {children : List (TlvOf τ)}
    {trailer : Option (TrailerOf τ)} (hshape : shapeOk type opt payload.length = true)
    {body : Bytes} (hbody : (if opt.pl then P.encodeChildren children else some payload) = some body) :
    P.encode (.mk type opt payload children trailer) =
      P.frame type opt body (Wire.stampBytes opt (trailer.map (mapTrailer word))) := by
  have hok : (isPathRefType type && !pathRefBodyValid opt.pl opt.ll payload.length) = false :=
    (Bool.not_eq_true' _).mp hshape
  rw [Port.encode, hok, hbody, Port.stampBytes_eq hP]
  rfl

end Lawful

section Trees

variable {τ : Type} {P : Port τ} {word : τ → BitVec 64}

mutual

/-- **A port's frame is never longer than the C++ one**, and as long only if no node is widened. -/
theorem Port.length_encode (hP : P.Lawful word) : ∀ (t : TlvOf τ) (b : Nat), bodyBytes (mapStamp word t) = some b →
    (mapStamp word t).All (fun n => n.opt.pl = false → n.children = []) →
    P.encode t ≠ [] ∧ (P.encode t).length ≤ frameBytes (mapStamp word t).opt b ∧
      ((P.encode t).length = frameBytes (mapStamp word t).opt b → (mapStamp word t).All Fits)
  | .mk type opt payload children trailer, b, hb, hleaf => by
    rw [mapStamp] at hb hleaf ⊢
    obtain ⟨hshape, -, hpayload, hbranch⟩ := bodyBytes_some hb
    obtain ⟨hroot, hkids⟩ := TlvOf.all_mk.mp hleaf
    simp only [TlvOf.type_mk, TlvOf.opt_mk, TlvOf.payload_mk, TlvOf.children_mk] at *
    -- the port's body, no longer than the C++ one
    obtain ⟨body, hbody, hle, hfit⟩ : ∃ body,
        (if opt.pl then P.encodeChildren children else some payload) = some body ∧
        body.length ≤ b ∧ (body.length = b → ∀ c ∈ mapStamps word children, c.All Fits) := by
      cases hpl : opt.pl
      · rw [hroot hpl]
        exact ⟨payload, rfl, by rw [hpayload hpl], fun _ => by simp⟩
      · exact Port.length_encodeChildren hP children b (hbranch hpl) hkids
    obtain ⟨hhd, hhdfit⟩ := header_widen opt b
    rw [Port.encode_mk hP hshape hbody, Port.length_frame hP, frameBytes]
    refine ⟨Port.frame_ne_nil hP _ _ _ _, by omega, fun heq => TlvOf.all_mk.mpr ⟨?_, ?_⟩⟩
    · intro hll
      rw [hb]
      exact hhdfit (by omega) hll
    · exact hfit (by omega)

theorem Port.length_encodeChildren (hP : P.Lawful word) : ∀ (cs : List (TlvOf τ)) (n : Nat),
    childrenBytes (mapStamps word cs) = some n →
    (∀ c ∈ mapStamps word cs, c.All (fun n => n.opt.pl = false → n.children = [])) →
    ∃ body, P.encodeChildren cs = some body ∧ body.length ≤ n ∧
      (body.length = n → ∀ c ∈ mapStamps word cs, c.All Fits)
  | [], n, hn, _ => by
    cases hn
    exact ⟨[], rfl, le_rfl, fun _ => by simp [mapStamps]⟩
  | c :: cs, n, hn, hleaf => by
    rw [mapStamps] at hn hleaf ⊢
    obtain ⟨b, m, hb, hm, rfl⟩ := childrenBytes_cons hn
    obtain ⟨hc, hcs⟩ := forall_mem_cons.mp hleaf
    obtain ⟨hne, hle, hfit⟩ := Port.length_encode hP c b hb hc
    obtain ⟨body, hbody, hble, hbfit⟩ := Port.length_encodeChildren hP cs m hm hcs
    refine ⟨P.encode c ++ body, ?_, ?_, fun heq => ?_⟩
    · simp only [Port.encodeChildren, hne, if_false, hbody, Option.map_some]
    · rw [length_append]
      omega
    · rw [length_append] at heq
      exact forall_mem_cons.mpr ⟨hfit (by omega), hbfit (by omega)⟩

end

mutual

/-- **A port emits the C++ bytes** of a tree none of whose nodes is widened. -/
theorem Port.encode_of_fits (hP : P.Lawful word) : ∀ (t : TlvOf τ) (b : Nat), bodyBytes (mapStamp word t) = some b →
    (mapStamp word t).All Short → (mapStamp word t).All Fits → P.encode t = putTlv (mapStamp word t)
  | .mk type opt payload children trailer, b, hb, hshort, hfits => by
    rw [mapStamp] at hb hshort hfits ⊢
    obtain ⟨hshape, -, hpayload, hbranch⟩ := bodyBytes_some hb
    obtain ⟨hlt, hshorts⟩ := TlvOf.all_mk.mp hshort
    obtain ⟨hfit, hfitss⟩ := TlvOf.all_mk.mp hfits
    have hlen := (length_put _ b hb).1
    simp only [Short, Fits, hb, Option.getD_some, TlvOf.type_mk, TlvOf.opt_mk, TlvOf.payload_mk,
      TlvOf.children_mk] at hlt hfit hshape hbranch
    have hbody : (if opt.pl then P.encodeChildren children else some payload) =
        some (content (.mk type opt payload (mapStamps word children)
          (trailer.map (mapTrailer word)))) := by
      show _ = some (if opt.pl then putChildren (mapStamps word children) else payload)
      split
      next hpl =>
        exact Port.encodeChildren_of_fits hP children b (hbranch hpl) hshorts hfitss
      · rfl
    rw [Port.encode_mk hP hshape hbody, Port.frame_eq hP, putTlv_eq, hb]
    simp only [TlvOf.type_mk, TlvOf.opt_mk, TlvOf.trailer_mk, Option.getD_some, covered, hlen,
      widen_of_fits hfit, emitHeader, Nat.mod_eq_of_lt hlt]
    rfl

theorem Port.encodeChildren_of_fits (hP : P.Lawful word) : ∀ (cs : List (TlvOf τ)) (n : Nat),
    childrenBytes (mapStamps word cs) = some n →
    (∀ c ∈ mapStamps word cs, c.All Short) → (∀ c ∈ mapStamps word cs, c.All Fits) →
    P.encodeChildren cs = some (putChildren (mapStamps word cs))
  | [], _, _, _, _ => rfl
  | c :: cs, n, hn, hshort, hfits => by
    rw [mapStamps] at hn hshort hfits ⊢
    obtain ⟨b, m, hb, hm, -⟩ := childrenBytes_cons hn
    obtain ⟨hsc, hscs⟩ := forall_mem_cons.mp hshort
    obtain ⟨hfc, hfcs⟩ := forall_mem_cons.mp hfits
    have hne : putTlv (mapStamp word c) ≠ [] := by
      rw [putTlv_eq]
      simp [emitHeader]
    rw [Port.encodeChildren, Port.encode_of_fits hP c b hb hsc hfc,
      Port.encodeChildren_of_fits hP cs m hm hscs hfcs, putChildren]
    simp only [hne, if_false, Option.map_some]

end

mutual

/-- **A port refuses what the C++ encoder refuses**, incoherent timestamps aside. -/
theorem Port.encode_of_refused (P : Port τ) (word : τ → BitVec 64) : ∀ t : TlvOf τ, bodyBytes (mapStamp word t) = none →
    (mapStamp word t).All (fun n => stampOk n.opt n.trailer = true) → P.encode t = []
  | .mk type opt payload children trailer, hb, hstamp => by
    rw [mapStamp] at hb hstamp
    obtain ⟨hok, hstamps⟩ := TlvOf.all_mk.mp hstamp
    have hok : stampOk opt (trailer.map (mapTrailer word)) = true := hok
    have hb : (if shapeOk type opt payload.length && stampOk opt (trailer.map (mapTrailer word)) then
        if opt.pl then childrenBytes (mapStamps word children) else some payload.length
        else none) = none := (bodyBytes_eq _).symm.trans hb
    rw [Port.encode]
    by_cases hshape : shapeOk type opt payload.length = true
    · rw [if_pos (by rw [hshape, hok]; rfl)] at hb
      split at hb
      next hpl =>
        rw [if_pos hpl, Port.encodeChildren_of_refused P word children hb hstamps]
        split <;> rfl
      · cases hb
    · rw [if_pos]
      simpa [shapeOk] using hshape

theorem Port.encodeChildren_of_refused (P : Port τ) (word : τ → BitVec 64) : ∀ cs : List (TlvOf τ),
    childrenBytes (mapStamps word cs) = none →
    (∀ c ∈ mapStamps word cs, c.All (fun n => stampOk n.opt n.trailer = true)) → P.encodeChildren cs = none
  | [], hn, _ => by cases hn
  | c :: cs, hn, hstamps => by
    rw [mapStamps] at hn hstamps
    obtain ⟨hc, hcs⟩ := forall_mem_cons.mp hstamps
    rw [childrenBytes] at hn
    rw [Port.encodeChildren]
    cases hb : bodyBytes (mapStamp word c) with
    | none => rw [Port.encode_of_refused P word c hb hc]; rfl
    | some b =>
      cases hm : childrenBytes (mapStamps word cs) with
      | none =>
        rw [Port.encodeChildren_of_refused P word cs hm hcs]
        split <;> rfl
      | some m => rw [hb, hm] at hn; cases hn

end

mutual

theorem nodes_mapStamp {σ : Type} (f : τ → σ) : ∀ t : TlvOf τ,
    (mapStamp f t).nodes = t.nodes.map (mapStamp f)
  | .mk type opt payload children trailer => by
    simp only [mapStamp, TlvOf.nodes, map_cons, nodesList_mapStamps f children]

theorem nodesList_mapStamps {σ : Type} (f : τ → σ) : ∀ ts : List (TlvOf τ),
    TlvOf.nodesList (mapStamps f ts) = (TlvOf.nodesList ts).map (mapStamp f)
  | [] => rfl
  | t :: ts => by
    simp only [mapStamps, TlvOf.nodesList, map_append, nodes_mapStamp f t, nodesList_mapStamps f ts]

end

theorem all_mapStamp {σ : Type} (f : τ → σ) {Q : TlvOf τ → Prop} {R : TlvOf σ → Prop}
    (h : ∀ n, Q n → R (mapStamp f n)) {t : TlvOf τ} (ht : t.All Q) : (mapStamp f t).All R := by
  intro n hn
  rw [nodes_mapStamp] at hn
  obtain ⟨m, hm, rfl⟩ := mem_map.mp hn
  exact h m (ht m hm)

end Trees

/-! ## The three encoders -/

def words (t : TlvOf Int) : Tlv := mapStamp (BitVec.ofInt 64) t

/-- A normalised node: a non-zero type code, a body of the kind `opt.pl` says, and a timestamp of
    the form `opt.tf` says exactly when `opt.ts` is set, in range if it is relative. -/
def WellFormed (t : TlvOf Int) : Prop :=
  t.type ≠ 0 ∧ (t.opt.pl = true → t.payload = []) ∧ (t.opt.pl = false → t.children = []) ∧
  t.stamp.isSome = t.opt.ts ∧
  ∀ ts ∈ t.stamp, ts.relative = t.opt.tf ∧
    (ts.relative = true → -2 ^ 31 ≤ ts.value ∧ ts.value < 2 ^ 31)

instance (t : TlvOf Int) : Decidable (WellFormed t) := inferInstanceAs (Decidable (_ ∧ _))

def LengthHolds (out : Bytes) : Prop :=
  let opt := Opt.decode (out.getD 1 0)
  opt.header + LittleEndian.load (window out 2 opt.lengthWidth) + opt.tsSize + opt.crcSize =
    out.length

/-- All three encoders refuse a tree, or all three produce the same frame, whose length field is
    right. The C++ encoder's one reservation is served. -/
def EncodersAgree (t : TlvOf Int) : Prop :=
  (encode (fun _ => true) (words t) [] = none ∧ rust.encode (words t) = [] ∧
    typeScript.encode t = []) ∨
  ∃ out, encode (fun _ => true) (words t) [] = some out ∧ rust.encode (words t) = out ∧
    typeScript.encode t = out ∧ LengthHolds out

theorem Cell.lengthHolds (c : Cell) : LengthHolds c.wire := by
  have hlen := c.window_length []
  have hopt : c.wire.getD 1 0 = c.opt.encode := rfl
  rw [append_nil] at hlen
  simp only [LengthHolds, hopt, Opt.decode_encode, hlen, c.length_wire]
  rfl

theorem encode_served (t : Tlv) : encode (fun _ => true) t [] = (bodyBytes t).map fun _ => putTlv t := by
  unfold encode tlvBytes
  cases bodyBytes t <;> rfl

theorem stampOk_words {t : TlvOf Int} (h : WellFormed t) :
    stampOk (words t).opt (words t).trailer = true := by
  obtain ⟨type, opt, payload, children, trailer⟩ := t
  obtain ⟨-, -, -, hsome, hform⟩ := h
  have hsome : (trailer.bind TrailerOf.ts).isSome = opt.ts := hsome
  have hform : ∀ ts ∈ trailer.bind TrailerOf.ts, ts.relative = opt.tf := fun ts h => (hform ts h).1
  show stampOk opt (trailer.map (mapTrailer _)) = true
  unfold stampOk
  cases hts : opt.ts
  · rfl
  · rw [hts] at hsome
    obtain ⟨ts, hstamp⟩ := Option.isSome_iff_exists.mp hsome
    obtain ⟨tr, htr, htrts⟩ := Option.bind_eq_some_iff.mp hstamp
    subst htr
    simp [mapTrailer, htrts, hform ts hstamp]

/-- **The three encoders agree on a tree exactly when it is refused or no length field is too
    narrow**: the C++ encoder refuses it, or every node whose `opt.ll` is clear has a body of at
    most `0xFFFF` bytes. -/
theorem encoders_agree_iff (t : TlvOf Int) (hwf : t.All WellFormed) (hshort : (words t).All Short) :
    EncodersAgree t ↔ encode (fun _ => true) (words t) [] = none ∨ (words t).All Fits := by
  have hstamps : (words t).All (fun n => stampOk n.opt n.trailer = true) :=
    all_mapStamp _ (fun n hn => stampOk_words hn) hwf
  have hleaf : (words t).All (fun n => n.opt.pl = false → n.children = []) := by
    refine all_mapStamp _ (fun n hn => ?_) hwf
    obtain ⟨type, opt, payload, children, trailer⟩ := n
    intro hpl
    have hnil : children = [] := hn.2.2.1 hpl
    subst hnil
    rfl
  have htype : (words t).type ≠ 0 := by
    cases t
    exact (TlvOf.all_mk.mp hwf).1.1
  have hid : mapStamp id (words t) = words t := mapStamp_id _
  rw [EncodersAgree, encode_served]
  cases hb : bodyBytes (words t) with
  | none =>
    have hrust : rust.encode (words t) = [] :=
      Port.encode_of_refused rust id _ (by rw [hid]; exact hb) (by rw [hid]; exact hstamps)
    exact ⟨fun _ => .inl rfl, fun _ => .inl
      ⟨rfl, hrust, Port.encode_of_refused typeScript (BitVec.ofInt 64) t hb hstamps⟩⟩
  | some b =>
    simp only [Option.map_some, reduceCtorEq, false_and, false_or, Option.some.injEq]
    constructor
    · rintro ⟨out, rfl, hrust, -, -⟩
      -- equal bytes have equal lengths
      have hlen := Port.length_encode rust_lawful (words t) b (by rw [hid]; exact hb)
        (by rw [hid]; exact hleaf)
      rw [hid, hrust] at hlen
      exact hlen.2.2 (length_put _ b hb).2
    · intro hfits
      obtain ⟨c, hc, -⟩ := exists_cell hb htype (by
        have := hshort (words t) (by cases t; simp [words, mapStamp, TlvOf.nodes])
        rwa [Short, hb] at this)
      refine ⟨putTlv (words t), rfl, ?_, ?_, by rw [hc]; exact Cell.lengthHolds c⟩
      · have h := Port.encode_of_fits rust_lawful (words t) b (by rw [hid]; exact hb)
          (by rw [hid]; exact hshort) (by rw [hid]; exact hfits)
        rwa [hid] at h
      · exact Port.encode_of_fits typeScript_lawful t b hb hshort hfits

def stampedTree : TlvOf Int :=
  .mk 0x07 { pl := true } []
    [.mk 0x01 { ts := true, cr := true, cw := true, tf := true } [0xAB, 0xCD] []
      (some { ts := some ⟨true, -5⟩ })] none

theorem encoders_agree_iff_stampedTree :
    stampedTree.All WellFormed ∧ (words stampedTree).All Short ∧ EncodersAgree stampedTree := by
  have hwf : stampedTree.All WellFormed := by decide +kernel
  have hshort : (words stampedTree).All Short := by decide +kernel
  exact ⟨hwf, hshort, (encoders_agree_iff _ hwf hshort).mpr (.inr (by decide +kernel))⟩

def longTlv : TlvOf Int := .mk 0x01 {} (List.replicate 0x10000 0) [] none

theorem bodyBytes_longTlv : bodyBytes (words longTlv) = some 0x10000 := by
  rw [bodyBytes_eq]
  show some (List.replicate 0x10000 (0 : UInt8)).length = _
  rw [length_replicate]

theorem Port.take_encode_leaf {τ : Type} {P : Port τ} {word : τ → BitVec 64} (hP : P.Lawful word)
    (payload : Bytes) : (P.encode (.mk 0x01 {} payload [] none)).take 4 =
      0x01 :: 0x00 :: LittleEndian.store payload.length 2 := by
  have hshape : shapeOk 0x01 {} payload.length = true := rfl
  have hbody : (if ({} : Opt).pl then P.encodeChildren [] else some payload) = some payload := rfl
  have hlen : (LittleEndian.store payload.length 2).length = 2 := LittleEndian.length_store _ _
  rw [Port.encode_mk hP hshape hbody, Port.frame_eq hP, append_assoc]
  show 0x01 :: 0x00 :: (LittleEndian.store payload.length 2 ++ _).take 2 = _
  rw [take_append_of_le_length (by omega), take_of_length_le (by omega)]

/-- The ports give the long node a length field of `0x0000` and no widened header. -/
theorem encoders_disagree : longTlv.All WellFormed ∧ (words longTlv).All Short ∧ ¬EncodersAgree longTlv ∧
      (rust.encode (words longTlv)).take 4 = [0x01, 0x00, 0x00, 0x00] ∧
      (typeScript.encode longTlv).take 4 = [0x01, 0x00, 0x00, 0x00] := by
  have hlen : (List.replicate 0x10000 (0 : UInt8)).length = 0x10000 := length_replicate
  have hstore : LittleEndian.store 0x10000 2 = [0x00, 0x00] := by decide
  have hrust : (rust.encode (words longTlv)).take 4 = [0x01, 0x00, 0x00, 0x00] := by
    have h := Port.take_encode_leaf rust_lawful (List.replicate 0x10000 0)
    rwa [hlen, hstore] at h
  have hts : (typeScript.encode longTlv).take 4 = [0x01, 0x00, 0x00, 0x00] := by
    have h := Port.take_encode_leaf typeScript_lawful (List.replicate 0x10000 0)
    rwa [hlen, hstore] at h
  have hone : ∀ {σ : Type} (n t : TlvOf σ), t.children = [] → n ∈ t.nodes → n = t := by
    intro σ n t hnil hn
    cases t
    subst hnil
    simpa [TlvOf.nodes, TlvOf.nodesList] using hn
  refine ⟨?_, ?_, ?_, hrust, hts⟩
  · intro n hn
    rw [hone n longTlv rfl hn]
    refine ⟨by decide, ?_, fun _ => rfl, rfl, ?_⟩
    · intro h
      cases h
    · intro ts h
      cases h
  · intro n hn
    rw [hone n (words longTlv) rfl hn, Short, bodyBytes_longTlv]
    decide
  · rintro (⟨hnone, -⟩ | ⟨out, hout, hr, -⟩)
    · rw [encode_served, bodyBytes_longTlv] at hnone
      cases hnone
    · -- the C++ frame has its second byte widened
      rw [encode_served, bodyBytes_longTlv] at hout
      cases hout
      have hbyte : (putTlv (words longTlv)).take 2 = [0x01, 0x08] := by
        rw [putTlv_eq, bodyBytes_longTlv]
        rfl
      have htake := congrArg (List.take 2) hrust
      rw [take_take, hr] at htake
      have hcpp : [0x01, 0x08] = ([0x01, 0x00] : Bytes) := hbyte.symm.trans htake
      exact absurd hcpp (by decide)

end LibTracer.Bindings
