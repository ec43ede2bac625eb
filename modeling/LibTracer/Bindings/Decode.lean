import LibTracer.Bindings.Codec

/-!
# The three decoders agree

Each decoder's outcome is put in one form, the tree with its timestamps as 64-bit words or the
error's name (`cppReport`, `Port.report`).

* `decoders_agree` : on every input the three reports are the same.
-/

namespace LibTracer.Bindings

open Window Wire Grammar List
open Crc (Bytes)

/-! ## Reports -/

/-- `error_name` of the C++ conformance runner. -/
def errorName : Err → String
  | .FRAME_TRUNCATED => "FRAME_TRUNCATED"
  | .FRAME_INVALID => "FRAME_INVALID"
  | .FRAME_CRC_FAIL => "FRAME_CRC_FAIL"
  | .TLV_NESTING_TOO_DEEP => "TLV_NESTING_TOO_DEEP"
  | _ => "UNKNOWN"

def cppReport (input : Bytes) : Except String Tlv :=
  ((TlvNode.overSpan input serveAll).mapError errorName).map TlvNode.tree

theorem cppReport_eq (input : Bytes) : cppReport input =
    ((Grammar.decode .VERIFY unbounded input).mapError errorName).map treeOf := by
  rw [cppReport, over_eq_decode, room_serveAll]
  cases hd : Grammar.decode .VERIFY unbounded input with
  | error e => rfl
  | ok n => exact congrArg Except.ok (tree_of_parses (parses_of_decode hd)).1

/-- What a port makes of an input; `none` if its loop did not end. -/
def Port.report {τ : Type} (P : Port τ) (word : τ → BitVec 64) (input : Bytes) :
    Option (Except String Tlv) :=
  (P.decode input).map fun r => (r.mapError Error.name).map (mapStamp word)

/-! ## One TLV -/

variable {e : Err} {c : Cell} {τ : Type}

/-- One check on both sides, whose refusals have one name. -/
theorem refused_ite {α β : Type} {p : Prop} [Decidable p] {d : Err} {er : Error} {x : Except Err α}
    {y : Except Error β} (hname : er.name = errorName d)
    (hrest : ¬p → x = .error e → ∃ er, y = .error er ∧ er.name = errorName e)
    (h : (if p then .error d else x) = .error e) :
    ∃ er', (if p then .error er else y) = .error er' ∧ er'.name = errorName e := by
  split at h
  next hp =>
    cases h
    exact ⟨er, if_pos hp, hname⟩
  next hp =>
    rw [if_neg hp]
    exact hrest hp h

section Lawful

variable {τ : Type} {P : Port τ} {word : τ → BitVec 64} (hP : P.Lawful word)
include hP

section

variable (c : Cell) (rest : Bytes)

theorem Port.readStamp_cell : (P.readStamp (c.wire ++ rest) c.opt (c.opt.header + c.body.length)).map
      (fun s => (⟨s.relative, word s.value⟩ : Timestamp)) =
      if c.opt.ts then some ⟨c.opt.tf, loadStamp c.opt.tf c.ts⟩ else none := by
  have hts := c.window_ts rest
  have hlen : (c.wire ++ rest).length = c.header.total + rest.length := by
    rw [length_append, c.length_wire]
  simp only [Cell.header] at hlen
  unfold Port.readStamp loadStamp
  by_cases hp : c.opt.ts = true
  · by_cases htf : c.opt.tf = true
    · have h4 : c.opt.tsSize = 4 := by simp [Opt.tsSize, hp, htf]
      rw [h4] at hts hlen
      simp only [hp, htf, if_true, Option.map_some, hP.ofRelative_eq, hts,
        hP.readLe_eq (c.wire ++ rest) (c.opt.header + c.body.length) 4 (by omega)]
    have h8 : c.opt.tsSize = 8 := by simp [Opt.tsSize, hp, htf]
    rw [h8] at hts hlen
    simp only [hp, htf, if_true, Option.map_some, Bool.false_eq_true, if_false, hts,
      hP.ofAbsolute_eq, hP.readLe64_eq (c.wire ++ rest) (c.opt.header + c.body.length) (by omega)]
  · simp [hp]

theorem Port.readCrc_cell (hcr : c.opt.cr = true) :
    P.readCrc (c.wire ++ rest) c.opt c.opt.header c.body.length c.opt.tsSize =
      if c.crc = crcBytes c.opt (c.body ++ c.ts) then
        .ok ⟨if c.opt.cw then .CRC16_CCITT else .CRC32C, BitVec.ofNat 32 (LittleEndian.load c.crc)⟩
      else .error .FrameCrcFail := by
  have hcrc := c.window_crc rest
  have hlen : (c.wire ++ rest).length = c.header.total + rest.length := by
    rw [length_append, c.length_wire]
  have hcl := c.crc_length
  simp only [Cell.header] at hlen
  unfold Port.readCrc crcBytes
  simp only [c.window_covered, hcr, if_true, hP.crc16_eq, hP.crc32c_eq]
  by_cases hcw : c.opt.cw = true
  · have h2 : c.opt.crcSize = 2 := by simp [Opt.crcSize, hcr, hcw]
    rw [h2] at hcrc hlen hcl
    have hiff := LittleEndian.eq_load_iff (Crc.crc16Ccitt (c.body ++ c.ts)).isLt hcl
    simp only [hcw, if_true, hcrc, hP.readLe_eq (c.wire ++ rest)
      (c.opt.header + c.body.length + c.opt.tsSize) 2 (by omega), ne_eq, hiff, ite_not]
  have h4 : c.opt.crcSize = 4 := by simp [Opt.crcSize, hcr, hcw]
  rw [h4] at hcrc hlen hcl
  have hiff := LittleEndian.eq_load_iff (Crc.crc32c (c.body ++ c.ts)).isLt hcl
  simp only [hcw, hcrc, hP.readLe_eq (c.wire ++ rest)
    (c.opt.header + c.body.length + c.opt.tsSize) 4 (by omega), ne_eq, hiff, ite_not]
  rfl

theorem Port.parseTrailer_cell :
    (c.Sealed ∧ ∃ tr, P.parseTrailer (c.wire ++ rest) c.opt c.opt.header c.body.length
        c.opt.tsSize = .ok tr ∧ tr.map (mapTrailer word) = cellTrailer c) ∨
    (¬c.Sealed ∧ P.parseTrailer (c.wire ++ rest) c.opt c.opt.header c.body.length c.opt.tsSize =
      .error .FrameCrcFail) := by
  have hstamp := Port.readStamp_cell hP c rest
  unfold Port.parseTrailer cellTrailer
  generalize P.readStamp (c.wire ++ rest) c.opt (c.opt.header + c.body.length) = ts at hstamp ⊢
  by_cases hcr : c.opt.cr = true
  · rw [Port.readCrc_cell hP c rest hcr]
    by_cases hs : c.crc = crcBytes c.opt (c.body ++ c.ts)
    · refine .inl ⟨hs, some { ts, crc := some ⟨if c.opt.cw then .CRC16_CCITT else .CRC32C,
        BitVec.ofNat 32 (LittleEndian.load c.crc)⟩ }, ?_, ?_⟩
      · simp only [hcr, if_pos hs, Bool.or_true, if_true]
      · simp only [hcr, Bool.and_false, Bool.not_true, Bool.false_eq_true, if_false, if_true,
          Option.map_some, mapTrailer, hstamp]
    · exact .inr ⟨hs, by simp only [hcr, if_neg hs, Bool.or_true, if_true]⟩
  · refine .inl ⟨Cell.sealed_of_cr (by simpa using hcr), if c.opt.ts then some { ts } else none, ?_⟩
    by_cases hp : c.opt.ts = true
    · simp only [hp, if_true] at hstamp
      simp [hp, hcr, mapTrailer, hstamp]
    · simp [hp, hcr]

theorem Port.parseOne_wire : P.parseOne (c.wire ++ rest) =
      match P.parseTrailer (c.wire ++ rest) c.opt c.opt.header c.body.length c.opt.tsSize with
      | .error e => .error e
      | .ok trailer =>
        .ok ⟨.mk c.type c.opt (if c.opt.pl then [] else c.body) [] trailer, c.header.total,
          if c.opt.pl then c.body else P.opaqueRegion c.body⟩ := by
  have hlen : (c.wire ++ rest).length = c.header.total + rest.length := by
    rw [length_append, c.length_wire]
  have htotal : c.header.total =
      c.opt.header + c.body.length + c.opt.tsSize + c.opt.crcSize := rfl
  have h4 := c.opt.four_le_header
  have hhd := c.opt.header_eq
  have htype : (c.wire ++ rest).getD 0 0 = c.type := rfl
  have hopt : (c.wire ++ rest).getD 1 0 = c.opt.encode := rfl
  have hload : P.readLe (c.wire ++ rest) 2 c.opt.lengthWidth = c.body.length := by
    rw [hP.readLe_eq _ _ _ (by omega), c.window_length]
  have hheader : (if c.opt.ll = true then 6 else 4) = c.opt.header := rfl
  have hwidth : (if c.opt.ll = true then 4 else 2) = c.opt.lengthWidth := rfl
  have hts : (if c.opt.ts = true then if c.opt.tf = true then 4 else 8 else 0) = c.opt.tsSize := rfl
  have hcrc : (if c.opt.cr = true then if c.opt.cw = true then 2 else 4 else 0) = c.opt.crcSize :=
    rfl
  have hshape : (isPathRefType c.type && !pathRefBodyValid c.opt.pl c.opt.ll c.body.length) =
      false := (Bool.not_eq_true' _).mp c.shape
  unfold Port.parseOne
  simp only [htype, hopt, Opt.decode_encode, Opt.reservedSet_encode, c.type_ne, hheader, hwidth, hts,
    hcrc, hload, hshape, c.window_body, hlen, Bool.false_eq_true, if_false]
  rw [if_neg (by omega), if_neg (by omega), if_neg (by omega)]
  rfl

end

variable {buf : Bytes}

theorem Port.parseOne_defer (h : readHeader buf .DEFER = .error e) :
    ∃ er, P.parseOne buf = .error er ∧ er.name = errorName e := by
  unfold readHeader at h
  unfold Port.parseOne
  simp only [reduceCtorEq, false_and, if_false] at h
  simp only
  generalize buf.getD 0 0 = type at h ⊢
  refine refused_ite rfl (fun h4 h => ?_) h
  refine refused_ite rfl (fun _ h => ?_) h
  refine refused_ite rfl (fun _ h => ?_) h
  generalize Opt.decode (buf.getD 1 0) = opt at h ⊢
  have hheader : (if opt.ll = true then 6 else 4) = opt.header := rfl
  have hwidth : (if opt.ll = true then 4 else 2) = opt.lengthWidth := rfl
  have hts : (if opt.ts = true then if opt.tf = true then 4 else 8 else 0) = opt.tsSize := rfl
  have hcrc : (if opt.cr = true then if opt.cw = true then 2 else 4 else 0) = opt.crcSize := rfl
  simp only [hheader, hwidth, hts, hcrc]
  have hhd := opt.header_eq
  refine refused_ite rfl (fun hlong h => ?_) h
  rw [hP.readLe_eq buf 2 opt.lengthWidth (by omega)]
  generalize LittleEndian.load (window buf 2 opt.lengthWidth) = length at h ⊢
  have hshape : (isPathRefType type && !pathRefBodyValid opt.pl opt.ll length) =
      !shapeOk type opt length := by simp [shapeOk]
  rw [hshape]
  refine refused_ite rfl (fun _ h => ?_) h
  refine refused_ite rfl (fun _ h => ?_) h
  cases h

theorem Port.parseOne_error (h : readHeader buf .VERIFY = .error e) :
    ∃ er, P.parseOne buf = .error er ∧ er.name = errorName e := by
  cases hd : readHeader buf .DEFER with
  | error e' =>
    rw [Cell.readHeader_verify_error hd] at h
    cases h
    exact Port.parseOne_defer hP hd
  | ok hdr =>
    obtain ⟨c, rest, rfl, -, -⟩ := Cell.of_readHeader hd
    rw [c.readHeader_wire_eq] at h
    rcases Port.parseTrailer_cell hP c rest with ⟨hs, -⟩ | ⟨hs, htr⟩
    · rw [if_neg fun h => h.2 hs] at h
      cases h
    rw [if_pos ⟨rfl, hs⟩] at h
    cases h
    exact ⟨.FrameCrcFail, by rw [Port.parseOne_wire hP, htr], rfl⟩

theorem Port.parseOne_cell (hs : c.Sealed) (rest : Bytes) :
    ∃ p, P.parseOne (c.wire ++ rest) = .ok p ∧ p.total = c.header.total ∧
      mapStamp word p.tlv = treeOf (.mk c.header c.wire []) ∧ p.tlv.opt = c.opt ∧
      (c.opt.pl = true → p.children = c.body) := by
  rcases Port.parseTrailer_cell hP c rest with ⟨-, tr, htr, hmap⟩ | ⟨hns, -⟩
  · refine ⟨_, by rw [Port.parseOne_wire hP, htr], rfl, ?_, rfl, fun hpl => ?_⟩
    · rw [treeOf_cell, ← hmap]
      rfl
    · simp only [hpl, if_true]
  · exact absurd hs hns

end Lawful

/-! ## The loop -/

def addAll : Tlv → List Tlv → Tlv
  | .mk type opt payload children trailer, cs => .mk type opt payload (children ++ cs) trailer

theorem addAll_nil (t : Tlv) : addAll t [] = t := by
  cases t
  simp [addAll]

theorem addAll_addChild (t c : Tlv) (cs : List Tlv) : addAll (addChild t c) cs = addAll t (c :: cs) := by
  cases t
  simp [addAll, addChild]

theorem addAll_treeOf (h : Header) (bytes : Bytes) (kids : List Node) :
    addAll (treeOf (.mk h bytes [])) (treesOf kids) = treeOf (.mk h bytes kids) := by
  simp [addAll, treeOf, treesOf]

theorem mapStamps_append {σ : Type} (f : τ → σ) (as bs : List (TlvOf τ)) :
    mapStamps f (as ++ bs) = mapStamps f as ++ mapStamps f bs := by
  induction as with
  | nil => rfl
  | cons a as ih => rw [cons_append, mapStamps, ih, mapStamps, cons_append]

theorem mapStamp_addChild (f : τ → BitVec 64) (t c : TlvOf τ) :
    mapStamp f (addChild t c) = addChild (mapStamp f t) (mapStamp f c) := by
  cases t
  simp [addChild, mapStamp, mapStamps_append, mapStamps]

/-- A finished node among its open ancestors: each one's remaining region is read in turn. -/
def finish (t : Tlv) : List (Tlv × Bytes) → Except Err Tlv
  | [] => .ok t
  | (parent, r) :: stack => do
    let ns ← decodeSeq .VERIFY unbounded 0 r
    finish (addAll (addChild parent t) (treesOf ns)) stack

/-- What open nodes still owe: the rest `r` of the innermost region, then its ancestors. -/
def resume (t : Tlv) (r : Bytes) (stack : List (Tlv × Bytes)) : Except Err Tlv := do
  let ns ← decodeSeq .VERIFY unbounded 0 r
  finish (addAll t (treesOf ns)) stack

def owed (stack : List (Tlv × Bytes)) : Nat := (stack.map fun x => x.2.length + 1).sum

theorem resume_nil (t : Tlv) (stack : List (Tlv × Bytes)) : resume t [] stack = finish t stack := by
  rw [resume, decodeSeq_nil]
  show finish (addAll t []) stack = _
  rw [addAll_nil]

theorem resume_error {r : Bytes} (hne : r ≠ []) (h : readHeader r .VERIFY = .error e)
    (t : Tlv) (stack : List (Tlv × Bytes)) : resume t r stack = .error e := by
  rw [resume, decodeSeq_error hne h]
  rfl

theorem resume_cell (hs : c.Sealed) (rest : Bytes) (t : Tlv) (stack : List (Tlv × Bytes)) :
    resume t (c.wire ++ rest) stack =
      if c.opt.pl then resume (treeOf (.mk c.header c.wire [])) c.body ((t, rest) :: stack)
      else resume (addChild t (treeOf (.mk c.header c.wire []))) rest stack := by
  have hgraft : ∀ kids ns, addAll t (treesOf (.mk c.header c.wire kids :: ns)) =
      addAll (addChild t (treeOf (.mk c.header c.wire kids))) (treesOf ns) := by
    intro kids ns
    rw [addAll_addChild, treesOf]
  rw [resume, decodeSeq_cell c rest fun _ => hs, decodeKids_unbounded]
  cases hpl : c.opt.pl
  · rw [if_neg (by decide), decodeSeq_nil, if_neg (by decide), resume]
    cases decodeSeq .VERIFY unbounded 0 rest with
    | error e => rfl
    | ok ns => exact congrArg (finish · stack) (hgraft [] ns)
  · rw [if_pos rfl, if_pos rfl, resume]
    cases decodeSeq .VERIFY unbounded 0 c.body with
    | error e => rfl
    | ok kids =>
      show _ = finish (addAll (treeOf (.mk c.header c.wire [])) (treesOf kids)) ((t, rest) :: stack)
      rw [addAll_treeOf, finish]
      cases decodeSeq .VERIFY unbounded 0 rest with
      | error e => rfl
      | ok ns => exact congrArg (finish · stack) (hgraft kids ns)

section Loop

variable {τ : Type} {P : Port τ} {word : τ → BitVec 64}

/-- The abstract stack of a port's stack: each node's tree so far, and the rest of its region behind
    the node open above it, whose `skip` bytes its position does not count yet. -/
def Stands (word : τ → BitVec 64) : Nat → List (Open τ) → List (Tlv × Bytes) → Prop
  | _, [], [] => True
  | skip, f :: fs, (t, r) :: rs =>
    mapStamp word f.node = t ∧ f.pos + skip ≤ f.payload.length ∧
      f.payload.drop (f.pos + skip) = r ∧ Stands word f.total fs rs
  | _, _, _ => False

/-- **From any stack a port's loop does what its open nodes still owe.** -/
theorem Port.decodeLoop_eq (hP : P.Lawful word) (fuel : Nat) : ∀ (stack : List (Open τ)) (t : Tlv)
    (r : Bytes) (rs : List (Tlv × Bytes)), Stands word 0 stack ((t, r) :: rs) →
    owed ((t, r) :: rs) ≤ fuel → ∃ res, P.decodeLoop fuel stack = some res ∧
      (res.mapError Error.name).map (mapStamp word) = (resume t r rs).mapError errorName := by
  induction fuel with
  | zero =>
    intro stack t r rs _ hf
    simp only [owed, map_cons, sum_cons] at hf
    omega
  | succ fuel ih =>
    intro stack t r rs hst hf
    match stack, hst with
    | top :: below, ⟨hnode, hpos, hdrop, hbelow⟩ =>
    rw [Nat.add_zero] at hpos hdrop
    simp only [owed, map_cons, sum_cons] at hf ih
    by_cases hr : r = []
    · -- the innermost node is complete
      subst hr
      have hend : top.pos = top.payload.length := by
        have := drop_eq_nil_iff.mp hdrop
        omega
      rw [resume_nil]
      match below, rs, hbelow with
      | [], [], _ =>
        refine ⟨.ok top.node, by simp only [Port.decodeLoop, hend, if_true], ?_⟩
        show Except.ok (mapStamp word top.node) = _
        rw [hnode]
        rfl
      | parent :: below, (pt, pr) :: rs, ⟨hpn, hpp, hpd, hpb⟩ =>
        rw [Port.decodeLoop, if_pos hend]
        refine ih _ (addChild pt t) pr rs ⟨?_, hpp, hpd, hpb⟩ ?_
        · rw [mapStamp_addChild, hpn, hnode]
        · simp only [map_cons, sum_cons, length_nil] at hf
          omega
    have hgo : top.pos ≠ top.payload.length := by
      rintro hend
      rw [hend, drop_length] at hdrop
      exact hr hdrop.symm
    rw [Port.decodeLoop.eq_def]
    simp only [hgo, if_false, hdrop]
    rcases readHeader_cases r .VERIFY with ⟨e, he⟩ | ⟨c, rest, rfl, hs⟩
    · obtain ⟨er, hparse, hname⟩ := Port.parseOne_error hP he
      refine ⟨.error er, by rw [hparse], ?_⟩
      rw [resume_error hr he]
      exact congrArg Except.error hname
    obtain ⟨p, hparse, htotal, htree, hopt, hregion⟩ := Port.parseOne_cell hP (hs rfl) rest
    have hlen := c.length_body_lt
    have hrest : top.payload.drop (top.pos + c.header.total) = rest := by
      rw [← drop_drop, hdrop, ← c.length_wire, drop_left]
    have hfit : top.pos + c.header.total ≤ top.payload.length := by
      have hl := congrArg List.length hdrop
      rw [length_drop, length_append, c.length_wire] at hl
      omega
    rw [length_append] at hf
    rw [hparse, resume_cell (hs rfl)]
    simp only [hopt]
    by_cases hpl : c.opt.pl = true
    · -- a structured child: its region goes on top
      rw [if_pos hpl, if_pos hpl, hregion hpl]
      refine ih _ _ c.body ((t, rest) :: rs) ⟨htree, Nat.zero_le _, rfl, ?_⟩ ?_
      · rw [htotal]
        exact ⟨hnode, hfit, hrest, hbelow⟩
      · simp only [map_cons, sum_cons]
        omega
    rw [if_neg hpl, if_neg hpl]
    refine ih _ _ rest rs ⟨?_, ?_, ?_, hbelow⟩ (by omega)
    · rw [mapStamp_addChild, hnode, htree]
    · rw [htotal]
      exact hfit
    · rw [htotal]
      exact hrest

/-- **A port decodes as the C++ core does.** -/
theorem Port.report_eq (hP : P.Lawful word) (input : Bytes) :
    P.report word input = some (cppReport input) := by
  unfold Port.report Port.decode
  rw [cppReport_eq]
  rcases readHeader_cases input .VERIFY with ⟨e, he⟩ | ⟨c, rest, rfl, hs⟩
  · obtain ⟨er, hparse, hname⟩ := Port.parseOne_error hP he
    rw [hparse, decode_error he]
    exact congrArg (fun n => some (Except.error n)) hname
  obtain ⟨p, hparse, htotal, htree, hopt, hregion⟩ := Port.parseOne_cell hP (hs rfl) rest
  rw [hparse]
  simp only [htotal, hopt]
  by_cases hrest : rest = []
  swap
  · -- bytes behind the root
    have hlen : c.header.total ≠ (c.wire ++ rest).length := by
      have := length_pos_iff.mpr hrest
      rw [length_append, c.length_wire]
      omega
    rw [if_pos hlen, decode_trailing c hrest hs]
    rfl
  subst hrest
  rw [append_nil, c.length_wire, if_neg (fun h => h rfl), decode_cell c hs]
  cases hpl : c.opt.pl
  · rw [decodeKids, hpl]
    show some (Except.ok (mapStamp word p.tlv)) = _
    rw [htree]
    rfl
  · have hlen := c.length_body_lt
    rw [c.length_wire] at hlen
    obtain ⟨res, hloop, hres⟩ := Port.decodeLoop_eq hP (c.header.total + 1)
      [⟨p.tlv, p.children, 0, c.header.total⟩] (treeOf (.mk c.header c.wire [])) c.body []
      ⟨htree, Nat.zero_le _, by rw [hregion hpl]; rfl, trivial⟩
      (by simp only [owed, map_cons, map_nil, sum_cons, sum_nil]; omega)
    simp only [Bool.not_true, Bool.false_eq_true, if_false, hloop, Option.map_some, hres,
      decodeKids_unbounded, hpl, if_true, resume]
    cases decodeSeq .VERIFY unbounded 0 c.body with
    | error e => rfl
    | ok kids =>
      show some (Except.ok (addAll (treeOf (.mk c.header c.wire [])) (treesOf kids))) = _
      rw [addAll_treeOf]
      rfl

end Loop

/-! ## The three decoders -/

/-- Error names and trees of the Rust crate's `decode`. -/
def rustReport (input : Bytes) : Option (Except String Tlv) :=
  (rust.decode input).map (Except.mapError Error.name)

/-- Error names and trees of the TypeScript package's `decode`, timestamps as 64-bit patterns. -/
def typeScriptReport (input : Bytes) : Option (Except String Tlv) :=
  typeScript.report (BitVec.ofInt 64) input

/-- **The three decoders agree**: on every byte string the Rust and the TypeScript decoder end, with
    the verdict of the C++ core: the same error name, or the same tree of types, opt bits, payload
    bytes, children, CRC values and timestamp words. -/
theorem decoders_agree (input : Bytes) : rustReport input = some (cppReport input) ∧
      typeScriptReport input = some (cppReport input) := by
  refine ⟨?_, Port.report_eq typeScript_lawful input⟩
  rw [← Port.report_eq rust_lawful input, rustReport, Port.report]
  cases rust.decode input with
  | none => rfl
  | some r =>
    cases r with
    | error e => rfl
    | ok t => exact congrArg (fun t => some (Except.ok t)) (mapStamp_id t).symm

end LibTracer.Bindings
