import LibTracer.Net.Forward
import LibTracer.Wire.TlvView

/-!
# The request as the terminus reads it (`parse_fwd`)

The terminus reads a frame through its tree, the router through offsets.  The tree comes in two
kinds, the decoded arena of a contiguous frame and the lazy view of a rope, behind one interface.

* **`router_terminus_agree`** — destination, selector and source are those the router acts on.
-/

namespace LibTracer.Net

open Window Wire Wire.Grammar List
open Crc (Bytes)
open LibTracer.Graph (VALUE)
open LibTracer.Graph.State (PATH)

/-! ## Node readers -/

class NodeReader (N : Type) where
  /-- the iterator over children -/
  Iter : Type
  type : N → UInt8
  structured : N → Bool
  body : N → Bytes
  children : N → Iter
  next : Iter → Option N × Iter

/-- When a node shows a cell and an iterator stands at a region. -/
class LawfulReader (N : Type) [NodeReader N] where
  Shows : N → Cell → Prop
  At : NodeReader.Iter N → Bytes → Prop
  type_eq {n : N} {c : Cell} : Shows n c → NodeReader.type n = c.type
  structured_eq {n : N} {c : Cell} : Shows n c → NodeReader.structured n = c.opt.pl
  body_eq {n : N} {c : Cell} : Shows n c → NodeReader.body n = c.body
  children_at {n : N} {c : Cell} : Shows n c →
    At (NodeReader.children n) (if c.opt.pl then c.body else [])
  next_shows {k : NodeReader.Iter N} {c : Cell} {rest : Bytes} : At k (c.wire ++ rest) →
    ∃ n k', NodeReader.next k = (some n, k') ∧ Shows n c ∧ At k' rest

/-- `arena_node`. -/
instance : NodeReader Grammar.Node where
  Iter := List Grammar.Node
  type | .mk h _ _ => h.type
  structured | .mk h _ _ => h.opt.pl
  body | .mk h bytes _ => window bytes h.header h.length
  children | .mk _ _ kids => kids
  next | [] => (none, []) | n :: ns => (some n, ns)

instance : LawfulReader Grammar.Node where
  Shows n c := ∃ p kids, n = .mk c.header c.wire kids ∧
    Parses p (if c.opt.pl then c.body else []) kids
  At k bs := ∃ p, Parses p bs k
  type_eq := by rintro _ c ⟨_, _, rfl, _⟩; rfl
  structured_eq := by rintro _ c ⟨_, _, rfl, _⟩; rfl
  body_eq := by
    rintro _ c ⟨_, _, rfl, _⟩
    have hbody := c.window_body []
    rwa [append_nil] at hbody
  children_at := by
    rintro _ c ⟨p, kids, rfl, hkids⟩
    exact ⟨p, hkids⟩
  next_shows := by
    rintro k c rest ⟨p, h⟩
    obtain ⟨-, kids, ns', rfl, hkids, hrest⟩ := parses_cell_iff.mp h
    exact ⟨_, ns', rfl, ⟨p, kids, rfl, hkids⟩, ⟨p, hrest⟩⟩

theorem shows_of_parses {p : CrcCheck} {root : Cell} {n : Grammar.Node}
    (h : Parses p root.wire [n]) : LawfulReader.Shows n root := by
  rw [← append_nil root.wire] at h
  obtain ⟨-, kids, ns', hns, hkids, -⟩ := parses_cell_iff.mp h
  exact ⟨p, kids, (List.cons.inj hns).1, hkids⟩

/-- `view_node`, its flattens granted: an error among the children ends the iteration. -/
instance : NodeReader TlvView where
  Iter := Children
  type v := v.hdr.type
  structured := TlvView.structured
  body v := v.body.bytes
  children := TlvView.children
  next it :=
    match it.next with
    | (.ok n, it') => (n, it')
    | (.error _, it') => (none, it')

instance : LawfulReader TlvView where
  Shows := TlvView.Shows
  At := Children.At
  type_eq h := congrArg Header.type h.hdr
  structured_eq h := congrArg (fun d => d.opt.pl) h.hdr
  body_eq h := h.body_bytes
  children_at h := h.children_at
  next_shows h := by
    obtain ⟨child, it', hnext, hshows, hat⟩ := h.next_cell
    refine ⟨child, it', ?_, hshows, hat⟩
    show (match Children.next _ with | (.ok n, it') => (n, it') | (.error _, it') => (none, it')) = _
    rw [hnext]

/-! ## The parse -/

/-- `kDefaultAwaitTimeout`, in nanoseconds. -/
def kDefaultAwaitTimeout : Nat := 1000000000

structure ParsedFwd (N : Type) where
  op : FwdOp
  opDefined : Bool
  dst : N
  selector : Option N
  src : N
  payload : Option N := none
  reverse : Option N := none
  awaitTimeout : Nat := kDefaultAwaitTimeout

section Parse

variable {N : Type} [NodeReader N]

open NodeReader

def opByte (op : N) : UInt8 := (body op).headD 0

def reverseOf (tail : Option N) : Option N := tail.filter (type · == PATH_REF_REVERSE)

/-- What follows `src`: the payload of a `WRITE`, the timeout of an `AWAIT`, the way back. -/
def parseTail (req : ParsedFwd N) (ch : Iter N) : ParsedFwd N :=
  match next ch with
  | (none, _) => req
  | (some tail, ch) =>
    if req.op = .WRITE ∧ type tail ≠ PATH_REF_REVERSE then
      { req with payload := some tail, reverse := reverseOf (next ch).1 }
    else if req.op = .AWAIT ∧ type tail = VALUE then
      { req with
        awaitTimeout := LittleEndian.load ((body tail).take 8)
        reverse := reverseOf (next ch).1 }
    else { req with reverse := reverseOf (some tail) }

/-- `src` and what follows it. -/
def parseSrc (op : UInt8) (dst : N) (selector : Option N) :
    Option N × Iter N → Except Status (ParsedFwd N)
  | (none, _) => .error .INVALID_PATH
  | (some src, ch) =>
    if type src ≠ PATH then .error .INVALID_PATH
    else .ok (parseTail ⟨.ofByte op, op ≤ 3, dst, selector, src, none, none, kDefaultAwaitTimeout⟩ ch)

def parseSelector (op : UInt8) (dst : N) (ch : Iter N) : Except Status (ParsedFwd N) :=
  match next ch with
  | (some f, ch') =>
    if type f = FIELD then parseSrc op dst (some f) (next ch') else parseSrc op dst none (some f, ch')
  | (none, ch') => parseSrc op dst none (none, ch')

def parseFwd (root : N) : Except Status (ParsedFwd N) :=
  if type root ≠ FWD ∨ structured root = false then .error .INVALID_PATH
  else
    match next (children root) with
    | (none, _) => .error .INVALID_PATH
    | (some op, ch) =>
      if type op ≠ VALUE then .error .INVALID_PATH
      else
        match next ch with
        | (none, _) => .error .INVALID_PATH
        | (some dst, ch) =>
          if type dst ≠ PATH then .error .INVALID_PATH else parseSelector (opByte op) dst ch

end Parse

/-! ## What is extracted -/

section Shows

variable {N : Type} [NodeReader N] [LawfulReader N] {n : N} {L : Layout}

open NodeReader LawfulReader

omit [LawfulReader N] in
theorem parseTail_route (req : ParsedFwd N) (ch : Iter N) :
    (parseTail req ch).op = req.op ∧ (parseTail req ch).opDefined = req.opDefined ∧
      (parseTail req ch).dst = req.dst ∧ (parseTail req ch).selector = req.selector ∧
      (parseTail req ch).src = req.src := by
  unfold parseTail
  split
  · exact ⟨rfl, rfl, rfl, rfl, rfl⟩
  split
  · exact ⟨rfl, rfl, rfl, rfl, rfl⟩
  · split <;> exact ⟨rfl, rfl, rfl, rfl, rfl⟩

structure Routes (req : ParsedFwd N) (L : Layout) : Prop where
  op : req.op = .ofByte (L.op.body.headD 0)
  opDefined : req.opDefined = decide (L.op.body.headD 0 ≤ 3)
  dst : Shows req.dst L.dst
  selector : Option.Rel Shows req.selector L.sel
  src : Shows req.src L.src

theorem parseSrc_shows {dst : N} {sel : Option N} {ch : Iter N} (hdst : Shows dst L.dst)
    (hsel : Option.Rel Shows sel L.sel) (hat : At ch (L.src.wire ++ L.tail)) :
    ∃ req, parseSrc (L.op.body.headD 0) dst sel (next ch) = .ok req ∧ Routes req L := by
  obtain ⟨src, ch', hnext, hsrc, -⟩ := next_shows hat
  rw [hnext, parseSrc, if_neg (by rw [type_eq hsrc, L.src_type]; simp)]
  refine ⟨_, rfl, ?_⟩
  obtain ⟨h1, h2, h3, h4, h5⟩ := parseTail_route
    (⟨.ofByte (L.op.body.headD 0), L.op.body.headD 0 ≤ 3, dst, sel, src, none, none,
      kDefaultAwaitTimeout⟩ : ParsedFwd N) ch'
  exact ⟨h1, h2, h3 ▸ hdst, h4 ▸ hsel, h5 ▸ hsrc⟩

theorem parseSelector_shows {dst : N} {ch : Iter N} (hdst : Shows dst L.dst)
    (hat : At ch (selWire L.sel ++ (L.src.wire ++ L.tail))) :
    ∃ req, parseSelector (L.op.body.headD 0) dst ch = .ok req ∧ Routes req L := by
  unfold parseSelector
  cases hsel : L.sel with
  | none =>
    rw [hsel] at hat
    have hnone : Option.Rel (Shows (N := N)) none L.sel := by
      rw [hsel]
      exact .none
    have hsrc := parseSrc_shows hdst hnone hat
    obtain ⟨src, ch', hnext, hshows, -⟩ := next_shows (show At ch (L.src.wire ++ L.tail) from hat)
    rw [hnext] at hsrc ⊢
    have htype : type src ≠ FIELD := by
      rw [type_eq hshows, L.src_type]
      decide
    dsimp only
    rw [if_neg htype]
    exact hsrc
  | some f =>
    rw [hsel] at hat
    obtain ⟨field, ch', hnext, hshows, hat'⟩ := next_shows (c := f) hat
    rw [hnext]
    dsimp only
    rw [if_pos (by rw [type_eq hshows]; exact L.sel_type f (by rw [hsel]; rfl))]
    exact parseSrc_shows hdst (by rw [hsel]; exact .some hshows) hat'

/-- **The terminus extracts the layout's route**, from either kind of tree. -/
theorem parseFwd_shows (h : Shows n L.root) : ∃ req, parseFwd n = .ok req ∧ Routes req L := by
  have hat := children_at h
  rw [L.root_pl, if_pos rfl, L.body] at hat
  obtain ⟨op, ch, hnext, hop, hat⟩ := next_shows hat
  obtain ⟨dst, ch', hnext', hdst, hat⟩ := next_shows hat
  unfold parseFwd
  rw [if_neg (by rw [type_eq h, structured_eq h, L.root_type, L.root_pl]; simp), hnext]
  dsimp only
  rw [if_neg (by rw [type_eq hop, L.op_type]; simp), hnext']
  dsimp only
  rw [if_neg (by rw [type_eq hdst, L.dst_type]; simp), opByte, body_eq hop]
  exact parseSelector_shows hdst hat

end Shows

/-! ## Router and terminus -/

theorem FwdOp.ofByte_inj {a b : UInt8} (h : FwdOp.ofByte a = .ofByte b) : a = b := by
  unfold FwdOp.ofByte at h
  grind

theorem mask_eq_self_iff (b : UInt8) : b &&& kFwdOpcodeMask = b ↔ b < 0x40 := by
  have h := Nat.and_two_pow_sub_one_eq_mod b.toNat 6
  rw [← UInt8.toNat_inj, UInt8.toNat_and, UInt8.lt_iff_toNat_lt]
  show b.toNat &&& (2 ^ 6 - 1) = b.toNat ↔ b.toNat < 64
  rw [h]
  omega

section Agree

variable {C : Type} [Cursor C] [LawfulCursor C] {cur : C} {bs : Bytes} {kind : FwdDstKind}
  {pre : FwdPre} {s : FwdSrc} {N : Type} [NodeReader N] [LawfulReader N] {n : N} {root : Cell}
  {extra : Bytes}

open LawfulCursor NodeReader LawfulReader

/-- The operation octet of `route_fwd_ingress`: an empty `VALUE` reads as a code no build defines. -/
def routerOpByte (cur : C) (pre : FwdPre) : UInt8 :=
  if pre.opBodyLen ≠ 0 then Cursor.byteAt cur pre.opBodyOff else kFwdOpcodeMask

def routerOp (cur : C) (pre : FwdPre) : FwdOp := .ofByte (routerOpByte cur pre &&& kFwdOpcodeMask)

theorem parseFwd_retired (hr : Reads cur bs) (hpeek : peekFwdDstAny cur = (.RETIRED, pre))
    (hsrc : locateFwdSrc cur pre = some s) (hroot : bs = root.wire ++ extra) (hn : Shows n root) :
    parseFwd n = .error .INVALID_PATH := by
  obtain ⟨hafter, hin, -⟩ := of_locateFwdSrc hsrc
  obtain ⟨fwd, op, dst, hfwd, -, hpl, hop, hvalue, hroom, hdst, hjudge⟩ :=
    of_peekFwdDstAny hpeek hafter
  have href : dst.type = PATH_REF ∧ pre.afterDst = fwd.bodyOff + op.total + dst.total ∧
      pre.bodyEnd = fwd.bodyOff + fwd.bodyLen := by
    unfold judgeDst at hjudge
    split at hjudge
    next htype =>
      cases hjudge
      exact ⟨htype, rfl, rfl⟩
    · split at hjudge
      · cases hjudge
      split at hjudge
      · cases hjudge
      unfold judgeSeg0 at hjudge
      split at hjudge
      · cases hjudge
      · split at hjudge <;> cases hjudge
  have hhead : readFwdHeader cur 0 = some (.ofCell 0 root) :=
    readFwdHeader_at hr [] extra (by rw [hroot]; rfl) rfl
  rw [hfwd] at hhead
  cases hhead
  have hbs : bs = root.head ++ (root.body ++ (root.ts ++ (root.crc ++ extra))) := by
    rw [hroot, Cell.wire]
    simp only [append_assoc]
  have hpos : FwdHdr.bodyOff (.ofCell 0 root) = root.head.length := by
    simp only [FwdHdr.ofCell, zero_add, Cell.length_head]
  rw [hpos] at hop hdst href
  obtain ⟨opc, body1, hbody, rfl, hbs1, hlen⟩ := next_cell hr hbs hop (Nat.le_of_lt hroom)
  have htotal : (FwdHdr.ofCell root.head.length opc).total = opc.wire.length := rfl
  have hbodyLen : (FwdHdr.ofCell 0 root).bodyLen = root.body.length := rfl
  rw [htotal, ← length_append] at hdst
  obtain ⟨dstc, body2, hbody1, rfl, -⟩ := next_cell hr hbs1 hdst (by
    rw [htotal, hbodyLen] at href
    omega)
  -- the tree has the same three nodes in front
  have hat := children_at hn
  rw [show root.opt.pl = true from hpl, if_pos rfl, hbody, hbody1] at hat
  obtain ⟨opn, ch, hnext, hopn, hat⟩ := next_shows hat
  obtain ⟨dstn, ch', hnext', hdstn, -⟩ := next_shows hat
  unfold parseFwd
  split
  · rfl
  rw [hnext]
  dsimp only
  split
  · rfl
  rw [hnext']
  dsimp only
  rw [if_pos]
  rw [type_eq hdstn]
  have htype : dstc.type = PATH_REF := href.1
  rw [htype]
  decide

theorem routerOp_eq_iff {L : Layout} (hr : Reads cur L.bytes) (ho : L.Opens pre) :
    routerOp cur pre = .ofByte (L.op.body.headD 0) ↔
      pre.opBodyLen ≠ 0 ∧ L.bytes.getD pre.opBodyOff 0 < 0x40 := by
  unfold routerOp routerOpByte
  by_cases hop : L.op.body = []
  · -- the router's code 63 is not the terminus's `READ`
    have hlen : pre.opBodyLen = 0 := by rw [ho.opBodyLen, hop]; rfl
    rw [hop, if_neg (by simp [hlen])]
    refine iff_of_false ?_ (fun h => h.1 hlen)
    decide
  have hlen : pre.opBodyLen ≠ 0 := by
    rw [ho.opBodyLen]
    exact fun hzero => hop (length_eq_zero_iff.mp hzero)
  rw [if_pos hlen, byteAt_eq hr (Layout.opBody_lt ho), Layout.getD_opBody ho hop]
  refine ⟨fun h => ⟨hlen, (mask_eq_self_iff _).mp (FwdOp.ofByte_inj h)⟩, fun h => ?_⟩
  rw [(mask_eq_self_iff _).mpr h.2]

theorem selector_located {L : Layout} {sel : Option N} (h : Option.Rel Shows sel L.sel) :
    (∀ f ∈ sel, ∃ c, Shows f c ∧ c.wire = window L.bytes L.located.selPos L.located.selTotal) ∧
      (sel = none ↔ L.located.selTotal = 0) := by
  cases hsel : L.sel with
  | none =>
    rw [hsel] at h
    cases h
    refine ⟨fun f hf => (nomatch hf), iff_of_true rfl ?_⟩
    rw [Layout.located, hsel]
    rfl
  | some c =>
    have hwire : selWire L.sel = c.wire := by rw [hsel]; rfl
    have hlen := c.length_body_lt
    rw [hsel] at h
    cases h with
    | some hf =>
      refine ⟨fun f hmem => ⟨c, ?_, ?_⟩, iff_of_false (by simp) ?_⟩
      · cases hmem
        exact hf
      · have hpos : L.located.selPos = L.afterDst := by
          show (if L.sel.isSome then L.afterDst else 0) = _
          rw [hsel]
          rfl
        rw [hpos, ← hwire]
        exact L.window_sel.symm
      · show ¬(selWire L.sel).length = 0
        rw [hwire]
        omega

/-- **Router and terminus read the same request**, but for the operation: destination, selector and
source are the same bytes, and the operation is the same exactly when its octet is there and below
`0x40`. -/
theorem router_terminus_agree (hr : Reads cur bs) (hpeek : peekFwdDstAny cur = (kind, pre))
    (hkind : kind ≠ .NONE) (hsrc : locateFwdSrc cur pre = some s) (hroot : bs = root.wire ++ extra)
    (hn : Shows n root) {req : ParsedFwd N} (hreq : parseFwd n = .ok req) :
    body req.dst = window bs pre.dstBodyOff (pre.dstEnd - pre.dstBodyOff) ∧
      (∀ f ∈ req.selector, ∃ c, Shows f c ∧ c.wire = window bs s.selPos s.selTotal) ∧
      (req.selector = none ↔ s.selTotal = 0) ∧ body req.src = window bs s.hdr.bodyOff s.hdr.bodyLen ∧
      (routerOp cur pre = req.op ↔ pre.opBodyLen ≠ 0 ∧ bs.getD pre.opBodyOff 0 < 0x40) := by
  by_cases hretired : kind = .RETIRED
  · subst hretired
    rw [parseFwd_retired hr hpeek hsrc hroot hn] at hreq
    cases hreq
  obtain ⟨L, rfl⟩ := Layout.of_peek hr hpeek hretired hsrc
  have ho : L.Opens pre :=
    Layout.opens_of_peeked ((Layout.peekFwdDstAny_eq hr).symm.trans hpeek) hkind
  rw [Layout.locateFwdSrc_eq hr ho.afterDst ho.bodyEnd] at hsrc
  cases hsrc
  obtain ⟨rfl, -⟩ := Cell.wire_append_inj (show L.root.wire ++ L.extra = _ from hroot)
  obtain ⟨req', hreq', hroute⟩ := parseFwd_shows hn
  rw [hreq] at hreq'
  obtain rfl := Except.ok.inj hreq'
  obtain ⟨hsel, hnone⟩ := selector_located hroute.selector
  refine ⟨?_, hsel, hnone, ?_, ?_⟩
  · rw [body_eq hroute.dst, ho.dstEnd, ho.dstBodyOff, Nat.add_sub_cancel_left, L.window_dst]
  · rw [body_eq hroute.src]
    exact L.window_src.symm
  · rw [hroute.op]
    exact routerOp_eq_iff hr ho

def fewKids (kids : List Cell) : Bool := (wires kids).length < 2 ^ 16

theorem length_lt_of_fewKids {kids : List Cell} (h : fewKids kids = true) :
    (wires kids).length < 2 ^ 32 := by
  have hlt : (wires kids).length < 2 ^ 16 := of_decide_eq_true h
  omega

theorem no_stamp (n : Nat) : ([] : Bytes).length = (fwdHeadOpt n {}).tsSize := rfl

def fwdOf (kids : List Cell) (h : fewKids kids = true) : Cell :=
  fwdCell (wires kids) {} [] (length_lt_of_fewKids h) (no_stamp _)

def fwdNode (kids : List Cell) (h : fewKids kids = true) : Grammar.Node :=
  .mk (fwdOf kids h).header (fwdOf kids h).wire (kids.map leafNode)

theorem parses_fwdNode {kids : List Cell} (h : fewKids kids = true)
    (hleaves : ∀ c ∈ kids, c.opt = {}) : Parses .VERIFY (fwdOf kids h).wire [fwdNode kids h] := by
  rw [← append_nil (fwdOf kids h).wire]
  exact .branch (fun _ => Cell.sealed_of_cr rfl) rfl (parses_leaves hleaves) .nil

/-- The children of a request for `/a/b` from `/o`, with those operation octets. -/
def requestKids (op : Bytes) (h : leafFits VALUE op = true) : List Cell :=
  [leaf VALUE op h, leaf PATH [1, 0x61, 1, 0x62] (Eq.refl true), leaf PATH [1, 0x6F] (Eq.refl true)]

/-- A `WRITE` of `/a/b`. -/
def writeKids : List Cell := requestKids [1] (Eq.refl true)

def writeRoot : Cell := fwdOf writeKids (Eq.refl true)

def writePre : FwdPre := (peekFwdDstAny (SpanCursor.mk writeRoot.wire)).2

/-- A request for `/a/b` without an operation octet. -/
def mutedKids : List Cell := requestKids [] (Eq.refl true)

def mutedRoot : Cell := fwdOf mutedKids (Eq.refl true)

def mutedPre : FwdPre := (peekFwdDstAny (SpanCursor.mk mutedRoot.wire)).2

theorem router_terminus_agree_write : ∃ req, parseFwd (fwdNode writeKids (Eq.refl true)) = .ok req ∧
      routerOp (SpanCursor.mk writeRoot.wire) writePre = req.op := by
  have hok : (parseFwd (fwdNode writeKids (Eq.refl true))).isOk = true := by decide +kernel
  have hpeek : peekFwdDstAny (SpanCursor.mk writeRoot.wire) = (.PATH, writePre) := by
    decide +kernel
  have hsrc : (locateFwdSrc (SpanCursor.mk writeRoot.wire) writePre).isSome = true := by
    decide +kernel
  obtain ⟨s, hs⟩ := Option.isSome_iff_exists.mp hsrc
  cases hreq : parseFwd (fwdNode writeKids (Eq.refl true)) with
  | error e =>
    rw [hreq] at hok
    cases hok
  | ok req =>
    refine ⟨req, rfl, ?_⟩
    have hagree := router_terminus_agree (reads_span _) hpeek (by simp) hs
      (append_nil writeRoot.wire).symm
      (shows_of_parses (parses_fwdNode _ (by decide +kernel))) hreq
    exact hagree.2.2.2.2.mpr (by decide +kernel)

/-- **Two operations in one frame**: a well-formed request whose operation `VALUE` is empty, which
the router takes for code 63 and the terminus for a `READ`. -/
theorem empty_op_reads : Parses .VERIFY mutedRoot.wire [fwdNode mutedKids (Eq.refl true)] ∧
      peekFwdDstAny (SpanCursor.mk mutedRoot.wire) = (.PATH, mutedPre) ∧
      (locateFwdSrc (SpanCursor.mk mutedRoot.wire) mutedPre).isSome = true ∧
      routerOp (SpanCursor.mk mutedRoot.wire) mutedPre = .undefined 0x3F ∧
      (parseFwd (fwdNode mutedKids (Eq.refl true))).map (fun req => (req.op, req.opDefined)) =
        .ok (.READ, true) :=
  ⟨parses_fwdNode _ (by decide +kernel), by decide +kernel, by decide +kernel, by decide +kernel,
    by decide +kernel⟩

end Agree

end LibTracer.Net
