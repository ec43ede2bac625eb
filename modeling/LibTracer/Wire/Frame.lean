import LibTracer.Wire.Walk

/-!
# Reading and writing frames (`frame.hpp`, `frame.cpp`, `tlv_emit.hpp`)

`TlvNode` is the in-place reader of a frame that `over` has validated; its accessors re-read
headers without checking CRCs again. `encode` serialises a tree `tlv_t`.

* `over_eq_decode` : validation is the recursive decoder, with the depth the spill source allows.
* **`burst_refused`** : a short burst of noise never passes.
-/

namespace LibTracer.Wire

open Window Grammar List
open Crc (Bytes crc16Ccitt crc32c)

/-! ## Reading -/

structure TlvNode where
  bytes : Bytes
  type : UInt8
  opt : Opt
  header : Nat
  length : Nat
  deriving DecidableEq, Repr

def loadStamp (relative : Bool) (field : Bytes) : BitVec 64 :=
  if relative then (BitVec.ofNat 32 (LittleEndian.load field)).signExtend 64
  else BitVec.ofNat 64 (LittleEndian.load field)

/-- `read_trailer`: the trailer values of a validated TLV, from its bytes. -/
def readTrailer (opt : Opt) (bytes : Bytes) (trailerAt : Nat) : Option Trailer :=
  if !opt.ts && !opt.cr then none
  else
    let ts : Option Timestamp :=
      if opt.ts then some ⟨opt.tf, loadStamp opt.tf (window bytes trailerAt opt.tsSize)⟩ else none
    let crc : Option CrcField :=
      if opt.cr then
        some ⟨if opt.cw then .CRC16_CCITT else .CRC32C,
          BitVec.ofNat 32 (LittleEndian.load (window bytes (trailerAt + opt.tsSize) opt.crcSize))⟩
      else none
    some { ts, crc }

namespace TlvNode

/-- A node over `bytes`, whose header the grammar has already accepted. -/
def ofHeader (h : Header) (bytes : Bytes) : TlvNode :=
  ⟨bytes.take h.total, h.type, h.opt, h.header, h.length⟩

def body (n : TlvNode) : Bytes := window n.bytes n.header n.length

def payload (n : TlvNode) : Bytes := if n.opt.pl then [] else n.body

def trailer (n : TlvNode) : Option Trailer := readTrailer n.opt n.bytes (n.header + n.length)

/-- The range `tlv_children_t` walks: each step re-reads one header with its CRC deferred, and
    ends the walk where that fails. -/
def childrenFrom : Nat → Bytes → List TlvNode
  | 0, _ => []
  | fuel + 1, rest =>
    if rest = [] then []
    else
      match parseHeader (SpanCursor.mk rest) .DEFER with
      | .error _ => []
      | .ok h =>
        let front := ofHeader h rest
        front :: childrenFrom fuel (rest.drop front.bytes.length)

def children (n : TlvNode) : List TlvNode :=
  let region := if n.opt.pl then n.body else []
  childrenFrom region.length region

/-- The tree read back through the accessors, to nesting depth `depth`. -/
def treeTo : Nat → TlvNode → Tlv
  | 0, n => .mk n.type n.opt n.payload [] n.trailer
  | depth + 1, n => .mk n.type n.opt n.payload (n.children.map (treeTo depth)) n.trailer

/-- The tree read back through the accessors: no node nests deeper than its bytes are long. -/
def tree (n : TlvNode) : Tlv := treeTo n.bytes.length n

/-- `validate_sink`: keeps the root's header, which the walk visits first. -/
structure ValidateSink where
  root : Header
  seen : Bool := false

def ValidateSink.keep (h : Header) (s : ValidateSink) : ValidateSink :=
  if s.seen then s else ⟨h, true⟩

def validateSink (C : Type) : Sink C ValidateSink where
  onOpen h _ s := s.keep h
  onLeaf h _ s := s.keep h
  onClose s := s

def noHeader : Header := ⟨0, {}, 0, 0, 0, 0, 0⟩

/-- `tlv_node_t::over`: validate `input` as exactly one TLV and return its root node. -/
def overSpan (input : Bytes) (spill : BlockSource) : Except Err TlvNode :=
  match walk (SpanCursor.mk input) (validateSink SpanCursor) ⟨[], 8, some spill, 0⟩ .VERIFY
      ⟨noHeader, false⟩ with
  | .error e => .error e
  | .ok s => .ok (ofHeader s.root input)

end TlvNode

/-! ## Writing -/

/-- `emit_header`: `<type> <opt> <length>`, the width following `opt.ll`. -/
def emitHeader (type : UInt8) (opt : Opt) (bodyLen : Nat) : Bytes :=
  type :: opt.encode :: LittleEndian.store (bodyLen % 2 ^ 32) (if opt.ll then 4 else 2)

/-- `store_trailer_ts`: 4 bytes of the value narrowed to i32, or all 8. -/
def storeTrailerTs (relative : Bool) (ns : BitVec 64) : Bytes :=
  if relative then LittleEndian.store (ns.setWidth 32).toNat 4
  else LittleEndian.store ns.toNat 8

def widen (opt : Opt) (body : Nat) : Opt := if body > 0xFFFF then { opt with ll := true } else opt

/-- Header, body and trailer of a TLV with `body` body bytes. -/
def frameBytes (opt : Opt) (body : Nat) : Nat :=
  (widen opt body).header + body + opt.tsSize + opt.crcSize

/-- `opt.ts` with a value whose form agrees with `opt.tf`, or no `opt.ts`. -/
def stampOk (opt : Opt) (trailer : Option Trailer) : Bool :=
  !opt.ts || match trailer.bind TrailerOf.ts with
    | none => false
    | some t => t.relative == opt.tf

mutual

/-- `body_bytes`: the body length, or `none` for every refusal `encode` makes. -/
def bodyBytes : Tlv → Option Nat
  | .mk type opt payload children trailer =>
    if isPathRefType type && !pathRefBodyValid opt.pl opt.ll payload.length then none
    else if !stampOk opt trailer then none
    else if !opt.pl then some payload.length
    else childrenBytes children

/-- The sum `body_bytes` takes over the children; a refused child refuses its parent. -/
def childrenBytes : List Tlv → Option Nat
  | [] => some 0
  | c :: cs =>
    match bodyBytes c, childrenBytes cs with
    | some b, some n => some (frameBytes c.opt b + n)
    | _, _ => none

end

/-- `tlv_bytes`: the whole encoded length, or `none` if refused. -/
def tlvBytes (t : Tlv) : Option Nat := (bodyBytes t).map (frameBytes t.opt)

def stampBytes (opt : Opt) (trailer : Option Trailer) : Bytes :=
  if opt.ts then storeTrailerTs opt.tf (((trailer.bind TrailerOf.ts).map (·.value)).getD 0)
  else []

mutual

/-- `put_tlv`: the bytes of a tree that `tlv_bytes` has sized and checked. -/
def putTlv : Tlv → Bytes
  | .mk type opt payload children trailer =>
    let body := (bodyBytes (.mk type opt payload children trailer)).getD 0
    let content := if opt.pl then putChildren children else payload
    let covered := content ++ stampBytes opt trailer
    let crc : Bytes :=
      if opt.cr then
        LittleEndian.store
          (if opt.cw then (crc16Ccitt covered).toNat else (crc32c covered).toNat) opt.crcSize
      else []
    emitHeader type (widen opt body) body ++ covered ++ crc

def putChildren : List Tlv → Bytes
  | [] => []
  | c :: cs => putTlv c ++ putChildren cs

end

/-- `encode`: append the frame to `out`; `reserve` is the source's answer to the one reservation. -/
def encode (reserve : Nat → Bool) (t : Tlv) (out : Bytes) : Option Bytes :=
  match tlvBytes t with
  | none => none
  | some n => if reserve (out.length + n) then some (out ++ putTlv t) else none

/-! ## What the reader presents -/

mutual

def treeOf : Node → Tlv
  | .mk h bytes kids =>
    .mk h.type h.opt (if h.opt.pl then [] else window bytes h.header h.length) (treesOf kids)
      (readTrailer h.opt bytes (h.header + h.length))

def treesOf : List Node → List Tlv
  | [] => []
  | n :: ns => treeOf n :: treesOf ns

end

def nodeOf : Node → TlvNode
  | .mk h bytes _ => .ofHeader h bytes

def cellTrailer (c : Cell) : Option Trailer :=
  if !c.opt.ts && !c.opt.cr then none
  else some {
    ts := if c.opt.ts then some ⟨c.opt.tf, loadStamp c.opt.tf c.ts⟩ else none
    crc := if c.opt.cr then
        some ⟨if c.opt.cw then .CRC16_CCITT else .CRC32C, BitVec.ofNat 32 (LittleEndian.load c.crc)⟩
      else none }

theorem readTrailer_cell (c : Cell) :
    readTrailer c.opt c.wire (c.opt.header + c.body.length) = cellTrailer c := by
  have hts := c.window_ts []
  have hcrc := c.window_crc []
  rw [append_nil] at hts hcrc
  simp only [readTrailer, hts, hcrc, cellTrailer]

theorem treeOf_cell (c : Cell) (kids : List Node) : treeOf (.mk c.header c.wire kids) =
      .mk c.type c.opt (if c.opt.pl then [] else c.body) (treesOf kids) (cellTrailer c) := by
  have hbody := c.window_body []
  rw [append_nil] at hbody
  simp only [treeOf, Cell.header, hbody, readTrailer_cell]

section Cells

variable (c : Cell) (kids : List Node)

theorem nodeOf_bytes : (nodeOf (.mk c.header c.wire kids)).bytes = c.wire := by
  simp only [nodeOf, TlvNode.ofHeader, ← c.length_wire, take_length]

theorem nodeOf_body : (nodeOf (.mk c.header c.wire kids)).body = c.body := by
  have hbody := c.window_body []
  rw [append_nil] at hbody
  rw [TlvNode.body, nodeOf_bytes]
  exact hbody

theorem nodeOf_trailer : (nodeOf (.mk c.header c.wire kids)).trailer = cellTrailer c := by
  rw [TlvNode.trailer, nodeOf_bytes]
  exact readTrailer_cell c

end Cells

variable {p : CrcCheck} {bs : Bytes}

theorem childrenFrom_of_parses {ns : List Node} (h : Parses p bs ns) : ∀ fuel, bs.length ≤ fuel →
      TlvNode.childrenFrom fuel bs = ns.map nodeOf := by
  have hcell : ∀ (c : Cell) (rest : Bytes) (kids ns : List Node),
      (∀ fuel, rest.length ≤ fuel → TlvNode.childrenFrom fuel rest = ns.map nodeOf) →
      ∀ fuel, (c.wire ++ rest).length ≤ fuel →
        TlvNode.childrenFrom fuel (c.wire ++ rest) =
          (Node.mk c.header c.wire kids :: ns).map nodeOf := by
    intro c rest kids ns ih fuel hfuel
    have hlen := c.length_body_lt
    rw [length_append] at hfuel
    obtain ⟨fuel, rfl⟩ : ∃ k, fuel = k + 1 := ⟨fuel - 1, by omega⟩
    have hfront : TlvNode.ofHeader c.header (c.wire ++ rest) =
        nodeOf (.mk c.header c.wire kids) := by
      simp only [nodeOf, TlvNode.ofHeader, ← c.length_wire, take_left, take_length]
    rw [TlvNode.childrenFrom, if_neg (c.wire_ne_nil rest), parseHeader_reads (reads_span _),
      c.readHeader_wire rest .DEFER (by simp)]
    simp only [hfront, nodeOf_bytes, drop_left, map_cons]
    rw [ih fuel (by omega)]
  induction h with
  | nil =>
    intro fuel _
    cases fuel <;> simp [TlvNode.childrenFrom]
  | leaf _ _ _ ih | branch _ _ _ _ _ ih => exact hcell _ _ _ _ ih

/-- **The accessors present the parse tree.** -/
theorem treeTo_of_parses {ns : List Node} (h : Parses p bs ns) :
    ∀ depth, bs.length ≤ depth → (ns.map nodeOf).map (TlvNode.treeTo depth) = treesOf ns := by
  induction h with
  | nil => intro depth _; rfl
  | @leaf c rest ns _ hpl _ ih =>
    intro depth hd
    have hlen := c.length_body_lt
    rw [length_append] at hd
    obtain ⟨depth, rfl⟩ : ∃ k, depth = k + 1 := ⟨depth - 1, by omega⟩
    rw [map_cons, map_cons, ih _ (by omega), treesOf, treeOf_cell, TlvNode.treeTo,
      nodeOf_trailer, TlvNode.payload, TlvNode.children, nodeOf_body]
    have hopt : (nodeOf (.mk c.header c.wire [])).opt = c.opt := rfl
    simp only [hopt, hpl, Bool.false_eq_true, if_false, TlvNode.childrenFrom, length_nil, map_nil]
    rfl
  | @branch c rest kids ns _ hpl hkids _ ihk ih =>
    intro depth hd
    have hlen := c.length_body_lt
    rw [length_append] at hd
    obtain ⟨depth, rfl⟩ : ∃ k, depth = k + 1 := ⟨depth - 1, by omega⟩
    have hopt : (nodeOf (.mk c.header c.wire kids)).opt = c.opt := rfl
    rw [map_cons, map_cons, ih _ (by omega), treesOf, treeOf_cell, TlvNode.treeTo,
      nodeOf_trailer, TlvNode.payload, TlvNode.children, nodeOf_body]
    simp only [hopt, hpl, if_true]
    rw [childrenFrom_of_parses hkids _ le_rfl, ihk depth (by omega)]
    rfl

theorem tree_of_parses {n : Node} (h : Parses p bs [n]) :
    (nodeOf n).tree = treeOf n ∧ (nodeOf n).bytes = bs := by
  have hbytes : (nodeOf n).bytes = bs := by
    cases h with
    | leaf _ _ hrest | branch _ _ _ hrest => cases hrest; rw [nodeOf_bytes, append_nil]
  refine ⟨?_, hbytes⟩
  have htree := treeTo_of_parses h bs.length le_rfl
  rw [TlvNode.tree, hbytes]
  simpa [treesOf] using htree

/-! ## Validation -/

def serveAll : BlockSource := fun _ => true

def refuseAll : BlockSource := fun _ => false

theorem room_serveAll (cap : Nat) : WalkStack.room cap (some serveAll) = unbounded := by
  funext d
  rw [unbounded_apply, WalkStack.room_iff]
  intro k _
  rfl

theorem replay_validateSink (h : Header) (bytes : Bytes) (kids : List Node) :
    (Node.mk h bytes kids).replay (TlvNode.validateSink Bytes) ⟨TlvNode.noHeader, false⟩ = ⟨h, true⟩ := by
  rw [Node.replay]
  split
  · exact replayAll_of_fixed (fun _ _ => rfl) (fun _ _ => rfl) rfl kids
  · rfl

theorem decode_head_bytes {room : Nat → Bool} {n : Node}
    (h : decode p room bs = .ok n) : ∃ hd kids, n = .mk hd bs kids := by
  cases parses_of_decode h with
  | @leaf c _ _ _ _ hrest => cases hrest; exact ⟨c.header, [], by rw [append_nil]⟩
  | @branch c _ kids _ _ _ _ hrest => cases hrest; exact ⟨c.header, kids, by rw [append_nil]⟩

/-- **Validation is the recursive decoder**, with the depth the spill source allows. -/
theorem over_eq_decode (input : Bytes) (spill : BlockSource) : TlvNode.overSpan input spill =
      (decode .VERIFY (WalkStack.room 8 (some spill)) input).map nodeOf := by
  have ht : Tracks (TlvNode.validateSink SpanCursor) (TlvNode.validateSink Bytes) :=
    ⟨fun _ => rfl, fun _ => rfl, rfl⟩
  rw [TlvNode.overSpan, walk_eq_decode ht (reads_span input)]
  cases h : decode .VERIFY (WalkStack.room 8 (some spill)) input with
  | error e => rfl
  | ok n =>
    obtain ⟨hd, kids, rfl⟩ := decode_head_bytes h
    simp only [Except.map, replay_validateSink, nodeOf]

theorem parses_of_over {input : Bytes} {spill : BlockSource} {n : TlvNode}
    (h : TlvNode.overSpan input spill = .ok n) :
    ∃ nd, Parses .VERIFY input [nd] ∧ n = nodeOf nd ∧ n.tree = treeOf nd ∧ n.bytes = input := by
  rw [over_eq_decode] at h
  cases hd : decode .VERIFY (WalkStack.room 8 (some spill)) input with
  | error e => rw [hd] at h; cases h
  | ok nd =>
    rw [hd] at h
    cases h
    have hp := parses_of_decode hd
    obtain ⟨htree, hbytes⟩ := tree_of_parses hp
    exact ⟨nd, hp, rfl, htree, hbytes⟩

theorem over_of_parses {input : Bytes} {nd : Node} (h : Parses .VERIFY input [nd]) :
    TlvNode.overSpan input serveAll = .ok (nodeOf nd) := by
  rw [over_eq_decode, room_serveAll, decode_of_parses h]
  rfl

/-! ## Streams and noise -/

def Accepted (b : Bytes) : Prop := ∃ spill n, TlvNode.overSpan b spill = .ok n

theorem Accepted.cell {b : Bytes} (h : Accepted b) : ∃ c : Cell, b = c.wire := by
  obtain ⟨spill, n, h⟩ := h
  obtain ⟨nd, hp, -⟩ := parses_of_over h
  obtain ⟨c, -, hb, -⟩ := hp.root
  exact ⟨c, hb⟩

/-- **A run of frames can be cut in one way only.** -/
theorem frames_cut_uniquely :
    Function.Injective fun frames : List {b // Accepted b} => (frames.map Subtype.val).flatten := by
  intro xs ys h
  dsimp only at h
  induction xs generalizing ys with
  | nil =>
    cases ys with
    | nil => rfl
    | cons y ys =>
      obtain ⟨d, hd⟩ := y.2.cell
      rw [map_cons, flatten_cons, hd] at h
      exact absurd h.symm (d.wire_ne_nil _)
  | cons x xs ih =>
    obtain ⟨c, hc⟩ := x.2.cell
    rw [map_cons, flatten_cons, hc] at h
    cases ys with
    | nil => exact absurd h (c.wire_ne_nil _)
    | cons y ys =>
      obtain ⟨d, hd⟩ := y.2.cell
      rw [map_cons, flatten_cons, hd] at h
      obtain ⟨rfl, hrest⟩ := Cell.wire_append_inj h
      rw [Subtype.ext (hc.trans hd.symm), ih hrest]

/-- **Corruption is found**: up to four bytes between the header and the CRC-32C of an accepted frame cannot be
changed without the frame being refused for its checksum. -/
theorem burst_refused {pre old new post : Bytes} {spill : BlockSource} {n : TlvNode}
    (h : TlvNode.overSpan (pre ++ old ++ post) spill = .ok n) (hcr : n.opt.cr = true) (hcw : n.opt.cw = false)
    (hpre : n.header ≤ pre.length) (hpost : 4 ≤ post.length) (hlen : old.length = new.length)
    (hle : old.length ≤ 4) (hne : old ≠ new) :
    TlvNode.overSpan (pre ++ new ++ post) spill = .error .FRAME_CRC_FAIL := by
  obtain ⟨nd, hp, rfl, -⟩ := parses_of_over h
  obtain ⟨c, kids, hw, rfl, hs⟩ := hp.root
  have hcrc : ∀ x, crcBytes c.opt x = LittleEndian.store (crc32c x).toNat 4 := by
    intro x
    rw [crcBytes, show c.opt.cr = true from hcr, show c.opt.cw = false from hcw]
    rfl
  replace hs := hs rfl
  rw [Cell.Sealed, hcrc] at hs
  -- the burst lies in what the checksum covers
  obtain ⟨pre, rfl⟩ : c.head <+: pre := by
    refine prefix_of_prefix_length_le (hw ▸ prefix_append ..) ⟨old ++ post, (append_assoc ..).symm⟩ ?_
    rwa [c.length_head]
  obtain ⟨post, rfl⟩ : c.crc <:+ post := by
    refine suffix_of_suffix_length_le ⟨c.head ++ (c.body ++ c.ts), ?_⟩ (suffix_append (c.head ++ pre ++ old) _) ?_
    · rw [hw, Cell.wire, append_assoc, append_assoc]
    · rwa [hs, LittleEndian.length_store]
  have hcov : pre ++ old ++ post = c.body ++ c.ts := by
    have h : c.head ++ (pre ++ old ++ post ++ c.crc) = c.head ++ (c.body ++ c.ts ++ c.crc) := by
      simpa only [Cell.wire, append_assoc] using hw
    exact append_cancel_right (append_cancel_left h)
  have hsize := congrArg length hcov
  simp only [length_append, hlen, c.ts_length] at hsize
  rw [over_eq_decode, show c.head ++ pre ++ new ++ (post ++ c.crc) = c.head ++ (pre ++ new ++ post ++ c.crc) by
    simp only [append_assoc], decode_error (c.readHeader_covered ?_ ?_)]
  · rfl
  · simpa only [length_append] using hsize
  · rw [hs, hcrc, ← hcov]
    intro h
    have h : (crc32c _).toNat % 2 ^ 32 = (crc32c _).toNat % 2 ^ 32 := LittleEndian.store_eq_iff.mp h
    rw [BitVec.toNat_mod_cancel, BitVec.toNat_mod_cancel] at h
    exact hne (Crc.crc32c_burst hlen hle (BitVec.eq_of_toNat_eq h))

theorem burst_refused_one_byte : TlvNode.overSpan
    ([0x01, 0x10, 0x01, 0x00] ++ [0x08] ++ [0xBA, 0x37, 0xB7, 0x86]) serveAll = .error .FRAME_CRC_FAIL :=
  have h : TlvNode.overSpan ([0x01, 0x10, 0x01, 0x00] ++ [0x07] ++ [0xBA, 0x37, 0xB7, 0x86]) serveAll =
    .ok ⟨[0x01, 0x10, 0x01, 0x00, 0x07, 0xBA, 0x37, 0xB7, 0x86], 0x01, { cr := true }, 4, 1⟩ := by decide +kernel
  burst_refused h rfl rfl le_rfl le_rfl rfl (by decide) (by decide)

end LibTracer.Wire
