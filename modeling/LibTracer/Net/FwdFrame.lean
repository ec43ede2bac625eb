import LibTracer.Graph.Ops
import LibTracer.Wire.PackedPath
import LibTracer.Wire.Rope

/-!
# Reading a forward frame in place (`fwd_frame_view.hpp`)

A forward frame is `FWD{op, PATH dst, FIELD? selector, PATH src, …}`.  A hop reads it by offset,
through any byte source: one peek opens the `dst`, one locator finds the `src` behind it, and no
tree is built.

* **`Layout.of_peek`** — the offsets found are those of a layout of the frame.
-/

namespace LibTracer.Net

open Window List Wire Wire.Grammar
open Crc (Bytes)
open LibTracer.Graph (VALUE)
open LibTracer.Graph.State (PATH)

/-! ## The readers -/

def SUBSCRIBER : UInt8 := 0x04
def FWD : UInt8 := 0x0F
def FIELD : UInt8 := 0x10
def PATH_REF_REVERSE : UInt8 := 0x15

/-- `fwd_hdr_t`: one header, with the absolute offset of its body. -/
structure FwdHdr where
  type : UInt8
  opt : Opt
  headerLen : Nat
  bodyOff : Nat
  bodyLen : Nat
  total : Nat
  deriving DecidableEq, Repr

structure PackedSeg where
  bodyOff : Nat
  bodyLen : Nat
  total : Nat
  escape : Bool
  deriving DecidableEq, Repr

/-- `fwd_pre_t`: what the peek learned. -/
structure FwdPre where
  valid : Bool := false
  bodyEnd : Nat := 0
  opPos : Nat := 0
  opTotal : Nat := 0
  opBodyOff : Nat := 0
  opBodyLen : Nat := 0
  dstBodyOff : Nat := 0
  dstEnd : Nat := 0
  afterDst : Nat := 0
  seg0Off : Nat := 0
  seg0Len : Nat := 0
  stripAt : Nat := 0
  fwdOpt : Opt := {}
  deriving DecidableEq, Repr

inductive FwdDstKind where
  | NONE | PATH | RETIRED | PATH_ESCAPE | EMPTY
  deriving DecidableEq, Repr

structure FwdSrc where
  selPos : Nat := 0
  selTotal : Nat := 0
  pos : Nat
  hdr : FwdHdr
  deriving DecidableEq, Repr

section Readers

variable {C : Type} [Cursor C]

open Cursor

def readPackedSeg (cur : C) (pos stop : Nat) : Option PackedSeg :=
  if pos ≥ stop then none
  else
    let len := (byteAt cur pos).toNat
    if len ≠ 0 then
      if pos + 1 + len > stop then none else some ⟨pos + 1, len, 1 + len, false⟩
    else if pos + kPackedEscapeOverhead > stop then none
    else
      let esc := (byteAt cur (pos + 2)).toNat
      if pos + kPackedEscapeOverhead + esc > stop then none
      else some ⟨pos + kPackedEscapeOverhead, esc, kPackedEscapeOverhead + esc, true⟩

/-- `read_fwd_header`, its CRC deferred: one header, bounded by the whole source. -/
def readFwdHeader (cur : C) (pos : Nat) : Option FwdHdr :=
  if pos > size cur then none
  else
    match parseHeader (region cur pos (size cur - pos)) .DEFER with
    | .error _ => none
    | .ok h => some ⟨h.type, h.opt, h.header, pos + h.header, h.length, h.total⟩

/-- `fill_op` of the peek. -/
def FwdPre.fillOp (fwd op : FwdHdr) : FwdPre where
  fwdOpt := fwd.opt
  bodyEnd := fwd.bodyOff + fwd.bodyLen
  opPos := fwd.bodyOff
  opTotal := op.total
  opBodyOff := op.bodyOff
  opBodyLen := op.bodyLen

/-- `fill_dst` of the peek. -/
def FwdPre.fillDst (pre : FwdPre) (dstPos : Nat) (dst : FwdHdr) : FwdPre :=
  { pre with
    dstBodyOff := dst.bodyOff
    dstEnd := dst.bodyOff + dst.bodyLen
    afterDst := dstPos + dst.total
    stripAt := dst.bodyOff }

/-- `accept` of the peek, its window filled. -/
def FwdPre.accept (pre : FwdPre) : FwdPre := { pre with valid := true }

/-- The answer for a `PATH` whose first record was asked for. -/
def judgeSeg0 (opened : FwdPre) : Option PackedSeg → FwdDstKind × FwdPre
  | none => (.NONE, opened)
  | some seg0 =>
    if seg0.escape then (.PATH_ESCAPE, opened.accept)
    else (.PATH, { opened.accept with seg0Off := seg0.bodyOff, seg0Len := seg0.total - 1 })

/-- The arms of the peek once the `dst` header at `dstPos` is read. -/
def judgeDst (cur : C) (op : FwdPre) (dstPos : Nat) (dst : FwdHdr) : FwdDstKind × FwdPre :=
  if dst.type = PATH_REF then (.RETIRED, (op.fillDst dstPos dst).accept)
  -- what is no `PATH` container has no window: a refusal must not echo it
  else if dst.type ≠ PATH ∨ dst.opt.pl then (.NONE, op)
  else if dst.bodyLen = 0 then (.EMPTY, (op.fillDst dstPos dst).accept)
  else judgeSeg0 (op.fillDst dstPos dst)
    (readPackedSeg cur dst.bodyOff (dst.bodyOff + dst.bodyLen))

/-- The peek once the two leading headers are read: the op fields are filled whatever the `dst`. -/
def peekDst (cur : C) (fwd op : FwdHdr) : FwdDstKind × FwdPre :=
  let dstPos := fwd.bodyOff + op.total
  if dstPos ≥ fwd.bodyOff + fwd.bodyLen then (.NONE, .fillOp fwd op)
  else
    match readFwdHeader cur dstPos with
    | none => (.NONE, .fillOp fwd op)
    | some dst => judgeDst cur (.fillOp fwd op) dstPos dst

/-- `peek_fwd_dst_any`: open the `dst` of a forward frame and say which form it has. -/
def peekFwdDstAny (cur : C) : FwdDstKind × FwdPre :=
  match readFwdHeader cur 0 with
  | none => (.NONE, {})
  | some fwd =>
    if fwd.type ≠ FWD ∨ !fwd.opt.pl then (.NONE, {})
    else
      match readFwdHeader cur fwd.bodyOff with
      | none => (.NONE, {})
      | some op => if op.type ≠ VALUE then (.NONE, {}) else peekDst cur fwd op

/-- The last test of the locator: `src` is a `PATH` inside the body. -/
def srcAt (pre : FwdPre) (selPos selTotal pos : Nat) (h : Option FwdHdr) : Option FwdSrc :=
  match h with
  | none => none
  | some h =>
    if h.type ≠ PATH ∨ h.total > pre.bodyEnd - pos then none
    else some { selPos, selTotal, pos, hdr := h }

/-- `locate_fwd_src`: the `src` behind the `dst` the peek read. -/
def locateFwdSrc (cur : C) (pre : FwdPre) : Option FwdSrc :=
  let pos := pre.afterDst
  if pos = 0 ∨ pos ≥ pre.bodyEnd then none
  else
    match readFwdHeader cur pos with
    | none => none
    | some h =>
      if h.type = FIELD then
        let next := pos + h.total
        srcAt pre pos h.total next
          (if next < pre.bodyEnd then readFwdHeader cur next else none)
      else srcAt pre 0 0 pos (some h)

end Readers

/-! ## Any byte source -/

/-- What a record at `pos` is reported as. -/
def PackedSeg.ofRecord (pos : Nat) : PathRecord → PackedSeg
  | .literal seg _ _ => ⟨pos + 1, seg.length, 1 + seg.length, false⟩
  | .escape _ payload _ =>
    ⟨pos + kPackedEscapeOverhead, payload.length, kPackedEscapeOverhead + payload.length, true⟩

/-- What a cell at `pos` is reported as. -/
def FwdHdr.ofCell (pos : Nat) (c : Cell) : FwdHdr :=
  ⟨c.type, c.opt, c.opt.header, pos + c.opt.header, c.body.length, c.wire.length⟩

variable {c : Cell} {s : FwdSrc}

section Reads

variable {C : Type} [Cursor C] [LawfulCursor C] {cur : C} {bs : Bytes}

open LawfulCursor

variable {pos : Nat}

theorem window_eq_cons {n : Nat} (h : pos < bs.length) (hn : 0 < n) :
    window bs pos n = bs.getD pos 0 :: window bs (pos + 1) (n - 1) := by
  obtain ⟨m, rfl⟩ : ∃ m, n = m + 1 := ⟨n - 1, by omega⟩
  rw [window, drop_eq_getElem_cons h, take_succ_cons, getD_eq_getElem?_getD, getElem?_eq_getElem h]
  rfl

/-- **A record is read off the bytes of the `dst`**, whatever stores them. -/
theorem readPackedSeg_reads (hr : Reads cur bs) {stop : Nat} (hstop : stop ≤ bs.length) :
    readPackedSeg cur pos stop =
      (recordAt (window bs pos (stop - pos))).map fun p => PackedSeg.ofRecord pos p.1 := by
  unfold readPackedSeg
  by_cases hpos : pos ≥ stop
  · rw [if_pos hpos, show stop - pos = 0 by omega, window_zero_right]
    rfl
  rw [if_neg hpos, window_eq_cons (by omega) (by omega), recordAt, byteAt_eq hr (by omega)]
  have hrest : (window bs (pos + 1) (stop - pos - 1)).length = stop - pos - 1 :=
    length_window (by omega)
  by_cases hlen : bs.getD pos 0 = 0
  · -- the escape: its two further octets must lie inside
    simp only [hlen, UInt8.toNat_zero, ne_eq, not_true_eq_false, if_false, dite_true]
    have h3 : kPackedEscapeOverhead = 3 := rfl
    by_cases hhead : pos + kPackedEscapeOverhead > stop
    · rw [if_pos hhead]
      have hshort : (window bs (pos + 1) (stop - pos - 1)).length < 2 := by omega
      rcases hw : window bs (pos + 1) (stop - pos - 1) with - | ⟨a, - | ⟨b, l⟩⟩
      · rfl
      · rfl
      · rw [hw] at hshort
        simp only [length_cons] at hshort
        omega
    · rw [if_neg hhead, window_eq_cons (by omega) (by omega), window_eq_cons (by omega) (by omega),
        escapeAt, byteAt_eq hr (by omega), show pos + 1 + 1 = pos + 2 by omega]
      have hrest2 : (window bs (pos + 2 + 1) (stop - pos - 1 - 1 - 1)).length =
          stop - pos - 1 - 1 - 1 := length_window (by omega)
      split
      · rw [if_neg (by omega)]
        rfl
      rw [if_pos (by omega)]
      simp only [Option.map_some, PackedSeg.ofRecord, length_take]
      rw [Nat.min_eq_left (by omega)]
  · have hne : (bs.getD pos 0).toNat ≠ 0 := fun h => hlen (UInt8.toNat_inj.mp h)
    simp only [hlen, hne, ne_eq, not_false_eq_true, if_true, dite_false]
    split
    · rw [dif_neg (by omega)]
      rfl
    rw [dif_pos (by omega)]
    simp only [Option.map_some, PackedSeg.ofRecord, length_take]
    rw [Nat.min_eq_left (by omega)]

theorem readFwdHeader_reads (hr : Reads cur bs) (pos : Nat) :
    readFwdHeader cur pos = readFwdHeader (SpanCursor.mk bs) pos := by
  unfold readFwdHeader
  rw [size_eq hr, size_eq (reads_span bs)]
  by_cases hpos : pos > bs.length
  · rw [if_pos hpos, if_pos hpos]
  rw [if_neg hpos, if_neg hpos,
    parseHeader_reads (region_reads hr (show pos + (bs.length - pos) ≤ bs.length by omega)),
    parseHeader_reads (region_reads (reads_span bs)
      (show pos + (bs.length - pos) ≤ bs.length by omega))]

theorem readFwdHeader_at (hr : Reads cur bs) (front rest : Bytes)
    (hbs : bs = front ++ (c.wire ++ rest)) (hpos : front.length = pos) :
    readFwdHeader cur pos = some (.ofCell pos c) := by
  have hle : pos + (bs.length - pos) ≤ bs.length := by
    rw [hbs, length_append, hpos]
    omega
  have hwin : window bs pos (bs.length - pos) = c.wire ++ rest := by
    rw [window_rest (by omega), hbs, ← hpos, drop_left]
  unfold readFwdHeader
  rw [size_eq hr, if_neg (by omega), parseHeader_reads (region_reads hr hle), hwin,
    c.readHeader_wire rest .DEFER (by simp)]
  simp only [FwdHdr.ofCell, c.length_wire, Cell.header]

variable {h : FwdHdr}

/-- **Inversion of a header read**: a cell stands at `pos`. -/
theorem of_readFwdHeader (hr : Reads cur bs) (hread : readFwdHeader cur pos = some h) :
    ∃ (front rest : Bytes) (c : Cell), bs = front ++ (c.wire ++ rest) ∧ front.length = pos ∧
      h = .ofCell pos c := by
  have hok := hread
  unfold readFwdHeader at hok
  rw [size_eq hr] at hok
  split at hok
  · cases hok
  rename_i hpos
  rw [parseHeader_reads (region_reads hr (show pos + (bs.length - pos) ≤ bs.length by omega))]
    at hok
  split at hok
  · cases hok
  rename_i hd hparse
  obtain ⟨c, rest, hwin, -, -⟩ := Cell.of_readHeader hparse
  rw [window_rest (by omega)] at hwin
  have hbs : bs = bs.take pos ++ (c.wire ++ rest) := by
    rw [← hwin, take_append_drop]
  have hlen : (bs.take pos).length = pos := by
    rw [length_take]
    omega
  rw [readFwdHeader_at hr _ _ hbs hlen] at hread
  exact ⟨bs.take pos, rest, c, hbs, hlen, (Option.some.inj hread).symm⟩

theorem readFwdHeader_bounds (hr : Reads cur bs) (hread : readFwdHeader cur pos = some h) :
    pos + 4 ≤ h.bodyOff ∧ h.bodyOff + h.bodyLen ≤ pos + h.total ∧ pos + h.total ≤ bs.length := by
  obtain ⟨front, rest, c, rfl, rfl, rfl⟩ := of_readFwdHeader hr hread
  have h4 := c.opt.four_le_header
  have hlen := c.length_wire
  simp only [Cell.header] at hlen
  simp only [FwdHdr.ofCell, length_append]
  omega

theorem locateFwdSrc_reads (hr : Reads cur bs) (pre : FwdPre) :
    locateFwdSrc cur pre = locateFwdSrc (SpanCursor.mk bs) pre := by
  unfold locateFwdSrc srcAt
  simp only [readFwdHeader_reads hr]

/-! ## The layout of a forward frame -/

theorem next_cell (hr : Reads cur bs) {front region rest : Bytes}
    (hbs : bs = front ++ (region ++ rest)) (hread : readFwdHeader cur front.length = some h)
    (hfit : h.total ≤ region.length) :
    ∃ (c : Cell) (region' : Bytes), region = c.wire ++ region' ∧ h = .ofCell front.length c ∧
      bs = (front ++ c.wire) ++ (region' ++ rest) ∧ region.length = c.wire.length + region'.length := by
  obtain ⟨front', rest', c, hbs', hlen, rfl⟩ := of_readFwdHeader hr hread
  rw [hbs] at hbs'
  obtain ⟨-, htail⟩ := append_inj hbs' hlen.symm
  have hpre : c.wire <+: region := by
    refine prefix_of_prefix_length_le ⟨rest', htail.symm⟩ (prefix_append region rest) ?_
    exact hfit
  obtain ⟨region', rfl⟩ := hpre
  exact ⟨c, region', rfl, rfl, by simp only [hbs, append_assoc], length_append⟩

end Reads

def selWire (sel : Option Cell) : Bytes := (sel.map Cell.wire).getD []

theorem no_sel : ∀ c ∈ (none : Option Cell), c.type = FIELD := by simp

/-- A forward frame as its TLVs: the children up to `src`, what follows `src` in the body, and what
follows the frame in the buffer. -/
structure Layout where
  root : Cell
  op : Cell
  dst : Cell
  sel : Option Cell
  src : Cell
  tail : Bytes
  extra : Bytes
  root_type : root.type = FWD
  root_pl : root.opt.pl = true
  op_type : op.type = VALUE
  dst_type : dst.type = PATH
  dst_pl : dst.opt.pl = false
  sel_type : ∀ c ∈ sel, c.type = FIELD
  src_type : src.type = PATH
  body : root.body = op.wire ++ (dst.wire ++ (selWire sel ++ (src.wire ++ tail)))

variable {pre : FwdPre} {kind : FwdDstKind}

namespace Layout

variable (L : Layout)

def bytes : Bytes := L.root.wire ++ L.extra

def opPos : Nat := L.root.opt.header

def dstPos : Nat := L.opPos + L.op.wire.length

def afterDst : Nat := L.dstPos + L.dst.wire.length

def srcPos : Nat := L.afterDst + (selWire L.sel).length

def tailPos : Nat := L.srcPos + L.src.wire.length

def bodyEnd : Nat := L.opPos + L.root.body.length

/-- The op and `dst` windows of a layout. -/
def opened : FwdPre :=
  (FwdPre.fillOp (.ofCell 0 L.root) (.ofCell L.opPos L.op)).fillDst L.dstPos (.ofCell L.dstPos L.dst)

def peeked : FwdDstKind × FwdPre :=
  if L.dst.body = [] then (.EMPTY, L.opened.accept)
  else judgeSeg0 L.opened
    ((recordAt L.dst.body).map fun p => .ofRecord (L.dstPos + L.dst.opt.header) p.1)

def located : FwdSrc where
  selPos := if L.sel.isSome then L.afterDst else 0
  selTotal := (selWire L.sel).length
  pos := L.srcPos
  hdr := .ofCell L.srcPos L.src

theorem length_body : L.root.body.length =
    L.op.wire.length + (L.dst.wire.length + ((selWire L.sel).length +
      (L.src.wire.length + L.tail.length))) := by
  rw [L.body]
  simp only [length_append]

def rest : Bytes := L.root.ts ++ (L.root.crc ++ L.extra)

theorem bytes_eq_root : L.bytes = L.root.head ++ (L.root.body ++ L.rest) := by
  simp only [bytes, rest, Cell.wire, append_assoc]

theorem bytes_eq : L.bytes = L.root.head ++ (L.op.wire ++ (L.dst.wire ++ (selWire L.sel ++ (L.src.wire ++
      (L.tail ++ L.rest))))) := by
  rw [bytes_eq_root, L.body]
  simp only [append_assoc]

section Reads

variable {L} {C : Type} [Cursor C] [LawfulCursor C] {cur : C}

open LawfulCursor

section

variable (hr : Reads cur L.bytes)
include hr

theorem readFwdHeader_root : readFwdHeader cur 0 = some (.ofCell 0 L.root) :=
  readFwdHeader_at hr [] L.extra rfl rfl

theorem readFwdHeader_op : readFwdHeader cur L.opPos = some (.ofCell L.opPos L.op) :=
  readFwdHeader_at hr L.root.head _ L.bytes_eq L.root.length_head

theorem readFwdHeader_dst : readFwdHeader cur L.dstPos = some (.ofCell L.dstPos L.dst) := by
  apply readFwdHeader_at hr (L.root.head ++ L.op.wire)
    (selWire L.sel ++ (L.src.wire ++ (L.tail ++ L.rest)))
  · rw [L.bytes_eq, append_assoc]
  · rw [length_append, L.root.length_head]
    rfl

theorem readFwdHeader_sel (hc : L.sel = some c) :
    readFwdHeader cur L.afterDst = some (.ofCell L.afterDst c) := by
  apply readFwdHeader_at hr (L.root.head ++ (L.op.wire ++ L.dst.wire))
    (L.src.wire ++ (L.tail ++ L.rest))
  · rw [L.bytes_eq, hc]
    simp only [append_assoc, selWire, Option.map_some, Option.getD_some]
  · simp only [length_append, L.root.length_head, afterDst, dstPos, opPos]
    omega

theorem readFwdHeader_src : readFwdHeader cur L.srcPos = some (.ofCell L.srcPos L.src) := by
  apply readFwdHeader_at hr (L.root.head ++ (L.op.wire ++ (L.dst.wire ++ selWire L.sel)))
    (L.tail ++ L.rest)
  · rw [L.bytes_eq]
    simp only [append_assoc]
  · simp only [length_append, L.root.length_head, srcPos, afterDst, dstPos, opPos]
    omega

end

theorem window_dst : window L.bytes (L.dstPos + L.dst.opt.header) L.dst.body.length = L.dst.body := by
  have h := window_append_mid (L.root.head ++ (L.op.wire ++ L.dst.head)) L.dst.body
    (L.dst.ts ++ (L.dst.crc ++ (selWire L.sel ++ (L.src.wire ++ (L.tail ++ L.rest)))))
  have hlen : (L.root.head ++ (L.op.wire ++ L.dst.head)).length = L.dstPos + L.dst.opt.header := by
    simp only [length_append, Cell.length_head, dstPos, opPos]
    omega
  rw [hlen] at h
  rw [L.bytes_eq]
  conv_lhs => rw [show L.dst.wire = L.dst.head ++ (L.dst.body ++ (L.dst.ts ++ L.dst.crc)) from rfl]
  simpa only [append_assoc] using h

/-- **The peek opens a layout's address.** -/
theorem peekFwdDstAny_eq (hr : Reads cur L.bytes) : peekFwdDstAny cur = L.peeked := by
  have hlen := L.length_body
  have hsrc := L.src.length_body_lt
  have hdst : L.dstPos + L.dst.opt.header + L.dst.body.length ≤ L.bytes.length :=
    (readFwdHeader_bounds hr (readFwdHeader_dst hr)).2.1.trans
      (readFwdHeader_bounds hr (readFwdHeader_dst hr)).2.2
  have hpath : PATH ≠ PATH_REF := by decide
  have hroot : FwdHdr.bodyOff (.ofCell 0 L.root) = L.opPos := by
    simp only [FwdHdr.ofCell, opPos, zero_add]
  have hpos : L.opPos + (FwdHdr.ofCell L.opPos L.op).total = L.dstPos := rfl
  have hopen : ¬L.dstPos ≥ L.opPos + (FwdHdr.ofCell 0 L.root).bodyLen := by
    simp only [FwdHdr.ofCell, dstPos]
    omega
  unfold peekFwdDstAny
  rw [readFwdHeader_root hr]
  simp only [hroot, readFwdHeader_op hr]
  rw [if_neg (by simp [FwdHdr.ofCell, L.root_type, L.root_pl]),
    if_neg (by simp [FwdHdr.ofCell, L.op_type])]
  unfold peekDst
  simp only [hroot, hpos, readFwdHeader_dst hr]
  rw [if_neg hopen]
  unfold judgeDst peeked
  rw [if_neg (by simp [FwdHdr.ofCell, L.dst_type, hpath]),
    if_neg (by simp [FwdHdr.ofCell, L.dst_type, L.dst_pl])]
  simp only [FwdHdr.ofCell, length_eq_zero_iff]
  split
  · rfl
  · rw [readPackedSeg_reads hr hdst, Nat.add_sub_cancel_left, L.window_dst]
    rfl

/-- **The locator finds a layout's `src`**, in whatever state the strip is. -/
theorem locateFwdSrc_eq (hr : Reads cur L.bytes)
    (hafter : pre.afterDst = L.afterDst) (hend : pre.bodyEnd = L.bodyEnd) :
    locateFwdSrc cur pre = some L.located := by
  have hlen := L.length_body
  have hsrc := L.src.length_body_lt
  have hhead := L.root.opt.four_le_header
  have hin : L.srcPos + L.src.wire.length ≤ L.bodyEnd := by
    simp only [srcPos, afterDst, dstPos, opPos, bodyEnd]
    omega
  have hfits : ¬((FwdHdr.ofCell L.srcPos L.src).type ≠ PATH ∨
      (FwdHdr.ofCell L.srcPos L.src).total > L.bodyEnd - L.srcPos) := by
    simp only [FwdHdr.ofCell, L.src_type, ne_eq, not_true_eq_false, false_or]
    omega
  have hopen : ¬(L.afterDst = 0 ∨ L.afterDst ≥ L.bodyEnd) := by
    simp only [srcPos, afterDst, dstPos, opPos, bodyEnd] at hin ⊢
    omega
  unfold locateFwdSrc
  simp only [hafter, hend]
  rw [if_neg hopen]
  cases hsel : L.sel with
  | none =>
    have hpos : L.srcPos = L.afterDst := by simp [srcPos, hsel, selWire]
    have hpf : PATH ≠ FIELD := by decide
    rw [← hpos, readFwdHeader_src hr]
    simp only [srcAt]
    rw [if_neg (by simp [FwdHdr.ofCell, L.src_type, hpf]), hend, if_neg hfits]
    simp [located, hsel, selWire]
  | some c =>
    have hnext : L.afterDst + c.wire.length = L.srcPos := by simp [srcPos, hsel, selWire]
    rw [readFwdHeader_sel hr hsel]
    simp only [FwdHdr.ofCell, L.sel_type c (by rw [hsel]; rfl), if_true, hnext]
    rw [if_pos (by omega), readFwdHeader_src hr]
    simp only [srcAt]
    rw [hend, if_neg hfits]
    simp [located, hsel, selWire]

end Reads

end Layout

/-! ## Every frame a hop can read has a layout -/

section Inversion

variable {C : Type} [Cursor C] {cur : C} {pre : FwdPre}

theorem of_peekFwdDstAny
    (h : peekFwdDstAny cur = (kind, pre)) (hafter : pre.afterDst ≠ 0) : ∃ fwd op dst : FwdHdr,
      readFwdHeader cur 0 = some fwd ∧ fwd.type = FWD ∧ fwd.opt.pl = true ∧
      readFwdHeader cur fwd.bodyOff = some op ∧ op.type = VALUE ∧ op.total < fwd.bodyLen ∧
      readFwdHeader cur (fwd.bodyOff + op.total) = some dst ∧
      judgeDst cur (.fillOp fwd op) (fwd.bodyOff + op.total) dst = (kind, pre) := by
  unfold peekFwdDstAny at h
  split at h
  · cases h
    exact absurd rfl hafter
  rename_i fwd hfwd
  split at h
  · cases h
    exact absurd rfl hafter
  rename_i htype
  split at h
  · cases h
    exact absurd rfl hafter
  rename_i op hop
  split at h
  · cases h
    exact absurd rfl hafter
  rename_i hvalue
  unfold peekDst at h
  dsimp only at h
  split at h
  · cases h
    exact absurd rfl hafter
  rename_i hroom
  split at h
  · cases h
    exact absurd rfl hafter
  rename_i dst hdst
  simp only [not_or, not_not, Bool.not_eq_true, Bool.not_eq_false'] at htype hvalue
  exact ⟨fwd, op, dst, hfwd, htype.1, by simpa using htype.2, hop, hvalue, by omega, hdst, h⟩

theorem of_judgeDst {op : FwdPre} {dstPos : Nat} {dst : FwdHdr}
    (h : judgeDst cur op dstPos dst = (kind, pre)) (hop : op.afterDst = 0)
    (hafter : pre.afterDst ≠ 0) (hkind : kind ≠ .RETIRED) :
    dst.type = PATH ∧ dst.opt.pl = false ∧ pre.afterDst = dstPos + dst.total ∧
      pre.bodyEnd = op.bodyEnd := by
  unfold judgeDst at h
  split at h
  · cases h
    exact absurd rfl hkind
  split at h
  · cases h
    exact absurd hop hafter
  rename_i hpath
  simp only [not_or, not_not, Bool.not_eq_true] at hpath
  refine ⟨hpath.1, hpath.2, ?_⟩
  split at h
  · cases h
    exact ⟨rfl, rfl⟩
  unfold judgeSeg0 at h
  split at h
  · cases h
    exact ⟨rfl, rfl⟩
  split at h <;> cases h <;> exact ⟨rfl, rfl⟩

theorem of_locateFwdSrc (h : locateFwdSrc cur pre = some s) :
    pre.afterDst ≠ 0 ∧ pre.afterDst < pre.bodyEnd ∧ s.hdr.type = PATH ∧ s.hdr.total ≤ pre.bodyEnd - s.pos ∧
      readFwdHeader cur s.pos = some s.hdr ∧
      (s.pos = pre.afterDst ∨ ∃ sel, readFwdHeader cur pre.afterDst = some sel ∧
        sel.type = FIELD ∧ s.pos = pre.afterDst + sel.total ∧ s.pos < pre.bodyEnd) := by
  unfold locateFwdSrc at h
  dsimp only at h
  split at h
  · cases h
  rename_i hopen
  split at h
  · cases h
  rename_i hd hread
  unfold srcAt at h
  simp only [not_or] at hopen
  split at h
  next hfield =>
    split at h
    · cases h
    rename_i src hsrc
    split at hsrc
    swap
    · cases hsrc
    rename_i hnext
    split at h
    · cases h
    rename_i hok
    simp only [not_or, not_not] at hok
    cases h
    exact ⟨hopen.1, by omega, hok.1, by simpa using hok.2, hsrc, .inr ⟨hd, hread, hfield, rfl, hnext⟩⟩
  · split at h
    next hnone =>
      cases hnone
    rename_i src hsome
    cases hsome
    split at h
    · cases h
    rename_i hok
    simp only [not_or, not_not] at hok
    cases h
    exact ⟨hopen.1, by omega, hok.1, by simpa using hok.2, hread, .inl rfl⟩

end Inversion

namespace Layout

variable {C : Type} [Cursor C] [LawfulCursor C] {cur : C} {bs : Bytes}

open LawfulCursor

/-- **A frame whose address the peek opens and whose `src` the locator finds is laid out as the
grammar has it.** -/
theorem of_peek (hr : Reads cur bs) (hpeek : peekFwdDstAny cur = (kind, pre)) (hkind : kind ≠ .RETIRED)
    (hsrc : locateFwdSrc cur pre = some s) : ∃ L : Layout, bs = L.bytes := by
  obtain ⟨hafter, hin, hpath, hfit, hread, hsel⟩ := of_locateFwdSrc hsrc
  obtain ⟨fwd, op, dst, hfwd, htype, hpl, hop, hvalue, hroom, hdst, hjudge⟩ :=
    of_peekFwdDstAny hpeek hafter
  obtain ⟨hdpath, hdpl, hafter_eq, hend_eq⟩ := of_judgeDst hjudge rfl hafter hkind
  -- the root: the whole buffer opens with it
  obtain ⟨front, extra, root, hbs, hfront, rfl⟩ := of_readFwdHeader hr hfwd
  obtain rfl := length_eq_zero_iff.mp hfront
  have hbs0 : bs = root.head ++ (root.body ++ (root.ts ++ (root.crc ++ extra))) := by
    rw [hbs, nil_append]
    simp only [Cell.wire, append_assoc]
  have hpos : FwdHdr.bodyOff (.ofCell 0 root) = root.head.length := by
    simp only [FwdHdr.ofCell, zero_add, Cell.length_head]
  have hend : pre.bodyEnd = root.head.length + root.body.length := by
    rw [hend_eq]
    simp only [FwdPre.fillOp, FwdHdr.ofCell, zero_add, Cell.length_head]
  rw [hpos] at hop hdst hafter_eq
  -- `op`, `dst` and `src` follow one another inside the body
  obtain ⟨opc, body1, hbody, rfl, hbs1, hlen1⟩ := next_cell hr hbs0 hop (Nat.le_of_lt hroom)
  have htotal1 : (FwdHdr.ofCell root.head.length opc).total = opc.wire.length := rfl
  rw [htotal1, ← length_append] at hdst hafter_eq
  have hdfit : dst.total ≤ body1.length := by
    rw [length_append] at hafter_eq
    omega
  obtain ⟨dstc, body2, hbody1, rfl, hbs2, hlen2⟩ := next_cell hr hbs1 hdst hdfit
  have htotal2 : (FwdHdr.ofCell (root.head ++ opc.wire).length dstc).total = dstc.wire.length := rfl
  have hafter2 : pre.afterDst = (root.head ++ opc.wire ++ dstc.wire).length := by
    rw [hafter_eq, htotal2]
    simp only [length_append]
  rcases hsel with hnosel | ⟨sel, hselread, hfield, hselpos, hselin⟩
  · rw [hnosel, hafter2] at hread hfit
    have hsfit : s.hdr.total ≤ body2.length := by
      rw [hend] at hfit
      simp only [length_append] at hfit
      omega
    obtain ⟨srcc, tail, hbody2, hsrch, -⟩ := next_cell hr hbs2 hread hsfit
    refine ⟨⟨root, opc, dstc, none, srcc, tail, extra, htype, hpl, hvalue, hdpath, hdpl,
      by simp, ?_, ?_⟩, hbs⟩
    · rw [hsrch] at hpath
      exact hpath
    · rw [hbody, hbody1, hbody2]
      rfl
  · rw [hafter2] at hselread hselpos
    have hselfit : sel.total ≤ body2.length := by
      rw [hselpos, hend] at hselin
      simp only [length_append] at hselin
      omega
    obtain ⟨selc, body3, hbody2, rfl, hbs3, hlen3⟩ := next_cell hr hbs2 hselread hselfit
    have htotal3 : (FwdHdr.ofCell (root.head ++ opc.wire ++ dstc.wire).length selc).total =
      selc.wire.length := rfl
    rw [hselpos, htotal3, ← length_append] at hread hfit
    have hsfit : s.hdr.total ≤ body3.length := by
      rw [hend] at hfit
      simp only [length_append] at hfit
      omega
    obtain ⟨srcc, tail, hbody3, hsrch, -⟩ := next_cell hr hbs3 hread hsfit
    refine ⟨⟨root, opc, dstc, some selc, srcc, tail, extra, htype, hpl, hvalue, hdpath, hdpl,
      ?_, ?_, ?_⟩, hbs⟩
    · intro c hc
      cases hc
      exact hfield
    · rw [hsrch] at hpath
      exact hpath
    · rw [hbody, hbody1, hbody2, hbody3]
      rfl

end Layout

end LibTracer.Net
