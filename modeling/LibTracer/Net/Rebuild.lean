import LibTracer.Lib.BoundedWriter
import LibTracer.Net.FwdFrame

/-!
# Rewriting a forward frame in flight (`fwd_frame_view.hpp`)

A hop that forwards a frame strips the leading records of its `dst` and grows its `src` by the mount
it came in over.  Only the headers are written anew, into small stack buffers; every other byte is
gathered from where it arrived.

* **`Layout.rebuildHeads_spec`** — what is gathered is the frame `Layout.hop`.
-/

namespace LibTracer.Net

open Window List Wire Wire.Grammar
open Crc (Bytes)
open LibTracer.Graph.State (PATH)

/-! ## Operations -/

/-- `fwd_op_t`: the four operations, and the codes that name none. -/
inductive FwdOp where
  | READ | WRITE | AWAIT | REPLY
  | undefined (code : UInt8)
  deriving DecidableEq, Repr

def FwdOp.ofByte (b : UInt8) : FwdOp :=
  if b = 0 then .READ
  else if b = 1 then .WRITE
  else if b = 2 then .AWAIT
  else if b = 3 then .REPLY
  else .undefined b

def kFwdOpcodeMask : UInt8 := 0x3F

/-! ## The heads -/

abbrev StackWriter (N : Nat) := BoundedWriter UInt8 N

/-- The header bytes `put_header` lays out. -/
def tlvHead (type : UInt8) (opt : Opt) (bodyLen : Nat) : Bytes :=
  type :: opt.encode :: LittleEndian.store bodyLen opt.lengthWidth

/-- The `opt` of a rebuilt frame: the stamp bits of `trailer`, never a CRC. -/
def fwdHeadOpt (bodyLen : Nat) (trailer : Opt) : Opt :=
  { pl := true, ts := trailer.ts, ll := decide (bodyLen > 0xFFFF), tf := trailer.ts && trailer.tf }

/-- The `opt` of a rebuilt route. -/
def routeOpt (bodyLen : Nat) : Opt := { ll := decide (bodyLen > 0xFFFF) }

def withoutTrailer (o : Opt) : Opt := { o with ts := false, cr := false, cw := false, tf := false }

section Writer

variable {N : Nat}

/-- `stack_writer_t::header`. -/
def putFwdHeader (w : StackWriter N) (type : UInt8) (bodyLen : Nat) (trailer : Opt) : StackWriter N :=
  w.put (tlvHead type (fwdHeadOpt bodyLen trailer) bodyLen)

/-- `stack_writer_t::header_route`: only a `PATH` widens its length. -/
def putRouteHeader (w : StackWriter N) (type : UInt8) (bodyLen : Nat) : StackWriter N :=
  if bodyLen > 0xFFFF ∧ type ≠ PATH then w.fail
  else w.put (tlvHead type (routeOpt bodyLen) bodyLen)

end Writer

def headerBytes (bodyLen : Nat) : Nat := (routeOpt bodyLen).header

@[simp] theorem length_tlvHead (type : UInt8) (opt : Opt) (bodyLen : Nat) :
    (tlvHead type opt bodyLen).length = opt.header := by
  rw [Opt.header_eq]
  simp only [tlvHead, length_cons, LittleEndian.length_store]
  omega

theorem header_routeOpt_le (bodyLen : Nat) : (routeOpt bodyLen).header ≤ 6 := by
  rw [Opt.header]
  split <;> omega

/-! ## The rewrite -/

def kFwdHead1Cap : Nat := 64

def kFwdSrcHdrCap : Nat := 6

/-- `fwd_rebuild_t::kTsNarrow`: the form bit of a stamp window. -/
def kTsNarrow : Nat := 2 ^ 31

structure FwdRebuild where
  head1 : StackWriter kFwdHead1Cap := {}
  head2 : StackWriter kFwdSrcHdrCap := {}
  own : StackWriter (4 + kPathPairRecordBytes) := {}
  mountTlv : Bytes := []
  extraHdr : UInt8 := 0
  extraSeg : Bytes := []
  srcPair : Bool := false
  rev : Bool := false
  revPair : Bool := false
  tsWindow : Nat := 0
  remDstOff : Nat := 0
  remDstLen : Nat := 0
  selPos : Nat := 0
  selTotal : Nat := 0
  srcBodyOff : Nat := 0
  srcBodyLen : Nat := 0
  tailOff : Nat := 0
  tailLen : Nat := 0
  revBodyOff : Nat := 0
  revBodyLen : Nat := 0

namespace FwdRebuild

/-- `ts_bytes`: the width of the stamp kept, in the form its producer chose. -/
def tsBytes (r : FwdRebuild) : Nat :=
  if r.tsWindow = 0 then 0 else if r.tsWindow.testBit 31 then 4 else 8

/-- `ts_off`: the form bit masked off. -/
def tsOff (r : FwdRebuild) : Nat := r.tsWindow % kTsNarrow

def runBytes (r : FwdRebuild) : Nat :=
  r.mountTlv.length + (if r.extraSeg.isEmpty then 0 else 1 + r.extraSeg.length)

/-- The spans `push_run` emits. -/
def run (r : FwdRebuild) : List Bytes :=
  (if r.mountTlv.isEmpty then [] else [r.mountTlv]) ++
    (if r.extraSeg.isEmpty then [] else [[r.extraHdr], r.extraSeg])

def ok (r : FwdRebuild) : Bool := r.head1.ok && r.head2.ok && r.own.ok

/-- `new_src_body`: the `src` body grows by this hop's `PAIR` on a reply that has one, else by the
run of names. -/
def newSrcBody (r : FwdRebuild) : Nat :=
  r.srcBodyLen + (if r.srcPair then kPathPairRecordBytes else r.runBytes)

/-- `rev_bytes`: the reverse child, its head and this hop's element included. -/
def revBytes (r : FwdRebuild) : Nat :=
  if r.rev then r.own.span.length + (if r.revPair then 0 else r.runBytes) + r.revBodyLen else 0

end FwdRebuild

def newFwdBody (pre : FwdPre) (r : FwdRebuild) : Nat :=
  let newDstBody := pre.dstEnd - pre.stripAt
  pre.opTotal + headerBytes newDstBody + newDstBody + r.selTotal + headerBytes r.newSrcBody +
    r.newSrcBody + r.tailLen + r.revBytes

/-- The spans emitted so far, and the source they are read from. -/
structure Out (C : Type) where
  spans : List Bytes
  source : C

section Gather

variable {C : Type} [Cursor C]

open Cursor

namespace Out

def push (o : Out C) (xs : List Bytes) : Out C := { o with spans := o.spans ++ xs }

def region (o : Out C) (off len : Nat) : Out C :=
  if len > 0 then
    let (spans, source) := forEachSpan o.source off len
    ⟨o.spans ++ spans, source⟩
  else o

end Out

namespace FwdRebuild

def gatherReverse (r : FwdRebuild) (out : Out C) : Out C :=
  let out := out.push [r.own.span]
  let out := if r.revPair then out else out.push r.run
  out.region r.revBodyOff r.revBodyLen

/-- `gather`: the regions of the outgoing frame, in wire order. -/
def gather (r : FwdRebuild) (cur : C) : Out C :=
  let out : Out C := ⟨[r.head1.span], cur⟩
  let out := out.region r.remDstOff r.remDstLen
  let out := out.region r.selPos r.selTotal
  let out := out.push [r.head2.span]
  let out := if r.srcPair then out.push [r.own.span] else out.push r.run
  let out := out.region r.srcBodyOff r.srcBodyLen
  let out := out.region r.tailOff r.tailLen
  let out := if r.rev then r.gatherReverse out else out
  out.region r.tsOff r.tsBytes

end FwdRebuild

structure TrailingReverse where
  pos : Nat
  bodyOff : Nat
  bodyLen : Nat
  deriving DecidableEq, Repr

/-- The loop of `peek_trailing_reverse`: the last reverse child, unless the tail is malformed. -/
def peekTrailingReverseTo (cur : C) (stop : Nat) :
    Nat → Nat → Option TrailingReverse → Option TrailingReverse
  | 0, _, found => found
  | fuel + 1, pos, found =>
    if pos < stop then
      match readFwdHeader cur pos with
      | none => none
      | some h =>
        if h.total = 0 ∨ pos + h.total > stop then none
        else
          peekTrailingReverseTo cur stop fuel (pos + h.total)
            (if h.type = PATH_REF_REVERSE then some ⟨pos, h.bodyOff, h.bodyLen⟩ else found)
    else found

/-- `peek_trailing_reverse`: a child is no shorter than its header, so the bytes bound the steps. -/
def peekTrailingReverse (cur : C) (start stop : Nat) : Option TrailingReverse :=
  peekTrailingReverseTo cur stop (stop - start) start none

def isSubscribeRequest (cur : C) (pos bodyEnd : Nat) : Bool :=
  if pos ≥ bodyEnd then false
  else
    match readFwdHeader cur pos with
    | none => false
    | some h => h.type == SUBSCRIBER

/-- `rebuild_reply_own`: a relayed reply grows by this hop's `PAIR`, when it has one. -/
def rebuildReplyOwn (mint : Option PathPair) (r : FwdRebuild) : FwdRebuild :=
  match mint with
  | none => r
  | some p => { r with own := r.own.put (pathPairStore p), srcPair := true }

/-- The reverse body a hop prepends to, and the tail in front of an existing child. -/
def cutReverse (found : Option TrailingReverse) (pos srcOff srcLen : Nat) (r : FwdRebuild) :
    FwdRebuild :=
  match found with
  | some f => { r with revBodyOff := f.bodyOff, revBodyLen := f.bodyLen, tailLen := f.pos - pos }
  | none => { r with revBodyOff := srcOff, revBodyLen := srcLen }

/-- The head of a reverse child, and the `PAIR` behind it when the hop has one. -/
def putReverse (own : StackWriter (4 + kPathPairRecordBytes)) (mint : Option PathPair)
    (bodyLen : Nat) : StackWriter (4 + kPathPairRecordBytes) :=
  match mint with
  | some p => (putRouteHeader own PATH_REF_REVERSE bodyLen).put (pathPairStore p)
  | none => putRouteHeader own PATH_REF_REVERSE bodyLen

/-- This hop's element in front of the reverse body, unless a 16-bit body cannot hold both. -/
def headReverse (mint : Option PathPair) (r : FwdRebuild) : FwdRebuild :=
  let body := r.revBodyLen + (if mint.isSome then kPathPairRecordBytes else r.runBytes)
  if body > 0xFFFF then r
  else { r with own := putReverse r.own mint body, rev := true, revPair := mint.isSome }

def rebuildRequestReverse (cur : C) (pos bodyEnd srcOff srcLen : Nat) (mint : Option PathPair)
    (r : FwdRebuild) : FwdRebuild :=
  headReverse mint (cutReverse (peekTrailingReverse cur pos bodyEnd) pos srcOff srcLen r)

/-- The tail of `rebuild_fwd_forward`: what `dst` keeps, the stamp and the two heads. -/
def rebuildHeads (cur : C) (pre : FwdPre) (r : FwdRebuild) : FwdRebuild :=
  let remDstLen := pre.dstEnd - pre.stripAt
  let keepTs := pre.fwdOpt.ts && decide (pre.bodyEnd < kTsNarrow)
  { r with
    remDstOff := pre.stripAt
    remDstLen
    tsWindow :=
      if keepTs then pre.bodyEnd ||| (if pre.fwdOpt.tf then kTsNarrow else 0) else 0
    head1 :=
      putRouteHeader
        ((forEachSpan cur pre.opPos pre.opTotal).1.foldl BoundedWriter.put
          (putFwdHeader r.head1 FWD (newFwdBody pre r)
            (if keepTs then pre.fwdOpt else withoutTrailer pre.fwdOpt)))
        PATH remDstLen
    head2 := putRouteHeader r.head2 PATH r.newSrcBody }

def rebuildRegions (pre : FwdPre) (src : FwdSrc) (mountTlv extraSeg : Bytes) : FwdRebuild where
  selPos := src.selPos
  selTotal := src.selTotal
  tailOff := src.pos + src.hdr.total
  tailLen := pre.bodyEnd - (src.pos + src.hdr.total)
  srcBodyOff := src.hdr.bodyOff
  srcBodyLen := src.hdr.bodyLen
  mountTlv := mountTlv
  extraSeg := extraSeg
  extraHdr := UInt8.ofNat extraSeg.length

def maskedOp (cur : C) (pre : FwdPre) : FwdOp :=
  .ofByte (byteAt cur pre.opBodyOff &&& kFwdOpcodeMask)

/-- A `WRITE` behind a selector whose first child after `src` is a `SUBSCRIBER`. -/
def relaysSubscribe (cur : C) (pre : FwdPre) (src : FwdSrc) : Bool :=
  maskedOp cur pre == .WRITE && decide (src.selTotal > 0) &&
    isSubscribeRequest cur (src.pos + src.hdr.total) pre.bodyEnd

/-- This hop's own part: a `PAIR` on a reply, a reverse element on a relayed subscribe. -/
def rebuildOwn (cur : C) (pre : FwdPre) (src : FwdSrc) (mint reverseMint : Option PathPair)
    (r : FwdRebuild) : FwdRebuild :=
  if maskedOp cur pre = .REPLY then rebuildReplyOwn mint r
  else if relaysSubscribe cur pre src then
    rebuildRequestReverse cur (src.pos + src.hdr.total) pre.bodyEnd src.hdr.bodyOff
      src.hdr.bodyLen reverseMint r
  else r

/-- `rebuild_fwd_forward`.  The two closures that mint this hop's element are the elements they
answer with. -/
def rebuildFwdForward (cur : C) (pre : FwdPre) (mountTlv extraSeg : Bytes)
    (mint reverseMint : Option PathPair) : Option FwdRebuild :=
  if !pre.valid ∨ pre.opBodyLen = 0 ∨ pre.stripAt > pre.dstEnd ∨
      extraSeg.length > kPackedSegMaxBytes then none
  else
    match locateFwdSrc cur pre with
    | none => none
    | some src =>
      some (rebuildHeads cur pre
        (rebuildOwn cur pre src mint reverseMint (rebuildRegions pre src mountTlv extraSeg)))

/-- The tail of `route_fwd_forward`: the bytes handed to the link, or a dropped frame. -/
def routeFwdForward (cur : C) (pre : FwdPre) (mountTlv extraSeg : Bytes)
    (mint reverseMint : Option PathPair) : Option Bytes :=
  match rebuildFwdForward cur pre mountTlv extraSeg mint reverseMint with
  | none => none
  | some r =>
    if !r.ok then none
    else
      let out := r.gather cur
      -- a region that overshot the source would be a truncated frame
      if poisoned out.source then none else some out.spans.flatten

end Gather

/-! ## What is gathered -/

namespace FwdRebuild

/-- What `src` grows by. -/
def grown (r : FwdRebuild) : Bytes := if r.srcPair then r.own.span else r.run.flatten

/-- The reverse child behind the tail, read from the source `bs`. -/
def reverse (r : FwdRebuild) (bs : Bytes) : Bytes :=
  if r.rev then
    r.own.span ++ ((if r.revPair then [] else r.run.flatten) ++ window bs r.revBodyOff r.revBodyLen)
  else []

theorem length_run (r : FwdRebuild) : r.run.flatten.length = r.runBytes := by
  unfold run runBytes
  cases r.mountTlv <;> cases r.extraSeg <;> simp <;> omega

/-- The regions of a rewrite lie in a source of `n` bytes. -/
structure Within (r : FwdRebuild) (n : Nat) : Prop where
  remDst : r.remDstOff + r.remDstLen ≤ n
  sel : r.selPos + r.selTotal ≤ n
  srcBody : r.srcBodyOff + r.srcBodyLen ≤ n
  tail : r.tailOff + r.tailLen ≤ n
  revBody : r.rev = true → r.revBodyOff + r.revBodyLen ≤ n
  stamp : r.tsOff + r.tsBytes ≤ n

end FwdRebuild

section Gathered

variable {C : Type} [Cursor C] [LawfulCursor C] {cur : C} {bs text : Bytes}

open LawfulCursor

/-- The source still reads `bs`, and `text` is emitted. -/
structure Out.Holds (o : Out C) (bs text : Bytes) : Prop where
  reads : Reads o.source bs
  text : o.spans.flatten = text

namespace Out.Holds

variable {o : Out C}

theorem push (h : o.Holds bs text) (xs : List Bytes) : (o.push xs).Holds bs (text ++ xs.flatten) :=
  ⟨h.reads, by rw [Out.push, flatten_append, h.text]⟩

theorem region (h : o.Holds bs text) {off len : Nat} (hin : off + len ≤ bs.length) :
    (o.region off len).Holds bs (text ++ window bs off len) := by
  unfold Out.region
  split
  · exact ⟨spans_reads h.reads hin, by rw [flatten_append, h.text, spans_eq h.reads hin]⟩
  · rw [show len = 0 by omega, window_zero_right, append_nil]
    exact h

end Out.Holds

theorem FwdRebuild.gatherReverse_holds {r : FwdRebuild} {o : Out C} (h : o.Holds bs text)
    (hrev : r.rev = true) (hin : r.revBodyOff + r.revBodyLen ≤ bs.length) :
    (r.gatherReverse o).Holds bs (text ++ r.reverse bs) := by
  unfold FwdRebuild.gatherReverse FwdRebuild.reverse
  rw [if_pos hrev, ← append_assoc, ← append_assoc]
  refine Out.Holds.region ?_ hin
  have hown : (o.push [r.own.span]).Holds bs (text ++ r.own.span) := by
    simpa using h.push [r.own.span]
  split
  · rw [append_nil]
    exact hown
  · exact hown.push r.run

/-- **The gathered regions are the frame, in wire order**, whatever stores the source. -/
theorem FwdRebuild.gather_holds (r : FwdRebuild) (hr : Reads cur bs) (hin : r.Within bs.length) :
    (r.gather cur).Holds bs
      (r.head1.span ++ (window bs r.remDstOff r.remDstLen ++ (window bs r.selPos r.selTotal ++
        (r.head2.span ++ (r.grown ++ (window bs r.srcBodyOff r.srcBodyLen ++
          (window bs r.tailOff r.tailLen ++ (r.reverse bs ++ window bs r.tsOff r.tsBytes)))))))) := by
  have hhead : Out.Holds (⟨[r.head1.span], cur⟩ : Out C) bs r.head1.span := ⟨hr, by simp⟩
  have hhead2 := ((hhead.region hin.remDst).region hin.sel).push [r.head2.span]
  unfold FwdRebuild.gather
  simp only [← append_assoc]
  refine Out.Holds.region ?_ hin.stamp
  have hown : ∀ (o : Out C) (text : Bytes), o.Holds bs text →
      (if r.srcPair then o.push [r.own.span] else o.push r.run).Holds bs (text ++ r.grown) := by
    intro o text ho
    unfold FwdRebuild.grown
    split
    · simpa using ho.push [r.own.span]
    · exact ho.push r.run
  have htail := ((hown _ _ hhead2).region hin.srcBody).region hin.tail
  simp only [flatten_cons, flatten_nil, append_nil] at htail
  split
  next hrev =>
    exact FwdRebuild.gatherReverse_holds htail hrev (hin.revBody hrev)
  next hrev =>
    rw [FwdRebuild.reverse, if_neg hrev, append_nil]
    exact htail

end Gathered

/-! ## The frame a hop is meant to send -/

def route (body : Bytes) : Bytes := tlvHead PATH (routeOpt body.length) body.length ++ body

theorem length_route (body : Bytes) : (route body).length = headerBytes body.length + body.length := by
  rw [route, length_append, length_tlvHead]
  rfl

theorem lt_lengthWidth {n : Nat} (h : n < 2 ^ 32) : n < 256 ^ (routeOpt n).lengthWidth := by
  unfold routeOpt Opt.lengthWidth
  by_cases hwide : n > 0xFFFF
  · simpa [hwide] using h
  · simp only [hwide, decide_false, Bool.false_eq_true, if_false]
    omega

def leafCell (type : UInt8) (body : Bytes) (hne : type ≠ 0) (hshape : isPathRefType type = false)
    (h : body.length < 2 ^ 32) : Cell where
  type := type
  opt := routeOpt body.length
  body := body
  ts := []
  crc := []
  type_ne := hne
  fits := lt_lengthWidth h
  shape := by rw [shapeOk, hshape]; rfl
  ts_length := rfl
  crc_length := rfl

theorem wire_leafCell {type : UInt8} {body : Bytes} (hne : type ≠ 0)
    (hshape : isPathRefType type = false) (h : body.length < 2 ^ 32) :
    (leafCell type body hne hshape h).wire = tlvHead type (routeOpt body.length) body.length ++ body := by
  simp [Cell.wire, leafCell, Cell.head, tlvHead]

def pathCell (body : Bytes) (h : body.length < 2 ^ 32) : Cell :=
  leafCell PATH body (by decide) (by decide) h

/-- What `leafCell` asks, decided. -/
def leafFits (type : UInt8) (body : Bytes) : Bool :=
  type ≠ 0 ∧ isPathRefType type = false ∧ body.length < 2 ^ 32

theorem leafFits_iff {type : UInt8} {body : Bytes} : leafFits type body = true ↔
    type ≠ 0 ∧ isPathRefType type = false ∧ body.length < 2 ^ 32 :=
  decide_eq_true_iff

/-- `leafCell` of a type and a body that are written out. -/
def leaf (type : UInt8) (body : Bytes) (h : leafFits type body = true) : Cell :=
  leafCell type body (leafFits_iff.mp h).1 (leafFits_iff.mp h).2.1 (leafFits_iff.mp h).2.2

theorem wire_pathCell (body : Bytes) (h : body.length < 2 ^ 32) : (pathCell body h).wire = route body :=
  wire_leafCell _ _ h

/-- A `FWD` around that body, with the stamp that `trailer` announces. -/
def fwdCell (body : Bytes) (trailer : Opt) (ts : Bytes) (h : body.length < 2 ^ 32)
    (hts : ts.length = (fwdHeadOpt body.length trailer).tsSize) : Cell where
  type := FWD
  opt := fwdHeadOpt body.length trailer
  body := body
  ts := ts
  crc := []
  type_ne := by decide
  fits := lt_lengthWidth h
  shape := rfl
  ts_length := hts
  crc_length := rfl

theorem wire_fwdCell {body : Bytes} {trailer : Opt} {ts : Bytes} (h : body.length < 2 ^ 32)
    (hts : ts.length = (fwdHeadOpt body.length trailer).tsSize) : (fwdCell body trailer ts h hts).wire =
      tlvHead FWD (fwdHeadOpt body.length trailer) body.length ++ (body ++ ts) := by
  simp [Cell.wire, fwdCell, Cell.head, tlvHead]

namespace Layout

variable (L : Layout)

/-- The body of the outgoing frame: `strip` bytes of `dst` consumed, `src` grown by `grown`, and
`tail` behind it. -/
def hopBody (strip : Nat) (grown tail : Bytes) : Bytes :=
  L.op.wire ++ (route (L.dst.body.drop strip) ++ (selWire L.sel ++
    (route (grown ++ L.src.body) ++ tail)))

def keepsTs : Bool := L.root.opt.ts && decide (L.bodyEnd < kTsNarrow)

def hopOpt (bodyLen : Nat) : Opt :=
  fwdHeadOpt bodyLen (if L.keepsTs then L.root.opt else withoutTrailer L.root.opt)

def hopTs : Bytes := if L.keepsTs then L.root.ts else []

def hopBytes (strip : Nat) (grown tail : Bytes) : Bytes :=
  let body := L.hopBody strip grown tail
  tlvHead FWD (L.hopOpt body.length) body.length ++ (body ++ L.hopTs)

def headLen (strip : Nat) (grown tail : Bytes) : Nat :=
  headerBytes (L.hopBody strip grown tail).length + L.op.wire.length +
    headerBytes (L.dst.body.length - strip)

theorem headLen_le (strip : Nat) (grown tail : Bytes) :
    L.headLen strip grown tail ≤ 12 + L.op.wire.length := by
  have h1 := header_routeOpt_le (L.hopBody strip grown tail).length
  have h2 := header_routeOpt_le (L.dst.body.length - strip)
  simp only [headLen, headerBytes]
  omega

theorem length_hopBody_le (strip : Nat) (grown tail : Bytes) :
    (L.hopBody strip grown tail).length + L.tail.length ≤
      L.root.body.length + grown.length + tail.length + 4 := by
  have hdst := L.dst.length_body_lt
  have hsrc := L.src.length_body_lt
  have h1 := header_routeOpt_le (L.dst.body.length - strip)
  have h2 := header_routeOpt_le (grown.length + L.src.body.length)
  rw [L.length_body]
  simp only [hopBody, length_append, length_route, length_drop, headerBytes]
  omega

theorem length_hopTs (bodyLen : Nat) : L.hopTs.length = (L.hopOpt bodyLen).tsSize := by
  have hts := L.root.ts_length
  unfold hopTs hopOpt fwdHeadOpt Opt.tsSize
  cases hkeep : L.keepsTs
  · rfl
  · simp only [keepsTs, Bool.and_eq_true] at hkeep
    simp only [Opt.tsSize, hkeep.1, if_true, Bool.true_and] at hts ⊢
    exact hts

theorem length_drop_lt (strip : Nat) : (L.dst.body.drop strip).length < 2 ^ 32 := by
  have hfits := L.dst.fits
  have hwidth : 256 ^ L.dst.opt.lengthWidth ≤ 2 ^ 32 := by
    unfold Opt.lengthWidth
    split <;> decide
  rw [length_drop]
  omega

theorem length_grown_lt {strip : Nat} {grown tail : Bytes}
    (hfit : (L.hopBody strip grown tail).length < 2 ^ 32) : (grown ++ L.src.body).length < 2 ^ 32 := by
  simp only [hopBody, length_append, length_route] at hfit
  rw [length_append]
  omega

/-- **The outgoing frame is a layout** as long as a length field can count its body. -/
def hop (strip : Nat) (grown tail : Bytes)
    (hfit : (L.hopBody strip grown tail).length < 2 ^ 32) : Layout where
  root := fwdCell (L.hopBody strip grown tail)
    (if L.keepsTs then L.root.opt else withoutTrailer L.root.opt) L.hopTs hfit (L.length_hopTs _)
  op := L.op
  dst := pathCell (L.dst.body.drop strip) (L.length_drop_lt strip)
  sel := L.sel
  src := pathCell (grown ++ L.src.body) (L.length_grown_lt hfit)
  tail := tail
  extra := []
  root_type := rfl
  root_pl := rfl
  op_type := L.op_type
  dst_type := rfl
  dst_pl := rfl
  sel_type := L.sel_type
  src_type := rfl
  body := by
    simp only [fwdCell, hopBody, wire_pathCell]

theorem bytes_hop {strip : Nat} {grown tail : Bytes}
    (hfit : (L.hopBody strip grown tail).length < 2 ^ 32) :
    (L.hop strip grown tail hfit).bytes = L.hopBytes strip grown tail :=
  (append_nil _).trans (wire_fwdCell hfit (L.length_hopTs _))

/-! ## The rewrite of a layout -/

/-- The offsets of `pre` are those of the layout, however much of `dst` is to be consumed. -/
structure Opens (pre : FwdPre) : Prop where
  valid : pre.valid = true
  bodyEnd : pre.bodyEnd = L.bodyEnd
  opPos : pre.opPos = L.opPos
  opTotal : pre.opTotal = L.op.wire.length
  opBodyOff : pre.opBodyOff = L.opPos + L.op.opt.header
  opBodyLen : pre.opBodyLen = L.op.body.length
  dstBodyOff : pre.dstBodyOff = L.dstPos + L.dst.opt.header
  dstEnd : pre.dstEnd = L.dstPos + L.dst.opt.header + L.dst.body.length
  afterDst : pre.afterDst = L.afterDst
  fwdOpt : pre.fwdOpt = L.root.opt

variable {L}

theorem opens_accept : L.Opens L.opened.accept where
  valid := rfl
  bodyEnd := by simp only [FwdPre.accept, opened, FwdPre.fillDst, FwdPre.fillOp, FwdHdr.ofCell,
    Layout.bodyEnd, Layout.opPos, zero_add]
  opPos := by simp only [FwdPre.accept, opened, FwdPre.fillDst, FwdPre.fillOp, FwdHdr.ofCell,
    Layout.opPos, zero_add]
  opTotal := rfl
  opBodyOff := rfl
  opBodyLen := rfl
  dstBodyOff := rfl
  dstEnd := rfl
  afterDst := rfl
  fwdOpt := rfl

theorem opens_of_peeked {kind : FwdDstKind} {pre : FwdPre} (h : L.peeked = (kind, pre))
    (hkind : kind ≠ .NONE) : L.Opens pre := by
  have hopen : L.Opens L.opened.accept := opens_accept
  unfold peeked judgeSeg0 at h
  split at h
  · cases h
    exact hopen
  split at h
  · cases h
    exact absurd rfl hkind
  split at h <;> cases h
  · exact hopen
  · exact { hopen with }

theorem Opens.strip {pre : FwdPre} (h : L.Opens pre) (n : Nat) : L.Opens { pre with stripAt := n } :=
  { h with }

section Windows

theorem window_cut {bs mid : Bytes} {off n : Nat} (front rest : Bytes)
    (hbs : bs = front ++ (mid ++ rest)) (hoff : front.length = off) (hn : mid.length = n) :
    window bs off n = mid := by
  rw [hbs, ← hoff, ← hn, window_append_mid]

theorem window_op : window L.bytes L.opPos L.op.wire.length = L.op.wire :=
  window_cut L.root.head _ L.bytes_eq L.root.length_head rfl

theorem window_dst_drop (strip : Nat) :
    window L.bytes (L.dstPos + L.dst.opt.header + strip) (L.dst.body.length - strip) =
      L.dst.body.drop strip := by
  rw [← drop_window, L.window_dst]

theorem window_sel : window L.bytes L.afterDst (selWire L.sel).length = selWire L.sel := by
  apply window_cut (L.root.head ++ (L.op.wire ++ L.dst.wire)) (L.src.wire ++ (L.tail ++ L.rest))
  · rw [L.bytes_eq]
    simp only [append_assoc]
  · simp only [length_append, Cell.length_head, afterDst, dstPos, opPos, add_assoc]
  · rfl

theorem window_src : window L.bytes (L.srcPos + L.src.opt.header) L.src.body.length = L.src.body := by
  apply window_cut
    (L.root.head ++ (L.op.wire ++ (L.dst.wire ++ (selWire L.sel ++ L.src.head))))
    (L.src.ts ++ (L.src.crc ++ (L.tail ++ L.rest)))
  · rw [L.bytes_eq]
    simp only [Cell.wire, append_assoc]
  · simp only [length_append, Cell.length_head, srcPos, afterDst, dstPos, opPos, add_assoc]
  · rfl

theorem window_tail {n : Nat} (hn : n ≤ L.tail.length) : window L.bytes L.tailPos n = L.tail.take n := by
  apply window_cut
    (L.root.head ++ (L.op.wire ++ (L.dst.wire ++ (selWire L.sel ++ L.src.wire))))
    (L.tail.drop n ++ L.rest)
  · rw [L.bytes_eq]
    conv_lhs => rw [← take_append_drop n L.tail]
    simp only [append_assoc]
  · simp only [length_append, Cell.length_head, tailPos, srcPos, afterDst, dstPos, opPos, add_assoc]
  · rw [length_take]
    omega

theorem window_ts : window L.bytes L.bodyEnd L.root.opt.tsSize = L.root.ts := by
  apply window_cut (L.root.head ++ L.root.body) (L.root.crc ++ L.extra)
  · rw [L.bytes_eq_root, rest]
    simp only [append_assoc]
  · simp only [length_append, Cell.length_head, bodyEnd, opPos]
  · exact L.root.ts_length

theorem length_bytes : L.bytes.length =
    L.bodyEnd + L.root.opt.tsSize + L.root.opt.crcSize + L.extra.length := by
  rw [L.bytes_eq_root, rest]
  simp only [length_append, Cell.length_head, bodyEnd, opPos, L.root.ts_length, L.root.crc_length]
  omega

theorem tailPos_add : L.tailPos + L.tail.length = L.bodyEnd := by
  have := L.length_body
  simp only [tailPos, srcPos, afterDst, dstPos, bodyEnd]
  omega

theorem srcEnd_le : L.srcPos + L.src.opt.header + L.src.body.length ≤ L.bytes.length := by
  have hbytes := L.length_bytes
  have htail := L.tailPos_add
  have hsrc := L.src.length_wire
  simp only [Cell.header] at hsrc
  simp only [tailPos] at htail
  omega

end Windows

/-- A rewrite before its heads: the regions are the layout's, `src` is to grow by `grown`, and what
follows `src` is `tail`. -/
structure Ready (L : Layout) (r : FwdRebuild) (grown tail : Bytes) : Prop where
  head1 : r.head1 = {}
  head2 : r.head2 = {}
  own : r.own.ok = true
  sel : r.selTotal = (selWire L.sel).length
  selPos : r.selTotal > 0 → r.selPos = L.afterDst
  selPos_le : r.selPos ≤ L.afterDst
  srcBodyOff : r.srcBodyOff = L.srcPos + L.src.opt.header
  srcBodyLen : r.srcBodyLen = L.src.body.length
  tailOff : r.tailOff = L.tailPos
  tailLen : r.tailLen ≤ L.tail.length
  pair : r.srcPair = true → r.own.span.length = kPathPairRecordBytes
  revBody : r.rev = true → r.revBodyOff + r.revBodyLen ≤ L.bytes.length
  grown : r.grown = grown
  tail : L.tail.take r.tailLen ++ r.reverse L.bytes = tail

namespace Ready

variable {r : FwdRebuild} {grown tail : Bytes}

theorem newSrcBody_eq (h : L.Ready r grown tail) : r.newSrcBody = (grown ++ L.src.body).length := by
  rw [length_append, ← h.grown, FwdRebuild.newSrcBody, FwdRebuild.grown, h.srcBodyLen]
  split
  next hpair =>
    rw [h.pair hpair]
    omega
  · rw [r.length_run]
    omega

theorem tailBytes_eq (h : L.Ready r grown tail) : r.tailLen + r.revBytes = tail.length := by
  rw [← h.tail, length_append, length_take, Nat.min_eq_left h.tailLen,
    FwdRebuild.revBytes, FwdRebuild.reverse]
  split
  next hrev =>
    rw [length_append, length_append, length_window (h.revBody hrev)]
    split
    · rw [length_nil]
      omega
    · rw [r.length_run]
      omega
  · rfl

theorem newFwdBody_eq (h : L.Ready r grown tail) {pre : FwdPre} (ho : L.Opens pre) {strip : Nat}
    (hstrip : pre.stripAt = pre.dstBodyOff + strip) :
    newFwdBody pre r = (L.hopBody strip grown tail).length := by
  have htail := h.tailBytes_eq
  have hrem : pre.dstEnd - pre.stripAt = L.dst.body.length - strip := by
    rw [hstrip, ho.dstEnd, ho.dstBodyOff]
    omega
  simp only [newFwdBody, hopBody, length_append, length_route, hrem, h.sel, ho.opTotal,
    h.newSrcBody_eq, length_drop] at htail ⊢
  omega

end Ready

theorem stampWindow {n : Nat} (hn : n < kTsNarrow) (tf : Bool) :
    (n ||| (if tf then kTsNarrow else 0)) % kTsNarrow = n ∧
      (n ||| (if tf then kTsNarrow else 0)).testBit 31 = tf := by
  have hbit : n.testBit 31 = false := Nat.testBit_lt_two_pow hn
  cases tf
  · simp only [Bool.false_eq_true, if_false, Nat.or_zero]
    exact ⟨Nat.mod_eq_of_lt hn, hbit⟩
  · have hadd : n ||| kTsNarrow = kTsNarrow + n := by
      rw [Nat.or_comm]
      have := Nat.two_pow_add_eq_or_of_lt hn 1
      rw [Nat.mul_one] at this
      exact this.symm
    simp only [if_true]
    refine ⟨?_, ?_⟩
    · rw [hadd, Nat.add_mod_left, Nat.mod_eq_of_lt hn]
    · rw [Nat.testBit_or, hbit, Bool.false_or]
      exact Nat.testBit_two_pow_self

section Heads

variable {C : Type} [Cursor C] [LawfulCursor C] {cur : C} {pre : FwdPre} {r : FwdRebuild}
  {grown tail : Bytes} {strip : Nat}

open LawfulCursor

theorem wrote_head1 {N : Nat} (bodyLen : Nat) (trailer : Opt) (chunks : List Bytes) (dstLen : Nat) :
    (putRouteHeader (chunks.foldl BoundedWriter.put
      (putFwdHeader ({} : StackWriter N) FWD bodyLen trailer)) PATH dstLen).Wrote
      (tlvHead FWD (fwdHeadOpt bodyLen trailer) bodyLen ++ chunks.flatten ++
        tlvHead PATH (routeOpt dstLen) dstLen) := by
  unfold putRouteHeader putFwdHeader
  rw [if_neg (by simp)]
  have hfirst : (({} : StackWriter N).put (tlvHead FWD (fwdHeadOpt bodyLen trailer) bodyLen)).Wrote
      (tlvHead FWD (fwdHeadOpt bodyLen trailer) bodyLen) :=
    BoundedWriter.wrote_nil.put _
  exact (hfirst.puts chunks).put _

theorem head1_wrote (hr : Reads cur L.bytes) (ho : L.Opens pre) (hready : L.Ready r grown tail)
    (hstrip : pre.stripAt = pre.dstBodyOff + strip) : (rebuildHeads cur pre r).head1.Wrote
      (tlvHead FWD (L.hopOpt (L.hopBody strip grown tail).length)
          (L.hopBody strip grown tail).length ++ L.op.wire ++
        tlvHead PATH (routeOpt (L.dst.body.drop strip).length) (L.dst.body.drop strip).length) := by
  have hrem : pre.dstEnd - pre.stripAt = (L.dst.body.drop strip).length := by
    rw [hstrip, ho.dstEnd, ho.dstBodyOff, length_drop]
    omega
  have hop : (Cursor.forEachSpan cur pre.opPos pre.opTotal).1.flatten = L.op.wire := by
    have hin : L.opPos + L.op.wire.length ≤ L.bytes.length := by
      have hbody := L.length_body
      have hbytes := L.length_bytes
      simp only [bodyEnd] at hbytes
      omega
    rw [ho.opPos, ho.opTotal, spans_eq hr hin, window_op]
  unfold rebuildHeads
  simp only [hrem, hready.head1, hready.newFwdBody_eq ho hstrip, ho.fwdOpt, ho.bodyEnd]
  rw [← hop]
  exact wrote_head1 _ _ _ _

omit [LawfulCursor C] in
theorem head2_wrote (hready : L.Ready r grown tail) : (rebuildHeads cur pre r).head2.Wrote
      (tlvHead PATH (routeOpt (grown ++ L.src.body).length) (grown ++ L.src.body).length) := by
  unfold rebuildHeads putRouteHeader
  simp only [hready.head2, hready.newSrcBody_eq]
  rw [if_neg (by simp)]
  exact BoundedWriter.wrote_nil.put _

theorem length_routeHead_le (type : UInt8) (n : Nat) :
    (tlvHead type (routeOpt n) n).length ≤ kFwdSrcHdrCap := by
  rw [length_tlvHead]
  exact header_routeOpt_le n

omit [LawfulCursor C] in
theorem stamp_eq (ho : L.Opens pre) :
    (rebuildHeads cur pre r).tsOff + (rebuildHeads cur pre r).tsBytes ≤ L.bytes.length ∧
      window L.bytes (rebuildHeads cur pre r).tsOff (rebuildHeads cur pre r).tsBytes = L.hopTs := by
  have hword : (rebuildHeads cur pre r).tsWindow =
      if L.keepsTs then L.bodyEnd ||| (if L.root.opt.tf then kTsNarrow else 0) else 0 := by
    simp only [rebuildHeads, ho.fwdOpt, ho.bodyEnd]
    rfl
  simp only [FwdRebuild.tsOff, FwdRebuild.tsBytes, hword, hopTs]
  cases hkeep : L.keepsTs
  · simp
  simp only [keepsTs, Bool.and_eq_true, decide_eq_true_eq] at hkeep
  obtain ⟨hoff, hform⟩ := stampWindow hkeep.2 L.root.opt.tf
  have hne : (L.bodyEnd ||| (if L.root.opt.tf then kTsNarrow else 0)) ≠ 0 := by
    intro hzero
    have hpos := L.root.opt.four_le_header
    rw [hzero, Nat.zero_mod] at hoff
    simp only [bodyEnd, opPos] at hoff
    omega
  have hsize : (if L.root.opt.tf then 4 else 8) = L.root.opt.tsSize := by
    rw [Opt.tsSize, hkeep.1]
    rfl
  have hlen := L.length_bytes
  simp only [if_true, hne, if_false, hoff, hform, hsize]
  exact ⟨by omega, window_ts⟩

omit [LawfulCursor C] in
theorem within_rebuildHeads (ho : L.Opens pre) (hready : L.Ready r grown tail)
    (hstrip : pre.stripAt = pre.dstBodyOff + strip) (hle : strip ≤ L.dst.body.length) :
    (rebuildHeads cur pre r).Within L.bytes.length := by
  have hbytes := L.length_bytes
  have htail := L.tailPos_add
  have hdst := L.dst.length_wire
  have hsrc := L.src.length_wire
  have hsel := hready.selPos
  have hselle := hready.selPos_le
  simp only [Cell.header] at hdst hsrc
  simp only [tailPos, srcPos, afterDst] at htail hsel hselle
  refine ⟨?_, ?_, ?_, ?_, hready.revBody, (stamp_eq ho).1⟩
  · simp only [rebuildHeads, hstrip, ho.dstEnd, ho.dstBodyOff]
    omega
  · have := hready.sel
    show r.selPos + r.selTotal ≤ _
    omega
  · show r.srcBodyOff + r.srcBodyLen ≤ _
    rw [hready.srcBodyOff, hready.srcBodyLen]
    simp only [srcPos, afterDst]
    omega
  · have hlen := hready.tailLen
    show r.tailOff + r.tailLen ≤ _
    rw [hready.tailOff]
    simp only [tailPos, srcPos, afterDst]
    omega

/-- **The rewrite of a layout**: its head fits or the frame is dropped, and what is gathered is the
outgoing frame. -/
theorem rebuildHeads_spec (hr : Reads cur L.bytes) (ho : L.Opens pre)
    (hready : L.Ready r grown tail) (hstrip : pre.stripAt = pre.dstBodyOff + strip)
    (hle : strip ≤ L.dst.body.length) :
    ((rebuildHeads cur pre r).ok = true ↔ L.headLen strip grown tail ≤ kFwdHead1Cap) ∧
      ((rebuildHeads cur pre r).ok = true →
        ((rebuildHeads cur pre r).gather cur).Holds L.bytes (L.hopBytes strip grown tail)) := by
  have h1 := head1_wrote hr ho hready hstrip
  have h2 : (rebuildHeads cur pre r).head2.Wrote _ := head2_wrote hready
  have hlen1 : (tlvHead FWD (L.hopOpt (L.hopBody strip grown tail).length)
      (L.hopBody strip grown tail).length ++ L.op.wire ++
      tlvHead PATH (routeOpt (L.dst.body.drop strip).length) (L.dst.body.drop strip).length).length =
      L.headLen strip grown tail := by
    simp only [length_append, length_tlvHead, headLen, length_drop]
    rfl
  have hok : (rebuildHeads cur pre r).ok = true ↔ L.headLen strip grown tail ≤ kFwdHead1Cap := by
    have hown : (rebuildHeads cur pre r).own.ok = true := hready.own
    rw [FwdRebuild.ok, hown, h2.ok_iff.mpr (length_routeHead_le _ _), ← hlen1, ← h1.ok_iff]
    simp
  refine ⟨hok, fun hfits => ?_⟩
  have hspan1 := h1.span_eq (hlen1 ▸ hok.mp hfits)
  have hspan2 := h2.span_eq (length_routeHead_le _ _)
  have hgather := (rebuildHeads cur pre r).gather_holds hr
    (within_rebuildHeads ho hready hstrip hle)
  have hdst : window L.bytes (rebuildHeads cur pre r).remDstOff (rebuildHeads cur pre r).remDstLen =
      L.dst.body.drop strip := by
    have hrem : pre.dstEnd - pre.stripAt = L.dst.body.length - strip := by
      rw [hstrip, ho.dstEnd, ho.dstBodyOff]
      omega
    show window L.bytes pre.stripAt (pre.dstEnd - pre.stripAt) = _
    rw [hrem, hstrip, ho.dstBodyOff, window_dst_drop]
  have hsel : window L.bytes (rebuildHeads cur pre r).selPos (rebuildHeads cur pre r).selTotal =
      selWire L.sel := by
    show window L.bytes r.selPos r.selTotal = _
    by_cases hpos : r.selTotal > 0
    · rw [hready.selPos hpos, hready.sel, window_sel]
    have hzero : r.selTotal = 0 := by omega
    have hnil := hready.sel.symm.trans hzero
    rw [hzero, window_zero_right, length_eq_zero_iff.mp hnil]
  have hsrc : window L.bytes (rebuildHeads cur pre r).srcBodyOff (rebuildHeads cur pre r).srcBodyLen =
      L.src.body := by
    show window L.bytes r.srcBodyOff r.srcBodyLen = _
    rw [hready.srcBodyOff, hready.srcBodyLen, window_src]
  have htail : window L.bytes (rebuildHeads cur pre r).tailOff (rebuildHeads cur pre r).tailLen =
      L.tail.take r.tailLen := by
    show window L.bytes r.tailOff r.tailLen = _
    rw [hready.tailOff, window_tail hready.tailLen]
  have hgrown : (rebuildHeads cur pre r).grown = grown := hready.grown
  have hrev : (rebuildHeads cur pre r).reverse L.bytes = r.reverse L.bytes := rfl
  rw [hspan1, hspan2, hdst, hsel, hsrc, htail, hgrown, hrev, (stamp_eq ho).2] at hgather
  have htext : L.hopBytes strip grown tail =
      tlvHead FWD (L.hopOpt (L.hopBody strip grown tail).length)
        (L.hopBody strip grown tail).length ++
        ((L.op.wire ++ (route (L.dst.body.drop strip) ++ (selWire L.sel ++
          (route (grown ++ L.src.body) ++ (L.tail.take r.tailLen ++ r.reverse L.bytes))))) ++
            L.hopTs) := by
    rw [hready.tail]
    rfl
  rw [htext, route, route]
  simpa only [append_assoc] using hgather

end Heads

end Layout

end LibTracer.Net
