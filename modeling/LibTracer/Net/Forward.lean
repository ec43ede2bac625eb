import LibTracer.Net.Rebuild

/-!
# What a hop sends (`rebuild_fwd_forward`, `route_fwd_forward`)

A frame that is forwarded leaves with its `dst` shortened, its `src` grown and the rest as it came.
A reply grows by the hop's own `PAIR` where it has one; a relayed subscribe also carries the way
back (`Relay`).

* **`forward_rewrite`** — a plain frame is rewritten as the layout says, however its bytes are stored.
-/

namespace LibTracer.Net

open Window List Wire Wire.Grammar
open Crc (Bytes)
open LibTracer.Graph (VALUE)
open LibTracer.Graph.State (PATH)

/-! ## This hop's own part -/

/-- The names a hop prepends: the mount the frame came in over and, behind it, the peer. -/
def hopRun (mountTlv extraSeg : Bytes) : Bytes :=
  mountTlv ++ (if extraSeg.isEmpty then [] else UInt8.ofNat extraSeg.length :: extraSeg)

/-- The element a hop adds: its `PAIR`, else the names. -/
def hopElement (mint : Option PathPair) (run : Bytes) : Bytes :=
  match mint with
  | some p => pathPairStore p
  | none => run

def reverseWire (body : Bytes) : Bytes :=
  if body.length > 0xFFFF then []
  else tlvHead PATH_REF_REVERSE (routeOpt body.length) body.length ++ body

theorem flatten_run (pre : FwdPre) (src : FwdSrc) (mountTlv extraSeg : Bytes) :
    (rebuildRegions pre src mountTlv extraSeg).run.flatten = hopRun mountTlv extraSeg := by
  unfold FwdRebuild.run rebuildRegions hopRun
  cases mountTlv <;> cases extraSeg <;> simp

namespace Layout

variable {L : Layout} {found : Option TrailingReverse}

section Own

variable {pre : FwdPre} {r : FwdRebuild} {grown tail : Bytes}

theorem ready_regions (ho : L.Opens pre) (mountTlv extraSeg : Bytes) :
    L.Ready (rebuildRegions pre L.located mountTlv extraSeg) (hopRun mountTlv extraSeg) L.tail := by
  have hlen : (rebuildRegions pre L.located mountTlv extraSeg).tailLen = L.tail.length := by
    have := L.tailPos_add
    show pre.bodyEnd - L.tailPos = _
    rw [ho.bodyEnd]
    omega
  refine ⟨rfl, rfl, rfl, rfl, ?_, ?_, rfl, rfl, rfl, hlen.le, ?_, ?_, ?_, ?_⟩
  · intro hpos
    show (if L.sel.isSome then L.afterDst else 0) = _
    cases hsel : L.sel with
    | none => simp [rebuildRegions, located, selWire, hsel] at hpos
    | some c => rfl
  · show (if L.sel.isSome then L.afterDst else 0) ≤ _
    split <;> omega
  · intro hpair
    cases hpair
  · intro hrev
    cases hrev
  · exact flatten_run pre L.located mountTlv extraSeg
  · rw [hlen, take_length]
    exact append_nil _

/-- A rewrite to which this hop has added nothing of its own. -/
structure Bare (r : FwdRebuild) : Prop where
  own : r.own = {}
  rev : r.rev = false
  srcPair : r.srcPair = false

theorem bare_regions (pre : FwdPre) (src : FwdSrc) (mountTlv extraSeg : Bytes) :
    Bare (rebuildRegions pre src mountTlv extraSeg) :=
  ⟨rfl, rfl, rfl⟩

theorem Bare.cutReverse (h : Bare r) (found : Option TrailingReverse) (pos srcOff srcLen : Nat) :
    Bare (cutReverse found pos srcOff srcLen r) := by
  cases found <;> exact { h with }

theorem reverse_of_rev (hrev : r.rev = false) (bs : Bytes) : r.reverse bs = [] := by
  rw [FwdRebuild.reverse, hrev]
  rfl

theorem Ready.take_tail (h : L.Ready r grown tail) (hb : Bare r) : L.tail.take r.tailLen = tail := by
  have htail := h.tail
  rwa [reverse_of_rev hb.rev, append_nil] at htail

theorem Ready.replyOwn (h : L.Ready r grown tail) (hb : Bare r) (mint : Option PathPair) :
    L.Ready (rebuildReplyOwn mint r) (hopElement mint grown) tail := by
  cases mint with
  | none => exact h
  | some p =>
    have hwrote : (r.own.put (pathPairStore p)).Wrote ([] ++ pathPairStore p) := by
      rw [hb.own]
      exact BoundedWriter.wrote_nil.put _
    have hfits : ([] ++ pathPairStore p).length ≤ 4 + kPathPairRecordBytes := by
      rw [nil_append, length_pathPairStore]
      omega
    have hspan := hwrote.span_eq hfits
    rw [nil_append] at hspan
    refine { h with
      own := hwrote.ok_iff.mpr hfits
      pair := fun _ => ?_
      grown := hspan
      tail := ?_ }
    · show (r.own.put (pathPairStore p)).span.length = _
      rw [hspan, length_pathPairStore]
    · rw [reverse_of_rev (show (rebuildReplyOwn (some p) r).rev = false from hb.rev), append_nil]
      exact h.take_tail hb

def keptTail (L : Layout) (found : Option TrailingReverse) : Bytes :=
  match found with
  | some f => L.tail.take (f.pos - L.tailPos)
  | none => L.tail

/-- The reverse body as it arrived; the child a hop creates starts from the `src` body. -/
def inboundReverse (L : Layout) (found : Option TrailingReverse) : Bytes :=
  match found with
  | some f => window L.bytes f.bodyOff f.bodyLen
  | none => L.src.body

def InTail (L : Layout) (found : Option TrailingReverse) : Prop :=
  ∀ f ∈ found, L.tailPos ≤ f.pos ∧ f.pos ≤ L.bodyEnd ∧ f.bodyOff + f.bodyLen ≤ L.bodyEnd

theorem Ready.cutReverse (h : L.Ready r grown L.tail) (hb : Bare r)
    (hin : L.InTail found) (srcOff srcLen : Nat) :
    L.Ready (cutReverse found L.tailPos srcOff srcLen r) grown (L.keptTail found) := by
  have hbare := hb.cutReverse found L.tailPos srcOff srcLen
  cases found with
  | none =>
    refine { h with
      revBody := fun hr => absurd (hbare.rev.symm.trans hr) nofun
      tail := ?_ }
    rw [reverse_of_rev hbare.rev, append_nil]
    exact h.take_tail hb
  | some f =>
    refine { h with
      tailLen := ?_
      revBody := fun hr => absurd (hbare.rev.symm.trans hr) nofun
      tail := ?_ }
    · have hpos := hin f rfl
      have htail := L.tailPos_add
      show f.pos - L.tailPos ≤ _
      omega
    · rw [reverse_of_rev hbare.rev, append_nil]
      rfl

theorem putReverse_spec (hb : Bare r) (mint : Option PathPair) {bodyLen : Nat}
    (hroom : ¬bodyLen > 0xFFFF) :
    (putReverse r.own mint bodyLen).ok = true ∧ (putReverse r.own mint bodyLen).span =
      tlvHead PATH_REF_REVERSE (routeOpt bodyLen) bodyLen ++ hopElement mint [] := by
  have hhead : (putRouteHeader r.own PATH_REF_REVERSE bodyLen).Wrote
      (tlvHead PATH_REF_REVERSE (routeOpt bodyLen) bodyLen) := by
    rw [hb.own, putRouteHeader, if_neg (by omega)]
    exact BoundedWriter.wrote_nil.put _
  have hfour : (tlvHead PATH_REF_REVERSE (routeOpt bodyLen) bodyLen).length = 4 := by
    rw [length_tlvHead, routeOpt, Opt.header]
    simp [hroom]
  cases mint with
  | none =>
    have hfits := show (tlvHead PATH_REF_REVERSE (routeOpt bodyLen) bodyLen).length ≤
      4 + kPathPairRecordBytes by omega
    exact ⟨hhead.ok_iff.mpr hfits, (hhead.span_eq hfits).trans (append_nil _).symm⟩
  | some p =>
    have hfits : (tlvHead PATH_REF_REVERSE (routeOpt bodyLen) bodyLen ++ pathPairStore p).length ≤
        4 + kPathPairRecordBytes := by
      rw [length_append, hfour, length_pathPairStore]
    have hput := hhead.put (pathPairStore p)
    exact ⟨hput.ok_iff.mpr hfits, hput.span_eq hfits⟩

theorem Ready.headReverse (h : L.Ready r grown tail) (hb : Bare r)
    (hin : r.revBodyOff + r.revBodyLen ≤ L.bytes.length) (mint : Option PathPair) :
    L.Ready (headReverse mint r) grown
      (tail ++ reverseWire (hopElement mint grown ++ window L.bytes r.revBodyOff r.revBodyLen)) := by
  have hrun : r.run.flatten = grown := by
    rw [← h.grown, FwdRebuild.grown, hb.srcPair]
    rfl
  have hlen : r.revBodyLen + (if mint.isSome then kPathPairRecordBytes else r.runBytes) =
      (hopElement mint grown ++ window L.bytes r.revBodyOff r.revBodyLen).length := by
    rw [length_append, length_window hin, ← hrun]
    cases mint with
    | none => rw [hopElement, r.length_run]; exact add_comm ..
    | some p => rw [hopElement, length_pathPairStore]; exact add_comm ..
  unfold Net.headReverse reverseWire
  rw [hlen]
  dsimp only
  by_cases hbig :
      (hopElement mint grown ++ window L.bytes r.revBodyOff r.revBodyLen).length > 0xFFFF
  · rw [if_pos hbig, if_pos hbig, append_nil]
    exact h
  rw [if_neg hbig, if_neg hbig]
  obtain ⟨hok, hspan⟩ := putReverse_spec hb mint hbig
  refine { h with
    own := hok
    pair := fun hp => by cases hb.srcPair.symm.trans hp
    revBody := fun _ => hin
    grown := ?_
    tail := ?_ }
  · simp only [FwdRebuild.grown, hb.srcPair, Bool.false_eq_true, if_false]
    exact hrun
  · simp only [FwdRebuild.reverse, if_true, hspan]
    rw [h.take_tail hb, ← hrun]
    cases mint with
    | none =>
      simp only [hopElement, Option.isSome_none, Bool.false_eq_true, if_false, append_assoc, nil_append]
      rfl
    | some p => simp only [hopElement, Option.isSome_some, if_true, append_assoc, nil_append]

theorem ready_reverse (ho : L.Opens pre) (mountTlv extraSeg : Bytes) (mint : Option PathPair)
    (hin : L.InTail found) :
    L.Ready (headReverse mint (cutReverse found L.tailPos (L.srcPos + L.src.opt.header)
        L.src.body.length (rebuildRegions pre L.located mountTlv extraSeg))) (hopRun mountTlv extraSeg)
      (L.keptTail found ++
        reverseWire (hopElement mint (hopRun mountTlv extraSeg) ++ L.inboundReverse found)) := by
  have hbare := bare_regions pre L.located mountTlv extraSeg
  have hcut := (ready_regions ho mountTlv extraSeg).cutReverse hbare hin
    (L.srcPos + L.src.opt.header) L.src.body.length
  have hbytes := L.length_bytes
  have hhead := fun hlen => hcut.headReverse (hbare.cutReverse found _ _ _) hlen mint
  cases found with
  | some f =>
    have hf := hin f rfl
    exact hhead (show f.bodyOff + f.bodyLen ≤ _ by omega)
  | none =>
    have hwin : L.inboundReverse none = window L.bytes (L.srcPos + L.src.opt.header)
        L.src.body.length := L.window_src.symm
    rw [hwin]
    exact hhead L.srcEnd_le

end Own

/-! ## What leaves the hop -/

section Sends

variable {C : Type} [Cursor C] [LawfulCursor C] {cur : C} {bs : Bytes} {pre : FwdPre}
  {mountTlv extraSeg grown tail : Bytes} {mint reverseMint : Option PathPair} {strip : Nat}

open LawfulCursor

theorem routeFwdForward_eq (hr : Reads cur L.bytes) (ho : L.Opens pre) (hop : L.op.body ≠ [])
    (hseg : extraSeg.length ≤ kPackedSegMaxBytes) (hstrip : pre.stripAt = pre.dstBodyOff + strip)
    (hle : strip ≤ L.dst.body.length) (hready : L.Ready (rebuildOwn cur pre L.located mint reverseMint
      (rebuildRegions pre L.located mountTlv extraSeg)) grown tail) :
    routeFwdForward cur pre mountTlv extraSeg mint reverseMint =
      if L.headLen strip grown tail ≤ kFwdHead1Cap then some (L.hopBytes strip grown tail) else none := by
  have hlocate := locateFwdSrc_eq hr ho.afterDst ho.bodyEnd
  have hopLen : pre.opBodyLen ≠ 0 := by
    rw [ho.opBodyLen]
    exact fun hzero => hop (length_eq_zero_iff.mp hzero)
  have hend : ¬pre.stripAt > pre.dstEnd := by
    rw [hstrip, ho.dstEnd, ho.dstBodyOff]
    omega
  have hsegn : ¬extraSeg.length > kPackedSegMaxBytes := by omega
  obtain ⟨hok, hgather⟩ := rebuildHeads_spec hr ho hready hstrip hle
  unfold routeFwdForward rebuildFwdForward
  rw [if_neg (by simp [ho.valid, hopLen, hend, hsegn]), hlocate]
  dsimp only
  by_cases hfits : L.headLen strip grown tail ≤ kFwdHead1Cap
  · have hsent := hgather (hok.mpr hfits)
    rw [if_pos hfits, hok.mpr hfits, if_neg (by simp), not_poisoned hsent.reads, hsent.text]
    rfl
  · rw [if_neg hfits, if_pos]
    simpa using fun hr => hfits (hok.mp hr)

omit [LawfulCursor C] in
theorem routeFwdForward_empty (ho : L.Opens pre) (hop : L.op.body = []) :
    routeFwdForward cur pre mountTlv extraSeg mint reverseMint = none := by
  unfold routeFwdForward rebuildFwdForward
  rw [if_pos (.inr (.inl (by rw [ho.opBodyLen, hop]; rfl)))]

omit [LawfulCursor C] in
theorem routeFwdForward_none (hsrc : locateFwdSrc cur pre = none) :
    routeFwdForward cur pre mountTlv extraSeg mint reverseMint = none := by
  have hbuild : rebuildFwdForward cur pre mountTlv extraSeg mint reverseMint = none := by
    unfold rebuildFwdForward
    rw [hsrc]
    split <;> rfl
  rw [routeFwdForward, hbuild]

theorem peekTrailingReverseTo_reads (hr : Reads cur bs) (stop fuel pos : Nat)
    (found : Option TrailingReverse) : peekTrailingReverseTo cur stop fuel pos found =
      peekTrailingReverseTo (SpanCursor.mk bs) stop fuel pos found := by
  induction fuel generalizing pos found with
  | zero => rfl
  | succ fuel ih =>
    unfold peekTrailingReverseTo
    simp only [readFwdHeader_reads hr, ih]

theorem opBody_lt (ho : L.Opens pre) : pre.opBodyOff < L.bytes.length := by
  have hop := L.op.length_body_lt
  have hdst := L.dst.length_body_lt
  have hoplen := L.op.length_wire
  have hbody := L.length_body
  have hbytes := L.length_bytes
  simp only [Cell.header] at hoplen
  simp only [bodyEnd] at hbytes
  rw [ho.opBodyOff]
  omega

def opcode (L : Layout) : FwdOp := .ofByte (L.op.body.headD 0 &&& kFwdOpcodeMask)

omit [LawfulCursor C] in
theorem getD_opBody (ho : L.Opens pre) (hop : L.op.body ≠ []) :
    L.bytes.getD pre.opBodyOff 0 = L.op.body.headD 0 := by
  obtain ⟨b, body, hbody⟩ := exists_cons_of_ne_nil hop
  have hbs : L.bytes = (L.root.head ++ L.op.head) ++ b :: (body ++ (L.op.ts ++ (L.op.crc ++
      (L.dst.wire ++ (selWire L.sel ++ (L.src.wire ++ (L.tail ++ L.rest))))))) := by
    rw [L.bytes_eq, Cell.wire, hbody]
    simp only [append_assoc, cons_append]
  have hoff : pre.opBodyOff = (L.root.head ++ L.op.head).length := by
    rw [ho.opBodyOff, length_append, Cell.length_head, Cell.length_head, opPos]
  rw [hbs, hoff, hbody]
  simp [getD_eq_getElem?_getD]

theorem maskedOp_eq (hr : Reads cur L.bytes) (ho : L.Opens pre) (hop : L.op.body ≠ []) :
    maskedOp cur pre = L.opcode := by
  rw [maskedOp, opcode, byteAt_eq hr (opBody_lt ho), getD_opBody ho hop]

theorem rebuildOwn_reads (hr : Reads cur L.bytes) (ho : L.Opens pre) (s : FwdSrc) (r : FwdRebuild) :
    rebuildOwn cur pre s mint reverseMint r =
      rebuildOwn (SpanCursor.mk L.bytes) pre s mint reverseMint r := by
  have hin := opBody_lt ho
  have hmask : maskedOp cur pre = maskedOp (SpanCursor.mk L.bytes) pre := by
    unfold maskedOp
    rw [byteAt_eq hr hin, byteAt_eq (reads_span _) hin]
  unfold rebuildOwn relaysSubscribe isSubscribeRequest rebuildRequestReverse peekTrailingReverse
  simp only [hmask, readFwdHeader_reads hr, peekTrailingReverseTo_reads hr]

theorem peekTrailingReverseTo_bounds (hr : Reads cur bs) {start stop fuel pos : Nat}
    {f : TrailingReverse} (hpos : start ≤ pos)
    (hfound : ∀ g ∈ found, start ≤ g.pos ∧ g.pos ≤ stop ∧ g.bodyOff + g.bodyLen ≤ stop)
    (h : peekTrailingReverseTo cur stop fuel pos found = some f) :
    start ≤ f.pos ∧ f.pos ≤ stop ∧ f.bodyOff + f.bodyLen ≤ stop := by
  induction fuel generalizing pos found with
  | zero => exact hfound f h
  | succ fuel ih =>
    unfold peekTrailingReverseTo at h
    split at h
    swap
    · exact hfound f h
    split at h
    · cases h
    rename_i hd hread
    split at h
    · cases h
    rename_i hfit
    have hbounds := readFwdHeader_bounds hr hread
    refine ih (by omega) ?_ h
    intro g hg
    split at hg
    · cases hg
      dsimp only
      omega
    · exact hfound g hg

section

variable (hr : Reads cur L.bytes)
include hr

theorem inTail_peek : L.InTail (peekTrailingReverse cur L.tailPos L.bodyEnd) := by
  intro f hf
  refine peekTrailingReverseTo_bounds hr le_rfl ?_ hf
  intro g hg
  cases hg

theorem exists_ready (ho : L.Opens pre) (mountTlv extraSeg : Bytes) (mint reverseMint : Option PathPair) :
    ∃ grown tail, L.Ready (rebuildOwn cur pre L.located mint reverseMint
      (rebuildRegions pre L.located mountTlv extraSeg)) grown tail := by
  have hready := ready_regions ho mountTlv extraSeg
  have hbare := bare_regions pre L.located mountTlv extraSeg
  unfold rebuildOwn
  split
  · exact ⟨_, _, hready.replyOwn hbare mint⟩
  split
  · rw [ho.bodyEnd]
    exact ⟨_, _, ready_reverse ho mountTlv extraSeg reverseMint (inTail_peek hr)⟩
  · exact ⟨_, _, hready⟩

theorem routeFwdForward_plain (ho : L.Opens pre) (hop : L.op.body ≠ [])
    (hreply : maskedOp cur pre ≠ .REPLY) (hplain : relaysSubscribe cur pre L.located = false)
    (hseg : extraSeg.length ≤ kPackedSegMaxBytes) (hle : strip ≤ L.dst.body.length) :
    routeFwdForward cur { pre with stripAt := pre.dstBodyOff + strip } mountTlv extraSeg mint
      reverseMint =
      if L.headLen strip (hopRun mountTlv extraSeg) L.tail ≤ kFwdHead1Cap then
        some (L.hopBytes strip (hopRun mountTlv extraSeg) L.tail)
      else none := by
  have ho' := ho.strip (pre.dstBodyOff + strip)
  have hown : ∀ r, rebuildOwn cur { pre with stripAt := pre.dstBodyOff + strip } L.located mint
      reverseMint r = r := by
    intro r
    have hskip : rebuildOwn cur pre L.located mint reverseMint r = r := by
      rw [rebuildOwn, if_neg hreply, hplain]
      rfl
    exact hskip
  refine routeFwdForward_eq hr ho' hop hseg rfl hle ?_
  rw [hown]
  exact ready_regions ho' mountTlv extraSeg

/-- **What leaves the hop depends on the bytes alone.** -/
theorem routeFwdForward_reads (ho : L.Opens pre) (hstrip : pre.stripAt = pre.dstBodyOff + strip) :
    routeFwdForward cur pre mountTlv extraSeg mint reverseMint =
      routeFwdForward (SpanCursor.mk L.bytes) pre mountTlv extraSeg mint reverseMint := by
  by_cases hop : L.op.body = []
  · rw [routeFwdForward_empty ho hop, routeFwdForward_empty ho hop]
  by_cases hguard : pre.stripAt > pre.dstEnd ∨ extraSeg.length > kPackedSegMaxBytes
  · unfold routeFwdForward rebuildFwdForward
    rw [if_pos (.inr (.inr hguard)), if_pos (.inr (.inr hguard))]
  rw [not_or, not_lt, not_lt] at hguard
  have hle : strip ≤ L.dst.body.length := by
    have hend := hguard.1
    rw [hstrip, ho.dstEnd, ho.dstBodyOff] at hend
    omega
  obtain ⟨grown, tail, hready⟩ := exists_ready hr ho mountTlv extraSeg mint reverseMint
  rw [routeFwdForward_eq hr ho hop hguard.2 hstrip hle hready]
  rw [rebuildOwn_reads hr ho] at hready
  rw [routeFwdForward_eq (reads_span _) ho hop hguard.2 hstrip hle hready]

end

end Sends

/-! ## A plain frame -/

/-- `out` is `L` a hop further: `left` is what remains of `dst`, `run` what `src` grew by. -/
structure Forwarded (L : Layout) (left run : Bytes) (out : Layout) : Prop where
  alone : out.extra = []
  op : out.op = L.op
  dst : out.dst.body = left
  sel : out.sel = L.sel
  src : out.src.body = run ++ L.src.body
  tail : out.tail = L.tail
  crc : out.root.opt.cr = false ∧ out.root.crc = []
  stamp : L.bodyEnd < kTsNarrow → out.root.ts = L.root.ts ∧ out.root.opt.ts = L.root.opt.ts ∧
    (L.root.opt.ts = true → out.root.opt.tf = L.root.opt.tf)
  unstamped : kTsNarrow ≤ L.bodyEnd → out.root.opt.ts = false ∧ out.root.ts = []
  formed : ∀ p, Formed p L.root.wire → Formed p out.bytes

section Plain

variable {p : CrcCheck} {grown : Bytes} {strip : Nat}

theorem formed_selWire_iff {sel : Option Cell} {rest : Bytes} : Formed p (selWire sel ++ rest) ↔
      (∀ c ∈ sel, (p = .VERIFY → c.Sealed) ∧ Formed p (if c.opt.pl then c.body else [])) ∧
        Formed p rest := by
  cases sel with
  | none => simp [selWire]
  | some c => simp [selWire, formed_cell_iff, and_assoc]

theorem formed_hop (h : Formed p L.root.wire) (hfit : (L.hopBody strip grown L.tail).length < 2 ^ 32) :
    Formed p (L.hop strip grown L.tail hfit).root.wire := by
  obtain ⟨-, hbody⟩ := formed_wire_iff.mp h
  rw [L.root_pl, if_pos rfl, L.body, formed_cell_iff, formed_cell_iff, formed_selWire_iff,
    formed_cell_iff] at hbody
  obtain ⟨hops, hop, -, -, hsel, -, -, htail⟩ := hbody
  refine formed_wire_iff.mpr ⟨fun _ => Cell.sealed_of_cr rfl, ?_⟩
  rw [(L.hop strip grown L.tail hfit).root_pl, if_pos rfl, (L.hop strip grown L.tail hfit).body]
  refine formed_cell_iff.mpr ⟨hops, hop, ?_⟩
  refine (formed_leaf_iff rfl rfl).mpr (formed_selWire_iff.mpr ⟨hsel, ?_⟩)
  exact (formed_leaf_iff rfl rfl).mpr htail

theorem forwarded_hop (hfit : (L.hopBody strip grown L.tail).length < 2 ^ 32) :
    L.Forwarded (L.dst.body.drop strip) grown (L.hop strip grown L.tail hfit) where
  alone := rfl
  op := rfl
  dst := rfl
  sel := rfl
  src := rfl
  tail := rfl
  crc := ⟨rfl, rfl⟩
  stamp := by
    intro hshort
    have hkeep : L.keepsTs = L.root.opt.ts := by
      rw [keepsTs, decide_eq_true hshort, Bool.and_true]
    cases hts : L.root.opt.ts with
    | false =>
      have hnil := L.root.ts_length
      rw [Opt.tsSize, hts] at hnil
      rw [length_eq_zero_iff.mp hnil]
      simp [hop, fwdCell, hopTs, fwdHeadOpt, hkeep, hts, withoutTrailer]
    | true => simp [hop, fwdCell, hopTs, fwdHeadOpt, hkeep, hts]
  unstamped := by
    intro hlong
    have hkeep : L.keepsTs = false := by
      rw [keepsTs, decide_eq_false (by omega), Bool.and_false]
    simp [hop, fwdCell, hopTs, fwdHeadOpt, hkeep, withoutTrailer]
  formed := by
    intro p h
    rw [bytes, show (L.hop strip grown L.tail hfit).extra = [] from rfl, append_nil]
    exact formed_hop h hfit

end Plain

end Layout

section Plain

variable {C : Type} [Cursor C] [LawfulCursor C] {cur : C} {bs : Bytes} {pre : FwdPre}

open LawfulCursor

/-- **A plain frame is rewritten as its layout says.**  What leaves the hop is a function of the
bytes, not of how they are stored.  It is one frame in which `dst` has lost exactly the records
stripped and `src` has gained the mount and the peer; everything else but the root's CRC, and the
stamp of a frame of two gigabytes, is as it came.  Frames with an operation to forward and a first
head of at most 64 bytes do leave. -/
theorem forward_rewrite (hr : Reads cur bs) (hpeek : peekFwdDstAny cur = (.PATH, pre))
    (hreply : maskedOp cur pre ≠ .REPLY)
    (hplain : ∀ s, locateFwdSrc cur pre = some s → relaysSubscribe cur pre s = false)
    (stripped : List PathRecord) (left : Bytes)
    (hdst : window bs pre.dstBodyOff (pre.dstEnd - pre.dstBodyOff) = wireOf stripped ++ left)
    (run : List PathRecord) (peer : Bytes) (hpeer : peer.length ≤ kPackedSegMaxBytes)
    (mint reverseMint : Option PathPair) :
    let strip := (wireOf stripped).length
    let pre' := { pre with stripAt := pre.dstBodyOff + strip }
    let grown := hopRun (wireOf run) peer
    let sent := routeFwdForward cur pre' (wireOf run) peer mint reverseMint
    sent = routeFwdForward (SpanCursor.mk bs) pre' (wireOf run) peer mint reverseMint ∧
    (∀ out, sent = some out → ∃ L : Layout, bs = L.bytes ∧ L.dst.body = wireOf stripped ++ left ∧
      ((L.hopBody strip grown L.tail).length < 2 ^ 32 →
        ∃ L' : Layout, out = L'.bytes ∧ L.Forwarded left grown L')) ∧
    ∀ L : Layout, bs = L.bytes → L.op.body ≠ [] → L.headLen strip grown L.tail ≤ kFwdHead1Cap →
      ∃ out, sent = some out := by
  intro strip pre' grown sent
  have hopens : ∀ {L : Layout}, bs = L.bytes → L.Opens pre := by
    intro L hbs
    subst hbs
    exact Layout.opens_of_peeked ((Layout.peekFwdDstAny_eq hr).symm.trans hpeek) (by simp)
  have hbody : ∀ {L : Layout}, bs = L.bytes → L.dst.body = wireOf stripped ++ left := by
    intro L hbs
    have ho := hopens hbs
    subst hbs
    rwa [ho.dstEnd, ho.dstBodyOff, Nat.add_sub_cancel_left, L.window_dst] at hdst
  -- a frame that is laid out goes out as its layout says
  have hsent : ∀ {L : Layout}, bs = L.bytes → L.op.body ≠ [] → sent =
      if L.headLen strip grown L.tail ≤ kFwdHead1Cap then some (L.hopBytes strip grown L.tail)
      else none := by
    intro L hbs hop
    have ho := hopens hbs
    have hle : strip ≤ L.dst.body.length := by
      rw [hbody hbs, length_append]
      omega
    subst hbs
    have hlocate := Layout.locateFwdSrc_eq hr ho.afterDst ho.bodyEnd
    exact Layout.routeFwdForward_plain hr ho hop hreply (hplain _ hlocate) hpeer hle
  cases hsrc : locateFwdSrc cur pre with
  | none =>
    have hspan : locateFwdSrc (SpanCursor.mk bs) pre' = none := by
      rw [← locateFwdSrc_reads hr]
      exact hsrc
    have hnone : sent = none := Layout.routeFwdForward_none hsrc
    refine ⟨hnone.trans (Layout.routeFwdForward_none hspan).symm, ?_, ?_⟩
    · intro out hout
      rw [hnone] at hout
      cases hout
    · intro L hbs hop hfits
      exact ⟨_, (hsent hbs hop).trans (if_pos hfits)⟩
  | some s =>
    obtain ⟨L, hbs⟩ := Layout.of_peek hr hpeek (by simp) hsrc
    refine ⟨?_, ?_, fun L hbs hop hfits => ⟨_, (hsent hbs hop).trans (if_pos hfits)⟩⟩
    · have ho := (hopens hbs).strip (pre.dstBodyOff + strip)
      subst hbs
      exact Layout.routeFwdForward_reads hr ho rfl
    intro out hout
    refine ⟨L, hbs, hbody hbs, fun hfit => ?_⟩
    have hop : L.op.body ≠ [] := by
      intro hop
      have hnone : sent = none :=
        Layout.routeFwdForward_empty ((hopens hbs).strip (pre.dstBodyOff + strip)) hop
      rw [hnone] at hout
      cases hout
    rw [hsent hbs hop] at hout
    split at hout
    swap
    · cases hout
    refine ⟨L.hop strip grown L.tail hfit, ?_, ?_⟩
    · rw [Layout.bytes_hop]
      exact (Option.some.inj hout).symm
    · have hleft : L.dst.body.drop strip = left := by
        rw [hbody hbs, drop_left]
      rw [← hleft]
      exact Layout.forwarded_hop hfit

/-- A `READ` of `/a/b:f`, sent by `/o` with a value behind it. -/
def readFrame : Bytes :=
  [0x0F, 0x40, 33, 0, 0x01, 0, 1, 0, 0x00, 0x06, 0, 4, 0, 1, 0x61, 1, 0x62, 0x10, 0x40, 5, 0, 0x02, 0, 1, 0,
    0x66, 0x06, 0, 2, 0, 1, 0x6F, 0x01, 0, 1, 0, 0x2A]

def readPre : FwdPre := (peekFwdDstAny (SpanCursor.mk readFrame)).2

theorem forward_rewrite_read :
    ∃ out, routeFwdForward (SpanCursor.mk readFrame) { readPre with stripAt := 15 } [1, 0x6D] []
        none none = some out ∧
      ∃ L : Layout, readFrame = L.bytes ∧ L.dst.body = [1, 0x61] ++ [1, 0x62] ∧
        ((L.hopBody 2 [1, 0x6D] L.tail).length < 2 ^ 32 →
          ∃ L' : Layout, out = L'.bytes ∧ L.Forwarded [1, 0x62] [1, 0x6D] L') := by
  refine ⟨[0x0F, 0x40, 33, 0, 0x01, 0, 1, 0, 0x00, 0x06, 0, 2, 0, 1, 0x62, 0x10, 0x40, 5, 0, 0x02, 0, 1, 0,
    0x66, 0x06, 0, 4, 0, 1, 0x6D, 1, 0x6F, 0x01, 0, 1, 0, 0x2A], by decide +kernel, ?_⟩
  have hpeek : peekFwdDstAny (SpanCursor.mk readFrame) = (.PATH, readPre) := by decide +kernel
  have hread : maskedOp (SpanCursor.mk readFrame) readPre = .READ := by decide +kernel
  exact (forward_rewrite (reads_span readFrame) hpeek (by rw [hread]; decide)
    (fun _ _ => by rw [relaysSubscribe, hread]; rfl) [.literal [0x61] (by simp) (by decide)]
    [1, 0x62] (by decide +kernel) [.literal [0x6D] (by simp) (by decide)] [] (by decide) none
    none).2.1 _ (by decide +kernel)

/-- What `stampedLayout` carries behind `src`. -/
def bulkCell (fill : Bytes) (h : fill.length + 64 < 2 ^ 32) : Cell :=
  leafCell VALUE fill (by decide) (by decide) (by omega)

def stampedBody (fill : Bytes) (h : fill.length + 64 < 2 ^ 32) : Bytes :=
  (leaf VALUE [0] (Eq.refl true)).wire ++ ((leaf PATH [1, 0x61, 1, 0x62] (Eq.refl true)).wire ++
    (selWire none ++ ((leaf PATH [] (Eq.refl true)).wire ++ (bulkCell fill h).wire)))

theorem length_stampedBody (fill : Bytes) (h : fill.length + 64 < 2 ^ 32) :
    fill.length ≤ (stampedBody fill h).length ∧ (stampedBody fill h).length ≤ fill.length + 23 := by
  have hwide := header_routeOpt_le fill.length
  have hlen : (stampedBody fill h).length = 17 + ((routeOpt fill.length).header + fill.length) := by
    simp only [stampedBody, bulkCell, leaf, wire_leafCell, selWire, length_append,
      length_tlvHead, Option.map_none, Option.getD_none, length_cons, length_nil]
    simp [routeOpt, Opt.header]
    omega
  omega

/-- A stamped `READ` of `/a/b` with a child of any size. -/
def stampedLayout (fill : Bytes) (h : fill.length + 64 < 2 ^ 32) : Layout where
  root := fwdCell (stampedBody fill h) { ts := true } (List.replicate 8 0)
    (Nat.lt_of_le_of_lt (length_stampedBody fill h).2 (Nat.lt_of_le_of_lt (by omega) h)) rfl
  op := leaf VALUE [0] (Eq.refl true)
  dst := leaf PATH [1, 0x61, 1, 0x62] (Eq.refl true)
  sel := none
  src := leaf PATH [] (Eq.refl true)
  tail := (bulkCell fill h).wire
  extra := []
  root_type := rfl
  root_pl := rfl
  op_type := rfl
  dst_type := rfl
  dst_pl := rfl
  sel_type := no_sel
  src_type := rfl
  body := rfl

/-- **A stamp lost on the way**: a well-formed stamped `READ` whose body ends at two gigabytes or
later leaves the hop without its stamp. -/
theorem stamp_lost : ∃ (L L' : Layout) (pre : FwdPre), Formed .VERIFY L.bytes ∧
    peekFwdDstAny (SpanCursor.mk L.bytes) = (.PATH, pre) ∧ maskedOp (SpanCursor.mk L.bytes) pre = .READ ∧
    routeFwdForward (SpanCursor.mk L.bytes) { pre with stripAt := pre.dstBodyOff + 2 } [1, 0x6D] []
      none none = some L'.bytes ∧
    L.root.opt.ts = true ∧ L'.root.opt.ts = false := by
  obtain ⟨fill, hfill⟩ : ∃ fill : Bytes, fill.length = 2 ^ 31 :=
    ⟨List.replicate (2 ^ 31) 0, length_replicate⟩
  have h : fill.length + 64 < 2 ^ 32 := by omega
  have hlen := length_stampedBody fill h
  have hformed : Formed .VERIFY (stampedLayout fill h).bytes := by
    rw [Layout.bytes, show (stampedLayout fill h).extra = [] from rfl, append_nil]
    refine formed_wire_iff.mpr ⟨fun _ => Cell.sealed_of_cr rfl, ?_⟩
    refine (formed_leaf_iff rfl rfl).mpr ((formed_leaf_iff rfl rfl).mpr ?_)
    refine (formed_leaf_iff rfl rfl).mpr ?_
    rw [← append_nil (bulkCell fill h).wire]
    exact (formed_leaf_iff rfl rfl).mpr (formed_nil _)
  obtain ⟨pre, hpeek⟩ : ∃ pre, (stampedLayout fill h).peeked = (.PATH, pre) := ⟨_, rfl⟩
  have hroot : (stampedLayout fill h).root.body.length = (stampedBody fill h).length := rfl
  have hop : (stampedLayout fill h).op.wire.length = 5 := rfl
  have hread : (stampedLayout fill h).opcode = .READ := by
    show FwdOp.ofByte (0 &&& kFwdOpcodeMask) = _
    decide
  have hopne : (stampedLayout fill h).op.body ≠ [] := cons_ne_nil _ _
  have hdst : (stampedLayout fill h).dst.body.length = 4 := rfl
  have hts : (stampedLayout fill h).root.opt.ts = true := rfl
  generalize stampedLayout fill h = L at *
  have ho : L.Opens pre := Layout.opens_of_peeked hpeek (by simp)
  have hmasked := (Layout.maskedOp_eq (reads_span L.bytes) ho hopne).trans hread
  have hplain : relaysSubscribe (SpanCursor.mk L.bytes) pre L.located = false := by
    rw [relaysSubscribe, hmasked]
    rfl
  have hfit : (L.hopBody 2 (hopRun [1, 0x6D] []) L.tail).length < 2 ^ 32 := by
    have := L.length_hopBody_le 2 (hopRun [1, 0x6D] []) L.tail
    have hrun : (hopRun [1, 0x6D] []).length = 2 := rfl
    omega
  have hhead : L.headLen 2 (hopRun [1, 0x6D] []) L.tail ≤ kFwdHead1Cap := by
    have := L.headLen_le 2 (hopRun [1, 0x6D] []) L.tail
    rw [kFwdHead1Cap]
    omega
  refine ⟨L, L.hop 2 (hopRun [1, 0x6D] []) L.tail hfit, pre, hformed,
    (Layout.peekFwdDstAny_eq (reads_span _)).trans hpeek, hmasked, ?_, hts, ?_⟩
  · rw [Layout.bytes_hop, Layout.routeFwdForward_plain (reads_span _) ho hopne (by simp [hmasked])
      hplain (by simp) (by omega), if_pos hhead]
  · refine ((Layout.forwarded_hop hfit).unstamped ?_).1
    rw [Layout.bodyEnd, kTsNarrow]
    omega

end Plain

end LibTracer.Net
