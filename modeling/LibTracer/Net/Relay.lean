import LibTracer.Net.Forward

/-!
# A relayed subscribe (`rebuild_request_reverse`)

A subscribe request collects the way back to its origin: each hop puts its element in front of the
body of the reverse child, and creates the child from the request's `src` where there is none.  The
child is found by its type wherever it stands behind `src`, but it is written back at the end.

* **`relay_subscribe`** — exactly when the other children are kept and the reverse body grows.
-/

namespace LibTracer.Net

open Window List Wire Wire.Grammar
open Crc (Bytes)
open LibTracer.Graph (VALUE)
open LibTracer.Graph.State (PATH)

/-! ## Children -/

def isReverse (c : Cell) : Bool := c.type == PATH_REF_REVERSE

def others (cs : List Cell) : List Cell := cs.filter (!isReverse ·)

def reverses (cs : List Cell) : List Bytes := (cs.filter isReverse).map Cell.body

@[simp] theorem others_append (cs ds : List Cell) : others (cs ++ ds) = others cs ++ others ds :=
  filter_append ..

@[simp] theorem reverses_append (cs ds : List Cell) :
    reverses (cs ++ ds) = reverses cs ++ reverses ds := by
  simp [reverses]

variable {cs : List Cell}

theorem others_eq_self (h : ∀ c ∈ cs, isReverse c = false) : others cs = cs := by
  rw [others, filter_eq_self]
  intro c hc
  rw [h c hc]
  rfl

theorem reverses_eq_nil (h : ∀ c ∈ cs, isReverse c = false) : reverses cs = [] := by
  rw [reverses, map_eq_nil_iff, filter_eq_nil_iff]
  intro c hc
  rw [h c hc]
  simp

variable {c : Cell}

theorem reverses_singleton (h : isReverse c = true) : reverses [c] = [c.body] := by
  simp [reverses, h]

theorem others_singleton (h : isReverse c = true) : others [c] = [] := by
  simp [others, h]

theorem last_reverse (cs : List Cell) :
    (∀ c ∈ cs, isReverse c = false) ∨ ∃ before r after, cs = before ++ r :: after ∧
      isReverse r = true ∧ ∀ c ∈ after, isReverse c = false := by
  induction cs with
  | nil => exact .inl (by simp)
  | cons c cs ih =>
    rcases ih with hnone | ⟨before, r, after, rfl, hr, hafter⟩
    · cases hc : isReverse c with
      | true => exact .inr ⟨[], c, cs, rfl, hc, hnone⟩
      | false => exact .inl (forall_mem_cons.mpr ⟨hc, hnone⟩)
    · exact .inr ⟨c :: before, r, after, rfl, hr, hafter⟩

/-! ## The scan -/

def scan (pos : Nat) (found : Option TrailingReverse) : List Cell → Option TrailingReverse
  | [] => found
  | c :: cs =>
    scan (pos + c.wire.length)
      (if isReverse c then some ⟨pos, pos + c.opt.header, c.body.length⟩ else found) cs

theorem scan_append (pos : Nat) (found : Option TrailingReverse) (cs ds : List Cell) :
    scan pos found (cs ++ ds) = scan (pos + (wires cs).length) (scan pos found cs) ds := by
  induction cs generalizing pos found with
  | nil => rfl
  | cons c cs ih =>
    rw [cons_append, scan, ih, scan, wires_cons, length_append, Nat.add_assoc]

theorem scan_eq_found (h : ∀ c ∈ cs, isReverse c = false) (pos : Nat)
    (found : Option TrailingReverse) : scan pos found cs = found := by
  induction cs generalizing pos with
  | nil => rfl
  | cons c cs ih =>
    rw [forall_mem_cons] at h
    rw [scan, h.1]
    exact ih h.2 _

section Scan

variable {C : Type} [Cursor C] [LawfulCursor C] {cur : C} {bs : Bytes}

open LawfulCursor

theorem peekTrailingReverseTo_eq (hr : Reads cur bs) (cs : List Cell) {front rest : Bytes}
    (hbs : bs = front ++ (wires cs ++ rest)) {stop fuel : Nat}
    (hstop : stop = front.length + (wires cs).length) (hfuel : (wires cs).length ≤ fuel)
    (found : Option TrailingReverse) :
    peekTrailingReverseTo cur stop fuel front.length found = scan front.length found cs := by
  induction cs generalizing front fuel found with
  | nil =>
    have hend : ¬front.length < stop := by
      rw [hstop]
      simp
    cases fuel with
    | zero => rfl
    | succ fuel => rw [peekTrailingReverseTo, if_neg hend, scan]
  | cons c cs ih =>
    have hwire := c.length_body_lt
    rw [wires_cons, length_append] at hstop hfuel
    obtain ⟨fuel, rfl⟩ : ∃ m, fuel = m + 1 := ⟨fuel - 1, by omega⟩
    have hhead : readFwdHeader cur front.length = some (.ofCell front.length c) := by
      refine readFwdHeader_at hr front (wires cs ++ rest) ?_ rfl
      rw [hbs, wires_cons, append_assoc]
    have hnext : bs = (front ++ c.wire) ++ (wires cs ++ rest) := by
      rw [hbs, wires_cons]
      simp only [append_assoc]
    have htotal : (FwdHdr.ofCell front.length c).total = c.wire.length := rfl
    rw [peekTrailingReverseTo, if_pos (by omega), hhead]
    dsimp only
    rw [if_neg (by rw [htotal]; omega), htotal, ← length_append,
      ih hnext (by rw [length_append]; omega) (by omega), scan, length_append]
    congr 1
    simp only [isReverse, beq_iff_eq]
    rfl

variable {L : Layout} {cs : List Cell}

/-- **The scan of a well-formed tail** is the scan of its children. -/
theorem peekTrailingReverse_eq (hr : Reads cur L.bytes) (htail : L.tail = wires cs) :
    peekTrailingReverse cur L.tailPos L.bodyEnd = scan L.tailPos none cs := by
  have hend := L.tailPos_add
  have hbs : L.bytes = (L.root.head ++ (L.op.wire ++ (L.dst.wire ++ (selWire L.sel ++ L.src.wire)))) ++
      (wires cs ++ L.rest) := by
    rw [L.bytes_eq, htail]
    simp only [append_assoc]
  have hpos : (L.root.head ++ (L.op.wire ++ (L.dst.wire ++ (selWire L.sel ++ L.src.wire)))).length =
      L.tailPos := by
    simp only [length_append, Cell.length_head, Layout.tailPos, Layout.srcPos, Layout.afterDst,
      Layout.dstPos, Layout.opPos, Nat.add_assoc]
  rw [htail] at hend
  rw [peekTrailingReverse, ← hpos]
  exact peekTrailingReverseTo_eq hr cs hbs (by omega) (by omega) none

end Scan

/-! ## What the relay keeps -/

/-- The children of a relayed subscribe: the others as they came, and the last way back, or `seed` if
there was none, behind the hop's `element`. -/
structure Kept (cs cs' : List Cell) (element seed : Bytes) : Prop where
  others : others cs' = others cs
  reverses : reverses cs' = (reverses cs).dropLast ++ [element ++ (reverses cs).getLastD seed]

def ReverseLast (cs : List Cell) : Prop :=
  (∃ c ∈ cs, isReverse c = true) → ∃ c ∈ cs.getLast?, isReverse c = true

def wayBack (cs : List Cell) (seed : Bytes) : Bytes := (reverses cs).getLastD seed

def reverseCell (body : Bytes) (h : ¬body.length > 0xFFFF) : Cell :=
  leafCell PATH_REF_REVERSE body (by decide) (by decide) (by omega)

theorem wires_reverseCell {body : Bytes} (h : ¬body.length > 0xFFFF) :
    wires [reverseCell body h] = reverseWire body := by
  rw [wires_cons, wires_nil, append_nil, reverseCell, wire_leafCell, reverseWire, if_neg h]

theorem kept_of_none (h : ∀ c ∈ cs, isReverse c = false) (element seed : Bytes) :
    ∃ cs', wires cs' = wires cs ++ reverseWire (element ++ seed) ∧ (Kept cs cs' element seed ↔
        ReverseLast cs ∧ (element ++ wayBack cs seed).length ≤ 0xFFFF) := by
  have hback : wayBack cs seed = seed := by rw [wayBack, reverses_eq_nil h]; rfl
  have hlast : ReverseLast cs := by
    intro ⟨c, hc, hrev⟩
    rw [h c hc] at hrev
    cases hrev
  rw [hback]
  by_cases hbig : (element ++ seed).length > 0xFFFF
  · refine ⟨cs, by rw [reverseWire, if_pos hbig, append_nil], ?_⟩
    refine iff_of_false (fun hkept => ?_) (fun hall => by omega)
    have hrev := hkept.reverses
    rw [reverses_eq_nil h] at hrev
    cases hrev
  · refine ⟨cs ++ [reverseCell _ hbig], by rw [wires_append, wires_reverseCell], ?_⟩
    refine iff_of_true ⟨?_, ?_⟩ ⟨hlast, by omega⟩
    · rw [others_append, others_singleton rfl, append_nil]
    · rw [reverses_append, reverses_eq_nil h, reverses_singleton rfl]
      rfl

theorem kept_of_last {before after : List Cell} {r : Cell} (hr : isReverse r = true)
    (hafter : ∀ c ∈ after, isReverse c = false) (element seed : Bytes) :
    ∃ cs', wires cs' = wires before ++ reverseWire (element ++ r.body) ∧
      (Kept (before ++ r :: after) cs' element seed ↔ ReverseLast (before ++ r :: after) ∧
        (element ++ wayBack (before ++ r :: after) seed).length ≤ 0xFFFF) := by
  have hreverses : reverses (before ++ r :: after) = reverses before ++ [r.body] := by
    rw [← singleton_append, reverses_append, reverses_append, reverses_singleton hr,
      reverses_eq_nil hafter, append_nil]
  have hothers : others (before ++ r :: after) = others before ++ after := by
    rw [← singleton_append, others_append, others_append, others_singleton hr,
      others_eq_self hafter, nil_append]
  have hback : wayBack (before ++ r :: after) seed = r.body := by
    rw [wayBack, hreverses, getLastD_concat]
  have hlast : ReverseLast (before ++ r :: after) ↔ after = [] := by
    constructor
    · intro hl
      obtain ⟨c, hc, hrev⟩ := hl ⟨r, by simp, hr⟩
      rcases eq_nil_or_concat after with hnil | ⟨init, last, rfl⟩
      · exact hnil
      rw [concat_eq_append, ← cons_append, ← append_assoc, getLast?_concat] at hc
      obtain rfl := Option.some.inj hc
      rw [hafter last (by simp)] at hrev
      cases hrev
    · intro hnil _
      subst hnil
      exact ⟨r, by rw [getLast?_concat]; rfl, hr⟩
  rw [hback, hlast]
  by_cases hbig : (element ++ r.body).length > 0xFFFF
  · refine ⟨before, by rw [reverseWire, if_pos hbig, append_nil], ?_⟩
    refine iff_of_false (fun hkept => ?_) (fun hall => by omega)
    have hlen := congrArg List.length hkept.reverses
    rw [hreverses, dropLast_concat, length_append] at hlen
    simp at hlen
  refine ⟨before ++ [reverseCell _ hbig], by rw [wires_append, wires_reverseCell], ?_⟩
  constructor
  · intro hkept
    have hsame := hkept.others
    rw [others_append, others_singleton rfl, hothers, append_cancel_left_eq] at hsame
    exact ⟨hsame.symm, by omega⟩
  · intro ⟨hnil, _⟩
    refine ⟨?_, ?_⟩
    · rw [hothers, hnil, others_append, others_singleton rfl]
    · rw [hreverses, reverses_append, reverses_singleton rfl, dropLast_concat, getLastD_concat]
      rfl

/-! ## The relay -/

section Relay

variable {C : Type} [Cursor C] [LawfulCursor C] {cur : C} {bs : Bytes} {pre : FwdPre} {L : Layout}
  {cs : List Cell} {mountTlv extraSeg : Bytes} {mint reverseMint : Option PathPair} {strip : Nat}

open LawfulCursor

theorem relayed_tail (hr : Reads cur L.bytes) (htail : L.tail = wires cs) (element : Bytes) :
    ∃ cs', wires cs' = L.keptTail (peekTrailingReverse cur L.tailPos L.bodyEnd) ++
        reverseWire (element ++ L.inboundReverse (peekTrailingReverse cur L.tailPos L.bodyEnd)) ∧
      (Kept cs cs' element L.src.body ↔
        ReverseLast cs ∧ (element ++ wayBack cs L.src.body).length ≤ 0xFFFF) := by
  rw [peekTrailingReverse_eq hr htail]
  rcases last_reverse cs with hnone | ⟨before, r, after, rfl, hrev, hafter⟩
  · rw [scan_eq_found hnone, Layout.keptTail, Layout.inboundReverse, htail]
    exact kept_of_none hnone element L.src.body
  rw [scan_append, scan, hrev, if_pos rfl, scan_eq_found hafter]
  have hkept : L.keptTail (some ⟨L.tailPos + (wires before).length,
      L.tailPos + (wires before).length + r.opt.header, r.body.length⟩) = wires before := by
    rw [Layout.keptTail, htail, Nat.add_sub_cancel_left, wires_append, take_left]
  have hbody : L.inboundReverse (some ⟨L.tailPos + (wires before).length,
      L.tailPos + (wires before).length + r.opt.header, r.body.length⟩) = r.body := by
    refine Layout.window_cut (L.root.head ++ (L.op.wire ++ (L.dst.wire ++ (selWire L.sel ++
      (L.src.wire ++ (wires before ++ r.head)))))) (r.ts ++ (r.crc ++ (wires after ++ L.rest)))
      ?_ ?_ rfl
    · have hwire : r.wire = r.head ++ (r.body ++ (r.ts ++ r.crc)) := rfl
      rw [L.bytes_eq, htail, wires_append, wires_cons, hwire]
      simp only [append_assoc]
    · simp only [length_append, Cell.length_head, Layout.tailPos, Layout.srcPos,
        Layout.afterDst, Layout.dstPos, Layout.opPos, Nat.add_assoc]
  rw [hkept, hbody]
  exact kept_of_last hrev hafter element L.src.body

theorem routeFwdForward_subscribe (hr : Reads cur L.bytes) (ho : L.Opens pre)
    (hop : L.op.body ≠ []) (hsub : relaysSubscribe cur pre L.located = true)
    (hseg : extraSeg.length ≤ kPackedSegMaxBytes) (hle : strip ≤ L.dst.body.length) {tail : Bytes}
    (htail : tail = L.keptTail (peekTrailingReverse cur L.tailPos L.bodyEnd) ++
      reverseWire (hopElement reverseMint (hopRun mountTlv extraSeg) ++
        L.inboundReverse (peekTrailingReverse cur L.tailPos L.bodyEnd))) :
    routeFwdForward cur { pre with stripAt := pre.dstBodyOff + strip } mountTlv extraSeg mint
      reverseMint =
      if L.headLen strip (hopRun mountTlv extraSeg) tail ≤ kFwdHead1Cap then
        some (L.hopBytes strip (hopRun mountTlv extraSeg) tail)
      else none := by
  have ho' := ho.strip (pre.dstBodyOff + strip)
  have hwrite : maskedOp cur pre = .WRITE := by
    simp only [relaysSubscribe, Bool.and_eq_true, beq_iff_eq] at hsub
    exact hsub.1.1
  have hown : ∀ r, rebuildOwn cur { pre with stripAt := pre.dstBodyOff + strip } L.located mint
      reverseMint r = headReverse reverseMint
        (cutReverse (peekTrailingReverse cur L.tailPos L.bodyEnd) L.tailPos
          (L.srcPos + L.src.opt.header) L.src.body.length r) := by
    intro r
    have hrelay : rebuildOwn cur pre L.located mint reverseMint r =
        rebuildRequestReverse cur L.tailPos pre.bodyEnd (L.srcPos + L.src.opt.header)
          L.src.body.length reverseMint r := by
      rw [rebuildOwn, if_neg (by rw [hwrite]; simp), if_pos hsub]
      rfl
    rw [ho.bodyEnd] at hrelay
    exact hrelay
  refine Layout.routeFwdForward_eq hr ho' hop hseg rfl hle ?_
  rw [hown, htail]
  exact Layout.ready_reverse ho' mountTlv extraSeg reverseMint (Layout.inTail_peek hr)

/-- **A relayed subscribe keeps the request exactly when nothing follows its reverse child and the
way back still fits 16 bits.**  `cs` and `cs'` are the children behind `src` as they came and as they
leave, and the bytes are those of no others; operation and selector are as they came. -/
theorem relay_subscribe {p : CrcCheck} (hr : Reads cur bs) (hformed : Formed p bs)
    (hpeek : peekFwdDstAny cur = (.PATH, pre)) {s : FwdSrc} (hsrc : locateFwdSrc cur pre = some s)
    (hsub : relaysSubscribe cur pre s = true) (hseg : extraSeg.length ≤ kPackedSegMaxBytes)
    (hstrip : strip ≤ pre.dstEnd - pre.dstBodyOff) {out : Bytes}
    (hsent : routeFwdForward cur { pre with stripAt := pre.dstBodyOff + strip } mountTlv extraSeg
      mint reverseMint = some out) :
    ∃ (L : Layout) (cs cs' : List Cell), bs = L.bytes ∧ L.tail = wires cs ∧
      out = L.hopBytes strip (hopRun mountTlv extraSeg) (wires cs') ∧
      (∀ ds, (wires ds = wires cs → ds = cs) ∧ (wires ds = wires cs' → ds = cs')) ∧
      (Kept cs cs' (hopElement reverseMint (hopRun mountTlv extraSeg)) L.src.body ↔
        ReverseLast cs ∧
          (hopElement reverseMint (hopRun mountTlv extraSeg) ++ wayBack cs L.src.body).length ≤
            0xFFFF) := by
  obtain ⟨L, rfl⟩ := Layout.of_peek hr hpeek (by simp) hsrc
  have ho : L.Opens pre :=
    Layout.opens_of_peeked ((Layout.peekFwdDstAny_eq hr).symm.trans hpeek) (by simp)
  rw [Layout.locateFwdSrc_eq hr ho.afterDst ho.bodyEnd] at hsrc
  cases hsrc
  obtain ⟨cs, hcs⟩ : ∃ cs, L.tail = wires cs := by
    have hbody := (formed_cell_iff.mp hformed).2.1
    rw [L.root_pl, if_pos rfl, L.body, formed_cell_iff, formed_cell_iff, Layout.formed_selWire_iff,
      formed_cell_iff] at hbody
    exact exists_wires hbody.2.2.2.2.2.2.2
  have hop : L.op.body ≠ [] := by
    intro hop
    rw [Layout.routeFwdForward_empty (ho.strip _) hop] at hsent
    cases hsent
  have hle : strip ≤ L.dst.body.length := by
    rw [ho.dstEnd, ho.dstBodyOff] at hstrip
    omega
  obtain ⟨cs', htail, hkept⟩ :=
    relayed_tail hr hcs (hopElement reverseMint (hopRun mountTlv extraSeg))
  rw [routeFwdForward_subscribe hr ho hop hsub hseg hle htail] at hsent
  split at hsent
  · exact ⟨L, cs, cs', rfl, hcs, (Option.some.inj hsent).symm, fun _ => ⟨wires_inj, wires_inj⟩, hkept⟩
  · cases hsent

/-- The children of a subscribe of `/a/b` from `/o`: behind `src` the subscription, the way back
`/x`, and one child more. -/
def subscribeKids : List Cell :=
  [leaf VALUE [1] (Eq.refl true), leaf PATH [1, 0x61, 1, 0x62] (Eq.refl true),
    leaf FIELD [] (Eq.refl true),
    leaf PATH [1, 0x6F] (Eq.refl true),
    leaf SUBSCRIBER [] (Eq.refl true),
    leaf PATH_REF_REVERSE [1, 0x78] (Eq.refl true),
    leaf VALUE [7] (Eq.refl true)]

def subscribeFrame : Bytes := [0x0F, 0x40, 38, 0] ++ wires subscribeKids

def subscribePre : FwdPre := (peekFwdDstAny (SpanCursor.mk subscribeFrame)).2

def subscribeSrc : FwdSrc where
  selPos := 17
  selTotal := 4
  pos := 21
  hdr := .ofCell 21 (leaf PATH [1, 0x6F] (Eq.refl true))

theorem formed_subscribeFrame : Formed .VERIFY subscribeFrame := by
  have hroot : ∃ root : Cell, root.wire = subscribeFrame ∧ root.opt = { pl := true } ∧
      root.body = wires subscribeKids :=
    ⟨⟨FWD, { pl := true }, wires subscribeKids, [], [], by decide, by decide, by decide, rfl, rfl⟩,
      by decide +kernel, rfl, rfl⟩
  obtain ⟨root, hwire, hopt, hbody⟩ := hroot
  rw [← hwire]
  refine formed_wire_iff.mpr ⟨fun _ => Cell.sealed_of_cr (by rw [hopt]), ?_⟩
  rw [hopt, if_pos rfl, hbody]
  exact ⟨_, parses_leaves (by decide +kernel)⟩

/-- What leaves the hop mounted at `/m`: the child behind the way back is missing. -/
def relayedFrame : Bytes :=
  [0x0F, 0x40, 35, 0, 1, 0, 1, 0, 1, 6, 0, 2, 0, 1, 0x62, 0x10, 0, 0, 0, 6, 0, 4, 0, 1, 0x6D, 1,
    0x6F, 4, 0, 0, 0, 0x15, 0, 4, 0, 1, 0x6D, 1, 0x78]

theorem relay_subscribe_trailing :
    ∃ (L : Layout) (cs cs' : List Cell), subscribeFrame = L.bytes ∧ L.tail = wires cs ∧
      relayedFrame = L.hopBytes 2 (hopRun [1, 0x6D] []) (wires cs') ∧
      (Kept cs cs' (hopElement none (hopRun [1, 0x6D] [])) L.src.body ↔ ReverseLast cs ∧
        (hopElement none (hopRun [1, 0x6D] []) ++ wayBack cs L.src.body).length ≤ 0xFFFF) := by
  have hpeek : peekFwdDstAny (SpanCursor.mk subscribeFrame) = (.PATH, subscribePre) := by
    decide +kernel
  have hsrc : locateFwdSrc (SpanCursor.mk subscribeFrame) subscribePre = some subscribeSrc := by
    decide +kernel
  have hsub : relaysSubscribe (SpanCursor.mk subscribeFrame) subscribePre subscribeSrc = true := by
    decide +kernel
  have hsent : routeFwdForward (SpanCursor.mk subscribeFrame)
      { subscribePre with stripAt := subscribePre.dstBodyOff + 2 } [1, 0x6D] [] none none =
      some relayedFrame := by decide +kernel
  obtain ⟨L, cs, cs', hL, hcs, hout, -, hkept⟩ := relay_subscribe (reads_span subscribeFrame)
    formed_subscribeFrame hpeek hsrc hsub (by decide) (by decide +kernel) hsent
  exact ⟨L, cs, cs', hL, hcs, hout, hkept⟩

/-- **A child lost**: the hop finds the reverse child and does not write back what follows it. -/
theorem trailing_child_lost : Formed .VERIFY subscribeFrame ∧
      peekFwdDstAny (SpanCursor.mk subscribeFrame) = (.PATH, subscribePre) ∧
      locateFwdSrc (SpanCursor.mk subscribeFrame) subscribePre = some subscribeSrc ∧
      relaysSubscribe (SpanCursor.mk subscribeFrame) subscribePre subscribeSrc = true ∧
      routeFwdForward (SpanCursor.mk subscribeFrame)
        { subscribePre with stripAt := subscribePre.dstBodyOff + 2 } [1, 0x6D] [] none none =
        some relayedFrame ∧
      [1, 0, 1, 0, 7] <:+ subscribeFrame ∧ ¬[1, 0, 1, 0, 7] <:+: relayedFrame := by
  refine ⟨formed_subscribeFrame, ?_⟩
  decide +kernel

end Relay

end LibTracer.Net
