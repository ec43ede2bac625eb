import LibTracer.Wire.Rope
import LibTracer.Wire.RoundTrip

/-!
# The lazy view of a frame in a rope (`tlv_view.hpp`, `tlv_view.cpp`)

`TlvView` adopts a rope with only its root header checked, CRC deferred. Children are yielded one
header at a time from an anchor stepped over each child in turn, and `verify` checks one node's
CRC on demand.

* `sweep_iff_over` : a full sweep meets no error exactly when the eager decode accepts, and the
  two present the same tree.
-/

namespace LibTracer.Wire

open Window Grammar List
open Crc (Bytes)

/-! ## The view and its iterator -/

/-- `subrope_at`: a sub-range carved from a known anchor. -/
def subropeAt (links : List View) (li intra len : Nat) : Rope :=
  ⟨Chain.gather View.subview (links.drop li) intra len⟩

structure TlvView where
  wire : Rope
  hdr : Header

structure Children where
  body : Rope
  pos : Nat := 0
  len : Nat
  li : Nat := 0
  intra : Nat := 0
  poisoned : Option Err := none

/-- `children_t::next`: the next child, `none` at the end of the region, or its error. -/
def Children.next (it : Children) : Except Err (Option TlvView) × Children :=
  match it.poisoned with
  | some e => (.error e, it)
  | none =>
    if it.pos = it.len then (.ok none, it)
    else
      let links := it.body.links
      match parseHeader (RopeCursor.resumeAt links it.li it.intra (it.len - it.pos)) .DEFER with
      | .error e => (.error e, { it with poisoned := some e })
      | .ok h =>
        let child : TlvView := ⟨subropeAt links it.li it.intra h.total, h⟩
        let (li, intra) := Chain.seek links it.li (it.intra + h.total)
        (.ok (some child), { it with pos := it.pos + h.total, li, intra })

namespace TlvView

/-- `tlv_view_t::over`: the root's bounds, CRC deferred. -/
def overRope (frame : Rope) : Except Err TlvView :=
  if !frame.allHost then .error .FRAME_INVALID
  else
    match parseHeader (RopeCursor.ofRope frame) .DEFER with
    | .error e => .error e
    | .ok h => if h.total ≠ frame.totalLength then .error .FRAME_INVALID else .ok ⟨frame, h⟩

def structured (v : TlvView) : Bool := v.hdr.opt.pl

/-- `body`: payload or children region, as a sub-range of the wire bytes. -/
def body (v : TlvView) : Rope := v.wire.subrope v.hdr.header v.hdr.length

/-- `children`: an empty range for an opaque TLV. -/
def children (v : TlvView) : Children :=
  let body := if v.structured then v.body else {}
  { body, len := body.totalLength }

/-- `verify`: this TLV's CRC trailer, by the header parse that was deferred. -/
def verify (v : TlvView) : Except Err Unit :=
  if !v.hdr.opt.cr then .ok ()
  else
    match parseHeader (RopeCursor.ofRope v.wire) .VERIFY with
    | .error e => .error e
    | .ok _ => .ok ()

/-- `timestamp`: a stitched read of the trailer. -/
def timestamp (v : TlvView) : Option Timestamp :=
  if !v.hdr.opt.ts then none
  else
    let cur := RopeCursor.ofRope v.wire
    let off := v.hdr.header + v.hdr.length
    if v.hdr.opt.tf then
      some ⟨v.hdr.opt.tf, (BitVec.ofNat 32 (cur.loadLe off 4)).signExtend 64⟩
    else some ⟨v.hdr.opt.tf, BitVec.ofNat 64 (cur.loadLe off 8)⟩

mutual

/-- A complete sweep of one node: verify it, then its children to the end. `none` is a sweep cut
    off by `fuel`. -/
def sweep : Nat → TlvView → Option (Except Err Tlv)
  | 0, _ => none
  | fuel + 1, v =>
    match v.verify with
    | .error e => some (.error e)
    | .ok () =>
      match sweepChildren fuel v.children with
      | none => none
      | some (.error e) => some (.error e)
      | some (.ok kids) =>
        some (.ok (.mk v.hdr.type v.hdr.opt (if v.structured then [] else v.body.bytes) kids
          (v.timestamp.map fun ts => { ts := some ts })))

def sweepChildren : Nat → Children → Option (Except Err (List Tlv))
  | 0, _ => none
  | fuel + 1, it =>
    match it.next with
    | (.error e, _) => some (.error e)
    | (.ok none, _) => some (.ok [])
    | (.ok (some child), it) =>
      match sweep fuel child with
      | none => none
      | some (.error e) => some (.error e)
      | some (.ok t) =>
        match sweepChildren fuel it with
        | none => none
        | some (.error e) => some (.error e)
        | some (.ok ts) => some (.ok (t :: ts))

end

def sweepRope (fuel : Nat) (r : Rope) : Option (Except Err Tlv) :=
  match overRope r with
  | .error e => some (.error e)
  | .ok v => sweep fuel v

end TlvView

/-! ## What a view shows -/

/-- A view over the bytes of a cell, with that cell's header. -/
structure TlvView.Shows (v : TlvView) (c : Cell) : Prop where
  wire : v.wire.bytes = c.wire
  hdr : v.hdr = c.header

namespace TlvView.Shows

variable {v : TlvView} {c : Cell} (h : v.Shows c)
include h

theorem body_bytes : v.body.bytes = c.body := by
  have hbody := c.window_body []
  rw [append_nil] at hbody
  rw [TlvView.body, Rope.bytes_subrope, h.wire, h.hdr]
  exact hbody

theorem verify_eq : v.verify = .ok () ∧ c.Sealed ∨ (∃ e, v.verify = .error e) ∧ ¬c.Sealed := by
  have hopt : v.hdr.opt = c.opt := by rw [h.hdr]; rfl
  have hparse : parseHeader (RopeCursor.ofRope v.wire) .VERIFY = readHeader c.wire .VERIFY := by
    rw [parseHeader_reads (reads_rope v.wire), h.wire]
  have hread := c.readHeader_wire_eq [] .VERIFY
  rw [append_nil] at hread
  rw [TlvView.verify, hopt, hparse]
  by_cases hs : c.Sealed
  · refine .inl ⟨?_, hs⟩
    rw [if_neg fun h => h.2 hs] at hread
    rw [hread]
    cases c.opt.cr <;> rfl
  refine .inr ⟨⟨.FRAME_CRC_FAIL, ?_⟩, hs⟩
  rw [if_pos ⟨rfl, hs⟩] at hread
  have hcr : c.opt.cr = true := by
    by_contra hcr
    exact hs (Cell.sealed_of_cr (by simpa using hcr))
  rw [hcr, hread]
  rfl

theorem timestamp_eq :
    v.timestamp = if c.opt.ts then some ⟨c.opt.tf, loadStamp c.opt.tf c.ts⟩ else none := by
  have hts := c.window_ts []
  rw [append_nil] at hts
  have hlen := c.length_wire
  -- the load is the load of the timestamp field, whose width the `tf` bit gives
  have hload : c.opt.ts = true →
      (RopeCursor.ofRope v.wire).loadLe (c.opt.header + c.body.length) c.opt.tsSize =
        LittleEndian.load c.ts := by
    intro hp
    rw [← hts, ← h.wire]
    refine LawfulCursor.loadLe_eq (reads_rope v.wire) ?_ ?_
    · rw [h.wire, hlen]
      simp only [Cell.header]
      omega
    · unfold Opt.tsSize
      cases c.opt.ts <;> cases c.opt.tf <;> decide
  have hopt : v.hdr.opt = c.opt := by rw [h.hdr]; rfl
  have hoff : v.hdr.header + v.hdr.length = c.opt.header + c.body.length := by rw [h.hdr]; rfl
  unfold Opt.tsSize at hload
  unfold TlvView.timestamp loadStamp
  simp only [hopt, hoff]
  by_cases hp : c.opt.ts = true
  · have hl := hload hp
    by_cases htf : c.opt.tf = true
    · simp only [hp, htf, if_true] at hl
      simp [hp, htf, hl]
    simp only [hp, htf, if_true] at hl
    simp only [Bool.false_eq_true, if_false] at hl
    simp [hp, htf, hl]
  · simp [hp]

end TlvView.Shows

/-! ## The iterator's invariant -/

/-- The iterator stands at `bs`, the part of its region not yet yielded: the anchor names the first
    of those bytes and does not lie behind its link. -/
structure Children.At (it : Children) (bs : Bytes) : Prop where
  sound : it.poisoned = none
  ahead : Chain.rest it.body.links it.li it.intra = bs
  length : it.pos + bs.length = it.len
  inside : ∀ l, it.body.links[it.li]? = some l → it.intra ≤ l.length

theorem TlvView.Shows.children_at {v : TlvView} {c : Cell} (h : v.Shows c) :
    v.children.At (if c.opt.pl then c.body else []) := by
  have hpl : v.structured = c.opt.pl := by rw [TlvView.structured, h.hdr]; rfl
  have hbytes : (if v.structured then v.body else {} : Rope).bytes =
      if c.opt.pl then c.body else [] := by
    rw [hpl]
    cases c.opt.pl
    · rfl
    · exact h.body_bytes
  refine ⟨rfl, ?_, ?_, fun _ _ => Nat.zero_le _⟩
  · exact (Chain.rest_zero _).trans hbytes
  · rw [← hbytes, ← Rope.totalLength_eq]
    exact zero_add _

theorem bytes_subropeAt {links : List View} {li intra : Nat} (len : Nat)
    (hin : ∀ l, links[li]? = some l → intra ≤ l.length) :
    (subropeAt links li intra len).bytes = (Chain.rest links li intra).take len :=
  Chain.flatMap_gather_drop View.bytes_subview links li intra len hin

namespace Children.At

variable {it : Children} {bs : Bytes}

theorem reads (h : it.At bs) : LawfulCursor.Reads
    (RopeCursor.resumeAt it.body.links it.li it.intra (it.len - it.pos)) bs := by
  have hlen : it.len - it.pos = bs.length := by have := h.length; omega
  refine ⟨rfl, hlen.symm, ?_⟩
  show bs = (Chain.rest it.body.links it.li it.intra).take (it.len - it.pos)
  rw [h.ahead, hlen, take_length]

theorem next_nil (h : it.At []) : it.next = (.ok none, it) := by
  have hpos : it.pos = it.len := h.length
  rw [Children.next, h.sound]
  simp only [hpos, if_true]

theorem next_error (h : it.At bs) (hne : bs ≠ []) {e : Err} (he : readHeader bs .DEFER = .error e) :
    it.next = (.error e, { it with poisoned := some e }) := by
  have hpos : it.pos ≠ it.len := by
    have := h.length
    have := length_pos_iff.mpr hne
    omega
  rw [Children.next, h.sound]
  simp only [hpos, if_false]
  rw [parseHeader_reads h.reads, he]

/-- **A step of the iterator** yields a view of the next cell and stands behind it. -/
theorem next_cell {c : Cell} {rest : Bytes} (h : it.At (c.wire ++ rest)) :
    ∃ child it', it.next = (.ok (some child), it') ∧ child.Shows c ∧ it'.At rest := by
  have hpos : it.pos ≠ it.len := by
    have hlen := h.length
    have := c.length_body_lt
    rw [length_append] at hlen
    omega
  have hparse : parseHeader
      (RopeCursor.resumeAt it.body.links it.li it.intra (it.len - it.pos)) .DEFER =
      .ok c.header := by
    rw [parseHeader_reads h.reads, c.readHeader_wire rest .DEFER (by simp)]
  refine ⟨⟨subropeAt it.body.links it.li it.intra c.header.total, c.header⟩, { it with
      pos := it.pos + c.header.total
      li := (Chain.seek it.body.links it.li (it.intra + c.header.total)).1
      intra := (Chain.seek it.body.links it.li (it.intra + c.header.total)).2 }, ?_, ⟨?_, rfl⟩,
    ⟨h.sound, ?_, ?_, fun l hl => Nat.le_of_lt (Chain.seek_lt hl)⟩⟩
  · rw [Children.next, h.sound]
    simp only [hpos, if_false, hparse]
  · rw [bytes_subropeAt _ h.inside, h.ahead, ← c.length_wire, take_left]
  · show Chain.rest it.body.links _ _ = rest
    rw [Chain.rest_seek, Chain.rest_add, h.ahead, ← c.length_wire, drop_left]
  · have := h.length
    rw [length_append, c.length_wire] at this
    show it.pos + c.header.total + rest.length = it.len
    omega

end Children.At

/-! ## The sweep -/

open TlvView

/-- A sweep has ended as an eager decode did: with the same result, or both with an error. -/
def Agrees {α : Type} (eager : Except Err α) (swept : Option (Except Err α)) : Prop :=
  match eager with
  | .ok a => swept = some (.ok a)
  | .error _ => ∃ e, swept = some (.error e)

def presented (c : Cell) (kids : List Node) : Tlv := rebuilt (treeOf (.mk c.header c.wire kids))

theorem TlvView.Shows.presented {v : TlvView} {c : Cell} (h : v.Shows c) (kids : List Node) :
    .mk v.hdr.type v.hdr.opt (if v.structured then [] else v.body.bytes)
      (rebuiltAll (treesOf kids)) (v.timestamp.map fun ts => { ts := some ts }) =
      Wire.presented c kids := by
  have hpl : v.structured = c.opt.pl := by rw [TlvView.structured, h.hdr]; rfl
  rw [Wire.presented, treeOf_cell, rebuilt, cellTrailer_ts, h.body_bytes, h.timestamp_eq, hpl, h.hdr]
  rfl

theorem sweep_step {fuel : Nat} {v : TlvView} {c : Cell} (h : v.Shows c) {depth : Nat}
    (hkids : Agrees ((decodeKids .VERIFY unbounded depth c).map fun ns => rebuiltAll (treesOf ns))
      (sweepChildren fuel v.children)) :
    (c.Sealed ∧ Agrees ((decodeKids .VERIFY unbounded depth c).map (presented c)) (sweep (fuel + 1) v)) ∨
    (¬c.Sealed ∧ ∃ e, sweep (fuel + 1) v = some (.error e)) := by
  rcases h.verify_eq with ⟨hv, hs⟩ | ⟨⟨e, hv⟩, hs⟩
  · refine .inl ⟨hs, ?_⟩
    cases hd : decodeKids .VERIFY unbounded depth c with
    | error e =>
      rw [hd] at hkids
      obtain ⟨e', hk⟩ := hkids
      exact ⟨e', by simp only [sweep, hv, hk]⟩
    | ok kids =>
      rw [hd] at hkids
      have hk : sweepChildren fuel v.children = some (.ok (rebuiltAll (treesOf kids))) := hkids
      show sweep (fuel + 1) v = some (.ok (presented c kids))
      simp only [sweep, hv, hk, h.presented kids]
  · exact .inr ⟨hs, e, by simp only [sweep, hv]⟩

theorem decodeSeq_unsealed {c : Cell} (hs : ¬c.Sealed) (rest : Bytes) (depth : Nat) :
    decodeSeq .VERIFY unbounded depth (c.wire ++ rest) = .error .FRAME_CRC_FAIL := by
  apply decodeSeq_error (c.wire_ne_nil rest)
  rw [c.readHeader_wire_eq, if_pos ⟨rfl, hs⟩]

/-- **Sweeping a region agrees with decoding it.** -/
theorem sweepChildren_agrees (fuel : Nat) : ∀ {it : Children} {bs : Bytes} (depth : Nat),
    it.At bs → bs.length < fuel →
    Agrees ((decodeSeq .VERIFY unbounded depth bs).map fun ns => rebuiltAll (treesOf ns))
      (sweepChildren fuel it) := by
  -- a round of the iterator spends one unit of fuel, descending into a child two
  induction fuel using Nat.strongRecOn with
  | ind fuel ih =>
    intro it bs depth hat hfuel
    obtain ⟨fuel, rfl⟩ : ∃ k, fuel = k + 1 := ⟨fuel - 1, by omega⟩
    by_cases hne : bs = []
    · subst hne
      rw [decodeSeq_nil]
      show sweepChildren (fuel + 1) it = some (.ok [])
      simp only [sweepChildren, hat.next_nil]
    rcases readHeader_cases bs .DEFER with ⟨e, he⟩ | ⟨c, rest, rfl, -⟩
    · rw [decodeSeq_error hne (Cell.readHeader_verify_error he)]
      exact ⟨e, by simp only [sweepChildren, hat.next_error hne he]⟩
    have hlen := c.length_body_lt
    rw [length_append] at hfuel
    obtain ⟨fuel, rfl⟩ : ∃ k, fuel = k + 1 := ⟨fuel - 1, by omega⟩
    obtain ⟨child, it', hnext, hshows, hat'⟩ := hat.next_cell
    have hregion : (if c.opt.pl then c.body else []).length ≤ c.body.length := by
      split <;> simp
    have hkids := ih fuel (by omega) 0 hshows.children_at (by omega)
    have hrest := ih (fuel + 1) (by omega) depth hat' (by omega)
    rw [← decodeKids_unbounded .VERIFY depth] at hkids
    rcases sweep_step hshows hkids with ⟨hs, hnode⟩ | ⟨hs, e, hnode⟩
    · rw [decodeSeq_cell c rest fun _ => hs]
      cases hk : decodeKids .VERIFY unbounded depth c with
      | error e =>
        rw [hk] at hnode
        obtain ⟨e', hnode⟩ := hnode
        exact ⟨e', by simp only [sweepChildren, hnext, hnode]⟩
      | ok kids =>
        rw [hk] at hnode
        have hnode : sweep (fuel + 1) child = some (.ok (presented c kids)) := hnode
        cases hr : decodeSeq .VERIFY unbounded depth rest with
        | error e =>
          rw [hr] at hrest
          obtain ⟨e', hrest⟩ := hrest
          exact ⟨e', by rw [sweepChildren]; simp only [hnext, hnode, hrest]⟩
        | ok ns =>
          rw [hr] at hrest
          have hrest : sweepChildren (fuel + 1) it' = some (.ok (rebuiltAll (treesOf ns))) := hrest
          show sweepChildren (fuel + 1 + 1) it =
            some (.ok (presented c kids :: rebuiltAll (treesOf ns)))
          rw [sweepChildren]
          simp only [hnext, hnode, hrest]
    · rw [decodeSeq_unsealed hs]
      exact ⟨e, by rw [sweepChildren]; simp only [hnext, hnode]⟩

theorem sweepRope_agrees {r : Rope} (hr : r.allHost = true) {fuel : Nat} (hfuel : r.totalLength < fuel) :
    Agrees ((decode .VERIFY unbounded r.bytes).map fun n => rebuilt (treeOf n)) (sweepRope fuel r) := by
  obtain ⟨fuel, rfl⟩ : ∃ k, fuel = k + 1 := ⟨fuel - 1, by omega⟩
  rw [Rope.totalLength_eq] at hfuel
  unfold sweepRope overRope
  rw [hr, Rope.totalLength_eq, parseHeader_reads (reads_rope r)]
  simp only [Bool.not_true, Bool.false_eq_true, if_false]
  rcases readHeader_cases r.bytes .DEFER with ⟨e, he⟩ | ⟨c, rest, hbytes, -⟩
  · rw [decode_error (Cell.readHeader_verify_error he), he]
    exact ⟨e, rfl⟩
  have hparse : readHeader r.bytes .DEFER = .ok c.header := by
    rw [hbytes, c.readHeader_wire rest .DEFER (by simp)]
  have hunsealed : ¬c.Sealed → decode .VERIFY unbounded r.bytes = .error .FRAME_CRC_FAIL := by
    intro hs
    rw [hbytes]
    apply decode_error
    rw [c.readHeader_wire_eq, if_pos ⟨rfl, hs⟩]
  rw [hparse]
  by_cases hrest : rest = []
  · -- the root fills the rope
    subst hrest
    rw [append_nil] at hbytes
    have hlen := c.length_body_lt
    have hregion : (if c.opt.pl then c.body else []).length ≤ c.body.length := by
      split <;> simp
    have hshows : TlvView.Shows ⟨r, c.header⟩ c := ⟨hbytes, rfl⟩
    have hkids := sweepChildren_agrees fuel 0 hshows.children_at (by rw [hbytes] at hfuel; omega)
    rw [← decodeKids_unbounded .VERIFY 0] at hkids
    simp only [hbytes, ← c.length_wire, ne_eq, not_true_eq_false, if_false]
    rcases sweep_step hshows hkids with ⟨hs, hnode⟩ | ⟨hs, e, hnode⟩
    · rw [decode_cell c fun _ => hs]
      cases hk : decodeKids .VERIFY unbounded 0 c with
      | error e | ok kids => rw [hk] at hnode; exact hnode
    · rw [← hbytes, hunsealed hs]
      exact ⟨e, hnode⟩
  · -- bytes behind the root
    have htotal : c.header.total ≠ r.bytes.length := by
      have := length_pos_iff.mpr hrest
      rw [hbytes, length_append, c.length_wire]
      omega
    simp only [ne_eq, htotal, not_false_eq_true, if_true]
    by_cases hs : c.Sealed
    · rw [hbytes, decode_trailing c hrest fun _ => hs]
      exact ⟨_, rfl⟩
    · rw [hunsealed hs]
      exact ⟨_, rfl⟩

/-- **Lazy is eager**: a sweep always ends, it meets no error exactly when the eager decode of the
    flat copy accepts, and then both present the same tree: types, opt bits, payload bytes,
    timestamps and children in order. -/
theorem sweep_iff_over (r : Rope) (alloc : Nat → Bool) (flat : View)
    (hflat : r.tryFlatten alloc = .ok flat) (fuel : Nat) (hfuel : r.totalLength < fuel) :
    sweepRope fuel r ≠ none ∧ ∀ t, sweepRope fuel r = some (.ok t) ↔
        ∃ n, TlvNode.overSpan flat.bytes serveAll = .ok n ∧ t = rebuilt n.tree := by
  have hagree := sweepRope_agrees (Rope.allHost_of_tryFlatten hflat) hfuel
  rw [over_eq_decode, room_serveAll, Rope.bytes_of_tryFlatten hflat]
  cases hd : decode .VERIFY unbounded r.bytes with
  | error e =>
    rw [hd] at hagree
    obtain ⟨e', hswept⟩ := hagree
    rw [hswept]
    refine ⟨by simp, fun t => ⟨?_, ?_⟩⟩
    · intro h
      cases h
    · rintro ⟨n, hn, -⟩
      cases hn
  | ok nd =>
    rw [hd] at hagree
    have hswept : sweepRope fuel r = some (.ok (rebuilt (treeOf nd))) := hagree
    have htree := (tree_of_parses (parses_of_decode hd)).1
    rw [hswept]
    refine ⟨by simp, fun t => ⟨?_, ?_⟩⟩
    · intro h
      cases h
      exact ⟨nodeOf nd, rfl, by rw [htree]⟩
    · rintro ⟨n, hn, rfl⟩
      cases hn
      rw [htree]

/-- A stamped value under a container, the value cut in two. -/
def stampedRope : Rope where
  links := [.empty, .overSegment ⟨[0x07, 0x40, 11, 0, 0x05, 0x36, 1, 0, 0x2a, 0xfe], .HOST⟩,
    .overSegment ⟨[0xff, 0xff, 0xff, 0x6d, 0xb0], .HOST⟩]

theorem sweep_iff_over_stampedRope :
    let flat : View :=
      .overSegment ⟨[0x07, 0x40, 11, 0, 0x05, 0x36, 1, 0, 0x2a, 0xfe, 0xff, 0xff, 0xff, 0x6d, 0xb0], .HOST⟩
    stampedRope.tryFlatten (fun _ => true) = .ok flat ∧
      sweepRope 16 stampedRope ≠ none ∧
      ∀ t, sweepRope 16 stampedRope = some (.ok t) ↔
        ∃ n, TlvNode.overSpan flat.bytes serveAll = .ok n ∧ t = rebuilt n.tree := by
  have hflat : stampedRope.tryFlatten (fun _ => true) = .ok (.overSegment
      ⟨[0x07, 0x40, 11, 0, 0x05, 0x36, 1, 0, 0x2a, 0xfe, 0xff, 0xff, 0xff, 0x6d, 0xb0], .HOST⟩) := by decide +kernel
  exact ⟨hflat, sweep_iff_over _ _ _ hflat 16 (by decide)⟩

end LibTracer.Wire
