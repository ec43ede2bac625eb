import LibTracer.Graph.Dispatch
import LibTracer.Wire.Rope
import LibTracer.Wire.RoundTrip

/-!
# Writes of ropes

A value reaches `write` as a rope.  Most of the write path never looks at its bytes; the branch write
flattens it first.  Only the question which of the two it is looks at the links: the type and the
options are read in the first link, and not at all if that has fewer than four octets.

* **`write_cut_iff`** — exactly which cuts of one value have the same effect everywhere.
-/

namespace LibTracer.Graph

open Wire Wire.Grammar List
open Crc (Bytes)

/-! ## Values in ropes -/

/-- A value as a rope: its bytes lie in host links, and are one TLV. -/
structure RopeValue where
  rope : Rope
  value : Tlv
  host : rope.allHost = true
  reads : ∃ nd, Parses .DEFER rope.bytes [nd] ∧ treeOf nd = value

def headLength (r : Rope) : Nat :=
  match r.links with
  | [] => 0
  | l :: _ => l.length

/-- `is_branch_point`, of a rope. -/
def ropeBranchPoint (r : Rope) (role : Role) : Bool :=
  match r.links with
  | [] => false
  | l :: _ =>
    role != .HANDLER && l.isHost && decide (4 ≤ l.bytes.length) &&
      l.bytes.getD 0 0 == POINT && l.bytes.getD 1 0 &&& 0x40 != 0

variable {bs : Bytes} {nd : Node} {k : Key} {p : Plane} {s : Store}

theorem parses_defer {ns : List Node} (h : Parses .VERIFY bs ns) : Parses .DEFER bs ns := by
  induction h with
  | nil => exact .nil
  | leaf _ hpl _ ih => exact .leaf (fun h => nomatch h) hpl ih
  | branch _ hpl _ _ ihkids ih => exact .branch (fun h => nomatch h) hpl ihkids ih

theorem head_of_parses {p : CrcCheck} (h : Parses p bs [nd]) :
    4 ≤ bs.length ∧ bs.getD 0 0 = (treeOf nd).type ∧ (bs.getD 1 0 &&& 0x40 != 0) = (treeOf nd).opt.pl := by
  have hcell : ∃ (c : Cell) (kids : List Node), bs = c.wire ∧ nd = .mk c.header c.wire kids := by
    cases h with
    | leaf _ _ hrest | branch _ _ _ hrest =>
      cases hrest
      exact ⟨_, _, append_nil _, rfl⟩
  obtain ⟨c, kids, rfl, rfl⟩ := hcell
  refine ⟨?_, rfl, ?_⟩
  · rw [c.length_wire]
    have h4 := c.opt.four_le_header
    simp only [Cell.header]
    omega
  · show (c.opt.encode &&& 0x40 != 0) = c.opt.pl
    exact congrArg Opt.pl (Opt.decode_encode c.opt)

/-- **Where the code looks**: a rope is taken for a branch if its value is one and its first link
holds the four octets that say so. -/
theorem ropeBranchPoint_eq (w : RopeValue) (role : Role) : ropeBranchPoint w.rope role =
      (isBranchPoint w.value role && decide (4 ≤ headLength w.rope)) := by
  obtain ⟨⟨links⟩, value, hhost, nd, hparses, rfl⟩ := w
  obtain ⟨hlen, htype, hpl⟩ := head_of_parses hparses
  cases links with
  | nil => exact absurd hlen (by decide)
  | cons l ls =>
    have hl : l.isHost = true := by
      have hall : (l :: ls).all View.isHost = true := hhost
      rw [all_cons, Bool.and_eq_true] at hall
      exact hall.1
    unfold ropeBranchPoint isBranchPoint headLength
    dsimp only
    rw [l.length_bytes, hl, Bool.and_true]
    by_cases h4 : 4 ≤ l.length
    · -- the first octets of the rope are those of its first link
      have hget : ∀ i, i < 4 → l.bytes.getD i 0 = (Rope.mk (l :: ls)).bytes.getD i 0 := by
        intro i hi
        have hin : i < l.bytes.length := by
          rw [l.length_bytes]
          omega
        show l.bytes.getD i 0 = (Chain.content (l :: ls)).getD i 0
        rw [Chain.content_cons, getD_eq_getElem?_getD, getD_eq_getElem?_getD]
        exact congrArg (·.getD 0) (getElem?_append_left hin).symm
      rw [hget 0 (by omega), hget 1 (by omega), htype, hpl, decide_eq_true h4, Bool.and_true,
        Bool.and_true]
    · rw [decide_eq_false h4]
      simp

/-! ## The write -/

namespace Plane

variable (p : Plane)

/-- The arms of `write_impl` that take the value as it is. -/
def writeWhole (k : Key) (x : Tlv) (caller : Name) (s : Store) : Outcome :=
  if (p.vertex k).role = .HANDLER then p.handlerWriteDeliver k x caller s
  else if (p.vertex k).retainsNone then p.relayWrite k x caller s
  else
    match p.storeValue k x none caller s with
    | .error e => .refused s e
    | .ok (s, stored) => .ran (p.deliverStored k stored s)

/-- `write_branch` of a rope: it is flattened and decoded first. -/
def writeBranchRope (k : Key) (r : Rope) (caller : Name) (notify : Bool) (s : Store) : Outcome :=
  match decode .VERIFY unbounded r.bytes with
  | .error _ => .refused s .TYPE_MISMATCH
  | .ok nd => p.writeBranch k (treeOf nd) caller notify s

/-- `write_impl` of a rope. -/
def writeRope (k : Key) (w : RopeValue) (caller : Name) (s : Store) : Outcome :=
  if !p.allows k caller .WRITE then .refused s .PERMISSION_DENIED
  else if ropeBranchPoint w.rope (p.vertex k).role then p.writeBranchRope k w.rope caller true s
  else p.writeWhole k w.value caller s

variable {p} {k : Key} {w w' : RopeValue} {caller : Name} {s : Store}

theorem write_eq (x : Tlv) : p.write k x caller s =
    if !p.allows k caller .WRITE then .refused s .PERMISSION_DENIED
    else if isBranchPoint x (p.vertex k).role then p.writeBranch k x caller true s
    else p.writeWhole k x caller s := rfl

/-- **A rope whose first link holds the first four octets is written as its value is**, if its
checksums hold. -/
theorem writeRope_eq_write (hparses : Parses .VERIFY w.rope.bytes [nd])
    (hvalue : treeOf nd = w.value) (hhead : 4 ≤ headLength w.rope) :
    p.writeRope k w caller s = p.write k w.value caller s := by
  rw [writeRope, write_eq, ropeBranchPoint_eq, decide_eq_true hhead, Bool.and_true,
    writeBranchRope, decode_of_parses hparses, ← hvalue]

theorem writeRope_eq_writeWhole (hhead : headLength w.rope < 4) : p.writeRope k w caller s =
      if !p.allows k caller .WRITE then .refused s .PERMISSION_DENIED
      else p.writeWhole k w.value caller s := by
  rw [writeRope, ropeBranchPoint_eq, decide_eq_false (by omega), Bool.and_false]
  rfl

end Plane

variable {w w' : RopeValue} {caller : Name} {bs : List Bytes}

theorem RopeValue.value_eq (h : w.rope.bytes = w'.rope.bytes) : w.value = w'.value := by
  obtain ⟨nd, hnd, hv⟩ := w.reads
  obtain ⟨nd', hnd', hv'⟩ := w'.reads
  have hsame := decode_of_parses hnd
  rw [h, decode_of_parses hnd'] at hsame
  rw [← hv, ← hv', Except.ok.inj hsame]

theorem Plane.writeRope_congr (hbytes : w.rope.bytes = w'.rope.bytes)
    (halike : ropeBranchPoint w.rope (p.vertex k).role = ropeBranchPoint w'.rope (p.vertex k).role) :
    p.writeRope k w caller s = p.writeRope k w' caller s := by
  rw [writeRope, writeRope, halike, RopeValue.value_eq hbytes, writeBranchRope, writeBranchRope, hbytes]

/-! ## Two cuts of one value -/

/-- Two vertices that store, `/s` and `/t`. -/
def twoNames : List Event :=
  [.register streamKey .STORED_VALUE true {}, .register sinkKey .STORED_VALUE true {}].map
    (Event.mk plainEnv)

theorem Plane.writeBranchRope_refused {notify : Bool} (hname : leadingName w.value ≠ k.headD []) :
    (p.writeBranchRope k w.rope caller notify s).status ≠ none := by
  obtain ⟨nd, hnd, hvalue⟩ := w.reads
  unfold writeBranchRope
  cases hdecode : decode .VERIFY unbounded w.rope.bytes with
  | error e => exact fun h => nomatch h
  | ok nd' =>
    -- what the check lets through is the value that was written
    have hsame := decode_of_parses (parses_defer (parses_of_decode hdecode))
    rw [decode_of_parses hnd] at hsame
    cases hsame
    unfold writeBranch
    dsimp only
    cases parseBranchNode k (treeOf nd) with
    | error e => exact fun h => nomatch h
    | ok plan =>
      rw [hvalue]
      dsimp only
      rw [if_pos hname]
      exact fun h => nomatch h

/-- **Cut in its first octets and not, a structured `POINT` is written differently**: at a vertex of
another name one cut is stored and the other refused. -/
theorem Plane.writeRope_ne
    (hpoint : w.value.type = POINT ∧ w.value.opt.pl = true) (hhead : 4 ≤ headLength w.rope)
    (hhead' : headLength w'.rope < 4) :
    let g := (State.machine .allowOnly).run twoNames
    ∃ k, g.wiring.found k = true ∧
      (g.plane .allowOnly plainEnv).writeRope k w [] g.store ≠
        (g.plane .allowOnly plainEnv).writeRope k w' [] g.store := by
  intro g
  have hkey : ∃ k, (k = streamKey ∨ k = sinkKey) ∧ leadingName w.value ≠ k.headD [] := by
    by_cases hname : leadingName w.value = streamKey.headD []
    · exact ⟨sinkKey, .inr rfl, by rw [hname]; decide⟩
    · exact ⟨streamKey, .inl rfl, hname⟩
  obtain ⟨k, hk, hname⟩ := hkey
  have hvertex : g.wiring.found k = true ∧ (g.plane .allowOnly plainEnv).allows k [] .WRITE = true ∧
      ((g.plane .allowOnly plainEnv).vertex k).role = .STORED_VALUE ∧
      ((g.plane .allowOnly plainEnv).vertex k).retainsNone = false := by
    rcases hk with rfl | rfl <;> decide +kernel
  obtain ⟨hfound, hallows, hrole, hretains⟩ := hvertex
  refine ⟨k, hfound, fun heq => ?_⟩
  have hstatus := congrArg Outcome.status heq
  rw [writeRope_eq_writeWhole hhead', hallows, writeRope, hallows, ropeBranchPoint_eq,
    decide_eq_true hhead, isBranchPoint, hrole, hpoint.1, hpoint.2] at hstatus
  refine writeBranchRope_refused hname (hstatus.trans ?_)
  rw [writeWhole, hrole, hretains, storeValue, hrole]
  rfl

/-- **When two cuts of one value are written alike**: at every vertex of every graph, exactly if the
value is no structured `POINT`, or the first links of both hold four octets, or of neither. -/
theorem write_cut_iff (w w' : RopeValue) (hbytes : w.rope.bytes = w'.rope.bytes) :
    (∀ (policy : AclPolicy) (g : State), (State.machine policy).Reachable g →
      ∀ (env : Env) (k : Key) (caller : Name), g.wiring.found k = true →
        (g.plane policy env).writeRope k w caller g.store =
          (g.plane policy env).writeRope k w' caller g.store) ↔
      ((w.value.type = POINT ∧ w.value.opt.pl = true) →
        (4 ≤ headLength w.rope ↔ 4 ≤ headLength w'.rope)) := by
  constructor
  · intro h hpoint
    have hreach := (State.machine .allowOnly).reachable_run twoNames
    have hpoint' : w'.value.type = POINT ∧ w'.value.opt.pl = true := by
      rwa [RopeValue.value_eq hbytes] at hpoint
    constructor
    · intro hhead
      by_contra hhead'
      obtain ⟨k, hk, hne⟩ := Plane.writeRope_ne hpoint hhead (Nat.not_le.mp hhead')
      exact hne (h _ _ hreach _ _ _ hk)
    · intro hhead'
      by_contra hhead
      obtain ⟨k, hk, hne⟩ := Plane.writeRope_ne hpoint' hhead' (Nat.not_le.mp hhead)
      exact hne (h _ _ hreach _ _ _ hk).symm
  · intro h policy g _ env k caller _
    refine Plane.writeRope_congr hbytes ?_
    rw [ropeBranchPoint_eq, ropeBranchPoint_eq, RopeValue.value_eq hbytes]
    by_cases hpoint : w.value.type = POINT ∧ w.value.opt.pl = true
    · rw [decide_eq_decide.mpr (h hpoint)]
    have hplain : isBranchPoint w'.value ((g.plane policy env).vertex k).role = false := by
      rw [RopeValue.value_eq hbytes, not_and] at hpoint
      cases hb : isBranchPoint w'.value ((g.plane policy env).vertex k).role with
      | false => rfl
      | true =>
        simp only [isBranchPoint, Bool.and_eq_true, beq_iff_eq] at hb
        exact absurd hb.2 (hpoint hb.1.2)
    rw [hplain, Bool.false_and, Bool.false_and]

/-! ### A branch cut after its second octet -/

/-- The branch `/t` with one value. -/
def onePoint : Tlv :=
  .mk POINT { pl := true } []
    [.mk NAME {} (octets "t".toList) [] none, .mk VALUE {} [5] [] none] none

def ownLinks (bs : List Bytes) : Rope := ⟨bs.map fun b => View.overSegment ⟨b, .HOST⟩⟩

theorem allHost_ownLinks (bs : List Bytes) : (ownLinks bs).allHost = true := by
  simp [ownLinks, Rope.allHost, View.isHost, View.overSegment]

theorem bytes_ownLinks (bs : List Bytes) : (ownLinks bs).bytes = bs.flatten := by
  induction bs with
  | nil => rfl
  | cons b bs ih =>
    show Chain.content (View.overSegment ⟨b, .HOST⟩ :: (ownLinks bs).links) = _
    rw [Chain.content_cons, flatten_cons, ← ih]
    exact congrArg (· ++ _) (View.bytes_overSegment ⟨b, .HOST⟩)

theorem parses_onePoint (h : bs.flatten = putTlv onePoint) :
    ∃ nd, Parses .VERIFY (ownLinks bs).bytes [nd] ∧ treeOf nd = sent onePoint := by
  rw [bytes_ownLinks, h]
  exact parses_put onePoint 10 (by decide +kernel) (by decide +kernel) (by decide +kernel)

theorem reads_onePoint (h : bs.flatten = putTlv onePoint) :
    ∃ nd, Parses .DEFER (ownLinks bs).bytes [nd] ∧ treeOf nd = sent onePoint :=
  (parses_onePoint h).imp fun _ hnd => ⟨parses_defer hnd.1, hnd.2⟩

def cutPoint (bs : List Bytes) (h : bs.flatten = putTlv onePoint) : RopeValue :=
  ⟨ownLinks bs, sent onePoint, allHost_ownLinks bs, reads_onePoint h⟩

theorem flatten_onePoint (n : Nat) :
    [(putTlv onePoint).take n, (putTlv onePoint).drop n].flatten = putTlv onePoint := by
  simp

/-- Cut after `n` octets. -/
def pointAt (n : Nat) : RopeValue := cutPoint _ (flatten_onePoint n)

theorem bytes_pointAt (n : Nat) : (pointAt n).rope.bytes = putTlv onePoint :=
  (bytes_ownLinks _).trans (flatten_onePoint n)

theorem write_cut_iff_pointAt : (pointAt 4).rope.bytes = (pointAt 6).rope.bytes ∧
    ∀ (policy : AclPolicy) (g : State), (State.machine policy).Reachable g →
      ∀ (env : Env) (k : Key) (caller : Name), g.wiring.found k = true →
        (g.plane policy env).writeRope k (pointAt 4) caller g.store =
          (g.plane policy env).writeRope k (pointAt 6) caller g.store := by
  have hbytes := (bytes_pointAt 4).trans (bytes_pointAt 6).symm
  exact ⟨hbytes, (write_cut_iff _ _ hbytes).mpr fun _ => by decide +kernel⟩

/-- **The value of `/t` depends on the cut**: written to `/t`, the branch lands the value it carries;
cut after its second octet it is stored whole. -/
theorem cut_point_stored_whole :
    let g := (State.machine .allowOnly).run twoNames
    let p := g.plane .allowOnly plainEnv
    (pointAt 14).rope.bytes = (pointAt 2).rope.bytes ∧
      ((p.writeRope sinkKey (pointAt 14) [] g.store).store.lkv sinkKey).map (·.value.type) =
        some VALUE ∧
      ((p.writeRope sinkKey (pointAt 2) [] g.store).store.lkv sinkKey).map (·.value.type) =
        some POINT := by
  intro g p
  obtain ⟨nd, hnd, hvalue⟩ := parses_onePoint (flatten_onePoint 14)
  refine ⟨(bytes_pointAt 14).trans (bytes_pointAt 2).symm, ?_, ?_⟩
  · rw [Plane.writeRope_eq_write (w := pointAt 14) hnd hvalue (by decide +kernel)]
    decide +kernel
  · rw [Plane.writeRope_eq_writeWhole (w := pointAt 2) (by decide +kernel)]
    decide +kernel

end LibTracer.Graph
