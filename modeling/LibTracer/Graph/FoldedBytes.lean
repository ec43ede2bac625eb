import LibTracer.Graph.FoldedFrame
import LibTracer.Wire.RoundTrip

/-!
# The bytes of a composed read (`read_subtree_folded`)

A composed read collects its nodes in pre-order, each with the place of its parent, and then walks
the array twice: backwards, to add every node's size to its parent's, and forwards, to emit each
node's header, name and stored value.  No node is ever a tree.

* **`emit_snap`** — the walks write the bytes the codec has for the tree.
-/

namespace LibTracer.Graph

open Wire Wire.Grammar List
open Crc (Bytes)

/-! ## The array -/

/-- `snap_node_t`: the vertex, whether its `NAME` leads the node, its value and its parent's place. -/
structure SnapNode where
  key : Key
  named : Bool
  lkv : Option Tlv
  parent : Nat

namespace SnapNode

/-- `child_segment`. -/
def text (n : SnapNode) : Bytes := octets (n.key.headD [])

/-- The node's own `NAME`: the header, always with a short length, and the borrowed text. -/
def name (n : SnapNode) : Bytes :=
  if n.named then emitHeader NAME {} n.text.length ++ n.text else []

def value (n : SnapNode) : Bytes := (n.lkv.map putTlv).getD []

/-- `folded_own`. -/
def own (n : SnapNode) : Nat :=
  (if n.named then 4 + n.text.length else 0) + n.value.length

end SnapNode

def foldedHdrLen (bodyLen : Nat) : Nat := if bodyLen > 0xFFFF then 6 else 4

def appendFoldedNode (n : SnapNode) (bodyLen : Nat) : Bytes :=
  emitHeader POINT (widen { pl := true } bodyLen) bodyLen ++ n.name ++ n.value

def addToParent (e : SnapNode × Nat) (lens : Nat → Nat) : Nat → Nat :=
  Function.update lens e.1.parent
    (lens e.1.parent + (foldedHdrLen (lens e.2) + lens e.2))

/-- The body lengths: what each node has of its own, then the backward walk, which stops before the
root. -/
def lengths (nodes : List SnapNode) : Nat → Nat :=
  nodes.zipIdx.tail.foldr addToParent fun i => (nodes[i]?.map SnapNode.own).getD 0

def emitAll (lens : Nat → Nat) (es : List (SnapNode × Nat)) : Bytes :=
  es.flatMap fun e => appendFoldedNode e.1 (lens e.2)

def emit (nodes : List SnapNode) : Bytes := emitAll (lengths nodes) nodes.zipIdx

/-! ## The array of a tree -/

namespace Fold

mutual

def size : Fold → Nat
  | node _ _ kids => 1 + sizes kids

def sizes : List Fold → Nat
  | [] => 0
  | f :: fs => size f + sizes fs

end

mutual

def snap (parent base : Nat) : Fold → List SnapNode
  | node key value kids => ⟨key, base ≠ 0, value, parent⟩ :: snaps base (base + 1) kids

def snaps (parent base : Nat) : List Fold → List SnapNode
  | [] => []
  | f :: fs => snap parent base f ++ snaps parent (base + size f) fs

end

mutual

theorem length_snap (parent base : Nat) : ∀ f : Fold, (f.snap parent base).length = f.size
  | node _ _ kids => by
    rw [snap, size, length_cons, length_snaps base (base + 1) kids, add_comm]

theorem length_snaps (parent base : Nat) : ∀ fs : List Fold, (snaps parent base fs).length = sizes fs
  | [] => rfl
  | f :: fs => by
    rw [snaps, sizes, length_append, length_snap parent base f, length_snaps parent (base + f.size) fs]

end

mutual

def bytes (named : Bool) : Fold → Bytes
  | node key value kids =>
    let body := (SnapNode.mk key named value 0).name ++ (value.map putTlv).getD [] ++ bytesAll kids
    emitHeader POINT (widen { pl := true } body.length) body.length ++ body

def bytesAll : List Fold → Bytes
  | [] => []
  | f :: fs => bytes true f ++ bytesAll fs

end

end Fold

/-! ## The walks -/

/-- What the walks make of the block of an array from `base` on, if the bytes of the nodes in it are
`out`: the parent has grown by as much, no other length outside the block has changed, and with the
lengths inside it the block is emitted as `out`. -/
structure Walked (parent base : Nat) (nodes : List SnapNode) (lens lens' : Nat → Nat)
    (out : Bytes) : Prop where
  grown : lens' parent = lens parent + out.length
  other : ∀ i, i ≠ parent → i < base ∨ base + nodes.length ≤ i → lens' i = lens i
  emitted : ∀ lens'' : Nat → Nat, (∀ i, base ≤ i → i < base + nodes.length → lens'' i = lens' i) →
    emitAll lens'' (nodes.zipIdx base) = out

theorem length_emitHeader_point (n : Nat) :
    (emitHeader POINT (widen { pl := true } n) n).length = foldedHdrLen n := by
  rw [length_emitHeader]
  unfold widen foldedHdrLen Opt.header
  split <;> rfl

theorem SnapNode.length_name (n : SnapNode) :
    n.name.length = if n.named then 4 + n.text.length else 0 := by
  unfold SnapNode.name
  split
  · rw [length_append, length_emitHeader]
    rfl
  · rfl

theorem Walked.append {parent base : Nat} {as bs : List SnapNode} {lens lens₁ lens₂ : Nat → Nat}
    {out out' : Bytes} (hparent : parent < base) (hb : Walked parent (base + as.length) bs lens lens₁ out')
    (ha : Walked parent base as lens₁ lens₂ out) :
    Walked parent base (as ++ bs) lens lens₂ (out ++ out') := by
  refine ⟨?_, fun i hi hout => ?_, fun lens'' hlens => ?_⟩
  · rw [ha.grown, hb.grown, length_append]
    omega
  · rw [length_append] at hout
    rw [ha.other i hi (by omega), hb.other i hi (by omega)]
  · rw [length_append] at hlens
    rw [zipIdx_append]
    unfold emitAll
    rw [flatMap_append]
    refine congrArg₂ _ (ha.emitted lens'' fun i hi hi' => hlens i hi (by omega)) ?_
    refine hb.emitted lens'' fun i hi hi' => ?_
    rw [hlens i (by omega) (by omega), ha.other i (by omega) (by omega)]

theorem Walked.cons {parent base : Nat} {n : SnapNode} {kids : List SnapNode}
    {lens lens₁ : Nat → Nat} {out : Bytes} (hparent : parent < base) (hn : n.parent = parent)
    (hown : lens base = n.own) (h : Walked base (base + 1) kids lens lens₁ out) :
    let body := n.name ++ n.value ++ out
    Walked parent base (n :: kids) lens (addToParent (n, base) lens₁)
      (emitHeader POINT (widen { pl := true } body.length) body.length ++ body) := by
  intro body
  have hbody : lens₁ base = body.length := by
    rw [h.grown, hown, SnapNode.own, ← n.length_name]
    simp only [body, length_append]
  refine ⟨?_, fun i hi hout => ?_, fun lens'' hlens => ?_⟩
  · unfold addToParent
    rw [hn, Function.update_self, h.other parent (by omega) (by omega), length_append,
      length_emitHeader_point, hbody]
  · rw [length_cons] at hout
    unfold addToParent
    rw [hn, Function.update_of_ne hi, h.other i (by omega) (by omega)]
  · rw [length_cons] at hlens
    have hrest : emitAll lens'' (kids.zipIdx (base + 1)) = out := by
      refine h.emitted lens'' fun i hi hi' => ?_
      rw [hlens i (by omega) (by omega)]
      unfold addToParent
      rw [hn, Function.update_of_ne (by omega)]
    have hlen : lens'' base = body.length := by
      rw [hlens base (by omega) (by omega)]
      unfold addToParent
      rw [hn, Function.update_of_ne (by omega), hbody]
    rw [zipIdx_cons]
    show appendFoldedNode n (lens'' base) ++ emitAll lens'' (kids.zipIdx (base + 1)) = _
    rw [hrest, hlen, appendFoldedNode]
    simp only [body, append_assoc]

def StartsWith (base : Nat) (nodes : List SnapNode) (lens : Nat → Nat) : Prop :=
  ∀ e ∈ nodes.zipIdx base, lens e.2 = e.1.own

mutual

/-- **The backward walk over a tree's block** adds the tree's bytes to the parent. -/
theorem walked_snap : ∀ (f : Fold) (parent base : Nat) (lens : Nat → Nat), parent < base →
    StartsWith base (f.snap parent base) lens → Walked parent base (f.snap parent base) lens
      (((f.snap parent base).zipIdx base).foldr addToParent lens) (f.bytes true)
  | .node key value kids, parent, base, lens, hparent, hstart => by
    rw [Fold.snap] at hstart ⊢
    rw [Fold.bytes, zipIdx_cons, foldr_cons]
    have hkids := walked_snaps kids base (base + 1) lens (by omega) fun e he => by
      exact hstart e (mem_cons_of_mem _ he)
    have hown : lens base = _ := hstart _ mem_cons_self
    have hnamed : decide (base ≠ 0) = true := decide_eq_true (by omega)
    have hcons := hkids.cons (n := ⟨key, decide (base ≠ 0), value, parent⟩) hparent rfl hown
    rw [hnamed] at hcons ⊢
    exact hcons

theorem walked_snaps : ∀ (fs : List Fold) (parent base : Nat) (lens : Nat → Nat), parent < base →
    StartsWith base (Fold.snaps parent base fs) lens → Walked parent base (Fold.snaps parent base fs) lens
      (((Fold.snaps parent base fs).zipIdx base).foldr addToParent lens) (Fold.bytesAll fs)
  | [], parent, base, lens, _, _ => ⟨rfl, fun _ _ _ => rfl, fun _ _ => rfl⟩
  | f :: fs, parent, base, lens, hparent, hstart => by
    rw [Fold.snaps] at hstart ⊢
    unfold StartsWith at hstart
    rw [zipIdx_append, Fold.length_snap] at hstart ⊢
    rw [Fold.bytesAll, foldr_append]
    have hrest := walked_snaps fs parent (base + f.size) lens (by omega)
      fun e he => hstart e (mem_append_right _ he)
    refine Walked.append hparent ((Fold.length_snap parent base f).symm ▸ hrest)
      (walked_snap f parent base _ hparent fun e he => ?_)
    -- the block of `f` is as it was: the walk over what follows it changed the parent only
    have hmem := mem_zipIdx he
    rw [Fold.length_snap] at hmem
    rw [hrest.other e.2 (by omega) (by omega)]
    exact hstart e (mem_append_left _ he)

end

theorem startsWith_own (nodes : List SnapNode) :
    StartsWith 0 nodes fun i => (nodes[i]?.map SnapNode.own).getD 0 := by
  intro e he
  have hget : nodes[e.2]? = some e.1 := (mem_zipIdx_iff_getElem? (x := e)).mp he
  show (nodes[e.2]?.map SnapNode.own).getD 0 = e.1.own
  rw [hget]
  rfl

/-- **The walks over the array of a tree write the bytes of the tree.** -/
theorem emit_snap (f : Fold) : emit (f.snap 0 0) = f.bytes false := by
  obtain ⟨key, value, kids⟩ := f
  have hwalks : ∀ lens, StartsWith 0 ((Fold.node key value kids).snap 0 0) lens →
      emitAll (((Fold.node key value kids).snap 0 0).zipIdx.tail.foldr addToParent lens)
        ((Fold.node key value kids).snap 0 0).zipIdx = (Fold.node key value kids).bytes false := by
    intro lens hstart
    rw [Fold.snap] at hstart ⊢
    rw [Fold.bytes, zipIdx_cons, tail_cons]
    have hkids := walked_snaps kids 0 1 lens (by omega)
      fun e he => hstart e (mem_cons_of_mem _ he)
    have hown := hstart _ mem_cons_self
    show appendFoldedNode _ _ ++ emitAll _ ((Fold.snaps 0 1 kids).zipIdx 1) = _
    rw [hkids.emitted _ fun _ _ _ => rfl]
    show appendFoldedNode _ (List.foldr addToParent lens ((Fold.snaps 0 1 kids).zipIdx 1) 0) ++ _ = _
    rw [hkids.grown, hown, SnapNode.own, ← SnapNode.length_name, appendFoldedNode]
    simp only [SnapNode.value, length_append, append_assoc, add_assoc, ne_eq,
      not_true_eq_false, decide_false]
  exact hwalks _ (startsWith_own _)

/-! ## One TLV -/

/-- A single well-formed TLV: the codec accepts it, no type code is zero and no body is too long. -/
structure WellFormed (t : Tlv) : Prop where
  sized : (bodyBytes t).isSome = true
  typed : t.All fun n => n.type ≠ 0
  short : t.All Short

/-- A frame of well-formed values, under names that are segments. -/
inductive Fold.Clean : Fold → Prop where
  | node {key : Key} {value : Option Tlv} {kids : List Fold}
      (hvalue : ∀ x ∈ value, WellFormed x) (hname : (key.headD []).length ≤ 255)
      (hkids : ∀ f ∈ kids, Clean f) : Clean (.node key value kids)

theorem sends_tlvs {fs : List Fold} (h : ∀ f ∈ fs,
    (bodyBytes (f.tlv true)).isSome = true ∧ putTlv (f.tlv true) = f.bytes true) :
    Sends (Fold.tlvs fs) (Fold.bytesAll fs) := by
  induction fs with
  | nil => exact .nil
  | cons f fs ih =>
    obtain ⟨hbody, hput⟩ := h f mem_cons_self
    rw [Fold.tlvs, Fold.bytesAll, ← hput]
    exact .cons hbody (ih fun g hg => h g (mem_cons_of_mem f hg))

/-- **The bytes of a clean frame are those of its tree.** -/
theorem Fold.Clean.sends {f : Fold} (h : f.Clean) (named : Bool) :
    (bodyBytes (f.tlv named)).isSome = true ∧ putTlv (f.tlv named) = f.bytes named := by
  induction h generalizing named with
  | @node key value kids hvalue hname hkids ih =>
    have hnames : Sends (if named then [.mk NAME {} (octets (key.headD [])) [] none] else [])
        (SnapNode.mk key named value 0).name := by
      cases named
      · exact .nil
      · have hlen : (octets (key.headD [])).length = (key.headD []).length := length_map ..
        have hone := (Sends.leaf (show isPathRefType NAME = false by decide) (octets (key.headD []))).2
        rwa [widen_of_le _ _ (by omega)] at hone
    have hvalues : Sends value.toList ((value.map putTlv).getD []) := by
      cases value with
      | none => exact .nil
      | some x =>
        have hone := Sends.cons (hvalue x rfl).sized Sends.nil
        rwa [append_nil] at hone
    have hall := (hnames.append hvalues).append (sends_tlvs fun f hf => ih f hf true)
    obtain ⟨hbody, hput⟩ := hall.branch (show isPathRefType POINT = false by decide)
    rw [Fold.tlv, Fold.bytes]
    exact ⟨by rw [hbody]; rfl, hput⟩

theorem Fold.mem_bytesAll_le {f : Fold} {fs : List Fold} (hf : f ∈ fs) :
    (f.bytes true).length ≤ (Fold.bytesAll fs).length := by
  induction fs with
  | nil => exact nomatch hf
  | cons g fs ih =>
    rw [Fold.bytesAll, length_append]
    rcases mem_cons.mp hf with rfl | hf
    · omega
    · exact (ih hf).trans (Nat.le_add_left _ _)

theorem all_tlvs {P : Tlv → Prop} {fs : List Fold} (h : ∀ f ∈ fs, (f.tlv true).All P) :
    ∀ c ∈ Fold.tlvs fs, TlvOf.All P c := by
  rw [Fold.tlvs_eq_map]
  exact forall_mem_map.mpr h

/-- A property of well-formed values, of names and of nodes that are not too long holds of every
node of a frame that is not too long. -/
theorem Fold.Clean.all {P : Tlv → Prop} (hvalues : ∀ x, WellFormed x → x.All P)
    (hnames : ∀ n : Name, n.length ≤ 255 → P (.mk NAME {} (octets n) [] none))
    (hnodes : ∀ (g : Fold) (named : Bool), g.Clean → (g.bytes named).length < 2 ^ 32 →
      P (g.tlv named)) {f : Fold} (h : f.Clean) (named : Bool)
    (hlen : (f.bytes named).length < 2 ^ 32) : (f.tlv named).All P := by
  induction h generalizing named with
  | @node key value kids hvalue hname hkids ih =>
    have hself := hnodes (.node key value kids) named (.node hvalue hname hkids) hlen
    rw [Fold.tlv] at hself ⊢
    rw [TlvOf.all_mk]
    refine ⟨hself, fun c hc => ?_⟩
    rcases mem_append.mp hc with hc | hc
    · rcases mem_append.mp hc with hc | hc
      · cases named
        · cases hc
        · rw [mem_singleton.mp hc, TlvOf.all_mk]
          exact ⟨hnames _ hname, forall_mem_nil _⟩
      · exact hvalues c (hvalue c (Option.mem_toList.mp hc))
    · refine all_tlvs (fun f hf => ih f hf true ?_) c hc
      have hle := mem_bytesAll_le hf
      rw [Fold.bytes] at hlen
      simp only [length_append] at hlen
      omega

section

variable {f : Fold} (h : f.Clean) (named : Bool) (hlen : (f.bytes named).length < 2 ^ 32)
include h hlen

theorem Fold.Clean.wellFormed : WellFormed (f.tlv named) where
  sized := (h.sends named).1
  typed := h.all (fun _ hx => hx.typed) (fun _ _ => by simp [NAME])
    (fun g named _ _ => by rw [Fold.tlv_type]; simp [POINT]) named hlen
  short := by
    refine h.all (fun _ hx => hx.short) (fun n hn => ?_) (fun g named hg hlen => ?_) named hlen
    · have hlen : (octets n).length = n.length := length_map ..
      rw [Short, bodyBytes]
      show (octets n).length < 2 ^ 32
      omega
    · obtain ⟨hsome, hput⟩ := hg.sends named
      obtain ⟨b, hb⟩ := Option.isSome_iff_exists.mp hsome
      have hlong := (length_put _ b hb).2
      rw [hput, frameBytes] at hlong
      rw [Short, hb, Option.getD_some]
      omega

/-- **A frame of fewer than 2³² bytes is one well-formed TLV**, and is read back as its tree. -/
theorem Fold.Clean.parses :
    ∃ nd, Parses .VERIFY (f.bytes named) [nd] ∧ treeOf nd = sent (f.tlv named) := by
  have hwf := h.wellFormed named hlen
  obtain ⟨b, hb⟩ := Option.isSome_iff_exists.mp hwf.sized
  rw [← (h.sends named).2]
  exact parses_put _ b hb hwf.typed hwf.short

end

end LibTracer.Graph
