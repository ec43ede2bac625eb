import LibTracer.Graph.Wiring
import LibTracer.Wire.Encode

/-!
# Branch frames

A `POINT` frame carries the values of a whole subtree: `POINT{NAME, [VALUE], POINT…}`, one nested
`POINT` for each level below.  It is written to a vertex and cut into slices, one for each vertex it
covers; a folded sweep and a composed read build one.

* **`parseBranchNode_covers`** — whatever a slice of the plan carries, the plan also stores.
-/

namespace LibTracer.Graph

open Wire List
open Crc (Bytes)

/-! ## Shapes -/

/-- `type_t`, the codes a branch is made of. -/
def VALUE : UInt8 := 0x01
def NAME : UInt8 := 0x02
def POINT : UInt8 := 0x07

def trailerLess (o : Opt) : Bool := !o.ts && !o.cr && !o.cw && !o.tf

/-- `is_branch_point`: a structured `POINT` written to a vertex that stores is a branch write. -/
def isBranchPoint (x : Tlv) (role : Role) : Bool :=
  role != .HANDLER && x.type == POINT && x.opt.pl

def octets (n : Name) : Bytes := n.map fun c => UInt8.ofNat c.toNat

def segment (b : Bytes) : Name := b.map fun x => Char.ofNat x.toNat

/-- The text of a node's leading `NAME`. -/
def leadingName (t : Tlv) : Name :=
  match t.children with
  | [] => []
  | c :: _ => segment (content c)

/-- A node that can be opened: structured, without a trailer, led by a `NAME`. -/
def opens (t : Tlv) : Bool :=
  t.opt.pl && trailerLess t.opt && (t.children.head?).any (·.type == NAME)

/-- The rule of `emit_path_segment`. -/
def legalSegment (n : Name) : Bool := !n.isEmpty && n.length ≤ 255

/-! ## What a frame carries -/

mutual

/-- The values of a branch rooted at `k`, each with the vertex it is for. -/
def landings (k : Key) : Tlv → List (Key × Tlv)
  | .mk _ _ _ cs _ => landingsOf k cs

/-- The values among the children of the node for `k`. -/
def landingsOf (k : Key) : List Tlv → List (Key × Tlv)
  | [] => []
  | c :: cs =>
    (if c.type = VALUE then [(k, c)]
     else if c.type = POINT then landings (leadingName c :: k) c else []) ++ landingsOf k cs

end

/-- One node of a folded frame: the vertex it is for, the value it contributes and the nodes below
it. -/
inductive Fold where
  | node (key : Key) (value : Option Tlv) (kids : List Fold)

namespace Fold

def kids : Fold → List Fold
  | node _ _ kids => kids

mutual

/-- `append_folded_node` and the nodes below: the `NAME` is left out at the root of a read. -/
def tlv (named : Bool) : Fold → Tlv
  | node key value kids =>
    .mk POINT { pl := true } []
      ((if named then [.mk NAME {} (octets (key.headD [])) [] none] else []) ++
        value.toList ++ tlvs kids)
      none

def tlvs : List Fold → List Tlv
  | [] => []
  | f :: fs => tlv true f :: tlvs fs

end

mutual

def carried : Fold → List (Key × Tlv)
  | node key value kids => value.toList.map (key, ·) ++ carriedBy kids

def carriedBy : List Fold → List (Key × Tlv)
  | [] => []
  | f :: fs => carried f ++ carriedBy fs

end

theorem mem_carriedBy {p : Key × Tlv} {fs : List Fold} : p ∈ carriedBy fs ↔ ∃ f ∈ fs, p ∈ f.carried := by
  induction fs with
  | nil => simp [carriedBy]
  | cons f fs ih => simp [carriedBy, ih]

end Fold

inductive Frame where
  /-- The value of `u`, as it was written. -/
  | value (u : Key) (x : Tlv)
  /-- A written branch, or the part of it below a vertex. -/
  | branch (root : Key) (t : Tlv)
  /-- A frame the graph built from stored values. -/
  | fold (named : Bool) (f : Fold)

namespace Frame

def tlv : Frame → Tlv
  | value _ x => x
  | branch _ t => t
  | fold named f => f.tlv named

def carried : Frame → List (Key × Tlv)
  | value u x => [(u, x)]
  | branch root t => landings root t
  | fold _ f => f.carried

end Frame

/-! ## The plan of a branch write -/

/-- `branch_node_t`, as the parse leaves it. -/
structure BranchNode where
  key : Key
  /-- The node's own `VALUE`. -/
  store : Option Tlv
  /-- What the vertex's subscribers are notified with: nothing if no value lands at or below it. -/
  notify : Option Frame

/-- The plan of a branch in post-order: what lies below the root, then the root. -/
structure BranchPlan where
  below : List BranchNode
  root : BranchNode
  /-- A value lands somewhere. -/
  value : Bool

def BranchPlan.nodes (p : BranchPlan) : List BranchNode := p.below ++ [p.root]

def BranchPlan.announced (p : BranchPlan) (whole : Frame) : List BranchNode :=
  p.below ++ [{ p.root with notify := some whole }]

/-- An open node: its own `VALUE` so far, whether a `POINT` was among its children, whether a value
landed at or below it, and the nodes closed below it. -/
structure OpenNode where
  store : Option Tlv := none
  hasPointChild : Bool := false
  subtreeValue : Bool := false
  closed : List BranchNode := []

def OpenNode.close (o : OpenNode) (k : Key) (t : Tlv) : BranchPlan where
  below := o.closed
  root :=
    { key := k
      store := o.store
      notify := if o.hasPointChild && o.subtreeValue then some (.branch k t)
        else o.store.map (.value k) }
  value := o.subtreeValue

mutual

/-- The walk below a node that was opened as `k`. -/
def parseOpened (k : Key) : Tlv → Except Status BranchPlan
  | .mk ty o p [] tr => .ok (OpenNode.close {} k (.mk ty o p [] tr))
  | .mk ty o p (name :: cs) tr =>
    match parseChildren k {} cs with
    | .error e => .error e
    | .ok node => .ok (node.close k (.mk ty o p (name :: cs) tr))

/-- The children after the leading `NAME`, in order. -/
def parseChildren (k : Key) (o : OpenNode) : List Tlv → Except Status OpenNode
  | [] => .ok o
  | c :: cs =>
    if c.type = VALUE then
      if o.store.isSome || !trailerLess c.opt then .error .TYPE_MISMATCH
      else parseChildren k { o with store := some c, subtreeValue := true } cs
    else if c.type = POINT then
      if !opens c then .error .TYPE_MISMATCH
      else if !legalSegment (leadingName c) then .error .INVALID_PATH
      else
        match parseOpened (leadingName c :: k) c with
        | .error e => .error e
        | .ok sub =>
          parseChildren k
            { o with
              hasPointChild := true
              subtreeValue := o.subtreeValue || sub.value
              closed := o.closed ++ sub.nodes } cs
    else .error .TYPE_MISMATCH

end

/-- `parse_branch_node`: the plan of a branch rooted at `k`. -/
def parseBranchNode (k : Key) (t : Tlv) : Except Status BranchPlan :=
  if opens t then parseOpened k t else .error .TYPE_MISMATCH

/-! ### Whatever is carried is stored -/

def Stores (plan : List BranchNode) (p : Key × Tlv) : Prop :=
  ∃ n ∈ plan, n.key = p.1 ∧ n.store = some p.2

def SelfCovering (plan : List BranchNode) : Prop :=
  ∀ n ∈ plan, ∀ f, n.notify = some f → ∀ p ∈ f.carried, Stores plan p

theorem Stores.mono {as bs : List BranchNode} {p : Key × Tlv} (h : Stores as p) (hsub : as ⊆ bs) :
    Stores bs p := by
  obtain ⟨n, hn, hp⟩ := h
  exact ⟨n, hsub hn, hp⟩

theorem SelfCovering.append {as bs : List BranchNode} (ha : SelfCovering as)
    (hb : SelfCovering bs) : SelfCovering (as ++ bs) := by
  intro n hn f hf p hp
  rcases mem_append.mp hn with hn | hn
  · exact (ha n hn f hf p hp).mono (subset_append_left as bs)
  · exact (hb n hn f hf p hp).mono (subset_append_right as bs)

def OpenNode.Holds (o : OpenNode) (k : Key) (p : Key × Tlv) : Prop :=
  (p.1 = k ∧ o.store = some p.2) ∨ Stores o.closed p

structure OpenNode.Grows (o o' : OpenNode) : Prop where
  store : ∀ x, o.store = some x → o'.store = some x
  closed : o.closed ⊆ o'.closed

theorem OpenNode.Holds.grows {o o' : OpenNode} {k : Key} {p : Key × Tlv} (h : o.Holds k p)
    (hg : o.Grows o') : o'.Holds k p := by
  rcases h with ⟨hk, hs⟩ | hs
  · exact Or.inl ⟨hk, hg.store _ hs⟩
  · exact Or.inr (hs.mono hg.closed)

theorem OpenNode.Grows.trans {o o' o'' : OpenNode} (h : o.Grows o') (h' : o'.Grows o'') : o.Grows o'' :=
  ⟨fun x hx => h'.store x (h.store x hx), fun _ hn => h'.closed (h.closed hn)⟩

/-- The parse of a node's children, done: it took in every value among them. -/
structure OpenNode.Took (o o' : OpenNode) (k : Key) (cs : List Tlv) : Prop where
  grows : o.Grows o'
  covering : SelfCovering o'.closed
  holds : ∀ p ∈ landingsOf k cs, o'.Holds k p

theorem landings_of_opens {k : Key} {ty : UInt8} {o : Opt} {pl : Bytes} {name : Tlv}
    {cs : List Tlv} {tr : Option Trailer} (h : opens (.mk ty o pl (name :: cs) tr) = true) :
    landings k (.mk ty o pl (name :: cs) tr) = landingsOf k cs := by
  have hname : name.type = NAME := by
    simp only [opens, TlvOf.children_mk, head?_cons, Option.any_some, Bool.and_eq_true, beq_iff_eq] at h
    exact h.2
  rw [landings, landingsOf, hname, if_neg (by decide), if_neg (by decide), nil_append]

theorem OpenNode.close_covers {o : OpenNode} {k : Key} {t : Tlv} (hcov : SelfCovering o.closed)
    (hholds : ∀ p ∈ landings k t, o.Holds k p) :
    SelfCovering (o.close k t).nodes ∧ ∀ p ∈ landings k t, Stores (o.close k t).nodes p := by
  have hroot : (o.close k t).root ∈ (o.close k t).nodes :=
    mem_append_right _ (mem_singleton.mpr rfl)
  have hstores : ∀ p, o.Holds k p → Stores (o.close k t).nodes p := by
    intro p hp
    rcases hp with ⟨hk, hs⟩ | hs
    · exact ⟨_, hroot, hk.symm, hs⟩
    · exact hs.mono (subset_append_left _ _)
  refine ⟨fun n hn f hf p hp => ?_, fun p hp => hstores p (hholds p hp)⟩
  rcases mem_append.mp hn with hn | hn
  · exact (hcov n hn f hf p hp).mono (subset_append_left _ _)
  rw [mem_singleton.mp hn] at hf
  -- an interior node is notified with the whole slice, a leaf with its own value
  by_cases hint : (o.hasPointChild && o.subtreeValue) = true
  · simp only [OpenNode.close, if_pos hint, Option.some.injEq] at hf
    subst hf
    exact hstores p (hholds p hp)
  simp only [OpenNode.close, if_neg hint, Option.map_eq_some_iff] at hf
  obtain ⟨x, hx, rfl⟩ := hf
  rw [mem_singleton.mp hp]
  exact hstores (k, x) (Or.inl ⟨rfl, hx⟩)

mutual

theorem parseOpened_covers : ∀ (t : Tlv) (k : Key) (plan : BranchPlan), opens t = true →
    parseOpened k t = .ok plan → SelfCovering plan.nodes ∧ ∀ p ∈ landings k t, Stores plan.nodes p
  | .mk ty o p [] tr, k, plan, hopen, h => by
    simp [opens] at hopen
  | .mk ty o p (name :: cs) tr, k, plan, hopen, h => by
    rw [parseOpened] at h
    split at h
    · cases h
    next node hnode =>
    cases h
    have htook := parseChildren_took cs k {} node (forall_mem_nil _) hnode
    refine OpenNode.close_covers htook.covering ?_
    rw [landings_of_opens hopen]
    exact htook.holds

theorem parseChildren_took : ∀ (cs : List Tlv) (k : Key) (o o' : OpenNode),
    SelfCovering o.closed → parseChildren k o cs = .ok o' → o.Took o' k cs
  | [], k, o, o', hcov, h => by
    rw [parseChildren] at h
    cases h
    exact ⟨⟨fun _ hx => hx, fun _ hn => hn⟩, hcov, forall_mem_nil _⟩
  | c :: cs, k, o, o', hcov, h => by
    rw [parseChildren] at h
    split at h
    next hv =>
      split at h
      · cases h
      next hfree =>
      have htook := parseChildren_took cs k
        { o with store := some c, subtreeValue := true } o' hcov h
      have hnone : o.store = none := by
        simpa using fun hs : o.store.isSome = true => hfree (by rw [hs]; rfl)
      refine ⟨⟨fun x hx => ?_, htook.grows.closed⟩, htook.covering, ?_⟩
      · rw [hnone] at hx
        cases hx
      · rw [landingsOf, if_pos hv]
        exact forall_mem_append.mpr
          ⟨forall_mem_singleton.mpr (.inl ⟨rfl, htook.grows.store c rfl⟩), htook.holds⟩
    next hv =>
    split at h
    next hpt =>
      split at h
      · cases h
      next hopen =>
      split at h
      · cases h
      split at h
      · cases h
      next sub hsub =>
      have hopen' : opens c = true := by simpa using hopen
      obtain ⟨hsubcov, hsubst⟩ := parseOpened_covers c _ sub hopen' hsub
      have htook := parseChildren_took cs k _ o' (hcov.append hsubcov) h
      have hgrow : o.Grows { o with
          hasPointChild := true
          subtreeValue := o.subtreeValue || sub.value
          closed := o.closed ++ sub.nodes } :=
        ⟨fun _ hx => hx, subset_append_left _ _⟩
      refine ⟨hgrow.trans htook.grows, htook.covering, fun p hp => ?_⟩
      rw [landingsOf, if_neg hv, if_pos hpt] at hp
      rcases mem_append.mp hp with hp | hp
      · refine OpenNode.Holds.grows (Or.inr ?_) htook.grows
        exact (hsubst p hp).mono (subset_append_right _ _)
      · exact htook.holds p hp
    · cases h

end

/-- **Whatever a slice of the plan carries, the plan also stores**, and so does it with whatever the
whole frame carries. -/
theorem parseBranchNode_covers {k : Key} {t : Tlv} {plan : BranchPlan}
    (h : parseBranchNode k t = .ok plan) :
    SelfCovering plan.nodes ∧ ∀ p ∈ landings k t, Stores plan.nodes p := by
  unfold parseBranchNode at h
  split at h
  next hopen => exact parseOpened_covers t k plan hopen h
  · cases h

end LibTracer.Graph
