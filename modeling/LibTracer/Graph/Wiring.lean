import LibTracer.Graph.AclCache
import LibTracer.Net.Peers
import Mathlib.Data.Char
import Mathlib.Data.List.Lex
import Mathlib.Data.List.Sort

/-!
# Vertices, subscription edges and listener counters

The control plane of a graph: which vertices exist, how each was declared, and which subscription
edges it holds.  A delivery has to reach the edges of a vertex and of all its ancestors, and a write
that nobody observes must not walk up the tree, so every vertex counts its own delivering edges and
those of its strict ancestors.  The counters are kept by subtree walks; delivery trusts them.
-/

namespace LibTracer.Graph

open List Function

/-! ## Declarations -/

inductive Role where
  | STORED_VALUE | STREAM | HANDLER
  deriving DecidableEq, Repr

/-- `delivery_mode_t`: whether a sweep of an ancestor includes the vertex. -/
inductive DeliveryMode where
  | IF_NEWER | UNCONDITIONAL | EXPLICIT
  deriving DecidableEq, Repr

inductive Retention where
  | NONE | LAST | N
  deriving DecidableEq, Repr

def defaultRetention : Role → Retention
  | .HANDLER => .NONE
  | .STREAM => .N
  | .STORED_VALUE => .LAST

def retentionLegal (role : Role) (r : Retention) : Bool :=
  r == .NONE || (r == .LAST && role == .STORED_VALUE) || (r == .N && role == .STREAM)

/-- `vertex_policy_t`, the members delivery depends on; one that is not named keeps what the vertex
has. -/
structure Policy where
  retention : Option Retention := none
  depth : Option Nat := none
  deliveryMode : Option DeliveryMode := none

def policyLegal (role : Role) (p : Policy) : Bool :=
  retentionLegal role (p.retention.getD (defaultRetention role))

/-! ## Edges and vertices -/

/-- `link_pair_t`, a valid one: the slot of the link's connection vertex and the bus peer under
it. -/
structure LinkPair where
  conn : Nat
  peer : Net.PeerHandle := Net.PeerHandle.none
  deriving DecidableEq, Repr

/-- `subscriber_remote_t`: whose edge it is, the link it was admitted over if one carried it, and the
routes its deliveries leave by.  The return route is empty for an edge to a local target. -/
structure SubscriberRemote where
  caller : Name
  link : Option LinkPair := none
  returnRoute : List UInt8 := []
  reverseRoute : List UInt8 := []
  deriving DecidableEq, Repr

/-- `subscriber_t`. -/
structure Edge where
  callback : Bool := false
  targetKey : Option Key := none
  remote : Option SubscriberRemote := none
  /-- The subscriber asked for the current value on admission. -/
  durabilityRequest : Bool := false
  deriving DecidableEq, Repr

/-- `edge_view_t::caller`: empty for an edge the owner made. -/
def Edge.caller (e : Edge) : Name :=
  match e.remote with
  | none => []
  | some r => r.caller

def Edge.hasRemoteLeg (e : Edge) : Bool := e.remote.any (!·.returnRoute.isEmpty)

/-- The link an edge was admitted over, as a departure matches it: the stored pair, or the caller of
a write that no link carried. -/
def Edge.admittedOver (e : Edge) (name : Name) (pair : Option LinkPair) : Bool :=
  e.remote.any fun r => if r.link.isSome then r.link == pair else r.caller == name

def kPathPairRecordBytes : Nat := 11

/-- The match of a refused route: the link, and the return route byte for byte, or for an echo
spelled in elements the reverse route past the element this node consumed. -/
def Edge.refusedRoute (e : Edge) (pair : Option LinkPair) (route : List UInt8) (boundEcho : Bool) :
    Bool :=
  e.remote.any fun r =>
    r.link.isSome && r.link == pair &&
      if !boundEcho then r.returnRoute == route
      else
        let revTail := r.reverseRoute.drop (4 + kPathPairRecordBytes)
        !revTail.isEmpty && route.drop 4 == revTail

/-- An occupied slot of `:subscribers[]`; a suspended one is not live. -/
structure Slot where
  edge : Edge
  live : Bool
  deriving DecidableEq, Repr

/-- `vertex_t`, what delivery reads of it apart from its values.  The defaults are a placeholder's. -/
structure Vertex where
  role : Role := .STORED_VALUE
  retainsNone : Bool := false
  retentionDepth : Nat := 1
  deliveryMode : DeliveryMode := .IF_NEWER
  deliverWritten : Bool := true
  enumHidden : Bool := false
  /-- `retire_gen_`: the tenancies that ended here. -/
  retireGen : BitVec 32 := 0
  slots : List (Option Slot) := []
  ownSubs : Nat := 0
  listenersAbove : Nat := 0

namespace Vertex

def delivers (s : Option Slot) : Bool := s.any (·.live)

def liveEdge (s : Option Slot) : Option Edge := s.bind fun s => if s.live then some s.edge else none

/-- `snapshot_edges`: the edges a fan-out dispatches, in slot order. -/
def snapshotEdges (v : Vertex) : List Edge := v.slots.filterMap liveEdge

/-- `add_edge`: the lowest cleared slot, or a new one at the end. -/
def addEdge (v : Vertex) (e : Edge) : Vertex × Nat :=
  let idx := v.slots.findIdx Option.isNone
  let slots := if idx = v.slots.length then v.slots ++ [none] else v.slots
  ({ v with slots := slots.set idx (some ⟨e, true⟩) }, idx)

/-- `clear_edge`: the vertex without the edge and the slot as it was, if there was one. -/
def clearEdge (v : Vertex) (idx : Nat) : Option (Vertex × Slot) :=
  match v.slots[idx]? with
  | some (some s) => some ({ v with slots := v.slots.set idx none }, s)
  | _ => none

/-- `replace_edge`: the vertex with the edge in the slot, and what the slot held before; `none` when
no slot has the index. -/
def replaceEdge (v : Vertex) (idx : Nat) (e : Edge) : Option (Vertex × Option Slot) :=
  match v.slots[idx]? with
  | some old => some ({ v with slots := v.slots.set idx (some ⟨e, true⟩) }, old)
  | none => none

/-- `set_edge_suspended`: `none` for no such edge, else the vertex and whether it changed. -/
def setEdgeSuspended (v : Vertex) (idx : Nat) (suspended : Bool) : Option (Vertex × Bool) :=
  match v.slots[idx]? with
  | some (some s) =>
    if s.live = suspended then
      some ({ v with slots := v.slots.set idx (some { s with live := !suspended }) }, true)
    else some (v, false)
  | _ => none

def hits (hit : Edge → Bool) (s : Option Slot) : Bool := s.any (hit ·.edge)

/-- `evict_link_edges`, `evict_route_edges` of a vertex: every hit slot is cleared.  Answers how many
there were and how many of them were suspended. -/
def evictEdges (v : Vertex) (hit : Edge → Bool) : Vertex × Nat × Nat :=
  ({ v with slots := v.slots.map fun s => if hits hit s then none else s },
    v.slots.countP (hits hit), v.slots.countP fun s => hits hit s && !delivers s)

/-- `set_retention`, as `apply_policy` calls it: a handler retains nothing by its role. -/
def setRetention (v : Vertex) (role : Role) (r : Retention) (depth : Nat) : Vertex :=
  if role = .HANDLER then v
  else
    { v with
      retainsNone := r == .NONE
      retentionDepth := if r = .N then depth else v.retentionDepth }

def liveCount (v : Vertex) : Nat := v.slots.countP delivers

end Vertex

/-! ## The tree -/

/-- `u` lies strictly below `v`. -/
def Under (v u : Key) : Prop := v <:+ u ∧ v ≠ u

instance (v u : Key) : Decidable (Under v u) := inferInstanceAs (Decidable (_ ∧ _))

theorem not_under_self (v : Key) : ¬ Under v v := fun h => h.2 rfl

variable {v : Key}

theorem under_cons {p : Key} {n : Name} : Under v (n :: p) ↔ v = p ∨ Under v p := by
  unfold Under
  constructor
  · rintro ⟨hsuf, hne⟩
    rcases suffix_cons_iff.mp hsuf with h | h
    · exact absurd h hne
    by_cases hp : v = p
    · exact Or.inl hp
    · exact Or.inr ⟨h, hp⟩
  · rintro (rfl | ⟨hsuf, -⟩)
    · exact ⟨suffix_cons n v, fun h => cons_ne_self n v h.symm⟩
    · refine ⟨hsuf.trans (suffix_cons n p), fun h => ?_⟩
      have hlen := hsuf.length_le
      rw [h, length_cons] at hlen
      omega

theorem not_under_nil (v : Key) : ¬ Under v [] := fun h => h.2 (suffix_nil.mp h.1)

def ancestors : Key → List Key
  | [] => []
  | _ :: q => q :: ancestors q

theorem mem_ancestors {u : Key} : v ∈ ancestors u ↔ Under v u := by
  induction u with
  | nil => simp [ancestors, not_under_nil]
  | cons n q ih => rw [ancestors, mem_cons, ih, under_cons]

def packed (k : Key) : List Nat := k.reverse.flatMap fun n => n.length :: n.map Char.toNat

def insertKey (k : Key) (set : List Key) : List Key :=
  if k ∈ set then set else set.orderedInsert (fun a b => packed a ≤ packed b) k

@[simp] theorem mem_insertKey {j k : Key} {set : List Key} : j ∈ insertKey k set ↔ j = k ∨ j ∈ set := by
  unfold insertKey
  split
  next h =>
    exact ⟨Or.inr, fun hj => hj.elim (fun e => e ▸ h) id⟩
  · rw [mem_orderedInsert]

structure Wiring where
  /-- The registrations and the stored `:acl` lists. -/
  acl : AclSpec
  /-- Every vertex allocated so far, placeholders included, in key order. -/
  known : List Key
  vertex : Key → Vertex
  /-- `vertex_slots_`: every allocation in order, the root first. -/
  slotTable : List Key
  /-- `unconditional_`: the vertices every covering sweep includes, in key order. -/
  unconditional : List Key

namespace Wiring

def start : Wiring where
  acl := ⟨fun _ => false, fun _ => []⟩
  known := [[]]
  vertex := fun _ => {}
  slotTable := [[]]
  unconditional := []

/-- `find_ptr`: a placeholder is no vertex. -/
def found (w : Wiring) (k : Key) : Bool := w.acl.registered k

def bubbles (w : Wiring) (k : Key) : Bool := 0 < (w.vertex k).listenersAbove

def modify (w : Wiring) (k : Key) (f : Vertex → Vertex) : Wiring :=
  { w with vertex := Function.update w.vertex k (f (w.vertex k)) }

@[simp] theorem modify_vertex (w : Wiring) (k : Key) (f : Vertex → Vertex) :
    (w.modify k f).vertex = update w.vertex k (f (w.vertex k)) := rfl

@[simp] theorem modify_known (w : Wiring) (k : Key) (f : Vertex → Vertex) :
    (w.modify k f).known = w.known := rfl

/-! ### Counting -/

/-- The `fetch_add` of a counter, for fewer than 2³² edges on a path to the root: it has 32 bits. -/
def bump (n : Nat) (delta : Int) : Nat := (n + delta).toNat

/-- `bump_subtree_listeners`: every allocated strict descendant. -/
def bumpSubtreeListeners (w : Wiring) (k : Key) (delta : Int) : Wiring :=
  { w with
    vertex := fun j =>
      if Under k j ∧ j ∈ w.known then
        { w.vertex j with listenersAbove := bump (w.vertex j).listenersAbove delta }
      else w.vertex j }

/-- `note_subscriber_added`, `note_subscriber_removed`. -/
def noteSubscriber (w : Wiring) (k : Key) (delta : Int) : Wiring :=
  (w.modify k fun v => { v with ownSubs := bump v.ownSubs delta }).bumpSubtreeListeners k delta

/-! ### Registration and retirement -/

/-- `make_placeholder` and `add_child`: a vertex born under subscribed ancestors starts with the
listeners its parent has above and at itself. -/
def makePlaceholder (w : Wiring) (n : Name) (p : Key) : Wiring :=
  { w with
    known := insertKey (n :: p) w.known
    vertex := Function.update w.vertex (n :: p)
      { listenersAbove := (w.vertex p).listenersAbove + (w.vertex p).ownSubs }
    slotTable := w.slotTable ++ [n :: p] }

def ensure (w : Wiring) : Key → Wiring
  | [] => w
  | n :: p =>
    let w := w.ensure p
    if n :: p ∈ w.known then w else w.makePlaceholder n p

/-- `apply_delivery_mode`, its half of the sweep sets. -/
def applyDeliveryMode (w : Wiring) (k : Key) (mode : DeliveryMode) : Wiring :=
  let w := w.modify k fun v => { v with deliveryMode := mode }
  { w with
    unconditional :=
      if mode = .UNCONDITIONAL then insertKey k w.unconditional else w.unconditional.erase k }

/-- `apply_policy`, its half of the control plane.  `retention` is what an unset one stands for. -/
def applyPolicy (w : Wiring) (k : Key) (role : Role) (p : Policy) (retention : Retention) :
    Wiring :=
  let v := w.vertex k
  let w := w.modify k fun v =>
    v.setRetention role (p.retention.getD retention) (p.depth.getD v.retentionDepth)
  let mode := p.deliveryMode.getD v.deliveryMode
  if mode = v.deliveryMode then w else w.applyDeliveryMode k mode

/-- `register_vertex_key_span`. -/
def register (w : Wiring) (k : Key) (role : Role) (deliverWritten : Bool) (p : Policy) :
    Except Status Wiring :=
  if !policyLegal role p then .error .SCHEMA_NOT_FOUND
  else if (w.ensure k).found k then .error .PATH_IN_USE
  else
    let w := ((w.ensure k).applyPolicy k role p (defaultRetention role)).modify k fun v =>
      { v with role, deliverWritten }
    .ok { w with acl := (w.acl.step (.register k)).1 }

def kGenerationSaturated : BitVec 32 := BitVec.allOnes 32

def saturatingNextGeneration (g : BitVec 32) : BitVec 32 :=
  if g = kGenerationSaturated then g else g + 1

/-- `retire_one`: the contribution to the listeners below goes first, then the vertex reverts to a
placeholder of the next generation.  What stands above it is none of its own. -/
def retireOne (w : Wiring) (k : Key) : Wiring :=
  (w.bumpSubtreeListeners k (-(w.vertex k).ownSubs)).modify k fun v =>
    { listenersAbove := v.listenersAbove, retireGen := saturatingNextGeneration v.retireGen }

/-- `retire_subtree`: the whole subtree is unregistered, then each of its vertices reverts; its keys
leave the sweep set. -/
def retireSubtree (w : Wiring) (k : Key) : Wiring :=
  let w := { w with acl := (w.acl.step (.retire k)).1 }
  let w := (w.known.filter (k <:+ ·)).foldl retireOne w
  { w with unconditional := w.unconditional.filter (¬ k <:+ ·) }

/-- `write_acl`, stored. -/
def writeAcl (w : Wiring) (k : Key) (aces : List Ace) : Wiring :=
  { w with acl := (w.acl.step (.writeAcl k aces .granted)).1 }

/-! ### Subscriptions -/

def addEdge (w : Wiring) (k : Key) (e : Edge) : Wiring :=
  (w.noteSubscriber k 1).modify k fun v => (v.addEdge e).1

/-- The counting halves of a replace around the slot verb: a replace that displaced a delivering
edge gives its count back.  `none` when no slot has the index. -/
def replaceEdge (w : Wiring) (k : Key) (slot : Nat) (e : Edge) : Option Wiring :=
  let w := w.noteSubscriber k 1
  match (w.vertex k).replaceEdge slot e with
  | none => none
  | some (v, old) =>
    let w := w.modify k fun _ => v
    some (if Vertex.delivers old then w.noteSubscriber k (-1) else w)

/-- `clear_subscriber_slot`: a suspended edge was not counted. -/
def clearSubscriberSlot (w : Wiring) (k : Key) (slot : Nat) : Option Wiring :=
  match (w.vertex k).clearEdge slot with
  | none => none
  | some (v, s) =>
    let w := w.modify k fun _ => v
    some (if s.live then w.noteSubscriber k (-1) else w)

/-- `set_suspended`: a resume counts first and gives the count back if nothing changed, a suspend
uncounts after the flip. -/
def setSuspended (w : Wiring) (k : Key) (slot : Nat) (suspended : Bool) : Option Wiring :=
  let up : Int := if suspended then 0 else 1
  let w := w.noteSubscriber k up
  match (w.vertex k).setEdgeSuspended slot suspended with
  | none => none
  | some (v, changed) =>
    some ((w.modify k fun _ => v).noteSubscriber k (-(if changed then 1 - up else up)))

/-- The eviction at one vertex: the count of the edges that delivered is given back. -/
def evictAt (hit : Edge → Bool) (w : Wiring) (k : Key) : Wiring :=
  let (v, n, quiet) := (w.vertex k).evictEdges hit
  if n = 0 then w else (w.modify k fun _ => v).noteSubscriber k (-((n : Int) - quiet))

def evictEdges (w : Wiring) (candidates : List Key) (hit : Edge → Bool) : Wiring :=
  candidates.foldl (evictAt hit) w

end Wiring

end LibTracer.Graph
