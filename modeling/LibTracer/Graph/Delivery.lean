import LibTracer.Graph.Branch
import LibTracer.Lib.Emit

/-!
# Writes, sweeps and deliveries

The data plane of a graph.  A write stores a value and hands it to the subscription edges of its
vertex and of every ancestor; an assign stores and marks, and a sweep delivers later what was
marked.  Nothing here changes the wiring: an operation runs against a `Plane`, and moves a `Store`.
-/

namespace LibTracer.Graph

open Wire List

/-! ## Stored values -/

/-- `value_ref_t`: a published value, and the block it lives in. -/
structure Ref where
  block : Nat
  value : Tlv

/-- `ring_state_t`: the queue of a `STREAM`, oldest first. -/
structure Ring where
  entries : List Ref := []
  appendedSinceFlush : Nat := 0

namespace Ring

/-- `admit_locked`: the oldest entries make room first, and a depth of zero is one. -/
def admitLocked (q : Ring) (depth : Nat) (r : Ref) : Ring where
  entries := q.entries.drop (q.entries.length + 1 - max depth 1) ++ [r]
  appendedSinceFlush := q.appendedSinceFlush + 1

/-- `mark_flushed`. -/
def flush (q : Ring) : Ring := { q with appendedSinceFlush := 0 }

/-- `take_locked`: the newest entries, as many as were appended since the last flush and are still
there. -/
def unflushed (q : Ring) : List Ref :=
  q.entries.drop (q.entries.length - min q.appendedSinceFlush q.entries.length)

theorem mem_unflushed_admitLocked (q : Ring) (depth : Nat) (r : Ref) :
    r ∈ (q.admitLocked depth r).unflushed := by
  unfold unflushed admitLocked
  rw [drop_append_of_le_length (by simp only [length_append, length_singleton]; omega)]
  exact mem_append_right _ (mem_singleton.mpr rfl)

theorem length_unflushed_admitLocked (q : Ring) (depth : Nat) (r : Ref) :
    (q.admitLocked depth r).unflushed.length ≤ q.unflushed.length + 1 := by
  simp only [unflushed, admitLocked, length_drop, length_append, length_singleton]
  omega

end Ring

structure Store where
  lkv : Key → Option Ref := fun _ => none
  ring : Key → Ring := fun _ => {}
  /-- `pending_`: the vertices marked for the next covering sweep, in key order. -/
  pending : List Key := []
  nextBlock : Nat := 0

namespace Store

def hold (s : Store) (x : Tlv) : Option Nat → Ref × Store
  | some b => (⟨b, x⟩, s)
  | none => (⟨s.nextBlock, x⟩, { s with nextBlock := s.nextBlock + 1 })

def setRing (s : Store) (k : Key) (q : Ring) : Store :=
  { s with ring := Function.update s.ring k q }

/-- `publish_value`: a vertex that retains nothing keeps nothing. -/
def publish (s : Store) (v : Vertex) (k : Key) (r : Ref) : Store :=
  if v.retainsNone then s
  else
    let s := { s with lkv := Function.update s.lkv k (some r) }
    if v.role = .STREAM then s.setRing k ((s.ring k).admitLocked v.retentionDepth r) else s

end Store

/-! ## The surroundings of an operation -/

/-- What the embedder supplies while an operation runs.  Operations run one at a time, so a hook is
never read while it is being replaced. -/
structure Env where
  lookup : SubjectLookup
  settled : lookup ≠ .unsettled
  /-- A remote sink is installed. -/
  sink : Bool := true
  /-- `on_write` of a handler: the key, the value and the caller. -/
  onWrite : Key → Tlv → Name → Except Status Unit := fun _ _ _ => .ok ()
  /-- `on_admit`: refuse, admit as it is, or admit another value instead. -/
  onAdmit : Key → Tlv → Name → Except Status (Option Tlv) := fun _ _ _ => .ok none

structure Plane where
  policy : AclPolicy
  env : Env
  wiring : Wiring

inductive Leg where
  | callback
  | target (t : Key)
  | remote
  deriving DecidableEq, Repr

/-- One hand-over of a frame: to which edge of which vertex, and by which leg. -/
structure Delivery where
  point : Key
  edge : Edge
  leg : Leg
  frame : Frame

/-- A value to deliver; `block` is where it is stored, if it is. -/
structure Message where
  frame : Frame
  block : Option Nat := none

/-- A stored value of `k`, to deliver. -/
def Ref.message (r : Ref) (k : Key) : Message := ⟨.value k r.value, some r.block⟩

/-- What an operation of the data plane leaves, sends and answers; `none` is success. -/
structure Outcome where
  store : Store
  sent : List Delivery
  status : Option Status

def Outcome.refused (s : Store) (e : Status) : Outcome := ⟨s, [], some e⟩

def Outcome.ran (r : Store × List Delivery) : Outcome := ⟨r.1, r.2, none⟩

@[simp] theorem Outcome.sent_ran (r : Store × List Delivery) : (Outcome.ran r).sent = r.2 := rfl

namespace Plane

variable (p : Plane)

def vertex (k : Key) : Vertex := p.wiring.vertex k

def found (k : Key) : Bool := p.wiring.found k

/-- `acl_allows`. -/
def allows (k : Key) (caller : Name) (right : AclRight) : Bool :=
  reference p.policy p.env.lookup p.wiring.acl k caller right

def observed (k : Key) : Bool := (p.vertex k).ownSubs != 0 || (p.vertex k).listenersAbove != 0

/-! ## Storing -/

/-- `store_value`: a handler consumes the value; any other vertex admits it first, perhaps changed,
and publishes what was admitted.  `block` is the block the value is already in. -/
def storeValue (k : Key) (x : Tlv) (block : Option Nat) (caller : Name) (s : Store) :
    Except Status (Store × Option Ref) :=
  if (p.vertex k).role = .HANDLER then
    match p.env.onWrite k x caller with
    | .error e => .error e
    | .ok () => .ok (s, none)
  else
    match p.env.onAdmit k x caller with
    | .error e => .error e
    | .ok changed =>
      let (r, s) := s.hold (changed.getD x) (if changed.isSome then none else block)
      .ok (s.publish (p.vertex k) k r, some r)

/-- `mark_pending`: only a vertex swept when it is newer, and only if somebody observes it. -/
def markPending (k : Key) (s : Store) : Store :=
  if (p.vertex k).deliveryMode = .IF_NEWER && p.observed k then
    { s with pending := insertKey k s.pending }
  else s

/-- `clear_pending`: the mark stays while the vertex holds a value other than the delivered one. -/
def clearPending (k : Key) (delivered : Option Nat) (s : Store) : Store :=
  if p.observed k && (s.lkv k).map Ref.block == delivered then
    { s with pending := s.pending.erase k }
  else s

/-! ## Dispatch -/

/-- `dispatch_edge_target`: an ordinary store under the edge's caller; a refusal drops the delivery,
and the target's own edges are not dispatched. -/
def dispatchEdgeTarget (point : Key) (e : Edge) (t : Key) (m : Message) : Emitter Store Delivery :=
  fun s =>
    if !p.found t then (s, [])
    else if !p.allows t e.caller .WRITE then (s, [])
    else
      match p.storeValue t m.frame.tlv m.block e.caller s with
      | .error _ => (s, [])
      | .ok (s, _) => (s, [⟨point, e, .target t, m.frame⟩])

/-- `dispatch_edge`: the legs in order.  What the edge's caller may read is not asked. -/
def dispatchEdge (point : Key) (m : Message) (e : Edge) : Emitter Store Delivery :=
  ((if e.callback then Emitter.send ⟨point, e, .callback, m.frame⟩ else Emitter.skip).andThen
    (match e.targetKey with
      | none => Emitter.skip
      | some t => p.dispatchEdgeTarget point e t m)).andThen
    (if e.hasRemoteLeg && p.env.sink then Emitter.send ⟨point, e, .remote, m.frame⟩
      else Emitter.skip)

def fanOut (k : Key) (m : Message) : Emitter Store Delivery :=
  if (p.vertex k).ownSubs = 0 then Emitter.skip
  else Emitter.all (p.dispatchEdge k m) (p.vertex k).snapshotEdges

def bubbleUp (k : Key) (m : Message) : Emitter Store Delivery :=
  Emitter.all (fun a => p.fanOut a m) (ancestors k)

/-- The bubbling of every delivering operation: entered only if somebody listens above. -/
def bubbleIfHeard (k : Key) (m : Message) : Emitter Store Delivery :=
  if p.wiring.bubbles k then p.bubbleUp k m else Emitter.skip

def deliverVertex (k : Key) (m : Message) : Emitter Store Delivery :=
  (p.fanOut k m).andThen (p.bubbleIfHeard k m)

/-- `deliver_current`: a stream flushes its queue, any other vertex delivers what it holds. -/
def deliverCurrent (k : Key) : Emitter Store Delivery := fun s =>
  if (p.vertex k).role = .STREAM then
    Emitter.all (fun r => p.deliverVertex k (r.message k)) (s.ring k).unflushed
      (s.setRing k (s.ring k).flush)
  else
    match s.lkv k with
    | none => (s, [])
    | some r => p.deliverVertex k (r.message k) s

/-! ## Writes -/

/-- `handler_write_deliver`: a peer's write is handed on only if the handler delivers what it is
written. -/
def handlerWriteDeliver (k : Key) (x : Tlv) (caller : Name) (s : Store) : Outcome :=
  match p.env.onWrite k x caller with
  | .error e => .refused s e
  | .ok () =>
    let deliver :=
      if caller.isEmpty || (p.vertex k).deliverWritten then p.deliverVertex k ⟨.value k x, none⟩
      else Emitter.skip
    .ran (deliver.andThen (Emitter.silent (p.clearPending k none)) s)

/-- `relay_write`: admitted and delivered, and kept nowhere. -/
def relayWrite (k : Key) (x : Tlv) (caller : Name) (s : Store) : Outcome :=
  match p.env.onAdmit k x caller with
  | .error e => .refused s e
  | .ok changed => .ran (p.deliverVertex k ⟨.value k (changed.getD x), none⟩ s)

/-- The delivery of a write that stored: a stream flushes, any other vertex hands on exactly what it
stored. -/
def deliverStored (k : Key) (stored : Option Ref) : Emitter Store Delivery :=
  let deliver : Emitter Store Delivery :=
    match stored with
    | none => Emitter.skip
    | some r =>
      if (p.vertex k).role = .STREAM then p.deliverCurrent k
      else p.deliverVertex k (r.message k)
  deliver.andThen (Emitter.silent (p.clearPending k (stored.map Ref.block)))

/-! ### Branch writes -/

/-- A node of the plan after the apply pass: whether a value landed there or was refused, and the
block it is stored in. -/
structure LandedNode extends BranchNode where
  refused : Bool := false
  stored : Option Nat := none

def siteRefusal (caller : Name) (n : BranchNode) : Option Status :=
  if n.store.isNone then none
  else if !p.found n.key then some .NOT_FOUND
  else if !p.allows n.key caller .WRITE then some .PERMISSION_DENIED
  else none

/-- The apply pass at one node: a site may refuse its slice and un-lands nothing else.  Exhaustion is
no verdict on the value. -/
def land (caller : Name) (n : BranchNode) (s : Store) : LandedNode × Store :=
  match n.store with
  | none => ({ n with }, s)
  | some x =>
    match p.storeValue n.key x none caller s with
    | .error e => ({ n with refused := e != .BACKPRESSURE }, s)
    | .ok (s, r) => ({ n with stored := r.map Ref.block }, s)

def landAll (caller : Name) : List BranchNode → Store → List LandedNode × Store
  | [], s => ([], s)
  | n :: ns, s =>
    let (n, s) := p.land caller n s
    let (ns, s) := landAll caller ns s
    (n :: ns, s)

/-- `fan_out_slice`: a handler that does not deliver what a peer wrote delivers no slice of it. -/
def fanOutSlice (caller : Name) (k : Key) (f : Frame) : Emitter Store Delivery :=
  let v := p.vertex k
  if !caller.isEmpty && v.role = .HANDLER && !v.deliverWritten then Emitter.skip
  else p.fanOut k ⟨f, none⟩

def notifyNode (caller : Name) (n : LandedNode) : Emitter Store Delivery :=
  match n.notify with
  | none => Emitter.skip
  | some f => if n.refused || !p.found n.key then Emitter.skip else p.fanOutSlice caller n.key f

def settleNode (s : Store) (n : LandedNode) : Store :=
  if n.store.isNone then s
  else
    let s := p.clearPending n.key n.stored s
    if (p.vertex n.key).role = .STREAM then s.setRing n.key (s.ring n.key).flush else s

/-- `write_branch`: the root is notified with the whole written frame, and so is whoever listens
above it; every other node with its slice. -/
def writeBranch (k : Key) (t : Tlv) (caller : Name) (notify : Bool) (s : Store) : Outcome :=
  match parseBranchNode k t with
  | .error e => .refused s e
  | .ok plan =>
    if leadingName t ≠ k.headD [] then .refused s .INVALID_PATH
    else if !plan.value then .ran (s, [])
    else
      match plan.below.findSome? (p.siteRefusal caller) with
      | some e => .refused s e
      | none =>
        let whole : Frame := .branch k t
        let (nodes, s) :=
          p.landAll caller (plan.below ++ [{ plan.root with notify := some whole }]) s
        if notify then
          .ran ((((Emitter.all (p.notifyNode caller) nodes).andThen
            (p.bubbleIfHeard k ⟨whole, none⟩)).andThen
            (Emitter.silent fun s => nodes.foldl p.settleNode s)) s)
        else
          .ran ((nodes.filter (·.store.isSome)).foldl (fun s n => p.markPending n.key s) s, [])

/-- `write_impl`. -/
def write (k : Key) (x : Tlv) (caller : Name) (s : Store) : Outcome :=
  if !p.allows k caller .WRITE then .refused s .PERMISSION_DENIED
  else if isBranchPoint x (p.vertex k).role then p.writeBranch k x caller true s
  else if (p.vertex k).role = .HANDLER then p.handlerWriteDeliver k x caller s
  else if (p.vertex k).retainsNone then p.relayWrite k x caller s
  else
    match p.storeValue k x none caller s with
    | .error e => .refused s e
    | .ok (s, stored) => .ran (p.deliverStored k stored s)

def retains (k : Key) : Bool := (p.vertex k).role != .HANDLER && !(p.vertex k).retainsNone

/-- `assign`: the value is stored and marked, and nothing is sent. -/
def assign (k : Key) (x : Tlv) (caller : Name) (s : Store) : Outcome :=
  if !p.allows k caller .WRITE then .refused s .PERMISSION_DENIED
  else if !p.retains k then .refused s .SCHEMA_NOT_FOUND
  else if isBranchPoint x (p.vertex k).role then p.writeBranch k x caller false s
  else
    match p.storeValue k x none caller s with
    | .error e => .refused s e
    | .ok (s, _) => .ran (p.markPending k s, [])

/-! ## Sweeps -/

/-- The strict descendants a sweep of `k` covers: those marked, then those always included. -/
def due (k : Key) (s : Store) : List Key :=
  s.pending.filter (Under k ·) ++ p.wiring.unconditional.filter (Under k ·)

/-- `propagate`: the vertex itself, then every due descendant that is still there; the marks of the
whole subtree are drained first. -/
def propagate (k : Key) (s : Store) : Outcome :=
  if !p.retains k then .refused s .SCHEMA_NOT_FOUND
  else
    .ran ((p.deliverCurrent k).andThen (fun s =>
      Emitter.all p.deliverCurrent ((p.due k s).filter p.found)
        { s with pending := s.pending.filter (¬ k <:+ ·) }) s)

/-- `fold_node_t`: a node of the table of a folded sweep.  A skeleton node is not selected and
contributes no value. -/
structure FoldNode where
  key : Key
  found : Bool
  lkv : Option Ref := none
  selected : Bool := false

def putNode (n : FoldNode) (table : List FoldNode) : List FoldNode :=
  (table.filter (·.key ≠ n.key)).orderedInsert (fun a b => packed a.key ≤ packed b.key) n

/-- The admission of one node to the table: a selected vertex contributes the plain value it holds.
The queue of a stream has no seat in a fold. -/
def admitNode (s : Store) (key : Key) (selected : Bool) (table : List FoldNode) :
    Except Status (List FoldNode) :=
  let n := (table.find? (·.key = key)).getD { key, found := p.found key }
  if !n.found || !selected || n.selected then .ok (putNode n table)
  else if (p.vertex key).role = .STREAM then .error .TYPE_MISMATCH
  else
    match s.lkv key with
    | none => .ok (putNode { n with selected := true } table)
    | some r =>
      if r.value.type = VALUE && trailerLess r.value.opt then
        .ok (putNode { n with selected := true, lkv := some r } table)
      else .error .TYPE_MISMATCH

def levels (root : Key) (key : Key) : List Key :=
  if key = root then []
  else
    match key with
    | [] => []
    | n :: q => (n :: q) :: levels root q

def admitPath (s : Store) (root key : Key) (table : List FoldNode) : Except Status (List FoldNode) :=
  (levels root key).foldlM (fun table q => p.admitNode s q (q = key) table) table

def foldTable (k : Key) (s : Store) : Except Status (List FoldNode) := do
  let table ← p.admitNode s k true [{ key := k, found := true }]
  (p.due k s).foldlM (fun table key => p.admitPath s k key table) table

/-- The frames of the table, deepest first: each joins those of its parent, and one whose vertex is
gone is left out with everything below it. -/
def foldFrames : List FoldNode → (Key → List Fold) × List (FoldNode × Fold)
  | [] => (fun _ => [], [])
  | n :: ns =>
    let (kids, frames) := foldFrames ns
    if !n.found then (kids, frames)
    else
      let f := Fold.node n.key (n.lkv.map Ref.value) (kids n.key)
      (Function.update kids n.key.tail (kids n.key.tail ++ [f]), (n, f) :: frames)

/-- The delivery of a node below the root: its value if nothing lies below it, else its frame. -/
def deliverNode (n : FoldNode × Fold) : Emitter Store Delivery :=
  if n.2.kids.isEmpty then
    match n.1.lkv with
    | none => Emitter.skip
    | some r => p.fanOut n.1.key (r.message n.1.key)
  else p.fanOut n.1.key ⟨.fold true n.2, none⟩

/-- `propagate_folded_impl`: one frame for the whole sweep, handed to every covered vertex as the
slice below it, and whole to the root and above. -/
def propagateFolded (k : Key) (s : Store) : Outcome :=
  if !p.retains k then .refused s .SCHEMA_NOT_FOUND
  else
    match p.foldTable k s with
    | .error e => .refused s e
    | .ok table =>
      match (foldFrames table).2 with
      | [] => .ran (s, [])
      | (_, f) :: below =>
        let whole : Message := ⟨.fold true f, none⟩
        .ran ((((Emitter.all p.deliverNode below.reverse).andThen (p.fanOut k whole)).andThen
          (p.bubbleIfHeard k whole)).andThen
          (Emitter.silent fun s =>
            (table.filter (·.selected)).foldl
              (fun s n => p.clearPending n.key (n.lkv.map Ref.block) s) s) s)

end Plane

end LibTracer.Graph
