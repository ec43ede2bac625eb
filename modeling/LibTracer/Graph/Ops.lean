import LibTracer.Graph.Delivered
import LibTracer.Graph.LinkIndex

/-!
# The graph as a machine

`graph_t`, one operation at a time: the control plane, the stored values and the departure index
move together.  A subscription enters through one of three doors — a local callback, the
`:subscribers` field, a remote subscribe over a link — and all three end in one admission.

* `Control` — everything an operation can do to the control plane and the index, as a list of moves.
-/

namespace LibTracer.Graph

open Wire

/-! ## Operations -/

/-- `write_ctx_t`: who writes, and the link that carried the write if one did. -/
structure WriteCtx where
  subject : Name := []
  session : Name := []
  sessionLink : Option LinkPair := none
  deriving DecidableEq, Repr

/-- A `SUBSCRIBER` record, parsed. -/
structure Record where
  targetKey : Option Key
  durability : Bool := false
  deriving DecidableEq, Repr

/-- `wire_target_split_t`: what the transport plane makes of a remote subscriber's target. -/
inductive TargetSplit where
  /-- No mount is named: the edge delivers where the subscribe came from. -/
  | arrival
  | unroutable
  /-- A mount is named, and there is a rest below it. -/
  | mount (link : Name) (route : List UInt8) (token : LinkToken) (pair : LinkPair)
  deriving DecidableEq, Repr

def LinkToken.none : LinkToken := ⟨0, 0⟩

/-- A remote subscribe as the resolver hands it to `subscribe_wire`. -/
structure WireSubscribe where
  record : Record
  returnRoute : List UInt8
  link : Name
  reverseRoute : List UInt8 := []
  caller : Name := []
  token : LinkToken := .none
  pair : Option LinkPair
  split : TargetSplit := .arrival
  deriving DecidableEq, Repr

/-- What is written to `:subscribers[N]`: the eviction sentinel, or a record. -/
inductive SlotWrite where
  | clear
  | record (r : Record)
  deriving DecidableEq, Repr

inductive Op where
  | register (k : Key) (role : Role) (deliverWritten : Bool) (policy : Policy)
  | retire (k : Key)
  | writeAcl (k : Key) (aces : List Ace) (caller : Name)
  | setPolicy (k : Key) (policy : Policy)
  | hide (k : Key) (hidden : Bool)
  | subscribeCallback (k : Key) (durability : Bool)
  | subscribeField (k : Key) (record : Record) (ctx : WriteCtx)
  | subscribeWire (k : Key) (request : WireSubscribe)
  | writeSlot (k : Key) (slot : Nat) (payload : SlotWrite) (ctx : WriteCtx)
  | unsubscribe (k : Key) (slot : Nat)
  | setSuspended (k : Key) (slot : Nat) (suspended : Bool)
  | evictLink (name : Name) (pair : Option LinkPair)
  | evictRoute (name : Name) (pair : Option LinkPair) (route : List UInt8)
  | internLink (name : Name)
  | candidateCount (name : Name)
  | write (k : Key) (x : Tlv) (caller : Name)
  | assign (k : Key) (x : Tlv) (caller : Name)
  | propagate (k : Key) (fold : Bool)

structure Event where
  env : Env
  op : Op

/-- What an operation hands out and answers; no status is success. -/
structure Reply where
  sent : List Delivery := []
  status : Option Status := none

/-- `graph_t`. -/
structure State where
  wiring : Wiring := .start
  store : Store := {}
  index : LinkIndex Key := {}

/-! ## Stored values under control operations -/

namespace Store

/-- The data half of `apply_policy`: a vertex that came to retain nothing drops what it holds, one
that left `IF_NEWER` its mark. -/
def applyPolicy (s : Store) (k : Key) (before after : Vertex) : Store where
  lkv := if after.retainsNone then Function.update s.lkv k none else s.lkv
  ring := if after.retainsNone then Function.update s.ring k {} else s.ring
  pending :=
    if before.deliveryMode ≠ after.deliveryMode ∧ after.deliveryMode ≠ .IF_NEWER then
      s.pending.erase k
    else s.pending
  nextBlock := s.nextBlock

/-- The data half of `retire_subtree`. -/
def retireSubtree (s : Store) (k : Key) : Store where
  lkv := fun j => if k <:+ j then none else s.lkv j
  ring := fun j => if k <:+ j then {} else s.ring j
  pending := s.pending.filter (¬ k <:+ ·)
  nextBlock := s.nextBlock

end Store

/-! ## Subscribing -/

namespace State

def plane (policy : AclPolicy) (env : Env) (g : State) : Plane := ⟨policy, env, g.wiring⟩

def refuse (g : State) (e : Status) : State × Reply := (g, { status := some e })

def latch (p : Plane) (g : State) (k : Key) (e : Edge) : State × Reply :=
  if !e.durabilityRequest then (g, {})
  else
    match g.store.lkv k with
    | none => (g, {})
    | some r =>
      let (store, sent) := { p with wiring := g.wiring }.dispatchEdge k (r.message k) e g.store
      ({ g with store }, { sent })

/-- `admit_session`: an edge of a link is indexed under the name its departure goes by. -/
def indexed (e : Edge) (session : Name) (token : LinkToken) (k : Key) (index : LinkIndex Key) :
    LinkIndex Key :=
  if e.remote.isSome then index.indexVertex session token k else index

/-- `admit_subscriber`: the one admission of every door.  An append is gated by `READ`, a replace
was gated by its own door; the vertex is indexed before the edge is there, and stays indexed when
the replace is refused. -/
def admitSubscriber (p : Plane) (g : State) (k : Key) (e : Edge) (caller : Name)
    (slot : Option Nat) (token : LinkToken) (session : Name) : State × Reply :=
  if slot.isNone && !p.allows k caller .READ then g.refuse .PERMISSION_DENIED
  else
    let g := { g with index := indexed e session token k g.index }
    match slot with
    | none => latch p { g with wiring := g.wiring.addEdge k e } k e
    | some slot =>
      match g.wiring.replaceEdge k slot e with
      | none => g.refuse .INVALID_PATH
      | some wiring => latch p { g with wiring } k e

/-- The edge a write to `:subscribers` makes, and the name its departure goes by. -/
def fieldEdge (r : Record) (ctx : WriteCtx) : Edge where
  targetKey := r.targetKey
  remote := if ctx.subject.isEmpty then none else some { caller := ctx.subject, link := ctx.sessionLink }
  durabilityRequest := r.durability

def fieldSession (ctx : WriteCtx) : Name :=
  if ctx.sessionLink.isSome then ctx.session else ctx.subject

/-- The admission half of `write_subscribers`: a record without a target has nowhere to deliver. -/
def writeRecord (p : Plane) (g : State) (k : Key) (r : Record) (ctx : WriteCtx)
    (slot : Option Nat) : State × Reply :=
  if r.targetKey.isNone then g.refuse .TYPE_MISMATCH
  else
    g.admitSubscriber p k (fieldEdge r ctx) ctx.subject slot .none (fieldSession ctx)

/-- `edge_holder`: the cold half of the edge in a slot. -/
def edgeHolder (v : Vertex) (slot : Nat) : Option SubscriberRemote :=
  (v.slots[slot]?.join).bind fun s => s.edge.remote

/-- `may_write_slot`: the owner, or with `READ` the holder of the slot. -/
def mayWriteSlot (p : Plane) (k : Key) (slot : Nat) (caller : Name) : Bool :=
  if caller.isEmpty then true
  else if !p.allows k caller .READ then false
  else
    match edgeHolder (p.vertex k) slot with
    | none => false
    | some r =>
      if r.caller.isEmpty then false
      else
        match p.env.lookup with
        | .unsettled => false
        | .notInstalled | .cleared => r.caller == caller
        | .resolver resolve =>
          match resolve r.caller, resolve caller with
          | some (a, _), some (b, _) => !isReservedSubject a && a == b
          | _, _ => false

def gateCtx (q : WireSubscribe) : Name := if q.caller.isEmpty then q.link else q.caller

/-- The edge of a remote subscribe and the name its departure goes by: those of the mount its target
leads through, or of the link it came over.  The target itself is never bound locally. -/
def wireEdge (q : WireSubscribe) : Edge × Name :=
  let edge (pair : Option LinkPair) (route reverse : List UInt8) : Edge :=
    { remote := some { caller := gateCtx q, link := pair, returnRoute := route, reverseRoute := reverse }
      durabilityRequest := q.record.durability }
  match q.record.targetKey, q.split with
  | some _, .mount link route _ pair => (edge pair route [], link)
  | _, _ => (edge q.pair q.returnRoute q.reverseRoute, q.link)

/-- `subscribe_wire`: without a route, a link or its pair there is nowhere to deliver. -/
def subscribeWire (p : Plane) (g : State) (k : Key) (q : WireSubscribe) : State × Reply :=
  if q.returnRoute.isEmpty || q.link.isEmpty || q.pair.isNone then g.refuse .INVALID_PATH
  else if q.record.targetKey.isSome && q.split == .unroutable then g.refuse .INVALID_PATH
  else
    let token :=
      match q.record.targetKey, q.split with
      | some _, .mount _ _ token _ => token
      | _, _ => q.token
    let (e, session) := wireEdge q
    g.admitSubscriber p k e (gateCtx q) none token session

/-- `write_subscribers` at a slot. -/
def writeSlot (p : Plane) (g : State) (k : Key) (slot : Nat) (payload : SlotWrite) (ctx : WriteCtx) :
    State × Reply :=
  if !mayWriteSlot p k slot ctx.subject then g.refuse .PERMISSION_DENIED
  else
    match payload with
    | .clear => ({ g with wiring := (g.wiring.clearSubscriberSlot k slot).getD g.wiring }, {})
    | .record r => g.writeRecord p k r ctx (some slot)

/-! ## Departures -/

/-- `evict_link_edges`: the candidates of the name are taken out of the index and lose the edges the
link admitted.  The empty name matches nothing. -/
def evictLink (g : State) (name : Name) (pair : Option LinkPair) : State :=
  if name.isEmpty then g
  else
    let (candidates, index) := g.index.candidates name true
    { g with wiring := g.wiring.evictEdges candidates (·.admittedOver name pair), index }

/-- The type octet of a `PATH`. -/
def PATH : UInt8 := 0x06

/-- An echo spelled in elements: a `PATH` whose body opens with the escape of a record. -/
def boundEcho (route : List UInt8) : Bool :=
  4 < route.length && route[0]? == some PATH && route[4]? == some 0

/-- `evict_route_edges`: only the edges of one refused route; the link stays indexed. -/
def evictRoute (g : State) (name : Name) (pair : Option LinkPair) (route : List UInt8) : State :=
  if name.isEmpty || route.isEmpty then g
  else
    let (candidates, index) := g.index.candidates name false
    { g with
      wiring := g.wiring.evictEdges candidates (·.refusedRoute pair route (boundEcho route))
      index }

/-! ## One operation -/

def ran (g : State) (o : Outcome) : State × Reply :=
  ({ g with store := o.store }, { sent := o.sent, status := o.status })

def ofSlot (g : State) : Option Wiring → State × Reply
  | none => g.refuse .NOT_FOUND
  | some wiring => ({ g with wiring }, {})

def retention (v : Vertex) : Retention :=
  if v.role = .HANDLER || v.retainsNone then .NONE
  else if v.role = .STREAM then .N else .LAST

/-- An operation on a vertex that `find` answered for. -/
def atVertex (g : State) (k : Key) (run : State × Reply) : State × Reply :=
  if g.wiring.found k then run else g.refuse .NOT_FOUND

/-- **One operation.** -/
def step (policy : AclPolicy) (g : State) (ev : Event) : State × Reply :=
  let p := plane policy ev.env g
  match ev.op with
  | .register k role deliverWritten pol =>
    match g.wiring.register k role deliverWritten pol with
    | .error e => g.refuse e
    | .ok wiring =>
      ({ g with
          wiring
          store := g.store.applyPolicy k (g.wiring.vertex k) (wiring.vertex k) }, {})
  | .retire k =>
    if k.isEmpty then g.refuse .INVALID_PATH
    else if !g.wiring.found k then (g, {})
    else
      ({ g with wiring := g.wiring.retireSubtree k, store := g.store.retireSubtree k }, {})
  | .writeAcl k aces caller =>
    g.atVertex k
      (if !caller.isEmpty then g.refuse .PERMISSION_DENIED
      else ({ g with wiring := g.wiring.writeAcl k aces }, {}))
  | .setPolicy k pol =>
    g.atVertex k
      (let v := g.wiring.vertex k
      let pol := { pol with retention := some (pol.retention.getD (retention v)) }
      if !policyLegal v.role pol then g.refuse .SCHEMA_NOT_FOUND
      else
        let wiring := g.wiring.applyPolicy k v.role pol (retention v)
        ({ g with wiring, store := g.store.applyPolicy k v (wiring.vertex k) }, {}))
  | .hide k hidden =>
    g.atVertex k
      ({ g with wiring := g.wiring.modify k fun v => { v with enumHidden := hidden } }, {})
  | .subscribeCallback k durability =>
    g.atVertex k
      (g.admitSubscriber p k { callback := true, durabilityRequest := durability } [] none .none [])
  | .subscribeField k r ctx => g.atVertex k (g.writeRecord p k r ctx none)
  | .subscribeWire k q => g.atVertex k (g.subscribeWire p k q)
  | .writeSlot k slot payload ctx => g.atVertex k (g.writeSlot p k slot payload ctx)
  | .unsubscribe k slot => g.ofSlot (g.wiring.clearSubscriberSlot k slot)
  | .setSuspended k slot suspended => g.ofSlot (g.wiring.setSuspended k slot suspended)
  | .evictLink name pair => (g.evictLink name pair, {})
  | .evictRoute name pair route => (g.evictRoute name pair route, {})
  | .internLink name =>
    (if name.isEmpty then g else { g with index := (g.index.intern name).2 }, {})
  | .candidateCount name =>
    (if name.isEmpty then g else { g with index := g.index.compactLink name }, {})
  | .write k x caller => g.atVertex k (g.ran (p.write k x caller g.store))
  | .assign k x caller => g.atVertex k (g.ran (p.assign k x caller g.store))
  | .propagate k fold =>
    g.atVertex k (g.ran (if fold then p.propagateFolded k g.store else p.propagate k g.store))

def machine (policy : AclPolicy) : Machine State Event Reply := ⟨{}, step policy⟩

end State

/-! ## What an operation can do to the control plane -/

open State

def Op.admission : Op → Option (Edge × Name)
  | .subscribeCallback _ durability =>
    some ({ callback := true, durabilityRequest := durability }, [])
  | .subscribeField _ r ctx => some (fieldEdge r ctx, fieldSession ctx)
  | .writeSlot _ _ (.record r) ctx => some (fieldEdge r ctx, fieldSession ctx)
  | .subscribeWire _ q => if q.pair.isNone then none else some (wireEdge q)
  | _ => none

inductive Control (op : Op) (w : Wiring) (x : LinkIndex Key) : Wiring → LinkIndex Key → Prop where
  | keep : Control op w x w x
  | register {k : Key} {role : Role} {deliverWritten : Bool} {pol : Policy} {w' : Wiring}
      (hw : w.register k role deliverWritten pol = .ok w') : Control op w x w' x
  | retire (k : Key) : Control op w x (w.retireSubtree k) x
  | writeAcl (k : Key) (aces : List Ace) : Control op w x (w.writeAcl k aces) x
  | setPolicy (k : Key) (role : Role) (pol : Policy) (r : Retention) :
      Control op w x (w.applyPolicy k role pol r) x
  | hide (k : Key) (hidden : Bool) :
      Control op w x (w.modify k fun v => { v with enumHidden := hidden }) x
  | index {e : Edge} {session : Name} (hop : op.admission = some (e, session)) (token : LinkToken)
      (k : Key) : Control op w x w (indexed e session token k x)
  | add {e : Edge} {session : Name} (hop : op.admission = some (e, session)) (token : LinkToken)
      (k : Key) : Control op w x (w.addEdge k e) (indexed e session token k x)
  | replace {e : Edge} {session : Name} (hop : op.admission = some (e, session))
      (token : LinkToken) {k : Key} {slot : Nat} {w' : Wiring}
      (hw : w.replaceEdge k slot e = some w') : Control op w x w' (indexed e session token k x)
  | clear {k : Key} {slot : Nat} {w' : Wiring} (hw : w.clearSubscriberSlot k slot = some w') :
      Control op w x w' x
  | suspend {k : Key} {slot : Nat} {suspended : Bool} {w' : Wiring}
      (hw : w.setSuspended k slot suspended = some w') : Control op w x w' x
  | evictLink {name : Name} {pair : Option LinkPair} (hop : op = .evictLink name pair)
      (hne : name ≠ []) :
      Control op w x (w.evictEdges (x.candidates name true).1 (·.admittedOver name pair))
        (x.candidates name true).2
  | evictRoute {name : Name} (hne : name ≠ []) (hit : Edge → Bool) :
      Control op w x (w.evictEdges (x.candidates name false).1 hit) (x.candidates name false).2
  | intern {name : Name} (hne : name ≠ []) : Control op w x w (x.intern name).2
  | compact {name : Name} (hne : name ≠ []) : Control op w x w (x.compactLink name)

end LibTracer.Graph
