import LibTracer.Lib.Machine
import LibTracer.Net.Registry
import LibTracer.Wire.TlvView

/-!
# The router: links, receive contexts and the terminus

The part of `fwd_router_t` a request passes that is resolved at this node.  A transport delivers
through the receive context its last registration installed.  A request stays in flight from its
arrival until the terminus answers, and anything may happen to the links in between.

* **`Node.ok_of_reachable`** — what holds in every state such a machine reaches.
-/

namespace LibTracer.Net

open List
open Crc (Bytes)

/-! ## State -/

/-- A transport and the receive context its receiver was installed with. -/
structure Transport where
  medium : Medium
  receiver : Option Nat

/-- `child_rx_ctx_t`: the child's name, its registry slot and the tombstone. -/
structure RxCtx where
  name : Name
  entry : Nat
  retired : Bool
deriving DecidableEq, Repr

structure Request where
  /-- The receive context it came up through. -/
  ctx : Nat
  /-- The transport that delivered it. -/
  link : LinkId
  /-- The sending peer, on a bus. -/
  peer : Option PeerHandle
  /-- The hop's inbound name: the child's own, or on a bus the peer's. -/
  inbound : Name
  frame : Rope

structure Node where
  transports : List Transport
  registry : Registry
  ctxs : List RxCtx
  now : Nat
  inflight : List Request

namespace Node

def initial : Node := ⟨[], Registry.empty, [], 0, []⟩

/-- `peer_link` of the transport `l`. -/
def peerLink (n : Node) (l : LinkId) (peer : Name) : Option Nat :=
  match n.transports[l]? with
  | none => none
  | some t => t.medium.peerLink n.now peer

/-- `peer_link_of` of the transport `l`. -/
def peerLinkOf (n : Node) (l : LinkId) (peer : PeerHandle) : Option Nat :=
  match n.transports[l]? with
  | none => none
  | some t => t.medium.peerLinkOf n.now peer

/-! ## The control plane -/

def kMaxSegments : Nat := 255

/-- What the rest of the node grants a registration: the connection vertex, and the blocks drawn for
the kind record and the token cache, for the registry slot, and for the receive context. -/
structure Grants where
  vertex : Bool
  blocks : Bool
  slot : Bool
  ctx : Bool

/-- `ctl_ctx_by_name`: the context of that name, tombstoned or not. -/
def ctlCtxByName (n : Node) (name : Name) : Option Nat :=
  n.ctxs.findIdx? fun x => x.name == name

/-- Set the tombstone of the context at `k`. -/
def mark (retired : Bool) (ctxs : List RxCtx) (k : Nat) : List RxCtx :=
  ctxs.modify k ({ · with retired := retired })

/-- `acquire_ctx` over the registry `reg`: the name's context, hidden until it is published, or a
fresh one on the slot the registry resolves the name to. -/
def acquireCtx (n : Node) (reg : Registry) (name : Name) (room : Bool) :
    Option (List RxCtx × Nat) :=
  match n.ctlCtxByName name with
  | some k => some (mark true n.ctxs k, k)
  | none =>
    match reg.slots.findIdx? (fun c => c.live && c.name == name) with
    | none => none
    | some e => if room then some (n.ctxs ++ [⟨name, e, true⟩], n.ctxs.length) else none

def publishCtx (ctxs : List RxCtx) (k : Nat) : List RxCtx := mark false ctxs k

/-- `add_child`: bind the name in the registry, publish its context, and install it as the link's
receiver.  A refusal leaves nothing registered: a name that gets no context is erased again. -/
def addChild (n : Node) (name : Name) (l : LinkId) (g : Grants) : Node :=
  match n.transports[l]? with
  | none => n
  | some t =>
    if segmentCount name > kMaxSegments || !g.blocks then n
    else match n.registry.add name l t.medium.isBus g.vertex g.slot with
      | none => n
      | some reg =>
        match n.acquireCtx reg name g.ctx with
        | none => { n with registry := (reg.erase name).getD reg }
        | some (ctxs, k) =>
          { n with
            registry := reg
            ctxs := publishCtx ctxs k
            transports := n.transports.modify l ({ · with receiver := some k }) }

/-- `remove_child`: the slot stops resolving and its context is tombstoned. -/
def removeChild (n : Node) (name : Name) : Node :=
  match n.registry.erase name with
  | none => n
  | some reg =>
    match n.ctlCtxByName name with
    | none => { n with registry := reg }
    | some k => { n with registry := reg, ctxs := mark true n.ctxs k }

/-! ## Arrival -/

/-- The senders a bus delivers frames of: a slot server its open sessions, a CAN bus any node. -/
def delivers (m : Medium) (peer : PeerHandle) : Bool :=
  match m with
  | .flat => false
  | .slots server => (server.peerLinkOf peer).isSome
  | .can _ => true

/-- A frame comes up through the receive context of the transport `l`: the context installed as its
receiver, on the slot that binds it.  A tombstoned context drops it (`route_fwd_ingress`); on a bus
the inbound name is the peer's (`resolve_peer_name`), otherwise the child's own. -/
def arrival (n : Node) (l : LinkId) (peer : Option PeerHandle) (frame : Rope) :
    Option Request := do
  let t ← n.transports[l]?
  let k ← t.receiver
  let x ← n.ctxs[k]?
  let c ← n.registry.slots[x.entry]?
  if x.retired || c.link != l then none
  else match peer with
    | none => if t.medium.isBus then none else some ⟨k, l, none, x.name, frame⟩
    | some p =>
      if !delivers t.medium p then none
      else (t.medium.peerName p).map fun name => ⟨k, l, some p, name, frame⟩

/-! ## The terminus -/

/-- What the rest of the node makes of one request: the arena decode's verdict, the resolver's
answer, whether the reply's scatter-gather table got its block, and the refusal `emit_refusal_reply`
builds on the stack from the request's own routes (`none` where it sends nothing). -/
structure Outcome where
  decoded : Except Wire.Err Unit
  resolved : Except Status Rope
  gathers : Bool
  refusal : Option Bytes

/-- The counters a terminus bumps when it drops a request or its reply. -/
inductive Drop where
  | malformedRx | arenaDropped | assembleDropped | replyIovDropped
deriving DecidableEq, Repr

/-- What a terminus does in answer: the frame it sends, the drop it counts, the reply it hands to
the record of a request this node originated. -/
structure Answer where
  sent : Option (Endpoint × Bytes) := none
  drop : Option Drop := none
  recorded : Option Rope := none

def byName (n : Node) (name : Name) : Option Endpoint := n.registry.byName n.peerLink name

/-- `reply_link`: a live context on a point-to-point slot answers over the link the slot binds;
everything else is looked up by the inbound name. -/
def replyLink (n : Node) (inbound : Name) (ctx : Option RxCtx) : Option Endpoint :=
  match ctx.bind fun x => if x.retired then none else n.registry.slots[x.entry]? with
  | some c => if !c.multiPeer then some (.link c.link) else n.byName inbound
  | none => n.byName inbound

def egress (n : Node) (r : Request) : Option Endpoint := n.replyLink r.inbound n.ctxs[r.ctx]?

/-- A counted drop, answered with the stack-built refusal where there is a link for it. -/
def refuse (n : Node) (r : Request) (o : Outcome) (drop : Drop) : Answer :=
  { sent := (n.egress r).bind fun e => o.refusal.map fun b => (e, b), drop := some drop }

/-- The tail both termini share, from the resolver's answer on.  Only the contiguous one has an
originator's record to hand a reply without a link to (`records`). -/
def answerResolved (n : Node) (r : Request) (o : Outcome) (records : Bool) : Answer :=
  match o.resolved with
  | .error s =>
    if s ≠ .BACKPRESSURE then { drop := some .malformedRx } else n.refuse r o .assembleDropped
  | .ok reply =>
    if reply.links.isEmpty then {}
    else match n.egress r with
      | some e =>
        if !o.gathers then n.refuse r o .replyIovDropped
        else { sent := some (e, reply.bytes) }
      | none => if records && r.inbound.isEmpty then { recorded := some reply } else {}

/-- `resolve_terminus`: a contiguous request, arena-decoded. -/
def resolveTerminus (n : Node) (r : Request) (o : Outcome) : Answer :=
  match o.decoded with
  | .error e =>
    if e ≠ .TLV_NESTING_TOO_DEEP then { drop := some .malformedRx }
    else n.refuse r o .arenaDropped
  | .ok () => n.answerResolved r o true

/-- `resolve_terminus_rope`: a request in several links, read where it lies. -/
def resolveTerminusRope (n : Node) (r : Request) (o : Outcome) : Answer :=
  match Wire.TlvView.overRope r.frame with
  | .error _ => { drop := some .malformedRx }
  | .ok view =>
    match view.verify with
    | .error _ => { drop := some .malformedRx }
    | .ok () => n.answerResolved r o false

def terminus (n : Node) (r : Request) (o : Outcome) : Answer :=
  if r.frame.links.length = 1 then n.resolveTerminus r o else n.resolveTerminusRope r o

/-! ## The machine -/

/-- Everything that can happen to a node, one step at a time. -/
inductive Event where
  | construct (m : Medium)
  | transport (l : LinkId) (e : MediumEvent)
  | tick (d : Nat)
  | addChild (name : Name) (l : LinkId) (g : Grants)
  | removeChild (name : Name)
  | receive (l : LinkId) (peer : Option PeerHandle) (frame : Rope)
  | answer (i : Nat) (o : Outcome)

def step (n : Node) : Event → Node × Option Answer
  | .construct m => ({ n with transports := n.transports ++ [⟨m, none⟩] }, none)
  | .transport l e =>
    ({ n with transports :=
        n.transports.modify l fun t => { t with medium := t.medium.step n.now e } }, none)
  | .tick d => ({ n with now := n.now + d }, none)
  | .addChild name l g => (n.addChild name l g, none)
  | .removeChild name => (n.removeChild name, none)
  | .receive l peer frame =>
    match n.arrival l peer frame with
    | none => (n, none)
    | some r => ({ n with inflight := r :: n.inflight }, none)
  | .answer i o =>
    match n.inflight[i]? with
    | none => (n, none)
    | some r => ({ n with inflight := n.inflight.eraseIdx i }, some (n.terminus r o))

def machine : Machine Node Event (Option Answer) := ⟨initial, step⟩

/-! ## What every reachable state satisfies -/

/-- A request in flight names a context and a transport that exist; its inbound name is the name the
transport gives the peer, or on a point-to-point link the context's own. -/
def FlightOk (n : Node) (r : Request) : Prop :=
  ∃ x t, n.ctxs[r.ctx]? = some x ∧ n.transports[r.link]? = some t ∧
    match r.peer with
    | none => t.medium.isBus = false ∧ r.inbound = x.name
    | some p => t.medium.peerName p = some r.inbound

def Shaped (n : Node) (c : Child) : Prop :=
  ∃ t, n.transports[c.link]? = some t ∧ c.multiPeer = t.medium.isBus

def StandsOn (reg : Registry) (x : RxCtx) : Prop :=
  ∃ c, reg.slots[x.entry]? = some c ∧ c.name = x.name ∧ c.retired = x.retired

structure Ok (n : Node) : Prop where
  /-- The shape bit of a slot is the shape of the link it binds. -/
  shape : ∀ (i : Nat) (c : Child), n.registry.slots[i]? = some c → n.Shaped c
  /-- A context stands on the slot of its own name, and is tombstoned with it. -/
  ctx : ∀ (k : Nat) (x : RxCtx), n.ctxs[k]? = some x → StandsOn n.registry x
  /-- One context for each name. -/
  ctxs_distinct : (n.ctxs.map RxCtx.name).Nodup
  flight : ∀ r ∈ n.inflight, n.FlightOk r

/-- Nothing a request in flight refers to goes away: contexts keep their names, transports their
kind and the spelling of their peers. -/
structure Keeps (n n' : Node) : Prop where
  ctx : ∀ (k : Nat) (x : RxCtx), n.ctxs[k]? = some x →
    ∃ x', n'.ctxs[k]? = some x' ∧ x'.name = x.name
  transport : ∀ (l : LinkId) (t : Transport), n.transports[l]? = some t →
    ∃ t', n'.transports[l]? = some t' ∧ t'.medium.isBus = t.medium.isBus ∧
      ∀ p, t'.medium.peerName p = t.medium.peerName p

variable {n : Node} {r : Request} {t : Transport}

theorem FlightOk.mono {n' : Node} (h : n.FlightOk r) (hk : n.Keeps n') : n'.FlightOk r := by
  obtain ⟨x, t, hx, ht, hin⟩ := h
  obtain ⟨x', hx', hname⟩ := hk.ctx _ x hx
  obtain ⟨t', ht', hbus, hpeer⟩ := hk.transport _ t ht
  refine ⟨x', t', hx', ht', ?_⟩
  cases hp : r.peer with
  | none =>
    rw [hp] at hin
    exact ⟨hbus.trans hin.1, hin.2.trans hname.symm⟩
  | some p =>
    rw [hp] at hin
    exact (hpeer p).trans hin

/-! ### Transports -/

theorem Ok.retransport (h : n.Ok) (ts : List Transport) (now : Nat)
    (hts : ∀ (l : LinkId) (t : Transport), n.transports[l]? = some t →
      ∃ t', ts[l]? = some t' ∧ t'.medium.isBus = t.medium.isBus ∧
        ∀ p, t'.medium.peerName p = t.medium.peerName p) : Ok { n with transports := ts, now := now } where
  shape i c hc := by
    obtain ⟨t, ht, hshape⟩ := h.shape i c hc
    obtain ⟨t', ht', hbus, -⟩ := hts _ t ht
    exact ⟨t', ht', hshape.trans hbus.symm⟩
  ctx := h.ctx
  ctxs_distinct := h.ctxs_distinct
  flight r hr := (h.flight r hr).mono ⟨fun _ x hx => ⟨x, hx, rfl⟩, hts⟩

theorem modify_keeps_kind {ts : List Transport} (l : LinkId) (f : Transport → Transport)
    (hf : ∀ t, (f t).medium.isBus = t.medium.isBus ∧ ∀ p, (f t).medium.peerName p = t.medium.peerName p)
    (l' : LinkId) (t : Transport) (ht : ts[l']? = some t) :
    ∃ t', (ts.modify l f)[l']? = some t' ∧ t'.medium.isBus = t.medium.isBus ∧
      ∀ p, t'.medium.peerName p = t.medium.peerName p := by
  rw [List.getElem?_modify, ht]
  by_cases hl : l = l'
  · exact ⟨f t, by simp [hl], hf t⟩
  · exact ⟨t, by simp [hl], rfl, fun _ => rfl⟩

/-! ### The control plane -/

/-- A change of the registry and the contexts keeps the invariant if it keeps the three facts about
them and every context keeps its name. -/
theorem Ok.rebind (h : n.Ok) (reg : Registry) (ctxs : List RxCtx)
    (hshape : ∀ (i : Nat) (c : Child), reg.slots[i]? = some c → n.Shaped c)
    (hctx : ∀ (k : Nat) (x : RxCtx), ctxs[k]? = some x → StandsOn reg x)
    (hdistinct : (ctxs.map RxCtx.name).Nodup) (hnames : ∀ (k : Nat) (x : RxCtx), n.ctxs[k]? = some x →
      ∃ x', ctxs[k]? = some x' ∧ x'.name = x.name) : Ok { n with registry := reg, ctxs := ctxs } where
  shape := hshape
  ctx := hctx
  ctxs_distinct := hdistinct
  flight r hr :=
    (h.flight r hr).mono ⟨hnames, fun _ t ht => ⟨t, ht, rfl, fun _ => rfl⟩⟩

variable {l : LinkId} {c : Child} {j : Nat} {b : Bool}

theorem Shaped.bind (h : n.Shaped c)
    (ht : n.transports[l]? = some t) (name : Name) : n.Shaped (Registry.bind name l t.medium.isBus c) := by
  unfold Registry.bind
  split
  · exact ⟨t, ht, rfl⟩
  · exact h

theorem Shaped.bury (h : n.Shaped c) (name : Name) : n.Shaped (Registry.bury name c) := by
  unfold Registry.bury
  split <;> exact h

variable {name : Name} {vertex room : Bool} {reg : Registry}

theorem Ok.shaped_add (h : n.Ok) (ht : n.transports[l]? = some t)
    (hadd : n.registry.add name l t.medium.isBus vertex room = some reg) (i : Nat) (c : Child)
    (hc : reg.slots[i]? = some c) : n.Shaped c := by
  rcases Registry.of_getElem?_add hadd hc with ⟨d, hd, rfl⟩ | ⟨-, rfl⟩
  · exact (h.shape i d hd).bind ht name
  · exact ⟨t, ht, rfl⟩

variable {reg' : Registry} {x : RxCtx}

section

variable (h : StandsOn reg x)
include h

variable {multiPeer : Bool}

theorem StandsOn.add (hne : x.name ≠ name)
    (hadd : reg.add name l multiPeer vertex room = some reg') : StandsOn reg' x := by
  obtain ⟨c, hc, hname, hretired⟩ := h
  have hbind : Registry.bind name l multiPeer c = c := by
    unfold Registry.bind
    rw [if_neg (by rw [beq_iff_eq, hname]; exact hne)]
  exact ⟨c, by rw [Registry.getElem?_add hadd hc, hbind], hname, hretired⟩

theorem StandsOn.erase (hne : x.name ≠ name) (herase : reg.erase name = some reg') : StandsOn reg' x := by
  obtain ⟨c, hc, hname, hretired⟩ := h
  have hbury : Registry.bury name c = c := by
    unfold Registry.bury
    rw [if_neg (by rw [beq_iff_eq, hname]; exact hne)]
  exact ⟨c, by rw [Registry.getElem?_erase herase, hc, Option.map_some, hbury], hname, hretired⟩

theorem StandsOn.publish (hadd : reg.add x.name l multiPeer vertex room = some reg') :
    StandsOn reg' { x with retired := false } := by
  obtain ⟨c, hc, hname, -⟩ := h
  refine ⟨_, Registry.getElem?_add hadd hc, ?_, ?_⟩
  · rw [Registry.bind_name]
    exact hname
  · unfold Registry.bind
    rw [if_pos (by rw [beq_iff_eq, hname])]

theorem StandsOn.retire
    (herase : reg.erase x.name = some reg') : StandsOn reg' { x with retired := true } := by
  obtain ⟨c, hc, hname, -⟩ := h
  refine ⟨Registry.bury x.name c, by rw [Registry.getElem?_erase herase, hc]; rfl, ?_, ?_⟩
  · rw [Registry.bury_name]
    exact hname
  · unfold Registry.bury
    rw [if_pos (by rw [beq_iff_eq, hname])]

end

variable {k : Nat}

theorem name_ne_of_ctlCtxByName (h : n.ctlCtxByName name = none)
    (hx : n.ctxs[k]? = some x) : x.name ≠ name := by
  have := List.findIdx?_eq_none_iff.mp h x (mem_of_getElem? hx)
  simpa using this

theorem ctlCtxByName_eq_some (h : n.ctlCtxByName name = some k) :
    ∃ x, n.ctxs[k]? = some x ∧ x.name = name := by
  obtain ⟨hlen, hname, -⟩ := List.findIdx?_eq_some_iff_getElem.mp h
  exact ⟨_, List.getElem?_eq_getElem hlen, beq_iff_eq.mp hname⟩

theorem Ok.ctx_name_ne (h : n.Ok) {y : RxCtx} (hx : n.ctxs[k]? = some x)
    (hy : n.ctxs[j]? = some y) (hne : k ≠ j) : y.name ≠ x.name := fun he =>
  hne (Lookup.place_unique h.ctxs_distinct hx hy he.symm)

theorem map_name_mark (b : Bool) (ctxs : List RxCtx) (k : Nat) :
    (mark b ctxs k).map RxCtx.name = ctxs.map RxCtx.name :=
  Lookup.map_modify_of_key (f := fun x => { x with retired := b }) (fun _ => rfl) ctxs k

theorem getElem?_mark_self {ctxs : List RxCtx}
    (hx : ctxs[k]? = some x) : (mark b ctxs k)[k]? = some { x with retired := b } := by
  unfold mark
  rw [List.getElem?_modify, hx]
  simp

theorem getElem?_mark_of_ne (b : Bool) (ctxs : List RxCtx) (h : k ≠ j) :
    (mark b ctxs k)[j]? = ctxs[j]? := by
  unfold mark
  rw [List.getElem?_modify]
  simp [h]

theorem mark_keeps_name (b : Bool) (ctxs : List RxCtx) (k j : Nat) (x : RxCtx)
    (hx : ctxs[j]? = some x) : ∃ x', (mark b ctxs k)[j]? = some x' ∧ x'.name = x.name := by
  by_cases h : k = j
  · subst h
    exact ⟨_, getElem?_mark_self hx, rfl⟩
  · exact ⟨x, (getElem?_mark_of_ne b ctxs h).trans hx, rfl⟩

theorem Ok.remark (h : n.Ok) (hx : n.ctxs[k]? = some x)
    (hshape : ∀ (i : Nat) (c : Child), reg.slots[i]? = some c → n.Shaped c)
    (hself : StandsOn reg { x with retired := b })
    (hother : ∀ y, y.name ≠ x.name → StandsOn n.registry y → StandsOn reg y) :
    Ok { n with registry := reg, ctxs := mark b n.ctxs k } := by
  refine h.rebind reg _ hshape (fun j y hy => ?_) ?_ (mark_keeps_name b n.ctxs k)
  · by_cases hj : k = j
    · subst hj
      rw [getElem?_mark_self hx] at hy
      cases hy
      exact hself
    · rw [getElem?_mark_of_ne b n.ctxs hj] at hy
      exact hother y (h.ctx_name_ne hx hy hj) (h.ctx j y hy)
  · rw [map_name_mark]
    exact h.ctxs_distinct

theorem publishCtx_mark (ctxs : List RxCtx) (k : Nat) :
    publishCtx (mark true ctxs k) k = mark false ctxs k := by
  unfold publishCtx mark
  rw [modify_modify_eq]
  rfl

/-- The invariant through the registration of a name that had no context: the fresh one stands on
the slot the registry resolves the name to. -/
theorem Ok.append (h : n.Ok) {e : Nat} (hno : n.ctlCtxByName name = none)
    (hshape : ∀ (i : Nat) (c : Child), reg.slots[i]? = some c → n.Shaped c)
    (hother : ∀ y, y.name ≠ name → StandsOn n.registry y → StandsOn reg y)
    (he : reg.slots.findIdx? (fun c => c.live && c.name == name) = some e) :
    Ok { n with registry := reg, ctxs := n.ctxs ++ [⟨name, e, false⟩] } := by
  refine h.rebind reg _ hshape (fun j y hy => ?_) ?_ fun j y hy => ⟨y, ?_, rfl⟩
  · by_cases hj : j < n.ctxs.length
    · rw [List.getElem?_append_left hj] at hy
      exact hother y (name_ne_of_ctlCtxByName hno hy) (h.ctx j y hy)
    obtain ⟨hlen, -⟩ := List.getElem?_eq_some_iff.mp hy
    rw [length_append, length_singleton] at hlen
    have hlast : j = n.ctxs.length := by omega
    rw [hlast, List.getElem?_concat_length] at hy
    cases hy
    obtain ⟨hlt, hc, -⟩ := List.findIdx?_eq_some_iff_getElem.mp he
    rw [Bool.and_eq_true, beq_iff_eq] at hc
    exact ⟨_, List.getElem?_eq_getElem hlt, hc.2, by simpa [Child.live] using hc.1⟩
  · rw [map_append]
    refine h.ctxs_distinct.append (nodup_singleton _) (disjoint_singleton.mpr ?_)
    intro hmem
    obtain ⟨y, hy, hname⟩ := mem_map.mp hmem
    obtain ⟨j, hj⟩ := List.getElem?_of_mem hy
    exact name_ne_of_ctlCtxByName hno hj hname
  · obtain ⟨hlen, -⟩ := List.getElem?_eq_some_iff.mp hy
    exact (List.getElem?_append_left hlen).trans hy

theorem shaped_erase {reg reg' : Registry}
    (h : ∀ (i : Nat) (c : Child), reg.slots[i]? = some c → n.Shaped c)
    (herase : reg.erase name = some reg') (i : Nat) (c : Child) (hc : reg'.slots[i]? = some c) :
    n.Shaped c := by
  rw [Registry.getElem?_erase herase] at hc
  obtain ⟨d, hd, rfl⟩ := Option.map_eq_some_iff.mp hc
  exact (h i d hd).bury name

theorem Ok.addChild (h : n.Ok) (name : Name) (l : LinkId) (g : Grants) : (n.addChild name l g).Ok := by
  unfold Node.addChild
  cases ht : n.transports[l]? with
  | none => exact h
  | some t =>
    simp only
    split
    · exact h
    cases hadd : n.registry.add name l t.medium.isBus g.vertex g.slot with
    | none => exact h
    | some reg =>
      have hshape := h.shaped_add ht hadd
      have hother (y : RxCtx) (hne : y.name ≠ name) (hy : StandsOn n.registry y) :
          StandsOn reg y := hy.add hne hadd
      -- installing the receiver changes no medium
      have hwire (k : Nat) {n' : Node} (hn' : n'.Ok) (hts : n'.transports = n.transports) :
          Ok { n' with transports :=
            n.transports.modify l ({ · with receiver := some k }) } :=
        hn'.retransport _ n'.now fun l' t' ht' =>
          modify_keeps_kind l (fun t => { t with receiver := some k })
            (fun _ => ⟨rfl, fun _ => rfl⟩) l' t' (hts ▸ ht')
      simp only [acquireCtx]
      cases hctl : n.ctlCtxByName name with
      | some k =>
        obtain ⟨x, hx, rfl⟩ := ctlCtxByName_eq_some hctl
        simp only [publishCtx_mark]
        exact hwire k (h.remark hx hshape ((h.ctx k x hx).publish hadd) hother) rfl
      | none =>
        have hno (k : Nat) (x : RxCtx) (hx : n.ctxs[k]? = some x) : StandsOn reg x :=
          hother x (name_ne_of_ctlCtxByName hctl hx) (h.ctx k x hx)
        -- without a context the slot is marked dead again
        have hundo : Ok { n with registry := (reg.erase name).getD reg } := by
          cases herase : reg.erase name with
          | none =>
            exact h.rebind reg n.ctxs hshape hno h.ctxs_distinct fun k x hx =>
              ⟨x, hx, rfl⟩
          | some reg' =>
            refine h.rebind reg' n.ctxs (shaped_erase hshape herase) (fun k x hx => ?_)
              h.ctxs_distinct fun k x hx => ⟨x, hx, rfl⟩
            exact (hno k x hx).erase (name_ne_of_ctlCtxByName hctl hx) herase
        cases he : reg.slots.findIdx? (fun c => c.live && c.name == name) with
        | none => exact hundo
        | some e =>
          simp only
          cases hroom : g.ctx with
          | false => exact hundo
          | true =>
            have hpub : publishCtx (n.ctxs ++ [⟨name, e, true⟩]) n.ctxs.length =
                n.ctxs ++ [⟨name, e, false⟩] :=
              Lookup.modify_length_concat ..
            simp only [if_true, hpub]
            exact hwire _ (h.append hctl hshape hother he) rfl

theorem Ok.removeChild (h : n.Ok) (name : Name) : (n.removeChild name).Ok := by
  unfold Node.removeChild
  cases herase : n.registry.erase name with
  | none => exact h
  | some reg =>
    have hshape := shaped_erase h.shape herase
    cases hctl : n.ctlCtxByName name with
    | none =>
      exact h.rebind reg n.ctxs hshape
        (fun k x hx => (h.ctx k x hx).erase (name_ne_of_ctlCtxByName hctl hx) herase)
        h.ctxs_distinct fun k x hx => ⟨x, hx, rfl⟩
    | some k =>
      obtain ⟨x, hx, rfl⟩ := ctlCtxByName_eq_some hctl
      exact h.remark hx hshape ((h.ctx k x hx).retire herase) fun y hne hy => hy.erase hne herase

/-! ### Whole runs -/

theorem flightOk_of_arrival {peer : Option PeerHandle} {frame : Rope}
    (h : n.arrival l peer frame = some r) : n.FlightOk r := by
  unfold arrival at h
  simp only [Option.bind_eq_bind, Option.bind_eq_some_iff] at h
  obtain ⟨t, ht, k, -, x, hx, c, -, h⟩ := h
  split at h
  · exact nomatch h
  split at h
  · split at h
    · exact nomatch h
    next hbus =>
      cases h
      exact ⟨x, t, hx, ht, by simpa using hbus, rfl⟩
  · split at h
    · exact nomatch h
    · obtain ⟨name, hname, rfl⟩ := Option.map_eq_some_iff.mp h
      exact ⟨x, t, hx, ht, hname⟩

theorem Ok.start : initial.Ok where
  shape _ _ h := nomatch h
  ctx _ _ h := nomatch h
  ctxs_distinct := nodup_nil
  flight _ h := nomatch h

theorem Ok.step (h : n.Ok) (e : Event) : (n.step e).1.Ok := by
  cases e with
  | construct m =>
    refine h.retransport _ n.now fun l t ht => ⟨t, ?_, rfl, fun _ => rfl⟩
    obtain ⟨hlen, -⟩ := List.getElem?_eq_some_iff.mp ht
    exact (List.getElem?_append_left hlen).trans ht
  | transport l e =>
    exact h.retransport _ n.now
      (modify_keeps_kind l _ fun t => ⟨Medium.isBus_step .., fun _ => Medium.peerName_step ..⟩)
  | tick d => exact h.retransport _ _ fun _ t ht => ⟨t, ht, rfl, fun _ => rfl⟩
  | addChild name l g => exact h.addChild name l g
  | removeChild name => exact h.removeChild name
  | receive l peer frame =>
    show (match n.arrival l peer frame with | none => _ | some r => _ : Node × _).1.Ok
    cases harr : n.arrival l peer frame with
    | none => exact h
    | some r =>
      have hflight := forall_mem_cons.mpr ⟨flightOk_of_arrival harr, h.flight⟩
      exact ⟨h.shape, h.ctx, h.ctxs_distinct, hflight⟩
  | answer i o =>
    show (match n.inflight[i]? with | none => _ | some r => _ : Node × _).1.Ok
    cases n.inflight[i]? with
    | none => exact h
    | some r =>
      exact ⟨h.shape, h.ctx, h.ctxs_distinct, fun q hq =>
        h.flight q (eraseIdx_subset hq)⟩

/-- **The invariant holds in every state a node reaches.** -/
theorem ok_of_reachable (h : machine.Reachable n) : n.Ok :=
  machine.invariant Ok.start (fun _ e hn => hn.step e) h

end Node

end LibTracer.Net
