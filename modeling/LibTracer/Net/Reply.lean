import LibTracer.Net.Router

/-!
# Where an answer goes

The answer to a request belongs on the link it came in over, and on a bus on the peer's directed
endpoint.  The router finds the endpoint of a bus peer again by the
peer's *name*, in a lookup that knows nothing of the bus the request came from.

* **`replies_home_iff`** — a terminus sends only to the request's own endpoint exactly if its name leads
  home.
-/

namespace LibTracer.Net

open List
open Crc (Bytes)

namespace Node

/-! ## Home -/

/-- The endpoints the answer to `r` belongs on: the link it came in over, or on a bus the directed
endpoint of its sender in that bus's own table. -/
def Home (n : Node) (r : Request) : Endpoint → Prop
  | .link l => r.peer = none ∧ l = r.link
  | .peer l i => l = r.link ∧ ∃ p, r.peer = some p ∧ n.peerLinkOf l p = some i

def door (n : Node) (r : Request) : Option Child :=
  (n.ctxs[r.ctx]?).bind fun x => n.registry.slots[x.entry]?

def Holds (n : Node) (name : Name) (c : Child) : Prop :=
  c.live = true ∧ (n.peerLink c.link name).isSome = true

/-- The inbound name of `r` leads home.

On a point-to-point link: the slot still binds the link; or it was removed, and no bus holds a peer
that is named as the child was.

On a bus: the slot was not taken over by a point-to-point link, no live child is registered under
the peer's name, and every live bus holding a peer of that name stands, in registration order, no
earlier than the request's own bus, which holds the sender. -/
def LeadsHome (n : Node) (r : Request) : Prop :=
  match r.peer with
  | none => ∀ c, n.door r = some c →
      if c.retired then ∀ d ∈ n.registry.slots, ¬ n.Holds r.inbound d else c.link = r.link
  | some p =>
    (∀ c, n.door r = some c → c.live = true → c.multiPeer = true) ∧
    (∀ c ∈ n.registry.slots, c.live = true → c.name ≠ r.inbound) ∧
    ∀ (j : Nat) (c : Child), n.registry.slots[j]? = some c → n.Holds r.inbound c →
      ∃ i ≤ j, ∃ d, n.registry.slots[i]? = some d ∧ d.live = true ∧ d.link = r.link ∧
        (n.peerLinkOf r.link p).isSome = true

/-! ## What is sent, and over what -/

/-- What the tail of a terminus sends once it has a link: the reply, or the refusal built on the
stack. -/
def resolvedPayload (o : Outcome) : Option Bytes :=
  match o.resolved with
  | .error s => if s ≠ .BACKPRESSURE then none else o.refusal
  | .ok reply =>
    if reply.links.isEmpty then none
    else if !o.gathers then o.refusal else some reply.bytes

def payload (r : Request) (o : Outcome) : Option Bytes :=
  if r.frame.links.length = 1 then
    match o.decoded with
    | .error e => if e ≠ .TLV_NESTING_TOO_DEEP then none else o.refusal
    | .ok () => resolvedPayload o
  else
    match Wire.TlvView.overRope r.frame with
    | .error _ => none
    | .ok view =>
      match view.verify with
      | .error _ => none
      | .ok () => resolvedPayload o

section

variable (n : Node) (r : Request) (o : Outcome)

theorem sent_refuse (d : Drop) :
    (n.refuse r o d).sent = o.refusal.bind fun b => (n.egress r).map fun e => (e, b) := by
  unfold refuse
  cases n.egress r <;> cases o.refusal <;> rfl

theorem sent_answerResolved (records : Bool) : (n.answerResolved r o records).sent =
      (resolvedPayload o).bind fun b => (n.egress r).map fun e => (e, b) := by
  unfold answerResolved resolvedPayload
  cases o.resolved with
  | error s =>
    simp only
    split
    · rfl
    · exact sent_refuse ..
  | ok reply =>
    simp only
    split
    · rfl
    cases he : n.egress r with
    | none =>
      simp only [Option.map_none, Option.bind_fun_none]
      split <;> rfl
    | some e =>
      simp only
      split
      · rw [sent_refuse, he]
      · rfl

theorem sent_terminus :
    (n.terminus r o).sent = (payload r o).bind fun b => (n.egress r).map fun e => (e, b) := by
  unfold terminus payload
  split
  · unfold resolveTerminus
    cases o.decoded with
    | error e =>
      simp only
      split
      · rfl
      · exact sent_refuse ..
    | ok u => exact sent_answerResolved ..
  · unfold resolveTerminusRope
    cases Wire.TlvView.overRope r.frame with
    | error e => rfl
    | ok view =>
      simp only
      cases view.verify with
      | error e => rfl
      | ok u => exact sent_answerResolved ..

end

theorem answer_eq_some_iff (n : Node) (name : Name) (c : Child) (e : Endpoint) :
    Registry.answer n.peerLink name c = some e ↔
      c.live = true ∧ ∃ i, n.peerLink c.link name = some i ∧ e = .peer c.link i := by
  unfold Registry.answer Child.live
  cases c.retired with
  | true => simp
  | false => simp [eq_comm]

theorem isSome_answer_iff (n : Node) (name : Name) (c : Child) :
    (Registry.answer n.peerLink name c).isSome = true ↔ n.Holds name c := by
  unfold Registry.answer Holds Child.live
  cases c.retired <;> simp

variable {p : PeerHandle} {r : Request} {n : Node}

theorem FlightOk.peerLink_inbound (h : n.FlightOk r)
    (hp : r.peer = some p) : n.peerLink r.link r.inbound = n.peerLinkOf r.link p := by
  obtain ⟨x, t, -, ht, hin⟩ := h
  rw [hp] at hin
  unfold peerLink peerLinkOf
  rw [ht]
  exact t.medium.peerLink_peerName n.now hin

/-! ## The egress -/

section Egress

variable {n : Node} {r : Request}

theorem Ok.door_eq (h : n.Ok) (hr : n.FlightOk r) :
    ∃ x c, n.ctxs[r.ctx]? = some x ∧ n.registry.slots[x.entry]? = some c ∧
      n.door r = some c ∧ c.name = x.name ∧
      n.egress r = if c.live && !c.multiPeer then some (.link c.link) else n.byName r.inbound := by
  obtain ⟨x, t, hx, -, -⟩ := hr
  obtain ⟨c, hc, hname, hretired⟩ := h.ctx _ x hx
  refine ⟨x, c, hx, hc, ?_, hname, ?_⟩
  · unfold door
    rw [hx]
    exact hc
  · unfold egress replyLink Child.live
    rw [hx, hretired]
    cases hxr : x.retired with
    | true => simp [hxr]
    | false => simp [hxr, hc]

theorem Ok.egress_flat_iff (h : n.Ok) (hr : n.FlightOk r) (hp : r.peer = none) :
    (∀ e, n.egress r = some e → n.Home r e) ↔ n.LeadsHome r := by
  obtain ⟨x, c, hx, hc, hdoor, hname, hegress⟩ := h.door_eq hr
  obtain ⟨x', t, hx', ht, hin⟩ := hr
  cases hx.symm.trans hx'
  rw [hp] at hin
  obtain ⟨hflat, hinbound⟩ := hin
  have hchild : c.name = r.inbound := hname.trans hinbound.symm
  have hpeer (l : LinkId) (i : Nat) : ¬ n.Home r (.peer l i) := by
    rintro ⟨-, p, hp', -⟩
    rw [hp] at hp'
    exact nomatch hp'
  unfold LeadsHome
  rw [hp]
  simp only [hdoor, Option.some.injEq, forall_eq']
  cases hretired : c.retired with
  | false =>
    -- a live slot answers over the link it binds, by its shape or by its name
    have hlink : n.egress r = some (.link c.link) := by
      rw [hegress]
      cases hm : c.multiPeer with
      | false => simp [Child.live, hretired]
      | true =>
        have hentry : n.registry.entryByName r.inbound = some c :=
          (n.registry.entryByName_eq_some_iff _ c).mpr
            ⟨mem_of_getElem? hc, by simp [Child.live, hretired], hchild⟩
        simp [byName, Registry.byName, hentry]
    simp [hlink, Home, hp]
  | true =>
    have hno : ∀ d ∈ n.registry.slots, d.live = true → d.name ≠ r.inbound := by
      intro d hd hlive hdname
      obtain ⟨j, hj⟩ := getElem?_of_mem hd
      have := n.registry.name_unique hc hj (hchild.trans hdname.symm)
      rw [this, hj] at hc
      cases hc
      simp [Child.live, hretired] at hlive
    rw [hegress]
    simp only [Child.live, hretired, Bool.not_true, Bool.false_and, Bool.false_eq_true, if_false, if_true]
    unfold byName
    rw [Registry.byName_forall_iff]
    constructor
    · rintro ⟨-, hfirst⟩ d hd hholds
      obtain ⟨j, hj⟩ := getElem?_of_mem hd
      obtain ⟨i, -, d', e, -, he, hhome⟩ :=
        hfirst hno j d hj ((n.isSome_answer_iff _ d).mpr hholds)
      obtain ⟨-, k, -, rfl⟩ := (n.answer_eq_some_iff _ d' e).mp he
      exact hpeer _ _ hhome
    · intro hnone
      refine ⟨fun d hd hlive hdname => absurd hdname (hno d hd hlive), fun _ j d hj hans => ?_⟩
      exact absurd ((n.isSome_answer_iff _ d).mp hans) (hnone d (mem_of_getElem? hj))

theorem Ok.egress_bus_iff (h : n.Ok) (hr : n.FlightOk r) (hp : r.peer = some p) :
    (∀ e, n.egress r = some e → n.Home r e) ↔ n.LeadsHome r := by
  obtain ⟨x, c, -, -, hdoor, -, hegress⟩ := h.door_eq hr
  have hown := hr.peerLink_inbound hp
  have hlink (l : LinkId) : ¬ n.Home r (.link l) := by
    rintro ⟨hp', -⟩
    rw [hp] at hp'
    exact nomatch hp'
  unfold LeadsHome
  rw [hp]
  simp only [hdoor, Option.some.injEq, forall_eq']
  rw [hegress]
  split
  next hflat =>
    rw [Bool.and_eq_true, Bool.not_eq_true'] at hflat
    refine ⟨fun hhome => absurd (hhome _ rfl) (hlink _), fun hlead => ?_⟩
    cases (hlead.1 hflat.1).symm.trans hflat.2
  next hflat =>
  have hshape : c.live = true → c.multiPeer = true := by
    intro hlive
    simpa [hlive] using hflat
  unfold byName
  rw [Registry.byName_forall_iff]
  constructor
  · rintro ⟨hchild, hfirst⟩
    have hno : ∀ d ∈ n.registry.slots, d.live = true → d.name ≠ r.inbound :=
      fun d hd hlive hname => hlink _ (hchild d hd hlive hname)
    refine ⟨hshape, hno, fun j d hj hholds => ?_⟩
    obtain ⟨i, hi, d', e, hd', he, hhome⟩ :=
      hfirst hno j d hj ((n.isSome_answer_iff _ d).mpr hholds)
    obtain ⟨hlive, k, -, rfl⟩ := (n.answer_eq_some_iff _ d' e).mp he
    obtain ⟨hl, q, hq, hk⟩ := hhome
    cases hp.symm.trans hq
    rw [hl] at hk
    exact ⟨i, hi, d', hd', hlive, hl, by rw [hk]; rfl⟩
  · rintro ⟨-, hno, hfirst⟩
    refine ⟨fun d hd hlive hname => absurd hname (hno d hd hlive), fun _ j d hj hans => ?_⟩
    obtain ⟨i, hi, d', hd', hlive, hl, hseat⟩ :=
      hfirst j d hj ((n.isSome_answer_iff _ d).mp hans)
    obtain ⟨k, hk⟩ := Option.isSome_iff_exists.mp hseat
    refine ⟨i, hi, d', .peer d'.link k, hd', (n.answer_eq_some_iff _ d' _).mpr ?_, ?_⟩
    · exact ⟨hlive, k, by rw [hl, hown, hk], rfl⟩
    · exact ⟨hl, p, hp, by rw [hl, hk]⟩

end Egress

theorem Ok.egress_iff (h : n.Ok) (hr : n.FlightOk r) :
    (∀ e, n.egress r = some e → n.Home r e) ↔ n.LeadsHome r := by
  cases hp : r.peer with
  | none => exact h.egress_flat_iff hr hp
  | some p => exact h.egress_bus_iff hr hp

/-- **Answers stay home exactly if the name leads there.**  In every state a node can reach, for
every request in flight and whatever the decoder, the resolver and the allocators make of it: every
frame the terminus sends goes to the request's own endpoint if and only if, should there be
something to send, the inbound name leads home. -/
theorem replies_home_iff {n : Node} (hn : machine.Reachable n) {r : Request} (hr : r ∈ n.inflight)
    (o : Outcome) : (∀ s, (n.terminus r o).sent = some s → n.Home r s.1) ↔
      ((payload r o).isSome = true → n.LeadsHome r) := by
  have hok := ok_of_reachable hn
  rw [← hok.egress_iff (hok.flight r hr), sent_terminus]
  cases payload r o with
  | none => simp
  | some b =>
    constructor
    · intro h _ e he
      exact h (e, b) (by rw [he]; rfl)
    · intro h s hs
      obtain ⟨e, he, rfl⟩ := Option.map_eq_some_iff.mp hs
      exact h rfl e he

/-! ## One server and two -/

def granted : Grants := ⟨true, true, true, true⟩

def oneOctet : Rope := ⟨[View.overSegment ⟨[0], .HOST⟩]⟩

def answered : Outcome := ⟨.ok (), .ok oneOctet, true, none⟩

def oneServer : List Event :=
  [.construct (.slots (SlotServer.listening 8)), .addChild "a/s".toList 0 granted,
   .transport 0 (.accept true true), .receive 0 (some ⟨0, 1⟩) oneOctet]

theorem oneServer_replies_home : ∃ r ∈ (machine.run oneServer).inflight,
      ((machine.run oneServer).terminus r answered).sent = some (.peer 0 0, [0]) ∧
      (machine.run oneServer).LeadsHome r := by
  refine ⟨_, mem_cons_self, by decide +kernel, ?_⟩
  refine (replies_home_iff (machine.reachable_run _) mem_cons_self answered).mp ?_ rfl
  intro s hs
  have hsent : some s = some (Endpoint.peer 0 0, [0]) := hs.symm.trans (by decide +kernel)
  cases hsent
  exact ⟨rfl, ⟨0, 1⟩, rfl, by decide +kernel⟩

/-- Two stream servers are built and mounted, one peer connects to each, and the second server's
peer sends a request. -/
def twoServers : List Event :=
  [.construct (.slots (SlotServer.listening 8)), .construct (.slots (SlotServer.listening 8)),
   .addChild "a/s".toList 0 granted, .addChild "b/s".toList 1 granted,
   .transport 0 (.accept true true), .transport 1 (.accept true true),
   .receive 1 (some ⟨0, 1⟩) oneOctet]

/-- Both sessions are named `p0~1`, so the second server's peer asks and the first server's peer is
answered. -/
theorem reply_crosses_mounts :
    ∃ n, machine.Reachable n ∧ ∃ r ∈ n.inflight, r.link = 1 ∧ r.peer = some ⟨0, 1⟩ ∧
      (n.terminus r answered).sent = some (.peer 0 0, [0]) ∧ ¬ n.Home r (.peer 0 0) := by
  refine ⟨_, machine.reachable_run twoServers, _, mem_cons_self, rfl, rfl, ?_, ?_⟩
  · decide +kernel
  · rintro ⟨hlink, -⟩
    exact absurd hlink (by decide)

end Node

end LibTracer.Net
