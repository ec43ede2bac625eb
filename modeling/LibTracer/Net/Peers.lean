import LibTracer.Graph.Basic
import LibTracer.Lib.Decimal

/-!
# Peer tables

A multi-peer link (a *bus*) holds a table of the peers it can hear and hands out one directed
endpoint for each.  Two kinds are modelled: `SlotServer`, a stream or WebSocket server, and `CanBus`, a
CAN census.

**`Medium.peerLink_peerName`**: asking a bus for the name it gives to a handle is asking it for the
handle.
-/

namespace LibTracer.Net

open List

/-- `peer_handle_t`: a slot (or node id) and the generation of its tenancy. -/
structure PeerHandle where
  index : Nat
  generation : BitVec 32
deriving DecidableEq, Repr

namespace PeerHandle

def valid (p : PeerHandle) : Bool := p.generation != 0

def none : PeerHandle := ⟨0, 0⟩

end PeerHandle

/-! ## Session names -/

def kTenancySeparator : Char := '~'

/-- `format_session_name`: `p<slot>~<gen>`. -/
def formatSessionName (peer : PeerHandle) : Name :=
  'p' :: Decimal.digits peer.index ++
    kTenancySeparator :: Decimal.digits peer.generation.toNat

theorem formatSessionName_inj {p q : PeerHandle} : formatSessionName p = formatSessionName q ↔ p = q := by
  refine ⟨fun h => ?_, fun h => by rw [h]⟩
  have hsep (n : Nat) : kTenancySeparator ∉ Decimal.digits n := Decimal.notMem_digits rfl n
  obtain ⟨hindex, -, hgen⟩ :=
    (append_cons_inj_of_notMem (hsep _) (hsep _)).mp (List.cons.inj h).2
  cases p
  cases q
  simp only [Decimal.digits_inj] at hindex hgen
  rw [hindex, BitVec.toNat_inj.mp hgen]

/-! ## The slot server -/

/-- `session_base_t`, as far as naming and resolution read it. -/
structure Session where
  /-- The slot has a descriptor (`fd >= 0`). -/
  connected : Bool
  /-- `open`: frames flow. -/
  isOpen : Bool
  handle : PeerHandle
  name : Name
  /-- The last generation minted for this slot. -/
  genSeq : BitVec 32
deriving DecidableEq, Repr

variable {s : Session} {name : Name} {peer : PeerHandle} {i : Nat}

namespace Session

/-- `make_session`: a slot nobody has held. -/
def fresh : Session := ⟨false, false, PeerHandle.none, [], 0⟩

def nextGen (s : Session) : BitVec 32 := if s.genSeq + 1 = 0 then 1 else s.genSeq + 1

/-- `accept_peer` on the slot with index `idx`: a fresh tenancy, open at once for a stream peer and
only past its handshake for a WebSocket one. -/
def seat (s : Session) (idx : Nat) (opensNow : Bool) : Session :=
  let handle := ⟨idx, s.nextGen⟩
  ⟨true, opensNow, handle, formatSessionName handle, s.nextGen⟩

/-- `open_session`, which only a connected slot reaches. -/
def opened (s : Session) : Session := if s.connected then { s with isOpen := true } else s

/-- `teardown_slot`: the name and the handle are retired with the tenancy, the generation is not. -/
def teardown (s : Session) : Session :=
  { s with connected := false, isOpen := false, handle := PeerHandle.none, name := [] }

/-- What slot `i` of a server always satisfies: an open session is connected, and a connected one
carries the handle of this slot in its current generation, and the name of that handle. -/
structure TenancyOf (i : Nat) (s : Session) : Prop where
  connected_of_open : s.isOpen = true → s.connected = true
  handle_eq : s.connected = true → s.handle = ⟨i, s.genSeq⟩
  gen_ne : s.connected = true → s.genSeq ≠ 0
  name_eq : s.connected = true → s.name = formatSessionName s.handle

theorem nextGen_ne (s : Session) : s.nextGen ≠ 0 := by
  unfold nextGen
  split
  · decide
  · assumption

theorem tenancyOf_of_free (i : Nat) (hc : s.connected = false)
    (ho : s.isOpen = false) : s.TenancyOf i := by
  constructor <;> intro h
  · cases ho.symm.trans h
  all_goals cases hc.symm.trans h

theorem seat_tenancyOf (s : Session) (i : Nat) (opensNow : Bool) : (s.seat i opensNow).TenancyOf i :=
  ⟨fun _ => rfl, fun _ => rfl, fun _ => s.nextGen_ne, fun _ => rfl⟩

theorem TenancyOf.opened (h : s.TenancyOf i) : s.opened.TenancyOf i := by
  unfold Session.opened
  split
  next hc => exact ⟨fun _ => hc, h.handle_eq, h.gen_ne, h.name_eq⟩
  · exact h

theorem teardown_tenancyOf (i : Nat) (s : Session) : s.teardown.TenancyOf i :=
  tenancyOf_of_free i rfl rfl

end Session

/-- `slot_server_t`: the slots in the order they were made, each in its own tenancy. -/
structure SlotServer where
  maxPeers : Nat
  slots : List Session
  tenancy : ∀ i (s : Session), slots[i]? = some s → s.TenancyOf i

namespace SlotServer

def listening (maxPeers : Nat) : SlotServer where
  maxPeers := maxPeers
  slots := []
  tenancy := fun _ _ h => nomatch h

/-- Change the slot at `i` by an operation that keeps every tenancy of that slot. -/
def edit (srv : SlotServer) (i : Nat) (f : Session → Session)
    (hf : ∀ s : Session, s.TenancyOf i → (f s).TenancyOf i) : SlotServer where
  maxPeers := srv.maxPeers
  slots := srv.slots.modify i f
  tenancy := by
    intro j s h
    rw [List.getElem?_modify] at h
    obtain ⟨t, ht, rfl⟩ := Option.map_eq_some_iff.mp h
    by_cases hij : i = j
    · subst hij
      rw [if_pos rfl]
      exact hf t (srv.tenancy i t ht)
    · rw [if_neg hij]
      exact srv.tenancy j t ht

def grow (srv : SlotServer) (opensNow : Bool) : SlotServer where
  maxPeers := srv.maxPeers
  slots := srv.slots ++ [Session.fresh.seat srv.slots.length opensNow]
  tenancy := by
    intro j s h
    by_cases hj : j < srv.slots.length
    · rw [List.getElem?_append_left hj] at h
      exact srv.tenancy j s h
    obtain ⟨hlen, -⟩ := List.getElem?_eq_some_iff.mp h
    have hlast : j = srv.slots.length := by
      rw [length_append, length_singleton] at hlen
      omega
    rw [hlast, List.getElem?_concat_length] at h
    cases h
    rw [hlast]
    exact Session.seat_tenancyOf Session.fresh _ opensNow

/-- `accept_peer`: the first slot without a descriptor, else a new slot while the cap and the
memory (`room`) allow one, else the peer is refused. -/
def acceptPeer (srv : SlotServer) (opensNow room : Bool) : SlotServer :=
  match srv.slots.findIdx? (fun s => !s.connected) with
  | some i => srv.edit i (·.seat i opensNow) fun s _ => s.seat_tenancyOf i opensNow
  | none => if srv.slots.length ≥ srv.maxPeers || !room then srv else srv.grow opensNow

def openSession (srv : SlotServer) (i : Nat) : SlotServer :=
  srv.edit i Session.opened fun _ h => h.opened

def teardownSlot (srv : SlotServer) (i : Nat) : SlotServer :=
  srv.edit i Session.teardown fun s _ => Session.teardown_tenancyOf i s

/-- `peer_link`: the first open slot of that name; the endpoint is named by its slot. -/
def peerLink (srv : SlotServer) (peer : Name) : Option Nat :=
  srv.slots.findIdx? fun s => s.isOpen && s.name == peer

/-- `peer_link_of`: the slot the handle names, while it is open in that tenancy. -/
def peerLinkOf (srv : SlotServer) (peer : PeerHandle) : Option Nat :=
  if !peer.valid then none
  else match srv.slots[peer.index]? with
    | none => none
    | some s => if s.isOpen && s.handle == peer then some peer.index else none

/-- `peer_name`: the same formatting the accept stamped the slot with. -/
def peerName (peer : PeerHandle) : Option Name :=
  if !peer.valid then none else some (formatSessionName peer)

theorem answers_iff (srv : SlotServer) (hs : srv.slots[i]? = some s)
    (peer : PeerHandle) : (s.isOpen && s.name == formatSessionName peer) = true ↔
      s.isOpen = true ∧ s.handle = peer ∧ peer.index = i ∧ peer.valid = true := by
  have ht := srv.tenancy i s hs
  rw [Bool.and_eq_true, beq_iff_eq]
  refine and_congr_right fun hopen => ?_
  have hc := ht.connected_of_open hopen
  rw [ht.name_eq hc, formatSessionName_inj]
  refine ⟨fun h => ⟨h, ?_, ?_⟩, fun h => h.1⟩
  · rw [← h, ht.handle_eq hc]
  · rw [← h, ht.handle_eq hc]
    exact bne_iff_ne.mpr (ht.gen_ne hc)

/-- The session `peer` stands open in slot `i`. -/
def Seated (srv : SlotServer) (peer : PeerHandle) (i : Nat) : Prop :=
  peer.valid = true ∧ peer.index = i ∧
    ∃ s, srv.slots[i]? = some s ∧ s.isOpen = true ∧ s.handle = peer

section

variable (srv : SlotServer) (peer : PeerHandle)

theorem peerLink_eq_some_iff (i : Nat) :
    srv.peerLink (formatSessionName peer) = some i ↔ srv.Seated peer i := by
  unfold peerLink Seated
  rw [List.findIdx?_eq_some_iff_getElem]
  constructor
  · rintro ⟨hlen, hans, -⟩
    have hi : srv.slots[i]? = some srv.slots[i] := List.getElem?_eq_getElem _
    obtain ⟨hopen, hhandle, hindex, hvalid⟩ := (srv.answers_iff hi peer).mp hans
    exact ⟨hvalid, hindex, _, hi, hopen, hhandle⟩
  · rintro ⟨hvalid, hindex, s, hs, hopen, hhandle⟩
    obtain ⟨hlen, hget⟩ := List.getElem?_eq_some_iff.mp hs
    refine ⟨hlen, ?_, fun j hj hans => ?_⟩
    · rw [hget]
      exact (srv.answers_iff hs peer).mpr ⟨hopen, hhandle, hindex, hvalid⟩
    · -- the index is part of the name, so no earlier slot can carry it
      have hj' : srv.slots[j]? = some srv.slots[j] := List.getElem?_eq_getElem _
      have := ((srv.answers_iff hj' peer).mp hans).2.2.1
      omega

theorem peerLinkOf_eq_some_iff (i : Nat) : srv.peerLinkOf peer = some i ↔ srv.Seated peer i := by
  unfold peerLinkOf Seated
  cases hv : peer.valid with
  | false => simp
  | true =>
    cases hs : srv.slots[peer.index]? with
    | none =>
      simp only [Bool.not_true, Bool.false_eq_true, if_false, reduceCtorEq, true_and, false_iff]
      rintro ⟨rfl, s, hs', -⟩
      cases hs.symm.trans hs'
    | some s =>
      simp only [Bool.not_true, Bool.false_eq_true, if_false, true_and, Option.ite_none_right_eq_some,
        Bool.and_eq_true, beq_iff_eq, Option.some.injEq]
      constructor
      · rintro ⟨⟨hopen, hhandle⟩, rfl⟩
        exact ⟨rfl, s, hs, hopen, hhandle⟩
      · rintro ⟨rfl, t, ht, hopen, hhandle⟩
        cases hs.symm.trans ht
        exact ⟨⟨hopen, hhandle⟩, rfl⟩

/-- **A slot server resolves the name of a handle as it resolves the handle.** -/
theorem peerLink_formatSessionName : srv.peerLink (formatSessionName peer) = srv.peerLinkOf peer := by
  ext i
  rw [peerLink_eq_some_iff, peerLinkOf_eq_some_iff]

end

end SlotServer

/-! ## The CAN census -/

/-- `can::kNodeMax`: the largest 13-bit node id. -/
def kNodeMax : Nat := 8191

/-- `kAnnouncedPeerGeneration`: the one generation a census peer has. -/
def kAnnouncedPeerGeneration : BitVec 32 := 1

/-- `format_peer_name`: `n<node>`. -/
def formatPeerName (node : Nat) : Name := 'n' :: Decimal.digits node

/-- The digit loop of `parse_peer_name`, which gives up as soon as the bound is passed. -/
def parseNode (v : Nat) : Name → Option Nat
  | [] => some v
  | c :: cs =>
    if c.isDigit then
      let v' := v * 10 + (c.toNat - '0'.toNat)
      if v' > kNodeMax then none else parseNode v' cs
    else none

/-- `parse_peer_name`: canonical names only, no leading zero. -/
def parsePeerName : Name → Option Nat
  | 'n' :: c :: cs => if !cs.isEmpty && c == '0' then none else parseNode 0 (c :: cs)
  | _ => none

theorem parseNode_of_digits {ds : List Char} (hd : ∀ c ∈ ds, c.isDigit = true) (v : Nat)
    (hv : Decimal.value v ds ≤ kNodeMax) : parseNode v ds = some (Decimal.value v ds) := by
  induction ds generalizing v with
  | nil => rfl
  | cons c ds ih =>
    rw [Decimal.value_cons] at hv ⊢
    have hle := Nat.le_trans (Decimal.le_value _ ds) hv
    show (if c.isDigit = true then _ else _) = _
    rw [if_pos (hd c mem_cons_self)]
    show (if _ > kNodeMax then _ else _) = _
    rw [if_neg (Nat.not_lt.mpr hle)]
    exact ih (fun d hmem => hd d (mem_cons_of_mem c hmem)) _ hv

theorem parsePeerName_formatPeerName {node : Nat} (h : node ≤ kNodeMax) :
    parsePeerName (formatPeerName node) = some node := by
  unfold formatPeerName
  obtain ⟨c, cs, hd⟩ := exists_cons_of_ne_nil (Decimal.digits_ne_nil node)
  have hval : Decimal.value 0 (c :: cs) = node := by rw [← hd, Decimal.value_digits]
  have hlead : ¬ (!cs.isEmpty && c == '0') = true := by
    rw [Bool.and_eq_true, beq_iff_eq]
    rintro ⟨hne, rfl⟩
    rw [Decimal.eq_zero_of_head hd] at hne
    exact absurd hne (by decide)
  rw [hd]
  show (if (!cs.isEmpty && c == '0') = true then none else parseNode 0 (c :: cs)) = some node
  rw [if_neg hlead, parseNode_of_digits (fun d hmem => ?_) 0 (by rw [hval]; exact h), hval]
  rw [← hd] at hmem
  exact Decimal.isDigit_of_mem hmem

/-- `can_transport_t`'s census: each node heard, with the time it was last heard at. -/
structure CanBus where
  peerTtl : Nat
  peers : List (Nat × Nat)

namespace CanBus

/-- `touch_peer`: an existing entry is refreshed; a new one needs a block (`room`). -/
def touchPeer (bus : CanBus) (node now : Nat) (room : Bool) : CanBus :=
  if (bus.peers.lookup node).isSome then
    { bus with peers := bus.peers.map fun e => if e.1 == node then (node, now) else e }
  else if room then { bus with peers := bus.peers ++ [(node, now)] }
  else bus

/-- `peer_link_of`: a node of this bus heard within the time to live; the endpoint is named by the
node id. -/
def peerLinkOf (bus : CanBus) (now : Nat) (peer : PeerHandle) : Option Nat :=
  if peer.generation != kAnnouncedPeerGeneration || peer.index > kNodeMax then none
  else match bus.peers.lookup peer.index with
    | none => none
    | some lastHeard => if now - lastHeard > bus.peerTtl then none else some peer.index

def peerLink (bus : CanBus) (now : Nat) (peer : Name) : Option Nat :=
  match parsePeerName peer with
  | none => none
  | some node => bus.peerLinkOf now ⟨node, kAnnouncedPeerGeneration⟩

/-- `peer_name`: no table is read, only the range is checked. -/
def peerName (peer : PeerHandle) : Option Name :=
  if peer.generation != kAnnouncedPeerGeneration || peer.index > kNodeMax then none
  else some (formatPeerName peer.index)

/-- **A census resolves the name of a handle as it resolves the handle.** -/
theorem peerLink_of_peerName (bus : CanBus) (now : Nat)
    (h : peerName peer = some name) : bus.peerLink now name = bus.peerLinkOf now peer := by
  unfold peerName at h
  split at h
  · exact absurd h (by simp)
  next hp =>
  cases h
  rw [Bool.or_eq_true, bne_iff_ne, decide_eq_true_eq, not_or, not_not] at hp
  unfold peerLink
  rw [parsePeerName_formatPeerName (Nat.not_lt.mp hp.2), ← hp.1]

end CanBus

/-! ## What a transport is built on -/

/-- The medium of a transport: a point-to-point link (a flat server included, which has one routing
identity for all its peers), or a bus. -/
inductive Medium where
  | flat
  | slots (server : SlotServer)
  | can (bus : CanBus)

inductive MediumEvent where
  | accept (opensNow room : Bool)
  | openSession (slot : Nat)
  | teardown (slot : Nat)
  | heard (node : Nat) (room : Bool)

namespace Medium

/-- `bus_of(link) != nullptr`. -/
def isBus : Medium → Bool
  | flat => false
  | slots _ => true
  | can _ => true

/-- `bus_link_t::peer_name`; the empty name is no name. -/
def peerName (m : Medium) (peer : PeerHandle) : Option Name :=
  match m with
  | flat => none
  | slots _ => SlotServer.peerName peer
  | can _ => CanBus.peerName peer

def peerLink (m : Medium) (now : Nat) (peer : Name) : Option Nat :=
  match m with
  | flat => none
  | slots server => server.peerLink peer
  | can bus => bus.peerLink now peer

def peerLinkOf (m : Medium) (now : Nat) (peer : PeerHandle) : Option Nat :=
  match m with
  | flat => none
  | slots server => server.peerLinkOf peer
  | can bus => bus.peerLinkOf now peer

/-- One event inside the transport, at time `now`. -/
def step (m : Medium) (now : Nat) (e : MediumEvent) : Medium :=
  match m, e with
  | slots server, .accept opensNow room => slots (server.acceptPeer opensNow room)
  | slots server, .openSession i => slots (server.openSession i)
  | slots server, .teardown i => slots (server.teardownSlot i)
  | can bus, .heard node room => can (bus.touchPeer node now room)
  | m, _ => m

@[simp] theorem isBus_step (m : Medium) (now : Nat) (e : MediumEvent) :
    (m.step now e).isBus = m.isBus := by
  cases m <;> cases e <;> rfl

@[simp] theorem peerName_step (m : Medium) (now : Nat) (e : MediumEvent) (peer : PeerHandle) :
    (m.step now e).peerName peer = m.peerName peer := by
  cases m <;> cases e <;> rfl

/-- **Asking a bus for the name it gives to a handle is asking it for the handle.** -/
theorem peerLink_peerName (m : Medium) (now : Nat)
    (h : m.peerName peer = some name) : m.peerLink now name = m.peerLinkOf now peer := by
  cases m with
  | flat => exact nomatch h
  | slots server =>
    change (if !peer.valid then none else some _) = some name at h
    split at h
    · exact nomatch h
    · cases h
      exact server.peerLink_formatSessionName peer
  | can bus => exact bus.peerLink_of_peerName now h

end Medium

end LibTracer.Net
