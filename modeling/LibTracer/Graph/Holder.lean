import LibTracer.Graph.EdgeMap
import LibTracer.Graph.Leak

/-!
# Who may change a subscription slot

A write to `:subscribers[N]` is gated first and made later.  The gate takes a share of the edge it
found in the slot, and the slot verb lands on that edge alone; between the two anything may happen.
An edge's address is given out again once nothing shares it.

* **`SlotWrites.holder_rule`** — what a slot write of a caller other than the owner can change.
-/

namespace LibTracer.Graph

open List

/-! ## The gate -/

structure Gate where
  policy : AclPolicy
  lookup : SubjectLookup
  acl : AclSpec

namespace Gate

variable (q : Gate)

/-- `acl_allows`. -/
def allows (k : Key) (caller : Name) (right : AclRight) : Bool :=
  reference q.policy q.lookup q.acl k caller right

/-- Whether a stored context is the caller's: byte for byte, or with a resolver the same unreserved
subject. -/
def sameHolder (held caller : Name) : Bool :=
  match q.lookup with
  | .unsettled => false
  | .notInstalled | .cleared => held == caller
  | .resolver resolve =>
    match resolve held, resolve caller with
    | some (a, _), some (b, _) => !isReservedSubject a && a == b
    | _, _ => false

/-- `may_write_slot`: the owner, or with `READ` the holder of the edge in the slot. -/
def maySlot (k : Key) (caller : Name) (edge : Option SubscriberRemote) : Bool :=
  if caller.isEmpty then true
  else if !q.allows k caller .READ then false
  else edge.any fun r => !r.caller.isEmpty && q.sameHolder r.caller caller

variable {q}

theorem of_maySlot {k : Key} {caller : Name} {edge : Option SubscriberRemote}
    (hremote : caller ≠ []) (h : q.maySlot k caller edge = true) : q.allows k caller .READ = true ∧
      ∃ r, edge = some r ∧ r.caller ≠ [] ∧ q.sameHolder r.caller caller = true := by
  have hne : ¬ caller.isEmpty = true := by simpa using hremote
  rw [maySlot, if_neg hne] at h
  split at h
  · cases h
  next hread =>
  cases edge with
  | none => cases h
  | some r =>
    rw [Option.any_some, Bool.and_eq_true] at h
    exact ⟨by simpa using hread, r, rfl, by simpa using h.1, h.2⟩

end Gate

/-! ## Slot writes in two steps -/

/-- `remote_ptr_t`: a share of a cold half, at its address. -/
structure RemotePtr where
  addr : Nat
  record : SubscriberRemote

/-- An edge, and the address of its cold half if it has one. -/
structure Addressed where
  edge : Edge
  addr : Nat

def Addressed.share (f : Addressed) : Option RemotePtr := f.edge.remote.map (⟨f.addr, ·⟩)

def Addressed.cold (f : Addressed) : Option Nat := f.share.map RemotePtr.addr

/-- A write to `:subscribers[N]` that has passed its gate.  It keeps a share of the edge the gate
found. -/
structure Checked where
  slot : Nat
  payload : SlotWrite
  ctx : WriteCtx
  edge : Option RemotePtr

def slotVerb {ε ι : Type} (tag : Edge → ε) (slot : Nat) (payload : SlotWrite) (ctx : WriteCtx)
    (expect : Option ι) : Option (EdgeOp ε Unit ι) :=
  match payload with
  | .clear => some (.clear slot expect)
  | .record r =>
    if r.targetKey.isNone then none
    else some (.replace slot ⟨tag (State.fieldEdge r ctx), ()⟩ expect)

theorem slotVerb_aims {ε ι : Type} {tag : Edge → ε} {slot : Nat} {payload : SlotWrite}
    {ctx : WriteCtx} {expect : Option ι} {op : EdgeOp ε Unit ι}
    (h : slotVerb tag slot payload ctx expect = some op) :
    op.aims = some (slot, expect) ∧ ∀ f, op.brings = some f → ∃ e, f = tag e := by
  cases payload with
  | clear =>
    cases h
    exact ⟨rfl, fun f hf => by cases hf⟩
  | record r =>
    rw [slotVerb] at h
    split at h
    · cases h
    next htarget =>
    cases h
    exact ⟨rfl, fun f hf => by cases hf; exact ⟨_, rfl⟩⟩

/-- What can happen to the edges of a vertex.  A step that makes a cold half says where the allocator
puts it. -/
inductive SlotEvent where
  | subscribe (g : Grants) (e : Edge) (addr : Nat)
  | unsubscribe (g : Grants) (idx : Nat)
  | suspend (idx : Nat) (suspended : Bool)
  | evictLink (g : Grants) (link : Name) (pair : Option LinkPair)
  | evictRoute (g : Grants) (link : Option LinkPair) (route : List UInt8) (boundEcho : Bool)
  | retire
  | check (q : Gate) (slot : Nat) (payload : SlotWrite) (ctx : WriteCtx)
  | change (i : Nat) (g : Grants) (addr : Nat)
  | abandon (i : Nat)

/-- The edges of a vertex, and the slot writes between their check and their change. -/
structure SlotWrites where
  edges : Option (EdgeBlock Addressed Unit) := none
  inFlight : List Checked := []

namespace SlotWrites

open EdgeTable (slotMap published)

def edgeHolder (edges : Option (EdgeBlock Addressed Unit)) (slot : Nat) : Option RemotePtr :=
  match edges with
  | none => none
  | some b =>
    if !EdgeBlock.occupied b.slots slot then none
    else (EdgeBlock.entryOf b.pub slot).bind (·.fields.share)

variable (st : SlotWrites)

/-- The addresses in use: an entry of the array shares one, or a write in flight does. -/
def shared : List Nat :=
  (published st.edges).filterMap (·.fields.cold) ++
    st.inFlight.filterMap fun w => w.edge.map RemotePtr.addr

def verb (g : Grants) (op : EdgeOp Addressed Unit Nat) : SlotWrites :=
  { st with edges := (EdgeTable.step Addressed.cold Addressed.edge g st.edges op).1 }

/-- One event.  No address in use is given out; a gate that refuses lets no write into flight. -/
def step (k : Key) : SlotEvent → SlotWrites
  | .subscribe g e addr =>
    if st.shared.contains addr then st else st.verb g (.add ⟨⟨e, addr⟩, ()⟩)
  | .unsubscribe g idx => st.verb g (.clear idx none)
  | .suspend idx suspended => st.verb {} (.suspend idx suspended)
  | .evictLink g link pair => st.verb g (.evictLink link pair)
  | .evictRoute g link route boundEcho => st.verb g (.evictRoute link route boundEcho)
  | .retire => { st with edges := st.edges.map fun _ => {} }
  | .check q slot payload ctx =>
    let edge := edgeHolder st.edges slot
    if q.maySlot k ctx.subject (edge.map RemotePtr.record) then
      { st with inFlight := st.inFlight ++ [⟨slot, payload, ctx, edge⟩] }
    else st
  | .change i g addr =>
    match st.inFlight[i]? with
    | none => st
    | some w =>
      if st.shared.contains addr then st
      else
        match slotVerb (⟨·, addr⟩) w.slot w.payload w.ctx (w.edge.map RemotePtr.addr) with
        | none => { st with inFlight := st.inFlight.eraseIdx i }
        | some op => { st.verb g op with inFlight := st.inFlight.eraseIdx i }
  | .abandon i => { st with inFlight := st.inFlight.eraseIdx i }

/-- The edges of the vertex `k`, from none. -/
def machine (k : Key) : Machine SlotWrites SlotEvent Unit := ⟨{}, fun st ev => (st.step k ev, ())⟩

/-! ## An address that is shared names one record -/

def Names (m : SlotMap Addressed) (q : RemotePtr) : Prop :=
  ∀ i o, m i = some o → o.edge.cold = some q.addr → o.edge.share = some q

/-- What holds of the edges and the writes in flight in every state. -/
structure Guarded (st : SlotWrites) : Prop where
  sound : EdgeTable.Sound st.edges
  held : ∀ i o q, slotMap st.edges i = some o → o.edge.share = some q → Names (slotMap st.edges) q
  inFlight : ∀ w ∈ st.inFlight, ∀ q, w.edge = some q → Names (slotMap st.edges) q

variable {st} {k : Key} {i : Nat} {w : Checked}

/-- What the change of a write in flight does: nothing while its address is in use, nothing to the
edges for a record without a target, else its verb. -/
theorem change_cases (hw : st.inFlight[i]? = some w) (k : Key) (g : Grants)
    (addr : Nat) : st.step k (.change i g addr) = st ∨
      st.step k (.change i g addr) = { st with inFlight := st.inFlight.eraseIdx i } ∨
      ∃ op, slotVerb (⟨·, addr⟩) w.slot w.payload w.ctx (w.edge.map RemotePtr.addr) = some op ∧
        addr ∉ st.shared ∧
        st.step k (.change i g addr) =
          { st.verb g op with inFlight := st.inFlight.eraseIdx i } := by
  rw [step, hw]
  dsimp only
  by_cases hin : st.shared.contains addr = true
  · exact .inl (if_pos hin)
  rw [if_neg hin]
  refine .inr ?_
  cases hop : slotVerb (Addressed.mk · addr) w.slot w.payload w.ctx (w.edge.map RemotePtr.addr) with
  | none => exact .inl rfl
  | some op => exact .inr ⟨op, rfl, mt contains_iff_mem.mpr hin, rfl⟩

theorem verb_moves (h : EdgeTable.Sound st.edges) (g : Grants) (op : EdgeOp Addressed Unit Nat) :
    EdgeTable.Sound (st.verb g op).edges ∧ ∃ r, Moves Addressed.cold Addressed.edge (slotMap st.edges) op r
        (slotMap (st.verb g op).edges) := by
  obtain ⟨hsound, hmove⟩ := EdgeTable.step_moves h g op
  exact ⟨hsound, _, hmove⟩

theorem edgeHolder_eq (edges : Option (EdgeBlock Addressed Unit)) (slot : Nat) :
    edgeHolder edges slot = (slotMap edges slot).bind (·.edge.share) := by
  cases edges with
  | none => rfl
  | some b =>
    cases hocc : EdgeBlock.occupied b.slots slot with
    | false => simp [edgeHolder, EdgeTable.slotMap, EdgeBlock.slotMap, hocc]
    | true =>
      cases hentry : EdgeBlock.entryOf b.pub slot <;>
        simp [edgeHolder, EdgeTable.slotMap, EdgeBlock.slotMap, hocc, hentry]

theorem mem_shared_of_slot (hsound : EdgeTable.Sound st.edges) {a : Nat} {o : Occupant Addressed}
    (ho : slotMap st.edges i = some o) (ha : o.edge.cold = some a) : a ∈ st.shared := by
  refine mem_append_left _ (mem_filterMap.mpr ?_)
  cases hedges : st.edges with
  | none =>
    rw [hedges] at ho
    cases ho
  | some b =>
    rw [hedges] at ho
    obtain ⟨-, e, he, -, -, rfl⟩ := EdgeBlock.of_slotMap (hsound b hedges) ho
    exact ⟨e, he, ha⟩

theorem mem_shared_of_inFlight (hw : w ∈ st.inFlight) {q : RemotePtr}
    (hq : w.edge = some q) : q.addr ∈ st.shared :=
  mem_append_right _ (mem_filterMap.mpr ⟨w, hw, by rw [hq]; rfl⟩)

theorem Guarded.verb (h : Guarded st) (g : Grants) {op : EdgeOp Addressed Unit Nat}
    (hfresh : ∀ f, op.brings = some f → f.addr ∉ st.shared) : Guarded (st.verb g op) := by
  obtain ⟨hsound, r, hmove⟩ := verb_moves h.sound g op
  have hcold : ∀ {f : Addressed} {a : Nat}, f.cold = some a → f.addr = a := by
    intro f a hf
    rw [Addressed.cold, Addressed.share, Option.map_map] at hf
    obtain ⟨r, -, hr⟩ := Option.map_eq_some_iff.mp hf
    exact hr
  -- a share that is in use keeps its record: what is brought has another address
  have hkeep : ∀ q : RemotePtr, Names (slotMap st.edges) q → q.addr ∈ st.shared →
      Names (slotMap (st.verb g op).edges) q := by
    intro q hq hin i o ho hc
    rcases hmove.origin ho with ⟨live, hold⟩ | hbrought
    · exact hq i ⟨o.edge, live⟩ hold hc
    · exact absurd (hcold hc ▸ hin) (hfresh _ hbrought)
  refine ⟨hsound, fun i o q ho hq => ?_, fun w hw q hq => ?_⟩
  · have haddr : o.edge.cold = some q.addr := by rw [Addressed.cold, hq]; rfl
    rcases hmove.origin ho with ⟨live, hold⟩ | hbrought
    · exact hkeep q (h.held i _ q hold hq) (mem_shared_of_slot h.sound hold haddr)
    intro j o' ho' hc'
    rcases hmove.origin ho' with ⟨live, hold⟩ | hbrought'
    · have hin := mem_shared_of_slot h.sound hold hc'
      exact absurd (hcold haddr ▸ hin) (hfresh _ hbrought)
    · rwa [Option.some.inj (hbrought'.symm.trans hbrought)]
  · have hw' : w ∈ st.inFlight := hw
    exact hkeep q (h.inFlight w hw' q hq) (mem_shared_of_inFlight hw' hq)

theorem Guarded.sublist (h : Guarded st) {ws : List Checked} (hws : ws.Sublist st.inFlight) :
    Guarded { st with inFlight := ws } :=
  ⟨h.sound, h.held, fun w hw => h.inFlight w (hws.subset hw)⟩

theorem Guarded.step (h : Guarded st) (ev : SlotEvent) : Guarded (st.step k ev) := by
  -- a verb that brings no edge needs no address
  have hnone : ∀ {op : EdgeOp Addressed Unit Nat}, op.brings = none →
      ∀ f, op.brings = some f → f.addr ∉ st.shared := by
    intro op hop f hf
    rw [hop] at hf
    cases hf
  cases ev with
  | subscribe g e addr =>
    rw [SlotWrites.step]
    by_cases hin : st.shared.contains addr = true
    · rwa [if_pos hin]
    rw [if_neg hin]
    refine h.verb g fun f hf => ?_
    cases hf
    exact mt contains_iff_mem.mpr hin
  | unsubscribe g idx | evictLink g link pair | evictRoute g link route boundEcho =>
    exact h.verb g (hnone rfl)
  | suspend idx suspended => exact h.verb {} (hnone rfl)
  | retire =>
    have hempty : slotMap (st.step k .retire).edges = fun _ => none := by
      rw [SlotWrites.step]
      cases st.edges with
      | none => rfl
      | some b => exact EdgeBlock.empty_published.2
    refine ⟨fun b hb => ?_, fun i o q ho => ?_, fun w hw q hq i o ho => ?_⟩
    · obtain ⟨-, -, rfl⟩ := Option.map_eq_some_iff.mp hb
      exact EdgeBlock.empty_published.1
    all_goals
      rw [hempty] at ho
      cases ho
  | check q slot payload ctx =>
    rw [SlotWrites.step]
    split
    · refine ⟨h.sound, h.held, fun w hw p hp => ?_⟩
      rcases mem_append.mp hw with hw | hw
      · exact h.inFlight w hw p hp
      -- the share of the new write is that of an edge in the map
      cases mem_singleton.mp hw
      rw [edgeHolder_eq] at hp
      obtain ⟨o, ho, hshare⟩ := Option.bind_eq_some_iff.mp hp
      exact h.held slot o p ho hshare
    · exact h
  | change i g addr =>
    cases hw : st.inFlight[i]? with
    | none =>
      rw [SlotWrites.step, hw]
      exact h
    | some w =>
      rcases change_cases hw k g addr with heq | heq | ⟨op, hop, hfresh, heq⟩ <;> rw [heq]
      · exact h
      · exact h.sublist (eraseIdx_sublist ..)
      · refine Guarded.sublist (h.verb g fun f hf => ?_) (eraseIdx_sublist ..)
        obtain ⟨e, rfl⟩ := (slotVerb_aims hop).2 f hf
        exact hfresh
  | abandon i => exact h.sublist (eraseIdx_sublist ..)

theorem guarded_run (events : List SlotEvent) : Guarded ((machine k).run events) := by
  refine (machine k).runFrom_invariant (fun st ev h => h.step ev) _ events ?_
  refine ⟨?_, ?_, ?_⟩
  · intro b hb
    cases hb
  · intro i o q ho
    cases ho
  · intro w hw
    cases hw

/-! ## The holder rule -/

theorem checked_of_inFlight (events : List SlotEvent) (hw : w ∈ ((machine k).run events).inFlight) :
    ∃ front q, front ++ [.check q w.slot w.payload w.ctx] <+: events ∧
      w.edge = edgeHolder ((machine k).run front).edges w.slot ∧
      q.maySlot k w.ctx.subject (w.edge.map RemotePtr.record) = true := by
  -- by induction on the history from its end: a write is in flight before the last event, or that
  -- is its check
  induction events using List.reverseRecOn with
  | nil => cases hw
  | append_singleton events ev ih =>
    have hlater : w ∈ ((machine k).run events).inFlight →
        ∃ front q, front ++ [.check q w.slot w.payload w.ctx] <+: events ++ [ev] ∧
          w.edge = edgeHolder ((machine k).run front).edges w.slot ∧
          q.maySlot k w.ctx.subject (w.edge.map RemotePtr.record) = true := by
      intro hold
      obtain ⟨front, q, hfront, hq⟩ := ih hold
      exact ⟨front, q, hfront.trans (prefix_append ..), hq⟩
    rw [Machine.run, Machine.runFrom_append] at hw
    change w ∈ (((machine k).run events).step k ev).inFlight at hw
    generalize hst : (machine k).run events = st at hw hlater
    cases ev with
    | subscribe g e addr =>
      rw [step] at hw
      split at hw <;> exact hlater hw
    | unsubscribe g idx | suspend idx suspended | evictLink g link pair
    | evictRoute g link route boundEcho | retire => exact hlater hw
    | check q slot payload ctx =>
      rw [step] at hw
      split at hw
      · next hmay =>
        rcases mem_append.mp hw with hw | hw
        · exact hlater hw
        · cases mem_singleton.mp hw
          exact ⟨events, q, prefix_refl _, by rw [hst], hmay⟩
      · exact hlater hw
    | change i g addr =>
      cases hwi : st.inFlight[i]? with
      | none =>
        rw [step, hwi] at hw
        exact hlater hw
      | some w' =>
        have hsub := (eraseIdx_sublist st.inFlight i).subset
        rcases change_cases hwi k g addr with heq | heq | ⟨op, -, -, heq⟩ <;> rw [heq] at hw
        · exact hlater hw
        all_goals exact hlater (hsub hw)
    | abandon i => exact hlater ((eraseIdx_sublist st.inFlight i).subset hw)

theorem Guarded.change (h : Guarded st) (hw : st.inFlight[i]? = some w)
    {ptr : RemotePtr} (hptr : w.edge = some ptr) (k : Key) (g : Grants) (addr : Nat) : (∀ j, j ≠ w.slot →
        slotMap (st.step k (.change i g addr)).edges j = slotMap st.edges j) ∧
      (slotMap (st.step k (.change i g addr)).edges w.slot ≠ slotMap st.edges w.slot →
        ∃ o, slotMap st.edges w.slot = some o ∧ o.edge.share = some ptr) := by
  rcases change_cases hw k g addr with heq | heq | ⟨op, hop, -, heq⟩ <;> rw [heq]
  · exact ⟨fun _ _ => rfl, fun hne => absurd rfl hne⟩
  · exact ⟨fun _ _ => rfl, fun hne => absurd rfl hne⟩
  · obtain ⟨-, r, hmove⟩ := verb_moves h.sound g op
    rw [hptr] at hop
    obtain ⟨hothers, hslot⟩ := hmove.aimed (slotVerb_aims hop).1
    refine ⟨hothers, fun hne => ?_⟩
    -- an edge at the address that was checked, which is shared and so names one record
    obtain ⟨o, ho, hcold⟩ := hslot hne
    exact ⟨o, ho, h.inFlight w (mem_of_getElem? hw) ptr hptr w.slot o ho hcold⟩

/-- **The holder rule.**  In every history, the change of a slot write whose caller is not the owner
touches its slot alone; and that one only if, when the write was checked, the caller could read the
vertex and the slot held an edge of the caller's own subject, and holds that very edge still.  An
edge of the owner stays. -/
theorem holder_rule (k : Key) (events : List SlotEvent) {i : Nat} {w : Checked}
    (hw : ((machine k).run events).inFlight[i]? = some w) (hremote : w.ctx.subject ≠ [])
    (g : Grants) (addr : Nat) :
    let st := (machine k).run events
    let after := st.step k (.change i g addr)
    (∀ j, j ≠ w.slot → slotMap after.edges j = slotMap st.edges j) ∧
      (slotMap after.edges w.slot ≠ slotMap st.edges w.slot →
        ∃ front q o r, front ++ [.check q w.slot w.payload w.ctx] <+: events ∧
          q.allows k w.ctx.subject .READ = true ∧
          edgeHolder ((machine k).run front).edges w.slot = some ⟨o.edge.addr, r⟩ ∧
          slotMap st.edges w.slot = some o ∧ o.edge.edge.remote = some r ∧
          r.caller ≠ [] ∧ q.sameHolder r.caller w.ctx.subject = true) ∧
      ∀ o, slotMap st.edges w.slot = some o → o.edge.edge.caller = [] →
        slotMap after.edges w.slot = some o := by
  intro st after
  obtain ⟨front, q, hfront, hholder, hmay⟩ :=
    checked_of_inFlight events (mem_of_getElem? hw)
  obtain ⟨hread, r, hrecord, hcaller, hsame⟩ := Gate.of_maySlot hremote hmay
  obtain ⟨ptr, hptr, rfl⟩ := Option.map_eq_some_iff.mp hrecord
  obtain ⟨hothers, hslot⟩ := (guarded_run events).change hw hptr k g addr
  have hchanged : slotMap after.edges w.slot ≠ slotMap st.edges w.slot →
      ∃ o, slotMap st.edges w.slot = some o ∧ o.edge.edge.remote = some ptr.record ∧
        o.edge.addr = ptr.addr := by
    intro hne
    obtain ⟨o, ho, hshare⟩ := hslot hne
    obtain ⟨r, hr, rfl⟩ := Option.map_eq_some_iff.mp hshare
    exact ⟨o, ho, hr, rfl⟩
  refine ⟨hothers, fun hne => ?_, fun o ho hown => ?_⟩
  · obtain ⟨o, ho, hrem, haddr⟩ := hchanged hne
    refine ⟨front, q, o, ptr.record, hfront, hread, ?_, ho, hrem, hcaller, hsame⟩
    rw [← hholder, hptr, haddr]
  · by_contra hne
    rw [← ho] at hne
    obtain ⟨o', ho', hrem, -⟩ := hchanged hne
    cases ho.symm.trans ho'
    rw [Edge.caller, hrem] at hown
    exact hcaller hown

open State (alice parentKey named)

/-- `alice`, over the link of connection 1. -/
def aliceCtx : WriteCtx := ⟨alice, "l".toList, some { conn := 1 }⟩

/-- `alice` subscribes `/a` to itself and has a clear of that edge checked. -/
def ownClear : List SlotEvent :=
  [.subscribe {} (State.fieldEdge { targetKey := some parentKey } aliceCtx) 7,
    .check ⟨.allowOnly, named, ⟨fun _ => true, fun _ => []⟩⟩ 0 .clear aliceCtx]

theorem holder_rule_ownClear :
    let st := (machine parentKey).run ownClear
    let after := st.step parentKey (.change 0 {} 8)
    (slotMap after.edges 0).isNone = true ∧
      ∃ front q o r, front ++ [.check q 0 .clear aliceCtx] <+: ownClear ∧
        q.allows parentKey alice .READ = true ∧
        edgeHolder ((machine parentKey).run front).edges 0 = some ⟨o.edge.addr, r⟩ ∧
        slotMap st.edges 0 = some o ∧ o.edge.edge.remote = some r ∧
        r.caller ≠ [] ∧ q.sameHolder r.caller alice = true := by
  refine ⟨by decide +kernel, ?_⟩
  have hw : ((machine parentKey).run ownClear).inFlight[0]? = some ⟨0, .clear, aliceCtx,
      some ⟨7, { caller := alice, link := some { conn := 1 } }⟩⟩ := rfl
  refine (holder_rule parentKey ownClear hw (by decide) {} 8).2.1 fun h => ?_
  exact absurd (congrArg Option.isSome h) (by decide +kernel)

end SlotWrites

/-! ## Two sessions of one user -/

open State (alice parentKey)

/-- Every caller is `alice`. -/
def oneUser : SubjectLookup := .resolver fun c => if c.isEmpty then none else some (alice, 0)

def oneUserEnv : Env := State.openEnv oneUser (by simp [oneUser])

/-- The vertex `/a`, and the remote subscription of the session `v` over the link of connection 1. -/
def firstSession : List Event :=
  [.register parentKey .STORED_VALUE true {}, .subscribeWire parentKey
      { record := { targetKey := none }, returnRoute := [6, 0, 0, 0], link := "v".toList
        caller := "v".toList, pair := some { conn := 1 } }].map (Event.mk oneUserEnv)

/-- **A slot write clears the edge of another session**: `w`, over the link of connection 2, is the
same user as `v`, and the edge of `v` is gone after its clear. -/
theorem other_session_clears :
    let g := (State.machine .allowOnly).run firstSession
    let after := g.step .allowOnly ⟨oneUserEnv, .writeSlot parentKey 0 .clear
      ⟨"w".toList, "w".toList, some { conn := 2 }⟩⟩
    (State.edgeHolder (g.wiring.vertex parentKey) 0).map (fun r => (r.caller, r.link)) =
        some ("v".toList, some { conn := 1 }) ∧
      after.2.status = none ∧ (after.1.wiring.vertex parentKey).slots = [none] := by
  decide +kernel

end LibTracer.Graph
