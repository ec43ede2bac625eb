import LibTracer.Graph.Ops

/-!
# Every history of a graph

What holds after any sequence of operations, derived from the list of moves an operation can make.

* **`counters_exact`** — what each counter says, and when a write bubbles.
-/

namespace LibTracer.Graph

open List

/-! ## What operations keep -/

namespace Wiring

/-- An operation that neither allocates nor registers nor retires. -/
structure Settled (w w' : Wiring) : Prop where
  known : w'.known = w.known
  acl : w'.acl = w.acl
  slotTable : w'.slotTable = w.slotTable
  retireGen : ∀ k, (w'.vertex k).retireGen = (w.vertex k).retireGen

theorem Settled.refl (w : Wiring) : Settled w w := ⟨rfl, rfl, rfl, fun _ => rfl⟩

variable {w w' w'' : Wiring}

theorem Settled.trans (h : Settled w w') (h' : Settled w' w'') : Settled w w'' :=
  ⟨h'.known.trans h.known, h'.acl.trans h.acl, h'.slotTable.trans h.slotTable,
    fun k => (h'.retireGen k).trans (h.retireGen k)⟩

variable {k : Key}

theorem settled_modify {f : Vertex → Vertex}
    (hf : (f (w.vertex k)).retireGen = (w.vertex k).retireGen) : Settled w (w.modify k f) :=
  ⟨rfl, rfl, rfl, modify_keeps Vertex.retireGen hf⟩

/-- Only slots and counters differ: what a subscription, its end and its suspension do. -/
structure Resubscribed (w w' : Wiring) : Prop where
  known : w'.known = w.known
  acl : w'.acl = w.acl
  slotTable : w'.slotTable = w.slotTable
  unconditional : w'.unconditional = w.unconditional
  vertex : ∀ k, ∃ slots own above, w'.vertex k =
    { w.vertex k with slots := slots, ownSubs := own, listenersAbove := above }

theorem Resubscribed.refl (w : Wiring) : Resubscribed w w :=
  ⟨rfl, rfl, rfl, rfl, fun k => ⟨(w.vertex k).slots, (w.vertex k).ownSubs, _, rfl⟩⟩

theorem Resubscribed.trans (h : Resubscribed w w') (h' : Resubscribed w' w'') : Resubscribed w w'' := by
  refine ⟨h'.known.trans h.known, h'.acl.trans h.acl, h'.slotTable.trans h.slotTable,
    h'.unconditional.trans h.unconditional, fun k => ?_⟩
  obtain ⟨slots, own, above, hv⟩ := h.vertex k
  obtain ⟨slots', own', above', hv'⟩ := h'.vertex k
  exact ⟨slots', own', above', by rw [hv', hv]⟩

variable {β : Type}

theorem Resubscribed.keeps (h : Resubscribed w w') (read : Vertex → β) (hread : ∀ v slots own above,
      read { v with slots := slots, ownSubs := own, listenersAbove := above } = read v)
    (k : Key) : read (w'.vertex k) = read (w.vertex k) := by
  obtain ⟨slots, own, above, hv⟩ := h.vertex k
  rw [hv, hread]

theorem Resubscribed.settled (h : Resubscribed w w') : Settled w w' :=
  ⟨h.known, h.acl, h.slotTable, h.keeps Vertex.retireGen fun _ _ _ _ => rfl⟩

structure SameModes (w w' : Wiring) : Prop where
  unconditional : w'.unconditional = w.unconditional
  mode : ∀ k, (w'.vertex k).deliveryMode = (w.vertex k).deliveryMode
  found : ∀ k, w'.found k = w.found k

theorem SameModes.refl (w : Wiring) : SameModes w w := ⟨rfl, fun _ => rfl, fun _ => rfl⟩

theorem Resubscribed.sameModes (h : Resubscribed w w') : SameModes w w' :=
  ⟨h.unconditional, h.keeps Vertex.deliveryMode fun _ _ _ _ => rfl,
    fun k => by rw [Wiring.found, Wiring.found, h.acl]⟩

theorem resubscribed_noteSubscriber (w : Wiring) (k : Key) (d : Int) :
    Resubscribed w (w.noteSubscriber k d) := by
  refine ⟨rfl, rfl, rfl, rfl, fun j => ⟨(w.vertex j).slots, ((w.noteSubscriber k d).vertex j).ownSubs,
    ((w.noteSubscriber k d).vertex j).listenersAbove, ?_⟩⟩
  unfold noteSubscriber bumpSubtreeListeners
  by_cases hj : j = k
  · subst hj
    simp [not_under_self]
  · simp only [modify_vertex, modify_known, Function.update_of_ne hj]
    split <;> rfl

theorem resubscribed_modify {v : Vertex} {slots : List (Option Slot)}
    (hv : v = { w.vertex k with slots := slots }) : Resubscribed w (w.modify k fun _ => v) := by
  refine ⟨rfl, rfl, rfl, rfl, fun j => ?_⟩
  by_cases hj : j = k
  · refine ⟨slots, (w.vertex j).ownSubs, (w.vertex j).listenersAbove, ?_⟩
    rw [hj, modify_vertex, Function.update_self, hv]
  · refine ⟨(w.vertex j).slots, (w.vertex j).ownSubs, (w.vertex j).listenersAbove, ?_⟩
    rw [modify_vertex, Function.update_of_ne hj]

theorem Resubscribed.ite (h : Resubscribed w w') {d : Int} {b : Bool} :
    Resubscribed w (if b then w'.noteSubscriber k d else w') := by
  cases b with
  | true => exact h.trans (resubscribed_noteSubscriber w' k d)
  | false => exact h

theorem resubscribed_addEdge (w : Wiring) (k : Key) (e : Edge) : Resubscribed w (w.addEdge k e) :=
  (resubscribed_noteSubscriber w k 1).trans (resubscribed_modify rfl)

variable {slot : Nat}

theorem resubscribed_replaceEdge {e : Edge}
    (hw : w.replaceEdge k slot e = some w') : Resubscribed w w' := by
  unfold replaceEdge at hw
  dsimp only at hw
  split at hw
  · cases hw
  next v old hv =>
  cases hw
  unfold Vertex.replaceEdge at hv
  split at hv <;> cases hv
  exact ((resubscribed_noteSubscriber w k 1).trans (resubscribed_modify rfl)).ite

theorem resubscribed_clearSubscriberSlot
    (hw : w.clearSubscriberSlot k slot = some w') : Resubscribed w w' := by
  unfold clearSubscriberSlot at hw
  split at hw
  · cases hw
  next v s hv =>
  cases hw
  unfold Vertex.clearEdge at hv
  split at hv <;> cases hv
  exact Resubscribed.ite (resubscribed_modify rfl)

theorem resubscribed_setSuspended {suspended : Bool}
    (hw : w.setSuspended k slot suspended = some w') : Resubscribed w w' := by
  unfold setSuspended at hw
  dsimp only at hw
  split at hw
  · cases hw
  next v changed hv =>
  cases hw
  have hslots : ∃ slots, v = { ((w.noteSubscriber k (if suspended then 0 else 1)).vertex k) with
      slots := slots } := by
    unfold Vertex.setEdgeSuspended at hv
    split at hv
    · split at hv <;> cases hv
      all_goals exact ⟨_, rfl⟩
    · cases hv
  obtain ⟨slots, hslots⟩ := hslots
  exact ((resubscribed_noteSubscriber w k _).trans (resubscribed_modify hslots)).trans
    (resubscribed_noteSubscriber _ k _)

section

variable (w : Wiring)

theorem resubscribed_evictEdges (candidates : List Key) (hit : Edge → Bool) :
    Resubscribed w (w.evictEdges candidates hit) := by
  refine foldlRecOn candidates _ (.refl w) fun w' hw k _ => hw.trans ?_
  unfold evictAt
  dsimp only
  split
  · exact .refl w'
  · exact (resubscribed_modify rfl).trans (resubscribed_noteSubscriber _ k _)

theorem settled_applyPolicy (k : Key) (role : Role) (pol : Policy) (r : Retention) :
    Settled w (w.applyPolicy k role pol r) := by
  have hret : Settled w (w.modify k fun v =>
      v.setRetention role (pol.retention.getD r) (pol.depth.getD v.retentionDepth)) := by
    refine settled_modify ?_
    unfold Vertex.setRetention
    split <;> rfl
  unfold applyPolicy
  dsimp only
  split
  · exact hret
  refine hret.trans ⟨rfl, rfl, rfl, fun j => ?_⟩
  exact modify_keeps Vertex.retireGen (f := fun v =>
    { v with deliveryMode := pol.deliveryMode.getD (w.vertex k).deliveryMode }) rfl j

theorem foldl_retireOne_keeps (read : Wiring → β) (h : ∀ w k, read (retireOne w k) = read w)
    (ks : List Key) (w : Wiring) : read (ks.foldl retireOne w) = read w :=
  foldlRecOn (motive := fun w' => read w' = read w) ks _ rfl fun w' hw j _ => (h w' j).trans hw

theorem retireSubtree_known (k : Key) : (w.retireSubtree k).known = w.known :=
  foldl_retireOne_keeps Wiring.known (fun _ _ => rfl) _ _

theorem retireSubtree_acl (k : Key) : (w.retireSubtree k).acl = (w.acl.step (.retire k)).1 :=
  foldl_retireOne_keeps Wiring.acl (fun _ _ => rfl) _ _

/-- What placeholders keep, `ensure` does. -/
theorem ensure_rule {P : Wiring → Prop} (h : P w) (hmake : ∀ w n p, P w → P (w.makePlaceholder n p))
    (k : Key) : P (w.ensure k) := by
  induction k with
  | nil => exact h
  | cons n p ih =>
    rw [ensure]
    split
    · exact ih
    · exact hmake _ n p ih

theorem ensure_acl (k : Key) : (w.ensure k).acl = w.acl :=
  ensure_rule w (P := fun w' => w'.acl = w.acl) rfl (fun _ _ _ h => h) k

theorem subset_known_ensure (k : Key) : w.known ⊆ (w.ensure k).known :=
  ensure_rule w (P := fun w' => w.known ⊆ w'.known) (fun _ h => h)
    (fun _ _ _ h _ hj => mem_insertKey.mpr (Or.inr (h hj))) k

end

end Wiring

/-! ## How an operation ends -/

open State Wiring

/-- How an operation ends: it has rewired the graph at most, latched a new subscription, registered,
retired or declared a vertex, or run the data plane. -/
inductive Ends (p : Plane) (g : State) (op : Op) : State × Reply → Prop where
  | rewired {w : Wiring} {x : LinkIndex Key} (hc : Control op g.wiring g.index w x)
      (hm : SameModes g.wiring w) (status : Option Status) :
      Ends p g op ({ g with wiring := w, index := x }, { status })
  | latched {w : Wiring} {x : LinkIndex Key} (hc : Control op g.wiring g.index w x)
      (hm : SameModes g.wiring w) (k : Key) (e : Edge) :
      Ends p g op (latch p { g with wiring := w, index := x } k e)
  | registered {k : Key} {role : Role} {deliverWritten : Bool} {pol : Policy} {w : Wiring}
      (hop : op = .register k role deliverWritten pol)
      (hw : g.wiring.register k role deliverWritten pol = .ok w) : Ends p g op
        ({ g with wiring := w, store := g.store.applyPolicy k (g.wiring.vertex k) (w.vertex k) }, {})
  | retired {k : Key} (hop : op = .retire k) (hk : g.wiring.found k = true) : Ends p g op
      ({ g with wiring := g.wiring.retireSubtree k, store := g.store.retireSubtree k }, {})
  | declared {k : Key} {role : Role} {asked pol : Policy} {r : Retention} {w : Wiring}
      (hop : op = .setPolicy k asked) (hk : g.wiring.found k = true) (hw : w = g.wiring.applyPolicy k role pol r) : Ends p g op
        ({ g with wiring := w, store := g.store.applyPolicy k (g.wiring.vertex k) (w.vertex k) }, {})
  | wrote {k : Key} {x : Wire.Tlv} {caller : Name} (hop : op = .write k x caller)
      (hk : p.found k = true) : Ends p g op (g.ran (p.write k x caller g.store))
  | assigned {k : Key} {x : Wire.Tlv} {caller : Name} (hop : op = .assign k x caller)
      (hk : p.found k = true) : Ends p g op (g.ran (p.assign k x caller g.store))
  | propagated {k : Key} {fold : Bool} (hop : op = .propagate k fold) (hk : p.found k = true) :
      Ends p g op (g.ran (if fold then p.propagateFolded k g.store else p.propagate k g.store))

namespace State

variable {g : State} {p : Plane} {op : Op} {k : Key} {e : Edge}

theorem ends_refused (status : Option Status) : Ends p g op (g, { status }) :=
  .rewired .keep (.refl _) status

theorem admitSubscriber_ends {session : Name} (hop : op.admission = some (e, session))
    (caller : Name) (slot : Option Nat) (token : LinkToken) :
    Ends p g op (g.admitSubscriber p k e caller slot token session) := by
  unfold admitSubscriber
  split
  · exact ends_refused _
  dsimp only
  split
  · exact .latched (.add hop token k) (resubscribed_addEdge g.wiring k e).sameModes k e
  split
  · exact .rewired (.index hop token k) (.refl _) _
  next hw => exact .latched (.replace hop token hw) (resubscribed_replaceEdge hw).sameModes k e

theorem writeRecord_ends {r : Record} {ctx : WriteCtx}
    (hop : op.admission = some (fieldEdge r ctx, fieldSession ctx)) (slot : Option Nat) :
    Ends p g op (g.writeRecord p k r ctx slot) := by
  unfold writeRecord
  split
  · exact ends_refused _
  · exact admitSubscriber_ends hop ctx.subject slot .none

theorem atVertex_ends {run : State × Reply} (h : g.wiring.found k = true → Ends p g op run) :
    Ends p g op (g.atVertex k run) := by
  unfold atVertex
  split
  next hk => exact h hk
  · exact ends_refused _

theorem subscribeWire_ends (q : WireSubscribe) :
    Ends p g (.subscribeWire k q) (g.subscribeWire p k q) := by
  unfold subscribeWire
  split
  · exact ends_refused _
  next hroute =>
  split
  · exact ends_refused _
  refine admitSubscriber_ends ?_ _ _ _
  have hpair : q.pair.isNone = false := by
    simp only [Bool.or_eq_true, not_or, Bool.not_eq_true] at hroute
    exact hroute.2
  exact if_neg (by simp [hpair])

theorem writeSlot_ends (slot : Nat) (payload : SlotWrite) (ctx : WriteCtx) :
    Ends p g (.writeSlot k slot payload ctx) (g.writeSlot p k slot payload ctx) := by
  unfold writeSlot
  split
  · exact ends_refused _
  cases payload with
  | clear =>
    dsimp only
    cases hw : g.wiring.clearSubscriberSlot k slot with
    | none => exact ends_refused _
    | some w => exact .rewired (.clear hw) (resubscribed_clearSubscriberSlot hw).sameModes none
  | record r => exact writeRecord_ends rfl _

theorem evictLink_ends (name : Name) (pair : Option LinkPair) :
    Ends p g (.evictLink name pair) (g.evictLink name pair, {}) := by
  unfold evictLink
  split
  · exact ends_refused _
  next hne =>
    exact .rewired (.evictLink rfl (by simpa using hne)) (resubscribed_evictEdges _ _ _).sameModes none

theorem evictRoute_ends (name : Name) (pair : Option LinkPair) (route : List UInt8) :
    Ends p g (.evictRoute name pair route) (g.evictRoute name pair route, {}) := by
  unfold evictRoute
  split
  · exact ends_refused _
  next hne =>
    refine .rewired (.evictRoute (fun h => hne ?_) _) (resubscribed_evictEdges _ _ _).sameModes none
    simp [h]

/-- **How an operation can end.** -/
theorem step_ends (policy : AclPolicy) (g : State) (ev : Event) :
    Ends (plane policy ev.env g) g ev.op (g.step policy ev) := by
  obtain ⟨env, op⟩ := ev
  unfold step
  dsimp only
  cases op with
  | register k role deliverWritten pol =>
    dsimp only
    split
    · exact ends_refused _
    next hw => exact .registered rfl hw
  | retire k =>
    dsimp only
    split
    · exact ends_refused _
    split
    · exact ends_refused _
    next hk => exact .retired rfl (by simpa using hk)
  | writeAcl k aces caller =>
    refine atVertex_ends fun _ => ?_
    split
    · exact ends_refused _
    · exact .rewired (.writeAcl k aces) ⟨rfl, fun _ => rfl, fun _ => rfl⟩ none
  | setPolicy k pol =>
    refine atVertex_ends fun hk => ?_
    split
    · exact ends_refused _
    · exact .declared rfl hk rfl
  | hide k hidden =>
    have hmode := modify_keeps (w := g.wiring) (k := k) Vertex.deliveryMode
      (f := fun v => { v with enumHidden := hidden }) rfl
    exact atVertex_ends fun _ => .rewired (.hide k hidden) ⟨rfl, hmode, fun _ => rfl⟩ none
  | subscribeCallback k durability => exact atVertex_ends fun _ => admitSubscriber_ends rfl _ _ _
  | subscribeField k r ctx => exact atVertex_ends fun _ => writeRecord_ends rfl _
  | subscribeWire k q => exact atVertex_ends fun _ => subscribeWire_ends q
  | writeSlot k slot payload ctx => exact atVertex_ends fun _ => writeSlot_ends slot payload ctx
  | unsubscribe k slot =>
    dsimp only
    cases hw : g.wiring.clearSubscriberSlot k slot with
    | none => exact ends_refused _
    | some w => exact .rewired (.clear hw) (resubscribed_clearSubscriberSlot hw).sameModes none
  | setSuspended k slot suspended =>
    dsimp only
    cases hw : g.wiring.setSuspended k slot suspended with
    | none => exact ends_refused _
    | some w => exact .rewired (.suspend hw) (resubscribed_setSuspended hw).sameModes none
  | evictLink name pair => exact evictLink_ends name pair
  | evictRoute name pair route => exact evictRoute_ends name pair route
  | internLink name =>
    dsimp only
    split
    · exact ends_refused _
    next hne => exact .rewired (.intern (by simpa using hne)) (.refl _) none
  | candidateCount name =>
    dsimp only
    split
    · exact ends_refused _
    next hne => exact .rewired (.compact (by simpa using hne)) (.refl _) none
  | write k x caller => exact atVertex_ends fun hk => .wrote rfl hk
  | assign k x caller => exact atVertex_ends fun hk => .assigned rfl hk
  | propagate k fold => exact atVertex_ends fun hk => .propagated rfl hk

@[simp] theorem latch_wiring (p : Plane) (g : State) (k : Key) (e : Edge) :
    (latch p g k e).1.wiring = g.wiring := by
  unfold latch
  split
  · rfl
  · split <;> rfl

@[simp] theorem latch_index (p : Plane) (g : State) (k : Key) (e : Edge) :
    (latch p g k e).1.index = g.index := by
  unfold latch
  split
  · rfl
  · split <;> rfl

/-- **What an operation can do** to the control plane and the departure index. -/
theorem step_control (policy : AclPolicy) (g : State) (ev : Event) :
    Control ev.op g.wiring g.index (g.step policy ev).1.wiring (g.step policy ev).1.index := by
  have h := step_ends policy g ev
  generalize g.step policy ev = r at h ⊢
  cases h with
  | rewired hc hm status => exact hc
  | latched hc hm k e =>
    rw [latch_wiring, latch_index]
    exact hc
  | registered _ hw => exact .register hw
  | retired _ hk => exact .retire _
  | declared _ hk hw =>
    subst hw
    exact .setPolicy _ _ _ _
  | wrote | assigned | propagated => exact .keep

end State

/-! ## Exact counters in every state -/

/-- The counters are exact, and every registered vertex is allocated. -/
structure Counted (w : Wiring) : Prop extends Tallied w where
  allocated : ∀ k, w.found k = true → k ∈ w.known

namespace Counted

open Wiring

variable {w w' : Wiring}

theorem settled (h : Counted w) (ht : Tallied w') (hs : Settled w w') : Counted w' where
  toTallied := ht
  allocated k hk := by
    rw [hs.known]
    refine h.allocated k ?_
    rw [← hk, Wiring.found, Wiring.found, hs.acl]

theorem register (h : Counted w) {k : Key} {role : Role} {deliverWritten : Bool} {pol : Policy}
    (hw : w.register k role deliverWritten pol = .ok w') : Counted w' := by
  refine ⟨h.toTallied.register hw, fun j hj => ?_⟩
  unfold Wiring.register at hw
  split at hw
  · cases hw
  split at hw
  · cases hw
  cases hw
  have hpol := settled_applyPolicy (w.ensure k) k role pol (defaultRetention role)
  show j ∈ ((w.ensure k).applyPolicy k role pol (defaultRetention role)).known
  rw [hpol.known]
  by_cases hjk : j = k
  · exact hjk ▸ (h.toTallied.ensure k).2
  refine subset_known_ensure w k (h.allocated j ?_)
  have hreg : (Function.update ((w.ensure k).applyPolicy k role pol
      (defaultRetention role)).acl.registered k true) j = true := hj
  rw [Function.update_of_ne hjk, hpol.acl, ensure_acl] at hreg
  exact hreg

theorem retireSubtree (h : Counted w) (k : Key) : Counted (w.retireSubtree k) := by
  refine ⟨h.toTallied.retireSubtree k, fun j hj => ?_⟩
  rw [retireSubtree_known]
  refine h.allocated j ?_
  rw [Wiring.found, retireSubtree_acl] at hj
  have hreg : (if k <:+ j then false else w.acl.registered j) = true := hj
  split at hreg
  · cases hreg
  · exact hreg

theorem control {op : Op} {x x' : LinkIndex Key} (h : Counted w) (hc : Control op w x w' x') :
    Counted w' := by
  cases hc with
  | keep | index | intern | compact => exact h
  | register hw => exact h.register hw
  | retire k => exact h.retireSubtree k
  | writeAcl k aces =>
    exact ⟨h.toTallied.congr rfl (fun _ => rfl) (fun _ => rfl) fun _ => rfl, h.allocated⟩
  | setPolicy k role pol r =>
    exact h.settled (h.toTallied.applyPolicy k role pol r) (settled_applyPolicy w k role pol r)
  | hide k hidden =>
    exact h.settled (h.toTallied.modify (k := k) (f := fun v => { v with enumHidden := hidden })
      rfl rfl rfl) (settled_modify rfl)
  | add hop token k =>
    exact h.settled (h.toTallied.addEdge k _) (resubscribed_addEdge w k _).settled
  | replace hop token hw =>
    exact h.settled (h.toTallied.replaceEdge hw) (resubscribed_replaceEdge hw).settled
  | clear hw =>
    exact h.settled (h.toTallied.clearSubscriberSlot hw)
      (resubscribed_clearSubscriberSlot hw).settled
  | suspend hw =>
    exact h.settled (h.toTallied.setSuspended hw) (resubscribed_setSuspended hw).settled
  | evictLink | evictRoute =>
    exact h.settled (h.toTallied.evictEdges _ _) (resubscribed_evictEdges w _ _).settled

end Counted

/-- **The counters are exact in every state of every history.** -/
theorem counted_of_reachable {policy : AclPolicy} {g : State}
    (h : (State.machine policy).Reachable g) : Counted g.wiring := by
  refine (State.machine policy).invariant (P := fun g => Counted g.wiring)
    ⟨tallied_start, fun k hk => ?_⟩ (fun g ev hg => hg.control (State.step_control policy g ev)) h
  exact absurd hk nofun

/-- **What the counters of a vertex say** after any history: its own, how many of its edges deliver;
the other, how many do at its strict ancestors; and a write bubbles exactly if one of those does. -/
theorem counters_exact {policy : AclPolicy} {g : State} (hg : (State.machine policy).Reachable g)
    {v : Key} (hv : v ∈ g.wiring.known) : (g.wiring.vertex v).ownSubs = (g.wiring.vertex v).liveCount ∧
      (g.wiring.vertex v).listenersAbove = ((ancestors v).map fun a => (g.wiring.vertex a).ownSubs).sum ∧
      (g.wiring.bubbles v = true ↔
        ∃ a ∈ ancestors v, ∃ s : Slot, some s ∈ (g.wiring.vertex a).slots ∧ s.live = true) := by
  have h := counted_of_reachable hg
  refine ⟨h.own v, h.listenersAbove_eq_sum hv, (h.bubbles_iff hv).trans ?_⟩
  constructor
  · rintro ⟨a, e, ha, he⟩
    obtain ⟨_ | s, hs, hlive⟩ := mem_filterMap.mp he
    · cases hlive
    refine ⟨a, mem_ancestors.mpr ha, s, hs, ?_⟩
    by_contra hl
    simp [Vertex.liveEdge, hl] at hlive
  · rintro ⟨a, ha, s, hs, hlive⟩
    exact ⟨a, s.edge, mem_ancestors.mp ha, mem_filterMap.mpr ⟨some s, hs, if_pos hlive⟩⟩

/-- A parent with a subscription that delivers and one that is suspended: its child counts the one
and bubbles. -/
theorem counters_exact_below_subscriber :
    let parent : Key := ["a".toList]
    let child : Key := "b".toList :: parent
    let env : Env := { lookup := .notInstalled, settled := by simp }
    let g := (State.machine .allowOnly).run
      ([.register parent .STORED_VALUE true {}, .register child .STORED_VALUE true {},
        .subscribeCallback parent false, .subscribeCallback parent false,
        .setSuspended parent 1 true].map (Event.mk env))
    (g.wiring.vertex child).listenersAbove = 1 ∧ g.wiring.bubbles child = true := by
  intro parent child env g
  obtain ⟨-, habove, hbubble⟩ := counters_exact (g := g) (v := child)
    ((State.machine .allowOnly).reachable_run _) (by decide +kernel)
  refine ⟨habove.trans (by decide +kernel), hbubble.mpr ?_⟩
  exact ⟨parent, mem_cons_self, ⟨{ callback := true }, true⟩, by decide +kernel, rfl⟩

/-! ## Sound deliveries of every operation -/

namespace State

open Emitter

variable {g : State} {p : Plane} {k : Key} {e : Edge}

theorem onlySends_dispatch (p : Plane) (k : Key) (m : Message) (e : Edge) :
    OnlySends (fun d => d.point = k ∧ d.frame = m.frame) (p.dispatchEdge k m e) := by
  unfold Plane.dispatchEdge
  refine (OnlySends.andThen ?_ ?_).andThen ?_
  · split
    · exact onlySends_send ⟨rfl, rfl⟩
    · exact onlySends_skip
  · split
    · exact onlySends_skip
    next t _ =>
    intro s d hd
    rcases Plane.dispatchEdgeTarget_cases p k e t m s with heq | ⟨s', r, -, -, -, heq⟩
    · rw [heq] at hd
      exact nomatch hd
    rw [heq] at hd
    rw [mem_singleton.mp hd]
    exact ⟨rfl, rfl⟩
  · split
    · exact onlySends_send ⟨rfl, rfl⟩
    · exact onlySends_skip

def OwnValue (d : Delivery) : Prop := ∀ c ∈ d.frame.carried, c.1 = d.point

theorem ownValue_latch : ∀ d ∈ (latch p g k e).2.sent, OwnValue d := by
  unfold latch
  split
  · exact forall_mem_nil _
  split
  · exact forall_mem_nil _
  next r _ =>
  intro d hd c hc
  obtain ⟨hpoint, hframe⟩ := onlySends_dispatch _ k (r.message k) e g.store d hd
  rw [hframe] at hc
  rw [hpoint, mem_singleton.mp hc]

/-- **Every delivery of every operation is sound**, and the latch of a new subscription hands out
the vertex's own value. -/
theorem step_sound (policy : AclPolicy) (g : State) (ev : Event) :
    ∀ d ∈ (g.step policy ev).2.sent, (g.plane policy ev.env).Delivered d ∨ OwnValue d := by
  have h := step_ends policy g ev
  generalize g.step policy ev = r at h ⊢
  intro d hd
  cases h with
  | rewired | registered | retired | declared => exact nomatch hd
  | latched => exact .inr (ownValue_latch d hd)
  | wrote _ hk => exact .inl (Plane.sound_write hk _ _ _ d hd)
  | assigned _ hk => exact .inl (Plane.sound_assign hk _ _ _ d hd)
  | @propagated _ fold _ hk =>
    cases fold with
    | true => exact .inl (Plane.sound_propagateFolded hk _ d hd)
    | false => exact .inl (Plane.sound_propagate hk _ d hd)

end State

end LibTracer.Graph
