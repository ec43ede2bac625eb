import LibTracer.Graph.Runs
import Mathlib.Algebra.Order.BigOperators.Group.List

/-!
# Deliveries are one hop deep

A delivery offers a value to the edges of a vertex and of its ancestors.  An edge with a target has
the value stored there, and that store offers it to nobody: the offers of an operation are fixed
before the first of them is made.

* **`write_one_hop`** — a write stores at most once for itself and once for each offer;
* **`delivery_misses_nobody`** — the listener counters leave no offer out.
-/

namespace LibTracer.Graph

open LibTracer.Wire

structure Offer where
  point : Key
  edge : Edge
  message : Message

def Delivery.storesAt (d : Delivery) : Option Key :=
  match d.leg with
  | .target t => some t
  | .callback => none
  | .remote => none

def Store.Quiet (s s' : Store) : Prop :=
  s'.lkv = s.lkv ∧ ∀ k, (s'.ring k).entries = (s.ring k).entries

theorem Store.Quiet.refl (s : Store) : s.Quiet s := ⟨rfl, fun _ => rfl⟩

theorem Store.Quiet.trans {s t u : Store} (h₁ : s.Quiet t) (h₂ : t.Quiet u) : s.Quiet u :=
  ⟨h₂.1.trans h₁.1, fun k => (h₂.2 k).trans (h₁.2 k)⟩

theorem Store.hold_cases (s : Store) (x : Tlv) (block : Option Nat) :
    (s.hold x block).1.value = x ∧ ∃ n, (s.hold x block).2 = { s with nextBlock := n } := by
  cases block with
  | none => exact ⟨rfl, _, rfl⟩
  | some b => exact ⟨rfl, s.nextBlock, rfl⟩

theorem Store.quiet_flush (s : Store) (k : Key) : s.Quiet (s.setRing k (s.ring k).flush) := by
  refine ⟨rfl, fun j => ?_⟩
  by_cases hj : j = k
  · subst hj
    simp [setRing, Ring.flush]
  · simp [setRing, hj]

namespace Plane

open Emitter

variable (p : Plane)

/-! ## Offers -/

def edgesAt (k : Key) : List Edge :=
  if (p.vertex k).ownSubs = 0 then [] else (p.vertex k).snapshotEdges

def offersAt (k : Key) (m : Message) : List Offer := (p.edgesAt k).map fun e => ⟨k, e, m⟩

def heardAbove (k : Key) : List Key := if p.wiring.bubbles k then ancestors k else []

def offers (k : Key) (m : Message) : List Offer :=
  (k :: p.heardAbove k).flatMap (p.offersAt · m)

def dispatch (o : Offer) : Emitter Store Delivery := p.dispatchEdge o.point o.message o.edge

theorem fanOut_eq (k : Key) (m : Message) : p.fanOut k m = Emitter.all p.dispatch (p.offersAt k m) := by
  unfold fanOut offersAt edgesAt
  split
  · rfl
  · rw [all_map]
    rfl

theorem bubbleIfHeard_eq (k : Key) (m : Message) : p.bubbleIfHeard k m =
      Emitter.all p.dispatch ((p.heardAbove k).flatMap (p.offersAt · m)) := by
  have hfan : (fun a => p.fanOut a m) = fun a => Emitter.all p.dispatch (p.offersAt a m) :=
    funext fun a => p.fanOut_eq a m
  unfold bubbleIfHeard bubbleUp heardAbove
  split
  · rw [all_flatMap, hfan]
  · rfl

/-- **A delivery makes its offers, one after the other.** -/
theorem deliverVertex_eq (k : Key) (m : Message) :
    p.deliverVertex k m = Emitter.all p.dispatch (p.offers k m) := by
  rw [deliverVertex, fanOut_eq, bubbleIfHeard_eq, offers, List.flatMap_cons, all_append]

/-! ## What an offer sends and stores -/

def legs (o : Offer) : List Delivery :=
  (if o.edge.callback then [⟨o.point, o.edge, .callback, o.message.frame⟩] else []) ++
    (o.edge.targetKey.toList.map fun t => ⟨o.point, o.edge, .target t, o.message.frame⟩) ++
    (if o.edge.hasRemoteLeg && p.env.sink then [⟨o.point, o.edge, .remote, o.message.frame⟩] else [])

/-- The store after the deliveries: each one to a target has stored its value there, and nothing else
has changed. -/
inductive Replays : Store → List Delivery → Store → Prop
  | nil (s : Store) : Replays s [] s
  | told {s s' : Store} {d : Delivery} {ds : List Delivery} (hleg : d.storesAt = none)
      (h : Replays s ds s') : Replays s (d :: ds) s'
  | stored {s s₁ s' : Store} {d : Delivery} {ds : List Delivery} {t : Key} {block : Option Nat}
      {r : Option Ref} (hleg : d.storesAt = some t)
      (hstore : p.storeValue t d.frame.tlv block d.edge.caller s = .ok (s₁, r))
      (h : Replays s₁ ds s') : Replays s (d :: ds) s'

variable {p}

theorem replays_traced : Traced p.Replays where
  nil := .nil
  append := by
    intro s t u ds es hs ht
    induction hs with
    | nil s => exact ht
    | told hleg _ ih => exact .told hleg (ih ht)
    | stored hleg hstore _ ih => exact .stored hleg hstore (ih ht)

theorem dispatch_replays (o : Offer) : Obeys p.Replays (p.dispatch o) := by
  have htold : ∀ (b : Bool) (d : Delivery), d.storesAt = none →
      Obeys p.Replays (if b then Emitter.send d else Emitter.skip) := by
    intro b d hleg s
    cases b
    · exact .nil s
    · exact .told hleg (.nil s)
  refine replays_traced.andThen (replays_traced.andThen (htold _ _ rfl) ?_) (htold _ _ rfl)
  intro s
  cases o.edge.targetKey with
  | none => exact .nil s
  | some t =>
    dsimp only
    rcases dispatchEdgeTarget_cases p o.point o.edge t o.message s with heq | ⟨s', r, -, -, hok, heq⟩
    · rw [heq]
      exact .nil s
    · rw [heq]
      exact .stored rfl hok (.nil s')

theorem within_dispatch (o : Offer) : Within (p.legs o) (p.dispatch o) := by
  have hsend : ∀ (b : Bool) (d : Delivery), Within (if b then [d] else [])
        (if b then Emitter.send d else Emitter.skip : Emitter Store Delivery) := by
    intro b d
    cases b
    · exact within_skip []
    · exact within_send d
  refine Within.andThen (Within.andThen (hsend _ _) ?_) (hsend _ _)
  cases o.edge.targetKey with
  | none => exact within_skip _
  | some t =>
    intro s
    dsimp only
    rcases dispatchEdgeTarget_cases p o.point o.edge t o.message s with heq | ⟨s', r, -, -, -, heq⟩
    · rw [heq]
      exact List.nil_sublist _
    · rw [heq]
      exact List.Sublist.refl _

theorem all_dispatch_replays (os : List Offer) : Obeys p.Replays (Emitter.all p.dispatch os) :=
  replays_traced.all fun o _ => dispatch_replays o

theorem within_all_dispatch (os : List Offer) : Within (os.flatMap p.legs) (Emitter.all p.dispatch os) :=
  within_all fun o _ => within_dispatch o

/-! ## What a write does -/

variable {k : Key} {x : Tlv} {s s₁ : Store}

variable {block : Option Nat} {caller : Name} {own : List Key} {os : List Offer}

theorem storeValue_cases {stored : Option Ref} (h : p.storeValue k x block caller s = .ok (s₁, stored)) :
    ((p.vertex k).role = .HANDLER ∧ s₁ = s ∧ stored = none) ∨
      ((p.vertex k).role ≠ .HANDLER ∧ ∃ changed r n, p.env.onAdmit k x caller = .ok changed ∧
        stored = some r ∧ r.value = changed.getD x ∧
        s₁ = { s with nextBlock := n }.publish (p.vertex k) k r) := by
  unfold storeValue at h
  split at h
  next hrole =>
    cases hwrite : p.env.onWrite k x caller with
    | error e => rw [hwrite] at h; cases h
    | ok =>
      rw [hwrite] at h
      cases h
      exact .inl ⟨hrole, rfl, rfl⟩
  next hrole =>
  cases hadm : p.env.onAdmit k x caller with
  | error e => rw [hadm] at h; cases h
  | ok changed =>
    rw [hadm] at h
    cases h
    obtain ⟨hvalue, n, hn⟩ := s.hold_cases (changed.getD x) (if changed.isSome then none else block)
    exact .inr ⟨hrole, changed, _, n, rfl, rfl, hvalue, congrArg (Store.publish · _ k _) hn⟩

theorem ring_storeValue
    {r : Ref} (hrole : (p.vertex k).role = .STREAM) (hkeeps : (p.vertex k).retainsNone = false)
    (h : p.storeValue k x block caller s = .ok (s₁, some r)) :
    s₁.ring k = (s.ring k).admitLocked (p.vertex k).retentionDepth r := by
  obtain ⟨hhandler, -⟩ | ⟨-, changed, r', n, -, hr, -, rfl⟩ := storeValue_cases h
  · simp [hrole] at hhandler
  · cases hr
    simp [Store.publish, hkeeps, hrole, Store.setRing]

/-- The ways a write of `x` at `k` can go. -/
inductive Written (p : Plane) (k : Key) (x : Tlv) (caller : Name) (s : Store) : Outcome → Prop
  | refused (e : Status) : Written p k x caller s (.refused s e)
  | branch (hbranch : isBranchPoint x (p.vertex k).role = true) :
      Written p k x caller s (p.writeBranch k x caller true s)
  | handled (hplain : isBranchPoint x (p.vertex k).role = false)
      (hrole : (p.vertex k).role = .HANDLER) (hok : p.env.onWrite k x caller = .ok ())
      (ms : List Message) (hms : ms = [] ∨ ms = [⟨.value k x, none⟩]) :
      Written p k x caller s
        (.ran (((Emitter.all p.dispatch (ms.flatMap (p.offers k))).andThen
          (Emitter.silent (p.clearPending k none))) s))
  | relayed (hplain : isBranchPoint x (p.vertex k).role = false) (y : Tlv) :
      Written p k x caller s
        (.ran (((Emitter.all p.dispatch (p.offers k ⟨.value k y, none⟩)).andThen
          (Emitter.silent id)) s))
  | kept (hplain : isBranchPoint x (p.vertex k).role = false) (s₁ : Store) (r : Ref)
      (hstore : p.storeValue k x none caller s = .ok (s₁, some r))
      (hrole : (p.vertex k).role ≠ .STREAM) :
      Written p k x caller s
        (.ran (((Emitter.all p.dispatch (p.offers k (r.message k))).andThen
          (Emitter.silent (p.clearPending k (some r.block)))) s₁))
  | queued (hplain : isBranchPoint x (p.vertex k).role = false) (s₁ : Store) (r : Ref)
      (hstore : p.storeValue k x none caller s = .ok (s₁, some r))
      (hrole : (p.vertex k).role = .STREAM) (hkeeps : (p.vertex k).retainsNone = false) :
      Written p k x caller s
        (.ran (((Emitter.all p.dispatch
            ((s₁.ring k).unflushed.flatMap fun r => p.offers k (r.message k))).andThen
          (Emitter.silent (p.clearPending k (some r.block)))) (s₁.setRing k (s₁.ring k).flush)))

/-- **Every write goes one of these ways.** -/
theorem written (p : Plane) (k : Key) (x : Tlv) (caller : Name) (s : Store) :
    p.Written k x caller s (p.write k x caller s) := by
  unfold write
  split
  · exact .refused _
  split
  next hbranch => exact .branch hbranch
  next hplain =>
  have hplain : isBranchPoint x (p.vertex k).role = false := by simpa using hplain
  split
  · next hrole =>
    unfold handlerWriteDeliver
    split
    · exact .refused _
    next hok =>
    dsimp only
    split
    · rw [deliverVertex_eq]
      have hone := Written.handled (s := s) hplain hrole hok [⟨.value k x, none⟩] (.inr rfl)
      rwa [List.flatMap_singleton] at hone
    · exact .handled hplain hrole hok [] (.inl rfl)
  next hrole =>
  split
  · unfold relayWrite
    split
    · exact .refused _
    · rw [deliverVertex_eq, ← andThen_skip (Emitter.all p.dispatch _)]
      exact .relayed hplain _
  next hkeeps =>
  split
  · exact .refused _
  next s₁ stored hstore =>
  obtain ⟨hhandler, -⟩ | ⟨-, -, r, -, -, rfl, -⟩ := storeValue_cases hstore
  · exact absurd hhandler hrole
  unfold deliverStored
  dsimp only
  split
  · next hstream =>
    have hqueued := Written.queued hplain s₁ r hstore hstream (by simpa using hkeeps)
    rw [all_flatMap] at hqueued
    have hrun : (p.deliverCurrent k).andThen (Emitter.silent (p.clearPending k (some r.block))) s₁ =
        (Emitter.all (fun r => p.deliverVertex k (r.message k)) (s₁.ring k).unflushed).andThen
          (Emitter.silent (p.clearPending k (some r.block))) (s₁.setRing k (s₁.ring k).flush) := by
      unfold Emitter.andThen deliverCurrent
      rw [if_pos hstream]
    simp only [deliverVertex_eq] at hrun
    exact hrun ▸ hqueued
  · next hstream =>
    rw [deliverVertex_eq]
    exact .kept hplain s₁ r hstore hstream

/-! ## The stores of an operation -/

variable (p) in
/-- The stores that lead from one state to another, in order. -/
inductive StoresAt : Store → List Key → Store → Prop
  | quiet {s s' : Store} (h : s.Quiet s') : StoresAt s [] s'
  | store {s s' : Store} {k : Key} {x : Tlv} {block : Option Nat} {caller : Name} {r : Option Ref}
      (h : p.storeValue k x block caller s = .ok (s', r)) : StoresAt s [k] s'
  | append {s t u : Store} {ks js : List Key} (h : StoresAt s ks t) (h' : StoresAt t js u) :
      StoresAt s (ks ++ js) u

theorem Replays.storesAt {s' : Store} {ds : List Delivery} (h : p.Replays s ds s') :
    p.StoresAt s (ds.filterMap Delivery.storesAt) s' := by
  induction h with
  | nil s => exact .quiet (.refl s)
  | told hleg _ ih =>
    rw [List.filterMap_cons_none hleg]
    exact ih
  | stored hleg hstore _ ih =>
    rw [List.filterMap_cons_some hleg]
    exact (StoresAt.store hstore).append ih

/-- An outcome one hop deep: the operation stored at `own`, made these offers, and stored besides
only what it sent to targets. -/
structure Hop (p : Plane) (own : List Key) (os : List Offer) (s : Store) (o : Outcome) : Prop where
  stores : p.StoresAt s (own ++ o.sent.filterMap Delivery.storesAt) o.store
  sent : o.sent.Sublist (os.flatMap p.legs)

theorem hop_refused (s : Store) (e : Status) : p.Hop [] [] s (.refused s e) :=
  ⟨.quiet (.refl s), List.nil_sublist _⟩

theorem hop_ran {f : Store → Store} (hown : p.StoresAt s own s₁) (hf : ∀ t : Store, t.Quiet (f t)) :
    p.Hop own os s (.ran (((Emitter.all p.dispatch os).andThen (Emitter.silent f)) s₁)) := by
  have hsent : (((Emitter.all p.dispatch os).andThen (Emitter.silent f)) s₁).2 =
      (Emitter.all p.dispatch os s₁).2 := List.append_nil _
  constructor
  · rw [Outcome.sent_ran, hsent]
    have hdone := (all_dispatch_replays (p := p) os s₁).storesAt.append (.quiet (hf _))
    rw [List.append_nil] at hdone
    exact hown.append hdone
  · rw [Outcome.sent_ran, hsent]
    exact within_all_dispatch os s₁

theorem Hop.stores_le {o : Outcome}
    (h : p.Hop own os s o) : (o.sent.filterMap Delivery.storesAt).length ≤ os.length := by
  refine (h.sent.filterMap Delivery.storesAt).length_le.trans ?_
  clear h
  induction os with
  | nil => simp
  | cons o os ih =>
    have hone : ((p.legs o).filterMap Delivery.storesAt).length ≤ 1 := by
      unfold legs
      cases o.edge.callback <;> cases o.edge.targetKey <;>
        cases (o.edge.hasRemoteLeg && p.env.sink) <;>
          simp [Delivery.storesAt, List.filterMap_cons]
    rw [List.flatMap_cons, List.filterMap_append, List.length_append, List.length_cons]
    omega

theorem quiet_clearPending (k : Key) (b : Option Nat) (s : Store) : s.Quiet (p.clearPending k b s) := by
  unfold clearPending
  split
  · exact ⟨rfl, fun _ => rfl⟩
  · exact .refl s

theorem quiet_settle (nodes : List LandedNode) (s : Store) : s.Quiet (nodes.foldl p.settleNode s) := by
  induction nodes generalizing s with
  | nil => exact .refl s
  | cons n nodes ih =>
    refine Store.Quiet.trans ?_ (ih _)
    unfold settleNode
    split
    · exact .refl s
    dsimp only
    split
    · exact (quiet_clearPending _ _ s).trans (Store.quiet_flush _ _)
    · exact quiet_clearPending _ _ s

theorem land_cases (caller : Name) (n : BranchNode) (s : Store) : (p.land caller n s).2 = s ∨
      ∃ x r, n.store = some x ∧ p.storeValue n.key x none caller s = .ok ((p.land caller n s).2, r) := by
  unfold land
  cases hx : n.store with
  | none => exact .inl rfl
  | some x =>
    dsimp only
    rcases hstore : p.storeValue n.key x none caller s with e | ⟨s₁, r⟩
    · exact .inl rfl
    · exact .inr ⟨x, r, rfl, hstore⟩

theorem landAll_stores (caller : Name) (ns : List BranchNode) (s : Store) :
    ∃ own, own.Sublist (ns.map BranchNode.key) ∧ p.StoresAt s own (p.landAll caller ns s).2 := by
  induction ns generalizing s with
  | nil => exact ⟨[], List.Sublist.refl _, .quiet (.refl s)⟩
  | cons n ns ih =>
    obtain ⟨own, hown, hstores⟩ := ih (p.land caller n s).2
    rcases land_cases (p := p) caller n s with hland | ⟨x, r, -, hstore⟩
    · refine ⟨own, hown.cons _, ?_⟩
      rw [hland] at hstores
      simpa only [landAll, hland] using hstores
    · exact ⟨n.key :: own, hown.cons_cons _, (StoresAt.store hstore).append hstores⟩

variable (p) in
def sliceOffers (n : BranchNode) : List Offer :=
  n.notify.toList.flatMap fun f => p.offersAt n.key ⟨f, none⟩

theorem notifyNode_eq (caller : Name) (n : LandedNode) : ∃ os, os.Sublist (p.sliceOffers n.toBranchNode) ∧
      p.notifyNode caller n = Emitter.all p.dispatch os := by
  unfold notifyNode sliceOffers
  cases n.notify with
  | none => exact ⟨[], List.nil_sublist _, rfl⟩
  | some f =>
    dsimp only
    split
    · exact ⟨[], List.nil_sublist _, rfl⟩
    unfold fanOutSlice
    dsimp only
    split
    · exact ⟨[], List.nil_sublist _, rfl⟩
    · refine ⟨_, ?_, p.fanOut_eq n.key ⟨f, none⟩⟩
      simp

theorem notifyAll_eq (caller : Name) (nodes : List LandedNode) :
    ∃ os, os.Sublist ((nodes.map LandedNode.toBranchNode).flatMap p.sliceOffers) ∧
      Emitter.all (p.notifyNode caller) nodes = Emitter.all p.dispatch os := by
  induction nodes with
  | nil => exact ⟨[], List.nil_sublist _, rfl⟩
  | cons n nodes ih =>
    obtain ⟨os, hos, heq⟩ := ih
    obtain ⟨os', hos', heq'⟩ := notifyNode_eq (p := p) caller n
    refine ⟨os' ++ os, hos'.append hos, ?_⟩
    rw [Emitter.all, heq, heq', all_append]

/-! ## How many stores a write causes -/

variable (p) in
def reach (k : Key) : Nat := ((k :: ancestors k).map fun a => (p.vertex a).snapshotEdges.length).sum

variable (p) in
/-- The values a plain write can deliver: its own, and on a stream also what is owed. -/
def deliverable (k : Key) (s : Store) : Nat :=
  if (p.vertex k).role = .STREAM then (s.ring k).unflushed.length + 1 else 1

theorem edgesAt_length_le (k : Key) : (p.edgesAt k).length ≤ (p.vertex k).snapshotEdges.length := by
  unfold edgesAt
  split
  · exact Nat.zero_le _
  · exact le_rfl

theorem heardAbove_sublist (k : Key) : (p.heardAbove k).Sublist (ancestors k) := by
  unfold heardAbove
  split
  · exact List.Sublist.refl _
  · exact List.nil_sublist _

theorem offers_length_le (ks : List Key) (m : Message) : (ks.flatMap (p.offersAt · m)).length ≤
      (ks.map fun a => (p.vertex a).snapshotEdges.length).sum := by
  rw [List.length_flatMap]
  refine List.sum_le_sum fun a _ => ?_
  rw [offersAt, List.length_map]
  exact edgesAt_length_le a

theorem offers_le_reach (k : Key) (m : Message) : (p.offers k m).length ≤ p.reach k :=
  (offers_length_le _ m).trans
    ((((heardAbove_sublist k).cons_cons k).map _).sum_le_sum fun _ _ => Nat.zero_le _)

theorem values_le {ms : List Message} (hms : ms.length ≤ p.deliverable k s) :
    (ms.flatMap (p.offers k)).length ≤ p.deliverable k s * p.reach k := by
  calc (ms.flatMap (p.offers k)).length
      = (ms.map fun m => (p.offers k m).length).sum := List.length_flatMap
    _ ≤ (ms.map fun _ => p.reach k).sum := List.sum_le_sum fun m _ => offers_le_reach k m
    _ = ms.length * p.reach k := by simp
    _ ≤ p.deliverable k s * p.reach k := Nat.mul_le_mul_right _ hms

theorem plain_one_hop (caller : Name) (s : Store) (hplain : isBranchPoint x (p.vertex k).role = false) :
    ∃ (own : List Key) (ms : List Message), own.length ≤ 1 ∧ ms.length ≤ p.deliverable k s ∧
      p.Hop own (ms.flatMap (p.offers k)) s (p.write k x caller s) := by
  have hone : 1 ≤ p.deliverable k s := by
    unfold deliverable
    split
    · exact Nat.le_add_left 1 _
    · exact le_rfl
  have hw := written p k x caller s
  generalize p.write k x caller s = o at hw
  cases hw with
  | refused e => exact ⟨[], [], Nat.zero_le _, Nat.zero_le _, hop_refused s e⟩
  | branch hbranch => simp [hplain] at hbranch
  | handled _ hrole hok ms hms =>
    have hown : p.storeValue k x none caller s = .ok (s, none) := by
      unfold storeValue
      rw [if_pos hrole, hok]
    refine ⟨[k], ms, le_rfl, ?_, hop_ran (.store hown) (quiet_clearPending k none)⟩
    rcases hms with rfl | rfl
    · exact Nat.zero_le _
    · exact hone
  | relayed _ y =>
    refine ⟨[], [⟨.value k y, none⟩], Nat.zero_le _, hone, ?_⟩
    rw [List.flatMap_singleton]
    exact hop_ran (.quiet (.refl s)) Store.Quiet.refl
  | kept _ s₁ r hstore hrole =>
    refine ⟨[k], [r.message k], le_rfl, hone, ?_⟩
    rw [List.flatMap_singleton]
    exact hop_ran (.store hstore) (quiet_clearPending k _)
  | queued _ s₁ r hstore hrole hkeeps =>
    refine ⟨[k], (s₁.ring k).unflushed.map (Ref.message · k), le_rfl, ?_, ?_⟩
    · rw [List.length_map, ring_storeValue hrole hkeeps hstore, deliverable, if_pos hrole]
      exact Ring.length_unflushed_admitLocked _ _ r
    · rw [List.flatMap_map]
      have hown : p.StoresAt s ([k] ++ []) (s₁.setRing k (s₁.ring k).flush) :=
        (StoresAt.store hstore).append (.quiet (s₁.quiet_flush k))
      exact hop_ran hown (quiet_clearPending k _)

theorem branch_one_hop (k : Key) (t : Tlv) (caller : Name) (s : Store) :
    p.Hop [] [] s (p.writeBranch k t caller true s) ∨
      ∃ (plan : BranchPlan) (own : List Key) (os : List Offer), parseBranchNode k t = .ok plan ∧
        own.Sublist ((plan.announced (.branch k t)).map BranchNode.key) ∧
        os.Sublist ((plan.announced (.branch k t)).flatMap p.sliceOffers ++
          (ancestors k).flatMap (p.offersAt · ⟨.branch k t, none⟩)) ∧
        p.Hop own os s (p.writeBranch k t caller true s) := by
  rcases writeBranch_cases p k t caller true s with
    ⟨e, heq⟩ | ⟨-, -, -, heq⟩ | ⟨plan, nodes, s₁, happ, heq⟩ <;> rw [heq]
  · exact .inl (hop_refused s e)
  · exact .inl ⟨.quiet (.refl s), List.nil_sublist _⟩
  · obtain ⟨own, hown, hstores⟩ :=
      landAll_stores (p := p) caller (plan.announced (.branch k t)) s
    obtain ⟨os, hos, hnotify⟩ := notifyAll_eq (p := p) caller nodes
    rw [happ.landed] at hstores
    rw [happ.nodes_eq] at hos
    have habove := (heardAbove_sublist (p := p) k).flatMap (p.offersAt · ⟨.branch k t, none⟩)
    refine .inr ⟨plan, own, _, happ.parsed, hown, hos.append habove, ?_⟩
    rw [if_pos rfl, announce, hnotify, bubbleIfHeard_eq, ← all_append]
    exact hop_ran hstores (quiet_settle nodes)

theorem sliceOffers_length_le (n : BranchNode) :
    (p.sliceOffers n).length ≤ (p.vertex n.key).snapshotEdges.length := by
  unfold sliceOffers
  cases n.notify with
  | none => exact Nat.zero_le _
  | some f =>
    have hone := edgesAt_length_le (p := p) n.key
    simpa [offersAt] using hone

theorem branch_le {t : Tlv} {plan : BranchPlan} (hparse : parseBranchNode k t = .ok plan) (m : Message) :
    ((plan.announced (.branch k t)).map BranchNode.key).length +
        ((plan.announced (.branch k t)).flatMap p.sliceOffers ++
          (ancestors k).flatMap (p.offersAt · m)).length ≤
      (plan.nodes.map fun n => 1 + p.reach n.key).sum := by
  have hroot := parseBranchNode_root hparse
  have hself : ∀ j, (p.vertex j).snapshotEdges.length ≤ p.reach j := fun j => Nat.le_add_right _ _
  have hbelow : (plan.below.flatMap p.sliceOffers).length ≤
      (plan.below.map fun n => p.reach n.key).sum := by
    rw [List.length_flatMap]
    exact List.sum_le_sum fun n _ => (sliceOffers_length_le n).trans (hself n.key)
  have hlast : (p.sliceOffers ⟨plan.root.key, plan.root.store, some (.branch k t)⟩).length +
      ((ancestors k).flatMap (p.offersAt · m)).length ≤ p.reach k := by
    refine Nat.add_le_add ((sliceOffers_length_le _).trans ?_) (offers_length_le (ancestors k) m)
    rw [hroot]
  have hsum : (plan.nodes.map fun n => 1 + p.reach n.key).sum =
      plan.below.length + (plan.below.map fun n => p.reach n.key).sum + (1 + p.reach k) := by
    simp [BranchPlan.nodes, List.sum_map_add, hroot]
  rw [hsum]
  simp only [BranchPlan.announced, List.length_map, List.length_append, List.length_cons,
    List.length_nil, List.flatMap_append, List.flatMap_singleton]
  omega

/-- **A write is one hop deep.**  It stores once for itself, or once at each site of a branch, and
once at each target it sent to, and nothing else changes what is stored.  What it sends are the legs
of its offers: each value it delivers is offered once to each active edge of the vertex and of its
ancestors, and on a branch each covered vertex is offered its slice and the ancestors the whole. -/
theorem write_one_hop (p : Plane) (k : Key) (x : Tlv) (caller : Name) (s : Store) :
    let o := p.write k x caller s
    ∃ (own : List Key) (os : List Offer), p.Hop own os s o ∧
      (isBranchPoint x (p.vertex k).role = false →
        (∃ ms : List Message, ms.length ≤ p.deliverable k s ∧ os = ms.flatMap (p.offers k)) ∧
          (own ++ o.sent.filterMap Delivery.storesAt).length ≤
            1 + p.deliverable k s * p.reach k) ∧
      (isBranchPoint x (p.vertex k).role = true →
        (own = [] ∧ os = []) ∨
        ∃ plan, parseBranchNode k x = .ok plan ∧
          os.Sublist ((plan.announced (.branch k x)).flatMap p.sliceOffers ++
            (ancestors k).flatMap (p.offersAt · ⟨.branch k x, none⟩)) ∧
          (own ++ o.sent.filterMap Delivery.storesAt).length ≤
            (plan.nodes.map fun n => 1 + p.reach n.key).sum) := by
  intro o
  cases hbranch : isBranchPoint x (p.vertex k).role with
  | false =>
    obtain ⟨own, ms, hown, hms, hhop⟩ := plain_one_hop (p := p) caller s hbranch
    refine ⟨own, _, hhop, fun _ => ⟨⟨ms, hms, rfl⟩, ?_⟩, fun h => absurd h nofun⟩
    rw [List.length_append]
    exact Nat.add_le_add hown (hhop.stores_le.trans (values_le hms))
  | true =>
    have hwrite : p.Hop [] [] s o ∨ o = p.writeBranch k x caller true s := by
      have hw : p.Written k x caller s o := written p k x caller s
      clear_value o
      cases hw with
      | refused e => exact .inl (hop_refused s e)
      | branch => exact .inr rfl
      | handled hplain | relayed hplain | kept hplain | queued hplain => simp [hbranch] at hplain
    rcases hwrite with hhop | hwrite
    · exact ⟨[], [], hhop, fun h => absurd h.symm nofun, fun _ => .inl ⟨rfl, rfl⟩⟩
    rcases branch_one_hop (p := p) k x caller s with
      hhop | ⟨plan, own, os, hparse, hown, hos, hhop⟩
    · rw [← hwrite] at hhop
      exact ⟨[], [], hhop, fun h => absurd h.symm nofun, fun _ => .inl ⟨rfl, rfl⟩⟩
    rw [← hwrite] at hhop
    refine ⟨own, os, hhop, fun h => absurd h.symm nofun,
      fun _ => .inr ⟨plan, hparse, hos, ?_⟩⟩
    rw [List.length_append]
    exact (Nat.add_le_add hown.length_le (hhop.stores_le.trans hos.length_le)).trans
      (branch_le hparse _)

/-- **The counters only save work**: in every state a graph reaches, a delivery makes the offers of a delivery
without counters, to each edge of the vertex and then of its ancestors, nearest first. -/
theorem delivery_misses_nobody {policy : AclPolicy} {g : State} (hg : (State.machine policy).Reachable g)
    {k : Key} (hk : g.wiring.found k = true) (env : Env) (m : Message) :
    (g.plane policy env).deliverVertex k m = Emitter.all (g.plane policy env).dispatch
      ((k :: ancestors k).flatMap fun a => (g.wiring.vertex a).snapshotEdges.map fun e => ⟨a, e, m⟩) := by
  have h := counted_of_reachable hg
  have hat : ∀ a, (g.plane policy env).offersAt a m =
      (g.wiring.vertex a).snapshotEdges.map fun e => ⟨a, e, m⟩ := by
    intro a
    rw [offersAt, edgesAt]
    split
    next hzero =>
      rw [List.eq_nil_iff_forall_not_mem.mpr fun e he => ((h.ownSubs_pos_iff a).mpr ⟨e, he⟩).ne' hzero]
    · rfl
  rw [deliverVertex_eq, offers, List.flatMap_cons, List.flatMap_cons, hat, heardAbove]
  simp only [hat]
  split
  · rfl
  next hquiet =>
    refine congrArg (fun os => Emitter.all _ (_ ++ os)) (List.flatMap_eq_nil_iff.mpr fun a ha => ?_).symm
    rw [List.map_eq_nil_iff, List.eq_nil_iff_forall_not_mem]
    exact fun e he => hquiet ((h.bubbles_iff (h.allocated k hk)).mpr ⟨a, e, mem_ancestors.mp ha, he⟩)

end Plane

/-! ### A stream with a backlog -/

theorem notInstalled_settled : SubjectLookup.notInstalled ≠ .unsettled := by simp

def plainEnv : Env where
  lookup := .notInstalled
  settled := notInstalled_settled

def tick : Tlv := .mk VALUE {} [] [] none

def streamKey : Key := ["s".toList]

def sinkKey : Key := ["t".toList]

/-- The stream `/s`, whose one subscription stores at `/t`, and two values assigned to it. -/
def backlog : List Event :=
  [.register sinkKey .STORED_VALUE true {}, .register streamKey .STREAM true { depth := some 8 },
    .subscribeField streamKey { targetKey := some sinkKey } {},
    .assign streamKey tick [], .assign streamKey tick []].map (Event.mk plainEnv)

/-- **One write, one edge, four stores**: the write stores at `/s` and delivers the whole queue. -/
theorem write_delivers_backlog :
    let g := (State.machine .allowOnly).run backlog
    let p := g.plane .allowOnly plainEnv
    p.reach streamKey = 1 ∧
      (p.write streamKey tick [] g.store).sent.filterMap Delivery.storesAt =
        [sinkKey, sinkKey, sinkKey] := by
  decide +kernel

theorem delivery_misses_nobody_backlog :
    let g := (State.machine .allowOnly).run backlog
    let p := g.plane .allowOnly plainEnv
    let m : Message := ⟨.value streamKey tick, none⟩
    g.wiring.found streamKey = true ∧ p.deliverVertex streamKey m = Emitter.all p.dispatch
      ((streamKey :: ancestors streamKey).flatMap fun a =>
        (g.wiring.vertex a).snapshotEdges.map fun e => ⟨a, e, m⟩) :=
  have hfound : ((State.machine .allowOnly).run backlog).wiring.found streamKey = true := by decide +kernel
  ⟨hfound, Plane.delivery_misses_nobody ((State.machine .allowOnly).reachable_run backlog) hfound _ _⟩

end LibTracer.Graph
