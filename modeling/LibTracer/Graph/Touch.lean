import LibTracer.Graph.Dispatch
import LibTracer.Graph.SweepSets
import Mathlib.Logic.Relation

/-!
# What the data plane does to a store

Every operation of the data plane is made of five changes of the store (`Plane.Touch`): a value is
stored at a vertex, a queue is flushed, a vertex is marked for the next sweep, a mark is taken back,
and the marks of a subtree are drained.  The last three are operations on the sweep sets, of which a write
makes only one kind, an assign another and a sweep the third.
-/

namespace LibTracer.Graph

open Wire List

namespace Plane

variable (p : Plane) (allowed : SweepOp → Prop)

/-- A change of the store, with a set operation that is `allowed` if it changes the marks. -/
inductive Touch : Store → Store → Prop
  | store {k : Key} {x : Tlv} {block : Option Nat} {caller : Name} {s s' : Store} {r : Option Ref}
      (h : p.storeValue k x block caller s = .ok (s', r)) : Touch s s'
  | flush (k : Key) (s : Store) : Touch s (s.setRing k (s.ring k).flush)
  | mark {k : Key} (hk : p.found k = true) (ha : allowed (.mark k (p.observed k) true true)) (s : Store) :
      Touch s (p.markPending k s)
  | clear {k : Key} {delivered : Option Nat} {s : Store}
      (ha : allowed (.clear k (p.observed k) true ((s.lkv k).map Ref.block == delivered))) :
      Touch s (p.clearPending k delivered s)
  | drain {k : Key} (ha : allowed (.sweep k {})) (s : Store) :
      Touch s { s with pending := s.pending.filter (¬ k <:+ ·) }

def Touches : Store → Store → Prop := Relation.ReflTransGen (p.Touch allowed)

variable {p allowed} {k : Key} {s s' : Store}

theorem Touch.touches (h : p.Touch allowed s s') : p.Touches allowed s s' := Relation.ReflTransGen.single h

theorem Touches.refl (s : Store) : p.Touches allowed s s := Relation.ReflTransGen.refl

theorem Touches.trans {s'' : Store} (h : p.Touches allowed s s') (h' : p.Touches allowed s' s'') : p.Touches allowed s s'' :=
  Relation.ReflTransGen.trans h h'

theorem touches_foldl {α : Type} {f : Store → α → Store} {l : List α}
    (h : ∀ a ∈ l, ∀ s, p.Touches allowed s (f s a)) (s : Store) : p.Touches allowed s (l.foldl f s) :=
  foldlRecOn l f (.refl s) fun s' hs a ha => hs.trans (h a ha s')

theorem touches_traced : Emitter.Traced fun s (_ : List Delivery) s' => p.Touches allowed s s' :=
  ⟨Touches.refl, fun h h' => h.trans h'⟩

/-! ## Deliveries -/

theorem Replays.touches {ds : List Delivery} (h : p.Replays s ds s') : p.Touches allowed s s' := by
  induction h with
  | nil s => exact .refl s
  | told _ _ ih => exact ih
  | stored _ hstore _ ih => exact (Touch.store hstore).touches.trans ih

theorem offers_touches (os : List Offer) (s : Store) : p.Touches allowed s (Emitter.all p.dispatch os s).1 :=
  (all_dispatch_replays os s).touches

section

variable (k : Key) (m : Message) (s : Store)

theorem fanOut_touches : p.Touches allowed s (p.fanOut k m s).1 := by
  rw [fanOut_eq]
  exact offers_touches _ s

theorem bubbleIfHeard_touches : p.Touches allowed s (p.bubbleIfHeard k m s).1 := by
  rw [bubbleIfHeard_eq]
  exact offers_touches _ s

theorem deliverVertex_touches : p.Touches allowed s (p.deliverVertex k m s).1 := by
  rw [deliverVertex_eq]
  exact offers_touches _ s

end

theorem deliverCurrent_touches (k : Key) (s : Store) : p.Touches allowed s (p.deliverCurrent k s).1 := by
  unfold deliverCurrent
  split
  · have hone : ∀ r ∈ (s.ring k).unflushed, Emitter.Obeys
        (fun s (_ : List Delivery) s' => p.Touches allowed s s') (p.deliverVertex k (r.message k)) :=
      fun r _ => deliverVertex_touches k (r.message k)
    exact (Touch.flush k s).touches.trans (touches_traced.all hone _)
  split
  · exact .refl s
  · exact deliverVertex_touches k _ s

/-! ## Writes -/

theorem landAll_touches (caller : Name) (ns : List BranchNode) (s : Store) :
    p.Touches allowed s (p.landAll caller ns s).2 := by
  induction ns generalizing s with
  | nil => exact .refl s
  | cons n ns ih =>
    have hn : p.Touches allowed s (p.land caller n s).2 := by
      rcases land_cases (p := p) caller n s with hland | ⟨x, r, -, hstore⟩
      · rw [hland]
        exact .refl s
      · exact (Touch.store hstore).touches
    exact hn.trans (ih _)

section

variable (hclear : ∀ k observed current, allowed (.clear k observed true current))
include hclear

theorem settleNode_touches (n : LandedNode) (s : Store) : p.Touches allowed s (p.settleNode s n) := by
  unfold settleNode
  split
  · exact .refl s
  dsimp only
  split
  · exact (Touch.clear (hclear _ _ _)).touches.trans (Touch.flush n.key _).touches
  · exact (Touch.clear (hclear _ _ _)).touches

end

theorem Applied.found {t : Tlv} {caller : Name} {plan : BranchPlan} {nodes : List LandedNode}
    {s₁ : Store} (h : p.Applied k t caller s plan nodes s₁) (hk : p.found k = true)
    {n : LandedNode} (hn : n ∈ nodes) (hstore : n.store.isSome = true) : p.found n.key = true := by
  obtain ⟨x, hx⟩ := Option.isSome_iff_exists.mp hstore
  have hmem : n.toBranchNode ∈ plan.announced (.branch k t) := by
    rw [← h.nodes_eq]
    exact mem_map_of_mem hn
  have hstores : Stores plan.nodes (n.key, x) := by
    rcases mem_append.mp hmem with hn | hn
    · exact ⟨_, mem_append_left _ hn, rfl, hx⟩
    have hroot : n.toBranchNode = { plan.root with notify := some (.branch k t) } :=
      mem_singleton.mp hn
    refine ⟨plan.root, mem_append_right _ (mem_singleton.mpr rfl), ?_, ?_⟩
    · exact (congrArg BranchNode.key hroot).symm
    · exact (congrArg BranchNode.store hroot).symm.trans hx
  exact found_of_stores hk (parseBranchNode_root h.parsed) h.admitted hstores

theorem writeBranch_touches (hk : p.found k = true) (t : Tlv) (caller : Name) (notify : Bool)
    (hclear : notify = true → ∀ k observed current, allowed (.clear k observed true current))
    (hmark : notify = false → ∀ k observed, allowed (.mark k observed true true)) (s : Store) :
    p.Touches allowed s (p.writeBranch k t caller notify s).store := by
  rcases writeBranch_cases p k t caller notify s with
    ⟨e, heq⟩ | ⟨-, -, -, heq⟩ | ⟨plan, nodes, s₁, happ, heq⟩ <;> rw [heq]
  · exact .refl s
  · exact .refl s
  · have hland : p.Touches allowed s s₁ := by
      have hall : p.Touches allowed s (p.landAll caller (plan.announced (.branch k t)) s).2 :=
        landAll_touches caller _ s
      rwa [happ.landed] at hall
    refine hland.trans ?_
    cases notify with
    | true =>
      obtain ⟨os, -, hnotify⟩ := notifyAll_eq (p := p) caller nodes
      have hsettle : Emitter.Obeys (fun s (_ : List Delivery) s' => p.Touches allowed s s')
          (Emitter.silent fun s => nodes.foldl p.settleNode s) :=
        fun s => touches_foldl (fun n _ s => settleNode_touches (hclear rfl) n s) s
      have hnotified : Emitter.Obeys (fun s (_ : List Delivery) s' => p.Touches allowed s s')
          (Emitter.all (p.notifyNode caller) nodes) := by
        rw [hnotify]
        exact offers_touches os
      exact touches_traced.andThen (touches_traced.andThen hnotified
        (bubbleIfHeard_touches k _)) hsettle s₁
    | false =>
      refine touches_foldl (fun n hn s => (Touch.mark ?_ (hmark rfl _ _) s).touches) s₁
      obtain ⟨hn, hstore⟩ := mem_filter.mp hn
      exact happ.found hk hn hstore

/-- **A write** takes marks back and does nothing else to them. -/
theorem write_touches (hk : p.found k = true)
    (hclear : ∀ k observed current, allowed (.clear k observed true current)) (x : Tlv) (caller : Name)
    (s : Store) : p.Touches allowed s (p.write k x caller s).store := by
  have hoffers : ∀ (os : List Offer) (b : Option Nat) (s : Store), p.Touches allowed s
      (((Emitter.all p.dispatch os).andThen (Emitter.silent (p.clearPending k b))) s).1 :=
    fun os b s => (offers_touches os s).trans (Touch.clear (hclear _ _ _)).touches
  have hw := written p k x caller s
  generalize p.write k x caller s = o at hw
  cases hw with
  | refused e => exact .refl s
  | branch _ => exact writeBranch_touches hk x caller true (fun _ => hclear) nofun s
  | handled _ _ _ ms => exact hoffers _ none s
  | relayed _ y => exact offers_touches _ s
  | kept _ s₁ r hstore => exact (Touch.store hstore).touches.trans (hoffers _ _ s₁)
  | queued _ s₁ r hstore =>
    exact ((Touch.store hstore).touches.trans (Touch.flush k s₁).touches).trans (hoffers _ _ _)

/-- **An assign** marks. -/
theorem assign_touches (hk : p.found k = true)
    (hmark : ∀ k observed, allowed (.mark k observed true true)) (x : Tlv) (caller : Name) (s : Store) :
    p.Touches allowed s (p.assign k x caller s).store := by
  unfold assign
  split
  · exact .refl s
  split
  · exact .refl s
  split
  · exact writeBranch_touches hk x caller false nofun (fun _ => hmark) s
  split
  · exact .refl s
  next hstore => exact (Touch.store hstore).touches.trans (Touch.mark hk (hmark _ _) _).touches

/-! ## Sweeps -/

/-- **A sweep** drains. -/
theorem propagate_touches (ha : allowed (.sweep k {})) (s : Store) : p.Touches allowed s (p.propagate k s).store := by
  unfold propagate
  split
  · exact .refl s
  · exact ((deliverCurrent_touches k s).trans (Touch.drain ha _).touches).trans
      (touches_traced.all (fun j _ => deliverCurrent_touches j) _)

/-- **A folded sweep** takes marks back. -/
theorem propagateFolded_touches (hclear : ∀ k observed current, allowed (.clear k observed true current))
    (k : Key) (s : Store) : p.Touches allowed s (p.propagateFolded k s).store := by
  unfold propagateFolded
  split
  · exact .refl s
  split
  · exact .refl s
  next table htable =>
  split
  · exact .refl s
  next f below hframes =>
  have hnode : ∀ n ∈ below.reverse, Emitter.Obeys
      (fun s (_ : List Delivery) s' => p.Touches allowed s s') (p.deliverNode n) := by
    intro n _ s
    unfold deliverNode
    split
    · cases n.1.lkv with
      | none => exact .refl s
      | some r => exact fanOut_touches _ _ s
    · exact fanOut_touches _ _ s
  have hclear : Emitter.Obeys (fun s (_ : List Delivery) s' => p.Touches allowed s s')
      (Emitter.silent fun s => (table.filter (·.selected)).foldl
        (fun s n => p.clearPending n.key (n.lkv.map Ref.block) s) s) :=
    fun s => touches_foldl (fun n _ s => (Touch.clear (hclear _ _ _)).touches) s
  exact touches_traced.andThen (touches_traced.andThen (touches_traced.andThen
    (touches_traced.all hnode) (fanOut_touches k _)) (bubbleIfHeard_touches k _)) hclear s

end Plane

end LibTracer.Graph
