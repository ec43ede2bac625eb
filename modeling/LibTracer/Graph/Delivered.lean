import LibTracer.Graph.Delivery
import LibTracer.Graph.Tally

/-!
# What is delivered, and what is missed

Every operation of the data plane hands frames to edges through the same few functions, so what
holds of each hand-over holds of all of them.

* **`Plane.Delivered`** — it is on an edge that the vertex holds, by a leg that is open, and carries
  values of registered vertices only.
-/

namespace LibTracer.Graph

open Wire List

/-! ## Sound deliveries -/

namespace Plane

/-- What has to hold for a leg of an edge to be taken. -/
def LegOpen (p : Plane) (e : Edge) : Leg → Prop
  | .callback => e.callback = true
  | .target t => e.targetKey = some t ∧ p.found t = true ∧ p.allows t e.caller .WRITE = true
  | .remote => e.hasRemoteLeg = true ∧ p.env.sink = true

/-- Every value of the frame is of a vertex that exists. -/
def Carries (p : Plane) (f : Frame) : Prop := ∀ c ∈ f.carried, p.found c.1 = true

structure Delivered (p : Plane) (d : Delivery) : Prop where
  edge : d.edge ∈ (p.vertex d.point).snapshotEdges
  leg : p.LegOpen d.edge d.leg
  carried : p.Carries d.frame

end Plane

/-- Everything an operation sent was due. -/
def Outcome.Sound (p : Plane) (o : Outcome) : Prop := ∀ d ∈ o.sent, p.Delivered d

namespace Plane

open Emitter

variable {p : Plane} {k : Key} {m : Message} {x : Tlv} {caller : Name} {s : Store}

theorem sound_refused (s : Store) (e : Status) : (Outcome.refused s e).Sound p :=
  forall_mem_nil _

theorem sound_ran {e : Emitter Store Delivery} (h : OnlySends p.Delivered e) (s : Store) :
    (Outcome.ran (e s)).Sound p :=
  h s

theorem carries_value (hk : p.found k = true) (x : Tlv) : p.Carries (.value k x) :=
  fun _ hc => mem_singleton.mp hc ▸ hk

theorem dispatchEdgeTarget_cases (p : Plane) (k : Key) (e : Edge) (t : Key) (m : Message) (s : Store) :
    p.dispatchEdgeTarget k e t m s = (s, []) ∨
      ∃ s' r, p.found t = true ∧ p.allows t e.caller .WRITE = true ∧
        p.storeValue t m.frame.tlv m.block e.caller s = .ok (s', r) ∧
        p.dispatchEdgeTarget k e t m s = (s', [⟨k, e, .target t, m.frame⟩]) := by
  unfold dispatchEdgeTarget
  cases hfound : p.found t
  · exact .inl rfl
  · cases hallow : p.allows t e.caller .WRITE
    · exact .inl rfl
    · cases hstore : p.storeValue t m.frame.tlv m.block e.caller s with
      | error => exact .inl rfl
      | ok sr => exact .inr ⟨sr.1, sr.2, rfl, rfl, rfl, rfl⟩

section

variable (hm : p.Carries m.frame)
include hm

variable {e : Edge}

theorem onlySends_dispatchEdgeTarget {t : Key}
    (he : e ∈ (p.vertex k).snapshotEdges) (ht : e.targetKey = some t) :
    OnlySends p.Delivered (p.dispatchEdgeTarget k e t m) := by
  intro s d hd
  rcases dispatchEdgeTarget_cases p k e t m s with heq | ⟨s', r, hfound, hallow, -, heq⟩
  · rw [heq] at hd
    exact nomatch hd
  rw [heq] at hd
  rw [mem_singleton.mp hd]
  exact ⟨he, ⟨ht, hfound, hallow⟩, hm⟩

theorem onlySends_dispatchEdge
    (he : e ∈ (p.vertex k).snapshotEdges) : OnlySends p.Delivered (p.dispatchEdge k m e) := by
  unfold dispatchEdge
  refine (OnlySends.andThen ?_ ?_).andThen ?_
  · split
    next hcb => exact onlySends_send ⟨he, hcb, hm⟩
    · exact onlySends_skip
  · split
    · exact onlySends_skip
    next t ht => exact onlySends_dispatchEdgeTarget hm he ht
  · split
    next hrem => exact onlySends_send ⟨he, (Bool.and_eq_true _ _).mp hrem, hm⟩
    · exact onlySends_skip

/-- A vertex sends to its own edges. -/
theorem onlySends_fanOut : OnlySends p.Delivered (p.fanOut k m) := by
  unfold fanOut
  split
  · exact onlySends_skip
  · exact onlySends_all fun e he => onlySends_dispatchEdge hm he

theorem onlySends_bubbleIfHeard : OnlySends p.Delivered (p.bubbleIfHeard k m) := by
  unfold bubbleIfHeard
  split
  · exact onlySends_all fun a _ => onlySends_fanOut hm
  · exact onlySends_skip

/-- A vertex sends to its own edges and to those above. -/
theorem onlySends_deliverVertex : OnlySends p.Delivered (p.deliverVertex k m) :=
  (onlySends_fanOut hm).andThen (onlySends_bubbleIfHeard hm)

end

theorem onlySends_deliverCurrent (hk : p.found k = true) : OnlySends p.Delivered (p.deliverCurrent k) := by
  intro s
  unfold deliverCurrent
  split
  · exact onlySends_all (fun r _ => onlySends_deliverVertex (carries_value hk r.value)) _
  split
  · exact forall_mem_nil _
  next r _ => exact onlySends_deliverVertex (carries_value hk r.value) s

theorem onlySends_deliverStored (hk : p.found k = true) (stored : Option Ref) :
    OnlySends p.Delivered (p.deliverStored k stored) := by
  unfold deliverStored
  refine OnlySends.andThen ?_ (onlySends_silent _)
  split
  · exact onlySends_skip
  next r =>
    split
    · exact onlySends_deliverCurrent hk
    · exact onlySends_deliverVertex (carries_value hk r.value)

/-! ## Branch writes and plain writes -/

theorem landAll_nodes (caller : Name) (ns : List BranchNode) (s : Store) :
    (p.landAll caller ns s).1.map LandedNode.toBranchNode = ns := by
  induction ns generalizing s with
  | nil => rfl
  | cons n ns ih =>
    have hn : (p.land caller n s).1.toBranchNode = n := by
      unfold land
      split
      · rfl
      · split <;> rfl
    simp only [landAll, map_cons, hn, ih]

variable {plan : BranchPlan}

/-- What the plan stores, it stores at registered vertices: the sites below the root were admitted,
and the root is the vertex that was written. -/
theorem found_of_stores (hk : p.found k = true) (hroot : plan.root.key = k)
    (hadm : plan.below.findSome? (p.siteRefusal caller) = none) {c : Key × Tlv}
    (hc : Stores plan.nodes c) : p.found c.1 = true := by
  obtain ⟨n, hn, hkey, hstore⟩ := hc
  rcases mem_append.mp hn with hn | hn
  · have hnone := List.findSome?_eq_none_iff.mp hadm n hn
    by_contra hfound
    have hmiss : p.found n.key = false := by simpa [hkey] using hfound
    simp [siteRefusal, hstore, hmiss] at hnone
  rw [mem_singleton.mp hn] at hkey
  rw [← hkey, hroot]
  exact hk

variable {t : Tlv} {s : Store}

theorem parseBranchNode_root (h : parseBranchNode k t = .ok plan) : plan.root.key = k := by
  unfold parseBranchNode at h
  split at h
  · obtain ⟨ty, o, pl, _ | ⟨name, cs⟩, tr⟩ := t
    · rw [parseOpened] at h
      cases h
      rfl
    rw [parseOpened] at h
    split at h
    · cases h
    · cases h
      rfl
  · cases h

/-- What the plan of a branch write leads to once every site is admitted. -/
structure Applied (p : Plane) (k : Key) (t : Tlv) (caller : Name) (s : Store) (plan : BranchPlan)
    (nodes : List LandedNode) (s₁ : Store) : Prop where
  parsed : parseBranchNode k t = .ok plan
  named : leadingName t = k.headD []
  value : plan.value = true
  admitted : plan.below.findSome? (p.siteRefusal caller) = none
  landed : p.landAll caller (plan.announced (.branch k t)) s = (nodes, s₁)

theorem Applied.nodes_eq {nodes : List LandedNode} {s₁ : Store}
    (h : p.Applied k t caller s plan nodes s₁) :
    nodes.map LandedNode.toBranchNode = plan.announced (.branch k t) := by
  rw [← landAll_nodes (p := p) caller (plan.announced (.branch k t)) s, h.landed]

def announce (p : Plane) (k : Key) (t : Tlv) (caller : Name) (nodes : List LandedNode) :
    Emitter Store Delivery :=
  ((Emitter.all (p.notifyNode caller) nodes).andThen
    (p.bubbleIfHeard k ⟨.branch k t, none⟩)).andThen
    (Emitter.silent fun s => nodes.foldl p.settleNode s)

def markLanded (p : Plane) (nodes : List LandedNode) (s : Store) : Store :=
  (nodes.filter (·.store.isSome)).foldl (fun s n => p.markPending n.key s) s

/-- **A branch write is refused as a whole, or applied**; a branch without a value does nothing. -/
theorem writeBranch_cases (p : Plane) (k : Key) (t : Tlv) (caller : Name) (notify : Bool) (s : Store) :
    (∃ e, p.writeBranch k t caller notify s = .refused s e) ∨
      (∃ plan, parseBranchNode k t = .ok plan ∧ plan.value = false ∧
        p.writeBranch k t caller notify s = .ran (s, [])) ∨
      ∃ plan nodes s₁, p.Applied k t caller s plan nodes s₁ ∧ p.writeBranch k t caller notify s = .ran
          (if notify then p.announce k t caller nodes s₁ else (p.markLanded nodes s₁, [])) := by
  unfold writeBranch
  cases hparse : parseBranchNode k t with
  | error e => exact .inl ⟨e, rfl⟩
  | ok plan =>
    dsimp only
    by_cases hname : leadingName t ≠ k.headD []
    · exact .inl ⟨_, if_pos hname⟩
    rw [if_neg hname]
    by_cases hvalue : (!plan.value) = true
    · exact .inr (.inl ⟨plan, rfl, by simpa using hvalue, if_pos hvalue⟩)
    rw [if_neg hvalue]
    cases hadm : plan.below.findSome? (p.siteRefusal caller) with
    | some e => exact .inl ⟨e, rfl⟩
    | none =>
      refine .inr (.inr ⟨plan, _, _, ⟨hparse, not_not.mp hname, by simpa using hvalue, hadm, rfl⟩, ?_⟩)
      cases notify <;> rfl

/-- What a branch write sends was due. -/
theorem sound_writeBranch (hk : p.found k = true) (t : Tlv) (caller : Name) (notify : Bool)
    (s : Store) : (p.writeBranch k t caller notify s).Sound p := by
  rcases writeBranch_cases p k t caller notify s with
    ⟨e, heq⟩ | ⟨-, -, -, heq⟩ | ⟨plan, nodes, s₁, happ, heq⟩ <;> rw [heq]
  · exact sound_refused _ _
  · exact forall_mem_nil _
  · obtain ⟨hcov, hwhole⟩ := parseBranchNode_covers happ.parsed
    have hstored : ∀ c, Stores plan.nodes c → p.found c.1 = true := fun c hc =>
      found_of_stores hk (parseBranchNode_root happ.parsed) happ.admitted hc
    have hframe : p.Carries (.branch k t) := fun c hc => hstored c (hwhole c hc)
    cases notify with
    | false => exact forall_mem_nil _
    | true =>
      refine sound_ran (e := p.announce k t caller nodes)
        (((onlySends_all fun n hn => ?_).andThen (onlySends_bubbleIfHeard hframe)).andThen
          (onlySends_silent _)) s₁
      have hmem : n.toBranchNode ∈ plan.announced (.branch k t) := by
        rw [← happ.nodes_eq]
        exact mem_map_of_mem hn
      have hslice : ∀ f, n.notify = some f → p.Carries f := by
        intro f hf
        rcases mem_append.mp hmem with hn | hn
        · exact fun c hc => hstored c (hcov _ (mem_append_left _ hn) f hf c hc)
        rw [mem_singleton.mp hn] at hf
        cases hf
        exact hframe
      unfold notifyNode
      split
      · exact onlySends_skip
      next f hf =>
      split
      · exact onlySends_skip
      unfold fanOutSlice
      dsimp only
      split
      · exact onlySends_skip
      · exact onlySends_fanOut (hslice f hf)

theorem sound_write (hk : p.found k = true) (x : Tlv) (caller : Name) (s : Store) :
    (p.write k x caller s).Sound p := by
  unfold write
  split
  · exact sound_refused _ _
  split
  · exact sound_writeBranch hk x caller true s
  split
  · unfold handlerWriteDeliver
    split
    · exact sound_refused _ _
    refine sound_ran (OnlySends.andThen ?_ (onlySends_silent _)) s
    split
    · exact onlySends_deliverVertex (carries_value hk x)
    · exact onlySends_skip
  split
  · unfold relayWrite
    split
    · exact sound_refused _ _
    · exact sound_ran (onlySends_deliverVertex (carries_value hk _)) s
  split
  · exact sound_refused _ _
  next stored _ => exact sound_ran (onlySends_deliverStored hk stored) _

theorem sound_assign (hk : p.found k = true) (x : Tlv) (caller : Name) (s : Store) :
    (p.assign k x caller s).Sound p := by
  unfold assign
  split
  · exact sound_refused _ _
  split
  · exact sound_refused _ _
  split
  · exact sound_writeBranch hk x caller false s
  split
  · exact sound_refused _ _
  · exact forall_mem_nil _

/-! ## Sweeps -/

theorem sound_propagate (hk : p.found k = true) (s : Store) : (p.propagate k s).Sound p := by
  unfold propagate
  split
  · exact sound_refused _ _
  · refine sound_ran ((onlySends_deliverCurrent hk).andThen fun s => ?_) s
    exact onlySends_all (fun u hu => onlySends_deliverCurrent (mem_filter.mp hu).2) _

/-- The nodes of a fold table that were found are there. -/
def TableFound (p : Plane) (table : List FoldNode) : Prop :=
  ∀ n ∈ table, n.found = true → p.found n.key = true

variable {table : List FoldNode}

theorem tableFound_putNode {n : FoldNode}
    (hn : n.found = true → p.found n.key = true) (h : p.TableFound table) :
    p.TableFound (putNode n table) := by
  intro j hj
  rcases (mem_orderedInsert _).mp hj with rfl | hj
  · exact hn
  · exact h j (mem_filter.mp hj).1

theorem tableFound_admitNode {key : Key} {selected : Bool}
    {table' : List FoldNode} (h : p.TableFound table)
    (hadm : p.admitNode s key selected table = .ok table') : p.TableFound table' := by
  unfold admitNode at hadm
  dsimp only at hadm
  have hnode : ((table.find? (·.key = key)).getD { key, found := p.found key }).found = true →
      p.found ((table.find? (·.key = key)).getD { key, found := p.found key }).key = true := by
    cases hfind : table.find? (·.key = key) with
    | none => exact id
    | some n => exact h n (mem_of_find?_eq_some hfind)
  split at hadm
  · cases hadm
    exact tableFound_putNode hnode h
  split at hadm
  · cases hadm
  split at hadm
  · cases hadm
    exact tableFound_putNode hnode h
  split at hadm
  · cases hadm
    exact tableFound_putNode hnode h
  · cases hadm

theorem foldlM_keeps {α : Type} {P : List FoldNode → Prop}
    {f : List FoldNode → α → Except Status (List FoldNode)}
    (hf : ∀ table a table', P table → f table a = .ok table' → P table') :
    ∀ (as : List α) (table table' : List FoldNode), P table → as.foldlM f table = .ok table' → P table'
  | [], table, table', h, hrun => by
    cases hrun
    exact h
  | a :: as, table, table', h, hrun => by
    rw [foldlM_cons] at hrun
    cases hstep : f table a with
    | error e =>
      rw [hstep] at hrun
      cases hrun
    | ok next =>
      rw [hstep] at hrun
      exact foldlM_keeps hf as next table' (hf table a next h hstep) hrun

theorem tableFound_foldTable (hk : p.found k = true)
    (h : p.foldTable k s = .ok table) : p.TableFound table := by
  unfold foldTable at h
  cases hroot : p.admitNode s k true [{ key := k, found := true }] with
  | error e =>
    rw [hroot] at h
    cases h
  | ok start =>
    rw [hroot] at h
    have hstart : p.TableFound start :=
      tableFound_admitNode (fun n hn _ => mem_singleton.mp hn ▸ hk) hroot
    refine foldlM_keeps (fun t key t' ht hstep => ?_) (p.due k s) start table hstart h
    exact foldlM_keeps (fun _ _ _ => tableFound_admitNode) (levels k key) t t' ht hstep

theorem foldFrames_carries (h : p.TableFound table) :
    (∀ j, ∀ c ∈ Fold.carriedBy ((foldFrames table).1 j), p.found c.1 = true) ∧
      ∀ n ∈ (foldFrames table).2, p.found n.1.key = true ∧ ∀ c ∈ n.2.carried, p.found c.1 = true := by
  induction table with
  | nil => exact ⟨fun j c hc => absurd hc not_mem_nil, forall_mem_nil _⟩
  | cons n ns ih =>
    obtain ⟨hkids, hframes⟩ := ih fun j hj => h j (mem_cons_of_mem n hj)
    rw [foldFrames]
    dsimp only
    split
    · exact ⟨hkids, hframes⟩
    next hfound =>
    have hkey : p.found n.key = true := h n mem_cons_self (by simpa using hfound)
    have hnew : ∀ c ∈ (Fold.node n.key (n.lkv.map Ref.value)
        ((foldFrames ns).1 n.key)).carried, p.found c.1 = true := by
      intro c hc
      rw [Fold.carried] at hc
      rcases mem_append.mp hc with hc | hc
      · obtain ⟨x, -, rfl⟩ := mem_map.mp hc
        exact hkey
      · exact hkids _ c hc
    refine ⟨fun j c hc => ?_, forall_mem_cons.mpr ⟨⟨hkey, hnew⟩, hframes⟩⟩
    · dsimp only at hc
      by_cases hj : j = n.key.tail
      · rw [hj, Function.update_self, Fold.mem_carriedBy] at hc
        obtain ⟨f, hf, hc⟩ := hc
        rcases mem_append.mp hf with hf | hf
        · exact hkids _ c (Fold.mem_carriedBy.mpr ⟨f, hf, hc⟩)
        · rw [mem_singleton.mp hf] at hc
          exact hnew c hc
      · rw [Function.update_of_ne hj] at hc
        exact hkids j c hc

theorem sound_propagateFolded (hk : p.found k = true) (s : Store) : (p.propagateFolded k s).Sound p := by
  unfold propagateFolded
  split
  · exact sound_refused _ _
  split
  · exact sound_refused _ _
  next table htable =>
  have hframes := (foldFrames_carries (tableFound_foldTable hk htable)).2
  split
  · exact forall_mem_nil _
  next root f below hsplit =>
  rw [hsplit] at hframes
  have hroot : p.Carries (.fold true f) := (hframes _ mem_cons_self).2
  refine sound_ran ((((onlySends_all fun n hn => ?_).andThen (onlySends_fanOut hroot)).andThen
    (onlySends_bubbleIfHeard hroot)).andThen (onlySends_silent _)) s
  obtain ⟨hkey, hcarried⟩ :=
    hframes n (mem_cons_of_mem _ (mem_reverse.mp hn))
  unfold deliverNode
  split
  · split
    · exact onlySends_skip
    next r _ => exact onlySends_fanOut (carries_value hkey r.value)
  · exact onlySends_fanOut hcarried

end Plane

/-! ## Nobody is passed over -/

/-- The hooks let every value through as it is. -/
structure Env.Accepting (env : Env) : Prop where
  write : ∀ k x caller, env.onWrite k x caller = .ok ()
  admitted : ∀ k x caller, env.onAdmit k x caller = .ok none

namespace Plane

open Emitter

variable {p : Plane} {u v : Key} {m : Message} {e : Edge} {leg : Leg} {x : Tlv}

section

variable (henv : p.env.Accepting)
include henv

theorem storeValue_accepting (k : Key) (x : Tlv) (block : Option Nat)
    (caller : Name) (s : Store) : ∃ r, p.storeValue k x block caller s = .ok r := by
  unfold storeValue
  rw [henv.write, henv.admitted]
  split <;> exact ⟨_, rfl⟩

theorem sends_dispatchEdge (hleg : p.LegOpen e leg) :
    Sends (p.dispatchEdge v m e) ⟨v, e, leg, m.frame⟩ := by
  unfold dispatchEdge
  cases leg with
  | callback =>
    rw [if_pos (show e.callback = true from hleg)]
    exact (sends_send.andThen_left _).andThen_left _
  | target t =>
    obtain ⟨hkey, hfound, hallow⟩ := hleg
    refine (Sends.andThen_right ?_ _).andThen_left _
    rw [hkey]
    intro s
    obtain ⟨r, hr⟩ := storeValue_accepting henv t m.frame.tlv m.block e.caller s
    simp [dispatchEdgeTarget, hfound, hallow, hr]
  | remote =>
    rw [if_pos ((Bool.and_eq_true _ _).mpr hleg)]
    exact sends_send.andThen_right _

section

variable (ht : Tallied p.wiring)
include ht

theorem sends_fanOut (he : e ∈ (p.vertex v).snapshotEdges) (hleg : p.LegOpen e leg) :
    Sends (p.fanOut v m) ⟨v, e, leg, m.frame⟩ := by
  have hpos : 0 < (p.vertex v).ownSubs := (ht.ownSubs_pos_iff v).mpr ⟨e, he⟩
  unfold fanOut
  rw [if_neg (Nat.ne_of_gt hpos)]
  exact sends_all he (sends_dispatchEdge henv hleg)

theorem sends_deliverVertex
    (hu : u ∈ p.wiring.known) (hvu : Under v u) (he : e ∈ (p.vertex v).snapshotEdges)
    (hleg : p.LegOpen e leg) : Sends (p.deliverVertex u m) ⟨v, e, leg, m.frame⟩ := by
  have hpos : p.wiring.bubbles u = true := (ht.bubbles_iff hu).mpr ⟨v, e, hvu, he⟩
  refine Sends.andThen_right ?_ _
  unfold bubbleIfHeard
  rw [if_pos hpos]
  exact sends_all (mem_ancestors.mpr hvu) (sends_fanOut henv ht he hleg)

theorem mem_sent_deliverStored
    (hu : u ∈ p.wiring.known) (hvu : Under v u) (he : e ∈ (p.vertex v).snapshotEdges)
    (hleg : p.LegOpen e leg) (hrole : (p.vertex u).role ≠ .HANDLER)
    (hret : (p.vertex u).retainsNone = false) (s : Store) :
    ∃ s' r, p.storeValue u x none [] s = .ok (s', some r) ∧
      ⟨v, e, leg, .value u x⟩ ∈ (p.deliverStored u (some r) s').2 := by
  unfold storeValue
  rw [if_neg hrole, henv.admitted]
  refine ⟨_, _, rfl, ?_⟩
  by_cases hstream : (p.vertex u).role = .STREAM
  · simp only [deliverStored, if_pos hstream]
    refine mem_andThen_left ?_ _
    unfold deliverCurrent
    rw [if_pos hstream]
    refine sends_all (a := ⟨s.nextBlock, x⟩) ?_
      (sends_deliverVertex (m := Ref.message ⟨s.nextBlock, x⟩ u) henv ht hu hvu he hleg) _
    simp only [Store.publish, hret, if_pos hstream, Store.setRing]
    simpa using Ring.mem_unflushed_admitLocked _ _ _
  · simp only [deliverStored, if_neg hstream]
    exact (sends_deliverVertex (m := Ref.message ⟨s.nextBlock, x⟩ u) henv ht hu hvu he
      hleg).andThen_left _ _

/-- **Nobody above a written vertex is passed over**: with exact counters the owner's write of a
value is handed to every open edge of every ancestor. -/
theorem write_reaches (hu : u ∈ p.wiring.known) (hvu : Under v u) (he : e ∈ (p.vertex v).snapshotEdges)
    (hleg : p.LegOpen e leg) (hallow : p.allows u [] .WRITE = true) (hx : x.type = VALUE)
    (s : Store) : ⟨v, e, leg, .value u x⟩ ∈ (p.write u x [] s).sent := by
  have hbranch : isBranchPoint x (p.vertex u).role = false := by
    simp [isBranchPoint, hx, VALUE, POINT]
  unfold write
  rw [hallow, hbranch]
  by_cases hhandler : (p.vertex u).role = .HANDLER
  · simp only [Bool.not_true, Bool.false_eq_true, if_false, if_pos hhandler]
    simp only [handlerWriteDeliver, henv.write, isEmpty_nil, Bool.true_or, if_true, Outcome.sent_ran]
    exact (sends_deliverVertex (m := ⟨.value u x, none⟩) henv ht hu hvu he hleg).andThen_left _ s
  by_cases hret : (p.vertex u).retainsNone = true
  · simp only [Bool.not_true, Bool.false_eq_true, if_false, if_neg hhandler, if_pos hret]
    unfold relayWrite
    rw [henv.admitted]
    exact sends_deliverVertex (m := ⟨.value u x, none⟩) henv ht hu hvu he hleg s
  obtain ⟨s', r, hstore, hsent⟩ := mem_sent_deliverStored (x := x) henv ht hu hvu he hleg hhandler
    (by simpa using hret) s
  simp only [Bool.not_true, Bool.false_eq_true, if_false, if_neg hhandler, if_neg hret, hstore]
  exact hsent

end

end

end Plane

end LibTracer.Graph
