import LibTracer.Graph.Runs
import LibTracer.Graph.Touch
import Mathlib.Data.List.Induction

/-!
# Sweeps are exact

The sweep sets of `SweepSets`, in the graph that keeps them: a sweep selects from them what it should.

* **`sweep_exact`** — the sets, and each sweep, after any history.
-/

namespace LibTracer.Graph

open Function (update update_self update_of_ne)
open Wire List

/-! ## What an operation does to modes, registrations and the store -/

variable {w : Wiring}

namespace Wiring

variable {β : Type}

/-- Making placeholders keeps what is read of every vertex, where a vertex that is not allocated
reads like a new one. -/
theorem ensure_keeps (read : Vertex → β)
    (hread : ∀ v above, read { v with listenersAbove := above } = read v)
    (h : ∀ k, k ∉ w.known → read (w.vertex k) = read {}) (k j : Key) :
    read ((w.ensure k).vertex j) = read (w.vertex j) := by
  induction k with
  | nil => rfl
  | cons n q ih =>
    rw [ensure]
    split
    · exact ih
    next hnew =>
    by_cases hj : j = n :: q
    · subst hj
      have hold : n :: q ∉ w.known := fun hin => hnew (subset_known_ensure w q hin)
      rw [h _ hold, makePlaceholder]
      exact (congrArg read (update_self ..)).trans (hread {} _)
    · exact (congrArg read (update_of_ne hj ..)).trans ih

theorem ensure_unconditional (w : Wiring) (k : Key) : (w.ensure k).unconditional = w.unconditional :=
  ensure_rule w (P := fun w' => w'.unconditional = w.unconditional) rfl (fun _ _ _ h => h) k

/-- A retirement reverts the vertices it walks, and the counters and generations it moves elsewhere
are not read. -/
theorem foldl_retireOne_reads (read : Vertex → β)
    (hread : ∀ v above gen, read { v with listenersAbove := above, retireGen := gen } = read v)
    (ks : List Key) (w : Wiring) (j : Key) :
    read ((ks.foldl retireOne w).vertex j) = if j ∈ ks then read {} else read (w.vertex j) := by
  have hone : ∀ (w : Wiring) (k : Key),
      read ((w.retireOne k).vertex j) = if j = k then read {} else read (w.vertex j) := by
    intro w k
    unfold retireOne
    split
    next hj =>
      rw [hj, modify_vertex, update_self]
      exact hread {} _ _
    next hj =>
    rw [modify_vertex, update_of_ne hj, bumpSubtreeListeners]
    dsimp only
    split
    · exact hread (w.vertex j) _ (w.vertex j).retireGen
    · rfl
  induction ks generalizing w with
  | nil => rfl
  | cons k ks ih =>
    rw [foldl_cons, ih, hone]
    by_cases hj : j ∈ ks <;> by_cases hk : j = k <;> simp [hj, hk]

theorem applyPolicy_modes (w : Wiring) (k : Key) (role : Role) (pol : Policy) (r : Retention) :
    let mode := pol.deliveryMode.getD (w.vertex k).deliveryMode
    (∀ j, ((w.applyPolicy k role pol r).vertex j).deliveryMode =
        update (fun j => (w.vertex j).deliveryMode) k mode j) ∧
      (w.applyPolicy k role pol r).unconditional =
        (if mode = (w.vertex k).deliveryMode then w.unconditional
        else if mode = .UNCONDITIONAL then insertKey k w.unconditional
        else w.unconditional.erase k) ∧
      (w.applyPolicy k role pol r).acl = w.acl := by
  intro mode
  have hret : ∀ j, ((w.modify k fun v => v.setRetention role (pol.retention.getD r)
      (pol.depth.getD v.retentionDepth)).vertex j).deliveryMode = (w.vertex j).deliveryMode := by
    refine modify_keeps Vertex.deliveryMode ?_
    unfold Vertex.setRetention
    split <;> rfl
  unfold applyPolicy
  dsimp only
  by_cases hmode : mode = (w.vertex k).deliveryMode
  · rw [if_pos hmode, if_pos hmode]
    refine ⟨fun j => (hret j).trans ?_, rfl, rfl⟩
    rw [hmode]
    exact (congrFun (Function.update_eq_self k fun j => (w.vertex j).deliveryMode) j).symm
  rw [if_neg hmode, if_neg hmode]
  refine ⟨fun j => ?_, rfl, rfl⟩
  by_cases hj : j = k
  · subst hj
    simp [applyDeliveryMode, mode]
  · rw [update_of_ne hj, ← hret j]
    simp [applyDeliveryMode, hj]

end Wiring

open Wiring State

/-! ## The sets of a graph -/

/-- Sweep sets that hold registered vertices, and that a graph keeps. -/
structure Swept (w : Wiring) (s : Store) (t : SweepSets) : Prop where
  kept : t.Kept
  enrolled : t.Enrolled
  pending : t.pending = s.pending
  unconditional : t.unconditional = w.unconditional
  mode : ∀ k, t.mode k = (w.vertex k).deliveryMode
  registered : ∀ k, t.registered k = w.found k

/-- Some operations that are `allowed` bring the sets `t` to those of a graph. -/
def Follows (allowed : SweepOp → Prop) (w : Wiring) (s : Store) (t : SweepSets) : Prop :=
  ∃ ops, (∀ o ∈ ops, allowed o) ∧ Swept w s (SweepSets.machine.runFrom t ops)

/-- The operations on the sweep sets that an operation of the graph makes, with their allocations
granted. -/
def Op.Makes : Op → SweepOp → Prop
  | .register k _ _ _, .register j _ true true => j = k
  | .retire k, .retire lo => lo = k
  | .setPolicy k _, .mode j _ true => j = k
  | .write _ _ _, .clear _ _ true _ => True
  | .assign _ _ _, .mark _ _ true true => True
  | .propagate k false, .sweep lo g => lo = k ∧ g = {}
  | .propagate _ true, .clear _ _ true _ => True
  | _, _ => False

namespace Swept

variable {w w' : Wiring} {s s' : Store} {t : SweepSets} {p : Plane} {k : Key} {allowed : SweepOp → Prop}

theorem follows (h : Swept w s t) : Follows allowed w s t := ⟨[], forall_mem_nil _, h⟩

theorem step (h : Swept w s t) {op : SweepOp} (ha : allowed op) (henrolled : (t.step op).1.Enrolled)
    (hpending : (t.step op).1.pending = s'.pending)
    (hunconditional : (t.step op).1.unconditional = w'.unconditional)
    (hmode : ∀ k, (t.step op).1.mode k = (w'.vertex k).deliveryMode)
    (hregistered : ∀ k, (t.step op).1.registered k = w'.found k) : Follows allowed w' s' t :=
  ⟨[op], forall_mem_singleton.mpr ha,
    h.kept.step op, henrolled, hpending, hunconditional, hmode, hregistered⟩

theorem same (h : Swept w s t) (hw : SameModes w w') (hs : s'.pending = s.pending) : Swept w' s' t :=
  ⟨h.kept, h.enrolled, h.pending.trans hs.symm, h.unconditional.trans hw.unconditional.symm,
    fun k => (h.mode k).trans (hw.mode k).symm, fun k => (h.registered k).trans (hw.found k).symm⟩

end Swept

variable {s s' : Store}

theorem pending_storeValue {p : Plane} {k : Key} {x : Tlv} {block : Option Nat} {caller : Name}
    {r : Option Ref} (h : p.storeValue k x block caller s = .ok (s', r)) : s'.pending = s.pending := by
  obtain ⟨-, rfl, -⟩ | ⟨-, changed, r, n, -, -, -, rfl⟩ := Plane.storeValue_cases h
  · rfl
  unfold Store.publish
  split
  · rfl
  · dsimp only
    split <;> rfl

theorem Plane.Replays.pending {p : Plane} {ds : List Delivery} (h : p.Replays s ds s') :
    s'.pending = s.pending := by
  induction h with
  | nil s => rfl
  | told _ _ ih => exact ih
  | stored _ hstore _ ih => exact ih.trans (pending_storeValue hstore)

namespace Swept

variable {w w' : Wiring} {s s' : Store} {t : SweepSets} {p : Plane} {k : Key} {allowed : SweepOp → Prop}

theorem touch (h : Swept p.wiring s t) (hs : p.Touch allowed s s') : Follows allowed p.wiring s' t := by
  have hmode : ∀ {t' : SweepSets}, t'.mode = t.mode →
      ∀ k, t'.mode k = (p.wiring.vertex k).deliveryMode :=
    fun heq k => (congrFun heq k).trans (h.mode k)
  have hreg : ∀ {t' : SweepSets}, t'.registered = t.registered →
      ∀ k, t'.registered k = p.wiring.found k :=
    fun heq k => (congrFun heq k).trans (h.registered k)
  cases hs with
  | store hstore => exact (h.same (.refl _) (pending_storeValue hstore)).follows
  | flush k => exact Swept.follows (h.same (.refl _) rfl)
  | @mark k hk ha =>
    obtain ⟨hp, hu, hm, hr⟩ := SweepSets.markPending_all t k (p.observed k)
    refine h.step ha (h.enrolled.markPending ((h.registered k).trans hk) _) (hp.trans ?_)
      (hu.trans h.unconditional) (hmode hm) (hreg hr)
    rw [h.mode k, h.pending, Plane.markPending, Plane.vertex]
    split <;> rfl
  | @clear k delivered _ ha =>
    obtain ⟨hp, hu, hm, hr⟩ := SweepSets.clearPending_all h.kept k (p.observed k)
      ((s.lkv k).map Ref.block == delivered)
    refine h.step ha (h.enrolled.clearPending h.kept k _ _) (hp.trans ?_) (hu.trans h.unconditional)
      (hmode hm) (hreg hr)
    rw [h.pending, Plane.clearPending]
    split <;> rfl
  | @drain k ha =>
    obtain ⟨hp, hu, hm, hr, -⟩ := SweepSets.sweep_all h.kept k
    refine h.step ha (h.enrolled.sweep h.kept k) (hp.trans ?_) (hu.trans h.unconditional) (hmode hm)
      (hreg hr)
    rw [h.pending]

theorem touches (h : Swept p.wiring s t) (hs : p.Touches allowed s s') : Follows allowed p.wiring s' t := by
  induction hs with
  | refl => exact h.follows
  | tail _ hs ih =>
    obtain ⟨ops, hops, h'⟩ := ih
    obtain ⟨more, hmore, h''⟩ := h'.touch hs
    rw [← Machine.runFrom_append] at h''
    exact ⟨ops ++ more, forall_mem_append.mpr ⟨hops, hmore⟩, h''⟩

theorem declared (h : Swept w s t) (hk : w.found k = true) (ha : ∀ mode, allowed (.mode k mode true))
    (role : Role) (pol : Policy) (r : Retention) :
    Follows allowed (w.applyPolicy k role pol r)
      (s.applyPolicy k (w.vertex k) ((w.applyPolicy k role pol r).vertex k)) t := by
  obtain ⟨hmode, huncond, hacl⟩ := applyPolicy_modes w k role pol r
  generalize hm : pol.deliveryMode.getD (w.vertex k).deliveryMode = mode at hmode huncond
  have hafter : ((w.applyPolicy k role pol r).vertex k).deliveryMode = mode :=
    (hmode k).trans (update_self ..)
  have hfound : ∀ j, (w.applyPolicy k role pol r).found j = w.found j := fun j => by
    rw [Wiring.found, Wiring.found, hacl]
  by_cases hsame : mode = (w.vertex k).deliveryMode
  · refine (h.same ⟨?_, fun j => ?_, hfound⟩ ?_).follows
    · rw [huncond, if_pos hsame]
    · rw [hmode, hsame]
      exact congrFun (Function.update_eq_self k fun j => (w.vertex j).deliveryMode) j
    · exact if_neg fun hmoved => hmoved.1 (hsame.symm.trans hafter.symm)
  obtain ⟨-, hp, hu, hmodes, hr⟩ := SweepSets.applyDeliveryMode_all t k mode
  refine h.step (ha mode) (h.enrolled.applyDeliveryMode ((h.registered k).trans hk) mode) ?_ ?_
    (fun j => ?_) fun j => ?_
  · refine hp.trans ?_
    rw [h.pending, Store.applyPolicy, hafter]
    by_cases hnewer : mode = .IF_NEWER
    · simp [hnewer]
    · simp [hnewer, Ne.symm hsame]
  · exact hu.trans (by rw [h.unconditional, huncond, if_neg hsame])
  · refine (congrFun hmodes j).trans ((hmode j).trans ?_).symm
    exact congrFun (congrArg (update · k mode) (funext fun j => (h.mode j).symm)) j
  · exact (congrFun hr j).trans ((h.registered j).trans (hfound j).symm)

section

variable (h : Swept w s t) (hcount : Counted w)
include h hcount

theorem unallocated {j : Key} (hj : j ∉ w.known) : (w.vertex j).deliveryMode = .IF_NEWER := by
  refine (h.mode j).symm.trans (h.enrolled.plain j ((h.registered j).trans ?_))
  exact Bool.eq_false_of_not_eq_true fun hfound => hj (hcount.allocated j hfound)

/-- The sets under a registration: a vertex that is not registered has no mode of its own, so the
placeholders made on the way change none. -/
theorem registering {role : Role} {deliverWritten : Bool}
    {pol : Policy} (hw : w.register k role deliverWritten pol = .ok w')
    (ha : ∀ mode, allowed (.register k mode true true)) :
    Follows allowed w' (s.applyPolicy k (w.vertex k) (w'.vertex k)) t := by
  have hensure := ensure_keeps Vertex.deliveryMode (fun _ _ => rfl)
    (fun _ => h.unallocated hcount) k
  unfold Wiring.register at hw
  split at hw
  · cases hw
  split at hw
  · cases hw
  next hfree =>
  cases hw
  obtain ⟨hmode, huncond, hacl⟩ := applyPolicy_modes (w.ensure k) k role pol (defaultRetention role)
  rw [hensure k] at hmode huncond
  generalize hm : pol.deliveryMode.getD (w.vertex k).deliveryMode = mode at hmode huncond
  have hmodes : ∀ j, ((((w.ensure k).applyPolicy k role pol (defaultRetention role)).modify k
      fun v => { v with role, deliverWritten }).vertex j).deliveryMode =
        update t.mode k mode j := by
    intro j
    have hrole := modify_keeps Vertex.deliveryMode (f := fun v => { v with role, deliverWritten })
      (k := k) (w := (w.ensure k).applyPolicy k role pol (defaultRetention role)) rfl j
    refine hrole.trans ((hmode j).trans ?_)
    exact congrFun (congrArg (update · k mode)
      (funext fun j => (hensure j).trans (h.mode j).symm)) j
  have hnew : t.registered k = false := by
    rw [h.registered k, Wiring.found, ← ensure_acl w k]
    simpa [Wiring.found] using hfree
  obtain ⟨hp, hu, hm, hr⟩ := SweepSets.register_all hnew mode
  refine h.step (ha mode) (h.enrolled.register hnew mode) (hp.trans ?_) (hu.trans ?_)
    (fun j => (congrFun hm j).trans (hmodes j).symm) fun j => (congrFun hr j).trans ?_
  · rw [h.pending, h.mode k, Store.applyPolicy]
    dsimp only
    rw [(hmodes k).trans (update_self ..)]
    simp only [ne_comm]
  · rw [h.unconditional, h.mode k, ← ensure_unconditional w k]
    exact huncond.symm
  · have hafter : (((w.ensure k).applyPolicy k role pol (defaultRetention role)).modify k
        fun v => { v with role, deliverWritten }).acl = w.acl := hacl.trans (ensure_acl w k)
    rw [Wiring.found]
    by_cases hj : j = k
    · simp [hj, AclSpec.step]
    · simp [hj, AclSpec.step, h.registered j, Wiring.found, hafter]

theorem retired (hk : w.found k = true) (ha : allowed (.retire k)) :
    Follows allowed (w.retireSubtree k) (s.retireSubtree k) t := by
  obtain ⟨hp, hu, hmode, hreg⟩ := SweepSets.retire_sets h.kept ((h.registered k).trans hk)
  refine h.step ha (h.enrolled.retire h.kept ((h.registered k).trans hk)) (hp.trans (by rw [h.pending]; rfl)) (hu.trans ?_)
    (fun j => (congrFun hmode j).trans ?_) fun j => (congrFun hreg j).trans ?_
  · rw [h.unconditional, retireSubtree]
    dsimp only
    rw [foldl_retireOne_keeps Wiring.unconditional fun _ _ => rfl]
  · have hread := foldl_retireOne_reads Vertex.deliveryMode (fun _ _ _ => rfl)
      (w.known.filter (k <:+ ·)) { w with acl := (w.acl.step (.retire k)).1 } j
    refine Eq.trans ?_ hread.symm
    by_cases hin : k <:+ j
    · rw [if_pos hin]
      by_cases hknown : j ∈ w.known
      · simp [hknown, hin]
      · simp [hknown, h.unallocated hcount hknown]
    · simp [hin, h.mode j]
  · rw [Wiring.found, retireSubtree_acl]
    by_cases hin : k <:+ j
    · simp [hin, AclSpec.step]
    · simp [hin, AclSpec.step, h.registered j, Wiring.found]

end

end Swept

theorem State.latch_pending (p : Plane) (g : State) (k : Key) (e : Edge) :
    (latch p g k e).1.store.pending = g.store.pending := by
  unfold latch
  split
  · rfl
  split
  · rfl
  next r _ => exact (Plane.dispatch_replays ⟨k, e, r.message k⟩ g.store).pending

/-- **An operation of the graph makes its operations on the sets**, and leaves those of the graph. -/
theorem Swept.next {g : State} {t : SweepSets} (h : Swept g.wiring g.store t) (hcount : Counted g.wiring)
    (policy : AclPolicy) (ev : Event) :
    Follows ev.op.Makes (g.step policy ev).1.wiring (g.step policy ev).1.store t := by
  have hends := step_ends policy g ev
  generalize g.step policy ev = r at hends ⊢
  generalize ev.op = op at hends ⊢
  have htouch : ∀ {s' : Store}, (plane policy ev.env g).Touches op.Makes g.store s' →
      Follows op.Makes g.wiring s' t := Swept.touches (p := plane policy ev.env g) h
  cases hends with
  | rewired hc hm status => exact (h.same hm rfl).follows
  | latched hc hm k e =>
    refine Swept.follows (h.same ?_ (latch_pending _ _ k e))
    rw [latch_wiring]
    exact hm
  | registered hop hw => exact h.registering hcount hw fun _ => hop ▸ rfl
  | retired hop hk => exact h.retired hcount hk (hop ▸ rfl)
  | declared hop hk hw =>
    subst hw
    exact h.declared hk (fun _ => hop ▸ rfl) _ _ _
  | wrote hop hk => exact htouch (Plane.write_touches hk (fun _ _ _ => hop ▸ trivial) _ _ _)
  | assigned hop hk => exact htouch (Plane.assign_touches hk (fun _ _ => hop ▸ trivial) _ _ _)
  | @propagated k fold hop hk =>
    cases fold with
    | false => exact htouch (Plane.propagate_touches (hop ▸ ⟨rfl, rfl⟩) _)
    | true => exact htouch (Plane.propagateFolded_touches (fun _ _ _ => hop ▸ trivial) _ _)

/-- **The sets along every history**: each operation comes with those it makes on the sets, and after
each the sets are those of the graph. -/
theorem swept_run (policy : AclPolicy) (evs : List Event) :
    ∃ es : List (Event × List SweepOp), es.map Prod.fst = evs ∧
      (∀ e ∈ es, ∀ o ∈ e.2, e.1.op.Makes o) ∧ ∀ ds, ds <+: es →
        let g := (State.machine policy).run (ds.map Prod.fst)
        Swept g.wiring g.store (SweepSets.machine.run (ds.flatMap Prod.snd)) := by
  induction evs using List.reverseRecOn with
  | nil =>
    refine ⟨[], rfl, forall_mem_nil _, fun ds hds => ?_⟩
    rw [prefix_nil.mp hds]
    exact ⟨.start, .start, rfl, rfl, fun _ => rfl, fun _ => rfl⟩
  | append_singleton evs ev ih =>
    obtain ⟨es, rfl, hmakes, hswept⟩ := ih
    obtain ⟨ops, hops, hnext⟩ := (hswept es prefix_rfl).next
      (counted_of_reachable ((State.machine policy).reachable_run _)) policy ev
    refine ⟨es ++ [(ev, ops)], by rw [map_append]; rfl,
      forall_mem_append.mpr ⟨hmakes, forall_mem_singleton.mpr hops⟩, fun ds hds => ?_⟩
    rcases prefix_concat_iff.mp hds with rfl | hds
    · rw [map_append, flatMap_append, Machine.run, Machine.run, Machine.runFrom_append,
        Machine.runFrom_append, flatMap_singleton]
      exact hnext
    · exact hswept ds hds

/-! ## One sweep -/

namespace Plane

variable {p : Plane} {k : Key}

/-- What a vertex delivers when a sweep comes to it: a stream everything it owes, any other vertex
the value it holds, if it holds one. -/
def current (p : Plane) (k : Key) (s : Store) : List Message :=
  if (p.vertex k).role = .STREAM then (s.ring k).unflushed.map (·.message k)
  else (s.lkv k).toList.map (·.message k)

def flushed (p : Plane) (k : Key) (s : Store) : Store :=
  if (p.vertex k).role = .STREAM then s.setRing k (s.ring k).flush else s

theorem deliverCurrent_eq (p : Plane) (k : Key) (s : Store) :
    p.deliverCurrent k s = Emitter.all (p.deliverVertex k) (p.current k s) (p.flushed k s) := by
  unfold deliverCurrent current flushed
  split
  · rw [Emitter.all_map]
  cases s.lkv k with
  | none => rfl
  | some r => exact (congrFun (Emitter.andThen_skip (p.deliverVertex k (r.message k))) s).symm

theorem pending_deliverCurrent (k : Key) (s : Store) : (p.deliverCurrent k s).1.pending = s.pending := by
  have htraced : Emitter.Traced fun (s : Store) (_ : List Delivery) s' => s'.pending = s.pending :=
    ⟨fun _ => rfl, fun h h' => h'.trans h⟩
  have hflush : (p.flushed k s).pending = s.pending := by
    unfold flushed
    split <;> rfl
  have hone : ∀ m ∈ p.current k s, Emitter.Obeys
      (fun (s : Store) (_ : List Delivery) s' => s'.pending = s.pending) (p.deliverVertex k m) := by
    intro m _ s
    rw [deliverVertex_eq]
    exact (all_dispatch_replays _ s).pending
  rw [deliverCurrent_eq]
  exact (htraced.all hone _).trans hflush

theorem due_eq (p : Plane) (k : Key) (s : Store) :
    p.due k s = (s.pending ++ p.wiring.unconditional).filter (Under k ·) := by
  rw [due, filter_append]

/-- **A sweep**: its root first, then the marks of the subtree are drained, then what was due. -/
theorem propagate_eq (hk : p.retains k = true) (s : Store) :
    p.propagate k s = .ran ((((p.deliverCurrent k).andThen
      (Emitter.silent fun s => { s with pending := s.pending.filter (¬ k <:+ ·) })).andThen
      (Emitter.all p.deliverCurrent ((p.due k s).filter p.found))) s) := by
  have hdue : p.due k (p.deliverCurrent k s).1 = p.due k s := by
    rw [due, pending_deliverCurrent, due]
  unfold propagate
  rw [hk, Bool.not_true, if_neg nofun]
  simp only [Emitter.andThen, Emitter.silent, hdue, append_nil]

theorem pending_propagate (hk : p.retains k = true) (s : Store) :
    (p.propagate k s).store.pending = s.pending.filter (¬ k <:+ ·) := by
  have htraced : Emitter.Traced fun (s : Store) (_ : List Delivery) s' => s'.pending = s.pending :=
    ⟨fun _ => rfl, fun h h' => h'.trans h⟩
  rw [propagate_eq hk]
  refine (htraced.all (fun j _ s => pending_deliverCurrent j s) _).trans ?_
  exact congrArg (List.filter _) (pending_deliverCurrent k s)

end Plane

/-! ## Every history -/

/-- What holds of the sweep sets of a graph: they are registered vertices of the mode each set is
for, each vertex once and in one of them, and the count is exact. -/
structure SetsExact (g : State) (t : SweepSets) : Prop where
  registered : ∀ k, t.registered k = g.wiring.found k
  mode : ∀ k, t.mode k = (g.wiring.vertex k).deliveryMode
  pending : t.pending = g.store.pending
  unconditional : t.unconditional = g.wiring.unconditional
  counted : t.count = g.store.pending.length
  nodup : g.store.pending.Nodup ∧ g.wiring.unconditional.Nodup
  disjoint : g.store.pending.Disjoint g.wiring.unconditional
  marked : ∀ k ∈ g.store.pending, g.wiring.found k = true ∧ (g.wiring.vertex k).deliveryMode = .IF_NEWER
  always : ∀ k, k ∈ g.wiring.unconditional ↔
    g.wiring.found k = true ∧ (g.wiring.vertex k).deliveryMode = .UNCONDITIONAL

theorem Swept.exact {g : State} {t : SweepSets} (h : Swept g.wiring g.store t) : SetsExact g t where
  registered := h.registered
  mode := h.mode
  pending := h.pending
  unconditional := h.unconditional
  counted := h.pending ▸ h.kept.counted
  nodup := ⟨h.pending ▸ h.kept.pending.nodup, h.unconditional ▸ h.kept.unconditional.nodup⟩
  disjoint := h.pending ▸ h.unconditional ▸ h.kept.disjoint
  marked k hk := by
    rw [← h.pending] at hk
    exact ⟨(h.registered k).symm.trans (h.enrolled.marked k hk), (h.mode k).symm.trans (h.kept.newer k hk)⟩
  always k := by
    rw [← h.unconditional, ← h.registered k, ← h.mode k]
    constructor
    · intro hk
      exact ⟨h.enrolled.always h.kept hk, (h.kept.always k).mp hk⟩
    · exact fun hk => (h.kept.always k).mpr hk.2

/-- **Sweeps are exact after every history**: the sets are, after any operations on them and after each
operation of the graph with those it makes, and a sweep of a registered vertex is refused because the vertex
retains nothing, or delivers the vertex, then each registered vertex below that is marked or always swept,
once each, and leaves no mark in the subtree. -/
theorem sweep_exact (policy : AclPolicy) (evs : List Event) :
    let g := (State.machine policy).run evs
    (∀ ops, (SweepSets.machine.run ops).Kept) ∧
    (∃ es : List (Event × List SweepOp), es.map Prod.fst = evs ∧
      (∀ e ∈ es, ∀ o ∈ e.2, e.1.op.Makes o) ∧ ∀ ds, ds <+: es →
        SetsExact ((State.machine policy).run (ds.map Prod.fst))
          (SweepSets.machine.run (ds.flatMap Prod.snd))) ∧
      ∀ (env : Env) (k : Key), g.wiring.found k = true →
        let p := plane policy env g
        (p.retains k = false → p.propagate k g.store = .refused g.store .SCHEMA_NOT_FOUND) ∧
          (p.retains k = true → ∃ below : List Key, below.Nodup ∧
            (∀ j, j ∈ below ↔ Under k j ∧ (j ∈ g.store.pending ∨ j ∈ g.wiring.unconditional)) ∧
            (∀ j s, p.deliverCurrent j s =
              Emitter.all (p.deliverVertex j) (p.current j s) (p.flushed j s)) ∧
            p.propagate k g.store = .ran ((((p.deliverCurrent k).andThen
              (Emitter.silent fun s => { s with pending := s.pending.filter (¬ k <:+ ·) })).andThen
              (Emitter.all p.deliverCurrent below)) g.store) ∧
            ∀ j, k <:+ j → j ∉ (p.propagate k g.store).store.pending) := by
  intro g
  obtain ⟨es, rfl, hmakes, hswept⟩ := swept_run policy evs
  have hexact := (hswept es prefix_rfl).exact
  refine ⟨SweepSets.kept_run, ⟨es, rfl, hmakes, fun ds hds => (hswept ds hds).exact⟩, fun env k hk => ⟨fun hkeeps => ?_, fun hkeeps => ?_⟩⟩
  · unfold Plane.propagate
    rw [hkeeps]
    rfl
  · have hdue : ∀ j, j ∈ (plane policy env g).due k g.store ↔
        Under k j ∧ (j ∈ g.store.pending ∨ j ∈ g.wiring.unconditional) := by
      intro j
      rw [Plane.due_eq, mem_filter, mem_append, decide_eq_true_eq, and_comm]
      rfl
    have hfound : ∀ j ∈ (plane policy env g).due k g.store,
        (plane policy env g).found j = true := by
      intro j hj
      rcases ((hdue j).mp hj).2 with hj | hj
      · exact (hexact.marked j hj).1
      · exact ((hexact.always j).mp hj).1
    have hall : ((plane policy env g).due k g.store).filter (plane policy env g).found =
        (plane policy env g).due k g.store := filter_eq_self.mpr hfound
    refine ⟨(plane policy env g).due k g.store, ?_, hdue,
      fun j s => Plane.deliverCurrent_eq _ j s, ?_, fun j hj => ?_⟩
    · rw [Plane.due_eq]
      exact (hexact.nodup.1.append hexact.nodup.2 hexact.disjoint).filter _
    · rw [Plane.propagate_eq hkeeps, hall]
    · rw [Plane.pending_propagate hkeeps]
      simp [hj]

/-! ### A stream that owes two values, and a handle that outlived its vertex -/

/-- The vertex `/t/s`. -/
def innerKey : Key := "s".toList :: sinkKey

/-- The stream `/t/s` with a subscriber, and two values assigned to it. -/
def owing : List Event :=
  [.register sinkKey .STORED_VALUE true {}, .register innerKey .STREAM true { depth := some 8 },
    .subscribeCallback innerKey false, .assign innerKey tick [],
    .assign innerKey tick []].map (Event.mk plainEnv)

/-- The subscribed vertex `/t`, below which `/t/s` was retired. -/
def outlived : List Event :=
  [.register sinkKey .STORED_VALUE true {}, .subscribeCallback sinkKey false,
    .register innerKey .STORED_VALUE true {}, .retire innerKey].map (Event.mk plainEnv)

/-- **One sweep of `/t` delivers the stream below it twice**, once for each value it owes; and
through the handle of the retired `/t/s` an assignment marks a vertex that is not registered. -/
theorem sweep_delivers_twice :
    let g := (State.machine .allowOnly).run owing
    let p := g.plane .allowOnly plainEnv
    let h := (State.machine .allowOnly).run outlived
    let q := h.plane .allowOnly plainEnv
    (p.propagate sinkKey g.store).sent.map Delivery.point = [innerKey, innerKey] ∧
      h.wiring.found innerKey = false ∧
      (q.assign innerKey tick [] h.store).store.pending = [innerKey] := by
  decide +kernel

end LibTracer.Graph
