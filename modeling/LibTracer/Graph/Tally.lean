import LibTracer.Graph.Wiring
import LibTracer.Lib.Lookup

/-!
# The listener counters are exact

Delivery skips a vertex whose own count is zero and does not climb from a vertex that counts no
listener above it, so a counter that is too low loses deliveries.  Every operation of the control
plane moves the counters apart from the slots, by walks over the subtree; in between a vertex is ahead of
its slots by a known amount.

* **`Tallied`** — what the counters say; kept by every operation.
-/

namespace LibTracer.Graph

open List

/-! ## The slot verbs -/

/-- A change of the slots alone that moves the count of delivering edges by `delta`. -/
structure Reslotted (v v' : Vertex) (delta : Int) : Prop where
  ownSubs : v'.ownSubs = v.ownSubs
  listenersAbove : v'.listenersAbove = v.listenersAbove
  count : (v'.liveCount : Int) = v.liveCount + delta

variable {suspended : Bool} {u : Key} {f : Vertex → Vertex} {e : Edge}

namespace Vertex

variable {v v' : Vertex} {old : Option Slot} {idx : Nat}

theorem reslotted_set {i : Nat} (h : v.slots[i]? = some old) (new : Option Slot) :
    Reslotted v { v with slots := v.slots.set i new }
      ((delivers new).toNat - (delivers old).toNat) where
  ownSubs := rfl
  listenersAbove := rfl
  count := by
    have : (v.slots.set i new).countP delivers + (delivers old).toNat =
        v.slots.countP delivers + (delivers new).toNat := Lookup.countP_set_add h new
    simp only [liveCount]
    omega

theorem addEdge_reslotted (v : Vertex) (e : Edge) : Reslotted v (v.addEdge e).1 1 := by
  let idx := v.slots.findIdx Option.isNone
  let slots := if idx = v.slots.length then v.slots ++ [none] else v.slots
  have hfree : slots[idx]? = some none := by
    by_cases h : idx = v.slots.length
    · simp [slots, h]
    have hlt : idx < v.slots.length := lt_of_le_of_ne findIdx_le_length h
    have hnone := findIdx_getElem (w := hlt)
    simp only [slots, if_neg h]
    rw [getElem?_eq_getElem hlt]
    exact congrArg some (Option.isNone_iff_eq_none.mp hnone)
  -- a new slot joins the table cleared, which counts for nothing
  have hcount : slots.countP delivers = v.slots.countP delivers := by
    by_cases h : idx = v.slots.length
    · simp [slots, h, delivers]
    · simp [slots, h]
  have hset := reslotted_set (v := { v with slots := slots }) hfree (some ⟨e, true⟩)
  refine ⟨rfl, rfl, hset.count.trans ?_⟩
  simp only [liveCount, hcount]
  rfl

theorem clearEdge_reslotted {s : Slot} (h : v.clearEdge idx = some (v', s)) :
    Reslotted v v' (-s.live.toNat) := by
  unfold clearEdge at h
  split at h
  next s' hs =>
    cases h
    have hset := reslotted_set hs none
    simpa [delivers] using hset
  · cases h

theorem replaceEdge_reslotted
    (h : v.replaceEdge idx e = some (v', old)) : Reslotted v v' (1 - (delivers old).toNat) := by
  unfold replaceEdge at h
  split at h
  next old' hold =>
    cases h
    exact reslotted_set hold (some ⟨e, true⟩)
  · cases h

theorem setEdgeSuspended_reslotted {changed : Bool}
    (h : v.setEdgeSuspended idx suspended = some (v', changed)) :
    Reslotted v v' (if changed then if suspended then -1 else 1 else 0) := by
  unfold setEdgeSuspended at h
  split at h
  next s hs =>
    split at h
    next hlive =>
      cases h
      have hset := reslotted_set hs (some { s with live := !suspended })
      subst hlive
      cases hs : s.live <;> simpa [delivers, hs] using hset
    · cases h
      exact ⟨rfl, rfl, (Int.add_zero _).symm⟩
  · cases h

/-- An eviction takes the edges it hits off the count, live or not. -/
theorem countP_evict (hit : Edge → Bool) (slots : List (Option Slot)) :
    (slots.map fun s => if hits hit s then none else s).countP delivers + slots.countP (hits hit) =
      slots.countP delivers + slots.countP fun s => hits hit s && !delivers s := by
  rw [countP_map]
  induction slots with
  | nil => rfl
  | cons s slots ih =>
    have hnone : delivers none = false := rfl
    simp only [countP_cons, Function.comp_apply]
    by_cases hh : hits hit s = true <;> by_cases hd : delivers s = true <;>
      simp [hh, hd, hnone] <;> omega

theorem evictEdges_reslotted (v : Vertex) (hit : Edge → Bool) :
    Reslotted v (v.evictEdges hit).1 (-(((v.evictEdges hit).2.1 : Int) - (v.evictEdges hit).2.2)) where
  ownSubs := rfl
  listenersAbove := rfl
  count := by
    have hcount := countP_evict hit v.slots
    simp only [liveCount, evictEdges]
    omega

end Vertex

/-! ## The counters are exact -/

/-- Every allocated vertex has its parent allocated, and listens to what its parent listens to and
to its parent. -/
structure Linked (w : Wiring) : Prop where
  root : [] ∈ w.known
  closed : ∀ n p, n :: p ∈ w.known → p ∈ w.known
  top : (w.vertex []).listenersAbove = 0
  above : ∀ n p, n :: p ∈ w.known →
    (w.vertex (n :: p)).listenersAbove = (w.vertex p).listenersAbove + (w.vertex p).ownSubs

/-- **The counters are exact**: every vertex counts its delivering edges, and those above it. -/
structure Tallied (w : Wiring) : Prop extends Linked w where
  own : ∀ k, (w.vertex k).ownSubs = (w.vertex k).liveCount

/-- Exact but for one vertex, whose own count is ahead of its slots by `delta`: what holds between
the counting half of an operation and its slot verb. -/
structure Ahead (w : Wiring) (k : Key) (delta : Int) : Prop extends Linked w where
  here : ((w.vertex k).ownSubs : Int) = (w.vertex k).liveCount + delta
  elsewhere : ∀ j, j ≠ k → (w.vertex j).ownSubs = (w.vertex j).liveCount

namespace Linked

variable {w w' : Wiring}

theorem ownSubs_le (h : Linked w) {v : Key} (hu : u ∈ w.known) (huv : Under v u) :
    (w.vertex v).ownSubs ≤ (w.vertex u).listenersAbove := by
  induction u with
  | nil => exact absurd huv (not_under_nil v)
  | cons n p ih =>
    rw [h.above n p hu]
    rcases under_cons.mp huv with rfl | hp
    · exact Nat.le_add_left _ _
    · exact Nat.le_add_right_of_le (ih (h.closed n p hu) hp)

/-- The count above a vertex is the sum over its ancestors. -/
theorem listenersAbove_eq_sum (h : Linked w) (hu : u ∈ w.known) :
    (w.vertex u).listenersAbove = ((ancestors u).map fun a => (w.vertex a).ownSubs).sum := by
  induction u with
  | nil => exact h.top
  | cons n p ih =>
    rw [h.above n p hu, ih (h.closed n p hu), ancestors, map_cons, sum_cons, add_comm]

theorem congr (h : Linked w) (hknown : w'.known = w.known)
    (hown : ∀ j, (w'.vertex j).ownSubs = (w.vertex j).ownSubs)
    (habove : ∀ j, (w'.vertex j).listenersAbove = (w.vertex j).listenersAbove) : Linked w' where
  root := hknown ▸ h.root
  closed n p hp := hknown ▸ h.closed n p (hknown ▸ hp)
  top := (habove []).trans h.top
  above n p hp := by rw [habove, habove, hown, h.above n p (hknown ▸ hp)]

end Linked

namespace Wiring

variable {w : Wiring} {k : Key} {d delta : Int}

section

variable (w : Wiring) (k : Key) (d : Int)

theorem noteSubscriber_ownSubs (j : Key) : ((w.noteSubscriber k d).vertex j).ownSubs =
      if j = k then bump (w.vertex k).ownSubs d else (w.vertex j).ownSubs := by
  unfold noteSubscriber bumpSubtreeListeners
  by_cases hj : j = k
  · subst hj
    simp [not_under_self]
  · simp only [modify_vertex, Function.update_of_ne hj, if_neg hj]
    split <;> rfl

theorem noteSubscriber_listenersAbove (j : Key) : ((w.noteSubscriber k d).vertex j).listenersAbove =
      if Under k j ∧ j ∈ w.known then bump (w.vertex j).listenersAbove d
      else (w.vertex j).listenersAbove := by
  unfold noteSubscriber bumpSubtreeListeners
  by_cases hj : j = k
  · subst hj
    simp [not_under_self]
  · simp only [modify_vertex, modify_known, Function.update_of_ne hj]
    split <;> rfl

end

variable {β : Type}

/-- Counting changes nothing but the counts. -/
theorem noteSubscriber_keeps (read : Vertex → β)
    (hread : ∀ v own above, read { v with ownSubs := own, listenersAbove := above } = read v)
    (w : Wiring) (k : Key) (d : Int) (j : Key) :
    read ((w.noteSubscriber k d).vertex j) = read (w.vertex j) := by
  unfold noteSubscriber bumpSubtreeListeners
  by_cases hj : j = k
  · subst hj
    simpa [not_under_self] using hread (w.vertex j) _ (w.vertex j).listenersAbove
  simp only [modify_vertex, modify_known, Function.update_of_ne hj]
  split
  · exact hread (w.vertex j) (w.vertex j).ownSubs _
  · rfl

theorem noteSubscriber_slots (w : Wiring) (k : Key) (d : Int) (j : Key) :
    ((w.noteSubscriber k d).vertex j).slots = (w.vertex j).slots :=
  noteSubscriber_keeps Vertex.slots (fun _ _ _ => rfl) w k d j

theorem modify_keeps (read : Vertex → β) (hf : read (f (w.vertex k)) = read (w.vertex k)) (j : Key) :
    read ((w.modify k f).vertex j) = read (w.vertex j) := by
  by_cases hj : j = k
  · rw [hj, modify_vertex, Function.update_self, hf]
  · rw [modify_vertex, Function.update_of_ne hj]

theorem bump_add {m n : Nat} (hd : 0 ≤ (n : Int) + d) : bump (m + n) d = m + bump n d := by
  unfold bump
  omega

end Wiring

open Wiring

/-- **The counting rule**: moving a vertex's own count and the counters of everything below it by
the same amount keeps the counters linked. -/
theorem Linked.noteSubscriber {w : Wiring} (h : Linked w) (k : Key) {d : Int}
    (hd : 0 ≤ ((w.vertex k).ownSubs : Int) + d) : Linked (w.noteSubscriber k d) where
  root := h.root
  closed := h.closed
  top := by
    rw [noteSubscriber_listenersAbove, if_neg fun hu => not_under_nil k hu.1]
    exact h.top
  above n p hp := by
    have hp' := h.closed n p hp
    have hold := h.above n p hp
    simp only [noteSubscriber_listenersAbove, noteSubscriber_ownSubs, under_cons]
    by_cases hkp : p = k
    · subst hkp
      rw [if_pos ⟨Or.inl rfl, hp⟩, if_neg fun hu => not_under_self p hu.1, if_pos rfl, hold, bump_add hd]
    by_cases hu : Under k p
    · have hle := h.ownSubs_le hp' hu
      rw [if_pos ⟨Or.inr hu, hp⟩, if_pos ⟨hu, hp'⟩, if_neg hkp, hold, add_comm,
        bump_add (by omega), add_comm]
    · have hno : ¬ (k = p ∨ Under k p) := fun hor => hor.elim (fun e => hkp e.symm) hu
      rw [if_neg fun hu' => hno hu'.1, if_neg fun hu' => hu hu'.1, if_neg hkp, hold]

namespace Ahead

variable {w : Wiring} {k : Key} {d delta : Int}

theorem tallied (h : Ahead w k 0) : Tallied w where
  toLinked := h.toLinked
  own j := by
    by_cases hj : j = k
    · have := h.here
      subst hj
      omega
    · exact h.elsewhere j hj

theorem noteSubscriber (h : Ahead w k delta) (hd : 0 ≤ ((w.vertex k).ownSubs : Int) + d) :
    Ahead (w.noteSubscriber k d) k (delta + d) where
  toLinked := h.toLinked.noteSubscriber k hd
  here := by
    have hhere := h.here
    rw [noteSubscriber_ownSubs, if_pos rfl]
    simp only [Vertex.liveCount, noteSubscriber_slots, bump] at hhere ⊢
    omega
  elsewhere j hj := by
    rw [noteSubscriber_ownSubs, if_neg hj, h.elsewhere j hj]
    simp only [Vertex.liveCount, noteSubscriber_slots]

theorem reslot (h : Ahead w k delta) {v : Vertex} (hv : Reslotted (w.vertex k) v d) :
    Ahead (w.modify k fun _ => v) k (delta - d) where
  toLinked := h.toLinked.congr rfl (modify_keeps Vertex.ownSubs hv.ownSubs)
    (modify_keeps Vertex.listenersAbove hv.listenersAbove)
  here := by
    have hhere := h.here
    have hcount := hv.count
    rw [modify_vertex, Function.update_self, hv.ownSubs]
    omega
  elsewhere j hj := by
    rw [modify_vertex, Function.update_of_ne hj]
    exact h.elsewhere j hj

/-- The counter catches up with the slots. -/
theorem settle {delivered : Bool} (h : Ahead w k delivered.toNat) :
    Tallied (if delivered then w.noteSubscriber k (-1) else w) := by
  have hhere := h.here
  cases delivered with
  | true => exact (h.noteSubscriber (d := -1) (by simp at hhere ⊢; omega)).tallied
  | false => exact h.tallied

end Ahead

namespace Tallied

variable {w w' : Wiring}

theorem ahead (h : Tallied w) (k : Key) : Ahead w k 0 where
  toLinked := h.toLinked
  here := by rw [h.own k, Int.add_zero]
  elsewhere j _ := h.own j

theorem congr (h : Tallied w) (hknown : w'.known = w.known)
    (hown : ∀ j, (w'.vertex j).ownSubs = (w.vertex j).ownSubs)
    (habove : ∀ j, (w'.vertex j).listenersAbove = (w.vertex j).listenersAbove)
    (hslots : ∀ j, (w'.vertex j).slots = (w.vertex j).slots) : Tallied w' where
  toLinked := h.toLinked.congr hknown hown habove
  own j := by rw [hown, h.own j, Vertex.liveCount, Vertex.liveCount, hslots]

variable {k : Key}

theorem modify (h : Tallied w) (hown : (f (w.vertex k)).ownSubs = (w.vertex k).ownSubs)
    (habove : (f (w.vertex k)).listenersAbove = (w.vertex k).listenersAbove)
    (hslots : (f (w.vertex k)).slots = (w.vertex k).slots) : Tallied (w.modify k f) :=
  h.congr rfl (modify_keeps Vertex.ownSubs hown) (modify_keeps Vertex.listenersAbove habove)
    (modify_keeps Vertex.slots hslots)

/-! ### Subscriptions -/

section

variable (h : Tallied w)
include h

theorem addEdge (k : Key) (e : Edge) : Tallied (w.addEdge k e) := by
  have hcounted := (h.ahead k).noteSubscriber (d := 1) (by omega)
  exact (hcounted.reslot (Vertex.addEdge_reslotted _ e)).tallied

variable {slot : Nat}

theorem replaceEdge (hw : w.replaceEdge k slot e = some w') : Tallied w' := by
  have hcounted := (h.ahead k).noteSubscriber (d := 1) (by omega)
  unfold Wiring.replaceEdge at hw
  dsimp only at hw
  split at hw
  · cases hw
  next v old hv =>
  cases hw
  have hre := hcounted.reslot (Vertex.replaceEdge_reslotted hv)
  rw [show (0 : Int) + 1 - (1 - (Vertex.delivers old).toNat) = (Vertex.delivers old).toNat by
    omega] at hre
  exact hre.settle

theorem clearSubscriberSlot (hw : w.clearSubscriberSlot k slot = some w') : Tallied w' := by
  unfold Wiring.clearSubscriberSlot at hw
  split at hw
  · cases hw
  next v s hv =>
  cases hw
  have hre := (h.ahead k).reslot (Vertex.clearEdge_reslotted hv)
  rw [show (0 : Int) - -(s.live.toNat : Int) = s.live.toNat by omega] at hre
  exact hre.settle

theorem setSuspended (hw : w.setSuspended k slot suspended = some w') : Tallied w' := by
  unfold Wiring.setSuspended at hw
  dsimp only at hw
  have hcounted := (h.ahead k).noteSubscriber (d := if suspended then 0 else 1)
    (by split <;> omega)
  split at hw
  · cases hw
  next v changed hv =>
  have hre := hcounted.reslot (Vertex.setEdgeSuspended_reslotted hv)
  cases hw
  have hhere := hre.here
  have hback := hre.noteSubscriber
    (d := -(if changed then 1 - (if suspended then 0 else 1) else if suspended then 0 else 1))
    (by cases changed <;> cases suspended <;> simp at hhere ⊢ <;> omega)
  have hzero : (0 + (if suspended then (0 : Int) else 1) -
      (if changed then if suspended then -1 else 1 else 0) +
      -(if changed then 1 - (if suspended then 0 else 1) else if suspended then 0 else 1)) = 0 := by
    cases changed <;> cases suspended <;> rfl
  rw [hzero] at hback
  exact hback.tallied

theorem evictAt (hit : Edge → Bool) (k : Key) : Tallied (w.evictAt hit k) := by
  unfold Wiring.evictAt
  dsimp only
  split
  · exact h
  have hre := (h.ahead k).reslot (Vertex.evictEdges_reslotted (w.vertex k) hit)
  have hhere := hre.here
  have hback := hre.noteSubscriber
    (d := -((((w.vertex k).evictEdges hit).2.1 : Int) - ((w.vertex k).evictEdges hit).2.2))
    (by omega)
  rw [show ∀ a : Int, 0 - -a + -a = 0 by omega] at hback
  exact hback.tallied

theorem evictEdges (candidates : List Key) (hit : Edge → Bool) :
    Tallied (w.evictEdges candidates hit) :=
  foldlRecOn candidates _ h fun _ hw k _ => hw.evictAt hit k

end

/-! ### Registration and retirement -/

section

variable (h : Tallied w)
include h

theorem makePlaceholder {n : Name} {p : Key} (hp : p ∈ w.known)
    (hnew : n :: p ∉ w.known) : Tallied (w.makePlaceholder n p) := by
  have hold : ∀ j ∈ w.known, (w.makePlaceholder n p).vertex j = w.vertex j := by
    intro j hj
    exact Function.update_of_ne (fun e : j = n :: p => hnew (e ▸ hj)) _ _
  have hself : (w.makePlaceholder n p).vertex (n :: p) =
      { listenersAbove := (w.vertex p).listenersAbove + (w.vertex p).ownSubs } :=
    Function.update_self ..
  refine ⟨⟨mem_insertKey.mpr (Or.inr h.root), fun m q hq => ?_, ?_, fun m q hq => ?_⟩, fun j => ?_⟩
  · rcases mem_insertKey.mp hq with e | hq
    · cases e
      exact mem_insertKey.mpr (Or.inr hp)
    · exact mem_insertKey.mpr (Or.inr (h.closed m q hq))
  · rw [hold [] h.root]
    exact h.top
  · rcases mem_insertKey.mp hq with e | hq
    · cases e
      rw [hold p hp, hself]
    · rw [hold _ hq, hold _ (h.closed m q hq)]
      exact h.above m q hq
  · by_cases hj : j = n :: p
    · rw [hj, hself]
      rfl
    have hsame : (w.makePlaceholder n p).vertex j = w.vertex j := Function.update_of_ne hj _ _
    rw [hsame]
    exact h.own j

theorem ensure (k : Key) : Tallied (w.ensure k) ∧ k ∈ (w.ensure k).known := by
  induction k with
  | nil => exact ⟨h, h.root⟩
  | cons n p ih =>
    obtain ⟨ih, hp⟩ := ih
    rw [Wiring.ensure]
    split
    next hk =>
      exact ⟨ih, hk⟩
    next hk =>
      exact ⟨ih.makePlaceholder hp hk, mem_insertKey.mpr (Or.inl rfl)⟩

/-- A retired vertex takes its count off those below. -/
theorem retireOne (k : Key) : Tallied (w.retireOne k) := by
  have hnote := h.toLinked.noteSubscriber k (d := -(w.vertex k).ownSubs) (by omega)
  have hk : (w.retireOne k).vertex k =
      { listenersAbove := (w.vertex k).listenersAbove
        retireGen := saturatingNextGeneration (w.vertex k).retireGen } := by
    simp [Wiring.retireOne, bumpSubtreeListeners, not_under_self]
  have helse : ∀ j, j ≠ k →
      (w.retireOne k).vertex j = (w.noteSubscriber k (-(w.vertex k).ownSubs)).vertex j := by
    intro j hj
    simp [Wiring.retireOne, Wiring.noteSubscriber, bumpSubtreeListeners, hj]
  refine ⟨hnote.congr rfl (fun j => ?_) (fun j => ?_), fun j => ?_⟩
  · by_cases hj : j = k
    · subst hj
      rw [hk, noteSubscriber_ownSubs, if_pos rfl]
      simp [bump]
    · rw [helse j hj]
  · by_cases hj : j = k
    · subst hj
      rw [hk, noteSubscriber_listenersAbove, if_neg fun hu => not_under_self j hu.1]
    · rw [helse j hj]
  · by_cases hj : j = k
    · subst hj
      rw [hk]
      rfl
    · rw [helse j hj, noteSubscriber_ownSubs, if_neg hj, h.own j, Vertex.liveCount,
        Vertex.liveCount, noteSubscriber_slots]

theorem retireSubtree (k : Key) : Tallied (w.retireSubtree k) := by
  have hacl : Tallied { w with acl := (w.acl.step (.retire k)).1 } :=
    h.congr rfl (fun _ => rfl) (fun _ => rfl) fun _ => rfl
  have hfold := foldlRecOn (w.known.filter (k <:+ ·)) Wiring.retireOne hacl
    fun w hw j _ => hw.retireOne j
  exact hfold.congr rfl (fun _ => rfl) (fun _ => rfl) fun _ => rfl

theorem applyDeliveryMode (k : Key) (mode : DeliveryMode) : Tallied (w.applyDeliveryMode k mode) :=
  (h.modify (k := k) (f := fun v => { v with deliveryMode := mode }) rfl rfl rfl).congr rfl
    (fun _ => rfl) (fun _ => rfl) fun _ => rfl

theorem applyPolicy (k : Key) (role : Role) (p : Policy) (r : Retention) :
    Tallied (w.applyPolicy k role p r) := by
  unfold Wiring.applyPolicy
  have hret := h.modify (k := k) (f := fun v =>
    v.setRetention role (p.retention.getD r) (p.depth.getD v.retentionDepth))
    (by unfold Vertex.setRetention; split <;> rfl) (by unfold Vertex.setRetention; split <;> rfl)
    (by unfold Vertex.setRetention; split <;> rfl)
  dsimp only
  split
  · exact hret
  · exact hret.applyDeliveryMode k _

theorem register {role : Role} {deliverWritten : Bool} {p : Policy}
    (hw : w.register k role deliverWritten p = .ok w') : Tallied w' := by
  unfold Wiring.register at hw
  split at hw
  · cases hw
  split at hw
  · cases hw
  cases hw
  have hpol := (h.ensure k).1.applyPolicy k role p (defaultRetention role)
  exact (hpol.modify (k := k) (f := fun v => { v with role, deliverWritten }) rfl rfl rfl).congr
    rfl (fun _ => rfl) (fun _ => rfl) fun _ => rfl

end

end Tallied

theorem tallied_start : Tallied Wiring.start where
  root := mem_singleton.mpr rfl
  closed n p h := absurd (mem_singleton.mp h) (cons_ne_nil n p)
  top := rfl
  above n p h := absurd (mem_singleton.mp h) (cons_ne_nil n p)
  own _ := rfl

/-! ## What the counters tell -/

namespace Tallied

variable {w : Wiring}

/-- The delivery gate: a positive count means a live edge. -/
theorem ownSubs_pos_iff (h : Tallied w) (k : Key) :
    0 < (w.vertex k).ownSubs ↔ ∃ e, e ∈ (w.vertex k).snapshotEdges := by
  rw [h.own k, Vertex.liveCount, List.countP_pos_iff]
  simp only [Vertex.snapshotEdges, List.mem_filterMap]
  constructor
  · rintro ⟨_ | s, hs, hlive⟩
    · cases hlive
    · exact ⟨s.edge, some s, hs, if_pos hlive⟩
  · rintro ⟨e, _ | s, hs, hlive⟩
    · cases hlive
    · refine ⟨some s, hs, ?_⟩
      by_contra hl
      simp [Vertex.liveEdge, show s.live = false by simpa [Vertex.delivers] using hl] at hlive

/-- **Nobody is missed and nobody is invented**: delivery climbs from an allocated vertex exactly if
a strict ancestor has an edge to dispatch. -/
theorem bubbles_iff (h : Tallied w) (hu : u ∈ w.known) :
    w.bubbles u = true ↔ ∃ v e, Under v u ∧ e ∈ (w.vertex v).snapshotEdges := by
  rw [Wiring.bubbles, decide_eq_true_iff, h.listenersAbove_eq_sum hu, List.sum_pos_iff_exists_pos_nat]
  constructor
  · rintro ⟨n, hn, hpos⟩
    obtain ⟨v, hv, rfl⟩ := mem_map.mp hn
    obtain ⟨e, he⟩ := (h.ownSubs_pos_iff v).mp hpos
    exact ⟨v, e, mem_ancestors.mp hv, he⟩
  · rintro ⟨v, e, hv, he⟩
    exact ⟨_, mem_map_of_mem (mem_ancestors.mpr hv), (h.ownSubs_pos_iff v).mpr ⟨e, he⟩⟩

end Tallied

end LibTracer.Graph
