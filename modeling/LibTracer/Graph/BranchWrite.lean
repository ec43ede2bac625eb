import LibTracer.Graph.Dispatch

/-!
# Branch writes

A branch write is parsed into a plan, every landing site of the plan is admitted, and only then the
values land, one site after the other.

* **`Plane.branch_write_atomic`** — a refused branch write does nothing; any other leaves at every
  vertex the values the frame has for it.
-/

namespace LibTracer.Graph

open Wire List

/-! ## The plan and the frame -/

def storesAt (j : Key) (ns : List BranchNode) : List Tlv :=
  ns.filterMap fun n => if n.key = j then n.store else none

def valuesAt (j : Key) (vs : List (Key × Tlv)) : List Tlv :=
  vs.filterMap fun v => if v.1 = j then some v.2 else none

@[simp] theorem storesAt_append (j : Key) (as bs : List BranchNode) :
    storesAt j (as ++ bs) = storesAt j as ++ storesAt j bs := filterMap_append

@[simp] theorem valuesAt_append (j : Key) (as bs : List (Key × Tlv)) :
    valuesAt j (as ++ bs) = valuesAt j as ++ valuesAt j bs := filterMap_append

theorem storesAt_singleton (j : Key) (n : BranchNode) :
    storesAt j [n] = if n.key = j then n.store.toList else [] := by
  unfold storesAt
  rw [filterMap_cons, filterMap_nil]
  by_cases hj : n.key = j
  · rw [if_pos hj, if_pos hj]
    cases n.store <;> rfl
  · rw [if_neg hj, if_neg hj]

variable {j : Key}

theorem storesAt_eq_nil {ns : List BranchNode} (h : ∀ n ∈ ns, n.key ≠ j) : storesAt j ns = [] := by
  refine filterMap_eq_nil_iff.mpr fun n hn => ?_
  rw [if_neg (h n hn)]

theorem valuesAt_eq_nil {vs : List (Key × Tlv)} (h : ∀ v ∈ vs, v.1 ≠ j) : valuesAt j vs = [] := by
  refine filterMap_eq_nil_iff.mpr fun v hv => ?_
  rw [if_neg (h v hv)]

mutual

theorem suffix_of_landings (k : Key) : ∀ (t : Tlv), ∀ v ∈ landings k t, k <:+ v.1
  | .mk _ _ _ cs _, v, hv => by
    rw [landings] at hv
    exact suffix_of_landingsOf k cs v hv

theorem suffix_of_landingsOf (k : Key) : ∀ (cs : List Tlv), ∀ v ∈ landingsOf k cs, k <:+ v.1
  | [], v, hv => nomatch hv
  | c :: cs, v, hv => by
    rw [landingsOf] at hv
    rcases mem_append.mp hv with hv | hv
    · split at hv
      · rw [mem_singleton.mp hv]
      split at hv
      · exact (suffix_cons _ k).trans (suffix_of_landings _ c v hv)
      · exact nomatch hv
    · exact suffix_of_landingsOf k cs v hv

end

/-- An open node has taken in these values: its own, and in order those for the vertices below. -/
structure OpenNode.Ordered (o : OpenNode) (k : Key) (vs : List (Key × Tlv)) : Prop where
  below : ∀ n ∈ o.closed, Under k n.key
  own : o.store.toList = valuesAt k vs
  closed : ∀ j, j ≠ k → storesAt j o.closed = valuesAt j vs
  value : o.subtreeValue = !vs.isEmpty

structure BranchPlan.Ordered (plan : BranchPlan) (k : Key) (vs : List (Key × Tlv)) : Prop where
  below : ∀ n ∈ plan.nodes, k <:+ n.key
  stores : ∀ j, storesAt j plan.nodes = valuesAt j vs
  value : plan.value = !vs.isEmpty

theorem OpenNode.Ordered.close {o : OpenNode} {k : Key} {vs : List (Key × Tlv)}
    (h : o.Ordered k vs) (t : Tlv) : (o.close k t).Ordered k vs := by
  refine ⟨?_, ?_, h.value⟩
  · intro n hn
    rcases mem_append.mp hn with hn | hn
    · exact (h.below n hn).1
    · rw [mem_singleton.mp hn]
      exact suffix_refl k
  · intro j
    have hroot : storesAt j [(o.close k t).root] = if k = j then o.store.toList else [] :=
      storesAt_singleton j _
    rw [BranchPlan.nodes, storesAt_append, hroot]
    show storesAt j o.closed ++ _ = _
    by_cases hj : k = j
    · subst hj
      rw [if_pos rfl, h.own, storesAt_eq_nil fun n hn heq => (h.below n hn).2 heq.symm]
      rfl
    · rw [if_neg hj, append_nil, h.closed j (Ne.symm hj)]

mutual

theorem parseOpened_storesAt : ∀ (t : Tlv) (k : Key) (plan : BranchPlan), opens t = true →
    parseOpened k t = .ok plan → plan.Ordered k (landings k t)
  | .mk ty o p [] tr, k, plan, hopen, h => by
    simp [opens] at hopen
  | .mk ty o p (name :: cs) tr, k, plan, hopen, h => by
    rw [parseOpened] at h
    split at h
    · cases h
    next node hnode =>
    cases h
    rw [landings_of_opens hopen]
    have hstart : OpenNode.Ordered {} k [] :=
      ⟨forall_mem_nil _, rfl, fun _ _ => rfl, rfl⟩
    exact (parseChildren_storesAt cs k {} node [] hstart hnode).close _

theorem parseChildren_storesAt : ∀ (cs : List Tlv) (k : Key) (o o' : OpenNode)
    (vs : List (Key × Tlv)), o.Ordered k vs → parseChildren k o cs = .ok o' →
      o'.Ordered k (vs ++ landingsOf k cs)
  | [], k, o, o', vs, ho, h => by
    rw [parseChildren] at h
    cases h
    rw [landingsOf, append_nil]
    exact ho
  | c :: cs, k, o, o', vs, ho, h => by
    rw [parseChildren] at h
    split at h
    next hv =>
      rw [landingsOf, if_pos hv, ← append_assoc]
      split at h
      · cases h
      next hfree =>
      have hnone : o.store = none := by
        simpa using fun hs : o.store.isSome = true => hfree (by rw [hs]; rfl)
      refine parseChildren_storesAt cs k { o with store := some c, subtreeValue := true } o' _
        ⟨ho.below, ?_, fun j hj => ?_, by simp⟩ h
      · rw [valuesAt_append, ← ho.own, hnone]
        simp [valuesAt]
      · rw [valuesAt_append, ← ho.closed j hj]
        simp [valuesAt, Ne.symm hj]
    next hv =>
    split at h
    next hpt =>
      rw [landingsOf, if_neg hv, if_pos hpt, ← append_assoc]
      split at h
      · cases h
      next hopen =>
      split at h
      · cases h
      split at h
      · cases h
      next sub hsub =>
      have hopen' : opens c = true := by simpa using hopen
      have hord := parseOpened_storesAt c _ sub hopen' hsub
      refine parseChildren_storesAt cs k _ o' _
        ⟨fun n hn => ?_, ?_, fun j hj => ?_, ?_⟩ h
      · rcases mem_append.mp hn with hn | hn
        · exact ho.below n hn
        refine ⟨(suffix_cons _ k).trans (hord.below n hn), fun heq => ?_⟩
        have hlen := (hord.below n hn).length_le
        rw [← heq, length_cons] at hlen
        omega
      · -- what lies below is not for `k`
        rw [valuesAt_append, ← ho.own, valuesAt_eq_nil, append_nil]
        intro v hv heq
        have hlen := (suffix_of_landings _ c v hv).length_le
        rw [heq, length_cons] at hlen
        omega
      · show storesAt j (o.closed ++ sub.nodes) = _
        rw [storesAt_append, valuesAt_append, ho.closed j hj, hord.stores]
      · show (o.subtreeValue || sub.value) = _
        rw [ho.value, hord.value]
        cases vs <;> rfl
    · cases h

end

/-- **The plan stores at every vertex the values the frame carries for it, in their order.** -/
theorem parseBranchNode_ordered {k : Key} {t : Tlv} {plan : BranchPlan}
    (h : parseBranchNode k t = .ok plan) : plan.Ordered k (landings k t) := by
  unfold parseBranchNode at h
  split at h
  next hopen => exact parseOpened_storesAt t k plan hopen h
  · cases h

/-! ## What a vertex holds -/

/-- What a vertex holds: its value, and its queue if it is a stream. -/
structure Held where
  value : Option Tlv
  queue : List Tlv

def Store.held (s : Store) (j : Key) : Held where
  value := (s.lkv j).map Ref.value
  queue := (s.ring j).entries.map Ref.value

theorem Store.Quiet.held {s s' : Store} (h : s.Quiet s') (j : Key) : s'.held j = s.held j := by
  unfold Store.held
  rw [h.1, h.2]

/-- One more value at a vertex: it takes the place of the last, and joins the queue of a stream. -/
def Held.store (v : Vertex) (h : Held) (x : Tlv) : Held where
  value := some x
  queue :=
    if v.role = .STREAM then h.queue.drop (h.queue.length + 1 - max v.retentionDepth 1) ++ [x]
    else h.queue

namespace Plane

variable {p : Plane} {k j : Key} {x : Tlv} {caller : Name} {s s₁ : Store}

/-- What a vertex keeps of a value stored there: a handler keeps nothing and neither does a vertex
without retention; the admission filter of any other may refuse or replace it. -/
def keeps (p : Plane) (caller : Name) (j : Key) (x : Tlv) : Option Tlv :=
  if (p.vertex j).role = .HANDLER || (p.vertex j).retainsNone then none
  else (p.env.onAdmit j x caller).toOption.map (·.getD x)

/-- The values of `xs` that a vertex keeps, stored there one after the other. -/
def storeAll (p : Plane) (caller : Name) (j : Key) (xs : List Tlv) (h : Held) : Held :=
  (xs.filterMap (p.keeps caller j)).foldl (Held.store (p.vertex j)) h

theorem storeAll_append (caller : Name) (j : Key) (xs ys : List Tlv) (h : Held) :
    p.storeAll caller j (xs ++ ys) h = p.storeAll caller j ys (p.storeAll caller j xs h) := by
  unfold storeAll
  rw [filterMap_append, foldl_append]

theorem held_publish (s : Store) (v : Vertex) (k : Key) (r : Ref) (j : Key) : (s.publish v k r).held j =
      if j = k ∧ v.retainsNone = false then (s.held k).store v r.value else s.held j := by
  unfold Store.publish
  cases hnone : v.retainsNone with
  | true => simp
  | false =>
    by_cases hj : j = k
    · subst hj
      by_cases hrole : v.role = .STREAM <;>
        simp [Store.held, Held.store, hrole, Store.setRing, Ring.admitLocked]
    · by_cases hrole : v.role = .STREAM <;> simp [Store.held, hj, hrole, Store.setRing]

variable {block : Option Nat}

/-- **A store at a vertex changes what this vertex holds, and nothing else.** -/
theorem held_storeValue {r : Option Ref} (h : p.storeValue k x block caller s = .ok (s₁, r)) (j : Key) :
    s₁.held j = if j = k then p.storeAll caller k [x] (s.held k) else s.held j := by
  obtain ⟨hrole, rfl, -⟩ | ⟨hrole, changed, r, n, hadm, -, hr, rfl⟩ := storeValue_cases h
  · by_cases hj : j = k
    · simp [hj, storeAll, keeps, hrole]
    · rw [if_neg hj]
  rw [held_publish]
  have hkeeps : p.keeps caller k x =
      if (p.vertex k).retainsNone then none else some (changed.getD x) := by
    simp [keeps, hrole, hadm, Except.toOption]
  cases hnone : (p.vertex k).retainsNone with
  | true => by_cases hj : j = k <;> simp [hj, storeAll, hkeeps, hnone, Store.held]
  | false => by_cases hj : j = k <;> simp [hj, storeAll, hkeeps, hnone, hr, Store.held]

theorem keeps_of_refused {e : Status}
    (h : p.storeValue k x block caller s = .error e) : p.keeps caller k x = none := by
  unfold storeValue at h
  unfold keeps
  by_cases hrole : (p.vertex k).role = .HANDLER
  · simp [hrole]
  rw [if_neg hrole] at h
  cases hadm : p.env.onAdmit k x caller with
  | error e' => simp [Except.toOption]
  | ok changed =>
    rw [hadm] at h
    cases h

theorem held_land (caller : Name) (n : BranchNode) (s : Store) (j : Key) :
    (p.land caller n s).2.held j = p.storeAll caller j (storesAt j [n]) (s.held j) := by
  rw [storesAt_singleton]
  unfold land
  cases hx : n.store with
  | none => simp [storeAll]
  | some x =>
    dsimp only
    rcases hstore : p.storeValue n.key x none caller s with e | ⟨s₁, r⟩
    · by_cases hj : n.key = j
      · subst hj
        simp [storeAll, keeps_of_refused hstore]
      · simp [hj, storeAll]
    dsimp only
    rw [held_storeValue hstore]
    by_cases hj : n.key = j
    · subst hj
      simp
    · simp [hj, Ne.symm hj, storeAll]

/-- **The apply pass** leaves at a vertex the values the plan has for it. -/
theorem held_landAll (caller : Name) (ns : List BranchNode) (s : Store) (j : Key) :
    (p.landAll caller ns s).2.held j = p.storeAll caller j (storesAt j ns) (s.held j) := by
  induction ns generalizing s with
  | nil => rfl
  | cons n ns ih =>
    have hcons : storesAt j (n :: ns) = storesAt j [n] ++ storesAt j ns := storesAt_append j [n] ns
    rw [hcons, storeAll_append, ← held_land]
    exact ih _

/-! ## One branch write -/

theorem Replays.held {s s' : Store} {ds : List Delivery} (h : p.Replays s ds s')
    (hj : j ∉ ds.filterMap Delivery.storesAt) : s'.held j = s.held j := by
  induction h with
  | nil s => rfl
  | told hleg _ ih =>
    rw [filterMap_cons_none hleg] at hj
    exact ih hj
  | stored hleg hstore _ ih =>
    rw [filterMap_cons_some hleg, mem_cons, not_or] at hj
    rw [ih hj.2, held_storeValue hstore, if_neg hj.1]

theorem announce_replays (k : Key) (t : Tlv) (caller : Name) (nodes : List LandedNode) (s : Store) :
    ∃ s₁, p.Replays s (p.announce k t caller nodes s).2 s₁ ∧
      s₁.Quiet (p.announce k t caller nodes s).1 := by
  obtain ⟨os, -, hnotify⟩ := notifyAll_eq (p := p) caller nodes
  have hsends : (Emitter.all (p.notifyNode caller) nodes).andThen
      (p.bubbleIfHeard k ⟨.branch k t, none⟩) = Emitter.all p.dispatch
        (os ++ (p.heardAbove k).flatMap (p.offersAt · ⟨.branch k t, none⟩)) := by
    rw [hnotify, bubbleIfHeard_eq, Emitter.all_append]
  unfold announce
  rw [hsends]
  simp only [Emitter.andThen, Emitter.silent, append_nil]
  exact ⟨_, all_dispatch_replays _ s, quiet_settle nodes _⟩

theorem held_markLanded (nodes : List LandedNode) (s : Store) (j : Key) :
    (p.markLanded nodes s).held j = s.held j := by
  have hmark : ∀ (ns : List LandedNode) (s : Store),
      (ns.foldl (fun s n => p.markPending n.key s) s).held j = s.held j := by
    intro ns
    induction ns with
    | nil => exact fun _ => rfl
    | cons n ns ih =>
      intro s
      rw [foldl_cons, ih]
      unfold markPending
      split <;> rfl
  exact hmark _ s

/-- **A branch write is admitted as a whole.**  If it is refused, nothing has changed and nothing was
sent.  Otherwise every value of the frame is for a vertex that is there and that the caller may
write, and every vertex holds what storing the values the frame has for it leaves there, unless a
delivery of the write was stored at it. -/
theorem branch_write_atomic (p : Plane) (k : Key) (t : Tlv) (caller : Name) (notify : Bool) (s : Store) :
    let o := p.writeBranch k t caller notify s
    (∀ e, o.status = some e → o.store = s ∧ o.sent = []) ∧
      (o.status = none →
        (∀ v ∈ landings k t, v.1 ≠ k →
          p.found v.1 = true ∧ p.allows v.1 caller .WRITE = true) ∧
        ∀ j, j ∉ o.sent.filterMap Delivery.storesAt →
          o.store.held j = p.storeAll caller j (valuesAt j (landings k t)) (s.held j)) := by
  dsimp only
  rcases writeBranch_cases p k t caller notify s with
    ⟨e, heq⟩ | ⟨plan, hparse, hvalue, heq⟩ | ⟨plan, nodes, s₁, happ, heq⟩ <;> rw [heq]
  · exact ⟨fun _ _ => ⟨rfl, rfl⟩, fun h => by cases h⟩
  · refine ⟨fun _ h => (by cases h), fun _ => ?_⟩
    have hnone : landings k t = [] := by
      have hord := (parseBranchNode_ordered hparse).value
      rw [hvalue] at hord
      simpa using hord.symm
    rw [hnone]
    exact ⟨forall_mem_nil _, fun j _ => rfl⟩
  · refine ⟨fun _ h => (by cases h), fun _ => ⟨fun v hv hne => ?_, fun j hj => ?_⟩⟩
    · obtain ⟨n, hn, hkey, hstore⟩ := (parseBranchNode_covers happ.parsed).2 v hv
      rcases mem_append.mp hn with hn | hn
      · have hadm := List.findSome?_eq_none_iff.mp happ.admitted n hn
        rw [← hkey]
        cases hfound : p.found n.key <;> cases hallows : p.allows n.key caller .WRITE <;>
          simp [siteRefusal, hstore, hfound, hallows] at hadm ⊢
      · rw [mem_singleton.mp hn, parseBranchNode_root happ.parsed] at hkey
        exact absurd hkey.symm hne
    · have hlanded : s₁.held j = p.storeAll caller j (valuesAt j (landings k t)) (s.held j) := by
        have hall := held_landAll (p := p) caller (plan.announced (.branch k t)) s j
        rw [happ.landed] at hall
        rw [hall, ← (parseBranchNode_ordered happ.parsed).stores j]
        congr 1
        rw [BranchPlan.announced, BranchPlan.nodes, storesAt_append, storesAt_append,
          storesAt_singleton, storesAt_singleton]
      cases notify with
      | false => exact (held_markLanded nodes s₁ j).trans hlanded
      | true =>
        obtain ⟨s₂, hreplays, hquiet⟩ := announce_replays (p := p) k t caller nodes s₁
        exact (hquiet.held j).trans ((hreplays.held hj).trans hlanded)

end Plane

/-! ### One path twice -/

/-- The vertex `/t/s`. -/
def leafKey : Key := "s".toList :: sinkKey

/-- The node of `/t/s`, with one octet of value. -/
def leafNode (b : UInt8) : Tlv :=
  .mk POINT { pl := true } []
    [.mk NAME {} (octets "s".toList) [] none, .mk VALUE {} [b] [] none] none

/-- A branch for `/t` that has two values for `/t/s`. -/
def doubled : Tlv :=
  .mk POINT { pl := true } [] [.mk NAME {} (octets "t".toList) [] none, leafNode 1, leafNode 2] none

/-- The vertices `/t`, `/t/s` and `/s`, and a subscription at `/t/s` that stores at `/s`. -/
def mirrored : List Event :=
  [.register sinkKey .STORED_VALUE true {}, .register leafKey .STORED_VALUE true {},
    .register streamKey .STORED_VALUE true {},
    .subscribeField leafKey { targetKey := some streamKey } {}].map (Event.mk plainEnv)

/-- **The branch write succeeds, and the first of the two values is nowhere**, while `/s`, for which
the frame has no value, has changed. -/
theorem doubled_keeps_one :
    let g := (State.machine .allowOnly).run mirrored
    let p := g.plane .allowOnly plainEnv
    let o := p.writeBranch sinkKey doubled [] true g.store
    let seen := fun j => (o.store.held j).value.map TlvOf.payload
    o.status = none ∧
      (landings sinkKey doubled).map (fun v => (v.1, v.2.payload)) = [(leafKey, [1]), (leafKey, [2])] ∧
      seen leafKey = some [2] ∧ seen sinkKey = none ∧
      (g.store.held streamKey).value.isNone = true ∧ seen streamKey = some [2] := by
  decide +kernel

end LibTracer.Graph
