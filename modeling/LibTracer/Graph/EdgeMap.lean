import LibTracer.Graph.EdgeTable

/-!
# The edges of a vertex as a map

Slot table, published array and refused allocations are one way to keep a partial map from slot
indices to edges.

* **`EdgeTable.edge_table_refines`** — over any run the vertex is the map, whatever is refused.
-/

namespace LibTracer.Graph

open List
open Function (update update_self update_of_ne)

/-! ## The verbs on the map -/

inductive EdgeOp (ε ρ ι : Type) where
  | add (s : Subscriber ε ρ)
  | clear (idx : Nat) (expect : Option ι)
  | replace (idx : Nat) (s : Subscriber ε ρ) (expect : Option ι)
  | suspend (idx : Nat) (suspended : Bool)
  | evictLink (link : Name) (pair : Option LinkPair)
  | evictRoute (link : Option LinkPair) (route : List UInt8) (boundEcho : Bool)

inductive EdgeReply where
  | added (idx : Option Nat)
  | cleared (done : Bool)
  | replaced (how : EdgeReplace)
  | suspended (how : EdgeSuspend)
  | evicted (count : Nat)

def EdgeReply.refuses : EdgeReply → Bool
  | .added idx => idx.isNone
  | .cleared done => !done
  | .replaced how => how = .OUT_OF_RANGE || how = .REFUSED || how = .EDGE_CHANGED
  | .suspended how => how = .NOT_FOUND || how = .UNCHANGED
  | .evicted count => count = 0

section Table

variable {ε ρ ι : Type}

-- what the verbs read of the dispatch fields: the address of the cold half, and the edge
variable (cold : ε → Option ι) (view : ε → Edge)

def EdgeOp.evicts : EdgeOp ε ρ ι → Bool
  | .evictLink _ _ => true
  | .evictRoute _ _ _ => true
  | _ => false

/-- The edges an eviction reclaims: an empty link name, an invalid link and an empty route match
nothing. -/
def EdgeOp.hit : EdgeOp ε ρ ι → ε → Bool
  | .evictLink link pair, f => !link.isEmpty && (view f).admittedOver link pair
  | .evictRoute link route boundEcho, f =>
    link.isSome && !route.isEmpty && (view f).refusedRoute link route boundEcho
  | _, _ => false

def EdgeTable.step [DecidableEq ι] (g : Grants) (edges : Option (EdgeBlock ε ρ)) :
    EdgeOp ε ρ ι → Option (EdgeBlock ε ρ) × EdgeReply
  | .add s => (EdgeBlock.addEdge g edges s).map id .added
  | .clear idx expect =>
    match edges with
    | none => (none, .cleared false)
    | some b => (b.clearEdge cold g idx expect).map some .cleared
  | .replace idx s expect =>
    match edges with
    | none => (none, .replaced .OUT_OF_RANGE)
    | some b => (b.replaceEdge cold g idx s expect).map some .replaced
  | .suspend idx suspended =>
    match edges with
    | none => (none, .suspended .NOT_FOUND)
    | some b => (b.setEdgeSuspended idx suspended).map some .suspended
  | .evictLink link pair =>
    match edges with
    | none => (none, .evicted 0)
    | some b => (b.evictLinkEdges view g link pair).map some .evicted
  | .evictRoute link route boundEcho =>
    match edges with
    | none => (none, .evicted 0)
    | some b => (b.evictRouteEdges view g link route boundEcho).map some .evicted

def EdgeTable.machine [DecidableEq ι] :
    Machine (Option (EdgeBlock ε ρ)) (Grants × EdgeOp ε ρ ι) EdgeReply where
  start := none
  step edges call := EdgeTable.step cold view call.1 edges call.2

/-- `snapshot_edges`: the edges copied, and how many were left behind. -/
def EdgeTable.snapshotEdges (reserved : Bool) (edges : Option (EdgeBlock ε ρ)) : List ε × Nat :=
  match edges with
  | none => ([], 0)
  | some b => EdgeBlock.copyPublished reserved b.pub

def EdgeTable.published (edges : Option (EdgeBlock ε ρ)) : List (PubEdge ε) :=
  match edges with
  | none => []
  | some b => b.pub

def EdgeTable.slotMap (edges : Option (EdgeBlock ε ρ)) : SlotMap ε :=
  match edges with
  | none => fun _ => none
  | some b => b.slotMap

def EdgeReplace.of : Option (Occupant ε) → EdgeReplace
  | none => .FILLED_EMPTY
  | some o => if o.live then .REPLACED_ACTIVE else .REPLACED_SUSPENDED

/-- **The verbs on the map.**  Each answer goes with the change it reports; a verb that refuses
changes nothing. -/
inductive Moves (m : SlotMap ε) : EdgeOp ε ρ ι → EdgeReply → SlotMap ε → Prop
  | added {s idx} (free : m idx = none) (lowest : ∀ i < idx, m i ≠ none) :
      Moves m (.add s) (.added (some idx)) (update m idx (some ⟨s.fields, true⟩))
  | notAdded {s} : Moves m (.add s) (.added none) m
  | cleared {idx expect o} (held : m idx = some o)
      (expected : expect.isSome → cold o.edge = expect) :
      Moves m (.clear idx expect) (.cleared true) (update m idx none)
  | notCleared {idx expect}
      (other : ∀ o, m idx = some o → expect.isSome ∧ cold o.edge ≠ expect) :
      Moves m (.clear idx expect) (.cleared false) m
  | replaced {idx s expect} (expected : (m idx).bind (cold ·.edge) = expect) :
      Moves m (.replace idx s expect) (.replaced (EdgeReplace.of (m idx)))
        (update m idx (some ⟨s.fields, true⟩))
  | outOfRange {idx s expect} (free : m idx = none) :
      Moves m (.replace idx s expect) (.replaced .OUT_OF_RANGE) m
  | changed {idx s expect} (other : (m idx).bind (cold ·.edge) ≠ expect) :
      Moves m (.replace idx s expect) (.replaced .EDGE_CHANGED) m
  | notReplaced {idx s expect} : Moves m (.replace idx s expect) (.replaced .REFUSED) m
  | suspended {idx suspended o} (held : m idx = some o) (moved : o.live = suspended) :
      Moves m (.suspend idx suspended) (.suspended .CHANGED)
        (update m idx (some ⟨o.edge, !suspended⟩))
  | notMoved {idx suspended o} (held : m idx = some o) (same : o.live = !suspended) :
      Moves m (.suspend idx suspended) (.suspended .UNCHANGED) m
  | notFound {idx suspended} (free : m idx = none) :
      Moves m (.suspend idx suspended) (.suspended .NOT_FOUND) m
  | evicted {op} {gone : List Nat} (evicts : op.evicts = true) (ascending : gone.Pairwise (· < ·))
      (hit : ∀ i, i ∈ gone ↔ ∃ o, m i = some o ∧ op.hit view o.edge = true) :
      Moves m op (.evicted gone.length) (SlotMap.without (op.hit view) m)

/-- The call took the edge out of the slot: it cleared or replaced the slot's edge, or evicted
it. -/
def EdgeOp.Ends (i : Nat) (f : ε) : EdgeOp ε ρ ι → EdgeReply → Prop
  | .clear idx _, .cleared done => idx = i ∧ done = true
  | .replace idx _ _, .replaced how =>
    idx = i ∧ (how = .REPLACED_ACTIVE ∨ how = .REPLACED_SUSPENDED)
  | op, .evicted _ => op.hit view f = true
  | _, _ => False

def EdgeOp.brings : EdgeOp ε ρ ι → Option ε
  | .add s => some s.fields
  | .replace _ s _ => some s.fields
  | _ => none

def EdgeOp.aims : EdgeOp ε ρ ι → Option (Nat × Option ι)
  | .clear idx expect => some (idx, expect)
  | .replace idx _ expect => some (idx, expect)
  | _ => none

variable {cold : ε → Option ι} {view : ε → Edge} {b : EdgeBlock ε ρ} {g : Grants}

variable {i : Nat} {o : Occupant ε}

namespace Moves

variable {m m' : SlotMap ε} {op : EdgeOp ε ρ ι} {r : EdgeReply}

section

variable (h : Moves cold view m op r m')
include h

theorem of_refuses (hr : r.refuses = true) : m' = m := by
  cases h with
  | notAdded => rfl
  | notCleared => rfl
  | outOfRange => rfl
  | changed => rfl
  | notReplaced => rfl
  | notMoved => rfl
  | notFound => rfl
  | added | cleared | suspended => cases hr
  | replaced =>
    rename_i idx s expect hexpected
    cases hold : m idx with
    | none => rw [hold] at hr; cases hr
    | some o =>
      obtain ⟨edge, live⟩ := o
      rw [hold] at hr
      cases live <;> cases hr
  | evicted hop hsort hit =>
    rename_i gone
    obtain rfl : gone = [] := by simpa [EdgeReply.refuses] using hr
    funext i
    cases hi : m i with
    | none => simp [SlotMap.without, hi]
    | some o =>
      have hmiss : op.hit view o.edge = false := by
        by_contra hhit
        exact absurd ((hit i).mpr ⟨o, hi, Bool.eq_true_of_not_eq_false hhit⟩) not_mem_nil
      simp [SlotMap.without, hi, hmiss]

theorem keeps (hi : m i = some o) : (∃ live, m' i = some ⟨o.edge, live⟩) ∨ op.Ends view i o.edge r := by
  have hstays : ∃ live, m i = some ⟨o.edge, live⟩ := ⟨o.live, hi⟩
  -- another slot is written, or this one
  have hupdate : ∀ {idx : Nat} {x : Option (Occupant ε)},
      (∃ live, update m idx x i = some ⟨o.edge, live⟩) ∨ idx = i := by
    intro idx x
    by_cases hidx : idx = i
    · exact .inr hidx
    · exact .inl (by rwa [update_of_ne (Ne.symm hidx)])
  cases h with
  | notAdded | notCleared | outOfRange | changed | notReplaced | notMoved | notFound => exact .inl hstays
  | added hfree =>
    refine hupdate.elim .inl fun hidx => ?_
    rw [← hidx, hfree] at hi
    cases hi
  | cleared => exact hupdate.imp_right fun hidx => ⟨hidx, rfl⟩
  | replaced =>
    refine hupdate.imp_right fun hidx => ⟨hidx, ?_⟩
    subst hidx
    rw [hi, EdgeReplace.of]
    cases o.live
    · exact .inr rfl
    · exact .inl rfl
  | suspended hheld =>
    refine hupdate.elim .inl fun hidx => ?_
    subst hidx
    rw [hi] at hheld
    cases hheld
    exact .inl ⟨_, update_self ..⟩
  | evicted =>
    cases hhit : op.hit view o.edge with
    | false => exact .inl ⟨o.live, by simp [SlotMap.without, hi, hhit]⟩
    | true =>
      cases op with
      | evictLink link pair | evictRoute link route boundEcho => exact .inr hhit
      | _ => cases hhit

theorem origin (hi : m' i = some o) : (∃ live, m i = some ⟨o.edge, live⟩) ∨ op.brings = some o.edge := by
  have hstays : m i = some o → ∃ live, m i = some ⟨o.edge, live⟩ := fun hi => ⟨o.live, hi⟩
  -- the slot that is written, or another
  have hupdate : ∀ {idx : Nat} {x : Option (Occupant ε)}, update m idx x i = some o →
        (i = idx ∧ x = some o) ∨ ∃ live, m i = some ⟨o.edge, live⟩ := by
    intro idx x hi
    by_cases hidx : i = idx
    · subst hidx
      exact .inl ⟨rfl, by rwa [update_self] at hi⟩
    · rw [update_of_ne hidx] at hi
      exact .inr ⟨o.live, hi⟩
  cases h with
  | notAdded | notCleared | outOfRange | changed | notReplaced | notMoved | notFound =>
    exact .inl (hstays hi)
  | added | replaced =>
    refine (hupdate hi).elim (fun hx => .inr ?_) .inl
    cases hx.2
    rfl
  | cleared => exact (hupdate hi).elim (fun hx => by cases hx.2) .inl
  | suspended hheld =>
    refine .inl ((hupdate hi).elim (fun hx => ?_) id)
    obtain ⟨rfl, hx⟩ := hx
    cases hx
    exact ⟨_, hheld⟩
  | evicted => exact .inl (hstays (Option.filter_eq_some_iff.mp hi).1)

theorem aimed {idx : Nat} {x : ι} (hop : op.aims = some (idx, some x)) :
    (∀ i, i ≠ idx → m' i = m i) ∧ (m' idx ≠ m idx → ∃ o, m idx = some o ∧ cold o.edge = some x) := by
  cases h with
  | notAdded | added | suspended | notMoved | notFound => cases hop
  | evicted hevicts =>
    cases op with
    | evictLink link pair | evictRoute link route boundEcho => cases hop
    | _ => cases hevicts
  | notCleared | outOfRange | changed | notReplaced => exact ⟨fun _ _ => rfl, fun hne => absurd rfl hne⟩
  | cleared hheld hexpected =>
    cases hop
    exact ⟨fun i hi => update_of_ne hi .., fun _ => ⟨_, hheld, hexpected rfl⟩⟩
  | replaced hexpected =>
    cases hop
    obtain ⟨o, ho, hcold⟩ := Option.bind_eq_some_iff.mp hexpected
    exact ⟨fun i hi => update_of_ne hi .., fun _ => ⟨o, ho, hcold⟩⟩

end

end Moves

/-! ## Each verb is a move -/

namespace EdgeBlock

theorem clearEdge_moves [DecidableEq ι] (h : Published b) (idx : Nat) (expect : Option ι) :
    Published (b.clearEdge cold g idx expect).1 ∧ Moves cold view b.slotMap (.clear (ρ := ρ) idx expect)
        (.cleared (b.clearEdge cold g idx expect).2)
        (b.clearEdge cold g idx expect).1.slotMap := by
  unfold clearEdge
  cases ho : b.slotMap idx with
  | none =>
    rw [(slotMap_eq_none h).mp ho]
    exact ⟨h, .notCleared fun o hheld => by rw [ho] at hheld; cases hheld⟩
  | some o =>
    obtain ⟨hocc, e, -, -, hentry, rfl⟩ := of_slotMap h ho
    rw [hocc, hentry]
    by_cases hother : (expect.isSome && cold e.fields ≠ expect) = true
    · simp only [Bool.not_true, Bool.false_eq_true, if_false, if_pos hother]
      refine ⟨h, .notCleared fun o hheld => ?_⟩
      rw [ho] at hheld
      cases hheld
      simpa using hother
    simp only [Bool.not_true, Bool.false_eq_true, if_false, if_neg hother]
    obtain ⟨hclear, hmap⟩ := clear_published h ho
    obtain ⟨hcompact, hsame⟩ := compact_published hclear g.array
    refine ⟨hcompact, ?_⟩
    rw [hsame, hmap]
    exact .cleared ho (by simpa using hother)

theorem replaceEdge_moves [DecidableEq ι] (h : Published b) (idx : Nat) (s : Subscriber ε ρ)
    (expect : Option ι) : Published (b.replaceEdge cold g idx s expect).1 ∧
      Moves cold view b.slotMap (.replace idx s expect) (.replaced (b.replaceEdge cold g idx s expect).2)
        (b.replaceEdge cold g idx s expect).1.slotMap := by
  have hold : (if occupied b.slots idx then entryOf b.pub idx else none).map
      (fun e => (⟨e.fields, e.active⟩ : Occupant ε)) = b.slotMap idx := by
    unfold slotMap
    split <;> rfl
  unfold replaceEdge
  generalize (if occupied b.slots idx then entryOf b.pub idx else none) = old at hold
  have hcold : (b.slotMap idx).bind (cold ·.edge) = old.bind (cold ·.fields) := by
    rw [← hold]
    cases old <;> rfl
  split
  next hrange =>
    refine ⟨h, .outOfRange ((slotMap_eq_none h).mpr ?_)⟩
    rw [occupied, List.getElem?_eq_none hrange]
    rfl
  next hrange =>
  by_cases hother : old.bind (cold ·.fields) ≠ expect
  · simp only [if_pos hother]
    exact ⟨h, .changed (by rwa [hcold])⟩
  simp only [if_neg hother]
  rcases tryPublishEdges_cases g.array b (some (s.fields, idx)) with hb | hb
  · rw [hb]
    exact ⟨h, .notReplaced⟩
  obtain ⟨hpub, hmap⟩ := fill_published h (Nat.not_le.mp hrange) s.fields s.kept
  have hmove : Moves cold view b.slotMap (.replace idx s expect)
      (.replaced (EdgeReplace.of (b.slotMap idx)))
      (update b.slotMap idx (some ⟨s.fields, true⟩)) :=
    .replaced (hcold.trans (not_not.mp hother))
  rw [← hmap, ← hold] at hmove
  rw [hb]
  refine ⟨hpub, ?_⟩
  cases old <;> exact hmove

theorem setEdgeSuspended_moves (h : Published b) (idx : Nat) (suspended : Bool) :
    Published (b.setEdgeSuspended idx suspended).1 ∧
      Moves cold view b.slotMap (.suspend (ρ := ρ) idx suspended)
        (.suspended (b.setEdgeSuspended idx suspended).2)
        (b.setEdgeSuspended idx suspended).1.slotMap := by
  unfold setEdgeSuspended
  cases ho : b.slotMap idx with
  | none =>
    rw [(slotMap_eq_none h).mp ho]
    exact ⟨h, .notFound ho⟩
  | some o =>
    obtain ⟨hocc, e, -, -, hentry, rfl⟩ := of_slotMap h ho
    rw [hocc, hentry]
    by_cases hsame : e.active ≠ suspended
    · simp only [Bool.not_true, Bool.false_eq_true, if_false, if_pos hsame]
      exact ⟨h, .notMoved ho (Bool.eq_not.mpr hsame)⟩
    simp only [Bool.not_true, Bool.false_eq_true, if_false, if_neg hsame]
    obtain ⟨hpub, hmap⟩ := flip_published h ho (!suspended)
    refine ⟨hpub, ?_⟩
    rw [hmap]
    exact .suspended ho (not_not.mp hsame)

variable {op : EdgeOp ε ρ ι}

theorem evictEdges_moves (h : Published b) (hop : op.evicts = true) :
    Published (b.evictEdges (op.hit view) g).1 ∧
      Moves cold view b.slotMap op (.evicted (b.evictEdges (op.hit view) g).2)
        (b.evictEdges (op.hit view) g).1.slotMap := by
  obtain ⟨hpub, hmap⟩ := evictEdges_published h (op.hit view) g
  obtain ⟨gone, hsort, hgone, hcount⟩ := evictWalk_count h (op.hit view)
  refine ⟨hpub, ?_⟩
  rw [hmap, show (b.evictEdges (op.hit view) g).2 = gone.length from hcount]
  exact .evicted hop hsort hgone

theorem moves_of_no_hit {m : SlotMap ε} (hop : op.evicts = true)
    (hnone : ∀ i o, m i = some o → op.hit view o.edge = false) : Moves cold view m op (.evicted 0) m := by
  have hmove : Moves cold view m op (.evicted ([] : List Nat).length)
      (SlotMap.without (op.hit view) m) := by
    refine .evicted hop List.Pairwise.nil fun i =>
      ⟨fun hi => absurd hi not_mem_nil, fun hi => ?_⟩
    obtain ⟨o, ho, hhit⟩ := hi
    rw [hnone i o ho] at hhit
    cases hhit
  have hsame : SlotMap.without (op.hit view) m = m := by
    funext i
    cases hi : m i with
    | none => simp [SlotMap.without, hi]
    | some o => simp [SlotMap.without, hi, hnone i o hi]
  rwa [hsame] at hmove

theorem evictLinkEdges_moves (h : Published b) (link : Name) (pair : Option LinkPair) :
    Published (b.evictLinkEdges view g link pair).1 ∧
      Moves cold view b.slotMap (.evictLink (ρ := ρ) link pair)
        (.evicted (b.evictLinkEdges view g link pair).2)
        (b.evictLinkEdges view g link pair).1.slotMap := by
  unfold evictLinkEdges
  by_cases hempty : link.isEmpty = true
  · rw [if_pos hempty]
    exact ⟨h, moves_of_no_hit rfl fun i o ho => by simp [EdgeOp.hit, hempty]⟩
  have hhit : (fun f => (view f).admittedOver link pair) =
      (EdgeOp.evictLink (ρ := ρ) (ι := ι) link pair).hit view := by
    funext f
    simp [EdgeOp.hit, hempty]
  rw [if_neg hempty, hhit]
  exact evictEdges_moves h rfl

theorem evictRouteEdges_moves (h : Published b) (link : Option LinkPair) (route : List UInt8)
    (boundEcho : Bool) : Published (b.evictRouteEdges view g link route boundEcho).1 ∧
      Moves cold view b.slotMap (.evictRoute (ρ := ρ) link route boundEcho)
        (.evicted (b.evictRouteEdges view g link route boundEcho).2)
        (b.evictRouteEdges view g link route boundEcho).1.slotMap := by
  unfold evictRouteEdges
  by_cases hempty : (!link.isSome || route.isEmpty) = true
  · rw [if_pos hempty]
    refine ⟨h, moves_of_no_hit rfl fun i o ho => ?_⟩
    rcases (Bool.or_eq_true _ _).mp hempty with hlink | hroute
    · simp [EdgeOp.hit, (Bool.not_eq_true' _).mp hlink]
    · simp [EdgeOp.hit, hroute]
  obtain ⟨hlink, hroute⟩ : link.isSome = true ∧ route.isEmpty = false := by
    simpa [Option.isSome_iff_ne_none] using hempty
  have hhit : (fun f => (view f).refusedRoute link route boundEcho) =
      (EdgeOp.evictRoute (ρ := ρ) (ι := ι) link route boundEcho).hit view := by
    funext f
    simp [EdgeOp.hit, hlink, hroute]
  rw [if_neg hempty, hhit]
  exact evictEdges_moves h rfl

theorem lowest_free (h : Published b) : b.slotMap (b.slots.findIdx (!·.active)) = none ∧
      ∀ i < b.slots.findIdx (!·.active), b.slotMap i ≠ none := by
  refine ⟨(slotMap_eq_none h).mpr ?_, fun i hi hnone => ?_⟩
  · unfold occupied
    cases hs : b.slots[b.slots.findIdx (!·.active)]? with
    | none => rfl
    | some s =>
      obtain ⟨hlt, rfl⟩ := List.getElem?_eq_some_iff.mp hs
      simpa using findIdx_getElem (w := hlt)
  · rw [slotMap_eq_none h, occupied] at hnone
    have hlt : i < b.slots.length := hi.trans_le findIdx_le_length
    rw [List.getElem?_eq_getElem hlt] at hnone
    have hnot := not_of_lt_findIdx hi
    simp_all

theorem addEdge_moves (h : Published b) (s : Subscriber ε ρ) :
    ∃ b', (addEdge g (some b) s).1 = some b' ∧ Published b' ∧
      Moves cold view b.slotMap (.add s) (.added (addEdge g (some b) s).2) b'.slotMap := by
  obtain ⟨hfree, hlowest⟩ := lowest_free h
  unfold addEdge
  simp only [Option.some_or]
  generalize hidx : b.slots.findIdx (!·.active) = idx at hfree hlowest
  have hle : idx ≤ b.slots.length := hidx ▸ findIdx_le_length
  split
  · exact ⟨b, rfl, h, .notAdded⟩
  -- the table, grown or not, has the slot and stands for the same map
  obtain ⟨b', hb'⟩ : ∃ b' : EdgeBlock ε ρ, { b with slots :=
      if idx = b.slots.length then b.slots ++ [SubscriberSlot.cleared] else b.slots } = b' :=
    ⟨_, rfl⟩
  have hgrown : Published b' ∧ b'.slotMap = b.slotMap ∧ idx < b'.slots.length := by
    subst hb'
    split
    next hend => exact ⟨(grow_published h).1, (grow_published h).2, by simp [hend]⟩
    next hend => exact ⟨h, rfl, lt_of_le_of_ne hle hend⟩
  obtain ⟨hpub, hsame, hlt⟩ := hgrown
  rw [hb']
  rcases tryPublishEdges_cases g.array b' (some (s.fields, idx)) with hb | hb
  · rw [hb]
    refine ⟨b', rfl, hpub, ?_⟩
    rw [hsame]
    exact .notAdded
  obtain ⟨hfill, hmap⟩ := fill_published hpub hlt s.fields s.kept
  have hmove : Moves cold view b.slotMap (.add s) (.added (some idx))
      (update b.slotMap idx (some ⟨s.fields, true⟩)) := .added hfree hlowest
  rw [← hsame, ← hmap, hsame] at hmove
  rw [hb]
  exact ⟨_, rfl, hfill, hmove⟩

theorem addEdge_granted (h : Published b) (hi : i ≤ kMaxSlot) (hfree : b.slotMap i = none)
    (s : Subscriber ε ρ) : (addEdge {} (some b) s).2 ≠ none := by
  have hidx : b.slots.findIdx (!·.active) ≤ kMaxSlot := by
    by_contra hpast
    exact (lowest_free h).2 i (by omega) hfree
  simp [addEdge, tryPublishEdges, Nat.not_lt.mpr hidx]

theorem replaceEdge_granted [DecidableEq ι] (b : EdgeBlock ε ρ) (idx : Nat) (s : Subscriber ε ρ)
    (expect : Option ι) : (b.replaceEdge cold {} idx s expect).2 ≠ .REFUSED := by
  unfold replaceEdge
  simp only [tryPublishEdges, Bool.not_true, Bool.and_false, Bool.false_eq_true, if_false]
  split_ifs <;> try split <;> try split
  all_goals nofun

theorem empty_published :
    Published ({} : EdgeBlock ε ρ) ∧ slotMap ({} : EdgeBlock ε ρ) = fun _ => none := by
  refine ⟨⟨List.Pairwise.nil, fun i hi => ?_, fun e he => nomatch he⟩, ?_⟩
  · simp [occupied] at hi
  · funext i
    simp [slotMap, occupied]

theorem live_listed (h : Published b) : SlotMap.Lists b.slotMap (liveFields b.pub) := by
  have hlive : ∀ e ∈ b.pub, e.active = true → b.slotMap e.slot = some ⟨e.fields, true⟩ := by
    intro e he hactive
    have hocc : occupied b.slots e.slot = true := by
      by_contra hfree
      rw [h.dead e he (Bool.eq_false_of_not_eq_true hfree)] at hactive
      cases hactive
    rw [slotMap_of_entry h he hocc, hactive]
  refine ⟨(b.pub.filter (·.active)).map PubEdge.slot, ?_, ?_, fun i e hi => ?_⟩
  · rw [pairwise_map]
    exact h.ascending.filter _
  · rw [liveFields, List.forall₂_map_left_iff, List.forall₂_map_right_iff, List.forall₂_same]
    intro e he
    obtain ⟨he, hactive⟩ := mem_filter.mp he
    exact hlive e he hactive
  · obtain ⟨-, d, hd, rfl, -, ho⟩ := of_slotMap h hi
    have hactive : d.active = true := (congrArg Occupant.live ho).symm
    exact mem_map.mpr ⟨d, mem_filter.mpr ⟨hd, hactive⟩, rfl⟩

end EdgeBlock

/-! ## Runs -/

namespace EdgeTable

theorem addEdge_none (s : Subscriber ε ρ) : EdgeBlock.addEdge g none s =
    if g.block then EdgeBlock.addEdge g (some {}) s else (none, none) := by
  cases hgrant : g.block <;> simp [EdgeBlock.addEdge, hgrant]

def Sound (edges : Option (EdgeBlock ε ρ)) : Prop := ∀ b, edges = some b → b.Published

variable {edges : Option (EdgeBlock ε ρ)}

/-- **One verb** keeps table and array together and is a move of the map. -/
theorem step_moves [DecidableEq ι] (h : Sound edges) (g : Grants) (op : EdgeOp ε ρ ι) :
    Sound (step cold view g edges op).1 ∧ Moves cold view (slotMap edges) op (step cold view g edges op).2
        (slotMap (step cold view g edges op).1) := by
  have hnone : Sound (none : Option (EdgeBlock ε ρ)) := fun b hb => by cases hb
  have hblock : ∀ {b : EdgeBlock ε ρ} {op : EdgeOp ε ρ ι} {m : SlotMap ε} {r : EdgeReply},
      b.Published ∧ Moves cold view m op r b.slotMap →
      Sound (some b) ∧ Moves cold view m op r (slotMap (some b)) := by
    intro b op m r hb
    exact ⟨fun b' hb' => by cases hb'; exact hb.1, hb.2⟩
  have hadd : ∀ (b : EdgeBlock ε ρ) (s : Subscriber ε ρ), b.Published →
      Sound (EdgeBlock.addEdge g (some b) s).1 ∧
        Moves cold view b.slotMap (.add s) (.added (EdgeBlock.addEdge g (some b) s).2)
          (slotMap (EdgeBlock.addEdge g (some b) s).1) := by
    intro b s hb
    obtain ⟨b', heq, hmove⟩ := EdgeBlock.addEdge_moves hb s
    rw [heq]
    exact hblock hmove
  cases edges with
  | none =>
    cases op with
    | add s =>
      obtain ⟨hempty, hmap⟩ := EdgeBlock.empty_published (ε := ε) (ρ := ρ)
      have hfirst := hadd {} s hempty
      rw [hmap] at hfirst
      rw [step, addEdge_none]
      cases hgrant : g.block with
      | false => exact ⟨hnone, .notAdded⟩
      | true => exact hfirst
    | clear idx expect => exact ⟨hnone, .notCleared fun o ho => by cases ho⟩
    | replace idx s expect => exact ⟨hnone, .outOfRange rfl⟩
    | suspend idx suspended => exact ⟨hnone, .notFound rfl⟩
    | evictLink link pair => exact ⟨hnone, EdgeBlock.moves_of_no_hit rfl fun i o ho => by cases ho⟩
    | evictRoute link route boundEcho =>
      exact ⟨hnone, EdgeBlock.moves_of_no_hit rfl fun i o ho => by cases ho⟩
  | some b =>
    have hb : b.Published := h b rfl
    cases op with
    | add s => exact hadd b s hb
    | clear idx expect => exact hblock (EdgeBlock.clearEdge_moves hb idx expect)
    | replace idx s expect => exact hblock (EdgeBlock.replaceEdge_moves hb idx s expect)
    | suspend idx suspended => exact hblock (EdgeBlock.setEdgeSuspended_moves hb idx suspended)
    | evictLink link pair => exact hblock (EdgeBlock.evictLinkEdges_moves hb link pair)
    | evictRoute link route boundEcho =>
      exact hblock (EdgeBlock.evictRouteEdges_moves hb link route boundEcho)

theorem run_sound [DecidableEq ι] (calls : List (Grants × EdgeOp ε ρ ι)) :
    Sound ((machine cold view).run calls) := by
  refine (machine cold view).runFrom_invariant (fun edges call h => ?_) none calls
    fun b hb => by cases hb
  exact (step_moves h call.1 call.2).1

theorem run_keeps [DecidableEq ι] (h : Sound edges)
    (later : List (Grants × EdgeOp ε ρ ι)) (hi : slotMap edges i = some o) :
    (∃ live, slotMap ((machine cold view).runFrom edges later) i = some ⟨o.edge, live⟩) ∨
      ∃ front g op, front ++ [(g, op)] <+: later ∧ op.Ends view i o.edge
        (step cold view g ((machine cold view).runFrom edges front) op).2 := by
  induction later generalizing edges o with
  | nil => exact .inl ⟨o.live, hi⟩
  | cons call later ih =>
    obtain ⟨hsound, hmove⟩ := step_moves h call.1 call.2
    rcases hmove.keeps hi with ⟨live, hkept⟩ | hends
    · refine (ih hsound hkept).imp_right fun hlater => ?_
      obtain ⟨front, g, op, hfront, hends⟩ := hlater
      exact ⟨call :: front, g, op, (prefix_cons_inj call).mpr hfront, hends⟩
    · exact .inr ⟨[], call.1, call.2, (prefix_cons_inj call).mpr nil_prefix, hends⟩

theorem snapshotEdges_eq (h : Sound edges) (reserved : Bool) :
    ∃ live, (slotMap edges).Lists live ∧ snapshotEdges reserved edges =
      if kInlineFanout < (published edges).length ∧ reserved = false then
        (live.take kInlineFanout, live.length - kInlineFanout) else (live, 0) := by
  cases edges with
  | none => exact ⟨[], ⟨[], List.Pairwise.nil, .nil, fun i e hi => by cases hi⟩, rfl⟩
  | some b =>
    refine ⟨_, EdgeBlock.live_listed (h b rfl), ?_⟩
    show EdgeBlock.copyFrom _ 0 b.pub = _
    by_cases hwide : kInlineFanout < b.pub.length
    · cases reserved with
      | false =>
        rw [if_pos ⟨hwide, rfl⟩, Bool.and_false, EdgeBlock.copyFrom_inline (Nat.zero_le _)]
        rfl
      | true =>
        rw [if_neg (fun hcut => by cases hcut.2), decide_eq_true hwide, Bool.and_true,
          EdgeBlock.copyFrom_heap]
    have hfits : (EdgeBlock.liveFields b.pub).length ≤ kInlineFanout := by
      rw [EdgeBlock.liveFields, length_map]
      exact (length_filter_le _ _).trans (Nat.not_lt.mp hwide)
    rw [if_neg (fun hcut => hwide hcut.1), decide_eq_false hwide, Bool.false_and,
      EdgeBlock.copyFrom_inline (Nat.zero_le _), Nat.sub_zero, take_of_length_le hfits,
      Nat.sub_eq_zero_of_le hfits]

/-- What it is for a vertex to be a map from slots to edges. -/
structure Refines [DecidableEq ι] (cold : ε → Option ι) (view : ε → Edge)
    (edges : Option (EdgeBlock ε ρ)) : Prop where
  /-- Whatever the allocator refuses, a verb answers and moves as on the map. -/
  moves : ∀ (g : Grants) (op : EdgeOp ε ρ ι), Moves cold view (slotMap edges) op
    (step cold view g edges op).2 (slotMap (step cold view g edges op).1)
  /-- A verb that reports a refusal leaves the map. -/
  refused : ∀ (g : Grants) (op : EdgeOp ε ρ ι), (step cold view g edges op).2.refuses = true →
    slotMap (step cold view g edges op).1 = slotMap edges
  /-- With its allocations granted and an index of 32 bits free, a verb is not refused. -/
  granted : (∃ i ≤ kMaxSlot, slotMap edges i = none) → ∀ s idx expect,
    (step cold view {} edges (.add s)).2 ≠ .added none ∧
      (step cold view {} edges (.replace idx s expect)).2 ≠ .replaced .REFUSED
  /-- An index names its edge until some call clears, replaces or evicts that edge. -/
  keeps : ∀ (later : List (Grants × EdgeOp ε ρ ι)) (i : Nat) (o : Occupant ε), slotMap edges i = some o →
    (∃ live, slotMap ((machine cold view).runFrom edges later) i = some ⟨o.edge, live⟩) ∨
      ∃ front g op, front ++ [(g, op)] <+: later ∧ op.Ends view i o.edge
        (step cold view g ((machine cold view).runFrom edges front) op).2
  /-- A snapshot is the live edges in slot order; one that wanted a buffer and was refused it is
  their first `kInlineFanout`, and counts the others. -/
  snapshot : ∀ reserved, ∃ live, (slotMap edges).Lists live ∧ snapshotEdges reserved edges =
    if kInlineFanout < (published edges).length ∧ reserved = false then
      (live.take kInlineFanout, live.length - kInlineFanout)
    else (live, 0)
  /-- An occupied slot has one entry in the array, with its edge and its liveness. -/
  entry : ∀ i o, slotMap edges i = some o → ∃! e, e ∈ published edges ∧ e.slot = i ∧
    o = ⟨e.fields, e.active⟩
  /-- Every other entry is dead. -/
  dead : ∀ e ∈ published edges, slotMap edges e.slot = none → e.active = false

/-- **The edges of a vertex refine a map from slots to edges**, over every run of the verbs and with
any of their allocations refused. -/
theorem edge_table_refines [DecidableEq ι] (cold : ε → Option ι) (view : ε → Edge)
    (calls : List (Grants × EdgeOp ε ρ ι)) : Refines cold view ((machine cold view).run calls) := by
  have hsound : Sound ((machine cold view).run calls) := run_sound calls
  generalize (machine cold view).run calls = edges at hsound
  refine ⟨fun g op => (step_moves hsound g op).2, fun g op hr => (step_moves hsound g op).2.of_refuses hr,
    ?_, fun later i o hi => run_keeps hsound later hi, snapshotEdges_eq hsound, ?_, ?_⟩
  · rintro ⟨i, hle, hfree⟩ s idx expect
    cases edges with
    | none =>
      obtain ⟨hempty, hmap⟩ := EdgeBlock.empty_published (ε := ε) (ρ := ρ)
      refine ⟨fun hno => EdgeBlock.addEdge_granted hempty hle (congrFun hmap i) s ?_, nofun⟩
      rw [step, addEdge_none] at hno
      exact EdgeReply.added.inj hno
    | some b =>
      exact ⟨fun hno => EdgeBlock.addEdge_granted (hsound b rfl) hle hfree s (EdgeReply.added.inj hno),
        fun hno => EdgeBlock.replaceEdge_granted b idx s expect (EdgeReply.replaced.inj hno)⟩
  · intro i o ho
    cases edges with
    | none => cases ho
    | some b =>
      have hb : b.Published := hsound b rfl
      obtain ⟨-, e, he, hslot, -, hfields⟩ := EdgeBlock.of_slotMap hb ho
      refine ⟨e, ⟨he, hslot, hfields⟩, fun d hd => ?_⟩
      exact EdgeBlock.eq_of_slot hb.ascending hd.1 he (hd.2.1.trans hslot.symm)
  · intro e he hnone
    cases edges with
    | none => exact nomatch he
    | some b =>
      have hb : b.Published := hsound b rfl
      exact hb.dead e he ((EdgeBlock.slotMap_eq_none hb).mp hnone)

end EdgeTable

end Table

def crowd : List (Grants × EdgeOp Nat Unit Nat) :=
  (List.range 10).map (fun n => (({ block := true } : Grants), .add ⟨n, ()⟩)) ++
    [({ array := false }, .clear 0 none)]

/-- The array keeps an entry for the cleared slot, and a snapshot that finds no buffer drops the
last of nine live edges. -/
theorem crowd_short :
    let edges :=
      (EdgeTable.machine (fun _ : Nat => (none : Option Nat)) fun _ => ({} : Edge)).run crowd
    (EdgeTable.slotMap edges 0).isNone = true ∧
      (EdgeTable.published edges).map PubEdge.slot = List.range 10 ∧
      (EdgeTable.slotMap edges 9).isSome = true ∧
      EdgeTable.snapshotEdges true edges = ([1, 2, 3, 4, 5, 6, 7, 8, 9], 0) ∧
      EdgeTable.snapshotEdges false edges = ([1, 2, 3, 4, 5, 6, 7, 8], 1) := by
  decide +kernel

end LibTracer.Graph
