import LibTracer.Graph.Wiring

/-!
# The edge table of a vertex (`vertex.hpp`, `subscriber.hpp`)

A vertex keeps its subscription edges twice: a slot table, whose indices are the `:subscribers[N]`
numbers, and a published array with the dispatch fields of every occupied slot, which a fan-out
copies without a lock.  A change publishes a new array, whose allocation can be refused; an unsubscribe
must not fail for that, so it flips a bit in the old array and the entry stays behind, dead.
-/

namespace LibTracer.Graph

open List Function

/-! ## Table and array -/

/-- `subscriber_t`: the dispatch fields, and what the slot keeps beside them. -/
structure Subscriber (ε ρ : Type) where
  fields : ε
  kept : ρ

structure SubscriberSlot (ρ : Type) where
  kept : Option ρ := none
  active : Bool := false

def SubscriberSlot.cleared {ρ : Type} : SubscriberSlot ρ := {}

structure PubEdge (ε : Type) where
  fields : ε
  active : Bool
  slot : Nat

structure EdgeBlock (ε ρ : Type) where
  slots : List (SubscriberSlot ρ) := []
  pub : List (PubEdge ε) := []

/-- What the allocator grants to one verb: the block, a new slot, a new array. -/
structure Grants where
  block : Bool := true
  slot : Bool := true
  array : Bool := true

inductive EdgeReplace where
  | OUT_OF_RANGE | REFUSED | EDGE_CHANGED | FILLED_EMPTY | REPLACED_ACTIVE | REPLACED_SUSPENDED
  deriving DecidableEq, Repr

inductive EdgeSuspend where
  | NOT_FOUND | CHANGED | UNCHANGED
  deriving DecidableEq, Repr

/-- `pub_edge_t::kMaxSlot`, with slot indices of 32 bits. -/
def kMaxSlot : Nat := 2 ^ 32 - 1

/-- `edge_snapshot_t::kCapacity`. -/
def kInlineFanout : Nat := 8

namespace EdgeBlock

variable {ε ρ ι : Type}

def occupied (slots : List (SubscriberSlot ρ)) (idx : Nat) : Bool := slots[idx]?.any (·.active)

/-- `entry_of`: the first entry that is not below the index. -/
def entryOf (pub : List (PubEdge ε)) (idx : Nat) : Option (PubEdge ε) :=
  pub.find? fun x => !decide (x.slot < idx)

def setLive (idx : Nat) (live : Bool) : List (PubEdge ε) → List (PubEdge ε)
  | [] => []
  | e :: es => if e.slot < idx then e :: setLive idx live es else { e with active := live } :: es

/-- The rebuild of `try_publish_edges`.  `pending` is the new edge until it is placed, `site` its
slot throughout. -/
def rebuild (slots : List (SubscriberSlot ρ)) (site : Option Nat) :
    Option (ε × Nat) → List (PubEdge ε) → List (PubEdge ε)
  | pending, [] => pending.toList.map fun f => ⟨f.1, true, f.2⟩
  | pending, e :: es =>
    let placed := pending.filter (·.2 ≤ e.slot)
    (placed.toList.map fun f => ⟨f.1, true, f.2⟩) ++
      (if site ≠ some e.slot && occupied slots e.slot then [e] else []) ++
      rebuild slots site (if placed.isSome then none else pending) es

/-- `try_publish_edges`: nothing is allocated for an empty array. -/
def tryPublishEdges (array : Bool) (b : EdgeBlock ε ρ) (fill : Option (ε × Nat)) :
    Option (EdgeBlock ε ρ) :=
  if b.pub.length + fill.toList.length ≠ 0 && !array then none
  else some { b with pub := rebuild b.slots (fill.map Prod.snd) fill b.pub }

theorem tryPublishEdges_cases (array : Bool) (b : EdgeBlock ε ρ) (fill : Option (ε × Nat)) :
    b.tryPublishEdges array fill = none ∨ b.tryPublishEdges array fill =
      some { b with pub := rebuild b.slots (fill.map Prod.snd) fill b.pub } := by
  unfold tryPublishEdges
  split
  · exact .inl rfl
  · exact .inr rfl

/-! ## The verbs -/

/-- `add_edge`: the lowest cleared slot, or a new one; `none` where nothing is admitted. -/
def addEdge (g : Grants) (edges : Option (EdgeBlock ε ρ)) (s : Subscriber ε ρ) :
    Option (EdgeBlock ε ρ) × Option Nat :=
  match edges.or (if g.block then some {} else none) with
  | none => (none, none)
  | some b =>
    let idx := b.slots.findIdx (!·.active)
    if idx = b.slots.length && (decide (kMaxSlot < idx) || !g.slot) then (some b, none)
    else
      -- a new slot joins the table cleared, and is occupied once its edge is published
      let b := { b with
        slots := if idx = b.slots.length then b.slots ++ [SubscriberSlot.cleared] else b.slots }
      match b.tryPublishEdges g.array (some (s.fields, idx)) with
      | none => (some b, none)
      | some b => (some { b with slots := b.slots.set idx ⟨some s.kept, true⟩ }, some idx)

/-- `clear_edge`.  With `expect`, only the edge with that cold half is cleared.  The array that
drops the entry may be refused: then the entry stays, dead. -/
def clearEdge [DecidableEq ι] (cold : ε → Option ι) (g : Grants) (b : EdgeBlock ε ρ) (idx : Nat)
    (expect : Option ι) : EdgeBlock ε ρ × Bool :=
  if !occupied b.slots idx then (b, false)
  else
    match entryOf b.pub idx with
    | none => (b, false)
    | some e =>
      if expect.isSome && cold e.fields ≠ expect then (b, false)
      else
        let b : EdgeBlock ε ρ := ⟨b.slots.set idx .cleared, setLive idx false b.pub⟩
        ((b.tryPublishEdges g.array none).getD b, true)

/-- `replace_edge`: the slot must hold an edge with the cold half `expect`, or none where that is
`none`. -/
def replaceEdge [DecidableEq ι] (cold : ε → Option ι) (g : Grants) (b : EdgeBlock ε ρ) (idx : Nat)
    (s : Subscriber ε ρ) (expect : Option ι) : EdgeBlock ε ρ × EdgeReplace :=
  if b.slots.length ≤ idx then (b, .OUT_OF_RANGE)
  else
    let old := if occupied b.slots idx then entryOf b.pub idx else none
    if old.bind (cold ·.fields) ≠ expect then (b, .EDGE_CHANGED)
    else
      match b.tryPublishEdges g.array (some (s.fields, idx)) with
      | none => (b, .REFUSED)
      | some b =>
        ({ b with slots := b.slots.set idx ⟨some s.kept, true⟩ }, match old with
          | none => .FILLED_EMPTY
          | some e => if e.active then .REPLACED_ACTIVE else .REPLACED_SUSPENDED)

/-- `set_edge_suspended`: one bit, and nothing is allocated. -/
def setEdgeSuspended (b : EdgeBlock ε ρ) (idx : Nat) (suspended : Bool) :
    EdgeBlock ε ρ × EdgeSuspend :=
  if !occupied b.slots idx then (b, .NOT_FOUND)
  else
    match entryOf b.pub idx with
    | none => (b, .NOT_FOUND)
    | some e =>
      if e.active ≠ suspended then (b, .UNCHANGED)
      else ({ b with pub := setLive idx (!suspended) b.pub }, .CHANGED)

/-- The walk of an eviction over the array: the slots, the array and the number of edges evicted. -/
def evictWalk (hit : ε → Bool) :
    List (SubscriberSlot ρ) → List (PubEdge ε) → List (SubscriberSlot ρ) × List (PubEdge ε) × Nat
  | slots, [] => (slots, [], 0)
  | slots, e :: es =>
    if occupied slots e.slot && hit e.fields then
      let (slots, es, n) := evictWalk hit (slots.set e.slot .cleared) es
      (slots, { e with active := false } :: es, n + 1)
    else
      let (slots, es, n) := evictWalk hit slots es
      (slots, e :: es, n)

def evictEdges (hit : ε → Bool) (g : Grants) (b : EdgeBlock ε ρ) : EdgeBlock ε ρ × Nat :=
  let (slots, pub, n) := evictWalk hit b.slots b.pub
  let b : EdgeBlock ε ρ := ⟨slots, pub⟩
  (if n ≠ 0 then (b.tryPublishEdges g.array none).getD b else b, n)

/-- `evict_link_edges`: an empty name matches nothing. -/
def evictLinkEdges (view : ε → Edge) (g : Grants) (b : EdgeBlock ε ρ) (link : Name)
    (pair : Option LinkPair) : EdgeBlock ε ρ × Nat :=
  if link.isEmpty then (b, 0) else b.evictEdges (fun f => (view f).admittedOver link pair) g

/-- `evict_route_edges`: an invalid link and an empty route match nothing. -/
def evictRouteEdges (view : ε → Edge) (g : Grants) (b : EdgeBlock ε ρ) (link : Option LinkPair)
    (route : List UInt8) (boundEcho : Bool) : EdgeBlock ε ρ × Nat :=
  if !link.isSome || route.isEmpty then (b, 0)
  else b.evictEdges (fun f => (view f).refusedRoute link route boundEcho) g

/-- The copy loop of `copy_published`: what is copied, and how many edges are abandoned once the
inline buffer is full. -/
def copyFrom (useHeap : Bool) : Nat → List (PubEdge ε) → List ε × Nat
  | _, [] => ([], 0)
  | n, e :: es =>
    if !e.active then copyFrom useHeap n es
    else if !useHeap && n = kInlineFanout then ([], (e :: es).countP (·.active))
    else
      let (copied, truncated) := copyFrom useHeap (n + 1) es
      (e.fields :: copied, truncated)

/-- `copy_published`: a wide array wants a buffer of its own, that may be refused. -/
def copyPublished (reserved : Bool) (pub : List (PubEdge ε)) : List ε × Nat :=
  copyFrom (decide (kInlineFanout < pub.length) && reserved) 0 pub

/-! ## How table and array fit together -/

/-- What holds of table and array in every state: the array is in slot order, every occupied slot
has an entry there, and the entry of a cleared slot is dead. -/
structure Published (b : EdgeBlock ε ρ) : Prop where
  ascending : b.pub.Pairwise (·.slot < ·.slot)
  covered : ∀ i, occupied b.slots i = true → ∃ e ∈ b.pub, e.slot = i
  dead : ∀ e ∈ b.pub, occupied b.slots e.slot = false → e.active = false

theorem occupied_set (slots : List (SubscriberSlot ρ)) (idx : Nat) (s : SubscriberSlot ρ)
    (i : Nat) : occupied (slots.set idx s) i =
      if i = idx then decide (idx < slots.length) && s.active else occupied slots i := by
  unfold occupied
  rw [getElem?_set]
  by_cases hi : idx = i
  · subst hi
    by_cases hlt : idx < slots.length <;> simp [hlt]
  · simp [hi, Ne.symm hi]

theorem occupied_append_cleared (slots : List (SubscriberSlot ρ)) (i : Nat) :
    occupied (slots ++ [.cleared]) i = occupied slots i := by
  unfold occupied
  rw [getElem?_append]
  split
  · rfl
  next hi =>
  rw [getElem?_eq_none (not_lt.mp hi)]
  cases hone : [SubscriberSlot.cleared (ρ := ρ)][i - slots.length]? with
  | none => rfl
  | some s =>
    obtain rfl : s = .cleared := mem_singleton.mp (mem_of_getElem? hone)
    rfl

variable {pub : List (PubEdge ε)}

section

variable (h : pub.Pairwise (·.slot < ·.slot))
include h

theorem entryOf_eq {e : PubEdge ε} (he : e ∈ pub) : entryOf pub e.slot = some e := by
  unfold entryOf
  induction pub with
  | nil => exact nomatch he
  | cons d pub ih =>
    rw [pairwise_cons] at h
    rcases mem_cons.mp he with rfl | he
    · exact find?_cons_of_pos (by simp)
    · rw [find?_cons_of_neg (by simpa using h.1 e he)]
      exact ih h.2 he

theorem eq_of_slot {e e' : PubEdge ε}
    (he : e ∈ pub) (he' : e' ∈ pub) (hslot : e.slot = e'.slot) : e = e' := by
  have hfound := entryOf_eq h he
  rw [hslot, entryOf_eq h he'] at hfound
  exact (Option.some.inj hfound).symm

theorem setLive_eq {idx : Nat} (hmem : ∃ e ∈ pub, e.slot = idx) (live : Bool) : setLive idx live pub =
      pub.map fun e => if e.slot = idx then { e with active := live } else e := by
  induction pub with
  | nil => rfl
  | cons d pub ih =>
    rw [pairwise_cons] at h
    obtain ⟨e, he, rfl⟩ := hmem
    unfold setLive
    rcases mem_cons.mp he with rfl | he
    · have hrest :
          pub.map (fun d => if d.slot = e.slot then { d with active := live } else d) = pub := by
        refine (map_congr_left fun d hd => ?_).trans (map_id pub)
        exact if_neg (Nat.ne_of_gt (h.1 d hd))
      rw [if_neg (lt_irrefl _), map_cons, hrest, if_pos rfl]
    · rw [if_pos (h.1 e he), map_cons, ih h.2 ⟨e, he, rfl⟩, if_neg (Nat.ne_of_lt (h.1 e he))]

end

/-- **The rebuild**: the new edge and the entries of the other occupied slots, in slot order. -/
theorem rebuild_spec (slots : List (SubscriberSlot ρ)) (site : Option Nat)
    (pending : Option (ε × Nat)) (hsite : ∀ f ∈ pending, site = some f.2)
    (h : pub.Pairwise (·.slot < ·.slot)) : (rebuild slots site pending pub).Pairwise (·.slot < ·.slot) ∧
      ∀ x, x ∈ rebuild slots site pending pub ↔ (∃ f ∈ pending, x = ⟨f.1, true, f.2⟩) ∨
          (x ∈ pub ∧ site ≠ some x.slot ∧ occupied slots x.slot = true) := by
  induction pub generalizing pending with
  | nil =>
    cases pending with
    | none | some f => simp [rebuild]
  | cons e pub ih =>
    rw [pairwise_cons] at h
    -- the head is kept or not, in front of what the rest is rebuilt to
    have hfront : ∀ pending', (∀ f ∈ pending', site = some f.2 ∧ e.slot < f.2) →
        let l := (if site ≠ some e.slot && occupied slots e.slot then [e] else []) ++
          rebuild slots site pending' pub
        l.Pairwise (·.slot < ·.slot) ∧ ∀ x, x ∈ l ↔ (∃ f ∈ pending', x = ⟨f.1, true, f.2⟩) ∨
          (x ∈ e :: pub ∧ site ≠ some x.slot ∧ occupied slots x.slot = true) := by
      intro pending' hpending
      obtain ⟨hsort, hmem⟩ := ih pending' (fun f hf => (hpending f hf).1) h.2
      have habove : ∀ x ∈ rebuild slots site pending' pub, e.slot < x.slot := by
        intro x hx
        rcases (hmem x).mp hx with ⟨f, hf, rfl⟩ | ⟨hx, -⟩
        · exact (hpending f hf).2
        · exact h.1 x hx
      by_cases hkeep : (site ≠ some e.slot && occupied slots e.slot) = true
      · have hkept : site ≠ some e.slot ∧ occupied slots e.slot = true := by simpa using hkeep
        rw [if_pos hkeep]
        refine ⟨pairwise_cons.mpr ⟨habove, hsort⟩, fun x => ?_⟩
        rw [singleton_append, mem_cons, mem_cons, hmem x]
        grind
      · rw [if_neg hkeep, nil_append]
        refine ⟨hsort, fun x => ?_⟩
        rw [hmem x, mem_cons]
        grind
    unfold rebuild
    cases pending with
    | none => exact hfront none (by simp)
    | some f =>
      have hat : site = some f.2 := hsite f rfl
      by_cases hle : f.2 ≤ e.slot
      · obtain ⟨hsort, hmem⟩ := hfront none (by simp)
        have hfirst : ∀ x ∈ (if site ≠ some e.slot && occupied slots e.slot then [e] else []) ++
            rebuild slots site none pub, f.2 < x.slot := by
          intro x hx
          obtain ⟨hx, hother, -⟩ :
              x ∈ e :: pub ∧ site ≠ some x.slot ∧ occupied slots x.slot = true := by
            simpa using (hmem x).mp hx
          have hne : f.2 ≠ x.slot := fun heq => hother (heq ▸ hat)
          rcases mem_cons.mp hx with rfl | hx
          · omega
          · have hlt := h.1 x hx
            omega
        simp only [Option.filter_some, hle, decide_true, if_true, Option.isSome_some,
          Option.toList_some, map_cons, map_nil, nil_append, cons_append]
        refine ⟨pairwise_cons.mpr ⟨hfirst, hsort⟩, fun x => ?_⟩
        rw [mem_cons, hmem x]
        simp
      · have hrest := hfront (some f) (by simpa [hat] using hle)
        simpa [Option.filter_some, hle] using hrest

def doomed (hit : ε → Bool) (slots : List (SubscriberSlot ρ)) (e : PubEdge ε) : Bool :=
  occupied slots e.slot && hit e.fields

/-- **The walk of an eviction**: the entries of hit occupied slots die, and their slots are
cleared. -/
theorem evictWalk_spec (hit : ε → Bool) (slots : List (SubscriberSlot ρ))
    (h : pub.Pairwise (·.slot < ·.slot)) : (∀ i, occupied (evictWalk hit slots pub).1 i =
        (occupied slots i && !pub.any fun e => e.slot == i && hit e.fields)) ∧
      (evictWalk hit slots pub).2.1 =
        (pub.map fun e => if doomed hit slots e then { e with active := false } else e) ∧
      (evictWalk hit slots pub).2.2 = pub.countP (doomed hit slots) := by
  induction pub generalizing slots with
  | nil => simp [evictWalk]
  | cons e pub ih =>
    rw [pairwise_cons] at h
    unfold evictWalk
    by_cases hdoom : doomed hit slots e = true
    · obtain ⟨hocc, hpub, hn⟩ := ih (slots.set e.slot .cleared) h.2
      have hother : ∀ d ∈ pub, doomed hit (slots.set e.slot .cleared) d = doomed hit slots d := by
        intro d hd
        rw [doomed, occupied_set, if_neg (Nat.ne_of_gt (h.1 d hd)), doomed]
      have hhit : hit e.fields = true := ((Bool.and_eq_true _ _).mp hdoom).2
      rw [← doomed, if_pos hdoom, map_cons, if_pos hdoom, countP_cons_of_pos hdoom]
      refine ⟨fun i => ?_, congrArg _ (hpub.trans (map_congr_left fun d hd => ?_)),
        congrArg (· + 1) (hn.trans (countP_congr fun d hd => ?_))⟩
      · rw [hocc, occupied_set, any_cons]
        by_cases hi : i = e.slot
        · simp [hi, hhit, SubscriberSlot.cleared]
        · have hne : (e.slot == i) = false := beq_eq_false_iff_ne.mpr (Ne.symm hi)
          simp [hi, hne]
      all_goals rw [hother d hd]
    · obtain ⟨hocc, hpub, hn⟩ := ih slots h.2
      rw [← doomed, if_neg hdoom, map_cons, if_neg hdoom, countP_cons_of_neg hdoom]
      refine ⟨fun i => ?_, congrArg _ hpub, hn⟩
      rw [hocc, any_cons]
      by_cases hi : i = e.slot
      · subst hi
        cases hocc' : occupied slots e.slot with
        | false => simp
        | true => simp [show hit e.fields = false by simpa [doomed, hocc'] using hdoom]
      · have hne : (e.slot == i) = false := beq_eq_false_iff_ne.mpr (Ne.symm hi)
        simp [hne]

def liveFields (pub : List (PubEdge ε)) : List ε := (pub.filter (·.active)).map PubEdge.fields

theorem copyFrom_heap (n : Nat) (pub : List (PubEdge ε)) : copyFrom true n pub = (liveFields pub, 0) := by
  induction pub generalizing n with
  | nil => rfl
  | cons e pub ih =>
    unfold copyFrom
    cases hlive : e.active <;> simp [ih, liveFields, hlive]

theorem copyFrom_inline {n : Nat} (hn : n ≤ kInlineFanout) (pub : List (PubEdge ε)) :
    copyFrom false n pub = ((liveFields pub).take (kInlineFanout - n),
      (liveFields pub).length - (kInlineFanout - n)) := by
  induction pub generalizing n with
  | nil => simp [copyFrom, liveFields]
  | cons e pub ih =>
    unfold copyFrom
    cases hlive : e.active with
    | false =>
      have hskip : liveFields (e :: pub) = liveFields pub := by simp [liveFields, hlive]
      rw [hskip]
      exact ih hn
    | true =>
      have htake : liveFields (e :: pub) = e.fields :: liveFields pub := by simp [liveFields, hlive]
      by_cases hfull : n = kInlineFanout
      · have hcount : (e :: pub).countP (·.active) = (liveFields (e :: pub)).length := by
          rw [liveFields, length_map, countP_eq_length_filter]
        simp [hfull, hcount]
      have hroom : kInlineFanout - n = kInlineFanout - (n + 1) + 1 := by omega
      simp only [Bool.not_true, Bool.false_eq_true, if_false, Bool.not_false, Bool.true_and,
        decide_eq_true_eq, if_neg hfull]
      rw [ih (by omega), htake, hroom, take_succ_cons, length_cons, Nat.add_sub_add_right]

end EdgeBlock

/-! ## The abstract map -/

/-- What a slot holds: an edge, that delivers or is suspended. -/
structure Occupant (ε : Type) where
  edge : ε
  live : Bool

abbrev SlotMap (ε : Type) := Nat → Option (Occupant ε)

def SlotMap.without {ε : Type} (hit : ε → Bool) (m : SlotMap ε) : SlotMap ε := fun i =>
  (m i).filter fun o => !hit o.edge

def SlotMap.Lists {ε : Type} (m : SlotMap ε) (es : List ε) : Prop :=
  ∃ idxs : List Nat, idxs.Pairwise (· < ·) ∧
    List.Forall₂ (fun i e => m i = some ⟨e, true⟩) idxs es ∧
    ∀ i e, m i = some ⟨e, true⟩ → i ∈ idxs

namespace EdgeBlock

variable {ε ρ ι : Type} {b b' : EdgeBlock ε ρ} {i idx : Nat}

def slotMap (b : EdgeBlock ε ρ) : SlotMap ε := fun i =>
  if occupied b.slots i then (entryOf b.pub i).map fun e => ⟨e.fields, e.active⟩ else none

theorem slotMap_of_entry (h : Published b) {e : PubEdge ε} (he : e ∈ b.pub)
    (hocc : occupied b.slots e.slot = true) : b.slotMap e.slot = some ⟨e.fields, e.active⟩ := by
  rw [slotMap, if_pos hocc, entryOf_eq h.ascending he]
  rfl

theorem slotMap_eq_none (h : Published b) : b.slotMap i = none ↔ occupied b.slots i = false := by
  cases hocc : occupied b.slots i with
  | false => simp [slotMap, hocc]
  | true =>
    obtain ⟨e, he, rfl⟩ := h.covered i hocc
    simp [slotMap_of_entry h he hocc]

variable {o : Occupant ε}

section

variable (h : Published b)
include h

theorem of_slotMap (ho : b.slotMap i = some o) :
    occupied b.slots i = true ∧ ∃ e ∈ b.pub, e.slot = i ∧ entryOf b.pub i = some e ∧
      o = ⟨e.fields, e.active⟩ := by
  cases hocc : occupied b.slots i with
  | false => rw [(slotMap_eq_none h).mpr hocc] at ho; cases ho
  | true =>
    obtain ⟨e, he, rfl⟩ := h.covered i hocc
    rw [slotMap_of_entry h he hocc] at ho
    cases ho
    exact ⟨rfl, e, he, rfl, entryOf_eq h.ascending he, rfl⟩

theorem slotMap_congr (h' : Published b') (hocc : occupied b'.slots i = occupied b.slots i)
    (hentry : ∀ e ∈ b.pub, e.slot = i → occupied b.slots i = true → e ∈ b'.pub) :
    b'.slotMap i = b.slotMap i := by
  cases hi : occupied b.slots i with
  | false => rw [(slotMap_eq_none h).mpr hi, (slotMap_eq_none h').mpr (hocc.trans hi)]
  | true =>
    obtain ⟨e, he, rfl⟩ := h.covered i hi
    rw [slotMap_of_entry h he hi, slotMap_of_entry h' (hentry e he rfl hi) (hocc.trans hi)]

theorem grow_published : Published { b with slots := b.slots ++ [SubscriberSlot.cleared] } ∧
      slotMap { b with slots := b.slots ++ [SubscriberSlot.cleared] } = b.slotMap := by
  have hpub : Published { b with slots := b.slots ++ [SubscriberSlot.cleared] } := by
    refine ⟨h.ascending, fun i hi => ?_, fun e he hdead => ?_⟩
    · rw [occupied_append_cleared] at hi
      exact h.covered i hi
    · rw [occupied_append_cleared] at hdead
      exact h.dead e he hdead
  exact ⟨hpub, funext fun i => slotMap_congr h hpub (occupied_append_cleared b.slots i)
    fun e he _ _ => he⟩

/-- **A published edge**: the slot holds it, and every other slot what it held. -/
theorem fill_published (hidx : idx < b.slots.length) (f : ε) (kept : ρ) :
    let b' : EdgeBlock ε ρ :=
      ⟨b.slots.set idx ⟨some kept, true⟩, rebuild b.slots (some idx) (some (f, idx)) b.pub⟩
    Published b' ∧ b'.slotMap = update b.slotMap idx (some ⟨f, true⟩) := by
  intro b'
  obtain ⟨hsort, hmem⟩ := rebuild_spec b.slots (some idx) (some (f, idx)) (by simp) h.ascending
  have hocc : ∀ i, occupied b'.slots i = if i = idx then true else occupied b.slots i := by
    intro i
    rw [show b'.slots = _ from rfl, occupied_set]
    simp [hidx]
  have hnew : (⟨f, true, idx⟩ : PubEdge ε) ∈ b'.pub := (hmem _).mpr (.inl ⟨_, rfl, rfl⟩)
  have hold : ∀ e ∈ b.pub, e.slot ≠ idx → occupied b.slots e.slot = true → e ∈ b'.pub :=
    fun e he hne hocc => (hmem e).mpr (.inr ⟨he, by simpa using Ne.symm hne, hocc⟩)
  have hpub : Published b' := by
    refine ⟨hsort, fun i hi => ?_, fun e he hdead => ?_⟩
    · by_cases hi' : i = idx
      · exact ⟨_, hnew, hi'.symm⟩
      rw [hocc, if_neg hi'] at hi
      obtain ⟨e, he, rfl⟩ := h.covered i hi
      exact ⟨e, hold e he hi' hi, rfl⟩
    · rw [hocc] at hdead
      rcases (hmem e).mp he with ⟨g, hg, rfl⟩ | ⟨he, hne, hlive⟩
      · cases hg
        simp at hdead
      · rw [if_neg (by simpa using Ne.symm hne), hlive] at hdead
        cases hdead
  refine ⟨hpub, funext fun i => ?_⟩
  by_cases hi : i = idx
  · subst hi
    rw [update_self]
    exact slotMap_of_entry hpub hnew (by rw [hocc, if_pos rfl])
  rw [update_of_ne hi]
  refine slotMap_congr h hpub (by rw [hocc, if_neg hi]) fun e he hslot hlive => ?_
  subst hslot
  exact hold e he hi hlive

theorem compact_published (array : Bool) :
    let b' := (b.tryPublishEdges array none).getD b
    Published b' ∧ b'.slotMap = b.slotMap := by
  intro b'
  have hcases : b' = b ∨ b' = { b with pub := rebuild b.slots none none b.pub } := by
    rcases tryPublishEdges_cases array b none with hb | hb
    · exact .inl (congrArg (Option.getD · b) hb)
    · exact .inr (congrArg (Option.getD · b) hb)
  rcases hcases with hb | hb
  · rw [hb]
    exact ⟨h, rfl⟩
  rw [hb]
  obtain ⟨hsort, hmem⟩ :=
    rebuild_spec b.slots none (none : Option (ε × Nat)) (by simp) h.ascending
  have hpub : Published { b with pub := rebuild b.slots none none b.pub } := by
    refine ⟨hsort, fun i hi => ?_, fun e he hdead => ?_⟩
    · obtain ⟨e, he, rfl⟩ := h.covered i hi
      exact ⟨e, (hmem e).mpr (.inr ⟨he, by simp, hi⟩), rfl⟩
    · rcases (hmem e).mp he with ⟨f, hf, -⟩ | ⟨he, -, -⟩
      · cases hf
      · exact h.dead e he hdead
  refine ⟨hpub, funext fun i => slotMap_congr h hpub rfl fun e he hslot hlive => ?_⟩
  subst hslot
  exact (hmem e).mpr (.inr ⟨he, by simp, hlive⟩)

/-- Entries that keep their slots and change otherwise, in a table that clears some: a slot that is
still occupied holds what its entry became. -/
theorem retag_published (slots : List (SubscriberSlot ρ))
    (change : PubEdge ε → PubEdge ε) (hslot : ∀ e, (change e).slot = e.slot)
    (hocc : ∀ i, occupied slots i = true → occupied b.slots i = true)
    (hdead : ∀ e ∈ b.pub, occupied slots e.slot = false → (change e).active = false) :
    Published ⟨slots, b.pub.map change⟩ ∧
      (∀ i, occupied slots i = false → slotMap ⟨slots, b.pub.map change⟩ i = none) ∧
      ∀ e ∈ b.pub, occupied slots e.slot = true →
        slotMap ⟨slots, b.pub.map change⟩ e.slot = some ⟨(change e).fields, (change e).active⟩ := by
  have hpub : Published ⟨slots, b.pub.map change⟩ := by
    refine ⟨?_, fun i hi => ?_, fun e he hgone => ?_⟩
    · rw [pairwise_map]
      simpa only [hslot] using h.ascending
    · obtain ⟨e, he, rfl⟩ := h.covered i (hocc i hi)
      exact ⟨change e, mem_map_of_mem he, hslot e⟩
    · obtain ⟨d, hd, rfl⟩ := mem_map.mp he
      rw [hslot] at hgone
      exact hdead d hd hgone
  refine ⟨hpub, fun i hi => (slotMap_eq_none hpub).mpr hi, fun e he hlive => ?_⟩
  have hentry := slotMap_of_entry hpub (mem_map_of_mem (f := change) he)
  rw [hslot] at hentry
  exact hentry hlive

theorem flip_published (ho : b.slotMap idx = some o) (live : Bool) :
    let b' : EdgeBlock ε ρ := { b with pub := setLive idx live b.pub }
    Published b' ∧ b'.slotMap = update b.slotMap idx (some ⟨o.edge, live⟩) := by
  obtain ⟨hidx, e, he, heslot, -, rfl⟩ := of_slotMap h ho
  rw [setLive_eq h.ascending ⟨e, he, heslot⟩]
  obtain ⟨hpub, hnone, hsome⟩ := retag_published h b.slots
    (fun e => if e.slot = idx then { e with active := live } else e)
    (fun e => by split <;> rfl) (fun _ => id) (fun d hd hgone => by
      have hne : d.slot ≠ idx := fun heq => by rw [heq, hidx] at hgone; cases hgone
      rw [if_neg hne]
      exact h.dead d hd hgone)
  refine ⟨hpub, funext fun i => ?_⟩
  cases hi : occupied b.slots i with
  | false =>
    have hne : i ≠ idx := fun heq => by rw [heq, hidx] at hi; cases hi
    rw [update_of_ne hne, (slotMap_eq_none h).mpr hi]
    exact hnone i hi
  | true =>
    obtain ⟨d, hd, rfl⟩ := h.covered i hi
    refine (hsome d hd hi).trans ?_
    by_cases heq : d.slot = idx
    · obtain rfl := eq_of_slot h.ascending hd he (heq.trans heslot.symm)
      rw [← heslot, update_self, if_pos rfl]
    · rw [update_of_ne heq, slotMap_of_entry h hd hi, if_neg heq]

theorem clear_published (ho : b.slotMap idx = some o) :
    let b' : EdgeBlock ε ρ := ⟨b.slots.set idx .cleared, setLive idx false b.pub⟩
    Published b' ∧ b'.slotMap = update b.slotMap idx none := by
  obtain ⟨hidx, e, he, heslot, -, rfl⟩ := of_slotMap h ho
  have hocc : ∀ i, occupied (b.slots.set idx .cleared) i =
      if i = idx then false else occupied b.slots i := by
    intro i
    rw [occupied_set]
    simp [SubscriberSlot.cleared]
  rw [setLive_eq h.ascending ⟨e, he, heslot⟩]
  obtain ⟨hpub, hnone, hsome⟩ := retag_published h (b.slots.set idx .cleared)
    (fun e => if e.slot = idx then { e with active := false } else e)
    (fun e => by split <;> rfl)
    (fun i hi => by rw [hocc] at hi; split at hi <;> simp_all)
    (fun d hd hgone => by
      by_cases heq : d.slot = idx
      · rw [if_pos heq]
      rw [hocc, if_neg heq] at hgone
      rw [if_neg heq]
      exact h.dead d hd hgone)
  refine ⟨hpub, funext fun i => ?_⟩
  by_cases heq : i = idx
  · subst heq
    rw [update_self]
    exact hnone i (by rw [hocc, if_pos rfl])
  rw [update_of_ne heq]
  cases hi : occupied b.slots i with
  | false =>
    rw [(slotMap_eq_none h).mpr hi]
    exact hnone i (by rw [hocc, if_neg heq, hi])
  | true =>
    obtain ⟨d, hd, rfl⟩ := h.covered i hi
    refine (hsome d hd (by rw [hocc, if_neg heq, hi])).trans ?_
    rw [slotMap_of_entry h hd hi, if_neg heq]

theorem occupied_evictWalk (hit : ε → Bool) {e : PubEdge ε} (he : e ∈ b.pub) :
    occupied (evictWalk hit b.slots b.pub).1 e.slot = (occupied b.slots e.slot && !hit e.fields) := by
  have hany : (b.pub.any fun d => d.slot == e.slot && hit d.fields) = hit e.fields := by
    rw [Bool.eq_iff_iff, any_eq_true]
    constructor
    · intro hd
      obtain ⟨d, hd, hsame⟩ := hd
      obtain ⟨hslot, hhit⟩ : d.slot = e.slot ∧ hit d.fields = true := by simpa using hsame
      rwa [eq_of_slot h.ascending hd he hslot] at hhit
    · intro hhit
      exact ⟨e, he, by simpa using hhit⟩
  rw [(evictWalk_spec hit b.slots h.ascending).1, hany]

theorem evictWalk_published (hit : ε → Bool) :
    let b' : EdgeBlock ε ρ := ⟨(evictWalk hit b.slots b.pub).1, (evictWalk hit b.slots b.pub).2.1⟩
    Published b' ∧ b'.slotMap = SlotMap.without hit b.slotMap := by
  obtain ⟨hslots, hpub, -⟩ := evictWalk_spec hit b.slots h.ascending
  obtain ⟨hwalked, hnone, hsome⟩ := retag_published h (evictWalk hit b.slots b.pub).1
    (fun e => if doomed hit b.slots e then { e with active := false } else e)
    (fun e => by split <;> rfl)
    (fun i hi => by rw [hslots] at hi; exact ((Bool.and_eq_true _ _).mp hi).1)
    (fun e he hgone => by
      split
      · rfl
      refine h.dead e he ?_
      rw [occupied_evictWalk h hit he] at hgone
      cases hlive : occupied b.slots e.slot <;> simp_all [doomed])
  rw [← hpub] at hwalked hnone hsome
  refine ⟨hwalked, funext fun i => ?_⟩
  cases hi : occupied b.slots i with
  | false =>
    rw [SlotMap.without, (slotMap_eq_none h).mpr hi]
    exact hnone i (by rw [hslots, hi, Bool.false_and])
  | true =>
    obtain ⟨e, he, rfl⟩ := h.covered i hi
    have hocc := occupied_evictWalk h hit he
    rw [SlotMap.without, slotMap_of_entry h he hi, Option.filter_some]
    cases hhit : hit e.fields with
    | true => exact hnone e.slot (by rw [hocc, hhit, Bool.not_true, Bool.and_false])
    | false =>
      have hspared : doomed hit b.slots e = false := by rw [doomed, hhit, Bool.and_false]
      refine (hsome e he (by rw [hocc, hi, hhit]; rfl)).trans ?_
      simp [hspared]

theorem evictWalk_count (hit : ε → Bool) : ∃ gone : List Nat, gone.Pairwise (· < ·) ∧
      (∀ i, i ∈ gone ↔ ∃ o, b.slotMap i = some o ∧ hit o.edge = true) ∧
      (evictWalk hit b.slots b.pub).2.2 = gone.length := by
  refine ⟨(b.pub.filter (doomed hit b.slots)).map PubEdge.slot, ?_, fun i => ?_, ?_⟩
  · rw [pairwise_map]
    exact h.ascending.filter _
  · rw [mem_map]
    constructor
    · intro hi
      obtain ⟨e, he, rfl⟩ := hi
      obtain ⟨he, hdoom⟩ := mem_filter.mp he
      obtain ⟨hlive, hhit⟩ := (Bool.and_eq_true _ _).mp hdoom
      exact ⟨_, slotMap_of_entry h he hlive, hhit⟩
    · intro hi
      obtain ⟨o, ho, hhit⟩ := hi
      obtain ⟨hlive, e, he, rfl, -, rfl⟩ := of_slotMap h ho
      exact ⟨e, mem_filter.mpr ⟨he, by simpa [doomed, hlive] using hhit⟩, rfl⟩
  · rw [length_map, ← countP_eq_length_filter, (evictWalk_spec hit b.slots h.ascending).2.2]

/-- **An eviction**: the array that drops the dead entries may be refused, and the map is the
same. -/
theorem evictEdges_published (hit : ε → Bool) (g : Grants) :
    Published (evictEdges hit g b).1 ∧ (evictEdges hit g b).1.slotMap = SlotMap.without hit b.slotMap := by
  have hwalk := evictWalk_published h hit
  by_cases hsome : (evictWalk hit b.slots b.pub).2.2 ≠ 0
  · have hcompact := compact_published hwalk.1 g.array
    rw [show (evictEdges hit g b).1 = _ from if_pos hsome]
    exact ⟨hcompact.1, hcompact.2.trans hwalk.2⟩
  · rw [show (evictEdges hit g b).1 = _ from if_neg hsome]
    exact hwalk

end

end EdgeBlock

end LibTracer.Graph
