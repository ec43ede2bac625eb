import LibTracer.Graph.Slots

/-!
# Cached references

A path object and a bound edge keep a slot reference beside the key it was looked up by.  A use tries the
reference first and falls back to the key, so a registration, a retirement or a revival in between must
not be seen.

* **`cached_eq_canonical`** — after any history a use finds what the key finds.
-/

namespace LibTracer.Graph

/-- `path_object_t`: its key and element 0. -/
structure PathObject where
  key : Key
  element0 : Option VertexSlot := none
  deriving DecidableEq, Repr

/-- An edge with a local target, and the binding that was minted for it. -/
structure BoundEdge where
  targetKey : Key
  binding : Option VertexSlot
  deriving DecidableEq, Repr

variable {w : Wiring}

namespace Wiring

/-- `find_ptr`: a placeholder is no vertex. -/
def findPtr (w : Wiring) (k : Key) : Option Key := if w.found k then some k else none

/-- `resolve`, with the object as it leaves it. -/
def resolve (w : Wiring) (p : PathObject) : Option Key × PathObject :=
  match p.element0.bind w.derefVertexSlot with
  | some k => (some k, p)
  | none =>
    match w.findPtr p.key with
    | none => (none, { p with element0 := none })
    | some k => (some k, { p with element0 := w.vertexSlot k })

/-- `admit_subscriber`: the binding of a local target. -/
def bindTarget (w : Wiring) (targetKey : Key) : BoundEdge :=
  ⟨targetKey, (w.findPtr targetKey).bind w.vertexSlot⟩

/-- `dispatch_edge_target`: the vertex that is stored into; none is a drop for want of a target. -/
def dispatchTarget (w : Wiring) (e : BoundEdge) : Option Key :=
  match e.binding.bind w.derefVertexSlot with
  | some k => some k
  | none => w.findPtr e.targetKey

/-- A reference names the slot of `k`, if there is one. -/
def Names (w : Wiring) (k : Key) (s : Option VertexSlot) : Prop :=
  ∀ e ∈ s, w.slotTable[e.index]? = some k

theorem Names.none (w : Wiring) (k : Key) : w.Names k none := fun _ => nofun

theorem names_vertexSlot (w : Wiring) (k : Key) : w.Names k (w.vertexSlot k) :=
  fun _ h => (vertexSlot_spec h).1

variable {k : Key} {s : Option VertexSlot}

theorem Names.stay {w' : Wiring} (h : w.Names k s) (hstay : SlotsStay w w') : w'.Names k s :=
  fun e he => hstay _ _ (h e he)

variable {j : Key}

theorem findPtr_eq_some : w.findPtr k = some j ↔ w.found k = true ∧ k = j := by
  rw [findPtr]
  split <;> simp_all

/-- **A reference that is honoured finds what its key finds.** -/
theorem findPtr_of_deref (h : w.Names k s)
    (hs : s.bind w.derefVertexSlot = some j) : w.findPtr k = some j := by
  obtain ⟨e, he, hderef⟩ := Option.bind_eq_some_iff.mp hs
  obtain ⟨hslot, -, -, hfound⟩ := derefVertexSlot_eq_some.mp hderef
  obtain rfl : k = j := Option.some.inj ((h e he).symm.trans hslot)
  exact findPtr_eq_some.mpr ⟨hfound, rfl⟩

theorem resolve_eq {p : PathObject} (h : w.Names p.key p.element0) :
    (w.resolve p).1 = w.findPtr p.key ∧ (w.resolve p).2.key = p.key ∧
      w.Names p.key (w.resolve p).2.element0 := by
  fun_cases resolve w p
  case case1 k hk => exact ⟨(findPtr_of_deref h hk).symm, rfl, h⟩
  case case2 hmiss => exact ⟨hmiss.symm, rfl, .none w p.key⟩
  case case3 k hfind =>
    obtain ⟨-, rfl⟩ := findPtr_eq_some.mp hfind
    exact ⟨hfind.symm, rfl, names_vertexSlot w p.key⟩

theorem names_bindTarget (w : Wiring) (k : Key) : w.Names k (w.bindTarget k).binding := by
  intro e he
  obtain ⟨j, hfind, hslot⟩ := Option.bind_eq_some_iff.mp (Option.mem_def.mp he)
  obtain ⟨-, rfl⟩ := findPtr_eq_some.mp hfind
  exact names_vertexSlot w k e hslot

theorem dispatchTarget_eq {e : BoundEdge} (h : w.Names e.targetKey e.binding) :
    w.dispatchTarget e = w.findPtr e.targetKey := by
  fun_cases dispatchTarget w e
  case case1 k hk => exact (findPtr_of_deref h hk).symm
  case case2 => rfl

end Wiring

/-! ## Histories -/

/-- A graph, the path objects of its users and the bindings its edges hold. -/
structure Refs where
  graph : State
  objects : List PathObject := []
  edges : List BoundEdge := []

inductive RefOp where
  | graph (ev : Event)
  /-- `make_path` -/
  | makePath (k : Key)
  /-- A door resolves the `i`th object. -/
  | resolve (i : Nat)
  /-- `write` has created the vertex of the `i`th object, which takes its slot. -/
  | created (i : Nat)
  /-- `retire` through the `i`th object, which forgets its element. -/
  | forget (i : Nat)
  /-- `admit_subscriber` binds a local target. -/
  | bind (targetKey : Key)

namespace Refs

open Wiring List

def step (policy : AclPolicy) (r : Refs) : RefOp → Refs
  | .graph ev => { r with graph := (r.graph.step policy ev).1 }
  | .makePath k => { r with objects := r.objects ++ [{ key := k }] }
  | .resolve i => { r with objects := r.objects.modify i fun p => (r.graph.wiring.resolve p).2 }
  | .created i =>
    { r with objects := r.objects.modify i fun p =>
      { p with element0 := r.graph.wiring.vertexSlot p.key } }
  | .forget i => { r with objects := r.objects.modify i fun p => { p with element0 := none } }
  | .bind k => { r with edges := r.edges ++ [r.graph.wiring.bindTarget k] }

def machine (policy : AclPolicy) : Machine Refs RefOp Unit where
  start := ⟨(State.machine policy).start, [], []⟩
  step r op := (r.step policy op, ())

/-- Every reference that is kept names the slot of its key's vertex. -/
structure Rooted (policy : AclPolicy) (r : Refs) : Prop where
  reachable : (State.machine policy).Reachable r.graph
  objects : ∀ p ∈ r.objects, r.graph.wiring.Names p.key p.element0
  edges : ∀ e ∈ r.edges, r.graph.wiring.Names e.targetKey e.binding

variable {policy : AclPolicy}

theorem rooted_modify {ps : List PathObject} {f : PathObject → PathObject} (i : Nat)
    (h : ∀ p ∈ ps, w.Names p.key p.element0)
    (hf : ∀ p, w.Names p.key p.element0 → w.Names (f p).key (f p).element0) :
    ∀ p ∈ ps.modify i f, w.Names p.key p.element0 := by
  induction ps generalizing i with
  | nil => simp
  | cons p ps ih =>
    rw [forall_mem_cons] at h
    cases i with
    | zero => simpa using ⟨hf p h.1, h.2⟩
    | succ i => simpa using ⟨h.1, ih i h.2⟩

theorem Rooted.step {r : Refs} (h : Rooted policy r) (op : RefOp) : Rooted policy (r.step policy op) := by
  cases op with
  | graph ev =>
    have hstay := (State.ages_step h.reachable ev).slots
    exact ⟨h.reachable.step ev, fun p hp => (h.objects p hp).stay hstay,
      fun e he => (h.edges e he).stay hstay⟩
  | makePath k =>
    exact ⟨h.reachable, forall_mem_append.mpr ⟨h.objects, forall_mem_singleton.mpr (.none _ k)⟩, h.edges⟩
  | resolve i =>
    refine ⟨h.reachable, rooted_modify i h.objects fun p hp => ?_, h.edges⟩
    obtain ⟨-, hkey, hnames⟩ := resolve_eq (w := r.graph.wiring) hp
    show r.graph.wiring.Names _ _
    rw [hkey]
    exact hnames
  | created i =>
    exact ⟨h.reachable, rooted_modify i h.objects fun p _ => names_vertexSlot _ p.key, h.edges⟩
  | forget i => exact ⟨h.reachable, rooted_modify i h.objects fun p _ => .none _ p.key, h.edges⟩
  | bind k =>
    refine ⟨h.reachable, h.objects, fun e he => ?_⟩
    rcases mem_append.mp he with he | he
    · exact h.edges e he
    · rw [mem_singleton.mp he]
      exact names_bindTarget _ k

theorem rooted_run (ops : List RefOp) : Rooted policy ((machine policy).run ops) := by
  have hstart : Rooted policy (machine policy).start :=
    ⟨.start, forall_mem_nil _, forall_mem_nil _⟩
  exact (machine policy).invariant (P := Rooted policy) hstart (fun _ op h => h.step op)
    ((machine policy).reachable_run ops)

/-- **After any history a cached reference finds what the key finds**: a path object resolves to the
vertex, or the miss, of its key, and a delivery over a bound edge stores where its target key says. -/
theorem cached_eq_canonical (policy : AclPolicy) (ops : List RefOp) :
    (∀ p ∈ ((machine policy).run ops).objects, (((machine policy).run ops).graph.wiring.resolve p).1 =
        ((machine policy).run ops).graph.wiring.findPtr p.key) ∧ ∀ e ∈ ((machine policy).run ops).edges,
      ((machine policy).run ops).graph.wiring.dispatchTarget e =
        ((machine policy).run ops).graph.wiring.findPtr e.targetKey :=
  ⟨fun p hp => (resolve_eq ((rooted_run ops).objects p hp)).1,
    fun e he => dispatchTarget_eq ((rooted_run ops).edges e he)⟩

end Refs

end LibTracer.Graph
