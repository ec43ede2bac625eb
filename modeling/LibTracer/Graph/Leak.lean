import LibTracer.Graph.Runs

/-!
# What a subscription discloses

A remote caller subscribes to a vertex with `READ` on that vertex, and from then on is handed the
values of everything below it.  A composed read of the same vertex leaves out every subtree its
caller may not read; the delivery path does not ask.

* **`keepsRead_iff`** — exactly when nobody is handed what they may not read.
-/

namespace LibTracer.Graph

open Wire List

/-! ## The composed read -/

namespace Plane

variable (p : Plane)

/-- `for_each_child`, in key order. -/
def children (k : Key) : List Key := p.wiring.known.filter fun j => j ≠ [] ∧ j.tail = k

/-- The children a composed read descends to: members of the enumeration its caller may read. -/
def members (caller : Name) (k : Key) : List Key :=
  (p.children k).filter fun c => p.found c && !(p.vertex c).enumHidden && p.allows c caller .READ

def composed (s : Store) (caller : Name) : Nat → Key → Fold
  | 0, k => .node k ((s.lkv k).map Ref.value) []
  | levels + 1, k =>
    .node k ((s.lkv k).map Ref.value) ((p.members caller k).map (composed s caller levels))

def depth : Nat := (p.wiring.known.map List.length).foldr max 0

/-- `read_subtree_folded`: the root is gated and carries no name. -/
def readSubtreeFolded (k : Key) (caller : Name) (s : Store) : Except Status Frame :=
  if !p.allows k caller .READ then .error .PERMISSION_DENIED
  else .ok (.fold false (p.composed s caller p.depth k))

variable {p} {k : Key} {caller : Name}

theorem length_le_depth (h : k ∈ p.wiring.known) : k.length ≤ p.depth := by
  have hmax : ∀ ks : List Key, k ∈ ks → k.length ≤ (ks.map List.length).foldr max 0 := by
    intro ks
    induction ks with
    | nil => exact fun h => nomatch h
    | cons j ks ih =>
      intro h
      rw [map_cons, foldr_cons]
      rcases mem_cons.mp h with rfl | h
      · exact Nat.le_max_left _ _
      · exact (ih h).trans (Nat.le_max_right _ _)
  exact hmax _ h

theorem mem_children {c : Key} (h : c ∈ p.children k) : c ∈ p.wiring.known ∧ c.length = k.length + 1 := by
  obtain ⟨hc, hkey⟩ := mem_filter.mp h
  obtain ⟨hne, rfl⟩ := of_decide_eq_true hkey
  refine ⟨hc, ?_⟩
  cases c with
  | nil => exact absurd rfl hne
  | cons n q => rfl

theorem composed_enough (s : Store) (caller : Name) (levels : Nat) (k : Key)
    (h : p.depth ≤ k.length + levels) :
    p.composed s caller (levels + 1) k = p.composed s caller levels k := by
  induction levels generalizing k with
  | zero =>
    have hnone : p.members caller k = [] := by
      refine eq_nil_iff_forall_not_mem.mpr fun c hc => ?_
      obtain ⟨hknown, hlen⟩ := mem_children (mem_filter.mp hc).1
      have := length_le_depth hknown
      omega
    simp only [composed, hnone, map_nil]
  | succ levels ih =>
    rw [composed, composed]
    refine congrArg _ (map_congr_left fun c hc => ih c ?_)
    have := (mem_children (mem_filter.mp hc).1).2
    omega

/-- The caller may read the vertex `u` and every level from `k` down to it. -/
def ReadableFrom (p : Plane) (caller : Name) (k u : Key) : Prop :=
  k <:+ u ∧ ∀ j, k <:+ j → j <:+ u → p.allows j caller .READ = true

theorem readableFrom_self (hk : p.allows k caller .READ = true) : p.ReadableFrom caller k k := by
  refine ⟨suffix_refl k, fun j hkj hjk => ?_⟩
  rw [hjk.eq_of_length_le hkj.length_le]
  exact hk

end Plane

/-! ## What deliveries disclose -/

namespace State

def MayRead (policy : AclPolicy) (lookup : SubjectLookup) (g : State) (caller : Name) (u : Key) :
    Prop :=
  reference policy lookup g.wiring.acl u caller .READ = true

instance (policy : AclPolicy) (lookup : SubjectLookup) (g : State) (caller : Name) (u : Key) :
    Decidable (MayRead policy lookup g caller u) :=
  inferInstanceAs (Decidable (_ = true))

/-- No operation hands a remote caller a value below the subscribed vertex that the caller may not
read. -/
def KeepsRead (policy : AclPolicy) (lookup : SubjectLookup) (g : State) : Prop :=
  ∀ ev : Event, ev.env.lookup = lookup → ∀ d ∈ (g.step policy ev).2.sent, d.edge.caller ≠ [] →
    ∀ c ∈ d.frame.carried, Under d.point c.1 → MayRead policy lookup g d.edge.caller c.1

def Reaches (policy : AclPolicy) (lookup : SubjectLookup) (g : State) (e : Edge) : Prop :=
  e.callback = true ∨ e.hasRemoteLeg = true ∨
    ∃ t, e.targetKey = some t ∧ g.wiring.found t = true ∧
      reference policy lookup g.wiring.acl t e.caller .WRITE = true

/-- Every remote caller with an edge that delivers may read everything registered below it. -/
def ReadsBelow (policy : AclPolicy) (lookup : SubjectLookup) (g : State) : Prop :=
  ∀ v e u, e ∈ (g.wiring.vertex v).snapshotEdges → e.caller ≠ [] → Reaches policy lookup g e →
    Under v u → g.wiring.found u = true → MayRead policy lookup g e.caller u

variable {policy : AclPolicy} {lookup : SubjectLookup} {g : State} {e : Edge}

theorem Reaches.of_legOpen {env : Env} {leg : Leg}
    (h : (g.plane policy env).LegOpen e leg) : Reaches policy env.lookup g e := by
  cases leg with
  | callback => exact Or.inl h
  | target t => exact Or.inr (Or.inr ⟨t, h⟩)
  | remote => exact Or.inr (Or.inl h.1)

def openEnv (lookup : SubjectLookup) (hsettled : lookup ≠ .unsettled) : Env where
  lookup := lookup
  settled := hsettled

section

variable (hsettled : lookup ≠ .unsettled)
include hsettled

theorem accepting_openEnv : (openEnv lookup hsettled).Accepting :=
  ⟨fun _ _ _ => rfl, fun _ _ _ => rfl⟩

theorem Reaches.legOpen (h : Reaches policy lookup g e) :
    ∃ leg, (g.plane policy (openEnv lookup hsettled)).LegOpen e leg := by
  rcases h with h | h | ⟨t, h⟩
  · exact ⟨.callback, h⟩
  · exact ⟨.remote, h, rfl⟩
  · exact ⟨.target t, h⟩

theorem reference_owner (a : AclSpec) (k : Key) (right : AclRight) :
    reference policy lookup a k [] right = true := by
  cases lookup with
  | unsettled => exact absurd rfl hsettled
  | notInstalled | cleared | resolver => rfl

end

def sample : Tlv := .mk VALUE {} [] [] none

/-- **Deliveries keep within `READ` exactly if every remote subscriber may read its whole
subtree.** -/
theorem keepsRead_iff (hg : (machine policy).Reachable g) (hsettled : lookup ≠ .unsettled) :
    KeepsRead policy lookup g ↔ ReadsBelow policy lookup g := by
  constructor
  · intro hkeep v e u he hcaller hreach hvu hu
    obtain ⟨leg, hleg⟩ := hreach.legOpen hsettled
    have hcount := counted_of_reachable hg
    -- the owner writes at `u`, which bubbles to the edge at `v`
    have hsent := Plane.write_reaches (p := g.plane policy (openEnv lookup hsettled))
      (accepting_openEnv hsettled) hcount.toTallied (hcount.allocated u hu) hvu he hleg
      (reference_owner hsettled _ u .WRITE) (show sample.type = VALUE from rfl) g.store
    have hstep : (g.step policy ⟨openEnv lookup hsettled, .write u sample []⟩).2.sent =
        ((g.plane policy (openEnv lookup hsettled)).write u sample [] g.store).sent := by
      simp only [step, atVertex, hu, if_true, ran]
    exact hkeep ⟨openEnv lookup hsettled, .write u sample []⟩ rfl _ (hstep ▸ hsent) hcaller
      (u, sample) (mem_singleton.mpr rfl) hvu
  · rintro hbelow ev rfl d hd hcaller c hc hunder
    rcases step_sound policy g ev d hd with hdel | hown
    · exact hbelow d.point d.edge c.1 hdel.edge hcaller (.of_legOpen hdel.leg) hunder
        (hdel.carried c hc)
    · rw [hown c hc] at hunder
      exact absurd hunder (not_under_self _)

/-! ### A subscriber that may not read below -/

def named : SubjectLookup := .resolver fun c => if c.isEmpty then none else some (c, 0)

def namedEnv : Env := openEnv named (by simp [named])

def alice : Name := "alice".toList

/-- The vertex `/a`, that `alice` may read. -/
def parentKey : Key := ["a".toList]

/-- The vertex `/a/b`, that only `bob` may read. -/
def childKey : Key := "b".toList :: parentKey

/-- The two vertices with their `:acl` lists, and the remote subscription of `alice` at `/a`. -/
def subscribed : List Event :=
  [.register parentKey .STORED_VALUE true {}, .register childKey .STORED_VALUE true {},
    .writeAcl parentKey [{ subject := alice, accessMask := 1 }] [],
    .writeAcl childKey [{ subject := "bob".toList, accessMask := 1 }] [],
    .subscribeWire parentKey
      { record := { targetKey := none }, returnRoute := [6, 0, 0, 0], link := "l".toList
        caller := alice, pair := some { conn := 1 } }].map (Event.mk namedEnv)

def otherKey : Key := ["c".toList]

/-- Then `alice` may read `/a/b` too, and there is `/c`, that only `bob` may read. -/
def opened : List Event :=
  subscribed ++ [.writeAcl childKey [{ subject := alice, accessMask := 1 }] [],
    .register otherKey .STORED_VALUE true {},
    .writeAcl otherKey [{ subject := "bob".toList, accessMask := 1 }] []].map (Event.mk namedEnv)

/-- A subscriber that may not read everything, and may read all below its subscription. -/
theorem keepsRead_of_opened :
    let g := (machine .allowOnly).run opened
    ¬ MayRead .allowOnly named g alice otherKey ∧ KeepsRead .allowOnly named g := by
  intro g
  have hg := (machine .allowOnly).reachable_run opened
  have hmay : ∀ u ∈ g.wiring.known, ∀ v ∈ u.tails, ∀ e ∈ (g.wiring.vertex v).snapshotEdges,
      MayRead .allowOnly named g e.caller u := by
    decide +kernel
  refine ⟨by decide +kernel, (keepsRead_iff hg (by simp [named])).mpr ?_⟩
  intro v e u he _ _ hvu hu
  exact hmay u ((counted_of_reachable hg).allocated u hu) v ((mem_tails v u).mpr hvu.1) e he

/-- `alice` may read `/a` and not `/a/b`; the owner's write at `/a/b` is delivered to `alice`, while
a composed read of `/a` leaves it out. -/
theorem delivered_unreadable :
    let g := (machine .allowOnly).run subscribed
    let after := g.step .allowOnly ⟨namedEnv, .write childKey sample []⟩
    MayRead .allowOnly named g alice parentKey ∧ ¬ MayRead .allowOnly named g alice childKey ∧
      (∃ d ∈ after.2.sent, d.point = parentKey ∧ d.edge.caller = alice ∧
        (childKey, sample) ∈ d.frame.carried) ∧
      ∃ f, (after.1.plane .allowOnly namedEnv).readSubtreeFolded parentKey alice after.1.store =
          .ok f ∧ ∀ c ∈ f.carried, c.1 ≠ childKey := by
  refine ⟨by decide +kernel, by decide +kernel, ⟨_, mem_singleton.mpr rfl, rfl, rfl, ?_⟩,
    ⟨_, rfl, by decide +kernel⟩⟩
  exact mem_singleton.mpr rfl

end State

end LibTracer.Graph
