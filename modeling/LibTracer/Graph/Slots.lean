import LibTracer.Graph.Runs

/-!
# Slot references

A node refers to its own vertices by slot and generation.  A retirement moves the generation on, so
that a reference given out before is not taken for the next tenant of the address; a revival does
not.  At the generation's ceiling no reference is given out or taken.

* **`slots_keep_tenancy`** — a reference is only honoured for the tenant it was given out for.
-/

namespace LibTracer.Graph

open List

/-! ## Giving out references and taking them -/

structure VertexSlot where
  index : Nat
  generation : BitVec 32
  deriving DecidableEq, Repr

namespace Wiring

/-- `bound_generation_matches`: a saturated reference matches nothing. -/
def boundGenerationMatches (slotGen elementGen : BitVec 32) : Bool :=
  elementGen != kGenerationSaturated && elementGen == slotGen

/-- `vertex_slot`: the slot of a vertex, by the memo or by the scan. -/
def vertexSlot (w : Wiring) (k : Key) : Option VertexSlot :=
  let gen := (w.vertex k).retireGen
  if gen = kGenerationSaturated then none
  else (w.slotTable.idxOf? k).map fun index => ⟨index, gen⟩

/-- `vertex_slot_at`: the reference to the tenant of a slot. -/
def vertexSlotAt (w : Wiring) (index : Nat) : Option VertexSlot :=
  match w.slotTable[index]? with
  | none => none
  | some k =>
    let gen := (w.vertex k).retireGen
    if gen = kGenerationSaturated then none
    else if !w.found k then none
    else some ⟨index, gen⟩

def derefVertexSlot (w : Wiring) (s : VertexSlot) : Option Key :=
  match w.slotTable[s.index]? with
  | none => none
  | some k =>
    if !boundGenerationMatches (w.vertex k).retireGen s.generation then none
    else if !w.found k then none
    else some k

variable {w : Wiring} {k : Key} {s : VertexSlot}

theorem vertexSlot_spec (h : w.vertexSlot k = some s) :
    w.slotTable[s.index]? = some k ∧ s.generation = (w.vertex k).retireGen ∧
      s.generation ≠ kGenerationSaturated := by
  unfold vertexSlot at h
  dsimp only at h
  split at h
  · cases h
  next hsat =>
  obtain ⟨i, hi, rfl⟩ := Option.map_eq_some_iff.mp h
  refine ⟨?_, rfl, hsat⟩
  obtain ⟨hlt, hbeq, -⟩ := List.findIdx?_eq_some_iff_getElem.mp hi
  exact List.getElem?_eq_some_iff.mpr ⟨hlt, by simpa using hbeq⟩

theorem vertexSlotAt_spec {index : Nat} (h : w.vertexSlotAt index = some s) :
    ∃ k, w.slotTable[s.index]? = some k ∧ s.generation = (w.vertex k).retireGen ∧
      s.generation ≠ kGenerationSaturated ∧ w.found k = true := by
  unfold vertexSlotAt at h
  split at h
  · cases h
  next k hk =>
  dsimp only at h
  split at h
  · cases h
  next hsat =>
  split at h
  · cases h
  next hfound =>
    cases h
    exact ⟨k, hk, rfl, hsat, by simpa using hfound⟩

theorem derefVertexSlot_eq_some : w.derefVertexSlot s = some k ↔
      w.slotTable[s.index]? = some k ∧ s.generation = (w.vertex k).retireGen ∧
        s.generation ≠ kGenerationSaturated ∧ w.found k = true := by
  unfold derefVertexSlot
  cases w.slotTable[s.index]? with
  | none => simp
  | some j =>
    by_cases hjk : j = k
    · subst hjk
      simp only [boundGenerationMatches]
      grind
    · simp [hjk]

/-! ## Generations -/

theorem lt_saturatingNextGeneration {g : BitVec 32} (h : g ≠ kGenerationSaturated) :
    g.toNat < (saturatingNextGeneration g).toNat := by
  have hmax : g.toNat ≠ 2 ^ 32 - 1 := fun e => h (BitVec.eq_of_toNat_eq e)
  have hone : (1 : BitVec 32).toNat = 1 := rfl
  rw [saturatingNextGeneration, if_neg h, BitVec.toNat_add, hone]
  omega

theorem le_saturatingNextGeneration (g : BitVec 32) : g.toNat ≤ (saturatingNextGeneration g).toNat := by
  by_cases h : g = kGenerationSaturated
  · rw [saturatingNextGeneration, if_pos h]
  · exact Nat.le_of_lt (lt_saturatingNextGeneration h)

theorem retireOne_retireGen (w : Wiring) (k j : Key) : ((w.retireOne k).vertex j).retireGen =
      if j = k then saturatingNextGeneration (w.vertex j).retireGen else (w.vertex j).retireGen := by
  unfold retireOne bumpSubtreeListeners
  by_cases hj : j = k
  · subst hj
    simp [not_under_self]
  · simp only [modify_vertex, Function.update_of_ne hj, if_neg hj]
    split <;> rfl

theorem foldl_retireOne_retireGen (ks : List Key) (w : Wiring) (j : Key) :
    (j ∉ ks → ((ks.foldl retireOne w).vertex j).retireGen = (w.vertex j).retireGen) ∧
      (j ∈ ks → (saturatingNextGeneration (w.vertex j).retireGen).toNat ≤
        ((ks.foldl retireOne w).vertex j).retireGen.toNat) := by
  induction ks generalizing w with
  | nil => exact ⟨fun _ => rfl, fun h => nomatch h⟩
  | cons k ks ih =>
    obtain ⟨hout, hin⟩ := ih (w.retireOne k)
    rw [retireOne_retireGen] at hout hin
    refine ⟨fun hj => ?_, fun hj => ?_⟩
    · obtain ⟨hjk, hjs⟩ := not_or.mp (fun h => hj (mem_cons.mpr h))
      exact (hout hjs).trans (if_neg hjk)
    · by_cases hjs : j ∈ ks
      · refine le_trans ?_ (hin hjs)
        split
        · exact le_saturatingNextGeneration _
        · exact le_rfl
      obtain rfl := (mem_cons.mp hj).resolve_right hjs
      rw [if_pos rfl] at hout
      exact (congrArg BitVec.toNat (hout hjs)).ge

/-! ## What an operation does to a tenancy -/

def SlotsStay (w w' : Wiring) : Prop :=
  ∀ (i : Nat) (k : Key), w.slotTable[i]? = some k → w'.slotTable[i]? = some k

variable {w' : Wiring}

theorem SlotsStay.trans {w'' : Wiring} (h : SlotsStay w w') (h' : SlotsStay w' w'') : SlotsStay w w'' :=
  fun i k hk => h' i k (h i k hk)

theorem slotsStay_of_eq (h : w'.slotTable = w.slotTable) : SlotsStay w w' :=
  fun _ _ hk => h ▸ hk

/-- What one operation can do to slots, generations and registrations: slots stay, generations move
forward, and a tenant is only lost with its generation. -/
structure Ages (w w' : Wiring) : Prop where
  slots : SlotsStay w w'
  gen : ∀ k, (w.vertex k).retireGen.toNat ≤ (w'.vertex k).retireGen.toNat
  tenant : ∀ k, w.found k = true → (w'.vertex k).retireGen = (w.vertex k).retireGen →
    (w.vertex k).retireGen ≠ kGenerationSaturated → w'.found k = true

theorem Settled.ages (h : Settled w w') : Ages w w' where
  slots := slotsStay_of_eq h.slotTable
  gen k := (congrArg BitVec.toNat (h.retireGen k)).ge
  tenant k hk _ _ := by rwa [found, h.acl]

def Unborn (w : Wiring) : Prop := ∀ k, k ∉ w.known → (w.vertex k).retireGen = 0

theorem ensure_spec (h : Unborn w) (k : Key) :
    (∀ j, ((w.ensure k).vertex j).retireGen = (w.vertex j).retireGen) ∧ SlotsStay w (w.ensure k) := by
  induction k with
  | nil => exact ⟨fun _ => rfl, fun _ _ hk => hk⟩
  | cons n p ih =>
    obtain ⟨hgen, hslots⟩ := ih
    rw [ensure]
    split
    · exact ⟨hgen, hslots⟩
    next hnew =>
    refine ⟨fun j => ?_, fun i j hj => ?_⟩
    swap
    · have hj' := hslots i j hj
      exact (List.getElem?_append_left (List.getElem?_eq_some_iff.mp hj').1).trans hj'
    by_cases hj : j = n :: p
    · subst hj
      have hold : n :: p ∉ w.known := fun hin => hnew (subset_known_ensure w p hin)
      simp only [makePlaceholder, Function.update_self]
      exact (h _ hold).symm
    · exact (congrArg Vertex.retireGen (Function.update_of_ne hj _ _)).trans (hgen j)

theorem register_spec (h : Unborn w) {role : Role} {deliverWritten : Bool}
    {pol : Policy} (hw : w.register k role deliverWritten pol = .ok w') :
    (∀ j, (w'.vertex j).retireGen = (w.vertex j).retireGen) ∧ SlotsStay w w' ∧
      (∀ j, w'.found j = if j = k then true else w.found j) ∧ w.known ⊆ w'.known := by
  unfold register at hw
  split at hw
  · cases hw
  split at hw
  · cases hw
  cases hw
  obtain ⟨hgen, hslots⟩ := ensure_spec h k
  have hpol := (settled_applyPolicy (w.ensure k) k role pol (defaultRetention role)).trans
    (settled_modify (k := k) (f := fun v => { v with role, deliverWritten }) rfl)
  refine ⟨fun j => (hpol.retireGen j).trans (hgen j),
    hslots.trans (slotsStay_of_eq hpol.slotTable), fun j => ?_,
    hpol.known ▸ subset_known_ensure w k⟩
  rw [found, found, ← ensure_acl w k, ← hpol.acl]
  exact Function.update_apply ..

theorem retireSubtree_spec (w : Wiring) (k j : Key) :
    (w.retireSubtree k).found j = (if k <:+ j then false else w.found j) ∧ (j ∈ w.known ∧ k <:+ j →
        (saturatingNextGeneration (w.vertex j).retireGen).toNat ≤
          ((w.retireSubtree k).vertex j).retireGen.toNat) ∧ (¬ (j ∈ w.known ∧ k <:+ j) →
        ((w.retireSubtree k).vertex j).retireGen = (w.vertex j).retireGen) := by
  obtain ⟨hout, hin⟩ := foldl_retireOne_retireGen (w.known.filter (k <:+ ·))
    { w with acl := (w.acl.step (.retire k)).1 } j
  simp only [mem_filter, decide_eq_true_eq] at hout hin
  refine ⟨?_, hin, hout⟩
  rw [found, retireSubtree_acl]
  rfl

theorem retireSubtree_slotTable (w : Wiring) (k : Key) : (w.retireSubtree k).slotTable = w.slotTable :=
  foldl_retireOne_keeps Wiring.slotTable (fun _ _ => rfl) _ _

/-- **What an operation does to a tenancy.** -/
theorem ages_control {op : Op} {x x' : LinkIndex Key} (h : Unborn w)
    (halloc : ∀ k, w.found k = true → k ∈ w.known) (hc : Control op w x w' x') :
    Ages w w' ∧ Unborn w' := by
  have hsettled : ∀ {w'}, Settled w w' → Ages w w' ∧ Unborn w' := fun hs =>
    ⟨hs.ages, fun k hk => (hs.retireGen k).trans (h k (hs.known ▸ hk))⟩
  cases hc with
  | keep | index | intern | compact => exact hsettled (.refl w)
  | register hw =>
    obtain ⟨hgen, hslots, hfound, hknown⟩ := register_spec h hw
    refine ⟨⟨hslots, fun k => (congrArg BitVec.toNat (hgen k)).ge, fun k hk _ _ => ?_⟩,
      fun k hk => (hgen k).trans (h k fun hin => hk (hknown hin))⟩
    rw [hfound]
    split
    · rfl
    · exact hk
  | retire k =>
    refine ⟨⟨slotsStay_of_eq (retireSubtree_slotTable w k), fun j => ?_,
      fun j hj hgen hsat => ?_⟩, fun j hj => ?_⟩
    · obtain ⟨-, hin, hout⟩ := retireSubtree_spec w k j
      by_cases hmem : j ∈ w.known ∧ k <:+ j
      · exact (le_saturatingNextGeneration _).trans (hin hmem)
      · exact (congrArg BitVec.toNat (hout hmem)).ge
    · obtain ⟨hfound, hin, -⟩ := retireSubtree_spec w k j
      by_cases hsub : k <:+ j
      · -- the tenant is gone, and the generation with it
        have hnext := hin ⟨halloc j hj, hsub⟩
        rw [hgen] at hnext
        exact absurd hnext (Nat.not_le_of_lt (lt_saturatingNextGeneration hsat))
      · rw [hfound, if_neg hsub, hj]
    · obtain ⟨-, -, hout⟩ := retireSubtree_spec w k j
      rw [retireSubtree_known] at hj
      exact (hout fun hmem => hj hmem.1).trans (h j hj)
  | writeAcl k aces => exact ⟨⟨fun _ _ hk => hk, fun _ => le_rfl, fun _ hk _ _ => hk⟩, h⟩
  | setPolicy k role pol r => exact hsettled (settled_applyPolicy w k role pol r)
  | hide k hidden => exact hsettled (settled_modify rfl)
  | add hop token k => exact hsettled (resubscribed_addEdge w k _).settled
  | replace hop token hw => exact hsettled (resubscribed_replaceEdge hw).settled
  | clear hw => exact hsettled (resubscribed_clearSubscriberSlot hw).settled
  | suspend hw => exact hsettled (resubscribed_setSuspended hw).settled
  | evictLink | evictRoute => exact hsettled (resubscribed_evictEdges w _ _).settled

end Wiring

/-! ## Tenancies over whole runs -/

namespace State

open Wiring

variable {policy : AclPolicy} {g : State} {k : Key}

section

variable (hg : (machine policy).Reachable g)
include hg

theorem unborn_of_reachable : Unborn g.wiring := by
  refine ((machine policy).invariant (P := fun g => Unborn g.wiring ∧ Counted g.wiring)
    ⟨fun _ _ => rfl, ?_⟩ (fun g ev hg => ?_) hg).1
  · exact counted_of_reachable (.start : (machine policy).Reachable _)
  · have hc := step_control policy g ev
    exact ⟨(ages_control hg.1 hg.2.allocated hc).2, hg.2.control hc⟩

theorem ages_step (ev : Event) : Ages g.wiring (g.step policy ev).1.wiring :=
  (ages_control (unborn_of_reachable hg) (counted_of_reachable hg).allocated
    (step_control policy g ev)).1

theorem ages_run (evs : List Event) :
    SlotsStay g.wiring ((machine policy).runFrom g evs).wiring ∧ ∀ k, (g.wiring.vertex k).retireGen.toNat ≤
        (((machine policy).runFrom g evs).wiring.vertex k).retireGen.toNat := by
  induction evs generalizing g with
  | nil => exact ⟨fun _ _ hk => hk, fun _ => le_rfl⟩
  | cons ev evs ih =>
    have hstep := ages_step hg ev
    obtain ⟨hslots, hgen⟩ := ih (hg.step ev)
    exact ⟨hstep.slots.trans hslots, fun k => (hstep.gen k).trans (hgen k)⟩

end

def RegisteredAlong (policy : AclPolicy) (g : State) (evs : List Event) (k : Key) : Prop :=
  ∀ past, past <+: evs → ((machine policy).runFrom g past).wiring.found k = true

/-- **A generation that did not move was never left by its tenant.** -/
theorem tenancy_run (hg : (machine policy).Reachable g) (evs : List Event)
    (hk : g.wiring.found k = true) (hsat : (g.wiring.vertex k).retireGen ≠ kGenerationSaturated)
    (hgen : (((machine policy).runFrom g evs).wiring.vertex k).retireGen =
      (g.wiring.vertex k).retireGen) : RegisteredAlong policy g evs k := by
  induction evs generalizing g with
  | nil =>
    intro past hpast
    rwa [prefix_nil.mp hpast]
  | cons ev evs ih =>
    have hstep := ages_step hg ev
    have hrest := (ages_run (hg.step ev) evs).2 k
    -- the generation is caught between two equal ends
    have hsame : ((g.step policy ev).1.wiring.vertex k).retireGen =
        (g.wiring.vertex k).retireGen :=
      BitVec.eq_of_toNat_eq
        (Nat.le_antisymm (hrest.trans (congrArg BitVec.toNat hgen).le) (hstep.gen k))
    have htail := ih (hg.step ev) (hstep.tenant k hk hsame hsat) (hsame ▸ hsat)
      (hgen.trans hsame.symm)
    intro past hpast
    cases past with
    | nil => exact hk
    | cons ev' past =>
      obtain ⟨rfl, htailPast⟩ := cons_prefix_cons.mp hpast
      exact htail past htailPast

/-- A reference is honoured, after any run, only for a vertex that was registered all along. -/
def KeepsTenancy (policy : AclPolicy) (g : State) (s : VertexSlot) : Prop :=
  ∀ evs k, ((machine policy).runFrom g evs).wiring.derefVertexSlot s = some k →
    RegisteredAlong policy g evs k

variable {s : VertexSlot}

theorem keepsTenancy_of_tenant (hg : (machine policy).Reachable g)
    (hslot : g.wiring.slotTable[s.index]? = some k)
    (hgen : s.generation = (g.wiring.vertex k).retireGen) (hk : g.wiring.found k = true) :
    KeepsTenancy policy g s := by
  intro evs j hj
  obtain ⟨hslot', hgen', hsat, -⟩ := derefVertexSlot_eq_some.mp hj
  obtain rfl : k = j :=
    Option.some.inj (((ages_run hg evs).1 _ _ hslot).symm.trans hslot')
  exact tenancy_run hg evs hk (hgen ▸ hsat) (hgen'.symm.trans hgen)

theorem not_keepsTenancy (hg : (machine policy).Reachable g)
    (hs : g.wiring.vertexSlot k = some s) (hk : g.wiring.found k = false) : ¬ KeepsTenancy policy g s := by
  obtain ⟨hslot, hgen, hsat⟩ := vertexSlot_spec hs
  obtain ⟨w', hw⟩ : ∃ w', g.wiring.register k .STORED_VALUE true {} = .ok w' := by
    have hnew : ((g.wiring.ensure k).found k) = false := by rwa [found, ensure_acl]
    exact ⟨_, by rw [register, if_neg (by decide), if_neg (by simp [hnew])]⟩
  obtain ⟨hsame, hslots, hfound, -⟩ := register_spec (unborn_of_reachable hg) hw
  let revival : Event :=
    ⟨{ lookup := .notInstalled, settled := by simp }, .register k .STORED_VALUE true {}⟩
  have hrun : ((machine policy).runFrom g [revival]).wiring = w' := by
    simp only [Machine.runFrom, machine, step, revival, hw]
  intro hkeep
  -- the revival moved no generation, so the reference is honoured
  have hhonoured : ((machine policy).runFrom g [revival]).wiring.derefVertexSlot s = some k := by
    rw [hrun]
    exact derefVertexSlot_eq_some.mpr ⟨hslots _ _ hslot, hgen.trans (hsame k).symm, hsat, by
      rw [hfound, if_pos rfl]⟩
  have hreg := hkeep [revival] k hhonoured [] nil_prefix
  cases hreg.symm.trans hk

/-- **References keep to tenancies exactly if they were given out to tenants.**  `vertex_slot_at`
asks for one; a reference by `vertex_slot` is safe exactly if the vertex was registered. -/
theorem slots_keep_tenancy (hg : (machine policy).Reachable g) :
    (∀ index s, g.wiring.vertexSlotAt index = some s → KeepsTenancy policy g s) ∧
      ∀ k s, g.wiring.vertexSlot k = some s → (KeepsTenancy policy g s ↔ g.wiring.found k = true) := by
  constructor
  · intro index s hs
    obtain ⟨k, hslot, hgen, -, hk⟩ := vertexSlotAt_spec hs
    exact keepsTenancy_of_tenant hg hslot hgen hk
  · intro k s hs
    obtain ⟨hslot, hgen, -⟩ := vertexSlot_spec hs
    refine ⟨fun hkeep => ?_, keepsTenancy_of_tenant hg hslot hgen⟩
    by_contra hk
    exact not_keepsTenancy hg hs (eq_false_of_ne_true hk) hkeep

theorem settled_notInstalled : SubjectLookup.notInstalled ≠ .unsettled := by simp

/-- The life of `/a`. -/
def registered : Event :=
  ⟨{ lookup := .notInstalled, settled := settled_notInstalled },
    .register ["a".toList] .STORED_VALUE true {}⟩

def retired : Event :=
  ⟨{ lookup := .notInstalled, settled := settled_notInstalled }, .retire ["a".toList]⟩

/-- A reference to the first tenant of `/a` is safe. -/
theorem first_tenant_kept : KeepsTenancy .allowOnly ((machine .allowOnly).run [registered]) ⟨1, 0⟩ :=
  ((slots_keep_tenancy ((machine .allowOnly).reachable_run [registered])).2 ["a".toList] ⟨1, 0⟩
    (by decide +kernel)).mpr (by decide +kernel)

/-- A reference given out after the retirement of `/a` is honoured for the next tenant. -/
theorem vacant_slot_honoured :
    let g := (machine .allowOnly).run [registered, retired]
    g.wiring.found ["a".toList] = false ∧ g.wiring.vertexSlot ["a".toList] = some ⟨1, 1⟩ ∧
      ((machine .allowOnly).runFrom g [registered]).wiring.derefVertexSlot ⟨1, 1⟩ =
        some ["a".toList] := by
  decide +kernel

end State

end LibTracer.Graph
