import LibTracer.Graph.Runs

/-!
# Departures

When a link goes down, every edge it admitted has to go: a live edge of a dead link keeps its vertex
counting a listener and delivers into nothing.

* **`departuresComplete_iff`** — departures are complete exactly if the names tell links apart.
-/

namespace LibTracer.Graph

open List
open Function (update_self update_of_ne)

/-! ## The edges of a vertex -/

namespace Wiring

def Holds (w : Wiring) (k : Key) (e : Edge) : Prop :=
  ∃ live, some ⟨e, live⟩ ∈ (w.vertex k).slots

def Sheds (w w' : Wiring) : Prop := ∀ k e, w'.Holds k e → w.Holds k e

theorem Sheds.refl (w : Wiring) : Sheds w w := fun _ _ h => h

variable {w w' : Wiring}

theorem Sheds.trans {w'' : Wiring} (h : Sheds w w') (h' : Sheds w' w'') : Sheds w w'' :=
  fun k e he => h k e (h' k e he)

theorem sheds_of_slots
    (h : ∀ k s, some s ∈ (w'.vertex k).slots → some s ∈ (w.vertex k).slots) : Sheds w w' :=
  fun k _ ⟨live, he⟩ => ⟨live, h k _ he⟩

variable {k : Key}

theorem holds_modify {f : Vertex → Vertex} {j : Key} {e : Edge} (h : (w.modify k f).Holds j e) :
    w.Holds j e ∨ j = k ∧ ∃ live, some ⟨e, live⟩ ∈ (f (w.vertex k)).slots := by
  obtain ⟨live, hs⟩ := h
  by_cases hj : j = k
  · subst hj
    rw [modify_vertex, update_self] at hs
    exact .inr ⟨rfl, live, hs⟩
  · rw [modify_vertex, update_of_ne hj] at hs
    exact .inl ⟨live, hs⟩

theorem sheds_modify {f : Vertex → Vertex}
    (h : ∀ s, some s ∈ (f (w.vertex k)).slots → some s ∈ (w.vertex k).slots) : Sheds w (w.modify k f) := by
  intro j e he
  obtain hold | ⟨rfl, live, hs⟩ := holds_modify he
  · exact hold
  · exact ⟨live, h _ hs⟩

theorem sheds_noteSubscriber (w : Wiring) (k : Key) (d : Int) : Sheds w (w.noteSubscriber k d) :=
  sheds_of_slots fun j s hs => by rwa [noteSubscriber_slots] at hs

theorem Sheds.ite (h : Sheds w w') {d : Int} {b : Bool} :
    Sheds w (if b then w'.noteSubscriber k d else w') := by
  cases b with
  | true => exact h.trans (sheds_noteSubscriber w' k d)
  | false => exact h

/-! ### Registration and retirement -/

theorem sheds_ensure (w : Wiring) (k : Key) : Sheds w (w.ensure k) := by
  refine ensure_rule w (.refl w) (fun w' n p h => h.trans (sheds_of_slots fun j s hs => ?_)) k
  by_cases hj : j = n :: p
  · subst hj
    have hnew : (w'.makePlaceholder n p).vertex (n :: p) =
        { listenersAbove := (w'.vertex p).listenersAbove + (w'.vertex p).ownSubs } := update_self ..
    rw [hnew] at hs
    exact nomatch hs
  · have hold : (w'.makePlaceholder n p).vertex j = w'.vertex j := update_of_ne hj _ _
    rwa [hold] at hs

theorem setRetention_slots (v : Vertex) (role : Role) (r : Retention) (depth : Nat) :
    (v.setRetention role r depth).slots = v.slots := by
  unfold Vertex.setRetention
  split <;> rfl

theorem sheds_applyPolicy (w : Wiring) (k : Key) (role : Role) (pol : Policy) (r : Retention) :
    Sheds w (w.applyPolicy k role pol r) := by
  unfold applyPolicy
  have hret : Sheds w (w.modify k fun v =>
      v.setRetention role (pol.retention.getD r) (pol.depth.getD v.retentionDepth)) :=
    sheds_modify fun s hs => by rwa [setRetention_slots] at hs
  dsimp only
  split
  · exact hret
  refine hret.trans (fun j e he => ?_)
  exact sheds_modify (f := fun v => { v with deliveryMode := pol.deliveryMode.getD _ })
    (fun _ hs => hs) j e he

theorem sheds_register {role : Role} {deliverWritten : Bool} {pol : Policy}
    (hw : w.register k role deliverWritten pol = .ok w') : Sheds w w' := by
  unfold register at hw
  split at hw
  · cases hw
  split at hw
  · cases hw
  cases hw
  refine ((sheds_ensure w k).trans (sheds_applyPolicy _ k role pol (defaultRetention role))).trans
    fun j e he => ?_
  exact sheds_modify (f := fun v => { v with role, deliverWritten }) (fun _ hs => hs) j e he

theorem sheds_retireOne (w : Wiring) (k : Key) : Sheds w (w.retireOne k) := by
  refine sheds_of_slots fun j s hs => ?_
  unfold retireOne at hs
  by_cases hj : j = k
  · subst hj
    rw [modify_vertex, update_self] at hs
    exact nomatch hs
  rw [modify_vertex, update_of_ne hj] at hs
  unfold bumpSubtreeListeners at hs
  dsimp only at hs
  split at hs <;> exact hs

theorem sheds_retireSubtree (w : Wiring) (k : Key) : Sheds w (w.retireSubtree k) := by
  have hfold := foldlRecOn (w.known.filter (k <:+ ·)) retireOne
    (Sheds.refl { w with acl := (w.acl.step (.retire k)).1 }) fun w' h j _ => h.trans (sheds_retireOne w' j)
  exact fun j e he => hfold j e he

/-! ### Slot verbs -/

variable {e f : Edge} {j : Key}

theorem holds_addEdge (h : (w.addEdge k e).Holds j f) : w.Holds j f ∨ (j = k ∧ f = e) := by
  unfold addEdge at h
  obtain hold | ⟨rfl, live, hs⟩ := holds_modify h
  · exact .inl (sheds_noteSubscriber w k 1 j f hold)
  rcases mem_or_eq_of_mem_set hs with hold | hnew
  · refine .inl (sheds_noteSubscriber w j 1 j f ⟨live, ?_⟩)
    split at hold
    · exact (mem_append.mp hold).resolve_right (by simp)
    · exact hold
  · cases hnew
    exact .inr ⟨rfl, rfl⟩

theorem addEdge_holds (w : Wiring) (k : Key) (e : Edge) : (w.addEdge k e).Holds k e := by
  refine ⟨true, ?_⟩
  unfold addEdge
  rw [modify_vertex, update_self]
  have hle : ((w.noteSubscriber k 1).vertex k).slots.findIdx Option.isNone ≤
      ((w.noteSubscriber k 1).vertex k).slots.length := findIdx_le_length
  refine mem_set ?_ _
  split
  · rw [length_append]
    exact Nat.lt_succ_of_le hle
  · omega

variable {slot : Nat}

theorem holds_replaceEdge
    (hw : w.replaceEdge k slot e = some w') (h : w'.Holds j f) : w.Holds j f ∨ (j = k ∧ f = e) := by
  unfold replaceEdge at hw
  dsimp only at hw
  split at hw
  · cases hw
  next v old hv =>
  cases hw
  unfold Vertex.replaceEdge at hv
  split at hv
  · cases hv
    obtain hold | ⟨rfl, live, hs⟩ := holds_modify (Sheds.ite (Sheds.refl _) j f h)
    · exact .inl (sheds_noteSubscriber w k 1 j f hold)
    rcases mem_or_eq_of_mem_set hs with hold | hnew
    · exact .inl (sheds_noteSubscriber w j 1 j f ⟨live, hold⟩)
    · cases hnew
      exact .inr ⟨rfl, rfl⟩
  · cases hv

theorem sheds_clearSubscriberSlot (hw : w.clearSubscriberSlot k slot = some w') : Sheds w w' := by
  unfold clearSubscriberSlot at hw
  split at hw
  · cases hw
  next v s hv =>
  cases hw
  refine Sheds.ite (sheds_modify fun t ht => ?_)
  unfold Vertex.clearEdge at hv
  split at hv
  · cases hv
    exact (mem_or_eq_of_mem_set ht).resolve_right (by simp)
  · cases hv

theorem sheds_setSuspended {suspended : Bool}
    (hw : w.setSuspended k slot suspended = some w') : Sheds w w' := by
  unfold setSuspended at hw
  dsimp only at hw
  split at hw
  · cases hw
  next v changed hv =>
  cases hw
  refine (sheds_noteSubscriber w k (if suspended then 0 else 1)).trans
    (Sheds.trans (fun j e he => ?_) (sheds_noteSubscriber _ k _))
  obtain hold | ⟨rfl, live, hs⟩ := holds_modify he
  · exact hold
  unfold Vertex.setEdgeSuspended at hv
  split at hv
  next s hslot =>
    split at hv
    · cases hv
      rcases mem_or_eq_of_mem_set hs with hold | hnew
      · exact ⟨live, hold⟩
      · cases hnew
        exact ⟨s.live, mem_of_getElem? hslot⟩
    · cases hv
      exact ⟨live, hs⟩
  · cases hv

/-! ### Evictions -/

def spare (hit : Edge → Bool) (s : Option Slot) : Option Slot := if Vertex.hits hit s then none else s

theorem spare_spare (hit : Edge → Bool) (s : Option Slot) : spare hit (spare hit s) = spare hit s := by
  unfold spare
  by_cases h : Vertex.hits hit s = true
  · rw [if_pos h]
    rfl
  · rw [if_neg h, if_neg h]

theorem evictAt_slots (hit : Edge → Bool) (w : Wiring) (k j : Key) : ((w.evictAt hit k).vertex j).slots =
      if j = k then (w.vertex j).slots.map (spare hit) else (w.vertex j).slots := by
  unfold evictAt
  dsimp only
  by_cases hj : j = k
  · subst hj
    rw [if_pos rfl]
    split
    next hnone =>
      -- nothing is hit, so every slot is left
      have hmiss : ∀ s ∈ (w.vertex j).slots, spare hit s = s := fun s hs =>
        if_neg (countP_eq_zero.mp hnone s hs)
      rw [map_congr_left hmiss, map_id']
    · rw [noteSubscriber_slots, modify_vertex, update_self]
      rfl
  · rw [if_neg hj]
    split
    · rfl
    · rw [noteSubscriber_slots, modify_vertex, update_of_ne hj]

theorem evictEdges_slots (w : Wiring) (candidates : List Key) (hit : Edge → Bool) (j : Key) :
    ((w.evictEdges candidates hit).vertex j).slots =
      if j ∈ candidates then (w.vertex j).slots.map (spare hit) else (w.vertex j).slots := by
  unfold evictEdges
  induction candidates generalizing w with
  | nil => rfl
  | cons k candidates ih =>
    rw [foldl_cons, ih, evictAt_slots]
    by_cases hj : j = k
    · rw [if_pos hj, if_pos (mem_cons.mpr (Or.inl hj))]
      split
      · rw [map_map]
        exact map_congr_left fun s _ => spare_spare hit s
      · rfl
    · rw [if_neg hj]
      simp only [mem_cons, hj, false_or]

variable {candidates : List Key} {hit : Edge → Bool}

theorem holds_evictEdges
    (h : (w.evictEdges candidates hit).Holds k e) : w.Holds k e ∧ (k ∈ candidates → hit e = false) := by
  obtain ⟨live, hs⟩ := h
  rw [evictEdges_slots] at hs
  split at hs
  · obtain ⟨s, hmem, hspare⟩ := mem_map.mp hs
    unfold spare at hspare
    split at hspare
    · cases hspare
    next hmiss =>
      subst hspare
      exact ⟨⟨live, hmem⟩, fun _ => by simpa [Vertex.hits] using hmiss⟩
  next hk => exact ⟨⟨live, hs⟩, fun hin => absurd hin hk⟩

theorem evictEdges_spares
    {i : Nat} {s : Slot} (hs : (w.vertex k).slots[i]? = some (some s)) (hmiss : hit s.edge = false) :
    ((w.evictEdges candidates hit).vertex k).slots[i]? = some (some s) := by
  rw [evictEdges_slots]
  split
  · rw [getElem?_map, hs]
    refine congrArg some (if_neg ?_)
    simp [Vertex.hits, hmiss]
  · exact hs

end Wiring

/-! ## Names of links -/

/-- The name the departure of an edge's link goes by, when pairs are named by `naming`: an edge that
no link carried departs with its caller. -/
def Edge.departs (naming : LinkPair → Name) (e : Edge) : Option Name :=
  e.remote.map fun r => r.link.elim r.caller naming

/-- The operation spells every link by its name: whoever hands in a pair hands in the pair's name,
and a name that departs without a pair is no pair's. -/
def Op.Respects (naming : LinkPair → Name) : Op → Prop
  | .subscribeField _ _ ctx | .writeSlot _ _ _ ctx =>
    ∀ pair, ctx.sessionLink = some pair → ctx.session = naming pair
  | .subscribeWire _ q =>
    (∀ pair, q.pair = some pair → q.link = naming pair) ∧
      ∀ link route token pair, q.split = .mount link route token pair → link = naming pair
  | .evictLink name (some pair) => name = naming pair
  | .evictLink name none => ∀ pair, naming pair ≠ name
  | _ => True

def Op.Owns (naming : LinkPair → Name) (op : Op) : Prop :=
  ∀ name pair, op = .evictLink name pair → ∀ other, naming other = name → pair = some other

variable {naming : LinkPair → Name} {op : Op} {e : Edge} {session : Name} {k : Key}

theorem Op.Respects.owns (h : op.Respects naming) (hinj : Function.Injective naming) :
    op.Owns naming := by
  rintro name pair rfl other hother
  cases pair with
  | none => exact absurd hother (h other)
  | some pair => exact congrArg some (hinj (h.symm.trans hother.symm))

/-- **An admission is indexed under the name its edge departs by**: a caller that no link carried is
named too, or the edge would be local. -/
theorem Op.Respects.admission (h : op.Respects naming) (hne : ∀ pair, naming pair ≠ [])
    {n : Name} (hop : op.admission = some (e, session))
    (hn : e.departs naming = some n) : n = session ∧ n ≠ [] := by
  have hfield : ∀ {r : Record} {ctx : WriteCtx},
      (∀ pair, ctx.sessionLink = some pair → ctx.session = naming pair) →
      (State.fieldEdge r ctx).departs naming = some n → n = State.fieldSession ctx ∧ n ≠ [] := by
    intro r ctx hctx hn
    unfold Edge.departs State.fieldEdge at hn
    dsimp only at hn
    split at hn
    · cases hn
    next hsubject =>
    cases hn
    unfold State.fieldSession
    cases hlink : ctx.sessionLink with
    | none => exact ⟨rfl, fun hnil => hsubject (List.isEmpty_iff.mpr hnil)⟩
    | some pair => exact ⟨(hctx pair hlink).symm, hne pair⟩
  cases op with
  | subscribeCallback k durability =>
    cases hop
    cases hn
  | subscribeField k r ctx =>
    cases hop
    exact hfield h hn
  | writeSlot k slot payload ctx =>
    cases payload with
    | clear => cases hop
    | record r =>
      cases hop
      exact hfield h hn
  | subscribeWire k q =>
    obtain ⟨harrival, hmount⟩ := h
    cases hpair : q.pair with
    | none => simp [Op.admission, hpair] at hop
    | some pair =>
      have hwire : State.wireEdge q = (e, session) := by simpa [Op.admission, hpair] using hop
      unfold State.wireEdge at hwire
      dsimp only at hwire
      split at hwire
      next hsplit =>
        cases hwire
        cases hn
        exact ⟨(hmount _ _ _ _ hsplit).symm, hne _⟩
      cases hwire
      rw [hpair] at hn
      cases hn
      exact ⟨(harrival pair hpair).symm, hne _⟩
  | _ => cases hop

/-! ## The index covers the edges -/

/-- **The index covers the edges**: a vertex with an edge that departs by a name is listed under
that name. -/
structure Indexed (naming : LinkPair → Name) (w : Wiring) (x : LinkIndex Key) : Prop where
  sound : x.Sound
  named : ∀ k e n, w.Holds k e → e.departs naming = some n → n ≠ [] ∧ x.Lists n k

namespace Indexed

variable {w w' : Wiring} {x x' : LinkIndex Key}

section

variable (h : Indexed naming w x)
include h

theorem sheds (hw : w.Sheds w') : Indexed naming w' x :=
  ⟨h.sound, fun k e n he => h.named k e n (hw k e he)⟩

theorem reindex (hsound : x'.Sound)
    (hkeep : ∀ l u, l ≠ [] → x.Lists l u → x'.Lists l u) : Indexed naming w x' :=
  ⟨hsound, fun k e n he hn =>
    have hk := h.named k e n he hn
    ⟨hk.1, hkeep n k hk.1 hk.2⟩⟩

theorem admitted (hop : op.Respects naming) (hne : ∀ pair, naming pair ≠ [])
    (hadm : op.admission = some (e, session)) (token : LinkToken)
    (hw : ∀ j f, w'.Holds j f → w.Holds j f ∨ (j = k ∧ f = e)) :
    Indexed naming w' (State.indexed e session token k x) := by
  unfold State.indexed
  cases hremote : e.remote with
  | none =>
    refine ⟨h.sound, fun j f n hf hn => ?_⟩
    rcases hw j f hf with hold | ⟨rfl, rfl⟩
    · exact h.named j f n hold hn
    · simp [Edge.departs, hremote] at hn
  | some r =>
    have hdep : e.departs naming = some (r.link.elim r.caller naming) := by
      rw [Edge.departs, hremote, Option.map_some]
    obtain ⟨hsession, hname⟩ := hop.admission hne hadm hdep
    obtain ⟨hsound, hlists, hkeep⟩ := LinkIndex.lists_indexVertex h.sound (hsession ▸ hname) token k
    refine ⟨hsound, fun j f n hf hn => ?_⟩
    rcases hw j f hf with hold | ⟨rfl, rfl⟩
    · have hj := h.named j f n hold hn
      exact ⟨hj.1, hkeep n j hj.1 hj.2⟩
    · obtain rfl : n = session := (Option.some.inj (hn.symm.trans hdep)).trans hsession
      exact ⟨hsession ▸ hname, hlists⟩

theorem evictLink {name : Name} {pair : Option LinkPair}
    (hname : name ≠ []) (hown : ∀ pr, naming pr = name → pair = some pr) :
    Indexed naming (w.evictEdges (x.candidates name true).1 (·.admittedOver name pair))
      (x.candidates name true).2 := by
  obtain ⟨hsound, hall, hkeep⟩ := LinkIndex.lists_candidates h.sound hname true
  refine ⟨hsound, fun k e n he hn => ?_⟩
  obtain ⟨hheld, hmiss⟩ := Wiring.holds_evictEdges he
  obtain ⟨hnil, hlists⟩ := h.named k e n hheld hn
  refine ⟨hnil, hkeep n k (fun _ heq => ?_) hlists⟩
  -- an edge of the departing name was at a candidate, and was hit there
  subst heq
  obtain ⟨r, hr, hrn⟩ := Option.map_eq_some_iff.mp hn
  have hspared : (if r.link.isSome then r.link == pair else r.caller == n) = false := by
    simpa [Edge.admittedOver, hr] using hmiss (hall k hlists)
  cases hlink : r.link with
  | none => simp [hlink] at hspared hrn; exact hspared hrn
  | some pr =>
    rw [hlink] at hrn
    simp [hlink, hown pr hrn] at hspared

/-- **Every operation keeps the index over the edges.** -/
theorem control (hop : op.Respects naming) (hown : op.Owns naming) (hne : ∀ pair, naming pair ≠ [])
    (hc : Control op w x w' x') : Indexed naming w' x' := by
  cases hc with
  | keep => exact h
  | register hw => exact h.sheds (Wiring.sheds_register hw)
  | retire k => exact h.sheds (Wiring.sheds_retireSubtree w k)
  | writeAcl k aces => exact h.sheds fun _ _ he => he
  | setPolicy k role pol r => exact h.sheds (Wiring.sheds_applyPolicy w k role pol r)
  | hide k hidden => exact h.sheds (Wiring.sheds_modify fun _ hs => hs)
  | index hadm token k => exact h.admitted hop hne hadm token fun _ _ he => Or.inl he
  | add hadm token k => exact h.admitted hop hne hadm token fun _ _ => Wiring.holds_addEdge
  | replace hadm token hw =>
    exact h.admitted hop hne hadm token fun _ _ => Wiring.holds_replaceEdge hw
  | clear hw => exact h.sheds (Wiring.sheds_clearSubscriberSlot hw)
  | suspend hw => exact h.sheds (Wiring.sheds_setSuspended hw)
  | evictLink hev hname => exact h.evictLink hname (hown _ _ hev)
  | evictRoute hname hit =>
    obtain ⟨hsound, -, hkeep⟩ := LinkIndex.lists_candidates h.sound hname false
    refine (h.sheds fun k e he => (Wiring.holds_evictEdges he).1).reindex hsound ?_
    exact fun l u _ => hkeep l u (fun hf => absurd hf nofun)
  | intern hname =>
    obtain ⟨hsound, -, hkeep⟩ := LinkIndex.intern_spec h.sound _
    exact h.reindex hsound hkeep
  | compact hname =>
    exact h.reindex (LinkIndex.sound_compactLink h.sound hname)
      fun _ _ _ => LinkIndex.lists_compactLink

end

end Indexed

theorem indexed_run {policy : AclPolicy} (hne : ∀ pair, naming pair ≠ []) {evs : List Event}
    (hevs : ∀ ev ∈ evs, ev.op.Respects naming ∧ ev.op.Owns naming) :
    Indexed naming ((State.machine policy).run evs).wiring ((State.machine policy).run evs).index := by
  refine (State.machine policy).runFrom_invariant_of (P := fun g => Indexed naming g.wiring g.index)
    (fun g ev hev hg => hg.control hev.1 hev.2 hne (State.step_control policy g ev)) hevs ?_
  exact ⟨LinkIndex.sound_empty, fun k e n ⟨_, he⟩ => nomatch he⟩

/-! ## Departures -/

namespace State

/-- **The departure of a link is complete**: it leaves no edge admitted over the link, and every
other edge where it was. -/
structure Departed (g : State) (name : Name) (pair : LinkPair) : Prop where
  gone : ∀ k e, (g.evictLink name pair).wiring.Holds k e → e.admittedOver name pair = false
  others : ∀ (k : Key) (i : Nat) (s : Slot), (g.wiring.vertex k).slots[i]? = some (some s) →
    s.edge.admittedOver name pair = false →
    ((g.evictLink name pair).wiring.vertex k).slots[i]? = some (some s)

variable {name : Name}

theorem evictLink_eq (g : State) (hname : name ≠ []) (pair : Option LinkPair) :
    g.evictLink name pair = { g with
      wiring := g.wiring.evictEdges (g.index.candidates name true).1 (·.admittedOver name pair)
      index := (g.index.candidates name true).2 } := by
  unfold evictLink
  exact if_neg (by simpa using hname)

variable {pair : LinkPair}

theorem departs_of_admittedOver
    (h : e.admittedOver (naming pair) pair = true) : e.departs naming = some (naming pair) := by
  obtain ⟨r, hr, hlink⟩ := (Option.any_eq_true _ _).mp h
  rw [Edge.departs, hr, Option.map_some]
  refine congrArg some ?_
  cases hl : r.link with
  | none => simpa [hl] using hlink
  | some pr =>
    obtain rfl : pr = pair := by simpa [hl] using hlink
    rfl

variable {g : State}

theorem departed_of_indexed (h : Indexed naming g.wiring g.index)
    (hname : naming pair ≠ []) : g.Departed (naming pair) pair where
  gone k e he := by
    rw [evictLink_eq g hname] at he
    obtain ⟨hheld, hmiss⟩ := Wiring.holds_evictEdges he
    obtain ⟨-, hall, -⟩ := LinkIndex.lists_candidates h.sound hname true
    by_contra hhit
    have hdep := departs_of_admittedOver (eq_true_of_ne_false hhit)
    exact hhit (hmiss (hall k (h.named k e (naming pair) hheld hdep).2))
  others k i s hs hmiss := by
    rw [evictLink_eq g hname]
    exact Wiring.evictEdges_spares hs hmiss

/-- Two links share a name: once the first has departed, the departure of the second visits
nobody. -/
theorem not_departed_of_shared (hsound : g.index.Sound) (hname : name ≠ [])
    {first second : LinkPair} (hne : first ≠ second)
    (hlink : e.remote.map SubscriberRemote.link = some (some second)) (he : g.wiring.Holds k e) :
    ¬ (g.evictLink name first).Departed name second := by
  obtain ⟨r, hr, hlink⟩ := Option.map_eq_some_iff.mp hlink
  obtain ⟨live, hmem⟩ := he
  obtain ⟨i, hi⟩ := mem_iff_getElem?.mp hmem
  intro hdep
  have hstays : ((g.evictLink name first).wiring.vertex k).slots[i]? = some (some ⟨e, live⟩) := by
    rw [evictLink_eq g hname]
    refine Wiring.evictEdges_spares hi ?_
    simp [Edge.admittedOver, hr, hlink, hne.symm]
  have hsame : ((g.evictLink name first).evictLink name second).wiring =
      (g.evictLink name first).wiring := by
    rw [evictLink_eq (g.evictLink name first) hname, evictLink_eq g hname]
    dsimp only
    rw [LinkIndex.candidates_taken hsound hname]
    rfl
  have hgone := hdep.gone k e ⟨live, by rw [hsame]; exact mem_of_getElem? hstays⟩
  simp [Edge.admittedOver, hr, hlink] at hgone

def DeparturesComplete (policy : AclPolicy) (naming : LinkPair → Name) : Prop :=
  ∀ evs : List Event, (∀ ev ∈ evs, ev.op.Respects naming) → ∀ pair,
    ((machine policy).run evs).Departed (naming pair) pair

def requestOver (name : Name) (pair : LinkPair) : WireSubscribe where
  record := { targetKey := none }
  returnRoute := [6, 0, 0, 0]
  link := name
  pair := some pair

theorem holds_subscribeWire (policy : AclPolicy) (hk : g.wiring.found k = true)
    {env : Env} (henv : env.lookup = .notInstalled) (hname : name ≠ []) (pair : LinkPair) :
    (g.step policy ⟨env, .subscribeWire k (requestOver name pair)⟩).1.wiring.Holds k
      (wireEdge (requestOver name pair)).1 := by
  have hwiring : (g.step policy ⟨env, .subscribeWire k (requestOver name pair)⟩).1.wiring =
      g.wiring.addEdge k (wireEdge (requestOver name pair)).1 := by
    have hallows : ∀ caller, (g.plane policy env).allows k caller .READ = true := fun caller => by
      simp only [Plane.allows, plane, henv]
      rfl
    simp [step, atVertex, hk, subscribeWire, requestOver, hname, admitSubscriber, hallows]
  rw [hwiring]
  exact Wiring.addEdge_holds _ _ _

/-- **Departures are complete exactly if no two links share a name.** -/
theorem departuresComplete_iff (policy : AclPolicy) (hne : ∀ pair, naming pair ≠ []) :
    DeparturesComplete policy naming ↔ Function.Injective naming := by
  constructor
  · intro hcomplete first second hshared
    by_contra hdiff
    let k : Key := ["a".toList]
    let env : Env := { lookup := .notInstalled, settled := by simp }
    -- the second link subscribes, the first departs, then the second
    let evs : List Event :=
      [⟨env, .register k .STORED_VALUE true {}⟩,
        ⟨env, .subscribeWire k (requestOver (naming second) second)⟩]
    have hrespects : ∀ ev ∈ evs, ev.op.Respects naming ∧ ev.op.Owns naming := by
      simp [evs, Op.Respects, Op.Owns, requestOver]
    have hheld : ((machine policy).run evs).wiring.Holds k
        (wireEdge (requestOver (naming second) second)).1 :=
      holds_subscribeWire policy (g := (machine policy).run (evs.take 1)) rfl rfl (hne second) second
    have hindexed : Indexed naming ((machine policy).run evs).wiring
        ((machine policy).run evs).index := indexed_run hne hrespects
    have hstays := not_departed_of_shared hindexed.sound (hne second) hdiff rfl hheld
    let departure : Event := ⟨env, .evictLink (naming second) (some first)⟩
    exact hstays (hcomplete (evs ++ [departure]) (forall_mem_append.mpr
      ⟨fun ev hev => (hrespects ev hev).1, forall_mem_singleton.mpr hshared.symm⟩) second)
  · intro hinj evs hevs pair
    exact departed_of_indexed (indexed_run hne fun ev hev => ⟨hevs ev hev, (hevs ev hev).owns hinj⟩)
      (hne pair)

def serial (pair : LinkPair) : Name :=
  List.replicate
    (Nat.pair pair.conn (Nat.pair pair.peer.index pair.peer.generation.toNat) + 1) 'l'

theorem departuresComplete_serial : DeparturesComplete .allowOnly serial := by
  refine (departuresComplete_iff .allowOnly fun pair => by simp [serial]).mpr fun a b hab => ?_
  have hlen : Nat.pair a.conn (Nat.pair a.peer.index a.peer.generation.toNat) =
      Nat.pair b.conn (Nat.pair b.peer.index b.peer.generation.toNat) := by
    simpa [serial] using congrArg List.length hab
  obtain ⟨hconn, hpeer⟩ := Nat.pair_eq_pair.mp hlen
  obtain ⟨hindex, hgen⟩ := Nat.pair_eq_pair.mp hpeer
  obtain ⟨_, _, _⟩ := a
  obtain ⟨_, _, _⟩ := b
  cases hconn
  cases hindex
  cases BitVec.eq_of_toNat_eq hgen
  rfl

/-- The first peers of two buses, both known as `p0~1`. -/
def onFirstBus : LinkPair := { conn := 1, peer := ⟨0, 1⟩ }

def onSecondBus : LinkPair := { conn := 2, peer := ⟨0, 1⟩ }

def peerName : Name := "p0~1".toList

/-- Both peers subscribe at `/a`, the first departs. -/
def firstDeparted : List Event :=
  [.register ["a".toList] .STORED_VALUE true {},
    .subscribeWire ["a".toList] (requestOver peerName onFirstBus),
    .subscribeWire ["a".toList] (requestOver peerName onSecondBus),
    .evictLink peerName (some onFirstBus)].map
      (Event.mk { lookup := .notInstalled, settled := by simp })

theorem departed_edge_delivers :
    let g := ((machine .allowOnly).run firstDeparted).evictLink peerName (some onSecondBus)
    ∃ s : Slot, some s ∈ (g.wiring.vertex ["a".toList]).slots ∧ s.live = true ∧
      s.edge.admittedOver peerName (some onSecondBus) = true := by
  refine ⟨⟨(wireEdge (requestOver peerName onSecondBus)).1, true⟩, ?_⟩
  decide +kernel

end State

end LibTracer.Graph
