import LibTracer.Graph.FoldTable

/-!
# Folded sweeps

A folded sweep hands out one frame for everything it selects and then retires the marks of what it
selected.  A value below a level that is not registered is in no frame, and its mark is retired all the same.

* **`Plane.folded_sweep_lossless`** — when a folded sweep is `Plane.Lossless`.
-/

namespace LibTracer.Graph

open Wire List

namespace Plane

variable {p : Plane} {k : Key} {s : Store} {table : List FoldNode}

/-! ## One folded sweep -/

def sends (p : Plane) (k : Key) (f : Fold) (below : List (FoldNode × Fold)) :
    Emitter Store Delivery :=
  ((Emitter.all p.deliverNode below.reverse).andThen (p.fanOut k ⟨.fold true f, none⟩)).andThen
    (p.bubbleIfHeard k ⟨.fold true f, none⟩)

/-- The frame a folded sweep hands out. -/
def emitted (p : Plane) (k : Key) (s : Store) : Option Fold :=
  if !p.retains k then none
  else
    match p.foldTable k s with
    | .error _ => none
    | .ok table =>
      match (foldFrames table).2 with
      | [] => none
      | (_, f) :: _ => some f

def discharge (p : Plane) (table : List FoldNode) (s : Store) : Store :=
  (table.filter (·.selected)).foldl (fun s n => p.clearPending n.key (n.lkv.map Ref.block) s) s

variable {f : Fold} {s₁ : Store}

theorem of_emitted (h : p.emitted k s = some f) :
    ∃ table root below, p.Complete k s table ∧ (foldFrames table).2 = (root, f) :: below ∧
      p.propagateFolded k s =
        .ran (((p.sends k f below).andThen (Emitter.silent (p.discharge table))) s) := by
  unfold emitted at h
  split at h
  · cases h
  next hkeeps =>
  split at h
  · cases h
  next table htable =>
  split at h
  · cases h
  next root g below hframes =>
  cases h
  refine ⟨table, root, below, foldTable_complete htable, hframes, ?_⟩
  unfold propagateFolded
  rw [if_neg hkeeps, htable]
  dsimp only
  rw [hframes]
  rfl

theorem clearPending_lkv (j : Key) (b : Option Nat) (s : Store) : (p.clearPending j b s).lkv = s.lkv := by
  unfold clearPending
  split <;> rfl

variable {j : Key}

theorem mem_pending_discharge {nodes : List FoldNode} (hset : s.pending.Nodup) :
    j ∈ (nodes.foldl (fun s n => p.clearPending n.key (n.lkv.map Ref.block) s) s).pending ↔
      j ∈ s.pending ∧ ∀ n ∈ nodes, n.key = j →
        ¬ (p.observed j = true ∧ (s.lkv j).map Ref.block = n.lkv.map Ref.block) := by
  induction nodes generalizing s with
  | nil => simp
  | cons n nodes ih =>
    have hclear : (p.clearPending n.key (n.lkv.map Ref.block) s).pending =
        if p.observed n.key = true ∧ (s.lkv n.key).map Ref.block = n.lkv.map Ref.block then
          s.pending.erase n.key else s.pending := by
      unfold clearPending
      simp only [Bool.and_eq_true, beq_iff_eq]
      split <;> rfl
    have hset' : (p.clearPending n.key (n.lkv.map Ref.block) s).pending.Nodup := by
      rw [hclear]
      split
      · exact hset.erase _
      · exact hset
    rw [foldl_cons, ih hset', clearPending_lkv, hclear, forall_mem_cons, ← and_assoc]
    refine and_congr_left fun _ => ?_
    split
    · next hgone =>
      rw [hset.mem_erase_iff]
      constructor
      · intro h
        exact ⟨h.2, fun heq => absurd heq.symm h.1⟩
      · intro h
        exact ⟨fun heq => h.2 heq.symm (heq ▸ hgone), h.1⟩
    · next hstay =>
      refine ⟨fun h => ⟨h, fun heq => heq ▸ hstay⟩, And.left⟩

def slices (p : Plane) (e : FoldNode × Fold) : List Offer :=
  if e.2.kids.isEmpty then (e.1.lkv.toList.flatMap fun r => p.offersAt e.1.key (r.message e.1.key))
  else p.offersAt e.1.key ⟨.fold true e.2, none⟩

theorem deliverNode_eq (e : FoldNode × Fold) : p.deliverNode e = Emitter.all p.dispatch (p.slices e) := by
  unfold deliverNode slices
  split
  · cases e.1.lkv with
    | none => rfl
    | some r =>
      rw [Option.toList_some, flatMap_cons, flatMap_nil, append_nil]
      exact p.fanOut_eq _ _
  · exact p.fanOut_eq _ _

section

variable (k : Key) (f : Fold) (below : List (FoldNode × Fold))

/-- **A folded sweep makes its offers, one after the other**: the slices, then the whole frame at the
root and above. -/
theorem sends_eq : p.sends k f below = Emitter.all p.dispatch
      (below.reverse.flatMap p.slices ++ p.offers k ⟨.fold true f, none⟩) := by
  have hnodes : p.deliverNode = fun e => Emitter.all p.dispatch (p.slices e) :=
    funext deliverNode_eq
  rw [sends, Emitter.andThen_assoc, Emitter.all_append, Emitter.all_flatMap, hnodes, ← deliverVertex_eq]
  rfl

theorem pending_sends (s : Store) : (p.sends k f below s).1.pending = s.pending := by
  rw [sends_eq]
  exact (all_dispatch_replays _ s).pending

end

theorem mem_legs {o : Offer} {d : Delivery} (h : d ∈ p.legs o) : d.point = o.point ∧
    d.frame = o.message.frame ∧ ∀ t, d.storesAt = some t → o.edge.targetKey = some t := by
  simp only [legs, mem_append, mem_map, Option.mem_toList] at h
  rcases h with (h | ⟨t, ht, rfl⟩) | h
  · split at h
    · rw [mem_singleton.mp h]
      exact ⟨rfl, rfl, nofun⟩
    · exact nomatch h
  · exact ⟨rfl, rfl, fun u hu => ht.trans hu⟩
  · split at h
    · rw [mem_singleton.mp h]
      exact ⟨rfl, rfl, nofun⟩
    · exact nomatch h

/-- What a folded sweep sends goes out below its root, or is the whole frame at the root and above. -/
theorem mem_sends {below : List (FoldNode × Fold)} {d : Delivery} (hd : d ∈ (p.sends k f below s).2) :
    (∀ t, d.storesAt = some t → ∃ e ∈ p.edgesAt d.point, e.targetKey = some t) ∧
      ((∃ e ∈ below, d.point = e.1.key) ∨ d.point ∈ k :: ancestors k ∧ d.frame = .fold true f) := by
  rw [sends_eq] at hd
  obtain ⟨o, ho, hd⟩ := mem_flatMap.mp ((within_all_dispatch _ s).subset hd)
  obtain ⟨hpoint, hframe, hstores⟩ := mem_legs hd
  rw [hpoint, hframe]
  have hat : ∀ {j : Key} {m : Message}, o ∈ p.offersAt j m →
      o.point = j ∧ o.message = m ∧ o.edge ∈ p.edgesAt o.point := by
    intro j m ho
    obtain ⟨e, he, rfl⟩ := mem_map.mp ho
    exact ⟨rfl, rfl, he⟩
  rcases mem_append.mp ho with ho | ho
  · obtain ⟨e, he, ho⟩ := mem_flatMap.mp ho
    obtain ⟨m, ho⟩ : ∃ m, o ∈ p.offersAt e.1.key m := by
      unfold slices at ho
      split at ho
      · obtain ⟨r, -, ho⟩ := mem_flatMap.mp ho
        exact ⟨_, ho⟩
      · exact ⟨_, ho⟩
    obtain ⟨hkey, -, hedge⟩ := hat ho
    exact ⟨fun t ht => ⟨_, hedge, hstores t ht⟩, .inl ⟨e, mem_reverse.mp he, hkey⟩⟩
  · obtain ⟨j, hj, ho⟩ := mem_flatMap.mp ho
    obtain ⟨hkey, hmessage, hedge⟩ := hat ho
    refine ⟨fun t ht => ⟨_, hedge, hstores t ht⟩, .inr ⟨?_, by rw [hmessage]⟩⟩
    rw [hkey]
    unfold heardAbove at hj
    split at hj
    · exact hj
    · exact mem_cons.mpr (.inl (mem_singleton.mp hj))

theorem Replays.lkv {ds : List Delivery} {s' : Store} (h : p.Replays s ds s')
    (hds : ∀ d ∈ ds, d.storesAt ≠ some j) : s'.lkv j = s.lkv j := by
  induction h with
  | nil s => rfl
  | told _ _ ih => exact ih (forall_mem_cons.mp hds).2
  | stored hleg hstore _ ih =>
    obtain ⟨hd, hds⟩ := forall_mem_cons.mp hds
    rw [ih hds]
    obtain ⟨-, rfl, -⟩ | ⟨-, -, r, n, -, -, -, rfl⟩ := storeValue_cases hstore
    · rfl
    · have hne : j ≠ _ := fun heq => hd (heq ▸ hleg)
      unfold Store.publish
      split
      · rfl
      dsimp only
      split <;> exact Function.update_of_ne hne _ _

/-- A mark at or below the root is retired if its vertex is there and observed, and the deliveries
left it what it held. -/
theorem retired_iff (h : p.Complete k s table) (hk : p.found k = true) (hset : s.pending.Nodup)
    (hpending : s₁.pending = s.pending) (hj : j ∈ s.pending) :
    j ∉ (p.discharge table s₁).pending ↔ k <:+ j ∧ p.found j = true ∧ p.observed j = true ∧
      (s₁.lkv j).map Ref.block = (s.lkv j).map Ref.block := by
  have hselects : p.Selects k s j ↔ k <:+ j := by
    rw [Selects, due_eq, mem_filter, decide_eq_true_eq]
    constructor
    · intro hsel
      rcases hsel with rfl | hdue
      · exact suffix_refl j
      · exact hdue.2.1
    · intro hkj
      by_cases heq : j = k
      · exact .inl heq
      · exact .inr ⟨mem_append_left _ hj, hkj, fun h => heq h.symm⟩
  unfold discharge
  rw [mem_pending_discharge (hpending ▸ hset), hpending]
  constructor
  · intro hgone
    obtain ⟨n, hn, rfl, hobs, hblock⟩ : ∃ n ∈ table.filter (·.selected), n.key = j ∧
        p.observed j = true ∧ (s₁.lkv j).map Ref.block = n.lkv.map Ref.block := by
      by_contra hnone
      exact hgone ⟨hj, fun n hn hkey hcond => hnone ⟨n, hn, hkey, hcond⟩⟩
    obtain ⟨hn, hsel⟩ := mem_filter.mp hn
    obtain ⟨hfound, hselects'⟩ := (h.selected_iff hn).mp hsel
    rw [(h.node n hn).lkv, if_pos hsel] at hblock
    exact ⟨hselects.mp hselects', (h.found_iff hk hn).mp hfound, hobs, hblock⟩
  · intro hcond hstays
    obtain ⟨hkj, hfound, hobs, hblock⟩ := hcond
    obtain ⟨n, hn, rfl, -⟩ := h.chosen j (hselects.mpr hkj)
    have hsel : n.selected = true :=
      (h.selected_iff hn).mpr ⟨(h.found_iff hk hn).mpr hfound, hselects.mpr hkj⟩
    refine hstays.2 n (mem_filter.mpr ⟨hn, hsel⟩) rfl ⟨hobs, ?_⟩
    rw [(h.node n hn).lkv, if_pos hsel]
    exact hblock

/-! ## Losing nothing -/

/-- Every vertex below the root that the sweep selects and that holds a value has this value in the
frame, at the path of its own key. -/
def CarriesDue (p : Plane) (k : Key) (s : Store) (f : Fold) : Prop :=
  ∀ j r, j ∈ p.due k s → p.found j = true → s.lkv j = some r →
    (j, r.value) ∈ f.carried ∧ ∃ names, j = names ++ k ∧
      (names.map spelt ++ k, r.value) ∈ landings k (f.tlv true)

/-- **A folded sweep loses nothing**: every value it selects is in the frame, and of the marks exactly
those are retired whose vertex is in the frame, or holds no value. -/
structure Lossless (p : Plane) (k : Key) (s : Store) (f : Fold) : Prop where
  carries : p.CarriesDue k s f
  retires : ∀ j ∈ s.pending, j ∉ (p.propagateFolded k s).store.pending ↔
    k <:+ j ∧ p.found j = true ∧ ((∃ x, (j, x) ∈ f.carried) ∨ s.lkv j = none)

/-- Every level between the root and a selected vertex that holds a value is registered. -/
def Joined (p : Plane) (k : Key) (s : Store) : Prop :=
  ∀ j ∈ p.due k s, p.found j = true → (s.lkv j).isSome = true →
    ∀ l, Under k l → l <:+ j → p.found l = true

theorem joined_iff : p.Joined k s ↔ ∀ j ∈ p.due k s, p.found j = true →
    (s.lkv j).isSome = true → ∀ l ∈ levels k j, p.found l = true := by
  refine forall₂_congr fun j hj => forall₂_congr fun _ _ => ?_
  have hkj : Under k j := by
    rw [due_eq] at hj
    exact of_decide_eq_true (mem_filter.mp hj).2
  exact ⟨fun h l hl => h l ((mem_levels hkj.1).mp hl).1 ((mem_levels hkj.1).mp hl).2,
    fun h l hkl hlj => h l ((mem_levels hkj.1).mpr ⟨hkl, hlj⟩)⟩

instance : Decidable (p.Joined k s) := decidable_of_iff' _ joined_iff

/-- Where a folded sweep may deliver: at its root, above it, and on the way to what is due. -/
def stops (p : Plane) (k : Key) (s : Store) : List Key :=
  k :: ancestors k ++ (p.due k s).flatMap (levels k)

/-- Every marked vertex is observed, and no subscription where the sweep may deliver stores into it. -/
def Calm (p : Plane) (k : Key) (s : Store) : Prop :=
  ∀ j ∈ s.pending, k <:+ j → p.found j = true → p.observed j = true ∧
    ∀ l ∈ p.stops k s, ∀ e ∈ p.edgesAt l, e.targetKey ≠ some j

instance : Decidable (p.Calm k s) :=
  inferInstanceAs (Decidable (∀ j ∈ s.pending, k <:+ j → p.found j = true → p.observed j = true ∧
    ∀ l ∈ p.stops k s, ∀ e ∈ p.edgesAt l, e.targetKey ≠ some j))

/-- The deliveries of a calm sweep leave every marked vertex what it held. -/
theorem Calm.lkv {root : FoldNode} {below : List (FoldNode × Fold)} (h : p.Calm k s)
    (hcomplete : p.Complete k s table) (hframes : (foldFrames table).2 = (root, f) :: below)
    (hj : j ∈ s.pending) (hkj : k <:+ j) (hfound : p.found j = true) :
    (p.sends k f below s).1.lkv j = s.lkv j := by
  have hreplays : p.Replays s (p.sends k f below s).2 (p.sends k f below s).1 := by
    rw [sends_eq]
    exact all_dispatch_replays _ s
  refine hreplays.lkv fun d hd hstores => ?_
  obtain ⟨hedge, hpoint⟩ := mem_sends hd
  obtain ⟨e, he, htarget⟩ := hedge j hstores
  refine (h j hj hkj hfound).2 d.point ?_ e he htarget
  rcases hpoint with ⟨n, hn, heq⟩ | hpoint
  · -- a node of the table lies on the way to a selected vertex
    have hunder := (hcomplete.frame hframes).2.2.1 n hn
    have hin : n.1 ∈ table := mem_foldFrames n (hframes ▸ mem_cons_of_mem _ hn)
    obtain ⟨-, q, hq, hnq⟩ := (hcomplete.node n.1 hin).below
    rcases hq with rfl | hq
    · exact absurd (hunder.1.eq_of_length_le hnq.length_le) hunder.2
    · rw [heq]
      exact mem_append_right _ (mem_flatMap.mpr
        ⟨q, hq, (mem_levels (hunder.1.trans hnq)).mpr ⟨hunder, hnq⟩⟩)
  · exact mem_append_left _ hpoint.1

section

variable {root : FoldNode} {below : List (FoldNode × Fold)} (hk : p.found k = true)
  (hcomplete : p.Complete k s table) (hframes : (foldFrames table).2 = (root, f) :: below)

include hk hcomplete hframes

theorem Joined.carried (h : p.Joined k s) {r : Ref} (hsel : p.Selects k s j) (hfound : p.found j = true)
    (hlkv : s.lkv j = some r) : (j, r.value) ∈ f.carried := by
  refine (hcomplete.mem_carried hk hframes j r.value).mpr
    ⟨hsel, hfound, by rw [hlkv]; rfl, fun l hl hlj => ?_⟩
  rcases hsel with rfl | hj
  · exact absurd (hl.1.eq_of_length_le hlj.length_le) hl.2
  · exact h j hj hfound (hlkv ▸ rfl) l hl hlj

theorem carries_iff : p.CarriesDue k s f ↔ p.Joined k s := by
  constructor
  · intro h j hj hfound hsome
    obtain ⟨r, hr⟩ := Option.isSome_iff_exists.mp hsome
    exact ((hcomplete.mem_carried hk hframes j _).mp (h j r hj hfound hr).1).2.2.2
  · intro h j r hj hfound hlkv
    obtain ⟨hplaced, hkey, -⟩ := hcomplete.frame hframes
    have hmem := h.carried hk hcomplete hframes (.inr hj) hfound hlkv
    obtain ⟨names, hnames, hread⟩ := hplaced.landings true _ hmem
    exact ⟨hmem, names, hkey ▸ hnames, hread k⟩

theorem Joined.lossless (h : p.Joined k s) (hset : s.pending.Nodup) (hcalm : p.Calm k s)
    (hrun : p.propagateFolded k s =
      .ran (((p.sends k f below).andThen (Emitter.silent (p.discharge table))) s)) : p.Lossless k s f := by
  refine ⟨(carries_iff hk hcomplete hframes).mpr h, fun j hj => ?_⟩
  rw [hrun]
  refine (retired_iff hcomplete hk hset (pending_sends k f below s) hj).trans
    (and_congr_right fun hkj => and_congr_right fun hfound => ?_)
  constructor
  · intro _
    cases hlkv : s.lkv j with
    | none => exact .inr rfl
    | some r =>
      refine .inl ⟨r.value, h.carried hk hcomplete hframes ?_ hfound hlkv⟩
      by_cases heq : k = j
      · exact .inl heq.symm
      · refine .inr ?_
        rw [due_eq]
        exact mem_filter.mpr ⟨mem_append_left _ hj, decide_eq_true ⟨hkj, heq⟩⟩
  · intro _
    refine ⟨(hcalm j hj hkj hfound).1, ?_⟩
    rw [hcalm.lkv hcomplete hframes hj hkj hfound]

end

theorem emitted_of_ran (h : (p.propagateFolded k s).status = none) :
    ∃ f, p.emitted k s = some f := by
  rw [propagateFolded] at h
  split at h
  · cases h
  next hkeeps =>
  rw [emitted, if_neg hkeeps]
  cases htable : p.foldTable k s with
  | error e =>
    rw [htable] at h
    cases h
  | ok table =>
    -- the root of a complete table has a frame
    obtain ⟨root, rest, rfl, hkey, -⟩ := (foldTable_complete htable).split
    have hfits := (foldTable_complete htable).node root mem_cons_self
    dsimp only
    rw [foldFrames_there (hfits.found.mpr (.inl hkey))]
    exact ⟨_, rfl⟩

/-- **When a folded sweep loses nothing.**  It emits one frame, which the subscribers of its root are
handed whole. -/
theorem folded_sweep_lossless (p : Plane) (k : Key) (s : Store) (hk : p.found k = true)
    (hset : s.pending.Nodup) (hran : (p.propagateFolded k s).status = none) :
    ∃ f, p.emitted k s = some f ∧
      (∀ d ∈ (p.propagateFolded k s).sent, d.point = k → d.frame = .fold true f) ∧
      (p.CarriesDue k s f ↔ p.Joined k s) ∧ (p.Joined k s → p.Calm k s → p.Lossless k s f) := by
  obtain ⟨f, hemit⟩ := emitted_of_ran hran
  obtain ⟨table, root, below, hcomplete, hframes, hrun⟩ := of_emitted hemit
  refine ⟨f, hemit, fun d hd hpoint => ?_, carries_iff hk hcomplete hframes,
    fun h hcalm => h.lossless hk hcomplete hframes hset hcalm hrun⟩
  have hsent : d ∈ (p.sends k f below s).2 := by
    rw [hrun] at hd
    simpa [Emitter.andThen, Emitter.silent] using hd
  rcases (mem_sends hsent).2 with ⟨n, hn, heq⟩ | hwhole
  · exact absurd (hpoint.symm.trans heq) ((hcomplete.frame hframes).2.2.1 n hn).2
  · exact hwhole.2

end Plane

/-! ### A marked vertex below an unregistered level -/

/-- The vertex `/t/m/v`; `/t/m` is not registered. -/
def deepKey : Key := "v".toList :: "m".toList :: sinkKey

/-- The subscribed vertex `/t`, and a value assigned to `/t/m/v`. -/
def gap : List Event :=
  [.register sinkKey .STORED_VALUE true {}, .register deepKey .STORED_VALUE true {},
    .subscribeCallback sinkKey false, .assign deepKey tick []].map (Event.mk plainEnv)

/-- **The folded sweep of `/t` loses the value**: `/t/m/v` holds it and is due, the one frame that
is sent carries nothing, and no mark is left. -/
theorem folded_sweep_loses_value :
    let g := (State.machine .allowOnly).run gap
    let p := g.plane .allowOnly plainEnv
    let o := p.propagateFolded sinkKey g.store
    p.due sinkKey g.store = [deepKey] ∧ p.found deepKey = true ∧
      (g.store.lkv deepKey).isSome = true ∧ o.status = none ∧
      o.sent.map (fun d => (d.point, d.frame.carried.map Prod.fst)) = [(sinkKey, [])] ∧
      o.store.pending = [] := by
  decide +kernel

/-- The same tree with `/t/m` registered. -/
def joined : List Event := Event.mk plainEnv (.register deepKey.tail .STORED_VALUE true {}) :: gap

/-- There the folded sweep of `/t` loses nothing. -/
theorem folded_sweep_joined :
    let g := (State.machine .allowOnly).run joined
    let p := g.plane .allowOnly plainEnv
    ∃ f, p.Lossless sinkKey g.store f ∧ ∃ d ∈ (p.propagateFolded sinkKey g.store).sent,
      d.point = sinkKey ∧ d.frame = .fold true f := by
  intro g p
  obtain ⟨f, -, hframe, -, hlossless⟩ := Plane.folded_sweep_lossless p sinkKey g.store
    (by decide +kernel) (by decide +kernel) (by decide +kernel)
  have hsent : ∃ d ∈ (p.propagateFolded sinkKey g.store).sent, d.point = sinkKey := by
    decide +kernel
  obtain ⟨d, hd, hpoint⟩ := hsent
  exact ⟨f, hlossless (by decide +kernel) (by decide +kernel), d, hd, hpoint, hframe d hd hpoint⟩

end LibTracer.Graph
