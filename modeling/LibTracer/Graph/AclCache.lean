import LibTracer.Graph.Acl
import LibTracer.Lib.Machine
import LibTracer.Lib.Stamp

/-!
# The access gate and its cached merges

`acl_allows` climbs to the nearest vertex that has entries of its own (the *bearer*) and evaluates
the merge cached there, through the inheritable filter when the bearer is a strict ancestor.  A merge is rebuilt when its
stamp is stale; `:acl` writes and retirements turn stamps stale over the written subtree.

* **`aclAllows_eq_reference`** — after any history the gate answers as an evaluation from scratch.
-/

namespace LibTracer.Graph

open List
open Function (update update_self update_of_ne)

/-! ## State -/

/-- `acl_state_t`: the stored entries, and the cached merge with its stamp. -/
structure AclState where
  aces : List Ace
  eff : Stamped 32 (List Ace)
  present : Bool

/-- A fresh `:acl` state: no entries, a merge never built. -/
def AclState.fresh : AclState := ⟨[], Stamped.unbuilt [], false⟩

structure AclVertex where
  registered : Bool
  /-- The `OWN_ACES` flag bit. -/
  ownAces : Bool
  acl : Option AclState

/-- A vertex nobody has registered or given an `:acl`. -/
def AclVertex.placeholder : AclVertex := ⟨false, false, none⟩

/-- How the blocks of an `:acl` write fare: the state's and the table's. -/
inductive AclBlocks where
  | granted | stateRefused | tableRefused
  deriving DecidableEq, Repr

abbrev AclGraph := Key → AclVertex

namespace AclVertex

/-- `with_aces`: the stored entries. -/
def aces (v : AclVertex) : List Ace :=
  match v.acl with
  | none => []
  | some a => a.aces

/-- `mark_acl_cache_dirty`: no state, nothing to mark. -/
def markAclCacheDirty (v : AclVertex) : AclVertex :=
  { v with acl := v.acl.map fun a => { a with eff := a.eff.invalidate } }

/-- `revert_to_placeholder`, and the registration flag the retire flips before it. -/
def retire (v : AclVertex) : AclVertex where
  registered := false
  ownAces := false
  acl := v.acl.map fun a => ⟨[], (⟨[], a.eff.gen⟩ : Stamped 32 _).invalidate, false⟩

/-- `set_acl`: the `:acl` state is made on first need, then the entries are copied into a table of
their own and take the place of the stored ones.  `false` when a block was refused. -/
def setAcl (v : AclVertex) (aces : List Ace) (blocks : AclBlocks) : AclVertex × Bool :=
  let a := v.acl.getD .fresh
  match blocks with
  | .stateRefused => (v, false)
  | .tableRefused => ({ v with acl := some a }, false)
  | .granted =>
    ({ v with ownAces := !aces.isEmpty, acl := some ⟨aces, a.eff.invalidate, true⟩ }, true)

end AclVertex

/-- Change the vertices of the subtree at `k`. -/
def AclGraph.onSubtree (g : AclGraph) (k : Key) (f : AclVertex → AclVertex) : AclGraph :=
  fun j => if k <:+ j then f (g j) else g j

/-! ## The gate -/

/-- `bearer`: the nearest vertex up the chain with entries of its own, or the root. -/
def bearer (g : AclGraph) : Key → Key
  | [] => []
  | n :: p => if (g (n :: p)).ownAces then n :: p else bearer g p

/-- The ancestor loop of the rebuild: each strict ancestor but the root appends its inheritable
entries.  `grants` says whether the block of an append is granted; an append of nothing asks for
none, a refused one leaves the merge as it was and the loop goes on. -/
def appendAncestors (g : AclGraph) (grants : Key → Bool) :
    Key → List Ace × Bool → List Ace × Bool
  | [], acc => acc
  | n :: p, (merged, ok) =>
    let more := (g (n :: p)).aces.filter (Ace.carries kAceInherit)
    if more.isEmpty then appendAncestors g grants p (merged, ok)
    else if grants (n :: p) then appendAncestors g grants p (merged ++ more, ok)
    else appendAncestors g grants p (merged, false)

/-- `with_effective_aces` at `b`: the current merge, rebuilt and published first if its stamp is
stale; `none` when a block was refused, which leaves the cache stale. -/
def withEffectiveAces (g : AclGraph) (b : Key) (grants : Key → Bool) :
    Option (List Ace) × AclGraph :=
  match (g b).acl with
  | none =>
    match appendAncestors g grants b.tail ([], true) with
    | (merged, true) => (some merged, g)
    | (_, false) => (none, g)
  | some a =>
    if a.eff.current then (some a.eff.value, g)
    else if !a.aces.isEmpty && !grants b then (none, g)
    else match appendAncestors g grants b.tail (a.aces, true) with
      | (_, false) => (none, g)
      | (merged, true) =>
        match a.eff.publish a.eff.gen merged with
        | none => (none, g)
        | some eff =>
          (some merged, update g b { g b with acl := some { a with eff } })

/-- What the gate finds in the subject-lookup slot: nothing installed, a publish that did not settle
in time, a slot cleared meanwhile, or a resolver.  A resolver names the subject of a caller and the
application's clock, or refuses the caller. -/
inductive SubjectLookup where
  | notInstalled
  | unsettled
  | cleared
  | resolver (resolve : Name → Option (Name × BitVec 64))

/-- `acl_allows`, with the caches it leaves behind. -/
def aclAllows (policy : AclPolicy) (lookup : SubjectLookup) (grants : Key → Bool) (g : AclGraph)
    (v : Key) (caller : Name) (right : AclRight) : Bool × AclGraph :=
  match lookup with
  | .notInstalled => (true, g)
  | .unsettled => (false, g)
  | .cleared => (true, g)
  | .resolver resolve =>
    if caller.isEmpty then (true, g)
    else match resolve caller with
      | none => (false, g)
      | some (subject, now) =>
        if isReservedSubject subject then (false, g)
        else
          -- a vertex that retired while the gate ran is refused; the root is never registered
          let standing := (g v).registered || v.isEmpty
          let b := bearer g v
          if b.isEmpty then (standing, g)
          else match withEffectiveAces g b grants with
            | (none, g') => (false, g')
            | (some merged, g') =>
              let leased := merged.any (·.expiresNs != 0)
              (effAllows policy merged subject right.bit (if leased then now else 0)
                (if b = v then 0 else kAceInherit) && standing, g')

/-! ## The machine -/

inductive AclEvent where
  /-- A registration that was granted (a refused one, or one at a registered vertex, does nothing). -/
  | register (k : Key)
  /-- `retire`: the vertex and its whole subtree. -/
  | retire (k : Key)
  /-- An `:acl` write by the owner, parsed. -/
  | writeAcl (k : Key) (aces : List Ace) (blocks : AclBlocks)
  /-- An access check, by whichever operation. -/
  | check (lookup : SubjectLookup) (grants : Key → Bool) (v : Key) (caller : Name) (right : AclRight)

/-- `write_acl` from the parsed list on: store, then mark the whole subtree. -/
def writeAcl (g : AclGraph) (k : Key) (aces : List Ace) (blocks : AclBlocks) : AclGraph :=
  match (g k).setAcl aces blocks with
  | (v, false) => update g k v
  | (v, true) =>
    AclGraph.onSubtree (update g k v) k AclVertex.markAclCacheDirty

def aclStep (policy : AclPolicy) (g : AclGraph) : AclEvent → AclGraph × Option Bool
  | .register k => (update g k { g k with registered := true }, none)
  | .retire k => (g.onSubtree k AclVertex.retire, none)
  | .writeAcl k aces blocks => (writeAcl g k aces blocks, none)
  | .check lookup grants v caller right =>
    let (allowed, g') := aclAllows policy lookup grants g v caller right
    (g', some allowed)

def aclMachine (policy : AclPolicy) : Machine AclGraph AclEvent (Option Bool) :=
  ⟨fun _ => .placeholder, aclStep policy⟩

/-! ## The reference -/

/-- What is registered and what was written and not retired since: no caches. -/
structure AclSpec where
  registered : Key → Bool
  own : Key → List Ace

/-- One step of the reference.  A refused write leaves the stored list as it was; a check leaves
everything as it was. -/
def AclSpec.step (a : AclSpec) : AclEvent → AclSpec × Unit
  | .register k => ({ a with registered := update a.registered k true }, ())
  | .retire k =>
    ({ registered := fun j => if k <:+ j then false else a.registered j
       own := fun j => if k <:+ j then [] else a.own j }, ())
  | .writeAcl k aces blocks =>
    (if blocks = .granted then { a with own := update a.own k aces } else a, ())
  | .check .. => (a, ())

def aclSpec : Machine AclSpec AclEvent Unit := ⟨⟨fun _ => false, fun _ => []⟩, AclSpec.step⟩

/-- The gate's answer from scratch.  Without a resolver, and for the empty caller of the local
owner, nothing is enforced.  A caller the resolver refuses, or whose subject is reserved, is denied.
Otherwise the effective list decides, for a vertex that is registered or the root. -/
def reference (policy : AclPolicy) (lookup : SubjectLookup) (a : AclSpec) (v : Key) (caller : Name)
    (right : AclRight) : Bool :=
  match lookup with
  | .notInstalled => true
  | .unsettled => false
  | .cleared => true
  | .resolver resolve =>
    caller.isEmpty || match resolve caller with
      | none => false
      | some (subject, now) =>
        !isReservedSubject subject &&
          (effAllows policy (effective a.own v) subject right.bit now 0 &&
            (a.registered v || v.isEmpty))

/-! ## Caches are sound -/

def AclGraph.own (g : AclGraph) : Key → List Ace := fun k => (g k).aces

/-- The bearing flag tells whether there are entries, and a merge whose stamp is current is the
merge from scratch. -/
structure Sound (g : AclGraph) : Prop where
  flag : ∀ k, (g k).ownAces = !(g.own k).isEmpty
  merge : ∀ k a, (g k).acl = some a → a.eff.current = true →
    a.eff.value = a.aces ++ inherited g.own k.tail

structure SameLists (g g' : AclGraph) : Prop where
  registered : ∀ k, (g' k).registered = (g k).registered
  own : g'.own = g.own

theorem SameLists.refl (g : AclGraph) : SameLists g g := ⟨fun _ => rfl, rfl⟩

variable {g : AclGraph} {k : Key}

variable {a : AclState} {g' : AclGraph} {merged : List Ace}

theorem own_of_acl (h : (g k).acl = some a) : g.own k = a.aces := by
  unfold AclGraph.own AclVertex.aces
  rw [h]

variable {j : Key}

/-- The part of the tree outside a changed subtree keeps its merges: no ancestor of a vertex outside
lies inside. -/
theorem inherited_outside {own own' : Key → List Ace}
    (h : ∀ i, ¬ k <:+ i → own' i = own i) (hj : ¬ k <:+ j) :
    inherited own' j.tail = inherited own j.tail :=
  inherited_congr fun i hi => h i fun hki => hj (hki.trans (hi.trans (tail_suffix j)))

/-- **The change rule**: a change whose effect on the stored lists is confined to one subtree keeps
the caches sound if it keeps every vertex outside, and inside leaves the flag right and every stamp
stale. -/
theorem Sound.change (h : Sound g) (k : Key) (hout : ∀ j, ¬ k <:+ j → g' j = g j)
    (hflag : ∀ j, k <:+ j → (g' j).ownAces = !(g'.own j).isEmpty)
    (hstale : ∀ j a, k <:+ j → (g' j).acl = some a → a.eff.current = false) : Sound g' where
  flag j := by
    by_cases hj : k <:+ j
    · exact hflag j hj
    have := h.flag j
    unfold AclGraph.own at this ⊢
    rw [hout j hj]
    exact this
  merge j a ha hcur := by
    by_cases hj : k <:+ j
    · rw [hstale j a hj ha] at hcur
      exact absurd hcur (by decide)
    have hown : ∀ i, ¬ k <:+ i → g'.own i = g.own i := by
      intro i hi
      unfold AclGraph.own
      rw [hout i hi]
    rw [hout j hj] at ha
    rw [h.merge j a ha hcur, inherited_outside hown hj]

/-! ### The events -/

@[simp] theorem aces_markAclCacheDirty (v : AclVertex) : v.markAclCacheDirty.aces = v.aces := by
  unfold AclVertex.markAclCacheDirty AclVertex.aces
  cases v.acl <;> rfl

@[simp] theorem aces_retire (v : AclVertex) : v.retire.aces = [] := by
  unfold AclVertex.retire AclVertex.aces
  cases v.acl <;> rfl

/-- A change of one vertex that keeps its entries and its flag, and whose stamp is stale or whose
`:acl` state is kept, keeps the caches sound and the lists the same. -/
theorem Sound.retouch (h : Sound g) {v : AclVertex}
    (haces : v.aces = (g k).aces) (hflag : v.ownAces = (g k).ownAces)
    (hmerge : ∀ a, v.acl = some a → a.eff.current = true →
      a.eff.value = a.aces ++ inherited g.own k.tail) :
    Sound (update g k v) ∧ AclGraph.own (update g k v) = g.own := by
  have hown : AclGraph.own (update g k v) = g.own := by
    funext j
    unfold AclGraph.own
    by_cases hj : j = k
    · rw [hj, update_self, haces]
    · rw [update_of_ne hj]
  refine ⟨⟨fun j => ?_, fun j a ha hcur => ?_⟩, hown⟩
  · rw [hown]
    by_cases hj : j = k
    · rw [hj, update_self, hflag, h.flag]
    · rw [update_of_ne hj, h.flag]
  · rw [hown]
    by_cases hj : j = k
    · subst hj
      rw [update_self] at ha
      exact hmerge a ha hcur
    · rw [update_of_ne hj] at ha
      exact h.merge j a ha hcur

theorem Sound.register (h : Sound g) (k : Key) : Sound (update g k { g k with registered := true }) ∧
      AclGraph.own (update g k { g k with registered := true }) = g.own :=
  h.retouch rfl rfl fun a ha hcur => h.merge k a ha hcur

theorem onSubtree_of_not (f : AclVertex → AclVertex) (h : ¬ k <:+ j) : g.onSubtree k f j = g j := if_neg h

theorem onSubtree_of (f : AclVertex → AclVertex) (h : k <:+ j) : g.onSubtree k f j = f (g j) := if_pos h

theorem Sound.retire (h : Sound g) (k : Key) : Sound (g.onSubtree k AclVertex.retire) := by
  refine h.change k (fun j hj => onSubtree_of_not _ hj) (fun j hj => ?_) fun j a hj ha => ?_
  · unfold AclGraph.own
    rw [onSubtree_of _ hj, aces_retire]
    rfl
  · rw [onSubtree_of _ hj] at ha
    obtain ⟨b, -, rfl⟩ := Option.map_eq_some_iff.mp ha
    exact Stamped.current_invalidate (by decide) _

theorem Sound.writeAcl (h : Sound g) (k : Key) (aces : List Ace) (blocks : AclBlocks) :
    Sound (Graph.writeAcl g k aces blocks) ∧ (Graph.writeAcl g k aces blocks).own =
        if blocks = .granted then update g.own k aces else g.own := by
  cases blocks with
  | stateRefused =>
    exact h.retouch rfl rfl fun a ha hcur => h.merge k a ha hcur
  | tableRefused =>
    refine h.retouch ?_ rfl fun a ha hcur => ?_
    · unfold AclVertex.aces
      cases (g k).acl <;> rfl
    · cases hk : (g k).acl with
      | some b =>
        rw [hk] at ha
        cases ha
        exact h.merge k b hk hcur
      | none =>
        -- a state made for a refused write has a merge that was never built
        rw [hk] at ha
        cases ha
        cases hcur.symm.trans (Stamped.current_unbuilt (by decide) _)
  | granted =>
    set v := ((g k).setAcl aces .granted).1 with hv
    have hwrite : Graph.writeAcl g k aces .granted =
        AclGraph.onSubtree (update g k v) k AclVertex.markAclCacheDirty := rfl
    have hown : (Graph.writeAcl g k aces .granted).own = update g.own k aces := by
      funext j
      unfold AclGraph.own
      rw [hwrite]
      by_cases hj : j = k
      · subst hj
        rw [onSubtree_of _ (suffix_refl j), aces_markAclCacheDirty, update_self, update_self]
        rfl
      rw [update_of_ne hj]
      by_cases hs : k <:+ j
      · rw [onSubtree_of _ hs, aces_markAclCacheDirty, update_of_ne hj]
      · rw [onSubtree_of_not _ hs, update_of_ne hj]
    refine ⟨h.change k (fun j hj => ?_) (fun j hj => ?_) fun j a hj ha => ?_, hown⟩
    · have hne : j ≠ k := fun e => hj (e ▸ suffix_refl j)
      rw [hwrite, onSubtree_of_not _ hj, update_of_ne hne]
    · rw [hown, hwrite, onSubtree_of _ hj]
      show (update g k v j).ownAces = _
      by_cases hjk : j = k
      · rw [hjk, update_self, update_self]
        rfl
      · rw [update_of_ne hjk, update_of_ne hjk]
        exact h.flag j
    · rw [hwrite, onSubtree_of _ hj] at ha
      obtain ⟨b, -, rfl⟩ := Option.map_eq_some_iff.mp ha
      exact Stamped.current_invalidate (by decide) _

/-! ### The rebuild -/

/-- The ancestor loop: a merge it completes is the merge from scratch; with every block granted it
completes. -/
theorem appendAncestors_spec (g : AclGraph) (grants : Key → Bool) (p : Key) (merged : List Ace)
    (ok : Bool) : ((appendAncestors g grants p (merged, ok)).2 = true →
      (appendAncestors g grants p (merged, ok)).1 = merged ++ inherited g.own p ∧ ok = true) ∧
    ((∀ k, grants k = true) → (appendAncestors g grants p (merged, ok)).2 = ok) := by
  induction p generalizing merged ok with
  | nil => exact ⟨fun h => ⟨(append_nil merged).symm, h⟩, fun _ => rfl⟩
  | cons n p ih =>
    set more := (g (n :: p)).aces.filter (Ace.carries kAceInherit) with hmore
    have hinh : inherited g.own (n :: p) = more ++ inherited g.own p := rfl
    rw [hinh, appendAncestors]
    simp only [← hmore]
    split
    next hempty =>
      rw [List.isEmpty_iff.mp hempty, nil_append]
      exact ih merged ok
    · split
      · rw [← append_assoc]
        exact ih (merged ++ more) ok
      next hgrant =>
        refine ⟨fun h => ?_, fun hall => absurd (hall _) hgrant⟩
        exact absurd ((ih merged false).1 h).2 (by decide)

/-- What is owed for a merge asked of `b`: if one is handed out it is the merge from scratch, no list
changes, the caches stay sound, and one is handed out if every block is granted (`all`). -/
structure Hands (g : AclGraph) (b : Key) (all : Prop) (r : Option (List Ace) × AclGraph) : Prop where
  merge : ∀ merged, r.1 = some merged → merged = g.own b ++ inherited g.own b.tail
  sound : Sound r.2
  same : SameLists g r.2
  total : all → r.1.isSome = true

theorem Hands.refused (h : Sound g) (b : Key) {all : Prop} (hall : ¬ all) : Hands g b all (none, g) where
  merge _ hm := nomatch hm
  sound := h
  same := .refl g
  total ha := absurd ha hall

theorem Hands.unchanged (h : Sound g) {b : Key}
    (hm : merged = g.own b ++ inherited g.own b.tail) (all : Prop) : Hands g b all (some merged, g) where
  merge m hm' := by
    cases hm'
    exact hm
  sound := h
  same := .refl g
  total _ := rfl

theorem Hands.published (h : Sound g) {b : Key} (ha : (g b).acl = some a)
    (hm : merged = g.own b ++ inherited g.own b.tail) {eff : Stamped 32 (List Ace)}
    (heff : eff.value = merged) (all : Prop) : Hands g b all
      (some merged, update g b { g b with acl := some { a with eff } }) := by
  have hown := own_of_acl ha
  have haces : AclVertex.aces { g b with acl := some { a with eff } } = (g b).aces := by
    unfold AclVertex.aces
    rw [ha]
  obtain ⟨hsound, hlists⟩ := h.retouch haces rfl fun a' ha' _ => by
    cases ha'
    rw [heff, hm, hown]
  refine ⟨fun m hm' => ?_, hsound, ⟨fun k => ?_, hlists⟩, fun _ => rfl⟩
  · cases hm'
    exact hm
  · show (update g b _ k).registered = _
    by_cases hk : k = b
    · rw [hk, update_self]
    · rw [update_of_ne hk]

theorem withEffectiveAces_hands (h : Sound g) (b : Key) (grants : Key → Bool) :
    Hands g b (∀ k, grants k = true) (withEffectiveAces g b grants) := by
  unfold withEffectiveAces
  cases hacl : (g b).acl with
  | none =>
    have hown : g.own b = [] := by
      unfold AclGraph.own AclVertex.aces
      rw [hacl]
    obtain ⟨hdone, hall⟩ := appendAncestors_spec g grants b.tail [] true
    simp only
    generalize appendAncestors g grants b.tail ([], true) = r at hdone hall
    obtain ⟨merged, ok⟩ := r
    cases ok with
    | true => exact .unchanged h (by rw [hown]; exact (hdone rfl).1) _
    | false => exact .refused h b fun hg => nomatch hall hg
  | some a =>
    have hown := own_of_acl hacl
    simp only
    split
    next hcur =>
      exact .unchanged h (by rw [hown]; exact h.merge b a hacl hcur) _
    next hcur =>
    split
    next hseed =>
      refine .refused h b fun hg => ?_
      rw [hg b] at hseed
      simp at hseed
    · obtain ⟨hdone, hall⟩ := appendAncestors_spec g grants b.tail a.aces true
      generalize appendAncestors g grants b.tail (a.aces, true) = r at hdone hall
      obtain ⟨merged, ok⟩ := r
      cases ok with
      | false => exact .refused h b fun hg => nomatch hall hg
      | true =>
        have hstale : a.eff.current = false := Bool.eq_false_iff.mpr hcur
        obtain ⟨eff, hpub, hvalue, -⟩ := Stamped.current_publish (by decide) hstale merged
        simp only [hpub]
        exact .published h hacl (by rw [hown]; exact (hdone rfl).1) hvalue _

/-! ## The gate -/

/-- Below the bearer nothing is written, so what reaches a vertex without entries is what the bearer
hands on. -/
theorem inherited_bearer (h : Sound g) (v : Key) : inherited g.own (bearer g v) = inherited g.own v := by
  induction v with
  | nil => rfl
  | cons n p ih =>
    unfold bearer
    split
    · rfl
    next hbare =>
    have hown : g.own (n :: p) = [] := by
      have := h.flag (n :: p)
      simpa [hbare] using this
    rw [ih, inherited_of_bare hown]

theorem effective_bearer (h : Sound g) {v : Key} (hne : bearer g v ≠ v) :
    effective g.own v = inherited g.own (bearer g v) := by
  cases v with
  | nil => exact absurd rfl hne
  | cons n p =>
    unfold bearer at hne ⊢
    split at hne
    · exact absurd rfl hne
    next hbare =>
    have hown : g.own (n :: p) = [] := by
      have := h.flag (n :: p)
      simpa [hbare] using this
    rw [if_neg hbare, effective_of_bare hown, inherited_bearer h p]

theorem effAllows_bearer (h : Sound g) (policy : AclPolicy) {v : Key}
    (hb : bearer g v ≠ []) (subject : Name) (bit : BitVec 32) (now : BitVec 64) :
    let merged := g.own (bearer g v) ++ inherited g.own (bearer g v).tail
    effAllows policy merged subject bit (if merged.any (·.expiresNs != 0) then now else 0)
        (if bearer g v = v then 0 else kAceInherit) =
      effAllows policy (effective g.own v) subject bit now 0 := by
  intro merged
  have hmerged : merged = effective g.own (bearer g v) := by
    obtain ⟨n, p, hcons⟩ := exists_cons_of_ne_nil hb
    simp only [merged, hcons]
    rfl
  have hnow (required : BitVec 8) :
      effAllows policy merged subject bit (if merged.any (·.expiresNs != 0) then now else 0)
        required = effAllows policy merged subject bit now required := by
    split
    · rfl
    next hlease =>
      refine effAllows_of_unleased (fun a ha => ?_) ..
      have := any_eq_false.mp (Bool.eq_false_iff.mpr hlease) a ha
      rwa [bne_iff_ne, not_not] at this
  rw [hnow]
  split
  next hself =>
    rw [hmerged, hself]
  next hself =>
    rw [effAllows_inheritable, hmerged, filter_effective, effective_bearer h hself]

/-- The implementation and the reference agree on what is registered and what is written, and the
caches are sound. -/
structure Agrees (g : AclGraph) (a : AclSpec) : Prop where
  sound : Sound g
  registered : ∀ k, (g k).registered = a.registered k
  own : g.own = a.own

theorem Agrees.of_same {a : AclSpec} (h : Agrees g a) (hs : Sound g')
    (hsame : SameLists g g') : Agrees g' a :=
  ⟨hs, fun k => (hsame.registered k).trans (h.registered k), hsame.own.trans h.own⟩

/-- One check: it answers as the reference does, or denies because a block was refused; either way
it changes nothing a reader from scratch can see. -/
theorem Agrees.check {a : AclSpec} (h : Agrees g a) (policy : AclPolicy)
    (lookup : SubjectLookup) (grants : Key → Bool) (v : Key) (caller : Name) (right : AclRight) :
    ((aclAllows policy lookup grants g v caller right).1 = reference policy lookup a v caller right ∨
      (aclAllows policy lookup grants g v caller right).1 = false ∧ ¬ ∀ k, grants k = true) ∧
    Agrees (aclAllows policy lookup grants g v caller right).2 a := by
  cases lookup with
  | notInstalled | unsettled | cleared => exact ⟨.inl rfl, h⟩
  | resolver resolve =>
    unfold aclAllows reference
    simp only
    split
    next hcaller =>
      rw [hcaller]
      exact ⟨.inl rfl, h⟩
    next hcaller =>
    rw [Bool.eq_false_iff.mpr hcaller, Bool.false_or]
    cases resolve caller with
    | none => exact ⟨.inl rfl, h⟩
    | some answer =>
      obtain ⟨subject, now⟩ := answer
      simp only
      by_cases hres : isReservedSubject subject = true
      · rw [if_pos hres, hres]
        exact ⟨.inl rfl, h⟩
      rw [if_neg hres, Bool.eq_false_iff.mpr hres, Bool.not_false, Bool.true_and, ← h.own,
        ← h.registered v]
      by_cases hroot : (bearer g v).isEmpty = true
      · -- no bearer: nothing is inherited from anywhere, and the list is empty
        rw [if_pos hroot]
        have hb := List.isEmpty_iff.mp hroot
        have hlist : effective g.own v = [] := by
          by_cases hself : bearer g v = v
          · rw [← hself, hb]
            rfl
          · rw [effective_bearer h.sound hself, hb]
            rfl
        have hopen : effAllows policy [] subject right.bit now 0 = true := by
          unfold effAllows verdict
          split <;> simp_all [scan]
        rw [hlist, hopen]
        exact ⟨.inl rfl, h⟩
      · rw [if_neg hroot]
        have hb : bearer g v ≠ [] := fun e => hroot (by rw [e]; rfl)
        have hands := withEffectiveAces_hands h.sound (bearer g v) grants
        generalize withEffectiveAces g (bearer g v) grants = r at hands
        obtain ⟨merged?, g'⟩ := r
        cases merged? with
        | none =>
          refine ⟨.inr ⟨rfl, fun hg => ?_⟩, h.of_same hands.sound hands.same⟩
          cases hands.total hg
        | some merged =>
          refine ⟨.inl ?_, h.of_same hands.sound hands.same⟩
          have hm := hands.merge merged rfl
          have hverdict := effAllows_bearer h.sound policy hb subject right.bit now
          simp only [← hm] at hverdict
          simp only [hverdict]

theorem aclMachine_simulation (policy : AclPolicy) : Simulation (aclMachine policy) aclSpec Agrees where
  start := ⟨⟨fun _ => rfl, fun _ _ h => nomatch h⟩, fun _ => rfl, rfl⟩
  step g a e h := by
    cases e with
    | register k =>
      obtain ⟨hsound, hown⟩ := h.sound.register k
      refine ⟨hsound, fun j => ?_, hown.trans h.own⟩
      show (update g k _ j).registered = update a.registered k true j
      by_cases hj : j = k
      · rw [hj, update_self, update_self]
      · rw [update_of_ne hj, update_of_ne hj]
        exact h.registered j
    | retire k =>
      refine ⟨h.sound.retire k, fun j => ?_, funext fun j => ?_⟩
      · show (g.onSubtree k AclVertex.retire j).registered = if k <:+ j then false else _
        by_cases hj : k <:+ j
        · rw [onSubtree_of _ hj, if_pos hj]
          rfl
        · rw [onSubtree_of_not _ hj, if_neg hj]
          exact h.registered j
      · show (g.onSubtree k AclVertex.retire j).aces = if k <:+ j then [] else _
        by_cases hj : k <:+ j
        · rw [onSubtree_of _ hj, if_pos hj, aces_retire]
        · rw [onSubtree_of_not _ hj, if_neg hj]
          exact congrFun h.own j
    | writeAcl k aces blocks =>
      obtain ⟨hsound, hown⟩ := h.sound.writeAcl k aces blocks
      refine ⟨hsound, fun j => ?_, ?_⟩
      · have hreg : (writeAcl g k aces blocks j).registered = (g j).registered := by
          unfold writeAcl AclVertex.setAcl AclGraph.onSubtree
          cases blocks <;> by_cases hj : j = k <;> by_cases hs : k <:+ j <;>
            simp [hj, hs, update_of_ne, AclVertex.markAclCacheDirty]
        refine hreg.trans ((h.registered j).trans ?_)
        show _ = (if blocks = .granted then _ else a : AclSpec).registered j
        split <;> rfl
      · refine hown.trans ?_
        show _ = (if blocks = .granted then _ else a : AclSpec).own
        rw [h.own]
        split <;> rfl
    | check lookup grants v caller right =>
      exact (h.check policy lookup grants v caller right).2

/-- **The gate is the evaluation from scratch.**  After any history of registrations, retirements,
`:acl` writes and checks: with its blocks granted the gate answers as the reference does over what
was written; it never allows what the reference denies, whichever blocks are refused; and every
cached merge that would be used is the merge from scratch. -/
theorem aclAllows_eq_reference (policy : AclPolicy) (es : List AclEvent) (lookup : SubjectLookup)
    (v : Key) (caller : Name) (right : AclRight) :
    (aclAllows policy lookup (fun _ => true) ((aclMachine policy).run es) v caller right).1 =
        reference policy lookup (aclSpec.run es) v caller right ∧ (∀ grants,
      (aclAllows policy lookup grants ((aclMachine policy).run es) v caller right).1 = true →
        reference policy lookup (aclSpec.run es) v caller right = true) ∧
    ∀ k st, ((aclMachine policy).run es k).acl = some st → st.eff.current = true →
      st.eff.value = (aclSpec.run es).own k ++ inherited (aclSpec.run es).own k.tail := by
  have h := (aclMachine_simulation policy).run_rel es
  refine ⟨?_, fun grants hallow => ?_, fun k st hst hcur => ?_⟩
  · rcases (h.check policy lookup (fun _ => true) v caller right).1 with heq | ⟨-, hno⟩
    · exact heq
    · exact absurd (fun _ => rfl) hno
  · rcases (h.check policy lookup grants v caller right).1 with heq | ⟨hfalse, -⟩
    · rw [← heq]
      exact hallow
    · rw [hfalse] at hallow
      exact absurd hallow (by decide)
  · rw [h.sound.merge k st hst hcur, ← own_of_acl hst, h.own]

/-! ## What the list alone would say -/

def SubjectLookup.subject (lookup : SubjectLookup) (caller : Name) : Option (Name × BitVec 64) :=
  match lookup with
  | .resolver resolve => resolve caller
  | _ => none

/-- The evaluation that asks the list first: open if it is empty, then closed to a caller without a
subject, then the policy; it knows neither the owner's empty caller nor registration. -/
def listFirst (policy : AclPolicy) (lookup : SubjectLookup) (a : AclSpec) (v : Key) (caller : Name)
    (right : AclRight) : Bool :=
  let aces := effective a.own v
  if aces.isEmpty then true
  else match lookup.subject caller with
    | none => false
    | some (subject, now) =>
      if isReservedSubject subject then false
      else verdict policy subject right.bit aces now 0 == .ALLOW

/-- The gate is not that evaluation.  A caller the resolver refuses is denied at an open vertex; a
retired vertex denies everyone; the local owner passes a list that grants the owner nothing. -/
theorem gate_ne_listFirst :
    let v : Key := ["a".toList]
    let named : SubjectLookup := .resolver fun c => if c.isEmpty then none else some (c, 0)
    let gate (es : List AclEvent) (lookup : SubjectLookup) (caller : Name) : Bool :=
      (aclAllows .allowOnly lookup (fun _ => true) ((aclMachine .allowOnly).run es) v caller .READ).1
    let list (es : List AclEvent) (lookup : SubjectLookup) (caller : Name) : Bool :=
      listFirst .allowOnly lookup (aclSpec.run es) v caller .READ
    let opened : List AclEvent := [.register v]
    let retired : List AclEvent := [.register v, .retire v]
    let closed : List AclEvent :=
      [.register v, .writeAcl v [{ subject := "bob".toList, accessMask := 1 }] .granted]
    (gate opened (.resolver fun _ => none) "eve".toList = false ∧
      list opened (.resolver fun _ => none) "eve".toList = true) ∧
    (gate retired named "bob".toList = false ∧ list retired named "bob".toList = true) ∧
    (gate closed named [] = true ∧ list closed named [] = false) := by
  decide +kernel

end LibTracer.Graph
