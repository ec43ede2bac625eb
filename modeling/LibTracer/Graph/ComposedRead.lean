import LibTracer.Graph.FoldedBytes
import LibTracer.Graph.Leak

/-!
# The composed read

`read_subtree_folded` answers one frame with the values of a whole subtree.  It walks down from the
vertex that is read, skips a child that is not a member of the enumeration or that the caller may not
read, with everything below it, and writes what it has collected.

* **`Plane.composed_read_exact`** — the form of the answer and its values.
-/

namespace LibTracer.Graph

open Wire Wire.Grammar List
open Crc (Bytes)

namespace Plane

/-! ## The read -/

/-- The collect loop: the vertex on top of the stack joins the array, and its members go on the stack
in key order.  `none` if the stack is not empty after so many rounds. -/
def collect (p : Plane) (s : Store) (caller : Name) :
    Nat → List (Key × Nat) → List SnapNode → Option (List SnapNode)
  | _, [], nodes => some nodes
  | 0, _ :: _, _ => none
  | rounds + 1, (v, parent) :: stack, nodes =>
    collect p s caller rounds ((p.members caller v).map (·, nodes.length) ++ stack)
      (nodes ++ [⟨v, nodes.length ≠ 0, (s.lkv v).map Ref.value, parent⟩])

/-- `read_subtree_folded`, with so many rounds of its loop. -/
def readSubtree (p : Plane) (rounds : Nat) (k : Key) (caller : Name) (s : Store) :
    Option (Except Status Bytes) :=
  if !p.allows k caller .READ then some (.error .PERMISSION_DENIED)
  else (p.collect s caller rounds [(k, 0)] []).map fun nodes => .ok (emit nodes)

variable {p p' : Plane} {s s' : Store} {caller : Name} {k : Key}

def whole (p : Plane) (s : Store) (caller : Name) (k : Key) : Fold := p.composed s caller p.depth k

theorem whole_eq (s : Store) (caller : Name) (k : Key) : p.whole s caller k =
      .node k ((s.lkv k).map Ref.value) ((p.members caller k).map (p.whole s caller)) :=
  (composed_enough s caller p.depth k (Nat.le_add_left _ _)).symm

def snapStack (p : Plane) (s : Store) (caller : Name) (base : Nat) :
    List (Key × Nat) → List SnapNode
  | [] => []
  | (v, parent) :: stack =>
    (p.whole s caller v).snap parent base ++
      snapStack p s caller (base + (p.whole s caller v).size) stack

def toVisit (p : Plane) (s : Store) (caller : Name) (stack : List (Key × Nat)) : Nat :=
  Fold.sizes (stack.map fun e => p.whole s caller e.1)

theorem sizes_append (fs gs : List Fold) : Fold.sizes (fs ++ gs) = Fold.sizes fs + Fold.sizes gs := by
  induction fs with
  | nil => simp [Fold.sizes]
  | cons f fs ih => rw [cons_append, Fold.sizes, Fold.sizes, ih, add_assoc]

theorem snapStack_append (base parent : Nat) (vs : List Key) (stack : List (Key × Nat)) :
    p.snapStack s caller base (vs.map (·, parent) ++ stack) =
      Fold.snaps parent base (vs.map (p.whole s caller)) ++
        p.snapStack s caller (base + Fold.sizes (vs.map (p.whole s caller))) stack := by
  induction vs generalizing base with
  | nil => rfl
  | cons v vs ih =>
    rw [map_cons, map_cons, cons_append, snapStack, Fold.snaps, ih, Fold.sizes,
      append_assoc, add_assoc]

/-- **The loop collects the subtrees on its stack**, in as many rounds as they have vertices. -/
theorem collect_eq (rounds : Nat) (stack : List (Key × Nat)) (nodes : List SnapNode)
    (h : p.toVisit s caller stack ≤ rounds) : p.collect s caller rounds stack nodes =
      some (nodes ++ p.snapStack s caller nodes.length stack) := by
  induction rounds generalizing stack nodes with
  | zero =>
    cases stack with
    | nil => simp [collect, snapStack]
    | cons e stack =>
      -- every subtree has a vertex
      unfold toVisit at h
      rw [map_cons, Fold.sizes, whole_eq, Fold.size] at h
      omega
  | succ rounds ih =>
    cases stack with
    | nil => simp [collect, snapStack]
    | cons e stack =>
      obtain ⟨v, parent⟩ := e
      have hleft : p.toVisit s caller ((p.members caller v).map (·, nodes.length) ++ stack) ≤
          rounds := by
        unfold toVisit at h ⊢
        rw [map_cons, Fold.sizes, whole_eq, Fold.size] at h
        rw [map_append, sizes_append, map_map]
        have hmap : (fun e : Key × Nat => p.whole s caller e.1) ∘ (·, nodes.length) =
            p.whole s caller := rfl
        rw [hmap]
        dsimp only at h
        omega
      rw [collect, ih _ _ hleft, snapStack_append, snapStack, whole_eq, Fold.snap, Fold.size,
        length_append, length_singleton, add_assoc]
      simp

/-! ## What is in the frame -/

/-- A vertex the composed read descends to from its parent. -/
structure Member (p : Plane) (caller : Name) (c : Key) : Prop where
  known : c ∈ p.wiring.known
  found : p.found c = true
  listed : (p.vertex c).enumHidden = false
  allowed : p.allows c caller .READ = true

theorem mem_members {c : Key} : c ∈ p.members caller k ↔ p.Member caller c ∧ ∃ n, c = n :: k := by
  unfold members children
  rw [mem_filter, mem_filter]
  constructor
  · intro h
    obtain ⟨⟨hknown, hkey⟩, hmem⟩ := h
    obtain ⟨hne, htail⟩ := of_decide_eq_true hkey
    obtain ⟨n, q, rfl⟩ := exists_cons_of_ne_nil hne
    obtain ⟨⟨hfound, hlisted⟩, hallowed⟩ : (p.found (n :: q) = true ∧
        (p.vertex (n :: q)).enumHidden = false) ∧ p.allows (n :: q) caller .READ = true := by
      simpa using hmem
    exact ⟨⟨hknown, hfound, hlisted, hallowed⟩, n, congrArg (n :: ·) htail⟩
  · intro h
    obtain ⟨hmem, n, rfl⟩ := h
    refine ⟨⟨hmem.known, by simp⟩, ?_⟩
    simp [hmem.found, hmem.listed, hmem.allowed]

/-- Every level from `k` down to `u` is a member. -/
def Enumerated (p : Plane) (caller : Name) (k u : Key) : Prop :=
  k <:+ u ∧ ∀ l, Under k l → l <:+ u → p.Member caller l

theorem enumerated_self (k : Key) : p.Enumerated caller k k := by
  refine ⟨suffix_refl k, fun l hl hlk => ?_⟩
  exact absurd (hl.1.eq_of_length_le hlk.length_le) hl.2

theorem enumerated_iff {u : Key} :
    p.Enumerated caller k u ↔ u = k ∨ ∃ c ∈ p.members caller k, p.Enumerated caller c u := by
  constructor
  · intro h
    by_cases heq : u = k
    · exact .inl heq
    -- the level below `k` on the way to `u`
    obtain ⟨names, rfl⟩ := h.1
    rcases names.eq_nil_or_concat with rfl | ⟨rest, n, rfl⟩
    · exact absurd rfl heq
    have hsuf : n :: k <:+ rest.concat n ++ k := ⟨rest, by simp⟩
    have hunder : Under k (n :: k) := under_cons.mpr (.inl rfl)
    refine .inr ⟨n :: k, mem_members.mpr ⟨h.2 _ hunder hsuf, n, rfl⟩, hsuf, fun l hl hlu => ?_⟩
    refine h.2 l ⟨(suffix_cons n k).trans hl.1, fun heq => ?_⟩ hlu
    have hlen := hl.1.length_le
    rw [← heq, length_cons] at hlen
    omega
  · intro h
    rcases h with rfl | ⟨c, hc, hcu⟩
    · exact enumerated_self u
    obtain ⟨hmem, n, rfl⟩ := mem_members.mp hc
    refine ⟨(suffix_cons n k).trans hcu.1, fun l hl hlu => ?_⟩
    rcases suffix_or_suffix_of_suffix hlu hcu.1 with hln | hln
    · rcases suffix_cons_iff.mp hln with rfl | hlk
      · exact hmem
      · exact absurd (hl.1.eq_of_length_le hlk.length_le) hl.2
    by_cases heq : n :: k = l
    · exact heq ▸ hmem
    · exact hcu.2 l ⟨hln, heq⟩ hlu

theorem mem_carried_composed (s : Store) (caller : Name) (levels : Nat) (k u : Key) (x : Tlv) :
    (u, x) ∈ (p.composed s caller levels k).carried ↔ (s.lkv u).map Ref.value = some x ∧
      p.Enumerated caller k u ∧ u.length ≤ k.length + levels := by
  induction levels generalizing k with
  | zero =>
    rw [composed, Fold.mem_carried]
    constructor
    · intro h
      rcases h with ⟨rfl, hx⟩ | h
      · exact ⟨hx, enumerated_self u, le_rfl⟩
      · cases h
    · intro h
      obtain ⟨hx, henum, hlen⟩ := h
      have heq : u = k := (henum.1.eq_of_length_le hlen).symm
      exact .inl ⟨heq, heq ▸ hx⟩
  | succ levels ih =>
    rw [composed, Fold.mem_carried, Fold.mem_carriedBy, enumerated_iff]
    constructor
    · intro h
      rcases h with ⟨rfl, hx⟩ | ⟨f, hf, hu⟩
      · exact ⟨hx, .inl rfl, Nat.le_add_right _ _⟩
      obtain ⟨c, hc, rfl⟩ := mem_map.mp hf
      obtain ⟨hx, henum, hlen⟩ := (ih c).mp hu
      refine ⟨hx, .inr ⟨c, hc, henum⟩, ?_⟩
      obtain ⟨-, n, rfl⟩ := mem_members.mp hc
      rw [length_cons] at hlen
      omega
    · intro h
      obtain ⟨hx, rfl | ⟨c, hc, henum⟩, hlen⟩ := h
      · exact .inl ⟨rfl, hx⟩
      refine .inr ⟨_, mem_map_of_mem hc, (ih c).mpr ⟨hx, henum, ?_⟩⟩
      obtain ⟨-, n, rfl⟩ := mem_members.mp hc
      rw [length_cons]
      omega

/-- **What the frame carries**: the values of the vertices to which every level is a member. -/
theorem mem_carried_whole (u : Key) (x : Tlv) : (u, x) ∈ (p.whole s caller k).carried ↔
      (s.lkv u).map Ref.value = some x ∧ p.Enumerated caller k u := by
  rw [whole, mem_carried_composed, ← and_assoc, and_iff_left_of_imp]
  intro h
  by_cases heq : u = k
  · rw [heq]
    exact Nat.le_add_right _ _
  · have hmem := h.2.2 u ⟨h.2.1, fun h' => heq h'.symm⟩ (suffix_refl u)
    exact (length_le_depth hmem.known).trans (Nat.le_add_left _ _)

theorem clean_composed (hvalues : ∀ j r, s.lkv j = some r → WellFormed r.value)
    (hnames : ∀ j, j = k ∨ j ∈ p.wiring.known → (j.headD []).length ≤ 255) (levels : Nat) :
    ∀ v, v = k ∨ v ∈ p.wiring.known → (p.composed s caller levels v).Clean := by
  have hvalue : ∀ v, ∀ x ∈ (s.lkv v).map Ref.value, WellFormed x := by
    intro v x hx
    obtain ⟨r, hr, rfl⟩ := Option.map_eq_some_iff.mp hx
    exact hvalues v r hr
  induction levels with
  | zero =>
    intro v hv
    exact .node (hvalue v) (hnames v hv) fun f hf => nomatch hf
  | succ levels ih =>
    intro v hv
    refine .node (hvalue v) (hnames v hv) fun f hf => ?_
    obtain ⟨c, hc, rfl⟩ := mem_map.mp hf
    exact ih c (.inr (mem_members.mp hc).1.known)

/-! ## What the frame does not depend on -/

instance (caller : Name) (k : Key) : DecidablePred (p.ReadableFrom caller k) := fun u =>
  decidable_of_iff (k <:+ u ∧ ∀ l ∈ u.tails, k <:+ l → p.allows l caller .READ = true) <| by
    simp only [ReadableFrom, mem_tails]
    exact and_congr_right fun _ => forall_congr' fun l => forall_comm

/-- Two trees that are the same once the subtrees below `k` that the caller may not read are cut off:
the vertices that remain are the same, and so is what a composed read sees of each. -/
structure SameView (caller : Name) (k : Key) (p p' : Plane) (s s' : Store) : Prop where
  root : p.allows k caller .READ = p'.allows k caller .READ
  known : p.wiring.known.filter (p.ReadableFrom caller k ·) =
    p'.wiring.known.filter (p'.ReadableFrom caller k ·)
  vertex : ∀ j, j = k ∨ j ∈ p.wiring.known → p.ReadableFrom caller k j →
    p.found j = p'.found j ∧ (p.vertex j).enumHidden = (p'.vertex j).enumHidden ∧
      (s.lkv j).map Ref.value = (s'.lkv j).map Ref.value

variable {v : Key}

theorem readableFrom_cons {n : Name} (h : p.ReadableFrom caller k v) :
    p.ReadableFrom caller k (n :: v) ↔ p.allows (n :: v) caller .READ = true := by
  constructor
  · intro hn
    exact hn.2 _ hn.1 (suffix_refl _)
  · intro hallowed
    refine ⟨h.1.trans (suffix_cons n v), fun j hkj hjn => ?_⟩
    rcases suffix_cons_iff.mp hjn with rfl | hjv
    · exact hallowed
    · exact h.2 j hkj hjv

theorem members_eq (h : p.ReadableFrom caller k v) :
    p.members caller v = (p.wiring.known.filter (p.ReadableFrom caller k ·)).filter fun c =>
      decide (c ≠ [] ∧ c.tail = v) && (p.found c && !(p.vertex c).enumHidden) := by
  unfold members children
  rw [filter_filter, filter_filter]
  refine filter_congr fun c _ => ?_
  by_cases hkey : c ≠ [] ∧ c.tail = v
  · obtain ⟨n, q, rfl⟩ := exists_cons_of_ne_nil hkey.1
    obtain rfl : q = v := hkey.2
    have hread : decide (p.ReadableFrom caller k (n :: q)) = p.allows (n :: q) caller .READ := by
      rw [Bool.eq_iff_iff, decide_eq_true_eq]
      exact readableFrom_cons h
    rw [decide_eq_true hkey, hread, Bool.true_and, Bool.and_true]
  · rw [decide_eq_false hkey]
    simp

section

variable (h : SameView caller k p p' s s')
include h

section

variable {v : Key} (hv : v = k ∨ v ∈ p.wiring.known) (hread : p.ReadableFrom caller k v)
include hv hread

theorem SameView.readable : p'.ReadableFrom caller k v := by
  rcases hv with rfl | hv
  · exact readableFrom_self (h.root ▸ hread.2 v hread.1 (suffix_refl v))
  have hmem : v ∈ p'.wiring.known.filter (p'.ReadableFrom caller k ·) := by
    rw [← h.known]
    exact mem_filter.mpr ⟨hv, decide_eq_true hread⟩
  exact of_decide_eq_true (mem_filter.mp hmem).2

/-- **A readable vertex has the same members in both trees.** -/
theorem SameView.members : p.members caller v = p'.members caller v := by
  rw [members_eq hread, members_eq (h.readable hv hread), ← h.known]
  refine filter_congr fun c hc => ?_
  obtain ⟨hknown, hc⟩ := mem_filter.mp hc
  obtain ⟨hfound, hlisted, -⟩ := h.vertex c (.inr hknown) (of_decide_eq_true hc)
  rw [hfound, hlisted]

end

theorem SameView.composed (levels : Nat) : ∀ v, v = k ∨ v ∈ p.wiring.known → p.ReadableFrom caller k v →
      p.composed s caller levels v = p'.composed s' caller levels v := by
  induction levels with
  | zero =>
    intro v hv hread
    rw [Plane.composed, Plane.composed, (h.vertex v hv hread).2.2]
  | succ levels ih =>
    intro v hv hread
    rw [Plane.composed, Plane.composed, (h.vertex v hv hread).2.2, ← h.members hv hread]
    refine congrArg _ (map_congr_left fun c hc => ?_)
    obtain ⟨hmem, n, rfl⟩ := mem_members.mp hc
    exact ih _ (.inr hmem.known) ((readableFrom_cons hread).mpr hmem.allowed)

end

theorem whole_eq_composed {levels : Nat} (h : p.depth ≤ levels) :
    p.whole s caller k = p.composed s caller levels k := by
  induction levels, h using Nat.le_induction with
  | base => rfl
  | succ levels hle ih =>
    rw [ih]
    exact (composed_enough s caller levels k (hle.trans (Nat.le_add_left _ _))).symm

/-- **Where the caller may not read, the trees may differ**: the frame is the same. -/
theorem SameView.whole (h : SameView caller k p p' s s') (hk : p.allows k caller .READ = true) :
    p.whole s caller k = p'.whole s' caller k := by
  rw [whole_eq_composed (Nat.le_max_left p.depth p'.depth),
    whole_eq_composed (Nat.le_max_right p.depth p'.depth)]
  exact h.composed _ k (.inl rfl) (readableFrom_self hk)

/-! ## The read as a whole -/

theorem readSubtree_eq (hk : p.allows k caller .READ = true) {rounds : Nat}
    (h : (p.whole s caller k).size ≤ rounds) :
    p.readSubtree rounds k caller s = some (.ok ((p.whole s caller k).bytes false)) := by
  unfold readSubtree
  rw [hk, Bool.not_true, if_neg nofun, collect_eq rounds _ _ (by
    simpa [toVisit, Fold.sizes] using h)]
  simp [snapStack, emit_snap]

/-- **The composed read.**  If the caller may not read the vertex it is refused; otherwise it ends
with one frame, which is one well-formed TLV if it has fewer than 2³² bytes, and which carries the
values of exactly those vertices to which every level is registered, enumerated and readable.  Trees
that differ only where the caller may not read have the same answer. -/
theorem composed_read_exact (p : Plane) (k : Key) (caller : Name) (s : Store)
    (hvalues : ∀ j r, s.lkv j = some r → WellFormed r.value)
    (hnames : ∀ j, j = k ∨ j ∈ p.wiring.known → (j.headD []).length ≤ 255) :
    (p.allows k caller .READ = false → ∀ rounds,
      p.readSubtree rounds k caller s = some (.error .PERMISSION_DENIED)) ∧
    (p.allows k caller .READ = true → ∃ f : Fold, (∃ enough, ∀ rounds ≥ enough,
        p.readSubtree rounds k caller s = some (.ok (f.bytes false))) ∧ ((f.bytes false).length < 2 ^ 32 →
        ∃ nd, Parses .VERIFY (f.bytes false) [nd] ∧ treeOf nd = sent (f.tlv false)) ∧
      ∀ u x, (u, x) ∈ f.carried ↔ (s.lkv u).map Ref.value = some x ∧ p.Enumerated caller k u) ∧
    ∀ p' s', SameView caller k p p' s s' → ∃ enough, ∀ rounds ≥ enough,
      p'.readSubtree rounds k caller s' = p.readSubtree rounds k caller s := by
  refine ⟨fun hk rounds => ?_, fun hk => ⟨p.whole s caller k,
    ⟨(p.whole s caller k).size, fun rounds h => ?_⟩, ?_, ?_⟩, ?_⟩
  · unfold readSubtree
    rw [hk]
    rfl
  · exact readSubtree_eq hk h
  · exact (clean_composed hvalues hnames p.depth k (.inl rfl)).parses false
  · exact mem_carried_whole
  · intro p' s' hview
    cases hk : p.allows k caller .READ with
    | false =>
      refine ⟨0, fun rounds _ => ?_⟩
      unfold readSubtree
      rw [← hview.root, hk]
      rfl
    | true =>
      refine ⟨(p.whole s caller k).size, fun rounds h => ?_⟩
      have hwhole := hview.whole hk
      rw [readSubtree_eq hk h, readSubtree_eq (hview.root ▸ hk) (hwhole ▸ h), hwhole]

end Plane

/-! ### A parent and its child -/

namespace State

/-- `/a` and `/a/b`. -/
def family : List Event :=
  [.register parentKey .STORED_VALUE true {},
    .register childKey .STORED_VALUE true {}].map (Event.mk namedEnv)

/-- A value at `/a/b`. -/
def childStore : Store where
  lkv := fun j => if j = childKey then some ⟨0, sample⟩ else none

/-- The composed read of `/a` has the value of `/a/b`. -/
theorem composed_read_family :
    let p := ((machine .allowOnly).run family).plane .allowOnly namedEnv
    ∃ f : Fold, (∃ enough, ∀ rounds ≥ enough,
      p.readSubtree rounds parentKey [] childStore = some (.ok (f.bytes false))) ∧
      (childKey, sample) ∈ f.carried := by
  intro p
  have hvalues : ∀ j r, childStore.lkv j = some r → WellFormed r.value := by
    intro j r hr
    have hsample : sample = r.value := by
      unfold childStore at hr
      dsimp only at hr
      split at hr
      · cases hr
        rfl
      · cases hr
    rw [← hsample]
    exact ⟨by decide, by unfold TlvOf.All; decide, by unfold TlvOf.All; decide⟩
  have hnames : ∀ j, j = parentKey ∨ j ∈ p.wiring.known → (j.headD []).length ≤ 255 := by
    have hall : ∀ j ∈ parentKey :: p.wiring.known, (j.headD []).length ≤ 255 := by decide +kernel
    exact fun j hj => hall j (mem_cons.mpr hj)
  obtain ⟨-, hread, -⟩ := Plane.composed_read_exact p parentKey [] childStore hvalues hnames
  obtain ⟨f, hbytes, -, hcarried⟩ := hread (by decide +kernel)
  refine ⟨f, hbytes, (hcarried childKey sample).mpr ⟨rfl, suffix_cons _ _, ?_⟩⟩
  intro l hl hlc
  rcases suffix_cons_iff.mp hlc with rfl | hlp
  · exact ⟨by decide +kernel, by decide +kernel, by decide +kernel, by decide +kernel⟩
  · exact absurd (hl.1.eq_of_length_le hlp.length_le) hl.2

/-! ### A vertex left out of the enumeration -/

/-- `/a`, and below it `/a/b` with a value, which is then left out of the enumeration. -/
def hiddenChild : List Event :=
  [.register parentKey .STORED_VALUE true {}, .register childKey .STORED_VALUE true {},
    .write childKey sample [], .hide childKey true].map (Event.mk namedEnv)

/-- **The owner may read `/a` and `/a/b`, and the composed read of `/a` leaves the value of `/a/b`
out.** -/
theorem composed_read_skips_hidden :
    let g := (machine .allowOnly).run hiddenChild
    let p := g.plane .allowOnly namedEnv
    p.allows parentKey [] .READ = true ∧ p.allows childKey [] .READ = true ∧
      (g.store.lkv childKey).isSome = true ∧
      p.readSubtree 2 parentKey [] g.store = some (.ok [7, 64, 0, 0]) := by
  decide +kernel

end State

end LibTracer.Graph
