import LibTracer.Graph.Branch

/-!
# Folded frames

A folded sweep and a composed read build one `POINT` frame from the values of a subtree.  The frame
is a tree of nodes, each with its vertex; a receiver sees the `NAME`s only.

* **`Fold.Placed.landings`** — a value is read at the path its vertex has below the root.
-/

namespace LibTracer.Graph

open Wire List

/-! ## What a reader finds -/

/-- A segment, written as the `NAME` of a node and read back. -/
def spelt (n : Name) : Name := segment (octets n)

theorem spelt_eq {n : Name} (h : ∀ c ∈ n, c.toNat < 256) : spelt n = n := by
  unfold spelt segment octets
  rw [map_map]
  refine (map_congr_left fun c hc => ?_).trans (map_id n)
  have hc' : (UInt8.ofNat c.toNat).toNat = c.toNat := by
    rw [UInt8.toNat_ofNat']
    exact Nat.mod_eq_of_lt (h c hc)
  show Char.ofNat (UInt8.ofNat c.toNat).toNat = c
  rw [hc', Char.ofNat_toNat]

section Landings

variable {k : Key} {c : Tlv} {cs : List Tlv}

theorem mem_landingsOf {v : Key × Tlv} : v ∈ landingsOf k cs ↔ ∃ c ∈ cs,
    v ∈ if c.type = VALUE then [(k, c)]
      else if c.type = POINT then landings (leadingName c :: k) c else [] := by
  induction cs with
  | nil => simp [landingsOf]
  | cons d cs ih => simp [landingsOf, ih]

theorem mem_landingsOf_value (hc : c ∈ cs) (hvalue : c.type = VALUE) : (k, c) ∈ landingsOf k cs := by
  refine mem_landingsOf.mpr ⟨c, hc, ?_⟩
  rw [if_pos hvalue]
  exact mem_singleton.mpr rfl

theorem mem_landingsOf_point (hc : c ∈ cs) (hpoint : c.type = POINT) {v : Key × Tlv}
    (hv : v ∈ landings (leadingName c :: k) c) : v ∈ landingsOf k cs := by
  refine mem_landingsOf.mpr ⟨c, hc, ?_⟩
  rwa [if_neg (by rw [hpoint]; decide), if_pos hpoint]

end Landings

/-! ## Nodes in their places -/

namespace Fold

def key : Fold → Key
  | node key _ _ => key

/-- Every node is one level below its parent, and what it contributes is a `VALUE`. -/
inductive Placed : Fold → Prop where
  | node {key : Key} {value : Option Tlv} {kids : List Fold}
      (hvalue : ∀ x ∈ value, x.type = VALUE) (hkeys : ∀ f ∈ kids, ∃ n, f.key = n :: key)
      (hkids : ∀ f ∈ kids, Placed f) : Placed (.node key value kids)

theorem mem_carried {key j : Key} {value : Option Tlv} {kids : List Fold} {x : Tlv} :
    (j, x) ∈ (node key value kids).carried ↔ (j = key ∧ value = some x) ∨ (j, x) ∈ carriedBy kids := by
  rw [carried, mem_append]
  simp [eq_comm, and_comm]

theorem carriedBy_append (fs gs : List Fold) : carriedBy (fs ++ gs) = carriedBy fs ++ carriedBy gs := by
  induction fs with
  | nil => rfl
  | cons f fs ih => rw [cons_append, carriedBy, carriedBy, ih, append_assoc]

variable {f : Fold}

theorem tlvs_eq_map : ∀ fs : List Fold, tlvs fs = fs.map (tlv true)
  | [] => rfl
  | f :: fs => congrArg (tlv true f :: ·) (tlvs_eq_map fs)

theorem mem_tlvs {fs : List Fold} (hf : f ∈ fs) : f.tlv true ∈ tlvs fs := by
  rw [tlvs_eq_map]
  exact mem_map_of_mem hf

theorem tlv_type (named : Bool) (f : Fold) : (f.tlv named).type = POINT := by
  cases f
  rw [tlv]
  rfl

theorem leadingName_tlv (f : Fold) : leadingName (f.tlv true) = spelt (f.key.headD []) := by
  obtain ⟨key, value, kids⟩ := f
  rw [tlv]
  rfl

/-- **A value of a frame is read at the path of its vertex** below the frame's root, wherever the
frame is read. -/
theorem Placed.landings (h : f.Placed) (named : Bool) : ∀ c ∈ f.carried, ∃ names, c.1 = names ++ f.key ∧
      ∀ base : Key, (names.map spelt ++ base, c.2) ∈ Graph.landings base (f.tlv named) := by
  induction h generalizing named with
  | @node key value kids hvalue hkeys hkids ih =>
    intro c hc
    rw [carried] at hc
    rcases mem_append.mp hc with hc | hc
    · obtain ⟨x, hx, rfl⟩ := mem_map.mp hc
      refine ⟨[], rfl, fun base => ?_⟩
      rw [tlv, Graph.landings]
      exact mem_landingsOf_value (mem_append_left _ (mem_append_right _ hx))
        (hvalue x (Option.mem_toList.mp hx))
    obtain ⟨f, hf, hc⟩ := mem_carriedBy.mp hc
    obtain ⟨n, hn⟩ := hkeys f hf
    obtain ⟨names, hnames, hread⟩ := ih f hf true c hc
    refine ⟨names ++ [n], by rw [hnames, hn]; simp [Fold.key], fun base => ?_⟩
    rw [tlv, Graph.landings]
    refine mem_landingsOf_point (mem_append_right _ (mem_tlvs hf)) (tlv_type true f) ?_
    have hread' := hread (spelt n :: base)
    rw [leadingName_tlv, hn]
    simpa using hread'

end Fold

end LibTracer.Graph
