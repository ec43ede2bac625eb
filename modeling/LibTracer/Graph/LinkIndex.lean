import LibTracer.Graph.Basic
import Mathlib.Data.List.Sort

/-!
# The departure index

`link_index_t`: which vertices may hold an edge that a link admitted.  When a link departs, only the
vertices listed under its name are visited, so a vertex that is missing from the list keeps the edges
of a link that is gone.  Each of its named slots lists its vertices as a sorted run and an unsorted
tail.

* **`lists_indexVertex`**, **`lists_candidates`** — indexing drops nobody; taking the candidates of a
  name drops that name and no other.
-/

namespace LibTracer.Graph

open List

/-! ## Candidate lists -/

section Candidates

variable {α : Type} [LinearOrder α]

/-- `std::unique`: of a run of equals, the last. -/
def unique : List α → List α
  | a :: b :: l => if a = b then unique (b :: l) else a :: unique (b :: l)
  | l => l

variable {v : α}

theorem mem_unique : ∀ {l : List α}, v ∈ unique l ↔ v ∈ l
  | [] => Iff.rfl
  | [_] => Iff.rfl
  | a :: b :: l => by
    rw [unique]
    split
    next hab =>
      rw [mem_unique, hab, mem_cons (l := b :: l), mem_cons]
      exact ⟨Or.inr, fun h => h.elim Or.inl id⟩
    · rw [mem_cons, mem_unique, mem_cons (l := b :: l)]

def compactCandidates (vs : List α) : List α := unique (vs.mergeSort (· ≤ ·))

variable {vs : List α}

@[simp] theorem mem_compactCandidates : v ∈ compactCandidates vs ↔ v ∈ vs := by
  rw [compactCandidates, mem_unique, mem_mergeSort]

/-- The binary search of `candidates_contain` between two places of the sorted run. -/
def searchRun (vs : List α) (v : α) (lo hi : Nat) : Bool :=
  if lo < hi then
    let mid := lo + (hi - lo) / 2
    match vs[mid]? with
    | none => false
    | some a =>
      if a = v then true
      else if a < v then searchRun vs v (mid + 1) hi
      else searchRun vs v lo mid
  else false
termination_by hi - lo
decreasing_by all_goals omega

/-- `candidates_contain`: the first `sorted` entries are sorted. -/
def candidatesContain (vs : List α) (sorted : Nat) (v : α) : Bool :=
  searchRun vs v 0 sorted || (vs.drop sorted).contains v

theorem mem_of_searchRun (lo hi : Nat) (h : searchRun vs v lo hi = true) : v ∈ vs := by
  fun_induction searchRun vs v lo hi with
  | case1 | case5 => cases h
  | case2 lo hi hlt mid ha => exact mem_of_getElem? ha
  | case3 lo hi hlt mid a ha hne hav ih | case4 lo hi hlt mid a ha hne hav ih => exact ih h

theorem mem_of_candidatesContain {sorted : Nat} (h : candidatesContain vs sorted v = true) : v ∈ vs := by
  rcases (Bool.or_eq_true _ _).mp h with h | h
  · exact mem_of_searchRun 0 sorted h
  · exact mem_of_mem_drop (contains_iff_mem.mp h)

end Candidates

/-! ## The table -/

/-- `link_id_t`: a carried token. -/
structure LinkToken where
  slot : Nat
  generation : BitVec 32
  deriving DecidableEq, Repr

/-- `link_slot_t`.  A dead slot has the empty name, and `next` is the free slot after it. -/
structure LinkSlot (α : Type) where
  vs : List α := []
  compacted : Nat := 0
  next : Option Nat := none
  generation : BitVec 32 := 0
  name : Name := []

structure LinkIndex (α : Type) where
  slots : List (LinkSlot α) := []
  freeHead : Option Nat := none

def kCompactFloor : Nat := 8

namespace LinkSlot

variable {α : Type} [LinearOrder α]

def compact (s : LinkSlot α) : LinkSlot α :=
  { s with vs := compactCandidates s.vs, compacted := (compactCandidates s.vs).length }

def compactTail (s : LinkSlot α) : LinkSlot α := if s.vs.length = s.compacted then s else s.compact

/-- The insert of `index_vertex`: a listed vertex is not listed again, and a long tail is merged. -/
def insert (s : LinkSlot α) (v : α) : LinkSlot α :=
  if candidatesContain s.vs s.compacted v then s
  else
    let s := { s with vs := s.vs ++ [v] }
    if s.vs.length - s.compacted ≥ kCompactFloor then s.compact else s

@[simp] theorem name_compactTail (s : LinkSlot α) : s.compactTail.name = s.name := by
  unfold compactTail
  split <;> rfl

variable {s : LinkSlot α} {v : α}

@[simp] theorem mem_compactTail : v ∈ s.compactTail.vs ↔ v ∈ s.vs := by
  unfold compactTail
  split
  · exact Iff.rfl
  · exact mem_compactCandidates

@[simp] theorem name_insert (s : LinkSlot α) (v : α) : (s.insert v).name = s.name := by
  unfold insert
  split
  · rfl
  · dsimp only
    split <;> rfl

@[simp] theorem mem_insert {u : α} : u ∈ (s.insert v).vs ↔ u = v ∨ u ∈ s.vs := by
  unfold insert
  split
  next h => exact ⟨Or.inr, fun hu => hu.elim (fun e => e ▸ mem_of_candidatesContain h) id⟩
  have hpush : u ∈ s.vs ++ [v] ↔ u = v ∨ u ∈ s.vs := by
    rw [mem_append, mem_singleton, or_comm]
  dsimp only
  split
  · exact mem_compactCandidates.trans hpush
  · exact hpush

def released (s : LinkSlot α) (next : Option Nat) : LinkSlot α where
  next := next
  generation := if s.generation + 1 = 0 then 1 else s.generation + 1

end LinkSlot

namespace LinkIndex

variable {α : Type}

def modify (x : LinkIndex α) (i : Nat) (f : LinkSlot α → LinkSlot α) : LinkIndex α :=
  { x with slots := x.slots.modify i f }

def findSlot (x : LinkIndex α) (name : Name) : Option Nat := x.slots.findIdx? (·.name = name)

/-- `intern_locked` of a name that is not empty, the slot it answers with: the one of that name, the
first free one, or a new one. -/
def intern (x : LinkIndex α) (name : Name) : Nat × LinkIndex α :=
  match x.findSlot name with
  | some i => (i, x)
  | none =>
    match x.freeHead with
    | some i =>
      (i,
        { slots := x.slots.modify i fun s =>
            { s with
              compacted := 0
              generation := if s.generation = 0 then 1 else s.generation
              name }
          freeHead := x.slots[i]?.bind LinkSlot.next })
    | none => (x.slots.length, { x with slots := x.slots ++ [{ generation := 1, name }] })

def carries (x : LinkIndex α) (t : LinkToken) (link : Name) : Bool :=
  t.generation != 0 &&
    x.slots[t.slot]?.any fun s => s.generation == t.generation && s.name == link

def releaseSlot (x : LinkIndex α) (i : Nat) : LinkIndex α where
  slots := x.slots.modify i (·.released x.freeHead)
  freeHead := some i

section Ordered

variable [LinearOrder α]

def indexVertex (x : LinkIndex α) (link : Name) (token : LinkToken) (v : α) : LinkIndex α :=
  if link.isEmpty then x
  else
    let (i, x) := if x.carries token link then (token.slot, x) else x.intern link
    x.modify i (·.insert v)

/-- `candidate_count`, its effect: the list of the link is compacted. -/
def compactLink (x : LinkIndex α) (link : Name) : LinkIndex α :=
  match x.findSlot link with
  | none => x
  | some i => x.modify i LinkSlot.compactTail

/-- `candidates`: the list of the link, copied or taken with its slot. -/
def candidates (x : LinkIndex α) (link : Name) (take : Bool) : List α × LinkIndex α :=
  match x.findSlot link with
  | none => ([], x)
  | some i =>
    let x := x.modify i LinkSlot.compactTail
    ((x.slots[i]?.map LinkSlot.vs).getD [], if take then x.releaseSlot i else x)

end Ordered

/-! ## Soundness of the table -/

/-- The free list from a slot on: dead slots, each naming the next. -/
inductive FreeChain (slots : List (LinkSlot α)) : Option Nat → List Nat → Prop where
  | none : FreeChain slots none []
  | cons {i : Nat} {s : LinkSlot α} {free : List Nat} (hs : slots[i]? = some s)
      (hdead : s.name = []) (hnext : FreeChain slots s.next free) :
      FreeChain slots (some i) (i :: free)

/-- Live slots have distinct names, and the free list runs through dead slots without a cycle. -/
structure Sound (x : LinkIndex α) : Prop where
  distinct : ∀ (i j : Nat) (s t : LinkSlot α), x.slots[i]? = some s → x.slots[j]? = some t →
    s.name = t.name → s.name ≠ [] → i = j
  chain : ∃ free, FreeChain x.slots x.freeHead free ∧ free.Nodup

def Lists (x : LinkIndex α) (link : Name) (v : α) : Prop :=
  ∃ (i : Nat) (s : LinkSlot α), x.slots[i]? = some s ∧ s.name = link ∧ v ∈ s.vs

variable {slots : List (LinkSlot α)} {head : Option Nat} {free : List Nat}

theorem FreeChain.congr {slots' : List (LinkSlot α)}
    (h : FreeChain slots head free) (hsame : ∀ i ∈ free, slots'[i]? = slots[i]?) :
    FreeChain slots' head free := by
  induction h with
  | none => exact .none
  | @cons i s free hs hdead _ ih =>
    exact .cons ((hsame i mem_cons_self).trans hs) hdead
      (ih fun j hj => hsame j (mem_cons_of_mem i hj))

theorem FreeChain.dead
    (h : FreeChain slots head free) : ∀ i ∈ free, ∃ s, slots[i]? = some s ∧ s.name = [] := by
  induction h with
  | none => exact fun _ hi => nomatch hi
  | @cons i s free hs hdead _ ih =>
    exact forall_mem_cons.mpr ⟨⟨s, hs, hdead⟩, ih⟩

variable {i : Nat}

theorem FreeChain.of_some (h : FreeChain slots (some i) free) :
    ∃ s rest, free = i :: rest ∧ slots[i]? = some s ∧ s.name = [] ∧ FreeChain slots s.next rest := by
  cases h with
  | cons hs hdead hnext => exact ⟨_, _, rfl, hs, hdead, hnext⟩

variable {s : LinkSlot α}

theorem FreeChain.not_mem (h : FreeChain slots head free) (hs : slots[i]? = some s)
    (hlive : s.name ≠ []) : i ∉ free := by
  intro hi
  obtain ⟨s', hs', hdead⟩ := h.dead i hi
  rw [hs] at hs'
  cases hs'
  exact hlive hdead

variable {l : List (LinkSlot α)} {f : LinkSlot α → LinkSlot α} {j : Nat}

theorem getElem?_modify_self (h : l[i]? = some s) : (l.modify i f)[i]? = some (f s) := by
  rw [getElem?_modify_eq, h]
  rfl

variable {x : LinkIndex α} {link name : Name} {u v : α}

theorem findSlot_some (h : x.findSlot name = some i) : ∃ s, x.slots[i]? = some s ∧ s.name = name := by
  obtain ⟨hi, hname, -⟩ := List.findIdx?_eq_some_iff_getElem.mp h
  exact ⟨x.slots[i], List.getElem?_eq_getElem hi, of_decide_eq_true hname⟩

theorem findSlot_none (h : x.findSlot name = none) (hs : x.slots[i]? = some s) : s.name ≠ name := by
  have hnone := List.findIdx?_eq_none_iff.mp h s (mem_of_getElem? hs)
  exact of_decide_eq_false hnone

theorem getElem?_modify_cases {t : LinkSlot α} (ht : (x.modify i f).slots[j]? = some t) :
    (j ≠ i ∧ x.slots[j]? = some t) ∨ (j = i ∧ ∃ s, x.slots[i]? = some s ∧ t = f s) := by
  by_cases hj : j = i
  · subst hj
    cases hs : x.slots[j]? with
    | none =>
      rw [modify, List.getElem?_modify, hs] at ht
      cases ht
    | some s =>
      rw [modify, getElem?_modify_self hs] at ht
      exact Or.inr ⟨rfl, s, rfl, (Option.some.inj ht).symm⟩
  · rw [modify, getElem?_modify_ne _ _ (Ne.symm hj)] at ht
    exact Or.inl ⟨hj, ht⟩

theorem Sound.modify (h : x.Sound) (hs : x.slots[i]? = some s)
    (hlive : s.name ≠ []) (hf : ∀ t, (f t).name = t.name) : (x.modify i f).Sound where
  distinct j k t t' ht ht' hname hne := by
    have hold : ∀ {j : Nat} {t : LinkSlot α}, (x.modify i f).slots[j]? = some t →
        ∃ t₀, x.slots[j]? = some t₀ ∧ t₀.name = t.name := by
      intro j t ht
      rcases getElem?_modify_cases ht with ⟨-, ht⟩ | ⟨rfl, t₀, ht₀, rfl⟩
      · exact ⟨t, ht, rfl⟩
      · exact ⟨t₀, ht₀, (hf t₀).symm⟩
    obtain ⟨t₀, ht₀, hn⟩ := hold ht
    obtain ⟨t₁, ht₁, hn'⟩ := hold ht'
    exact h.distinct j k t₀ t₁ ht₀ ht₁ (by rw [hn, hn', hname]) (by rwa [hn])
  chain := by
    obtain ⟨free, hchain, hnodup⟩ := h.chain
    refine ⟨free, hchain.congr fun j hj => ?_, hnodup⟩
    exact getElem?_modify_ne _ _ fun e : i = j => hchain.not_mem hs hlive (e ▸ hj)

theorem Lists.modify (h : x.Lists link u)
    (hname : ∀ t, (f t).name = t.name) (hmem : ∀ t, u ∈ t.vs → u ∈ (f t).vs) :
    (x.modify i f).Lists link u := by
  obtain ⟨j, t, ht, hlink, hu⟩ := h
  by_cases hj : j = i
  · subst hj
    exact ⟨j, f t, getElem?_modify_self ht, (hname t).trans hlink, hmem t hu⟩
  · exact ⟨j, t, (getElem?_modify_ne _ _ (Ne.symm hj)).trans ht, hlink, hu⟩

/-! ### Interning -/

/-- **Interning**: the name has a live slot, the table stays sound and nobody is dropped. -/
theorem intern_spec (h : x.Sound) (name : Name) : (x.intern name).2.Sound ∧
      (∃ s, (x.intern name).2.slots[(x.intern name).1]? = some s ∧ s.name = name) ∧
      ∀ link v, link ≠ [] → x.Lists link v → (x.intern name).2.Lists link v := by
  unfold intern
  cases hfind : x.findSlot name with
  | some i => exact ⟨h, findSlot_some hfind, fun _ _ _ hl => hl⟩
  | none =>
    obtain ⟨free, hchain, hnodup⟩ := h.chain
    cases hhead : x.freeHead with
    | none =>
      have happ : ∀ {j : Nat} {t : LinkSlot α},
          (x.slots ++ [({ generation := 1, name } : LinkSlot α)])[j]? = some t →
          x.slots[j]? = some t ∨ (j = x.slots.length ∧ t.name = name) := by
        intro j t ht
        rw [List.getElem?_append] at ht
        split at ht
        · exact Or.inl ht
        rw [List.getElem?_singleton] at ht
        split at ht
        · cases ht
          exact Or.inr ⟨by omega, rfl⟩
        · cases ht
      have hold : ∀ {j : Nat} {t : LinkSlot α}, x.slots[j]? = some t →
          (x.slots ++ [({ generation := 1, name } : LinkSlot α)])[j]? = some t := by
        intro j t ht
        rw [List.getElem?_append_left (List.getElem?_eq_some_iff.mp ht).1, ht]
      refine ⟨⟨fun j k t t' ht ht' hname hlive => ?_, free, ?_, hnodup⟩,
        ⟨_, List.getElem?_concat_length .., rfl⟩,
        fun l w _ ⟨j, t, ht, hl⟩ => ⟨j, t, hold ht, hl⟩⟩
      · rcases happ ht with ht | ⟨rfl, hn⟩ <;> rcases happ ht' with ht' | ⟨rfl, hn'⟩
        · exact h.distinct j k t t' ht ht' hname hlive
        · exact absurd (hname.trans hn') (findSlot_none hfind ht)
        · exact absurd (hname.symm.trans hn) (findSlot_none hfind ht')
        · rfl
      · refine (hhead ▸ hchain : FreeChain x.slots none free).congr fun i hi => ?_
        obtain ⟨s, hs, -⟩ := hchain.dead i hi
        rw [hold hs, hs]
    | some i =>
      rw [hhead] at hchain
      obtain ⟨s, rest, rfl, hs, hdead, hnext⟩ := hchain.of_some
      have hrest := nodup_cons.mp hnodup
      have hnew := getElem?_modify_self (f := fun s => { s with
        compacted := 0
        generation := if s.generation = 0 then 1 else s.generation
        name }) hs
      refine ⟨⟨fun j k t t' ht ht' hname hlive => ?_, rest, ?_, hrest.2⟩, ⟨_, hnew, rfl⟩,
        fun l w hl ⟨j, t, ht, hname, hw⟩ => ?_⟩
      · rcases getElem?_modify_cases (x := x) ht with ⟨-, hold⟩ | ⟨hj, _, -, rfl⟩ <;>
          rcases getElem?_modify_cases (x := x) ht' with ⟨-, hold'⟩ | ⟨hk, _, -, rfl⟩
        · exact h.distinct j k t t' hold hold' hname hlive
        · exact absurd hname (findSlot_none hfind hold)
        · exact absurd hname.symm (findSlot_none hfind hold')
        · exact hj.trans hk.symm
      · simp only [hs, Option.bind_some]
        exact hnext.congr fun j hj => getElem?_modify_ne _ _ fun e : i = j => hrest.1 (e ▸ hj)
      · -- the reused slot was dead, so it listed nobody under a name
        have hj : j ≠ i := by
          rintro rfl
          rw [hs] at ht
          cases ht
          exact hl (hname.symm.trans hdead)
        exact ⟨j, t, (getElem?_modify_ne _ _ (Ne.symm hj)).trans ht, hname, hw⟩

/-! ### Releasing -/

theorem releaseSlot_spec (h : x.Sound) (hs : x.slots[i]? = some s) (hlive : s.name ≠ []) :
    (x.releaseSlot i).Sound ∧ ∀ l u, l ≠ s.name → x.Lists l u → (x.releaseSlot i).Lists l u := by
  obtain ⟨free, hchain, hnodup⟩ := h.chain
  have hnot := hchain.not_mem hs hlive
  have hdead : (s.released x.freeHead).name = [] := rfl
  refine ⟨⟨fun j k t t' ht ht' hname hne => ?_, i :: free, ?_, nodup_cons.mpr ⟨hnot, hnodup⟩⟩,
    fun l u hl ⟨j, t, ht, hname, hu⟩ => ?_⟩
  · rcases getElem?_modify_cases (x := x) ht with ⟨-, ht⟩ | ⟨rfl, _, -, rfl⟩
    · rcases getElem?_modify_cases (x := x) ht' with ⟨-, ht'⟩ | ⟨rfl, _, -, rfl⟩
      · exact h.distinct j k t t' ht ht' hname hne
      · exact absurd hname hne
    · exact absurd rfl hne
  · refine .cons (getElem?_modify_self hs) hdead (hchain.congr fun j hj => ?_)
    exact getElem?_modify_ne _ _ fun e : i = j => hnot (e ▸ hj)
  · have hj : j ≠ i := by
      rintro rfl
      rw [hs] at ht
      cases ht
      exact hl hname.symm
    exact ⟨j, t, (getElem?_modify_ne _ _ (Ne.symm hj)).trans ht, hname, hu⟩

/-! ### Indexing -/

section Ordered

variable [LinearOrder α]

/-- **Indexing lists the vertex and drops nobody**, whatever token was carried. -/
theorem lists_indexVertex (h : x.Sound) (hne : link ≠ []) (t : LinkToken) (v : α) :
    (x.indexVertex link t v).Sound ∧ (x.indexVertex link t v).Lists link v ∧
      ∀ l u, l ≠ [] → x.Lists l u → (x.indexVertex link t v).Lists l u := by
  have hinsert : ∀ y : LinkIndex α, y.Sound → ∀ i s, y.slots[i]? = some s → s.name = link →
      (y.modify i (·.insert v)).Sound ∧ (y.modify i (·.insert v)).Lists link v ∧
        ∀ l u, y.Lists l u → (y.modify i (·.insert v)).Lists l u := by
    intro y hy i s hs hname
    refine ⟨hy.modify hs (hname ▸ hne) fun t => LinkSlot.name_insert t v,
      ⟨i, s.insert v, getElem?_modify_self hs, (LinkSlot.name_insert s v).trans hname,
        LinkSlot.mem_insert.mpr (Or.inl rfl)⟩, fun l u hl => ?_⟩
    exact hl.modify (fun t => LinkSlot.name_insert t v) fun t hu => LinkSlot.mem_insert.mpr (Or.inr hu)
  unfold indexVertex
  rw [if_neg (by simpa using hne)]
  by_cases hcarry : x.carries t link = true
  · rw [if_pos hcarry]
    unfold carries at hcarry
    obtain ⟨-, hslot⟩ := (Bool.and_eq_true _ _).mp hcarry
    obtain ⟨s, hs, hspell⟩ := Option.any_eq_true _ _ |>.mp hslot
    obtain ⟨-, hname⟩ := (Bool.and_eq_true _ _).mp hspell
    obtain ⟨h₁, h₂, h₃⟩ := hinsert x h t.slot s hs (beq_iff_eq.mp hname)
    exact ⟨h₁, h₂, fun l u _ => h₃ l u⟩
  · rw [if_neg hcarry]
    obtain ⟨hy, ⟨s, hs, hname⟩, hkeep⟩ := intern_spec h link
    obtain ⟨h₁, h₂, h₃⟩ := hinsert _ hy _ s hs hname
    exact ⟨h₁, h₂, fun l u hl hu => h₃ l u (hkeep l u hl hu)⟩

/-! ### Reading and taking -/

theorem sound_compactLink (h : x.Sound) (hne : link ≠ []) : (x.compactLink link).Sound := by
  unfold compactLink
  split
  · exact h
  next i hi =>
    obtain ⟨s, hs, hname⟩ := findSlot_some hi
    exact h.modify hs (hname ▸ hne) LinkSlot.name_compactTail

theorem lists_compactLink {l : Name} (h : x.Lists l u) : (x.compactLink link).Lists l u := by
  unfold compactLink
  split
  · exact h
  · exact h.modify LinkSlot.name_compactTail fun _ => LinkSlot.mem_compactTail.mpr

/-- **The candidates of a link are those listed under its name**; reading them drops nobody, taking
them drops that name alone. -/
theorem lists_candidates (h : x.Sound) (hne : link ≠ []) (take : Bool) : (x.candidates link take).2.Sound ∧
      (∀ u, x.Lists link u → u ∈ (x.candidates link take).1) ∧
      ∀ l u, (take = true → l ≠ link) → x.Lists l u → (x.candidates link take).2.Lists l u := by
  unfold candidates
  cases hfind : x.findSlot link with
  | none =>
    exact ⟨h, fun u ⟨i, s, hs, hname, _⟩ => absurd hname (findSlot_none hfind hs), fun _ _ _ hl => hl⟩
  | some i =>
    obtain ⟨s, hs, hname⟩ := findSlot_some hfind
    have hnew : (x.modify i LinkSlot.compactTail).slots[i]? = some s.compactTail :=
      getElem?_modify_self hs
    have hsound := h.modify hs (hname ▸ hne) LinkSlot.name_compactTail
    have hkeep : ∀ l u, x.Lists l u → (x.modify i LinkSlot.compactTail).Lists l u := fun l u hl =>
      hl.modify LinkSlot.name_compactTail fun _ => LinkSlot.mem_compactTail.mpr
    have hlisted : ∀ u, x.Lists link u →
        u ∈ ((x.modify i LinkSlot.compactTail).slots[i]?.map LinkSlot.vs).getD [] := by
      rintro u ⟨j, t, ht, htname, hu⟩
      obtain rfl := h.distinct j i t s ht hs (htname.trans hname.symm) (htname ▸ hne)
      rw [hs] at ht
      cases ht
      rw [hnew]
      exact LinkSlot.mem_compactTail.mpr hu
    cases take with
    | false => exact ⟨hsound, hlisted, fun l u _ => hkeep l u⟩
    | true =>
      have hlive : s.compactTail.name ≠ [] := by
        rw [LinkSlot.name_compactTail, hname]
        exact hne
      obtain ⟨hrel, hother⟩ := releaseSlot_spec hsound hnew hlive
      refine ⟨hrel, hlisted, fun l u hl hu => hother l u ?_ (hkeep l u hu)⟩
      rw [LinkSlot.name_compactTail, hname]
      exact hl rfl

theorem candidates_taken (h : x.Sound) (hne : link ≠ []) :
    ((x.candidates link true).2.candidates link true).1 = [] := by
  have hnone : (x.candidates link true).2.findSlot link = none := by
    unfold candidates
    cases hfind : x.findSlot link with
    | none => exact hfind
    | some i =>
      obtain ⟨s, hs, hname⟩ := findSlot_some hfind
      refine List.findIdx?_eq_none_iff.mpr fun t ht => decide_eq_false fun htname => ?_
      obtain ⟨j, hj⟩ := mem_iff_getElem?.mp ht
      rcases getElem?_modify_cases (x := x.modify i LinkSlot.compactTail) hj with
        ⟨hji, hj⟩ | ⟨-, _, -, rfl⟩
      · have hold : x.slots[j]? = some t := (getElem?_modify_ne _ _ (Ne.symm hji)).symm.trans hj
        exact hji (h.distinct j i t s hold hs (htname.trans hname.symm) (htname ▸ hne))
      · exact hne htname.symm
  rw [candidates, hnone]

end Ordered

theorem sound_empty : (⟨[], none⟩ : LinkIndex α).Sound where
  distinct i j s t hs := absurd hs (by simp)
  chain := ⟨[], .none, nodup_nil⟩

end LinkIndex

end LibTracer.Graph
