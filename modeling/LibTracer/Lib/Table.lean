import Mathlib.Data.List.Induction
import Mathlib.Data.List.Nodup

/-!
# Tables by number

A table keeps at most one entry for each number.  Beside the entry of a number it answers with the
nearest entry at or below one.

* `Table.lookup`, `Table.erase`, `Table.put` — the entry of a number.
-/

namespace Table

open List

variable {α : Type*}

def lookup (k : Nat) (t : List (Nat × α)) : Option α := (t.find? fun e => e.1 = k).map Prod.snd

def erase (k : Nat) (t : List (Nat × α)) : List (Nat × α) := t.filter fun e => e.1 ≠ k

/-- A new entry goes to the end; one that is replaced keeps its place. -/
def put (k : Nat) (a : α) (t : List (Nat × α)) : List (Nat × α) :=
  if (lookup k t).isSome then t.map fun e => if e.1 = k then (k, a) else e else t ++ [(k, a)]

/-- The entry with the greatest number at or below `k`. -/
def nearest (k : Nat) (t : List (Nat × α)) : Option (Nat × α) :=
  t.foldl (fun best e => if e.1 ≤ k ∧ best.all (fun b => b.1 < e.1) then some e else best) none

/-- No number has two entries. -/
def Keyed (t : List (Nat × α)) : Prop := (t.map Prod.fst).Nodup

variable {t : List (Nat × α)} {k : Nat} {a : α}

variable {b : α}

theorem Keyed.unique (h : Keyed t) (ha : (k, a) ∈ t) (hb : (k, b) ∈ t) : a = b := by
  have := inj_on_of_nodup_map h ha hb rfl
  exact congrArg Prod.snd this

theorem mem_of_lookup (h : lookup k t = some a) : (k, a) ∈ t := by
  obtain ⟨e, he, rfl⟩ := Option.map_eq_some_iff.mp h
  have hk : e.1 = k := by simpa using find?_some he
  rw [← hk]
  exact mem_of_find?_eq_some he

theorem lookup_isSome : (lookup k t).isSome = true ↔ ∃ a, (k, a) ∈ t := by
  constructor
  · intro h
    obtain ⟨a, ha⟩ := Option.isSome_iff_exists.mp h
    exact ⟨a, mem_of_lookup ha⟩
  · rintro ⟨a, ha⟩
    rw [lookup, Option.isSome_map, find?_isSome]
    exact ⟨(k, a), ha, by simp⟩

theorem lookup_eq_none : lookup k t = none ↔ k ∉ t.map Prod.fst := by
  rw [← Option.not_isSome_iff_eq_none, lookup_isSome]
  simp

/-- Under distinct numbers a lookup finds the entry that is there. -/
theorem Keyed.lookup_eq (h : Keyed t) (ha : (k, a) ∈ t) : lookup k t = some a := by
  obtain ⟨b, hb⟩ := Option.isSome_iff_exists.mp (lookup_isSome.mpr ⟨a, ha⟩)
  rw [hb, h.unique (mem_of_lookup hb) ha]

variable {e : Nat × α}

theorem mem_erase : e ∈ erase k t ↔ e ∈ t ∧ e.1 ≠ k := by
  simp [erase]

theorem Keyed.sublist {t' : List (Nat × α)} (h : Keyed t) (hs : t'.Sublist t) : Keyed t' :=
  List.Nodup.sublist (hs.map Prod.fst) h

theorem Keyed.erase (h : Keyed t) (k : Nat) : Keyed (erase k t) :=
  h.sublist filter_sublist

theorem mem_put : e ∈ put k a t ↔ e = (k, a) ∨ e ∈ t ∧ e.1 ≠ k := by
  rw [put]
  split
  next h =>
    obtain ⟨b, hb⟩ := lookup_isSome.mp h
    constructor
    · intro he
      obtain ⟨x, hx, heq⟩ := mem_map.mp he
      split at heq
      · exact .inl heq.symm
      next hk =>
        exact .inr ⟨heq ▸ hx, heq ▸ hk⟩
    · rintro (rfl | ⟨he, hk⟩)
      · exact mem_map.mpr ⟨(k, b), hb, by simp⟩
      · exact mem_map.mpr ⟨e, he, by simp [hk]⟩
  next h =>
  rw [mem_append, mem_singleton]
  constructor
  · rintro (he | rfl)
    · refine .inr ⟨he, fun hk => h (lookup_isSome.mpr ⟨e.2, ?_⟩)⟩
      rw [← hk]
      exact he
    · exact .inl rfl
  · rintro (rfl | ⟨he, -⟩)
    · exact .inr rfl
    · exact .inl he

variable {k' : Nat}

theorem mem_keys_put (h : k' = k ∨ k' ∈ t.map Prod.fst) : k' ∈ (put k a t).map Prod.fst := by
  by_cases hk : k' = k
  · exact mem_map.mpr ⟨(k, a), mem_put.mpr (.inl rfl), hk.symm⟩
  · obtain ⟨e, he, rfl⟩ := mem_map.mp (h.resolve_left hk)
    exact mem_map_of_mem (mem_put.mpr (.inr ⟨he, hk⟩))

/-- The numbers stay distinct. -/
theorem Keyed.put (h : Keyed t) (k : Nat) (a : α) : Keyed (put k a t) := by
  rw [Table.put]
  split
  · rw [Keyed, map_map]
    have hfst : (t.map (Prod.fst ∘ fun e => if e.1 = k then (k, a) else e)) = t.map Prod.fst := by
      refine map_congr_left fun e _ => ?_
      by_cases he : e.1 = k <;> simp [he]
    rw [hfst]
    exact h
  next hk =>
  rw [Keyed, map_append]
  refine nodup_append.mpr ⟨h, nodup_singleton k, ?_⟩
  intro x hx y hy heq
  obtain ⟨e, he, rfl⟩ := mem_map.mp hx
  have hyk : y = k := by simpa using hy
  refine hk (lookup_isSome.mpr ⟨e.2, ?_⟩)
  rw [← hyk, ← heq]
  exact he

theorem lookup_filter {p : Nat × α → Bool}
    (h : ∀ e ∈ t, e.1 = k → p e = true) : lookup k (t.filter p) = lookup k t := by
  rw [lookup, lookup, find?_filter]
  congr 1
  induction t with
  | nil => rfl
  | cons x t ih =>
    rw [find?_cons, find?_cons, ih fun e he => h e (mem_cons_of_mem x he)]
    by_cases hx : x.1 = k
    · simp [hx, h x mem_cons_self hx]
    · simp [hx]

theorem lookup_erase_ne (h : k' ≠ k) : lookup k' (erase k t) = lookup k' t :=
  lookup_filter fun e _ he => by simp [he, h]

@[simp] theorem lookup_erase_self (t : List (Nat × α)) (k : Nat) : lookup k (erase k t) = none := by
  rw [Option.eq_none_iff_forall_ne_some]
  intro a ha
  exact (mem_erase.mp (mem_of_lookup ha)).2 rfl

theorem lookup_append (t t' : List (Nat × α)) (k : Nat) :
    lookup k (t ++ t') = (lookup k t).or (lookup k t') := by
  rw [lookup, find?_append]
  cases ht : t.find? fun e => e.1 = k <;> simp [lookup, ht]

@[simp] theorem lookup_put_self (t : List (Nat × α)) (k : Nat) (a : α) :
    lookup k (put k a t) = some a := by
  obtain ⟨b, hb⟩ := Option.isSome_iff_exists.mp
    (lookup_isSome.mpr ⟨a, mem_put.mpr (.inl rfl)⟩ : (lookup k (put k a t)).isSome = true)
  rcases mem_put.mp (mem_of_lookup hb) with he | ⟨-, hk⟩
  · rw [hb, (Prod.mk.inj he).2]
  · exact absurd rfl hk

/-- The entries of other numbers stay. -/
theorem lookup_put_ne (h : k' ≠ k) (a : α) : lookup k' (put k a t) = lookup k' t := by
  rw [put]
  split
  · rw [lookup, lookup, find?_map, Option.map_map]
    have hfind : t.find? ((fun e : Nat × α => decide (e.1 = k')) ∘
        fun e => if e.1 = k then (k, a) else e) = t.find? fun e => decide (e.1 = k') := by
      refine congrArg (fun p => t.find? p) (funext fun e => ?_)
      by_cases he : e.1 = k <;> simp [he, Ne.symm h]
    rw [hfind]
    cases hf : t.find? fun e => decide (e.1 = k') with
    | none => rfl
    | some e =>
      have hek : e.1 = k' := by simpa using find?_some hf
      simp [hek, h]
  · rw [lookup_append]
    have hnone : lookup k' [(k, a)] = none := by simp [lookup, Ne.symm h]
    rw [hnone, Option.or_none]

theorem put_of_lookup_none (h : lookup k t = none) (a : α) : put k a t = t ++ [(k, a)] := by
  rw [put, h]
  rfl

theorem length_put_of_lookup_none (h : lookup k t = none) (a : α) : (put k a t).length = t.length + 1 := by
  rw [put_of_lookup_none h, length_append, length_singleton]

/-- A number takes its one entry with it. -/
theorem Keyed.perm_erase (h : Keyed t) (ha : (k, a) ∈ t) : t.Perm ((k, a) :: Table.erase k t) := by
  induction t with
  | nil => exact nomatch ha
  | cons e t ih =>
    obtain ⟨hfresh, ht⟩ := nodup_cons.mp h
    rcases mem_cons.mp ha with rfl | ha
    · have hkeep : Table.erase k t = t := by
        refine filter_eq_self.mpr fun x hx => ?_
        rw [decide_eq_true_eq]
        exact fun hk => hfresh (mem_map.mpr ⟨x, hx, hk⟩)
      rw [Table.erase, filter_cons_of_neg (by simp), ← Table.erase, hkeep]
    · have hne : e.1 ≠ k := fun hk => hfresh (mem_map.mpr ⟨(k, a), ha, hk.symm⟩)
      rw [Table.erase, filter_cons_of_pos (by simpa using hne), ← Table.erase]
      exact ((ih ht ha).cons e).trans (List.Perm.swap (k, a) e _)

theorem Keyed.map_put {β : Type*} (h : Keyed t)
    (ha : lookup k t = some a) {f : Nat × α → β} (hf : f (k, b) = f (k, a)) :
    (Table.put k b t).map f = t.map f := by
  rw [Table.put, ha, if_pos (show (some a).isSome = true from rfl), map_map]
  refine map_congr_left fun e he => ?_
  by_cases hk : e.1 = k
  · have heq : e = (k, a) := inj_on_of_nodup_map h he (mem_of_lookup ha) hk
    simp only [Function.comp_apply, heq, if_pos, hf]
  · simp only [Function.comp_apply, if_neg hk]

section

variable {β : Type*} (f : α → β) (t : List (Nat × α)) (k : Nat)

end

theorem nearest_concat (k : Nat) (t : List (Nat × α)) (e : Nat × α) : nearest k (t ++ [e]) =
      if e.1 ≤ k ∧ (nearest k t).all (fun b => b.1 < e.1) then some e else nearest k t := by
  rw [nearest, foldl_append]
  rfl

/-- **The nearest entry** is one at or below the number that none at or below it exceeds. -/
theorem nearest_spec (k : Nat) (t : List (Nat × α)) :
    (∀ e, nearest k t = some e → e ∈ t ∧ e.1 ≤ k ∧ ∀ x ∈ t, x.1 ≤ k → x.1 ≤ e.1) ∧
      (nearest k t = none → ∀ x ∈ t, k < x.1) := by
  induction t using List.reverseRecOn with
  | nil => exact ⟨fun e he => absurd he (by simp [nearest]), fun _ x hx => absurd hx (by simp)⟩
  | append_singleton t y ih =>
    rw [nearest_concat]
    obtain ⟨hsome, hnone⟩ := ih
    split
    next hy =>
      refine ⟨fun e he => ?_, fun he => by cases he⟩
      cases he
      refine ⟨mem_append_right _ mem_cons_self, hy.1, fun x hx hxk => ?_⟩
      rcases mem_append.mp hx with hx | hx
      · cases hn : nearest k t with
        | none => exact absurd (hnone hn x hx) (by omega)
        | some b =>
          have hlt : b.1 < y.1 := by simpa [hn] using hy.2
          have hle := (hsome b hn).2.2 x hx hxk
          omega
      · exact Nat.le_of_eq (congrArg Prod.fst (mem_singleton.mp hx))
    next hy =>
    refine ⟨fun e he => ?_, fun he x hx => ?_⟩
    · obtain ⟨hmem, hle, hmax⟩ := hsome e he
      refine ⟨mem_append_left _ hmem, hle, fun x hx hxk => ?_⟩
      rcases mem_append.mp hx with hx | hx
      · exact hmax x hx hxk
      rw [mem_singleton.mp hx] at hxk ⊢
      by_contra hlt
      exact hy ⟨hxk, by rw [he]; simpa using Nat.lt_of_not_le hlt⟩
    · rcases mem_append.mp hx with hx | hx
      · exact hnone he x hx
      rw [mem_singleton.mp hx]
      by_contra hlt
      exact hy ⟨Nat.le_of_not_lt hlt, by rw [he]; rfl⟩

theorem Keyed.nearest_eq (h : Keyed t) (he : e ∈ t)
    (hle : e.1 ≤ k) (hmax : ∀ x ∈ t, x.1 ≤ k → x.1 ≤ e.1) : nearest k t = some e := by
  obtain ⟨hsome, hnone⟩ := nearest_spec k t
  cases hn : nearest k t with
  | none => exact absurd (hnone hn e he) (by omega)
  | some b =>
    obtain ⟨hb, hbk, hbmax⟩ := hsome b hn
    have hkey : b.1 = e.1 := Nat.le_antisymm (hmax b hb hbk) (hbmax e he hle)
    have heq : b = e := inj_on_of_nodup_map h hb he hkey
    rw [heq]

end Table
