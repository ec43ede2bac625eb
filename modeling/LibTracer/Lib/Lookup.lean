import Mathlib.Data.List.Basic

/-!
# Lookups in ordered tables

A table searched in order answers with its first match.  When at most one entry can match, the search
finds an entry exactly if it matches.
-/

namespace Lookup

open List

variable {α : Type*} {a b : α} {l : List α} {p : α → Bool} {β κ : Type*} {i : Nat}

theorem find?_eq_some_iff (huniq : ∀ a b, a ∈ l → b ∈ l → p a = true → p b = true → a = b) :
    l.find? p = some a ↔ a ∈ l ∧ p a = true := by
  constructor
  · intro h
    exact ⟨mem_of_find?_eq_some h, List.find?_some h⟩
  · rintro ⟨hmem, hp⟩
    cases hfind : l.find? p with
    | none => exact absurd hp (List.find?_eq_none.mp hfind a hmem)
    | some b =>
      rw [huniq a b hmem (mem_of_find?_eq_some hfind) hp (List.find?_some hfind)]

/-- The first answer of a table has a property exactly if, wherever a slot answers, that slot or an
earlier one answers with the property. -/
theorem findSome?_forall_iff (l : List α) (f : α → Option β) (P : β → Prop) :
    (∀ b, l.findSome? f = some b → P b) ↔ ∀ (j : Nat) (a : α), l[j]? = some a → (f a).isSome = true →
        ∃ i ≤ j, ∃ a' b, l[i]? = some a' ∧ f a' = some b ∧ P b := by
  induction l with
  | nil => simp
  | cons a l ih =>
    cases hfa : f a with
    | some b =>
      rw [List.findSome?_cons, hfa]
      constructor
      · intro h j _ _ _
        exact ⟨0, Nat.zero_le j, a, b, rfl, hfa, h b rfl⟩
      · intro h b' hb'
        obtain ⟨i, hi, a', b'', ha', hb'', hP⟩ := h 0 a rfl (by rw [hfa]; rfl)
        obtain rfl := Nat.le_zero.mp hi
        cases ha'
        cases hfa.symm.trans hb''
        cases hb'
        exact hP
    | none =>
      rw [List.findSome?_cons, hfa, ih]
      constructor
      · intro h j x hx hsome
        cases j with
        | zero =>
          cases hx
          rw [hfa] at hsome
          exact nomatch hsome
        | succ j =>
          obtain ⟨i, hi, rest⟩ := h j x hx hsome
          exact ⟨i + 1, Nat.succ_le_succ hi, rest⟩
      · intro h j x hx hsome
        obtain ⟨i, hi, a', b, ha', hb, hP⟩ := h (j + 1) x hx hsome
        cases i with
        | zero =>
          cases ha'
          cases hfa.symm.trans hb
        | succ i => exact ⟨i, Nat.le_of_succ_le_succ hi, a', b, ha', hb, hP⟩

theorem place_unique {key : α → κ} (h : (l.map key).Nodup) {j : Nat}
    (hi : l[i]? = some a) (hj : l[j]? = some b) (hkey : key a = key b) : i = j := by
  have hi' : (l.map key)[i]? = some (key a) := by rw [List.getElem?_map, hi]; rfl
  have hj' : (l.map key)[j]? = some (key a) := by rw [List.getElem?_map, hj, hkey]; rfl
  obtain ⟨hlen, -⟩ := List.getElem?_eq_some_iff.mp hi'
  exact (List.getElem?_inj hlen h).mp (hi'.trans hj'.symm)

theorem map_modify_of_key {key : α → κ} {f : α → α} (hf : ∀ a, key (f a) = key a)
    (l : List α) (k : Nat) : (l.modify k f).map key = l.map key := by
  refine ext_getElem? fun i => ?_
  rw [List.getElem?_map, List.getElem?_map, List.getElem?_modify]
  cases l[i]? with
  | none => rfl
  | some a =>
    by_cases hk : k = i
    · simp [hk, hf]
    · simp [hk]

theorem modify_length_concat (l : List α) (a : α) (f : α → α) :
    (l ++ [a]).modify l.length f = l ++ [f a] := by
  induction l with
  | nil => rfl
  | cons b l ih => exact congrArg (b :: ·) ih

theorem countP_set_add
    (h : l[i]? = some b) (a : α) : (l.set i a).countP p + (p b).toNat = l.countP p + (p a).toNat := by
  obtain ⟨hi, rfl⟩ := List.getElem?_eq_some_iff.mp h
  rw [countP_set hi]
  cases hb : p l[i] with
  | true =>
    have hpos : 0 < l.countP p := countP_pos_iff.mpr ⟨l[i], getElem_mem hi, hb⟩
    cases p a <;> simp <;> omega
  | false => cases p a <;> simp

/-- **The scan rule**: what one step keeps of the elements seen so far holds of all elements after
the scan. -/
theorem foldl_seen {P : List α → β → Prop} {f : β → α → β}
    (hstep : ∀ seen b a, P seen b → P (seen ++ [a]) (f b a)) {seen : List α} {b : β} (h : P seen b)
    (l : List α) : P (seen ++ l) (l.foldl f b) := by
  induction l generalizing seen b with
  | nil => rwa [append_nil]
  | cons a l ih =>
    have := ih (hstep seen b a h)
    rwa [append_assoc] at this

end Lookup
