import Mathlib.Data.List.Count

/-!
# Joining and splitting at a separator

A name is a list of characters, and its segments lie between the separators.  Joining segments that
hold a separator themselves gives a name that splits differently; counting the separators tells.

* **`splitOn_eq_of_intercalate`** — a name of as many segments as were joined splits into those.
-/

namespace Segments

open List

variable {α : Type*} [DecidableEq α] {sep : α}

theorem splitOn_cons_self (xs : List α) : (sep :: xs).splitOn sep = [] :: xs.splitOn sep := by
  simp [List.splitOn, splitOnP_cons_eq_if_modifyHead]

theorem splitOn_cons_ne {x : α} (h : x ≠ sep) (xs : List α) :
    (x :: xs).splitOn sep = (xs.splitOn sep).modifyHead (x :: ·) := by
  simp [List.splitOn, splitOnP_cons_eq_if_modifyHead, h]

theorem length_splitOn (xs : List α) : (xs.splitOn sep).length = xs.count sep + 1 := by
  induction xs with
  | nil => simp
  | cons x xs ih =>
    by_cases h : x = sep
    · rw [h, splitOn_cons_self, length_cons, count_cons_self, ih]
    · rw [splitOn_cons_ne h, length_modifyHead, count_cons_of_ne h, ih]

omit [DecidableEq α] in
theorem intercalate_cons (x : List α) (xs : List (List α)) :
    [sep].intercalate (x :: xs) = x ++ xs.flatMap (sep :: ·) := by
  induction xs generalizing x with
  | nil => simp [List.intercalate, List.intersperse]
  | cons y ys ih =>
    have hstep : [sep].intercalate (x :: y :: ys) = x ++ sep :: [sep].intercalate (y :: ys) := by
      simp [List.intercalate, List.intersperse]
    rw [hstep, ih, flatMap_cons, cons_append]

variable {ls : List (List α)} {xs : List α}

theorem count_intercalate (h : ls ≠ []) :
    ([sep].intercalate ls).count sep + 1 = ls.length + ls.flatten.count sep := by
  have hrest : ∀ xs : List (List α),
      (xs.flatMap (sep :: ·)).count sep = xs.length + xs.flatten.count sep := by
    intro xs
    induction xs with
    | nil => rfl
    | cons x xs ih =>
      rw [flatMap_cons, count_append, count_cons_self, ih, flatten_cons, count_append, length_cons]
      omega
  cases ls with
  | nil => exact absurd rfl h
  | cons x xs =>
    rw [intercalate_cons, count_append, hrest, flatten_cons, count_append, length_cons]
    omega

/-- **A name joined of as many segments as it has splits into those.** -/
theorem splitOn_eq_of_intercalate (hls : ls ≠ [])
    (hjoin : [sep].intercalate ls = xs) (hlen : ls.length = xs.count sep + 1) : xs.splitOn sep = ls := by
  have hcount : ([sep].intercalate ls).count sep + 1 = _ := count_intercalate hls
  have hnone : sep ∉ ls.flatten := by
    rw [hjoin] at hcount
    rw [← count_eq_zero]
    omega
  rw [← hjoin]
  exact splitOn_intercalate sep
    (fun l hl hsep => hnone (mem_flatten.mpr ⟨l, hl, hsep⟩)) hls

/-! ## Scanning -/

variable (sep) in
/-- What stands before the first separator, and what follows it; none where there is no separator. -/
def cutAt : List α → List α × Option (List α)
  | [] => ([], none)
  | x :: xs => if x = sep then ([], some xs) else (x :: (cutAt xs).1, (cutAt xs).2)

theorem cutAt_of_notMem (h : sep ∉ xs) : cutAt sep xs = (xs, none) := by
  induction xs with
  | nil => rfl
  | cons x xs ih =>
    rw [mem_cons, not_or] at h
    rw [cutAt, if_neg (Ne.symm h.1), ih h.2]

theorem cutAt_append (h : sep ∉ xs) (ys : List α) : cutAt sep (xs ++ sep :: ys) = (xs, some ys) := by
  induction xs with
  | nil => rw [nil_append, cutAt, if_pos rfl]
  | cons x xs ih =>
    rw [mem_cons, not_or] at h
    rw [cons_append, cutAt, if_neg (Ne.symm h.1), ih h.2]

/-- **The cut gives the list back**, and holds no separator in its first part. -/
theorem of_cutAt {front : List α} {rest : Option (List α)} (h : cutAt sep xs = (front, rest)) :
    sep ∉ front ∧ (rest = none ∧ xs = front ∨ ∃ ys, rest = some ys ∧ xs = front ++ sep :: ys) := by
  induction xs generalizing front with
  | nil =>
    cases h
    exact ⟨not_mem_nil, .inl ⟨rfl, rfl⟩⟩
  | cons x xs ih =>
    rw [cutAt] at h
    split at h
    next hx =>
      cases h
      exact ⟨not_mem_nil, .inr ⟨xs, rfl, by rw [hx]; rfl⟩⟩
    next hx =>
    cases h
    obtain ⟨hnone, hrest⟩ := ih rfl
    refine ⟨?_, ?_⟩
    · rw [mem_cons, not_or]
      exact ⟨Ne.symm hx, hnone⟩
    · refine hrest.imp (fun hend => ⟨hend.1, congrArg (x :: ·) hend.2⟩) ?_
      intro hmore
      obtain ⟨ys, hsome, heq⟩ := hmore
      exact ⟨ys, hsome, congrArg (x :: ·) heq⟩

end Segments
