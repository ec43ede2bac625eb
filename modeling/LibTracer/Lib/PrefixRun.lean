import Mathlib.Data.List.Lex
import Mathlib.Data.List.Sort

/-!
# The run of a prefix in a sorted list

In lexicographic order the words that begin with a given word lie next to each other, that word
first.  So a lower bound and a walk find them in a sorted table (`prefixRun_eq_filter`).
-/

namespace PrefixRun

open List

variable {α β : Type*} [LinearOrder α] {lo w : List α}

theorem prefix_le (h : lo <+: w) : lo ≤ w := by
  refine not_lt.mp ?_
  induction lo generalizing w with
  | nil => exact not_lt_nil w
  | cons a lo ih =>
    obtain ⟨w, rfl, hw⟩ := cons_prefix_iff.mp h
    intro hlt
    rcases cons_lt_cons_iff.mp hlt with haa | ⟨-, hlt⟩
    · exact lt_irrefl a haa
    · exact ih hw hlt

theorem prefix_of_le {v : List α} (hlo : lo ≤ v) (hle : v ≤ w) (h : lo <+: w) : lo <+: v := by
  rw [← not_lt] at hlo hle
  induction lo generalizing v w with
  | nil => exact nil_prefix
  | cons a lo ih =>
    obtain ⟨w, rfl, hw⟩ := cons_prefix_iff.mp h
    cases v with
    | nil => exact absurd (nil_lt_cons a lo) hlo
    | cons b v =>
      have hba : ¬b < a := fun hlt => hlo (cons_lt_cons_iff.mpr (.inl hlt))
      have hab : ¬a < b := fun hlt => hle (cons_lt_cons_iff.mpr (.inl hlt))
      obtain rfl : a = b := le_antisymm (not_lt.mp hba) (not_lt.mp hab)
      refine cons_prefix_iff.mpr ⟨v, rfl, ih (fun hlt => hlo ?_) (fun hlt => hle ?_) hw⟩
      all_goals exact cons_lt_cons_iff.mpr (.inr ⟨rfl, hlt⟩)

/-- The members of a table whose word begins with `lo`: from the lower bound of `lo` on, as long as
they do. -/
def prefixRun (word : β → List α) (lo : List α) (table : List β) : List β :=
  (table.dropWhile fun b => word b < lo).takeWhile fun b => lo <+: word b

/-- **The run is the members it is meant to be**, if the table is sorted. -/
theorem prefixRun_eq_filter (word : β → List α) (lo : List α) {table : List β}
    (h : table.Pairwise fun a b => word a ≤ word b) :
    prefixRun word lo table = table.filter fun b => lo <+: word b := by
  -- past the lower bound, the first member that does not begin with `lo` ends the run
  have hwalk : ∀ table : List β, table.Pairwise (fun a b => word a ≤ word b) →
      (∀ b ∈ table, lo ≤ word b) →
      (table.takeWhile fun b => lo <+: word b) = table.filter fun b => lo <+: word b := by
    intro table
    induction table with
    | nil => exact fun _ _ => rfl
    | cons b table ih =>
      intro h hlo
      rw [pairwise_cons] at h
      by_cases hb : lo <+: word b
      · have hrest := ih h.2 fun c hc => hlo c (mem_cons_of_mem b hc)
        rw [takeWhile_cons_of_pos (by simpa using hb), filter_cons_of_pos (by simpa using hb), hrest]
      have hnone : (table.filter fun b => lo <+: word b) = [] := by
        rw [filter_eq_nil_iff]
        intro c hc hlater
        exact hb (prefix_of_le (hlo b mem_cons_self) (h.1 c hc) (by simpa using hlater))
      rw [takeWhile_cons_of_neg (by simpa using hb), filter_cons_of_neg (by simpa using hb), hnone]
  unfold prefixRun
  induction table with
  | nil => rfl
  | cons b table ih =>
    rw [pairwise_cons] at h
    by_cases hb : word b < lo
    · have hnot : ¬ lo <+: word b := fun hpre => not_lt_of_ge (prefix_le hpre) hb
      rw [dropWhile_cons_of_pos (by simpa using hb), ih h.2, filter_cons_of_neg (by simpa using hnot)]
    have hle : lo ≤ word b := not_lt.mp hb
    rw [dropWhile_cons_of_neg (by simpa using hb)]
    exact hwalk _ (pairwise_cons.mpr h) (forall_mem_cons.mpr ⟨hle, fun c hc => hle.trans (h.1 c hc)⟩)

end PrefixRun
