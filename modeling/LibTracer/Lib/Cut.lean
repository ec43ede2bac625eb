import LibTracer.Lib.Window

/-!
# Cutting a list into windows

A list is cut into windows of one width; only the last may be shorter.  The windows put together are the
list again (`flatten_cut`), and a window is found by its place.
-/

namespace Window

open List

variable {α : Type}

/-- How many windows of width `w` a list of length `n` takes. -/
def cuts (w n : Nat) : Nat := (n + w - 1) / w

/-- The windows of width `w` of a list. -/
def cut (w : Nat) (xs : List α) : List (List α) :=
  (List.range (cuts w xs.length)).map fun i => window xs (i * w) w

@[simp] theorem length_cut (w : Nat) (xs : List α) : (cut w xs).length = cuts w xs.length := by
  simp [cut]

variable {w i : Nat}

theorem getElem?_cut {xs : List α} (h : i < cuts w xs.length) :
    (cut w xs)[i]? = some (window xs (i * w) w) := by
  simp [cut, h]

theorem mul_lt_of_lt_cuts {n : Nat} (hw : 0 < w) (h : i < cuts w n) : i * w < n := by
  have hdiv : (i + 1) * w ≤ n + w - 1 := (Nat.le_div_iff_mul_le hw).mp h
  rw [Nat.add_mul, Nat.one_mul] at hdiv
  omega

theorem le_cuts_mul (n : Nat) (hw : 0 < w) : n ≤ cuts w n * w := by
  have hlt : (n + w - 1) < ((n + w - 1) / w + 1) * w := by
    rw [Nat.mul_comm]
    exact Nat.lt_mul_div_succ _ hw
  rw [Nat.add_mul, Nat.one_mul] at hlt
  rw [cuts]
  omega

theorem length_window_cut (xs : List α) (i : Nat) :
    (window xs (i * w) w).length = min w (xs.length - i * w) := by
  simp [window]

theorem flatten_windows (w : Nat) (xs : List α) (n : Nat) :
    ((List.range n).map fun i => window xs (i * w) w).flatten = xs.take (n * w) := by
  induction n with
  | zero => simp
  | succ n ih =>
    rw [range_succ, map_append, flatten_append, ih, Nat.add_mul, Nat.one_mul, take_add]
    simp [window]

/-- **The windows put together are the list.** -/
theorem flatten_cut (hw : 0 < w) (xs : List α) : (cut w xs).flatten = xs := by
  rw [cut, flatten_windows]
  exact take_of_length_le (le_cuts_mul xs.length hw)

end Window
