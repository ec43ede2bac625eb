import Mathlib.Data.List.Basic

/-!
# Writing into a bounded buffer

A writer with a fixed capacity: a write that does not fit is left out and latched, and a writer that
has latched shows nothing, however the text was cut into writes (`Wrote`).
-/

/-- A writer of at most `N` elements. -/
structure BoundedWriter (α : Type) (N : Nat) where
  buf : List α := []
  overflow : Bool := false

namespace BoundedWriter

open List

variable {α : Type} {N : Nat}

/-- Append `xs`, or latch if it does not fit. -/
def put (w : BoundedWriter α N) (xs : List α) : BoundedWriter α N :=
  if w.buf.length + xs.length > N then { w with overflow := true } else { w with buf := w.buf ++ xs }

def fail (w : BoundedWriter α N) : BoundedWriter α N := { w with overflow := true }

def ok (w : BoundedWriter α N) : Bool := !w.overflow

def span (w : BoundedWriter α N) : List α := if w.overflow then [] else w.buf

/-- `w` is a writer that was asked to write `xs`. -/
structure Wrote (w : BoundedWriter α N) (xs : List α) : Prop where
  ok_iff : w.ok = true ↔ xs.length ≤ N
  buf_eq : xs.length ≤ N → w.buf = xs

variable {w : BoundedWriter α N} {xs ys : List α}

theorem wrote_nil : Wrote ({} : BoundedWriter α N) [] := ⟨by simp [ok], fun _ => rfl⟩

theorem overflow_put (h : w.overflow = true) (ys : List α) : (w.put ys).overflow = true := by
  unfold put
  split
  · rfl
  · exact h

theorem Wrote.put (h : Wrote w xs) (ys : List α) : Wrote (w.put ys) (xs ++ ys) := by
  have hok := h.ok_iff
  by_cases hfit : xs.length ≤ N
  · have hbuf := h.buf_eq hfit
    unfold BoundedWriter.put
    rw [hbuf, ← length_append]
    split
    · exact ⟨by simp only [ok, Bool.not_true, Bool.false_eq_true, false_iff]; omega, by omega⟩
    refine ⟨?_, fun _ => rfl⟩
    simp only [ok] at hok ⊢
    exact ⟨fun _ => by omega, fun _ => hok.mpr hfit⟩
  · have hlatched : w.overflow = true := by
      by_contra hno
      simp only [ok, Bool.eq_false_iff.mpr hno, Bool.not_false, true_iff] at hok
      exact hfit hok
    have hlong : ¬(xs ++ ys).length ≤ N := by rw [length_append]; omega
    refine ⟨?_, fun hle => absurd hle hlong⟩
    rw [ok, overflow_put hlatched]
    simpa using hlong

theorem Wrote.puts (h : Wrote w xs) (chunks : List (List α)) :
    Wrote (chunks.foldl BoundedWriter.put w) (xs ++ chunks.flatten) := by
  induction chunks generalizing w xs with
  | nil => simpa using h
  | cons c cs ih =>
    rw [foldl_cons, flatten_cons, ← append_assoc]
    exact ih (h.put c)

theorem Wrote.span_eq (h : Wrote w xs) (hfit : xs.length ≤ N) : w.span = xs := by
  have hok := h.ok_iff.mpr hfit
  simp only [ok, Bool.not_eq_true'] at hok
  rw [span, hok]
  exact h.buf_eq hfit

end BoundedWriter
