import Mathlib.Tactic.Common

/-!
# Replay windows

A receiver of numbered messages that may be lost, repeated and reordered remembers the highest number
it took and one bit for each of the `w` numbers up to it.  What lies below the window is refused with
what is marked in it, so a number is taken at most once (`Tracks.not_taken`).
-/

/-- The highest number accepted, once there is one, and the numbers below it: bit `i` marks
`highest - i`. -/
structure ReplayWindow (w : Nat) where
  any : Bool := false
  highest : Nat := 0
  seen : BitVec w := 0
  deriving DecidableEq

namespace ReplayWindow

variable {w : Nat}

/-- Whether `n` is refused: below the window, or marked in it. -/
def refused (r : ReplayWindow w) (n : Nat) : Bool :=
  if r.any = false ∨ r.highest < n then false
  else decide (w ≤ r.highest - n) || r.seen.getLsbD (r.highest - n)

/-- How far the window moves up to reach `n`. -/
def shift (r : ReplayWindow w) (n : Nat) : Nat := if r.any then n - r.highest else w

/-- Record `n`: mark it in the window, or move the window up to it. -/
def accept (r : ReplayWindow w) (n : Nat) : ReplayWindow w :=
  if r.any = true ∧ n ≤ r.highest then { r with seen := r.seen ||| (1#w <<< (r.highest - n)) }
  else { any := true, highest := n,
         seen := if w ≤ r.shift n then 1#w else (r.seen <<< r.shift n) ||| 1#w }

/-- The window stands for the numbers `taken`: none above the highest, and those in the window are the
marked ones. -/
structure Tracks (r : ReplayWindow w) (taken : Nat → Prop) : Prop where
  idle : r.any = false → ∀ n, ¬ taken n
  le_highest : ∀ n, taken n → n ≤ r.highest
  marked : r.any = true → ∀ d, d < w → d ≤ r.highest →
    (r.seen.getLsbD d = true ↔ taken (r.highest - d))

theorem tracks_empty : Tracks ({} : ReplayWindow w) (fun _ => False) where
  idle _ _ h := h
  le_highest _ h := h.elim
  marked h := by cases h

variable {n : Nat}

theorem refused_eq_false {r : ReplayWindow w} (hany : r.any = true)
    (hn : n ≤ r.highest) (h : r.refused n = false) :
    r.highest - n < w ∧ r.seen.getLsbD (r.highest - n) = false := by
  rw [refused, if_neg (by simp [hany, hn])] at h
  simpa using h

namespace Tracks

variable {r : ReplayWindow w} {taken : Nat → Prop}

section

variable (h : Tracks r taken)
include h

/-- **What the window does not refuse has not been taken.** -/
theorem not_taken (hn : r.refused n = false) : ¬ taken n := by
  intro hin
  have hle := h.le_highest n hin
  cases hany : r.any with
  | false => exact h.idle hany n hin
  | true =>
    obtain ⟨hlt, hbit⟩ := refused_eq_false hany hle hn
    have hmark := (h.marked hany (r.highest - n) hlt (by omega)).mpr
      (by rw [show r.highest - (r.highest - n) = n by omega]; exact hin)
    rw [hbit] at hmark
    cases hmark

theorem accept_inside (hany : r.any = true) (hn : n ≤ r.highest)
    (hlt : r.highest - n < w) : Tracks (r.accept n) (fun m => taken m ∨ m = n) := by
  have heq : r.accept n = { r with seen := r.seen ||| (1#w <<< (r.highest - n)) } := by
    rw [accept, if_pos ⟨hany, hn⟩]
  rw [heq]
  refine ⟨fun hf => absurd (hany.symm.trans hf) (by decide), fun m hm => ?_, fun _ d hd hle => ?_⟩
  · rcases hm with hm | rfl
    · exact h.le_highest m hm
    · exact hn
  · dsimp only at hle ⊢
    have hone : (1#w <<< (r.highest - n)).getLsbD d = decide (d = r.highest - n) := by
      rw [BitVec.getLsbD_shiftLeft, BitVec.getLsbD_one]
      by_cases hd' : d = r.highest - n
      · simp [hd', hlt, show 0 < w by omega]
      have : ¬ (¬ d < r.highest - n ∧ d - (r.highest - n) = 0) := by omega
      simp [hd', hd]
      omega
    rw [BitVec.getLsbD_or, hone, Bool.or_eq_true_iff, h.marked hany d hd hle, decide_eq_true_eq]
    constructor
    all_goals
      intro hm
      exact hm.imp_right fun he => by omega

theorem accept_above (habove : r.any = true → r.highest < n) :
    Tracks (r.accept n) (fun m => taken m ∨ m = n) := by
  have hcond : ¬ (r.any = true ∧ n ≤ r.highest) := fun hc => by
    have := habove hc.1
    omega
  rw [accept, if_neg hcond]
  refine ⟨fun hf => absurd hf (by simp), fun m hm => ?_, fun _ d hd hle => ?_⟩
  · rcases hm with hm | rfl
    · have hle := h.le_highest m hm
      cases hany : r.any with
      | false => exact absurd hm (h.idle hany m)
      | true =>
        have := habove hany
        dsimp only
        omega
    · exact Nat.le_refl m
  · dsimp only at hle ⊢
    have hone : (1#w).getLsbD d = decide (d = 0) := by
      rw [BitVec.getLsbD_one]
      simp [show 0 < w by omega]
    have hself : n - d = n ↔ d = 0 := by omega
    cases hany : r.any with
    | false =>
      have hshift : r.shift n = w := by simp [shift, hany]
      rw [hshift, if_pos (Nat.le_refl w), hone, decide_eq_true_eq, ← hself]
      exact ⟨.inr, fun hm => hm.resolve_left (h.idle hany _)⟩
    | true =>
      have hgt := habove hany
      rw [show r.shift n = n - r.highest by simp [shift, hany]]
      by_cases hshift : w ≤ n - r.highest
      · -- everything that was marked falls out of the window
        rw [if_pos hshift, hone, decide_eq_true_eq, ← hself]
        refine ⟨.inr, fun hm => hm.resolve_left fun htaken => ?_⟩
        have := h.le_highest _ htaken
        omega
      rw [if_neg hshift, BitVec.getLsbD_or, hone, BitVec.getLsbD_shiftLeft,
        Bool.or_eq_true_iff, decide_eq_true_eq, ← hself]
      refine or_congr_left ?_
      by_cases hds : d < n - r.highest
      · -- between the old highest and the new one nothing was taken
        refine ⟨fun hb => by simp [hds] at hb, fun htaken => ?_⟩
        have := h.le_highest _ htaken
        omega
      rw [show n - d = r.highest - (d - (n - r.highest)) by omega,
        ← h.marked hany (d - (n - r.highest)) (by omega) (by omega)]
      simp [hd, hds]

/-- **Accepting a number that is not refused adds it to the numbers taken.** -/
theorem accept (hn : r.refused n = false) : Tracks (r.accept n) (fun m => taken m ∨ m = n) := by
  by_cases hin : r.any = true ∧ n ≤ r.highest
  · exact h.accept_inside hin.1 hin.2 (refused_eq_false hin.1 hin.2 hn).1
  exact h.accept_above fun hany => by
    have := mt (And.intro hany) hin
    omega

theorem congr {taken' : Nat → Prop} (heq : ∀ n, taken n ↔ taken' n) : Tracks r taken' := by
  have : taken = taken' := funext fun n => propext (heq n)
  rw [← this]
  exact h

end

end Tracks

end ReplayWindow
