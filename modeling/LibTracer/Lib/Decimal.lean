import Mathlib.Data.Nat.Digits.Lemmas
import Mathlib.Data.List.Basic

/-!
# Decimal numerals

The text of a natural number in base ten: it is made of digits, determines its number, and starts
with a nonzero digit unless it is `0` itself.
-/

namespace Decimal

/-- The numeral of `n`. -/
def digits (n : Nat) : List Char := Nat.toDigits 10 n

/-- What the digits `ds` are worth behind a prefix worth `v`. -/
def value (v : Nat) (ds : List Char) : Nat := Nat.ofDigitChars 10 ds v

theorem value_cons (v : Nat) (c : Char) (ds : List Char) :
    value v (c :: ds) = value (v * 10 + (c.toNat - '0'.toNat)) ds := by
  unfold value
  rw [Nat.ofDigitChars_cons, Nat.mul_comm]

theorem le_value (v : Nat) (ds : List Char) : v ≤ value v ds := by
  induction ds generalizing v with
  | nil => exact Nat.le_refl v
  | cons c ds ih =>
    rw [value_cons]
    exact le_trans (by omega) (ih _)

variable {n : Nat} {c : Char}

theorem isDigit_of_mem (h : c ∈ digits n) : c.isDigit = true :=
  Nat.isDigit_of_mem_toDigits (by decide) (by decide) h

theorem notMem_digits (h : c.isDigit = false) (n : Nat) : c ∉ digits n := by
  intro hc
  rw [isDigit_of_mem hc] at h
  exact absurd h (by decide)

@[simp] theorem value_digits (n : Nat) : value 0 (digits n) = n :=
  Nat.ofDigitChars_toDigits (by decide) (by decide)

@[simp] theorem digits_inj {m : Nat} : digits m = digits n ↔ m = n := by
  refine ⟨fun h => ?_, fun h => by rw [h]⟩
  rw [← value_digits m, h, value_digits]

theorem digits_ne_nil (n : Nat) : digits n ≠ [] := Nat.toDigits_ne_nil

theorem eq_zero_of_head {ds : List Char} (h : digits n = '0' :: ds) : ds = [] := by
  induction n using Nat.strongRecOn generalizing ds with
  | ind n ih =>
    unfold digits at h
    by_cases hn : 10 ≤ n
    · -- the front of the numeral is the numeral of `n / 10`, which is not zero
      rw [Nat.toDigits_of_base_le (by decide) hn] at h
      obtain ⟨c, cs, hfront⟩ := List.exists_cons_of_ne_nil (digits_ne_nil (n / 10))
      change digits (n / 10) ++ _ = _ at h
      rw [hfront] at h
      have hc : c = '0' := (List.cons.inj h).1
      have hcs := ih (n / 10) (by omega) (hc ▸ hfront)
      have hzero : value 0 (digits (n / 10)) = 0 := by rw [hfront, hc, hcs]; decide
      rw [value_digits] at hzero
      omega
    · rw [Nat.toDigits_of_lt_base (by omega)] at h
      exact (List.cons.inj h).2.symm

end Decimal
