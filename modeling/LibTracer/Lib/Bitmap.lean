import LibTracer.Lib.Window

/-!
# Overwriting part of a byte list

A buffer is written in place: a run of bytes goes over the bytes at an offset, or one bit of a byte is
set.  What is read back is what was written, and the rest is as it was.

* **`Bitmap.test_set`** — the bits from an offset on.
-/

namespace Window

open List

variable {α : Type}

/-- `ys` over the elements at `off`. -/
def splice (xs : List α) (off : Nat) (ys : List α) : List α :=
  xs.take off ++ (ys ++ xs.drop (off + ys.length))

section

variable {xs ys : List α} {off : Nat}

theorem length_splice (h : off + ys.length ≤ xs.length) : (splice xs off ys).length = xs.length := by
  rw [splice, length_append, length_append, length_take, length_drop]
  omega

theorem take_splice (h : off ≤ xs.length) :
    (splice xs off ys).take (off + ys.length) = xs.take off ++ ys := by
  rw [splice, ← append_assoc]
  exact take_left' (by rw [length_append, length_take, Nat.min_eq_left h])

theorem splice_all (h : xs.length ≤ ys.length) : splice xs 0 ys = ys := by
  rw [splice, take_zero, nil_append, drop_eq_nil_of_le (by omega), append_nil]

theorem getElem?_splice (h : off + ys.length ≤ xs.length) {i : Nat}
    (hi : i < off ∨ off + ys.length ≤ i) : (splice xs off ys)[i]? = xs[i]? := by
  have hlen : (xs.take off).length = off := by rw [length_take]; omega
  rw [splice]
  rcases hi with hi | hi
  · rw [getElem?_append_left (by omega), getElem?_take_of_lt hi]
  rw [getElem?_append_right (by omega), getElem?_append_right (by omega),
    getElem?_drop, hlen]
  congr 1
  omega

theorem window_splice_self (h : off + ys.length ≤ xs.length) :
    window (splice xs off ys) off ys.length = ys := by
  have hlen : (xs.take off).length = off := by rw [length_take]; omega
  have hmid := window_append_mid (xs.take off) ys (xs.drop (off + ys.length))
  rwa [hlen] at hmid

theorem window_splice_of_le (h : off + ys.length ≤ xs.length) {off' n : Nat}
    (hoff : off' + n ≤ off ∨ off + ys.length ≤ off') :
    window (splice xs off ys) off' n = window xs off' n := by
  refine ext_getElem? fun i => ?_
  by_cases hi : i < n
  · rw [getElem?_window hi, getElem?_window hi, getElem?_splice h (by omega)]
  have hle : ∀ zs : List α, (window zs off' n).length ≤ i := fun zs => by
    rw [window, length_take]
    omega
  rw [getElem?_eq_none (hle _), getElem?_eq_none (hle _)]

theorem window_set_of_lt {i : Nat} {a : α} {n : Nat} (h : off + n ≤ i) :
    window (xs.set i a) off n = window xs off n := by
  refine ext_getElem? fun j => ?_
  by_cases hj : j < n
  · rw [getElem?_window hj, getElem?_window hj, getElem?_set_ne (by omega)]
  have hle : ∀ zs : List α, (window zs off n).length ≤ j := fun zs => by
    rw [window, length_take]
    omega
  rw [getElem?_eq_none (hle _), getElem?_eq_none (hle _)]

end

end Window

namespace Bitmap

def bit (i : Nat) : UInt8 := 1 <<< UInt8.ofNat (i % 8)

/-- Bit `i`, counted from the byte at `off` on. -/
def test (bs : List UInt8) (off i : Nat) : Bool := (bs.getD (off + i / 8) 0) &&& bit i != 0

/-- Bit `i` is set. -/
def set (bs : List UInt8) (off i : Nat) : List UInt8 :=
  bs.set (off + i / 8) (bs.getD (off + i / 8) 0 ||| bit i)

@[simp] theorem length_set (bs : List UInt8) (off i : Nat) : (set bs off i).length = bs.length :=
  List.length_set

theorem toNat_bit (i : Nat) : (bit i).toNat = 2 ^ (i % 8) := by
  have hall : ∀ k < 8, (1 <<< UInt8.ofNat k : UInt8).toNat = 2 ^ k := by decide
  exact hall (i % 8) (Nat.mod_lt i (by decide))

theorem and_bit (x : UInt8) (i : Nat) : (x &&& bit i != 0) = x.toNat.testBit (i % 8) := by
  have hall : ∀ k < 8, ∀ n < 256,
      (UInt8.ofNat n &&& (1 <<< UInt8.ofNat k : UInt8) != 0) = n.testBit k := by decide +kernel
  have := hall (i % 8) (Nat.mod_lt i (by decide)) x.toNat x.toNat_lt
  rwa [UInt8.ofNat_toNat] at this

theorem test_eq (bs : List UInt8) (off i : Nat) :
    test bs off i = (bs.getD (off + i / 8) 0).toNat.testBit (i % 8) :=
  and_bit _ _

variable {bs : List UInt8} {off : Nat}

/-- **A bit that was set is set**, and every other bit is as it was. -/
theorem test_set {i : Nat} (h : off + i / 8 < bs.length) (j : Nat) :
    test (set bs off i) off j = (decide (i = j) || test bs off j) := by
  rw [test_eq, test_eq, set]
  by_cases hbyte : i / 8 = j / 8
  · rw [← hbyte, List.getD_eq_getElem?_getD, List.getElem?_set_self h, Option.getD_some,
      UInt8.toNat_or, Nat.testBit_or, toNat_bit, Nat.testBit_two_pow, Bool.or_comm]
    have hiff : decide (i % 8 = j % 8) = decide (i = j) := by
      congr 1
      exact propext ⟨fun hm => by omega, fun hij => by rw [hij]⟩
    rw [hiff]
  rw [List.getD_eq_getElem?_getD, List.getElem?_set_ne (by omega), ← List.getD_eq_getElem?_getD]
  have hne : decide (i = j) = false := by
    rw [decide_eq_false_iff_not]
    intro hij
    exact hbyte (by rw [hij])
  rw [hne, Bool.false_or]

theorem test_splice {ys : List UInt8} {at' : Nat} (hlen : at' + ys.length ≤ bs.length)
    (h : at' + ys.length ≤ off) (i : Nat) : test (Window.splice bs at' ys) off i = test bs off i := by
  rw [test, test, List.getD_eq_getElem?_getD, List.getD_eq_getElem?_getD,
    Window.getElem?_splice hlen (by omega)]

theorem test_zero {xs : List UInt8} {n : Nat} (h : xs.length = off) (i : Nat) :
    test (xs ++ List.replicate n 0) off i = false := by
  have hzero : (xs ++ List.replicate n (0 : UInt8)).getD (off + i / 8) 0 = 0 := by
    rw [List.getD_eq_getElem?_getD, List.getElem?_append_right (by omega), List.getElem?_replicate]
    split <;> rfl
  rw [test_eq, hzero]
  exact Nat.zero_testBit _

end Bitmap
