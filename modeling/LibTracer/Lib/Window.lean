import LibTracer.Lib.LittleEndian

/-!
# Windows of byte strings, and cursors that read them

A `window` is a half-open piece of a list. A `Cursor` is a byte source a parser may be written
against without knowing how its bytes are stored. A visit of a piece may latch a fault in the
cursor, so it hands the cursor back. `LawfulCursor` says when a cursor *reads* a byte string.
-/

namespace Window

open List

variable {α : Type}

/-! ## Windows -/

/-- The elements `[off, off + n)`. -/
def window (xs : List α) (off n : Nat) : List α := (xs.drop off).take n

variable {xs : List α} {off n : Nat}

theorem length_window (h : off + n ≤ xs.length) : (window xs off n).length = n := by
  simp only [window, length_take, length_drop]
  omega

@[simp] theorem window_zero_right (xs : List α) (off : Nat) : window xs off 0 = [] := by
  simp [window]

@[simp] theorem window_full (xs : List α) : window xs 0 xs.length = xs := by
  simp [window]

theorem window_rest (h : off + n = xs.length) : window xs off n = xs.drop off := by
  rw [window, take_of_length_le]
  rw [length_drop]
  omega

theorem window_zero (xs : List α) (n : Nat) : window xs 0 n = xs.take n := by
  simp [window]

theorem window_window {off' n' : Nat} (h : off' + n' ≤ n) :
    window (window xs off n) off' n' = window xs (off + off') n' := by
  simp only [window, drop_take, take_take, drop_drop]
  rw [Nat.min_eq_left (by omega)]

theorem drop_window (xs : List α) (off n k : Nat) :
    (window xs off n).drop k = window xs (off + k) (n - k) := by
  simp only [window, drop_take, drop_drop]

theorem window_append_window (xs : List α) (off n m : Nat) :
    window xs off n ++ window xs (off + n) m = window xs off (n + m) := by
  simp only [window, ← drop_drop, take_add]

theorem window_append_right (xs ys : List α) (n : Nat) : window (xs ++ ys) xs.length n = ys.take n := by
  simp [window]

theorem window_append_mid (xs ys zs : List α) : window (xs ++ (ys ++ zs)) xs.length ys.length = ys := by
  rw [window_append_right, take_left]

theorem getElem?_window {i : Nat} (h : i < n) : (window xs off n)[i]? = xs[off + i]? := by
  rw [window, getElem?_take_of_lt h, getElem?_drop]

/-! ## Cursors -/

/-- A byte source positioned at the first byte of what is to be parsed. -/
class Cursor (C : Type) where
  /-- bytes available -/
  size : C → Nat
  /-- the sub-cursor over `[off, off + len)` -/
  region : C → Nat → Nat → C
  byteAt : C → Nat → UInt8
  /-- `n` little-endian bytes at `off` -/
  loadLe : C → Nat → Nat → Nat
  /-- the contiguous spans of `[off, off + n)` in order, and the cursor after the visit -/
  forEachSpan : C → Nat → Nat → List (List UInt8) × C
  /-- did an access leave the window? -/
  poisoned : C → Bool

/-- When a cursor reads a byte string, and what its accesses then return. -/
class LawfulCursor (C : Type) [Cursor C] where
  Reads : C → List UInt8 → Prop
  size_eq {c : C} {bs : List UInt8} : Reads c bs → Cursor.size c = bs.length
  region_reads {c : C} {bs : List UInt8} {off len : Nat} : Reads c bs → off + len ≤ bs.length →
    Reads (Cursor.region c off len) (window bs off len)
  byteAt_eq {c : C} {bs : List UInt8} {off : Nat} : Reads c bs → off < bs.length →
    Cursor.byteAt c off = bs.getD off 0
  loadLe_eq {c : C} {bs : List UInt8} {off n : Nat} : Reads c bs → off + n ≤ bs.length → n ≤ 8 →
    Cursor.loadLe c off n = LittleEndian.load (window bs off n)
  spans_eq {c : C} {bs : List UInt8} {off n : Nat} : Reads c bs → off + n ≤ bs.length →
    (Cursor.forEachSpan c off n).1.flatten = window bs off n
  spans_reads {c : C} {bs : List UInt8} {off n : Nat} : Reads c bs → off + n ≤ bs.length →
    Reads (Cursor.forEachSpan c off n).2 bs
  not_poisoned {c : C} {bs : List UInt8} : Reads c bs → Cursor.poisoned c = false

end Window
