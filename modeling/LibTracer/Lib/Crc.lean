import Mathlib.Logic.Function.Iterate
import Mathlib.Tactic.Common

/-!
# Reflected cyclic redundancy checks

The bitwise (least significant bit first) remainder step over a register of any width. The step is
linear over exclusive or (`bits_xor`), and eight steps are the eight steps of the low octet and a
shift (`bits_eight`): from it follow the one-byte table loop (`feedByte_eq_table`) and the octets
that slicing loops read from several tables at once (`bits_octet`, `feed_eq_xor`). A step can be
undone (`bit_injective`).
-/

namespace ReflectedCrc

open List Function

variable {w : Nat}

/-! ## The bitwise step -/

/-- One step of the remainder: shift down, and subtract the polynomial if a one fell out. -/
def bit (poly c : BitVec w) : BitVec w :=
  if c &&& 1#w ≠ 0#w then poly ^^^ (c >>> 1) else c >>> 1

/-- `n` steps of the remainder. -/
def bits (poly : BitVec w) (n : Nat) (c : BitVec w) : BitVec w := (bit poly)^[n] c

variable (poly : BitVec w)

@[simp] theorem bits_none (c : BitVec w) : bits poly 0 c = c := rfl

theorem bits_succ (n : Nat) (c : BitVec w) : bits poly (n + 1) c = bits poly n (bit poly c) := rfl

theorem bits_add (m n : Nat) (c : BitVec w) : bits poly (m + n) c = bits poly n (bits poly m c) := by
  rw [Nat.add_comm, bits, Function.iterate_add_apply, bits, bits]

theorem and_one_ne_zero (c : BitVec w) : c &&& 1#w ≠ 0#w ↔ c.getLsbD 0 = true := by
  rw [BitVec.and_one_eq_setWidth_ofBool_getLsbD]
  cases h : c.getLsbD 0
  · simp
  · have hw : 0 < w := BitVec.lt_of_getLsbD h
    simp only [BitVec.ofBool_true, iff_true]
    intro hz
    have := congrArg (BitVec.getLsbD · 0) hz
    simp [hw] at this

theorem bit_eq (c : BitVec w) : bit poly c = (if c.getLsbD 0 then poly else 0#w) ^^^ (c >>> 1) := by
  unfold bit
  simp only [and_one_ne_zero]
  split <;> simp

theorem bit_xor (a b : BitVec w) : bit poly (a ^^^ b) = bit poly a ^^^ bit poly b := by
  simp only [bit_eq, BitVec.getLsbD_xor, BitVec.ushiftRight_xor_distrib]
  cases a.getLsbD 0 <;> cases b.getLsbD 0
  · simp
  · simp only [Bool.false_xor, Bool.false_eq_true, if_true, if_false, BitVec.zero_xor]
    ac_rfl
  · simp only [Bool.xor_false, Bool.false_eq_true, if_true, if_false, BitVec.zero_xor]
    ac_rfl
  · have hcancel : poly ^^^ (a >>> 1) ^^^ (poly ^^^ (b >>> 1)) =
        (poly ^^^ poly) ^^^ ((a >>> 1) ^^^ (b >>> 1)) := by ac_rfl
    simp only [Bool.xor_self, Bool.false_eq_true, if_true, if_false, hcancel, BitVec.xor_self]

@[simp] theorem bit_zero : bit poly 0#w = 0#w := by
  simp [bit_eq]

/-- **The remainder is linear over exclusive or.** -/
theorem bits_xor (n : Nat) (a b : BitVec w) : bits poly n (a ^^^ b) = bits poly n a ^^^ bits poly n b := by
  induction n generalizing a b with
  | zero => rfl
  | succ n ih => rw [bits_succ, bit_xor, ih, bits_succ, bits_succ]

@[simp] theorem bits_zero (n : Nat) : bits poly n 0#w = 0#w := by
  induction n with
  | zero => rfl
  | succ n ih => rw [bits_succ, bit_zero, ih]

theorem bits_of_low_clear (k : Nat) (c : BitVec w) (h : ∀ i, i < k → c.getLsbD i = false) :
    bits poly k c = c >>> k := by
  induction k generalizing c with
  | zero => simp
  | succ k ih =>
    have hbit : bit poly c = c >>> 1 := by rw [bit_eq, h 0 (by omega)]; simp
    have hlow : ∀ i, i < k → (c >>> 1).getLsbD i = false := by
      intro i hi
      rw [BitVec.getLsbD_ushiftRight]
      exact h (1 + i) (by omega)
    rw [bits_succ, hbit, ih _ hlow, BitVec.shiftRight_add c 1 k |>.symm, Nat.add_comm]

/-! ## Octets -/

def octet (c : BitVec w) : BitVec w := c &&& 0xFF#w

theorem getLsbD_mask (i : Nat) : (0xFF#w).getLsbD i = (decide (i < w) && decide (i < 8)) := by
  rw [BitVec.getLsbD_ofNat, show (0xFF : Nat) = 2 ^ 8 - 1 by rfl, Nat.testBit_two_pow_sub_one]

/-- **Eight steps** are the eight steps of the low octet and a shift by eight. -/
theorem bits_eight (c : BitVec w) : bits poly 8 c = bits poly 8 (octet c) ^^^ (c >>> 8) := by
  have hsplit : c = octet c ^^^ (c &&& ~~~0xFF#w) := by
    apply BitVec.eq_of_getLsbD_eq
    intro i hi
    simp only [octet, BitVec.getLsbD_xor, BitVec.getLsbD_and, BitVec.getLsbD_not, hi]
    cases c.getLsbD i <;> cases (0xFF#w).getLsbD i <;> rfl
  have hlow : ∀ i, i < 8 → (c &&& ~~~0xFF#w).getLsbD i = false := by
    intro i hi
    simp only [BitVec.getLsbD_and, BitVec.getLsbD_not, getLsbD_mask]
    by_cases hw : i < w <;> simp [hi, hw]
  have hshift : (c &&& ~~~0xFF#w) >>> 8 = c >>> 8 := by
    apply BitVec.eq_of_getLsbD_eq
    intro i _
    simp only [BitVec.getLsbD_ushiftRight, BitVec.getLsbD_and, BitVec.getLsbD_not, getLsbD_mask]
    by_cases hw : 8 + i < w
    · simp [hw]
    · simp [BitVec.getLsbD_of_ge c (8 + i) (by omega)]
  conv_lhs => rw [hsplit]
  rw [bits_xor, bits_of_low_clear poly 8 _ hlow, hshift]

theorem bits_octet (n : Nat) (c : BitVec w) :
    bits poly (8 + n) c = bits poly (8 + n) (octet c) ^^^ bits poly n (c >>> 8) := by
  rw [bits_add, bits_eight, bits_xor, ← bits_add]

/-! ## Feeding bytes -/

def ofByte (b : UInt8) : BitVec w := BitVec.ofNat w b.toNat

def feedByte (c : BitVec w) (b : UInt8) : BitVec w := bits poly 8 (c ^^^ ofByte b)

def feed (c : BitVec w) (bs : List UInt8) : BitVec w := bs.foldl (feedByte poly) c

@[simp] theorem feed_nil (c : BitVec w) : feed poly c [] = c := rfl

@[simp] theorem feed_cons (c : BitVec w) (b : UInt8) (bs : List UInt8) :
    feed poly c (b :: bs) = feed poly (feedByte poly c b) bs := rfl

theorem feed_append (c : BitVec w) (as bs : List UInt8) :
    feed poly c (as ++ bs) = feed poly (feed poly c as) bs := by
  simp [feed, foldl_append]

theorem ofByte_shift (b : UInt8) : (ofByte b : BitVec w) >>> 8 = 0#w := by
  apply BitVec.eq_of_toNat_eq
  have hb : b.toNat < 256 := b.toNat_lt
  have hle : b.toNat % 2 ^ w ≤ b.toNat := Nat.mod_le _ _
  simp only [ofByte, BitVec.toNat_ushiftRight, BitVec.toNat_ofNat, Nat.shiftRight_eq_div_pow, Nat.zero_mod]
  omega

/-- **The table loop**: one byte is a table entry for the low octet and a shift. -/
theorem feedByte_eq_table (c : BitVec w) (b : UInt8) :
    feedByte poly c b = bits poly 8 (octet (c ^^^ ofByte b)) ^^^ (c >>> 8) := by
  rw [feedByte, bits_eight, BitVec.ushiftRight_xor_distrib, ofByte_shift, BitVec.xor_zero]

theorem feed_eq_xor (c : BitVec w) (bs : List UInt8) :
    feed poly c bs = bits poly (8 * bs.length) c ^^^ feed poly 0#w bs := by
  induction bs generalizing c with
  | nil => simp
  | cons b bs ih =>
    rw [feed_cons, ih, feed_cons, ih (feedByte poly 0#w b), length_cons, Nat.mul_succ,
      Nat.add_comm, bits_add, feedByte, feedByte, BitVec.zero_xor, bits_xor, bits_xor]
    ac_rfl

/-! ## Undoing steps -/

section Undo

variable {poly} (htop : poly.msb = true)
include htop

/-- The top bit of what a step leaves tells whether a one fell out. -/
theorem bit_injective : Injective (bit poly) := by
  intro a b h
  rw [← BitVec.xor_eq_zero_iff, ← bit_xor, bit_eq] at h
  have hlow : (a ^^^ b).getLsbD 0 = false := by
    by_contra hone
    have h := congrArg BitVec.msb h
    rw [if_pos (Bool.of_not_eq_false hone), BitVec.msb_xor, htop] at h
    simp at h
  rw [hlow, if_neg Bool.false_ne_true, BitVec.zero_xor] at h
  refine BitVec.xor_eq_zero_iff.mp (BitVec.eq_of_getLsbD_eq fun i _ => ?_)
  cases i with
  | zero => rw [hlow, BitVec.getLsbD_zero]
  | succ i =>
    have h := congrArg (BitVec.getLsbD · i) h
    simpa only [BitVec.getLsbD_ushiftRight, BitVec.getLsbD_zero, Nat.add_comm 1 i] using h

theorem feed_injective (bs : List UInt8) : Injective (feed poly · bs) := by
  induction bs with
  | nil => exact injective_id
  | cons b bs ih =>
    exact ih.comp fun _ _ h => (BitVec.xor_left_inj _).mp ((bit_injective htop).iterate 8 h)

end Undo

/-! ## One message bit at a time -/

section Serial

variable (sh : BitVec w → BitVec w) (out : BitVec w → Bool)

/-- Division by the polynomial, one bit of the message: `out` is the bit that `sh` moves out. -/
def serial (c : BitVec w) (m : Bool) : BitVec w := if out c ^^ m then poly ^^^ sh c else sh c

variable {sh out} (hsh : ∀ a b, sh (a ^^^ b) = sh a ^^^ sh b)
  (hout : ∀ a b, out (a ^^^ b) = (out a ^^ out b))

include hsh hout

/-- **Bits that come one at a time may all be added at the start**; what of them is not yet due is still in
the register. -/
theorem foldl_serial (c x : BitVec w) (k : Nat) :
    ((List.range k).map fun i => out (sh^[i] x)).foldl (serial poly sh out) c =
      (serial poly sh out · false)^[k] (c ^^^ x) ^^^ sh^[k] x := by
  induction k with
  | zero =>
    show c = c ^^^ x ^^^ x
    rw [BitVec.xor_assoc, BitVec.xor_self, BitVec.xor_zero]
  | succ k ih =>
    rw [range_succ, map_append, foldl_append, ih, map_singleton, foldl_cons,
      foldl_nil, iterate_succ_apply', iterate_succ_apply']
    generalize (serial poly sh out · false)^[k] (c ^^^ x) = a
    generalize sh^[k] x = z
    rw [serial, serial, hout, hsh, Bool.xor_assoc, Bool.xor_self]
    split <;> simp only [BitVec.xor_assoc]

end Serial

end ReflectedCrc
