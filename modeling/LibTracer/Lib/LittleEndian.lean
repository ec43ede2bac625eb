import Mathlib.Tactic.Common
import Mathlib.Tactic.Ring

/-!
# Little-endian numbers in byte strings

Fixed-width unsigned numbers as byte strings, in the two forms programs compute them: a loop that
ors each byte into an accumulator at a growing shift (`loadFrom`), and a loop that emits the bytes of
`value >>> 8 * i` (`store`). Loading and storing invert each other (`load_store`, `store_load`).
-/

namespace LittleEndian

open List

/-! ## Loading -/

/-- The accumulating load: `v` gathered so far, the next byte lands at bit `shift`. -/
def loadFrom (v shift : Nat) : List UInt8 → Nat
  | [] => v
  | b :: bs => loadFrom (v ||| (b.toNat <<< shift)) (shift + 8) bs

def load (bs : List UInt8) : Nat := loadFrom 0 0 bs

@[simp] theorem load_nil : load [] = 0 := rfl

theorem loadFrom_append (v shift : Nat) (as bs : List UInt8) :
    loadFrom v shift (as ++ bs) = loadFrom (loadFrom v shift as) (shift + 8 * as.length) bs := by
  induction as generalizing v shift with
  | nil => simp [loadFrom]
  | cons a as ih =>
    simp only [cons_append, loadFrom, ih, length_cons]
    congr 1
    omega

variable {v width s : Nat}

theorem or_shiftLeft_of_lt (hv : v < 2 ^ s) (b : Nat) : v ||| (b <<< s) = v + b * 2 ^ s := by
  rw [Nat.shiftLeft_eq, Nat.or_comm, Nat.mul_comm, ← Nat.two_pow_add_eq_or_of_lt hv, add_comm]

theorem loadFrom_eq (hv : v < 2 ^ s) (bs : List UInt8) : loadFrom v s bs = v + load bs * 2 ^ s := by
  suffices h : ∀ (bs : List UInt8) (v s : Nat), v < 2 ^ s →
      loadFrom v s bs = v + (bs.foldr (fun b n => b.toNat + 256 * n) 0) * 2 ^ s by
    rw [h bs v s hv, load, h bs 0 0 (by simp)]
    simp
  intro bs
  induction bs with
  | nil => intro v s _; simp [loadFrom]
  | cons b bs ih =>
    intro v s hv
    have hb : b.toNat < 256 := b.toNat_lt
    have hlt : v + b.toNat * 2 ^ s < 2 ^ (s + 8) := by
      rw [Nat.pow_add]
      have : b.toNat * 2 ^ s ≤ 255 * 2 ^ s := Nat.mul_le_mul_right _ (by omega)
      omega
    simp only [loadFrom, or_shiftLeft_of_lt hv, ih _ _ hlt, foldr_cons, Nat.pow_add]
    ring

theorem load_cons (b : UInt8) (bs : List UInt8) : load (b :: bs) = b.toNat + 256 * load bs := by
  have hb : b.toNat < 2 ^ 8 := b.toNat_lt
  have h := loadFrom_eq (v := b.toNat) (s := 8) hb bs
  simp only [load, loadFrom, Nat.shiftLeft_zero, Nat.zero_or, zero_add] at h ⊢
  rw [h]
  omega

theorem load_lt (bs : List UInt8) : load bs < 256 ^ bs.length := by
  induction bs with
  | nil => simp
  | cons b bs ih =>
    have hb : b.toNat < 256 := b.toNat_lt
    rw [load_cons, length_cons, Nat.pow_succ]
    omega

theorem load_concat (bs : List UInt8) (b : UInt8) :
    load (bs ++ [b]) = load bs + b.toNat * 2 ^ (8 * bs.length) := by
  have hlt := load_lt bs
  rw [show (256 : Nat) = 2 ^ 8 from rfl, ← Nat.pow_mul] at hlt
  rw [load, loadFrom_append, loadFrom_eq (by rw [zero_add]; exact hlt), load_cons, load_nil,
    zero_add]
  rfl

/-- **Loading by index**: any loop over the offsets that puts each byte above the ones before. -/
theorem foldl_range_eq_load {step : Nat → UInt8 → Nat → Nat}
    (hstep : ∀ v b i, v < 2 ^ (8 * i) → step v b i = v + b.toNat * 2 ^ (8 * i))
    (b : List UInt8) (off n : Nat) (h : off + n ≤ b.length) :
    (List.range n).foldl (fun v i => step v (b.getD (off + i) 0) i) 0 = load ((b.drop off).take n) := by
  induction n with
  | zero => simp
  | succ n ih =>
    have hget : (b.drop off)[n]? = some (b.getD (off + n) 0) := by
      rw [getElem?_drop, getD_eq_getElem?_getD, getElem?_eq_getElem (by omega)]
      rfl
    have hlen : ((b.drop off).take n).length = n := by
      rw [length_take, length_drop]
      omega
    have hlt : load ((b.drop off).take n) < 2 ^ (8 * n) := by
      have h := load_lt ((b.drop off).take n)
      rwa [hlen, show (256 : Nat) = 2 ^ 8 from rfl, ← Nat.pow_mul] at h
    rw [range_succ, foldl_append, ih (by omega), take_add_one, hget]
    simp only [foldl_cons, foldl_nil, Option.toList_some]
    rw [hstep _ _ _ hlt, load_concat, hlen]

/-! ## Storing -/

/-- The low `width` bytes of `value`, least significant first. -/
def store (value width : Nat) : List UInt8 :=
  (List.range width).map fun i => UInt8.ofNat (value >>> (8 * i))

theorem ofNat_and_255 (v : Nat) : UInt8.ofNat (v &&& 0xFF) = UInt8.ofNat v := by
  apply UInt8.toNat_inj.mp
  rw [UInt8.toNat_ofNat', UInt8.toNat_ofNat', Nat.and_two_pow_sub_one_eq_mod v 8]
  omega

@[simp] theorem store_zero (value : Nat) : store value 0 = [] := rfl

@[simp] theorem length_store (value width : Nat) : (store value width).length = width := by
  simp [store]

theorem store_succ (value width : Nat) :
    store value (width + 1) = UInt8.ofNat value :: store (value / 256) width := by
  rw [store, range_succ_eq_map]
  simp only [map_cons, map_map, Nat.mul_zero, Nat.shiftRight_zero, store]
  congr 1
  apply map_congr_left
  intro i _
  simp only [Function.comp_apply, Nat.succ_eq_add_one, Nat.mul_add, Nat.mul_one]
  rw [add_comm, Nat.shiftRight_add, Nat.shiftRight_eq_div_pow value 8]

/-- **Loading what was stored** gives the value modulo the width. -/
theorem load_store (value width : Nat) : load (store value width) = value % 256 ^ width := by
  induction width generalizing value with
  | zero => simp [Nat.mod_one]
  | succ w ih =>
    have hb : (UInt8.ofNat value).toNat = value % 256 := UInt8.toNat_ofNat'
    rw [store_succ, load_cons, ih, hb, Nat.pow_succ', Nat.mod_mul]

theorem load_store_of_lt {value : Nat} (h : value < 256 ^ width) : load (store value width) = value := by
  rw [load_store, Nat.mod_eq_of_lt h]

/-- **Storing what was loaded** gives the bytes back. -/
theorem store_load (bs : List UInt8) : store (load bs) bs.length = bs := by
  induction bs with
  | nil => rfl
  | cons b bs ih =>
    have hb : b.toNat < 256 := b.toNat_lt
    have hdiv : (b.toNat + 256 * load bs) / 256 = load bs := by omega
    have hmod : UInt8.ofNat (b.toNat + 256 * load bs) = b := by
      apply UInt8.toNat_inj.mp
      rw [UInt8.toNat_ofNat']
      omega
    rw [length_cons, store_succ, load_cons, hdiv, hmod, ih]

theorem store_mod (value width : Nat) : store (value % 256 ^ width) width = store value width := by
  have h := store_load (store value width)
  rwa [load_store, length_store] at h

theorem store_eq_iff {w : Nat} : store v width = store w width ↔ v % 256 ^ width = w % 256 ^ width := by
  constructor
  · intro h
    rw [← load_store, ← load_store, h]
  · intro h
    rw [← store_mod v, ← store_mod w, h]

theorem eq_load_iff {n : Nat} {f : List UInt8} (hv : v < 256 ^ n) (hf : f.length = n) :
    v = load f ↔ f = store v n := by
  constructor
  · rintro rfl
    rw [← hf, store_load]
  · rintro rfl
    exact (load_store_of_lt hv).symm

end LittleEndian
