import Mathlib.Data.Nat.Basic
import Mathlib.Tactic.Ring

/-!
# Caches stamped by one counter

A cached value with a counter whose lowest bit says whether the value is stale: odd means stale.
Invalidating always moves the counter on, to an odd value; a rebuild publishes by moving it from
the odd value it started from to the next, even one.  Parity survives a wrap.
-/

structure Stamped (w : Nat) (α : Type*) where
  value : α
  gen : BitVec w

namespace Stamped

variable {w : Nat} {α : Type*}

def current (c : Stamped w α) : Bool := c.gen.toNat % 2 == 0

def unbuilt (v : α) : Stamped w α := ⟨v, 1⟩

def invalidate (c : Stamped w α) : Stamped w α := { c with gen := c.gen + 1 + (c.gen &&& 1) }

/-- Publish what was rebuilt from the snapshot, unless the counter has moved since. -/
def publish (c : Stamped w α) (snapshot : BitVec w) (v : α) : Option (Stamped w α) :=
  if c.gen = snapshot then some ⟨v, snapshot + 1⟩ else none

section

variable (hw : 0 < w)
include hw

theorem toNat_and_one (g : BitVec w) : (g &&& 1).toNat = g.toNat % 2 := by
  have hone : (1 : BitVec w).toNat = 1 := by
    show 1 % 2 ^ w = 1
    exact Nat.mod_eq_of_lt (Nat.one_lt_two_pow hw.ne')
  rw [BitVec.toNat_and, hone, Nat.and_one_is_mod]

theorem toNat_add_mod_two (g h : BitVec w) : (g + h).toNat % 2 = (g.toNat + h.toNat) % 2 := by
  rw [BitVec.toNat_add]
  exact Nat.mod_mod_of_dvd _ (dvd_pow_self 2 hw.ne')

theorem toNat_one_mod_two : (1 : BitVec w).toNat % 2 = 1 :=
  Nat.mod_mod_of_dvd 1 (dvd_pow_self 2 hw.ne')

theorem current_unbuilt (v : α) : (unbuilt v : Stamped w α).current = false := by
  unfold current unbuilt
  rw [toNat_one_mod_two hw]
  rfl

theorem current_invalidate (c : Stamped w α) : c.invalidate.current = false := by
  have hodd : (c.gen + 1 + (c.gen &&& 1)).toNat % 2 = 1 := by
    have h1 := toNat_add_mod_two hw (c.gen + 1) (c.gen &&& 1)
    have h2 := toNat_add_mod_two hw c.gen 1
    have h3 := toNat_and_one hw c.gen
    have h4 := toNat_one_mod_two hw
    omega
  unfold current invalidate
  rw [hodd]
  rfl

theorem current_publish {c : Stamped w α} (h : c.current = false) (v : α) :
    ∃ d, c.publish c.gen v = some d ∧ d.value = v ∧ d.current = true := by
  refine ⟨⟨v, c.gen + 1⟩, if_pos rfl, rfl, ?_⟩
  unfold current at h ⊢
  have h1 := toNat_add_mod_two hw c.gen 1
  have h2 := toNat_one_mod_two hw
  have h3 : c.gen.toNat % 2 ≠ 0 := by simpa using h
  rw [beq_iff_eq]
  show (c.gen + 1).toNat % 2 = 0
  omega

end

end Stamped
