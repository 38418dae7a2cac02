import Mathlib.Data.Nat.Bitwise

/-!
# Machine arithmetic

Numbers of a fixed width.  A sum, a product or a difference that does not fit stops the program if
it was built with overflow checks, and wraps around if it was not.  In memory a number is a row of
bytes, the lowest first.
-/

set_option autoImplicit false

namespace Krust.Lib

open List Option

/-- A result of at most this size; `none` is a panic. -/
def fit (checks : Bool) (bound x : Nat) : Option Nat :=
  if x < bound then some x else if checks then none else some (x % bound)

variable {checks : Bool} {bound x : Nat}

theorem fit_of_lt (h : x < bound) : fit checks bound x = some x :=
  if_pos h

/-- Without checks the result is right up to a multiple of the bound. -/
theorem fit_unchecked (bound x : Nat) : fit false bound x = some (x % bound) := by
  rw [fit]
  split
  · rename_i h
    rw [Nat.mod_eq_of_lt h]
  · rfl

theorem fit_checked (h : bound ≤ x) : fit true bound x = none := by
  rw [fit, if_neg (not_lt.2 h), if_pos rfl]

/-- A difference that must not be negative; `none` is a panic. -/
def fitSub (checks : Bool) (bound x y : Nat) : Option Nat :=
  if y ≤ x then some (x - y) else if checks then none else some ((x + bound - y) % bound)

/-- A difference is right, or has wrapped around. -/
theorem fitSub_cases {y z : Nat} (h : fitSub checks bound x y = some z) :
    (y ≤ x ∧ z = x - y) ∨ (x < y ∧ z = (x + bound - y) % bound) := by
  rw [fitSub] at h
  split at h
  · rename_i hle
    exact .inl ⟨hle, (some.inj h).symm⟩
  rename_i hlt
  split at h
  · cases h
  · exact .inr ⟨Nat.lt_of_not_le hlt, (some.inj h).symm⟩

/-! ## Little endian -/

/-- `from_le_bytes`. -/
def leValue : List UInt8 → Nat
  | [] => 0
  | b :: bs => b.toNat + 256 * leValue bs

/-- `to_le_bytes`, of a number with `w` bytes. -/
def leBytes : Nat → Nat → List UInt8
  | 0, _ => []
  | w + 1, x => UInt8.ofNat x :: leBytes w (x / 256)

@[simp] theorem length_leBytes (w x : Nat) : (leBytes w x).length = w := by
  induction w generalizing x with
  | zero => rfl
  | succ w ih => rw [leBytes, length_cons, ih]

theorem leValue_lt (bs : List UInt8) : leValue bs < 256 ^ bs.length := by
  induction bs with
  | nil => exact Nat.one_pos
  | cons b bs ih =>
    have hb := b.toNat_lt
    rw [leValue, length_cons]
    omega

theorem leValue_leBytes (w x : Nat) : leValue (leBytes w x) = x % 256 ^ w := by
  induction w generalizing x with
  | zero => rw [leBytes, leValue, Nat.pow_zero, Nat.mod_one]
  | succ w ih =>
    rw [leBytes, leValue, ih, Nat.pow_succ, Nat.mul_comm (256 ^ w), Nat.mod_mul, UInt8.toNat_ofNat']

/-! ## Masks -/

/-- Some bits in the middle of a number. -/
theorem mask_field (x n k : Nat) : x &&& ((2 ^ k - 1) <<< n) = x / 2 ^ n % 2 ^ k * 2 ^ n := by
  refine Nat.eq_of_testBit_eq fun i => ?_
  rw [← Nat.shiftRight_eq_div_pow, ← Nat.shiftLeft_eq]
  by_cases hi : n ≤ i
  · simp [hi, Nat.add_sub_cancel' hi, Bool.and_comm]
  · simp [hi]

/-- The upper bits of a number. -/
theorem mask_high {n k : Nat} (h : x < 2 ^ (n + k)) :
    x &&& ((2 ^ k - 1) <<< n) = x / 2 ^ n * 2 ^ n := by
  rw [mask_field, Nat.mod_eq_of_lt]
  rw [pow_add] at h
  exact Nat.div_lt_of_lt_mul h

/-- The lower bits of a number are replaced. -/
theorem splice_low_bits {v n k : Nat} (h : x < 2 ^ (n + k)) :
    (x &&& ((2 ^ k - 1) <<< n)) ||| (v &&& (2 ^ n - 1)) = x / 2 ^ n * 2 ^ n + v % 2 ^ n := by
  rw [mask_high h, Nat.and_two_pow_sub_one_eq_mod, ← Nat.shiftLeft_eq,
    Nat.shiftLeft_add_eq_or_of_lt (Nat.mod_lt _ (Nat.two_pow_pos n))]

/-- The upper bits of a number are replaced. -/
theorem splice_high_bits (x v m n : Nat) :
    (x &&& (2 ^ n - 1)) ||| ((v &&& (2 ^ m - 1)) <<< n) = v % 2 ^ m * 2 ^ n + x % 2 ^ n := by
  rw [Nat.and_two_pow_sub_one_eq_mod, Nat.and_two_pow_sub_one_eq_mod, Nat.or_comm,
    ← Nat.shiftLeft_add_eq_or_of_lt (Nat.mod_lt _ (Nat.two_pow_pos n)), Nat.shiftLeft_eq]

end Krust.Lib
