import Mathlib.Data.List.GetD

/-!
# Flat vectors

The operations of a growable vector that file contents are made of, and how each of them reads at
one position.  A position past the end reads as the filler `z`, so a vector is its length together
with a total function of positions (`ext_getD`), and `getD_resize` and `getD_overwrite` say what
growing and overwriting do to that function.
-/

set_option autoImplicit false

namespace Krust

open List

variable {α : Type}

/-- `Vec::resize`: cut the vector, or pad it with `z`. -/
def resize (v : List α) (n : Nat) (z : α) : List α := v.take n ++ List.replicate (n - v.length) z

/-- `v[off..off + xs.len()].copy_from_slice(xs)`. -/
def overwrite (v : List α) (off : Nat) (xs : List α) : List α :=
  v.take off ++ xs ++ v.drop (off + xs.length)

/-- The bytes `v[off..]`, at most `n` of them. -/
def slice (v : List α) (off n : Nat) : List α := (v.drop off).take n

variable {xs : List α} {off : Nat} (v : List α) (n : Nat) (z : α)

@[simp] theorem length_resize : (resize v n z).length = n := by
  simp only [resize, length_append, length_take, length_replicate]
  omega

theorem length_overwrite {v : List α} (h : off + xs.length ≤ v.length) :
    (overwrite v off xs).length = v.length := by
  simp only [overwrite, length_append, length_take, length_drop]
  omega

@[simp] theorem length_slice (off n : Nat) : (slice v off n).length = min n (v.length - off) := by
  simp only [slice, length_take, length_drop]

theorem getD_resize (i : Nat) : (resize v n z).getD i z = if i < n then v.getD i z else z := by
  rw [resize, getD_eq_getElem?_getD, getElem?_append]
  by_cases hi : i < (v.take n).length
  · rw [if_pos hi, getElem?_take]
    rw [length_take] at hi
    rw [if_pos (by omega), if_pos (by omega), getD_eq_getElem?_getD]
  rw [if_neg hi, getElem?_replicate]
  rw [length_take] at hi
  by_cases hn : i < n
  · rw [getD_eq_default _ _ (by omega)]
    split <;> rfl
  · split <;> rfl

theorem getD_overwrite {v : List α} (h : off + xs.length ≤ v.length) (z : α) (i : Nat) :
    (overwrite v off xs).getD i z =
      if off ≤ i ∧ i < off + xs.length then xs.getD (i - off) z else v.getD i z := by
  have htake : (v.take off).length = off := by rw [length_take]; omega
  rw [overwrite, append_assoc, getD_eq_getElem?_getD, getElem?_append, htake]
  by_cases hlo : i < off
  · rw [if_pos hlo, if_neg (by omega), getElem?_take, if_pos hlo, getD_eq_getElem?_getD]
  rw [if_neg hlo, getElem?_append]
  by_cases hhi : i - off < xs.length
  · rw [if_pos hhi, if_pos (by omega), getD_eq_getElem?_getD]
  · rw [if_neg hhi, if_neg (by omega), getElem?_drop, getD_eq_getElem?_getD,
      show off + xs.length + (i - off - xs.length) = i by omega]

theorem getD_slice (off n : Nat) (z : α) (i : Nat) :
    (slice v off n).getD i z = if i < n then v.getD (off + i) z else z := by
  rw [slice, getD_eq_getElem?_getD, getElem?_take]
  split
  · rw [getElem?_drop, getD_eq_getElem?_getD]
  · rfl

theorem insertIdx_eq_append {i : Nat} (h : i ≤ xs.length) (x : α) :
    xs.insertIdx i x = xs.take i ++ x :: xs.drop i := by
  refine ext_getElem? fun j => ?_
  rw [getElem?_insertIdx, getElem?_append, length_take, Nat.min_eq_left h]
  rcases Nat.lt_trichotomy j i with hj | rfl | hj
  · rw [if_pos hj, if_pos hj, getElem?_take, if_pos hj]
  · simp [h]
  rw [if_neg (by omega), if_neg (by omega), if_neg (by omega),
    show j - i = (j - 1 - i) + 1 by omega, getElem?_cons_succ, getElem?_drop,
    show i + (j - 1 - i) = j - 1 by omega]

/-- A vector is its length and what it reads at every position. -/
theorem ext_getD {v w : List α} (hlen : v.length = w.length) (h : ∀ i, v.getD i z = w.getD i z) :
    v = w := by
  refine ext_getElem hlen fun i hv hw => ?_
  have hi := h i
  rwa [getD_eq_getElem _ _ hv, getD_eq_getElem _ _ hw] at hi

end Krust
