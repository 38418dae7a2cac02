import Krust.Lib.Bytes
import Krust.Lib.Machine
import Mathlib.Data.List.Range

/-!
# Flat memories

A memory is a function of addresses, with no end.  `window` is what stands in a range of it, and
`blit` the memory after a range has been overwritten.  What is written is read back, and a window
outside the range is left as it was; both are compared address by address (`getElem?_window`,
`blit_of_mem`, `blit_of_notMem`).
-/

set_option autoImplicit false

namespace Krust.Lib

open List Option

section Memory

variable {α : Type}

/-- The `n` values from an address on. -/
def window (m : Nat → α) (a n : Nat) : List α := (List.range' a n).map m

/-- The memory with these values from an address on. -/
def blit (m : Nat → α) (a : Nat) (xs : List α) : Nat → α :=
  fun i => if a ≤ i then xs.getD (i - a) (m i) else m i

section Window

variable (m : Nat → α) (a n k : Nat)

@[simp] theorem length_window : (window m a n).length = n := by
  rw [window, length_map, length_range']

theorem getElem?_window (i : Nat) :
    (window m a n)[i]? = if i < n then some (m (a + i)) else none := by
  rw [window, getElem?_map]
  split_ifs with hi
  · rw [getElem?_range' hi, map_some, one_mul]
  · rw [getElem?_eq_none (by rw [length_range']; omega), map_none]

theorem getD_window {i : Nat} (h : i < n) (z : α) : (window m a n).getD i z = m (a + i) := by
  rw [getD_eq_getElem?_getD, getElem?_window, if_pos h, getD_some]

theorem window_add : window m a (n + k) = window m a n ++ window m (a + n) k := by
  rw [window, window, window, ← map_append, range'_append_1]

theorem take_drop_window {i l : Nat} (h : i + l ≤ n) :
    ((window m a n).drop i).take l = window m (a + i) l := by
  refine ext_getElem? fun j => ?_
  rw [getElem?_take, getElem?_window]
  split
  · rw [getElem?_drop, getElem?_window, if_pos (by omega), add_assoc]
  · rfl

end Window

theorem window_congr {m m' : Nat → α} {a n : Nat} (h : ∀ i, a ≤ i → i < a + n → m i = m' i) :
    window m a n = window m' a n := by
  refine map_congr_left fun i hi => ?_
  rw [mem_range'_1] at hi
  exact h i hi.1 hi.2

section Blit

variable (m : Nat → α) {a : Nat} {xs : List α} {i : Nat}

theorem blit_of_mem (h : a ≤ i) (h' : i < a + xs.length) (z : α) :
    blit m a xs i = xs.getD (i - a) z := by
  have hi : i - a < xs.length := by omega
  rw [blit, if_pos h, getD_eq_getElem _ _ hi, getD_eq_getElem _ _ hi]

theorem blit_of_notMem (h : i < a ∨ a + xs.length ≤ i) : blit m a xs i = m i := by
  rw [blit]
  split
  · exact getD_eq_default _ _ (by omega)
  · rfl

@[simp] theorem blit_nil (a : Nat) : blit m a [] = m :=
  funext fun _ => blit_of_notMem m (lt_or_ge _ _)

theorem window_blit_self (a : Nat) (xs : List α) : window (blit m a xs) a xs.length = xs := by
  refine ext_getElem? fun j => ?_
  rw [getElem?_window]
  split_ifs with hj
  · rw [blit_of_mem m (Nat.le_add_right a j) (by omega) (m j), Nat.add_sub_cancel_left,
      getD_eq_getElem _ _ hj, getElem?_eq_getElem hj]
  · rw [getElem?_eq_none (Nat.le_of_not_lt hj)]

theorem window_blit_of_disjoint {b n : Nat} (h : b + n ≤ a ∨ a + xs.length ≤ b) :
    window (blit m a xs) b n = window m b n :=
  window_congr fun _ _ _ => blit_of_notMem m (by omega)

theorem blit_append (a : Nat) (xs ys : List α) :
    blit (blit m a xs) (a + xs.length) ys = blit m a (xs ++ ys) := by
  funext i
  by_cases h : i < a + xs.length
  · rw [blit_of_notMem _ (.inl h)]
    by_cases ha : a ≤ i
    · rw [blit_of_mem m ha h (m i),
        blit_of_mem m ha (by rw [length_append]; omega) (m i),
        getD_append _ _ _ _ (by omega)]
    · rw [blit_of_notMem m (by omega), blit_of_notMem m (by omega)]
  · by_cases h' : i < a + xs.length + ys.length
    · rw [blit_of_mem _ (by omega) h' (m i),
        blit_of_mem m (by omega) (by rw [length_append]; omega) (m i),
        getD_append_right _ _ _ _ (by omega), Nat.sub_sub]
    · rw [blit_of_notMem _ (by omega), blit_of_notMem m (by omega),
        blit_of_notMem m (by rw [length_append]; omega)]

/-- Read, change a part, write back. -/
theorem blit_overwrite_window (a n : Nat) {i : Nat} {xs : List α} (h : i + xs.length ≤ n) :
    blit m a (overwrite (window m a n) i xs) = blit m (a + i) xs := by
  have hlen : (overwrite (window m a n) i xs).length = n := by
    rw [length_overwrite (by rw [length_window]; exact h), length_window]
  funext j
  by_cases hj : a ≤ j ∧ j < a + n
  · rw [blit_of_mem m hj.1 (by rw [hlen]; exact hj.2) (m j),
      getD_overwrite (by rw [length_window]; exact h)]
    split
    · rw [blit_of_mem m (by omega) (by omega) (m j), Nat.sub_sub]
    · rw [blit_of_notMem m (by omega), getD_window _ _ _ (by omega), Nat.add_sub_cancel' hj.1]
  · rw [blit_of_notMem m (by omega), blit_of_notMem m (by omega)]

end Blit

theorem overwrite_eq_self {v xs : List α} (h : v.length = xs.length) : overwrite v 0 xs = xs := by
  rw [overwrite, take_zero, nil_append, zero_add, ← h, drop_length,
    append_nil]

end Memory

/-! ## Memories that are filled downwards

A stack grows towards lower addresses, so what has been put on it is never touched again.
`Filled m sp m' sp'` says that a memory has been changed below `sp` only, and that the lowest
address in use is now `sp'`.  Everything that stands above is carried over (`Filled.window`).  Words
of eight bytes are put on a stack in the same way.
-/

section Filled

variable {m m' m'' : Nat → UInt8} {sp sp' sp'' : Nat}

/-- The memory has been filled from `sp` down to `sp'`. -/
structure Filled (m : Nat → UInt8) (sp : Nat) (m' : Nat → UInt8) (sp' : Nat) : Prop where
  le : sp' ≤ sp
  same : ∀ a, sp ≤ a → m' a = m a

namespace Filled

theorem refl (m : Nat → UInt8) (sp : Nat) : Filled m sp m sp := ⟨le_refl _, fun _ _ => rfl⟩

theorem trans (h : Filled m sp m' sp') (h' : Filled m' sp' m'' sp'') : Filled m sp m'' sp'' :=
  ⟨h'.le.trans h.le, fun a ha => (h'.same a (h.le.trans ha)).trans (h.same a ha)⟩

/-- The lowest address in use may be moved down. -/
theorem lower (h : Filled m sp m' sp') (hle : sp'' ≤ sp') : Filled m sp m' sp'' :=
  ⟨hle.trans h.le, h.same⟩

theorem blit {a : Nat} {xs : List UInt8} (m : Nat → UInt8) (h : a + xs.length ≤ sp) :
    Filled m sp (blit m a xs) a :=
  ⟨(Nat.le_add_right _ _).trans h, fun _ hi => blit_of_notMem m (.inr (h.trans hi))⟩

/-- What stands above is carried over. -/
theorem window (h : Filled m sp m' sp') {a : Nat} (ha : sp ≤ a) (n : Nat) :
    window m' a n = window m a n :=
  window_congr fun i hi _ => h.same i (ha.trans hi)

end Filled

/-! ## Words -/

def word (m : Nat → UInt8) (a : Nat) : Nat := leValue (window m a 8)

/-- These words stand one after the other. -/
def Words (m : Nat → UInt8) : Nat → List Nat → Prop
  | _, [] => True
  | a, w :: ws => word m a = w ∧ Words m (a + 8) ws

variable {ws : List Nat}

theorem words_append {a : Nat} {ws' : List Nat} :
    Words m a (ws ++ ws') ↔ Words m a ws ∧ Words m (a + 8 * ws.length) ws' := by
  induction ws generalizing a with
  | nil => simp [Words]
  | cons w ws ih =>
    rw [cons_append, Words, Words, ih, and_assoc, length_cons,
      show a + 8 + 8 * ws.length = a + 8 * (ws.length + 1) by omega]

theorem Words.filled {a : Nat} (h : Words m a ws) (hfill : Filled m sp m' sp') (ha : sp ≤ a) :
    Words m' a ws := by
  induction ws generalizing a with
  | nil => trivial
  | cons w ws ih =>
    obtain ⟨hw, hws⟩ := h
    refine ⟨?_, ih hws (ha.trans (Nat.le_add_right _ _))⟩
    rw [word, hfill.window ha]
    exact hw

theorem Words.getElem? {a : Nat} (h : Words m a ws) {i w : Nat} (hi : ws[i]? = some w) :
    word m (a + 8 * i) = w := by
  induction ws generalizing a i with
  | nil => cases hi
  | cons v ws ih =>
    obtain ⟨hv, hws⟩ := h
    cases i with
    | zero => exact hv.trans (some.inj hi)
    | succ i =>
      rw [show a + 8 * (i + 1) = a + 8 + 8 * i by omega]
      exact ih hws hi

theorem Words.push {w : Nat} (hw : w < 2 ^ 64) (hsp : 8 ≤ sp) (h : Words m sp ws) :
    Words (blit m (sp - 8) (leBytes 8 w)) (sp - 8) (w :: ws) := by
  have hlen : sp - 8 + (leBytes 8 w).length ≤ sp := by rw [length_leBytes]; omega
  constructor
  · have hread := window_blit_self m (sp - 8) (leBytes 8 w)
    rw [length_leBytes] at hread
    rw [word, hread, leValue_leBytes]
    exact Nat.mod_eq_of_lt hw
  · rw [Nat.sub_add_cancel hsp]
    exact h.filled (Filled.blit m hlen) (le_refl _)

end Filled

end Krust.Lib
