import Mathlib.Order.Lattice

/-!
# Binary search in a sorted list

`binarySearchByKey` is the search of the standard library's slices: halve the window until one
element is left, then compare that element.  Found elements come back as `ok` with their index;
for a missing key the answer is `error` with the index where it would have to be inserted.

Callers use `binarySearchByKey_ok` and `binarySearchByKey_error`.
-/

set_option autoImplicit false

namespace Krust

open List Option

variable {α κ : Type} [LinearOrder κ]

/-- The halving loop, with the window `[base, base + size)`; the answer is the last `base`. -/
def searchLoop (xs : List α) (key : α → κ) (k : κ) : Nat → Nat → Nat → Nat
  | 0, base, _ => base
  | fuel + 1, base, size =>
    if size ≤ 1 then base
    else
      let half := size / 2
      let mid := base + half
      let greater := (xs[mid]?).any fun x => decide (k < key x)
      searchLoop xs key k fuel (if greater then base else mid) (size - half)

/-- `slice::binary_search_by_key`. -/
def binarySearchByKey (xs : List α) (key : α → κ) (k : κ) : Except Nat Nat :=
  if xs.length = 0 then .error 0
  else
    let base := searchLoop xs key k xs.length 0 xs.length
    match xs[base]? with
    | none => .error base
    | some x =>
      if key x = k then .ok base
      else if key x < k then .error (base + 1)
      else .error base

/-- The keys strictly increase. -/
def SortedBy (key : α → κ) (xs : List α) : Prop := xs.Pairwise fun x y => key x < key y

variable {key : α → κ} {xs : List α} {i : Nat} {k : κ}

theorem SortedBy.lt (h : SortedBy key xs) {j : Nat} {x y : α} (hx : xs[i]? = some x)
    (hy : xs[j]? = some y) (hij : i < j) : key x < key y := by
  obtain ⟨hi, rfl⟩ := List.getElem?_eq_some_iff.1 hx
  obtain ⟨hj, rfl⟩ := List.getElem?_eq_some_iff.1 hy
  exact pairwise_iff_getElem.1 h i j hi hj hij

/-- What the loop has established about the window: it is not empty, it lies inside the list,
nothing after it is at most `k`, and its first element is at most `k` unless it is the first of the
list. -/
structure Window (xs : List α) (key : α → κ) (k : κ) (base size : Nat) : Prop where
  pos : 0 < size
  le : base + size ≤ xs.length
  /-- Its first element is at most `k`, unless the window starts the list. -/
  low : base = 0 ∨ ∃ x, xs[base]? = some x ∧ key x ≤ k
  /-- Everything after it is greater than `k`. -/
  high : ∀ j x, base + size ≤ j → xs[j]? = some x → k < key x

theorem Window.halve (hs : SortedBy key xs) {base size : Nat} (h : Window xs key k base size)
    (h1 : 1 < size) :
    Window xs key k
      (if (xs[base + size / 2]?).any (fun x => decide (k < key x)) then base else base + size / 2)
      (size - size / 2) := by
  have hle := h.le
  obtain ⟨x, hx⟩ : ∃ x, xs[base + size / 2]? = some x :=
    ⟨_, getElem?_eq_getElem (by omega)⟩
  rw [hx]
  by_cases hk : k < key x
  · -- the middle is too large: so is everything from it on
    rw [if_pos (by simpa using hk)]
    refine ⟨by omega, by omega, h.low, fun j y hj hy => ?_⟩
    rcases Nat.lt_or_ge j (base + size) with hlt | hge
    · rcases Nat.eq_or_lt_of_le (show base + size / 2 ≤ j by omega) with rfl | hmj
      · rw [hx, some_inj] at hy; exact hy ▸ hk
      · exact hk.trans (hs.lt hx hy hmj)
    · exact h.high j y hge hy
  · rw [if_neg (by simpa using hk)]
    refine ⟨by omega, by omega, Or.inr ⟨x, hx, not_lt.1 hk⟩, fun j y hj hy => ?_⟩
    exact h.high j y (by omega) hy

theorem Window.searchLoop (hs : SortedBy key xs) :
    ∀ {fuel base size : Nat}, size ≤ fuel + 1 → Window xs key k base size →
      Window xs key k (searchLoop xs key k fuel base size) 1
  | 0, base, size, hfuel, h => by
    have hsize : size = 1 := by have := h.pos; omega
    exact hsize ▸ h
  | fuel + 1, base, size, hfuel, h => by
    rw [Krust.searchLoop]
    by_cases h1 : size ≤ 1
    · have hsize : size = 1 := by have := h.pos; omega
      rw [if_pos h1]
      exact hsize ▸ h
    · rw [if_neg h1]
      exact Window.searchLoop hs (by omega) (h.halve hs (by omega))

theorem window_all (h : 0 < xs.length) : Window xs key k 0 xs.length := by
  refine ⟨h, by omega, Or.inl rfl, fun j x hj hx => ?_⟩
  rw [getElem?_eq_none (by omega)] at hx
  exact absurd hx (by simp)

/-- A key that is found is where the search says; this needs no order at all. -/
theorem binarySearchByKey_ok (h : binarySearchByKey xs key k = .ok i) :
    ∃ x, xs[i]? = some x ∧ key x = k := by
  rw [binarySearchByKey] at h
  split at h
  · exact absurd h (by simp)
  dsimp only at h
  split at h
  · exact absurd h (by simp)
  rename_i x hx
  split at h
  · rename_i hk
    cases h
    exact ⟨x, hx, hk⟩
  · split at h <;> exact absurd h (by simp)

/-- **A key that is not found splits the list**: smaller keys before the reported index, larger
ones from it on. -/
theorem binarySearchByKey_error (hs : SortedBy key xs) (h : binarySearchByKey xs key k = .error i) :
    i ≤ xs.length ∧ (∀ j x, j < i → xs[j]? = some x → key x < k) ∧
      ∀ j x, i ≤ j → xs[j]? = some x → k < key x := by
  rw [binarySearchByKey] at h
  split at h
  · cases h
    refine ⟨by omega, fun j x hj _ => absurd hj (by omega), fun j x _ hx => ?_⟩
    rw [getElem?_eq_none (by omega)] at hx
    exact absurd hx (by simp)
  · have hw : Window xs key k (searchLoop xs key k xs.length 0 xs.length) 1 :=
      Window.searchLoop hs (by omega) (window_all (by omega))
    generalize searchLoop xs key k xs.length 0 xs.length = base at h hw
    have hle := hw.le
    obtain ⟨x, hx⟩ : ∃ x, xs[base]? = some x := ⟨_, getElem?_eq_getElem (by omega)⟩
    simp only [hx] at h
    split at h
    · exact absurd h (by simp)
    rename_i hne
    split at h
    · rename_i hlt
      cases h
      refine ⟨by omega, fun j y hj hy => ?_, fun j y hj hy => hw.high j y (by omega) hy⟩
      rcases Nat.eq_or_lt_of_le (Nat.lt_succ_iff.1 hj) with rfl | hjb
      · rw [hx, some_inj] at hy; exact hy ▸ hlt
      · exact (hs.lt hy hx hjb).trans hlt
    · rename_i hnlt
      have hgt : k < key x := lt_of_le_of_ne (not_lt.1 hnlt) (Ne.symm hne)
      cases h
      -- the first element of the window is at most `k`, so the window is at the very start
      have hb : i = 0 := by
        rcases hw.low with h0 | ⟨y, hy, hle'⟩
        · exact h0
        · rw [hx, some_inj] at hy
          exact absurd hgt (not_lt.2 (hy ▸ hle'))
      subst hb
      refine ⟨by omega, fun j y hj _ => absurd hj (by omega), fun j y _ hy => ?_⟩
      rcases Nat.eq_zero_or_pos j with rfl | hj
      · rw [hx, some_inj] at hy; exact hy ▸ hgt
      · exact hgt.trans (hs.lt hx hy hj)

end Krust
