import Krust.Fs.Defs
import Krust.Lib.Machine

/-!
# The range of a mapping

Before `mmap` touches the address space it rounds the range that it is asked for to whole pages.
The sums are of machine words and are checked; what comes out is the range of the unbounded numbers
where that one fits below the limit, and an error otherwise (`checkedMmapRange_exact`).
-/

set_option autoImplicit false

namespace Krust.Syscall

open Lib

/-- `MmapRange`, whose `end` is `stop` here. -/
structure MmapRange where
  base : Nat
  len : Nat
  stop : Nat
deriving DecidableEq

def checkedMmapRange (base len pageSize userEnd : Nat) : Except Int MmapRange :=
  if len = 0 then .error (-22)
  else do
    let align (value : Nat) :=
      (checkedAdd value (pageSize - 1)).map (· &&& (USIZE_MAX - (pageSize - 1)))
    let len ← okOr (align len) (-12)
    let base ← okOr (align base) (-12)
    let stop ← okOr (checkedAdd base len) (-12)
    if base ≥ userEnd ∨ stop > userEnd then .error (-12) else .ok ⟨base, len, stop⟩

/-- The next multiple of the page size, of any size. -/
def roundUp (pageSize value : Nat) : Nat := (value + (pageSize - 1)) / pageSize * pageSize

/-- A word can be rounded up exactly if the result is a word. -/
theorem align_eq {k : Nat} (hk : k < 64) (value : Nat) :
    (checkedAdd value (2 ^ k - 1)).map (· &&& (USIZE_MAX - (2 ^ k - 1))) =
      if roundUp (2 ^ k) value ≤ USIZE_MAX then some (roundUp (2 ^ k) value) else none := by
  obtain ⟨n, hn⟩ := Nat.exists_eq_add_of_lt hk
  have hpos := Nat.two_pow_pos k
  have hsize : USIZE_MAX + 1 = 2 ^ (k + (n + 1)) := by rw [← Nat.add_assoc, ← hn]; rfl
  rw [checkedAdd, roundUp]
  split_ifs with hsum hfits hfits
  · have hmask : USIZE_MAX - (2 ^ k - 1) = (2 ^ (n + 1) - 1) <<< k := by
      rw [Nat.shiftLeft_eq, Nat.sub_mul, ← pow_add, Nat.add_comm _ k, ← hsize]
      omega
    rw [Option.map_some, hmask, mask_high (hsize ▸ Nat.lt_succ_of_le hsum)]
  · exact absurd ((Nat.div_mul_le_self _ _).trans hsum) hfits
  · -- the sum reaches the end of the words, which is a multiple of the page size
    rw [pow_add, Nat.mul_comm] at hsize
    have hle : 2 ^ (n + 1) ≤ (value + (2 ^ k - 1)) / 2 ^ k :=
      (Nat.le_div_iff_mul_le hpos).2 (by omega)
    have := Nat.mul_le_mul_right (2 ^ k) hle
    omega
  · rfl

theorem le_roundUp (k value : Nat) : value ≤ roundUp (2 ^ k) value := by
  have hpos := Nat.two_pow_pos k
  have := Nat.lt_div_mul_add hpos (a := value + (2 ^ k - 1))
  rw [roundUp]
  omega

/-- **The range is the one of the unbounded numbers**, with every base, length and limit and every
power of two as the page size. -/
theorem checkedMmapRange_exact (base len userEnd : Nat) (k : Fin 64) :
    checkedMmapRange base len (2 ^ k.val) userEnd =
      let base' := roundUp (2 ^ k.val) base
      let len' := roundUp (2 ^ k.val) len
      if len = 0 then .error (-22)
      else if base' < base' + len' ∧ base' + len' ≤ userEnd ∧ base' + len' < 2 ^ 64 then
        .ok ⟨base', len', base' + len'⟩
      else .error (-12) := by
  have hlen := le_roundUp k len
  have hmax : USIZE_MAX + 1 = 2 ^ 64 := rfl
  dsimp only
  rw [checkedMmapRange]
  split_ifs with hzero hrange
  · rfl
  · simp only [align_eq k.isLt]
    rw [if_pos (by omega), if_pos (by omega)]
    simp only [okOr, bind, Except.bind, checkedAdd]
    rw [if_pos (by omega)]
    exact if_neg (by omega)
  · simp only [align_eq k.isLt]
    by_cases hfits : roundUp (2 ^ k.val) base + roundUp (2 ^ k.val) len ≤ USIZE_MAX
    · rw [if_pos (by omega), if_pos (by omega)]
      simp only [okOr, bind, Except.bind, checkedAdd, if_pos hfits]
      exact if_pos (by omega)
    · split_ifs <;> simp [okOr, bind, Except.bind, checkedAdd, hfits]

end Krust.Syscall
