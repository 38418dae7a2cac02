import Krust.Block.Device
import Krust.Lib.Contract

/-!
# Faults of a block device

The functions that read and write ranges of bytes fail if an access fails, and only then; and what
is read is what lies on the device (`obeys_readBytes`, `keeps_writeBytes`).
-/

set_option autoImplicit false

namespace Krust.Block

open Lib Prog List

namespace BlockDevice

variable (dev : BlockDevice)

/-- Whoever fails to access a sector says so, and nobody else does.  If `keep` holds then the data
are not changed. -/
def reporting (keep : Prop) : Contract Disk where
  inv _ := True
  step d d' := d'.failures = d.failures ∧ (keep → d'.data = d.data)
  failed d d' := d.failures < d'.failures
  refl _ := ⟨rfl, fun _ => rfl⟩
  trans h h' := ⟨h'.1.trans h.1, fun hkeep => (h'.2 hkeep).trans (h.2 hkeep)⟩
  failed_trans h h' := h.1 ▸ h'

variable {keep : Prop}

theorem keeps_access (a : Access) : Keeps (reporting keep) (access a) := by
  intro d _
  rw [Obeys, Ends, run_access_eq]
  rcases d with ⟨data, _ | ⟨f, faults⟩, failures⟩
  · exact ⟨trivial, ⟨rfl, fun _ => rfl⟩, trivial⟩
  rw [Disk.next]
  dsimp only
  cases f a with
  | none => exact ⟨trivial, ⟨rfl, fun _ => rfl⟩, trivial⟩
  | some e => exact ⟨trivial, Nat.lt_succ_self failures⟩

theorem keeps_reject {α : Type} : Keeps (reporting keep) (reject : Prog Disk _ α) :=
  fun d _ => ⟨trivial, Nat.lt_succ_self d.failures⟩

/-! ## Reading -/

theorem obeys_readSector (sector : Nat) (d : Disk) : Obeys (reporting keep) (dev.readSector sector)
    (fun buf d' => buf = window d'.data (sector * dev.sectorSize) dev.sectorSize) d := by
  rw [readSector]
  split
  · exact ⟨trivial, Nat.lt_succ_self d.failures⟩
  · exact (keeps_access _ d trivial).bind fun _ d' _ _ _ => ⟨trivial, (reporting keep).refl d', rfl⟩

theorem obeys_readLoop (hss : 0 < dev.sectorSize) (hfit : dev.capacity ≤ USIZE_MAX) (fuel : Nat) :
    ∀ (offset len : Nat) (d : Disk), len ≤ fuel → Obeys (reporting True)
      (dev.readLoop fuel offset len) (fun buf d' => buf = window d'.data offset len) d := by
  induction fuel with
  | zero =>
    intro offset len d hlen
    rw [Nat.le_zero.1 hlen]
    exact obeys_ret trivial rfl
  | succ fuel ih =>
    intro offset len d hlen
    rw [readLoop]
    split
    · rename_i hzero
      rw [hzero]
      exact obeys_ret trivial rfl
    split
    · exact ⟨trivial, Nat.lt_succ_self d.failures⟩
    rename_i hne hsector
    obtain ⟨hchunk, hpart⟩ := chunk_bounds hss offset (Nat.pos_of_ne_zero hne)
    have hend : offset + min len (dev.sectorSize - offset % dev.sectorSize) < 2 ^ 64 := by
      have hmax : USIZE_MAX < 2 ^ 64 := by decide
      have hle : (offset / dev.sectorSize + 1) * dev.sectorSize ≤
          dev.sectorCount * dev.sectorSize :=
        Nat.mul_le_mul_right _ (not_le.1 hsector)
      have hdiv := Nat.div_add_mod' offset dev.sectorSize
      rw [capacity, mul_comm] at hfit
      rw [Nat.succ_mul] at hle
      omega
    generalize hn : min len (dev.sectorSize - offset % dev.sectorSize) = chunk at *
    refine (dev.obeys_readSector _ d).bind fun sectorBuf d1 _ _ hbuf => ?_
    dsimp only
    rw [hn, fit_of_lt hend]
    refine (ih (offset + chunk) (len - chunk) d1 (by omega)).bind fun rest d2 _ hstep hrest => ?_
    refine obeys_ret trivial ?_
    rw [hbuf, hrest, hstep.2 trivial, slice, take_drop_window _ _ _ hpart, Nat.div_add_mod',
      ← window_add, Nat.add_sub_cancel' (by omega)]

/-- **What is read is what lies on the device.** -/
theorem obeys_readBytes (hss : 0 < dev.sectorSize) (hfit : dev.capacity ≤ USIZE_MAX)
    (offset : Nat) (buf : List UInt8) (d : Disk) : Obeys (reporting True) (dev.readBytes offset buf)
      (fun bytes d' => bytes = window d'.data offset buf.length) d := by
  rw [readBytes]
  split_ifs with h
  · rcases h with h | rfl
    · omega
    · exact obeys_ret trivial rfl
  · exact dev.obeys_readLoop hss hfit _ _ _ d le_rfl

/-! ## Writing -/

theorem keeps_writeSector (sector : Nat) (buf : List UInt8) :
    Keeps (reporting False) (dev.writeSector sector buf) := by
  rw [writeSector]
  split
  · exact keeps_reject
  · exact (keeps_access _).bind fun _ => keeps_update fun d _ => ⟨trivial, rfl, False.elim⟩

theorem keeps_fetchSector (sector chunk : Nat) :
    Keeps (reporting keep) (dev.fetchSector sector chunk) := by
  rw [fetchSector]
  split
  · exact fun d _ => (dev.obeys_readSector sector d).mono fun _ _ _ => trivial
  · exact keeps_ret _

theorem keeps_writeLoop (fuel offset : Nat) (buf : List UInt8) :
    Keeps (reporting False) (dev.writeLoop fuel offset buf) := by
  induction fuel generalizing offset buf with
  | zero => exact keeps_ret ()
  | succ fuel ih =>
    rw [writeLoop]
    split
    · exact keeps_ret ()
    split
    · exact keeps_reject
    refine (dev.keeps_fetchSector _ _).bind fun _ => ?_
    refine (dev.keeps_writeSector _ _).bind fun _ => ?_
    exact (keeps_ofOption _).bind fun next => ih _ _

theorem keeps_writeBytes (offset : Nat) (buf : List UInt8) :
    Keeps (reporting False) (dev.writeBytes offset buf) := by
  rw [writeBytes]
  split
  · exact keeps_ret ()
  · exact dev.keeps_writeLoop _ _ _

end BlockDevice

end Krust.Block
