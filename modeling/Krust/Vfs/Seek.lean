import Krust.Lib.Runs
import Krust.Vfs.Mutation

/-!
# Seeking

The cursor of an open file is a `usize`, and `lseek` returns it as an `i64`, whose negative values
are the error numbers.  A position is only refused if it does not fit into a `usize`, so there are
positions that come back as negative numbers, and a negative offset from the start is one of them
(`lseek_answers_iff`).
-/

set_option autoImplicit false

namespace Krust.Vfs

open Lib

inductive SeekFrom
  | start (offset : Nat)
  | current (delta : Int)
  | end_ (delta : Int)

def applySignedOffset (base : Nat) (delta : Int) : Except FsError Nat :=
  if 0 ≤ delta then okOr (checkedAdd base delta.toNat) .ioError
  else if delta.natAbs ≤ base then .ok (base - delta.natAbs) else .error .ioError

/-- `OpenFile::seek`, of a file without a device that has this size. -/
def seek (cursor size : Nat) : SeekFrom → Except FsError Nat
  | .start offset => .ok offset
  | .current delta => applySignedOffset cursor delta
  | .end_ delta => applySignedOffset size delta

/-- The argument of `seek` that `lseek` makes; `offset as usize` wraps. -/
def seekFrom (offset : Int) : Nat → Option SeekFrom
  | 0 => some (.start (offset % 2 ^ 64).toNat)
  | 1 => some (.current offset)
  | 2 => some (.end_ offset)
  | _ => none

/-- `lseek`: the answer, and the cursor after it. -/
def lseek (cursor size : Nat) (offset : Int) (whence : Nat) : Except Int Int × Nat :=
  match seekFrom offset whence with
  | none => (.error (-22), cursor)
  | some pos =>
    match seek cursor size pos with
    | .ok pos => (.ok (Int.bmod pos (2 ^ 64)), pos)
    | .error e => (.error (errnoFromFs e), cursor)

/-- A call on an open file, with what the inode answers or the size it has. -/
inductive FileCall
  | read (answer : Except FsError Nat)
  | write (answer : Except FsError Nat)
  /-- A write that appends: the place of the bytes, and how many there are. -/
  | append (answer : Except FsError (Nat × Nat))
  | lseek (size : Nat) (offset : Int) (whence : Nat)

def FileCall.step (cursor : Nat) : FileCall → Nat
  | .read (.ok n) | .write (.ok n) => saturatingAdd cursor n
  | .append (.ok (offset, written)) => offset + written
  | .lseek size offset whence => (Vfs.lseek cursor size offset whence).2
  | _ => cursor

/-- The sizes of the file are `usize`s, and the offset is an `i64`. -/
def FileCall.Fits : FileCall → Prop
  | .append (.ok (offset, written)) => offset + written ≤ USIZE_MAX
  | .lseek size offset _ => size ≤ USIZE_MAX ∧ -2 ^ 63 ≤ offset ∧ offset < 2 ^ 63
  | _ => True

def cursorAfter (es : List FileCall) : Nat := runFrom FileCall.step 0 es

/-- **The answer is the new position**, or an error and the cursor has not moved. -/
def Answered (cursor : Nat) (r : Except Int Int × Nat) : Prop :=
  match r.1 with
  | .ok pos => 0 ≤ pos ∧ pos = r.2
  | .error _ => r.2 = cursor

/-- The position is one that an `i64` can hold, or is refused. -/
def Seekable (cursor size : Nat) (offset : Int) : Nat → Prop
  | 0 => 0 ≤ offset
  | 1 => cursor + offset < 2 ^ 63 ∨ 2 ^ 64 ≤ cursor + offset
  | 2 => size + offset < 2 ^ 63 ∨ 2 ^ 64 ≤ size + offset
  | _ => True

theorem applySignedOffset_cases {base : Nat} (h : base ≤ USIZE_MAX) (delta : Int) :
    (∃ pos ≤ USIZE_MAX, applySignedOffset base delta = .ok pos ∧
      (pos < 2 ^ 63 ↔ base + delta < 2 ^ 63 ∨ 2 ^ 64 ≤ base + delta)) ∨
    (∃ e, applySignedOffset base delta = .error e) ∧
      (base + delta < 2 ^ 63 ∨ 2 ^ 64 ≤ base + delta) := by
  rw [USIZE_MAX] at h
  rw [applySignedOffset, checkedAdd, USIZE_MAX]
  split
  · by_cases hfit : base + delta.toNat ≤ 2 ^ 64 - 1
    · rw [if_pos hfit]
      exact .inl ⟨_, hfit, rfl, by omega⟩
    · rw [if_neg hfit]
      exact .inr ⟨⟨_, rfl⟩, by omega⟩
  · by_cases hfit : delta.natAbs ≤ base
    · rw [if_pos hfit]
      exact .inl ⟨_, by omega, rfl, by omega⟩
    · rw [if_neg hfit]
      exact .inr ⟨⟨_, rfl⟩, by omega⟩

/-- The value of a `usize` as an `i64`. -/
theorem answered_pos (pos cursor : Nat) :
    Answered cursor (.ok (Int.bmod pos (2 ^ 64)), pos) ↔ pos < 2 ^ 63 := by
  simp only [Answered, Int.bmod_def]
  split <;> omega

variable {cursor size : Nat} {offset : Int}

/-- **What `lseek` does.** -/
theorem lseek_cases (hcursor : cursor ≤ USIZE_MAX)
    (hsize : size ≤ USIZE_MAX) (hoffset : -2 ^ 63 ≤ offset ∧ offset < 2 ^ 63) (whence : Nat) :
    (∃ pos ≤ USIZE_MAX, lseek cursor size offset whence = (.ok (Int.bmod pos (2 ^ 64)), pos) ∧
      (pos < 2 ^ 63 ↔ Seekable cursor size offset whence)) ∨
    (∃ e, lseek cursor size offset whence = (.error e, cursor)) ∧
      Seekable cursor size offset whence := by
  match whence with
  | 0 =>
    refine .inl ⟨(offset % 2 ^ 64).toNat, ?_, by simp only [lseek, seekFrom, seek], ?_⟩
    · rw [USIZE_MAX]
      omega
    · rw [Seekable]
      omega
  | 1 =>
    rcases applySignedOffset_cases hcursor offset with ⟨pos, hpos, heq, hiff⟩ | ⟨⟨e, heq⟩, hout⟩
    · exact .inl ⟨pos, hpos, by simp only [lseek, seekFrom, seek, heq], hiff⟩
    · exact .inr ⟨⟨errnoFromFs e, by simp only [lseek, seekFrom, seek, heq]⟩, hout⟩
  | 2 =>
    rcases applySignedOffset_cases hsize offset with ⟨pos, hpos, heq, hiff⟩ | ⟨⟨e, heq⟩, hout⟩
    · exact .inl ⟨pos, hpos, by simp only [lseek, seekFrom, seek, heq], hiff⟩
    · exact .inr ⟨⟨errnoFromFs e, by simp only [lseek, seekFrom, seek, heq]⟩, hout⟩
  | _ + 3 => exact .inr ⟨⟨_, rfl⟩, trivial⟩

theorem FileCall.step_le (h : cursor ≤ USIZE_MAX) {e : FileCall} (he : e.Fits) :
    e.step cursor ≤ USIZE_MAX := by
  match e with
  | .read (.ok n) | .write (.ok n) => exact min_le_right _ _
  | .append (.ok (offset, written)) => exact he
  | .lseek size offset whence =>
    rcases lseek_cases h he.1 he.2 whence with ⟨pos, hpos, heq, -⟩ | ⟨⟨e, heq⟩, -⟩
    · rwa [step, heq]
    · rwa [step, heq]
  | .read (.error _) | .write (.error _) | .append (.error _) => exact h

theorem cursorAfter_le {es : List FileCall} (hes : ∀ e ∈ es, e.Fits) :
    cursorAfter es ≤ USIZE_MAX := by
  refine runFrom_induction_of (P := fun cursor => cursor ≤ USIZE_MAX) (C := fun _ e => e.Fits)
    (Nat.zero_le _) (fun _ _ h he => FileCall.step_le h he) es fun es' e hpre => ?_
  exact hes e (hpre.subset (by simp))

/-- **When `lseek` answers with the new position or an error.**  After every run of calls on the
file, it does so exactly if the position does not lie in the upper half of the range of `usize`. -/
theorem lseek_answers_iff {es : List FileCall} (hes : ∀ e ∈ es, e.Fits)
    (hsize : size ≤ USIZE_MAX) (hoffset : -2 ^ 63 ≤ offset ∧ offset < 2 ^ 63) (whence : Nat) :
    Answered (cursorAfter es) (lseek (cursorAfter es) size offset whence) ↔
      Seekable (cursorAfter es) size offset whence := by
  rcases lseek_cases (cursorAfter_le hes) hsize hoffset whence with
    ⟨pos, hpos, heq, hiff⟩ | ⟨⟨e, heq⟩, hseekable⟩
  · rw [heq, answered_pos, hiff]
  · rw [heq]
    exact iff_of_true rfl hseekable

/-- The position -1 from the start is accepted, and is answered with -1. -/
theorem lseek_negative : lseek 0 10 (-1) 0 = (.ok (-1), 2 ^ 64 - 1) := rfl

theorem lseek_answers_end : Answered 5 (lseek 5 10 (-3) 2) ∧ cursorAfter [.read (.ok 5)] = 5 :=
  ⟨(lseek_answers_iff (show ∀ e ∈ [FileCall.read (.ok 5)], e.Fits by simp [FileCall.Fits])
    (by decide) (by decide) 2).2 (.inl (by decide)), rfl⟩

end Krust.Vfs
