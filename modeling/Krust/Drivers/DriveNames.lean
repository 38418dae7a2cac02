import Krust.Fs.Defs
import Mathlib.Data.List.Shortlex

/-!
# Names of drives

The drives are called `sda`, `sdb`, …, `sdz`, `sdaa` and so on.  The letters are the digits of a
number system that has no zero: after the last letter of a length comes the first one with a letter
more.  The driver for the controllers and the bus each have a routine for these names, and they
agree; the names are in the order of the drives, shorter ones first (`drive_names_ordered`).
-/

set_option autoImplicit false

namespace Krust.Drivers

open List

/-! ## The source -/

/-- The loop of both routines, which push the letters in different forms; the last letter of the
name comes first. -/
def pushLetters {α : Type} (letter : Nat → α) (n : Nat) (letters : List α) : List α :=
  if n < 26 then letters ++ [letter (n % 26)]
  else pushLetters letter (n / 26 - 1) (letters ++ [letter (n % 26)])
  termination_by n
  decreasing_by omega

/-- `b'a' + digit as u8`. -/
def letterByte (digit : Nat) : UInt8 := 0x61 + UInt8.ofNat digit

def letterChar (digit : Nat) : Char := Char.ofNat (letterByte digit).toNat

/-- `drive_letter_name`, of the driver. -/
def driveLetterName (index : Nat) : Str :=
  (pushLetters letterByte index []).reverse.foldl
    (fun name ch => name ++ [Char.ofNat ch.toNat]) "sd".toList

/-- `sata_name`, of the bus. -/
def sataName (index : Nat) : Str :=
  "sd".toList ++ (pushLetters letterChar index []).reverse

/-! ## The letters -/

section Letters

variable {α β : Type} (letter : Nat → α)

def lettersOf (n : Nat) : List α := (pushLetters letter n []).reverse

theorem pushLetters_append (n : Nat) (letters : List α) :
    pushLetters letter n letters = letters ++ pushLetters letter n [] := by
  induction n using Nat.strong_induction_on generalizing letters with
  | _ n ih =>
    rw [pushLetters, pushLetters.eq_1 letter n []]
    split
    · rfl
    · rw [ih _ (by omega), ih _ (by omega) ([] ++ _), nil_append, append_assoc]

theorem lettersOf_eq (n : Nat) :
    lettersOf letter n =
      (if n < 26 then [] else lettersOf letter (n / 26 - 1)) ++ [letter (n % 26)] := by
  rw [lettersOf, pushLetters]
  split
  · rfl
  · rw [pushLetters_append, reverse_append]
    rfl

theorem map_lettersOf (f : α → β) (n : Nat) :
    (lettersOf letter n).map f = lettersOf (f ∘ letter) n := by
  induction n using Nat.strong_induction_on with
  | _ n ih =>
    rw [lettersOf_eq letter, lettersOf_eq (f ∘ letter), map_append]
    split
    · rfl
    · rw [ih _ (by omega)]
      rfl

end Letters

theorem lex_append {α : Type} {r : α → α → Prop} {a b : List α} (h : Lex r a b)
    (hlength : a.length = b.length) (s t : List α) : Lex r (a ++ s) (b ++ t) := by
  induction h with
  | nil => cases hlength
  | cons _ ih => exact .cons (ih (Nat.succ.inj hlength))
  | rel h => exact .rel h

/-- **The next letters come later**, as there is no letter for zero. -/
theorem lettersOf_lt {letter : Nat → Char} (hletter : ∀ d e, d < e → e < 26 → letter d < letter e)
    {i j : Nat} (h : i < j) : Shortlex (· < ·) (lettersOf letter i) (lettersOf letter j) := by
  induction j using Nat.strong_induction_on generalizing i with
  | _ j ih =>
    rw [lettersOf_eq letter i, lettersOf_eq letter j]
    by_cases hj : j < 26
    · rw [if_pos hj, if_pos (h.trans hj), nil_append, nil_append, shortlex_singleton_iff]
      exact hletter _ _ (by omega) (by omega)
    rw [if_neg hj]
    by_cases hi : i < 26
    · refine .of_length_lt ?_
      rw [if_pos hi, lettersOf_eq]
      simp
    rw [if_neg hi]
    rcases Nat.lt_or_ge (i / 26 - 1) (j / 26 - 1) with hlt | hge
    · -- The letters before the last one decide.
      rcases shortlex_def.1 (ih _ (by omega) hlt) with hlength | ⟨hlength, hlex⟩
      · exact .of_length_lt (by simpa using hlength)
      · exact .of_lex (by simpa using hlength) (lex_append hlex hlength _ _)
    · have heq : i / 26 - 1 = j / 26 - 1 := by omega
      rw [heq]
      refine .append_left ((shortlex_singleton_iff _ _).2 ?_) _
      exact hletter _ _ (by omega) (by omega)

/-! ## The names -/

theorem driveLetterName_eq (index : Nat) :
    driveLetterName index = "sd".toList ++ lettersOf letterChar index := by
  have hpush : ∀ (suffix : List UInt8) (name : Str),
      suffix.foldl (fun name ch => name ++ [Char.ofNat ch.toNat]) name =
        name ++ suffix.map fun ch => Char.ofNat ch.toNat := by
    intro suffix
    induction suffix with
    | nil => simp
    | cons ch suffix ih => simp [ih]
  rw [driveLetterName, hpush]
  exact congrArg _ (map_lettersOf letterByte _ index)

theorem driveLetterName_lt {i j : Nat} (h : i < j) :
    Shortlex (· < ·) (driveLetterName i) (driveLetterName j) := by
  have hletter : ∀ d e, d < e → e < 26 → letterChar d < letterChar e := by
    have hall : ∀ e < 26, ∀ d < e, letterChar d < letterChar e := by decide
    exact fun d e hlt he => hall e he d hlt
  rw [driveLetterName_eq, driveLetterName_eq]
  exact .append_left (lettersOf_lt hletter h) _

/-- **The names of the drives are in the order of the drives**: no two drives have the same name,
the driver and the bus agree on the names, and shorter names come first, names of one length in the
order of the alphabet. -/
theorem drive_names_ordered :
    Function.Injective driveLetterName ∧ (∀ i, driveLetterName i = sataName i) ∧
      ∀ i j, i < j ↔ (driveLetterName i).length < (driveLetterName j).length ∨
        (driveLetterName i).length = (driveLetterName j).length ∧
          driveLetterName i < driveLetterName j := by
  let names := RelEmbedding.ofMonotone (r := (· < ·)) (s := Shortlex (· < ·)) driveLetterName
    fun _ _ => driveLetterName_lt
  refine ⟨names.injective, driveLetterName_eq, fun i j => ?_⟩
  rw [← names.map_rel_iff]
  exact shortlex_def

end Krust.Drivers
