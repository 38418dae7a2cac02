import Krust.Boot.Settings
import Krust.Lib.Runs

/-!
# The options of a tmpfs

The mount options of a tmpfs are set one by one, from strings.  `MemoryFs::tmpfs` checks them once
more, and refuses a size that is not a number of whole pages; but this check never fails for options
that have been set from the defaults on (`options_let_through`).
-/

set_option autoImplicit false

namespace Krust.TmpfsOptions

open Lib

def sizeUnit (value : Str) : Str × Nat :=
  match value.getLast? with
  | some 'k' | some 'K' => (value.dropLast, 1024)
  | some 'm' | some 'M' => (value.dropLast, 1024 ^ 2)
  | some 'g' | some 'G' => (value.dropLast, 1024 ^ 3)
  | _ => (value, 1)

/-- `TmpfsOptions::set`: the answer, and the options after it. -/
def set (options : TmpfsOptions) (key value : Str) : Except Str Unit × TmpfsOptions :=
  if key = "size".toList then
    match (fromStrRadix 10 (2 ^ 64) (sizeUnit value).1).bind fun n =>
        if 0 < n * (sizeUnit value).2 ∧ n * (sizeUnit value).2 ≤ USIZE_MAX then
          some (n * (sizeUnit value).2)
        else none with
    | none => (.error "invalid tmpfs size".toList, options)
    | some bytes =>
      match checkedAdd bytes 4095 with
      | none => (.error "tmpfs size overflow".toList, options)
      | some n => (.ok (), { options with size := n / 4096 * 4096 })
  else if key = "nr_inodes".toList then
    match (fromStrRadix 10 (2 ^ 64) value).filter fun n => 0 < n with
    | none => (.error "invalid tmpfs inode limit".toList, options)
    | some n => (.ok (), { options with nrInodes := n })
  else if key = "mode".toList then
    match (fromStrRadix 8 (2 ^ 16) value).filter fun n => n ≤ 0o7777 with
    | none => (.error "invalid tmpfs mode".toList, options)
    | some n => (.ok (), { options with mode := n })
  else if key = "uid".toList then
    match fromStrRadix 10 (2 ^ 32) value with
    | none => (.error "invalid tmpfs uid".toList, options)
    | some n => (.ok (), { options with uid := n })
  else if key = "gid".toList then
    match fromStrRadix 10 (2 ^ 32) value with
    | none => (.error "invalid tmpfs gid".toList, options)
    | some n => (.ok (), { options with gid := n })
  else (.error "unsupported tmpfs mount option".toList, options)

/-- The check of `MemoryFs::tmpfs`. -/
def Refused (options : TmpfsOptions) : Prop :=
  options.size = 0 ∨ options.size % PAGE_SIZE ≠ 0 ∨ options.nrInodes = 0 ∨ 0o7777 < options.mode

/-- The number of bytes that a size asks for. -/
def requested (value : Str) : Option Nat :=
  (fromStrRadix 10 (2 ^ 64) (sizeUnit value).1).map (· * (sizeUnit value).2)

/-- What setting an option may do. -/
def Outcome (options : TmpfsOptions) (key value : Str) (answer : Except Str Unit × TmpfsOptions) :
    Prop :=
  (answer.1 ≠ .ok () ∧ answer.2 = options) ∨ answer.1 = .ok () ∧
    (answer.2.nrInodes = options.nrInodes ∨ 0 < answer.2.nrInodes) ∧
    (answer.2.mode = options.mode ∨ answer.2.mode ≤ 0o7777) ∧
    (key ≠ "size".toList → answer.2.size = options.size) ∧
    (key = "size".toList → ∃ bytes, requested value = some bytes ∧ 0 < bytes ∧
      bytes + 4095 ≤ USIZE_MAX ∧ answer.2.size = (bytes + 4095) / 4096 * 4096)

theorem set_outcome (options : TmpfsOptions) (key value : Str) :
    Outcome options key value (options.set key value) := by
  have herror (e : Str) : Outcome options key value (.error e, options) := .inl ⟨nofun, rfl⟩
  rw [set]
  by_cases hkey : key = "size".toList
  · rw [if_pos hkey]
    rcases hn : fromStrRadix 10 (2 ^ 64) (sizeUnit value).1 with _ | n
    · exact herror _
    have hrequested : requested value = some (n * (sizeUnit value).2) := by
      rw [requested, hn]
      rfl
    dsimp only [Option.bind_some]
    generalize n * (sizeUnit value).2 = bytes at hrequested ⊢
    by_cases hfits : 0 < bytes ∧ bytes ≤ USIZE_MAX
    · rw [if_pos hfits]
      dsimp only
      by_cases hadd : bytes + 4095 ≤ USIZE_MAX
      · rw [checkedAdd, if_pos hadd]
        exact .inr ⟨rfl, .inl rfl, .inl rfl, absurd hkey,
          fun _ => ⟨bytes, hrequested, hfits.1, hadd, rfl⟩⟩
      · rw [checkedAdd, if_neg hadd]
        exact herror _
    · rw [if_neg hfits]
      exact herror _
  · rw [if_neg hkey]
    split
    · split
      · exact herror _
      · rename_i n hn
        have hpos := of_decide_eq_true (Option.filter_eq_some_iff.1 hn).2
        exact .inr ⟨rfl, .inr hpos, .inl rfl, fun _ => rfl, (absurd · hkey)⟩
    split
    · split
      · exact herror _
      · rename_i n hn
        have hmode := of_decide_eq_true (Option.filter_eq_some_iff.1 hn).2
        exact .inr ⟨rfl, .inl rfl, .inr hmode, fun _ => rfl, (absurd · hkey)⟩
    split
    · split
      · exact herror _
      · exact .inr ⟨rfl, .inl rfl, .inl rfl, fun _ => rfl, (absurd · hkey)⟩
    split
    · split
      · exact herror _
      · exact .inr ⟨rfl, .inl rfl, .inl rfl, fun _ => rfl, (absurd · hkey)⟩
    · exact herror _

theorem not_refused_set {options : TmpfsOptions} (h : ¬ options.Refused) (key value : Str) :
    ¬ (options.set key value).2.Refused := by
  rcases set_outcome options key value with ⟨-, hsame⟩ | ⟨-, hinodes, hmode, hsame, hsize⟩
  · rwa [hsame]
  simp only [Refused, PAGE_SIZE, not_or, not_not] at h ⊢
  by_cases hkey : key = "size".toList
  · obtain ⟨bytes, -, hpos, -, hbytes⟩ := hsize hkey
    omega
  · have hsame := hsame hkey
    omega

/-- **The options of a tmpfs.**  However they have been set, they are let through; an option that is
refused changes nothing, and a size is rounded up to whole pages. -/
theorem options_let_through (calls : List (Str × Str)) (key value : Str) :
    let options := runFrom (fun options call => (options.set call.1 call.2).2) default calls
    let answer := options.set key value
    ¬ options.Refused ∧ (answer.1 ≠ .ok () → answer.2 = options) ∧
      (key = "size".toList → answer.1 = .ok () → ∃ bytes, requested value = some bytes ∧
        IsLeast {n | 4096 ∣ n ∧ bytes ≤ n} answer.2.size ∧ answer.2.size ≤ USIZE_MAX) := by
  intro options answer
  have hvalid : ¬ options.Refused :=
    runFrom_induction_of (P := fun options => ¬ Refused options) (C := fun _ _ => True)
      (by simp [Refused, default, PAGE_SIZE]) (fun _ call h _ => not_refused_set h call.1 call.2)
      calls
      fun _ _ _ => trivial
  refine ⟨hvalid, ?_⟩
  have hset : Outcome options key value answer := set_outcome options key value
  rcases hset with ⟨hrefused, hsame⟩ | ⟨hok, -, -, -, hsize⟩
  · exact ⟨fun _ => hsame, fun _ hok => absurd hok hrefused⟩
  refine ⟨absurd hok, fun hkey _ => ?_⟩
  obtain ⟨bytes, hbytes, -, hadd, hround⟩ := hsize hkey
  refine ⟨bytes, hbytes, ⟨⟨?_, ?_⟩, ?_⟩, ?_⟩
  · exact hround ▸ Nat.dvd_mul_left _ _
  · omega
  · rintro n ⟨⟨k, rfl⟩, hle⟩
    omega
  · omega

end Krust.TmpfsOptions
