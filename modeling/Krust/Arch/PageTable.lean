import Mathlib.Tactic.Ring

/-!
# Translation through page tables

The four levels of tables through which the processor finds the page of an address.  Each table has
512 entries.  An entry that is not `PRESENT` ends the search; an entry at level 1, or one at level 2
or 3 that is marked `HUGE`, maps a page of 4 KiB, 2 MiB or 1 GiB; any other names the table of the
next level.  `translate` returns the entries that are passed on the way, from the root to the leaf.
User code may use the page only if every one of them has the `USER` bit, so an address belongs to
the supervisor if one of them lacks it.
-/

set_option autoImplicit false

namespace Krust.Arch

/-- The entry is in use. -/
def PRESENT : UInt64 := 1

/-- What is behind the entry may be written. -/
def WRITABLE : UInt64 := 0x2

/-- User code may pass the entry. -/
def USER : UInt64 := 0x4

/-- The entry maps a page above level 1. -/
def HUGE : UInt64 := 0x80

/-- The bits of an entry that hold the address of a table. -/
def TABLE_ADDRESS : UInt64 := 0x000f_ffff_ffff_f000

/-- What can be read of the tables: the entry of a table at an index. -/
abbrev Tables : Type := UInt64 → Nat → Option UInt64

/-- How many addresses one entry of a table at the level above this one covers. -/
def span (level : Nat) : Nat := 2 ^ (12 + 9 * level)

variable (level : Nat)

theorem span_pos : 0 < span level := Nat.two_pow_pos _

theorem span_succ : span (level + 1) = span level * 512 := by
  rw [span, span, Nat.mul_add, ← Nat.add_assoc, Nat.pow_add]

/-- An entry of this level maps a page, rather than naming a table. -/
def isLeaf (level : Nat) (entry : UInt64) : Bool :=
  level == 1 || ((level == 2 || level == 3) && entry &&& HUGE != 0)

/-- The entries that are passed on the way to the page of an address. -/
def translate (tables : Tables) : Nat → UInt64 → Nat → Option (List UInt64)
  | 0, _, _ => none
  | level + 1, table, address =>
    match tables table (address / span level % 512) with
    | none => none
    | some entry =>
      if entry &&& PRESENT = 0 then none
      else if isLeaf (level + 1) entry then some [entry]
      else (translate tables level (entry &&& TABLE_ADDRESS) address).map (entry :: ·)

/-- **The address is mapped for the supervisor**: some level lacks the `USER` bit. -/
def Supervisor (tables : Tables) (root : UInt64) (address : Nat) : Prop :=
  ∃ path, translate tables 4 root address = some path ∧ ∃ entry ∈ path, entry &&& USER = 0

theorem index_eq {span tableStart address index : Nat} (halign : span * 512 ∣ tableStart)
    (hindex : index < 512) (hlo : tableStart + index * span ≤ address)
    (hhi : address < tableStart + index * span + span) : address / span % 512 = index := by
  obtain ⟨k, rfl⟩ := halign
  have hdiv : address / span = 512 * k + index := by
    refine Nat.div_eq_of_lt_le ?_ ?_
    · calc (512 * k + index) * span = span * 512 * k + index * span := by ring
        _ ≤ address := hlo
    · calc address < span * 512 * k + index * span + span := hhi
        _ = (512 * k + index + 1) * span := by ring
  omega

end Krust.Arch
