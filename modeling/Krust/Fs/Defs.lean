import Mathlib.Algebra.GroupWithZero.Nat
import Mathlib.Data.List.Basic

/-!
# The vocabulary of the file systems

The types every file system of the kernel speaks: file types, errors, its own and those of the
devices, metadata updates and volume statistics.  Text is a list of characters; where the kernel
measures it, it counts the bytes of its UTF-8 encoding (`utf8Len`).
-/

set_option autoImplicit false

namespace Krust

/-- `&str`. -/
abbrev Str := List Char

instance : LawfulBEq Str := inferInstance

/-- `str::len`: the length in bytes. -/
def utf8Len (s : Str) : Nat := (s.map fun c => c.utf8Size).sum

/-- `str::bytes`. -/
def utf8Bytes (s : Str) : List UInt8 := s.flatMap String.utf8EncodeChar

theorem length_utf8Bytes (s : Str) : (utf8Bytes s).length = utf8Len s := by
  rw [utf8Bytes, List.length_flatMap]
  congr 1
  refine List.map_congr_left fun c _ => ?_
  exact String.length_utf8EncodeChar c

def PAGE_SIZE : Nat := 4096

theorem PAGE_SIZE_pos : 0 < PAGE_SIZE := by decide

instance : NeZero PAGE_SIZE := ⟨by decide⟩

def USIZE_MAX : Nat := 2 ^ 64 - 1

/-- `isize::MAX as usize`. -/
def ISIZE_MAX : Nat := 2 ^ 63 - 1

/-- `usize::checked_add`. -/
def checkedAdd (a b : Nat) : Option Nat := if a + b ≤ USIZE_MAX then some (a + b) else none

/-- `saturating_add` of a `usize` or a `u64`. -/
def saturatingAdd (a b : Nat) : Nat := min (a + b) USIZE_MAX

theorem saturatingAdd_le (a b : Nat) : saturatingAdd a b ≤ a + b := Nat.min_le_left _ _

/-- `Option::ok_or`. -/
def okOr {ε α : Type} (x : Option α) (e : ε) : Except ε α :=
  match x with
  | some a => .ok a
  | none => .error e

theorem okOr_eq_ok {ε α : Type} {x : Option α} {e : ε} {a : α} : okOr x e = .ok a ↔ x = some a := by
  cases x <;> simp [okOr]

theorem bind_eq_ok {ε α β : Type} {x : Except ε α} {f : α → Except ε β} {b : β} :
    (x >>= f) = .ok b ↔ ∃ a, x = .ok a ∧ f a = .ok b := by
  cases x <;> simp [Bind.bind, Except.bind]

inductive FileType
  | regular
  | directory
  | charDevice
  | blockDevice
  | symlink
  deriving DecidableEq, Repr

inductive FsError
  | notFound
  | permissionDenied
  | notADirectory
  | isADirectory
  | alreadyExists
  | busy
  | ioError
  | notSupported
  | noSpace
  | outOfMemory
  | invalidArgument
  | notEmpty
  | crossDevice
  | nameTooLong
  | fileTooLarge
  deriving DecidableEq, Repr

inductive DeviceError
  | ioError
  | notReady
  | invalidArgument
  | busy
  | notFound
  | notSupported
  deriving DecidableEq, Repr

structure SetMetadata where
  uid : Option Nat
  gid : Option Nat
  mode : Option Nat
  deriving DecidableEq, Repr

structure FsStats where
  magic : Nat
  blockSize : Nat
  blocks : Nat
  blocksFree : Nat
  files : Nat
  filesFree : Nat
  nameMax : Nat
  deriving DecidableEq, Repr

/-- `boot_settings::TmpfsOptions`. -/
structure TmpfsOptions where
  size : Nat
  nrInodes : Nat
  mode : Nat
  uid : Nat
  gid : Nat
  deriving DecidableEq, Repr

def TmpfsOptions.default : TmpfsOptions where
  size := 16 * 1024 * 1024
  nrInodes := 1024
  mode := 0o755
  uid := 0
  gid := 0

end Krust
