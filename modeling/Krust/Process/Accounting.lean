import Krust.Fs.Defs

/-!
# CPU accounts

The CPU time of a task, in user and in kernel mode, with the time its reaped children brought along.
An account accrues time from `runningSince` on, which is banked when it is paused.  All sums are
`u64` and saturate, so they can fall short of the time that passed, and never exceed it: this is
what the lemmas about `banked` say.
-/

set_option autoImplicit false

namespace Krust.Process

inductive TaskMode
  | kernel
  | user
  deriving DecidableEq, Repr

structure CpuUsage where
  userNs : Nat := 0
  kernelNs : Nat := 0
  deriving DecidableEq, Repr

namespace CpuUsage

def add (usage other : CpuUsage) : CpuUsage where
  userNs := saturatingAdd usage.userNs other.userNs
  kernelNs := saturatingAdd usage.kernelNs other.kernelNs

def total (usage : CpuUsage) : Nat := usage.userNs + usage.kernelNs

theorem total_add_le (usage other : CpuUsage) :
    (usage.add other).total ≤ usage.total + other.total := by
  have huser := saturatingAdd_le usage.userNs other.userNs
  have hkernel := saturatingAdd_le usage.kernelNs other.kernelNs
  simp only [add, total]
  omega

end CpuUsage

structure CpuAccounting where
  usage : CpuUsage
  children : CpuUsage
  mode : TaskMode
  runningSince : Option Nat
  deriving DecidableEq, Repr

variable (now : Nat)

namespace CpuAccounting

def new : CpuAccounting where
  usage := {}
  children := {}
  mode := .kernel
  runningSince := none

variable (account : CpuAccounting)

def snapshot (now : Nat) : CpuUsage :=
  match account.runningSince with
  | none => account.usage
  | some start =>
    match account.mode with
    | .user => { account.usage with userNs := saturatingAdd account.usage.userNs (now - start) }
    | .kernel =>
      { account.usage with kernelNs := saturatingAdd account.usage.kernelNs (now - start) }

def pause (now : Nat) : CpuAccounting :=
  { account with usage := account.snapshot now, runningSince := none }

def resume (now : Nat) : CpuAccounting :=
  if account.runningSince.isNone then { account with runningSince := some now } else account

def setMode (mode : TaskMode) (now : Nat) : CpuAccounting :=
  { account with
    usage := account.snapshot now
    runningSince := account.runningSince.map fun _ => now
    mode := mode }

def reap (child : CpuAccounting) (now : Nat) : CpuAccounting :=
  { account with children := (account.children.add (child.snapshot now)).add child.children }

/-! ## What is banked -/

/-- The time of an account that is already in its sums, its own and its children's. -/
def banked : Nat := account.usage.total + account.children.total

/-- The time an account has accrued since it was last paused. -/
def elapsed (now : Nat) : Nat := account.runningSince.elim 0 (now - ·)

theorem total_snapshot_le :
    (account.snapshot now).total ≤ account.usage.total + account.elapsed now := by
  rcases account with ⟨usage, children, mode, _ | start⟩
  · exact Nat.le_refl _
  have huser := saturatingAdd_le usage.userNs (now - start)
  have hkernel := saturatingAdd_le usage.kernelNs (now - start)
  cases mode <;> simp only [snapshot, elapsed, CpuUsage.total, Option.elim_some] <;> omega

theorem banked_pause_le : (account.pause now).banked ≤ account.banked + account.elapsed now := by
  have hsnapshot := account.total_snapshot_le now
  simp only [pause, banked]
  omega

@[simp] theorem banked_resume : (account.resume now).banked = account.banked := by
  rw [resume]
  split <;> rfl

/-- **Reaping moves the child's time to its parent.** -/
theorem banked_reap_le (child : CpuAccounting) (now : Nat) :
    (account.reap child now).banked ≤ account.banked + (child.banked + child.elapsed now) := by
  have hsnapshot := child.total_snapshot_le now
  have hown := account.children.total_add_le (child.snapshot now)
  have hchildren := (account.children.add (child.snapshot now)).total_add_le child.children
  simp only [reap, banked]
  omega

end CpuAccounting

end Krust.Process
