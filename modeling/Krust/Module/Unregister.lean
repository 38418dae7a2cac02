import Krust.Lib.Prog
import Krust.Module.Loading

/-!
# Unregistering under the lock

The registry is behind a spin lock that is not reentrant.  Loading releases it before it calls
`init`, but `unregister_module` holds it across `cleanup`, and gives the module a registry to call
back.  Of the kernel's own modules one does: `sata-dev` unregisters the file system modules it has
registered, so with at least one of them it waits for a lock that its own caller holds
(`unregister_returns_iff`).

An action that waits for a lock nobody else will release is one that blocks, and then a run of the
program has no result.
-/

set_option autoImplicit false

namespace Krust.Module

open KernelModule Prog

inductive BuiltinModule
  | devfs
  | procfs
  | ext4fs (moduleName : String)
  | fatfs (moduleName : String)
  | pciBus
  | fbdev
  | sataDev
  deriving DecidableEq, Repr

instance : KernelModule BuiltinModule where
  name
    | .devfs => "devfs"
    | .procfs => "procfs"
    | .ext4fs moduleName => moduleName
    | .fatfs moduleName => moduleName
    | .pciBus => "pci-bus"
    | .fbdev => "fbdev"
    | .sataDev => "sata-dev"
  version
    | .ext4fs _ => "1.3.3"
    | _ => "0.1.0"
  dependencies _ := []

/-- `MODULE_REGISTRY` with its lock, and the two lists of `SataDeviceModule`. -/
structure Machine where
  registry : ModuleRegistry BuiltinModule
  locked : Bool
  registeredFsModules : List String
  registeredDevices : List String

abbrev Routine : Type 1 := Prog Machine ModuleError Unit

/-- `MODULE_REGISTRY.lock()`. -/
def lock : Routine := await (fun s => !s.locked) fun s => { s with locked := true }

variable {s : Machine}

section Unregister

variable (outcome : BuiltinModule → Except ModuleError Unit)

/-- `KernelModule::cleanup`, given the `unregister_module` of the registry.  What the other modules
undo is outside of the registry, and `outcome` is whether that works. -/
def cleanup (unregisterModule : String → Routine) : BuiltinModule → Routine
  | .sataDev => do
    let fsModules ← load Machine.registeredFsModules
    forEach (fun moduleName =>
      Prog.bind (attempt (unregisterModule moduleName)) fun _ => ret ()) fsModules
    update fun s => { s with registeredFsModules := [], registeredDevices := [] }
  | module => ofExcept (outcome module)

/-- `ModuleRegistry::unload`. -/
def unloadWith (unregisterModule : String → Routine) (key : String) : Routine := do
  match ← load fun s : Machine => getModule key s.registry.loadedModules with
  | none => fail .notLoaded
  | some module =>
    failIf (← load fun s : Machine => (s.registry.findDependent key).isSome) .cleanupFailed
    cleanup outcome unregisterModule module
    update fun s => { s with registry := { s.registry with
      loadedModules := removeModule key s.registry.loadedModules } }

/-- `KernelServices::unregister_module`.  Calls from a `cleanup` are nested calls; they are followed
to some depth, and one that is followed waits for the lock first. -/
def unregisterModule : Nat → String → Routine
  | 0, _ => hang
  | depth + 1, key => Prog.bind lock fun _ =>
    andFinally (unloadWith outcome (unregisterModule depth) key) fun s => { s with locked := false }

/-- A nested call never returns. -/
theorem run_unregisterModule_locked (depth : Nat) (key : String) (hlocked : s.locked = true) :
    run (unregisterModule outcome (depth + 1) key) s = (none, s) := by
  rw [unregisterModule, run_bind, lock, await, run]
  simp [hlocked]

/-- The cleanup of a module, under the lock, returns unless it has modules to unregister. -/
theorem ends_cleanup (depth : Nat) (module : BuiltinModule) (hlocked : s.locked = true) :
    Ends (cleanup outcome (unregisterModule outcome (depth + 1)) module)
      (fun r _ => r.isSome = true ↔ (module = .sataDev → s.registeredFsModules = [])) s := by
  by_cases hsata : module = .sataDev
  · subst hsata
    rw [cleanup, bind_eq, ends_load]
    cases hmodules : s.registeredFsModules with
    | nil => exact iff_of_true rfl fun _ => rfl
    | cons moduleName rest =>
      rw [bind_eq, forEach, Prog.bind_assoc, Prog.bind_assoc, ends_bind, ends_attempt, Ends,
        run_unregisterModule_locked outcome depth moduleName hlocked]
      exact iff_of_false Bool.false_ne_true fun h => List.cons_ne_nil _ _ (h rfl)
  · have hother : cleanup outcome (unregisterModule outcome (depth + 1)) module =
        ofExcept (outcome module) := by
      cases module with
      | sataDev => exact absurd rfl hsata
      | _ => rfl
    rw [hother]
    refine iff_of_true ?_ fun h => absurd h hsata
    cases outcome module <;> rfl

/-- **`unregister_module` returns if and only if there is no such module, or one depends on it, or
its cleanup has no modules to unregister.** -/
theorem unregister_returns_iff (depth : Nat) (key : String) (s : Machine)
    (hfree : s.locked = false) :
    (run (unregisterModule outcome (depth + 2) key) s).1.isSome = true ↔
      ∀ module, getModule key s.registry.loadedModules = some module →
        s.registry.findDependent key = none → module = .sataDev → s.registeredFsModules = [] := by
  let C : Prop := ∀ module, getModule key s.registry.loadedModules = some module →
    s.registry.findDependent key = none → module = .sataDev → s.registeredFsModules = []
  show Ends (unregisterModule outcome (depth + 2) key) (fun r _ => r.isSome = true ↔ C) s
  refine ends_wait (fun _ => ?_) fun hbusy => ?_
  swap
  · rw [hfree] at hbusy
    cases hbusy
  rw [ends_andFinally, unloadWith, bind_eq, ends_load]
  cases hmodule : getModule key s.registry.loadedModules with
  | none => exact iff_of_true rfl fun module h => nomatch hmodule.symm.trans h
  | some module =>
    dsimp only
    rw [bind_eq, ends_load]
    refine ends_guard (fun hdependent => ?_) fun hdependent => ?_
    · refine iff_of_true rfl fun _ _ hnone => ?_
      rw [hnone] at hdependent
      cases hdependent
    · have hnone : s.registry.findDependent key = none := by simpa using hdependent
      have hC : C ↔ (module = .sataDev → s.registeredFsModules = []) := by
        refine ⟨fun h => h module hmodule hnone, fun h m hm _ => ?_⟩
        rwa [← Option.some.inj (hmodule.symm.trans hm)]
      rw [bind_eq, ends_bind, hC]
      refine (ends_cleanup outcome depth module rfl).mono fun r s' hr => ?_
      -- what follows the cleanup does not block
      rcases r with _ | _ | _ <;> exact hr

end Unregister

/-- A machine with a disk: its module has registered one for the file system on it. -/
def diskMachine : Machine where
  registry := { (.new : ModuleRegistry BuiltinModule) with
    loadedModules := [.sataDev, .fatfs "fatfs-sda", .devfs] }
  locked := false
  registeredFsModules := ["fatfs-sda"]
  registeredDevices := ["sda"]

/-- Another module is unregistered. -/
theorem unregister_returns_devfs :
    (run (unregisterModule (fun _ => .ok ()) 2 "devfs") diskMachine).1.isSome = true := by
  refine (unregister_returns_iff (fun _ => .ok ()) 0 "devfs" diskMachine rfl).2 ?_
  rintro _ ⟨⟩ _ hsata
  cases hsata

/-- Unregistering the module of the disk never returns: the lock it waits for is its own. -/
theorem unregister_sata_hangs :
    getModule "sata-dev" diskMachine.registry.loadedModules = some .sataDev ∧
      diskMachine.locked = false ∧
      (run (unregisterModule (fun _ => .ok ()) 2 "sata-dev") diskMachine).1 = none ∧
      (run (unregisterModule (fun _ => .ok ()) 2 "sata-dev") diskMachine).2.locked = true :=
  ⟨rfl, rfl, rfl, rfl⟩

end Krust.Module
