import Krust.Vfs.Devices

/-!
# The device registry

Devices are registered under a name and under their numbers, and block devices have a second entry,
the alias, through which they are mounted.  `Vfs.Devices` looks at the registry from the files that
are open on devices; here it is looked at by itself, with the drivers and the aliases, over all runs
of its own calls.

A call that fails changes nothing, and `Changes` says what the others do.  Everything about runs
follows from it (`registry_consistent`).  The count of open files saturates: it is the number of
opens less the number of closes only if no more than `usize::MAX` opens are outstanding.
-/

set_option autoImplicit false

namespace Krust.Drivers

open Lib Vfs List Option AList

/-! ## The source -/

structure DeviceEntry (D : Type) where
  device : D
  deviceType : DeviceType
  major : UInt16
  minor : UInt16
  openCount : Nat

structure DeviceDescriptor (D : Type) where
  name : Str
  deviceType : DeviceType
  major : UInt16
  minor : UInt16
  device : D

/-- `DeviceRegistry`, with drivers `D` for devices and `B` for block devices. -/
structure DeviceRegistry (D B : Type) where
  devices : AList fun _ : Str => DeviceEntry D
  blockDevices : AList fun _ : Str => B

def DeviceEntry.hasNumber {D : Type} (entry : DeviceEntry D) (deviceType : DeviceType)
    (major minor : UInt16) : Bool :=
  entry.deviceType == deviceType && entry.major == major && entry.minor == minor

def DeviceEntry.descriptor {D : Type} (entry : DeviceEntry D) (name : Str) : DeviceDescriptor D :=
  ⟨name, entry.deviceType, entry.major, entry.minor, entry.device⟩

namespace DeviceRegistry

variable {D B : Type} (r : DeviceRegistry D B)

def new : DeviceRegistry D B := ⟨∅, ∅⟩

/-- `DeviceRegistry::register`, of a device that is of the type `kind device` for its driver. -/
def register (kind : D → DeviceType) (name : Str) (device : D) (major minor : UInt16) :
    Except RegistryError Unit × DeviceRegistry D B :=
  if (trim name).isEmpty then (.error .invalidName, r)
  else if name ∈ r.devices then (.error .nameInUse, r)
  else if r.devices.entries.any fun entry => entry.2.hasNumber (kind device) major minor then
    (.error .deviceNumberInUse, r)
  else (.ok (), { r with devices := r.devices.insert name ⟨device, kind device, major, minor, 0⟩ })

def getDescriptor (name : Str) : Option (DeviceDescriptor D) :=
  (r.devices.lookup name).map (·.descriptor name)

/-- `DeviceRegistry::open`. -/
def openDevice (name : Str) : Except RegistryError (DeviceDescriptor D) × DeviceRegistry D B :=
  match r.devices.lookup name with
  | none => (.error .notFound, r)
  | some entry =>
    let entry := { entry with openCount := min (entry.openCount + 1) USIZE_MAX }
    (.ok (entry.descriptor name), { r with devices := r.devices.insert name entry })

def close (name : Str) : Except RegistryError Unit × DeviceRegistry D B :=
  match r.devices.lookup name with
  | none => (.error .notFound, r)
  | some entry =>
    if entry.openCount = 0 then (.error .notFound, r)
    else
      let entry := { entry with openCount := entry.openCount - 1 }
      (.ok (), { r with devices := r.devices.insert name entry })

def unregister (name : Str) : Except RegistryError Unit × DeviceRegistry D B :=
  match r.devices.lookup name with
  | none => (.error .notFound, r)
  | some entry =>
    if 0 < entry.openCount then (.error .busy, r)
    else (.ok (), ⟨r.devices.erase name, r.blockDevices.erase name⟩)

def registerBlockDeviceAlias (name : Str) (device : B) :
    Except RegistryError Unit × DeviceRegistry D B :=
  if name ∉ r.devices then (.error .notFound, r)
  else (.ok (), { r with blockDevices := r.blockDevices.insert name device })

def getDescriptorByNumber (deviceType : DeviceType) (major minor : UInt16) :
    Option (DeviceDescriptor D) :=
  (r.devices.entries.find? fun entry => entry.2.hasNumber deviceType major minor).map fun entry =>
    entry.2.descriptor entry.1

end DeviceRegistry

open DeviceRegistry

/-! ## Runs -/

inductive RegistryCall (D B : Type)
  | register (name : Str) (device : D) (major minor : UInt16)
  | openDevice (name : Str)
  | close (name : Str)
  | unregister (name : Str)
  | registerBlockDeviceAlias (name : Str) (device : B)

variable {ok : Bool} {deviceType : DeviceType} {other : Str}

section Runs

variable {D B : Type} (kind : D → DeviceType)

namespace RegistryCall

/-- Whether the call succeeds, and the registry after it. -/
def exec (r : DeviceRegistry D B) : RegistryCall D B → Bool × DeviceRegistry D B
  | .register name device major minor =>
    let result := r.register kind name device major minor
    (result.1.isOk, result.2)
  | .openDevice name => ((r.openDevice name).1.isOk, (r.openDevice name).2)
  | .close name => ((r.close name).1.isOk, (r.close name).2)
  | .unregister name => ((r.unregister name).1.isOk, (r.unregister name).2)
  | .registerBlockDeviceAlias name device =>
    let result := r.registerBlockDeviceAlias name device
    (result.1.isOk, result.2)

def apply (r : DeviceRegistry D B) (call : RegistryCall D B) : DeviceRegistry D B :=
  (call.exec kind r).2

end RegistryCall

open RegistryCall

def registryAfter (calls : List (RegistryCall D B)) : DeviceRegistry D B :=
  runFrom (apply kind) .new calls

/-- What is known of a device from the calls about it: how often it has been opened and closed since
it was last registered. -/
structure Tally where
  opens : Nat
  closes : Nat
  deriving DecidableEq, Repr

/-- One more call, and whether it succeeded. -/
def Tally.count (name : Str) (tally : Tally) : RegistryCall D B × Bool → Tally
  | (.register other _ _ _, true) => if other = name then ⟨0, 0⟩ else tally
  | (.openDevice other, true) => if other = name then ⟨tally.opens + 1, tally.closes⟩ else tally
  | (.close other, true) => if other = name then ⟨tally.opens, tally.closes + 1⟩ else tally
  | _ => tally

/-- The calls, each with whether it succeeded. -/
def outcomes (r : DeviceRegistry D B) : List (RegistryCall D B) → List (RegistryCall D B × Bool)
  | [] => []
  | call :: calls => (call, (call.exec kind r).1) :: outcomes (call.apply kind r) calls

/-- The successful opens and closes of a device since it was last registered. -/
def tally (name : Str) (calls : List (RegistryCall D B)) : Tally :=
  (outcomes kind .new calls).foldl (Tally.count name) ⟨0, 0⟩

/-! ## What a call does -/

variable {kind} {major minor : UInt16}

theorem hasNumber_iff {entry : DeviceEntry D} :
    entry.hasNumber deviceType major minor = true ↔
      entry.deviceType = deviceType ∧ entry.major = major ∧ entry.minor = minor := by
  rw [DeviceEntry.hasNumber, Bool.and_eq_true, Bool.and_eq_true, beq_iff_eq, beq_iff_eq, beq_iff_eq,
    and_assoc]

namespace DeviceRegistry

variable {r : DeviceRegistry D B} {name : Str} {entry : DeviceEntry D}

def Has (r : DeviceRegistry D B) (name : Str) (entry : DeviceEntry D) : Prop :=
  r.devices.lookup name = some entry

theorem mem_entries_iff : (⟨name, entry⟩ : Sigma _) ∈ r.devices.entries ↔ r.Has name entry :=
  mem_lookup_iff.symm

def put (r : DeviceRegistry D B) (name : Str) (entry : DeviceEntry D) : DeviceRegistry D B :=
  { r with devices := r.devices.insert name entry }

theorem has_put {entry' : DeviceEntry D} :
    (r.put name entry).Has other entry' ↔
      (other = name ∧ entry' = entry) ∨ (other ≠ name ∧ r.Has other entry') := by
  rw [Has, put]
  by_cases hother : other = name
  · subst hother
    simp [eq_comm]
  · simp [Has, hother]

/-! `Vfs.Registry` is this registry without the drivers and the aliases.  It does not stop counting
at `usize::MAX`. -/

section Plain

/-- What `Vfs.Registry` has of an entry. -/
def plain (entry : DeviceEntry D) : Vfs.DeviceEntry :=
  ⟨entry.deviceType, entry.major.toNat, entry.minor.toNat, entry.openCount⟩

def Shows (r : DeviceRegistry D B) (v : Registry) : Prop :=
  ∀ name, v.lookup name = (r.devices.lookup name).map plain

variable {v : Registry} (h : r.Shows v)
include h

theorem Shows.put (entry : DeviceEntry D) :
    (r.put name entry).Shows (v.insert name (plain entry)) := by
  intro other
  by_cases hother : other = name
  · subst hother
    simp [put]
  · simp [DeviceRegistry.put, hother, h other]

theorem Shows.register (kind : D → DeviceType) (device : D) (major minor : UInt16) :
    (r.register kind name device major minor).1 =
        (v.register name (kind device) major.toNat minor.toNat).1 ∧
      (r.register kind name device major minor).2.Shows
        (v.register name (kind device) major.toNat minor.toNat).2 := by
  have hmem : name ∈ v ↔ name ∈ r.devices := by
    rw [← lookup_isSome, ← lookup_isSome, h, isSome_map]
  have hany : (v.entries.any fun e => Registry.isNumber (kind device) major.toNat minor.toNat e.2) =
      r.devices.entries.any fun e => e.2.hasNumber (kind device) major minor := by
    have hnumber : ∀ entry : DeviceEntry D,
        Registry.isNumber (kind device) major.toNat minor.toNat (plain entry) =
          entry.hasNumber (kind device) major minor := by
      intro entry
      simp [Registry.isNumber, DeviceEntry.hasNumber, plain, UInt16.toNat_inj,
        Bool.beq_eq_decide_eq]
    rw [Bool.eq_iff_iff, List.any_eq_true, List.any_eq_true]
    constructor
    · rintro ⟨⟨other, e⟩, he, hhas⟩
      obtain ⟨entry, hentry, rfl⟩ := map_eq_some_iff.1 ((h other).symm.trans (mem_lookup_iff.2 he))
      exact ⟨⟨other, entry⟩, mem_entries_iff.2 hentry, (hnumber entry).symm.trans hhas⟩
    · rintro ⟨⟨other, entry⟩, hentry, hhas⟩
      refine ⟨⟨other, plain entry⟩, mem_lookup_iff.1 ?_, (hnumber entry).trans hhas⟩
      exact (h other).trans (congrArg _ (mem_entries_iff.1 hentry))
  rw [DeviceRegistry.register, Registry.register, hany]
  simp only [hmem]
  split
  · exact ⟨rfl, h⟩
  split
  · exact ⟨rfl, h⟩
  split
  · exact ⟨rfl, h⟩
  · exact ⟨rfl, h.put _⟩

theorem Shows.calls (name : Str) :
    ((∀ entry, r.Has name entry → entry.openCount < USIZE_MAX) →
      (r.openDevice name).1.map (fun _ => ()) = (v.openDevice name).1 ∧
        (r.openDevice name).2.Shows (v.openDevice name).2) ∧
    ((r.close name).1 = (v.closeDevice name).1 ∧ (r.close name).2.Shows (v.closeDevice name).2) ∧
    (r.unregister name).1 = (v.unregister name).1 ∧
      (r.unregister name).2.Shows (v.unregister name).2 := by
  rw [openDevice, close, unregister, Registry.openDevice, Registry.closeDevice, Registry.unregister,
    h name]
  cases hentry : r.devices.lookup name with
  | none => exact ⟨fun _ => ⟨rfl, h⟩, ⟨rfl, h⟩, rfl, h⟩
  | some entry =>
    refine ⟨fun hcount => ⟨rfl, ?_⟩, ?_, ?_⟩
    · have hmin : min (entry.openCount + 1) USIZE_MAX = entry.openCount + 1 :=
        min_eq_left (hcount entry hentry)
      dsimp only
      rw [hmin]
      exact h.put { entry with openCount := entry.openCount + 1 }
    · by_cases hzero : entry.openCount = 0
      · simp [plain, hzero, h]
      · simpa [plain, hzero, DeviceRegistry.put] using
          h.put { entry with openCount := entry.openCount - 1 }
    · by_cases hzero : entry.openCount = 0
      · refine ⟨by simp [plain, hzero], fun other => ?_⟩
        by_cases hother : other = name
        · subst hother
          simp [plain, hzero]
        · simp [plain, hzero, hother, h other]
      · simp [plain, Nat.pos_iff_ne_zero, hzero, h]

end Plain

/-- What a call can do.  One that fails does nothing. -/
inductive Changes (kind : D → DeviceType) (r : DeviceRegistry D B) :
    RegistryCall D B → Bool → DeviceRegistry D B → Prop
  | refused (call : RegistryCall D B) : Changes kind r call false r
  | registered (name : Str) (device : D) (major minor : UInt16) (hname : name ∉ r.devices)
      (hnumber : ∀ other entry, r.Has other entry → ¬ entry.hasNumber (kind device) major minor) :
      Changes kind r (.register name device major minor) true
        (r.put name ⟨device, kind device, major, minor, 0⟩)
  | opened (name : Str) (entry : DeviceEntry D) (hentry : r.Has name entry) :
      Changes kind r (.openDevice name) true
        (r.put name { entry with openCount := min (entry.openCount + 1) USIZE_MAX })
  | closed (name : Str) (entry : DeviceEntry D) (hentry : r.Has name entry)
      (hopen : entry.openCount ≠ 0) :
      Changes kind r (.close name) true
        (r.put name { entry with openCount := entry.openCount - 1 })
  | unregistered (name : Str) (entry : DeviceEntry D) (hentry : r.Has name entry)
      (hopen : entry.openCount = 0) :
      Changes kind r (.unregister name) true ⟨r.devices.erase name, r.blockDevices.erase name⟩
  | aliased (name : Str) (device : B) (hname : name ∈ r.devices) :
      Changes kind r (.registerBlockDeviceAlias name device) true
        { r with blockDevices := r.blockDevices.insert name device }

theorem changes_register (device : D) (major minor : UInt16) :
    Changes kind r (.register name device major minor)
      (r.register kind name device major minor).1.isOk
      (r.register kind name device major minor).2 := by
  rw [register]
  split
  · exact .refused _
  split
  · exact .refused _
  split
  · exact .refused _
  rename_i hname hnumber
  refine .registered name device major minor hname fun other entry hentry hhas => hnumber ?_
  exact any_eq_true.2 ⟨⟨other, entry⟩, mem_entries_iff.2 hentry, hhas⟩

theorem changes_exec (call : RegistryCall D B) :
    Changes kind r call (call.exec kind r).1 (call.exec kind r).2 := by
  cases call with
  | register name device major minor => exact changes_register device major minor
  | openDevice name =>
    rw [exec, openDevice]
    split
    · exact .refused _
    · exact .opened name _ ‹_›
  | close name =>
    rw [exec, close]
    split
    · exact .refused _
    split
    · exact .refused _
    · exact .closed name _ ‹_› ‹_›
  | unregister name =>
    rw [exec, unregister]
    split
    · exact .refused _
    split
    · exact .refused _
    · exact .unregistered name _ ‹_› (Nat.eq_zero_of_not_pos ‹_›)
  | registerBlockDeviceAlias name device =>
    rw [exec, registerBlockDeviceAlias]
    split
    · exact .refused _
    · exact .aliased name device (not_not.1 ‹_›)

/-! ## The two maps agree -/

/-- No two devices have the same numbers, and every alias names a device. -/
structure Consistent (r : DeviceRegistry D B) : Prop where
  unique : ∀ name name' entry entry', r.Has name entry → r.Has name' entry' →
    entry.hasNumber entry'.deviceType entry'.major entry'.minor → name = name'
  aliases : ∀ name ∈ r.blockDevices, name ∈ r.devices

theorem consistent_new : (new : DeviceRegistry D B).Consistent :=
  ⟨fun _ _ _ _ h => absurd h (by simp [Has, new]), fun _ h => absurd h (notMem_empty _)⟩

/-- Another entry with the numbers of the one before keeps the registry consistent: so do opening
and closing. -/
theorem Consistent.put (h : r.Consistent) (hentry : r.Has name entry) (openCount : Nat) :
    (r.put name { entry with openCount := openCount }).Consistent := by
  -- an entry of the new registry has the numbers of the entry that the old one has there
  have hold : ∀ other entry', (r.put name { entry with openCount := openCount }).Has other entry' →
      ∃ entry0, r.Has other entry0 ∧ entry'.deviceType = entry0.deviceType ∧
        entry'.major = entry0.major ∧ entry'.minor = entry0.minor := by
    intro other entry' hother
    rcases has_put.1 hother with ⟨rfl, rfl⟩ | ⟨-, hother⟩
    · exact ⟨entry, hentry, rfl, rfl, rfl⟩
    · exact ⟨entry', hother, rfl, rfl, rfl⟩
  refine ⟨fun a b e e' ha hb hnumber => ?_, fun other hother => ?_⟩
  · obtain ⟨e0, ha0, htype, hmajor, hminor⟩ := hold a e ha
    obtain ⟨e1, hb0, htype', hmajor', hminor'⟩ := hold b e' hb
    refine h.unique a b e0 e1 ha0 hb0 (hasNumber_iff.2 ?_)
    rw [← htype, ← hmajor, ← hminor, ← htype', ← hmajor', ← hminor']
    exact hasNumber_iff.1 hnumber
  · exact mem_insert _ |>.2 (Or.inr (h.aliases other hother))

theorem Consistent.registered (h : r.Consistent) (hname : name ∉ r.devices)
    (hnumber : ∀ other e, r.Has other e →
      ¬ e.hasNumber entry.deviceType entry.major entry.minor) : (r.put name entry).Consistent := by
  refine ⟨fun a b e e' ha hb hab => ?_, fun other hother => ?_⟩
  · rcases has_put.1 ha with ⟨rfl, rfl⟩ | ⟨-, ha'⟩ <;>
      rcases has_put.1 hb with ⟨rfl, rfl⟩ | ⟨-, hb'⟩
    · rfl
    · obtain ⟨h1, h2, h3⟩ := hasNumber_iff.1 hab
      exact absurd (hasNumber_iff.2 ⟨h1.symm, h2.symm, h3.symm⟩) (hnumber b e' hb')
    · exact absurd hab (hnumber a e ha')
    · exact h.unique a b e e' ha' hb' hab
  · exact mem_insert _ |>.2 (Or.inr (h.aliases other hother))

theorem has_erase {devices : AList fun _ : Str => B} :
    (⟨r.devices.erase name, devices⟩ : DeviceRegistry D B).Has other entry ↔
      other ≠ name ∧ r.Has other entry := by
  by_cases hother : other = name
  · subst hother
    simp [Has]
  · simp [Has, hother]

theorem Consistent.unregistered (h : r.Consistent) (name : Str) :
    (⟨r.devices.erase name, r.blockDevices.erase name⟩ : DeviceRegistry D B).Consistent := by
  refine ⟨fun a b e e' ha hb => ?_, fun other hother => ?_⟩
  · exact h.unique a b e e' (has_erase.1 ha).2 (has_erase.1 hb).2
  · obtain ⟨hne, hother⟩ := mem_erase.1 hother
    exact mem_erase.2 ⟨hne, h.aliases other hother⟩

theorem Changes.consistent {call : RegistryCall D B} {r' : DeviceRegistry D B}
    (hchanges : Changes kind r call ok r') (h : r.Consistent) : r'.Consistent := by
  cases hchanges with
  | refused => exact h
  | registered name device major minor hname hnumber => exact h.registered hname hnumber
  | opened name entry hentry => exact h.put hentry _
  | closed name entry hentry => exact h.put hentry _
  | unregistered name => exact h.unregistered name
  | aliased name device hname =>
    refine ⟨h.unique, fun other hother => ?_⟩
    rcases mem_insert _ |>.1 hother with rfl | hother
    · exact hname
    · exact h.aliases other hother

variable {descriptor : DeviceDescriptor D}

/-- A device that is found by its numbers is the one with its name. -/
theorem getDescriptor_of_byNumber
    (h : r.getDescriptorByNumber deviceType major minor = some descriptor) :
    r.getDescriptor descriptor.name = some descriptor ∧ descriptor.deviceType = deviceType ∧
      descriptor.major = major ∧ descriptor.minor = minor := by
  obtain ⟨⟨name, entry⟩, hfind, rfl⟩ := map_eq_some_iff.1 h
  have hentry : r.devices.lookup name = some entry :=
    mem_entries_iff.1 (mem_of_find?_eq_some hfind)
  have hnumber := find?_some hfind
  refine ⟨?_, hasNumber_iff.1 hnumber⟩
  change (r.devices.lookup name).map (·.descriptor name) = some (entry.descriptor name)
  rw [hentry, map_some]

theorem Consistent.getDescriptorByNumber_eq (h : r.Consistent)
    (hname : r.getDescriptor name = some descriptor) :
    r.getDescriptorByNumber descriptor.deviceType descriptor.major descriptor.minor =
      some descriptor := by
  obtain ⟨entry, hentry, rfl⟩ := map_eq_some_iff.1 hname
  have hself : entry.hasNumber entry.deviceType entry.major entry.minor = true :=
    hasNumber_iff.2 ⟨rfl, rfl, rfl⟩
  change r.getDescriptorByNumber entry.deviceType entry.major entry.minor = _
  rw [getDescriptorByNumber]
  cases hfind : r.devices.entries.find? fun other =>
      other.2.hasNumber entry.deviceType entry.major entry.minor with
  | none =>
    exact absurd hself (find?_eq_none.1 hfind ⟨name, entry⟩ (mem_entries_iff.2 hentry))
  | some found =>
    -- what is found has the numbers of the device, so it stands under its name
    obtain ⟨other, entry'⟩ := found
    have hother : r.Has other entry' := mem_entries_iff.1 (mem_of_find?_eq_some hfind)
    have hnumber := find?_some hfind
    obtain rfl : other = name := h.unique other name entry' entry hother hentry hnumber
    obtain rfl : entry' = entry := some_inj.1 (hother.symm.trans hentry)
    rfl

/-- **A device is unregistered exactly if it is there and not open**, and then neither the device
nor an alias is left under its name, while every other name is as it was. -/
theorem unregister_spec (r : DeviceRegistry D B) (name : Str) :
    ((r.unregister name).1 = .ok () ↔ ∃ entry, r.Has name entry ∧ entry.openCount = 0) ∧
      ((r.unregister name).1 = .ok () →
        (r.unregister name).2 = ⟨r.devices.erase name, r.blockDevices.erase name⟩) := by
  rw [unregister]
  split
  · rename_i hnone
    simp [Has, hnone]
  rename_i entry hentry
  split_ifs with hopen
  · simp [Has, hentry, Nat.pos_iff_ne_zero.1 hopen]
  · simp [Has, hentry, Nat.eq_zero_of_not_pos hopen]

end DeviceRegistry

theorem consistent_after (calls : List (RegistryCall D B)) :
    (registryAfter kind calls).Consistent :=
  runFrom_induction (P := DeviceRegistry.Consistent) consistent_new
    (fun _ call h => (changes_exec call).consistent h) calls

/-! ## Counting -/

theorem outcomes_concat (r : DeviceRegistry D B) (calls : List (RegistryCall D B))
    (call : RegistryCall D B) :
    outcomes kind r (calls ++ [call]) =
      outcomes kind r calls ++
        [(call, (call.exec kind (runFrom (apply kind) r calls)).1)] := by
  induction calls generalizing r with
  | nil => rfl
  | cons first calls ih => exact congrArg (_ :: ·) (ih _)

theorem tally_concat (name : Str) (calls : List (RegistryCall D B)) (call : RegistryCall D B) :
    tally kind name (calls ++ [call]) =
      (tally kind name calls).count name (call, (call.exec kind (registryAfter kind calls)).1) := by
  rw [tally, outcomes_concat, foldl_append]
  rfl

/-- The count of every device under this name is right. -/
def Counts (name : Str) (r : DeviceRegistry D B) (tally : Tally) : Prop :=
  ∀ entry, r.Has name entry → entry.openCount + tally.closes = tally.opens

/-- The count stays right as long as it does not saturate. -/
theorem Counts.step {name : Str} {r r' : DeviceRegistry D B} {tally : Tally}
    {call : RegistryCall D B} (h : Counts name r tally)
    (hchanges : DeviceRegistry.Changes kind r call ok r')
    (hfits : (tally.count name (call, ok)).opens ≤
      (tally.count name (call, ok)).closes + USIZE_MAX) :
    Counts name r' (tally.count name (call, ok)) := by
  intro entry' hentry'
  cases hchanges with
  | refused =>
    have hcount : tally.count name (call, false) = tally := by cases call <;> rfl
    rw [hcount]
    exact h entry' hentry'
  | registered other device major minor hname hnumber =>
    rcases has_put.1 hentry' with ⟨rfl, rfl⟩ | ⟨hne, hentry'⟩
    · simp [Tally.count]
    · rw [Tally.count, if_neg (Ne.symm hne)]
      exact h entry' hentry'
  | opened other entry hentry =>
    rcases has_put.1 hentry' with ⟨rfl, rfl⟩ | ⟨hne, hentry'⟩
    · rw [Tally.count, if_pos rfl] at hfits ⊢
      have hbefore := h entry hentry
      dsimp only at hfits ⊢
      omega
    · rw [Tally.count, if_neg (Ne.symm hne)]
      exact h entry' hentry'
  | closed other entry hentry hopen =>
    rcases has_put.1 hentry' with ⟨rfl, rfl⟩ | ⟨hne, hentry'⟩
    · rw [Tally.count, if_pos rfl]
      have hbefore := h entry hentry
      dsimp only
      omega
    · rw [Tally.count, if_neg (Ne.symm hne)]
      exact h entry' hentry'
  | unregistered other => exact h entry' (has_erase.1 hentry').2
  | aliased other device => exact h entry' hentry'

theorem counts_after (name : Str) (calls : List (RegistryCall D B))
    (hfits : ∀ calls', calls' <+: calls →
      (tally kind name calls').opens ≤ (tally kind name calls').closes + USIZE_MAX) :
    Counts name (registryAfter kind calls) (tally kind name calls) := by
  induction calls using reverseRecOn with
  | nil => exact fun _ h => absurd h (by simp [registryAfter, runFrom, Has, new])
  | append_singleton calls call ih =>
    have hbefore := ih fun calls' h => hfits calls' (h.trans (prefix_append _ _))
    have hnow := hfits _ (prefix_refl _)
    rw [tally_concat] at hnow ⊢
    rw [registryAfter, runFrom_concat]
    exact hbefore.step (changes_exec call) hnow

/-- **The registry is consistent in every run.**  No two devices have the same numbers, every alias
names a device, the count of a device is its opens less its closes as long as no more than
`usize::MAX` were outstanding, only a device that is not open is unregistered and its alias goes
with it, and the numbers of a device and its name lead to the same descriptor. -/
theorem registry_consistent (kind : D → DeviceType) (calls : List (RegistryCall D B)) :
    let r := registryAfter kind calls
    (∀ name name' entry entry', r.Has name entry → r.Has name' entry' →
      entry.deviceType = entry'.deviceType ∧ entry.major = entry'.major ∧
        entry.minor = entry'.minor → name = name') ∧
    (∀ name ∈ r.blockDevices, name ∈ r.devices) ∧
    (∀ name entry, r.Has name entry →
      (∀ calls', calls' <+: calls →
        (tally kind name calls').opens ≤ (tally kind name calls').closes + USIZE_MAX) →
      entry.openCount + (tally kind name calls).closes = (tally kind name calls).opens) ∧
    (∀ name, ((r.unregister name).1 = .ok () ↔ ∃ entry, r.Has name entry ∧ entry.openCount = 0) ∧
      ((r.unregister name).1 = .ok () →
        (r.unregister name).2 = ⟨r.devices.erase name, r.blockDevices.erase name⟩)) ∧
    (∀ name descriptor, r.getDescriptor name = some descriptor →
      r.getDescriptorByNumber descriptor.deviceType descriptor.major descriptor.minor =
        some descriptor) ∧
    (∀ deviceType major minor descriptor,
      r.getDescriptorByNumber deviceType major minor = some descriptor →
      r.getDescriptor descriptor.name = some descriptor ∧ descriptor.deviceType = deviceType ∧
        descriptor.major = major ∧ descriptor.minor = minor) := by
  intro r
  have hr : r.Consistent := consistent_after calls
  refine ⟨fun a b e e' ha hb h => hr.unique a b e e' ha hb (hasNumber_iff.2 h), hr.aliases, ?_,
    r.unregister_spec, fun name descriptor h => hr.getDescriptorByNumber_eq h,
    fun _ _ _ _ h => getDescriptor_of_byNumber h⟩
  intro name entry hentry hfits
  exact counts_after name calls hfits entry hentry

/-! ## The count saturates -/

/-- A device under the name `a`, opened over and over. -/
def openedOver (n : Nat) : List (RegistryCall Unit Unit) :=
  .register ['a'] () 1 3 :: List.replicate n (.openDevice ['a'])

def oneDevice (openCount : Nat) : DeviceRegistry Unit Unit :=
  ⟨insert ['a'] ⟨(), .char, 1, 3, openCount⟩ ∅, ∅⟩

theorem exec_oneDevice (n : Nat) :
    (openDevice ['a']).exec (fun _ => .char) (oneDevice n) =
      (true, oneDevice (min (n + 1) USIZE_MAX)) := by
  rfl

theorem openedOver_after (n : Nat) :
    registryAfter (fun _ => .char) (openedOver n) = oneDevice (min n USIZE_MAX) ∧
      tally (fun _ => .char) ['a'] (openedOver n) = ⟨n, 0⟩ := by
  induction n with
  | zero => exact ⟨rfl, rfl⟩
  | succ n ih =>
    have hsucc : openedOver (n + 1) = openedOver n ++ [.openDevice ['a']] := by
      rw [openedOver, replicate_succ']
      rfl
    rw [hsucc, tally_concat, registryAfter, runFrom_concat]
    change (apply _ (registryAfter _ _) _ = _) ∧ _
    rw [ih.1, ih.2, apply, exec_oneDevice]
    refine ⟨congrArg oneDevice ?_, rfl⟩
    omega

/-- Once a device has been opened `2 ^ 64` times, its count is one short. -/
theorem open_count_saturates :
    (registryAfter (fun _ => .char) (openedOver (2 ^ 64))).Has ['a']
        ⟨(), .char, 1, 3, 2 ^ 64 - 1⟩ ∧
      tally (fun _ => .char) ['a'] (openedOver (2 ^ 64)) = ⟨2 ^ 64, 0⟩ := by
  obtain ⟨hafter, htally⟩ := openedOver_after (2 ^ 64)
  refine ⟨?_, htally⟩
  rw [hafter]
  rfl

end Runs

end Krust.Drivers
