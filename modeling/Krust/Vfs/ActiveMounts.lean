import Krust.Lib.Runs
import Krust.Vfs.Resolve

/-!
# Active mounts

A file system that is mounted must not be unregistered.  The table of file systems therefore counts
the mounts of each name; the mounts themselves are in the mount table.  The count goes up with each
mount and never down: neither an unmount nor a mount on `/`, which replaces the root, takes anything
back.  The counts are exact in the runs without these two (`MountState.activeMounts_exact`).
-/

set_option autoImplicit false

namespace Krust.Vfs

open Lib List Function

/-- `FilesystemTable`, without the factories.  A name that is not in `active_mounts` has the count
0. -/
structure FilesystemTable (F : Type) where
  filesystems : Str → Option (FileSystem F)
  registrationCounts : Str → Option Nat
  activeMounts : Str → Nat

variable {F : Type} (foreign : Foreign F)

namespace FilesystemTable

variable (t : FilesystemTable F) (name : Str)

def registerFilesystem (fs : FileSystem F) : FilesystemTable F :=
  if (t.filesystems name).isSome then
    let count := (t.registrationCounts name).getD 1
    { t with
      registrationCounts := update t.registrationCounts name (some (min (count + 1) USIZE_MAX)) }
  else
    { t with
      registrationCounts := update t.registrationCounts name (some 1)
      filesystems := update t.filesystems name fs }

def unregisterFilesystem : Except FsError Unit × FilesystemTable F :=
  if 0 < t.activeMounts name then (.error .busy, t)
  else
    match t.registrationCounts name with
    | none => (.error .notFound, t)
    | some count =>
      if 1 < count then
        (.ok (), { t with
          registrationCounts := update t.registrationCounts name (some (count - 1)) })
      else
        (if (t.filesystems name).isNone then .error .notFound else .ok (),
          { t with
            registrationCounts := update t.registrationCounts name none
            filesystems := update t.filesystems name none })

def trackActiveMount : FilesystemTable F :=
  { t with activeMounts := update t.activeMounts name (min (t.activeMounts name + 1) USIZE_MAX) }

theorem unregisterFilesystem_busy_iff :
    (t.unregisterFilesystem name).1 = .error .busy ↔ 0 < t.activeMounts name := by
  rw [unregisterFilesystem]
  split
  · simp [*]
  split
  · simp [*]
  split
  · simp [*]
  · simp only [*, iff_false]
    split <;> simp

end FilesystemTable

/-- The mount table and the table of file systems.  The names that the root and the mounts have been
mounted by are not kept anywhere in the code. -/
structure MountState (F : Type) where
  system : System F
  table : FilesystemTable F
  rootName : Option Str
  names : List Str

/-- A call of `mount_required_with_options`, with what other parts of the kernel do in it. -/
structure MountRequest (F : Type) where
  path : Str
  name : Str
  device : Bool
  /-- `ensure_directory_path`, which makes directories. -/
  ensureDirectoryPath : System F → Except FsError Unit × System F
  keeps : ∀ v, (ensureDirectoryPath v).2.toManager = v.toManager
  /-- `RamFs::new`. -/
  ramfs : FileSystem F
  /-- `filesystem_from_factory`, for the mount point and the device. -/
  filesystemFromFactory : Except FsError (FileSystem F)

def MountRequest.filesystem (r : MountRequest F) (t : FilesystemTable F) :
    Except FsError (FileSystem F) :=
  if r.name = "ramfs".toList then .ok r.ramfs
  else if r.device then r.filesystemFromFactory
  else (t.filesystems r.name).elim r.filesystemFromFactory .ok

namespace MountState

variable (s : MountState F)

/-- The end of `mount_required_with_options`. -/
def attach (path name : Str) (fs : FileSystem F) : Except FsError Unit × MountState F :=
  if path = ['/'] then
    (.ok (), { s with
      system := s.system.mountRoot fs
      table := s.table.trackActiveMount name
      rootName := some name })
  else
    match s.system.mount foreign path fs with
    | .error e => (.error e, s)
    | .ok v =>
      (.ok (), { s with
        system := v
        table := s.table.trackActiveMount name
        names := s.names ++ [name] })

/-- `mount_required_with_options`. -/
def mountRequired (r : MountRequest F) : Except FsError Unit × MountState F :=
  let ensured := if r.path = ['/'] then (.ok (), s.system) else r.ensureDirectoryPath s.system
  let s := { s with system := ensured.2 }
  match ensured.1, r.filesystem s.table with
  | .error e, _ => (.error e, s)
  | .ok (), .error e => (.error e, s)
  | .ok (), .ok fs => s.attach foreign r.path r.name fs

def unmount (openInodes : Str → Bool) (path : Str) : Except FsError Unit × MountState F :=
  match s.system.unmount openInodes path with
  | .error e => (.error e, s)
  | .ok v =>
    let index := s.system.mounts.findIdx fun m => .ok m.path == normalizeAbsolutePath path
    (.ok (), { s with system := v, names := s.names.eraseIdx index })

/-- The number of mounts of a name, with that of the root. -/
def uses (name : Str) : Nat := (s.rootName.toList ++ s.names).count name

/-- The calls that change the tables. -/
inductive Call (F : Type)
  | register (name : Str) (fs : FileSystem F)
  | unregister (name : Str)
  | mount (r : MountRequest F)
  | unmount (openInodes : Str → Bool) (path : Str)

def step : Call F → MountState F
  | .register name fs => { s with table := s.table.registerFilesystem name fs }
  | .unregister name => { s with table := (s.table.unregisterFilesystem name).2 }
  | .mount r => (s.mountRequired foreign r).2
  | .unmount openInodes path => (s.unmount openInodes path).2

/-- Nothing has been mounted. -/
structure Fresh : Prop where
  root : s.rootName = none
  names : s.names = []
  counts : ∀ name, s.table.activeMounts name = 0

/-- The calls that take nothing away: the root is mounted only if there is none, nothing is mounted
where there is an unmount, and the count does not overflow. -/
def Adds : Call F → Prop
  | .mount r => (r.path = ['/'] → s.system.root = none) ∧ s.table.activeMounts r.name < USIZE_MAX
  | .unmount openInodes path => ∀ p, normalizeAbsolutePath path = .ok p →
      openInodes p = true ∨ ∀ m ∈ s.system.mounts, m.path ≠ p
  | _ => True

structure Exact : Prop where
  counts : ∀ name, s.table.activeMounts name = s.uses name
  root : s.system.root = none → s.rootName = none

variable {s}

theorem Exact.attach (h : s.Exact) {path name : Str} (hroot : path = ['/'] → s.system.root = none)
    (hfits : s.table.activeMounts name < USIZE_MAX) (fs : FileSystem F) :
    (s.attach foreign path name fs).2.Exact := by
  have htrack : ∀ n, (s.table.trackActiveMount name).activeMounts n =
      s.uses n + [name].count n := by
    intro n
    rw [FilesystemTable.trackActiveMount, ← h.counts]
    by_cases hn : n = name
    · simp [hn, Nat.min_eq_left (Nat.succ_le_of_lt hfits)]
    · simp [hn, Ne.symm hn]
  rw [MountState.attach]
  split_ifs with hpath
  · refine ⟨fun n => (htrack n).trans ?_, nofun⟩
    simp [uses, h.root (hroot hpath), count_cons]
  rcases s.system.mount_cases foreign path fs with ⟨m, -, -, hmount⟩ | ⟨⟨e, hmount⟩, -⟩
  · rw [hmount]
    refine ⟨fun n => (htrack n).trans ?_, h.root⟩
    simp [uses, count_append, add_assoc]
  · rw [hmount]
    exact h

theorem Exact.step (h : s.Exact) (c : Call F) (hc : s.Adds c) : (s.step foreign c).Exact := by
  cases c with
  | register name fs =>
    refine ⟨fun n => (?_ : _ = s.table.activeMounts n).trans (h.counts n), h.root⟩
    rw [MountState.step, FilesystemTable.registerFilesystem]
    split <;> rfl
  | unregister name =>
    refine ⟨fun n => (?_ : _ = s.table.activeMounts n).trans (h.counts n), h.root⟩
    rw [MountState.step, FilesystemTable.unregisterFilesystem]
    split
    · rfl
    split
    · rfl
    · split <;> rfl
  | mount r =>
    rw [MountState.step, mountRequired]
    generalize hensured : (if r.path = ['/'] then _ else _ : Except FsError Unit × _) = ensured
    have hkeeps : ensured.2.toManager = s.system.toManager := by
      rw [← hensured]
      split
      · rfl
      · exact r.keeps _
    have h' : ({ s with system := ensured.2 } : MountState F).Exact :=
      ⟨h.counts, fun hnone => h.root (hkeeps ▸ hnone)⟩
    split
    · exact h'
    · exact h'
    · exact h'.attach foreign (fun hpath => hkeeps ▸ hc.1 hpath) hc.2 _
  | unmount openInodes path =>
    have herr : ∃ e, s.system.unmount openInodes path = .error e := by
      rw [System.unmount]
      split
      · exact ⟨_, rfl⟩
      rename_i p hp
      split
      · exact ⟨_, rfl⟩
      split
      · exact ⟨_, rfl⟩
      rename_i index hindex
      obtain ⟨hlt, hpath, -⟩ := findIdx?_eq_some_iff_getElem.1 hindex
      rcases hc p hp with hopen | hfree
      · exact ⟨_, if_pos hopen⟩
      · exact absurd (beq_iff_eq.1 hpath) (hfree _ (getElem_mem hlt))
    obtain ⟨e, he⟩ := herr
    rw [MountState.step, MountState.unmount, he]
    exact h

/-- **In a run that takes nothing away, the counts are exact**, and a file system is busy exactly
while it is mounted. -/
theorem activeMounts_exact (h : s.Fresh) (cs : List (Call F))
    (hadds : ∀ cs' c, cs' ++ [c] <+: cs → (runFrom (step foreign) s cs').Adds c) (name : Str) :
    (runFrom (step foreign) s cs).table.activeMounts name =
        (runFrom (step foreign) s cs).uses name ∧
      (((runFrom (step foreign) s cs).table.unregisterFilesystem name).1 = .error .busy ↔
        0 < (runFrom (step foreign) s cs).uses name) := by
  have hexact : (runFrom (step foreign) s cs).Exact := by
    refine runFrom_induction_of (P := Exact) ⟨fun n => ?_, fun _ => h.root⟩
      (fun s c hs hc => hs.step foreign c hc) cs hadds
    simp [uses, h.root, h.names, h.counts]
  rw [FilesystemTable.unregisterFilesystem_busy_iff, hexact.counts]
  exact ⟨rfl, Iff.rfl⟩

end MountState

/-- Before anything has been mounted. -/
def freshMounts : MountState Empty :=
  ⟨{ unmounted with root := none }, ⟨fun _ => none, fun _ => none, fun _ => 0⟩, none, []⟩

def rootRequest : MountRequest Empty where
  path := ['/']
  name := "ramfs".toList
  device := false
  ensureDirectoryPath := fun v => (.ok (), v)
  keeps := fun _ => rfl
  ramfs := .memory 1
  filesystemFromFactory := .error .notFound

/-- A ramfs for `/mnt`, which nobody makes. -/
def mntRequest : MountRequest Empty :=
  { rootRequest with path := "/mnt".toList, ramfs := .memory 2 }

/-- A ramfs is the root, another one is mounted on it, and this one is busy when it is to go. -/
theorem activeMounts_exact_mounted :
    let s := runFrom (MountState.step noForeign) freshMounts
      [.mount rootRequest, .mount mntRequest, .unmount (fun _ => true) "/mnt".toList]
    s.uses "ramfs".toList = 2 ∧ s.table.activeMounts "ramfs".toList = 2 ∧
      (s.table.unregisterFilesystem "ramfs".toList).1 = .error .busy := by
  intro s
  have huses : s.uses "ramfs".toList = 2 := rfl
  obtain ⟨hcount, hbusy⟩ := MountState.activeMounts_exact (s := freshMounts) noForeign
    ⟨rfl, rfl, fun _ => rfl⟩ ([] ++ [.mount rootRequest] ++ [.mount mntRequest] ++
      [.unmount (fun _ => true) "/mnt".toList]) (by
    simp only [forall_event_concat fun cs c =>
      (runFrom (MountState.step noForeign) freshMounts cs).Adds c]
    exact ⟨⟨⟨forall_event_nil, fun _ => rfl, by decide⟩, nofun, by decide⟩,
      fun _ _ => .inl rfl⟩) "ramfs".toList
  exact ⟨huses, hcount.trans huses, hbusy.2 (huses ▸ Nat.two_pos)⟩

/-- The root is replaced, and counted twice. -/
theorem root_counted_twice :
    let s := runFrom (MountState.step noForeign) freshMounts
      [.mount rootRequest, .mount rootRequest]
    s.table.activeMounts "ramfs".toList = 2 ∧ s.uses "ramfs".toList = 1 := ⟨rfl, rfl⟩

end Krust.Vfs
