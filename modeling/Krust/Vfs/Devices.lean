import Krust.Vfs.Unmount

/-!
# Device files and the device registry

The registry counts how often each device is open, and refuses to forget a device that is.  A file
that is opened on a device opens the device in the registry and closes it again when it is closed;
but a file that is only dropped does not.  The files behind `fstat` and `readdir` on a descriptor
are only ever dropped, so looking at a device file leaves the device open for good.

The count of a device is the number of open files that hold it exactly as long as no file that holds
one is dropped (`Devices.counts_devices_iff`).
-/

set_option autoImplicit false

namespace Krust.Vfs

open Lib List Function Option AList OpenFile

/-! ## The registry -/

inductive DeviceType
  | char
  | block
  | network
  deriving DecidableEq, Repr

inductive RegistryError
  | invalidName
  | nameInUse
  | deviceNumberInUse
  | busy
  | notFound
  deriving DecidableEq, Repr

def fsErrorFromDevice : DeviceError → FsError
  | .ioError => .ioError
  | .notReady => .ioError
  | .invalidArgument => .notFound
  | .notFound => .notFound
  | .busy => .busy
  | .notSupported => .notSupported

def fsErrorFromRegistry : RegistryError → FsError
  | .invalidName => .notFound
  | .notFound => .notFound
  | .nameInUse => .busy
  | .deviceNumberInUse => .busy
  | .busy => .busy

/-- `DeviceEntry`, without the driver. -/
structure DeviceEntry where
  deviceType : DeviceType
  major : Nat
  minor : Nat
  openCount : Nat
  deriving DecidableEq, Repr

/-- `DeviceRegistry`, without the aliases of block devices. -/
abbrev Registry := AList fun _ : Str => DeviceEntry

namespace Registry

def isNumber (deviceType : DeviceType) (major minor : Nat) (entry : DeviceEntry) : Bool :=
  entry.deviceType == deviceType && entry.major == major && entry.minor == minor

/-- `DeviceRegistry::register`. -/
def register (r : Registry) (name : Str) (deviceType : DeviceType) (major minor : Nat) :
    Except RegistryError Unit × Registry :=
  if (trim name).isEmpty then (.error .invalidName, r)
  else if name ∈ r then (.error .nameInUse, r)
  else if r.entries.any fun entry => isNumber deviceType major minor entry.2 then
    (.error .deviceNumberInUse, r)
  else (.ok (), r.insert name ⟨deviceType, major, minor, 0⟩)

/-- `DeviceRegistry::get_descriptor_by_number`, of which the name is used. -/
def getDescriptorByNumber (r : Registry) (deviceType : DeviceType) (major minor : Nat) :
    Option Str :=
  (r.entries.find? fun entry => isNumber deviceType major minor entry.2).map (·.1)

/-- `DeviceRegistry::open`. -/
def openDevice (r : Registry) (name : Str) : Except RegistryError Unit × Registry :=
  match r.lookup name with
  | none => (.error .notFound, r)
  | some entry => (.ok (), r.insert name { entry with openCount := entry.openCount + 1 })

/-- `DeviceRegistry::close`. -/
def closeDevice (r : Registry) (name : Str) : Except RegistryError Unit × Registry :=
  match r.lookup name with
  | none => (.error .notFound, r)
  | some entry =>
    if entry.openCount = 0 then (.error .notFound, r)
    else (.ok (), r.insert name { entry with openCount := entry.openCount - 1 })

/-- `DeviceRegistry::unregister`. -/
def unregister (r : Registry) (name : Str) : Except RegistryError Unit × Registry :=
  match r.lookup name with
  | none => (.error .notFound, r)
  | some entry => if 0 < entry.openCount then (.error .busy, r) else (.ok (), r.erase name)

def openCount (r : Registry) (name : Str) : Nat := ((r.lookup name).map (·.openCount)).getD 0

end Registry

/-! ## Opening and closing device files -/

def Inode.deviceType : AnyInode → Option DeviceType
  | .foreign (.devNode _ .charDevice _ _) => some .char
  | .foreign (.devNode _ .blockDevice _ _) => some .block
  | .foreign (.devPtsNode _ _) => some .char
  | _ => none

/-- `OpenFile::lookup_device` of a file that does not hold a device yet. -/
def lookupDevice (r : Registry) (inode : AnyInode) : Option Str := do
  let deviceType ← inode.deviceType
  let (major, minor) ← inode.deviceNumbers
  r.getDescriptorByNumber deviceType major minor

/-- The part of `OpenFile::new` that opens the device, with the driver's answer. -/
def takeDevice (r : Registry) (inode : AnyInode) (driver : Except DeviceError Unit) :
    Except FsError (Option Str) × Registry :=
  match lookupDevice r inode with
  | none => (.ok none, r)
  | some name =>
    match r.openDevice name with
    | (.error e, r) => (.error (fsErrorFromRegistry e), r)
    | (.ok (), r) =>
      match driver with
      | .error e => (.error (fsErrorFromDevice e), (r.closeDevice name).2)
      | .ok () => (.ok (some name), r)

/-- The part of `OpenFile::close` that closes the device, with the driver's answer. -/
def giveDevice (r : Registry) (device : Option Str) (driver : Except DeviceError Unit) :
    Except FsError Unit × Registry :=
  match device with
  | none => (.ok (), r)
  | some name =>
    match r.closeDevice name with
    | (.error e, r) => (.error (fsErrorFromRegistry e), r)
    | (.ok (), r) => (driver.mapError fsErrorFromDevice, r)

/-- The open files, and the registry. -/
structure Devices extends Opens where
  registry : Registry

/-- What can happen to device files.  The answers are those of the file system table and of the
driver. -/
inductive DeviceEvent
  | register (name : Str) (deviceType : DeviceType) (major minor : Nat)
  | unregister (name : Str)
  | new (inode : AnyInode) (mountPath : Option Str) (filesystem : Except FsError Unit)
      (driver : Except DeviceError Unit)
  /-- `fstat` or `readdir` with the descriptor of an open file: a file is opened by the descriptor,
  looked at and dropped. -/
  | look (descriptor : FileDescriptor) (filesystem : Except FsError Unit)
      (driver : Except DeviceError Unit)
  | close (n : Nat) (driver : Except DeviceError Unit)
  | drop (n : Nat)

namespace Devices

def empty : Devices := ⟨Opens.empty, ∅⟩

/-- `OpenFile::new`, with the registry. -/
def new (s : Devices) (inode : AnyInode) (mountPath : Option Str)
    (filesystem : Except FsError Unit) (driver : Except DeviceError Unit) : Devices :=
  match filesystem with
  | .error e => { s with toOpens := s.toOpens.step (.new inode mountPath ⟨.error e, .ok none⟩) }
  | .ok () =>
    let (device, registry) := takeDevice s.registry inode driver
    ⟨s.toOpens.step (.new inode mountPath ⟨.ok (), device⟩), registry⟩

/-- `Drop for OpenFile`: the registry is not told. -/
def drop (s : Devices) (n : Nat) : Devices := { s with toOpens := s.toOpens.step (.drop n) }

/-- `fstat` and `readdir`.  If no file could be opened there is none to drop. -/
def look (s : Devices) (descriptor : FileDescriptor) (filesystem : Except FsError Unit)
    (driver : Except DeviceError Unit) : Devices :=
  match s.lookupInodeByTuple descriptor.fsId descriptor.major descriptor.minor
      descriptor.inode with
  | none => s
  | some inode => (s.new inode none filesystem driver).drop s.files.length

/-- `OpenFile::close`, with the registry. -/
def close (s : Devices) (n : Nat) (driver : Except DeviceError Unit) : Devices :=
  let (answer, registry) := giveDevice s.registry ((s.files[n]?).bind (·.device)) driver
  ⟨s.toOpens.step (.close n answer), registry⟩

def step (s : Devices) : DeviceEvent → Devices
  | .register name deviceType major minor =>
    { s with registry := (s.registry.register name deviceType major minor).2 }
  | .unregister name => { s with registry := (s.registry.unregister name).2 }
  | .new inode mountPath filesystem driver => s.new inode mountPath filesystem driver
  | .look descriptor filesystem driver => s.look descriptor filesystem driver
  | .close n driver => s.close n driver
  | .drop n => s.drop n

def run (es : List DeviceEvent) : Devices := es.foldl step empty

/-- How many open files hold the device. -/
def holders (s : Devices) (name : Str) : Nat := uses device s.files (some name)

/-- **The registry is right**: the count of each device is the number of files that hold it, and so
a device that none of them holds can be unregistered. -/
def Right (s : Devices) : Prop :=
  (∀ name, s.registry.openCount name = s.holders name) ∧
    ∀ name ∈ s.registry, s.holders name = 0 → (s.registry.unregister name).1 = .ok ()

/-- A file that holds a device is dropped: by the event itself, or by the call that looks at a
device file. -/
def Drops (s : Devices) : DeviceEvent → Prop
  | .drop n => ∃ file name, s.files[n]? = some file ∧ file.device = some name
  | .look descriptor filesystem driver =>
    ∃ inode name, s.lookupInodeByTuple descriptor.fsId descriptor.major descriptor.minor
        descriptor.inode = some inode ∧
      filesystem = .ok () ∧ lookupDevice s.registry inode = some name ∧ driver = .ok ()
  | _ => False

end Devices

/-! ## What each call does to the counts -/

namespace Registry

variable {r : Registry} {name : Str} {entry : DeviceEntry}

theorem openCount_of_lookup (h : r.lookup name = some entry) :
    r.openCount name = entry.openCount := by
  rw [openCount, h]
  rfl

theorem openCount_of_notMem (h : name ∉ r) : r.openCount name = 0 := by
  rw [openCount, lookup_eq_none.2 h]
  rfl

theorem openCount_insert (r : Registry) (name : Str) (entry : DeviceEntry) :
    openCount (r.insert name entry) = update r.openCount name entry.openCount := by
  funext other
  rw [openCount]
  by_cases h : other = name
  · subst h
    rw [lookup_insert, update_self]
    rfl
  · rw [lookup_insert_ne h, update_of_ne h]
    rfl

theorem openCount_openDevice (h : name ∈ r) :
    (r.openDevice name).1 = .ok () ∧
      (r.openDevice name).2.openCount = update r.openCount name (r.openCount name + 1) := by
  obtain ⟨entry, hentry⟩ := isSome_iff_exists.1 (lookup_isSome.2 h)
  rw [openDevice, hentry, openCount_of_lookup hentry]
  exact ⟨rfl, openCount_insert r name _⟩

theorem openCount_closeDevice (h : r.openCount name ≠ 0) :
    (r.closeDevice name).2.openCount = update r.openCount name (r.openCount name - 1) := by
  rcases hentry : r.lookup name with _ | entry
  · rw [openCount, hentry] at h
    exact absurd rfl h
  rw [openCount_of_lookup hentry] at h
  rw [closeDevice, hentry, openCount_of_lookup hentry]
  dsimp only
  rw [if_neg h]
  exact openCount_insert r name _

theorem openCount_unregister (r : Registry) (name : Str) :
    (r.unregister name).2.openCount = r.openCount := by
  rcases hentry : r.lookup name with _ | entry
  · rw [unregister, hentry]
  rw [unregister, hentry]
  dsimp only
  split_ifs with hzero
  · rfl
  funext other
  by_cases h : other = name
  · subst h
    rw [openCount_of_lookup hentry, openCount, lookup_erase]
    exact (Nat.eq_zero_of_not_pos hzero).symm
  · rw [openCount, lookup_erase_ne h]
    rfl

theorem openCount_register (r : Registry) (name : Str) (deviceType : DeviceType)
    (major minor : Nat) : (r.register name deviceType major minor).2.openCount = r.openCount := by
  rw [register]
  split
  · rfl
  split
  · rfl
  rename_i hname
  split
  · rfl
  · rw [openCount_insert, ← openCount_of_notMem hname, update_eq_self]

theorem unregister_ok (h : name ∈ r) (hzero : r.openCount name = 0) :
    (r.unregister name).1 = .ok () := by
  obtain ⟨entry, hentry⟩ := isSome_iff_exists.1 (lookup_isSome.2 h)
  rw [openCount_of_lookup hentry] at hzero
  rw [unregister, hentry]
  dsimp only
  rw [if_neg (by omega)]

end Registry

theorem mem_of_lookupDevice {r : Registry} {inode : AnyInode} {name : Str}
    (h : lookupDevice r inode = some name) : name ∈ r := by
  rw [lookupDevice] at h
  simp only [bind_eq_bind, bind_eq_some_iff, Registry.getDescriptorByNumber,
    map_eq_some_iff] at h
  obtain ⟨_, -, _, -, entry, hfind, rfl⟩ := h
  exact mem_keys.2 (mem_map_of_mem (mem_of_find?_eq_some hfind))

variable {file : OpenFile}

namespace Devices

variable {s : Devices}

/-- The counts are right. -/
def Balanced (s : Devices) : Prop := s.registry.openCount = s.holders

theorem right_iff : s.Right ↔ s.Balanced := by
  constructor
  · intro h
    exact funext h.1
  · intro h
    refine ⟨congrFun h, fun name hname hzero => ?_⟩
    exact Registry.unregister_ok hname ((congrFun h name).trans hzero)

theorem close_device (file : OpenFile) (answer : Except FsError Unit) (t : Tables) :
    (file.close answer t).2.1.device = none := by
  have htracking : ∀ (f : OpenFile) (t : Tables),
      (f.releaseTracking t).1.device = f.device := by
    intro f t
    rw [releaseTracking]
    split
    · rfl
    · split <;> rfl
  have hrefcount : ∀ (f : OpenFile) (t : Tables),
      (f.releaseRefcount t).1.device = f.device := by
    intro f t
    rw [releaseRefcount]
    split <;> rfl
  rcases file.close_cases t answer with ⟨e, hclose⟩ | hclose
  · rw [hclose]
  · rw [hclose, release, hrefcount, htracking]

def holdersOf (files : List OpenFile) (name : Str) : Nat := uses device files (some name)

theorem holdersOf_singleton (name : Str) :
    holdersOf [file] name = if file.device = some name then 1 else 0 := by
  simp [holdersOf, uses]

theorem holdersOf_insert (xs ys : List OpenFile) (name : Str) :
    holdersOf (xs ++ file :: ys) name = holdersOf (xs ++ ys) name + holdersOf [file] name := by
  simp only [holdersOf, uses, countP_append, countP_cons, countP_nil]
  omega

/-- **What opening a file does**: there is one file more, or none, the counts grow by what it holds,
and it holds a device if the inode has one and nothing fails. -/
theorem new_spec (s : Devices) (inode : AnyInode) (mountPath : Option Str)
    (filesystem : Except FsError Unit) (driver : Except DeviceError Unit) :
    ∃ more : Option OpenFile,
      (s.new inode mountPath filesystem driver).files = s.files ++ more.toList ∧
      (∀ name, (s.new inode mountPath filesystem driver).registry.openCount name =
        s.registry.openCount name + holdersOf more.toList name) ∧
      ((∃ file, more = some file ∧ ∃ name, file.device = some name) ↔ filesystem = .ok () ∧
        ∃ name, lookupDevice s.registry inode = some name ∧ driver = .ok ()) := by
  rcases filesystem with e | _
  · exact ⟨none, (append_nil _).symm, fun _ => rfl, by simp⟩
  simp only [new, takeDevice]
  cases hlookup : lookupDevice s.registry inode with
  | none =>
    refine ⟨some _, rfl, fun name => ?_, by simp⟩
    rw [toList_some, holdersOf_singleton]
    rfl
  | some name =>
    obtain ⟨hok, hcount⟩ := Registry.openCount_openDevice (mem_of_lookupDevice hlookup)
    rcases hopen : s.registry.openDevice name with ⟨e | _, r'⟩ <;> rw [hopen] at hok hcount
    · cases hok
    simp only [hopen]
    cases driver with
    | ok _ =>
      refine ⟨some _, rfl, fun other => ?_, by simp⟩
      rw [toList_some, holdersOf_singleton, hcount, update_apply]
      by_cases hother : other = name
      · simp [hother]
      · simp [hother, Ne.symm hother]
    | error e =>
      refine ⟨none, (append_nil _).symm, fun other => ?_, by simp⟩
      -- the driver refuses, and the count goes back
      have hne : r'.openCount name ≠ 0 := by
        rw [hcount, update_self]
        exact Nat.succ_ne_zero _
      rw [Registry.openCount_closeDevice hne, hcount, update_self,
        Nat.add_sub_cancel, update_idem, update_eq_self]
      rfl

theorem Balanced.new (h : s.Balanced) (inode : AnyInode) (mountPath : Option Str)
    (filesystem : Except FsError Unit) (driver : Except DeviceError Unit) :
    (s.new inode mountPath filesystem driver).Balanced := by
  obtain ⟨more, hfiles, hcount, -⟩ := s.new_spec inode mountPath filesystem driver
  funext name
  have hadd : holdersOf (s.files ++ more.toList) name = _ := countP_append
  rw [← hfiles] at hadd
  rw [hcount, congrFun h]
  exact hadd.symm

theorem giveDevice_registry (r : Registry) (name : Str) (driver : Except DeviceError Unit) :
    (giveDevice r (some name) driver).2 = (r.closeDevice name).2 := by
  rw [giveDevice]
  rcases r.closeDevice name with ⟨_ | _, _⟩ <;> rfl

theorem Balanced.close (h : s.Balanced) (n : Nat) (driver : Except DeviceError Unit) :
    (s.close n driver).Balanced := by
  have h' : s.registry.openCount = holdersOf s.files := h
  cases hfile : s.files[n]? with
  | none =>
    have hclose : s.close n driver = s := by
      simp only [Devices.close, Opens.step, giveDevice, hfile, bind_none]
    rw [hclose]
    exact h
  | some file =>
    obtain ⟨xs, ys, hfiles, hset, -⟩ := getElem?_split hfile
    have hstep : ∀ answer, (s.toOpens.step (.close n answer)).files =
        xs ++ (file.close answer s.toTables).2.1 :: ys := by
      intro answer
      simp only [Opens.step, hfile, hset]
    have hregistry : (s.close n driver).registry.openCount =
        (giveDevice s.registry file.device driver).2.openCount := by
      simp only [Devices.close, hfile, bind_some]
    funext name
    have hbefore := congrFun h' name
    rw [hfiles, holdersOf_insert, holdersOf_singleton] at hbefore
    change _ = holdersOf (s.toOpens.step (.close n _)).files name
    rw [hregistry, hstep, holdersOf_insert, holdersOf_singleton, close_device, if_neg (by simp)]
    rcases hdevice : file.device with _ | device
    · rw [hdevice, if_neg (by simp)] at hbefore
      exact hbefore
    have hne : s.registry.openCount device ≠ 0 := by
      rw [h', hfiles, holdersOf_insert, holdersOf_singleton, if_pos hdevice]
      exact Nat.succ_ne_zero _
    rw [giveDevice_registry, Registry.openCount_closeDevice hne, update_apply]
    rw [hdevice] at hbefore
    split_ifs at hbefore ⊢ with hname <;> simp_all

/-- A file can be dropped if it holds no device. -/
theorem Balanced.drop_iff (h : s.Balanced) (n : Nat) :
    (s.drop n).Balanced ↔ ¬ s.Drops (.drop n) := by
  have h' : s.registry.openCount = holdersOf s.files := h
  cases hfile : s.files[n]? with
  | none =>
    have hdrop : s.drop n = s := by simp only [drop, Opens.step, hfile]
    rw [hdrop]
    refine iff_of_true h ?_
    rintro ⟨file, -, hsome, -⟩
    rw [hfile] at hsome
    cases hsome
  | some file =>
    obtain ⟨xs, ys, hfiles, -, herase⟩ := getElem?_split hfile
    have hnew : (s.drop n).files = xs ++ ys := by
      simp only [drop, Opens.step, hfile, herase]
    have hbalanced : (s.drop n).Balanced ↔ s.registry.openCount = holdersOf (xs ++ ys) := by
      rw [← hnew]
      exact Iff.rfl
    have hsame : holdersOf (xs ++ file :: ys) = holdersOf (xs ++ ys) ↔
        ∀ name, file.device ≠ some name := by
      refine funext_iff.trans (forall_congr' fun name => ?_)
      rw [holdersOf_insert, holdersOf_singleton]
      split_ifs with hname <;> simp [hname]
    rw [hbalanced, h', hfiles, hsame]
    simp [Drops, hfile]

/-- Looking at a file is harmless unless it opens a device. -/
theorem Balanced.look_iff (h : s.Balanced) (descriptor : FileDescriptor)
    (filesystem : Except FsError Unit) (driver : Except DeviceError Unit) :
    (s.look descriptor filesystem driver).Balanced ↔
      ¬ s.Drops (.look descriptor filesystem driver) := by
  cases hinode : s.lookupInodeByTuple descriptor.fsId descriptor.major descriptor.minor
      descriptor.inode with
  | none =>
    have hlook : s.look descriptor filesystem driver = s := by simp only [look, hinode]
    rw [hlook]
    refine iff_of_true h ?_
    rintro ⟨inode, name, hsome, -⟩
    rw [hinode] at hsome
    cases hsome
  | some inode =>
    have hlook : s.look descriptor filesystem driver =
        (s.new inode none filesystem driver).drop s.files.length := by simp only [look, hinode]
    obtain ⟨more, hfiles, -, hholds⟩ := s.new_spec inode none filesystem driver
    have hlast : (s.new inode none filesystem driver).files[s.files.length]? = more := by
      rw [hfiles]
      cases more <;> simp
    rw [hlook, (h.new inode none filesystem driver).drop_iff, not_iff_not]
    simp only [Drops, hlast, hinode, some_inj, exists_and_left, exists_eq_left']
    exact hholds

/-- One event keeps the counts right exactly if it does not drop a file that holds a device. -/
theorem right_step_iff (h : s.Right) (e : DeviceEvent) : (s.step e).Right ↔ ¬ s.Drops e := by
  rw [right_iff] at h ⊢
  cases e with
  | register name deviceType major minor =>
    refine iff_of_true ?_ id
    exact (Registry.openCount_register s.registry name deviceType major minor).trans h
  | unregister name =>
    refine iff_of_true ?_ id
    exact (Registry.openCount_unregister s.registry name).trans h
  | new inode mountPath filesystem driver =>
    exact iff_of_true (h.new inode mountPath filesystem driver) id
  | look descriptor filesystem driver => exact h.look_iff descriptor filesystem driver
  | close n driver => exact iff_of_true (h.close n driver) id
  | drop n => exact h.drop_iff n

theorem right_empty : empty.Right := right_iff.2 rfl

/-- **The open counts of the registry are the numbers of files that hold the devices, throughout a
run, exactly if no file that holds a device is dropped.** -/
theorem counts_devices_iff (es : List DeviceEvent) :
    (∀ es', es' <+: es → (run es').Right) ↔ ∀ es' e, es' ++ [e] <+: es → ¬ (run es').Drops e :=
  forall_prefix_iff (C := fun (s : Devices) (e : DeviceEvent) => ¬ s.Drops e) right_empty
    (fun _ e h => right_step_iff h e) es

/-- The console is registered and opened, and `fstat` looks at it. -/
def fstatConsole : List DeviceEvent :=
  [.register ['t', 't', 'y'] .char 4 0,
    .new (.foreign (.devNode ['t', 't', 'y'] .charDevice 4 0)) (some ['/', 'd']) (.ok ()) (.ok ()),
    .look ⟨0, 4, 0, (DiskInode.devNode ['t', 't', 'y'] .charDevice 4 0).ino, .readOnly⟩ (.ok ())
      (.ok ()),
    .close 0 (.ok ())]

/-- Then it is closed, and can still not be unregistered although no file holds it. -/
theorem fstat_leaks_device :
    (run fstatConsole).holders ['t', 't', 'y'] = 0 ∧
    (run fstatConsole).registry.openCount ['t', 't', 'y'] = 1 ∧
    ((run fstatConsole).registry.unregister ['t', 't', 'y']).1 = .error .busy :=
  ⟨rfl, rfl, rfl⟩

end Devices

end Krust.Vfs
