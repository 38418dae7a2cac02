import Krust.Lib.Counters
import Krust.Lib.Runs
import Krust.Vfs.Mount

/-!
# Open files, and finding them by their descriptor

An open file is known to `fstat` and `readdir` by a descriptor: the number of its file system, a
device number and an inode number.  The inodes of the open files are kept in an index under these
four numbers, with a count of the open files that use them, and a descriptor is looked up there.

What the index finds is the inode that was opened last under the four numbers.  The file systems
choose their inode numbers each in its own way, and some do not choose any: all the files of a FAT
volume have the number 0.  So a descriptor reaches the inode of its file as long as no inode is
opened while another one with the same numbers is open, and no longer than that
(`Opens.descriptors_reach_iff`).
-/

set_option autoImplicit false

namespace Krust.Vfs

open Lib List

/-! ## The inodes of all file systems -/

/-- The inodes of the file systems that are not kept in memory.  An inode is told from others by
what is written here, and not by its address: most file systems make a new object for each
lookup. -/
inductive DiskInode
  | ext4 (fsId inodeNum : Nat)
  /-- A FAT inode is that of the directory entry at this place of the volume, or the root's. -/
  | fat (fsId : Nat) (dirEntryOffset : Option Nat)
  /-- The initial ram disk has no numbers at all, just a tree of names. -/
  | initrd (path : List Str)
  | devRoot
  | devNode (name : Str) (fileType : FileType) (major minor : Nat)
  | devPtsDir
  | devPtsNode (major minor : Nat)
  | procRoot
  | procCpuInfo
  | procMemInfo
  | procModulesDir
  | procModule (name : Str)
  | procTaskDir (pid : Nat)
  | procTaskStatus (pid : Nat)
  | procTaskCmdline (pid : Nat)
  | procTaskCwd (pid : Nat)
  | procTaskStat (pid : Nat)
  | procTaskFdDir (pid : Nat)
  | procTaskFdLink (pid fd : Nat)
  deriving DecidableEq, Repr

/-- `hash_name`, and the hash of `device_inode_number`. -/
def hashName (name : Str) : Nat :=
  (name.flatMap String.utf8EncodeChar).foldl
    (fun hash byte => (hash * 131 + byte.toNat) % 2 ^ 64) 0

namespace DiskInode

/-- `Inode::fs_id`.  Only ext4 and FAT volumes have a number of their own. -/
def fsId : DiskInode → Nat
  | .ext4 fsId _ => fsId
  | .fat fsId _ => fsId
  | _ => 0

/-- `Inode::device_numbers`. -/
def deviceNumbers : DiskInode → Option (Nat × Nat)
  | .devNode _ _ major minor => some (major, minor)
  | .devPtsNode major minor => some (major, minor)
  | _ => none

/-- `Inode::ino`. -/
def ino : DiskInode → Nat
  | .ext4 _ inodeNum => inodeNum
  | .fat _ _ => 0
  | .initrd _ => 0
  | .devRoot => 2000
  | .devNode name _ _ _ => (20000 + hashName name) % 2 ^ 64
  | .devPtsDir => 2001
  | .devPtsNode _ minor => (30000 + minor) % 2 ^ 64
  | .procRoot => 1000
  | .procCpuInfo => 1001
  | .procMemInfo => 1002
  | .procModulesDir => 1003
  | .procModule name => 20000 + hashName name
  | .procTaskDir pid => 10000 + pid
  | .procTaskStatus pid => 11000 + pid
  | .procTaskCmdline pid => 12000 + pid
  | .procTaskCwd pid => 13000 + pid
  | .procTaskStat pid => 14000 + pid
  | .procTaskFdDir pid => 15000 + pid
  | .procTaskFdLink pid fd => 100000 + pid * 1024 + fd

end DiskInode

/-- `Arc<dyn Inode>`, of any of the file systems there are. -/
abbrev AnyInode := Inode DiskInode

namespace Inode

def fsId : AnyInode → Nat
  | .memory fs _ => fs
  | .foreign f => f.fsId

def deviceNumbers : AnyInode → Option (Nat × Nat)
  | .memory _ _ => none
  | .foreign f => f.deviceNumbers

def ino : AnyInode → Nat
  | .memory _ ino => ino
  | .foreign f => f.ino

end Inode

/-! ## Open files -/

structure InodeTuple where
  fsId : Nat
  major : Nat
  minor : Nat
  ino : Nat
  deriving DecidableEq, Repr

def tupleForInode (inode : AnyInode) : InodeTuple :=
  let (major, minor) := inode.deviceNumbers.getD (0, 0)
  ⟨inode.fsId, major, minor, inode.ino⟩

inductive FileOpenMode
  | readOnly
  | writeOnly
  | readWrite
  deriving DecidableEq, Repr

structure FileDescriptor where
  fsId : Nat
  major : Nat
  minor : Nat
  inode : Nat
  mode : FileOpenMode
  deriving DecidableEq, Repr

/-- `OpenFile`.  The cursor, the append flag and the file system play no part here. -/
structure OpenFile where
  inode : AnyInode
  mountPath : Option Str
  trackedOpen : Bool
  tupleKey : InodeTuple
  trackedRef : Bool
  /-- The name of the device that was opened along with it. -/
  device : Option Str
  keyed : tupleKey = tupleForInode inode

/-- The tables that know about open files: `open_inodes` of the `FileSystemManager`, and
`INODE_TUPLE_INDEX` with `INODE_REF_COUNTS`. -/
structure Tables where
  openInodes : AList fun _ : Str => Counters Nat
  inodes : Index InodeTuple AnyInode

/-- What the registries of file systems and devices answer while a file is opened. -/
structure Answers where
  /-- `filesystem_by_id` or `filesystem`. -/
  filesystem : Except FsError Unit
  /-- The device is looked up and opened, if the inode is one. -/
  device : Except FsError (Option Str)

/-- `OpenFile::descriptor`, and `descriptor_for`. -/
def OpenFile.descriptor (file : OpenFile) (mode : FileOpenMode) : FileDescriptor :=
  let (major, minor) := file.inode.deviceNumbers.getD (0, 0)
  ⟨file.inode.fsId, major, minor, file.inode.ino, mode⟩

namespace Tables

def trackOpenInode (t : Tables) (mountPath : Str) (ino : Nat) : Tables :=
  let entries := (t.openInodes.lookup mountPath).getD ∅
  { t with openInodes := t.openInodes.insert mountPath (entries.acquire ino) }

def trackCloseInode (t : Tables) (mountPath : Str) (ino : Nat) : Tables :=
  match t.openInodes.lookup mountPath with
  | none => t
  | some entries => { t with openInodes := t.openInodes.insert mountPath (entries.release ino) }

def lookupInodeByTuple (t : Tables) (fsId major minor ino : Nat) : Option AnyInode :=
  t.inodes.table.lookup ⟨fsId, major, minor, ino⟩

end Tables

namespace OpenFile

def releaseTracking (file : OpenFile) (t : Tables) : OpenFile × Tables :=
  if !file.trackedOpen then (file, t)
  else
    match file.mountPath with
    | some path => ({ file with trackedOpen := false }, t.trackCloseInode path file.inode.ino)
    | none => ({ file with trackedOpen := false }, t)

def releaseRefcount (file : OpenFile) (t : Tables) : OpenFile × Tables :=
  if !file.trackedRef then (file, t)
  else ({ file with trackedRef := false }, { t with inodes := t.inodes.detach file.tupleKey })

def release (file : OpenFile) (t : Tables) : OpenFile × Tables :=
  let (file, t) := file.releaseTracking t
  file.releaseRefcount t

/-- `Drop for OpenFile`. -/
def drop (file : OpenFile) (t : Tables) : Tables := (file.release t).2

/-- `OpenFile::close`.  If the device cannot be closed, the file stays open without it. -/
def close (file : OpenFile) (answer : Except FsError Unit) (t : Tables) :
    Except FsError Unit × OpenFile × Tables :=
  match file.device, answer with
  | some _, .error e => (.error e, { file with device := none }, t)
  | _, _ => (.ok (), { file with device := none }.release t)

/-- `OpenFile::new`, up to the device: the file is known at its mount point. -/
def track (inode : AnyInode) (mountPath : Option Str) (t : Tables) : OpenFile × Tables :=
  let file : OpenFile := ⟨inode, mountPath, false, tupleForInode inode, false, none, rfl⟩
  match mountPath with
  | some path => ({ file with trackedOpen := true }, t.trackOpenInode path inode.ino)
  | none => (file, t)

/-- `OpenFile::new`.  If the device cannot be opened, what there is of the file is dropped. -/
def new (inode : AnyInode) (mountPath : Option Str) (answers : Answers) (t : Tables) :
    Except FsError OpenFile × Tables :=
  match answers.filesystem with
  | .error e => (.error e, t)
  | .ok () =>
    let (file, t) := track inode mountPath t
    match answers.device with
    | .error e => (.error e, file.drop t)
    | .ok device =>
      (.ok { file with device := device, trackedRef := true },
        { t with inodes := t.inodes.attach file.tupleKey file.inode })

end OpenFile

open OpenFile

def openByDescriptor (descriptor : FileDescriptor) (answers : Answers) (t : Tables) :
    Except FsError OpenFile × Tables :=
  match t.lookupInodeByTuple descriptor.fsId descriptor.major descriptor.minor
      descriptor.inode with
  | none => (.error .notFound, t)
  | some inode => new inode none answers t

/-! ## Runs -/

/-- The tables, and all open files there are. -/
structure Opens extends Tables where
  files : List OpenFile

/-- What can happen to open files.  Opening by a descriptor is a lookup, which changes nothing, and
then `new` with the inode that was found. -/
inductive Event
  | new (inode : AnyInode) (mountPath : Option Str) (answers : Answers)
  | close (n : Nat) (answer : Except FsError Unit)
  | drop (n : Nat)

def Event.opens : Event → Option AnyInode
  | .new inode _ ⟨.ok _, .ok _⟩ => some inode
  | _ => none

namespace Opens

def empty : Opens := ⟨⟨∅, Index.empty⟩, []⟩

def step (s : Opens) : Event → Opens
  | .new inode mountPath answers =>
    match new inode mountPath answers s.toTables with
    | (.ok file, t) => ⟨t, s.files ++ [file]⟩
    | (.error _, t) => ⟨t, s.files⟩
  | .close n answer =>
    match s.files[n]? with
    | some file =>
      let (_, file, t) := file.close answer s.toTables
      ⟨t, s.files.set n file⟩
    | none => s
  | .drop n =>
    match s.files[n]? with
    | some file => ⟨file.drop s.toTables, s.files.eraseIdx n⟩
    | none => s

def run (es : List Event) : Opens := es.foldl step empty

/-- The inodes of the files that are open, that is neither closed nor dropped. -/
def inodesOf (files : List OpenFile) : List AnyInode :=
  (files.filter (·.trackedRef)).map (·.inode)

/-- **The descriptors are right**: to open by the descriptor of a file that is open is to open the
inode of this file. -/
def Reaches (s : Opens) : Prop :=
  ∀ file ∈ s.files, file.trackedRef = true → ∀ mode answers,
    openByDescriptor (file.descriptor mode) answers s.toTables =
      new file.inode none answers s.toTables

/-- No open file has the inode's numbers and another inode. -/
def Agrees (s : Opens) (inode : AnyInode) : Prop :=
  ∀ file ∈ s.files, file.trackedRef = true → file.tupleKey = tupleForInode inode →
    file.inode = inode

end Opens

/-! ## What each event does to the index -/

namespace OpenFile

variable (file : OpenFile) (t : Tables)

theorem releaseTracking_spec :
    (file.releaseTracking t).2.inodes = t.inodes ∧
    (file.releaseTracking t).1.trackedRef = file.trackedRef ∧
    (file.releaseTracking t).1.tupleKey = file.tupleKey := by
  rw [releaseTracking]
  split
  · exact ⟨rfl, rfl, rfl⟩
  split
  · rw [Tables.trackCloseInode]
    split <;> exact ⟨rfl, rfl, rfl⟩
  · exact ⟨rfl, rfl, rfl⟩

theorem releaseRefcount_spec :
    (file.releaseRefcount t).2.inodes =
      (if file.trackedRef then t.inodes.detach file.tupleKey else t.inodes) ∧
    (file.releaseRefcount t).1.trackedRef = false := by
  rw [releaseRefcount]
  cases h : file.trackedRef
  · exact ⟨rfl, h⟩
  · exact ⟨rfl, rfl⟩

/-- A file that goes leaves the index, if it was there. -/
theorem release_spec :
    (file.release t).2.inodes =
      (if file.trackedRef then t.inodes.detach file.tupleKey else t.inodes) ∧
    (file.release t).1.trackedRef = false := by
  obtain ⟨hinodes, href, hkey⟩ := file.releaseTracking_spec t
  obtain ⟨hdetach, hclosed⟩ :=
    (file.releaseTracking t).1.releaseRefcount_spec (file.releaseTracking t).2
  rw [hinodes, href, hkey] at hdetach
  exact ⟨hdetach, hclosed⟩

/-- Closing a file releases it, or the device refuses and nothing happens but that it is gone. -/
theorem close_cases (answer : Except FsError Unit) :
    (∃ e, file.close answer t = (.error e, { file with device := none }, t)) ∨
      file.close answer t = (.ok (), release { file with device := none } t) := by
  unfold close
  split
  · exact .inl ⟨_, rfl⟩
  · exact .inr rfl

theorem track_spec (inode : AnyInode) (mountPath : Option Str) :
    (track inode mountPath t).2.inodes = t.inodes ∧
    (track inode mountPath t).1.trackedRef = false ∧
    (track inode mountPath t).1.inode = inode := by
  cases mountPath <;> exact ⟨rfl, rfl, rfl⟩

theorem new_spec (inode : AnyInode) (mountPath : Option Str) (answers : Answers) :
    (∃ e, (Event.new inode mountPath answers).opens = none ∧
      (new inode mountPath answers t).1 = .error e ∧
      (new inode mountPath answers t).2.inodes = t.inodes) ∨
    (∃ file : OpenFile, (Event.new inode mountPath answers).opens = some inode ∧
      (new inode mountPath answers t).1 = .ok file ∧
      file.inode = inode ∧ file.trackedRef = true ∧
      (new inode mountPath answers t).2.inodes = t.inodes.attach (tupleForInode inode) inode) := by
  obtain ⟨filesystem, device⟩ := answers
  obtain ⟨hinodes, href, hinode⟩ := track_spec t inode mountPath
  rcases filesystem with e | _
  · exact .inl ⟨e, rfl, rfl, rfl⟩
  rcases device with e | device
  · refine .inl ⟨e, rfl, rfl, ?_⟩
    have hdrop := ((track inode mountPath t).1.release_spec (track inode mountPath t).2).1
    rw [href, hinodes] at hdrop
    exact hdrop
  · refine .inr ⟨_, rfl, rfl, hinode, rfl, ?_⟩
    show (track inode mountPath t).2.inodes.attach (track inode mountPath t).1.tupleKey
      (track inode mountPath t).1.inode = _
    rw [hinodes, keyed, hinode]

end OpenFile

theorem getElem?_split {α : Type} {l : List α} {n : Nat} {a : α} (h : l[n]? = some a) :
    ∃ xs ys, l = xs ++ a :: ys ∧ (∀ b, l.set n b = xs ++ b :: ys) ∧ l.eraseIdx n = xs ++ ys := by
  obtain ⟨hn, rfl⟩ := List.getElem?_eq_some_iff.1 h
  refine ⟨l.take n, l.drop (n + 1), ?_, fun b => ?_, eraseIdx_eq_take_drop_succ l n⟩
  · rw [getElem_cons_drop, take_append_drop]
  · rw [set_eq_take_append_cons_drop, if_pos hn]

variable {s : Opens}

namespace Opens

theorem inodesOf_append (xs ys : List OpenFile) :
    inodesOf (xs ++ ys) = inodesOf xs ++ inodesOf ys := by
  simp only [inodesOf, filter_append, map_append]

theorem inodesOf_cons (file : OpenFile) (ys : List OpenFile) :
    inodesOf (file :: ys) = (if file.trackedRef then [file.inode] else []) ++ inodesOf ys := by
  simp only [inodesOf, filter_cons]
  split <;> rfl

theorem mem_inodesOf {files : List OpenFile} {i : AnyInode} :
    i ∈ inodesOf files ↔ ∃ file ∈ files, file.trackedRef = true ∧ file.inode = i := by
  simp only [inodesOf, mem_map, mem_filter, and_assoc]

/-- What an event does: nothing that concerns the index, or it attaches the inode it opens, or it
detaches the inode of a file that was open. -/
inductive Turn (e : Event) : Opens → Opens → Prop
  | idle {s s' : Opens} (he : e.opens = none) (hinodes : s'.inodes = s.inodes)
      (hfiles : inodesOf s'.files = inodesOf s.files) : Turn e s s'
  | attach {s s' : Opens} {i : AnyInode} (he : e.opens = some i)
      (hinodes : s'.inodes = s.inodes.attach (tupleForInode i) i)
      (hfiles : inodesOf s'.files = inodesOf s.files ++ [i]) : Turn e s s'
  | detach {s s' : Opens} {i : AnyInode} {xs ys : List AnyInode} (he : e.opens = none)
      (hinodes : s'.inodes = s.inodes.detach (tupleForInode i))
      (hold : inodesOf s.files = xs ++ i :: ys) (hnew : inodesOf s'.files = xs ++ ys) : Turn e s s'

theorem turn_leave {e : Event} {s' : Opens} {file : OpenFile} {xs ys : List OpenFile}
    (he : e.opens = none) (hfiles : s.files = xs ++ file :: ys)
    (hinodes : s'.inodes = if file.trackedRef then s.inodes.detach file.tupleKey else s.inodes)
    (hnew : inodesOf s'.files = inodesOf xs ++ inodesOf ys) : Turn e s s' := by
  have hold : inodesOf s.files = inodesOf xs ++ inodesOf (file :: ys) := by
    rw [hfiles, inodesOf_append]
  rw [inodesOf_cons] at hold
  split_ifs at hinodes with href
  · rw [if_pos href] at hold
    exact .detach he (hinodes.trans (by rw [file.keyed])) hold hnew
  · rw [if_neg href] at hold
    exact .idle he hinodes (hnew.trans hold.symm)

theorem turn_step (s : Opens) (e : Event) : Turn e s (s.step e) := by
  cases e with
  | new inode mountPath answers =>
    have hspec := new_spec s.toTables inode mountPath answers
    rcases hnew : new inode mountPath answers s.toTables with ⟨r, t⟩
    rw [hnew] at hspec
    rcases hspec with ⟨e, he, rfl, hinodes⟩ | ⟨file, he, rfl, hinode, href, hinodes⟩
    · have hstep : s.step (.new inode mountPath answers) = ⟨t, s.files⟩ := by
        simp only [step, hnew]
      rw [hstep]
      exact .idle he hinodes rfl
    · have hstep : s.step (.new inode mountPath answers) = ⟨t, s.files ++ [file]⟩ := by
        simp only [step, hnew]
      rw [hstep]
      refine .attach he hinodes ?_
      rw [inodesOf_append, inodesOf_cons, if_pos href, hinode]
      exact congrArg _ (append_nil _)
  | close n answer =>
    cases hfile : s.files[n]? with
    | none =>
      have hstep : s.step (.close n answer) = s := by simp only [step, hfile]
      rw [hstep]
      exact .idle rfl rfl rfl
    | some file =>
      obtain ⟨xs, ys, hfiles, hset, -⟩ := getElem?_split hfile
      rcases file.close_cases s.toTables answer with ⟨e, hclose⟩ | hclose <;>
        simp only [step, hfile, hset, hclose]
      · refine .idle rfl rfl ?_
        rw [hfiles, inodesOf_append, inodesOf_append, inodesOf_cons, inodesOf_cons]
      · obtain ⟨hinodes, href⟩ := release_spec { file with device := none } s.toTables
        refine turn_leave rfl hfiles hinodes ?_
        rw [inodesOf_append, inodesOf_cons, if_neg (by simp [href]), nil_append]
  | drop n =>
    cases hfile : s.files[n]? with
    | none =>
      have hstep : s.step (.drop n) = s := by simp only [step, hfile]
      rw [hstep]
      exact .idle rfl rfl rfl
    | some file =>
      obtain ⟨xs, ys, hfiles, -, herase⟩ := getElem?_split hfile
      have hstep : s.step (.drop n) = ⟨file.drop s.toTables, xs ++ ys⟩ := by
        simp only [step, hfile, herase]
      rw [hstep]
      exact turn_leave rfl hfiles (file.release_spec s.toTables).1 (inodesOf_append xs ys)

/-! ## Which descriptors are right -/

theorem lookup_descriptor (t : Tables) (file : OpenFile) (mode : FileOpenMode) (answers : Answers) :
    openByDescriptor (file.descriptor mode) answers t =
      match t.inodes.table.lookup (tupleForInode file.inode) with
      | none => (.error .notFound, t)
      | some inode => new inode none answers t := rfl

/-- A descriptor reaches the inode that the index has under its numbers. -/
theorem reaches_iff_finds (s : Opens) :
    s.Reaches ↔ s.inodes.Finds tupleForInode (inodesOf s.files) := by
  constructor
  · intro h i hi
    obtain ⟨file, hfile, href, rfl⟩ := mem_inodesOf.1 hi
    have hopen := h file hfile href .readOnly ⟨.ok (), .ok none⟩
    rw [lookup_descriptor] at hopen
    rcases hlookup : s.inodes.table.lookup (tupleForInode file.inode) with _ | i
    · rw [hlookup] at hopen
      exact absurd (congrArg Prod.fst hopen) (by simp [new])
    rw [hlookup] at hopen
    have hfst := congrArg Prod.fst hopen
    simp only [OpenFile.new, OpenFile.track, Except.ok.injEq, OpenFile.mk.injEq] at hfst
    rw [hfst.1]
  · intro h file hfile href mode answers
    have hfind := h _ (mem_inodesOf.2 ⟨file, hfile, href, rfl⟩)
    rw [lookup_descriptor, hfind]

theorem agrees_iff (s : Opens) (i : AnyInode) :
    s.Agrees i ↔ ∀ j ∈ inodesOf s.files, tupleForInode j = tupleForInode i → j = i := by
  constructor
  · intro h j hj hji
    obtain ⟨file, hfile, href, rfl⟩ := mem_inodesOf.1 hj
    exact h file hfile href (file.keyed.trans hji)
  · intro h file hfile href hkey
    exact h _ (mem_inodesOf.2 ⟨file, hfile, href, rfl⟩) (file.keyed.symm.trans hkey)

/-- One event keeps the descriptors right exactly if what it opens agrees with what is open. -/
theorem reaches_step_iff (ht : s.inodes.Tracks tupleForInode (inodesOf s.files)) (h : s.Reaches)
    (e : Event) : (s.step e).Reaches ↔ ∀ i, e.opens = some i → s.Agrees i := by
  rw [reaches_iff_finds] at h ⊢
  cases turn_step s e with
  | idle he hinodes hfiles =>
    rw [hinodes, hfiles, he]
    exact iff_of_true h (fun i hi => by cases hi)
  | attach he hinodes hfiles =>
    rw [hinodes, hfiles, he, h.attach_iff, ← agrees_iff]
    refine ⟨?_, fun hagrees => hagrees _ rfl⟩
    rintro hagrees _ ⟨⟩
    exact hagrees
  | detach he hinodes hold hnew =>
    rw [hold] at h ht
    rw [hinodes, hnew, he]
    exact iff_of_true (h.detach ht) (fun i hi => by cases hi)

theorem tracks_step (ht : s.inodes.Tracks tupleForInode (inodesOf s.files)) (e : Event) :
    (s.step e).inodes.Tracks tupleForInode (inodesOf (s.step e).files) := by
  cases turn_step s e with
  | idle he hinodes hfiles =>
    rw [hinodes, hfiles]
    exact ht
  | attach he hinodes hfiles =>
    rw [hinodes, hfiles]
    exact ht.attach _
  | detach he hinodes hold hnew =>
    rw [hold] at ht
    rw [hinodes, hnew]
    exact ht.detach

/-- **The index knows what is open**, after any run. -/
theorem tracks_run (es : List Event) :
    (run es).inodes.Tracks tupleForInode (inodesOf (run es).files) :=
  runFrom_induction (P := fun s : Opens => s.inodes.Tracks tupleForInode (inodesOf s.files))
    Index.tracks_empty (fun _ e ht => tracks_step ht e) es

/-- **The descriptors of open files reach their inodes throughout a run exactly if nothing is opened
while another inode with the same numbers is open.** -/
theorem descriptors_reach_iff (es : List Event) :
    (∀ es', es' <+: es → (run es').Reaches) ↔
      ∀ es' e i, es' ++ [e] <+: es → e.opens = some i → (run es').Agrees i := by
  have hempty : empty.Reaches := fun file hfile => absurd hfile not_mem_nil
  have hiff := forall_prefix_iff
    (C := fun (s : Opens) (e : Event) => ∀ i, e.opens = some i → s.Agrees i)
    hempty (fun es e h => reaches_step_iff (tracks_run es) h e) es
  refine hiff.trans ⟨fun h es' e i hes' he => h es' e hes' i he, fun h es' e hes' i he => ?_⟩
  exact h es' e i hes' he

/-- Everything is found and no device is involved. -/
def granted : Answers := ⟨.ok (), .ok none⟩

def twoFatFiles : List Event :=
  [.new (.foreign (.fat 1 (some 64))) (some ['/', 'f']) granted,
    .new (.foreign (.fat 1 (some 96))) (some ['/', 'f']) granted]

/-- The descriptor of the first one reaches the second. -/
theorem fat_descriptor_reaches_other :
    (run twoFatFiles).files.map (fun file => (file.trackedRef, file.inode)) =
      [(true, .foreign (.fat 1 (some 64))), (true, .foreign (.fat 1 (some 96)))] ∧
    (run twoFatFiles).files.map (fun file =>
        (openByDescriptor (file.descriptor .readOnly) granted
          (run twoFatFiles).toTables).1.toOption.map (·.inode)) =
      [some (.foreign (.fat 1 (some 96))), some (.foreign (.fat 1 (some 96)))] :=
  ⟨rfl, rfl⟩

end Opens

end Krust.Vfs
