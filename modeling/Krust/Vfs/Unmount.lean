import Krust.Vfs.OpenFile
import Krust.Vfs.Resolve

/-!
# Open files and mounts

Mounting and unmounting next to opening and closing files.  Each open file that was reached by a
path is counted at its mount point, and a mount point whose counts are not all gone cannot be
unmounted.

What the counts should be is said without them: a `Journal` keeps, next to the state of the kernel,
the list of the files that were opened and not dropped, and for each of them what it was opened on,
until it is closed.  The counts of the kernel are the numbers of such files after every run
(`Journal.counts_run`), and only they prevent an unmount (`unmount_succeeds_iff`).
-/

set_option autoImplicit false

namespace Krust.Vfs

open Lib List Function Option Vfs.Opens OpenFile Counters Event

/-- The tables of open files, with the paths of `FileSystemManager::mounts`. -/
structure Mounted extends Opens where
  mounts : List Str

/-- What can happen: something to an open file, or a mount or an unmount. -/
inductive Request
  | file (e : Event)
  /-- With the file type of what the path leads to, or the error if it leads nowhere. -/
  | mount (path : Str) (mountpoint : Except FsError FileType)
  | unmount (path : Str)

namespace Mounted

/-- `FileSystemManager::mount`. -/
def mount (s : Mounted) (path : Str) (mountpoint : Except FsError FileType) :
    Except FsError Unit × Mounted :=
  if path = ['/'] then (.error .alreadyExists, s)
  else
    match mountpoint with
    | .error e => (.error e, s)
    | .ok fileType =>
      if fileType ≠ .directory then (.error .notADirectory, s)
      else if path ∈ s.mounts then (.error .alreadyExists, s)
      else (.ok (), { s with mounts := s.mounts ++ [path] })

/-- `FileSystemManager::unmount`. -/
def unmount (s : Mounted) (path : Str) : Except FsError Unit × Mounted :=
  if path = ['/'] then (.error .notSupported, s)
  else if path ∉ s.mounts then (.error .notFound, s)
  else if (s.openInodes.lookup path).any fun entries => !entries.entries.isEmpty then
    (.error .notSupported, s)
  else
    (.ok (), { s with
      mounts := s.mounts.erase path
      openInodes := s.openInodes.erase path })

def step (s : Mounted) : Request → Mounted
  | .file e => { s with toOpens := s.toOpens.step e }
  | .mount path mountpoint => (s.mount path mountpoint).2
  | .unmount path => (s.unmount path).2

def empty : Mounted := ⟨Opens.empty, []⟩

/-! Next to the table of the mounted file systems, this is what `vfs::mount` and `vfs::unmount` do
to the paths in it. -/

section Table

variable {F : Type} (foreign : Foreign F) {v : System F} {s : Mounted}
  (h : s.mounts = v.mounts.map (·.path)) {path normalized : Str}
  (hpath : normalizeAbsolutePath path = .ok normalized)
include h hpath

theorem mount_table (fs : FileSystem F) {mountpoint : Except FsError FileType}
    (hpoint : ((v.resolvePath normalized).map fun r => v.fileType foreign r.inode) = mountpoint) :
    (v.mount foreign path fs).map (fun v => v.mounts.map (·.path)) =
      (s.mount normalized mountpoint).1.map fun _ => (s.mount normalized mountpoint).2.mounts := by
  have hmem : (v.mounts.any fun m => m.path == normalized) = true ↔ normalized ∈ s.mounts := by
    simp [h]
  subst hpoint
  rw [System.mount]
  split
  · rename_i e he
    cases hpath.symm.trans he
  rename_i normalized' hnormal
  obtain rfl := Except.ok.inj (hpath.symm.trans hnormal)
  unfold mount
  split
  · rfl
  cases v.resolvePath normalized with
  | error e => rfl
  | ok resolved =>
    dsimp only [Except.map]
    simp only [hmem]
    by_cases hdir : v.fileType foreign resolved.inode ≠ .directory
    · rw [if_pos hdir, if_pos hdir]
    rw [if_neg hdir, if_neg hdir]
    by_cases hbusy : normalized ∈ s.mounts
    · rw [if_pos hbusy, if_pos hbusy]
    · rw [if_neg hbusy, if_neg hbusy]
      simp [h]

theorem unmount_table :
    (v.unmount (fun path => (s.openInodes.lookup path).any fun entries =>
        !entries.entries.isEmpty) path).map (fun v => v.mounts.map (·.path)) =
      (s.unmount normalized).1.map fun _ => (s.unmount normalized).2.mounts := by
  rw [System.unmount, unmount, hpath]
  dsimp only
  split
  · rfl
  have hidx : (v.mounts.findIdx? fun m => m.path == normalized) = s.mounts.idxOf? normalized := by
    rw [h, idxOf?, findIdx?_map]
    rfl
  have herase := erase_eq_eraseIdx s.mounts normalized
  rw [hidx]
  cases hfound : s.mounts.idxOf? normalized with
  | none =>
    rw [if_pos (idxOf?_eq_none_iff.1 hfound)]
    rfl
  | some index =>
    rw [hfound] at herase
    have hmem : normalized ∈ s.mounts := by
      by_contra hnot
      cases hfound.symm.trans (idxOf?_eq_none_iff.2 hnot)
    rw [if_neg (not_not.2 hmem)]
    dsimp only
    split
    · rfl
    · exact congrArg Except.ok ((eraseIdx_map _ _ _).symm.trans (h ▸ herase.symm))

end Table

end Mounted

/-! ## The journal -/

/-- What a file was opened on. -/
structure Handle where
  inode : AnyInode
  mountPath : Option Str
  deriving DecidableEq, Repr

/-- What closing a file answers, if there is such a file. -/
def Opens.closeAnswer (s : Opens) (n : Nat) (answer : Except FsError Unit) :
    Option (Except FsError Unit) :=
  s.files[n]?.map fun file => (file.close answer s.toTables).1

/-- The journal of an event, from whether the call succeeded: a new file is written down, a file
that is closed is crossed out, and a file that is dropped is removed. -/
def Event.record (s : Opens) (e : Event) (live : List (Option Handle)) : List (Option Handle) :=
  match e with
  | .new inode mountPath answers =>
    match (OpenFile.new inode mountPath answers s.toTables).1 with
    | .ok _ => live ++ [some ⟨inode, mountPath⟩]
    | .error _ => live
  | .close n answer =>
    match s.closeAnswer n answer with
    | some (.ok _) => live.set n none
    | _ => live
  | .drop n => live.eraseIdx n

/-- The state of the kernel, and the files that have been opened and not dropped. -/
structure Journal extends Mounted where
  live : List (Option Handle)

namespace Journal

def step (j : Journal) (r : Request) : Journal where
  toMounted := j.toMounted.step r
  live :=
    match r with
    | .file e => e.record j.toOpens j.live
    | _ => j.live

def run (rs : List Request) : Journal := rs.foldl step ⟨Mounted.empty, []⟩

/-- The files that are neither closed nor dropped. -/
def handles (j : Journal) : List Handle := j.live.reduceOption

/-- How many of them were opened through this mount and have this inode number. -/
def openedThrough (j : Journal) (path : Str) (ino : Nat) : Nat :=
  uses (fun h : Handle => (h.mountPath, h.inode.ino)) j.handles (some path, ino)

/-- How many of them have this tuple. -/
def withTuple (j : Journal) (t : InodeTuple) : Nat :=
  uses (fun h : Handle => tupleForInode h.inode) j.handles t

end Journal

/-! ## What each event does to the counts of the mounts -/

/-- What the journal has of a file. -/
def OpenFile.handle (file : OpenFile) : Option Handle :=
  if file.trackedRef then some ⟨file.inode, file.mountPath⟩ else none

/-- A file is counted at its mount point exactly while it is open. -/
def OpenFile.Steady (file : OpenFile) : Prop :=
  file.trackedOpen = (file.trackedRef && file.mountPath.isSome)

/-- The numbers at the mount points that go with these files. -/
def tally (hs : List Handle) (path : Str) (ino : Nat) : Nat :=
  uses (fun h : Handle => (h.mountPath, h.inode.ino)) hs (some path, ino)

theorem tally_none {h : Handle} (hpath : h.mountPath = none) (xs ys : List Handle) :
    tally (xs ++ h :: ys) = tally (xs ++ ys) := by
  funext path ino
  rw [tally, uses_insert, update_of_ne]
  · rfl
  · rw [hpath]
    exact fun heq => some_ne_none _ (congrArg Prod.fst heq)

variable {p : Str} (inode : AnyInode) (mountPath : Option Str)

theorem tally_some {h : Handle} (hpath : h.mountPath = some p) (xs ys : List Handle) :
    tally (xs ++ h :: ys) = Function.update (tally (xs ++ ys)) p
      (Function.update (tally (xs ++ ys) p) h.inode.ino (tally (xs ++ ys) p h.inode.ino + 1)) := by
  funext path ino
  rw [tally, uses_insert, hpath]
  by_cases hp : path = p
  · subst hp
    rw [update_self]
    by_cases hi : ino = h.inode.ino
    · subst hi
      rw [update_self, update_self]
      rfl
    rw [update_of_ne hi, update_of_ne]
    · rfl
    · exact fun heq => hi (congrArg Prod.snd heq)
  · rw [update_of_ne hp, update_of_ne]
    · rfl
    · exact fun heq => hp (some.inj (congrArg Prod.fst heq))

namespace Tables

open Counters

variable {t : Tables} {xs ys : List Handle} {h : Handle}

/-- The mount points have the numbers that go with these files. -/
def Tallied (t : Tables) (hs : List Handle) : Prop := Tallies t.openInodes (tally hs)

theorem Tallied.enter (ht : t.Tallied (xs ++ ys)) (hpath : h.mountPath = some p) :
    (t.trackOpenInode p h.inode.ino).Tallied (xs ++ h :: ys) := by
  rw [Tallied, tally_some hpath]
  exact Tallies.insert ht ((ht p).acquire _)

theorem Tallied.leave (ht : t.Tallied (xs ++ h :: ys)) (hpath : h.mountPath = some p) :
    (t.trackCloseInode p h.inode.ino).Tallied (xs ++ ys) := by
  have hpos : tally (xs ++ h :: ys) p h.inode.ino ≠ 0 := by
    rw [tally_some hpath, update_self, update_self]
    exact Nat.succ_ne_zero _
  have hback : tally (xs ++ ys) = update (tally (xs ++ h :: ys)) p
      (update (tally (xs ++ h :: ys) p) h.inode.ino
        (tally (xs ++ h :: ys) p h.inode.ino - 1)) := by
    rw [tally_some hpath]
    simp only [update_self, Nat.add_sub_cancel, update_idem,
      update_eq_self]
  have hgroup := ht p
  rw [ofGroup] at hgroup
  rw [trackCloseInode, Tallied, hback]
  cases hlookup : t.openInodes.lookup p with
  | none =>
    -- a mount point without a table has no open files
    rw [hlookup] at hgroup
    exact absurd (hgroup.eq_zero rfl _) hpos
  | some m =>
    rw [hlookup] at hgroup
    exact Tallies.insert ht (hgroup.release hpos)

end Tables

namespace OpenFile

variable {t : Tables} {xs ys : List Handle} {file : OpenFile}

/-- A file that is tracked at its mount point leaves it. -/
theorem releaseTracking_tallied
    (ht : t.Tallied
      (xs ++ (if file.trackedOpen then [⟨file.inode, file.mountPath⟩] else []) ++ ys)) :
    (file.releaseTracking t).2.Tallied (xs ++ ys) := by
  rw [append_assoc] at ht
  rw [releaseTracking]
  rcases hopen : file.trackedOpen with _ | _
  · rw [hopen] at ht
    exact ht
  rw [hopen] at ht
  have hleave : t.Tallied (xs ++ ⟨file.inode, file.mountPath⟩ :: ys) := ht
  cases hpath : file.mountPath with
  | none =>
    rw [Tables.Tallied, tally_none hpath] at hleave
    exact hleave
  | some p => exact hleave.leave hpath

theorem releaseRefcount_openInodes (file : OpenFile) (t : Tables) :
    (file.releaseRefcount t).2.openInodes = t.openInodes := by
  rw [releaseRefcount]
  split <;> rfl

/-- A file that was open or closed goes, with what the journal has of it. -/
theorem Steady.release (hs : file.Steady) (ht : t.Tallied (xs ++ file.handle.toList ++ ys)) :
    (file.release t).2.Tallied (xs ++ ys) := by
  rw [OpenFile.release, Tables.Tallied, releaseRefcount_openInodes]
  refine releaseTracking_tallied ?_
  rw [handle] at ht
  rw [Steady] at hs
  cases href : file.trackedRef with
  | false =>
    rw [href] at hs ht
    rw [hs]
    exact ht
  | true =>
    rw [href] at hs ht
    cases hpath : file.mountPath with
    | none =>
      rw [hpath] at hs ht
      rw [hs]
      rw [if_pos rfl, toList_some, append_assoc, singleton_append,
        Tables.Tallied, tally_none rfl] at ht
      rw [if_neg (by simp), append_nil]
      exact ht
    | some p =>
      rw [hpath] at hs ht
      rw [hs]
      exact ht

section Release

variable (file : OpenFile)

theorem releaseTracking_trackedOpen (t : Tables) :
    (file.releaseTracking t).1.trackedOpen = false := by
  rw [releaseTracking]
  cases h : file.trackedOpen with
  | false => exact h
  | true => cases file.mountPath <;> rfl

theorem releaseRefcount_trackedOpen (t : Tables) :
    (file.releaseRefcount t).1.trackedOpen = file.trackedOpen := by
  rw [releaseRefcount]
  split <;> rfl

/-- A file that has gone is in no count and not in the journal. -/
theorem release_gone (t : Tables) :
    (file.release t).1.Steady ∧ (file.release t).1.handle = none := by
  have href := (file.release_spec t).2
  have hopen : (file.release t).1.trackedOpen = false := by
    rw [release, releaseRefcount_trackedOpen, releaseTracking_trackedOpen]
  rw [Steady, handle, href, hopen]
  exact ⟨rfl, rfl⟩

end Release

theorem track_tallied (ht : t.Tallied (xs ++ ys)) :
    (track inode mountPath t).2.Tallied (xs ++ ⟨inode, mountPath⟩ :: ys) := by
  cases mountPath with
  | none =>
    rw [Tables.Tallied, tally_none rfl]
    exact ht
  | some p =>
    have hpath : (⟨inode, some p⟩ : Handle).mountPath = some p := rfl
    exact ht.enter hpath

/-- A file that is opened enters the counts and the journal, and one that fails to open does not. -/
theorem new_tallied (answers : Answers) (ht : t.Tallied xs) :
    match new inode mountPath answers t with
    | (.ok file, t') => file.Steady ∧ file.handle = some ⟨inode, mountPath⟩ ∧
        t'.Tallied (xs ++ [⟨inode, mountPath⟩])
    | (.error _, t') => t'.Tallied xs := by
  obtain ⟨filesystem, device⟩ := answers
  have htrack : (track inode mountPath t).2.Tallied (xs ++ [⟨inode, mountPath⟩]) :=
    track_tallied inode mountPath (by rwa [append_nil])
  rcases filesystem with e | _
  · exact ht
  rcases device with e | device
  · -- what there is of the file is dropped, and its count with it
    have hdrop : ((track inode mountPath t).1.drop (track inode mountPath t).2).Tallied
        (xs ++ []) := by
      rw [drop, release, Tables.Tallied, releaseRefcount_openInodes]
      refine releaseTracking_tallied ?_
      cases mountPath with
      | none =>
        rw [Tables.Tallied, tally_none rfl] at htrack
        rw [append_nil]
        exact (append_nil xs).symm ▸ htrack
      | some p =>
        rw [append_nil]
        exact htrack
    rw [append_nil] at hdrop
    exact hdrop
  · refine ⟨?_, ?_, htrack⟩
    · cases mountPath <;> rfl
    · cases mountPath <;> rfl

end OpenFile

/-! ## Runs -/

/-- What the journal has of the files. -/
def handlesOf (files : List OpenFile) : List Handle := files.filterMap handle

theorem handlesOf_split (xs ys : List OpenFile) (file : OpenFile) :
    handlesOf (xs ++ file :: ys) = handlesOf xs ++ file.handle.toList ++ handlesOf ys := by
  rw [handlesOf, filterMap_append, filterMap_cons, append_assoc]
  cases file.handle <;> rfl

theorem inodesOf_eq (files : List OpenFile) :
    Opens.inodesOf files = (handlesOf files).map Handle.inode := by
  induction files with
  | nil => rfl
  | cons file files ih =>
    have hsplit := handlesOf_split [] files file
    rw [nil_append] at hsplit
    rw [inodesOf_cons, ih, hsplit, handle]
    cases file.trackedRef <;> rfl

/-- The journal is about the files of the kernel, and its numbers are the kernel's. -/
structure Faithful (s : Opens) (live : List (Option Handle)) : Prop where
  live : live = s.files.map handle
  steady : ∀ file ∈ s.files, file.Steady
  opened : s.Tallied (handlesOf s.files)
  inodes : s.inodes.Tracks tupleForInode (Opens.inodesOf s.files)

namespace Faithful

variable {s : Opens} {live : List (Option Handle)}

section Runs

variable (h : Faithful s live)
include h

theorem handles_eq : live.reduceOption = handlesOf s.files := by
  rw [h.live]
  exact filterMap_map

theorem new (inode : AnyInode) (mountPath : Option Str) (answers : Answers) :
    Faithful (s.step (.new inode mountPath answers))
      ((Event.new inode mountPath answers).record s live) := by
  have hinodes := tracks_step h.inodes (.new inode mountPath answers)
  have htallied := new_tallied inode mountPath answers h.opened
  rcases hnew : OpenFile.new inode mountPath answers s.toTables with ⟨e | file, t⟩ <;>
    rw [hnew] at htallied <;>
    simp only [step, record, hnew] at hinodes ⊢
  · exact ⟨h.live, h.steady, htallied, hinodes⟩
  obtain ⟨hsteady, hhandle, htallied⟩ := htallied
  refine ⟨?_, ?_, ?_, hinodes⟩
  · rw [map_append, h.live, map_singleton, hhandle]
  · exact forall_mem_append.2 ⟨h.steady, forall_mem_singleton.2 hsteady⟩
  · rw [handlesOf_split, hhandle]
    exact (append_nil (handlesOf s.files ++ [⟨inode, mountPath⟩])).symm ▸ htallied

theorem close (n : Nat) (answer : Except FsError Unit) :
    Faithful (s.step (.close n answer)) ((close n answer).record s live) := by
  have hinodes := tracks_step h.inodes (.close n answer)
  rcases hfile : s.files[n]? with _ | file
  · simp only [record, closeAnswer, step, hfile, map_none]
    exact h
  obtain ⟨xs, ys, hfiles, hset, -⟩ := getElem?_split hfile
  have hsteady := h.steady
  have hopened := h.opened
  rw [hfiles, forall_mem_append, forall_mem_cons] at hsteady
  rw [hfiles, handlesOf_split] at hopened
  obtain ⟨hxs, hold, hys⟩ := hsteady
  -- one file is put in the place of another
  have hmem : ∀ {f : OpenFile}, f.Steady → ∀ f' ∈ xs ++ f :: ys, f'.Steady := fun hf =>
    forall_mem_append.2 ⟨hxs, forall_mem_cons.2 ⟨hf, hys⟩⟩
  rcases file.close_cases s.toTables answer with ⟨e, hclose⟩ | hclose <;>
    simp only [record, closeAnswer, step, hfile, map_some, hclose,
      hset] at hinodes ⊢
  · refine ⟨?_, hmem hold, ?_, hinodes⟩
    · rw [h.live, hfiles, map_append, map_append]
      rfl
    · rw [handlesOf_split]
      exact hopened
  · obtain ⟨hgone, hnone⟩ := release_gone { file with device := none } s.toTables
    refine ⟨?_, hmem hgone, ?_, hinodes⟩
    · rw [h.live, ← hset, map_set, hnone]
    rw [handlesOf_split, hnone, toList_none, append_nil]
    have hdevice : OpenFile.Steady { file with device := none } := hold
    exact hdevice.release hopened

theorem drop (n : Nat) :
    Faithful (s.step (.drop n)) ((Event.drop n).record s live) := by
  have hinodes := tracks_step h.inodes (.drop n)
  cases hfile : s.files[n]? with
  | none =>
    have hlen : live.length ≤ n := by
      rw [h.live, length_map]
      exact getElem?_eq_none_iff.1 hfile
    have hrecord : (Event.drop n).record s live = live := eraseIdx_of_length_le hlen
    have hstep : s.step (.drop n) = s := by simp only [step, hfile]
    rw [hrecord, hstep]
    exact h
  | some file =>
    obtain ⟨xs, ys, hfiles, -, herase⟩ := getElem?_split hfile
    have hstep : s.step (.drop n) = ⟨file.drop s.toTables, xs ++ ys⟩ := by
      simp only [step, hfile, herase]
    have hopened := h.opened
    have hsteady := h.steady
    rw [hfiles, handlesOf_split] at hopened
    rw [hfiles, forall_mem_append, forall_mem_cons] at hsteady
    rw [hstep] at hinodes ⊢
    refine ⟨?_, ?_, ?_, hinodes⟩
    · show live.eraseIdx n = _
      rw [h.live, eraseIdx_map, herase]
    · exact forall_mem_append.2 ⟨hsteady.1, hsteady.2.2⟩
    · rw [handlesOf, filterMap_append]
      exact hsteady.2.1.release hopened

theorem step (e : Event) : Faithful (s.step e) (e.record s live) := by
  cases e with
  | new inode mountPath answers => exact h.new inode mountPath answers
  | close n answer => exact h.close n answer
  | drop n => exact h.drop n

end Runs

end Faithful

namespace Mounted

variable {s : Mounted} {live : List (Option Handle)}

theorem mount_opens (path : Str) (mountpoint : Except FsError FileType) :
    (s.mount path mountpoint).2.toOpens = s.toOpens := by
  unfold mount
  split
  · rfl
  split
  · rfl
  split
  · rfl
  · split <;> rfl

/-- An unmount does nothing, or the mount point has no counts and its table goes. -/
theorem unmount_cases (s : Mounted) (path : Str) :
    (∃ e, s.unmount path = (.error e, s)) ∨
      ((ofGroup s.openInodes path).entries.isEmpty = true ∧
        s.unmount path = (.ok (), { s with
          mounts := s.mounts.erase path
          openInodes := s.openInodes.erase path })) := by
  rw [unmount]
  split
  · exact .inl ⟨_, rfl⟩
  split
  · exact .inl ⟨_, rfl⟩
  split_ifs with hempty
  · exact .inl ⟨_, rfl⟩
  refine .inr ⟨?_, rfl⟩
  rw [ofGroup]
  cases hlookup : s.openInodes.lookup path with
  | none => rfl
  | some entries =>
    rw [hlookup, any_some, Bool.not_eq_true, Bool.not_eq_false'] at hempty
    exact hempty

variable (h : Faithful s.toOpens live)
include h

theorem no_files {path : Str} (hempty : (ofGroup s.openInodes path).entries.isEmpty = true)
    (ino : Nat) : tally (handlesOf s.files) path ino = 0 :=
  (h.opened path).eq_zero hempty ino

theorem faithful_unmount (path : Str) : Faithful (s.unmount path).2.toOpens live := by
  rcases s.unmount_cases path with ⟨e, heq⟩ | ⟨hempty, heq⟩
  · rw [heq]
    exact h
  · rw [heq]
    exact ⟨h.live, h.steady, Counters.Tallies.erase h.opened (no_files h hempty), h.inodes⟩

theorem faithful_step (r : Request) :
    Faithful (s.step r).toOpens (match r with
      | .file e => e.record s.toOpens live
      | _ => live) := by
  cases r with
  | file e => exact h.step e
  | mount path mountpoint =>
    show Faithful (s.mount path mountpoint).2.toOpens live
    rw [mount_opens]
    exact h
  | unmount path => exact faithful_unmount h path

theorem unmount_ok {path : Str} (hok : (s.unmount path).1 = .ok ()) :
    ∀ f ∈ live.reduceOption, f.mountPath ≠ some path := by
  intro f hf hpath
  rw [h.handles_eq] at hf
  rcases s.unmount_cases path with ⟨e, heq⟩ | ⟨hempty, -⟩
  · rw [heq] at hok
    cases hok
  · refine uses_ne_zero_iff.2 ⟨f, hf, ?_⟩ (no_files h hempty f.inode.ino)
    rw [hpath]

end Mounted

namespace Journal

theorem faithful_run (rs : List Request) : Faithful (run rs).toOpens (run rs).live := by
  have hempty : Faithful empty [] :=
    ⟨rfl, fun f hf => absurd hf not_mem_nil, tallies_empty, Index.tracks_empty⟩
  exact runFrom_induction (P := fun j : Journal => Faithful j.toOpens j.live) hempty
    (fun _ r h => Mounted.faithful_step h r) rs

/-- **The counts are the numbers of open files**, after any run: of each tuple, which is in the
index exactly if there are any, and of each inode number at each mount; and a mount through which a
file is open is not unmounted. -/
theorem counts_run (rs : List Request) :
    (∀ t, (run rs).inodes.counts.lookup t =
      if (run rs).withTuple t = 0 then none else some ((run rs).withTuple t)) ∧
    (∀ t, t ∈ (run rs).inodes.table ↔ 0 < (run rs).withTuple t) ∧
    (∀ path ino, (((run rs).openInodes.lookup path).bind (·.lookup ino)).getD 0 =
      (run rs).openedThrough path ino) ∧
    ∀ path, ((run rs).unmount path).1 = .ok () →
      ∀ h ∈ (run rs).handles, h.mountPath ≠ some path := by
  have h := faithful_run rs
  have htuple : ∀ t, uses tupleForInode (inodesOf (run rs).files) t =
      (run rs).withTuple t := by
    intro t
    rw [withTuple, handles, h.handles_eq, inodesOf_eq, uses, countP_map]
    rfl
  refine ⟨fun t => ?_, fun t => ?_, fun path ino => ?_, fun path hok => Mounted.unmount_ok h hok⟩
  · rw [h.inodes.counts t, htuple t]
  · rw [h.inodes.table t, htuple t, Nat.pos_iff_ne_zero]
  have hgroup := (h.opened path).getD ino
  rw [openedThrough, handles, h.handles_eq]
  rw [ofGroup, tally] at hgroup
  rw [← hgroup]
  cases (run rs).openInodes.lookup path with
  | none => rfl
  | some entries => rfl

/-- **A mount is unmounted exactly if no file is open through it.** -/
theorem unmount_succeeds_iff (rs : List Request) (path : Str) :
    ((run rs).unmount path).1 = .ok () ↔ path ≠ ['/'] ∧ path ∈ (run rs).mounts ∧
      ∀ h ∈ (run rs).handles, h.mountPath ≠ some path := by
  have h := faithful_run rs
  constructor
  · intro hok
    refine ⟨?_, ?_, Mounted.unmount_ok h hok⟩
    · rintro rfl
      cases hok
    · by_contra hmem
      rw [Mounted.unmount, if_pos hmem] at hok
      split at hok <;> cases hok
  · rintro ⟨hroot, hmem, hfree⟩
    have hempty : (ofGroup (run rs).openInodes path).entries.isEmpty = true := by
      refine (h.opened path).isEmpty fun ino => not_not.1 fun hne => ?_
      obtain ⟨f, hf, hkey⟩ := uses_ne_zero_iff.1 hne
      rw [← h.handles_eq] at hf
      exact hfree f hf (congrArg Prod.fst hkey)
    rw [Mounted.unmount, if_neg hroot, if_neg (not_not.2 hmem), if_neg]
    rw [ofGroup] at hempty
    cases hlookup : (run rs).openInodes.lookup path with
    | none => simp
    | some entries => simpa [hlookup] using hempty

end Journal

end Krust.Vfs
