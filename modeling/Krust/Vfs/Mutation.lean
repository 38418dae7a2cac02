import Krust.Vfs.Mount

/-!
# Removing and renaming

The system calls `unlink`, `rmdir` and `rename`.  Each of them checks the path it is given against
the mount table, and then finds the directory and the name to act on from that path once more.  The
two do not always agree: the second time around, white space that was inside the path may have come
to stand at the end of it, where it is dropped.

A call that succeeds takes away the entries that it acts on, and no call takes away any other
(`System.exec_takes`).  Whether one of them belongs to a mount point is the matter of
`Krust.Vfs.Guards`; here is a call in which it does (`rmdir_removes_mount_point`).
-/

set_option autoImplicit false

namespace Krust.Vfs

open Lib Prog List Function Option

def errnoFromFs : FsError → Int
  | .notFound => -2
  | .permissionDenied => -13
  | .notADirectory => -20
  | .isADirectory => -21
  | .alreadyExists => -17
  | .ioError => -5
  | .busy => -16
  | .notSupported => -95
  | .noSpace => -28
  | .outOfMemory => -12
  | .invalidArgument => -22
  | .notEmpty => -39
  | .crossDevice => -18
  | .nameTooLong => -36
  | .fileTooLarge => -27

theorem mapError_eq_ok {α : Type} {x : Except FsError α} {a : α} :
    x.mapError errnoFromFs = .ok a ↔ x = .ok a := by
  cases x <;> simp [Except.mapError]

/-- `matches!(path.trim_end_matches('/').rsplit('/').next(), Some("." | ".."))`. -/
def endsInDots (path : Str) : Bool :=
  let last := (trimEndMatches '/' path).rtakeWhile fun c => c != '/'
  last == ['.'] || last == ['.', '.']

def endsWithSlash (path : Str) : Bool := path.getLast? == some '/'

/-- A system call that takes entries away. -/
inductive Mutation
  /-- `unlink`, or `rmdir` if it asks for a directory. -/
  | unlink (path : Str) (directory : Bool)
  | rename (old new : Str)
  deriving DecidableEq, Repr

variable {q : List Str} {path : Str}

namespace System

variable {F : Type} (foreign : Foreign F) (v : System F) (cwd : Option Str)

/-- `resolve_parent_from_current_cwd`. -/
def resolveParent (path : Str) : Except FsError (Inode F × Str) := do
  let absolute ← resolveAbsolute cwd path
  if absolute = ['/'] then .error .notFound
  else
    let (parentPath, name) := (rsplitOnce '/' absolute).getD (['/'], absolute)
    let parent ← v.lookupPath foreign
      (if parentPath = [] ∨ parentPath = ['/'] then ['/'] else parentPath)
    return (parent, name)

/-- A call into a memory file system; `none` is a call that never returns. -/
def call (k : Nat) (c : Memfs.Call) : Option (Except Int Unit) × (Nat → Memfs.World) :=
  let (r, w) := run c.prog (v.memory k)
  (r.map fun r => r.mapError errnoFromFs, Function.update v.memory k w)

/-- What a call that has failed before it changed anything returns. -/
def failed (e : Int) : Option (Except Int Unit) × (Nat → Memfs.World) :=
  (some (.error e), v.memory)

/-- `unlink`, up to the directory and the name it acts on. -/
def unlinkTarget (path : Str) (directory : Bool) : Except Int (Inode F × Str) := do
  if endsInDots path then .error (-22)
  else
    let absolute ← (resolveAbsolute cwd path).mapError errnoFromFs
    (checkMountMutation v.mounts absolute).mapError errnoFromFs
    if endsWithSlash path && !directory then .error (-21)
    else (v.resolveParent foreign cwd absolute).mapError errnoFromFs

/-- `&dyn Inode`, as the destination of a rename. -/
def dynInode : Inode F → Memfs.DynInode
  | .memory k d => ⟨(v.memory k).fs.fsId, some d⟩
  | .foreign f => ⟨foreign.fsId f, none⟩

/-- `rename`, up to the two directories and names. -/
def renameTarget (old new : Str) : Except Int ((Inode F × Str) × (Inode F × Str)) := do
  if endsInDots old || endsInDots new then .error (-22)
  else
    let oldAbsolute ← (resolveAbsolute cwd old).mapError errnoFromFs
    let newAbsolute ← (resolveAbsolute cwd new).mapError errnoFromFs
    (checkMountMutation v.mounts oldAbsolute).mapError errnoFromFs
    (checkMountMutation v.mounts newAbsolute).mapError errnoFromFs
    let (oldParent, oldName) ← (v.resolveParent foreign cwd oldAbsolute).mapError errnoFromFs
    let (newParent, newName) ← (v.resolveParent foreign cwd newAbsolute).mapError errnoFromFs
    if endsWithSlash old || endsWithSlash new then
      let inode ← (v.lookup foreign oldParent oldName).mapError errnoFromFs
      if v.fileType foreign inode ≠ .directory then .error (-20)
      else return ((oldParent, oldName), (newParent, newName))
    else return ((oldParent, oldName), (newParent, newName))

/-- The system call: what it returns, and the memory file systems after it. -/
def exec : Mutation → Option (Except Int Unit) × (Nat → Memfs.World)
  | .unlink path directory =>
    match v.unlinkTarget foreign cwd path directory with
    | .error e => v.failed e
    | .ok (.foreign _, _) => v.failed (errnoFromFs .notSupported)
    | .ok (.memory k d, name) => v.call k (.unlink d name directory)
  | .rename old new =>
    match v.renameTarget foreign cwd old new with
    | .error e => v.failed e
    | .ok ((.foreign _, _), _) => v.failed (errnoFromFs .notSupported)
    | .ok ((.memory k d, name), (destination, newName)) =>
      v.call k (.rename d name (v.dynInode foreign destination) newName)

/-! ## Entries -/

/-- The place of an entry: a directory of a memory file system, and a name. -/
structure Entry where
  fs : Nat
  directory : Nat
  name : Str
  deriving DecidableEq, Repr

/-- In these file systems the entry is there, and refers to this inode. -/
def Entry.Names (memory : Nat → Memfs.World) (e : Entry) (i : Nat) : Prop :=
  (e.name, i) ∈ (memory e.fs).fs.entries e.directory

/-- The entry of a path, if its directory is on a memory file system.  The path is taken as it
is. -/
def entryOf (q : List Str) : Option Entry :=
  match q.getLast?, v.lookupExact foreign (joinAbsoluteSegments q.dropLast) with
  | some name, .ok (.memory k d) => some ⟨k, d, name⟩
  | _, _ => none

/-- The entries a rename takes away: none if it is to stay as it is. -/
def renameTargets (e e' : Entry) : List Entry := if e = e' then [] else [e, e']

/-- The entries the call acts on: one that is to be removed, or one that is to be renamed and the
one it is to become. -/
def targets : Mutation → List Entry
  | .unlink path directory =>
    match v.unlinkTarget foreign cwd path directory with
    | .ok (.memory k d, name) => [⟨k, d, name⟩]
    | _ => []
  | .rename old new =>
    match v.renameTarget foreign cwd old new with
    | .ok ((.memory k d, name), (.memory k' d', newName)) =>
      renameTargets ⟨k, d, name⟩ ⟨k', d', newName⟩
    | _ => []

section Call

variable {v} {k : Nat} {c : Memfs.Call}

theorem call_ok_iff : (v.call k c).1 = some (.ok ()) ↔
    (run c.prog (v.memory k)).1 = some (.ok ()) := by
  rw [call]
  rcases run c.prog (v.memory k) with ⟨_ | _ | _, w⟩ <;> simp [Except.mapError]

/-- The file systems that were not called have not changed. -/
theorem call_names (e : Entry) (i : Nat) : e.Names (v.call k c).2 i ↔
    if e.fs = k then (e.name, i) ∈ (run c.prog (v.memory k)).2.fs.entries e.directory
    else e.Names v.memory i := by
  rw [Entry.Names, call]
  dsimp only
  split_ifs with hk
  · rw [hk, update_self]
  rw [update_of_ne hk]
  rfl

/-- A call that has altered nothing. -/
theorem names_of_entries (h : (run c.prog (v.memory k)).2.fs.entries = (v.memory k).fs.entries)
    (e : Entry) (i : Nat) : e.Names (v.call k c).2 i ↔ e.Names v.memory i := by
  rw [call_names, h]
  split_ifs with hk
  · rw [← hk]
    rfl
  · rfl

/-- The outcome of a call that takes these entries away if it succeeds, and none if it does not. -/
def Takes (v : System F) (es : List Entry) (x : Option (Except Int Unit) × (Nat → Memfs.World)) :
    Prop :=
  ∀ e i, e.Names v.memory i → (e.Names x.2 i ↔ ¬ (x.1 = some (.ok ()) ∧ e ∈ es))

theorem takes_failed (v : System F) (es : List Entry) (n : Int) : v.Takes es (v.failed n) := by
  intro e i he
  exact iff_of_true he (by simp [failed])

theorem takes_of_not_ok {es : List Entry} (hr : (run c.prog (v.memory k)).1 ≠ some (.ok ())) :
    v.Takes es (v.call k c) := by
  intro e i he
  rw [names_of_entries (congrArg Memfs.Dirs.ents ((v.reachable k).good.dirs_of_not_ok c hr)),
    call_ok_iff]
  exact iff_of_true he fun h => hr h.1

theorem takes_unlink (d : Nat) (name : Str) (directory : Bool) :
    v.Takes [⟨k, d, name⟩] (v.call k (.unlink d name directory)) := by
  by_cases hr : (run (Memfs.Call.unlink d name directory).prog (v.memory k)).1 = some (.ok ())
  swap
  · exact takes_of_not_ok hr
  obtain ⟨hd, hunlinked⟩ := (v.reachable k).good.effect_of_ok _ hr
  have hentries := hunlinked.mem_entries (v.reachable k).good hd
  intro e i he
  rw [call_names, call_ok_iff, hr]
  split_ifs with hk
  · subst hk
    rw [hentries]
    obtain ⟨k, directory, n⟩ := e
    simpa [Entry.Names] using fun _ => he
  · refine iff_of_true he ?_
    rintro ⟨-, he⟩
    exact hk (congrArg Entry.fs (mem_singleton.1 he))

/-- An entry that is moved is gone, and so is the one in its way. -/
theorem names_moved {w w' : Memfs.World} (hg : Memfs.Good [] w) {d d' : Nat} {name newName : Str}
    (hd : d ∈ w.fs.live) (hd' : d' ∈ w.fs.live) (hne : ¬ (d = d' ∧ name = newName))
    (h : Memfs.Moved w.fs w'.fs d name d' newName) {directory i : Nat} {n : Str}
    (he : (n, i) ∈ w.fs.entries directory) :
    (n, i) ∈ w'.fs.entries directory ↔
      ¬ (directory = d ∧ n = name) ∧ ¬ (directory = d' ∧ n = newName) := by
  obtain ⟨source, hsource, hentries⟩ := h
  rw [hentries]
  constructor
  · rintro (⟨-, h⟩ | ⟨rfl, rfl, rfl⟩)
    · exact h
    · -- the moved inode is listed once
      obtain rfl := hg.tree.dir_unique hd hd' hsource he
      exact absurd ⟨rfl, hg.tree.name_unique hd hsource he⟩ hne
  · exact fun h => .inl ⟨he, h⟩

theorem takes_rename (d : Nat) (name : Str) (k' d' : Nat) (newName : Str) :
    v.Takes (renameTargets ⟨k, d, name⟩ ⟨k', d', newName⟩)
      (v.call k (.rename d name (v.dynInode foreign (.memory k' d')) newName)) := by
  by_cases hr : (run (Memfs.Call.rename d name (v.dynInode foreign (.memory k' d'))
      newName).prog (v.memory k)).1 = some (.ok ())
  swap
  · exact takes_of_not_ok hr
  obtain ⟨hd, hto⟩ := (v.reachable k).good.effect_of_ok _ hr
  obtain ⟨j, hj, hmemory, hfs, hrenamed⟩ := hto.renamed
  obtain rfl : d' = j := some_inj.1 hmemory
  obtain rfl : k' = k := by rwa [dynInode, v.fsId, v.fsId] at hfs
  intro e i he
  rcases hrenamed.moved (v.reachable k').good hd hj with ⟨rfl, rfl, hsame⟩ | ⟨hne, hmoved⟩
  · rw [renameTargets, call_names, hsame]
    refine iff_of_true ?_ (by simp)
    split_ifs with hk
    · rw [← hk]
      exact he
    · exact he
  · have htargets : renameTargets ⟨k', d, name⟩ ⟨k', d', newName⟩ =
        [⟨k', d, name⟩, ⟨k', d', newName⟩] := if_neg fun heq => by
      injection heq with _ hdir hname
      exact hne ⟨hdir, hname⟩
    rw [htargets, call_names, call_ok_iff, hr]
    split_ifs with hk
    · subst hk
      rw [names_moved (v.reachable e.fs).good hd hj hne hmoved he]
      obtain ⟨k, directory, n⟩ := e
      simp
    · refine iff_of_true he ?_
      rintro ⟨-, hmem⟩
      rcases mem_pair.1 hmem with heq | heq <;> exact hk (congrArg Entry.fs heq)

theorem takes_rename_foreign (d : Nat) (name : Str) (f : F) (newName : Str) (es : List Entry) :
    v.Takes es (v.call k (.rename d name (v.dynInode foreign (.foreign f)) newName)) := by
  refine takes_of_not_ok fun hr => ?_
  obtain ⟨j, -, hmemory, -⟩ := ((v.reachable k).good.effect_of_ok _ hr).2.renamed
  exact absurd hmemory (by simp [dynInode])

end Call

/-! ## What the calls take away -/

/-- **A call takes away the entries it acts on**, if it succeeds, and no other. -/
theorem exec_takes (c : Mutation) : v.Takes (v.targets foreign cwd c) (v.exec foreign cwd c) := by
  cases c with
  | unlink path directory =>
    rw [exec, targets]
    rcases v.unlinkTarget foreign cwd path directory with e | ⟨⟨k, d⟩ | f, name⟩
    · exact takes_failed v _ e
    · exact takes_unlink d name directory
    · exact takes_failed v _ _
  | rename old new =>
    rw [exec, targets]
    rcases v.renameTarget foreign cwd old new with e | ⟨⟨⟨k, d⟩ | f, name⟩, ⟨k', d'⟩ | f', newName⟩
    · exact takes_failed v _ e
    · exact takes_rename foreign d name k' d' newName
    · exact takes_rename_foreign foreign d name f' newName _
    · exact takes_failed v _ _
    · exact takes_failed v _ _

end System

/-! ## Removing a mount point -/

/-- No file systems but the memory file systems. -/
def noForeign : Foreign Empty := ⟨fun f => f.elim, fun f => f.elim, fun f => f.elim⟩

/-- A file system with nothing in it. -/
def emptyFs (k : Nat) : Memfs.World := (run Memfs.build (Memfs.World.boot k none 1 [])).2

theorem reachable_emptyFs (k : Nat) : Memfs.Reachable (emptyFs k) := by
  have hrun : run Memfs.build (Memfs.World.boot k none 1 []) = (some (.ok ()), emptyFs k) := rfl
  exact .build (by decide) hrun

/-- A root file system with the directory `/mnt`. -/
def withMnt : Memfs.World := (emptyFs 1).after (.create 1 ['m', 'n', 't'] .directory)

theorem reachable_withMnt : Memfs.Reachable withMnt :=
  (reachable_emptyFs 1).after (r := .ok ()) rfl

/-- The system with this root, and nothing mounted. -/
def unmounted : System Empty where
  root := some (.memory 1)
  mounts := []
  memory k := if k = 1 then withMnt else emptyFs k
  fsId k := by
    split_ifs with hk
    · exact hk.symm
    · rfl
  reachable k := by
    split
    · exact reachable_withMnt
    · exact reachable_emptyFs k

theorem normal_mnt : Normal [['m', 'n', 't']] := fun s hs => by
  obtain rfl := mem_singleton.1 hs
  exact ⟨⟨by decide, by decide⟩, by decide, by decide⟩

/-- The same with another file system on `/mnt`. -/
def mounted : System Empty :=
  { unmounted with
    mounts := [⟨['/', 'm', 'n', 't'], .memory 2, [['m', 'n', 't']], by simp, normal_mnt, rfl⟩] }

/-- `rmdir("/mnt /")` removes the mount point `/mnt`. -/
theorem rmdir_removes_mount_point :
    unmounted.mount noForeign ['/', 'm', 'n', 't'] (.memory 2) = .ok mounted ∧
    mounted.Leads [['m', 'n', 't']] ∧
    mounted.entryOf noForeign [['m', 'n', 't']] = some ⟨1, 1, ['m', 'n', 't']⟩ ∧
    (⟨1, 1, ['m', 'n', 't']⟩ : System.Entry).Names mounted.memory 2 ∧
    (mounted.exec noForeign none (.unlink ['/', 'm', 'n', 't', ' ', '/'] true)).1 = some (.ok ()) ∧
    ((mounted.exec noForeign none (.unlink ['/', 'm', 'n', 't', ' ', '/'] true)).2
      1).fs.entries 1 = [] := by
  refine ⟨rfl, ⟨by simp, _, mem_singleton.2 rfl, by decide⟩, rfl, ?_, rfl, rfl⟩
  exact mem_cons_self

end Krust.Vfs
