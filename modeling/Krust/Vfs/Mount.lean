import Krust.Memfs.Entries
import Krust.Vfs.Path

/-!
# The mount table

A path is looked up in the file system that is mounted at the longest part of it.  The memory file
systems are the ones of `Krust.Memfs`, one for each file system number, and each of them is in a
state it can get into; of all the others nothing matters here but that names can be looked up in
them (`Foreign`), since none of them implements `unlink` or `rename`.
-/

set_option autoImplicit false

namespace Krust.Vfs

open Lib Prog List

/-- The inodes of the file systems that are not kept in memory, and what can be asked of them. -/
structure Foreign (F : Type) where
  lookup : F → Str → Except FsError F
  fileType : F → FileType
  fsId : F → Nat

/-- `Arc<dyn Inode>`. -/
inductive Inode (F : Type)
  | memory (fs ino : Nat)
  | foreign (f : F)
  deriving DecidableEq, Repr

/-- `Arc<dyn FileSystem>`. -/
inductive FileSystem (F : Type)
  | memory (fs : Nat)
  | foreign (root : F)

/-- `MountPoint`.  The path is one that `normalize_absolute_path` has returned, and not `/`. -/
structure MountPoint (F : Type) where
  path : Str
  fs : FileSystem F
  normal : ∃ ss, ss ≠ [] ∧ Normal ss ∧ path = joinAbsoluteSegments ss

/-- `FileSystemManager`, without the table of open inodes. -/
structure Manager (F : Type) where
  root : Option (FileSystem F)
  mounts : List (MountPoint F)

/-- The mount table, and the memory file systems. -/
structure System (F : Type) extends Manager F where
  memory : Nat → Memfs.World
  /-- Each file system has its own number. -/
  fsId : ∀ k, (memory k).fs.fsId = k
  reachable : ∀ k, Memfs.Reachable (memory k)

namespace MountPoint

variable {F : Type} (m : MountPoint F)

def segments : List Str := splitSegments m.path

theorem segments_spec : m.segments ≠ [] ∧ Normal m.segments ∧
    m.path = joinAbsoluteSegments m.segments := by
  obtain ⟨ss, hne, hss, hpath⟩ := m.normal
  rw [segments, hpath, splitSegments_joined hss]
  exact ⟨hne, hss, rfl⟩

/-- Whether a path is looked up in this file system, if no other is mounted further down. -/
def covers (path : Str) : Bool :=
  if path = m.path then true
  else if utf8Len path ≤ utf8Len m.path then false
  else m.path.isPrefixOf path && path[m.path.length]? == some '/'

end MountPoint

/-! ## The guard -/

def checkMountMutation {F : Type} (mounts : List (MountPoint F)) (path : Str) :
    Except FsError Unit :=
  if path = ['/'] ∨ mounts.any (fun m =>
      m.path == path ||
        (path.isPrefixOf m.path && (m.path.drop path.length).head? == some '/')) then
    .error .busy
  else .ok ()

/-- The path is a mount point's, or leads to one. -/
def Manager.Leads {F : Type} (t : Manager F) (q : List Str) : Prop :=
  q ≠ [] ∧ ∃ m ∈ t.mounts, q <+: m.segments

variable {q : List Str}

theorem joined_eq_root_iff (hq : Normal q) : joinAbsoluteSegments q = ['/'] ↔ q = [] := by
  refine ⟨fun h => joined_injective hq.segments normal_nil.segments h, ?_⟩
  rintro rfl
  rfl

/-! ## Looking up paths -/

/-- `Iterator::max_by_key`: the last of the largest elements. -/
def maxByKey {α : Type} (key : α → Nat) (l : List α) : Option α :=
  l.foldl (fun best x => match best with
    | none => some x
    | some b => if key b ≤ key x then some x else some b) none

namespace System

variable {F : Type} (foreign : Foreign F) (v : System F)

/-- `FileSystem::root_inode`. -/
def rootInode : FileSystem F → Inode F
  | .memory k => .memory k (v.memory k).fs.root
  | .foreign root => .foreign root

/-- `Inode::lookup`. -/
def lookup : Inode F → Str → Except FsError (Inode F)
  | .memory k d, name => ((v.memory k).fs.lookup d name).map (.memory k)
  | .foreign f, name => (foreign.lookup f name).map .foreign

/-- `Inode::file_type`. -/
def fileType : Inode F → FileType
  | .memory k i => ((v.memory k).fs.node i).fileType
  | .foreign f => foreign.fileType f

structure ResolvedInode (F : Type) where
  inode : Inode F
  mountPath : Str
  rest : Str

/-- `FileSystemManager::resolve_path`. -/
def resolvePath (path : Str) : Except FsError (ResolvedInode F) :=
  let fromRoot (rest : Str) : Except FsError (ResolvedInode F) :=
    match v.root with
    | none => .error .notFound
    | some fs => .ok ⟨v.rootInode fs, ['/'], rest⟩
  if path = ['/'] then fromRoot []
  else
    match maxByKey (fun m => utf8Len m.path) (v.mounts.filter fun m => m.covers path) with
    | some m =>
      .ok ⟨v.rootInode m.fs, m.path, if path = m.path then [] else path.drop (m.path.length + 1)⟩
    | none => fromRoot path.tail

/-- `lookup_path_without_symlink_resolution`: the path is taken as it is. -/
def lookupExact (path : Str) : Except FsError (Inode F) := do
  let resolved ← v.resolvePath path
  (splitSegments resolved.rest).foldlM (v.lookup foreign) resolved.inode

def lookupPath (path : Str) : Except FsError (Inode F) := do
  let normalized ← normalizeAbsolutePath path
  v.lookupExact foreign normalized

def mount (path : Str) (fs : FileSystem F) : Except FsError (System F) :=
  match h : normalizeAbsolutePath path with
  | .error e => .error e
  | .ok normalized =>
    if hroot : normalized = ['/'] then .error .alreadyExists
    else
      match v.resolvePath normalized with
      | .error e => .error e
      | .ok resolved =>
        if v.fileType foreign resolved.inode ≠ .directory then .error .notADirectory
        else if v.mounts.any fun m => m.path == normalized then .error .alreadyExists
        else
          let mountPoint : MountPoint F := ⟨normalized, fs, by
            obtain ⟨ss, hss, rfl⟩ := normal_of_normalize h
            exact ⟨ss, fun hne => hroot (hne ▸ rfl), hss, rfl⟩⟩
          .ok { v with mounts := v.mounts ++ [mountPoint] }

end System

end Krust.Vfs
