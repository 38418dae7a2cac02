import Krust.Lib.Runs
import Krust.Vfs.Resolve

/-!
# Symbolic links

`resolve_symlink_path` and `lookup_path_with_options` follow symbolic links in the same way.  They
look at the parts of the path from the root on, replace the first one that is a link by its target,
and start again with the new path; after ten links they give up.  The two differ only in what they
do with a path that has no links left, which is why the one is the other followed by a lookup
(`System.symlinks_resolved`).
-/

set_option autoImplicit false

namespace Krust.Vfs

open Lib List

def DEFAULT_SYMLINK_RESOLUTION_LIMIT : Nat := 10

/-- The inodes of the file systems that are not kept in memory, with what is in them. -/
structure Readable (F : Type) extends Foreign F where
  size : F → Nat
  read : F → Nat → List UInt8 → Except FsError (Nat × List UInt8)

def joinRelativeSegments (ss : List Str) : Str := List.intercalate ['/'] ss

/-- `if !s.ends_with('/') { s.push('/') }`. -/
def withSlash (s : Str) : Str := if s.getLast? = some '/' then s else s ++ ['/']

/-- The path with its segment at this place, a link, replaced by the target. -/
def expand (segments : List Str) (index : Nat) (target : Str) : Str :=
  let parent := if index = 0 then ['/'] else joinAbsoluteSegments (segments.take index)
  let suffix :=
    if index + 1 < segments.length then joinRelativeSegments (segments.drop (index + 1)) else []
  let expanded :=
    if target.head? = some '/' then target
    else if parent = ['/'] then '/' :: target
    else withSlash parent ++ target
  if suffix = [] then expanded else withSlash expanded ++ suffix

/-- The variables of the loop: `current_path` and `followed_symlinks`. -/
structure Following where
  path : Str
  followed : Nat
  deriving DecidableEq, Repr

variable {α : Type}

namespace System

variable {F : Type} (files : Readable F) (v : System F)

/-- `Inode::size`. -/
def size : Inode F → Nat
  | .memory k i => ((v.memory k).fs.node i).storage.size
  | .foreign f => files.size f

/-- `Inode::read`. -/
def read (offset : Nat) (buf : List UInt8) : Inode F → Except FsError (Nat × List UInt8)
  | .memory k i => ((v.memory k).fs.node i).storage.read offset buf
  | .foreign f => files.read f offset buf

def readSymlinkTarget (inode : Inode F) : Except FsError Str :=
  if v.fileType files.toForeign inode ≠ .symlink then .error .notSupported
  else do
    let (read, buf) ← v.read files 0 (List.replicate (v.size files inode) 0) inode
    okOr (fromUtf8 (buf.take read)) .ioError

/-- The first link among the parts of a path that end at these segments. -/
def firstSymlink (segments : List Str) : List Nat → Except FsError (Option (Nat × Inode F))
  | [] => return none
  | index :: rest => do
    let inode ← v.lookupExact files.toForeign (joinAbsoluteSegments (segments.take (index + 1)))
    if v.fileType files.toForeign inode ≠ .symlink then firstSymlink segments rest
    else return some (index, inode)

/-- One round of the loop.  It ends with a new path, or else with the result of the call and the
number of links that were followed. -/
def followRound {α : Type} (finish : Str → Except FsError α) (s : Following) :
    Following ⊕ (Except FsError α × Nat) :=
  let segments := splitSegments s.path
  match v.firstSymlink files segments (List.range segments.length) with
  | .error e => .inr (.error e, s.followed)
  | .ok none => .inr (finish s.path, s.followed)
  | .ok (some (index, inode)) =>
    if DEFAULT_SYMLINK_RESOLUTION_LIMIT ≤ s.followed then .inr (.error .notSupported, s.followed)
    else
      match v.readSymlinkTarget files inode with
      | .error e => .inr (.error e, s.followed + 1)
      | .ok target =>
        match normalizeAbsolutePath (expand segments index target) with
        | .error e => .inr (.error e, s.followed + 1)
        | .ok path => .inl ⟨path, s.followed + 1⟩

/-- `resolve_symlink_path`, with the number of links that were followed, if it takes no more than
so many rounds. -/
def resolveSymlinkPath (rounds : Nat) (path : Str) : Option (Except FsError Str × Nat) :=
  match normalizeAbsolutePath path with
  | .error e => some (.error e, 0)
  | .ok normalized => loop (v.followRound files .ok) rounds ⟨normalized, 0⟩

/-- `lookup_path_with_options`, in the same way. -/
def lookupPathWithOptions (rounds : Nat) (path : Str) (resolveSymlinks : Bool) :
    Option (Except FsError (Inode F) × Nat) :=
  match normalizeAbsolutePath path with
  | .error e => some (.error e, 0)
  | .ok normalized =>
    if !resolveSymlinks then some (v.lookupExact files.toForeign normalized, 0)
    else loop (v.followRound files (v.lookupExact files.toForeign)) rounds ⟨normalized, 0⟩

/-! ## The loop -/

/-- No part of the path is a link. -/
def NoSymlinks (path : Str) : Prop :=
  ∀ index < (splitSegments path).length, ∃ inode,
    v.lookupExact files.toForeign (joinAbsoluteSegments ((splitSegments path).take (index + 1))) =
      .ok inode ∧ v.fileType files.toForeign inode ≠ .symlink

theorem firstSymlink_none {segments : List Str} {indices : List Nat}
    (h : v.firstSymlink files segments indices = .ok none) :
    ∀ index ∈ indices, ∃ inode,
      v.lookupExact files.toForeign (joinAbsoluteSegments (segments.take (index + 1))) =
        .ok inode ∧ v.fileType files.toForeign inode ≠ .symlink := by
  induction indices with
  | nil => simp
  | cons index indices ih =>
    rw [firstSymlink, bind_eq_ok] at h
    obtain ⟨inode, hlookup, h⟩ := h
    split_ifs at h with htype
    · intro i hi
      rcases mem_cons.1 hi with rfl | hi
      · exact ⟨inode, hlookup, htype⟩
      · exact ih h i hi
    · cases h

/-- What a round does: it goes on with a path that is normalized again and one link more, or it
leaves the loop. -/
theorem followRound_inl {finish : Str → Except FsError α} {s s' : Following}
    (h : v.followRound files finish s = .inl s') :
    Canonical s'.path ∧ s'.followed = s.followed + 1 ∧
      s.followed < DEFAULT_SYMLINK_RESOLUTION_LIMIT := by
  rw [followRound] at h
  split at h
  · cases h
  · cases h
  split at h
  · cases h
  rename_i hlimit
  split at h
  · cases h
  split at h
  · cases h
  rename_i hpath
  cases h
  exact ⟨normal_of_normalize hpath, rfl, Nat.lt_of_not_le hlimit⟩

theorem followRound_inr {s : Following} {r : Except FsError Str} {n : Nat}
    (h : v.followRound files .ok s = .inr (r, n)) :
    (n = s.followed ∨ n = s.followed + 1 ∧ s.followed < DEFAULT_SYMLINK_RESOLUTION_LIMIT) ∧
      ∀ q, r = .ok q → q = s.path ∧ v.NoSymlinks files q := by
  rw [followRound] at h
  split at h
  · cases h
    exact ⟨.inl rfl, by simp⟩
  · rename_i hnone
    cases h
    refine ⟨.inl rfl, fun q hq => ?_⟩
    cases hq
    exact ⟨rfl, fun index hindex =>
      v.firstSymlink_none files hnone index (mem_range.2 hindex)⟩
  · split_ifs at h with hlimit
    · cases h
      exact ⟨.inl rfl, by simp⟩
    · have hlt := Nat.lt_of_not_le hlimit
      split at h
      · cases h
        exact ⟨.inr ⟨rfl, hlt⟩, by simp⟩
      split at h
      · cases h
        exact ⟨.inr ⟨rfl, hlt⟩, by simp⟩
      · cases h

/-- The round of `lookup_path_with_options` is that of `resolve_symlink_path`, with a lookup at the
end. -/
theorem followRound_map (finish : Str → Except FsError α) (s : Following) :
    v.followRound files finish s =
      (v.followRound files .ok s).map id fun r => (r.1 >>= finish, r.2) := by
  rw [followRound, followRound]
  split
  · rfl
  · rfl
  split
  · rfl
  split
  · rfl
  · split <;> rfl

/-- **Links are resolved.**  Both calls come to an end after ten links at most, whatever the links
are, the second is the first followed by a lookup that does not resolve links, and a path that the
first returns is canonical and has no links in it. -/
theorem symlinks_resolved (path : Str) :
    ∃ r n, n ≤ 10 ∧
      (∀ rounds, 11 ≤ rounds → v.resolveSymlinkPath files rounds path = some (r, n)) ∧
      (∀ rounds, 11 ≤ rounds → v.lookupPathWithOptions files rounds path true =
        some (r >>= v.lookupExact files.toForeign, n)) ∧
      ∀ q, r = .ok q → Canonical q ∧ v.NoSymlinks files q := by
  cases hnormal : normalizeAbsolutePath path with
  | error e =>
    refine ⟨.error e, 0, Nat.zero_le _, fun rounds _ => ?_, fun rounds _ => ?_, by simp⟩
    · rw [resolveSymlinkPath, hnormal]
    · rw [lookupPathWithOptions, hnormal]
      rfl
  | ok normalized =>
    -- The paths of the loop are canonical, and the number of links that may follow gets smaller.
    let I (s : Following) : Prop := Canonical s.path ∧ s.followed ≤ DEFAULT_SYMLINK_RESOLUTION_LIMIT
    have hround : ∀ s s', I s → v.followRound files .ok s = .inl s' →
        I s' ∧ DEFAULT_SYMLINK_RESOLUTION_LIMIT - s'.followed <
          DEFAULT_SYMLINK_RESOLUTION_LIMIT - s.followed := by
      intro s s' _ h
      obtain ⟨hcanonical, hfollowed, hlt⟩ := v.followRound_inl files h
      exact ⟨⟨hcanonical, by omega⟩, by omega⟩
    have hstart : I ⟨normalized, 0⟩ := ⟨normal_of_normalize hnormal, Nat.zero_le _⟩
    obtain ⟨rounds, ⟨r, n⟩, last, hrounds, hloops, ⟨hcanonical, hlimit⟩, hlast⟩ :=
      exists_loops (fun s => DEFAULT_SYMLINK_RESOLUTION_LIMIT - s.followed) hround hstart
    obtain ⟨hn, hresult⟩ := v.followRound_inr files hlast
    rw [DEFAULT_SYMLINK_RESOLUTION_LIMIT] at hrounds hlimit hn
    refine ⟨r, n, by omega, fun bound hbound => ?_, fun bound hbound => ?_, fun q hq => ?_⟩
    · rw [resolveSymlinkPath, hnormal]
      exact hloops.loop_eq (by omega)
    · have hmap := hloops.map (v.followRound_map files (v.lookupExact files.toForeign))
      rw [lookupPathWithOptions, hnormal]
      exact hmap.loop_eq (by omega)
    · obtain ⟨rfl, hsymlinks⟩ := hresult q hq
      exact ⟨hcanonical, hsymlinks⟩

end System

/-- The inodes of a file system with links, one to the next: `/a` to `b`, `/b` to `/d`, which is a
directory with the file `x`, and `/l` to itself. -/
inductive Linked
  | root
  | a
  | b
  | d
  | l
  | x
  deriving DecidableEq, Repr

def Linked.target : Linked → List UInt8
  | .a => [0x62]
  | .b => [0x2F, 0x64]
  | .l => [0x2F, 0x6C]
  | _ => []

def linkFiles : Readable Linked where
  lookup
    | .root, ['a'] => .ok .a
    | .root, ['b'] => .ok .b
    | .root, ['d'] => .ok .d
    | .root, ['l'] => .ok .l
    | .d, ['x'] => .ok .x
    | .root, _ | .d, _ => .error .notFound
    | _, _ => .error .notADirectory
  fileType
    | .root | .d => .directory
    | .x => .regular
    | _ => .symlink
  fsId _ := 0
  size file := file.target.length
  read file _ _ := .ok (file.target.length, file.target)

def linkSystem : System Linked where
  root := some (.foreign .root)
  mounts := []
  memory := emptyFs
  fsId _ := rfl
  reachable := reachable_emptyFs

/-- The links `/a` and `/b` are followed to `/d/x`, and `/l` is not followed forever. -/
theorem symlinks_resolved_linked :
    (Canonical ['/', 'd', '/', 'x'] ∧ linkSystem.NoSymlinks linkFiles ['/', 'd', '/', 'x'] ∧
      linkSystem.resolveSymlinkPath linkFiles 11 ['/', 'a', '/', 'x'] =
        some (.ok ['/', 'd', '/', 'x'], 2) ∧
      linkSystem.lookupPathWithOptions linkFiles 11 ['/', 'a', '/', 'x'] true =
        some (.ok (.foreign .x), 2)) ∧
    linkSystem.resolveSymlinkPath linkFiles 20 ['/', 'l'] = some (.error .notSupported, 10) := by
  have hx : linkSystem.resolveSymlinkPath linkFiles 11 ['/', 'a', '/', 'x'] =
      some (.ok ['/', 'd', '/', 'x'], 2) := by decide +kernel
  have hl : linkSystem.resolveSymlinkPath linkFiles 11 ['/', 'l'] =
      some (.error .notSupported, 10) := by decide +kernel
  obtain ⟨r, n, -, hresolve, hlookup, hpath⟩ :=
    linkSystem.symlinks_resolved linkFiles ['/', 'a', '/', 'x']
  obtain ⟨rfl, rfl⟩ := Prod.mk.inj (Option.some.inj ((hresolve 11 le_rfl).symm.trans hx))
  obtain ⟨hcanonical, hlinks⟩ := hpath _ rfl
  refine ⟨⟨hcanonical, hlinks, hx, (hlookup 11 le_rfl).trans rfl⟩, ?_⟩
  obtain ⟨r, n, -, hresolve, -⟩ := linkSystem.symlinks_resolved linkFiles ['/', 'l']
  exact (hresolve 20 (by decide)).trans ((hresolve 11 le_rfl).symm.trans hl)

end Krust.Vfs
