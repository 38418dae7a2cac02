import Krust.Process.FdMap
import Krust.Vfs.OpenFile
import Krust.Vfs.Seek

/-!
# Reading and writing through descriptors

A descriptor leads to an open file description, which all its duplicates share, and the description
to an inode.  Whether a file was opened for reading or for writing is written into the descriptor
when it is opened.  Only `ftruncate` looks at it: `read` and `write` go straight to the inode.

So a descriptor gives what it was opened for, and no more, as long as nobody reads through a
descriptor that was opened for writing only, or writes through one that was opened for reading only
(`Tasks.access_respected`).
-/

set_option autoImplicit false

namespace Krust.Process

open Lib Vfs List Function Option

/-- What the inodes of all file systems and the device drivers do, in a state `W` of theirs.  The
bytes of a file are `content`, and no inode changes a file when it is read. -/
structure Inodes (W : Type) where
  /-- The bytes that are read, at most as many as asked for. -/
  read : AnyInode → Nat → Nat → W → Except FsError (List UInt8) × W
  write : AnyInode → Nat → List UInt8 → W → Except FsError Nat × W
  /-- Where the bytes went, and how many. -/
  append : AnyInode → List UInt8 → W → Except FsError (Nat × Nat) × W
  truncate : AnyInode → Nat → W → Except FsError Unit × W
  size : AnyInode → W → Nat
  /-- How the driver moves the cursor, if the inode is a device. -/
  seek : AnyInode → W → Option (Nat → SeekFrom → Except FsError Nat)
  content : AnyInode → W → List UInt8
  read_keeps : ∀ i offset len w j, content j (read i offset len w).2 = content j w ∧
    size j (read i offset len w).2 = size j w

/-- `OpenFileDescription`.  The access it was opened with is not a field of the kernel's: it is what
the call to `open` asked for. -/
structure Description where
  inode : AnyInode
  cursor : Nat
  append : Bool
  opened : FileOpenMode

/-- `FdEntry`: the descriptor, and the description by its number. -/
structure FdEntry where
  descriptor : FileDescriptor
  file : Nat

/-- The tables of all tasks.  A description stays in the list when nobody refers to it any more. -/
structure Tasks (W : Type) where
  world : W
  descriptions : List Description
  fds : Nat → FdTable FdEntry

/-- What a call returns: the value or the error number, and the bytes in the caller's buffer. -/
structure Reply where
  result : Except Int Nat
  bytes : List UInt8

/-- `IoVec`: a buffer, or a null pointer with a length. -/
inductive IoVec
  | buffer (bytes : List UInt8)
  | null (len : Nat)

/-- A call of a task.  A buffer that is `none` is a null pointer. -/
inductive Call (W : Type)
  /-- With whether the path can be made absolute, what looking it up and creating it comes to, and
  the state that this leaves. -/
  | open (pid flags : Nat) (absolute : Except Int Unit) (opened : Except Int (AnyInode × FileType))
      (world : W)
  | read (pid fd : Nat) (len : Option Nat)
  | write (pid fd : Nat) (buf : Option (List UInt8))
  | writev (pid fd : Nat) (iov : Option (List IoVec))
  | ftruncate (pid fd size : Nat)
  | lseek (pid fd : Nat) (offset : Int) (whence : Nat)
  | dup (pid fd min : Nat) (cloexec : Bool)
  | close (pid fd : Nat)
  /-- A child gets a copy of the table. -/
  | fork (pid child : Nat)
  /-- Everything else that changes files: other calls, by path. -/
  | elsewhere (world : W)

/-- The checks of `open_with_mode` before the path is looked up. -/
def checkFlags (flags : Nat) : Except Int Unit :=
  if flags &&& 3 = 3 then .error (-22)
  else if flags &&& 0x10040 = 0x10040 then .error (-22)
  else .ok ()

/-- Its checks of the file that has been opened, and whether the file is to be truncated. -/
def checkOpened (flags : Nat) (fileType : FileType) : Except Int Bool :=
  if flags &&& 0x10000 ≠ 0 ∧ fileType ≠ .directory then .error (-20)
  else if flags &&& 0x200 ≠ 0 then if flags &&& 3 = 0 then .error (-22) else .ok true
  else .ok false

variable {f : Description → Description}

namespace Tasks

variable {W : Type} (I : Inodes W) (s : Tasks W)

/-- `with_fd`: the description a descriptor leads to. -/
def description (pid fd : Nat) : Option Description :=
  ((s.fds pid).get fd).bind fun entry => s.descriptions[entry.file]?

/-- Change the description a descriptor leads to. -/
def onDescription (pid fd : Nat) (f : Description → Description) : Tasks W :=
  match (s.fds pid).get fd with
  | none => s
  | some entry => { s with descriptions := s.descriptions.modify entry.file f }

/-- `OpenFile::read`, through `read_fd`. -/
def readFd (pid fd len : Nat) : Reply × Tasks W :=
  match s.description pid fd with
  | none => (⟨.error (-9), []⟩, s)
  | some file =>
    match I.read file.inode file.cursor len s.world with
    | (.error e, w) => (⟨.error (errnoFromFs e), []⟩, { s with world := w })
    | (.ok bytes, w) =>
      (⟨.ok bytes.length, bytes⟩, { s with world := w }.onDescription pid fd fun file =>
        { file with cursor := saturatingAdd file.cursor bytes.length })

/-- `OpenFile::write`, through `write_fd`. -/
def writeFd (pid fd : Nat) (buf : List UInt8) : Except Int Nat × Tasks W :=
  match s.description pid fd with
  | none => (.error (-9), s)
  | some file =>
    if file.append then
      match I.append file.inode buf s.world with
      | (.error e, w) => (.error (errnoFromFs e), { s with world := w })
      | (.ok (offset, written), w) =>
        (.ok written, { s with world := w }.onDescription pid fd fun file =>
          { file with cursor := offset + written })
    else
      match I.write file.inode file.cursor buf s.world with
      | (.error e, w) => (.error (errnoFromFs e), { s with world := w })
      | (.ok written, w) =>
        (.ok written, { s with world := w }.onDescription pid fd fun file =>
          { file with cursor := saturatingAdd file.cursor written })

/-- The loop of `sys_writev`, with the total so far. -/
def writevLoop (pid fd : Nat) : List IoVec → Nat → Tasks W → Except Int Nat × Tasks W
  | [], total, s => (.ok total, s)
  | .null len :: iov, total, s =>
    if len = 0 then writevLoop pid fd iov total s else (.error (-14), s)
  | .buffer buf :: iov, total, s =>
    if buf.length = 0 then writevLoop pid fd iov total s
    else
      match s.writeFd I pid fd buf with
      | (.ok written, s) => writevLoop pid fd iov (saturatingAdd total written) s
      | (.error e, s) => if 0 < total then (.ok total, s) else (.error e, s)

/-- `impls::ftruncate`, after the check of the system call. -/
def ftruncate (pid fd size : Nat) : Except Int Nat × Tasks W :=
  if ISIZE_MAX < size then (.error (-22), s)
  else
    match (s.fds pid).get fd with
    | none => (.error (-9), s)
    | some entry =>
      if entry.descriptor.mode = .readOnly then (.error (-22), s)
      else
        match s.description pid fd with
        | none => (.error (-9), s)
        | some file =>
          match I.truncate file.inode size s.world with
          | (.error e, w) => (.error (errnoFromFs e), { s with world := w })
          | (.ok (), w) => (.ok 0, { s with world := w })

/-- `OpenFile::seek`. -/
def seek (file : Description) (w : W) (pos : SeekFrom) : Except FsError Nat :=
  match I.seek file.inode w with
  | some move => move file.cursor pos
  | none => Vfs.seek file.cursor (I.size file.inode w) pos

/-- `impls::lseek`. -/
def lseek (pid fd : Nat) (offset : Int) (whence : Nat) : Except Int Nat × Tasks W :=
  match seekFrom offset whence with
  | none => (.error (-22), s)
  | some pos =>
    match s.description pid fd with
    | none => (.error (-9), s)
    | some file =>
      match seek I file s.world pos with
      | .error e => (.error (errnoFromFs e), s)
      | .ok cursor =>
        (.ok cursor, s.onDescription pid fd fun file => { file with cursor := cursor })

/-- The access that the flags of `open` ask for. -/
def accessMode (flags : Nat) : FileOpenMode :=
  match flags &&& 3 with
  | 0 => .readOnly
  | 1 => .writeOnly
  | _ => .readWrite

/-- The end of `open_with_mode`: `process::open_file`. -/
def openFile (pid flags : Nat) (inode : AnyInode) : Nat × Tasks W :=
  let mode := accessMode flags
  let (major, minor) := inode.deviceNumbers.getD (0, 0)
  let entry : FdEntry := ⟨⟨inode.fsId, major, minor, inode.ino, mode⟩, s.descriptions.length⟩
  let (fd, table) := (s.fds pid).insert entry (if flags &&& O_CLOEXEC ≠ 0 then FD_CLOEXEC else 0)
  (fd, { s with
    descriptions := s.descriptions ++ [⟨inode, 0, flags &&& 0x400 ≠ 0, mode⟩]
    fds := update s.fds pid table })

/-- `open_with_mode`, with what the path comes to. -/
def openWithMode (pid flags : Nat) (absolute : Except Int Unit)
    (opened : Except Int (AnyInode × FileType)) : Except Int Nat × Tasks W :=
  match absolute with
  | .error e => (.error e, s)
  | .ok () =>
    match checkFlags flags with
    | .error e => (.error e, s)
    | .ok () =>
      match opened with
      | .error e => (.error e, s)
      | .ok (inode, fileType) =>
        match checkOpened flags fileType with
        | .error e => (.error e, s)
        | .ok true =>
          match I.truncate inode 0 s.world with
          | (.error e, w) => (.error (errnoFromFs e), { s with world := w })
          | (.ok (), w) =>
            let (fd, s) := { s with world := w }.openFile pid flags inode
            (.ok fd, s)
        | .ok false =>
          let (fd, s) := s.openFile pid flags inode
          (.ok fd, s)

/-- `close_fd`.  Closing the description, if this was the last descriptor, concerns no file. -/
def closeFd (pid fd : Nat) : Except Int Nat × Tasks W :=
  match (s.fds pid).remove fd with
  | (none, _) => (.error (-9), s)
  | (some _, table) => (.ok 0, { s with fds := update s.fds pid table })

/-- A call that returns no bytes. -/
def plain (x : Except Int Nat × Tasks W) : Reply × Tasks W := (⟨x.1, []⟩, x.2)

def exec : Call W → Reply × Tasks W
  | .open pid flags absolute opened world =>
    plain ({ s with world := world }.openWithMode I pid flags absolute opened)
  | .read _ _ none => (⟨.error (-14), []⟩, s)
  | .read pid fd (some len) => s.readFd I pid fd len
  | .write _ _ none => (⟨.error (-14), []⟩, s)
  | .write pid fd (some buf) => plain (s.writeFd I pid fd buf)
  | .writev _ _ none => (⟨.error (-14), []⟩, s)
  | .writev pid fd (some iov) => plain (writevLoop I pid fd iov 0 s)
  | .ftruncate pid fd size => plain (s.ftruncate I pid fd size)
  | .lseek pid fd offset whence => plain (s.lseek I pid fd offset whence)
  | .dup pid fd min cloexec =>
    let (result, table) := (s.fds pid).duplicate fd min cloexec
    (⟨result, []⟩, { s with fds := update s.fds pid table })
  | .close pid fd => plain (s.closeFd pid fd)
  | .fork pid child => (⟨.ok child, []⟩, { s with fds := update s.fds child (s.fds pid) })
  | .elsewhere world => (⟨.ok 0, []⟩, { s with world := world })

/-- Nothing is open yet. -/
def boot (world : W) : Tasks W := ⟨world, [], fun _ => FdTable.empty⟩

def run (world : W) (cs : List (Call W)) : Tasks W :=
  runFrom (fun s c => (exec I s c).2) (boot world) cs

/-! ## What is allowed -/

/-- The access the open file of a descriptor was opened with. -/
def openedFor (pid fd : Nat) : Option FileOpenMode := (s.description pid fd).map (·.opened)

/-- Whether the call may change files: it opens one for writing, or goes through a descriptor that
was opened for writing. -/
def MayWrite : Call W → Prop
  | .open _ flags _ _ _ => flags &&& 3 ≠ 0
  | .read pid fd _ => ∃ mode, s.openedFor pid fd = some mode ∧ mode ≠ .readOnly
  | .write pid fd _ => ∃ mode, s.openedFor pid fd = some mode ∧ mode ≠ .readOnly
  | .writev pid fd _ => ∃ mode, s.openedFor pid fd = some mode ∧ mode ≠ .readOnly
  | .ftruncate pid fd _ => ∃ mode, s.openedFor pid fd = some mode ∧ mode ≠ .readOnly
  | _ => False

/-- Whether the call may return bytes of a file. -/
def MayRead : Call W → Prop
  | .read pid fd _ => ∃ mode, s.openedFor pid fd = some mode ∧ mode ≠ .writeOnly
  | _ => False

/-- The state of the files that a call starts from: what path names lead to is decided before
anything is done through a descriptor. -/
def start : Call W → W
  | .open _ _ _ _ world => world
  | .elsewhere world => world
  | _ => s.world

/-- A file has other bytes or another size. -/
def Changed (w w' : W) : Prop := ∃ i, I.content i w' ≠ I.content i w ∨ I.size i w' ≠ I.size i w

/-- **The access mode is respected**: a file's content or size is changed only by a call that may
write, and bytes are returned only by a call that may read. -/
def Respects (c : Call W) : Prop :=
  (Changed I (s.start c) (exec I s c).2.world → s.MayWrite c) ∧
    ((exec I s c).1.bytes ≠ [] → s.MayRead c)

/-- The call is no read through a descriptor that was opened for writing only, and no write through
one that was opened for reading only. -/
def Proper : Call W → Prop
  | .read pid fd _ => s.openedFor pid fd ≠ some .writeOnly
  | .write pid fd _ => s.openedFor pid fd ≠ some .readOnly
  | .writev pid fd _ => s.openedFor pid fd ≠ some .readOnly
  | _ => True

/-! ## The modes of the descriptions -/

def modes : List FileOpenMode := s.descriptions.map (·.opened)

/-- Two states with the same descriptors, opened for the same. -/
structure Same (s s' : Tasks W) : Prop where
  modes : s'.modes = s.modes
  fds : s'.fds = s.fds

theorem Same.refl : Same s s := ⟨rfl, rfl⟩

theorem Same.trans {s s' s'' : Tasks W} (h : Same s s') (h' : Same s' s'') : Same s s'' :=
  ⟨h'.modes.trans h.modes, h'.fds.trans h.fds⟩

variable (pid : Nat)

theorem openedFor_eq (fd : Nat) :
    s.openedFor pid fd = ((s.fds pid).get fd).bind fun entry => s.modes[entry.file]? := by
  rw [openedFor, description, map_bind]
  simp only [modes, getElem?_map, comp_def]

theorem Same.openedFor {s s' : Tasks W} (h : Same s s') (pid fd : Nat) :
    s'.openedFor pid fd = s.openedFor pid fd := by
  rw [openedFor_eq, openedFor_eq, h.modes, h.fds]

theorem same_onDescription (fd : Nat) (hf : ∀ d, (f d).opened = d.opened) :
    Same s (s.onDescription pid fd f) := by
  rw [onDescription]
  split
  · exact .refl s
  refine ⟨ext_getElem? fun j => ?_, rfl⟩
  simp only [modes, getElem?_map, getElem?_modify, Option.map_eq_map, Option.map_map]
  congr 1
  funext d
  split
  · exact hf d
  · rfl

theorem same_world (w : W) : Same s { s with world := w } := ⟨rfl, rfl⟩

theorem same_moved (w : W) (pid fd : Nat) (hf : ∀ d, (f d).opened = d.opened) :
    Same s ({ s with world := w }.onDescription pid fd f) :=
  (s.same_world w).trans (same_onDescription _ pid fd hf)

theorem onDescription_world (fd : Nat) (f : Description → Description) :
    (s.onDescription pid fd f).world = s.world := by
  rw [onDescription]
  split <;> rfl

/-! ## What each call does -/

theorem same_readFd (fd len : Nat) : Same s (s.readFd I pid fd len).2 := by
  rw [readFd]
  split
  · exact .refl s
  split
  · exact s.same_world _
  · exact s.same_moved _ pid fd fun _ => rfl

/-- What a write does: without an open file it changes nothing. -/
structure Written (pid fd : Nat) (s s' : Tasks W) : Prop where
  same : Same s s'
  world : s.openedFor pid fd = none → s'.world = s.world

section Written

variable {fd : Nat}

theorem Written.refl : Written pid fd s s := ⟨.refl s, fun _ => rfl⟩

theorem written_writeFd (buf : List UInt8) : Written pid fd s (s.writeFd I pid fd buf).2 := by
  constructor
  · rw [writeFd]
    split
    · exact .refl s
    split
    · split
      · exact s.same_world _
      · exact s.same_moved _ pid fd fun _ => rfl
    split
    · exact s.same_world _
    · exact s.same_moved _ pid fd fun _ => rfl
  · intro h
    rw [openedFor, map_eq_none_iff] at h
    rw [writeFd, h]

variable {s}

theorem Written.trans {s' s'' : Tasks W} (h : Written pid fd s s') (h' : Written pid fd s' s'') :
    Written pid fd s s'' := by
  refine ⟨h.same.trans h'.same, fun hs => ?_⟩
  exact (h'.world ((h.same.openedFor pid fd).trans hs)).trans (h.world hs)

theorem written_writevLoop (iov : List IoVec) (total : Nat) :
    Written pid fd s (writevLoop I pid fd iov total s).2 := by
  induction iov generalizing total s with
  | nil => exact .refl s pid
  | cons v iov ih =>
    cases v with
    | null len =>
      rw [writevLoop]
      split
      · exact ih total
      · exact .refl s pid
    | buffer buf =>
      rw [writevLoop]
      split
      · exact ih total
      have hfirst : Written pid fd s _ := s.written_writeFd I pid buf
      generalize writeFd I s pid fd buf = r at hfirst ⊢
      rcases r with ⟨_ | written, s'⟩
      · dsimp only
        split <;> exact hfirst
      · exact hfirst.trans pid (ih _)

end Written

/-- `ftruncate` goes by the mode in the descriptor. -/
theorem ftruncate_cases (fd size : Nat) :
    ∃ w, (s.ftruncate I pid fd size).2 = { s with world := w } ∧
    (w = s.world ∨
      ∃ entry, (s.fds pid).get fd = some entry ∧ entry.descriptor.mode ≠ .readOnly) := by
  rw [ftruncate]
  split
  · exact ⟨_, rfl, .inl rfl⟩
  split
  · exact ⟨_, rfl, .inl rfl⟩
  rename_i entry hentry
  split_ifs with hmode
  · exact ⟨_, rfl, .inl rfl⟩
  split
  · exact ⟨_, rfl, .inl rfl⟩
  · split <;> exact ⟨_, rfl, .inr ⟨entry, hentry, hmode⟩⟩

theorem same_lseek (fd : Nat) (offset : Int) (whence : Nat) :
    Same s (s.lseek I pid fd offset whence).2 ∧
      (s.lseek I pid fd offset whence).2.world = s.world := by
  rw [lseek]
  split
  · exact ⟨.refl s, rfl⟩
  split
  · exact ⟨.refl s, rfl⟩
  split
  · exact ⟨.refl s, rfl⟩
  · exact ⟨s.same_onDescription pid fd fun _ => rfl, s.onDescription_world pid fd _⟩

theorem description_onDescription {fd : Nat} {file : Description}
    (hfile : s.description pid fd = some file) (f : Description → Description) :
    (s.onDescription pid fd f).description pid fd = some (f file) := by
  obtain ⟨entry, hentry, hfile⟩ := bind_eq_some_iff.1 hfile
  rw [onDescription, hentry]
  refine bind_eq_some_iff.2 ⟨entry, hentry, ?_⟩
  simp [getElem?_modify_eq, hfile]

/-- **On a file without a device this is `Vfs.lseek`**: the answer is the same, and the cursor. -/
theorem lseek_eq {fd : Nat} {file : Description} (hfile : s.description pid fd = some file)
    (hdevice : I.seek file.inode s.world = none) (offset : Int) (whence : Nat) :
    (Vfs.lseek file.cursor (I.size file.inode s.world) offset whence).1 =
        (s.lseek I pid fd offset whence).1.map (fun pos => Int.bmod pos (2 ^ 64)) ∧
      (s.lseek I pid fd offset whence).2.description pid fd =
        some { file with
          cursor := (Vfs.lseek file.cursor (I.size file.inode s.world) offset whence).2 } := by
  rw [lseek, Vfs.lseek]
  cases seekFrom offset whence with
  | none => exact ⟨rfl, hfile⟩
  | some pos =>
    dsimp only
    rw [hfile]
    dsimp only
    rw [seek, hdevice]
    dsimp only
    cases Vfs.seek file.cursor (I.size file.inode s.world) pos with
    | error e => exact ⟨rfl, hfile⟩
    | ok cursor =>
      exact ⟨rfl, s.description_onDescription pid hfile fun d : Description =>
        { d with cursor := cursor }⟩

/-! ## The recorded mode -/

/-- The descriptors have the mode that their open files were opened with. -/
def Recorded : Prop := ∀ pid fd entry, (s.fds pid).get fd = some entry →
  s.modes[entry.file]? = some entry.descriptor.mode

theorem Same.recorded {s s' : Tasks W} (h : Same s s') (hr : s.Recorded) : s'.Recorded := by
  intro pid fd entry hentry
  rw [h.fds] at hentry
  rw [h.modes]
  exact hr pid fd entry hentry

/-- Descriptions may be added, and a table changed whose entries were there before or have the mode
of their description. -/
theorem Recorded.update {s s' : Tasks W} (hr : s.Recorded) {pid : Nat} {table : FdTable FdEntry}
    (hfds : s'.fds = update s.fds pid table) (hmodes : s.modes <+: s'.modes)
    (h : ∀ fd entry, table.get fd = some entry → (∃ pid fd, (s.fds pid).get fd = some entry) ∨
      s'.modes[entry.file]? = some entry.descriptor.mode) : s'.Recorded := by
  intro pid' fd entry hentry
  rw [hfds] at hentry
  have hold : ∀ pid0 fd0, (s.fds pid0).get fd0 = some entry →
      s'.modes[entry.file]? = some entry.descriptor.mode := by
    intro pid0 fd0 h0
    have hmode := hr pid0 fd0 entry h0
    obtain ⟨hlt, -⟩ := List.getElem?_eq_some_iff.1 hmode
    obtain ⟨more, hmore⟩ := hmodes
    rw [← hmore, getElem?_append_left hlt, hmode]
  by_cases hpid : pid' = pid
  · subst hpid
    rw [update_self] at hentry
    rcases h fd entry hentry with ⟨pid0, fd0, h0⟩ | hmode
    · exact hold pid0 fd0 h0
    · exact hmode
  · rw [update_of_ne hpid] at hentry
    exact hold pid' fd hentry

/-- A description is added, and one descriptor that leads to it. -/
theorem recorded_openFile (hr : s.Recorded) (pid flags : Nat) (inode : AnyInode) :
    (s.openFile pid flags inode).2.Recorded := by
  have hmodes : (s.openFile pid flags inode).2.modes = s.modes ++ [accessMode flags] := by
    simp only [openFile, modes, map_append, map_cons, map_nil]
  have hlength : s.modes.length = s.descriptions.length := length_map ..
  refine hr.update rfl (by rw [hmodes]; exact prefix_append _ _) fun fd entry hentry => ?_
  rcases FdTable.mem_insertFrom _ hentry with rfl | ⟨fd0, h0⟩
  · rw [hmodes, getElem?_append_right (Nat.le_of_eq hlength), hlength, Nat.sub_self]
    exact .inr rfl
  · exact .inl ⟨pid, fd0, h0⟩

/-- What `open` does: it truncates the file, if the flags ask for writing, and opens it; or it stops
before one of these. -/
theorem openWithMode_cases (flags : Nat) (absolute : Except Int Unit)
    (opened : Except Int (AnyInode × FileType)) :
    ∃ w, (w = s.world ∨ flags &&& 3 ≠ 0) ∧
      ((s.openWithMode I pid flags absolute opened).2 = { s with world := w } ∨
        ∃ inode, (s.openWithMode I pid flags absolute opened).2 =
          ({ s with world := w }.openFile pid flags inode).2) := by
  have hstop : ∃ w, (w = s.world ∨ flags &&& 3 ≠ 0) ∧
      (s = { s with world := w } ∨
        ∃ inode, s = ({ s with world := w }.openFile pid flags inode).2) :=
    ⟨s.world, .inl rfl, .inl rfl⟩
  unfold openWithMode
  split
  · exact hstop
  split
  · exact hstop
  split
  · exact hstop
  rename_i inode fileType
  split
  · exact hstop
  · rename_i hcheck
    have hwrite : flags &&& 3 ≠ 0 := by
      intro hread
      rw [checkOpened, if_pos hread] at hcheck
      split_ifs at hcheck
      cases hcheck
    split
    · exact ⟨_, .inr hwrite, .inl rfl⟩
    · exact ⟨_, .inr hwrite, .inr ⟨inode, rfl⟩⟩
  · exact ⟨s.world, .inl rfl, .inr ⟨inode, rfl⟩⟩

theorem recorded_openWithMode (hr : s.Recorded) (pid flags : Nat) (absolute : Except Int Unit)
    (opened : Except Int (AnyInode × FileType)) :
    (s.openWithMode I pid flags absolute opened).2.Recorded := by
  obtain ⟨w, -, h | ⟨inode, h⟩⟩ := s.openWithMode_cases I pid flags absolute opened
  · rw [h]
    exact (s.same_world w).recorded hr
  · rw [h]
    exact recorded_openFile _ ((s.same_world w).recorded hr) pid flags inode

theorem recorded_exec (hr : s.Recorded) (c : Call W) : (exec I s c).2.Recorded := by
  cases c with
  | «open» pid flags absolute opened world =>
    exact recorded_openWithMode I _ ((s.same_world world).recorded hr) pid flags absolute opened
  | read pid fd len =>
    cases len with
    | none => exact hr
    | some len => exact (s.same_readFd I pid fd len).recorded hr
  | write pid fd buf =>
    cases buf with
    | none => exact hr
    | some buf => exact (s.written_writeFd I pid buf).same.recorded hr
  | writev pid fd iov =>
    cases iov with
    | none => exact hr
    | some iov => exact (written_writevLoop I pid iov 0).same.recorded hr
  | ftruncate pid fd size =>
    obtain ⟨w, hw, -⟩ := s.ftruncate_cases I pid fd size
    rw [exec, plain, hw]
    exact (s.same_world w).recorded hr
  | lseek pid fd offset whence => exact (s.same_lseek I pid fd offset whence).1.recorded hr
  | dup pid fd min cloexec =>
    exact hr.update rfl prefix_rfl fun other entry h =>
      .inl ⟨pid, FdTable.mem_duplicate _ h⟩
  | close pid fd =>
    rw [exec, closeFd]
    split
    · exact hr
    rename_i table heq
    refine hr.update rfl prefix_rfl fun other entry h => .inl ⟨pid, other, ?_⟩
    have htable : table = ((s.fds pid).remove fd).2 := by rw [heq]
    rw [htable] at h
    exact FdTable.mem_remove _ h
  | fork pid child => exact hr.update rfl prefix_rfl fun fd entry h => .inl ⟨pid, fd, h⟩
  | elsewhere world => exact (s.same_world world).recorded hr

/-- The descriptors of every run have the mode their open files were opened with. -/
theorem recorded_run (world : W) (cs : List (Call W)) : (run I world cs).Recorded := by
  refine runFrom_induction (P := Recorded) ?_ (fun s c hr => recorded_exec I s hr c) cs
  intro pid fd entry h
  cases h

/-! ## What each call does to the files -/

theorem not_changed {w w' : W} (h : w' = w) : ¬ Changed I w w' := by
  rintro ⟨i, hi | hi⟩
  · exact hi (by rw [h])
  · exact hi (by rw [h])

theorem readFd_not_changed (fd len : Nat) :
    ¬ Changed I s.world (s.readFd I pid fd len).2.world := by
  rw [readFd]
  split
  · exact not_changed I rfl
  rename_i file _
  have hkeeps := I.read_keeps file.inode file.cursor len s.world
  have hread : ¬ Changed I s.world (I.read file.inode file.cursor len s.world).2 := by
    rintro ⟨j, hj | hj⟩
    · exact hj (hkeeps j).1
    · exact hj (hkeeps j).2
  generalize I.read file.inode file.cursor len s.world = r at hread ⊢
  rcases r with ⟨_ | bytes, w⟩
  · exact hread
  dsimp only
  rw [onDescription_world]
  exact hread

theorem readFd_bytes (fd len : Nat) (h : s.openedFor pid fd = none) :
    (s.readFd I pid fd len).1.bytes = [] := by
  rw [openedFor, map_eq_none_iff] at h
  rw [readFd, h]

theorem openWithMode_world (flags : Nat) (absolute : Except Int Unit)
    (opened : Except Int (AnyInode × FileType)) (h : flags &&& 3 = 0) :
    (s.openWithMode I pid flags absolute opened).2.world = s.world := by
  obtain ⟨w, hw | hw, hopen | ⟨inode, hopen⟩⟩ := s.openWithMode_cases I pid flags absolute opened
  · rw [hopen, hw]
  · rw [hopen, hw, openFile]
  · exact absurd h hw
  · exact absurd h hw

theorem mayWrite_of_changed {fd : Nat} {s' : Tasks W} (h : Written pid fd s s')
    (hproper : s.openedFor pid fd ≠ some .readOnly) (hchanged : Changed I s.world s'.world) :
    ∃ mode, s.openedFor pid fd = some mode ∧ mode ≠ .readOnly := by
  rcases hmode : s.openedFor pid fd with _ | mode
  · exact absurd hchanged (not_changed I (h.world hmode))
  refine ⟨mode, rfl, ?_⟩
  rintro rfl
  exact hproper hmode

theorem respects_of_unchanged {c : Call W} (hworld : (exec I s c).2.world = s.start c)
    (hbytes : (exec I s c).1.bytes = []) : s.Respects I c :=
  ⟨fun hchanged => absurd hchanged (not_changed I hworld), fun h => absurd hbytes h⟩

/-- One call of a state whose descriptors have the right mode. -/
theorem respects_of_proper (hr : s.Recorded) {c : Call W} (hc : s.Proper c) : s.Respects I c := by
  cases c with
  | «open» pid flags absolute opened world =>
    refine ⟨fun hchanged hflags => not_changed I ?_ hchanged, fun h => absurd rfl h⟩
    exact openWithMode_world I _ pid flags absolute opened hflags
  | read pid fd len =>
    rcases len with _ | len
    · exact s.respects_of_unchanged I rfl rfl
    refine ⟨fun hchanged => absurd hchanged (s.readFd_not_changed I pid fd len), fun h => ?_⟩
    rcases hmode : s.openedFor pid fd with _ | mode
    · exact absurd (s.readFd_bytes I pid fd len hmode) h
    refine ⟨mode, hmode, ?_⟩
    rintro rfl
    exact hc hmode
  | write pid fd buf =>
    rcases buf with _ | buf
    · exact s.respects_of_unchanged I rfl rfl
    exact ⟨s.mayWrite_of_changed I pid (s.written_writeFd I pid buf) hc, fun h => absurd rfl h⟩
  | writev pid fd iov =>
    rcases iov with _ | iov
    · exact s.respects_of_unchanged I rfl rfl
    exact ⟨s.mayWrite_of_changed I pid (written_writevLoop I pid iov 0) hc, fun h => absurd rfl h⟩
  | ftruncate pid fd size =>
    obtain ⟨w, hw, rfl | ⟨entry, hentry, hmode⟩⟩ := s.ftruncate_cases I pid fd size
    · exact s.respects_of_unchanged I (congrArg world hw) rfl
    refine ⟨fun _ => ⟨entry.descriptor.mode, ?_, hmode⟩, fun h => absurd rfl h⟩
    rw [openedFor_eq, hentry]
    exact hr pid fd entry hentry
  | lseek pid fd offset whence =>
    exact s.respects_of_unchanged I (s.same_lseek I pid fd offset whence).2 rfl
  | dup pid fd min cloexec => exact s.respects_of_unchanged I rfl rfl
  | close pid fd =>
    refine s.respects_of_unchanged I ?_ rfl
    rw [exec, closeFd]
    split <;> rfl
  | fork pid child => exact s.respects_of_unchanged I rfl rfl
  | elsewhere world => exact s.respects_of_unchanged I rfl rfl

/-- **What is read and written through descriptors**: in a run that does not read through a
descriptor that was opened for writing only, nor write through one that was opened for reading only,
every call respects the access its descriptor was opened with. -/
theorem access_respected (world : W) (cs : List (Call W))
    (h : ∀ cs' c, cs' ++ [c] <+: cs → (run I world cs').Proper c) :
    ∀ cs' c, cs' ++ [c] <+: cs → (run I world cs').Respects I c := by
  intro cs' c hstart
  exact respects_of_proper I _ (recorded_run I world cs') (h cs' c hstart)

end Tasks

/-! ## A machine with one memory file system -/

def bytesOf : Memfs.Storage → List UInt8
  | .directory _ => []
  | .ram data => data
  | .sparse f => (f.read 0 (List.replicate f.size 0)).2

/-- An operation on an inode of the file system.  One that waits for a mutex for ever does not
return; in a machine where nobody else runs, every mutex is free. -/
def onMemory {α : Type} (fsId : Nat) (op : Nat → Memfs.Op α) :
    AnyInode → Memfs.World → Except FsError α × Memfs.World
  | .memory fs i, w =>
    if fs = fsId then
      match Prog.run (op i) w with
      | (some result, w) => (result, w)
      | (none, w) => (.error .busy, w)
    else (.error .notSupported, w)
  | .foreign _, w => (.error .notSupported, w)

def memoryStorage (fsId : Nat) (w : Memfs.World) : AnyInode → Memfs.Storage
  | .memory fs i => if fs = fsId then (w.fs.node i).storage else .ram []
  | .foreign _ => .ram []

theorem onMemory_fs {α : Type} (fsId : Nat) {op : Nat → Memfs.Op α}
    (h : ∀ i, Prog.Within True (Prog.Same Memfs.World.fs) (op i)) (i : AnyInode)
    (w : Memfs.World) : (onMemory fsId op i w).2.fs = w.fs := by
  cases i with
  | foreign f => rfl
  | memory fs i =>
    rw [onMemory]
    split
    · have hkeeps := (h i w).2
      generalize Prog.run (op i) w = r at hkeeps ⊢
      rcases r with ⟨_ | result, w'⟩ <;> exact hkeeps
    · rfl

/-- Reading takes the inode's mutex and gives it back. -/
theorem read_preserves_fs (i offset : Nat) (buf : List UInt8) :
    Prog.Within True (Prog.Same Memfs.World.fs) (Memfs.read i offset buf) := by
  have hdata : Prog.Within True (Prog.Same Memfs.World.fs) (Memfs.readData i offset buf) := by
    refine (Prog.within_load _).bind fun storage => ?_
    cases storage with
    | directory entries => exact Prog.within_fail _
    | ram data => exact Prog.within_ret _
    | sparse f => exact Prog.within_ret _
  exact Prog.Within.bind (Prog.within_await fun _ => rfl) fun _ => hdata.andFinally fun _ => rfl

/-- The inodes of a machine that has one file system, which is kept in memory. -/
def memoryInodes (fsId : Nat) : Inodes Memfs.World where
  read i offset len := onMemory fsId (fun i =>
    (Memfs.read i offset (List.replicate len 0)).map fun (count, buf) => buf.take count) i
  write i offset buf := onMemory fsId (fun i => Memfs.write i offset buf) i
  append i buf := onMemory fsId (fun i => Memfs.append i buf) i
  truncate i size := onMemory fsId (fun i => Memfs.truncate i size) i
  size i w := (memoryStorage fsId w i).size
  seek _ _ := none
  content i w := bytesOf (memoryStorage fsId w i)
  read_keeps i offset len w j := by
    have hfs := onMemory_fs fsId (fun i =>
      (read_preserves_fs i offset (List.replicate len 0)).bind fun result =>
        Prog.within_ret (result.2.take result.1)) i w
    have hstorage : memoryStorage fsId (onMemory fsId (fun i =>
        (Memfs.read i offset (List.replicate len 0)).map
          fun (count, buf) => buf.take count) i w).2 j
        = memoryStorage fsId w j := by
      cases j with
      | foreign f => rfl
      | memory fs j => exact congrArg (fun fs' : Memfs.Fs =>
          if fs = fsId then (fs'.node j).storage else .ram []) hfs
    exact ⟨congrArg bytesOf hstorage, congrArg Memfs.Storage.size hstorage⟩

def threeBytes : Memfs.World :=
  (Memfs.World.boot 7 none 1 []).onNode 5 fun n => { n with storage := .ram [1, 2, 3] }

/-- Task 1 opens the file with these flags. -/
def openThreeBytes (flags : Nat) : Call Memfs.World :=
  .open 1 flags (.ok ()) (.ok (.memory 7 5, .regular)) threeBytes

/-- **A file that was opened for writing is read, and one opened for reading is written.** -/
theorem Tasks.access_not_checked :
    ¬ (Tasks.run (memoryInodes 7) threeBytes [openThreeBytes 1]).Respects (memoryInodes 7)
        (.read 1 0 (some 3)) ∧
      ¬ (Tasks.run (memoryInodes 7) threeBytes [openThreeBytes 0]).Respects (memoryInodes 7)
        (.write 1 0 (some [9])) := by
  constructor
  · rintro ⟨-, hread⟩
    obtain ⟨mode, hmode, hne⟩ := hread (by decide)
    have hopened : (Tasks.run (memoryInodes 7) threeBytes [openThreeBytes 1]).openedFor 1 0 =
        some .writeOnly := by decide
    exact hne (some.inj (hmode.symm.trans hopened))
  · rintro ⟨hwrite, -⟩
    obtain ⟨mode, hmode, hne⟩ := hwrite ⟨.memory 7 5, .inl (by decide)⟩
    have hopened : (Tasks.run (memoryInodes 7) threeBytes [openThreeBytes 0]).openedFor 1 0 =
        some .readOnly := by decide
    exact hne (some.inj (hmode.symm.trans hopened))

/-- A file is opened for reading, and read. -/
theorem Tasks.access_respected_by_reader :
    (Tasks.run (memoryInodes 7) threeBytes [openThreeBytes 0]).Respects (memoryInodes 7)
      (.read 1 0 (some 3)) := by
  refine Tasks.access_respected (memoryInodes 7) threeBytes [openThreeBytes 0, .read 1 0 (some 3)]
    ?_ _ _ prefix_rfl
  refine (forall_event_concat (fun cs' c => (Tasks.run (memoryInodes 7) threeBytes cs').Proper c)
    [openThreeBytes 0] (.read 1 0 (some 3))).2 ⟨?_, ?_⟩
  · exact (forall_event_concat (fun cs' c => (Tasks.run (memoryInodes 7) threeBytes cs').Proper c)
      [] (openThreeBytes 0)).2 ⟨forall_event_nil, trivial⟩
  have hopened : (Tasks.run (memoryInodes 7) threeBytes [openThreeBytes 0]).openedFor 1 0 =
      some .readOnly := by decide
  intro h
  cases hopened.symm.trans h

end Krust.Process
