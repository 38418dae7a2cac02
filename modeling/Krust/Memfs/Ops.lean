import Krust.Lib.Pool
import Krust.Memfs.Sparse
import Mathlib.Data.Finset.Basic

/-!
# The state and the operations of a memory file system

One `MemoryFs` is a family of inodes under a pair of counters.  Inodes are reference counted: a
directory entry, an open file and a running operation each hold a reference, and an inode goes away
with the last of them.  In this model an inode is named by its number, `Fs.live` is the set of
inodes that still exist, and `Fs.node` is what each of them holds; the weak references of
`Shared::namespace` are the list `Fs.nodes`, which may name inodes that are gone.

A `World` is the file system together with what surrounds a running operation.

* `locks` are the mutexes that are held, by anybody.
* `faults` decides the fallible allocations: each of them takes the next element and fails if it
  is `true`.  A world whose list is used up has memory to spare.
* `tokens` is what running code owns: charges it has reserved and not yet handed to an inode or a
  page, references it has cloned and not yet dropped or stored, and the number of an inode it is
  about to allocate.  No code looks at it.
* `handles` counts the references that are kept from one operation to the next (open files,
  working directories), and `mounted` says whether the `MemoryFs` still exists, which holds one
  reference to the root.

Inode numbers and link counts are natural numbers: the 64-bit counters behind them would have to
be incremented 2^64 times before the difference shows.
-/

set_option autoImplicit false

namespace Krust.Memfs

open Prog List Function

/-! ## Inodes -/

/-- `Storage`.  A directory entry is a name and the inode it refers to. -/
inductive Storage
  | directory (entries : List (Str × Nat))
  | ram (data : List UInt8)
  | sparse (file : SparseFile)

def Storage.pageCount : Storage → Nat
  | .sparse f => f.pages.length
  | _ => 0

def Storage.list : Storage → List (Str × Nat)
  | .directory entries => entries
  | _ => []

/-- `MemoryInode`, with the fields of its `InodeData`. -/
structure MemoryInode where
  parent : Nat
  links : Nat
  fileType : FileType
  uid : Nat
  gid : Nat
  mode : Nat
  storage : Storage

inductive Resource
  | page
  | inode
  deriving DecidableEq, Repr

/-- `MemoryFs` with its `Shared`, and the counter the inode numbers come from. -/
structure Fs where
  fsId : Nat
  limits : Option TmpfsOptions
  pages : Nat
  inodes : Nat
  /-- `Shared::namespace`. -/
  nodes : List Nat
  /-- The inodes somebody holds a reference to. -/
  live : Finset Nat
  node : Nat → MemoryInode
  root : Nat
  nextIno : Nat

variable {α : Type} (fs : Fs) {name : Str} (limits : Option TmpfsOptions) (fileType : FileType)
  (parent : Nat)

namespace Fs

/-- `Shared::counter`: the counter of a resource. -/
def counter (fs : Fs) : Resource → Nat
  | .page => fs.pages
  | .inode => fs.inodes

/-- `Shared::counter`: the limit of a resource. -/
def limit (fs : Fs) : Resource → Nat
  | .page => match fs.limits with
    | some l => l.size / PAGE_SIZE
    | none => USIZE_MAX
  | .inode => match fs.limits with
    | some l => l.nrInodes
    | none => USIZE_MAX

def setCounter (fs : Fs) (r : Resource) (n : Nat) : Fs :=
  match r with
  | .page => { fs with pages := n }
  | .inode => { fs with inodes := n }

def modifyNode (fs : Fs) (i : Nat) (f : MemoryInode → MemoryInode) : Fs :=
  { fs with node := Function.update fs.node i (f (fs.node i)) }

@[simp] theorem modifyNode_node_self (i : Nat) (f : MemoryInode → MemoryInode) :
    (fs.modifyNode i f).node i = f (fs.node i) := update_self ..

theorem modifyNode_node_of_ne {i j : Nat} (h : j ≠ i) (f : MemoryInode → MemoryInode) :
    (fs.modifyNode i f).node j = fs.node j := update_of_ne h ..

@[simp] theorem setCounter_node (fs : Fs) (r : Resource) (n : Nat) :
    (fs.setCounter r n).node = fs.node := by cases r <;> rfl

def entries (fs : Fs) (d : Nat) : List (Str × Nat) := (fs.node d).storage.list

/-- `FileSystem::statfs`. -/
def statfs (fs : Fs) : Except FsError FsStats :=
  match fs.limits with
  | none => .error .notSupported
  | some limits => .ok {
      magic := 0x01021994
      blockSize := PAGE_SIZE
      blocks := limits.size / PAGE_SIZE
      blocksFree := limits.size / PAGE_SIZE - fs.pages
      files := limits.nrInodes
      filesFree := limits.nrInodes - fs.inodes
      nameMax := 255 }

end Fs

/-! ## The world around an operation -/

/-- The mutexes of a file system. -/
inductive Lock
  /-- `Shared::namespace`. -/
  | nodes
  /-- `MemoryInode::inner`. -/
  | inner (ino : Nat)
  deriving DecidableEq, Repr

/-- What running code can own. -/
inductive Token
  /-- A `Charge`. -/
  | charge (r : Resource)
  /-- An `Arc<MemoryInode>`. -/
  | arc (ino : Nat)
  /-- An inode number that no inode has been given yet. -/
  | number (ino : Nat)
  deriving DecidableEq, Repr

/-- The file system and what surrounds a running operation. -/
structure World where
  fs : Fs
  locks : List Lock
  /-- Whether the next allocations fail. -/
  faults : List Bool
  tokens : Token → Nat
  /-- References kept between operations. -/
  handles : Nat → Nat
  /-- Whether the `MemoryFs`, with its reference to the root, still exists. -/
  mounted : Bool

/-- A number no inode has been given. -/
def MemoryInode.absent : MemoryInode := ⟨0, 0, .regular, 0, 0, 0, .ram []⟩

namespace World

/-- `MemoryFs::build` has allocated the `Shared`, and there is no inode yet. -/
def boot (fsId : Nat) (limits : Option TmpfsOptions) (nextIno : Nat) (faults : List Bool) :
    World where
  fs := {
    fsId := fsId
    limits := limits
    pages := 0
    inodes := 0
    nodes := []
    live := ∅
    node := fun _ => MemoryInode.absent
    root := 0
    nextIno := nextIno }
  locks := []
  faults := faults
  tokens := 0
  handles := 0
  mounted := false

/-- Running code has become the owner of `n` more of these. -/
def gain (w : World) (t : Token) (n : Nat) : World :=
  { w with tokens := w.tokens + Pi.single t n }

/-- Running code has given one of these away. -/
def lose (w : World) (t : Token) : World := { w with tokens := w.tokens - Pi.single t 1 }

def onFs (w : World) (f : Fs → Fs) : World := { w with fs := f w.fs }

def onNode (w : World) (i : Nat) (f : MemoryInode → MemoryInode) : World :=
  w.onFs fun fs => fs.modifyNode i f

@[simp] theorem onFs_fs (w : World) (f : Fs → Fs) : (w.onFs f).fs = f w.fs := rfl

@[simp] theorem onNode_fs (w : World) (i : Nat) (f : MemoryInode → MemoryInode) :
    (w.onNode i f).fs = w.fs.modifyNode i f := rfl

/-- Nobody holds a reference to this inode any more. -/
def droppable (w : World) (i : Nat) : Bool :=
  decide (i ∈ w.fs.live) && w.tokens (.arc i) == 0 && w.handles i == 0 &&
    !(w.mounted && i == w.fs.root) && decide (∀ d ∈ w.fs.live, ∀ e ∈ w.fs.entries d, e.2 ≠ i)

end World

abbrev Op := Prog World FsError

/-! ## Operations

Every operation is a program of atomic actions: one mutex taken or released, one atomic counter
read or changed, one allocation, one look at or change of data that a held mutex protects.
Anything between two actions may be interleaved with other operations.
-/

variable {l : Lock} {p : Op α} {Q : Option (Except FsError α) → World → Prop}

section Operations

/-! ## Locks, references, allocations and charges -/

def lock (l : Lock) : Op Unit :=
  await (fun w => decide (l ∉ w.locks)) fun w => { w with locks := l :: w.locks }

/-- Run `p` with the mutex held; the guard is dropped on every way out. -/
def withLock {α : Type} (l : Lock) (p : Op α) : Op α := do
  lock l
  p.andFinally fun w => { w with locks := w.locks.erase l }

variable {w : World}

theorem ends_withLock (hl : l ∉ w.locks) :
    Ends (withLock l p) Q w ↔
      Ends p (OnReturn (fun w' => { w' with locks := w'.locks.erase l }) Q)
        { w with locks := l :: w.locks } := by
  rw [withLock, bind_eq, lock, ends_await, if_pos (decide_eq_true hl), ends_andFinally]

/-- A mutex that is already held is waited for: with nobody else around, forever. -/
theorem ends_withLock_of_mem (hl : l ∈ w.locks) : Ends (withLock l p) Q w ↔ Q none w := by
  rw [withLock, bind_eq, lock, ends_await, if_neg (by simpa using hl)]

/-- What an execution with a mutex looks like from outside. -/
theorem exec_withLock {rely : World → World → Prop} {w' : World} {r : Except FsError α}
    (h : Exec rely (withLock l p) w r w') :
    ∃ w1 w2 w3, rely w w1 ∧ Exec rely p { w1 with locks := l :: w1.locks } r w2 ∧ rely w2 w3 ∧
      w' = { w3 with locks := w3.locks.erase l } := by
  cases h with
  | @act _ _ _ _ w1 _ _ b _ henv hf hk =>
    have hf' : (if decide (l ∉ w1.locks) = true then
        some ((), { w1 with locks := l :: w1.locks }) else none) = some (b, _) := hf
    split at hf'
    · cases hf'
      obtain ⟨w2, w3, hp, henv', rfl⟩ := exec_andFinally hk
      exact ⟨w1, w2, w3, henv, hp, henv', rfl⟩
    · exact absurd hf' (by simp)

/-- Run `p` with a reference that is dropped on every way out. -/
def droppingArc {α : Type} (i : Nat) (p : Op α) : Op α :=
  p.andFinally fun w => w.lose (.arc i)

/-- A fallible allocation: `try_reserve`, `Arc::try_new`, `OwnedPage::new`. -/
def allocate : Op Unit := do
  let failed ← step fun w => (w.faults.headD false, { w with faults := w.faults.tail })
  failIf failed .outOfMemory

theorem ends_allocate {Q : Option (Except FsError Unit) → World → Prop} :
    Ends allocate Q w ↔
      if w.faults.headD false then
        Q (some (.error .outOfMemory)) { w with faults := w.faults.tail }
      else Q (some (.ok ())) { w with faults := w.faults.tail } := by
  rw [allocate, bind_eq, ends_step]
  cases w.faults.headD false <;> exact Iff.rfl

/-- `Shared::reserve`. -/
def reserve (r : Resource) : Op Unit := do
  let reserved ← step fun w =>
    if w.fs.counter r < w.fs.limit r then
      (true, (w.onFs fun fs => fs.setCounter r (fs.counter r + 1)).gain (.charge r) 1)
    else (false, w)
  failIf (!reserved) .noSpace

theorem ends_reserve {r : Resource} {k : Unit → Op α} :
    Ends (Prog.bind (reserve r) k) Q w ↔
      if w.fs.counter r < w.fs.limit r then
        Ends (k ()) Q ((w.onFs fun fs => fs.setCounter r (fs.counter r + 1)).gain (.charge r) 1)
      else Q (some (.error .noSpace)) w := by
  rw [reserve, bind_eq, bind_assoc, ends_step]
  split <;> rfl

/-- `AtomicUsize::fetch_sub(1)`, which wraps around. -/
def fetchSub (n : Nat) : Nat := if n = 0 then USIZE_MAX else n - 1

/-- `Charge::drop`. -/
def dropCharge (r : Resource) : Op Unit :=
  update fun w => (w.onFs fun fs => fs.setCounter r (fetchSub (fs.counter r))).lose (.charge r)

/-! ## Names and entries -/

/-- `MemoryInode::validate_name`. -/
def validateName (name : Str) : Except FsError Unit :=
  if name = [] ∨ name = ['.'] ∨ name = ['.', '.'] ∨ '/' ∈ name ∨ '\x00' ∈ name then
    .error .invalidArgument
  else if 255 < utf8Len name then .error .nameTooLong
  else .ok ()

/-- `entries.iter().position(|(n, _)| n == name)`, and the inode found there. -/
def findEntry (entries : List (Str × Nat)) (name : Str) : Except FsError (Nat × Nat) :=
  match entries.findIdx? fun e => e.1 == name with
  | none => .error .notFound
  | some index => match entries[index]? with
    | none => .error .notFound
    | some e => .ok (index, e.2)

theorem findEntry_ok {entries : List (Str × Nat)} {index i : Nat}
    (h : findEntry entries name = .ok (index, i)) : entries[index]? = some (name, i) := by
  rw [findEntry] at h
  rcases hidx : entries.findIdx? fun e => e.1 == name with _ | k
  · simp [hidx] at h
  obtain ⟨hlt, hname, -⟩ := findIdx?_eq_some_iff_getElem.1 hidx
  simp only [hidx, getElem?_eq_getElem hlt, Except.ok.injEq, Prod.mk.injEq] at h
  obtain ⟨rfl, rfl⟩ := h
  rw [getElem?_eq_getElem hlt, ← beq_iff_eq.1 hname]

theorem findEntry_error {entries : List (Str × Nat)} {e : FsError}
    (h : findEntry entries name = .error e) : name ∉ entries.map Prod.fst := by
  rw [findEntry] at h
  cases hidx : entries.findIdx? fun e => e.1 == name with
  | none =>
    intro hmem
    obtain ⟨x, hx, rfl⟩ := List.mem_map.1 hmem
    have := findIdx?_eq_none_iff.1 hidx x hx
    simp at this
  | some k =>
    obtain ⟨hlt, -⟩ := findIdx?_eq_some_iff_getElem.1 hidx
    simp [hidx, getElem?_eq_getElem hlt] at h

/-- `MemoryInode::entries`. -/
def Storage.entries : Storage → Except FsError (List (Str × Nat))
  | .directory entries => .ok entries
  | _ => .error .notADirectory

/-- The entries of a directory whose mutex is held. -/
def entriesOf (d : Nat) : Op (List (Str × Nat)) := do
  let storage ← load fun w => (w.fs.node d).storage
  ofExcept storage.entries

def onEntries (f : List (Str × Nat) → List (Str × Nat)) (n : MemoryInode) : MemoryInode :=
  match n.storage with
  | .directory entries => { n with storage := .directory (f entries) }
  | _ => n

/-- `entries.push((name, inode))`. -/
def pushEntry (d : Nat) (name : Str) (i : Nat) : Op Unit :=
  update fun w => w.onNode d (onEntries fun es => es ++ [(name, i)])

/-- `entries.remove(index)`. -/
def removeEntry (d index : Nat) : Op Unit :=
  update fun w => w.onNode d (onEntries fun es => es.eraseIdx index)

/-- Look up a name in a directory and clone the reference found there. -/
def cloneEntry (d : Nat) (name : Str) : Op (Nat × Nat) := do
  let found ← step fun w =>
    match (w.fs.node d).storage.entries with
    | .error e => (.error e, w)
    | .ok entries => match findEntry entries name with
      | .error e => (.error e, w)
      | .ok (index, i) => (.ok (index, i), w.gain (.arc i) 1)
  ofExcept found

def addLink (d : Nat) : Op Unit :=
  update fun w => w.onNode d fun n => { n with links := n.links + 1 }

def subLink (d : Nat) : Op Unit :=
  update fun w => w.onNode d fun n => { n with links := fetchSub n.links }

def fileTypeOf (i : Nat) : Op FileType := load fun w => (w.fs.node i).fileType

/-- `MemoryInode::detach`. -/
def detach (d child : Nat) : Op Unit := do
  update fun w => w.onNode child fun n => { n with links := 0 }
  let fileType ← fileTypeOf child
  if fileType = .directory then subLink d

/-! ## Creating inodes -/

/-- The inode `MemoryInode::new` allocates. -/
def freshInode (limits : Option TmpfsOptions) (fileType : FileType) (parent : Nat) : MemoryInode :=
  let options := limits.getD TmpfsOptions.default
  { parent := parent
    links := if fileType = .directory then 2 else 1
    fileType := fileType
    uid := options.uid
    gid := options.gid
    mode :=
      if parent = 0 then options.mode
      else if fileType = .directory then 0o755
      else if fileType = .regular then 0o644
      else 0o777
    storage :=
      if fileType = .directory then .directory []
      else if limits.isSome then .sparse SparseFile.empty
      else .ram [] }

theorem freshInode_list : (freshInode limits fileType parent).storage.list = [] := by
  rw [freshInode]
  dsimp only
  split
  · rfl
  · split <;> rfl

theorem freshInode_pageCount : (freshInode limits fileType parent).storage.pageCount = 0 := by
  rw [freshInode]
  dsimp only
  split
  · rfl
  · split <;> rfl

/-- The new inode exists: it has taken its charge and its number, and running code holds the one
reference. -/
def World.addInode (w : World) (ino : Nat) (fileType : FileType) (parent : Nat) : World :=
  (((w.onFs fun fs => { fs with
      live := insert ino fs.live
      node := Function.update fs.node ino (freshInode fs.limits fileType parent) }).lose
    (.charge .inode)).lose (.number ino)).gain (.arc ino) 1

/-- `NEXT_INO.fetch_add(1)`. -/
def takeNumber : Op Nat :=
  step fun w => (w.fs.nextIno, (w.onFs fun fs => { fs with nextIno := fs.nextIno + 1 }).gain
    (.number w.fs.nextIno) 1)

/-- The value that was meant for a new inode is dropped, and its charge with it. -/
def dropValue (ino : Nat) : Op Unit := do
  dropCharge .inode
  update fun w => w.lose (.number ino)

/-- `MemoryInode::new`. -/
def newInode (fileType : FileType) (parent : Nat) : Op Nat := do
  reserve .inode
  let ino ← takeNumber
  allocate.onFail (dropValue ino)
  update fun w => w.addInode ino fileType parent
  return ino

/-- `nodes.push(Arc::downgrade(&inode))`. -/
def pushNode (i : Nat) : Op Unit :=
  update fun w => w.onFs fun fs => { fs with nodes := fs.nodes ++ [i] }

/-- `nodes.retain(|node| node.strong_count() > 0)`. -/
def retainNodes : Op Unit :=
  update fun w => w.onFs fun fs =>
    { fs with nodes := fs.nodes.filter fun i => decide (i ∈ fs.live) }

/-- `MemoryFs::build`, from the `Shared` on. -/
def build : Op Unit := do
  let root ← newInode .directory 0
  (withLock .nodes do
    allocate
    pushNode root).onFail (update fun w => w.lose (.arc root))
  update fun w =>
    { (w.onFs fun fs => { fs with root := root }).lose (.arc root) with mounted := true }

/-- A directory has one more subdirectory. -/
def linkDirectory (d : Nat) (fileType : FileType) : Op Unit :=
  if fileType = .directory then addLink d else return ()

/-- `Inode::create`. -/
def create (self : Nat) (name : Str) (fileType : FileType) : Op Nat := do
  ofExcept (validateName name)
  failIf (!(fileType == .regular || fileType == .directory || fileType == .symlink)) .notSupported
  withLock .nodes do
    let links ← load fun w => (w.fs.node self).links
    failIf (links == 0) .notFound
    withLock (.inner self) do
      let entries ← entriesOf self
      failIf (entries.any fun e => e.1 == name) .alreadyExists
      allocate -- name_copy
      allocate -- entries.try_reserve
      retainNodes
      allocate -- nodes.try_reserve
      let inode ← newInode fileType self
      pushNode inode
      linkDirectory self fileType
      pushEntry self name inode
      return inode

/-! ## Removing and renaming -/

/-- `matches!(&inner.storage, Storage::Directory(entries) if !entries.is_empty())`. -/
def Storage.nonempty : Storage → Bool
  | .directory entries => !entries.isEmpty
  | _ => false

/-- Fail unless the directory is empty, which takes its mutex to see. -/
def checkEmpty (d : Nat) : Op Unit :=
  withLock (.inner d) do
    let storage ← load fun w => (w.fs.node d).storage
    failIf storage.nonempty .notEmpty

/-- The checks of `unlink` on the inode to be removed. -/
def checkUnlink (child : Nat) (directory : Bool) : Op Unit := do
  let fileType ← fileTypeOf child
  if fileType = .directory then
    failIf (!directory) .isADirectory
    checkEmpty child
  else failIf directory .notADirectory

/-- `Inode::unlink`. -/
def unlink (self : Nat) (name : Str) (directory : Bool) : Op Unit := do
  ofExcept (validateName name)
  withLock .nodes do
    withLock (.inner self) do
      let entries ← entriesOf self
      let (index, child) ← ofExcept (findEntry entries name)
      checkUnlink child directory
      detach self child
      removeEntry self index

/-- `MemoryInode::can_replace`. -/
def canReplace (source target : Nat) : Op Unit := do
  let sourceType ← fileTypeOf source
  let targetType ← fileTypeOf target
  if sourceType = .directory then
    if targetType = .directory then checkEmpty target else fail .notADirectory
  else failIf (targetType == .directory) .isADirectory

/-- The ancestor walk of `rename`.  Every round but the last finds its inode in the list, so a walk
that is longer than the list has come back to where it was and goes on forever. -/
def ancestorWalk (nodes : List Nat) (source : Nat) : Nat → Nat → Op Unit
  | 0, _ => hang
  | fuel + 1, ancestor =>
    if ancestor = 0 then return ()
    else if ancestor = source then fail .invalidArgument
    else do
      let upgraded ← load fun w => nodes.find? fun i => decide (i ∈ w.fs.live) && i == ancestor
      match upgraded with
      | none => fail .notFound
      | some i => do
        let parent ← load fun w => (w.fs.node i).parent
        ancestorWalk nodes source fuel parent

/-- Give the first entry that refers to `i` another name. -/
def renameFirst (i : Nat) (newName : Str) : List (Str × Nat) → List (Str × Nat)
  | [] => []
  | e :: es => if e.2 = i then (newName, e.2) :: es else e :: renameFirst i newName es

/-- The two ways an entry is replaced: the inode in the way is detached and its entry removed. -/
def removeTarget (d : Nat) : Except FsError (Nat × Nat) → Op Unit
  | .ok (index, target) => do
    detach d target
    removeEntry d index
  | .error _ => return ()

/-- `Self::can_replace(&source, target)?` if there is a target. -/
def checkTarget (source : Nat) : Except FsError (Nat × Nat) → Op Unit
  | .ok (_, target) => canReplace source target
  | .error _ => return ()

/-- `rename` inside one directory. -/
def renameWithin (self source : Nat) (newName : Str) : Op Unit := do
  let entries ← entriesOf self
  checkTarget source (findEntry entries newName)
  removeTarget self (findEntry entries newName)
  let found ← load fun w => (w.fs.entries self).any fun e => e.2 == source
  failIf (!found) .notFound
  update fun w => w.onNode self (onEntries (renameFirst source newName))

/-- `rename` makes sure that the entry will fit: it takes the target's place, or there is room. -/
def makeRoom (source : Nat) : Except FsError (Nat × Nat) → Op Unit
  | .ok (_, target) => canReplace source target
  | .error _ => allocate

/-- A subdirectory moves from one directory to another. -/
def moveLink (self destination : Nat) (fileType : FileType) : Op Unit :=
  if fileType = .directory then do
    subLink self
    addLink destination
  else return ()

/-- `rename` from one directory to another, with both mutexes held. -/
def renameAcross (self destination index source : Nat) (newName : Str) : Op Unit := do
  let entries ← entriesOf destination
  makeRoom source (findEntry entries newName)
  removeTarget destination (findEntry entries newName)
  removeEntry self index
  let fileType ← fileTypeOf source
  moveLink self destination fileType
  update fun w => w.onNode source fun n => { n with parent := destination }
  pushEntry destination newName source

/-- A `&dyn Inode`: the file system it is on, and what it is if it is a `MemoryInode`. -/
structure DynInode where
  fsId : Nat
  memory : Option Nat
  deriving DecidableEq, Repr

/-- `downcast_ref`. -/
def DynInode.downcast (d : DynInode) : Except FsError Nat :=
  match d.memory with
  | some i => .ok i
  | none => .error .notSupported

/-- A directory may not be moved below itself. -/
def checkAncestors (nodes : List Nat) (source destination : Nat) : Op Unit := do
  let fileType ← fileTypeOf source
  if fileType = .directory then ancestorWalk nodes source (nodes.length + 1) destination
  else return ()

/-- What `rename` does once it holds the source directory's mutex and the source. -/
def renameSource (self : Nat) (name : Str) (destination : Nat) (newName : Str) (nodes : List Nat)
    (index source : Nat) : Op Unit :=
  if self = destination ∧ name = newName then return ()
  else do
    checkAncestors nodes source destination
    allocate -- name_copy
    if self = destination then renameWithin self source newName
    else withLock (.inner destination) (renameAcross self destination index source newName)

/-- `Inode::rename`. -/
def rename (self : Nat) (name : Str) (destination : DynInode) (newName : Str) : Op Unit := do
  ofExcept (validateName name)
  ofExcept (validateName newName)
  let fsId ← load fun w => w.fs.fsId
  failIf (destination.fsId != fsId) .crossDevice
  let destination ← ofExcept destination.downcast
  withLock .nodes do
    let nodes ← load fun w => w.fs.nodes
    let links ← load fun w => (w.fs.node destination).links
    failIf (links == 0) .notFound
    withLock (.inner self) do
      let (index, source) ← cloneEntry self name
      droppingArc source (renameSource self name destination newName nodes index source)

/-- `Inode::lookup`; the reference it returns is the caller's. -/
def lookup (self : Nat) (name : Str) : Op Nat :=
  withLock .nodes do
    withLock (.inner self) do
      let (_, i) ← cloneEntry self name
      return i

end Operations

end Krust.Memfs
