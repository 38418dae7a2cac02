import Krust.Memfs.Ops

/-!
# The calls on a file system

What the rest of the kernel can do to a file system.  A caller has a reference to the inode it
calls, and holds it until the call returns (`withRef`); a reference that a call returns stays with
the caller (`keep`).  References can be kept and given up at any time, and an inode with no
reference left is dropped.

`Reachable` is the states a `MemoryFs` passes through between calls, from `MemoryFs::build` on,
with the calls made one after the other.  In between, other mounts take inode numbers, and memory
becomes scarce or plentiful.
-/

set_option autoImplicit false

namespace Krust.Memfs

open Prog SparseFile

/-! ## Reading and writing files

The operations that look at the data of one inode.  All of them hold the inode's `inner` mutex from
beginning to end, but not the namespace mutex, and a sparse file charges and refunds its pages while
it holds it.
-/

def storageOf (i : Nat) : Op Storage := load fun w => (w.fs.node i).storage

def onRam (f : List UInt8 → List UInt8) (n : MemoryInode) : MemoryInode :=
  match n.storage with
  | .ram data => { n with storage := .ram (f data) }
  | _ => n

def onSparse (f : SparseFile → SparseFile) (n : MemoryInode) : MemoryInode :=
  match n.storage with
  | .sparse file => { n with storage := .sparse (f file) }
  | _ => n

def sparseOf (fs : Fs) (i : Nat) : SparseFile :=
  match (fs.node i).storage with
  | .sparse file => file
  | _ => empty

/-! ## Writing -/

/-- `pages.insert(slot, page)`: a fresh page, with its charge.  Inserting past the end panics. -/
def insertPage (i slot index : Nat) : Op Unit :=
  await
    (fun w => match (w.fs.node i).storage with
      | .sparse file => decide (slot ≤ file.pages.length)
      | _ => false)
    fun w => (w.onNode i (onSparse fun f => f.insertPage slot index)).lose (.charge .page)

/-- A page for a part of the file that has none: room in the list, a charge, a frame. -/
def allocatePage (i slot index : Nat) : Op Nat := do
  allocate -- pages.try_reserve
  reserve .page
  allocate.onFail (dropCharge .page) -- OwnedPage::new
  insertPage i slot index
  return slot

/-- The slot of the page with this index, which is allocated if it does not exist. -/
def findOrAllocate (i index : Nat) : Op Nat := do
  let found ← load fun w => findSlot (sparseOf w.fs i).pages index
  match found with
  | .ok slot => return slot
  | .error slot => allocatePage i slot index

/-- The loop of `write_data` on a sparse file.  Without a page the write stops: it reports what it
has written so far, or the error if that is nothing. -/
def writeLoop (i offset : Nat) (buf : List UInt8) : Nat → Nat → Op Nat
  | 0, written => return written
  | fuel + 1, written =>
    if written < buf.length then do
      let position := offset + written
      let result ← (findOrAllocate i (position / PAGE_SIZE)).attempt
      match result with
      | .error e => if written = 0 then fail e else return written
      | .ok slot => do
        let start := position % PAGE_SIZE
        let count := min (PAGE_SIZE - start) (buf.length - written)
        update fun w => w.onNode i (onSparse fun f =>
          f.copyIn slot start (slice buf written count) (offset + (written + count)))
        writeLoop i offset buf fuel (written + count)
    else return written

/-- `write_data` on a vector. -/
def writeRam (i : Nat) (data : List UInt8) (offset : Nat) (buf : List UInt8) : Op Nat :=
  if data.length < offset + buf.length then do
    allocate
    update fun w => w.onNode i (onRam fun data =>
      overwrite (resize data (offset + buf.length) 0) offset buf)
    return buf.length
  else do
    update fun w => w.onNode i (onRam fun data => overwrite data offset buf)
    return buf.length

/-- `offset.checked_add(buf.len()).filter(|n| *n <= isize::MAX as usize)`. -/
def endOf (offset len : Nat) : Except FsError Nat :=
  match checkedAdd offset len with
  | some e => if e ≤ ISIZE_MAX then .ok e else .error .fileTooLarge
  | none => .error .fileTooLarge

theorem endOf_ok {offset len : Nat} (h : offset + len ≤ ISIZE_MAX) :
    endOf offset len = .ok (offset + len) := by
  have hsize : offset + len ≤ USIZE_MAX := h.trans (by decide)
  simp only [endOf, checkedAdd, if_pos hsize, if_pos h]

theorem endOf_error {offset len : Nat} (h : ¬ offset + len ≤ ISIZE_MAX) :
    endOf offset len = .error .fileTooLarge := by
  by_cases hsize : offset + len ≤ USIZE_MAX
  · simp only [endOf, checkedAdd, if_pos hsize, if_neg h]
  · simp only [endOf, checkedAdd, if_neg hsize]

/-- `MemoryInode::write_data`. -/
def writeData (i offset : Nat) (buf : List UInt8) : Op Nat := do
  let storage ← storageOf i
  match storage with
  | .directory _ => fail .isADirectory
  | .ram data =>
    if buf.isEmpty then return 0
    else do
      let _ ← ofExcept (endOf offset buf.length)
      writeRam i data offset buf
  | .sparse _ =>
    if buf.isEmpty then return 0
    else do
      let _ ← ofExcept (endOf offset buf.length)
      writeLoop i offset buf buf.length 0

/-- `Inode::write`. -/
def write (i offset : Nat) (buf : List UInt8) : Op Nat :=
  withLock (.inner i) (writeData i offset buf)

/-- `append` with the mutex held. -/
def appendData (i : Nat) (buf : List UInt8) : Op (Nat × Nat) := do
  let storage ← storageOf i
  match storage with
  | .directory _ => fail .isADirectory
  | .ram data => do
    let written ← writeData i data.length buf
    return (data.length, written)
  | .sparse f => do
    let written ← writeData i f.size buf
    return (f.size, written)

/-- `Inode::append`. -/
def append (i : Nat) (buf : List UInt8) : Op (Nat × Nat) := withLock (.inner i) (appendData i buf)

/-! ## Truncating -/

/-- One step of `pages.retain`: the first page that has to go is taken out of the list. -/
def takePage (i newSize : Nat) : Op Bool :=
  step fun w =>
    if (sparseOf w.fs i).pages.all (keeps newSize) then (false, w)
    else (true, (w.onNode i (onSparse fun f =>
      { f with pages := f.pages.eraseP fun p => !keeps newSize p })).gain (.charge .page) 1)

/-- `pages.retain`: a page that goes takes its charge with it. -/
def retainPages (i newSize : Nat) : Nat → Op Unit
  | 0 => return ()
  | fuel + 1 => do
    let taken ← takePage i newSize
    if taken then do
      dropCharge .page
      retainPages i newSize fuel
    else return ()

/-- `truncate` on a sparse file. -/
def truncateSparse (i newSize : Nat) (f : SparseFile) : Op Unit :=
  if newSize < f.size then do
    retainPages i newSize f.pages.length
    update fun w => w.onNode i (onSparse fun f => f.finishTruncate newSize)
  else update fun w => w.onNode i (onSparse fun f => { f with size := newSize })

/-- `truncate` on a vector. -/
def truncateRam (i newSize : Nat) (data : List UInt8) : Op Unit :=
  if data.length < newSize then do
    allocate
    update fun w => w.onNode i (onRam fun data => resize data newSize 0)
  else update fun w => w.onNode i (onRam fun data => resize data newSize 0)

/-- `truncate` with the mutex held. -/
def truncateData (i newSize : Nat) : Op Unit := do
  let storage ← storageOf i
  match storage with
  | .directory _ => fail .isADirectory
  | .ram data => truncateRam i newSize data
  | .sparse f => truncateSparse i newSize f

/-- `Inode::truncate`. -/
def truncate (i newSize : Nat) : Op Unit := do
  failIf (decide (ISIZE_MAX < newSize)) .fileTooLarge
  withLock (.inner i) (truncateData i newSize)

/-! ## Looking -/

/-- `read` with the mutex held: the count, and the buffer after the call. -/
def readData (i offset : Nat) (buf : List UInt8) : Op (Nat × List UInt8) := do
  let storage ← storageOf i
  match storage with
  | .directory _ => fail .isADirectory
  | .ram data =>
    let count := min buf.length (data.length - offset)
    return (count, if 0 < count then overwrite buf 0 (slice data offset count) else buf)
  | .sparse f => return f.read offset buf

/-- `Inode::read`. -/
def read (i offset : Nat) (buf : List UInt8) : Op (Nat × List UInt8) :=
  withLock (.inner i) (readData i offset buf)

def Storage.size : Storage → Nat
  | .directory entries => entries.length
  | .ram data => data.length
  | .sparse f => f.size

/-- `Inode::size`. -/
def size (i : Nat) : Op Nat := withLock (.inner i) ((storageOf i).map Storage.size)

/-- What `Inode::read` returns. -/
def Storage.read (offset : Nat) (buf : List UInt8) : Storage → Except FsError (Nat × List UInt8)
  | .directory _ => .error .isADirectory
  | .ram data =>
    let count := min buf.length (data.length - offset)
    .ok (count, if 0 < count then overwrite buf 0 (slice data offset count) else buf)
  | .sparse f => .ok (f.read offset buf)

/-- `Inode::set_metadata`. -/
def setMetadata (i : Nat) (metadata : SetMetadata) : Op Unit := do
  failIf (metadata.mode.any fun mode => decide (0o7777 < mode)) .invalidArgument
  withLock (.inner i)
    (update fun w => w.onNode i fun n =>
      { n with
        uid := metadata.uid.getD n.uid
        gid := metadata.gid.getD n.gid
        mode := metadata.mode.getD n.mode })

/-! ## Calls -/

/-- Call an inode, with a reference that is held until the call returns. -/
def withRef {α : Type} (i : Nat) (p : Op α) : Op α := do
  await (fun w => decide (i ∈ w.fs.live)) fun w => w.gain (.arc i) 1
  droppingArc i p

/-- The same for the destination of a rename, if it is on this file system. -/
def withDestination {α : Type} (destination : DynInode) (p : Op α) : Op α := do
  let fsId ← load fun w => w.fs.fsId
  match destination.memory with
  | some j => if destination.fsId = fsId then withRef j p else p
  | none => p

/-- The caller keeps the reference it got. -/
def keep (i : Nat) : Op Unit :=
  update fun w =>
    { w.lose (.arc i) with handles := Function.update w.handles i (w.handles i + 1) }

/-- `Arc::clone` of a reference somebody has. -/
def cloneHandle (i : Nat) : Op Unit :=
  await (fun w => decide (i ∈ w.fs.live)) fun w =>
    { w with handles := Function.update w.handles i (w.handles i + 1) }

/-- The end of a reference that was kept. -/
def dropHandle (i : Nat) : Op Unit :=
  await (fun w => decide (0 < w.handles i)) fun w =>
    { w with handles := Function.update w.handles i (w.handles i - 1) }

/-- The last reference is gone: the inode does not exist any more, and its charges are in the hands
of whoever drops it. -/
def World.bury (w : World) (i : Nat) : World :=
  ((w.onFs fun fs => { fs with live := fs.live.erase i }).gain (.charge .inode) 1).gain
    (.charge .page) (w.fs.node i).storage.pageCount

/-- The charges of the pages go one by one. -/
def dropCharges : Nat → Op Unit
  | 0 => return ()
  | n + 1 => do
    dropCharge .page
    dropCharges n

/-- An inode nobody refers to is dropped, its own charge before those of its pages. -/
def dropInode (i : Nat) : Op Unit := do
  let pages ← Prog.act
    (fun w => if w.droppable i then some ((w.fs.node i).storage.pageCount, w.bury i) else none) ret
  dropCharge .inode
  dropCharges pages

inductive Call
  | create (self : Nat) (name : Str) (fileType : FileType)
  | unlink (self : Nat) (name : Str) (directory : Bool)
  | rename (self : Nat) (name : Str) (destination : DynInode) (newName : Str)
  | lookup (self : Nat) (name : Str)
  | write (self offset : Nat) (buf : List UInt8)
  | append (self : Nat) (buf : List UInt8)
  | truncate (self newSize : Nat)
  | read (self offset : Nat) (buf : List UInt8)
  | size (self : Nat)
  | setMetadata (self : Nat) (metadata : SetMetadata)
  | cloneHandle (i : Nat)
  | dropHandle (i : Nat)
  | dropInode (i : Nat)

/-- What a call runs.  Its answer does not matter here, only whether it is an error. -/
def Call.prog : Call → Op Unit
  | .create self name fileType => withRef self do
      let i ← Memfs.create self name fileType
      keep i
  | .unlink self name directory => withRef self (Memfs.unlink self name directory)
  | .rename self name destination newName =>
      withRef self (withDestination destination (Memfs.rename self name destination newName))
  | .lookup self name => withRef self do
      let i ← Memfs.lookup self name
      keep i
  | .write self offset buf => withRef self ((Memfs.write self offset buf).map fun _ => ())
  | .append self buf => withRef self ((Memfs.append self buf).map fun _ => ())
  | .truncate self newSize => withRef self (Memfs.truncate self newSize)
  | .read self offset buf => withRef self ((Memfs.read self offset buf).map fun _ => ())
  | .size self => withRef self ((Memfs.size self).map fun _ => ())
  | .setMetadata self metadata => withRef self (Memfs.setMetadata self metadata)
  | .cloneHandle i => Memfs.cloneHandle i
  | .dropHandle i => Memfs.dropHandle i
  | .dropInode i => Memfs.dropInode i

/-- Other mounts have taken inode numbers, and the allocations to come have been decided anew. -/
def World.meanwhile (w : World) (nextIno : Nat) (faults : List Bool) : World :=
  { (w.onFs fun fs => { fs with nextIno := nextIno }) with faults := faults }

inductive Reachable : World → Prop
  | build {fsId nextIno : Nat} {limits : Option TmpfsOptions} {faults : List Bool} {w : World}
      (hpos : 0 < nextIno)
      (hrun : run build (World.boot fsId limits nextIno faults) = (some (.ok ()), w)) : Reachable w
  | call {w w' : World} {r : Except FsError Unit} (h : Reachable w) (c : Call)
      (hrun : run c.prog w = (some r, w')) : Reachable w'
  | meanwhile {w : World} (h : Reachable w) {nextIno : Nat} (hle : w.fs.nextIno ≤ nextIno)
      (faults : List Bool) : Reachable (w.meanwhile nextIno faults)

end Krust.Memfs
