import Krust.Fs.Defs
import Krust.Lib.Prog
import Krust.Mm.Allocator

/-!
# Address spaces

An address space has a root table of its own, which starts as a copy of the kernel's.  Below it the
tables are those of the kernel, until a page is mapped: `make_user_path_private` then replaces the
tables on the way to the page, one level after the other, by copies that belong to this space.  The
space keeps a list of the tables it has made and of the pages it has mapped, and gives their frames
back when it is dropped.

The memory manager has been initialised: there are an allocator and a kernel root, and all of
physical memory can be reached.  The library that edits page tables is a parameter (`Mapper`), of
which only this is used: where the tables on the way to a page exist, `map_to` and `unmap` change
the entry of the page and nothing else.  Of the kernel's heap it is only asked whether it has room
for the records of the pages: where it has none, adding a record is a panic.
-/

set_option autoImplicit false

namespace Krust.Mm

open Arch Lib Prog

inductive MmError
  | outOfFrames
  | mapFailed
  | invalidAddress
  | ioFailed
deriving DecidableEq, Repr

/-! ## Pages -/

/-- A page of virtual memory, by its number; virtual addresses have 48 bits. -/
abbrev Page : Type := Fin (2 ^ 36)

instance neZero_pages : NeZero (2 ^ 36) := ⟨by decide⟩

namespace Page

def p4Index (page : Page) : Fin 512 := Fin.ofNat 512 (page.val / 2 ^ 27)
def p3Index (page : Page) : Fin 512 := Fin.ofNat 512 (page.val / 2 ^ 18)
def p2Index (page : Page) : Fin 512 := Fin.ofNat 512 (page.val / 2 ^ 9)
def p1Index (page : Page) : Fin 512 := Fin.ofNat 512 page.val

/-- The first address of the page; in the upper half the sign bit is extended. -/
def startAddress (page : Page) : Nat :=
  if page.val < 2 ^ 35 then page.val * 4096 else 2 ^ 64 - 2 ^ 48 + page.val * 4096

/-- `Page::containing_address(VirtAddr::new(address))`; an address that is not canonical is a
panic. -/
def containingAddress (address : Nat) : Option Page :=
  if address < 2 ^ 47 ∨ 2 ^ 64 - 2 ^ 47 ≤ address then some (Fin.ofNat (2 ^ 36) (address / 4096))
  else none

end Page

/-- The flags of a page of 4 KiB. -/
structure PageFlags where
  bits : UInt64
  noAddress : bits &&& TABLE_ADDRESS = 0
  notHuge : bits &&& HUGE = 0
deriving DecidableEq

namespace PageFlags

def empty : PageFlags := ⟨0, rfl, rfl⟩
def present : PageFlags := ⟨PRESENT, rfl, rfl⟩
def writable : PageFlags := ⟨WRITABLE, rfl, rfl⟩
def userAccessible : PageFlags := ⟨USER, rfl, rfl⟩

def union (a b : PageFlags) : PageFlags where
  bits := a.bits ||| b.bits
  noAddress := by rw [or_and_distrib, a.noAddress, b.noAddress]; rfl
  notHuge := by rw [or_and_distrib, a.notHuge, b.notHuge]; rfl

end PageFlags

/-! ## The library for page tables -/

/-- What the entries on the way to a page have to allow. -/
def parentFlags : UInt64 := PRESENT ||| WRITABLE ||| USER

/-- From a table of some depth these indices lead to another table, and every entry on the way has
the flags of a parent. -/
inductive Descends (m : Memory) : Nat → PhysFrame → List (Fin 512) → PhysFrame → Prop
  | here {d : Nat} {t : PhysFrame} : Descends m d t [] t
  | down {d : Nat} {t u v : PhysFrame} {i : Fin 512} {is : List (Fin 512)} {e : UInt64}
      (hlook : lookup m d t i = some (e, some u)) (hflags : e &&& parentFlags = parentFlags)
      (h : Descends m (d + 1) u is v) : Descends m d t (i :: is) v

/-- `OffsetPageTable`, for the table with this root, and the heap. -/
structure Mapper where
  /-- Whether the heap has room for so many records, and for what is allocated next to them. -/
  room : Nat → Bool
  /-- `map_to_with_table_flags`; `false` is an error. -/
  mapTo : PhysFrame → Page → PhysFrame → UInt64 → UInt64 → Memory → FrameAllocator →
    Bool × Memory × FrameAllocator
  /-- `unmap`; `false` is an error. -/
  unmap : PhysFrame → Page → Memory → Bool × Memory
  mapTo_unused : ∀ {m root page table frame flags allocator},
    Descends m 0 root [page.p4Index, page.p3Index, page.p2Index] table →
    entry m table page.p1Index = 0 →
    mapTo root page frame flags parentFlags m allocator =
      (true, setEntry m table page.p1Index (makeEntry frame flags), allocator)
  mapTo_used : ∀ {m root page table frame flags allocator},
    Descends m 0 root [page.p4Index, page.p3Index, page.p2Index] table →
    entry m table page.p1Index ≠ 0 →
    mapTo root page frame flags parentFlags m allocator = (false, m, allocator)
  unmap_eq : ∀ {m root page table},
    Descends m 0 root [page.p4Index, page.p3Index, page.p2Index] table →
    unmap root page m =
      if entryFrame (entry m table page.p1Index) = none then (false, m)
      else (true, setEntry m table page.p1Index 0)

/-! ## The source -/

structure Mapping where
  page : Page
  frame : PhysFrame
  flags : PageFlags
deriving DecidableEq

structure AddressSpace where
  rootFrame : PhysFrame
  mappings : List Mapping
  privateTables : List PhysFrame
deriving DecidableEq

/-- The state of the memory manager. -/
structure Manager where
  memory : Memory
  allocator : FrameAllocator
  kernelRoot : PhysFrame

/-- The state for a method of an address space. -/
abbrev Work : Type := Manager × AddressSpace

def Manager.write (mm : Manager) (f : Memory → Memory) : Manager :=
  { mm with memory := f mm.memory }

def Manager.deallocateFrame (mm : Manager) (frame : PhysFrame) : Manager :=
  { mm with allocator := mm.allocator.deallocateFrame frame }

def allocateFrame : Prog Manager MmError PhysFrame := do
  let frame ← step fun mm =>
    (mm.allocator.allocateFrame.1, { mm with allocator := mm.allocator.allocateFrame.2 })
  match frame with
  | none => fail .outOfFrames
  | some frame => ret frame

/-- A routine of the memory manager, called by a method. -/
def inManager {α : Type} (p : Prog Manager MmError α) : Prog Work MmError α :=
  embed Prod.fst (fun mm w => (mm, w.2)) id p

/-- Change the memory, in a method. -/
def writeMemory (f : Memory → Memory) : Prog Work MmError Unit :=
  update fun w => (w.1.write f, w.2)

def kernel : Prog Manager MmError AddressSpace := do
  let newRoot ← allocateFrame
  update fun mm => mm.write fun m => zeroFrame m newRoot
  -- `copy_kernel_root_entries`
  update fun mm => mm.write fun m => copyFrameContents m mm.kernelRoot newRoot
  ret ⟨newRoot, [], []⟩

/-- A table of its own in place of what an entry leads to. -/
def newTable (table : PhysFrame) (index : Fin 512) (e : UInt64) (old : Option PhysFrame) :
    Prog Work MmError PhysFrame := do
  let fresh ← inManager allocateFrame
  writeMemory fun m => zeroFrame m fresh
  writeMemory fun m => old.elim m fun frame => copyFrameContents m frame fresh
  writeMemory fun m => setEntry m table index (makeEntry fresh (flagsOf e ||| parentFlags))
  update fun w => (w.1, { w.2 with privateTables := w.2.privateTables ++ [fresh] })
  ret fresh

/-- One level of the loop of `make_user_path_private`: the table to go on with. -/
def privateTable (table : PhysFrame) (index : Fin 512) : Prog Work MmError PhysFrame := do
  let e ← load fun w => entry w.1.memory table index
  let tables ← load fun w => w.2.privateTables
  if e &&& HUGE ≠ 0 then fail .invalidAddress
  else if e = 0 then newTable table index e none
  else
    match entryFrame e with
    | none => fail .invalidAddress
    | some frame => if frame ∈ tables then ret frame else newTable table index e (some frame)

/-- The loop of `make_user_path_private`. -/
def makePathPrivate : PhysFrame → List (Fin 512) → Prog Work MmError Unit
  | _, [] => ret ()
  | table, index :: rest => do
    let next ← privateTable table index
    makePathPrivate next rest

def makeUserPathPrivate (page : Page) : Prog Work MmError Unit := do
  let root ← load fun w => w.2.rootFrame
  makePathPrivate root [page.p4Index, page.p3Index, page.p2Index]

section Mapper

variable (mapper : Mapper)

def mapTo (page : Page) (frame : PhysFrame) (flags : PageFlags) : Prog Work MmError Bool :=
  step fun w =>
    let r := mapper.mapTo w.2.rootFrame page frame flags.bits parentFlags w.1.memory w.1.allocator
    (r.1, ({ w.1 with memory := r.2.1, allocator := r.2.2 }, w.2))

def unmap (page : Page) : Prog Work MmError Bool :=
  step fun w =>
    let r := mapper.unmap w.2.rootFrame page w.1.memory
    (r.1, ({ w.1 with memory := r.2 }, w.2))

/-- Map the page, in place of another mapping of it if there is one. -/
def mapOrReplace (page : Page) (frame : PhysFrame) (flags : PageFlags) :
    Prog Work MmError Bool := do
  let mapped ← mapTo mapper page frame flags
  if mapped then ret true
  else
    let unmapped ← unmap mapper page
    if unmapped then mapTo mapper page frame flags else ret false

/-- The flags a page is mapped with: a page that nobody may access is not present. -/
def targetFlags (flags : PageFlags) : PageFlags :=
  let flags := flags.union .userAccessible
  if flags.bits &&& BIT_9 = BIT_9 then flags else flags.union .present

def mapPage (page : Page) (flags : PageFlags) : Prog Work MmError PhysFrame := do
  makeUserPathPrivate page
  let frame ← inManager allocateFrame
  writeMemory fun m => zeroFrame m frame
  let mapped ← mapOrReplace mapper page frame (targetFlags flags)
  if mapped then
    update fun w =>
      (w.1, { w.2 with mappings := w.2.mappings ++ [⟨page, frame, targetFlags flags⟩] })
    -- `Vec::push` panics if the longer vector cannot be allocated
    let count ← load fun w => w.2.mappings.length
    if mapper.room count then ret frame else hang
  else
    update fun w => (w.1.deallocateFrame frame, w.2)
    fail .mapFailed

/-- The loop of `clone_for_fork`. -/
def copyMappings : List Mapping → Prog Work MmError Unit
  | [] => ret ()
  | mapping :: rest => do
    let frame ← mapPage mapper mapping.page mapping.flags
    writeMemory fun m => copyFrameContents m mapping.frame frame
    copyMappings rest

end Mapper

/-- The frames that a space gives back, in this order, when it is dropped. -/
def AddressSpace.frames (space : AddressSpace) : List PhysFrame :=
  space.mappings.map (·.frame) ++ space.privateTables ++ [space.rootFrame]

def dropSpace (space : AddressSpace) : Prog Manager MmError Unit :=
  update fun mm => space.frames.foldl Manager.deallocateFrame mm

def clear : Prog Work MmError Unit := do
  update fun w =>
    ((w.2.mappings.map (·.frame)).foldl Manager.deallocateFrame w.1, { w.2 with mappings := [] })
  update fun w => (w.1.write fun m => zeroFrame m w.2.rootFrame, w.2)
  update fun w => (w.1.write fun m => copyFrameContents m w.1.kernelRoot w.2.rootFrame, w.2)

/-- A clone that cannot be finished is dropped. -/
def cloneForFork (mapper : Mapper) (space : AddressSpace) : Prog Manager MmError AddressSpace := do
  let cloned ← kernel
  let (r, cloned) ← withLocal (copyMappings mapper space.mappings) cloned
  match r with
  | .ok () => ret cloned
  | .error e => do
    dropSpace cloned
    fail e

/-! ## Segments and regions -/

structure SegmentPermissions where
  read : Bool
  write : Bool
  execute : Bool
deriving DecidableEq, Repr

structure LoadSegment where
  virtualAddress : UInt64
  memorySize : UInt64
  fileOffset : UInt64
  fileSize : UInt64
  flags : SegmentPermissions
deriving DecidableEq, Repr

def pageFlagsFromSegment (flags : SegmentPermissions) : PageFlags :=
  let out := PageFlags.present.union .userAccessible
  if flags.write then out.union .writable else out

/-- What a read of a chunk of the file returns: bytes from an offset, up to a number of them. -/
abbrev ReadChunk : Type := Nat → Nat → Except MmError (List UInt8)

/-- The page with the bytes of the file in their place, and zeros around them. -/
def readPage (readChunk : ReadChunk) (fileOffset fileLen pageOffset : Nat) :
    Except MmError (List UInt8) :=
  if fileLen > 0 then
    match readChunk fileOffset fileLen with
    | .error e => .error e
    | .ok data =>
      if data.length ≠ fileLen then .error .ioFailed
      else .ok (overwrite (List.replicate PAGE_SIZE 0) pageOffset data)
  else .ok (List.replicate PAGE_SIZE 0)

section Mapper

variable (mapper : Mapper)

/-- The loop of `map_segment`, for at most `fuel` pages. -/
def mapSegmentLoop (segment : LoadSegment) (readChunk : ReadChunk) (stop : Nat) :
    Nat → Nat → Prog Work MmError Unit
  | 0, _ => ret ()
  | fuel + 1, cursor =>
    if cursor < stop then do
      let page ← ofOption (Page.containingAddress cursor)
      let frame ← mapPage mapper page (pageFlagsFromSegment segment.flags)
      let pageOffset := cursor - page.startAddress
      let chunkLen := min (PAGE_SIZE - pageOffset) (stop - cursor)
      let fileOffset := min (cursor - segment.virtualAddress.toNat) segment.fileSize.toNat
      let fileLen := min chunkLen (segment.fileSize.toNat - fileOffset)
      let pageBuf ← ofExcept (readPage readChunk
        (min (segment.fileOffset.toNat + fileOffset) USIZE_MAX) fileLen pageOffset)
      writeMemory fun m => writeFrameBytes m frame 0 pageBuf
      mapSegmentLoop segment readChunk stop fuel (cursor + chunkLen)
    else ret ()

/-- Every round of the loop passes at least one byte. -/
def mapSegment (segment : LoadSegment) (readChunk : ReadChunk) : Prog Work MmError Unit :=
  let stop := segment.virtualAddress.toNat + segment.memorySize.toNat
  if stop ≤ USIZE_MAX then
    mapSegmentLoop mapper segment readChunk stop segment.memorySize.toNat
      segment.virtualAddress.toNat
  else fail .invalidAddress

/-- The loop of `map_zeroed_region`, for at most `fuel` pages; it returns the start of the first. -/
def mapZeroedRegionLoop (checks : Bool) (flags : PageFlags) (start stop : Nat) :
    Nat → Nat → Nat → Prog Work MmError Nat
  | 0, _, _ => hang
  | fuel + 1, cursor, firstPage =>
    if cursor < stop then do
      let page ← ofOption (Page.containingAddress cursor)
      let _ ← mapPage mapper page flags
      let firstPage := if cursor = start then page.startAddress else firstPage
      let cursor ← ofOption (fit checks (2 ^ 64) (page.startAddress + PAGE_SIZE))
      mapZeroedRegionLoop checks flags start stop fuel cursor firstPage
    else ret firstPage

/-- There are fewer pages than addresses. -/
def mapZeroedRegion (checks : Bool) (start size : Nat) (flags : PageFlags) :
    Prog Work MmError Nat :=
  if start + size ≤ USIZE_MAX then
    mapZeroedRegionLoop mapper checks flags start (start + size) (2 ^ 64) start start
  else fail .invalidAddress

end Mapper

/-- The first record of a page. -/
def AddressSpace.find (space : AddressSpace) (page : Page) : Option Mapping :=
  List.find? (fun mapping => mapping.page = page) space.mappings

def writeBytes (vaddr : Nat) (bytes : List UInt8) : Prog Work MmError Unit := do
  let page ← ofOption (Page.containingAddress vaddr)
  let mapping ← load fun w => w.2.find page
  match mapping with
  | none => fail .invalidAddress
  | some mapping =>
    writeMemory fun m => writeFrameBytes m mapping.frame (vaddr - page.startAddress) bytes

end Krust.Mm
