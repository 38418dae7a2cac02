import Krust.Fat.Table

/-!
# Directories and inodes of a FAT volume

A directory is a row of slots of 32 bytes in the clusters of its chain, or in the area of the root
directory.  A slot whose first byte is 0 ends the directory, and one whose first byte is `0xE5` is
free.
-/

set_option autoImplicit false

namespace Krust.Fat

open Lib Prog Block

/-! ## Names

An entry has a short name of eleven bytes, eight for the base and three for the extension, padded
with blanks.  A long name is kept in slots of its own in front of the entry, each with a part of it
in 16 bit units.
-/

def DIR_ENTRY_SIZE : Nat := 32

def ATTR_VOLUME_ID : UInt8 := 0x08

def ATTR_DIRECTORY : UInt8 := 0x10

def ATTR_ARCHIVE : UInt8 := 0x20

def ATTR_LFN : UInt8 := 0x0F

/-! ## Short names -/

/-- One of the loops of `decode_short_name`: the text before the first blank, if it is ASCII. -/
def decodeComponent (raw : List UInt8) : Option Str :=
  let bytes := raw.takeWhile (· ≠ 0x20)
  if bytes.all (· < 0x80) then some (bytes.map fun b => Char.ofNat b.toNat) else none

def decodeShortName (raw : List UInt8) : Option Str :=
  if raw.length ≠ 11 then none
  else do
    let name ← decodeComponent (raw.take 8)
    let extension ← decodeComponent (raw.drop 8)
    if name = [] then none
    else if extension = [] then some name
    else some (name ++ '.' :: extension)

def isValidShortNameChar (byte : UInt8) : Bool :=
  (decide (0x41 ≤ byte) && decide (byte ≤ 0x5A)) ||
    (decide (0x61 ≤ byte) && decide (byte ≤ 0x7A)) ||
    (decide (0x30 ≤ byte) && decide (byte ≤ 0x39)) ||
    -- $ % ' - _ @ ~ ` ! ( ) { } ^ # &
    [0x24, 0x25, 0x27, 0x2D, 0x5F, 0x40, 0x7E, 0x60, 0x21, 0x28, 0x29, 0x7B, 0x7D, 0x5E, 0x23,
      0x26].contains byte

/-- `u8::to_ascii_uppercase`. -/
def toAsciiUppercase (byte : UInt8) : UInt8 :=
  if 0x61 ≤ byte ∧ byte ≤ 0x7A then byte - 0x20 else byte

/-- `write_short_component`, into a field of this width that is filled with blanks. -/
def writeShortComponent (component : Str) (width : Nat) : Except FsError (List UInt8) :=
  let bytes := utf8Bytes component
  if bytes.all isValidShortNameChar then
    .ok (bytes.map toAsciiUppercase ++ List.replicate (width - bytes.length) 0x20)
  else .error .notSupported

def encodeShortName (name : Str) : Except FsError (List UInt8) :=
  if name = [] ∨ name = ['.'] ∨ name = ['.', '.'] ∨ '/' ∈ name then .error .notSupported
  else
    let parts := name.splitOn '.'
    let base := parts.getD 0 []
    let extension := parts.getD 1 []
    if 2 < parts.length ∨ base = [] ∨ 8 < utf8Len base ∨ 3 < utf8Len extension then
      .error .notSupported
    else do
      let base ← writeShortComponent base 8
      let extension ← writeShortComponent extension 3
      return base ++ extension

/-- `str::eq_ignore_ascii_case`. -/
def eqIgnoreAsciiCase (a b : Str) : Bool := a.map Char.toLower == b.map Char.toLower

/-! ## Long names -/

/-- `char::from_u32`. -/
def charFromU32 (n : Nat) : Option Char := if n.isValidChar then some (Char.ofNat n) else none

/-- One of the loops of `parse_lfn_entry`, over the places of the units. -/
def lfnRegion (entry : List UInt8) : List Nat → Str
  | [] => []
  | i :: rest =>
    let low := entry.getD i 0
    let high := entry.getD (i + 1) 0
    if low = 0xFF ∧ high = 0xFF then []
    else if low = 0x00 ∧ high = 0x00 then []
    else
      match charFromU32 ((high.toNat <<< 8) ||| low.toNat) with
      | some ch => ch :: lfnRegion entry rest
      | none => lfnRegion entry rest

/-- `parse_lfn_entry`.  The three loops go over `(1..=9)`, `(14..=23)` and `(28..=29)` in steps of
two. -/
def parseLfnEntry (entry : List UInt8) : Option Str :=
  if entry.length ≠ DIR_ENTRY_SIZE then none
  else
    let chars := lfnRegion entry [1, 3, 5, 7, 9] ++ lfnRegion entry [14, 16, 18, 20, 22] ++
      lfnRegion entry [28]
    if chars = [] then none else some chars

/-! ## Slots -/

section Slots

structure ParsedDirEntry where
  name : Str
  fileType : FileType
  firstCluster : Nat
  size : Nat
  entryOffset : Nat
  deriving DecidableEq, Repr

def slotCluster (entry : List UInt8) : Nat :=
  (leValue (slice entry 20 2) <<< 16) ||| leValue (slice entry 26 2)

def slotSize (entry : List UInt8) : Nat := leValue (slice entry 28 4)

/-- What `read_directory_entries` has found so far: the parts of a long name, and the entries. -/
structure Scan where
  parts : List Str
  entries : List ParsedDirEntry

/-- What a slot that does not end the directory adds. -/
def Scan.slot (scan : Scan) (entryOffset : Nat) (entry : List UInt8) : Scan :=
  let attrs := entry.getD 11 0
  if entry.getD 0 0 = 0xE5 then { scan with parts := [] }
  else if attrs = ATTR_LFN then
    match parseLfnEntry entry with
    | some part => { scan with parts := part :: scan.parts }
    | none => scan
  else if attrs &&& ATTR_VOLUME_ID ≠ 0 then { scan with parts := [] }
  else
    match decodeShortName (entry.take 11) with
    | none => scan
    | some shortName => {
        parts := []
        entries := scan.entries ++ [{
          name := if scan.parts ≠ [] then scan.parts.flatten else shortName
          fileType := if attrs &&& ATTR_DIRECTORY ≠ 0 then .directory else .regular
          firstCluster := slotCluster entry
          size := slotSize entry
          entryOffset := entryOffset }] }

namespace FatFsInner

variable (v : FatFsInner)

/-- The offsets and lengths of the clusters of a chain. -/
def clusterRegions : List Nat → Except FsError (List (Nat × Nat))
  | [] => .ok []
  | cluster :: chain => do
    let offset ← v.clusterToOffset cluster
    let regions ← clusterRegions chain
    return (offset, v.clusterSize) :: regions

def directoryRegions (state : FatInodeState) : Op (List (Nat × Nat)) :=
  match state.storage with
  | .fixedRoot => return [(v.rootDirOffset, v.rootDirSectors * v.sectorSize)]
  | .clusterChain => do
    let chain ← v.collectChain state.firstCluster
    ofExcept (v.clusterRegions chain)

/-- The inner loop of `read_directory_entries`, over so many slots; and whether the directory has
come to its end. -/
def scanSlots : Nat → Nat → Scan → Op (Bool × Scan)
  | 0, _, scan => return (false, scan)
  | n + 1, entryOffset, scan => do
    let entry ← v.readBytes entryOffset DIR_ENTRY_SIZE
    if entry.getD 0 0 = 0x00 then return (true, scan)
    else scanSlots n (entryOffset + DIR_ENTRY_SIZE) (scan.slot entryOffset entry)

/-- The outer loop of `read_directory_entries`.  The parts of a long name do not go from one region
to the next. -/
def scanRegions : List (Nat × Nat) → List ParsedDirEntry → Op (List ParsedDirEntry)
  | [], entries => return entries
  | (offset, len) :: regions, entries => do
    failIf (decide (USIZE_MAX < offset + len)) .ioError
    let (ended, scan) ← v.scanSlots (len / DIR_ENTRY_SIZE) offset ⟨[], entries⟩
    if ended then return scan.entries else scanRegions regions scan.entries

def readDirectoryEntries (state : FatInodeState) : Op (List ParsedDirEntry) := do
  let regions ← v.directoryRegions state
  v.scanRegions regions []

/-- The inner loop of `find_free_dir_entry`. -/
def findFreeSlot : Nat → Nat → Op (Option Nat)
  | 0, _ => return none
  | n + 1, entryOffset => do
    let byte ← v.readBytes entryOffset 1
    if byte.getD 0 0 = 0x00 ∨ byte.getD 0 0 = 0xE5 then return some entryOffset
    else findFreeSlot n (entryOffset + DIR_ENTRY_SIZE)

/-- The outer loop of `find_free_dir_entry`. -/
def findFreeIn : List (Nat × Nat) → Op (Option Nat)
  | [] => return none
  | (offset, len) :: regions => do
    failIf (decide (USIZE_MAX < offset + len)) .ioError
    let found ← v.findFreeSlot (len / DIR_ENTRY_SIZE) offset
    match found with
    | some entryOffset => return some entryOffset
    | none => findFreeIn regions

def findFreeDirEntry (state : FatInodeState) : Op Nat := do
  let regions ← v.directoryRegions state
  let found ← v.findFreeIn regions
  match found with
  | some entryOffset => return entryOffset
  | none =>
    if state.storage = .fixedRoot then fail .ioError
    else do
      let chain ← v.collectChain state.firstCluster
      match chain.getLast? with
      | none => fail .ioError
      | some last => do
        let newCluster ← v.linkNewCluster last
        ofExcept (v.clusterToOffset newCluster)

end FatFsInner

def rawDirEntry (shortName : List UInt8) (attributes : UInt8) (firstCluster size : Nat) :
    List UInt8 :=
  shortName ++ [attributes] ++ List.replicate 8 (0 : UInt8) ++ leBytes 2 (firstCluster >>> 16) ++
    List.replicate 4 (0 : UInt8) ++ leBytes 2 firstCluster ++ leBytes 4 size

theorem length_rawDirEntry {raw : List UInt8} (h : raw.length = 11) (attributes : UInt8)
    (firstCluster size : Nat) :
    (rawDirEntry raw attributes firstCluster size).length = DIR_ENTRY_SIZE := by
  simp [rawDirEntry, h, DIR_ENTRY_SIZE]

/-- A slot with another cluster and another size. -/
def withMetadata (entry : List UInt8) (firstCluster size : Nat) : List UInt8 :=
  overwrite (overwrite (overwrite entry 20 (leBytes 2 (firstCluster >>> 16))) 26
    (leBytes 2 firstCluster)) 28 (leBytes 4 size)

namespace FatFsInner

variable (v : FatFsInner)

def writeRawDirEntry (entryOffset : Nat) (shortName : List UInt8) (attributes : UInt8)
    (firstCluster size : Nat) : Op Unit :=
  v.writeBytes entryOffset (rawDirEntry shortName attributes firstCluster size)

def updateDirEntryMetadata (entryOffset firstCluster size : Nat) : Op Unit := do
  let entry ← v.readBytes entryOffset DIR_ENTRY_SIZE
  v.writeBytes entryOffset (withMetadata entry firstCluster size)

/-- The short names of the first two slots of a directory. -/
def dotName : List UInt8 := 0x2E :: List.replicate 10 0x20

def dotDotName : List UInt8 := 0x2E :: 0x2E :: List.replicate 9 0x20

def initializeDirectoryCluster (selfCluster parentCluster : Nat) : Op Unit := do
  let offset ← ofExcept (v.clusterToOffset selfCluster)
  failIf (decide (USIZE_MAX < offset + v.clusterSize)) .ioError
  v.writeBytes offset (List.replicate v.clusterSize 0)
  v.writeRawDirEntry offset dotName ATTR_DIRECTORY selfCluster 0
  v.writeRawDirEntry (offset + DIR_ENTRY_SIZE) dotDotName ATTR_DIRECTORY parentCluster 0

end FatFsInner

end Slots

/-! ## Inodes

An inode keeps the first cluster and the size of its file, as they were when the inode was made or
when it was last used for writing.  What is read and written goes by these, and a write puts them
back into the directory entry.

All operations hold the lock of the volume while they use the device.  Before that, each takes a
copy of the state of the inode, and a write replaces the state at its end; so an operation is given
here by what it does with such a copy, and returns the new state.
-/

section Inodes

/-- `FatInode`, what an operation sees of it. -/
structure FatInode where
  fileType : FileType
  state : FatInodeState
  deriving DecidableEq, Repr

namespace FatFsInner

variable (v : FatFsInner)

/-! ## Writing -/

/-- The loop of `write`, over the clusters from the first one to write to on. -/
def writeClusters : List Nat → Nat → List UInt8 → Op Unit
  | [], _, _ => return ()
  | cluster :: chain, clusterOffset, buf =>
    if buf = [] then return ()
    else do
      let imageOffset ← ofExcept (v.clusterToOffset cluster)
      let chunk := min buf.length (v.clusterSize - clusterOffset)
      v.writeBytes (imageOffset + clusterOffset) (buf.take chunk)
      writeClusters chain 0 (buf.drop chunk)

/-- `FatInode::write`: how many bytes were written, and the state of the inode. -/
def write (inode : FatInode) (offset : Nat) (buf : List UInt8) : Op (Nat × FatInodeState) :=
  let state := inode.state
  if inode.fileType = .directory then fail .isADirectory
  else if buf = [] then return (0, state)
  else if USIZE_MAX < offset + buf.length then fail .ioError
  else do
    let stop := offset + buf.length
    let (firstCluster, chain) ← v.ensureChainLen state.firstCluster
      ((stop + v.clusterSize - 1) / v.clusterSize)
    v.writeClusters (chain.drop (offset / v.clusterSize)) (offset % v.clusterSize) buf
    let stop32 ← ofExcept (usizeToU32 stop)
    let state := { state with
      firstCluster := firstCluster
      size := max state.size stop32
      readClusterCache := none }
    match state.dirEntryOffset with
    | none => return (buf.length, state)
    | some entryOffset => do
      v.updateDirEntryMetadata entryOffset state.firstCluster state.size
      return (buf.length, state)

/-! ## Names -/

def inodeOf (entry : ParsedDirEntry) : FatInode where
  fileType := entry.fileType
  state := {
    firstCluster := entry.firstCluster
    size := entry.size
    dirEntryOffset := some entry.entryOffset
    storage := .clusterChain
    readClusterCache := none }

/-- `FatInode::lookup`. -/
def lookup (inode : FatInode) (name : Str) : Op FatInode :=
  if inode.fileType ≠ .directory then fail .notADirectory
  else do
    let entries ← v.readDirectoryEntries inode.state
    match entries.find? fun entry => eqIgnoreAsciiCase entry.name name with
    | none => fail .notFound
    | some entry => return inodeOf entry

def attributesFor : FileType → UInt8
  | .directory => ATTR_DIRECTORY
  | _ => ATTR_ARCHIVE

/-- The first cluster that a new directory has for its parent. -/
def parentCluster (parent : FatInodeState) : Nat :=
  if parent.storage = .fixedRoot then 0 else parent.firstCluster

def initializeNew (fileType : FileType) (firstCluster parentCluster : Nat) : Op Unit :=
  if fileType = .directory then v.initializeDirectoryCluster firstCluster parentCluster
  else return ()

/-- `FatInode::create`. -/
def create (inode : FatInode) (name : Str) (fileType : FileType) : Op FatInode :=
  let parent := inode.state
  if inode.fileType ≠ .directory then fail .notADirectory
  else if fileType ≠ .regular ∧ fileType ≠ .directory then fail .notSupported
  else do
    let shortName ← ofExcept (encodeShortName name)
    let entries ← v.readDirectoryEntries parent
    failIf (entries.any fun entry => eqIgnoreAsciiCase entry.name name) .alreadyExists
    let dirEntryOffset ← v.findFreeDirEntry parent
    let firstCluster ← v.allocateCluster
    v.writeRawDirEntry dirEntryOffset shortName (attributesFor fileType) firstCluster 0
    v.initializeNew fileType firstCluster (parentCluster parent)
    return {
      fileType := fileType
      state := {
        firstCluster := firstCluster
        size := 0
        dirEntryOffset := some dirEntryOffset
        storage := .clusterChain
        readClusterCache := none } }

end FatFsInner

end Inodes

end Krust.Fat
