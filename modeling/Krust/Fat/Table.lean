import Krust.Fat.Volume

/-!
# The file allocation table

The table has an entry for each cluster: 0 if the cluster is free, the next cluster of its chain, or
a mark at the end of the chain.  Entries have 12, 16 or 32 bits, of which the highest four are not
used; two entries of 12 bits share a byte.  There are several copies of the table, and only the
first is read.
-/

set_option autoImplicit false

namespace Krust.Fat

open Lib Prog Block

/-- The state of a mounted volume: the device and the hint. -/
structure FatState where
  disk : Disk
  nextFreeHint : Nat
  /-- The clusters that have been allocated, each with its entry on the device at that time.  No
  code looks at it. -/
  taken : List (Nat × Nat)
  /-- How many accesses to entries of the table have failed.  No code looks at it. -/
  entryFailures : Nat

abbrev Op := Prog FatState FsError

def onDevice {α : Type} (p : Prog Disk DeviceError α) : Op α :=
  embed FatState.disk (fun d s => { s with disk := d }) mapDeviceError p

/-- An access to an entry of the table, with its failures counted. -/
def onEntry {α : Type} (p : Op α) : Op α := do
  let before ← load fun s => s.disk.failures
  let result ← attempt p
  update fun s => { s with entryFailures := s.entryFailures + (s.disk.failures - before) }
  ofExcept result

def FatType.entryStart : FatType → Nat → Nat
  | .fat12, cluster => cluster * 3 / 2
  | .fat16, cluster => cluster * 2
  | .fat32, cluster => cluster * 4

def FatType.entryWidth : FatType → Nat
  | .fat12 => 2
  | .fat16 => 2
  | .fat32 => 4

/-- The entry of a cluster, from the word it lies in. -/
def FatType.decode : FatType → Nat → Nat → Nat
  | .fat12, cluster, value => if cluster &&& 1 = 0 then value &&& 0x0FFF else value >>> 4
  | .fat16, _, value => value
  | .fat32, _, value => value &&& 0x0FFFFFFF

/-- The word with the entry of a cluster replaced. -/
def FatType.encode : FatType → Nat → Nat → Nat → Nat
  | .fat12, cluster, current, value =>
    if cluster &&& 1 = 0 then (current &&& 0xF000) ||| (value &&& 0x0FFF)
    else (current &&& 0x000F) ||| ((value &&& 0x0FFF) <<< 4)
  | .fat16, _, _, value => value
  | .fat32, _, current, value => (current &&& 0xF0000000) ||| (value &&& 0x0FFFFFFF)

namespace FatFsInner

variable (v : FatFsInner)

def eocMarker : Nat :=
  match v.fatType with
  | .fat12 => 0x0FFF
  | .fat16 => 0xFFFF
  | .fat32 => 0x0FFFFFFF

def isEoc (value : Nat) : Bool :=
  match v.fatType with
  | .fat12 => decide (0x0FF8 ≤ value)
  | .fat16 => decide (0xFFF8 ≤ value)
  | .fat32 => decide (0x0FFFFFF8 ≤ value &&& 0x0FFFFFFF)

def readBytes (offset len : Nat) : Op (List UInt8) :=
  onDevice (v.device.readBytes offset (List.replicate len 0))

def writeBytes (offset : Nat) (buf : List UInt8) : Op Unit :=
  onDevice (v.device.writeBytes offset buf)

/-- `FatFsInner::read_u16` and `read_u32`. -/
def readWord (offset w : Nat) : Op Nat := (v.readBytes offset w).map leValue

/-- `read_fat_entry`.  An entry that cannot be read is taken for 0. -/
def readFatEntry (cluster : Nat) : Op Nat := do
  let fat ← ofOption (v.fatOffset 0)
  unwrapOr (onEntry ((v.readWord (fat + v.fatType.entryStart cluster) v.fatType.entryWidth).map
    (v.fatType.decode cluster))) 0

/-- The word before an entry in it is replaced.  A 16 bit entry is not read. -/
def currentWord (offset : Nat) : Op Nat :=
  match v.fatType with
  | .fat16 => return 0
  | t => v.readWord offset t.entryWidth

/-- `write_fat_entry`, one copy of the table.  Errors are ignored. -/
def writeFatCopy (cluster value fatIndex : Nat) : Op Unit := do
  let fat ← ofOption (v.fatOffset fatIndex)
  let offset := fat + v.fatType.entryStart cluster
  unwrapOr (onEntry do
    let current ← v.currentWord offset
    v.writeBytes offset (leBytes v.fatType.entryWidth (v.fatType.encode cluster current value))) ()

def writeFatEntry (cluster value : Nat) : Op Unit :=
  forEach (v.writeFatCopy cluster value) (List.range v.bpb.numFats.toNat)

def zeroCluster (cluster : Nat) : Op Unit := do
  let offset ← ofExcept (v.clusterToOffset cluster)
  v.writeBytes offset (List.replicate v.clusterSize 0)

/-- The entry of a cluster on the device, in the first copy of the table. -/
def entry (data : Nat → UInt8) (cluster : Nat) : Nat :=
  v.fatType.decode cluster (leValue (window data
    (v.firstFatSector * v.sectorSize + v.fatType.entryStart cluster) v.fatType.entryWidth))

/-- A cluster has been found. -/
def takeCluster (cluster : Nat) : Op Nat := do
  update fun s => { s with taken := (cluster, v.entry s.disk.data cluster) :: s.taken }
  v.writeFatEntry cluster v.eocMarker
  v.zeroCluster cluster
  update fun s => { s with nextFreeHint := min (cluster + 1) (2 ^ 32 - 1) }
  return cluster

/-- The loops of `allocate_cluster`, over the clusters that are still to be looked at. -/
def allocateLoop : List Nat → Op Nat
  | [] => fail .ioError
  | cluster :: rest => do
    let value ← v.readFatEntry cluster
    if value = 0 then v.takeCluster cluster else allocateLoop rest

/-- `allocate_cluster`: the clusters from the hint on, and then those before it. -/
def allocateCluster : Op Nat := do
  let hint ← load FatState.nextFreeHint
  let start := max hint 2
  let maxCluster ← ofOption v.maxCluster
  v.allocateLoop (List.range' start (maxCluster + 1 - start) ++ List.range' 2 (start - 2))

/-- The loop of `collect_chain`, with the number of clusters that may still follow. -/
def collectLoop (maxCluster : Nat) : Nat → Nat → Op (List Nat)
  | 0, _ => fail .ioError
  | remaining + 1, current =>
    if current < 2 ∨ maxCluster < current then return []
    else do
      let next ← v.readFatEntry current
      if next < 2 ∨ v.isEoc next then return [current]
      else do
        let rest ← collectLoop maxCluster remaining next
        return current :: rest

def collectChain (startCluster : Nat) : Op (List Nat) :=
  if startCluster < 2 then return []
  else do
    let maxCluster ← ofOption v.maxCluster
    v.collectLoop maxCluster (min (v.totalClusters + 2) (2 ^ 32 - 1)) startCluster

/-- A new cluster is put behind the last cluster of a chain. -/
def linkNewCluster (last : Nat) : Op Nat := do
  let next ← v.allocateCluster
  v.writeFatEntry last next
  v.writeFatEntry next v.eocMarker
  return next

/-- One round of the loop of `ensure_chain_len`. -/
def appendCluster (chain : List Nat) : Op (List Nat) :=
  match chain.getLast? with
  | none => do
    let _ ← v.allocateCluster
    fail .ioError
  | some last => do
    let next ← v.linkNewCluster last
    return chain ++ [next]

/-- The loop of `ensure_chain_len`: so many clusters are missing. -/
def extendLoop : Nat → List Nat → Op (List Nat)
  | 0, chain => return chain
  | missing + 1, chain => do
    let chain ← v.appendCluster chain
    extendLoop missing chain

/-- `ensure_chain_len`: the first cluster, and the chain. -/
def ensureChainLen (firstCluster neededClusters : Nat) : Op (Nat × List Nat) :=
  if neededClusters = 0 then return (firstCluster, [])
  else do
    let chain ← v.collectChain firstCluster
    if chain = [] then do
      let first ← v.allocateCluster
      let chain ← v.extendLoop (neededClusters - 1) [first]
      return (first, chain)
    else do
      let chain ← v.extendLoop (neededClusters - chain.length) chain
      return (firstCluster, chain)

end FatFsInner

end Krust.Fat
