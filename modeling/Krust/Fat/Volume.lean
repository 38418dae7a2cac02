import Krust.Block.Device

/-!
# FAT volumes

The boot sector of a FAT volume says how the volume is cut up: a reserved area, the copies of the
file allocation table, the root directory, and the clusters.  `mount` reads it, checks some of the
numbers and computes where each of the areas begins.

It does not check all of them.  The sum of the areas may be too large for 32 bits, and the table may
be too small for the clusters of the volume.  Otherwise the areas follow each other inside the
device, and each cluster has its entry in the table (`mount_sound_iff`).
-/

set_option autoImplicit false

namespace Krust.Fat

open Lib Prog Block List Function

/-! ## The boot sector -/

inductive FatType
  | fat12
  | fat16
  | fat32
  deriving DecidableEq, Repr

structure BiosParameterBlock where
  bytesPerSector : UInt16
  sectorsPerCluster : UInt8
  reservedSectors : UInt16
  numFats : UInt8
  rootEntryCount : UInt16
  totalSectors : UInt32
  fatSize : UInt32
  rootCluster : UInt32
  deriving DecidableEq

/-- `read_u8`, `read_u16` and `read_u32`: a number of `w` bytes. -/
def readWord (data : List UInt8) (offset w : Nat) : Except FsError Nat :=
  if offset + w ≤ data.length then .ok (leValue (slice data offset w)) else .error .ioError

def parseBpb (sector : List UInt8) : Except FsError BiosParameterBlock := do
  let bytesPerSector ← readWord sector 11 2
  let sectorsPerCluster ← readWord sector 13 1
  let reservedSectors ← readWord sector 14 2
  let numFats ← readWord sector 16 1
  let rootEntryCount ← readWord sector 17 2
  let totalSectors16 ← readWord sector 19 2
  let fatSize16 ← readWord sector 22 2
  let totalSectors32 ← readWord sector 32 4
  let fatSize32 ← readWord sector 36 4
  let rootCluster ← readWord sector 44 4
  return {
    bytesPerSector := .ofNat bytesPerSector
    sectorsPerCluster := .ofNat sectorsPerCluster
    reservedSectors := .ofNat reservedSectors
    numFats := .ofNat numFats
    rootEntryCount := .ofNat rootEntryCount
    totalSectors := .ofNat (if totalSectors16 ≠ 0 then totalSectors16 else totalSectors32)
    fatSize := .ofNat (if fatSize16 ≠ 0 then fatSize16 else fatSize32)
    rootCluster := if rootCluster = 0 then 2 else .ofNat rootCluster }

def validateBpb (bpb : BiosParameterBlock) (sectorCount sectorSize : Nat) : Except FsError Unit :=
  if bpb.bytesPerSector = 0 ∨ bpb.sectorsPerCluster = 0 ∨ bpb.reservedSectors = 0 ∨
      bpb.numFats = 0 ∨ bpb.totalSectors = 0 ∨ bpb.fatSize = 0 then .error .ioError
  else if bpb.bytesPerSector.toNat ≠ sectorSize then .error .ioError
  else if USIZE_MAX < sectorSize * bpb.totalSectors.toNat then .error .ioError
  else if USIZE_MAX < sectorSize * sectorCount then .error .ioError
  else if sectorSize * sectorCount < sectorSize * bpb.totalSectors.toNat then .error .ioError
  else .ok ()

def mapDeviceError : DeviceError → FsError
  | .ioError => .ioError
  | .notReady => .ioError
  | .invalidArgument => .notFound
  | .notFound => .notFound
  | .busy => .busy
  | .notSupported => .notSupported

/-! ## Mounting -/

inductive InodeStorage
  | clusterChain
  | fixedRoot
  deriving DecidableEq, Repr

structure FatInodeState where
  firstCluster : Nat
  size : Nat
  dirEntryOffset : Option Nat
  storage : InodeStorage
  readClusterCache : Option (Nat × Nat)
  deriving DecidableEq, Repr

/-- `FatFsInner`, but for the hint of the next free cluster: what does not change. -/
structure FatFsInner where
  device : BlockDevice
  bpb : BiosParameterBlock
  fatType : FatType
  rootDirSectors : Nat
  rootDirSector : Nat
  firstFatSector : Nat
  firstDataSector : Nat
  totalClusters : Nat
  sectorSize : Nat
  deriving DecidableEq

/-- `FatFs`, with the state of its root inode. -/
structure FatFs where
  inner : FatFsInner
  root : FatInodeState
  deriving DecidableEq

def usizeToU32 (value : Nat) : Except FsError Nat :=
  if value < 2 ^ 32 then .ok value else .error .ioError

/-- The type of a volume follows from the number of its clusters. -/
def FatType.ofClusters (totalClusters : Nat) : FatType :=
  if totalClusters < 4085 then .fat12 else if totalClusters < 65525 then .fat16 else .fat32

def rootState (bpb : BiosParameterBlock) (fatType : FatType) : Except FsError FatInodeState := do
  let size ← if fatType = .fat32 then .ok 0 else usizeToU32 (bpb.rootEntryCount.toNat * 32)
  return {
    firstCluster := if fatType = .fat32 then bpb.rootCluster.toNat else 0
    size := size
    dirEntryOffset := none
    storage := if fatType = .fat32 then .clusterChain else .fixedRoot
    readClusterCache := none }

/-- The end of `FatFs::mount`, with the first sectors of the areas. -/
def FatFs.ofSectors (device : BlockDevice) (bpb : BiosParameterBlock)
    (rootDirSectors rootDirSector firstDataSector : Nat) : Except FsError FatFs :=
  if bpb.totalSectors.toNat < firstDataSector then .error .ioError
  else
    let totalClusters := (bpb.totalSectors.toNat - firstDataSector) / bpb.sectorsPerCluster.toNat
    let fatType := FatType.ofClusters totalClusters
    (rootState bpb fatType).map fun root =>
      ⟨⟨device, bpb, fatType, rootDirSectors, rootDirSector, bpb.reservedSectors.toNat,
        firstDataSector, totalClusters, device.sectorSize⟩, root⟩

/-- The part of `FatFs::mount` that computes the areas; `none` is a panic. -/
def layOut (device : BlockDevice) (bpb : BiosParameterBlock) : Option (Except FsError FatFs) := do
  let u32 := fit device.overflowChecks (2 ^ 32)
  let rootEntryBytes ← u32 (bpb.rootEntryCount.toNat * 32)
  let rounded ← u32 (rootEntryBytes + (bpb.bytesPerSector.toNat - 1))
  let rootDirSectors := rounded / bpb.bytesPerSector.toNat
  let firstFatSector := bpb.reservedSectors.toNat
  let fatSectors ← u32 (bpb.numFats.toNat * bpb.fatSize.toNat)
  let rootDirSector ← u32 (firstFatSector + fatSectors)
  let firstDataSector ← u32 (rootDirSector + rootDirSectors)
  return FatFs.ofSectors device bpb rootDirSectors rootDirSector firstDataSector

/-- `FatFs::mount`, with the boot sector. -/
def mountBoot (device : BlockDevice) (bootSector : List UInt8) : Prog Disk FsError FatFs := do
  let bpb ← ofExcept (parseBpb (bootSector.take 512))
  ofExcept (validateBpb bpb device.sectorCount device.sectorSize)
  let result ← ofOption (layOut device bpb)
  ofExcept result

/-- `FatFs::mount`. -/
def mount (device : BlockDevice) : Prog Disk FsError FatFs := do
  failIf (decide (device.sectorSize < 512)) .ioError
  let bootSector ← embed id (fun d _ => d) mapDeviceError (device.readSector 0)
  mountBoot device bootSector

/-! ## Where things are -/

namespace FatFsInner

variable (v : FatFsInner)

def clusterSize : Nat := v.sectorSize * v.bpb.sectorsPerCluster.toNat

/-- `fat_offset`; `none` is a panic. -/
def fatOffset (fatIndex : Nat) : Option Nat := do
  let skipped ← fit v.device.overflowChecks (2 ^ 32) (fatIndex * v.bpb.fatSize.toNat)
  let fatSector ← fit v.device.overflowChecks (2 ^ 32) (v.firstFatSector + skipped)
  return fatSector * v.sectorSize

def rootDirOffset : Nat := v.rootDirSector * v.sectorSize

/-- `max_cluster`; `none` is a panic. -/
def maxCluster : Option Nat := fit v.device.overflowChecks (2 ^ 32) (v.totalClusters + 1)

def clusterToOffset (cluster : Nat) : Except FsError Nat :=
  if cluster < 2 then .error .ioError
  else if 2 ^ 32 ≤ (cluster - 2) * v.bpb.sectorsPerCluster.toNat then .error .ioError
  else if 2 ^ 32 ≤ v.firstDataSector + (cluster - 2) * v.bpb.sectorsPerCluster.toNat then
    .error .ioError
  else if 2 ^ 64 ≤
      (v.firstDataSector + (cluster - 2) * v.bpb.sectorsPerCluster.toNat) * v.sectorSize then
    .error .ioError
  else .ok ((v.firstDataSector + (cluster - 2) * v.bpb.sectorsPerCluster.toNat) * v.sectorSize)

end FatFsInner

/-- Where the bytes of a cluster's entry end, in the table. -/
def FatType.entryEnd : FatType → Nat → Nat
  | .fat12, cluster => cluster * 3 / 2 + 2
  | .fat16, cluster => cluster * 2 + 2
  | .fat32, cluster => cluster * 4 + 4

namespace FatFsInner

variable (v : FatFsInner)

/-- The areas of the volume in their order, each with the byte where it begins and the byte where it
ends; `none` if the code cannot say where one of them is. -/
def areas : Option (List (Nat × Nat)) := do
  let fats ← (List.range v.bpb.numFats.toNat).mapM fun i =>
    (v.fatOffset i).map fun o => (o, o + v.bpb.fatSize.toNat * v.sectorSize)
  let clusters ← (List.range v.totalClusters).mapM fun i =>
    (v.clusterToOffset (i + 2)).toOption.map fun o => (o, o + v.clusterSize)
  return (0, v.firstFatSector * v.sectorSize) :: (fats ++
    (v.rootDirOffset, v.rootDirOffset + v.rootDirSectors * v.sectorSize) :: clusters)

/-- **The geometry is sound**: it has been computed without overflow, the areas follow each other
inside the device, and each cluster has its entry inside the table. -/
structure Sound : Prop where
  rootDirSectors : v.rootDirSectors =
    (v.bpb.rootEntryCount.toNat * 32 + (v.bpb.bytesPerSector.toNat - 1)) /
      v.bpb.bytesPerSector.toNat
  firstFatSector : v.firstFatSector = v.bpb.reservedSectors.toNat
  rootDirSector : v.rootDirSector =
    v.firstFatSector + v.bpb.numFats.toNat * v.bpb.fatSize.toNat
  firstDataSector : v.firstDataSector = v.rootDirSector + v.rootDirSectors
  totalClusters : v.firstDataSector + v.totalClusters * v.bpb.sectorsPerCluster.toNat ≤
    v.bpb.totalSectors.toNat
  maxCluster : v.maxCluster = some (v.totalClusters + 1)
  areas : ∃ areas, v.areas = some areas ∧ areas.Pairwise (fun a b => a.2 ≤ b.1) ∧
    ∀ a ∈ areas, a.1 ≤ a.2 ∧ a.2 ≤ v.device.capacity
  entries : ∀ c, 2 ≤ c → c ≤ v.totalClusters + 1 →
    v.fatType.entryEnd c ≤ v.bpb.fatSize.toNat * v.sectorSize

/-- What the boot sector has to say for that: the numbers that `mount` checks, and the two things
that it does not check. -/
structure Regular : Prop where
  sectorSize : v.sectorSize = v.device.sectorSize
  bytesPerSector : v.bpb.bytesPerSector.toNat = v.sectorSize
  large : 512 ≤ v.sectorSize
  capacity : v.device.capacity ≤ USIZE_MAX
  sectorsPerCluster : 0 < v.bpb.sectorsPerCluster.toNat
  reservedSectors : 0 < v.bpb.reservedSectors.toNat
  numFats : 0 < v.bpb.numFats.toNat
  firstFatSector : v.firstFatSector = v.bpb.reservedSectors.toNat
  rootDirSectors : v.rootDirSectors =
    (v.bpb.rootEntryCount.toNat * 32 + (v.bpb.bytesPerSector.toNat - 1)) /
      v.bpb.bytesPerSector.toNat
  rootDirSector : v.rootDirSector =
    v.firstFatSector + v.bpb.numFats.toNat * v.bpb.fatSize.toNat
  firstDataSector : v.firstDataSector = v.rootDirSector + v.rootDirSectors
  totalSectors : v.bpb.totalSectors.toNat ≤ v.device.sectorCount
  totalClusters : v.totalClusters =
    (v.bpb.totalSectors.toNat - v.firstDataSector) / v.bpb.sectorsPerCluster.toNat
  room : v.firstDataSector ≤ v.bpb.totalSectors.toNat
  fatType : v.fatType = FatType.ofClusters v.totalClusters
  covers : ∀ c, 2 ≤ c → c ≤ v.totalClusters + 1 →
    v.fatType.entryEnd c ≤ v.bpb.fatSize.toNat * v.sectorSize

/-- The copies of the table lie on the device, and their sectors have been computed without
overflow. -/
structure TablesFit : Prop where
  sectorSize : v.sectorSize = v.device.sectorSize
  positive : 0 < v.sectorSize
  capacity : v.device.capacity ≤ USIZE_MAX
  numFats : 0 < v.bpb.numFats.toNat
  sectors : v.firstFatSector + v.bpb.numFats.toNat * v.bpb.fatSize.toNat < 2 ^ 32
  inside : (v.firstFatSector + v.bpb.numFats.toNat * v.bpb.fatSize.toNat) * v.sectorSize ≤
    v.device.capacity

end FatFsInner

theorem mapM_eq_some {α β : Type} {f : α → Option β} {g : α → β} :
    ∀ {l : List α}, (∀ x ∈ l, f x = some (g x)) → l.mapM f = some (l.map g)
  | [], _ => rfl
  | x :: l, h => by
    rw [mapM_cons, h x (by simp), mapM_eq_some fun y hy => h y (by simp [hy])]
    rfl

def blocks (start size n : Nat) : List (Nat × Nat) :=
  (List.range n).map fun i => (start + i * size, start + (i + 1) * size)

theorem blocks_pairwise (start size n : Nat) :
    (blocks start size n).Pairwise fun a b => a.2 ≤ b.1 := by
  rw [blocks, pairwise_map]
  refine pairwise_lt_range.imp fun {i j} hij => ?_
  exact Nat.add_le_add_left (Nat.mul_le_mul_right size hij) start

variable {c i : Nat} {a : Nat × Nat}

theorem bounds_of_mem_blocks {start size n : Nat} (ha : a ∈ blocks start size n) :
    start ≤ a.1 ∧ a.1 ≤ a.2 ∧ a.2 ≤ start + n * size := by
  rw [blocks, mem_map] at ha
  obtain ⟨i, hi, rfl⟩ := ha
  rw [mem_range] at hi
  refine ⟨Nat.le_add_right .., ?_, ?_⟩
  · exact Nat.add_le_add_left (Nat.mul_le_mul_right size (Nat.le_succ i)) start
  · exact Nat.add_le_add_left (Nat.mul_le_mul_right size hi) start

/-- The areas of a regular volume, by sectors. -/
def FatFsInner.sectorAreas (v : FatFsInner) : List (Nat × Nat) :=
  (0, v.firstFatSector) ::
    (blocks v.firstFatSector v.bpb.fatSize.toNat v.bpb.numFats.toNat ++
      (v.rootDirSector, v.firstDataSector) ::
        blocks v.firstDataSector v.bpb.sectorsPerCluster.toNat v.totalClusters)

theorem FatFsInner.fat_add_le (v : FatFsInner) (hi : i < v.bpb.numFats.toNat) :
    v.firstFatSector + i * v.bpb.fatSize.toNat + v.bpb.fatSize.toNat ≤
      v.firstFatSector + v.bpb.numFats.toNat * v.bpb.fatSize.toNat := by
  have hpart : (i + 1) * v.bpb.fatSize.toNat ≤ v.bpb.numFats.toNat * v.bpb.fatSize.toNat :=
    Nat.mul_le_mul_right _ hi
  rw [add_mul] at hpart
  omega

theorem FatFsInner.TablesFit.fatOffset_eq {v : FatFsInner} (h : v.TablesFit)
    (hi : i < v.bpb.numFats.toNat) :
    v.fatOffset i = some ((v.firstFatSector + i * v.bpb.fatSize.toNat) * v.sectorSize) := by
  have hle := v.fat_add_le hi
  have hsectors := h.sectors
  rw [FatFsInner.fatOffset, fit_of_lt (by omega), Option.bind_eq_bind, Option.bind_some,
    fit_of_lt (by omega)]
  rfl

namespace FatFsInner.Regular

variable {v : FatFsInner} (h : v.Regular)

include h

theorem totalClusters_mul_le : v.firstDataSector +
    v.totalClusters * v.bpb.sectorsPerCluster.toNat ≤ v.bpb.totalSectors.toNat := by
  have hroom := h.room
  have hall : v.totalClusters * v.bpb.sectorsPerCluster.toNat ≤
      v.bpb.totalSectors.toNat - v.firstDataSector := by
    rw [h.totalClusters]
    exact Nat.div_mul_le_self _ _
  omega

theorem cluster_le (hc : c ≤ v.totalClusters + 1) :
    v.firstDataSector + (c - 2) * v.bpb.sectorsPerCluster.toNat +
      (if 2 ≤ c then v.bpb.sectorsPerCluster.toNat else 0) ≤ v.bpb.totalSectors.toNat := by
  have hall := h.totalClusters_mul_le
  split
  · have hpart : (c - 2 + 1) * v.bpb.sectorsPerCluster.toNat ≤
        v.totalClusters * v.bpb.sectorsPerCluster.toNat := Nat.mul_le_mul_right _ (by omega)
    rw [add_mul] at hpart
    omega
  · have hzero : c - 2 = 0 := by omega
    rw [hzero]
    omega

theorem sector_le {n : Nat} (hn : n ≤ v.bpb.totalSectors.toNat) :
    n * v.sectorSize ≤ v.device.capacity := by
  rw [BlockDevice.capacity, ← h.sectorSize, mul_comm]
  exact Nat.mul_le_mul_left _ (hn.trans h.totalSectors)

theorem tables : v.TablesFit where
  sectorSize := h.sectorSize
  positive := lt_of_lt_of_le (by decide) h.large
  capacity := h.capacity
  numFats := h.numFats
  sectors := by
    have htotal := v.bpb.totalSectors.toNat_lt
    have hroom := h.room
    rw [h.firstDataSector, h.rootDirSector] at hroom
    omega
  inside := by
    have hroom := h.room
    rw [h.firstDataSector] at hroom
    rw [← h.rootDirSector]
    exact h.sector_le (by omega)

theorem fat_le (hi : i < v.bpb.numFats.toNat) :
    v.firstFatSector + i * v.bpb.fatSize.toNat + v.bpb.fatSize.toNat ≤ v.rootDirSector :=
  h.rootDirSector ▸ v.fat_add_le hi

theorem fatOffset_eq (hi : i < v.bpb.numFats.toNat) :
    v.fatOffset i = some ((v.firstFatSector + i * v.bpb.fatSize.toNat) * v.sectorSize) :=
  h.tables.fatOffset_eq hi

theorem totalClusters_lt : v.totalClusters + 1 < 2 ^ 32 := by
  have htotal := v.bpb.totalSectors.toNat_lt
  have hle : v.totalClusters ≤ v.bpb.totalSectors.toNat - v.firstDataSector := by
    rw [h.totalClusters]
    exact Nat.div_le_self _ _
  have hreserved := h.reservedSectors
  have hroom := h.room
  rw [h.firstDataSector, h.rootDirSector, h.firstFatSector] at hle hroom
  omega

theorem maxCluster_eq : v.maxCluster = some (v.totalClusters + 1) := fit_of_lt h.totalClusters_lt

theorem clusterToOffset_eq (hc : 2 ≤ c) (hc' : c ≤ v.totalClusters + 1) :
    v.clusterToOffset c =
      .ok ((v.firstDataSector + (c - 2) * v.bpb.sectorsPerCluster.toNat) * v.sectorSize) := by
  have hle := h.cluster_le hc'
  have htotal := v.bpb.totalSectors.toNat_lt
  have hcapacity := (h.sector_le (Nat.le_of_add_right_le hle)).trans h.capacity
  have hmax : USIZE_MAX < 2 ^ 64 := by decide
  rw [clusterToOffset, if_neg (by omega), if_neg (by omega), if_neg (by omega),
    if_neg (by omega)]

theorem areas_eq :
    v.areas = some (v.sectorAreas.map fun a => (a.1 * v.sectorSize, a.2 * v.sectorSize)) := by
  have hfats : ∀ i ∈ range v.bpb.numFats.toNat,
      ((v.fatOffset i).map fun o => (o, o + v.bpb.fatSize.toNat * v.sectorSize)) =
        some ((v.firstFatSector + i * v.bpb.fatSize.toNat) * v.sectorSize,
          (v.firstFatSector + (i + 1) * v.bpb.fatSize.toNat) * v.sectorSize) := by
    intro i hi
    rw [h.fatOffset_eq (mem_range.1 hi), Option.map_some, ← add_mul, add_assoc,
      ← Nat.succ_mul]
  have hclusters : ∀ i ∈ range v.totalClusters,
      ((v.clusterToOffset (i + 2)).toOption.map fun o => (o, o + v.clusterSize)) =
        some ((v.firstDataSector + i * v.bpb.sectorsPerCluster.toNat) * v.sectorSize,
          (v.firstDataSector + (i + 1) * v.bpb.sectorsPerCluster.toNat) * v.sectorSize) := by
    intro i hi
    rw [mem_range] at hi
    rw [h.clusterToOffset_eq (by omega) (by omega), Nat.add_sub_cancel, clusterSize,
      mul_comm v.sectorSize]
    simp only [Except.toOption, Option.map_some]
    rw [← Nat.add_mul, Nat.add_assoc, ← Nat.succ_mul]
  rw [areas, mapM_eq_some hfats, mapM_eq_some hclusters]
  simp only [sectorAreas, blocks, map_cons, map_append, map_map, comp_def,
    rootDirOffset, ← add_mul, ← h.firstDataSector, zero_mul]
  rfl

theorem sectorAreas_pairwise : v.sectorAreas.Pairwise fun a b => a.2 ≤ b.1 := by
  have hroot := h.rootDirSector
  have hdata := h.firstDataSector
  refine pairwise_cons.2 ⟨fun a ha => ?_, pairwise_append.2
    ⟨blocks_pairwise .., pairwise_cons.2 ⟨fun a ha => ?_, blocks_pairwise ..⟩,
      fun a ha b hb => ?_⟩⟩
  · rcases mem_append.1 ha with ha | ha
    · exact (bounds_of_mem_blocks ha).1
    · rcases mem_cons.1 ha with rfl | ha
      · exact hroot ▸ Nat.le_add_right ..
      · have hstart := (bounds_of_mem_blocks ha).1
        omega
  · exact (bounds_of_mem_blocks ha).1
  · have hend := (bounds_of_mem_blocks ha).2.2
    rcases mem_cons.1 hb with rfl | hb
    · exact hend.trans (le_of_eq hroot.symm)
    · have hstart := (bounds_of_mem_blocks hb).1
      omega

theorem bounds_of_mem_sectorAreas (ha : a ∈ v.sectorAreas) :
    a.1 ≤ a.2 ∧ a.2 ≤ v.bpb.totalSectors.toNat := by
  have hroot := h.rootDirSector
  have hdata := h.firstDataSector
  have hall := h.totalClusters_mul_le
  rcases mem_cons.1 ha with rfl | ha
  · omega
  rcases mem_append.1 ha with ha | ha
  · obtain ⟨-, hle, hend⟩ := bounds_of_mem_blocks ha
    exact ⟨hle, by omega⟩
  rcases mem_cons.1 ha with rfl | ha
  · omega
  · obtain ⟨-, hle, hend⟩ := bounds_of_mem_blocks ha
    exact ⟨hle, by omega⟩

/-- **A regular volume is sound.** -/
theorem sound : v.Sound where
  rootDirSectors := h.rootDirSectors
  firstFatSector := h.firstFatSector
  rootDirSector := h.rootDirSector
  firstDataSector := h.firstDataSector
  totalClusters := h.totalClusters_mul_le
  maxCluster := h.maxCluster_eq
  areas := by
    refine ⟨_, h.areas_eq, ?_, ?_⟩
    · rw [pairwise_map]
      exact h.sectorAreas_pairwise.imp fun hab => Nat.mul_le_mul_right _ hab
    intro a ha
    obtain ⟨b, hb, rfl⟩ := mem_map.1 ha
    obtain ⟨hle, hend⟩ := h.bounds_of_mem_sectorAreas hb
    exact ⟨Nat.mul_le_mul_right _ hle, h.sector_le hend⟩
  entries := h.covers

end FatFsInner.Regular

/-! ## What the boot sector has to say -/

namespace BiosParameterBlock

variable (bpb : BiosParameterBlock)

def rootDirSectors : Nat :=
  (bpb.rootEntryCount.toNat * 32 + (bpb.bytesPerSector.toNat - 1)) / bpb.bytesPerSector.toNat

/-- The sum of the areas before the clusters. -/
def firstDataSector : Nat :=
  bpb.reservedSectors.toNat + bpb.numFats.toNat * bpb.fatSize.toNat + bpb.rootDirSectors

def totalClusters : Nat :=
  (bpb.totalSectors.toNat - bpb.firstDataSector) / bpb.sectorsPerCluster.toNat

/-- The sum of the areas fits into 32 bits, or its lower 32 bits already exceed the volume and
nobody checks for overflows; and the table has room for an entry of the last cluster. -/
def Fits (overflowChecks : Bool) : Prop :=
  (2 ^ 32 ≤ bpb.firstDataSector →
    overflowChecks = false ∧ bpb.totalSectors.toNat < bpb.firstDataSector % 2 ^ 32) ∧
  (bpb.firstDataSector ≤ bpb.totalSectors.toNat → 0 < bpb.totalClusters →
    (FatType.ofClusters bpb.totalClusters).entryEnd (bpb.totalClusters + 1) ≤
      bpb.fatSize.toNat * bpb.bytesPerSector.toNat)

end BiosParameterBlock

variable {device : BlockDevice} {bpb : BiosParameterBlock}

/-- If the sum of the areas fits into 32 bits, it is computed. -/
theorem layOut_of_lt (h : bpb.firstDataSector < 2 ^ 32) :
    layOut device bpb = some (FatFs.ofSectors device bpb bpb.rootDirSectors
      (bpb.reservedSectors.toNat + bpb.numFats.toNat * bpb.fatSize.toNat)
      bpb.firstDataSector) := by
  have hcount := bpb.rootEntryCount.toNat_lt
  have hsize := bpb.bytesPerSector.toNat_lt
  have hroot : bpb.reservedSectors.toNat + bpb.numFats.toNat * bpb.fatSize.toNat < 2 ^ 32 :=
    Nat.lt_of_le_of_lt (Nat.le_add_right ..) h
  have hfats : bpb.numFats.toNat * bpb.fatSize.toNat < 2 ^ 32 :=
    Nat.lt_of_le_of_lt (Nat.le_add_left ..) hroot
  rw [layOut]
  simp only [Option.bind_eq_bind]
  rw [fit_of_lt (by omega), Option.bind_some, fit_of_lt (by omega), Option.bind_some,
    fit_of_lt hfats, Option.bind_some, fit_of_lt hroot]
  exact congrArg (Option.bind · _) (fit_of_lt h)

/-- If it does not, then there is a panic where overflows are checked. -/
theorem layOut_checked (h : 2 ^ 32 ≤ bpb.firstDataSector) (hchecks : device.overflowChecks = true) :
    layOut device bpb = none := by
  have hcount := bpb.rootEntryCount.toNat_lt
  have hsize := bpb.bytesPerSector.toNat_lt
  rw [BiosParameterBlock.firstDataSector, BiosParameterBlock.rootDirSectors] at h
  rw [layOut, hchecks]
  simp only [Option.bind_eq_bind]
  rw [fit_of_lt (by omega), Option.bind_some, fit_of_lt (by omega), Option.bind_some]
  by_cases hfats : bpb.numFats.toNat * bpb.fatSize.toNat < 2 ^ 32
  · rw [fit_of_lt hfats, Option.bind_some]
    by_cases hroot : bpb.reservedSectors.toNat + bpb.numFats.toNat * bpb.fatSize.toNat < 2 ^ 32
    · rw [fit_of_lt hroot, Option.bind_some, fit_checked h, Option.bind_none]
    · rw [fit_checked (Nat.le_of_not_lt hroot), Option.bind_none]
  · rw [fit_checked (Nat.le_of_not_lt hfats), Option.bind_none]

/-- Where they are not checked, the lower 32 bits of the sum are computed. -/
theorem layOut_unchecked (hchecks : device.overflowChecks = false) :
    layOut device bpb = some (FatFs.ofSectors device bpb bpb.rootDirSectors
      ((bpb.reservedSectors.toNat + bpb.numFats.toNat * bpb.fatSize.toNat) % 2 ^ 32)
      (bpb.firstDataSector % 2 ^ 32)) := by
  have hcount := bpb.rootEntryCount.toNat_lt
  have hsize := bpb.bytesPerSector.toNat_lt
  rw [layOut, hchecks]
  simp only [Option.bind_eq_bind]
  rw [fit_of_lt (by omega), Option.bind_some, fit_of_lt (by omega), Option.bind_some,
    fit_unchecked, Option.bind_some, fit_unchecked, Option.bind_some, fit_unchecked,
    Nat.add_mod_mod, Nat.mod_add_mod]
  rfl

theorem rootState_ok (bpb : BiosParameterBlock) (fatType : FatType) :
    ∃ root, rootState bpb fatType = .ok root := by
  have hcount := bpb.rootEntryCount.toNat_lt
  rw [rootState]
  split
  · exact ⟨_, rfl⟩
  · rw [usizeToU32, if_pos (by omega)]
    exact ⟨_, rfl⟩

/-- The volume, if the areas leave room for clusters. -/
theorem ofSectors_ok (device : BlockDevice) (rootDirSectors rootDirSector : Nat)
    {firstDataSector : Nat} (h : firstDataSector ≤ bpb.totalSectors.toNat) :
    ∃ root, FatFs.ofSectors device bpb rootDirSectors rootDirSector firstDataSector =
      .ok ⟨⟨device, bpb, FatType.ofClusters ((bpb.totalSectors.toNat - firstDataSector) /
          bpb.sectorsPerCluster.toNat), rootDirSectors, rootDirSector, bpb.reservedSectors.toNat,
        firstDataSector, (bpb.totalSectors.toNat - firstDataSector) /
          bpb.sectorsPerCluster.toNat, device.sectorSize⟩, root⟩ := by
  obtain ⟨root, hroot⟩ := rootState_ok bpb (FatType.ofClusters
    ((bpb.totalSectors.toNat - firstDataSector) / bpb.sectorsPerCluster.toNat))
  refine ⟨root, ?_⟩
  rw [FatFs.ofSectors, if_neg (not_lt.2 h)]
  dsimp only
  rw [hroot]
  rfl

/-- The numbers that `validate_bpb` has seen. -/
structure BiosParameterBlock.Valid (bpb : BiosParameterBlock) (device : BlockDevice) : Prop where
  bytesPerSector : bpb.bytesPerSector.toNat = device.sectorSize
  sectorsPerCluster : 0 < bpb.sectorsPerCluster.toNat
  reservedSectors : 0 < bpb.reservedSectors.toNat
  numFats : 0 < bpb.numFats.toNat
  capacity : device.capacity ≤ USIZE_MAX
  totalSectors : device.sectorSize * bpb.totalSectors.toNat ≤ device.capacity

theorem valid_of_validateBpb (h : validateBpb bpb device.sectorCount device.sectorSize = .ok ()) :
    bpb.Valid device := by
  rw [validateBpb] at h
  split at h
  · cases h
  rename_i hzero
  split at h
  · cases h
  rename_i hsize
  split at h
  · cases h
  split at h
  · cases h
  rename_i hcapacity
  split at h
  · cases h
  rename_i htotal
  rw [not_or, not_or, not_or, not_or, not_or] at hzero
  obtain ⟨-, hcluster, hreserved, hfats, -, -⟩ := hzero
  refine ⟨not_not.1 hsize, ?_, ?_, ?_, Nat.le_of_not_lt hcapacity,
    Nat.le_of_not_lt htotal⟩
  · exact Nat.pos_of_ne_zero fun h => hcluster (UInt8.toNat_inj.1 h)
  · exact Nat.pos_of_ne_zero fun h => hreserved (UInt16.toNat_inj.1 h)
  · exact Nat.pos_of_ne_zero fun h => hfats (UInt8.toNat_inj.1 h)

/-- What may come out of `mount`: an error, or a sound geometry. -/
def Safe : Option (Except FsError FatFs) → Prop
  | none => False
  | some (.error _) => True
  | some (.ok fs) => fs.inner.Sound

theorem FatType.entryEnd_mono (t : FatType) {c' : Nat} (h : c ≤ c') :
    t.entryEnd c ≤ t.entryEnd c' := by
  cases t <;> simp only [FatType.entryEnd] <;> omega

theorem regular_of_fits (hv : bpb.Valid device) (hlarge : 512 ≤ device.sectorSize)
    (hroom : bpb.firstDataSector ≤ bpb.totalSectors.toNat)
    (hfits : bpb.Fits device.overflowChecks) :
    FatFsInner.Regular ⟨device, bpb, FatType.ofClusters bpb.totalClusters, bpb.rootDirSectors,
      bpb.reservedSectors.toNat + bpb.numFats.toNat * bpb.fatSize.toNat,
      bpb.reservedSectors.toNat, bpb.firstDataSector, bpb.totalClusters, device.sectorSize⟩ where
  sectorSize := rfl
  bytesPerSector := hv.bytesPerSector
  large := hlarge
  capacity := hv.capacity
  sectorsPerCluster := hv.sectorsPerCluster
  reservedSectors := hv.reservedSectors
  numFats := hv.numFats
  firstFatSector := rfl
  rootDirSectors := rfl
  rootDirSector := rfl
  firstDataSector := rfl
  totalSectors := by
    have htotal := hv.totalSectors
    rw [BlockDevice.capacity] at htotal
    exact Nat.le_of_mul_le_mul_left htotal (by omega)
  totalClusters := rfl
  room := hroom
  fatType := rfl
  covers := by
    intro c hc hc'
    dsimp only at *
    have hlast := hfits.2 hroom (by omega)
    rw [hv.bytesPerSector] at hlast
    exact (FatType.entryEnd_mono _ hc').trans hlast

theorem layOut_safe_iff (hv : bpb.Valid device) (hlarge : 512 ≤ device.sectorSize) :
    Safe (layOut device bpb) ↔ bpb.Fits device.overflowChecks := by
  by_cases hlt : bpb.firstDataSector < 2 ^ 32
  · rw [layOut_of_lt hlt]
    by_cases hroom : bpb.firstDataSector ≤ bpb.totalSectors.toNat
    · obtain ⟨root, hroot⟩ := ofSectors_ok device bpb.rootDirSectors
        (bpb.reservedSectors.toNat + bpb.numFats.toNat * bpb.fatSize.toNat) hroom
      rw [hroot]
      constructor
      · intro hsound
        refine ⟨fun h => absurd hlt (Nat.not_lt.2 h), fun _ hpos => ?_⟩
        rw [hv.bytesPerSector]
        exact hsound.entries _ (by omega) le_rfl
      · intro hfits
        exact (regular_of_fits hv hlarge hroom hfits).sound
    · rw [FatFs.ofSectors, if_pos (Nat.lt_of_not_le hroom)]
      exact iff_of_true trivial
        ⟨fun h => absurd hlt (Nat.not_lt.2 h), fun h => absurd h hroom⟩
  · have hle := Nat.le_of_not_lt hlt
    cases hchecks : device.overflowChecks with
    | true =>
      rw [layOut_checked hle hchecks]
      exact iff_of_false id fun hfits => Bool.noConfusion (hfits.1 hle).1
    | false =>
      rw [layOut_unchecked hchecks]
      by_cases hroom : bpb.firstDataSector % 2 ^ 32 ≤ bpb.totalSectors.toNat
      · obtain ⟨root, hroot⟩ := ofSectors_ok device bpb.rootDirSectors
          ((bpb.reservedSectors.toNat + bpb.numFats.toNat * bpb.fatSize.toNat) % 2 ^ 32) hroom
        rw [hroot]
        refine iff_of_false (fun hsound => ?_) fun hfits => ?_
        -- The sum that was computed is less than 2^32, and so not the sum of the areas.
        · have hroot := hsound.rootDirSector
          have hdata := hsound.firstDataSector
          have hsum : bpb.firstDataSector = bpb.reservedSectors.toNat +
            bpb.numFats.toNat * bpb.fatSize.toNat + bpb.rootDirSectors := rfl
          dsimp only at hroot hdata
          omega
        · exact absurd (hfits.1 hle).2 (Nat.not_lt.2 hroom)
      · rw [FatFs.ofSectors, if_pos (Nat.lt_of_not_le hroom)]
        exact iff_of_true trivial
          ⟨fun _ => ⟨rfl, Nat.lt_of_not_le hroom⟩, fun h => by omega⟩

theorem mountBoot_sound_iff (hlarge : 512 ≤ device.sectorSize) (bootSector : List UInt8)
    (d : Disk) :
    Ends (mountBoot device bootSector) (fun r _ => Safe r) d ↔
      ∀ bpb, parseBpb (bootSector.take 512) = .ok bpb →
        validateBpb bpb device.sectorCount device.sectorSize = .ok () →
        bpb.Fits device.overflowChecks := by
  rw [mountBoot, bind_eq, ends_ofExcept]
  cases parseBpb (bootSector.take 512) with
  | error e => exact iff_of_true trivial nofun
  | ok bpb =>
    simp only [Except.ok.injEq, forall_eq']
    cases hvalid : validateBpb bpb device.sectorCount device.sectorSize with
    | error e => exact iff_of_true trivial nofun
    | ok _ =>
      refine Iff.trans ?_ (forall_prop_of_true rfl).symm
      rw [← layOut_safe_iff (valid_of_validateBpb hvalid) hlarge]
      rcases layOut device bpb with _ | _ | fs <;> exact Iff.rfl

/-- **What mounting comes to**: an error or a sound geometry, exactly if the boot sector, where it
can be read and passes the checks, fits. -/
theorem mount_sound_iff (device : BlockDevice) (d : Disk) :
    Safe (run (mount device) d).1 ↔
      ∀ bootSector bpb, (run (device.readSector 0) d).1 = some (.ok bootSector) →
        512 ≤ device.sectorSize → parseBpb (bootSector.take 512) = .ok bpb →
        validateBpb bpb device.sectorCount device.sectorSize = .ok () →
        bpb.Fits device.overflowChecks := by
  change Ends (mount device) (fun r _ => Safe r) d ↔ _
  rw [mount, bind_eq, ends_failIf]
  by_cases hsmall : device.sectorSize < 512
  · rw [if_pos (decide_eq_true hsmall)]
    exact iff_of_true trivial fun _ _ _ h => absurd hsmall (not_lt.2 h)
  have hlarge := Nat.le_of_not_lt hsmall
  have hembed := run_embed id (fun d _ => d) mapDeviceError (device.readSector 0) d
  rw [if_neg (Bool.not_eq_true _ ▸ decide_eq_false hsmall), bind_eq, ends_bind, Ends, hembed, id]
  obtain ⟨r, hr⟩ := device.readSector_returns 0 d
  rw [hr]
  cases r with
  | error e => exact iff_of_true trivial fun _ _ h => by cases h
  | ok bootSector =>
    refine (mountBoot_sound_iff hlarge bootSector _).trans ?_
    constructor
    · rintro h _ bpb hboot -
      cases hboot
      exact h bpb
    · intro h bpb
      exact h bootSector bpb rfl hlarge

/-- A part of soundness that can be computed: the root directory follows the tables, and the last
cluster has its entry. -/
def lookAt : Option (Except FsError FatFs) → Bool
  | none => false
  | some (.error _) => true
  | some (.ok fs) =>
    decide (fs.inner.rootDirSector =
      fs.inner.firstFatSector + fs.inner.bpb.numFats.toNat * fs.inner.bpb.fatSize.toNat) &&
    decide (fs.inner.totalClusters = 0 ∨
      fs.inner.fatType.entryEnd (fs.inner.totalClusters + 1) ≤
        fs.inner.bpb.fatSize.toNat * fs.inner.sectorSize)

theorem lookAt_of_safe {r : Option (Except FsError FatFs)} (h : Safe r) : lookAt r = true := by
  rcases r with _ | _ | fs
  · exact h.elim
  · rfl
  rw [lookAt, Bool.and_eq_true, decide_eq_true_eq, decide_eq_true_eq]
  refine ⟨h.rootDirSector, ?_⟩
  rcases Nat.eq_zero_or_pos fs.inner.totalClusters with hzero | hpos
  · exact .inl hzero
  · exact .inr (h.entries _ (by omega) le_rfl)

/-- A device that begins with these bytes. -/
def bootDisk (bytes : List UInt8) : Disk := ⟨fun a => bytes.getD a 0, [], 0⟩

/-- 5000 sectors with a table of one sector. -/
def smallTable : List UInt8 :=
  [0, 0, 0, 0, 0, 0, 0, 0, 0, 0, 0, 0, 2, 1, 1, 0, 1, 16, 0, 0x88, 0x13, 0, 1, 0]

/-- 5000 sectors with two tables of 2^31 sectors. -/
def hugeTables : List UInt8 :=
  [0, 0, 0, 0, 0, 0, 0, 0, 0, 0, 0, 0, 2, 1, 1, 0, 2, 16, 0, 0x88, 0x13, 0, 0, 0, 0, 0, 0, 0, 0, 0,
    0, 0, 0, 0, 0, 0, 0, 0, 0, 0x80]

/-- **A table may be too small for the clusters, and the tables may be too large for 32 bits**; with
overflow checks the latter is a panic. -/
theorem mount_not_sound :
    ¬ Safe (run (mount ⟨512, 5000, true⟩) (bootDisk smallTable)).1 ∧
      ¬ Safe (run (mount ⟨512, 5000, false⟩) (bootDisk smallTable)).1 ∧
      ¬ Safe (run (mount ⟨512, 5000, true⟩) (bootDisk hugeTables)).1 ∧
      ¬ Safe (run (mount ⟨512, 5000, false⟩) (bootDisk hugeTables)).1 := by
  have hsafe : ∀ {r}, lookAt r = false → ¬ Safe r := fun hr h =>
    Bool.false_ne_true (hr.symm.trans (lookAt_of_safe h))
  refine ⟨hsafe ?_, hsafe ?_, hsafe ?_, hsafe ?_⟩ <;> decide +kernel

end Krust.Fat
