import Krust.Fat.Chains
import Krust.Fat.Directory

/-!
# Directories on a device that does not fail

On such a device `read_directory_entries` is a function of the slots of the directory, region by
region (`Volume.run_scanRegions`), and the regions are the clusters of the chain, or the area of the
root directory (`Volume.run_directoryRegions`).
-/

set_option autoImplicit false

namespace Krust.Fat

open Lib Prog Block List FatFsInner

abbrev Slot := Nat × List UInt8

def regionSlots (data : Nat → UInt8) (region : Nat × Nat) : List Slot :=
  (List.range (region.2 / DIR_ENTRY_SIZE)).map fun i =>
    (region.1 + i * DIR_ENTRY_SIZE, window data (region.1 + i * DIR_ENTRY_SIZE) DIR_ENTRY_SIZE)

/-- What the slots of one region add, and whether the directory has come to its end. -/
def scanList : List Slot → Scan → Bool × Scan
  | [], scan => (false, scan)
  | slot :: slots, scan =>
    if slot.2.getD 0 0 = 0x00 then (true, scan) else scanList slots (scan.slot slot.1 slot.2)

def listRegions : List (List Slot) → List ParsedDirEntry → List ParsedDirEntry
  | [], entries => entries
  | slots :: regions, entries =>
    let (ended, scan) := scanList slots ⟨[], entries⟩
    if ended then scan.entries else listRegions regions scan.entries

def Volume.regions (v : Volume) (storage : InodeStorage) (chain : List Nat) : List (Nat × Nat) :=
  match storage with
  | .fixedRoot => [(v.rootDirOffset, v.rootDirSectors * v.sectorSize)]
  | .clusterChain => chain.map fun c => (v.clusterStart c, v.clusterSize)

def Volume.slots (v : Volume) (data : Nat → UInt8) (storage : InodeStorage) (chain : List Nat) :
    List (List Slot) :=
  (v.regions storage chain).map (regionSlots data)

def Volume.listing (v : Volume) (data : Nat → UInt8) (storage : InodeStorage) (chain : List Nat) :
    List ParsedDirEntry :=
  listRegions (v.slots data storage chain) []

theorem map_slots_succ {α : Type} (f : Nat → α) (offset n : Nat) :
    ((List.range (n + 1)).map fun i => f (offset + i * DIR_ENTRY_SIZE)) =
      f offset ::
        (List.range n).map fun i => f (offset + DIR_ENTRY_SIZE + i * DIR_ENTRY_SIZE) := by
  rw [range_succ_eq_map, map_cons, map_map]
  refine congrArg _ (map_congr_left fun i _ => congrArg f ?_)
  rw [Nat.succ_mul]
  omega

variable {l : List Nat} {first : Nat} {data' : Nat → UInt8}

namespace Volume

variable (v : Volume) {s : FatState}

theorem run_scanSlots (hs : s.Reliable) (n : Nat) :
    ∀ (offset : Nat) (scan : Scan), offset + n * DIR_ENTRY_SIZE ≤ v.device.capacity →
      run (v.scanSlots n offset scan) s = (some (.ok (scanList
        ((List.range n).map fun i => (offset + i * DIR_ENTRY_SIZE,
          window s.data (offset + i * DIR_ENTRY_SIZE) DIR_ENTRY_SIZE)) scan)), s) := by
  induction n with
  | zero => intro offset scan hin; rfl
  | succ n ih =>
    intro offset scan hin
    rw [Nat.succ_mul] at hin
    rw [map_slots_succ fun o => (o, window s.data o DIR_ENTRY_SIZE), scanList]
    refine (run_bind_ok (v.tables.run_readBytes hs (by omega)) _).trans ?_
    split
    · rfl
    · exact ih _ _ (by omega)

def OnDevice (region : Nat × Nat) : Prop := region.1 + region.2 ≤ v.device.capacity

variable {v : Volume}

theorem OnDevice.slots_le {offset len : Nat} (h : v.OnDevice (offset, len)) :
    offset + len / DIR_ENTRY_SIZE * DIR_ENTRY_SIZE ≤ v.device.capacity ∧
      decide (USIZE_MAX < offset + len) = false :=
  ⟨(Nat.add_le_add_left (Nat.div_mul_le_self _ _) _).trans h,
    decide_eq_false (not_lt.2 (h.trans v.regular.capacity))⟩

theorem run_scanRegions (hs : s.Reliable) {regions : List (Nat × Nat)}
    (hin : ∀ r ∈ regions, v.OnDevice r) (entries : List ParsedDirEntry) :
    run (v.scanRegions regions entries) s =
      (some (.ok (listRegions (regions.map (regionSlots s.data)) entries)), s) := by
  induction regions generalizing entries with
  | nil => rfl
  | cons region regions ih =>
    obtain ⟨offset, len⟩ := region
    obtain ⟨hsize, hfit⟩ := (hin _ mem_cons_self).slots_le
    have hscan := v.run_scanSlots hs (len / DIR_ENTRY_SIZE) offset ⟨[], entries⟩ hsize
    rw [scanRegions, map_cons, listRegions, hfit]
    refine (run_bind_ok hscan _).trans ?_
    rw [regionSlots]
    dsimp only
    split
    · rfl
    · exact ih (forall_mem_cons.1 hin).2 _

variable {chain : List Nat} {data : Nat → UInt8} {state : FatInodeState}

theorem clusterRegions_eq (hchain : ∀ c ∈ chain, v.IsCluster c) :
    v.clusterRegions chain = .ok (chain.map fun c => (v.clusterStart c, v.clusterSize)) := by
  induction chain with
  | nil => rfl
  | cons c chain ih =>
    rw [clusterRegions, v.clusterToOffset_eq (hchain c mem_cons_self),
      ih (forall_mem_cons.1 hchain).2]
    rfl

/-- The clusters of a directory: none for the fixed root. -/
def DirChain (data : Nat → UInt8) (state : FatInodeState) (chain : List Nat) : Prop :=
  match state.storage with
  | .fixedRoot => chain = []
  | .clusterChain => v.ChainFrom data state.firstCluster chain

theorem ChainFrom.isCluster (h : v.ChainFrom data first l) :
    ∀ c ∈ l, v.IsCluster c := by
  rcases h with ⟨hc, h⟩ | ⟨-, rfl⟩
  · exact v.isCluster_of_mem h hc
  · intro c hc
    cases hc

theorem DirChain.isCluster (h : v.DirChain data state chain) :
    ∀ c ∈ chain, v.IsCluster c := by
  rw [DirChain] at h
  split at h
  · subst h
    intro c hc
    cases hc
  · exact h.isCluster

theorem ChainFrom.congr (h : v.ChainFrom data first l)
    (hentry : ∀ x ∈ l, v.entry data' x = v.entry data x) : v.ChainFrom data' first l := by
  rcases h with ⟨hc, h⟩ | hnone
  · exact .inl ⟨hc, h.congr fun x hx => by rw [link, link, hentry x hx]⟩
  · exact .inr hnone

theorem DirChain.congr (h : v.DirChain data state chain)
    (hentry : ∀ x ∈ chain, v.entry data' x = v.entry data x) : v.DirChain data' state chain := by
  rw [DirChain] at h ⊢
  split at h
  · exact h
  · exact h.congr hentry

theorem DirChain.nodup (h : v.DirChain data state chain) : chain.Nodup := by
  rw [DirChain] at h
  split at h
  · rw [h]
    exact nodup_nil
  rcases h with ⟨-, h⟩ | ⟨-, rfl⟩
  · exact h.nodup
  · exact nodup_nil

theorem run_directoryRegions (hs : s.Reliable) (h : v.DirChain s.data state chain) :
    run (v.directoryRegions state) s = (some (.ok (v.regions state.storage chain)), s) := by
  have hchain := h.isCluster
  rw [DirChain] at h
  rw [directoryRegions]
  split at h
  · rename_i hstorage
    rw [hstorage]
    rfl
  rename_i hstorage
  rw [hstorage]
  refine (run_bind_ok (v.run_collectChain_of_chainFrom hs h) _).trans ?_
  rw [v.clusterRegions_eq hchain]
  rfl

theorem onDevice_of_mem_regions {storage : InodeStorage} (hchain : ∀ c ∈ chain, v.IsCluster c) :
    ∀ r ∈ v.regions storage chain, v.OnDevice r := by
  intro r hr
  cases storage with
  | fixedRoot =>
    rw [regions, mem_singleton] at hr
    rw [hr, OnDevice, rootDirOffset, ← add_mul, ← v.regular.firstDataSector]
    exact v.regular.sector_le v.regular.room
  | clusterChain =>
    obtain ⟨c, hc, rfl⟩ := List.mem_map.1 hr
    exact v.clusterStart_le (hchain c hc)

/-- **What `read_directory_entries` returns.** -/
theorem run_readDirectoryEntries (hs : s.Reliable) (h : v.DirChain s.data state chain) :
    run (v.readDirectoryEntries state) s =
      (some (.ok (v.listing s.data state.storage chain)), s) := by
  refine (run_bind_ok (v.run_directoryRegions hs h) _).trans ?_
  exact v.run_scanRegions hs (v.onDevice_of_mem_regions h.isCluster) []

end Volume

end Krust.Fat
