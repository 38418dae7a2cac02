import Krust.Fat.Listing

/-!
# The slots of a directory

Apart from their names, the entries of a directory do not depend on how the directory is cut into
regions: they are the slots up to the end mark that are neither free nor part of a long name nor a
label (`unnamed_listRegions`).  A free slot is looked for in the same row
(`Volume.run_findFreeDirEntry`), and what is written into one slot changes no other one
(`map_slotAt_blit`).
-/

set_option autoImplicit false

namespace Krust.Fat

open Lib Prog Block List

/-! ## Entries without their names -/

/-- Whether `find_free_dir_entry` takes a slot. -/
def isFree (slot : Slot) : Bool := decide (slot.2.getD 0 0 = 0x00 ∨ slot.2.getD 0 0 = 0xE5)

def isEnd (slot : Slot) : Bool := decide (slot.2.getD 0 0 = 0x00)

/-- Whether a slot that is not the end is an entry. -/
def isEntry (entry : List UInt8) : Bool :=
  decide (entry.getD 0 0 ≠ 0xE5 ∧ entry.getD 11 0 ≠ ATTR_LFN ∧
    entry.getD 11 0 &&& ATTR_VOLUME_ID = 0)

/-- Whether `read_directory_entries` returns it. -/
def isListed (slot : Slot) : Bool :=
  isEntry slot.2 && (decodeShortName (slot.2.take 11)).isSome

/-- The slots of a kind up to the end mark. -/
def upToEnd (p : Slot → Bool) (slots : List Slot) : List Slot :=
  (slots.takeWhile (!isEnd ·)).filter p

def listed (slots : List Slot) : List Slot := upToEnd isListed slots

def slotType (entry : List UInt8) : FileType :=
  if entry.getD 11 0 &&& ATTR_DIRECTORY ≠ 0 then .directory else .regular

def slotEntry (name : Str) (slot : Slot) : ParsedDirEntry where
  name := name
  fileType := slotType slot.2
  firstCluster := slotCluster slot.2
  size := slotSize slot.2
  entryOffset := slot.1

def ParsedDirEntry.unnamed (entry : ParsedDirEntry) : ParsedDirEntry := { entry with name := [] }

variable {state : FatInodeState} {s' : FatState} {chain' offsets : List Nat} {slots : List Slot}
  (p : Slot → Bool) (data : Nat → UInt8) (region : Nat × Nat)

theorem unnamed_slot (scan : Scan) (slot : Slot) :
    (scan.slot slot.1 slot.2).entries.map (·.unnamed) =
      scan.entries.map (·.unnamed) ++ if isListed slot then [slotEntry [] slot] else [] := by
  rw [Scan.slot, isListed, isEntry]
  split
  · rename_i hfree
    rw [decide_eq_false fun h => h.1 hfree]
    exact (append_nil _).symm
  rename_i hfree
  split
  · rename_i hlfn
    rw [decide_eq_false fun h => h.2.1 hlfn, Bool.false_and, if_neg Bool.false_ne_true,
      append_nil]
    split <;> rfl
  · rename_i hlfn
    split
    · rename_i hlabel
      rw [decide_eq_false fun h => hlabel h.2.2]
      exact (append_nil _).symm
    rename_i hlabel
    rw [decide_eq_true ⟨hfree, hlfn, not_not.1 hlabel⟩]
    cases decodeShortName (slot.2.take 11) with
    | none => exact (append_nil _).symm
    | some shortName => exact map_append

theorem upToEnd_cons (slot : Slot) (slots : List Slot) :
    upToEnd p (slot :: slots) =
      if isEnd slot then [] else (if p slot then [slot] else []) ++ upToEnd p slots := by
  rw [upToEnd, takeWhile_cons]
  cases isEnd slot with
  | true => rfl
  | false =>
    rw [Bool.not_false, if_pos rfl, filter_cons]
    split <;> rfl

theorem upToEnd_append (slots slots' : List Slot) :
    upToEnd p (slots ++ slots') =
      if slots.any isEnd then upToEnd p slots else upToEnd p slots ++ upToEnd p slots' := by
  induction slots with
  | nil => rfl
  | cons slot slots ih =>
    rw [cons_append, upToEnd_cons, upToEnd_cons, ih, any_cons]
    cases isEnd slot with
    | true => rfl
    | false =>
      rw [Bool.false_or, if_neg Bool.false_ne_true, if_neg Bool.false_ne_true]
      by_cases hend : slots.any isEnd = true
      · rw [if_pos hend, if_pos hend]
      · rw [if_neg hend, if_neg hend, append_assoc]

theorem upToEnd_append_of_used (h : ∀ slot ∈ slots, isFree slot = false) (slots' : List Slot) :
    upToEnd p (slots ++ slots') = upToEnd p slots ++ upToEnd p slots' := by
  rw [upToEnd_append, if_neg]
  rw [any_eq_true]
  rintro ⟨slot, hslot, hend⟩
  have hused := h slot hslot
  rw [isFree, decide_eq_false_iff_not] at hused
  exact hused (.inl (of_decide_eq_true hend))

theorem unnamed_scanList (slots : List Slot) (scan : Scan) :
    (scanList slots scan).1 = slots.any isEnd ∧
      (scanList slots scan).2.entries.map (·.unnamed) =
        scan.entries.map (·.unnamed) ++ (listed slots).map (slotEntry []) := by
  induction slots generalizing scan with
  | nil => exact ⟨rfl, (append_nil _).symm⟩
  | cons slot slots ih =>
    rw [scanList, listed, upToEnd_cons, any_cons]
    by_cases hend : slot.2.getD 0 0 = 0x00
    · have hmark : isEnd slot = true := decide_eq_true hend
      rw [if_pos hend, hmark]
      exact ⟨rfl, (append_nil _).symm⟩
    have hmark : isEnd slot = false := decide_eq_false hend
    obtain ⟨hended, hentries⟩ := ih (scan.slot slot.1 slot.2)
    rw [if_neg hend, hmark]
    refine ⟨hended, ?_⟩
    rw [hentries, unnamed_slot, append_assoc]
    split <;> rfl

/-- **The entries of a directory, without their names.** -/
theorem unnamed_listRegions (regions : List (List Slot)) (entries : List ParsedDirEntry) :
    (listRegions regions entries).map (·.unnamed) =
      entries.map (·.unnamed) ++ (listed regions.flatten).map (slotEntry []) := by
  induction regions generalizing entries with
  | nil => exact (append_nil _).symm
  | cons slots regions ih =>
    obtain ⟨hended, hentries⟩ := unnamed_scanList slots ⟨[], entries⟩
    rw [listRegions, flatten_cons, listed, upToEnd_append, ← hended]
    dsimp only
    split
    · exact hentries
    · rw [ih, hentries, map_append, append_assoc]
      rfl

/-! ## Where the slots are -/

def slotAt (data : Nat → UInt8) (offset : Nat) : Slot := (offset, window data offset DIR_ENTRY_SIZE)

theorem first_slotAt (offset : Nat) : (slotAt data offset).2.getD 0 0 = data offset :=
  getD_window data offset DIR_ENTRY_SIZE (by decide) 0

/-- Two slots do not overlap. -/
def Apart (a b : Nat) : Prop := a + DIR_ENTRY_SIZE ≤ b ∨ b + DIR_ENTRY_SIZE ≤ a

def regionOffsets (region : Nat × Nat) : List Nat :=
  (List.range (region.2 / DIR_ENTRY_SIZE)).map fun i => region.1 + i * DIR_ENTRY_SIZE

theorem regionSlots_eq : regionSlots data region = (regionOffsets region).map (slotAt data) := by
  rw [regionOffsets, map_map]
  rfl

theorem mem_regionOffsets {region : Nat × Nat} {o : Nat} (h : o ∈ regionOffsets region) :
    region.1 ≤ o ∧ o + DIR_ENTRY_SIZE ≤ region.1 + region.2 := by
  obtain ⟨i, hi, rfl⟩ := mem_map.1 h
  have hle : (i + 1) * DIR_ENTRY_SIZE ≤ region.2 / DIR_ENTRY_SIZE * DIR_ENTRY_SIZE :=
    Nat.mul_le_mul_right _ (mem_range.1 hi)
  have hsize := Nat.div_mul_le_self region.2 DIR_ENTRY_SIZE
  rw [Nat.succ_mul] at hle
  exact ⟨Nat.le_add_right _ _, by omega⟩

theorem regionOffsets_apart : (regionOffsets region).Pairwise Apart := by
  rw [regionOffsets, pairwise_map]
  refine pairwise_lt_range.imp fun {i j} hij => .inl ?_
  have hle : (i + 1) * DIR_ENTRY_SIZE ≤ j * DIR_ENTRY_SIZE := Nat.mul_le_mul_right _ hij
  rw [Nat.succ_mul] at hle
  omega

def putSlot (o : Nat) (entry : List UInt8) (slot : Slot) : Slot :=
  if slot.1 = o then (o, entry) else slot

theorem map_putSlot_of_notMem {o : Nat} {entry : List UInt8} (h : o ∉ slots.map (·.1)) :
    slots.map (putSlot o entry) = slots := by
  refine (map_congr_left fun slot hslot => ?_).trans slots.map_id
  exact if_neg fun heq : slot.1 = o => h (heq ▸ mem_map_of_mem hslot)

/-- **Writing one slot** changes no other slot. -/
theorem map_slotAt_blit {o : Nat} {bs : List UInt8} (hbs : bs.length = DIR_ENTRY_SIZE)
    (data : Nat → UInt8) (hapart : ∀ o' ∈ offsets, o' ≠ o → Apart o' o) :
    offsets.map (slotAt (blit data o bs)) = (offsets.map (slotAt data)).map (putSlot o bs) := by
  rw [map_map]
  refine map_congr_left fun o' ho' => ?_
  by_cases h : o' = o
  · subst h
    exact (congrArg (o', ·) (hbs ▸ window_blit_self data o' bs)).trans (if_pos rfl).symm
  · refine Eq.trans ?_ (if_neg h).symm
    rw [slotAt, slotAt, window_blit_of_disjoint _ (by rw [hbs]; exact hapart o' ho' h)]

variable {data data' : Nat → UInt8}

theorem map_slotAt_congr
    (h : ∀ o ∈ offsets, ∀ a, o ≤ a → a < o + DIR_ENTRY_SIZE → data a = data' a) :
    offsets.map (slotAt data) = offsets.map (slotAt data') :=
  map_congr_left fun o ho => by rw [slotAt, slotAt, window_congr (h o ho)]

namespace Volume

variable (v : Volume) {s : FatState}

def dirOffsets (storage : InodeStorage) (chain : List Nat) : List Nat :=
  (v.regions storage chain).flatMap regionOffsets

def dirSlots (data : Nat → UInt8) (storage : InodeStorage) (chain : List Nat) : List Slot :=
  (v.dirOffsets storage chain).map (slotAt data)

theorem flatten_slots (storage : InodeStorage) (chain : List Nat) :
    (v.slots data storage chain).flatten = v.dirSlots data storage chain := by
  rw [dirSlots, dirOffsets, map_flatMap]
  congr 1
  exact map_congr_left fun region _ => regionSlots_eq data region

variable {chain : List Nat} {o : Nat} {storage : InodeStorage}

theorem mem_dirOffsets_fixedRoot (h : o ∈ v.dirOffsets .fixedRoot chain) :
    v.fatEnd ≤ o ∧ o + DIR_ENTRY_SIZE ≤ v.firstDataSector * v.sectorSize := by
  rw [dirOffsets, regions, flatMap_singleton] at h
  have hregion := mem_regionOffsets h
  rw [v.regular.firstDataSector, add_mul]
  exact hregion

theorem mem_dirOffsets_clusterChain (h : o ∈ v.dirOffsets .clusterChain chain) :
    ∃ c ∈ chain, v.clusterStart c ≤ o ∧ o + DIR_ENTRY_SIZE ≤ v.clusterStart c + v.clusterSize := by
  obtain ⟨region, hregion, ho⟩ := mem_flatMap.1 h
  obtain ⟨c, hc, rfl⟩ := mem_map.1 hregion
  exact ⟨c, hc, mem_regionOffsets ho⟩

theorem le_of_mem_dirOffsets (h : o ∈ v.dirOffsets storage chain) : v.fatEnd ≤ o := by
  cases storage with
  | fixedRoot => exact (v.mem_dirOffsets_fixedRoot h).1
  | clusterChain =>
    obtain ⟨c, -, hle, -⟩ := v.mem_dirOffsets_clusterChain h
    exact (v.fatEnd_le_clusterStart c).trans hle

section Places

variable (hchain : ∀ c ∈ chain, v.IsCluster c)
include hchain

theorem dirOffset_le_capacity (h : o ∈ v.dirOffsets storage chain) :
    o + DIR_ENTRY_SIZE ≤ v.device.capacity := by
  obtain ⟨region, hregion, ho⟩ := mem_flatMap.1 h
  exact (mem_regionOffsets ho).2.trans (v.onDevice_of_mem_regions hchain region hregion)

theorem dirOffsets_apart (hnodup : chain.Nodup) : (v.dirOffsets storage chain).Pairwise Apart := by
  rw [dirOffsets, pairwise_flatMap]
  refine ⟨fun region _ => regionOffsets_apart region, ?_⟩
  cases storage with
  | fixedRoot => exact pairwise_singleton _ _
  | clusterChain =>
    rw [regions, pairwise_map]
    refine hnodup.imp_of_mem fun {c c'} hc hc' hne o ho o' ho' => ?_
    have hdisjoint := v.cluster_disjoint (hchain c hc) (hchain c' hc') hne
    have ho := mem_regionOffsets ho
    have ho' := mem_regionOffsets ho'
    rw [Apart]
    omega

theorem apart_of_mem_dirOffsets (hnodup : chain.Nodup)
    {o' : Nat} (ho : o ∈ v.dirOffsets storage chain) (ho' : o' ∈ v.dirOffsets storage chain)
    (hne : o ≠ o') : Apart o o' := by
  have hsymm : Std.Symm Apart := ⟨fun _ _ => Or.symm⟩
  exact (v.dirOffsets_apart hchain hnodup).forall ho ho' hne

theorem nodup_dirOffsets (hnodup : chain.Nodup) : (v.dirOffsets storage chain).Nodup := by
  refine (v.dirOffsets_apart hchain hnodup).imp fun {o o'} h => ?_
  rw [Apart, DIR_ENTRY_SIZE] at h
  omega

end Places

theorem map_fst_dirSlots (storage : InodeStorage) (chain : List Nat) :
    (v.dirSlots data storage chain).map (·.1) = v.dirOffsets storage chain := by
  rw [dirSlots, map_map]
  exact map_id _

/-- A slot is in none of the clusters that the directory does not have. -/
theorem notInCluster_of_mem_dirOffsets (hchain : ∀ c ∈ chain, v.IsCluster c)
    (ho : o ∈ v.dirOffsets storage chain) {c : Nat} (hc : v.IsCluster c) (hmem : c ∉ chain)
    {a : Nat} (hle : o ≤ a) (hlt : a < o + DIR_ENTRY_SIZE) : ¬ v.InCluster c a := by
  rw [InCluster]
  cases storage with
  | fixedRoot =>
    have hroot := v.mem_dirOffsets_fixedRoot ho
    have hstart := v.le_clusterStart c
    omega
  | clusterChain =>
    obtain ⟨c', hc', hslot⟩ := v.mem_dirOffsets_clusterChain ho
    have hdisjoint := v.cluster_disjoint (hchain c' hc') hc fun h => hmem (h ▸ hc')
    omega

theorem slots_congr
    (h : ∀ o ∈ v.dirOffsets storage chain, ∀ a, o ≤ a → a < o + DIR_ENTRY_SIZE → data a = data' a) :
    v.slots data storage chain = v.slots data' storage chain := by
  refine map_congr_left fun region hregion => ?_
  rw [regionSlots_eq, regionSlots_eq]
  exact map_slotAt_congr fun o ho => h o (mem_flatMap.2 ⟨region, hregion, ho⟩)

/-! ## Free slots -/

theorem two_slots_le : 2 * DIR_ENTRY_SIZE ≤ v.clusterSize := by
  have hsector := v.regular.large
  have hcluster : v.sectorSize * 1 ≤ v.clusterSize :=
    Nat.mul_le_mul_left _ v.regular.sectorsPerCluster
  rw [DIR_ENTRY_SIZE]
  omega

theorem run_findFreeSlot (hs : s.Reliable) (n : Nat) :
    ∀ offset : Nat, offset + n * DIR_ENTRY_SIZE ≤ v.device.capacity →
      run (v.findFreeSlot n offset) s = (some (.ok ((((List.range n).map fun i =>
        slotAt s.data (offset + i * DIR_ENTRY_SIZE)).find? isFree).map (·.1))), s) := by
  induction n with
  | zero => intro offset hin; rfl
  | succ n ih =>
    intro offset hin
    rw [Nat.succ_mul] at hin
    have hbyte : (window s.data offset 1).getD 0 0 = (slotAt s.data offset).2.getD 0 0 :=
      (getD_window _ _ _ Nat.one_pos _).trans (first_slotAt _ _).symm
    have hlen : offset + 1 ≤ v.device.capacity := by
      rw [DIR_ENTRY_SIZE] at hin
      omega
    rw [map_slots_succ (slotAt s.data), find?_cons, isFree]
    refine (run_bind_ok (v.tables.run_readBytes hs hlen) _).trans ?_
    rw [hbyte]
    by_cases hfree : (slotAt s.data offset).2.getD 0 0 = 0x00 ∨
        (slotAt s.data offset).2.getD 0 0 = 0xE5
    · rw [if_pos hfree, decide_eq_true hfree]
      rfl
    · rw [if_neg hfree, decide_eq_false hfree, ih _ (by omega)]

theorem run_findFreeIn (hs : s.Reliable) {regions : List (Nat × Nat)}
    (hin : ∀ r ∈ regions, v.OnDevice r) :
    run (v.findFreeIn regions) s = (some (.ok
      (((regions.flatMap regionOffsets).map (slotAt s.data)).find? isFree |>.map (·.1))), s) := by
  induction regions with
  | nil => rfl
  | cons region regions ih =>
    obtain ⟨offset, len⟩ := region
    obtain ⟨hsize, hfit⟩ := (hin _ mem_cons_self).slots_le
    have hfind : run (v.findFreeSlot (len / DIR_ENTRY_SIZE) offset) s = (some (.ok
        ((((regionOffsets (offset, len)).map (slotAt s.data)).find? isFree).map (·.1))), s) := by
      rw [regionOffsets, map_map]
      exact v.run_findFreeSlot hs (len / DIR_ENTRY_SIZE) offset hsize
    rw [FatFsInner.findFreeIn, hfit, flatMap_cons, map_append,
      find?_append]
    refine (run_bind_ok hfind _).trans ?_
    cases ((regionOffsets (offset, len)).map (slotAt s.data)).find? isFree with
    | none => exact ih (forall_mem_cons.1 hin).2
    | some slot => rfl

/-- The offset of the first free slot of a directory. -/
def freeOffset (data : Nat → UInt8) (storage : InodeStorage) (chain : List Nat) : Option Nat :=
  ((v.dirSlots data storage chain).find? isFree).map (·.1)

/-- The slot for a new entry, with the state and the chain of the directory after it has been made
longer, if it had to be. -/
def place (s : FatState) (storage : InodeStorage) (chain : List Nat) :
    Option (Nat × FatState × List Nat) :=
  match v.freeOffset s.data storage chain, chain.getLast?, v.freeCluster s with
  | some o, _, _ => some (o, s, chain)
  | none, some last, some c => some (v.clusterStart c, v.appended s last c, chain ++ [c])
  | none, _, _ => none

theorem place_cases (h : v.place s storage chain = some (o, s', chain')) :
    (v.freeOffset s.data storage chain = some o ∧ s' = s ∧ chain' = chain) ∨
      (v.freeOffset s.data storage chain = none ∧ ∃ last c, chain.getLast? = some last ∧
        v.freeCluster s = some c ∧ o = v.clusterStart c ∧ s' = v.appended s last c ∧
        chain' = chain ++ [c]) := by
  rw [place] at h
  split at h
  · rename_i hfree
    cases h
    exact .inl ⟨hfree, rfl, rfl⟩
  · rename_i hfree hlast hcluster
    cases h
    exact .inr ⟨hfree, _, _, hlast, hcluster, rfl, rfl, rfl⟩
  · cases h

theorem mem_of_freeOffset (h : v.freeOffset data storage chain = some o) :
    o ∈ v.dirOffsets storage chain := by
  obtain ⟨slot, hfind, rfl⟩ := Option.map_eq_some_iff.1 h
  obtain ⟨o, ho, rfl⟩ := mem_map.1 (mem_of_find?_eq_some hfind)
  exact ho

theorem place_ready (hs : v.Ready s) (hchain : ∀ c ∈ chain, v.IsCluster c)
    (h : v.place s storage chain = some (o, s', chain')) :
    v.Ready s' ∧ o + DIR_ENTRY_SIZE ≤ v.device.capacity := by
  rcases v.place_cases h with ⟨hfree, rfl, rfl⟩ | ⟨-, last, c, hlast, hfree, rfl, rfl, rfl⟩
  · exact ⟨hs, v.dirOffset_le_capacity hchain (v.mem_of_freeOffset hfree)⟩
  obtain ⟨hc, -⟩ := v.isCluster_of_freeCluster hs.hint hfree
  have hend := v.clusterStart_le hc
  have hroom := v.two_slots_le
  exact ⟨hs.appended last hc, by omega⟩

/-- The slots of a new cluster: all of them are end marks. -/
def Blank (start : Nat) (slots : List Slot) : Prop :=
  slots.head?.map (·.1) = some start ∧ ∀ slot ∈ slots, isEnd slot = true

theorem slots_appended (hs : v.Ready s) (hchain : ∀ x ∈ chain, v.Used s.data x) {last c : Nat}
    (hlast : chain.getLast? = some last) (hfree : v.freeCluster s = some c) :
    ∃ blank, Blank (v.clusterStart c) blank ∧
      v.slots (v.appended s last c).data .clusterChain (chain ++ [c]) =
        v.slots s.data .clusterChain chain ++ [blank] := by
  obtain ⟨hc, hzero⟩ := v.isCluster_of_freeCluster hs.hint hfree
  have hl := hchain last (mem_of_getLast? hlast)
  have hmem : c ∉ chain := fun h => (hchain c h).2 hzero
  have hold : v.slots (v.appended s last c).data .clusterChain chain =
      v.slots s.data .clusterChain chain := by
    refine v.slots_congr fun o ho a hle hlt => ?_
    have hout := v.notInCluster_of_mem_dirOffsets (fun x hx => (hchain x hx).1) ho hc hmem hle hlt
    rw [v.data_appended s hl.1 hc ((v.le_of_mem_dirOffsets ho).trans hle), if_neg hout]
  refine ⟨regionSlots (v.appended s last c).data (v.clusterStart c, v.clusterSize), ⟨?_, ?_⟩, ?_⟩
  · have hroom := v.two_slots_le
    obtain ⟨n, hn⟩ : ∃ n, v.clusterSize / DIR_ENTRY_SIZE = n + 1 :=
      Nat.exists_eq_succ_of_ne_zero (Nat.div_pos (by omega) (by decide)).ne'
    rw [regionSlots, hn, range_succ_eq_map, map_cons, head?_cons, Option.map_some,
      zero_mul, add_zero]
  · intro slot hslot
    rw [regionSlots_eq] at hslot
    obtain ⟨o, ho, rfl⟩ := mem_map.1 hslot
    have hin := mem_regionOffsets ho
    have hcluster : v.InCluster c o := by
      rw [DIR_ENTRY_SIZE] at hin
      exact ⟨hin.1, by omega⟩
    rw [isEnd, first_slotAt, v.data_appended s hl.1 hc
      ((v.fatEnd_le_clusterStart c).trans hin.1), if_pos hcluster]
    rfl
  · rw [← hold, slots, regions, map_append, map_append]
    rfl

theorem Blank.find {start : Nat} (h : Blank start slots) :
    (slots.find? isFree).map (·.1) = some start := by
  obtain ⟨hhead, hend⟩ := h
  rcases slots with _ | ⟨slot, slots⟩
  · cases hhead
  have hfree : isFree slot = true :=
    decide_eq_true (.inl (of_decide_eq_true (hend slot mem_cons_self)))
  rw [find?_cons, hfree]
  exact hhead

/-- **The directory with a free slot**: it is as it was, or it has a blank cluster more. -/
theorem place_spec (hs : v.Ready s) (hsmall : v.Small) (h : v.DirChain s.data state chain)
    (hused : ∀ x ∈ chain, v.Used s.data x)
    (hplace : v.place s state.storage chain = some (o, s', chain')) :
    v.DirChain s'.data state chain' ∧ (∀ x ∈ chain', v.Used s'.data x) ∧
      v.freeOffset s'.data state.storage chain' = some o ∧
      ((s' = s ∧ chain' = chain) ∨ (v.freeOffset s.data state.storage chain = none ∧
        ∃ blank, Blank o blank ∧ v.slots s'.data state.storage chain' =
          v.slots s.data state.storage chain ++ [blank])) := by
  rcases v.place_cases hplace with ⟨hfree, rfl, rfl⟩ | ⟨hnone, last, c, hlast, hfree, rfl, rfl, rfl⟩
  · exact ⟨h, hused, hfree, .inl ⟨rfl, rfl⟩⟩
  obtain ⟨hc, hzero⟩ := v.isCluster_of_freeCluster hs.hint hfree
  have hl := hused last (mem_of_getLast? hlast)
  obtain ⟨hstorage, hfirst, hchain⟩ : state.storage = .clusterChain ∧
      v.IsCluster state.firstCluster ∧ Chain (v.link s.data) state.firstCluster chain := by
    rw [DirChain] at h
    split at h
    · rw [h] at hlast
      cases hlast
    rename_i hstorage
    rcases h with ⟨hfirst, hchain⟩ | ⟨-, rfl⟩
    · exact ⟨hstorage, hfirst, hchain⟩
    · cases hlast
  have hlong := v.chain_appended hsmall hl hc hzero hchain hused hlast
  obtain ⟨blank, hblank, hslots⟩ := v.slots_appended hs hused hlast hfree
  rw [hstorage] at hnone ⊢
  refine ⟨?_, ?_, ?_, .inr ⟨hnone, blank, hblank, hslots⟩⟩
  · rw [DirChain, hstorage]
    exact .inl ⟨hfirst, hlong⟩
  · intro x hx
    rw [v.used_appended hsmall hl hc hzero]
    rcases mem_append.1 hx with hx | hx
    · exact .inr (hused x hx)
    · exact .inl (mem_singleton.1 hx)
  · rw [freeOffset, ← flatten_slots, Option.map_eq_none_iff] at hnone
    rw [freeOffset, ← flatten_slots, hslots, flatten_append, flatten_singleton,
      find?_append, hnone]
    exact hblank.find

/-- **What `find_free_dir_entry` returns**: the first free slot, or else a new cluster. -/
theorem run_findFreeDirEntry (hs : s.Reliable) (hhint : s.nextFreeHint ≤ v.totalClusters + 2)
    (h : v.DirChain s.data state chain) :
    run (v.findFreeDirEntry state) s =
      match v.place s state.storage chain with
      | some (o, s', _) => (some (.ok o), s')
      | none => (some (.error .ioError), s) := by
  have hchain := h.isCluster
  have hfind : run (v.findFreeIn (v.regions state.storage chain)) s =
      (some (.ok (v.freeOffset s.data state.storage chain)), s) :=
    v.run_findFreeIn hs (v.onDevice_of_mem_regions hchain)
  rw [place]
  refine (run_bind_ok (v.run_directoryRegions hs h) _).trans ?_
  refine (run_bind_ok hfind _).trans ?_
  rw [DirChain] at h
  cases v.freeOffset s.data state.storage chain with
  | some o => rfl
  | none =>
    split at h
    · rename_i hstorage
      rw [if_pos hstorage, h]
      rfl
    rename_i hstorage
    rw [if_neg (by rw [hstorage]; decide)]
    refine (run_bind_ok (v.run_collectChain_of_chainFrom hs h) _).trans ?_
    rcases hlast : chain.getLast? with _ | last
    · rfl
    have hlink := v.run_linkNewCluster hs hhint (hchain last (mem_of_getLast? hlast))
    rcases hfree : v.freeCluster s with _ | c
    · rw [hfree] at hlink
      exact run_bind_error hlink _
    rw [hfree] at hlink
    refine (run_bind_ok hlink _).trans ?_
    rw [v.clusterToOffset_eq (v.isCluster_of_freeCluster hhint hfree).1]
    rfl

end Volume

end Krust.Fat
