import Krust.Fat.Slots

/-!
# Creating a file

On a device that does not fail `create` is a function of what is on the device
(`Volume.run_create`): it looks for the name, takes the first free slot of the directory or makes
the directory longer (`Volume.place`), allocates the first cluster of the file, and writes the
entry.
-/

set_option autoImplicit false

namespace Krust.Fat

open Lib Prog Block List Function FatFsInner

variable {raw : List UInt8} {inode : FatInode} {chain : List Nat} {a width : Nat}
  {data : Nat → UInt8} {component name : Str}

theorem writeShortComponent_eq_ok (h : writeShortComponent component width = .ok raw) :
    (∀ b ∈ utf8Bytes component, isValidShortNameChar b = true) ∧
      raw = (utf8Bytes component).map toAsciiUppercase ++
        List.replicate (width - (utf8Bytes component).length) 0x20 := by
  rw [writeShortComponent] at h
  split at h
  · rename_i hvalid
    exact ⟨List.all_eq_true.1 hvalid, (Except.ok.inj h).symm⟩
  · cases h

/-- **What `encode_short_name` accepts, and what it returns.** -/
theorem encodeShortName_eq_ok (h : encodeShortName name = .ok raw) :
    (name.splitOn '.').length ≤ 2 ∧ (name.splitOn '.').getD 0 [] ≠ [] ∧
      utf8Len ((name.splitOn '.').getD 0 []) ≤ 8 ∧ utf8Len ((name.splitOn '.').getD 1 []) ≤ 3 ∧
      ∃ base extension, writeShortComponent ((name.splitOn '.').getD 0 []) 8 = .ok base ∧
        writeShortComponent ((name.splitOn '.').getD 1 []) 3 = .ok extension ∧
        raw = base ++ extension := by
  rw [encodeShortName] at h
  split at h
  · cases h
  dsimp only at h
  split at h
  · cases h
  rename_i hbounds
  simp only [not_or, not_lt] at hbounds
  obtain ⟨hparts, hbase, hlen, hlen'⟩ := hbounds
  refine ⟨hparts, hbase, hlen, hlen', ?_⟩
  rcases hb : writeShortComponent ((name.splitOn '.').getD 0 []) 8 with e | base
  · rw [hb] at h
    cases h
  cases he : writeShortComponent ((name.splitOn '.').getD 1 []) 3 with
  | error e =>
    rw [hb, he] at h
    cases h
  | ok extension =>
    rw [hb, he] at h
    exact ⟨base, extension, rfl, rfl, (Except.ok.inj h).symm⟩

theorem length_writeShortComponent (hlen : utf8Len component ≤ width)
    (h : writeShortComponent component width = .ok raw) : raw.length = width := by
  rw [(writeShortComponent_eq_ok h).2, length_append, length_map, length_replicate,
    length_utf8Bytes]
  omega

theorem length_encodeShortName (h : encodeShortName name = .ok raw) : raw.length = 11 := by
  obtain ⟨-, -, hlen, hlen', base, extension, hbase, hextension, rfl⟩ := encodeShortName_eq_ok h
  rw [length_append, length_writeShortComponent hlen hbase,
    length_writeShortComponent hlen' hextension]

section RawDirEntry

variable {raw : List UInt8} (hraw : raw.length = 11) (attributes : UInt8) (c size : Nat)
include hraw

theorem rawDirEntry_parts :
    (rawDirEntry raw attributes c size).take 11 = raw ∧
      (rawDirEntry raw attributes c size).getD 11 0 = attributes ∧
      slice (rawDirEntry raw attributes c size) 20 2 = leBytes 2 (c >>> 16) ∧
      slice (rawDirEntry raw attributes c size) 26 2 = leBytes 2 c ∧
      slice (rawDirEntry raw attributes c size) 28 4 = leBytes 4 size := by
  match raw, hraw with
  | [_, _, _, _, _, _, _, _, _, _, _], _ => exact ⟨rfl, rfl, rfl, rfl, rfl⟩

theorem slotCluster_rawDirEntry (hc : c < 2 ^ 32) :
    slotCluster (rawDirEntry raw attributes c size) = c := by
  obtain ⟨-, -, hhigh, hlow, -⟩ := rawDirEntry_parts hraw attributes c size
  have hlt : c % 256 ^ 2 < 2 ^ 16 := Nat.mod_lt _ (by decide)
  rw [slotCluster, hhigh, hlow, leValue_leBytes, leValue_leBytes,
    ← Nat.shiftLeft_add_eq_or_of_lt hlt]
  omega

theorem slotSize_rawDirEntry (hsize : size < 2 ^ 32) :
    slotSize (rawDirEntry raw attributes c size) = size := by
  obtain ⟨-, -, -, -, h⟩ := rawDirEntry_parts hraw attributes c size
  rw [slotSize, h, leValue_leBytes]
  exact Nat.mod_eq_of_lt hsize

end RawDirEntry

namespace Volume

variable (v : Volume) {s : FatState} {c : Nat}

/-- What is on the device after a cluster has been filled as a directory. -/
def dirImage (c parent : Nat) (data : Nat → UInt8) : Nat → UInt8 :=
  blit (blit (blit data (v.clusterStart c) (List.replicate v.clusterSize 0)) (v.clusterStart c)
      (rawDirEntry dotName ATTR_DIRECTORY c 0))
    (v.clusterStart c + DIR_ENTRY_SIZE) (rawDirEntry dotDotName ATTR_DIRECTORY parent 0)

theorem length_dots (c parent : Nat) :
    (rawDirEntry dotName ATTR_DIRECTORY c 0).length = DIR_ENTRY_SIZE ∧
      (rawDirEntry dotDotName ATTR_DIRECTORY parent 0).length = DIR_ENTRY_SIZE :=
  ⟨length_rawDirEntry rfl _ _ _, length_rawDirEntry rfl _ _ _⟩

theorem run_initializeDirectoryCluster (hs : s.Reliable) (hc : v.IsCluster c) (parent : Nat) :
    run (v.initializeDirectoryCluster c parent) s =
      (some (.ok ()), s.withData (v.dirImage c parent s.data)) := by
  have hend := v.clusterStart_le hc
  have hroom := v.two_slots_le
  have hfit : ¬ USIZE_MAX < v.clusterStart c + v.clusterSize :=
    not_lt.2 (hend.trans v.regular.capacity)
  obtain ⟨hdot, hdotdot⟩ := length_dots c parent
  rw [initializeDirectoryCluster, v.clusterToOffset_eq hc]
  refine (run_bind_ok (p := ofExcept _) (a := v.clusterStart c) rfl _).trans ?_
  rw [decide_eq_false hfit]
  refine (run_bind_ok (v.tables.run_writeBytes hs ?_) _).trans ?_
  · rw [length_replicate]
    exact hend
  refine (run_bind_ok (v.tables.run_writeBytes ?_ ?_) _).trans ?_
  · exact hs
  · omega
  refine (v.tables.run_writeBytes ?_ ?_).trans ?_
  · exact hs
  · omega
  rfl

/-- What is on the device after a new file has got its first cluster. -/
def filled (fileType : FileType) (c parent : Nat) (data : Nat → UInt8) : Nat → UInt8 :=
  if fileType = .directory then v.dirImage c parent data else data

theorem run_initializeNew (hs : s.Reliable) (hc : v.IsCluster c) (fileType : FileType)
    (parent : Nat) :
    run (v.initializeNew fileType c parent) s =
      (some (.ok ()), s.withData (v.filled fileType c parent s.data)) := by
  rw [initializeNew, filled]
  split
  · exact v.run_initializeDirectoryCluster hs hc parent
  · rfl

/-- The state after a new file has been entered in this slot. -/
def entered (s : FatState) (o : Nat) (raw : List UInt8) (fileType : FileType) (c parent : Nat) :
    FatState :=
  (v.allocated s c).withData (v.filled fileType c parent
    (blit (v.allocated s c).data o (rawDirEntry raw (attributesFor fileType) c 0)))

def newInode (fileType : FileType) (c o : Nat) : FatInode where
  fileType := fileType
  state := {
    firstCluster := c
    size := 0
    dirEntryOffset := some o
    storage := .clusterChain
    readClusterCache := none }

/-- **What `create` does.**  After the checks it may fail for want of a slot or of a cluster, and
then the directory may have got longer. -/
theorem run_create (hs : v.Ready s) (h : v.DirChain s.data inode.state chain) (name : Str)
    (fileType : FileType) :
    run (v.create inode name fileType) s =
      if inode.fileType ≠ .directory then (some (.error .notADirectory), s)
      else if fileType ≠ .regular ∧ fileType ≠ .directory then (some (.error .notSupported), s)
      else
        match encodeShortName name with
        | .error e => (some (.error e), s)
        | .ok raw =>
          if (v.listing s.data inode.state.storage chain).any
              fun entry => eqIgnoreAsciiCase entry.name name then (some (.error .alreadyExists), s)
          else
            match v.place s inode.state.storage chain with
            | none => (some (.error .ioError), s)
            | some (o, s', _) =>
              match v.freeCluster s' with
              | none => (some (.error .ioError), s')
              | some c => (some (.ok (newInode fileType c o)),
                  v.entered s' o raw fileType c (parentCluster inode.state)) := by
  rw [create]
  split
  · rfl
  split
  · rfl
  rcases hraw : encodeShortName name with e | raw
  · rfl
  refine (run_bind_ok (v.run_readDirectoryEntries hs.reliable h) _).trans ?_
  dsimp only
  split_ifs with hexists
  · rw [hexists]
    rfl
  have hfind := v.run_findFreeDirEntry hs.reliable hs.hint h
  rw [Bool.eq_false_of_not_eq_true hexists]
  rcases hplace : v.place s inode.state.storage chain with _ | found
  · rw [hplace] at hfind
    exact run_bind_error hfind _
  obtain ⟨o, s', chain'⟩ := found
  obtain ⟨hs', ho⟩ := v.place_ready hs h.isCluster hplace
  have hallocate := v.run_allocateCluster hs'.reliable hs'.hint
  rw [hplace] at hfind
  refine (run_bind_ok hfind _).trans ?_
  dsimp only
  rcases hfree : v.freeCluster s' with _ | c
  · rw [hfree] at hallocate
    exact run_bind_error hallocate _
  obtain ⟨hc, -⟩ := v.isCluster_of_freeCluster hs'.hint hfree
  rw [hfree] at hallocate
  refine (run_bind_ok hallocate _).trans ?_
  refine (run_bind_ok (v.tables.run_writeBytes (hs'.allocated hc).reliable ?_) _).trans ?_
  · rw [length_rawDirEntry (length_encodeShortName hraw)]
    exact ho
  refine (run_bind_ok (v.run_initializeNew ?_ hc _ _) _).trans ?_
  · exact hs'.reliable
  rfl

theorem create_ok (hs : v.Ready s) (h : v.DirChain s.data inode.state chain) {fileType : FileType}
    {created : FatInode} {s' : FatState}
    (hrun : run (v.create inode name fileType) s = (some (.ok created), s')) :
    inode.fileType = .directory ∧ (fileType = .regular ∨ fileType = .directory) ∧
      ∃ raw o s1 chain1 c, encodeShortName name = .ok raw ∧
        ((v.listing s.data inode.state.storage chain).any
          fun entry => eqIgnoreAsciiCase entry.name name) = false ∧
        v.place s inode.state.storage chain = some (o, s1, chain1) ∧ v.freeCluster s1 = some c ∧
        created = newInode fileType c o ∧
        s' = v.entered s1 o raw fileType c (parentCluster inode.state) := by
  rw [v.run_create hs h] at hrun
  split at hrun
  · cases hrun
  rename_i hdir
  split at hrun
  · cases hrun
  split at hrun
  · cases hrun
  rename_i raw hraw
  split at hrun
  · cases hrun
  rename_i hexists
  split at hrun
  · cases hrun
  rename_i o s1 chain1 hplace
  split at hrun
  · cases hrun
  rename_i c hfree
  cases hrun
  exact ⟨not_not.1 hdir, by tauto, raw, o, s1, chain1, c, hraw,
    Bool.eq_false_of_not_eq_true hexists, hplace, hfree, rfl, rfl⟩

/-! ## What is on the device afterwards -/

theorem dirImage_of_notMem {parent : Nat} (ha : ¬ v.InCluster c a) :
    v.dirImage c parent data a = data a := by
  have hroom := v.two_slots_le
  obtain ⟨hdot, hdotdot⟩ := length_dots c parent
  rw [InCluster] at ha
  rw [dirImage, blit_of_notMem _ (by omega), blit_of_notMem _ (by omega),
    blit_of_notMem _ (by rw [length_replicate]; omega)]

theorem filled_of_notMem {fileType : FileType} {parent : Nat} (ha : ¬ v.InCluster c a) :
    v.filled fileType c parent data a = data a := by
  rw [filled]
  split
  · exact v.dirImage_of_notMem ha
  · rfl

theorem notInCluster_of_lt (ha : a < v.fatEnd) : ¬ v.InCluster c a :=
  fun h => absurd h.1 (not_le.2 (ha.trans_le (v.fatEnd_le_clusterStart c)))

section Entered

variable {o parent : Nat} {raw : List UInt8} {fileType : FileType}

/-- The new entry gets its bytes, and the new cluster its contents. -/
theorem data_entered (hc : v.IsCluster c) (ha : v.fatEnd ≤ a) (hout : ¬ v.InCluster c a) :
    (v.entered s o raw fileType c parent).data a =
      blit s.data o (rawDirEntry raw (attributesFor fileType) c 0) a := by
  rw [entered, FatState.data_withData, v.filled_of_notMem hout]
  by_cases h : o ≤ a ∧ a < o + (rawDirEntry raw (attributesFor fileType) c 0).length
  · rw [blit_of_mem _ h.1 h.2 0, blit_of_mem _ h.1 h.2 0]
  · rw [blit_of_notMem _ (by omega), blit_of_notMem _ (by omega), v.data_allocated s hc ha,
      if_neg hout]

theorem entry_entered (ho : v.fatEnd ≤ o) {x : Nat} (hx : v.IsCluster x) :
    v.entry (v.entered s o raw fileType c parent).data x =
      if x = c then v.eocMarker else v.entry s.data x := by
  rw [← v.entry_allocated s c hx]
  refine v.entry_congr_of_fatEnd hx fun a ha => ?_
  rw [entered, FatState.data_withData, v.filled_of_notMem (v.notInCluster_of_lt ha),
    blit_of_notMem _ (.inl (ha.trans_le ho))]

/-- **The slots of a directory after a file has been entered** in one of them. -/
theorem slots_entered (hc : v.IsCluster c) (hraw : raw.length = 11) {storage : InodeStorage}
    (hchain : ∀ x ∈ chain, v.IsCluster x) (hmem : c ∉ chain)
    (hapart : ∀ o' ∈ v.dirOffsets storage chain, o' ≠ o → Apart o' o) :
    v.slots (v.entered s o raw fileType c parent).data storage chain =
      (v.slots s.data storage chain).map
        (·.map (putSlot o (rawDirEntry raw (attributesFor fileType) c 0))) := by
  rw [slots, slots, map_map]
  refine map_congr_left fun region hregion => ?_
  have hin : ∀ o' ∈ regionOffsets region, o' ∈ v.dirOffsets storage chain :=
    fun o' ho' => mem_flatMap.2 ⟨region, hregion, ho'⟩
  rw [comp_apply, regionSlots_eq, regionSlots_eq,
    ← map_slotAt_blit (length_rawDirEntry hraw _ _ _) s.data fun o' ho' => hapart o' (hin o' ho')]
  refine map_slotAt_congr fun o' ho' a hle hlt => ?_
  exact v.data_entered hc ((v.le_of_mem_dirOffsets (hin o' ho')).trans hle)
    (v.notInCluster_of_mem_dirOffsets hchain (hin o' ho') hc hmem hle hlt)

theorem dirChain_entered {state : FatInodeState} (h : v.DirChain s.data state chain)
    (hmem : c ∉ chain) (ho : v.fatEnd ≤ o) :
    v.DirChain (v.entered s o raw fileType c parent).data state chain := by
  refine h.congr fun x hx => ?_
  have hne : x ≠ c := by
    rintro rfl
    exact hmem hx
  rw [v.entry_entered ho (h.isCluster x hx), if_neg hne]

end Entered

end Volume

end Krust.Fat
