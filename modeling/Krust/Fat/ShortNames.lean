import Krust.Fat.Create
import Krust.Lib.Text

/-!
# Short names

`create` compares the new name with the names that are listed, and these may be long names; what it
writes is a short name.  So two entries can get the same short name, and the new entry can have
another name than the one it was made for.  This file says when this does not happen
(`Volume.created_found_iff`).
-/

set_option autoImplicit false

namespace Krust.Fat

open Lib Prog Block List FatFsInner Volume

/-! ## A short name and back -/

/-- The character of a byte of a short name. -/
def upperChar (ch : Char) : Char := Char.ofNat (toAsciiUppercase (UInt8.ofNat ch.toNat)).toNat

theorem valid_byte : ∀ n < 256, isValidShortNameChar (UInt8.ofNat n) = true →
    n < 0x80 ∧ toAsciiUppercase (UInt8.ofNat n) ≠ 0x00 ∧ toAsciiUppercase (UInt8.ofNat n) ≠ 0x20 ∧
      toAsciiUppercase (UInt8.ofNat n) < 0x80 ∧
      (Char.ofNat (toAsciiUppercase (UInt8.ofNat n)).toNat).toLower = (Char.ofNat n).toLower := by
  decide +kernel

theorem utf8EncodeChar_of_valid {ch : Char}
    (h : ∀ b ∈ String.utf8EncodeChar ch, isValidShortNameChar b = true) :
    String.utf8EncodeChar ch = [UInt8.ofNat ch.toNat] ∧ ch.toNat < 0x80 := by
  -- The bytes of a longer encoding are all at least `0x80`.
  have hlast : ∀ n, n < 64 → isValidShortNameChar (UInt8.ofNat (n + 128)) = true → False := by
    intro n hn hvalid
    have := (valid_byte (n + 128) (by omega) hvalid).1
    omega
  have hmod : ch.val.toNat % 64 < 64 := Nat.mod_lt _ (by decide)
  rw [String.utf8EncodeChar] at h ⊢
  split at h
  · rename_i hascii
    rw [if_pos hascii]
    exact ⟨rfl, Nat.lt_succ_of_le hascii⟩
  split at h
  · exact (hlast _ hmod (h _ (by simp))).elim
  split at h
  · exact (hlast _ hmod (h _ (by simp))).elim
  · exact (hlast _ hmod (h _ (by simp))).elim

variable {chain : List Nat} {blank : List Slot} {o : Nat} {component name : Str}

section Valid

variable (hvalid : ∀ b ∈ utf8Bytes component, isValidShortNameChar b = true)
include hvalid

theorem utf8Bytes_of_valid :
    (utf8Bytes component = component.map fun ch => UInt8.ofNat ch.toNat) ∧
      ∀ ch ∈ component, ch.toNat < 256 ∧ isValidShortNameChar (UInt8.ofNat ch.toNat) = true := by
  have hchar : ∀ ch ∈ component, String.utf8EncodeChar ch = [UInt8.ofNat ch.toNat] ∧
      ch.toNat < 0x80 ∧ isValidShortNameChar (UInt8.ofNat ch.toNat) = true := by
    intro ch hch
    have hbytes : ∀ b ∈ String.utf8EncodeChar ch, isValidShortNameChar b = true :=
      fun b hb => hvalid b (mem_flatMap.2 ⟨ch, hch, hb⟩)
    obtain ⟨henc, hlt⟩ := utf8EncodeChar_of_valid hbytes
    exact ⟨henc, hlt, hbytes _ (by rw [henc]; exact mem_singleton_self _)⟩
  refine ⟨?_, fun ch hch => ⟨(hchar ch hch).2.1.trans (by decide), (hchar ch hch).2.2⟩⟩
  rw [map_eq_flatMap, utf8Bytes, flatMap_def, flatMap_def,
    map_congr_left fun ch hch => (hchar ch hch).1]

theorem upper_of_valid :
    ∀ b ∈ (utf8Bytes component).map toAsciiUppercase, b ≠ 0x00 ∧ b ≠ 0x20 ∧ b < 0x80 := by
  obtain ⟨hbytes, hchar⟩ := utf8Bytes_of_valid hvalid
  intro b hb
  rw [hbytes, map_map] at hb
  obtain ⟨ch, hch, rfl⟩ := mem_map.1 hb
  obtain ⟨-, hzero, hblank, hascii, -⟩ := valid_byte ch.toNat (hchar ch hch).1 (hchar ch hch).2
  exact ⟨hzero, hblank, hascii⟩

end Valid

variable {bytes raw : List UInt8} {slots : List Slot} {shortName : Str} {regions : List (List Slot)}

theorem decodeComponent_of_write {width : Nat} (h : writeShortComponent component width = .ok raw) :
    decodeComponent raw = some (component.map upperChar) ∧
      (component.map upperChar).map Char.toLower = component.map Char.toLower := by
  obtain ⟨hvalid, rfl⟩ := writeShortComponent_eq_ok h
  obtain ⟨hbytes, hchar⟩ := utf8Bytes_of_valid hvalid
  have hupper := upper_of_valid hvalid
  constructor
  · have htake : ((utf8Bytes component).map toAsciiUppercase ++
        replicate (width - (utf8Bytes component).length) 0x20).takeWhile (· ≠ 0x20) =
          (utf8Bytes component).map toAsciiUppercase := by
      rw [takeWhile_append_of_pos fun b hb => decide_eq_true (hupper b hb).2.1]
      simp
    rw [decodeComponent, htake, if_pos, hbytes, map_map, map_map]
    · rfl
    · exact all_eq_true.2 fun b hb => decide_eq_true (hupper b hb).2.2
  · rw [map_map]
    refine map_congr_left fun ch hch => ?_
    obtain ⟨-, -, -, -, hlower⟩ := valid_byte ch.toNat (hchar ch hch).1 (hchar ch hch).2
    rw [Char.ofNat_toNat] at hlower
    exact hlower

theorem encodeShortName_first (h : encodeShortName name = .ok raw) :
    raw.getD 0 0 ≠ 0x00 ∧ raw.getD 0 0 < 0x80 := by
  obtain ⟨-, hne, -, -, base, extension, hbase, -, rfl⟩ := encodeShortName_eq_ok h
  obtain ⟨hvalid, rfl⟩ := writeShortComponent_eq_ok hbase
  obtain ⟨hbytes, -⟩ := utf8Bytes_of_valid hvalid
  have hupper := upper_of_valid hvalid
  obtain ⟨ch, chars, hchars⟩ := exists_cons_of_ne_nil hne
  rw [hchars] at hbytes hupper ⊢
  rw [hbytes] at hupper ⊢
  obtain ⟨hzero, -, hascii⟩ := hupper _ mem_cons_self
  exact ⟨hzero, hascii⟩

/-- **What is read from a short name that has been written**: the name it was made from, but for
the case of the letters, and but for a dot at the end. -/
theorem decodeShortName_of_encode (h : encodeShortName name = .ok raw) :
    ∃ shortName, decodeShortName raw = some shortName ∧
      (eqIgnoreAsciiCase shortName name = true ↔ name.getLast? ≠ some '.') := by
  have hlength := length_encodeShortName h
  obtain ⟨hparts, hne, hlen, -, base, extension, hbase, hextension, rfl⟩ := encodeShortName_eq_ok h
  have hbaseLength := length_writeShortComponent hlen hbase
  obtain ⟨hdecode, hlower⟩ := decodeComponent_of_write hbase
  obtain ⟨hdecode', hlower'⟩ := decodeComponent_of_write hextension
  have hname : ['.'].intercalate (name.splitOn '.') = name := intercalate_splitOn '.'
  have hnodot : ∀ part ∈ name.splitOn '.', '.' ∉ part := fun part => notMem_of_mem_splitOn
  rw [decodeShortName, if_neg (not_not.2 hlength), ← hbaseLength, take_left, drop_left,
    hdecode, hdecode']
  generalize name.splitOn '.' = parts at *
  have hlast : ∀ part ∈ parts, part.getLast? ≠ some '.' :=
    fun part hpart h => hnodot part hpart (mem_of_getLast? h)
  rcases parts with - | ⟨base, - | ⟨extension, - | ⟨_, _⟩⟩⟩
  · exact absurd rfl hne
  · -- There is no dot.
    obtain rfl : base = name := by simpa [intercalate] using hname
    have hupper : base.map upperChar ≠ [] := mt map_eq_nil_iff.1 hne
    exact ⟨base.map upperChar, (if_neg hupper).trans (if_pos rfl),
      iff_of_true (beq_iff_eq.2 hlower) (hlast base mem_cons_self)⟩
  · obtain rfl : base ++ '.' :: extension = name := by simpa [intercalate] using hname
    have hupper : base.map upperChar ≠ [] := mt map_eq_nil_iff.1 hne
    by_cases hempty : extension = []
    · -- The dot at the end is not in the short name.
      subst hempty
      refine ⟨base.map upperChar, (if_neg hupper).trans (if_pos rfl), iff_of_false ?_ ?_⟩
      · intro heq
        have hlen := congrArg length (beq_iff_eq.1 heq)
        simp at hlen
      · simp
    · refine ⟨base.map upperChar ++ '.' :: extension.map upperChar,
        (if_neg hupper).trans (if_neg (mt map_eq_nil_iff.1 hempty)), iff_of_true ?_ ?_⟩
      · rw [eqIgnoreAsciiCase, beq_iff_eq, map_append, map_append]
        exact congrArg₂ (· ++ Char.toLower '.' :: ·) hlower hlower'
      · rw [getLast?_append_cons, getLast?_cons_of_ne_nil hempty]
        exact hlast extension (by simp)
  · simp at hparts

/-! ## A directory with a new entry -/

/-- The parts of a long name that stand in front of the first free slot. -/
def waiting : List (List Slot) → List Str
  | [] => []
  | slots :: regions =>
    if slots.any isFree then (scanList (slots.takeWhile (!isFree ·)) ⟨[], []⟩).2.parts
    else waiting regions

section Append

variable (before : List ParsedDirEntry)

/-- Entries are added behind those that have been found. -/
theorem Scan.slot_append (parts : List Str)
    (entries : List ParsedDirEntry) (offset : Nat) (entry : List UInt8) :
    Scan.slot ⟨parts, before ++ entries⟩ offset entry =
      ⟨(Scan.slot ⟨parts, entries⟩ offset entry).parts,
        before ++ (Scan.slot ⟨parts, entries⟩ offset entry).entries⟩ := by
  rw [Scan.slot, Scan.slot]
  split
  · rfl
  split
  · split <;> rfl
  split
  · rfl
  cases decodeShortName (entry.take 11) with
  | none => rfl
  | some shortName =>
    dsimp only
    rw [append_assoc]

theorem scanList_append_entries (slots : List Slot) :
    ∀ (parts : List Str) (entries : List ParsedDirEntry),
      scanList slots ⟨parts, before ++ entries⟩ =
        ((scanList slots ⟨parts, entries⟩).1, ⟨(scanList slots ⟨parts, entries⟩).2.parts,
          before ++ (scanList slots ⟨parts, entries⟩).2.entries⟩) := by
  induction slots with
  | nil => intro parts entries; rfl
  | cons slot slots ih =>
    intro parts entries
    rw [scanList, scanList, Scan.slot_append]
    split
    · rfl
    · exact ih _ _

theorem listRegions_append_entries (regions : List (List Slot)) :
    ∀ entries : List ParsedDirEntry,
      listRegions regions (before ++ entries) = before ++ listRegions regions entries := by
  induction regions with
  | nil => intro entries; rfl
  | cons slots regions ih =>
    intro entries
    rw [listRegions, listRegions, scanList_append_entries]
    dsimp only
    split
    · rfl
    · exact ih _

end Append

/-- Slots that do not end the directory. -/
theorem scanList_append_of_used (h : ∀ slot ∈ slots, isFree slot = false) (slots' : List Slot)
    (scan : Scan) : scanList (slots ++ slots') scan = scanList slots' (scanList slots scan).2 := by
  induction slots generalizing scan with
  | nil => rfl
  | cons slot slots ih =>
    have hused : ¬ slot.2.getD 0 0 = 0x00 := by
      have := h slot mem_cons_self
      rw [isFree, decide_eq_false_iff_not] at this
      exact fun hend => this (.inl hend)
    rw [cons_append, scanList, scanList, if_neg hused, if_neg hused]
    exact ih (forall_mem_cons.1 h).2 _

theorem scanList_used (h : ∀ slot ∈ slots, isFree slot = false) (scan : Scan) :
    (scanList slots scan).1 = false := by
  have happend := scanList_append_of_used h [] scan
  rw [append_nil] at happend
  rw [happend]
  rfl

/-- The slot of an entry with a short name that can be read. -/
structure NewEntry (bytes : List UInt8) (shortName : Str) : Prop where
  used : bytes.getD 0 0 ≠ 0x00
  entry : isEntry bytes = true
  name : decodeShortName (bytes.take 11) = some shortName

theorem NewEntry.slot (h : NewEntry bytes shortName) (scan : Scan) (o : Nat) :
    scan.slot o bytes = ⟨[], scan.entries ++
      [slotEntry (if scan.parts ≠ [] then scan.parts.flatten else shortName) (o, bytes)]⟩ := by
  have hentry := h.entry
  rw [isEntry, decide_eq_true_eq] at hentry
  rw [Scan.slot, if_neg hentry.1, if_neg hentry.2.1, if_neg (not_not.2 hentry.2.2), h.name]
  rfl

theorem exists_append_of_scanList (slots : List Slot) (regions : List (List Slot)) (scan : Scan) :
    ∃ more, (if (scanList slots scan).1 then (scanList slots scan).2.entries
      else listRegions regions (scanList slots scan).2.entries) = scan.entries ++ more := by
  obtain ⟨parts, entries⟩ := scan
  have happend := scanList_append_entries entries slots parts []
  rw [append_nil] at happend
  rw [happend]
  split
  · exact ⟨_, rfl⟩
  · exact ⟨_, listRegions_append_entries _ _ _⟩

/-- **The listing of a directory before and after** the first free slot has got an entry: what comes
before it is the same. -/
theorem listRegions_putSlot (h : NewEntry bytes shortName) {slot : Slot} :
    ∀ (regions : List (List Slot)) (entries : List ParsedDirEntry),
      regions.flatten.find? isFree = some slot → (regions.flatten.map (·.1)).Nodup →
      ∃ before after after', listRegions regions entries = before ++ after ∧
        listRegions (regions.map (·.map (putSlot slot.1 bytes))) entries = before ++
          slotEntry (if waiting regions ≠ [] then (waiting regions).flatten else shortName)
            (slot.1, bytes) :: after' := by
  intro regions
  induction regions with
  | nil =>
    intro entries hfind
    cases hfind
  | cons slots regions ih =>
    intro entries hfind hnodup
    rw [flatten_cons, find?_append] at hfind
    rw [flatten_cons, map_append] at hnodup
    rw [map_cons, listRegions, listRegions, waiting]
    cases hslots : slots.find? isFree with
    | none =>
      -- The slot is in one of the other regions.
      have hused : ∀ x ∈ slots, isFree x = false := by
        intro x hx
        exact Bool.eq_false_of_not_eq_true (find?_eq_none.1 hslots x hx)
      rw [hslots] at hfind
      have hmem := mem_of_find?_eq_some hfind
      have hnot : slot.1 ∉ slots.map (·.1) := fun hin =>
        (nodup_append.1 hnodup).2.2 _ hin _ (mem_map_of_mem hmem) rfl
      have hany : ¬ slots.any isFree = true := by simpa using hused
      rw [map_putSlot_of_notMem hnot, if_neg hany]
      dsimp only
      rw [scanList_used hused]
      exact ih _ hfind (nodup_append.1 hnodup).2.1
    | some x =>
      rw [hslots, Option.some_or, Option.some.injEq] at hfind
      subst hfind
      obtain ⟨hfree, front, back, rfl, hfront⟩ := find?_eq_some_iff_append.1 hslots
      have hused : ∀ y ∈ front, isFree y = false := fun y hy => by simpa using hfront y hy
      have hnot : x.1 ∉ front.map (·.1) := by
        intro hin
        rw [map_append, append_assoc] at hnodup
        exact (nodup_append.1 hnodup).2.2 _ hin _ mem_cons_self rfl
      have hany : (front ++ x :: back).any isFree = true :=
        any_eq_true.2 ⟨x, by simp, hfree⟩
      have hfirst : (front ++ x :: back).takeWhile (!isFree ·) = front := by
        rw [takeWhile_append_of_pos fun y hy => by rw [hused y hy]; rfl,
          takeWhile_cons_of_neg (by rw [hfree]; decide), append_nil]
      have hparts := scanList_append_entries entries front [] []
      rw [append_nil] at hparts
      obtain ⟨after, hafter⟩ :=
        exists_append_of_scanList (x :: back) regions (scanList front ⟨[], entries⟩).2
      obtain ⟨after', hafter'⟩ := exists_append_of_scanList (back.map (putSlot x.1 bytes))
        (regions.map (·.map (putSlot x.1 bytes)))
        ((scanList front ⟨[], entries⟩).2.slot x.1 bytes)
      refine ⟨(scanList front ⟨[], entries⟩).2.entries, after, after', ?_, ?_⟩
      · rw [scanList_append_of_used hused]
        exact hafter
      rw [map_append, map_putSlot_of_notMem hnot, map_cons, putSlot, if_pos rfl,
        scanList_append_of_used hused, scanList, if_neg h.used, if_pos hany, hfirst]
      refine hafter'.trans ?_
      rw [h.slot, hparts, append_assoc]
      rfl

/-! ## Short names of a directory -/

/-- The short names of the entries, also of those that cannot be read. -/
def shortNames (slots : List Slot) : List (List UInt8) :=
  (upToEnd (fun slot => isEntry slot.2) slots).map (·.2.take 11)

theorem shortNames_append_of_used (h : ∀ slot ∈ slots, isFree slot = false) (slots' : List Slot) :
    shortNames (slots ++ slots') = shortNames slots ++ shortNames slots' := by
  rw [shortNames, upToEnd_append_of_used _ h, map_append]
  rfl

/-- **The short names after the first free slot has got an entry.** -/
theorem shortNames_putSlot (h : NewEntry bytes shortName) {slot : Slot}
    (hfind : slots.find? isFree = some slot) (hnodup : (slots.map (·.1)).Nodup) :
    (shortNames (slots.map (putSlot slot.1 bytes))).Perm
      (bytes.take 11 :: shortNames (slots.eraseP isFree)) := by
  obtain ⟨hfree, front, back, rfl, hfront⟩ := find?_eq_some_iff_append.1 hfind
  have hused : ∀ y ∈ front, isFree y = false := fun y hy => by simpa using hfront y hy
  rw [map_append, map_cons, nodup_append, nodup_cons] at hnodup
  have hfrontNot : slot.1 ∉ front.map (·.1) :=
    fun hin => hnodup.2.2 _ hin _ mem_cons_self rfl
  have herase : (front ++ slot :: back).eraseP isFree = front ++ back := by
    rw [eraseP_append_right _ fun y hy => by rw [hused y hy]; exact Bool.false_ne_true,
      eraseP_cons_of_pos hfree]
  have hput : putSlot slot.1 bytes slot = (slot.1, bytes) := if_pos rfl
  have hnew : shortNames ((slot.1, bytes) :: back) = bytes.take 11 :: shortNames back := by
    have hend : isEnd (slot.1, bytes) = false := decide_eq_false h.used
    rw [shortNames, upToEnd_cons, hend, if_pos h.entry]
    rfl
  rw [map_append, map_cons, map_putSlot_of_notMem hfrontNot,
    map_putSlot_of_notMem hnodup.2.1.1, hput, herase, shortNames_append_of_used hused,
    shortNames_append_of_used hused, hnew]
  exact perm_middle

/-- Slots that end the directory at once have no names. -/
theorem shortNames_blank (h : ∀ slot ∈ slots, isEnd slot = true) : shortNames slots = [] := by
  cases slots with
  | nil => rfl
  | cons slot slots =>
    rw [shortNames, upToEnd_cons, h slot mem_cons_self]
    rfl

/-! ## What is created is found -/

/-- Whether the entry of a new file has its name, and no other entry has its short name: the short
names, also of the entries behind the end mark if that is the slot for the new entry, are different
from each other and from the new one; and there are no parts of a long name in front of the slot,
unless they happen to spell the name, and the name does not end with a dot. -/
def Creatable (regions : List (List Slot)) (name : Str) : Prop :=
  (∀ raw, encodeShortName name = .ok raw →
    (raw :: shortNames (regions.flatten.eraseP isFree)).Nodup) ∧
  if waiting regions ≠ [] then eqIgnoreAsciiCase (waiting regions).flatten name = true
  else name.getLast? ≠ some '.'

theorem waiting_append_of_used (hnone : ∀ slot ∈ regions.flatten, isFree slot = false)
    (regions' : List (List Slot)) : waiting (regions ++ regions') = waiting regions' := by
  induction regions with
  | nil => rfl
  | cons slots regions ih =>
    rw [flatten_cons, forall_mem_append] at hnone
    rw [cons_append, waiting, if_neg (by simpa using hnone.1)]
    exact ih hnone.2

/-- A directory without a free slot, and the same with a new cluster. -/
theorem creatable_append_blank (hnone : ∀ slot ∈ regions.flatten, isFree slot = false)
    (hblank : Volume.Blank o blank) (name : Str) :
    Creatable (regions ++ [blank]) name ↔ Creatable regions name := by
  have hnot : ∀ slot ∈ regions.flatten, ¬ isFree slot = true := fun slot hslot => by
    rw [hnone slot hslot]
    exact Bool.false_ne_true
  have hwaiting : waiting regions = [] := by
    have := waiting_append_of_used hnone []
    rwa [append_nil] at this
  have hwaiting' : waiting (regions ++ [blank]) = [] := by
    rw [waiting_append_of_used hnone, waiting]
    split
    · obtain ⟨hhead, hend⟩ := hblank
      rcases blank with _ | ⟨slot, blank⟩
      · rfl
      have hfree : isFree slot = true :=
        decide_eq_true (.inl (of_decide_eq_true (hend slot mem_cons_self)))
      rw [takeWhile_cons, hfree]
      rfl
    · rfl
  have hnames : shortNames ((regions ++ [blank]).flatten.eraseP isFree) =
      shortNames (regions.flatten.eraseP isFree) := by
    rw [flatten_append, flatten_singleton, eraseP_append_right _ hnot,
      eraseP_of_forall_not hnot, shortNames_append_of_used hnone,
      shortNames_blank fun slot hslot => hblank.2 slot (mem_of_mem_eraseP hslot),
      append_nil]
  rw [Creatable, Creatable, hnames, hwaiting, hwaiting']

theorem listRegions_append_blank (hblank : Volume.Blank o blank) (regions : List (List Slot))
    (entries : List ParsedDirEntry) :
    listRegions (regions ++ [blank]) entries = listRegions regions entries := by
  induction regions generalizing entries with
  | nil =>
    obtain ⟨hhead, hend⟩ := hblank
    rcases blank with _ | ⟨slot, blank⟩
    · cases hhead
    have hscan : scanList (slot :: blank) ⟨[], entries⟩ = (true, ⟨[], entries⟩) :=
      if_pos (of_decide_eq_true (hend slot mem_cons_self))
    rw [nil_append, listRegions, listRegions, hscan]
    rfl
  | cons slots regions ih =>
    rw [cons_append, listRegions, listRegions]
    dsimp only
    split
    · rfl
    · exact ih _

theorem Volume.run_lookup (v : Volume) {s : FatState} (hs : s.Reliable) {inode : FatInode}
    (htype : inode.fileType = .directory) (h : v.DirChain s.data inode.state chain) (name : Str) :
    run (v.lookup inode name) s =
      match (v.listing s.data inode.state.storage chain).find?
        fun entry => eqIgnoreAsciiCase entry.name name with
      | none => (some (.error .notFound), s)
      | some entry => (some (.ok (inodeOf entry)), s) := by
  rw [FatFsInner.lookup, if_neg (not_not.2 htype)]
  refine (run_bind_ok (v.run_readDirectoryEntries hs h) _).trans ?_
  cases (v.listing s.data inode.state.storage chain).find?
    fun entry => eqIgnoreAsciiCase entry.name name <;> rfl

theorem nodup_entryOffset (h : (regions.flatten.map (·.1)).Nodup) :
    ((listRegions regions []).map (·.entryOffset)).Nodup := by
  have hoffsets : (listRegions regions []).map (·.entryOffset) =
      (listed regions.flatten).map (·.1) := by
    have := congrArg (List.map (·.entryOffset)) (unnamed_listRegions regions [])
    rw [map_nil, nil_append, map_map, map_map] at this
    exact this
  rw [hoffsets]
  refine h.sublist (List.Sublist.map _ ?_)
  exact filter_sublist.trans (takeWhile_sublist _)

/-- **What `lookup` finds** after the first free slot has got an entry, if it did not find anything
before. -/
theorem find?_listRegions_putSlot (h : NewEntry bytes shortName) {slot : Slot}
    (hfind : regions.flatten.find? isFree = some slot) (hnodup : (regions.flatten.map (·.1)).Nodup)
    (hnone : ∀ entry ∈ listRegions regions [], eqIgnoreAsciiCase entry.name name = false) :
    ∃ text found, text = (if waiting regions ≠ [] then (waiting regions).flatten else shortName) ∧
      (listRegions (regions.map (·.map (putSlot slot.1 bytes))) []).find?
        (fun entry => eqIgnoreAsciiCase entry.name name) = found ∧
      (eqIgnoreAsciiCase text name = true → found = some (slotEntry text (slot.1, bytes))) ∧
      (eqIgnoreAsciiCase text name = false → ∀ entry ∈ found, entry.entryOffset ≠ slot.1) := by
  obtain ⟨before, after, after', hbefore, hafter⟩ := listRegions_putSlot h regions [] hfind hnodup
  have hoffsets : ((regions.map (·.map (putSlot slot.1 bytes))).flatten.map (·.1)).Nodup := by
    have hfst : ∀ x : Slot, (putSlot slot.1 bytes x).1 = x.1 := by
      intro x
      rw [putSlot]
      split_ifs with heq
      · exact heq.symm
      · rfl
    rw [← map_flatten, map_map]
    rwa [show ((·.1) ∘ putSlot slot.1 bytes : Slot → Nat) = (·.1) from funext hfst]
  have hdistinct := nodup_entryOffset hoffsets
  refine ⟨_, _, rfl, rfl, fun hmatch => ?_, fun hmatch entry hentry => ?_⟩
  · rw [hafter, find?_append, find?_eq_none.2, Option.none_or, find?_cons_of_pos]
    · exact hmatch
    · intro entry hentry
      rw [hnone entry (hbefore ▸ mem_append_left _ hentry)]
      exact Bool.false_ne_true
  · have hmem := mem_of_find?_eq_some hentry
    have hname := find?_some hentry
    rw [hafter] at hmem hdistinct
    rw [map_append, map_cons, nodup_append, nodup_cons] at hdistinct
    rcases mem_append.1 hmem with hmem | hmem
    · exact fun heq => hdistinct.2.2 _ (mem_map_of_mem hmem) _ mem_cons_self heq
    rcases mem_cons.1 hmem with rfl | hmem
    · exact absurd (hmatch.symm.trans hname) Bool.false_ne_true
    intro heq
    have hin : entry.entryOffset ∈ after'.map (·.entryOffset) := mem_map_of_mem hmem
    rw [heq] at hin
    exact hdistinct.2.1.1 hin

theorem newEntry_rawDirEntry (hraw : encodeShortName name = .ok raw) (fileType : FileType)
    (c : Nat) :
    ∃ shortName, NewEntry (rawDirEntry raw (attributesFor fileType) c 0) shortName ∧
      (eqIgnoreAsciiCase shortName name = true ↔ name.getLast? ≠ some '.') := by
  obtain ⟨shortName, hdecode, hname⟩ := decodeShortName_of_encode hraw
  obtain ⟨hzero, hascii⟩ := encodeShortName_first hraw
  obtain ⟨htake, hattr, -⟩ := rawDirEntry_parts (length_encodeShortName hraw)
    (attributesFor fileType) c 0
  have hbyte : (rawDirEntry raw (attributesFor fileType) c 0).getD 0 0 =
      raw.getD 0 0 := by
    conv_rhs => rw [← htake]
    rw [getD_eq_getElem?_getD, getD_eq_getElem?_getD, getElem?_take_of_lt (by decide)]
  have hfree : raw.getD 0 0 ≠ 0xE5 := by
    intro h
    rw [h] at hascii
    exact absurd hascii (by decide)
  refine ⟨shortName, ⟨?_, ?_, ?_⟩, hname⟩
  · rw [hbyte]
    exact hzero
  · rw [isEntry, hbyte, hattr]
    refine decide_eq_true ⟨hfree, ?_⟩
    cases fileType <;> decide
  · rw [htake]
    exact hdecode

theorem inodeOf_slotEntry (hraw : raw.length = 11) {fileType : FileType}
    (hkind : fileType = .regular ∨ fileType = .directory) {c : Nat} (hc : c < 2 ^ 32) (text : Str)
    (o : Nat) :
    inodeOf
        (slotEntry text (o, rawDirEntry raw (attributesFor fileType) c 0)) =
      newInode fileType c o := by
  obtain ⟨-, hattr, -⟩ := rawDirEntry_parts hraw (attributesFor fileType) c 0
  have htype : slotType (rawDirEntry raw (attributesFor fileType) c 0) = fileType := by
    rw [slotType, hattr]
    rcases hkind with rfl | rfl <;> decide
  rw [slotEntry, htype, slotCluster_rawDirEntry hraw _ _ _ hc,
    slotSize_rawDirEntry hraw _ _ _ (by decide)]
  rfl

namespace Volume

variable (v : Volume) {s : FatState}

/-- A longer directory has the same names in it, and the same names can be created. -/
theorem place_names {s1 : FatState} {storage : InodeStorage} {chain1 : List Nat}
    (h : (s1 = s ∧ chain1 = chain) ∨ (v.freeOffset s.data storage chain = none ∧
      ∃ blank, Blank o blank ∧ v.slots s1.data storage chain1 =
        v.slots s.data storage chain ++ [blank])) (name : Str) :
    v.listing s1.data storage chain1 = v.listing s.data storage chain ∧
      (Creatable (v.slots s1.data storage chain1) name ↔
        Creatable (v.slots s.data storage chain) name) := by
  rcases h with ⟨rfl, rfl⟩ | ⟨hnone, blank, hblank, hslots⟩
  · exact ⟨rfl, Iff.rfl⟩
  rw [listing, hslots]
  refine ⟨listRegions_append_blank hblank _ _, creatable_append_blank (fun slot hslot => ?_) hblank
    name⟩
  rw [freeOffset, Option.map_eq_none_iff, ← flatten_slots] at hnone
  exact Bool.eq_false_of_not_eq_true (find?_eq_none.1 hnone slot hslot)

/-- **When a file that has been created is found.**  After `create` has succeeded, `lookup` returns
the same file and the short names are different if and only if the name was creatable before. -/
theorem created_found_iff (hs : v.Ready s) (hsmall : v.Small) {inode : FatInode} {chain : List Nat}
    (hdir : v.DirChain s.data inode.state chain) (hused : ∀ x ∈ chain, v.Used s.data x) {name : Str}
    {fileType : FileType} {created : FatInode} {s' : FatState}
    (hrun : run (v.create inode name fileType) s = (some (.ok created), s')) :
    ∃ chain', v.DirChain s'.data inode.state chain' ∧
      ((run (v.lookup inode name) s' = (some (.ok created), s') ∧
          (shortNames (v.dirSlots s'.data inode.state.storage chain')).Nodup) ↔
        Creatable (v.slots s.data inode.state.storage chain) name) := by
  obtain ⟨htype, hkind, raw, o, s1, chain1, c, hraw, hexists, hplace, hfree, rfl, rfl⟩ :=
    v.create_ok hs hdir hrun
  obtain ⟨hs1, -⟩ := v.place_ready hs hdir.isCluster hplace
  obtain ⟨hdir1, hused1, hoffset, hrel⟩ := v.place_spec hs hsmall hdir hused hplace
  obtain ⟨hlisting, hcreatable⟩ := v.place_names hrel name
  obtain ⟨hc, hzero⟩ := v.isCluster_of_freeCluster hs1.hint hfree
  have hmem : c ∉ chain1 := fun h => (hused1 c h).2 hzero
  have hchain1 := hdir1.isCluster
  have ho := v.mem_of_freeOffset hoffset
  obtain ⟨shortName, hnew, hshort⟩ := newEntry_rawDirEntry hraw fileType c
  have hlength := length_encodeShortName hraw
  -- The directory afterwards.
  have hdir' : v.DirChain
      (v.entered s1 o raw fileType c (parentCluster inode.state)).data inode.state
      chain1 := v.dirChain_entered hdir1 hmem (v.le_of_mem_dirOffsets ho)
  have hs' : (v.entered s1 o raw fileType c
      (parentCluster inode.state)).Reliable := hs1.reliable
  refine ⟨chain1, hdir', ?_⟩
  rw [← hcreatable, v.run_lookup hs' htype hdir', listing, ← flatten_slots,
    v.slots_entered hc hlength hchain1 hmem fun o' ho' hne =>
      v.apart_of_mem_dirOffsets hchain1 hdir1.nodup ho' ho hne]
  -- What is found in it.
  have hnodup : ((v.slots s1.data inode.state.storage chain1).flatten.map (·.1)).Nodup := by
    rw [v.flatten_slots, v.map_fst_dirSlots]
    exact v.nodup_dirOffsets hchain1 hdir1.nodup
  have hnone : ∀ entry ∈ listRegions (v.slots s1.data inode.state.storage chain1) [],
      eqIgnoreAsciiCase entry.name name = false := by
    rw [← listing, hlisting]
    exact fun entry hentry => by simpa using any_eq_false.1 hexists entry hentry
  obtain ⟨slot, hfind, rfl⟩ := Option.map_eq_some_iff.1 hoffset
  rw [← v.flatten_slots] at hfind
  generalize v.slots s1.data inode.state.storage chain1 = regions at hfind hnodup hnone ⊢
  obtain ⟨text, found, htext, hlookup, hfound, hother⟩ :=
    find?_listRegions_putSlot hnew hfind hnodup hnone
  rw [hlookup]
  have hperm := shortNames_putSlot hnew hfind hnodup
  obtain ⟨htake, -⟩ := rawDirEntry_parts hlength (attributesFor fileType) c 0
  have hnames : (∀ raw', encodeShortName name = .ok raw' →
      (raw' :: shortNames (regions.flatten.eraseP isFree)).Nodup) ↔
        (shortNames (regions.map (·.map (putSlot slot.1
          (rawDirEntry raw (attributesFor fileType) c 0)))).flatten).Nodup := by
    rw [← map_flatten, hperm.nodup_iff, htake, hraw]
    exact ⟨fun h => h raw rfl, fun h raw' hraw' => Except.ok.inj hraw' ▸ h⟩
  have htextIff : (if waiting regions ≠ [] then
      eqIgnoreAsciiCase (waiting regions).flatten name = true
      else name.getLast? ≠ some '.') ↔ eqIgnoreAsciiCase text name = true := by
    rw [htext]
    split
    · exact Iff.rfl
    · exact hshort.symm
  rw [Creatable, hnames, htextIff, and_comm]
  refine and_congr_right fun _ => ?_
  cases hmatch : eqIgnoreAsciiCase text name with
  | true =>
    rw [hfound hmatch]
    dsimp only
    rw [inodeOf_slotEntry hlength hkind (hc.2.trans_lt v.regular.totalClusters_lt)]
    exact iff_of_true rfl rfl
  | false =>
    refine iff_of_false (fun hlookup => ?_) Bool.false_ne_true
    split at hlookup
    · cases hlookup
    refine hother hmatch _ rfl ?_
    have hinode := (Except.ok.inj (Option.some.inj (Prod.mk.inj hlookup).1))
    exact Option.some.inj (congrArg (·.state.dirEntryOffset) hinode)

end Volume

/-! ## Three names -/

/-- A directory in the first cluster of the small volume, with these slots. -/
def directoryState (slots : List (List UInt8)) : FatState :=
  smallState [0, 0, 0, 0xFF, 0x0F] [] slots.flatten

def directoryInode : FatInode := ⟨.directory, ⟨2, 0, none, .clusterChain, none⟩⟩

/-- A file with the short name `README` and the long name `note`. -/
def noteSlots : List (List UInt8) :=
  [[0x41, 0x6E, 0, 0x6F, 0, 0x74, 0, 0x65, 0, 0, 0, 0x0F, 0, 0, 0xFF, 0xFF, 0xFF, 0xFF, 0xFF, 0xFF,
      0xFF, 0xFF, 0xFF, 0xFF, 0xFF, 0xFF, 0, 0, 0xFF, 0xFF, 0xFF, 0xFF],
    rawDirEntry [0x52, 0x45, 0x41, 0x44, 0x4D, 0x45, 0x20, 0x20, 0x20, 0x20, 0x20] ATTR_ARCHIVE 0 0]

/-- A file is created in the directory with these slots. -/
def created (slots : List (List UInt8)) (name : Str) :
    Option (Except FsError FatInode) × FatState :=
  run (smallVolume.create directoryInode name .regular) (directoryState slots)

/-- Next to `README`, a file is created and found. -/
theorem created_found_beside :
    (created noteSlots "foo".toList).1 = some (.ok (newInode .regular 3 1600)) ∧
      run (smallVolume.lookup directoryInode "foo".toList) (created noteSlots "foo".toList).2 =
        (some (.ok (newInode .regular 3 1600)), (created noteSlots "foo".toList).2) := by
  have hcreated : (created noteSlots "foo".toList).1 = some (.ok (newInode .regular 3 1600)) := by
    decide +kernel
  have hready : smallVolume.Ready (directoryState noteSlots) := ⟨rfl, by decide⟩
  have hchain : smallVolume.DirChain (directoryState noteSlots).data directoryInode.state [2] :=
    .inl ⟨⟨le_rfl, by decide⟩, .last (by decide +kernel)⟩
  have hused : ∀ x ∈ [2], smallVolume.Used (directoryState noteSlots).data x := by
    intro x hx
    rw [mem_singleton.1 hx]
    exact ⟨⟨le_rfl, by decide⟩, by decide +kernel⟩
  have hrun : created noteSlots "foo".toList =
      (some (.ok (newInode .regular 3 1600)), (created noteSlots "foo".toList).2) := by
    rw [← hcreated]
  have hcreatable : Creatable
      (smallVolume.slots (directoryState noteSlots).data directoryInode.state.storage [2])
      "foo".toList := by
    refine ⟨fun raw h => ?_, by decide +kernel⟩
    cases h
    decide +kernel
  obtain ⟨_, -, hiff⟩ := smallVolume.created_found_iff hready small_smallVolume hchain hused hrun
  exact ⟨hcreated, (hiff.2 hcreatable).1⟩

/-- **A file is created and not found, and two files get the same short name.** -/
theorem created_not_found :
    ((created [] "foo.".toList).1 = some (.ok (newInode .regular 3 1536)) ∧
      (run (smallVolume.lookup directoryInode "foo.".toList) (created [] "foo.".toList).2).1 =
        some (.error .notFound)) ∧
    (shortNames (smallVolume.dirSlots (directoryState noteSlots).data .clusterChain [2])).Nodup ∧
      (created noteSlots "readme".toList).1 = some (.ok (newInode .regular 3 1600)) ∧
      ¬ (shortNames (smallVolume.dirSlots (created noteSlots "readme".toList).2.data
        .clusterChain [2])).Nodup := by
  decide +kernel

end Krust.Fat
