import Krust.Fat.Listing
import Mathlib.Data.List.TakeWhile

/-!
# Long names

In the VFAT format a long name is cut into parts of thirteen 16 bit units, and each part is put into
a slot in front of the entry with the short name, the last part first.  `LongEntry` is a name with
its slots as the format has them.

`parse_lfn_entry` reads eleven of the thirteen units, and `read_directory_entries` forgets the parts
at the beginning of each cluster.  So a name comes back if it has at most ten characters and its
slot is in the same cluster as the entry; and otherwise only by accident, as the short name
(`Volume.long_names_read_iff`).
-/

set_option autoImplicit false

namespace Krust.Fat

open Lib Prog Block List

/-! ## The format -/

/-- The character that is also the filler of a slot. -/
def fillChar : Char := Char.ofNat 0xFFFF

def nameParts (name : Str) : List Str :=
  (List.range ((name.length + 12) / 13)).map fun k => (name.drop (13 * k)).take 13

/-- The thirteen units of a part: after the last character one 0, and then the filler. -/
def partUnits (part : Str) : List Nat :=
  part.map Char.toNat ++ (0 :: List.replicate 12 0xFFFF).take (13 - part.length)

def lfnSlot (ordinal checksum : UInt8) (units : List Nat) : List UInt8 :=
  ordinal :: (units.take 5).flatMap (leBytes 2) ++ [ATTR_LFN, 0, checksum] ++
    ((units.drop 5).take 6).flatMap (leBytes 2) ++ [0, 0] ++ (units.drop 11).flatMap (leBytes 2)

/-- The number of a part: they are counted from 1, and the last one is marked. -/
def lfnOrdinal (count k : Nat) : UInt8 :=
  .ofNat (if k + 1 = count then (k + 1) ||| 0x40 else k + 1)

/-- An entry with a long name of the Basic Multilingual Plane.  The checksum of the short name is in
all slots of the long one; no code looks at it, so it can be anything here. -/
structure LongEntry where
  name : Str
  checksum : UInt8
  short : List UInt8
  name_ne : name ≠ []
  name_le : name.length ≤ 255
  name_bmp : ∀ ch ∈ name, 0 < ch.toNat ∧ ch.toNat < 0x10000
  short_length : short.length = DIR_ENTRY_SIZE
  short_used : short.getD 0 0 ≠ 0 ∧ short.getD 0 0 ≠ 0xE5
  short_attributes : short.getD 11 0 &&& ATTR_VOLUME_ID = 0

namespace LongEntry

variable (e : LongEntry)

def slot (part : Str × Nat) : List UInt8 :=
  lfnSlot (lfnOrdinal (nameParts e.name).length part.2) e.checksum (partUnits part.1)

def slots : List (List UInt8) :=
  (nameParts e.name).zipIdx.reverse.map e.slot ++ [e.short]

/-- The name in the last slot. -/
def shortName : Option Str := decodeShortName (e.short.take 11)

end LongEntry

/-! ## Parts -/

variable {units : List Nat} {raw : List UInt8} {chars name shortName : Str} (per : Nat)

theorem nameParts_eq_cons (h : name ≠ []) :
    nameParts name = name.take 13 :: nameParts (name.drop 13) := by
  have hpos := length_pos_iff.2 h
  have hcount : (name.length + 12) / 13 = ((name.drop 13).length + 12) / 13 + 1 := by
    rw [length_drop]
    omega
  rw [nameParts, hcount, range_succ_eq_map, map_cons, map_map]
  congr 1
  refine map_congr_left fun k _ => ?_
  show (name.drop (13 * (k + 1))).take 13 = _
  rw [drop_drop, Nat.mul_succ, Nat.add_comm]

theorem length_flatten_nameParts (n : Nat) :
    ∀ name : Str, name.length ≤ n → (nameParts name).flatten.length ≤ name.length := by
  induction n with
  | zero =>
    intro name hlen
    rw [length_eq_zero_iff.1 (Nat.le_zero.1 hlen)]
    exact le_rfl
  | succ n ih =>
    intro name hlen
    by_cases hname : name = []
    · rw [hname]
      exact le_rfl
    have hrest := ih (name.drop 13) (by rw [length_drop]; omega)
    rw [length_drop] at hrest
    rw [nameParts_eq_cons hname, flatten_cons, length_append, length_take]
    omega

/-! ## One slot -/

def slotUnit (entry : List UInt8) (i : Nat) : Nat := leValue [entry.getD i 0, entry.getD (i + 1) 0]

def unitsText : List Nat → Str
  | [] => []
  | u :: units =>
    if u = 0xFFFF ∨ u = 0 then []
    else
      match charFromU32 u with
      | some ch => ch :: unitsText units
      | none => unitsText units

theorem lfnRegion_eq (entry : List UInt8) (places : List Nat) :
    lfnRegion entry places = unitsText (places.map (slotUnit entry)) := by
  induction places with
  | nil => rfl
  | cons i places ih =>
    have hlow := (entry.getD i 0).toNat_lt
    have hvalue : slotUnit entry i =
        (entry.getD i 0).toNat + 256 * (entry.getD (i + 1) 0).toNat := rfl
    have hunit : ((entry.getD (i + 1) 0).toNat <<< 8) ||| (entry.getD i 0).toNat =
        slotUnit entry i := by
      rw [← Nat.shiftLeft_add_eq_or_of_lt hlow]
      omega
    have hboth : ∀ b : UInt8, (entry.getD i 0 = b ∧ entry.getD (i + 1) 0 = b) ↔
        slotUnit entry i = b.toNat + 256 * b.toNat := by
      intro b
      have hb := b.toNat_lt
      rw [← UInt8.toNat_inj, ← UInt8.toNat_inj]
      omega
    rw [lfnRegion, map_cons, unitsText, hunit, ih]
    simp only [hboth]
    split
    · rename_i hfill
      rw [if_pos (.inl hfill)]
    rename_i hfill
    split
    · rename_i hzero
      rw [if_pos (.inr hzero)]
    · rename_i hzero
      exact (if_neg (not_or.2 ⟨hfill, hzero⟩)).symm

/-- The characters of a part that are read: five, five and one, each row up to a filler. -/
def legibleText (part : Str) : Str :=
  (part.take 5).takeWhile (· ≠ fillChar) ++ ((part.drop 5).take 5).takeWhile (· ≠ fillChar) ++
    ((part.drop 11).take 1).takeWhile (· ≠ fillChar)

/-- A row of characters, and after them units that end it. -/
theorem unitsText_append (hchars : ∀ ch ∈ chars, 0 < ch.toNat)
    (hunits : ∀ u ∈ units, u = 0xFFFF ∨ u = 0) :
    unitsText (chars.map Char.toNat ++ units) = chars.takeWhile (· ≠ fillChar) := by
  induction chars with
  | nil =>
    cases units with
    | nil => rfl
    | cons u units => exact if_pos (hunits u mem_cons_self)
  | cons ch chars ih =>
    have hpos := hchars ch mem_cons_self
    have hvalid : charFromU32 ch.toNat = some ch :=
      (if_pos ch.valid).trans (congrArg some ch.ofNat_toNat)
    have hfill : ch = fillChar ↔ ch.toNat = 0xFFFF := by
      constructor
      · intro h
        rw [h]
        decide
      · intro h
        rw [fillChar, ← h, Char.ofNat_toNat]
    rw [map_cons, cons_append, unitsText, takeWhile_cons,
      ih (forall_mem_cons.1 hchars).2, hvalid]
    by_cases h : ch = fillChar
    · rw [if_pos (.inl (hfill.1 h)), if_neg (by simp [h])]
    · rw [if_neg (not_or.2 ⟨mt hfill.2 h, hpos.ne.symm⟩), if_pos (by simp [h])]

variable {part : Str}

/-- What one of the loops finds in a part. -/
theorem unitsText_partUnits (hpart : ∀ ch ∈ part, 0 < ch.toNat) (i n : Nat) :
    unitsText (((partUnits part).drop i).take n) =
      ((part.drop i).take n).takeWhile (· ≠ fillChar) := by
  rw [partUnits, drop_append, take_append, ← map_drop, ← map_take]
  refine unitsText_append (fun ch hch => hpart ch (mem_of_mem_drop (mem_of_mem_take hch)))
    fun u hu => ?_
  have hmem := mem_of_mem_take (mem_of_mem_drop (mem_of_mem_take hu))
  rcases mem_cons.1 hmem with rfl | hmem
  · exact .inr rfl
  · exact .inl (eq_of_mem_replicate hmem)

theorem length_partUnits (h : part.length ≤ 13) : (partUnits part).length = 13 := by
  simp [partUnits]
  omega

/-- The units of a slot, at the places that are read. -/
theorem slotUnit_lfnSlot (ordinal checksum : UInt8) (hlen : units.length = 13)
    (hunits : ∀ u ∈ units, u < 0x10000) :
    [1, 3, 5, 7, 9].map (slotUnit (lfnSlot ordinal checksum units)) = (units.drop 0).take 5 ∧
      [14, 16, 18, 20, 22].map (slotUnit (lfnSlot ordinal checksum units)) =
        (units.drop 5).take 5 ∧
      [28].map (slotUnit (lfnSlot ordinal checksum units)) = (units.drop 11).take 1 := by
  have hback : ∀ us : List Nat, us ⊆ units → us.map (fun u => leValue (leBytes 2 u)) = us := by
    intro us hsub
    refine (map_congr_left fun u hu => ?_).trans us.map_id
    rw [leValue_leBytes]
    exact Nat.mod_eq_of_lt (hunits u (hsub hu))
  match units, hlen with
  | [u0, u1, u2, u3, u4, u5, u6, u7, u8, u9, u10, u11, u12], _ =>
    refine ⟨?_, ?_, ?_⟩
    · refine Eq.trans ?_ (hback [u0, u1, u2, u3, u4] (by simp))
      simp [slotUnit, lfnSlot, leBytes]
    · refine Eq.trans ?_ (hback [u5, u6, u7, u8, u9] (by simp))
      simp [slotUnit, lfnSlot, leBytes]
    · refine Eq.trans ?_ (hback [u11] (by simp))
      simp [slotUnit, lfnSlot, leBytes]

/-- **What `parse_lfn_entry` reads from the slot of a part.** -/
theorem parseLfnEntry_lfnSlot (ordinal checksum : UInt8) (hlen : part.length ≤ 13)
    (hpart : ∀ ch ∈ part, 0 < ch.toNat ∧ ch.toNat < 0x10000) :
    parseLfnEntry (lfnSlot ordinal checksum (partUnits part)) =
      if legibleText part = [] then none else some (legibleText part) := by
  have hunits : ∀ u ∈ partUnits part, u < 0x10000 := by
    intro u hu
    rcases mem_append.1 hu with hu | hu
    · obtain ⟨ch, hch, rfl⟩ := mem_map.1 hu
      exact (hpart ch hch).2
    rcases mem_cons.1 (mem_of_mem_take hu) with rfl | hu
    · decide
    · rw [eq_of_mem_replicate hu]
      decide
  obtain ⟨hfirst, hsecond, hthird⟩ :=
    slotUnit_lfnSlot ordinal checksum (length_partUnits hlen) hunits
  have hpos := fun ch hch => (hpart ch hch).1
  have hsize : (lfnSlot ordinal checksum (partUnits part)).length = DIR_ENTRY_SIZE := by
    simp [lfnSlot, length_partUnits hlen, DIR_ENTRY_SIZE]
  rw [parseLfnEntry, if_neg (not_not.2 hsize), lfnRegion_eq, lfnRegion_eq, lfnRegion_eq, hfirst,
    hsecond, hthird, unitsText_partUnits hpos, unitsText_partUnits hpos, unitsText_partUnits hpos,
    drop_zero, ← legibleText]

theorem length_takeWhile_ne_lt {ch : Char} (h : ch ∈ chars) :
    (chars.takeWhile (· ≠ ch)).length < chars.length := by
  have hsub := takeWhile_sublist (l := chars) (· ≠ ch)
  refine lt_of_le_of_ne hsub.length_le fun hlen => ?_
  have hall := takeWhile_eq_self_iff.1 (hsub.eq_of_length hlen)
  simpa using hall ch h

/-- A part of at most ten characters is read. -/
theorem legibleText_eq_self (hlen : part.length ≤ 10) (hfill : fillChar ∉ part) :
    legibleText part = part := by
  have hrow : ∀ i n, ((part.drop i).take n).takeWhile (· ≠ fillChar) = (part.drop i).take n := by
    intro i n
    refine takeWhile_eq_self_iff.2 fun ch hch => decide_eq_true ?_
    rintro rfl
    exact hfill (mem_of_mem_drop (mem_of_mem_take hch))
  have hsecond : (part.drop 5).take 5 = part.drop 5 :=
    take_of_length_le (by rw [length_drop]; omega)
  have hfirst := hrow 0 5
  rw [drop_zero] at hfirst
  have hthird : part.drop 11 = [] := drop_eq_nil_of_le (by omega)
  rw [legibleText, hfirst, hrow, hrow, hthird, take_nil, append_nil, hsecond,
    take_append_drop]

theorem length_rows_le (part : Str) :
    ((part.take 5).takeWhile (· ≠ fillChar)).length ≤ min 5 part.length ∧
      (((part.drop 5).take 5).takeWhile (· ≠ fillChar)).length ≤ min 5 (part.length - 5) ∧
      (((part.drop 11).take 1).takeWhile (· ≠ fillChar)).length ≤ min 1 (part.length - 11) := by
  rw [← length_take, ← length_drop, ← length_drop, ← length_take,
    ← length_take]
  exact ⟨(takeWhile_sublist _).length_le, (takeWhile_sublist _).length_le,
    (takeWhile_sublist _).length_le⟩

theorem length_legibleText_le (part : Str) : (legibleText part).length ≤ part.length := by
  obtain ⟨hfirst, hsecond, hthird⟩ := length_rows_le part
  rw [legibleText, length_append, length_append]
  omega

/-- And of no other part is the text complete. -/
theorem legible_of_length_le (h : part.length ≤ (legibleText part).length) :
    part.length ≤ 10 ∧ fillChar ∉ part := by
  obtain ⟨hfirst, hsecond, hthird⟩ := length_rows_le part
  rw [legibleText, length_append, length_append] at h
  have hlen : part.length ≤ 10 := by omega
  refine ⟨hlen, fun hfill => ?_⟩
  rw [← take_append_drop 5 part, mem_append] at hfill
  rcases hfill with hfill | hfill
  · have hlt := length_takeWhile_ne_lt hfill
    rw [length_take] at hlt
    omega
  have hall : (part.drop 5).take 5 = part.drop 5 :=
    take_of_length_le (by rw [length_drop]; omega)
  have hlt := length_takeWhile_ne_lt hfill
  rw [hall] at h
  rw [length_drop] at hlt
  omega

theorem legibleText_ne_nil (h : part ≠ []) (hfill : fillChar ∉ part) : legibleText part ≠ [] := by
  rcases part with _ | ⟨ch, part⟩
  · exact absurd rfl h
  have hne : ch ≠ fillChar := fun hch => hfill (hch ▸ mem_cons_self)
  rw [legibleText, take_succ_cons, takeWhile_cons, if_pos (decide_eq_true hne)]
  simp

/-! ## A directory as one row of slots -/

/-- What is left of a scan if only names count: the text of the parts that have been read since the
last entry, and the names. -/
structure NameScan where
  pending : Str
  names : List Str

namespace NameScan

/-- What a slot adds. -/
def slot (scan : NameScan) (entry : List UInt8) : NameScan :=
  let attrs := entry.getD 11 0
  if entry.getD 0 0 = 0xE5 then { scan with pending := [] }
  else if attrs = ATTR_LFN then
    { scan with pending := (parseLfnEntry entry).getD [] ++ scan.pending }
  else if attrs &&& ATTR_VOLUME_ID ≠ 0 then { scan with pending := [] }
  else
    match decodeShortName (entry.take 11) with
    | none => scan
    | some shortName =>
      ⟨[], scan.names ++ [if scan.pending ≠ [] then scan.pending else shortName]⟩

/-- At the first slot of a cluster the parts are forgotten. -/
def arrive (per i : Nat) (scan : NameScan) : NameScan :=
  if i % per = 0 then { scan with pending := [] } else scan

/-- The slots from a place of the directory on. -/
def slots (per : Nat) : Nat → List (List UInt8) → NameScan → NameScan
  | _, [], scan => scan
  | i, entry :: entries, scan =>
    if entry.getD 0 0 = 0x00 then scan
    else slots per (i + 1) entries ((scan.arrive per i).slot entry)

end NameScan

open NameScan

def Scan.names (scan : Scan) : NameScan := ⟨scan.parts.flatten, scan.entries.map (·.name)⟩

/-- A slot that is read adds to the names what it adds to the scan. -/
theorem Scan.names_slot {scan : Scan} (hparts : [] ∉ scan.parts) (offset : Nat)
    (entry : List UInt8) :
    (scan.slot offset entry).names = scan.names.slot entry ∧
      [] ∉ (scan.slot offset entry).parts := by
  have hnil : scan.parts ≠ [] ↔ scan.parts.flatten ≠ [] := by
    rcases hcons : scan.parts with _ | ⟨part, parts⟩
    · simp
    have hpart : part ≠ [] := fun hnil => hparts (by rw [hcons, hnil]; exact mem_cons_self)
    simp [hpart]
  rw [Scan.slot, NameScan.slot]
  split
  · exact ⟨rfl, not_mem_nil⟩
  split
  · rcases hparse : parseLfnEntry entry with _ | part
    · exact ⟨rfl, hparts⟩
    refine ⟨rfl, fun h => ?_⟩
    rcases mem_cons.1 h with rfl | h
    · rw [parseLfnEntry] at hparse
      split at hparse
      · cases hparse
      dsimp only at hparse
      split at hparse
      · cases hparse
      · rename_i hne
        exact hne (Option.some.inj hparse)
    · exact hparts h
  · split
    · exact ⟨rfl, not_mem_nil⟩
    · rcases decodeShortName (entry.take 11) with _ | shortName
      · exact ⟨rfl, hparts⟩
      have hname : (if scan.parts ≠ [] then scan.parts.flatten else shortName) =
          if scan.names.pending ≠ [] then scan.names.pending else shortName :=
        if_congr hnil rfl rfl
      refine ⟨?_, not_mem_nil⟩
      dsimp only
      rw [← hname, Scan.names, map_append]
      rfl

theorem succ_mod {i per : Nat} (h : 0 < per) :
    (i + 1) % per = if i % per + 1 = per then 0 else i % per + 1 := by
  rw [← Nat.mod_add_mod]
  split
  · rename_i heq
    rw [heq, Nat.mod_self]
  · rename_i hne
    exact Nat.mod_eq_of_lt (lt_of_le_of_ne (Nat.mod_lt i h) hne)

theorem names_scanList {per : Nat} (hper : 0 < per) (rest : List (List UInt8)) :
    ∀ (entries : List Slot) (i : Nat) (scan : Scan), [] ∉ scan.parts →
      (entries ≠ [] → i % per ≠ 0 ∨ scan.parts = []) → i % per + entries.length ≤ per →
      scan.names.slots per i (entries.map (·.2) ++ rest) =
        if (scanList entries scan).1 then (scanList entries scan).2.names
        else (scanList entries scan).2.names.slots per (i + entries.length) rest := by
  intro entries
  induction entries with
  | nil => intro i scan _ _ _; rfl
  | cons entry entries ih =>
    intro i scan hparts hstart hlen
    have hsucc := succ_mod (i := i) hper
    rw [length_cons] at hlen
    have harrive : scan.names.arrive per i = scan.names := by
      rw [arrive]
      split_ifs with hzero
      · rcases hstart (cons_ne_nil _ _) with h | h
        · exact absurd hzero h
        · rw [Scan.names, h]
          rfl
      · rfl
    obtain ⟨hnames, hparts'⟩ := Scan.names_slot hparts entry.1 entry.2
    rw [map_cons, cons_append, slots, scanList, harrive, ← hnames]
    split
    · rfl
    rw [ih (i + 1) _ hparts', length_cons, add_assoc i 1, add_comm 1]
    · intro hne
      have hpos := length_pos_iff.2 hne
      split at hsucc
      · omega
      · exact .inl (by omega)
    · split at hsucc <;> omega

theorem NameScan.exists_arrive (i : Nat) (p : Str) :
    ∃ q : Str, q.length ≤ p.length ∧ ∀ names, arrive per i ⟨p, names⟩ = ⟨q, names⟩ := by
  by_cases hzero : i % per = 0
  · exact ⟨[], Nat.zero_le _, fun names => if_pos hzero⟩
  · exact ⟨p, le_rfl, fun names => if_neg hzero⟩

/-- What has been read before a cluster does not count in it. -/
theorem NameScan.names_slots_of_boundary {per i : Nat} (hi : i % per = 0)
    (entries : List (List UInt8)) (p q : Str) (names : List Str) :
    (slots per i entries ⟨p, names⟩).names = (slots per i entries ⟨q, names⟩).names := by
  cases entries with
  | nil => rfl
  | cons entry entries =>
    rw [slots, slots, arrive, arrive]
    split <;> rfl

/-- **The names of a directory**, with the same number of slots in each region. -/
theorem names_listRegions {per : Nat} (hper : 0 < per) :
    ∀ (regions : List (List Slot)) (i : Nat) (entries : List ParsedDirEntry),
      i % per = 0 → (∀ r ∈ regions, r.length = per) →
      (listRegions regions entries).map (·.name) =
        (slots per i (regions.flatten.map (·.2)) ⟨[], entries.map (·.name)⟩).names := by
  intro regions
  induction regions with
  | nil => intro i entries _ _; rfl
  | cons region regions ih =>
    intro i entries hi hlen
    have hregion := hlen region mem_cons_self
    have hnext : (i + region.length) % per = 0 := by rw [hregion, Nat.add_mod_right, hi]
    have hscan := names_scanList hper (regions.flatten.map (·.2)) region i ⟨[], entries⟩
      not_mem_nil (fun _ => .inr rfl) (by omega)
    rw [flatten_cons, map_append, listRegions]
    refine Eq.trans ?_ (congrArg names hscan.symm)
    dsimp only
    split
    · rfl
    · rw [ih _ _ hnext (forall_mem_cons.1 hlen).2]
      exact names_slots_of_boundary hnext _ _ _ _

/-! ## One entry -/

theorem lfnOrdinal_used {count k : Nat} (hk : k < count) (hcount : count ≤ 20) :
    lfnOrdinal count k ≠ 0 ∧ lfnOrdinal count k ≠ 0xE5 := by
  have hbyte : ∀ n < 2 ^ 7, 0 < n → UInt8.ofNat n ≠ 0 ∧ UInt8.ofNat n ≠ 0xE5 := by decide
  rw [lfnOrdinal]
  split
  · exact hbyte _ (Nat.or_lt_two_pow (by omega) (by decide))
      (Nat.lt_of_lt_of_le (Nat.succ_pos k) Nat.left_le_or)
  · exact hbyte _ (by omega) (Nat.succ_pos k)

theorem lfnSlot_attributes (ordinal checksum : UInt8) (hlen : units.length = 13) :
    (lfnSlot ordinal checksum units).getD 11 0 = ATTR_LFN := by
  match units, hlen with
  | [_, _, _, _, _, _, _, _, _, _, _, _, _], _ => rfl

theorem mem_zipIdx_nameParts {part : Str × Nat} (h : part ∈ (nameParts name).zipIdx) :
    part.2 < (nameParts name).length ∧ part.1.length ≤ 13 ∧ ∀ ch ∈ part.1, ch ∈ name := by
  obtain ⟨k, hk⟩ := part
  have hmem := mem_zipIdx h
  obtain ⟨j, -, hj⟩ := mem_map.1 (fst_mem_of_mem_zipIdx h)
  subst hj
  refine ⟨by omega, ?_, fun ch hch => mem_of_mem_drop (mem_of_mem_take hch)⟩
  rw [length_take]
  exact min_le_left _ _

namespace LongEntry

variable (e : LongEntry)

theorem length_nameParts_le : (nameParts e.name).length ≤ 20 := by
  have hlen := e.name_le
  rw [nameParts, length_map, length_range]
  omega

theorem slot_part {part : Str × Nat} (hpart : part ∈ (nameParts e.name).zipIdx) (scan : NameScan) :
    (e.slot part).getD 0 0 ≠ 0 ∧
      scan.slot (e.slot part) = { scan with pending := legibleText part.1 ++ scan.pending } := by
  obtain ⟨hk, hlen, hchars⟩ := mem_zipIdx_nameParts hpart
  obtain ⟨hzero, hfree⟩ := lfnOrdinal_used hk e.length_nameParts_le
  have hparse := parseLfnEntry_lfnSlot (lfnOrdinal (nameParts e.name).length part.2) e.checksum hlen
    fun ch hch => e.name_bmp ch (hchars ch hch)
  refine ⟨hzero, ?_⟩
  have hattr := lfnSlot_attributes (lfnOrdinal (nameParts e.name).length part.2) e.checksum
    (length_partUnits hlen)
  rw [← slot] at hparse hattr
  rw [NameScan.slot, if_neg (show (e.slot part).getD 0 0 ≠ 0xE5 from hfree), if_pos hattr, hparse]
  split_ifs with hnil
  · rw [hnil]
    rfl
  · rfl

/-- What the slots of some parts add: no more text than there is in the parts. -/
theorem slots_parts (names : List Str) (rest : List (List UInt8)) :
    ∀ (parts : List (Str × Nat)) (i : Nat) (p : Str), parts ⊆ (nameParts e.name).zipIdx →
      ∃ t : Str, t.length ≤ p.length + (parts.map (·.1.length)).sum ∧
        NameScan.slots per i (parts.map e.slot ++ rest) ⟨p, names⟩ =
          NameScan.slots per (i + parts.length) rest ⟨t, names⟩ := by
  intro parts
  induction parts with
  | nil => intro i p _; exact ⟨p, le_rfl, rfl⟩
  | cons part parts ih =>
    intro i p hsub
    obtain ⟨q, hq, harrive⟩ := exists_arrive per i p
    obtain ⟨hused, hslot⟩ := e.slot_part (hsub mem_cons_self) ⟨q, names⟩
    obtain ⟨t, ht, hrun⟩ := ih (i + 1) (legibleText part.1 ++ q)
      fun x hx => hsub (mem_cons_of_mem _ hx)
    have hlegible := length_legibleText_le part.1
    refine ⟨t, ?_, ?_⟩
    · rw [length_append] at ht
      rw [map_cons, sum_cons]
      omega
    · rw [map_cons, cons_append, NameScan.slots, if_neg hused, harrive, hslot, hrun,
        length_cons, add_assoc i 1, add_comm 1]

theorem slot_short (scan : NameScan) :
    scan.slot e.short =
      match e.shortName with
      | none => scan
      | some shortName =>
        ⟨[], scan.names ++ [if scan.pending ≠ [] then scan.pending else shortName]⟩ := by
  have hlfn : e.short.getD 11 0 ≠ ATTR_LFN := by
    intro h
    have hattr := e.short_attributes
    rw [h] at hattr
    exact absurd hattr (by decide)
  rw [NameScan.slot, if_neg e.short_used.2, if_neg hlfn, if_neg (not_not.2 e.short_attributes)]
  rfl

theorem zipIdx_nameParts : (nameParts e.name).zipIdx =
    (e.name.take 13, 0) :: (nameParts (e.name.drop 13)).zipIdx 1 := by
  rw [nameParts_eq_cons e.name_ne, zipIdx_cons]

theorem length_slots : e.slots.length = (nameParts e.name).length + 1 := by
  rw [slots, length_append, length_map, length_reverse, length_zipIdx,
    length_singleton]

/-- **What the slots of an entry add**: in front of the last slot stands the text of the first part,
unless a cluster begins there. -/
theorem slots_entry (i : Nat) (p : Str) (names : List Str) (rest : List (List UInt8)) :
    ∃ q : Str, NameScan.slots per i (e.slots ++ rest) ⟨p, names⟩ =
        NameScan.slots per (i + e.slots.length) rest (NameScan.slot ⟨q, names⟩ e.short) ∧
      ((i + (nameParts e.name).length) % per = 0 → q = []) ∧
      ((i + (nameParts e.name).length) % per ≠ 0 → ∃ t : Str,
        q = legibleText (e.name.take 13) ++ t ∧ t.length ≤ p.length + (e.name.drop 13).length) := by
  have hsum : ((((nameParts (e.name.drop 13)).zipIdx 1).reverse).map (·.1.length)).sum ≤
      (e.name.drop 13).length := by
    refine le_trans (le_of_eq ?_) (length_flatten_nameParts _ (e.name.drop 13) le_rfl)
    rw [map_reverse, sum_reverse, length_flatten]
    conv_rhs => rw [← zipIdx_map_fst 1 (nameParts (e.name.drop 13)), map_map]
    rfl
  -- All parts but the first.
  obtain ⟨t, ht, hrun⟩ := e.slots_parts per names (e.slot (e.name.take 13, 0) :: e.short :: rest)
    ((nameParts (e.name.drop 13)).zipIdx 1).reverse i p fun x hx => by
      rw [zipIdx_nameParts]
      exact mem_cons_of_mem _ (mem_reverse.1 hx)
  have hslots : e.slots ++ rest = ((nameParts (e.name.drop 13)).zipIdx 1).reverse.map e.slot ++
      e.slot (e.name.take 13, 0) :: e.short :: rest := by
    rw [slots, zipIdx_nameParts, reverse_cons, map_append, append_assoc,
      append_assoc]
    rfl
  have hcount : i + (nameParts e.name).length =
      i + ((nameParts (e.name.drop 13)).zipIdx 1).reverse.length + 1 := by
    rw [nameParts_eq_cons e.name_ne, length_cons, length_reverse, length_zipIdx,
      add_assoc]
  rw [hslots, hrun, length_slots, ← add_assoc, hcount]
  generalize i + ((nameParts (e.name.drop 13)).zipIdx 1).reverse.length = j
  -- The first part, and then the entry.
  obtain ⟨t', ht', harrive⟩ := exists_arrive per j t
  obtain ⟨hused, hslot⟩ := e.slot_part
    (by rw [zipIdx_nameParts]; exact mem_cons_self) ⟨t', names⟩
  rw [NameScan.slots, if_neg hused, harrive, hslot, NameScan.slots, if_neg e.short_used.1]
  by_cases hzero : (j + 1) % per = 0
  · refine ⟨[], ?_, fun _ => rfl, fun h => absurd hzero h⟩
    rw [arrive, if_pos hzero]
  refine ⟨legibleText (e.name.take 13) ++ t', ?_, fun h => absurd h hzero,
    fun _ => ⟨t', rfl, by omega⟩⟩
  rw [arrive, if_neg hzero]

/-- Whether the name of an entry is read, if its first slot is at this place of a directory with so
many slots in each cluster. -/
def Legible (per i : Nat) : Prop :=
  ∃ shortName, e.shortName = some shortName ∧
    if (i + (nameParts e.name).length) % per = 0 then shortName = e.name
    else e.name.length ≤ 10 ∧ fillChar ∉ e.name

instance (per i : Nat) : Decidable (e.Legible per i) :=
  inferInstanceAs (Decidable (∃ shortName ∈ e.shortName,
    if (i + (nameParts e.name).length) % per = 0 then shortName = e.name
    else e.name.length ≤ 10 ∧ fillChar ∉ e.name))

end LongEntry

/-- Whether the names of a row of entries are read. -/
def AllLegible (per : Nat) : Nat → List LongEntry → Prop
  | _, [] => True
  | i, e :: es => e.Legible per i ∧ AllLegible per (i + e.slots.length) es

instance decidableAllLegible (per : Nat) : ∀ i es, Decidable (AllLegible per i es)
  | _, [] => .isTrue trivial
  | i, e :: es =>
    have := decidableAllLegible per (i + e.slots.length) es
    inferInstanceAs (Decidable (_ ∧ _))

theorem fillChar_notMem_decodeComponent (h : decodeComponent raw = some chars) :
    fillChar ∉ chars := by
  rw [decodeComponent] at h
  split at h
  · rename_i hascii
    cases h
    intro hmem
    obtain ⟨b, hb, hchar⟩ := mem_map.1 hmem
    have hascii : b < 0x80 := by simpa using all_eq_true.1 hascii b hb
    have hlt : b.toNat < 0x80 := UInt8.lt_iff_toNat_lt.1 hascii
    have hnat : (Char.ofNat b.toNat).toNat = b.toNat := by
      rw [Char.ofNat, dif_pos (.inl (by omega))]
      rfl
    rw [hchar] at hnat
    exact absurd (hnat.trans_lt hlt) (by decide)
  · cases h

/-- A short name is ASCII. -/
theorem fillChar_notMem_decodeShortName (h : decodeShortName raw = some shortName) :
    fillChar ∉ shortName := by
  rw [decodeShortName] at h
  split at h
  · cases h
  obtain ⟨name, hname, h⟩ := Option.bind_eq_some_iff.1 h
  obtain ⟨extension, hextension, h⟩ := Option.bind_eq_some_iff.1 h
  have hname := fillChar_notMem_decodeComponent hname
  have hextension := fillChar_notMem_decodeComponent hextension
  split at h
  · cases h
  split at h
  · exact Option.some.inj h ▸ hname
  rw [← Option.some.inj h, mem_append, mem_cons]
  rintro (hmem | hmem | hmem)
  · exact hname hmem
  · exact absurd hmem (by decide)
  · exact hextension hmem

namespace LongEntry

variable (e : LongEntry)

/-- **Whether the name that is found is the long name.** -/
theorem found_iff {per i : Nat} {q : Str} (hshort : e.shortName = some shortName)
    (hstart : (i + (nameParts e.name).length) % per = 0 → q = [])
    (hin : (i + (nameParts e.name).length) % per ≠ 0 → ∃ t : Str,
      q = legibleText (e.name.take 13) ++ t ∧ t.length ≤ (e.name.drop 13).length) :
    (if q ≠ [] then q else shortName) = e.name ↔ e.Legible per i := by
  rw [Legible, hshort]
  simp only [Option.some.injEq, exists_eq_left']
  by_cases hzero : (i + (nameParts e.name).length) % per = 0
  · rw [if_pos hzero, hstart hzero]
    rfl
  obtain ⟨t, rfl, ht⟩ := hin hzero
  rw [if_neg hzero]
  have hne : e.name.take 13 ≠ [] := by
    have := length_pos_iff.2 e.name_ne
    rw [ne_eq, ← length_eq_zero_iff, length_take]
    omega
  constructor
  · intro hname
    -- If no part was read, then the name is the short one, and so has no filler in it.
    have hq : legibleText (e.name.take 13) ++ t = e.name := by
      split_ifs at hname with hnil
      · exact hname
      refine absurd (append_eq_nil_iff.1 (not_not.1 hnil)).1 (legibleText_ne_nil hne ?_)
      exact fun h => fillChar_notMem_decodeShortName hshort (hname ▸ mem_of_mem_take h)
    have hlen := congrArg length hq
    rw [length_append] at hlen
    rw [length_drop] at ht
    have hle : (e.name.take 13).length ≤ (legibleText (e.name.take 13)).length := by
      clear hzero hin hstart
      rw [length_take]
      omega
    have hlegible := legible_of_length_le hle
    have hall : e.name.take 13 = e.name := by
      have := hlegible.1
      rw [length_take] at this
      exact take_of_length_le (by omega)
    rwa [hall] at hlegible
  · intro hlegible
    have hall : e.name.take 13 = e.name := take_of_length_le (by omega)
    have hnil : t = [] := by
      rw [drop_eq_nil_of_le (by omega)] at ht
      exact length_eq_zero_iff.1 (Nat.le_zero.1 ht)
    rw [hall, legibleText_eq_self hlegible.1 hlegible.2, hnil, append_nil,
      if_pos e.name_ne]

end LongEntry

/-! ## The directory -/

/-- Names are added behind those that have been found. -/
theorem NameScan.prefix_slots (entries : List (List UInt8)) (i : Nat) (p : Str) (names : List Str) :
    names <+: (slots per i entries ⟨p, names⟩).names := by
  have hslot : ∀ (scan : NameScan) (entry : List UInt8),
      scan.names <+: (scan.slot entry).names := by
    intro scan entry
    rw [slot]
    split
    · exact prefix_rfl
    split
    · exact prefix_rfl
    split
    · exact prefix_rfl
    cases decodeShortName (entry.take 11) with
    | none => exact prefix_rfl
    | some shortName => exact prefix_append _ _
  induction entries generalizing i p names with
  | nil => exact prefix_rfl
  | cons entry entries ih =>
    obtain ⟨q, -, harrive⟩ := exists_arrive per i p
    rw [slots, harrive]
    split
    · exact prefix_rfl
    · exact (hslot ⟨q, names⟩ entry).trans (ih _ _ _)

variable {rest : List (List UInt8)}

/-- An entry adds one name or none. -/
theorem length_names_slots_le (hrest : ∀ entry ∈ rest.head?, entry.getD 0 0 = 0)
    (es : List LongEntry) (i : Nat) (p : Str) (names : List Str) :
    (slots per i (es.flatMap LongEntry.slots ++ rest) ⟨p, names⟩).names.length ≤
      names.length + es.length := by
  induction es generalizing i p names with
  | nil =>
    cases rest with
    | nil => exact le_rfl
    | cons entry rest =>
      rw [flatMap_nil, nil_append, slots, if_pos (hrest entry rfl)]
      exact le_rfl
  | cons e es ih =>
    obtain ⟨q, hrun, -⟩ := e.slots_entry per i p names (es.flatMap LongEntry.slots ++ rest)
    rw [flatMap_cons, append_assoc, hrun, e.slot_short]
    rcases e.shortName with _ | shortName
    · exact (ih _ _ _).trans (Nat.le_succ _)
    · refine (ih _ _ _).trans (le_of_eq ?_)
      rw [length_append, length_singleton, length_cons, add_assoc, add_comm 1]

/-- **The names of a row of entries.** -/
theorem names_slots_iff (hrest : ∀ entry ∈ rest.head?, entry.getD 0 0 = 0)
    (es : List LongEntry) (i : Nat) (names : List Str) :
    (slots per i (es.flatMap LongEntry.slots ++ rest) ⟨[], names⟩).names =
      names ++ es.map (·.name) ↔ AllLegible per i es := by
  induction es generalizing i names with
  | nil =>
    have hlen := length_names_slots_le per hrest [] i [] names
    refine iff_of_true ?_ trivial
    rw [map_nil, append_nil]
    exact (( prefix_slots ..).eq_of_length_le hlen).symm
  | cons e es ih =>
    obtain ⟨q, hrun, hstart, hin⟩ :=
      e.slots_entry per i [] names (es.flatMap LongEntry.slots ++ rest)
    rw [flatMap_cons, append_assoc, hrun, e.slot_short, AllLegible, map_cons]
    cases hshort : e.shortName with
    | none =>
      -- The entry is skipped, so there are too few names.
      refine iff_of_false (fun hnames => ?_) fun hlegible => ?_
      · have hlen := length_names_slots_le per hrest es (i + e.slots.length) q names
        dsimp only at hnames
        rw [hnames, length_append, length_cons, length_map] at hlen
        omega
      · obtain ⟨⟨shortName, hsome, -⟩, -⟩ := hlegible
        rw [hshort] at hsome
        cases hsome
    | some shortName =>
      have hfound : (if q ≠ [] then q else shortName) = e.name ↔ e.Legible per i :=
        e.found_iff hshort hstart fun h => by simpa using hin h
      rw [← hfound, ← ih (i + e.slots.length) (names ++ [e.name]), append_assoc]
      dsimp only
      generalize (if q ≠ [] then q else shortName) = found
      refine ⟨fun hnames => ?_, fun ⟨heq, hnames⟩ => heq ▸ hnames⟩
      have hfirst := prefix_slots per (es.flatMap LongEntry.slots ++ rest)
        (i + e.slots.length) [] (names ++ [found])
      rw [hnames, prefix_append_right_inj, cons_prefix_cons] at hfirst
      exact ⟨hfirst.1, hfirst.1 ▸ hnames⟩

theorem Volume.length_of_mem_slots {v : Volume} {data : Nat → UInt8} {chain : List Nat} :
    ∀ r ∈ v.slots data .clusterChain chain, r.length = v.clusterSize / DIR_ENTRY_SIZE := by
  intro r hr
  obtain ⟨region, hregion, rfl⟩ := mem_map.1 hr
  obtain ⟨c, -, rfl⟩ := mem_map.1 hregion
  rw [regionSlots, length_map, length_range]

theorem Volume.slots_per_cluster_pos (v : Volume) : 0 < v.clusterSize / DIR_ENTRY_SIZE := by
  have hsector := v.regular.large
  have hcluster : v.sectorSize * 1 ≤ v.clusterSize :=
    Nat.mul_le_mul_left _ v.regular.sectorsPerCluster
  exact Nat.div_pos (by rw [DIR_ENTRY_SIZE]; omega) (by decide)

/-- **Which long names are read.**  A directory whose slots are those of these entries is read
without an error; and the names are the long names of the entries just if each of them has at most
ten characters, none of them U+FFFF, and stands in the same cluster as its entry, or is the short
name if it does not, and no short name is skipped. -/
theorem Volume.long_names_read_iff (v : Volume) {s : FatState} (hs : s.Reliable)
    {state : FatInodeState} (hstorage : state.storage = .clusterChain) {chain : List Nat}
    (hchain : v.ChainFrom s.data state.firstCluster chain) {es : List LongEntry}
    {rest : List (List UInt8)} (hslots : (v.slots s.data .clusterChain chain).flatten.map (·.2) =
      es.flatMap LongEntry.slots ++ rest) (hrest : ∀ entry ∈ rest.head?, entry.getD 0 0 = 0) :
    ∃ entries, run (v.readDirectoryEntries state) s = (some (.ok entries), s) ∧
      (entries.map (·.name) = es.map (·.name) ↔
        AllLegible (v.clusterSize / DIR_ENTRY_SIZE) 0 es) := by
  have hdir : v.DirChain s.data state chain := by
    rw [DirChain, hstorage]
    exact hchain
  refine ⟨_, v.run_readDirectoryEntries hs hdir, ?_⟩
  rw [hstorage, listing, names_listRegions v.slots_per_cluster_pos _ 0 [] (Nat.zero_mod _)
    length_of_mem_slots, hslots]
  exact names_slots_iff _ hrest es 0 []

/-! ## Two names -/

def shortSlot (shortName : List UInt8) : List UInt8 := rawDirEntry shortName ATTR_ARCHIVE 0 0

theorem length_shortSlot {shortName : List UInt8} (h : shortName.length = 11) :
    (shortSlot shortName).length = DIR_ENTRY_SIZE := length_rawDirEntry h _ _ _

/-- A directory in the first cluster, with these entries. -/
def smallDirectory (es : List LongEntry) : FatState :=
  smallState [0, 0, 0, 0xFF, 0x0F] [] (es.flatMap LongEntry.slots).flatten

def firstDirectory : FatInodeState := ⟨2, 0, none, .clusterChain, none⟩

theorem bmp_of_all (h : (name.all fun ch => decide (0 < ch.toNat ∧ ch.toNat < 0x10000)) = true) :
    ∀ ch ∈ name, 0 < ch.toNat ∧ ch.toNat < 0x10000 :=
  fun ch hch => of_decide_eq_true (all_eq_true.1 h ch hch)

/-- The entries of `tiny1`, `tiny2` and `tiny3`. -/
def tinyEntries : List LongEntry :=
  (finRange 3).map fun n =>
    { name := "tiny".toList ++ [Char.ofNat (49 + n.val)]
      checksum := 0
      short := shortSlot
        ([0x54, 0x49, 0x4E, 0x59, UInt8.ofNat (49 + n.val)] ++ List.replicate 6 0x20)
      name_ne := by simp
      name_le := by simp
      name_bmp := bmp_of_all (by revert n; decide)
      short_length := length_shortSlot (by simp)
      short_used := by revert n; decide
      short_attributes := by revert n; decide }

def longerEntry : LongEntry where
  name := "hello-world".toList
  checksum := 0
  short := shortSlot [0x48, 0x45, 0x4C, 0x4C, 0x4F, 0x2D, 0x7E, 0x31, 0x20, 0x20, 0x20]
  name_ne := by decide
  name_le := by decide
  name_bmp := bmp_of_all (by decide)
  short_length := length_shortSlot (by simp)
  short_used := by decide
  short_attributes := by decide

theorem firstDirectory_chain (es : List LongEntry)
    (h : smallVolume.entry (smallDirectory es).data 2 = 0x0FFF) :
    smallVolume.ChainFrom (smallDirectory es).data 2 [2] := by
  refine .inl ⟨⟨le_rfl, by decide⟩, .last ?_⟩
  rw [Volume.link, h]
  decide

/-- Names of five characters are read. -/
theorem long_names_read_tiny :
    ∃ entries, run (smallVolume.readDirectoryEntries firstDirectory) (smallDirectory tinyEntries) =
        (some (.ok entries), smallDirectory tinyEntries) ∧
      entries.map (·.name) = ["tiny1".toList, "tiny2".toList, "tiny3".toList] := by
  have hslots : (smallVolume.slots (smallDirectory tinyEntries).data .clusterChain [2]).flatten.map
      (·.2) = tinyEntries.flatMap LongEntry.slots ++ replicate 10 (replicate 32 0) := by
    decide +kernel
  have hreliable : (smallDirectory tinyEntries).Reliable := rfl
  have hstorage : firstDirectory.storage = .clusterChain := rfl
  obtain ⟨entries, hrun, hnames⟩ := smallVolume.long_names_read_iff hreliable hstorage
    (firstDirectory_chain _ (by decide +kernel)) hslots (by decide)
  exact ⟨entries, hrun, hnames.2 (by decide +kernel)⟩

/-- **Of a name of eleven characters one is lost.** -/
theorem long_name_not_read :
    (smallVolume.slots (smallDirectory [longerEntry]).data .clusterChain [2]).flatten.map (·.2) =
        longerEntry.slots ++ List.replicate 14 (List.replicate 32 0) ∧
      ∃ entries, run (smallVolume.readDirectoryEntries firstDirectory)
            (smallDirectory [longerEntry]) =
          (some (.ok entries), smallDirectory [longerEntry]) ∧
        entries.map (·.name) = ["hello-worl".toList] ∧
        entries.map (·.name) ≠ [longerEntry.name] := by
  have hdir : smallVolume.DirChain (smallDirectory [longerEntry]).data firstDirectory [2] :=
    firstDirectory_chain _ (by decide +kernel)
  have hreliable : (smallDirectory [longerEntry]).Reliable := rfl
  have hnames :
      (smallVolume.listing (smallDirectory [longerEntry]).data firstDirectory.storage [2]).map
      (·.name) = ["hello-worl".toList] := by
    decide +kernel
  refine ⟨by decide +kernel, _, smallVolume.run_readDirectoryEntries hreliable hdir, hnames, ?_⟩
  decide

end Krust.Fat
