import Krust.Initrd.Contents

/-!
# From the build tool to the kernel

The build tool packs files into an archive, the kernel unpacks them.  `Packed` is the archive
without the numbers of its entries, which the kernel does not read.  `newLoop_packed` follows the
kernel through it: before every entry there is room for all the files that are still to come, since
no name lies above another one, and the files that have been inserted stay where they are.

The way there and back works, unless a name is too long for the header or there are too many entries
to be numbered (`initrd_round_trip_iff`).
-/

set_option autoImplicit false

namespace Krust.Initrd

open Lib BuilderNode List Option InitrdFs

/-! ## What is packed -/

/-- A nonempty relative path without null characters, and without empty or dot segments. -/
structure IsEntryName (name : Str) : Prop where
  nul : '\x00' ∉ name
  segments : ∀ s ∈ name.splitOn '/', s ≠ [] ∧ s ≠ ['.']

/-- Files that can stand in one directory tree. -/
structure Proper (entries : List (Str × List UInt8)) : Prop where
  name : ∀ e ∈ entries, IsEntryName e.1
  trailer : ∀ e ∈ entries, e.1 ≠ TRAILER
  distinct : (entries.map Prod.fst).Nodup
  /-- No name is a path above another one. -/
  above : ∀ e ∈ entries, ∀ e' ∈ entries, e.1 ≠ e'.1 → ¬e.1.splitOn '/' <+: e'.1.splitOn '/'
  data : ∀ e ∈ entries, e.2.length < 2 ^ 32

def archiveLen (entries : List (Str × List UInt8)) : Nat :=
  (entries.map fun e =>
    (CPIO_HEADER_LEN + (utf8Len e.1 + 1) + 3) / 4 * 4 + (e.2.length + 3) / 4 * 4).sum + 124

/-- What is packed can be unpacked, and every file is found with its contents. -/
def RoundTrip (checks : Bool) (entries : List (Str × List UInt8)) : Prop :=
  ∃ archive fs, makeCpioNewc checks entries = some archive ∧ new archive = some (.ok fs) ∧
    ∀ e ∈ entries, ∃ inode, fs.root.lookupPath (e.1.splitOn '/') = .ok inode ∧ inode.IsFile e.2

/-! ## The archive -/

/-- The entries one after the other, with some numbers, and the trailer. -/
inductive Packed : List (Str × List UInt8) → List UInt8 → Prop
  | nil (ino : Nat) : Packed [] (cpioEntry ino TRAILER [])
  | cons (ino : Nat) (name : Str) (data : List UInt8) {entries : List (Str × List UInt8)}
      {rest : List UInt8} (h : Packed entries rest) :
      Packed ((name, data) :: entries) (cpioEntry ino name data ++ rest)

variable {entries : List (Str × List UInt8)} {checks : Bool} {archive : List UInt8} {n : Nat}

theorem Packed.length_eq (h : Packed entries archive) : archive.length = archiveLen entries := by
  induction h with
  | nil ino => exact length_cpioEntry ino TRAILER []
  | cons ino name data h ih =>
    rw [length_append, length_cpioEntry, ih, archiveLen, archiveLen, map_cons,
      sum_cons]
    dsimp only
    omega

theorem packed_of_loop {out out' : List UInt8} {ino ino' : Nat}
    (h : makeCpioNewcLoop checks entries out ino = some (out', ino')) (hout : out.length % 4 = 0) :
    ∃ rest, Packed entries rest ∧ appendCpioEntry out' ino' TRAILER [] = out ++ rest := by
  induction entries generalizing out ino with
  | nil =>
    obtain ⟨rfl, rfl⟩ := Prod.mk.inj (some.inj h)
    exact ⟨_, .nil ino, appendCpioEntry_eq hout ino TRAILER []⟩
  | cons e entries ih =>
    obtain ⟨name, data⟩ := e
    rw [makeCpioNewcLoop] at h
    split at h
    · have hmod := length_cpioEntry_mod ino name data
      rw [appendCpioEntry_eq hout] at h
      obtain ⟨rest, hrest, happend⟩ := ih h (by rw [length_append]; omega)
      exact ⟨_, .cons ino name data hrest, by rw [happend, append_assoc]⟩
    · cases h

/-- The numbers of the entries fit, or are not checked. -/
theorem loop_isSome (entries : List (Str × List UInt8)) (out : List UInt8) {ino : Nat}
    (hino : ino < 2 ^ 32) :
    (makeCpioNewcLoop checks entries out ino).isSome ↔
      (checks = true → ino + entries.length < 2 ^ 32) := by
  induction entries generalizing out ino with
  | nil => simpa [makeCpioNewcLoop] using fun _ => hino
  | cons e entries ih =>
    rw [makeCpioNewcLoop, length_cons]
    cases checks with
    | false =>
      rw [fit_unchecked]
      exact (ih _ (Nat.mod_lt _ (by decide))).trans (by simp)
    | true =>
      by_cases hnext : ino + 1 < 2 ^ 32
      · rw [fit_of_lt hnext]
        exact (ih _ hnext).trans (by rw [add_right_comm, add_assoc])
      rw [fit_checked (Nat.le_of_not_lt hnext)]
      simp only [isSome_none, Bool.false_eq_true, forall_const, false_iff]
      omega

theorem makeCpioNewc_packed (h : makeCpioNewc checks entries = some archive) :
    Packed entries archive := by
  obtain ⟨⟨out, ino⟩, hloop, rfl⟩ := map_eq_some_iff.1 h
  obtain ⟨rest, hrest, happend⟩ := packed_of_loop hloop rfl
  rwa [happend]

theorem makeCpioNewc_isSome (checks : Bool) (entries : List (Str × List UInt8)) :
    (∃ archive, makeCpioNewc checks entries = some archive) ↔
      (checks = true → entries.length + 1 < 2 ^ 32) := by
  rw [← isSome_iff_exists, makeCpioNewc, isSome_map, loop_isSome _ _ (by decide),
    add_comm]

/-! ## Names -/

section Names

variable {name : Str} (h : IsEntryName name)
include h

theorem IsEntryName.dropWhile : (name.dropWhile fun a => a == '/') = name := by
  refine dropWhile_eq_self_iff.2 fun hpos => ?_
  obtain ⟨c, t, rfl⟩ := exists_cons_of_length_pos hpos
  rw [beq_iff_eq]
  rintro rfl
  refine (h.segments [] ?_).1 rfl
  exact mem_append_left _ (mem_singleton_self _)

theorem IsEntryName.rdropWhile : (name.rdropWhile fun a => a == '/') = name := by
  refine rdropWhile_eq_self_iff.2 fun hne => ?_
  rw [beq_iff_eq]
  intro hlast
  refine (h.segments [] ?_).1 rfl
  rw [← dropLast_append_getLast hne, hlast, splitOn_append_cons_self]
  exact mem_append_right _ (mem_singleton_self _)

/-- There is nothing to normalize. -/
theorem IsEntryName.normalizePath : Initrd.normalizePath name = name := by
  have htrim : trimMatches '/' name = name := by rw [trimMatches, h.dropWhile, h.rdropWhile]
  have hdot : name ≠ ['.'] := by
    rintro rfl
    exact (h.segments ['.'] (by decide)).2 rfl
  have hfilter : (name.splitOn '/').filter
      (fun segment => !segment.isEmpty && segment != ['.']) = name.splitOn '/' := by
    refine filter_eq_self.2 fun s hs => ?_
    obtain ⟨hne, hs⟩ := h.segments s hs
    simp [hne, hs]
  rw [Initrd.normalizePath, htrim, if_neg hdot, hfilter, intercalate_splitOn]

theorem IsEntryName.ne_nil : name ≠ [] := by
  rintro rfl
  exact (h.segments [] (by decide)).1 rfl

end Names

theorem Proper.pairwise (h : Proper entries) :
    entries.Pairwise fun e e' => Apart (e.1.splitOn '/') (e'.1.splitOn '/') := by
  have hdistinct : entries.Pairwise fun e e' => e.1 ≠ e'.1 := pairwise_map.1 h.distinct
  refine hdistinct.imp_of_mem fun he he' hne => ?_
  exact ⟨h.above _ he _ he' hne, h.above _ he' _ he hne.symm⟩

/-! ## Through the archive -/

section Step

variable {pre rest : List UInt8} {ino : Nat} {name : Str} {data : List UInt8}
  {builder : BuilderNode}

theorem lt_length_cpioEntry : pre.length < (pre ++ (cpioEntry ino name data ++ rest)).length := by
  rw [length_append, length_append, length_cpioEntry]
  omega

theorem newLoop_cpioEntry (hpre : pre.length % 4 = 0) (hentry : IsEntryName name)
    (htrailer : name ≠ TRAILER) (hname : utf8Len name + 1 < 2 ^ 32) (hdata : data.length < 2 ^ 32)
    (hlen : (pre ++ (cpioEntry ino name data ++ rest)).length ≤ ISIZE_MAX)
    (hwf : builder.WellFormed) (hroom : Room (name.splitOn '/') .regular builder) :
    ∃ builder', newLoop (pre ++ (cpioEntry ino name data ++ rest)) pre.length builder =
        newLoop (pre ++ cpioEntry ino name data ++ rest) (pre ++ cpioEntry ino name data).length
          builder' ∧ Inserted (name.splitOn '/') (.regular, data) builder builder' := by
  obtain ⟨builder', hinsert, -, hinserted⟩ : ∃ builder', _ ∧ _ ∧ _ :=
    (insertSegments_spec .regular data (splitOn_ne_nil '/' name) hwf
      hroom.fileType_eq).resolve_right fun h => h.2 hroom
  refine ⟨builder', ?_, hinserted⟩
  have hparse := parse_cpioEntry hpre hname hdata hlen
  rw [newLoop_of_ok lt_length_cpioEntry hparse, if_neg htrailer, hentry.normalizePath,
    if_neg hentry.ne_nil, BuilderNode.insert, hinsert, append_assoc, length_append]

theorem newLoop_trailer (hpre : pre.length % 4 = 0)
    (hlen : (pre ++ cpioEntry ino TRAILER []).length ≤ ISIZE_MAX) :
    newLoop (pre ++ cpioEntry ino TRAILER []) pre.length builder = some (.ok builder) := by
  rw [← append_nil (cpioEntry ino TRAILER [])] at hlen ⊢
  rw [newLoop_of_ok lt_length_cpioEntry (parse_cpioEntry hpre (by decide) (by decide) hlen)]
  exact if_pos rfl

/-- The loop ends at a name that is too long. -/
theorem newLoop_long (hentry : IsEntryName name) (hname : ¬utf8Len name + 1 < 2 ^ 32)
    (hlen : (pre ++ (cpioEntry ino name data ++ rest)).length ≤ ISIZE_MAX) :
    newLoop (pre ++ (cpioEntry ino name data ++ rest)) pre.length builder =
      some (.error .ioError) := by
  exact newLoop_of_error lt_length_cpioEntry
    (parse_cpioEntry_long hentry.nul (Nat.le_of_not_lt hname) hlen)

end Step

def NamesFit (entries : List (Str × List UInt8)) : Prop :=
  ∀ e ∈ entries, utf8Len e.1 + 1 < 2 ^ 32

/-- What the kernel makes of an archive: it stops at the first name that is too long, and otherwise
it has all the files, and whatever lies apart from them is as before. -/
theorem newLoop_packed (h : Packed entries archive) (hentry : ∀ e ∈ entries, IsEntryName e.1)
    (htrailer : ∀ e ∈ entries, e.1 ≠ TRAILER) (hdata : ∀ e ∈ entries, e.2.length < 2 ^ 32)
    (hapart : entries.Pairwise fun e e' => Apart (e.1.splitOn '/') (e'.1.splitOn '/'))
    {pre : List UInt8} (hpre : pre.length % 4 = 0) (hlen : (pre ++ archive).length ≤ ISIZE_MAX)
    {builder : BuilderNode} (hwf : builder.WellFormed)
    (hroom : ∀ e ∈ entries, Room (e.1.splitOn '/') .regular builder) :
    (¬NamesFit entries ∧ newLoop (pre ++ archive) pre.length builder = some (.error .ioError)) ∨
    (NamesFit entries ∧ ∃ builder',
      newLoop (pre ++ archive) pre.length builder = some (.ok builder') ∧ builder'.WellFormed ∧
      (∀ e ∈ entries, builder'.entryAt (e.1.splitOn '/') = some (.regular, e.2)) ∧
      ∀ p, (∀ e ∈ entries, Apart p (e.1.splitOn '/')) →
        builder'.entryAt p = builder.entryAt p) := by
  induction h generalizing pre builder with
  | nil ino =>
    exact .inr ⟨nofun, builder, newLoop_trailer hpre hlen, hwf, nofun, fun _ _ => rfl⟩
  | @cons ino name data entries rest h ih =>
    simp only [forall_mem_cons] at hentry htrailer hdata hroom
    rw [pairwise_cons] at hapart
    by_cases hname : utf8Len name + 1 < 2 ^ 32
    · obtain ⟨builder', hstep, hinserted⟩ :=
        newLoop_cpioEntry hpre hentry.1 htrailer.1 hname hdata.1 hlen hwf hroom.1
      have hnext : (pre ++ cpioEntry ino name data).length % 4 = 0 := by
        have := length_cpioEntry_mod ino name data
        rw [length_append]
        omega
      rw [hstep, NamesFit, forall_mem_cons]
      rcases ih hentry.2 htrailer.2 hdata.2 hapart.2 hnext (by rwa [append_assoc])
        hinserted.wellFormed
        (fun e he => hinserted.room (hapart.1 e he).symm (hroom.2 e he)) with
        ⟨hlong, herror⟩ | ⟨hfit, builder'', hok, hwf', hfound, hkept⟩
      · exact .inl ⟨fun hfit => hlong hfit.2, herror⟩
      refine .inr ⟨⟨hname, hfit⟩, builder'', hok, hwf', ?_, fun p hp => ?_⟩
      · rw [forall_mem_cons]
        exact ⟨(hkept _ fun e he => hapart.1 e he).trans ((hinserted.entryAt _).trans (if_pos rfl)),
          hfound⟩
      · rw [forall_mem_cons] at hp
        rw [hkept p hp.2, hinserted.entryAt_apart hp.1]
    · refine .inl ⟨fun hfit => hname (hfit _ mem_cons_self), ?_⟩
      exact newLoop_long hentry.1 hname hlen

/-! ## There and back -/

/-- What the kernel makes of an archive of the build tool. -/
theorem new_makeCpioNewc (h : Proper entries) (hlen : archiveLen entries ≤ ISIZE_MAX)
    (hmake : makeCpioNewc checks entries = some archive) :
    (¬NamesFit entries ∧ new archive = some (.error .ioError)) ∨
    (NamesFit entries ∧ ∃ fs, new archive = some (.ok fs) ∧
      ∀ e ∈ entries, ∃ inode, fs.root.lookupPath (e.1.splitOn '/') = .ok inode ∧
        inode.IsFile e.2) := by
  have hpacked := makeCpioNewc_packed hmake
  have hpre : ([] : List UInt8).length % 4 = 0 := rfl
  rcases newLoop_packed hpacked h.name h.trailer h.data h.pairwise hpre
    (by rwa [nil_append, hpacked.length_eq]) wellFormed_directory
    (fun e _ => room_directory (splitOn_ne_nil '/' e.1)) with
    ⟨hlong, herror⟩ | ⟨hfit, builder, hok, hwf, hfound, -⟩
  · exact .inl ⟨hlong, congrArg (Option.map _) herror⟩
  refine .inr ⟨hfit, ⟨builder.intoInode⟩, congrArg (Option.map _) hok, fun e he => ?_⟩
  obtain ⟨found, hfind, hkind⟩ := map_eq_some_iff.1 (hfound e he)
  exact ⟨_, lookupPath_intoInode_iff.2 ⟨found, hfind, rfl⟩, (hwf.find hfind).isFile hkind⟩

/-- **What the build tool packs, the kernel unpacks**, if and only if every name fits in its field
of the header, and the entries can be numbered or the numbers are not checked.  The archive is a
slice, and has no more bytes than one can have. -/
theorem initrd_round_trip_iff (checks : Bool) {entries : List (Str × List UInt8)}
    (h : Proper entries) (hlen : archiveLen entries ≤ ISIZE_MAX) :
    RoundTrip checks entries ↔
      (∀ e ∈ entries, utf8Len e.1 + 1 < 2 ^ 32) ∧
      (checks = true → entries.length + 1 < 2 ^ 32) := by
  constructor
  · rintro ⟨archive, fs, hmake, hnew, -⟩
    refine ⟨?_, (makeCpioNewc_isSome checks entries).1 ⟨archive, hmake⟩⟩
    rcases new_makeCpioNewc h hlen hmake with ⟨-, herror⟩ | ⟨hfit, -⟩
    · cases hnew.symm.trans herror
    · exact hfit
  · rintro ⟨hfit, hcount⟩
    obtain ⟨archive, hmake⟩ := (makeCpioNewc_isSome checks entries).2 hcount
    rcases new_makeCpioNewc h hlen hmake with ⟨hlong, -⟩ | ⟨-, fs, hnew, hfiles⟩
    · exact absurd hfit hlong
    · exact ⟨archive, fs, hmake, hnew, hfiles⟩

/-- Files like those of the build tool. -/
def bootFiles : List (Str × List UInt8) :=
  [(['b', 'o', 'o', 't', '.', 't', 'o', 'm', 'l'], [1, 2, 3]),
   (['e', 't', 'c', '/', 'f', 's', 't', 'a', 'b'], [4]), (['e', 't', 'c', '/', 'm'], [])]

theorem initrd_round_trip_bootFiles : RoundTrip true bootFiles := by
  have hproper : Proper bootFiles :=
    { name := by
        rw [bootFiles]
        simp only [forall_mem_cons]
        exact ⟨⟨by decide, by decide⟩, ⟨by decide, by decide⟩, ⟨by decide, by decide⟩, nofun⟩
      trailer := by decide
      distinct := by decide
      above := by decide
      data := by decide }
  exact (initrd_round_trip_iff true hproper (by decide)).2 ⟨by decide, by decide⟩

def longNamed (n : Nat) : List (Str × List UInt8) := [(List.replicate n 'a', [])]

theorem utf8Len_replicate (n : Nat) : utf8Len (List.replicate n 'a') = n := by
  rw [utf8Len, map_replicate, sum_replicate_nat]
  exact mul_one n

theorem proper_longNamed (h : 10 < n) : Proper (longNamed n) := by
  have hmem : ∀ c, c ≠ 'a' → c ∉ replicate n 'a' := fun c hc hmem =>
    hc (eq_of_mem_replicate hmem)
  have hlen : ∀ s : Str, s.length ≤ 10 → replicate n 'a' ≠ s := by
    rintro s hs rfl
    rw [length_replicate] at hs
    omega
  have hsplit : (replicate n 'a').splitOn '/' = [replicate n 'a'] :=
    splitOn_eq_singleton (hmem '/' (by decide))
  constructor
  · refine forall_mem_singleton.2 ⟨hmem _ (by decide), fun s hs => ?_⟩
    obtain rfl := mem_singleton.1 (hsplit ▸ hs)
    exact ⟨hlen [] (by decide), hlen ['.'] (by decide)⟩
  · exact forall_mem_singleton.2 (hlen TRAILER (by decide))
  · exact nodup_singleton _
  · exact forall_mem_singleton.2 (forall_mem_singleton.2 fun hne => absurd rfl hne)
  · exact forall_mem_singleton.2 (Nat.two_pow_pos 32)

theorem rejects_longNamed (h : 2 ^ 32 ≤ n + 1) (hlen : n ≤ 2 ^ 33) (checks : Bool) :
    ∃ archive, makeCpioNewc checks (longNamed n) = some archive ∧
      new archive = some (.error .ioError) := by
  obtain ⟨archive, hmake⟩ := (makeCpioNewc_isSome checks (longNamed n)).2 fun _ => by
    rw [longNamed, length_singleton]
    decide
  have harchive : archiveLen (longNamed n) ≤ ISIZE_MAX := by
    rw [longNamed, archiveLen, map_singleton, sum_singleton, utf8Len_replicate,
      length_nil, CPIO_HEADER_LEN, ISIZE_MAX]
    omega
  rcases new_makeCpioNewc (proper_longNamed (by omega)) harchive hmake with ⟨-, herror⟩ | ⟨hfit, -⟩
  · exact ⟨archive, hmake, herror⟩
  have hshort := hfit _ (mem_singleton_self _)
  rw [utf8Len_replicate] at hshort
  omega

/-- A name of so many letters that the field of its length is zero: the kernel refuses an archive
that the build tool has written without complaint. -/
theorem initrd_rejects_long_name : Proper (longNamed (2 ^ 32 - 1)) ∧
    ∀ checks, ∃ archive, makeCpioNewc checks (longNamed (2 ^ 32 - 1)) = some archive ∧
      new archive = some (.error .ioError) :=
  ⟨proper_longNamed (by omega), rejects_longNamed (by omega) (by omega)⟩

end Krust.Initrd
