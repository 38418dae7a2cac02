import Krust.Initrd.Tree

/-!
# What the initial RAM disk holds

Nobody has checked the archive that `InitrdFs::new` is given.  Still it comes to an end, since every
entry ends behind its header, and if it finds a trailer, the tree has what the archive has: the
entries in front of the trailer under their paths, and the directories above them
(`initrd_contents`).  A path is taken without its empty segments and dots, and the data of a
directory is dropped.
-/

set_option autoImplicit false

namespace Krust.Initrd

open Lib BuilderNode List Option ParsedEntry

/-! ## Unpacking -/

structure InitrdFs where
  root : InitrdInode

/-- The loop of `InitrdFs::new`; `none` is a panic.  The tree is returned when the trailer has been
found. -/
def newLoop (data : List UInt8) (offset : Nat) (builder : BuilderNode) :
    Option (Except FsError BuilderNode) :=
  if offset < data.length then
    match _h : parse data offset with
    | none => none
    | some (.error e) => some (.error e)
    | some (.ok entry) =>
      if entry.name = TRAILER then some (.ok builder)
      else
        let path := normalizePath entry.name
        if path = [] then
          if entry.fileType ≠ .directory then some (.error .ioError)
          else newLoop data entry.nextOffset builder
        else
          match builder.insert path entry.fileType entry.contents with
          | .error e => some (.error e)
          | .ok builder => newLoop data entry.nextOffset builder
  else some (.error .ioError)
termination_by data.length - offset
decreasing_by
  all_goals
    have := (bounds _h).1
    omega

def InitrdFs.new (data : List UInt8) : Option (Except FsError InitrdFs) :=
  (newLoop data 0 BuilderNode.directory).map fun built =>
    built.map fun builder => ⟨builder.intoInode⟩

variable {data : List UInt8} {offset : Nat} {builder : BuilderNode} {entries : List ParsedEntry}

theorem newLoop_of_error {e : FsError} (hlt : offset < data.length)
    (h : parse data offset = some (.error e)) :
    newLoop data offset builder = some (.error e) := by
  rw [newLoop, if_pos hlt]
  split
  · rename_i hnone
    cases hnone.symm.trans h
  · rename_i e' he'
    obtain rfl := Except.error.inj (some.inj (he'.symm.trans h))
    rfl
  · rename_i entry hok
    cases hok.symm.trans h

variable {entry : ParsedEntry}

theorem newLoop_of_ok (hlt : offset < data.length) (h : parse data offset = some (.ok entry)) :
    newLoop data offset builder =
      if entry.name = TRAILER then some (.ok builder)
      else if normalizePath entry.name = [] then
        if entry.fileType ≠ .directory then some (.error .ioError)
        else newLoop data entry.nextOffset builder
      else
        match builder.insert (normalizePath entry.name) entry.fileType entry.contents with
        | .error e => some (.error e)
        | .ok builder => newLoop data entry.nextOffset builder := by
  rw [newLoop, if_pos hlt]
  split
  · rename_i hnone
    cases hnone.symm.trans h
  · rename_i e he
    cases he.symm.trans h
  rename_i entry' hok
  obtain rfl := Except.ok.inj (some.inj (hok.symm.trans h))
  rfl

/-- The loop does not panic, since `parse` does not. -/
theorem newLoop_returns (data : List UInt8) (offset : Nat) (builder : BuilderNode) :
    ∃ r, newLoop data offset builder = some r := by
  fun_induction newLoop data offset builder with
  | case1 offset builder hlt hpanic =>
    obtain ⟨r, hr⟩ := parse_returns data offset
    cases hr.symm.trans hpanic
  | case5 offset builder hlt entry hparse hname path hroot htype ih => exact ih
  | case7 offset builder hlt entry hparse hname path hroot next hinsert ih => exact ih
  | _ => exact ⟨_, rfl⟩

/-! ## The entries -/

/-- The entries of the archive from an offset on, in front of the trailer. -/
inductive Entries (data : List UInt8) : Nat → List ParsedEntry → Prop
  | trailer {offset : Nat} {entry : ParsedEntry} (hlt : offset < data.length)
      (h : parse data offset = some (.ok entry)) (hname : entry.name = TRAILER) :
      Entries data offset []
  | cons {offset : Nat} {entry : ParsedEntry} {entries : List ParsedEntry}
      (hlt : offset < data.length) (h : parse data offset = some (.ok entry))
      (hname : entry.name ≠ TRAILER) (hrest : Entries data entry.nextOffset entries) :
      Entries data offset (entry :: entries)

def ParsedEntry.path (entry : ParsedEntry) : List Str :=
  if normalizePath entry.name = [] then [] else (normalizePath entry.name).splitOn '/'

/-- What stands under a path: an entry, or a directory above one. -/
def Listed (entries : List ParsedEntry) (p : List Str) (x : FileType × List UInt8) : Prop :=
  (∃ e ∈ entries, e.path = p ∧ entryKind e.fileType e.contents = x) ∨
    (x = (.directory, []) ∧ (p = [] ∨ ∃ e ∈ entries, p <+: e.path ∧ p ≠ e.path))

theorem Listed.mono {entries' : List ParsedEntry} {p : List Str} {x : FileType × List UInt8}
    (h : Listed entries p x) (hsub : entries ⊆ entries') : Listed entries' p x := by
  rcases h with ⟨e, he, h⟩ | ⟨hx, rfl | ⟨e, he, h⟩⟩
  · exact .inl ⟨e, hsub he, h⟩
  · exact .inr ⟨hx, .inl rfl⟩
  · exact .inr ⟨hx, .inr ⟨e, hsub he, h⟩⟩

/-- The tree holds these entries. -/
structure Built (entries : List ParsedEntry) (builder : BuilderNode) : Prop where
  wellFormed : builder.WellFormed
  entryAt : ∀ p x, builder.entryAt p = some x ↔ Listed entries p x

theorem built_directory : Built [] directory := by
  refine ⟨wellFormed_directory, fun p x => ?_⟩
  cases p with
  | nil =>
    constructor
    · intro hx
      exact .inr ⟨(some.inj hx).symm, .inl rfl⟩
    · rintro (⟨_, ⟨⟩, -⟩ | ⟨rfl, -⟩)
      rfl
  | cons s p => simp [Listed, entryAt_directory]

theorem Built.kind_eq (h : Built entries builder) : builder.kind = (.directory, []) :=
  some.inj ((h.entryAt [] _).2 (.inr ⟨rfl, .inl rfl⟩))

/-- **One entry more.** -/
theorem Built.insert {builder' : BuilderNode} (h : Built entries builder)
    (hroom : Room entry.path entry.fileType builder)
    (hinsert : Inserted entry.path (entryKind entry.fileType entry.contents) builder builder') :
    Built (entries ++ [entry]) builder' := by
  have hmem : entry ∈ entries ++ [entry] := by simp
  refine ⟨hinsert.wellFormed, fun p x => ?_⟩
  rw [hinsert.entryAt]
  constructor
  · intro hx
    split at hx
    · exact .inl ⟨entry, hmem, Eq.symm ‹_›, some.inj hx⟩
    split at hx
    · exact .inr ⟨(some.inj hx).symm, .inr ⟨entry, hmem, ‹_›, ‹_›⟩⟩
    · exact ((h.entryAt p x).1 hx).mono (subset_append_left _ _)
  · intro hlisted
    -- what was there, the entry itself, or a directory above it
    obtain hbefore | ⟨rfl, rfl⟩ | ⟨rfl, hpre, hne⟩ : Listed entries p x ∨
        (p = entry.path ∧ x = entryKind entry.fileType entry.contents) ∨
        (x = (.directory, []) ∧ p <+: entry.path ∧ p ≠ entry.path) := by
      rcases hlisted with ⟨e, he, h⟩ | ⟨hx, rfl | ⟨e, he, h⟩⟩
      · rcases mem_append.1 he with he | he
        · exact .inl (.inl ⟨e, he, h⟩)
        · obtain rfl := mem_singleton.1 he
          exact .inr (.inl ⟨h.1.symm, h.2.symm⟩)
      · exact .inl (.inr ⟨hx, .inl rfl⟩)
      · rcases mem_append.1 he with he | he
        · exact .inl (.inr ⟨hx, .inr ⟨e, he, h⟩⟩)
        · obtain rfl := mem_singleton.1 he
          exact .inr (.inr ⟨hx, h⟩)
    · have hx := (h.entryAt p x).2 hbefore
      by_cases hpre : p <+: entry.path
      · obtain ⟨rfl, hend⟩ := hroom p x hpre hx
        by_cases hp : p = entry.path
        · rw [if_pos hp, entryKind, hend hp, if_pos rfl]
        · rw [if_neg hp, if_pos hpre]
      · have hp : p ≠ entry.path := fun hp => hpre (hp ▸ prefix_rfl)
        rw [if_neg hp, if_neg hpre, hx]
    · rw [if_pos rfl]
    · rw [if_neg hne, if_pos hpre]

theorem exists_cons {done : List ParsedEntry} (hlt : offset < data.length)
    (hparse : parse data offset = some (.ok entry)) (hname : entry.name ≠ TRAILER)
    (h : ∃ entries, Entries data entry.nextOffset entries ∧
      Built (done ++ [entry] ++ entries) builder) :
    ∃ entries, Entries data offset entries ∧ Built (done ++ entries) builder := by
  obtain ⟨entries, hentries, hbuilt⟩ := h
  exact ⟨entry :: entries, .cons hlt hparse hname hentries, by simpa using hbuilt⟩

/-- The loop goes through the entries, and the tree holds them all in the end. -/
theorem newLoop_built {builder' : BuilderNode}
    (hloop : newLoop data offset builder = some (.ok builder')) {done : List ParsedEntry}
    (h : Built done builder) :
    ∃ entries, Entries data offset entries ∧ Built (done ++ entries) builder' := by
  fun_induction newLoop data offset builder generalizing done with
  | case3 offset builder hlt entry hparse hname =>
    obtain rfl := Except.ok.inj (some.inj hloop)
    exact ⟨[], .trailer hlt hparse hname, by simpa using h⟩
  | case5 offset builder hlt entry hparse hname path hroot htype ih =>
    have hpath : entry.path = [] := if_pos hroot
    have hdir : entry.fileType = .directory := not_not.1 htype
    refine exists_cons hlt hparse hname (ih hloop (h.insert ?_ ?_))
    · rw [hpath]
      intro p x hp hx
      obtain rfl := prefix_nil.1 hp
      exact ⟨(some.inj hx).symm.trans h.kind_eq, fun _ => hdir⟩
    · rw [hpath, hdir]
      have hself : Inserted [] builder.kind builder builder :=
        inserted_nil h.wellFormed fun _ _ => rfl
      rw [h.kind_eq] at hself
      exact hself
  | case7 offset builder hlt entry hparse hname path hroot next hinsert ih =>
    have hpath : entry.path = path.splitOn '/' := if_neg hroot
    refine exists_cons hlt hparse hname (ih hloop ?_)
    rcases insertSegments_spec entry.fileType entry.contents (splitOn_ne_nil '/' path)
      h.wellFormed (fileType_of_kind h.kind_eq) with
      ⟨node, hok, hroom, hinserted⟩ | ⟨⟨e, herror⟩, -⟩
    · obtain rfl := Except.ok.inj (hok.symm.trans hinsert)
      rw [← hpath] at hroom hinserted
      exact h.insert hroom hinserted
    · cases herror.symm.trans hinsert
  | _ => cases hloop

theorem Entries.contents (h : Entries data offset entries) :
    ∀ entry ∈ entries, entry.contents <:+: data := by
  induction h with
  | trailer => exact nofun
  | cons hlt hparse hname hrest ih =>
    exact forall_mem_cons.2 ⟨(bounds hparse).2, ih⟩

/-- **What is unpacked from any bytes.**  No slice is out of bounds and no sum overflows, so the
call returns.  In what it returns names are unique in each directory and only directories have
children, and the tree has the entries in front of the trailer and the directories above them, with
contents from the archive. -/
theorem initrd_contents (data : List UInt8) :
    ∃ r, InitrdFs.new data = some r ∧ ∀ fs, r = .ok fs → fs.root.WellFormed ∧
      (∀ p inode, fs.root.lookupPath p = .ok inode → inode.kind.2 <:+: data) ∧
      ∃ entries, Entries data 0 entries ∧
        ∀ p x, (∃ inode, fs.root.lookupPath p = .ok inode ∧ inode.kind = x) ↔
          Listed entries p x := by
  obtain ⟨built, hloop⟩ := newLoop_returns data 0 directory
  refine ⟨_, congrArg (Option.map _) hloop, fun fs h => ?_⟩
  cases built with
  | error e => cases h
  | ok builder =>
  obtain rfl := Except.ok.inj h
  obtain ⟨entries, hentries, hbuilt⟩ := newLoop_built hloop built_directory
  rw [nil_append] at hbuilt
  have hlisted : ∀ p x, (∃ inode, builder.intoInode.lookupPath p = .ok inode ∧ inode.kind = x) ↔
      Listed entries p x := by
    intro p x
    rw [kind_lookupPath_iff, hbuilt.entryAt]
  refine ⟨hbuilt.wellFormed.intoInode, fun p inode hinode => ?_, entries, hentries, hlisted⟩
  rcases (hlisted p _).1 ⟨inode, hinode, rfl⟩ with ⟨e, he, -, hkind⟩ | ⟨hkind, -⟩
  · rw [← hkind, entryKind]
    split
    · exact nil_infix
    · exact hentries.contents e he
  · rw [hkind]
    exact nil_infix

/-- An archive with a directory `d` that has a byte of data. -/
def dirArchive : List UInt8 :=
  CPIO_NEWC_MAGIC ++ [1, 0o40755, 0, 0, 1, 0, 1, 0, 0, 0, 0, 2, 0].flatMap hexField ++
    [0x64, 0] ++ [7, 0, 0, 0] ++ cpioEntry 2 TRAILER []

theorem parse_dirArchive : parse dirArchive 0 = some (.ok ⟨['d'], .directory, [7], 116⟩) ∧
    parse dirArchive 116 = some (.ok ⟨TRAILER, .regular, [], 240⟩) ∧
    dirArchive.length = 240 := by
  decide +kernel

theorem new_dirArchive :
    InitrdFs.new dirArchive = some (.ok ⟨(dir [(['d'], directory)]).intoInode⟩) := by
  obtain ⟨hdir, htrailer, hlen⟩ := parse_dirArchive
  have hinsert : directory.insert (normalizePath ['d']) .directory [7] =
    .ok (dir [(['d'], directory)]) := rfl
  rw [InitrdFs.new, newLoop_of_ok (by omega) hdir, if_neg (by decide), if_neg (by decide), hinsert]
  dsimp only
  rw [newLoop_of_ok (by omega) htrailer, if_pos rfl]
  rfl

/-- The data of a directory is not in the tree. -/
theorem directory_data_dropped : ∃ fs, InitrdFs.new dirArchive = some (.ok fs) ∧
    Entries dirArchive 0 [⟨['d'], .directory, [7], 116⟩] ∧
    ¬ ∃ inode, fs.root.lookupPath [['d']] = .ok inode ∧ inode.kind = (.directory, [7]) := by
  obtain ⟨hdir, htrailer, hlen⟩ := parse_dirArchive
  refine ⟨_, new_dirArchive, .cons (by omega) hdir (by decide) (.trailer ?_ htrailer rfl), ?_⟩
  · dsimp only
    omega
  · exact nofun

theorem initrd_contents_dirArchive :
    ∃ fs, InitrdFs.new dirArchive = some (.ok fs) ∧ fs.root.WellFormed ∧
      ∃ entries, Entries dirArchive 0 entries ∧ ∀ p x,
        (∃ inode, fs.root.lookupPath p = .ok inode ∧ inode.kind = x) ↔ Listed entries p x := by
  obtain ⟨r, hnew, hcontents⟩ := initrd_contents dirArchive
  obtain rfl := some.inj (hnew.symm.trans new_dirArchive)
  obtain ⟨hwf, -, hlisted⟩ := hcontents _ rfl
  exact ⟨_, new_dirArchive, hwf, hlisted⟩

end Krust.Initrd
