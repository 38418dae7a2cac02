import Krust.Boot.Tmpfs

/-!
# The table of file systems

`default_fstab` writes the table for a new system from the boot settings, and at the next boot
`parse_fstab` reads it and `validate_fstab_root` compares its root entry with the settings.  The
writer replaces the spaces in the name of the root device, since fields end at white space; but the
settings let other white space through, such as a no-break space, and the reader ends a field there.

So the table of accepted settings is accepted if the root is in memory or all white space in the
name of the device is spaces (`fstab_accepted_iff`).  Otherwise it is only accepted when the name of
the device happens to hold a whole entry of its own, with the rest behind a comment sign (`Detour`).
-/

set_option autoImplicit false

namespace Krust.Boot

open Lib Vfs List Option BootSettings

/-! ## The source -/

structure FstabEntry where
  source : Str
  target : Str
  filesystem : Str
  noauto : Bool
  tmpfs : TmpfsOptions
  deriving DecidableEq, Repr

/-- `decode_field`: a backslash begins an octal number, and three of these are known. -/
def decodeField : Str → Except Str Str
  | [] => .ok []
  | c :: rest =>
    if c ≠ '\x5c' then
      match decodeField rest with
      | .error e => .error e
      | .ok value => .ok (c :: value)
    else
      match rest with
      | a :: b :: d :: rest =>
        if [a, b, d] = "040".toList then (decodeField rest).map (' ' :: ·)
        else if [a, b, d] = "011".toList then (decodeField rest).map ('\t' :: ·)
        else if [a, b, d] = "134".toList then (decodeField rest).map ('\x5c' :: ·)
        else .error "unsupported fstab escape".toList
      | _ => .error "unsupported fstab escape".toList

/-- The loop over the mount options, with the tmpfs options that have been seen. -/
def parseOptions (filesystem : Str) :
    List Str → Bool → TmpfsOptions → List Str → Except Str (Bool × TmpfsOptions)
  | [], noauto, tmpfs, _ => .ok (noauto, tmpfs)
  | option :: options, noauto, tmpfs, keys =>
    if option = "defaults".toList then parseOptions filesystem options noauto tmpfs keys
    else if option = "noauto".toList then parseOptions filesystem options true tmpfs keys
    else if filesystem = "tmpfs".toList then
      match splitOnce '=' option with
      | none => .error "unsupported tmpfs mount option".toList
      | some (key, value) =>
        if key ∈ keys then .error "duplicate tmpfs mount option".toList
        else
          match tmpfs.set key value with
          | (.error e, _) => .error e
          | (.ok (), tmpfs) => parseOptions filesystem options noauto tmpfs (keys ++ [key])
    else .error "unsupported mount option (only defaults and noauto are supported)".toList

def SourceAllowed (filesystem source : Str) : Prop :=
  (filesystem ∈ ["fat".toList, "ext4".toList] ∧ "/dev/".toList <+: source ∧ canonicalPath source) ∨
    (filesystem ∈ ["ramfs".toList, "tmpfs".toList, "proc".toList, "dev".toList] ∧
      (source = "none".toList ∨ source = filesystem))

instance (filesystem source : Str) : Decidable (SourceAllowed filesystem source) :=
  inferInstanceAs (Decidable (_ ∨ _))

/-- The entry of a line with these fields, after these entries; or the reason why it is refused. -/
def parseFields (entries : List FstabEntry) (fields : List Str) : Except Str FstabEntry :=
  match fields with
  | [source, target, filesystem, options, dump, fsck] =>
    match decodeField source with
    | .error e => .error e
    | .ok source =>
      match decodeField target with
      | .error e => .error e
      | .ok target =>
        if ¬ canonicalPath target then
          .error "mount target must be a canonical absolute path".toList
        else if entries.any fun entry => entry.target = target then
          .error "duplicate mount target".toList
        else if ¬ SourceAllowed filesystem source then
          .error "unsupported filesystem or source".toList
        else
          match parseOptions filesystem (options.splitOn ',') false .default [] with
          | .error e => .error e
          | .ok (noauto, tmpfs) =>
            if dump ≠ "0".toList ∨ fsck ≠ "0".toList then
              .error "dump/fsck are not implemented; final fields must be 0 0".toList
            else if target = ['/'] ∧ (noauto = true ∨ filesystem ∉ ROOT_FILE_SYSTEMS) then
              .error "invalid root entry".toList
            else if 64 ≤ entries.length then
              .error "too many mount entries (maximum 64)".toList
            else .ok ⟨source, target, filesystem, noauto, tmpfs⟩
  | _ => .error "expected six fields".toList

/-- The field does not begin a comment. -/
def isField (field : Str) : Bool := field.head? != some '#'

/-- The loop of `parse_fstab` over the lines. -/
def parseFstabLines : Nat → List FstabEntry → List Str → Except Str (List FstabEntry)
  | _, entries, [] => .ok entries
  | index, entries, line :: rest =>
    let line := trim line
    if line = [] ∨ line.head? = some '#' then parseFstabLines (index + 1) entries rest
    else
      -- `split_whitespace`
      match parseFields entries ((splitWords isWhitespace line).takeWhile isField) with
      | .error reason =>
        .error ("fstab line ".toList ++ decimal (index + 1) ++ ": ".toList ++ reason)
      | .ok entry => parseFstabLines (index + 1) (entries ++ [entry]) rest

/-- `parse_fstab`; the sort is stable. -/
def parseFstab (contents : Str) : Except Str (List FstabEntry) :=
  if utf8Len contents > MAX_CONFIG_BYTES then .error "fstab exceeds 16 KiB".toList
  else
    match parseFstabLines 0 [] (lines contents) with
    | .error e => .error e
    | .ok entries =>
      .ok (entries.insertionSort fun a b => a.target.count '/' ≤ b.target.count '/')

def validateFstabRoot (entries : List FstabEntry) (settings : BootSettings) : Except Str Unit :=
  match entries.find? fun entry => entry.target = ['/'] with
  | none => .ok ()
  | some root =>
    let expectedSource :=
      if settings.rootFs = "ramfs".toList then "none".toList else settings.rootDevice
    if root.filesystem ≠ settings.rootFs ∨
        (root.source ≠ expectedSource ∧
          ¬ (settings.rootFs = "ramfs".toList ∧ root.source = "ramfs".toList)) then
      .error "fstab root entry disagrees with early boot root settings".toList
    else .ok ()

/-- `replace(' ', "\\040")`. -/
def escapeSpaces (s : Str) : Str := s.flatMap fun c => if c = ' ' then "\x5c040".toList else [c]

def BootSettings.defaultFstab (settings : BootSettings) : Str :=
  "# Generated by krust; root is mounted before this file is read.\n".toList ++
  (if settings.rootFs = "ramfs".toList then "none".toList else escapeSpaces settings.rootDevice) ++
  " / ".toList ++ settings.rootFs ++ " defaults 0 0\n".toList ++
  "proc /proc proc defaults 0 0\n".toList ++ "dev /dev dev defaults 0 0\n".toList

/-! ## One entry -/

variable {entries : List FstabEntry} {entry : FstabEntry} {s : BootSettings} {c : Char}
  {fields : List Str} {source value w : Str}

/-- **When fields are an entry.** -/
theorem parseFields_ok_iff {target fs options dump fsck : Str} :
    parseFields entries [source, target, fs, options, dump, fsck] = .ok entry ↔
      decodeField source = .ok entry.source ∧ decodeField target = .ok entry.target ∧
        canonicalPath entry.target ∧ (∀ e ∈ entries, e.target ≠ entry.target) ∧
        SourceAllowed fs entry.source ∧
        parseOptions fs (options.splitOn ',') false .default [] =
          .ok (entry.noauto, entry.tmpfs) ∧
        (dump = "0".toList ∧ fsck = "0".toList) ∧
        ¬ (entry.target = ['/'] ∧ (entry.noauto = true ∨ fs ∉ ROOT_FILE_SYSTEMS)) ∧
        entries.length < 64 ∧ entry.filesystem = fs := by
  rw [parseFields]
  constructor
  · intro h
    split at h
    · cases h
    split at h
    · cases h
    split at h
    · cases h
    split at h
    · cases h
    split at h
    · cases h
    split at h
    · cases h
    split at h
    · cases h
    split at h
    · cases h
    split at h
    · cases h
    rename_i hsource _ _ htarget hcanonical hdup hallowed _ noauto tmpfs hoptions hzero hroot hcount
    obtain rfl := Except.ok.inj h
    refine ⟨hsource, htarget, not_not.1 hcanonical, ?_, not_not.1 hallowed, hoptions, ?_, hroot,
      Nat.lt_of_not_le hcount, rfl⟩
    · simpa using hdup
    · tauto
  · rintro ⟨hsource, htarget, hcanonical, hdup, hallowed, hoptions, ⟨rfl, rfl⟩, hroot, hcount, rfl⟩
    rw [hsource]
    rw [htarget]
    dsimp only
    rw [if_neg (not_not.2 hcanonical), if_neg (by simpa using hdup), if_neg (not_not.2 hallowed),
      hoptions]
    dsimp only
    rw [if_neg (by simp), if_neg hroot, if_neg (not_le.2 hcount)]

theorem six_of_parseFields (h : parseFields entries fields = .ok entry) :
    ∃ source target fs options dump fsck, fields = [source, target, fs, options, dump, fsck] := by
  rw [parseFields.eq_def] at h
  split at h
  · exact ⟨_, _, _, _, _, _, rfl⟩
  · cases h

theorem parseOptions_ok_iff {fs : Str} (hfs : fs ≠ "tmpfs".toList) (options : List Str)
    (noauto : Bool) (tmpfs : TmpfsOptions) (keys : List Str) :
    (∃ r, parseOptions fs options noauto tmpfs keys = .ok r) ↔
      ∀ option ∈ options, option ∈ ["defaults".toList, "noauto".toList] := by
  induction options generalizing noauto with
  | nil => exact iff_of_true ⟨_, rfl⟩ fun _ h => absurd h not_mem_nil
  | cons option options ih =>
    rw [parseOptions, forall_mem_cons]
    by_cases hdefaults : option = "defaults".toList
    · rw [if_pos hdefaults, ih, and_iff_right (by simp [hdefaults])]
    by_cases hnoauto : option = "noauto".toList
    · rw [if_neg hdefaults, if_pos hnoauto, ih, and_iff_right (by simp [hnoauto])]
    rw [if_neg hdefaults, if_neg hnoauto, if_neg hfs]
    refine iff_of_false (by rintro ⟨_, ⟨⟩⟩) fun h => ?_
    exact (mem_pair.1 h.1).elim hdefaults hnoauto

/-! ## Escaping -/

variable {source' : Str}

theorem decodeField_cons (hc : c ≠ '\x5c') (rest : Str) :
    decodeField (c :: rest) = (decodeField rest).map (c :: ·) := by
  rw [decodeField.eq_def]
  dsimp only
  rw [if_pos hc]
  cases decodeField rest <;> rfl

theorem decodeField_space (rest : Str) :
    decodeField ("\x5c040".toList ++ rest) = (decodeField rest).map (' ' :: ·) := rfl

/-- A name without backslashes is read as it was written. -/
theorem decodeField_escapeSpaces {s : Str} (h : '\x5c' ∉ s) :
    decodeField (escapeSpaces s) = .ok s := by
  induction s with
  | nil => rfl
  | cons c s ih =>
    rw [mem_cons, not_or] at h
    change decodeField ((if c = ' ' then _ else _) ++ escapeSpaces s) = _
    split_ifs with hc
    · rw [decodeField_space, ih h.2, hc]
      rfl
    · rw [singleton_append, decodeField_cons (Ne.symm h.1), ih h.2]
      rfl

theorem map_cons_eq_ok {x : Except Str Str} {a : Char} (h : x.map (a :: ·) = .ok value) :
    ∃ v, x = .ok v ∧ value = a :: v := by
  cases x with
  | error e => cases h
  | ok v => exact ⟨v, rfl, (Except.ok.inj h).symm⟩

/-- What is decoded was written, or is one of the three that have an escape. -/
theorem mem_of_decodeField {s : Str} (h : decodeField s = .ok value) (hc : c ∈ value) :
    c ∈ s ∨ c ∈ [' ', '\t', '\x5c'] := by
  fun_induction decodeField s generalizing value with
  | case1 =>
    obtain rfl := Except.ok.inj h
    exact .inl hc
  | case3 a rest ha v hdecode ih =>
    obtain rfl := Except.ok.inj h
    rcases mem_cons.1 hc with rfl | hc
    · exact .inl mem_cons_self
    · exact (ih hdecode hc).imp_left fun hmem => mem_cons_of_mem _ hmem
  | case4 a ha b d e rest hescape ih | case5 a ha b d e rest _ hescape ih
  | case6 a ha b d e rest _ _ hescape ih =>
    obtain ⟨v, hdecode, rfl⟩ := map_cons_eq_ok h
    rcases mem_cons.1 hc with rfl | hc
    · exact .inr (by decide)
    · refine (ih hdecode hc).imp_left fun hmem => ?_
      simp [hmem]
  | _ => cases h

theorem mem_escapeSpaces {s : Str} :
    c ∈ escapeSpaces s ↔ (c ∈ s ∧ c ≠ ' ') ∨ (' ' ∈ s ∧ c ∈ "\x5c040".toList) := by
  rw [escapeSpaces, mem_flatMap]
  constructor
  · rintro ⟨a, ha, hc⟩
    split_ifs at hc with hspace
    · exact .inr ⟨hspace ▸ ha, hc⟩
    obtain rfl := mem_singleton.1 hc
    exact .inl ⟨ha, hspace⟩
  · rintro (⟨hc, hspace⟩ | ⟨hspace, hc⟩)
    · exact ⟨c, hc, by rw [if_neg hspace]; exact mem_singleton.2 rfl⟩
    · exact ⟨' ', hspace, hc⟩

/-! ## The lines of the table -/

def fstabComment : Str := "# Generated by krust; root is mounted before this file is read.".toList

def rootSource (s : BootSettings) : Str :=
  if s.rootFs = "ramfs".toList then "none".toList else escapeSpaces s.rootDevice

def rootLine (s : BootSettings) : Str :=
  rootSource s ++ ' ' :: ("/ ".toList ++ s.rootFs ++ " defaults 0 0".toList)

def kernelLine (name : Str) : Str :=
  name ++ " /".toList ++ name ++ [' '] ++ name ++ " defaults 0 0".toList

theorem defaultFstab_eq (s : BootSettings) :
    s.defaultFstab =
      [fstabComment, rootLine s, kernelLine "proc".toList, kernelLine "dev".toList].flatMap
        fun line => line ++ ['\n'] := by
  have hcomment : "# Generated by krust; root is mounted before this file is read.\n".toList =
      fstabComment ++ ['\n'] := rfl
  have hproc : "proc /proc proc defaults 0 0\n".toList = kernelLine "proc".toList ++ ['\n'] := rfl
  have hdev : "dev /dev dev defaults 0 0\n".toList = kernelLine "dev".toList ++ ['\n'] := rfl
  have hroot : " / ".toList = ' ' :: "/ ".toList := rfl
  have hend : " defaults 0 0\n".toList = " defaults 0 0".toList ++ ['\n'] := rfl
  unfold defaultFstab
  simp only [hcomment, hproc, hdev, hroot, hend, flatMap_cons, flatMap_nil, rootLine,
    rootSource, append_assoc, cons_append, append_nil]

theorem splitWords_rootLine (hfs : s.rootFs ∈ ROOT_FILE_SYSTEMS) :
    splitWords isWhitespace (rootLine s) =
      splitWords isWhitespace (rootSource s) ++
        [['/'], s.rootFs, "defaults".toList, "0".toList, "0".toList] := by
  have hrest : ∀ fs ∈ ROOT_FILE_SYSTEMS,
      splitWords isWhitespace ("/ ".toList ++ fs ++ " defaults 0 0".toList) =
        [['/'], fs, "defaults".toList, "0".toList, "0".toList] := by decide +kernel
  rw [rootLine, splitWords_append (by rfl), hrest _ hfs]

/-- **One line**: its fields have to be an entry. -/
theorem parseFstabLines_cons_iff {index : Nat} {result : List FstabEntry} {line : Str}
    {rest : List Str} (hline : Trimmed line) (hhash : line.head? ≠ some '#') :
    parseFstabLines index entries (line :: rest) = .ok result ↔
      ∃ entry, parseFields entries ((splitWords isWhitespace line).takeWhile isField) = .ok entry ∧
        parseFstabLines (index + 1) (entries ++ [entry]) rest = .ok result := by
  rw [parseFstabLines, hline.trim_eq, if_neg (not_or.2 ⟨hline.ne_nil, hhash⟩)]
  cases parseFields entries ((splitWords isWhitespace line).takeWhile isField) with
  | error e => simp
  | ok entry => simp

def kernelEntry (name : Str) : FstabEntry := ⟨name, '/' :: name, name, false, .default⟩

theorem parseFields_kernel {name : Str} (hname : name ∈ ["proc".toList, "dev".toList])
    (hcount : entries.length < 64) :
    parseFields entries ((splitWords isWhitespace (kernelLine name)).takeWhile isField) =
        .ok entry ↔
      (∀ e ∈ entries, e.target ≠ '/' :: name) ∧ entry = kernelEntry name := by
  have hfields : (splitWords isWhitespace (kernelLine name)).takeWhile isField =
      [name, '/' :: name, name, "defaults".toList, "0".toList, "0".toList] := by
    revert name
    decide +kernel
  have hself : decodeField name = .ok name ∧ decodeField ('/' :: name) = .ok ('/' :: name) ∧
      canonicalPath ('/' :: name) ∧ SourceAllowed name name ∧
      parseOptions name ("defaults".toList.splitOn ',') false .default [] = .ok (false, .default) ∧
      '/' :: name ≠ ['/'] := by
    rcases mem_pair.1 hname with rfl | rfl
    · exact ⟨rfl, rfl, by decide, by decide, rfl, by decide⟩
    · exact ⟨rfl, rfl, by decide, by decide, rfl, by decide⟩
  obtain ⟨hsource, htarget, hcanonical, hallowed, hoptions, hroot⟩ := hself
  rw [hfields, parseFields_ok_iff, hsource, htarget]
  constructor
  · rintro ⟨hs, ht, -, hdup, -, ho, -, -, -, hfs⟩
    obtain ⟨source, target, fs, noauto, tmpfs⟩ := entry
    obtain rfl : name = source := Except.ok.inj hs
    obtain rfl : '/' :: name = target := Except.ok.inj ht
    obtain ⟨rfl, rfl⟩ := Prod.mk.inj (Except.ok.inj ho)
    obtain rfl : fs = name := hfs
    exact ⟨hdup, rfl⟩
  · rintro ⟨hdup, rfl⟩
    exact ⟨rfl, rfl, hcanonical, hdup, hallowed, rfl, ⟨rfl, rfl⟩, fun h => hroot h.1, hcount, rfl⟩

/-! ## The whole table -/

/-- What `validate_fstab_root` asks of the root entry. -/
def RootAgrees (s : BootSettings) (root : FstabEntry) : Prop :=
  root.filesystem = s.rootFs ∧
    (root.source = (if s.rootFs = "ramfs".toList then "none".toList else s.rootDevice) ∨
      (s.rootFs = "ramfs".toList ∧ root.source = "ramfs".toList))

theorem find_of_unique {α : Type} {p : α → Bool} {l : List α} {a : α} (ha : a ∈ l)
    (hpa : p a = true) (hunique : ∀ b ∈ l, p b = true → b = a) : l.find? p = some a := by
  cases hfind : l.find? p with
  | none => exact absurd hpa (find?_eq_none.1 hfind a ha)
  | some b => rw [hunique b (mem_of_find?_eq_some hfind) (find?_some hfind)]

/-- The kernel's own file systems are not mounted at the root, so the check is about the first
entry. -/
theorem validate_iff
    (hentries : entries.Perm [entry, kernelEntry "proc".toList, kernelEntry "dev".toList]) :
    validateFstabRoot entries s = .ok () ↔ (entry.target = ['/'] → RootAgrees s entry) := by
  have hmem : ∀ e ∈ entries, e.target = ['/'] → e = entry := by
    intro e he htarget
    rcases mem_cons.1 (hentries.mem_iff.1 he) with rfl | he
    · rfl
    · rcases mem_pair.1 he with rfl | rfl <;> exact absurd htarget (by decide)
  rw [validateFstabRoot]
  by_cases htarget : entry.target = ['/']
  · have hfind : entries.find? (fun e => e.target = ['/']) = some entry :=
      find_of_unique (hentries.mem_iff.2 mem_cons_self) (by simpa using htarget)
        fun e he h => hmem e he (by simpa using h)
    rw [hfind, RootAgrees]
    dsimp only
    generalize (if s.rootFs = "ramfs".toList then "none".toList else s.rootDevice) = expected
    split_ifs with hdiffers
    · refine iff_of_false nofun fun h => ?_
      obtain ⟨hfs, hsource⟩ := h htarget
      rcases hdiffers with hne | ⟨hne, hne'⟩
      · exact hne hfs
      · exact hsource.elim hne hne'
    · refine iff_of_true rfl fun _ => ?_
      tauto
  · have hfind : entries.find? (fun e => e.target = ['/']) = none :=
      find?_eq_none.2 fun e he h => htarget (hmem e he (by simpa using h) ▸ by simpa using h)
    rw [hfind]
    exact iff_of_true rfl fun h => absurd h htarget

def rootFields (s : BootSettings) : List Str :=
  (splitWords isWhitespace (rootSource s) ++
    [['/'], s.rootFs, "defaults".toList, "0".toList, "0".toList]).takeWhile isField

/-- The table is accepted for the settings. -/
def Accepted (s : BootSettings) : Prop :=
  ∃ entries, parseFstab s.defaultFstab = .ok entries ∧ validateFstabRoot entries s = .ok ()

/-- What the reader makes of the lines behind the comment. -/
theorem parseFstabLines_table (hfs : s.rootFs ∈ ROOT_FILE_SYSTEMS) (hroot : Trimmed (rootLine s))
    (hhash : (rootLine s).head? ≠ some '#') :
    parseFstabLines 1 []
        [rootLine s, kernelLine "proc".toList, kernelLine "dev".toList] = .ok entries ↔
      ∃ entry, parseFields [] (rootFields s) = .ok entry ∧
        entry.target ≠ "/proc".toList ∧ entry.target ≠ "/dev".toList ∧
        entries = [entry, kernelEntry "proc".toList, kernelEntry "dev".toList] := by
  rw [parseFstabLines_cons_iff hroot hhash, splitWords_rootLine hfs]
  refine exists_congr fun entry => and_congr_right fun _ => ?_
  have hkernel : ∀ {name : Str} {index : Nat} {before result : List FstabEntry} {rest : List Str},
      name ∈ ["proc".toList, "dev".toList] → before.length < 64 →
      (parseFstabLines index before (kernelLine name :: rest) = .ok result ↔
        (∀ e ∈ before, e.target ≠ '/' :: name) ∧
          parseFstabLines (index + 1) (before ++ [kernelEntry name]) rest = .ok result) := by
    intro name index before result rest hname hcount
    have hline : Trimmed (kernelLine name) ∧ (kernelLine name).head? ≠ some '#' := by
      revert name
      decide +kernel
    rw [parseFstabLines_cons_iff hline.1 hline.2]
    simp only [parseFields_kernel hname hcount, and_assoc, exists_and_left, exists_eq_left]
  rw [nil_append, hkernel (by decide) (by simp), hkernel (by decide) (by simp)]
  have hapart : (kernelEntry "proc".toList).target ≠ '/' :: "dev".toList := by decide
  have hend : ∀ index before, parseFstabLines index before [] = .ok entries ↔ entries = before := by
    intro index before
    exact ⟨fun h => (Except.ok.inj h).symm, fun h => h ▸ rfl⟩
  rw [hend]
  simp only [singleton_append, forall_mem_cons, mem_singleton, forall_eq]
  constructor
  · rintro ⟨hproc, ⟨hdev, -⟩, rfl⟩
    exact ⟨hproc, hdev, rfl⟩
  · rintro ⟨hproc, hdev, rfl⟩
    exact ⟨hproc, ⟨hdev, hapart⟩, rfl⟩

/-- **The table is accepted exactly if the root line is an entry** that does not stand in the way of
the other two and agrees with the settings. -/
theorem accepted_iff_entry (hfs : s.rootFs ∈ ROOT_FILE_SYSTEMS)
    (hsource : (rootSource s).head?.any (fun c => !isWhitespace c && c != '#') = true)
    (hnewline : '\n' ∉ rootSource s) (hlength : utf8Len s.defaultFstab ≤ MAX_CONFIG_BYTES) :
    Accepted s ↔
      ∃ entry, parseFields [] (rootFields s) = .ok entry ∧
        entry.target ≠ "/proc".toList ∧ entry.target ≠ "/dev".toList ∧
        (entry.target = ['/'] → RootAgrees s entry) := by
  have hne : rootSource s ≠ [] := by
    intro hnil
    rw [hnil] at hsource
    cases hsource
  have hhead : (rootLine s).head? = (rootSource s).head? := by
    rw [rootLine, head?_append_of_ne_nil _ hne]
  have hlast : (rootLine s).getLast? = some '0' := by
    have hcut : rootLine s =
        rootSource s ++ ' ' :: ("/ ".toList ++ s.rootFs ++ " defaults 0 ".toList) ++ ['0'] := by
      simp [rootLine]
    rw [hcut, getLast?_concat]
  have hroot : Trimmed (rootLine s) ∧ (rootLine s).head? ≠ some '#' := by
    rw [Trimmed, hlast, hhead]
    cases hc : (rootSource s).head? with
    | none => exact absurd (head?_eq_none_iff.1 hc) hne
    | some c =>
      rw [hc, any_some, Bool.and_eq_true, bne_iff_ne] at hsource
      exact ⟨⟨hsource.1, rfl⟩, fun h => hsource.2 (some_inj.1 h)⟩
  have hlines : lines s.defaultFstab =
      [fstabComment, rootLine s, kernelLine "proc".toList, kernelLine "dev".toList] := by
    have hfsline : ∀ fs ∈ ROOT_FILE_SYSTEMS, '\n' ∉ fs := by decide
    rw [defaultFstab_eq]
    refine lines_flatMap ?_
    simp only [forall_mem_cons, not_mem_nil, false_implies, implies_true, and_true]
    refine ⟨by decide +kernel, ⟨?_, ?_⟩, by decide +kernel, by decide +kernel⟩
    · simp only [rootLine, mem_append, mem_cons, not_or]
      exact ⟨hnewline, by decide, ⟨by decide, hfsline _ hfs⟩, by decide⟩
    · rw [hlast]
      decide
  have hcomment : ∀ rest, parseFstabLines 0 [] (fstabComment :: rest) =
      parseFstabLines 1 [] rest := fun rest => rfl
  rw [Accepted, parseFstab, if_neg (not_lt.2 hlength), hlines, hcomment]
  constructor
  · rintro ⟨entries, hparse, hvalidate⟩
    split at hparse
    · cases hparse
    rename_i table htable
    obtain ⟨entry, hentry, hproc, hdev, rfl⟩ :=
      (parseFstabLines_table hfs hroot.1 hroot.2).1 htable
    obtain rfl := Except.ok.inj hparse
    exact ⟨entry, hentry, hproc, hdev,
      (validate_iff (perm_insertionSort _ _)).1 hvalidate⟩
  · rintro ⟨entry, hentry, hproc, hdev, hagrees⟩
    have htable := (parseFstabLines_table hfs hroot.1 hroot.2).2 ⟨entry, hentry, hproc, hdev, rfl⟩
    rw [htable]
    exact ⟨_, rfl, (validate_iff (perm_insertionSort _ _)).2 hagrees⟩

/-! ## White space in the name of the device -/

/-- **The name of the device holds an entry of its own**: its words up to a comment sign are six
fields that mount a disk, and not in a place that is taken. -/
def Detour (device : Str) : Prop :=
  let ws := splitWords isWhitespace (escapeSpaces device)
  (∃ w ∈ ws, w.head? = some '#') ∧
    ∃ source target fs options source' target',
      ws.takeWhile (fun w => w.head? != some '#') =
        [source, target, fs, options, "0".toList, "0".toList] ∧
      decodeField source = .ok source' ∧ "/dev/".toList <+: source' ∧ canonicalPath source' ∧
      decodeField target = .ok target' ∧ canonicalPath target' ∧
      target' ∉ [['/'], "/proc".toList, "/dev".toList] ∧
      fs ∈ ["fat".toList, "ext4".toList] ∧
      ∀ option ∈ options.splitOn ',', option ∈ ["defaults".toList, "noauto".toList]

/-- What is known of the device of accepted settings on a disk. -/
structure DiskRoot (s : BootSettings) : Prop where
  rootFs : s.rootFs ∈ ["ext4".toList, "fat".toList]
  device : "/dev/".toList <+: s.rootDevice
  canonical : canonicalPath s.rootDevice

theorem root_of_validate (h : s.validate = .ok ()) : s.rootFs = "ramfs".toList ∨ DiskRoot s := by
  rw [validate] at h
  split at h
  · cases h
  split at h
  · exact .inl ‹_›
  split at h
  · rename_i hfs
    split at h
    · cases h
    rename_i hdevice
    rw [not_or, not_not, not_not] at hdevice
    exact .inr ⟨mem_pair.2 hfs, hdevice.1, hdevice.2⟩
  · cases h

theorem isField_eq_false_iff : isField w = false ↔ w.head? = some '#' := by
  rw [isField, bne_eq_false_iff_eq]

section Disk

variable {s : BootSettings} (h : DiskRoot s)
include h

theorem DiskRoot.not_ramfs : s.rootFs ≠ "ramfs".toList := by
  rcases mem_pair.1 h.rootFs with hfs | hfs <;> rw [hfs] <;> decide

theorem DiskRoot.rootSource_eq : rootSource s = escapeSpaces s.rootDevice :=
  if_neg h.not_ramfs

/-- The escaped name begins with the slash of the device. -/
theorem DiskRoot.escaped : ∃ rest, escapeSpaces s.rootDevice = '/' :: rest := by
  obtain ⟨rest, hrest⟩ := h.device
  exact ⟨"dev/".toList ++ escapeSpaces rest, by rw [← hrest]; rfl⟩

theorem DiskRoot.mem_device (hc : c ∈ s.rootDevice) :
    isControl c = false ∧ c ≠ '\x22' ∧ c ≠ '\x5c' := by
  rcases h.canonical.2 with hroot | ⟨-, -, hall, -⟩
  · exact absurd (hroot ▸ h.device) (by decide)
  · simpa [not_or] using hall c hc

theorem DiskRoot.accepted_iff (hlength : utf8Len s.defaultFstab ≤ MAX_CONFIG_BYTES) :
    Accepted s ↔
      ∃ entry, parseFields [] (rootFields s) = .ok entry ∧
        entry.target ≠ "/proc".toList ∧ entry.target ≠ "/dev".toList ∧
        (entry.target = ['/'] → entry.filesystem = s.rootFs ∧ entry.source = s.rootDevice) := by
  have hfs : s.rootFs ∈ ROOT_FILE_SYSTEMS := by
    rcases mem_pair.1 h.rootFs with hfs | hfs <;> rw [hfs] <;> decide
  have hnewline : '\n' ∉ rootSource s := by
    rw [h.rootSource_eq, mem_escapeSpaces]
    rintro (⟨hc, -⟩ | ⟨-, hc⟩)
    · exact absurd (h.mem_device hc).1 (by decide)
    · exact absurd hc (by decide)
  have hsource : (rootSource s).head?.any (fun c => !isWhitespace c && c != '#') = true := by
    obtain ⟨rest, hrest⟩ := h.escaped
    rw [h.rootSource_eq, hrest]
    rfl
  rw [accepted_iff_entry hfs hsource hnewline hlength]
  simp only [RootAgrees, h.not_ramfs, reduceIte, false_and, or_false]

/-- **Names with no other white space than spaces** are read back. -/
theorem DiskRoot.accepted_of_spaces (hlength : utf8Len s.defaultFstab ≤ MAX_CONFIG_BYTES)
    (hspaces : ∀ c ∈ s.rootDevice, isWhitespace c = true → c = ' ') : Accepted s := by
  obtain ⟨rest, hrest⟩ := h.escaped
  have hword : splitWords isWhitespace (rootSource s) = [escapeSpaces s.rootDevice] := by
    rw [h.rootSource_eq]
    refine splitWords_self (fun c hc => ?_) (by rw [hrest]; exact cons_ne_nil _ _)
    rcases mem_escapeSpaces.1 hc with ⟨hc, hne⟩ | ⟨-, hc⟩
    · exact Bool.eq_false_iff.2 fun hspace => hne (hspaces c hc hspace)
    · have hescape : ∀ c ∈ "\x5c040".toList, isWhitespace c = false := by decide
      exact hescape c hc
  have hbackslash : '\x5c' ∉ s.rootDevice := fun hc => (h.mem_device hc).2.2 rfl
  have hfs : ∀ fs ∈ ["ext4".toList, "fat".toList], isField fs = true ∧
      fs ∈ ["fat".toList, "ext4".toList] ∧ fs ∈ ROOT_FILE_SYSTEMS ∧
      parseOptions fs ("defaults".toList.splitOn ',') false .default [] =
        .ok (false, .default) := by
    intro fs hmem
    rcases mem_pair.1 hmem with rfl | rfl <;> exact ⟨by decide, by decide, by decide, rfl⟩
  obtain ⟨hfield, hdisk, hrootfs, hoptions⟩ := hfs _ h.rootFs
  have hfields : rootFields s = [escapeSpaces s.rootDevice, ['/'], s.rootFs, "defaults".toList,
      "0".toList, "0".toList] := by
    rw [rootFields, hword, singleton_append, takeWhile_eq_self_iff]
    have hsource : isField (escapeSpaces s.rootDevice) = true := by rw [hrest]; rfl
    simp only [forall_mem_cons, not_mem_nil, false_implies, implies_true, and_true]
    exact ⟨hsource, by decide, hfield, by decide, by decide, by decide⟩
  rw [h.accepted_iff hlength, hfields]
  have hslash : (['/'] : Str) ≠ "/proc".toList ∧ (['/'] : Str) ≠ "/dev".toList ∧
      canonicalPath ['/'] := by decide
  refine ⟨⟨s.rootDevice, ['/'], s.rootFs, false, .default⟩, parseFields_ok_iff.2 ?_, hslash.1,
    hslash.2.1, fun _ => ⟨rfl, rfl⟩⟩
  exact ⟨decodeField_escapeSpaces hbackslash, rfl, hslash.2.2, fun _ he => absurd he not_mem_nil,
    .inl ⟨hdisk, h.device, h.canonical⟩, hoptions, ⟨rfl, rfl⟩, by simp [hrootfs], by decide, rfl⟩

/-- The escaped name does not end in white space. -/
theorem DiskRoot.last_escaped :
    ∃ z, (escapeSpaces s.rootDevice).getLast? = some z ∧ isWhitespace z = false := by
  have htrim : trim s.rootDevice = s.rootDevice := h.canonical.1
  have hne : trim s.rootDevice ≠ [] := by
    rw [htrim]
    intro hnil
    exact absurd (hnil ▸ h.device) (by decide)
  have hlast : ¬ isWhitespace ((trim s.rootDevice).getLast hne) = true :=
    rdropWhile_last_not _ _ hne
  have hsome := getLast?_eq_some_getLast hne
  generalize (trim s.rootDevice).getLast hne = z at hlast hsome
  rw [htrim] at hsome
  obtain ⟨d, hd⟩ := getLast?_eq_some_iff.1 hsome
  have hz : z ≠ ' ' := by
    rintro rfl
    exact hlast rfl
  refine ⟨z, ?_, Bool.eq_false_iff.2 hlast⟩
  rw [hd, escapeSpaces, flatMap_append, flatMap_singleton, if_neg hz,
    getLast?_concat]

/-- Behind a comment sign in the name nothing of the line is left. -/
theorem DiskRoot.rootFields_of_comment
    (hw : w ∈ splitWords isWhitespace (escapeSpaces s.rootDevice)) (hhash : isField w = false) :
    rootFields s = (splitWords isWhitespace (escapeSpaces s.rootDevice)).takeWhile isField := by
  rw [rootFields, h.rootSource_eq, takeWhile_append, if_neg]
  intro hall
  have hself := (takeWhile_sublist isField).eq_of_length hall
  have hfield := mem_takeWhile_imp (hself.symm ▸ hw)
  rw [hhash] at hfield
  cases hfield

/-- The first word of the name, and what it decodes to, begin with a slash. -/
theorem DiskRoot.head_source
    (hfields : (splitWords isWhitespace (escapeSpaces s.rootDevice)).takeWhile isField =
      source :: fields) (hdecode : decodeField source = .ok source') :
    source'.head? = some '/' := by
  obtain ⟨rest, hrest⟩ := h.escaped
  obtain ⟨w, ws, hwords⟩ := splitWords_cons_neg (p := isWhitespace) (c := '/') rfl rest
  rw [hrest, hwords] at hfields
  obtain rfl := (cons.inj hfields).1
  rw [decodeField_cons (by decide)] at hdecode
  obtain ⟨v, -, rfl⟩ := map_cons_eq_ok hdecode
  rfl

section Space

variable (hc : c ∈ s.rootDevice) (hspace : isWhitespace c = true) (hne : c ≠ ' ')
include hc hspace hne

/-- Other white space cuts the name. -/
theorem DiskRoot.two_words : 2 ≤ (splitWords isWhitespace (escapeSpaces s.rootDevice)).length := by
  obtain ⟨rest, hrest⟩ := h.escaped
  obtain ⟨a, b, hab⟩ := append_of_mem (mem_escapeSpaces.2 (.inl ⟨hc, hne⟩))
  -- a slash stands before the white space, and something else than white space behind it
  have ha : '/' ∈ a := by
    rw [hrest] at hab
    cases a with
    | nil =>
      obtain rfl := (cons.inj hab).1
      cases hspace
    | cons x a =>
      obtain rfl := (cons.inj hab).1
      exact mem_cons_self
  have hb : ∃ x ∈ b, isWhitespace x = false := by
    obtain ⟨z, hlast, hz⟩ := h.last_escaped
    rw [hab] at hlast
    cases b with
    | nil =>
      rw [getLast?_concat] at hlast
      obtain rfl := some_inj.1 hlast
      rw [hspace] at hz
      cases hz
    | cons x b =>
      rw [append_cons, getLast?_append_of_ne_nil _ (cons_ne_nil x b)] at hlast
      exact ⟨z, mem_of_getLast? hlast, hz⟩
  obtain ⟨x, hx, hxspace⟩ := hb
  have hwa := length_pos_iff.2 (splitWords_ne_nil ha (p := isWhitespace) rfl)
  have hwb := length_pos_iff.2 (splitWords_ne_nil hx hxspace)
  rw [hab, splitWords_append hspace, length_append]
  omega

/-- Without a comment sign there are too many fields. -/
theorem DiskRoot.comment_of_six (hsix : (rootFields s).length = 6) :
    ∃ w ∈ splitWords isWhitespace (escapeSpaces s.rootDevice), isField w = false := by
  by_contra hnone
  have hall : ∀ w ∈ splitWords isWhitespace (escapeSpaces s.rootDevice), isField w = true :=
    fun w hw => Bool.eq_true_of_not_eq_false fun hfalse => hnone ⟨w, hw, hfalse⟩
  have hrest : ∀ fs ∈ ["ext4".toList, "fat".toList],
      [['/'], fs, "defaults".toList, "0".toList, "0".toList].takeWhile isField =
        [['/'], fs, "defaults".toList, "0".toList, "0".toList] := by decide
  rw [rootFields, h.rootSource_eq, takeWhile_append_of_pos hall, hrest _ h.rootFs,
    length_append] at hsix
  have htwo := h.two_words hc hspace hne
  change _ + 5 = 6 at hsix
  omega

/-- The first word does not have the white space that ends it. -/
theorem DiskRoot.source_ne (hsource : source ∈ splitWords isWhitespace (escapeSpaces s.rootDevice))
    (hdecode : decodeField source = .ok source') : source' ≠ s.rootDevice := by
  rintro rfl
  rcases mem_of_decodeField hdecode hc with hmem | hmem
  · rw [eq_false_of_mem_splitWords hsource hmem] at hspace
    cases hspace
  have hcontrol := (h.mem_device hc).1
  simp only [mem_cons, not_mem_nil, or_false] at hmem
  rcases hmem with rfl | rfl | rfl
  · exact hne rfl
  · exact absurd hcontrol (by decide)
  · exact absurd hspace (by decide)

/-- **Names with other white space**: the table is accepted only by the detour. -/
theorem DiskRoot.accepted_iff_detour (hlength : utf8Len s.defaultFstab ≤ MAX_CONFIG_BYTES) :
    Accepted s ↔ Detour s.rootDevice := by
  rw [h.accepted_iff hlength]
  constructor
  · rintro ⟨entry, hentry, hproc, hdev, hroot⟩
    obtain ⟨source, target, fs, options, dump, fsck, hsix⟩ := six_of_parseFields hentry
    obtain ⟨w, hw, hhash⟩ := h.comment_of_six hc hspace hne (by rw [hsix]; rfl)
    have htake := (h.rootFields_of_comment hw hhash).symm.trans hsix
    rw [hsix] at hentry
    obtain ⟨hsource, htarget, hcanonical, -, hallowed, hoptions, ⟨rfl, rfl⟩, -, -, -⟩ :=
      parseFields_ok_iff.1 hentry
    have hslash := h.head_source htake hsource
    have hmem : source ∈ splitWords isWhitespace (escapeSpaces s.rootDevice) :=
      (takeWhile_sublist _).subset (htake ▸ mem_cons_self)
    -- a source with a slash is a disk
    have hdisk : fs ∈ ["fat".toList, "ext4".toList] ∧ "/dev/".toList <+: entry.source ∧
        canonicalPath entry.source := by
      rcases hallowed with hdisk | ⟨hfs, hsource'⟩
      · exact hdisk
      have hkernel : ∀ fs ∈ ["ramfs".toList, "tmpfs".toList, "proc".toList, "dev".toList],
          fs.head? ≠ some '/' := by decide
      rcases hsource' with hsource' | hsource'
      · exact absurd (hsource' ▸ hslash) (by decide)
      · exact absurd (hsource' ▸ hslash) (hkernel fs hfs)
    have hnot : fs ≠ "tmpfs".toList := by
      rcases mem_pair.1 hdisk.1 with rfl | rfl <;> decide
    refine ⟨⟨w, hw, isField_eq_false_iff.1 hhash⟩, source, target, fs, options, entry.source,
      entry.target, htake, hsource, hdisk.2.1, hdisk.2.2, htarget, hcanonical, ?_, hdisk.1,
      (parseOptions_ok_iff hnot _ _ _ _).1 ⟨_, hoptions⟩⟩
    simp only [mem_cons, not_mem_nil, or_false, not_or]
    exact ⟨fun hslash => h.source_ne hc hspace hne hmem hsource (hroot hslash).2, hproc, hdev⟩
  · rintro ⟨⟨w, hw, hhash⟩, source, target, fs, options, source', target', htake, hsource, hdevice,
      hcanonical, htarget, hcanonical', hplace, hfs, hoptions⟩
    have hfields : rootFields s = [source, target, fs, options, "0".toList, "0".toList] :=
      (h.rootFields_of_comment hw (isField_eq_false_iff.2 hhash)).trans htake
    have hnot : fs ≠ "tmpfs".toList := by
      rcases mem_pair.1 hfs with rfl | rfl <;> decide
    obtain ⟨⟨noauto, tmpfs⟩, hparse⟩ := (parseOptions_ok_iff hnot _ false .default []).2 hoptions
    simp only [mem_cons, not_mem_nil, or_false, not_or] at hplace
    rw [hfields]
    refine ⟨⟨source', target', fs, noauto, tmpfs⟩, parseFields_ok_iff.2 ?_, hplace.2.1, hplace.2.2,
      fun hslash => absurd hslash hplace.1⟩
    exact ⟨hsource, htarget, hcanonical', fun _ he => absurd he not_mem_nil,
      .inl ⟨hfs, hdevice, hcanonical⟩, hparse, ⟨rfl, rfl⟩, fun hslash => hplace.1 hslash.1,
      by decide, rfl⟩

end Space

end Disk

theorem accepted_of_ramfs (h : s.rootFs = "ramfs".toList)
    (hlength : utf8Len s.defaultFstab ≤ MAX_CONFIG_BYTES) : Accepted s := by
  have hsource : rootSource s = "none".toList := if_pos h
  have hfields : rootFields s = ["none".toList, ['/'], "ramfs".toList, "defaults".toList,
      "0".toList, "0".toList] := by
    rw [rootFields, hsource, h]
    decide +kernel
  rw [accepted_iff_entry (by rw [h]; decide) (by rw [hsource]; decide) (by rw [hsource]; decide)
    hlength, hfields]
  refine ⟨⟨"none".toList, ['/'], "ramfs".toList, false, .default⟩, rfl, by decide, by decide,
    fun _ => ⟨h.symm, .inl (if_pos h).symm⟩⟩

/-- **When the default table of accepted settings is accepted.** -/
theorem fstab_accepted_iff (contents : Str) (s : BootSettings) (h : parse contents = .ok s)
    (hlength : utf8Len s.defaultFstab ≤ MAX_CONFIG_BYTES) :
    (∃ entries, parseFstab s.defaultFstab = .ok entries ∧
        validateFstabRoot entries s = .ok ()) ↔
      s.rootFs = "ramfs".toList ∨ (∀ c ∈ s.rootDevice, isWhitespace c = true → c = ' ') ∨
        Detour s.rootDevice := by
  rcases root_of_validate (written_of_parse h).2 with hram | hdisk
  · exact iff_of_true (accepted_of_ramfs hram hlength) (.inl hram)
  rw [or_iff_right hdisk.not_ramfs]
  by_cases hspaces : ∀ c ∈ s.rootDevice, isWhitespace c = true → c = ' '
  · exact iff_of_true (hdisk.accepted_of_spaces hlength hspaces) (.inl hspaces)
  rw [or_iff_right hspaces]
  push Not at hspaces
  obtain ⟨c, hc, hspace, hne⟩ := hspaces
  exact hdisk.accepted_iff_detour hc hspace hne hlength

-- The detour: the table has an entry for `/mnt`, and none for the root.
example :
    (parseFstab ({ default with rootDevice :=
        "/dev/x\u00a0/mnt\u00a0ext4\u00a0defaults\u00a00\u00a00\u00a0#".toList }).defaultFstab).map
      (fun entries => entries.map FstabEntry.target) =
        .ok ["/mnt".toList, "/proc".toList, "/dev".toList] := by
  decide +kernel

/-- A device with a no-break space in its name. -/
def noBreakSettings : BootSettings :=
  { default with rootDevice := "/dev/my\u00a0disk".toList }

/-- The settings are accepted, and the table that is made from them is not. -/
theorem no_break_space_refused :
    parse "root_device = \x22/dev/my\u00a0disk\x22".toList = .ok noBreakSettings ∧
      utf8Len noBreakSettings.defaultFstab ≤ MAX_CONFIG_BYTES ∧
      parseFstab noBreakSettings.defaultFstab =
        .error "fstab line 2: expected six fields".toList := by
  decide +kernel

/-- A space in the name is escaped. -/
theorem fstab_accepted_sample :
    ∃ entries, parseFstab sampleSettings.defaultFstab = .ok entries ∧
      validateFstabRoot entries sampleSettings = .ok () := by
  have hparse : parse sampleConfig = .ok sampleSettings := by decide +kernel
  exact (fstab_accepted_iff sampleConfig sampleSettings hparse (by decide +kernel)).2
    (.inr (.inl (by decide)))

end Krust.Boot
