import Krust.Boot.Fstab

/-!
# The order of the mounts

`parse_fstab` sorts the entries by the number of slashes in their targets, and `mount_filesystems`
mounts them in that order.  A target has more slashes than the directories above it, so parents come
before their children (`fstab_ordered`).  The root has as many slashes as what lies directly below
it, but it is mounted before the table is read.

When a disk is made for such a table, it gets the directories of the targets and those above them,
in an order in which each can be made when its turn comes (`directories_complete`).
-/

set_option autoImplicit false

namespace Krust.Boot

open Lib Vfs List

variable {entries entries' : List FstabEntry} {entry : FstabEntry}

/-- What the entries of a table have been checked for. -/
structure Checked (entries : List FstabEntry) : Prop where
  length : entries.length ≤ 64
  targets : (entries.map FstabEntry.target).Nodup
  canonical : ∀ e ∈ entries, canonicalPath e.target
  source : ∀ e ∈ entries, SourceAllowed e.filesystem e.source

theorem Checked.concat (h : Checked entries) {fields : List Str}
    (hentry : parseFields entries fields = .ok entry) : Checked (entries ++ [entry]) := by
  obtain ⟨source, target, fs, options, dump, fsck, rfl⟩ := six_of_parseFields hentry
  obtain ⟨-, -, hcanonical, hnew, hallowed, -, -, -, hcount, rfl⟩ := parseFields_ok_iff.1 hentry
  refine ⟨by rwa [length_append], ?_, forall_mem_append.2 ⟨h.canonical, by simpa using hcanonical⟩,
    forall_mem_append.2 ⟨h.source, by simpa using hallowed⟩⟩
  rw [map_append, map_singleton, ← concat_eq_append]
  exact h.targets.concat (by simpa using hnew)

theorem Checked.parseFstabLines {lines : List Str} {index : Nat} (h : Checked entries)
    (hparse : Boot.parseFstabLines index entries lines = .ok entries') : Checked entries' := by
  fun_induction Boot.parseFstabLines index entries lines with
  | case1 => exact Except.ok.inj hparse ▸ h
  | case2 index entries line rest _ _ ih => exact ih h hparse
  | case3 => cases hparse
  | case4 index entries line rest _ _ entry hentry ih => exact ih (h.concat hentry) hparse

theorem Checked.perm (h : Checked entries) (hperm : entries'.Perm entries) : Checked entries' :=
  ⟨hperm.length_eq.trans_le h.length, (hperm.map _).nodup_iff.2 h.targets,
    fun e he => h.canonical e (hperm.mem_iff.1 he), fun e he => h.source e (hperm.mem_iff.1 he)⟩

theorem Checked.parseFstab {contents : Str} (h : Boot.parseFstab contents = .ok entries) :
    ∃ original, Boot.parseFstabLines 0 [] (lines contents) = .ok original ∧ Checked original ∧
      entries = original.insertionSort fun a b => a.target.count '/' ≤ b.target.count '/' := by
  rw [Boot.parseFstab] at h
  split at h
  · cases h
  split at h
  · cases h
  rename_i original horiginal
  have hnil : Checked [] := ⟨Nat.zero_le _, nodup_nil, forall_mem_nil _, forall_mem_nil _⟩
  exact ⟨original, horiginal, hnil.parseFstabLines horiginal, (Except.ok.inj h).symm⟩

/-- The number of slashes, by which the entries are sorted. -/
def FstabEntry.depth (entry : FstabEntry) : Nat := entry.target.count '/'

/-- The target lies above the other one; neither of them is the root. -/
def Ancestor (p q : Str) : Prop := p ++ ['/'] <+: q

theorem Ancestor.count_lt {p q : Str} (h : Ancestor p q) : p.count '/' < q.count '/' := by
  have hcount := h.sublist.count_le '/'
  rwa [count_append, count_singleton_self] at hcount

/-- The entries that `mount_filesystems` mounts, in this order. -/
def mounts (entries : List FstabEntry) : List FstabEntry :=
  entries.filter fun entry => entry.target ≠ ['/'] ∧ entry.noauto = false

/-- **What `parse_fstab` accepts**: at most 64 entries with different canonical targets, each from a
source that fits its file system.  They are those of the file, sorted in such a way that entries
with as many slashes keep their order, and a parent is mounted before its children. -/
theorem fstab_ordered (contents : Str) (h : parseFstab contents = .ok entries) :
    Checked entries ∧
    (∃ original, parseFstabLines 0 [] (lines contents) = .ok original ∧ entries.Perm original ∧
      ∀ n, entries.filter (·.depth = n) = original.filter (·.depth = n)) ∧
    entries.Pairwise (fun a b => ¬ Ancestor b.target a.target) ∧
    (mounts entries).Pairwise fun a b => ¬ Ancestor b.target a.target := by
  obtain ⟨original, horiginal, hchecked, rfl⟩ := Checked.parseFstab h
  have hperm := perm_insertionSort (fun a b : FstabEntry => a.depth ≤ b.depth) original
  have hsorted := pairwise_insertionSort (fun a b : FstabEntry => a.depth ≤ b.depth) original
  have horder := hsorted.imp (S := fun a b : FstabEntry => ¬ Ancestor b.target a.target)
    fun hle habove => absurd habove.count_lt (not_lt.2 hle)
  refine ⟨hchecked.perm hperm, ⟨original, horiginal, hperm, fun n => ?_⟩, horder, horder.filter _⟩
  -- The entries of one depth are sorted as they stand, so they are found in this order.
  have hsame : (original.filter (·.depth = n)).Pairwise fun a b => a.depth ≤ b.depth := by
    refine pairwise_of_forall_mem_list fun a ha b hb => ?_
    simp only [mem_filter, decide_eq_true_eq] at ha hb
    omega
  have hsub := (sublist_insertionSort hsame filter_sublist).filter (·.depth = n)
  rw [filter_filter] at hsub
  simp only [Bool.and_self] at hsub
  exact (hsub.eq_of_length (hperm.filter _).length_eq.symm).symm

/-- A table in which the child stands before the parent. -/
def childFirst : Str := "none /a/b tmpfs defaults 0 0\nnone /a tmpfs defaults 0 0\n".toList

theorem parseFstab_childFirst : parseFstab childFirst =
    .ok [⟨"none".toList, "/a".toList, "tmpfs".toList, false, .default⟩,
      ⟨"none".toList, "/a/b".toList, "tmpfs".toList, false, .default⟩] := by
  decide +kernel

theorem fstab_ordered_childFirst : ∃ entries, parseFstab childFirst = .ok entries ∧
    (mounts entries).map (·.target) = ["/a".toList, "/a/b".toList] ∧
    (mounts entries).Pairwise fun a b => ¬ Ancestor b.target a.target :=
  ⟨_, parseFstab_childFirst, rfl, (fstab_ordered childFirst parseFstab_childFirst).2.2.2⟩

/-! ## The directories of the targets -/

/-- The loop over the components of a target, with the path so far and the directories. -/
def addPath : Str → List Str → List Str → List Str
  | _, [], dirs => dirs
  | path, component :: components, dirs =>
    let path := path ++ '/' :: component
    addPath path components (if path ∈ dirs then dirs else dirs ++ [path])

/-- The loop over the entries. -/
def addPaths (entries : List FstabEntry) (dirs : List Str) : List Str :=
  entries.foldl (fun dirs entry => addPath [] (segments '/' entry.target) dirs) dirs

/-- `DiskMountConfig::directories`; the sort is stable. -/
def directories (entries : List FstabEntry) : List Str :=
  (addPaths entries ["/etc".toList]).insertionSort fun a b => a.count '/' ≤ b.count '/'

/-- The directory is the target or lies above it, and is not the root: that is a slash, or the
nothing in front of the first slash. -/
def OnWay (d target : Str) : Prop := d ∉ [[], ['/']] ∧ (d = target ∨ Ancestor d target)

/-- The loop adds the paths of the first components, as far as they are new. -/
theorem addPath_spec (components : List Str) : ∀ (path : Str) (dirs : List Str), dirs.Nodup →
    (addPath path components dirs).Nodup ∧ ∀ d, d ∈ addPath path components dirs ↔
      d ∈ dirs ∨ ∃ s ss, s :: ss <+: components ∧ d = path ++ (s :: ss).flatMap ('/' :: ·) := by
  induction components with
  | nil => exact fun path dirs h => ⟨h, by simp [addPath]⟩
  | cons component components ih =>
    intro path dirs h
    rw [addPath]
    generalize hpath : path ++ '/' :: component = path'
    have hadd : (if path' ∈ dirs then dirs else dirs ++ [path']).Nodup ∧
        ∀ d, d ∈ (if path' ∈ dirs then dirs else dirs ++ [path']) ↔ d ∈ dirs ∨ d = path' := by
      split_ifs with hmem
      · exact ⟨h, fun d => ⟨.inl, Or.rec id (· ▸ hmem)⟩⟩
      · exact ⟨concat_eq_append ▸ h.concat hmem, by simp⟩
    obtain ⟨hnodup, hmem⟩ := ih path' _ hadd.1
    refine ⟨hnodup, fun d => ?_⟩
    rw [hmem, hadd.2, or_assoc]
    refine or_congr_right ⟨?_, ?_⟩
    · rintro (rfl | ⟨s, ss, hs, rfl⟩)
      · exact ⟨component, [], by simp, by simp [hpath]⟩
      · exact ⟨component, s :: ss, by simpa using hs, by simp [← hpath]⟩
    · rintro ⟨s, ss, hs, rfl⟩
      obtain ⟨rfl, hss⟩ := cons_prefix_cons.1 hs
      rcases ss with _ | ⟨t, ts⟩
      · exact .inl (by simp [hpath])
      · exact .inr ⟨t, ts, hss, by simp [← hpath]⟩

/-- **The paths of the first components** of a target are what lies on the way to it. -/
theorem onWay_iff {target : Str} (h : canonicalPath target) (d : Str) :
    OnWay d target ↔
      ∃ s ss, s :: ss <+: segments '/' target ∧ d = (s :: ss).flatMap ('/' :: ·) := by
  obtain ⟨-, rfl | ⟨hhead, -, -, hparts⟩⟩ := h
  · -- Nothing lies on the way to the root.
    refine iff_of_false ?_ (by simp)
    rintro ⟨hroot, rfl | ⟨rest, hrest⟩⟩
    · simp at hroot
    · cases d <;> simp_all
  obtain ⟨rest, rfl⟩ := head?_eq_some_iff.1 hhead
  rw [tail_cons] at hparts
  have hsegments : ∀ s ∈ rest.splitOn '/', IsSegment '/' s :=
    fun s hs => ⟨fun hnil => hparts s hs (by simp [hnil]), notMem_of_mem_splitOn hs⟩
  have hjoined : joined '/' (rest.splitOn '/') = '/' :: rest := by
    rw [joined_eq_intercalate, intercalate_splitOn]
  rw [← hjoined, segments_joined hsegments]
  constructor
  · rintro ⟨hroot, rfl | ⟨tail, htail⟩⟩
    · obtain ⟨s, ss, hss⟩ := exists_cons_of_ne_nil (splitOn_ne_nil '/' rest)
      exact ⟨s, ss, hss ▸ prefix_rfl, by rw [hss]; rfl⟩
    rcases d with _ | ⟨c, d⟩
    · simp at hroot
    obtain ⟨rfl, rfl⟩ : c = '/' ∧ d ++ '/' :: tail = rest := by simpa [hjoined] using htail
    obtain ⟨s, ss, hss⟩ := exists_cons_of_ne_nil (splitOn_ne_nil '/' d)
    refine ⟨s, ss, ?_, ?_⟩
    · rw [splitOn_append_cons_self, hss]
      exact prefix_append _ _
    · change _ = joined '/' (s :: ss)
      rw [← hss, joined_eq_intercalate, intercalate_splitOn]
  · rintro ⟨s, ss, hss, rfl⟩
    have hs := fun t ht => hsegments t (hss.subset ht)
    refine ⟨?_, ?_⟩
    · have hne := (hs s mem_cons_self).1
      simp [hne]
    · rcases (joined_prefix_iff hs hsegments (cons_ne_nil s ss)).1 hss with heq | ⟨tail, heq⟩
      · exact .inl heq.symm
      · exact .inr ⟨tail, by rw [heq, append_assoc]; rfl⟩

theorem addPaths_spec (hcanonical : ∀ entry ∈ entries, canonicalPath entry.target) :
    ∀ dirs : List Str, dirs.Nodup → (addPaths entries dirs).Nodup ∧
      ∀ d, d ∈ addPaths entries dirs ↔ d ∈ dirs ∨ ∃ entry ∈ entries, OnWay d entry.target := by
  induction entries with
  | nil => exact fun dirs hdirs => ⟨hdirs, by simp [addPaths]⟩
  | cons entry entries ih =>
    intro dirs hdirs
    rw [forall_mem_cons] at hcanonical
    obtain ⟨hnodup, hmem⟩ := addPath_spec (segments '/' entry.target) [] dirs hdirs
    obtain ⟨hnodup', hmem'⟩ := ih hcanonical.2 _ hnodup
    refine ⟨hnodup', fun d => (hmem' d).trans ?_⟩
    rw [hmem, or_assoc, exists_mem_cons_iff, onWay_iff hcanonical.1]
    rfl

/-- **The directories that a new disk gets** are `/etc` and what lies on the way to the targets,
each of them once, and none stands before one above it. -/
theorem directories_complete (contents : Str) (h : parseFstab contents = .ok entries) :
    (directories entries).Nodup ∧
    (∀ d, d ∈ directories entries ↔
      d = "/etc".toList ∨ ∃ entry ∈ entries, OnWay d entry.target) ∧
    (directories entries).Pairwise fun a b => ¬ Ancestor b a := by
  obtain ⟨original, -, hchecked, hentries⟩ := Checked.parseFstab h
  have hperm := perm_insertionSort (fun a b => a.target.count '/' ≤ b.target.count '/') original
  obtain ⟨hnodup, hmem⟩ := addPaths_spec (hchecked.perm (hentries ▸ hperm)).canonical
    ["/etc".toList] (nodup_singleton _)
  have hperm := perm_insertionSort (fun a b : Str => a.count '/' ≤ b.count '/')
    (addPaths entries ["/etc".toList])
  have hsorted := pairwise_insertionSort (fun a b : Str => a.count '/' ≤ b.count '/')
    (addPaths entries ["/etc".toList])
  refine ⟨hperm.nodup_iff.2 hnodup, fun d => ?_, hsorted.imp fun hle habove => ?_⟩
  · rw [directories, hperm.mem_iff, hmem, mem_singleton]
  · exact absurd habove.count_lt (not_lt.2 hle)

theorem directories_complete_childFirst : ∃ entries, parseFstab childFirst = .ok entries ∧
    directories entries = ["/etc".toList, "/a".toList, "/a/b".toList] ∧
    (directories entries).Pairwise fun a b => ¬ Ancestor b a :=
  ⟨_, parseFstab_childFirst, by decide, (directories_complete _ parseFstab_childFirst).2.2⟩

end Krust.Boot
