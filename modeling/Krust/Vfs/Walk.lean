import Krust.Vfs.Resolve
import Krust.Memfs.Edits

/-!
# Walking down a path

A lookup starts at the root of the file system that is mounted furthest down the path, and follows
one entry for each segment that is left.  So the lookup of a path is the lookup of its directory and
one step more (`lookupSegments_concat`), unless something is mounted right there.  It finds the same
inode again as long as the entries it has followed are there (`lookupSegments_stays`).
-/

set_option autoImplicit false

namespace Krust.Vfs

open Lib Prog List Option

/-- The mount point below which a path is looked up. -/
def Manager.mountOf {F : Type} (t : Manager F) (ss : List Str) : Option (MountPoint F) :=
  maxByKey (fun m => utf8Len m.path) (t.mounts.filter fun m => decide (m.segments <+: ss))

namespace System

open Manager

variable {F : Type} (foreign foreign' : Foreign F) (v v' : System F) {ss us q : List Str} {s : Str}
  {k d : Nat}

def walk (inode : Inode F) (ss : List Str) : Except FsError (Inode F) :=
  ss.foldlM (v.lookup foreign) inode

/-- A lookup in terms of the segments. -/
def lookupSegments (ss : List Str) : Except FsError (Inode F) :=
  match v.mountOf ss with
  | some m => v.walk foreign (v.rootInode m.fs) (ss.drop m.segments.length)
  | none =>
    match v.root with
    | none => .error .notFound
    | some fs => v.walk foreign (v.rootInode fs) ss

variable {m : MountPoint F}

theorem mountOf_some (h : v.mountOf ss = some m) :
    m.segments <+: ss ∧
      ∀ m' ∈ v.mounts, m'.segments <+: ss → utf8Len m'.path ≤ utf8Len m.path := by
  have hspec := maxByKey_spec (fun m => utf8Len m.path)
    (v.mounts.filter fun m => decide (m.segments <+: ss))
  rw [mountOf] at h
  rw [h] at hspec
  obtain ⟨hmem, hmax⟩ := hspec
  exact ⟨of_decide_eq_true (mem_filter.1 hmem).2, fun m' hm' hpre' =>
    hmax m' (mem_filter.2 ⟨hm', decide_eq_true hpre'⟩)⟩

theorem splitSegments_rest (hss : Normal ss) (hpre : m.segments <+: ss) :
    splitSegments (if joinAbsoluteSegments ss = m.path then []
      else (joinAbsoluteSegments ss).drop (m.path.length + 1)) = ss.drop m.segments.length := by
  obtain ⟨-, hnormal, hpath⟩ := m.segments_spec
  split
  · rename_i heq
    rw [hpath] at heq
    rw [joined_injective hss.segments hnormal.segments heq, drop_length]
    rfl
  · rename_i hne
    have hcanonical : Canonical (joinAbsoluteSegments ss) := ⟨ss, hss, rfl⟩
    have hsplit := splitSegments_joined hss
    obtain ⟨rest, -, hrest⟩ := rest_of_above hcanonical (by rwa [hsplit]) hne
    rw [hrest, ← drop_drop, drop_left]
    rw [hrest, splitSegments, segments_append] at hsplit
    have hdrop : (splitSegments m.path ++ segments '/' rest).drop (splitSegments m.path).length =
        segments '/' rest := drop_left
    rw [← hsplit]
    exact hdrop.symm

theorem mountOf_nil : v.mountOf [] = none := by
  cases h : v.mountOf [] with
  | none => rfl
  | some m => exact absurd (prefix_nil.1 (v.mountOf_some h).1) m.segments_spec.1

theorem lookupExact_joined (hss : Normal ss) :
    v.lookupExact foreign (joinAbsoluteSegments ss) = v.lookupSegments foreign ss := by
  have hfilter : (v.mounts.filter fun m => m.covers (joinAbsoluteSegments ss)) =
      v.mounts.filter fun m => decide (m.segments <+: ss) := by
    refine filter_congr fun m _ => ?_
    rw [Bool.eq_iff_iff, m.covers_iff hss, decide_eq_true_iff]
  have htail : splitSegments (joinAbsoluteSegments ss).tail = ss := by
    conv_rhs => rw [← splitSegments_joined hss]
    cases ss with
    | nil => rfl
    | cons s ss => exact (segments_cons _).symm
  rw [lookupExact, resolvePath, hfilter, ← mountOf, lookupSegments]
  by_cases hnil : ss = []
  · subst hnil
    rw [mountOf_nil]
    cases v.root <;> rfl
  rw [if_neg (mt (joined_eq_root_iff hss).1 hnil)]
  cases hm : v.mountOf ss with
  | none =>
    rcases v.root with _ | fs
    · rfl
    show (splitSegments (joinAbsoluteSegments ss).tail).foldlM _ _ = _
    rw [htail]
    rfl
  | some m =>
    show (splitSegments (if joinAbsoluteSegments ss = m.path then []
      else (joinAbsoluteSegments ss).drop (m.path.length + 1))).foldlM _ _ = _
    rw [splitSegments_rest hss (v.mountOf_some hm).1]
    rfl

theorem walk_concat (inode : Inode F) (ss : List Str) (s : Str) :
    v.walk foreign inode (ss ++ [s]) =
      (v.walk foreign inode ss).bind fun i => v.lookup foreign i s := by
  rw [walk, foldlM_append]
  simp only [foldlM_cons, foldlM_nil, bind_pure]
  rfl

/-- **The lookup of a path is that of its directory and one step more**, where nothing is
mounted. -/
theorem lookupSegments_concat (hno : ∀ m ∈ v.mounts, m.segments ≠ us ++ [s]) :
    v.lookupSegments foreign (us ++ [s]) =
      (v.lookupSegments foreign us).bind fun i => v.lookup foreign i s := by
  have hmount : v.mountOf (us ++ [s]) = v.mountOf us := by
    rw [mountOf]
    congr 1
    refine filter_congr fun m hm => ?_
    rw [decide_eq_decide, prefix_concat_iff]
    exact or_iff_right (hno m hm)
  rw [lookupSegments, lookupSegments, hmount]
  cases hm : v.mountOf us with
  | none =>
    cases v.root with
    | none => rfl
    | some fs => exact v.walk_concat foreign _ us s
  | some m =>
    have hle := (v.mountOf_some hm).1.length_le
    dsimp only
    rw [drop_append_of_le_length hle, walk_concat]

theorem lookupSegments_mount (hm : m ∈ v.mounts) (hss : m.segments = ss) :
    ∃ m', v.mountOf ss = some m' ∧ v.lookupSegments foreign ss = .ok (v.rootInode m'.fs) := by
  subst hss
  cases hm' : v.mountOf m.segments with
  | none =>
    have hspec := maxByKey_spec (fun m => utf8Len m.path)
      (v.mounts.filter fun m' => decide (m'.segments <+: m.segments))
    rw [mountOf] at hm'
    rw [hm'] at hspec
    exact absurd (decide_eq_true (prefix_refl m.segments))
      (filter_eq_nil_iff.1 hspec m hm)
  | some m' =>
    obtain ⟨hpre, hmax⟩ := v.mountOf_some hm'
    have hle := hmax m hm (prefix_refl _)
    have hlength : m.segments.length ≤ m'.segments.length := by
      by_contra hlt
      have := m'.utf8Len_lt m hpre (prefix_refl _) (Nat.lt_of_not_le hlt)
      omega
    refine ⟨m', rfl, ?_⟩
    rw [lookupSegments, hm']
    dsimp only
    rw [drop_eq_nil_of_le hlength]
    rfl

/-! ## What a lookup relies on -/

theorem fs_lookup_eq_ok_iff {fs : Memfs.Fs} (hnames : ((fs.entries d).map Prod.fst).Nodup)
    (name : Str) (j : Nat) : fs.lookup d name = .ok j ↔ (name, j) ∈ fs.entries d := by
  rw [Memfs.Fs.lookup]
  rcases hlisting : fs.listing d with e | es
  · rw [Memfs.entries_eq, hlisting]
    simp [Except.toOption]
  rw [Memfs.entries_of_listing hlisting] at hnames ⊢
  dsimp only
  constructor
  · intro h
    cases hfind : Memfs.findEntry es name with
    | error e => simp [hfind, Except.map] at h
    | ok found =>
      obtain rfl : found.2 = j := by simpa [hfind, Except.map] using h
      exact mem_of_getElem? (Memfs.findEntry_ok hfind)
  · intro h
    obtain ⟨index, hindex⟩ := Memfs.findEntry_of_mem h hnames
    rw [hindex]
    rfl

/-- A lookup in a directory that exists finds what is listed there. -/
theorem lookup_eq_ok_iff (hd : d ∈ (v.memory k).fs.live) {i : Inode F} :
    v.lookup foreign (.memory k d) s = .ok i ↔
      ∃ j, i = .memory k j ∧ (s, j) ∈ (v.memory k).fs.entries d := by
  have hfs := fs_lookup_eq_ok_iff ((v.reachable k).good.tree.sound d hd).names s
  rw [lookup]
  cases hlookup : (v.memory k).fs.lookup d s with
  | error e =>
    refine iff_of_false (by simp [Except.map]) ?_
    rintro ⟨j, -, hj⟩
    rw [← hfs, hlookup] at hj
    exact nomatch hj
  | ok j =>
    simp only [Except.map, Except.ok.injEq]
    constructor
    · rintro rfl
      exact ⟨j, rfl, (hfs j).1 hlookup⟩
    · rintro ⟨j', rfl, hj'⟩
      rw [← hfs, hlookup] at hj'
      rw [Except.ok.inj hj']

/-- A lookup of a file that is not kept in memory stays outside. -/
theorem lookup_foreign_ne {f : F} : v.lookup foreign (.foreign f) s ≠ .ok (.memory k d) := by
  rw [lookup]
  cases foreign.lookup f s <;> simp [Except.map]

theorem lookupSegments_concat_memory (hno : ∀ m ∈ v.mounts, m.segments ≠ us ++ [s]) :
    v.lookupSegments foreign (us ++ [s]) = .ok (.memory k d) ↔
      ∃ d', v.lookupSegments foreign us = .ok (.memory k d') ∧
        v.lookup foreign (.memory k d') s = .ok (.memory k d) := by
  rw [lookupSegments_concat _ _ hno]
  rcases hus : v.lookupSegments foreign us with e | i
  · simp [Except.bind]
  cases i with
  | foreign f => simp [Except.bind, lookup_foreign_ne]
  | memory k' d' =>
    simp only [Except.bind, Except.ok.injEq, Inode.memory.injEq]
    constructor
    · intro h
      rw [lookup] at h
      rcases hlookup : (v.memory k').fs.lookup d' s with e | j
      · simp [hlookup, Except.map] at h
      simp only [hlookup, Except.map, Except.ok.injEq, Inode.memory.injEq] at h
      obtain ⟨rfl, rfl⟩ := h
      exact ⟨d', ⟨rfl, rfl⟩, by rw [lookup, hlookup]; rfl⟩
    · rintro ⟨d'', ⟨rfl, rfl⟩, h⟩
      exact h

theorem root_live (k : Nat) : (v.memory k).fs.root ∈ (v.memory k).fs.live :=
  (v.reachable k).good.tree.root_linked.1

theorem lookupSegments_nil (h : v.lookupSegments foreign [] = .ok (.memory k d)) :
    v.root = some (.memory k) ∧ d = (v.memory k).fs.root := by
  rw [lookupSegments, mountOf_nil] at h
  rcases hroot : v.root with _ | fs
  · simp [hroot] at h
  simp only [hroot, walk, foldlM_nil, pure, Except.pure, Except.ok.injEq] at h
  cases fs with
  | memory k' =>
    obtain ⟨rfl, rfl⟩ := h
    exact ⟨rfl, rfl⟩
  | foreign f => simp [rootInode] at h

theorem live_of_lookupSegments (h : v.lookupSegments foreign ss = .ok (.memory k d)) :
    d ∈ (v.memory k).fs.live := by
  induction ss using reverseRecOn generalizing d with
  | nil => exact (v.lookupSegments_nil foreign h).2 ▸ v.root_live k
  | append_singleton us s ih =>
    by_cases hno : ∀ m ∈ v.mounts, m.segments ≠ us ++ [s]
    · obtain ⟨d', hus, hlookup⟩ := (v.lookupSegments_concat_memory foreign hno).1 h
      obtain ⟨j, hj, hmem⟩ := (v.lookup_eq_ok_iff foreign (ih hus)).1 hlookup
      cases hj
      exact ((v.reachable k).good.tree.listed d' (ih hus) s d hmem).1.1
    · simp only [not_forall, not_not] at hno
      obtain ⟨m, hm, hss⟩ := hno
      obtain ⟨m', -, hfound⟩ := v.lookupSegments_mount foreign hm hss
      rw [h] at hfound
      cases hfs : m'.fs with
      | memory k' =>
        simp only [hfs, rootInode, Except.ok.injEq, Inode.memory.injEq] at hfound
        obtain ⟨rfl, rfl⟩ := hfound
        exact v.root_live _
      | foreign f => simp [hfs, rootInode] at hfound

/-- The table is the same, and the entries on the way down the path are still there. -/
structure StaysOn (q : List Str) : Prop where
  table : v'.toManager = v.toManager
  root : ∀ k, (v'.memory k).fs.root = (v.memory k).fs.root
  entries : ∀ us s, us ++ [s] <+: q → ∀ k d, v.lookupSegments foreign us = .ok (.memory k d) →
    ∀ i, (s, i) ∈ (v.memory k).fs.entries d → (s, i) ∈ (v'.memory k).fs.entries d

/-- **A lookup finds the same inode again** if the entries on its way are still there. -/
theorem lookupSegments_stays (h : v.StaysOn foreign v' q) (hss : ss <+: q)
    (hfound : v.lookupSegments foreign ss = .ok (.memory k d)) :
    v'.lookupSegments foreign' ss = .ok (.memory k d) := by
  have hmounts : v'.mounts = v.mounts := congrArg mounts h.table
  have hroot : v'.rootInode (.memory k) = v.rootInode (.memory k) :=
    congrArg (Inode.memory k) (h.root k)
  induction ss using reverseRecOn generalizing d with
  | nil =>
    obtain ⟨hk, rfl⟩ := v.lookupSegments_nil foreign hfound
    have hk' : v'.root = some (.memory k) := (congrArg root h.table).trans hk
    rw [lookupSegments, mountOf_nil, hk']
    exact congrArg Except.ok hroot
  | append_singleton us s ih =>
    by_cases hno : ∀ m ∈ v.mounts, m.segments ≠ us ++ [s]
    · obtain ⟨d', hus, hlookup⟩ := (v.lookupSegments_concat_memory foreign hno).1 hfound
      have hus' := ih ((prefix_append us [s]).trans hss) hus
      refine (v'.lookupSegments_concat_memory foreign' (by rwa [hmounts])).2 ⟨d', hus', ?_⟩
      obtain ⟨j, hj, hmem⟩ :=
        (v.lookup_eq_ok_iff foreign (v.live_of_lookupSegments foreign hus)).1 hlookup
      cases hj
      exact (v'.lookup_eq_ok_iff foreign' (v'.live_of_lookupSegments foreign' hus')).2
        ⟨d, rfl, h.entries us s hss k d' hus d hmem⟩
    · simp only [not_forall, not_not] at hno
      obtain ⟨m, hm, hms⟩ := hno
      obtain ⟨m1, hm1, hfound1⟩ := v.lookupSegments_mount foreign hm hms
      obtain ⟨m2, hm2, hfound2⟩ := v'.lookupSegments_mount foreign' (hmounts ▸ hm) hms
      obtain rfl : m1 = m2 := by
        rw [mountOf, hmounts, ← mountOf, hm1] at hm2
        exact some_inj.1 hm2
      rw [hfound] at hfound1
      cases hfs : m1.fs with
      | memory k' =>
        rw [hfs] at hfound1 hfound2
        have hk : k = k' := by
          injection hfound1 with h1
          injection h1
        subst hk
        rw [hfound2, hroot, ← hfound1]
      | foreign f => simp [hfs, rootInode] at hfound1

end System

end Krust.Vfs
