import Krust.Vfs.Walk

/-!
# What the guards look at

`unlink`, `rmdir` and `rename` check the text of a path against the mount table.  Then they act on
the path that comes out when this text is normalized again, and its directory once more, so that
white space which was inside the path may be gone (`acted`).  And two paths may name the same entry
if a file system is mounted twice (`Manager.SameEntry`).  The entries of the mount points and of the
directories that lead to them are safe as long as the path that is acted on names none of them, or
the guard refuses the call (`System.leading_entries_kept`).

`mount` checks the root of the file system that a path falls in, but not the path.  So as soon as
there is a root, there are paths without a directory that it mounts on
(`System.mount_on_directory_iff`).
-/

set_option autoImplicit false

namespace Krust.Vfs

open Lib Prog List Option

/-! ## Places -/

namespace Manager

variable {F : Type} (t : Manager F)

/-- The file system a path is looked up in, and what is left of the path there. -/
def locate (ss : List Str) : Option (FileSystem F × List Str) :=
  match t.mountOf ss with
  | some m => some (m.fs, ss.drop m.segments.length)
  | none => t.root.map fun fs => (fs, ss)

/-- The place of the entry of a path, as far as the mount table tells: the number of a memory file
system, and the way down from its root. -/
def place (q : List Str) : Option (Nat × List Str) :=
  match q.getLast?, t.locate q.dropLast with
  | some name, some (.memory k, rest) => some (k, rest ++ [name])
  | _, _ => none

def SameEntry (q q' : List Str) : Prop := ∃ x, t.place q = some x ∧ t.place q' = some x

/-- The path names the entry of a mount point, or of a directory that leads to one. -/
def HitsLeading (q : List Str) : Prop := ∃ q', t.Leads q' ∧ t.SameEntry q q'

end Manager

namespace System

open Manager

variable {F : Type} (foreign : Foreign F) (v : System F) {ss us q q' : List Str} {k d : Nat}

theorem lookupSegments_eq (ss : List Str) : v.lookupSegments foreign ss =
    match v.locate ss with
    | none => .error .notFound
    | some (fs, rest) => v.walk foreign (v.rootInode fs) rest := by
  rw [lookupSegments, locate]
  cases v.mountOf ss with
  | some m => rfl
  | none => cases v.root <;> rfl

/-- From the root of a memory file system one gets to the inodes of this file system. -/
theorem walk_root {i : Inode F} (h : v.walk foreign (v.rootInode (.memory k)) ss = .ok i) :
    ∃ d, i = .memory k d ∧ d ∈ (v.memory k).fs.live := by
  induction ss using reverseRecOn generalizing i with
  | nil => exact ⟨_, (Except.ok.inj h).symm, v.root_live k⟩
  | append_singleton us s ih =>
    rw [walk_concat] at h
    obtain ⟨i', hus, hlookup⟩ := bind_eq_ok.1 h
    obtain ⟨d', rfl, hd'⟩ := ih hus
    obtain ⟨j, rfl, hj⟩ := (v.lookup_eq_ok_iff foreign hd').1 hlookup
    exact ⟨j, rfl, ((v.reachable k).good.tree.listed d' hd' s j hj).1.1⟩

/-- Outside of the memory file systems one stays outside. -/
theorem walk_foreign (f : F) : v.walk foreign (.foreign f) ss ≠ .ok (.memory k d) := by
  induction ss generalizing f with
  | nil => simp [walk, pure, Except.pure]
  | cons s ss ih =>
    rw [walk, foldlM_cons, Ne, bind_eq_ok]
    rintro ⟨i, hi, hrest⟩
    rw [lookup] at hi
    cases hf : foreign.lookup f s with
    | error e => simp [hf, Except.map] at hi
    | ok f' =>
      rw [hf] at hi
      cases hi
      exact ih f' hrest

/-- The last step comes from the directory that lists the inode. -/
theorem walk_root_concat {s : Str}
    (h : v.walk foreign (v.rootInode (.memory k)) (ss ++ [s]) = .ok (.memory k d)) :
    ∃ d', v.walk foreign (v.rootInode (.memory k)) ss = .ok (.memory k d') ∧
      d' ∈ (v.memory k).fs.live ∧ (s, d) ∈ (v.memory k).fs.entries d' := by
  rw [walk_concat] at h
  obtain ⟨i, hus, hlookup⟩ := bind_eq_ok.1 h
  obtain ⟨d', rfl, hd'⟩ := v.walk_root foreign hus
  obtain ⟨j, hj, hmem⟩ := (v.lookup_eq_ok_iff foreign hd').1 hlookup
  cases hj
  exact ⟨d', hus, hd', hmem⟩

/-- **There is one way down to an inode.** -/
theorem walk_unique (h : v.walk foreign (v.rootInode (.memory k)) ss = .ok (.memory k d))
    (h' : v.walk foreign (v.rootInode (.memory k)) us = .ok (.memory k d)) : ss = us := by
  have hroot : ∀ {s : Str} {d' : Nat}, d' ∈ (v.memory k).fs.live →
      (s, (v.memory k).fs.root) ∉ (v.memory k).fs.entries d' := fun hd' hmem =>
    ((v.reachable k).good.tree.listed _ hd' _ _ hmem).2.2 rfl
  induction ss using reverseRecOn generalizing us d with
  | nil =>
    cases h
    cases us using reverseRecOn with
    | nil => rfl
    | append_singleton us s =>
      obtain ⟨d', -, hd', hmem⟩ := v.walk_root_concat foreign h'
      exact absurd hmem (hroot hd')
  | append_singleton ss s ih =>
    obtain ⟨d', hss, hd', hmem⟩ := v.walk_root_concat foreign h
    cases us using reverseRecOn with
    | nil =>
      cases h'
      exact absurd hmem (hroot hd')
    | append_singleton us s' =>
      obtain ⟨d'', hus, hd'', hmem'⟩ := v.walk_root_concat foreign h'
      obtain rfl := (v.reachable k).good.tree.dir_unique hd' hd'' hmem hmem'
      rw [ih hss hus, (v.reachable k).good.tree.name_unique hd' hmem hmem']

/-! ## The entries that paths name -/

theorem entryOf_eq_some_iff (hq : Normal q.dropLast) (e : Entry) : v.entryOf foreign q = some e ↔
    q.getLast? = some e.name ∧
      v.lookupSegments foreign q.dropLast = .ok (.memory e.fs e.directory) := by
  obtain ⟨k, d, name⟩ := e
  rw [entryOf, lookupExact_joined foreign v hq]
  rcases q.getLast? with _ | name' <;>
    rcases v.lookupSegments foreign q.dropLast with _ | ⟨k', d'⟩ | f <;> simp
  exact ⟨fun ⟨hk, hd, hname⟩ => ⟨hname, hk, hd⟩, fun ⟨hname, hk, hd⟩ => ⟨hk, hd, hname⟩⟩

theorem place_of_entryOf (hq : Normal q.dropLast) {e : Entry} (h : v.entryOf foreign q = some e) :
    ∃ rest, v.place q = some (e.fs, rest ++ [e.name]) ∧
      v.walk foreign (v.rootInode (.memory e.fs)) rest = .ok (.memory e.fs e.directory) := by
  obtain ⟨hname, hlookup⟩ := (v.entryOf_eq_some_iff foreign hq e).1 h
  rw [lookupSegments_eq] at hlookup
  rcases hlocate : v.locate q.dropLast with _ | ⟨⟨k⟩ | f, rest⟩ <;> rw [hlocate] at hlookup
  · cases hlookup
  · obtain ⟨d, hd, -⟩ := v.walk_root foreign hlookup
    obtain ⟨rfl, -⟩ := Inode.memory.inj hd
    exact ⟨rest, by rw [place, hname, hlocate], hlookup⟩
  · exact absurd hlookup (v.walk_foreign foreign f)

/-- **Two paths lead to one entry exactly if the mount table says so.** -/
theorem entryOf_iff_sameEntry (hq : Normal q.dropLast) (hq' : Normal q'.dropLast) {e : Entry}
    (h : v.entryOf foreign q = some e) : v.entryOf foreign q' = some e ↔ v.SameEntry q q' := by
  obtain ⟨rest, hplace, hwalk⟩ := v.place_of_entryOf foreign hq h
  constructor
  · intro h'
    obtain ⟨rest', hplace', hwalk'⟩ := v.place_of_entryOf foreign hq' h'
    rw [v.walk_unique foreign hwalk' hwalk] at hplace'
    exact ⟨_, hplace, hplace'⟩
  · rintro ⟨x, hx, hx'⟩
    cases hplace.symm.trans hx
    rw [place] at hx'
    split at hx'
    · rename_i name k rest' hname hlocate
      obtain ⟨rfl, hrest⟩ := Prod.mk.inj (some.inj hx')
      obtain ⟨rfl, hname'⟩ := append_inj' hrest rfl
      refine (v.entryOf_eq_some_iff foreign hq' e).2 ⟨?_, ?_⟩
      · rw [hname, (cons.inj hname').1]
      · rw [lookupSegments_eq, hlocate]
        exact hwalk
    · cases hx'

theorem normal_of_leads (h : v.Leads q) : Normal q.dropLast := by
  obtain ⟨-, m, -, hpre⟩ := h
  exact fun s hs => m.segments_spec.2.1 s (hpre.subset (dropLast_subset q hs))

end System

/-! ## The paths that are acted on -/

/-- The directory that `resolve_parent_from_current_cwd` looks up for a path, and the name. -/
def parentOf (cwd : Option Str) (path : Str) : Except FsError (List Str × Str) := do
  let absolute ← resolveAbsolute cwd path
  if absolute = ['/'] then .error .notFound
  else
    let (parentPath, name) := (rsplitOnce '/' absolute).getD (['/'], absolute)
    let parent ← normalizeAbsolutePath
      (if parentPath = [] ∨ parentPath = ['/'] then ['/'] else parentPath)
    return (splitSegments parent, name)

/-- **The path that a call acts on**, by the text alone: the absolute path is taken apart after it
has been made absolute once more, and its directory is normalized a third time. -/
def acted (cwd : Option Str) (path : Str) : Except FsError (List Str) := do
  let absolute ← resolveAbsolute cwd path
  let (parent, name) ← parentOf cwd absolute
  return parent ++ [name]

theorem normal_of_acted {cwd : Option Str} {path : Str} {q : List Str}
    (h : acted cwd path = .ok q) : Normal q.dropLast := by
  simp only [acted, parentOf, bind_eq_ok] at h
  obtain ⟨absolute, -, ⟨us, name⟩, ⟨absolute', -, hparent⟩, h⟩ := h
  cases h
  split at hparent
  · cases hparent
  simp only [bind_eq_ok] at hparent
  obtain ⟨parent, hnormal, hus⟩ := hparent
  cases hus
  obtain ⟨us, hus, rfl⟩ := normal_of_normalize hnormal
  rwa [dropLast_concat, splitSegments_joined hus]

def Mutation.paths : Mutation → List Str
  | .unlink path _ => [path]
  | .rename old new => [old, new]

namespace Manager

variable {F : Type} (t : Manager F) (cwd : Option Str)

/-- The call is refused for the text of a path. -/
def Refuses (c : Mutation) : Prop :=
  (∃ path ∈ c.paths, endsInDots path = true ∨
    ∀ p, resolveAbsolute cwd path = .ok p → checkMountMutation t.mounts p ≠ .ok ()) ∨
  ∃ path, c = .unlink path false ∧ endsWithSlash path = true

/-- **The guard looks at the right path**: the call is refused, or what it acts on is no entry of a
mount point nor of a directory that leads to one, or it is a rename of an entry to itself. -/
def Guarded (c : Mutation) : Prop :=
  t.Refuses cwd c ∨
  (∀ path ∈ c.paths, ∀ q, acted cwd path = .ok q → ¬ t.HitsLeading q) ∨
  ∃ old new q q', c = .rename old new ∧ acted cwd old = .ok q ∧ acted cwd new = .ok q' ∧
    t.SameEntry q q'

end Manager

namespace System

open Manager

variable {F : Type} (foreign : Foreign F) (v : System F) (cwd : Option Str) {path : Str}
  {q : List Str}

theorem resolveParent_ok {p : Str} {i : Inode F} {name : Str}
    (h : v.resolveParent foreign cwd p = .ok (i, name)) :
    ∃ us, Normal us ∧ parentOf cwd p = .ok (us, name) ∧ v.lookupSegments foreign us = .ok i := by
  rw [resolveParent, bind_eq_ok] at h
  obtain ⟨absolute, habsolute, h⟩ := h
  split at h
  · cases h
  rename_i hroot
  simp only [lookupPath, bind_eq_ok] at h
  obtain ⟨_, ⟨parent, hparent, hlookup⟩, h⟩ := h
  cases h
  obtain ⟨us, hus, rfl⟩ := normal_of_normalize hparent
  rw [lookupExact_joined foreign v hus] at hlookup
  refine ⟨us, hus, ?_, hlookup⟩
  refine bind_eq_ok.2 ⟨absolute, habsolute, ?_⟩
  rw [if_neg hroot]
  refine bind_eq_ok.2 ⟨_, hparent, ?_⟩
  rw [splitSegments_joined hus]
  rfl

/-- What has been found for a path that was let through. -/
structure Found (path : Str) (i : Inode F) (name : Str) : Prop where
  dots : endsInDots path = false
  guard : ∃ p, resolveAbsolute cwd path = .ok p ∧ checkMountMutation v.mounts p = .ok ()
  parent : ∃ us, Normal us ∧ acted cwd path = .ok (us ++ [name]) ∧
    v.lookupSegments foreign us = .ok i

variable {foreign v cwd} {i : Inode F} {name : Str}

theorem found_of_resolveParent {p : Str} (hdots : endsInDots path = false)
    (hp : resolveAbsolute cwd path = .ok p) (hguard : checkMountMutation v.mounts p = .ok ())
    (h : v.resolveParent foreign cwd p = .ok (i, name)) : v.Found foreign cwd path i name := by
  obtain ⟨us, hus, hparent, hlookup⟩ := v.resolveParent_ok foreign cwd h
  exact ⟨hdots, ⟨p, hp, hguard⟩, us, hus,
    bind_eq_ok.2 ⟨p, hp, bind_eq_ok.2 ⟨_, hparent, rfl⟩⟩, hlookup⟩

theorem Found.entryOf {k d : Nat} (h : v.Found foreign cwd path (.memory k d) name) :
    ∃ q, Normal q.dropLast ∧ acted cwd path = .ok q ∧ v.entryOf foreign q = some ⟨k, d, name⟩ := by
  obtain ⟨us, hus, hacted, hlookup⟩ := h.parent
  refine ⟨us ++ [name], by rwa [dropLast_concat], hacted, ?_⟩
  rw [entryOf_eq_some_iff foreign v (by rwa [dropLast_concat]), dropLast_concat]
  exact ⟨getLast?_concat, hlookup⟩

theorem unlinkTarget_ok {directory : Bool}
    (h : v.unlinkTarget foreign cwd path directory = .ok (i, name)) :
    v.Found foreign cwd path i name ∧ (endsWithSlash path && !directory) = false := by
  rw [unlinkTarget] at h
  split at h
  · cases h
  rename_i hdots
  simp only [bind_eq_ok, mapError_eq_ok] at h
  obtain ⟨p, hp, _, hguard, h⟩ := h
  split at h
  · cases h
  rename_i hslash
  rw [mapError_eq_ok] at h
  exact ⟨found_of_resolveParent (by simpa using hdots) hp hguard h, by simpa using hslash⟩

theorem renameTarget_ok {old new newName : Str} {i' : Inode F}
    (h : v.renameTarget foreign cwd old new = .ok ((i, name), (i', newName))) :
    v.Found foreign cwd old i name ∧ v.Found foreign cwd new i' newName := by
  rw [renameTarget] at h
  split at h
  · cases h
  rename_i hdots
  rw [Bool.or_eq_true, not_or, Bool.not_eq_true, Bool.not_eq_true] at hdots
  simp only [bind_eq_ok, mapError_eq_ok] at h
  obtain ⟨p, hp, p', hp', _, hguard, _, hguard', ⟨j, n⟩, hparent, ⟨j', n'⟩, hparent', h⟩ := h
  obtain ⟨⟨rfl, rfl⟩, rfl, rfl⟩ : (j = i ∧ n = name) ∧ j' = i' ∧ n' = newName := by
    split at h
    · simp only [bind_eq_ok] at h
      obtain ⟨_, -, h⟩ := h
      split at h
      · cases h
      · cases h
        exact ⟨⟨rfl, rfl⟩, rfl, rfl⟩
    · cases h
      exact ⟨⟨rfl, rfl⟩, rfl, rfl⟩
  exact ⟨found_of_resolveParent hdots.1 hp hguard hparent,
    found_of_resolveParent hdots.2 hp' hguard' hparent'⟩

variable (foreign v cwd)

/-- **What a call takes away are the entries of the paths it acts on**, if it is let through. -/
theorem mem_targets {c : Mutation} {e : Entry} (he : e ∈ v.targets foreign cwd c) :
    ¬ v.Refuses cwd c ∧
    (∃ path ∈ c.paths, ∃ q, Normal q.dropLast ∧ acted cwd path = .ok q ∧
      v.entryOf foreign q = some e) ∧
    ∀ old new q q', c = .rename old new → acted cwd old = .ok q → acted cwd new = .ok q' →
      ¬ v.SameEntry q q' := by
  have hnot : ∀ {path i name}, v.Found foreign cwd path i name → ¬ (endsInDots path = true ∨
      ∀ p, resolveAbsolute cwd path = .ok p → checkMountMutation v.mounts p ≠ .ok ()) := by
    rintro path i name hfound (hdots | hall)
    · exact absurd hdots (by simp [hfound.dots])
    · obtain ⟨p, hp, hguard⟩ := hfound.guard
      exact hall p hp hguard
  cases c with
  | unlink path directory =>
    rw [targets] at he
    rcases ht : v.unlinkTarget foreign cwd path directory with n | ⟨⟨k, d⟩ | f, name⟩ <;>
      rw [ht] at he
    · cases he
    · rw [mem_singleton.1 he]
      obtain ⟨hfound, hslash⟩ := unlinkTarget_ok ht
      refine ⟨?_, ⟨path, mem_singleton.2 rfl, hfound.entryOf⟩, by simp⟩
      rintro (⟨path', hpath', h⟩ | ⟨path', hpath', h⟩)
      · rw [mem_singleton.1 hpath'] at h
        exact hnot hfound h
      · cases hpath'
        simp [h] at hslash
    · cases he
  | rename old new =>
    rw [targets] at he
    rcases ht : v.renameTarget foreign cwd old new with
      n | ⟨⟨⟨k, d⟩ | f, name⟩, ⟨k', d'⟩ | f', newName⟩ <;> rw [ht] at he
    · cases he
    · obtain ⟨hold, hnew⟩ := renameTarget_ok ht
      obtain ⟨q, hq, hqacted, hqentry⟩ := hold.entryOf
      obtain ⟨q', hq', hqacted', hqentry'⟩ := hnew.entryOf
      dsimp only [renameTargets] at he
      split_ifs at he with hsame
      · cases he
      refine ⟨?_, ?_, ?_⟩
      · rintro (⟨path, hpath, h⟩ | ⟨path, hpath, -⟩)
        · rcases mem_pair.1 hpath with rfl | rfl
          · exact hnot hold h
          · exact hnot hnew h
        · cases hpath
      · rcases mem_pair.1 he with rfl | rfl
        · exact ⟨old, mem_cons_self, q, hq, hqacted, hqentry⟩
        · exact ⟨new, by simp [Mutation.paths], q', hq', hqacted', hqentry'⟩
      · rintro old new r r' hc hr hr' hplaces
        cases hc
        cases hqacted.symm.trans hr
        cases hqacted'.symm.trans hr'
        have hentry := (v.entryOf_iff_sameEntry foreign hq hq' hqentry).2 hplaces
        exact hsame (some.inj (hentry.symm.trans hqentry'))
    all_goals cases he

/-- A call that succeeds takes away what it acts on, if there is something. -/
theorem targets_of_ok {c : Mutation} (hok : (v.exec foreign cwd c).1 = some (.ok ()))
    (hthere : ∀ path ∈ c.paths, ∀ q, acted cwd path = .ok q → ∃ e, v.entryOf foreign q = some e)
    (hdiffer : ∀ old new q q', c = .rename old new → acted cwd old = .ok q →
      acted cwd new = .ok q' → ¬ v.SameEntry q q') {e : Entry}
    (hpath : path ∈ c.paths) (hacted : acted cwd path = .ok q) (hq : v.entryOf foreign q = some e) :
    e ∈ v.targets foreign cwd c := by
  cases c with
  | unlink path' directory =>
    cases mem_singleton.1 hpath
    rw [exec] at hok
    rw [targets]
    rcases ht : v.unlinkTarget foreign cwd path directory with n | ⟨⟨k, d⟩ | f, name⟩ <;>
      rw [ht] at hok
    · cases hok
    · obtain ⟨q', -, hacted', hentry⟩ := (unlinkTarget_ok ht).1.entryOf
      cases hacted.symm.trans hacted'
      exact mem_singleton.2 (some.inj (hq.symm.trans hentry))
    · cases hok
  | rename old new =>
    rw [exec] at hok
    rcases ht : v.renameTarget foreign cwd old new with n | ⟨⟨⟨k, d⟩ | f, name⟩, i', newName⟩ <;>
      rw [ht] at hok
    · cases hok
    swap
    · cases hok
    obtain ⟨hold, hnew⟩ := renameTarget_ok ht
    obtain ⟨q1, hn1, hacted1, hentry1⟩ := hold.entryOf
    cases i' with
    | foreign f' =>
      obtain ⟨us, hus, hacted2, hlookup⟩ := hnew.parent
      obtain ⟨e2, he2⟩ := hthere new (by simp [Mutation.paths]) _ hacted2
      rw [entryOf_eq_some_iff foreign v (by rwa [dropLast_concat]), dropLast_concat, hlookup] at he2
      cases he2.2
    | memory k' d' =>
      obtain ⟨q2, hn2, hacted2, hentry2⟩ := hnew.entryOf
      have hne : (⟨k, d, name⟩ : Entry) ≠ ⟨k', d', newName⟩ := fun heq =>
        hdiffer old new q1 q2 rfl hacted1 hacted2
          ((v.entryOf_iff_sameEntry foreign hn1 hn2 hentry1).1 (heq ▸ hentry2))
      simp only [targets, ht, renameTargets, if_neg hne, mem_pair]
      rcases mem_pair.1 hpath with rfl | rfl
      · cases hacted.symm.trans hacted1
        exact .inl (some.inj (hq.symm.trans hentry1))
      · cases hacted.symm.trans hacted2
        exact .inr (some.inj (hq.symm.trans hentry2))

/-- The entries of the mount points, and of the directories that lead to them, are still there after
the call. -/
def LeadingKept (c : Mutation) : Prop :=
  ∀ q, v.Leads q → ∀ e, v.entryOf foreign q = some e → ∀ i, e.Names v.memory i →
    e.Names (v.exec foreign cwd c).2 i

/-- **The entries that lead to mount points are kept** whatever is in the file systems, if the guard
looks at the right path.  If it does not, such an entry is lost by every call that succeeds and
finds entries at all its paths. -/
theorem leading_entries_kept (c : Mutation) :
    (v.Guarded cwd c → v.LeadingKept foreign cwd c) ∧
    ((v.exec foreign cwd c).1 = some (.ok ()) →
      (∀ path ∈ c.paths, ∀ q, acted cwd path = .ok q →
        ∃ e i, v.entryOf foreign q = some e ∧ e.Names v.memory i) →
      (v.LeadingKept foreign cwd c ↔ v.Guarded cwd c)) := by
  have htakes := v.exec_takes foreign cwd c
  have hkept : v.Guarded cwd c → v.LeadingKept foreign cwd c := by
    intro hguarded q hq e hentry i hi
    refine (htakes e i hi).2 fun ⟨_, hmem⟩ => ?_
    obtain ⟨hlet, ⟨path, hpath, q', hq', hacted, hentry'⟩, hdiffer⟩ :=
      v.mem_targets foreign cwd hmem
    rcases hguarded with hrefuses | hnone | ⟨old, new, q1, q2, rfl, h1, h2, hsame⟩
    · exact hlet hrefuses
    · exact hnone path hpath q' hacted
        ⟨q, hq, (v.entryOf_iff_sameEntry foreign hq' (v.normal_of_leads hq) hentry').1 hentry⟩
    · exact hdiffer old new q1 q2 rfl h1 h2 hsame
  refine ⟨hkept, fun hok hthere => ⟨fun h => ?_, hkept⟩⟩
  by_contra hnot
  rw [Guarded, not_or, not_or] at hnot
  obtain ⟨-, hhits, hdiffer⟩ := hnot
  simp only [not_forall, not_not] at hhits
  obtain ⟨path, hpath, q, hacted, q', hq', hsame⟩ := hhits
  obtain ⟨e, i, hentry, hi⟩ := hthere path hpath q hacted
  have hmem := v.targets_of_ok foreign cwd hok
    (fun path hpath q hq => (hthere path hpath q hq).imp fun e h => h.choose_spec.1)
    (fun old new q q' hc h h' hs => hdiffer ⟨old, new, q, q', hc, h, h', hs⟩) hpath hacted hentry
  have hentry' := (v.entryOf_iff_sameEntry foreign (normal_of_acted hacted)
    (v.normal_of_leads hq') hentry).2 hsame
  exact (htakes e i hi).1 (h q' hq' e hentry' i hi) ⟨hok, hmem⟩

/-! ## Mounting -/

variable {foreign v}

/-- With nothing mounted there is nothing to mount on. -/
theorem not_mountable {path p : Str} (hmounts : v.mounts = []) (hroot : v.root = none) :
    ¬ v.Mountable foreign path p := by
  intro h
  obtain ⟨r, hr, -⟩ := h.directory
  rw [resolvePath, hmounts, hroot] at hr
  split at hr <;> cases hr

theorem Reached.mounts_nil (h : Reached foreign v) (hroot : v.root = none) : v.mounts = [] := by
  induction h with
  | start h => exact h
  | @mount v v' _ path fs hmount ih =>
    rcases v.mount_cases foreign path fs with ⟨m, -, hmountable, hok⟩ | ⟨⟨e, herr⟩, -⟩
    · cases hok.symm.trans hmount
      exact absurd hmountable (not_mountable (ih hroot) hroot)
    · exact nomatch herr.symm.trans hmount
  | unmount _ hunmount ih =>
    obtain ⟨index, rfl⟩ := eq_of_unmount hunmount
    rw [show _ = [] from ih hroot]
    rfl
  | mountRoot _ fs _ => exact nomatch hroot
  | meanwhile _ htable ih =>
    rw [htable] at hroot ⊢
    exact ih hroot

/-- There is always another name. -/
theorem exists_fresh (names : List Str) : ∃ n, List.replicate (n + 1) 'a' ∉ names := by
  obtain ⟨n, hn⟩ : ∃ n, ∀ s ∈ names, s.length ≤ n := by
    induction names with
    | nil => exact ⟨0, nofun⟩
    | cons s names ih =>
      obtain ⟨n, hn⟩ := ih
      refine ⟨max s.length n, forall_mem_cons.2 ⟨le_max_left _ _, fun s' hs' => ?_⟩⟩
      exact (hn s' hs').trans (le_max_right _ _)
  refine ⟨n, fun hmem => ?_⟩
  have hle := hn _ hmem
  rw [length_replicate] at hle
  omega

theorem isName_replicate (n : Nat) : IsName (List.replicate (n + 1) 'a') ∧
    endsInSpace (List.replicate (n + 1) 'a') = false := by
  refine ⟨⟨⟨by simp, by simp⟩, by simp [replicate_succ], by simp [replicate_succ]⟩, ?_⟩
  rw [endsInSpace, replicate_succ', getLast?_concat]
  decide

/-- What is relied on of a file system that is not kept in memory, if it is the root: its own root
is a directory, in which there are only finitely many names. -/
structure UsualRoot (foreign : Foreign F) (f : F) : Prop where
  directory : foreign.fileType f = .directory
  names : ∃ names : List Str, ∀ name i, foreign.lookup f name = .ok i → name ∈ names

theorem exists_names {fs : FileSystem F} (hfs : ∀ f, fs = .foreign f → UsualRoot foreign f) :
    v.fileType foreign (v.rootInode fs) = .directory ∧
      ∃ names : List Str,
        ∀ name i, v.lookup foreign (v.rootInode fs) name = .ok i → name ∈ names := by
  cases fs with
  | memory k =>
    refine ⟨of_decide_eq_true (v.reachable k).good.tree.root_dir,
      ((v.memory k).fs.entries (v.memory k).fs.root).map Prod.fst, fun name i hi => ?_⟩
    obtain ⟨j, -, hj⟩ := (v.lookup_eq_ok_iff foreign (v.root_live k)).1 hi
    exact mem_map_of_mem hj
  | foreign f =>
    obtain ⟨hdirectory, names, hnames⟩ := hfs f rfl
    refine ⟨hdirectory, names, fun name i hi => ?_⟩
    rw [rootInode, lookup] at hi
    cases hf : foreign.lookup f name with
    | error e => simp [hf, Except.map] at hi
    | ok f' => exact hnames name f' hf

/-- If there is a root, then there is a path that can be mounted on and leads nowhere. -/
theorem exists_mountable {fs : FileSystem F} (hfs : v.root = some fs)
    (hroot : ∀ f, v.root = some (.foreign f) → UsualRoot foreign f) :
    ∃ path, v.Mountable foreign path path ∧ ∀ i, v.lookupPath foreign path ≠ .ok i := by
  obtain ⟨hdirectory, names, hnames⟩ :=
    v.exists_names fun f hf => hroot f (hfs.trans (congrArg some hf))
  -- A name that is neither in the root directory nor the path of a mount point.
  obtain ⟨n, hn⟩ := exists_fresh (names ++ v.mounts.map fun m => m.path.tail)
  rw [mem_append, not_or] at hn
  obtain ⟨hname, hspace⟩ := isName_replicate n
  generalize replicate (n + 1) 'a' = s at hn hname hspace
  have hnormal : Normal [s] := fun t ht => mem_singleton.1 ht ▸ hname
  have hpath : joinAbsoluteSegments [s] = '/' :: s := by simp [joinAbsoluteSegments, joined]
  have hsame : normalizeAbsolutePath ('/' :: s) = .ok ('/' :: s) := by
    rw [← hpath]
    exact normalizeAbsolutePath_joined hnormal (by simpa using hspace)
  have hfree : ∀ m ∈ v.mounts, m.path ≠ '/' :: s := fun m hm heq =>
    hn.2 (mem_map.2 ⟨m, hm, by rw [heq]; rfl⟩)
  have hno : ∀ m ∈ v.mounts, m.segments ≠ [] ++ [s] := fun m hm heq =>
    hfree m hm (by rw [m.segments_spec.2.2, heq, ← hpath]; rfl)
  refine ⟨'/' :: s, ⟨hsame, fun heq => hname.segment.1 (cons.inj heq).2, ?_, hfree⟩, ?_⟩
  · -- What is checked is the root.
    have hresolve := resolvePath_fromRoot (v := v) ⟨[s], hnormal, hpath.symm⟩ fun m hm hpre => ?_
    · rw [FromRoot, hfs] at hresolve
      obtain ⟨rest, hrest, -⟩ := hresolve
      exact ⟨_, hrest, hdirectory⟩
    · rw [← hpath, splitSegments_joined hnormal, prefix_cons_iff] at hpre
      rcases hpre with hnil | ⟨ts, hts, hnil⟩
      · exact m.segments_spec.1 hnil
      · exact hno m hm (hts.trans (by rw [prefix_nil.1 hnil]; rfl))
  · intro i hi
    have hstart : v.lookupSegments foreign [] = .ok (v.rootInode fs) := by
      rw [lookupSegments, mountOf_nil, hfs]
      rfl
    rw [lookupPath, hsame] at hi
    have hlookup : v.lookupExact foreign (joinAbsoluteSegments [s]) = .ok i := hpath ▸ hi
    rw [lookupExact_joined foreign v hnormal, ← nil_append [s],
      lookupSegments_concat foreign v hno, hstart] at hlookup
    exact hn.1 (hnames s i hlookup)

/-- **When only directories can be mounted on**: as long as there is no root.  With a root, there is
always a path to which nothing belongs and on which `mount` puts a file system. -/
theorem mount_on_directory_iff (hv : Reached foreign v)
    (hroot : ∀ f, v.root = some (.foreign f) → UsualRoot foreign f) (fs : FileSystem F) :
    (∀ path v', v.mount foreign path fs = .ok v' →
        ∃ i, v.lookupPath foreign path = .ok i ∧ v.fileType foreign i = .directory) ↔
      v.root = none := by
  constructor
  · intro hall
    by_contra hsome
    obtain ⟨fs', hfs'⟩ := ne_none_iff_exists'.1 hsome
    obtain ⟨path, hmountable, hmissing⟩ := exists_mountable hfs' hroot
    rcases v.mount_cases foreign path fs with ⟨m, -, -, hok⟩ | ⟨-, hnot⟩
    · obtain ⟨i, hi, -⟩ := hall _ _ hok
      exact hmissing i hi
    · exact hnot _ hmountable
  · intro hnone path v' hmount
    rcases v.mount_cases foreign path fs with ⟨m, -, hmountable, -⟩ | ⟨⟨e, herr⟩, -⟩
    · exact absurd hmountable (not_mountable (hv.mounts_nil hnone) hnone)
    · exact nomatch herr.symm.trans hmount

end System

/-- With a file system on `/mnt`, there is still something missing that can be mounted on. -/
theorem mount_on_directory_iff_mounted :
    ¬ ∀ path v', mounted.mount noForeign path (.memory 2) = .ok v' →
      ∃ i, mounted.lookupPath noForeign path = .ok i ∧
        mounted.fileType noForeign i = .directory := by
  rw [System.mount_on_directory_iff reached_mounted fun f => f.elim]
  exact nofun

end Krust.Vfs
