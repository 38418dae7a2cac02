import Krust.Vfs.Mutation

/-!
# Which file system a path is looked up in

`resolve_path` compares texts: it looks for the mount points whose path the given path starts with,
followed by a slash or nothing, and takes the one whose path has the most bytes.  In terms of the
segments that is the longest one that is a part of the path (`System.selects_of_max`), since the
table never has a path twice (`System.Reached.nodup`), and nothing of the path is lost
(`System.resolvePath_longest`).

`mount` asks `resolve_path` for the directory to mount on, and so does not see whether it is there
(`missing_mounted_on`).
-/

set_option autoImplicit false

namespace Krust.Vfs

open Lib List Option

/-- A path that `normalize_absolute_path` can return. -/
def Canonical (path : Str) : Prop := ∃ ss, Normal ss ∧ path = joinAbsoluteSegments ss

theorem Canonical.spec {path : Str} (h : Canonical path) :
    Normal (splitSegments path) ∧ path = joinAbsoluteSegments (splitSegments path) := by
  obtain ⟨ss, hss, rfl⟩ := h
  rw [splitSegments_joined hss]
  exact ⟨hss, rfl⟩

/-! ## Bytes -/

theorem utf8Len_append (a b : Str) : utf8Len (a ++ b) = utf8Len a + utf8Len b := by
  rw [utf8Len, utf8Len, utf8Len, map_append, sum_append]

theorem utf8Len_lt_append (a : Str) (c : Char) (b : Str) : utf8Len a < utf8Len (a ++ c :: b) := by
  have hpos := c.utf8Size_pos
  rw [utf8Len_append]
  simp only [utf8Len, map_cons, sum_cons]
  omega

/-! ## The last of the largest -/

variable {α : Type} (key : α → Nat) (l : List α)

theorem maxByKey_concat (x : α) :
    maxByKey key (l ++ [x]) =
      match maxByKey key l with
      | none => some x
      | some b => if key b ≤ key x then some x else some b := by
  rw [maxByKey, foldl_append]
  rfl

theorem maxByKey_spec :
    match maxByKey key l with
    | none => l = []
    | some m => m ∈ l ∧ ∀ x ∈ l, key x ≤ key m := by
  induction l using reverseRecOn with
  | nil => rfl
  | append_singleton l x ih =>
    rw [maxByKey_concat]
    rcases hmax : maxByKey key l with _ | b
    · rw [hmax] at ih
      simp [ih]
    rw [hmax] at ih
    obtain ⟨hmem, hle⟩ := ih
    by_cases hx : key b ≤ key x
    · simp only [if_pos hx]
      refine ⟨by simp, fun y hy => ?_⟩
      rcases mem_append.1 hy with hy | hy
      · exact (hle y hy).trans hx
      · rw [mem_singleton.1 hy]
    · simp only [if_neg hx]
      refine ⟨by simp [hmem], fun y hy => ?_⟩
      rcases mem_append.1 hy with hy | hy
      · exact hle y hy
      · rw [mem_singleton.1 hy]
        omega

/-! ## Covering -/

namespace MountPoint

variable {F : Type} (m m' : MountPoint F) {ss : List Str}

/-- **A mount point covers the paths that its segments are the first segments of.** -/
theorem covers_iff (hss : Normal ss) :
    m.covers (joinAbsoluteSegments ss) = true ↔ m.segments <+: ss := by
  obtain ⟨hne, hnormal, hpath⟩ := m.segments_spec
  have hstart := joined_prefix_iff (c := '/') hnormal.segments hss.segments hne
  change _ ↔ joinAbsoluteSegments ss = joinAbsoluteSegments m.segments ∨
    ∃ rest, joinAbsoluteSegments ss = joinAbsoluteSegments m.segments ++ '/' :: rest at hstart
  rw [← hpath] at hstart
  rw [hstart, covers]
  split
  · rename_i heq
    exact iff_of_true rfl (.inl heq)
  rename_i hdiff
  rw [or_iff_right hdiff]
  split
  · refine iff_of_false Bool.false_ne_true ?_
    rintro ⟨rest, hrest⟩
    have hlt := utf8Len_lt_append m.path '/' rest
    rw [← hrest] at hlt
    omega
  · rw [Bool.and_eq_true, isPrefixOf_iff_prefix, beq_iff_eq]
    constructor
    · rintro ⟨⟨t, ht⟩, hslash⟩
      rw [← ht, getElem?_append_right le_rfl, Nat.sub_self] at hslash
      obtain ⟨rest, rfl⟩ := head?_eq_some_iff.1 (by rwa [head?_eq_getElem?])
      exact ⟨rest, ht.symm⟩
    · rintro ⟨rest, hrest⟩
      refine ⟨⟨_, hrest.symm⟩, ?_⟩
      rw [hrest, getElem?_append_right le_rfl, Nat.sub_self]
      rfl

/-- Of two mount points above a path, the one further down has the longer text. -/
theorem utf8Len_lt (h : m.segments <+: ss) (h' : m'.segments <+: ss)
    (hlt : m.segments.length < m'.segments.length) : utf8Len m.path < utf8Len m'.path := by
  obtain ⟨hne, hnormal, hpath⟩ := m.segments_spec
  obtain ⟨-, hnormal', hpath'⟩ := m'.segments_spec
  have hstart : m.segments <+: m'.segments := by
    rcases prefix_or_prefix_of_prefix h h' with hle | hle
    · exact hle
    · have := hle.length_le
      omega
  rw [hpath, hpath']
  rcases (joined_prefix_iff hnormal.segments hnormal'.segments hne).1 hstart with heq | ⟨rest, heq⟩
  · have := joined_injective hnormal'.segments hnormal.segments heq
    rw [this] at hlt
    omega
  · rw [joinAbsoluteSegments, joinAbsoluteSegments, heq]
    exact utf8Len_lt_append _ _ _

end MountPoint

/-! ## The table -/

namespace System

variable {F : Type} (foreign : Foreign F) (v : System F)

def mountRoot (fs : FileSystem F) : System F := { v with root := some fs }

/-- `vfs::unmount`, from what `open_inodes` has for a path: whether there is an open inode. -/
def unmount (openInodes : Str → Bool) (path : Str) : Except FsError (System F) :=
  match normalizeAbsolutePath path with
  | .error e => .error e
  | .ok normalized =>
    if normalized = ['/'] then .error .notSupported
    else
      match v.mounts.findIdx? fun m => m.path == normalized with
      | none => .error .notFound
      | some index =>
        if openInodes normalized then .error .notSupported
        else .ok { v with mounts := v.mounts.eraseIdx index }

/-- **When normalizing again changes nothing**: unless the last name that is left ends in white
space.  Then what is looked up is what has been normalized. -/
theorem normalize_again_iff {path p : Str} (h : normalizeAbsolutePath path = .ok p) :
    (normalizeAbsolutePath p = .ok p ↔
        ∀ s ∈ (normalSegments path).getLast?, endsInSpace s = false) ∧
      ((∀ s ∈ (normalSegments path).getLast?, endsInSpace s = false) →
        v.lookupPath foreign p = v.lookupExact foreign p) := by
  have hnormal := normal_normalSegments path
  have hp : joinAbsoluteSegments (normalSegments path) = p := by
    rw [normalizeAbsolutePath_eq] at h
    split at h
    · cases h
    · exact Except.ok.inj h
  have hagain : (∀ s ∈ (normalSegments path).getLast?, endsInSpace s = false) →
      normalizeAbsolutePath p = .ok p := fun hs => hp ▸ normalizeAbsolutePath_joined hnormal hs
  refine ⟨⟨fun heq s hs => ?_, hagain⟩, fun hs => ?_⟩
  · obtain ⟨ts, hts⟩ := getLast?_eq_some_iff.1 (mem_def.1 hs)
    rw [hts] at hnormal hp
    refine endsInSpace_of_same hnormal ?_
    rw [normalizeAbsolutePath_eq] at heq
    split at heq
    · cases heq
    rw [hp]
    exact joined_injective (normal_normalSegments p).segments hnormal.segments
      ((Except.ok.inj heq).trans hp.symm)
  · rw [lookupPath, hagain hs]
    rfl

/-- The systems that calls of `mount` and `unmount` lead to.  In between, the memory file systems
change, and the root may be replaced. -/
inductive Reached : System F → Prop
  | start {v : System F} (h : v.mounts = []) : Reached v
  | mount {v v' : System F} (h : Reached v) {path : Str} {fs : FileSystem F}
      (hmount : v.mount foreign path fs = .ok v') : Reached v'
  | unmount {v v' : System F} (h : Reached v) {openInodes : Str → Bool} {path : Str}
      (hunmount : v.unmount openInodes path = .ok v') : Reached v'
  | mountRoot {v : System F} (h : Reached v) (fs : FileSystem F) : Reached (v.mountRoot fs)
  | meanwhile {v v' : System F} (h : Reached v) (htable : v'.toManager = v.toManager) : Reached v'

/-- What `mount` checks: that the file system the path falls in has a directory for its root, and
that the path is free. -/
structure Mountable (path p : Str) : Prop where
  normalized : normalizeAbsolutePath path = .ok p
  not_root : p ≠ ['/']
  directory : ∃ r, v.resolvePath p = .ok r ∧ v.fileType foreign r.inode = .directory
  unmounted : ∀ m ∈ v.mounts, m.path ≠ p

/-- **What `mount` does.** -/
theorem mount_cases (path : Str) (fs : FileSystem F) :
    (∃ m : MountPoint F, m.fs = fs ∧ v.Mountable foreign path m.path ∧
      v.mount foreign path fs = .ok { v with mounts := v.mounts ++ [m] }) ∨
    (∃ e, v.mount foreign path fs = .error e) ∧ ∀ p, ¬ v.Mountable foreign path p := by
  unfold mount
  split
  · rename_i e herr
    exact .inr ⟨⟨e, rfl⟩, fun p h => nomatch herr.symm.trans h.normalized⟩
  rename_i normalized hnormal
  have hsame : ∀ {p}, v.Mountable foreign path p → p = normalized :=
    fun h => Except.ok.inj (h.normalized.symm.trans hnormal)
  split
  · rename_i hroot
    exact .inr ⟨⟨_, rfl⟩, fun p h => h.not_root (hsame h ▸ hroot)⟩
  rename_i hroot
  split
  · rename_i e herr
    refine .inr ⟨⟨e, rfl⟩, fun p h => ?_⟩
    obtain ⟨r, hr, -⟩ := hsame h ▸ h.directory
    exact nomatch herr.symm.trans hr
  · rename_i resolved hresolved
    split
    · rename_i hfile
      refine .inr ⟨⟨_, rfl⟩, fun p h => ?_⟩
      obtain ⟨r, hr, hdir⟩ := hsame h ▸ h.directory
      exact hfile (Except.ok.inj (hresolved.symm.trans hr) ▸ hdir)
    rename_i hdir
    split
    · rename_i hold
      obtain ⟨m, hm, heq⟩ := any_eq_true.1 hold
      exact .inr ⟨⟨_, rfl⟩, fun p h => h.unmounted m hm ((beq_iff_eq.1 heq).trans (hsame h).symm)⟩
    rename_i hnew
    refine .inl ⟨_, rfl, ⟨hnormal, hroot, ⟨_, hresolved, not_not.1 hdir⟩, fun m hm heq => ?_⟩,
      rfl⟩
    exact hnew (any_eq_true.2 ⟨m, hm, beq_iff_eq.2 heq⟩)

theorem mounts_of_mount {v v' : System F} {path : Str} {fs : FileSystem F}
    (h : v.mount foreign path fs = .ok v') :
    ∃ m, v'.mounts = v.mounts ++ [m] ∧ ∀ m' ∈ v.mounts, m'.path ≠ m.path := by
  rcases v.mount_cases foreign path fs with ⟨m, -, hmountable, hok⟩ | ⟨⟨e, herr⟩, -⟩
  · rw [hok] at h
    cases h
    exact ⟨m, rfl, hmountable.unmounted⟩
  · exact nomatch herr.symm.trans h

theorem eq_of_unmount {v v' : System F} {openInodes : Str → Bool} {path : Str}
    (h : v.unmount openInodes path = .ok v') :
    ∃ index, v' = { v with mounts := v.mounts.eraseIdx index } := by
  rw [unmount] at h
  split at h
  · cases h
  split at h
  · cases h
  split at h
  · cases h
  split at h
  · cases h
  · cases h
    exact ⟨_, rfl⟩

/-- **No path is in the table twice.** -/
theorem Reached.nodup {v : System F} (h : Reached foreign v) : (v.mounts.map (·.path)).Nodup := by
  induction h with
  | start hnil =>
    rw [hnil]
    exact nodup_nil
  | mount _ hmount ih =>
    obtain ⟨m, hmounts, hnew⟩ := mounts_of_mount foreign hmount
    rw [hmounts, map_append, nodup_append]
    refine ⟨ih, nodup_singleton _, fun p hp q hq => ?_⟩
    obtain ⟨m', hm', rfl⟩ := mem_map.1 hp
    rw [mem_singleton.1 hq]
    exact hnew m' hm'
  | unmount _ hunmount ih =>
    obtain ⟨index, rfl⟩ := eq_of_unmount hunmount
    exact ih.sublist ((eraseIdx_sublist _ _).map _)
  | mountRoot _ _ ih => exact ih
  | meanwhile _ htable ih =>
    rw [htable]
    exact ih

/-! ## The longest mount point -/

/-- This mount point is above the path, and every other one is further up. -/
structure Selects (path : Str) (m : MountPoint F) : Prop where
  mem : m ∈ v.mounts
  above : m.segments <+: splitSegments path
  longest : ∀ m' ∈ v.mounts, m'.segments <+: splitSegments path → m' ≠ m →
    m'.segments.length < m.segments.length

variable {v} {path : Str} {m : MountPoint F}

theorem Selects.unique {m' : MountPoint F} (h : v.Selects path m) (h' : v.Selects path m') :
    m' = m := by
  by_contra hne
  have hlt := h.longest m' h'.mem h'.above hne
  have hgt := h'.longest m h.mem h.above (Ne.symm hne)
  omega

theorem eq_of_above (hnodup : (v.mounts.map (·.path)).Nodup) {m' : MountPoint F} (hm : m ∈ v.mounts)
    (hm' : m' ∈ v.mounts) (habove : m.segments <+: splitSegments path)
    (habove' : m'.segments <+: splitSegments path) (hlen : m.segments.length = m'.segments.length) :
    m = m' := by
  have hsegments := (prefix_of_prefix_length_le habove habove' hlen.le).eq_of_length hlen
  refine inj_on_of_nodup_map hnodup hm hm' ?_
  rw [m.segments_spec.2.2, m'.segments_spec.2.2, hsegments]

/-- The mount point with the longest text is the one furthest down. -/
theorem selects_of_max (hnodup : (v.mounts.map (·.path)).Nodup) (hpath : Canonical path)
    (h : maxByKey (fun m => utf8Len m.path) (v.mounts.filter fun m => m.covers path) = some m) :
    v.Selects path m := by
  obtain ⟨hnormal, hjoined⟩ := hpath.spec
  have hspec := maxByKey_spec (fun m => utf8Len m.path) (v.mounts.filter fun m => m.covers path)
  have hcovers : ∀ m' : MountPoint F, m'.covers path = true ↔ m'.segments <+: splitSegments path :=
    fun m' => by rw [← m'.covers_iff hnormal, ← hjoined]
  rw [h] at hspec
  simp only [mem_filter, hcovers] at hspec
  obtain ⟨⟨hmem, habove⟩, hmax⟩ := hspec
  refine ⟨hmem, habove, fun m' hmem' habove' hne => ?_⟩
  rcases lt_trichotomy m'.segments.length m.segments.length with hlt | heq | hgt
  · exact hlt
  · exact absurd (eq_of_above hnodup hmem' hmem habove' habove heq) hne
  have hlt := m.utf8Len_lt m' habove habove' hgt
  have hle := hmax m' ⟨hmem', habove'⟩
  omega

/-- The path that a mount path and the rest of a path make. -/
def followed (mountPath rest : Str) : Str :=
  if mountPath = ['/'] then '/' :: rest
  else if rest = [] then mountPath
  else mountPath ++ '/' :: rest

section Followed

variable (hpath : Canonical path) (habove : m.segments <+: splitSegments path)
include hpath habove

theorem rest_of_above (hne : path ≠ m.path) : ∃ rest, rest ≠ [] ∧ path = m.path ++ '/' :: rest := by
  obtain ⟨hnormal, hjoined⟩ := hpath.spec
  obtain ⟨hsegments, -, hmount⟩ := m.segments_spec
  obtain ⟨us, hus⟩ := habove
  rcases us with _ | ⟨u, us⟩
  · rw [append_nil] at hus
    exact absurd (hjoined.trans (hus ▸ hmount.symm)) hne
  have hu : u ≠ [] := (hnormal u (hus ▸ by simp)).segment.1
  refine ⟨u ++ us.flatMap fun s => '/' :: s, by simp [hu], ?_⟩
  rw [hjoined, ← hus, joinAbsoluteSegments, joined_append hsegments (cons_ne_nil _ _),
    hmount]
  simp [joinAbsoluteSegments, joined]

theorem followed_mount :
    followed m.path (if path = m.path then [] else path.drop (m.path.length + 1)) = path := by
  obtain ⟨hne, hnormal, hmount⟩ := m.segments_spec
  have hroot : m.path ≠ ['/'] := by
    rw [hmount, Ne, joined_eq_root_iff hnormal]
    exact hne
  rw [followed, if_neg hroot]
  by_cases heq : path = m.path
  · rw [if_pos heq, if_pos rfl, heq]
  obtain ⟨rest, hrest, hsplit⟩ := rest_of_above hpath habove heq
  have hdrop : path.drop (m.path.length + 1) = rest := by
    rw [hsplit, ← drop_drop, drop_left]
    rfl
  rw [if_neg heq, hdrop, if_neg hrest, hsplit]

end Followed

theorem followed_root (hpath : Canonical path) : followed ['/'] path.tail = path := by
  obtain ⟨ss, -, rfl⟩ := hpath
  cases ss <;> rfl

/-- What `resolve_path` returns if no mount point is above the path. -/
def FromRoot (v : System F) (path : Str) : Prop :=
  match v.root with
  | none => v.resolvePath path = .error .notFound
  | some fs => ∃ rest, v.resolvePath path = .ok ⟨v.rootInode fs, ['/'], rest⟩ ∧
      followed ['/'] rest = path

theorem resolvePath_fromRoot (hpath : Canonical path)
    (hnone : ∀ m ∈ v.mounts, ¬ m.segments <+: splitSegments path) : v.FromRoot path := by
  obtain ⟨hnormal, hjoined⟩ := hpath.spec
  have hfilter : (v.mounts.filter fun m => m.covers path) = [] := by
    rw [filter_eq_nil_iff]
    intro m hm hcovers
    rw [hjoined, m.covers_iff hnormal] at hcovers
    exact hnone m hm hcovers
  have hresolve : v.resolvePath path = match v.root with
      | none => .error .notFound
      | some fs => .ok ⟨v.rootInode fs, ['/'], path.tail⟩ := by
    rw [resolvePath, hfilter]
    split_ifs with heq
    · rw [heq]
      rfl
    · rfl
  rw [FromRoot]
  cases hroot : v.root with
  | none => rw [hresolve, hroot]
  | some fs => exact ⟨path.tail, by rw [hresolve, hroot], followed_root hpath⟩

theorem resolvePath_selected (hpath : Canonical path) (hm : m ∈ v.mounts)
    (habove : m.segments <+: splitSegments path) :
    ∃ m', maxByKey (fun m => utf8Len m.path) (v.mounts.filter fun m => m.covers path) = some m' ∧
      v.resolvePath path = .ok ⟨v.rootInode m'.fs, m'.path,
        if path = m'.path then [] else path.drop (m'.path.length + 1)⟩ := by
  obtain ⟨hnormal, hjoined⟩ := hpath.spec
  have hspec := maxByKey_spec (fun m => utf8Len m.path) (v.mounts.filter fun m => m.covers path)
  have hroot : path ≠ ['/'] := by
    rintro rfl
    have hnil := prefix_nil.1 (habove.trans (by decide : splitSegments ['/'] <+: []))
    exact m.segments_spec.1 hnil
  cases hmax : maxByKey (fun m => utf8Len m.path) (v.mounts.filter fun m => m.covers path) with
  | none =>
    rw [hmax] at hspec
    have hcovers : m.covers path = true := by
      rw [hjoined, m.covers_iff hnormal]
      exact habove
    exact absurd hcovers (filter_eq_nil_iff.1 hspec m hm)
  | some m' =>
    refine ⟨m', rfl, ?_⟩
    rw [resolvePath, if_neg hroot, hmax]

theorem resolvePath_cases (h : Reached foreign v) (hpath : Canonical path) :
    (∃ m rest, (∀ m', v.Selects path m' ↔ m' = m) ∧
      v.resolvePath path = .ok ⟨v.rootInode m.fs, m.path, rest⟩ ∧ followed m.path rest = path) ∨
    ((∀ m ∈ v.mounts, ¬ m.segments <+: splitSegments path) ∧ v.FromRoot path) := by
  by_cases hexists : ∃ m ∈ v.mounts, m.segments <+: splitSegments path
  · obtain ⟨m, hm, habove⟩ := hexists
    obtain ⟨m', hmax, hresolve⟩ := resolvePath_selected hpath hm habove
    have hselects := selects_of_max (h.nodup foreign) hpath hmax
    refine .inl ⟨m', _, fun m'' => ⟨hselects.unique, ?_⟩, hresolve,
      followed_mount hpath hselects.above⟩
    rintro rfl
    exact hselects
  · rw [not_exists] at hexists
    have hnone : ∀ m ∈ v.mounts, ¬ m.segments <+: splitSegments path :=
      fun m hm habove => hexists m ⟨hm, habove⟩
    exact .inr ⟨hnone, resolvePath_fromRoot hpath hnone⟩

theorem canonical_mnt2 : Canonical ['/', 'm', 'n', 't', '2'] := by
  refine ⟨[['m', 'n', 't', '2']], fun s hs => ?_, rfl⟩
  obtain rfl := mem_singleton.1 hs
  exact ⟨⟨by decide, by decide⟩, by decide, by decide⟩

/-- What is mounted on `/mnt` has nothing to do with `/mnt2`. -/
theorem mnt_not_selected (h : Reached foreign v) {r : ResolvedInode F}
    (hr : v.resolvePath ['/', 'm', 'n', 't', '2'] = .ok r) :
    r.mountPath ≠ ['/', 'm', 'n', 't'] := by
  intro hmnt
  rcases resolvePath_cases foreign h canonical_mnt2 with ⟨m, rest, hselects, hresolve, -⟩ |
    ⟨-, hroot⟩
  · rw [hresolve, Except.ok.injEq] at hr
    subst hr
    have hmnt : m.path = ['/', 'm', 'n', 't'] := hmnt
    have habove := ((hselects m).2 rfl).above
    rw [MountPoint.segments, hmnt] at habove
    exact absurd habove (by decide)
  · rw [FromRoot, hr] at hroot
    split at hroot
    · cases hroot
    obtain ⟨rest, heq, -⟩ := hroot
    cases heq
    have hmnt : ['/'] = ['/', 'm', 'n', 't'] := hmnt
    exact absurd hmnt (by decide)

/-- **Which file system a path is looked up in**: the one that is mounted furthest down on the way
to it, which is one mount point at most, or else the root.  The mount path and the rest make the
path. -/
theorem resolvePath_longest (h : Reached foreign v) (hpath : Canonical path) :
    ((∃ m rest, (∀ m', v.Selects path m' ↔ m' = m) ∧
        v.resolvePath path = .ok ⟨v.rootInode m.fs, m.path, rest⟩ ∧
        followed m.path rest = path) ∨
      ((∀ m ∈ v.mounts, ¬ m.segments <+: splitSegments path) ∧ v.FromRoot path)) ∧
    ∀ r, v.resolvePath ['/', 'm', 'n', 't', '2'] = .ok r → r.mountPath ≠ ['/', 'm', 'n', 't'] :=
  ⟨resolvePath_cases foreign h hpath, fun _ hr => mnt_not_selected foreign h hr⟩

end System

/-- The white space before the last slash is found in the second round. -/
theorem normalized_twice : normalizeAbsolutePath "/a /.".toList = .ok "/a ".toList ∧
    normalizeAbsolutePath "/a ".toList = .ok "/a".toList := by
  decide

theorem normalize_again_dots : normalizeAbsolutePath "/b/a /..".toList = .ok "/b".toList ∧
    mounted.lookupPath noForeign "/b".toList = mounted.lookupExact noForeign "/b".toList := by
  have h : normalizeAbsolutePath "/b/a /..".toList = .ok "/b".toList := by decide
  exact ⟨h, (mounted.normalize_again_iff noForeign h).2 (by decide)⟩

/-- There is no `/x`, and a file system is mounted on it. -/
theorem missing_mounted_on :
    unmounted.lookupPath noForeign ['/', 'x'] = .error .notFound ∧
      ((unmounted.mount noForeign ['/', 'x'] (.memory 2)).map fun v => v.mounts.map (·.path)) =
        .ok [['/', 'x']] := ⟨rfl, rfl⟩

theorem reached_mounted : System.Reached noForeign mounted := by
  have hmount : unmounted.mount noForeign ['/', 'm', 'n', 't'] (.memory 2) = .ok mounted := rfl
  exact .mount (.start rfl) hmount

/-- With a file system on `/mnt`, nothing is looked up there for `/mnt2`. -/
theorem resolvePath_longest_mnt2 :
    (∀ m ∈ mounted.mounts, ¬ m.segments <+: splitSegments ['/', 'm', 'n', 't', '2']) ∧
      mounted.FromRoot ['/', 'm', 'n', 't', '2'] := by
  rcases (System.resolvePath_longest noForeign reached_mounted System.canonical_mnt2).1 with
    ⟨m, -, hselects, -⟩ | hroot
  · have hselected := (hselects m).2 rfl
    have hmount := mem_singleton.1 hselected.mem
    have habove := hselected.above
    rw [hmount] at habove
    exact absurd habove (by decide)
  · exact hroot

end Krust.Vfs
