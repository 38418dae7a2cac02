import Krust.Memfs.Reach

/-!
# What a call does to the entries

`unlink` and `rename` as changes of the relation "this directory lists this inode under this name".
A successful `unlink` takes away the one entry it was asked to take away, and a successful `rename`
takes away the old entry and the one in the way of the new one, if there is one.
-/

set_option autoImplicit false

namespace Krust.Memfs

open Prog List Function

/-- What the inodes list. -/
abbrev Listing := Nat → Except FsError (List (Str × Nat))

/-- What an inode lists; a file answers with an error. -/
def Fs.listing (fs : Fs) : Listing := fun d => (fs.node d).storage.entries

theorem entries_eq (fs : Fs) (d : Nat) : fs.entries d = (fs.listing d).toOption.getD [] := by
  rw [Fs.entries, Fs.listing]
  cases (fs.node d).storage <;> rfl

theorem entries_of_listing {fs : Fs} {d : Nat} {es : List (Str × Nat)} (h : fs.listing d = .ok es) :
    fs.entries d = es := by
  rw [entries_eq, h]
  rfl

/-- What `lookup` answers. -/
def Fs.lookup (fs : Fs) (d : Nat) (name : Str) : Except FsError Nat :=
  match fs.listing d with
  | .error e => .error e
  | .ok es => (findEntry es name).map Prod.snd

/-! ## As a change of a relation -/

section Entries

variable {es : List (Str × Nat)} {index child source : Nat} {name newName : Str}

theorem mem_eraseIdx_iff (hnames : (es.map Prod.fst).Nodup)
    (hentry : es[index]? = some (name, child)) (n : Str) (i : Nat) :
    (n, i) ∈ es.eraseIdx index ↔ (n, i) ∈ es ∧ n ≠ name := by
  have hperm := perm_eraseIdx hentry
  have hnot := notMem_of_eraseIdx hentry hnames
  constructor
  · refine fun h => ⟨hperm.mem_iff.2 (mem_cons_of_mem _ h), ?_⟩
    rintro rfl
    exact hnot (mem_map.2 ⟨_, h, rfl⟩)
  · rintro ⟨h, hn⟩
    exact (mem_cons.1 (hperm.mem_iff.1 h)).resolve_left fun he => hn (congrArg Prod.fst he)

theorem mem_removeAt_iff (hnames : (es.map Prod.fst).Nodup) (n : Str) (i : Nat) :
    (n, i) ∈ removeAt (findEntry es newName) es ↔ (n, i) ∈ es ∧ n ≠ newName := by
  cases hfind : findEntry es newName with
  | ok found => exact mem_eraseIdx_iff hnames (findEntry_ok hfind) n i
  | error e =>
    refine ⟨fun h => ⟨h, ?_⟩, And.left⟩
    rintro rfl
    exact findEntry_error hfind (mem_map.2 ⟨_, h, rfl⟩)

theorem mem_renameFirst_iff (honce : (es.map Prod.snd).Nodup) (hmem : source ∈ es.map Prod.snd)
    (n : Str) (i : Nat) :
    (n, i) ∈ renameFirst source newName es ↔
      ((n, i) ∈ es ∧ i ≠ source) ∨ (n = newName ∧ i = source) := by
  obtain ⟨m, l1, l2, rfl, hren⟩ := renameFirst_eq newName hmem
  rw [hren]
  have hnot : ∀ k, (k, source) ∉ l1 ++ l2 := by
    intro k hk
    rw [map_append, map_cons, nodup_middle, nodup_cons, ← map_append]
      at honce
    exact honce.1 (mem_map.2 ⟨_, hk, rfl⟩)
  by_cases hi : i = source
  · simp_all
  · simp [hi]

end Entries

theorem removeAt_sublist (found : Except FsError (Nat × Nat)) (es : List (Str × Nat)) :
    (removeAt found es).Sublist es := by
  cases found with
  | error e => exact List.Sublist.refl es
  | ok found => exact eraseIdx_sublist es found.1

section Relation

variable {w : World} {fs' : Fs} {self d index source : Nat} {name newName : Str}

theorem Good.names (hg : Good [] w) (hd : d ∈ w.fs.live) : ((w.fs.entries d).map Prod.fst).Nodup :=
  (hg.tree.sound d hd).names

/-- **What a successful `unlink` does**: the entry is gone, and no other is. -/
theorem Unlinked.mem_entries (hg : Good [] w) (hself : self ∈ w.fs.live)
    (h : Unlinked w.fs self name fs') (k : Nat) (n : Str) (i : Nat) :
    (n, i) ∈ fs'.entries k ↔ (n, i) ∈ w.fs.entries k ∧ ¬ (k = self ∧ n = name) := by
  obtain ⟨index, child, hentry, hents⟩ := h.entries
  rw [hents]
  by_cases hk : k = self
  · subst hk
    simpa using mem_eraseIdx_iff (hg.names hself) hentry n i
  · rw [update_of_ne hk]
    simp [hk]

/-- What a successful `rename` does, if the old entry is not the new one: the old entry is gone,
and the new one has taken the place of any that was there. -/
def Moved (fs fs' : Fs) (self : Nat) (name : Str) (d : Nat) (newName : Str) : Prop :=
  ∃ source, (name, source) ∈ fs.entries self ∧ ∀ k n i, (n, i) ∈ fs'.entries k ↔
    ((n, i) ∈ fs.entries k ∧ ¬ (k = self ∧ n = name) ∧ ¬ (k = d ∧ n = newName)) ∨
      (k = d ∧ n = newName ∧ i = source)

section Moved

variable (hg : Good [] w) (hself : self ∈ w.fs.live)
include hg hself

theorem moved_within (hn : name ≠ newName) (hmem : (name, source) ∈ w.fs.entries self)
    (hents : fs'.entries = Function.update w.fs.entries self (renameFirst source newName
      (removeAt (findEntry (w.fs.entries self) newName) (w.fs.entries self)))) :
    Moved w.fs fs' self name self newName := by
  refine ⟨source, hmem, fun k n i => ?_⟩
  rw [hents]
  by_cases hk : k = self
  · subst hk
    have hsub := (removeAt_sublist (findEntry (w.fs.entries k) newName) (w.fs.entries k)).map
      Prod.snd
    -- in this directory the entry of the source is the entry with its name
    have hsource : (n, i) ∈ w.fs.entries k → (i ≠ source ↔ n ≠ name) := by
      refine fun h => not_congr ⟨?_, ?_⟩
      · rintro rfl
        exact hg.tree.name_unique hself h hmem
      · rintro rfl
        exact hg.tree.inode_unique hself h hmem
    rw [update_self, mem_renameFirst_iff (hsub.nodup (hg.tree.sound k hself).once)
      (mem_removeAt hmem hn),
      mem_removeAt_iff (hg.names hself)]
    simp only [true_and]
    refine or_congr_left ⟨?_, ?_⟩
    · rintro ⟨⟨h, hne⟩, hi⟩
      exact ⟨h, (hsource h).1 hi, hne⟩
    · rintro ⟨h, hi, hne⟩
      exact ⟨⟨h, hne⟩, (hsource h).2 hi⟩
  · rw [update_of_ne hk]
    simp [hk]

theorem moved_across (hd : d ∈ w.fs.live) (hsd : self ≠ d)
    (hentry : (w.fs.entries self)[index]? = some (name, source))
    (hents : fs'.entries = Function.update
      (Function.update w.fs.entries self ((w.fs.entries self).eraseIdx index)) d
        (removeAt (findEntry (w.fs.entries d) newName) (w.fs.entries d) ++ [(newName, source)])) :
    Moved w.fs fs' self name d newName := by
  refine ⟨source, mem_of_getElem? hentry, fun k n i => ?_⟩
  rw [hents]
  by_cases hk : k = d
  · subst hk
    rw [update_self]
    simp [mem_removeAt_iff (hg.names hd), Ne.symm hsd]
  rw [update_of_ne hk]
  by_cases hks : k = self
  · subst hks
    rw [update_self, mem_eraseIdx_iff (hg.names hself) hentry]
    simp [hk]
  · rw [update_of_ne hks]
    simp [hk, hks]

theorem Renamed.moved (hd : d ∈ w.fs.live) (h : Renamed w.fs self name d newName fs') :
    (self = d ∧ name = newName ∧ fs'.entries = w.fs.entries) ∨
      (¬ (self = d ∧ name = newName) ∧ Moved w.fs fs' self name d newName) := by
  cases h with
  | same hsd hn h => exact .inl ⟨hsd, hn, h⟩
  | within hsd hn hmem h =>
    subst hsd
    exact .inr ⟨fun h => hn h.2, moved_within hg hself hn hmem h⟩
  | across hsd hentry h =>
    exact .inr ⟨fun h => hsd h.1, moved_across hg hself hd hsd hentry h⟩

end Moved

end Relation

end Krust.Memfs
