import Krust.Memfs.Ops
import Krust.Lib.Forest

/-!
# The directory tree

The part of a file system that `create`, `unlink` and `rename` are about, without locks, counters
and contents: which inodes exist, which of them are directories, and for each its parent field, its
link count and its entries.  `Dirs.IsTree` is the invariant, that the inodes whose link count is
not zero form a tree below the root and that the others have come off it altogether.

Every change of the tree goes through a state in which one linked inode is in somebody's hands and
listed nowhere, so the invariant has a parameter for that inode.  A fresh inode begins in that
state (`Dirs.fresh`) and an existing one is brought there by taking out its entry (`Dirs.takeOut`);
it leaves it by being listed again (`Dirs.hang`) or by being detached (`Dirs.kill`).  Creating,
removing, renaming and moving are the four ways of putting these together.  A new list of entries
is given up to order, since only what it contains matters.
-/

set_option autoImplicit false

namespace Krust.Memfs

open List Function Option Prod

/-- The namespace of a file system. -/
structure Dirs where
  live : Finset Nat
  dir : Nat → Bool
  parent : Nat → Nat
  links : Nat → Nat
  ents : Nat → List (Str × Nat)
  root : Nat

def Fs.dirs (fs : Fs) : Dirs where
  live := fs.live
  dir i := decide ((fs.node i).fileType = .directory)
  parent i := (fs.node i).parent
  links i := (fs.node i).links
  ents i := fs.entries i
  root := fs.root

variable {isDir : Bool} {a d' i : Nat} {n' : Str}

namespace Dirs

variable {t : Dirs}

/-- The inode has not been detached. -/
def Linked (t : Dirs) (i : Nat) : Prop := i ∈ t.live ∧ t.links i ≠ 0

/-- What the invariant says of one inode by itself. -/
structure Sound (dir : Nat → Bool) (isDir : Bool) (links : Nat) (es : List (Str × Nat)) : Prop where
  names : (es.map fst).Nodup
  /-- A directory lists an inode under one name. -/
  once : (es.map snd).Nodup
  file : isDir = false → es = []
  /-- The link count of a directory is two and one for each subdirectory. -/
  links_dir : links ≠ 0 → isDir = true → links = 2 + es.countP fun e => dir e.2
  /-- A detached directory is empty. -/
  detached : links = 0 → es = []

/-- **The invariant of the namespace.**  `out` is the inode that is linked and not listed. -/
structure IsTree (t : Dirs) (out : Option Nat) : Prop where
  root_linked : t.Linked t.root
  root_dir : t.dir t.root = true
  root_parent : t.parent t.root = 0
  /-- Zero is the number of no inode. -/
  zero : 0 ∉ t.live
  sound : ∀ d ∈ t.live, Sound t.dir (t.dir d) (t.links d) (t.ents d)
  /-- What a directory lists is linked, and its parent is that directory. -/
  listed : ∀ d ∈ t.live, ∀ n i, (n, i) ∈ t.ents d → t.Linked i ∧ t.parent i = d ∧ i ≠ t.root
  /-- What is linked is listed by its parent. -/
  linked : ∀ i, t.Linked i → i ≠ t.root → some i ≠ out →
    t.parent i ∈ t.live ∧ ∃ n, (n, i) ∈ t.ents (t.parent i)
  /-- The inode that is taken out is listed nowhere. -/
  out_linked : ∀ i, some i = out → t.Linked i ∧ i ≠ t.root ∧ t.Linked (t.parent i) ∧
    ∀ d ∈ t.live, ∀ n, (n, i) ∉ t.ents d
  /-- Climbing from a linked inode arrives at the root. -/
  rooted : ∀ i, t.Linked i → Rooted t.parent t.root i

variable {dir : Nat → Bool} {links : Nat}

/-- The inode is a directory with entries of which the invariant is known. -/
theorem Sound.ofDir {es : List (Str × Nat)}
    (names : (es.map fst).Nodup) (once : (es.map snd).Nodup)
    (hlinks : links = 2 + es.countP fun e => dir e.2) : Sound dir true links es :=
  ⟨names, once, nofun, fun _ _ => hlinks, fun h0 => by omega⟩

theorem sound_nil (h : links ≠ 0 → isDir = true → links = 2) :
    Sound dir isDir links [] := ⟨.nil, .nil, fun _ => rfl, h, fun _ => rfl⟩

namespace IsTree

variable {out : Option Nat} (h : t.IsTree out) {d c : Nat} {n : Str}

include h

theorem linked_of_mem (hd : d ∈ t.live) (hc : (n, c) ∈ t.ents d) : t.Linked d ∧ t.dir d = true := by
  refine ⟨⟨hd, fun h0 => ?_⟩, ?_⟩
  · rw [(h.sound d hd).detached h0] at hc
    exact absurd hc not_mem_nil
  by_contra hdir
  rw [(h.sound d hd).file (by simpa using hdir)] at hc
  exact absurd hc not_mem_nil

theorem linked_parent (hc : t.Linked c) (hroot : c ≠ t.root) : t.Linked (t.parent c) := by
  by_cases hout : some c = out
  · exact (h.out_linked c hout).2.2.1
  · obtain ⟨hp, m, hm⟩ := h.linked c hc hroot hout
    exact (h.linked_of_mem hp hm).1

theorem linked_of_above (hc : t.Linked c) (ha : Above t.parent t.root a c) : t.Linked a := by
  induction ha with
  | here => exact hc
  | step hx _ ih => exact ih (h.linked_parent hc hx)

variable (hd : d ∈ t.live)
include hd

theorem dir_unique (hd' : d' ∈ t.live) (hc : (n, c) ∈ t.ents d) (hc' : (n', c) ∈ t.ents d') :
    d = d' := by
  rw [← (h.listed d hd n c hc).2.1, (h.listed d' hd' n' c hc').2.1]

variable (hc : (n, c) ∈ t.ents d)
include hc

theorem name_unique (hc' : (n', c) ∈ t.ents d) : n = n' :=
  congrArg fst (inj_on_of_nodup_map ((h.sound d hd).once) hc hc' rfl)

theorem inode_unique {c' : Nat} (hc' : (n, c') ∈ t.ents d) : c = c' :=
  congrArg snd (inj_on_of_nodup_map ((h.sound d hd).names) hc hc' rfl)

/-- A directory does not list itself, nor anything it is below. -/
theorem not_above_of_mem : ¬ Above t.parent t.root c d := by
  obtain ⟨hlink, hparent, hroot⟩ := h.listed d hd n c hc
  rw [← hparent]
  exact (h.rooted c hlink).not_above_up hroot

theorem ne_of_mem : c ≠ d := by
  rintro rfl
  exact h.not_above_of_mem hd hc .here

end IsTree

/-! ## Taking an entry out -/

/-- A directory gains or loses a subdirectory. -/
def weight (t : Dirs) (c : Nat) : Nat := if t.dir c then 1 else 0

/-- Take the entry of `c` out of `d`, which is left with these entries. -/
def takeOut (t : Dirs) (d c : Nat) (es : List (Str × Nat)) : Dirs :=
  { t with
    links := update t.links d (t.links d - t.weight c)
    ents := update t.ents d es }

theorem takeOut_weight (t : Dirs) (d c : Nat) (es : List (Str × Nat)) :
    (t.takeOut d c es).weight = t.weight := rfl

variable {c d : Nat} {n : Str} {es : List (Str × Nat)}

/-- What is true of the changed directory and of all others is true of all. -/
theorem forall_update {α : Type} {f : Nat → α} {a : α} {P : Nat → α → Prop} (hd : P d a)
    (hne : ∀ i, i ≠ d → P i (f i)) (i : Nat) : P i (update f d a i) := by
  by_cases h : i = d
  · subst h
    rwa [update_self]
  · rw [update_of_ne h]
    exact hne i h

section TakeOut

variable (h : t.IsTree none) (hd : d ∈ t.live) (hes : (t.ents d).Perm ((n, c) :: es))
include h hd hes

/-- The link count that is left. -/
theorem IsTree.links_takeOut :
    t.links d - t.weight c = 2 + es.countP fun e => t.dir e.2 := by
  obtain ⟨hdl, hdd⟩ := h.linked_of_mem hd (hes.mem_iff.2 mem_cons_self)
  have hl := (h.sound d hd).links_dir hdl.2 hdd
  rw [hes.countP_eq, countP_cons] at hl
  dsimp only at hl
  rw [weight]
  omega

theorem IsTree.takeOut_linked (i : Nat) :
    (t.takeOut d c es).Linked i ↔ t.Linked i := by
  have hdl := (h.linked_of_mem hd (hes.mem_iff.2 mem_cons_self)).1
  refine and_congr_right fun _ => forall_update (P := fun i l => l ≠ 0 ↔ t.links i ≠ 0) ?_
    (fun _ _ => Iff.rfl) i
  rw [h.links_takeOut hd hes]
  exact iff_of_true (by omega) hdl.2

theorem IsTree.takeOut :
    (t.takeOut d c es).IsTree (some c) := by
  have hmem : (n, c) ∈ t.ents d := hes.mem_iff.2 mem_cons_self
  obtain ⟨hc, hparent, hroot⟩ := h.listed d hd n c hmem
  obtain ⟨hdl, hdd⟩ := h.linked_of_mem hd hmem
  have hcount := h.links_takeOut hd hes
  have hlinked := h.takeOut_linked hd hes
  -- what the directories still list
  have hents : ∀ d' ∈ t.live, ∀ m i, (m, i) ∈ (t.takeOut d c es).ents d' →
      (m, i) ∈ t.ents d' ∧ i ≠ c := fun d' hd' m i => by
    refine forall_update (P := fun d' l => d' ∈ t.live → (m, i) ∈ l → (m, i) ∈ t.ents d' ∧ i ≠ c)
      ?_ ?_ d' hd'
    · intro _ hi
      refine ⟨hes.mem_iff.2 (mem_cons_of_mem _ hi), ?_⟩
      rintro rfl
      exact (nodup_cons.1 ((hes.map snd).nodup_iff.1 ((h.sound d hd).once))).1
        (mem_map.2 ⟨_, hi, rfl⟩)
    · intro d' hne hd' hi
      refine ⟨hi, ?_⟩
      rintro rfl
      exact hne (h.dir_unique hd' hd hi hmem)
  have hkept : ∀ d' m i, (m, i) ∈ t.ents d' → i ≠ c → (m, i) ∈ (t.takeOut d c es).ents d' :=
    fun d' m i => by
      refine forall_update (P := fun d' l => (m, i) ∈ t.ents d' → i ≠ c → (m, i) ∈ l) ?_
        (fun _ _ hi _ => hi) d'
      intro hi hic
      exact (mem_cons.1 (hes.mem_iff.1 hi)).resolve_left fun he => hic (congrArg snd he)
  refine ⟨(hlinked _).2 h.root_linked, h.root_dir, h.root_parent, h.zero, fun d' hd' => ?_, fun d'
    hd' m i hi => ?_, fun i hi hir hic => ?_, fun i hi => ?_, fun i hi => h.rooted i ((hlinked i).1
    hi)⟩
  · by_cases hne : d' = d
    · subst hne
      simp only [takeOut, update_self, hdd]
      exact .ofDir (nodup_cons.1 ((hes.map fst).nodup_iff.1 ((h.sound d' hd).names))).2
        (nodup_cons.1 ((hes.map snd).nodup_iff.1 ((h.sound d' hd).once))).2 hcount
    · simpa only [Dirs.takeOut, update_of_ne hne] using h.sound _ hd'
  · obtain ⟨hl, hp, hr⟩ := h.listed d' hd' m i (hents d' hd' m i hi).1
    exact ⟨(hlinked i).2 hl, hp, hr⟩
  · obtain ⟨hp, m, hm⟩ := h.linked i ((hlinked i).1 hi) hir (by simp)
    exact ⟨hp, m, hkept _ m i hm fun he => hic (congrArg some he)⟩
  · obtain rfl := some_inj.1 hi
    refine ⟨(hlinked i).2 hc, hroot, (hlinked _).2 ?_, fun d' hd' m hm => ?_⟩
    · rw [show (t.takeOut d i es).parent i = d from hparent]
      exact hdl
    · exact (hents d' hd' m i hm).2 rfl

end TakeOut

/-! ## Putting an entry in -/

/-- List `c` in `d`, which is given these entries. -/
def hang (t : Dirs) (d c : Nat) (es : List (Str × Nat)) : Dirs :=
  { t with
    parent := update t.parent c d
    links := update t.links d (t.links d + t.weight c)
    ents := update t.ents d es }

theorem IsTree.hang (h : t.IsTree (some c)) (hd : t.Linked d) (hdd : t.dir d = true)
    (hn : n ∉ (t.ents d).map fst) (hes : es.Perm ((n, c) :: t.ents d))
    (habove : ¬ Above t.parent t.root c d) : (t.hang d c es).IsTree none := by
  obtain ⟨hc, hroot, -, hout⟩ := h.out_linked c rfl
  have hlinked : ∀ i, (t.hang d c es).Linked i ↔ t.Linked i := fun i =>
    and_congr_right fun _ => forall_update (P := fun i l => l ≠ 0 ↔ t.links i ≠ 0)
      (iff_of_true (by have := hd.2; omega) hd.2) (fun _ _ => Iff.rfl) i
  have hents : ∀ d' m i, (m, i) ∈ (t.hang d c es).ents d' ↔
      (m, i) ∈ t.ents d' ∨ (d' = d ∧ m = n ∧ i = c) := fun d' m i => by
    refine forall_update (P := fun d' l => (m, i) ∈ l ↔ (m, i) ∈ t.ents d' ∨
      (d' = d ∧ m = n ∧ i = c)) ?_ (fun d' hne => ?_) d'
    · rw [hes.mem_iff, mem_cons, Prod.mk.injEq, or_comm, and_iff_right rfl]
    · exact (or_iff_left fun h => hne h.1).symm
  have hparent : ∀ i, i ≠ c → (t.hang d c es).parent i = t.parent i := fun i hi =>
    update_of_ne hi _ _
  refine ⟨(hlinked _).2 h.root_linked, h.root_dir, (hparent _ hroot.symm).trans h.root_parent,
    h.zero, fun d' hd' => ?_, fun d' hd' m i hi => ?_, fun i hi hir _ => ?_, fun i hi => absurd hi
    (by simp), fun i hi => (h.rooted d hd).update habove (h.rooted i ((hlinked i).1 hi))⟩
  · by_cases hne : d' = d
    · subst hne
      simp only [hang, update_self, hdd]
      refine .ofDir ((hes.map fst).nodup_iff.2 (nodup_cons.2 ⟨hn, (h.sound d' hd').names⟩))
        ((hes.map snd).nodup_iff.2 (nodup_cons.2 ⟨fun hm => ?_, (h.sound d' hd').once⟩)) ?_
      · obtain ⟨⟨m, i⟩, he, hic⟩ := mem_map.1 hm
        obtain rfl : i = c := hic
        exact hout d' hd' m he
      · rw [hes.countP_eq, countP_cons, (h.sound d' hd').links_dir hd.2 hdd, weight]
        dsimp only
        omega
    · simpa only [Dirs.hang, update_of_ne hne] using h.sound _ hd'
  · rcases (hents d' m i).1 hi with hold | ⟨rfl, rfl, rfl⟩
    · obtain ⟨hl, hp, hr⟩ := h.listed d' hd' m i hold
      refine ⟨(hlinked i).2 hl, (hparent i ?_).trans hp, hr⟩
      rintro rfl
      exact hout d' hd' m hold
    · exact ⟨(hlinked i).2 hc, update_self .., hroot⟩
  · by_cases hic : i = c
    · subst hic
      rw [show (t.hang d i es).parent i = d from update_self ..]
      exact ⟨hd.1, n, (hents d n i).2 (.inr ⟨rfl, rfl, rfl⟩)⟩
    · obtain ⟨hp, m, hm⟩ := h.linked i ((hlinked i).1 hi) hir fun he => hic (some_inj.1 he)
      rw [hparent i hic]
      exact ⟨hp, m, (hents _ m i).2 (.inl hm)⟩

/-! ## Inodes that come and go -/

/-- Detach an inode that is in somebody's hands. -/
def kill (t : Dirs) (c : Nat) : Dirs := { t with links := update t.links c 0 }

theorem IsTree.kill (h : t.IsTree (some c)) (hempty : t.ents c = []) : (t.kill c).IsTree none := by
  obtain ⟨-, hroot, -, hout⟩ := h.out_linked c rfl
  have hlinks : ∀ i, i ≠ c → (t.kill c).links i = t.links i := fun i hi =>
    update_of_ne hi _ _
  have hlinked : ∀ i, (t.kill c).Linked i ↔ t.Linked i ∧ i ≠ c := fun i => by
    by_cases hi : i = c
    · subst hi
      refine iff_of_false (fun hl => hl.2 (update_self ..)) fun hl => hl.2 rfl
    · rw [Linked, hlinks i hi]
      exact (and_iff_left hi).symm
  refine ⟨(hlinked _).2 ⟨h.root_linked, hroot.symm⟩, h.root_dir, h.root_parent, h.zero, fun d hd
    => ?_, fun d hd m i hi => ?_, fun i hi hir _ => ?_, fun i hi => absurd hi (by simp), fun i hi =>
    h.rooted i ((hlinked i).1 hi).1⟩
  · by_cases hdc : d = c
    · subst hdc
      simp only [kill, update_self, hempty]
      exact sound_nil fun h0 => absurd rfl h0
    · rw [hlinks d hdc]
      exact h.sound _ hd
  · obtain ⟨hl, hp, hr⟩ := h.listed d hd m i hi
    refine ⟨(hlinked i).2 ⟨hl, ?_⟩, hp, hr⟩
    rintro rfl
    exact hout d hd m hi
  · obtain ⟨hi, hic⟩ := (hlinked i).1 hi
    exact h.linked i hi hir fun he => hic (some_inj.1 he)

/-- A new inode in somebody's hands, whose parent field says `d` already. -/
def fresh (t : Dirs) (d i : Nat) (isDir : Bool) : Dirs :=
  { t with
    live := insert i t.live
    dir := update t.dir i isDir
    parent := update t.parent i d
    links := update t.links i (if isDir then 2 else 1)
    ents := update t.ents i [] }

theorem IsTree.fresh (h : t.IsTree none) (hd : t.Linked d) (hi : i ∉ t.live) (h0 : i ≠ 0) :
    (t.fresh d i isDir).IsTree (some i) := by
  have hne : ∀ {j}, j ∈ t.live → j ≠ i := fun hj he => hi (he ▸ hj)
  have hlinked : ∀ j, (t.fresh d i isDir).Linked j ↔ t.Linked j ∨ j = i := fun j => by
    by_cases hj : j = i
    · subst hj
      refine iff_of_true ⟨Finset.mem_insert_self .., ?_⟩ (.inr rfl)
      simp only [fresh, update_self]
      split <;> simp
    · simp only [Linked, Dirs.fresh, update_of_ne hj, Finset.mem_insert, hj, false_or,
        or_false]
  have hsub : ∀ {j}, j ∈ t.live → (t.fresh d i isDir).ents j = t.ents j := fun hj =>
    update_of_ne (hne hj) _ _
  have hself : (t.fresh d i isDir).ents i = [] := update_self ..
  have hlive : ∀ {j}, j ∈ (t.fresh d i isDir).live → j ∈ t.live ∨ j = i := fun hj =>
    (Finset.mem_insert.1 hj).symm
  have hparent : ∀ {j}, j ∈ t.live → (t.fresh d i isDir).parent j = t.parent j := fun hj =>
    update_of_ne (hne hj) _ _
  have hparenti : (t.fresh d i isDir).parent i = d := update_self ..
  have hrooted : ∀ j, t.Linked j → Rooted (t.fresh d i isDir).parent t.root j := fun j hj =>
    (h.rooted j hj).congr fun y hy _ => hparent (h.linked_of_above hj hy).1
  have hdir : ∀ {j}, j ∈ t.live → (t.fresh d i isDir).dir j = t.dir j := fun hj =>
    update_of_ne (hne hj) _ _
  refine ⟨(hlinked _).2 (.inl h.root_linked), (hdir h.root_linked.1).trans h.root_dir, (hparent
    h.root_linked.1).trans h.root_parent, fun hz => (hlive hz).elim h.zero (h0 ·.symm), fun d' hd'
    => ?_, fun d' hd' m j hj => ?_, fun j hj hjr hji => ?_, fun j hj => ?_, fun j hj => ?_⟩
  · rcases hlive hd' with hd' | rfl
    · have hs := h.sound _ hd'
      rw [hdir hd', hsub hd', show (t.fresh d i isDir).links d' = t.links d' from
        update_of_ne (hne hd') _ _]
      refine ⟨hs.names, hs.once, hs.file, fun h0 hd => (hs.links_dir h0 hd).trans ?_, hs.detached⟩
      refine congrArg (2 + ·) (countP_congr fun e he => ?_)
      rw [hdir (h.listed d' hd' e.1 e.2 he).1.1]
    · rw [hself]
      refine sound_nil fun _ hd => ?_
      simp only [fresh, update_self] at hd ⊢
      exact if_pos hd
  · rcases hlive hd' with hd' | rfl
    · rw [hsub hd'] at hj
      obtain ⟨hl, hp, hr⟩ := h.listed d' hd' m j hj
      exact ⟨(hlinked j).2 (.inl hl), (hparent hl.1).trans hp, hr⟩
    · rw [hself] at hj
      exact absurd hj not_mem_nil
  · have hj := ((hlinked j).1 hj).resolve_right fun he => hji (congrArg some he)
    obtain ⟨hp, m, hm⟩ := h.linked j hj hjr (by simp)
    rw [hparent hj.1]
    exact ⟨Finset.mem_insert_of_mem hp, m, by rwa [hsub hp]⟩
  · obtain rfl := some_inj.1 hj
    refine ⟨(hlinked j).2 (.inr rfl), (hne h.root_linked.1).symm, ?_, fun d' hd' m hm => ?_⟩
    · rw [hparenti]
      exact (hlinked d).2 (.inl hd)
    rcases hlive hd' with hd' | rfl
    · rw [hsub hd'] at hm
      exact hi (h.listed d' hd' m j hm).1.1
    · rw [hself] at hm
      exact absurd hm not_mem_nil
  · rcases (hlinked j).1 hj with hj | rfl
    · exact hrooted j hj
    · refine .step (hne h.root_linked.1).symm ?_
      rw [hparenti]
      exact hrooted d hd

/-- An inode that no directory lists goes away. -/
theorem IsTree.drop (h : t.IsTree none) (hroot : i ≠ t.root)
    (hi : ∀ d ∈ t.live, ∀ n, (n, i) ∉ t.ents d) :
    IsTree { t with live := t.live.erase i } none := by
  have hlinked : ∀ j, Linked { t with live := t.live.erase i } j ↔ t.Linked j := fun j => by
    refine ⟨fun hj => ⟨Finset.mem_of_mem_erase hj.1, hj.2⟩, fun hj => ⟨?_, hj.2⟩⟩
    refine Finset.mem_erase.2 ⟨?_, hj.1⟩
    rintro rfl
    obtain ⟨hp, m, hm⟩ := h.linked j hj hroot (by simp)
    exact hi _ hp m hm
  have hlive : ∀ {j}, j ∈ t.live.erase i → j ∈ t.live := fun hj => Finset.mem_of_mem_erase hj
  refine ⟨(hlinked _).2 h.root_linked, h.root_dir, h.root_parent, fun hz => h.zero (hlive hz), fun
    d hd => h.sound d (hlive hd), fun d hd m j hj => ?_, fun j hj hjr _ => ?_, fun j hj => absurd hj
    (by simp), fun j hj => h.rooted j ((hlinked j).1 hj)⟩
  · obtain ⟨hl, hp, hr⟩ := h.listed d (hlive hd) m j hj
    exact ⟨(hlinked j).2 hl, hp, hr⟩
  have hj := (hlinked j).1 hj
  obtain ⟨hp, m, hm⟩ := h.linked j hj hjr (by simp)
  exact ⟨((hlinked _).2 (h.linked_parent hj hjr)).1, m, hm⟩

theorem isTree_single (hlive : t.live = {t.root}) (h0 : t.root ≠ 0) (hdir : t.dir t.root = true)
    (hparent : t.parent t.root = 0) (hlinks : t.links t.root = 2) (hents : t.ents t.root = []) :
    t.IsTree none := by
  have hmem : ∀ {i}, i ∈ t.live ↔ i = t.root := by simp [hlive]
  have hnone : ∀ {d}, d ∈ t.live → t.ents d = [] := fun hd => by rw [hmem.1 hd, hents]
  refine ⟨⟨hmem.2 rfl, by omega⟩, hdir, hparent, fun hz => h0 (hmem.1 hz).symm, fun d hd => ?_,
    fun d hd n i hi => ?_, fun i hi hr _ => absurd (hmem.1 hi.1) hr, fun i hi => absurd hi (by
    simp), fun i hi => ?_⟩
  · rw [hnone hd, hmem.1 hd]
    exact sound_nil fun _ _ => hlinks
  · rw [hnone hd] at hi
    exact absurd hi not_mem_nil
  · rw [hmem.1 hi.1]
    exact rooted_stop

/-! ## Creating, removing and moving -/

section Steps

variable (h : t.IsTree none)
include h

theorem IsTree.create {d : Nat} {n : Str} (hd : t.Linked d)
    (hdd : t.dir d = true) (hi : i ∉ t.live) (h0 : i ≠ 0) (hn : n ∉ (t.ents d).map fst) :
    ((t.fresh d i isDir).hang d i (t.ents d ++ [(n, i)])).IsTree none := by
  have hdi : d ≠ i := fun he => hi (he ▸ hd.1)
  have hents : (t.fresh d i isDir).ents d = t.ents d := update_of_ne hdi _ _
  refine (h.fresh hd hi h0).hang ⟨Finset.mem_insert_of_mem hd.1, ?_⟩
    ((update_of_ne hdi _ _).trans hdd) (by rwa [hents]) ?_ fun ha => ?_
  · exact fun hz => hd.2 ((update_of_ne hdi _ _).symm.trans hz)
  · rw [hents]
    exact perm_append_singleton _ _
  -- the climb from the directory is the old one, and does not know the new inode
  have ha : Above t.parent t.root i d := ha.congr fun y hy _ => by
    refine update_of_ne ?_ _ _
    rintro rfl
    exact hi (h.linked_of_above hd hy).1
  exact hi (h.linked_of_above hd ha).1

section Unlink

variable (hd : d ∈ t.live) (hes : (t.ents d).Perm ((n, c) :: es))
include hd hes

theorem IsTree.unlink (hempty : t.ents c = []) : ((t.takeOut d c es).kill c).IsTree none := by
  have hcd : c ≠ d := h.ne_of_mem hd (hes.mem_iff.2 mem_cons_self)
  exact (h.takeOut hd hes).kill ((update_of_ne hcd _ _).trans hempty)

theorem IsTree.unlink_linked (hi : t.Linked i) (hic : i ≠ c) :
    ((t.takeOut d c es).kill c).Linked i := by
  have hl := (h.takeOut_linked hd hes i).2 hi
  exact ⟨hl.1, fun h0 => hl.2 ((update_of_ne hic _ _).symm.trans h0)⟩

theorem IsTree.move {es' : List (Str × Nat)} (hd' : t.Linked d') (hdd' : t.dir d' = true)
    (hn : n' ∉ ((t.takeOut d c es).ents d').map fst)
    (hes' : es'.Perm ((n', c) :: (t.takeOut d c es).ents d'))
    (habove : ¬ Above t.parent t.root c d') : ((t.takeOut d c es).hang d' c es').IsTree none :=
  (h.takeOut hd hes).hang ((h.takeOut_linked hd hes d').2 hd') hdd' hn hes' habove

end Unlink

theorem IsTree.dir_of_above (hd : t.Linked d) (hdd : t.dir d = true)
    (ha : Above t.parent t.root a d) : t.dir a = true := by
  induction ha with
  | here => exact hdd
  | @step x hx _ ih =>
    obtain ⟨hp, n, hn⟩ := h.linked x hd hx (by simp)
    obtain ⟨hlinked, hdir⟩ := h.linked_of_mem hp hn
    exact ih hlinked hdir

end Steps

end Dirs

end Krust.Memfs
