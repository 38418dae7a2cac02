import Krust.Memfs.Effects

/-!
# Renaming

The outcome of `rename`.  The ancestor walk ends, because it climbs a tree whose inodes are all in
the list it searches, and it lets exactly those renames through that do not move a directory below
itself.  What follows is the removal of the target, if there is one, and then a move of the entry
inside one directory or from one to another.

`rename` holds the mutex of its own directory when it looks into a target that is a directory.  It
waits for itself if the two are the same (`Good.rename_waits`).
-/

set_option autoImplicit false

namespace Krust.Memfs

open Prog List Function Storage Prod Dirs

/-! ## The ancestor walk -/

variable {d i x : Nat} {α : Type}

theorem find_live {nodes : List Nat} {live : Finset Nat} (hx : x ∈ live) (hn : x ∈ nodes) :
    (nodes.find? fun i => decide (i ∈ live) && i == x) = some x := by
  rcases h : nodes.find? fun i => decide (i ∈ live) && i == x with _ | y
  · have := find?_eq_none.1 h x hn
    simp [hx] at this
  have := find?_some h
  simp only [Bool.and_eq_true, beq_iff_eq] at this
  rw [this.2]

variable {w : World} {self source : Nat} {Q : Option (Except FsError Unit) → World → Prop}
  {es : List (Str × Nat)} {ls : List Lock} {name newName : Str}

theorem ends_ancestorWalk {nodes : List Nat} (fuel : Nat) (h0 : x ≠ 0) (hx : x ∈ w.fs.live)
    (hn : x ∈ nodes) :
    Ends (ancestorWalk nodes source (fuel + 1) x) Q w ↔
      if x = source then Q (some (.error .invalidArgument)) w
      else Ends (ancestorWalk nodes source fuel (w.fs.node x).parent) Q w := by
  rw [ancestorWalk, if_neg h0]
  by_cases hs : x = source
  · rw [if_pos hs, if_pos hs]
    exact Iff.rfl
  · rw [if_neg hs, if_neg hs, bind_eq, ends_load, find_live hx hn]
    exact Iff.rfl

section Walk

variable {w : World} (htree : w.fs.dirs.IsTree none) {nodes : List Nat}
  (hnodes : ∀ i ∈ w.fs.live, i ∈ nodes) {source : Nat}

include htree hnodes

/-- From an inode at height `n` the walk takes `n + 2` rounds. -/
theorem looks_ancestorWalk {n fuel : Nat} (hx : Reaches w.fs.dirs.parent w.fs.dirs.root x n)
    (hlinked : w.fs.dirs.Linked x) (hfuel : n + 2 ≤ fuel) :
    Ends (ancestorWalk nodes source fuel x)
      (Looks w (¬ Above w.fs.dirs.parent w.fs.dirs.root source x)) w := by
  have hround : ∀ y fuel, w.fs.dirs.Linked y → ∀ {P : Prop}, (y = source → ¬ P) →
      (y ≠ source → Ends (ancestorWalk nodes source fuel (w.fs.dirs.parent y)) (Looks w P) w) →
      Ends (ancestorWalk nodes source (fuel + 1) y) (Looks w P) w := by
    intro y fuel hy P hfound hnext
    have h0 : y ≠ 0 := fun he => htree.zero (he ▸ hy.1)
    rw [ends_ancestorWalk fuel h0 hy.1 (hnodes y hy.1)]
    split
    · rename_i he
      exact ⟨hfound he, rfl⟩
    · rename_i hne
      exact hnext hne
  have hhere : ∀ y, y = source → ¬ ¬ Above w.fs.dirs.parent w.fs.dirs.root source y := by
    rintro y rfl hnot
    exact hnot .here
  induction hx generalizing fuel with
  | stop =>
    obtain ⟨fuel, rfl⟩ := Nat.exists_eq_add_of_le' hfuel
    refine hround _ _ hlinked (hhere _) fun hne => ?_
    rw [htree.root_parent]
    refine ⟨fun ha => ?_, rfl⟩
    cases ha with
    | here => exact hne rfl
    | step hx _ => exact hx rfl
  | @step x n hx _ ih =>
    obtain ⟨fuel, rfl⟩ : ∃ f, fuel = f + 1 := ⟨fuel - 1, by omega⟩
    refine hround _ _ hlinked (hhere _) fun hne => ?_
    refine Looks.congr (not_congr ?_) (ih (htree.linked_parent hlinked hx) (by omega))
    refine ⟨.step hx, fun ha => ?_⟩
    cases ha with
    | here => exact absurd rfl hne
    | step _ ha => exact ha

/-- **The ancestor walk ends**, and lets a directory through if it is not above the destination. -/
theorem looks_checkAncestors (source : Nat) {destination : Nat}
    (hd : w.fs.dirs.Linked destination) :
    Ends (checkAncestors nodes source destination)
      (Looks w (w.fs.dirs.dir source = true →
        ¬ Above w.fs.dirs.parent w.fs.dirs.root source destination)) w := by
  rw [checkAncestors, bind_eq, fileTypeOf, ends_load]
  split
  · rename_i hdir
    obtain ⟨n, hn⟩ := htree.rooted destination hd
    have hlt := hn.lt_length fun y hy => hnodes y (htree.linked_of_above hd hy).1
    exact Looks.congr (forall_prop_of_true (decide_eq_true hdir)).symm
      (looks_ancestorWalk htree hnodes hn hd (by omega))
  · rename_i hfile
    exact ⟨fun hdir => absurd (of_decide_eq_true hdir) hfile, rfl⟩

end Walk

/-! ## Moving an entry -/

theorem renameFirst_eq (newName : Str) (h : i ∈ es.map snd) :
    ∃ n l1 l2, es = l1 ++ (n, i) :: l2 ∧ renameFirst i newName es = l1 ++ (newName, i) :: l2 := by
  induction es with
  | nil => exact absurd h not_mem_nil
  | cons e es ih =>
    by_cases he : e.2 = i
    · refine ⟨e.1, [], es, ?_, ?_⟩
      · rw [← he]
        rfl
      · rw [renameFirst, if_pos he, he]
        rfl
    · obtain ⟨n, l1, l2, hes, hren⟩ := ih ((mem_cons.1 h).resolve_left fun hi => he hi.symm)
      refine ⟨n, e :: l1, l2, ?_, ?_⟩
      · rw [hes]
        rfl
      · rw [renameFirst, if_neg he, hren]
        rfl

theorem Good.renameEntry (hg : Good ls w) (hself : self ∈ w.fs.live)
    (hes : (w.fs.node self).storage = .directory es) (hmem : source ∈ es.map snd)
    (hn : newName ∉ es.map fst) :
    Good ls (w.onNode self (onEntries (renameFirst source newName))) := by
  refine hg.onFs ?_ (hg.shape.onEntries _)
  have hents : w.fs.dirs.ents self = es := congrArg list hes
  obtain ⟨n, l1, l2, hsplit, hren⟩ := renameFirst_eq newName hmem
  have hperm : (w.fs.dirs.ents self).Perm ((n, source) :: (l1 ++ l2)) := by
    rw [hents, hsplit]
    exact perm_middle
  have hlisted : (n, source) ∈ w.fs.dirs.ents self := hperm.mem_iff.2 mem_cons_self
  obtain ⟨hlinked, hdir⟩ := hg.tree.linked_of_mem hself hlisted
  -- the entry is taken out and hung up again in the same place
  have hdirs : (w.fs.modifyNode self (onEntries (renameFirst source newName))).dirs =
      (w.fs.dirs.takeOut self source (l1 ++ l2)).hang self source
        (renameFirst source newName es) := by
    have hlinks := hg.tree.links_takeOut hself hperm
    have hl : w.fs.dirs.links self - w.fs.dirs.weight source + w.fs.dirs.weight source =
        w.fs.dirs.links self := Nat.sub_add_cancel (by omega)
    have hparent : update w.fs.dirs.parent source self = w.fs.dirs.parent :=
      update_eq_self_iff.2 (hg.tree.listed self hself n source hlisted).2.1.symm
    rw [dirs_onEntries hes]
    simp only [Dirs.hang, Dirs.takeOut_weight]
    simp only [Dirs.takeOut, update_idem, update_self, hparent, hl,
      update_eq_self]
  have htaken : (w.fs.dirs.takeOut self source (l1 ++ l2)).ents self = l1 ++ l2 :=
    update_self ..
  have hnew : newName ∉ ((w.fs.dirs.takeOut self source (l1 ++ l2)).ents self).map fst := by
    rw [htaken]
    rw [hsplit] at hn
    simp only [map_append, map_cons, mem_append, mem_cons, not_or] at hn ⊢
    exact ⟨hn.1, hn.2.2⟩
  rw [hdirs]
  refine hg.tree.move hself hperm hlinked hdir hnew ?_ (hg.tree.not_above_of_mem hself hlisted)
  rw [htaken, hren]
  exact perm_middle

/-- The file system after an entry has gone from one directory to another. -/
def Fs.move (fs : Fs) (self index source destination : Nat) (newName : Str) : Fs :=
  ((((fs.modifyNode self (onEntries fun es => es.eraseIdx index)).modifyNode
    self fun n => { n with links := dropLink (fs.node source).fileType n.links }).modifyNode
    destination fun n => { n with
      links := n.links + if (fs.node source).fileType = .directory then 1 else 0 }).modifyNode
    source fun n => { n with parent := destination }).modifyNode
    destination (onEntries fun es => es ++ [(newName, source)])

theorem ends_moveLink {destination : Nat} {fileType : FileType} {k : Unit → Op α}
    {Q : Option (Except FsError α) → World → Prop} :
    Ends (Prog.bind (moveLink self destination fileType) k) Q w ↔
      Ends (k ()) Q ((w.onNode self fun n => { n with links := dropLink fileType n.links }).onNode
        destination fun n =>
          { n with links := n.links + if fileType = .directory then 1 else 0 }) := by
  by_cases h : fileType = .directory
  · simp only [moveLink, dropLink, if_pos h]
    exact Iff.rfl
  simp only [moveLink, dropLink, if_neg h, add_zero]
  rw [World.onNode_id, World.onNode_id]
  exact Iff.rfl

section Move

variable {fs : Fs} {self index source destination : Nat} {newName : Str}
  {es es' : List (Str × Nat)}

theorem Fs.Shape.move (h : fs.Shape) : (fs.move self index source destination newName).Shape :=
  ((((h.onEntries _).setLinks (dropLink _)).setLinks fun l => l + _).setParent _).onEntries _

theorem dirs_move (hne : destination ≠ self) (hlinks : fs.dirs.links self ≠ 0)
    (hes : (fs.node self).storage = .directory es)
    (hes' : (fs.node destination).storage = .directory es') :
    (fs.move self index source destination newName).dirs =
      (fs.dirs.takeOut self source (es.eraseIdx index)).hang destination source
        (es' ++ [(newName, source)]) := by
  have hstorage : ∀ (fs : Fs) (i : Nat) (l : Nat → Nat) (j : Nat),
      ((fs.modifyNode i fun n => { n with links := l n.links }).node j).storage =
        (fs.node j).storage := fun fs i l j => field_modifyNode_eq MemoryInode.storage rfl j
  refine (dirs_onEntries (?_ : _ = Storage.directory es') _).trans ?_
  · rw [field_modifyNode_eq MemoryInode.storage rfl, hstorage _ _ fun l => l + _,
      hstorage _ _ (dropLink _), Fs.modifyNode_node_of_ne _ hne, hes']
  rw [dirs_setParent, dirs_setLinks fun l => l + _, dirs_setLinks (dropLink _), dirs_onEntries hes,
    dropLink_eq hlinks]
  simp only [Dirs.hang, Dirs.takeOut_weight]
  simp only [takeOut, update_of_ne hne, weight, Fs.dirs, decide_eq_true_eq]

end Move

theorem Good.move (hg : Good ls w) {index destination : Nat} {es' : List (Str × Nat)}
    (hself : self ∈ w.fs.live) (hne : destination ≠ self)
    (hes : (w.fs.node self).storage = .directory es) (hentry : es[index]? = some (name, source))
    (hd : w.fs.dirs.Linked destination) (hes' : (w.fs.node destination).storage = .directory es')
    (hn : newName ∉ es'.map fst)
    (habove : ¬ Above w.fs.dirs.parent w.fs.dirs.root source destination) :
    Good ls (w.onFs fun fs => fs.move self index source destination newName) := by
  refine hg.onFs ?_ hg.shape.move
  have hents' : w.fs.dirs.ents destination = es' := congrArg list hes'
  have hperm : (w.fs.dirs.ents self).Perm ((name, source) :: es.eraseIdx index) := by
    rw [show w.fs.dirs.ents self = es from congrArg list hes]
    exact perm_eraseIdx hentry
  have hlinked := (hg.tree.linked_of_mem hself (hperm.mem_iff.2 mem_cons_self)).1
  have hdir : w.fs.dirs.dir destination = true := by
    rw [← hg.shape.kinds destination hd.1, hes']
    rfl
  have htaken : (w.fs.dirs.takeOut self source (es.eraseIdx index)).ents destination = es' :=
    (update_of_ne hne _ _).trans hents'
  rw [dirs_move hne hlinked.2 hes hes']
  have hnew : newName ∉ ((w.fs.dirs.takeOut self source (es.eraseIdx index)).ents
      destination).map fst := by rwa [htaken]
  refine hg.tree.move hself hperm hd hdir hnew ?_ habove
  rw [htaken]
  exact perm_append_singleton _ _

/-! ## The outcome -/

/-- `can_replace` waits if the target is a directory whose mutex is held. -/
theorem Undone.canReplace {w0 : World} {stuck : Prop} {target : Nat} (hu : Undone w0 ls w)
    (htree : w0.fs.dirs.IsTree none) (htarget : target ∈ w0.fs.live)
    (hstuck : .inner target ∈ ls → w0.fs.dirs.dir source = true → stuck) :
    Ends (canReplace source target) (Checks w0 stuck ls (w0.fs.dirs.ents target = [])) w := by
  rw [Memfs.canReplace, bind_eq, fileTypeOf, ends_load, bind_eq, fileTypeOf, ends_load, hu.node]
  by_cases hs : (w0.fs.node source).fileType = .directory
  · rw [if_pos hs]
    by_cases ht : (w0.fs.node target).fileType = .directory
    · rw [if_pos ht]
      by_cases hl : .inner target ∈ ls
      · rw [Memfs.checkEmpty, ends_withLock_of_mem (by rwa [hu.locks])]
        exact ⟨hstuck hl (decide_eq_true hs), hu.dirs⟩
      · exact hu.checkEmpty hl
    · rw [if_neg ht]
      exact hu
  · rw [if_neg hs]
    by_cases ht : (w0.fs.node target).fileType = .directory
    · rw [ht]
      exact hu
    rw [beq_eq_false_iff_ne.2 ht]
    exact ⟨(htree.sound target htarget).file (decide_eq_false ht), hu⟩

section Target

variable {es : List (Str × Nat)} {newName : Str} {index target : Nat}
  (hentry : es[index]? = some (newName, target))

include hentry

theorem notMem_of_eraseIdx (hnames : (es.map fst).Nodup) :
    newName ∉ (es.eraseIdx index).map fst :=
  (nodup_cons.1 (((perm_eraseIdx hentry).map fst).nodup_iff.1 hnames)).1

theorem mem_eraseIdx_of_ne {name : Str} {source : Nat} (hmem : (name, source) ∈ es)
    (hne : name ≠ newName) : source ∈ (es.eraseIdx index).map snd := by
  refine mem_map.2 ⟨(name, source), ?_, rfl⟩
  exact (mem_cons.1 ((perm_eraseIdx hentry).mem_iff.1 hmem)).resolve_left fun he =>
    hne (congrArg fst he)

end Target

def removeAt (found : Except FsError (Nat × Nat)) (es : List (Str × Nat)) : List (Str × Nat) :=
  match found with
  | .ok (index, _) => es.eraseIdx index
  | .error _ => es

/-- The entry that is renamed survives the removal of the one in its way. -/
theorem mem_removeAt (hmem : (name, source) ∈ es) (hn : name ≠ newName) :
    source ∈ (removeAt (findEntry es newName) es).map snd := by
  cases hfind : findEntry es newName with
  | error e => exact mem_map.2 ⟨_, hmem, rfl⟩
  | ok found => exact mem_eraseIdx_of_ne (findEntry_ok hfind) hmem hn

/-- What a successful `rename` does to the entries: one of them is given another name, or is moved
to another directory. -/
inductive Renamed (fs : Fs) (self : Nat) (name : Str) (d : Nat) (newName : Str) (fs' : Fs) : Prop
  | same (hd : self = d) (hn : name = newName) (h : fs'.entries = fs.entries)
  | within {source : Nat} (hd : self = d) (hn : name ≠ newName)
      (hmem : (name, source) ∈ fs.entries self) (h : fs'.entries = update fs.entries self
        (renameFirst source newName (removeAt (findEntry (fs.entries self) newName)
          (fs.entries self))))
  | across {index source : Nat} (hd : self ≠ d)
      (hentry : (fs.entries self)[index]? = some (name, source))
      (h : fs'.entries = update
        (update fs.entries self ((fs.entries self).eraseIdx index)) d
          (removeAt (findEntry (fs.entries d) newName) (fs.entries d) ++ [(newName, source)]))

/-- An entry has been cleared away, and this is what its directory lists now. -/
structure Cleared (fs : Fs) (d : Nat) (es : List (Str × Nat)) (fs' : Fs) : Prop where
  live : fs'.live = fs.live
  root : fs'.root = fs.root
  parent : fs'.dirs.parent = fs.dirs.parent
  linked : fs.dirs.Linked d → fs'.dirs.Linked d
  storage : ∀ i, (fs'.node i).storage = if i = d then .directory es else (fs.node i).storage

theorem Cleared.entries {fs fs' : Fs} (h : Cleared fs d es fs') :
    fs'.entries = update fs.entries d es := by
  funext i
  rw [Fs.entries, h.storage, update_apply, apply_ite list]
  rfl

theorem Good.removeTarget (hg : Good ls w) (hd : d ∈ w.fs.live)
    (hes : (w.fs.node d).storage = .directory es)
    (hempty : ∀ index target, findEntry es newName = .ok (index, target) →
      w.fs.dirs.ents target = []) {k : Unit → Op α} {Q : Option (Except FsError α) → World → Prop}
    (hk : ∀ w', Good ls w' → Cleared w.fs d (removeAt (findEntry es newName) es) w'.fs →
      newName ∉ (removeAt (findEntry es newName) es).map fst → Ends (k ()) Q w') :
    Ends (Prog.bind (removeTarget d (findEntry es newName)) k) Q w := by
  rcases hfind : findEntry es newName with e | ⟨index, target⟩ <;> rw [hfind] at hk
  · refine hk w hg ⟨rfl, rfl, rfl, id, fun i => ?_⟩ (findEntry_error hfind)
    split_ifs with hi
    · rw [hi, hes]
      rfl
    · rfl
  have hentry := findEntry_ok hfind
  have hents : w.fs.dirs.ents d = es := congrArg list hes
  have hne : target ≠ d := hg.tree.ne_of_mem hd (hents ▸ mem_of_getElem? hentry)
  have hdirs := dirs_remove hg.tree hd hes hentry
  rw [Memfs.removeTarget, bind_eq, bind_assoc, ends_detach]
  have hperm : (w.fs.dirs.ents d).Perm ((newName, target) :: es.eraseIdx index) := by
    rw [hents]
    exact perm_eraseIdx hentry
  refine hk (w.onFs fun fs => fs.remove d index target)
    (hg.remove hd hes hentry (hempty _ _ hfind)) ⟨rfl, rfl, ?_, fun hlinked => ?_, fun i => ?_⟩
    (notMem_of_eraseIdx hentry (hents ▸ (hg.tree.sound d hd).names))
  · rw [World.onFs_fs, hdirs]
    rfl
  · rw [World.onFs_fs, hdirs]
    exact hg.tree.unlink_linked hd hperm hlinked hne.symm
  · split_ifs with hi
    · subst hi
      exact remove_storage_self hne hes
    · exact remove_storage_of_ne hi

section Outcomes

variable {w0 w : World} {ls ls0 : List Lock} {stuck : Prop} {self source destination : Nat}
  {name newName : Str} {es : List (Str × Nat)}

/-- The check of the target, if there is one; the check if there is none depends on the kind of
rename. -/
theorem Undone.checkFound {check : Except FsError (Nat × Nat) → Op Unit} (hu : Undone w0 ls w)
    (hg : Good ls0 w0) (hd : d ∈ w0.fs.live) (hes : w0.fs.entries d = es)
    (hstuck : ∀ target, (newName, target) ∈ w0.fs.entries d → .inner target ∈ ls →
      w0.fs.dirs.dir source = true → stuck)
    (herr : ∀ e, Ends (check (.error e)) (Checks w0 stuck ls True) w)
    (hok : ∀ x, check (.ok x) = Memfs.canReplace source x.2) :
    Ends (check (findEntry es newName)) (Checks w0 stuck ls
      (∀ index target, findEntry es newName = .ok (index, target) →
        w0.fs.dirs.ents target = [])) w := by
  rcases hfind : findEntry es newName with e | ⟨index, target⟩
  · exact Checks.imp nofun (herr e)
  have hmem : (newName, target) ∈ w0.fs.entries d := hes ▸ mem_of_getElem? (findEntry_ok hfind)
  rw [hok]
  refine Checks.imp ?_ (hu.canReplace hg.tree (hg.tree.listed d hd _ _ hmem).1.1
    (hstuck target hmem))
  rintro h _ _ ⟨⟩
  exact h

/-- The root is the same, and an entry has been renamed. -/
def RootRenamed (fs : Fs) (self : Nat) (name : Str) (d : Nat) (newName : Str) (_ : Unit)
    (fs' : Fs) : Prop :=
  fs'.root = fs.root ∧ Renamed fs self name d newName fs'

theorem Undone.renameWithin (hu : Undone w0 ls w) (hg : Good ls0 w0) (hself : self ∈ w0.fs.live)
    (hmem : (name, source) ∈ w0.fs.entries self) (hne : name ≠ newName)
    (hls : ∀ i, .inner i ∈ ls → i = self) :
    Ends (renameWithin self source newName)
      (Outcome w0 stuck ls (RootRenamed w0.fs self name self newName)) w := by
  refine ends_entriesOf (fun _ => hu) fun es hes => ?_
  rw [hu.node] at hes
  have hents : w0.fs.entries self = es := congrArg list hes
  refine ends_bind_check (hu.checkFound hg hself hents (fun target htarget hl =>
    absurd (hls target hl) (hg.tree.ne_of_mem hself htarget)) (fun _ => ⟨trivial, hu⟩)
      fun _ => rfl) fun hempty w1 h1 => ?_
  refine (h1.good hg).removeTarget (by rwa [h1.live]) (by rw [h1.node, hes])
    (by rwa [h1.dirs]) fun w2 hg2 hc hnew => ?_
  have hes2 := (hc.storage self).trans (if_pos rfl)
  have hsource := mem_removeAt (hents ▸ hmem) hne
  have hfound : ((w2.fs.entries self).any fun e => e.2 == source) = true := by
    rw [Fs.entries, hes2]
    obtain ⟨e, he, hes⟩ := mem_map.1 hsource
    exact any_eq_true.2 ⟨e, he, beq_iff_eq.2 hes⟩
  rw [bind_eq, ends_load, hfound]
  refine ⟨hg2.renameEntry (by rwa [hc.live, h1.live]) hes2 hsource hnew, hc.root.trans h1.root,
    .within rfl hne hmem ?_⟩
  refine (congrArg ents (dirs_onEntries hes2 _)).trans ?_
  show update w2.fs.entries self _ = _
  rw [hc.entries, update_idem, h1.entries, hents]

/-- The end of a rename from one directory to another. -/
theorem ends_finishAcross {index : Nat} {Q : Option (Except FsError Unit) → World → Prop} :
    Ends (Prog.bind (removeEntry self index) fun _ => Prog.bind (fileTypeOf source) fun fileType =>
        Prog.bind (moveLink self destination fileType) fun _ =>
          Prog.bind (update fun w => w.onNode source fun n => { n with parent := destination })
            fun _ => pushEntry destination newName source) Q w ↔
      Q (some (.ok ())) (w.onFs fun fs => fs.move self index source destination newName) := by
  have htype : ((w.onNode self (onEntries fun es => es.eraseIdx index)).fs.node source).fileType =
      (w.fs.node source).fileType :=
    field_modifyNode_eq MemoryInode.fileType
      (onEntries_frame _ _ (fun _ _ => rfl) _) source
  rw [removeEntry, ends_update, fileTypeOf, ends_load, htype, ends_moveLink]
  exact Iff.rfl

section Across

variable (hu : Undone w0 ls w) (hg : Good ls0 w0) (hself : self ∈ w0.fs.live)
include hu hg hself

theorem Undone.renameAcross {index : Nat} (hne : destination ≠ self)
    (hes : (w0.fs.node self).storage = .directory es) (hentry : es[index]? = some (name, source))
    (hd : w0.fs.dirs.Linked destination) (habove : w0.fs.dirs.dir source = true →
      ¬ Above w0.fs.dirs.parent w0.fs.dirs.root source destination)
    (hls : ∀ i, .inner i ∈ ls ↔ i = destination ∨ i = self)
    (hstuck : w0.fs.dirs.dir source = true →
      (newName, self) ∈ w0.fs.dirs.ents destination → stuck) :
    Ends (renameAcross self destination index source newName)
      (Outcome w0 stuck ls (RootRenamed w0.fs self name destination newName)) w := by
  refine ends_entriesOf (fun _ => hu) fun es' hes' => ?_
  rw [hu.node] at hes'
  have hents : w0.fs.entries self = es := congrArg list hes
  have hents' : w0.fs.entries destination = es' := congrArg list hes'
  -- a file is above nothing
  have habove : ¬ Above w0.fs.dirs.parent w0.fs.dirs.root source destination := fun ha =>
    habove (hg.tree.dir_of_above hd (by rw [← hg.shape.kinds destination hd.1, hes']; rfl) ha) ha
  refine ends_bind_check (hu.checkFound hg hd.1 hents' (fun target htarget hl hdir => ?_)
    (fun _ => hu.allocate) fun _ => rfl) fun hempty w1 h1 => ?_
  · obtain rfl := ((hls target).1 hl).resolve_left (hg.tree.ne_of_mem hd.1 htarget)
    exact hstuck hdir htarget
  refine (h1.good hg).removeTarget (h1.live ▸ hd.1) (by rw [h1.node, hes']) (by rwa [h1.dirs])
    fun w2 hg2 hc hnew => ?_
  have hself2 : self ∈ w2.fs.live := by rwa [hc.live, h1.live]
  have hes2 : (w2.fs.node self).storage = .directory es := by
    rw [hc.storage, if_neg hne.symm, h1.node, hes]
  have hes2' := (hc.storage destination).trans (if_pos rfl)
  have hlinks : w2.fs.dirs.links self ≠ 0 := by
    refine (hg2.tree.linked_of_mem hself2 (n := name) (c := source) ?_).1.2
    rw [show w2.fs.dirs.ents self = es from congrArg list hes2]
    exact mem_of_getElem? hentry
  refine ends_finishAcross.2 ⟨hg2.move hself2 hne hes2 hentry
    (hc.linked (h1.dirs ▸ hd)) hes2' hnew ?_, hc.root.trans h1.root,
    .across hne.symm (hents ▸ hentry) ?_⟩
  · rwa [hc.parent, show w2.fs.dirs.root = _ from hc.root, h1.dirs, h1.root]
  · refine (congrArg ents (dirs_move hne hlinks hes2 hes2')).trans ?_
    show update (update w2.fs.entries self _) destination _ = _
    rw [hc.entries, update_comm hne.symm, update_idem, update_comm hne, h1.entries, hents, hents']

theorem Undone.renameSource {index : Nat}
    {nodes : List Nat} (hes : (w0.fs.node self).storage = .directory es)
    (hentry : es[index]? = some (name, source)) (hd : w0.fs.dirs.Linked destination)
    (hnodes : ∀ i ∈ w0.fs.live, i ∈ nodes) (hls : ∀ i, .inner i ∈ ls ↔ i = self)
    (hstuck : w0.fs.dirs.dir source = true →
      (newName, self) ∈ w0.fs.dirs.ents destination → stuck) :
    Ends (renameSource self name destination newName nodes index source)
      (Outcome w0 stuck ls (RootRenamed w0.fs self name destination newName)) w := by
  rw [Memfs.renameSource]
  by_cases hsame : self = destination ∧ name = newName
  · rw [if_pos hsame]
    exact ⟨hu.good hg, hu.root, .same hsame.1 hsame.2 hu.entries⟩
  rw [if_neg hsame]
  have hwalk := looks_checkAncestors (hu.good hg).tree
    (fun i hi => hnodes i (hu.live ▸ hi)) source (hu.dirs ▸ hd)
  refine ends_bind_check (hu.looks hwalk) fun habove w1 h1 => ?_
  rw [hu.dirs] at habove
  refine ends_bind_check h1.allocate fun _ w2 h2 => ?_
  by_cases hsd : self = destination
  · subst hsd
    rw [if_pos rfl]
    refine h2.renameWithin hg hself ?_ (fun hn => hsame ⟨rfl, hn⟩) fun i => (hls i).1
    rw [show w0.fs.entries self = es from congrArg list hes]
    exact mem_of_getElem? hentry
  · rw [if_neg hsd]
    refine h2.withLock (fun hl => hsd ((hls destination).1 hl).symm) fun w3 h3 => ?_
    refine h3.renameAcross hg hself (Ne.symm hsd) hes hentry hd habove ?_ hstuck
    intro i
    rw [mem_cons, hls, Lock.inner.injEq]

end Across

end Outcomes

/-- A directory is renamed onto the directory that lists it. -/
structure OntoParent (fs : Fs) (parent : Nat) (name : Str) (destination : DynInode)
    (newName : Str) : Prop where
  name_valid : validateName name = .ok ()
  newName_valid : validateName newName = .ok ()
  same_fs : destination.fsId = fs.fsId
  /-- The new name is that of the source directory itself. -/
  target : ∃ d, destination.memory = some d ∧ (newName, parent) ∈ fs.entries d
  source : ∃ source, (name, source) ∈ fs.entries parent ∧ (fs.node source).fileType = .directory

/-- What a successful `rename` has done, in a directory of this file system. -/
structure RenamedTo (fs : Fs) (d : Nat) (name : Str) (destination : DynInode) (newName : Str)
    (fs' : Fs) : Prop where
  root : fs'.root = fs.root
  valid : validateName newName = .ok ()
  renamed : ∃ d' ∈ fs.live, destination.memory = some d' ∧ destination.fsId = fs.fsId ∧
    Renamed fs d name d' newName fs'

/-- **The outcome of `rename`**: it fails without a trace, or it succeeds and the namespace is a
tree again, or a directory was to be renamed onto its parent. -/
theorem Good.rename (hg : Good [] w) (hself : self ∈ w.fs.live) (name : Str)
    {destination : DynInode} (newName : Str)
    (hdest : ∀ d, destination.memory = some d → destination.fsId = w.fs.fsId → d ∈ w.fs.live) :
    Ends (rename self name destination newName)
      (Outcome w (OntoParent w.fs self name destination newName) []
        fun _ => RenamedTo w.fs self name destination newName) w := by
  have hu : Undone w [] w := hg.locks ▸ Undone.refl w
  rw [Memfs.rename]
  cases hname : validateName name with
  | error e => exact hu
  | ok _ =>
  cases hnewName : validateName newName with
  | error e => exact hu
  | ok _ =>
  refine ends_guard (fun _ => hu) fun hfs => ?_
  have hfs : destination.fsId = w.fs.fsId := by simpa using hfs
  cases hmemory : destination.memory with
  | none =>
    simp only [DynInode.downcast, hmemory]
    exact hu
  | some d =>
  simp only [DynInode.downcast, hmemory]
  refine hu.withLock (by simp) fun w1 h1 => ?_
  refine ends_guard (fun _ => h1) fun hlinks => h1.withLock (by simp) fun w2 h2 => ?_
  refine ends_cloneEntry (fun _ => h2) fun es index source hes hentry => ends_droppingArc source ?_
  have hd : w.fs.dirs.Linked d := by
    refine ⟨hdest d hmemory hfs, ?_⟩
    rw [← h1.dirs]
    exact beq_eq_false_iff_ne.1 hlinks
  refine Outcome.imp (fun _ _ h => ⟨h.1, hnewName, d, hd.1, hmemory, hfs, h.2⟩)
    ((h2.retoken _).renameSource hg hself (by rw [← h2.node, hes]) hentry hd ?_ ?_ ?_)
  · intro i hi
    rw [← h1.live] at hi
    exact (h1.good hg).shape.nodes i hi
  · simp
  · intro hdir htarget
    refine ⟨hname, hnewName, hfs, ⟨d, hmemory, htarget⟩, source, ?_, of_decide_eq_true hdir⟩
    rw [Fs.entries, ← h2.node, hes]
    exact mem_of_getElem? hentry

/-! ## Renaming a directory onto its parent -/

theorem findEntry_of_mem (hmem : (name, i) ∈ es) (hnames : (es.map fst).Nodup) :
    ∃ index, findEntry es name = .ok (index, i) := by
  rcases hfind : findEntry es name with e | found
  · exact absurd (mem_map.2 ⟨_, hmem, rfl⟩) (findEntry_error hfind)
  have hfound := mem_of_getElem? (findEntry_ok hfind)
  obtain rfl : found.2 = i :=
    congrArg snd (inj_on_of_nodup_map hnames hfound hmem rfl)
  exact ⟨found.1, rfl⟩

theorem storage_of_mem {n : Str} (h : (n, i) ∈ w.fs.entries d) :
    ∃ es, (w.fs.node d).storage = .directory es ∧ (n, i) ∈ es := by
  rw [Fs.entries] at h
  cases hs : (w.fs.node d).storage with
  | directory es => exact ⟨es, rfl, by rwa [hs] at h⟩
  | ram data => simp [hs, list] at h
  | sparse f => simp [hs, list] at h

theorem ends_entriesOf_directory {k : List (Str × Nat) → Op α}
    {Q : Option (Except FsError α) → World → Prop} (hes : (w.fs.node d).storage = .directory es) :
    Ends (Prog.bind (entriesOf d) k) Q w ↔ Ends (k es) Q w := by
  rw [entriesOf, bind_eq, bind_assoc, ends_load, hes]
  exact Iff.rfl

theorem cloneEntry_found {index : Nat} {k : Nat × Nat → Op α}
    {Q : Option (Except FsError α) → World → Prop} (hes : (w.fs.node d).storage = .directory es)
    (hfind : findEntry es name = .ok (index, i)) (hk : Ends (k (index, i)) Q (w.gain (.arc i) 1)) :
    Ends (Prog.bind (cloneEntry d name) k) Q w := by
  simpa only [cloneEntry, bind_eq, bind_assoc, ends_step, hes, entries, hfind,
    ends_ofExcept] using hk

/-- With the mutex of the target held, two directories are waited for forever. -/
theorem ends_canReplace_held {target : Nat} (hheld : .inner target ∈ w.locks)
    (hs : (w.fs.node source).fileType = .directory)
    (ht : (w.fs.node target).fileType = .directory) :
    Ends (canReplace source target) Q w ↔ Q none w := by
  rw [canReplace, bind_eq, fileTypeOf, ends_load, bind_eq, fileTypeOf, ends_load, if_pos hs,
    if_pos ht, checkEmpty, ends_withLock_of_mem hheld]

theorem renameAcross_held {destination index : Nat}
    (hes : (w.fs.node destination).storage = .directory es)
    (hfind : findEntry es newName = .ok (i, self)) (hheld : .inner self ∈ w.locks)
    (hs : (w.fs.node source).fileType = .directory) (ht : (w.fs.node self).fileType = .directory)
    (hQ : Q none w) : Ends (renameAcross self destination index source newName) Q w := by
  rw [renameAcross, bind_eq, ends_entriesOf_directory hes, hfind, makeRoom, bind_eq, ends_bind,
    ends_canReplace_held hheld hs ht]
  exact hQ

/-- The end of a call that waits for itself unless the first allocation fails. -/
def Waits (faults : List Bool) (r : Option (Except FsError Unit)) (_ : World) : Prop :=
  r = none ↔ faults.headD false = false

theorem Good.renameSource_waits (hg : Good ls w) {index : Nat} (hls : ∀ i, .inner i ∈ ls ↔ i = self)
    (hself : (newName, self) ∈ w.fs.entries d) (hd : d ∈ w.fs.live)
    (hsource : (name, source) ∈ w.fs.entries self)
    (hdir : (w.fs.node source).fileType = .directory) :
    Ends (renameSource self name d newName w.fs.nodes index source) (Waits w.faults) w := by
  have hne : self ≠ d := hg.tree.ne_of_mem hd hself
  obtain ⟨hlinked, hparent, hroot⟩ := hg.tree.listed d hd newName self hself
  have habove : ¬ Above w.fs.dirs.parent w.fs.dirs.root source d := by
    intro ha
    have hself : Above w.fs.dirs.parent w.fs.dirs.root d self := .step hroot (hparent ▸ .here)
    exact hg.tree.not_above_of_mem hlinked.1 hsource (ha.trans hself)
  have hwalk := looks_checkAncestors hg.tree hg.shape.nodes source
    (hg.tree.linked_of_mem hd hself).1
  rw [renameSource, if_neg fun h => hne h.1, bind_eq, ends_bind]
  refine hwalk.mono ?_
  rintro (_ | _ | _) w' hw'
  · exact hw'.elim
  · exact absurd (fun _ => habove) hw'.1
  obtain ⟨-, rfl⟩ := hw'
  rw [andThen_ok, bind_eq, ends_bind, ends_allocate]
  split
  · rename_i hfail
    exact iff_of_false (by simp) (by rw [hfail]; simp)
  rename_i hok
  have hok : w'.faults.headD false = false := by simpa using hok
  obtain ⟨es, hes, hmem⟩ := storage_of_mem hself
  have hents : w'.fs.dirs.ents d = es := congrArg list hes
  obtain ⟨i, hfind⟩ := findEntry_of_mem hmem (hents ▸ (hg.tree.sound d hd).names)
  have hselfdir : (w'.fs.node self).fileType = .directory :=
    of_decide_eq_true (hg.tree.linked_of_mem hlinked.1 hsource).2
  have hnotheld : .inner d ∉ w'.locks := by
    rw [hg.locks, hls]
    exact hne.symm
  have hheld : .inner self ∈ Lock.inner d :: w'.locks :=
    mem_cons_of_mem _ (hg.locks ▸ (hls self).2 rfl)
  rw [andThen_ok, ends_withLock (by exact hnotheld)]
  exact renameAcross_held hes hfind hheld hdir hselfdir (iff_of_true rfl hok)

/-- **Renaming a directory onto its parent** never returns, if there is memory for the name. -/
theorem Good.rename_waits {destination : DynInode} (hg : Good [] w) (hself : self ∈ w.fs.live)
    (hdest : ∀ d, destination.memory = some d → destination.fsId = w.fs.fsId → d ∈ w.fs.live)
    (hp : OntoParent w.fs self name destination newName) :
    Ends (Memfs.rename self name destination newName) (Waits w.faults) w := by
  obtain ⟨d, hmemory, htarget⟩ := hp.target
  obtain ⟨source, hsource, hdir⟩ := hp.source
  have hd := hdest d hmemory hp.same_fs
  obtain ⟨es, hes, hmem⟩ := storage_of_mem hsource
  have hents : w.fs.dirs.ents self = es := congrArg list hes
  obtain ⟨index, hfind⟩ := findEntry_of_mem hmem (hents ▸ (hg.tree.sound self hself).names)
  have hlinks : ((w.fs.node d).links == 0) = false :=
    beq_eq_false_iff_ne.2 (hg.tree.linked_of_mem hd htarget).1.2
  have hok : (destination.fsId != w.fs.fsId) = false := by rw [hp.same_fs, bne_self_eq_false]
  have hdown : destination.downcast = .ok d := by rw [DynInode.downcast, hmemory]
  simp only [Memfs.rename, bind_eq, ends_ofExcept, hp.name_valid, hp.newName_valid, ends_load, hok,
    ends_failIf, Bool.false_eq_true, if_false, hdown]
  refine (ends_withLock (by simp [hg.locks])).2 ?_
  simp only [ends_load, ends_failIf, hlinks, Bool.false_eq_true, if_false]
  refine (ends_withLock (by simp [hg.locks])).2 (cloneEntry_found hes hfind ?_)
  rw [droppingArc, ends_andFinally]
  have hg' : Good [.inner self, .nodes]
      (({ w with locks := .inner self :: .nodes :: w.locks } : World).gain (.arc source) 1) :=
    ⟨hg.tree, hg.shape, congrArg (fun ls => Lock.inner self :: .nodes :: ls) hg.locks, hg.mounted⟩
  refine (hg'.renameSource_waits (by simp) htarget hd hsource hdir).mono ?_
  rintro (_ | _) w' hw' <;> exact hw'

end Krust.Memfs
