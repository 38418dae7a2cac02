import Krust.Memfs.Outcome

/-!
# Creating and removing

What the single changes of an inode do to the namespace, and from that the outcome of `create` and
`unlink`: they leave a tree behind, or nothing at all.
-/

set_option autoImplicit false

namespace Krust.Memfs

open Prog List Function Fs MemoryInode Dirs World

/-! ## Changes of one inode, seen in the namespace -/

section Modify

variable {fs : Fs} {i : Nat} {γ : Type}

theorem field_modifyNode (p : MemoryInode → γ) (f : MemoryInode → MemoryInode) :
    (fun j => p ((fs.modifyNode i f).node j)) =
      update (fun j => p (fs.node j)) i (p (f (fs.node i))) := by
  funext j
  by_cases h : j = i
  · subst h
    rw [modifyNode_node_self, update_self]
  · rw [modifyNode_node_of_ne fs h, update_of_ne h]

variable {f : MemoryInode → MemoryInode}

theorem field_modifyNode_eq (p : MemoryInode → γ)
    (hp : p (f (fs.node i)) = p (fs.node i)) (j : Nat) :
    p ((fs.modifyNode i f).node j) = p (fs.node j) := by
  rw [congrFun (field_modifyNode p f) j, hp, update_eq_self_iff.2 rfl]

theorem dirs_setLinks (l : Nat → Nat) :
    (fs.modifyNode i fun n => { n with links := l n.links }).dirs =
      { fs.dirs with links := update fs.dirs.links i (l (fs.dirs.links i)) } := by
  simp only [dirs, entries, Dirs.mk.injEq]
  refine ⟨rfl, ?_, ?_, field_modifyNode links _, ?_, rfl⟩
  all_goals funext j
  · rw [field_modifyNode_eq fileType rfl]
  · exact field_modifyNode_eq parent rfl j
  · exact field_modifyNode_eq (fun n => n.storage.list) rfl j

theorem dirs_setParent (d : Nat) :
    (fs.modifyNode i fun n => { n with parent := d }).dirs =
      { fs.dirs with parent := update fs.dirs.parent i d } := by
  simp only [dirs, entries, Dirs.mk.injEq]
  refine ⟨rfl, ?_, field_modifyNode parent _, ?_, ?_, rfl⟩
  all_goals funext j
  · rw [field_modifyNode_eq fileType rfl]
  · exact field_modifyNode_eq links rfl j
  · exact field_modifyNode_eq (fun n => n.storage.list) rfl j

theorem onEntries_frame (p : MemoryInode → γ) (f : List (Str × Nat) → List (Str × Nat))
    (hp : ∀ (n : MemoryInode) (s : Storage), p { n with storage := s } = p n) (n : MemoryInode) :
    p (onEntries f n) = p n := by
  rw [onEntries]
  split
  · exact hp _ _
  · rfl

theorem onEntries_isDirectory (f : List (Str × Nat) → List (Str × Nat)) (n : MemoryInode) :
    (onEntries f n).storage.isDirectory = n.storage.isDirectory := by
  rw [onEntries]
  split
  · rename_i h
    rw [h]
    rfl
  · rfl

theorem dirs_onEntries {es : List (Str × Nat)} (hes : (fs.node i).storage = .directory es)
    (f : List (Str × Nat) → List (Str × Nat)) :
    (fs.modifyNode i (onEntries f)).dirs =
      { fs.dirs with ents := update fs.dirs.ents i (f es) } := by
  simp only [dirs, entries, Dirs.mk.injEq]
  refine ⟨rfl, ?_, ?_, ?_, ?_, rfl⟩
  · funext j
    rw [field_modifyNode_eq fileType (onEntries_frame _ f (fun _ _ => rfl) _)]
  · funext j
    exact field_modifyNode_eq parent (onEntries_frame _ f (fun _ _ => rfl) _) j
  · funext j
    exact field_modifyNode_eq links (onEntries_frame _ f (fun _ _ => rfl) _) j
  · rw [field_modifyNode (fun n => n.storage.list), onEntries, hes]
    rfl

/-- A change that leaves the type of the inode and of its storage alone. -/
theorem Fs.Shape.modifyNode (h : fs.Shape)
    (hstorage : ∀ n, (f n).storage.isDirectory = n.storage.isDirectory)
    (htype : ∀ n, (f n).fileType = n.fileType) : (fs.modifyNode i f).Shape where
  kinds j hj := by
    have hs : ((fs.modifyNode i f).node j).storage.isDirectory =
        (fs.node j).storage.isDirectory :=
      field_modifyNode_eq (fun n => n.storage.isDirectory) (hstorage _) j
    have ht : ((fs.modifyNode i f).node j).fileType = (fs.node j).fileType :=
      field_modifyNode_eq fileType (htype _) j
    simp only [dirs, hs, ht]
    exact h.kinds j hj
  nodes := h.nodes
  fresh := h.fresh
  pos := h.pos

theorem Fs.Shape.setLinks (h : fs.Shape) (l : Nat → Nat) :
    (fs.modifyNode i fun n => { n with links := l n.links }).Shape :=
  h.modifyNode (fun _ => rfl) fun _ => rfl

theorem Fs.Shape.setParent (h : fs.Shape) (d : Nat) :
    (fs.modifyNode i fun n => { n with parent := d }).Shape :=
  h.modifyNode (fun _ => rfl) fun _ => rfl

theorem Fs.Shape.onEntries (h : fs.Shape) (f : List (Str × Nat) → List (Str × Nat)) :
    (fs.modifyNode i (onEntries f)).Shape :=
  h.modifyNode (onEntries_isDirectory f) (onEntries_frame fileType f fun _ _ => rfl)

end Modify

/-! ## Creating -/

/-- The file system with a new inode, which nothing refers to yet. -/
def Fs.withInode (fs : Fs) (fileType : FileType) (parent : Nat) : Fs :=
  { fs with
    inodes := fs.inodes + 1
    nextIno := fs.nextIno + 1
    live := insert fs.nextIno fs.live
    node := update fs.node fs.nextIno (freshInode fs.limits fileType parent) }

theorem freshInode_isDirectory (limits : Option TmpfsOptions) (fileType : FileType) (parent : Nat) :
    (freshInode limits fileType parent).storage.isDirectory = decide (fileType = .directory) := by
  rw [freshInode]
  dsimp only
  split
  · rename_i h
    simp [h, Storage.isDirectory]
  · rename_i h
    split <;> simp [h, Storage.isDirectory]

theorem dirs_withInode (fs : Fs) (fileType : FileType) (parent : Nat) :
    (fs.withInode fileType parent).dirs =
      fs.dirs.fresh parent fs.nextIno (decide (fileType = .directory)) := by
  have hfield : ∀ {γ : Type} (p : MemoryInode → γ),
      (fun j => p ((fs.withInode fileType parent).node j)) =
        update (fun j => p (fs.node j)) fs.nextIno
          (p (freshInode fs.limits fileType parent)) := fun p =>
    @field_modifyNode fs fs.nextIno _ p fun _ => freshInode fs.limits fileType parent
  simp only [dirs, entries, Dirs.fresh, Dirs.mk.injEq]
  refine ⟨rfl, hfield fun n => decide (n.fileType = .directory), hfield MemoryInode.parent, ?_, ?_,
    rfl⟩
  · rw [hfield links]
    simp [freshInode]
  · rw [hfield fun n => n.storage.list, freshInode_list]

variable {w w0 : World} {ls : List Lock} {fs : Fs} {child d : Nat} {α : Type} {fileType : FileType}
  {Q : Option (Except FsError α) → World → Prop}

/-- `MemoryInode::new`: it fails and nothing has happened, or there is a new inode. -/
theorem Undone.newInode (hu : Undone w0 ls w) {parent : Nat} {k : Nat → Op α}
    (herr : ∀ e w', Undone w0 ls w' → Q (some (.error e)) w')
    (hk : ∀ w1 w', Undone w0 ls w1 → w'.fs = w1.fs.withInode fileType parent → w'.locks = ls →
      w'.mounted = w0.mounted → Ends (k w1.fs.nextIno) Q w') :
    Ends (Prog.bind (newInode fileType parent) k) Q w := by
  rw [Memfs.newInode, bind_eq, bind_assoc, ends_reserve]
  split
  · rw [takeNumber, bind_eq, bind_assoc, ends_step, bind_eq, bind_assoc, ends_bind, ends_onFail,
      ends_allocate]
    split
    · -- the charge is given back
      have hfs := congrArg (fun fs : Fs => { fs with nextIno := w.fs.nextIno + 1 }) hu.fs
      exact herr _ _ ⟨hfs, hu.nodes, Nat.le_succ_of_le hu.nextIno, hu.locks, hu.mounted⟩
    · exact hk w _ hu rfl hu.locks hu.mounted
  · exact herr _ _ hu

theorem Fs.Shape.withInode (h : fs.Shape) (fileType : FileType) (parent : Nat) :
    Shape { fs.withInode fileType parent with nodes := fs.nodes ++ [fs.nextIno] } where
  kinds j hj := by
    show ((fs.withInode fileType parent).node j).storage.isDirectory =
      (fs.withInode fileType parent).dirs.dir j
    rw [dirs_withInode]
    simp only [Fs.withInode, Dirs.fresh]
    by_cases hji : j = fs.nextIno
    · subst hji
      rw [update_self, update_self, freshInode_isDirectory]
    · rw [update_of_ne hji, update_of_ne hji]
      exact h.kinds j ((Finset.mem_insert.1 hj).resolve_left hji)
  nodes j hj := by
    rcases Finset.mem_insert.1 hj with rfl | hj
    · exact mem_append_right _ mem_cons_self
    · exact mem_append_left _ (h.nodes j hj)
  fresh j hj := by
    rcases Finset.mem_insert.1 hj with rfl | hj
    · exact Nat.lt_succ_self _
    · exact (h.fresh j hj).trans (Nat.lt_succ_self _)
  pos := Nat.succ_pos _

theorem World.onNode_id (w : World) (i : Nat) : (w.onNode i fun n => n) = w := by
  simp only [onNode, onFs, modifyNode, update_eq_self]

theorem ends_linkDirectory {k : Unit → Op α} :
    Ends (Prog.bind (linkDirectory d fileType) k) Q w ↔
      Ends (k ()) Q (w.onNode d fun n =>
        { n with links := n.links + if fileType = .directory then 1 else 0 }) := by
  by_cases h : fileType = .directory
  · simp only [linkDirectory, if_pos h]
    exact ends_update ..
  simp only [linkDirectory, if_neg h, add_zero]
  rw [onNode_id]
  rfl

theorem Undone.retainNodes (hu : Undone w0 ls w) :
    Undone w0 ls (w.onFs fun fs =>
      { fs with nodes := fs.nodes.filter fun i => decide (i ∈ fs.live) }) where
  fs := congrArg (fun fs : Fs => { fs with nodes := w.fs.nodes.filter (· ∈ w.fs.live) }) hu.fs
  nodes i hi hn :=
    mem_filter.2 ⟨hu.nodes i hi hn, decide_eq_true (by rw [hu.live]; exact hi)⟩
  nextIno := hu.nextIno
  locks := hu.locks
  mounted := hu.mounted

/-- The file system after `create`: the new inode, linked from its directory. -/
def Fs.created (fs : Fs) (self : Nat) (name : Str) (fileType : FileType) : Fs :=
  (Fs.modifyNode { fs.withInode fileType self with nodes := fs.nodes ++ [fs.nextIno] } self
    fun n => { n with links := n.links + if fileType = .directory then 1 else 0 }).modifyNode self
      (onEntries fun es => es ++ [(name, fs.nextIno)])

/-- What a successful `create` does to the entries: a new inode is listed under a name that was
free. -/
structure Created (fs : Fs) (d : Nat) (name : Str) (i : Nat) (fs' : Fs) : Prop where
  root : fs'.root = fs.root
  fresh : fs.nextIno ≤ i
  valid : validateName name = .ok ()
  new : name ∉ (fs.entries d).map Prod.fst
  entries : fs'.entries = update (update fs.entries i []) d
    (fs.entries d ++ [(name, i)])

section Created

variable {fs : Fs} {self : Nat} {name : Str} {fileType : FileType} {es : List (Str × Nat)}

theorem dirs_created (hself : self ≠ fs.nextIno) (hes : (fs.node self).storage = .directory es) :
    (fs.created self name fileType).dirs =
      (fs.dirs.fresh self fs.nextIno (decide (fileType = .directory))).hang self fs.nextIno
        (es ++ [(name, fs.nextIno)]) := by
  have hes' : ((Fs.modifyNode { fs.withInode fileType self with nodes := fs.nodes ++ [fs.nextIno] }
      self fun n => { n with links := n.links + if fileType = .directory then 1 else 0 }).node
        self).storage = .directory es := by
    rw [modifyNode_node_self]
    show (update fs.node fs.nextIno _ self).storage = _
    rw [update_of_ne hself, hes]
  have hdirs : ({ fs.withInode fileType self with nodes := fs.nodes ++ [fs.nextIno] } : Fs).dirs =
      fs.dirs.fresh self fs.nextIno (decide (fileType = .directory)) := dirs_withInode ..
  rw [created, dirs_onEntries hes', dirs_setLinks fun l => l + _, hdirs]
  simp only [Dirs.hang, Dirs.weight, Dirs.fresh, update_self, update_idem,
    decide_eq_true_eq]

theorem Undone.created {ls0 : List Lock} {w' : World} (hu : Undone w0 ls w) (hg : Good ls0 w0)
    (hlinked : w0.fs.dirs.Linked self) (hes : (w.fs.node self).storage = .directory es)
    (hvalid : validateName name = .ok ()) (hname : name ∉ es.map Prod.fst) (fileType : FileType)
    (hfs : w'.fs = w.fs.created self name fileType) (hlocks : w'.locks = ls)
    (hmounted : w'.mounted = w0.mounted) :
    Good ls w' ∧ Created w0.fs self name w.fs.nextIno w'.fs := by
  have hg1 := hu.good hg
  rw [← hu.dirs] at hlinked
  have hi : w.fs.nextIno ∉ w.fs.live := fun hi => (hg1.shape.fresh _ hi).false
  have hents : w.fs.dirs.ents self = es := congrArg Storage.list hes
  have hdir : w.fs.dirs.dir self = true := by
    rw [← hg1.shape.kinds self hlinked.1, hes]
    rfl
  have hdirs : w'.fs.dirs = _ := hfs ▸ dirs_created (fun he => hi (he ▸ hlinked.1)) hes
  refine ⟨⟨?_, ?_, hlocks, hmounted.trans hg.mounted⟩, ⟨hfs ▸ hu.root, hu.nextIno, hvalid, ?_, ?_⟩⟩
  · rw [hdirs, ← hents]
    exact hg1.tree.create hlinked hdir hi hg1.shape.pos.ne' (by rwa [hents])
  · rw [hfs]
    exact ((hg1.shape.withInode fileType self).setLinks fun l => l + _).onEntries _
  · rwa [← hu.entries, show w.fs.entries self = es from hents]
  · rw [← hu.entries, show w.fs.entries self = es from hents]
    exact congrArg ents hdirs

end Created

theorem Good.create {w : World} {self : Nat} (hg : Good [] w) (hself : self ∈ w.fs.live)
    (name : Str) (fileType : FileType) :
    Ends (create self name fileType) (Outcome w False [] (Created w.fs self name)) w := by
  have hu : Undone w [] w := hg.locks ▸ Undone.refl w
  rw [Memfs.create]
  cases hvalid : validateName name with
  | error e => exact hu
  | ok _ =>
  refine ends_guard (fun _ => hu) fun _ => hu.withLock (by simp) fun w1 h1 => ?_
  refine ends_guard (fun _ => h1) fun hlinks => h1.withLock (by simp) fun w2 h2 => ?_
  refine ends_entriesOf (fun _ => h2) fun es hes => ends_guard (fun _ => h2) fun hname => ?_
  refine ends_bind_check h2.allocate fun _ w3 h3 => ends_bind_check h3.allocate fun _ w4 h4 => ?_
  rw [retainNodes, bind_eq, ends_update]
  refine ends_bind_check h4.retainNodes.allocate fun _ w5 h5 => ?_
  refine h5.newInode (fun _ _ h => h) fun w6 w7 h6 hfs hlocks hmounted => ?_
  rw [pushNode, bind_eq, ends_update, bind_eq, ends_linkDirectory, pushEntry, bind_eq, ends_update,
    pure_eq, ends_ret]
  have hlinked : w.fs.dirs.Linked self := by
    refine ⟨hself, ?_⟩
    rw [← h1.dirs]
    exact (beq_eq_false_iff_ne.1 hlinks)
  have hes6 : (w6.fs.node self).storage = .directory es := by rw [h6.node, ← h2.node, hes]
  have hname : name ∉ es.map Prod.fst := by
    intro hmem
    obtain ⟨e, he, hen⟩ := mem_map.1 hmem
    exact any_eq_false.1 hname e he (beq_iff_eq.2 hen)
  refine h6.created hg hlinked hes6 hvalid hname fileType ?_ hlocks hmounted
  simp only [onNode_fs, onFs_fs, hfs]
  rfl

/-! ## Removing -/

theorem perm_eraseIdx {γ : Type} {l : List γ} {k : Nat} {a : γ} (h : l[k]? = some a) :
    l.Perm (a :: l.eraseIdx k) := by
  obtain ⟨hlt, rfl⟩ := List.getElem?_eq_some_iff.1 h
  exact (getElem_cons_eraseIdx_perm hlt).symm

/-- The link count of a directory that has lost a child of this type. -/
def dropLink (fileType : FileType) (links : Nat) : Nat :=
  if fileType = .directory then fetchSub links else links

theorem dropLink_eq {links : Nat} (h : links ≠ 0) :
    dropLink (fs.node child).fileType links = links - fs.dirs.weight child := by
  simp only [dropLink, weight, dirs, decide_eq_true_eq, fetchSub, if_neg h]
  split <;> rfl

/-- The file system after `detach`. -/
def Fs.detach (fs : Fs) (d child : Nat) : Fs :=
  (fs.modifyNode child fun n => { n with links := 0 }).modifyNode d fun n =>
    { n with links := dropLink (fs.node child).fileType n.links }

theorem ends_detach {k : Unit → Op α} :
    Ends (Prog.bind (detach d child) k) Q w ↔
      Ends (k ()) Q (w.onFs fun fs => fs.detach d child) := by
  have htype : ((w.onNode child fun n => { n with links := 0 }).fs.node child).fileType =
      (w.fs.node child).fileType := by
    rw [onNode_fs, modifyNode_node_self]
  have hfs : (w.onFs fun fs => fs.detach d child) =
      (w.onNode child fun n => { n with links := 0 }).onNode
      d fun n => { n with links := dropLink (w.fs.node child).fileType n.links } := rfl
  rw [detach, bind_eq, bind_assoc, ends_update, fileTypeOf, bind_eq, bind_assoc, ends_load, htype,
    hfs]
  by_cases h : (w.fs.node child).fileType = .directory
  · simp only [dropLink, if_pos h]
    exact Iff.rfl
  simp only [dropLink, if_neg h]
  rw [onNode_id]
  exact Iff.rfl

theorem detach_storage (hne : child ≠ d) :
    ((fs.detach d child).node d).storage = (fs.node d).storage := by
  rw [Fs.detach, Fs.modifyNode_node_self, Fs.modifyNode_node_of_ne _ hne.symm]

/-- The file system after a child has been detached and its entry removed. -/
def Fs.remove (fs : Fs) (d index child : Nat) : Fs :=
  (fs.detach d child).modifyNode d (onEntries fun es => es.eraseIdx index)

theorem Fs.Shape.remove (h : fs.Shape) (d index child : Nat) : (fs.remove d index child).Shape :=
  ((h.setLinks fun _ => 0).setLinks (dropLink _)).onEntries _

variable {es : List (Str × Nat)} {index : Nat} {name : Str}

theorem dirs_remove (htree : fs.dirs.IsTree none) (hd : d ∈ fs.live)
    (hes : (fs.node d).storage = .directory es) (hentry : es[index]? = some (name, child)) :
    (fs.remove d index child).dirs =
      (fs.dirs.takeOut d child (es.eraseIdx index)).kill child := by
  have hmem : (name, child) ∈ fs.dirs.ents d := by
    rw [show fs.dirs.ents d = es from congrArg Storage.list hes]
    exact mem_of_getElem? hentry
  have hne : child ≠ d := htree.ne_of_mem hd hmem
  obtain ⟨hlinked, hdir⟩ := htree.linked_of_mem hd hmem
  rw [Fs.remove, dirs_onEntries ((detach_storage hne).trans hes), Fs.detach,
    dirs_setLinks (dropLink _), dirs_setLinks fun _ => 0]
  simp only [Dirs.takeOut, Dirs.kill, Dirs.mk.injEq, true_and, and_true, update_of_ne hne.symm]
  rw [update_comm hne, dropLink_eq hlinked.2]

theorem remove_storage_self (hne : child ≠ d) (hes : (fs.node d).storage = .directory es) :
    ((fs.remove d index child).node d).storage = .directory (es.eraseIdx index) := by
  rw [remove, modifyNode_node_self, onEntries, detach_storage hne, hes]

theorem remove_storage_of_ne {i : Nat} (hi : i ≠ d) :
    ((fs.remove d index child).node i).storage = (fs.node i).storage := by
  rw [Fs.remove, Fs.modifyNode_node_of_ne _ hi, Fs.detach, Fs.modifyNode_node_of_ne _ hi]
  exact field_modifyNode_eq storage rfl i

theorem Good.remove (hg : Good ls w)
    (hd : d ∈ w.fs.live) (hes : (w.fs.node d).storage = .directory es)
    (hentry : es[index]? = some (name, child)) (hempty : w.fs.dirs.ents child = []) :
    Good ls (w.onFs fun fs => fs.remove d index child) := by
  refine hg.onFs ?_ (hg.shape.remove d index child)
  have hperm : (w.fs.dirs.ents d).Perm ((name, child) :: es.eraseIdx index) := by
    rw [show w.fs.dirs.ents d = es from congrArg Storage.list hes]
    exact perm_eraseIdx hentry
  rw [dirs_remove hg.tree hd hes hentry]
  exact hg.tree.unlink hd hperm hempty

theorem Storage.list_eq_nil {s : Storage} (h : s.nonempty = false) : s.list = [] := by
  cases s with
  | directory es => simpa [Storage.nonempty, Storage.list] using h
  | ram data => rfl
  | sparse f => rfl

/-- Looking into a directory whose mutex is not held. -/
theorem Undone.checkEmpty {stuck : Prop} {c : Nat} (hu : Undone w0 ls w) (hl : .inner c ∉ ls) :
    Ends (checkEmpty c) (Checks w0 stuck ls (w0.fs.dirs.ents c = [])) w := by
  have hback : { w with locks := (Lock.inner c :: w.locks).erase (.inner c) } = w := by
    rw [erase_cons_head]
  rw [Memfs.checkEmpty, ends_withLock (by rwa [hu.locks]), bind_eq, ends_load]
  cases hne : (w.fs.node c).storage.nonempty with
  | true =>
    show Undone w0 ls { w with locks := (Lock.inner c :: w.locks).erase (.inner c) }
    rwa [hback]
  | false =>
    show _ ∧ Undone w0 ls { w with locks := (Lock.inner c :: w.locks).erase (.inner c) }
    rw [hback, ← hu.dirs]
    exact ⟨Storage.list_eq_nil hne, hu⟩

theorem Undone.checkUnlink {stuck : Prop} (hu : Undone w0 ls w) (htree : w0.fs.dirs.IsTree none)
    (hchild : child ∈ w0.fs.live) (hl : .inner child ∉ ls) (directory : Bool) :
    Ends (checkUnlink child directory) (Checks w0 stuck ls (w0.fs.dirs.ents child = [])) w := by
  rw [Memfs.checkUnlink, bind_eq, fileTypeOf, ends_load, hu.node]
  split_ifs with hfile
  · exact ends_guard (fun _ => hu) fun _ => hu.checkEmpty hl
  cases directory with
  | true => exact hu
  | false => exact ⟨(htree.sound child hchild).file (decide_eq_false hfile), hu⟩

/-- What a successful `unlink` does to the entries: one of them goes. -/
structure Unlinked (fs : Fs) (d : Nat) (name : Str) (fs' : Fs) : Prop where
  root : fs'.root = fs.root
  entries : ∃ index child, (fs.entries d)[index]? = some (name, child) ∧
    fs'.entries = update fs.entries d ((fs.entries d).eraseIdx index)

theorem Good.unlink {self : Nat} (hg : Good [] w) (hself : self ∈ w.fs.live) (name : Str)
    (directory : Bool) : Ends (unlink self name directory)
      (Outcome w False [] fun _ => Unlinked w.fs self name) w := by
  have hu : Undone w [] w := hg.locks ▸ Undone.refl w
  rw [Memfs.unlink]
  cases validateName name with
  | error e => exact hu
  | ok _ =>
  refine hu.withLock (by simp) fun w1 h1 => h1.withLock (by simp) fun w2 h2 => ?_
  refine ends_entriesOf (fun _ => h2) fun es hes => ?_
  cases hfind : findEntry es name with
  | error e => exact h2
  | ok found =>
  obtain ⟨index, child⟩ := found
  have hentry := findEntry_ok hfind
  have hents : w.fs.entries self = es := by
    rw [← h2.entries]
    exact congrArg Storage.list hes
  have hmem : (name, child) ∈ w.fs.entries self := hents ▸ mem_of_getElem? hentry
  have hne : child ≠ self := hg.tree.ne_of_mem hself hmem
  refine ends_bind_check (h2.checkUnlink hg.tree (hg.tree.listed self hself name child hmem).1.1
    (by simp [hne]) directory) fun hempty w3 h3 => ?_
  rw [bind_eq, ends_detach]
  have hself3 : self ∈ w3.fs.live := by rwa [h3.live]
  have hes3 : (w3.fs.node self).storage = .directory es := by rw [h3.node, ← h2.node, hes]
  refine ⟨(h3.good hg).remove hself3 hes3 hentry (by rwa [h3.dirs]), h3.root, index, child, ?_, ?_⟩
  · rw [hents, hentry]
  · rw [hents, ← h3.entries]
    exact congrArg ents (dirs_remove (h3.good hg).tree hself3 hes3 hentry)

end Krust.Memfs
