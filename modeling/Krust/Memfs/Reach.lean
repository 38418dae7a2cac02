import Krust.Memfs.Rename
import Krust.Memfs.Files

/-!
# The states between calls

Every call has an `Outcome`: if it fails it has left no trace, and otherwise the namespace is a tree
again and the call has done to the entries what it is there for (`Call.Effect`).  So every reachable
state satisfies the invariant, and what the invariant says is put here in terms of the entries
alone: which inodes can be found from the root, where they are listed, and that the entries never
lead in a circle.
-/

set_option autoImplicit false

namespace Krust.Memfs

open Prog Function Option Outcome World

/-! ## Every call has an outcome -/

variable {faults : List Bool} {n : Nat} {limits : Option TmpfsOptions}

section Calls

variable {w0 w1 w : World} {ls : List Lock} {stuck stuck' : Prop} {α : Type} {p : Op α}
  {E : α → Fs → Prop}

theorem Outcome.rebase (h : Ends p (Outcome w1 stuck ls E) w) (hfs : w1.fs = w0.fs)
    (hmounted : w1.mounted = w0.mounted) (hstuck : stuck → stuck') :
    Ends p (Outcome w0 stuck' ls E) w := by
  refine h.mono ?_
  rintro (_ | _ | _) w' hw'
  · exact ⟨hstuck hw'.1, hfs ▸ hw'.2⟩
  · have hu : Undone w1 ls w' := hw'
    exact ⟨hfs ▸ hu.fs, hfs ▸ hu.nodes, hfs ▸ hu.nextIno, hu.locks, hmounted ▸ hu.mounted⟩
  · exact hw'

theorem Good.of_fs {w' : World} (hg : Good ls w) (hfs : w'.fs = w.fs) (hlocks : w'.locks = w.locks)
    (hmounted : w'.mounted = w.mounted) : Good ls w' :=
  ⟨hfs ▸ hg.tree, hfs ▸ hg.shape, hlocks.trans hg.locks, hmounted.trans hg.mounted⟩

/-- A call on an inode that exists. -/
theorem Good.withRef {i : Nat} (hg : Good [] w) (h : Good [] (w.gain (.arc i) 1) → i ∈ w.fs.live →
      Ends p (Outcome (w.gain (.arc i) 1) stuck [] E) (w.gain (.arc i) 1)) :
    Ends (withRef i p) (Outcome w True [] E) w := by
  refine ends_wait (fun hi => ends_droppingArc i ?_) fun _ => ⟨trivial, rfl⟩
  exact rebase (h (hg.of_fs rfl rfl rfl) (of_decide_eq_true hi)) rfl rfl fun _ => trivial

/-- The answer of a call does not matter. -/
theorem Outcome.bind {β : Type} {E' : β → Fs → Prop} {k : α → Op β}
    (h : Ends p (Outcome w0 stuck ls E) w)
    (hk : ∀ a w', Good ls w' → E a w'.fs → Ends (k a) (Outcome w0 stuck ls E') w') :
    Ends (Prog.bind p k) (Outcome w0 stuck ls E') w := by
  rw [ends_bind]
  refine h.mono ?_
  rintro (_ | _ | a) w' hw'
  · exact hw'
  · exact hw'
  · exact hk a w' hw'.1 hw'.2

/-- The root and the entries are what they were. -/
def Unmoved (fs fs' : Fs) : Prop := fs'.root = fs.root ∧ fs'.entries = fs.entries

theorem unmoved_of_dirs {fs fs' : Fs} (h : fs'.dirs = fs.dirs) : Unmoved fs fs' :=
  ⟨congrArg Dirs.root h, congrArg Dirs.ents h⟩

theorem Good.filed (hg : Good ls w) (h : Ends p (Filed w w.locks) w) :
    Ends p (Outcome w True ls fun _ => Unmoved w.fs) w := by
  rw [hg.locks] at h
  refine h.mono ?_
  rintro (_ | _ | _) w' hw'
  · exact ⟨trivial, hw'⟩
  · exact hw'
  · exact ⟨Kept.good hw' hg, unmoved_of_dirs (Kept.dirs hw')⟩

theorem Good.lookup {self : Nat} (hg : Good [] w) (name : Str) :
    Ends (lookup self name) (Outcome w True [] fun _ => Unmoved w.fs) w := by
  have hu : Undone w [] w := hg.locks ▸ Undone.refl w
  refine hu.withLock (by simp) fun w1 h1 => h1.withLock (by simp) fun w2 h2 => ?_
  exact ends_cloneEntry (fun _ => h2) fun es index i _ _ =>
    ⟨(h2.retoken _).good hg, unmoved_of_dirs h2.dirs⟩

theorem Good.withDestination {destination : DynInode} {stuck : World → Prop} (hg : Good [] w)
    (h : ∀ w1, Good [] w1 → w1.fs = w.fs →
      (∀ d, destination.memory = some d → destination.fsId = w1.fs.fsId → d ∈ w1.fs.live) →
      Ends p (Outcome w1 (stuck w1) [] E) w1) :
    Ends (withDestination destination p) (Outcome w True [] E) w := by
  have hhere : (∀ d, destination.memory = some d → destination.fsId = w.fs.fsId → d ∈ w.fs.live) →
      Ends p (Outcome w True [] E) w := fun hdest =>
    rebase (h w hg rfl hdest) rfl rfl fun _ => trivial
  rw [Memfs.withDestination, bind_eq, ends_load]
  rcases hmemory : destination.memory with _ | j
  · exact hhere (by simp [hmemory])
  by_cases hfs : destination.fsId = w.fs.fsId
  · simp only [if_pos hfs]
    refine hg.withRef fun hg1 hj => h _ hg1 rfl fun d hd _ => ?_
    obtain rfl : j = d := some_inj.1 (hmemory.symm.trans hd)
    exact hj
  · simp only [if_neg hfs]
    exact hhere fun d _ hd => absurd hd hfs

/-! ## Inodes that are dropped -/

theorem Good.bury {i : Nat} (hg : Good ls w) (hi : w.droppable i = true) : Good ls (w.bury i) := by
  simp only [droppable, Bool.and_eq_true, decide_eq_true_eq, hg.mounted, Bool.true_and,
    Bool.not_eq_true', beq_eq_false_iff_ne] at hi
  obtain ⟨⟨-, hroot⟩, hlisted⟩ := hi
  have hlive : ∀ {j}, j ∈ w.fs.live.erase i → j ∈ w.fs.live := Finset.mem_of_mem_erase
  refine ⟨?_, ?_, hg.locks, hg.mounted⟩
  · exact hg.tree.drop hroot fun d hd n hn => hlisted d hd (n, i) hn rfl
  · exact ⟨fun j hj => hg.shape.kinds j (hlive hj), fun j hj => hg.shape.nodes j (hlive hj),
      fun j hj => hg.shape.fresh j (hlive hj), hg.shape.pos⟩

/-- The counters are not part of the invariant. -/
theorem Good.setCounter (hg : Good ls w) (r : Resource) (n : Nat) :
    Good ls (w.onFs fun fs => fs.setCounter r n) := by
  cases r <;> exact ⟨hg.tree, ⟨hg.shape.kinds, hg.shape.nodes, hg.shape.fresh, hg.shape.pos⟩,
    hg.locks, hg.mounted⟩

variable {fs : Fs}

theorem Good.dropCharge (hg : Good ls w) (hsame : Unmoved fs w.fs) (r : Resource) :
    Ends (dropCharge r) (Outcome w0 stuck ls fun _ => Unmoved fs) w :=
  ⟨(hg.setCounter r (fetchSub (w.fs.counter r))).of_fs rfl rfl rfl, by cases r <;> exact hsame⟩

theorem Good.dropCharges (hg : Good ls w) (hsame : Unmoved fs w.fs) (n : Nat) :
    Ends (dropCharges n) (Outcome w0 stuck ls fun _ => Unmoved fs) w := by
  induction n generalizing w with
  | zero => exact ⟨hg, hsame⟩
  | succ n ih => exact bind (hg.dropCharge hsame .page) fun _ _ hg' hsame' => ih hg' hsame'

theorem Good.dropInode (hg : Good [] w) (i : Nat) :
    Ends (dropInode i) (Outcome w True [] fun _ => Unmoved w.fs) w := by
  rw [Memfs.dropInode, bind_eq, ends_bind]
  by_cases hi : w.droppable i
  · have hrun : run (act (fun w => if w.droppable i then
        some ((w.fs.node i).storage.pageCount, w.bury i) else none) ret : Op Nat) w =
        (some (.ok (w.fs.node i).storage.pageCount), w.bury i) := by
      rw [run, if_pos hi]
      rfl
    rw [Ends, hrun]
    exact bind ((hg.bury hi).dropCharge ⟨rfl, rfl⟩ .inode) fun _ _ hg' hsame =>
      hg'.dropCharges hsame _
  · have hrun : run (act (fun w => if w.droppable i then
        some ((w.fs.node i).storage.pageCount, w.bury i) else none) ret : Op Nat) w =
      (none, w) := by
      rw [run, if_neg hi]
    rw [Ends, hrun]
    exact ⟨trivial, rfl⟩

theorem Good.keep {i : Nat} {E : Unit → Fs → Prop} (hg : Good ls w) (hE : E () w.fs) :
    Ends (keep i) (Outcome w0 stuck ls E) w :=
  ⟨hg.of_fs rfl rfl rfl, hE⟩

/-- Waiting for something and then changing a reference. -/
theorem Good.await {c : World → Bool} {f : World → World} (hg : Good ls w)
    (hf : (f w).fs = w.fs ∧ (f w).locks = w.locks ∧ (f w).mounted = w.mounted) :
    Ends (await c f) (Outcome w True ls fun _ => Unmoved w.fs) w := by
  by_cases hc : c w
  · have hrun : run (Prog.await c f : Op Unit) w = (some (.ok ()), f w) := by
      rw [Prog.await, run, if_pos hc]
      rfl
    rw [Ends, hrun]
    exact ⟨hg.of_fs hf.1 hf.2.1 hf.2.2, unmoved_of_dirs (congrArg Fs.dirs hf.1)⟩
  · have hrun : run (Prog.await c f : Op Unit) w = (none, w) := by rw [Prog.await, run, if_neg hc]
    rw [Ends, hrun]
    exact ⟨trivial, rfl⟩

/-- What a call that succeeds does to the root and the entries. -/
def Call.Effect (fs : Fs) : Call → Fs → Prop
  | .create self name _, fs' => self ∈ fs.live ∧ ∃ i, Created fs self name i fs'
  | .unlink self name _, fs' => self ∈ fs.live ∧ Unlinked fs self name fs'
  | .rename self name destination newName, fs' =>
    self ∈ fs.live ∧ RenamedTo fs self name destination newName fs'
  | _, fs' => Unmoved fs fs'

/-- **Every call has an outcome.** -/
theorem Good.call (hg : Good [] w) (c : Call) :
    Ends c.prog (Outcome w True [] fun _ => c.Effect w.fs) w := by
  cases c with
  | create self name fileType =>
    exact hg.withRef fun hg1 hself => bind (hg1.create hself name fileType)
      fun i _ hg' h => hg'.keep (And.intro hself ⟨i, h⟩)
  | unlink self name directory =>
    exact hg.withRef fun hg1 hself =>
      imp (fun _ _ => And.intro hself) (hg1.unlink hself name directory)
  | rename self name destination newName =>
    exact hg.withRef fun hg1 hself => hg1.withDestination fun w2 hg2 hfs hdest =>
      imp (fun _ _ h => And.intro hself (hfs ▸ h))
        (hg2.rename (by rwa [hfs]) name newName hdest)
  | lookup self name =>
    exact hg.withRef fun hg1 _ => bind (hg1.lookup name) fun _ _ hg' h => hg'.keep h
  | write self offset buf =>
    exact hg.withRef fun hg1 _ =>
      bind (hg1.filed (filed_write self offset buf)) fun _ _ hg' h => ⟨hg', h⟩
  | append self buf =>
    exact hg.withRef fun hg1 _ =>
      bind (hg1.filed (filed_append self buf)) fun _ _ hg' h => ⟨hg', h⟩
  | truncate self newSize => exact hg.withRef fun hg1 _ => hg1.filed (filed_truncate self newSize)
  | read self offset buf =>
    exact hg.withRef fun hg1 _ =>
      bind (hg1.filed (filed_read self offset buf)) fun _ _ hg' h => ⟨hg', h⟩
  | size self =>
    exact hg.withRef fun hg1 _ =>
      bind (hg1.filed (filed_size self)) fun _ _ hg' h => ⟨hg', h⟩
  | setMetadata self metadata =>
    exact hg.withRef fun hg1 _ => hg1.filed (filed_setMetadata self metadata)
  | cloneHandle i => exact hg.await ⟨rfl, rfl, rfl⟩
  | dropHandle i => exact hg.await ⟨rfl, rfl, rfl⟩
  | dropInode i => exact hg.dropInode i

theorem Good.effect_of_ok (hg : Good [] w) (c : Call) (hr : (run c.prog w).1 = some (.ok ())) :
    c.Effect w.fs (run c.prog w).2.fs := by
  have h := hg.call c
  rw [Ends, hr] at h
  exact h.2

/-- A call that does not succeed has not touched the namespace. -/
theorem Good.dirs_of_not_ok (hg : Good [] w) (c : Call) (hr : (run c.prog w).1 ≠ some (.ok ())) :
    (run c.prog w).2.fs.dirs = w.fs.dirs := by
  have h := hg.call c
  rw [Ends] at h
  rcases hr' : (run c.prog w).1 with _ | e | _ <;> rw [hr'] at h
  · exact h.2
  · exact Undone.dirs h
  · exact absurd hr' hr

end Calls

/-! ## Every reachable state -/

theorem good_root {w : World} {fsId nextIno : Nat} {w1 : World}
    (hu : Undone (boot fsId limits nextIno faults) [] w1) (hpos : 0 < nextIno)
    (hfs : w.fs = { w1.fs.withInode .directory 0 with
      nodes := w1.fs.nodes ++ [w1.fs.nextIno], root := w1.fs.nextIno }) (hlocks : w.locks = [])
    (hmounted : w.mounted = true) : Good [] w := by
  have hempty : w1.fs.live = ∅ := hu.live
  have hne : w1.fs.nextIno ≠ 0 := (hpos.trans_le hu.nextIno).ne'
  have hdirs : w.fs.dirs =
      { w1.fs.dirs.fresh 0 w1.fs.nextIno true with root := w1.fs.nextIno } := by
    rw [hfs]
    exact congrArg (fun t : Dirs => { t with root := w1.fs.nextIno })
      (dirs_withInode w1.fs .directory 0)
  have hshape : w1.fs.Shape := by
    refine ⟨?_, ?_, ?_, Nat.pos_of_ne_zero hne⟩
    all_goals intro i hi
    all_goals rw [hempty] at hi
    all_goals exact absurd hi (Finset.notMem_empty i)
  have hroot := hshape.withInode .directory 0
  refine ⟨?_, hfs ▸ ⟨hroot.kinds, hroot.nodes, hroot.fresh, hroot.pos⟩, hlocks, hmounted⟩
  rw [hdirs]
  refine Dirs.isTree_single ?_ hne (update_self ..) (update_self ..)
    (update_self ..) (update_self ..)
  show insert w1.fs.nextIno w1.fs.live = {w1.fs.nextIno}
  rw [hempty]
  rfl

/-- A new file system has a root and nothing else. -/
theorem ends_build {fsId nextIno : Nat} :
    Ends build (fun r w => r = some (.ok ()) →
      ∃ w1, Undone (boot fsId limits nextIno faults) [] w1 ∧
        w.fs = { w1.fs.withInode .directory 0 with
          nodes := w1.fs.nodes ++ [w1.fs.nextIno], root := w1.fs.nextIno } ∧
        w.locks = [] ∧ w.mounted = true)
      (boot fsId limits nextIno faults) := by
  have hu : Undone (boot fsId limits nextIno faults) [] (boot fsId limits nextIno faults) :=
    Undone.refl _
  refine hu.newInode (fun e w' _ h => absurd h (by simp)) fun w1 w' h1 hfs hlocks _ => ?_
  rw [bind_eq, ends_bind, ends_onFail, ends_withLock (by simp [hlocks]), bind_eq, ends_bind,
    ends_allocate]
  split
  · exact fun h => absurd h (by simp)
  refine fun _ => ⟨w1, h1, ?_, ?_, rfl⟩
  · rw [hfs]
    rfl
  · rw [hlocks]
    rfl

theorem Reachable.good {w : World} (hw : Reachable w) : Good [] w := by
  induction hw with
  | build hpos hrun =>
    obtain ⟨w1, h1, hfs, hlocks, hmounted⟩ := ends_build.of_run hrun rfl
    exact good_root h1 hpos hfs hlocks hmounted
  | @call w w' r _ c hrun ih =>
    have h := (ih.call c).of_run hrun
    cases r with
    | error e => exact Undone.good h ih
    | ok _ => exact h.1
  | @meanwhile w _ nextIno hle faults ih =>
    exact ⟨ih.tree, ⟨ih.shape.kinds, ih.shape.nodes, fun i hi => (ih.shape.fresh i hi).trans_le hle,
      ih.shape.pos.trans_le hle⟩, ih.locks, ih.mounted⟩

/-! ## What the invariant says about the entries -/

def Lists (fs : Fs) (d i : Nat) : Prop := d ∈ fs.live ∧ ∃ n, (n, i) ∈ fs.entries d

/-- The inodes that are found from the root. -/
inductive InTree (fs : Fs) : Nat → Prop
  | root : InTree fs fs.root
  | child {d i : Nat} (hd : InTree fs d) (hi : Lists fs d i) : InTree fs i

/-- A namespace that is a tree. -/
structure IsNamespace (fs : Fs) : Prop where
  /-- Names are unique inside a directory. -/
  names : ∀ d ∈ fs.live, ((fs.entries d).map Prod.fst).Nodup
  root_unlisted : ∀ d, ¬ Lists fs d fs.root
  /-- Everything in the tree but the root is listed once, by the directory its parent field
  names. -/
  listed_once : ∀ i, InTree fs i → i ≠ fs.root →
    (∃! e : Nat × Str, e.1 ∈ fs.live ∧ (e.2, i) ∈ fs.entries e.1) ∧ Lists fs (fs.node i).parent i
  links_directory : ∀ d, InTree fs d → (fs.node d).fileType = .directory →
    (fs.node d).links =
      2 + (fs.entries d).countP fun e => decide ((fs.node e.2).fileType = .directory)
  /-- Everything in the tree exists and has a link. -/
  linked : ∀ i, InTree fs i → i ∈ fs.live ∧ (fs.node i).links ≠ 0
  /-- Everything else that still exists has none, and lists nothing. -/
  detached : ∀ i ∈ fs.live, ¬ InTree fs i → (fs.node i).links = 0 ∧ fs.entries i = []
  /-- Nothing is its own descendant. -/
  acyclic : ∀ i, ¬ Relation.TransGen (Lists fs) i i
  /-- The ancestor walk of `rename` returns from every directory it can be started in. -/
  walk : ∀ w source destination, w.fs = fs → destination ∈ fs.live →
    (fs.node destination).links ≠ 0 →
      ∃ r, run (ancestorWalk fs.nodes source (fs.nodes.length + 1) destination) w = (some r, w)

namespace Dirs.IsTree

variable {fs : Fs} (h : fs.dirs.IsTree none) {i d : Nat}

include h

theorem linked_of_inTree (hi : InTree fs i) : fs.dirs.Linked i := by
  induction hi with
  | root => exact h.root_linked
  | child _ hi _ =>
    obtain ⟨hd, n, hn⟩ := hi
    exact (h.listed _ hd n _ hn).1

/-- What is linked is found from the root, by the way up in reverse. -/
theorem inTree_of_linked (hi : fs.dirs.Linked i) : InTree fs i := by
  obtain ⟨n, hn⟩ := h.rooted i hi
  induction hn with
  | stop => exact .root
  | step hx _ ih => exact .child (ih (h.linked_parent hi hx)) (h.linked _ hi hx (by simp))

theorem reaches_of_lists (hi : Lists fs d i) (hd : Reaches fs.dirs.parent fs.dirs.root d n) :
    Reaches fs.dirs.parent fs.dirs.root i (n + 1) := by
  obtain ⟨hlive, m, hm⟩ := hi
  obtain ⟨-, hparent, hroot⟩ := h.listed d hlive m i hm
  exact .step hroot (hparent ▸ hd)

/-- A descendant is further from the root. -/
theorem reaches_of_transGen (hi : Relation.TransGen (Lists fs) d i)
    (hd : Reaches fs.dirs.parent fs.dirs.root d n) :
    ∃ m, n < m ∧ Reaches fs.dirs.parent fs.dirs.root i m := by
  induction hi with
  | single hi => exact ⟨n + 1, n.lt_succ_self, h.reaches_of_lists hi hd⟩
  | tail _ hi ih =>
    obtain ⟨m, hlt, hm⟩ := ih
    exact ⟨m + 1, hlt.trans m.lt_succ_self, h.reaches_of_lists hi hm⟩

theorem acyclic : ¬ Relation.TransGen (Lists fs) i i := by
  intro hi
  obtain ⟨j, ⟨hlive, n, hn⟩, -⟩ := Relation.TransGen.head'_iff.1 hi
  obtain ⟨n, hn⟩ := h.rooted i (h.linked_of_mem hlive hn).1
  obtain ⟨m, hlt, hm⟩ := h.reaches_of_transGen hi hn
  exact hlt.ne (hn.unique hm)

end Dirs.IsTree

def World.after (w : World) (c : Call) : World := (run c.prog w).2

theorem Reachable.after {w : World} (hw : Reachable w) {c : Call} {r : Except FsError Unit}
    (hr : (run c.prog w).1 = some r) : Reachable (w.after c) := hw.call c (Prod.ext hr rfl)

/-- A file system with the directories `/a`, `/a/b` and `/a/b/c`, the inodes 2, 3 and 4. -/
def nested : World :=
  (((run build (boot 1 none 1 [])).2.after (.create 1 ['a'] .directory)).after
    (.create 2 ['b'] .directory)).after (.create 3 ['c'] .directory)

theorem reachable_nested : Reachable nested := by
  have hbuild : run build (boot 1 none 1 []) =
      (some (.ok ()), (run build (boot 1 none 1 [])).2) := rfl
  have hb : Reachable _ := .build (by decide) hbuild
  have hc : Reachable _ := hb.after (c := .create 1 ['a'] .directory) (r := .ok ()) rfl
  have hd : Reachable _ := hc.after (c := .create 2 ['b'] .directory) (r := .ok ()) rfl
  exact hd.after (r := .ok ()) rfl

/-- **The namespace is a tree in every reachable state**, whatever calls have been made and however
they ended. -/
theorem reachable_isNamespace {w : World} (hw : Reachable w) : IsNamespace w.fs := by
  have hg := hw.good
  have htree := hg.tree
  refine ⟨fun d hd => (htree.sound d hd).names, ?_, ?_, ?_, fun i hi => htree.linked_of_inTree hi,
    ?_,
    fun i => htree.acyclic, ?_⟩
  · rintro d ⟨hd, n, hn⟩
    exact (htree.listed d hd n _ hn).2.2 rfl
  · intro i hi hroot
    obtain ⟨hparent, n, hn⟩ := htree.linked i (htree.linked_of_inTree hi) hroot (by simp)
    refine ⟨⟨(w.fs.dirs.parent i, n), ⟨hparent, hn⟩, ?_⟩, hparent, n, hn⟩
    rintro ⟨d, m⟩ ⟨hd, hm⟩
    obtain rfl : d = w.fs.dirs.parent i := htree.dir_unique hd hparent hm hn
    exact congrArg (Prod.mk _) (htree.name_unique hd hm hn)
  · intro d hd hdir
    obtain ⟨hlive, h0⟩ := htree.linked_of_inTree hd
    exact (htree.sound d hlive).links_dir h0 (decide_eq_true hdir)
  · intro i hi hnot
    have h0 : w.fs.dirs.links i = 0 := by
      by_contra hne
      exact hnot (htree.inTree_of_linked ⟨hi, hne⟩)
    exact ⟨h0, (htree.sound i hi).detached h0⟩
  · intro w' source destination hfs hlive hlinks
    rw [← hfs] at htree hlive hlinks ⊢
    have hnodes : ∀ i ∈ w'.fs.live, i ∈ w'.fs.nodes := by
      rw [hfs]
      exact hg.shape.nodes
    obtain ⟨n, hn⟩ := htree.rooted destination ⟨hlive, hlinks⟩
    have hlt := hn.lt_length fun y hy =>
      hnodes y (htree.linked_of_above ⟨hlive, hlinks⟩ hy).1
    exact Looks.returns (looks_ancestorWalk htree hnodes hn ⟨hlive, hlinks⟩ (by omega))

theorem reachable_isNamespace_nested : IsNamespace nested.fs :=
  reachable_isNamespace reachable_nested

/-! ## Calls that fail, and calls that do not return -/

/-- **A call that fails changes nothing**: no inode has come or gone, every one of them has the
entries, bytes and metadata it had, and both counters are the same. -/
theorem failed_call_changes_nothing {w w' : World} {c : Call} {e : FsError} (hw : Reachable w)
    (hrun : run c.prog w = (some (.error e), w')) :
    w'.fs.root = w.fs.root ∧ w'.fs.live = w.fs.live ∧ w'.fs.node = w.fs.node ∧
      w'.fs.pages = w.fs.pages ∧ w'.fs.inodes = w.fs.inodes := by
  have hu : Undone w [] w' := (hw.good.call c).of_run hrun
  exact ⟨hu.root, hu.live, hu.node, by rw [hu.fs], by rw [hu.fs]⟩

/-- Removing the directory `/a` while it is not empty. -/
theorem failed_call_changes_nothing_notEmpty :
    (nested.after (.unlink 1 ['a'] true)).fs.node = nested.fs.node := by
  have hrun : run (Call.unlink 1 ['a'] true).prog nested =
      (some (.error .notEmpty), nested.after (.unlink 1 ['a'] true)) := rfl
  exact (failed_call_changes_nothing reachable_nested hrun).2.2.1

/-- **`rename` returns, unless a directory is renamed onto its parent** and there is memory for the
copy of the name. -/
theorem rename_returns_iff {w : World} (hw : Reachable w) {self : Nat} (hself : self ∈ w.fs.live)
    (name : Str) (destination : DynInode) (newName : Str)
    (hdest : ∀ d, destination.memory = some d → destination.fsId = w.fs.fsId → d ∈ w.fs.live) :
    (∃ r w', run (rename self name destination newName) w = (some r, w')) ↔
      ¬ (OntoParent w.fs self name destination newName ∧ w.faults.headD false = false) := by
  have hout := hw.good.rename hself name newName hdest
  rcases hr : run (rename self name destination newName) w with ⟨_ | r, w'⟩
  · have hp : OntoParent w.fs self name destination newName := (hout.of_run hr).1
    have hfaults := ((hw.good.rename_waits hself hdest hp).of_run hr).1 rfl
    exact iff_of_false (by simp) (fun h => h ⟨hp, hfaults⟩)
  refine iff_of_true ⟨r, w', rfl⟩ fun ⟨hp, hfaults⟩ => ?_
  have := ((hw.good.rename_waits hself hdest hp).of_run hr).2 hfaults
  exact absurd this (by simp)

/-- Moving `/a/b/c` to `/d` returns. -/
theorem rename_returns_iff_elsewhere :
    ∃ r w', run (rename 3 ['c'] ⟨1, some 1⟩ ['d']) nested = (some r, w') := by
  refine (rename_returns_iff reachable_nested (by decide) ['c'] ⟨1, some 1⟩ ['d'] ?_).2 ?_
  · intro d hd _
    obtain rfl := some_inj.1 hd
    decide
  · rintro ⟨hp, -⟩
    obtain ⟨d, hd, htarget⟩ := hp.target
    obtain rfl := some_inj.1 hd
    exact absurd htarget (by decide)

/-- Moving `/a/b/c` onto `/a/b` does not: the call waits for the mutex of `/a/b`, which it holds. -/
theorem rename_never_returns :
    Reachable nested ∧ 3 ∈ nested.fs.live ∧ 2 ∈ nested.fs.live ∧ nested.fs.fsId = 1 ∧
      (run (rename 3 ['c'] ⟨1, some 2⟩ ['b']) nested).1 = none ∧
      (run (rename 3 ['c'] ⟨1, some 2⟩ ['b']) nested).2.locks = [.inner 2, .inner 3, .nodes] :=
  ⟨reachable_nested, by decide, by decide, rfl, rfl, rfl⟩

end Krust.Memfs
