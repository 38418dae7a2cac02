import Krust.Memfs.Calls
import Krust.Memfs.Tree

/-!
# What a call leaves behind

`Good` is the invariant of the states between calls: the namespace is a tree, the list of weak
references has every inode, and inode numbers are fresh.  `Undone w0` says of a
state that nothing has happened since `w0` that a caller could see: no inode, no counter and no
byte has changed, although allocations were tried and inode numbers used up.

`Outcome w0` puts the two together, and is what is proved of every call: if it fails, it has done
nothing, and if it succeeds, the invariant holds again.  While a call runs it has checked things
and done nothing, so its state is `Undone` until it has made sure that it will succeed.
-/

set_option autoImplicit false

namespace Krust.Memfs

open Prog List

def Storage.isDirectory : Storage → Bool
  | .directory _ => true
  | _ => false

/-- What holds of a file system besides its being a tree. -/
structure Fs.Shape (fs : Fs) : Prop where
  /-- The storage of an inode is of the inode's type. -/
  kinds : ∀ i ∈ fs.live, (fs.node i).storage.isDirectory = fs.dirs.dir i
  /-- The list of weak references is complete. -/
  nodes : ∀ i ∈ fs.live, i ∈ fs.nodes
  /-- The next inode number has not been used. -/
  fresh : ∀ i ∈ fs.live, i < fs.nextIno
  pos : 0 < fs.nextIno

/-- **The invariant between calls**, with the mutexes that are held. -/
structure Good (ls : List Lock) (w : World) : Prop where
  tree : w.fs.dirs.IsTree none
  shape : w.fs.Shape
  locks : w.locks = ls
  mounted : w.mounted = true

variable {ls : List Lock} {w w0 : World}

theorem Good.onFs (hg : Good ls w) {f : Fs → Fs} (htree : (f w.fs).dirs.IsTree none)
    (hshape : (f w.fs).Shape) : Good ls (w.onFs f) :=
  ⟨htree, hshape, hg.locks, hg.mounted⟩

/-- Nothing has happened since `w0` that a caller could see. -/
structure Undone (w0 : World) (ls : List Lock) (w : World) : Prop where
  fs : w.fs = { w0.fs with nodes := w.fs.nodes, nextIno := w.fs.nextIno }
  nodes : ∀ i ∈ w0.fs.live, i ∈ w0.fs.nodes → i ∈ w.fs.nodes
  nextIno : w0.fs.nextIno ≤ w.fs.nextIno
  locks : w.locks = ls
  mounted : w.mounted = w0.mounted

/-- Nothing has happened to the namespace since `w0`, though the data of files may have changed. -/
structure Kept (w0 : World) (ls : List Lock) (w : World) : Prop where
  dirs : w.fs.dirs = w0.fs.dirs
  kinds : ∀ i, (w.fs.node i).storage.isDirectory = (w0.fs.node i).storage.isDirectory
  nodes : ∀ i ∈ w0.fs.live, i ∈ w0.fs.nodes → i ∈ w.fs.nodes
  nextIno : w0.fs.nextIno ≤ w.fs.nextIno
  locks : w.locks = ls
  mounted : w.mounted = w0.mounted

/-- The end of a call: it never returns only if `stuck`, and then the namespace is as it was, a
failure has done nothing, and a success has kept the invariant and done what `E` says. -/
def Outcome {α : Type} (w0 : World) (stuck : Prop) (ls : List Lock) (E : α → Fs → Prop) :
    Option (Except FsError α) → World → Prop
  | none, w => stuck ∧ w.fs.dirs = w0.fs.dirs
  | some (.error _), w => Undone w0 ls w
  | some (.ok a), w => Good ls w ∧ E a w.fs

/-- The end of a check: a success has done nothing either, and tells us `P`. -/
def Checks (w0 : World) (stuck : Prop) (ls : List Lock) (P : Prop) :
    Option (Except FsError Unit) → World → Prop
  | none, w => stuck ∧ w.fs.dirs = w0.fs.dirs
  | some (.error _), w => Undone w0 ls w
  | some (.ok _), w => P ∧ Undone w0 ls w

/-- The end of a check that finds out whether `P` and does not touch the state at all. -/
def Looks (w : World) (P : Prop) : Option (Except FsError Unit) → World → Prop
  | none, _ => False
  | some (.error _), w' => ¬ P ∧ w' = w
  | some (.ok _), w' => P ∧ w' = w

variable {d : Nat} {p : Op Unit} {P : Prop}

theorem Looks.congr {P' : Prop} (hP : P ↔ P') (h : Ends p (Looks w P) w) :
    Ends p (Looks w P') w := by
  rwa [← propext hP]

theorem Looks.returns (h : Ends p (Looks w P) w) : ∃ r, run p w = (some r, w) := by
  rcases hr : run p w with ⟨_ | _ | _, w'⟩
  · exact (h.of_run hr).elim
  all_goals exact ⟨_, congrArg _ (h.of_run hr).2⟩

theorem Undone.refl (w : World) : Undone w w.locks w :=
  ⟨rfl, fun _ _ h => h, le_rfl, rfl, rfl⟩

theorem Kept.good {ls0 : List Lock} (hk : Kept w0 ls w) (hg : Good ls0 w0) : Good ls w where
  tree := hk.dirs ▸ hg.tree
  shape := by
    have hlive : w.fs.live = w0.fs.live := congrArg Dirs.live hk.dirs
    refine ⟨fun i hi => ?_, fun i hi => ?_, fun i hi => ?_, hg.shape.pos.trans_le hk.nextIno⟩
    all_goals rw [hlive] at hi
    · rw [hk.kinds, hk.dirs]
      exact hg.shape.kinds i hi
    · exact hk.nodes i hi (hg.shape.nodes i hi)
    · exact (hg.shape.fresh i hi).trans_le hk.nextIno
  locks := hk.locks
  mounted := hk.mounted.trans hg.mounted

section Undone

variable {w0 w : World} {ls : List Lock} (hu : Undone w0 ls w)

include hu

theorem Undone.live : w.fs.live = w0.fs.live := by rw [hu.fs]

theorem Undone.node : w.fs.node = w0.fs.node := by rw [hu.fs]

theorem Undone.root : w.fs.root = w0.fs.root := by rw [hu.fs]

theorem Undone.dirs : w.fs.dirs = w0.fs.dirs := by
  rw [hu.fs]
  rfl

theorem Undone.entries : w.fs.entries = w0.fs.entries := congrArg Dirs.ents hu.dirs

theorem Undone.kept : Kept w0 ls w :=
  ⟨hu.dirs, fun i => by rw [hu.node], hu.nodes, hu.nextIno, hu.locks, hu.mounted⟩

theorem Undone.good {ls0 : List Lock} (hg : Good ls0 w0) : Good ls w := hu.kept.good hg

/-! ## Rules for running a call that has done nothing yet -/

variable {α : Type} {stuck : Prop} {E : α → Fs → Prop}

theorem Undone.relock (ls' : List Lock) : Undone w0 ls' { w with locks := ls' } :=
  ⟨hu.fs, hu.nodes, hu.nextIno, rfl, hu.mounted⟩

theorem Undone.withLock {l : Lock} (hl : l ∉ ls) {p : Op α}
    (h : ∀ w', Undone w0 (l :: ls) w' → Ends p (Outcome w0 stuck (l :: ls) E) w') :
    Ends (withLock l p) (Outcome w0 stuck ls E) w := by
  rw [ends_withLock (by rwa [hu.locks]), hu.locks]
  refine (h _ (hu.relock _)).mono ?_
  rintro (_ | _ | _) w' hw'
  · exact hw'
  · have hls : w'.locks.erase l = ls := by rw [Undone.locks hw']; exact erase_cons_head ..
    dsimp only [OnReturn, Outcome]
    rw [hls]
    exact Undone.relock hw' ls
  · obtain ⟨hg, hE⟩ := hw'
    have hls : w'.locks.erase l = ls := by rw [hg.locks]; exact erase_cons_head ..
    exact ⟨⟨hg.tree, hg.shape, hls, hg.mounted⟩, hE⟩

theorem Undone.looks (h : Ends p (Looks w P) w) : Ends p (Checks w0 stuck ls P) w := by
  refine h.mono ?_
  rintro (_ | _ | _) w' hw'
  · exact hw'.elim
  · obtain ⟨-, rfl⟩ := hw'
    exact hu
  · obtain ⟨hP, rfl⟩ := hw'
    exact ⟨hP, hu⟩

theorem Undone.allocate : Ends allocate (Checks w0 stuck ls True) w := by
  have hpop : Undone w0 ls { w with faults := w.faults.tail } :=
    ⟨hu.fs, hu.nodes, hu.nextIno, hu.locks, hu.mounted⟩
  rw [ends_allocate]
  split
  · exact hpop
  · exact ⟨trivial, hpop⟩

end Undone

variable {stuck : Prop}

theorem Checks.imp {P' : Prop} (hP : P → P') (h : Ends p (Checks w0 stuck ls P) w) :
    Ends p (Checks w0 stuck ls P') w := by
  refine h.mono ?_
  rintro (_ | _ | _) w' hw'
  · exact hw'
  · exact hw'
  · exact ⟨hP hw'.1, hw'.2⟩

variable {α : Type} {E : α → Fs → Prop}

theorem ends_bind_check {k : Unit → Op α} (hp : Ends p (Checks w0 stuck ls P) w)
    (hk : P → ∀ w', Undone w0 ls w' → Ends (k ()) (Outcome w0 stuck ls E) w') :
    Ends (Prog.bind p k) (Outcome w0 stuck ls E) w := by
  rw [ends_bind]
  refine hp.mono ?_
  rintro (_ | _ | _) w' hw'
  · exact hw'
  · exact hw'
  · exact hk hw'.1 w' hw'.2

theorem Outcome.imp {E' : α → Fs → Prop} {p : Op α} (hE : ∀ a fs, E a fs → E' a fs)
    (h : Ends p (Outcome w0 stuck ls E) w) : Ends p (Outcome w0 stuck ls E') w := by
  refine h.mono ?_
  rintro (_ | _ | a) w' hw'
  · exact hw'
  · exact hw'
  · exact hw'.imp_right (hE a _)

variable {Q : Option (Except FsError α) → World → Prop}

theorem ends_entriesOf {k : List (Str × Nat) → Op α} (herr : ∀ e, Q (some (.error e)) w)
    (hok : ∀ es, (w.fs.node d).storage = .directory es → Ends (k es) Q w) :
    Ends (Prog.bind (entriesOf d) k) Q w := by
  show Ends (Prog.bind (ofExcept (w.fs.node d).storage.entries) k) Q w
  cases h : (w.fs.node d).storage with
  | directory es => exact hok es h
  | ram data => exact herr _
  | sparse f => exact herr _

theorem ends_cloneEntry {name : Str} {k : Nat × Nat → Op α} (herr : ∀ e, Q (some (.error e)) w)
    (hok : ∀ es index i, (w.fs.node d).storage = .directory es →
      es[index]? = some (name, i) → Ends (k (index, i)) Q (w.gain (.arc i) 1)) :
    Ends (Prog.bind (cloneEntry d name) k) Q w := by
  rw [cloneEntry, bind_eq, bind_assoc, ends_step]
  cases hes : (w.fs.node d).storage with
  | directory es =>
    cases hfind : findEntry es name with
    | error e => simpa only [Storage.entries, hfind, ends_ofExcept] using herr e
    | ok found =>
      have := hok es found.1 found.2 hes (findEntry_ok hfind)
      simpa only [Storage.entries, hfind, ends_ofExcept] using this
  | ram data => simpa only [Storage.entries, ends_ofExcept] using herr _
  | sparse f => simpa only [Storage.entries, ends_ofExcept] using herr _

/-- Nothing depends on who holds a reference. -/
theorem Undone.retoken (hu : Undone w0 ls w) (tokens : Token → Nat) :
    Undone w0 ls { w with tokens := tokens } :=
  ⟨hu.fs, hu.nodes, hu.nextIno, hu.locks, hu.mounted⟩

theorem ends_droppingArc {p : Op α} (i : Nat) (h : Ends p (Outcome w0 stuck ls E) w) :
    Ends (droppingArc i p) (Outcome w0 stuck ls E) w := by
  rw [droppingArc, ends_andFinally]
  refine h.mono ?_
  rintro (_ | _ | _) w' hw'
  · exact hw'
  · exact Undone.retoken hw' _
  · obtain ⟨hg, hE⟩ := hw'
    exact ⟨⟨hg.tree, hg.shape, hg.locks, hg.mounted⟩, hE⟩

end Krust.Memfs
