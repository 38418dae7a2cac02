import Krust.Memfs.Effects

/-!
# Reading and writing files, from outside

The operations on one file leave the namespace alone (`Kept`), and when one of them fails the file
is as it was too.  The loop of `write_data` is the only place where an error can turn up after
something has been written, and there it is not reported.
-/

set_option autoImplicit false

namespace Krust.Memfs

open Prog List Undone

/-- The end of an operation on a file. -/
def Filed {α : Type} (w0 : World) (ls : List Lock) : Option (Except FsError α) → World → Prop
  | none, w => w.fs.dirs = w0.fs.dirs
  | some (.error _), w => Undone w0 ls w
  | some (.ok _), w => Kept w0 ls w

variable {α : Type}

section Kept

variable {w0 w w' : World} {ls : List Lock}

theorem Undone.trans (hu : Undone w0 ls w) (hu' : Undone w ls w') : Undone w0 ls w' where
  fs := by rw [hu'.fs, hu.fs]
  nodes i hi hn := hu'.nodes i (by rwa [hu.live]) (hu.nodes i hi hn)
  nextIno := hu.nextIno.trans hu'.nextIno
  locks := hu'.locks
  mounted := hu'.mounted.trans hu.mounted

theorem Kept.trans (hk : Kept w0 ls w) (hk' : Kept w ls w') : Kept w0 ls w' where
  dirs := hk'.dirs.trans hk.dirs
  kinds i := (hk'.kinds i).trans (hk.kinds i)
  nodes i hi hn := by
    have hlive : w.fs.live = w0.fs.live := congrArg Dirs.live hk.dirs
    exact hk'.nodes i (by rwa [hlive]) (hk.nodes i hi hn)
  nextIno := hk.nextIno.trans hk'.nextIno
  locks := hk'.locks
  mounted := hk'.mounted.trans hk.mounted

/-- A change of an inode that the namespace does not see. -/
structure Unseen (f : MemoryInode → MemoryInode) : Prop where
  parent : ∀ n, (f n).parent = n.parent
  links : ∀ n, (f n).links = n.links
  fileType : ∀ n, (f n).fileType = n.fileType
  list : ∀ n, (f n).storage.list = n.storage.list
  isDirectory : ∀ n, (f n).storage.isDirectory = n.storage.isDirectory

variable {f : MemoryInode → MemoryInode}

theorem dirs_unseen {fs : Fs} {i : Nat} (hf : Unseen f) : (fs.modifyNode i f).dirs = fs.dirs := by
  simp only [Fs.dirs, Fs.entries, Dirs.mk.injEq]
  refine ⟨rfl, ?_, ?_, ?_, ?_, rfl⟩
  all_goals funext j
  · rw [field_modifyNode_eq MemoryInode.fileType (hf.fileType _)]
  · exact field_modifyNode_eq MemoryInode.parent (hf.parent _) j
  · exact field_modifyNode_eq MemoryInode.links (hf.links _) j
  · exact field_modifyNode_eq (fun n => n.storage.list) (hf.list _) j

theorem unseen_onSparse (f : SparseFile → SparseFile) : Unseen (onSparse f) := by
  constructor <;> intro n <;> cases h : n.storage <;> simp [onSparse, h, Storage.list,
    Storage.isDirectory]

theorem unseen_onRam (f : List UInt8 → List UInt8) : Unseen (onRam f) := by
  constructor <;> intro n <;> cases h : n.storage <;> simp [onRam, h, Storage.list,
    Storage.isDirectory]

/-- Changing the data of an inode, and the page counter and the tokens with it. -/
theorem Kept.modify (hk : Kept w0 ls w) {i : Nat} (hf : Unseen f)
    (hfs : w'.fs = { w.fs.modifyNode i f with pages := w'.fs.pages }) (hlocks : w'.locks = w.locks)
    (hmounted : w'.mounted = w.mounted) : Kept w0 ls w' := by
  refine hk.trans ⟨?_, ?_, ?_, ?_, hlocks.trans hk.locks, hmounted⟩
  · rw [hfs]
    show (w.fs.modifyNode i f).dirs = _
    exact dirs_unseen hf
  · intro j
    rw [hfs]
    exact field_modifyNode_eq (fun n => n.storage.isDirectory) (hf.isDirectory _) j
  · intro j _ hj
    rwa [hfs]
  · rw [hfs]
    exact le_rfl

/-! ## Writing -/

theorem undone_faults (w : World) : Undone w w.locks { w with faults := w.faults.tail } :=
  ⟨rfl, fun _ _ h => h, le_rfl, rfl, rfl⟩

variable (i : Nat)

theorem filed_allocatePage (slot index : Nat) :
    Ends (allocatePage i slot index) (Filed w w.locks) w := by
  rw [allocatePage, bind_eq, ends_bind, ends_allocate]
  have hpop := undone_faults w
  split
  · exact hpop
  rw [andThen_ok, bind_eq, ends_reserve]
  split
  · rw [bind_eq, ends_bind, ends_onFail, ends_allocate]
    split
    · -- the charge is given back
      exact ⟨rfl, fun _ _ h => h, le_rfl, rfl, rfl⟩
    rw [onError_ok, andThen_ok]
    refine ends_wait (fun _ => ?_) fun _ => rfl
    exact hpop.kept.modify (unseen_onSparse _) rfl rfl rfl
  · exact hpop

theorem filed_findOrAllocate (index : Nat) : Ends (findOrAllocate i index) (Filed w w.locks) w := by
  rw [findOrAllocate, bind_eq, ends_load]
  split
  · exact (refl w).kept
  · exact filed_allocatePage i _ index

/-- An error comes back only before anything has been written. -/
theorem Kept.writeLoop (offset : Nat) (buf : List UInt8) (fuel written : Nat) (hk : Kept w0 ls w)
    (hu : written = 0 → Undone w0 ls w) :
    Ends (writeLoop i offset buf fuel written) (Filed w0 ls) w := by
  induction fuel generalizing written w with
  | zero => exact hk
  | succ fuel ih =>
    rw [writeLoop]
    split
    · rw [bind_eq, ends_bind, ends_attempt]
      have hfind := filed_findOrAllocate (w := w) i ((offset + written) / PAGE_SIZE)
      rw [hk.locks] at hfind
      refine hfind.mono ?_
      rintro (_ | e | slot) w1 h1
      · exact Eq.trans h1 hk.dirs
      · show Ends (if written = 0 then fail e else ret written) (Filed w0 ls) w1
        by_cases h0 : written = 0
        · rw [if_pos h0]
          exact (hu h0).trans h1
        · rw [if_neg h0]
          exact hk.trans (kept h1)
      · have hk1 : Kept w0 ls w1 := hk.trans h1
        refine ih _ (hk1.modify (unseen_onSparse _) rfl rfl rfl) fun h0 => ?_
        have := Nat.mod_lt (offset + written) (by decide : 0 < PAGE_SIZE)
        omega
    · exact hk

theorem filed_update {i : Nat} (hf : Unseen f) :
    Ends (update fun w => w.onNode i f) (Filed w w.locks) w := by
  exact (refl w).kept.modify hf rfl rfl rfl

/-- An allocation before a change of the data. -/
theorem filed_allocate_update {i : Nat} (hf : Unseen f) {a : α} :
    Ends (Prog.bind allocate fun _ => Prog.bind (update fun w => w.onNode i f) fun _ => ret a)
      (Filed w w.locks) w := by
  rw [ends_bind, ends_allocate]
  split
  · exact undone_faults w
  · exact (undone_faults w).kept.modify hf rfl rfl rfl

theorem filed_writeData (offset : Nat) (buf : List UInt8) :
    Ends (writeData i offset buf) (Filed w w.locks) w := by
  have hu := refl w
  rw [writeData, bind_eq, storageOf, ends_load]
  cases (w.fs.node i).storage with
  | directory es => exact hu
  | ram data =>
    dsimp only
    split
    · exact hu.kept
    rw [bind_eq, ends_ofExcept]
    rcases endOf offset buf.length with e | _
    · exact hu
    dsimp only
    rw [writeRam]
    split
    · exact filed_allocate_update (unseen_onRam _)
    · exact filed_update (unseen_onRam _)
  | sparse f =>
    dsimp only
    split
    · exact hu.kept
    cases endOf offset buf.length with
    | error e => exact hu
    | ok _ => exact hu.kept.writeLoop i offset buf _ 0 fun _ => hu

theorem filed_appendData (buf : List UInt8) : Ends (appendData i buf) (Filed w w.locks) w := by
  have hmap : ∀ offset, Ends (Prog.bind (writeData i offset buf) fun written =>
      ret (offset, written)) (Filed w w.locks) w := by
    intro offset
    rw [ends_bind]
    refine (filed_writeData i offset buf).mono ?_
    rintro (_ | _ | _) w' hw' <;> exact hw'
  rw [appendData, bind_eq, storageOf, ends_load]
  cases (w.fs.node i).storage with
  | directory es => exact refl w
  | ram data => exact hmap data.length
  | sparse f => exact hmap f.size

/-! ## Truncating -/

theorem Kept.retainPages (newSize fuel : Nat) (hk : Kept w0 ls w) :
    Ends (retainPages i newSize fuel) (fun r w' => r = some (.ok ()) ∧ Kept w0 ls w') w := by
  induction fuel generalizing w with
  | zero => exact ⟨rfl, hk⟩
  | succ fuel ih =>
    rw [retainPages, bind_eq, takePage, ends_step]
    by_cases hall : (sparseOf w.fs i).pages.all (SparseFile.keeps newSize)
    · rw [if_pos hall]
      exact ⟨rfl, hk⟩
    · rw [if_neg hall]
      exact ih (hk.modify (unseen_onSparse _) rfl rfl rfl)

theorem filed_truncateData (newSize : Nat) : Ends (truncateData i newSize) (Filed w w.locks) w := by
  have hu := refl w
  rw [truncateData, bind_eq, storageOf, ends_load]
  cases (w.fs.node i).storage with
  | directory es => exact hu
  | ram data =>
    dsimp only
    rw [truncateRam]
    split
    · exact filed_allocate_update (a := ()) (unseen_onRam _)
    · exact filed_update (unseen_onRam _)
  | sparse f =>
    dsimp only
    rw [truncateSparse]
    split
    · rw [bind_eq, ends_bind]
      refine (hu.kept.retainPages i newSize _).mono ?_
      rintro r w1 ⟨rfl, hk⟩
      exact hk.modify (unseen_onSparse _) rfl rfl rfl
    · exact filed_update (unseen_onSparse _)

/-! ## With the mutex -/

theorem filed_withLock {p : Op α} (l : Lock) (hp : ∀ w, Ends p (Filed w w.locks) w) :
    Ends (withLock l p) (Filed w w.locks) w := by
  by_cases hl : l ∈ w.locks
  · rw [ends_withLock_of_mem hl]
    rfl
  rw [ends_withLock hl]
  refine (hp _).mono ?_
  rintro (_ | _ | _) w1 h1
  · exact h1
  · have hu : Undone _ _ w1 := h1
    have hls : w1.locks.erase l = w.locks := by rw [hu.locks, erase_cons_head]
    exact ⟨hu.fs, hu.nodes, hu.nextIno, hls, hu.mounted⟩
  · have hk : Kept _ _ w1 := h1
    have hls : w1.locks.erase l = w.locks := by rw [hk.locks, erase_cons_head]
    exact ⟨hk.dirs, hk.kinds, hk.nodes, hk.nextIno, hls, hk.mounted⟩

theorem filed_write (offset : Nat) (buf : List UInt8) :
    Ends (write i offset buf) (Filed w w.locks) w :=
  filed_withLock _ fun _ => filed_writeData i offset buf

theorem filed_append (buf : List UInt8) : Ends (append i buf) (Filed w w.locks) w :=
  filed_withLock _ fun _ => filed_appendData i buf

theorem filed_truncate (newSize : Nat) : Ends (truncate i newSize) (Filed w w.locks) w :=
  ends_guard (fun _ => refl w) fun _ => filed_withLock _ fun _ => filed_truncateData i newSize

theorem filed_read (offset : Nat) (buf : List UInt8) :
    Ends (read i offset buf) (Filed w w.locks) w := by
  refine filed_withLock _ fun w => ?_
  rw [readData, bind_eq, storageOf, ends_load]
  cases (w.fs.node i).storage with
  | directory es => exact refl w
  | ram data => exact (refl w).kept
  | sparse f => exact (refl w).kept

theorem filed_size : Ends (size i) (Filed w w.locks) w :=
  filed_withLock _ fun w => (refl w).kept

theorem filed_setMetadata (metadata : SetMetadata) :
    Ends (setMetadata i metadata) (Filed w w.locks) w := by
  refine ends_guard (fun _ => refl w) fun _ => filed_withLock _ fun w => filed_update ?_
  exact ⟨fun _ => rfl, fun _ => rfl, fun _ => rfl, fun _ => rfl, fun _ => rfl⟩

end Kept

end Krust.Memfs
