import Krust.Memfs.Flat

/-!
# A sparse file is a flat file

The operations on one file, run while the rest of the kernel does what it likes with everything
else: other files are written, the page counter moves, allocations fail.  `Quiet` is what they
leave alone, the storage of this file.  Under that assumption each operation does one `FlatStep` on
the vector the file stands for, and when no allocation fails and there is quota left whenever it is
asked for, it does what `flat` says.

The invariant that is carried through the loops is `Represents` itself: after `written` bytes, the
file stands for the vector with the first `written` bytes of the buffer stored in it.
-/

set_option autoImplicit false

namespace Krust.Memfs

open Prog SparseFile List FileCall

/-- What the others do while a file is used: they leave its storage alone, where there is `room`
they leave memory for it, and quota if it is sparse, and they do to the mutexes and to the
allocations that will fail what `P` does not notice. -/
structure Quiet (i : Nat) (room : Bool → Prop) (P : List Lock → List Bool → Prop)
    (rely : World → World → Prop) : Prop where
  storage : ∀ {w w' : World}, rely w w' → (w'.fs.node i).storage = (w.fs.node i).storage
  memory : ∀ {k : Bool} {w w' : World}, room k → rely w w' → P w'.locks w'.faults → w'.faults = []
  quota : ∀ {w w' : World}, room true → rely w w' → w'.fs.counter .page < w'.fs.limit .page
  keeps : ∀ {w w' : World}, rely w w' → P w.locks w.faults → P w'.locks w'.faults
  pop : ∀ {ls : List Lock} {faults : List Bool}, P ls faults → P ls faults.tail

def Holding (i : Nat) (P : List Lock → List Bool → Prop) (st : Storage) (w : World) : Prop :=
  (w.fs.node i).storage = st ∧ P w.locks w.faults

variable {i : Nat} {P : List Lock → List Bool → Prop} {f : SparseFile} {v : List UInt8}
  {st : Storage} {k : Bool} {w w' : World}

theorem Holding.sparseOf (h : Holding i P (.sparse f) w) : sparseOf w.fs i = f := by
  rw [Memfs.sparseOf, h.1]

theorem Holding.onSparse (h : Holding i P (.sparse f) w) (g : SparseFile → SparseFile) :
    Holding i P (.sparse (g f)) (w.onNode i (onSparse g)) := by
  refine ⟨?_, h.2⟩
  rw [World.onNode_fs, Fs.modifyNode_node_self, Memfs.onSparse, h.1]

theorem Holding.onRam (h : Holding i P (.ram v) w) (g : List UInt8 → List UInt8) :
    Holding i P (.ram (g v)) (w.onNode i (onRam g)) := by
  refine ⟨?_, h.2⟩
  rw [World.onNode_fs, Fs.modifyNode_node_self, Memfs.onRam, h.1]

/-- The inode is a file that stands for this vector, sparse or not. -/
inductive FileAt (i : Nat) (P : List Lock → List Bool → Prop) :
    Bool → List UInt8 → World → Prop
  | ram {v : List UInt8} {w : World} (hw : Holding i P (.ram v) w) : FileAt i P false v w
  | sparse {f : SparseFile} {v : List UInt8} {w : World} (hw : Holding i P (.sparse f) w)
      (hf : Represents f v) : FileAt i P true v w

section Operations

variable {room : Bool → Prop} {rely : World → World → Prop} (hq : Quiet i room P rely)

include hq

theorem Quiet.holding (h : rely w w') (hw : Holding i P st w) : Holding i P st w' :=
  ⟨(hq.storage h).trans hw.1, hq.keeps h hw.2⟩

/-! ## Allocations and charges -/

variable {Q : Except FsError Unit → World → Prop}

section Charges

variable (hw : Holding i P st w) (hok : ∀ w', Holding i P st w' → Q (.ok ()) w')
include hw hok

theorem wp_allocate (herr : ¬ room k → ∀ w', Holding i P st w' → Q (.error .outOfMemory) w') :
    wp rely allocate Q w := by
  simp only [allocate, bind_eq, wp_bind, wp_step, wp_failIf]
  intro w1 h1
  have hw1 := hq.holding h1 hw
  have hpop : Holding i P st { w1 with faults := w1.faults.tail } := ⟨hw1.1, hq.pop hw1.2⟩
  split_ifs with hfail
  · refine herr (fun hroom => ?_) _ hpop
    rw [hq.memory hroom h1 hw1.2] at hfail
    exact absurd hfail (by simp)
  · exact hok _ hpop

theorem wp_reserve (herr : ¬ room true → ∀ w', Holding i P st w' → Q (.error .noSpace) w') :
    wp rely (reserve .page) Q w := by
  simp only [reserve, bind_eq, wp_bind, wp_step, wp_failIf]
  intro w1 h1
  have hw1 := hq.holding h1 hw
  by_cases hlt : w1.fs.counter .page < w1.fs.limit .page
  · rw [if_pos hlt]
    exact hok _ hw1
  · rw [if_neg hlt]
    exact herr (fun hroom => hlt (hq.quota hroom h1)) _ hw1

theorem wp_dropCharge :
    wp rely (dropCharge .page) Q w := by
  rw [dropCharge, wp_update]
  intro w1 h1
  have hw1 := hq.holding h1 hw
  exact hok _ hw1

end Charges

/-! ## Writing -/

/-- A page is found or made: the file stands for what it stood for, and the slot holds the page.
If there is no page, memory or quota has run out. -/
theorem wp_findOrAllocate (hw : Holding i P (.sparse f) w) (hf : Represents f v) (index : Nat) :
    wp rely (findOrAllocate i index) (fun r w' => ∃ f', Holding i P (.sparse f') w' ∧
      Represents f' v ∧ ((∃ slot p, r = .ok slot ∧ f'.pages[slot]? = some p ∧ p.index = index) ∨
        (¬ room true ∧ ∃ e, r = .error e ∧ outOfRoom e))) w := by
  simp only [findOrAllocate, bind_eq, wp_bind, wp_load]
  intro w1 h1
  have hw1 := hq.holding h1 hw
  rw [hw1.sparseOf]
  cases hslot : findSlot f.pages index with
  | ok slot =>
    obtain ⟨p, hp, -, hpi⟩ := findSlot_ok hslot
    exact ⟨f, hw1, hf, .inl ⟨slot, p, rfl, hp, hpi⟩⟩
  | error slot =>
    simp only [allocatePage, bind_eq, wp_bind, pure_eq, wp_ret, wp_onFail]
    refine wp_allocate hq hw1 (fun w2 hw2 => ?_)
      fun hno w2 hw2 => ⟨f, hw2, hf, .inr ⟨hno, _, rfl, .inr rfl⟩⟩
    refine wp_reserve hq hw2 (fun w3 hw3 => ?_)
      fun hno w3 hw3 => ⟨f, hw3, hf, .inr ⟨hno, _, rfl, .inl rfl⟩⟩
    refine wp_allocate hq hw3 (fun w4 hw4 => ?_) fun hno w4 hw4 =>
      wp_dropCharge hq hw4 fun w5 hw5 => ⟨f, hw5, hf, .inr ⟨hno, _, rfl, .inr rfl⟩⟩
    rw [insertPage, wp_await]
    intro w5 h5
    have hw5 := hq.holding h5 hw4
    refine ⟨?_, f.insertPage slot index, hw5.onSparse _, hf.insertPage hslot,
      .inl ⟨slot, _, rfl, insertPage_slot hf.sorted hslot, rfl⟩⟩
    rw [hw5.1]
    exact decide_eq_true (slot_le hf.sorted hslot)

/-- What a write returns: it has stored `n` bytes of the buffer, all of them, or fewer if there was
no room; and if that is none of them it reports an error. -/
def WritePost (i : Nat) (room : Bool → Prop) (P : List Lock → List Bool → Prop) (k : Bool)
    (v : List UInt8) (offset : Nat) (buf : List UInt8) (r : Except FsError Nat) (w' : World) :
    Prop :=
  ∃ n, FileAt i P k (store v offset (buf.take n)) w' ∧
    ((r = .ok n ∧ n = buf.length) ∨
      (¬ room k ∧ ((r = .ok n ∧ 0 < n ∧ n < buf.length) ∨
        (n = 0 ∧ ∃ e, r = .error e ∧ outOfRoom e))))

theorem wp_writeLoop (v : List UInt8) (offset : Nat) (buf : List UInt8) :
    ∀ (fuel written : Nat) {f : SparseFile} {w : World}, buf.length ≤ written + fuel →
      written ≤ buf.length → Holding i P (.sparse f) w →
      Represents f (store v offset (buf.take written)) →
      wp rely (writeLoop i offset buf fuel written) (WritePost i room P true v offset buf) w
  | 0, written, f, w, hfuel, hle, hw, hf => by
    exact ⟨written, .sparse hw hf, .inl ⟨rfl, by omega⟩⟩
  | fuel + 1, written, f, w, hfuel, hle, hw, hf => by
    rw [writeLoop]
    by_cases hlt : written < buf.length
    · rw [if_pos hlt]
      simp only [bind_eq, wp_bind, wp_attempt]
      refine wp_mono ?_ (wp_findOrAllocate hq hw hf _)
      rintro r w1 ⟨f1, hw1, hf1, ⟨slot, p, rfl, hp, hpi⟩ | ⟨hno, e, rfl, he⟩⟩
      · -- the chunk goes into its page
        simp only [wp_bind, wp_update]
        intro w2 h2
        have hmod := Nat.mod_lt (offset + written) PAGE_SIZE_pos
        refine wp_writeLoop v offset buf fuel _ (by omega) (by omega)
          ((hq.holding h2 hw1).onSparse _) (hf1.copyIn hp hpi (by omega) (by omega) (by omega))
      · -- there is no page, and what is written is written
        by_cases h0 : written = 0
        · subst h0
          exact ⟨0, .sparse hw1 hf1, .inr ⟨hno, .inr ⟨rfl, e, rfl, he⟩⟩⟩
        · simp only [if_neg h0]
          exact ⟨written, .sparse hw1 hf1, .inr ⟨hno, .inl ⟨rfl, by omega, hlt⟩⟩⟩
    · rw [if_neg hlt]
      exact ⟨written, .sparse hw hf, .inl ⟨rfl, by omega⟩⟩

omit hq in
/-- Storing a buffer that is not empty grows the vector only if it has to. -/
theorem store_eq {offset : Nat} {buf : List UInt8} (hbuf : buf ≠ []) :
    store v offset buf =
      if v.length < offset + buf.length then
        overwrite (resize v (offset + buf.length) 0) offset buf
      else overwrite v offset buf := by
  rw [store, if_neg hbuf]
  split
  · rw [Nat.max_eq_right (by omega)]
  · rw [Nat.max_eq_left (by omega), show resize v v.length 0 = v by simp [resize]]

theorem wp_writeRam (hw : Holding i P (.ram v) w) (offset : Nat) {buf : List UInt8}
    (hbuf : buf ≠ []) :
    wp rely (writeRam i v offset buf) (WritePost i room P false v offset buf) w := by
  have hall : ∀ w', Holding i P (.ram (store v offset buf)) w' →
      WritePost i room P false v offset buf (.ok buf.length) w' := fun w' hw' =>
    ⟨buf.length, .ram (by rwa [take_length]), .inl ⟨rfl, rfl⟩⟩
  rw [store_eq hbuf] at hall
  rw [writeRam]
  by_cases hlt : v.length < offset + buf.length
  · simp only [if_pos hlt, bind_eq, wp_bind, wp_update, pure_eq, wp_ret] at hall ⊢
    refine wp_allocate hq hw (fun w1 hw1 w2 h2 => hall _ ((hq.holding h2 hw1).onRam _))
      fun hno w1 hw1 => ⟨0, .ram ?_, .inr ⟨hno, .inr ⟨rfl, _, rfl, .inr rfl⟩⟩⟩
    rwa [take_zero, store, if_pos rfl]
  · simp only [if_neg hlt, bind_eq, wp_bind, wp_update, pure_eq, wp_ret] at hall ⊢
    exact fun w1 h1 => hall _ ((hq.holding h1 hw).onRam _)

/-- What `write_data` returns: nothing for an empty buffer, an error past the largest file, and
otherwise what the loop or the vector does. -/
def DataPost (i : Nat) (room : Bool → Prop) (P : List Lock → List Bool → Prop) (k : Bool)
    (v : List UInt8) (offset : Nat) (buf : List UInt8) (r : Except FsError Nat) (w' : World) :
    Prop :=
  (buf = [] ∧ r = .ok 0 ∧ FileAt i P k v w') ∨
  (buf ≠ [] ∧ ¬ offset + buf.length ≤ ISIZE_MAX ∧ r = .error .fileTooLarge ∧ FileAt i P k v w') ∨
  (buf ≠ [] ∧ offset + buf.length ≤ ISIZE_MAX ∧ WritePost i room P k v offset buf r w')

theorem wp_writeData (hw : FileAt i P k v w) (offset : Nat) (buf : List UInt8) :
    wp rely (writeData i offset buf) (DataPost i room P k v offset buf) w := by
  have hchecked : ∀ {p : Op Nat} {w1 : World}, FileAt i P k v w1 →
      (buf ≠ [] → wp rely p (WritePost i room P k v offset buf) w1) →
      wp rely (if buf.isEmpty then return 0 else do
        let _ ← ofExcept (endOf offset buf.length)
        p) (DataPost i room P k v offset buf) w1 := by
    intro p w1 hw1 hp
    by_cases hbuf : buf = []
    · rw [if_pos (by simpa using hbuf)]
      exact .inl ⟨hbuf, rfl, hw1⟩
    rw [if_neg (by simpa using hbuf), bind_eq, wp_bind, wp_ofExcept]
    by_cases hend : offset + buf.length ≤ ISIZE_MAX
    · rw [endOf_ok hend]
      exact wp_mono (fun r w' h => .inr (.inr ⟨hbuf, hend, h⟩)) (hp hbuf)
    · rw [endOf_error hend]
      exact .inr (.inl ⟨hbuf, hend, rfl, hw1⟩)
  simp only [writeData, storageOf, bind_eq, wp_bind, wp_load]
  intro w1 h1
  cases hw with
  | ram hw =>
    have hw1 := hq.holding h1 hw
    rw [hw1.1]
    exact hchecked (.ram hw1) fun hbuf => wp_writeRam hq hw1 offset hbuf
  | sparse hw hf =>
    have hw1 := hq.holding h1 hw
    rw [hw1.1]
    refine hchecked (.sparse hw1 hf) fun _ =>
      wp_writeLoop hq v offset buf buf.length 0 (by omega) (by omega) hw1 ?_
    rwa [take_zero]

/-! ## Truncating -/

/-- `pages.retain`: in the end the pages that have to go are gone. -/
theorem wp_retainPages (newSize : Nat) :
    ∀ (fuel : Nat) {f : SparseFile} {w : World}, f.pages.length ≤ fuel → Holding i P (.sparse f) w →
      wp rely (retainPages i newSize fuel) (fun r w' => r = .ok () ∧
        Holding i P (.sparse { f with pages := f.pages.filter (keeps newSize) }) w') w
  | 0, f, w, hfuel, hw => by
    have hnil : f.pages = [] := length_eq_zero_iff.1 (by omega)
    refine ⟨rfl, ?_⟩
    rw [hnil, filter_nil, ← hnil]
    exact hw
  | fuel + 1, f, w, hfuel, hw => by
    simp only [retainPages, takePage, bind_eq, wp_bind, wp_step]
    intro w1 h1
    have hw1 := hq.holding h1 hw
    rw [hw1.sparseOf]
    by_cases hall : f.pages.all (keeps newSize) = true
    · rw [if_pos hall]
      refine ⟨rfl, ?_⟩
      rw [filter_eq_self.2 (all_eq_true.1 hall)]
      exact hw1
    · rw [if_neg hall]
      simp only [↓reduceIte, wp_bind]
      -- one page less, and the same pages will be left
      have hw1' := hw1.onSparse fun f =>
        { f with pages := f.pages.eraseP fun p => !keeps newSize p }
      refine wp_dropCharge hq hw1' fun w2 hw2 => ?_
      have hshorter : (f.pages.eraseP fun p => !keeps newSize p).length + 1 = f.pages.length := by
        obtain ⟨p, hp, hpk⟩ : ∃ p ∈ f.pages, (!keeps newSize p) = true := by
          simpa using hall
        rw [length_eraseP_of_mem hp hpk]
        have := length_pos_of_mem hp
        omega
      have ih := wp_retainPages newSize fuel (by dsimp only; omega) hw2
      rwa [filter_eraseP] at ih

/-- Without memory a vector cannot grow. -/
theorem wp_truncateData (hw : FileAt i P k v w) (hroom : k = true ∨ room false) (newSize : Nat) :
    wp rely (truncateData i newSize)
      (fun r w' => r = .ok () ∧ FileAt i P k (resize v newSize 0) w') w := by
  simp only [truncateData, storageOf, bind_eq, wp_bind, wp_load]
  intro w1 h1
  cases hw with
  | ram hw =>
    have hw1 := hq.holding h1 hw
    rw [hw1.1]
    dsimp only
    rw [truncateRam]
    split
    · simp only [bind_eq, wp_bind, wp_update]
      refine wp_allocate hq hw1 (k := false)
        (fun w2 hw2 w3 h3 => ⟨trivial, .ram ((hq.holding h3 hw2).onRam _)⟩) fun hno => ?_
      exact absurd (hroom.resolve_left Bool.false_ne_true) hno
    · rw [wp_update]
      exact fun w2 h2 => ⟨rfl, .ram ((hq.holding h2 hw1).onRam _)⟩
  | @sparse f _ _ hw hf =>
    have hw1 := hq.holding h1 hw
    rw [hw1.1]
    dsimp only
    rw [truncateSparse]
    by_cases hlt : newSize < f.size
    · simp only [if_pos hlt, bind_eq, wp_bind]
      refine wp_mono ?_ (wp_retainPages hq newSize f.pages.length le_rfl hw1)
      rintro r w2 ⟨rfl, hw2⟩
      simp only [wp_update]
      exact fun w3 h3 =>
        ⟨trivial, .sparse ((hq.holding h3 hw2).onSparse _) (hf.finishTruncate hlt)⟩
    · simp only [if_neg hlt, wp_update]
      exact fun w2 h2 =>
        ⟨trivial, .sparse ((hq.holding h2 hw1).onSparse _) (hf.resize (by omega))⟩

end Operations

/-! ## Any call -/

/-- What a call does with the mutex held. -/
def FileCall.body (i : Nat) : FileCall → Op Answer
  | .write offset buf => (writeData i offset buf).map .wrote
  | .append buf => (appendData i buf).map fun r => .appended r.1 r.2
  | .truncate newSize => (truncateData i newSize).map fun _ => .truncated
  | .read offset buf => (readData i offset buf).map fun r => .data r.1 r.2
  | .size => ((storageOf i).map Storage.size).map .size

def FileCall.prog (i : Nat) : FileCall → Op Answer
  | .write offset buf => (Memfs.write i offset buf).map .wrote
  | .append buf => (Memfs.append i buf).map fun r => .appended r.1 r.2
  | .truncate newSize => (Memfs.truncate i newSize).map fun _ => .truncated
  | .read offset buf => (Memfs.read i offset buf).map fun r => .data r.1 r.2
  | .size => (Memfs.size i).map .size

/-- The one check that is made before the mutex is taken. -/
def FileCall.tooLarge : FileCall → Bool
  | .truncate newSize => decide (ISIZE_MAX < newSize)
  | _ => false

theorem FileCall.prog_eq (i : Nat) (c : FileCall) :
    c.prog i =
      Prog.bind (failIf c.tooLarge .fileTooLarge) fun _ => withLock (.inner i) (c.body i) := by
  have hmap : ∀ {α : Type} (g : α → Answer) (p : Op α),
      (withLock (.inner i) p).map g = withLock (.inner i) (p.map g) := fun g p =>
    congrArg (Prog.bind (lock (.inner i))) (funext fun _ => map_andFinally g p _)
  cases c with
  | truncate newSize =>
    by_cases h : ISIZE_MAX < newSize
    · simp [prog, Memfs.truncate, tooLarge, h, failIf, Prog.map, Prog.bind]
    · simpa [FileCall.prog, body, Memfs.truncate, tooLarge, h, failIf, Prog.bind] using hmap _ _
  | write offset buf => exact hmap _ _
  | append buf => exact hmap _ _
  | read offset buf => exact hmap _ _
  | size => exact hmap _ _

/-- What a call returns: it has made a step of the abstract file, and if there is room the step is
the one `flat` makes. -/
def CallPost (i : Nat) (room : Bool → Prop) (P : List Lock → List Bool → Prop) (k : Bool)
    (v : List UInt8) (c : FileCall) (r : Reply) (w' : World) : Prop :=
  ∃ v', FileAt i P k v' w' ∧ FlatStep v c r v' ∧ (room k → (r, v') = flat v c)

section Calls

variable {room : Bool → Prop} {rely : World → World → Prop} {c : FileCall}

theorem CallPost.of_flat {r : Reply} {v' : List UInt8} (h : (r, v') = flat v c)
    (hw' : FileAt i P k v' w') : CallPost i room P k v c r w' := by
  have hall := FlatStep.all (v := v) c
  rw [← h] at hall
  exact ⟨v', hw', hall, fun _ => h⟩

section Calls

variable (hq : Quiet i room P rely) (hw : FileAt i P k v w)
include hq hw

/-- The two calls that write have the same outcomes. -/
theorem wp_writeCall (answer : Nat → Answer) {offset : Nat} {buf : List UInt8}
    (hflat : flat v c = flatWrite answer v offset buf)
    (hshort : ∀ n, 0 < n → n < buf.length → offset + buf.length ≤ ISIZE_MAX →
      FlatStep v c (.ok (answer n)) (store v offset (buf.take n)))
    (hnone : ∀ e, outOfRoom e → buf ≠ [] → offset + buf.length ≤ ISIZE_MAX →
      FlatStep v c (.error e) v) :
    wp rely (writeData i offset buf) (fun r w' => CallPost i room P k v c (r.map answer) w') w := by
  refine wp_mono ?_ (wp_writeData hq hw offset buf)
  rintro r w' (⟨hbuf, rfl, hw'⟩ | ⟨hbuf, hend, rfl, hw'⟩ | ⟨hbuf, hend, n, hw', h⟩)
  · exact .of_flat (by rw [hflat, flatWrite, if_pos hbuf]; rfl) hw'
  · exact .of_flat (by rw [hflat, flatWrite, if_neg hbuf, if_neg hend]; rfl) hw'
  · rcases h with ⟨rfl, rfl⟩ | ⟨hno, ⟨rfl, hpos, hlt⟩ | ⟨rfl, e, rfl, he⟩⟩
    · rw [take_length] at hw'
      exact .of_flat (by rw [hflat, flatWrite, if_neg hbuf, if_pos hend]; rfl) hw'
    · exact ⟨_, hw', hshort n hpos hlt hend, fun h => absurd h hno⟩
    · exact ⟨v, hw', hnone e he hbuf hend, fun h => absurd h hno⟩

omit hw in
theorem Quiet.fileAt (h : rely w w') (hw : FileAt i P k v w) : FileAt i P k v w' := by
  cases hw with
  | ram hw => exact .ram (hq.holding h hw)
  | sparse hw hf => exact .sparse (hq.holding h hw) hf

omit hq in
theorem FileAt.size : (w.fs.node i).storage.size = v.length := by
  cases hw with
  | ram hw => rw [hw.1]; rfl
  | sparse hw hf => rw [hw.1]; exact hf.size.symm

/-- **Every call makes a step of the abstract file.**  Only a vector that is to grow by `truncate`
needs room for that. -/
theorem wp_body (hc : c.tooLarge = false) (hroom : k = true ∨ room false ∨ ∃ buf, c = .append buf) :
    wp rely (c.body i) (CallPost i room P k v c) w := by
  cases c with
  | write offset buf =>
    rw [body, wp_map]
    exact wp_writeCall hq hw .wrote rfl (fun n => .shortWrite) fun e => .noWrite
  | append buf =>
    simp only [body, wp_map, appendData, storageOf, bind_eq, wp_bind, wp_load]
    intro w1 h1
    have hw1 := hq.fileAt h1 hw
    have hcall := wp_writeCall hq hw1 (c := .append buf) (.appended v.length) rfl
      (fun n => .shortAppend) fun e => .noAppend
    have hsize := hw1.size
    cases hw1 with
    | ram hw1 =>
      rw [hw1.1, wp_bind]
      refine wp_mono (fun r w' h => ?_) hcall
      cases r <;> exact h
    | sparse hw1 hf =>
      rw [hw1.1] at hsize ⊢
      dsimp only [Storage.size] at hsize ⊢
      rw [hsize, wp_bind]
      refine wp_mono (fun r w' h => ?_) hcall
      cases r <;> exact h
  | truncate newSize =>
    rw [body, wp_map]
    have hroom' : k = true ∨ room false := hroom.imp_right fun h => h.resolve_right (by simp)
    refine wp_mono ?_ (wp_truncateData hq hw hroom' newSize)
    rintro r w' ⟨rfl, hw'⟩
    exact .of_flat (by rw [flat, if_neg (of_decide_eq_false hc)]; rfl) hw'
  | read offset buf =>
    simp only [body, wp_map, readData, storageOf, bind_eq, wp_bind, wp_load]
    intro w1 h1
    cases hq.fileAt h1 hw with
    | ram hw1 =>
      rw [hw1.1]
      refine .of_flat ?_ (.ram hw1)
      -- nothing is copied when there is nothing to copy
      have hempty : ∀ n, n = 0 → buf = overwrite buf 0 (slice v offset n) := by
        simp [overwrite, slice]
      dsimp only [flat, Except.map]
      split
      · rfl
      · rw [← hempty _ (by omega)]
    | sparse hw1 hf =>
      rw [hw1.1]
      exact .of_flat (by rw [hf.read]; rfl) (.sparse hw1 hf)
  | size =>
    simp only [body, wp_map, storageOf, wp_load]
    intro w1 h1
    have hw1 := hq.fileAt h1 hw
    exact .of_flat (by rw [flat, ← hw1.size]; rfl) hw1

end Calls

end Calls

end Krust.Memfs
