import Krust.Memfs.Calls

/-!
# Files as flat byte vectors

What a file is for its users: a vector of bytes that grows with zeros.  `flat` is that abstract
file, one call at a time, with nothing ever failing for want of memory; `FlatStep` adds the calls
that are cut short, of which exactly the reported part has happened.

`Represents f v` says that the sparse file `f` stands for the vector `v`.  This file has what the
single changes of a sparse file are in terms of the vector; that the operations as a whole do what
`FlatStep` says is proved in `Krust.Memfs.Refine`.
-/

set_option autoImplicit false

namespace Krust.Memfs

open List

/-! ## The abstract file -/

inductive FileCall
  | write (offset : Nat) (buf : List UInt8)
  | append (buf : List UInt8)
  | truncate (newSize : Nat)
  | read (offset : Nat) (buf : List UInt8)
  | size
  deriving DecidableEq

inductive Answer
  /-- `write`: the number of bytes written. -/
  | wrote (count : Nat)
  /-- `append`: where it wrote, and the number of bytes. -/
  | appended (offset count : Nat)
  | truncated
  /-- `read`: the number of bytes read, and the buffer after the call. -/
  | data (count : Nat) (buf : List UInt8)
  | size (n : Nat)
  deriving DecidableEq

abbrev Reply := Except FsError Answer

/-- Store bytes in a vector, which grows with zeros if it has to.  Storing nothing changes
nothing. -/
def store (v : List UInt8) (offset : Nat) (xs : List UInt8) : List UInt8 :=
  if xs = [] then v else overwrite (resize v (max v.length (offset + xs.length)) 0) offset xs

/-- Write a whole buffer, unless the file would get too large. -/
def flatWrite (answer : Nat → Answer) (v : List UInt8) (offset : Nat) (buf : List UInt8) :
    Reply × List UInt8 :=
  if buf = [] then (.ok (answer 0), v)
  else if offset + buf.length ≤ ISIZE_MAX then (.ok (answer buf.length), store v offset buf)
  else (.error .fileTooLarge, v)

/-- The abstract file: what a call answers, and the vector after it. -/
def flat (v : List UInt8) : FileCall → Reply × List UInt8
  | .write offset buf => flatWrite .wrote v offset buf
  | .append buf => flatWrite (.appended v.length) v v.length buf
  | .truncate newSize =>
    if ISIZE_MAX < newSize then (.error .fileTooLarge, v)
    else (.ok .truncated, resize v newSize 0)
  | .read offset buf =>
    let count := min buf.length (v.length - offset)
    (.ok (.data count (overwrite buf 0 (slice v offset count))), v)
  | .size => (.ok (.size v.length), v)

/-- The errors of a write that finds no page. -/
def outOfRoom (e : FsError) : Prop := e = .noSpace ∨ e = .outOfMemory

/-- One call on the abstract file, which may run out of room: then a write stores the part it
reports, or fails and stores nothing. -/
inductive FlatStep (v : List UInt8) : FileCall → Reply → List UInt8 → Prop
  | all (c : FileCall) : FlatStep v c (flat v c).1 (flat v c).2
  | shortWrite {offset n : Nat} {buf : List UInt8} (hpos : 0 < n) (hn : n < buf.length)
      (hend : offset + buf.length ≤ ISIZE_MAX) :
      FlatStep v (.write offset buf) (.ok (.wrote n)) (store v offset (buf.take n))
  | noWrite {offset : Nat} {buf : List UInt8} {e : FsError} (he : outOfRoom e) (hbuf : buf ≠ [])
      (hend : offset + buf.length ≤ ISIZE_MAX) :
      FlatStep v (.write offset buf) (.error e) v
  | shortAppend {n : Nat} {buf : List UInt8} (hpos : 0 < n) (hn : n < buf.length)
      (hend : v.length + buf.length ≤ ISIZE_MAX) :
      FlatStep v (.append buf) (.ok (.appended v.length n)) (store v v.length (buf.take n))
  | noAppend {buf : List UInt8} {e : FsError} (he : outOfRoom e) (hbuf : buf ≠ [])
      (hend : v.length + buf.length ≤ ISIZE_MAX) :
      FlatStep v (.append buf) (.error e) v

/-- A history of calls and their outcomes is one of the abstract file that starts as `v`. -/
inductive FlatTrace : List UInt8 → List (FileCall × Reply) → Prop
  | nil (v : List UInt8) : FlatTrace v []
  | cons {v v' : List UInt8} {c : FileCall} {r : Reply} {h : List (FileCall × Reply)}
      (hstep : FlatStep v c r v') (hrest : FlatTrace v' h) : FlatTrace v ((c, r) :: h)

variable {newSize slot : Nat}

section Store

variable (v : List UInt8) (offset : Nat) (xs : List UInt8)

theorem length_store :
    (store v offset xs).length =
      if xs = [] then v.length else max v.length (offset + xs.length) := by
  rw [store]
  split
  · rfl
  · rw [length_overwrite (by rw [length_resize]; omega), length_resize]

theorem getD_store (pos : Nat) :
    (store v offset xs).getD pos 0 =
      if offset ≤ pos ∧ pos < offset + xs.length then xs.getD (pos - offset) 0
      else v.getD pos 0 := by
  rw [store]
  split
  · rename_i h
    rw [if_neg (by rw [h, length_nil]; omega)]
  rw [getD_overwrite (by rw [length_resize]; omega), getD_resize]
  congr 1
  split
  · rfl
  · rw [getD_eq_default _ _ (by omega)]

end Store

/-! ## Sparse files that stand for a vector -/

open SparseFile

/-- The sparse file stands for this vector. -/
structure Represents (f : SparseFile) (v : List UInt8) : Prop where
  sorted : SortedBy FilePage.index f.pages
  size : v.length = f.size
  /-- The bytes agree; in particular there are only zeros past the end. -/
  byte : ∀ pos, v.getD pos 0 = byteAt f.pages pos

theorem represents_empty : Represents empty [] :=
  ⟨List.Pairwise.nil, rfl, fun _ => rfl⟩

namespace Represents

variable {f : SparseFile} {v : List UInt8} (h : Represents f v)

include h

/-- A fresh page changes nothing. -/
theorem insertPage {index : Nat} (hslot : findSlot f.pages index = .error slot) :
    Represents (f.insertPage slot index) v :=
  ⟨sorted_insertPage h.sorted hslot, h.size, fun pos => by
    rw [byteAt_insertPage h.sorted hslot, h.byte]⟩

/-- Growing the file takes no pages. -/
theorem resize (hle : f.size ≤ newSize) :
    Represents { f with size := newSize } (resize v newSize 0) := by
  refine ⟨h.sorted, by rw [length_resize], fun pos => ?_⟩
  rw [getD_resize, ← h.byte]
  split
  · rfl
  · rw [getD_eq_default _ _ (by have := h.size; omega)]

/-- Cutting the file, once the pages past the end are gone. -/
theorem finishTruncate (hlt : newSize < f.size) :
    Represents (finishTruncate { f with pages := f.pages.filter (keeps newSize) } newSize)
      (Krust.resize v newSize 0) := by
  have hs := sorted_filter h.sorted (keeps newSize)
  have hgone : ∀ p ∈ f.pages.filter (keeps newSize), p.index * PAGE_SIZE < newSize :=
    fun p hp => lt_divCeil_iff.1 (of_decide_eq_true (mem_filter.1 hp).2)
  refine ⟨sorted_finishTruncate hs newSize, by rw [length_resize]; rfl, fun pos => ?_⟩
  rw [getD_resize,
    byteAt_finishTruncate (f := ⟨f.size, f.pages.filter (keeps newSize)⟩) hs hlt hgone]
  split
  · have hpage : pos / PAGE_SIZE * PAGE_SIZE < newSize := by
      have := Nat.div_mul_le_self pos PAGE_SIZE
      omega
    rw [h.byte, byteAt_filter h.sorted, if_pos hpage]
  · rfl

theorem read (offset : Nat) (buf : List UInt8) :
    f.read offset buf =
      (min buf.length (v.length - offset),
        overwrite buf 0 (slice v offset (min buf.length (v.length - offset)))) := by
  have hcount : min buf.length (f.size - offset) = min buf.length (v.length - offset) := by
    rw [h.size]
  rw [SparseFile.read, hcount]
  generalize hc : min buf.length (v.length - offset) = count
  have hlen : (slice v offset count).length = count := by rw [length_slice]; omega
  have hzeros : 0 + (replicate count (0 : UInt8)).length ≤ buf.length := by
    rw [length_replicate]; omega
  have hslice : 0 + (slice v offset count).length ≤ buf.length := by omega
  have hget : ∀ i, (overwrite buf 0 (replicate count 0)).getD i 0 =
      if i < count then 0 else buf.getD i 0 := fun i => by
    rw [getD_overwrite hzeros, length_replicate]
    simp only [Nat.zero_le, true_and, Nat.zero_add, Nat.sub_zero]
    split
    · rw [getD_eq_getElem _ _ (by rwa [length_replicate]), getElem_replicate]
    · rfl
  obtain ⟨hl, hg⟩ := getD_readLoop h.sorted offset count count 0
    (overwrite buf 0 (replicate count 0)) (by omega)
    (by rw [length_overwrite hzeros]; omega) (fun i _ hi => by rw [hget, if_pos hi])
  refine Prod.ext rfl (ext_getD 0 ?_ fun i => ?_)
  · rw [hl, length_overwrite hzeros, length_overwrite hslice]
  rw [hg, hget, getD_overwrite hslice, hlen]
  simp only [Nat.zero_le, true_and, Nat.zero_add, Nat.sub_zero]
  split_ifs with hi
  · rw [getD_slice, if_pos hi, ← h.byte]
  · rfl

end Represents

/-- One round of the write loop: with `written` bytes of the buffer stored, the next chunk goes
into the page of its position. -/
theorem Represents.copyIn {f : SparseFile} {v buf : List UInt8} {offset written : Nat}
    (h : Represents f (store v offset (buf.take written))) {p : FilePage}
    (hp : f.pages[slot]? = some p) (hidx : p.index = (offset + written) / PAGE_SIZE) {count : Nat}
    (hpos : 0 < count) (hle : written + count ≤ buf.length)
    (hfit : (offset + written) % PAGE_SIZE + count ≤ PAGE_SIZE) :
    Represents (f.copyIn slot ((offset + written) % PAGE_SIZE) (slice buf written count)
        (offset + (written + count)))
      (store v offset (buf.take (written + count))) := by
  have hlen : (slice buf written count).length = count := by rw [length_slice]; omega
  have htake : ∀ n, n ≤ buf.length → (buf.take n).length = n := fun n hn => by
    rw [length_take]; omega
  have hnil : ∀ n, n ≤ buf.length → (buf.take n = [] ↔ n = 0) := fun n hn => by
    rw [← length_eq_zero_iff, htake n hn]
  refine ⟨sorted_copyIn h.sorted hp _ _ _, ?_, fun pos => ?_⟩
  · have hsize := h.size
    rw [length_store, htake _ (by omega)] at hsize
    rw [length_store, htake _ hle, if_neg (by rw [hnil _ hle]; omega), SparseFile.copyIn, ← hsize]
    dsimp only
    split <;> omega
  · rw [byteAt_copyIn h.sorted hp hidx (by rwa [hlen]), hlen, ← h.byte, getD_store, getD_store,
      htake _ hle, htake _ (by omega), getD_slice]
    by_cases hin : offset + written ≤ pos ∧ pos < offset + written + count
    · rw [if_pos hin, if_pos (by omega), if_pos (by omega), getD_eq_getElem?_getD,
        getElem?_take, if_pos (by omega), getD_eq_getElem?_getD,
        show written + (pos - (offset + written)) = pos - offset by omega]
    rw [if_neg hin]
    by_cases hold : offset ≤ pos ∧ pos < offset + written
    · rw [if_pos hold, if_pos (by omega), getD_eq_getElem?_getD, getElem?_take,
        if_pos (by omega), getD_eq_getElem?_getD, getElem?_take, if_pos (by omega)]
    · rw [if_neg hold, if_neg (by omega)]

end Krust.Memfs
