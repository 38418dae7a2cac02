import Krust.Fs.Defs
import Krust.Lib.BinarySearch
import Krust.Lib.Bytes

/-!
# Sparse files

A tmpfs file keeps its contents in 4 KiB pages, and only those pages that have been written to
exist: `SparseFile` is the size and the list of pages, sorted by page index.  This file has the
pure part of the code that works on that list: looking a page up, copying bytes out of the pages
and into them, and throwing pages away when the file is cut.

`SparseFile.byteAt` is what the list means: the byte at a position of the file, which is zero where
there is no page.  For each of the operations there is one lemma that says what it does to
`byteAt`; they all need the pages to be strictly sorted by index, which is what the binary search
relies on, and they all keep it so.
-/

set_option autoImplicit false

namespace Krust.Memfs

open List Option

/-- `OwnedPage`: the 4096 bytes of a frame the file owns. -/
abbrev OwnedPage := Fin PAGE_SIZE → UInt8

/-- A fresh page is zeroed. -/
def OwnedPage.zero : OwnedPage := fun _ => 0

/-- `FilePage`, without its charge: the charge is counted by the file system that owns the file. -/
structure FilePage where
  index : Nat
  data : OwnedPage

open FilePage

def FilePage.byte (p : FilePage) (i : Nat) : UInt8 := p.data (Fin.ofNat PAGE_SIZE i)

/-- `data.bytes()[start..start + len]`. -/
def FilePage.bytes (p : FilePage) (start len : Nat) : List UInt8 :=
  (List.range len).map fun i => p.byte (start + i)

/-- `data.bytes_mut()[start..start + chunk.len()].copy_from_slice(chunk)`. -/
def FilePage.copyFrom (p : FilePage) (start : Nat) (chunk : List UInt8) : FilePage :=
  { p with data := fun i =>
      if start ≤ i.val ∧ i.val < start + chunk.length then chunk.getD (i.val - start) 0
      else p.data i }

/-- `data.bytes_mut()[start..].fill(0)`. -/
def FilePage.zeroFrom (p : FilePage) (start : Nat) : FilePage :=
  { p with data := fun i => if start ≤ i.val then 0 else p.data i }

/-- `Storage::Sparse`. -/
structure SparseFile where
  size : Nat
  pages : List FilePage

variable {g : FilePage → FilePage} {i position len pos : Nat}

namespace SparseFile

/-- The file a tmpfs inode is created with. -/
def empty : SparseFile := ⟨0, []⟩

/-- `pages.binary_search_by_key(&index, |p| p.index)`. -/
def findSlot (pages : List FilePage) (index : Nat) : Except Nat Nat :=
  binarySearchByKey pages FilePage.index index

/-! ## Reading -/

/-- The loop of `MemoryInode::read`: every page contributes the part of it that is asked for, and
where there is no page the zeros already in the buffer stay. -/
def readLoop (pages : List FilePage) (offset count : Nat) :
    Nat → Nat → List UInt8 → List UInt8
  | 0, _, buf => buf
  | fuel + 1, copied, buf =>
    if copied < count then
      let position := offset + copied
      let start := position % PAGE_SIZE
      let len := min (PAGE_SIZE - start) (count - copied)
      let buf := match findSlot pages (position / PAGE_SIZE) with
        | .ok slot => match pages[slot]? with
          | some page => overwrite buf copied (page.bytes start len)
          | none => buf
        | .error _ => buf
      readLoop pages offset count fuel (copied + len) buf
    else buf

/-- `MemoryInode::read` on a sparse file: how many bytes were read, and the buffer they are in. -/
def read (f : SparseFile) (offset : Nat) (buf : List UInt8) : Nat × List UInt8 :=
  let count := min buf.length (f.size - offset)
  let buf := overwrite buf 0 (List.replicate count 0)
  (count, readLoop f.pages offset count count 0 buf)

/-! ## Writing -/

/-- `pages.insert(slot, page)`, with a fresh page. -/
def insertPage (f : SparseFile) (slot index : Nat) : SparseFile :=
  { f with pages := f.pages.insertIdx slot ⟨index, OwnedPage.zero⟩ }

/-- Copy a chunk into the page in a slot, and let the file reach to the end of it. -/
def copyIn (f : SparseFile) (slot start : Nat) (chunk : List UInt8) (reach : Nat) : SparseFile where
  size := max f.size reach
  pages := f.pages.modify slot fun p => p.copyFrom start chunk

/-! ## Truncating -/

/-- `usize::div_ceil`. -/
def divCeil (a b : Nat) : Nat := if a % b = 0 then a / b else a / b + 1

/-- `pages.retain(|page| page.index < new_size.div_ceil(PAGE_SIZE))`: the pages that stay. -/
def keeps (newSize : Nat) (p : FilePage) : Bool := decide (p.index < divCeil newSize PAGE_SIZE)

/-- What `truncate` does after the pages past the end are gone: the tail of the last page is
zeroed when the file got shorter, and the size is set. -/
def finishTruncate (f : SparseFile) (newSize : Nat) : SparseFile where
  size := newSize
  pages :=
    if newSize < f.size ∧ newSize % PAGE_SIZE ≠ 0 then
      match findSlot f.pages (newSize / PAGE_SIZE) with
      | .ok slot => f.pages.modify slot fun p => p.zeroFrom (newSize % PAGE_SIZE)
      | .error _ => f.pages
    else f.pages

/-! ## What the pages mean -/

def pageAt (pages : List FilePage) (index : Nat) : Option FilePage :=
  pages.find? fun p => p.index == index

/-- The byte at a position: zero where there is no page. -/
def byteAt (pages : List FilePage) (pos : Nat) : UInt8 :=
  match pageAt pages (pos / PAGE_SIZE) with
  | some p => p.byte (pos % PAGE_SIZE)
  | none => 0

/-! ### Pages of a sorted list -/

variable {pages : List FilePage} {p : FilePage} {index slot : Nat} {f : SparseFile}

section Slots

variable (hs : SortedBy FilePage.index pages)
include hs

theorem slot_inj {j : Nat} {q : FilePage}
    (hp : pages[i]? = some p) (hq : pages[j]? = some q) (h : p.index = q.index) : i = j := by
  rcases lt_trichotomy i j with hij | hij | hij
  · exact absurd h (hs.lt hp hq hij).ne
  · exact hij
  · exact absurd h.symm (hs.lt hq hp hij).ne

omit hs in
theorem pageAt_eq_none : pageAt pages index = none ↔ ∀ p ∈ pages, p.index ≠ index := by
  simp [pageAt, find?_eq_none]

theorem pageAt_eq_some :
    pageAt pages index = some p ↔ p ∈ pages ∧ p.index = index := by
  refine ⟨fun h => ⟨mem_of_find?_eq_some h, by simpa using find?_some h⟩, ?_⟩
  rintro ⟨hp, rfl⟩
  rcases h : pageAt pages p.index with _ | q
  · exact absurd rfl (pageAt_eq_none.1 h p hp)
  have hq : q.index = p.index := by simpa using find?_some h
  obtain ⟨i, hi⟩ := mem_iff_getElem?.1 (mem_of_find?_eq_some h)
  obtain ⟨j, hj⟩ := mem_iff_getElem?.1 hp
  obtain rfl := slot_inj hs hi hj hq
  rw [hi] at hj
  exact hj

theorem byteAt_of_mem (hp : p ∈ pages) (h : p.index = pos / PAGE_SIZE) :
    byteAt pages pos = p.byte (pos % PAGE_SIZE) := by
  rw [byteAt, (pageAt_eq_some hs).2 ⟨hp, h⟩]

omit hs in
theorem byteAt_of_hole (h : ∀ p ∈ pages, p.index ≠ pos / PAGE_SIZE) : byteAt pages pos = 0 := by
  rw [byteAt, pageAt_eq_none.2 h]

theorem byteAt_congr {pages' : List FilePage} (hs' : SortedBy FilePage.index pages')
    (h : ∀ p : FilePage, p.index = pos / PAGE_SIZE → (p ∈ pages ↔ p ∈ pages')) :
    byteAt pages pos = byteAt pages' pos := by
  by_cases hex : ∃ p ∈ pages, p.index = pos / PAGE_SIZE
  · obtain ⟨p, hp, hpi⟩ := hex
    rw [byteAt_of_mem hs hp hpi, byteAt_of_mem hs' ((h p hpi).1 hp) hpi]
  · rw [byteAt_of_hole fun p hp hpi => hex ⟨p, hp, hpi⟩,
      byteAt_of_hole fun p hp hpi => hex ⟨p, (h p hpi).2 hp, hpi⟩]

end Slots

theorem findSlot_ok (h : findSlot pages index = .ok slot) :
    ∃ p, pages[slot]? = some p ∧ p ∈ pages ∧ p.index = index := by
  obtain ⟨p, hp, hpi⟩ := binarySearchByKey_ok h
  exact ⟨p, hp, mem_of_getElem? hp, hpi⟩

section Pages

variable (hs : SortedBy FilePage.index pages)
include hs

theorem findSlot_error (h : findSlot pages index = .error slot) : ∀ p ∈ pages, p.index ≠ index := by
  obtain ⟨-, hlo, hhi⟩ := binarySearchByKey_error hs h
  intro p hp
  obtain ⟨i, hi⟩ := mem_iff_getElem?.1 hp
  rcases lt_or_ge i slot with hlt | hge
  · exact (hlo i p hlt hi).ne
  · exact (hhi i p hge hi).ne'

/-! ### Changing the bytes of one page -/

section Modify

variable (hp : pages[slot]? = some p)
include hp

/-- Changing the page in a slot changes the page with its index. -/
theorem modify_eq_map (g : FilePage → FilePage) :
    pages.modify slot g = pages.map fun q => if q.index = p.index then g q else q := by
  refine ext_getElem? fun j => ?_
  rw [getElem?_modify, getElem?_map]
  rcases hj : pages[j]? with _ | q
  · rfl
  have hiff : slot = j ↔ q.index = p.index := by
    refine ⟨fun h => ?_, fun h => slot_inj hs hp hj h.symm⟩
    rw [← h, hp, some_inj] at hj
    rw [hj]
  simp only [hiff, Option.map_eq_map, map_some]

theorem sorted_modify (hg : ∀ q, (g q).index = q.index) :
    SortedBy FilePage.index (pages.modify slot g) := by
  rw [modify_eq_map hs hp, SortedBy, pairwise_map]
  refine List.Pairwise.imp (fun {q q'} hqq' => ?_) hs
  have hkeep : ∀ r : FilePage, (if r.index = p.index then g r else r).index = r.index := fun r => by
    split
    · exact hg r
    · rfl
  rwa [hkeep, hkeep]

theorem byteAt_modify (hg : ∀ q, (g q).index = q.index) (pos : Nat) :
    byteAt (pages.modify slot g) pos =
      if pos / PAGE_SIZE = p.index then (g p).byte (pos % PAGE_SIZE) else byteAt pages pos := by
  have hs' := sorted_modify hs hp hg
  have hmem := mem_of_getElem? hp
  by_cases hpage : pos / PAGE_SIZE = p.index
  · have hp' : g p ∈ pages.modify slot g := by
      rw [modify_eq_map hs hp]
      exact mem_map.2 ⟨p, hmem, if_pos rfl⟩
    rw [if_pos hpage, byteAt_of_mem hs' hp' ((hg p).trans hpage.symm)]
  · rw [if_neg hpage]
    refine byteAt_congr hs' hs fun q hq => ?_
    rw [modify_eq_map hs hp, List.mem_map]
    refine ⟨?_, fun hqm => ⟨q, hqm, if_neg (by rw [hq]; exact hpage)⟩⟩
    rintro ⟨r, hr, rfl⟩
    by_cases hrp : r.index = p.index
    · rw [if_pos hrp, hg, hrp] at hq
      exact absurd hq.symm hpage
    · rwa [if_neg hrp]

end Modify

end Pages

theorem byte_copyFrom (p : FilePage) {start : Nat} (chunk : List UInt8) (hi : i < PAGE_SIZE) :
    (p.copyFrom start chunk).byte i =
      if start ≤ i ∧ i < start + chunk.length then chunk.getD (i - start) 0 else p.byte i := by
  simp only [byte, copyFrom, Fin.val_ofNat, Nat.mod_eq_of_lt hi]

theorem byte_zeroFrom (p : FilePage) (start : Nat) (hi : i < PAGE_SIZE) :
    (p.zeroFrom start).byte i = if start ≤ i then 0 else p.byte i := by
  simp only [byte, zeroFrom, Fin.val_ofNat, Nat.mod_eq_of_lt hi]

/-- A range inside one page, page by page and byte by byte. -/
theorem in_page_iff (h : position % PAGE_SIZE + len ≤ PAGE_SIZE) (pos : Nat) :
    position ≤ pos ∧ pos < position + len ↔ pos / PAGE_SIZE = position / PAGE_SIZE ∧
      position % PAGE_SIZE ≤ pos % PAGE_SIZE ∧
      pos % PAGE_SIZE < position % PAGE_SIZE + len := by
  unfold PAGE_SIZE at *
  omega

theorem sub_of_same_page (h : pos / PAGE_SIZE = position / PAGE_SIZE) :
    pos - position = pos % PAGE_SIZE - position % PAGE_SIZE := by
  unfold PAGE_SIZE at *
  omega

section CopyIn

variable (hs : SortedBy FilePage.index f.pages) (hp : f.pages[slot]? = some p)
include hs hp

/-- **What copying a chunk into its page does to the file**: the chunk is there, and nothing else
changed. -/
theorem byteAt_copyIn (hidx : p.index = position / PAGE_SIZE) {chunk : List UInt8}
    (hlen : position % PAGE_SIZE + chunk.length ≤ PAGE_SIZE) (reach pos : Nat) :
    byteAt (f.copyIn slot (position % PAGE_SIZE) chunk reach).pages pos =
      if position ≤ pos ∧ pos < position + chunk.length then chunk.getD (pos - position) 0
      else byteAt f.pages pos := by
  have hmod := byteAt_modify hs hp
    (g := fun q => q.copyFrom (position % PAGE_SIZE) chunk) (fun _ => rfl) pos
  rw [copyIn, hmod, hidx]
  simp only [in_page_iff hlen]
  by_cases hpage : pos / PAGE_SIZE = position / PAGE_SIZE
  · have hbyte := byteAt_of_mem hs (mem_of_getElem? hp) (hidx.trans hpage.symm)
    rw [if_pos hpage, byte_copyFrom p chunk (Nat.mod_lt pos PAGE_SIZE_pos),
      sub_of_same_page hpage, hbyte]
    simp only [hpage, true_and]
  · rw [if_neg hpage, if_neg fun h => hpage h.1]

theorem sorted_copyIn (start : Nat) (chunk : List UInt8) (reach : Nat) :
    SortedBy FilePage.index (f.copyIn slot start chunk reach).pages := by
  exact sorted_modify hs hp fun _ => rfl

end CopyIn

/-! ### A fresh page -/

section Insert

variable {f : SparseFile} (hs : SortedBy FilePage.index f.pages) {slot index : Nat}
  (h : findSlot f.pages index = .error slot)

include hs h

theorem slot_le : slot ≤ f.pages.length := (binarySearchByKey_error hs h).1

theorem sorted_insertPage : SortedBy FilePage.index (f.insertPage slot index).pages := by
  obtain ⟨hle, hlo, hhi⟩ := binarySearchByKey_error hs h
  have htake : ∀ p ∈ f.pages.take slot, p.index < index := fun p hp => by
    obtain ⟨j, hj⟩ := mem_iff_getElem?.1 hp
    rw [getElem?_take] at hj
    split at hj
    · exact hlo j p ‹_› hj
    · exact absurd hj (by simp)
  have hdrop : ∀ p ∈ f.pages.drop slot, index < p.index := fun p hp => by
    obtain ⟨j, hj⟩ := mem_iff_getElem?.1 hp
    rw [getElem?_drop] at hj
    exact hhi _ p (by omega) hj
  rw [insertPage, insertIdx_eq_append hle]
  refine pairwise_append.2 ⟨hs.sublist (take_sublist _ _),
    pairwise_cons.2 ⟨hdrop, hs.sublist (drop_sublist _ _)⟩, fun p hp q hq => ?_⟩
  rcases mem_cons.1 hq with rfl | hq
  · exact htake p hp
  · exact (htake p hp).trans (hdrop q hq)

theorem insertPage_slot :
    (f.insertPage slot index).pages[slot]? = some ⟨index, OwnedPage.zero⟩ := by
  rw [insertPage, getElem?_insertIdx_self, if_pos (slot_le hs h)]

/-- A fresh page is zeroed, so it reads as the hole it replaces. -/
theorem byteAt_insertPage (pos : Nat) :
    byteAt (f.insertPage slot index).pages pos = byteAt f.pages pos := by
  have hs' := sorted_insertPage hs h
  have hmem : ∀ p, p ∈ (f.insertPage slot index).pages ↔
      p = ⟨index, OwnedPage.zero⟩ ∨ p ∈ f.pages := fun p => mem_insertIdx (slot_le hs h)
  by_cases hpos : pos / PAGE_SIZE = index
  · rw [byteAt_of_mem hs' ((hmem _).2 (.inl rfl)) hpos.symm,
      byteAt_of_hole (hpos ▸ findSlot_error hs h)]
    rfl
  refine byteAt_congr hs' hs fun p hp => ?_
  rw [hmem]
  refine or_iff_right fun hpe => hpos ?_
  rw [← hp, hpe]

end Insert

/-! ### Cutting the file -/

theorem lt_divCeil_iff {n : Nat} : index < divCeil n PAGE_SIZE ↔ index * PAGE_SIZE < n := by
  unfold divCeil PAGE_SIZE
  split <;> omega

theorem sorted_filter (hs : SortedBy FilePage.index pages) (keep : FilePage → Bool) :
    SortedBy FilePage.index (pages.filter keep) :=
  hs.sublist filter_sublist

/-- Dropping the pages past the new end leaves the bytes of the pages that stay. -/
theorem byteAt_filter (hs : SortedBy FilePage.index pages) (newSize pos : Nat) :
    byteAt (pages.filter (keeps newSize)) pos =
      if pos / PAGE_SIZE * PAGE_SIZE < newSize then byteAt pages pos else 0 := by
  have hs' := sorted_filter hs (keeps newSize)
  have hkeep : ∀ p, keeps newSize p = true ↔ p.index * PAGE_SIZE < newSize := fun p => by
    rw [keeps, decide_eq_true_iff, lt_divCeil_iff]
  by_cases hlt : pos / PAGE_SIZE * PAGE_SIZE < newSize
  · rw [if_pos hlt]
    refine byteAt_congr hs' hs fun p hp => ?_
    rw [mem_filter, hkeep, hp]
    exact and_iff_left hlt
  · rw [if_neg hlt]
    refine byteAt_of_hole fun p hp hpi => hlt ?_
    rw [← hpi]
    exact (hkeep p).1 (mem_filter.1 hp).2

/-- Taking away one page that has to go does not change which pages will be left. -/
theorem filter_eraseP (pages : List FilePage) (keep : FilePage → Bool) :
    (pages.eraseP fun p => !keep p).filter keep = pages.filter keep := by
  induction pages with
  | nil => rfl
  | cons p pages ih =>
    cases hp : keep p with
    | true => simp [hp, ih]
    | false => simp [hp]

theorem sorted_finishTruncate (hs : SortedBy FilePage.index f.pages) (newSize : Nat) :
    SortedBy FilePage.index (f.finishTruncate newSize).pages := by
  rw [finishTruncate]
  split
  · split
    · rename_i slot h
      obtain ⟨p, hp, -, -⟩ := findSlot_ok h
      exact sorted_modify hs hp fun _ => rfl
    · exact hs
  · exact hs

/-- The tail of the last page is zeroed when the file got shorter. -/
theorem byteAt_finishTruncate (hs : SortedBy FilePage.index f.pages) {newSize : Nat}
    (hlt : newSize < f.size) (hgone : ∀ p ∈ f.pages, p.index * PAGE_SIZE < newSize) (pos : Nat) :
    byteAt (f.finishTruncate newSize).pages pos =
      if pos < newSize then byteAt f.pages pos else 0 := by
  -- a position past the new end either has no page or is in the tail of the last one
  have hpast : newSize ≤ pos → pos / PAGE_SIZE ≠ newSize / PAGE_SIZE ∨ newSize % PAGE_SIZE = 0 →
      byteAt f.pages pos = 0 := fun hge hpage => by
    refine byteAt_of_hole fun p hp hpi => ?_
    have := hgone p hp
    unfold PAGE_SIZE at *
    omega
  rw [finishTruncate]
  by_cases hmod : newSize % PAGE_SIZE = 0
  · rw [if_neg (by simp [hmod])]
    split
    · rfl
    · exact hpast (by omega) (.inr hmod)
  · rw [if_pos ⟨hlt, hmod⟩]
    cases h : findSlot f.pages (newSize / PAGE_SIZE) with
    | error slot =>
      dsimp only
      split
      · rfl
      by_cases hpage : pos / PAGE_SIZE = newSize / PAGE_SIZE
      · exact byteAt_of_hole (hpage ▸ findSlot_error hs h)
      · exact hpast (by omega) (.inl hpage)
    | ok slot =>
      obtain ⟨p, hp, hmem, hpi⟩ := findSlot_ok h
      have hmodify := byteAt_modify hs hp
        (g := fun q => q.zeroFrom (newSize % PAGE_SIZE)) (fun _ => rfl) pos
      rw [hmodify, hpi]
      by_cases hpage : pos / PAGE_SIZE = newSize / PAGE_SIZE
      · have hiff : newSize % PAGE_SIZE ≤ pos % PAGE_SIZE ↔ ¬ pos < newSize := by
          unfold PAGE_SIZE at *
          omega
        rw [if_pos hpage, byte_zeroFrom p _ (Nat.mod_lt pos PAGE_SIZE_pos),
          byteAt_of_mem hs hmem (hpi.trans hpage.symm)]
        simp only [hiff, ite_not]
      · rw [if_neg hpage]
        split
        · rfl
        · exact hpast (by omega) (.inl hpage)

/-! ### Reading -/

theorem length_bytes (p : FilePage) (start len : Nat) : (p.bytes start len).length = len := by
  simp [bytes]

theorem getD_bytes (p : FilePage) (start : Nat) (hi : i < len) :
    (p.bytes start len).getD i 0 = p.byte (start + i) := by
  simp [bytes, getD_eq_getElem?_getD, hi]

/-- One round of the loop: a chunk of the buffer that was zero now holds the bytes of the file. -/
theorem getD_readChunk (hs : SortedBy FilePage.index pages) (position copied len : Nat)
    (hlen : position % PAGE_SIZE + len ≤ PAGE_SIZE) (buf : List UInt8)
    (hbuf : copied + len ≤ buf.length)
    (hzero : ∀ i, copied ≤ i → i < copied + len → buf.getD i 0 = 0) :
    let buf' := match findSlot pages (position / PAGE_SIZE) with
      | .ok slot => match pages[slot]? with
        | some page => overwrite buf copied (page.bytes (position % PAGE_SIZE) len)
        | none => buf
      | .error _ => buf
    buf'.length = buf.length ∧ ∀ i, buf'.getD i 0 =
      if copied ≤ i ∧ i < copied + len then byteAt pages (position + (i - copied))
      else buf.getD i 0 := by
  have hin : ∀ i, copied ≤ i ∧ i < copied + len →
      (position + (i - copied)) / PAGE_SIZE = position / PAGE_SIZE ∧
      (position + (i - copied)) % PAGE_SIZE = position % PAGE_SIZE + (i - copied) := fun i hi => by
    unfold PAGE_SIZE at *
    omega
  cases h : findSlot pages (position / PAGE_SIZE) with
  | ok slot =>
    obtain ⟨p, hp, hmem, hpi⟩ := findSlot_ok h
    simp only [hp]
    have hfit : copied + (p.bytes (position % PAGE_SIZE) len).length ≤ buf.length := by
      rwa [length_bytes]
    refine ⟨length_overwrite hfit, fun i => ?_⟩
    rw [getD_overwrite hfit, length_bytes]
    by_cases hi : copied ≤ i ∧ i < copied + len
    · rw [if_pos hi, if_pos hi, getD_bytes p _ (by omega),
        byteAt_of_mem hs hmem (hpi.trans (hin i hi).1.symm), (hin i hi).2]
    · rw [if_neg hi, if_neg hi]
  | error slot =>
    refine ⟨rfl, fun i => ?_⟩
    by_cases hi : copied ≤ i ∧ i < copied + len
    · rw [if_pos hi, byteAt_of_hole ((hin i hi).1 ▸ findSlot_error hs h)]
      exact hzero i hi.1 hi.2
    · rw [if_neg hi]

theorem getD_readLoop (hs : SortedBy FilePage.index pages) (offset count : Nat) :
    ∀ (fuel copied : Nat) (buf : List UInt8), count ≤ copied + fuel →
      count ≤ buf.length → (∀ i, copied ≤ i → i < count → buf.getD i 0 = 0) →
      (readLoop pages offset count fuel copied buf).length = buf.length ∧
      ∀ i, (readLoop pages offset count fuel copied buf).getD i 0 =
        if copied ≤ i ∧ i < count then byteAt pages (offset + i) else buf.getD i 0
  | 0, copied, buf, hfuel, hbuf, hzero =>
    ⟨rfl, fun i => (if_neg (by omega)).symm⟩
  | fuel + 1, copied, buf, hfuel, hbuf, hzero => by
    rw [readLoop]
    by_cases hc : copied < count
    · have hmod := Nat.mod_lt (offset + copied) PAGE_SIZE_pos
      rw [if_pos hc]
      dsimp only
      generalize hlen : min (PAGE_SIZE - (offset + copied) % PAGE_SIZE) (count - copied) = len
      obtain ⟨hlenc, hgetc⟩ := getD_readChunk hs (offset + copied) copied len (by omega) buf
        (by omega) fun i hi hi' => hzero i hi (by omega)
      obtain ⟨hlenl, hgetl⟩ := getD_readLoop hs offset count fuel (copied + len) _ (by omega)
        (hlenc.symm ▸ hbuf)
        fun i hi hi' => by rw [hgetc, if_neg (by omega)]; exact hzero i (by omega) hi'
      refine ⟨hlenl.trans hlenc, fun i => ?_⟩
      rw [hgetl, hgetc]
      by_cases hi : copied ≤ i ∧ i < count
      · rw [if_pos hi]
        by_cases hchunk : i < copied + len
        · rw [if_neg (by omega), if_pos ⟨hi.1, hchunk⟩,
            show offset + copied + (i - copied) = offset + i by omega]
        · rw [if_pos ⟨by omega, hi.2⟩]
      · rw [if_neg hi, if_neg (by omega), if_neg (by omega)]
    · rw [if_neg hc]
      exact ⟨rfl, fun i => (if_neg (by omega)).symm⟩

end SparseFile

end Krust.Memfs
