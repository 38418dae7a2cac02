import Krust.Lib.Machine
import Krust.Memfs.Edits
import Krust.Vfs.Mutation

/-!
# Reading a directory through a descriptor

`getdents64` fills a buffer with records, one for each entry, until the next one does not fit, and
the next call goes on from there.  `read_dirents` of the shell takes the records apart again.  The
two are written without knowledge of each other, and this file proves that they agree
(`getdents_lists`): whatever the sizes of the buffers, as long as each holds the largest record, the
shell sees the entries of an unchanging directory once each and in order.  With a smaller buffer a
call returns nothing, as if the directory had ended (`getdents_end_iff`).

The records of one call are those of the longest run of entries that fits (`packed`), one behind the
other (`records`).
-/

set_option autoImplicit false

namespace Krust.Process

open Lib Memfs Prog Vfs List Option

/-! ## The system call -/

/-- A routine of a system call: an error is an error number. -/
abbrev Sys (α : Type) := Prog World Int α

/-- `map_err(errno_from_fs)`. -/
def errno {α : Type} (p : Op α) : Sys α := p.embed id (fun w _ => w) errnoFromFs

def alignUp8 (value : Nat) : Nat := (value + 7) &&& (USIZE_MAX - 7)

def direntType : FileType → UInt8
  | .regular => 8
  | .directory => 4
  | .charDevice => 2
  | .blockDevice => 6
  | .symlink => 10

def reclen (name : Str) : Nat := alignUp8 (19 + utf8Len name + 1)

/-- The record of an entry, with the cursor behind it. -/
def record (entry : DirEntry) (offset : Nat) : List UInt8 :=
  let bytes := List.replicate (reclen entry.name) 0
  let bytes := overwrite bytes 0 (leBytes 8 entry.ino)
  let bytes := overwrite bytes 8 (leBytes 8 offset)
  let bytes := overwrite bytes 16 (leBytes 2 (reclen entry.name))
  let bytes := overwrite bytes 18 [direntType entry.fileType]
  overwrite bytes 19 (utf8Bytes entry.name)

/-- The loop of `getdents64`: the cursor, the number of bytes written, and the buffer.  Every round
but the last writes a record, so the buffer bounds their number. -/
def getdentsLoop (i : Nat) : Nat → Nat → Nat → List UInt8 → Sys (Nat × Nat × List UInt8)
  | 0, _, _, _ => hang
  | fuel + 1, offset, written, out => do
    let (emitted, next, captured) ← errno (readdir i offset capture none)
    if emitted = 0 then return (next, written, out)
    else
      match captured with
      | none => return (next, written, out)
      | some entry =>
        -- a record that does not fit is left for the next call
        if out.length - written < reclen entry.name then return (offset, written, out)
        else
          let out := overwrite out written (record entry next)
          getdentsLoop i fuel next (written + reclen entry.name) out

/-- `impls::getdents64` on the inode of a descriptor with this position: the number of bytes
written, the position after it, and the buffer. -/
def getdents64 (i position : Nat) (out : List UInt8) : Sys (Nat × Nat × List UInt8) := do
  failIf out.isEmpty (-22)
  let fileType ← load fun w => (w.fs.node i).fileType
  failIf (fileType != .directory) (-20)
  let (offset, written, out) ← getdentsLoop i (out.length + 1) position 0 out
  let _ ← errno (Memfs.size i) -- OpenFile::seek
  return (written, offset, out)

/-! ## The shell -/

def D_NAME_OFFSET : Nat := 19

structure Dirent where
  start : Nat
  reclen : Nat
  name : Str
  type : UInt8

/-- The walk of `read_dirents` over the records in the first `n` bytes.  Every round moves on, so
`n` bounds their number. -/
def walk (buf : List UInt8) (n : Nat) : Nat → Nat → Except Int (List Dirent)
  | 0, _ => .ok []
  | fuel + 1, pos =>
    if pos + D_NAME_OFFSET ≤ n then
      let reclen := leValue [buf.getD (pos + 16) 0, buf.getD (pos + 17) 0]
      if reclen < D_NAME_OFFSET ∨ n < pos + reclen then .error (-5)
      else
        let nameBytes := slice buf (pos + D_NAME_OFFSET) (reclen - D_NAME_OFFSET)
        let nameLen := nameBytes.findIdx fun b => b == 0
        let name := fromUtf8Lossy (nameBytes.take nameLen)
        (walk buf n fuel (pos + reclen)).map
          (⟨pos, reclen, name, buf.getD (pos + 18) 0⟩ :: ·)
    else .ok []

/-- Whether `read_dirents` passes a record on. -/
def Dirent.shown (showAll : Bool) (r : Dirent) : Bool :=
  showAll || (r.name != ['.'] && r.name != ['.', '.'])

/-- `read_dirents`, with a buffer of its own for each call: the number of records, and those that
are passed on.  It makes at most this many calls. -/
def readDirents (i : Nat) (showAll : Bool) (bufs : Nat → List UInt8) :
    Nat → Nat → Nat → Sys (Nat × List (Str × UInt8))
  | 0, _, _ => hang
  | fuel + 1, call, position => do
    let (n, position, buf) ← getdents64 i position (bufs call)
    if n = 0 then return (0, [])
    else do
      let dirents ← Prog.ofExcept (walk buf n (n + 1) 0)
      let (seen, out) ← readDirents i showAll bufs fuel (call + 1) position
      return (dirents.length + seen,
        (dirents.filter fun r => r.shown showAll).map (fun r => (r.name, r.type)) ++ out)

/-! ## The layout of a buffer -/

/-- The longest run of entries whose records fit into this much room. -/
def packed (room : Nat) : List DirEntry → List DirEntry
  | [] => []
  | e :: es => if reclen e.name ≤ room then e :: packed (room - reclen e.name) es else []

/-- Records one behind the other, of the entries from `offset` on. -/
def records : Nat → List DirEntry → List UInt8
  | _, [] => []
  | offset, e :: es => record e (offset + 1) ++ records (offset + 1) es

variable {out : List UInt8} {off : Nat}

section Record

variable {name : Str} {entry : DirEntry}

/-- A name that a directory can hold. -/
def Fits (name : Str) : Prop := utf8Len name ≤ 255

theorem reclen_eq (h : Fits name) : reclen name = (19 + utf8Len name + 8) / 8 * 8 := by
  rw [Fits] at h
  exact mask_high (n := 3) (k := 61) (by omega)

theorem reclen_bounds (h : Fits name) :
    reclen name % 8 = 0 ∧ 19 + utf8Len name < reclen name ∧ reclen name ≤ 280 := by
  rw [reclen_eq h]
  rw [Fits] at h
  omega

/-- Filling a buffer of zeros from the left. -/
theorem overwrite_zeros (xs ys : List UInt8) {n : Nat} (hoff : off = xs.length) :
    overwrite (xs ++ List.replicate n 0) off ys =
      (xs ++ ys) ++ List.replicate (n - ys.length) 0 := by
  subst hoff
  simp [overwrite]

theorem record_eq (entry : DirEntry) (offset : Nat) :
    record entry offset =
      leBytes 8 entry.ino ++ (leBytes 8 offset ++ (leBytes 2 (reclen entry.name) ++
      (direntType entry.fileType :: (utf8Bytes entry.name ++
        List.replicate (reclen entry.name - 19 - utf8Len entry.name) 0)))) := by
  have hlen := length_utf8Bytes entry.name
  have hfirst := overwrite_zeros [] (leBytes 8 entry.ino) (n := reclen entry.name) rfl
  simp only [nil_append, length_nil] at hfirst
  rw [record, hfirst, overwrite_zeros _ _ (by simp), overwrite_zeros _ _ (by simp),
    overwrite_zeros _ _ (by simp), overwrite_zeros _ _ (by simp)]
  simp only [nil_append, append_assoc, cons_append, length_leBytes, length_cons,
    length_nil, hlen]
  rw [show reclen entry.name - 8 - 8 - 2 - (0 + 1) = reclen entry.name - 19 by omega]

theorem length_record (h : Fits entry.name) (offset : Nat) :
    (record entry offset).length = reclen entry.name := by
  have hb := reclen_bounds h
  simp [record_eq, length_utf8Bytes]
  omega

end Record

section Layout

variable {entries : List DirEntry}

theorem packed_start (room : Nat) (entries : List DirEntry) : packed room entries <+: entries := by
  induction entries generalizing room with
  | nil => exact prefix_refl _
  | cons e entries ih =>
    rw [packed]
    split
    · exact (prefix_cons_inj e).2 (ih _)
    · exact nil_prefix

theorem length_records_le (h : ∀ e ∈ entries, Fits e.name) (room offset : Nat) :
    (records offset (packed room entries)).length ≤ room := by
  induction entries generalizing room offset with
  | nil => simp [packed, records]
  | cons e entries ih =>
    rw [packed]
    split
    · have hrest := ih (forall_mem_cons.1 h).2 (room - reclen e.name)
        (offset + 1)
      rw [records, length_append, length_record (h e mem_cons_self)]
      omega
    · simp [records]

theorem overwrite_append {v xs : List UInt8} (h : off + xs.length ≤ v.length) (ys : List UInt8) :
    overwrite (overwrite v off xs) (off + xs.length) ys = overwrite v off (xs ++ ys) := by
  have hoff : (v.take off).length = off := by simp; omega
  have htake : (v.take off ++ xs).length = off + xs.length := by simp; omega
  rw [overwrite, overwrite, overwrite, take_append_of_le_length (by omega),
    take_of_length_le (by omega), ← drop_drop, ← htake, drop_left]
  simp [hoff, add_assoc]

end Layout

/-! ## Writing the records -/

section Run

variable {w : World} {d : Nat} {es : List (Str × Nat)}

theorem run_errno {α : Type} {p : Op α} {w' : World} {a : α} (h : run p w = (some (.ok a), w')) :
    run (errno p) w = (some (.ok a), w') := by
  rw [errno, run_embed id (fun w _ => w) errnoFromFs, id, h]
  rfl

/-- The directory is in order and nobody holds a mutex. -/
structure Listable (w : World) (d : Nat) (es : List (Str × Nat)) : Prop where
  locks : w.locks = []
  storage : (w.fs.node d).storage = .directory es
  others : ∀ e ∈ es, e.2 ≠ d
  fits : ∀ e ∈ es, Fits e.1

theorem Listable.fits_entries (h : Listable w d es) (offset : Nat) :
    ∀ e ∈ (es.map w.fs.dirEntry).drop offset, Fits e.name := by
  intro e he
  obtain ⟨x, hx, rfl⟩ := mem_map.1 (mem_of_mem_drop he)
  exact h.fits x hx

/-- The loop writes the records of the longest run of entries that fits. -/
theorem Listable.run_getdentsLoop (h : Listable w d es) (fuel offset : Nat) {written : Nat}
    (hfuel : out.length - written < fuel) (hle : written ≤ out.length) :
    let batch := packed (out.length - written) ((es.map w.fs.dirEntry).drop offset)
    run (getdentsLoop d fuel offset written out) w =
      (some (.ok (offset + batch.length, written + (records offset batch).length,
        overwrite out written (records offset batch))), w) := by
  induction fuel generalizing offset written out with
  | zero => omega
  | succ fuel ih =>
    have hread := run_errno (run_readdir h.locks h.storage h.others offset)
    rw [getdentsLoop, bind_eq, run_bind_ok hread, Fs.next]
    cases hnext : es[offset]? with
    | none =>
      have hdrop : (es.map w.fs.dirEntry).drop offset = [] := by
        rw [drop_eq_nil_iff, length_map]
        exact getElem?_eq_none_iff.1 hnext
      simp [hdrop, packed, records, run, overwrite]
    | some e =>
      obtain ⟨hlt, rfl⟩ := List.getElem?_eq_some_iff.1 hnext
      have hdrop : (es.map w.fs.dirEntry).drop offset =
          w.fs.dirEntry es[offset] :: (es.map w.fs.dirEntry).drop (offset + 1) := by
        rw [drop_eq_getElem_cons (by simpa using hlt), getElem_map]
      have hfits : Fits (w.fs.dirEntry es[offset]).name := h.fits _ (getElem_mem hlt)
      have hlen := length_record hfits (offset + 1)
      have hpos := reclen_bounds hfits
      rw [hdrop, packed]
      by_cases hroom : reclen (w.fs.dirEntry es[offset]).name ≤ out.length - written
      · have hfit : written + reclen (w.fs.dirEntry es[offset]).name ≤ out.length := by omega
        have hnew :
            (overwrite out written (record (w.fs.dirEntry es[offset]) (offset + 1))).length =
            out.length := length_overwrite (by omega)
        have hrest := ih (offset + 1) (by omega) (hnew.symm ▸ hfit)
        simp only [hnew, ← Nat.sub_sub] at hrest
        simp only [one_ne_zero, if_false, if_neg (Nat.not_lt.2 hroom), if_pos hroom, hrest, records,
          length_cons, length_append, hlen]
        have happend := fun ys => overwrite_append (hlen ▸ hfit) ys
        rw [hlen] at happend
        rw [happend, Nat.add_assoc offset, Nat.add_comm 1, Nat.add_assoc written]
      · simp [if_pos (Nat.lt_of_not_le hroom), if_neg hroom, records, run, overwrite]

/-- **What one call does**: it writes the records of the longest run of entries that fits, and moves
on behind them. -/
theorem Listable.run_getdents64 (h : Listable w d es) (hdir : (w.fs.node d).fileType = .directory)
    (position : Nat) (hout : out ≠ []) :
    let batch := packed out.length ((es.map w.fs.dirEntry).drop position)
    run (getdents64 d position out) w =
      (some (.ok ((records position batch).length, position + batch.length,
        records position batch ++ out.drop (records position batch).length)), w) := by
  have hloop := h.run_getdentsLoop (out.length + 1) position (Nat.lt_succ_of_le (Nat.sub_le _ 0))
    (Nat.zero_le out.length)
  have hsize : run (errno (Memfs.size d)) w = (some (.ok es.length), w) := by
    refine run_errno (run_withLock (by simp [h.locks]) ?_)
    simp [storageOf, Prog.map, load, step, run, Prog.bind, h.storage, Storage.size]
  have hempty : out.isEmpty = false := by simpa using hout
  simp only [getdents64, hempty, bind_eq, failIf, Bool.false_eq_true, if_false, Prog.bind, load,
    step,
    run, hdir, bne_self_eq_false]
  rw [run_bind_ok hloop]
  rw [run_bind_ok hsize]
  simp [run, overwrite]

end Run

/-! ## Reading them -/

/-- The records of these entries, from this place in the buffer on. -/
def dirents : Nat → List DirEntry → List Dirent
  | _, [] => []
  | pos, e :: es =>
    ⟨pos, reclen e.name, e.name, direntType e.fileType⟩ :: dirents (pos + reclen e.name) es

section Walk

variable {entry : DirEntry} {buf tail : List UInt8} {pos offset : Nat}

theorem getD_of_drop {xs : List UInt8} (h : buf.drop pos = xs) (k : Nat) :
    buf.getD (pos + k) 0 = xs.getD k 0 := by
  rw [← h, getD_eq_getElem?_getD, getD_eq_getElem?_getD, getElem?_drop]

/-- What the walk finds where a record stands. -/
theorem record_fields (hfits : Fits entry.name) (h : buf.drop pos = record entry offset ++ tail) :
    leValue [buf.getD (pos + 16) 0, buf.getD (pos + 17) 0] = reclen entry.name ∧
      buf.getD (pos + 18) 0 = direntType entry.fileType ∧
      slice buf (pos + 19) (reclen entry.name - 19) = utf8Bytes entry.name ++
        List.replicate (reclen entry.name - 19 - utf8Len entry.name) 0 := by
  have hb := reclen_bounds hfits
  have hlen : (utf8Bytes entry.name ++
      replicate (reclen entry.name - 19 - utf8Len entry.name) 0).length =
      reclen entry.name - 19 := by
    simp [length_utf8Bytes]
    omega
  rw [record_eq] at h
  refine ⟨?_, ?_, ?_⟩
  · have hvalue := leValue_leBytes 2 (reclen entry.name)
    rw [Nat.mod_eq_of_lt (by omega)] at hvalue
    rw [getD_of_drop h, getD_of_drop h]
    simpa [leBytes] using hvalue
  · rw [getD_of_drop h]
    simp [leBytes]
  · have hdrop : (buf.drop pos).drop 19 = (utf8Bytes entry.name ++
        replicate (reclen entry.name - 19 - utf8Len entry.name) 0) ++ tail := by
      rw [h]
      simp [leBytes]
    rw [slice, ← drop_drop, hdrop, take_left' hlen]

theorem take_findIdx_zero (name : Str) (hzero : '\x00' ∉ name) {m : Nat} (hm : 0 < m) :
    let bytes := utf8Bytes name ++ replicate m 0
    bytes.take (bytes.findIdx fun b => b == 0) = utf8Bytes name := by
  have hnone : (utf8Bytes name).findIdx (fun b => b == 0) = (utf8Bytes name).length := by
    rw [findIdx_eq_length]
    intro b hb
    simpa using ne_zero_of_mem_encode hzero hb
  obtain ⟨m, rfl⟩ : ∃ k, m = k + 1 := ⟨m - 1, by omega⟩
  simp [findIdx_append, hnone, replicate_succ, findIdx_cons]

variable {entries : List DirEntry}

/-- **The walk takes the records apart again.** -/
theorem walk_records {n fuel : Nat} (hfits : ∀ e ∈ entries, Fits e.name)
    (hzero : ∀ e ∈ entries, '\x00' ∉ e.name) (h : buf.drop pos = records offset entries ++ tail)
    (hn : n = pos + (records offset entries).length) (hfuel : entries.length < fuel) :
    walk buf n fuel pos = .ok (dirents pos entries) := by
  induction entries generalizing pos offset fuel with
  | nil =>
    obtain ⟨fuel, rfl⟩ : ∃ k, fuel = k + 1 := ⟨fuel - 1, by omega⟩
    simp only [records, length_nil] at hn
    rw [walk, if_neg (by simp [D_NAME_OFFSET]; omega)]
    rfl
  | cons e entries ih =>
    obtain ⟨fuel, rfl⟩ : ∃ k, fuel = k + 1 := ⟨fuel - 1, by omega⟩
    have hfits' : Fits e.name := hfits e mem_cons_self
    have hb := reclen_bounds hfits'
    have hlen := length_record hfits' (offset + 1)
    rw [records, append_assoc] at h
    rw [records, length_append] at hn
    obtain ⟨hreclen, htype, hname⟩ := record_fields hfits' h
    have hrest : buf.drop (pos + reclen e.name) = records (offset + 1) entries ++ tail := by
      rw [← drop_drop, h, ← hlen, drop_left]
    rw [walk, if_pos (by simp [D_NAME_OFFSET]; omega)]
    simp only [hreclen, htype, D_NAME_OFFSET, hname]
    rw [if_neg (by omega), take_findIdx_zero _ (hzero e mem_cons_self) (by omega),
      ih (forall_mem_cons.1 hfits).2
        (forall_mem_cons.1 hzero).2 hrest (by omega) (by simpa using hfuel)]
    rw [show fromUtf8Lossy (utf8Bytes e.name) = e.name from fromUtf8Lossy_encode e.name]
    rfl

theorem dirents_bounds (h : ∀ e ∈ entries, Fits e.name) {r : Dirent} (hr : r ∈ dirents pos entries)
    (offset : Nat) :
    r.reclen % 8 = 0 ∧ r.start + r.reclen ≤ pos + (records offset entries).length := by
  induction entries generalizing pos offset with
  | nil => exact absurd hr not_mem_nil
  | cons e entries ih =>
    have hfits := h e mem_cons_self
    rw [records, length_append, length_record hfits]
    rcases mem_cons.1 hr with rfl | hr
    · exact ⟨(reclen_bounds hfits).1, by dsimp only; omega⟩
    · have hrest := ih (forall_mem_cons.1 h).2 hr (offset + 1)
      exact ⟨hrest.1, by omega⟩

theorem length_le_records (h : ∀ e ∈ entries, Fits e.name) (offset : Nat) :
    entries.length ≤ (records offset entries).length := by
  induction entries generalizing offset with
  | nil => simp [records]
  | cons e entries ih =>
    have hfits := h e mem_cons_self
    have hb := reclen_bounds hfits
    have hrest := ih (forall_mem_cons.1 h).2 (offset + 1)
    rw [records, length_append, length_record hfits, length_cons]
    omega

theorem walk_buffer (hfits : ∀ e ∈ entries, Fits e.name) (hzero : ∀ e ∈ entries, '\x00' ∉ e.name)
    (offset : Nat) (tail : List UInt8) :
    walk (records offset entries ++ tail) (records offset entries).length
      ((records offset entries).length + 1) 0 = .ok (dirents 0 entries) := by
  refine walk_records hfits hzero rfl (by omega) ?_
  have := length_le_records hfits offset
  omega

end Walk

/-! ## The round trip -/

theorem map_dirents (pos : Nat) (entries : List DirEntry) :
    (dirents pos entries).map (fun r => (r.name, r.type)) =
      entries.map fun e => (e.name, direntType e.fileType) := by
  induction entries generalizing pos with
  | nil => rfl
  | cons e entries ih => simp [dirents, ih]

theorem length_dirents (pos : Nat) (entries : List DirEntry) :
    (dirents pos entries).length = entries.length := by
  simpa using congrArg length (map_dirents pos entries)

theorem shown_dirents {showAll : Bool} {pos : Nat} {entries : List DirEntry}
    (h : ∀ e ∈ entries, validateName e.name = .ok ()) :
    (dirents pos entries).filter (fun r => r.shown showAll) = dirents pos entries := by
  induction entries generalizing pos with
  | nil => rfl
  | cons e entries ih =>
    have hvalid := h e mem_cons_self
    rw [validateName] at hvalid
    split at hvalid
    · exact nomatch hvalid
    rename_i hname
    simp only [not_or] at hname
    have hshown : Dirent.shown showAll
        ⟨pos, reclen e.name, e.name, direntType e.fileType⟩ = true := by
      simp [Dirent.shown, hname.2.1, hname.2.2.1]
    rw [dirents, filter_cons_of_pos hshown, ih (forall_mem_cons.1 h).2]

section RoundTrip

variable {w : World} {d : Nat} {es : List (Str × Nat)} {bufs : Nat → List UInt8}

theorem fits_of_valid {name : Str} (h : validateName name = .ok ()) :
    Fits name ∧ '\x00' ∉ name := by
  rw [validateName] at h
  split at h
  · exact nomatch h
  rename_i hname
  split at h
  · exact nomatch h
  simp only [not_or] at hname
  exact ⟨Nat.le_of_not_lt ‹_›, hname.2.2.2.2⟩

theorem Listable.run_readDirents (h : Listable w d es) (hdir : (w.fs.node d).fileType = .directory)
    (hvalid : ∀ e ∈ es, validateName e.1 = .ok ())
    (hroom : ∀ k, ∀ e ∈ es, reclen e.1 ≤ (bufs k).length) (showAll : Bool) (fuel call offset : Nat)
    (hfuel : es.length - offset < fuel) (hbuf : bufs call ≠ []) :
    run (readDirents d showAll bufs fuel call offset) w =
      (some (.ok (es.length - offset, ((es.map w.fs.dirEntry).drop offset).map
        fun e => (e.name, direntType e.fileType))), w) := by
  induction fuel generalizing call offset with
  | zero => omega
  | succ fuel ih =>
    have hcall := h.run_getdents64 hdir offset hbuf
    generalize hrest : (es.map w.fs.dirEntry).drop offset = rest at hcall ⊢
    have hlen : rest.length = es.length - offset := by rw [← hrest]; simp
    have hmem : ∀ e ∈ rest, ∃ x ∈ es, w.fs.dirEntry x = e := fun e he =>
      mem_map.1 (mem_of_mem_drop (hrest ▸ he))
    -- the records that were written are those of the first entries that are left
    have hsome : rest ≠ [] → packed (bufs call).length rest ≠ [] := by
      intro hne
      obtain ⟨e, rest', rfl⟩ := exists_cons_of_ne_nil hne
      obtain ⟨x, hx, rfl⟩ := hmem e mem_cons_self
      have hle : reclen (w.fs.dirEntry x).name ≤ (bufs call).length := hroom call x hx
      rw [packed, if_pos hle]
      exact cons_ne_nil _ _
    obtain ⟨after, hafter⟩ := packed_start (bufs call).length rest
    generalize packed (bufs call).length rest = batch at hcall hafter hsome
    have hbatch : ∀ e ∈ batch, validateName e.name = .ok () := fun e he => by
      obtain ⟨x, hx, rfl⟩ := hmem e (hafter ▸ mem_append_left _ he)
      exact hvalid x hx
    have hfits : ∀ e ∈ batch, Fits e.name := fun e he => (fits_of_valid (hbatch e he)).1
    have hcount := length_le_records hfits offset
    rw [readDirents, bind_eq, run_bind_ok hcall]
    dsimp only
    by_cases hnil : batch = []
    · -- the end of the directory
      have hdone : rest = [] := by
        by_contra hne
        exact hsome hne hnil
      simp [hnil, records, run, hdone, ← hlen]
    · have hpos := length_pos_iff.2 hnil
      have hwalk := walk_buffer hfits (fun e he => (fits_of_valid (hbatch e he)).2) offset
        ((bufs call).drop (records offset batch).length)
      have hlength := congrArg length hafter
      rw [length_append] at hlength
      have hnext : bufs (call + 1) ≠ [] := by
        obtain ⟨e, he⟩ := exists_mem_of_ne_nil batch hnil
        obtain ⟨x, hx, -⟩ := hmem e (hafter ▸ mem_append_left _ he)
        have hb := reclen_bounds (h.fits x hx)
        have hle := hroom (call + 1) x hx
        exact length_pos_iff.1 (by omega)
      have hdrop : (es.map w.fs.dirEntry).drop (offset + batch.length) = after := by
        rw [← drop_drop, hrest, ← hafter, drop_left]
      have hrec := ih (call + 1) (offset + batch.length) (by omega) hnext
      rw [if_neg (by omega), hwalk, bind_eq, Prog.ofExcept, Prog.bind, bind_eq, run_bind_ok hrec,
        hdrop]
      simp only [pure_eq, run, shown_dirents hbatch, map_dirents, length_dirents, ← hafter,
        map_append]
      rw [show batch.length + (es.length - (offset + batch.length)) = es.length - offset by omega]

/-- A directory of a reachable state is in order. -/
theorem Listable.of_reachable (hw : Reachable w) (hd : d ∈ w.fs.live)
    (hdir : (w.fs.node d).fileType = .directory) : Listable w d (w.fs.entries d) := by
  have hg := hw.good
  have hkind : (w.fs.node d).storage.isDirectory = true := by
    rw [hg.shape.kinds d hd]
    exact decide_eq_true hdir
  refine ⟨hg.locks, ?_, fun e he => hg.tree.ne_of_mem hd he,
    fun e he => (fits_of_valid (hw.names_valid d e he)).1⟩
  rw [Fs.entries]
  cases hs : (w.fs.node d).storage with
  | directory es => rfl
  | ram data => simp [hs, Storage.isDirectory] at hkind
  | sparse f => simp [hs, Storage.isDirectory] at hkind

/-- **Listing a directory.**  While a directory does not change, calls with buffers that hold its
largest record return it as it is: the shell finds the name and the type of each entry, once and in
order.  (An empty buffer is refused; it is large enough for an empty directory only.)  In every call
the records have a multiple of eight for their length, and stay inside the buffer. -/
theorem getdents_lists (hw : Reachable w) (hd : d ∈ w.fs.live)
    (hdir : (w.fs.node d).fileType = .directory) (showAll : Bool)
    (hroom : ∀ k, ∀ e ∈ w.fs.entries d, reclen e.1 ≤ (bufs k).length) :
    run (readDirents d showAll bufs ((w.fs.entries d).length + 1) 0 0) w =
      (some (if bufs 0 = [] then .error (-22)
        else .ok ((w.fs.entries d).length,
          (w.fs.entries d).map fun e => (e.1, direntType (w.fs.node e.2).fileType))), w) ∧
    ∀ (position : Nat) (out : List UInt8), out ≠ [] → ∃ n position' out' found,
      run (getdents64 d position out) w = (some (.ok (n, position', out')), w) ∧
        out'.length = out.length ∧ n ≤ out.length ∧ walk out' n (n + 1) 0 = .ok found ∧
        ∀ r ∈ found, r.reclen % 8 = 0 ∧ r.start + r.reclen ≤ n := by
  have h := Listable.of_reachable hw hd hdir
  have hvalid := hw.names_valid d
  refine ⟨?_, fun position out hout => ?_⟩
  · by_cases hbuf : bufs 0 = []
    · simp [readDirents, getdents64, hbuf, failIf, Prog.bind, run]
    · rw [if_neg hbuf, h.run_readDirents hdir hvalid hroom showAll _ _ _ (by omega) hbuf]
      simp [Fs.dirEntry]
  · have hfits : ∀ e ∈ packed out.length (((w.fs.entries d).map w.fs.dirEntry).drop position),
        Fits e.name := fun e he =>
      h.fits_entries position e ((packed_start _ _).subset he)
    have hzero : ∀ e ∈ packed out.length (((w.fs.entries d).map w.fs.dirEntry).drop position),
        '\x00' ∉ e.name := fun e he => by
      obtain ⟨x, hx, rfl⟩ :=
        mem_map.1 (mem_of_mem_drop ((packed_start _ _).subset he))
      exact (fits_of_valid (hvalid x hx)).2
    have hle := length_records_le (h.fits_entries position) out.length position
    refine ⟨_, _, _, _, h.run_getdents64 hdir position hout, ?_, hle,
      walk_buffer hfits hzero position _, fun r hr => ?_⟩
    · simp only [length_append, length_drop]
      omega
    · simpa using dirents_bounds hfits hr position

/-- **When nothing is returned at the end only.**  If the record of the next entry does not fit then
the call returns nothing, just as at the end of the directory. -/
theorem getdents_end_iff (hw : Reachable w) (hd : d ∈ w.fs.live)
    (hdir : (w.fs.node d).fileType = .directory) (position : Nat) {out : List UInt8}
    (hout : out ≠ []) :
    ((∀ position' out', run (getdents64 d position out) w = (some (.ok (0, position', out')), w) →
        (w.fs.entries d).length ≤ position) ∧
      ∀ e ∈ (w.fs.entries d)[position]?, out.length < reclen e.1 →
        ∃ errno, run (getdents64 d position out) w = (some (.error errno), w)) ↔
      ∀ e ∈ (w.fs.entries d)[position]?, reclen e.1 ≤ out.length := by
  have h := Listable.of_reachable hw hd hdir
  have hcall := h.run_getdents64 hdir position hout
  constructor
  · intro hclaim e he
    refine Nat.le_of_not_lt fun hsmall => ?_
    obtain ⟨errno, herr⟩ := hclaim.2 e he hsmall
    exact nomatch hcall.symm.trans herr
  · refine fun hroom => ⟨fun position' out' hzero => ?_, fun e he hsmall => ?_⟩
    · have hnone : (records position (packed out.length
          (((w.fs.entries d).map w.fs.dirEntry).drop position))).length = 0 := by
        rw [hcall] at hzero
        exact (Prod.mk.inj (Except.ok.inj (some.inj (Prod.mk.inj hzero).1))).1
      refine Nat.le_of_not_lt fun hlt => ?_
      have hfit : reclen (w.fs.dirEntry (w.fs.entries d)[position]).name ≤ out.length :=
        hroom _ (getElem?_eq_getElem hlt)
      have hfits : Fits (w.fs.dirEntry (w.fs.entries d)[position]).name :=
        h.fits _ (getElem_mem hlt)
      rw [drop_eq_getElem_cons (by simpa using hlt), getElem_map, packed, if_pos hfit,
        records, length_append, length_record hfits] at hnone
      have hb := reclen_bounds hfits
      omega
    · exact absurd (hroom e he) (not_le.2 hsmall)

end RoundTrip

/-- A root directory with a directory and a file. -/
def listed : World := nested.after (.create 1 ['f'] .regular)

theorem reachable_listed : Reachable listed :=
  reachable_nested.after (c := .create 1 ['f'] .regular) (r := .ok ()) rfl

theorem getdents_lists_listed :
    run (readDirents 1 false (fun _ => List.replicate 24 0) 3 0 0) listed =
      (some (.ok (2, [(['a'], 4), (['f'], 8)])), listed) :=
  (getdents_lists reachable_listed (by decide) rfl false (fun _ => by decide)).1

/-- There is an entry left, and nothing is returned. -/
theorem getdents_small_buffer :
    run (getdents64 1 0 (List.replicate 23 0)) listed =
      (some (.ok (0, 0, List.replicate 23 0)), listed) ∧ (listed.fs.entries 1).length = 2 := by
  have h := Listable.of_reachable reachable_listed (d := 1) (by decide) rfl
  have hnone : packed (replicate 23 (0 : UInt8)).length
      (((listed.fs.entries 1).map listed.fs.dirEntry).drop 0) = [] := by decide +kernel
  have hcall := h.run_getdents64 rfl 0 (show replicate 23 0 ≠ [] by decide)
  simp only [hnone] at hcall
  exact ⟨hcall, rfl⟩

theorem getdents_end_listed : (listed.fs.entries 1).length = 2 ∧ ∀ position' out',
    run (getdents64 1 1 (List.replicate 24 0)) listed = (some (.ok (0, position', out')), listed) →
      (listed.fs.entries 1).length ≤ 1 :=
  ⟨rfl, ((getdents_end_iff reachable_listed (by decide) rfl 1 (by decide)).2 (by decide)).1⟩

end Krust.Process
