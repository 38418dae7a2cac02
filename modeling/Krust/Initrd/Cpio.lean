import Krust.Fs.Defs
import Krust.Lib.Bytes
import Krust.Lib.Text
import Krust.Lib.Machine

/-!
# The archive of the initial RAM disk

The build tool writes a cpio archive in the `newc` format, the kernel reads it back.  The two were
written apart from each other: `makeCpioNewc` is the tool's, `ParsedEntry.parse` the kernel's.

An entry is a header of text, the name with a null byte behind it, and the contents; name and
contents are padded with zeros until the archive is a multiple of four bytes long.  The lengths of
name and contents stand in the header with eight hexadecimal digits.  `cpioEntry` is such an entry
as it stands in the archive, at whatever place, and `parse_cpioEntry` says that the kernel finds in
it what the tool has put there.  A name that is too long for its field is cut short by the cast, and
then the kernel refuses the entry (`parse_cpioEntry_long`).
-/

set_option autoImplicit false

namespace Krust.Initrd

open Lib List Option

/-! ## Writing -/

/-- `b"070701"`. -/
def CPIO_NEWC_MAGIC : List UInt8 := [0x30, 0x37, 0x30, 0x37, 0x30, 0x31]

def TRAILER : Str := ['T', 'R', 'A', 'I', 'L', 'E', 'R', '!', '!', '!']

/-- A cast to `u32`. -/
def asU32 (x : Nat) : Nat := x % 2 ^ 32

/-- The digits of `format!("{:08x}", value)`, as bytes.  A `u32` has no more than eight of them. -/
def hexField (value : Nat) : List UInt8 := utf8Bytes (hexDigits 8 value)

def pushHex (out : List UInt8) (value : Nat) : List UInt8 := out ++ hexField value

def pad4 (out : List UInt8) : List UInt8 :=
  if out.length % 4 ≠ 0 then pad4 (out ++ [0]) else out
termination_by (4 - out.length % 4) % 4
decreasing_by
  rw [length_append, length_singleton]
  omega

def appendCpioEntry (out : List UInt8) (ino : Nat) (name : Str) (data : List UInt8) : List UInt8 :=
  let out := out ++ CPIO_NEWC_MAGIC
  let out := pushHex out ino
  let out := pushHex out 0o100644
  let out := pushHex out 0
  let out := pushHex out 0
  let out := pushHex out 1
  let out := pushHex out 0
  let out := pushHex out (asU32 data.length)
  let out := pushHex out 0
  let out := pushHex out 0
  let out := pushHex out 0
  let out := pushHex out 0
  let out := pushHex out (asU32 (utf8Len name + 1))
  let out := pushHex out 0
  let out := out ++ utf8Bytes name
  let out := out ++ [0]
  let out := pad4 out
  let out := out ++ data
  pad4 out

/-- The loop of `make_cpio_newc`: what has been written, and the number of the next entry.  `none`
is a panic, of the sum if it is checked. -/
def makeCpioNewcLoop (checks : Bool) :
    List (Str × List UInt8) → List UInt8 → Nat → Option (List UInt8 × Nat)
  | [], out, ino => some (out, ino)
  | (name, data) :: entries, out, ino =>
    match fit checks (2 ^ 32) (ino + 1) with
    | some next => makeCpioNewcLoop checks entries (appendCpioEntry out ino name data) next
    | none => none

/-- `make_cpio_newc`.  The vector grows as far as it has to. -/
def makeCpioNewc (checks : Bool) (entries : List (Str × List UInt8)) : Option (List UInt8) :=
  (makeCpioNewcLoop checks entries [] 1).map fun r => appendCpioEntry r.1 r.2 TRAILER []

/-! ## Reading -/

def CPIO_HEADER_LEN : Nat := 110

def S_IFMT : Nat := 0o170000
def S_IFREG : Nat := 0o100000
def S_IFDIR : Nat := 0o040000
def S_IFCHR : Nat := 0o020000
def S_IFBLK : Nat := 0o060000
def S_IFLNK : Nat := 0o120000

/-- `data.get(start..stop)`. -/
def getRange (data : List UInt8) (start stop : Nat) : Option (List UInt8) :=
  if start ≤ stop ∧ stop ≤ data.length then some (slice data start (stop - start)) else none

def parseHexU32 (bytes : List UInt8) : Except FsError Nat := do
  let text ← okOr (fromUtf8 bytes) .ioError
  okOr (fromStrRadix16 (2 ^ 32) text) .ioError

/-- `parse_hex_usize`.  A `u32` fits in a `usize`. -/
def parseHexUsize (bytes : List UInt8) : Except FsError Nat := parseHexU32 bytes

def alignUp (value align : Nat) : Except FsError Nat := do
  let mask ← okOr (if 1 ≤ align then some (align - 1) else none) FsError.ioError
  okOr ((checkedAdd value mask).map fun aligned => aligned &&& (USIZE_MAX - mask)) .ioError

def modeToFileType (mode : Nat) : Except FsError FileType :=
  let kind := mode &&& S_IFMT
  if kind = S_IFREG then .ok .regular
  else if kind = S_IFDIR then .ok .directory
  else if kind = S_IFCHR then .ok .charDevice
  else if kind = S_IFBLK then .ok .blockDevice
  else if kind = S_IFLNK then .ok .symlink
  else .error .notSupported

structure ParsedEntry where
  name : Str
  fileType : FileType
  contents : List UInt8
  nextOffset : Nat
  deriving DecidableEq, Repr

open ParsedEntry

/-- The name, without the null byte that ends it. -/
def parseName (raw : List UInt8) : Except FsError Str :=
  match raw.getLast? with
  | some nul => if nul ≠ 0 then .error .ioError else okOr (fromUtf8 raw.dropLast) .ioError
  | none => .error .ioError

/-- What `ParsedEntry::parse` reads behind the header. -/
def ParsedEntry.parseBody (data : List UInt8) (nameStart mode filesize namesize : Nat) :
    Except FsError ParsedEntry := do
  let nameEnd ← okOr (checkedAdd nameStart namesize) FsError.ioError
  let rawName ← okOr (getRange data nameStart nameEnd) .ioError
  let name ← parseName rawName
  let fileStart ← alignUp nameEnd 4
  let fileEnd ← okOr (checkedAdd fileStart filesize) .ioError
  let contents ← okOr (getRange data fileStart fileEnd) .ioError
  let nextOffset ← alignUp fileEnd 4
  let fileType ← modeToFileType mode
  .ok ⟨name, fileType, contents, nextOffset⟩

/-- What `ParsedEntry::parse` does once it has the header; `none` is a panic, of a slice of the
header that is out of bounds. -/
def ParsedEntry.parseHeader (data : List UInt8) (nameStart : Nat) (header : List UInt8) :
    Option (Except FsError ParsedEntry) :=
  ExceptT.run do
    let magic ← getRange header 0 6
    if magic ≠ CPIO_NEWC_MAGIC then throw .ioError
    else do
      let mode ← parseHexU32 (← getRange header 14 22)
      let filesize ← parseHexUsize (← getRange header 54 62)
      let namesize ← parseHexUsize (← getRange header 94 102)
      if namesize = 0 then throw .ioError
      else parseBody data nameStart mode filesize namesize

def ParsedEntry.parse (data : List UInt8) (offset : Nat) : Option (Except FsError ParsedEntry) :=
  match checkedAdd offset CPIO_HEADER_LEN with
  | none => some (.error .ioError)
  | some headerEnd =>
    match getRange data offset headerEnd with
    | none => some (.error .ioError)
    | some header => parseHeader data headerEnd header

theorem eq_of_checkedAdd {a b c : Nat} (h : checkedAdd a b = some c) : c = a + b := by
  rw [checkedAdd] at h
  split at h
  · exact (some.inj h).symm
  · cases h

theorem length_of_getRange {data bytes : List UInt8} {start stop : Nat}
    (h : getRange data start stop = some bytes) : bytes.length = stop - start := by
  rw [getRange] at h
  split at h
  · obtain rfl := some.inj h
    rw [slice, length_take, length_drop]
    omega
  · cases h

theorem liftM_some_bind {α β : Type} (a : α) (f : α → ExceptT FsError Option β) :
    ((liftM (some a) : ExceptT FsError Option α) >>= f) = f a :=
  rfl

theorem run_liftM_bind {α β : Type} (x : Except FsError α) {f : α → ExceptT FsError Option β}
    {g : α → Except FsError β} (h : ∀ a, (f a).run = some (g a)) :
    ((liftM x : ExceptT FsError Option α) >>= f).run = some (x >>= g) := by
  cases x with
  | error e => rfl
  | ok a => exact h a

/-- **No slice of the header is out of bounds**, since it has 110 bytes. -/
theorem ParsedEntry.parseHeader_eq (data : List UInt8) (nameStart : Nat) {header : List UInt8}
    (h : header.length = CPIO_HEADER_LEN) :
    parseHeader data nameStart header = some (
      if slice header 0 6 ≠ CPIO_NEWC_MAGIC then .error .ioError
      else do
        let mode ← parseHexU32 (slice header 14 8)
        let filesize ← parseHexUsize (slice header 54 8)
        let namesize ← parseHexUsize (slice header 94 8)
        if namesize = 0 then .error .ioError
        else parseBody data nameStart mode filesize namesize) := by
  have hslice : ∀ start stop, start ≤ stop → stop ≤ 110 →
      getRange header start stop = some (slice header start (stop - start)) :=
    fun start stop hle hstop => if_pos ⟨hle, by rw [h]; exact hstop⟩
  rw [parseHeader, hslice 0 6 (by decide) (by decide), hslice 14 22 (by decide) (by decide),
    hslice 54 62 (by decide) (by decide), hslice 94 102 (by decide) (by decide)]
  simp only [liftM_some_bind, Nat.reduceSub]
  split
  · rfl
  refine run_liftM_bind _ fun mode => ?_
  refine run_liftM_bind _ fun filesize => ?_
  refine run_liftM_bind _ fun namesize => ?_
  split
  · rfl
  · rfl

/-- So `parse` does not panic. -/
theorem ParsedEntry.parse_returns (data : List UInt8) (offset : Nat) :
    ∃ r, parse data offset = some r := by
  rw [parse]
  split
  · exact ⟨_, rfl⟩
  rename_i headerEnd hend
  split
  · exact ⟨_, rfl⟩
  rename_i header hheader
  have hlen := length_of_getRange hheader
  rw [eq_of_checkedAdd hend, Nat.add_sub_cancel_left] at hlen
  exact ⟨_, parseHeader_eq data headerEnd hlen⟩

/-! ## An entry as it is written -/

def headerFields (ino filesize namesize : Nat) : List Nat :=
  [ino, 0o100644, 0, 0, 1, 0, asU32 filesize, 0, 0, 0, 0, asU32 namesize, 0]

def cpioHeader (ino filesize namesize : Nat) : List UInt8 :=
  CPIO_NEWC_MAGIC ++ (headerFields ino filesize namesize).flatMap hexField

/-- The zeros behind so many bytes. -/
def padding (n : Nat) : List UInt8 := List.replicate ((4 - n % 4) % 4) 0

/-- The name and its null byte, with the zeros behind it, and the contents, with the zeros behind
them.  The header has 110 bytes, which counts for the first of the two paddings. -/
def cpioEntry (ino : Nat) (name : Str) (data : List UInt8) : List UInt8 :=
  cpioHeader ino data.length (utf8Len name + 1) ++ (utf8Bytes name ++ [0]) ++
    padding (CPIO_HEADER_LEN + (utf8Len name + 1)) ++ data ++ padding data.length

theorem pad4_eq (out : List UInt8) : pad4 out = out ++ padding out.length := by
  fun_induction pad4 out with
  | case1 out h ih =>
    have hcount : (4 - out.length % 4) % 4 = (4 - (out.length + 1) % 4) % 4 + 1 := by omega
    rw [ih, padding, padding, hcount, replicate_succ, length_append,
      length_singleton, append_assoc, singleton_append]
  | case2 out h =>
    have hcount : (4 - out.length % 4) % 4 = 0 := by omega
    rw [padding, hcount, replicate_zero, append_nil]

@[simp] theorem length_padding (n : Nat) : (padding n).length = (4 - n % 4) % 4 :=
  length_replicate

theorem padding_congr {n m : Nat} (h : n % 4 = m % 4) : padding n = padding m := by
  rw [padding, padding, h]

@[simp] theorem length_hexField (value : Nat) : (hexField value).length = 8 := by
  have hsum : ∀ digits : List Char, (∀ c ∈ digits, c.utf8Size = 1) →
      utf8Len digits = digits.length := by
    intro digits hdigits
    rw [utf8Len, map_congr_left hdigits, map_const', sum_replicate_nat, mul_one]
  rw [hexField, length_utf8Bytes, hsum, length_hexDigits]
  intro c hc
  obtain ⟨d, hd, rfl⟩ := mem_hexDigits hc
  exact (digitChar_ascii d hd).1

variable (ino : Nat) (name : Str)

@[simp] theorem length_cpioHeader (filesize namesize : Nat) :
    (cpioHeader ino filesize namesize).length = CPIO_HEADER_LEN := by
  simp [cpioHeader, headerFields, CPIO_NEWC_MAGIC, CPIO_HEADER_LEN]

theorem length_cpioEntry (data : List UInt8) :
    (cpioEntry ino name data).length =
      (CPIO_HEADER_LEN + (utf8Len name + 1) + 3) / 4 * 4 + (data.length + 3) / 4 * 4 := by
  rw [cpioEntry]
  simp only [length_append, length_cpioHeader, length_utf8Bytes, length_padding,
    length_singleton]
  omega

theorem length_cpioEntry_mod (data : List UInt8) : (cpioEntry ino name data).length % 4 = 0 := by
  rw [length_cpioEntry]
  omega

/-- **Every entry looks the same wherever it stands**, since the archive is padded before it. -/
theorem appendCpioEntry_eq {out : List UInt8} (h : out.length % 4 = 0) (ino : Nat) (name : Str)
    (data : List UInt8) : appendCpioEntry out ino name data = out ++ cpioEntry ino name data := by
  have hheader : ∀ filesize namesize, pushHex (pushHex (pushHex (pushHex (pushHex (pushHex (pushHex
      (pushHex (pushHex (pushHex (pushHex (pushHex (pushHex (out ++ CPIO_NEWC_MAGIC) ino) 0o100644)
      0) 0) 1) 0) (asU32 filesize)) 0) 0) 0) 0) (asU32 namesize)) 0 =
      out ++ cpioHeader ino filesize namesize := by
    simp [pushHex, cpioHeader, headerFields]
  have hname : padding (out ++ cpioHeader ino data.length (utf8Len name + 1) ++ utf8Bytes name ++
      [0]).length = padding (CPIO_HEADER_LEN + (utf8Len name + 1)) := by
    refine padding_congr ?_
    simp only [length_append, length_cpioHeader, length_utf8Bytes, length_singleton]
    omega
  have hdata : padding (out ++ cpioHeader ino data.length (utf8Len name + 1) ++ utf8Bytes name ++
      [0] ++ padding (CPIO_HEADER_LEN + (utf8Len name + 1)) ++ data).length =
      padding data.length := by
    refine padding_congr ?_
    simp only [length_append, length_cpioHeader, length_utf8Bytes, length_singleton,
      length_padding]
    omega
  rw [appendCpioEntry, hheader, pad4_eq (_ ++ [0]), hname, pad4_eq, hdata, cpioEntry]
  simp only [append_assoc]

/-! ## The kernel reads what was written -/

variable {data : List UInt8} {value : Nat}

theorem getRange_of_eq {a b c : List UInt8} {start stop : Nat} (h : data = a ++ (b ++ c))
    (hstart : start = a.length) (hstop : stop = a.length + b.length) :
    getRange data start stop = some b := by
  subst h hstart hstop
  rw [getRange, if_pos ⟨by omega, by simp only [length_append]; omega⟩, slice,
    drop_left, Nat.add_sub_cancel_left, take_left]

/-- A field of the header stands where the ones before it end. -/
theorem slice_flatMap_hexField {fields : List Nat} {k : Nat} (h : fields[k]? = some value) :
    slice (fields.flatMap hexField) (8 * k) 8 = hexField value := by
  induction fields generalizing k with
  | nil => cases h
  | cons field fields ih =>
    cases k with
    | zero =>
      obtain rfl : field = value := some.inj h
      rw [flatMap_cons, slice, drop_zero,
        take_left' (length_hexField field)]
    | succ k =>
      rw [← ih h, flatMap_cons, slice, slice, show 8 * (k + 1) = 8 + 8 * k by omega,
        ← drop_drop, drop_left' (length_hexField field)]

variable {ino filesize namesize : Nat}

theorem slice_cpioHeader {k : Nat} (h : (headerFields ino filesize namesize)[k]? = some value) :
    slice (cpioHeader ino filesize namesize) (6 + 8 * k) 8 = hexField value := by
  rw [← slice_flatMap_hexField h, cpioHeader, slice, slice, ← drop_drop,
    drop_left' (show CPIO_NEWC_MAGIC.length = 6 from rfl)]

theorem parseHexU32_hexField (h : value < 2 ^ 32) : parseHexU32 (hexField value) = .ok value := by
  refine bind_eq_ok.2 ⟨hexDigits 8 value, okOr_eq_ok.2 (fromUtf8_encode _), ?_⟩
  exact okOr_eq_ok.2 (fromStrRadix16_hexDigits (by decide) h h)

theorem asU32_lt (x : Nat) : asU32 x < 2 ^ 32 := Nat.mod_lt _ (by decide)

theorem checkedAdd_eq_some {a b : Nat} (h : a + b ≤ USIZE_MAX) : checkedAdd a b = some (a + b) :=
  if_pos h

theorem alignUp_four (h : value + 3 ≤ USIZE_MAX) : alignUp value 4 = .ok ((value + 3) / 4 * 4) := by
  refine bind_eq_ok.2 ⟨3, rfl, okOr_eq_ok.2 ?_⟩
  have hlt : value + 3 < 2 ^ (2 + 62) := by
    rw [USIZE_MAX] at h
    omega
  rw [checkedAdd_eq_some h, map_some,
    show USIZE_MAX - 3 = (2 ^ 62 - 1) <<< 2 by decide, mask_high hlt]
  rfl

variable {pre rest : List UInt8}

/-- The header says how long the parts behind it are; the first of them is the name. -/
theorem parse_cpioHeader {archive raw : List UInt8}
    (h : archive = pre ++ (cpioHeader ino filesize namesize ++ (raw ++ rest)))
    (hraw : asU32 namesize = raw.length)
    (hlen : pre.length + CPIO_HEADER_LEN + raw.length ≤ USIZE_MAX) :
    parse archive pre.length = some (
      if raw.length = 0 then .error .ioError
      else do
        let name ← parseName raw
        let fileStart ← alignUp (pre.length + CPIO_HEADER_LEN + raw.length) 4
        let fileEnd ← okOr (checkedAdd fileStart (asU32 filesize)) .ioError
        let contents ← okOr (getRange archive fileStart fileEnd) .ioError
        let nextOffset ← alignUp fileEnd 4
        .ok ⟨name, .regular, contents, nextOffset⟩) := by
  have hheader : getRange archive pre.length (pre.length + CPIO_HEADER_LEN) =
      some (cpioHeader ino filesize namesize) :=
    getRange_of_eq h rfl (by rw [length_cpioHeader])
  have hname : getRange archive (pre.length + CPIO_HEADER_LEN)
      (pre.length + CPIO_HEADER_LEN + raw.length) = some raw := by
    rw [← append_assoc] at h
    refine getRange_of_eq h ?_ ?_ <;> rw [length_append, length_cpioHeader]
  have hmagic : slice (cpioHeader ino filesize namesize) 0 6 = CPIO_NEWC_MAGIC := by
    rw [slice, drop_zero, cpioHeader, take_left' (show CPIO_NEWC_MAGIC.length = 6 from rfl)]
  have hmode : slice (cpioHeader ino filesize namesize) 14 8 = hexField 0o100644 :=
    slice_cpioHeader (k := 1) rfl
  have hfilesize : slice (cpioHeader ino filesize namesize) 54 8 = hexField (asU32 filesize) :=
    slice_cpioHeader (k := 6) rfl
  have hnamesize : slice (cpioHeader ino filesize namesize) 94 8 = hexField (asU32 namesize) :=
    slice_cpioHeader (k := 11) rfl
  have hsize : parseHexU32 (hexField raw.length) = .ok raw.length :=
    parseHexU32_hexField (hraw ▸ asU32_lt namesize)
  have hregular : modeToFileType 0o100644 = .ok .regular := rfl
  rw [parse, checkedAdd_eq_some (by omega)]
  dsimp only
  rw [hheader]
  dsimp only
  rw [parseHeader_eq archive _ (length_cpioHeader ino filesize namesize)]
  simp only [okOr, bind, Except.bind, hmagic, hmode, hfilesize, hnamesize, parseHexUsize,
    parseHexU32_hexField (asU32_lt _), parseHexU32_hexField (show 0o100644 < 2 ^ 32 by decide),
    ne_eq, not_true_eq_false, if_false, parseBody, hraw, hsize,
    checkedAdd_eq_some hlen, hname, hregular]

theorem parseName_encode : parseName (utf8Bytes name ++ [0]) = .ok name := by
  rw [parseName, getLast?_concat, dropLast_concat]
  exact okOr_eq_ok.2 (fromUtf8_encode name)

variable {name : Str}

/-- **The kernel finds in an entry what was put there**, if the name fits in its field. -/
theorem parse_cpioEntry (hpre : pre.length % 4 = 0)
    (hname : utf8Len name + 1 < 2 ^ 32) (hdata : data.length < 2 ^ 32)
    (hlen : (pre ++ (cpioEntry ino name data ++ rest)).length ≤ ISIZE_MAX) :
    parse (pre ++ (cpioEntry ino name data ++ rest)) pre.length =
      some (.ok ⟨name, .regular, data, pre.length + (cpioEntry ino name data).length⟩) := by
  have hlength := length_cpioEntry ino name data
  have hISIZE : ISIZE_MAX + 2 ^ 32 + CPIO_HEADER_LEN ≤ USIZE_MAX := by decide
  rw [length_append, length_append] at hlen
  have hfilesize : asU32 data.length = data.length := Nat.mod_eq_of_lt hdata
  have hraw : (utf8Bytes name ++ [0]).length = utf8Len name + 1 := by
    rw [length_append, length_utf8Bytes, length_singleton]
  have hparts : pre ++ (cpioEntry ino name data ++ rest) =
      pre ++ (cpioHeader ino data.length (utf8Len name + 1) ++ ((utf8Bytes name ++ [0]) ++
        (padding (CPIO_HEADER_LEN + (utf8Len name + 1)) ++ (data ++
          (padding data.length ++ rest))))) := by
    simp only [cpioEntry, append_assoc]
  rw [parse_cpioHeader hparts ((Nat.mod_eq_of_lt hname).trans hraw.symm) (by omega), hraw,
    if_neg (Nat.succ_ne_zero _)]
  refine congrArg some ?_
  refine bind_eq_ok.2 ⟨_, parseName_encode name, ?_⟩
  refine bind_eq_ok.2 ⟨_, alignUp_four (by omega), ?_⟩
  refine bind_eq_ok.2 ⟨_, okOr_eq_ok.2 (checkedAdd_eq_some (by omega)), ?_⟩
  have hfile : (pre ++ (cpioHeader ino data.length (utf8Len name + 1) ++ ((utf8Bytes name ++ [0]) ++
      padding (CPIO_HEADER_LEN + (utf8Len name + 1))))).length =
      (pre.length + CPIO_HEADER_LEN + (utf8Len name + 1) + 3) / 4 * 4 := by
    simp only [length_append, hraw, length_cpioHeader, length_padding]
    omega
  refine bind_eq_ok.2 ⟨data, okOr_eq_ok.2 (getRange_of_eq (c := padding data.length ++ rest) ?_
    hfile.symm (by rw [hfile, hfilesize])), ?_⟩
  · simp only [cpioEntry, append_assoc]
  refine bind_eq_ok.2 ⟨_, alignUp_four (by omega), ?_⟩
  rw [Except.ok.injEq, mk.injEq]
  exact ⟨rfl, rfl, rfl, by omega⟩

/-- A piece of a name that has no null character does not end in a null byte. -/
theorem parseName_take (hnul : '\x00' ∉ name) {n : Nat} (hn : 0 < n) (hle : n ≤ utf8Len name) :
    parseName ((utf8Bytes name).take n) = .error .ioError := by
  have hlen : ((utf8Bytes name).take n).length = n := by
    rw [length_take, length_utf8Bytes, min_eq_left hle]
  have hne : (utf8Bytes name).take n ≠ [] := ne_nil_of_length_pos (by omega)
  have hmem := mem_of_mem_take (getLast_mem hne)
  rw [parseName, getLast?_eq_getLast_of_ne_nil hne]
  exact if_pos (ne_zero_of_mem_encode hnul hmem)

/-- **A name that is too long for its field is refused**: the cast leaves a shorter length, and the
byte at which the name then ends is not null. -/
theorem parse_cpioEntry_long (hnul : '\x00' ∉ name) (hname : 2 ^ 32 ≤ utf8Len name + 1)
    (hlen : (pre ++ (cpioEntry ino name data ++ rest)).length ≤ ISIZE_MAX) :
    parse (pre ++ (cpioEntry ino name data ++ rest)) pre.length = some (.error .ioError) := by
  have hISIZE : ISIZE_MAX + 2 ^ 32 + CPIO_HEADER_LEN ≤ USIZE_MAX := by decide
  rw [length_append] at hlen
  have hlt := asU32_lt (utf8Len name + 1)
  generalize hsize : asU32 (utf8Len name + 1) = namesize at hlt
  have htake : ((utf8Bytes name).take namesize).length = namesize := by
    rw [length_take, length_utf8Bytes]
    omega
  have hparts : pre ++ (cpioEntry ino name data ++ rest) =
      pre ++ (cpioHeader ino data.length (utf8Len name + 1) ++ ((utf8Bytes name).take namesize ++
        ((utf8Bytes name).drop namesize ++
        ([0] ++ (padding (CPIO_HEADER_LEN + (utf8Len name + 1)) ++
          (data ++ (padding data.length ++ rest))))))) := by
    rw [← append_assoc ((utf8Bytes name).take namesize), take_append_drop]
    simp only [cpioEntry, append_assoc]
  rw [parse_cpioHeader hparts (hsize.trans htake.symm) (by omega), htake]
  split
  · rfl
  rename_i hzero
  rw [parseName_take hnul (Nat.pos_of_ne_zero hzero) (by omega)]
  rfl

/-! ## Progress -/

theorem le_of_alignUp {aligned : Nat} (h : alignUp value 4 = .ok aligned) : value ≤ aligned := by
  by_cases hle : value + 3 ≤ USIZE_MAX
  · rw [alignUp_four hle] at h
    have := Except.ok.inj h
    omega
  obtain ⟨mask, hmask, h⟩ := bind_eq_ok.1 h
  obtain rfl : 3 = mask := Except.ok.inj hmask
  rw [checkedAdd, if_neg hle] at h
  cases h

theorem infix_of_getRange {bytes : List UInt8} {start stop : Nat}
    (h : getRange data start stop = some bytes) : bytes <:+: data := by
  rw [getRange] at h
  split at h
  · obtain rfl := some.inj h
    exact IsInfix.trans (IsPrefix.isInfix <| take_prefix _ _) (drop_suffix _ _).isInfix
  · cases h

/-- An entry ends behind its header, and its contents are in the archive. -/
theorem ParsedEntry.bounds {offset : Nat} {entry : ParsedEntry}
    (h : parse data offset = some (.ok entry)) :
    offset < entry.nextOffset ∧ entry.contents <:+: data := by
  rw [parse] at h
  split at h
  · cases h
  rename_i headerEnd hadd
  split at h
  · cases h
  rename_i header hheader
  have hend := eq_of_checkedAdd hadd
  have hlen := length_of_getRange hheader
  rw [hend, Nat.add_sub_cancel_left] at hlen
  have h := some.inj ((parseHeader_eq data headerEnd hlen).symm.trans h)
  split at h
  · cases h
  obtain ⟨mode, -, h⟩ := bind_eq_ok.1 h
  obtain ⟨filesize, -, h⟩ := bind_eq_ok.1 h
  obtain ⟨namesize, -, h⟩ := bind_eq_ok.1 h
  split at h
  · cases h
  obtain ⟨nameEnd, hnameEnd, h⟩ := bind_eq_ok.1 h
  obtain ⟨raw, -, h⟩ := bind_eq_ok.1 h
  obtain ⟨name, -, h⟩ := bind_eq_ok.1 h
  obtain ⟨fileStart, hfileStart, h⟩ := bind_eq_ok.1 h
  obtain ⟨fileEnd, hfileEnd, h⟩ := bind_eq_ok.1 h
  obtain ⟨contents, hcontents, h⟩ := bind_eq_ok.1 h
  obtain ⟨nextOffset, hnext, h⟩ := bind_eq_ok.1 h
  obtain ⟨fileType, -, h⟩ := bind_eq_ok.1 h
  have hname := eq_of_checkedAdd (okOr_eq_ok.1 hnameEnd)
  have hstart := le_of_alignUp hfileStart
  have hfile := eq_of_checkedAdd (okOr_eq_ok.1 hfileEnd)
  have hle := le_of_alignUp hnext
  rw [← Except.ok.inj h]
  refine ⟨?_, infix_of_getRange (okOr_eq_ok.1 hcontents)⟩
  show offset < nextOffset
  omega

end Krust.Initrd
