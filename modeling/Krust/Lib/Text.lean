import Mathlib.Data.List.DropRight
import Mathlib.Data.UInt

/-!
# Text

The functions of the Rust library that readers of paths, configuration files and archives are made
of.  Each comes with the lemma that a reader's proof needs: what it gives on text that was put
together from its pieces.
-/

set_option autoImplicit false

namespace Krust.Lib

open List Option

/-! ## Lists cut into segments

A path is a list of names written one after the other with a separator before each of them.  Here
the names and the separator are of any type.
-/

section Segments

variable {α : Type} {c : α}

/-- The nonempty pieces between the separators. -/
def segments [DecidableEq α] (c : α) (l : List α) : List (List α) :=
  (l.splitOn c).filter fun s => !s.isEmpty

/-- The segments one after the other, with a separator before each of them.  No segments at all
are one separator. -/
def joined (c : α) : List (List α) → List α
  | [] => [c]
  | s :: ss => (s :: ss).flatMap fun s => c :: s

/-- What stands before the last separator, and what stands after it. -/
def rsplitOnce [DecidableEq α] (c : α) (l : List α) : Option (List α × List α) :=
  if c ∈ l then
    some ((l.rdropWhile fun a => a != c).dropLast, l.rtakeWhile fun a => a != c)
  else none

/-- A piece that can stand between two separators. -/
def IsSegment (c : α) (s : List α) : Prop := s ≠ [] ∧ c ∉ s

/-! ## Cutting -/

section Cut

variable [DecidableEq α]

theorem segments_append (a b : List α) :
    segments c (a ++ c :: b) = segments c a ++ segments c b := by
  rw [segments, splitOn_append_cons_self, filter_append]
  rfl

@[simp] theorem segments_nil : segments c ([] : List α) = [] := by
  rfl

@[simp] theorem segments_cons (l : List α) : segments c (c :: l) = segments c l := by
  rw [← nil_append (c :: l), segments_append, segments_nil, nil_append]

theorem segments_self {s : List α} (hs : IsSegment c s) : segments c s = [s] := by
  rw [segments, splitOn_eq_singleton hs.2]
  simp [hs.1]

theorem notMem_of_mem_splitOn {l s : List α} (hs : s ∈ l.splitOn c) : c ∉ s := by
  induction l generalizing s with
  | nil =>
    rw [splitOn_nil, mem_singleton] at hs
    exact hs ▸ not_mem_nil
  | cons x l ih =>
    rw [splitOn_cons_eq_if_modifyHead] at hs
    split_ifs at hs with hx
    · rcases mem_cons.1 hs with rfl | hs
      · exact not_mem_nil
      · exact ih hs
    obtain ⟨t, ts, hl⟩ := exists_cons_of_ne_nil (splitOn_ne_nil c l)
    rw [hl] at hs
    rcases mem_cons.1 hs with rfl | hs
    · rw [mem_cons, not_or]
      exact ⟨fun h => hx (beq_iff_eq.2 h.symm), ih (hl ▸ mem_cons_self)⟩
    · exact ih (hl ▸ mem_cons_of_mem _ hs)

theorem isSegment_of_mem {l s : List α} (hs : s ∈ segments c l) : IsSegment c s := by
  rw [segments, mem_filter] at hs
  exact ⟨by simpa using hs.2, notMem_of_mem_splitOn hs.1⟩

theorem rsplitOnce_append {a b : List α} (hb : c ∉ b) :
    rsplitOnce c (a ++ c :: b) = some (a, b) := by
  have hne : ∀ x ∈ b.reverse, (x != c) = true := fun x hx =>
    bne_iff_ne.2 (ne_of_mem_of_not_mem (mem_reverse.1 hx) hb)
  have hdrop : (a ++ c :: b).rdropWhile (fun x => x != c) = a ++ [c] := by
    rw [rdropWhile, reverse_append, reverse_cons, append_assoc,
      dropWhile_append_of_pos hne]
    simp
  have htake : (a ++ c :: b).rtakeWhile (fun x => x != c) = b := by
    rw [rtakeWhile, reverse_append, reverse_cons, append_assoc,
      takeWhile_append_of_pos hne]
    simp
  rw [rsplitOnce, if_pos (by simp), hdrop, htake, dropLast_concat]

end Cut

/-! ## Putting together -/

variable {ss : List (List α)}

theorem joined_eq_flatMap (hs : ss ≠ []) : joined c ss = ss.flatMap fun s => c :: s := by
  cases ss with
  | nil => exact absurd rfl hs
  | cons s ss => rfl

theorem joined_eq_intercalate (ss : List (List α)) : joined c ss = c :: [c].intercalate ss := by
  induction ss with
  | nil => rfl
  | cons s ss ih =>
    rcases ss with _ | ⟨t, ts⟩
    · simp [joined, intercalate]
    have hstep : joined c (s :: t :: ts) = c :: s ++ joined c (t :: ts) := rfl
    rw [hstep, ih]
    simp [intercalate, intersperse]

theorem joined_ne_nil (ss : List (List α)) : joined c ss ≠ [] := by
  cases ss <;> simp [joined]

variable {ts : List (List α)}

theorem joined_append (hs : ss ≠ []) (ht : ts ≠ []) :
    joined c (ss ++ ts) = joined c ss ++ joined c ts := by
  rw [joined_eq_flatMap hs, joined_eq_flatMap ht, ← flatMap_append,
    joined_eq_flatMap (by simp [hs])]

theorem joined_concat (hs : ss ≠ []) (s : List α) :
    joined c (ss ++ [s]) = joined c ss ++ c :: s := by
  rw [joined_append hs (cons_ne_nil _ _), joined]
  simp

variable (hs : ∀ s ∈ ss, IsSegment c s)
include hs

theorem segments_joined [DecidableEq α] : segments c (joined c ss) = ss := by
  induction ss using reverseRecOn with
  | nil => rw [joined, segments_cons, segments_nil]
  | append_singleton ss s ih =>
    have hself := segments_self (hs s (by simp))
    by_cases hss : ss = []
    · subst hss
      simp [joined, hself]
    · rw [joined_concat hss, segments_append, hself, ih fun t ht => hs t (by simp [ht])]

theorem joined_injective [DecidableEq α]
    (ht : ∀ t ∈ ts, IsSegment c t) (h : joined c ss = joined c ts) : ss = ts := by
  rw [← segments_joined hs, h, segments_joined ht]

/-- A list of segments that goes on, as text. -/
theorem joined_prefix_iff [DecidableEq α] (ht : ∀ t ∈ ts, IsSegment c t) (hne : ss ≠ []) :
    ss <+: ts ↔ joined c ts = joined c ss ∨ ∃ rest, joined c ts = joined c ss ++ c :: rest := by
  constructor
  · rintro ⟨us, rfl⟩
    cases us with
    | nil => exact .inl (by rw [append_nil])
    | cons u us =>
      rw [joined_append hne (cons_ne_nil _ _), joined]
      simp
  · rintro (h | ⟨rest, h⟩)
    · exact ⟨[], by rw [append_nil, joined_injective ht hs h]⟩
    · refine ⟨segments c rest, ?_⟩
      rw [← segments_joined ht, h, segments_append, segments_joined hs]

end Segments

/-! ## Text files

Lines, numbers in a base up to ten, and words.  A word is what stands between characters of some
kind, such as white space.
-/

variable {line : List Char} (s : List Char)

section Files

/-! ## Cutting at a separator -/

section Cut

variable {α : Type} [DecidableEq α] {c : α}

/-- `split_once`: what stands before the first separator, and what stands after it. -/
def splitOnce (c : α) (l : List α) : Option (List α × List α) :=
  if c ∈ l then some (l.takeWhile fun a => a != c, (l.dropWhile fun a => a != c).tail) else none

theorem splitOnce_append {a : List α} (ha : c ∉ a) (b : List α) :
    splitOnce c (a ++ c :: b) = some (a, b) := by
  have hne : ∀ x ∈ a, (x != c) = true := fun x hx => bne_iff_ne.2 (ne_of_mem_of_not_mem hx ha)
  rw [splitOnce, takeWhile_append_of_pos hne,
    dropWhile_append_of_pos hne]
  simp

end Cut

/-! ## Words -/

section Words

variable {α : Type} {p : α → Bool}

/-- The nonempty pieces between the elements that are `p`, as `split_whitespace` gives them. -/
def splitWords (p : α → Bool) (l : List α) : List (List α) :=
  (l.splitOnP p).filter fun s => !s.isEmpty

theorem splitWords_append {c : α} (hc : p c = true) (a b : List α) :
    splitWords p (a ++ c :: b) = splitWords p a ++ splitWords p b := by
  rw [splitWords, splitOnP_append_cons a b hc, filter_append]
  rfl

@[simp] theorem splitWords_nil : splitWords p [] = [] := by
  rfl

theorem splitWords_self {l : List α} (h : ∀ x ∈ l, p x = false) (hl : l ≠ []) :
    splitWords p l = [l] := by
  rw [splitWords, splitOnP_eq_singleton h]
  simp [hl]

theorem splitWords_cons_pos {c : α} (hc : p c = true) (l : List α) :
    splitWords p (c :: l) = splitWords p l := by
  rw [← nil_append (c :: l), splitWords_append hc, splitWords_nil, nil_append]

/-- The first word begins with the first element that is not `p`. -/
theorem splitWords_cons_neg {c : α} (hc : p c = false) (l : List α) :
    ∃ w ws, splitWords p (c :: l) = (c :: w) :: ws := by
  obtain ⟨w, ws, hl⟩ := exists_cons_of_ne_nil (splitOnP_ne_nil p l)
  refine ⟨w, ws.filter fun s => !s.isEmpty, ?_⟩
  rw [splitWords, splitOnP_cons_eq_if_modifyHead, if_neg (by simp [hc]), hl,
    modifyHead_cons, filter_cons_of_pos (by simp)]

theorem splitWords_ne_nil {l : List α} {x : α} (hx : x ∈ l) (hpx : p x = false) :
    splitWords p l ≠ [] := by
  induction l with
  | nil => cases hx
  | cons c l ih =>
    cases hc : p c with
    | false =>
      obtain ⟨w, ws, hwords⟩ := splitWords_cons_neg hc l
      rw [hwords]
      exact cons_ne_nil _ _
    | true =>
      rw [splitWords_cons_pos hc]
      rcases mem_cons.1 hx with rfl | hx
      · rw [hc] at hpx
        cases hpx
      · exact ih hx

theorem eq_false_of_mem_splitWords {l w : List α} (hw : w ∈ splitWords p l) {x : α} (hx : x ∈ w) :
    p x = false := by
  have hpiece : w ∈ l.splitOnP p := (mem_filter.1 hw).1
  clear hw
  induction l generalizing w with
  | nil =>
    rw [splitOnP_nil, mem_singleton] at hpiece
    subst hpiece
    cases hx
  | cons c l ih =>
    rw [splitOnP_cons_eq_if_modifyHead] at hpiece
    split_ifs at hpiece with hc
    · rcases mem_cons.1 hpiece with rfl | hpiece
      · cases hx
      · exact ih hx hpiece
    obtain ⟨v, vs, hl⟩ := exists_cons_of_ne_nil (splitOnP_ne_nil p l)
    rw [hl] at hpiece
    rcases mem_cons.1 hpiece with rfl | hpiece
    · rcases mem_cons.1 hx with rfl | hx
      · exact Bool.eq_false_iff.2 hc
      · exact ih hx (hl ▸ mem_cons_self)
    · exact ih hx (hl ▸ mem_cons_of_mem _ hpiece)

end Words

/-! ## Lines -/

/-- A carriage return at the end of a line belongs to the newline. -/
def stripReturn (line : List Char) : List Char :=
  if line.getLast? = some '\r' then line.dropLast else line

/-- `str::lines`: a last line without a newline counts if it is not empty, and keeps its carriage
return. -/
def lines (text : List Char) : List (List Char) :=
  let pieces := text.splitOn '\n'
  pieces.dropLast.map stripReturn ++ (pieces.getLast?.toList.filter fun line => !line.isEmpty)

@[simp] theorem lines_nil : lines [] = [] := by
  rfl

theorem lines_append (hline : '\n' ∉ line) (text : List Char) :
    lines (line ++ '\n' :: text) = stripReturn line :: lines text := by
  rw [lines, splitOn_append_cons_self, splitOn_eq_singleton hline]
  obtain ⟨piece, pieces, hpieces⟩ := exists_cons_of_ne_nil (splitOn_ne_nil '\n' text)
  rw [lines, hpieces]
  simp

/-- A line that is read as it was written. -/
def IsLine (line : List Char) : Prop := '\n' ∉ line ∧ line.getLast? ≠ some '\r'

instance (line : List Char) : Decidable (IsLine line) := inferInstanceAs (Decidable (_ ∧ _))

/-- **Lines that are written are read.** -/
theorem lines_flatMap {ls : List (List Char)} (h : ∀ line ∈ ls, IsLine line) :
    lines (ls.flatMap fun line => line ++ ['\n']) = ls := by
  induction ls with
  | nil => exact lines_nil
  | cons line ls ih =>
    have hline := h line mem_cons_self
    rw [flatMap_cons, append_assoc, singleton_append, lines_append hline.1,
      stripReturn, if_neg hline.2, ih (forall_mem_cons.1 h).2]

/-! ## Numbers -/

/-- `char::to_digit`, in a base up to ten. -/
def toDigit (radix : Nat) (c : Char) : Option Nat :=
  if '0' ≤ c ∧ c.toNat - '0'.toNat < radix then some (c.toNat - '0'.toNat) else none

/-- One more digit; `none` if it is no digit or the number becomes too large. -/
def addDigit (radix bound value : Nat) (c : Char) : Option Nat :=
  match toDigit radix c with
  | some digit => if value * radix + digit < bound then some (value * radix + digit) else none
  | none => none

/-- `from_str_radix`, of an unsigned number below the bound in a base up to ten. -/
def fromStrRadix (radix bound : Nat) : List Char → Option Nat
  | [] => none
  | ['+'] => none
  | '+' :: digits => digits.foldlM (addDigit radix bound) 0
  | digits => digits.foldlM (addDigit radix bound) 0

/-- A number as `format!` writes it. -/
def decimal (n : Nat) : List Char := Nat.toDigits 10 n

/-! ## Characters -/

/-- `char::is_control`. -/
def isControl (c : Char) : Bool := c.toNat ≤ 0x1f || (0x7f ≤ c.toNat && c.toNat ≤ 0x9f)

/-- `str::to_ascii_lowercase`. -/
def toAsciiLowercase (s : List Char) : List Char := s.map Char.toLower

end Files

/-! ## Hexadecimal text

Numbers written with a fixed number of hexadecimal digits, the highest first.  The reader also takes
capital letters and a plus sign in front, and it refuses a number that does not fit.
-/

/-- `char::to_digit`, in base sixteen. -/
def toDigit16 (c : Char) : Option Nat :=
  if '0' ≤ c ∧ c ≤ '9' then some (c.toNat - '0'.toNat)
  else if 'a' ≤ c ∧ c ≤ 'f' then some (c.toNat - 'a'.toNat + 10)
  else if 'A' ≤ c ∧ c ≤ 'F' then some (c.toNat - 'A'.toNat + 10)
  else none

/-- One more digit; `none` if it is no digit or the number becomes too large. -/
def addDigit16 (bound value : Nat) (c : Char) : Option Nat :=
  match toDigit16 c with
  | some digit => if value * 16 + digit < bound then some (value * 16 + digit) else none
  | none => none

/-- `from_str_radix(text, 16)`, of an unsigned number below the bound. -/
def fromStrRadix16 (bound : Nat) : List Char → Option Nat
  | [] => none
  | ['+'] => none
  | '+' :: digits => digits.foldlM (addDigit16 bound) 0
  | digits => digits.foldlM (addDigit16 bound) 0

/-- The lowest `w` hexadecimal digits of a number.  A number that has no more of them is written so
by `format!` with a width of `w` and zeros in front. -/
def hexDigits : Nat → Nat → List Char
  | 0, _ => []
  | w + 1, x => hexDigits w (x / 16) ++ [(x % 16).digitChar]

@[simp] theorem length_hexDigits (w x : Nat) : (hexDigits w x).length = w := by
  induction w generalizing x with
  | zero => rfl
  | succ w ih => rw [hexDigits, length_append, ih, length_singleton]

theorem toDigit16_digitChar : ∀ d < 16, toDigit16 d.digitChar = some d := by
  decide

/-- A digit is a single byte, and no plus sign. -/
theorem digitChar_ascii : ∀ d < 16, d.digitChar.utf8Size = 1 ∧ d.digitChar ≠ '+' := by
  decide

variable {w x : Nat}

theorem mem_hexDigits {c : Char} (hc : c ∈ hexDigits w x) :
    ∃ d < 16, c = d.digitChar := by
  induction w generalizing x with
  | zero => cases hc
  | succ w ih =>
    rw [hexDigits, mem_append, mem_singleton] at hc
    rcases hc with hc | hc
    · exact ih hc
    · exact ⟨x % 16, Nat.mod_lt _ (by decide), hc⟩

theorem foldlM_hexDigits {bound : Nat} (hx : x < 16 ^ w) (hbound : x < bound) :
    (hexDigits w x).foldlM (addDigit16 bound) 0 = some x := by
  -- The reader goes from the highest digit to the lowest, as the digits are appended.
  induction w generalizing x with
  | zero =>
    obtain rfl : x = 0 := by omega
    rfl
  | succ w ih =>
    have hdiv : x / 16 < 16 ^ w := Nat.div_lt_of_lt_mul (by rwa [Nat.pow_succ'] at hx)
    have hsum : x / 16 * 16 + x % 16 = x := by omega
    have hdigit := toDigit16_digitChar (x % 16) (Nat.mod_lt _ (by decide))
    rw [hexDigits, foldlM_append, ih hdiv (by omega)]
    simp [addDigit16, hdigit, hsum, hbound]

/-- **What was written is read back.** -/
theorem fromStrRadix16_hexDigits {bound : Nat} (hw : 0 < w) (hx : x < 16 ^ w) (hbound : x < bound) :
    fromStrRadix16 bound (hexDigits w x) = some x := by
  have hfold := foldlM_hexDigits hx hbound
  have hdigits : ∀ c ∈ hexDigits w x, c ≠ '+' := by
    intro c hc
    obtain ⟨d, hd, rfl⟩ := mem_hexDigits hc
    exact (digitChar_ascii d hd).2
  have hlen := length_hexDigits w x
  generalize hexDigits w x = digits at *
  unfold fromStrRadix16
  split
  · rw [length_nil] at hlen
    omega
  · exact absurd rfl (hdigits _ mem_cons_self)
  · exact absurd rfl (hdigits _ mem_cons_self)
  · exact hfold

/-! ## Decoding text that may be broken

`String::from_utf8_lossy`: every well-formed character is decoded, and every maximal piece that
cannot be the start of one becomes a single replacement character.  How long such a piece is depends
on its first bytes (`brokenLen`), in the way the decoder of the Rust library cuts them.
`str::from_utf8` refuses bytes with such a piece.
-/

/-- A continuation byte, `0b10xxxxxx`. -/
def isContinuation (b : UInt8) : Bool := b &&& 0xC0 == 0x80

/-- The second byte of a character of three bytes. -/
def secondOfThree (first second : UInt8) : Bool :=
  if first = 0xE0 then 0xA0 ≤ second && second ≤ 0xBF
  else if first = 0xED then 0x80 ≤ second && second ≤ 0x9F
  else 0x80 ≤ second && second ≤ 0xBF

/-- The second byte of a character of four bytes. -/
def secondOfFour (first second : UInt8) : Bool :=
  if first = 0xF0 then 0x90 ≤ second && second ≤ 0xBF
  else if first = 0xF4 then 0x80 ≤ second && second ≤ 0x8F
  else 0x80 ≤ second && second ≤ 0xBF

/-- How many of these bytes, which do not start with a character, are replaced at once: the first
and those after it that could still have belonged to a character.  A byte past the end reads as
zero. -/
def brokenLen (bytes : List UInt8) : Nat :=
  let first := bytes.getD 0 0
  let second := bytes.getD 1 0
  if 0xE0 ≤ first ∧ first ≤ 0xEF then
    if secondOfThree first second then 2 else 1
  else if 0xF0 ≤ first ∧ first ≤ 0xF4 then
    if secondOfFour first second then if isContinuation (bytes.getD 2 0) then 3 else 2 else 1
  else 1

/-- The decoder, on at most this many characters. -/
def lossy : Nat → List UInt8 → List Char
  | 0, _ => []
  | _, [] => []
  | fuel + 1, bytes =>
    match bytes.toByteArray.utf8DecodeChar? 0 with
    | some c => c :: lossy fuel (bytes.drop c.utf8Size)
    | none => '\uFFFD' :: lossy fuel (bytes.drop (brokenLen bytes))

/-- `String::from_utf8_lossy`. -/
def fromUtf8Lossy (bytes : List UInt8) : List Char := lossy bytes.length bytes

theorem lossy_encode {fuel : Nat} (h : s.length ≤ fuel) :
    lossy fuel (s.flatMap String.utf8EncodeChar) = s := by
  induction s generalizing fuel with
  | nil => cases fuel <;> rfl
  | cons c s ih =>
    obtain ⟨fuel, rfl⟩ : ∃ n, fuel = n + 1 := ⟨fuel - 1, by simp at h; omega⟩
    have hlen := String.length_utf8EncodeChar c
    have hne : String.utf8EncodeChar c ++ s.flatMap String.utf8EncodeChar ≠ [] := by
      have := c.utf8Size_pos
      intro hnil
      rw [(append_eq_nil_iff.1 hnil).1] at hlen
      simp at hlen
      omega
    obtain ⟨b, bs, hcons⟩ := exists_cons_of_ne_nil hne
    rw [flatMap_cons, hcons, lossy, ← hcons, toByteArray_append,
      ByteArray.utf8DecodeChar?_utf8EncodeChar_append]
    · dsimp only
      rw [← hlen, drop_left, ih (by simpa using h)]
    · simp

/-- **Text that was encoded comes back.** -/
theorem fromUtf8Lossy_encode : fromUtf8Lossy (s.flatMap String.utf8EncodeChar) = s := by
  refine lossy_encode s ?_
  induction s with
  | nil => simp
  | cons c s ih =>
    have := c.utf8Size_pos
    rw [flatMap_cons, length_append, String.length_utf8EncodeChar, length_cons]
    omega

/-- `str::from_utf8`. -/
def fromUtf8 (bytes : List UInt8) : Option (List Char) :=
  bytes.toByteArray.utf8Decode?.map Array.toList

theorem fromUtf8_encode : fromUtf8 (s.flatMap String.utf8EncodeChar) = some s := by
  have hdecode : (s.flatMap String.utf8EncodeChar).toByteArray.utf8Decode? = some s.toArray :=
    utf8Decode?_utf8Encode
  rw [fromUtf8, hdecode, map_some]

/-- Only the null character is encoded with a zero byte. -/
theorem ne_zero_of_mem_encode {s : List Char} (h : '\x00' ∉ s) {b : UInt8}
    (hb : b ∈ s.flatMap String.utf8EncodeChar) : b ≠ 0 := by
  obtain ⟨c, hc, hb⟩ := mem_flatMap.1 hb
  have hpos : c.val.toNat ≠ 0 := by
    intro hzero
    refine h ?_
    have : c = '\x00' := Char.ext (UInt32.toNat_inj.1 hzero)
    exact this ▸ hc
  have hne : ∀ n : Nat, 0 < n → n < 256 → UInt8.ofNat n ≠ 0 := by
    intro n hn hlt hzero
    have := congrArg UInt8.toNat hzero
    simp at this
    omega
  have hmem : ∃ n : Nat, 0 < n ∧ n < 256 ∧ b = UInt8.ofNat n := by
    rw [String.utf8EncodeChar] at hb
    split_ifs at hb <;> simp only [mem_cons, not_mem_nil, or_false] at hb
    · exact ⟨_, by omega, by omega, hb⟩
    · rcases hb with hb | hb <;> exact ⟨_, by omega, by omega, hb⟩
    · rcases hb with hb | hb | hb <;> exact ⟨_, by omega, by omega, hb⟩
    · rcases hb with hb | hb | hb | hb <;> exact ⟨_, by omega, by omega, hb⟩
  obtain ⟨n, hn, hlt, rfl⟩ := hmem
  exact hne n hn hlt

end Krust.Lib
