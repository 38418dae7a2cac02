import Krust.Fs.Defs
import Krust.Lib.Text

/-!
# Paths

How the kernel reads a path.  White space around it is dropped, the rest is cut at the slashes, and
`.` and `..` are worked off from left to right.  The result is text again, and whoever is given it
reads it again in the same way.

`normalizeAbsolutePath` is the source's loop over a string; `normalizeAbsolutePath_eq` says what it
computes in terms of the segments.
-/

set_option autoImplicit false

namespace Krust.Vfs

open Lib List

/-! ## Text -/

/-- `char::is_whitespace`. -/
def isWhitespace (c : Char) : Bool :=
  let n := c.toNat
  (0x9 ≤ n && n ≤ 0xd) || n == 0x20 || n == 0x85 || n == 0xa0 || n == 0x1680 ||
    (0x2000 ≤ n && n ≤ 0x200a) || n == 0x2028 || n == 0x2029 || n == 0x202f || n == 0x205f ||
    n == 0x3000

/-- `str::trim`. -/
def trim (s : Str) : Str := (s.dropWhile isWhitespace).rdropWhile isWhitespace

/-- `str::trim_end_matches`. -/
def trimEndMatches (c : Char) (s : Str) : Str := s.rdropWhile fun a => a == c

def splitSegments (path : Str) : List Str := segments '/' path

def joinAbsoluteSegments (ss : List Str) : Str := joined '/' ss

/-! ## Normalizing -/

/-- One round of the loop of `normalize_absolute_path`.  Positions are counted in characters; the
ones that matter here are those of slashes and ends. -/
def normalizeSegment (normalized segment : Str) : Str :=
  if segment = ['.'] then normalized
  else if segment = ['.', '.'] then
    if 1 < normalized.length then
      match rsplitOnce '/' normalized with
      | some (parent, _) => normalized.take (max parent.length 1)
      | none => normalized.take 1
    else normalized
  else (if 1 < normalized.length then normalized ++ ['/'] else normalized) ++ segment

def normalizeAbsolutePath (path : Str) : Except FsError Str :=
  let trimmed := trim path
  if trimmed = [] then .error .notFound
  else
    let absolute := if trimmed.head? = some '/' then trimmed else '/' :: trimmed
    .ok ((splitSegments absolute.tail).foldl normalizeSegment ['/'])

/-- What one round does to the segments that have been read. -/
def pushSegment (ss : List Str) (s : Str) : List Str :=
  if s = ['.'] then ss else if s = ['.', '.'] then ss.dropLast else ss ++ [s]

def normalSegments (path : Str) : List Str := (splitSegments (trim path)).foldl pushSegment []

/-- A segment of a normalized path. -/
structure IsName (s : Str) : Prop where
  segment : IsSegment '/' s
  not_dot : s ≠ ['.']
  not_dotdot : s ≠ ['.', '.']

def Normal (ss : List Str) : Prop := ∀ s ∈ ss, IsName s

variable {ss : List Str}

theorem Normal.segments (h : Normal ss) : ∀ s ∈ ss, IsSegment '/' s :=
  fun s hs => (h s hs).segment

theorem splitSegments_joined (h : Normal ss) :
    splitSegments (joinAbsoluteSegments ss) = ss := segments_joined h.segments

variable {s t : Str} (path : Str) (ts : List Str)

theorem Normal.pushSegment (h : Normal ss) (hs : IsSegment '/' s) : Normal (pushSegment ss s) := by
  rw [Vfs.pushSegment]
  split
  · exact h
  rename_i hdot
  split
  · exact fun t ht => h t (dropLast_subset ss ht)
  rename_i hdotdot
  intro t ht
  rcases mem_append.1 ht with ht | ht
  · exact h t ht
  · rw [mem_singleton.1 ht]
    exact ⟨hs, hdot, hdotdot⟩

theorem one_lt_length_joined (h : Normal ss) (hne : ss ≠ []) :
    1 < (joinAbsoluteSegments ss).length := by
  obtain ⟨s, ss, rfl⟩ := exists_cons_of_ne_nil hne
  have hs := length_pos_iff.2 (h s mem_cons_self).segment.1
  simp only [joinAbsoluteSegments, joined, flatMap_cons, length_append, length_cons]
  omega

theorem rsplitOnce_joined (ht : IsName t) :
    rsplitOnce '/' (joinAbsoluteSegments (ts ++ [t])) =
      some (if ts = [] then [] else joinAbsoluteSegments ts, t) := by
  split_ifs with hts
  · subst hts
    have hcut : joinAbsoluteSegments ([] ++ [t]) = [] ++ '/' :: t := by
      simp [joinAbsoluteSegments, joined]
    rw [hcut, rsplitOnce_append ht.segment.2]
  · rw [joinAbsoluteSegments, joined_concat hts, rsplitOnce_append ht.segment.2]
    rfl

theorem normalizeSegment_dotdot (h : Normal ss) :
    normalizeSegment (joinAbsoluteSegments ss) ['.', '.'] = joinAbsoluteSegments ss.dropLast := by
  rw [normalizeSegment, if_neg (by decide), if_pos rfl]
  rcases eq_nil_or_concat' ss with rfl | ⟨ts, t, rfl⟩
  · rfl
  rw [if_pos (one_lt_length_joined h (by simp)), dropLast_concat,
    rsplitOnce_joined ts (h t (by simp))]
  dsimp only
  by_cases hts : ts = []
  · subst hts
    rfl
  have hpos : 1 ≤ (joinAbsoluteSegments ts).length := length_pos_iff.2 (joined_ne_nil ts)
  rw [if_neg hts, Nat.max_eq_left hpos, joinAbsoluteSegments, joinAbsoluteSegments,
    joined_concat hts, take_left]

theorem normalizeSegment_name (h : Normal ss) (hdot : s ≠ ['.']) (hdotdot : s ≠ ['.', '.']) :
    normalizeSegment (joinAbsoluteSegments ss) s = joinAbsoluteSegments (ss ++ [s]) := by
  rw [normalizeSegment, if_neg hdot, if_neg hdotdot]
  by_cases hss : ss = []
  · subst hss
    simp [joinAbsoluteSegments, joined]
  rw [if_pos (one_lt_length_joined h hss), joinAbsoluteSegments, joinAbsoluteSegments,
    joined_concat hss, append_assoc]
  rfl

/-- One round of the loop, in terms of the segments. -/
theorem normalizeSegment_joined (h : Normal ss) (s : Str) :
    normalizeSegment (joinAbsoluteSegments ss) s = joinAbsoluteSegments (pushSegment ss s) := by
  rw [pushSegment]
  split
  · rename_i hdot
    rw [normalizeSegment, if_pos hdot]
  rename_i hdot
  split
  · rename_i hdotdot
    rw [hdotdot, normalizeSegment_dotdot h]
  · rename_i hdotdot
    exact normalizeSegment_name h hdot hdotdot

theorem foldl_normalizeSegment (segs : List Str) (h : Normal ss)
    (hs : ∀ s ∈ segs, IsSegment '/' s) :
    segs.foldl normalizeSegment (joinAbsoluteSegments ss) =
      joinAbsoluteSegments (segs.foldl pushSegment ss) ∧ Normal (segs.foldl pushSegment ss) := by
  induction segs generalizing ss with
  | nil => exact ⟨rfl, h⟩
  | cons s segs ih =>
    rw [foldl_cons, normalizeSegment_joined h]
    exact ih (h.pushSegment (hs s mem_cons_self)) (forall_mem_cons.1 hs).2

theorem normal_nil : Normal [] := fun _ h => absurd h not_mem_nil

theorem normal_normalSegments : Normal (normalSegments path) :=
  (foldl_normalizeSegment _ normal_nil fun _ hs => isSegment_of_mem hs).2

/-- **What a path is normalized to.** -/
theorem normalizeAbsolutePath_eq :
    normalizeAbsolutePath path =
      if trim path = [] then .error .notFound
      else .ok (joinAbsoluteSegments (normalSegments path)) := by
  have htail : splitSegments (if (trim path).head? = some '/' then trim path
      else '/' :: trim path).tail = splitSegments (trim path) := by
    split_ifs with hhead
    · obtain ⟨rest, hrest⟩ : ∃ rest, trim path = '/' :: rest := by
        cases ht : trim path with
        | nil => simp [ht] at hhead
        | cons c rest => exact ⟨rest, by simpa [ht] using hhead⟩
      rw [hrest, tail_cons, splitSegments, splitSegments, segments_cons]
    · rfl
  have hfold := (foldl_normalizeSegment (splitSegments (trim path)) normal_nil
    fun _ hs => isSegment_of_mem hs).1
  simp only [normalizeAbsolutePath]
  split
  · rfl
  · rw [htail]
    exact congrArg _ hfold

theorem normal_of_normalize {path p : Str} (h : normalizeAbsolutePath path = .ok p) :
    ∃ ss, Normal ss ∧ p = joinAbsoluteSegments ss := by
  rw [normalizeAbsolutePath_eq] at h
  split at h
  · exact absurd h (by simp)
  · exact ⟨_, normal_normalSegments path, (Except.ok.inj h).symm⟩

/-! ## Normalizing again -/

def endsInSpace (s : Str) : Bool := s.getLast?.any isWhitespace

theorem foldl_pushSegment (h : Normal ss) (ts : List Str) : ss.foldl pushSegment ts = ts ++ ss := by
  induction ss generalizing ts with
  | nil => rw [foldl_nil, append_nil]
  | cons s ss ih =>
    have hs := h s mem_cons_self
    rw [foldl_cons, ih (forall_mem_cons.1 h).2, pushSegment,
      if_neg hs.not_dot, if_neg hs.not_dotdot, append_assoc]
    rfl

theorem getLast_joined (ht : t ≠ []) :
    (joinAbsoluteSegments (ts ++ [t])).getLast? = t.getLast? := by
  rw [joinAbsoluteSegments, joined_eq_flatMap (by simp), flatMap_append, flatMap_singleton,
    getLast?_append, getLast?_cons]
  cases h : t.getLast? with
  | none => exact absurd (getLast?_eq_none_iff.1 h) ht
  | some a => rfl

/-- **A path is worked off on a stack**: its segments are read from left to right, and what is left
of them is joined with slashes. -/
theorem normalize_evaluates (path : Str) (h : trim path ≠ []) :
    ∃ p, normalizeAbsolutePath path = .ok p ∧
      p = '/' :: ['/'].intercalate ((splitSegments (trim path)).foldl pushSegment []) ∧
      (p = ['/'] ∨ ((∀ s ∈ p.tail.splitOn '/', s ≠ [] ∧ s ≠ ['.'] ∧ s ≠ ['.', '.']) ∧
        p.getLast? ≠ some '/')) := by
  have hnormal := normal_normalSegments path
  have hjoin := joined_eq_intercalate (c := '/') (normalSegments path)
  refine ⟨_, (normalizeAbsolutePath_eq path).trans (if_neg h), hjoin, ?_⟩
  rcases eq_nil_or_concat' (normalSegments path) with hnil | ⟨ts, t, hlast⟩
  · exact .inl (by rw [hnil]; rfl)
  have hne : normalSegments path ≠ [] := by simp [hlast]
  have ht := hnormal t (by simp [hlast])
  refine .inr ⟨fun s hs => ?_, ?_⟩
  · rw [joinAbsoluteSegments, hjoin, tail_cons,
      splitOn_intercalate _ (fun s hs => (hnormal s hs).segment.2) hne] at hs
    exact ⟨(hnormal s hs).segment.1, (hnormal s hs).not_dot, (hnormal s hs).not_dotdot⟩
  · rw [hlast, getLast_joined ts ht.segment.1]
    exact fun h => ht.segment.2 (mem_of_getLast? h)

theorem normalize_evaluates_dots :
    ∃ p, normalizeAbsolutePath " a//./b/../c/ ".toList = .ok p ∧ p = "/a/c".toList := by
  obtain ⟨p, hp, heq, -⟩ := normalize_evaluates " a//./b/../c/ ".toList (by decide)
  exact ⟨p, hp, heq.trans (by decide)⟩

section Again

variable (h : Normal ss) (hs : ∀ s ∈ ss.getLast?, endsInSpace s = false)
include h hs

/-- White space is only found after the last segment. -/
theorem trim_joined :
    trim (joinAbsoluteSegments ss) = joinAbsoluteSegments ss := by
  have hhead : (joinAbsoluteSegments ss).dropWhile isWhitespace = joinAbsoluteSegments ss := by
    cases ss <;> rfl
  rw [trim, hhead]
  rcases eq_nil_or_concat' ss with rfl | ⟨ts, t, rfl⟩
  · rfl
  have ht := hs t (by simp)
  rw [endsInSpace, ← getLast_joined ts (h t (by simp)).segment.1] at ht
  rw [rdropWhile_eq_self_iff]
  intro hne
  simpa [getLast?_eq_some_getLast hne] using ht

/-- **A normalized path is left alone**, unless its last segment ends in white space. -/
theorem normalizeAbsolutePath_joined :
    normalizeAbsolutePath (joinAbsoluteSegments ss) = .ok (joinAbsoluteSegments ss) := by
  have htrim := trim_joined h hs
  have hne : joinAbsoluteSegments ss ≠ [] := joined_ne_nil ss
  rw [normalizeAbsolutePath_eq, htrim, if_neg hne, normalSegments, htrim,
    splitSegments_joined h, foldl_pushSegment h, nil_append]

end Again

/-- White space at the end of the last segment is dropped, and what is left of it is worked off. -/
theorem normalSegments_joined_concat {ts : List Str} (h : Normal (ts ++ [t])) :
    normalSegments (joinAbsoluteSegments (ts ++ [t])) =
      (splitSegments (t.rdropWhile isWhitespace)).foldl pushSegment ts := by
  have hts : Normal ts := fun s hs => h s (mem_append_left _ hs)
  have hcut : joinAbsoluteSegments (ts ++ [t]) = ts.flatMap (fun s => '/' :: s) ++ '/' :: t := by
    rw [joinAbsoluteSegments, joined_eq_flatMap (by simp), flatMap_append,
      flatMap_singleton]
  have hfront : segments '/' (ts.flatMap fun s => '/' :: s) = ts := by
    cases ts with
    | nil => rfl
    | cons s ts => exact splitSegments_joined hts
  have hdrop : ∀ a : Str, (a ++ '/' :: t).rdropWhile isWhitespace =
      a ++ '/' :: t.rdropWhile isWhitespace := by
    intro a
    have hslash : isWhitespace '/' = false := rfl
    cases hw : (t.reverse.dropWhile isWhitespace).isEmpty <;>
      simp_all [rdropWhile, dropWhile_append]
  have hhead : (joinAbsoluteSegments (ts ++ [t])).dropWhile isWhitespace =
      joinAbsoluteSegments (ts ++ [t]) := by
    cases ts <;> rfl
  rw [normalSegments, trim, hhead, hcut, hdrop, splitSegments, segments_append, foldl_append,
    hfront, foldl_pushSegment hts, nil_append, splitSegments]

/-- If nothing changes then the last segment did not end in white space. -/
theorem endsInSpace_of_same {ts : List Str} (h : Normal (ts ++ [t]))
    (hsame : normalSegments (joinAbsoluteSegments (ts ++ [t])) = ts ++ [t]) :
    endsInSpace t = false := by
  have ht := (h t (by simp)).segment
  rw [normalSegments_joined_concat h] at hsame
  have hself : t.rdropWhile isWhitespace = t := by
    by_cases hnil : t.rdropWhile isWhitespace = []
    · rw [hnil] at hsame
      exact absurd (congrArg length hsame) (by simp [splitSegments])
    have hpre := rdropWhile_prefix isWhitespace t
    have hcut : '/' ∉ t.rdropWhile isWhitespace := fun hmem => ht.2 (hpre.subset hmem)
    rw [splitSegments, segments_self ⟨hnil, hcut⟩, foldl_cons, foldl_nil,
      pushSegment] at hsame
    split at hsame
    · simp at hsame
    split at hsame
    · have hlen := congrArg length hsame
      simp only [length_dropLast, length_append, length_singleton] at hlen
      omega
    · exact singleton_inj.1 (append_cancel_left hsame)
  rw [endsInSpace, getLast?_eq_some_getLast ht.1]
  simpa using rdropWhile_eq_self_iff.1 hself ht.1

/-! ## Relative paths -/

/-- `resolve_absolute_from_current_cwd`. -/
def resolveAbsolute (cwd : Option Str) (path : Str) : Except FsError Str :=
  let path := trim path
  if path = [] then .error .notFound
  else if path.head? = some '/' then normalizeAbsolutePath path
  else
    let cwdPath := cwd.getD ['/']
    normalizeAbsolutePath
      (if cwdPath = ['/'] then '/' :: path else trimEndMatches '/' cwdPath ++ '/' :: path)

end Krust.Vfs
