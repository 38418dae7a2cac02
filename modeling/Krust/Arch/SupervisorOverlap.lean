import Krust.Arch.PageTable
import Mathlib.Data.List.Basic

/-!
# Does a range overlap the supervisor's pages?

`range_overlaps_supervisor` walks the page tables for a whole range of addresses at once.  At each
level it visits the entries that cover the range, in order, and descends with the range cut to what
the entry covers; it stops at the first failed read and at the first page of the supervisor.  The
closure that reads the entries may have a state of its own, which `walk` passes along.

The specification goes address by address (`Arch.Supervisor`).  A search is judged by what it reads
and what it returns (`Searches`), and the searches of the entries of a table make up the search of
the table (`Searches.forEntries`), so the walk is judged level by level (`searches_walk`).
-/

set_option autoImplicit false

namespace Krust.Arch

open List

def USER_ADDRESS_END : Nat := 2 ^ 47

section Walk

variable {σ : Type}

/-- The loop over the entries of a table.  A visit returns `some false` to go on with the next. -/
def forEntries (visit : Nat → σ → Option Bool × σ) : List Nat → σ → Option Bool × σ
  | [], s => (some false, s)
  | index :: rest, s =>
    match visit index s with
    | (some false, s') => forEntries visit rest s'
    | r => r

/-- The body of that loop, in a table of the level above `level` that starts at the address
`tableStart`.  `descend` is the walk through the table that the entry names. -/
def visitEntry (readEntry : UInt64 → Nat → σ → Option UInt64 × σ)
    (descend : UInt64 → Nat → Nat → Nat → Bool → σ → Option Bool × σ) (level : Nat) (table : UInt64)
    (tableStart start stop : Nat) (parentUser : Bool) (index : Nat) (s : σ) : Option Bool × σ :=
  match readEntry table index s with
  | (none, s) => (none, s)
  | (some entry, s) =>
    if entry &&& PRESENT = 0 then (some false, s)
    else
      let user := parentUser && entry &&& USER != 0
      if isLeaf (level + 1) entry then (some !user, s)
      else
        let entryStart := tableStart + index * span level
        descend (entry &&& TABLE_ADDRESS) entryStart (max start entryStart)
          (min stop (entryStart + span level)) user s

/-- The walk through a table of a level that starts at the address `tableStart`. -/
def walk (readEntry : UInt64 → Nat → σ → Option UInt64 × σ) :
    Nat → UInt64 → Nat → Nat → Nat → Bool → σ → Option Bool × σ
  -- The entries of level 1 are leaves, so no walk comes here.
  | 0, _, _, _, _, _ => fun s => (some false, s)
  | level + 1, table, tableStart, start, stop, parentUser =>
    let first := (start - tableStart) / span level
    let last := (stop - 1 - tableStart) / span level
    forEntries (visitEntry readEntry (walk readEntry level) level table tableStart start stop
      parentUser) (List.range' first (last + 1 - first))

/-- Whether an address of the range is mapped for the supervisor. -/
def rangeOverlapsSupervisor (root : UInt64) (start stop : Nat)
    (readEntry : UInt64 → Nat → σ → Option UInt64 × σ) (s : σ) : Option Bool × σ :=
  if start ≥ stop ∨ stop > USER_ADDRESS_END then (none, s)
  else walk readEntry 4 root 0 start stop true s

end Walk

/-! ## What a search reads and returns -/

/-- The reads that have been made: the table and the index of each. -/
abbrev Reads : Type := List (UInt64 × Nat)

/-- Reading the tables, with a record of the reads. -/
def recorded (tables : Tables) (table : UInt64) (index : Nat) (reads : Reads) :
    Option UInt64 × Reads :=
  (tables table index, reads ++ [(table, index)])

/-- What a search for an address with the property `S` has found after these reads. -/
structure Answers (tables : Tables) (S : Nat → Prop) (r : Option Bool) (reads : Reads) : Prop where
  index_le : ∀ x ∈ reads, x.2 ≤ 511
  none_iff : r = none ↔ ∃ x ∈ reads, tables x.1 x.2 = none
  found : r = some true → ∃ a, S a
  clean : r = some false → ∀ a, ¬ S a

/-- The search answers whether there is an address with the property `S`. -/
def Searches (tables : Tables) (S : Nat → Prop) (search : Reads → Option Bool × Reads) : Prop :=
  ∀ before, ∃ reads, (search before).2 = before ++ reads ∧
    Answers tables S (search before).1 reads

variable {address index : Nat} {S' : Nat → Prop} {r : Option Bool} {reads : Reads} {entry : UInt64}

section Searches

variable {tables : Tables} {S : Nat → Prop}

/-- A search with one more read before it, which has not failed. -/
theorem Answers.cons {table : UInt64} (h : Answers tables S r reads) (hindex : index ≤ 511)
    (hread : tables table index ≠ none) : Answers tables S r ((table, index) :: reads) := by
  refine ⟨?_, ?_, h.found, h.clean⟩
  · exact forall_mem_cons.2 ⟨hindex, h.index_le⟩
  · rw [h.none_iff, exists_mem_cons_iff, or_iff_right hread]

theorem Answers.append {reads' : Reads} (h : Answers tables S (some false) reads)
    (h' : Answers tables S' r reads') :
    Answers tables (fun a => S a ∨ S' a) r (reads ++ reads') := by
  have hreads : ¬ ∃ x ∈ reads, tables x.1 x.2 = none := fun hx => nomatch h.none_iff.2 hx
  refine ⟨?_, ?_, fun hr => ?_, fun hr a ha => ?_⟩
  · exact forall_mem_append.2 ⟨h.index_le, h'.index_le⟩
  · rw [h'.none_iff]
    simp only [mem_append, or_and_right, exists_or, hreads, false_or]
  · obtain ⟨a, ha⟩ := h'.found hr
    exact ⟨a, .inr ha⟩
  rcases ha with ha | ha
  · exact h.clean rfl a ha
  · exact h'.clean hr a ha

theorem Searches.congr {search : Reads → Option Bool × Reads} (h : Searches tables S search)
    (hS : ∀ a, S a ↔ S' a) : Searches tables S' search := by
  have : S = S' := funext fun a => propext (hS a)
  exact this ▸ h

/-- **The searches of the entries make up the search of the table.** -/
theorem Searches.forEntries {S : Nat → Nat → Prop} {visit : Nat → Reads → Option Bool × Reads}
    {indices : List Nat} (h : ∀ index ∈ indices, Searches tables (S index) (visit index)) :
    Searches tables (fun a => ∃ index ∈ indices, S index a) (Arch.forEntries visit indices) := by
  induction indices with
  | nil =>
    intro before
    exact ⟨[], (append_nil _).symm, by simp, by simp [Arch.forEntries],
      by simp [Arch.forEntries], by simp⟩
  | cons index rest ih =>
    rw [forall_mem_cons] at h
    intro before
    obtain ⟨reads, hreads, hanswers⟩ := h.1 before
    simp only [exists_mem_cons_iff]
    rw [Arch.forEntries]
    generalize hvisit : visit index before = r at hreads hanswers
    obtain ⟨r, after⟩ := r
    match r with
    | some false =>
      obtain ⟨reads', hreads', hanswers'⟩ := ih h.2 after
      refine ⟨reads ++ reads', ?_, hanswers.append hanswers'⟩
      have hafter : after = before ++ reads := hreads
      rw [hreads', hafter, append_assoc]
    | none =>
      exact ⟨reads, hreads, hanswers.index_le, hanswers.none_iff, nofun, nofun⟩
    | some true =>
      obtain ⟨a, ha⟩ := hanswers.found rfl
      exact ⟨reads, hreads, hanswers.index_le, hanswers.none_iff, fun _ => ⟨a, .inl ha⟩, nofun⟩

end Searches

/-! ## The walk -/

section Walk

variable (tables : Tables)

/-- The address is mapped for the supervisor below a table, or is so because of the levels above. -/
def SupervisorBelow (level : Nat) (table : UInt64) (parentUser : Bool) (address : Nat) : Prop :=
  ∃ path, translate tables level table address = some path ∧
    (parentUser = false ∨ ∃ entry ∈ path, entry &&& USER = 0)

def SupervisorIn (level : Nat) (table : UInt64) (parentUser : Bool) (start stop address : Nat) :
    Prop :=
  start ≤ address ∧ address < stop ∧ SupervisorBelow tables level table parentUser address

variable {tables} {level : Nat} {table : UInt64} {user : Bool}

section Below

variable (hread : tables table (address / span level % 512) = some entry)
include hread

/-- Below an entry that names a table. -/
theorem supervisorBelow_succ (hpresent : entry &&& PRESENT ≠ 0)
    (hleaf : isLeaf (level + 1) entry = false) :
    SupervisorBelow tables (level + 1) table user address ↔
      SupervisorBelow tables level (entry &&& TABLE_ADDRESS) (user && entry &&& USER != 0)
        address := by
  have huser : (user && entry &&& USER != 0) = false ↔ user = false ∨ entry &&& USER = 0 := by
    rw [Bool.and_eq_false_iff, bne_eq_false_iff_eq]
  simp only [SupervisorBelow, translate, hread, hpresent, if_false, hleaf, Bool.false_eq_true,
    Option.map_eq_some_iff, huser]
  constructor
  · rintro ⟨path, ⟨rest, hrest, rfl⟩, hpath⟩
    rw [exists_mem_cons_iff, ← or_assoc] at hpath
    exact ⟨rest, hrest, hpath⟩
  · rintro ⟨rest, hrest, hpath⟩
    refine ⟨entry :: rest, ⟨rest, hrest, rfl⟩, ?_⟩
    rwa [exists_mem_cons_iff, ← or_assoc]

/-- At an entry that maps a page. -/
theorem supervisorBelow_leaf (hpresent : entry &&& PRESENT ≠ 0)
    (hleaf : isLeaf (level + 1) entry = true) :
    SupervisorBelow tables (level + 1) table user address ↔
      (user && entry &&& USER != 0) = false := by
  rw [Bool.and_eq_false_iff]
  simp [SupervisorBelow, translate, hread, hpresent, hleaf]

/-- At an entry that is not in use. -/
theorem not_supervisorBelow (hpresent : entry &&& PRESENT = 0) :
    ¬ SupervisorBelow tables (level + 1) table user address := by
  simp [SupervisorBelow, translate, hread, hpresent]

end Below

/-- The visit of an entry searches the part of the range that the entry covers. -/
theorem searches_visitEntry {tableStart start stop entryStart lo hi : Nat}
    {descend : UInt64 → Nat → Nat → Nat → Bool → Reads → Option Bool × Reads}
    (halign : span level * 512 ∣ tableStart) (hindex : index < 512)
    (hentry : tableStart + index * span level = entryStart) (hlo : max start entryStart = lo)
    (hhi : min stop (entryStart + span level) = hi) (hmem : lo < hi)
    (hdescend : ∀ table user, Searches tables (SupervisorIn tables level table user lo hi)
      (descend table entryStart lo hi user)) :
    Searches tables (SupervisorIn tables (level + 1) table user lo hi)
      (visitEntry (recorded tables) descend level table tableStart start stop user index) := by
  intro before
  rw [visitEntry, recorded]
  simp only [hentry, hlo, hhi]
  rcases hread : tables table index with _ | entry
  · exact ⟨[(table, index)], rfl, by simp; omega, by simp [hread], nofun, nofun⟩
  have hne : tables table index ≠ none := by rw [hread]; nofun
  -- Every address of the part is looked up at this index.
  have hread' : ∀ a, lo ≤ a → a < hi → tables table (a / span level % 512) = some entry := by
    intro a ha ha'
    rw [index_eq halign hindex (by omega) (by omega), hread]
  simp only
  split
  · rename_i hpresent
    refine ⟨[(table, index)], rfl, Answers.cons ⟨by simp, by simp, nofun, fun _ a ha => ?_⟩
      (by omega) hne⟩
    exact not_supervisorBelow (hread' a ha.1 ha.2.1) hpresent ha.2.2
  · rename_i hpresent
    split
    · rename_i hleaf
      refine ⟨[(table, index)], rfl, Answers.cons ⟨by simp, by simp, fun hr => ?_,
        fun hr a ha => ?_⟩ (by omega) hne⟩
      · rw [Option.some_inj, Bool.not_eq_true'] at hr
        exact ⟨lo, le_refl _, hmem,
          (supervisorBelow_leaf (hread' lo (le_refl _) hmem) hpresent hleaf).2 hr⟩
      · rw [(supervisorBelow_leaf (hread' a ha.1 ha.2.1) hpresent hleaf).1 ha.2.2] at hr
        cases hr
    · rename_i hleaf
      rw [Bool.not_eq_true] at hleaf
      have hS : ∀ a, SupervisorIn tables level (entry &&& TABLE_ADDRESS)
          (user && entry &&& USER != 0) lo hi a ↔
          SupervisorIn tables (level + 1) table user lo hi a := fun a =>
        and_congr_right fun ha => and_congr_right fun ha' =>
          (supervisorBelow_succ (hread' a ha ha') hpresent hleaf).symm
      obtain ⟨reads, hreads, hanswers⟩ :=
        (hdescend (entry &&& TABLE_ADDRESS) (user && entry &&& USER != 0)).congr hS
          (before ++ [(table, index)])
      refine ⟨(table, index) :: reads, ?_, hanswers.cons (by omega) hne⟩
      rw [hreads, append_assoc, singleton_append]

/-- **The walk searches its range** for an address of the supervisor. -/
theorem searches_walk : ∀ {level : Nat} {table : UInt64} {tableStart start stop : Nat}
    {user : Bool}, span level ∣ tableStart → tableStart ≤ start → start < stop →
    stop ≤ tableStart + span level →
    Searches tables (SupervisorIn tables level table user start stop)
      (walk (recorded tables) level table tableStart start stop user) := by
  intro level
  induction level with
  | zero =>
    intro table tableStart start stop user _ _ _ _ before
    refine ⟨[], (append_nil _).symm, by simp, by simp [walk], by simp [walk], fun _ a ha => ?_⟩
    obtain ⟨path, hpath, -⟩ := ha.2.2
    cases hpath
  | succ level ih =>
    intro table tableStart start stop user halign hlo hlt hhi
    rw [span_succ] at halign hhi
    have hspan := span_pos level
    rw [walk]
    -- The loop visits the entries that cover a part of the range.
    generalize hrange : range' ((start - tableStart) / span level) _ = indices
    have hmem : ∀ index, index ∈ indices ↔ start < tableStart + index * span level + span level ∧
        tableStart + index * span level < stop := by
      intro index
      have hfirst : (start - tableStart) / span level ≤ index ↔
          start < tableStart + index * span level + span level := by
        rw [Nat.div_le_iff_le_mul_add_pred hspan, Nat.mul_comm]
        omega
      have hlast : index ≤ (stop - 1 - tableStart) / span level ↔
          tableStart + index * span level < stop := by
        rw [Nat.le_div_iff_mul_le hspan]
        omega
      rw [← hrange, mem_range'_1]
      omega
    have hvisit : ∀ index ∈ indices, Searches tables (SupervisorIn tables (level + 1) table user
        (max start (tableStart + index * span level))
        (min stop (tableStart + index * span level + span level)))
        (visitEntry (recorded tables) (walk (recorded tables) level) level table tableStart start
          stop user index) := by
      intro index hindex
      rw [hmem] at hindex
      have hindex' : index < 512 := by
        refine Nat.lt_of_mul_lt_mul_right (a := span level) ?_
        omega
      refine searches_visitEntry halign hindex' rfl rfl rfl (by omega) fun table user => ?_
      refine ih ?_ (le_max_right _ _) (by omega) (min_le_right _ _)
      exact Nat.dvd_add (Nat.dvd_trans (Nat.dvd_mul_right _ _) halign) (Nat.dvd_mul_left _ _)
    refine (Searches.forEntries hvisit).congr fun a => ⟨?_, fun ha => ?_⟩
    · rintro ⟨index, -, hlo', hhi', hsupervisor⟩
      exact ⟨(le_max_left _ _).trans hlo', hhi'.trans_le (min_le_left _ _), hsupervisor⟩
    -- The entry that covers the address.
    obtain ⟨hlo', hhi', hsupervisor⟩ := ha
    have hdiv := Nat.div_add_mod (a - tableStart) (span level)
    have hmod := Nat.mod_lt (a - tableStart) hspan
    rw [mul_comm] at hdiv
    refine ⟨(a - tableStart) / span level, (hmem _).2 ⟨?_, ?_⟩, ?_, ?_, hsupervisor⟩
    · omega
    · omega
    · omega
    · omega

end Walk

/-- **The walk of a range finds the supervisor's addresses.**  No index above 511 is read; the
answer is `none` only for an invalid range and after a failed read; if no read has failed, the
answer says whether an address of the range is mapped with a level that lacks the `USER` bit. -/
theorem range_overlaps_supervisor_iff (tables : Tables) (root : UInt64) (start stop : Nat) :
    let result := rangeOverlapsSupervisor root start stop (recorded tables) []
    (∀ x ∈ result.2, x.2 ≤ 511) ∧
    (result.1 = none ↔ ¬ (start < stop ∧ stop ≤ USER_ADDRESS_END) ∨
      ∃ x ∈ result.2, tables x.1 x.2 = none) ∧
    (start < stop → stop ≤ USER_ADDRESS_END → (∀ x ∈ result.2, tables x.1 x.2 ≠ none) →
      (result.1 = some true ↔ ∃ a, start ≤ a ∧ a < stop ∧ Supervisor tables root a) ∧
      (result.1 = some false ↔ ¬ ∃ a, start ≤ a ∧ a < stop ∧ Supervisor tables root a)) := by
  intro result
  by_cases hvalid : start < stop ∧ stop ≤ USER_ADDRESS_END
  · have hwalk : result = walk (recorded tables) 4 root 0 start stop true [] := by
      simp only [result, rangeOverlapsSupervisor]
      rw [if_neg (by omega)]
    have hS : ∀ a, SupervisorIn tables 4 root true start stop a ↔
        start ≤ a ∧ a < stop ∧ Supervisor tables root a := by
      simp [SupervisorIn, SupervisorBelow, Supervisor]
    have hend : stop ≤ 0 + span 4 := hvalid.2.trans (by decide)
    obtain ⟨reads, hreads, hanswers⟩ := ((searches_walk (Nat.dvd_zero _) (Nat.zero_le _) hvalid.1
      hend).congr hS) []
    rw [← hwalk, nil_append] at hreads
    rw [← hwalk, ← hreads] at hanswers
    refine ⟨hanswers.index_le, ?_, fun _ _ hread => ?_⟩
    · rw [hanswers.none_iff, or_iff_right (not_not.2 hvalid)]
    have hsome : result.1 ≠ none := by
      rw [Ne, hanswers.none_iff]
      rintro ⟨x, hx, hnone⟩
      exact hread x hx hnone
    match hr : result.1 with
    | none => exact absurd hr hsome
    | some true =>
      have hfound := hanswers.found hr
      exact ⟨iff_of_true rfl hfound, iff_of_false nofun (not_not.2 hfound)⟩
    | some false =>
      have hclean := not_exists.2 (hanswers.clean hr)
      exact ⟨iff_of_false nofun hclean, iff_of_true rfl hclean⟩
  · have hnone : result = (none, []) := by
      simp only [result, rangeOverlapsSupervisor]
      rw [if_pos (by omega)]
    rw [hnone]
    exact ⟨by simp, by simp [hvalid], fun hlt hle => absurd ⟨hlt, hle⟩ hvalid⟩

/-- The tables of a space with one page of the user at 4096, behind it one of the supervisor. -/
def twoPages : Tables := fun table index =>
  match table.toNat / 4096, index with
  | 0, 0 => some 0x1005
  | 1, 0 => some 0x2005
  | 2, 0 => some 0x3005
  | 3, 1 => some 0x10005
  | 3, 2 => some 0x11001
  | _, _ => some 0

theorem range_overlaps_supervisor_twoPages :
    (rangeOverlapsSupervisor 0 0 8192 (recorded twoPages) []).1 = some false ∧
      ¬ ∃ a, 0 ≤ a ∧ a < 8192 ∧ Supervisor twoPages 0 a := by
  have h := (range_overlaps_supervisor_iff twoPages 0 0 8192).2.2 (by decide) (by decide)
    (by decide +kernel)
  have hr : (rangeOverlapsSupervisor 0 0 8192 (recorded twoPages) []).1 = some false := by
    decide +kernel
  exact ⟨hr, h.2.1 hr⟩

end Krust.Arch
