import Mathlib.Data.List.AList

/-!
# Tables of counters, and finding objects by a key

A table that says how often each key is in use, with no entry for a key that is not in use: the
first user makes the entry and the last one removes it.  `Counts m c` says that `m` is the table of
the numbers `c`, and it is what `acquire` and `release` keep.  `Tallies` is the same for a table of
such tables.

An `Index` is such a table with an object for each key.  An object is attached under its key when it
is opened and detached when it is closed, and from the key of an open object the index should find
that object (`Finds`).  It does as long as open objects with one key are equal: `Finds.attach_iff`
is what attaching takes, and detaching takes nothing (`Finds.detach`).
-/

set_option autoImplicit false

namespace Krust.Lib

open List Function Option AList

/-- A number for each key that has one. -/
abbrev Counters (K : Type) := AList fun _ : K => Nat

namespace Counters

variable {K : Type} [DecidableEq K] {m : Counters K} {c : K → Nat}

/-- One more user of the key.  A counter that saturates at the largest `usize` counts like this,
since each user is an object in memory. -/
def acquire (m : Counters K) (k : K) : Counters K := m.insert k ((m.lookup k).getD 0 + 1)

def release (m : Counters K) (k : K) : Counters K :=
  match m.lookup k with
  | none => m
  | some n => if n ≤ 1 then m.erase k else m.insert k (n - 1)

/-- The table has the numbers that are not zero. -/
def Counts (m : Counters K) (c : K → Nat) : Prop :=
  ∀ k, m.lookup k = if c k = 0 then none else some (c k)

theorem counts_empty : Counts (∅ : Counters K) fun _ => 0 := fun k => lookup_empty k

theorem Counts.getD (h : m.Counts c) (k : K) : (m.lookup k).getD 0 = c k := by
  rw [h k]
  split_ifs with hk
  · rw [hk, getD_none]
  · exact getD_some

theorem Counts.acquire (h : m.Counts c) (k : K) :
    (m.acquire k).Counts (update c k (c k + 1)) := by
  intro j
  rw [Counters.acquire, h.getD]
  by_cases hj : j = k
  · subst hj
    rw [lookup_insert, update_self, if_neg (Nat.succ_ne_zero _)]
  · rw [lookup_insert_ne hj, update_of_ne hj, h j]

/-- A key that is in use can be released. -/
theorem Counts.release (h : m.Counts c) {k : K} (hk : c k ≠ 0) :
    (m.release k).Counts (update c k (c k - 1)) := by
  intro j
  rw [Counters.release, h k, if_neg hk]
  dsimp only
  by_cases hj : j = k
  · subst hj
    rw [update_self]
    split
    · rw [lookup_erase, if_pos (by omega)]
    · rw [lookup_insert, if_neg (by omega)]
  · rw [update_of_ne hj, ← h j]
    split
    · rw [lookup_erase_ne hj]
    · rw [lookup_insert_ne hj]

theorem Counts.eq_zero (h : m.Counts c) (hm : m.entries.isEmpty = true) (k : K) : c k = 0 := by
  have hk : m.lookup k = none := by
    rw [AList.lookup_eq_none, AList.mem_keys, AList.keys, List.isEmpty_iff.1 hm]
    exact not_mem_nil
  rw [h k] at hk
  by_contra h0
  rw [if_neg h0] at hk
  exact some_ne_none _ hk

theorem Counts.isEmpty (h : m.Counts c) (hc : ∀ k, c k = 0) : m.entries.isEmpty = true := by
  refine isEmpty_iff.2 (eq_nil_iff_forall_not_mem.2 fun e he => ?_)
  have hlookup := mem_lookup_iff.2 he
  rw [h e.1, if_pos (hc e.1)] at hlookup
  cases hlookup

/-! ### A table of counters for each group -/

section Tallies

variable {P : Type} [DecidableEq P] {o : AList fun _ : P => Counters K} {d : P → K → Nat}

/-- The counters of a group, which has none at first. -/
def ofGroup (o : AList fun _ : P => Counters K) (p : P) : Counters K := (o.lookup p).getD ∅

/-- Every group has its numbers. -/
def Tallies (o : AList fun _ : P => Counters K) (d : P → K → Nat) : Prop :=
  ∀ p, (ofGroup o p).Counts (d p)

theorem tallies_empty : Tallies (∅ : AList fun _ : P => Counters K) fun _ _ => 0 := by
  intro p
  exact counts_empty

theorem Tallies.insert (h : Tallies o d) {p : P} {m : Counters K} (hm : m.Counts c) :
    Tallies (o.insert p m) (update d p c) := by
  intro q
  by_cases hq : q = p
  · subst hq
    rw [ofGroup, lookup_insert, update_self]
    exact hm
  · rw [ofGroup, lookup_insert_ne hq, update_of_ne hq]
    exact h q

/-- A group that counts nothing can be forgotten. -/
theorem Tallies.erase (h : Tallies o d) {p : P} (hp : ∀ k, d p k = 0) : Tallies (o.erase p) d := by
  intro q
  by_cases hq : q = p
  · subst hq
    rw [ofGroup, lookup_erase, getD_none]
    intro k
    rw [hp k, if_pos rfl, lookup_empty]
  · rw [ofGroup, lookup_erase_ne hq]
    exact h q

end Tallies

end Counters

/-- How many of the objects have this key. -/
def uses {K I : Type} [DecidableEq K] (key : I → K) (xs : List I) (k : K) : Nat :=
  xs.countP fun x => decide (key x = k)

section Uses

variable {K I : Type} [DecidableEq K] {key : I → K}

theorem uses_ne_zero_iff {xs : List I} {k : K} : uses key xs k ≠ 0 ↔ ∃ x ∈ xs, key x = k := by
  simp only [uses, ne_eq, countP_eq_zero, decide_eq_true_eq, not_forall, not_not, exists_prop]

theorem uses_insert (xs ys : List I) (x : I) :
    uses key (xs ++ x :: ys) =
      update (uses key (xs ++ ys)) (key x) (uses key (xs ++ ys) (key x) + 1) := by
  funext k
  by_cases hk : key x = k
  · subst hk
    simp only [uses, update_self, countP_append, countP_cons, decide_true,
      if_true]
    omega
  · rw [update_of_ne (Ne.symm hk)]
    simp [uses, countP_append, hk]

theorem uses_remove (xs ys : List I) (x : I) :
    uses key (xs ++ ys) =
      update (uses key (xs ++ x :: ys)) (key x) (uses key (xs ++ x :: ys) (key x) - 1) := by
  rw [uses_insert, update_self, Nat.add_sub_cancel, update_idem,
    update_eq_self]

end Uses

/-- An object for each key that is in use, and how often it is in use. -/
structure Index (K I : Type) where
  table : AList fun _ : K => I
  counts : Counters K

namespace Index

variable {K I : Type} [DecidableEq K] {ix : Index K I} {key : I → K} {xs ys : List I} {x : I}

def empty : Index K I := ⟨∅, ∅⟩

/-- One more user of the key, and its object is the one that is found now. -/
def attach (ix : Index K I) (k : K) (x : I) : Index K I :=
  ⟨ix.table.insert k x, ix.counts.acquire k⟩

/-- One user less; the last one takes the object along. -/
def detach (ix : Index K I) (k : K) : Index K I :=
  match ix.counts.lookup k with
  | none => ix
  | some n =>
    if n ≤ 1 then ⟨ix.table.erase k, ix.counts.erase k⟩
    else ⟨ix.table, ix.counts.insert k (n - 1)⟩

theorem counts_detach (ix : Index K I) (k : K) : (ix.detach k).counts = ix.counts.release k := by
  rw [detach, Counters.release]
  split
  · rfl
  · split <;> rfl

/-- The index knows how often each key is in use, and has an object for the keys that are. -/
structure Tracks (ix : Index K I) (key : I → K) (xs : List I) : Prop where
  counts : ix.counts.Counts (uses key xs)
  table : ∀ k, k ∈ ix.table ↔ uses key xs k ≠ 0

theorem tracks_empty : (empty : Index K I).Tracks key [] :=
  ⟨Counters.counts_empty, fun k => iff_of_false (notMem_empty k) (not_not.2 rfl)⟩

theorem Tracks.attach (h : ix.Tracks key xs) (x : I) :
    (ix.attach (key x) x).Tracks key (xs ++ [x]) where
  counts := by
    rw [uses_insert, append_nil]
    exact h.counts.acquire _
  table k := by
    rw [uses_insert, append_nil, Index.attach, mem_insert, h.table]
    by_cases hk : k = key x
    · subst hk
      rw [update_self]
      exact iff_of_true (.inl rfl) (Nat.succ_ne_zero _)
    · rw [update_of_ne hk, or_iff_right hk]

/-- What detaching does to the table: the key goes if nobody else uses it. -/
theorem Tracks.table_detach (h : ix.Tracks key (xs ++ x :: ys)) :
    (ix.detach (key x)).table =
      if uses key (xs ++ ys) (key x) = 0 then ix.table.erase (key x) else ix.table := by
  have hx : uses key (xs ++ x :: ys) (key x) = uses key (xs ++ ys) (key x) + 1 := by
    rw [uses_insert, update_self]
  rw [detach, h.counts, hx, if_neg (Nat.succ_ne_zero _)]
  dsimp only
  by_cases h0 : uses key (xs ++ ys) (key x) = 0
  · rw [if_pos h0, if_pos (by omega)]
  · rw [if_neg h0, if_neg (by omega)]

theorem Tracks.detach (h : ix.Tracks key (xs ++ x :: ys)) :
    (ix.detach (key x)).Tracks key (xs ++ ys) where
  counts := by
    rw [counts_detach, uses_remove xs ys x]
    exact h.counts.release (uses_ne_zero_iff.2 ⟨x, mem_append_cons_self, rfl⟩)
  table k := by
    have hk := h.table k
    rw [h.table_detach]
    rw [uses_insert] at hk
    by_cases hkx : k = key x
    · subst hkx
      split_ifs with h0
      · rw [mem_erase]
        exact iff_of_false (fun hm => hm.1 rfl) (not_not.2 h0)
      · rw [hk, update_self]
        exact iff_of_true (Nat.succ_ne_zero _) h0
    · rw [update_of_ne hkx] at hk
      rw [← hk]
      split
      · rw [mem_erase, and_iff_right hkx]
      · rfl

/-- From its key each of the objects is found. -/
def Finds (ix : Index K I) (key : I → K) (xs : List I) : Prop :=
  ∀ x ∈ xs, ix.table.lookup (key x) = some x

/-- **Attaching takes that the objects in use with the same key are the same.** -/
theorem Finds.attach_iff (h : ix.Finds key xs) :
    (ix.attach (key x) x).Finds key (xs ++ [x]) ↔ ∀ y ∈ xs, key y = key x → y = x := by
  constructor
  · intro hf y hy hyx
    have hfind := hf y (mem_append_left _ hy)
    rw [hyx, attach, lookup_insert] at hfind
    exact (some.inj hfind).symm
  · intro hagree y hy
    rw [attach]
    by_cases hyx : key y = key x
    · rcases mem_append.1 hy with hy | hy
      · rw [hyx, lookup_insert, hagree y hy hyx]
      · rw [hyx, lookup_insert, mem_singleton.1 hy]
    rcases mem_append.1 hy with hy | hy
    · rw [lookup_insert_ne hyx, h y hy]
    · exact absurd (congrArg key (mem_singleton.1 hy)) hyx

/-- Detaching takes nothing. -/
theorem Finds.detach (h : ix.Finds key (xs ++ x :: ys)) (ht : ix.Tracks key (xs ++ x :: ys)) :
    (ix.detach (key x)).Finds key (xs ++ ys) := by
  intro y hy
  have hfind : ix.table.lookup (key y) = some y := by
    refine h y ?_
    simp only [mem_append, mem_cons] at hy ⊢
    exact hy.imp_right Or.inr
  rw [ht.table_detach]
  split_ifs with h0
  · -- the last user's key is not this one's
    have hne : key y ≠ key x := fun hyx => uses_ne_zero_iff.2 ⟨y, hy, hyx⟩ h0
    rw [lookup_erase_ne hne, hfind]
  · exact hfind

end Index

end Krust.Lib
