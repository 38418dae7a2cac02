import Mathlib.Data.List.Basic

/-!
# Tables of tables

A key is a row of indices.  It is looked up in a table: at its first index there is nothing, or a
leaf, or another table in which the rest of the key is looked up.  Which it is may depend on how
deep the table is, so `Look` has the depth as an argument; every entry that is found has a label,
and `find` returns the labels on the way to the leaf.

Tables may be shared between several roots.  `Owns` says which of the tables below a root belong to
this root alone: each of them is reached on one path only, and all others are common tables, below
which everything is common.  A table that is owned can then be changed, and only what lies behind
the changed entry is affected:

* `Owns.copy` replaces a common table by an owned copy, and no key is found elsewhere after it
  (`Owns.find_copy`);
* `Owns.setLeaf` changes an entry that does not lead to a table, and only the keys that go through
  this entry are affected (`Owns.find_setLeaf`).
-/

set_option autoImplicit false

namespace Krust.Lib

open List Option

variable {τ ι ε : Type}

/-- What stands in a table of a certain depth at an index: a label, and the table that it leads to
unless it is a leaf. -/
abbrev Look (τ ι ε : Type) : Type := Nat → τ → ι → Option (ε × Option τ)

/-- The labels on the way to the leaf of a key. -/
def find (look : Look τ ι ε) : Nat → τ → List ι → Option (List ε)
  | _, _, [] => none
  | d, t, i :: is =>
    match look d t i with
    | none => none
    | some (e, none) => some [e]
    | some (e, some u) => (find look (d + 1) u is).map (e :: ·)

/-- The leaf at the end of a way, and how deep it is. -/
def leafOf (path : List ε) : Nat × Option ε := (path.length, path.getLast?)

/-- A table is reached from a root on a path; its last index comes first. -/
inductive Reach (look : Look τ ι ε) (root : τ) : List ι → τ → Prop
  | root : Reach look root [] root
  | step {is : List ι} {t u : τ} {i : ι} {e : ε} (h : Reach look root is t)
      (hlook : look is.length t i = some (e, some u)) : Reach look root (i :: is) u

variable {look look' : Look τ ι ε} {root t u : τ} {is js : List ι}

theorem Reach.unique (h : Reach look root is t) (h' : Reach look root is u) : t = u := by
  induction h generalizing u with
  | root => cases h'; rfl
  | step _ hlook ih =>
    cases h' with
    | step h' hlook' =>
      cases ih h'
      rw [hlook] at hlook'
      cases hlook'
      rfl

/-! ## Owned and common tables -/

/-- **The tables below a root**: those in `own` belong to it alone, the others are common.  Every
entry that leads to an owned table has a good label. -/
structure Owns (look : Look τ ι ε) (root : τ) (own : List τ) (common : Nat → τ → Prop)
    (good : ε → Prop) : Prop where
  root_mem : root ∈ own
  reach : ∀ is t, Reach look root is t → t ∈ own ∨ common is.length t
  unique : ∀ is js t, Reach look root is t → Reach look root js t → t ∈ own → is = js
  closed : ∀ d t i e u, common d t → look d t i = some (e, some u) → common (d + 1) u
  apart : ∀ d t, common d t → t ∉ own
  label : ∀ is t i e u, Reach look root is t → look is.length t i = some (e, some u) → u ∈ own →
    good e

variable {path : List ε} {key : List ι} {d : Nat} {e : ε} {j : ι}

namespace Owns

variable {own own' : List τ} {common : Nat → τ → Prop} {good : ε → Prop}

section Congr

variable (h : Owns look root own common good)
  (hlook : ∀ d t i, t ∈ own ∨ common d t → look' d t i = look d t i)

include h hlook

/-- Nothing has changed in the tables below the root, so the same tables are reached. -/
theorem reach_congr : Reach look' root is t ↔ Reach look root is t := by
  constructor
  · intro ht
    induction ht with
    | root => exact .root
    | step _ he ih =>
      rw [hlook _ _ _ (h.reach _ _ ih)] at he
      exact .step ih he
  · intro ht
    induction ht with
    | root => exact .root
    | step hreach he ih =>
      rw [← hlook _ _ _ (h.reach _ _ hreach)] at he
      exact .step ih he

theorem congr : Owns look' root own common good := by
  have hreach : ∀ is t, Reach look' root is t → Reach look root is t :=
    fun _ _ => (h.reach_congr hlook).1
  refine ⟨h.root_mem, fun is t ht => h.reach is t (hreach is t ht), fun is js t ht ht' =>
    h.unique is js t (hreach is t ht) (hreach js t ht'), fun d t i e u ht he => ?_, h.apart,
    fun is t i e u ht he hu => ?_⟩
  · rw [hlook d t i (.inr ht)] at he
    exact h.closed d t i e u ht he
  · rw [hlook _ t i (h.reach is t (hreach is t ht))] at he
    exact h.label is t i e u (hreach is t ht) he hu

theorem find_congr (key : List ι) : find look' 0 root key = find look 0 root key := by
  suffices hgen : ∀ js u, Reach look root js u →
      find look' js.length u key = find look js.length u key from hgen [] root .root
  induction key with
  | nil => intros; rfl
  | cons i key ih =>
    intro js u hu
    rw [find, find, hlook _ _ _ (h.reach js u hu)]
    rcases he : look js.length u i with _ | ⟨e, _ | v⟩
    · rfl
    · rfl
    have hrest := ih (i :: js) v (.step hu he)
    rw [length_cons] at hrest
    simp only [hrest]

end Congr

/-- Only which tables are owned matters. -/
theorem mem_congr (h : Owns look root own common good) (hown : ∀ t, t ∈ own' ↔ t ∈ own) :
    Owns look root own' common good := by
  refine ⟨(hown root).2 h.root_mem, fun is t ht => (h.reach is t ht).imp_left (hown t).2,
    fun is js t ht ht' hmem => h.unique is js t ht ht' ((hown t).1 hmem), h.closed,
    fun d t ht hmem => h.apart d t ht ((hown t).1 hmem),
    fun is t i e u ht he hu => h.label is t i e u ht he ((hown u).1 hu)⟩

/-- On the way to an owned table all tables are owned. -/
theorem mem_of_step (h : Owns look root own common good) {i : ι} (ht : Reach look root is t)
    (he : look is.length t i = some (e, some u)) (hu : u ∈ own) : t ∈ own := by
  rcases h.reach is t ht with hown | hcommon
  · exact hown
  · exact absurd hu (h.apart _ _ (h.closed _ _ _ _ _ hcommon he))

/-! ## A root of its own -/

/-- **A new root** with the entries of a common table. -/
theorem ofCopy (hroot : root ∈ own)
    (hclosed : ∀ d t i e u, common d t → look d t i = some (e, some u) → common (d + 1) u)
    (hapart : ∀ d t, common d t → t ∉ own)
    (hcopy : ∀ i e u, look 0 root i = some (e, some u) → common 1 u) :
    Owns look root own common good := by
  have hreach : ∀ is t, Reach look root is t → (is = [] ∧ t = root) ∨ common is.length t := by
    intro is t ht
    induction ht with
    | root => exact .inl ⟨rfl, rfl⟩
    | step _ he ih =>
      rcases ih with ⟨rfl, rfl⟩ | hcommon
      · exact .inr (hcopy _ _ _ he)
      · exact .inr (hclosed _ _ _ _ _ hcommon he)
  refine ⟨hroot, fun is t ht => ?_, fun is js t ht ht' hmem => ?_, hclosed, hapart,
    fun is t i e u ht he hu => ?_⟩
  · rcases hreach is t ht with ⟨-, rfl⟩ | hcommon
    · exact .inl hroot
    · exact .inr hcommon
  · rcases hreach is t ht with ⟨rfl, -⟩ | hcommon
    · rcases hreach js t ht' with ⟨rfl, -⟩ | hcommon
      · rfl
      · exact absurd hmem (hapart _ _ hcommon)
    · exact absurd hmem (hapart _ _ hcommon)
  · rcases hreach _ u (.step ht he) with ⟨hnil, -⟩ | hcommon
    · cases hnil
    · exact absurd hu (hapart _ _ hcommon)

end Owns

section Common

variable {common : Nat → τ → Prop}

/-- Below a common table keys are found as before if the common tables are as before. -/
theorem find_common
    (hclosed : ∀ d t i e u, common d t → look d t i = some (e, some u) → common (d + 1) u)
    (hlook : ∀ d t i, common d t → look' d t i = look d t i) (ht : common d t) (key : List ι) :
    find look' d t key = find look d t key := by
  induction key generalizing d t with
  | nil => rfl
  | cons i key ih =>
    rw [find, find, hlook d t i ht]
    rcases he : look d t i with _ | ⟨e, _ | u⟩
    · rfl
    · rfl
    · simp only [ih (hclosed d t i e u ht he)]

end Common

theorem find_ne_nil (h : find look d t key = some path) : path ≠ [] := by
  rcases key with _ | ⟨i, key⟩
  · cases h
  rw [find] at h
  split at h
  · cases h
  · cases h
    exact cons_ne_nil _ _
  · obtain ⟨rest, -, rfl⟩ := map_eq_some_iff.1 h
    exact cons_ne_nil _ _

theorem leafOf_cons (e : ε) (h : path ≠ []) :
    leafOf (e :: path) = ((leafOf path).1 + 1, (leafOf path).2) := by
  rw [leafOf, leafOf, length_cons, getLast?_cons_of_ne_nil h]

/-- Another label on the way does not change the leaf. -/
theorem map_leafOf_cons (e e' : ε) :
    ((find look d t key).map (e :: ·)).map leafOf =
      ((find look d t key).map (e' :: ·)).map leafOf := by
  cases hpath : find look d t key with
  | none => rfl
  | some path =>
    have hne := find_ne_nil hpath
    simp only [map_some, leafOf_cons e hne, leafOf_cons e' hne]

/-! ## A table of its own -/

/-- In the table `t`, which is owned and reached on the path `is`, the entry at `i` gets the new
table `p`: an empty one where there was nothing, and else a copy of the common table there. -/
structure Copies (look look' : Look τ ι ε) (root : τ) (own : List τ) (common : Nat → τ → Prop)
    (good : ε → Prop) (is : List ι) (t : τ) (i : ι) (p : τ) : Prop where
  reach : Reach look root is t
  mem : t ∈ own
  fresh : p ∉ own
  fresh' : ∀ d, ¬ common d p
  new : ∃ e, look' is.length t i = some (e, some p) ∧ good e
  old : (look is.length t i = none ∧ ∀ j, look' (is.length + 1) p j = none) ∨
    ∃ e o, look is.length t i = some (e, some o) ∧ common (is.length + 1) o ∧
      ∀ j, look' (is.length + 1) p j = look (is.length + 1) o j
  same : ∀ d u j, u ∈ own ∨ common d u → (u, j) ≠ (t, i) → look' d u j = look d u j

namespace Copies

variable {own : List τ} {common : Nat → τ → Prop} {good : ε → Prop} {i : ι} {p : τ}

/-- Only the changed entry is behind itself. -/
theorem not_suffix_cons (hcopy : Copies look look' root own common good is t i p)
    (hu : Reach look root js u) (hne : (u, j) ≠ (t, i)) (hjs : ¬ (i :: is) <:+ js) :
    ¬ (i :: is) <:+ j :: js := by
  intro hsuffix
  rcases suffix_cons_iff.1 hsuffix with heq | hsuffix
  · cases heq
    exact hne (by rw [hu.unique hcopy.reach])
  · exact hjs hsuffix

variable (h : Owns look root own common good)
  (hcopy : Copies look look' root own common good is t i p)
include h hcopy

theorem same_common {u : τ} (j : ι) (hu : common d u) : look' d u j = look d u j := by
  refine hcopy.same d u j (.inr hu) fun heq => ?_
  cases heq
  exact h.apart d t hu hcopy.mem

/-- Behind the new table everything is common. -/
theorem common_of_new (he : look' (is.length + 1) p j = some (e, some u)) :
    common (is.length + 2) u := by
  rcases hcopy.old with ⟨-, hempty⟩ | ⟨e0, o, -, hcommon, hrow⟩
  · rw [hempty j] at he
    cases he
  · rw [hrow j] at he
    exact h.closed _ _ _ _ _ hcommon he

/-- Which tables are reached afterwards. -/
theorem reach_cases (hu : Reach look' root js u) :
    (¬ (i :: is) <:+ js ∧ Reach look root js u) ∨ (js = i :: is ∧ u = p) ∨
      (common js.length u) := by
  induction hu with
  | root => exact .inl ⟨by simp, .root⟩
  | @step js u v j e _ he ih =>
    rcases ih with ⟨hjs, hreach⟩ | ⟨rfl, rfl⟩ | hcommon
    · by_cases heq : (u, j) = (t, i)
      · cases heq
        obtain ⟨e', hnew, -⟩ := hcopy.new
        cases h.unique js is t hreach hcopy.reach hcopy.mem
        rw [hnew] at he
        cases he
        exact .inr (.inl ⟨rfl, rfl⟩)
      · rw [hcopy.same _ _ _ (h.reach js u hreach) heq] at he
        exact .inl ⟨hcopy.not_suffix_cons hreach heq hjs, .step hreach he⟩
    · exact .inr (.inr (hcopy.common_of_new h he))
    · rw [hcopy.same_common h _ hcommon] at he
      exact .inr (.inr (h.closed _ _ _ _ _ hcommon he))

/-- The tables that are not behind the entry are still reached. -/
theorem reach_of_not_suffix (hu : Reach look root js u) (hjs : ¬ (i :: is) <:+ js) :
    Reach look' root js u := by
  induction hu with
  | root => exact .root
  | @step js u v j e hreach he ih =>
    have hjs' : ¬ (i :: is) <:+ js := fun hsuffix => hjs (hsuffix.trans (suffix_cons j js))
    by_cases heq : (u, j) = (t, i)
    · cases heq
      cases h.unique js is t hreach hcopy.reach hcopy.mem
      exact absurd (suffix_refl _) hjs
    · rw [← hcopy.same _ _ _ (h.reach js u hreach) heq] at he
      exact .step (ih hjs') he

/-- An owned table is not behind the entry. -/
theorem reach_of_mem (hu : Reach look root js u) (hmem : u ∈ own) : Reach look' root js u := by
  induction hu with
  | root => exact .root
  | @step js u v j e hreach he ih =>
    have hmem' := h.mem_of_step hreach he hmem
    by_cases heq : (u, j) = (t, i)
    · cases heq
      cases h.unique js is t hreach hcopy.reach hcopy.mem
      rcases hcopy.old with ⟨hold, -⟩ | ⟨_, o, hold, hcommon, -⟩
      · cases hold.symm.trans he
      · cases hold.symm.trans he
        exact absurd hmem (h.apart _ _ hcommon)
    · rw [← hcopy.same _ _ _ (.inl hmem') heq] at he
      exact .step (ih hmem') he

theorem reach_new : Reach look' root (i :: is) p := by
  obtain ⟨e, hnew, -⟩ := hcopy.new
  refine .step (hcopy.reach_of_not_suffix h hcopy.reach fun hsuffix => ?_) hnew
  have := hsuffix.length_le
  rw [length_cons] at this
  omega

end Copies

namespace Owns

variable {own : List τ} {common : Nat → τ → Prop} {good : ε → Prop} {i : ι} {p : τ}

section Copy

variable (h : Owns look root own common good)
  (hcopy : Copies look look' root own common good is t i p)
include h hcopy

/-- **The new table is owned.** -/
theorem copy :
    Owns look' root (p :: own) common good := by
  have hapart : ∀ d u, common d u → u ∉ p :: own := by
    intro d u hu hmem
    rcases mem_cons.1 hmem with rfl | hmem
    · exact hcopy.fresh' d hu
    · exact h.apart d u hu hmem
  -- The new table was not reached before.
  have hnew : ∀ js, ¬ Reach look root js p := by
    intro js hp
    rcases h.reach js p hp with hmem | hcommon
    · exact hcopy.fresh hmem
    · exact hcopy.fresh' _ hcommon
  refine ⟨mem_cons_of_mem _ h.root_mem, fun js u hu => ?_, fun js ks u hu hu' hmem => ?_,
    fun d u j e v hu he => ?_, hapart, fun js u j e v hu he hv => ?_⟩
  · rcases hcopy.reach_cases h hu with ⟨-, hreach⟩ | ⟨-, rfl⟩ | hcommon
    · exact (h.reach js u hreach).imp_left (mem_cons_of_mem _)
    · exact .inl mem_cons_self
    · exact .inr hcommon
  · rcases hcopy.reach_cases h hu with ⟨-, hreach⟩ | ⟨rfl, rfl⟩ | hcommon
    · rcases hcopy.reach_cases h hu' with ⟨-, hreach'⟩ | ⟨-, rfl⟩ | hcommon
      · rcases mem_cons.1 hmem with rfl | hmem
        · exact absurd hreach (hnew js)
        · exact h.unique js ks u hreach hreach' hmem
      · exact absurd hreach (hnew js)
      · exact absurd hmem (hapart _ _ hcommon)
    · rcases hcopy.reach_cases h hu' with ⟨-, hreach'⟩ | ⟨rfl, -⟩ | hcommon
      · exact absurd hreach' (hnew ks)
      · rfl
      · exact absurd hmem (hapart _ _ hcommon)
    · exact absurd hmem (hapart _ _ hcommon)
  · rw [hcopy.same_common h j hu] at he
    exact h.closed d u j e v hu he
  · rcases hcopy.reach_cases h hu with ⟨-, hreach⟩ | ⟨rfl, rfl⟩ | hcommon
    · by_cases heq : (u, j) = (t, i)
      · cases heq
        cases h.unique js is t hreach hcopy.reach hcopy.mem
        obtain ⟨e', hlook, hgood⟩ := hcopy.new
        rw [hlook] at he
        cases he
        exact hgood
      · rw [hcopy.same _ _ _ (h.reach js u hreach) heq] at he
        rcases mem_cons.1 hv with rfl | hv
        · exact absurd (.step hreach he) (hnew _)
        · exact h.label js u j e v hreach he hv
    · exact absurd hv (hapart _ _ (hcopy.common_of_new h he))
    · rw [hcopy.same_common h j hcommon] at he
      exact absurd hv (hapart _ _ (h.closed _ _ _ _ _ hcommon he))

/-- **A copy changes no leaf.** -/
theorem find_copy (key : List ι) :
    (find look' 0 root key).map leafOf = (find look 0 root key).map leafOf := by
  -- The tables on the way are those from before, up to the entry that has changed.
  suffices hgen : ∀ js u, Reach look root js u → ¬ (i :: is) <:+ js →
      (find look' js.length u key).map leafOf = (find look js.length u key).map leafOf from
    hgen [] root .root (by simp)
  induction key with
  | nil => intros; rfl
  | cons j key ih =>
    intro js u hu hjs
    by_cases heq : (u, j) = (t, i)
    · cases heq
      cases h.unique js is t hu hcopy.reach hcopy.mem
      obtain ⟨e', hnew, -⟩ := hcopy.new
      rw [find, find, hnew]
      rcases hcopy.old with ⟨hold, hempty⟩ | ⟨e, o, hold, hcommon, hrow⟩
      · rw [hold]
        have hnone : find look' (is.length + 1) p key = none := by
          cases key with
          | nil => rfl
          | cons k key => rw [find, hempty k]
        simp only [hnone, map_none]
      · rw [hold]
        have hsame : find look' (is.length + 1) p key = find look (is.length + 1) o key := by
          rcases key with _ | ⟨k, key⟩
          · rfl
          rw [find, find, hrow k]
          rcases hk : look (is.length + 1) o k with _ | ⟨e1, _ | v⟩
          · rfl
          · rfl
          · simp only [find_common h.closed (fun d t i ht => hcopy.same_common h i ht)
              (h.closed _ _ _ _ _ hcommon hk)]
        simp only [hsame]
        exact map_leafOf_cons e' e
    · rw [find, find, hcopy.same _ _ _ (h.reach js u hu) heq]
      rcases he : look js.length u j with _ | ⟨e, _ | v⟩
      · rfl
      · rfl
      have hrest := ih (j :: js) v (.step hu he) (hcopy.not_suffix_cons hu heq hjs)
      rw [length_cons] at hrest
      simp only
      rcases hpath : find look (js.length + 1) v key with _ | path
      · rw [hpath, map_none, map_eq_none_iff] at hrest
        rw [hrest]
      rw [hpath, map_some, map_eq_some_iff] at hrest
      obtain ⟨path', hpath', hleaf⟩ := hrest
      rw [hpath', map_some, map_some, map_some, map_some,
        leafOf_cons e (find_ne_nil hpath'), leafOf_cons e (find_ne_nil hpath), hleaf]

end Copy

end Owns

/-! ## Another leaf -/

/-- In the table `t`, which is owned and reached on the path `is`, the entry at `i` is changed; it
leads to no table, before and after. -/
structure SetsLeaf (look look' : Look τ ι ε) (root : τ) (own : List τ) (common : Nat → τ → Prop)
    (is : List ι) (t : τ) (i : ι) : Prop where
  reach : Reach look root is t
  mem : t ∈ own
  old : ∀ e u, look is.length t i ≠ some (e, some u)
  new : ∀ e u, look' is.length t i ≠ some (e, some u)
  same : ∀ d u j, u ∈ own ∨ common d u → (u, j) ≠ (t, i) → look' d u j = look d u j

namespace Owns

variable {own : List τ} {common : Nat → τ → Prop} {good : ε → Prop} {i : ι}

variable (h : Owns look root own common good)
  (hset : SetsLeaf look look' root own common is t i)
include h hset

/-- An entry that leads to a table is not the one that has changed. -/
theorem look_setLeaf {v : τ} (hu : Reach look root js u) :
    look' js.length u j = some (e, some v) ↔ look js.length u j = some (e, some v) := by
  by_cases heq : (u, j) = (t, i)
  · cases heq
    cases h.unique js is t hu hset.reach hset.mem
    exact iff_of_false (hset.new e v) (hset.old e v)
  · rw [hset.same _ _ _ (h.reach js u hu) heq]

theorem reach_setLeaf : Reach look' root js u ↔ Reach look root js u := by
  constructor
  · intro hu
    induction hu with
    | root => exact .root
    | step _ he ih => exact .step ih ((h.look_setLeaf hset ih).1 he)
  · intro hu
    induction hu with
    | root => exact .root
    | step hreach he ih => exact .step ih ((h.look_setLeaf hset hreach).2 he)

theorem setLeaf : Owns look' root own common good := by
  refine ⟨h.root_mem, fun js u hu => h.reach js u ((h.reach_setLeaf hset).1 hu),
    fun js ks u hu hu' => h.unique js ks u ((h.reach_setLeaf hset).1 hu)
      ((h.reach_setLeaf hset).1 hu'), fun d u j e v hu he => ?_, h.apart,
    fun js u j e v hu he => ?_⟩
  · rw [hset.same d u j (.inr hu)] at he
    · exact h.closed d u j e v hu he
    · intro heq
      cases heq
      exact h.apart d t hu hset.mem
  · have hreach := (h.reach_setLeaf hset).1 hu
    exact h.label js u j e v hreach ((h.look_setLeaf hset hreach).1 he)

/-- **Only the keys that go through the entry are affected.** -/
theorem find_setLeaf (hkey : ¬ is.reverse ++ [i] <+: key) :
    find look' 0 root key = find look 0 root key := by
  suffices hgen : ∀ js u, Reach look root js u → ¬ is.reverse ++ [i] <+: js.reverse ++ key →
      find look' js.length u key = find look js.length u key from hgen [] root .root hkey
  clear hkey
  induction key with
  | nil => intros; rfl
  | cons j key ih =>
    intro js u hu hkey
    have hne : (u, j) ≠ (t, i) := by
      intro heq
      cases heq
      cases h.unique js is t hu hset.reach hset.mem
      exact hkey ⟨key, by simp⟩
    rw [find, find, hset.same _ _ _ (h.reach js u hu) hne]
    rcases he : look js.length u j with _ | ⟨e, _ | v⟩
    · rfl
    · rfl
    have hrest := ih (j :: js) v (.step hu he) (by simpa using hkey)
    rw [length_cons] at hrest
    simp only [hrest]

end Owns

end Krust.Lib
