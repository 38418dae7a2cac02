import Krust.Lib.Runs
import Mathlib.Algebra.GroupWithZero.Nat
import Mathlib.Order.Bounds.Basic

/-!
# File descriptor tables

A table of slots that are empty or hold a value with its flags; a descriptor is the number of a
slot.  What a table is for: it maps descriptors to a value and a bit, which says whether the
descriptor is to be closed by `exec`.  `Spec` says what each operation does to such a map and what
it returns, without slots: `insert` and `duplicate` take the least free number that is allowed,
`close_on_exec` removes what has the bit and returns it in ascending order.

A table stands for a map (`abs`), in which the bit is the lowest one of the flags.  The flags of a
table that was filled by the operations have no other bits (`Masked`), and then every operation does
what is specified (`table_refines_map`).
-/

set_option autoImplicit false

namespace Krust.Process

open Lib List Function

/-! ## The table -/

section Table

def FD_CLOEXEC : Nat := 1

def O_CLOEXEC : Nat := 0x80000

/-- `fd_table::Entry`. -/
structure Entry (T : Type) where
  value : T
  flags : Nat

structure FdTable (T : Type) where
  slots : List (Option (Entry T))

namespace FdTable

variable {T : Type} (t : FdTable T)

def empty : FdTable T := ⟨[]⟩

/-- What a slot holds; there is nothing past the end. -/
def slot (fd : Nat) : Option (Entry T) := t.slots.getD fd none

def get (fd : Nat) : Option T := (t.slot fd).map (·.value)

def insertAt (fd : Nat) (value : T) (flags : Nat) : FdTable T :=
  ⟨(t.slots ++ List.replicate (fd + 1 - t.slots.length) none).set fd
    (some ⟨value, flags &&& FD_CLOEXEC⟩)⟩

def insertFrom (min : Nat) (value : T) (flags : Nat) : Nat × FdTable T :=
  let fd := ((List.range' min (t.slots.length - min)).find? fun fd => (t.slot fd).isNone).getD
    (max t.slots.length min)
  (fd, t.insertAt fd value flags)

def insert (value : T) (flags : Nat) : Nat × FdTable T := t.insertFrom 0 value flags

def flags (fd : Nat) : Except Int Nat :=
  match t.slot fd with
  | none => .error (-9)
  | some entry => .ok entry.flags

def setFlags (fd flags : Nat) : Except Int Unit × FdTable T :=
  match t.slot fd with
  | none => (.error (-9), t)
  | some entry =>
    (.ok (), ⟨t.slots.set fd (some { entry with flags := flags &&& FD_CLOEXEC })⟩)

def iter : List (Nat × T) :=
  t.slots.zipIdx.filterMap fun (slot, fd) => slot.map fun entry => (fd, entry.value)

def closeSlots : List (Option (Entry T)) → List T × List (Option (Entry T))
  | [] => ([], [])
  | none :: slots =>
    let (closed, slots) := closeSlots slots
    (closed, none :: slots)
  | some entry :: slots =>
    let (closed, slots) := closeSlots slots
    if entry.flags &&& FD_CLOEXEC ≠ 0 then (entry.value :: closed, none :: slots)
    else (closed, some entry :: slots)

def closeOnExec : List T × FdTable T :=
  let (closed, slots) := closeSlots t.slots
  (closed, ⟨slots⟩)

def remove (fd : Nat) : Option T × FdTable T := (t.get fd, ⟨t.slots.set fd none⟩)

def duplicate (fd min : Nat) (cloexec : Bool) : Except Int Nat × FdTable T :=
  match t.get fd with
  | none => (.error (-9), t)
  | some value =>
    if 2 ^ 31 - 1 < min then (.error (-22), t)
    else
      let (newFd, t) := t.insertFrom min value (if cloexec then FD_CLOEXEC else 0)
      (.ok newFd, t)

/-! ## What the operations do -/

theorem slot_insertAt (fd : Nat) (value : T) (flags other : Nat) :
    (t.insertAt fd value flags).slot other =
      if other = fd then some ⟨value, flags &&& FD_CLOEXEC⟩ else t.slot other := by
  rw [slot, insertAt, getD_eq_getElem?_getD, getElem?_set]
  by_cases h : fd = other
  · subst h
    have hlt : fd < (t.slots ++ replicate (fd + 1 - t.slots.length) none).length := by
      rw [length_append, length_replicate]
      omega
    rw [if_pos rfl, if_pos hlt, if_pos rfl]
    rfl
  · rw [if_neg h, if_neg (Ne.symm h), slot, getElem?_append, getD_eq_getElem?_getD]
    split_ifs with hlen
    · rfl
    rw [getElem?_replicate, getElem?_eq_none (Nat.le_of_not_lt hlen)]
    split <;> rfl

theorem slot_set (fd : Nat) (entry : Option (Entry T)) (other : Nat)
    (h : fd < t.slots.length ∨ entry = none) :
    slot ⟨t.slots.set fd entry⟩ other = if other = fd then entry else t.slot other := by
  rw [slot, getD_eq_getElem?_getD, getElem?_set]
  by_cases heq : fd = other
  · subst heq
    rw [if_pos rfl, if_pos rfl]
    rcases h with h | rfl
    · rw [if_pos h]
      rfl
    · split <;> rfl
  · rw [if_neg heq, if_neg (Ne.symm heq), slot, getD_eq_getElem?_getD]

theorem get_insertAt (fd : Nat) (value : T) (flags other : Nat) :
    (t.insertAt fd value flags).get other = if other = fd then some value else t.get other := by
  rw [get, slot_insertAt]
  split <;> rfl

theorem get_remove (fd other : Nat) :
    (t.remove fd).2.get other = if other = fd then none else t.get other := by
  rw [get, remove, slot_set t fd none other (.inr rfl)]
  split <;> rfl

variable {min other : Nat} {v : T}

/-- Whatever is in the table after an insertion was in it or is the new value. -/
theorem mem_insertFrom {value : T} {flags : Nat}
    (h : (t.insertFrom min value flags).2.get other = some v) :
    v = value ∨ ∃ fd, t.get fd = some v := by
  rw [insertFrom, get_insertAt] at h
  split at h
  · exact .inl (Option.some.inj h).symm
  · exact .inr ⟨other, h⟩

theorem mem_remove {fd : Nat} (h : (t.remove fd).2.get other = some v) :
    t.get other = some v := by
  rw [get_remove] at h
  split at h
  · cases h
  · exact h

theorem mem_duplicate {fd : Nat} {cloexec : Bool}
    (h : (t.duplicate fd min cloexec).2.get other = some v) : ∃ fd, t.get fd = some v := by
  rw [duplicate] at h
  rcases hfd : t.get fd with _ | value
  · rw [hfd] at h
    exact ⟨other, h⟩
  rw [hfd] at h
  dsimp only at h
  split at h
  · exact ⟨other, h⟩
  rcases t.mem_insertFrom h with rfl | hother
  · exact ⟨fd, hfd⟩
  · exact hother

end FdTable

end Table

variable {fd : Nat}

section Map

variable {T : Type}

/-! ## The specification -/

/-- Values and close-on-exec bits by descriptor. -/
abbrev FdMap (T : Type) : Type := Nat → Option (T × Bool)

def flagsOfBit (bit : Bool) : Nat := if bit then FD_CLOEXEC else 0

/-- The lowest bit of a number. -/
def bitOfFlags (flags : Nat) : Bool := flags.testBit 0

inductive FdOp (T : Type)
  | insert (value : T) (flags : Nat)
  | insertAt (fd : Nat) (value : T) (flags : Nat)
  | get (fd : Nat)
  | flags (fd : Nat)
  | setFlags (fd flags : Nat)
  | remove (fd : Nat)
  | iter
  | closeOnExec
  | duplicate (fd min : Nat) (cloexec : Bool)

inductive FdResult (T : Type)
  | done
  | fd (fd : Nat)
  | flags (flags : Nat)
  | value (value : Option T)
  | values (values : List T)
  | entries (entries : List (Nat × T))
  | error (code : Int)

/-- The least descriptor from `min` on that is not in use. -/
def LeastFree (m : FdMap T) (min fd : Nat) : Prop := IsLeast { k | min ≤ k ∧ m k = none } fd

/-- **What an operation does to a map, and what it returns.** -/
def Spec (m : FdMap T) : FdOp T → FdResult T → FdMap T → Prop
  | .insert value flags, r, m' =>
    ∃ fd, LeastFree m 0 fd ∧ r = .fd fd ∧ m' = update m fd (some (value, bitOfFlags flags))
  | .insertAt fd value flags, r, m' =>
    r = .done ∧ m' = update m fd (some (value, bitOfFlags flags))
  | .get fd, r, m' => r = .value ((m fd).map Prod.fst) ∧ m' = m
  | .flags fd, r, m' =>
    m' = m ∧ match m fd with
      | none => r = .error (-9)
      | some (_, bit) => r = .flags (flagsOfBit bit)
  | .setFlags fd flags, r, m' =>
    match m fd with
    | none => r = .error (-9) ∧ m' = m
    | some (value, _) =>
      r = .done ∧ m' = update m fd (some (value, bitOfFlags flags))
  | .remove fd, r, m' => r = .value ((m fd).map Prod.fst) ∧ m' = update m fd none
  | .iter, r, m' =>
    ∃ fds : List Nat, fds.Pairwise (· < ·) ∧ (∀ k, k ∈ fds ↔ m k ≠ none) ∧
      r = .entries (fds.filterMap fun k => (m k).map fun entry => (k, entry.1)) ∧ m' = m
  | .closeOnExec, r, m' =>
    ∃ fds : List Nat, fds.Pairwise (· < ·) ∧ (∀ k, k ∈ fds ↔ ∃ value, m k = some (value, true)) ∧
      r = .values (fds.filterMap fun k => (m k).map Prod.fst) ∧
      m' = fun k => if k ∈ fds then none else m k
  | .duplicate fd min cloexec, r, m' =>
    match m fd with
    | none => r = .error (-9) ∧ m' = m
    | some (value, _) =>
      if 2 ^ 31 - 1 < min then r = .error (-22) ∧ m' = m
      else ∃ fd', LeastFree m min fd' ∧ r = .fd fd' ∧
        m' = update m fd' (some (value, cloexec))

/-! ## The table -/

namespace FdTable

def apply (t : FdTable T) : FdOp T → FdResult T × FdTable T
  | .insert value flags => let (fd, t) := t.insert value flags; (.fd fd, t)
  | .insertAt fd value flags => (.done, t.insertAt fd value flags)
  | .get fd => (.value (t.get fd), t)
  | .flags fd =>
    match t.flags fd with
    | .ok flags => (.flags flags, t)
    | .error e => (.error e, t)
  | .setFlags fd flags =>
    match t.setFlags fd flags with
    | (.ok (), t) => (.done, t)
    | (.error e, t) => (.error e, t)
  | .remove fd => let (value, t) := t.remove fd; (.value value, t)
  | .iter => (.entries t.iter, t)
  | .closeOnExec => let (values, t) := t.closeOnExec; (.values values, t)
  | .duplicate fd min cloexec =>
    match t.duplicate fd min cloexec with
    | (.ok fd, t) => (.fd fd, t)
    | (.error e, t) => (.error e, t)

def after (ops : List (FdOp T)) : FdTable T := runFrom (fun t op => (t.apply op).2) empty ops

/-- The map that a table stands for. -/
def abs (t : FdTable T) : FdMap T := fun fd =>
  (t.slot fd).map fun entry => (entry.value, bitOfFlags entry.flags)

/-! ## Bits -/

theorem bitOfFlags_and (flags : Nat) : bitOfFlags (flags &&& FD_CLOEXEC) = bitOfFlags flags := by
  rw [bitOfFlags, Nat.testBit_and]
  exact Bool.and_true _

theorem flagsOfBit_bitOfFlags (flags : Nat) :
    flagsOfBit (bitOfFlags flags) = flags &&& FD_CLOEXEC := by
  rw [flagsOfBit, bitOfFlags, FD_CLOEXEC]
  split <;> simp_all

theorem bitOfFlags_flagsOfBit (bit : Bool) : bitOfFlags (flagsOfBit bit) = bit := by
  cases bit <;> rfl

/-- The flags of every entry are one bit. -/
def Masked (t : FdTable T) : Prop :=
  ∀ fd entry, t.slot fd = some entry → entry.flags &&& FD_CLOEXEC = entry.flags

/-! ## Single slots -/

variable (t : FdTable T)

theorem abs_eq_none_iff (fd : Nat) : t.abs fd = none ↔ t.slot fd = none := Option.map_eq_none_iff

theorem map_fst_abs (fd : Nat) : (t.abs fd).map Prod.fst = t.get fd := by
  rw [abs, Option.map_map]
  rfl

theorem slot_of_length_le (h : t.slots.length ≤ fd) : t.slot fd = none := by
  rw [slot, getD_eq_getElem?_getD, getElem?_eq_none h]
  rfl

theorem lt_length_of_slot {entry : Entry T} (h : t.slot fd = some entry) : fd < t.slots.length := by
  by_contra hle
  rw [t.slot_of_length_le (Nat.le_of_not_lt hle)] at h
  cases h

variable {fd : Nat} {entry : Option (Entry T)}

theorem abs_of_slot {t' : FdTable T}
    (h : ∀ other, t'.slot other = if other = fd then entry else t.slot other) :
    t'.abs = update t.abs fd
      (entry.map fun entry => (entry.value, bitOfFlags entry.flags)) := by
  funext other
  rw [abs, h, update_apply]
  split <;> rfl

theorem abs_insertAt (fd : Nat) (value : T) (flags : Nat) :
    (t.insertAt fd value flags).abs =
      update t.abs fd (some (value, bitOfFlags flags)) := by
  rw [t.abs_of_slot (t.slot_insertAt fd value flags), Option.map_some, bitOfFlags_and]

/-- **The least free descriptor is taken.** -/
theorem leastFree_insertFrom (min : Nat) (value : T) (flags : Nat) :
    LeastFree t.abs min (t.insertFrom min value flags).1 := by
  rw [insertFrom]
  cases hfind : (range' min (t.slots.length - min)).find? fun fd => (t.slot fd).isNone with
  | some fd =>
    obtain ⟨hnone, hmem, hleast⟩ := find?_range'_eq_some.1 hfind
    rw [mem_range'_1] at hmem
    refine ⟨⟨hmem.1, (t.abs_eq_none_iff fd).2 (Option.isNone_iff_eq_none.1 hnone)⟩,
      fun k hk => Nat.le_of_not_lt fun hlt => ?_⟩
    have hused := hleast k hk.1 hlt
    rw [(t.abs_eq_none_iff k).1 hk.2] at hused
    cases hused
  | none =>
    rw [find?_range'_eq_none] at hfind
    refine ⟨⟨le_max_right _ _, (t.abs_eq_none_iff _).2
      (t.slot_of_length_le (le_max_left _ _))⟩, fun k hk => ?_⟩
    refine Nat.max_le.2 ⟨Nat.le_of_not_lt fun hlt => ?_, hk.1⟩
    have hused := hfind k hk.1 (by omega)
    rw [(t.abs_eq_none_iff k).1 hk.2] at hused
    cases hused

/-! ## All slots -/

theorem slots_eq : t.slots = (List.range t.slots.length).map t.slot := by
  refine ext_getElem (by simp) fun fd h h' => ?_
  simp [slot, h]

theorem zipIdx_slots :
    t.slots.zipIdx = (List.range t.slots.length).map fun fd => (t.slot fd, fd) := by
  refine ext_getElem (by simp) fun fd h h' => ?_
  rw [length_zipIdx] at h
  simp [slot, h]

def closes (slot : Option (Entry T)) : Bool :=
  slot.any fun entry => entry.flags &&& FD_CLOEXEC ≠ 0

theorem closeSlots_eq (slots : List (Option (Entry T))) :
    closeSlots slots =
      ((slots.filter closes).filterMap fun slot => slot.map (·.value),
        slots.map fun slot => if closes slot then none else slot) := by
  induction slots with
  | nil => rfl
  | cons slot slots ih =>
    rcases slot with _ | entry
    · rw [closeSlots, ih]; rfl
    rw [closeSlots, ih]
    by_cases h : entry.flags &&& FD_CLOEXEC = 0
    · simp [closes, h]
    · simp [closes, h]

theorem closes_iff (fd : Nat) :
    closes (t.slot fd) = true ↔ ∃ value, t.abs fd = some (value, true) := by
  rcases hslot : t.slot fd with _ | entry
  · simp [closes, abs, hslot]
  have hbit : (entry.flags &&& FD_CLOEXEC ≠ 0) ↔ bitOfFlags entry.flags = true := by
    rw [← flagsOfBit_bitOfFlags]
    cases bitOfFlags entry.flags <;> simp [flagsOfBit, FD_CLOEXEC]
  simp [closes, abs, hslot, ← hbit]

theorem pairwise_filter_range (n : Nat) (p : Nat → Bool) :
    ((List.range n).filter p).Pairwise (· < ·) :=
  pairwise_lt_range.filter p

theorem spec_iter : Spec t.abs .iter (.entries t.iter) t.abs := by
  refine ⟨(range t.slots.length).filter fun k => (t.slot k).isSome,
    pairwise_filter_range _ _, fun k => ?_, ?_, rfl⟩
  · rw [mem_filter, mem_range, Ne, abs_eq_none_iff, ← Ne, Option.ne_none_iff_isSome]
    refine and_iff_right_of_imp fun h => ?_
    obtain ⟨entry, hentry⟩ := Option.isSome_iff_exists.1 h
    exact t.lt_length_of_slot hentry
  · rw [iter, zipIdx_slots, filterMap_map, filterMap_filter]
    congr 2
    funext k
    cases hslot : t.slot k <;> simp [abs, hslot]

theorem spec_closeOnExec :
    Spec t.abs .closeOnExec (.values t.closeOnExec.1) t.closeOnExec.2.abs := by
  have hmem : ∀ k, k ∈ (range t.slots.length).filter (fun k => closes (t.slot k)) ↔
      closes (t.slot k) = true := by
    intro k
    rw [mem_filter, mem_range]
    refine and_iff_right_of_imp fun h => ?_
    obtain ⟨entry, hentry, -⟩ := (Option.any_eq_true _ _).1 h
    exact t.lt_length_of_slot hentry
  refine ⟨(range t.slots.length).filter fun k => closes (t.slot k),
    pairwise_filter_range _ _, fun k => (hmem k).trans (t.closes_iff k), ?_, ?_⟩
  · have hvalues : t.closeOnExec.1 = (t.slots.filter closes).filterMap fun slot =>
        slot.map (·.value) := by
      rw [closeOnExec, closeSlots_eq]
    rw [hvalues]
    nth_rewrite 1 [slots_eq]
    rw [filter_map, filterMap_map]
    simp only [map_fst_abs]
    rfl
  · funext k
    rw [closeOnExec, closeSlots_eq, abs, slot, getD_eq_getElem?_getD, getElem?_map]
    simp only [hmem]
    have hslot : t.slots[k]?.getD none = t.slot k := by rw [slot, getD_eq_getElem?_getD]
    rw [abs, ← hslot]
    cases t.slots[k]? with
    | none => rfl
    | some slot =>
      rw [Option.map_some, Option.getD_some, Option.getD_some]
      split <;> rfl

/-! ## Every operation -/

variable {t : FdTable T}

/-- **Every operation does what is specified.** -/
theorem spec_apply (ht : t.Masked) (op : FdOp T) :
    Spec t.abs op (t.apply op).1 (t.apply op).2.abs := by
  cases op with
  | insert value flags =>
    exact ⟨_, t.leastFree_insertFrom 0 value flags, rfl, t.abs_insertAt _ value flags⟩
  | insertAt fd value flags => exact ⟨rfl, t.abs_insertAt fd value flags⟩
  | get fd => exact ⟨congrArg _ (t.map_fst_abs fd).symm, rfl⟩
  | flags fd =>
    rw [Spec, apply, flags, abs]
    rcases hslot : t.slot fd with _ | entry
    · exact ⟨rfl, rfl⟩
    refine ⟨rfl, ?_⟩
    rw [Option.map_some]
    dsimp only
    rw [flagsOfBit_bitOfFlags, ht fd entry hslot]
  | setFlags fd flags =>
    rw [Spec, apply, setFlags, abs]
    rcases hslot : t.slot fd with _ | entry
    · exact ⟨rfl, rfl⟩
    refine ⟨rfl, ?_⟩
    rw [t.abs_of_slot (fun other => t.slot_set fd _ other (.inl (t.lt_length_of_slot hslot))),
      Option.map_some, bitOfFlags_and]
  | remove fd =>
    exact ⟨congrArg _ (t.map_fst_abs fd).symm,
      t.abs_of_slot (fun other => t.slot_set fd none other (.inr rfl))⟩
  | iter => exact t.spec_iter
  | closeOnExec => exact t.spec_closeOnExec
  | duplicate fd min cloexec =>
    rw [Spec, apply, duplicate, ← map_fst_abs]
    rcases t.abs fd with _ | entry
    · exact ⟨rfl, rfl⟩
    dsimp only [Option.map_some]
    split
    · exact ⟨rfl, rfl⟩
    refine ⟨_, t.leastFree_insertFrom min entry.1 (flagsOfBit cloexec), rfl, ?_⟩
    have h := t.abs_insertAt (t.insertFrom min entry.1 (flagsOfBit cloexec)).1 entry.1
      (flagsOfBit cloexec)
    rwa [bitOfFlags_flagsOfBit] at h

theorem masked_insertAt (ht : t.Masked) (fd : Nat) (value : T) (flags : Nat) :
    (t.insertAt fd value flags).Masked := by
  intro other entry h
  rw [slot_insertAt] at h
  split at h
  · cases h
    rw [Nat.and_assoc, Nat.and_self]
  · exact ht other entry h

theorem masked_set (ht : t.Masked) (hfd : fd < t.slots.length ∨ entry = none)
    (hentry : ∀ e, entry = some e → e.flags &&& FD_CLOEXEC = e.flags) :
    Masked ⟨t.slots.set fd entry⟩ := by
  intro other e h
  rw [t.slot_set fd entry other hfd] at h
  split at h
  · exact hentry e h
  · exact ht other e h

theorem masked_empty : (empty : FdTable T).Masked := by
  intro fd entry h
  have hnone : (empty : FdTable T).slot fd = none := slot_of_length_le _ (Nat.zero_le fd)
  cases hnone.symm.trans h

theorem Masked.apply (ht : t.Masked) (op : FdOp T) : (t.apply op).2.Masked := by
  cases op with
  | insert value flags => exact masked_insertAt ht _ value flags
  | insertAt fd value flags => exact masked_insertAt ht fd value flags
  | get fd => exact ht
  | flags fd =>
    rw [FdTable.apply]
    split <;> exact ht
  | setFlags fd flags =>
    rw [FdTable.apply, FdTable.setFlags]
    rcases hslot : t.slot fd with _ | entry
    · exact ht
    refine masked_set ht (.inl (t.lt_length_of_slot hslot)) fun e he => ?_
    cases he
    rw [Nat.and_assoc, Nat.and_self]
  | remove fd => exact masked_set ht (.inr rfl) nofun
  | iter => exact ht
  | closeOnExec =>
    intro fd entry h
    refine ht fd entry ?_
    rw [FdTable.apply, closeOnExec, closeSlots_eq] at h
    rw [slot, getD_eq_getElem?_getD, getElem?_map] at h
    rw [slot, getD_eq_getElem?_getD]
    rcases hslot : t.slots[fd]? with _ | slot
    · rw [hslot] at h; cases h
    rw [hslot, Option.map_some] at h
    split at h
    · cases h
    · exact h
  | duplicate fd min cloexec =>
    rw [FdTable.apply, FdTable.duplicate]
    rcases t.get fd with _ | value
    · exact ht
    by_cases hmin : 2 ^ 31 - 1 < min
    · simp only [if_pos hmin]
      exact ht
    · simp only [if_neg hmin]
      exact masked_insertAt ht _ value _

theorem apply_error {op : FdOp T} {code : Int} (h : (t.apply op).1 = .error code) :
    (t.apply op).2 = t := by
  cases op with
  | insert value flags => cases h
  | insertAt fd value flags => cases h
  | get fd => rfl
  | flags fd =>
    rw [apply]
    split <;> rfl
  | setFlags fd flags =>
    rw [apply, setFlags] at h ⊢
    cases hslot : t.slot fd with
    | none => rfl
    | some entry => rw [hslot] at h; cases h
  | remove fd => cases h
  | iter => rfl
  | closeOnExec => cases h
  | duplicate fd min cloexec =>
    rw [apply, duplicate] at h ⊢
    rcases hget : t.get fd with _ | value
    · rfl
    rw [hget] at h
    by_cases hmin : 2 ^ 31 - 1 < min
    · simp only [if_pos hmin]
    · simp only [if_neg hmin] at h
      cases h

/-- **A descriptor table behaves as a finite map.**  After any operations every further one does to
the map, and returns, what is specified; and where it returns an error the table is the same. -/
theorem table_refines_map (ops : List (FdOp T)) (op : FdOp T) :
    let t := after ops
    Spec t.abs op (t.apply op).1 (t.apply op).2.abs ∧
      (∀ code, (t.apply op).1 = .error code → (t.apply op).2 = t) ∧
      (empty : FdTable T).abs = (fun _ => none) ∧ ∃ n, ∀ fd, n ≤ fd → t.abs fd = none := by
  intro t
  have ht : t.Masked :=
    runFrom_induction (P := Masked) masked_empty (fun _ op h => h.apply op) ops
  refine ⟨spec_apply ht op, fun code => apply_error, rfl, t.slots.length, fun fd hfd => ?_⟩
  rw [abs_eq_none_iff]
  exact t.slot_of_length_le hfd

end FdTable

end Map

end Krust.Process
