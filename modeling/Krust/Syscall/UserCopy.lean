import Krust.Mm.System
import Krust.Mm.UserBytes
import Krust.Syscall.UserMemory

/-!
# Copying to and from user memory

`copy_to_task` goes over the pages of a range twice.  The first time it only checks them, so it does
not write anything to a range that it cannot write as a whole.  `copy_from` goes over them once, and
may leave a part of its output written.

No two pages of a space are in the same frame, in whatever way the space has come about
(`frames_nodup`), so that a copy writes each byte once (`copyToTask_exact`).
-/

set_option autoImplicit false

namespace Krust.Syscall

open Arch Lib Mm List Option

variable {space : AddressSpace} {memory : Memory} {write : Bool} {first a stop k : Nat}
  {visits : List Visit}

/-! ## The source -/

def copyFrom (space : AddressSpace) (memory : Memory) (address : Nat) (output : List UInt8) :
    List UInt8 × Except Int Unit :=
  let r := visitTaskRange space address output.length false
  (r.1.foldl (fun output visit =>
    overwrite output visit.offset (window memory visit.physical visit.count)) output, r.2)

def copyToTask (space : AddressSpace) (memory : Memory) (address : Nat) (bytes : List UInt8) :
    Memory × Except Int Unit :=
  match (visitTaskRange space address bytes.length true).2 with
  | .error e => (memory, .error e)
  | .ok () =>
    let r := visitTaskRange space address bytes.length true
    (r.1.foldl (fun memory visit =>
      blit memory visit.physical (slice bytes visit.offset visit.count)) memory, r.2)

/-! ## What is visited -/

theorem Visited.reaches {visit : Visit} {page : Page} {mapping : Mapping}
    (h : Visited space first write visit page mapping) (hk : k < visit.count)
    (hlt : first + visit.offset + k < USER_ADDRESS_END) :
    Accessible space write (first + visit.offset + k) ∧
      Translates space (first + visit.offset + k) (visit.physical + k) := by
  obtain ⟨page', hpage', hstart'⟩ := containingAddress_user hlt
  obtain ⟨page'', hpage'', hstart⟩ :=
    containingAddress_user (a := first + visit.offset) (by omega)
  cases h.page_eq.symm.trans hpage''
  have hin := h.inPage
  rw [PAGE_SIZE] at hin hstart hstart'
  obtain rfl : page' = page := startAddress_injective (by omega)
  have hmapping : mapping.page = page' := by simpa using find?_some h.find
  refine ⟨⟨page', mapping, hpage', h.find, h.user, h.writable⟩, ?_, mapping,
    mem_of_find?_eq_some h.find, hmapping ▸ hpage', ?_⟩
  · rw [USER_ADDRESS_END] at hlt
    omega
  · rw [h.physical, hmapping, PAGE_SIZE]
    omega

theorem accessible_iff (hone : OneRecordPerPage space) {b : Nat} :
    Accessible space write b ↔ ∃ mapping ∈ space.mappings,
      Page.containingAddress b = some mapping.page ∧ contains mapping.flags (PRESENT ||| USER) ∧
        (write = true → contains mapping.flags WRITABLE) := by
  constructor
  · rintro ⟨page, mapping, hpage, hfind, hflags⟩
    obtain rfl : mapping.page = page := by simpa using find?_some hfind
    exact ⟨mapping, mem_of_find?_eq_some hfind, hpage, hflags⟩
  · rintro ⟨mapping, hmem, hpage, hflags⟩
    obtain ⟨found, hfind⟩ : ∃ found, space.find mapping.page = some found :=
      Option.isSome_iff_exists.1 (find?_isSome.2 ⟨mapping, hmem, by simp⟩)
    have hpage' : found.page = mapping.page := by simpa using find?_some hfind
    rw [eq_of_page_eq hone (mem_of_find?_eq_some hfind) hmem hpage'] at hfind
    exact ⟨_, mapping, hpage, hfind, hflags⟩

theorem translates_injective (hframes : (space.mappings.map Mapping.frame).Nodup) {b p : Nat}
    (ha : a < USER_ADDRESS_END) (hb : b < USER_ADDRESS_END) (h : Translates space a p)
    (h' : Translates space b p) : a = b := by
  obtain ⟨-, mapping, hmem, hpage, rfl⟩ := h
  obtain ⟨-, mapping', hmem', hpage', heq⟩ := h'
  obtain ⟨page, hsome, hstart⟩ := containingAddress_user ha
  obtain ⟨page', hsome', hstart'⟩ := containingAddress_user hb
  cases hpage.symm.trans hsome
  cases hpage'.symm.trans hsome'
  rw [hstart, hstart', frameStart, frameStart, PAGE_SIZE] at heq
  obtain rfl : mapping = mapping' :=
    inj_on_of_nodup_map hframes hmem hmem' (Fin.ext (by omega))
  rw [PAGE_SIZE] at hstart hstart'
  omega

/-! ## What is copied -/

section Spans

variable (h : Spans space first write a visits stop)
include h

theorem Spans.le : a ≤ stop := by
  induction h with
  | nil => exact le_refl _
  | cons _ _ _ ih => omega

theorem Spans.accessible (hstop : stop ≤ USER_ADDRESS_END) :
    ∀ b, a ≤ b → b < stop → Accessible space write b := by
  induction h with
  | nil => exact fun b _ _ => by omega
  | @cons a stop visit visits page mapping hvisit ha h ih =>
    intro b hle hlt
    by_cases hb : b < a + visit.count
    · obtain ⟨k, rfl⟩ := Nat.exists_eq_add_of_le hle
      subst ha
      exact (hvisit.reaches (by omega) (by omega)).1
    · exact ih hstop b (by omega) hlt

theorem Spans.written (hframes : (space.mappings.map Mapping.frame).Nodup)
    (hstop : stop ≤ USER_ADDRESS_END) {bytes : List UInt8}
    (hbytes : first + bytes.length = stop) :
    ∀ memory : Memory, let memory' := visits.foldl (fun memory visit =>
        blit memory visit.physical (slice bytes visit.offset visit.count)) memory
      (∀ b, a ≤ b → b < stop → ∃ p, Translates space b p ∧ memory' p = bytes.getD (b - first) 0) ∧
        ∀ p, (∀ b, a ≤ b → b < stop → ¬ Translates space b p) → memory' p = memory p := by
  induction h with
  | nil => exact fun memory => ⟨fun b _ _ => by omega, fun _ _ => rfl⟩
  | @cons a stop visit visits page mapping hvisit ha h ih =>
    intro memory
    subst ha
    have hle := h.le
    have hreach := fun k (hk : k < visit.count) => (hvisit.reaches hk (by omega)).2
    have hlen : (slice bytes visit.offset visit.count).length = visit.count := by
      rw [slice, length_take, length_drop]
      omega
    obtain ⟨hnew, hold⟩ := ih hstop hbytes
      (blit memory visit.physical (slice bytes visit.offset visit.count))
    refine ⟨fun b hb hlt => ?_, fun p hp => ?_⟩
    · by_cases hin : b < first + visit.offset + visit.count
      · obtain ⟨k, rfl⟩ := Nat.exists_eq_add_of_le hb
        refine ⟨_, hreach k (by omega), (hold _ fun b hb hlt' h' => ?_).trans ?_⟩
        · have := translates_injective hframes (by omega) (by omega) (hreach k (by omega)) h'
          omega
        · rw [blit_of_mem _ (Nat.le_add_right _ _) (by omega) 0, Nat.add_sub_cancel_left, slice,
            getD_eq_getElem?_getD, getElem?_take, if_pos (by omega), getElem?_drop,
            getD_eq_getElem?_getD]
          congr 2
          omega
      · exact hnew b (by omega) hlt
    · refine (hold p fun b hb hlt => hp b (by omega) hlt).trans (blit_of_notMem _ ?_)
      by_contra hin
      obtain ⟨k, rfl⟩ := Nat.exists_eq_add_of_le (show visit.physical ≤ p by omega)
      exact hp _ (by omega) (by omega) (hreach k (by omega))

theorem Spans.read (hstop : stop ≤ USER_ADDRESS_END) {f : Nat → UInt8} :
    (∀ b p, a ≤ b → b < stop → Translates space b p → memory p = f (b - first)) →
    ∀ output : List UInt8, first + output.length = stop →
      visits.foldl (fun output visit =>
          overwrite output visit.offset (window memory visit.physical visit.count)) output =
        output.take (a - first) ++ window f (a - first) (stop - a) := by
  induction h with
  | nil =>
    intro _ output hlen
    rw [foldl_nil, take_of_length_le (by omega), Nat.sub_self]
    exact (append_nil _).symm
  | @cons a stop visit visits page mapping hvisit ha h ih =>
    intro hf output hlen
    subst ha
    have hle := h.le
    have hwindow : window memory visit.physical visit.count =
        window f visit.offset visit.count := by
      refine ext_getElem? fun k => ?_
      rw [getElem?_window, getElem?_window]
      split_ifs with hk
      · rw [hf _ _ (by omega) (by omega) (hvisit.reaches hk (by omega)).2]
        congr 2
        omega
      · rfl
    rw [foldl_cons, hwindow, ih hstop (fun b p hb => hf b p (by omega)) _ ?_]
    · have htake : (overwrite output visit.offset (window f visit.offset visit.count)).take
          (visit.offset + visit.count) =
            output.take visit.offset ++ window f visit.offset visit.count := by
        refine take_left' ?_
        rw [length_append, length_take, length_window]
        omega
      rw [Nat.add_assoc, Nat.add_sub_cancel_left, Nat.add_sub_cancel_left, htake, append_assoc,
        ← window_add]
      congr 2
      omega
    · rw [length_overwrite (by rw [length_window]; omega), hlen]

end Spans

theorem succeeds_iff (space : AddressSpace) (address length : Nat) (write : Bool) :
    (visitTaskRange space address length write).2 = .ok () ↔
      0 < address ∧ address + length ≤ USER_ADDRESS_END ∧
        ∀ b, address ≤ b → b < address + length → Accessible space write b := by
  rcases spans_visitTaskRange space address length write with
    ⟨hok, hpos, hstop, h⟩ | ⟨herr, hnot, -⟩
  · exact iff_of_true hok ⟨hpos, hstop, h.accessible hstop⟩
  · rw [herr]
    refine iff_of_false (by simp) ?_
    rintro ⟨hpos, hstop, hall⟩
    rcases hnot with rfl | hnot | ⟨b, hle, hlt, hnot⟩
    · omega
    · omega
    · exact hnot (hall b hle hlt)

/-- What a copy from a range returns, if it succeeds. -/
theorem copyFrom_eq {address : Nat} {output : List UInt8}
    (hok : (visitTaskRange space address output.length false).2 = .ok ()) {f : Nat → UInt8}
    (hf : ∀ b p, address ≤ b → b < address + output.length → Translates space b p →
      memory p = f (b - address)) :
    copyFrom space memory address output = (window f 0 output.length, .ok ()) := by
  rcases spans_visitTaskRange space address output.length false with ⟨-, -, hstop, h⟩ | ⟨herr, -⟩
  · rw [copyFrom, h.read hstop hf output rfl, hok, Nat.sub_self, Nat.add_sub_cancel_left]
    rfl
  · cases hok.symm.trans herr

/-- The pages of a space are in different frames, in every run. -/
theorem frames_nodup (mapper : Mapper) (checks : Bool) {mm : Manager}
    (hpool : mm.allocator.pool.Nodup) (hkernel : ∀ d t, KernelTable mm d t → t ∉ mm.allocator.pool)
    {ops : List Op} (hspace : space ∈ (runOps mapper checks mm ops).spaces) :
    (space.mappings.map Mapping.frame).Nodup := by
  have hnodup := (good_runOps mapper checks hpool hkernel ops).1.nodup
  rw [System.frames, nodup_append, nodup_flatMap] at hnodup
  exact (hnodup.2.1.1 space hspace).of_append_left.of_append_left

/-- **Copying to a task is all or nothing.**  Take any space of any run, with one record per page.
The copy succeeds exactly if the range is one of user addresses and all its pages may be written;
then the bytes of the range are those that were given and no others have changed, and `copy_from`
returns them. -/
theorem copyToTask_exact (mapper : Mapper) (checks : Bool) {mm : Manager}
    (hpool : mm.allocator.pool.Nodup) (hkernel : ∀ d t, KernelTable mm d t → t ∉ mm.allocator.pool)
    (ops : List Op) (hspace : space ∈ (runOps mapper checks mm ops).spaces)
    (hone : OneRecordPerPage space) (memory : Memory) (address : Nat) (bytes : List UInt8) :
    let r := copyToTask space memory address bytes
    (r.2 = .ok () ↔ 0 < address ∧ address + bytes.length ≤ USER_ADDRESS_END ∧
        ∀ b, address ≤ b → b < address + bytes.length → ∃ mapping ∈ space.mappings,
          Page.containingAddress b = some mapping.page ∧
            contains mapping.flags (PRESENT ||| USER) ∧ contains mapping.flags WRITABLE) ∧
      (r.2 = .ok () → WrittenExactly space address bytes memory r.1 ∧
        ∀ output : List UInt8, output.length = bytes.length →
          copyFrom space r.1 address output = (bytes, .ok ())) ∧
      (r.2 ≠ .ok () → r.1 = memory) := by
  have hframes := frames_nodup mapper checks hpool hkernel hspace
  have hiff := succeeds_iff space address bytes.length true
  simp only [accessible_iff hone, forall_const] at hiff
  simp only [copyToTask]
  rcases spans_visitTaskRange space address bytes.length true with
    ⟨hok, hpos, hstop, h⟩ | ⟨herr, -⟩
  · have hall := (hiff.1 hok).2.2
    simp only [hok] at hiff ⊢
    obtain ⟨hnew, hold⟩ := h.written hframes hstop rfl memory
    refine ⟨hiff, fun _ => ⟨⟨fun i hi => ?_, fun p hp => hold p fun b hb hlt => ?_⟩,
      fun output hlen => ?_⟩, fun h => absurd rfl h⟩
    · obtain ⟨p, hp, heq⟩ := hnew (address + i) (by omega) (by omega)
      rw [Nat.add_sub_cancel_left, getD_eq_getElem _ _ hi] at heq
      exact ⟨p, hp, heq⟩
    · obtain ⟨i, rfl⟩ := Nat.exists_eq_add_of_le hb
      exact hp i (by omega)
    -- the bytes are read through the same records
    · have hread : (visitTaskRange space address output.length false).2 = .ok () := by
        refine (succeeds_iff space address output.length false).2 ⟨hpos, hlen ▸ hstop, ?_⟩
        intro b hb hlt
        obtain ⟨mapping, hmem, hpage, huser, -⟩ := hall b hb (by omega)
        exact (accessible_iff hone).2 ⟨mapping, hmem, hpage, huser, nofun⟩
      rw [copyFrom_eq hread (f := (bytes.getD · 0)) fun b p hb hlt hp => ?_, hlen]
      · refine congrArg (·, _) (ext_getElem? fun i => ?_)
        rw [getElem?_window]
        split_ifs with hi
        · rw [Nat.zero_add, getD_eq_getElem _ _ hi, getElem?_eq_getElem hi]
        · rw [getElem?_eq_none (Nat.le_of_not_lt hi)]
      · obtain ⟨q, hq, heq⟩ := hnew b hb (by omega)
        rw [hp.unique hone hq, heq]
  · simp only [herr] at hiff ⊢
    exact ⟨hiff, by simp⟩

/-- Two pages that may be written are mapped. -/
def twoPages : List Op :=
  let flags : PageFlags := ⟨PRESENT ||| WRITABLE ||| USER, rfl, rfl⟩
  [.create, .mapPage 0 1 flags, .mapPage 0 2 flags]

/-- The two bytes at the border of the pages are written and read. -/
theorem copyToTask_exact_twoPages :
    ∃ space ∈ (runOps walkMapper true smallManager twoPages).spaces,
      let r := copyToTask space (fun _ => 0) 0x1fff [7, 9]
      r.2 = .ok () ∧ copyFrom space r.1 0x1fff [0, 0] = ([7, 9], .ok ()) := by
  have hspaces : ((runOps walkMapper true smallManager twoPages).spaces.map fun space =>
      decide (OneRecordPerPage space ∧ ∀ b ∈ [0x1fff, 0x2000], ∃ mapping ∈ space.mappings,
        Page.containingAddress b = some mapping.page ∧
          contains mapping.flags (PRESENT ||| USER) ∧ contains mapping.flags WRITABLE)) =
        [true] := by
    decide +kernel
  obtain ⟨space, hspace⟩ : ∃ space, space ∈ (runOps walkMapper true smallManager twoPages).spaces :=
    exists_mem_of_ne_nil _ fun hnil => by rw [hnil] at hspaces; cases hspaces
  have hknown := of_decide_eq_true (mem_singleton.1 (hspaces ▸ mem_map_of_mem hspace))
  have hexact := copyToTask_exact walkMapper true (by decide) smallManager_apart twoPages hspace
    hknown.1 (fun _ => 0) 0x1fff [7, 9]
  have hok := hexact.1.2 ⟨by decide, by decide, fun b hb hlt => hknown.2 b ?_⟩
  · exact ⟨space, hspace, hok, (hexact.2.1 hok).2 [0, 0] rfl⟩
  · simp at hlt ⊢
    omega

end Krust.Syscall
