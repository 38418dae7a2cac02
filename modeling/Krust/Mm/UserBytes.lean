import Krust.Mm.Spaces

/-!
# Writing the memory of a program

`AddressSpace::write_bytes` looks up the frame of the first page only, and writes all the bytes
there, past the end of the frame if need be.  What is written past a page boundary therefore goes to
the frame that happens to follow in physical memory, whichever page that belongs to.

The bytes of the user, and no others, are written exactly if the bytes of the range lie one after
the other in physical memory (`write_bytes_exact_iff`).
-/

set_option autoImplicit false

namespace Krust.Mm

open Arch Lib Prog List Option Page

/-! ## What a write has to do -/

/-- By its records, the address space has this physical address for a virtual one. -/
def Translates (space : AddressSpace) (vaddr paddr : Nat) : Prop :=
  vaddr < 2 ^ 64 ∧ ∃ mapping ∈ space.mappings, containingAddress vaddr = some mapping.page ∧
    paddr = frameStart mapping.frame + (vaddr - mapping.page.startAddress)

def OneRecordPerPage (space : AddressSpace) : Prop := (space.mappings.map Mapping.page).Nodup

instance (space : AddressSpace) : Decidable (OneRecordPerPage space) :=
  inferInstanceAs (Decidable (List.Nodup _))

/-- The user sees these bytes from this address on, and the rest of the memory is as before. -/
def WrittenExactly (space : AddressSpace) (vaddr : Nat) (bytes : List UInt8)
    (memory memory' : Memory) : Prop :=
  (∀ i, (h : i < bytes.length) → ∃ p, Translates space (vaddr + i) p ∧ memory' p = bytes[i]) ∧
    ∀ p, (∀ i < bytes.length, ¬ Translates space (vaddr + i) p) → memory' p = memory p

/-- What `write_bytes` should end with: an error and the same memory, or the bytes written. -/
def WriteResult (space : AddressSpace) (vaddr : Nat) (bytes : List UInt8) (memory : Memory) :
    Option (Except MmError Unit) × Work → Prop
  | (none, _) => False
  | (some (.error _), w) => w.1.memory = memory
  | (some (.ok ()), w) => WrittenExactly space vaddr bytes memory w.1.memory

/-! ## What it does -/

variable {p : Nat} {page : Page}

section Write

variable {space : AddressSpace} {vaddr : Nat}

theorem eq_of_page_eq (h : OneRecordPerPage space) {a b : Mapping} (ha : a ∈ space.mappings)
    (hb : b ∈ space.mappings) (hpage : a.page = b.page) : a = b :=
  inj_on_of_nodup_map h ha hb hpage

theorem Translates.unique (h : OneRecordPerPage space) {q : Nat} (hp : Translates space vaddr p)
    (hq : Translates space vaddr q) : p = q := by
  obtain ⟨-, a, ha, hpage, rfl⟩ := hp
  obtain ⟨-, b, hb, hpage', rfl⟩ := hq
  have hab : a.page = b.page := some_inj.1 (hpage.symm.trans hpage')
  rw [eq_of_page_eq h ha hb hab]

/-- The record that `write_bytes` finds is that of the first address. -/
theorem translates_of_find {mapping : Mapping} (hvaddr : vaddr < 2 ^ 64)
    (hpage : containingAddress vaddr = some page) (hfind : space.find page = some mapping) :
    Translates space vaddr (frameStart mapping.frame + (vaddr - page.startAddress)) := by
  obtain rfl : mapping.page = page := by simpa using find?_some hfind
  exact ⟨hvaddr, mapping, mem_of_find?_eq_some hfind, hpage, rfl⟩

theorem not_translates_of_find (hpage : containingAddress vaddr = some page)
    (hfind : space.find page = none) (p : Nat) : ¬ Translates space vaddr p := by
  rintro ⟨-, mapping, hmapping, hpage', -⟩
  have hsame : mapping.page = page := some_inj.1 (hpage'.symm.trans hpage)
  exact absurd hsame (by simpa using find?_eq_none.1 hfind mapping hmapping)

/-- **What `write_bytes` does**: it panics, or finds no record, or writes everything behind the
physical address of the first byte. -/
theorem run_writeBytes (space : AddressSpace) (hvaddr : vaddr < 2 ^ 64) :
    (containingAddress vaddr = none ∧ ∀ mm bytes,
      run (writeBytes vaddr bytes) (mm, space) = (none, (mm, space))) ∨
    ((containingAddress vaddr).isSome ∧ (∀ p, ¬ Translates space vaddr p) ∧ ∀ mm bytes,
      run (writeBytes vaddr bytes) (mm, space) = (some (.error .invalidAddress), (mm, space))) ∨
    ((containingAddress vaddr).isSome ∧ ∃ p, Translates space vaddr p ∧ ∀ mm bytes,
      run (writeBytes vaddr bytes) (mm, space) =
        (some (.ok ()), (mm.write fun m => blit m p bytes, space))) := by
  cases hpage : containingAddress vaddr with
  | none =>
    refine .inl ⟨rfl, fun mm bytes => ?_⟩
    rw [writeBytes, hpage]
    rfl
  | some page =>
    cases hfind : space.find page with
    | none =>
      refine .inr (.inl ⟨rfl, not_translates_of_find hpage hfind, fun mm bytes => ?_⟩)
      simp only [writeBytes, hpage, ofOption, load, step, bind_eq, Prog.bind, run, hfind]
    | some mapping =>
      refine .inr (.inr ⟨rfl, _, translates_of_find hvaddr hpage hfind, fun mm bytes => ?_⟩)
      simp only [writeBytes, hpage, ofOption, load, step, bind_eq, Prog.bind, run, hfind]
      rfl

/-- A range that lies in one piece in physical memory is written as it should be. -/
theorem writtenExactly_blit {bytes : List UInt8} (memory : Memory)
    (h : ∀ i < bytes.length, Translates space (vaddr + i) (p + i)) :
    WrittenExactly space vaddr bytes memory (blit memory p bytes) := by
  refine ⟨fun i hi => ⟨p + i, h i hi, ?_⟩, fun q hq => blit_of_notMem memory ?_⟩
  · rw [blit_of_mem memory (Nat.le_add_right p i) (by omega) 0, Nat.add_sub_cancel_left,
      getD_eq_getElem _ _ hi]
  by_contra hin
  obtain ⟨i, rfl⟩ : ∃ i, q = p + i := ⟨q - p, by omega⟩
  exact hq i (by omega) (h i (by omega))

def blankManager : Manager := ⟨fun _ => 0, ⟨[], 0, [], true, fun _ => true⟩, 0⟩

/-- A single byte that is not zero. -/
def mark (n i : Nat) : List UInt8 := (List.replicate n 0).set i 1

theorem length_mark (n i : Nat) : (mark n i).length = n := by
  rw [mark, length_set, length_replicate]

/-- Written to a memory of zeros, the byte shows where it went. -/
theorem eq_of_blit_mark {n i q : Nat} (h : blit (fun _ => 0) p (mark n i) q = (1 : UInt8)) :
    q = p + i := by
  by_cases hin : p ≤ q ∧ q < p + n
  · rw [blit_of_mem _ hin.1 (by rw [length_mark]; exact hin.2) 0, mark,
      getD_eq_getElem _ _ (by simp; omega), getElem_set] at h
    split at h
    · omega
    · simp at h
  · rw [blit_of_notMem _ (by rw [length_mark]; omega)] at h
    cases h

end Write

/-- **`write_bytes` writes the bytes of the user and no others, for whatever bytes of that number
and over whatever memory, exactly if** the address is canonical, and it is not mapped or the bytes
of the range lie one after the other in physical memory. -/
theorem write_bytes_exact_iff (space : AddressSpace) (hspace : OneRecordPerPage space)
    (vaddr : UInt64) (n : Nat) :
    (∀ (mm : Manager) (bytes : List UInt8), bytes.length = n →
        WriteResult space vaddr.toNat bytes mm.memory
          (run (writeBytes vaddr.toNat bytes) (mm, space))) ↔
      (vaddr.toNat < 2 ^ 47 ∨ 2 ^ 64 - 2 ^ 47 ≤ vaddr.toNat) ∧
        ((∀ p, ¬ Translates space vaddr.toNat p) ∨
          ∃ p, ∀ i < n, Translates space (vaddr.toNat + i) (p + i)) := by
  have hvaddr : vaddr.toNat < 2 ^ 64 := vaddr.toNat_lt
  have hcanonical : (containingAddress vaddr.toNat).isSome ↔
      vaddr.toNat < 2 ^ 47 ∨ 2 ^ 64 - 2 ^ 47 ≤ vaddr.toNat := by
    rw [containingAddress]
    split
    · exact iff_of_true rfl ‹_›
    · exact iff_of_false Bool.false_ne_true ‹_›
  rw [← hcanonical]
  rcases run_writeBytes space hvaddr with
    ⟨hpage, hrun⟩ | ⟨hpage, hnone, hrun⟩ | ⟨hpage, p, hp, hrun⟩
  · refine iff_of_false (fun h => ?_) (fun h => ?_)
    · have hresult := h blankManager (replicate n 0) length_replicate
      rw [hrun] at hresult
      exact hresult
    · rw [hpage] at h
      exact Bool.false_ne_true h.1
  · refine iff_of_true (fun mm bytes _ => ?_) ⟨hpage, .inl hnone⟩
    rw [hrun]
    rfl
  · constructor
    · intro h
      refine ⟨hpage, .inr ⟨p, fun i hi => ?_⟩⟩
      -- the mark is written at p + i, so that has to be what the user sees
      have hresult := h blankManager (mark n i) (length_mark n i)
      rw [hrun] at hresult
      obtain ⟨q, hq, hone⟩ := hresult.1 i (by rwa [length_mark])
      have hmark : (mark n i)[i]? = some 1 := by simp [mark, hi]
      rw [(getElem_eq_iff _).2 hmark] at hone
      rwa [← eq_of_blit_mark hone]
    · rintro ⟨-, hmapped⟩ mm bytes rfl
      rw [hrun]
      refine writtenExactly_blit mm.memory fun i hi => ?_
      rcases hmapped with hnone | ⟨q, hq⟩
      · exact absurd hp (hnone p)
      · obtain rfl : q = p := (hq 0 (by omega)).unique hspace hp
        exact hq i hi

/-- Two pages in frames that are not neighbours. -/
def scattered : AddressSpace := ⟨0, [⟨1, 10, .present⟩, ⟨2, 20, .present⟩], []⟩

/-- **A write across a page boundary**: the second byte is not in the second page of the user but at
the start of the frame behind that of the first page, where another page may be. -/
theorem write_goes_astray :
    OneRecordPerPage scattered ∧
      let r := run (writeBytes 0x1fff [7, 9]) (blankManager, scattered)
      r.1 = some (.ok ()) ∧ Translates scattered 0x2000 (20 * 4096) ∧
        r.2.1.memory (20 * 4096) = 0 ∧ r.2.1.memory (11 * 4096) = 9 ∧
        ¬ WriteResult scattered 0x1fff [7, 9] blankManager.memory r := by
  have hsecond : Translates scattered 0x2000 (20 * 4096) :=
    ⟨by decide, ⟨2, 20, .present⟩, mem_cons_of_mem _ mem_cons_self, rfl, rfl⟩
  refine ⟨by decide, rfl, hsecond, rfl, rfl, fun hresult => ?_⟩
  obtain ⟨p, hp, hnine⟩ := hresult.1 1 (by decide)
  obtain rfl : p = 20 * 4096 := hp.unique (by decide) hsecond
  exact absurd hnine (by decide)

/-- A write of two bytes within a page. -/
theorem write_bytes_exact_within :
    WriteResult scattered 0x1ffe [7, 9] blankManager.memory
      (run (writeBytes 0x1ffe [7, 9]) (blankManager, scattered)) := by
  refine (write_bytes_exact_iff scattered (by decide) 0x1ffe 2).2 ⟨.inl (by decide), .inr ?_⟩
    blankManager [7, 9] rfl
  refine ⟨10 * 4096 + 0xffe, fun i hi => ?_⟩
  obtain rfl | rfl : i = 0 ∨ i = 1 := by omega
  · exact ⟨by decide, ⟨1, 10, .present⟩, mem_cons_self, rfl, rfl⟩
  · exact ⟨by decide, ⟨1, 10, .present⟩, mem_cons_self, rfl, rfl⟩

end Krust.Mm
