import Krust.Arch.PageTable
import Krust.Lib.Memory
import Krust.Lib.Radix

/-!
# Frames of physical memory

Physical memory is a row of bytes, and a frame is 4096 of them.  A frame can hold data, or a page
table with 512 entries of eight bytes.  This file has the operations of the kernel on whole frames
and on entries, what each of them leaves of the entries, and the tables of a memory as they are
walked by the processor (`translate_eq_find`).
-/

set_option autoImplicit false

namespace Krust.Mm

open Arch Lib List UInt64

/-- A bit for the kernel: a page that is owned, and that nobody may access. -/
def BIT_9 : UInt64 := 0x200

/-- A frame, by its number; physical addresses have 52 bits. -/
abbrev PhysFrame : Type := Fin (2 ^ 40)

instance neZero_frames : NeZero (2 ^ 40) := ⟨by decide⟩
instance neZero_entries : NeZero 512 := ⟨by decide⟩
instance : LawfulBEq PhysFrame := inferInstance

abbrev Memory : Type := Nat → UInt8

def frameStart (f : PhysFrame) : Nat := 4096 * f.val

/-! ## Entries -/

def entry (m : Memory) (table : PhysFrame) (index : Fin 512) : UInt64 :=
  ofNat (leValue (window m (frameStart table + 8 * index.val) 8))

def setEntry (m : Memory) (table : PhysFrame) (index : Fin 512) (e : UInt64) : Memory :=
  blit m (frameStart table + 8 * index.val) (leBytes 8 e.toNat)

/-- The bits of an entry other than the address. -/
def flagsOf (e : UInt64) : UInt64 := e &&& ~~~TABLE_ADDRESS

def frameOf (e : UInt64) : PhysFrame := Fin.ofNat (2 ^ 40) ((e &&& TABLE_ADDRESS).toNat / 4096)

/-- `PageTableEntry::frame`: only an entry that is present and not huge has one. -/
def entryFrame (e : UInt64) : Option PhysFrame :=
  if e &&& PRESENT = 0 then none else if e &&& HUGE ≠ 0 then none else some (frameOf e)

/-- `PageTableEntry::set_frame` -/
def makeEntry (f : PhysFrame) (flags : UInt64) : UInt64 := ofNat (frameStart f) ||| flags

section Entry

variable (e a b c flags : UInt64) (f : PhysFrame)

theorem or_and_distrib : (a ||| b) &&& c = (a &&& c) ||| (b &&& c) :=
  UInt64.toNat_inj.1 (by simp only [UInt64.toNat_and, UInt64.toNat_or, Nat.and_or_distrib_right])

theorem toNat_frameStart : (ofNat (frameStart f)).toNat = frameStart f := by
  rw [toNat_ofNat', frameStart]
  omega

theorem toNat_and_tableAddress : (e &&& TABLE_ADDRESS).toNat = e.toNat / 4096 % 2 ^ 40 * 4096 := by
  exact mask_field e.toNat 12 40

theorem and_tableAddress : e &&& TABLE_ADDRESS = UInt64.ofNat (frameStart (frameOf e)) := by
  rw [← UInt64.toNat_inj, toNat_frameStart, frameStart, frameOf, Fin.val_ofNat,
    toNat_and_tableAddress]
  omega

theorem frameStart_and_tableAddress :
    UInt64.ofNat (frameStart f) &&& TABLE_ADDRESS = UInt64.ofNat (frameStart f) := by
  rw [← UInt64.toNat_inj, toNat_and_tableAddress, toNat_frameStart, frameStart]
  omega

theorem frameOf_frameStart : frameOf (ofNat (frameStart f)) = f := by
  rw [Fin.ext_iff, frameOf, Fin.val_ofNat, frameStart_and_tableAddress, toNat_frameStart,
    frameStart]
  omega

variable {flags}

theorem frameOf_makeEntry (h : flags &&& TABLE_ADDRESS = 0) : frameOf (makeEntry f flags) = f := by
  have haddr : makeEntry f flags &&& TABLE_ADDRESS = ofNat (frameStart f) := by
    rw [makeEntry, or_and_distrib, h, UInt64.or_zero, frameStart_and_tableAddress]
  have h' := frameOf_frameStart f
  rw [frameOf, frameStart_and_tableAddress] at h'
  rw [frameOf, haddr, h']

theorem makeEntry_and {bits : UInt64} (h : TABLE_ADDRESS &&& bits = 0) :
    makeEntry f flags &&& bits = flags &&& bits := by
  rw [makeEntry, or_and_distrib, ← frameStart_and_tableAddress, UInt64.and_assoc, h,
    UInt64.and_zero,
    UInt64.zero_or]

theorem flagsOf_and_tableAddress : flagsOf e &&& TABLE_ADDRESS = 0 := by
  rw [flagsOf, UInt64.and_assoc, show ~~~TABLE_ADDRESS &&& TABLE_ADDRESS = 0 from rfl,
    UInt64.and_zero]

end Entry

/-! ## What is changed in memory -/

def InFrame (f : PhysFrame) (a : Nat) : Prop := frameStart f ≤ a ∧ a < frameStart f + 4096

theorem InFrame.unique {f g : PhysFrame} {a : Nat} (h : InFrame f a) (h' : InFrame g a) :
    f = g := by
  obtain ⟨hlo, hhi⟩ := h
  obtain ⟨hlo', hhi'⟩ := h'
  rw [frameStart] at hlo hhi hlo' hhi'
  exact Fin.ext (by omega)

/-- Only these frames have been changed. -/
def Changed (fs : List PhysFrame) (m m' : Memory) : Prop :=
  ∀ a, (∀ f ∈ fs, ¬ InFrame f a) → m' a = m a

variable {bs : List UInt8}

section Changed

variable {fs gs : List PhysFrame} {m m' m'' : Memory} {f g : PhysFrame}

theorem Changed.refl (fs : List PhysFrame) (m : Memory) : Changed fs m m := fun _ _ => rfl

theorem Changed.trans (h : Changed fs m m') (h' : Changed fs m' m'') : Changed fs m m'' :=
  fun a ha => (h' a ha).trans (h a ha)

theorem Changed.mono (h : Changed fs m m') (hsub : ∀ f ∈ fs, f ∈ gs) : Changed gs m m' :=
  fun a ha => h a fun f hf => ha f (hsub f hf)

theorem changed_blit (m : Memory) (f : PhysFrame) {i : Nat} (h : i + bs.length ≤ 4096)
    (hf : f ∈ fs) : Changed fs m (blit m (frameStart f + i) bs) := by
  intro a ha
  refine blit_of_notMem m ?_
  have hout := ha f hf
  rw [InFrame] at hout
  omega

theorem window_of_changed (h : Changed fs m m') (hf : f ∉ fs) {i n : Nat} (hi : i + n ≤ 4096) :
    window m' (frameStart f + i) n = window m (frameStart f + i) n := by
  refine window_congr fun a hlo hhi => h a fun g hg hin => hf ?_
  rwa [InFrame.unique (f := f) ⟨by omega, by omega⟩ hin]

theorem entry_of_changed (h : Changed fs m m') (hf : f ∉ fs) (i : Fin 512) :
    entry m' f i = entry m f i := by
  rw [entry, entry, window_of_changed h hf (by omega)]

end Changed

section Operations

variable (m : Memory) (f g : PhysFrame) {fs : List PhysFrame}

theorem changed_setEntry (i : Fin 512) (e : UInt64) (hf : f ∈ fs) :
    Changed fs m (setEntry m f i e) :=
  changed_blit m f (by rw [length_leBytes]; omega) hf

theorem entry_setEntry_self (i : Fin 512) (e : UInt64) : entry (setEntry m f i e) f i = e := by
  have hread := window_blit_self m (frameStart f + 8 * i.val) (leBytes 8 e.toNat)
  rw [length_leBytes] at hread
  rw [entry, setEntry, hread, leValue_leBytes, Nat.mod_eq_of_lt (by exact e.toNat_lt),
    UInt64.ofNat_toNat]

theorem entry_setEntry_ne {i j : Fin 512} (h : (g, j) ≠ (f, i)) (e : UInt64) :
    entry (setEntry m f i e) g j = entry m g j := by
  by_cases hfg : g = f
  · subst hfg
    have hij : j.val ≠ i.val := fun heq => h (by rw [Fin.ext heq])
    rw [entry, setEntry, window_blit_of_disjoint m (by rw [length_leBytes]; omega), entry]
  · exact entry_of_changed (changed_setEntry m f i e (mem_singleton.2 rfl))
      (by simpa using hfg) j

def zeroFrame : Memory := blit m (frameStart f) (List.replicate 4096 0)

def copyFrameContents (src dst : PhysFrame) : Memory :=
  blit m (frameStart dst) (window m (frameStart src) 4096)

/-- `write_frame_bytes`: a write that is longer than the rest of the frame goes on behind it. -/
def writeFrameBytes (offset : Nat) (bytes : List UInt8) : Memory :=
  blit m (frameStart f + offset) bytes

theorem changed_zeroFrame (hf : f ∈ fs) : Changed fs m (zeroFrame m f) :=
  changed_blit m f (i := 0) (by rw [length_replicate]) hf

theorem changed_copyFrameContents (hg : g ∈ fs) :
    Changed fs m (copyFrameContents m f g) :=
  changed_blit m g (i := 0) (by rw [length_window]) hg

theorem leValue_replicate_zero (n : Nat) : leValue (List.replicate n 0) = 0 := by
  induction n with
  | zero => rfl
  | succ n ih => simp [replicate_succ, leValue, ih]

theorem entry_blit_frame (h : bs.length = 4096) (i : Fin 512) :
    entry (blit m (frameStart f) bs) f i =
      ofNat (leValue ((bs.drop (8 * i.val)).take 8)) := by
  have hread := window_blit_self m (frameStart f) bs
  rw [h] at hread
  rw [entry, ← take_drop_window _ _ 4096 (by omega), hread]

theorem entry_zeroFrame_self (i : Fin 512) : entry (zeroFrame m f) f i = 0 := by
  rw [zeroFrame, entry_blit_frame _ _ length_replicate, drop_replicate,
    take_replicate, leValue_replicate_zero]
  rfl

theorem entry_copyFrameContents_self (i : Fin 512) :
    entry (copyFrameContents m f g) g i = entry m f i := by
  rw [copyFrameContents, entry_blit_frame _ _ (length_window _ _ _), entry,
    take_drop_window _ _ 4096 (by omega)]

end Operations

/-! ## Walking the tables -/

/-- What stands in a table of a certain depth, for the processor. -/
def lookup (m : Memory) : Look PhysFrame (Fin 512) UInt64 := fun depth table index =>
  let e := entry m table index
  if e &&& PRESENT = 0 then none
  else if isLeaf (4 - depth) e then some (e, none)
  else some (e, some (frameOf e))

/-- The tables of a memory, as they are read through physical addresses. -/
def tablesOf (m : Memory) : Tables := fun table index =>
  some (entry m (frameOf table) (Fin.ofNat 512 index))

/-- The indices of an address in the tables of the levels 4 to 1. -/
def indices (address : Nat) : List (Fin 512) :=
  [Fin.ofNat 512 (address / Arch.span 3), Fin.ofNat 512 (address / Arch.span 2),
    Fin.ofNat 512 (address / Arch.span 1), Fin.ofNat 512 (address / Arch.span 0)]

theorem translate_succ (m : Memory) {level depth : Nat} (hdepth : depth + (level + 1) = 4)
    (table : PhysFrame) (address : Nat) (rest : List (Fin 512))
    (hrest : ∀ u, Arch.translate (tablesOf m) level (ofNat (frameStart u)) address =
      find (lookup m) (depth + 1) u rest) :
    Arch.translate (tablesOf m) (level + 1) (ofNat (frameStart table)) address =
      find (lookup m) depth table (Fin.ofNat 512 (address / Arch.span level) :: rest) := by
  have hindex : Fin.ofNat 512 (address / Arch.span level % 512) =
      Fin.ofNat 512 (address / Arch.span level) := by
    rw [Fin.ext_iff, Fin.val_ofNat, Fin.val_ofNat, Nat.mod_mod]
  rw [Arch.translate, tablesOf, find, lookup, frameOf_frameStart, hindex,
    show 4 - depth = level + 1 by omega]
  generalize entry m table _ = e
  dsimp only
  by_cases hpresent : e &&& PRESENT = 0
  · rw [if_pos hpresent, if_pos hpresent]
  rw [if_neg hpresent, if_neg hpresent]
  by_cases hleaf : isLeaf (level + 1) e = true
  · rw [if_pos hleaf, if_pos hleaf]
  · rw [if_neg hleaf, if_neg hleaf, and_tableAddress, hrest]

/-- **The processor finds what is found in the tables.** -/
theorem translate_eq_find (m : Memory) (root : PhysFrame) (address : Nat) :
    Arch.translate (tablesOf m) 4 (ofNat (frameStart root)) address =
      find (lookup m) 0 root (indices address) := by
  refine translate_succ m rfl root address _ fun u => ?_
  refine translate_succ m rfl u address _ fun u => ?_
  refine translate_succ m rfl u address _ fun u => ?_
  exact translate_succ m rfl u address _ fun u => rfl

end Krust.Mm
