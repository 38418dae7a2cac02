import Krust.Process.UserPages

/-!
# The break of a program

When a program is started, the address of its table of program headers and its first break are
sums of fields of the file.  Neither sum is checked.  They are right exactly when they fit
(`cursors_exact_iff`), which mapping the segments does not guarantee: an empty segment is mapped
wherever it is.
-/

set_option autoImplicit false

namespace Krust.Process

open Lib Prog Vfs List Option

section Cursors

variable {W : Type} (env : ExecEnv W) {segments : List Mm.LoadSegment} {checks : Bool}

/-- The first break is right if no segment ends in the last page of all. -/
theorem brkStart_exact_iff (h : ∀ segment ∈ segments, segment.stop ≤ USIZE_MAX) :
    (∃ start, brkStart checks segments = some start ∧ 4096 ∣ start ∧
      ∀ segment ∈ segments, segment.stop ≤ start) ↔
    ∀ segment ∈ segments, segment.stop + 4095 < 2 ^ 64 := by
  have hends : segments.map (fun segment =>
      min (segment.virtualAddress.toNat + segment.memorySize.toNat) USIZE_MAX) =
      segments.map Mm.LoadSegment.stop :=
    map_congr_left fun segment hsegment => min_eq_left (h segment hsegment)
  simp only [brkStart, hends]
  rcases hmax : (segments.map Mm.LoadSegment.stop).max? with _ | value
  · simp [map_eq_nil_iff.1 (max?_eq_none_iff.1 hmax)]
  obtain ⟨hmem, hle⟩ := max?_eq_some_iff.1 hmax
  rw [List.mem_map] at hmem
  constructor
  · rintro ⟨start, hstart, -, hstop⟩ segment hsegment
    obtain ⟨sum, -, rfl⟩ := map_eq_some_iff.1 hstart
    have hmask : sum &&& (USIZE_MAX - 4095) ≤ USIZE_MAX - 4095 := Nat.and_le_right
    have hstop := hstop segment hsegment
    rw [USIZE_MAX] at hmask hstop
    omega
  · intro hfits
    obtain ⟨last, hlast, rfl⟩ := hmem
    have hsum := hfits last hlast
    have hmask : (last.stop + 4095) &&& (USIZE_MAX - 4095) = (last.stop + 4095) / 4096 * 4096 :=
      mask_high (n := 12) (k := 52) hsum
    dsimp only
    rw [fit_of_lt hsum, Option.map_some, hmask]
    refine ⟨_, rfl, Nat.dvd_mul_left _ _, fun segment hsegment => ?_⟩
    have hlast := hle _ (mem_map_of_mem hsegment)
    omega

/-- Where the table of the program headers is: where a header says, or else in the first segment
whose part of the file has it.  The sum is the exact one. -/
def ElfFile.tableAddress (elf : ElfFile) (g : Gathered) : Nat :=
  let inSegment (header : ProgramHeader) : Bool :=
    header.type = some .load ∧ header.offset.toNat ≤ elf.phOffset.toNat ∧
      elf.phOffset.toNat < min (header.offset.toNat + header.fileSize.toNat) USIZE_MAX
  match g.phdrAddr, elf.programs.find? inSegment with
  | some address, _ => address
  | none, some header => header.virtualAddr.toNat + (elf.phOffset.toNat - header.offset.toNat)
  | none, none => 0

theorem phdrInSegment_exact (checks : Bool) {elf : ElfFile} {g : Gathered}
    (hphdr : g.phdrAddr = none) (h : elf.tableAddress g < 2 ^ 64) :
    ∃ address, phdrInSegment checks elf.phOffset.toNat elf.programs = some address ∧
      address.getD 0 = elf.tableAddress g := by
  rw [ElfFile.tableAddress, hphdr] at h ⊢
  rw [phdrInSegment]
  split at h
  · cases ‹_ = some _›
  · rename_i hfind
    rw [hfind]
    dsimp only
    rw [fit_of_lt h]
    exact ⟨_, rfl, rfl⟩
  · rename_i hfind
    rw [hfind]
    exact ⟨none, rfl, rfl⟩

variable {parse : List UInt8 → Option (Option ElfFile)} {data : List UInt8} {elf : ElfFile}
  {g : Gathered} {request : ExecRequest}

theorem elfInspect_exact_iff (hparse : parse data = some (some elf))
    (hgather : gather elf.programs ⟨[], none, none⟩ = .ok g)
    (haccepted : ∀ e, elfInspect parse checks request data ≠ some (.error e)) :
    (∃ plan, elfInspect parse checks request data = some (.ok (some (.load plan))) ∧
      plan.segments = g.segments ∧ plan.phdrAddr.toNat = elf.tableAddress g) ↔
    elf.tableAddress g < 2 ^ 64 := by
  constructor
  · rintro ⟨plan, -, -, haddress⟩
    exact haddress ▸ plan.phdrAddr.toNat_lt
  intro hfits
  simp only [elfInspect, hparse, hgather] at haccepted ⊢
  split_ifs at haccepted ⊢
  · exact absurd rfl (haccepted _)
  · exact absurd rfl (haccepted _)
  · exact absurd rfl (haccepted _)
  rcases hphdr : g.phdrAddr with _ | address
  · obtain ⟨address, haddress, heq⟩ := phdrInSegment_exact checks hphdr hfits
    dsimp only
    rw [haddress]
    refine ⟨_, rfl, rfl, ?_⟩
    dsimp only
    rw [heq]
    exact UInt64.toNat_ofNat_of_lt' hfits
  · refine ⟨_, rfl, rfl, ?_⟩
    rw [ElfFile.tableAddress, hphdr] at hfits ⊢
    exact UInt64.toNat_ofNat_of_lt' hfits

/-- **The cursors of a program.**  If a file is accepted and its segments are mapped, then the
address of the table is the exact sum and the first break is a whole number of pages that ends no
segment too early, if and only if the sums fit. -/
theorem cursors_exact_iff (hparse : parse data = some (some elf))
    (hgather : gather elf.programs ⟨[], none, none⟩ = .ok g)
    (haccepted : ∀ e, elfInspect parse env.checks request data ≠ some (.error e))
    {inode : AnyInode} {w : W} {s : Mm.Manager × Image}
    (hmapped : (run (mapSegments env inode w g.segments) s).1 = some (.ok ())) :
    (∃ plan start, elfInspect parse env.checks request data = some (.ok (some (.load plan))) ∧
      plan.phdrAddr.toNat = elf.tableAddress g ∧ plan.segments = g.segments ∧
      brkStart env.checks g.segments = some start ∧ 4096 ∣ start ∧
      ∀ segment ∈ g.segments, segment.stop ≤ start) ↔
    elf.tableAddress g < 2 ^ 64 ∧ ∀ segment ∈ g.segments, segment.stop + 4095 < 2 ^ 64 := by
  rw [← elfInspect_exact_iff hparse hgather haccepted,
    ← brkStart_exact_iff (stop_le_of_mapped env hmapped)]
  constructor
  · rintro ⟨plan, start, hplan, haddress, hsegments, hstart⟩
    exact ⟨⟨plan, hplan, hsegments, haddress⟩, start, hstart⟩
  · rintro ⟨⟨plan, hplan, hsegments, haddress⟩, start, hstart⟩
    exact ⟨plan, start, hplan, haddress, hsegments, hstart⟩

end Cursors

/-- The headers of a file with two segments: all of the file, with the table of the headers, and one
that is not in the file. -/
def twoSegments (address size : UInt64) : List Mm.LoadSegment :=
  [⟨0x400000, 176, 0, 176, ⟨true, false, true⟩⟩, ⟨address, size, 0, 0, ⟨true, false, true⟩⟩]

/-- A new address space, in which nothing is mapped. -/
def newImage : Mm.Manager × Image :=
  ((run Mm.kernel Mm.smallManager).2, ⟨1, [], []⟩, fun _ => 0)

theorem parseElf_elfBytes (entry : UInt64) (segments : List Mm.LoadSegment) :
    parseElf entry segments (elfBytes entry segments) = some (some (elfFile entry segments)) :=
  congrArg some (if_pos rfl)

set_option maxRecDepth 2000 in
/-- **An empty segment in the last page.**  The file is accepted and its segments are mapped, and
the sum for the break is too large: the kernel panics, or the break is 0. -/
theorem break_of_empty_segment :
    ∃ plan, elfInspect (parseElf 0x400000 (twoSegments (2 ^ 64 - 1) 0)) true ⟨[], [], []⟩
        (elfBytes 0x400000 (twoSegments (2 ^ 64 - 1) 0)) = some (.ok (some (.load plan))) ∧
      (run (mapSegments (oneFile 0x400000 (twoSegments (2 ^ 64 - 1) 0)) (.memory 1 2) ()
        plan.segments) newImage).1 = some (.ok ()) ∧
      plan.segments.map (·.stop) = [0x4000b0, 2 ^ 64 - 1] ∧
      brkStart true plan.segments = none ∧ brkStart false plan.segments = some 0 := by
  rw [elfInspect, parseElf_elfBytes]
  refine ⟨_, rfl, ?_, ?_, ?_, ?_⟩ <;> decide +kernel

set_option maxRecDepth 2000 in
theorem cursors_exact_low :
    ∃ plan start, elfInspect (parseElf 0x400000 (twoSegments 0x401000 1)) true ⟨[], [], []⟩
        (elfBytes 0x400000 (twoSegments 0x401000 1)) = some (.ok (some (.load plan))) ∧
      plan.phdrAddr.toNat = 0x400040 ∧ brkStart true plan.segments = some start ∧ 4096 ∣ start ∧
      ∀ segment ∈ plan.segments, segment.stop ≤ start := by
  have hmapped : (run (mapSegments (oneFile 0x400000 (twoSegments 0x401000 1)) (.memory 1 2) ()
      (twoSegments 0x401000 1)) newImage).1 = some (.ok ()) := by decide +kernel
  have haccepted : ∀ e, elfInspect (parseElf 0x400000 (twoSegments 0x401000 1)) true ⟨[], [], []⟩
      (elfBytes 0x400000 (twoSegments 0x401000 1)) ≠ some (.error e) := by
    intro e
    rw [elfInspect, parseElf_elfBytes]
    rintro ⟨⟩
  have hexact := (cursors_exact_iff (oneFile 0x400000 (twoSegments 0x401000 1))
    (parseElf_elfBytes _ _) rfl haccepted hmapped).2 ⟨by decide, by decide⟩
  obtain ⟨plan, start, hplan, haddress, hsegments, hstart, hpages, hstop⟩ := hexact
  exact ⟨plan, start, hplan, haddress, hsegments ▸ hstart, hpages, hsegments ▸ hstop⟩

end Krust.Process
