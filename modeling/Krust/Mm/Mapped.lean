import Krust.Arch.SupervisorOverlap
import Krust.Mm.Image

/-!
# Which pages a method maps

Whatever the state of the tables, a method only adds records of pages that it was asked to map, one
for each, and it comes to an end unless it meets an address that is not canonical or the heap has no
room for the records (`MapsOnly`).
-/

set_option autoImplicit false

namespace Krust.Mm

open Arch Lib Prog List

variable {checks : Bool} {segment : LoadSegment} {start stop vaddr : Nat} {page : Page} {α : Type}
  {flags : PageFlags} {pages : Page → Prop}

/-- How many pages there are in a range. -/
def pageCount (start stop : Nat) : Nat :=
  if start < stop then (stop + 4095) / 4096 - start / 4096 else 0

/-- Behind a page of the range there is one page less. -/
theorem pageCount_next {cursor next : Nat} (hlt : cursor < stop) (hstop : stop < 2 ^ 64)
    (hpage : Page.containingAddress cursor = some page)
    (hnext : next = page.startAddress + 4096 ∨ next = stop) :
    1 + pageCount next stop ≤ pageCount cursor stop := by
  obtain ⟨hlo, hhi⟩ := containingAddress_eq (hlt.trans hstop) hpage
  have hmod := startAddress_mod page
  rw [pageCount, pageCount, if_pos hlt]
  split <;> omega

/-- The heap has room for so many records, and for less. -/
def Mapper.HasRoom (mapper : Mapper) (n : Nat) : Prop := ∀ k ≤ n, mapper.room k = true

theorem MapsOnly.returns {mapper : Mapper} {p : Prog Work MmError α} {n : Nat} {w : Work}
    (hp : MapsOnly mapper pages n p) (hroom : mapper.HasRoom (w.2.mappings.length + n)) :
    (run p w).1 ≠ none := by
  obtain ⟨⟨new, hnew, hlen, -⟩, hpanic⟩ := hp w
  intro hnone
  have hfull := hpanic hnone
  rw [hnew, length_append, hroom _ (by omega)] at hfull
  cases hfull

section Methods

variable (mapper : Mapper)

theorem containingAddress_user {a : Nat} (h : a < 2 ^ 47) :
    ∃ page, Page.containingAddress a = some page :=
  ⟨Fin.ofNat (2 ^ 36) (a / 4096), if_pos (.inl (by omega))⟩

theorem mapsOnly_ofExcept {n : Nat} (x : Except MmError α) :
    MapsOnly mapper pages n (Prog.ofExcept x) := by
  cases x with
  | error e => exact mapsOnly_fail e
  | ok a => exact mapsOnly_ret a

theorem mapsOnly_mapSegmentLoop (segment : LoadSegment) (readChunk : ReadChunk)
    (hstop : stop < 2 ^ 64)
    (hrange : ∀ a, start ≤ a → a < stop → ∃ page, Page.containingAddress a = some page)
    (fuel : Nat) : ∀ cursor, start ≤ cursor →
    MapsOnly mapper (InRange start stop) (pageCount cursor stop)
      (mapSegmentLoop mapper segment readChunk stop fuel cursor) := by
  induction fuel with
  | zero => exact fun _ _ => mapsOnly_ret ()
  | succ fuel ih =>
    intro cursor hcursor
    by_cases hlt : cursor < stop
    · obtain ⟨page, hpage⟩ := hrange cursor hcursor hlt
      have hcount : 1 + pageCount (cursor + chunkLen page cursor stop) stop ≤
          pageCount cursor stop := by
        refine pageCount_next hlt hstop hpage ?_
        have hin := containingAddress_eq (hlt.trans hstop) hpage
        rw [chunkLen, PAGE_SIZE]
        omega
      rw [mapSegmentLoop_succ mapper segment readChunk hlt hpage]
      refine ((mapsOnly_mapPage mapper _ ⟨cursor, hcursor, hlt, hpage⟩).bind fun _ =>
        (mapsOnly_ofExcept mapper _).after fun _ => (mapsOnly_step fun _ => rfl).after fun _ =>
          ih _ (hcursor.trans (Nat.le_add_right _ _))).mono hcount fun _ => id
    · rw [mapSegmentLoop, if_neg hlt]
      exact mapsOnly_ret ()

theorem mapsOnly_mapZeroedRegionLoop (checks : Bool) (flags : PageFlags) (hstop : stop ≤ 2 ^ 47)
    (fuel : Nat) : ∀ cursor firstPage, start ≤ cursor → 0 < fuel → stop < cursor + fuel →
    MapsOnly mapper (InRange start stop) (pageCount cursor stop)
      (mapZeroedRegionLoop mapper checks flags start stop fuel cursor firstPage) := by
  induction fuel with
  | zero => exact fun _ _ _ hpos => absurd hpos (lt_irrefl 0)
  | succ fuel ih =>
    intro cursor firstPage hcursor _ hfuel
    rw [mapZeroedRegionLoop]
    split
    · rename_i hlt
      obtain ⟨page, hpage⟩ := containingAddress_user (hlt.trans_le hstop)
      obtain ⟨hlo, hhi⟩ := containingAddress_eq (by omega) hpage
      have hnext : fit checks (2 ^ 64) (page.startAddress + PAGE_SIZE) =
          some (page.startAddress + 4096) := if_pos (by rw [PAGE_SIZE]; omega)
      rw [hpage]
      refine ((mapsOnly_mapPage mapper _ ⟨cursor, hcursor, hlt, hpage⟩).bind fun _ => ?_).mono
        (pageCount_next hlt (by omega) hpage (.inl rfl)) fun _ => id
      rw [hnext]
      exact ih _ _ (by omega) (by omega) (by omega)
    · exact mapsOnly_ret _

theorem returns_kernel : Within False (Same fun _ => ()) kernel := by
  refine Within.bind (Within.bind (within_step fun _ => rfl) fun frame => ?_) fun _ =>
    Within.bind (within_step fun _ => rfl) fun _ => Within.bind (within_step fun _ => rfl)
      fun _ => within_ret _
  cases frame with
  | none => exact within_fail _
  | some frame => exact within_ret frame

theorem mapsOnly_writeBytes {bytes : List UInt8} (pages : Page → Prop) (h : vaddr < 2 ^ 47) :
    MapsOnly mapper pages 0 (writeBytes vaddr bytes) := by
  obtain ⟨page, hpage⟩ := containingAddress_user h
  rw [writeBytes, hpage]
  refine (mapsOnly_ret page).after fun page => (mapsOnly_step fun _ => rfl).after fun mapping => ?_
  cases mapping with
  | none => exact mapsOnly_fail _
  | some mapping => exact mapsOnly_step fun _ => rfl

end Methods

/-! ## Pages of the user -/

/-- The page ends below the end of the user, and these tables do not map it for the supervisor. -/
def UserPage (mm : Manager) (root : PhysFrame) (page : Page) : Prop :=
  page.startAddress + PAGE_SIZE ≤ USER_ADDRESS_END ∧
    ¬ Supervisor (tablesOf mm.memory) (UInt64.ofNat (frameStart root)) page.startAddress

/-- No page of the range is mapped for the supervisor. -/
def Unsupervised (mm : Manager) (root : PhysFrame) (start stop : Nat) : Prop :=
  ∀ page, InRange start stop page →
    ¬ Supervisor (tablesOf mm.memory) (UInt64.ofNat (frameStart root)) page.startAddress

/-- The pages that a segment is mapped to. -/
def LoadSegment.mappedPages (segment : LoadSegment) : Nat :=
  pageCount segment.virtualAddress.toNat segment.stop

/-- A segment of the user.  One that is too long for an address is refused, and one that is empty
may be anywhere but in the last page. -/
structure UserSegment (mm : Manager) (root : PhysFrame) (segment : LoadSegment) : Prop where
  below : segment.stop ≤ USIZE_MAX → segment.memorySize ≠ 0 → segment.stop ≤ USER_ADDRESS_END
  rounds : segment.stop ≤ USIZE_MAX → segment.stop + 4095 ≤ USIZE_MAX
  unsupervised : Unsupervised mm root segment.virtualAddress.toNat segment.stop

theorem userPage_of_inRange {mm : Manager} {root : PhysFrame} (hstop : stop ≤ USER_ADDRESS_END)
    (h : Unsupervised mm root start stop) (hpage : InRange start stop page) :
    UserPage mm root page := by
  refine ⟨?_, h page hpage⟩
  obtain ⟨a, -, hlt, ha⟩ := hpage
  rw [USER_ADDRESS_END] at hstop ⊢
  obtain ⟨hlo, -⟩ := containingAddress_eq (by omega) ha
  have hmod := startAddress_mod page
  rw [PAGE_SIZE]
  omega

section MapsOnly

variable (mapper : Mapper) {mm : Manager} {root : PhysFrame}

theorem mapSegment_refused (h : ¬ segment.stop ≤ USIZE_MAX) (readChunk : ReadChunk) :
    mapSegment mapper segment readChunk = fail .invalidAddress :=
  if_neg h

/-- **A segment of the user is mapped without a panic**, if there is room for the records. -/
theorem mapsOnly_segment (h : UserSegment mm root segment) (readChunk : ReadChunk) :
    MapsOnly mapper (UserPage mm root) segment.mappedPages
      (mapSegment mapper segment readChunk) := by
  by_cases hfits : segment.stop ≤ USIZE_MAX
  swap
  · rw [mapSegment_refused mapper hfits]
    exact mapsOnly_fail _
  have hin : ∀ a, segment.virtualAddress.toNat ≤ a → a < segment.stop →
      segment.stop ≤ USER_ADDRESS_END := by
    intro a hlo hlt
    refine h.below hfits fun hzero => ?_
    rw [LoadSegment.stop, hzero] at hlt
    exact absurd hlt (not_lt.2 hlo)
  rw [LoadSegment.stop] at hfits
  rw [mapSegment, if_pos hfits]
  refine (mapsOnly_mapSegmentLoop mapper segment readChunk (Nat.lt_succ_of_le hfits)
    (fun a hlo hlt => containingAddress_user (hlt.trans_le (hin a hlo hlt))) _ _
    (le_refl _)).mono (le_refl _) ?_
  rintro page ⟨a, hlo, hlt, ha⟩
  exact userPage_of_inRange (hin a hlo hlt) h.unsupervised ⟨a, hlo, hlt, ha⟩

/-- **So is a region of the user.** -/
theorem mapsOnly_region {size : Nat} (hstop : start + size ≤ USER_ADDRESS_END) :
    MapsOnly mapper (InRange start (start + size)) (pageCount start (start + size))
      (mapZeroedRegion mapper checks start size flags) := by
  have hfuel : start + size < start + 2 ^ 64 := by
    rw [USER_ADDRESS_END] at hstop
    omega
  rw [mapZeroedRegion]
  split
  · exact mapsOnly_mapZeroedRegionLoop mapper checks flags hstop _ _ _ (le_refl _) (by decide) hfuel
  · exact mapsOnly_fail _

end MapsOnly

end Krust.Mm
