import Krust.Mm.Records

/-!
# The image of a program

`execve` maps the segments of a file one after the other into a new address space.  Each page of a
segment is a new frame: zeros, and over them the bytes of the file that belong to the page
(`Shows`).  A page keeps what it shows as long as no other segment maps it (`Shows.adds`).

Segments that do not overlap may still meet inside a page.  The second one then maps the page again,
to a frame that has only its own bytes, and the bytes of the first are gone.  `segments_read_iff`
says which bytes this matters for: those that are not zero.
-/

set_option autoImplicit false

namespace Krust.Mm

open Arch Lib Prog List Option LoadSegment Page

/-! ## What is read -/

def readByte (m : Memory) (root : PhysFrame) (address : Nat) : Option UInt8 := do
  let page ← containingAddress address
  let e ← pageEntry m root page
  if e &&& PRESENT = 0 then none else some (m (frameStart (frameOf e) + address % PAGE_SIZE))

namespace LoadSegment

variable (segment : LoadSegment)

def stop : Nat := segment.virtualAddress.toNat + segment.memorySize.toNat

def Touches (page : Page) : Prop := InRange segment.virtualAddress.toNat segment.stop page

/-- The bytes of two segments are apart. -/
def Disjoint (other : LoadSegment) : Prop :=
  segment.stop ≤ other.virtualAddress.toNat ∨ other.stop ≤ segment.virtualAddress.toNat ∨
    segment.memorySize = 0 ∨ other.memorySize = 0

/-- A byte of the segment: one of the file, or zero. -/
def byte (file : List UInt8) (i : Nat) : UInt8 :=
  if i < segment.fileSize.toNat then file.getD (segment.fileOffset.toNat + i) 0 else 0

/-- What the pages of the segment show at an address. -/
def image (file : List UInt8) (address : Nat) : UInt8 :=
  if segment.virtualAddress.toNat ≤ address then
    segment.byte file (address - segment.virtualAddress.toNat)
  else 0

/-- All addresses of the segment are in pages. -/
def Mappable : Prop :=
  segment.stop < 2 ^ 64 ∧ ∀ a, segment.virtualAddress.toNat ≤ a → a < segment.stop →
    ∃ page, containingAddress a = some page

/-- **The later segment spares the bytes of this one**: where they are in a page that it maps, they
are zero. -/
def Spares (file : List UInt8) (later : LoadSegment) : Prop :=
  ∀ i, i < segment.memorySize.toNat → ∀ page,
    containingAddress (segment.virtualAddress.toNat + i) = some page → later.Touches page →
    segment.byte file i = 0

end LoadSegment

def ReadsFile (readChunk : ReadChunk) (file : List UInt8) : Prop :=
  ∀ offset len data, readChunk offset len = .ok data → data = slice file offset data.length

def mapSegments (mapper : Mapper) (readChunk : ReadChunk) :
    List LoadSegment → Prog Work MmError Unit :=
  forEach fun segment => mapSegment mapper segment readChunk

/-- The first part of loading a program: a new space with the segments.  An image that cannot be
finished is dropped. -/
def loadImage (mapper : Mapper) (readChunk : ReadChunk) (segments : List LoadSegment) :
    Prog Manager MmError AddressSpace := do
  let space ← kernel
  let (r, space) ← withLocal (mapSegments mapper readChunk segments) space
  match r with
  | .ok () => ret space
  | .error e => do
    dropSpace space
    fail e

/-! ## What a page shows -/

/-- **The page shows these bytes**, by their addresses. -/
def Shows (w : Work) (page : Page) (image : Nat → UInt8) : Prop :=
  ∃ mapping, w.2.last page = some mapping ∧ mapping.flags.bits &&& PRESENT ≠ 0 ∧
    ∀ j, j < 4096 → w.1.memory (frameStart mapping.frame + j) = image (page.startAddress + j)

theorem startAddress_mod (page : Page) : page.startAddress % 4096 = 0 := by
  rw [startAddress]
  split <;> omega

variable {buf : List UInt8} {a i : Nat} {image : Nat → UInt8} {page : Page} {pages : Page → Prop}
  {α : Type}

theorem containingAddress_of_mem (hlo : page.startAddress ≤ a)
    (hhi : a < page.startAddress + 4096) : containingAddress a = some page := by
  rw [startAddress] at hlo hhi
  by_cases hhalf : page.val < 2 ^ 35
  · rw [if_pos hhalf] at hlo hhi
    rw [containingAddress, if_pos (by omega), some.injEq, Fin.ext_iff, Fin.val_ofNat]
    omega
  rw [if_neg hhalf] at hlo hhi
  rw [containingAddress, if_pos (by omega), some.injEq, Fin.ext_iff, Fin.val_ofNat]
  omega

variable {w : Work}

theorem Shows.readByte_eq (hcurrent : Current w) (h : Shows w page image)
    (ha : a < 2 ^ 64) (hpage : containingAddress a = some page) :
    readByte w.1.memory w.2.rootFrame a = some (image a) := by
  obtain ⟨mapping, hlast, hpresent, hbytes⟩ := h
  obtain ⟨hlo, hhi⟩ := containingAddress_eq ha hpage
  have hmod := startAddress_mod page
  have hoffset : page.startAddress + a % 4096 = a := by omega
  rw [readByte, hpage, bind_eq_bind, bind_some,
    (hcurrent page mapping hlast).pageEntry_eq, bind_eq_bind, bind_some,
    makeEntry_and _ rfl, if_neg hpresent, frameOf_makeEntry _ mapping.flags.noAddress, PAGE_SIZE,
    hbytes _ (Nat.mod_lt _ (by decide)), hoffset]

def pageFrames (w : Work) : List PhysFrame := w.2.mappings.map (·.frame)

theorem kept_pageFrames (w : Work) : Kept (pageFrames w) w.2 := fun _ hf => hf

/-- The last record of a page that has not been mapped is as before. -/
theorem Adds.last_eq {keep : List PhysFrame} {w' : Work} (h : Adds pages keep w w')
    (hpage : ¬ pages page) : w'.2.last page = w.2.last page := by
  obtain ⟨new, hnew, -, hpages⟩ := h.records
  have hnone : new.reverse.find? (fun mapping => decide (mapping.page = page)) = none := by
    rw [find?_eq_none]
    intro mapping hmem heq
    exact hpage (of_decide_eq_true heq ▸ hpages mapping (mem_reverse.1 hmem))
  rw [AddressSpace.last, AddressSpace.last, hnew, reverse_append, find?_append, hnone,
    none_or]

/-- **Other pages are mapped, and the page shows what it showed.** -/
theorem Shows.adds {w' : Work} (hadds : Adds pages (pageFrames w) w w') (h : Shows w page image)
    (hpage : ¬ pages page) : Shows w' page image := by
  obtain ⟨mapping, hlast, hpresent, hbytes⟩ := h
  refine ⟨mapping, (hadds.last_eq hpage).trans hlast, hpresent, fun j hj => ?_⟩
  have hmem : mapping.frame ∈ pageFrames w :=
    mem_map_of_mem (mem_reverse.1 (mem_of_find?_eq_some hlast))
  rw [← hbytes j hj]
  refine hadds.memory _ fun f hf hin => ?_
  have heq : mapping.frame = f := InFrame.unique ⟨Nat.le_add_right _ _, by omega⟩ hin
  rw [writable, mem_filter] at hf
  exact of_decide_eq_true hf.2 (heq ▸ hmem)

/-! ## A segment -/

theorem pageFlagsFromSegment_present (flags : SegmentPermissions) :
    (targetFlags (pageFlagsFromSegment flags)).bits &&& PRESENT ≠ 0 := by
  rcases flags with ⟨_, _ | _, _⟩ <;> decide +revert

variable {common : Nat → PhysFrame → Prop} {segment : LoadSegment} {readChunk : ReadChunk}
  {file : List UInt8}

/-- A round of `map_segment` starts where the segment starts or at the start of a page. -/
def RoundStart (segment : LoadSegment) (cursor : Nat) : Prop :=
  segment.virtualAddress.toNat ≤ cursor ∧
    (cursor = segment.virtualAddress.toNat ∨ cursor % 4096 = 0)

section Round

variable (hread : ReadsFile readChunk file) (hfile : file.length ≤ USIZE_MAX)

include hread hfile

/-- The bytes that `map_segment` writes to a page. -/
theorem getD_readPage {fileOffset fileLen pageOffset : Nat}
    (hlen : pageOffset + fileLen ≤ PAGE_SIZE)
    (hbuf : readPage readChunk (min fileOffset USIZE_MAX) fileLen pageOffset = .ok buf) (j : Nat) :
    buf.getD j 0 = if pageOffset ≤ j ∧ j < pageOffset + fileLen then
      file.getD (fileOffset + (j - pageOffset)) 0 else 0 := by
  have hzeros : ∀ i, (List.replicate PAGE_SIZE (0 : UInt8)).getD i 0 = 0 := by
    intro i
    rw [getD_eq_getElem?_getD, getElem?_replicate]
    split <;> rfl
  rw [readPage] at hbuf
  split at hbuf
  · rcases hdata : readChunk (min fileOffset USIZE_MAX) fileLen with e | data
    · rw [hdata] at hbuf
      cases hbuf
    rw [hdata] at hbuf
    dsimp only at hbuf
    split at hbuf
    · cases hbuf
    rename_i hlength
    have hlength' : data.length = fileLen := not_not.1 hlength
    have hslice := hread _ _ _ hdata
    -- A whole chunk has been read, so the offset is one in the file.
    have hsome : data.length = min fileLen (file.length - min fileOffset USIZE_MAX) := by
      rw [hslice, length_slice, hlength']
    have hoffset : min fileOffset USIZE_MAX = fileOffset := by omega
    cases hbuf
    rw [getD_overwrite (by rw [length_replicate, hlength']; exact hlen), hzeros, hlength']
    by_cases hin : pageOffset ≤ j ∧ j < pageOffset + fileLen
    · rw [if_pos hin, if_pos hin, hslice, getD_slice, if_pos (by omega), hoffset]
    · rw [if_neg hin, if_neg hin]
  · cases hbuf
    rw [hzeros, if_neg (by omega)]

/-- The page that a round writes has the bytes of the segment. -/
theorem getD_segmentPage (hsize : segment.fileSize.toNat ≤ segment.memorySize.toNat) {cursor : Nat}
    (hstart : RoundStart segment cursor) (hlt : cursor < segment.stop)
    (hstop : segment.stop < 2 ^ 64) (hpage : containingAddress cursor = some page)
    (hbuf : segmentPage segment readChunk page cursor segment.stop = .ok buf) {j : Nat}
    (hj : j < 4096) : buf.getD j 0 = segment.image file (page.startAddress + j) := by
  obtain ⟨hlo, hhi⟩ := containingAddress_eq (hlt.trans hstop) hpage
  have hmod := startAddress_mod page
  obtain ⟨hle, hround⟩ := hstart
  rw [getD_readPage hread hfile (by rw [chunkLen, PAGE_SIZE]; omega) hbuf, image,
    byte]
  rw [stop] at hlt
  rw [chunkLen, PAGE_SIZE, stop]
  by_cases hin : segment.virtualAddress.toNat ≤ page.startAddress + j ∧
      page.startAddress + j - segment.virtualAddress.toNat < segment.fileSize.toNat
  · rw [if_pos (by omega), if_pos hin.1, if_pos hin.2]
    congr 1
    omega
  rw [if_neg (by omega)]
  split
  · rw [if_neg (by omega)]
  · rfl

section Segment

variable (mapper : Mapper) (hsize : segment.fileSize.toNat ≤ segment.memorySize.toNat)
include hsize

/-- **The pages of the segment show its bytes.** -/
theorem shows_mapSegmentLoop (hstop : segment.stop < 2 ^ 64) {fuel : Nat} :
    ∀ {w : Work} {cursor : Nat}, Wf common w → RoundStart segment cursor →
    segment.stop ≤ cursor + fuel →
    Ends (mapSegmentLoop mapper segment readChunk segment.stop fuel cursor) (fun r w' =>
      r = some (.ok ()) → ∀ a, cursor ≤ a → a < segment.stop →
        ∃ page, containingAddress a = some page ∧ Shows w' page (segment.image file)) w := by
  induction fuel with
  | zero =>
    intro w cursor _ _ hfuel _ a hlo hhi
    omega
  | succ fuel ih =>
    intro w cursor hw hstart hfuel
    by_cases hlt : cursor < segment.stop
    · refine ends_mapSegmentLoop mapper hw (kept_nil w.2) hlt hstop
        (fun r w' hr _ _ hok => absurd hok (hr ())) ?_
      intro page frame buf w' hpage hw' hadds hmappings hbuf hwindow
      obtain ⟨hlo, hhi⟩ := containingAddress_eq (hlt.trans hstop) hpage
      have hmod := startAddress_mod page
      have hnext : RoundStart segment (cursor + chunkLen page cursor segment.stop) ∨
          segment.stop ≤ cursor + chunkLen page cursor segment.stop := by
        rw [RoundStart, chunkLen, PAGE_SIZE]
        have := hstart.1
        omega
      have hchunk : 1 ≤ chunkLen page cursor segment.stop := by
        rw [chunkLen, PAGE_SIZE]
        omega
      have hself : Shows w' page (segment.image file) := by
        refine ⟨⟨page, frame, targetFlags (pageFlagsFromSegment segment.flags)⟩, ?_,
          pageFlagsFromSegment_present segment.flags, fun j hj => ?_⟩
        · rw [AddressSpace.last, hmappings, reverse_append]
          exact find?_cons_of_pos (by simp)
        · rw [← getD_segmentPage hread hfile hsize hstart hlt hstop hpage hbuf hj, ← hwindow,
            getD_window _ _ _ hj]
      -- The rest of the segment shows its bytes, and leaves this page alone.
      have hrest : Ends (mapSegmentLoop mapper segment readChunk segment.stop fuel
          (cursor + chunkLen page cursor segment.stop)) _ w' :=
        adds_mapSegmentLoop mapper hstop hw' (kept_pageFrames w')
      have hpages : Ends (mapSegmentLoop mapper segment readChunk segment.stop fuel
          (cursor + chunkLen page cursor segment.stop)) (fun r w'' => r = some (.ok ()) →
          ∀ a, cursor + chunkLen page cursor segment.stop ≤ a → a < segment.stop →
            ∃ page', containingAddress a = some page' ∧
              Shows w'' page' (segment.image file)) w' := by
        rcases hnext with hnext | hnext
        · exact ih hw' hnext (by omega)
        · intro _ a hlo' hhi'
          omega
      intro hok a hlo' hhi'
      by_cases hnear : a < cursor + chunkLen page cursor segment.stop
      · rw [chunkLen, PAGE_SIZE] at hnear
        exact ⟨page, containingAddress_of_mem (by omega) (by omega),
          hself.adds hrest.2 (not_inRange_next hlt hstop hpage)⟩
      · exact hpages hok a (not_lt.1 hnear) hhi'
    · intro _ a hlo hhi
      omega

theorem shows_mapSegment (hw : Wf common w) :
    Ends (mapSegment mapper segment readChunk) (fun r w' => r = some (.ok ()) →
      segment.Mappable ∧ ∀ page, segment.Touches page → Shows w' page (segment.image file)) w := by
  rw [mapSegment]
  split_ifs with hle
  · have hstop : segment.stop < 2 ^ 64 := lt_of_le_of_lt hle (by decide)
    have hloop : Ends (mapSegmentLoop mapper segment readChunk segment.stop
        segment.memorySize.toNat segment.virtualAddress.toNat) _ w :=
      shows_mapSegmentLoop hread hfile mapper hsize hstop hw ⟨le_refl _, .inl rfl⟩ (le_refl _)
    intro hok
    refine ⟨⟨hstop, fun a hlo hhi => ?_⟩, fun page hpage => ?_⟩
    · obtain ⟨page, hpage, -⟩ := hloop hok a hlo hhi
      exact ⟨page, hpage⟩
    obtain ⟨a, hlo, hhi, ha⟩ := hpage
    obtain ⟨page', hpage', hshows⟩ := hloop hok a hlo hhi
    cases ha.symm.trans hpage'
    exact hshows
  · rintro ⟨⟩

end Segment

end Round

/-! ## All segments -/

/-- Every page shows the segment that was the last to map it. -/
def Loaded (file : List UInt8) (segments : List LoadSegment) (w : Work) : Prop :=
  ∀ before segment after, segments = before ++ segment :: after → ∀ page, segment.Touches page →
    (∀ later ∈ after, ¬ later.Touches page) → Shows w page (segment.image file)

variable {segments : List LoadSegment}

theorem Loaded.concat {w' : Work} (h : Loaded file segments w)
    (hadds : Adds segment.Touches (pageFrames w) w w')
    (hself : ∀ page, segment.Touches page → Shows w' page (segment.image file)) :
    Loaded file (segments ++ [segment]) w' := by
  intro before segment' after heq page hpage hafter
  rcases eq_nil_or_concat' after with rfl | ⟨after', last, rfl⟩
  · obtain ⟨-, rfl⟩ := append_singleton_inj.1 heq
    exact hself page hpage
  have hsplit : segments ++ [segment] = (before ++ segment' :: after') ++ [last] := by
    rw [heq, append_assoc, cons_append]
  obtain ⟨hsegments, rfl⟩ := append_singleton_inj.1 hsplit
  refine (h before segment' after' hsegments page hpage fun later hmem =>
    hafter later (mem_append_left _ hmem)).adds hadds (hafter _ ?_)
  exact mem_append_right _ mem_cons_self

theorem loaded_mapSegments (mapper : Mapper) (hread : ReadsFile readChunk file)
    (hfile : file.length ≤ USIZE_MAX)
    (hsize : ∀ segment ∈ segments, segment.fileSize.toNat ≤ segment.memorySize.toNat) :
    ∀ {done : List LoadSegment} {w : Work}, Wf common w → Current w → Loaded file done w →
    Ends (mapSegments mapper readChunk segments) (fun r w' => r = some (.ok ()) →
      Current w' ∧ Loaded file (done ++ segments) w' ∧
        ∀ segment ∈ segments, segment.Mappable) w := by
  induction segments with
  | nil =>
    intro done w _ hcurrent hloaded _
    rw [append_nil]
    exact ⟨hcurrent, hloaded, forall_mem_nil _⟩
  | cons segment segments ih =>
    intro done w hw hcurrent hloaded
    have hadds := adds_mapSegment mapper hw (kept_pageFrames w) segment readChunk
    have hshows := shows_mapSegment hread hfile mapper (hsize segment mem_cons_self) hw
    rw [mapSegments, forEach, ends_bind, Ends]
    rw [Ends] at hadds hshows
    generalize run (mapSegment mapper segment readChunk) w = result at hadds hshows
    obtain ⟨r, w'⟩ := result
    rcases r with _ | e | ⟨⟩
    · rintro ⟨⟩
    · rintro ⟨⟩
    rw [andThen_ok]
    obtain ⟨hmappable, hself⟩ := hshows rfl
    refine (ih (forall_mem_cons.1 hsize).2 hadds.1
      (hadds.2.current hcurrent) (hloaded.concat hadds.2 hself)).mono fun r w'' hrest hok => ?_
    obtain ⟨hcurrent', hloaded', hall⟩ := hrest hok
    rw [append_assoc] at hloaded'
    exact ⟨hcurrent', hloaded', forall_mem_cons.2 ⟨hmappable, hall⟩⟩

/-! ## What user code reads -/

theorem exists_last (P : α → Prop) (l : List α) :
    (∀ x ∈ l, ¬ P x) ∨ ∃ before x after, l = before ++ x :: after ∧ P x ∧ ∀ y ∈ after, ¬ P y := by
  induction l with
  | nil => exact .inl nofun
  | cons a l ih =>
    rcases ih with hnone | ⟨before, x, after, rfl, hx, hafter⟩
    · by_cases ha : P a
      · exact .inr ⟨[], a, l, rfl, ha, hnone⟩
      · exact .inl (forall_mem_cons.2 ⟨ha, hnone⟩)
    · exact .inr ⟨a :: before, x, after, rfl, hx, hafter⟩

theorem pairwise_iff_split {R : α → α → Prop} {l : List α} :
    l.Pairwise R ↔ ∀ before x after, l = before ++ x :: after → ∀ y ∈ after, R x y := by
  constructor
  · rintro h before x after rfl y hy
    exact rel_of_pairwise_cons (pairwise_append.1 h).2.1 hy
  · intro h
    induction l with
    | nil => exact .nil
    | cons a l ih =>
      refine pairwise_cons.2 ⟨h [] a l rfl, ih fun before x after heq => ?_⟩
      exact h (a :: before) x after (congrArg (List.cons a) heq)

/-- At the addresses of another segment the pages of a segment show zeros. -/
theorem image_eq_zero {later : LoadSegment} (hsize : later.fileSize.toNat ≤ later.memorySize.toNat)
    (hdisjoint : segment.Disjoint later) (hi : i < segment.memorySize.toNat) :
    later.image file (segment.virtualAddress.toNat + i) = 0 := by
  rw [image]
  split
  · refine if_neg fun hlt => ?_
    rcases hdisjoint with hbelow | habove | hzero | hzero
    · rw [stop] at hbelow
      omega
    · rw [stop] at habove
      omega
    · rw [hzero] at hi
      cases hi
    rw [hzero] at hsize
    have : (0 : UInt64).toNat = 0 := rfl
    omega
  · rfl

theorem image_self :
    segment.image file (segment.virtualAddress.toNat + i) = segment.byte file i := by
  rw [image, if_pos (Nat.le_add_right _ _), Nat.add_sub_cancel_left]

section Read

variable {segments : List LoadSegment} {w : Work} (hcurrent : Current w)
  (hloaded : Loaded file segments w)
  (hmappable : ∀ segment ∈ segments, segment.Mappable)
  (hsize : ∀ segment ∈ segments, segment.fileSize.toNat ≤ segment.memorySize.toNat)
  (hdisjoint : segments.Pairwise LoadSegment.Disjoint)

include hcurrent hloaded hmappable hsize hdisjoint

/-- **A byte reads as it should unless a later segment has mapped its page**; then it reads as
zero. -/
theorem readByte_cases {before after : List LoadSegment}
    (heq : segments = before ++ segment :: after) (hi : i < segment.memorySize.toNat) :
    ∃ page, containingAddress (segment.virtualAddress.toNat + i) = some page ∧
      (((∀ later ∈ after, ¬ later.Touches page) ∧
        readByte w.1.memory w.2.rootFrame (segment.virtualAddress.toNat + i) =
          some (segment.byte file i)) ∨
      ((∃ later ∈ after, later.Touches page) ∧
        readByte w.1.memory w.2.rootFrame (segment.virtualAddress.toNat + i) = some 0)) := by
  have hmem : segment ∈ segments := heq ▸ mem_append_right _ mem_cons_self
  have hstop : segment.virtualAddress.toNat + i < segment.stop := Nat.add_lt_add_left hi _
  obtain ⟨hlt, hpages⟩ := hmappable segment hmem
  obtain ⟨page, hpage⟩ := hpages _ (Nat.le_add_right _ _) hstop
  refine ⟨page, hpage, ?_⟩
  rcases exists_last (·.Touches page) after with hnone | ⟨between, later, rest, rfl, hlater, hrest⟩
  · have hshows := hloaded before segment after heq page
      ⟨_, Nat.le_add_right _ _, hstop, hpage⟩ hnone
    refine .inl ⟨hnone, ?_⟩
    rw [hshows.readByte_eq hcurrent (hstop.trans hlt) hpage, image_self]
  have hsplit : segments = (before ++ segment :: between) ++ later :: rest := by
    rw [heq, append_assoc, cons_append]
  have hafter : later ∈ between ++ later :: rest := mem_append_right _ mem_cons_self
  have hlaterMem : later ∈ segments := hsplit ▸ mem_append_right _ mem_cons_self
  have hshows := hloaded _ later rest hsplit page hlater hrest
  refine .inr ⟨⟨later, hafter, hlater⟩, ?_⟩
  rw [hshows.readByte_eq hcurrent (hstop.trans hlt) hpage, image_eq_zero (hsize later hlaterMem)
    (pairwise_iff_split.1 hdisjoint _ _ _ heq later hafter) hi]

theorem reads_iff :
    (∀ segment ∈ segments, ∀ i, i < segment.memorySize.toNat →
      readByte w.1.memory w.2.rootFrame (segment.virtualAddress.toNat + i) =
        some (segment.byte file i)) ↔
      segments.Pairwise fun segment later => segment.Spares file later := by
  rw [pairwise_iff_split]
  constructor
  · intro hreads before segment after heq later hlater i hi page hpage htouches
    have hmem : segment ∈ segments := heq ▸ mem_append_right _ mem_cons_self
    obtain ⟨page', hpage', hcases⟩ :=
      readByte_cases hcurrent hloaded hmappable hsize hdisjoint heq hi
    cases hpage.symm.trans hpage'
    rcases hcases with ⟨hnone, -⟩ | ⟨-, hzero⟩
    · exact absurd htouches (hnone later hlater)
    · exact some.inj ((hreads segment hmem i hi).symm.trans hzero)
  · intro hspares segment hmem i hi
    obtain ⟨before, after, heq⟩ := append_of_mem hmem
    obtain ⟨page, hpage, ⟨-, hbyte⟩ | ⟨⟨later, hlater, htouches⟩, hzero⟩⟩ :=
      readByte_cases hcurrent hloaded hmappable hsize hdisjoint heq hi
    · exact hbyte
    · rw [hzero, hspares before segment after heq later hlater i hi page hpage htouches]

end Read

variable {mm mm' : Manager} {space : AddressSpace}

/-- An image that has been loaded is a new space into which all segments have been mapped. -/
theorem run_loadImage {mapper : Mapper}
    (h : run (loadImage mapper readChunk segments) mm = (some (.ok space), mm')) :
    ∃ space0 mm0, run kernel mm = (some (.ok space0), mm0) ∧
      run (mapSegments mapper readChunk segments) (mm0, space0) =
        (some (.ok ()), (mm', space)) := by
  rw [loadImage, bind_eq, run_bind] at h
  rcases hnew : run kernel mm with ⟨_ | e | space0, mm0⟩ <;> rw [hnew] at h
  · cases h
  · cases h
  refine ⟨space0, mm0, rfl, ?_⟩
  dsimp only at h
  rw [bind_eq, run_bind, run_withLocal] at h
  generalize run (mapSegments mapper readChunk segments) (mm0, space0) = result at h
  obtain ⟨_ | e | ⟨⟩, w⟩ := result
  · cases h
  · cases h
  · cases h
    rfl

/-- **Which segments are read as they should be.**  Segments that are apart have been mapped into a
new space, all of them with success.  Every byte of every segment then reads as the byte of the
file, or as zero behind them, exactly if no later segment maps a page in which an earlier one has a
byte that is not zero. -/
theorem segments_read_iff (mapper : Mapper)
    (hpool : mm.allocator.pool.Nodup) (hkernel : ∀ d t, KernelTable mm d t → t ∉ mm.allocator.pool)
    (hread : ReadsFile readChunk file) (hfile : file.length ≤ USIZE_MAX)
    {segments : List LoadSegment} (hdisjoint : segments.Pairwise LoadSegment.Disjoint)
    (hsize : ∀ segment ∈ segments, segment.fileSize.toNat ≤ segment.memorySize.toNat)
    (hrun : run (loadImage mapper readChunk segments) mm = (some (.ok space), mm')) :
    (∀ segment ∈ segments, ∀ i, i < segment.memorySize.toNat →
      readByte mm'.memory space.rootFrame (segment.virtualAddress.toNat + i) =
        some (segment.byte file i)) ↔
      segments.Pairwise fun segment later => segment.Spares file later := by
  obtain ⟨space0, mm0, hnew, hsegments⟩ := run_loadImage hrun
  have hmanager : WfManager (KernelTable mm) mm :=
    (good_runOps mapper true hpool hkernel []).1.wfManager
  have hcreated := ends_kernel hmanager
  have hempty : Ends kernel _ mm := ends_kernel_mappings
  rw [Ends, hnew] at hcreated hempty
  have hnone : Loaded file [] (mm0, space0) := fun before _ _ heq => by cases before <;> cases heq
  have hloaded := loaded_mapSegments mapper hread hfile hsize hcreated.1
    (current_of_nil (hempty space0 rfl)).1 hnone
  rw [Ends, hsegments] at hloaded
  obtain ⟨hcurrent, hloaded, hmappable⟩ := hloaded rfl
  exact reads_iff (w := (mm', space)) hcurrent hloaded hmappable hsize hdisjoint

/-! ## Two small files -/

/-- A file that can be read. -/
def readFrom (file : List UInt8) : ReadChunk := fun offset len => .ok (slice file offset len)

theorem readsFile_readFrom (file : List UInt8) : ReadsFile (readFrom file) file := by
  rintro offset len data ⟨⟩
  simp [slice]

def byteSegment (address offset : UInt64) : LoadSegment :=
  ⟨address, 2, offset, 1, ⟨true, true, false⟩⟩

/-- Segments in two pages. -/
theorem segments_read_apart :
    ∃ space mm', run (loadImage walkMapper (readFrom [7, 9]) [byteSegment 0x5ffe 0,
        byteSegment 0x6000 1]) smallManager = (some (.ok space), mm') ∧
      readByte mm'.memory space.rootFrame 0x5ffe = some 7 := by
  have hok : ((run (loadImage walkMapper (readFrom [7, 9]) [byteSegment 0x5ffe 0,
      byteSegment 0x6000 1]) smallManager).1.bind Except.toOption).isSome := by decide +kernel
  rcases hrun : run (loadImage walkMapper (readFrom [7, 9]) [byteSegment 0x5ffe 0,
      byteSegment 0x6000 1]) smallManager with ⟨_ | e | space, mm'⟩ <;> rw [hrun] at hok
  · cases hok
  · cases hok
  refine ⟨space, mm', rfl, (segments_read_iff walkMapper (by decide) smallManager_apart
    (readsFile_readFrom [7, 9]) (by decide) ?_ (by decide) hrun).2 ?_ _ mem_cons_self 0
    (by decide)⟩
  · refine pairwise_pair.2 (.inl ?_)
    decide
  refine pairwise_pair.2 ?_
  rintro i hi page hpage ⟨a, hlo, hhi, ha⟩
  -- The first segment ends with its page.
  have hin := containingAddress_eq (by change 0x5ffe + i < 2 ^ 64; change i < 2 at hi; omega) hpage
  have hin' := containingAddress_eq (by change a < 0x6002 at hhi; omega) ha
  have hmod := startAddress_mod page
  change 0x6000 ≤ a at hlo
  change i < 2 at hi
  change page.startAddress ≤ 0x5ffe + i ∧ _ at hin
  omega

/-- **Segments that share a page**: the byte of the first is gone. -/
theorem shared_page_lost :
    let segments := [byteSegment 0x5000 0, byteSegment 0x5200 1]
    let r := run (loadImage walkMapper (readFrom [7, 9]) segments) smallManager
    segments.Pairwise LoadSegment.Disjoint ∧ (byteSegment 0x5000 0).byte [7, 9] 0 = 7 ∧
      (r.1.bind Except.toOption).map (fun space => readByte r.2.memory space.rootFrame 0x5000) =
        some (some 0) := by
  refine ⟨pairwise_pair.2 (.inl ?_), ?_, ?_⟩
  · decide
  · decide
  · decide +kernel

end Krust.Mm
