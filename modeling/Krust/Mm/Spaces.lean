import Krust.Mm.Ownership

/-!
# The methods of address spaces

The methods of an address space that map several pages, and those that make a space.  Each method
changes the translations of its own pages alone (`adds_mapSegment`, `adds_mapZeroedRegion`,
`ends_copyMappings`, `ends_clear`).  A space that is made by `kernel` or by `clone_for_fork` takes
its frames from the pool, and they all go back if it cannot be finished (`ends_kernel`,
`ends_cloneForFork`).
-/

set_option autoImplicit false

namespace Krust.Mm

open Arch Lib Prog List Option Page FrameAllocator

variable {common : Nat → PhysFrame → Prop} {keep : List PhysFrame} {w : Work}

/-! ## Writing to pages -/

variable {checks : Bool} {changes : List (Fin 512) → Prop} {m : Memory} {fuel next start : Nat}
  {f frame : PhysFrame} {α : Type} {w' : Work}

theorem notMem_tables_of_mem_mappings (hw : Wf common w) (hf : f ∈ w.2.mappings.map (·.frame)) :
    f ∉ w.2.tables := by
  intro ht
  have hnodup := (nodup_append.1 hw.nodup).2.1
  rw [AddressSpace.frames, append_assoc, nodup_append] at hnodup
  refine hnodup.2.2 f hf f ?_ rfl
  rw [mem_append, mem_singleton]
  exact (mem_cons.1 ht).symm

theorem mem_frames_of_mem_mappings (hf : f ∈ w.2.mappings.map (·.frame)) : f ∈ frames w :=
  mem_append_right _ (mem_append_left _ (mem_append_left _ hf))

/-- **A page is written.** -/
theorem Wf.writePage (hw : Wf common w) (hf : f ∈ w.2.mappings.map (·.frame)) (hkeep : f ∉ keep)
    (h : Changed [f] w.1.memory m) :
    Wf common ({ w.1 with memory := m }, w.2) ∧
      Adds (fun _ => False) keep w ({ w.1 with memory := m }, w.2) := by
  have hnoTable : ∀ g ∈ [f], g ∉ w.2.tables ∧ ∀ d, ¬ common d g := by
    intro g hg
    rw [mem_singleton.1 hg]
    exact ⟨notMem_tables_of_mem_mappings hw hf, fun d hd =>
      hw.apart d f hd (mem_frames_of_mem_mappings hf)⟩
  have hlook := lookup_of_changed h hnoTable
  have hentry : ∀ page e, HasEntry w page e → HasEntry ({ w.1 with memory := m }, w.2) page e := by
    intro page e he
    refine HasEntry.ofChanged hw ?_ hnoTable he
    exact h
  refine ⟨⟨hw.nodup, hw.apart, hw.kernelRoot, hw.owns.congr hlook⟩, .ofTables ⟨rfl, rfl, .refl _,
    h.mono fun g hg => ?_, fun key _ => congrArg _ (hw.owns.find_congr hlook key)⟩ rfl hentry⟩
  rw [mem_singleton.1 hg, writable, mem_filter, decide_eq_true_iff]
  exact ⟨mem_frames_of_mem_mappings hf, hkeep⟩

variable {page : Page} {flags : PageFlags} {readChunk : ReadChunk} {cursor stop : Nat}

/-- The frame of a page that has just been mapped is one of the space, and none of those before. -/
theorem Maps.frame_mem (h : Maps w page flags frame w') : frame ∈ w'.2.mappings.map (·.frame) := by
  rw [h.mappings, map_append]
  exact mem_append_right _ mem_cons_self

theorem Maps.frame_notMem (h : Maps w page flags frame w') (hw' : Wf common w')
    (hkeep : Kept keep w.2) : frame ∉ keep := by
  intro hmem
  have hnodup := (nodup_append.1 (nodup_append.1 (nodup_append.1
    hw'.nodup).2.1).1).1
  rw [h.mappings, map_append, nodup_append] at hnodup
  exact hnodup.2.2 frame (hkeep frame hmem) frame mem_cons_self rfl

variable (mapper : Mapper) {k : PhysFrame → Prog Work MmError α}

/-- The rule for a page that is mapped: it cannot be, or it has been. -/
theorem ends_mapPage_bind (hw : Wf common w) (hkeep : Kept keep w.2)
    {Q : Option (Except MmError α) → Work → Prop}
    (hstop : ∀ r w', (∀ a, r ≠ some (.ok a)) → Wf common w' → Adds (· = page) keep w w' → Q r w')
    (hok : ∀ frame w', Wf common w' → Adds (· = page) keep w w' →
      Maps w page flags frame w' → frame ∉ keep → Ends (k frame) Q w') :
    Ends (Prog.bind (mapPage mapper page flags) k) Q w := by
  rw [ends_bind]
  refine (ends_mapPage mapper hw hkeep page flags).mono fun r w' h => ?_
  rcases r with _ | e | frame
  · exact hstop _ w' nofun h.1 h.2
  · exact hstop _ w' nofun h.1 h.2
  · obtain ⟨hw', hadds, hmaps⟩ := h
    exact hok frame w' hw' hadds hmaps (hmaps.frame_notMem hw' hkeep)

/-! ## The other methods -/

theorem kept_nil (space : AddressSpace) : Kept [] space := nofun

/-- Pages are copied; where they are all different there is one record for each. -/
theorem ends_copyMappings {l : List Mapping} : ∀ {w : Work}, Wf common w →
    Ends (copyMappings mapper l) (fun _ w' => Wf common w' ∧ Effect (fun _ => True) [] w w' ∧
      ((l.map (·.page)).Nodup → Adds (· ∈ l.map (·.page)) [] w w')) w := by
  induction l with
  | nil => exact fun hw => ⟨hw, .refl _ _ _, fun _ => .refl _ _ _⟩
  | cons mapping rest ih =>
    intro w hw
    refine ends_mapPage_bind mapper hw (kept_nil _) (fun _ w' _ hw' hadds => ⟨hw',
      hadds.toEffect.mono fun _ _ => trivial, fun _ => hadds.mono fun _ heq => heq ▸ mem_cons_self⟩)
      fun frame w' hw' hadds hmaps hnotMem => ?_
    have h := hw'.writePage hmaps.frame_mem hnotMem
      (changed_copyFrameContents w'.1.memory mapping.frame frame (mem_singleton.2 rfl))
    have hmapped := hadds.before h.2
    rw [writeMemory, bind_eq, ends_update]
    refine (ih h.1).mono fun _ w'' hrest => ⟨hrest.1, ?_, fun hnodup => ?_⟩
    · exact (hmapped.toEffect.mono fun _ _ => trivial).trans hrest.2.1
    rw [map_cons, nodup_cons] at hnodup
    refine (hmapped.append (hrest.2.2 hnodup.2) ?_).mono ?_
    · rintro _ rfl
      exact hnodup.1
    rintro page (rfl | hmem)
    · exact mem_cons_self
    · exact mem_cons_of_mem _ hmem

theorem containingAddress_eq {a : Nat} (ha : a < 2 ^ 64) (h : containingAddress a = some page) :
    page.startAddress ≤ a ∧ a < page.startAddress + 4096 := by
  rw [containingAddress] at h
  split at h
  · cases h
    rw [startAddress, Fin.val_ofNat]
    split <;> omega
  · cases h

theorem length_readPage {fileOffset fileLen pageOffset : Nat} {buf : List UInt8}
    (hlen : pageOffset + fileLen ≤ PAGE_SIZE)
    (h : readPage readChunk fileOffset fileLen pageOffset = .ok buf) : buf.length = PAGE_SIZE := by
  rw [readPage] at h
  split at h
  · split at h
    · cases h
    · split at h
      · cases h
      · rename_i hdata
        cases h
        rw [length_overwrite, length_replicate]
        rw [length_replicate, not_not.1 hdata]
        exact hlen
  · cases h
    exact length_replicate

/-- The pages with an address in this range. -/
def InRange (start stop : Nat) (page : Page) : Prop :=
  ∃ a, start ≤ a ∧ a < stop ∧ containingAddress a = some page

/-- The bytes that a round of `map_segment` passes. -/
def chunkLen (page : Page) (cursor stop : Nat) : Nat :=
  min (PAGE_SIZE - (cursor - page.startAddress)) (stop - cursor)

/-- The page that a round of `map_segment` writes. -/
def segmentPage (segment : LoadSegment) (readChunk : ReadChunk) (page : Page)
    (cursor stop : Nat) : Except MmError (List UInt8) :=
  let fileOffset := min (cursor - segment.virtualAddress.toNat) segment.fileSize.toNat
  readPage readChunk (min (segment.fileOffset.toNat + fileOffset) USIZE_MAX)
    (min (chunkLen page cursor stop) (segment.fileSize.toNat - fileOffset))
    (cursor - page.startAddress)

theorem mapSegmentLoop_succ (segment : LoadSegment) (readChunk : ReadChunk) (hlt : cursor < stop)
    (hpage : containingAddress cursor = some page) (fuel : Nat) :
    mapSegmentLoop mapper segment readChunk stop (fuel + 1) cursor =
      Prog.bind (mapPage mapper page (pageFlagsFromSegment segment.flags)) fun frame =>
      Prog.bind (Prog.ofExcept (segmentPage segment readChunk page cursor stop)) fun buf =>
      Prog.bind (writeMemory fun m => writeFrameBytes m frame 0 buf) fun _ =>
        mapSegmentLoop mapper segment readChunk stop fuel (cursor + chunkLen page cursor stop) := by
  rw [mapSegmentLoop, if_pos hlt, hpage]
  rfl

variable {segment : LoadSegment}

/-- **One round of `map_segment`**: it stops, or a page has been mapped and written. -/
theorem ends_mapSegmentLoop (hw : Wf common w) (hkeep : Kept keep w.2)
    (hlt : cursor < stop) (hstop : stop < 2 ^ 64) {Q : Option (Except MmError Unit) → Work → Prop}
    (hend : ∀ r w', (∀ a, r ≠ some (.ok a)) → Wf common w' →
      Adds (InRange cursor stop) keep w w' → Q r w')
    (hnext : ∀ page frame buf w', containingAddress cursor = some page → Wf common w' →
      Adds (· = page) keep w w' →
      w'.2.mappings = w.2.mappings ++
        [⟨page, frame, targetFlags (pageFlagsFromSegment segment.flags)⟩] →
      segmentPage segment readChunk page cursor stop = .ok buf →
      window w'.1.memory (frameStart frame) 4096 = buf →
      Ends (mapSegmentLoop mapper segment readChunk stop fuel (cursor + chunkLen page cursor stop))
        Q w') : Ends (mapSegmentLoop mapper segment readChunk stop (fuel + 1) cursor) Q w := by
  rcases hpage : containingAddress cursor with _ | page
  · rw [mapSegmentLoop, if_pos hlt, hpage]
    exact hend _ w nofun hw (Adds.refl _ _ _)
  have hrange : ∀ page', page' = page → InRange cursor stop page' := by
    rintro _ rfl
    exact ⟨cursor, le_refl _, hlt, hpage⟩
  obtain ⟨hle, hpageEnd⟩ := containingAddress_eq (hlt.trans hstop) hpage
  rw [mapSegmentLoop_succ mapper segment readChunk hlt hpage]
  refine ends_mapPage_bind mapper hw hkeep (fun r w' hr hw' hadds =>
    hend r w' hr hw' (hadds.mono hrange))
    fun frame w' hw' hadds hmaps hnotMem => ?_
  rcases hbuf : segmentPage segment readChunk page cursor stop with e | buf
  · exact hend _ w' nofun hw' (hadds.mono hrange)
  have hlen := length_readPage (by rw [chunkLen, PAGE_SIZE]; omega) hbuf
  have hwindow := window_blit_self w'.1.memory (frameStart frame) buf
  rw [hlen] at hwindow
  have h := hw'.writePage hmaps.frame_mem hnotMem
    (changed_blit w'.1.memory frame (i := 0) (by rw [hlen]; rfl) (mem_singleton.2 rfl))
  exact hnext page frame buf _ hpage h.1 (hadds.before h.2) hmaps.mappings hbuf hwindow

/-- After a round of `map_segment` another page follows. -/
theorem not_inRange_next (hlt : cursor < stop) (hstop : stop < 2 ^ 64)
    (hpage : containingAddress cursor = some page) :
    ¬ InRange (cursor + chunkLen page cursor stop) stop page := by
  rintro ⟨a, hlo, hhi, ha⟩
  have hcursor := containingAddress_eq (hlt.trans hstop) hpage
  have hin := containingAddress_eq (hhi.trans hstop) ha
  rw [chunkLen, PAGE_SIZE] at hlo
  omega

/-- **The pages of the segment are mapped**, one after the other. -/
theorem adds_mapSegmentLoop (hstop : stop < 2 ^ 64) :
    ∀ {w : Work} {cursor : Nat},
    Wf common w → Kept keep w.2 →
    Ends (mapSegmentLoop mapper segment readChunk stop fuel cursor) (fun _ w' =>
      Wf common w' ∧ Adds (InRange cursor stop) keep w w') w := by
  induction fuel with
  | zero => exact fun hw _ => ⟨hw, Adds.refl _ _ _⟩
  | succ fuel ih =>
    intro w cursor hw hkeep
    by_cases hlt : cursor < stop
    · refine ends_mapSegmentLoop mapper hw hkeep hlt hstop (fun _ w' _ hw' hadds =>
        ⟨hw', hadds⟩) fun page frame buf w' hpage hw' hadds _ _ _ => ?_
      refine (ih hw' (hadds.kept hkeep)).mono fun r w'' h => ⟨h.1, (hadds.append h.2 ?_).mono ?_⟩
      · rintro _ rfl
        exact not_inRange_next hlt hstop hpage
      rintro page' (rfl | ⟨a, hlo, hhi, ha⟩)
      · exact ⟨cursor, le_refl _, hlt, hpage⟩
      · exact ⟨a, (Nat.le_add_right _ _).trans hlo, hhi, ha⟩
    · rw [mapSegmentLoop, if_neg hlt]
      exact ⟨hw, Adds.refl _ _ _⟩

theorem adds_mapSegment (hw : Wf common w) (hkeep : Kept keep w.2) (segment : LoadSegment)
    (readChunk : ReadChunk) :
    Ends (mapSegment mapper segment readChunk) (fun _ w' => Wf common w' ∧
      Adds (InRange segment.virtualAddress.toNat
        (segment.virtualAddress.toNat + segment.memorySize.toNat)) keep w w') w := by
  rw [mapSegment]
  split_ifs with hle
  · exact adds_mapSegmentLoop mapper (lt_of_le_of_lt hle (by decide)) hw hkeep
  · exact ⟨hw, Adds.refl _ _ _⟩

variable {pages : Page → Prop}

/-- The lowest address that `map_zeroed_region` may map a page for.  Without overflow checks the
loop starts again at the bottom if the region ends in the last page. -/
def regionStart (checks : Bool) (start stop : Nat) : Nat :=
  if checks = false ∧ 2 ^ 64 - 4096 < stop then 0 else start

/-- The next page, in the range. -/
theorem regionStart_le (hcursor : regionStart checks start stop ≤ cursor) (hlt : cursor < stop)
    (hstop : stop < 2 ^ 64) (hpage : containingAddress cursor = some page)
    (hnext : fit checks (2 ^ 64) (page.startAddress + PAGE_SIZE) = some next) :
    regionStart checks start stop ≤ next := by
  obtain ⟨hlo, hhi⟩ := containingAddress_eq (hlt.trans hstop) hpage
  rw [PAGE_SIZE] at hnext
  rw [fit] at hnext
  split at hnext
  · cases hnext
    omega
  split at hnext
  · cases hnext
  rename_i hover hchecks
  rw [regionStart, if_pos ⟨Bool.eq_false_iff.2 hchecks, by omega⟩]
  exact Nat.zero_le _

/-- The order in which pages follow each other: the last page is followed by the first, and none by
the first page of the upper half. -/
def Page.order (page : Page) : Nat := (page.val + 2 ^ 35) % 2 ^ 36

theorem order_lt_next {page' : Page}
    (hnext : fit checks (2 ^ 64) (page.startAddress + PAGE_SIZE) = some next)
    (hpage' : containingAddress next = some page') : page.order < page'.order := by
  have hnext' : next = (page.startAddress + 4096) % 2 ^ 64 := by
    rw [fit, PAGE_SIZE] at hnext
    split at hnext
    · rename_i hfits
      rw [Nat.mod_eq_of_lt hfits]
      exact (some.inj hnext).symm
    split at hnext
    · cases hnext
    · exact (some.inj hnext).symm
  rw [containingAddress] at hpage'
  split at hpage'
  · cases hpage'
    rw [startAddress] at hnext'
    rw [order, order, Fin.val_ofNat]
    split at hnext' <;> omega
  · cases hpage'

/-- The pages that the loop of `map_zeroed_region` may still map. -/
def Ahead (start stop cursor : Nat) (page : Page) : Prop :=
  InRange start stop page ∧
    ∃ first, containingAddress cursor = some first ∧ first.order ≤ page.order

/-- **The pages of the region are mapped**, one after the other. -/
theorem adds_mapZeroedRegionLoop (hstop : stop < 2 ^ 64) :
    ∀ {w : Work} {cursor firstPage : Nat},
    Wf common w → Kept keep w.2 → regionStart checks start stop ≤ cursor →
    Ends (mapZeroedRegionLoop mapper checks flags start stop fuel cursor firstPage) (fun _ w' =>
      Wf common w' ∧ Adds (Ahead (regionStart checks start stop) stop cursor) keep w w') w := by
  induction fuel with
  | zero => exact fun hw _ _ => ⟨hw, Adds.refl _ _ _⟩
  | succ fuel ih =>
    intro w cursor firstPage hw hkeep hcursor
    rw [mapZeroedRegionLoop]
    split
    · rename_i hlt
      rcases hpage : containingAddress cursor with _ | page
      · exact ⟨hw, Adds.refl _ _ _⟩
      have hself : Ahead (regionStart checks start stop) stop cursor page :=
        ⟨⟨cursor, hcursor, hlt, hpage⟩, page, hpage, le_refl _⟩
      refine ends_mapPage_bind mapper hw hkeep (fun _ w' _ hw' hadds =>
        ⟨hw', hadds.mono fun _ heq => heq ▸ hself⟩) fun frame w' hw' hadds _ _ => ?_
      have hadds' : Adds (Ahead (regionStart checks start stop) stop cursor) keep w w' :=
        hadds.mono fun _ heq => heq ▸ hself
      rcases hnext : fit checks (2 ^ 64) (page.startAddress + PAGE_SIZE) with _ | next
      · exact ⟨hw', hadds'⟩
      refine (ih hw' (hadds.kept hkeep) (regionStart_le hcursor hlt hstop hpage hnext)).mono
        fun r w'' h => ⟨h.1, (hadds.append h.2 ?_).mono ?_⟩
      · rintro _ rfl ⟨-, page', hpage', hle⟩
        exact absurd (order_lt_next hnext hpage') (not_lt.2 hle)
      rintro page'' (rfl | ⟨hrange, page', hpage', hle⟩)
      · exact hself
      · exact ⟨hrange, page, hpage, (order_lt_next hnext hpage').le.trans hle⟩
    · exact ⟨hw, Adds.refl _ _ _⟩

theorem adds_mapZeroedRegion (hw : Wf common w) (hkeep : Kept keep w.2) (checks : Bool)
    (start size : Nat) (flags : PageFlags) :
    Ends (mapZeroedRegion mapper checks start size flags) (fun _ w' =>
      Wf common w' ∧
        Adds (InRange (regionStart checks start (start + size)) (start + size)) keep w w') w := by
  rw [mapZeroedRegion]
  split_ifs with hle
  · refine (adds_mapZeroedRegionLoop mapper (lt_of_le_of_lt hle (by decide)) hw hkeep ?_).mono
      fun _ w' h => ⟨h.1, h.2.mono fun _ => And.left⟩
    rw [regionStart]
    split <;> omega
  · exact ⟨hw, Adds.refl _ _ _⟩

theorem foldl_deallocateFrame (mm : Manager) (fs : List PhysFrame) :
    fs.foldl Manager.deallocateFrame mm =
      { mm with allocator := fs.foldl deallocateFrame mm.allocator } := by
  induction fs generalizing mm with
  | nil => rfl
  | cons f fs ih => rw [foldl_cons, ih]; rfl

/-- The root is made a copy of the kernel's root. -/
theorem owns_copyRoot {root kernelRoot : PhysFrame} {own : List PhysFrame} (hroot : root ∈ own)
    (hkernel : common 0 kernelRoot)
    (hclosed : ∀ d t i e u, common d t → lookup m d t i = some (e, some u) → common (d + 1) u)
    (hapart : ∀ d t, common d t → t ∉ own) :
    let m' := copyFrameContents (zeroFrame m root) kernelRoot root
    Owns (lookup m') root own common IsParent := by
  intro m'
  have hne : kernelRoot ≠ root := fun heq => hapart 0 kernelRoot hkernel (heq ▸ hroot)
  have hchanged : Changed [root] m m' :=
    (changed_zeroFrame m root (mem_singleton.2 rfl)).trans
      (changed_copyFrameContents _ _ _ (mem_singleton.2 rfl))
  have hsame : ∀ d t i, common d t → lookup m' d t i = lookup m d t i := by
    intro d t i ht
    refine lookup_congr (entry_of_changed hchanged (fun hmem => ?_) i) d
    exact hapart d t ht (mem_singleton.1 hmem ▸ hroot)
  refine Owns.ofCopy hroot (fun d t i e u ht he => ?_) hapart fun i e u he => ?_
  · rw [hsame d t i ht] at he
    exact hclosed d t i e u ht he
  have hentry : entry m' root i = entry m kernelRoot i := by
    rw [entry_copyFrameContents_self]
    exact entry_of_changed (changed_zeroFrame m root (mem_singleton.2 rfl))
      (by simpa using hne) i
  rw [lookup_congr hentry 0] at he
  exact hclosed 0 kernelRoot i e u hkernel he

theorem perm_clear (w : Work) (m : Memory) :
    let a := (w.2.mappings.map (·.frame)).foldl deallocateFrame w.1.allocator
    (frames ({ w.1 with memory := m, allocator := a }, { w.2 with mappings := [] })).Perm
      (frames w) := by
  intro a
  rw [frames, frames, perm_iff_count]
  simp only [a, AddressSpace.frames, pool_foldl_deallocateFrame, count_append,
    count_reverse, map_nil, count_nil]
  omega

theorem ends_clear (hw : Wf common w) : Ends clear (fun _ w' =>
    Wf common w' ∧ Effect (fun _ => True) [] w w' ∧ w'.2.mappings = []) w := by
  rw [clear]
  simp only [bind_eq]
  rw [ends_update, foldl_deallocateFrame]
  have hframes := perm_clear w
    (copyFrameContents (zeroFrame w.1.memory w.2.rootFrame) w.1.kernelRoot w.2.rootFrame)
  have hroot := mem_writable_of_table hw (kept_nil _) hw.owns.root_mem
  refine ⟨⟨hframes.nodup_iff.2 hw.nodup,
    fun d t ht hmem => hw.apart d t ht (hframes.mem_iff.1 hmem),
    hw.kernelRoot, owns_copyRoot hw.owns.root_mem hw.kernelRoot hw.owns.closed hw.owns.apart⟩,
    ⟨rfl, rfl, hframes, ?_, fun key hkey => absurd trivial hkey⟩, rfl⟩
  exact (changed_zeroFrame _ _ hroot).trans (changed_copyFrameContents _ _ _ hroot)

/-! ## New spaces -/

/-- What is known of the memory manager. -/
structure WfManager (common : Nat → PhysFrame → Prop) (mm : Manager) : Prop where
  nodup : mm.allocator.pool.Nodup
  apart : ∀ d t, common d t → t ∉ mm.allocator.pool
  kernelRoot : common 0 mm.kernelRoot
  closed : ∀ d t i e u, common d t → lookup mm.memory d t i = some (e, some u) → common (d + 1) u

/-- **What making a space may do**: its frames come from the pool, and only frames of the pool are
written. -/
structure Creates (mm mm' : Manager) (fs : List PhysFrame) : Prop where
  kernelRoot : mm'.kernelRoot = mm.kernelRoot
  frames : (mm'.allocator.pool ++ fs).Perm mm.allocator.pool
  memory : Changed mm.allocator.pool mm.memory mm'.memory

/-- Where a space has been made, or could not be.  Nothing is said of a panic. -/
def Created (common : Nat → PhysFrame → Prop) (mm : Manager) :
    Option (Except MmError AddressSpace) → Manager → Prop
  | some (.ok space), mm' => Wf common (mm', space) ∧ Creates mm mm' space.frames
  | some (.error _), mm' => WfManager common mm' ∧ Creates mm mm' []
  | none, _ => True

variable {mm : Manager}

theorem ends_kernel (hmm : WfManager common mm) : Ends kernel (Created common mm) mm := by
  refine ends_allocate (fun a hpool => ?_) fun root a hpool => ?_
  · refine ⟨⟨?_, ?_, hmm.kernelRoot, hmm.closed⟩, rfl, ?_, Changed.refl _ _⟩
    · exact hpool ▸ hmm.nodup
    · exact hpool ▸ hmm.apart
    · rw [append_nil]
      exact .of_eq hpool
  · have hframes : (a.pool ++ [root]).Perm mm.allocator.pool :=
      hpool ▸ perm_append_singleton root a.pool
    have hroot : root ∈ mm.allocator.pool := hpool ▸ mem_cons_self
    refine ⟨⟨hframes.nodup_iff.2 hmm.nodup, fun d t ht hmem =>
      hmm.apart d t ht (hframes.mem_iff.1 hmem), hmm.kernelRoot,
      owns_copyRoot mem_cons_self hmm.kernelRoot hmm.closed fun d t ht hmem => ?_⟩,
      rfl, hframes, (changed_zeroFrame _ _ hroot).trans (changed_copyFrameContents _ _ _ hroot)⟩
    rw [AddressSpace.tables, mem_singleton] at hmem
    exact hmm.apart d t ht (hmem ▸ hroot)

/-! ## Forks -/

/-- At most `n` records are added, and only of these pages. -/
def Records (pages : Page → Prop) (n : Nat) (space space' : AddressSpace) : Prop :=
  ∃ new, space'.mappings = space.mappings ++ new ∧ new.length ≤ n ∧
    ∀ mapping ∈ new, pages mapping.page

section MapsOnly

variable {pages : Page → Prop} {n n' : Nat} {space space' space'' : AddressSpace}

theorem Records.refl (pages : Page → Prop) (n : Nat) (h : space'.mappings = space.mappings) :
    Records pages n space space' :=
  ⟨[], h.trans (append_nil _).symm, Nat.zero_le n, nofun⟩

theorem Records.trans (h : Records pages n space space') (h' : Records pages n' space' space'') :
    Records pages (n + n') space space'' := by
  obtain ⟨new, hnew, hlen, hpages⟩ := h
  obtain ⟨new', hnew', hlen', hpages'⟩ := h'
  refine ⟨new ++ new', ?_, ?_, forall_mem_append.2 ⟨hpages, hpages'⟩⟩
  · rw [hnew', hnew, append_assoc]
  · rw [length_append]
    omega

theorem Records.mono {pages' : Page → Prop} (h : Records pages n space space') (hle : n ≤ n')
    (hsub : ∀ page, pages page → pages' page) : Records pages' n' space space' := by
  obtain ⟨new, hnew, hlen, hpages⟩ := h
  exact ⟨new, hnew, hlen.trans hle, fun mapping hmem => hsub _ (hpages mapping hmem)⟩

/-- The method maps at most `n` pages, and only such pages.  It comes back, unless the heap has no
room for the records that there are by then. -/
def MapsOnly (pages : Page → Prop) (n : Nat) (p : Prog Work MmError α) : Prop :=
  ∀ w, Ends p (fun r w' => Records pages n w.2 w'.2 ∧
    (r = none → mapper.room w'.2.mappings.length = false)) w

variable {mapper} {β : Type} {p : Prog Work MmError β} {k : β → Prog Work MmError α}

theorem mapsOnly_ret (a : α) : MapsOnly mapper pages n (ret a) :=
  fun _ => ⟨.refl _ _ rfl, nofun⟩

theorem mapsOnly_fail (e : MmError) : MapsOnly mapper pages n (fail e : Prog Work MmError α) :=
  fun _ => ⟨.refl _ _ rfl, nofun⟩

theorem mapsOnly_step {f : Work → α × Work} (hf : ∀ w, (f w).2.2.mappings = w.2.mappings) :
    MapsOnly mapper pages n (step f) :=
  fun w => ⟨.refl _ _ (hf w), nofun⟩

theorem MapsOnly.mono {pages' : Page → Prop} (h : MapsOnly mapper pages n p) (hle : n ≤ n')
    (hsub : ∀ page, pages page → pages' page) : MapsOnly mapper pages' n' p :=
  fun w => (h w).mono fun _ _ h => ⟨h.1.mono hle hsub, h.2⟩

theorem MapsOnly.bind (hp : MapsOnly mapper pages n p) (hk : ∀ a, MapsOnly mapper pages n' (k a)) :
    MapsOnly mapper pages (n + n') (Prog.bind p k) := by
  intro w
  rw [ends_bind]
  refine (hp w).mono fun r w' h => ?_
  have hless : Records pages (n + n') w.2 w'.2 := h.1.mono (Nat.le_add_right _ _) fun _ => id
  rcases r with _ | e | a
  · exact ⟨hless, fun _ => h.2 rfl⟩
  · exact ⟨hless, nofun⟩
  · rw [andThen_ok]
    exact (hk a w').mono fun _ _ h' => ⟨h.1.trans h'.1, h'.2⟩

/-- Something that maps nothing comes first. -/
theorem MapsOnly.after (hp : MapsOnly mapper pages 0 p) (hk : ∀ a, MapsOnly mapper pages n (k a)) :
    MapsOnly mapper pages n (Prog.bind p k) :=
  (hp.bind hk).mono (Nat.zero_add n).le fun _ => id

theorem MapsOnly.allocate {k : PhysFrame → Prog Work MmError α}
    (hk : ∀ f, MapsOnly mapper pages n (k f)) :
    MapsOnly mapper pages n (Prog.bind (inManager allocateFrame) k) :=
  fun _ => ends_allocateFrame (fun _ _ => ⟨.refl _ _ rfl, nofun⟩) fun f _ _ => hk f _

theorem mapsOnly_newTable (table : PhysFrame) (index : Fin 512) (e : UInt64)
    (old : Option PhysFrame) : MapsOnly mapper pages 0 (newTable table index e old) :=
  MapsOnly.allocate fun fresh => (mapsOnly_step fun _ => rfl).after fun _ =>
    (mapsOnly_step fun _ => rfl).after fun _ => (mapsOnly_step fun _ => rfl).after fun _ =>
    (mapsOnly_step fun _ => rfl).after fun _ => mapsOnly_ret fresh

theorem mapsOnly_makePathPrivate (path : List (Fin 512)) : ∀ table,
    MapsOnly mapper pages 0 (makePathPrivate table path) := by
  induction path with
  | nil => exact fun _ => mapsOnly_ret ()
  | cons index rest ih =>
    intro table
    refine MapsOnly.after ((mapsOnly_step fun _ => rfl).after fun e =>
      (mapsOnly_step fun _ => rfl).after fun tables => ?_) ih
    split
    · exact mapsOnly_fail _
    split
    · exact mapsOnly_newTable table index e none
    split
    · exact mapsOnly_fail _
    split
    · exact mapsOnly_ret _
    · exact mapsOnly_newTable table index e _

variable (mapper)

theorem mapsOnly_mapPage (flags : PageFlags) (hpage : pages page) :
    MapsOnly mapper pages 1 (mapPage mapper page flags) := by
  have hpath : MapsOnly mapper pages 0 (makeUserPathPrivate page) :=
    (mapsOnly_step fun _ => rfl).after (mapsOnly_makePathPrivate _)
  refine hpath.after fun _ => MapsOnly.allocate fun frame =>
    (mapsOnly_step fun _ => rfl).after fun _ => MapsOnly.after ?_ fun mapped => ?_
  · refine (mapsOnly_step fun _ => rfl).after fun mapped => ?_
    split
    · exact mapsOnly_ret true
    refine (mapsOnly_step fun _ => rfl).after fun unmapped => ?_
    split
    · exact mapsOnly_step fun _ => rfl
    · exact mapsOnly_ret false
  split
  · intro w
    simp only [bind_eq]
    rw [ends_update, ends_load]
    have hnew : Records pages 1 w.2 { w.2 with
        mappings := w.2.mappings ++ [⟨page, frame, targetFlags flags⟩] } :=
      ⟨[_], rfl, le_refl 1, forall_mem_singleton.2 hpage⟩
    split
    · exact ⟨hnew, nofun⟩
    · exact ⟨hnew, fun _ => Bool.eq_false_iff.2 ‹_›⟩
  · exact (mapsOnly_step fun _ => rfl).after fun _ => mapsOnly_fail _

end MapsOnly

def Manager.drop (mm : Manager) (space : AddressSpace) : Manager :=
  { mm with allocator := space.frames.foldl FrameAllocator.deallocateFrame mm.allocator }

theorem run_dropSpace (mm : Manager) (space : AddressSpace) :
    run (dropSpace space) mm = (some (.ok ()), mm.drop space) :=
  congrArg (Prod.mk _) (foldl_deallocateFrame mm space.frames)

theorem perm_drop (mm : Manager) (space : AddressSpace) :
    (mm.drop space).allocator.pool.Perm (frames (mm, space)) := by
  rw [Manager.drop, pool_foldl_deallocateFrame]
  exact ((reverse_perm _).append_right _).trans perm_append_comm

theorem Wf.drop (hw : Wf common w) : WfManager common (w.1.drop w.2) :=
  ⟨(perm_drop w.1 w.2).nodup_iff.2 hw.nodup,
    fun d t ht hmem => hw.apart d t ht ((perm_drop w.1 w.2).mem_iff.1 hmem), hw.kernelRoot,
    hw.owns.closed⟩

/-- What the methods do to a new space is part of making it. -/
theorem Creates.trans {mm' : Manager} {space : AddressSpace} {w : Work}
    (h : Creates mm mm' space.frames) (h' : Effect changes keep (mm', space) w) :
    Creates mm w.1 w.2.frames := by
  refine ⟨h'.kernelRoot.trans h.kernelRoot, h'.frames.trans h.frames,
    h.memory.trans (h'.memory.mono fun f hf => ?_)⟩
  exact h.frames.mem_iff.1 (mem_filter.1 hf).1

/-- **A fork makes a space, or gives everything back.** -/
theorem ends_cloneForFork (hmm : WfManager common mm) (space : AddressSpace) :
    Ends (cloneForFork mapper space) (Created common mm) mm := by
  rw [cloneForFork, bind_eq, ends_bind]
  refine (ends_kernel hmm).mono fun r mm' h => ?_
  rcases r with _ | e | cloned
  · exact h
  · exact h
  obtain ⟨hw, hcreates⟩ := h
  rw [andThen_ok, bind_eq, ends_bind, Ends, run_withLocal]
  have hcopied := ends_copyMappings mapper hw (l := space.mappings)
  rw [Ends] at hcopied
  rcases hrun : run (copyMappings mapper space.mappings) (mm', cloned) with ⟨r, w'⟩
  rw [hrun] at hcopied
  have hall := hcreates.trans hcopied.2.1
  rcases r with _ | e | _
  · trivial
  · rw [map_some, andThen_ok]
    simp only [bind_eq]
    rw [ends_bind, Ends, run_dropSpace]
    refine ⟨hcopied.1.drop, hall.kernelRoot, ?_, hall.memory⟩
    rw [append_nil]
    exact (perm_drop w'.1 w'.2).trans hall.frames
  · exact ⟨hcopied.1, hall⟩

end Krust.Mm
