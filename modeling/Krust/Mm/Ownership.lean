import Krust.Lib.Contract
import Krust.Mm.AddressSpace
import Mathlib.Data.List.Perm.Basic

/-!
# Which frames belong to a space

A method of an address space works with the frames of the space and of the allocator, its `frames`.
They stay the same frames, in whatever way they change hands (`Effect.frames`): none is lost, and
none gets into two hands.  Only they are written, so other spaces and the tables of the kernel are
left alone (`Effect.memory`).  And of the translations of the space only those of the pages that are
mapped change (`Effect.leaf`).

Both rest on what is known of the tables: `Wf` says which tables the space owns, in the sense of
`Lib.Owns`, and that the kernel's tables, which are the common ones, are none of its frames.
Mapping a page first makes the tables on the way to the page private (`obeys_makeUserPathPrivate`),
after which the library has nothing to allocate, and changes the entry of the page alone
(`ends_mapPage`).
-/

set_option autoImplicit false

namespace Krust.Mm

open Arch Lib Prog List Option AddressSpace

def AddressSpace.tables (space : AddressSpace) : List PhysFrame :=
  space.rootFrame :: space.privateTables

def frames (w : Work) : List PhysFrame := w.1.allocator.pool ++ w.2.frames

/-- The label of an entry that leads to a private table. -/
def IsParent (e : UInt64) : Prop := e &&& parentFlags = parentFlags

/-- **What is known of a space.**  The common tables are those of the kernel, by their depth. -/
structure Wf (common : Nat → PhysFrame → Prop) (w : Work) : Prop where
  nodup : (frames w).Nodup
  apart : ∀ d t, common d t → t ∉ frames w
  kernelRoot : common 0 w.1.kernelRoot
  owns : Owns (lookup w.1.memory) w.2.rootFrame w.2.tables common IsParent

/-- The frames that may be written, if some frames are to be left alone. -/
def writable (keep : List PhysFrame) (w : Work) : List PhysFrame := (frames w).filter (· ∉ keep)

/-- **What a method may do.**  Only these keys may be found elsewhere after it, and the frames in
`keep` are left alone. -/
structure Effect (changes : List (Fin 512) → Prop) (keep : List PhysFrame) (w w' : Work) :
    Prop where
  kernelRoot : w'.1.kernelRoot = w.1.kernelRoot
  rootFrame : w'.2.rootFrame = w.2.rootFrame
  frames : (frames w').Perm (frames w)
  memory : Changed (writable keep w) w.1.memory w'.1.memory
  leaf : ∀ key, ¬ changes key →
    (find (lookup w'.1.memory) 0 w'.2.rootFrame key).map leafOf =
      (find (lookup w.1.memory) 0 w.2.rootFrame key).map leafOf

section Effect

variable {changes : List (Fin 512) → Prop} {keep : List PhysFrame} {w w' w'' : Work}

theorem Effect.refl (changes : List (Fin 512) → Prop) (keep : List PhysFrame) (w : Work) :
    Effect changes keep w w :=
  ⟨rfl, rfl, .refl _, Changed.refl _ _, fun _ _ => rfl⟩

theorem Effect.trans (h : Effect changes keep w w') (h' : Effect changes keep w' w'') :
    Effect changes keep w w'' := by
  refine ⟨h'.kernelRoot.trans h.kernelRoot, h'.rootFrame.trans h.rootFrame,
    h'.frames.trans h.frames, h.memory.trans (h'.memory.mono fun f hf => ?_),
    fun key hkey => (h'.leaf key hkey).trans (h.leaf key hkey)⟩
  rw [writable, mem_filter] at hf ⊢
  exact ⟨h.frames.mem_iff.1 hf.1, hf.2⟩

theorem Effect.mono {changes' : List (Fin 512) → Prop} (h : Effect changes keep w w')
    (hsub : ∀ key, changes key → changes' key) : Effect changes' keep w w' :=
  ⟨h.kernelRoot, h.rootFrame, h.frames, h.memory, fun key hkey =>
    h.leaf key fun hchanges => hkey (hsub key hchanges)⟩

end Effect

/-- The frames that are left alone hold pages of the space. -/
def Kept (keep : List PhysFrame) (space : AddressSpace) : Prop :=
  ∀ f ∈ keep, f ∈ space.mappings.map (·.frame)

/-! ## Records -/

/-- The indices of a page, from the root. -/
def Page.path (page : Page) : List (Fin 512) :=
  [page.p4Index, page.p3Index, page.p2Index, page.p1Index]

variable {page : Page} {w : Work} {a : FrameAllocator} {frame : PhysFrame} {keep : List PhysFrame}
  {is : List (Fin 512)} {fs : List PhysFrame} {mm : Manager} {page' : Page} {flags : PageFlags}
  {α : Type} (mapper : Mapper)

theorem path_injective (h : page.path = page'.path) : page = page' := by
  simp only [Page.path, Page.p4Index, Page.p3Index, Page.p2Index, Page.p1Index, cons.injEq,
    Fin.ext_iff, Fin.val_ofNat] at h
  exact Fin.ext (by omega)

def PageKeys (pages : Page → Prop) (key : List (Fin 512)) : Prop :=
  ∃ page, pages page ∧ page.path <+: key

def AddressSpace.last (space : AddressSpace) (page : Page) : Option Mapping :=
  space.mappings.reverse.find? fun mapping => mapping.page = page

/-- A table of the space has this entry for the page. -/
def HasEntry (w : Work) (page : Page) (e : UInt64) : Prop :=
  ∃ t, Reach (lookup w.1.memory) w.2.rootFrame [page.p2Index, page.p3Index, page.p4Index] t ∧
    t ∈ w.2.tables ∧ entry w.1.memory t page.p1Index = e

/-- **The tables follow the records**: a page is mapped as its last record says. -/
def Current (w : Work) : Prop :=
  ∀ page mapping, w.2.last page = some mapping →
    HasEntry w page (makeEntry mapping.frame mapping.flags.bits)

/-- **What mapping pages may do**: there is a new record for each page that has been mapped, and the
tables go on to follow the records. -/
structure Adds (pages : Page → Prop) (keep : List PhysFrame) (w w' : Work) : Prop extends
    Effect (PageKeys pages) keep w w' where
  current : Current w → Current w'
  records : ∃ new, w'.2.mappings = w.2.mappings ++ new ∧ (new.map (·.page)).Nodup ∧
    ∀ mapping ∈ new, pages mapping.page

section Adds

variable {pages pages' : Page → Prop} {keep : List PhysFrame} {w w' w'' : Work}

theorem Adds.mono (h : Adds pages keep w w') (hsub : ∀ page, pages page → pages' page) :
    Adds pages' keep w w' := by
  obtain ⟨new, hnew, hnodup, hpages⟩ := h.records
  refine ⟨h.toEffect.mono fun key hkey => ?_, h.current, new, hnew, hnodup,
    fun mapping hmem => hsub _ (hpages mapping hmem)⟩
  obtain ⟨page, hpage, hkey⟩ := hkey
  exact ⟨page, hsub page hpage, hkey⟩

theorem Adds.append (h : Adds pages keep w w') (h' : Adds pages' keep w' w'')
    (hapart : ∀ page, pages page → ¬ pages' page) :
    Adds (fun page => pages page ∨ pages' page) keep w w'' := by
  obtain ⟨new, hnew, hnodup, hpages⟩ := h.records
  obtain ⟨new', hnew', hnodup', hpages'⟩ := h'.records
  have heffect : Effect (PageKeys fun page => pages page ∨ pages' page) keep w w'' :=
    (h.mono fun _ => Or.inl).toEffect.trans (h'.mono fun _ => Or.inr).toEffect
  refine ⟨heffect, fun hw => h'.current (h.current hw), new ++ new', ?_, ?_, fun mapping hmem => ?_⟩
  · rw [hnew', hnew, append_assoc]
  · rw [map_append, nodup_append]
    refine ⟨hnodup, hnodup', fun page hpage page' hpage' heq => ?_⟩
    obtain ⟨mapping, hmem, rfl⟩ := mem_map.1 hpage
    obtain ⟨mapping', hmem', rfl⟩ := mem_map.1 hpage'
    exact hapart _ (hpages mapping hmem) (heq ▸ hpages' mapping' hmem')
  · exact (mem_append.1 hmem).imp (hpages mapping) (hpages' mapping)

theorem Adds.ofTables (h : Effect (PageKeys pages) keep w w')
    (hmappings : w'.2.mappings = w.2.mappings)
    (hentry : ∀ page e, HasEntry w page e → HasEntry w' page e) : Adds pages keep w w' := by
  refine ⟨h, fun hw page mapping hlast => hentry page _ (hw page mapping ?_), [], ?_, .nil,
    nofun⟩
  · rwa [last, hmappings] at hlast
  · rw [hmappings, append_nil]

theorem Adds.refl (pages : Page → Prop) (keep : List PhysFrame) (w : Work) : Adds pages keep w w :=
  .ofTables (Effect.refl _ _ _) rfl fun _ _ h => h

/-- No page has been mapped before the others, or after them. -/
theorem Adds.after (h : Adds (fun _ => False) keep w w') (h' : Adds pages keep w' w'') :
    Adds pages keep w w'' :=
  (h.append h' fun _ hfalse => hfalse.elim).mono fun _ hpage => hpage.resolve_left id

theorem Adds.before (h : Adds pages keep w w') (h' : Adds (fun _ => False) keep w' w'') :
    Adds pages keep w w'' :=
  (h.append h' fun _ _ hfalse => hfalse).mono fun _ hpage => hpage.resolve_right id

theorem Adds.kept (h : Adds pages keep w w') (hkeep : Kept keep w.2) : Kept keep w'.2 := by
  obtain ⟨new, hnew, -⟩ := h.records
  intro f hf
  rw [hnew, map_append]
  exact mem_append_left _ (hkeep f hf)

end Adds

/-- The contract of what makes tables, and maps no page. -/
def tableContract (common : Nat → PhysFrame → Prop) (keep : List PhysFrame) : Contract Work where
  inv := Wf common
  step := Adds (fun _ => False) keep
  failed := Adds (fun _ => False) keep
  refl := Adds.refl _ keep
  trans := Adds.after
  failed_trans := Adds.after

instance (common : Nat → PhysFrame → Prop) (keep : List PhysFrame) :
    (tableContract common keep).Lenient := ⟨Adds.refl _ keep⟩

section Frames

variable {w : Work}

theorem root_mem_frames (space : AddressSpace) : space.rootFrame ∈ space.frames := by
  simp [AddressSpace.frames]

theorem mem_frames_of_mem_tables {space : AddressSpace} {t : PhysFrame} (h : t ∈ space.tables) :
    t ∈ space.frames := by
  rcases mem_cons.1 h with rfl | h
  · exact root_mem_frames space
  · simp [AddressSpace.frames, h]

theorem mem_frames_of_mem_pool {f : PhysFrame} (h : f ∈ w.1.allocator.pool) : f ∈ frames w :=
  mem_append_left _ h

variable {common : Nat → PhysFrame → Prop} {keep : List PhysFrame} {f : PhysFrame}

theorem Wf.free (hw : Wf common w) (h : f ∈ w.1.allocator.pool) :
    f ∉ w.2.tables ∧ ∀ d, ¬ common d f :=
  ⟨fun ht => (nodup_append.1 hw.nodup).2.2 f h f (mem_frames_of_mem_tables ht) rfl,
    fun d hd => hw.apart d f hd (mem_frames_of_mem_pool h)⟩

/-- The frames have changed hands. -/
theorem Wf.of_perm {w' : Work} (hw : Wf common w) (h : (frames w').Perm (frames w))
    (hroot : w'.1.kernelRoot = w.1.kernelRoot)
    (howns : Owns (lookup w'.1.memory) w'.2.rootFrame w'.2.tables common IsParent) :
    Wf common w' :=
  ⟨h.nodup_iff.2 hw.nodup, fun d t ht hmem => hw.apart d t ht (h.mem_iff.1 hmem),
    hroot ▸ hw.kernelRoot, howns⟩

theorem mem_writable_of_mem_pool (hw : Wf common w) (hkeep : Kept keep w.2)
    (h : f ∈ w.1.allocator.pool) : f ∈ writable keep w := by
  rw [writable, mem_filter, decide_eq_true_iff]
  refine ⟨mem_frames_of_mem_pool h, fun hf => ?_⟩
  refine (nodup_append.1 hw.nodup).2.2 f h f ?_ rfl
  exact mem_append_left _ (mem_append_left _ (hkeep f hf))

/-- A table holds no page. -/
theorem mem_writable_of_table (hw : Wf common w) (hkeep : Kept keep w.2) (h : f ∈ w.2.tables) :
    f ∈ writable keep w := by
  rw [writable, mem_filter, decide_eq_true_iff]
  refine ⟨mem_append_right _ (mem_frames_of_mem_tables h), fun hf => ?_⟩
  have hnodup := (nodup_append.1 hw.nodup).2.1
  rw [AddressSpace.frames, append_assoc, nodup_append] at hnodup
  refine hnodup.2.2 f (hkeep f hf) f ?_ rfl
  rw [mem_append, mem_singleton]
  exact (mem_cons.1 h).symm

end Frames

/-! ## Lookups -/

variable {Q : Option (Except MmError α) → Work → Prop}

section Lookup

variable {m m' : Memory} {t u : PhysFrame} {i j : Fin 512}

theorem lookup_congr (h : entry m' u j = entry m t i) (d : Nat) :
    lookup m' d u j = lookup m d t i := by
  simp only [lookup, h]

theorem lookup_of_not_present (h : entry m t i &&& PRESENT = 0) (d : Nat) :
    lookup m d t i = none := by
  simp only [lookup, h, if_true]

/-- An entry above level 1 that is present and not huge leads to a table. -/
theorem lookup_table {d : Nat} (hd : d < 3) (hpresent : entry m t i &&& PRESENT ≠ 0)
    (hhuge : entry m t i &&& HUGE = 0) :
    lookup m d t i = some (entry m t i, some (frameOf (entry m t i))) := by
  have hleaf : isLeaf (4 - d) (entry m t i) = false := by
    have : (4 - d == 1) = false := by simp; omega
    simp [isLeaf, hhuge, this]
  simp [lookup, hpresent, hleaf]

theorem lookup_of_entryFrame {d : Nat} (hd : d < 3) {frame : PhysFrame}
    (h : entryFrame (entry m t i) = some frame) :
    lookup m d t i = some (entry m t i, some frame) := by
  rw [entryFrame] at h
  split at h
  · cases h
  rename_i hpresent
  split at h
  · cases h
  · rename_i hhuge
    rw [lookup_table hd hpresent (not_not.1 hhuge), some.inj h]

/-- The entries of level 1 lead to no table. -/
theorem lookup_level_one (m : Memory) (t : PhysFrame) (i : Fin 512) (e : UInt64) (u : PhysFrame) :
    lookup m 3 t i ≠ some (e, some u) := by
  simp only [lookup]
  split
  · rintro ⟨⟩
  · simp [isLeaf]

end Lookup

/-! ## Private tables -/

/-- A frame is allocated, or there is none and nothing has changed but the allocator. -/
theorem ends_allocate {k : PhysFrame → Prog Manager MmError α}
    {Q : Option (Except MmError α) → Manager → Prop} (hfail : ∀ a, a.pool = mm.allocator.pool →
      Q (some (.error .outOfFrames)) { mm with allocator := a })
    (hok : ∀ f a, mm.allocator.pool = f :: a.pool → Ends (k f) Q { mm with allocator := a }) :
    Ends (Prog.bind allocateFrame k) Q mm := by
  have hpool := mm.allocator.allocateFrame_pool
  rw [ends_bind, allocateFrame, bind_eq, ends_step]
  cases hframe : mm.allocator.allocateFrame.1 with
  | none =>
    rw [hframe] at hpool
    exact hfail _ hpool.symm
  | some f =>
    rw [hframe] at hpool
    exact hok f _ hpool

/-- The same, in a method. -/
theorem ends_allocateFrame {k : PhysFrame → Prog Work MmError α}
    (hfail : ∀ a, a.pool = w.1.allocator.pool →
      Q (some (.error .outOfFrames)) ({ w.1 with allocator := a }, w.2))
    (hok : ∀ f a, w.1.allocator.pool = f :: a.pool →
      Ends (k f) Q ({ w.1 with allocator := a }, w.2)) :
    Ends (Prog.bind (inManager allocateFrame) k) Q w := by
  have hpool := w.1.allocator.allocateFrame_pool
  rw [ends_bind, Ends, inManager, run_embed Prod.fst (fun mm (w : Work) => (mm, w.2)) id,
    allocateFrame]
  cases hframe : w.1.allocator.allocateFrame.1 with
  | none =>
    rw [hframe] at hpool
    simpa [step, run, hframe, Prog.bind, Prog.AndThen, Except.mapError] using hfail _ hpool.symm
  | some f =>
    rw [hframe] at hpool
    simpa [step, run, hframe, Prog.bind, Except.mapError] using hok f _ hpool

variable {fresh : PhysFrame}

theorem perm_table (w : Work) (m : Memory) (hpool : w.1.allocator.pool = fresh :: a.pool) :
    (frames ({ w.1 with memory := m, allocator := a },
      { w.2 with privateTables := w.2.privateTables ++ [fresh] })).Perm (frames w) := by
  rw [frames, frames, hpool, perm_iff_count]
  simp only [AddressSpace.frames, count_append, count_cons, count_nil]
  omega

theorem perm_mapping (w : Work) (m : Memory) (hpool : w.1.allocator.pool = frame :: a.pool)
    (mapping : Mapping) (hframe : mapping.frame = frame) :
    (frames ({ w.1 with memory := m, allocator := a },
      { w.2 with mappings := w.2.mappings ++ [mapping] })).Perm (frames w) := by
  rw [frames, frames, hpool, perm_iff_count]
  simp only [AddressSpace.frames, map_append, map_cons, map_nil, hframe,
    count_append, count_cons, count_nil]
  omega

variable {common : Nat → PhysFrame → Prop} {m m' : Memory} {own : List PhysFrame}

/-- Frames that are no tables are written. -/
theorem lookup_of_changed (h : Changed fs m m')
    (hfs : ∀ f ∈ fs, f ∉ own ∧ ∀ d, ¬ common d f) (d : Nat) (t : PhysFrame) (i : Fin 512)
    (ht : t ∈ own ∨ common d t) : lookup m' d t i = lookup m d t i :=
  lookup_congr (entry_of_changed h (fun hmem => ht.elim (hfs t hmem).1 ((hfs t hmem).2 d)) i) d

variable {e : UInt64}

/-- The entries of pages are then as they were. -/
theorem HasEntry.ofChanged (hw : Wf common w) (hmemory : Changed fs w.1.memory mm.memory)
    (hfs : ∀ f ∈ fs, f ∉ w.2.tables ∧ ∀ d, ¬ common d f) (h : HasEntry w page e) :
    HasEntry (mm, w.2) page e := by
  obtain ⟨t, hreach, hmem, he⟩ := h
  refine ⟨t, (hw.owns.reach_congr (lookup_of_changed hmemory hfs)).2 hreach, hmem, ?_⟩
  rw [entry_of_changed hmemory fun hf => (hfs t hf).1 hmem]
  exact he

/-- The memory with a new table in place of what the entry of a table leads to. -/
def withTable (m : Memory) (table : PhysFrame) (index : Fin 512) (e : UInt64)
    (old : Option PhysFrame) (fresh : PhysFrame) : Memory :=
  setEntry (old.elim (zeroFrame m fresh) fun frame => copyFrameContents (zeroFrame m fresh) frame
    fresh) table index (makeEntry fresh (flagsOf e ||| parentFlags))

section WithTable

variable (m : Memory) {table fresh : PhysFrame} (index : Fin 512) (e : UInt64)
  (old : Option PhysFrame)

theorem changed_fill (hfresh : fresh ∈ fs) : Changed fs m (old.elim (zeroFrame m fresh) fun frame =>
    copyFrameContents (zeroFrame m fresh) frame fresh) := by
  cases old with
  | none => exact changed_zeroFrame m fresh hfresh
  | some frame =>
    exact (changed_zeroFrame m fresh hfresh).trans (changed_copyFrameContents _ _ _ hfresh)

theorem changed_withTable (htable : table ∈ fs) (hfresh : fresh ∈ fs) :
    Changed fs m (withTable m table index e old fresh) :=
  (changed_fill m old hfresh).trans (changed_setEntry _ _ _ _ htable)

theorem entry_withTable_ne {u : PhysFrame} {j : Fin 512} (hne : (u, j) ≠ (table, index))
    (hu : u ≠ fresh) : entry (withTable m table index e old fresh) u j = entry m u j := by
  rw [withTable, entry_setEntry_ne _ _ _ hne]
  exact entry_of_changed (changed_fill m old (mem_singleton.2 rfl)) (by simpa using hu) j

theorem entry_withTable_fresh {j : Fin 512} (hne : fresh ≠ table)
    (hold : ∀ frame ∈ old, frame ≠ fresh) :
    entry (withTable m table index e old fresh) fresh j =
      old.elim 0 fun frame => entry m frame j := by
  rw [withTable, entry_setEntry_ne _ _ _ fun heq => hne (congrArg Prod.fst heq)]
  rcases old with _ | frame
  · exact entry_zeroFrame_self m fresh j
  rw [elim_some, entry_copyFrameContents_self]
  exact entry_of_changed (changed_zeroFrame m fresh (mem_singleton.2 rfl))
    (by simpa using hold frame rfl) j

end WithTable

theorem flags_and_parentFlags (e : UInt64) :
    (flagsOf e ||| parentFlags) &&& parentFlags = parentFlags := by
  rw [← UInt64.toNat_inj, UInt64.toNat_and, UInt64.toNat_or]
  refine Nat.eq_of_testBit_eq fun i => ?_
  rw [Nat.testBit_and, Nat.testBit_or]
  cases parentFlags.toNat.testBit i <;> simp

variable {table : PhysFrame} {index : Fin 512}

theorem lookup_withTable_self (m : Memory)
    (old : Option PhysFrame) (hhuge : e &&& HUGE = 0) {d : Nat} (hd : d < 3) :
    ∃ e', lookup (withTable m table index e old fresh) d table index = some (e', some fresh) ∧
      IsParent e' := by
  have hself : entry (withTable m table index e old fresh) table index = _ :=
    entry_setEntry_self _ _ _ _
  have hparent : makeEntry fresh (flagsOf e ||| parentFlags) &&& parentFlags = parentFlags := by
    rw [makeEntry_and _ rfl, flags_and_parentFlags]
  have haddress : (flagsOf e ||| parentFlags) &&& TABLE_ADDRESS = 0 := by
    rw [or_and_distrib, flagsOf_and_tableAddress]
    rfl
  have hpresent : makeEntry fresh (flagsOf e ||| parentFlags) &&& PRESENT ≠ 0 := by
    intro hzero
    have h := congrArg (· &&& PRESENT) hparent
    simp only [UInt64.and_assoc] at h
    rw [show parentFlags &&& PRESENT = PRESENT from rfl, hzero] at h
    cases h
  have hnotHuge : makeEntry fresh (flagsOf e ||| parentFlags) &&& HUGE = 0 := by
    rw [makeEntry_and _ rfl, or_and_distrib, flagsOf, UInt64.and_assoc,
      show ~~~TABLE_ADDRESS &&& HUGE = HUGE from rfl, hhuge]
    rfl
  rw [← hself] at hpresent hnotHuge hparent
  refine ⟨_, ?_, hparent⟩
  rw [lookup_table hd hpresent hnotHuge, hself, frameOf_makeEntry _ haddress]

variable {old : Option PhysFrame}

/-- **A new table keeps everything in its place.** -/
theorem Wf.withTable (hw : Wf common w) (hkeep : Kept keep w.2)
    (hpool : w.1.allocator.pool = fresh :: a.pool)
    (hreach : Reach (lookup w.1.memory) w.2.rootFrame is table) (hmem : table ∈ w.2.tables)
    (hdepth : is.length < 3) (hhuge : entry w.1.memory table index &&& HUGE = 0)
    (hold : (entry w.1.memory table index = 0 ∧ old = none) ∨
      ∃ frame, entryFrame (entry w.1.memory table index) = some frame ∧
        frame ∉ w.2.privateTables ∧ old = some frame) :
    let m := withTable w.1.memory table index (entry w.1.memory table index) old fresh
    let w' : Work := ({ w.1 with memory := m, allocator := a },
      { w.2 with privateTables := w.2.privateTables ++ [fresh] })
    Wf common w' ∧ Adds (fun _ => False) keep w w' ∧
      Reach (lookup m) w.2.rootFrame (index :: is) fresh ∧ fresh ∈ w'.2.tables := by
  intro m w'
  have hfresh : fresh ∈ w.1.allocator.pool := hpool ▸ mem_cons_self
  have hframes : (frames w').Perm (frames w) := perm_table w m hpool
  obtain ⟨hfresh', hcommon⟩ := hw.free hfresh
  have hne : fresh ≠ table := fun heq => hfresh' (heq ▸ hmem)
  -- What the entry leads to is none of the private tables, so it is one of the kernel's.
  have hkernel : ∀ frame ∈ old, lookup w.1.memory is.length table index =
      some (entry w.1.memory table index, some frame) ∧ common (is.length + 1) frame := by
    intro frame hframe
    rcases hold with ⟨-, rfl⟩ | ⟨frame', hentry, hnotMem, rfl⟩
    · cases hframe
    cases hframe
    have hlook := lookup_of_entryFrame hdepth hentry
    refine ⟨hlook, (hw.owns.reach _ _ (.step hreach hlook)).resolve_left fun htable => ?_⟩
    rcases mem_cons.1 htable with rfl | htable
    · cases hw.owns.unique _ _ _ (.step hreach hlook) .root (mem_cons_self)
    · exact hnotMem htable
  have hold' : ∀ frame ∈ old, frame ≠ fresh := fun frame hframe heq =>
    hcommon _ (heq ▸ (hkernel frame hframe).2)
  have hcopies : Copies (lookup w.1.memory) (lookup m) w.2.rootFrame w.2.tables common IsParent is
      table index fresh := by
    refine ⟨hreach, hmem, hfresh', hcommon, lookup_withTable_self _ old hhuge hdepth, ?_,
      fun d u j hu hne' => lookup_congr (entry_withTable_ne _ _ _ _ hne' ?_) d⟩
    · rcases hold with ⟨hzero, rfl⟩ | ⟨frame, -, -, rfl⟩
      · refine .inl ⟨lookup_of_not_present (by rw [hzero]; rfl) _, fun j => ?_⟩
        refine lookup_of_not_present ?_ _
        rw [entry_withTable_fresh _ _ _ _ hne hold', elim_none, UInt64.zero_and]
      · obtain ⟨hlook, hframe⟩ := hkernel frame rfl
        refine .inr ⟨_, frame, hlook, hframe, fun j => lookup_congr ?_ _⟩
        rw [entry_withTable_fresh _ _ _ _ hne hold']
        rfl
    · rintro rfl
      exact hu.elim hfresh' (hcommon d)
  refine ⟨hw.of_perm hframes rfl ((hw.owns.copy hcopies).mem_congr fun t => ?_),
    .ofTables ⟨rfl, rfl, hframes, changed_withTable _ _ _ _ (mem_writable_of_table hw hkeep hmem)
      (mem_writable_of_mem_pool hw hkeep hfresh),
    fun key _ => hw.owns.find_copy hcopies key⟩ rfl ?_, hcopies.reach_new hw.owns, ?_⟩
  · simp only [tables, w', mem_cons, mem_append, not_mem_nil, or_false]
    tauto
  · -- The entries of pages are deeper than the one that has changed.
    rintro page e ⟨t, ht, htmem, he⟩
    refine ⟨t, hcopies.reach_of_mem hw.owns ht htmem, ?_, ?_⟩
    · exact (cons_subset_cons _ (subset_append_left _ _)) htmem
    have hne' : t ≠ fresh := fun heq => hfresh' (heq ▸ htmem)
    refine (entry_withTable_ne _ _ _ _ (fun heq => ?_) hne').trans he
    have htable : t = table := congrArg Prod.fst heq
    subst htable
    have hpath := hw.owns.unique _ _ _ ht hreach hmem
    rw [← hpath] at hdepth
    exact absurd hdepth (lt_irrefl 3)
  · simp [tables, w']

/-- An allocator with the same pool does as well. -/
theorem Wf.of_pool (hw : Wf common w) (keep : List PhysFrame)
    (hpool : a.pool = w.1.allocator.pool) :
    Wf common ({ w.1 with allocator := a }, w.2) ∧
      Adds (fun _ => False) keep w ({ w.1 with allocator := a }, w.2) := by
  have hframes : frames ({ w.1 with allocator := a }, w.2) = frames w := by
    exact congrArg (· ++ _) hpool
  exact ⟨hw.of_perm (.of_eq hframes) rfl hw.owns, .ofTables ⟨rfl, rfl, .of_eq hframes,
    Changed.refl _ _, fun _ _ => rfl⟩ rfl fun _ _ h => h⟩

section Path

variable {keep : List PhysFrame} {w : Work}

/-- What is known of the table that a level of the loop returns. -/
def Reached (path : List (Fin 512)) (mappings : List Mapping) (t : PhysFrame) (w : Work) : Prop :=
  Reach (lookup w.1.memory) w.2.rootFrame path t ∧ t ∈ w.2.tables ∧ w.2.mappings = mappings

theorem obeys_newTable (hw : Wf common w) (hkeep : Kept keep w.2)
    (hreach : Reach (lookup w.1.memory) w.2.rootFrame is table)
    (hmem : table ∈ w.2.tables) (hdepth : is.length < 3) (he : entry w.1.memory table index = e)
    (hhuge : e &&& HUGE = 0) (hold : (e = 0 ∧ old = none) ∨
      ∃ frame, entryFrame e = some frame ∧ frame ∉ w.2.privateTables ∧ old = some frame) :
    Obeys (tableContract common keep) (newTable table index e old)
      (Reached (index :: is) w.2.mappings) w := by
  subst he
  refine ends_allocateFrame (fun a hpool => ?_) fun fresh a hpool => ?_
  · exact hw.of_pool keep hpool
  · have h := hw.withTable hkeep hpool hreach hmem hdepth hhuge hold
    exact ⟨h.1, h.2.1, h.2.2.1, h.2.2.2, rfl⟩

theorem obeys_privateTable (hw : Wf common w) (hkeep : Kept keep w.2)
    (index : Fin 512) (hreach : Reach (lookup w.1.memory) w.2.rootFrame is table)
    (hmem : table ∈ w.2.tables) (hdepth : is.length < 3) :
    Obeys (tableContract common keep) (privateTable table index)
      (Reached (index :: is) w.2.mappings) w := by
  rw [privateTable, Obeys]
  simp only [bind_eq]
  rw [ends_load, ends_load]
  generalize he : entry w.1.memory table index = e
  by_cases hhuge : e &&& HUGE = 0
  · rw [if_neg (not_not.2 hhuge)]
    by_cases hzero : e = 0
    · rw [if_pos hzero]
      exact obeys_newTable hw hkeep hreach hmem hdepth he hhuge (.inl ⟨hzero, rfl⟩)
    rw [if_neg hzero]
    rcases hframe : entryFrame e with _ | frame
    · exact obeys_fail _ hw
    dsimp only
    by_cases hprivate : frame ∈ w.2.privateTables
    · rw [if_pos hprivate]
      subst he
      exact obeys_ret hw ⟨.step hreach (lookup_of_entryFrame hdepth hframe),
        mem_cons_of_mem _ hprivate, rfl⟩
    · rw [if_neg hprivate]
      exact obeys_newTable hw hkeep hreach hmem hdepth he hhuge
        (.inr ⟨frame, hframe, hprivate, rfl⟩)
  · rw [if_pos hhuge]
    exact obeys_fail _ hw

/-- The tables on a path are made private, one after the other. -/
theorem obeys_makePathPrivate {rest : List (Fin 512)} : ∀ {w : Work} {is : List (Fin 512)}
    {table : PhysFrame}, Wf common w → Kept keep w.2 →
    Reach (lookup w.1.memory) w.2.rootFrame is table → table ∈ w.2.tables →
    is.length + rest.length ≤ 3 →
    Obeys (tableContract common keep) (makePathPrivate table rest)
      (fun _ w' => ∃ t, Reached (rest.reverse ++ is) w.2.mappings t w') w := by
  induction rest with
  | nil =>
    intro w is table hw hkeep hreach hmem _
    exact obeys_ret hw ⟨table, hreach, hmem, rfl⟩
  | cons index rest ih =>
    intro w is table hw hkeep hreach hmem hlength
    rw [length_cons] at hlength
    refine (obeys_privateTable hw hkeep index hreach hmem (by omega)).bind
      fun next w' hw' hadds hnext => ?_
    obtain ⟨hreach', hmem', hmappings⟩ := hnext
    have hrest := ih hw' (hadds.kept hkeep) hreach' hmem' (by rw [length_cons]; omega)
    rw [hmappings] at hrest
    rwa [reverse_cons, append_assoc]

/-- **After this the tables on the way to the page are private.** -/
theorem obeys_makeUserPathPrivate (hw : Wf common w) (hkeep : Kept keep w.2) (page : Page) :
    Obeys (tableContract common keep) (makeUserPathPrivate page)
      (fun _ w' => ∃ t, Reached [page.p2Index, page.p3Index, page.p4Index] w.2.mappings t w')
      w := by
  rw [makeUserPathPrivate, Obeys, bind_eq, ends_load]
  exact obeys_makePathPrivate hw hkeep .root hw.owns.root_mem (le_refl _)

end Path

/-! ## Mapping a page -/

structure SetsEntry (m m' : Memory) (t : PhysFrame) (i : Fin 512) (e : UInt64) : Prop where
  changed : Changed [t] m m'
  self : entry m' t i = e
  other : ∀ u j, (u, j) ≠ (t, i) → entry m' u j = entry m u j

theorem setsEntry_setEntry (m : Memory) (t : PhysFrame) (i : Fin 512) (e : UInt64) :
    SetsEntry m (setEntry m t i e) t i e :=
  ⟨changed_setEntry m t i e (mem_singleton.2 rfl), entry_setEntry_self m t i e,
    fun u _ hne => entry_setEntry_ne m t u hne e⟩

variable {t : PhysFrame} {e' : UInt64}

theorem SetsEntry.trans {m'' : Memory} {i : Fin 512}
    (h : SetsEntry m m' t i e) (h' : SetsEntry m' m'' t i e') : SetsEntry m m'' t i e' :=
  ⟨h.changed.trans h'.changed, h'.self, fun u j hne => (h'.other u j hne).trans (h.other u j hne)⟩

section Leaf

variable {m m' : Memory} {root t : PhysFrame} {own : List PhysFrame} {i1 i2 i3 i4 : Fin 512}
  {e : UInt64}

theorem SetsEntry.setsLeaf (h : SetsEntry m m' t i1 e)
    (hreach : Reach (lookup m) root [i2, i3, i4] t) (hmem : t ∈ own) :
    SetsLeaf (lookup m) (lookup m') root own common [i2, i3, i4] t i1 :=
  ⟨hreach, hmem, lookup_level_one m t i1, lookup_level_one m' t i1,
    fun d u j _ hne => lookup_congr (h.other u j hne) d⟩

/-- The way to an owned table, as the library needs it. -/
theorem descends_of_reach (howns : Owns (lookup m) root own common IsParent)
    (hreach : Reach (lookup m) root [i2, i3, i4] t) (hmem : t ∈ own) :
    Descends m 0 root [i4, i3, i2] t := by
  cases hreach with
  | step hreach2 hlook2 =>
    have hmem2 := howns.mem_of_step hreach2 hlook2 hmem
    have hflags2 := howns.label _ _ _ _ _ hreach2 hlook2 hmem
    cases hreach2 with
    | step hreach3 hlook3 =>
      have hmem3 := howns.mem_of_step hreach3 hlook3 hmem2
      have hflags3 := howns.label _ _ _ _ _ hreach3 hlook3 hmem2
      cases hreach3 with
      | step hreach4 hlook4 =>
        have hflags4 := howns.label _ _ _ _ _ hreach4 hlook4 hmem3
        cases hreach4
        exact .down hlook4 hflags4 (.down hlook3 hflags3 (.down hlook2 hflags2 .here))

end Leaf

/-- The page is mapped to the frame, or it has an entry that cannot be replaced. -/
theorem ends_mapOrReplace {k : Bool → Prog Work MmError α}
    (howns : Owns (lookup w.1.memory) w.2.rootFrame own common IsParent)
    (hreach : Reach (lookup w.1.memory) w.2.rootFrame [page.p2Index, page.p3Index, page.p4Index] t)
    (hmem : t ∈ own)
    (hok : ∀ m, SetsEntry w.1.memory m t page.p1Index (makeEntry frame flags.bits) →
      Ends (k true) Q ({ w.1 with memory := m }, w.2))
    (hfail : entry w.1.memory t page.p1Index ≠ 0 →
      entryFrame (entry w.1.memory t page.p1Index) = none → Ends (k false) Q w) :
    Ends (Prog.bind (mapOrReplace mapper page frame flags) k) Q w := by
  have hpath := descends_of_reach howns hreach hmem
  rw [mapOrReplace]
  simp only [bind_eq, Prog.bind_assoc]
  rw [mapTo, ends_step]
  by_cases hused : entry w.1.memory t page.p1Index = 0
  · rw [mapper.mapTo_unused hpath hused]
    exact hok _ (setsEntry_setEntry _ _ _ _)
  rw [mapper.mapTo_used hpath hused]
  simp only [Bool.false_eq_true, if_false]
  rw [Prog.bind_assoc, unmap, ends_step, mapper.unmap_eq hpath]
  by_cases hframe : entryFrame (entry w.1.memory t page.p1Index) = none
  · rw [if_pos hframe]
    exact hfail hused hframe
  rw [if_neg hframe]
  -- The entry has been removed, and the tables on the way are as before.
  have hunmapped := setsEntry_setEntry w.1.memory t page.p1Index 0
  have hleaf : SetsLeaf _ _ _ own common _ _ _ := hunmapped.setsLeaf hreach hmem
  have hpath' := descends_of_reach (howns.setLeaf hleaf) ((howns.reach_setLeaf hleaf).2 hreach)
    hmem
  simp only [if_true]
  rw [ends_step, mapper.mapTo_unused hpath' hunmapped.self]
  exact hok _ (hunmapped.trans (setsEntry_setEntry _ _ _ _))

/-- **What a successful call has done.** -/
structure Maps (w : Work) (page : Page) (flags : PageFlags) (frame : PhysFrame) (w' : Work) :
    Prop where
  mappings : w'.2.mappings = w.2.mappings ++ [⟨page, frame, targetFlags flags⟩]
  mapped : ∃ t, Reach (lookup w'.1.memory) w'.2.rootFrame
      [page.p2Index, page.p3Index, page.p4Index] t ∧ t ∈ w'.2.tables ∧
    entry w'.1.memory t page.p1Index = makeEntry frame (targetFlags flags).bits
  zero : window w'.1.memory (frameStart frame) 4096 = List.replicate 4096 0

/-- A frame of the pool is no table, so it can be cleared. -/
theorem Wf.lookup_zeroFrame (hw : Wf common w) (hframe : frame ∈ w.1.allocator.pool) (d : Nat)
    (t : PhysFrame) (i : Fin 512) (ht : t ∈ w.2.tables ∨ common d t) :
    lookup (zeroFrame w.1.memory frame) d t i = lookup w.1.memory d t i := by
  exact lookup_of_changed (changed_zeroFrame w.1.memory frame (mem_singleton.2 rfl))
    (forall_mem_singleton.2 (hw.free hframe)) d t i ht

/-- The entry of a page is set, and those of the other pages stay. -/
theorem HasEntry.setEntry {w' : Work} (hw : Wf common w) (hframe : frame ∈ w.1.allocator.pool)
    (hreach : Reach (lookup w.1.memory) w.2.rootFrame [page.p2Index, page.p3Index, page.p4Index] t)
    (hmem : t ∈ w.2.tables)
    (hset : SetsEntry (zeroFrame w.1.memory frame) w'.1.memory t page.p1Index e)
    (hroot : w'.2.rootFrame = w.2.rootFrame) (htables : w'.2.tables = w.2.tables)
    (hne : page' ≠ page) (h : HasEntry w page' e') : HasEntry w' page' e' := by
  obtain ⟨t', hreach', hmem', he⟩ := h
  have hlook := hw.lookup_zeroFrame hframe
  have hsame : ∀ {is u}, Reach (lookup (zeroFrame w.1.memory frame)) w.2.rootFrame is u ↔ _ :=
    hw.owns.reach_congr hlook
  have hleaf : SetsLeaf _ _ _ w.2.tables common _ _ _ := hset.setsLeaf (hsame.2 hreach) hmem
  refine ⟨t', hroot ▸ ((hw.owns.congr hlook).reach_setLeaf hleaf).2 (hsame.2 hreach'),
    htables ▸ hmem', ?_⟩
  have hentry : (t', page'.p1Index) ≠ (t, page.p1Index) := by
    intro heq
    have htable : t' = t := congrArg Prod.fst heq
    have hindex : page'.p1Index = page.p1Index := congrArg Prod.snd heq
    subst htable
    have hpath := hw.owns.unique _ _ _ hreach' hreach hmem
    simp only [cons.injEq] at hpath
    refine hne (path_injective ?_)
    rw [Page.path, Page.path, hindex, hpath.1, hpath.2.1, hpath.2.2.1]
  have htable : t' ∉ [frame] := fun hf =>
    (hw.free hframe).1 (mem_singleton.1 hf ▸ hmem')
  rw [hset.other _ _ hentry, entry_of_changed (changed_zeroFrame _ _ (mem_singleton.2 rfl))
    htable, he]

/-- A page that has just been mapped is mapped as its new record says. -/
theorem Current.append {w' : Work} (hw : Current w) {mapping : Mapping}
    (hmappings : w'.2.mappings = w.2.mappings ++ [mapping])
    (hself : HasEntry w' mapping.page (makeEntry mapping.frame mapping.flags.bits))
    (hother : ∀ page e, page ≠ mapping.page → HasEntry w page e → HasEntry w' page e) :
    Current w' := by
  intro page mapping' hlast
  rw [last, hmappings, reverse_append, reverse_singleton,
    singleton_append, find?_cons] at hlast
  by_cases hpage : mapping.page = page
  · rw [decide_eq_true hpage] at hlast
    cases hlast
    exact hpage ▸ hself
  · rw [decide_eq_false hpage] at hlast
    exact hother page _ (Ne.symm hpage) (hw page mapping' hlast)

section Mappings

variable (hw : Wf common w) (hkeep : Kept keep w.2) (hpool : w.1.allocator.pool = frame :: a.pool)
include hw hkeep hpool

/-- **The entry of the page is set**, and the frame is recorded. -/
theorem Wf.withMapping
    (hreach : Reach (lookup w.1.memory) w.2.rootFrame [page.p2Index, page.p3Index, page.p4Index] t)
    (hmem : t ∈ w.2.tables) (hset : SetsEntry (zeroFrame w.1.memory frame) m t page.p1Index
      (makeEntry frame (targetFlags flags).bits)) :
    let w' : Work := ({ w.1 with memory := m, allocator := a },
      { w.2 with mappings := w.2.mappings ++ [⟨page, frame, targetFlags flags⟩] })
    Wf common w' ∧ Adds (· = page) keep w w' ∧ Maps w page flags frame w' := by
  have hframe : frame ∈ w.1.allocator.pool := hpool ▸ mem_cons_self
  have hlook := hw.lookup_zeroFrame hframe
  have howns := hw.owns.congr hlook
  have hreach' := (hw.owns.reach_congr hlook).2 hreach
  have hleaf : SetsLeaf _ _ _ w.2.tables common _ _ _ := hset.setsLeaf hreach' hmem
  have hframes := perm_mapping w m hpool ⟨page, frame, targetFlags flags⟩ rfl
  have htable : frame ∉ [t] := fun heq =>
    (hw.free hframe).1 (mem_singleton.1 heq ▸ hmem)
  refine ⟨hw.of_perm hframes rfl (howns.setLeaf hleaf),
    ⟨⟨rfl, rfl, hframes, ?_, fun key hkey => ?_⟩, fun hcurrent => ?_, [_], rfl,
      nodup_singleton _, fun mapping hmapping => ?_⟩, rfl,
    ⟨t, (howns.reach_setLeaf hleaf).2 hreach', hmem, hset.self⟩, ?_⟩
  · refine (changed_zeroFrame _ _ (mem_writable_of_mem_pool hw hkeep hframe)).trans
      (hset.changed.mono fun f hf => ?_)
    rw [mem_singleton.1 hf]
    exact mem_writable_of_table hw hkeep hmem
  · exact congrArg (Option.map leafOf) ((howns.find_setLeaf hleaf fun hprefix =>
      hkey ⟨page, rfl, hprefix⟩).trans (hw.owns.find_congr hlook key))
  · exact hcurrent.append rfl ⟨t, (howns.reach_setLeaf hleaf).2 hreach', hmem, hset.self⟩
      fun page' e hne he => he.setEntry hw hframe hreach hmem hset rfl rfl hne
  · rw [mem_singleton.1 hmapping]
  · have hwindow := window_of_changed hset.changed htable (i := 0) (n := 4096) (le_refl _)
    have hzero := window_blit_self w.1.memory (frameStart frame) (replicate 4096 0)
    rw [length_replicate] at hzero
    exact hwindow.trans hzero

/-- The frame is given back where the page cannot be mapped. -/
theorem Wf.withoutMapping :
    let w' : Work := (({ w.1 with memory := zeroFrame w.1.memory frame, allocator := a } :
      Manager).deallocateFrame frame, w.2)
    Wf common w' ∧ Adds (fun _ => False) keep w w' := by
  intro w'
  have hframe : frame ∈ w.1.allocator.pool := hpool ▸ mem_cons_self
  have hlook := hw.lookup_zeroFrame hframe
  have hframes : frames w' = frames w := by
    rw [frames, frames, hpool]
    rfl
  refine ⟨hw.of_perm (.of_eq hframes) rfl (hw.owns.congr hlook), .ofTables ⟨rfl, rfl,
    .of_eq hframes, changed_zeroFrame _ _ (mem_writable_of_mem_pool hw hkeep hframe),
    fun key _ => congrArg (Option.map leafOf) (hw.owns.find_congr hlook key)⟩ rfl
    fun page e he => ?_⟩
  have hchanged : Changed [frame] w.1.memory w'.1.memory :=
    changed_zeroFrame _ _ (mem_singleton.2 rfl)
  exact he.ofChanged hw hchanged (forall_mem_singleton.2 (hw.free hframe))

end Mappings

/-- Where a page has been mapped, or could not be. -/
def MapsPage (common : Nat → PhysFrame → Prop) (keep : List PhysFrame) (page : Page)
    (flags : PageFlags) (w : Work) : Option (Except MmError PhysFrame) → Work → Prop
  | some (.ok frame), w' => Wf common w' ∧ Adds (· = page) keep w w' ∧ Maps w page flags frame w'
  | _, w' => Wf common w' ∧ Adds (· = page) keep w w'

section MapPage

variable (hw : Wf common w) (hkeep : Kept keep w.2) (page : Page) (flags : PageFlags)
include hw hkeep

/-- **Mapping a page** adds a record for it, or nothing. -/
theorem ends_mapPage :
    Ends (mapPage mapper page flags) (MapsPage common keep page flags w) w := by
  have hnone : ∀ {w' : Work}, Adds (fun _ => False) keep w w' → Adds (· = page) keep w w' :=
    fun h => h.mono fun _ hfalse => hfalse.elim
  rw [mapPage, bind_eq, ends_bind]
  refine Ends.mono (fun r w1 h => ?_) (obeys_makeUserPathPrivate hw hkeep page)
  rcases r with _ | e | _
  · exact ⟨h.1, hnone h.2⟩
  · exact ⟨h.1, hnone h.2⟩
  obtain ⟨hw1, htables, t, hreach, hmem, hmappings⟩ := h
  have hkeep1 := htables.kept hkeep
  rw [andThen_ok]
  refine ends_allocateFrame (fun a hpool => ?_) fun frame a hpool => ?_
  · have h := hw1.of_pool keep hpool
    exact ⟨h.1, hnone (htables.after h.2)⟩
  have hlook := hw1.lookup_zeroFrame (hpool ▸ mem_cons_self)
  refine ends_mapOrReplace mapper (hw1.owns.congr hlook) ((hw1.owns.reach_congr hlook).2 hreach)
    hmem (fun m hset => ?_) fun _ _ => ?_
  · obtain ⟨hw', hadds, hmaps⟩ := hw1.withMapping hkeep1 hpool hreach hmem hset
    simp only [if_true, bind_eq]
    rw [ends_update, ends_load]
    split
    · exact ⟨hw', htables.after hadds, hmappings ▸ hmaps.mappings, hmaps.mapped, hmaps.zero⟩
    · exact ⟨hw', htables.after hadds⟩
  · have h := hw1.withoutMapping hkeep1 hpool
    exact ⟨h.1, hnone (htables.after h.2)⟩

theorem adds_mapPage : Ends (mapPage mapper page flags) (fun _ w' =>
    Wf common w' ∧ Adds (· = page) keep w w') w := by
  refine (ends_mapPage mapper hw hkeep page flags).mono fun r w' h => ?_
  rcases r with _ | e | frame
  · exact h
  · exact h
  · exact ⟨h.1, h.2.1⟩

end MapPage

end Krust.Mm
