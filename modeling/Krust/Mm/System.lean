import Krust.Mm.Spaces
import Mathlib.Data.List.Flatten

/-!
# Address spaces that live side by side

`System` is the memory manager with all live spaces, and `Op` what is done to them.  The frames are
shared out among the allocator and the spaces, and the tables of the kernel are nobody's.  `Good`
says that no frame is in two hands and that every space owns its tables; it is kept by every
operation (`Good.apply`), since an operation works with the frames of the allocator and of one space
(`Good.ofChanged`).

Two results follow for every run.  No frame is lost or given back twice (`frames_conserved`).  And
where a page is mapped no translation changes but that of the page: neither in another space, nor in
the tables of the kernel, nor of the other pages of the space (`mapping_isolated`).
-/

set_option autoImplicit false

namespace Krust.Mm

open Arch Lib Prog List Page

structure System where
  manager : Manager
  spaces : List AddressSpace

def System.frames (s : System) : List PhysFrame :=
  s.manager.allocator.pool ++ s.spaces.flatMap AddressSpace.frames

/-! ## Operations -/

inductive Op
  | create
  | mapPage (k : Nat) (page : Page) (flags : PageFlags)
  | mapSegment (k : Nat) (segment : LoadSegment) (readChunk : ReadChunk)
  | mapZeroedRegion (k : Nat) (start size : Nat) (flags : PageFlags)
  | fork (k : Nat)
  | clear (k : Nat)
  | drop (k : Nat)

/-- A method of a space is called; if it panics, everything stays as it is then. -/
def System.method {α : Type} (s : System) (k : Nat) (p : Prog Work MmError α) : System :=
  match s.spaces[k]? with
  | none => s
  | some space =>
    let w := (run p (s.manager, space)).2
    ⟨w.1, s.spaces.set k w.2⟩

/-- A new space, if there is one.  A panic leaves the space that is being made to nobody: it is the
end, and what there was before it is kept. -/
def System.add (s : System) : Option (Except MmError AddressSpace) × Manager → System
  | (some (.ok space), mm) => ⟨mm, s.spaces ++ [space]⟩
  | (some (.error _), mm) => ⟨mm, s.spaces⟩
  | (none, _) => s

def Op.apply (mapper : Mapper) (checks : Bool) (s : System) : Op → System
  | create => s.add (run kernel s.manager)
  | mapPage k page flags => s.method k (Mm.mapPage mapper page flags)
  | mapSegment k segment readChunk => s.method k (Mm.mapSegment mapper segment readChunk)
  | mapZeroedRegion k start size flags =>
    s.method k (Mm.mapZeroedRegion mapper checks start size flags)
  | fork k =>
    match s.spaces[k]? with
    | none => s
    | some space => s.add (run (cloneForFork mapper space) s.manager)
  | clear k => s.method k Mm.clear
  | drop k =>
    match s.spaces[k]? with
    | none => s
    | some space => ⟨(run (dropSpace space) s.manager).2, s.spaces.eraseIdx k⟩

/-- What is done one after the other, from the start on. -/
def runOps (mapper : Mapper) (checks : Bool) (mm : Manager) (ops : List Op) : System :=
  runFrom (Op.apply mapper checks) ⟨mm, []⟩ ops

def KernelTable (mm : Manager) (d : Nat) (t : PhysFrame) : Prop :=
  ∃ is, is.length = d ∧ Reach (lookup mm.memory) mm.kernelRoot is t

/-! ## The invariant -/

/-- **No frame is in two hands, and every space owns its tables.** -/
structure Good (common : Nat → PhysFrame → Prop) (s : System) : Prop where
  nodup : s.frames.Nodup
  apart : ∀ d t, common d t → t ∉ s.frames
  kernelRoot : common 0 s.manager.kernelRoot
  closed : ∀ d t i e u, common d t → lookup s.manager.memory d t i = some (e, some u) →
    common (d + 1) u
  owns : ∀ space ∈ s.spaces, Owns (lookup s.manager.memory) space.rootFrame space.tables common
    IsParent

variable {common : Nat → PhysFrame → Prop} {s s' : System} {k : Nat} {space : AddressSpace}
  {l : List AddressSpace} {a : Nat} {page : Page} {pages : Page → Prop}

theorem perm_of_getElem? (h : l[k]? = some space) : l.Perm (space :: l.eraseIdx k) := by
  obtain ⟨hk, rfl⟩ := List.getElem?_eq_some_iff.1 h
  exact (getElem_cons_eraseIdx_perm hk).symm

theorem perm_set (h : l[k]? = some space) (other : AddressSpace) :
    (l.set k other).Perm (other :: l.eraseIdx k) := by
  have hperm := perm_of_getElem? (getElem?_set_self (List.getElem?_eq_some_iff.1 h).1
    (a := other))
  rwa [eraseIdx_set_eq] at hperm

theorem frames_perm (h : s.spaces[k]? = some space) :
    s.frames.Perm (frames (s.manager, space) ++ (s.spaces.eraseIdx k).flatMap
      AddressSpace.frames) := by
  rw [frames, append_assoc]
  exact ((perm_of_getElem? h).flatMap_right _).append_left _

theorem Good.wf (hs : Good common s) (h : s.spaces[k]? = some space) :
    Wf common (s.manager, space) := by
  refine ⟨(nodup_append.1 ((frames_perm h).nodup_iff.1 hs.nodup)).1, fun d t ht hmem => ?_,
    hs.kernelRoot, hs.owns space (mem_of_getElem? h)⟩
  exact hs.apart d t ht ((frames_perm h).mem_iff.2 (mem_append_left _ hmem))

theorem Good.wfManager (hs : Good common s) : WfManager common s.manager :=
  ⟨(nodup_append.1 hs.nodup).1, fun d t ht hmem =>
    hs.apart d t ht (mem_append_left _ hmem), hs.kernelRoot, hs.closed⟩

section Changed

variable {fs : List PhysFrame} (hs : Good common s)
  (hmemory : Changed fs s.manager.memory s'.manager.memory) (hfs : ∀ f ∈ fs, f ∈ s.frames)

include hs hmemory hfs

theorem Good.lookup_common (d : Nat) (t : PhysFrame) (i : Fin 512) (ht : common d t) :
    lookup s'.manager.memory d t i = lookup s.manager.memory d t i :=
  lookup_congr (entry_of_changed hmemory (fun hmem => hs.apart d t ht (hfs t hmem)) i) d

theorem Good.lookup_space (h : ∀ t ∈ space.tables, t ∉ fs) (d : Nat) (t : PhysFrame) (i : Fin 512)
    (ht : t ∈ space.tables ∨ common d t) :
    lookup s'.manager.memory d t i = lookup s.manager.memory d t i :=
  lookup_of_changed hmemory (fun f hf => ⟨fun hmem => h f hmem hf, fun d hd =>
    hs.apart d f hd (hfs f hf)⟩) d t i ht

/-- **Frames change hands, and some of them are written.** -/
theorem Good.ofChanged (hkernelRoot : s'.manager.kernelRoot = s.manager.kernelRoot)
    (hframes : s'.frames.Perm s.frames)
    (hspaces : ∀ space ∈ s'.spaces, (space ∈ s.spaces ∧ ∀ t ∈ space.tables, t ∉ fs) ∨
      Owns (lookup s'.manager.memory) space.rootFrame space.tables common IsParent) :
    Good common s' := by
  refine ⟨hframes.nodup_iff.2 hs.nodup, fun d t ht hmem =>
    hs.apart d t ht (hframes.mem_iff.1 hmem), hkernelRoot ▸ hs.kernelRoot,
    fun d t i e u ht he => ?_, fun space h => ?_⟩
  · rw [hs.lookup_common hmemory hfs d t i ht] at he
    exact hs.closed d t i e u ht he
  rcases hspaces space h with ⟨hmem, hapart⟩ | howns
  · exact (hs.owns space hmem).congr (hs.lookup_space hmemory hfs hapart)
  · exact howns

end Changed

/-! ## Methods -/

section Method

variable (hs : Good common s) (hk : s.spaces[k]? = some space)

include hs hk

omit hs in
theorem mem_frames_of_method {f : PhysFrame} (h : f ∈ frames (s.manager, space)) : f ∈ s.frames :=
  (frames_perm hk).mem_iff.2 (mem_append_left _ h)

/-- The other spaces have none of the frames that a method works with. -/
theorem Good.apart_of_mem {other : AddressSpace} (h : other ∈ s.spaces.eraseIdx k) {t : PhysFrame}
    (ht : t ∈ other.tables) : t ∉ frames (s.manager, space) := by
  intro hmem
  refine (nodup_append.1 ((frames_perm hk).nodup_iff.1 hs.nodup)).2.2 t hmem t ?_ rfl
  exact mem_flatMap.2 ⟨other, h, mem_frames_of_mem_tables ht⟩

theorem Good.method {α : Type} {p : Prog Work MmError α} {changes : List (Fin 512) → Prop}
    (hw : Wf common (run p (s.manager, space)).2)
    (heffect : Effect changes [] (s.manager, space) (run p (s.manager, space)).2) :
    Good common (s.method k p) ∧ (s.method k p).frames.Perm s.frames := by
  rw [System.method, hk]
  dsimp only
  generalize (run p (s.manager, space)).2 = w at hw heffect
  have hset := perm_set hk w.2
  have hframes : System.frames ⟨w.1, s.spaces.set k w.2⟩ |>.Perm s.frames := by
    refine ((hset.flatMap_right _).append_left _).trans (.trans ?_ (frames_perm hk).symm)
    rw [flatMap_cons, ← append_assoc]
    exact heffect.frames.append_right _
  refine ⟨hs.ofChanged (heffect.memory) (fun f hf =>
    mem_frames_of_method hk (mem_filter.1 hf).1) heffect.kernelRoot hframes
    fun other hother => ?_, hframes⟩
  rcases mem_cons.1 (hset.mem_iff.1 hother) with rfl | hmem
  · exact .inr hw.owns
  · refine .inl ⟨(eraseIdx_sublist _ _).subset hmem, fun t ht hf => ?_⟩
    exact hs.apart_of_mem hk hmem ht (mem_filter.1 hf).1

end Method

/-! ## New spaces and old ones -/

theorem Good.apart_pool (hs : Good common s) (hspace : space ∈ s.spaces) :
    ∀ t ∈ space.tables, t ∉ s.manager.allocator.pool := by
  intro t ht hmem
  refine (nodup_append.1 hs.nodup).2.2 t hmem t ?_ rfl
  exact mem_flatMap.2 ⟨space, hspace, mem_frames_of_mem_tables ht⟩

theorem Good.add (hs : Good common s) {p : Prog Manager MmError AddressSpace}
    (hp : Ends p (Created common s.manager) s.manager) :
    Good common (s.add (run p s.manager)) ∧ (s.add (run p s.manager)).frames.Perm s.frames := by
  have hpool : ∀ f ∈ s.manager.allocator.pool, f ∈ s.frames := fun f hf => mem_append_left _ hf
  -- Without a new space the allocator has what it had.
  have hnone : ∀ mm, WfManager common mm ∧ Creates s.manager mm [] →
      Good common ⟨mm, s.spaces⟩ ∧ (System.frames ⟨mm, s.spaces⟩).Perm s.frames := by
    rintro mm ⟨-, hcreates⟩
    have hframes : (System.frames ⟨mm, s.spaces⟩).Perm s.frames :=
      (append_nil mm.allocator.pool ▸ hcreates.frames).append_right _
    exact ⟨hs.ofChanged hcreates.memory hpool hcreates.kernelRoot hframes fun space hspace =>
      .inl ⟨hspace, hs.apart_pool hspace⟩, hframes⟩
  rw [Ends] at hp
  rcases hrun : run p s.manager with ⟨_ | e | space, mm⟩ <;> rw [hrun] at hp
  · exact ⟨hs, .refl _⟩
  · exact hnone mm hp
  obtain ⟨hw, hcreates⟩ := hp
  have hframes : (System.frames ⟨mm, s.spaces ++ [space]⟩).Perm s.frames := by
    rw [System.frames, flatMap_append, flatMap_singleton]
    refine (List.perm_append_comm.append_left _).trans ?_
    rw [← append_assoc]
    exact hcreates.frames.append_right _
  refine ⟨hs.ofChanged hcreates.memory hpool hcreates.kernelRoot hframes fun other hother => ?_,
    hframes⟩
  rcases mem_append.1 hother with hmem | hmem
  · exact .inl ⟨hmem, hs.apart_pool hmem⟩
  · rw [mem_singleton.1 hmem]
    exact .inr hw.owns

theorem Good.drop (hs : Good common s) (hk : s.spaces[k]? = some space) :
    let s' : System := ⟨s.manager.drop space, s.spaces.eraseIdx k⟩
    Good common s' ∧ s'.frames.Perm s.frames := by
  intro s'
  have hframes : s'.frames.Perm s.frames :=
    ((perm_drop s.manager space).append_right _).trans (frames_perm hk).symm
  exact ⟨hs.ofChanged (Changed.refl [] _) nofun rfl hframes fun other hother =>
    .inl ⟨(eraseIdx_sublist _ _).subset hother, fun _ _ => not_mem_nil⟩, hframes⟩

/-! ## Runs -/

/-- The space in which an operation maps pages, and which pages they are. -/
def Op.mapped (checks : Bool) : Op → Option (Nat × (Page → Prop))
  | mapPage k page _ => some (k, (· = page))
  | mapSegment k segment _ =>
    some (k, InRange segment.virtualAddress.toNat
      (segment.virtualAddress.toNat + segment.memorySize.toNat))
  | mapZeroedRegion k start size _ =>
    some (k, InRange (regionStart checks start (start + size)) (start + size))
  | _ => none

/-- A mapping operation is a method that maps these pages. -/
theorem Op.mapped_eq (common : Nat → PhysFrame → Prop) (s : System) (mapper : Mapper)
    {checks : Bool} {op : Op} (h : op.mapped checks = some (k, pages)) :
    ∃ (α : Type) (p : Prog Work MmError α), op.apply mapper checks s = s.method k p ∧
      ∀ w, Wf common w → Ends p (fun _ w' => Wf common w' ∧
        Adds pages [] w w') w := by
  cases op with
  | create => cases h
  | mapPage k page flags =>
    cases h
    exact ⟨_, _, rfl, fun w hw => adds_mapPage mapper hw (kept_nil _) page flags⟩
  | mapSegment k segment readChunk =>
    cases h
    exact ⟨_, _, rfl, fun w hw => adds_mapSegment mapper hw (kept_nil _) segment readChunk⟩
  | mapZeroedRegion k start size flags =>
    cases h
    exact ⟨_, _, rfl, fun w hw =>
      adds_mapZeroedRegion mapper hw (kept_nil _) checks start size flags⟩
  | fork k => cases h
  | clear k => cases h
  | drop k => cases h

section Runs

variable (mapper : Mapper) (checks : Bool)

/-- **Every operation keeps the invariant, and all frames.** -/
theorem Good.apply (hs : Good common s) (op : Op) :
    Good common (op.apply mapper checks s) ∧ (op.apply mapper checks s).frames.Perm s.frames := by
  rcases hmapped : op.mapped checks with _ | ⟨k, pages⟩
  on_goal 2 =>
    obtain ⟨α, p, happly, hadds⟩ := op.mapped_eq common s mapper hmapped
    rw [happly]
    rcases hk : s.spaces[k]? with _ | space
    · rw [System.method, hk]
      exact ⟨hs, .refl _⟩
    obtain ⟨hw, hadds⟩ := hadds _ (hs.wf hk)
    exact hs.method hk hw hadds.toEffect
  cases op with
  | mapPage | mapSegment | mapZeroedRegion => cases hmapped
  | create => exact hs.add (ends_kernel hs.wfManager)
  | fork k =>
    rw [Op.apply]
    rcases hk : s.spaces[k]? with _ | space
    · exact ⟨hs, .refl _⟩
    · exact hs.add (ends_cloneForFork mapper hs.wfManager space)
  | clear k =>
    rw [Op.apply]
    rcases hk : s.spaces[k]? with _ | space
    · rw [System.method, hk]
      exact ⟨hs, .refl _⟩
    · obtain ⟨hw, heffect, -⟩ := ends_clear (hs.wf hk)
      exact hs.method hk hw heffect
  | drop k =>
    rw [Op.apply]
    rcases hk : s.spaces[k]? with _ | space
    · exact ⟨hs, .refl _⟩
    simp only [run_dropSpace]
    exact hs.drop hk

variable {mm : Manager}

variable (hpool : mm.allocator.pool.Nodup)
  (hkernel : ∀ d t, KernelTable mm d t → t ∉ mm.allocator.pool)

include hpool hkernel

theorem good_runOps (ops : List Op) :
    Good (KernelTable mm) (runOps mapper checks mm ops) ∧
      (runOps mapper checks mm ops).frames.Perm mm.allocator.pool := by
  have hframes : System.frames ⟨mm, []⟩ = mm.allocator.pool := append_nil _
  refine runFrom_induction (P := fun s => Good (KernelTable mm) s ∧
    s.frames.Perm mm.allocator.pool) ⟨⟨?_, ?_, ⟨[], rfl, .root⟩, ?_, ?_⟩, ?_⟩ ?_ ops
  · rwa [hframes]
  · rwa [hframes]
  · rintro d t i e u ⟨is, rfl, hreach⟩ he
    exact ⟨i :: is, rfl, .step hreach he⟩
  · exact nofun
  · exact .of_eq hframes
  intro s op hs
  have h := hs.1.apply mapper checks op
  exact ⟨h.1, h.2.trans hs.2⟩

/-- **No frame is lost or given back twice.**  At any time the frames that the allocator can issue
and those that the live spaces hold, as roots, private tables or pages, are the frames from the
start, each of them once; allocations may fail, for want of a frame or of memory, wherever they are
made. -/
theorem frames_conserved (ops : List Op) :
    let s := runOps mapper checks mm ops
    (s.manager.allocator.pool ++ s.spaces.flatMap AddressSpace.frames).Perm mm.allocator.pool ∧
      (s.manager.allocator.pool ++ s.spaces.flatMap AddressSpace.frames).Nodup ∧
      (s.spaces = [] → s.manager.allocator.pool.Perm mm.allocator.pool) := by
  obtain ⟨hs, hframes⟩ := good_runOps mapper checks hpool hkernel ops
  refine ⟨hframes, hs.nodup, fun hempty => ?_⟩
  rwa [System.frames, hempty, flatMap_nil, append_nil] at hframes

end Runs

/-! ## A small system -/

/-- The table that these indices lead to, if every entry on the way has the flags of a parent. -/
def descend (m : Memory) : Nat → PhysFrame → List (Fin 512) → Option PhysFrame
  | _, t, [] => some t
  | d, t, i :: is =>
    match lookup m d t i with
    | some (e, some u) => if e &&& parentFlags = parentFlags then descend m (d + 1) u is else none
    | _ => none

theorem descend_eq {m : Memory} {d : Nat} {t u : PhysFrame} {is : List (Fin 512)}
    (h : Descends m d t is u) : descend m d t is = some u := by
  induction h with
  | here => rfl
  | down hlook hflags _ ih => rw [descend, hlook]; simp only [hflags, if_true, ih]

/-- The library, for pages to which the tables exist. -/
def walkMapper : Mapper where
  room n := n ≤ 2 ^ 15
  mapTo root page frame flags _ m allocator :=
    match descend m 0 root [page.p4Index, page.p3Index, page.p2Index] with
    | none => (false, m, allocator)
    | some table =>
      if entry m table page.p1Index = 0 then
        (true, setEntry m table page.p1Index (makeEntry frame flags), allocator)
      else (false, m, allocator)
  unmap root page m :=
    match descend m 0 root [page.p4Index, page.p3Index, page.p2Index] with
    | none => (false, m)
    | some table =>
      if entryFrame (entry m table page.p1Index) = none then (false, m)
      else (true, setEntry m table page.p1Index 0)
  mapTo_unused h hunused := by simp only [descend_eq h, hunused, if_true]
  mapTo_used h hused := by simp only [descend_eq h, if_neg hused]
  unmap_eq h := by simp only [descend_eq h]

/-- Fifteen usable frames, and a kernel with an empty root table. -/
def smallManager : Manager where
  memory _ := 0
  allocator := ⟨[⟨4096, 65536, .usable, by decide⟩], 0, [], true, fun _ => true⟩
  kernelRoot := 0

theorem entry_smallManager (t : PhysFrame) (i : Fin 512) : entry smallManager.memory t i = 0 := by
  have hwindow : ∀ a, window smallManager.memory a 8 = List.replicate 8 0 := fun a => rfl
  rw [entry, hwindow]
  rfl

theorem smallManager_apart (d : Nat) (t : PhysFrame) (h : KernelTable smallManager d t) :
    t ∉ smallManager.allocator.pool := by
  obtain ⟨is, -, hreach⟩ := h
  cases hreach with
  | root => decide
  | @step _ t _ i _ _ hlook =>
    rw [lookup_of_not_present (by rw [entry_smallManager t i]; decide)] at hlook
    cases hlook

theorem frames_conserved_fork :
    let ops : List Op := [.create, .mapPage 0 5 .writable, .mapPage 0 5 .empty, .fork 0, .clear 0,
      .drop 1]
    let s := runOps walkMapper true smallManager ops
    (s.manager.allocator.pool ++ s.spaces.flatMap AddressSpace.frames).Perm
      smallManager.allocator.pool :=
  (frames_conserved walkMapper true (by decide) smallManager_apart _).1

/-! ## Translations -/

/-- The entries on the way to the page of an address, in the tables of a root. -/
def System.translation (s : System) (root : PhysFrame) (address : Nat) : Option (List UInt64) :=
  Arch.translate (tablesOf s.manager.memory) 4 (UInt64.ofNat (frameStart root)) address

theorem translation_eq (s : System) (root : PhysFrame) (address : Nat) :
    s.translation root address = find (lookup s.manager.memory) 0 root (indices address) :=
  translate_eq_find _ _ _

theorem indices_eq (h : containingAddress a = some page) : indices a = page.path := by
  rw [containingAddress] at h
  split at h
  · cases h
    simp only [indices, path, p4Index, p3Index, p2Index, p1Index, Arch.span,
      List.cons.injEq, Fin.ext_iff, Fin.val_ofNat]
    refine ⟨?_, ?_, ?_, ?_, trivial⟩ <;> omega
  · cases h

theorem not_pageKeys (h : containingAddress a = some page) (hpage : ¬ pages page) :
    ¬ PageKeys pages (indices a) := by
  rintro ⟨page', hpage', hkey⟩
  rw [indices_eq h] at hkey
  exact hpage (path_injective (hkey.eq_of_length rfl) ▸ hpage')

/-- The same leaf is as closed to user code as before. -/
theorem supervisor_of_leaf {s s' : System} {root : PhysFrame} {path : List UInt64}
    (hleaf : (s'.translation root a).map leafOf = (s.translation root a).map leafOf)
    (hpath : s.translation root a = some path) (huser : ∀ leaf ∈ path.getLast?, leaf &&& USER = 0) :
    Supervisor (tablesOf s'.manager.memory) (UInt64.ofNat (frameStart root)) a := by
  rw [hpath, Option.map_some, Option.map_eq_some_iff] at hleaf
  obtain ⟨path', hpath', heq⟩ := hleaf
  have hlast : path'.getLast? = path.getLast? := congrArg Prod.snd heq
  have hne : path' ≠ [] := find_ne_nil (translation_eq s' root a ▸ hpath')
  refine ⟨path', hpath', path'.getLast hne, getLast_mem hne, huser _ ?_⟩
  rw [← hlast, getLast?_eq_some_getLast hne]
  rfl

/-- **Where pages are mapped in a space, no other translation changes**: none in the tables of the
kernel, none in another space, and in the space itself none of another page, up to the flags of the
tables on the way.  A page whose leaf lacks the `USER` bit stays closed to user code. -/
theorem mapping_isolated (mapper : Mapper) (checks : Bool) {mm : Manager}
    (hpool : mm.allocator.pool.Nodup)
    (hkernel : ∀ d t, KernelTable mm d t → t ∉ mm.allocator.pool) (ops : List Op) (op : Op)
    {k : Nat} {pages : Page → Prop} (hop : op.mapped checks = some (k, pages)) :
    let s := runOps mapper checks mm ops
    let s' := op.apply mapper checks s
    (∀ a, s'.translation mm.kernelRoot a = s.translation mm.kernelRoot a) ∧
    (∀ j space, j ≠ k → s.spaces[j]? = some space → s'.spaces[j]? = some space ∧
      ∀ a, s'.translation space.rootFrame a = s.translation space.rootFrame a) ∧
    ∀ space, s.spaces[k]? = some space → ∃ space', s'.spaces[k]? = some space' ∧
      space'.rootFrame = space.rootFrame ∧
      ∀ a page, containingAddress a = some page → ¬ pages page →
        (s'.translation space.rootFrame a).map leafOf =
          (s.translation space.rootFrame a).map leafOf ∧
        ∀ path, s.translation space.rootFrame a = some path →
          (∀ leaf ∈ path.getLast?, leaf &&& USER = 0) →
          Supervisor (tablesOf s'.manager.memory)
            (UInt64.ofNat (frameStart space.rootFrame)) a := by
  intro s s'
  have hs : Good (KernelTable mm) s := (good_runOps mapper checks hpool hkernel ops).1
  obtain ⟨α, p, happly, hadds⟩ := Op.mapped_eq (KernelTable mm) s mapper hop
  cases hk : s.spaces[k]? with
  | none =>
    have hsame : s' = s := by
      rw [show s' = s.method k p from happly, System.method, hk]
    rw [hsame]
    exact ⟨fun _ => rfl, fun j space _ hj => ⟨hj, fun _ => rfl⟩, nofun⟩
  | some space =>
    have heffect := (hadds _ (hs.wf hk)).2.toEffect
    have hs' : s' = ⟨(run p (s.manager, space)).2.1,
        s.spaces.set k (run p (s.manager, space)).2.2⟩ := by
      rw [show s' = s.method k p from happly, System.method, hk]
    have hmemory : Changed (frames (s.manager, space)) s.manager.memory s'.manager.memory := by
      rw [hs']
      exact heffect.memory.mono fun f hf => (mem_filter.1 hf).1
    have hfs := fun f hf => mem_frames_of_method (f := f) hk hf
    refine ⟨fun a => ?_, fun j other hne hj => ⟨?_, fun a => ?_⟩, fun _ h => ?_⟩
    · rw [translation_eq, translation_eq]
      exact find_common hs.closed (hs.lookup_common hmemory hfs) ⟨[], rfl, .root⟩ _
    · rw [hs', getElem?_set_ne hne.symm]
      exact hj
    · have hmem : other ∈ s.spaces.eraseIdx k := mem_eraseIdx_iff_getElem?.2 ⟨j, hne, hj⟩
      rw [translation_eq, translation_eq]
      exact (hs.owns other (mem_of_getElem? hj)).find_congr
        (hs.lookup_space hmemory hfs fun t ht => hs.apart_of_mem hk hmem ht) _
    · cases h
      refine ⟨(run p (s.manager, space)).2.2, ?_, heffect.rootFrame, fun a page hpage hnot => ?_⟩
      · rw [hs', getElem?_set_self (List.getElem?_eq_some_iff.1 hk).1]
      have hleaf : (s'.translation space.rootFrame a).map leafOf =
          (s.translation space.rootFrame a).map leafOf := by
        have h := heffect.leaf (indices a) (not_pageKeys hpage hnot)
        rw [heffect.rootFrame] at h
        rw [translation_eq, translation_eq, hs']
        exact h
      exact ⟨hleaf, fun path hpath huser => supervisor_of_leaf hleaf hpath huser⟩

/-- A kernel with a page of 1 GiB at the start of the upper half, and fourteen usable frames. -/
def kernelManager : Manager where
  memory := setEntry (setEntry smallManager.memory 0 256 (makeEntry 1 (PRESENT ||| WRITABLE))) 1 0
    (PRESENT ||| WRITABLE ||| HUGE)
  allocator := ⟨[⟨8192, 65536, .usable, by decide⟩], 0, [], true, fun _ => true⟩
  kernelRoot := 0

theorem kernelManager_apart (d : Nat) (t : PhysFrame) (h : KernelTable kernelManager d t) :
    t ∉ kernelManager.allocator.pool := by
  have hframe : ∀ t i, frameOf (entry kernelManager.memory t i) = 1 ∨
      frameOf (entry kernelManager.memory t i) = 0 := by
    intro t i
    rw [kernelManager]
    by_cases hhuge : (t, i) = (1, 0)
    · cases hhuge
      rw [entry_setEntry_self]
      decide
    rw [entry_setEntry_ne _ _ _ hhuge]
    by_cases htable : (t, i) = (0, 256)
    · cases htable
      rw [entry_setEntry_self]
      decide
    · rw [entry_setEntry_ne _ _ _ htable, entry_smallManager]
      decide
  obtain ⟨is, -, hreach⟩ := h
  cases hreach with
  | root => decide
  | @step _ t _ i _ _ hlook =>
    have h := hframe t i
    rw [lookup] at hlook
    generalize entry kernelManager.memory t i = e at h hlook
    split_ifs at hlook
    · cases hlook
    · cases hlook
      rcases h with h | h <;> rw [h] <;> decide

/-- Two spaces that share the pages of the kernel. -/
def forked : System :=
  runOps walkMapper true kernelManager [.create, .mapPage 0 5 .writable, .fork 0]

/-- The page of the kernel is where it was for the kernel, and still closed to user code in a space
where another page is mapped.  The fork of this space is as it was. -/
theorem mapping_isolated_fork :
    let s' := (Op.mapPage 0 7 .writable).apply walkMapper true forked
    forked.translation 0 0xffff800000000000 = some [0x1003, 0x83] ∧
    (∀ a, s'.translation 0 a = forked.translation 0 a) ∧
    ∃ space fork, forked.spaces = [space, fork] ∧
      (∀ a, s'.translation fork.rootFrame a = forked.translation fork.rootFrame a) ∧
      Supervisor (tablesOf s'.manager.memory) (UInt64.ofNat (frameStart space.rootFrame))
        0xffff800000000000 := by
  have hroots : forked.spaces.map AddressSpace.rootFrame = [2, 7] := by decide +kernel
  obtain ⟨space, spaces, hspaces, hroot, hrest⟩ := map_eq_cons_iff.1 hroots
  obtain ⟨fork, spaces, rfl, -, hnil⟩ := map_eq_cons_iff.1 hrest
  cases map_eq_nil_iff.1 hnil
  have hpath : forked.translation space.rootFrame 0xffff800000000000 = some [0x1003, 0x83] := by
    rw [hroot]
    decide +kernel
  have hkernel : forked.translation 0 0xffff800000000000 = some [0x1003, 0x83] := by
    decide +kernel
  obtain ⟨hsame, hothers, hspace⟩ := mapping_isolated walkMapper true (by decide)
    kernelManager_apart [.create, .mapPage 0 5 .writable, .fork 0] (.mapPage 0 7 .writable) rfl
  have hfirst : forked.spaces[0]? = some space := by rw [hspaces]; rfl
  have hsecond : forked.spaces[1]? = some fork := by rw [hspaces]; rfl
  obtain ⟨-, -, -, hpages⟩ := hspace space hfirst
  have hpage : containingAddress 0xffff800000000000 = some 34359738368 := by decide
  have hclosed := (hpages _ _ hpage (by decide)).2 _ hpath (by rintro leaf ⟨⟩; decide)
  exact ⟨hkernel, hsame, space, fork, hspaces, (hothers 1 fork (by decide) hsecond).2, hclosed⟩

end Krust.Mm
