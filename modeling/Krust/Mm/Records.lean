import Krust.Mm.System

/-!
# Records and tables

An address space keeps a list of the pages it has mapped, with their frames and flags, and it has
the tables of the processor.  Both are updated when a page is mapped: a record is added at the end
of the list, and the entry of the page is set.  So the tables always follow the last record of a
page (`Current`).  The routines that look for a page, however, take its first record.

The first record is the last one where a page has only one (`AddressSpace.Distinct`).  This stays so
as long as no page is mapped that has a record already (`Op.Fresh`), which nothing in the methods
sees to: a page that is mapped again keeps its old record, with the frame that the tables no longer
lead to.
-/

set_option autoImplicit false

namespace Krust.Mm

open Arch Lib Prog List Option AddressSpace

/-! ## One record for a page -/

/-- **There is at most one record of a page.** -/
def AddressSpace.Distinct (space : AddressSpace) : Prop := (space.mappings.map (·.page)).Nodup

instance (space : AddressSpace) : Decidable space.Distinct :=
  inferInstanceAs (Decidable (List.Nodup _))

variable {space : AddressSpace} {page : Page} {mapping : Mapping}

theorem AddressSpace.Distinct.last_eq (h : space.Distinct)
    (hfind : space.find page = some mapping) :
    space.last page = some mapping := by
  have hpage : mapping.page = page := by simpa using find?_some hfind
  have hmem : mapping ∈ space.mappings := mem_of_find?_eq_some hfind
  have hsome : (space.last page).isSome := by
    rw [last, find?_isSome]
    exact ⟨mapping, mem_reverse.2 hmem, decide_eq_true hpage⟩
  obtain ⟨mapping', hlast⟩ := isSome_iff_exists.1 hsome
  have hpage' : mapping'.page = page := by simpa using find?_some hlast
  have hmem' := mem_reverse.1 (mem_of_find?_eq_some hlast)
  rw [hlast, inj_on_of_nodup_map h hmem' hmem (hpage'.trans hpage.symm)]

variable {m : Memory} {e : UInt64} {w : Work}

theorem Adds.distinct {pages : Page → Prop} {keep : List PhysFrame} {w' : Work}
    (h : Adds pages keep w w') (hw : w.2.Distinct)
    (hfresh : ∀ mapping ∈ w.2.mappings, ¬ pages mapping.page) : w'.2.Distinct := by
  obtain ⟨new, hnew, hnodup, hpages⟩ := h.records
  rw [AddressSpace.Distinct, hnew, map_append, nodup_append]
  refine ⟨hw, hnodup, fun page hpage page' hpage' heq => ?_⟩
  obtain ⟨mapping, hmem, rfl⟩ := List.mem_map.1 hpage
  obtain ⟨mapping', hmem', rfl⟩ := List.mem_map.1 hpage'
  exact hfresh mapping hmem (heq ▸ hpages mapping' hmem')

/-! ## What the tables map a page to -/

/-- The table that these indices lead to. -/
def tableAt (m : Memory) : Nat → PhysFrame → List (Fin 512) → Option PhysFrame
  | _, t, [] => some t
  | d, t, i :: is =>
    match lookup m d t i with
    | some (_, some u) => tableAt m (d + 1) u is
    | _ => none

def pageEntry (m : Memory) (root : PhysFrame) (page : Page) : Option UInt64 :=
  (tableAt m 0 root [page.p4Index, page.p3Index, page.p2Index]).map (entry m · page.p1Index)

theorem tableAt_concat {root t u : PhysFrame} {i : Fin 512} :
    ∀ {is : List (Fin 512)} {d : Nat}, tableAt m d root is = some t →
    lookup m (d + is.length) t i = some (e, some u) → tableAt m d root (is ++ [i]) = some u := by
  intro is
  induction is generalizing root with
  | nil =>
    intro d h hlook
    cases h
    rw [length_nil, add_zero] at hlook
    simp only [nil_append, tableAt, hlook]
  | cons j is ih =>
    intro d h hlook
    rw [length_cons, add_comm is.length, ← add_assoc] at hlook
    rw [tableAt] at h
    rw [cons_append, tableAt]
    rcases hj : lookup m d root j with _ | ⟨_, _ | v⟩ <;> rw [hj] at h
    · cases h
    · cases h
    · exact ih h hlook

theorem tableAt_of_reach {root t : PhysFrame} {is : List (Fin 512)}
    (h : Reach (lookup m) root is t) : tableAt m 0 root is.reverse = some t := by
  induction h with
  | root => rfl
  | step _ hlook ih =>
    rw [reverse_cons]
    exact tableAt_concat ih (by rwa [length_reverse, zero_add])

theorem HasEntry.pageEntry_eq (h : HasEntry w page e) :
    pageEntry w.1.memory w.2.rootFrame page = some e := by
  obtain ⟨t, hreach, -, he⟩ := h
  have htable := tableAt_of_reach hreach
  rw [pageEntry, show [page.p4Index, page.p3Index, page.p2Index] =
    [page.p2Index, page.p3Index, page.p4Index].reverse from rfl, htable, map_some, he]

/-! ## Runs -/

/-- The tables of every space follow its records, of which there is one for a page. -/
def Recorded (s : System) : Prop :=
  ∀ space ∈ s.spaces, Current (s.manager, space) ∧ space.Distinct

/-- **No page is mapped that has a record already.** -/
def Op.Fresh (checks : Bool) (s : System) (op : Op) : Prop :=
  ∀ k pages, op.mapped checks = some (k, pages) → ∀ space, s.spaces[k]? = some space →
    ∀ mapping ∈ space.mappings, ¬ pages mapping.page

variable {common : Nat → PhysFrame → Prop} {s : System} {k : Nat}

/-- In a space that is not worked on the tables stay. -/
theorem Good.current (hs : Good common s) {fs : List PhysFrame} {mm : Manager}
    (hmemory : Changed fs s.manager.memory mm.memory) (hfs : ∀ f ∈ fs, f ∈ s.frames)
    (hspace : space ∈ s.spaces) (hapart : ∀ t ∈ space.tables, t ∉ fs)
    (h : Current (s.manager, space)) : Current (mm, space) := by
  obtain ⟨k, hk⟩ := getElem?_of_mem hspace
  have hnoTable : ∀ f ∈ fs, f ∉ space.tables ∧ ∀ d, ¬ common d f := fun f hf =>
    ⟨fun ht => hapart f ht hf, fun d hd => hs.apart d f hd (hfs f hf)⟩
  exact fun page mapping hlast => (h page mapping hlast).ofChanged (hs.wf hk) hmemory hnoTable

theorem Recorded.method (h : Recorded s) (hs : Good common s) {α : Type}
    {p : Prog Work MmError α} (hk : s.spaces[k]? = some space)
    (hchanged : Changed (frames (s.manager, space)) s.manager.memory
      (run p (s.manager, space)).2.1.memory)
    (hself : Current (run p (s.manager, space)).2 ∧ (run p (s.manager, space)).2.2.Distinct) :
    Recorded (s.method k p) := by
  intro other hother
  rw [System.method, hk] at hother ⊢
  rcases mem_cons.1 ((perm_set hk _).mem_iff.1 hother) with rfl | hmem
  · exact hself
  have hspace := (eraseIdx_sublist _ _).subset hmem
  exact ⟨hs.current hchanged (fun f hf => mem_frames_of_method hk hf) hspace
    (fun t ht => hs.apart_of_mem hk hmem ht) (h other hspace).1, (h other hspace).2⟩

theorem Recorded.add (h : Recorded s) (hs : Good common s) {p : Prog Manager MmError AddressSpace}
    (hp : Ends p (Created common s.manager) s.manager)
    (hnew : ∀ space mm, run p s.manager = (some (.ok space), mm) →
      Current (mm, space) ∧ space.Distinct) : Recorded (s.add (run p s.manager)) := by
  have hold : ∀ mm, Changed s.manager.allocator.pool s.manager.memory mm.memory →
      ∀ space ∈ s.spaces, Current (mm, space) ∧ space.Distinct := fun mm hmemory space hspace =>
    ⟨hs.current hmemory (fun f hf => mem_append_left _ hf) hspace
      (hs.apart_pool hspace) (h space hspace).1, (h space hspace).2⟩
  rw [Ends] at hp
  rcases hrun : run p s.manager with ⟨_ | e | space, mm⟩ <;> rw [hrun] at hp
  · exact h
  · exact hold mm hp.2.memory
  intro other hother
  rcases mem_append.1 hother with hmem | hmem
  · exact hold mm hp.2.memory other hmem
  · rw [mem_singleton.1 hmem]
    exact hnew space mm hrun

/-! ## New spaces -/

/-- Without records there is nothing to follow. -/
theorem current_of_nil (h : w.2.mappings = []) : Current w ∧ w.2.Distinct := by
  refine ⟨fun page mapping hlast => ?_, ?_⟩
  · rw [last, h] at hlast
    cases hlast
  · rw [AddressSpace.Distinct, h]
    exact nodup_nil

variable {mm : Manager}

theorem ends_kernel_mappings :
    Ends kernel (fun r _ => ∀ space, r = some (.ok space) → space.mappings = []) mm := by
  refine ends_allocate nofun fun root a _ => ?_
  intro space h
  cases h
  rfl

/-- **A fork has the records of the space that it is made from**, one for a page. -/
theorem recorded_cloneForFork (mapper : Mapper) (hmm : WfManager common mm)
    (hspace : space.Distinct) :
    Ends (cloneForFork mapper space) (fun r mm' => ∀ cloned, r = some (.ok cloned) →
      Current (mm', cloned) ∧ cloned.Distinct) mm := by
  have hcreated := ends_kernel hmm
  have hmappings : Ends kernel _ mm := ends_kernel_mappings
  rw [cloneForFork, bind_eq, ends_bind, Ends]
  rw [Ends] at hcreated hmappings
  rcases hrun : run kernel mm with ⟨_ | e | cloned, mm'⟩ <;> rw [hrun] at hcreated hmappings
  · rintro _ ⟨⟩
  · rintro _ ⟨⟩
  have hempty := hmappings cloned rfl
  have hnew := current_of_nil (w := (mm', cloned)) hempty
  rw [andThen_ok, bind_eq, ends_bind, Ends, run_withLocal]
  have hadds := (ends_copyMappings mapper hcreated.1).2.2 hspace
  rcases hrun : run (copyMappings mapper space.mappings) (mm', cloned) with ⟨_ | e | _, w⟩ <;>
    rw [hrun] at hadds
  · rintro _ ⟨⟩
  · rintro _ ⟨⟩
  rintro _ h
  cases h
  refine ⟨hadds.current hnew.1, hadds.distinct hnew.2 fun mapping hmem => ?_⟩
  rw [hempty] at hmem
  cases hmem

/-! ## The invariant -/

section Runs

variable (mapper : Mapper) (checks : Bool)

/-- **Every operation that maps no page twice keeps the records and the tables together.** -/
theorem Recorded.apply (h : Recorded s) (hs : Good common s) (op : Op) (hop : op.Fresh checks s) :
    Recorded (op.apply mapper checks s) := by
  cases hmapped : op.mapped checks with
  | some target =>
    obtain ⟨k, pages⟩ := target
    obtain ⟨α, p, happly, hadds⟩ := Op.mapped_eq common s mapper hmapped
    rw [happly]
    rcases hk : s.spaces[k]? with _ | space
    · rw [System.method, hk]
      exact h
    obtain ⟨hcurrent, hdistinct⟩ := h space (mem_of_getElem? hk)
    obtain ⟨-, hadds⟩ := hadds _ (hs.wf hk)
    exact h.method hs hk (hadds.memory.mono fun f hf => (mem_filter.1 hf).1)
      ⟨hadds.current hcurrent, hadds.distinct hdistinct (hop k pages hmapped space hk)⟩
  | none =>
    cases op with
    | mapPage | mapSegment | mapZeroedRegion => cases hmapped
    | create =>
      refine h.add hs (ends_kernel hs.wfManager) fun space mm hrun => current_of_nil ?_
      have hmappings : Ends kernel _ s.manager := ends_kernel_mappings
      rw [Ends, hrun] at hmappings
      exact hmappings space rfl
    | fork k =>
      rw [Op.apply]
      rcases hk : s.spaces[k]? with _ | space
      · exact h
      refine h.add hs (ends_cloneForFork mapper hs.wfManager space) fun cloned mm hrun => ?_
      have hclone := recorded_cloneForFork mapper hs.wfManager (h space (mem_of_getElem? hk)).2
      rw [Ends, hrun] at hclone
      exact hclone cloned rfl
    | clear k =>
      rw [Op.apply]
      rcases hk : s.spaces[k]? with _ | space
      · rw [System.method, hk]
        exact h
      obtain ⟨-, heffect, hempty⟩ := ends_clear (hs.wf hk)
      exact h.method hs hk (heffect.memory.mono fun f hf => (mem_filter.1 hf).1)
        (current_of_nil hempty)
    | drop k =>
      rw [Op.apply]
      cases hk : s.spaces[k]? with
      | none => exact h
      | some space =>
        simp only [run_dropSpace]
        exact fun other hother => h other ((eraseIdx_sublist _ _).subset hother)

variable (hpool : mm.allocator.pool.Nodup)
  (hkernel : ∀ d t, KernelTable mm d t → t ∉ mm.allocator.pool)

include hpool hkernel

section Runs

variable (ops : List Op)
  (hops : ∀ ops' op, ops' ++ [op] <+: ops → op.Fresh checks (runOps mapper checks mm ops'))
include hops

theorem recorded_runOps :
    Recorded (runOps mapper checks mm ops) := by
  refine (runFrom_induction_of (P := fun s => Good (KernelTable mm) s ∧ Recorded s)
    ⟨(good_runOps mapper checks hpool hkernel []).1, nofun⟩ (fun s op h hop => ?_) ops
    hops).2
  exact ⟨(h.1.apply mapper checks op).1, h.2.apply mapper checks h.1 op hop⟩

/-- What is found for a page is what the tables map it to. -/
theorem pageEntry_of_find :
    let s := runOps mapper checks mm ops
    ∀ space ∈ s.spaces, space.Distinct ∧ ∀ page mapping, space.find page = some mapping →
      pageEntry s.manager.memory space.rootFrame page =
        some (makeEntry mapping.frame mapping.flags.bits) := by
  intro s space hspace
  obtain ⟨hcurrent, hdistinct⟩ := recorded_runOps mapper checks hpool hkernel ops hops space hspace
  exact ⟨hdistinct, fun page mapping hfind =>
    (hcurrent page mapping (hdistinct.last_eq hfind)).pageEntry_eq⟩

end Runs

end Runs

end Krust.Mm
