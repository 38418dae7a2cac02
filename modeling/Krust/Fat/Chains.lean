import Krust.Fat.Clusters
import Krust.Lib.Chain
import Mathlib.Data.List.Perm.Subperm

/-!
# The chains of a volume

The entry of a cluster leads to the next cluster of its chain.  `collect_chain` finds the chain from
a cluster, and fails if the table leads round in a circle (`Volume.run_collectChain`).  A new
cluster is put behind the last one of a chain (`Volume.run_linkNewCluster`).
-/

set_option autoImplicit false

namespace Krust.Fat

open Lib Prog Block List Option FatFsInner

variable {a first x : Nat}

namespace Volume

variable (v : Volume) {s : FatState} {c : Nat}

/-! ## Following a chain -/

/-- The cluster after a cluster, if there is one. -/
def link (data : Nat → UInt8) (c : Nat) : Option Nat :=
  if v.entry data c < 2 ∨ v.isEoc (v.entry data c) ∨ v.totalClusters + 1 < v.entry data c then none
  else some (v.entry data c)

variable {data : Nat → UInt8} {l : List Nat}

theorem isCluster_of_link {c' : Nat} (h : v.link data c = some c') : v.IsCluster c' := by
  rw [link] at h
  split at h
  · cases h
  cases h
  rw [IsCluster]
  omega

theorem isCluster_of_mem (h : Chain (v.link data) c l) (hc : v.IsCluster c) :
    ∀ x ∈ l, v.IsCluster x := by
  induction h with
  | last hnone =>
    intro x hx
    exact mem_singleton.1 hx ▸ hc
  | step hsome hl ih =>
    intro x hx
    rcases mem_cons.1 hx with rfl | hx
    · exact hc
    · exact ih (v.isCluster_of_link hsome) x hx

theorem length_chain_le (h : Chain (v.link data) c l) (hc : v.IsCluster c) :
    l.length ≤ v.totalClusters := by
  have hsub : l ⊆ List.range' 2 v.totalClusters := by
    intro x hx
    have hx := v.isCluster_of_mem h hc x hx
    rw [IsCluster] at hx
    rw [mem_range'_1]
    omega
  have hle := (subperm_of_subset h.nodup hsub).length_le
  rwa [length_range'] at hle

/-- What `collect_chain` finds. -/
def collect (data : Nat → UInt8) : Nat → Nat → Option (List Nat)
  | 0, _ => none
  | remaining + 1, current =>
    if current < 2 ∨ v.totalClusters + 1 < current then some []
    else if v.entry data current < 2 ∨ v.isEoc (v.entry data current) then some [current]
    else (collect data remaining (v.entry data current)).map (current :: ·)

theorem run_collectLoop (hs : s.Reliable) (remaining current : Nat) :
    run (v.collectLoop (v.totalClusters + 1) remaining current) s =
      (some (match v.collect s.data remaining current with
        | none => .error .ioError
        | some chain => .ok chain), s) := by
  induction remaining generalizing current with
  | zero => rfl
  | succ remaining ih =>
    rw [collectLoop, collect]
    split
    · rfl
    have hc : v.IsCluster current := by
      rw [IsCluster]
      omega
    refine (run_bind_ok (v.tables.run_readFatEntry hs (v.entry_le hc)) _).trans ?_
    split
    · rfl
    cases hrest : v.collect s.data remaining (v.entry s.data current) with
    | none =>
      have hrun := ih (v.entry s.data current)
      rw [hrest] at hrun
      exact run_bind_error hrun _
    | some rest =>
      have hrun := ih (v.entry s.data current)
      rw [hrest] at hrun
      exact run_bind_ok hrun _

theorem collect_of_chain (h : Chain (v.link data) c l) :
    ∀ {remaining : Nat}, v.IsCluster c → l.length < remaining →
      v.collect data remaining c = some l := by
  induction h with
  | @last c hnone =>
    intro remaining hc hlen
    obtain ⟨n, rfl⟩ : ∃ n, remaining = n + 2 := ⟨remaining - 2, by simp at hlen; omega⟩
    rw [link] at hnone
    rw [IsCluster] at hc
    rw [collect, if_neg (by omega)]
    split
    · rfl
    rw [collect, if_pos]
    · rfl
    · split at hnone
      · tauto
      · cases hnone
  | @step c b l hsome hl ih =>
    intro remaining hc hlen
    obtain ⟨n, rfl⟩ : ∃ n, remaining = n + 1 := ⟨remaining - 1, by omega⟩
    have hrest := ih (v.isCluster_of_link hsome) (Nat.lt_of_succ_lt_succ hlen)
    rw [link] at hsome
    rw [IsCluster] at hc
    split at hsome
    · cases hsome
    cases hsome
    rw [collect, if_neg (by omega), if_neg (by tauto), hrest]
    rfl

theorem chain_of_collect :
    ∀ {remaining c : Nat} {l : List Nat}, v.IsCluster c → v.collect data remaining c = some l →
      Chain (v.link data) c l := by
  intro remaining
  induction remaining with
  | zero =>
    intro c l hc h
    cases h
  | succ n ih =>
    intro c l hc h
    rw [IsCluster] at hc
    rw [collect, if_neg (by omega)] at h
    split at h
    · cases h
      exact .last (if_pos (by tauto))
    obtain ⟨rest, hrest, rfl⟩ := map_eq_some_iff.1 h
    by_cases hrange : v.totalClusters + 1 < v.entry data c
    · -- The table leads out of the volume, which ends the chain.
      obtain ⟨m, rfl⟩ : ∃ m, n = m + 1 := by
        cases n with
        | zero => cases hrest
        | succ m => exact ⟨m, rfl⟩
      rw [collect, if_pos (.inr hrange)] at hrest
      cases hrest
      exact .last (if_pos (.inr (.inr hrange)))
    · have hlink : v.link data c = some (v.entry data c) := if_neg (by tauto)
      exact .step hlink (ih (v.isCluster_of_link hlink) hrest)

/-- The clusters of a file or a directory with this first cluster.  If it is not a cluster of the
volume, then there are none. -/
def ChainFrom (data : Nat → UInt8) (first : Nat) (l : List Nat) : Prop :=
  (v.IsCluster first ∧ Chain (v.link data) first l) ∨ (¬ v.IsCluster first ∧ l = [])

/-- **`collect_chain` finds the chain**, or fails if there is none. -/
theorem run_collectChain (hs : s.Reliable) (first : Nat) :
    (∃ l, v.ChainFrom s.data first l ∧ run (v.collectChain first) s = (some (.ok l), s)) ∨
      ((∀ l, ¬ v.ChainFrom s.data first l) ∧
        run (v.collectChain first) s = (some (.error .ioError), s)) := by
  have hmax := v.regular.maxCluster_eq
  have hrun := v.run_collectLoop hs (min (v.totalClusters + 2) (2 ^ 32 - 1)) first
  have hlt := v.regular.totalClusters_lt
  rw [collectChain]
  by_cases hc : v.IsCluster first
  · rw [if_neg (not_lt.2 hc.1), hmax]
    cases hcollect : v.collect s.data (min (v.totalClusters + 2) (2 ^ 32 - 1)) first with
    | some l =>
      rw [hcollect] at hrun
      exact .inl ⟨l, .inl ⟨hc, v.chain_of_collect hc hcollect⟩, hrun⟩
    | none =>
      rw [hcollect] at hrun
      refine .inr ⟨fun l hl => ?_, hrun⟩
      rcases hl with ⟨-, hl⟩ | ⟨hnot, -⟩
      · have hlen := v.length_chain_le hl hc
        rw [v.collect_of_chain hl hc (by omega)] at hcollect
        cases hcollect
      · exact hnot hc
  · refine .inl ⟨[], .inr ⟨hc, rfl⟩, ?_⟩
    split
    · rfl
    obtain ⟨n, hn⟩ : ∃ n, min (v.totalClusters + 2) (2 ^ 32 - 1) = n + 1 :=
      ⟨min (v.totalClusters + 2) (2 ^ 32 - 1) - 1, by omega⟩
    rw [hn, collect, if_pos (by rw [IsCluster] at hc; omega)] at hrun
    rw [hmax, hn]
    exact hrun

theorem ChainFrom.unique {l' : List Nat} (h : v.ChainFrom data first l)
    (h' : v.ChainFrom data first l') : l = l' := by
  rcases h with ⟨hc, h⟩ | ⟨hc, rfl⟩
  · rcases h' with ⟨-, h'⟩ | ⟨hc', -⟩
    · exact h.unique h'
    · exact absurd hc hc'
  rcases h' with ⟨hc', -⟩ | ⟨-, rfl⟩
  · exact absurd hc' hc
  · rfl

theorem run_collectChain_of_chainFrom (hs : s.Reliable) (h : v.ChainFrom s.data first l) :
    run (v.collectChain first) s = (some (.ok l), s) := by
  rcases v.run_collectChain hs first with ⟨l', hl', hrun⟩ | ⟨hnone, -⟩
  · rw [ChainFrom.unique v h hl']
    exact hrun
  · exact absurd h (hnone l)

/-! ## Making a chain longer -/

/-- There are not so many clusters that the number of one looks like a mark. -/
def Small : Prop := v.totalClusters + 1 < 0x0FFFFFF8

/-- So a link to a cluster is written and read as such. -/
theorem link_value (hsmall : v.Small) (hc : v.IsCluster c) :
    c % v.fatType.limit = c ∧ v.isEoc c = false := by
  have htype := v.regular.fatType
  rw [Small] at hsmall
  rw [IsCluster] at hc
  rw [FatType.ofClusters] at htype
  rw [isEoc]
  split at htype
  · rw [htype]
    exact ⟨Nat.mod_eq_of_lt (by rw [FatType.limit]; omega), decide_eq_false (by omega)⟩
  split at htype
  · rw [htype]
    exact ⟨Nat.mod_eq_of_lt (by rw [FatType.limit]; omega), decide_eq_false (by omega)⟩
  have hmod : c % 2 ^ 28 = c := Nat.mod_eq_of_lt (by omega)
  rw [htype]
  refine ⟨hmod, decide_eq_false ?_⟩
  have hmask : c &&& 0x0FFFFFFF = c := (Nat.and_two_pow_sub_one_eq_mod c 28).trans hmod
  omega

theorem isEoc_eocMarker : v.isEoc v.eocMarker = true := by
  rw [isEoc, eocMarker]
  cases v.fatType <;> decide

theorem eocMarker_ne_zero : v.eocMarker ≠ 0 := by
  rw [eocMarker]
  cases v.fatType <;> decide

/-- The state after a cluster has been allocated and put behind another one. -/
def appended (s : FatState) (last c : Nat) : FatState :=
  (v.allocated s c).withData
    (v.setEntry c v.eocMarker (v.setEntry last c (v.allocated s c).data))

theorem Ready.appended {v : Volume} (h : v.Ready s) (last : Nat) (hc : v.IsCluster c) :
    v.Ready (v.appended s last c) := (h.allocated hc).withData _

theorem isCluster_of_freeCluster (hhint : s.nextFreeHint ≤ v.totalClusters + 2)
    (h : v.freeCluster s = some c) : v.IsCluster c ∧ v.entry s.data c = 0 := by
  refine ⟨(v.mem_candidates hhint).1 (mem_of_find?_eq_some h), ?_⟩
  exact of_decide_eq_true (find?_some (p := fun c => decide (v.entry s.data c = 0)) h)

variable {last : Nat}

theorem run_linkNewCluster (hs : s.Reliable) (hhint : s.nextFreeHint ≤ v.totalClusters + 2)
    (hl : v.IsCluster last) :
    run (v.linkNewCluster last) s =
      match v.freeCluster s with
      | none => (some (.error .ioError), s)
      | some c => (some (.ok c), v.appended s last c) := by
  have hallocate := v.run_allocateCluster hs hhint
  rcases hfree : v.freeCluster s with _ | c
  · rw [hfree] at hallocate
    exact run_bind_error hallocate _
  rw [hfree] at hallocate
  obtain ⟨hc, -⟩ := v.isCluster_of_freeCluster hhint hfree
  refine (run_bind_ok hallocate _).trans ?_
  refine (run_bind_ok (v.tables.run_writeFatEntry ?_ (v.entry_le hl) c) _).trans ?_
  · exact hs
  refine (run_bind_ok (v.tables.run_writeFatEntry ?_ (v.entry_le hc) _) _).trans ?_
  · exact hs
  rfl

theorem entry_appended (hsmall : v.Small) (s : FatState) (hc : v.IsCluster c) (hx : v.IsCluster x) :
    v.entry (v.appended s last c).data x =
      if x = c then v.eocMarker else if x = last then c else v.entry s.data x := by
  rw [appended, FatState.data_withData, v.entry_setEntry _ _ _ hx,
    Nat.mod_eq_of_lt v.eocMarker_lt]
  split
  · rfl
  rename_i hne
  rw [v.entry_setEntry _ _ _ hx, (v.link_value hsmall hc).1, v.entry_allocated s c hx,
    if_neg hne]

theorem data_appended (s : FatState) (hl : v.IsCluster last) (hc : v.IsCluster c)
    (ha : v.fatEnd ≤ a) :
    (v.appended s last c).data a = if v.InCluster c a then 0 else s.data a := by
  rw [appended, FatState.data_withData, v.setEntry_of_le hc _ _ ha, v.setEntry_of_le hl _ _ ha,
    v.data_allocated s hc ha]

/-! ## What happens to the chains -/

def Used (data : Nat → UInt8) (x : Nat) : Prop := v.IsCluster x ∧ v.entry data x ≠ 0

theorem link_congr {data' : Nat → UInt8} (h : v.entry data' x = v.entry data x) :
    v.link data' x = v.link data x := by
  rw [link, link, h]

theorem link_of_eocMarker (h : v.entry data x = v.eocMarker) : v.link data x = none := by
  rw [link, h, if_pos (.inr (.inl v.isEoc_eocMarker))]

theorem Used.ne_free {v : Volume} (hx : v.Used data x) (hfree : v.entry data c = 0) : x ≠ c := by
  rintro rfl
  exact hx.2 hfree

theorem link_appended_of_used (hsmall : v.Small) (hc : v.IsCluster c) (hfree : v.entry s.data c = 0)
    (hx : v.Used s.data x) (hne : x ≠ last) :
    v.link (v.appended s last c).data x = v.link s.data x := by
  refine v.link_congr ?_
  rw [v.entry_appended hsmall s hc hx.1, if_neg (hx.ne_free hfree), if_neg hne]

section Append

variable (hsmall : v.Small) {last : Nat} (hl : v.Used s.data last) (hc : v.IsCluster c)
  (hfree : v.entry s.data c = 0)
include hsmall hl hc hfree

theorem used_appended : v.Used (v.appended s last c).data x ↔ x = c ∨ v.Used s.data x := by
  constructor
  · rintro ⟨hx, hne⟩
    rw [v.entry_appended hsmall s hc hx] at hne
    split at hne
    · rename_i heq
      exact .inl heq
    split at hne
    · rename_i heq
      exact .inr (heq ▸ hl)
    · exact .inr ⟨hx, hne⟩
  · rintro (rfl | hx)
    · refine ⟨hc, ?_⟩
      rw [v.entry_appended hsmall s hc hc, if_pos rfl]
      exact v.eocMarker_ne_zero
    · refine ⟨hx.1, ?_⟩
      rw [v.entry_appended hsmall s hc hx.1, if_neg (hx.ne_free hfree)]
      split
      · exact ne_of_gt (lt_of_lt_of_le (by decide) hc.1)
      · exact hx.2

theorem link_appended_last : v.link (v.appended s last c).data last = some c := by
  rw [link, v.entry_appended hsmall s hc hl.1, if_neg (hl.ne_free hfree), if_pos rfl, if_neg]
  rw [(v.link_value hsmall hc).2]
  rintro (h | h | h)
  · exact absurd hc.1 (not_le.2 h)
  · cases h
  · exact absurd hc.2 (not_le.2 h)

/-- **A cluster is put at the end of a chain.** -/
theorem chain_appended {l : List Nat} (hchain : Chain (v.link s.data) a l)
    (hused : ∀ x ∈ l, v.Used s.data x) (hlast : l.getLast? = some last) :
    Chain (v.link (v.appended s last c).data) a (l ++ [c]) := by
  refine hchain.concat (fun x hx => ?_) (v.link_of_eocMarker ?_) fun x hx hne =>
    v.link_appended_of_used hsmall hc hfree (hused x hx) ?_
  · rw [hlast, mem_some_iff] at hx
    exact hx ▸ v.link_appended_last hsmall hl hc hfree
  · rw [v.entry_appended hsmall s hc hc, if_pos rfl]
  · rintro rfl
    exact hne hlast

end Append

end Volume

theorem small_smallVolume : smallVolume.Small := by
  rw [Volume.Small]
  decide

/-! ## Every table -/

namespace Volume

variable (v : Volume) {s : FatState} {c : Nat} {data : Nat → UInt8} {l : List Nat}

/-- Where the entries lead from a cluster, in `n` steps. -/
def follow (data : Nat → UInt8) (start n : Nat) : Nat := (v.entry data)^[n] start

/-- That is a cluster of the volume, and no number that marks the end of a chain. -/
def Passes (data : Nat → UInt8) (start n : Nat) : Prop :=
  v.IsCluster (v.follow data start n) ∧ (0 < n → v.isEoc (v.follow data start n) = false)

theorem follow_link (h : v.link data c = some first) :
    v.follow data first = v.follow data c ∘ Nat.succ := by
  simp [link] at h
  rw [← h.2]
  rfl

theorem passes_one : v.Passes data c 1 ↔ v.link data c ≠ none := by
  simp [Passes, follow, link, IsCluster]
  tauto

theorem passes_succ (h : v.link data c = some first) (n : Nat) :
    v.Passes data c (n + 1) ↔ v.Passes data first n := by
  have hone : v.Passes data c 1 := v.passes_one.2 (by simp [h])
  rw [Passes, Passes, v.follow_link h]
  refine and_congr_right fun _ => ?_
  rcases n with _ | n
  · exact iff_of_true hone.2 (absurd · (lt_irrefl 0))
  · simp

/-- A chain is what the entries lead to, up to the first that is no link. -/
theorem passes_of_chain (h : Chain (v.link data) c l) (hc : v.IsCluster c) :
    l = (range l.length).map (v.follow data c) ∧ (∀ n < l.length, v.Passes data c n) ∧
      ¬ v.Passes data c l.length := by
  induction h with
  | last h => exact ⟨rfl, by simpa using ⟨hc, (absurd · (lt_irrefl 0))⟩, by simp [passes_one, h]⟩
  | @step a b l h hl ih =>
    obtain ⟨heq, hpass, hend⟩ := ih (v.isCluster_of_link h)
    refine ⟨?_, fun n hn => ?_, (v.passes_succ h _).not.2 hend⟩
    · rw [length_cons, range_succ_eq_map, map_cons, List.map_map]
      exact congrArg (a :: ·) (heq.trans (by rw [v.follow_link h]))
    · rcases n with _ | n
      · exact ⟨hc, (absurd · (lt_irrefl 0))⟩
      · exact (v.passes_succ h n).2 (hpass n (by simpa using hn))

/-- Where there is no chain, the entries never stop leading to clusters. -/
theorem passes_of_no_chain (h : ∀ l, ¬ Chain (v.link data) c l) (hc : v.IsCluster c) (n : Nat) :
    v.Passes data c n := by
  induction n generalizing c with
  | zero => exact ⟨hc, (absurd · (lt_irrefl 0))⟩
  | succ n ih =>
    cases hlink : v.link data c with
    | none => exact absurd (.last hlink) (h _)
    | some b =>
      exact (v.passes_succ hlink n).2
        (ih (fun l hl => h _ (.step hlink hl)) (v.isCluster_of_link hlink))

/-- **`collect_chain` returns for every table and every cluster.**  It fails where the entries never
stop leading to clusters, and otherwise it returns those they lead to, each of them once. -/
theorem collectChain_exact (hs : s.Reliable) (start : Nat) :
    ((∀ n, v.Passes s.data start n) ∧
        run (v.collectChain start) s = (some (.error .ioError), s)) ∨
      ∃ k, (∀ n < k, v.Passes s.data start n) ∧ ¬ v.Passes s.data start k ∧
        ((range k).map (v.follow s.data start)).Nodup ∧
        run (v.collectChain start) s = (some (.ok ((range k).map (v.follow s.data start))), s) := by
  rcases v.run_collectChain hs start with ⟨l, ⟨hc, hl⟩ | ⟨hc, rfl⟩, hrun⟩ | ⟨hnone, hrun⟩
  · obtain ⟨heq, hpass, hend⟩ := v.passes_of_chain hl hc
    rw [heq] at hrun
    exact .inr ⟨_, hpass, hend, heq ▸ hl.nodup, hrun⟩
  · exact .inr ⟨0, by simp, fun h => hc h.1, by simp, hrun⟩
  · have hc : v.IsCluster start := by
      by_contra hc
      exact hnone [] (.inr ⟨hc, rfl⟩)
    exact .inl ⟨v.passes_of_no_chain (fun l hl => hnone l (.inl ⟨hc, hl⟩)) hc, hrun⟩

end Volume

/-- A table in which cluster 2 is followed by 3 and 5. -/
def linkedState : FatState := smallState [0xF8, 0xFF, 0xFF, 3, 0x50, 0, 0, 0xF0, 0xFF] [] []

theorem collectChain_exact_small :
    run (smallVolume.collectChain 2) linkedState = (some (.ok [2, 3, 5]), linkedState) := by
  have hpass : ∀ n < 3, smallVolume.Passes linkedState.data 2 n := by
    simp only [Volume.Passes, Volume.IsCluster]
    decide +kernel
  have hend : ¬ smallVolume.Passes linkedState.data 2 3 := by
    simp only [Volume.Passes, Volume.IsCluster]
    decide +kernel
  rcases smallVolume.collectChain_exact (s := linkedState) rfl 2 with ⟨hall, -⟩ | ⟨k, hk, hk', h⟩
  · exact absurd (hall 3) hend
  obtain rfl : k = 3 := le_antisymm (not_lt.1 fun hlt => hend (hk 3 hlt))
    (not_lt.1 fun hlt => hk' (hpass k hlt))
  rw [h.2, show (range 3).map (smallVolume.follow linkedState.data 2) = [2, 3, 5] by decide +kernel]

/-! ## A cluster whose number is a mark -/

/-- A volume with so many clusters that the numbers of the last two of them are marks. -/
def hugeVolume : Volume where
  device := ⟨512, 0x101FFFF9, true⟩
  bpb := {
    bytesPerSector := 512
    sectorsPerCluster := 1
    reservedSectors := 1
    numFats := 1
    rootEntryCount := 0
    totalSectors := 0x101FFFF9
    fatSize := 0x200000
    rootCluster := 2 }
  fatType := .fat32
  rootDirSectors := 0
  rootDirSector := 0x200001
  firstFatSector := 1
  firstDataSector := 0x200001
  totalClusters := 0x0FFFFFF8
  sectorSize := 512
  regular := by
    refine ⟨rfl, rfl, ?_, ?_, ?_, ?_, ?_, rfl, rfl, rfl, rfl, ?_, rfl, ?_, rfl, fun c _ hc => ?_⟩
    case refine_8 =>
      show c * 4 + 4 ≤ 0x200000 * 512
      change c ≤ 0x0FFFFFF9 at hc
      omega
    all_goals decide

/-- In its table the clusters `2` and `0x0FFFFFF8` are linked to each other. -/
def hugeState : FatState where
  disk := ⟨blit (blit (fun _ => 0) 520 [0xF8, 0xFF, 0xFF, 0x0F]) 0x400001E0 [2], [], 0⟩
  nextFreeHint := 2
  taken := []
  entryFailures := 0

/-- The entries lead round in a circle of clusters, and `collect_chain` returns a chain of one. -/
theorem mark_in_circle :
    (∀ n, hugeVolume.IsCluster (hugeVolume.follow hugeState.data 2 n)) ∧
      run (hugeVolume.collectChain 2) hugeState = (some (.ok [2]), hugeState) := by
  have htwo : hugeVolume.entry hugeState.data 2 = 0x0FFFFFF8 := by decide
  have hmark : hugeVolume.entry hugeState.data 0x0FFFFFF8 = 2 := by decide
  refine ⟨fun n => ?_, ?_⟩
  · have h : hugeVolume.follow hugeState.data 2 n = 2 ∨
        hugeVolume.follow hugeState.data 2 n = 0x0FFFFFF8 := by
      induction n with
      | zero => exact .inl rfl
      | succ n ih =>
        rw [Volume.follow, Function.iterate_succ_apply']
        rcases ih with ih | ih <;> rw [Volume.follow] at ih <;> simp [ih, htwo, hmark]
    rcases h with h | h <;> rw [h] <;> exact ⟨by decide, by decide⟩
  · have hend : hugeVolume.link hugeState.data 2 = none := by
      rw [Volume.link, htwo]
      decide
    exact hugeVolume.run_collectChain_of_chainFrom rfl (.inl ⟨⟨by decide, by decide⟩, .last hend⟩)

end Krust.Fat
