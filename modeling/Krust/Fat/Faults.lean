import Krust.Block.Faults
import Krust.Fat.Clusters
import Krust.Fat.Directory

/-!
# A device that fails

Every failed access is reported by the functions that read and write bytes, and passed on by those
that use them; but an entry of the table that cannot be read is taken for 0, which is the mark of a
free cluster, and one that cannot be written is left as it is without a word.

So the failures that are reported are those outside of the table.  A call during which no access to
an entry fails reports what has failed, and takes only free clusters; and a call that returns
although such an access has failed does not report it (`failures_reported`).
-/

set_option autoImplicit false

namespace Krust.Fat

open Lib Prog Block List Option FatFsInner

/-! ## Mounted volumes -/

namespace FatFsInner

variable (v : FatFsInner)

/-- A volume as it comes out of `mount`. -/
def Mounted : Prop := ∃ device d root, (run (mount device) d).1 = some (.ok ⟨v, root⟩)

/-- What `mount` makes sure of. -/
structure Checked : Prop where
  sectorSize : v.sectorSize = v.device.sectorSize
  large : 512 ≤ v.sectorSize
  capacity : v.device.capacity ≤ USIZE_MAX
  numFats : 0 < v.bpb.numFats.toNat
  firstFatSector : v.firstFatSector < 2 ^ 32

end FatFsInner

variable {bpb : BiosParameterBlock} {device : BlockDevice} {fs : FatFs} {α : Type}

theorem checked_ofSectors {n n' n'' : Nat} (hv : bpb.Valid device)
    (hlarge : 512 ≤ device.sectorSize) (h : FatFs.ofSectors device bpb n n' n'' = .ok fs) :
    fs.inner.Checked := by
  rw [FatFs.ofSectors] at h
  split at h
  · cases h
  dsimp only at h
  cases hroot : rootState bpb
      (FatType.ofClusters ((bpb.totalSectors.toNat - n'') / bpb.sectorsPerCluster.toNat)) with
  | error e =>
    rw [hroot] at h
    cases h
  | ok root =>
    rw [hroot] at h
    cases h
    have hreserved := bpb.reservedSectors.toNat_lt
    exact ⟨rfl, hlarge, hv.capacity, hv.numFats, by dsimp only; omega⟩

theorem checked_of_layOut (hv : bpb.Valid device) (hlarge : 512 ≤ device.sectorSize)
    (h : layOut device bpb = some (.ok fs)) : fs.inner.Checked := by
  rw [layOut] at h
  simp only [bind_eq_bind, bind_eq_some_iff] at h
  obtain ⟨_, _, _, _, _, _, _, _, _, _, h⟩ := h
  exact checked_ofSectors hv hlarge (some.inj h)

theorem FatFsInner.Mounted.checked {v : FatFsInner} (h : v.Mounted) : v.Checked := by
  obtain ⟨device, d, root, h⟩ := h
  have hends : Ends (mount device)
      (fun r _ => ∀ fs, r = some (.ok fs) → fs.inner.Checked) d := by
    rw [mount, bind_eq, ends_failIf]
    split_ifs with hsmall
    · rintro _ ⟨⟩
    rw [decide_eq_true_eq, not_lt] at hsmall
    rw [bind_eq, ends_bind]
    refine (Ends.mono fun r s _ => ?_) (show Ends _ (fun _ _ => True) d from trivial)
    rcases r with _ | _ | bootSector
    · rintro _ ⟨⟩
    · rintro _ ⟨⟩
    rw [andThen_ok, mountBoot, bind_eq, ends_ofExcept]
    cases parseBpb (bootSector.take 512) with
    | error e => rintro _ ⟨⟩
    | ok bpb =>
      dsimp only
      cases hvalid : validateBpb bpb device.sectorCount device.sectorSize with
      | error e => rintro _ ⟨⟩
      | ok _ =>
        intro fs hfs
        refine checked_of_layOut (valid_of_validateBpb hvalid) hsmall ?_
        rcases hlay : layOut device bpb with _ | r
        · rw [hlay] at hfs; cases hfs
        rw [hlay] at hfs
        cases r <;> cases hfs
        rfl
  exact hends _ h

/-! ## What a call reports -/

def TakenFree (s s' : FatState) : Prop :=
  ∃ new, s'.taken = new ++ s.taken ∧ ∀ t ∈ new, t.2 = 0

theorem TakenFree.refl (s : FatState) : TakenFree s s := ⟨[], rfl, nofun⟩

variable {s : FatState}

theorem TakenFree.trans {s' s'' : FatState} (h : TakenFree s s') (h' : TakenFree s' s'') :
    TakenFree s s'' := by
  obtain ⟨new, hnew, hzero⟩ := h
  obtain ⟨new', hnew', hzero'⟩ := h'
  refine ⟨new' ++ new, by rw [hnew', hnew, append_assoc], fun t ht => ?_⟩
  rcases mem_append.1 ht with ht | ht
  · exact hzero' t ht
  · exact hzero t ht

/-- **A call reports its failures**: if an access has failed then it returns an error, and it takes
only clusters whose entries on the device are 0. -/
def Reports {α : Type} (p : Op α) (s : FatState) : Prop :=
  ((run p s).2.disk.failures ≠ s.disk.failures → ∃ e, (run p s).1 = some (.error e)) ∧
    TakenFree s (run p s).2

/-- None of the accesses that a call makes to entries of the table fails. -/
def EntriesServed {α : Type} (p : Op α) (s : FatState) : Prop :=
  (run p s).2.entryFailures = s.entryFailures

/-- The call reports its failures if no access to an entry fails, and only then if it returns. -/
def ReportsServed {α : Type} (p : Op α) (s : FatState) : Prop :=
  (EntriesServed p s → Reports p s) ∧
    ∀ a, (run p s).1 = some (.ok a) → Reports p s → EntriesServed p s

/-! ## Contracts -/

/-- What a program may do that acts on the device only. -/
def deviceOnly : Contract FatState where
  inv _ := True
  step s s' := s'.disk.failures = s.disk.failures ∧ s'.entryFailures = s.entryFailures ∧
    s'.taken = s.taken
  failed s s' := s.disk.failures < s'.disk.failures ∧ s'.entryFailures = s.entryFailures ∧
    s'.taken = s.taken
  refl _ := ⟨rfl, rfl, rfl⟩
  trans h h' := ⟨h'.1.trans h.1, h'.2.1.trans h.2.1, h'.2.2.trans h.2.2⟩
  failed_trans h h' := ⟨h.1 ▸ h'.1, h'.2.1.trans h.2.1, h'.2.2.trans h.2.2⟩

/-- What a program may do to a volume, if `b` accesses to entries had failed when the call began: it
goes on only after failures of this kind, and before the first of them it takes free clusters
only. -/
def careful (b : Nat) : Contract FatState where
  inv s := b ≤ s.entryFailures
  step s s' := (∃ n, s'.entryFailures = s.entryFailures + n ∧
      s'.disk.failures = s.disk.failures + n) ∧ (s'.entryFailures ≤ b → TakenFree s s')
  failed s s' := s.entryFailures ≤ s'.entryFailures ∧ (s'.entryFailures ≤ b → TakenFree s s')
  refl s := ⟨⟨0, rfl, rfl⟩, fun _ => .refl s⟩
  trans := by
    rintro s s' s'' ⟨⟨n, hn, hn'⟩, h⟩ ⟨⟨m, hm, hm'⟩, h'⟩
    exact ⟨⟨n + m, by omega, by omega⟩, fun hb => (h (by omega)).trans (h' hb)⟩
  failed_trans := by
    rintro s s' s'' ⟨⟨n, hn, -⟩, h⟩ ⟨hm, h'⟩
    exact ⟨by omega, fun hb => (h (by omega)).trans (h' hb)⟩

instance (b : Nat) : (careful b).Lenient := ⟨fun s => ⟨le_rfl, fun _ => .refl s⟩⟩

theorem TakenFree.of_eq {s' : FatState} (h : s'.taken = s.taken) : TakenFree s s' := ⟨[], h, nofun⟩

variable {b : Nat} {p : Op α} {R : α → FatState → Prop}

theorem reportsServed_of_keeps (hp : Keeps (careful s.entryFailures) p) : ReportsServed p s := by
  have hout := hp s le_rfl
  rw [Obeys, Ends] at hout
  rw [ReportsServed, Reports, EntriesServed]
  rcases hrun : run p s with ⟨_ | e | a, s'⟩ <;> rw [hrun] at hout
  · obtain ⟨-, ⟨n, hn, hn'⟩, htaken⟩ := hout
    exact ⟨fun h => ⟨fun hne => absurd hn' (by dsimp only at *; omega), htaken h.le⟩, by simp⟩
  · exact ⟨fun h => ⟨fun _ => ⟨e, rfl⟩, hout.2.2 h.le⟩, by simp⟩
  · obtain ⟨-, ⟨⟨n, hn, hn'⟩, htaken⟩, -⟩ := hout
    refine ⟨fun h => ⟨fun hne => absurd hn' (by dsimp only at *; omega), htaken h.le⟩,
      fun _ _ hreports => ?_⟩
    -- A failed access would be an error, and there is none.
    have hsame : s'.disk.failures = s.disk.failures := by
      by_contra hne
      obtain ⟨e, he⟩ := hreports.1 hne
      cases he
    dsimp only at *
    omega

theorem obeys_onDevice {keep : Prop} {p : Prog Disk DeviceError α} {R : α → Disk → Prop}
    (hp : Obeys (BlockDevice.reporting keep) p R s.disk) :
    Obeys deviceOnly (onDevice p) (fun a s' => R a s'.disk) s := by
  rw [Obeys, Ends] at hp
  rw [Obeys, Ends, Volume.run_onDevice]
  rcases hrun : run p s.disk with ⟨_ | e | a, d⟩ <;> rw [hrun] at hp
  · exact ⟨trivial, hp.2.1, rfl, rfl⟩
  · exact ⟨trivial, hp.2, rfl, rfl⟩
  · exact ⟨trivial, ⟨hp.2.1.1, rfl, rfl⟩, hp.2.2⟩

/-- A failure that is passed on. -/
theorem obeys_careful (hp : Obeys deviceOnly p R s) (hs : b ≤ s.entryFailures) :
    Obeys (careful b) p R s := by
  refine Ends.mono (fun r s' h => ?_) hp
  rcases r with _ | e | a
  · obtain ⟨-, hfailures, hentries, htaken⟩ := h
    exact ⟨hs.trans_eq hentries.symm, ⟨0, hentries, hfailures⟩, fun _ => .of_eq htaken⟩
  · obtain ⟨-, -, hentries, htaken⟩ := h
    exact ⟨hs.trans_eq hentries.symm, hentries.ge, fun _ => .of_eq htaken⟩
  · obtain ⟨-, ⟨hfailures, hentries, htaken⟩, ha⟩ := h
    exact ⟨hs.trans_eq hentries.symm, ⟨⟨0, hentries, hfailures⟩, fun _ => .of_eq htaken⟩, ha⟩

/-- A failure that is not.  The result is known only if there was none. -/
theorem obeys_entry (hp : Obeys deviceOnly p R s) (hs : b ≤ s.entryFailures) (default : α) :
    Obeys (careful b) (unwrapOr (onEntry p) default)
      (fun a s' => s'.entryFailures ≤ b → R a s') s := by
  rw [Obeys, Ends] at hp
  rw [Obeys, Ends, unwrapOr, run_bind, run_attempt, run_onEntry]
  rcases hrun : run p s with ⟨_ | e | a, s'⟩ <;> rw [hrun] at hp
  · obtain ⟨-, hfailures, hentries, htaken⟩ := hp
    exact ⟨hs.trans_eq hentries.symm, ⟨0, hentries, hfailures⟩, fun _ => .of_eq htaken⟩
  · obtain ⟨-, hfailures, hentries, htaken⟩ := hp
    refine ⟨?_, ⟨⟨_, congrArg (· + _) hentries, ?_⟩, fun _ => .of_eq htaken⟩, fun hb => ?_⟩ <;>
      dsimp only [run, careful] at * <;> omega
  · obtain ⟨-, ⟨hfailures, hentries, htaken⟩, ha⟩ := hp
    dsimp only [run]
    rw [hfailures, Nat.sub_self, Nat.add_zero]
    exact ⟨hs.trans_eq hentries.symm, ⟨⟨0, hentries, hfailures⟩, fun _ => .of_eq htaken⟩,
      fun _ => ha⟩

namespace FatFsInner

variable {v : FatFsInner} (hv : v.Checked)
include hv

/-! ### Bytes -/

theorem obeys_readBytes (offset len : Nat) : Obeys deviceOnly (v.readBytes offset len)
    (fun bytes s' => bytes = window s'.data offset len) s := by
  have hlarge := hv.large
  rw [hv.sectorSize] at hlarge
  have hread := obeys_onDevice (v.device.obeys_readBytes (by omega) hv.capacity offset
    (List.replicate len 0) s.disk)
  rw [length_replicate] at hread
  exact hread

theorem keeps_readBytes (offset len : Nat) : Keeps (careful b) (v.readBytes offset len) :=
  fun _ hs => (obeys_careful (obeys_readBytes hv offset len) hs).mono fun _ _ _ => trivial

omit hv in
theorem obeys_writeBytes (offset : Nat) (buf : List UInt8) :
    Obeys deviceOnly (v.writeBytes offset buf) (fun _ _ => True) s :=
  obeys_onDevice (v.device.keeps_writeBytes offset buf s.disk trivial)

omit hv in
theorem keeps_writeBytes (offset : Nat) (buf : List UInt8) :
    Keeps (careful b) (v.writeBytes offset buf) :=
  fun _ hs => obeys_careful (obeys_writeBytes offset buf) hs

/-! ### The table -/

theorem obeys_readWord (offset w : Nat) : Obeys deviceOnly (v.readWord offset w)
    (fun value s' => value = leValue (window s'.data offset w)) s :=
  (obeys_readBytes hv offset w).bind fun _ _ _ _ hbytes =>
    obeys_ret trivial (congrArg leValue hbytes)

/-- **An entry is read as it stands on the device**, if it can be read. -/
theorem obeys_readFatEntry (hs : b ≤ s.entryFailures) (c : Nat) :
    Obeys (careful b) (v.readFatEntry c)
      (fun e s' => s'.entryFailures ≤ b → e = v.entry s'.data c) s := by
  have ho : v.fatOffset 0 = some (v.firstFatSector * v.sectorSize) := by
    rw [fatOffset, zero_mul, fit_of_lt (by decide), bind_eq_bind, bind_some,
      add_zero, fit_of_lt hv.firstFatSector]
    rfl
  rw [readFatEntry, ho]
  refine obeys_entry (R := fun e s' => e = v.entry s'.data c) ?_ hs 0
  exact (obeys_readWord hv _ _).bind fun _ _ _ _ hvalue =>
    obeys_ret trivial (congrArg (v.fatType.decode c) hvalue)

theorem keeps_readFatEntry (c : Nat) : Keeps (careful b) (v.readFatEntry c) :=
  fun _ hs => (obeys_readFatEntry hv hs c).mono fun _ _ _ => trivial

theorem keeps_writeFatEntry (c value : Nat) : Keeps (careful b) (v.writeFatEntry c value) := by
  refine keeps_forEach (fun i => (keeps_ofOption _).bind fun fat s hs => ?_) _
  refine (obeys_entry (R := fun _ _ => True) ?_ hs ()).mono fun _ _ _ => trivial
  have hcurrent : Obeys deviceOnly (v.currentWord (fat + v.fatType.entryStart c))
      (fun _ _ => True) s := by
    rw [currentWord]
    split
    · exact obeys_ret trivial trivial
    · exact (obeys_readWord hv _ _).mono fun _ _ _ => trivial
  exact hcurrent.bind fun _ _ _ _ _ => obeys_writeBytes _ _

/-- A cluster is taken, if its entry is 0 as far as one can tell. -/
theorem obeys_takeCluster {c : Nat} (hs : b ≤ s.entryFailures)
    (hfree : s.entryFailures ≤ b → v.entry s.data c = 0) :
    Obeys (careful b) (v.takeCluster c) (fun _ _ => True) s := by
  refine Obeys.bind (S := fun _ _ => True)
    ⟨hs, ⟨⟨0, rfl, rfl⟩, fun hb => ⟨[(c, v.entry s.data c)], rfl, fun t ht => ?_⟩⟩, trivial⟩
    fun _ s' hs' _ _ => ?_
  · rw [mem_singleton.1 ht]
    exact hfree hb
  refine (keeps_writeFatEntry hv _ _).bind (fun _ => ?_) s' hs'
  refine ((keeps_ofExcept _).bind fun _ => keeps_writeBytes _ _).bind fun _ => ?_
  exact Keeps.bind (keeps_update fun s hs => ⟨hs, ⟨0, rfl, rfl⟩, fun _ => .refl s⟩)
    fun _ => keeps_ret _

theorem keeps_allocateLoop (cs : List Nat) : Keeps (careful b) (v.allocateLoop cs) := by
  induction cs with
  | nil => exact keeps_fail _
  | cons c cs ih =>
    intro s hs
    refine (obeys_readFatEntry hv hs c).bind fun e s' hs' _ he => ?_
    split_ifs with hzero
    · exact obeys_takeCluster hv hs' fun hb => (he hb).symm.trans hzero
    · exact ih s' hs'

/-- **Only free clusters are allocated**, until an entry cannot be read. -/
theorem keeps_allocateCluster : Keeps (careful b) v.allocateCluster :=
  (keeps_load _).bind fun _ => (keeps_ofOption _).bind fun _ => keeps_allocateLoop hv _

theorem keeps_collectLoop (maxCluster remaining current : Nat) :
    Keeps (careful b) (v.collectLoop maxCluster remaining current) := by
  induction remaining generalizing current with
  | zero => exact keeps_fail _
  | succ remaining ih =>
    rw [collectLoop]
    split
    · exact keeps_ret _
    refine (keeps_readFatEntry hv current).bind fun next => ?_
    split
    · exact keeps_ret _
    · exact (ih next).bind fun _ => keeps_ret _

theorem keeps_collectChain (first : Nat) : Keeps (careful b) (v.collectChain first) := by
  rw [collectChain]
  split
  · exact keeps_ret _
  · exact (keeps_ofOption _).bind fun _ => keeps_collectLoop hv _ _ _

theorem keeps_linkNewCluster (last : Nat) : Keeps (careful b) (v.linkNewCluster last) := by
  refine (keeps_allocateCluster hv).bind fun c => ?_
  refine (keeps_writeFatEntry hv last c).bind fun _ => ?_
  exact (keeps_writeFatEntry hv c _).bind fun _ => keeps_ret _

theorem keeps_extendLoop (missing : Nat) (l : List Nat) :
    Keeps (careful b) (v.extendLoop missing l) := by
  induction missing generalizing l with
  | zero => exact keeps_ret _
  | succ missing ih =>
    refine Keeps.bind ?_ fun l => ih l
    rw [appendCluster]
    split
    · exact (keeps_allocateCluster hv).bind fun _ => keeps_fail _
    · exact (keeps_linkNewCluster hv _).bind fun _ => keeps_ret _

theorem keeps_ensureChainLen (first needed : Nat) :
    Keeps (careful b) (v.ensureChainLen first needed) := by
  rw [ensureChainLen]
  split
  · exact keeps_ret _
  refine (keeps_collectChain hv first).bind fun l => ?_
  split
  · refine (keeps_allocateCluster hv).bind fun c => ?_
    exact (keeps_extendLoop hv _ _).bind fun _ => keeps_ret _
  · exact (keeps_extendLoop hv _ _).bind fun _ => keeps_ret _

/-! ### Directories and files -/

theorem keeps_directoryRegions (state : FatInodeState) :
    Keeps (careful b) (v.directoryRegions state) := by
  rw [directoryRegions]
  split
  · exact keeps_ret _
  · exact (keeps_collectChain hv _).bind fun _ => keeps_ofExcept _

theorem keeps_scanSlots (n entryOffset : Nat) (scan : Scan) :
    Keeps (careful b) (v.scanSlots n entryOffset scan) := by
  induction n generalizing entryOffset scan with
  | zero => exact keeps_ret _
  | succ n ih =>
    refine (keeps_readBytes hv _ _).bind fun entry => ?_
    split
    · exact keeps_ret _
    · exact ih _ _

theorem keeps_scanRegions (regions : List (Nat × Nat)) (entries : List ParsedDirEntry) :
    Keeps (careful b) (v.scanRegions regions entries) := by
  induction regions generalizing entries with
  | nil => exact keeps_ret _
  | cons region regions ih =>
    refine (keeps_failIf _ _).bind fun _ => ?_
    refine (keeps_scanSlots hv _ _ _).bind fun found => ?_
    obtain ⟨ended, scan⟩ := found
    dsimp only
    split
    · exact keeps_ret _
    · exact ih _

theorem keeps_findFreeSlot (n entryOffset : Nat) :
    Keeps (careful b) (v.findFreeSlot n entryOffset) := by
  induction n generalizing entryOffset with
  | zero => exact keeps_ret _
  | succ n ih =>
    refine (keeps_readBytes hv _ _).bind fun byte => ?_
    split
    · exact keeps_ret _
    · exact ih _

theorem keeps_findFreeIn (regions : List (Nat × Nat)) :
    Keeps (careful b) (v.findFreeIn regions) := by
  induction regions with
  | nil => exact keeps_ret _
  | cons region regions ih =>
    refine (keeps_failIf _ _).bind fun _ => ?_
    refine (keeps_findFreeSlot hv _ _).bind fun found => ?_
    cases found with
    | some entryOffset => exact keeps_ret _
    | none => exact ih

theorem keeps_findFreeDirEntry (state : FatInodeState) :
    Keeps (careful b) (v.findFreeDirEntry state) := by
  refine (keeps_directoryRegions hv state).bind fun regions => ?_
  refine (keeps_findFreeIn hv regions).bind fun found => ?_
  cases found with
  | some entryOffset => exact keeps_ret _
  | none =>
    dsimp only
    split
    · exact keeps_fail _
    refine (keeps_collectChain hv _).bind fun l => ?_
    cases l.getLast? with
    | none => exact keeps_fail _
    | some last => exact (keeps_linkNewCluster hv last).bind fun c => keeps_ofExcept _

omit hv in
theorem keeps_initializeNew (fileType : FileType) (firstCluster parentCluster : Nat) :
    Keeps (careful b) (v.initializeNew fileType firstCluster parentCluster) := by
  rw [initializeNew]
  split
  · refine (keeps_ofExcept _).bind fun offset => ?_
    refine (keeps_failIf _ _).bind fun _ => ?_
    refine (keeps_writeBytes _ _).bind fun _ => ?_
    exact (keeps_writeBytes _ _).bind fun _ => keeps_writeBytes _ _
  · exact keeps_ret _

theorem keeps_create (inode : FatInode) (name : Str) (fileType : FileType) :
    Keeps (careful b) (v.create inode name fileType) := by
  rw [create]
  split
  · exact keeps_fail _
  split
  · exact keeps_fail _
  refine (keeps_ofExcept _).bind fun shortName => ?_
  refine ((keeps_directoryRegions hv _).bind fun _ => keeps_scanRegions hv _ _).bind fun _ => ?_
  refine (keeps_failIf _ _).bind fun _ => ?_
  refine (keeps_findFreeDirEntry hv _).bind fun entryOffset => ?_
  refine (keeps_allocateCluster hv).bind fun firstCluster => ?_
  refine (keeps_writeBytes _ _).bind fun _ => ?_
  exact (keeps_initializeNew _ _ _).bind fun _ => keeps_ret _

omit hv in
theorem keeps_writeClusters (chain : List Nat) (clusterOffset : Nat) (buf : List UInt8) :
    Keeps (careful b) (v.writeClusters chain clusterOffset buf) := by
  induction chain generalizing clusterOffset buf with
  | nil => exact keeps_ret _
  | cons cluster chain ih =>
    rw [writeClusters]
    split
    · exact keeps_ret _
    · refine (keeps_ofExcept _).bind fun offset => ?_
      exact (keeps_writeBytes _ _).bind fun _ => ih _ _

theorem keeps_write (inode : FatInode) (offset : Nat) (buf : List UInt8) :
    Keeps (careful b) (v.write inode offset buf) := by
  rw [write]
  split
  · exact keeps_fail _
  split
  · exact keeps_ret _
  split
  · exact keeps_fail _
  refine (keeps_ensureChainLen hv _ _).bind fun found => ?_
  refine (keeps_writeClusters _ _ _).bind fun _ => ?_
  refine (keeps_ofExcept _).bind fun stop => ?_
  cases inode.state.dirEntryOffset with
  | none => exact keeps_ret _
  | some entryOffset =>
    refine Keeps.bind ?_ fun _ => keeps_ret _
    exact (keeps_readBytes hv _ _).bind fun _ => keeps_writeBytes _ _

end FatFsInner

/-- **What is reported.**  On every mounted volume and with every pattern of faults, a call that
allocates, creates or writes reports its failures and takes only free clusters if none of the
accesses that it makes to entries of the table fails; and if one does, a call that returns has not
reported it. -/
theorem failures_reported (v : FatFsInner) (hv : v.Mounted) (s : FatState) :
    ReportsServed v.allocateCluster s ∧
    (∀ inode name fileType, ReportsServed (v.create inode name fileType) s) ∧
    ∀ inode offset buf, ReportsServed (v.write inode offset buf) s := by
  have hchecked := hv.checked
  exact ⟨reportsServed_of_keeps (keeps_allocateCluster hchecked),
    fun _ _ _ => reportsServed_of_keeps (keeps_create hchecked _ _ _),
    fun _ _ _ => reportsServed_of_keeps (keeps_write hchecked _ _ _)⟩

def smallBoot : List UInt8 :=
  [0, 0, 0, 0, 0, 0, 0, 0, 0, 0, 0, 0, 2, 1, 1, 0, 1, 16, 0, 8, 0, 0, 1, 0]

def smallRoot : FatInodeState := ⟨0, 512, none, .fixedRoot, none⟩

theorem mounted_smallVolume : smallVolume.Mounted :=
  ⟨⟨512, 8, true⟩, bootDisk smallBoot, smallRoot, by decide +kernel⟩

/-- The first cluster of the small volume cannot be accessed. -/
def clusterFault : FatState :=
  { smallState [] [] [] with
    disk := { (smallState [] [] []).disk with
      faults := List.replicate 8 fun a => if a.sector = 3 then some .ioError else none } }

/-- The cluster cannot be zeroed, and this is reported. -/
theorem failures_reported_cluster :
    (run smallVolume.allocateCluster clusterFault).2.disk.failures = 1 ∧
      EntriesServed smallVolume.allocateCluster clusterFault ∧
      Reports smallVolume.allocateCluster clusterFault := by
  have hserved : (run smallVolume.allocateCluster clusterFault).2.entryFailures = 0 := by
    decide +kernel
  exact ⟨by decide +kernel, hserved,
    (failures_reported _ mounted_smallVolume clusterFault).1.1 hserved⟩

/-- The first access fails, and cluster 2 is in use. -/
def lostRead : FatState :=
  { smallState [0xF8, 0xFF, 0xFF, 0xFF, 0x0F] [] [] with
    disk := { (smallState [0xF8, 0xFF, 0xFF, 0xFF, 0x0F] [] []).disk with
      faults := [fun _ => some .ioError] } }

/-- The access fails that writes the entry of cluster 2. -/
def lostWrite : FatState :=
  { smallState [] [] [] with
    disk := { (smallState [] [] []).disk with
      faults := [fun a => if a.write then some .ioError else none,
        fun a => if a.write then some .ioError else none,
        fun a => if a.write then some .ioError else none,
        fun a => if a.write then some .ioError else none] } }

/-- **A failed access to the table is lost.**  A cluster whose entry cannot be read is handed out
even if it is in use, and an entry that cannot be written is left as it is, but the call succeeds.
-/
theorem failures_not_reported :
    ¬ Reports smallVolume.allocateCluster lostRead ∧
      ¬ Reports smallVolume.allocateCluster lostWrite := by
  have hread : (run smallVolume.allocateCluster lostRead).1 = some (.ok 2) ∧
      (run smallVolume.allocateCluster lostRead).2.disk.failures = 1 ∧
      (run smallVolume.allocateCluster lostRead).2.taken = [(2, 0xFFF)] := by
    decide +kernel
  have hwrite : (run smallVolume.allocateCluster lostWrite).1 = some (.ok 2) ∧
      (run smallVolume.allocateCluster lostWrite).2.disk.failures = 1 := by
    decide +kernel
  refine ⟨fun h => ?_, fun h => ?_⟩
  · obtain ⟨new, hnew, hzero⟩ := h.2
    rw [hread.2.2, show lostRead.taken = [] from rfl, append_nil] at hnew
    have hcluster := hzero (2, 0xFFF) (hnew ▸ mem_singleton.2 rfl)
    cases hcluster
  · obtain ⟨e, he⟩ := h.1 (by rw [hwrite.2]; decide)
    rw [hwrite.1] at he
    cases he

end Krust.Fat
