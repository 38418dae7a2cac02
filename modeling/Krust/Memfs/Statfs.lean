import Krust.Memfs.Interleave
import Mathlib.Algebra.Group.Pi.Lemmas

/-!
# Exact counters in every interleaving

Any number of calls run on a file system at once, each of them stopping between any two of its
atomic actions, some failing and some waiting for a mutex.  Meanwhile references are dropped,
inodes nobody refers to go away, other mounts take inode numbers, and at some point the mount
itself is given up.  `Task` is what can be started, and `Pool.Reachable Task` is what all of it
can lead to.

Each task starts with nothing and ends with nothing, so the accounts add up over the threads
(`Pool.reachable_shares`).  Once all of them have returned nothing is reserved any more, and the
free counts that `statfs` reports are exact.
-/

set_option autoImplicit false

namespace Krust.Memfs

open Prog Option

variable {p : Op Unit}

section Calls

variable {limits : Option TmpfsOptions} {m n : Token → Nat} {i : Nat}

/-- The reference a call returns is kept. -/
theorem trade_keep : Trade limits (keep i) (m + Pi.single (.arc i) 1) n fun _ => m :=
  trades_update fun _ _ hw ho =>
    have hlive := hw.arc i (owns ho (single_ne_zero _ _))
    ⟨(hw.lose (by simp)).setHandle _ fun _ => hlive, lose_own ho⟩

theorem even_cloneHandle : Even limits (cloneHandle i) m :=
  trades_await fun _ _ hw ho hi => ⟨hw.setHandle _ fun _ => of_decide_eq_true hi, ho⟩

theorem even_dropHandle : Even limits (dropHandle i) m :=
  trades_await fun _ _ hw ho hi =>
    have hlive := hw.handle i (of_decide_eq_true hi).ne'
    ⟨hw.setHandle _ fun _ => hlive, ho⟩

theorem trade_dropCharges (count : Nat) :
    Trade limits (dropCharges count) (m + Pi.single (.charge .page) count) n fun _ => m := by
  induction count with
  | zero => exact trades_ret (by simp)
  | succ count ih =>
    rw [Pi.single_add, ← add_assoc]
    exact (trade_dropCharge .page).bind fun _ => ih

/-- An inode that is dropped gives its charges back. -/
theorem even_dropInode (i : Nat) : Even limits (dropInode i) m := by
  intro w rest count w' hw ho hf
  simp only [ite_none_right_eq_some, some_inj, Prod.mk.injEq] at hf
  obtain ⟨hdrop, rfl, rfl⟩ := hf
  have hshare := add_right_comm m (Pi.single (.charge .inode) 1)
    (Pi.single (.charge .page) (w.fs.node i).storage.pageCount)
  refine ⟨hw.bury hdrop, _, gain_own (gain_own ho 1) _, ?_⟩
  rw [hshare]
  exact (trade_dropCharge .inode).bind fun _ => trade_dropCharges _

/-- A destination on this file system is held as the source is. -/
theorem Even.withDestination {destination : DynInode}
    (hp : ∀ m', (∀ t, m t ≠ 0 → m' t ≠ 0) → Even limits p m') :
    Even limits (withDestination destination p) m := by
  refine (trades_load _).bind fun fsId => ?_
  cases destination.memory with
  | none => exact hp m fun _ h => h
  | some j =>
    dsimp only
    split
    · exact withRef (hp _ fun t ht => by rw [Pi.add_apply]; omega)
    · exact hp m fun _ h => h

/-- **Every call ends with what it began with**, whatever else is running. -/
theorem even_call (c : Call) : Even limits c.prog 0 := by
  cases c with
  | create self name fileType =>
    exact Even.withRef ((trade_create self name fileType).bind fun _ => trade_keep)
  | unlink self name directory => exact Even.withRef (even_unlink self name directory)
  | rename self name destination newName =>
    refine Even.withRef (Even.withDestination fun m' hm => ?_)
    exact even_rename self name destination newName (hm _ (single_ne_zero _ _))
  | lookup self name =>
    exact Even.withRef ((trade_lookup self name (single_ne_zero _ _)).bind fun _ => trade_keep)
  | write self offset buf =>
    exact Even.withRef (Trades.map _ (Trade.withLock _
      (even_writeData offset buf (single_ne_zero _ _))))
  | append self buf => exact Even.withRef (Trades.map _ (even_append buf (single_ne_zero _ _)))
  | truncate self newSize => exact Even.withRef (even_truncate newSize (single_ne_zero _ _))
  | read self offset buf => exact Even.withRef (Trades.map _ (even_read offset buf))
  | size self => exact Even.withRef (Trades.map _ (Trade.withLock _ (Trades.map _ (trades_load _))))
  | setMetadata self metadata => exact Even.withRef (even_setMetadata metadata)
  | cloneHandle i => exact even_cloneHandle
  | dropHandle i => exact even_dropHandle
  | dropInode i => exact even_dropInode i

end Calls

/-! ## Everything that can run -/

/-- The `MemoryFs` is given up, and its reference to the root with it. -/
def unmount : Op Unit := update fun w => { w with mounted := false }

/-- What other mounts and other users of memory do. -/
def elsewhere (numbers : Nat) (faults : List Bool) : Op Unit :=
  update fun w => w.meanwhile (w.fs.nextIno + numbers) faults

/-- What can be started at any time. -/
inductive Task : Op Unit → Prop
  | call (c : Call) : Task c.prog
  | unmount : Task unmount
  | elsewhere (numbers : Nat) (faults : List Bool) : Task (elsewhere numbers faults)

variable {limits : Option TmpfsOptions}

theorem Task.even (h : Task p) : Even limits p 0 := by
  cases h with
  | call c => exact even_call c
  | unmount =>
    exact trades_update fun _ _ hw ho => ⟨hw.of_fs rfl rfl rfl rfl rfl le_rfl rfl rfl (by simp), ho⟩
  | elsewhere numbers faults =>
    refine trades_update fun w _ hw ho => ⟨?_, ho⟩
    exact hw.of_fs rfl rfl rfl rfl rfl (Nat.le_add_right _ _) rfl rfl id

theorem accounts_boot (fsId : Nat) (limits : Option TmpfsOptions) (nextIno : Nat)
    (faults : List Bool) : Accounts limits (World.boot fsId limits nextIno faults) where
  exact r := by cases r <;> rfl
  within r := by cases r <;> exact Nat.zero_le _
  arc _ hi := absurd rfl hi
  handle _ hi := absurd rfl hi
  listed _ hd := absurd hd (Finset.notMem_empty _)
  root hm := absurd hm Bool.false_ne_true
  number _ hi := absurd rfl hi
  fresh _ hi := absurd hi (Finset.notMem_empty _)
  mount := rfl

theorem even_build : Even limits build 0 := by
  refine (trade_newInode .directory 0).bind fun root => ?_
  have hlist : Even limits (withLock .nodes do allocate; pushNode root)
      (0 + Pi.single (.arc root) 1) :=
    Trade.withLock .nodes (even_allocate.bind fun _ => trade_pushNode root)
  have hfailed : Trade limits (update fun w => w.lose (.arc root)) (0 + Pi.single (.arc root) 1) 0
      fun _ => 0 := trades_update fun _ _ hw ho => ⟨hw.lose (by simp), lose_own ho⟩
  refine (hlist.onFail hfailed).bind fun _ => trades_update fun w _ hw ho => ⟨?_, lose_own ho⟩
  -- the file system takes over the reference to the root
  have hroot : root ∈ w.fs.live := hw.arc root (owns ho (single_ne_zero _ _))
  have h : Accounts limits (w.lose (.arc root)) := hw.lose (by simp)
  exact ⟨h.exact, h.within, h.arc, h.handle, h.listed, fun _ => hroot, h.number, h.fresh,
    h.mount⟩

variable {fsId nextIno : Nat} {faults : List Bool}

theorem accounts_build {w : World}
    (hrun : run build (World.boot fsId limits nextIno faults) = (some (.ok ()), w)) :
    Accounts limits w ∧ w.tokens = 0 := by
  obtain ⟨hw, m, ho, rfl⟩ := Holds.of_run even_build (accounts_boot ..) (add_zero 0).symm hrun
  exact ⟨hw, ho⟩

variable {w0 : World} {c : Pool World FsError}

/-- The accounts in every interleaving, and with nobody running. -/
theorem accounts_reachable (hw : Accounts limits w0) (htokens : w0.tokens = 0)
    (hc : c.Reachable Task w0) :
    Accounts limits c.shared ∧ (c.Idle → c.shared.tokens = 0) := by
  obtain ⟨hinv, shares, hsum, hall⟩ :=
    Pool.reachable_shares hw htokens (fun _ hp => Task.even hp) hc
  refine ⟨hinv, fun hidle => hsum.trans ?_⟩
  refine Pool.idle_shares (P := fun m : Token → Nat => m = 0) ?_ rfl ?_ hidle hall
  · rintro (_ | _) m rfl <;> rfl
  · rintro _ _ rfl rfl
    rfl

/-- **The counters are exact in every interleaving.**  At every moment the page counter is the
number of pages the inodes hold and of the pages that are reserved, the inode counter is the number
of inodes and of the inodes that are reserved, and no limit is exceeded.  When nobody is running
nothing is reserved, and what `statfs` reports as free is what is left of the limits. -/
theorem counters_exact {limits : Option TmpfsOptions}
    (hrun : run build (World.boot fsId limits nextIno faults) = (some (.ok ()), w0))
    (hc : c.Reachable Task w0) :
    let fs := c.shared.fs
    fs.pages = ∑ i ∈ fs.live, (fs.node i).storage.pageCount + c.shared.tokens (.charge .page) ∧
    fs.inodes = fs.live.card + c.shared.tokens (.charge .inode) ∧
    (∀ l, limits = some l → fs.pages ≤ l.size / PAGE_SIZE ∧ fs.inodes ≤ l.nrInodes) ∧
    (c.Idle →
      (∀ r, c.shared.tokens (.charge r) = 0) ∧
      ∀ l, limits = some l → ∃ stats, fs.statfs = .ok stats ∧
        stats.blocksFree + ∑ i ∈ fs.live, (fs.node i).storage.pageCount = l.size / PAGE_SIZE ∧
        stats.filesFree + fs.live.card = l.nrInodes) := by
  obtain ⟨h0, ht0⟩ := accounts_build hrun
  obtain ⟨h, hidle⟩ := accounts_reachable h0 ht0 hc
  intro fs
  have hpages : fs.pages = fs.held .page + _ := h.exact .page
  have hinodes : fs.inodes = fs.held .inode + _ := h.exact .inode
  have hlimits : ∀ l, limits = some l →
      fs.pages ≤ l.size / PAGE_SIZE ∧ fs.inodes ≤ l.nrInodes := by
    rintro l rfl
    have hp : fs.pages ≤ fs.limit .page := h.within .page
    have hi : fs.inodes ≤ fs.limit .inode := h.within .inode
    simp only [Fs.limit, fs, h.mount] at hp hi
    exact ⟨hp, hi⟩
  refine ⟨hpages, hinodes, hlimits, fun hc => ⟨fun r => congrFun (hidle hc) _, ?_⟩⟩
  rintro l rfl
  obtain ⟨hp, hi⟩ := hlimits l rfl
  rw [hidle hc, Pi.zero_apply] at hpages hinodes
  refine ⟨_, by rw [Fs.statfs, h.mount], ?_, ?_⟩
  · show l.size / PAGE_SIZE - fs.pages + fs.held .page = _
    omega
  · show l.nrInodes - fs.inodes + fs.held .inode = _
    omega

def twoPages : World :=
  (run build (World.boot 1 (some { TmpfsOptions.default with size := 8192 }) 1 [])).2

/-- A file has been made in `twoPages`, and its first page is written. -/
def onePage : Pool World FsError :=
  (Pool.begin ⟨twoPages, []⟩ (Call.create 1 ['a'] .regular).prog 100).begin
    (Call.write 2 0 [7]).prog 100

/-- One page is free, and all inodes but two.  On the way to the second page it is reserved. -/
theorem counters_exact_onePage :
    (∃ stats, onePage.shared.fs.statfs = .ok stats ∧ stats.blocksFree + 1 = 2 ∧
      stats.filesFree + 2 = TmpfsOptions.default.nrInodes) ∧
    let busy := onePage.begin (Call.write 2 4096 [8]).prog 6
    busy.shared.tokens (.charge .page) = 1 ∧ busy.shared.fs.pages = 1 + 1 := by
  have hbuild : run build (World.boot 1 (some { TmpfsOptions.default with size := 8192 }) 1 []) =
      (some (.ok ()), twoPages) := rfl
  have hone : onePage.Reachable Task twoPages :=
    (Pool.Reachable.start.begin (.call _) 100).begin (.call _) 100
  have hidle : onePage.Idle := by
    have hthreads : onePage.threads = [ret (), ret ()] := rfl
    simp [Pool.Idle, hthreads]
  have hheld : ∑ i ∈ onePage.shared.fs.live, (onePage.shared.fs.node i).storage.pageCount = 1 := by
    decide +kernel
  have hcard : onePage.shared.fs.live.card = 2 := by decide +kernel
  have hfree := ((counters_exact hbuild hone).2.2.2 hidle).2 _ rfl
  rw [hheld, hcard] at hfree
  have hbusy := hone.begin (.call (.write 2 4096 [8])) 6
  refine ⟨hfree, by decide +kernel, (counters_exact hbuild hbusy).1.trans ?_⟩
  decide +kernel

end Krust.Memfs
