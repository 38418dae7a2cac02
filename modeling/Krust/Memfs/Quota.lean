import Krust.Memfs.Calls
import Mathlib.Algebra.BigOperators.Group.Finset.Basic

/-!
# The page and inode counters

A counter is raised before the page or the inode it pays for exists, and lowered after it is gone,
and everything in between can be interleaved with other operations or cut short by a failure.
`Accounts` says that nothing is lost on the way: a counter is the number of things that exist and
the charges that running code holds.  Every operation keeps it, one atomic action at a time, and
ends with the charges it began with, so in every interleaving the counters are right and, when
nobody is running, they count exactly what exists.
-/

set_option autoImplicit false

namespace Krust.Memfs

open Prog List Function Finset Fs World

/-- What exists of a resource: the pages of the files, and the inodes. -/
def Fs.held (fs : Fs) : Resource → Nat
  | .page => ∑ i ∈ fs.live, (fs.node i).storage.pageCount
  | .inode => fs.live.card

/-- **The invariant of the counters**, at every moment of every interleaving. -/
structure Accounts (limits : Option TmpfsOptions) (w : World) : Prop where
  /-- A counter counts what exists and what has been reserved for something that does not exist
  yet or any more. -/
  exact : ∀ r, w.fs.counter r = w.fs.held r + w.tokens (.charge r)
  within : ∀ r, w.fs.counter r ≤ w.fs.limit r
  /-- What running code or anybody else refers to exists. -/
  arc : ∀ i, w.tokens (.arc i) ≠ 0 → i ∈ w.fs.live
  handle : ∀ i, w.handles i ≠ 0 → i ∈ w.fs.live
  listed : ∀ d ∈ w.fs.live, ∀ e ∈ w.fs.entries d, e.2 ∈ w.fs.live
  root : w.mounted = true → w.fs.root ∈ w.fs.live
  /-- A number that has been taken for a new inode is nobody else's. -/
  number : ∀ i, w.tokens (.number i) ≠ 0 →
    i < w.fs.nextIno ∧ i ∉ w.fs.live ∧ w.tokens (.number i) = 1
  fresh : ∀ i ∈ w.fs.live, i < w.fs.nextIno
  mount : w.fs.limits = limits

section Counters

variable (fs : Fs) (r r' : Resource) (n : Nat)

theorem counter_setCounter :
    (fs.setCounter r n).counter r' = if r' = r then n else fs.counter r' := by
  cases r <;> cases r' <;> rfl

theorem held_setCounter : (fs.setCounter r n).held r' = fs.held r' := by
  cases r <;> cases r' <;> rfl

theorem limit_setCounter : (fs.setCounter r n).limit r' = fs.limit r' := by
  cases r <;> cases r' <;> rfl

end Counters

theorem gain_tokens (w : World) (t t' : Token) (n : Nat) :
    (w.gain t n).tokens t' = w.tokens t' + if t' = t then n else 0 := by
  simp only [gain, Pi.add_apply, Pi.single_apply]

theorem lose_tokens (w : World) (t t' : Token) :
    (w.lose t).tokens t' = w.tokens t' - if t' = t then 1 else 0 := by
  simp only [lose, Pi.sub_apply, Pi.single_apply]

/-! ## Single changes -/

variable {f : MemoryInode → MemoryInode}

namespace Accounts

variable {limits : Option TmpfsOptions} {w w' : World} (h : Accounts limits w) {i : Nat}

include h

/-- Nobody refers to anything else, and the counters are right. -/
theorem of_refs (hlive : w'.fs.live = w.fs.live) (hentries : ∀ d, w'.fs.entries d = w.fs.entries d)
    (hlimits : w'.fs.limits = w.fs.limits) (hroot : w'.fs.root = w.fs.root)
    (hnext : w.fs.nextIno ≤ w'.fs.nextIno)
    (hother : ∀ t, (∀ r, t ≠ .charge r) → w'.tokens t = w.tokens t)
    (hhandles : w'.handles = w.handles) (hmounted : w'.mounted = true → w.mounted = true)
    (hexact : ∀ r, w'.fs.counter r = w'.fs.held r + w'.tokens (.charge r))
    (hwithin : ∀ r, w'.fs.counter r ≤ w'.fs.limit r) : Accounts limits w' := by
  refine ⟨hexact, hwithin, fun j hj => ?_, ?_, ?_, ?_, fun j hj => ?_, ?_, hlimits.trans h.mount⟩
  · rw [hother _ (by simp)] at hj
    rw [hlive]
    exact h.arc j hj
  · rw [hhandles, hlive]
    exact h.handle
  · simp only [hentries, hlive]
    exact h.listed
  · rw [hroot, hlive]
    exact fun hm => h.root (hmounted hm)
  · rw [hother _ (by simp)] at hj ⊢
    obtain ⟨hlt, hnot, hone⟩ := h.number j hj
    exact ⟨hlt.trans_le hnext, hlive ▸ hnot, hone⟩
  · rw [hlive]
    exact fun i hi => (h.fresh i hi).trans_le hnext

/-- The invariant is about the inodes, the counters and the references, not about mutexes or
allocations. -/
theorem of_fs (hlive : w'.fs.live = w.fs.live) (hnode : w'.fs.node = w.fs.node)
    (hcounter : w'.fs.counter = w.fs.counter) (hlimits : w'.fs.limits = w.fs.limits)
    (hroot : w'.fs.root = w.fs.root) (hnext : w.fs.nextIno ≤ w'.fs.nextIno)
    (htokens : w'.tokens = w.tokens) (hhandles : w'.handles = w.handles)
    (hmounted : w'.mounted = true → w.mounted = true) : Accounts limits w' := by
  have hlimit : ∀ r, w'.fs.limit r = w.fs.limit r := fun r => by
    cases r <;> simp only [limit, hlimits]
  have hheld : ∀ r, w'.fs.held r = w.fs.held r := fun r => by
    cases r <;> simp only [held, hlive, hnode]
  refine h.of_refs hlive (fun d => by simp only [entries, hnode]) hlimits hroot hnext
    (fun t _ => congrFun htokens t) hhandles hmounted (fun r => ?_) fun r => ?_
  · rw [hcounter, hheld, htokens]
    exact h.exact r
  · rw [hcounter, hlimit]
    exact h.within r

/-- A change of an inode that keeps its pages and lists nothing that does not exist. -/
theorem modify (hp : (f (w.fs.node i)).storage.pageCount = (w.fs.node i).storage.pageCount)
    (he : ∀ e ∈ (f (w.fs.node i)).storage.list, e.2 ∈ w.fs.live ∨
      ∃ e' ∈ w.fs.entries i, e'.2 = e.2) : Accounts limits (w.onNode i f) := by
  have hcount : ∀ j, ((w.onNode i f).fs.node j).storage.pageCount =
      (w.fs.node j).storage.pageCount := by
    intro j
    by_cases hj : j = i
    · subst hj
      rw [onNode_fs, modifyNode_node_self, hp]
    · rw [onNode_fs, modifyNode_node_of_ne _ hj]
  have hheld : ∀ r, (w.onNode i f).fs.held r = w.fs.held r := by
    rintro (_ | _)
    · exact sum_congr rfl fun j _ => hcount j
    · rfl
  refine ⟨fun r => ?_, h.within, h.arc, h.handle, ?_, h.root, h.number, h.fresh, h.mount⟩
  · rw [hheld]
    exact h.exact r
  intro d hd e hmem
  by_cases hdi : d = i
  · subst hdi
    rw [entries, onNode_fs, modifyNode_node_self] at hmem
    rcases he e hmem with hlive | ⟨e', he', heq⟩
    · exact hlive
    · rw [← heq]
      exact h.listed d hd e' he'
  · rw [entries, onNode_fs, modifyNode_node_of_ne _ hdi] at hmem
    exact h.listed d hd e hmem

/-- A reference more to something that exists. -/
theorem gainArc (hi : i ∈ w.fs.live) (n : Nat) : Accounts limits (w.gain (.arc i) n) := by
  refine ⟨fun r => ?_, h.within, fun j hj => ?_, h.handle, h.listed, h.root, fun j hj => ?_,
    h.fresh, h.mount⟩
  · exact h.exact r
  · by_cases hji : j = i
    · exact hji ▸ hi
    · rw [gain_tokens, if_neg (by simpa using hji)] at hj
      exact h.arc j hj
  · exact h.number j hj

/-- A token that is not a charge is given away. -/
theorem lose {t : Token} (ht : ∀ r, t ≠ .charge r) : Accounts limits (w.lose t) := by
  have hle : ∀ t', (w.lose t).tokens t' ≤ w.tokens t' := fun t' => by
    exact Nat.sub_le _ _
  have hpos : ∀ t', (w.lose t).tokens t' ≠ 0 → w.tokens t' ≠ 0 := fun t' hne h0 =>
    hne (Nat.le_zero.1 (h0 ▸ hle t'))
  refine ⟨fun r => ?_, h.within, fun j hj => h.arc j (hpos _ hj), h.handle, h.listed, h.root,
    fun j hj => ?_, h.fresh, h.mount⟩
  · rw [lose_tokens, if_neg (ht r).symm]
    exact h.exact r
  obtain ⟨hlt, hnot, hone⟩ := h.number j (hpos _ hj)
  have := hle (.number j)
  exact ⟨hlt, hnot, by omega⟩

/-- A counter and the charges that are held for it change together. -/
theorem recharge {r : Resource} {n : Nat} (hfs : w'.fs = w.fs.setCounter r n)
    (hhandles : w'.handles = w.handles) (hmounted : w'.mounted = w.mounted)
    (hother : ∀ t, t ≠ .charge r → w'.tokens t = w.tokens t)
    (hn : n = w.fs.held r + w'.tokens (.charge r)) (hle : n ≤ w.fs.limit r) :
    Accounts limits w' := by
  refine h.of_refs (by rw [hfs]; cases r <;> rfl) (fun d => ?_) (by rw [hfs]; cases r <;> rfl)
    (by rw [hfs]; cases r <;> rfl) (by rw [hfs]; cases r <;> rfl) (fun t ht => hother t (ht r))
    hhandles (hmounted ▸ id) (fun r' => ?_) fun r' => ?_
  · rw [hfs, entries, setCounter_node]
    rfl
  · rw [hfs, counter_setCounter, held_setCounter]
    by_cases hr : r' = r
    · rw [if_pos hr, hr]
      exact hn
    · rw [if_neg hr, hother _ (by simpa using hr)]
      exact h.exact r'
  · rw [hfs, counter_setCounter, limit_setCounter]
    by_cases hr : r' = r
    · rw [if_pos hr, hr]
      exact hle
    · rw [if_neg hr]
      exact h.within r'

theorem reserve {r : Resource} (hlt : w.fs.counter r < w.fs.limit r) :
    Accounts limits ((w.onFs fun fs => fs.setCounter r (fs.counter r + 1)).gain (.charge r) 1) := by
  refine h.recharge rfl rfl rfl (fun t ht => ?_) ?_ hlt
  · rw [gain_tokens, if_neg ht]
    rfl
  · rw [gain_tokens, if_pos rfl, h.exact r]
    exact add_assoc ..

theorem dropCharge {r : Resource} (hr : w.tokens (.charge r) ≠ 0) :
    Accounts limits
      ((w.onFs fun fs => fs.setCounter r (fetchSub (fs.counter r))).lose (.charge r)) := by
  have hexact := h.exact r
  have hsub : fetchSub (w.fs.counter r) = w.fs.counter r - 1 := if_neg (by omega)
  refine h.recharge rfl rfl rfl (fun t ht => ?_) ?_ ?_
  · rw [lose_tokens, if_neg ht]
    rfl
  · rw [lose_tokens, if_pos rfl]
    show _ = _ + (w.tokens (.charge r) - 1)
    omega
  · rw [hsub]
    exact (Nat.sub_le _ _).trans (h.within r)

/-- Pages of an inode that exists and the charges that are held change together. -/
theorem repage (hi : i ∈ w.fs.live) (hfs : w'.fs = w.fs.modifyNode i f)
    (hhandles : w'.handles = w.handles) (hmounted : w'.mounted = w.mounted)
    (hlist : (f (w.fs.node i)).storage.list = (w.fs.node i).storage.list)
    (hother : ∀ t, t ≠ .charge .page → w'.tokens t = w.tokens t)
    (hpages : (f (w.fs.node i)).storage.pageCount + w'.tokens (.charge .page) =
      (w.fs.node i).storage.pageCount + w.tokens (.charge .page)) : Accounts limits w' := by
  have hentries : ∀ d, w'.fs.entries d = w.fs.entries d := by
    intro d
    rw [hfs]
    by_cases hd : d = i
    · subst hd
      rw [entries, modifyNode_node_self, hlist]
      rfl
    · rw [entries, modifyNode_node_of_ne _ hd]
      rfl
  have hheld : w'.fs.held .page + (w.fs.node i).storage.pageCount =
      w.fs.held .page + (f (w.fs.node i)).storage.pageCount := by
    have hrest : ∑ j ∈ w.fs.live.erase i, ((w.fs.modifyNode i f).node j).storage.pageCount =
        ∑ j ∈ w.fs.live.erase i, (w.fs.node j).storage.pageCount :=
      sum_congr rfl fun j hj => by
        rw [modifyNode_node_of_ne _ (ne_of_mem_erase hj)]
    rw [hfs]
    show ∑ j ∈ w.fs.live, ((w.fs.modifyNode i f).node j).storage.pageCount + _ =
      ∑ j ∈ w.fs.live, (w.fs.node j).storage.pageCount + _
    rw [← add_sum_erase _ _ hi, ← add_sum_erase w.fs.live _ hi, modifyNode_node_self]
    omega
  have hlive : w'.fs.live = w.fs.live := by rw [hfs]; rfl
  have hcounter : ∀ r, w'.fs.counter r = w.fs.counter r := by
    rw [hfs]
    rintro (_ | _) <;> rfl
  refine h.of_refs hlive hentries (by rw [hfs]; rfl) (by rw [hfs]; rfl) (by rw [hfs]; rfl)
    (fun t ht => hother t (ht _)) hhandles (hmounted ▸ id) ?_ fun r => hfs ▸ h.within r
  rintro (_ | _)
  · have := h.exact .page
    rw [hcounter]
    omega
  · rw [hother _ (by simp), hcounter, held, hlive]
    exact h.exact .inode

theorem takeNumber :
    Accounts limits ((w.onFs fun fs => { fs with nextIno := fs.nextIno + 1 }).gain
      (.number w.fs.nextIno) 1) := by
  have hnone : w.tokens (.number w.fs.nextIno) = 0 := by
    by_contra hne
    exact absurd (h.number _ hne).1 (lt_irrefl _)
  have hkept : ∀ t, t ≠ .number w.fs.nextIno →
      ((w.onFs fun fs => { fs with nextIno := fs.nextIno + 1 }).gain
        (.number w.fs.nextIno) 1).tokens t = w.tokens t := fun t ht => by
    rw [gain_tokens, if_neg ht]
    rfl
  refine ⟨fun r => ?_, h.within, fun j hj => ?_, h.handle, h.listed, h.root, fun j hj => ?_,
    fun j hj => (h.fresh j hj).trans (Nat.lt_succ_self _), h.mount⟩
  · exact h.exact r
  · exact h.arc j hj
  by_cases hji : j = w.fs.nextIno
  · subst hji
    refine ⟨Nat.lt_succ_self _, fun hj => absurd (h.fresh _ hj) (lt_irrefl _), ?_⟩
    rw [gain_tokens, if_pos rfl]
    exact congrArg (· + 1) hnone
  · rw [hkept _ (by simpa using hji)] at hj ⊢
    obtain ⟨hlt, hnot, hone⟩ := h.number j hj
    exact ⟨hlt.trans (Nat.lt_succ_self _), hnot, hone⟩

/-- A charge and a number have become an inode. -/
theorem addInode (hcharge : w.tokens (.charge .inode) ≠ 0) (hnumber : w.tokens (.number i) ≠ 0)
    (fileType : FileType) (parent : Nat) : Accounts limits (w.addInode i fileType parent) := by
  obtain ⟨hlt, hnot, hone⟩ := h.number i hnumber
  have htokens : ∀ t, (w.addInode i fileType parent).tokens t =
      w.tokens t - (if t = .charge .inode then 1 else 0) - (if t = .number i then 1 else 0) +
        if t = .arc i then 1 else 0 := fun t => by
    rw [World.addInode, gain_tokens, lose_tokens, lose_tokens]
    rfl
  have hnode : ∀ j ∈ w.fs.live, (w.addInode i fileType parent).fs.node j = w.fs.node j :=
    fun j hj => update_of_ne (ne_of_mem_of_not_mem hj hnot) _ _
  have hself : (w.addInode i fileType parent).fs.node i = freshInode w.fs.limits fileType parent :=
    update_self ..
  have hlive : (w.addInode i fileType parent).fs.live = insert i w.fs.live := rfl
  refine ⟨?_, h.within, fun j hj => ?_, fun j hj => mem_insert_of_mem (h.handle j hj), ?_,
    fun hm => mem_insert_of_mem (h.root hm), fun j hj => ?_, fun j hj => ?_, h.mount⟩
  · rintro (_ | _)
    · have hsum : (w.addInode i fileType parent).fs.held .page = w.fs.held .page := by
        rw [held, hlive, sum_insert hnot, hself, freshInode_pageCount, zero_add]
        exact sum_congr rfl fun j hj => by rw [hnode j hj]
      rw [hsum, htokens]
      show w.fs.counter .page = _
      simpa using h.exact .page
    · have hcard : (w.addInode i fileType parent).fs.held .inode = w.fs.held .inode + 1 :=
        card_insert_of_notMem hnot
      have := h.exact .inode
      rw [htokens]
      show w.fs.counter .inode = _
      simp
      omega
  · by_cases hji : j = i
    · exact hji ▸ mem_insert_self ..
    · rw [htokens] at hj
      exact mem_insert_of_mem (h.arc j (by simpa [hji] using hj))
  · intro d hd e he
    rcases mem_insert.1 hd with rfl | hd
    · rw [entries, hself, freshInode_list] at he
      exact absurd he not_mem_nil
    · rw [entries, hnode d hd] at he
      exact mem_insert_of_mem (h.listed d hd e he)
  · have hji : j ≠ i := by
      rintro rfl
      rw [htokens] at hj
      simp [hone] at hj
    have hkept : (w.addInode i fileType parent).tokens (.number j) = w.tokens (.number j) := by
      rw [htokens]
      simp [hji]
    rw [hkept] at hj ⊢
    obtain ⟨hlt', hnot', hone'⟩ := h.number j hj
    exact ⟨hlt', fun hj => (mem_insert.1 hj).elim hji hnot', hone'⟩
  · rcases mem_insert.1 hj with rfl | hj
    · exact hlt
    · exact h.fresh j hj

/-- An inode is gone, and its charges are held by whoever drops it. -/
theorem bury (hdrop : w.droppable i = true) : Accounts limits (w.bury i) := by
  simp only [droppable, Bool.and_eq_true, decide_eq_true_eq, beq_iff_eq, Bool.not_eq_true',
    Bool.and_eq_false_iff, beq_eq_false_iff_ne] at hdrop
  obtain ⟨⟨⟨⟨hi, harc⟩, hhandle⟩, hroot⟩, hlisted⟩ := hdrop
  have htokens : ∀ t, (w.bury i).tokens t = w.tokens t + (if t = .charge .inode then 1 else 0) +
      if t = .charge .page then (w.fs.node i).storage.pageCount else 0 := fun t => by
    rw [World.bury, gain_tokens, gain_tokens]
    rfl
  have hkept : ∀ {j}, j ∈ w.fs.live → j ≠ i → j ∈ (w.bury i).fs.live := fun hj hne =>
    mem_erase.2 ⟨hne, hj⟩
  refine ⟨?_, h.within, fun j hj => ?_, fun j hj => ?_, ?_, fun hm => ?_, fun j hj => ?_,
    fun j hj => h.fresh j (mem_of_mem_erase hj), h.mount⟩
  · rintro (_ | _)
    · have hsum : (w.fs.node i).storage.pageCount + (w.bury i).fs.held .page = w.fs.held .page :=
        add_sum_erase w.fs.live (fun j => (w.fs.node j).storage.pageCount) hi
      have := h.exact .page
      rw [htokens]
      show w.fs.counter .page = _
      simp
      omega
    · have hcard : (w.bury i).fs.held .inode + 1 = w.fs.held .inode := card_erase_add_one hi
      have := h.exact .inode
      rw [htokens]
      show w.fs.counter .inode = _
      simp
      omega
  · exact hkept (h.arc j hj) fun he => hj (he ▸ harc)
  · exact hkept (h.handle j hj) fun he => hj (he ▸ hhandle)
  · intro d hd e he
    have hd := mem_of_mem_erase hd
    exact hkept (h.listed d hd e he) (hlisted d hd e he)
  · rcases hroot with hnot | hne
    · exact absurd (hnot.symm.trans hm) (by simp)
    · exact hkept (h.root hm) hne.symm
  · obtain ⟨hlt, hnot, hone⟩ := h.number j hj
    exact ⟨hlt, fun hj => hnot (mem_of_mem_erase hj), hone⟩

/-- References kept between operations. -/
theorem setHandle (n : Nat) (hi : n ≠ 0 → i ∈ w.fs.live) :
    Accounts limits { w with handles := update w.handles i n } := by
  refine ⟨h.exact, h.within, h.arc, fun j hj => ?_, h.listed, h.root, h.number, h.fresh, h.mount⟩
  by_cases hji : j = i
  · subst hji
    exact hi (by simpa using hj)
  · exact h.handle j (by simpa [hji] using hj)

end Accounts

/-! ## Sharing -/

section Shares

variable {w : World} {rest m : Token → Nat} {t : Token}

theorem owns (ho : w.tokens = rest + m) (ht : m t ≠ 0) : w.tokens t ≠ 0 := by
  rw [ho, Pi.add_apply]
  omega

theorem gain_own (ho : w.tokens = rest + m) (n : Nat) :
    (w.gain t n).tokens = rest + (m + Pi.single t n) := by
  rw [gain, ho, add_assoc]

theorem lose_own (ho : w.tokens = rest + (m + Pi.single t 1)) : (w.lose t).tokens = rest + m := by
  funext t'
  rw [lose_tokens, ho, Pi.add_apply, Pi.add_apply, Pi.add_apply, Pi.single_apply]
  omega

theorem single_ne_zero (m : Token → Nat) (t : Token) : (m + Pi.single t 1 : Token → Nat) t ≠ 0 := by
  rw [Pi.add_apply, Pi.single_eq_same]
  exact Nat.succ_ne_zero _

end Shares

end Krust.Memfs
