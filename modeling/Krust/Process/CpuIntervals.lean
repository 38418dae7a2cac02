import Mathlib.Data.Finset.Card
import Krust.Lib.Runs
import Krust.Process.Accounting

/-!
# CPU accounts and the time that passed

An account only keeps sums and the time of its last settlement.  Here it is compared with what
happened: an instant is the nanosecond after it, and belongs to the mode in which the task was
running then, if it was running, which the calls up to that instant tell.  `spent` counts these
instants.

As long as the sums do not saturate, a snapshot shows exactly these counts, and when the accounts of
a tree of processes are reaped from the leaves up, the root ends up with the counts of all its
descendants (`cpu_time_exact`).
-/

set_option autoImplicit false

namespace Krust.Process

open Lib List Option CpuAccounting

/-! ## Calls -/

inductive CpuCall
  | resume
  | pause
  | setMode (mode : TaskMode)
  | snapshot
  deriving DecidableEq, Repr

structure CpuEvent where
  call : CpuCall
  now : Nat
  deriving DecidableEq, Repr

namespace CpuAccounting

def apply (account : CpuAccounting) (e : CpuEvent) : CpuAccounting :=
  match e.call with
  | .resume => account.resume e.now
  | .pause => account.pause e.now
  | .setMode mode => account.setMode mode e.now
  | .snapshot => account

def after (events : List CpuEvent) : CpuAccounting := runFrom apply new events

end CpuAccounting

/-! ## Instants -/

def running (calls : List CpuCall) : Bool :=
  calls.foldl (fun r call =>
    match call with
    | .resume => true
    | .pause => false
    | _ => r) false

def modeAfter (calls : List CpuCall) : TaskMode :=
  calls.foldl (fun mode call =>
    match call with
    | .setMode mode => mode
    | _ => mode) .kernel

def RunsIn (calls : List CpuCall) (mode : TaskMode) : Prop :=
  running calls = true ∧ modeAfter calls = mode

instance (calls : List CpuCall) (mode : TaskMode) : Decidable (RunsIn calls mode) :=
  inferInstanceAs (Decidable (_ ∧ _))

/-- The calls that have been made at an instant. -/
def callsUpTo (events : List CpuEvent) (t : Nat) : List CpuCall :=
  (events.filter fun e => e.now ≤ t).map (·.call)

/-- How many of the instants before `now` the task was running in this mode. -/
def spent (events : List CpuEvent) (mode : TaskMode) (now : Nat) : Nat :=
  ((Finset.range now).filter fun t => RunsIn (callsUpTo events t) mode).card

variable {now t : Nat} {events : List CpuEvent}

theorem callsUpTo_of_le (h : ∀ e ∈ events, e.now ≤ t) :
    callsUpTo events t = events.map (·.call) := by
  rw [callsUpTo, filter_eq_self.2 fun e he => decide_eq_true (h e he)]

theorem callsUpTo_concat_of_lt {e : CpuEvent} (h : t < e.now) :
    callsUpTo (events ++ [e]) t = callsUpTo events t := by
  rw [callsUpTo, filter_append, filter_singleton, decide_eq_false (not_le.2 h),
    cond_false, append_nil, callsUpTo]

/-- From the last call on, all the time is spent in one way. -/
theorem spent_add (events : List CpuEvent) (mode : TaskMode) (h : ∀ e ∈ events, e.now ≤ t)
    (n : Nat) :
    spent events mode (t + n) =
      spent events mode t + if RunsIn (events.map (·.call)) mode then n else 0 := by
  induction n with
  | zero => rw [ite_self]; rfl
  | succ n ih =>
    have hcalls : callsUpTo events (t + n) = events.map (·.call) :=
      callsUpTo_of_le fun e he => (h e he).trans (Nat.le_add_right t n)
    rw [spent] at ih
    rw [← Nat.add_assoc, spent, Finset.range_add_one, Finset.filter_insert, hcalls]
    split
    · rename_i hin
      rw [Finset.card_insert_of_notMem (by simp), ih, if_pos hin]
      omega
    · rename_i hout
      rw [ih, if_neg hout]

/-- A call changes nothing about the time before it. -/
theorem spent_concat (events : List CpuEvent) (e : CpuEvent) (mode : TaskMode) :
    spent (events ++ [e]) mode e.now = spent events mode e.now := by
  rw [spent]
  congr 1
  refine Finset.filter_congr fun t ht => ?_
  rw [callsUpTo_concat_of_lt (Finset.mem_range.1 ht)]

/-! ## What an account knows -/

def CpuUsage.ns (usage : CpuUsage) : TaskMode → Nat
  | .user => usage.userNs
  | .kernel => usage.kernelNs

variable {usage other : CpuUsage}

theorem CpuUsage.ext_ns (h : ∀ mode, usage.ns mode = other.ns mode) :
    usage = other := by
  obtain ⟨userNs, kernelNs⟩ := usage
  obtain ⟨userNs', kernelNs'⟩ := other
  have huser : userNs = userNs' := h .user
  have hkernel : kernelNs = kernelNs' := h .kernel
  rw [huser, hkernel]

theorem saturatingAdd_eq {a b : Nat} (h : a + b < 2 ^ 64) : saturatingAdd a b = a + b :=
  min_eq_left (Nat.le_sub_one_of_lt h)

variable {mode : TaskMode}

namespace CpuAccounting

variable (account : CpuAccounting)

/-- The time in one mode, the time since the last settlement included. -/
def accrued (mode : TaskMode) (now : Nat) : Nat :=
  account.usage.ns mode + if account.mode = mode then account.elapsed now else 0

/-- **A snapshot shows what has accrued**, if it does not saturate. -/
theorem ns_snapshot (h : account.accrued mode now < 2 ^ 64) :
    (account.snapshot now).ns mode = account.accrued mode now := by
  obtain ⟨usage, children, current, _ | start⟩ := account
  · rw [accrued, elapsed, elim_none, ite_self]
    rfl
  rw [accrued] at h ⊢
  by_cases hmode : current = mode
  · subst hmode
    rw [← saturatingAdd_eq h]
    cases current <;> rfl
  · cases current <;> cases mode <;> first | rfl | exact absurd rfl hmode

theorem mode_resume (now : Nat) : (account.resume now).mode = account.mode := by
  rw [resume]
  split <;> rfl

theorem running_after (events : List CpuEvent) :
    (after events).runningSince.isSome = running (events.map (·.call)) ∧
      (after events).mode = modeAfter (events.map (·.call)) := by
  induction events using reverseRecOn with
  | nil => exact ⟨rfl, rfl⟩
  | append_singleton events e ih =>
    rw [after, runFrom_concat, map_append, running, modeAfter, foldl_append, foldl_append,
      ← running, ← modeAfter, ← ih.1, ← ih.2]
    obtain ⟨call, now⟩ := e
    cases call with
    | resume =>
      refine ⟨?_, mode_resume _ now⟩
      rw [apply, resume]
      cases h : (runFrom apply new events).runningSince with
      | none => rfl
      | some start => exact congrArg isSome h
    | pause => exact ⟨rfl, rfl⟩
    | setMode mode => exact ⟨isSome_map, rfl⟩
    | snapshot => exact ⟨rfl, rfl⟩

variable {events : List CpuEvent}

theorem accrued_add (h : ∀ start, account.runningSince = some start → start ≤ t) (mode : TaskMode)
    (n : Nat) :
    account.accrued mode (t + n) = account.accrued mode t +
      if account.runningSince.isSome = true ∧ account.mode = mode then n else 0 := by
  rw [accrued, accrued, elapsed, elapsed]
  rcases hstart : account.runningSince with _ | start
  · simp
  have hle := h start hstart
  by_cases hmode : account.mode = mode
  · simp only [elim_some, isSome_some, hmode, if_true, and_self]
    omega
  · simp [hmode]

/-- **A call loses no time and adds none.** -/
theorem accrued_apply (e : CpuEvent)
    (h : ∀ start, account.runningSince = some start → start ≤ e.now)
    (hfits : account.accrued mode e.now < 2 ^ 64) :
    (account.apply e).accrued mode e.now = account.accrued mode e.now ∧
      ∀ start, (account.apply e).runningSince = some start → start ≤ e.now := by
  obtain ⟨call, now⟩ := e
  have hsettled := account.ns_snapshot hfits
  cases call with
  | resume =>
    change (account.resume now).accrued mode now = _ ∧ ∀ start,
      (account.resume now).runningSince = some start → start ≤ now
    rw [resume]
    split_ifs with hnone
    · rw [isNone_iff_eq_none] at hnone
      simp [accrued, elapsed, hnone]
    · exact ⟨rfl, h⟩
  | pause =>
    refine ⟨?_, by rintro _ ⟨⟩⟩
    rw [apply, pause, accrued, elapsed, elim_none, ite_self]
    exact hsettled
  | setMode mode' =>
    have hstart : ∀ start, (account.setMode mode' now).runningSince = some start → start = now := by
      intro start hstart
      obtain ⟨_, -, hnow⟩ := map_eq_some_iff.1 hstart
      exact hnow.symm
    refine ⟨?_, fun start hs => (hstart start hs).le⟩
    have helapsed : (account.setMode mode' now).elapsed now = 0 := by
      rw [elapsed]
      cases hs : (account.setMode mode' now).runningSince with
      | none => rfl
      | some start => rw [hstart start hs]; exact Nat.sub_self now
    rw [apply, accrued, helapsed, ite_self]
    exact hsettled
  | snapshot => exact ⟨rfl, h⟩

/-- **An account accrues the time that is spent.**  The induction is on the calls: up to the time of
the last one the sums are those before it, and from there on all the time is spent in one way. -/
theorem accrued_after (hsorted : events.Pairwise fun e e' => e.now ≤ e'.now) :
    ∀ {now : Nat}, (∀ e ∈ events, e.now ≤ now) → (∀ mode, spent events mode now < 2 ^ 64) →
      (∀ mode, (after events).accrued mode now = spent events mode now) ∧
        ∀ start, (after events).runningSince = some start → start ≤ now := by
  induction events using reverseRecOn with
  | nil =>
    refine fun _ _ => ⟨fun mode => ?_, nofun⟩
    have hnone : ∀ t, ¬ RunsIn (callsUpTo [] t) mode := fun t h => nomatch h.1
    rw [spent, Finset.filter_false_of_mem fun t _ => hnone t]
    cases mode <;> rfl
  | append_singleton events e ih =>
    intro now hnow hfits
    obtain ⟨hsorted, -, hlast⟩ := pairwise_append.1 hsorted
    have hbefore : ∀ e' ∈ events, e'.now ≤ e.now := fun e' he' => hlast e' he' e mem_cons_self
    have hall : ∀ e' ∈ events ++ [e], e'.now ≤ e.now :=
      forall_mem_append.2 ⟨hbefore, forall_mem_singleton.2 (le_refl _)⟩
    obtain ⟨n, rfl⟩ := Nat.exists_eq_add_of_le (hnow e (by simp))
    have hspent : ∀ mode, spent (events ++ [e]) mode (e.now + n) = spent events mode e.now +
        if RunsIn ((events ++ [e]).map (·.call)) mode then n else 0 := by
      intro mode
      rw [spent_add _ mode hall, spent_concat]
    have hfits' : ∀ mode, spent events mode e.now < 2 ^ 64 := fun mode =>
      Nat.lt_of_le_of_lt (Nat.le_add_right _ _) (hspent mode ▸ hfits mode)
    obtain ⟨hold, hsince⟩ := ih hsorted hbefore hfits'
    have hcall := fun mode => (after events).accrued_apply e hsince (hold mode ▸ hfits' mode)
    have hafter : after (events ++ [e]) = (after events).apply e := runFrom_concat _ _ _ _
    rw [← hafter] at hcall
    refine ⟨fun mode => ?_, fun start h => ((hcall .user).2 start h).trans (Nat.le_add_right _ _)⟩
    rw [accrued_add _ (hcall mode).2, (hcall mode).1, hold, hspent, (running_after _).1,
      (running_after _).2]
    rfl

/-- **A snapshot shows the time that was spent in each mode.** -/
theorem snapshot_after (hsorted : events.Pairwise fun e e' => e.now ≤ e'.now)
    (hnow : ∀ e ∈ events, e.now ≤ now) (hfits : ∀ mode, spent events mode now < 2 ^ 64) :
    (after events).snapshot now = ⟨spent events .user now, spent events .kernel now⟩ := by
  have haccrued := (accrued_after hsorted hnow hfits).1
  refine CpuUsage.ext_ns fun mode => ?_
  rw [ns_snapshot _ (haccrued mode ▸ hfits mode), haccrued]
  cases mode <;> rfl

end CpuAccounting

/-! ## Trees of processes -/

/-- A process with the calls of its account, when it is reaped, and its children, in the order in
which it reaps them. -/
inductive ProcessTree
  | node (events : List CpuEvent) (reapedAt : Nat) (children : List ProcessTree)

namespace ProcessTree

def reapedAt : ProcessTree → Nat
  | node _ reapedAt _ => reapedAt

mutual

/-- The account of a process that has reaped its children, which have reaped theirs before. -/
def account : ProcessTree → CpuAccounting
  | node events _ children => reapAll (.after events) children

/-- The children are reaped one after the other. -/
def reapAll (parent : CpuAccounting) : List ProcessTree → CpuAccounting
  | [] => parent
  | child :: children => reapAll (parent.reap child.account child.reapedAt) children

end

mutual

/-- The time of all processes below, in one mode. -/
def descendants (mode : TaskMode) : ProcessTree → Nat
  | node _ _ children => forest mode children

/-- The time of these processes and of all below them. -/
def forest (mode : TaskMode) : List ProcessTree → Nat
  | [] => 0
  | node events reapedAt grandchildren :: children =>
    spent events mode reapedAt + forest mode grandchildren + forest mode children

end

mutual

/-- Every process calls its account in the order of time, and is reaped after its last call. -/
def Ordered : ProcessTree → Prop
  | node events reapedAt children =>
    (events.Pairwise fun e e' => e.now ≤ e'.now) ∧ (∀ e ∈ events, e.now ≤ reapedAt) ∧
      OrderedAll children

def OrderedAll : List ProcessTree → Prop
  | [] => True
  | child :: children => child.Ordered ∧ OrderedAll children

end

open CpuAccounting

theorem children_after (events : List CpuEvent) : (after events).children = {} := by
  refine runFrom_induction (P := fun account : CpuAccounting => account.children = {}) rfl ?_ events
  rintro account ⟨call, now⟩ h
  cases call with
  | resume =>
    change (account.resume now).children = {}
    rw [resume]
    split <;> exact h
  | pause => exact h
  | setMode mode => exact h
  | snapshot => exact h

theorem ns_children_after (events : List CpuEvent) (mode : TaskMode) :
    (after events).children.ns mode = 0 := by
  rw [children_after]
  cases mode <;> rfl

theorem ns_add {mode : TaskMode} (h : usage.ns mode + other.ns mode < 2 ^ 64) :
    (usage.add other).ns mode = usage.ns mode + other.ns mode := by
  cases mode with
  | user => exact saturatingAdd_eq h
  | kernel => exact saturatingAdd_eq h

theorem snapshot_reapAll (children : List ProcessTree) : ∀ (parent : CpuAccounting) (now : Nat),
    (reapAll parent children).snapshot now = parent.snapshot now := by
  induction children with
  | nil =>
    intro parent now
    rw [reapAll]
  | cons child children ih =>
    intro parent now
    rw [reapAll, ih]
    rfl

/-- **Reaping moves the time of all processes to their parent.**  A child has reaped its own
children before, so the same holds of them. -/
theorem children_reapAll (parent : CpuAccounting) : ∀ (children : List ProcessTree),
    OrderedAll children →
    (∀ mode, parent.children.ns mode + forest mode children < 2 ^ 64) →
    ∀ mode, (reapAll parent children).children.ns mode =
      parent.children.ns mode + forest mode children
  | [], _, _, mode => by rw [reapAll, forest, Nat.add_zero]
  | node events reapedAt grandchildren :: children, hordered, hfits, mode => by
    obtain ⟨⟨hsorted, hlast, hgrand⟩, hrest⟩ := hordered
    simp only [forest] at hfits
    -- What the child brings along.
    have htime : (reapAll (after events) grandchildren).snapshot reapedAt =
        ⟨spent events .user reapedAt, spent events .kernel reapedAt⟩ := by
      rw [snapshot_reapAll]
      refine snapshot_after hsorted hlast fun mode => ?_
      have := hfits mode
      omega
    have htime' : ∀ mode, (⟨spent events .user reapedAt, spent events .kernel reapedAt⟩ :
        CpuUsage).ns mode = spent events mode reapedAt := by
      intro mode
      cases mode <;> rfl
    have hbelow : ∀ mode, (reapAll (after events) grandchildren).children.ns mode =
        forest mode grandchildren := by
      intro mode
      rw [children_reapAll (after events) grandchildren hgrand, ns_children_after, Nat.zero_add]
      intro mode
      have := hfits mode
      rw [ns_children_after]
      omega
    have hreaped : ∀ mode, (parent.reap (reapAll (after events) grandchildren) reapedAt).children.ns
        mode = parent.children.ns mode + spent events mode reapedAt +
          forest mode grandchildren := by
      intro mode
      have hmode := hfits mode
      have hown : (parent.children.add ((reapAll (after events) grandchildren).snapshot
          reapedAt)).ns mode = parent.children.ns mode + spent events mode reapedAt := by
        rw [htime, ns_add (by rw [htime']; omega), htime']
      rw [reap, ns_add (by rw [hbelow]; omega), hown, hbelow]
    rw [reapAll, account, ProcessTree.reapedAt, children_reapAll _ children hrest, hreaped, forest]
    · omega
    · intro mode
      have hmode := hfits mode
      rw [hreaped]
      omega

end ProcessTree

open ProcessTree

/-- **CPU time is exact.**  As long as the total is below `2^64`, a snapshot shows the instants that
were spent running in each mode, and reaping a tree of processes from the leaves up leaves the time
of all descendants in the root. -/
theorem cpu_time_exact :
    (∀ (events : List CpuEvent) (now : Nat), (events.Pairwise fun e e' => e.now ≤ e'.now) →
      (∀ e ∈ events, e.now ≤ now) → spent events .user now + spent events .kernel now < 2 ^ 64 →
      (after events).snapshot now =
        ⟨spent events .user now, spent events .kernel now⟩) ∧
    (∀ tree : ProcessTree, tree.Ordered →
      tree.descendants .user + tree.descendants .kernel < 2 ^ 64 →
      tree.account.children = ⟨tree.descendants .user, tree.descendants .kernel⟩) := by
  refine ⟨fun events now hsorted hnow htotal => ?_, ?_⟩
  · refine snapshot_after hsorted hnow fun mode => ?_
    cases mode <;> omega
  rintro ⟨events, reapedAt, children⟩ hordered htotal
  simp only [descendants] at htotal ⊢
  have hreaped := children_reapAll (.after events) children hordered.2.2 (by
    intro mode
    rw [ns_children_after]
    cases mode <;> omega)
  refine CpuUsage.ext_ns fun mode => ?_
  rw [account, hreaped, ns_children_after, Nat.zero_add]
  cases mode <;> rfl

def nestedCalls : List CpuEvent :=
  [⟨.resume, 100⟩, ⟨.setMode .user, 110⟩, ⟨.setMode .kernel, 130⟩, ⟨.setMode .kernel, 135⟩,
    ⟨.setMode .kernel, 140⟩, ⟨.setMode .user, 150⟩, ⟨.pause, 160⟩]

/-- Two children, one of which has waited for a child of its own. -/
def family : ProcessTree :=
  .node [⟨.resume, 10⟩] 300 [.node nestedCalls 200 [.node nestedCalls 180 []],
    .node [⟨.resume, 150⟩] 250 []]

theorem cpu_time_exact_family :
    (after nestedCalls).snapshot 180 =
        ⟨spent nestedCalls .user 180, spent nestedCalls .kernel 180⟩ ∧
      family.account.children = ⟨family.descendants .user, family.descendants .kernel⟩ := by
  refine ⟨cpu_time_exact.1 nestedCalls 180 (by decide) (by decide) (by decide +kernel),
    cpu_time_exact.2 family ?_ ?_⟩
  · simp only [family, ProcessTree.Ordered, ProcessTree.OrderedAll]
    decide
  · simp only [family, descendants, forest]
    decide +kernel

end Krust.Process
