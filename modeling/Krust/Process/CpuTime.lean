import Krust.Process.Moves
import Mathlib.Algebra.Order.BigOperators.Group.List
import Mathlib.Algebra.Order.Ring.Nat

/-!
# CPU time is conserved

At any moment only the account of the task with the current pid accrues time, so what the accounts
of all tasks show together is no more than the time that has passed since accounting started.  The
invariant (`Budget`) is about what is banked: it fits into the time up to every later reading of the
clock, and into the time up to the start of the account that is accruing.

The reading of the clock with which accounting started is `clock 0`.
-/

set_option autoImplicit false

namespace Krust.Process

open Lib List Kernel Process.Task

def Kernel.banked (s : Kernel) : Nat := (s.tasks.map fun t => t.cpuTime.banked).sum

/-- **What is banked fits into the time that has passed**, and into the time before the account that
accrues was started. -/
structure Budget (clock : Nat → Nat) (s : Kernel) : Prop where
  distinct : (s.tasks.map pid).Nodup
  accruing : ∀ t ∈ s.tasks, ∀ start, t.cpuTime.runningSince = some start →
    t.pid = s.currentPid ∧ s.banked + clock 0 ≤ start
  now : s.banked + clock 0 ≤ clock s.reads

variable {index n : Nat} {child : Task}

namespace Budget

variable {clock : Nat → Nat} {R : Task → Task → Prop} {s s' : Kernel}

theorem congr (hs : Budget clock s)
    (htasks : s'.tasks.map (fun t => (t.pid, t.cpuTime)) = s.tasks.map fun t => (t.pid, t.cpuTime))
    (hpid : s'.currentPid = s.currentPid) (hreads : s'.reads = s.reads) : Budget clock s' := by
  have hpids : s'.tasks.map pid = s.tasks.map pid := by
    have h := congrArg (map Prod.fst) htasks
    rwa [map_map, map_map] at h
  have hbanked : s'.banked = s.banked := by
    have h := congrArg (fun l => (l.map fun p : Nat × CpuAccounting => p.2.banked).sum) htasks
    rwa [map_map, map_map] at h
  have hold : ∀ t' ∈ s'.tasks, ∃ t ∈ s.tasks, t'.pid = t.pid ∧ t'.cpuTime = t.cpuTime := by
    intro t' ht'
    have hmem : (t'.pid, t'.cpuTime) ∈ s'.tasks.map fun t => (t.pid, t.cpuTime) :=
      mem_map_of_mem ht'
    rw [htasks, mem_map] at hmem
    obtain ⟨t, ht, h⟩ := hmem
    exact ⟨t, ht, (congrArg Prod.fst h).symm, (congrArg Prod.snd h).symm⟩
  refine ⟨hpids ▸ hs.distinct, fun t' ht' start hstart => ?_, ?_⟩
  · obtain ⟨t, ht, hpid', hcpu⟩ := hold t' ht'
    rw [hpid', hpid, hbanked]
    exact hs.accruing t ht start (hcpu ▸ hstart)
  · rw [hbanked, hreads]
    exact hs.now

/-! ## One account -/

variable {i : Nat} {t : Task}

theorem sum_split {l : List Task} (g : Task → Nat) (ht : l[i]? = some t) :
    (l.map g).sum = g t + ((l.eraseIdx i).map g).sum := by
  obtain ⟨hlt, rfl⟩ := List.getElem?_eq_some_iff.1 ht
  rw [← ((getElem_cons_eraseIdx_perm hlt).map g).sum_eq, map_cons, sum_cons]

theorem banked_split (ht : s.tasks[i]? = some t) :
    s.banked = t.cpuTime.banked + ((s.tasks.eraseIdx i).map fun t => t.cpuTime.banked).sum :=
  sum_split _ ht

theorem banked_modifyAt (ht : s.tasks[i]? = some t) (f : Task → Task) :
    (s.modifyAt i f).banked + t.cpuTime.banked = s.banked + (f t).cpuTime.banked := by
  have ht' : (s.modifyAt i f).tasks[i]? = some (f t) := by
    rw [getElem?_modifyAt, if_pos rfl, ht, Option.map_some]
  rw [banked_split ht, banked_split ht', modifyAt, eraseIdx_modify_of_eq]
  omega

theorem not_accruing (hs : Budget clock s) {j : Nat} {u : Task} (ht : s.tasks[i]? = some t)
    (hu : s.tasks[j]? = some u) (hne : i ≠ j) {start : Nat}
    (hstart : u.cpuTime.runningSince = some start) (now : Nat) : t.cpuTime.elapsed now = 0 := by
  rcases hrunning : t.cpuTime.runningSince with _ | start'
  · rw [CpuAccounting.elapsed, hrunning, Option.elim_none]
  have htpid := (hs.accruing t (mem_of_getElem? ht) _ hrunning).1
  have hupid := (hs.accruing u (mem_of_getElem? hu) _ hstart).1
  have hi := position_eq hs.distinct ht
  have hj := position_eq hs.distinct hu
  rw [htpid] at hi
  rw [hupid] at hj
  exact absurd (hi.symm.trans hj) hne

section Account

variable (hclock : Monotone clock)
include hclock

/-- **What has accrued fits into the time as well.** -/
theorem accrued_le (hs : Budget clock s) (ht : t ∈ s.tasks) (hn : s.reads ≤ n) :
    s.banked + t.cpuTime.elapsed (clock n) + clock 0 ≤ clock n := by
  have hnow := hs.now.trans (hclock hn)
  rcases hrunning : t.cpuTime.runningSince with _ | start
  · rw [CpuAccounting.elapsed, hrunning, Option.elim_none]
    omega
  have hsince := (hs.accruing t ht start hrunning).2
  rw [CpuAccounting.elapsed, hrunning, Option.elim_some]
  omega

/-- **One account is changed with a reading of the clock**: it banks what has accrued, and it
accrues from now on, or as before if it banks nothing. -/
theorem account (hs : Budget clock s) (ht : s.tasks[i]? = some t)
    {f : Task → Task} (hpid : (f t).pid = t.pid)
    (hbanked : (f t).cpuTime.banked ≤ t.cpuTime.banked + t.cpuTime.elapsed (clock s.reads))
    (hsince : ∀ start, (f t).cpuTime.runningSince = some start → t.pid = s.currentPid ∧
      (start = clock s.reads ∨
        t.cpuTime.runningSince = some start ∧ (f t).cpuTime.banked = t.cpuTime.banked)) :
    Budget clock { s.modifyAt i f with reads := s.reads + 1 } := by
  have hsum := banked_modifyAt ht f
  have hle := hs.accrued_le hclock (mem_of_getElem? ht) (le_refl s.reads)
  refine ⟨?_, fun t' ht' start hstart => ?_, ?_⟩
  · rw [map_modifyAt s i fun t0 ht0 => Option.some.inj (ht.symm.trans ht0) ▸ hpid]
    exact hs.distinct
  · show t'.pid = s.currentPid ∧ (s.modifyAt i f).banked + clock 0 ≤ start
    obtain ⟨j, hj⟩ := mem_iff_getElem?.1 ht'
    rcases getElem?_modifyAt_cases hj with ⟨hne, hj⟩ | ⟨rfl, t0, ht0, rfl⟩
    · have helapsed := hs.not_accruing ht hj hne hstart (clock s.reads)
      obtain ⟨hcurrent, hstart'⟩ := hs.accruing t' (mem_of_getElem? hj) start hstart
      exact ⟨hcurrent, by omega⟩
    obtain rfl : t0 = t := Option.some.inj (ht0.symm.trans ht)
    obtain ⟨hcurrent, rfl | ⟨hrunning, heq⟩⟩ := hsince start hstart
    · exact ⟨hpid.trans hcurrent, by omega⟩
    · have hstart' := (hs.accruing t0 (mem_of_getElem? ht) start hrunning).2
      exact ⟨hpid.trans hcurrent, by omega⟩
  · show (s.modifyAt i f).banked + clock 0 ≤ clock (s.reads + 1)
    have hmono : clock s.reads ≤ clock (s.reads + 1) := hclock (Nat.le_succ _)
    omega

theorem modifyTaskNow (hs : Budget clock s) (pid : Nat) {f : Nat → Task → Task}
    (hf : ∀ now t, s.taskByPid pid = some t → (f now t).pid = t.pid ∧
      (f now t).cpuTime.banked ≤ t.cpuTime.banked + t.cpuTime.elapsed now ∧
      ∀ start, (f now t).cpuTime.runningSince = some start → t.pid = s.currentPid ∧
        (start = now ∨
          t.cpuTime.runningSince = some start ∧ (f now t).cpuTime.banked = t.cpuTime.banked)) :
    Budget clock (s.modifyTaskNow clock pid f) := by
  rcases s.modifyTaskNow_cases clock pid f with ⟨-, h⟩ | ⟨t, ht, h⟩ <;> rw [h]
  · exact hs
  · obtain ⟨hpid, hbanked, hsince⟩ := hf (clock s.reads) t ht
    exact hs.account hclock ht hpid hbanked hsince

/-! ## Switches -/

/-- Between two tasks no account accrues. -/
structure Stopped (clock : Nat → Nat) (now : Nat) (s : Kernel) : Prop where
  distinct : (s.tasks.map pid).Nodup
  none_accruing : ∀ t ∈ s.tasks, t.cpuTime.runningSince = none
  banked : s.banked + clock 0 ≤ now

theorem stop (hs : Budget clock s) :
    Stopped clock (clock s.reads) (s.modifyTask s.currentPid (pause (clock s.reads))) where
  distinct := by
    rw [modifyTask, map_modifyAt (f := pause _) s _ fun _ _ => rfl]
    exact hs.distinct
  none_accruing := by
    intro t ht
    obtain ⟨j, hj⟩ := mem_iff_getElem?.1 ht
    rcases getElem?_modifyAt_cases hj with ⟨hne, hj⟩ | ⟨-, t0, -, rfl⟩
    · refine Option.eq_none_iff_forall_ne_some.2 fun start hstart => hne ?_
      rw [← (hs.accruing t (mem_of_getElem? hj) start hstart).1]
      exact position_eq hs.distinct hj
    · rfl
  banked := by
    cases ht : s.tasks[s.position s.currentPid]? with
    | none =>
      rw [banked, modifyTask, modifyAt,
        modify_eq_self (getElem?_eq_none_iff.1 ht)]
      exact hs.now
    | some t =>
      have hsum := banked_modifyAt ht (pause (clock s.reads))
      have hle := hs.accrued_le hclock (mem_of_getElem? ht) (le_refl s.reads)
      have hpause : (t.pause (clock s.reads)).cpuTime.banked ≤ _ :=
        t.cpuTime.banked_pause_le (clock s.reads)
      rw [modifyTask]
      omega

theorem Stopped.start (hs : Stopped clock (clock s.reads) s) (nextPid : Nat) :
    Budget clock { s.modifyTask nextPid (resume (clock s.reads)) with
      reads := s.reads + 1, currentPid := nextPid } := by
  have hbanked : (s.modifyTask nextPid (resume (clock s.reads))).banked = s.banked := by
    exact congrArg sum (map_modifyAt s _ fun t _ => t.cpuTime.banked_resume _)
  have hstarted : ∀ t ∈ (s.modifyTask nextPid (resume (clock s.reads))).tasks,
      ∀ start, t.cpuTime.runningSince = some start → t.pid = nextPid ∧ start = clock s.reads := by
    intro t ht start hstart
    obtain ⟨j, hj⟩ := mem_iff_getElem?.1 ht
    rcases getElem?_modifyAt_cases hj with ⟨-, hj⟩ | ⟨rfl, t0, ht0, rfl⟩
    · rw [hs.none_accruing t (mem_of_getElem? hj)] at hstart
      cases hstart
    have hnone := hs.none_accruing t0 (mem_of_getElem? ht0)
    change (t0.cpuTime.resume (clock s.reads)).runningSince = some start at hstart
    rw [CpuAccounting.resume, hnone] at hstart
    exact ⟨pid_of_taskByPid (t := t0) ht0, (Option.some.inj hstart).symm⟩
  refine ⟨?_, fun t ht start hstart => ?_, ?_⟩
  · rw [modifyTask, map_modifyAt (f := resume _) s _ fun _ _ => rfl]
    exact hs.distinct
  · obtain ⟨hpid, rfl⟩ := hstarted t ht start hstart
    exact ⟨hpid, hbanked ▸ hs.banked⟩
  · exact (hbanked ▸ hs.banked).trans (hclock (Nat.le_succ _))

/-- **A switch stops the account of the old task and starts that of the new one.** -/
theorem switchTo (hs : Budget clock s) (next newPid coreId : Nat) :
    Budget clock (s.switchTo clock next newPid coreId) := by
  have hleave : Budget clock (s.leaveFor next) := by
    rcases s.leaveFor_cases next with ⟨h, -⟩ | ⟨old, -, -, h⟩
    · rw [h]
      exact hs.congr rfl rfl rfl
    rw [h]
    refine hs.congr (map_modifyAt s old fun t _ => ?_) rfl rfl
    rw [yield]
    split <;> rfl
  have hstart := Stopped.start hclock (s := (s.leaveFor next).modifyTask _ (pause _))
    (hleave.stop hclock)
    newPid
  exact hstart.congr (map_modifyAt (f := setState .running) _ next fun _ _ => rfl) rfl rfl

/-! ## Moves, forks and reaped children -/

theorem move (hs : Budget clock s) (h : Move clock R s s') :
    Budget clock s' := by
  cases h with
  | aside h => exact hs.congr (by rw [h.tasks]) h.currentPid h.reads
  | edit i f hf =>
    exact hs.congr (map_modifyAt s i fun t ht => by rw [(hf t ht).1.pid, (hf t ht).2]) rfl rfl
  | pause pid f hf =>
    refine hs.modifyTaskNow hclock pid fun now t ht => ⟨(hf now t ht).1.pid, ?_, ?_⟩ <;>
      rw [(hf now t ht).2]
    · exact t.cpuTime.banked_pause_le now
    · rintro start ⟨⟩
  | resume =>
    refine hs.modifyTaskNow hclock _ fun now t ht => ⟨rfl, ?_, fun start hstart => ?_⟩
    · exact Nat.le_add_right_of_le (Nat.le_of_eq (t.cpuTime.banked_resume now))
    refine ⟨pid_of_taskByPid ht, ?_⟩
    change (t.cpuTime.resume now).runningSince = some start at hstart
    rw [CpuAccounting.resume] at hstart
    split at hstart
    · exact .inl (Option.some.inj hstart).symm
    · exact .inr ⟨hstart, t.cpuTime.banked_resume now⟩
  | setMode mode =>
    refine hs.modifyTaskNow hclock _ fun now t ht =>
      ⟨rfl, t.cpuTime.banked_pause_le now, fun start hstart => ⟨pid_of_taskByPid ht, .inl ?_⟩⟩
    obtain ⟨_, -, h⟩ := Option.map_eq_some_iff.1 hstart
    exact h.symm
  | clear => exact hs.congr rfl rfl rfl
  | locate => exact hs.congr rfl rfl rfl
  | switch next task coreId => exact hs.switchTo hclock next task.pid coreId

theorem moves (hs : Budget clock s) (h : Moves clock R s s') :
    Budget clock s' := by
  induction h with
  | refl => exact hs
  | tail _ hmove ih => exact ih.move hclock hmove

end Account

theorem addTask (hs : Budget clock s) {task : Task} (hpid : task.pid ∉ s.tasks.map pid)
    (hcpu : task.cpuTime = .new) : Budget clock (s.addTask task) := by
  have hbanked : (s.addTask task).banked = s.banked := by
    rw [Kernel.banked, Kernel.addTask, map_append, sum_append, map_singleton, hcpu]
    rfl
  have hold : ∀ t ∈ (s.addTask task).tasks, ∀ start, t.cpuTime.runningSince = some start →
      t ∈ s.tasks := by
    intro t ht start hstart
    rcases mem_append.1 ht with ht | ht
    · exact ht
    · rw [mem_singleton.1 ht, hcpu] at hstart
      cases hstart
  refine ⟨?_, ?_, ?_⟩
  · rw [Kernel.addTask, map_append]
    exact nodup_append_comm.1 (nodup_cons.2 ⟨hpid, hs.distinct⟩)
  · rw [hbanked]
    exact fun t ht start hstart => hs.accruing t (hold t ht start hstart) start hstart
  · rw [hbanked]
    exact hs.now

theorem remove (hs : Budget clock s) (hchild : s.tasks[index]? = some child) :
    Budget clock (s.remove index) := by
  have hsplit := banked_split hchild
  have hle : (s.remove index).banked ≤ s.banked := hsplit ▸ Nat.le_add_left _ _
  refine ⟨hs.distinct.sublist ((eraseIdx_sublist _ _).map _), fun t ht start hstart => ?_,
    (Nat.add_le_add_right hle _).trans hs.now⟩
  obtain ⟨hcurrent, hsince⟩ := hs.accruing t (mem_of_mem_eraseIdx ht) start hstart
  exact ⟨hcurrent, (Nat.add_le_add_right hle _).trans hsince⟩

section Collect

variable (hclock : Monotone clock)
include hclock

/-- The time of a removed child is added to that of another task. -/
theorem collect (hs : Budget clock s) (hchild : s.tasks[index]? = some child) {parent : Task}
    (hparent : (s.remove index).tasks[i]? = some parent) :
    let add : Task → Task := fun parent =>
      { parent with cpuTime := parent.cpuTime.reap child.cpuTime (clock s.reads) }
    Budget clock { (s.remove index).modifyAt i add with reads := s.reads + 1 } := by
  intro add
  have hsplit : s.banked = child.cpuTime.banked + (s.remove index).banked := banked_split hchild
  have hsum := banked_modifyAt hparent add
  have hreap : (add parent).cpuTime.banked ≤ _ :=
    parent.cpuTime.banked_reap_le child.cpuTime (clock s.reads)
  have hle := hs.accrued_le hclock (mem_of_getElem? hchild) (le_refl s.reads)
  -- what accrues did so before, and then the child did not
  have hold : ∀ t' ∈ ((s.remove index).modifyAt i add).tasks, ∀ start,
      t'.cpuTime.runningSince = some start → ∃ j t, index ≠ j ∧ s.tasks[j]? = some t ∧
        t'.pid = t.pid ∧ t.cpuTime.runningSince = some start := by
    intro t' ht' start hstart
    obtain ⟨k, hk⟩ := mem_iff_getElem?.1 ht'
    have hmem : ∃ t ∈ (s.remove index).tasks, t'.pid = t.pid ∧
        t.cpuTime.runningSince = some start := by
      rcases getElem?_modifyAt_cases hk with ⟨-, ht⟩ | ⟨-, t, ht, rfl⟩
      · exact ⟨t', mem_of_getElem? ht, rfl, hstart⟩
      · exact ⟨t, mem_of_getElem? ht, rfl, hstart⟩
    obtain ⟨t, ht, hpid, hrunning⟩ := hmem
    obtain ⟨j, hne, hj⟩ := mem_eraseIdx_iff_getElem?.1 ht
    exact ⟨j, t, hne.symm, hj, hpid, hrunning⟩
  refine ⟨?_, fun t' ht' start hstart => ?_, ?_⟩
  · rw [map_modifyAt (f := add) _ i fun _ _ => rfl]
    exact (hs.remove hchild).distinct
  · obtain ⟨j, t, hne, hj, hpid, hrunning⟩ := hold t' ht' start hstart
    have helapsed := hs.not_accruing hchild hj hne hrunning (clock s.reads)
    obtain ⟨hcurrent, hsince⟩ := hs.accruing t (mem_of_getElem? hj) start hrunning
    refine ⟨hpid.trans hcurrent, ?_⟩
    show ((s.remove index).modifyAt i add).banked + clock 0 ≤ start
    omega
  · show ((s.remove index).modifyAt i add).banked + clock 0 ≤ clock (s.reads + 1)
    have hmono : clock s.reads ≤ clock (s.reads + 1) := hclock (Nat.le_succ _)
    omega

/-- **A reaped child leaves its time to its parent, if there is one.** -/
theorem reaped (hs : Budget clock s) (hchild : s.tasks[index]? = some child) :
    Budget clock (s.reaped clock index child) := by
  rw [Kernel.reaped]
  rcases (s.remove index).modifyTaskNow_cases clock child.parentPid fun now parent =>
    { parent with cpuTime := parent.cpuTime.reap child.cpuTime now } with
    ⟨-, h⟩ | ⟨parent, hparent, h⟩
  · rw [h]
    exact (hs.remove hchild).congr rfl rfl rfl
  · rw [h]
    exact (hs.collect hclock hchild hparent).congr rfl rfl rfl

theorem effect (hR : Fate R) (hs : Budget clock s)
    {returned : Option Returned} (h : Effect clock R s returned s') : Budget clock s' := by
  cases h with
  | moves h => exact hs.moves hclock h
  | forked s1 parent hmoves hnext hparent hfresh =>
    refine (hs.moves hclock hmoves).addTask ?_ rfl
    rw [(hmoves.became hR).map_pid]
    exact hfresh
  | reaped index child hchild => exact hs.reaped hclock hchild

theorem boot (drivers : Bool) (coreCount : Nat) :
    Budget clock (Kernel.boot clock drivers coreCount) := by
  have hbanked : (Kernel.boot clock drivers coreCount).banked = 0 := by
    rw [banked, tasks_boot]
    cases drivers <;> rfl
  have hstart : ∀ t ∈ (Kernel.boot clock drivers coreCount).tasks, ∀ start,
      t.cpuTime.runningSince = some start →
        t.pid = (Kernel.boot clock drivers coreCount).currentPid ∧ start = clock 0 := by
    intro t ht start hstart
    rw [tasks_boot, mem_cons] at ht
    rcases ht with rfl | ht
    · exact ⟨by cases drivers <;> rfl, (Option.some.inj hstart).symm⟩
    cases drivers with
    | false => cases ht
    | true =>
      rw [mem_singleton.1 ht] at hstart
      cases hstart
  refine ⟨(Counted.boot clock drivers coreCount).distinct, fun t ht start h => ?_, ?_⟩
  · obtain ⟨hpid, rfl⟩ := hstart t ht start h
    exact ⟨hpid, by rw [hbanked, zero_add]⟩
  · rw [hbanked, zero_add]
    exact hclock (Nat.zero_le _)

/-- **Along every run the budget is kept.** -/
theorem after (drivers : Bool) (coreCount : Nat) {ops : List TaskOp}
    (hpids : TaskOp.FewPids clock (Kernel.boot clock drivers coreCount) ops) :
    Budget clock (after clock drivers coreCount ops) := by
  induction ops using reverseRecOn with
  | nil => exact boot hclock drivers coreCount
  | append_singleton ops op ih =>
    obtain ⟨hbefore, hfew, -⟩ := TaskOp.fewPids_append.1 hpids
    have hcounted := counted_after clock drivers coreCount hbefore
    rw [Process.after, runFrom_concat, TaskOp.step]
    split
    · exact ih hbefore
    · exact (ih hbefore).effect hclock Fate.any
        (op.effect Fate.any hcounted.distinct (op.respects_any _) (hcounted.fresh hfew op))

end Collect

/-! ## What the accounts show -/

/-- What the account of a task shows: its own time and that of its reaped children. -/
def shown (now : Nat) (t : Task) : Nat :=
  (t.cpuTime.snapshot now).total + t.cpuTime.children.total

theorem shown_le (t : Task) (now : Nat) :
    shown now t ≤ t.cpuTime.banked + t.cpuTime.elapsed now := by
  have hsnapshot := t.cpuTime.total_snapshot_le now
  rw [shown, CpuAccounting.banked]
  omega

/-- All accounts together show at most what is banked and what accrues in one of them. -/
theorem sum_shown_le (hclock : Monotone clock) (hs : Budget clock s) (hn : s.reads ≤ n) :
    (s.tasks.map (shown (clock n))).sum + clock 0 ≤ clock n := by
  -- an account that does not accrue shows what is banked
  have hstopped : ∀ l : List Task, (∀ t ∈ l, t.cpuTime.elapsed (clock n) = 0) →
      (l.map (shown (clock n))).sum ≤ (l.map fun t => t.cpuTime.banked).sum := by
    intro l hl
    refine sum_le_sum fun t ht => ?_
    have hle := shown_le t (clock n)
    rwa [hl t ht] at hle
  by_cases haccruing : ∃ (i : Nat) (t : Task) (start : Nat), s.tasks[i]? = some t ∧
      t.cpuTime.runningSince = some start
  · obtain ⟨i, t, start, ht, hstart⟩ := haccruing
    have hle := hs.accrued_le hclock (mem_of_getElem? ht) hn
    have hshown := shown_le t (clock n)
    have hothers := hstopped (s.tasks.eraseIdx i) fun u hu => by
      obtain ⟨j, hne, hj⟩ := mem_eraseIdx_iff_getElem?.1 hu
      exact hs.not_accruing hj ht hne hstart (clock n)
    rw [sum_split _ ht]
    rw [banked_split ht] at hle
    omega
  · have hle := hs.now.trans (hclock hn)
    refine (Nat.add_le_add_right (hstopped s.tasks fun t ht => ?_) _).trans hle
    obtain ⟨i, hi⟩ := mem_iff_getElem?.1 ht
    cases hrunning : t.cpuTime.runningSince with
    | none => rw [CpuAccounting.elapsed, hrunning, Option.elim_none]
    | some start => exact absurd ⟨i, t, start, hi, hrunning⟩ haccruing

end Budget

/-- **Along every run at most one task accrues CPU time, the one with the current pid, and what all
accounts show together is no more than the time since accounting started**, as long as no pid is
handed out twice. -/
theorem cpu_time_conserved (clock : Nat → Nat) (hclock : Monotone clock) (drivers : Bool)
    (coreCount : Nat) (ops : List TaskOp)
    (hpids : TaskOp.FewPids clock (boot clock drivers coreCount) ops) :
    let s := after clock drivers coreCount ops
    (∀ (i j : Nat) (t u : Task), s.tasks[i]? = some t → s.tasks[j]? = some u →
        t.cpuTime.runningSince ≠ none → u.cpuTime.runningSince ≠ none → i = j) ∧
      (∀ t ∈ s.tasks, t.cpuTime.runningSince ≠ none → t.pid = s.currentPid) ∧
      ∀ n, s.reads ≤ n → (s.tasks.map (Budget.shown (clock n))).sum ≤ clock n - clock 0 := by
  intro s
  have hs : Budget clock s := Budget.after hclock drivers coreCount hpids
  have hpid : ∀ t ∈ s.tasks, t.cpuTime.runningSince ≠ none → t.pid = s.currentPid := by
    intro t ht hrunning
    obtain ⟨start, hstart⟩ := Option.ne_none_iff_exists'.1 hrunning
    exact (hs.accruing t ht start hstart).1
  refine ⟨?_, hpid, ?_⟩
  · intro i j t u ht hu htrunning hurunning
    have hi := position_eq hs.distinct ht
    have hj := position_eq hs.distinct hu
    rw [hpid t (mem_of_getElem? ht) htrunning] at hi
    rw [hpid u (mem_of_getElem? hu) hurunning] at hj
    exact hi.symm.trans hj
  · intro n hn
    exact Nat.le_sub_of_add_le (hs.sum_shown_le hclock hn)

/-- A child that runs for a while, ends and is reaped: its time is its parent's. -/
theorem cpu_time_conserved_reap :
    let s := after (10 * ·) true 1 [.fork (.ok ()), .switchToPid 3 true, .exit 0 true,
      .waitForChild 1 none false]
    (s.tasks.map fun t => (t.pid, t.cpuTime.banked)) = [(1, 20), (2, 0)] ∧
      (s.tasks.map (Budget.shown 50)).sum ≤ 50 - 0 := by
  intro s
  have hpids : TaskOp.FewPids (10 * ·) (boot (10 * ·) true 1) [.fork (.ok ()), .switchToPid 3 true,
      .exit 0 true, .waitForChild 1 none false] := by
    refine ⟨?_, ?_, ?_, ?_, trivial⟩ <;> decide +kernel
  refine ⟨by decide +kernel, ?_⟩
  exact (cpu_time_conserved (10 * ·) (fun _ _ h => Nat.mul_le_mul_left 10 h) true 1 _ hpids).2.2 5
    (by decide +kernel)

end Krust.Process
