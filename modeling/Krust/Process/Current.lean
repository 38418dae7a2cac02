import Krust.Process.Moves

/-!
# The current task

Which task is current is recorded twice, as an index into the task table and as a pid, and a third
time by the state of the task.  `Current` says that the three agree: the current index, if there is
one, is that of the task with the current pid, and no other task is running.  Between boot and the
first switch there is no current index, and the task that runs is the first of the table.

The invariant holds along every run in which no pid is used twice (`current_of_run`).
-/

set_option autoImplicit false

namespace Krust.Process

open Lib List Option Kernel Process.Task

/-- **The current index, the current pid and the states of the tasks agree.** -/
structure Current (s : Kernel) : Prop where
  distinct : (s.tasks.map pid).Nodup
  index : ∀ i, s.currentIndex = some i → ∃ t, s.tasks[i]? = some t ∧ t.pid = s.currentPid
  running : ∀ i t, s.tasks[i]? = some t → t.state = .running →
    s.currentIndex = some i ∨ (s.currentIndex = none ∧ i = 0 ∧ t.pid = s.currentPid)

variable {task : Task} (index : Nat)

namespace Current

variable {clock : Nat → Nat} {R : Task → Task → Prop} {s s' : Kernel}

variable (hs : Current s)
include hs

theorem congr (htasks : s'.tasks = s.tasks) (hindex : s'.currentIndex = s.currentIndex)
    (hpid : s'.currentPid = s.currentPid) : Current s' where
  distinct := htasks ▸ hs.distinct
  index := by
    rw [htasks, hindex, hpid]
    exact hs.index
  running := by
    rw [htasks, hindex, hpid]
    exact hs.running

theorem modifyAt (i : Nat) {f : Task → Task} (hpid : ∀ t, s.tasks[i]? = some t → (f t).pid = t.pid)
    (hrun : ∀ t, s.tasks[i]? = some t → (f t).state = .running → t.state = .running) :
    Current (s.modifyAt i f) where
  distinct := by
    rw [map_modifyAt s i hpid]
    exact hs.distinct
  index := by
    intro j hj
    obtain ⟨t, ht, htpid⟩ := hs.index j hj
    rw [getElem?_modifyAt, ht]
    by_cases hij : i = j
    · subst hij
      exact ⟨f t, if_pos rfl, (hpid t ht).trans htpid⟩
    · exact ⟨t, if_neg hij, htpid⟩
  running := by
    intro j t' ht' hstate
    rcases getElem?_modifyAt_cases ht' with ⟨-, ht⟩ | ⟨hij, t, ht, rfl⟩
    · exact hs.running j t' ht hstate
    subst hij
    rw [hpid t ht]
    exact hs.running i t ht (hrun t ht hstate)

theorem modifyTaskNow (pid : Nat) {f : Nat → Task → Task}
    (hpid : ∀ now t, s.taskByPid pid = some t → (f now t).pid = t.pid)
    (hrun : ∀ now t, s.taskByPid pid = some t → (f now t).state = .running → t.state = .running) :
    Current (s.modifyTaskNow clock pid f) := by
  rcases s.modifyTaskNow_cases clock pid f with ⟨-, h⟩ | ⟨t, -, h⟩
  · rw [h]
    exact hs
  · rw [h]
    exact (hs.modifyAt _ (hpid _) (hrun _)).congr rfl rfl rfl

theorem clear (h : ∀ t, s.current = some t → t.state ≠ .running) :
    Current { s with currentIndex := none } where
  distinct := hs.distinct
  index := nofun
  running := by
    intro i t ht hstate
    rcases hs.running i t ht hstate with hindex | ⟨-, hfirst⟩
    · refine absurd hstate (h t ?_)
      rw [current, hindex, bind_some, ht]
    · exact .inr ⟨rfl, hfirst⟩

theorem locate (h : s.currentIndex = none) :
    Current { s with currentIndex := s.tasks.findIdx? (·.pid == s.currentPid) } where
  distinct := hs.distinct
  index := by
    intro i hi
    obtain ⟨hlt, hpid, -⟩ := findIdx?_eq_some_iff_getElem.1 hi
    exact ⟨_, getElem?_eq_getElem hlt, beq_iff_eq.1 hpid⟩
  running := by
    intro i t ht hstate
    rcases hs.running i t ht hstate with hindex | ⟨-, hi, hpid⟩
    · rw [h] at hindex
      cases hindex
    subst hi
    obtain ⟨hlt, hget⟩ := List.getElem?_eq_some_iff.1 ht
    refine .inl (findIdx?_eq_some_iff_getElem.2 ⟨hlt, ?_, fun j hj => absurd hj (by omega)⟩)
    rw [hget, hpid]
    exact beq_self_eq_true _

/-- **A switch leaves the task it comes from and runs the one it goes to.** -/
theorem switchTo {next : Nat} (htask : s.tasks[next]? = some task) (hrun : task.isRunnable = true)
    (hfirst : s.currentIndex = none →
      ∀ j t, j < next → s.tasks[j]? = some t → t.isRunnable = false) (coreId : Nat) :
    Current (s.switchTo clock next task.pid coreId) := by
  have hpids : (s.switchTo clock next task.pid coreId).tasks.map pid = s.tasks.map pid :=
    (Became.switchTo Fate.any htask hrun task.pid coreId).map_pid
  refine ⟨hpids ▸ hs.distinct, ?_, ?_⟩
  · intro i hi
    obtain rfl : next = i := some.inj hi
    obtain ⟨t, ht, hpid⟩ := getElem?_of_map_eq hpids.symm htask
    exact ⟨t, ht, hpid.symm⟩
  · intro j t' ht' hstate
    refine .inl (congrArg some (Eq.symm (not_not.1 fun hne => ?_)))
    -- another running task would have been running after the old one was left
    rcases getElem?_modifyAt_cases ht' with ⟨-, ht'⟩ | ⟨rfl, -⟩
    swap
    · exact hne rfl
    have hmap := map_accountSwitch (g := state) (fun _ _ => rfl) (fun _ _ => rfl) clock
      (s.leaveFor next) task.pid
    obtain ⟨t, ht, hstate'⟩ := getElem?_of_map_eq hmap ht'
    have hrunning : t.state = .running := hstate'.symm.trans hstate
    rcases s.leaveFor_cases next with ⟨h, honly⟩ | ⟨old, hold, -, h⟩
    · rw [h] at ht
      rcases hs.running j t ht hrunning with hindex | ⟨hnone, hj, -⟩
      · exact hne (honly j hindex (List.getElem?_eq_some_iff.1 ht).1)
      · refine not_running_of_not_isRunnable (hfirst hnone j t ?_ ht) hrunning
        omega
    · rw [h] at ht
      rcases getElem?_modifyAt_cases ht with ⟨hne', ht⟩ | ⟨rfl, t0, -, rfl⟩
      · rcases hs.running j t ht hrunning with hindex | ⟨hnone, -⟩
        · exact hne' (some.inj (hold.symm.trans hindex))
        · rw [hold] at hnone
          cases hnone
      · rw [yield] at hrunning
        split at hrunning
        · cases hrunning
        · contradiction

theorem move (h : Move clock R s s') : Current s' := by
  cases h with
  | aside h => exact hs.congr h.tasks h.currentIndex h.currentPid
  | edit i f hf => exact hs.modifyAt i (fun t ht => (hf t ht).1.pid) fun t ht => (hf t ht).1.running
  | pause pid f hf =>
    exact hs.modifyTaskNow pid (fun now t ht => (hf now t ht).1.pid) fun now t ht =>
      (hf now t ht).1.running
  | resume => exact hs.modifyTaskNow _ (fun _ _ _ => rfl) fun _ _ _ h => h
  | setMode => exact hs.modifyTaskNow _ (fun _ _ _ => rfl) fun _ _ _ h => h
  | clear h => exact hs.clear h
  | locate h => exact hs.locate h
  | switch next task coreId htask hrun hfirst => exact hs.switchTo htask hrun hfirst coreId

theorem moves (h : Moves clock R s s') : Current s' := by
  induction h with
  | refl => exact hs
  | tail _ hmove ih => exact ih.move hmove

theorem addTask (hpid : task.pid ∉ s.tasks.map pid) (hstate : task.state ≠ .running) :
    Current (s.addTask task) where
  distinct := by
    rw [Kernel.addTask, map_append]
    exact nodup_append_comm.1 (nodup_cons.2 ⟨hpid, hs.distinct⟩)
  index := by
    intro i hi
    obtain ⟨t, ht, htpid⟩ := hs.index i hi
    refine ⟨t, ?_, htpid⟩
    exact (getElem?_append_left (List.getElem?_eq_some_iff.1 ht).1).trans ht
  running := by
    intro i t ht hrunning
    rw [Kernel.addTask, getElem?_append] at ht
    split at ht
    · exact hs.running i t ht hrunning
    rw [getElem?_singleton] at ht
    split at ht
    · exact absurd hrunning (some.inj ht ▸ hstate)
    · cases ht

/-- **The current index follows the current task when another task is removed.** -/
theorem remove : Current (s.remove index) where
  distinct := hs.distinct.sublist ((eraseIdx_sublist _ _).map _)
  index := by
    intro i hi
    obtain ⟨c, hc, hi⟩ := bind_eq_some_iff.1 hi
    obtain ⟨t, ht, hpid⟩ := hs.index c hc
    refine ⟨t, ?_, hpid⟩
    show (s.tasks.eraseIdx index)[i]? = some t
    rw [indexAfterRemove] at hi
    rw [getElem?_eraseIdx]
    split at hi
    · rename_i hlt
      obtain rfl := some.inj hi
      rw [if_neg (by omega), Nat.sub_add_cancel (by omega)]
      exact ht
    · split at hi
      · cases hi
      · obtain rfl := some.inj hi
        rw [if_pos (by omega)]
        exact ht
  running := by
    intro j t ht hrunning
    change (s.tasks.eraseIdx index)[j]? = some t at ht
    rw [getElem?_eraseIdx] at ht
    show s.currentIndex.bind (indexAfterRemove index) = some j ∨ _
    split at ht
    · rename_i hlt
      rcases hs.running j t ht hrunning with hindex | ⟨hnone, hj⟩
      · left
        rw [hindex, bind_some, indexAfterRemove, if_neg (by omega), if_neg (by omega)]
      · exact .inr ⟨by rw [Kernel.remove, hnone]; rfl, hj⟩
    · rcases hs.running (j + 1) t ht hrunning with hindex | ⟨-, hj, -⟩
      · left
        rw [hindex, bind_some, indexAfterRemove, if_pos (by omega), Nat.add_sub_cancel]
      · omega

theorem reaped (child : Task) : Current (s.reaped clock index child) := by
  have hparent : Current ((s.remove index).modifyTaskNow clock child.parentPid fun now parent =>
      { parent with cpuTime := parent.cpuTime.reap child.cpuTime now }) :=
    (hs.remove index).modifyTaskNow _ (fun _ _ _ => rfl) fun _ _ _ h => h
  exact hparent.congr rfl rfl rfl

theorem effect {returned : Option Returned} (h : Effect clock R s returned s') (hR : Fate R) :
    Current s' := by
  cases h with
  | moves h => exact hs.moves h
  | forked s1 parent hmoves hnext hparent hfresh =>
    refine (hs.moves hmoves).addTask ?_ TaskState.noConfusion
    rw [(hmoves.became hR).map_pid]
    exact hfresh
  | reaped index child => exact hs.reaped index child

end Current

/-! ## Boot -/

theorem Current.boot (clock : Nat → Nat) (drivers : Bool) (coreCount : Nat) :
    Current (boot clock drivers coreCount) where
  distinct := (Counted.boot clock drivers coreCount).distinct
  index := by cases drivers <;> nofun
  running := by
    intro i t ht hstate
    refine .inr ?_
    rw [tasks_boot] at ht
    rcases i with _ | i
    · obtain rfl := some.inj ht
      cases drivers <;> exact ⟨rfl, rfl, rfl⟩
    rcases drivers with _ | _
    · cases ht
    cases i with
    | zero =>
      obtain rfl := some.inj ht
      cases hstate
    | succ i => cases ht

/-! ## Runs -/

/-- A step of the kernel, or a new task, which is ready as `Task::new` and `clone` leave it. -/
inductive Event
  | addTask (task : { task : Task // task.state = .ready })
  | op (op : TaskOp)

namespace Event

def step (clock : Nat → Nat) (s : Kernel) : Event → Kernel
  | addTask task => if s.halted then s else s.addTask task
  | op o => o.step clock s

def Fresh (s : Kernel) : Event → Prop
  | addTask task => task.1.pid ∉ s.tasks.map pid
  | op o => o.Fresh s

end Event

theorem Current.step {s : Kernel} (hs : Current s) (clock : Nat → Nat) (op : TaskOp)
    (hfresh : op.Fresh s) : Current (op.step clock s) := by
  rw [TaskOp.step]
  split
  · exact hs
  · exact hs.effect (op.effect Fate.any hs.distinct (op.respects_any s) hfresh) Fate.any

theorem Current.map_current {s : Kernel} (hs : Current s) {i : Nat} (hi : s.currentIndex = some i) :
    s.current.map pid = some s.currentPid := by
  obtain ⟨t, ht, hpid⟩ := hs.index i hi
  rw [current, hi, bind_some, ht, map_some, hpid]

theorem Current.current_reaped {s : Kernel} (hs : Current s) (clock : Nat → Nat) {index : Nat}
    {child : Task} (hchild : s.tasks[index]? = some child)
    (hne : s.current.map pid ≠ some child.pid) :
    (s.reaped clock index child).current.map pid = s.current.map pid := by
  have hreaped : Current (s.reaped clock index child) := hs.reaped index child
  have hpid : (s.reaped clock index child).currentPid = s.currentPid := by
    rw [Kernel.reaped, Kernel.modifyTaskNow]
    split <;> rfl
  have hindex : (s.reaped clock index child).currentIndex =
      s.currentIndex.bind (indexAfterRemove index) := by
    rw [Kernel.reaped, Kernel.modifyTaskNow]
    split <;> rfl
  rcases hc : s.currentIndex with _ | c
  · rw [current, current, hindex, hc]
    rfl
  rw [hc] at hindex
  rw [hs.map_current hc] at hne ⊢
  have hcne : index ≠ c := by
    rintro rfl
    obtain ⟨t, ht, htpid⟩ := hs.index index hc
    rw [hchild] at ht
    obtain rfl := some.inj ht
    exact hne (congrArg some htpid.symm)
  obtain ⟨i, hi⟩ : ∃ i, indexAfterRemove index c = some i := by
    rw [indexAfterRemove]
    split <;> exact ⟨_, rfl⟩
  rw [hreaped.map_current (hindex.trans hi), hpid]

/-- **The current index is that of the task with the current pid, reaping another task keeps the
current one, and at most one task is running.** -/
theorem current_of_run (clock : Nat → Nat) (drivers : Bool) (coreCount : Nat) (es : List Event)
    (hes : ∀ es' e, es' ++ [e] <+: es →
      e.Fresh (runFrom (Event.step clock) (boot clock drivers coreCount) es')) :
    let s := runFrom (Event.step clock) (boot clock drivers coreCount) es
    (∀ i, s.currentIndex = some i → ∃ t, s.tasks[i]? = some t ∧ t.pid = s.currentPid) ∧
      (∀ parentPid expected pid status s', s.reapZombieChild clock parentPid expected =
        (some (pid, status), s') → s.current.map Task.pid ≠ some pid →
          s'.current.map Task.pid = s.current.map Task.pid) ∧
      ∀ (i j : Nat) (t u : Task), s.tasks[i]? = some t → s.tasks[j]? = some u → t.state = .running →
        u.state = .running → i = j := by
  intro s
  have hs : Current s := by
    refine runFrom_induction_of (Current.boot clock drivers coreCount)
      (fun s e hs hfresh => ?_) es hes
    cases e with
    | addTask task =>
      rw [Event.step]
      split
      · exact hs
      · exact hs.addTask hfresh (by rw [task.2]; decide)
    | op op => exact hs.step clock op hfresh
  refine ⟨hs.index, ?_, ?_⟩
  · intro parentPid expected pid status s' hreap hne
    rcases s.reapZombieChild_cases clock parentPid expected with ⟨h, -⟩ |
      ⟨index, child, hchild, -, -, h⟩
    · rw [h] at hreap
      cases hreap
    rw [h] at hreap
    cases hreap
    exact hs.current_reaped clock hchild hne
  · intro i j t u ht hu hrun hrun'
    rcases hs.running i t ht hrun with hi | ⟨hnone, hi, -⟩ <;>
      rcases hs.running j u hu hrun' with hj | ⟨hnone', hj, -⟩
    · exact some.inj (hi.symm.trans hj)
    · rw [hi] at hnone'
      cases hnone'
    · rw [hj] at hnone
      cases hnone
    · rw [hi, hj]

/-- A new task that ends at once, and the first task after it is scheduled. -/
def shortRun : List Event :=
  [.addTask ⟨new 7 ROOT_PID, rfl⟩] ++ [.op (.setTaskState 7 ⟨.zombie, by decide⟩)] ++
    [.op (.schedule 0)]

theorem current_of_run_reap :
    let s := runFrom (Event.step id) (boot id true 1) shortRun
    s.currentIndex = some 0 ∧ (s.reapZombieChild id ROOT_PID none).1 = some (7, 0) ∧
      (s.reapZombieChild id ROOT_PID none).2.current.map pid = s.current.map pid := by
  have hfresh : ∀ es' e, es' ++ [e] <+: [] ++ shortRun →
      e.Fresh (runFrom (Event.step id) (boot id true 1) es') := by
    have hconcat := forall_event_concat fun es' (e : Event) =>
      e.Fresh (runFrom (Event.step id) (boot id true 1) es')
    have hadd : 7 ∉ (boot id true 1).tasks.map Task.pid := by decide
    exact (hconcat _ _).2 ⟨(hconcat _ _).2 ⟨(hconcat [] _).2 ⟨forall_event_nil, hadd⟩, nofun⟩,
      nofun⟩
  exact ⟨by decide, by decide, (current_of_run id true 1 shortRun hfresh).2.1 ROOT_PID none 7 0 _
    (by decide +kernel) (by decide)⟩

end Krust.Process
