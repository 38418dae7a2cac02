import Krust.Process.Moves
import Mathlib.Data.List.Rotate

/-!
# Round robin

With nothing else in between, consecutive calls of `schedule_on` select the runnable tasks of the
queue in turn, from the place after the current index on and around.  The calls may name any cores.
-/

set_option autoImplicit false

namespace Krust.Process.Kernel

open List Option Process.Task

/-- The places of the queue, from the one after the current index on and around. -/
def queue (s : Kernel) : List Nat :=
  (List.range s.tasks.length).rotate (s.currentIndex.elim 0 (· + 1))

def runnable (s : Kernel) : List Nat := s.queue.filter fun i => s.tasks[i]?.any isRunnable

/-- What calls of `schedule_on` for these cores return, with the current index after each. -/
def schedules (clock : Nat → Nat) : List Nat → Kernel → List (Option Nat × Option Nat)
  | [], _ => []
  | coreId :: cores, s =>
    let (selected, s') := s.scheduleOn clock coreId
    (selected, s'.currentIndex) :: schedules clock cores s'

variable (clock : Nat → Nat) (coreId : Nat) {s : Kernel} {i : Nat} {rest : List Nat} {task : Task}

/-- Past one of its places, the queue is the old one, turned until that place is the last. -/
theorem range_rotate_succ {n start : Nat} {before after : List Nat}
    (h : (List.range n).rotate start = before ++ i :: after) :
    (List.range n).rotate (i + 1) = after ++ (before ++ [i]) := by
  have hlen := congrArg length h
  have hi := congrArg (·[before.length]?) h
  rw [length_rotate, length_range, length_append, length_cons] at hlen
  rw [getElem?_rotate (by rw [length_range]; omega), length_range,
    getElem?_range (Nat.mod_lt _ (by omega)), getElem?_append_right le_rfl, Nat.sub_self,
    getElem?_cons_zero, some_inj] at hi
  calc (range n).rotate (i + 1) = (range n).rotate (start + (before.length + 1)) := by
        rw [← rotate_mod, ← rotate_mod _ (start + _), length_range, ← hi, Nat.mod_add_mod,
          Nat.add_assoc, Nat.add_left_comm]
    _ = (before ++ [i] ++ after).rotate (before ++ [i]).length := by
        rw [← rotate_rotate, h]
        simp
    _ = after ++ (before ++ [i]) := rotate_append_length_eq _ _

theorem mem_runnable :
    i ∈ s.runnable ↔ ∃ task, s.tasks[i]? = some task ∧ task.isRunnable = true := by
  rw [runnable, queue, mem_filter, mem_rotate, List.mem_range, Option.any_eq_true]
  exact and_iff_right_of_imp fun ⟨_, h, _⟩ => (List.getElem?_eq_some_iff.1 h).1

theorem length_runnable (s : Kernel) : s.runnable.length = s.tasks.countP isRunnable := by
  have hmap : (range s.tasks.length).map (s.tasks[·]?) = s.tasks.map some := by
    refine ext_getElem (by simp) fun j _ _ => ?_
    simp
  have hcount := congrArg (countP (·.any isRunnable)) hmap
  rw [countP_map, countP_map] at hcount
  rw [runnable, ← countP_eq_length_filter, queue, (rotate_perm _ _).countP_eq]
  exact hcount

/-- The search of `schedule_on` finds the first runnable task. -/
theorem nextRunnable_eq_head? (s : Kernel) :
    s.nextRunnable (s.currentIndex.elim 0 fun index => (index + 1) % s.tasks.length) =
      s.runnable.head? := by
  rw [runnable, head?_filter, nextRunnable]
  congr 1
  refine ext_getElem (by simp [queue]) fun j _ _ => ?_
  simp only [queue, getElem_rotate, getElem_map, getElem_range, length_range]
  cases s.currentIndex <;> simp [Nat.add_comm]

theorem map_switchTo (htask : s.tasks[i]? = some task) (hrun : task.isRunnable = true)
    (newPid : Nat) :
    (s.switchTo clock i newPid coreId).tasks.map (fun t => (t.pid, t.isRunnable)) =
      s.tasks.map fun t => (t.pid, t.isRunnable) := by
  have hyield (t : Task) : (t.yield.pid, t.yield.isRunnable) = (t.pid, t.isRunnable) := by
    rw [yield]
    split_ifs with h
    · simp [setState, isRunnable, h]
    · rfl
  have hleave : (s.leaveFor i).tasks.map (fun t => (t.pid, t.isRunnable)) =
      s.tasks.map fun t => (t.pid, t.isRunnable) := by
    rcases s.leaveFor_cases i with ⟨h, -⟩ | ⟨old, -, -, h⟩
    · rw [h]
    · rw [h]
      exact map_modifyAt _ _ fun t _ => hyield t
  have haccount := (map_accountSwitch (g := fun t => (t.pid, t.isRunnable)) (fun _ _ => rfl)
    (fun _ _ => rfl) clock (s.leaveFor i) newPid).trans hleave
  refine (map_modifyAt _ _ fun t ht => ?_).trans haccount
  obtain ⟨t0, ht0, hkey⟩ := getElem?_of_map_eq haccount ht
  rw [htask] at ht0
  obtain rfl := some.inj ht0
  rw [hkey, hrun]
  exact congrArg (·, true) (Prod.mk.inj hkey).1

/-- One call selects the first runnable task, which is then the last. -/
theorem scheduleOn_eq (h : s.runnable = i :: rest) :
    ∃ s', s.scheduleOn clock coreId = (s.tasks[i]?.map pid, s') ∧ s'.currentIndex = some i ∧
      s'.tasks.map pid = s.tasks.map pid ∧ s'.runnable = rest ++ [i] := by
  obtain ⟨task, htask, hrun⟩ := mem_runnable.1 (h ▸ mem_cons_self)
  have hkeep := map_switchTo clock coreId htask hrun task.pid
  refine ⟨s.switchTo clock i task.pid coreId, ?_, rfl, ?_, ?_⟩
  · rw [scheduleOn]
    dsimp only
    rw [if_neg (Nat.ne_zero_of_lt (List.getElem?_eq_some_iff.1 htask).1), nextRunnable_eq_head?, h,
      head?_cons]
    dsimp only
    rw [htask]
    rfl
  · have hpids := congrArg (map Prod.fst) hkeep
    rw [List.map_map, List.map_map] at hpids
    exact hpids
  · have hlen : (s.switchTo clock i task.pid coreId).tasks.length = s.tasks.length := by
      simpa using congrArg length hkeep
    have hany (j : Nat) : (s.switchTo clock i task.pid coreId).tasks[j]?.any isRunnable =
        s.tasks[j]?.any isRunnable := by
      have hj := congrArg (·[j]?.any Prod.snd) hkeep
      simp only [getElem?_map, Option.any_map] at hj
      exact hj
    obtain ⟨before, after, hqueue, hbefore, -, hafter⟩ := filter_eq_cons_iff.1 h
    have hturn : (s.switchTo clock i task.pid coreId).queue = after ++ (before ++ [i]) := by
      rw [queue, hlen]
      exact range_rotate_succ hqueue
    rw [runnable, hturn, funext hany, filter_append, filter_append, hafter,
      filter_eq_nil_iff.2 hbefore]
    simp [htask, hrun]

theorem schedules_eq (cores : List Nat) (s : Kernel) (h : cores.length ≤ s.runnable.length) :
    schedules clock cores s =
      (s.runnable.take cores.length).map fun i => (s.tasks[i]?.map pid, some i) := by
  induction cores generalizing s with
  | nil => rfl
  | cons coreId cores ih =>
    obtain ⟨i, rest, hrunnable⟩ := exists_cons_of_length_pos (Nat.zero_lt_of_lt h)
    obtain ⟨s', hcall, hindex, hpids, hnext⟩ := scheduleOn_eq clock coreId hrunnable
    have hpid (j : Nat) : s'.tasks[j]?.map pid = s.tasks[j]?.map pid := by
      rw [← getElem?_map, hpids, getElem?_map]
    rw [hrunnable] at h ⊢
    have hle := Nat.le_of_succ_le_succ h
    rw [schedules, hcall]
    dsimp only
    rw [hindex, ih s' (by rw [hnext, length_append]; exact Nat.le_add_right_of_le hle), hnext,
      take_append_of_le_length hle, length_cons, take_succ_cons, map_cons]
    simp only [hpid]

/-- **As many calls as there are runnable tasks select each of them once, in the order of the queue
after the current index, and no other task.** -/
theorem schedules_each_runnable (s : Kernel) (cores : List Nat)
    (h : cores.length = s.tasks.countP isRunnable) :
    schedules clock cores s = s.runnable.map (fun i => (s.tasks[i]?.map pid, some i)) ∧
      s.runnable.Nodup ∧
      ∀ i, i ∈ s.runnable ↔
        ∃ task, s.tasks[i]? = some task ∧ (task.state = .ready ∨ task.state = .running) := by
  rw [← length_runnable] at h
  refine ⟨?_, ?_, fun i => ?_⟩
  · rw [schedules_eq clock cores s h.le, h, take_length]
  · exact (nodup_rotate.2 nodup_range).filter _
  · rw [mem_runnable]
    simp only [isRunnable, decide_eq_true_eq]

/-- Two runnable tasks and a waiting one between them. -/
theorem schedules_each_runnable_three :
    let s : Kernel :=
      ⟨[{ new 5 1 with state := .running }, { new 6 1 with state := .waiting }, .new 7 1],
        some 0, [.idle], 5, 8, [], 0, false⟩
    schedules id [0, 0] s = [(some 7, some 2), (some 5, some 0)] :=
  (schedules_each_runnable id _ [0, 0] (by decide)).1.trans (by decide)

end Krust.Process.Kernel
