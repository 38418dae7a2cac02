import Krust.Process.Scheduler
import Mathlib.Logic.Relation

/-!
# What a step can do

Every step of the kernel that adds and removes no task is a sequence of a few small moves: a change
of one task outside of a switch, which may also pause, resume or recharge its CPU account, a change
of the current index, and the switch from one task to the next.  Invariants are proved for the
moves.

What may happen to a task that has ended is a relation `R` between a task and what becomes of it.
Steps that do not touch ended tasks respect every such relation; for the others (an exit, a signal,
a wakeup) it is a condition on the step that it does.
-/

set_option autoImplicit false

namespace Krust.Process

open Lib List Option Kernel Process.Task TaskOp

/-! ## One task of the table -/

variable {start : Nat} {t t' : Task} {f : Task → Task}

theorem Task.not_running_of_not_isRunnable (h : t.isRunnable = false) : t.state ≠ .running := by
  intro hstate
  rw [isRunnable, hstate] at h
  exact absurd h (by decide)

variable {next : Nat}

namespace Kernel

variable {s : Kernel}

theorem getElem?_modifyAt (s : Kernel) (i : Nat) (f : Task → Task) (j : Nat) :
    (s.modifyAt i f).tasks[j]? = if i = j then (s.tasks[j]?).map f else s.tasks[j]? := by
  rw [modifyAt, getElem?_modify]
  split <;> cases s.tasks[j]? <;> rfl

variable {i j : Nat}

theorem getElem?_modifyAt_cases (h : (s.modifyAt i f).tasks[j]? = some t') :
    (i ≠ j ∧ s.tasks[j]? = some t') ∨ (i = j ∧ ∃ t, s.tasks[j]? = some t ∧ t' = f t) := by
  rw [getElem?_modifyAt] at h
  split_ifs at h with hij
  · obtain ⟨t, ht, hf⟩ := map_eq_some_iff.1 h
    exact .inr ⟨hij, t, ht, hf.symm⟩
  · exact .inl ⟨hij, h⟩

variable {β : Type} {g : Task → β}

theorem map_modifyAt {f : Task → Task} (s : Kernel) (i : Nat)
    (hf : ∀ t, s.tasks[i]? = some t → g (f t) = g t) :
    (s.modifyAt i f).tasks.map g = s.tasks.map g := by
  refine ext_getElem? fun j => ?_
  rw [getElem?_map, getElem?_map, getElem?_modifyAt]
  split_ifs with hij
  · subst hij
    cases ht : s.tasks[i]? with
    | none => rfl
    | some t => exact congrArg some (hf t ht)
  · rfl

theorem findIdx_eq_of_map [BEq β] (g : Task → β) (b : β) {l l' : List Task}
    (h : l'.map g = l.map g) :
    l'.findIdx (fun t => g t == b) = l.findIdx (fun t => g t == b) := by
  have hmap : ∀ l : List Task, l.findIdx (fun t => g t == b) = (l.map g).findIdx (· == b) := by
    intro l
    rw [findIdx_map]
    rfl
  rw [hmap, hmap, h]

theorem pid_of_taskByPid {pid : Nat} (h : s.taskByPid pid = some t) : t.pid = pid := by
  obtain ⟨hlt, ht⟩ := List.getElem?_eq_some_iff.1 h
  have hfound := findIdx_getElem (w := hlt)
  rw [beq_iff_eq] at hfound
  exact ht ▸ hfound

/-- **With distinct pids, the task with a pid is the only one.** -/
theorem position_eq (hs : (s.tasks.map pid).Nodup) (ht : s.tasks[i]? = some t) :
    s.position t.pid = i := by
  obtain ⟨hlt, hget⟩ := List.getElem?_eq_some_iff.1 ht
  have hfound : s.position t.pid < s.tasks.length :=
    findIdx_lt_length_of_exists ⟨t, mem_of_getElem? ht, beq_self_eq_true _⟩
  have hpid := findIdx_getElem (w := hfound)
  rw [beq_iff_eq] at hpid
  have hlt' : s.position t.pid < (s.tasks.map pid).length := by rwa [length_map]
  have hi : i < (s.tasks.map pid).length := by rwa [length_map]
  have heq : (s.tasks.map pid)[s.position t.pid] = (s.tasks.map pid)[i] := by
    rw [getElem_map, getElem_map, hget]
    exact hpid
  exact hs.getElem_inj_iff.1 heq

theorem position_congr {s s' : Kernel} (h : s'.tasks.map pid = s.tasks.map pid) (pid : Nat) :
    s'.position pid = s.position pid :=
  findIdx_eq_of_map Task.pid pid h

/-- A change that reads the clock is one of the task, if there is one. -/
theorem modifyTaskNow_cases (clock : Nat → Nat) (s : Kernel) (pid : Nat) (f : Nat → Task → Task) :
    (s.taskByPid pid = none ∧ s.modifyTaskNow clock pid f = s) ∨
      ∃ t, s.taskByPid pid = some t ∧ s.modifyTaskNow clock pid f =
        { s.modifyTask pid (f (clock s.reads)) with reads := s.reads + 1 } := by
  rw [modifyTaskNow]
  cases ht : s.taskByPid pid with
  | none => exact .inl ⟨rfl, if_neg Bool.false_ne_true⟩
  | some t => exact .inr ⟨t, rfl, if_pos rfl⟩

theorem map_modifyTaskNow {f : Nat → Task → Task} (hf : ∀ now t, g (f now t) = g t)
    (clock : Nat → Nat) (s : Kernel) (pid : Nat) :
    (s.modifyTaskNow clock pid f).tasks.map g = s.tasks.map g := by
  rcases s.modifyTaskNow_cases clock pid f with ⟨-, h⟩ | ⟨t, -, h⟩
  · rw [h]
  · rw [h]
    exact map_modifyAt _ _ fun t _ => hf _ t

theorem modifyTaskNow_index (clock : Nat → Nat) (s : Kernel) (pid : Nat) (f : Nat → Task → Task)
    (g : Option Nat → Option Nat) :
    { s.modifyTaskNow clock pid f with
      currentIndex := g (s.modifyTaskNow clock pid f).currentIndex } =
      { s with currentIndex := g s.currentIndex }.modifyTaskNow clock pid f := by
  rw [modifyTaskNow]
  by_cases h : (s.taskByPid pid).isSome
  · rw [if_pos h]
    exact (if_pos h).symm
  · rw [if_neg h]
    exact (if_neg h).symm

/-! ### Parts of a switch -/

theorem leaveFor_cases (s : Kernel) (next : Nat) :
    (s.leaveFor next = { s with currentIndex := some next } ∧
        ∀ old, s.currentIndex = some old → old < s.tasks.length → old = next) ∨
      ∃ old, s.currentIndex = some old ∧ old ≠ next ∧
        s.leaveFor next = { s.modifyAt old yield with currentIndex := some next } := by
  rw [leaveFor]
  rcases hindex : s.currentIndex with _ | old
  · exact .inl ⟨rfl, by simp⟩
  rw [filter_some]
  by_cases hold : old < s.tasks.length ∧ old ≠ next
  · rw [if_pos (decide_eq_true hold)]
    exact .inr ⟨old, rfl, hold.2, rfl⟩
  rw [if_neg (by simpa using hold)]
  refine .inl ⟨rfl, fun i hi hlt => ?_⟩
  obtain rfl := some.inj hi
  exact not_not.1 fun hne => hold ⟨hlt, hne⟩

/-- The task that is switched to is not changed by leaving the old one. -/
theorem getElem?_leaveFor (s : Kernel) (next : Nat) :
    (s.leaveFor next).tasks[next]? = s.tasks[next]? := by
  rcases s.leaveFor_cases next with ⟨h, -⟩ | ⟨old, -, hne, h⟩
  · rw [h]
  · rw [h]
    exact (s.getElem?_modifyAt old yield next).trans (if_neg hne)

/-- Accounting for a switch changes accounts only. -/
theorem map_accountSwitch (hpause : ∀ now t, g (t.pause now) = g t)
    (hresume : ∀ now t, g (t.resume now) = g t) (clock : Nat → Nat) (s : Kernel) (nextPid : Nat) :
    (s.accountSwitch clock nextPid).tasks.map g = s.tasks.map g :=
  (map_modifyAt _ _ fun t _ => hresume _ t).trans (map_modifyAt _ _ fun t _ => hpause _ t)

theorem getElem?_of_map_eq {l l' : List Task} (h : l'.map g = l.map g)
    {t' : Task} (ht' : l'[i]? = some t') : ∃ t, l[i]? = some t ∧ g t' = g t := by
  have hi := congrArg (·[i]?) h
  simp only [getElem?_map, ht', map_some] at hi
  obtain ⟨t, ht, hg⟩ := map_eq_some_iff.1 hi.symm
  exact ⟨t, ht, hg.symm⟩

/-- Round robin finds a runnable task. -/
theorem nextRunnable_some (h : s.nextRunnable start = some next) :
    ∃ task, s.tasks[next]? = some task ∧ task.isRunnable = true := by
  have hfound := find?_some h
  cases ht : s.tasks[next]? with
  | none =>
    rw [ht] at hfound
    cases hfound
  | some task =>
    rw [ht] at hfound
    exact ⟨task, rfl, hfound⟩

/-- From the start of the table it finds the first one. -/
theorem nextRunnable_zero (h : s.nextRunnable 0 = some next) (hj : j < next)
    (ht : s.tasks[j]? = some t) : t.isRunnable = false := by
  have hrange : ((range s.tasks.length).map fun offset => (0 + offset) % s.tasks.length) =
      range s.tasks.length := by
    refine (map_congr_left fun offset hoffset => ?_).trans (map_id _)
    rw [Nat.zero_add, Nat.mod_eq_of_lt (mem_range.1 hoffset)]
    rfl
  rw [nextRunnable, hrange, find?_range_eq_some] at h
  have hnot := h.2.2 j hj
  rw [ht] at hnot
  simpa using hnot

theorem nextRunnable_none (hstart : start < s.tasks.length) (h : s.nextRunnable start = none)
    (ht : t ∈ s.tasks) : t.isRunnable = false := by
  obtain ⟨i, hi⟩ := mem_iff_getElem?.1 ht
  have hlt : i < s.tasks.length := (List.getElem?_eq_some_iff.1 hi).1
  have hmem : i ∈ (range s.tasks.length).map fun offset =>
      (start + offset) % s.tasks.length := by
    rw [List.mem_map]
    by_cases hle : start ≤ i
    · exact ⟨i - start, mem_range.2 (by omega), by
        rw [show start + (i - start) = i by omega, Nat.mod_eq_of_lt hlt]⟩
    exact ⟨i + s.tasks.length - start, mem_range.2 (by omega), by
      rw [show start + (i + s.tasks.length - start) = i + s.tasks.length by omega,
        Nat.add_mod_right, Nat.mod_eq_of_lt hlt]⟩
  have hnot := find?_eq_none.1 h i hmem
  rw [hi] at hnot
  simpa using hnot

/-- The scan for a higher priority finds a runnable task. -/
theorem better_foldl {l : List (Task × Nat)} {current : Nat} {best : Option Nat × Nat}
    (h : (l.foldl (better current) best).1 = some next) :
    best.1 = some next ∨ ∃ task, (task, next) ∈ l ∧ task.isRunnable = true := by
  induction l generalizing best with
  | nil => exact .inl h
  | cons entry l ih =>
    rcases ih h with hbest | ⟨task, hmem, hrun⟩
    · rw [better] at hbest
      split at hbest
      · exact .inl hbest
      split at hbest
      · exact .inl hbest
      rename_i hrun
      split at hbest
      · obtain rfl := some.inj hbest
        exact .inr ⟨entry.1, mem_cons_self, by simpa using hrun⟩
      · exact .inl hbest
    · exact .inr ⟨task, mem_cons_of_mem _ hmem, hrun⟩

end Kernel

/-! ## Moves -/

/-- What may become of a task: anything of one that has not ended, and of any task if its state and
exit code are left alone. -/
structure Fate (R : Task → Task → Prop) : Prop where
  alive : ∀ {t t'}, t.state ≠ .zombie → R t t'
  keep : ∀ {t t'}, t'.state = t.state → t'.exitCode = t.exitCode → R t t'
  trans : ∀ {t t' t''}, R t t' → R t' t'' → R t t''

/-- What a sequence of moves makes of one task. -/
structure Kept (R : Task → Task → Prop) (t t' : Task) : Prop where
  pid : t'.pid = t.pid
  parentPid : t'.parentPid = t.parentPid
  fate : R t t'

/-- A change of one task outside of a switch. -/
structure Edit (R : Task → Task → Prop) (t t' : Task) : Prop extends Kept R t t' where
  running : t'.state = .running → t.state = .running

/-- What no invariant reads has changed. -/
structure Aside (s s' : Kernel) : Prop where
  tasks : s'.tasks = s.tasks := by rfl
  currentIndex : s'.currentIndex = s.currentIndex := by rfl
  currentPid : s'.currentPid = s.currentPid := by rfl
  reads : s'.reads = s.reads := by rfl
  nextPid : s.nextPid ≤ s'.nextPid := by exact le_rfl

/-- **A move.** -/
inductive Move (clock : Nat → Nat) (R : Task → Task → Prop) : Kernel → Kernel → Prop
  | aside {s s' : Kernel} (h : Aside s s') : Move clock R s s'
  | edit {s : Kernel} (i : Nat) (f : Task → Task)
      (hf : ∀ t, s.tasks[i]? = some t → Edit R t (f t) ∧ (f t).cpuTime = t.cpuTime) :
      Move clock R s (s.modifyAt i f)
  | pause {s : Kernel} (pid : Nat) (f : Nat → Task → Task)
      (hf : ∀ now t, s.taskByPid pid = some t →
        Edit R t (f now t) ∧ (f now t).cpuTime = t.cpuTime.pause now) :
      Move clock R s (s.modifyTaskNow clock pid f)
  -- only the account of the current task is resumed or changes its mode outside of a switch
  | resume {s : Kernel} : Move clock R s (s.modifyTaskNow clock s.currentPid resume)
  | setMode {s : Kernel} (mode : TaskMode) :
      Move clock R s
        (s.modifyTaskNow clock s.currentPid fun now task => task.setMode mode now)
  | clear {s : Kernel} (h : ∀ t, s.current = some t → t.state ≠ .running) :
      Move clock R s { s with currentIndex := none }
  | locate {s : Kernel} (h : s.currentIndex = none) :
      Move clock R s { s with currentIndex := s.tasks.findIdx? (·.pid == s.currentPid) }
  -- without a current task the search began at the start of the table
  | switch {s : Kernel} (next : Nat) (task : Task) (coreId : Nat)
      (htask : s.tasks[next]? = some task) (hrun : task.isRunnable = true)
      (hfirst : s.currentIndex = none →
        ∀ j t, j < next → s.tasks[j]? = some t → t.isRunnable = false) :
      Move clock R s (s.switchTo clock next task.pid coreId)

def Moves (clock : Nat → Nat) (R : Task → Task → Prop) : Kernel → Kernel → Prop :=
  Relation.ReflTransGen (Move clock R)

/-! ## What becomes of the tasks -/

/-- The tasks are where they were, and have become what they may. -/
structure Became (R : Task → Task → Prop) (s s' : Kernel) : Prop where
  length : s'.tasks.length = s.tasks.length
  kept : ∀ {i : Nat} {t : Task}, s.tasks[i]? = some t → ∃ t', s'.tasks[i]? = some t' ∧ Kept R t t'

section Fate

variable {clock : Nat → Nat} {R : Task → Task → Prop} (hR : Fate R) {s s' s'' : Kernel}

include hR

theorem Fate.refl (t : Task) : R t t := hR.keep rfl rfl

theorem Kept.refl (t : Task) : Kept R t t := ⟨rfl, rfl, hR.refl t⟩

theorem Kept.trans {t'' : Task} (h : Kept R t t') (h' : Kept R t' t'') : Kept R t t'' :=
  ⟨h'.pid.trans h.pid, h'.parentPid.trans h.parentPid, hR.trans h.fate h'.fate⟩

theorem Became.of_eq (h : s'.tasks = s.tasks) : Became R s s' :=
  ⟨by rw [h], fun ht => ⟨_, by rwa [h], Kept.refl hR _⟩⟩

theorem Became.trans (h : Became R s s') (h' : Became R s' s'') : Became R s s'' := by
  refine ⟨h'.length.trans h.length, fun ht => ?_⟩
  obtain ⟨t', ht', hkept⟩ := h.kept ht
  obtain ⟨t'', ht'', hkept'⟩ := h'.kept ht'
  exact ⟨t'', ht'', hkept.trans hR hkept'⟩

theorem Became.modifyAt (i : Nat) (hf : ∀ t, s.tasks[i]? = some t → Kept R t (f t)) :
    Became R s (s.modifyAt i f) := by
  refine ⟨length_modify _ _ _, fun {j t} ht => ?_⟩
  rw [getElem?_modifyAt, ht]
  by_cases hij : i = j
  · subst hij
    exact ⟨f t, if_pos rfl, hf t ht⟩
  · exact ⟨t, if_neg hij, Kept.refl hR t⟩

theorem Became.modifyTaskNow (pid : Nat) {f : Nat → Task → Task}
    (hf : ∀ now t, s.taskByPid pid = some t → Kept R t (f now t)) :
    Became R s (s.modifyTaskNow clock pid f) := by
  rcases s.modifyTaskNow_cases clock pid f with ⟨-, h⟩ | ⟨t, ht, h⟩
  · rw [h]
    exact Became.of_eq hR rfl
  · rw [h]
    exact (Became.modifyAt hR _ fun t ht => hf _ t ht).trans hR (Became.of_eq hR rfl)

omit hR in
theorem Became.map_pid (h : Became R s s') : s'.tasks.map pid = s.tasks.map pid := by
  refine ext_getElem? fun i => ?_
  rw [getElem?_map, getElem?_map]
  rcases ht : s.tasks[i]? with _ | t
  · have hlen := getElem?_eq_none_iff.1 ht
    rw [getElem?_eq_none (h.length ▸ hlen)]
  obtain ⟨t', ht', hkept⟩ := h.kept ht
  rw [ht']
  exact congrArg some hkept.pid

theorem Became.leaveFor (s : Kernel) (next : Nat) : Became R s (s.leaveFor next) := by
  rcases s.leaveFor_cases next with ⟨h, -⟩ | ⟨old, -, -, h⟩
  · rw [h]
    exact Became.of_eq hR rfl
  rw [h]
  refine (Became.modifyAt hR old fun t _ => ?_).trans hR (Became.of_eq hR rfl)
  rw [yield]
  split_ifs with hrun
  · exact ⟨rfl, rfl, hR.alive (by rw [hrun]; decide)⟩
  · exact Kept.refl hR t

theorem Became.accountSwitch (clock : Nat → Nat) (s : Kernel) (nextPid : Nat) :
    Became R s (s.accountSwitch clock nextPid) := by
  have hpause : ∀ now (t : Task), Kept R t (t.pause now) := fun _ _ => ⟨rfl, rfl, hR.keep rfl rfl⟩
  have hresume : ∀ now (t : Task), Kept R t (t.resume now) := fun _ _ => ⟨rfl, rfl, hR.keep rfl rfl⟩
  exact ((Became.modifyAt hR _ fun t _ => hpause _ t).trans hR
    (Became.modifyAt hR _ fun t _ => hresume _ t)).trans hR (Became.of_eq hR rfl)

theorem Became.switchTo {next : Nat} {task : Task} (htask : s.tasks[next]? = some task)
    (hrun : task.isRunnable = true) (newPid coreId : Nat) :
    Became R s (s.switchTo clock next newPid coreId) := by
  have haccount := (Became.leaveFor hR s next).trans hR
    (Became.accountSwitch hR clock (s.leaveFor next) newPid)
  let switched : Kernel :=
    { (s.leaveFor next).accountSwitch clock newPid with currentPid := newPid }.setCoreTask
      coreId newPid
  have hswitched : Became R s switched := haccount.trans hR (Became.of_eq hR rfl)
  refine hswitched.trans hR (Became.modifyAt hR next fun t ht => ?_)
  -- the task that is switched to has not ended
  have hmap := map_accountSwitch (g := state) (fun _ _ => rfl) (fun _ _ => rfl) clock
    (s.leaveFor next) newPid
  obtain ⟨t0, ht0, hstate⟩ := getElem?_of_map_eq hmap ht
  rw [getElem?_leaveFor, htask] at ht0
  obtain rfl := some.inj ht0
  refine ⟨rfl, rfl, hR.alive fun hzombie => ?_⟩
  rw [isRunnable, ← hstate, hzombie] at hrun
  exact absurd hrun (by decide)

/-- **A move keeps the tasks, and they become what they may.** -/
theorem Move.became (h : Move clock R s s') : Became R s s' := by
  cases h with
  | aside h => exact Became.of_eq hR h.tasks
  | edit i f hf =>
    exact Became.modifyAt hR i fun t ht => (hf t ht).1.toKept
  | pause pid f hf =>
    exact Became.modifyTaskNow hR pid fun now t ht => (hf now t ht).1.toKept
  | resume => exact Became.modifyTaskNow hR _ fun _ _ _ => ⟨rfl, rfl, hR.keep rfl rfl⟩
  | setMode => exact Became.modifyTaskNow hR _ fun _ _ _ => ⟨rfl, rfl, hR.keep rfl rfl⟩
  | clear => exact Became.of_eq hR rfl
  | locate => exact Became.of_eq hR rfl
  | switch next task coreId htask hrun => exact Became.switchTo hR htask hrun _ _

theorem Moves.became (h : Moves clock R s s') : Became R s s' := by
  induction h with
  | refl => exact Became.of_eq hR rfl
  | tail _ hmove ih => exact ih.trans hR (hmove.became hR)

theorem Moves.nodup (h : Moves clock R s s') (hs : (s.tasks.map pid).Nodup) :
    (s'.tasks.map pid).Nodup := (h.became hR).map_pid ▸ hs

/-! ## Steps as moves -/

omit hR in
theorem Moves.aside (h : Aside s s') : Moves clock R s s' := .single (.aside h)

theorem Moves.pauseTask (s : Kernel) (pid : Nat) :
    Moves clock R s (s.modifyTaskNow clock pid pause) :=
  .single (.pause pid pause fun _ _ _ => ⟨⟨⟨rfl, rfl, hR.keep rfl rfl⟩, id⟩, rfl⟩)

theorem Moves.scheduleOn (s : Kernel) (coreId : Nat) :
    Moves clock R s (s.scheduleOn clock coreId).2 := by
  rw [Kernel.scheduleOn]
  by_cases hlen : s.tasks.length = 0
  · rw [if_pos hlen]
    have hclear : Move clock R s { s with currentIndex := none } := by
      refine .clear fun t ht => ?_
      obtain ⟨i, -, hi⟩ := bind_eq_some_iff.1 ht
      rw [length_eq_zero_iff.1 hlen] at hi
      cases hi
    exact .tail (.single hclear) (.aside {})
  · rw [if_neg hlen]
    have hpos : 0 < s.tasks.length := Nat.pos_of_ne_zero hlen
    have hstart : (s.currentIndex.elim 0 fun index => (index + 1) % s.tasks.length) <
        s.tasks.length := by
      cases s.currentIndex with
      | none => exact hpos
      | some index => exact Nat.mod_lt _ hpos
    split
    · rename_i hnone
      -- no task is runnable, so the current one is not running
      have hclear : Move clock R (s.modifyTaskNow clock s.currentPid pause)
          { s.modifyTaskNow clock s.currentPid pause with currentIndex := none } := by
        refine .clear fun t ht => ?_
        obtain ⟨i, -, hi⟩ := bind_eq_some_iff.1 ht
        obtain ⟨t0, ht0, hstate⟩ := getElem?_of_map_eq
          (map_modifyTaskNow (g := state) (f := pause) (fun _ _ => rfl) clock s _) hi
        rw [hstate]
        exact not_running_of_not_isRunnable
          (nextRunnable_none hstart hnone (mem_of_getElem? ht0))
      exact ((Moves.pauseTask hR s _).tail hclear).tail (.aside {})
    · rename_i next hnext
      obtain ⟨task, htask, hrun⟩ := nextRunnable_some hnext
      rw [htask]
      refine .single (.switch next task coreId htask hrun fun hindex j t hj ht => ?_)
      rw [hindex] at hnext
      exact nextRunnable_zero hnext hj ht

/-- **A change of state is a sequence of moves, if the task may have that state.** -/
theorem Moves.setTaskState (clock : Nat → Nat) (hs : (s.tasks.map Task.pid).Nodup)
    {pid : Nat} {state : TaskState}
    (hstate : state ≠ .running) (hfate : ∀ t, s.taskByPid pid = some t → R t (t.setState state)) :
    Moves clock R s (s.setTaskState clock pid state).2 := by
  rw [Kernel.setTaskState]
  dsimp only
  split
  · exact .refl
  -- the first part only pauses the account
  have hpaused : ∃ paused, (if state = .waiting ∨ state = .zombie then
        s.modifyTaskNow clock pid pause else s) = paused ∧ Moves clock R s paused ∧
      paused.tasks.map (fun t => (t.pid, t.state, t.exitCode)) =
        s.tasks.map (fun t => (t.pid, t.state, t.exitCode)) := by
    split
    · exact ⟨_, rfl, Moves.pauseTask hR s pid,
        map_modifyTaskNow (f := pause) (fun _ _ => rfl) clock s pid⟩
    · exact ⟨s, rfl, .refl, rfl⟩
  obtain ⟨paused, hpaused, hmoves, hmap⟩ := hpaused
  rw [hpaused]
  have hpids : paused.tasks.map Task.pid = s.tasks.map Task.pid := (hmoves.became hR).map_pid
  have hedit : Moves clock R s (paused.modifyTask pid (setState state)) := by
    refine hmoves.tail (.edit _ _ fun t ht => ⟨⟨⟨rfl, rfl, ?_⟩, fun h => absurd h hstate⟩, rfl⟩)
    obtain ⟨t0, ht0, heq⟩ := getElem?_of_map_eq hmap ht
    rw [position_congr hpids] at ht0
    simp only [Prod.mk.injEq] at heq
    exact hR.trans (hR.keep heq.2.1.symm heq.2.2.symm)
      (hR.trans (hfate t0 ht0) (hR.keep rfl heq.2.2))
  split_ifs with hcurrent
  · refine (hedit.tail (.clear fun t ht => ?_)).tail (.aside {})
    -- the current task is the one that was changed
    obtain ⟨i, -, hi⟩ := bind_eq_some_iff.1 ht
    rw [ht, map_some, some.injEq] at hcurrent
    have hpos := position_eq (hedit.nodup hR hs) hi
    rw [hcurrent.1, position_congr ((hedit.became hR).map_pid), ←
      position_congr hpids] at hpos
    rcases getElem?_modifyAt_cases hi with ⟨hne, -⟩ | ⟨-, t0, -, rfl⟩
    · exact absurd hpos hne
    · exact hstate
  · exact hedit

theorem Moves.readyCurrent (hs : (s.tasks.map pid).Nodup) :
    Moves clock R s (s.readyCurrent clock) := by
  rw [Kernel.readyCurrent]
  split
  · exact .refl
  split_ifs with hzombie
  · exact .refl
  refine Moves.setTaskState hR clock hs (by decide) fun t ht => hR.alive fun hstate => ?_
  exact hzombie (by rw [ht, map_some, hstate])

theorem Moves.preemptAndSwitch (hs : (s.tasks.map pid).Nodup) :
    Moves clock R s (s.preemptAndSwitch clock).2 := by
  have hmoves := (Moves.readyCurrent hR hs).trans (Moves.scheduleOn hR (s.readyCurrent clock) 0)
  rw [Kernel.preemptAndSwitch]
  split
  · rename_i s' heq
    rw [heq] at hmoves
    exact hmoves
  rename_i newPid s' heq
  rw [heq] at hmoves
  split <;> exact hmoves

omit hR in
theorem Moves.switchToPid (s : Kernel) (pid : Nat) (valid : Bool) :
    Moves clock R s (s.switchToPid clock pid valid).2 := by
  rw [Kernel.switchToPid]
  have hlocated : ∃ located, (if s.currentIndex.isNone then
        { s with currentIndex := s.tasks.findIdx? (·.pid == s.currentPid) } else s) = located ∧
      Moves clock R s located := by
    split_ifs with hnone
    · exact ⟨_, rfl, .single (.locate (isNone_iff_eq_none.1 hnone))⟩
    · exact ⟨s, rfl, .refl⟩
  obtain ⟨located, hlocated, hmoves⟩ := hlocated
  rw [hlocated]
  split
  · rename_i old target hold _
    split
    · rename_i task _ htask
      split_ifs with hcond
      · refine hmoves.tail (.switch target task 0 htask hcond.2.1 fun hnone => ?_)
        rw [hold] at hnone
        cases hnone
      · exact hmoves
    · exact hmoves
  · exact hmoves

omit hR in
theorem Moves.preemptIfHigherPriority (s : Kernel) :
    Moves clock R s (s.preemptIfHigherPriority clock).2 := by
  rw [Kernel.preemptIfHigherPriority]
  split
  · exact .refl
  rename_i current hcurrent
  split
  · exact .refl
  split
  · exact .refl
  rename_i next priority hfold
  split
  · exact .refl
  split
  · exact .refl
  rename_i new hnew
  rcases better_foldl (congrArg Prod.fst hfold) with h | ⟨task, hmem, hrun⟩
  · cases h
  rw [mk_mem_zipIdx_iff_getElem?] at hmem
  obtain rfl := some.inj (hnew.symm.trans hmem)
  refine .single (.switch next new 0 hnew hrun fun hnone => ?_)
  rw [hcurrent] at hnone
  cases hnone

/-- **Leaving an ended task is a sequence of moves.** -/
theorem Moves.leave (hs : (s.tasks.map pid).Nodup) (parentPid : Option Nat) (valid : Bool) :
    Moves clock R s (s.leave clock parentPid valid) := by
  rcases parentPid with _ | pid
  · exact Moves.preemptAndSwitch hR hs
  have hswitch : Moves clock R s (s.switchToPid clock pid valid).2 := Moves.switchToPid s pid valid
  rw [Kernel.leave]
  split
  · rename_i plan s' heq
    rw [heq] at hswitch
    exact hswitch
  rename_i s' heq
  rw [heq] at hswitch
  exact hswitch.trans (Moves.preemptAndSwitch hR (hswitch.nodup hR hs))

end Fate

/-- A task may end: it has not ended yet, or may end again. -/
def MayEnd (R : Task → Task → Prop) (s : Kernel) (pid : Nat) : Prop :=
  (∀ t, s.taskByPid pid = some t → t.state ≠ .zombie) ∨ ∀ t t' : Task, t'.state = .zombie → R t t'

section Ends

variable {clock : Nat → Nat} {R : Task → Task → Prop} (hR : Fate R) {s : Kernel}

include hR

theorem MayEnd.fate {pid : Nat} (h : MayEnd R s pid) (ht : s.taskByPid pid = some t)
    (ht' : t.state = .zombie → t'.state = .zombie) : R t t' := by
  rcases h with h | h
  · exact hR.alive (h t ht)
  by_cases hstate : t.state = .zombie
  · exact h t t' (ht' hstate)
  · exact hR.alive hstate

theorem Moves.exit (hs : (s.tasks.map pid).Nodup) (status : Int) (valid : Bool)
    (h : MayEnd R s s.currentPid) : Moves clock R s (s.exit clock status valid) := by
  rw [Kernel.exit]
  split
  · exact Moves.aside {}
  have hcode : Moves clock R s (s.modifyTask s.currentPid (setExitCode status)) :=
    .single (.edit _ _ fun t ht => ⟨⟨⟨rfl, rfl, h.fate hR ht id⟩, id⟩, rfl⟩)
  have hpids := (hcode.became hR).map_pid
  have hend : MayEnd R (s.modifyTask s.currentPid (setExitCode status)) s.currentPid := by
    refine h.imp_left fun halive t ht => ?_
    rw [taskByPid, position_congr hpids] at ht
    rcases getElem?_modifyAt_cases ht with ⟨hne, -⟩ | ⟨-, t0, ht0, rfl⟩
    · exact absurd rfl hne
    · exact halive t0 ht0
  have hfate : ∀ t, (s.modifyTask s.currentPid (setExitCode status)).taskByPid s.currentPid =
      some t → R t (t.setState .zombie) := fun t ht => hend.fate hR ht fun _ => rfl
  have hzombie := hcode.trans
    (Moves.setTaskState hR clock (hcode.nodup hR hs) (by decide) hfate)
  exact hzombie.trans (Moves.leave hR (Moves.nodup hR hzombie hs) _ valid)

theorem Moves.fault (hs : (s.tasks.map pid).Nodup) (code : Int) (valid : Bool)
    (h : MayEnd R s s.currentPid) : Moves clock R s (s.fault clock code valid) := by
  rw [Kernel.fault]
  split
  · exact Moves.aside {}
  have hzombie : Moves clock R s (s.modifyTask s.currentPid fun task =>
      (task.setExitCode code).setState .zombie) :=
    .single (.edit _ _ fun t ht =>
      ⟨⟨⟨rfl, rfl, h.fate hR ht fun _ => rfl⟩, nofun⟩, rfl⟩)
  exact hzombie.trans (Moves.leave hR (hzombie.nodup hR hs) _ valid)

theorem Moves.deliverSignal (s : Kernel) (pid : Nat) (signal : Signal)
    (h : signal.isFatal = true → MayEnd R s pid) :
    Moves clock R s (s.deliverSignal clock pid signal).2 := by
  rw [Kernel.deliverSignal]
  split
  · exact .refl
  split
  · rename_i hfatal
    split
    · exact Moves.aside {}
    · exact .single (.pause _ _ fun now t ht =>
        ⟨⟨⟨rfl, rfl, (h hfatal).fate hR ht fun _ => rfl⟩, nofun⟩, rfl⟩)
  · exact .single (.edit _ _ fun t _ => ⟨⟨⟨rfl, rfl, hR.keep rfl rfl⟩, id⟩, rfl⟩)

theorem Moves.kill (s : Kernel) (pid sig : Int)
    (h : ∀ signal, signalOfNumber sig = some signal → signal.isFatal = true →
      MayEnd R s (s.killTarget pid)) : Moves clock R s (s.kill clock pid sig).2 := by
  rw [Kernel.kill]
  split
  · exact .refl
  split
  · exact .refl
  · rename_i signal hsignal
    exact Moves.deliverSignal hR s _ signal (h signal hsignal)

theorem Moves.sleepOnTtyInput (hs : (s.tasks.map pid).Nodup)
    (h : ∀ t, s.taskByPid s.currentPid = some t → R t (t.setState .waiting)) :
    Moves clock R s (s.sleepOnTtyInput clock).2 := by
  have hmoves := Moves.setTaskState hR clock hs (by decide) h
  rw [Kernel.sleepOnTtyInput]
  split
  · rename_i t heq
    rw [heq] at hmoves
    exact hmoves.tail (.aside {})
  rename_i t heq
  rw [heq] at hmoves
  exact hmoves

theorem Moves.wakeOneTtyWaiter (hs : (s.tasks.map pid).Nodup)
    (h : ∀ pid queue, s.ttyInputQueue = pid :: queue →
      ∀ t, s.taskByPid pid = some t → R t (t.setState .ready)) :
    Moves clock R s (s.wakeOneTtyWaiter clock).2 := by
  rw [Kernel.wakeOneTtyWaiter]
  split
  · exact .refl
  rename_i pid queue hqueue
  have haside : Moves clock R s { s with ttyInputQueue := queue } :=
    Moves.aside {}
  exact haside.trans
    (Moves.setTaskState (s := { s with ttyInputQueue := queue }) hR clock hs (by decide)
      (h pid queue hqueue))

omit hR in
theorem Moves.resumeCpuAccounting (s : Kernel) : Moves clock R s (s.resumeCpuAccounting clock) := by
  rw [Kernel.resumeCpuAccounting]
  split
  · exact .refl
  · exact .single .resume

theorem Moves.lowerCurrentPriority (s : Kernel) : Moves clock R s s.lowerCurrentPriority := by
  rw [Kernel.lowerCurrentPriority]
  split
  · exact .refl
  · exact .single (.edit _ _ fun t _ => ⟨⟨⟨rfl, rfl, hR.keep rfl rfl⟩, id⟩, rfl⟩)

end Ends

/-! ## Forks and reaped children -/

/-- The table without the task at this index, with the current task where it was. -/
def Kernel.remove (s : Kernel) (index : Nat) : Kernel :=
  { s with
    tasks := s.tasks.eraseIdx index
    currentIndex := s.currentIndex.bind (indexAfterRemove index) }

/-- The state after this child was reaped. -/
def Kernel.reaped (clock : Nat → Nat) (s : Kernel) (index : Nat) (child : Task) : Kernel :=
  ((s.remove index).modifyTaskNow clock child.parentPid fun now parent =>
    { parent with cpuTime := parent.cpuTime.reap child.cpuTime now }).clearCoreTask child.pid

theorem Kernel.parentPid_of_matchesChild {parentPid : Nat} {expected : Option Nat}
    (h : matchesChild parentPid expected t = true) : t.parentPid = parentPid := by
  rw [matchesChild, decide_eq_true_eq] at h
  exact h.1

/-- **Reaping takes the first child that has ended and matches.** -/
theorem Kernel.reapZombieChild_cases (clock : Nat → Nat) (s : Kernel) (parentPid : Nat)
    (expected : Option Nat) :
    (s.reapZombieChild clock parentPid expected = (none, s) ∧
        ∀ t ∈ s.tasks, matchesChild parentPid expected t = true → t.state ≠ .zombie) ∨
      ∃ index child, s.tasks[index]? = some child ∧ child.state = .zombie ∧
        matchesChild parentPid expected child = true ∧
        s.reapZombieChild clock parentPid expected =
          (some (child.pid, child.exitCode), s.reaped clock index child) := by
  rw [reapZombieChild]
  cases hchild : s.tasks[s.tasks.findIdx fun task =>
      matchesChild parentPid expected task && decide (task.state = .zombie)]? with
  | none =>
    refine .inl ⟨rfl, fun t ht hmatch hzombie => ?_⟩
    refine absurd (getElem?_eq_none_iff.1 hchild) (not_le.2 ?_)
    exact findIdx_lt_length_of_exists ⟨t, ht, by rw [hmatch, hzombie]; rfl⟩
  | some child =>
    obtain ⟨hlt, hget⟩ := List.getElem?_eq_some_iff.1 hchild
    have hfound := findIdx_getElem (w := hlt)
    rw [hget, Bool.and_eq_true, decide_eq_true_eq] at hfound
    have hparent := parentPid_of_matchesChild hfound.1
    refine .inr ⟨_, child, hchild, hfound.2, hfound.1, ?_⟩
    refine Prod.ext rfl ?_
    rw [reaped, hparent]
    exact congrArg (fun k => clearCoreTask k child.pid)
      (modifyTaskNow_index clock { s with tasks := s.tasks.eraseIdx _ } parentPid _
        fun index => index.bind (indexAfterRemove _))

/-- **What a step comes to**: moves, a new child of the current task, or one child less, which is
returned. -/
inductive Effect (clock : Nat → Nat) (R : Task → Task → Prop) (s : Kernel) :
    Option Returned → Kernel → Prop
  | moves {s' : Kernel} (h : Moves clock R s s') : Effect clock R s none s'
  | forked (s1 : Kernel) (parent : Task) (hmoves : Moves clock R s s1)
      (hnext : s.nextPid < s1.nextPid) (hparent : s.taskByPid s.currentPid = some parent)
      (hfresh : s.nextPid % 2 ^ 64 ∉ s.tasks.map pid) :
      Effect clock R s none (s1.addTask (parent.fork (s.nextPid % 2 ^ 64)))
  | reaped (index : Nat) (child : Task) (hchild : s.tasks[index]? = some child)
      (hzombie : child.state = .zombie) :
      Effect clock R s (some ⟨child.parentPid, child.pid, child.exitCode⟩)
        (s.reaped clock index child)

/-- The condition under which a step respects what may happen to ended tasks. -/
def TaskOp.Respects (R : Task → Task → Prop) (s : Kernel) : TaskOp → Prop
  | .setTaskState pid state => ∀ t, s.taskByPid pid = some t → R t (t.setState state.1)
  | .exit _ _ | .invalidOpcode _ | .generalProtectionFault _ | .pageFault _ =>
    MayEnd R s s.currentPid
  | .kill pid sig => ∀ signal, signalOfNumber sig = some signal → signal.isFatal = true →
      MayEnd R s (s.killTarget pid)
  | .signalCurrent signal => signal.isFatal = true → MayEnd R s s.currentPid
  | .sleepOnTtyInput => ∀ t, s.taskByPid s.currentPid = some t → R t (t.setState .waiting)
  | .wakeOneTtyWaiter => ∀ pid queue, s.ttyInputQueue = pid :: queue →
      ∀ t, s.taskByPid pid = some t → R t (t.setState .ready)
  | _ => True

/-- The pid that a fork hands out is not in use. -/
def TaskOp.Fresh (s : Kernel) (op : TaskOp) : Prop :=
  ∀ prepared, op = .fork prepared → s.nextPid % 2 ^ 64 ∉ s.tasks.map pid

section Effect

variable {clock : Nat → Nat} {R : Task → Task → Prop} (hR : Fate R) {s : Kernel}

include hR

omit hR in
theorem Effect.reapZombieChild (s : Kernel) (parentPid : Nat) (expected : Option Nat) :
    Effect clock R s ((reapZombieChild parentPid expected).returned clock s)
      (s.reapZombieChild clock parentPid expected).2 := by
  rw [returned]
  rcases s.reapZombieChild_cases clock parentPid expected with ⟨h, -⟩ |
    ⟨index, child, hchild, hzombie, hmatch, h⟩
  · rw [h]
    exact .moves .refl
  · rw [h, ← parentPid_of_matchesChild hmatch]
    exact .reaped index child hchild hzombie

theorem Effect.waitForChild (s : Kernel) (parentPid : Nat) (pid : Option Nat) (nohang : Bool) :
    Effect clock R s ((waitForChild parentPid pid nohang).returned clock s)
      (s.waitForChild clock parentPid pid nohang).2 := by
  rw [returned, Kernel.waitForChild]
  rcases s.reapZombieChild_cases clock parentPid pid with ⟨h, -⟩ |
    ⟨index, child, hchild, hzombie, hmatch, h⟩
  · rw [h]
    dsimp only
    by_cases hany : ¬s.tasks.any (matchesChild parentPid pid)
    · rw [if_pos hany]
      exact .moves .refl
    rw [if_neg hany]
    cases nohang with
    | true => exact .moves .refl
    | false => exact .moves (Moves.pauseTask hR s _)
  · rw [h, ← parentPid_of_matchesChild hmatch]
    exact .reaped index child hchild hzombie

theorem Effect.fork (hfresh : s.nextPid % 2 ^ 64 ∉ s.tasks.map pid) (prepared : Except Int Unit) :
    Effect clock R s none (s.forkCurrentTaskWith prepared).2 := by
  rw [forkCurrentTaskWith]
  split
  · exact .moves .refl
  rename_i parent hparent
  have hpid : Moves clock R s { s with nextPid := s.nextPid + 1 } :=
    Moves.aside { nextPid := Nat.le_succ _ }
  cases prepared with
  | error code => exact .moves hpid
  | ok =>
    refine .forked _ parent (hpid.tail (.edit _ _ fun t _ => ?_)) (Nat.lt_succ_self _) hparent
      hfresh
    exact ⟨⟨⟨rfl, rfl, hR.keep rfl rfl⟩, id⟩, rfl⟩

/-- **Every step that respects `R` has such an effect.** -/
theorem TaskOp.effect (hs : (s.tasks.map pid).Nodup) (op : TaskOp) (h : op.Respects R s)
    (hfresh : op.Fresh s) : Effect clock R s (op.returned clock s) (op.apply clock s) := by
  cases op with
  | setTaskState pid state => exact .moves (Moves.setTaskState hR clock hs state.2 h)
  | schedule coreId => exact .moves (Moves.scheduleOn hR s coreId)
  | preemptAndSwitch => exact .moves (Moves.preemptAndSwitch hR hs)
  | switchToPid pid valid => exact .moves (Moves.switchToPid s pid valid)
  | preemptIfHigherPriority => exact .moves (Moves.preemptIfHigherPriority s)
  | lowerCurrentPriority => exact .moves (Moves.lowerCurrentPriority hR s)
  | reapZombieChild parentPid expected => exact Effect.reapZombieChild s parentPid expected
  | waitForChild parentPid pid nohang => exact Effect.waitForChild hR s parentPid pid nohang
  | setMode mode => exact .moves (.single (.setMode mode))
  | idle => exact .moves (Moves.pauseTask hR s _)
  | resume => exact .moves (Moves.resumeCpuAccounting s)
  | fork prepared => exact Effect.fork hR (hfresh prepared rfl) prepared
  | enterUserland =>
    exact .moves (.single (.edit _ _ fun t _ => ⟨⟨⟨rfl, rfl, hR.keep rfl rfl⟩, id⟩, rfl⟩))
  | exit status valid => exact .moves (Moves.exit hR hs status valid h)
  | invalidOpcode valid => exact .moves (Moves.fault hR hs 132 valid h)
  | generalProtectionFault valid => exact .moves (Moves.fault hR hs 128 valid h)
  | pageFault valid => exact .moves (Moves.fault hR hs 139 valid h)
  | kill pid sig => exact .moves (Moves.kill hR s pid sig h)
  | signalCurrent signal => exact .moves (Moves.deliverSignal hR s _ signal h)
  | sleepOnTtyInput => exact .moves (Moves.sleepOnTtyInput hR hs h)
  | wakeOneTtyWaiter => exact .moves (Moves.wakeOneTtyWaiter hR hs h)

end Effect

/-! ## Pids are handed out once -/

/-- Pids are distinct, and `alloc_pid` is past all of them. -/
structure Counted (s : Kernel) : Prop where
  distinct : (s.tasks.map Task.pid).Nodup
  bound : ∀ pid ∈ s.tasks.map Task.pid, pid < s.nextPid

namespace Counted

variable {clock : Nat → Nat} {R : Task → Task → Prop} (hR : Fate R) {s s' : Kernel}

theorem fresh (hs : Counted s) (hfew : s.nextPid < 2 ^ 64) (op : TaskOp) : op.Fresh s := by
  intro _ _ hmem
  rw [Nat.mod_eq_of_lt hfew] at hmem
  exact lt_irrefl _ (hs.bound _ hmem)

theorem nextPid_move (h : Move clock R s s') : s.nextPid ≤ s'.nextPid := by
  have hnow : ∀ pid f, (s.modifyTaskNow clock pid f).nextPid = s.nextPid := by
    intro pid f
    rw [modifyTaskNow]
    split <;> rfl
  cases h with
  | aside h => exact h.nextPid
  | pause pid f => exact le_of_eq (hnow pid f).symm
  | resume => exact le_of_eq (hnow _ _).symm
  | setMode mode => exact le_of_eq (hnow _ _).symm
  | edit | clear | locate => exact le_rfl
  | switch next task coreId =>
    rcases s.leaveFor_cases next with ⟨h, -⟩ | ⟨old, -, -, h⟩ <;>
      · rw [switchTo, h]
        exact le_rfl

include hR

theorem moves (hs : Counted s) (h : Moves clock R s s') : Counted s' ∧ s.nextPid ≤ s'.nextPid := by
  have hnext : s.nextPid ≤ s'.nextPid := by
    induction h with
    | refl => exact le_rfl
    | tail _ hmove ih => exact ih.trans (nextPid_move hmove)
  have hpids := (h.became hR).map_pid
  exact ⟨⟨hpids ▸ hs.distinct, fun pid hpid => (hs.bound pid (hpids ▸ hpid)).trans_le hnext⟩, hnext⟩

/-- **No step uses a pid twice.** -/
theorem effect (hs : Counted s) {returned : Option Returned} (h : Effect clock R s returned s') :
    Counted s' := by
  cases h with
  | moves h => exact (hs.moves hR h).1
  | forked s1 parent hmoves hnext hparent hfresh =>
    have hs1 := (hs.moves hR hmoves).1
    have hpids := (hmoves.became hR).map_pid
    constructor
    · rw [addTask, map_append]
      exact nodup_append_comm.1 (nodup_cons.2 ⟨hpids ▸ hfresh, hs1.distinct⟩)
    · intro pid hpid
      rw [addTask, map_append, mem_append] at hpid
      rcases hpid with hpid | hpid
      · exact hs1.bound pid hpid
      rw [map_singleton, mem_singleton] at hpid
      subst hpid
      exact (Nat.mod_le _ _).trans_lt hnext
  | reaped index child =>
    have hpids : (s.reaped clock index child).tasks.map pid =
        (s.remove index).tasks.map pid :=
      map_modifyTaskNow (f := fun now parent =>
        { parent with cpuTime := parent.cpuTime.reap child.cpuTime now }) (fun _ _ => rfl) clock _ _
    have hsub : ((s.remove index).tasks.map pid).Sublist (s.tasks.map pid) :=
      (eraseIdx_sublist _ _).map _
    have hnext : (s.reaped clock index child).nextPid = s.nextPid := by
      rw [reaped, modifyTaskNow]
      split <;> rfl
    rw [← hpids] at hsub
    exact ⟨hs.distinct.sublist hsub, fun pid hpid => hnext ▸ hs.bound pid (hsub.subset hpid)⟩

end Counted

/-! ## Boot -/

section Boot

variable (clock : Nat → Nat) (drivers : Bool) (coreCount : Nat)

theorem tasks_boot :
    (boot clock drivers coreCount).tasks =
      ((Task.new ROOT_PID 0).setState .running).resume (clock 0) ::
        if drivers then [Task.new KERNEL_IO_TASK_PID 0] else [] := by
  cases drivers <;> rfl

theorem Counted.boot :
    Counted (boot clock drivers coreCount) := by
  have hpids : (Kernel.boot clock drivers coreCount).tasks.map Task.pid =
      ROOT_PID :: if drivers then [KERNEL_IO_TASK_PID] else [] := by
    rw [tasks_boot]
    cases drivers <;> rfl
  have hnext : (Kernel.boot clock drivers coreCount).nextPid = 3 := by cases drivers <;> rfl
  refine ⟨?_, ?_⟩
  · rw [hpids]
    cases drivers <;> decide
  · rw [hpids, hnext]
    cases drivers <;> decide

end Boot

/-- What is put into `Fate` if nothing is asked of ended tasks. -/
theorem Fate.any : Fate fun _ _ => True :=
  ⟨fun _ => trivial, fun _ _ => trivial, fun _ _ => trivial⟩

theorem TaskOp.respects_any (op : TaskOp) (s : Kernel) : op.Respects (fun _ _ => True) s := by
  cases op <;> simp [TaskOp.Respects, MayEnd]

theorem Counted.step {s : Kernel} (hs : Counted s) (hfew : s.nextPid < 2 ^ 64) (clock : Nat → Nat)
    (op : TaskOp) : Counted (op.step clock s) := by
  rw [TaskOp.step]
  split
  · exact hs
  · exact hs.effect Fate.any (op.effect Fate.any hs.distinct (op.respects_any s) (hs.fresh hfew op))

theorem TaskOp.fewPids_append {clock : Nat → Nat} {s : Kernel} {ops ops' : List TaskOp} :
    FewPids clock s (ops ++ ops') ↔
      FewPids clock s ops ∧ FewPids clock (runFrom (step clock) s ops) ops' := by
  induction ops generalizing s with
  | nil => exact (iff_of_eq (true_and _)).symm
  | cons op ops ih =>
    rw [cons_append, FewPids, FewPids, ih, and_assoc]
    rfl

/-- **No pid is in use twice, as long as there are fewer than `2 ^ 64`.** -/
theorem counted_after (clock : Nat → Nat) (drivers : Bool) (coreCount : Nat) {ops : List TaskOp}
    (hpids : FewPids clock (boot clock drivers coreCount) ops) :
    Counted (after clock drivers coreCount ops) := by
  induction ops using reverseRecOn with
  | nil => exact Counted.boot clock drivers coreCount
  | append_singleton ops op ih =>
    obtain ⟨hbefore, hfew, -⟩ := fewPids_append.1 hpids
    rw [after, runFrom_concat]
    exact (ih hbefore).step hfew clock op

end Krust.Process
