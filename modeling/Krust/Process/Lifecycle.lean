import Krust.Process.Moves
import Mathlib.Data.List.Perm.Basic

/-!
# Tasks that have ended

A task that has ended stays in the table until its parent waits for it.

* It keeps its state and its exit code until it is reaped, as long as nothing is done to it that is
  meant for live tasks (`ended_kept`).  A fatal signal, a wakeup, or an exit, fault or sleep of a
  task that was killed and still runs do change it: none of these looks at the state first.
* Forks, exits and waits lose no child and return none twice, and a wait is answered as it should be
  (`child_returned_once`).
-/

set_option autoImplicit false

namespace Krust.Process

open Lib List Option TaskOp Kernel Returned

/-! ## What becomes of a task along a run -/

variable {returned : Option Returned} {t : Task} {op : TaskOp}

section Run

variable {clock : Nat → Nat} {R : Task → Task → Prop} (hR : Fate R) {s s' : Kernel}

include hR

theorem Became.reaped (s : Kernel) (index : Nat) (child : Task) :
    Became R (s.remove index) (s.reaped clock index child) := by
  refine Became.trans hR (Became.modifyTaskNow hR child.parentPid fun _ _ _ => ?_)
    (Became.of_eq hR rfl)
  exact ⟨rfl, rfl, hR.keep rfl rfl⟩

/-- **After a step a task is still there, or was returned.** -/
theorem Effect.kept (h : Effect clock R s returned s') (ht : t ∈ s.tasks) :
    (∃ t' ∈ s'.tasks, Kept R t t') ∨
      returned = some ⟨t.parentPid, t.pid, t.exitCode⟩ := by
  obtain ⟨i, hi⟩ := mem_iff_getElem?.1 ht
  cases h with
  | moves h =>
    obtain ⟨t', ht', hkept⟩ := (h.became hR).kept hi
    exact .inl ⟨t', mem_of_getElem? ht', hkept⟩
  | forked s1 parent hmoves =>
    obtain ⟨t', ht', hkept⟩ := (hmoves.became hR).kept hi
    exact .inl ⟨t', mem_append_left _ (mem_of_getElem? ht'), hkept⟩
  | reaped index child hchild =>
    by_cases hindex : i = index
    · rw [hindex, hchild] at hi
      obtain rfl := some.inj hi
      exact .inr rfl
    have hmem : t ∈ (s.remove index).tasks :=
      mem_eraseIdx_iff_getElem?.2 ⟨i, hindex, hi⟩
    obtain ⟨j, hj⟩ := mem_iff_getElem?.1 hmem
    obtain ⟨t', ht', hkept⟩ := (Became.reaped hR s index child).kept hj
    exact .inl ⟨t', mem_of_getElem? ht', hkept⟩

/-- **After a run a task is still there, or was returned as what it had become.** -/
theorem kept_of_run (hs : Counted s) (ops : List TaskOp)
    (hops : ∀ ops' op, ops' ++ [op] <+: ops → op.Respects R (runFrom (step clock) s ops'))
    (hpids : FewPids clock s ops) (ht : t ∈ s.tasks) :
    (∃ t' ∈ (runFrom (step clock) s ops).tasks, Kept R t t') ∨
      ∃ t', Kept R t t' ∧ ⟨t'.parentPid, t'.pid, t'.exitCode⟩ ∈ returnedFrom clock s ops := by
  induction ops generalizing s t with
  | nil => exact .inl ⟨t, ht, Kept.refl hR t⟩
  | cons op ops ih =>
    obtain ⟨hfew, hpids⟩ := hpids
    have hrest : ∀ ops' op', ops' ++ [op'] <+: ops →
        op'.Respects R (runFrom (step clock) (op.step clock s) ops') := by
      intro ops' op' h
      exact hops (op :: ops') op' (cons_prefix_cons.2 ⟨rfl, h⟩)
    rw [returnedFrom]
    by_cases hhalted : s.halted = true
    · rw [if_pos hhalted]
      have hstep : op.step clock s = s := if_pos hhalted
      exact ih (hs.step hfew clock op) hrest hpids (hstep.symm ▸ ht)
    rw [if_neg hhalted]
    have hstep : op.step clock s = op.apply clock s := if_neg hhalted
    have heffect : Effect clock R s (op.returned clock s) (op.apply clock s) :=
      op.effect hR hs.distinct (hops [] op ⟨ops, rfl⟩) (hs.fresh hfew op)
    rcases heffect.kept hR ht with ⟨t', ht', hkept⟩ | hreturned
    · rcases ih (hs.step hfew clock op) hrest hpids (hstep ▸ ht') with ⟨t'', ht'', hkept'⟩ |
        ⟨t'', hkept', hmem⟩
      · exact .inl ⟨t'', ht'', hkept.trans hR hkept'⟩
      · exact .inr ⟨t'', hkept.trans hR hkept', mem_append_right _ hmem⟩
    · refine .inr ⟨t, Kept.refl hR t, mem_append_left _ ?_⟩
      rw [hreturned]
      exact mem_cons_self

end Run

variable (clock : Nat → Nat)

/-! ## State and exit code of an ended task -/

/-- An ended task stays so, with its exit code. -/
def StaysEnded (t t' : Task) : Prop :=
  t.state = .zombie → t'.state = .zombie ∧ t'.exitCode = t.exitCode

theorem fate_staysEnded : Fate StaysEnded where
  alive h hzombie := absurd hzombie h
  keep hstate hcode hzombie := ⟨hstate.trans hzombie, hcode⟩
  trans h h' hzombie :=
    ⟨(h' (h hzombie).1).1, (h' (h hzombie).1).2.trans (h hzombie).2⟩

/-- The task whose state or exit code a step sets without looking at the state it is in. -/
def TaskOp.target (s : Kernel) : TaskOp → Option Nat
  | .setTaskState pid _ => some pid
  | .exit _ _ | .invalidOpcode _ | .generalProtectionFault _ | .pageFault _ | .sleepOnTtyInput =>
    some s.currentPid
  | .kill pid sig => ((signalOfNumber sig).filter Signal.isFatal).map fun _ => s.killTarget pid
  | .signalCurrent signal => if signal.isFatal then some s.currentPid else none
  | .wakeOneTtyWaiter => s.ttyInputQueue.head?
  | _ => none

/-- The step leaves ended tasks alone. -/
def TaskOp.Spares (s : Kernel) (op : TaskOp) : Prop :=
  ∀ pid ∈ op.target s, ∀ t ∈ s.taskByPid pid, t.state ≠ .zombie

theorem TaskOp.Spares.respects {s : Kernel} (h : op.Spares s) : op.Respects StaysEnded s := by
  have hset : ∀ pid, pid ∈ op.target s → ∀ state t, s.taskByPid pid = some t →
      StaysEnded t (t.setState state) :=
    fun pid hpid state t ht => fate_staysEnded.alive (h pid hpid t ht)
  cases op with
  | setTaskState pid state => exact hset pid rfl state.1
  | exit | invalidOpcode | generalProtectionFault | pageFault => exact .inl (h s.currentPid rfl)
  | kill pid sig =>
    intro signal hsignal hfatal
    refine .inl (h _ ?_)
    rw [mem_def, target, hsignal, filter_some, if_pos hfatal, map_some]
  | signalCurrent signal =>
    intro hfatal
    exact .inl (h _ (if_pos hfatal))
  | sleepOnTtyInput => exact hset s.currentPid rfl .waiting
  | wakeOneTtyWaiter =>
    intro pid queue hqueue
    exact hset pid (by rw [mem_def, target, hqueue, head?_cons]) .ready
  | _ => trivial

/-- **An ended task keeps its state and exit code until its parent reaps it**, along every run whose
steps leave ended tasks alone, with fewer than `2 ^ 64` pids. -/
theorem ended_kept (clock : Nat → Nat) (drivers : Bool) (coreCount : Nat) (ops ops' : List TaskOp)
    (hpids : FewPids clock (boot clock drivers coreCount) (ops ++ ops'))
    (hops' : ∀ ops1 op, ops1 ++ [op] <+: ops' →
      op.Spares (after clock drivers coreCount (ops ++ ops1))) :
    ∀ t ∈ (after clock drivers coreCount ops).tasks, t.state = .zombie →
      (∃ t' ∈ (after clock drivers coreCount (ops ++ ops')).tasks,
          t'.pid = t.pid ∧ t'.state = .zombie ∧ t'.exitCode = t.exitCode) ∨
        ⟨t.parentPid, t.pid, t.exitCode⟩ ∈
          returnedFrom clock (after clock drivers coreCount ops) ops' := by
  intro t ht hzombie
  have hrespects : ∀ ops1 op, ops1 ++ [op] <+: ops' →
      op.Respects StaysEnded (runFrom (step clock) (after clock drivers coreCount ops) ops1) := by
    intro ops1 op h
    rw [after, ← runFrom_append]
    exact (hops' ops1 op h).respects
  rw [show after clock drivers coreCount (ops ++ ops') = _ from runFrom_append _ _ _ _]
  obtain ⟨hbefore, hpids⟩ := fewPids_append.1 hpids
  rcases kept_of_run fate_staysEnded (counted_after clock drivers coreCount hbefore) ops' hrespects
    hpids ht with ⟨t', ht', hkept⟩ | ⟨t', hkept, hmem⟩
  · exact .inl ⟨t', ht', hkept.pid, hkept.fate hzombie⟩
  · rw [hkept.pid, hkept.parentPid, (hkept.fate hzombie).2] at hmem
    exact .inr hmem

/-- A child that has exited with status 5 and is waited for by its parent. -/
theorem ended_kept_wait :
    let ops : List TaskOp := [.fork (.ok ()), .switchToPid 3 true, .exit 5 true]
    let ops' : List TaskOp := [.kill 3 18, .waitForChild 1 (some 3) false]
    ∃ t ∈ (after id true 1 ops).tasks, t.pid = 3 ∧ t.exitCode = 5 ∧
      ((∃ t' ∈ (after id true 1 (ops ++ ops')).tasks,
          t'.pid = t.pid ∧ t'.state = .zombie ∧ t'.exitCode = t.exitCode) ∨
        ⟨t.parentPid, t.pid, t.exitCode⟩ ∈ returnedFrom id (after id true 1 ops) ops') := by
  intro ops ops'
  have hspares : ∀ ops1 op, ops1 ++ [op] <+: ops' → op.Spares (after id true 1 (ops ++ ops1)) := by
    have hconcat := forall_event_concat fun ops1 (op : TaskOp) =>
      op.Spares (after id true 1 (ops ++ ops1))
    exact (hconcat [_] _).2 ⟨(hconcat [] _).2 ⟨forall_event_nil, nofun⟩, nofun⟩
  obtain ⟨t, ht, hmem, hpid, hcode, hzombie⟩ : ∃ t, (after id true 1 ops).taskByPid 3 = some t ∧
      t ∈ (after id true 1 ops).tasks ∧ t.pid = 3 ∧ t.exitCode = 5 ∧ t.state = .zombie :=
    ⟨_, rfl, by decide, by decide, by decide, by decide⟩
  have hpids : FewPids id (boot id true 1) (ops ++ ops') := by
    refine ⟨?_, ?_, ?_, ?_, ?_, trivial⟩ <;> decide +kernel
  exact ⟨t, hmem, hpid, hcode, ended_kept id true 1 ops ops' hpids hspares t hmem hzombie⟩

/-- A signal changes the exit code of a child that has exited, and a wakeup brings a killed task
back to life. -/
theorem ended_changed :
    let exited : List TaskOp := [.fork (.ok ()), .switchToPid 3 true, .exit 0 true]
    let killed : List TaskOp := [.fork (.ok ()), .switchToPid 3 true, .sleepOnTtyInput,
      .switchToPid 1 true, .kill 3 9]
    let shown (ops : List TaskOp) : Option (TaskState × Int) :=
      ((after id true 1 ops).taskByPid 3).map fun t => (t.state, t.exitCode)
    shown exited = some (.zombie, 0) ∧ shown (exited ++ [.kill 3 15]) = some (.zombie, 143) ∧
      shown killed = some (.zombie, 137) ∧
      shown (killed ++ [.wakeOneTtyWaiter]) = some (.ready, 137) := by
  decide +kernel

/-! ## Waiting for children -/

/-- What reaping does to a task that stays: its parent collects CPU time. -/
def Collects (parentPid : Nat) (t t' : Task) : Prop :=
  t' = t ∨ (t.pid = parentPid ∧
    ∃ usage, t' = { t with cpuTime := { t.cpuTime with children := usage } })

/-- **What a round of a wait has to come to.** -/
structure WaitRight (s : Kernel) (parentPid : Nat) (pid : Option Nat) (round : Kernel.WaitRound)
    (s' : Kernel) : Prop where
  /-- There is no such child exactly if the answer is `ECHILD`. -/
  echild : round = .error (-10) ↔ ∀ t ∈ s.tasks, matchesChild parentPid pid t = false
  /-- A child that has ended is not waited for in vain. -/
  ended : ∀ t ∈ s.tasks, matchesChild parentPid pid t = true → t.state = .zombie →
    ∃ child status, round = .child child status
  /-- What is returned is an ended child of the caller, with its exit code, and only it is gone. -/
  child : ∀ childPid status, round = .child childPid status → ∃ (index : Nat) (child : Task),
    s.tasks[index]? = some child ∧ child.pid = childPid ∧ child.exitCode = status ∧
      child.state = .zombie ∧ matchesChild parentPid pid child = true ∧
      List.Forall₂ (Collects parentPid) (s.tasks.eraseIdx index) s'.tasks

theorem forall₂_modify {P : Task → Task → Prop} (hrefl : ∀ t, P t t) {l : List Task} {i : Nat}
    {f : Task → Task} (hf : ∀ t, l[i]? = some t → P t (f t)) : List.Forall₂ P l (l.modify i f) := by
  refine forall₂_iff_get.2 ⟨(length_modify _ _ _).symm, fun j hj hj' => ?_⟩
  rw [get_eq_getElem, get_eq_getElem, getElem_modify]
  split_ifs with hij
  · subst hij
    exact hf _ (getElem?_eq_getElem hj)
  · exact hrefl _

/-- Reaping leaves the other tasks as they were, apart from the CPU time their parent collects. -/
theorem forall₂_reaped (s : Kernel) (index : Nat) (child : Task) :
    List.Forall₂ (Collects child.parentPid) (s.tasks.eraseIdx index)
      (s.reaped clock index child).tasks := by
  have hrefl : ∀ t, Collects child.parentPid t t := fun t => .inl rfl
  rw [reaped]
  rcases (s.remove index).modifyTaskNow_cases clock child.parentPid fun now parent =>
    { parent with cpuTime := parent.cpuTime.reap child.cpuTime now } with
    ⟨-, h⟩ | ⟨parent, hparent, h⟩
  · rw [h]
    exact forall₂_same.2 fun t _ => hrefl t
  rw [h]
  exact forall₂_modify hrefl fun t ht =>
    .inr ⟨pid_of_taskByPid (s := s.remove index) ht, _, rfl⟩

/-- **A wait is answered as it should be, in every state.** -/
theorem waitRight (s : Kernel) (parentPid : Nat) (pid : Option Nat) (nohang : Bool) :
    WaitRight s parentPid pid (s.waitForChild clock parentPid pid nohang).1
      (s.waitForChild clock parentPid pid nohang).2 := by
  rw [Kernel.waitForChild]
  rcases s.reapZombieChild_cases clock parentPid pid with ⟨h, hnone⟩ |
    ⟨index, child, hchild, hzombie, hmatch, h⟩
  · rw [h]
    dsimp only
    have hended : ∀ t ∈ s.tasks, Kernel.matchesChild parentPid pid t = true → t.state = .zombie →
        False := fun t ht hmatch hzombie => hnone t ht hmatch hzombie
    by_cases hany : s.tasks.any (matchesChild parentPid pid) = true
    · rw [if_neg (not_not.2 hany)]
      obtain ⟨t, ht, hmatch⟩ := List.any_eq_true.1 hany
      have hsome : ¬∀ t ∈ s.tasks, matchesChild parentPid pid t = false := fun hall =>
        Bool.false_ne_true ((hall t ht).symm.trans hmatch)
      cases nohang <;>
        exact ⟨iff_of_false (by rintro ⟨⟩) hsome, fun t ht hm hz => (hended t ht hm hz).elim,
          by rintro _ _ ⟨⟩⟩
    · rw [if_pos hany]
      refine ⟨iff_of_true rfl fun t ht => ?_, fun t ht hm hz => (hended t ht hm hz).elim,
        by rintro _ _ ⟨⟩⟩
      exact Bool.eq_false_iff.2 fun hmatch => hany (List.any_eq_true.2 ⟨t, ht, hmatch⟩)
  · rw [h]
    have hmem := mem_of_getElem? hchild
    refine ⟨iff_of_false (by rintro ⟨⟩) fun hall => ?_, fun _ _ _ _ => ⟨_, _, rfl⟩, ?_⟩
    · exact Bool.false_ne_true ((hall child hmem).symm.trans hmatch)
    rintro _ _ ⟨⟩
    refine ⟨index, child, hchild, rfl, rfl, hzombie, hmatch, ?_⟩
    rw [← parentPid_of_matchesChild hmatch]
    exact forall₂_reaped clock s index child

/-! ## Every child once -/

/-- The steps other than those that set a task to a state in which it lives. -/
def TaskOp.keepsEnded : TaskOp → Bool
  | .setTaskState _ _ | .sleepOnTtyInput | .wakeOneTtyWaiter => false
  | _ => true

def StaysZombie (t t' : Task) : Prop := t.state = .zombie → t'.state = .zombie

theorem fate_staysZombie : Fate StaysZombie where
  alive h hzombie := absurd hzombie h
  keep hstate _ hzombie := hstate.trans hzombie
  trans h h' hzombie := h' (h hzombie)

theorem TaskOp.respects_of_keepsEnded (h : op.keepsEnded = true) (s : Kernel) :
    op.Respects StaysZombie s := by
  have hend : ∀ pid, MayEnd StaysZombie s pid := fun pid => .inr fun _ _ hzombie _ => hzombie
  cases op with
  | setTaskState | sleepOnTtyInput | wakeOneTtyWaiter => cases h
  | exit | invalidOpcode | generalProtectionFault | pageFault => exact hend _
  | kill | signalCurrent => simp only [Respects, hend, implies_true]
  | _ => trivial

/-- **No pid is returned twice**: what was returned is not in the table any more, and the counter is
past both. -/
structure Unrepeated (s : Kernel) (log : List Returned) : Prop where
  distinct : (log.map Returned.pid ++ s.tasks.map Task.pid).Nodup
  bound : ∀ pid ∈ log.map Returned.pid, pid < s.nextPid

theorem Unrepeated.effect {clock : Nat → Nat} {R : Task → Task → Prop} (hR : Fate R) {s s' : Kernel}
    {log : List Returned} (hs : Unrepeated s log) (hcounted : Counted s) (hfew : s.nextPid < 2 ^ 64)
    (h : Effect clock R s returned s') : Unrepeated s' (log ++ returned.toList) := by
  cases h with
  | moves h =>
    rw [toList_none, append_nil]
    have hpids := (h.became hR).map_pid
    exact ⟨hpids ▸ hs.distinct, fun pid hpid =>
      (hs.bound pid hpid).trans_le (hcounted.moves hR h).2⟩
  | forked s1 parent hmoves hnext =>
    rw [toList_none, append_nil, Nat.mod_eq_of_lt hfew]
    have hpids := (hmoves.became hR).map_pid
    refine ⟨?_, fun pid hpid => (hs.bound pid hpid).trans hnext⟩
    rw [addTask, map_append, hpids, ← append_assoc, nodup_append_comm,
      map_singleton, singleton_append]
    refine nodup_cons.2 ⟨fun hmem => ?_, hs.distinct⟩
    rcases mem_append.1 hmem with hlog | htable
    · exact lt_irrefl _ (hs.bound _ hlog)
    · exact lt_irrefl _ (hcounted.bound _ htable)
  | reaped index child hchild =>
    have hnext : (s.reaped clock index child).nextPid = s.nextPid := by
      rw [reaped, modifyTaskNow]
      split <;> rfl
    have hpids : (s.reaped clock index child).tasks.map Task.pid =
        (s.tasks.eraseIdx index).map Task.pid := (Became.reaped hR s index child).map_pid
    obtain ⟨hlt, hget⟩ := List.getElem?_eq_some_iff.1 hchild
    have hperm : (child.pid :: (s.tasks.eraseIdx index).map Task.pid).Perm (s.tasks.map Task.pid) :=
      hget ▸ (getElem_cons_eraseIdx_perm hlt).map Task.pid
    constructor
    · rw [hpids, map_append, append_assoc]
      exact (hperm.append_left (log.map pid)).nodup_iff.2 hs.distinct
    · intro pid hpid
      rw [map_append, mem_append] at hpid
      rw [hnext]
      rcases hpid with hpid | hpid
      · exact hs.bound pid hpid
      · obtain rfl := mem_singleton.1 hpid
        exact hcounted.bound _ (mem_map_of_mem (mem_of_getElem? hchild))

theorem TaskOp.returnedFrom_append (s : Kernel) (ops ops' : List TaskOp) :
    returnedFrom clock s (ops ++ ops') =
      returnedFrom clock s ops ++
        returnedFrom clock (runFrom (step clock) s ops) ops' := by
  induction ops generalizing s with
  | nil => rfl
  | cons op ops ih =>
    rw [cons_append, returnedFrom, returnedFrom, ih, append_assoc]
    rfl

theorem unrepeated_after (drivers : Bool) (coreCount : Nat) {ops : List TaskOp}
    (hpids : FewPids clock (boot clock drivers coreCount) ops) :
    Unrepeated (after clock drivers coreCount ops)
      (returnedFrom clock (boot clock drivers coreCount) ops) := by
  induction ops using reverseRecOn with
  | nil => exact ⟨(Counted.boot clock drivers coreCount).distinct, nofun⟩
  | append_singleton ops op ih =>
    obtain ⟨hbefore, hfew, -⟩ := fewPids_append.1 hpids
    have hcounted := counted_after clock drivers coreCount hbefore
    rw [returnedFrom_append, after, runFrom_append]
    change Unrepeated (op.step clock (after clock drivers coreCount ops))
      (_ ++ ((if (after clock drivers coreCount ops).halted then none
        else op.returned clock (after clock drivers coreCount ops)).toList ++ []))
    rw [append_nil, step]
    split
    · rw [toList_none, append_nil]
      exact ih hbefore
    · exact (ih hbefore).effect Fate.any hcounted hfew
        (op.effect Fate.any hcounted.distinct (op.respects_any _) (hcounted.fresh hfew op))

/-- **Forks, exits and waits lose no child and return none twice**, with fewer than `2 ^ 64` pids.
No pid is returned twice; a child that has ended at some point of the run is still there, or was
returned to its parent; and a wait in any state of the run is answered right. -/
theorem child_returned_once (clock : Nat → Nat) (drivers : Bool) (coreCount : Nat)
    (ops : List TaskOp)
    (hpids : FewPids clock (boot clock drivers coreCount) ops)
    (hops : ∀ op ∈ ops, op.keepsEnded = true) :
    let s := after clock drivers coreCount ops
    let log := returnedFrom clock (boot clock drivers coreCount) ops
    (log.map pid).Nodup ∧
      (∀ ops1 ops2, ops = ops1 ++ ops2 → ∀ t ∈ (after clock drivers coreCount ops1).tasks,
        t.state = .zombie →
          ((∃ t' ∈ s.tasks, t'.pid = t.pid ∧ t'.parentPid = t.parentPid ∧ t'.state = .zombie) ∧
              t.pid ∉ log.map pid) ∨
            ((∃ status, ⟨t.parentPid, t.pid, status⟩ ∈ log) ∧ t.pid ∉ s.tasks.map Task.pid)) ∧
      ∀ parentPid pid nohang, WaitRight s parentPid pid
        (s.waitForChild clock parentPid pid nohang).1
        (s.waitForChild clock parentPid pid nohang).2 := by
  intro s log
  have hunrepeated : Unrepeated s log := unrepeated_after clock drivers coreCount hpids
  have hdisjoint := disjoint_of_nodup_append hunrepeated.distinct
  refine ⟨hunrepeated.distinct.of_append_left, ?_, waitRight clock s⟩
  rintro ops1 ops2 rfl t ht hzombie
  have hrespects : ∀ ops' op, ops' ++ [op] <+: ops2 → op.Respects StaysZombie
      (runFrom (step clock) (after clock drivers coreCount ops1) ops') := by
    intro ops' op hprefix
    refine respects_of_keepsEnded (hops op (mem_append_right _ ?_)) _
    exact hprefix.subset (mem_append_right _ mem_cons_self)
  have hs : s = runFrom (step clock) (after clock drivers coreCount ops1) ops2 :=
    runFrom_append _ _ _ _
  have hlog : log = _ ++ returnedFrom clock (after clock drivers coreCount ops1) ops2 :=
    returnedFrom_append _ _ _ _
  obtain ⟨hbefore, hpids⟩ := fewPids_append.1 hpids
  rcases kept_of_run fate_staysZombie (counted_after clock drivers coreCount hbefore) ops2 hrespects
    hpids ht with ⟨t', ht', hkept⟩ | ⟨t', hkept, hmem⟩
  · rw [← hs] at ht'
    refine .inl ⟨⟨t', ht', hkept.pid, hkept.parentPid, hkept.fate hzombie⟩, fun hpid => ?_⟩
    exact hdisjoint hpid (hkept.pid ▸ mem_map_of_mem ht')
  rw [hkept.pid, hkept.parentPid] at hmem
  have hmem' : (⟨t.parentPid, t.pid, t'.exitCode⟩ : Returned) ∈ log :=
    hlog ▸ mem_append_right _ hmem
  exact .inr ⟨⟨_, hmem'⟩, hdisjoint (mem_map_of_mem hmem')⟩

/-- Two children; the one that has exited is returned. -/
theorem child_returned_once_two :
    let ops : List TaskOp := [.fork (.ok ()), .fork (.ok ()), .switchToPid 3 true, .exit 7 true,
      .waitForChild 1 none false]
    let log := returnedFrom id (boot id true 1) ops
    log = [⟨1, 3, 7⟩] ∧ (log.map pid).Nodup ∧
      (((after id true 1 ops).waitForChild id 1 (some 3) false).1 = .error (-10) ↔
        ∀ t ∈ (after id true 1 ops).tasks, matchesChild 1 (some 3) t = false) := by
  intro ops log
  have hpids : FewPids id (boot id true 1) ops := by
    refine ⟨?_, ?_, ?_, ?_, ?_, trivial⟩ <;> decide +kernel
  have h := child_returned_once id true 1 ops hpids (by decide)
  exact ⟨by decide +kernel, h.1, (h.2.2 1 (some 3) false).echild⟩

end Krust.Process
