import Krust.Lib.Runs
import Krust.Process.Accounting
import Mathlib.Data.List.Nodup

/-!
# Tasks and the scheduler

The task table, the index of the current task in it, the pid of the current task, which is a
variable of its own, and everything that changes them: scheduling and switching, exits, faults and
signals, forks, waits, sleeping on terminal input, and the CPU accounts.  A `TaskOp` is one such
step as the kernel takes it under the lock of the scheduler; `after` is the state after a run of
them.

A task is here what these steps read and write.  Its memory, files and saved registers are left out,
so whether a context is fit to be switched to (`validate_switch_target`) is an argument of the steps
that ask.  The clock is a sequence of readings, and each use of `monotonic_ns` takes the next one.
A pid has 64 bits, and comes round again after `2 ^ 64` forks (`TaskOp.FewPids`).  When the first
user process terminates the machine shuts down, and nothing happens any more (`halted`).
-/

set_option autoImplicit false

namespace Krust.Process

open Lib

def ROOT_PID : Nat := 1

def KERNEL_IO_TASK_PID : Nat := 2

/-! ## Tasks -/

inductive TaskState
  | ready
  | running
  | waiting
  | zombie
  deriving DecidableEq, Repr

inductive Signal
  | sigterm
  | sigkill
  | sigint
  | sigstop
  | sigcont
  deriving DecidableEq, Repr

namespace Signal

/-- The number of a signal, `signal as i32`. -/
def number : Signal → Int
  | sigterm => 15
  | sigkill => 9
  | sigint => 2
  | sigstop => 19
  | sigcont => 18

def isFatal : Signal → Bool
  | sigkill | sigterm => true
  | _ => false

def exitCode (signal : Signal) : Int := 128 + signal.number

end Signal

/-- `Task`, as far as it is scheduled, accounted for and waited for. -/
structure Task where
  pid : Nat
  parentPid : Nat
  state : TaskState
  mode : TaskMode
  priority : Nat
  userland : Bool
  exitCode : Int
  cpuTime : CpuAccounting
  pendingSignals : List Signal
  terminatedBySignal : Option Signal
  deriving DecidableEq, Repr

namespace Task

/-- `Task::new_with_credentials`. -/
def new (pid parentPid : Nat) : Task where
  pid := pid
  parentPid := parentPid
  state := .ready
  mode := .kernel
  priority := 20
  userland := false
  exitCode := 0
  cpuTime := .new
  pendingSignals := []
  terminatedBySignal := none

/-- `Task::clone`, with what `fork_current_task_with` sets in the copy. -/
def fork (task : Task) (pid : Nat) : Task :=
  { task with
    pid := pid
    parentPid := task.pid
    state := .ready
    cpuTime := .new
    pendingSignals := []
    terminatedBySignal := none }

def isRunnable (task : Task) : Bool := task.state = .ready ∨ task.state = .running

/-- The task whose exit code cannot be set: `set_exit_code` shuts the machine down. -/
def isInit (task : Task) : Bool := task.pid = ROOT_PID ∧ task.userland

/-- `Task::set_exit_code`, for a task other than that. -/
def setExitCode (code : Int) (task : Task) : Task := { task with exitCode := code }

def setState (state : TaskState) (task : Task) : Task := { task with state := state }

def pause (now : Nat) (task : Task) : Task := { task with cpuTime := task.cpuTime.pause now }

def resume (now : Nat) (task : Task) : Task := { task with cpuTime := task.cpuTime.resume now }

def setMode (mode : TaskMode) (now : Nat) (task : Task) : Task :=
  { task with cpuTime := task.cpuTime.setMode mode now, mode := mode }

/-- What `deliver_signal` does with a fatal signal. -/
def terminate (signal : Signal) (now : Nat) (task : Task) : Task :=
  ({ task with terminatedBySignal := some signal }.setExitCode signal.exitCode).pause now
    |>.setState .zombie

/-- What `deliver_signal` does with any other signal. -/
def pend (signal : Signal) (task : Task) : Task :=
  { task with pendingSignals := task.pendingSignals ++ [signal] }

/-- A switch away from a running task leaves it ready. -/
def yield (task : Task) : Task := if task.state = .running then task.setState .ready else task

end Task

/-! ## The scheduler -/

inductive CoreWorkload
  | idle
  | task (pid : Nat)
  | kernel (reason : String)
  deriving DecidableEq, Repr

/-- `Scheduler`, `CURRENT_PID`, `NEXT_PID` and `TTY_INPUT_QUEUE`, with the number of times the clock
was read. -/
structure Kernel where
  tasks : List Task
  currentIndex : Option Nat
  cores : List CoreWorkload
  currentPid : Nat
  /-- The number of the next pid, as if `NEXT_PID` did not wrap. -/
  nextPid : Nat
  ttyInputQueue : List Nat
  reads : Nat
  halted : Bool
  deriving DecidableEq, Repr

/-- `SwitchPlan`, with the indices of the two tasks for their contexts. -/
structure SwitchPlan where
  oldIndex : Nat
  newIndex : Nat
  newPid : Nat
  deriving DecidableEq, Repr

namespace Kernel

variable (clock : Nat → Nat) (s : Kernel)

/-- The task at the current index, `Scheduler::current`. -/
def current : Option Task := s.currentIndex.bind (s.tasks[·]?)

def modifyAt (i : Nat) (f : Task → Task) : Kernel := { s with tasks := s.tasks.modify i f }

/-- The index of the first task with this pid, and the number of tasks if there is none. -/
def position (pid : Nat) : Nat := s.tasks.findIdx (·.pid == pid)

/-- `Scheduler::task_by_pid`. -/
def taskByPid (pid : Nat) : Option Task := s.tasks[s.position pid]?

/-- `Scheduler::task_by_pid_mut`, for a change that does not read the clock. -/
def modifyTask (pid : Nat) (f : Task → Task) : Kernel := s.modifyAt (s.position pid) f

/-- `Scheduler::task_by_pid_mut`, for a change that reads the clock if there is such a task. -/
def modifyTaskNow (pid : Nat) (f : Nat → Task → Task) : Kernel :=
  if (s.taskByPid pid).isSome then
    { s.modifyTask pid (f (clock s.reads)) with reads := s.reads + 1 }
  else s

/-- `Scheduler::add_task`. -/
def addTask (task : Task) : Kernel := { s with tasks := s.tasks ++ [task] }

/-- `Scheduler::set_core_idle`. -/
def setCoreIdle (coreId : Nat) : Kernel := { s with cores := s.cores.set coreId .idle }

/-- `Scheduler::set_core_task`. -/
def setCoreTask (coreId pid : Nat) : Kernel := { s with cores := s.cores.set coreId (.task pid) }

/-- `Scheduler::clear_core_task`. -/
def clearCoreTask (pid : Nat) : Kernel :=
  { s with cores := s.cores.map fun core => if core = .task pid then .idle else core }

/-- `Scheduler::set_task_state`. -/
def setTaskState (pid : Nat) (state : TaskState) : Bool × Kernel :=
  if (s.taskByPid pid).isNone then (false, s) else
  let paused :=
    if state = .waiting ∨ state = .zombie then s.modifyTaskNow clock pid Task.pause else s
  let s := paused.modifyTask pid (Task.setState state)
  if s.current.map Task.pid = some pid ∧ state = .zombie then
    (true, { s with currentIndex := none }.clearCoreTask pid)
  else (true, s)

/-- `Scheduler::account_switch`. -/
def accountSwitch (nextPid : Nat) : Kernel :=
  let now := clock s.reads
  let s := (s.modifyTask s.currentPid (Task.pause now)).modifyTask nextPid (Task.resume now)
  { s with reads := s.reads + 1 }

/-- The end of every switch: the task at the new current index takes over. -/
def activate (next newPid coreId : Nat) : Kernel :=
  let s := s.accountSwitch clock newPid
  let s := { s with currentPid := newPid }.setCoreTask coreId newPid
  s.modifyAt next (Task.setState .running)

/-- The start of every switch: the previous task is ready again and the index moves on. -/
def leaveFor (next : Nat) : Kernel :=
  let s' := match s.currentIndex.filter fun old => old < s.tasks.length ∧ old ≠ next with
    | none => s
    | some old => s.modifyAt old Task.yield
  { s' with currentIndex := some next }

/-- A switch to the task at this index, which has this pid. -/
def switchTo (next newPid coreId : Nat) : Kernel :=
  (s.leaveFor next).activate clock next newPid coreId

/-- The next runnable task from `start` on, round robin. -/
def nextRunnable (start : Nat) : Option Nat :=
  ((List.range s.tasks.length).map fun offset => (start + offset) % s.tasks.length).find?
    fun index =>
    s.tasks[index]?.any Task.isRunnable

/-- `Scheduler::schedule_on`; the result is the pid of the task. -/
def scheduleOn (coreId : Nat) : Option Nat × Kernel :=
  let len := s.tasks.length
  if len = 0 then (none, { s with currentIndex := none }.setCoreIdle coreId) else
  match s.nextRunnable (s.currentIndex.elim 0 fun index => (index + 1) % len) with
  | none =>
    let s := s.modifyTaskNow clock s.currentPid Task.pause
    (none, { s with currentIndex := none }.setCoreIdle coreId)
  | some next =>
    match s.tasks[next]? with
    | none => (none, (s.leaveFor next).setCoreIdle coreId)
    | some task => (some task.pid, s.switchTo clock next task.pid coreId)

/-- The start of `preempt_and_switch`: the current task is ready again, unless it has ended. -/
def readyCurrent : Kernel :=
  match s.current.map Task.pid with
  | none => s
  | some pid =>
    if (s.taskByPid pid).map Task.state = some TaskState.zombie then s
    else (s.setTaskState clock pid .ready).2

/-- `Scheduler::preempt_and_switch`. -/
def preemptAndSwitch : Option SwitchPlan × Kernel :=
  match (s.readyCurrent clock).scheduleOn clock 0 with
  | (none, s') => (none, s')
  | (some newPid, s') =>
    match s.currentIndex, s'.currentIndex with
    | some old, some new =>
      (if some newPid = s.current.map Task.pid then none else some ⟨old, new, newPid⟩, s')
    | _, _ => (none, s')

/-- `Scheduler::switch_to_pid`; `valid` is the answer of `validate_switch_target`. -/
def switchToPid (pid : Nat) (valid : Bool) : Option SwitchPlan × Kernel :=
  let s := if s.currentIndex.isNone then
      { s with currentIndex := s.tasks.findIdx? (·.pid == s.currentPid) }
    else s
  match s.currentIndex, s.tasks.findIdx? (·.pid == pid) with
  | some old, some target =>
    match s.tasks[old]?, s.tasks[target]? with
    | some _, some task =>
      if old ≠ target ∧ task.isRunnable ∧ valid then
        (some ⟨old, target, task.pid⟩, s.switchTo clock target task.pid 0)
      else (none, s)
    | _, _ => (none, s)
  | _, _ => (none, s)

/-- The scan of `preempt_if_higher_priority`: an index with its priority is better than what was
found so far. -/
def better (current : Nat) (best : Option Nat × Nat) (entry : Task × Nat) : Option Nat × Nat :=
  if entry.2 = current then best
  else if ¬entry.1.isRunnable then best
  else if best.2 < entry.1.priority then (some entry.2, entry.1.priority)
  else best

/-- `Scheduler::preempt_if_higher_priority`. -/
def preemptIfHigherPriority : Option SwitchPlan × Kernel :=
  match s.currentIndex with
  | none => (none, s)
  | some current =>
    match s.tasks[current]? with
    | none => (none, s)
    | some task =>
      match s.tasks.zipIdx.foldl (better current) (none, task.priority) with
      | (none, _) => (none, s)
      | (some next, nextPriority) =>
        if nextPriority ≤ task.priority then (none, s) else
        match s.tasks[next]? with
        | none => (none, s)
        | some new => (some ⟨current, next, new.pid⟩, s.switchTo clock next new.pid 0)

/-- `Scheduler::lower_current_priority`. -/
def lowerCurrentPriority : Kernel :=
  match s.currentIndex with
  | none => s
  | some i => s.modifyAt i fun task => { task with priority := task.priority - 1 }

/-! ## Children -/

/-- A request of `wait`: any child of the caller, or one pid. -/
def matchesChild (parentPid : Nat) (expected : Option Nat) (task : Task) : Bool :=
  task.parentPid = parentPid ∧ expected.all (· == task.pid)

/-- The current index after the task at `index` was removed. -/
def indexAfterRemove (index current : Nat) : Option Nat :=
  if index < current then some (current - 1) else if index = current then none else some current

/-- `Scheduler::reap_zombie_child`. -/
def reapZombieChild (parentPid : Nat) (expected : Option Nat) : Option (Nat × Int) × Kernel :=
  let index := s.tasks.findIdx fun task =>
    matchesChild parentPid expected task && decide (task.state = .zombie)
  match s.tasks[index]? with
  | none => (none, s)
  | some task =>
    let s := { s with tasks := s.tasks.eraseIdx index }
    let s := s.modifyTaskNow clock parentPid fun now parent =>
      { parent with cpuTime := parent.cpuTime.reap task.cpuTime now }
    let s := s.clearCoreTask task.pid
    (some (task.pid, task.exitCode),
      { s with currentIndex := s.currentIndex.bind (indexAfterRemove index) })

/-- What one round of the loop of `wait_for_child_with_options` comes to. -/
inductive WaitRound
  | child (pid : Nat) (status : Int)
  | nothing
  | error (code : Int)
  | again
  deriving DecidableEq, Repr

/-- The first half of `idle_until_interrupt`, up to the halt. -/
def idle : Kernel := s.modifyTaskNow clock s.currentPid Task.pause

/-- `resume_cpu_accounting`, which is also the second half of `idle_until_interrupt`. -/
def resumeCpuAccounting : Kernel :=
  if (s.taskByPid s.currentPid).any fun task => task.state = .waiting ∨ task.state = .zombie then s
  else s.modifyTaskNow clock s.currentPid Task.resume

/-- `wait_for_child_with_options`, one round of its loop for the task that called it. -/
def waitForChild (parentPid : Nat) (pid : Option Nat) (nohang : Bool) : WaitRound × Kernel :=
  match s.reapZombieChild clock parentPid pid with
  | (some (child, status), s) => (.child child status, s)
  | (none, s) =>
    if ¬s.tasks.any (matchesChild parentPid pid) then (.error (-10), s)
    else if nohang then (.nothing, s)
    else (.again, s.idle clock)

/-- `fork_current_task_with`; `prepared` is the result of its argument. -/
def forkCurrentTaskWith (prepared : Except Int Unit) : Except Int Nat × Kernel :=
  match s.taskByPid s.currentPid with
  | none => (.error (-1), s)
  | some parent =>
    let childPid := s.nextPid % 2 ^ 64
    let s := { s with nextPid := s.nextPid + 1 }
    match prepared with
    | .error code => (.error code, s)
    | .ok () =>
      let s := s.modifyTask s.currentPid fun task => { task with priority := task.priority - 1 }
      (.ok childPid, s.addTask (parent.fork childPid))

/-! ## The end of a task -/

/-- After a task has ended its parent runs, or else whoever is next. -/
def leave (parentPid : Option Nat) (valid : Bool) : Kernel :=
  match parentPid with
  | none => (s.preemptAndSwitch clock).2
  | some pid =>
    match s.switchToPid clock pid valid with
    | (some _, s) => s
    | (none, s) => (s.preemptAndSwitch clock).2

/-- `sys_exit`, with the status as an `i32`. -/
def exit (status : Int) (valid : Bool) : Kernel :=
  let pid := s.currentPid
  let task := s.taskByPid pid
  if task.any Task.isInit then { s with halted := true } else
  let s := s.modifyTask pid (Task.setExitCode status)
  let s := (s.setTaskState clock pid .zombie).2
  s.leave clock (task.map Task.parentPid) valid

/-- A fault of the current task in user mode; the handlers differ in the exit code. -/
def fault (code : Int) (valid : Bool) : Kernel :=
  let pid := s.currentPid
  let task := s.taskByPid pid
  if task.any Task.isInit then { s with halted := true } else
  let s := s.modifyTask pid fun task => (task.setExitCode code).setState .zombie
  s.leave clock (task.map Task.parentPid) valid

/-- `invalid_opcode_handler`. -/
def invalidOpcode (valid : Bool) : Kernel := s.fault clock 132 valid

/-- `general_protection_fault_handler`. -/
def generalProtectionFault (valid : Bool) : Kernel := s.fault clock 128 valid

/-- `page_fault_handler`. -/
def pageFault (valid : Bool) : Kernel := s.fault clock 139 valid

/-- `Task::deliver_signal` for the task with this pid; the result says whether there is one. -/
def deliverSignal (pid : Nat) (signal : Signal) : Bool × Kernel :=
  match s.taskByPid pid with
  | none => (false, s)
  | some task =>
    if signal.isFatal then
      if task.isInit then (true, { s with halted := true })
      else (true, s.modifyTaskNow clock pid (Task.terminate signal))
    else (true, s.modifyTask pid (Task.pend signal))

/-- The signals of `sys_kill` that are delivered. -/
def signalOfNumber (sig : Int) : Option Signal :=
  if sig = 2 then some .sigint
  else if sig = 9 then some .sigkill
  else if sig = 15 then some .sigterm
  else if sig = 18 then some .sigcont
  else if sig = 19 then some .sigstop
  else none

/-- The task `sys_kill` sends a signal to: the current one if the number is not a pid. -/
def killTarget (pid : Int) : Nat := if 0 < pid then pid.toNat else s.currentPid

/-- `sys_kill`. -/
def kill (pid sig : Int) : Int × Kernel :=
  if sig = 0 then
    (if pid ≤ 0 ∨ (s.taskByPid pid.toNat).isSome then 0 else -3, s)
  else
    match signalOfNumber sig with
    | none => (if sig = 20 ∨ sig = 21 ∨ sig = 22 then 0 else -22, s)
    | some signal =>
      match s.deliverSignal clock (s.killTarget pid) signal with
      | (delivered, s) => (if delivered then 0 else -3, s)

/-! ## Terminal input -/

def sleepOnTtyInput : Bool × Kernel :=
  match s.setTaskState clock s.currentPid .waiting with
  | (true, t) => (true, { t with ttyInputQueue := t.ttyInputQueue ++ [s.currentPid] })
  | (false, t) => (false, t)

def wakeOneTtyWaiter : Option Nat × Kernel :=
  match s.ttyInputQueue with
  | [] => (none, s)
  | pid :: queue => (some pid, ({ s with ttyInputQueue := queue }.setTaskState clock pid .ready).2)

/-! ## Runs -/

/-- `register_boot_processes`, with the kernel I/O task if there are drivers, and then
`set_current_pid` and `resume_cpu_accounting` as `main` has them. -/
def boot (drivers : Bool) (coreCount : Nat) : Kernel :=
  let s : Kernel := {
    tasks := []
    currentIndex := none
    cores := List.replicate (max coreCount 1) .idle
    currentPid := ROOT_PID
    nextPid := 3
    ttyInputQueue := []
    reads := 0
    halted := false }
  let s := s.addTask (.new ROOT_PID 0)
  let s := if drivers then s.addTask (.new KERNEL_IO_TASK_PID 0) else s
  let s := (s.setTaskState clock ROOT_PID .running).2
  let s := if drivers then (s.setTaskState clock KERNEL_IO_TASK_PID .ready).2 else s
  s.resumeCpuAccounting clock

end Kernel

/-- A step of the kernel.  A state that is set from outside a switch is never `running`. -/
inductive TaskOp
  | setTaskState (pid : Nat) (state : { state : TaskState // state ≠ .running })
  | schedule (coreId : Nat)
  | preemptAndSwitch
  | switchToPid (pid : Nat) (valid : Bool)
  | preemptIfHigherPriority
  | lowerCurrentPriority
  | reapZombieChild (parentPid : Nat) (expected : Option Nat)
  | waitForChild (parentPid : Nat) (pid : Option Nat) (nohang : Bool)
  | setMode (mode : TaskMode)
  | idle
  | resume
  | fork (prepared : Except Int Unit)
  | enterUserland
  | exit (status : Int) (valid : Bool)
  | invalidOpcode (valid : Bool)
  | generalProtectionFault (valid : Bool)
  | pageFault (valid : Bool)
  | kill (pid sig : Int)
  | signalCurrent (signal : Signal)
  | sleepOnTtyInput
  | wakeOneTtyWaiter

namespace TaskOp

variable (clock : Nat → Nat)

def apply (s : Kernel) : TaskOp → Kernel
  | setTaskState pid state => (s.setTaskState clock pid state.1).2
  | schedule coreId => (s.scheduleOn clock coreId).2
  | preemptAndSwitch => (s.preemptAndSwitch clock).2
  | switchToPid pid valid => (s.switchToPid clock pid valid).2
  | preemptIfHigherPriority => (s.preemptIfHigherPriority clock).2
  | lowerCurrentPriority => s.lowerCurrentPriority
  | reapZombieChild parentPid expected => (s.reapZombieChild clock parentPid expected).2
  | waitForChild parentPid pid nohang => (s.waitForChild clock parentPid pid nohang).2
  | setMode mode => s.modifyTaskNow clock s.currentPid fun now task => task.setMode mode now
  | idle => s.idle clock
  | resume => s.resumeCpuAccounting clock
  | fork prepared => (s.forkCurrentTaskWith prepared).2
  -- what `exec` changes of a task here
  | enterUserland => s.modifyTask s.currentPid fun task => { task with userland := true }
  | exit status valid => s.exit clock status valid
  | invalidOpcode valid => s.invalidOpcode clock valid
  | generalProtectionFault valid => s.generalProtectionFault clock valid
  | pageFault valid => s.pageFault clock valid
  | kill pid sig => (s.kill clock pid sig).2
  | signalCurrent signal => (s.deliverSignal clock s.currentPid signal).2
  | sleepOnTtyInput => (s.sleepOnTtyInput clock).2
  | wakeOneTtyWaiter => (s.wakeOneTtyWaiter clock).2

/-- A step; none changes anything once the machine is down. -/
def step (s : Kernel) (op : TaskOp) : Kernel := if s.halted then s else op.apply clock s

end TaskOp

/-- A child that was reaped: by whom, and with which status. -/
structure Returned where
  parentPid : Nat
  pid : Nat
  status : Int
  deriving DecidableEq, Repr

namespace TaskOp

variable (clock : Nat → Nat)

def returned (s : Kernel) : TaskOp → Option Returned
  | reapZombieChild parentPid expected =>
    (s.reapZombieChild clock parentPid expected).1.map fun child => ⟨parentPid, child.1, child.2⟩
  | waitForChild parentPid pid nohang =>
    match (s.waitForChild clock parentPid pid nohang).1 with
    | .child child status => some ⟨parentPid, child, status⟩
    | _ => none
  | _ => none

/-- The children that the steps of a run return, in order. -/
def returnedFrom (s : Kernel) : List TaskOp → List Returned
  | [] => []
  | op :: ops =>
    (if s.halted then none else op.returned clock s).toList ++ returnedFrom (op.step clock s) ops

end TaskOp

/-- There are fewer than `2 ^ 64` pids before each step of a run. -/
def TaskOp.FewPids (clock : Nat → Nat) (s : Kernel) : List TaskOp → Prop
  | [] => True
  | op :: ops => s.nextPid < 2 ^ 64 ∧ FewPids clock (op.step clock s) ops

def after (clock : Nat → Nat) (drivers : Bool) (coreCount : Nat) (ops : List TaskOp) : Kernel :=
  runFrom (TaskOp.step clock) (Kernel.boot clock drivers coreCount) ops

end Krust.Process
