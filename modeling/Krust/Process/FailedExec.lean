import Krust.Process.Execve

/-!
# A program that cannot be started

What a task can notice of a call that failed is in its `view`: the task itself, with its address
space, its arguments and its cursors, and the descriptors of all tasks, as maps.  All that `execve`
does before it installs the new program leaves the view alone.  The memory manager is not part of
it, and the descriptor that the file is read through is gone again (`within_probePath`).

So the call either changes nothing, or it installs the program, and only then are descriptors closed
(`execve_all_or_nothing`).
-/

set_option autoImplicit false

namespace Krust.Process

open Lib Prog Vfs Function Option ExecState

variable {W : Type} (env : ExecEnv W)

/-- The running task, and the descriptors of all tasks. -/
abbrev TaskView : Type := Option ExecTask × (Nat → FdMap FdEntry)

def ExecState.view (s : ExecState W) : TaskView := (s.task, fun pid => (s.tasks.fds pid).abs)

/-- The view, with one descriptor closed. -/
def TaskView.without (v : TaskView) (pid fd : Nat) : TaskView :=
  (v.1, update v.2 pid (update (v.2 pid) fd none))

/-! ## The descriptor for the file -/

variable {α : Type} {v : TaskView} {s s' : ExecState W} {fd : Nat}
  (f : Tasks W → Except Int α × Tasks W) (image : Image) (path : Str) (tasks : Tasks W)
  (plan : LoadPlan) (request : ExecRequest) (originalPath : Str)

theorem run_onTasks (s : ExecState W) :
    run (onTasks f) s =
      match s.task with
      | none => (some (.error (-1)), s)
      | some _ => (some (f s.tasks).1, { s with tasks := (f s.tasks).2 }) := by
  rw [onTasks, bind_eq, run_bind]
  cases htask : s.task with
  | none => simp [step, run, htask, Prog.ofExcept]
  | some task => cases hf : (f s.tasks).1 <;> simp [step, run, htask, hf, Prog.ofExcept]

theorem run_attempt_onTasks (s : ExecState W) :
    ∃ r, run (attempt (onTasks f)) s = (some (.ok r), (run (onTasks f) s).2) := by
  rw [run_attempt, run_onTasks]
  cases s.task <;> exact ⟨_, rfl⟩

/-- Something that changes no descriptors. -/
theorem within_onTasksView {f : Tasks W → Except Int α × Tasks W}
    (hf : ∀ tasks, (f tasks).2.fds = tasks.fds) : Within True (Same view) (onTasks f) := by
  intro s
  rw [Ends, run_onTasks]
  cases htask : s.task with
  | none => exact ⟨fun _ => trivial, rfl⟩
  | some task =>
    refine ⟨fun _ => trivial, ?_⟩
    rw [Same, view, view, hf, htask]

theorem fds_readFd (pid fd len : Nat) : (tasks.readFd env.inodes pid fd len).2.fds = tasks.fds := by
  rw [Tasks.readFd]
  split
  · rfl
  split
  · rfl
  · rw [Tasks.onDescription]
    split <;> rfl

/-- The file is open: the descriptor is there, and without it the view is as before. -/
structure Opened (fd : Nat) (v : TaskView) (s : ExecState W) : Prop where
  task : s.task ≠ none
  entry : (s.tasks.fds env.pid).abs fd ≠ none
  view : s.view.without env.pid fd = v

/-- A descriptor that was not in use is taken. -/
theorem opened_of_insert (s : ExecState W) {entry : FdEntry} {bits : Nat} (htask : s.task ≠ none)
    (htask' : s'.task = s.task) (hfds : s'.tasks.fds =
      update s.tasks.fds env.pid ((s.tasks.fds env.pid).insert entry bits).2) :
    Opened env ((s.tasks.fds env.pid).insert entry bits).1 s.view s' := by
  have hfree := ((s.tasks.fds env.pid).leastFree_insertFrom 0 entry bits).1.2
  have habs := (s.tasks.fds env.pid).abs_insertAt
    ((s.tasks.fds env.pid).insert entry bits).1 entry bits
  have hpid : (s'.tasks.fds env.pid).abs = update (s.tasks.fds env.pid).abs
      ((s.tasks.fds env.pid).insert entry bits).1 (some (entry, bitOfFlags bits)) := by
    rw [hfds, update_self]
    exact habs
  refine ⟨htask' ▸ htask, ?_, Prod.ext htask' (funext fun pid => ?_)⟩
  · rw [hpid, update_self]
    exact some_ne_none _
  show update s'.view.2 env.pid (update (s'.tasks.fds env.pid).abs _ none) pid =
    (s.tasks.fds pid).abs
  by_cases h : pid = env.pid
  · subst h
    rw [update_self, hpid, update_idem]
    exact update_eq_self_iff.2 hfree.symm
  rw [update_of_ne h]
  show (s'.tasks.fds pid).abs = _
  rw [hfds, update_of_ne h]

theorem within_openPath : Within True (Same view) (openPath env path) :=
  (within_load _).bind fun _ => (within_ofExcept _).bind fun _ =>
    Within.bind (within_step fun _ => rfl) fun _ => within_ofExcept _

theorem ends_openFile (s : ExecState W) :
    Ends (openFile env path) (fun
      | some (.ok fd), s' => Opened env fd s.view s'
      | _, s' => s'.view = s.view) s := by
  refine (within_openPath env path).ends_bind (fun _ _ h => h) (fun _ _ h => h)
    fun opened s1 h1 => ?_
  rw [Ends, run_onTasks]
  rcases htask : s1.task with _ | task
  · exact h1
  have hopened : Opened env _ s1.view { s1 with
      tasks := (s1.tasks.openFile env.pid 0 opened.1).2 } :=
    opened_of_insert env s1 (htask ▸ some_ne_none task) rfl rfl
  rw [h1, htask] at hopened
  exact hopened

theorem view_closeFile (h : Opened env fd v s) : (run (closeFile env fd) s).2.view = v := by
  obtain ⟨task, htask⟩ := ne_none_iff_exists'.1 h.task
  have hget : (s.tasks.fds env.pid).get fd ≠ none := by
    rw [← FdTable.map_fst_abs]
    exact fun hnone => h.entry (map_eq_none_iff.1 hnone)
  obtain ⟨entry, hentry⟩ := ne_none_iff_exists'.1 hget
  have hclose : (s.tasks.closeFd env.pid fd).2.fds =
      update s.tasks.fds env.pid ((s.tasks.fds env.pid).remove fd).2 := by
    rw [Tasks.closeFd, FdTable.remove, hentry]
  have habs : ((s.tasks.fds env.pid).remove fd).2.abs =
      update (s.tasks.fds env.pid).abs fd none :=
    (s.tasks.fds env.pid).abs_of_slot fun other =>
      (s.tasks.fds env.pid).slot_set fd none other (.inr rfl)
  rw [closeFile, run_onTasks, htask, ← h.view]
  refine Prod.ext htask.symm (funext fun pid => ?_)
  show ((s.tasks.closeFd env.pid fd).2.fds pid).abs =
    update (fun pid => (s.tasks.fds pid).abs) env.pid
      (update (s.tasks.fds env.pid).abs fd none) pid
  rw [hclose]
  by_cases hpid : pid = env.pid
  · subst hpid
    rw [update_self, update_self, habs]
  · rw [update_of_ne hpid, update_of_ne hpid]

/-- Reading through the descriptor leaves it open. -/
theorem Opened.of_view (h : Opened env fd v s) (hview : s'.view = s.view) : Opened env fd v s' := by
  have htask : s'.task = s.task := congrArg Prod.fst hview
  have hfds : (s'.tasks.fds env.pid).abs = (s.tasks.fds env.pid).abs :=
    congrFun (congrArg Prod.snd hview) env.pid
  exact ⟨htask ▸ h.task, hfds ▸ h.entry, hview ▸ h.view⟩

/-- **Looking at a file leaves no descriptor behind.** -/
theorem within_probePath : Within True (Same view) (probePath env request) := by
  intro s
  have hends : Ends (probePath env request) (fun _ s' => s'.view = s.view) s := by
    rw [probePath, bind_eq, ends_bind]
    refine (ends_openFile env request.path s).mono fun r s1 h1 => ?_
    rcases r with _ | e | fd
    · exact h1
    · exact h1
    obtain ⟨read, hread⟩ : ∃ r, run (attempt (readFile env fd PROBE_READ_LIMIT)) s1 =
        (some (.ok r), (run (readFile env fd PROBE_READ_LIMIT) s1).2) := run_attempt_onTasks _ s1
    have hsame : Within True (Same view) (readFile env fd PROBE_READ_LIMIT) :=
      within_onTasksView fun tasks => fds_readFd env tasks env.pid fd PROBE_READ_LIMIT
    have h2 := h1.of_view env (hsame s1).2
    generalize (run (readFile env fd PROBE_READ_LIMIT) s1).2 = s2 at hread h2
    obtain ⟨closed, hclosed⟩ : ∃ r, run (attempt (closeFile env fd)) s2 =
        (some (.ok r), (run (closeFile env fd) s2).2) := run_attempt_onTasks _ s2
    rw [andThen_ok, bind_eq, Ends, run_bind_ok hread, bind_eq, run_bind_ok hclosed]
    have hrest : Within True (Same view) (Prog.bind (Prog.ofExcept read) fun bytes =>
        Prog.bind (ofOption (inspectAll request bytes env.handlers)) fun action =>
          (ofExcept (action.mapError errnoFromBinfmt) : Prog (ExecState W) Int _)) :=
      (within_ofExcept _).bind fun _ => (within_ofOption _).bind fun _ => within_ofExcept _
    exact (hrest _).2.trans (view_closeFile env h2)
  exact ⟨fun _ => trivial, hends⟩

/-! ## The new address space -/

theorem within_inMm (p : Prog Mm.Manager Int α) :
    Within True (Same view) (inMm p : Prog (ExecState W) Int α) := by
  have hset : ∀ (mm : Mm.Manager) (s : ExecState W),
      view { s with mm := mm } = s.view := fun _ _ => rfl
  exact within_embed hset p

/-! ## The whole call -/

/-- The task runs another program, and the descriptors that were to be closed are gone. -/
structure Installed (v : TaskView) (s : ExecState W) : Prop where
  task : ∃ task space argv execPath entryPoint stackTop brkStart, v.1 = some task ∧
    s.task = some ((task.replace space argv execPath entryPoint stackTop).setCursors brkStart)
  closed : ∀ fd, (s.tasks.fds env.pid).abs fd = (v.2 env.pid fd).filter fun entry => !entry.2
  others : ∀ pid, pid ≠ env.pid → (s.tasks.fds pid).abs = v.2 pid

/-- How the call may end.  If it does not come back, the descriptors are all there. -/
def AllOrNothing (v : TaskView) : Option (Except Int Unit) → ExecState W → Prop
  | some (.error _), s => s.view = v
  | some (.ok ()), s => Installed env v s
  | none, s => s.view.2 = v.2

/-- Something that leaves the view alone comes first. -/
theorem allOrNothing_bind {p : Prog (ExecState W) Int α} {k : α → Prog (ExecState W) Int Unit}
    (hp : Within True (Same view) p) (hs : s.view = v)
    (hk : ∀ a s', s'.view = v → Ends (k a) (AllOrNothing env v) s') :
    Ends (Prog.bind p k) (AllOrNothing env v) s :=
  hp.ends_bind (fun _ _ h => congrArg Prod.snd (h.trans hs)) (fun _ _ h => h.trans hs)
    fun a s' h => hk a s' (h.trans hs)

/-- An error after which nothing is left to do. -/
theorem allOrNothing_dropImage (e : Int) (hs : s.view = v) :
    Ends (Prog.bind (dropImage image) fun _ => fail e) (AllOrNothing env v) s :=
  allOrNothing_bind env (within_step fun _ => rfl) hs fun _ _ h => h

theorem abs_closeOnExec (t : FdTable FdEntry) (fd : Nat) :
    t.closeOnExec.2.abs fd = (t.abs fd).filter fun entry => !entry.2 := by
  obtain ⟨fds, -, hmem, -, habs⟩ := t.spec_closeOnExec
  rw [habs]
  dsimp only
  rcases hentry : t.abs fd with _ | ⟨value, _ | _⟩
  · rw [ite_self]
    rfl
  · have hopen : fd ∉ fds := by
      intro h
      obtain ⟨value', hvalue⟩ := (hmem fd).1 h
      rw [hentry] at hvalue
      cases hvalue
    rw [if_neg hopen]
    rfl
  · rw [if_pos ((hmem fd).2 ⟨value, hentry⟩)]
    rfl

/-- **The task is changed at the very end.** -/
theorem ends_install (stackTop : Nat) (hs : s.view = v) :
    Ends (install env image plan request originalPath stackTop) (AllOrNothing env v) s := by
  rw [install, bind_eq, ends_load]
  rcases htask : s.task with _ | task
  · exact allOrNothing_dropImage env image (-1) hs
  subst hs
  rcases hstart : brkStart env.checks plan.segments with _ | start
  · rfl
  refine ⟨⟨task, image.1, request.argv, originalPath, plan.entryPoint.toNat, stackTop, start,
    htask, ?_⟩, fun fd => ?_, fun pid hpid => ?_⟩
  · show ((s.task.map _).map _) = _
    rw [htask]
    rfl
  · show ((update s.tasks.fds env.pid _) env.pid).abs fd = _
    rw [update_self]
    exact abs_closeOnExec _ fd
  · show ((update s.tasks.fds env.pid _) pid).abs = _
    rw [update_of_ne hpid]
    rfl

theorem ends_loadProgram (requestPath originalPath : Str) (hs : s.view = v) :
    Ends (loadProgram env plan request requestPath originalPath) (AllOrNothing env v) s := by
  refine allOrNothing_bind env (within_failIf _ _) hs fun _ s hs => ?_
  refine allOrNothing_bind env (within_load _) hs fun cwd s hs => ?_
  refine allOrNothing_bind env (within_ofExcept _) hs fun absolute s hs => ?_
  refine allOrNothing_bind env (within_load _) hs fun w s hs => ?_
  refine allOrNothing_bind env (within_ofExcept _) hs fun inode s hs => ?_
  refine allOrNothing_bind env (within_inMm _) hs fun space s hs => ?_
  refine allOrNothing_bind env (within_inMm _) hs fun r s hs => ?_
  obtain ⟨e | stackTop, image⟩ := r
  · exact allOrNothing_dropImage env image e hs
  · exact ends_install env image plan request originalPath stackTop hs

/-- However often the call is sent to another file. -/
theorem ends_execLoop (redirects : Nat) :
    ∀ (requestPath : Str) (request : ExecRequest) {s : ExecState W}, s.view = v →
      Ends (execLoop env originalPath redirects requestPath request) (AllOrNothing env v) s := by
  induction redirects with
  | zero =>
    intro requestPath request s hs
    rw [execLoop]
    refine allOrNothing_bind env (within_probePath env request) hs fun action s hs => ?_
    cases action with
    | load plan => exact ends_loadProgram env plan request requestPath originalPath hs
    | redirect next => exact hs
  | succ redirects ih =>
    intro requestPath request s hs
    rw [execLoop]
    refine allOrNothing_bind env (within_probePath env request) hs fun action s hs => ?_
    cases action with
    | load plan => exact ends_loadProgram env plan request requestPath originalPath hs
    | redirect next => exact allOrNothing_bind env (within_load _) hs fun w s hs => ih _ _ hs

theorem ends_execve (argv envp : List Str) (s : ExecState W) :
    Ends (execveWithArgs env path argv envp) (AllOrNothing env s.view) s := by
  refine allOrNothing_bind env (within_load _) rfl fun cwd s hs => ?_
  refine allOrNothing_bind env (within_ofExcept _) hs fun originalPath s hs => ?_
  exact ends_execLoop env originalPath _ _ _ hs

/-- **A program is started, or nothing has happened.**  If the call returns an error, then the task,
with its address space, its arguments, its path and its cursors, is as before, and so are the
descriptors of all tasks and their flags.  And where a descriptor with the flag is gone after the
call, the new program has been installed. -/
theorem execve_all_or_nothing (path : Str) (argv envp : List Str) (s : ExecState W) :
    let r := run (execveWithArgs env path argv envp) s
    (∀ e, r.1 = some (.error e) → r.2.task = s.task ∧
      ∀ pid, (r.2.tasks.fds pid).abs = (s.tasks.fds pid).abs) ∧
    (∀ fd value, (s.tasks.fds env.pid).abs fd = some (value, true) →
      (r.2.tasks.fds env.pid).abs fd = none → r.1 = some (.ok ()) ∧ Installed env s.view r.2) := by
  intro r
  have h : AllOrNothing env s.view r.1 r.2 := ends_execve env path argv envp s
  refine ⟨fun e he => ?_, fun fd value hfd hgone => ?_⟩
  · rw [he] at h
    exact ⟨congrArg Prod.fst h, fun pid => congrFun (congrArg Prod.snd h) pid⟩
  have hkept : r.2.view.2 = s.view.2 → False := by
    intro hview
    have hsame : (r.2.tasks.fds env.pid).abs fd = (s.tasks.fds env.pid).abs fd :=
      congrFun (congrFun hview env.pid) fd
    rw [hgone, hfd] at hsame
    cases hsame
  rcases hr : r.1 with _ | e | ⟨⟩ <;> rw [hr] at h
  · exact (hkept h).elim
  · exact (hkept (congrArg Prod.snd h)).elim
  · exact ⟨rfl, h⟩

end Krust.Process
