import Krust.Arch.StackBounds
import Krust.Mm.Mapped
import Krust.Process.Execve

/-!
# Where programs are mapped

`execve` maps the segments of an ELF file where the file wants them, and `brk` maps the pages behind
the program.  Neither asks whether these pages belong to the user, as `mmap` does: a segment behind
the end of the user is mapped, or the kernel panics because its address is not canonical, and a page
that the kernel has mapped for itself is replaced in the tables of the task.

What can be said is in `user_pages_mapped`: as long as the files and the breaks keep to the
addresses of the user, and there is room for the records of the pages, the pages do so and no call
panics.
-/

set_option autoImplicit false

namespace Krust.Process

open Lib Prog Vfs List Option Arch ExecState

/-! ## The break -/

def USER_BRK_MAX : Nat := 0x00007fff00000000

section Source

variable {W : Type} (env : ExecEnv W)

/-- The pages up to a new break. -/
def growBreak (task : ExecTask) (addr : Nat) : Prog (ExecState W) Int Unit := do
  let sum ← ofOption (fit env.checks (2 ^ 64) (addr + 4096))
  let mappedTarget := (sum - 1) &&& (USIZE_MAX - 4095)
  let (r, space) ← inMm (withLocal (embed id (fun work _ => work) (fun _ => -12)
    (Mm.mapZeroedRegion env.mapper env.checks task.brkMappedEnd
      (mappedTarget - task.brkMappedEnd) .writable)) task.addressSpace)
  update fun s => s.onTask fun task => { task with addressSpace := space }
  let _ ← ofExcept r
  update fun s => s.onTask fun task => { task with brkMappedEnd := mappedTarget }

def brk (addr : Nat) : Prog (ExecState W) Int Nat := do
  let task ← load task
  match task with
  | none => fail (-1)
  | some task =>
    if task.brkStart = 0 then fail (-12)
    else if addr = 0 then ret task.brkEnd
    else if addr < task.brkStart ∨ USER_BRK_MAX < addr then ret task.brkEnd
    else do
      if task.brkMappedEnd < addr then growBreak env task addr
      update fun s => s.onTask fun task => { task with brkEnd := addr }
      ret addr

inductive MapCall
  | execve (path : Str) (argv envp : List Str)
  | brk (addr : Nat)

def MapCall.prog : MapCall → Prog (ExecState W) Int Unit
  | .execve path argv envp => execveWithArgs env path argv envp
  | .brk addr => do
    let _ ← Process.brk env addr
    ret ()

def MapCall.apply (s : ExecState W) (call : MapCall) : ExecState W := (run (call.prog env) s).2

/-! ## The file that is run -/

/-- The first bytes of a file, as `probe_path` reads them. -/
def probeBytes (request : ExecRequest) : Prog (ExecState W) Int (List UInt8) := do
  let fd ← openFile env request.path
  let read ← attempt (readFile env fd PROBE_READ_LIMIT)
  let _ ← attempt (closeFile env fd)
  ofExcept read

/-- The file behind the scripts, by its first bytes, and the request for it. -/
def program : Nat → ExecRequest → ExecState W → Option (ExecRequest × List UInt8)
  | redirects, request, s =>
    match run (probeBytes env request) s with
    | (some (.ok bytes), s') =>
      match inspectAll request bytes env.handlers with
      | some (.ok (.redirect next)) =>
        match redirects with
        | 0 => none
        | redirects + 1 =>
          let path :=
            (env.names.resolveSymlinkPath next.path s'.tasks.world).toOption.getD next.path
          program redirects { next with path := path } s'
      | _ => some (request, bytes)
    | _ => none

/-- The file that `execve` is given, with the path that it was called with. -/
def givenProgram (path : Str) (argv envp : List Str) (s : ExecState W) :
    Option (Str × ExecRequest × List UInt8) :=
  match resolveAbsolute s.cwd path with
  | .error _ => none
  | .ok originalPath =>
    let requestPath :=
      (env.names.resolveSymlinkPath originalPath s.tasks.world).toOption.getD originalPath
    (program env MAX_INTERPRETER_REDIRECTS ⟨requestPath, argv, envp⟩ s).map (originalPath, ·)

end Source

/-! ## The memory, when pages are mapped -/

variable {segments : List Mm.LoadSegment} {addr : Nat} {requestPath : Str} {α : Type}

section Image

variable {W : Type} (env : ExecEnv W)

/-- A routine of the memory manager with a variable of its own. -/
theorem ends_inMm_withLocal {τ β : Type} {p : Prog (Mm.Manager × τ) Int α} {t : τ}
    {k : Except Int α × τ → Prog (ExecState W) Int β}
    {Q : Option (Except Int β) → ExecState W → Prop} {s : ExecState W}
    (hp : Ends p (fun r s' => ∃ a, r = some a ∧ Ends (k (a, s'.2)) Q { s with mm := s'.1 })
      (s.mm, t)) : Ends (Prog.bind (inMm (withLocal p t)) k) Q s := by
  obtain ⟨a, ha, hk⟩ := hp
  rw [ends_bind, Ends, inMm, run_embed mm (fun mm s => { s with mm := mm }) id,
    run_withLocal, ha]
  exact hk

/-- A method of an address space, for the system calls. -/
theorem ends_mapRegion {β : Type} {p : Prog Mm.Work Mm.MmError α} {space : Mm.AddressSpace}
    {k : Except Int α × Mm.AddressSpace → Prog (ExecState W) Int β}
    {Q : Option (Except Int β) → ExecState W → Prop} {s : ExecState W}
    (hp : Ends p (fun r w => ∃ a, r = some a ∧
      Ends (k (a.mapError fun _ => -12, w.2)) Q { s with mm := w.1 }) (s.mm, space)) :
    Ends (Prog.bind (inMm (withLocal (embed id (fun work _ => work) (fun _ => -12) p) space)) k)
      Q s := by
  obtain ⟨a, ha, hk⟩ := hp
  refine ends_inMm_withLocal ?_
  rw [Ends, run_embed id (fun work _ => work), id_eq, ha]
  exact ⟨_, rfl, hk⟩

variable {mm : Mm.Manager} {root : Mm.PhysFrame}

/-- The pages of an address space that is being built are pages of the user, at most `n`. -/
structure UserImage (mm : Mm.Manager) (root : Mm.PhysFrame) (n : Nat) (s : Mm.Manager × Image) :
    Prop where
  pages : ∀ mapping ∈ s.2.1.mappings, Mm.UserPage mm root mapping.page
  count : s.2.1.mappings.length ≤ n

variable {n n' : Nat}

theorem UserImage.records {s s' : Mm.Manager × Image} (h : UserImage mm root n s)
    (hnew : Mm.Records (Mm.UserPage mm root) n' s.2.1 s'.2.1) : UserImage mm root (n + n') s' := by
  obtain ⟨new, hmappings, hlen, hpages⟩ := hnew
  have hcount := h.count
  constructor <;> rw [hmappings]
  · exact forall_mem_append.2 ⟨h.pages, hpages⟩
  · rw [length_append]
    omega

theorem UserImage.mono {s : Mm.Manager × Image} (h : UserImage mm root n s) (hle : n ≤ n') :
    UserImage mm root n' s :=
  ⟨h.pages, h.count.trans hle⟩

/-- A method, called while the stack is built. -/
theorem built_onSpace {p : Prog Mm.Work Mm.MmError α} {s : Mm.Manager × Image}
    (hp : Mm.MapsOnly env.mapper (Mm.UserPage mm root) n' p)
    (hroom : env.mapper.HasRoom (n + n')) (hs : UserImage mm root n s) :
    Built (UserImage mm root (n + n')) (onSpace p s).1 (onSpace p s).2 := by
  refine ⟨hs.records (hp (s.1, s.2.1)).1, fun hnone => ?_⟩
  refine hp.returns (w := (s.1, s.2.1)) (fun k hk => hroom k (hk.trans ?_))
    (map_eq_none_iff.1 hnone)
  exact Nat.add_le_add_right hs.count n'

theorem keepsBuilt_writeBytes {a : Nat} {bs : List UInt8} (hroom : env.mapper.HasRoom n)
    (h : a + bs.length ≤ USER_STACK_TOP) :
    KeepsBuilt (UserImage mm root n) ((imageSpace env).writeBytes a bs) := by
  intro s hs
  have htop : USER_STACK_TOP ≤ USER_ADDRESS_END := by decide
  have htop' : USER_STACK_TOP < 2 ^ 47 := by decide
  have hwrite : Mm.MapsOnly env.mapper (Mm.UserPage mm root) 0 (Mm.writeBytes a bs) :=
    Mm.mapsOnly_writeBytes _ _ (by omega)
  obtain ⟨himage, hreturns⟩ := built_onSpace env hwrite hroom hs
  rw [imageSpace]
  dsimp only
  rw [if_pos (h.trans htop)]
  refine ⟨?_, hreturns⟩
  split
  · exact ⟨himage.pages, himage.count⟩
  · exact himage

/-- A segment that is too long is not mapped. -/
theorem stop_le_of_mapped {inode : AnyInode} {w : W} : ∀ {s : Mm.Manager × Image},
    (run (mapSegments env inode w segments) s).1 = some (.ok ()) →
    ∀ segment ∈ segments, segment.stop ≤ USIZE_MAX := by
  induction segments with
  | nil => exact fun _ => forall_mem_nil _
  | cons segment segments ih =>
    intro s h
    obtain ⟨_, s1, -, h⟩ := run_bind_eq_ok (Prod.ext h rfl)
    obtain ⟨_, s2, hmap, h⟩ := run_bind_eq_ok h
    refine forall_mem_cons.2 ⟨?_, ih (congrArg Prod.fst h)⟩
    by_contra hlong
    rw [Mm.mapSegment_refused env.mapper hlong] at hmap
    cases hmap

def mappedPages (segments : List Mm.LoadSegment) : Nat :=
  (segments.map Mm.LoadSegment.mappedPages).sum

/-- **The segments are mapped, or an error is returned.** -/
theorem ends_mapSegments (inode : AnyInode) (w : W) :
    (∀ segment ∈ segments, Mm.UserSegment mm root segment) → ∀ {s n}, UserImage mm root n s →
    env.mapper.HasRoom (n + mappedPages segments) →
    Ends (mapSegments env inode w segments)
      (Built (UserImage mm root (n + mappedPages segments))) s := by
  induction segments with
  | nil => exact fun _ _ _ hs _ => ⟨hs, some_ne_none _⟩
  | cons segment segments ih =>
    intro hsegments s n hs hroom
    obtain ⟨hsegment, hrest⟩ := forall_mem_cons.1 hsegments
    have hpages : mappedPages (segment :: segments) = segment.mappedPages + mappedPages segments :=
      sum_cons
    rw [hpages, ← add_assoc] at hroom ⊢
    refine ends_guard (fun _ => ⟨hs.mono (by omega), some_ne_none _⟩) fun _ => ?_
    have hmaps := Mm.mapsOnly_segment env.mapper hsegment (readChunk env inode w)
    have hreturns := hmaps.returns (w := (s.1, s.2.1)) fun k hk =>
      hroom k (hk.trans (by have := hs.count; dsimp only; omega))
    have hrecords := (hmaps (s.1, s.2.1)).1
    rw [bind_eq, ends_bind, Ends, run_embed (fun s => (s.1, s.2.1))
      (fun work s => (work.1, (work.2, s.2.2)))]
    rcases hrun : run (Mm.mapSegment env.mapper segment (readChunk env inode w)) (s.1, s.2.1)
      with ⟨_ | e | ⟨⟩, work⟩ <;> rw [hrun] at hreturns hrecords
    · exact absurd rfl hreturns
    · exact ⟨(hs.records hrecords).mono (Nat.le_add_right _ _), some_ne_none _⟩
    · exact ih hrest (hs.records hrecords) hroom

end Image

/-! ## The break, in pages of the user -/

section Brk

variable {W : Type} (env : ExecEnv W) {s : ExecState W} {task : ExecTask}

theorem inRange_roundUp {start : Nat} (hlt : start < addr) (hmax : addr ≤ USER_BRK_MAX)
    {page : Mm.Page} (h : Mm.InRange start ((addr + 4095) / 4096 * 4096) page) :
    Mm.InRange start addr page := by
  obtain ⟨a, hlo, hhi, ha⟩ := h
  rw [USER_BRK_MAX] at hmax
  obtain ⟨hstart, hstop⟩ := Mm.containingAddress_eq (by omega) ha
  have hmod := Mm.startAddress_mod page
  refine ⟨min a (addr - 1), by omega, by omega, ?_⟩
  exact Mm.containingAddress_of_mem (by omega) (by omega)

/-- The break only grows into pages of the user, and there is room for their records. -/
def BrkFits (s : ExecState W) (addr : Nat) : Prop :=
  ∀ task, s.task = some task → task.brkMappedEnd < addr → addr ≤ USER_BRK_MAX →
    Mm.Unsupervised s.mm task.addressSpace.rootFrame task.brkMappedEnd addr ∧
      env.mapper.HasRoom
        (task.addressSpace.mappings.length + Mm.pageCount task.brkMappedEnd addr)

/-- What has been mapped for the running task since a state. -/
def Grown (s s' : ExecState W) : Prop :=
  ∀ task task', s.task = some task → s'.task = some task' → ∃ n,
    Mm.Records (Mm.UserPage s.mm task.addressSpace.rootFrame) n task.addressSpace
      task'.addressSpace

variable {s' : ExecState W} {task' : ExecTask}

theorem Grown.of_task (h : s.task = some task) (h' : s'.task = some task') {n : Nat}
    (hnew : Mm.Records (Mm.UserPage s.mm task.addressSpace.rootFrame) n task.addressSpace
      task'.addressSpace) : Grown s s' := by
  intro t t' ht ht'
  cases h.symm.trans ht
  cases h'.symm.trans ht'
  exact ⟨n, hnew⟩

theorem grown_refl (s : ExecState W) : Grown s s := by
  intro task task' h h'
  cases h.symm.trans h'
  exact ⟨0, .refl _ _ rfl⟩

theorem mappedTarget_eq (h : addr ≤ USER_BRK_MAX) :
    (addr + 4096 - 1) &&& (USIZE_MAX - 4095) = (addr + 4095) / 4096 * 4096 := by
  rw [USER_BRK_MAX] at h
  exact mask_high (n := 12) (k := 52) (by omega)

def pagesEnd (addr : Nat) : Nat := (addr + 4095) / 4096 * 4096

/-- The pages for a new break. -/
def mapBreak (task : ExecTask) (addr : Nat) : Prog Mm.Work Mm.MmError Nat :=
  Mm.mapZeroedRegion env.mapper env.checks task.brkMappedEnd (pagesEnd addr - task.brkMappedEnd)
    .writable

/-- **What `brk` does**, by the way it ends. -/
inductive Breaks (s : ExecState W) (addr : Nat) : Option (Except Int Nat) → ExecState W → Prop
  | unset {e : Int} (hunset : ∀ task, s.task = some task → task.brkStart = 0) :
      Breaks s addr (some (.error e)) s
  | refused {task : ExecTask} (htask : s.task = some task) :
      Breaks s addr (some (.ok task.brkEnd)) s
  | moved {task : ExecTask} (htask : s.task = some task) (hstart : task.brkStart ≤ addr)
      (hle : addr ≤ task.brkMappedEnd) :
      Breaks s addr (some (.ok addr)) { s with task := some { task with brkEnd := addr } }
  | failed {task : ExecTask} {e : Mm.MmError} {w : Mm.Work} (htask : s.task = some task)
      (hset : task.brkStart ≠ 0) (hlt : task.brkMappedEnd < addr) (hmax : addr ≤ USER_BRK_MAX)
      (hrun : run (mapBreak env task addr) (s.mm, task.addressSpace) = (some (.error e), w)) :
      Breaks s addr (some (.error (-12)))
        { s with mm := w.1, task := some { task with addressSpace := w.2 } }
  | grown (task : ExecTask) {first : Nat} {w : Mm.Work} (htask : s.task = some task)
      (hstart : task.brkStart ≤ addr) (hlt : task.brkMappedEnd < addr) (hmax : addr ≤ USER_BRK_MAX)
      (hrun : run (mapBreak env task addr) (s.mm, task.addressSpace) = (some (.ok first), w)) :
      Breaks s addr (some (.ok addr)) { s with mm := w.1, task := some { task with
        addressSpace := w.2, brkMappedEnd := pagesEnd addr, brkEnd := addr } }

theorem pagesEnd_le {start : Nat} (hlt : start < addr) (hmax : addr ≤ USER_BRK_MAX) :
    start + (pagesEnd addr - start) = pagesEnd addr ∧ pagesEnd addr ≤ USER_ADDRESS_END := by
  rw [USER_BRK_MAX] at hmax
  rw [USER_ADDRESS_END, pagesEnd]
  omega

/-- The pages of a new break, and that there are as many as up to the break itself. -/
theorem mapsOnly_mapBreak (hlt : task.brkMappedEnd < addr) (hmax : addr ≤ USER_BRK_MAX) :
    Mm.MapsOnly env.mapper (Mm.InRange task.brkMappedEnd (pagesEnd addr))
      (Mm.pageCount task.brkMappedEnd addr) (mapBreak env task addr) := by
  obtain ⟨hsize, hend⟩ := pagesEnd_le hlt hmax
  have hmaps : Mm.MapsOnly env.mapper _ _ (mapBreak env task addr) :=
    Mm.mapsOnly_region env.mapper (hsize.trans_le hend)
  rw [hsize] at hmaps
  refine hmaps.mono (Nat.le_of_eq ?_) fun _ => id
  rw [Mm.pageCount, Mm.pageCount, if_pos hlt, pagesEnd]
  split <;> omega

theorem ends_breaks (addr : Nat) (hroom : ∀ task, s.task = some task →
      task.brkMappedEnd < addr → addr ≤ USER_BRK_MAX → env.mapper.HasRoom
        (task.addressSpace.mappings.length + Mm.pageCount task.brkMappedEnd addr)) :
    Ends (brk env addr) (Breaks env s addr) s := by
  obtain ⟨tasks, mm, _ | task⟩ := s <;> rw [brk, bind_eq, ends_load] <;> dsimp only
  · exact .unset nofun
  split_ifs with hzero haddr hrange hlt
  · exact .unset fun _ h => some.inj h ▸ hzero
  · exact .refused rfl
  · exact .refused rfl
  · rw [not_or, not_lt, not_lt] at hrange
    obtain ⟨hsize, hend⟩ := pagesEnd_le hlt hrange.2
    have hreturns : (run (mapBreak env task addr) (mm, task.addressSpace)).1 ≠ none :=
      (mapsOnly_mapBreak env hlt hrange.2).returns (hroom task rfl hlt hrange.2)
    have hsum : fit env.checks (2 ^ 64) (addr + 4096) = some (addr + 4096) := by
      rw [USER_ADDRESS_END, pagesEnd] at hend
      exact if_pos (by omega)
    rw [bind_eq, ends_bind, growBreak]
    simp only [bind_eq, hsum, ofOption, Prog.bind, mappedTarget_eq hrange.2]
    refine ends_mapRegion ?_
    change Ends (mapBreak env task addr) _ _
    rcases hrun : run (mapBreak env task addr) (mm, task.addressSpace) with ⟨_ | e | first, w⟩ <;>
      rw [Ends, hrun]
    · exact (hreturns (congrArg Prod.fst hrun)).elim
    · exact ⟨_, rfl, .failed rfl hzero hlt hrange.2 hrun⟩
    · exact ⟨_, rfl, .grown task rfl hrange.1 hlt hrange.2 hrun⟩
  · exact .moved rfl (not_lt.1 (not_or.1 hrange).1) (not_lt.1 hlt)

/-- **A break that grows into pages of the user.** -/
theorem ends_brk {addr : Nat} (hfits : BrkFits env s addr) :
    Ends (brk env addr) (fun r s' => r ≠ none ∧ Grown s s') s := by
  refine (ends_breaks env addr fun task htask hlt hmax => (hfits task htask hlt hmax).2).mono
    fun r s' h => ?_
  have hregion : ∀ task : ExecTask, s.task = some task → task.brkMappedEnd < addr →
      addr ≤ USER_BRK_MAX → Mm.Records (Mm.UserPage s.mm task.addressSpace.rootFrame)
        (Mm.pageCount task.brkMappedEnd addr) task.addressSpace
        (run (mapBreak env task addr) (s.mm, task.addressSpace)).2.2 := by
    intro task htask hlt hmax
    have hmaps := (mapsOnly_mapBreak env hlt hmax).mono (le_refl _) fun page hpage =>
      Mm.userPage_of_inRange (pagesEnd_le hlt hmax).2 (fun page hpage =>
        (hfits task htask hlt hmax).1 page (inRange_roundUp hlt hmax hpage)) hpage
    exact (hmaps (s.mm, task.addressSpace)).1
  cases h with
  | unset => exact ⟨nofun, grown_refl s⟩
  | refused => exact ⟨nofun, grown_refl s⟩
  | moved htask => exact ⟨nofun, .of_task htask rfl (.refl _ 0 rfl)⟩
  | failed htask _ hlt hmax hrun =>
    have hnew := hregion _ htask hlt hmax
    rw [hrun] at hnew
    exact ⟨nofun, .of_task htask rfl hnew⟩
  | grown task htask _ hlt hmax hrun =>
    have hnew := hregion _ htask hlt hmax
    rw [hrun] at hnew
    exact ⟨nofun, .of_task htask rfl hnew⟩

end Brk

/-! ## The program, in pages of the user -/

def ProgramHeader.segment (header : ProgramHeader) : Mm.LoadSegment :=
  ⟨header.virtualAddr, header.memSize, header.offset, header.fileSize, header.flags⟩

def ElfFile.loads (elf : ElfFile) : List Mm.LoadSegment :=
  (elf.programs.filter fun header => header.type = some .load).map ProgramHeader.segment

def stackBase : Nat := USER_STACK_TOP - (USER_STACK_SIZE + USER_STACK_RESERVE)

def stackPages : Nat := Mm.pageCount stackBase (stackBase + USER_STACK_MAP_SIZE)

/-- The segments of the file are segments of the user, and the address of the table of the program
headers does not overflow.  There is room for the records of its pages and of the stack. -/
structure ElfFits (mapper : Mm.Mapper) (mm : Mm.Manager) (elf : ElfFile) : Prop where
  segments : ∀ segment ∈ elf.loads, Mm.UserSegment mm mm.kernelRoot segment
  table : ∀ header ∈ elf.programs, header.type = some .load →
    header.offset.toNat ≤ elf.phOffset.toNat →
    header.virtualAddr.toNat + (elf.phOffset.toNat - header.offset.toNat) < 2 ^ 64
  room : mapper.HasRoom (mappedPages elf.loads + stackPages)

/-- The kernel has mapped nothing where the stack will be, and there is room on it. -/
structure StackFits (mm : Mm.Manager) (request : ExecRequest) (originalPath : Str) : Prop where
  unsupervised : Mm.Unsupervised mm mm.kernelRoot stackBase (stackBase + USER_STACK_MAP_SIZE)
  room : stackBytes (request.argv.map utf8Bytes) (request.envp.map utf8Bytes)
    (utf8Bytes originalPath) ≤ USER_STACK_TOP - USER_STACK_RESERVE

/-- The file, if the library can read it, and its arguments can be loaded.  The library does not
panic. -/
def FileFits (parse : List UInt8 → Option (Option ElfFile)) (mapper : Mm.Mapper) (mm : Mm.Manager)
    (request : ExecRequest) (originalPath : Str) (bytes : List UInt8) : Prop :=
  ∃ file, parse bytes = some file ∧
    ∀ elf, file = some elf → ElfFits mapper mm elf ∧ StackFits mm request originalPath

theorem gather_segments {headers : List ProgramHeader} : ∀ {g g' : Gathered},
    gather headers g = .ok g' → g'.segments = g.segments ++
      (headers.filter fun header => header.type = some .load).map ProgramHeader.segment := by
  induction headers with
  | nil =>
    rintro g g' ⟨⟩
    exact (append_nil _).symm
  | cons header headers ih =>
    intro g g' h
    rw [gather] at h
    split at h
    · rw [ih h]
      simp [*, ProgramHeader.segment]
    · split at h
      · cases h
      · rw [ih h]
        simp [*]
    · rw [ih h]
      simp [*]
    · rw [ih h]
      simp_all

section Inspect

variable {parse : List UInt8 → Option (Option ElfFile)} (checks : Bool) (request : ExecRequest)
  {bytes : List UInt8}

variable (bytes) in
theorem shebangInspect_cases : ∃ r, shebangInspect request bytes = some r ∧
    ∀ plan, r ≠ .ok (some (.load plan)) := by
  rw [shebangInspect]
  split
  · exact ⟨_, rfl, nofun⟩
  dsimp only
  split
  · exact ⟨_, rfl, nofun⟩
  split
  · exact ⟨_, rfl, nofun⟩
  split
  · exact ⟨_, rfl, nofun⟩
  · exact ⟨_, rfl, nofun⟩

variable {mm : Mm.Manager} {mapper : Mm.Mapper} {originalPath : Str}

theorem phdrInSegment_ne_none {elf : ElfFile} (h : ElfFits mapper mm elf) :
    phdrInSegment checks elf.phOffset.toNat elf.programs ≠ none := by
  rw [phdrInSegment]
  split
  · exact some_ne_none _
  rename_i header hfind
  have hcontains := find?_some hfind
  rw [decide_eq_true_iff] at hcontains
  rw [fit, if_pos (h.table header (mem_of_find?_eq_some hfind) hcontains.1 hcontains.2.1)]
  exact some_ne_none _

theorem elfInspect_cases (h : FileFits parse mapper mm request originalPath bytes) :
    ∃ r, elfInspect parse checks request bytes = some r ∧ ∀ plan, r = .ok (some (.load plan)) →
      ∃ elf, plan.segments = elf.loads ∧ ElfFits mapper mm elf ∧
        StackFits mm request originalPath := by
  obtain ⟨file, hparse, hfits⟩ := h
  rw [elfInspect, hparse]
  rcases file with _ | elf
  · exact ⟨_, rfl, nofun⟩
  obtain ⟨helf, hstack⟩ := hfits elf rfl
  dsimp only
  split
  · exact ⟨_, rfl, nofun⟩
  split
  · exact ⟨_, rfl, nofun⟩
  split
  · exact ⟨_, rfl, nofun⟩
  rcases hgather : gather elf.programs ⟨[], none, none⟩ with e | g
  · exact ⟨_, rfl, nofun⟩
  have hsegments : g.segments = elf.loads := gather_segments hgather
  obtain ⟨address, haddress⟩ := ne_none_iff_exists'.1 (phdrInSegment_ne_none checks helf)
  dsimp only
  split
  · refine ⟨_, rfl, ?_⟩
    rintro plan ⟨⟩
    exact ⟨elf, hsegments, helf, hstack⟩
  rw [haddress]
  refine ⟨_, rfl, ?_⟩
  rintro plan ⟨⟩
  exact ⟨elf, hsegments, helf, hstack⟩

/-- **The handlers of the kernel do not panic**, and what they want to be loaded are segments of the
file. -/
theorem inspectAll_cases (h : FileFits parse mapper mm request originalPath bytes) :
    ∃ r, inspectAll request bytes (builtinHandlers parse checks) = some r ∧
      ∀ plan, r = .ok (.load plan) → ∃ elf, plan.segments = elf.loads ∧
        ElfFits mapper mm elf ∧ StackFits mm request originalPath := by
  obtain ⟨script, hscript, hnever⟩ := shebangInspect_cases request bytes
  rw [builtinHandlers, inspectAll, hscript]
  rcases script with e | _ | action
  · exact ⟨_, rfl, nofun⟩
  · obtain ⟨r, hr, hload⟩ := elfInspect_cases checks request h
    rw [inspectAll, hr]
    rcases r with e | _ | action
    · exact ⟨_, rfl, nofun⟩
    · exact ⟨_, rfl, nofun⟩
    refine ⟨_, rfl, ?_⟩
    rintro plan ⟨⟩
    exact hload plan rfl
  · refine ⟨_, rfl, ?_⟩
    rintro plan ⟨⟩
    exact absurd rfl (hnever plan)

end Inspect

section Execve

variable {W : Type} (env : ExecEnv W)

/-- The call comes back, and if a program has been started, its pages are pages of the user. -/
def Placed (mm : Mm.Manager) (r : Option (Except Int Unit)) (s : ExecState W) : Prop :=
  r ≠ none ∧ (r = some (.ok ()) → ∀ task, s.task = some task →
    ∀ mapping ∈ task.addressSpace.mappings, Mm.UserPage mm mm.kernelRoot mapping.page)

theorem placed_error (mm : Mm.Manager) (e : Int) (s : ExecState W) :
    Placed mm (some (.error e)) s := ⟨nofun, nofun⟩

variable {s : ExecState W} {parse : List UInt8 → Option (Option ElfFile)}

/-- Something that leaves the memory alone comes first. -/
theorem placed_bind {p : Prog (ExecState W) Int α} {k : α → Prog (ExecState W) Int Unit}
    {mm : Mm.Manager} (hp : Within False (Same ExecState.mm) p) (hs : s.mm = mm)
    (hk : ∀ a s', s'.mm = mm → Ends (k a) (Placed mm) s') : Ends (Prog.bind p k) (Placed mm) s :=
  hp.ends_bind nofun (fun e s' _ => placed_error mm e s') fun a s' h => hk a s' (h.trans hs)

theorem within_onTasks (f : Tasks W → Except Int α × Tasks W) :
    Within False (Same mm) (onTasks f) := by
  refine Within.bind (within_step fun s => ?_) fun _ => within_ofExcept _
  rw [Same]
  split <;> rfl

theorem within_openFile (path : Str) : Within False (Same mm) (openFile env path) :=
  Within.bind ((within_load _).bind fun _ => (within_ofExcept _).bind fun _ =>
    Within.bind (within_step fun _ => rfl) fun _ => within_ofExcept _) fun _ => within_onTasks _

section Probe

variable (request : ExecRequest)

/-- Looking at a file comes back. -/
theorem within_probeBytes : Within False (Same mm) (probeBytes env request) :=
  (within_openFile env request.path).bind fun _ => (within_onTasks _).attempt.bind fun _ =>
    (within_onTasks _).attempt.bind fun _ => within_ofExcept _

theorem probePath_eq : probePath env request =
    Prog.bind (probeBytes env request) fun bytes =>
    Prog.bind (ofOption (inspectAll request bytes env.handlers)) fun action =>
      Prog.ofExcept (action.mapError errnoFromBinfmt) := by
  simp only [probePath, probeBytes, bind_eq, Prog.bind_assoc]

end Probe

theorem brkStart_ne_none (checks : Bool)
    (h : ∀ segment ∈ segments, segment.stop + 4095 ≤ USIZE_MAX) :
    brkStart checks segments ≠ none := by
  rw [brkStart]
  split
  · exact some_ne_none _
  rename_i value hmax
  obtain ⟨segment, hsegment, rfl⟩ := mem_map.1 (max?_mem hmax)
  have hstop := h segment hsegment
  rw [Mm.LoadSegment.stop, USIZE_MAX] at hstop
  rw [fit, if_pos (by omega)]
  exact some_ne_none _

variable {mm : Mm.Manager} {plan : LoadPlan} {request : ExecRequest} {originalPath : Str}
  {elf : ElfFile}

theorem ends_buildImage (inode : AnyInode) (w : W) (hplan : plan.segments = elf.loads)
    (helf : ElfFits env.mapper mm elf) (hstack : StackFits mm request originalPath)
    {s : Mm.Manager × Image} (hs : UserImage mm mm.kernelRoot 0 s) :
    Ends (buildImage env inode w plan request originalPath)
      (fun r s' => (r ≠ none ∧
        ∀ mapping ∈ s'.2.1.mappings, Mm.UserPage mm mm.kernelRoot mapping.page) ∧
        ((∃ sp, r = some (.ok sp)) → ∀ segment ∈ plan.segments, segment.stop ≤ USIZE_MAX)) s := by
  have hroom := helf.room
  rw [← hplan, ← Nat.zero_add (mappedPages plan.segments)] at hroom
  rw [buildImage, bind_eq, ends_bind]
  have hmapped := ends_mapSegments env inode w (hplan ▸ helf.segments) hs
    fun k hk => hroom k (hk.trans (Nat.le_add_right _ _))
  rw [Ends] at hmapped ⊢
  rcases hrun : run (mapSegments env inode w plan.segments) s with ⟨_ | e | ⟨⟩, s'⟩ <;>
    rw [hrun] at hmapped
  · exact absurd rfl hmapped.2
  · exact ⟨⟨some_ne_none _, hmapped.1.pages⟩, by rintro ⟨_, ⟨⟩⟩⟩
  rw [andThen_ok]
  have hregion : Mm.MapsOnly env.mapper (Mm.UserPage mm mm.kernelRoot) stackPages
      (Mm.mapZeroedRegion env.mapper env.checks stackBase USER_STACK_MAP_SIZE
        (if WRITABLE = WRITABLE then .writable else .empty)) :=
    (Mm.mapsOnly_region env.mapper (by decide)).mono (le_refl _) fun _ =>
      Mm.userPage_of_inRange (by decide) hstack.unsupervised
  refine (ends_buildInitialUserStack rfl (built_onSpace env hregion hroom hmapped.1)
    (fun _ _ h => keepsBuilt_writeBytes env hroom h) plan.toLoadPlan hstack.room).mono ?_
  exact fun r s'' h => ⟨⟨h.2, h.1.pages⟩,
    fun _ => stop_le_of_mapped env (congrArg Prod.fst hrun)⟩

/-- **The program is started in pages of the user.** -/
theorem placed_install {image : Image} {stackTop : Nat}
    (himage : ∀ mapping ∈ image.1.mappings, Mm.UserPage mm mm.kernelRoot mapping.page)
    (hsegments : ∀ segment ∈ plan.segments, segment.stop + 4095 ≤ USIZE_MAX) :
    Ends (install env image plan request originalPath stackTop) (Placed mm) s := by
  rw [install, bind_eq, ends_load]
  rcases htask : s.task with _ | task
  · exact placed_error mm _ _
  obtain ⟨start, hstart⟩ := ne_none_iff_exists'.1
    (brkStart_ne_none env.checks hsegments)
  rw [hstart]
  refine ⟨nofun, fun _ task' htask' => ?_⟩
  have hreplaced : ((s.task.map fun task => task.replace image.1 request.argv originalPath
      plan.entryPoint.toNat stackTop).map fun task => task.setCursors start) = some task' := htask'
  rw [htask] at hreplaced
  cases hreplaced
  exact himage

theorem placed_loadProgram (hplan : plan.segments = elf.loads)
    (helf : ElfFits env.mapper mm elf) (hstack : StackFits mm request originalPath)
    (hs : s.mm = mm) :
    Ends (loadProgram env plan request requestPath originalPath) (Placed mm) s := by
  have hdrop : ∀ (image : Image) (e : Int) (s : ExecState W),
      Ends (Prog.bind (dropImage image) fun _ => fail e) (Placed mm) s :=
    fun _ e s => placed_error mm e _
  refine ends_guard (fun _ => placed_error mm _ _) fun _ => ?_
  simp only [bind_eq]
  refine placed_bind (within_load _) hs fun cwd s hs => ?_
  refine placed_bind (within_ofExcept _) hs fun absolute s hs => ?_
  refine placed_bind (within_load _) hs fun w s hs => ?_
  refine placed_bind (within_ofExcept _) hs fun inode s hs => ?_
  -- A new space has no pages.
  obtain ⟨r, hr⟩ := ne_none_iff_exists'.1 (Mm.returns_kernel s.mm).1
  have hempty : Ends Mm.kernel _ s.mm := Mm.ends_kernel_mappings
  rw [Prog.ends_bind, Ends, inMm, run_embed ExecState.mm (fun mm s => { s with mm := mm }) id,
    run_embed id (fun mm _ => mm), id_eq, hr]
  rw [Ends, hr] at hempty
  rcases r with e | space
  · exact placed_error mm _ _
  simp only [map_some, Except.mapError, andThen_ok]
  have hnone : UserImage mm mm.kernelRoot 0 ((run Mm.kernel s.mm).2, (space, fun _ => 0)) := by
    constructor <;> dsimp only <;> rw [hempty space rfl]
    · exact forall_mem_nil _
    · exact le_refl 0
  refine ends_inMm_withLocal ((ends_buildImage env inode w hplan helf hstack hnone).mono ?_)
  rintro r s' ⟨⟨hreturns, himage⟩, hfits⟩
  rcases r with _ | e | stackTop
  · exact absurd rfl hreturns
  · exact ⟨_, rfl, hdrop s'.2 e _⟩
  · refine ⟨_, rfl, placed_install env himage fun segment hsegment => ?_⟩
    exact (helf.segments segment (hplan ▸ hsegment)).rounds (hfits ⟨_, rfl⟩ segment hsegment)

/-- The answer of the handlers, and what follows. -/
theorem ends_probePath {k : BinaryFormatAction → Prog (ExecState W) Int α}
    {Q : Option (Except Int α) → ExecState W → Prop} {request : ExecRequest}
    (herror : ∀ e s', Q (some (.error e)) s')
    (hk : ∀ bytes s', run (probeBytes env request) s = (some (.ok bytes), s') → ∃ r,
      inspectAll request bytes env.handlers = some r ∧ ∀ action, r = .ok action →
        Ends (k action) Q s') : Ends (Prog.bind (probePath env request) k) Q s := by
  obtain ⟨read, hread⟩ := ne_none_iff_exists'.1 (within_probeBytes env request s).1
  rw [probePath_eq, Prog.bind_assoc, Prog.ends_bind, Ends, hread]
  rcases read with e | bytes
  · exact herror _ _
  obtain ⟨r, hr, haction⟩ := hk bytes _ (Prod.ext hread rfl)
  rw [andThen_ok, hr]
  cases r with
  | error e => exact herror _ _
  | ok action => exact haction action rfl

section Handlers

variable (hhandlers : env.handlers = builtinHandlers parse env.checks)
include hhandlers

/-- One round of the loop.  What is said of the file is needed where it is not a script. -/
theorem placed_round {redirected : ExecRequest → Prog (ExecState W) Int Unit} (hs : s.mm = mm)
    (hfile : ∀ bytes s', run (probeBytes env request) s = (some (.ok bytes), s') →
      (∀ next, inspectAll request bytes env.handlers ≠ some (.ok (.redirect next))) →
      FileFits parse env.mapper mm request originalPath bytes)
    (hredirect : ∀ bytes s' next, run (probeBytes env request) s = (some (.ok bytes), s') →
      inspectAll request bytes env.handlers = some (.ok (.redirect next)) → s'.mm = mm →
      Ends (redirected next) (Placed mm) s') :
    Ends (Prog.bind (probePath env request) fun
      | .load plan => loadProgram env plan request requestPath originalPath
      | .redirect next => redirected next) (Placed mm) s := by
  refine ends_probePath env (placed_error mm) fun bytes s' hrun => ?_
  have hs' : s'.mm = mm := ((within_probeBytes env request s).of_run hrun).2.trans hs
  by_cases hscript : ∃ next, inspectAll request bytes env.handlers = some (.ok (.redirect next))
  · obtain ⟨next, hnext⟩ := hscript
    refine ⟨_, hnext, ?_⟩
    rintro action ⟨⟩
    exact hredirect bytes s' next hrun hnext hs'
  · have hfits := hfile bytes s' hrun (not_exists.1 hscript)
    obtain ⟨r, hr, hload⟩ := inspectAll_cases env.checks request hfits
    rw [← hhandlers] at hr
    refine ⟨r, hr, ?_⟩
    rintro (plan | next) rfl
    · obtain ⟨elf, hplan, helf, hstack⟩ := hload plan rfl
      exact placed_loadProgram env hplan helf hstack hs'
    · exact absurd ⟨next, hr⟩ hscript

/-- However often the call is sent to another file. -/
theorem placed_execLoop (redirects : Nat) :
    ∀ (requestPath : Str) (request : ExecRequest) {s : ExecState W}, s.mm = mm →
      (∀ request' bytes, program env redirects request s = some (request', bytes) →
        FileFits parse env.mapper mm request' originalPath bytes) →
      Ends (execLoop env originalPath redirects requestPath request) (Placed mm) s := by
  -- A file that is not a script is the program.
  have hprogram : ∀ {redirects request} {s : ExecState W} {bytes s'},
      run (probeBytes env request) s = (some (.ok bytes), s') →
      (∀ next, inspectAll request bytes env.handlers ≠ some (.ok (.redirect next))) →
      program env redirects request s = some (request, bytes) := by
    intro redirects request s bytes s' hrun hscript
    rw [program.eq_def]
    dsimp only
    rw [hrun]
    dsimp only
    split
    · rename_i next hnext
      exact absurd hnext (hscript next)
    · rfl
  induction redirects with
  | zero =>
    intro requestPath request s hs hfits
    rw [execLoop]
    refine placed_round env hhandlers hs (fun bytes s' hrun hscript =>
      hfits request bytes (hprogram hrun hscript)) fun _ s' _ _ _ _ => placed_error mm _ s'
  | succ redirects ih =>
    intro requestPath request s hs hfits
    rw [execLoop]
    refine placed_round env hhandlers hs (fun bytes s' hrun hscript =>
      hfits request bytes (hprogram hrun hscript)) fun bytes s' next hrun hnext hs' => ?_
    refine ih _ _ hs' fun request' bytes' hnext' => hfits request' bytes' ?_
    rw [program, hrun]
    dsimp only
    rw [hnext]
    exact hnext'

def ExecveFits (parse : List UInt8 → Option (Option ElfFile)) (s : ExecState W) (path : Str)
    (argv envp : List Str) : Prop :=
  ∀ originalPath request bytes,
    givenProgram env path argv envp s = some (originalPath, request, bytes) →
    FileFits parse env.mapper s.mm request originalPath bytes

theorem placed_execve {path : Str} {argv envp : List Str}
    (hfits : ExecveFits env parse s path argv envp) :
    Ends (execveWithArgs env path argv envp) (Placed s.mm) s := by
  rw [execveWithArgs, bind_eq, ends_load]
  rcases hpath : resolveAbsolute s.cwd path with e | originalPath
  · exact placed_error s.mm _ s
  refine placed_execLoop env hhandlers _ _ _ rfl fun request bytes hprogram => ?_
  refine hfits originalPath request bytes ?_
  rw [givenProgram, hpath]
  dsimp only
  rw [hprogram]
  rfl

/-! ## Runs -/

/-- The pages that the call maps are all pages of the user, and were so before the call; or it
returns an error.  It does not panic. -/
def MapCall.Safe (s : ExecState W) (call : MapCall) : Prop :=
  let r := run (call.prog env) s
  r.1 ≠ none ∧
    match call with
    | .execve .. => r.1 = some (.ok ()) → ∀ task, r.2.task = some task →
      ∀ mapping ∈ task.addressSpace.mappings, Mm.UserPage s.mm s.mm.kernelRoot mapping.page
    | .brk _ => Grown s r.2

/-- The call keeps to the addresses of the user, and to the room on the heap. -/
def MapCall.Fits (parse : List UInt8 → Option (Option ElfFile)) (s : ExecState W) : MapCall → Prop
  | .execve path argv envp => ExecveFits env parse s path argv envp
  | .brk addr => BrkFits env s addr

theorem MapCall.Fits.safe {call : MapCall} (h : call.Fits env parse s) : call.Safe env s := by
  cases call with
  | execve path argv envp => exact placed_execve env hhandlers h
  | brk addr =>
    obtain ⟨hreturns, hgrown⟩ := ends_brk env h
    rw [MapCall.Safe]
    dsimp only [MapCall.prog]
    rw [bind_eq, run_bind]
    rcases hrun : run (Process.brk env addr) s with ⟨_ | e | value, s'⟩ <;>
      rw [hrun] at hreturns hgrown
    · exact absurd rfl hreturns
    · exact ⟨nofun, hgrown⟩
    · exact ⟨nofun, hgrown⟩

end Handlers

/-- **The pages of the user.**  In a run whose calls all keep to the addresses of the user, with
room for the records of the pages, no call panics, and every page that is mapped lies below the end
of the user and was not mapped for the supervisor before the call. -/
theorem user_pages_mapped {parse : List UInt8 → Option (Option ElfFile)}
    (hhandlers : env.handlers = builtinHandlers parse env.checks) (init : ExecState W)
    (calls : List MapCall) (hcalls : ∀ before call, before ++ [call] <+: calls →
      call.Fits env parse (runFrom (MapCall.apply env) init before)) :
    ∀ before call, before ++ [call] <+: calls →
      call.Safe env (runFrom (MapCall.apply env) init before) :=
  fun before call hcall => (hcalls before call hcall).safe env hhandlers

end Execve

/-- An ELF file that has nothing but the headers of its segments, which can be read and executed. -/
def elfBytes (entry : UInt64) (segments : List Mm.LoadSegment) : List UInt8 :=
  [0x7f, 0x45, 0x4c, 0x46, 2, 1, 1, 0, 0, 0, 0, 0, 0, 0, 0, 0, 2, 0, 0x3e, 0, 1, 0, 0, 0] ++
  leBytes 8 entry.toNat ++ leBytes 8 64 ++ leBytes 8 0 ++
  [0, 0, 0, 0, 64, 0, 56, 0] ++ leBytes 2 segments.length ++ [64, 0, 0, 0, 0, 0] ++
  segments.flatMap fun segment =>
    [1, 0, 0, 0, 5, 0, 0, 0] ++ leBytes 8 segment.fileOffset.toNat ++
    leBytes 8 segment.virtualAddress.toNat ++ leBytes 8 segment.virtualAddress.toNat ++
    leBytes 8 segment.fileSize.toNat ++ leBytes 8 segment.memorySize.toNat ++ leBytes 8 4096

/-- The same file, taken apart. -/
def elfFile (entry : UInt64) (segments : List Mm.LoadSegment) : ElfFile where
  phOffset := 64
  phEntrySize := 56
  phCount := UInt16.ofNat segments.length
  entryPoint := entry
  programs := segments.map fun segment =>
    ⟨some .load, segment.virtualAddress, segment.memorySize, segment.fileOffset, segment.fileSize,
      ⟨true, false, true⟩, some (some
        (slice (elfBytes entry segments) segment.fileOffset.toNat segment.fileSize.toNat))⟩

def parseElf (entry : UInt64) (segments : List Mm.LoadSegment) (bytes : List UInt8) :
    Option (Option ElfFile) :=
  some (if bytes = elfBytes entry segments then some (elfFile entry segments) else none)

def oneFile (entry : UInt64) (segments : List Mm.LoadSegment) : ExecEnv Unit where
  names :=
    { resolveSymlinkPath := fun path _ => .ok path
      openPath := fun _ w => (.ok (.memory 1 2, .regular), w)
      lookupPath := fun _ _ => .ok (.memory 1 2) }
  inodes :=
    { read := fun _ offset len w => (.ok (slice (elfBytes entry segments) offset len), w)
      write := fun _ _ _ w => (.error .invalidArgument, w)
      append := fun _ _ w => (.error .invalidArgument, w)
      truncate := fun _ _ w => (.error .invalidArgument, w)
      size := fun _ _ => (elfBytes entry segments).length
      seek := fun _ _ => none
      content := fun _ _ => elfBytes entry segments
      read_keeps := fun _ _ _ _ _ => ⟨rfl, rfl⟩ }
  mapper := Mm.walkMapper
  handlers := builtinHandlers (parseElf entry segments) true
  checks := true
  pid := 1

def byteAt (address : UInt64) : Mm.LoadSegment := ⟨address, 1, 0, 0, ⟨true, false, true⟩⟩

/-- The environment with a file of one segment in the lower half. -/
def lowFile : ExecEnv Unit := oneFile 0x400000 [byteAt 0x400000]

/-- A task that runs no program yet. -/
def firstTask : ExecState Unit where
  tasks := .boot ()
  mm := Mm.smallManager
  task := some
    { cwdPath := ['/'], addressSpace := ⟨1, [], []⟩, argv := [], execPath := [], brkStart := 0,
      brkEnd := 0, brkMappedEnd := 0, mmapStart := 0, mmapEnd := 0, userStackTop := 0,
      userland := false, clearChildTid := 0, userEntryPoint := 0, addressSpaceRoot := 1 }

/-- **A segment that begins where the addresses of the user end.**  The kernel panics. -/
theorem segment_behind_user_panics :
    ¬ (MapCall.execve ['/', 'a'] [] []).Safe
      (oneFile 0x800000000000 [byteAt 0x800000000000]) firstTask := by
  intro hsafe
  refine hsafe.1 (isNone_iff_eq_none.1 ?_)
  decide +kernel

/-- Nothing is mapped for the supervisor in a memory of zeros. -/
theorem not_supervisor_smallManager (address : Nat) :
    ¬ Supervisor (Mm.tablesOf Mm.smallManager.memory)
      (UInt64.ofNat (Mm.frameStart Mm.smallManager.kernelRoot)) address := by
  rintro ⟨path, hpath, -⟩
  rw [Arch.translate, Mm.tablesOf] at hpath
  rw [Mm.entry_smallManager] at hpath
  cases hpath

theorem user_pages_mapped_oneFile :
    (MapCall.execve ['/', 'a'] [] []).Safe lowFile firstTask := by
  have hgiven : givenProgram lowFile ['/', 'a'] [] [] firstTask =
      some (['/', 'a'], ⟨['/', 'a'], [], []⟩, elfBytes 0x400000 [byteAt 0x400000]) := by
    decide +kernel
  have hunsupervised : ∀ start stop,
      Mm.Unsupervised firstTask.mm firstTask.mm.kernelRoot start stop :=
    fun _ _ page _ => not_supervisor_smallManager page.startAddress
  have hfits : ExecveFits lowFile
      (parseElf 0x400000 [byteAt 0x400000]) firstTask ['/', 'a'] [] [] := by
    rintro originalPath request bytes hprogram
    cases hgiven.symm.trans hprogram
    refine ⟨_, congrArg some (if_pos rfl), ?_⟩
    rintro elf ⟨⟩
    refine ⟨⟨fun segment hsegment => ?_, fun header hheader _ _ => ?_, fun k hk => ?_⟩,
      hunsupervised _ _, by decide⟩
    · cases mem_singleton.1 hsegment
      exact ⟨fun _ _ => by decide, fun _ => by decide, hunsupervised _ _⟩
    · cases mem_singleton.1 hheader
      decide
    · exact decide_eq_true (hk.trans (by decide))
  have hcalls := (forall_event_concat (fun before (call : MapCall) =>
    call.Fits lowFile (parseElf 0x400000 [byteAt 0x400000])
      (runFrom (MapCall.apply lowFile) firstTask before)) []
    (.execve ['/', 'a'] [] [])).2 ⟨forall_event_nil, hfits⟩
  exact user_pages_mapped lowFile rfl firstTask
    [.execve ['/', 'a'] [] []] hcalls [] _ (prefix_refl _)

end Krust.Process
