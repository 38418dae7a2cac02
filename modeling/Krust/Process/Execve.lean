import Krust.Arch.InitialStack
import Krust.Mm.AddressSpace
import Krust.Process.Access

/-!
# Running another program

`execve` reads the first bytes of the file through a descriptor of the calling task, which it opens
and closes again.  Scripts send it to another file, up to four times.  Then it builds an address
space for the program, loads the segments into it, and puts the arguments on its stack.  Only when
all of this has been done is the task changed: it gets the new address space, and loses the
descriptors that are to be closed.

The file systems are a parameter, with a state `W` of their own.  What is written to the stack is
kept a second time beside the address space, for those who read it there (`Image`); the kernel has
no such copy.
-/

set_option autoImplicit false

namespace Krust.Process

open Lib Prog Vfs

/-! ## Binary formats

Who is asked to run a program looks at its first bytes.  A handler either knows nothing of them, or
says how the program is to be loaded, or names another program that is to be run in its place, with
other arguments.  The kernel has two handlers, for scripts and for ELF files, and modules may
register others; the first one that knows the bytes decides.  The library that takes an ELF file
apart is a parameter.
-/

structure ExecRequest where
  path : Str
  argv : List Str
  envp : List Str
  deriving DecidableEq, Repr

structure LoadPlan extends Arch.LoadPlan where
  segments : List Mm.LoadSegment
  interpreter : Option Str

inductive BinaryFormatAction
  | load (plan : LoadPlan)
  | redirect (next : ExecRequest)

inductive BinfmtError
  | alreadyRegistered
  | notFound
  | notExecutableFormat
  | invalidFormat
  | io (errno : Int)
  deriving DecidableEq, Repr

/-- `BinaryFormatHandler::inspect`; `none` is a panic. -/
abbrev BinaryFormatHandler : Type :=
  ExecRequest → List UInt8 → Option (Except BinfmtError (Option BinaryFormatAction))

/-- The loop of `probe_path` over the registered handlers. -/
def inspectAll (request : ExecRequest) (bytes : List UInt8) :
    List BinaryFormatHandler → Option (Except BinfmtError BinaryFormatAction)
  | [] => some (.error .notExecutableFormat)
  | handler :: handlers =>
    match handler request bytes with
    | none => none
    | some (.error e) => some (.error e)
    | some (.ok (some action)) => some (.ok action)
    | some (.ok none) => inspectAll request bytes handlers

/-! ## Scripts -/

/-- `str::split_whitespace`. -/
def splitWhitespace (s : Str) : List Str :=
  (s.splitOnP Vfs.isWhitespace).filter fun part => !part.isEmpty

/-- The program that runs a script, and its arguments: its own one, the path of the script and the
arguments of the script. -/
def interpreterRequest (request : ExecRequest) (interpreter : Str) (arg : Option Str) :
    ExecRequest where
  path := interpreter
  argv := [interpreter] ++ arg.toList ++ [request.path] ++ request.argv.drop 1
  envp := request.envp

/-- `ShebangHandler::inspect`. -/
def shebangInspect : BinaryFormatHandler := fun request data =>
  if data.length < 2 ∨ data.getD 0 0 ≠ 0x23 ∨ data.getD 1 0 ≠ 0x21 then some (.ok none)
  else
    let lineEnd := data.findIdx fun byte => byte == 0x0a
    match fromUtf8 ((data.take lineEnd).drop 2) with
    | none => some (.error .invalidFormat)
    | some text =>
      let line := Vfs.trim text
      if line = [] then some (.error .invalidFormat)
      else
        match splitWhitespace line with
        | [] => some (.error .invalidFormat)
        | interpreter :: parts =>
          some (.ok (some (.redirect (interpreterRequest request interpreter parts.head?))))

/-! ## ELF files -/

/-- `xmas_elf::program::Type`, the kinds that matter here. -/
inductive ProgramType
  | load
  | interp
  | phdr
  | other
  deriving DecidableEq, Repr

/-- `xmas_elf::program::ProgramHeader`. -/
structure ProgramHeader where
  /-- `get_type`; `none` is an error. -/
  type : Option ProgramType
  virtualAddr : UInt64
  memSize : UInt64
  offset : UInt64
  fileSize : UInt64
  flags : Mm.SegmentPermissions
  /-- `get_data`; `none` is an error, and `some none` is data of another kind than bytes. -/
  data : Option (Option (List UInt8))

/-- `xmas_elf::ElfFile`. -/
structure ElfFile where
  phOffset : UInt64
  phEntrySize : UInt16
  phCount : UInt16
  entryPoint : UInt64
  programs : List ProgramHeader

/-- The variables of the loop over the program headers. -/
structure Gathered where
  segments : List Mm.LoadSegment
  interpreter : Option Str
  phdrAddr : Option Nat

/-- The text of an interpreter's path, without the zeros behind it. -/
def interpreterPath : Option (List UInt8) → Option Str
  | some bytes => (fromUtf8 bytes).map fun value => Vfs.trimEndMatches '\x00' value
  | none => none

/-- The loop over the program headers. -/
def gather : List ProgramHeader → Gathered → Except BinfmtError Gathered
  | [], g => .ok g
  | header :: headers, g =>
    match header.type with
    | some .load =>
      gather headers { g with
        segments := g.segments ++
          [⟨header.virtualAddr, header.memSize, header.offset, header.fileSize, header.flags⟩] }
    | some .interp =>
      match header.data with
      | none => .error .invalidFormat
      | some data => gather headers { g with interpreter := interpreterPath data }
    | some .phdr => gather headers { g with phdrAddr := some header.virtualAddr.toNat }
    | _ => gather headers g

/-- Where the table of the program headers is loaded, if it is part of a segment of the file. -/
def phdrInSegment (checks : Bool) (phOffset : Nat) (headers : List ProgramHeader) :
    Option (Option Nat) :=
  let contains (header : ProgramHeader) : Bool :=
    header.type = some .load ∧ header.offset.toNat ≤ phOffset ∧
      phOffset < min (header.offset.toNat + header.fileSize.toNat) USIZE_MAX
  match headers.find? contains with
  | none => some none
  | some header =>
    (fit checks (2 ^ 64) (header.virtualAddr.toNat + (phOffset - header.offset.toNat))).map some

/-- `ElfHandler::inspect`.  The library that parses the file is a parameter, and `none` is a panic
of it.  The sum of an address and an offset is not checked by the source. -/
def elfInspect (parse : List UInt8 → Option (Option ElfFile)) (checks : Bool) :
    BinaryFormatHandler :=
  fun _ data =>
    match parse data with
    | none => none
    | some none => some (.ok none)
    | some (some elf) =>
      let phOffset := elf.phOffset.toNat
      let tableSize := elf.phEntrySize.toNat * elf.phCount.toNat
      if elf.phEntrySize = 0 ∧ 0 < elf.phCount then some (.error .invalidFormat)
      else if USIZE_MAX < tableSize ∨ USIZE_MAX < phOffset + tableSize then
        some (.error .invalidFormat)
      else if data.length < phOffset + tableSize then some (.error .invalidFormat)
      else
        match gather elf.programs ⟨[], none, none⟩ with
        | .error e => some (.error e)
        | .ok g =>
          let phdrAddr :=
            match g.phdrAddr with
            | some address => some (some address)
            | none => phdrInSegment checks phOffset elf.programs
          phdrAddr.map fun address =>
            .ok (some (.load {
              entryPoint := elf.entryPoint
              phdrAddr := UInt64.ofNat (address.getD 0)
              phentSize := UInt64.ofNat elf.phEntrySize.toNat
              phnum := UInt64.ofNat elf.phCount.toNat
              segments := g.segments
              interpreter := g.interpreter }))

/-- The handlers that `init` registers. -/
def builtinHandlers (parse : List UInt8 → Option (Option ElfFile)) (checks : Bool) :
    List BinaryFormatHandler :=
  [shebangInspect, elfInspect parse checks]

section Source

/-! ## The state -/

/-- `Task`, as far as `execve` is concerned.  The descriptors are in `Tasks`. -/
structure ExecTask where
  cwdPath : Str
  addressSpace : Mm.AddressSpace
  argv : List Str
  execPath : Str
  brkStart : Nat
  brkEnd : Nat
  brkMappedEnd : Nat
  mmapStart : Nat
  mmapEnd : Nat
  userStackTop : Nat
  userland : Bool
  clearChildTid : Nat
  /-- `context.user_entry_point`. -/
  userEntryPoint : Nat
  /-- `context.address_space_root`. -/
  addressSpaceRoot : Mm.PhysFrame
  deriving DecidableEq

/-- The descriptors of all tasks and the file systems, the memory, and the task that is running, if
the scheduler knows it. -/
structure ExecState (W : Type) where
  tasks : Tasks W
  mm : Mm.Manager
  task : Option ExecTask

/-- How the file systems read paths. -/
structure Names (W : Type) where
  resolveSymlinkPath : Str → W → Except FsError Str
  /-- `vfs::open_path`: the inode that has been opened, and what kind it is. -/
  openPath : Str → W → Except FsError (AnyInode × FileType) × W
  lookupPath : Str → W → Except FsError AnyInode

/-- What does not change while a program is started. -/
structure ExecEnv (W : Type) where
  names : Names W
  inodes : Inodes W
  mapper : Mm.Mapper
  handlers : List BinaryFormatHandler
  /-- Whether the kernel is built with overflow checks. -/
  checks : Bool
  /-- `current_pid`. -/
  pid : Nat

def PROBE_READ_LIMIT : Nat := 2 * 1024
def MAX_INTERPRETER_REDIRECTS : Nat := 4

/-- `arch::user_mmap_base`. -/
def USER_MMAP_BASE : Nat := 0x0000600000000000

section Source

variable {W : Type} (env : ExecEnv W)

/-! ## Looking at the file -/

/-- `current_cwd_path`. -/
def ExecState.cwd (s : ExecState W) : Option Str := s.task.map (·.cwdPath)

/-- A call of `Tasks`, for a task that exists. -/
def onTasks {α : Type} (f : Tasks W → Except Int α × Tasks W) : Prog (ExecState W) Int α := do
  let r ← step fun s : ExecState W =>
    match s.task with
    | none => (.error (-1), s)
    | some _ => ((f s.tasks).1, { s with tasks := (f s.tasks).2 })
  ofExcept r

/-- The inode that a path leads to is opened. -/
def openPath (path : Str) : Prog (ExecState W) Int (AnyInode × FileType) := do
  let cwd ← load ExecState.cwd
  let absolute ← ofExcept ((resolveAbsolute cwd path).mapError errnoFromFs)
  let opened ← step fun s : ExecState W =>
    let r := env.names.openPath absolute s.tasks.world
    (r.1, { s with tasks := { s.tasks with world := r.2 } })
  ofExcept (opened.mapError errnoFromFs)

/-- `impls::open`, with flags of zero. -/
def openFile (path : Str) : Prog (ExecState W) Int Nat := do
  let opened ← openPath env path
  onTasks fun tasks => tasks.openWithMode env.inodes env.pid 0 (.ok ()) (.ok opened)

/-- `impls::read`: the bytes that were read. -/
def readFile (fd len : Nat) : Prog (ExecState W) Int (List UInt8) :=
  onTasks fun tasks =>
    let r := tasks.readFd env.inodes env.pid fd len
    (r.1.result.map fun _ => r.1.bytes, r.2)

/-- `impls::close`. -/
def closeFile (fd : Nat) : Prog (ExecState W) Int Nat :=
  onTasks fun tasks => tasks.closeFd env.pid fd

/-- The errors of `probe_path`, as `execve` returns them. -/
def errnoFromBinfmt : BinfmtError → Int
  | .io errno => errno
  | .notExecutableFormat => -8
  | .alreadyRegistered => -38
  | .notFound => -38
  | .invalidFormat => -8

def probePath (request : ExecRequest) : Prog (ExecState W) Int BinaryFormatAction := do
  let fd ← openFile env request.path
  let read ← attempt (readFile env fd PROBE_READ_LIMIT)
  let _ ← attempt (closeFile env fd)
  let bytes ← ofExcept read
  let action ← ofOption (inspectAll request bytes env.handlers)
  ofExcept (action.mapError errnoFromBinfmt)

/-! ## The new address space -/

/-- An address space that is being built, and what has been written for the user. -/
abbrev Image : Type := Mm.AddressSpace × (Nat → UInt8)

def onSpace {α : Type} (p : Prog Mm.Work Mm.MmError α) (s : Mm.Manager × Image) :
    Option Bool × (Mm.Manager × Image) :=
  let r := run p (s.1, s.2.1)
  (r.1.map Except.isOk, (r.2.1, (r.2.2, s.2.2)))

/-- The space, as the stack is built in it.  What is written behind the end of the user counts as an
error, if it does not panic. -/
def imageSpace : Arch.UserSpace (Mm.Manager × Image) where
  bytes s := s.2.2
  mapZeroedRegion start size flags s :=
    onSpace (Mm.mapZeroedRegion env.mapper env.checks start size
      (if flags = Arch.WRITABLE then .writable else .empty)) s
  writeBytes a bs s :=
    let r := onSpace (Mm.writeBytes a bs) s
    if a + bs.length ≤ Arch.USER_ADDRESS_END then
      (r.1, if r.1 = some true then (r.2.1, (r.2.2.1, blit r.2.2.2 a bs)) else r.2)
    else (r.1.map fun _ => false, r.2)
  stored := by
    intro a bs s s' h
    dsimp only at h
    split at h
    · obtain ⟨htrue, hs'⟩ := Prod.mk.inj h
      rw [if_pos htrue] at hs'
      rw [← hs']
      rfl
    · cases hr : (onSpace (Mm.writeBytes a bs) s).1 <;> rw [hr] at h <;> cases (Prod.mk.inj h).1
  user := by
    intro a bs s s' h
    dsimp only at h
    split at h
    · assumption
    · cases hr : (onSpace (Mm.writeBytes a bs) s).1 <;> rw [hr] at h <;> cases (Prod.mk.inj h).1

/-- The closure that reads the file.  It is answered from the state in which loading starts: no
inode changes a file when it is read. -/
def readChunk (inode : AnyInode) (w : W) : Mm.ReadChunk := fun offset len =>
  (env.inodes.read inode offset len w).1.mapError fun _ => .ioFailed

def mapSegments (inode : AnyInode) (w : W) :
    List Mm.LoadSegment → Prog (Mm.Manager × Image) Int Unit
  | [] => ret ()
  | segment :: segments => do
    failIf (env.inodes.size inode w <
      min (segment.fileOffset.toNat + segment.fileSize.toNat) USIZE_MAX) (-8)
    embed (fun s => (s.1, s.2.1)) (fun work s => (work.1, (work.2, s.2.2))) (fun _ => -5)
      (Mm.mapSegment env.mapper segment (readChunk env inode w))
    mapSegments inode w segments

/-- The segments and the stack; the result is the stack pointer. -/
def buildImage (inode : AnyInode) (w : W) (plan : LoadPlan) (request : ExecRequest)
    (originalPath : Str) : Prog (Mm.Manager × Image) Int Nat := do
  mapSegments env inode w plan.segments
  Arch.buildInitialUserStack (imageSpace env) env.checks (request.argv.map utf8Bytes)
    (request.envp.map utf8Bytes) (utf8Bytes originalPath) plan.toLoadPlan

def inMm {α : Type} (p : Prog Mm.Manager Int α) : Prog (ExecState W) Int α :=
  embed ExecState.mm (fun mm s => { s with mm := mm }) id p

def dropImage (image : Image) : Prog (ExecState W) Int Unit :=
  update fun s => { s with mm := (run (Mm.dropSpace image.1) s.mm).2 }

/-! ## The change of the task -/

/-- The old address space is replaced, and the task gets what belongs to the new program. -/
def ExecTask.replace (task : ExecTask) (space : Mm.AddressSpace) (argv : List Str) (execPath : Str)
    (entryPoint stackTop : Nat) : ExecTask :=
  { task with
    addressSpace := space
    argv := argv
    execPath := execPath
    clearChildTid := 0
    userEntryPoint := entryPoint
    userStackTop := stackTop
    addressSpaceRoot := space.rootFrame
    userland := true }

/-- `initialize_brk` and `set_mmap_start`. -/
def ExecTask.setCursors (task : ExecTask) (brkStart : Nat) : ExecTask :=
  { task with
    brkStart := brkStart
    brkEnd := brkStart
    brkMappedEnd := brkStart
    mmapStart := USER_MMAP_BASE
    mmapEnd := USER_MMAP_BASE }

/-- The end of the last segment, up to the next page.  The sum is not checked by the source. -/
def brkStart (checks : Bool) (segments : List Mm.LoadSegment) : Option Nat :=
  let ends := segments.map fun segment =>
    min (segment.virtualAddress.toNat + segment.memorySize.toNat) USIZE_MAX
  match ends.max? with
  | none => some 0
  | some value => (fit checks (2 ^ 64) (value + 4095)).map fun sum => sum &&& (USIZE_MAX - 4095)

def ExecState.onTask (s : ExecState W) (f : ExecTask → ExecTask) : ExecState W :=
  { s with task := s.task.map f }

/-- The descriptors that are to be closed are removed. -/
def ExecState.closeOnExec (s : ExecState W) : ExecState W :=
  { s with tasks := { s.tasks with
      fds := Function.update s.tasks.fds env.pid (s.tasks.fds env.pid).closeOnExec.2 } }

/-- The closure of `with_current_task_mut`; the result stands for the program being entered. -/
def install (image : Image) (plan : LoadPlan) (request : ExecRequest) (originalPath : Str)
    (stackTop : Nat) : Prog (ExecState W) Int Unit := do
  let task ← load ExecState.task
  match task with
  | none => do
    dropImage image
    fail (-1)
  | some task => do
    update fun s => s.onTask fun task =>
      task.replace image.1 request.argv originalPath plan.entryPoint.toNat stackTop
    let start ← ofOption (brkStart env.checks plan.segments)
    update fun s => s.onTask fun task => task.setCursors start
    update fun s => { s with mm := (run (Mm.dropSpace task.addressSpace) s.mm).2 }
    update (ExecState.closeOnExec env)

/-! ## The call -/

/-- The branch for a program that can be loaded. -/
def loadProgram (plan : LoadPlan) (request : ExecRequest) (requestPath originalPath : Str) :
    Prog (ExecState W) Int Unit := do
  failIf plan.interpreter.isSome (-8)
  let cwd ← load ExecState.cwd
  let absolute ← ofExcept ((resolveAbsolute cwd requestPath).mapError errnoFromFs)
  let w ← load fun s : ExecState W => s.tasks.world
  let inode ← ofExcept ((env.names.lookupPath absolute w).mapError errnoFromFs)
  let space ← inMm (embed id (fun mm _ => mm) (fun _ => -5) Mm.kernel)
  let (r, image) ← inMm (withLocal (buildImage env inode w plan request originalPath)
    (space, fun _ => 0))
  match r with
  | .ok stackTop => install env image plan request originalPath stackTop
  | .error e => do
    dropImage image
    fail e

/-- The loop, with the redirects that are left. -/
def execLoop (originalPath : Str) : Nat → Str → ExecRequest → Prog (ExecState W) Int Unit
  | redirects, requestPath, request => do
    let action ← probePath env request
    match action with
    | .load plan => loadProgram env plan request requestPath originalPath
    | .redirect next =>
      match redirects with
      | 0 => fail (-40)
      | redirects + 1 => do
        let w ← load fun s : ExecState W => s.tasks.world
        let path := (env.names.resolveSymlinkPath next.path w).toOption.getD next.path
        execLoop originalPath redirects path { next with path := path }

def execveWithArgs (path : Str) (argv envp : List Str) : Prog (ExecState W) Int Unit := do
  let cwd ← load ExecState.cwd
  let originalPath ← ofExcept ((resolveAbsolute cwd path).mapError errnoFromFs)
  let w ← load fun s : ExecState W => s.tasks.world
  let requestPath := (env.names.resolveSymlinkPath originalPath w).toOption.getD originalPath
  execLoop env originalPath MAX_INTERPRETER_REDIRECTS requestPath ⟨requestPath, argv, envp⟩

end Source

end Source

end Krust.Process
