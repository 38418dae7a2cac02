import Krust.Arch.SupervisorOverlap
import Krust.Fs.Defs
import Krust.Lib.Memory
import Krust.Lib.Prog

/-!
# The first stack of a program

`build_initial_user_stack` fills the stack of a new program from the top: the strings of the
environment and of the arguments, the platform name, the path of the program and the random seed,
then down to a multiple of 16, and from there in words of eight bytes the auxiliary vector, the
pointers to the environment and to the arguments, and at last the number of arguments.  A word of
padding comes first where the number of words is odd, so the stack pointer is a multiple of 16 at
the end as well.

The address space is a parameter (`UserSpace`), of which only this is used: bytes that have been
written stand at consecutive addresses of the user.  `decodeStack` reads the stack as the System V
ABI lays it down.
-/

set_option autoImplicit false

namespace Krust.Arch

open Prog Lib List Option Filled

/-! ## The source -/

def USER_STACK_TOP : Nat := USER_ADDRESS_END - PAGE_SIZE
def USER_STACK_SIZE : Nat := 8 * 4096
def USER_STACK_RESERVE : Nat := 256 * 4096
def USER_STACK_MAP_SIZE : Nat := USER_STACK_SIZE + USER_STACK_RESERVE + PAGE_SIZE

def AT_NULL : Nat := 0
def AT_PHDR : Nat := 3
def AT_PHENT : Nat := 4
def AT_PHNUM : Nat := 5
def AT_PAGESZ : Nat := 6
def AT_BASE : Nat := 7
def AT_FLAGS : Nat := 8
def AT_ENTRY : Nat := 9
def AT_UID : Nat := 11
def AT_EUID : Nat := 12
def AT_GID : Nat := 13
def AT_EGID : Nat := 14
def AT_PLATFORM : Nat := 15
def AT_HWCAP : Nat := 16
def AT_CLKTCK : Nat := 17
def AT_SECURE : Nat := 23
def AT_RANDOM : Nat := 25
def AT_HWCAP2 : Nat := 26
def AT_EXECFN : Nat := 31
def CLKTCK : Nat := 100

/-- What the stack says of the program that has been loaded. -/
structure LoadPlan where
  entryPoint : UInt64
  phdrAddr : UInt64
  phentSize : UInt64
  phnum : UInt64

/-- An address space, as far as the stack needs it: bytes that have been written stand at
consecutive addresses of the user. -/
structure UserSpace (σ : Type) where
  /-- What the user reads at an address. -/
  bytes : σ → Nat → UInt8
  /-- `AddressSpace::map_zeroed_region`; `false` is an error, and `none` is a panic. -/
  mapZeroedRegion : Nat → Nat → UInt64 → σ → Option Bool × σ
  /-- `AddressSpace::write_bytes`, with the same results. -/
  writeBytes : Nat → List UInt8 → σ → Option Bool × σ
  stored : ∀ {a bs s s'}, writeBytes a bs s = (some true, s') → bytes s' = blit (bytes s) a bs
  user : ∀ {a bs s s'}, writeBytes a bs s = (some true, s') → a + bs.length ≤ USER_ADDRESS_END

section Source

variable {σ : Type} (space : UserSpace σ)
/- Whether the kernel is built with overflow checks. -/
variable (checks : Bool)

/-- `method(..).map_err(|_| -5)?` -/
def orFail (method : σ → Option Bool × σ) : Prog σ Int Unit := do
  let result ← step method
  let ok ← ofOption result
  failIf (!ok) (-5)

def writeBytes (a : Nat) (bs : List UInt8) : Prog σ Int Unit := orFail (space.writeBytes a bs)

/-- `sp -= n` -/
def subtract (sp n : Nat) : Prog σ Int Nat := ofOption (fitSub checks (2 ^ 64) sp n)

/-- `sp.checked_sub(n).ok_or(-7)?` -/
def checkedSub (sp n : Nat) : Prog σ Int Nat := if n ≤ sp then ret (sp - n) else fail (-7)

/-- A string and the zero behind it. -/
def writeString (sp : Nat) (bytes : List UInt8) : Prog σ Int Unit := do
  writeBytes space sp bytes
  writeBytes space (sp + bytes.length) [0]

def pushStrings : List (List UInt8) → Nat → Prog σ Int Nat
  | [], sp => ret sp
  | bytes :: rest, sp => do
    let sp ← checkedSub sp (bytes.length + 1)
    writeString space sp bytes
    pushStrings rest sp

def pushU64 (sp value : Nat) : Prog σ Int Nat := do
  let sp ← subtract checks sp 8
  writeBytes space sp (leBytes 8 value)
  ret sp

def pushAuxv (sp key value : Nat) : Prog σ Int Nat := do
  let sp ← pushU64 space checks sp value
  pushU64 space checks sp key

/-- Entries of the auxiliary vector, from the last one down. -/
def pushAuxvs : List (Nat × Nat) → Nat → Prog σ Int Nat
  | [], sp => ret sp
  | (key, value) :: rest, sp => do
    let sp ← pushAuxv space checks sp key value
    pushAuxvs rest sp

/-- The pointers to strings that have been put below `scan`, from the last one down. -/
def pushPointers : List (List UInt8) → Nat → Nat → Prog σ Int Nat
  | [], _, sp => ret sp
  | bytes :: rest, scan, sp => do
    let scan ← checkedSub scan (bytes.length + 1)
    let sp ← pushU64 space checks sp scan
    pushPointers rest scan sp

/-- A word of padding where the number of words in the table is odd. -/
def pushPadding (tableQwords sp : Nat) : Prog σ Int Nat :=
  if tableQwords % 2 ≠ 0 then pushU64 space checks sp 0 else ret sp

/-- `b"x86_64"` -/
def platform : List UInt8 := [0x78, 0x38, 0x36, 0x5f, 0x36, 0x34]

/-- The entries of the auxiliary vector, in the order in which they are pushed. -/
def auxvPushes (plan : LoadPlan) (execfnAddr randomAddr platformAddr : Nat) : List (Nat × Nat) :=
  [(AT_NULL, 0), (AT_EXECFN, execfnAddr), (AT_HWCAP2, 0), (AT_RANDOM, randomAddr), (AT_SECURE, 0),
    (AT_CLKTCK, CLKTCK), (AT_HWCAP, 0), (AT_PLATFORM, platformAddr), (AT_EGID, 0), (AT_GID, 0),
    (AT_EUID, 0), (AT_UID, 0), (AT_ENTRY, plan.entryPoint.toNat), (AT_FLAGS, 0), (AT_BASE, 0),
    (AT_PAGESZ, PAGE_SIZE), (AT_PHNUM, plan.phnum.toNat), (AT_PHENT, plan.phentSize.toNat),
    (AT_PHDR, plan.phdrAddr.toNat)]

def buildInitialUserStack (argv envp : List (List UInt8)) (execPath : List UInt8)
    (plan : LoadPlan) : Prog σ Int Nat := do
  let stackBase := USER_STACK_TOP - (USER_STACK_SIZE + USER_STACK_RESERVE)
  orFail (space.mapZeroedRegion stackBase USER_STACK_MAP_SIZE WRITABLE)
  let envPtrScanStart := USER_STACK_TOP - USER_STACK_RESERVE
  let argvPtrScanStart ← pushStrings space envp.reverse envPtrScanStart
  let sp ← pushStrings space argv.reverse argvPtrScanStart
  let platformAddr ← subtract checks sp (platform.length + 1)
  writeString space platformAddr platform
  let execfnAddr ← subtract checks platformAddr (execPath.length + 1)
  writeString space execfnAddr execPath
  let randomAddr ← subtract checks execfnAddr 16
  writeBytes space randomAddr (List.replicate 16 0x5A)
  -- `sp &= !0xf`
  let sp := randomAddr &&& 0xffff_ffff_ffff_fff0
  let tableQwords := 1 + argv.length + 1 + envp.length + 1
  let sp ← pushPadding space checks tableQwords sp
  let sp ← pushAuxvs space checks (auxvPushes plan execfnAddr randomAddr platformAddr) sp
  let sp ← pushU64 space checks sp 0
  let sp ← pushPointers space checks envp.reverse envPtrScanStart sp
  let sp ← pushU64 space checks sp 0
  let sp ← pushPointers space checks argv.reverse argvPtrScanStart sp
  pushU64 space checks sp argv.length

end Source

/-! ## The System V order -/

/-- Pointers up to the first `NULL`, at most `fuel` words. -/
def readPointers (m : Nat → UInt8) : Nat → Nat → Option (List Nat)
  | 0, _ => none
  | fuel + 1, a =>
    if word m a = 0 then some []
    else (readPointers m fuel (a + 8)).map (word m a :: ·)

/-- Entries up to the first `AT_NULL`, which is one of them. -/
def readAuxv (m : Nat → UInt8) : Nat → Nat → Option (List (Nat × Nat))
  | 0, _ => none
  | fuel + 1, a =>
    if word m a = AT_NULL then some [(word m a, word m (a + 8))]
    else (readAuxv m fuel (a + 16)).map ((word m a, word m (a + 8)) :: ·)

/-- What a program finds on its stack. -/
structure StackImage where
  argv : List Nat
  envp : List Nat
  auxv : List (Nat × Nat)
deriving DecidableEq, Repr

/-- The stack, as a program reads it: `argc` and as many pointers, `NULL`, the pointers of the
environment up to `NULL`, and the auxiliary vector up to `AT_NULL`. -/
def decodeStack (m : Nat → UInt8) (fuel sp : Nat) : Option StackImage := do
  let argc := word m sp
  let argv := (List.range argc).map fun i => word m (sp + 8 + 8 * i)
  if word m (sp + 8 + 8 * argc) ≠ 0 then none
  let envp ← readPointers m fuel (sp + 16 + 8 * argc)
  let auxv ← readAuxv m fuel (sp + 24 + 8 * argc + 8 * envp.length)
  return ⟨argv, envp, auxv⟩

/-- The pointer addresses this string, with a zero behind it. -/
def Addresses (m : Nat → UInt8) (p : Nat) (bytes : List UInt8) : Prop :=
  window m p (bytes.length + 1) = bytes ++ [0]

/-! ## What one push does -/

variable {l : List (List UInt8)} {rest : List Nat} {bytes : List UInt8} {r value : Nat}
  (plan : LoadPlan) {ps : List Nat} {n : Nat}

section Push

variable {σ : Type} {space : UserSpace σ} {checks : Bool} {s s' : σ}

theorem writeBytes_ok {a : Nat} {bs : List UInt8}
    (h : run (writeBytes space a bs) s = (some (.ok ()), s')) :
    space.bytes s' = blit (space.bytes s) a bs ∧ a + bs.length ≤ USER_ADDRESS_END := by
  obtain ⟨result, s1, hwrite, hok⟩ := run_bind_eq_ok h
  have hstep : space.writeBytes a bs s = (result, s1) :=
    Prod.ext_iff.2 (by simpa [step, run] using hwrite)
  rcases result with _ | _ | _
  · simp [ofOption, Prog.bind, hang, run] at hok
  · simp [ofOption, Prog.bind, failIf, run] at hok
  have hs : s1 = s' := by simpa [ofOption, Prog.bind, failIf, run] using hok
  rw [hs] at hstep
  exact ⟨space.stored hstep, space.user hstep⟩

variable {sp sp' : Nat}

theorem writeString_ok (h : run (writeString space sp bytes) s = (some (.ok ()), s')) :
    space.bytes s' = blit (space.bytes s) sp (bytes ++ [0]) ∧
      sp + (bytes.length + 1) ≤ USER_ADDRESS_END := by
  obtain ⟨_, s1, hbytes, hzero⟩ := run_bind_eq_ok h
  obtain ⟨hbytes, -⟩ := writeBytes_ok hbytes
  obtain ⟨hzero, hle⟩ := writeBytes_ok hzero
  rw [hzero, hbytes, blit_append]
  exact ⟨rfl, hle⟩

theorem checkedSub_ok (h : run (checkedSub sp n : Prog σ Int Nat) s = (some (.ok r), s')) :
    n ≤ sp ∧ r = sp - n ∧ s' = s := by
  rw [checkedSub] at h
  split_ifs at h with hle
  · simp only [run, Prod.mk.injEq, some.injEq, Except.ok.injEq] at h
    exact ⟨hle, h.1.symm, h.2.symm⟩
  · simp [run] at h

/-- Where something has been written after a subtraction, the subtraction has not wrapped. -/
theorem subtract_ok (h : run (subtract checks sp n : Prog σ Int Nat) s = (some (.ok r), s'))
    (hr : r + n ≤ USER_ADDRESS_END) : n ≤ sp ∧ r = sp - n ∧ s' = s := by
  rw [subtract] at h
  rcases hsub : fitSub checks (2 ^ 64) sp n with _ | z
  · rw [hsub] at h; simp [ofOption, hang, run] at h
  rw [hsub] at h
  obtain ⟨rfl, rfl⟩ := h
  rcases fitSub_cases hsub with ⟨hle, hz⟩ | ⟨hlt, hz⟩
  · exact ⟨hle, hz, rfl⟩
  · rw [USER_ADDRESS_END] at hr
    omega

theorem addresses_blit (m : Nat → UInt8) (p : Nat) (bytes : List UInt8) :
    Addresses (blit m p (bytes ++ [0])) p bytes := by
  have h := window_blit_self m p (bytes ++ [0])
  rwa [length_append] at h

variable {m m' : Nat → UInt8}

theorem Addresses.filled {p : Nat} (h : Addresses m p bytes)
    (hfill : Filled m sp m' sp') (hp : sp ≤ p) : Addresses m' p bytes :=
  (hfill.window hp _).trans h

/-! ## Strings -/

/-- Where the strings are, in the order in which they are pushed. -/
def scanned : Nat → List (List UInt8) → List Nat
  | _, [] => []
  | scan, bytes :: rest =>
    (scan - (bytes.length + 1)) :: scanned (scan - (bytes.length + 1)) rest

/-- **The strings stand where the pointers will say.** -/
theorem pushStrings_ok : ∀ {sp sp' : Nat} {s : σ},
    run (pushStrings space l sp) s = (some (.ok sp'), s') →
    Filled (space.bytes s) sp (space.bytes s') sp' ∧ sp' + l.length ≤ sp ∧
      List.Forall₂ (Addresses (space.bytes s')) (scanned sp l) l ∧
      ∀ p ∈ scanned sp l, sp' ≤ p ∧ p < sp := by
  induction l with
  | nil =>
    intro sp sp' s h
    obtain ⟨rfl, rfl⟩ := h
    exact ⟨refl _ _, le_refl _, .nil, nofun⟩
  | cons bytes rest ih =>
    intro sp sp' s h
    obtain ⟨sp1, s1, hsub, htail⟩ := run_bind_eq_ok h
    obtain ⟨_, s2, hstring, hrest⟩ := run_bind_eq_ok htail
    obtain ⟨hle, rfl, rfl⟩ := checkedSub_ok hsub
    obtain ⟨hbytes, -⟩ := writeString_ok hstring
    obtain ⟨hfill, hlen, hstrings, hmem⟩ := ih hrest
    have hpush : Filled (space.bytes s1) sp (space.bytes s2) (sp - (bytes.length + 1)) := by
      rw [hbytes]
      exact blit _ (by simp; omega)
    have hhere : Addresses (space.bytes s2) (sp - (bytes.length + 1)) bytes := by
      rw [hbytes]
      exact addresses_blit _ _ _
    have hsp' := hfill.le
    refine ⟨hpush.trans hfill, by simp; omega, .cons (hhere.filled hfill (le_refl _)) hstrings, ?_⟩
    rw [scanned, forall_mem_cons]
    refine ⟨⟨hsp', by omega⟩, fun p hp => ?_⟩
    obtain ⟨hlo, hhi⟩ := hmem p hp
    omega

theorem length_scanned (scan : Nat) (l : List (List UInt8)) :
    (scanned scan l).length = l.length := by
  induction l generalizing scan with
  | nil => rfl
  | cons bytes rest ih => rw [scanned, length_cons, length_cons, ih]

theorem addresses_filled (h : List.Forall₂ (Addresses m) ps l)
    (hfill : Filled m sp m' sp') (hps : ∀ p ∈ ps, sp ≤ p) : List.Forall₂ (Addresses m') ps l := by
  induction h with
  | nil => exact .nil
  | cons hhere _ ih =>
    rw [forall_mem_cons] at hps
    exact .cons (hhere.filled hfill hps.1) (ih hps.2)

theorem pushString_ok {s1 : σ}
    (hsub : run (subtract checks sp (bytes.length + 1) : Prog σ Int Nat) s = (some (.ok r), s1))
    (hwrite : run (writeString space r bytes) s1 = (some (.ok ()), s')) :
    Filled (space.bytes s) sp (space.bytes s') r ∧ Addresses (space.bytes s') r bytes ∧
      r + (bytes.length + 1) = sp := by
  obtain ⟨hbytes, hle⟩ := writeString_ok hwrite
  obtain ⟨hsp, rfl, rfl⟩ := subtract_ok hsub hle
  rw [hbytes]
  exact ⟨blit _ (by simp; omega), addresses_blit _ _ _, by omega⟩

/-! ## Words -/

/-- Words have been put below `sp`. -/
structure Pushed (m : Nat → UInt8) (sp : Nat) (ws : List Nat) (m' : Nat → UInt8) (sp' : Nat) :
    Prop where
  filled : Filled m sp m' sp'
  length : sp' + 8 * ws.length = sp
  words : Words m' sp' ws

theorem Pushed.refl (m : Nat → UInt8) (sp : Nat) : Pushed m sp [] m sp :=
  ⟨Filled.refl m sp, rfl, trivial⟩

theorem Pushed.trans {m'' : Nat → UInt8} {sp'' : Nat} {ws ws' : List Nat}
    (h : Pushed m sp ws m' sp') (h' : Pushed m' sp' ws' m'' sp'') :
    Pushed m sp (ws' ++ ws) m'' sp'' := by
  refine ⟨h.filled.trans h'.filled, ?_, words_append.2 ⟨h'.words, ?_⟩⟩
  · rw [length_append, ← h.length, ← h'.length]
    omega
  · rw [h'.length]
    exact h.words.filled h'.filled (le_refl _)

theorem pushU64_ok (hvalue : value < 2 ^ 64)
    (h : run (pushU64 space checks sp value) s = (some (.ok sp'), s')) :
    Pushed (space.bytes s) sp [value] (space.bytes s') sp' := by
  obtain ⟨sp1, s1, hsub, h⟩ := run_bind_eq_ok h
  obtain ⟨_, s2, hwrite, h⟩ := run_bind_eq_ok h
  obtain ⟨rfl, rfl⟩ := h
  obtain ⟨hbytes, hle⟩ := writeBytes_ok hwrite
  obtain ⟨hsp, rfl, rfl⟩ := subtract_ok hsub hle
  rw [hbytes]
  refine ⟨blit _ (by rw [length_leBytes]; omega), by simp; omega, ?_⟩
  exact Words.push hvalue hsp trivial

theorem pushAuxv_ok {key : Nat} (hkey : key < 2 ^ 64) (hvalue : value < 2 ^ 64)
    (h : run (pushAuxv space checks sp key value) s = (some (.ok sp'), s')) :
    Pushed (space.bytes s) sp [key, value] (space.bytes s') sp' := by
  obtain ⟨sp1, s1, hpush, h⟩ := run_bind_eq_ok h
  exact (pushU64_ok hvalue hpush).trans (pushU64_ok hkey h)

theorem pushPadding_ok {tableQwords : Nat}
    (h : run (pushPadding space checks tableQwords sp) s = (some (.ok sp'), s')) :
    Pushed (space.bytes s) sp (List.replicate (tableQwords % 2) 0) (space.bytes s') sp' := by
  rw [pushPadding] at h
  split at h
  · rw [show tableQwords % 2 = 1 by omega]
    exact pushU64_ok (by decide) h
  obtain ⟨rfl, rfl⟩ := h
  rw [show tableQwords % 2 = 0 by omega]
  exact Pushed.refl _ _

/-- The words of a row of entries. -/
def auxWords (l : List (Nat × Nat)) : List Nat := l.flatMap fun e => [e.1, e.2]

theorem pushAuxvs_ok {l : List (Nat × Nat)} : ∀ {sp sp' : Nat} {s : σ},
    (∀ e ∈ l, e.1 < 2 ^ 64 ∧ e.2 < 2 ^ 64) →
    run (pushAuxvs space checks l sp) s = (some (.ok sp'), s') →
    Pushed (space.bytes s) sp (auxWords l.reverse) (space.bytes s') sp' := by
  induction l with
  | nil =>
    intro sp sp' s _ h
    obtain ⟨rfl, rfl⟩ := h
    exact Pushed.refl _ _
  | cons e rest ih =>
    intro sp sp' s hl h
    rw [forall_mem_cons] at hl
    obtain ⟨sp1, s1, hpush, h⟩ := run_bind_eq_ok h
    have hrest := (pushAuxv_ok hl.1.1 hl.1.2 hpush).trans (ih hl.2 h)
    rwa [auxWords, reverse_cons, flatMap_append]

theorem pushPointers_ok : ∀ {scan sp sp' : Nat} {s : σ}, scan < 2 ^ 64 →
    run (pushPointers space checks l scan sp) s = (some (.ok sp'), s') →
    Pushed (space.bytes s) sp (scanned scan l).reverse (space.bytes s') sp' := by
  induction l with
  | nil =>
    intro scan sp sp' s _ h
    obtain ⟨rfl, rfl⟩ := h
    exact Pushed.refl _ _
  | cons bytes rest ih =>
    intro scan sp sp' s hscan h
    obtain ⟨scan1, s1, hsub, htail⟩ := run_bind_eq_ok h
    obtain ⟨sp1, s2, hpush, hrest⟩ := run_bind_eq_ok htail
    obtain ⟨-, rfl, rfl⟩ := checkedSub_ok hsub
    have hlt : scan - (bytes.length + 1) < 2 ^ 64 := (Nat.sub_le _ _).trans_lt hscan
    rw [scanned, reverse_cons]
    exact (pushU64_ok hlt hpush).trans (ih hlt hrest)

end Push

/-! ## Reading the stack -/

section Decode

variable {m : Nat → UInt8}

theorem readPointers_eq : ∀ {a fuel : Nat}, Words m a (ps ++ 0 :: rest) →
    (∀ p ∈ ps, p ≠ 0) → ps.length < fuel → readPointers m fuel a = some ps := by
  induction ps with
  | nil =>
    intro a fuel hwords _ hfuel
    obtain ⟨fuel, rfl⟩ := Nat.exists_eq_succ_of_ne_zero (Nat.ne_of_gt hfuel)
    rw [readPointers, if_pos hwords.1]
  | cons p ps ih =>
    intro a fuel hwords hne hfuel
    obtain ⟨fuel, rfl⟩ := Nat.exists_eq_succ_of_ne_zero (Nat.ne_of_gt (Nat.zero_lt_of_lt hfuel))
    rw [forall_mem_cons] at hne
    obtain ⟨hword, hwords⟩ := hwords
    rw [readPointers, hword, if_neg hne.1, ih hwords hne.2 (Nat.lt_of_succ_lt_succ hfuel)]
    rfl

variable {l : List (Nat × Nat)}

theorem readAuxv_eq :
    ∀ {a fuel : Nat}, Words m a (auxWords (l ++ [(AT_NULL, value)]) ++ rest) →
    (∀ e ∈ l, e.1 ≠ AT_NULL) → l.length < fuel →
    readAuxv m fuel a = some (l ++ [(AT_NULL, value)]) := by
  induction l with
  | nil =>
    intro a fuel hwords _ hfuel
    obtain ⟨fuel, rfl⟩ := Nat.exists_eq_succ_of_ne_zero (Nat.ne_of_gt hfuel)
    obtain ⟨hkey, hvalue, -⟩ := hwords
    rw [readAuxv, hkey, hvalue]
    rfl
  | cons e l ih =>
    intro a fuel hwords hne hfuel
    obtain ⟨fuel, rfl⟩ := Nat.exists_eq_succ_of_ne_zero (Nat.ne_of_gt (Nat.zero_lt_of_lt hfuel))
    rw [forall_mem_cons] at hne
    obtain ⟨hkey, hvalue, hwords⟩ := hwords
    rw [readAuxv, hkey, hvalue, if_neg hne.1, ih hwords hne.2 (Nat.lt_of_succ_lt_succ hfuel)]
    rfl

/-- Words in this order are decoded as they should. -/
theorem decodeStack_eq {sp fuel : Nat} {argv envp pad : List Nat}
    (hwords : Words m sp (argv.length :: (argv ++ 0 :: (envp ++ 0 ::
      (auxWords (l ++ [(AT_NULL, value)]) ++ pad))))) (henvp : ∀ p ∈ envp, p ≠ 0)
    (hkeys : ∀ e ∈ l, e.1 ≠ AT_NULL) (hfuel : envp.length < fuel) (hfuel' : l.length < fuel) :
    decodeStack m fuel sp = some ⟨argv, envp, l ++ [(AT_NULL, value)]⟩ := by
  obtain ⟨hargc, hwords⟩ := hwords
  have hargv : (range argv.length).map (fun i => word m (sp + 8 + 8 * i)) = argv := by
    refine ext_getElem? fun i => ?_
    rw [getElem?_map]
    by_cases hi : i < argv.length
    · rw [getElem?_range hi, getElem?_eq_getElem hi]
      exact congrArg some (hwords.getElem? (by
        rw [getElem?_append_left hi, getElem?_eq_getElem hi]))
    · rw [getElem?_eq_none (by simpa using hi), getElem?_eq_none (by simpa using hi)]
      rfl
  rw [words_append] at hwords
  obtain ⟨-, hnull, hwords⟩ := hwords
  have hpointers : readPointers m fuel (sp + 16 + 8 * argv.length) = some envp := by
    rw [show sp + 16 + 8 * argv.length = sp + 8 + 8 * argv.length + 8 by omega]
    exact readPointers_eq hwords henvp hfuel
  rw [words_append] at hwords
  obtain ⟨-, -, hwords⟩ := hwords
  have hauxv : readAuxv m fuel (sp + 24 + 8 * argv.length + 8 * envp.length) =
      some (l ++ [(AT_NULL, value)]) := by
    rw [show sp + 24 + 8 * argv.length + 8 * envp.length =
      sp + 8 + 8 * argv.length + 8 + 8 * envp.length + 8 by omega]
    exact readAuxv_eq hwords hkeys hfuel'
  simp [decodeStack, hargc, hargv, hnull, hpointers, hauxv]

end Decode

/-! ## The whole stack -/

/-- The auxiliary vector that the program is to find, up to its end. -/
def auxvEntries (plan : LoadPlan) (platformAddr execfnAddr randomAddr : Nat) : List (Nat × Nat) :=
  [(AT_PHDR, plan.phdrAddr.toNat), (AT_PHENT, plan.phentSize.toNat), (AT_PHNUM, plan.phnum.toNat),
    (AT_PAGESZ, 4096), (AT_BASE, 0), (AT_FLAGS, 0), (AT_ENTRY, plan.entryPoint.toNat), (AT_UID, 0),
    (AT_EUID, 0), (AT_GID, 0), (AT_EGID, 0), (AT_PLATFORM, platformAddr), (AT_HWCAP, 0),
    (AT_CLKTCK, 100), (AT_SECURE, 0), (AT_RANDOM, randomAddr), (AT_HWCAP2, 0),
    (AT_EXECFN, execfnAddr)]

theorem reverse_auxvPushes (platformAddr execfnAddr randomAddr : Nat) :
    (auxvPushes plan execfnAddr randomAddr platformAddr).reverse =
      auxvEntries plan platformAddr execfnAddr randomAddr ++ [(AT_NULL, 0)] := rfl

theorem auxvEntries_ne_null (platformAddr execfnAddr randomAddr : Nat) :
    ∀ e ∈ auxvEntries plan platformAddr execfnAddr randomAddr, e.1 ≠ AT_NULL := by
  simp only [auxvEntries, forall_mem_cons]
  decide

theorem auxvPushes_lt {platformAddr execfnAddr randomAddr : Nat} (hplatform : platformAddr < 2 ^ 64)
    (hexecfn : execfnAddr < 2 ^ 64) (hrandom : randomAddr < 2 ^ 64) :
    ∀ e ∈ auxvPushes plan execfnAddr randomAddr platformAddr, e.1 < 2 ^ 64 ∧ e.2 < 2 ^ 64 := by
  have hentry := plan.entryPoint.toNat_lt
  have hphdr := plan.phdrAddr.toNat_lt
  have hphent := plan.phentSize.toNat_lt
  have hphnum := plan.phnum.toNat_lt
  simp only [auxvPushes, forall_mem_cons, hplatform, hexecfn, hrandom, hentry, hphdr, hphent,
    hphnum]
  simp [AT_NULL, AT_PHDR, AT_PHENT, AT_PHNUM, AT_PAGESZ, AT_BASE, AT_FLAGS, AT_ENTRY, AT_UID,
    AT_EUID, AT_GID, AT_EGID, AT_PLATFORM, AT_HWCAP, AT_CLKTCK, AT_SECURE, AT_RANDOM, AT_HWCAP2,
    AT_EXECFN, CLKTCK, PAGE_SIZE]

/-- **A program finds its arguments, its environment and its auxiliary vector on the stack.** -/
theorem initial_stack_decodes {σ : Type} (space : UserSpace σ) (checks : Bool)
    (argv envp : List (List UInt8)) (execPath : List UInt8) (plan : LoadPlan) (s s' : σ) (sp : Nat)
    (h : run (buildInitialUserStack space checks argv envp execPath plan) s =
      (some (.ok sp), s')) :
    sp % 16 = 0 ∧ ∃ image platformAddr execfnAddr randomAddr,
      (∃ n, ∀ fuel, n ≤ fuel → decodeStack (space.bytes s') fuel sp = some image) ∧
      List.Forall₂ (Addresses (space.bytes s')) image.argv argv ∧
      List.Forall₂ (Addresses (space.bytes s')) image.envp envp ∧
      image.auxv = auxvEntries plan platformAddr execfnAddr randomAddr ++ [(AT_NULL, 0)] ∧
      Addresses (space.bytes s') platformAddr platform ∧
      Addresses (space.bytes s') execfnAddr execPath ∧
      window (space.bytes s') randomAddr 16 = List.replicate 16 0x5A := by
  -- The strings and the seed.
  obtain ⟨_, s1, -, h1⟩ := run_bind_eq_ok h
  obtain ⟨argvStart, s2, henvp, h2⟩ := run_bind_eq_ok h1
  obtain ⟨sp3, s3, hargv, h3⟩ := run_bind_eq_ok h2
  obtain ⟨platformAddr, s4, hsubPlatform, h4⟩ := run_bind_eq_ok h3
  obtain ⟨_, s5, hplatform, h5⟩ := run_bind_eq_ok h4
  obtain ⟨execfnAddr, s6, hsubExecfn, h6⟩ := run_bind_eq_ok h5
  obtain ⟨_, s7, hexecfn, h7⟩ := run_bind_eq_ok h6
  obtain ⟨randomAddr, s8, hsubRandom, h8⟩ := run_bind_eq_ok h7
  obtain ⟨_, s9, hrandom, h9⟩ := run_bind_eq_ok h8
  have htop : USER_STACK_TOP - USER_STACK_RESERVE < 2 ^ 47 := by decide
  generalize USER_STACK_TOP - USER_STACK_RESERVE = top at *
  obtain ⟨hfillEnvp, hlenEnvp, haddrEnvp, hmemEnvp⟩ := pushStrings_ok henvp
  obtain ⟨hfillArgv, hlenArgv, haddrArgv, hmemArgv⟩ := pushStrings_ok hargv
  obtain ⟨hfillPlatform, haddrPlatform, hspPlatform⟩ := pushString_ok hsubPlatform hplatform
  obtain ⟨hfillExecfn, haddrExecfn, hspExecfn⟩ := pushString_ok hsubExecfn hexecfn
  obtain ⟨hbytesRandom, hleRandom⟩ := writeBytes_ok hrandom
  obtain ⟨hspRandom, hrandomAddr, rfl⟩ := subtract_ok hsubRandom hleRandom
  have hfillRandom : Filled (space.bytes s8) execfnAddr (space.bytes s9) randomAddr := by
    rw [hbytesRandom]
    exact blit _ (by rw [length_replicate]; omega)
  have hseed : window (space.bytes s9) randomAddr 16 = replicate 16 0x5A := by
    have hread := window_blit_self (space.bytes s8) randomAddr (replicate 16 0x5A)
    rwa [← hbytesRandom] at hread
  -- The words.
  have hmask : randomAddr &&& 0xffff_ffff_ffff_fff0 = randomAddr / 2 ^ 4 * 2 ^ 4 :=
    mask_high (n := 4) (k := 60) (by omega)
  rw [hmask] at h9
  obtain ⟨sp10, s10, hpad, h10⟩ := run_bind_eq_ok h9
  obtain ⟨sp11, s11, hauxv, h11⟩ := run_bind_eq_ok h10
  obtain ⟨sp12, s12, hnull, h12⟩ := run_bind_eq_ok h11
  obtain ⟨sp13, s13, henvPtrs, h13⟩ := run_bind_eq_ok h12
  obtain ⟨sp14, s14, hnull', h14⟩ := run_bind_eq_ok h13
  obtain ⟨sp15, s15, hargvPtrs, hargc⟩ := run_bind_eq_ok h14
  have hauxvLt : ∀ e ∈ auxvPushes plan execfnAddr randomAddr platformAddr,
      e.1 < 2 ^ 64 ∧ e.2 < 2 ^ 64 := auxvPushes_lt plan (by omega) (by omega) (by omega)
  have hpushed := (pushPadding_ok hpad).trans <| (pushAuxvs_ok hauxvLt hauxv).trans <|
    (pushU64_ok (by decide) hnull).trans <| (pushPointers_ok (by omega) henvPtrs).trans <|
    (pushU64_ok (by decide) hnull').trans <| (pushPointers_ok (by omega) hargvPtrs).trans
    (pushU64_ok (by rw [length_reverse] at hlenArgv; omega) hargc)
  rw [reverse_auxvPushes] at hpushed
  have hlength := hpushed.length
  have hlow : Filled (space.bytes s9) randomAddr (space.bytes s') sp :=
    ((refl _ _).lower (Nat.div_mul_le_self randomAddr (2 ^ 4))).trans hpushed.filled
  have hlenArgv' : (scanned argvStart argv.reverse).reverse.length = argv.length := by
    rw [length_reverse, length_scanned, length_reverse]
  have hlenEnvp' : (scanned top envp.reverse).reverse.length = envp.length := by
    rw [length_reverse, length_scanned, length_reverse]
  constructor
  · simp only [length_append, hlenArgv', hlenEnvp', length_singleton,
      length_replicate] at hlength
    have haux : (auxWords (auxvEntries plan platformAddr execfnAddr randomAddr ++
        [(AT_NULL, 0)])).length = 38 := rfl
    omega
  refine ⟨⟨(scanned argvStart argv.reverse).reverse, (scanned top envp.reverse).reverse,
    auxvEntries plan platformAddr execfnAddr randomAddr ++ [(AT_NULL, 0)]⟩, platformAddr,
    execfnAddr, randomAddr, ⟨envp.length + 19, fun fuel hfuel => ?_⟩, ?_, ?_, rfl, ?_, ?_, ?_⟩
  · have hwords := hpushed.words
    simp only [append_assoc, singleton_append] at hwords
    rw [← hlenArgv'] at hwords
    refine decodeStack_eq hwords (fun p hp => ?_) (auxvEntries_ne_null _ _ _ _) ?_ ?_
    · have := hmemEnvp p (mem_reverse.1 hp)
      omega
    · omega
    · exact lt_of_lt_of_le (by show 18 < envp.length + 19; omega) hfuel
  · have hstrings := addresses_filled haddrArgv (hfillPlatform.trans (hfillExecfn.trans
      (hfillRandom.trans hlow))) fun p hp => (hmemArgv p hp).1
    rwa [← forall₂_reverse_iff, reverse_reverse] at hstrings
  · have hstrings := addresses_filled haddrEnvp (hfillArgv.trans (hfillPlatform.trans
      (hfillExecfn.trans (hfillRandom.trans hlow)))) fun p hp => (hmemEnvp p hp).1
    rwa [← forall₂_reverse_iff, reverse_reverse] at hstrings
  · exact haddrPlatform.filled (hfillExecfn.trans (hfillRandom.trans hlow)) (le_refl _)
  · exact haddrExecfn.filled (hfillRandom.trans hlow) (le_refl _)
  · rw [hlow.window (le_refl _), hseed]

/-- A memory in which everything below the end of the user is mapped. -/
def flatSpace : UserSpace (Nat → UInt8) where
  bytes m := m
  mapZeroedRegion _ _ _ m := (some true, m)
  writeBytes a bs m :=
    if a + bs.length ≤ USER_ADDRESS_END then (some true, blit m a bs) else (some false, m)
  stored h := by
    split at h
    · exact (congrArg Prod.snd h).symm
    · cases h
  user h := by
    split at h
    · assumption
    · cases h

/-- `sh -c x` with one variable. -/
def shell : Prog (Nat → UInt8) Int Nat :=
  buildInitialUserStack flatSpace true [[0x73, 0x68], [0x2d, 0x63], [0x78]] [[0x41, 0x3d]]
    [0x2f, 0x73, 0x68] ⟨0x401000, 0x400040, 56, 2⟩

theorem initial_stack_decodes_shell :
    run shell (fun _ => 0) = (some (.ok 0x7fffffefee60), (run shell fun _ => 0).2) ∧
      0x7fffffefee60 % 16 = 0 := by
  have h : run shell (fun _ => 0) = (some (.ok 0x7fffffefee60), (run shell fun _ => 0).2) :=
    Prod.ext (by decide +kernel) rfl
  exact ⟨h, (initial_stack_decodes _ _ _ _ _ _ _ _ _ h).1⟩

end Krust.Arch
