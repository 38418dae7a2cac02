import Krust.Drivers.LineDiscipline

/-!
# Pseudo-terminals

The two sides of a PTY pair share a line discipline and two bounded queues to the manager: the echo
of what it writes, and the output of the subsidiary.  A write of the subsidiary stores what fits in
the queue and acknowledges everything.

So the manager gets the output in order and whole exactly if every write found room for all of its
processed bytes (`pty_output_exact_iff`).
-/

set_option autoImplicit false

namespace Krust.Drivers

open Lib List LineDiscipline

/-! ## The source -/

def PTY_BUF_SIZE : Nat := 4096

structure PtyShared where
  ldisc : LineDiscipline
  echoToMgr : List UInt8
  subToMgr : List UInt8
  deriving DecidableEq, Repr

namespace PtyShared

def new : PtyShared := ⟨.new, [], []⟩

variable (shared : PtyShared)

/-- `read` of the manager into a buffer of `n` bytes: the echo comes first. -/
def managerRead (n : Nat) : List UInt8 × PtyShared :=
  let echo := shared.echoToMgr.take n
  let output := shared.subToMgr.take (n - echo.length)
  (echo ++ output, { shared with
    echoToMgr := shared.echoToMgr.drop n
    subToMgr := shared.subToMgr.drop (n - echo.length) })

/-- One byte of a write of the manager. -/
def managerByte (byte : UInt8) : PtyShared :=
  let (echo, ldisc) := shared.ldisc.processInput byte
  let available := PTY_BUF_SIZE - shared.echoToMgr.length
  { shared with ldisc := ldisc, echoToMgr := shared.echoToMgr ++ echo.emit.take available }

/-- `write` of the manager: the bytes that it acknowledges, and the pair after it. -/
def managerWrite (buf : List UInt8) : Nat × PtyShared :=
  (buf.length, buf.foldl managerByte shared)

/-- `read` of the subsidiary. -/
def subsidiaryRead (n : Nat) : List UInt8 × PtyShared :=
  let (bytes, ldisc) := shared.ldisc.read n
  (bytes, { shared with ldisc := ldisc })

/-- `write` of the subsidiary: the bytes that it acknowledges, and the pair after it. -/
def subsidiaryWrite (buf : List UInt8) : Nat × PtyShared :=
  let processed := shared.ldisc.processOutput buf
  let available := PTY_BUF_SIZE - shared.subToMgr.length
  (buf.length, { shared with subToMgr := shared.subToMgr ++ processed.take available })

end PtyShared

/-! ## Runs -/

inductive PtyCall
  | managerRead (n : Nat)
  | managerWrite (buf : List UInt8)
  | subsidiaryRead (n : Nat)
  | subsidiaryWrite (buf : List UInt8)
  deriving DecidableEq, Repr

/-- The pair, what the manager has read, and what the subsidiary's writes have acknowledged. -/
structure PtyState where
  shared : PtyShared
  received : List UInt8
  acknowledged : List UInt8
  deriving DecidableEq, Repr

namespace PtyState

def apply (s : PtyState) : PtyCall → PtyState
  | .managerRead n =>
    { s with shared := (s.shared.managerRead n).2
             received := s.received ++ (s.shared.managerRead n).1 }
  | .managerWrite buf => { s with shared := (s.shared.managerWrite buf).2 }
  | .subsidiaryRead n => { s with shared := (s.shared.subsidiaryRead n).2 }
  | .subsidiaryWrite buf =>
    let (n, shared) := s.shared.subsidiaryWrite buf
    { s with shared := shared, acknowledged := s.acknowledged ++ buf.take n }

/-- What has arrived at the manager, or can be read by it. -/
def arrived (s : PtyState) : List UInt8 := s.received ++ s.shared.subToMgr

/-- What should have arrived. -/
def sent (s : PtyState) : List UInt8 := s.shared.ldisc.processOutput s.acknowledged

end PtyState

/-- The state after these calls, on a new pair with these settings. -/
def ptyAfter (settings : Termios2) (calls : List PtyCall) : PtyState :=
  runFrom PtyState.apply
    ⟨{ PtyShared.new with ldisc := { LineDiscipline.new with settings := settings } }, [], []⟩ calls

/-- Newlines are written as two bytes. -/
def Termios2.expandsNewlines (settings : Termios2) : Prop :=
  settings.cOflag &&& (OPOST ||| ONLCR) = OPOST ||| ONLCR

instance (settings : Termios2) : Decidable settings.expandsNewlines :=
  inferInstanceAs (Decidable (_ = _))

/-- There is room in the queue for the bytes of the write and a carriage return for each of its
newlines. -/
def PtyState.Fits (s : PtyState) : PtyCall → Prop
  | .subsidiaryWrite buf =>
    s.shared.subToMgr.length + buf.length +
      (if s.shared.ldisc.settings.expandsNewlines then buf.count 0x0a else 0) ≤ PTY_BUF_SIZE
  | _ => True

/-! ## Settings do not change -/

variable {s : PtyState} (d : LineDiscipline) (settings : Termios2) (buf : List UInt8)
  (calls : List PtyCall)

theorem settings_processInput (byte : UInt8) : (d.processInput byte).2.settings = d.settings := by
  rw [processInput_eq, settings_press]

theorem foldl_managerByte (shared : PtyShared) :
    (buf.foldl PtyShared.managerByte shared).subToMgr = shared.subToMgr ∧
      (buf.foldl PtyShared.managerByte shared).ldisc.settings = shared.ldisc.settings := by
  induction buf generalizing shared with
  | nil => exact ⟨rfl, rfl⟩
  | cons byte buf ih =>
    obtain ⟨hqueue, hsettings⟩ := ih (shared.managerByte byte)
    exact ⟨hqueue, hsettings.trans (settings_processInput shared.ldisc byte)⟩

theorem processOutput_congr {d d' : LineDiscipline} (h : d'.settings = d.settings) :
    d'.processOutput = d.processOutput := by
  funext input
  rw [processOutput, processOutput, h]

theorem processOutput_append (a b : List UInt8) :
    d.processOutput (a ++ b) = d.processOutput a ++ d.processOutput b :=
  flatMap_append

theorem length_processOutput (input : List UInt8) :
    (d.processOutput input).length =
      input.length + if d.settings.expandsNewlines then input.count 0x0a else 0 := by
  induction input with
  | nil => simp [processOutput]
  | cons byte input ih =>
    have hcons : d.processOutput (byte :: input) =
        d.processOutput [byte] ++ d.processOutput input := processOutput_append d [byte] input
    have hone : (d.processOutput [byte]).length =
        1 + if d.settings.expandsNewlines ∧ byte = 0x0a then 1 else 0 := by
      rw [processOutput, flatMap_singleton]
      split
      · rename_i hexpands
        rw [if_pos (show d.settings.expandsNewlines ∧ byte = 0x0a from hexpands)]
        rfl
      rename_i hexpands
      rw [if_neg (show ¬ (d.settings.expandsNewlines ∧ byte = 0x0a) from hexpands)]
      rfl
    rw [hcons, length_append, hone, ih]
    by_cases hexpands : d.settings.expandsNewlines <;> by_cases hbyte : byte = 0x0a <;>
      simp [hexpands, hbyte] <;> omega

/-! ## What a call does to the stream -/

/-- What stays as it is in a call that is no write of the subsidiary. -/
theorem apply_of_not_write {call : PtyCall} (hecho : s.shared.echoToMgr = [])
    (hcall : ∀ buf, call ≠ .subsidiaryWrite buf) :
    (s.apply call).arrived = s.arrived ∧ (s.apply call).sent = s.sent := by
  cases call with
  | managerRead n =>
    refine ⟨?_, rfl⟩
    simp [PtyState.arrived, PtyState.apply, PtyShared.managerRead, hecho]
  | managerWrite buf =>
    obtain ⟨hqueue, hsettings⟩ := foldl_managerByte buf s.shared
    exact ⟨congrArg (s.received ++ ·) hqueue, congrFun (processOutput_congr hsettings) _⟩
  | subsidiaryRead n => exact ⟨rfl, rfl⟩
  | subsidiaryWrite buf => exact absurd rfl (hcall buf)

theorem apply_write (s : PtyState) (buf : List UInt8) :
    (s.apply (.subsidiaryWrite buf)).arrived =
        s.arrived ++ (s.shared.ldisc.processOutput buf).take
          (PTY_BUF_SIZE - s.shared.subToMgr.length) ∧
      (s.apply (.subsidiaryWrite buf)).sent = s.sent ++ s.shared.ldisc.processOutput buf := by
  refine ⟨(append_assoc ..).symm, ?_⟩
  have htake : buf.take buf.length = buf := take_length
  change s.shared.ldisc.processOutput (s.acknowledged ++ buf.take buf.length) = _
  rw [htake, processOutput_append]
  rfl

theorem length_queue_le (h : s.shared.subToMgr.length ≤ PTY_BUF_SIZE) (call : PtyCall) :
    (s.apply call).shared.subToMgr.length ≤ PTY_BUF_SIZE := by
  cases call with
  | managerRead n => exact (length_drop ▸ Nat.sub_le ..).trans h
  | managerWrite buf => exact (foldl_managerByte buf s.shared).1.symm ▸ h
  | subsidiaryRead n => exact h
  | subsidiaryWrite buf =>
    change (s.shared.subToMgr ++ take _ _).length ≤ _
    rw [length_append, length_take]
    omega

theorem queue_after : (ptyAfter settings calls).shared.subToMgr.length ≤ PTY_BUF_SIZE :=
  runFrom_induction (P := fun s : PtyState => s.shared.subToMgr.length ≤ PTY_BUF_SIZE)
    (Nat.zero_le _) (fun _ call h => length_queue_le h call) calls

/-- What is appended short on the one side is missing for good. -/
theorem append_take_eq_iff {α : Type} {a b p : List α} {n : Nat} (hlength : a.length ≤ b.length) :
    a ++ p.take n = b ++ p ↔ a = b ∧ p.length ≤ n := by
  constructor
  · intro h
    have hlengths := congrArg length h
    rw [length_append, length_append, length_take] at hlengths
    obtain ⟨hab, -⟩ := append_inj h (by omega)
    exact ⟨hab, by omega⟩
  · rintro ⟨rfl, hp⟩
    rw [take_of_length_le hp]

/-- Never more has arrived than has been sent, and all has exactly if every write fitted. -/
theorem arrived_after
    (hecho : ∀ calls', calls' <+: calls → (ptyAfter settings calls').shared.echoToMgr = []) :
    (ptyAfter settings calls).arrived.length ≤ (ptyAfter settings calls).sent.length ∧
      ((ptyAfter settings calls).arrived = (ptyAfter settings calls).sent ↔
        ∀ calls' call, calls' ++ [call] <+: calls → (ptyAfter settings calls').Fits call) := by
  induction calls using reverseRecOn with
  | nil => exact ⟨le_rfl, iff_of_true rfl (forall_event_nil (C := fun calls' call =>
      (ptyAfter settings calls').Fits call))⟩
  | append_singleton calls call ih =>
    obtain ⟨hlength, hiff⟩ := ih fun calls' h => hecho calls' (h.trans (prefix_append _ _))
    rw [forall_event_concat (fun calls' call => (ptyAfter settings calls').Fits call), ← hiff]
    have hqueue := queue_after settings calls
    have hnow := hecho calls (prefix_append _ _)
    have hstep : ptyAfter settings (calls ++ [call]) = (ptyAfter settings calls).apply call :=
      runFrom_concat ..
    rw [hstep]
    generalize ptyAfter settings calls = s at hlength hqueue hnow
    by_cases hcall : ∀ buf, call ≠ .subsidiaryWrite buf
    · obtain ⟨harrived, hsent⟩ := apply_of_not_write hnow hcall
      have hfits : s.Fits call := by
        cases call with
        | subsidiaryWrite buf => exact absurd rfl (hcall buf)
        | _ => exact trivial
      rw [harrived, hsent, and_iff_left hfits]
      exact ⟨hlength, Iff.rfl⟩
    · obtain ⟨buf, rfl⟩ := not_forall_not.1 hcall
      obtain ⟨harrived, hsent⟩ := apply_write s buf
      rw [harrived, hsent, append_take_eq_iff hlength, length_processOutput, PtyState.Fits]
      refine ⟨?_, and_congr_right' (by omega)⟩
      rw [length_append, length_append, length_take]
      omega

/-- **The manager receives what the subsidiary was told it wrote, exactly if every write fitted.**
There is no echo among what the manager reads. -/
theorem pty_output_exact_iff (settings : Termios2) (calls : List PtyCall)
    (hecho : ∀ calls', calls' <+: calls → (ptyAfter settings calls').shared.echoToMgr = []) :
    let s := ptyAfter settings calls
    s.received ++ s.shared.subToMgr = s.shared.ldisc.processOutput s.acknowledged ↔
      ∀ calls' call, calls' ++ [call] <+: calls → (ptyAfter settings calls').Fits call :=
  (arrived_after settings calls hecho).2

theorem acknowledged_write : (ptyAfter settings [.subsidiaryWrite buf]).acknowledged = buf :=
  take_length

/-- One byte more than the queue holds is acknowledged and lost. -/
theorem pty_output_lost :
    let s := ptyAfter .default [.subsidiaryWrite (replicate 4097 0x61)]
    s.shared.echoToMgr = [] ∧ s.acknowledged = replicate 4097 0x61 ∧
      s.received ++ s.shared.subToMgr ≠ s.shared.ldisc.processOutput s.acknowledged := by
  intro s
  have hack : s.acknowledged = replicate 4097 0x61 := acknowledged_write _ _
  refine ⟨rfl, hack, fun h => ?_⟩
  have hqueue : s.shared.subToMgr.length ≤ 4096 := queue_after _ _
  have hlength := congrArg length h
  rw [length_processOutput, hack, length_replicate, show s.received = [] from rfl,
    nil_append] at hlength
  omega

theorem pty_output_exact_line :
    let s := ptyAfter .default [.subsidiaryWrite [0x61, 0x0a], .managerRead 2]
    s.received = [0x61, 0x0d] ∧ s.shared.subToMgr = [0x0a] ∧
      s.received ++ s.shared.subToMgr = s.shared.ldisc.processOutput s.acknowledged := by
  have hprefixes : ∀ calls' ∈ [PtyCall.subsidiaryWrite [0x61, 0x0a], .managerRead 2].inits,
      (ptyAfter .default calls').shared.echoToMgr = [] := by decide
  refine ⟨rfl, rfl, (pty_output_exact_iff _ _ fun calls' h =>
    hprefixes calls' ((mem_inits _ _).2 h)).2 ?_⟩
  intro calls' call h
  have hcalls' : calls' ++ [call] ∈ [PtyCall.subsidiaryWrite [0x61, 0x0a], .managerRead 2].inits :=
    (mem_inits _ _).2 h
  rcases calls' with _ | ⟨first, calls'⟩
  · obtain rfl : call = .subsidiaryWrite [0x61, 0x0a] := by simpa using hcalls'
    change 0 + 2 + (if _ then _ else _) ≤ _
    decide
  obtain rfl : call = .managerRead 2 := by
    rcases calls' with _ | ⟨second, calls'⟩ <;> simp_all
  trivial

end Krust.Drivers
