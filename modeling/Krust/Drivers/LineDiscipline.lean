import Krust.Process.Scheduler

/-!
# The line discipline

Between the keyboard and the programs that read from a terminal stands the line discipline.  In
canonical mode it collects a line, lets the user edit it, and hands it over at its newline; with
`ICANON` off every byte is handed over at once.  Each console has one, and so has each PTY pair.

What a program reads is described here without the two buffers.  A byte that is typed means
something under the settings in force (`Key`), and `stream` gives the bytes that a history of keys
delivers, line by line.  Whatever the calls are and however they are interleaved, what has been read
and what is still queued is that stream (`input_stream_exact`).
-/

set_option autoImplicit false

namespace Krust.Drivers

open Lib List Process

/-! ## The source -/

def CANON_BUF_MAX : Nat := 4096

def ISIG : UInt32 := 1
def ICANON : UInt32 := 2
def ECHO : UInt32 := 8
def ICRNL : UInt32 := 0x100
def OPOST : UInt32 := 1
def ONLCR : UInt32 := 4

/-- `Termios2`, with the fields that the line discipline looks at. -/
structure Termios2 where
  cIflag : UInt32
  cOflag : UInt32
  cLflag : UInt32
  deriving DecidableEq, Repr

def Termios2.default : Termios2 := ⟨ICRNL, OPOST ||| ONLCR, ISIG ||| ICANON ||| ECHO⟩

/-- What is to be echoed after a byte of input. -/
inductive EchoBytes
  | none
  | one (b : UInt8)
  | erase
  | ctrlC
  | killLine
  deriving DecidableEq, Repr

/-- The bytes that `EchoBytes::emit` gives to the sink. -/
def EchoBytes.emit : EchoBytes → List UInt8
  | .none => []
  | .one b => [b]
  | .erase => [0x1b, 0x5b, 0x44, 0x20, 0x1b, 0x5b, 0x44]
  | .ctrlC => [0x5e, 0x43, 0x0a]
  | .killLine => [0x5e, 0x55, 0x0a]

structure LineDiscipline where
  settings : Termios2
  /-- The line that is being typed. -/
  canonBuf : List UInt8
  readQueue : List UInt8
  deriving DecidableEq, Repr

namespace LineDiscipline

def new : LineDiscipline := ⟨.default, [], []⟩

variable (d : LineDiscipline)

def setTerminalSettings (settings : Termios2) (flush : Bool) : LineDiscipline :=
  if flush then ⟨settings, [], []⟩
  else if d.settings.cLflag &&& ICANON ≠ 0 ∧ settings.cLflag &&& ICANON = 0 then
    ⟨settings, [], d.readQueue ++ d.canonBuf⟩
  else { d with settings := settings }

/-- `process_input`: what is echoed, and the discipline after the byte. -/
def processInput (byte : UInt8) : EchoBytes × LineDiscipline :=
  let echo := d.settings.cLflag &&& ECHO ≠ 0
  let byte := if d.settings.cIflag &&& ICRNL ≠ 0 ∧ byte = 0x0d then 0x0a else byte
  if d.settings.cLflag &&& ICANON = 0 then
    (if echo then .one byte else .none, { d with readQueue := d.readQueue ++ [byte] })
  -- Ctrl-P and Ctrl-N
  else if byte = 0x10 ∨ byte = 0x0e then
    (.none, { d with readQueue := d.readQueue ++ [byte] })
  -- backspace and DEL
  else if byte = 0x08 ∨ byte = 0x7f then
    (if d.canonBuf ≠ [] ∧ echo then .erase else .none, { d with canonBuf := d.canonBuf.dropLast })
  -- Ctrl-C
  else if byte = 0x03 ∧ d.settings.cLflag &&& ISIG ≠ 0 then
    (if echo then .ctrlC else .none, { d with canonBuf := [] })
  -- Ctrl-U
  else if byte = 0x15 then
    (if d.canonBuf ≠ [] ∧ echo then .killLine else .none, { d with canonBuf := [] })
  else if byte = 0x0a then
    (if echo then .one 0x0a else .none,
      { d with canonBuf := [], readQueue := d.readQueue ++ (d.canonBuf ++ [0x0a]) })
  else
    (if echo then .one byte else .none,
      if d.canonBuf.length < CANON_BUF_MAX then { d with canonBuf := d.canonBuf ++ [byte] } else d)

/-- `read` into a buffer of `n` bytes: the bytes it returns. -/
def read (n : Nat) : List UInt8 × LineDiscipline :=
  (d.readQueue.take n, { d with readQueue := d.readQueue.drop n })

/-- What `process_output` appends. -/
def processOutput (input : List UInt8) : List UInt8 :=
  input.flatMap fun byte =>
    if d.settings.cOflag &&& (OPOST ||| ONLCR) = OPOST ||| ONLCR ∧ byte = 0x0a then [0x0d, byte]
    else [byte]

end LineDiscipline

open LineDiscipline

/-! ## What is typed and what is read -/

/-- What a byte of input means. -/
inductive Key
  /-- A byte in raw mode. -/
  | raw (b : UInt8)
  /-- A control character that does not wait for the line: Ctrl-P or Ctrl-N. -/
  | atOnce (b : UInt8)
  | erase
  /-- The line is given up: Ctrl-U or, as an interrupt, Ctrl-C. -/
  | discard
  | newline
  | text (b : UInt8)
  deriving DecidableEq, Repr

/-- The meaning of a byte after `ICRNL`. -/
def Key.ofByte (settings : Termios2) (byte : UInt8) : Key :=
  if settings.cLflag &&& ICANON = 0 then .raw byte
  else if byte = 0x10 ∨ byte = 0x0e then .atOnce byte
  else if byte = 0x08 ∨ byte = 0x7f then .erase
  else if byte = 0x15 ∨ (byte = 0x03 ∧ settings.cLflag &&& ISIG ≠ 0) then .discard
  else if byte = 0x0a then .newline
  else .text byte

/-- Carriage returns become newlines where the settings say so. -/
def mapReturn (settings : Termios2) (byte : UInt8) : UInt8 :=
  if settings.cIflag &&& ICRNL ≠ 0 ∧ byte = 0x0d then 0x0a else byte

/-- One key, on a line of at most `CANON_BUF_MAX` bytes. -/
def Key.edit (line : List UInt8) : Key → List UInt8
  | .text b => if line.length < CANON_BUF_MAX then line ++ [b] else line
  | .erase => line.dropLast
  | .discard => []
  | _ => line

/-- The line that these keys make. -/
def edited (keys : List Key) : List UInt8 := keys.foldl Key.edit []

/-- What happens to the input: a key is typed, or the line so far is released since canonical mode
is switched off. -/
inductive Item
  | key (k : Key)
  | release
  deriving DecidableEq, Repr

/-- The bytes that are delivered, when the line has been begun with the keys `line`. -/
def Item.output (line : List Key) : Item → List UInt8
  | .key (.raw b) | .key (.atOnce b) => [b]
  | .key .newline => edited line ++ [0x0a]
  | .key .erase | .key .discard | .key (.text _) => []
  | .release => edited line

/-- The keys of the line afterwards. -/
def Item.next (line : List Key) : Item → List Key
  | .key (.raw _) | .key (.atOnce _) => line
  | .key .newline | .release => []
  | .key .erase => line ++ [.erase]
  | .key .discard => line ++ [.discard]
  | .key (.text b) => line ++ [.text b]

def stream : List Key → List Item → List UInt8
  | _, [] => []
  | line, item :: items => item.output line ++ stream (item.next line) items

def unfinished (line : List Key) (items : List Item) : List Key := items.foldl Item.next line

/-! ## Runs -/

/-- A call, where `set_terminal_settings` is without flush. -/
inductive LineCall
  | processInput (byte : UInt8)
  | read (n : Nat)
  | setTerminalSettings (settings : Termios2)
  deriving DecidableEq, Repr

/-- The discipline, and all that has been read. -/
structure LineState where
  ldisc : LineDiscipline
  returned : List UInt8
  deriving DecidableEq, Repr

namespace LineState

def apply (s : LineState) : LineCall → LineState
  | .processInput byte => { s with ldisc := (s.ldisc.processInput byte).2 }
  | .read n => ⟨(s.ldisc.read n).2, s.returned ++ (s.ldisc.read n).1⟩
  | .setTerminalSettings settings => { s with ldisc := s.ldisc.setTerminalSettings settings false }

def delivered (s : LineState) : List UInt8 := s.returned ++ s.ldisc.readQueue

end LineState

open LineState

def lineAfter (calls : List LineCall) : LineState := runFrom apply ⟨.new, []⟩ calls

/-- What the calls are for the input, from these settings on. -/
def itemsOf : Termios2 → List LineCall → List Item
  | _, [] => []
  | settings, .processInput byte :: calls =>
    .key (.ofByte settings (mapReturn settings byte)) :: itemsOf settings calls
  | settings, .read _ :: calls => itemsOf settings calls
  | settings, .setTerminalSettings settings' :: calls =>
    if settings.cLflag &&& ICANON ≠ 0 ∧ settings'.cLflag &&& ICANON = 0 then
      .release :: itemsOf settings' calls
    else itemsOf settings' calls

/-! ## One call -/

variable {s : LineState} {line : List Key}

namespace LineDiscipline

def press (d : LineDiscipline) (k : Key) : LineDiscipline :=
  match k with
  | .raw b | .atOnce b => { d with readQueue := d.readQueue ++ [b] }
  | .newline => { d with canonBuf := [], readQueue := d.readQueue ++ (d.canonBuf ++ [0x0a]) }
  | .erase | .discard | .text _ => { d with canonBuf := k.edit d.canonBuf }

/-- **A byte does what it means.** -/
theorem processInput_eq (d : LineDiscipline) (byte : UInt8) :
    (d.processInput byte).2 = d.press (.ofByte d.settings (mapReturn d.settings byte)) := by
  rw [processInput]
  rw [← mapReturn]
  generalize mapReturn d.settings byte = b
  rw [Key.ofByte]
  by_cases hraw : d.settings.cLflag &&& ICANON = 0
  · rw [if_pos hraw, if_pos hraw, press]
  rw [if_neg hraw, if_neg hraw]
  by_cases honce : b = 0x10 ∨ b = 0x0e
  · rw [if_pos honce, if_pos honce, press]
  rw [if_neg honce, if_neg honce]
  by_cases herase : b = 0x08 ∨ b = 0x7f
  · rw [if_pos herase, if_pos herase]
    rfl
  rw [if_neg herase, if_neg herase]
  -- the two ways to give up the line are apart in the source
  by_cases hint : b = 0x03 ∧ d.settings.cLflag &&& ISIG ≠ 0
  · rw [if_pos hint, if_pos (Or.inr hint)]
    rfl
  rw [if_neg hint]
  by_cases hkill : b = 0x15
  · rw [if_pos hkill, if_pos (Or.inl hkill)]
    rfl
  rw [if_neg hkill, if_neg (not_or.2 ⟨hkill, hint⟩)]
  by_cases hnewline : b = 0x0a
  · rw [if_pos hnewline, if_pos hnewline, press]
  rw [if_neg hnewline, if_neg hnewline]
  change (if _ then _ else d) = { d with canonBuf := if _ then _ else _ }
  split <;> rfl

@[simp] theorem settings_press (d : LineDiscipline) (k : Key) :
    (d.press k).settings = d.settings := by
  cases k <;> rfl

end LineDiscipline

/-! ## All calls -/

theorem edited_concat (line : List Key) (k : Key) :
    edited (line ++ [k]) = k.edit (edited line) := by
  rw [edited, foldl_append]
  rfl

/-- The line of the discipline is what the keys `line` make. -/
def LineState.Typed (s : LineState) (line : List Key) : Prop := s.ldisc.canonBuf = edited line

/-- The second state is the first one after the item. -/
structure LineState.Took (s s' : LineState) (line : List Key) (item : Item) : Prop where
  delivered : s'.delivered = s.delivered ++ item.output line
  typed : s'.Typed (item.next line)

theorem took_processInput (h : s.Typed line) (byte : UInt8) :
    s.Took (s.apply (.processInput byte)) line
      (.key (.ofByte s.ldisc.settings (mapReturn s.ldisc.settings byte))) := by
  rw [apply, processInput_eq]
  generalize Key.ofByte s.ldisc.settings (mapReturn s.ldisc.settings byte) = k
  cases k with
  | raw b => exact ⟨(append_assoc ..).symm, h⟩
  | atOnce b => exact ⟨(append_assoc ..).symm, h⟩
  | newline =>
    refine ⟨?_, rfl⟩
    rw [Item.output, ← h]
    exact (append_assoc ..).symm
  | erase =>
    refine ⟨(append_nil _).symm, ?_⟩
    rw [LineState.Typed, Item.next, edited_concat, ← h]
    rfl
  | discard =>
    refine ⟨(append_nil _).symm, ?_⟩
    rw [LineState.Typed, Item.next, edited_concat]
    rfl
  | text b =>
    refine ⟨(append_nil _).symm, ?_⟩
    rw [LineState.Typed, Item.next, edited_concat, ← h]
    rfl

theorem took_release (h : s.Typed line) {settings : Termios2}
    (hoff : s.ldisc.settings.cLflag &&& ICANON ≠ 0 ∧ settings.cLflag &&& ICANON = 0) :
    s.Took (s.apply (.setTerminalSettings settings)) line .release := by
  rw [apply, setTerminalSettings, if_pos hoff]
  refine ⟨?_, rfl⟩
  rw [Item.output, ← h]
  exact (append_assoc ..).symm

/-- **The stream from any point on**: what the calls deliver comes after what has been delivered. -/
theorem delivered_run (calls : List LineCall) (s : LineState) (line : List Key) (h : s.Typed line) :
    (runFrom apply s calls).delivered =
        s.delivered ++ stream line (itemsOf s.ldisc.settings calls) ∧
      (runFrom apply s calls).Typed
        (unfinished line (itemsOf s.ldisc.settings calls)) := by
  induction calls generalizing s line with
  | nil => exact ⟨(append_nil _).symm, h⟩
  | cons call calls ih =>
    change (runFrom apply (s.apply call) calls).delivered = _ ∧
      (runFrom apply (s.apply call) calls).Typed _
    -- what follows an item is the stream from the state after it
    have htook : ∀ item, s.Took (s.apply call) line item →
        itemsOf s.ldisc.settings (call :: calls) =
          item :: itemsOf (s.apply call).ldisc.settings calls →
        (runFrom apply (s.apply call) calls).delivered =
            s.delivered ++ stream line (itemsOf s.ldisc.settings (call :: calls)) ∧
          (runFrom apply (s.apply call) calls).Typed
            (unfinished line (itemsOf s.ldisc.settings (call :: calls))) := by
      intro item hitem hitems
      obtain ⟨hdelivered, htyped⟩ := ih (s.apply call) (item.next line) hitem.typed
      rw [hitems, hdelivered, hitem.delivered, append_assoc]
      exact ⟨rfl, htyped⟩
    cases call with
    | read n =>
      obtain ⟨hdelivered, htyped⟩ := ih (s.apply (.read n)) line h
      refine ⟨hdelivered.trans (congrArg (· ++ _) ?_), htyped⟩
      -- a read moves bytes from the queue to what has been read
      simp [apply, delivered, LineDiscipline.read]
    | processInput byte =>
      refine htook _ (took_processInput h byte) ?_
      rw [itemsOf, apply, LineDiscipline.processInput_eq, LineDiscipline.settings_press]
    | setTerminalSettings settings =>
      by_cases hoff : s.ldisc.settings.cLflag &&& ICANON ≠ 0 ∧ settings.cLflag &&& ICANON = 0
      · refine htook _ (took_release h hoff) ?_
        rw [itemsOf, if_pos hoff, apply, setTerminalSettings,
          if_neg Bool.false_ne_true, if_pos hoff]
      have hsame : s.apply (.setTerminalSettings settings) =
          { s with ldisc := { s.ldisc with settings := settings } } := by
        rw [apply, setTerminalSettings, if_neg Bool.false_ne_true,
          if_neg hoff]
      rw [itemsOf, if_neg hoff, hsame]
      exact ih { s with ldisc := { s.ldisc with settings := settings } } line h

/-- **What is read from a terminal.**  After any calls, what has been returned by reads followed by
what is queued is the stream of the history; the line buffer is the line not yet finished; and in
canonical mode a byte that neither ends the line nor is one of Ctrl-P and Ctrl-N makes nothing
readable. -/
theorem input_stream_exact (calls : List LineCall) :
    let s := lineAfter calls
    let items := itemsOf .default calls
    s.returned ++ s.ldisc.readQueue = stream [] items ∧
      s.ldisc.canonBuf = edited (unfinished [] items) ∧
      ∀ byte, s.ldisc.settings.cLflag &&& ICANON ≠ 0 →
        mapReturn s.ldisc.settings byte ∉ [0x0a, 0x0e, 0x10] →
        (lineAfter (calls ++ [.processInput byte])).ldisc.readQueue = s.ldisc.readQueue := by
  intro s items
  obtain ⟨hdelivered, htyped⟩ := delivered_run calls ⟨.new, []⟩ [] rfl
  refine ⟨hdelivered, htyped, fun byte hcanonical hbyte => ?_⟩
  rw [lineAfter, runFrom_concat, apply, processInput_eq]
  change (s.ldisc.press (.ofByte s.ldisc.settings (mapReturn s.ldisc.settings byte))).readQueue = _
  simp only [mem_cons, not_mem_nil, or_false, not_or] at hbyte
  rw [Key.ofByte, if_neg hcanonical, if_neg (not_or.2 ⟨hbyte.2.2, hbyte.2.1⟩), if_neg hbyte.1]
  split
  · rfl
  · split <;> rfl

/-- With `ICANON` off a carriage return is not read as it was typed, unless `ICRNL` is off too. -/
theorem raw_return_mapped :
    (lineAfter [.setTerminalSettings ⟨ICRNL, 0, 0⟩, .processInput 0x0d, .read 1]).returned =
      [0x0a] := by
  decide

/-! ## Signals -/

def EchoBytes.signal : EchoBytes → Option Signal
  | .ctrlC => some .sigterm
  | _ => .none

/-- The signal that each byte of an input generates. -/
def LineDiscipline.signals : LineDiscipline → List UInt8 → List (Option Signal)
  | _, [] => []
  | d, byte :: input => (d.processInput byte).1.signal :: (d.processInput byte).2.signals input

/-- The signals of an input to a fresh discipline with these settings. -/
def Termios2.signals (settings : Termios2) : List UInt8 → List (Option Signal) :=
  (new.setTerminalSettings settings true).signals

/-- The signal of a byte.  An interrupt is known by its echo, so it takes `ECHO`, and canonical
mode. -/
def Termios2.signalOf (settings : Termios2) (byte : UInt8) : Option Signal :=
  if byte = 0x03 ∧ settings.cLflag &&& ISIG ≠ 0 ∧ settings.cLflag &&& ICANON ≠ 0 ∧
    settings.cLflag &&& ECHO ≠ 0 then some .sigterm else none

theorem LineDiscipline.signal_processInput (d : LineDiscipline) (byte : UInt8) :
    (d.processInput byte).1.signal = d.settings.signalOf byte := by
  rw [processInput, Termios2.signalOf, ← mapReturn]
  by_cases hbyte : byte = 0x03
  · subst hbyte
    rw [show mapReturn d.settings 0x03 = 0x03 by simp [mapReturn]]
    simp +decide only [if_false, true_and]
    split_ifs <;> first | rfl | tauto
  · have hmap : mapReturn d.settings byte ≠ 0x03 := by
      rw [mapReturn]
      split <;> simp [hbyte]
    simp only [hmap, hbyte, false_and, if_false]
    split_ifs <;> rfl

theorem LineDiscipline.signals_eq (input : List UInt8) (d : LineDiscipline) :
    d.signals input = input.map d.settings.signalOf := by
  induction input generalizing d with
  | nil => rfl
  | cons byte input ih =>
    rw [signals, signal_processInput, ih, processInput_eq, settings_press, map_cons]

/-- **When `ECHO` and `ICANON` make no difference to interrupts.**  With `ISIG` set, two settings
that differ in these flags only generate a signal at every Ctrl-C and nowhere else, exactly if there
is no Ctrl-C in the input or both flags are set in both. -/
theorem interrupts_iff (t t' : Termios2) (input : List UInt8) (hsig : t.cLflag &&& ISIG ≠ 0)
    (hdiffer : t'.cIflag = t.cIflag ∧ t'.cOflag = t.cOflag ∧
      t'.cLflag &&& ~~~(ECHO ||| ICANON) = t.cLflag &&& ~~~(ECHO ||| ICANON)) :
    (t'.signals input = t.signals input ∧
      t.signals input = input.map fun byte => if byte = 0x03 then some .sigterm else none) ↔
    (0x03 ∈ input → ∀ s ∈ [t, t'], s.cLflag &&& ICANON ≠ 0 ∧ s.cLflag &&& ECHO ≠ 0) := by
  have hsig' : t'.cLflag &&& ISIG ≠ 0 := by
    have hmask : ISIG = ~~~(ECHO ||| ICANON) &&& ISIG := by decide
    rw [hmask, ← UInt32.and_assoc] at hsig ⊢
    rwa [hdiffer.2.2]
  have heq (t : Termios2) : t.signals input = input.map t.signalOf := signals_eq ..
  rw [heq, heq, map_inj_left, map_inj_left]
  constructor
  · rintro ⟨hsame, hall⟩ hmem
    have hsame := hsame _ hmem
    have hall := hall _ hmem
    simp_all [Termios2.signalOf]
  · intro h
    refine ⟨fun byte hmem => ?_, fun byte hmem => ?_⟩ <;> by_cases hbyte : byte = 0x03 <;>
      simp_all [Termios2.signalOf]

theorem interrupts_iff_default :
    Termios2.default.signals [0x61, 0x03] = [none, some .sigterm] := by
  obtain ⟨-, h⟩ := (interrupts_iff .default .default [0x61, 0x03] (by decide) ⟨rfl, rfl, rfl⟩).2
    (by decide)
  exact h

/-- Without echo there is no interrupt. -/
theorem unechoed_interrupt_lost :
    Termios2.signals ⟨0, 0, ISIG ||| ICANON ||| ECHO⟩ [0x03] = [some .sigterm] ∧
      Termios2.signals ⟨0, 0, ISIG ||| ICANON⟩ [0x03] = [none] := by
  decide

end Krust.Drivers
