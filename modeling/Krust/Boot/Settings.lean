import Krust.Vfs.Path

/-!
# Boot settings

The boot settings are read from a small text file, and written back to one.  The reader takes lines
`key = value`, with or without quotes around the value and with comments; whatever it is given, it
accepts only values that the writer can write down again (`Written`).  So text that is made from
accepted settings is read as those settings (`settings_round_trip`).
-/

set_option autoImplicit false

namespace Krust.Boot

open Lib Vfs List Option

/-- A text is looked through, and not all characters that there are. -/
scoped instance (p : Char → Prop) [DecidablePred p] (s : Str) : Decidable (∀ c ∈ s, p c) :=
  List.decidableBAll p s

scoped instance (p : Char → Prop) [DecidablePred p] (s : Str) : Decidable (∃ c ∈ s, p c) :=
  List.decidableBEx p s

/-! ## The source -/

def MAX_CONFIG_BYTES : Nat := 16 * 1024
def DEFAULT_VIRTUAL_CONSOLES : Nat := 6
def MAX_VIRTUAL_CONSOLES : Nat := 12

structure BootSettings where
  logLevel : Str
  shellPort : UInt8
  shellConsole : Str
  virtualConsoles : Nat
  syscallTrace : Bool
  rootFs : Str
  rootDevice : Str
  init : Option Str
  deriving DecidableEq, Repr

def canonicalPath (path : Str) : Prop :=
  trim path = path ∧
    (path = ['/'] ∨
      (path.head? = some '/' ∧ path.getLast? ≠ some '/' ∧
        (∀ c ∈ path, ¬ (isControl c = true ∨ c = '\x22' ∨ c = '\x5c')) ∧
        ∀ part ∈ path.tail.splitOn '/', part ∉ [[], ['.'], ['.', '.']]))

instance (path : Str) : Decidable (canonicalPath path) := inferInstanceAs (Decidable (_ ∧ _))

/-- The value on the right of an equals sign, or the reason why it is none. -/
def parseValue (raw : Str) : Except Str Str :=
  if raw.head? = some '\x22' then
    match splitOnce '\x22' raw.tail with
    | none => .error "unclosed string".toList
    | some (value, tail) =>
      if '\x5c' ∈ value ∨ ¬ (trim tail = [] ∨ (trim tail).head? = some '#') then
        .error "unsupported string syntax".toList
      else .ok value
  else .ok (trim (raw.takeWhile fun c => c != '#'))

def LOG_LEVELS : List Str :=
  ["off".toList, "error".toList, "warn".toList, "warning".toList, "info".toList, "debug".toList,
    "trace".toList]

def SHELL_CONSOLES : List Str := ["auto".toList, "serial".toList, "framebuffer".toList]

def ROOT_FILE_SYSTEMS : List Str := ["ext4".toList, "fat".toList, "ramfs".toList]

namespace BootSettings

def default : BootSettings where
  logLevel := "info".toList
  shellPort := 1
  shellConsole := "auto".toList
  virtualConsoles := DEFAULT_VIRTUAL_CONSOLES
  syscallTrace := false
  rootFs := "ext4".toList
  rootDevice := "/dev/sda".toList
  init := none

variable (settings : BootSettings)

/-- The `match` on the key: the settings with this value, or the reason why it is refused. -/
def set (key value : Str) : Except Str BootSettings :=
  if key = "log_level".toList ∧ value ∈ LOG_LEVELS then
    .ok { settings with
      logLevel := if value = "warning".toList then "warn".toList else value }
  else if key = "shell_port".toList ∧ value ∈ ["1".toList, "2".toList] then
    match fromStrRadix 10 (2 ^ 8) value with
    | none => .error "invalid port".toList
    | some port => .ok { settings with shellPort := UInt8.ofNat port }
  else if key = "shell_console".toList ∧ value ∈ SHELL_CONSOLES then
    .ok { settings with shellConsole := value }
  else if key = "virtual_consoles".toList then
    match fromStrRadix 10 (2 ^ 64) value with
    | none => .error "expected unsigned integer".toList
    | some n => .ok { settings with virtualConsoles := min (max n 1) MAX_VIRTUAL_CONSOLES }
  else if key = "syscall_trace".toList then
    if toAsciiLowercase value ∈ ["1".toList, "true".toList, "yes".toList, "on".toList] then
      .ok { settings with syscallTrace := true }
    else if toAsciiLowercase value ∈ ["0".toList, "false".toList, "no".toList, "off".toList] then
      .ok { settings with syscallTrace := false }
    else .error "invalid syscall_trace boolean".toList
  else if key = "root_fs".toList ∧ value ∈ ROOT_FILE_SYSTEMS then
    .ok { settings with rootFs := value }
  else if key = "root_device".toList then .ok { settings with rootDevice := value }
  else if key = "init".toList then .ok { settings with init := some value }
  else .error "unknown setting or invalid value".toList

def lineError (index : Nat) (reason : Str) : Str :=
  "boot configuration line ".toList ++ decimal (index + 1) ++ ": ".toList ++ reason

/-- The loop of `parse_with_defaults` over the lines, with the keys that have been seen. -/
def parseLines : Nat → List Str → List Str → BootSettings → Except Str BootSettings
  | _, _, [], settings => .ok settings
  | index, keys, line :: rest, settings =>
    let line := trim line
    if line = [] ∨ line.head? = some '#' then parseLines (index + 1) keys rest settings
    else
      match splitOnce '=' line with
      | none => .error (lineError index "expected key = value".toList)
      | some (key, raw) =>
        let key := trim key
        if key ∈ keys then .error (lineError index "duplicate key".toList)
        else
          match parseValue (trim raw) with
          | .error reason => .error (lineError index reason)
          | .ok value =>
            match settings.set key value with
            | .error reason => .error (lineError index reason)
            | .ok settings => parseLines (index + 1) (keys ++ [key]) rest settings

def validate : Except Str Unit :=
  if settings.init.any fun path =>
      decide (¬ canonicalPath path ∨ path = ['/'] ∨
        ∃ c ∈ path, isControl c = true ∨ c = '\x22' ∨ c = '\x5c') then
    .error "init requires a canonical absolute executable path".toList
  else if settings.rootFs = "ramfs".toList then
    if settings.rootDevice ≠ [] ∧ settings.rootDevice ≠ "none".toList then
      .error "ramfs root requires root_device = \x22none\x22".toList
    else .ok ()
  else if settings.rootFs = "ext4".toList ∨ settings.rootFs = "fat".toList then
    if ¬ "/dev/".toList <+: settings.rootDevice ∨ ¬ canonicalPath settings.rootDevice then
      .error "disk root requires an absolute /dev/... root_device".toList
    else .ok ()
  else .error "unsupported root filesystem".toList

def parseWithDefaults (contents : Str) (settings : BootSettings) : Except Str BootSettings :=
  if utf8Len contents > MAX_CONFIG_BYTES then .error "boot configuration exceeds 16 KiB".toList
  else
    match parseLines 0 [] (lines contents) settings with
    | .error e => .error e
    | .ok settings =>
      match settings.validate with
      | .error e => .error e
      | .ok () => .ok settings

def parse (contents : Str) : Except Str BootSettings := parseWithDefaults contents default

def toToml : Str :=
  "log_level = \x22".toList ++ settings.logLevel ++ "\x22\n".toList ++
  "shell_port = ".toList ++ decimal settings.shellPort.toNat ++ "\n".toList ++
  "shell_console = \x22".toList ++ settings.shellConsole ++ "\x22\n".toList ++
  "virtual_consoles = ".toList ++ decimal settings.virtualConsoles ++ "\n".toList ++
  "syscall_trace = ".toList ++ (toString settings.syscallTrace).toList ++ "\n".toList ++
  "root_fs = \x22".toList ++ settings.rootFs ++ "\x22\n".toList ++
  "root_device = \x22".toList ++ settings.rootDevice ++ "\x22\n".toList ++
  match settings.init with
  | some path => "init = \x22".toList ++ path ++ "\x22\n".toList
  | none => []

end BootSettings

/-! ## What is accepted -/

open BootSettings

/-- Values that can be written down: all but the paths are from short lists. -/
structure Written (s : BootSettings) : Prop where
  logLevel : s.logLevel ∈ LOG_LEVELS.erase "warning".toList
  shellPort : s.shellPort ∈ [1, 2]
  shellConsole : s.shellConsole ∈ SHELL_CONSOLES
  one_le_virtualConsoles : 1 ≤ s.virtualConsoles
  virtualConsoles_le : s.virtualConsoles ≤ MAX_VIRTUAL_CONSOLES

theorem written_default : Written .default :=
  ⟨by decide, by decide, by decide, by decide, by decide⟩

variable {key value : Str} {s : BootSettings}

/-- The level `warning` is stored as `warn`. -/
theorem logLevel_mem (h : value ∈ LOG_LEVELS) :
    (if value = "warning".toList then "warn".toList else value) ∈
      LOG_LEVELS.erase "warning".toList := by
  split
  · decide
  · exact (mem_erase_of_ne ‹_›).2 h

theorem shellPort_mem {port : Nat} (h : value ∈ ["1".toList, "2".toList])
    (hport : fromStrRadix 10 (2 ^ 8) value = some port) : UInt8.ofNat port ∈ [1, 2] := by
  rcases mem_pair.1 h with rfl | rfl
  · obtain rfl : 1 = port := some_inj.1 hport
    decide
  · obtain rfl : 2 = port := some_inj.1 hport
    decide

variable {s' : BootSettings} {index : Nat}

theorem Written.set (h : Written s) (hset : s.set key value = .ok s') : Written s' := by
  rw [BootSettings.set] at hset
  split at hset
  · rename_i hkey
    obtain rfl := Except.ok.inj hset
    exact { h with logLevel := logLevel_mem hkey.2 }
  split at hset
  · rename_i hkey
    split at hset
    · cases hset
    rename_i port hport
    obtain rfl := Except.ok.inj hset
    exact { h with shellPort := shellPort_mem hkey.2 hport }
  split at hset
  · rename_i hkey
    obtain rfl := Except.ok.inj hset
    exact { h with shellConsole := hkey.2 }
  split at hset
  · split at hset
    · cases hset
    · rename_i n _
      obtain rfl := Except.ok.inj hset
      have hmin : 1 ≤ min (max n 1) MAX_VIRTUAL_CONSOLES :=
        Nat.le_min.2 ⟨Nat.le_max_right n 1, by decide⟩
      exact { h with one_le_virtualConsoles := hmin, virtualConsoles_le := min_le_right _ _ }
  split at hset
  · split at hset
    · obtain rfl := Except.ok.inj hset
      exact { h with }
    split at hset
    · obtain rfl := Except.ok.inj hset
      exact { h with }
    · cases hset
  -- the last keys only set fields that any text may stand in
  iterate 3
    split at hset
    · obtain rfl := Except.ok.inj hset
      exact { h with }
  cases hset

theorem written_parseLines {keys ls : List Str} (h : Written s)
    (hparse : parseLines index keys ls s = .ok s') : Written s' := by
  induction ls generalizing index keys s with
  | nil =>
    obtain rfl := Except.ok.inj hparse
    exact h
  | cons line ls ih =>
    rw [parseLines] at hparse
    dsimp only at hparse
    split at hparse
    · exact ih h hparse
    split at hparse
    · cases hparse
    split at hparse
    · cases hparse
    split at hparse
    · cases hparse
    split at hparse
    · cases hparse
    · rename_i hset
      exact ih (h.set hset) hparse

theorem written_of_parse {contents : Str} (h : parse contents = .ok s) :
    Written s ∧ s.validate = .ok () := by
  rw [parse, parseWithDefaults] at h
  split at h
  · cases h
  split at h
  · cases h
  rename_i hparse
  split at h
  · cases h
  rename_i hvalidate
  obtain rfl := Except.ok.inj h
  exact ⟨written_parseLines written_default hparse, hvalidate⟩

/-! ## Reading a line -/

/-- Text that begins and ends with something that is not white space. -/
def Trimmed (s : Str) : Prop :=
  (s.head?.any fun c => !isWhitespace c) = true ∧ (s.getLast?.any fun c => !isWhitespace c) = true

instance (s : Str) : Decidable (Trimmed s) := inferInstanceAs (Decidable (_ ∧ _))

theorem Trimmed.ne_nil {s : Str} (h : Trimmed s) : s ≠ [] := by
  rintro rfl
  exact Bool.false_ne_true h.1

theorem Trimmed.trim_eq {s : Str} (h : Trimmed s) : trim s = s := by
  obtain ⟨c, s, rfl⟩ := exists_cons_of_ne_nil h.ne_nil
  have hhead : isWhitespace c = false := by simpa using h.1
  rw [trim, dropWhile_cons_of_neg (by simp [hhead]), rdropWhile_eq_self_iff]
  intro hne
  have hlast := h.2
  rw [getLast?_eq_some_getLast hne] at hlast
  simpa using hlast

theorem trim_append_space {s : Str} (h : Trimmed s) : trim (s ++ [' ']) = s := by
  obtain ⟨c, s, rfl⟩ := exists_cons_of_ne_nil h.ne_nil
  have hhead : isWhitespace c = false := by simpa using h.1
  have hself := h.trim_eq
  rw [trim, dropWhile_cons_of_neg (by simp [hhead])] at hself
  rw [trim, cons_append, dropWhile_cons_of_neg (by simp [hhead]), ← cons_append,
    rdropWhile_concat_pos _ _ _ (by rfl), hself]

/-- A key as it stands in the file. -/
def IsKey (key : Str) : Prop := Trimmed key ∧ key.head? ≠ some '#' ∧ '=' ∉ key

instance (key : Str) : Decidable (IsKey key) := inferInstanceAs (Decidable (_ ∧ _))

def settingLine (key raw : Str) : Str := key ++ ' ' :: '=' :: ' ' :: raw

/-- A text that is read as this value. -/
structure Stands (raw value : Str) : Prop where
  trimmed : Trimmed raw
  newline : '\n' ∉ raw
  parse : parseValue raw = .ok value

variable {raw : Str}

theorem getLast_settingLine (hraw : Trimmed raw) :
    (settingLine key raw).getLast? = raw.getLast? := by
  have hcut : settingLine key raw = (key ++ " = ".toList) ++ raw := by simp [settingLine]
  rw [hcut, getLast?_append_of_ne_nil _ hraw.ne_nil]

/-- **A line is read as the setting that it was written for.** -/
theorem parseLines_settingLine {keys rest : List Str} (hkey : IsKey key) (hraw : Stands raw value)
    (hnew : key ∉ keys) (hset : s.set key value = .ok s') :
    parseLines index keys (settingLine key raw :: rest) s =
      parseLines (index + 1) (keys ++ [key]) rest s' := by
  obtain ⟨htrimmed, hhash, heq⟩ := hkey
  have hhead : (settingLine key raw).head? = key.head? := by
    rw [settingLine, head?_append_of_ne_nil _ htrimmed.ne_nil]
  have hline : Trimmed (settingLine key raw) :=
    ⟨hhead ▸ htrimmed.1, getLast_settingLine hraw.trimmed ▸ hraw.trimmed.2⟩
  have hsplit : splitOnce '=' (settingLine key raw) = some (key ++ [' '], ' ' :: raw) := by
    have hcut : settingLine key raw = (key ++ [' ']) ++ '=' :: ' ' :: raw := by simp [settingLine]
    rw [hcut, splitOnce_append (by simp [heq])]
  rw [parseLines]
  rw [hline.trim_eq, if_neg (not_or.2 ⟨hline.ne_nil, hhead ▸ hhash⟩), hsplit]
  dsimp only
  rw [trim_append_space htrimmed, if_neg hnew, show trim (' ' :: raw) = trim raw from rfl,
    hraw.trimmed.trim_eq, hraw.parse]
  dsimp only
  rw [hset]

/-! ## Values -/

def quoted (value : Str) : Str := '\x22' :: value ++ ['\x22']

def Quotable (value : Str) : Prop := '\x22' ∉ value ∧ '\x5c' ∉ value ∧ '\n' ∉ value

instance (value : Str) : Decidable (Quotable value) := inferInstanceAs (Decidable (_ ∧ _))

theorem Quotable.stands (h : Quotable value) : Stands (quoted value) value := by
  refine ⟨⟨rfl, by rw [quoted, getLast?_concat]; rfl⟩, by simp [quoted, h.2.2], ?_⟩
  have hsplit : splitOnce '\x22' (quoted value).tail = some (value, []) := splitOnce_append h.1 []
  rw [parseValue, if_pos (show (quoted value).head? = some '\x22' from rfl), hsplit]
  have hend : trim [] = [] := rfl
  dsimp only
  rw [if_neg (not_or.2 ⟨h.2.1, not_not.2 (Or.inl hend)⟩)]

/-- A value that needs no quotes. -/
def Plain (value : Str) : Prop :=
  Trimmed value ∧ value.head? ≠ some '\x22' ∧ '#' ∉ value ∧ '\n' ∉ value

instance (value : Str) : Decidable (Plain value) := inferInstanceAs (Decidable (_ ∧ _))

theorem Plain.stands (h : Plain value) : Stands value value := by
  have htake : (value.takeWhile fun c => c != '#') = value :=
    takeWhile_eq_self_iff.2 fun c hc => bne_iff_ne.2 (ne_of_mem_of_not_mem hc h.2.2.1)
  exact ⟨h.1, h.2.2.2, by rw [parseValue, if_neg h.2.1, htake, h.1.trim_eq]⟩

theorem Stands.isLine (h : Stands raw value) (hkey : '\n' ∉ key) :
    IsLine (settingLine key raw) := by
  refine ⟨by simp [settingLine, hkey, h.newline], fun hlast => ?_⟩
  rw [getLast_settingLine h.trimmed] at hlast
  exact absurd h.trimmed.2 (by rw [hlast]; decide)

/-! ## Reading what was written -/

/-- The lines of the file that `to_toml` writes: for each setting its key and the value. -/
def tomlLines (s : BootSettings) : List Str :=
  [settingLine "log_level".toList (quoted s.logLevel),
    settingLine "shell_port".toList (decimal s.shellPort.toNat),
    settingLine "shell_console".toList (quoted s.shellConsole),
    settingLine "virtual_consoles".toList (decimal s.virtualConsoles),
    settingLine "syscall_trace".toList (toString s.syscallTrace).toList,
    settingLine "root_fs".toList (quoted s.rootFs),
    settingLine "root_device".toList (quoted s.rootDevice)] ++
  s.init.toList.map fun path => settingLine "init".toList (quoted path)

theorem toToml_eq (s : BootSettings) :
    s.toToml = (tomlLines s).flatMap fun line => line ++ ['\n'] := by
  obtain ⟨level, port, console, consoles, trace, fs, device, init⟩ := s
  unfold toToml
  -- the format string only cuts the text elsewhere
  cases init <;>
  · simp only [tomlLines, flatMap_cons, flatMap_nil, settingLine, quoted, toList,
      map_cons, map_nil, append_assoc, cons_append, nil_append]
    rfl

/-- What `validate` says about the texts that are not from a list. -/
structure Paths (s : BootSettings) : Prop where
  rootFs : s.rootFs ∈ ROOT_FILE_SYSTEMS
  rootDevice : Quotable s.rootDevice
  init : ∀ path ∈ s.init, Quotable path

theorem quotable_of_canonical {path : Str} (h : canonicalPath path) : Quotable path := by
  rcases h.2 with rfl | ⟨-, -, hall, -⟩
  · decide
  have hne : ∀ c ∈ path, isControl c = false ∧ c ≠ '\x22' ∧ c ≠ '\x5c' := by
    simpa [not_or] using hall
  refine ⟨fun hc => (hne _ hc).2.1 rfl, fun hc => (hne _ hc).2.2 rfl, fun hc => ?_⟩
  exact absurd (hne _ hc).1 (by decide)

theorem paths_of_validate (h : s.validate = .ok ()) : Paths s := by
  rw [validate] at h
  split at h
  · cases h
  rename_i hinit
  have hpath : ∀ path ∈ s.init, Quotable path := by
    intro path hpath
    rw [hpath, any_some, decide_eq_true_eq, not_or, not_not] at hinit
    exact quotable_of_canonical hinit.1
  split at h
  · rename_i hfs
    split at h
    · cases h
    refine ⟨hfs ▸ by decide, ?_, hpath⟩
    obtain hdevice | hdevice : s.rootDevice = [] ∨ s.rootDevice = "none".toList := by
      tauto
    · rw [hdevice]
      decide
    · rw [hdevice]
      decide
  split at h
  · rename_i hfs
    split at h
    · cases h
    rename_i hdevice
    rw [not_or, not_not, not_not] at hdevice
    refine ⟨?_, quotable_of_canonical hdevice.2, hpath⟩
    rcases hfs with hfs | hfs <;> rw [hfs] <;> decide
  · cases h

section Set

variable (s : BootSettings)

theorem set_logLevel {level : Str} (h : level ∈ LOG_LEVELS.erase "warning".toList) :
    s.set "log_level".toList level = .ok { s with logLevel := level } := by
  have hne : level ≠ "warning".toList := fun hwarning => absurd (hwarning ▸ h) (by decide)
  rw [BootSettings.set, if_pos ⟨rfl, mem_of_mem_erase h⟩, if_neg hne]

theorem set_shellPort {port : UInt8} (h : port ∈ [1, 2]) :
    s.set "shell_port".toList (decimal port.toNat) = .ok { s with shellPort := port } := by
  rcases mem_pair.1 h with rfl | rfl <;> rfl

theorem set_shellConsole {console : Str} (h : console ∈ SHELL_CONSOLES) :
    s.set "shell_console".toList console = .ok { s with shellConsole := console } := by
  rw [BootSettings.set, if_neg (fun hkey => absurd hkey.1 (by decide)),
    if_neg (fun hkey => absurd hkey.1 (by decide)), if_pos ⟨rfl, h⟩]

/-- The numbers of consoles that there can be are read as they are written. -/
theorem decimal_consoles : ∀ n ≤ MAX_VIRTUAL_CONSOLES,
    Plain (decimal n) ∧ fromStrRadix 10 (2 ^ 64) (decimal n) = some n := by
  decide

theorem set_virtualConsoles {n : Nat} (hlo : 1 ≤ n) (hhi : n ≤ MAX_VIRTUAL_CONSOLES) :
    s.set "virtual_consoles".toList (decimal n) = .ok { s with virtualConsoles := n } := by
  rw [BootSettings.set, if_neg (fun hkey => absurd hkey.1 (by decide)),
    if_neg (fun hkey => absurd hkey.1 (by decide)), if_neg (fun hkey => absurd hkey.1 (by decide)),
    if_pos rfl, (decimal_consoles n hhi).2]
  dsimp only
  rw [max_eq_left hlo, min_eq_left hhi]

theorem set_syscallTrace (b : Bool) :
    s.set "syscall_trace".toList (toString b).toList = .ok { s with syscallTrace := b } := by
  cases b <;> rfl

theorem set_rootFs {fs : Str} (h : fs ∈ ROOT_FILE_SYSTEMS) :
    s.set "root_fs".toList fs = .ok { s with rootFs := fs } := by
  rw [BootSettings.set, if_neg (fun hkey => absurd hkey.1 (by decide)),
    if_neg (fun hkey => absurd hkey.1 (by decide)), if_neg (fun hkey => absurd hkey.1 (by decide)),
    if_neg (by decide), if_neg (by decide), if_pos ⟨rfl, h⟩]

end Set

/-- The values that are written. -/
structure Stand (s : BootSettings) : Prop where
  logLevel : Stands (quoted s.logLevel) s.logLevel
  shellPort : Stands (decimal s.shellPort.toNat) (decimal s.shellPort.toNat)
  shellConsole : Stands (quoted s.shellConsole) s.shellConsole
  virtualConsoles : Stands (decimal s.virtualConsoles) (decimal s.virtualConsoles)
  syscallTrace : Stands (toString s.syscallTrace).toList (toString s.syscallTrace).toList
  rootFs : Stands (quoted s.rootFs) s.rootFs
  rootDevice : Stands (quoted s.rootDevice) s.rootDevice
  init : ∀ path ∈ s.init, Stands (quoted path) path

theorem Written.stand (h : Written s) (hpaths : Paths s) : Stand s := by
  have hlevel : ∀ level ∈ LOG_LEVELS.erase "warning".toList, Quotable level := by decide
  have hport : ∀ port ∈ [(1 : UInt8), 2], Plain (decimal port.toNat) :=
    forall_mem_cons.2 ⟨by decide, forall_mem_singleton.2 (by decide)⟩
  have hconsole : ∀ console ∈ SHELL_CONSOLES, Quotable console := by decide
  have htrace : ∀ b : Bool, Plain (toString b).toList := by decide
  have hfs : ∀ fs ∈ ROOT_FILE_SYSTEMS, Quotable fs := by decide
  exact ⟨(hlevel _ h.logLevel).stands, (hport _ h.shellPort).stands,
    (hconsole _ h.shellConsole).stands, (decimal_consoles _ h.virtualConsoles_le).1.stands,
    (htrace _).stands, (hfs _ hpaths.rootFs).stands, hpaths.rootDevice.stands,
    fun path hpath => (hpaths.init path hpath).stands⟩

/-- **The lines that were written set all the settings.** -/
theorem parseLines_tomlLines (h : Written s) (hpaths : Paths s) :
    parseLines 0 [] (tomlLines s) .default = .ok s := by
  have hs := h.stand hpaths
  rw [tomlLines, cons_append, cons_append, cons_append, cons_append,
    cons_append, cons_append, cons_append,
    parseLines_settingLine (by decide) hs.logLevel (by decide) (set_logLevel _ h.logLevel),
    parseLines_settingLine (by decide) hs.shellPort (by decide) (set_shellPort _ h.shellPort),
    parseLines_settingLine (by decide) hs.shellConsole (by decide)
      (set_shellConsole _ h.shellConsole),
    parseLines_settingLine (by decide) hs.virtualConsoles (by decide)
      (set_virtualConsoles _ h.one_le_virtualConsoles h.virtualConsoles_le),
    parseLines_settingLine (by decide) hs.syscallTrace (by decide) (set_syscallTrace _ _),
    parseLines_settingLine (by decide) hs.rootFs (by decide) (set_rootFs _ hpaths.rootFs),
    parseLines_settingLine (by decide) hs.rootDevice (by decide) rfl]
  obtain ⟨level, port, console, consoles, trace, fs, device, init⟩ := s
  rcases init with _ | path
  · rfl
  change parseLines _ _ [settingLine "init".toList (quoted path)] _ = _
  rw [parseLines_settingLine (by decide) (hs.init path rfl) (by decide) rfl]
  rfl

theorem Stand.isLine (hs : Stand s) : ∀ line ∈ tomlLines s, IsLine line := by
  rw [tomlLines, forall_mem_append]
  constructor
  · simp only [forall_mem_cons, not_mem_nil, false_implies, implies_true, and_true]
    exact ⟨hs.logLevel.isLine (by decide), hs.shellPort.isLine (by decide),
      hs.shellConsole.isLine (by decide), hs.virtualConsoles.isLine (by decide),
      hs.syscallTrace.isLine (by decide), hs.rootFs.isLine (by decide),
      hs.rootDevice.isLine (by decide)⟩
  · intro line hline
    obtain ⟨path, hpath, rfl⟩ := mem_map.1 hline
    exact (hs.init path (mem_toList.1 hpath)).isLine (by decide)

/-- **Settings that were accepted are read back from what `to_toml` writes**, if it is not too
long. -/
theorem settings_round_trip (contents : Str) (s : BootSettings)
    (h : parse contents = .ok s) (hlength : utf8Len s.toToml ≤ MAX_CONFIG_BYTES) :
    parse s.toToml = .ok s := by
  obtain ⟨hwritten, hvalidate⟩ := written_of_parse h
  have hpaths := paths_of_validate hvalidate
  rw [parse, parseWithDefaults, if_neg (not_lt.2 hlength), toToml_eq,
    lines_flatMap (hwritten.stand hpaths).isLine, parseLines_tomlLines hwritten hpaths]
  dsimp only
  rw [hvalidate]

/-- A file with a comment, a quoted path with a space and a number that is too large. -/
def sampleConfig : Str :=
  "# boot\nroot_device = \x22/dev/my disk\x22\nvirtual_consoles = 99 # all\ninit = /bin/sh\n".toList

def sampleSettings : BootSettings :=
  { default with
    rootDevice := "/dev/my disk".toList, virtualConsoles := 12, init := some "/bin/sh".toList }

theorem settings_round_trip_sample :
    parse sampleConfig = .ok sampleSettings ∧
      parse sampleSettings.toToml = .ok sampleSettings := by
  have hparse : parse sampleConfig = .ok sampleSettings := by decide +kernel
  exact ⟨hparse, settings_round_trip sampleConfig sampleSettings hparse (by decide +kernel)⟩

end Krust.Boot
