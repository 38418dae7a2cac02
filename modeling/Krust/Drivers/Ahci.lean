import Krust.Fs.Defs
import Krust.Lib.Memory

/-!
# Commands for a SATA drive

A command is a table in memory whose first bytes, the command FIS, name the sector, and a header in
the command list that leads to the table.  There are two families of commands.  Those with 48-bit
addresses find bits 24 to 47 of the sector in bytes 8 to 10 of the FIS; the others find bits 24 to
27 in byte 7, where the driver never puts them (`sectors_addressed_iff`).

The header is always the first one of the list, but the command is issued in the first slot that is
free.  If that is another slot, then the drive is led somewhere else (`issued_header_iff`).
-/

set_option autoImplicit false

namespace Krust.Drivers

open Lib List

/-! ## The source -/

def ATA_CMD_READ_DMA : UInt8 := 0xc8

def ATA_CMD_WRITE_DMA : UInt8 := 0xca

def ATA_CMD_READ_DMA_EXT : UInt8 := 0x25

def ATA_CMD_WRITE_DMA_EXT : UInt8 := 0x35

/-- What `ensure_initialized` takes from the answer of a drive: the number of its sectors, and
whether they have 48-bit addresses. -/
def identified (identify : List UInt8) : Except DeviceError (Nat × Bool) :=
  let sectors28 := leValue (slice identify 120 4)
  let sectors48 := leValue (slice identify 200 8)
  let sectorCount := if sectors48 ≠ 0 then sectors48 else sectors28
  if sectorCount = 0 then .error .notReady else .ok (sectorCount, sectors48 ≠ 0)

/-- The command of `transfer_one_sector`. -/
def transferCommand (write lba48 : Bool) : UInt8 :=
  if write then if lba48 then ATA_CMD_WRITE_DMA_EXT else ATA_CMD_WRITE_DMA
  else if lba48 then ATA_CMD_READ_DMA_EXT else ATA_CMD_READ_DMA

def commandFis (command : UInt8) (lba count : Nat) : List UInt8 :=
  [0x27, 0x80, command, 0,
    .ofNat (lba &&& 0xff), .ofNat (lba >>> 8 &&& 0xff), .ofNat (lba >>> 16 &&& 0xff), 0x40,
    .ofNat (lba >>> 24 &&& 0xff), .ofNat (lba >>> 32 &&& 0xff), .ofNat (lba >>> 40 &&& 0xff), 0,
    .ofNat (count &&& 0xff), .ofNat (count >>> 8), 0, 0]

/-- `build_command_fis`: the command table. -/
def commandTable (command : UInt8) (lba count dmaPhys : Nat) : List UInt8 :=
  overwrite (overwrite (List.replicate 256 0) 0 (commandFis command lba count)) 0x80
    (leBytes 4 dmaPhys ++ leBytes 4 (dmaPhys >>> 32) ++ leBytes 4 0 ++ leBytes 4 (511 ||| 1 <<< 31))

/-- The header of a command, whose table is at this address. -/
def commandHeader (commandTablePhys : Nat) (write : Bool) : List UInt8 :=
  leBytes 2 (5 ||| if write then 1 <<< 6 else 0) ++ leBytes 2 1 ++ leBytes 4 0 ++
    leBytes 4 commandTablePhys ++ leBytes 4 (commandTablePhys >>> 32)

def setCommandHeader (commandList : List UInt8) (commandTablePhys : Nat) (write : Bool) :
    List UInt8 := overwrite commandList 0 (commandHeader commandTablePhys write)

/-- What the registers of a port read during a command. -/
structure PortReads where
  /-- The polls of `wait_port_ready`. -/
  tfd : Nat → Nat
  cap : Nat
  sact : Nat
  ci : Nat

def AHCI_TIMEOUT : Nat := 1000000

/-- The loop of `wait_port_ready`. -/
def waitPortReady (tfd : Nat → Nat) : Nat → Bool
  | 0 => false
  | timeout + 1 =>
    if tfd timeout &&& (0x80 ||| 0x08) = 0 then true else waitPortReady tfd timeout

def findFreeSlot (occupied slots : Nat) : Option Nat :=
  (List.range (min slots 32)).find? fun index => occupied &&& 1 <<< index = 0

/-- `ahci_rw`, up to the point where it issues the command: the slot, if there is one, and the
command list. -/
def ahciRw (reads : PortReads) (commandList : List UInt8) (commandTablePhys : Nat) (write : Bool) :
    Except DeviceError Nat × List UInt8 :=
  let commandList := setCommandHeader commandList commandTablePhys write
  if waitPortReady reads.tfd AHCI_TIMEOUT then
    match findFreeSlot (reads.sact ||| reads.ci) ((reads.cap >>> 8 &&& 0x1f) + 1) with
    | none => (.error .busy, commandList)
    | some slot => (.ok slot, commandList)
  else (.error .busy, commandList)

/-! ## What the drive reads -/

/-- **The sector that a drive finds** in a command table. -/
def ataSector (table : List UInt8) : Nat :=
  leValue (slice table 4 3) + 2 ^ 24 *
    if table.getD 2 0 ∈ [ATA_CMD_READ_DMA_EXT, ATA_CMD_WRITE_DMA_EXT] then leValue (slice table 8 3)
    else (table.getD 7 0).toNat % 16

def headerAt (commandList : List UInt8) (slot : Nat) : List UInt8 :=
  slice commandList (32 * slot) 16

theorem toNat_byte (lba k : Nat) :
    (UInt8.ofNat (lba >>> k &&& 0xff)).toNat = lba / 2 ^ k % 256 := by
  have hmask : lba >>> k &&& 0xff = lba >>> k % 256 := Nat.and_two_pow_sub_one_eq_mod _ 8
  rw [hmask, UInt8.toNat_ofNat', Nat.shiftRight_eq_div_pow]
  omega

theorem ataSector_commandTable (write lba48 : Bool) (lba count dmaPhys : Nat) :
    ataSector (commandTable (transferCommand write lba48) lba count dmaPhys) =
      lba % 2 ^ if lba48 then 48 else 24 := by
  generalize hcommand : transferCommand write lba48 = command
  have hlow : leValue (slice (commandTable command lba count dmaPhys) 4 3) = lba % 2 ^ 24 := by
    change (UInt8.ofNat (lba >>> 0 &&& 0xff)).toNat + 256 *
      ((UInt8.ofNat (lba >>> 8 &&& 0xff)).toNat + 256 *
        ((UInt8.ofNat (lba >>> 16 &&& 0xff)).toNat + 256 * 0)) = _
    rw [toNat_byte, toNat_byte, toNat_byte]
    omega
  have hhigh : leValue (slice (commandTable command lba count dmaPhys) 8 3) =
      lba / 2 ^ 24 % 2 ^ 24 := by
    change (UInt8.ofNat (lba >>> 24 &&& 0xff)).toNat + 256 *
      ((UInt8.ofNat (lba >>> 32 &&& 0xff)).toNat + 256 *
        ((UInt8.ofNat (lba >>> 40 &&& 0xff)).toNat + 256 * 0)) = _
    rw [toNat_byte, toNat_byte, toNat_byte]
    omega
  have hbyte : (commandTable command lba count dmaPhys).getD 2 0 = command := rfl
  have hdevice : (commandTable command lba count dmaPhys).getD 7 0 = 0x40 := rfl
  rw [ataSector, hlow, hhigh, hbyte, hdevice, ← hcommand]
  cases lba48 with
  | true =>
    rw [if_pos (by cases write <;> decide), if_pos rfl]
    omega
  | false =>
    rw [if_neg (by cases write <;> decide), if_neg Bool.false_ne_true]
    exact add_zero _

/-- **When every sector of a drive is addressed**, and so no two are taken for each other. -/
theorem sectors_addressed_iff (sectorCount : Nat) (lba48 : Bool) :
    ((∀ sector < sectorCount, ∀ write dmaPhys,
        ataSector (commandTable (transferCommand write lba48) sector 1 dmaPhys) = sector) ↔
      sectorCount ≤ 2 ^ if lba48 then 48 else 24) ∧
    ((∀ sector < sectorCount, ∀ sector' < sectorCount, ∀ write dmaPhys, sector ≠ sector' →
        ataSector (commandTable (transferCommand write lba48) sector 1 dmaPhys) ≠
          ataSector (commandTable (transferCommand write lba48) sector' 1 dmaPhys)) ↔
      sectorCount ≤ 2 ^ if lba48 then 48 else 24) := by
  simp only [ataSector_commandTable]
  generalize hlimit : (2 ^ if lba48 then 48 else 24) = limit
  have hpos : 0 < limit := hlimit ▸ Nat.two_pow_pos _
  refine ⟨⟨fun h => ?_, fun h sector hsector _ _ => Nat.mod_eq_of_lt (by omega)⟩,
    fun h => ?_, fun h sector hsector sector' hsector' _ _ hne => ?_⟩
  · by_contra hlt
    have hmod := h limit (by omega) false 0
    rw [Nat.mod_self] at hmod
    omega
  · by_contra hlt
    exact h limit (by omega) 0 (by omega) false 0 (by omega) (by rw [Nat.mod_self, Nat.zero_mod])
  · rwa [Nat.mod_eq_of_lt (by omega), Nat.mod_eq_of_lt (by omega)]

/-- The answer of a drive with 8 GiB and one sector, without 48-bit addresses. -/
def largeDrive : List UInt8 := overwrite (List.replicate 512 0) 120 (leBytes 4 (2 ^ 24 + 1))

/-- **The last sector of this drive is taken for the first.** -/
theorem last_sector_aliased : identified largeDrive = .ok (2 ^ 24 + 1, false) ∧
    ataSector (commandTable (transferCommand true false) (2 ^ 24) 1 0) =
      ataSector (commandTable (transferCommand true false) 0 1 0) := by
  decide +kernel

/-! ## Where the drive looks -/

theorem findFreeSlot_eq_zero_iff {occupied slots slot : Nat}
    (h : findFreeSlot occupied (slots + 1) = some slot) : slot = 0 ↔ occupied &&& 1 = 0 := by
  have hrange : range (min (slots + 1) 32) = 0 :: (range (min slots 31)).map (· + 1) := by
    rw [← range_succ_eq_map]
    congr 1
    omega
  rw [findFreeSlot, hrange, find?_cons] at h
  split at h
  · rename_i hfree
    exact iff_of_true (Option.some.inj h).symm (of_decide_eq_true hfree)
  rename_i hused
  refine iff_of_false ?_ (of_decide_eq_false hused)
  obtain ⟨index, -, rfl⟩ := mem_map.1 (mem_of_find?_eq_some h)
  exact Nat.succ_ne_zero index

/-- Only the header of the first slot is written. -/
theorem headerAt_setCommandHeader (commandList : List UInt8) (commandTablePhys : Nat) (write : Bool)
    {slot : Nat} (h : slot ≠ 0) :
    headerAt (setCommandHeader commandList commandTablePhys write) slot =
      headerAt commandList slot := by
  have hheader : (commandHeader commandTablePhys write).length = 16 := rfl
  rw [setCommandHeader, headerAt, headerAt, slice, slice, overwrite, take_zero, nil_append,
    zero_add, drop_append, drop_eq_nil_of_le (by omega), nil_append, drop_drop, hheader,
    show 16 + (32 * slot - 16) = 32 * slot by omega]

/-- The command lists of a driver: `clear_ahci_buffers` fills them with zeros, and then headers are
set. -/
inductive DriverList : List UInt8 → Prop
  | clear : DriverList (List.replicate 1024 0)
  | set {commandList : List UInt8} (h : DriverList commandList) (commandTablePhys : Nat)
      (write : Bool) : DriverList (setCommandHeader commandList commandTablePhys write)

/-- In such a list, the first header is the only one. -/
theorem DriverList.headerAt_ne {commandList : List UInt8} (h : DriverList commandList) {slot : Nat}
    (hslot : slot ≠ 0) (commandTablePhys : Nat) (write : Bool) :
    headerAt commandList slot ≠ commandHeader commandTablePhys write := by
  induction h with
  | clear =>
    intro heq
    have hone : (1 : UInt8) ∈ commandHeader commandTablePhys write := by
      simp [commandHeader, leBytes]
    rw [← heq] at hone
    cases eq_of_mem_replicate (mem_of_mem_drop (mem_of_mem_take hone))
  | set _ phys write' ih =>
    rwa [headerAt_setCommandHeader _ phys write' hslot]

/-- **When the header of the slot is that of the command**: the first slot was free, or the header
stood there before, which is never so in a list of the driver. -/
theorem issued_header_iff {reads : PortReads} {commandList commandList' : List UInt8}
    {commandTablePhys slot : Nat} {write : Bool}
    (h : ahciRw reads commandList commandTablePhys write = (.ok slot, commandList')) :
    (headerAt commandList' slot = commandHeader commandTablePhys write ↔
      (reads.sact ||| reads.ci) &&& 1 = 0 ∨
        headerAt commandList slot = commandHeader commandTablePhys write) ∧
    (DriverList commandList →
      (headerAt commandList' slot = commandHeader commandTablePhys write ↔
        (reads.sact ||| reads.ci) &&& 1 = 0)) := by
  rw [ahciRw] at h
  split at h
  · split at h
    · cases h
    · rename_i found hfound
      obtain ⟨rfl, rfl⟩ : found = slot ∧ setCommandHeader commandList commandTablePhys write =
          commandList' := by simpa using h
      rw [← findFreeSlot_eq_zero_iff hfound]
      by_cases hzero : found = 0
      · subst hzero
        have hfirst : headerAt (setCommandHeader commandList commandTablePhys write) 0 =
            commandHeader commandTablePhys write := take_left' rfl
        exact ⟨iff_of_true hfirst (.inl rfl), fun _ => iff_of_true hfirst rfl⟩
      · rw [headerAt_setCommandHeader _ _ _ hzero, or_iff_right hzero]
        exact ⟨Iff.rfl, fun hdriver => iff_of_false (hdriver.headerAt_ne hzero _ _) hzero⟩
  · cases h

/-- A port that is ready, with a command still in its first slot. -/
def occupiedPort : PortReads := ⟨fun _ => 0, 0x1f00, 0, 1⟩

/-- The command list after the first command of a driver, a read. -/
def usedList : List UInt8 := setCommandHeader (List.replicate 1024 0) 0x5000 false

/-- **A command is issued in the second slot, whose header is empty.** -/
theorem issued_without_header :
    ahciRw occupiedPort usedList 0x5000 true = (.ok 1, setCommandHeader usedList 0x5000 true) ∧
      headerAt (setCommandHeader usedList 0x5000 true) 1 = List.replicate 16 0 ∧
      commandHeader 0x5000 true ≠ List.replicate 16 0 := by
  decide +kernel

theorem issued_header_read :
    headerAt (setCommandHeader usedList 0x5000 true) 0 = commandHeader 0x5000 true := by
  have hissued : ahciRw { occupiedPort with ci := 0 } usedList 0x5000 true =
      (.ok 0, setCommandHeader usedList 0x5000 true) := rfl
  exact ((issued_header_iff hissued).2 (.set .clear _ _)).2 rfl

end Krust.Drivers
