import Krust.Fs.Defs
import Krust.Lib.Memory
import Krust.Lib.Prog

/-!
# Block devices

A device is read and written by sectors, and the default methods of `BlockDevice` make reads and
writes of any range of bytes out of that: `read_bytes` copies out of the sectors one after the
other, and `write_bytes` reads a sector that is covered in part before it writes it back.

What is on the device is one flat memory, in which sector `s` begins at `s` times the size of a
sector.  Any access may fail.  `Disk.faults` decides which: each access takes the next element, and
fails if that says so; a device whose list is used up does not fail any more.  A failed access
leaves the device as it was.

As long as no access fails, `read_bytes` and `write_bytes` are reads and writes of the flat memory
(`run_readBytes`, `run_writeBytes`).
-/

set_option autoImplicit false

namespace Krust.Block

open Lib Prog List

structure BlockDevice where
  sectorSize : Nat
  sectorCount : Nat
  /-- Whether the kernel that uses it was built with overflow checks. -/
  overflowChecks : Bool
  deriving DecidableEq

structure Access where
  write : Bool
  sector : Nat
  deriving DecidableEq

structure Disk where
  data : Nat → UInt8
  /-- Whether the next accesses fail. -/
  faults : List (Access → Option DeviceError)
  /-- How many accesses have failed.  No code looks at it. -/
  failures : Nat

/-- What becomes of the next access. -/
def Disk.next (d : Disk) (a : Access) : Option DeviceError × Disk :=
  match d.faults with
  | [] => (none, d)
  | f :: faults =>
    match f a with
    | none => (none, { d with faults := faults })
    | some e => (some e, { d with faults := faults, failures := d.failures + 1 })

variable {buf : List UInt8} {len offset sector : Nat}

namespace BlockDevice

variable (dev : BlockDevice)

def capacity : Nat := dev.sectorSize * dev.sectorCount

def access (a : Access) : Prog Disk DeviceError Unit := do
  let fault ← step fun d : Disk => d.next a
  match fault with
  | none => return ()
  | some e => fail e

/-- There is no such sector. -/
def reject {α : Type} : Prog Disk DeviceError α := do
  update fun d => { d with failures := d.failures + 1 }
  fail .invalidArgument

def readSector (sector : Nat) : Prog Disk DeviceError (List UInt8) :=
  if dev.sectorCount ≤ sector then reject
  else do
    access ⟨false, sector⟩
    load fun d => window d.data (sector * dev.sectorSize) dev.sectorSize

def writeSector (sector : Nat) (buf : List UInt8) : Prog Disk DeviceError Unit :=
  if dev.sectorCount ≤ sector then reject
  else do
    access ⟨true, sector⟩
    update fun d => { d with data := blit d.data (sector * dev.sectorSize) buf }

/-- The loop of `read_bytes`: what is read from here on. -/
def readLoop : Nat → Nat → Nat → Prog Disk DeviceError (List UInt8)
  | 0, _, _ => return []
  | fuel + 1, offset, len =>
    if len = 0 then return []
    else if dev.sectorCount ≤ offset / dev.sectorSize then reject
    else do
      let sectorBuf ← dev.readSector (offset / dev.sectorSize)
      let start := offset % dev.sectorSize
      let chunk := min len (dev.sectorSize - start)
      let next ← ofOption (fit dev.overflowChecks (2 ^ 64) (offset + chunk))
      let rest ← readLoop fuel next (len - chunk)
      return slice sectorBuf start chunk ++ rest

/-- `read_bytes`: the buffer after the call. -/
def readBytes (offset : Nat) (buf : List UInt8) : Prog Disk DeviceError (List UInt8) :=
  if dev.sectorSize = 0 ∨ buf = [] then return buf
  else dev.readLoop buf.length offset buf.length

/-- The sector before a part of it is overwritten.  One that is overwritten as a whole is not
read. -/
def fetchSector (sector chunk : Nat) : Prog Disk DeviceError (List UInt8) :=
  if chunk ≠ dev.sectorSize then dev.readSector sector
  else return List.replicate dev.sectorSize 0

/-- The loop of `write_bytes`, with what is still to be written. -/
def writeLoop : Nat → Nat → List UInt8 → Prog Disk DeviceError Unit
  | 0, _, _ => return ()
  | fuel + 1, offset, buf =>
    if buf = [] then return ()
    else if dev.sectorCount ≤ offset / dev.sectorSize then reject
    else do
      let start := offset % dev.sectorSize
      let chunk := min buf.length (dev.sectorSize - start)
      let sectorBuf ← dev.fetchSector (offset / dev.sectorSize) chunk
      dev.writeSector (offset / dev.sectorSize) (overwrite sectorBuf start (buf.take chunk))
      let next ← ofOption (fit dev.overflowChecks (2 ^ 64) (offset + chunk))
      writeLoop fuel next (buf.drop chunk)

def writeBytes (offset : Nat) (buf : List UInt8) : Prog Disk DeviceError Unit :=
  if dev.sectorSize = 0 ∨ buf = [] then return ()
  else dev.writeLoop buf.length offset buf

/-! ## One access -/

theorem run_access_eq (a : Access) (d : Disk) :
    run (access a) d =
      match d.next a with
      | (none, d') => (some (.ok ()), d')
      | (some e, d') => (some (.error e), d') := by
  have hstep : run (step (fun d : Disk => d.next a) : Prog Disk DeviceError _) d =
      (some (.ok (d.next a).1), (d.next a).2) := rfl
  refine (run_bind_ok hstep _).trans ?_
  rcases d.next a with ⟨_ | e, d'⟩ <;> rfl

theorem readSector_returns (sector : Nat) (d : Disk) :
    ∃ r, (run (dev.readSector sector) d).1 = some r := by
  rw [readSector]
  split
  · exact ⟨_, rfl⟩
  have haccess := run_access_eq ⟨false, sector⟩ d
  rcases hnext : d.next ⟨false, sector⟩ with ⟨_ | e, d'⟩
  · rw [hnext] at haccess
    exact ⟨_, congrArg Prod.fst (run_bind_ok haccess _)⟩
  · rw [hnext] at haccess
    exact ⟨_, congrArg Prod.fst (run_bind_error haccess _)⟩

/-! ## A device that does not fail -/

variable {α β : Type}

/-- On a device that does not fail, the program returns what it makes of the data. -/
def Makes (p : Prog Disk DeviceError α) (out : (Nat → UInt8) → α × (Nat → UInt8)) : Prop :=
  ∀ d : Disk, d.faults = [] →
    run p d = (some (.ok (out d.data).1), { d with data := (out d.data).2 })

section Makes

variable {p : Prog Disk DeviceError α} {k : α → Prog Disk DeviceError β}
  {out : (Nat → UInt8) → α × (Nat → UInt8)} {g : α → (Nat → UInt8) → β × (Nat → UInt8)}

theorem makes_access (a : Access) : Makes (access a) fun m => ((), m) := by
  rintro ⟨data, faults, failures⟩ rfl
  rfl

theorem Makes.bind (hp : Makes p out) (hk : ∀ a, Makes (k a) (g a)) :
    Makes (Prog.bind p k) fun m => g (out m).1 (out m).2 := by
  intro d hd
  rw [run_bind_ok (hp d hd)]
  exact hk _ _ hd

end Makes

variable {dev}

theorem makes_readSector (h : sector < dev.sectorCount) : Makes (dev.readSector sector)
    fun m => (window m (sector * dev.sectorSize) dev.sectorSize, m) := by
  rw [readSector, if_neg (not_le.2 h)]
  exact (makes_access _).bind
    (g := fun _ m => (window m (sector * dev.sectorSize) dev.sectorSize, m)) fun _ _ _ => rfl

theorem makes_writeSector (h : sector < dev.sectorCount) (buf : List UInt8) :
    Makes (dev.writeSector sector buf) fun m => ((), blit m (sector * dev.sectorSize) buf) := by
  rw [writeSector, if_neg (not_le.2 h)]
  exact (makes_access _).bind (g := fun _ m => ((), blit m (sector * dev.sectorSize) buf))
    fun _ _ _ => rfl

/-! ## Ranges of bytes -/

/-- The sector of an offset exists, and the offset after the part of it that is asked for is not too
large. -/
theorem sector_bounds (hfit : dev.capacity ≤ USIZE_MAX) (hlen : 0 < len)
    (hin : offset + len ≤ dev.capacity) :
    offset / dev.sectorSize < dev.sectorCount ∧
      fit dev.overflowChecks (2 ^ 64)
        (offset + min len (dev.sectorSize - offset % dev.sectorSize)) =
      some (offset + min len (dev.sectorSize - offset % dev.sectorSize)) := by
  refine ⟨Nat.div_lt_of_lt_mul ?_, fit_of_lt ?_⟩
  · rw [capacity] at hin
    omega
  · have hmax : USIZE_MAX < 2 ^ 64 := by decide
    omega

/-- Each time a part of one sector is handled, and at least one byte. -/
theorem chunk_bounds (hss : 0 < dev.sectorSize) (offset : Nat) (hlen : 0 < len) :
    0 < min len (dev.sectorSize - offset % dev.sectorSize) ∧
      offset % dev.sectorSize + min len (dev.sectorSize - offset % dev.sectorSize) ≤
        dev.sectorSize := by
  have hmod := Nat.mod_lt offset hss
  omega

section Ranges

variable (hss : 0 < dev.sectorSize) (hfit : dev.capacity ≤ USIZE_MAX)
include hss hfit

theorem makes_readLoop (fuel : Nat) : ∀ offset len, len ≤ fuel → offset + len ≤ dev.capacity →
    Makes (dev.readLoop fuel offset len) fun m => (window m offset len, m) := by
  induction fuel with
  | zero =>
    intro offset len hlen _
    rw [Nat.le_zero.1 hlen]
    exact fun _ _ => rfl
  | succ fuel ih =>
    intro offset len hlen hin
    rw [readLoop]
    split
    · rename_i hzero
      rw [hzero]
      exact fun _ _ => rfl
    rename_i hne
    have hpos := Nat.pos_of_ne_zero hne
    obtain ⟨hsector, hnext⟩ := sector_bounds hfit hpos hin
    obtain ⟨hchunk, hpart⟩ := chunk_bounds hss offset hpos
    generalize hn : min len (dev.sectorSize - offset % dev.sectorSize) = chunk at *
    have hslice : ∀ m : Nat → UInt8, window m offset len =
        slice (window m (offset / dev.sectorSize * dev.sectorSize) dev.sectorSize)
          (offset % dev.sectorSize) chunk ++ window m (offset + chunk) (len - chunk) := by
      intro m
      rw [slice, take_drop_window _ _ _ hpart, Nat.div_add_mod', ← window_add,
        Nat.add_sub_cancel' (by omega)]
    rw [if_neg (not_le.2 hsector)]
    dsimp only
    rw [hn, hnext]
    simp only [hslice]
    refine (makes_readSector hsector).bind (g := fun sectorBuf m => (slice sectorBuf
      (offset % dev.sectorSize) chunk ++ window m (offset + chunk) (len - chunk), m)) fun _ => ?_
    exact (ih (offset + chunk) (len - chunk) (by omega) (by omega)).bind
      (g := fun rest m => (slice _ _ _ ++ rest, m)) fun _ _ _ => rfl

/-- **Reading reads the flat memory.** -/
theorem makes_readBytes (hin : offset + buf.length ≤ dev.capacity) :
    Makes (dev.readBytes offset buf) fun m => (window m offset buf.length, m) := by
  rw [readBytes]
  split_ifs with h
  · rcases h with h | rfl
    · omega
    · exact fun _ _ => rfl
  · exact makes_readLoop hss hfit _ _ _ le_rfl hin

omit hss hfit in
/-- Whether a sector is read or not, what is written back changes only the part. -/
theorem makes_fetchSector (hsector : offset / dev.sectorSize < dev.sectorCount) {chunk : Nat}
    (hpart : offset % dev.sectorSize + chunk ≤ dev.sectorSize) :
    ∃ f : (Nat → UInt8) → List UInt8,
      Makes (dev.fetchSector (offset / dev.sectorSize) chunk) (fun m => (f m, m)) ∧
      ∀ m part, part.length = chunk → blit m (offset / dev.sectorSize * dev.sectorSize)
        (overwrite (f m) (offset % dev.sectorSize) part) = blit m offset part := by
  rw [fetchSector]
  split_ifs with hwhole
  · refine ⟨_, makes_readSector hsector, fun m part h => ?_⟩
    rw [blit_overwrite_window _ _ _ (h ▸ hpart), Nat.div_add_mod']
  · refine ⟨fun _ => List.replicate dev.sectorSize 0, fun _ _ => rfl, fun m part h => ?_⟩
    have hstart : offset % dev.sectorSize = 0 := by omega
    rw [hstart, overwrite_eq_self (by rw [length_replicate]; omega),
      Nat.div_mul_cancel (Nat.dvd_of_mod_eq_zero hstart)]

theorem makes_writeLoop (fuel : Nat) : ∀ (offset : Nat) (buf : List UInt8), buf.length ≤ fuel →
    offset + buf.length ≤ dev.capacity →
      Makes (dev.writeLoop fuel offset buf) fun m => ((), blit m offset buf) := by
  have hnil : ∀ fuel offset,
      Makes (dev.writeLoop fuel offset []) fun m => ((), blit m offset []) := by
    intro fuel offset d _
    dsimp only
    rw [blit_nil]
    cases fuel <;> rfl
  induction fuel with
  | zero =>
    intro offset buf hlen _
    rw [length_eq_zero_iff.1 (Nat.le_zero.1 hlen)]
    exact hnil 0 offset
  | succ fuel ih =>
    intro offset buf hlen hin
    rcases eq_or_ne buf [] with rfl | hne
    · exact hnil _ offset
    have hpos := length_pos_iff.2 hne
    obtain ⟨hsector, hnext⟩ := sector_bounds hfit hpos hin
    obtain ⟨hchunk, hpart⟩ := chunk_bounds hss offset hpos
    generalize hn : min buf.length (dev.sectorSize - offset % dev.sectorSize) = chunk at *
    obtain ⟨f, hfetch, hblit⟩ := makes_fetchSector hsector hpart
    have htake : (buf.take chunk).length = chunk := by rw [length_take]; omega
    have hdrop : (buf.drop chunk).length = buf.length - chunk := length_drop
    have hout : ∀ m : Nat → UInt8, blit m offset buf =
        blit (blit m (offset / dev.sectorSize * dev.sectorSize) (overwrite (f m)
          (offset % dev.sectorSize) (buf.take chunk))) (offset + chunk) (buf.drop chunk) := by
      intro m
      have happend := blit_append m offset (buf.take chunk) (buf.drop chunk)
      rw [htake, take_append_drop] at happend
      rw [hblit m _ htake, happend]
    rw [writeLoop, if_neg hne, if_neg (not_le.2 hsector)]
    dsimp only
    rw [hn, hnext]
    simp only [hout]
    refine hfetch.bind (g := fun sectorBuf m => ((), blit (blit m (offset / dev.sectorSize *
      dev.sectorSize) (overwrite sectorBuf (offset % dev.sectorSize) (buf.take chunk)))
        (offset + chunk) (buf.drop chunk))) fun _ => ?_
    exact (makes_writeSector hsector _).bind
      (g := fun _ m => ((), blit m (offset + chunk) (buf.drop chunk)))
      fun _ => ih _ _ (by omega) (by omega)

/-- **Writing overwrites a part of the flat memory.** -/
theorem makes_writeBytes (hin : offset + buf.length ≤ dev.capacity) :
    Makes (dev.writeBytes offset buf) fun m => ((), blit m offset buf) := by
  rw [writeBytes]
  split_ifs with h
  · rcases h with h | rfl
    · omega
    · exact makes_writeLoop hss hfit 0 _ _ le_rfl hin
  · exact makes_writeLoop hss hfit _ _ _ le_rfl hin

end Ranges

variable (dev)

section NoFaults

variable {d : Disk} (hd : d.faults = []) (hss : 0 < dev.sectorSize)
  (hfit : dev.capacity ≤ USIZE_MAX)
  (hin : offset + buf.length ≤ dev.capacity)
include hd hss hfit hin

theorem run_readBytes :
    run (dev.readBytes offset buf) d = (some (.ok (window d.data offset buf.length)), d) :=
  makes_readBytes hss hfit hin d hd

theorem run_writeBytes :
    run (dev.writeBytes offset buf) d =
      (some (.ok ()), { d with data := blit d.data offset buf }) :=
  makes_writeBytes hss hfit hin d hd

/-- **The device is one flat memory**: after any writes a read finds what was written last. -/
theorem run_writes_read (ws : List (Nat × List UInt8))
    (hws : ∀ w ∈ ws, w.1 + w.2.length ≤ dev.capacity) :
    let d' := ws.foldl (fun d w => { d with data := blit d.data w.1 w.2 }) d
    run (do forEach (fun w => dev.writeBytes w.1 w.2) ws; dev.readBytes offset buf) d =
      (some (.ok (window d'.data offset buf.length)), d') := by
  induction ws generalizing d with
  | nil => exact dev.run_readBytes hd hss hfit hin
  | cons w ws ih =>
    rw [forall_mem_cons] at hws
    rw [bind_eq, run_bind, forEach, run_bind_ok (dev.run_writeBytes hd hss hfit hws.1), ← run_bind]
    exact ih hd hws.2

end NoFaults

theorem run_writes_read_overlap :
    let dev : BlockDevice := ⟨2, 3, true⟩
    (run (do forEach (fun w => dev.writeBytes w.1 w.2) [(1, [5, 6, 7]), (2, [8])]
             dev.readBytes 0 [0, 0, 0, 0]) ⟨fun _ => 0, [], 0⟩).1 = some (.ok [0, 5, 8, 7]) :=
  congrArg Prod.fst (run_writes_read _ rfl (by decide) (by decide) (by decide) _ (by decide))

end BlockDevice

end Krust.Block
