import Krust.Fat.Table

/-!
# The table on a device that does not fail

On such a device each operation on the table is a function of what is on the device.  Writing an
entry changes the entry of one cluster and nothing outside of the table (`Volume.entry_setEntry`,
`Volume.setEntry_of_le`), so the table can be seen as a function from clusters to entries, and what
lies behind it as a memory of its own.  An allocation takes a cluster whose entry is 0
(`Volume.run_allocateCluster`).
-/

set_option autoImplicit false

namespace Krust.Fat

open Lib Prog Block List FatType FatFsInner FatState

/-- A volume whose geometry is in order, as it is after `mount` if the boot sector fits. -/
structure Volume extends FatFsInner where
  regular : toFatFsInner.Regular

variable {a current i offset : Nat} (t : FatType)

namespace FatState

def data (s : FatState) : Nat → UInt8 := s.disk.data

/-- The state with something else on the device. -/
def withData (s : FatState) (m : Nat → UInt8) : FatState :=
  { s with disk := { s.disk with data := m } }

/-- The device does not fail any more. -/
def Reliable (s : FatState) : Prop := s.disk.faults = []

@[simp] theorem data_withData (s : FatState) (m : Nat → UInt8) : (s.withData m).data = m := rfl

end FatState

namespace Volume

variable {s : FatState}

/-! ## Bytes -/

theorem run_onDevice {α : Type} (p : Prog Disk DeviceError α) (s : FatState) :
    run (onDevice p) s =
      ((run p s.disk).1.map (·.mapError mapDeviceError), { s with disk := (run p s.disk).2 }) :=
  run_embed disk (fun d s => { s with disk := d }) mapDeviceError p s

end Volume

namespace FatFsInner.TablesFit

variable {v : FatFsInner} (h : v.TablesFit) {s : FatState}

include h

theorem run_readBytes (hs : s.Reliable) {len : Nat} (hin : offset + len ≤ v.device.capacity) :
    run (v.readBytes offset len) s = (some (.ok (window s.data offset len)), s) := by
  have hlen : offset + (replicate len (0 : UInt8)).length ≤ v.device.capacity := by
    rw [length_replicate]
    exact hin
  have hread := v.device.run_readBytes hs (h.sectorSize ▸ h.positive) h.capacity hlen
  rw [readBytes, Volume.run_onDevice, hread, length_replicate]
  rfl

theorem run_writeBytes (hs : s.Reliable) {buf : List UInt8}
    (hin : offset + buf.length ≤ v.device.capacity) :
    run (v.writeBytes offset buf) s = (some (.ok ()), s.withData (blit s.data offset buf)) := by
  have hwrite := v.device.run_writeBytes hs (h.sectorSize ▸ h.positive) h.capacity hin
  rw [writeBytes, Volume.run_onDevice, hwrite]
  rfl

theorem run_readWord (hs : s.Reliable) {w : Nat} (hin : offset + w ≤ v.device.capacity) :
    run (v.readWord offset w) s = (some (.ok (leValue (window s.data offset w))), s) :=
  run_bind_ok (h.run_readBytes hs hin) _

end FatFsInner.TablesFit

/-! ## Where the entries are -/

namespace FatFsInner

variable (v : FatFsInner)

def fatStart (i : Nat) : Nat := (v.firstFatSector + i * v.bpb.fatSize.toNat) * v.sectorSize

/-- The entry of a cluster lies inside the table. -/
def HasEntry (c : Nat) : Prop :=
  v.fatType.entryStart c + v.fatType.entryWidth ≤ v.bpb.fatSize.toNat * v.sectorSize

theorem fatStart_add_le {j : Nat} (hij : i < j) :
    v.fatStart i + v.bpb.fatSize.toNat * v.sectorSize ≤ v.fatStart j := by
  have hmul : (i + 1) * v.bpb.fatSize.toNat ≤ j * v.bpb.fatSize.toNat := Nat.mul_le_mul_right _ hij
  rw [add_mul] at hmul
  rw [fatStart, ← add_mul]
  exact Nat.mul_le_mul_right _ (by omega)

end FatFsInner

theorem FatType.entryEnd_eq (c : Nat) : t.entryEnd c = t.entryStart c + t.entryWidth := by
  cases t <;> rfl

/-! ## Reading and writing an entry -/

theorem run_onEntry {α : Type} (p : Op α) (s : FatState) :
    run (onEntry p) s =
      match run p s with
      | (some r, s') => (some r, { s' with
          entryFailures := s'.entryFailures + (s'.disk.failures - s.disk.failures) })
      | (none, s') => (none, s') := by
  refine (run_bind (attempt p) _ s).trans ?_
  rw [run_attempt]
  rcases run p s with ⟨_ | _ | _, s'⟩ <;> rfl

/-- An access to an entry that does not fail. -/
theorem run_onEntry_ok {α : Type} {p : Op α} {a : α} {s s' : FatState}
    (h : run p s = (some (.ok a), s')) (hfailures : s'.disk.failures = s.disk.failures) :
    run (onEntry p) s = (some (.ok a), s') := by
  rw [run_onEntry, h]
  dsimp only
  rw [hfailures, Nat.sub_self, Nat.add_zero]

namespace FatFsInner

variable (v : FatFsInner) {s : FatState} {c : Nat}

/-- The device after the entry of a cluster has been written in one copy of the table. -/
def putEntry (i c value : Nat) (data : Nat → UInt8) : Nat → UInt8 :=
  blit data (v.fatStart i + v.fatType.entryStart c)
    (leBytes v.fatType.entryWidth (v.fatType.encode c
      (leValue (window data (v.fatStart i + v.fatType.entryStart c) v.fatType.entryWidth)) value))

/-- The device after the entry of a cluster has been written in every copy. -/
def setEntry (c value : Nat) (data : Nat → UInt8) : Nat → UInt8 :=
  (List.range v.bpb.numFats.toNat).foldl (fun data i => v.putEntry i c value data) data

namespace TablesFit

variable {v} (h : v.TablesFit) (hs : s.Reliable) (hc : v.HasEntry c)

include h hc

theorem entry_le (hi : i < v.bpb.numFats.toNat) :
    v.fatStart i + v.fatType.entryStart c + v.fatType.entryWidth ≤ v.device.capacity := by
  have hle := (Nat.mul_le_mul_right v.sectorSize (v.fat_add_le hi)).trans h.inside
  rw [add_mul, ← fatStart] at hle
  rw [HasEntry] at hc
  omega

include hs

theorem run_readFatEntry : run (v.readFatEntry c) s = (some (.ok (v.entry s.data c)), s) := by
  have hfat := h.fatOffset_eq h.numFats
  have hin := h.entry_le hc h.numFats
  rw [zero_mul] at hfat
  rw [fatStart, zero_mul] at hin
  rw [readFatEntry, hfat]
  exact run_unwrapOr_ok (run_onEntry_ok (run_bind_ok (h.run_readWord hs hin) _) rfl) 0

theorem run_writeFatCopy (value : Nat) (hi : i < v.bpb.numFats.toNat) :
    run (v.writeFatCopy c value i) s =
      (some (.ok ()), s.withData (v.putEntry i c value s.data)) := by
  have hin := h.entry_le hc hi
  -- A 16 bit entry is not read, and what would have been read does not matter.
  obtain ⟨current, hcurrent, hencode⟩ : ∃ current,
      run (v.currentWord (v.fatStart i + v.fatType.entryStart c)) s = (some (.ok current), s) ∧
        v.fatType.encode c current value = v.fatType.encode c (leValue (window s.data
          (v.fatStart i + v.fatType.entryStart c) v.fatType.entryWidth)) value := by
    rw [currentWord]
    cases ht : v.fatType with
    | fat12 =>
      rw [ht] at hin
      exact ⟨_, h.run_readWord hs hin, rfl⟩
    | fat16 => exact ⟨0, rfl, rfl⟩
    | fat32 =>
      rw [ht] at hin
      exact ⟨_, h.run_readWord hs hin, rfl⟩
  rw [writeFatCopy, h.fatOffset_eq hi]
  refine run_unwrapOr_ok (run_onEntry_ok (s := s) ?_ (by exact rfl)) ()
  refine (run_bind_ok hcurrent _).trans ?_
  refine (h.run_writeBytes hs ?_).trans ?_
  · rw [length_leBytes]
    exact hin
  · rw [hencode]
    rfl

theorem run_writeFatEntry (value : Nat) :
    run (v.writeFatEntry c value) s = (some (.ok ()), s.withData (v.setEntry c value s.data)) := by
  have hfold : ∀ (is : List Nat) (s : FatState),
      is.foldl (fun s i => s.withData (v.putEntry i c value s.data)) s =
        s.withData (is.foldl (fun data i => v.putEntry i c value data) s.data) := by
    intro is
    induction is with
    | nil => intro s; rfl
    | cons i is ih => intro s; exact ih _
  rw [setEntry, ← hfold]
  refine run_forEach (P := FatState.Reliable)
    (g := fun i s => s.withData (v.putEntry i c value s.data)) (fun i hi s hs => ⟨?_, hs⟩) hs
  exact h.run_writeFatCopy hs hc value (mem_range.1 hi)

end TablesFit

end FatFsInner

namespace Volume

variable (v : Volume) {c : Nat}

theorem tables : v.TablesFit := v.regular.tables

def fatEnd : Nat := v.rootDirSector * v.sectorSize

def IsCluster (c : Nat) : Prop := 2 ≤ c ∧ c ≤ v.totalClusters + 1

theorem fatStart_le (hi : i < v.bpb.numFats.toNat) :
    v.fatStart i + v.bpb.fatSize.toNat * v.sectorSize ≤ v.fatEnd := by
  rw [fatStart, ← add_mul]
  exact Nat.mul_le_mul_right _ (v.regular.fat_le hi)

theorem entry_le (hc : v.IsCluster c) : v.HasEntry c := by
  rw [HasEntry, ← entryEnd_eq]
  exact v.regular.covers c hc.1 hc.2

theorem entry_le_fatEnd (hc : v.IsCluster c) (hi : i < v.bpb.numFats.toNat) :
    v.fatStart i + v.fatType.entryStart c + v.fatType.entryWidth ≤ v.fatEnd := by
  have hentry := v.entry_le hc
  have hfat := v.fatStart_le hi
  rw [HasEntry] at hentry
  omega

end Volume

def FatType.limit : FatType → Nat
  | .fat12 => 2 ^ 12
  | .fat16 => 2 ^ 16
  | .fat32 => 2 ^ 28

section Encoding

variable (c value : Nat)

theorem FatType.decode_fat12 :
    FatType.decode .fat12 c value = if c % 2 = 0 then value % 4096 else value / 16 := by
  rw [decode, Nat.and_one_is_mod, Nat.shiftRight_eq_div_pow]
  congr 1
  exact Nat.and_two_pow_sub_one_eq_mod value 12

theorem FatType.encode_fat12 (h : current < 2 ^ 16) :
    FatType.encode .fat12 c current value =
      if c % 2 = 0 then current / 4096 * 4096 + value % 4096
      else value % 4096 * 16 + current % 16 := by
  rw [encode, Nat.and_one_is_mod]
  congr 1
  · exact splice_low_bits (n := 12) (k := 4) h
  · exact splice_high_bits current value 12 4

theorem FatType.decode_fat32 :
    FatType.decode .fat32 c value = value % 2 ^ 28 := Nat.and_two_pow_sub_one_eq_mod value 28

theorem FatType.encode_fat32 (h : current < 2 ^ 32) :
    FatType.encode .fat32 c current value = current / 2 ^ 28 * 2 ^ 28 + value % 2 ^ 28 :=
  splice_low_bits (n := 28) (k := 4) h

theorem FatType.decode_encode (h : current < 256 ^ t.entryWidth) :
    t.decode c (t.encode c current value % 256 ^ t.entryWidth) = value % t.limit := by
  cases t with
  | fat12 =>
    rw [entryWidth] at h ⊢
    rw [decode_fat12, encode_fat12 c value (by omega), limit]
    split <;> omega
  | fat16 => rfl
  | fat32 =>
    rw [entryWidth] at h ⊢
    rw [decode_fat32, encode_fat32 c value (by omega), limit]
    omega

end Encoding

namespace FatFsInner

variable (v : FatFsInner) {c c' : Nat} {m m' : Nat → UInt8}

/-- The word that an entry lies in, in one copy of the table. -/
def word (data : Nat → UInt8) (i c : Nat) : Nat :=
  leValue (window data (v.fatStart i + v.fatType.entryStart c) v.fatType.entryWidth)

theorem word_lt (data : Nat → UInt8) (i c : Nat) :
    v.word data i c < 256 ^ v.fatType.entryWidth := by
  have hlt := leValue_lt (window data (v.fatStart i + v.fatType.entryStart c) v.fatType.entryWidth)
  rwa [length_window] at hlt

/-- The entries are in the first copy of the table. -/
theorem entry_eq (data : Nat → UInt8) (c : Nat) :
    v.entry data c = v.fatType.decode c (v.word data 0 c) := by
  rw [entry, word, fatStart, zero_mul, add_zero]

/-- The same bytes in a copy of the table. -/
def SameCopy (i : Nat) (m m' : Nat → UInt8) : Prop :=
  ∀ a, v.fatStart i ≤ a → a < v.fatStart i + v.bpb.fatSize.toNat * v.sectorSize → m a = m' a

variable {v} in
theorem SameCopy.word_eq (h : v.SameCopy i m m') (hc : v.HasEntry c) :
    v.word m i c = v.word m' i c := by
  rw [HasEntry] at hc
  rw [word, word, window_congr fun a ha ha' => h a (by omega) (by omega)]

variable {v} in
theorem SameCopy.entry_eq (h : v.SameCopy 0 m m') (hc : v.HasEntry c) :
    v.entry m c = v.entry m' c := by
  rw [FatFsInner.entry_eq, FatFsInner.entry_eq, h.word_eq hc]

theorem putEntry_of_notMem (i value : Nat) (data : Nat → UInt8)
    (h : a < v.fatStart i + v.fatType.entryStart c ∨
      v.fatStart i + v.fatType.entryStart c + v.fatType.entryWidth ≤ a) :
    v.putEntry i c value data a = data a := by
  exact blit_of_notMem _ (by rw [length_leBytes]; exact h)

theorem word_putEntry_self (i c value : Nat) (data : Nat → UInt8) :
    v.word (v.putEntry i c value data) i c =
      v.fatType.encode c (v.word data i c) value % 256 ^ v.fatType.entryWidth := by
  have hself := window_blit_self data (v.fatStart i + v.fatType.entryStart c)
    (leBytes v.fatType.entryWidth (v.fatType.encode c (v.word data i c) value))
  rw [length_leBytes] at hself
  rw [← leValue_leBytes, ← hself]
  rfl

theorem leValue_window_two (m : Nat → UInt8) (o : Nat) :
    leValue (window m o 2) = (m o).toNat + 256 * (m (o + 1)).toNat := rfl

/-- Two entries of 12 bits share a byte, and each leaves the half of the other as it was. -/
theorem entry_putEntry_fat12 (ht : v.fatType = .fat12) (hne : c' ≠ c) (value : Nat)
    (data : Nat → UInt8) : v.entry (v.putEntry 0 c value data) c' = v.entry data c' := by
  have hlow := (data (v.fatStart 0 + c * 3 / 2)).toNat_lt
  have hhigh := (data (v.fatStart 0 + c * 3 / 2 + 1)).toNat_lt
  rw [entry_eq, entry_eq, word, word, putEntry, ht]
  simp only [entryStart, entryWidth]
  rw [decode_fat12, decode_fat12, leValue_window_two, leValue_window_two,
    leValue_window_two, encode_fat12 c value (by omega)]
  generalize v.fatStart 0 = base at *
  by_cases hshare : c' = c + 1 ∧ c % 2 = 0 ∨ c = c' + 1 ∧ c' % 2 = 0
  · rcases hshare with ⟨rfl, heven⟩ | ⟨rfl, heven⟩
    · have hoffset : base + (c + 1) * 3 / 2 = base + c * 3 / 2 + 1 := by omega
      rw [if_pos heven, if_neg (by omega), if_neg (by omega), hoffset,
        blit_of_mem data (by omega) (by rw [length_leBytes]; omega) 0,
        blit_of_notMem data (by rw [length_leBytes]; omega), Nat.add_sub_cancel_left]
      change ((UInt8.ofNat _).toNat + _) / 16 = _
      rw [UInt8.toNat_ofNat']
      omega
    · have hoffset : base + (c' + 1) * 3 / 2 = base + c' * 3 / 2 + 1 := by omega
      rw [if_pos heven, if_pos heven, if_neg (by omega), hoffset,
        blit_of_notMem data (by omega), blit_of_mem data le_rfl (by rw [length_leBytes]; omega) 0,
        Nat.sub_self]
      change (_ + 256 * (UInt8.ofNat _).toNat) % 4096 = _
      rw [UInt8.toNat_ofNat']
      omega
  · rw [blit_of_notMem data (by rw [length_leBytes]; omega),
      blit_of_notMem data (by rw [length_leBytes]; omega)]

/-- **An entry changes no other entry.** -/
theorem entry_putEntry_of_ne (hne : c' ≠ c) (value : Nat) (data : Nat → UInt8) :
    v.entry (v.putEntry 0 c value data) c' = v.entry data c' := by
  by_cases h12 : v.fatType = .fat12
  · exact v.entry_putEntry_fat12 h12 hne value data
  -- The entries of the other two types are words of their own.
  rw [entry_eq, entry_eq, word, putEntry, window_blit_of_disjoint, word]
  rw [length_leBytes]
  cases ht : v.fatType <;> simp only [entryStart, entryWidth]
  · exact absurd ht h12
  · omega
  · omega

/-- Each copy of the table is written once, and the writes to the others leave it as it is. -/
theorem setEntry_copy (hi : i < v.bpb.numFats.toNat) (hc : 0 < i → v.HasEntry c) (value : Nat)
    (data : Nat → UInt8) : ∃ m, v.SameCopy i m data ∧
      v.SameCopy i (v.setEntry c value data) (v.putEntry i c value m) := by
  have hothers : ∀ (is : List Nat), i ∉ is → ∀ m,
      v.SameCopy i (is.foldl (fun m j => v.putEntry j c value m) m) m := by
    intro is
    induction is with
    | nil => intro _ m a _ _; rfl
    | cons j is ih =>
      intro hmem m a ha ha'
      rw [mem_cons, not_or] at hmem
      refine (ih hmem.2 _ a ha ha').trans (v.putEntry_of_notMem j value m ?_)
      rcases lt_or_gt_of_ne hmem.1 with hlt | hlt
      · have hle := v.fatStart_add_le hlt
        omega
      have hle := v.fatStart_add_le hlt
      have hentry := hc (Nat.zero_lt_of_lt hlt)
      rw [HasEntry] at hentry
      omega
  obtain ⟨before, after, hsplit⟩ := append_of_mem (mem_range.2 hi)
  have hnodup := nodup_range (n := v.bpb.numFats.toNat)
  rw [hsplit, nodup_append, nodup_cons] at hnodup
  obtain ⟨-, ⟨hafter, -⟩, hbefore⟩ := hnodup
  rw [setEntry, hsplit, foldl_append]
  exact ⟨_, hothers before (fun h => hbefore i h i mem_cons_self rfl) data, hothers after hafter _⟩

/-- **The table after an entry has been written.** -/
theorem entry_setEntry (hn : 0 < v.bpb.numFats.toNat) (c value : Nat) (data : Nat → UInt8)
    (hc' : v.HasEntry c') : v.entry (v.setEntry c value data) c' =
      if c' = c then value % v.fatType.limit else v.entry data c' := by
  obtain ⟨m, hbefore, hafter⟩ := v.setEntry_copy hn (fun h => absurd h (lt_irrefl 0)) value data
  rw [hafter.entry_eq hc']
  split
  · rename_i heq
    rw [heq, entry_eq, word_putEntry_self]
    exact v.fatType.decode_encode c value (v.word_lt m 0 c)
  · rename_i hne
    rw [v.entry_putEntry_of_ne hne, hbefore.entry_eq hc']

theorem word_setEntry (hi : i < v.bpb.numFats.toNat) (hc : v.HasEntry c) (value : Nat)
    (data : Nat → UInt8) : v.word (v.setEntry c value data) i c =
      v.fatType.encode c (v.word data i c) value % 256 ^ v.fatType.entryWidth := by
  obtain ⟨m, hbefore, hafter⟩ := v.setEntry_copy hi (fun _ => hc) value data
  rw [hafter.word_eq hc, word_putEntry_self, hbefore.word_eq hc]

variable {v} in
/-- **An entry that has been written is read back**, and so is each other entry as it was.  Each
copy of the table has the new entry, with the highest bits of 32 as they were. -/
theorem writeFatEntry_readFatEntry {s : FatState} (h : v.TablesFit) (hs : s.Reliable)
    (hc : v.HasEntry c) {value : Nat} (hvalue : value < v.fatType.limit) :
    ∃ s', run (v.writeFatEntry c value) s = (some (.ok ()), s') ∧
      (run (v.readFatEntry c) s').1 = some (.ok value) ∧
      (∀ c', v.HasEntry c' → c' ≠ c →
        (run (v.readFatEntry c') s').1 = (run (v.readFatEntry c') s).1) ∧
      (v.fatType = .fat32 → ∀ i < v.bpb.numFats.toNat,
        v.word s'.data i c / 2 ^ 28 = v.word s.data i c / 2 ^ 28) ∧
      ∀ i < v.bpb.numFats.toNat, v.fatType.decode c (v.word s'.data i c) = value := by
  have hs' : (s.withData (v.setEntry c value s.data)).Reliable := hs
  refine ⟨_, h.run_writeFatEntry hs hc value, ?_, fun c' hc' hne => ?_, fun ht i hi => ?_,
    fun i hi => ?_⟩
  · rw [h.run_readFatEntry hs' hc, data_withData, v.entry_setEntry h.numFats c _ _ hc,
      if_pos rfl, Nat.mod_eq_of_lt hvalue]
  · rw [h.run_readFatEntry hs' hc', data_withData, v.entry_setEntry h.numFats c _ _ hc',
      if_neg hne, h.run_readFatEntry hs hc']
  · have hlt := v.word_lt s.data i c
    rw [data_withData, v.word_setEntry hi hc]
    rw [ht, entryWidth] at hlt ⊢
    rw [encode_fat32 c value (by omega)]
    omega
  · rw [data_withData, v.word_setEntry hi hc,
      v.fatType.decode_encode c value (v.word_lt ..), Nat.mod_eq_of_lt hvalue]

end FatFsInner

namespace Volume

variable (v : Volume) {s : FatState} {c c' : Nat}

/-- What lies behind the tables does not matter for the entries. -/
theorem entry_congr_of_fatEnd {m m' : Nat → UInt8} (hc : v.IsCluster c)
    (h : ∀ a, a < v.fatEnd → m a = m' a) : v.entry m c = v.entry m' c := by
  have hle := v.fatStart_le v.regular.numFats
  exact SameCopy.entry_eq (fun a _ ha => h a (by omega)) (v.entry_le hc)

theorem entry_setEntry (c value : Nat) (data : Nat → UInt8) (hc' : v.IsCluster c') :
    v.entry (v.setEntry c value data) c' =
      if c' = c then value % v.fatType.limit else v.entry data c' :=
  v.toFatFsInner.entry_setEntry v.regular.numFats c value data (v.entry_le hc')

/-- **Writing an entry changes nothing behind the tables.** -/
theorem setEntry_of_le (hc : v.IsCluster c) (value : Nat) (data : Nat → UInt8) (ha : v.fatEnd ≤ a) :
    v.setEntry c value data a = data a := by
  have hfold : ∀ (is : List Nat), (∀ i ∈ is, i < v.bpb.numFats.toNat) → ∀ data : Nat → UInt8,
      is.foldl (fun data i => v.putEntry i c value data) data a = data a := by
    intro is
    induction is with
    | nil => intro _ data; rfl
    | cons i is ih =>
      intro his data
      have hle := v.entry_le_fatEnd hc (his i mem_cons_self)
      rw [foldl_cons, ih (forall_mem_cons.1 his).2]
      exact v.putEntry_of_notMem i value data (.inr (by omega))
  exact hfold _ (fun i hi => mem_range.1 hi) data

/-! ## Where the clusters are -/

def clusterStart (c : Nat) : Nat :=
  (v.firstDataSector + (c - 2) * v.bpb.sectorsPerCluster.toNat) * v.sectorSize

theorem clusterToOffset_eq (hc : v.IsCluster c) : v.clusterToOffset c = .ok (v.clusterStart c) :=
  v.regular.clusterToOffset_eq hc.1 hc.2

theorem le_clusterStart (c : Nat) : v.firstDataSector * v.sectorSize ≤ v.clusterStart c :=
  Nat.mul_le_mul_right _ (Nat.le_add_right ..)

theorem fatEnd_le_clusterStart (c : Nat) : v.fatEnd ≤ v.clusterStart c := by
  refine le_trans (Nat.mul_le_mul_right _ ?_) (v.le_clusterStart c)
  rw [v.regular.firstDataSector]
  exact Nat.le_add_right ..

theorem clusterStart_add (c : Nat) : v.clusterStart c + v.clusterSize =
    (v.firstDataSector + (c - 2 + 1) * v.bpb.sectorsPerCluster.toNat) * v.sectorSize := by
  rw [clusterStart, clusterSize, mul_comm v.sectorSize, ← add_mul,
    Nat.add_assoc, ← Nat.succ_mul]

theorem clusterStart_le (hc : v.IsCluster c) :
    v.clusterStart c + v.clusterSize ≤ v.device.capacity := by
  have hle := v.regular.cluster_le hc.2
  rw [if_pos hc.1, Nat.add_assoc, ← Nat.succ_mul] at hle
  rw [clusterStart_add]
  exact v.regular.sector_le hle

theorem clusterStart_add_le {c : Nat} (hc : 2 ≤ c) (hlt : c < c') :
    v.clusterStart c + v.clusterSize ≤ v.clusterStart c' := by
  rw [clusterStart_add]
  refine Nat.mul_le_mul_right _ (Nat.add_le_add_left (Nat.mul_le_mul_right _ ?_) _)
  omega

theorem cluster_disjoint {c : Nat} (hc : v.IsCluster c) (hc' : v.IsCluster c') (hne : c ≠ c') :
    v.clusterStart c + v.clusterSize ≤ v.clusterStart c' ∨
      v.clusterStart c' + v.clusterSize ≤ v.clusterStart c := by
  rcases lt_or_gt_of_ne hne with hlt | hlt
  · exact .inl (v.clusterStart_add_le hc.1 hlt)
  · exact .inr (v.clusterStart_add_le hc'.1 hlt)

theorem run_zeroCluster (hs : s.Reliable) (hc : v.IsCluster c) :
    run (v.zeroCluster c) s = (some (.ok ()), s.withData
      (blit s.data (v.clusterStart c) (List.replicate v.clusterSize 0))) := by
  rw [zeroCluster, v.clusterToOffset_eq hc]
  refine v.tables.run_writeBytes hs ?_
  rw [length_replicate]
  exact v.clusterStart_le hc

/-! ## Allocating -/

theorem eocMarker_lt : v.eocMarker < v.fatType.limit := by
  rw [eocMarker]
  cases v.fatType <;> decide

def allocated (s : FatState) (c : Nat) : FatState where
  disk := { s.disk with
    data := blit (v.setEntry c v.eocMarker s.data) (v.clusterStart c)
      (List.replicate v.clusterSize 0) }
  nextFreeHint := min (c + 1) (2 ^ 32 - 1)
  taken := (c, v.entry s.data c) :: s.taken
  entryFailures := s.entryFailures

theorem run_takeCluster (hs : s.Reliable) (hc : v.IsCluster c) :
    run (v.takeCluster c) s = (some (.ok c), v.allocated s c) := by
  refine (run_bind_ok (v.tables.run_writeFatEntry ?_ (v.entry_le hc) _) _).trans ?_
  · exact hs
  refine (run_bind_ok (v.run_zeroCluster ?_ hc) _).trans ?_
  · exact hs
  rfl

/-- The clusters in the order in which they are looked at. -/
def candidates (hint : Nat) : List Nat :=
  List.range' (max hint 2) (v.totalClusters + 2 - max hint 2) ++ List.range' 2 (max hint 2 - 2)

/-- **All clusters are looked at**, and nothing else is. -/
theorem mem_candidates {hint : Nat} (h : hint ≤ v.totalClusters + 2) :
    c ∈ v.candidates hint ↔ v.IsCluster c := by
  rw [candidates, mem_append, mem_range'_1, mem_range'_1, IsCluster]
  omega

/-- The cluster that will be allocated. -/
def freeCluster (s : FatState) : Option Nat :=
  (v.candidates s.nextFreeHint).find? fun c => decide (v.entry s.data c = 0)

theorem run_allocateLoop (hs : s.Reliable) {cs : List Nat} (hcs : ∀ c ∈ cs, v.IsCluster c) :
    run (v.allocateLoop cs) s =
      match cs.find? fun c => decide (v.entry s.data c = 0) with
      | none => (some (.error .ioError), s)
      | some c => (some (.ok c), v.allocated s c) := by
  induction cs with
  | nil => rfl
  | cons c cs ih =>
    have hc := hcs c mem_cons_self
    refine (run_bind_ok (v.tables.run_readFatEntry hs (v.entry_le hc)) _).trans ?_
    rw [find?_cons]
    split_ifs with hzero
    · rw [decide_eq_true hzero]
      exact v.run_takeCluster hs hc
    · rw [decide_eq_false hzero]
      exact ih (forall_mem_cons.1 hcs).2

/-- **What an allocation does.** -/
theorem run_allocateCluster (hs : s.Reliable) (hhint : s.nextFreeHint ≤ v.totalClusters + 2) :
    run v.allocateCluster s =
      match v.freeCluster s with
      | none => (some (.error .ioError), s)
      | some c => (some (.ok c), v.allocated s c) := by
  have hcs : ∀ c ∈ v.candidates s.nextFreeHint, v.IsCluster c :=
    fun c hc => (v.mem_candidates hhint).1 hc
  have hrun := v.run_allocateLoop hs hcs
  rw [allocateCluster]
  rw [v.regular.maxCluster_eq]
  exact hrun

/-- The device does not fail, and the hint is at most one behind the last cluster. -/
structure Ready (s : FatState) : Prop where
  reliable : s.Reliable
  hint : s.nextFreeHint ≤ v.totalClusters + 2

theorem Ready.withData {v : Volume} (h : v.Ready s) (m : Nat → UInt8) : v.Ready (s.withData m) :=
  ⟨h.reliable, h.hint⟩

theorem Ready.allocated {v : Volume} (h : v.Ready s) (hc : v.IsCluster c) :
    v.Ready (v.allocated s c) where
  reliable := h.reliable
  hint := (Nat.min_le_left _ _).trans (Nat.succ_le_succ hc.2)

/-! ## What an allocation changes -/

theorem entry_allocated (s : FatState) (c : Nat) (hc' : v.IsCluster c') :
    v.entry (v.allocated s c).data c' = if c' = c then v.eocMarker else v.entry s.data c' := by
  have hbehind : v.entry (v.allocated s c).data c' =
      v.entry (v.setEntry c v.eocMarker s.data) c' :=
    v.entry_congr_of_fatEnd hc' fun a ha => blit_of_notMem _ (.inl
      (lt_of_lt_of_le ha (v.fatEnd_le_clusterStart c)))
  rw [hbehind, v.entry_setEntry c v.eocMarker s.data hc', Nat.mod_eq_of_lt v.eocMarker_lt]

def InCluster (c a : Nat) : Prop := v.clusterStart c ≤ a ∧ a < v.clusterStart c + v.clusterSize

instance (c a : Nat) : Decidable (v.InCluster c a) := inferInstanceAs (Decidable (_ ∧ _))

theorem data_allocated (s : FatState) (hc : v.IsCluster c) (ha : v.fatEnd ≤ a) :
    (v.allocated s c).data a = if v.InCluster c a then 0 else s.data a := by
  have hlen : (replicate v.clusterSize (0 : UInt8)).length = v.clusterSize :=
    length_replicate
  split_ifs with hin
  · have hlt : a < v.clusterStart c + (replicate v.clusterSize (0 : UInt8)).length :=
      hlen.symm ▸ hin.2
    refine (blit_of_mem _ hin.1 hlt 0).trans (getD_replicate _ ?_)
    rw [InCluster] at hin
    omega
  · have hout : a < v.clusterStart c ∨
        v.clusterStart c + (replicate v.clusterSize (0 : UInt8)).length ≤ a := by
      rw [InCluster] at hin
      omega
    exact (blit_of_notMem _ hout).trans (v.setEntry_of_le hc _ _ ha)

end Volume

/-! ## A small volume -/

/-- A volume of five clusters of one sector each. -/
def smallVolume : Volume where
  device := ⟨512, 8, true⟩
  bpb := {
    bytesPerSector := 512
    sectorsPerCluster := 1
    reservedSectors := 1
    numFats := 1
    rootEntryCount := 16
    totalSectors := 8
    fatSize := 1
    rootCluster := 2 }
  fatType := .fat12
  rootDirSectors := 1
  rootDirSector := 2
  firstFatSector := 1
  firstDataSector := 3
  totalClusters := 5
  sectorSize := 512
  regular := {
    sectorSize := by decide
    bytesPerSector := by decide
    large := by decide
    capacity := by decide
    sectorsPerCluster := by decide
    reservedSectors := by decide
    numFats := by decide
    firstFatSector := by decide
    rootDirSectors := by decide
    rootDirSector := by decide
    firstDataSector := by decide
    totalSectors := by decide
    totalClusters := by decide
    room := by decide
    fatType := by decide
    covers := fun c _ hc => by
      show c * 3 / 2 + 2 ≤ 512
      change c ≤ 6 at hc
      omega }

/-- The small volume with these bytes in its table, its root directory and its clusters. -/
def smallState (table root clusters : List UInt8) : FatState where
  disk := ⟨blit (blit (blit (fun _ => 0) 512 table) 1024 root) 1536 clusters, [], 0⟩
  nextFreeHint := 2
  taken := []
  entryFailures := 0

theorem writeFatEntry_small :
    ∃ s', run (smallVolume.writeFatEntry 3 0xABC) (smallState [] [] []) = (some (.ok ()), s') ∧
      (run (smallVolume.readFatEntry 3) s').1 = some (.ok 0xABC) := by
  obtain ⟨s', hrun, hread, -⟩ := writeFatEntry_readFatEntry smallVolume.tables
    (s := smallState [] [] []) (c := 3) rfl (smallVolume.entry_le ⟨by decide, by decide⟩)
    (show 0xABC < fat12.limit by decide)
  exact ⟨s', hrun, hread⟩

end Krust.Fat
