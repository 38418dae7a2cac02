import Krust.Lib.Prog
import Mathlib.Data.List.Basic

/-!
# The scan of the PCI bus

`enumerate` reads the configuration space of one slot after the other, and reports the functions
that it finds.  Function 0 of a slot decides about the other seven: if it is there and says that it
is not the only one, the bound of the loop over the functions grows while the loop runs.

`probed` are the functions that are looked at, in their order, and looking at one adds to what has
been read and reported what `Scan.add` says (`run_enumerate`).  What is reported, and what is read
on the way, can be told from that (`enumerate_reports`).
-/

set_option autoImplicit false

namespace Krust.Drivers.Pci

open Prog List

/-! ## The source -/

/-- Bus, device and function. -/
structure Bdf where
  bus : Nat
  device : Nat
  function : Nat
  deriving DecidableEq

structure PciFunction where
  bdf : Bdf
  vendorId : UInt16
  deviceId : UInt16
  classCode : UInt8
  subclass : UInt8
  progIf : UInt8
  headerType : UInt8
  bar5 : Option UInt32

def PciFunction.isAhci (info : PciFunction) : Bool :=
  info.headerType == 0 && info.classCode == 0x01 && info.subclass == 0x06 && info.progIf == 0x01

/-- The function with this identity, header type and class, before its BAR5 is read. -/
def PciFunction.ofDwords (a : Bdf) (identity : UInt32) (header : UInt8) (classDword : UInt32) :
    PciFunction :=
  ⟨a, identity.toUInt16, (identity >>> 16).toUInt16, (classDword >>> 24).toUInt8,
    (classDword >>> 16).toUInt8, (classDword >>> 8).toUInt8, header &&& 0x7f, none⟩

/-- What the two callbacks have been given: the dwords that were read, with their offsets, and the
functions that were found. -/
structure Scan where
  reads : List (Bdf × Nat)
  found : List PciFunction

abbrev Reader (E : Type) : Type := Bdf → Nat → Except E UInt32

section Source

variable {E : Type} (config : Reader E)

def read (a : Bdf) (offset : Nat) : Prog Scan E UInt32 := do
  update fun s => { s with reads := s.reads ++ [(a, offset)] }
  ofExcept (config a offset)

def found (info : PciFunction) : Prog Scan E Unit :=
  update fun s => { s with found := s.found ++ [info] }

/-- A round of the loop over the functions: `function_count` after it. -/
def probe (a : Bdf) (functionCount : Nat) : Prog Scan E Nat := do
  let identity ← read config a 0x00
  if identity.toUInt16 ≠ 0xffff then do
    let header := ((← read config a 0x0c) >>> 16).toUInt8
    let functionCount := if a.function = 0 ∧ header &&& 0x80 ≠ 0 then 8 else functionCount
    let info : PciFunction := .ofDwords a identity header (← read config a 0x08)
    if info.isAhci then
      let abar ← read config a 0x24
      found { info with bar5 := some (abar &&& 0xffff_fff0) }
    else found info
    return functionCount
  else return functionCount

/-- The loop over the functions.  There are no more than eight rounds. -/
def functionLoop (bus device : Nat) : Nat → Nat → Nat → Prog Scan E Unit
  | 0, _, _ => hang
  | fuel + 1, function, functionCount =>
    if function < functionCount then do
      let functionCount ← probe config ⟨bus, device, function⟩ functionCount
      functionLoop bus device fuel (function + 1) functionCount
    else return ()

def enumerate : Prog Scan E Unit :=
  forEach (fun bus => forEach (fun device => functionLoop config bus device 9 0 1) (List.range 32))
    (List.range 256)

end Source

/-! ## What is looked at -/

variable {E : Type} (config : Bdf → Nat → UInt32) {a : Bdf}

/-- No read fails. -/
def readable : Reader E := fun a offset => .ok (config a offset)

/-- There is a function: its vendor is not `0xFFFF`. -/
def present (a : Bdf) : Bool := (config a 0x00).toUInt16 ≠ 0xffff

def headerAt (a : Bdf) : UInt8 := (config a 0x0c >>> 16).toUInt8

/-- What the configuration space says about a function. -/
def functionAt (a : Bdf) : PciFunction :=
  let info : PciFunction := .ofDwords a (config a 0x00) (headerAt config a) (config a 0x08)
  if info.isAhci then { info with bar5 := some (config a 0x24 &&& 0xffff_fff0) } else info

/-- The function is not the only one of its slot. -/
def multifunction (a : Bdf) : Bool := present config a && headerAt config a &&& 0x80 != 0

def offsets (a : Bdf) : List Nat :=
  0x00 :: if present config a then
    0x0c :: 0x08 :: if (functionAt config a).isAhci then [0x24] else [] else []

/-- A function has been looked at. -/
def Scan.add (s : Scan) (a : Bdf) : Scan :=
  ⟨s.reads ++ (offsets config a).map (a, ·),
    s.found ++ if present config a then [functionAt config a] else []⟩

def slot (bus device : Nat) : List Bdf :=
  (List.range (if multifunction config ⟨bus, device, 0⟩ then 8 else 1)).map (⟨bus, device, ·⟩)

/-- All functions that are looked at. -/
def probed : List Bdf :=
  (List.range 256).flatMap fun bus => (List.range 32).flatMap (slot config bus)

theorem isAhci_functionAt (a : Bdf) : (functionAt config a).isAhci =
    (PciFunction.ofDwords a (config a 0x00) (headerAt config a) (config a 0x08)).isAhci := by
  rw [functionAt]
  split <;> rfl

/-- **One round.** -/
theorem run_probe (a : Bdf) (functionCount : Nat) (s : Scan) :
    run (probe (readable config : Reader E) a functionCount) s =
      (some (.ok (if a.function = 0 ∧ multifunction config a then 8 else functionCount)),
        s.add config a) := by
  have hread (offset : Nat) (s : Scan) :
      run (read (readable config : Reader E) a offset) s =
        (some (.ok (config a offset)), { s with reads := s.reads ++ [(a, offset)] }) := rfl
  rw [probe, bind_eq, run_bind_ok (hread _ _), Scan.add, offsets, multifunction, isAhci_functionAt,
    functionAt]
  by_cases hpresent : present config a
  · rw [if_pos (by simpa [present] using hpresent), bind_eq, run_bind_ok (hread _ _), bind_eq,
      run_bind_ok (hread _ _)]
    simp only [hpresent, if_true, Bool.true_and, bne_iff_ne, headerAt]
    split_ifs <;> simp [*, run_bind, found, update, step, run]
  · have habsent : (config a 0x00).toUInt16 = 0xffff := by simpa [present] using hpresent
    rw [if_neg (not_not.2 habsent)]
    simp [hpresent, run]

/-- The other functions of a slot, whose number is known. -/
theorem run_functionLoop (bus device : Nat) {fuel function functionCount : Nat}
    (hpos : function ≠ 0) (hfuel : functionCount - function < fuel) (s : Scan) :
    run (functionLoop (readable config : Reader E) bus device fuel function functionCount) s =
      (some (.ok ()), ((List.range' function (functionCount - function)).map
        (⟨bus, device, ·⟩)).foldl (Scan.add config) s) := by
  induction fuel generalizing function s with
  | zero => cases hfuel
  | succ fuel ih =>
    rw [functionLoop]
    split_ifs with hlt
    · rw [bind_eq, run_bind_ok (run_probe config _ _ s), if_neg (fun h => hpos h.1),
        ih (Nat.succ_ne_zero _) (by omega), show functionCount - function =
          (functionCount - (function + 1)) + 1 by omega, range'_succ]
      rfl
    · rw [Nat.sub_eq_zero_of_le (Nat.le_of_not_lt hlt)]
      rfl

/-- **A slot.**  Its first function sets the number of rounds. -/
theorem run_slot (bus device : Nat) (s : Scan) :
    run (functionLoop (readable config : Reader E) bus device 9 0 1) s =
      (some (.ok ()), (slot config bus device).foldl (Scan.add config) s) := by
  rw [functionLoop, if_pos Nat.zero_lt_one, bind_eq, run_bind_ok (run_probe config _ _ s),
    run_functionLoop config bus device Nat.one_ne_zero (by split <;> decide), slot]
  cases multifunction config ⟨bus, device, 0⟩ <;> rfl

theorem run_enumerate (s : Scan) :
    run (enumerate (readable config : Reader E)) s =
      (some (.ok ()), (probed config).foldl (Scan.add config) s) := by
  rw [probed, foldl_flatMap]
  refine run_forEach (P := fun _ => True) (fun bus _ s _ => ⟨?_, trivial⟩) trivial
  rw [foldl_flatMap]
  exact run_forEach (P := fun _ => True)
    (fun device _ s _ => ⟨run_slot config bus device s, trivial⟩)
    trivial

theorem foldl_add (l : List Bdf) (s : Scan) : l.foldl (Scan.add config) s =
    ⟨s.reads ++ l.flatMap fun a => (offsets config a).map (a, ·),
      s.found ++ (l.filter (present config)).map (functionAt config)⟩ := by
  induction l generalizing s with
  | nil => simp
  | cons a l ih => cases h : present config a <;> simp [ih, Scan.add, h]

/-! ## What is reported -/

def Bdf.Before (a b : Bdf) : Prop :=
  a.bus < b.bus ∨ a.bus = b.bus ∧
    (a.device < b.device ∨ a.device = b.device ∧ a.function < b.function)

/-- The functions that are to be reported: function 0 of a slot, and if that has the multifunction
bit, the others. -/
def Reported (a : Bdf) : Prop :=
  a.bus < 256 ∧ a.device < 32 ∧ present config a = true ∧
    (a.function = 0 ∨ a.function < 8 ∧ multifunction config { a with function := 0 } = true)

theorem mem_probed : a ∈ probed config ∧ present config a = true ↔ Reported config a := by
  obtain ⟨bus, device, function⟩ := a
  have hmem : ⟨bus, device, function⟩ ∈ probed config ↔ bus < 256 ∧ device < 32 ∧
      function < if multifunction config ⟨bus, device, 0⟩ then 8 else 1 := by
    simp [probed, slot]
  rw [hmem, Reported]
  cases multifunction config ⟨bus, device, 0⟩ <;> simp <;> grind

theorem pairwise_probed : (probed config).Pairwise Bdf.Before := by
  refine pairwise_flatMap.2 ⟨fun bus _ => pairwise_flatMap.2 ⟨fun device _ => ?_, ?_⟩, ?_⟩
  · exact pairwise_map.2 (pairwise_lt_range.imp fun h => .inr ⟨rfl, .inr ⟨rfl, h⟩⟩)
  · refine pairwise_lt_range.imp fun h a ha b hb => ?_
    obtain ⟨_, -, rfl⟩ := mem_map.1 ha
    obtain ⟨_, -, rfl⟩ := mem_map.1 hb
    exact .inr ⟨rfl, .inl h⟩
  · refine pairwise_lt_range.imp fun h a ha b hb => .inl ?_
    simp only [slot, mem_flatMap, mem_map] at ha hb
    obtain ⟨_, -, _, -, rfl⟩ := ha
    obtain ⟨_, -, _, -, rfl⟩ := hb
    exact h

/-- **A bus that can be read is enumerated.**  The functions are reported in their order, each of
them once, with what the configuration space says about them.  No dword is read twice, and BAR5 only
of an AHCI controller. -/
theorem enumerate_reports (E : Type) (config : Bdf → Nat → UInt32) : ∃ s : Scan,
    run (enumerate (readable config : Reader E)) ⟨[], []⟩ = (some (.ok ()), s) ∧
    (s.found.map PciFunction.bdf).Pairwise Bdf.Before ∧
    (∀ f, f ∈ s.found ↔ ∃ a, Reported config a ∧ f = functionAt config a) ∧
    s.reads.Nodup ∧
    ∀ a offset, (a, offset) ∈ s.reads → offset ∈ [0, 8, 12, 36] ∧
      (offset = 36 → present config a = true ∧ (functionAt config a).isAhci = true) := by
  refine ⟨_, run_enumerate config _, ?_⟩
  have hbdf (a : Bdf) : (functionAt config a).bdf = a := by
    rw [functionAt]
    split <;> rfl
  rw [foldl_add, nil_append, nil_append]
  refine ⟨?_, fun f => ?_, ?_, fun a offset h => ?_⟩
  · rw [map_map, pairwise_map]
    simp only [Function.comp_apply, hbdf]
    exact (pairwise_probed config).filter _
  · simp only [mem_map, mem_filter, mem_probed, eq_comm (a := f)]
  · refine pairwise_flatMap.2 ⟨fun a _ => ?_, ?_⟩
    · refine pairwise_map.2 (Pairwise.imp (R := (· ≠ ·)) (fun h heq => h (Prod.mk.inj heq).2) ?_)
      rw [offsets]
      split_ifs <;> decide
    · refine (pairwise_probed config).imp fun h x hx y hy heq => ?_
      obtain ⟨_, -, rfl⟩ := mem_map.1 hx
      obtain ⟨_, -, rfl⟩ := mem_map.1 hy
      obtain rfl := (Prod.mk.inj heq).1
      rw [Bdf.Before] at h
      omega
  · simp only [mem_flatMap, mem_map, Prod.mk.injEq] at h
    obtain ⟨_, -, _, hoffset, rfl, rfl⟩ := h
    rw [offsets] at hoffset
    split_ifs at hoffset with hpresent hahci <;> simp_all <;> omega

end Krust.Drivers.Pci
