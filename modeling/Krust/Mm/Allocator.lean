import Krust.Lib.Runs
import Krust.Mm.Frames
import Mathlib.Data.List.Nodup

/-!
# The frame allocator

Frames are taken from a stack of frames that have been given back, and where it is empty from the
usable regions of memory in their order.  Before a new frame is issued the allocator makes room on
the stack for it, so that giving it back needs no memory; that may fail, and the allocator then
issues nothing.  What an allocator can still issue is its `pool`: a frame that is issued is the
first of the pool, and one that is given back is put in front.

A `Ledger` is the allocator with the frames that are outstanding.  In every run in which nothing
else is given back, no frame is outstanding twice, and all of them lie in usable regions
(`frames_issued_once`).  A `Buffer` is the ledger with the room that has been made on the stack,
which is always enough (`recycled_fits`).
-/

set_option autoImplicit false

namespace Krust.Mm

open Lib List

/-- What a region of memory is used for, as the boot loader says. -/
inductive MemoryRegionKind
  | usable
  | bootloader
  | unknown
deriving DecidableEq, Repr

structure MemoryRegion where
  start : Nat
  stop : Nat
  kind : MemoryRegionKind
  /-- `PhysAddr::new` panics for an address with more than 52 bits. -/
  stop_lt : stop < 2 ^ 52

structure FrameAllocator where
  memoryRegions : List MemoryRegion
  next : Nat
  /-- The frames that have been given back, the last one first. -/
  recycled : List PhysFrame
  recyclingReady : Bool
  /-- Whether the next calls of `try_reserve` find the memory they need. -/
  reserves : Nat → Bool

def usableFrames (regions : List MemoryRegion) : List PhysFrame :=
  (regions.filter (·.kind = .usable)).flatMap fun region =>
    let first := (region.start + 4095) / 4096
    let last := region.stop / 4096
    (List.range' first (last - first)).map (Fin.ofNat (2 ^ 40))

variable {f : PhysFrame} (a : FrameAllocator)

namespace FrameAllocator

/-- `self.recycled.try_reserve(self.next + 1)`, which is called if recycling is ready. -/
def tryReserve (a : FrameAllocator) : Bool × FrameAllocator :=
  if a.recyclingReady then (a.reserves 0, { a with reserves := fun n => a.reserves (n + 1) })
  else (true, a)

def allocateFrame (a : FrameAllocator) : Option PhysFrame × FrameAllocator :=
  match a.recycled with
  | frame :: rest => (some frame, { a with recycled := rest })
  | [] =>
    let (reserved, a) := a.tryReserve
    if !reserved then (none, a)
    else
      match (usableFrames a.memoryRegions)[a.next]? with
      | some frame => (some frame, { a with next := a.next + 1 })
      | none => (none, a)

def deallocateFrame (a : FrameAllocator) (frame : PhysFrame) : FrameAllocator :=
  { a with recycled := frame :: a.recycled }

/-- The frames that can be issued, in the order in which they will be. -/
def pool (a : FrameAllocator) : List PhysFrame :=
  a.recycled ++ (usableFrames a.memoryRegions).drop a.next

@[simp] theorem pool_deallocateFrame (frame : PhysFrame) :
    (a.deallocateFrame frame).pool = frame :: a.pool := rfl

theorem pool_foldl_deallocateFrame (frames : List PhysFrame) :
    (frames.foldl deallocateFrame a).pool = frames.reverse ++ a.pool := by
  induction frames generalizing a with
  | nil => rfl
  | cons frame frames ih =>
    rw [foldl_cons, ih, pool_deallocateFrame, reverse_cons, append_assoc,
      singleton_append]

theorem tryReserve_eq :
    ∃ reserved reserves, a.tryReserve = (reserved, { a with reserves := reserves }) := by
  rw [tryReserve]
  split
  · exact ⟨_, _, rfl⟩
  · exact ⟨_, a.reserves, rfl⟩

/-- **What a request for a frame can do**: it takes the last frame that was given back, or the next
usable one, or there is none. -/
theorem allocateFrame_cases :
    (∃ frame rest, a.recycled = frame :: rest ∧
      a.allocateFrame = (some frame, { a with recycled := rest })) ∨
    (a.recycled = [] ∧ ∃ frame reserves, (usableFrames a.memoryRegions)[a.next]? = some frame ∧
      a.allocateFrame = (some frame, { a with next := a.next + 1, reserves := reserves })) ∨
    ∃ reserves, a.allocateFrame = (none, { a with reserves := reserves }) := by
  obtain ⟨regions, next, recycled, ready, reserves₀⟩ := a
  cases recycled with
  | cons frame rest => exact .inl ⟨frame, rest, rfl, rfl⟩
  | nil =>
    obtain ⟨reserved, reserves, hreserve⟩ := tryReserve_eq ⟨regions, next, [], ready, reserves₀⟩
    simp only [allocateFrame, hreserve]
    rcases reserved with _ | _
    · exact .inr (.inr ⟨reserves, rfl⟩)
    cases hnext : (usableFrames regions)[next]? with
    | none => exact .inr (.inr ⟨reserves, rfl⟩)
    | some frame => exact .inr (.inl ⟨trivial, frame, reserves, rfl, rfl⟩)

/-- **The frame that is issued is the first of the pool**; where none is issued the pool is as
before. -/
theorem allocateFrame_pool : a.pool = a.allocateFrame.1.toList ++ a.allocateFrame.2.pool := by
  obtain ⟨frame, rest, hrecycled, halloc⟩ | ⟨hrecycled, frame, reserves, hnext, halloc⟩ |
    ⟨reserves, halloc⟩ := a.allocateFrame_cases
  · rw [halloc, pool, hrecycled]
    rfl
  · obtain ⟨hlt, rfl⟩ := List.getElem?_eq_some_iff.1 hnext
    rw [halloc, pool, hrecycled, drop_eq_getElem_cons hlt]
    rfl
  · rw [halloc]
    rfl

def init (memoryRegions : List MemoryRegion) (reserves : Nat → Bool) : FrameAllocator :=
  ⟨memoryRegions, 0, [], false, reserves⟩

def enableRecycling (a : FrameAllocator) : FrameAllocator := { a with recyclingReady := true }

end FrameAllocator

/-! ## Usable frames -/

/-- The address is one of the region. -/
def MemoryRegion.Contains (region : MemoryRegion) (address : Nat) : Prop :=
  region.start ≤ address ∧ address < region.stop

/-- No address is in two of the regions. -/
def DisjointRegions (regions : List MemoryRegion) : Prop :=
  regions.Pairwise fun region region' => ∀ a, ¬ (region.Contains a ∧ region'.Contains a)

/-- The whole frames of a region. -/
theorem mem_regionFrames {region : MemoryRegion}
    (h : f ∈ (List.range' ((region.start + 4095) / 4096)
      (region.stop / 4096 - (region.start + 4095) / 4096)).map (Fin.ofNat (2 ^ 40))) :
    ∀ a, InFrame f a → region.Contains a := by
  obtain ⟨n, hn, rfl⟩ := mem_map.1 h
  rw [mem_range'_1] at hn
  have hstop := region.stop_lt
  rintro a ⟨hlo, hhi⟩
  rw [frameStart, Fin.val_ofNat] at hlo hhi
  exact ⟨by omega, by omega⟩

variable {regions : List MemoryRegion}

/-- **A usable frame lies in a usable region.** -/
theorem mem_usableFrames (h : f ∈ usableFrames regions) :
    ∃ region ∈ regions, region.kind = .usable ∧ ∀ a, InFrame f a → region.Contains a := by
  obtain ⟨region, hregion, hf⟩ := mem_flatMap.1 h
  obtain ⟨hmem, husable⟩ := mem_filter.1 hregion
  exact ⟨region, hmem, of_decide_eq_true husable, mem_regionFrames hf⟩

theorem inFrame_frameStart (f : PhysFrame) : InFrame f (frameStart f) :=
  ⟨le_refl _, Nat.lt_add_of_pos_right (by decide)⟩

theorem nodup_usableFrames (h : DisjointRegions regions) : (usableFrames regions).Nodup := by
  rw [usableFrames, nodup_flatMap]
  refine ⟨fun region _ => ?_, (h.filter _).imp fun {region region'} hdisjoint f hf hf' => ?_⟩
  · refine List.Nodup.map_on (fun n hn n' hn' heq => ?_) nodup_range'
    have hstop := region.stop_lt
    rw [mem_range'_1] at hn hn'
    rwa [Fin.ext_iff, Fin.val_ofNat, Fin.val_ofNat, Nat.mod_eq_of_lt (by omega),
      Nat.mod_eq_of_lt (by omega)] at heq
  · exact hdisjoint (frameStart f) ⟨mem_regionFrames hf _ (inFrame_frameStart f),
      mem_regionFrames hf' _ (inFrame_frameStart f)⟩

/-! ## Runs -/

/-- The allocator, with the frames it has issued and not been given back. -/
structure Ledger where
  allocator : FrameAllocator
  outstanding : List PhysFrame

inductive Request
  | allocate
  | deallocate (frame : PhysFrame)
  | enableRecycling

def Ledger.serve (l : Ledger) : Request → Ledger
  | .allocate => ⟨l.allocator.allocateFrame.2, l.allocator.allocateFrame.1.toList ++ l.outstanding⟩
  | .deallocate frame => ⟨l.allocator.deallocateFrame frame, l.outstanding.erase frame⟩
  | .enableRecycling => ⟨l.allocator.enableRecycling, l.outstanding⟩

def ledgerAfter (regions : List MemoryRegion) (reserves : Nat → Bool) (requests : List Request) :
    Ledger :=
  runFrom Ledger.serve ⟨.init regions reserves, []⟩ requests

/-- Only frames that are outstanding are returned. -/
def Ledger.Allows (l : Ledger) : Request → Prop
  | .deallocate frame => frame ∈ l.outstanding
  | _ => True

instance (l : Ledger) (request : Request) : Decidable (l.Allows request) :=
  match request with
  | .deallocate frame => inferInstanceAs (Decidable (frame ∈ l.outstanding))
  | .allocate => isTrue trivial
  | .enableRecycling => isTrue trivial

/-- The frames that are outstanding or have been given back are the first usable ones. -/
structure Balanced (regions : List MemoryRegion) (l : Ledger) : Prop where
  memoryRegions : l.allocator.memoryRegions = regions
  next_le : l.allocator.next ≤ (usableFrames regions).length
  frames : (l.outstanding ++ l.allocator.recycled).Perm
    ((usableFrames regions).take l.allocator.next)

theorem Balanced.serve {l : Ledger} (hl : Balanced regions l) {request : Request}
    (hallows : l.Allows request) : Balanced regions (l.serve request) := by
  obtain ⟨⟨regions', next, recycled, ready, reserves⟩, outstanding⟩ := l
  obtain ⟨rfl, hnext, hframes⟩ := hl
  cases request with
  | allocate =>
    rw [Ledger.serve]
    obtain ⟨frame, rest, rfl, halloc⟩ | ⟨rfl, frame, reserves', hframe, halloc⟩ |
      ⟨reserves', halloc⟩ := FrameAllocator.allocateFrame_cases
        ⟨regions', next, recycled, ready, reserves⟩
    · exact ⟨rfl, hnext, perm_middle.symm.trans hframes⟩
    · obtain ⟨hlt, rfl⟩ := List.getElem?_eq_some_iff.1 hframe
      rw [halloc]
      refine ⟨rfl, hlt, ?_⟩
      rw [append_nil] at hframes
      rw [append_nil, take_succ_eq_append_getElem hlt]
      exact (hframes.cons _).trans (perm_append_singleton _ _).symm
    · rw [halloc]
      exact ⟨rfl, hnext, hframes⟩
  | deallocate frame =>
    refine ⟨rfl, hnext, perm_middle.trans (.trans ?_ hframes)⟩
    exact (perm_cons_erase hallows).symm.append_right _
  | enableRecycling => exact ⟨rfl, hnext, hframes⟩

/-- **Every frame is issued from a usable region, and never while it is outstanding.**  In a run in
which only outstanding frames are returned, the frames that are outstanding or have been given back
are at any time the first `next` usable frames, each of them once. -/
theorem frames_issued_once {regions : List MemoryRegion} (hregions : DisjointRegions regions)
    (reserves : Nat → Bool) (requests : List Request)
    (hrequests : ∀ before request, before ++ [request] <+: requests →
      (ledgerAfter regions reserves before).Allows request) :
    let l := ledgerAfter regions reserves requests
    (l.outstanding ++ l.allocator.recycled).Perm
      ((usableFrames regions).take l.allocator.next) ∧
    (l.outstanding ++ l.allocator.recycled).Nodup ∧
    l.allocator.next ≤ (usableFrames regions).length ∧
    ∀ frame, l.allocator.allocateFrame.1 = some frame →
      frame ∉ l.outstanding ∧ frameStart frame % 4096 = 0 ∧
      ∃ region ∈ regions, region.kind = .usable ∧ ∀ a, InFrame frame a → region.Contains a := by
  intro l
  have hbalanced : ∀ es, (∀ before request, before ++ [request] <+: es →
      (ledgerAfter regions reserves before).Allows request) →
      Balanced regions (ledgerAfter regions reserves es) :=
    runFrom_induction_of (C := Ledger.Allows) ⟨rfl, Nat.zero_le _, .refl _⟩
      fun _ _ hl hallows => hl.serve hallows
  have hnodup : ∀ l, Balanced regions l → (l.outstanding ++ l.allocator.recycled).Nodup :=
    fun l hl => hl.frames.nodup_iff.2 ((nodup_usableFrames hregions).sublist (take_sublist _ _))
  have hl := hbalanced requests hrequests
  have hserved : Balanced regions (Ledger.serve _ .allocate) := hl.serve trivial
  refine ⟨hl.frames, hnodup l hl, hl.next_le, fun frame hframe => ⟨?_, ?_, ?_⟩⟩
  · -- Otherwise it would be outstanding twice, once it has been issued.
    have h := (nodup_append.1 (hnodup _ hserved)).1
    rw [Ledger.serve, show (ledgerAfter regions reserves requests).allocator.allocateFrame.1 =
      some frame from hframe] at h
    exact (nodup_cons.1 h).1
  · rw [frameStart]
    omega
  · refine mem_usableFrames (mem_of_mem_take (hserved.frames.mem_iff.1 ?_))
    rw [Ledger.serve, show (ledgerAfter regions reserves requests).allocator.allocateFrame.1 =
      some frame from hframe]
    exact mem_append_left _ mem_cons_self

theorem frames_issued_once_reused :
    let regions : List MemoryRegion := [⟨100, 20000, .usable, by decide⟩,
      ⟨20480, 30000, .bootloader, by decide⟩]
    let requests : List Request := [.allocate, .deallocate 1, .allocate]
    (ledgerAfter regions (fun _ => true) requests).allocator.next ≤
      (usableFrames regions).length := by
  intro regions requests
  refine (frames_issued_once ?_ _ requests ?_).2.2.1
  · rw [DisjointRegions, pairwise_pair]
    rintro a ⟨⟨-, hlt⟩, hle, -⟩
    dsimp only at hlt hle
    omega
  · have hconcat := forall_event_concat fun before =>
      (ledgerAfter regions (fun _ => true) before).Allows
    exact (hconcat [_, _] _).2 ⟨(hconcat [_] _).2 ⟨(hconcat [] _).2 ⟨forall_event_nil, trivial⟩,
      by decide⟩, trivial⟩

/-! ## The capacity of the stack -/

/-- The ledger, with the capacity that has been asked for the vector of frames that are given
back. -/
structure Buffer where
  ledger : Ledger
  reserved : Nat

/-- `try_reserve` and `reserve` leave a vector with room for so many more; what `push` adds to its
capacity is not counted. -/
def Buffer.serve (b : Buffer) (request : Request) : Buffer :=
  let a := b.ledger.allocator
  { ledger := b.ledger.serve request
    reserved := match request with
      | .allocate =>
        if a.recycled = [] ∧ a.recyclingReady ∧ a.tryReserve.1 then max b.reserved (a.next + 1)
        else b.reserved
      | .deallocate _ => b.reserved
      | .enableRecycling => max b.reserved (a.recycled.length + a.next) }

def bufferAfter (regions : List MemoryRegion) (reserves : Nat → Bool) (requests : List Request) :
    Buffer :=
  runFrom Buffer.serve ⟨⟨.init regions reserves, []⟩, 0⟩ requests

/-- A frame is new only after room has been made for it. -/
theorem allocateFrame_reserved (a : FrameAllocator) :
    a.allocateFrame.2.recyclingReady = a.recyclingReady ∧ (a.allocateFrame.2.next = a.next ∨
      a.recycled = [] ∧ a.tryReserve.1 = true ∧ a.allocateFrame.2.next = a.next + 1) := by
  obtain ⟨regions, next, recycled, ready, reserves⟩ := a
  cases recycled with
  | cons frame rest => exact ⟨rfl, .inl rfl⟩
  | nil =>
    cases ready <;> cases hreserves : reserves 0 <;>
      cases hframe : (usableFrames regions)[next]? <;>
      simp [FrameAllocator.allocateFrame, FrameAllocator.tryReserve, hreserves, hframe]

/-- There is room for all frames that have been issued, once recycling is enabled. -/
def Buffer.Roomy (b : Buffer) : Prop :=
  b.ledger.allocator.recyclingReady = true → b.ledger.allocator.next ≤ b.reserved

theorem Buffer.Roomy.serve {b : Buffer} (h : b.Roomy) (request : Request) :
    (b.serve request).Roomy := by
  cases request with
  | allocate =>
    obtain ⟨hready, hnext⟩ := allocateFrame_reserved b.ledger.allocator
    intro hready'
    have hready : b.ledger.allocator.recyclingReady = true := hready.symm.trans hready'
    have hroom := h hready
    show b.ledger.allocator.allocateFrame.2.next ≤ if _ then _ else _
    rcases hnext with hnext | ⟨hrecycled, hreserved, hnext⟩ <;> rw [hnext]
    · split
      · exact hroom.trans (le_max_left _ _)
      · exact hroom
    · rw [if_pos ⟨hrecycled, hready, hreserved⟩]
      exact le_max_right _ _
  | deallocate frame => exact h
  | enableRecycling => exact fun _ => (Nat.le_add_left _ _).trans (le_max_right _ _)

/-- **Giving a frame back needs no memory.**  Once recycling is enabled, in every run in which only
outstanding frames are returned, the frames that have been given back fit into the capacity that was
reserved, and so does one more as long as a frame is outstanding. -/
theorem recycled_fits (regions : List MemoryRegion) (reserves : Nat → Bool)
    (requests : List Request)
    (hrequests : ∀ before request, before ++ [request] <+: requests →
      (bufferAfter regions reserves before).ledger.Allows request) :
    let b := bufferAfter regions reserves requests
    b.ledger.allocator.recyclingReady = true →
      b.ledger.allocator.recycled.length ≤ b.reserved ∧
      ∀ frame ∈ b.ledger.outstanding, b.ledger.allocator.recycled.length < b.reserved := by
  intro b hready
  obtain ⟨hbalanced, hroomy⟩ : Balanced regions b.ledger ∧ b.Roomy :=
    runFrom_induction_of (C := fun b : Buffer => b.ledger.Allows)
      (P := fun b : Buffer => Balanced regions b.ledger ∧ b.Roomy)
      ⟨⟨rfl, Nat.zero_le _, .refl _⟩, fun h => absurd h Bool.false_ne_true⟩
      (fun _ request hb hallows => ⟨hb.1.serve hallows, hb.2.serve request⟩) requests hrequests
  have hroom := hroomy hready
  have hcount := hbalanced.frames.length_eq
  rw [length_append, length_take, Nat.min_eq_left hbalanced.next_le] at hcount
  refine ⟨by omega, fun frame hframe => ?_⟩
  have := length_pos_of_mem hframe
  omega

theorem recycled_fits_oneBack :
    let b := bufferAfter [⟨0, 20000, .usable, by decide⟩] (fun _ => true)
      [.allocate, .enableRecycling, .allocate, .deallocate 1]
    b.ledger.allocator.recycled = [1] ∧ b.ledger.allocator.recycled.length < b.reserved := by
  refine ⟨by decide, (recycled_fits _ _ _ ?_ rfl).2 0 (by decide)⟩
  have hconcat := forall_event_concat fun before =>
    (bufferAfter [⟨0, 20000, .usable, by decide⟩] (fun _ => true) before).ledger.Allows
  exact (hconcat [_, _, _] _).2 ⟨(hconcat [_, _] _).2 ⟨(hconcat [_] _).2 ⟨(hconcat [] _).2
    ⟨forall_event_nil, trivial⟩, trivial⟩, trivial⟩, by decide⟩

end Krust.Mm
