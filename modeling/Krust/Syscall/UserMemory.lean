import Krust.Arch.SupervisorOverlap
import Krust.Mm.Records

/-!
# User memory, as system calls reach it

A system call copies to and from the memory of a process through the records of its address space,
not through the tables of the processor: `visit_task_range` looks for the record of each page of a
range, checks its flags and goes to the frame that it names.

So the records have to say what the tables say.  `lookups_current` shows that they do, for
`write_bytes` and for the routines here, after every run of the methods in which no page is mapped
that has a record already.  In other runs they may not (`stale_record`).
-/

set_option autoImplicit false

namespace Krust.Syscall

open Arch Lib Mm List Option

/-! ## The source -/

/-- `AddressSpace::mappings` -/
def records (space : AddressSpace) : List (Nat × Nat × PageFlags) :=
  space.mappings.map fun mapping =>
    (mapping.page.startAddress, frameStart mapping.frame, mapping.flags)

/-- `PageTableFlags::contains` -/
def contains (flags : PageFlags) (required : UInt64) : Bool := flags.bits &&& required = required

/-- What the visitor is called with; all of physical memory can be reached, so a physical address
stands for the pointer to it. -/
structure Visit where
  physical : Nat
  offset : Nat
  count : Nat
deriving DecidableEq, Repr

/-- The loop of `visit_task_range`, for at most `fuel` pages; the visits that have been made come
with the result. -/
def visitLoop (space : AddressSpace) (address stop : Nat) (write : Bool) :
    Nat → Nat → List Visit × Except Int Unit
  | 0, _ => ([], .ok ())
  | fuel + 1, current =>
    if current < stop then
      let page := current - current % PAGE_SIZE
      match (records space).find? fun record => record.1 = page with
      | none => ([], .error (-14))
      | some (_, physical, flags) =>
        if !contains flags (PRESENT ||| USER) || (write && !contains flags WRITABLE) then
          ([], .error (-14))
        else
          let offset := current - page
          let count := min (PAGE_SIZE - offset) (stop - current)
          let rest := visitLoop space address stop write fuel (current + count)
          (⟨physical + offset, current - address, count⟩ :: rest.1, rest.2)
    else ([], .ok ())

/-- Every round of the loop passes at least one byte. -/
def visitTaskRange (space : AddressSpace) (address length : Nat) (write : Bool) :
    List Visit × Except Int Unit :=
  if address + length > USIZE_MAX then ([], .error (-14))
  else if address = 0 ∨ address + length > USER_ADDRESS_END then ([], .error (-14))
  else visitLoop space address (address + length) write length address

/-! ## What is found -/

theorem startAddress_injective {page page' : Page} (h : page.startAddress = page'.startAddress) :
    page = page' := by
  rw [Page.startAddress, Page.startAddress] at h
  refine Fin.ext ?_
  split at h <;> split at h <;> omega

theorem find_records (space : AddressSpace) (page : Page) :
    ((records space).find? fun record => record.1 = page.startAddress) =
      (space.find page).map fun mapping =>
        (mapping.page.startAddress, frameStart mapping.frame, mapping.flags) := by
  rw [records, find?_map]
  congr 2
  funext mapping
  exact decide_eq_decide.2 ⟨startAddress_injective, fun h => congrArg Page.startAddress h⟩

/-- A user address is in the page that starts at the next lower multiple of the page size. -/
theorem containingAddress_user {a : Nat} (h : a < USER_ADDRESS_END) :
    ∃ page, Page.containingAddress a = some page ∧ page.startAddress = a - a % PAGE_SIZE := by
  rw [USER_ADDRESS_END] at h
  refine ⟨Fin.ofNat (2 ^ 36) (a / 4096), ?_, ?_⟩
  · rw [Page.containingAddress, if_pos (.inl h)]
  · rw [Page.startAddress, Fin.val_ofNat, PAGE_SIZE, if_pos (by omega)]
    omega

/-- **A visit goes to the frame of the first record of its page.** -/
structure Visited (space : AddressSpace) (first : Nat) (write : Bool) (visit : Visit)
    (page : Page) (mapping : Mapping) : Prop where
  page_eq : Page.containingAddress (first + visit.offset) = some page
  find : space.find page = some mapping
  physical : visit.physical = frameStart mapping.frame + (first + visit.offset) % PAGE_SIZE
  inPage : (first + visit.offset) % PAGE_SIZE + visit.count ≤ PAGE_SIZE
  user : contains mapping.flags (PRESENT ||| USER) = true
  writable : write = true → contains mapping.flags WRITABLE = true

def Accessible (space : AddressSpace) (write : Bool) (a : Nat) : Prop :=
  ∃ page mapping, Page.containingAddress a = some page ∧ space.find page = some mapping ∧
    contains mapping.flags (PRESENT ||| USER) = true ∧
      (write = true → contains mapping.flags WRITABLE = true)

/-- The visits go over a range from an address to another, one after the other. -/
inductive Spans (space : AddressSpace) (first : Nat) (write : Bool) :
    Nat → List Visit → Nat → Prop
  | nil {a : Nat} : Spans space first write a [] a
  | cons {a stop : Nat} {visit : Visit} {visits : List Visit} {page : Page} {mapping : Mapping}
      (hvisit : Visited space first write visit page mapping) (ha : first + visit.offset = a)
      (h : Spans space first write (a + visit.count) visits stop) :
      Spans space first write a (visit :: visits) stop

variable {space : AddressSpace} {write : Bool}

theorem Spans.visited {first a stop : Nat} {visits : List Visit}
    (h : Spans space first write a visits stop) :
    ∀ visit ∈ visits, ∃ page mapping, Visited space first write visit page mapping := by
  induction h with
  | nil => exact nofun
  | cons hvisit _ _ ih => exact forall_mem_cons.2 ⟨⟨_, _, hvisit⟩, ih⟩

/-- **The loop goes over the range up to the first address that may not be accessed.** -/
theorem spans_visitLoop (space : AddressSpace) (write : Bool) {address stop : Nat}
    (hstop : stop ≤ USER_ADDRESS_END) (fuel : Nat) :
    ∀ current, address ≤ current → current ≤ stop → stop ≤ current + fuel →
    let r := visitLoop space address stop write fuel current
    (r.2 = .ok () ∧ Spans space address write current r.1 stop) ∨
      (r.2 = .error (-14) ∧ ∃ a, current ≤ a ∧ a < stop ∧ ¬ Accessible space write a ∧
        Spans space address write current r.1 a) := by
  induction fuel with
  | zero =>
    intro current _ hle hfuel
    obtain rfl : current = stop := by omega
    exact .inl ⟨rfl, .nil⟩
  | succ fuel ih =>
    intro current hle hcur hfuel
    rw [visitLoop]
    split_ifs with hlt
    · obtain ⟨page, hpage, hstart⟩ := containingAddress_user (hlt.trans_le hstop)
      simp only [← hstart, find_records]
      rcases hfind : space.find page with _ | mapping
      · refine .inr ⟨rfl, current, le_refl _, hlt, ?_, .nil⟩
        rintro ⟨page', mapping, hpage', hfind', -⟩
        cases hpage.symm.trans hpage'
        cases hfind.symm.trans hfind'
      simp only [map_some]
      split_ifs with hflags
      · refine .inr ⟨rfl, current, le_refl _, hlt, ?_, .nil⟩
        rintro ⟨page', mapping', hpage', hfind', huser, hwritable⟩
        cases hpage.symm.trans hpage'
        cases hfind.symm.trans hfind'
        simp [huser] at hflags
        simp [hwritable hflags.1] at hflags
      rw [Bool.not_eq_true, Bool.or_eq_false_iff, Bool.not_eq_false'] at hflags
      have hmod := Nat.mod_lt current (show 0 < PAGE_SIZE by decide)
      have hle' := Nat.mod_le current PAGE_SIZE
      have haddress : address + (current - address) = current := by omega
      have hvisit : Visited space address write
          ⟨frameStart mapping.frame + (current - page.startAddress), current - address,
            min (PAGE_SIZE - (current - page.startAddress)) (stop - current)⟩ page mapping := by
        refine ⟨by rw [haddress, hpage], hfind, ?_, ?_, hflags.1, fun hwrite => ?_⟩
        · rw [haddress, hstart, Nat.sub_sub_self hle']
        · dsimp only
          rw [haddress]
          omega
        · simpa [hwrite] using hflags.2
      have hcount : current - page.startAddress = current % PAGE_SIZE := by omega
      rcases ih (current + min (PAGE_SIZE - (current - page.startAddress)) (stop - current))
        (by omega) (by omega) (by omega) with ⟨hok, h⟩ | ⟨herr, a, ha, hlt, hnot, h⟩
      · exact .inl ⟨hok, .cons hvisit haddress h⟩
      · exact .inr ⟨herr, a, by omega, hlt, hnot, .cons hvisit haddress h⟩
    · obtain rfl : current = stop := by omega
      exact .inl ⟨rfl, .nil⟩

theorem spans_visitTaskRange (space : AddressSpace) (address length : Nat) (write : Bool) :
    let r := visitTaskRange space address length write
    (r.2 = .ok () ∧ 0 < address ∧ address + length ≤ USER_ADDRESS_END ∧
        Spans space address write address r.1 (address + length)) ∨
      (r.2 = .error (-14) ∧ (address = 0 ∨ USER_ADDRESS_END < address + length ∨
          ∃ a, address ≤ a ∧ a < address + length ∧ ¬ Accessible space write a) ∧
        ∃ a, Spans space address write address r.1 a) := by
  rw [visitTaskRange]
  split_ifs with hmax hbounds
  · exact .inr ⟨rfl, .inr (.inl (hmax.trans' (by decide))), _, .nil⟩
  · exact .inr ⟨rfl, by tauto, _, .nil⟩
  · rw [not_or, not_lt] at hbounds
    rcases spans_visitLoop space write hbounds.2 length address (le_refl _)
      (Nat.le_add_right _ _) (le_refl _) with ⟨hok, h⟩ | ⟨herr, a, ha, hlt, hnot, h⟩
    · exact .inl ⟨hok, Nat.pos_of_ne_zero hbounds.1, hbounds.2, h⟩
    · exact .inr ⟨herr, .inr (.inr ⟨a, ha, hlt, hnot⟩), a, h⟩

theorem visited_visitTaskRange {address length : Nat} :
    ∀ visit ∈ (visitTaskRange space address length write).1,
      ∃ page mapping, Visited space address write visit page mapping := by
  rcases spans_visitTaskRange space address length write with ⟨-, -, -, h⟩ | ⟨-, -, a, h⟩
  · exact h.visited
  · exact h.visited

/-! ## Records that say what the tables say -/

/-- **What is found for a page is what it is mapped to**: after every run in which no page is mapped
that has a record already, there is at most one record of a page in a space, and the frame and the
flags that `write_bytes` and the routines here find for a page are those of its entry. -/
theorem lookups_current (mapper : Mapper) (checks : Bool) {mm : Manager}
    (hpool : mm.allocator.pool.Nodup)
    (hkernel : ∀ d t, KernelTable mm d t → t ∉ mm.allocator.pool) (ops : List Op)
    (hops : ∀ ops' op, ops' ++ [op] <+: ops → op.Fresh checks (runOps mapper checks mm ops')) :
    let s := runOps mapper checks mm ops
    ∀ space ∈ s.spaces, space.Distinct ∧
      (∀ page mapping, space.find page = some mapping →
        pageEntry s.manager.memory space.rootFrame page =
          some (makeEntry mapping.frame mapping.flags.bits)) ∧
      ∀ address length write, ∀ visit ∈ (visitTaskRange space address length write).1,
        ∃ page mapping, Visited space address write visit page mapping ∧
          pageEntry s.manager.memory space.rootFrame page =
            some (makeEntry mapping.frame mapping.flags.bits) := by
  intro s space hspace
  obtain ⟨hdistinct, hentry⟩ := pageEntry_of_find mapper checks hpool hkernel ops hops space hspace
  refine ⟨hdistinct, hentry, fun address length write visit hmem => ?_⟩
  obtain ⟨page, mapping, hvisited⟩ := visited_visitTaskRange visit hmem
  exact ⟨page, mapping, hvisited, hentry page mapping hvisited.find⟩

theorem lookups_current_fork :
    let s := runOps walkMapper true smallManager
      [.create, .mapPage 0 5 .writable, .mapPage 0 7 .empty, .fork 0]
    ∀ space ∈ s.spaces, space.Distinct := by
  intro s space hspace
  refine (lookups_current walkMapper true (by decide) smallManager_apart _ ?_ space hspace).1
  have hconcat := forall_event_concat fun ops' op =>
    Op.Fresh true (runOps walkMapper true smallManager ops') op
  have hnew : ∀ ops page flags, (∀ space ∈ (runOps walkMapper true smallManager ops).spaces,
      ∀ mapping ∈ space.mappings, mapping.page ≠ page) →
      Op.Fresh true (runOps walkMapper true smallManager ops) (.mapPage 0 page flags) := by
    rintro ops page flags h _ _ ⟨⟩ space hspace mapping hmem rfl
    exact h space (mem_of_getElem? hspace) mapping hmem rfl
  have hother : ∀ s op, op.mapped true = none → Op.Fresh true s op := by
    intro s op hnone k pages hsome
    cases hnone.symm.trans hsome
  refine (hconcat _ _).2 ⟨(hconcat _ _).2 ⟨(hconcat _ _).2 ⟨(hconcat [] _).2
    ⟨forall_event_nil, hother _ _ rfl⟩, hnew _ _ _ ?_⟩, hnew _ _ _ ?_⟩, hother _ _ rfl⟩
  · decide +kernel
  · decide +kernel

/-- Two segments that share a page. -/
def sharedPage : List Op :=
  let segment (address : UInt64) : LoadSegment := ⟨address, 256, 0, 0, ⟨true, true, false⟩⟩
  [.create, .mapSegment 0 (segment 0x5000) fun _ _ => .ok [],
    .mapSegment 0 (segment 0x5200) fun _ _ => .ok []]

/-- **The record that is found may be an old one**: a page that is mapped twice has two records, and
the first has a frame that the tables do not lead to. -/
theorem stale_record :
    let s := runOps walkMapper true smallManager sharedPage
    ∃ space ∈ s.spaces, ¬ space.Distinct ∧ ∃ mapping ∈ space.find 5,
      pageEntry s.manager.memory space.rootFrame 5 ≠
        some (makeEntry mapping.frame mapping.flags.bits) := by
  decide +kernel

end Krust.Syscall
