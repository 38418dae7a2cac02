import Krust.Process.Getdents

/-!
# Scanning a directory that changes

Between two calls of `getdents64`, and between two rounds of the loop of one call, other calls can
change the directory.  The position of a scan is an index into the vector of entries, and taking an
entry away moves everything behind it to the front.  So an entry can slip past the scan, and this
file says when: if it is the next to be returned, and an entry before it is taken away
(`Overtaken`).  An entry that stays where it is under one name, and is never overtaken, is returned
once; an entry that has been overtaken is not returned at all (`scan_returns`).

Listing a directory, creating, unlinking and renaming all hold the namespace mutex while they look
at entries, so they take place one after the other.
-/

set_option autoImplicit false

namespace Krust.Process

open Lib Memfs Prog Vfs List Option

/-- One round of the loop of `getdents64`: the entry that it has written, the cursor, the number of
bytes written, and the buffer. -/
def getdentsRound (i offset written : Nat) (out : List UInt8) :
    Sys (Option DirEntry × Nat × Nat × List UInt8) := do
  let (emitted, next, captured) ← errno (readdir i offset capture none)
  if emitted = 0 then return (none, next, written, out)
  else
    match captured with
    | none => return (none, next, written, out)
    | some entry =>
      if out.length - written < reclen entry.name then return (none, offset, written, out)
      else
        return (some entry, next, written + reclen entry.name,
          overwrite out written (record entry next))

/-! ## Scans -/

/-- A descriptor on its way through a directory. -/
structure Scan where
  world : World
  position : Nat
  /-- The variables of the loop, if a call is under way. -/
  call : Option (Nat × Nat × List UInt8)
  returned : List DirEntry

def Scan.start (w : World) : Scan := ⟨w, 0, none, []⟩

def Scan.offset (s : Scan) : Nat :=
  match s.call with
  | none => s.position
  | some (offset, _, _) => offset

/-- What can happen next: a part of the scan, or a call of somebody else. -/
inductive Scan.Step (d : Nat) : Scan → Scan → Prop
  | call {w : World} {position : Nat} {returned : List DirEntry} {buf : List UInt8}
      (hbuf : buf ≠ []) :
      Step d ⟨w, position, none, returned⟩ ⟨w, position, some (position, 0, buf), returned⟩
  | write {w w' : World} {position offset written offset' written' : Nat}
      {out out' : List UInt8} {entry : DirEntry} {returned : List DirEntry}
      (hrun : run (getdentsRound d offset written out) w =
        (some (.ok (some entry, offset', written', out')), w')) :
      Step d ⟨w, position, some (offset, written, out), returned⟩
        ⟨w', position, some (offset', written', out'), returned ++ [entry]⟩
  | finish {w w' : World} {position offset written offset' written' : Nat}
      {out out' : List UInt8} {returned : List DirEntry}
      (hrun : run (getdentsRound d offset written out) w =
        (some (.ok (none, offset', written', out')), w')) :
      Step d ⟨w, position, some (offset, written, out), returned⟩ ⟨w', offset', none, returned⟩
  | other {s : Scan} {w : World} {r : Except FsError Unit} (c : Memfs.Call)
      (hrun : run c.prog s.world = (some r, w)) : Step d s { s with world := w }
  | meanwhile {s : Scan} {nextIno : Nat} (hle : s.world.fs.nextIno ≤ nextIno)
      (faults : List Bool) : Step d s { s with world := s.world.meanwhile nextIno faults }

/-- The directory exists and has this entry. -/
def Present (d : Nat) (e : Str × Nat) (fs : Fs) : Prop := d ∈ fs.live ∧ e ∈ fs.entries d

/-- The entry is the next to be returned, and one before it is taken away. -/
def Overtaken (d : Nat) (e : Str × Nat) (s s' : Scan) : Prop :=
  (s.world.fs.entries d)[s.offset]? = some e ∧
    ∃ x ∈ (s.world.fs.entries d).take s.offset, x.2 ∉ (s'.world.fs.entries d).map Prod.snd

instance (d : Nat) (e : Str × Nat) (s s' : Scan) : Decidable (Overtaken d e s s') :=
  inferInstanceAs (Decidable (_ ∧ _))

/-- The scans of a directory that has the entry all along, and whether it has been overtaken. -/
inductive Scanned (d : Nat) (e : Str × Nat) (w0 : World) : Bool → Scan → Prop
  | start (he : Present d e w0.fs) : Scanned d e w0 false (.start w0)
  | step {missed : Bool} {s s' : Scan} (h : Scanned d e w0 missed s) (hs : Scan.Step d s s')
      (he : Present d e s'.world.fs) : Scanned d e w0 (missed || decide (Overtaken d e s s')) s'

def Scan.times (s : Scan) (e : Str × Nat) : Nat :=
  (s.returned.map fun x => (x.name, x.ino)).count e

/-! ## What a step does -/

variable {es : List (Str × Nat)} {j : Nat} {w0 : World}

section Run

variable {w w' : World} {d : Nat} {e : Str × Nat} {s s' : Scan} {missed : Bool}

theorem Listable.run_getdentsRound (h : Listable w d es) (offset written : Nat) (out : List UInt8) :
    run (getdentsRound d offset written out) w = (some (.ok (match es[offset]? with
      | none => (none, offset, written, out)
      | some e =>
        if out.length - written < reclen e.1 then (none, offset, written, out)
        else (some (w.fs.dirEntry e), offset + 1, written + reclen e.1,
          overwrite out written (record (w.fs.dirEntry e) (offset + 1))))), w) := by
  rw [getdentsRound, bind_eq,
    run_bind_ok (run_errno (run_readdir h.locks h.storage h.others offset)),
    Fs.next]
  rcases es[offset]? with _ | e
  · rfl
  have hname : (w.fs.dirEntry e).name = e.1 := rfl
  simp only [one_ne_zero, if_false, hname]
  split <;> rfl

/-- A round that finds no room. -/
theorem Listable.run_getdentsRound_full (h : Listable w d es) {offset written : Nat}
    {out : List UInt8} (hfull : ∀ x, es[offset]? = some x → out.length - written < reclen x.1) :
    run (getdentsRound d offset written out) w =
      (some (.ok (none, offset, written, out)), w) := by
  rw [h.run_getdentsRound]
  cases hx : es[offset]? with
  | none => rfl
  | some x => simp [hfull x hx]

theorem Present.listable (hw : Reachable w) (he : Present d e w.fs) :
    Listable w d (w.fs.entries d) := by
  refine Listable.of_reachable hw he.1 ?_
  -- files have no entries
  by_contra hdir
  have hfile := (hw.good.tree.sound d he.1).file (by simpa [Fs.dirs] using hdir)
  have hmem : e ∈ w.fs.dirs.ents d := he.2
  rw [hfile] at hmem
  exact absurd hmem not_mem_nil

/-- **What a step does**: the scan returns the entry at its position and moves on, or it stays where
it is and the directory may be edited. -/
theorem Scan.Step.cases (h : Scan.Step d s s') (hw : Reachable s.world)
    (he : Present d e s.world.fs) :
    (∃ x, (s.world.fs.entries d)[s.offset]? = some x ∧ s'.world = s.world ∧
      s'.offset = s.offset + 1 ∧ s'.returned = s.returned ++ [s.world.fs.dirEntry x]) ∨
    (Reachable s'.world ∧ Edited (s.world.fs.entries d) (s'.world.fs.entries d) ∧
      s'.offset = s.offset ∧ s'.returned = s.returned) := by
  have hround := (Present.listable hw he).run_getdentsRound
  cases h with
  | call hbuf => exact .inr ⟨hw, .refl _, rfl, rfl⟩
  | @write w w' position offset written offset' written' out out' entry returned hrun =>
    left
    rw [hround] at hrun
    simp only [Prod.mk.injEq, some_inj, Except.ok.injEq] at hrun
    obtain ⟨hfound, hworld⟩ := hrun
    rcases hx : (w.fs.entries d)[offset]? with _ | x
    · simp [hx] at hfound
    simp only [hx] at hfound
    split at hfound
    · simp at hfound
    · obtain ⟨rfl, rfl, -⟩ := hfound
      exact ⟨x, hx, hworld.symm, rfl, rfl⟩
  | @finish w w' position offset written offset' written' out out' returned hrun =>
    right
    rw [hround] at hrun
    simp only [Prod.mk.injEq, some_inj, Except.ok.injEq] at hrun
    obtain ⟨hfound, rfl⟩ := hrun
    have hoffset : offset' = offset := by
      split at hfound
      · simp_all
      · split at hfound <;> simp_all
    exact ⟨hw, .refl _, hoffset, rfl⟩
  | @other s w r c hrun =>
    exact .inr ⟨hw.call c hrun, (hw.good.call_edited c hrun d).1 he.1, rfl, rfl⟩
  | meanwhile hle faults => exact .inr ⟨hw.meanwhile hle faults, .refl _, rfl, rfl⟩

/-- **Where the entry stands and how often it has been returned.**  It is returned when the scan
passes it, unless it is overtaken. -/
structure Tracked (d : Nat) (e : Str × Nat) (missed : Bool) (s : Scan) (j : Nat) : Prop where
  place : (s.world.fs.entries d)[j]? = some e
  passed : missed = true → j < s.offset
  times : s.times e = if missed = false ∧ j < s.offset then 1 else 0

section Tracked

variable (h : Tracked d e missed s j) (hnodup : ((s.world.fs.entries d).map Prod.snd).Nodup)
include h hnodup

theorem Tracked.place_iff (m : Nat) :
    (s.world.fs.entries d)[m]? = some e ↔ j = m := by
  rw [← h.place, eq_comm]
  exact getElem?_inj (List.getElem?_eq_some_iff.1 h.place).1 (.of_map _ hnodup)

theorem Tracked.write {x : Str × Nat} (hx : (s.world.fs.entries d)[s.offset]? = some x)
    (hworld : s'.world = s.world) (hoffset : s'.offset = s.offset + 1)
    (hreturned : s'.returned = s.returned ++ [s.world.fs.dirEntry x]) :
    Tracked d e missed s' j := by
  have htimes : s'.times e = s.times e + if x = e then 1 else 0 := by
    rw [Scan.times, Scan.times, hreturned, map_append, count_append, map_singleton,
      count_singleton]
    simp [Fs.dirEntry]
  refine ⟨hworld ▸ h.place, fun hm => ?_, ?_⟩
  · have := h.passed hm
    omega
  have hiff : x = e ↔ j = s.offset := by
    rw [← h.place_iff hnodup, hx, some_inj]
  rw [htimes, h.times, if_congr hiff rfl rfl]
  cases missed with
  | false =>
    simp only [true_and]
    split <;> split <;> split <;> omega
  | true =>
    have := h.passed rfl
    simp [this.ne]

theorem Tracked.edit (hedited : Edited (s.world.fs.entries d) (s'.world.fs.entries d))
    (hoffset : s'.offset = s.offset) (hreturned : s'.returned = s.returned)
    (he : e ∈ s'.world.fs.entries d) :
    ∃ j', Tracked d e (missed || decide (Overtaken d e s s')) s' j' := by
  obtain ⟨j', hj'⟩ := getElem?_of_mem he
  have htimes : s'.times e = s.times e := by rw [Scan.times, hreturned]; rfl
  refine ⟨j', ?_⟩
  have hnext := h.place_iff hnodup s.offset
  rcases hedited.place hnodup h.place hj' with ⟨rfl, hstay⟩ | ⟨hmoved, hgone⟩
  · -- it has not moved
    have hnot : ¬ Overtaken d e s s' := by
      rintro ⟨hx, x, hmem, hx'⟩
      exact hx' (hstay x (hnext.1 hx ▸ hmem))
    rw [decide_eq_false hnot, Bool.or_false]
    exact ⟨hj', hoffset ▸ h.passed, by rw [htimes, hoffset, h.times]⟩
  · have hiff : Overtaken d e s s' ↔ j = s.offset := by
      rw [Overtaken, hnext]
      exact ⟨fun hx => hx.1, fun hx => ⟨hx, hx ▸ hgone⟩⟩
    refine ⟨hj', fun hm => ?_, ?_⟩
    · rcases Bool.or_eq_true_iff.1 hm with hm | hm
      · have := h.passed hm
        omega
      · have := hiff.1 (of_decide_eq_true hm)
        omega
    · rw [htimes, h.times]
      simp only [Bool.or_eq_false_iff, decide_eq_false_iff_not, hiff]
      refine if_congr ⟨fun hx => ⟨⟨hx.1, by omega⟩, by omega⟩, fun hx => ⟨hx.1.1, ?_⟩⟩ rfl rfl
      omega

end Tracked

/-- Nothing is overtaken while the directory stays as it is. -/
theorem not_overtaken (h : s'.world = s.world) : ¬ Overtaken d e s s' := by
  rintro ⟨-, x, hx, hgone⟩
  exact hgone (h ▸ mem_map_of_mem (mem_of_mem_take hx))

theorem Scanned.tracked (hw : Reachable w0) (h : Scanned d e w0 missed s) :
    Reachable s.world ∧ Present d e s.world.fs ∧ ∃ j, Tracked d e missed s j := by
  induction h with
  | start he =>
    obtain ⟨j, hj⟩ := getElem?_of_mem he.2
    refine ⟨hw, he, j, hj, by simp, ?_⟩
    simp [Scan.times, Scan.start, Scan.offset]
  | @step missed s s' _ hs he ih =>
    obtain ⟨hw, hpresent, j, hj⟩ := ih
    have hnodup : ((s.world.fs.entries d).map Prod.snd).Nodup :=
      (hw.good.tree.sound d hpresent.1).once
    rcases hs.cases hw hpresent with
      ⟨x, hx, hworld, hoffset, hreturned⟩ | ⟨hw', hedited, hoffset, hreturned⟩
    · rw [decide_eq_false (not_overtaken hworld), Bool.or_false]
      exact ⟨hworld ▸ hw, he, j, hj.write hnodup hx hworld hoffset hreturned⟩
    · exact ⟨hw', he, hj.edit hnodup hedited hoffset hreturned he.2⟩

/-- **What a scan returns of an entry that is there all along.**  When the scan has come to the end
of the directory, the entry has been returned once, unless it has been overtaken: then it has not
been returned at all. -/
theorem scan_returns {w0 : World} (hw : Reachable w0) (h : Scanned d e w0 missed s)
    (hend : (s.world.fs.entries d).length ≤ s.offset) : s.times e = if missed then 0 else 1 := by
  obtain ⟨-, -, j, hj⟩ := h.tracked hw
  have hlt := (List.getElem?_eq_some_iff.1 hj.place).1
  rw [hj.times]
  cases missed with
  | false => simp [hlt.trans_le hend]
  | true => simp

end Run

/-! ## A scan that misses an entry -/

theorem Scanned.scan {d : Nat} {e : Str × Nat} {missed : Bool} {s s' : Scan}
    (h : Scanned d e w0 missed s) (hs : Scan.Step d s s') (hworld : s'.world = s.world)
    (he : Present d e s.world.fs) : Scanned d e w0 missed s' := by
  have h' := h.step hs (hworld ▸ he)
  rwa [decide_eq_false (not_overtaken hworld), Bool.or_false] at h'

/-- A call with room for one record returns the next entry. -/
theorem Scanned.next {w : World} {d position : Nat} {e x : Str × Nat} {missed : Bool}
    {returned : List DirEntry} (hw : Reachable w0)
    (h : Scanned d e w0 missed ⟨w, position, none, returned⟩)
    (hx : (w.fs.entries d)[position]? = some x) :
    Scanned d e w0 missed ⟨w, position + 1, none, returned ++ [w.fs.dirEntry x]⟩ := by
  obtain ⟨hw', he, -⟩ := h.tracked hw
  have hlist : Listable w d (w.fs.entries d) := he.listable hw'
  have hbounds := fun y hy => reclen_bounds (hlist.fits y hy)
  have hx0 := hbounds x (mem_of_getElem? hx)
  have hbuf : replicate (reclen x.1) (0 : UInt8) ≠ [] := by
    simp only [ne_eq, replicate_eq_nil_iff]
    omega
  -- the record fills the buffer
  have hwrite := hlist.run_getdentsRound position 0 (replicate (reclen x.1) 0)
  simp only [hx, length_replicate, Nat.sub_zero, lt_irrefl, if_false] at hwrite
  generalize hout : overwrite (replicate (reclen x.1) (0 : UInt8)) 0
    (record (w.fs.dirEntry x) (position + 1)) = out at hwrite
  have hlen : out.length = reclen x.1 := by
    have hfits : Fits (w.fs.dirEntry x).name := hlist.fits x (mem_of_getElem? hx)
    have hrecord : (record (w.fs.dirEntry x) (position + 1)).length = reclen x.1 :=
      length_record hfits _
    rw [← hout, length_overwrite (by simp [hrecord]), length_replicate]
  have hfull : ∀ y, (w.fs.entries d)[position + 1]? = some y →
      out.length - (0 + reclen x.1) < reclen y.1 := by
    intro y hy
    have := hbounds y (mem_of_getElem? hy)
    omega
  have hdone := hlist.run_getdentsRound_full hfull
  exact ((h.scan (.call hbuf) rfl he).scan (.write hwrite) rfl he).scan (.finish hdone) rfl he

/-- A root directory with the files `a`, `b` and `c`, the inodes 2, 3 and 4. -/
def threeFiles : World :=
  (((run build (World.boot 1 none 1 [])).2.after (.create 1 ['a'] .regular)).after
    (.create 1 ['b'] .regular)).after (.create 1 ['c'] .regular)

theorem reachable_threeFiles : Reachable threeFiles := by
  have hbuild : run build (World.boot 1 none 1 []) =
      (some (.ok ()), (run build (World.boot 1 none 1 [])).2) := rfl
  have hb : Reachable _ := .build (by decide) hbuild
  have hc : Reachable _ := hb.after (c := .create 1 ['a'] .regular) (r := .ok ()) rfl
  have hd : Reachable _ := hc.after (c := .create 1 ['b'] .regular) (r := .ok ()) rfl
  exact hd.after (r := .ok ()) rfl

/-- `a` is returned, and then unlinked.  `b` is where `a` was, so `c` comes next. -/
theorem scan_misses_next :
    ∃ missed s, Scanned 1 (['b'], 3) threeFiles missed s ∧ s.call = none ∧
      (s.world.fs.entries 1).length ≤ s.offset ∧ s.times (['b'], 3) = 0 := by
  have hfirst := (Scanned.start ⟨by decide, by decide⟩ :
    Scanned 1 (['b'], 3) threeFiles _ _).next reachable_threeFiles rfl
  have hunlink := hfirst.step (.other (r := .ok ()) (.unlink 1 ['a'] false) (Prod.ext rfl rfl))
    ⟨by decide, by decide⟩
  exact ⟨_, _, hunlink.next reachable_threeFiles rfl, rfl, by decide, by decide⟩

/-- `a` is returned, and then `c` is unlinked. -/
theorem scan_returns_next :
    ∃ s, Scanned 1 (['b'], 3) threeFiles false s ∧ s.times (['b'], 3) = 1 := by
  have hfirst := (Scanned.start ⟨by decide, by decide⟩ :
    Scanned 1 (['b'], 3) threeFiles _ _).next reachable_threeFiles rfl
  have hunlink := hfirst.step (.other (r := .ok ()) (.unlink 1 ['c'] false) (Prod.ext rfl rfl))
    ⟨by decide, by decide⟩
  have hsecond := hunlink.next reachable_threeFiles rfl
  exact ⟨_, hsecond, scan_returns reachable_threeFiles hsecond (by decide)⟩

end Krust.Process
