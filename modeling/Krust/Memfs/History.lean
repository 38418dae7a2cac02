import Krust.Memfs.Refine

/-!
# Whole histories of a file

Any sequence of calls on one file, with the outcome of each.  `History rely i` is such a sequence
executed on the inode `i` while the others act within `rely`; `replies` is the same with nobody
else around.  The main result, `sparse_history_flat`, compares a tmpfs file with the abstract file
and with a ramfs file.
-/

set_option autoImplicit false

namespace Krust.Memfs

open Prog SparseFile List Option FileCall Prod

/-- A sequence of calls on the inode `i`, executed in company, with their outcomes. -/
inductive History (rely : World → World → Prop) (i : Nat) :
    World → List (FileCall × Reply) → World → Prop
  | nil (w : World) : History rely i w [] w
  | cons {w w1 w2 : World} {c : FileCall} {r : Reply} {h : List (FileCall × Reply)}
      (hc : Exec rely (c.prog i) w r w1) (hrest : History rely i w1 h w2) :
      History rely i w ((c, r) :: h) w2

/-- The outcomes of a sequence of calls on the inode `i` with nobody else around; `none` if a call
does not return. -/
def replies (i : Nat) : World → List FileCall → Option (List Reply)
  | _, [] => some []
  | w, c :: cs =>
    match run (c.prog i) w with
    | (some r, w') => (replies i w' cs).map (r :: ·)
    | (none, _) => none

/-- The others leave the storage of this inode alone.  Everything else is theirs: the counters,
the memory, the mutexes, the other inodes. -/
def Others (i : Nat) (w w' : World) : Prop :=
  (w'.fs.node i).storage = (w.fs.node i).storage

/-- The next allocation succeeds, and so does the next reservation of a page. -/
def Plenty (w : World) : Prop :=
  w.faults = [] ∧ w.fs.counter .page < w.fs.limit .page

/-! ## One call -/

variable {c : FileCall} {i : Nat} {k : Bool} {v : List UInt8} {w w' : World}

/-- Nothing is known of the mutexes and the allocations. -/
abbrev Unknown : List Lock → List Bool → Prop := fun _ _ => True

/-- These mutexes are held, and for a vector no allocation will fail. -/
def Alone (ls : List Lock) (k : Bool) (ls' : List Lock) (faults : List Bool) : Prop :=
  ls' = ls ∧ (k = false → faults = [])

theorem FileAt.known {P : List Lock → List Bool → Prop} (h : FileAt i P k v w) :
    P w.locks w.faults := by
  cases h with
  | ram hw => exact hw.2
  | sparse hw => exact hw.2

theorem FileAt.of_fs {P P' : List Lock → List Bool → Prop} (h : FileAt i P k v w)
    (hfs : w'.fs = w.fs) (hP : P' w'.locks w'.faults) : FileAt i P' k v w' := by
  cases h with
  | ram hw => exact .ram ⟨hfs ▸ hw.1, hP⟩
  | sparse hw hf => exact .sparse ⟨hfs ▸ hw.1, hP⟩ hf

/-- The only call that is refused before the mutex is taken. -/
theorem flat_of_tooLarge (hc : c.tooLarge = true) : flat v c = (.error .fileTooLarge, v) := by
  cases c with
  | truncate newSize => exact if_pos (of_decide_eq_true hc)
  | _ => cases hc

theorem exec_call {room : Bool → Prop} {rely : World → World → Prop}
    (hq : Quiet i room Unknown rely) (hw : FileAt i Unknown true v w) {r : Reply}
    (h : Exec rely (c.prog i) w r w') : CallPost i room Unknown true v c r w' := by
  rw [prog_eq] at h
  cases hc : c.tooLarge with
  | true =>
    rw [hc] at h
    cases h
    exact .of_flat (flat_of_tooLarge hc).symm hw
  | false =>
    rw [hc] at h
    obtain ⟨w1, w2, w3, h1, hbody, h3, rfl⟩ := exec_withLock h
    have hlocked : FileAt i Unknown true v { w1 with locks := .inner i :: w1.locks } :=
      (hq.fileAt h1 hw).of_fs rfl trivial
    obtain ⟨v', hw', hstep, hflat⟩ := wp_sound hbody (wp_body hq hlocked hc (.inl rfl))
    exact ⟨v', (hq.fileAt h3 hw').of_fs rfl trivial, hstep, hflat⟩

/-- One call with nobody else around: it returns, and on a vector it does what `flat` says. -/
theorem run_call {ls : List Lock} (hw : FileAt i (Alone ls k) k v w) (hl : Lock.inner i ∉ ls)
    (c : FileCall) :
    ∃ r w' v', run (c.prog i) w = (some r, w') ∧ FileAt i (Alone ls k) k v' w' ∧
      (k = false → (r, v') = flat v c) := by
  obtain ⟨hlocks, hfaults⟩ := hw.known
  suffices h : Ends (c.prog i) (fun r w' => ∃ x v', r = some x ∧ FileAt i (Alone ls k) k v' w' ∧
      (k = false → (x, v') = flat v c)) w by
    obtain ⟨r, v', hr, h⟩ := h
    exact ⟨r, _, v', Prod.ext hr rfl, h⟩
  rw [prog_eq, ends_failIf]
  cases hc : c.tooLarge with
  | true => exact ⟨_, v, rfl, hw, fun _ => (flat_of_tooLarge hc).symm⟩
  | false =>
    rw [ends_withLock (hlocks ▸ hl)]
    have hq : Quiet i (fun k' => k = false ∧ k' = false) (Alone (.inner i :: ls) k)
        (Eq : World → World → Prop) :=
      ⟨fun h => by rw [h], fun h _ hP => hP.2 h.1, fun h => (nomatch h.2), fun h hP => h ▸ hP,
        fun hP => ⟨hP.1, fun h => by rw [hP.2 h]; rfl⟩⟩
    have hlocked : FileAt i (Alone (.inner i :: ls) k) k v
        { w with locks := .inner i :: w.locks } :=
      hw.of_fs rfl ⟨congrArg _ hlocks, hfaults⟩
    obtain ⟨r, w', hr, v', hw', -, hflat⟩ :=
      wp_run (fun _ => rfl) (wp_body hq hlocked hc (by cases k <;> simp))
    obtain ⟨hlocks', hfaults'⟩ := hw'.known
    rw [Ends, hr]
    refine ⟨r, v', rfl, hw'.of_fs rfl ⟨?_, hfaults'⟩, fun h => hflat ⟨h, h⟩⟩
    dsimp only
    rw [hlocks']
    exact erase_cons_head ..

/-! ## All calls -/

/-- Every sequence of calls can be made, and left alone it is made. -/
theorem exists_history {ls : List Lock} (hw : FileAt i (Alone ls k) k v w)
    (hl : Lock.inner i ∉ ls) (cs : List FileCall) :
    ∃ h w', History (Others i) i w h w' ∧ h.map fst = cs ∧
      replies i w cs = some (h.map snd) := by
  induction cs generalizing w v with
  | nil => exact ⟨[], w, .nil w, rfl, rfl⟩
  | cons c cs ih =>
    obtain ⟨r, w1, v', hr, hw', -⟩ := run_call hw hl c
    obtain ⟨h, w', hh, rfl, hrest⟩ := ih hw'
    refine ⟨(c, r) :: h, w', .cons (exec_of_run (fun _ => (rfl : Others i _ _)) hr) hh, rfl, ?_⟩
    simp only [map_cons, replies, hr, hrest, map_some]

theorem quiet_others (i : Nat) : Quiet i (fun _ => False) Unknown (Others i) :=
  ⟨id, fun h => h.elim, fun h => h.elim, fun _ h => h, fun h => h⟩

theorem quiet_plenty (i : Nat) :
    Quiet i (fun _ => True) Unknown (fun w w' => Others i w w' ∧ Plenty w') :=
  ⟨fun h => h.1, fun _ h _ => h.2.1, fun _ h => h.2.2, fun _ h => h, fun h => h⟩

theorem History.flatTrace {h : List (FileCall × Reply)} (hh : History (Others i) i w h w')
    (hw : FileAt i Unknown true v w) : FlatTrace v h := by
  induction hh generalizing v with
  | nil => exact .nil v
  | cons hc _ ih =>
    obtain ⟨v', hw', hstep, -⟩ := exec_call (quiet_others i) hw hc
    exact .cons hstep (ih hw')

/-- **When nothing fails, tmpfs and ramfs are the same**: a vector answers what the sparse file
answered. -/
theorem History.replies_ram {j : Nat} {u : World} {h : List (FileCall × Reply)} {ls : List Lock}
    (hh : History (fun w w' => Others i w w' ∧ Plenty w') i w h w')
    (hw : FileAt i Unknown true v w) (hu : FileAt j (Alone ls false) false v u)
    (hl : Lock.inner j ∉ ls) : replies j u (h.map fst) = some (h.map snd) := by
  induction hh generalizing v u with
  | nil => rfl
  | @cons w w1 w2 c r h hc _ ih =>
    obtain ⟨v', hw', -, hflat⟩ := exec_call (quiet_plenty i) hw hc
    obtain ⟨r', u', v'', hr, hu', hflat'⟩ := run_call hu hl c
    obtain ⟨rfl, rfl⟩ := mk.inj ((hflat' rfl).trans (hflat trivial).symm)
    simp only [map_cons, replies, hr, ih hw' hu', map_some]

/-- **A tmpfs file is a flat byte vector.**  In any company that leaves its storage alone, with
the quota and the allocations failing at any point, a new sparse file answers every call as the
vector does of which exactly the reported part of each write was stored; when nothing fails it
answers as a ramfs file does; and every sequence of calls, left alone, is answered. -/
theorem sparse_history_flat (i : Nat) :
    (∀ (w w' : World) (h : List (FileCall × Reply)),
      (w.fs.node i).storage = .sparse SparseFile.empty → History (Others i) i w h w' →
        FlatTrace [] h) ∧
    (∀ (w w' : World) (h : List (FileCall × Reply)),
      (w.fs.node i).storage = .sparse SparseFile.empty →
      History (fun w w' => Others i w w' ∧ Plenty w') i w h w' →
      ∀ (j : Nat) (u : World), (u.fs.node j).storage = .ram [] → u.faults = [] →
        Lock.inner j ∉ u.locks → replies j u (h.map fst) = some (h.map snd)) ∧
    (∀ (w : World) (cs : List FileCall), (w.fs.node i).storage = .sparse SparseFile.empty →
      Lock.inner i ∉ w.locks → ∃ h w', History (Others i) i w h w' ∧ h.map fst = cs ∧
        replies i w cs = some (h.map snd)) := by
  refine ⟨fun w w' h hw hh => hh.flatTrace (.sparse ⟨hw, trivial⟩ represents_empty),
    fun w w' h hw hh j u hu hfaults hl => ?_,
    fun w cs hw hl => exists_history (.sparse ⟨hw, rfl, nofun⟩ represents_empty) hl cs⟩
  exact hh.replies_ram (.sparse ⟨hw, trivial⟩ represents_empty)
    (.ram ⟨hu, rfl, fun _ => hfaults⟩) hl

/-- A file system with one file, the inode 7. -/
def oneFile (limits : Option TmpfsOptions) : World :=
  (World.boot 1 limits 8 []).addInode 7 .regular 1

theorem sparse_history_flat_oneFile :
    (∃ h w', History (Others 7) 7 (oneFile (some .default)) h w' ∧
      h.map fst = [.write 4094 [1, 2, 3], .truncate 4095, .size] ∧ FlatTrace [] h) ∧
    replies 7 (oneFile none) [.write 4095 [7]] = some [.ok (.wrote 1)] := by
  obtain ⟨hflat, hram, hall⟩ := sparse_history_flat 7
  refine ⟨?_, ?_⟩
  · obtain ⟨h, w', hh, hcs, -⟩ := hall (oneFile (some .default))
      [.write 4094 [1, 2, 3], .truncate 4095, .size] rfl (by decide)
    exact ⟨h, w', hh, hcs, hflat (oneFile (some .default)) w' h rfl hh⟩
  · have hwrite : ∃ w', Exec (fun w w' => Others 7 w w' ∧ Plenty w')
        ((FileCall.write 4095 [7]).prog 7) (oneFile (some .default)) (.ok (.wrote 1)) w' := by
      have act : ∀ {α β : Type} {f : World → Option (β × World)} {k : β → Op α} {s s2 : World}
          {b : β} {r : Except FsError α}, Plenty s → f s = some (b, s2) →
          (∃ s3, Exec (fun w w' => Others 7 w w' ∧ Plenty w') (k b) s2 r s3) →
          ∃ s3, Exec (fun w w' => Others 7 w w' ∧ Plenty w') (.act f k) s r s3 :=
        fun hs hf ⟨s3, hk⟩ => ⟨s3, .act ⟨rfl, hs⟩ hf hk⟩
      iterate 9 refine act ⟨rfl, by decide⟩ rfl ?_
      exact ⟨_, .ret _ _⟩
    obtain ⟨w', hw'⟩ := hwrite
    exact hram (oneFile (some .default)) w' [(.write 4095 [7], .ok (.wrote 1))] rfl
      (.cons hw' (.nil w')) 7 (oneFile none) rfl rfl (by decide)

end Krust.Memfs
