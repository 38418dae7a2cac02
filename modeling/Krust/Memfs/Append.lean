import Krust.Lib.Section
import Krust.Memfs.History

/-!
# Appending at the same time

Any number of writers append to one file, through files that were opened for appending.  Each call
holds the `inner` mutex of the inode from the moment it looks at the size to the moment its last
byte is stored, so the calls take turns, whatever else goes on in the kernel.

`Tiled` is what the writers see when it is over: the ranges they were given fill the gap between the
old and the new size without overlapping, and each holds what its writer wrote.  `appends_tiled`
proves it for both kinds of storage, from what one call does (`wp_appendData`) and the serial order
of `Krust.Lib.Section`.  All other calls take turns too (`file_calls_serial`).
-/

set_option autoImplicit false

namespace Krust.Memfs

open Prog SparseFile List World

/-! ## The calls -/

/-- What `OpenFile::write` gets from `append`, and where it leaves the cursor. -/
structure Written where
  offset : Nat
  written : Nat
  cursor : Nat
  deriving DecidableEq

/-- The rest of `OpenFile::write` once `append` has returned. -/
def Written.of (r : Nat × Nat) : Written := ⟨r.1, r.2, r.1 + r.2⟩

/-- `OpenFile::write` of a file that is open for appending.  The old cursor plays no part. -/
def writeAppend (i : Nat) (buf : List UInt8) : Op Written := (append i buf).map .of

def innerMutex (i : Nat) : Mutex World where
  free w := decide (Lock.inner i ∉ w.locks)
  take w := { w with locks := .inner i :: w.locks }
  release w := { w with locks := w.locks.erase (.inner i) }

variable (r : Resource) (offset : Nat) (buf : List UInt8)

theorem writeAppend_eq (i : Nat) (buf : List UInt8) :
    writeAppend i buf = (innerMutex i).guard ((appendData i buf).map .of) := by
  have hmap : (withLock (.inner i) (appendData i buf)).map Written.of =
      withLock (.inner i) ((appendData i buf).map .of) :=
    congrArg (Prog.bind (lock (.inner i))) (funext fun _ => map_andFinally _ (appendData i buf) _)
  exact hmap

/-! ### No call touches a mutex inside its section -/

section Leaves

variable {i : Nat}

theorem leaves_allocate : Leaves locks allocate :=
  (leaves_step fun _ => rfl).bind fun _ => by simp

theorem leaves_reserve : Leaves locks (reserve r) := by
  refine (leaves_step fun w => ?_).bind fun _ => by simp
  by_cases h : w.fs.counter r < w.fs.limit r <;> simp [h, onFs, gain]

theorem leaves_onNode (f : MemoryInode → MemoryInode) :
    Leaves locks (update fun w => w.onNode i f : Op Unit) :=
  leaves_update fun _ => rfl

theorem leaves_findOrAllocate (index : Nat) : Leaves locks (findOrAllocate i index) := by
  refine (leaves_load _).bind fun found => ?_
  cases found with
  | ok slot => exact trivial
  | error slot =>
    refine leaves_allocate.bind fun _ => (leaves_reserve _).bind fun _ => ?_
    have hdrop : Leaves locks (dropCharge .page) := leaves_update fun _ => rfl
    refine (leaves_allocate.onFail hdrop).bind fun _ => ?_
    have hinsert : Leaves locks (insertPage i slot index) := leaves_await fun _ => rfl
    exact hinsert.bind fun _ => trivial

theorem leaves_writeLoop (fuel written : Nat) :
    Leaves locks (writeLoop i offset buf fuel written) := by
  induction fuel generalizing written with
  | zero => exact trivial
  | succ fuel ih =>
    rw [writeLoop]
    split
    · refine (leaves_findOrAllocate _).attempt.bind fun result => ?_
      cases result with
      | error e => dsimp only; split <;> exact trivial
      | ok slot => exact (leaves_onNode _).bind fun _ => ih _
    · exact trivial

theorem leaves_writeRam (data : List UInt8) (offset : Nat) (buf : List UInt8) :
    Leaves locks (writeRam i data offset buf) := by
  rw [writeRam]
  split
  · exact leaves_allocate.bind fun _ => (leaves_onNode _).bind fun _ => trivial
  · exact (leaves_onNode _).bind fun _ => trivial

theorem leaves_writeData : Leaves locks (writeData i offset buf) := by
  refine (leaves_load _).bind fun storage => ?_
  cases storage with
  | directory entries => exact trivial
  | ram data =>
    dsimp only
    split
    · exact trivial
    · exact (leaves_ofExcept _).bind fun _ => leaves_writeRam _ _ _
  | sparse f =>
    dsimp only
    split
    · exact trivial
    · exact (leaves_ofExcept _).bind fun _ => leaves_writeLoop _ _ _ _

theorem leaves_appendData : Leaves locks (appendData i buf) := by
  refine (leaves_load _).bind fun storage => ?_
  cases storage with
  | directory entries => exact trivial
  | ram data => exact (leaves_writeData _ _).bind fun _ => trivial
  | sparse f => exact (leaves_writeData _ _).bind fun _ => trivial

end Leaves

/-! ## One call -/

/-- The storage stands for this vector. -/
def Stands : Storage → List UInt8 → Prop
  | .directory _, _ => False
  | .ram data, v => data = v
  | .sparse f, v => Represents f v

/-- One append to a vector: it stores the first `n` bytes at the end and answers where, or it fails
and stores nothing. -/
inductive AppendStep (buf : List UInt8) : Except FsError Written → List UInt8 → List UInt8 → Prop
  | stored {v : List UInt8} {n : Nat} (hn : n ≤ buf.length) :
      AppendStep buf (.ok (.of (v.length, n))) v (v ++ buf.take n)
  | failed (v : List UInt8) (e : FsError) : AppendStep buf (.error e) v v

theorem store_length (v xs : List UInt8) : store v v.length xs = v ++ xs := by
  rw [store]
  split
  · simp [*]
  · simp [overwrite, resize, take_of_length_le]

/-- The appends among the steps of the abstract file. -/
theorem FlatStep.appendStep {v v' buf : List UInt8} {r : Except FsError (Nat × Nat)}
    (h : FlatStep v (.append buf) (r.map fun x => .appended x.1 x.2) v') :
    AppendStep buf (r.map .of) v v' := by
  generalize hr : (r.map fun x => Answer.appended x.1 x.2) = reply at h
  have hok : ∀ {n : Nat}, reply = .ok (.appended v.length n) →
      r.map Written.of = .ok (.of (v.length, n)) := by
    rintro n rfl
    cases r with
    | error e => simp [Except.map] at hr
    | ok x =>
      obtain ⟨h1, h2⟩ : x.1 = v.length ∧ x.2 = n := by simpa [Except.map] using hr
      simp [Except.map, Written.of, h1, h2]
  have herr : ∀ {e : FsError}, reply = .error e → r.map Written.of = .error e := by
    rintro e rfl
    cases r with
    | error e' => simpa [Except.map] using hr
    | ok x => simp [Except.map] at hr
  cases h with
  | all =>
    simp only [flat, flatWrite] at hok herr ⊢
    split_ifs at hok herr ⊢ with hbuf hend
    · rw [hok rfl]
      simpa using AppendStep.stored (v := v) (n := 0) (Nat.zero_le buf.length)
    · rw [hok rfl, store_length]
      simpa using AppendStep.stored (v := v) (n := buf.length) (le_refl buf.length)
    · rw [herr rfl]
      exact .failed v _
  | shortAppend hpos hn hend =>
    rw [hok rfl, store_length]
    exact .stored hn.le
  | noAppend he hbuf hend =>
    rw [herr rfl]
    exact .failed v _

theorem stands_iff {i : Nat} {w : World} {v : List UInt8} :
    Stands (w.fs.node i).storage v ↔ ∃ k, FileAt i Unknown k v w := by
  constructor
  · intro h
    cases hstorage : (w.fs.node i).storage <;> rw [hstorage] at h
    · exact h.elim
    · exact ⟨false, .ram ⟨hstorage.trans (congrArg _ h), trivial⟩⟩
    · exact ⟨true, .sparse ⟨hstorage, trivial⟩ h⟩
  · rintro ⟨_, hw | ⟨hw, hf⟩⟩ <;> rw [hw.1]
    · rfl
    · exact hf

/-- **One call makes one step**, on either kind of storage and in any company that leaves the
storage alone. -/
theorem wp_appendData {i : Nat} {w : World} {v : List UInt8} (hw : Stands (w.fs.node i).storage v)
    (buf : List UInt8) :
    wp (Others i) ((appendData i buf).map .of)
      (fun r w' => ∃ v', AppendStep buf r v v' ∧ Stands (w'.fs.node i).storage v') w := by
  obtain ⟨k, hfile⟩ := stands_iff.1 hw
  have hcall := wp_body (quiet_others i) hfile (c := .append buf) rfl (.inr (.inr ⟨buf, rfl⟩))
  rw [FileCall.body, wp_map] at hcall
  rw [wp_map]
  refine wp_mono ?_ hcall
  rintro r w' ⟨v', hw', hstep, -⟩
  exact ⟨v', hstep.appendStep, stands_iff.2 ⟨k, hw'⟩⟩

/-! ## All calls -/

/-- The ranges that the calls got, the call `n` with the buffer `bufs n`, when the file has grown
from `v0` to `v`. -/
structure Tiled (bufs : Nat → List UInt8) (returned : Nat → Written → Prop) (v0 v : List UInt8) :
    Prop where
  grown : v0 <+: v
  /-- The ranges lie in the part that is new. -/
  new : ∀ n x, returned n x → v0.length ≤ x.offset ∧ x.offset + x.written ≤ v.length
  /-- No two of them overlap. -/
  disjoint : ∀ n n' x x', n ≠ n' → returned n x → returned n' x' →
    x.offset + x.written ≤ x'.offset ∨ x'.offset + x'.written ≤ x.offset
  /-- Together they are all of that part. -/
  cover : ∀ pos, v0.length ≤ pos → pos < v.length →
    ∃ n x, returned n x ∧ x.offset ≤ pos ∧ pos < x.offset + x.written
  /-- Each holds the first bytes of its buffer. -/
  holds : ∀ n x, returned n x → x.written ≤ (bufs n).length ∧
    slice v x.offset x.written = (bufs n).take x.written
  cursor : ∀ n x, returned n x → x.cursor = x.offset + x.written

variable {bufs : Nat → List UInt8} {v0 : List UInt8}

/-- The steps of a history, each by a call of its own, tile the file. -/
theorem tiled_of_trace {v : List UInt8}
    {log : List (Nat × Except FsError Written)} (h : Trace (fun n => AppendStep (bufs n)) v0 log v)
    (hnodup : (log.map Prod.fst).Nodup) : Tiled bufs (fun n x => (n, .ok x) ∈ log) v0 v := by
  induction h with
  | nil => exact ⟨prefix_refl _, by simp, by simp, fun _ _ _ => by omega, by simp, by simp⟩
  | @snoc log v v' _ n r hstep ih =>
    rw [map_append, nodup_append] at hnodup
    have ih := ih hnodup.1
    cases hstep with
    | failed _ e =>
      -- a call that fails has no range
      have hsame : ∀ n' x, (n', Except.ok x) ∈ log ++ [(n, .error e)] ↔
          (n', Except.ok x) ∈ log := by
        simp
      simpa only [hsame] using ih
    | @stored _ k hk =>
      have hlen : (v ++ (bufs n).take k).length = v.length + k := by simp [hk]
      have hmem : ∀ {n' x}, (n', Except.ok x) ∈ log ++ [(n, .ok (Written.of (v.length, k)))] →
          (n', Except.ok x) ∈ log ∨ n' = n ∧ x = .of (v.length, k) := by
        simp
      refine ⟨ih.grown.trans (prefix_append _ _), ?_, ?_, ?_, ?_, ?_⟩
      · intro n' x hx
        rcases hmem hx with hx | ⟨-, rfl⟩
        · have := ih.new n' x hx
          omega
        · exact ⟨ih.grown.length_le, by rw [hlen]; exact le_rfl⟩
      · -- the new range starts where all the others have ended
        intro n1 n2 x1 x2 hne h1 h2
        rcases hmem h1 with h1 | ⟨rfl, rfl⟩
        · rcases hmem h2 with h2 | ⟨-, rfl⟩
          · exact ih.disjoint n1 n2 x1 x2 hne h1 h2
          · exact .inl (ih.new n1 x1 h1).2
        rcases hmem h2 with h2 | ⟨rfl, -⟩
        · exact .inr (ih.new n2 x2 h2).2
        · exact absurd rfl hne
      · intro pos hpos hlt
        by_cases hold : pos < v.length
        · obtain ⟨n', x, hx, hin⟩ := ih.cover pos hpos hold
          exact ⟨n', x, mem_append_left _ hx, hin⟩
        refine ⟨n, _, mem_append_right _ (mem_singleton_self _), ?_⟩
        dsimp only [Written.of]
        omega
      · intro n' x hx
        rcases hmem hx with hx | ⟨rfl, rfl⟩
        · obtain ⟨hle, hslice⟩ := ih.holds n' x hx
          refine ⟨hle, ?_⟩
          have hin := (ih.new n' x hx).2
          rw [← hslice, slice, slice, drop_append_of_le_length (by omega),
            take_append_of_le_length (by simp; omega)]
        · refine ⟨hk, ?_⟩
          simp [slice, Written.of]
      · intro n' x hx
        rcases hmem hx with hx | ⟨-, rfl⟩
        · exact ih.cursor n' x hx
        · rfl

theorem sections_appends (i : Nat) (bufs : Nat → List UInt8) :
    Crew.Sections (innerMutex i) (Others i) (fun n => writeAppend i (bufs n))
      (fun n => (appendData i (bufs n)).map .of) (fun n => AppendStep (bufs n))
      fun w v => Stands (w.fs.node i).storage v where
  guarded n := writeAppend_eq i (bufs n)
  refl _ := rfl
  trans h h' := h'.trans h
  abs h hv := by rwa [h]
  take _ := rfl
  taken w := by simp [innerMutex]
  release _ := rfl
  leaves n := ((leaves_appendData (bufs n)).comp fun ls => decide (Lock.inner i ∉ ls)).map _
  step hv := wp_appendData hv _

def Returned (c : Crew World FsError Written) (n : Nat) (x : Written) : Prop :=
  (c.prog n).outcome = some (.ok x)

/-- **Concurrent appends tile the file.**  Calls append to one file in any interleaving, in any
company that leaves its storage alone, with quota and allocations failing at any point.  Whenever
none of them is on its way, the ranges they have returned lie side by side between the old and the
new end of the file, each with the first bytes of its buffer, and each cursor stands at the end of
its range. -/
theorem appends_tiled {i : Nat} {w0 : World}
    {c : Crew World FsError Written} (hfile : Stands (w0.fs.node i).storage v0)
    (hrun : Crew.Reached (innerMutex i) (Others i) (fun n => writeAppend i (bufs n)) w0 c)
    (hrest : ∀ n, ¬ c.Inside n) :
    ∃ v, Stands (c.shared.fs.node i).storage v ∧ Tiled bufs (Returned c) v0 v := by
  obtain ⟨log, v, hserial⟩ := hrun.serial (sections_appends i bufs) hfile
  have hreturned : ∀ n x, Returned c n x ↔ (n, .ok x) ∈ log := by
    intro n x
    rw [hserial.left, Returned]
    refine ⟨fun h => ⟨?_, h⟩, fun h => h.2⟩
    -- a call that has not begun has not returned
    by_contra hbegun
    rw [hserial.waiting n hbegun] at h
    exact nomatch h
  refine ⟨v, hserial.quiet hrest, ?_⟩
  have htiled := tiled_of_trace hserial.trace hserial.nodup
  simpa only [← hreturned] using htiled

theorem appends_tiled_oneFile :
    ∃ (c : Crew World FsError Written) (v : List UInt8),
      Returned c 0 ⟨0, 2, 2⟩ ∧ Returned c 1 ⟨2, 1, 3⟩ ∧ Stands (c.shared.fs.node 7).storage v ∧
        Tiled (fun n => if n = 0 then [1, 2] else [3]) (Returned c) [] v := by
  have hrun1 : run (writeAppend 7 [1, 2]) (oneFile (some .default)) =
      (some (.ok ⟨0, 2, 2⟩), (run (writeAppend 7 [1, 2]) (oneFile (some .default))).2) :=
    Prod.ext (by decide +kernel) rfl
  have hrun2 : run (writeAppend 7 [3]) (run (writeAppend 7 [1, 2]) (oneFile (some .default))).2 =
      (some (.ok ⟨2, 1, 3⟩), (run (writeAppend 7 [3])
        (run (writeAppend 7 [1, 2]) (oneFile (some .default))).2).2) :=
    Prod.ext (by decide +kernel) rfl
  have hstart : Crew.Reached (innerMutex 7) (Others 7)
      (fun n => writeAppend 7 (if n = 0 then [1, 2] else [3])) (oneFile (some .default)) _ := .start
  obtain ⟨p, hp, hfirst⟩ := hstart.run 0 nofun hrun1
  obtain ⟨q, hq, hsecond⟩ := hfirst.run 1 nofun hrun2
  have hfile : Stands ((oneFile (some .default)).fs.node 7).storage [] := represents_empty
  obtain ⟨v, hv, htiled⟩ := appends_tiled hfile hsecond (fun n hn => by
    rcases hn with ⟨hbegun, hout⟩
    rcases n with _ | _ | n
    · simp [Crew.act, hp] at hout
    · simp [Crew.act, hq] at hout
    · simp [Crew.act] at hbegun)
  exact ⟨_, v, by simpa [Returned, Crew.act] using hp, by simpa [Returned, Crew.act] using hq, hv,
    htiled⟩

/-! ## Calls of every kind -/

variable {i : Nat}

theorem leaves_retainPages (newSize fuel : Nat) : Leaves locks (retainPages i newSize fuel) := by
  induction fuel with
  | zero => exact trivial
  | succ fuel ih =>
    refine (leaves_step fun w => ?_).bind fun taken => ?_
    · split <;> rfl
    cases taken with
    | false => exact trivial
    | true =>
      have hdrop : Leaves locks (dropCharge .page) := leaves_update fun _ => rfl
      exact hdrop.bind fun _ => ih

theorem leaves_body (c : FileCall) : Leaves locks (c.body i) := by
  cases c with
  | write offset buf => exact (leaves_writeData offset buf).map _
  | append buf => exact (leaves_appendData buf).map _
  | truncate newSize =>
    refine .map ((leaves_load _).bind fun storage => ?_) _
    cases storage with
    | directory entries => exact trivial
    | ram data =>
      dsimp only [truncateRam]
      split
      · exact leaves_allocate.bind fun _ => leaves_onNode _
      · exact leaves_onNode _
    | sparse f =>
      dsimp only [truncateSparse]
      split
      · exact (leaves_retainPages _ _).bind fun _ => leaves_onNode _
      · exact leaves_onNode _
  | read offset buf =>
    refine .map ((leaves_load _).bind fun storage => ?_) _
    cases storage <;> exact trivial
  | size => exact ((leaves_load _).map _).map _

theorem sections_calls {calls : Nat → FileCall} (hcalls : ∀ n, (calls n).tooLarge = false) :
    Crew.Sections (innerMutex i) (Others i) (fun n => (calls n).prog i)
      (fun n => (calls n).body i) (fun n r v v' => FlatStep v (calls n) r v')
      fun w v => FileAt i Unknown true v w where
  guarded n := by
    show (calls n).prog i = _
    rw [FileCall.prog_eq, hcalls n]
    rfl
  refl _ := rfl
  trans h h' := h'.trans h
  abs h hv := (quiet_others i).fileAt h hv
  take _ := rfl
  taken w := by simp [innerMutex]
  release _ := rfl
  leaves n := (leaves_body (calls n)).comp fun ls => decide (Lock.inner i ∉ ls)
  step hv := wp_mono (fun _ _ ⟨v', hw', hstep, _⟩ => ⟨v', hstep, hw'⟩)
    (wp_body (quiet_others i) hv (hcalls _) (.inl rfl))

/-- **The calls on a file take effect one after the other.**  Calls write, append to, truncate, read
and measure one sparse file in any interleaving, in any company that leaves its storage alone, with
quota and allocations failing at any point.  What they have returned is a history of the abstract
file, and whenever none of them is on its way the file is what that history leads to. -/
theorem file_calls_serial {calls : Nat → FileCall} (hcalls : ∀ n, (calls n).tooLarge = false)
    {w0 : World} {c : Crew World FsError Answer}
    (hfile : FileAt i Unknown true v0 w0)
    (hrun : Crew.Reached (innerMutex i) (Others i) (fun n => (calls n).prog i) w0 c) :
    ∃ log v, Trace (fun n r v v' => FlatStep v (calls n) r v') v0 log v ∧
      (log.map Prod.fst).Nodup ∧ (∀ n r, (n, r) ∈ log ↔ (c.prog n).outcome = some r) ∧
      ((∀ n, ¬ c.Inside n) → FileAt i Unknown true v c.shared) := by
  obtain ⟨log, v, h⟩ := hrun.serial (sections_calls hcalls) hfile
  refine ⟨log, v, h.trace, h.nodup, fun n r => ?_, h.quiet⟩
  rw [h.left, and_iff_right_iff_imp]
  intro hr
  by_contra hbegun
  rw [h.waiting n hbegun] at hr
  cases hr

theorem file_calls_serial_write :
    ∃ log v, Trace (fun _ r v v' => FlatStep v (.write 1 [7]) r v') [] log v ∧
      (0, .ok (.wrote 1)) ∈ log := by
  have hrun : run ((FileCall.write 1 [7]).prog 7) (oneFile (some .default)) =
      (some (.ok (.wrote 1)), _) := Prod.ext (by decide +kernel) rfl
  have hstart : Crew.Reached (innerMutex 7) (Others 7) (fun _ => (FileCall.write 1 [7]).prog 7)
      (oneFile (some .default)) _ := .start
  obtain ⟨p, hp, hdone⟩ := hstart.run 0 nofun hrun
  obtain ⟨log, v, htrace, -, hlog, -⟩ := file_calls_serial (fun _ => rfl)
    (.sparse ⟨rfl, trivial⟩ represents_empty) hdone
  exact ⟨log, v, htrace, (hlog 0 _).2 (by simpa [Crew.act] using hp)⟩

end Krust.Memfs
