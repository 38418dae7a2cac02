import Krust.Process.Access
import Krust.Vfs.Walk

/-!
# Opening files that must not exist

`open` with `O_CREAT` looks the path up, creates the file if it was not found, and then opens it.
These are three steps, and other calls can come in between.  With `O_EXCL` the open is to fail if
the file exists, and what makes sure of this is not the lookup but the second step: `create` looks
for the name again, with the directory's mutex held.

So of any number of such opens of one path, in any interleaving and in any company, at most one
passes its second step until an `unlink` or a `rename` takes away an entry on the path
(`exclusive_creates`).
-/

set_option autoImplicit false

namespace Krust.Process

open Lib Memfs Prog Vfs List Function Option System

/-! ## `create_path` -/

def splitParentName (path : Str) : Except FsError (Str × Str) :=
  match rsplitOnce '/' path with
  | none => .error .notFound
  | some (parent, name) =>
    if name = [] then .error .notFound
    else .ok (if parent = [] then ['/'] else parent, name)

section CreatePath

variable {F : Type} (foreign : Foreign F) (v : System F)

/-- `create_path`, up to the directory and the name. -/
def createTarget (path : Str) : Except FsError (Inode F × Str) := do
  let normalized ← normalizeAbsolutePath path
  if normalized = ['/'] then .error .alreadyExists
  else
    let (parentPath, name) ← splitParentName normalized
    let parent ← v.lookupPath foreign parentPath
    return (parent, name)

structure Ran (k : Nat) (c : Memfs.Call) (r : Except FsError Unit) (v' : System F) : Prop where
  run : run c.prog (v.memory k) = (some r, v'.memory k)
  others : ∀ j, j ≠ k → v'.memory j = v.memory j
  table : v'.toManager = v.toManager

/-- What `create_path` returns, and the system after it.  Of the file systems that are not kept in
memory, nothing is said. -/
inductive CreatePath (path : Str) : Except FsError (Inode F) → System F → Prop
  | refused {e : FsError} (h : createTarget foreign v path = .error e) :
      CreatePath path (.error e) v
  | created {k d i : Nat} {name : Str} {v' : System F}
      (h : createTarget foreign v path = .ok (.memory k d, name))
      (hran : Ran v k (.create d name .regular) (.ok ()) v')
      (hi : (name, i) ∈ (v'.memory k).fs.entries d) : CreatePath path (.ok (.memory k i)) v'
  | failed {k d : Nat} {name : Str} {e : FsError} {v' : System F}
      (h : createTarget foreign v path = .ok (.memory k d, name))
      (hran : Ran v k (.create d name .regular) (.error e) v') : CreatePath path (.error e) v'
  | foreign {f : F} {name : Str} (h : createTarget foreign v path = .ok (.foreign f, name))
      (r : Except FsError F) : CreatePath path (r.map .foreign) v

end CreatePath

/-! ## `open_with_mode` -/

structure OpenCall where
  absolute : Str
  flags : Nat
  permissions : Nat
  uid : Nat
  gid : Nat

/-- What a call does next. -/
inductive Phase (F : Type)
  | lookup
  | create
  | metadata (fs ino : Nat)
  | openPath
  | truncate (inode : Inode F)
  /-- The file is open, and is handed to `process::open_file`. -/
  | opened
  | failed (errno : Int)

def Phase.afterMetadata {F : Type} : Except FsError Unit → Phase F
  | .ok _ => .openPath
  | .error e => .failed (errnoFromFs e)

def Phase.afterTruncate {F : Type} : Except FsError Unit → Phase F
  | .ok _ => .opened
  | .error e => .failed (errnoFromFs e)

namespace OpenCall

variable {F : Type} (c : OpenCall)

/-- `flags & 0x40 != 0`: `O_CREAT`. -/
def creates : Bool := c.flags &&& 0x40 != 0

/-- `flags & 0x80 != 0`: `O_EXCL`. -/
def exclusive : Bool := c.flags &&& 0x80 != 0

/-- The checks at the beginning. -/
def start : Phase F :=
  match checkFlags c.flags with
  | .error errno => .failed errno
  | .ok () => if c.creates then .lookup else .openPath

def afterLookup : Except FsError (Inode F) → Phase F
  | .ok _ => if c.exclusive then .failed (-17) else .openPath
  | .error .notFound => .create
  | .error e => .failed (errnoFromFs e)

def afterCreate : Except FsError (Inode F) → Phase F
  | .ok (.memory k i) => .metadata k i
  | .ok (.foreign _) => .openPath
  | .error .alreadyExists => if c.exclusive then .failed (-17) else .openPath
  | .error e => .failed (errnoFromFs e)

/-- After `open_path`, which has found a file of this type. -/
def afterOpen (fileType : Inode F → FileType) : Except FsError (Inode F) → Phase F
  | .error e => .failed (errnoFromFs e)
  | .ok inode =>
    match checkOpened c.flags (fileType inode) with
    | .error errno => .failed errno
    | .ok truncates => if truncates then .truncate inode else .opened

/-- The owner and the permissions of a new file. -/
def newMetadata : SetMetadata := ⟨some c.uid, some c.gid, some (c.permissions &&& 0o7777)⟩

end OpenCall

open OpenCall

/-! ## Interleavings -/

/-- The system, and the calls of `open_with_mode` that are on their way or have ended. -/
structure Opening (F : Type) where
  foreign : Foreign F
  system : System F
  calls : Nat → Option (OpenCall × Phase F)

namespace Opening

variable {F : Type}

def turn (s : Opening F) (n : Nat) (c : OpenCall) (phase : Phase F) (v : System F) : Opening F :=
  { s with system := v, calls := Function.update s.calls n (some (c, phase)) }

inductive OpenStep (s : Opening F) (n : Nat) (c : OpenCall) : Phase F → Opening F → Prop
  | lookup : OpenStep s n c .lookup
      (s.turn n c (c.afterLookup (s.system.lookupPath s.foreign c.absolute)) s.system)
  | create {r : Except FsError (Inode F)} {v : System F}
      (hcreate : CreatePath s.foreign s.system c.absolute r v) :
      OpenStep s n c .create (s.turn n c (c.afterCreate r) v)
  | metadata {k i : Nat} {r : Except FsError Unit} {v : System F}
      (hran : Ran s.system k (.setMetadata i c.newMetadata) r v) :
      OpenStep s n c (.metadata k i) (s.turn n c (.afterMetadata r) v)
  /-- `OpenFile::new` may fail, if the file is a device. -/
  | openPath (answer : Except FsError Unit) :
      OpenStep s n c .openPath (s.turn n c (c.afterOpen (s.system.fileType s.foreign)
        ((s.system.lookupPath s.foreign c.absolute).bind fun i => answer.map fun _ => i)) s.system)
  | truncate {k i : Nat} {r : Except FsError Unit} {v : System F}
      (hran : Ran s.system k (.truncate i 0) r v) :
      OpenStep s n c (.truncate (.memory k i)) (s.turn n c (.afterTruncate r) v)
  | truncateForeign {f : F} (r : Except FsError Unit) :
      OpenStep s n c (.truncate (.foreign f)) (s.turn n c (.afterTruncate r) s.system)

/-- The system call has been made from this directory, and has returned. -/
structure Mutates (s : Opening F) (cwd : Option Str) (c : Mutation) (r : Except Int Unit)
    (v : System F) : Prop where
  exec : s.system.exec s.foreign cwd c = (some r, v.memory)
  table : v.toManager = s.system.toManager

inductive Step (s : Opening F) : Opening F → Prop
  | begin {n : Nat} {c : OpenCall} {cwd : Option Str} {path : Str} (hfree : s.calls n = none)
      (hpath : resolveAbsolute cwd path = .ok c.absolute) : Step s (s.turn n c c.start s.system)
  | advance {n : Nat} {c : OpenCall} {phase : Phase F} {s' : Opening F}
      (hcall : s.calls n = some (c, phase)) (hstep : OpenStep s n c phase s') : Step s s'
  | mutate {cwd : Option Str} {c : Mutation} {r : Except Int Unit} {v : System F}
      (h : Mutates s cwd c r v) : Step s { s with system := v }
  /-- A call of another kind. -/
  | other {k : Nat} {c : Memfs.Call} {r : Except FsError Unit} {v : System F}
      (hc : c.takesAway = false) (hran : Ran s.system k c r v) : Step s { s with system := v }
  /-- The other file systems change. -/
  | elsewhere (foreign : Foreign F) : Step s { s with foreign := foreign }

/-- An open with `O_CREAT` and `O_EXCL` passes its second step. -/
def Passes (s : Opening F) (n : Nat) (c : OpenCall) (s' : Opening F) : Prop :=
  c.creates = true ∧ c.exclusive = true ∧ s.calls n = some (c, .create) ∧
    OpenStep s n c .create s' ∧ ∀ e, s'.calls n ≠ some (c, .failed e)

end Opening

open Opening

/-- The segments of a path as `create_path` reads it. -/
def createdPath (path : Str) : Except FsError (List Str) := do
  let normalized ← normalizeAbsolutePath path
  let (parentPath, name) ← splitParentName normalized
  let parent ← normalizeAbsolutePath parentPath
  return splitSegments parent ++ [name]

/-- The directory part of a path does not end in white space, so that it is not read differently
when it is normalized once more. -/
def tidy (path : Str) : Bool :=
  match (normalizeAbsolutePath path).bind splitParentName with
  | .ok (parent, _) => !endsInSpace parent
  | .error _ => true

/-- An `unlink` or `rename` succeeds that acts on an entry on the way down the path. -/
def Opening.Disturbs {F : Type} (q : List Str) (s s' : Opening F) : Prop :=
  ∃ cwd c, s.Mutates cwd c (.ok ()) s'.system ∧
    ∃ q', q' ≠ [] ∧ q' <+: q ∧ ∃ e ∈ s.system.targets s.foreign cwd c,
      s.system.entryOf s.foreign q' = some e

/-! ## The directory and the name -/

section Target

variable {F : Type} {foreign : Foreign F} {v : System F} {path name : Str} {inode : Inode F}

theorem splitParentName_joined {us : List Str} (h : Normal (us ++ [name])) :
    splitParentName (joinAbsoluteSegments (us ++ [name])) =
      .ok (joinAbsoluteSegments us, name) := by
  have hname : IsName name := h name (by simp)
  rw [splitParentName, rsplitOnce_joined us hname]
  dsimp only
  rw [if_neg hname.segment.1]
  by_cases hus : us = []
  · subst hus
    rfl
  · have hne : joinAbsoluteSegments us ≠ [] := joined_ne_nil us
    rw [if_neg hus, if_neg hne]

/-- Where `create_path` goes: it looks up the directory, and takes the last segment as the name. -/
theorem createTarget_ok (h : createTarget foreign v path = .ok (inode, name)) :
    ∃ us ts, Normal (us ++ [name]) ∧ Normal ts ∧
      normalizeAbsolutePath path = .ok (joinAbsoluteSegments (us ++ [name])) ∧
      createdPath path = .ok (ts ++ [name]) ∧ v.lookupSegments foreign ts = .ok inode ∧
      (tidy path = true → ts = us) := by
  obtain ⟨p, hp, h⟩ := bind_eq_ok.1 h
  obtain ⟨ss, hss, rfl⟩ := normal_of_normalize hp
  split at h
  · exact absurd h (by simp)
  rename_i hroot
  rw [joined_eq_root_iff hss] at hroot
  obtain ⟨us, t, rfl⟩ := (eq_nil_or_concat' ss).resolve_left hroot
  obtain ⟨_, hsplit, h⟩ := bind_eq_ok.1 h
  rw [splitParentName_joined hss] at hsplit
  cases hsplit
  obtain ⟨parent, hparent, h⟩ := bind_eq_ok.1 h
  obtain ⟨rfl, rfl⟩ : parent = inode ∧ t = name := by simpa [pure, Except.pure] using h
  obtain ⟨p', hp', hlookup⟩ := bind_eq_ok.1 hparent
  obtain ⟨ts, hts, rfl⟩ := normal_of_normalize hp'
  rw [v.lookupExact_joined foreign hts] at hlookup
  refine ⟨us, ts, hss, hts, hp, ?_, hlookup, fun htidy => ?_⟩
  · simp [createdPath, hp, splitParentName_joined hss, hp', splitSegments_joined hts, Bind.bind,
      Except.bind, pure, Except.pure]
  have hus : Normal us := fun s hs => hss s (by simp [hs])
  simp only [tidy, hp, Except.bind, splitParentName_joined hss, Bool.not_eq_true'] at htidy
  have hlast : ∀ s ∈ us.getLast?, endsInSpace s = false := by
    intro s hs
    obtain ⟨xs, rfl⟩ := getLast?_eq_some_iff.1 hs
    rwa [endsInSpace, getLast_joined xs (hus s (by simp)).segment.1] at htidy
  rw [normalizeAbsolutePath_joined hus hlast] at hp'
  exact (joined_injective hus.segments hts.segments (Except.ok.inj hp')).symm

end Target

/-! ## What steps leave as it was -/

variable {k d n : Nat}

section Steps

variable {F : Type} {s s' : Opening F} {v v' : System F} {q : List Str}

theorem Ran.keeps {c : Memfs.Call} {r : Except FsError Unit} (h : Ran v k c r v')
    (hc : c.takesAway = false) (j : Nat) : Keeps (v.memory j).fs (v'.memory j).fs := by
  by_cases hj : j = k
  · subst hj
    exact (v.reachable j).good.call_keeps hc h.run
  · rw [h.others j hj]
    exact .of_eq rfl rfl

theorem Opening.Step.cases (h : s.Step s') :
    (s'.system.toManager = s.system.toManager ∧
      ∀ k, Keeps (s.system.memory k).fs (s'.system.memory k).fs) ∨
    ∃ cwd c r, s.Mutates cwd c r s'.system := by
  have hsame : ∀ {v : System F}, v = s.system →
      v.toManager = s.system.toManager ∧ ∀ k, Keeps (s.system.memory k).fs (v.memory k).fs := by
    rintro v rfl
    exact ⟨rfl, fun k => .of_eq rfl rfl⟩
  cases h with
  | begin hfree hpath => exact .inl (hsame rfl)
  | @advance n c phase s' hcall hstep =>
    left
    cases hstep with
    | lookup => exact hsame rfl
    | create hcreate =>
      cases hcreate with
      | refused h => exact hsame rfl
      | created h hran hi => exact ⟨hran.table, hran.keeps rfl⟩
      | failed h hran => exact ⟨hran.table, hran.keeps rfl⟩
      | foreign h r => exact hsame rfl
    | metadata hran => exact ⟨hran.table, hran.keeps rfl⟩
    | openPath answer => exact hsame rfl
    | truncate hran => exact ⟨hran.table, hran.keeps rfl⟩
    | truncateForeign r => exact hsame rfl
  | mutate h => exact .inr ⟨_, _, _, h⟩
  | other hc hran => exact .inl ⟨hran.table, hran.keeps hc⟩
  | elsewhere foreign => exact .inl (hsame rfl)

/-- An `unlink` or `rename` leaves the root directories alone. -/
theorem Opening.Mutates.root {cwd : Option Str} {c : Mutation} {r : Except Int Unit}
    (h : s.Mutates cwd c r v) (k : Nat) : (v.memory k).fs.root = (s.system.memory k).fs.root := by
  have hcall : ∀ (j : Nat) (c : Memfs.Call),
      ((s.system.call j c).2 k).fs.root = (s.system.memory k).fs.root := by
    intro j c
    rw [call]
    dsimp only
    by_cases hk : k = j
    · subst hk
      rw [update_self]
      exact (s.system.reachable k).good.root_after c
    · rw [update_of_ne hk]
  have hmemory : v.memory = (s.system.exec s.foreign cwd c).2 := (congrArg Prod.snd h.exec).symm
  rw [hmemory]
  cases c with
  | unlink path directory =>
    rw [System.exec]
    split
    · rfl
    · rfl
    · exact hcall _ _
  | rename old new =>
    rw [System.exec]
    split
    · rfl
    · rfl
    · exact hcall _ _

theorem staysOn_of_keeps (foreign : Foreign F) (q : List Str) (htable : v'.toManager = v.toManager)
    (hkeeps : ∀ k, Keeps (v.memory k).fs (v'.memory k).fs) : v.StaysOn foreign v' q := by
  refine ⟨htable, fun k => (hkeeps k).root, fun us t _ k d hfound i hi => ?_⟩
  exact (hkeeps k).entries d (v.live_of_lookupSegments foreign hfound) _ hi

/-- **The path is not touched** by a step that does not disturb it. -/
theorem Opening.Step.staysOn (h : s.Step s') (hq : Normal q) (hquiet : ¬ Disturbs q s s') :
    s.system.StaysOn s.foreign s'.system q := by
  rcases h.cases with ⟨htable, hkeeps⟩ | ⟨cwd, c, r, hmutates⟩
  · exact staysOn_of_keeps s.foreign q htable hkeeps
  refine ⟨hmutates.table, hmutates.root, fun us t hpre k d hfound i hi => ?_⟩
  have hus : Normal us := fun x hx => hq x (hpre.subset (by simp [hx]))
  have hentry : s.system.entryOf s.foreign (us ++ [t]) = some ⟨k, d, t⟩ := by
    rw [entryOf, getLast?_concat, dropLast_concat,
      s.system.lookupExact_joined s.foreign hus, hfound]
  have htakes := s.system.exec_takes s.foreign cwd c ⟨k, d, t⟩ i hi
  rw [hmutates.exec] at htakes
  refine htakes.2 ?_
  rintro ⟨hok, hmem⟩
  obtain rfl := some_inj.1 hok
  exact hquiet ⟨cwd, c, hmutates, us ++ [t], by simp, hpre, _, hmem, hentry⟩

/-! ## Exclusive opens -/

variable {c : OpenCall}

/-- An exclusive open goes on only if `create_path` has created the file. -/
theorem Opening.Passes.created (h : s.Passes n c s') :
    ∃ inode, CreatePath s.foreign s.system c.absolute (.ok inode) s'.system := by
  obtain ⟨-, hexcl, -, hstep, hgoes⟩ := h
  cases hstep with
  | @create r v hcreate =>
    cases r with
    | ok inode => exact ⟨inode, hcreate⟩
    | error e =>
      have hfailed : ∃ n', c.afterCreate (.error e : Except FsError (Inode F)) = .failed n' := by
        cases e <;> simp [afterCreate, hexcl]
      obtain ⟨n', hn'⟩ := hfailed
      refine absurd ?_ (hgoes n')
      simp [turn, hn']

variable {foreign : Foreign F} {path : Str} {inode : Inode F}

theorem CreatePath.target (h : CreatePath foreign v path (.ok inode) v') :
    ∃ x, createTarget foreign v path = .ok x := by
  generalize hr : (.ok inode : Except FsError (Inode F)) = r at h
  cases h with
  | refused h | failed h hran => exact nomatch hr
  | created h hran hi | foreign h r => exact ⟨_, h⟩

/-- A file is created where there was none, and then it is there. -/
theorem CreatePath.adds {name : Str} (h : CreatePath foreign v path (.ok inode) v')
    (htarget : createTarget foreign v path = .ok (.memory k d, name)) :
    name ∉ ((v.memory k).fs.entries d).map Prod.fst ∧
      name ∈ ((v'.memory k).fs.entries d).map Prod.fst ∧ v'.toManager = v.toManager ∧
      ∀ j, Keeps (v.memory j).fs (v'.memory j).fs := by
  generalize hr : (.ok inode : Except FsError (Inode F)) = r at h
  cases h with
  | refused h => exact nomatch hr
  | failed h hran => exact nomatch hr
  | foreign h r => rw [htarget] at h; exact nomatch h
  | @created k' d' i name' v' h hran hi =>
    rw [htarget] at h
    cases h
    obtain ⟨-, _, hcreated⟩ := (((v.reachable k).good.call _).of_run hran.run).2
    exact ⟨hcreated.new, mem_map.2 ⟨_, hi, rfl⟩, hran.table, hran.keeps rfl⟩

/-- The path leads to this directory, and the name is taken there. -/
def Taken (q : List Str) (k d : Nat) (name : Str) (s : Opening F) : Prop :=
  ∃ ts, q = ts ++ [name] ∧ s.system.lookupSegments s.foreign ts = .ok (.memory k d) ∧
    name ∈ ((s.system.memory k).fs.entries d).map Prod.fst

theorem Taken.step {name : Str} (hq : Normal q) (ht : Taken q k d name s) (h : s.Step s')
    (hquiet : ¬ Opening.Disturbs q s s') : Taken q k d name s' := by
  obtain ⟨ts, rfl, hfound, hname⟩ := ht
  have hstays := h.staysOn hq hquiet
  obtain ⟨e, he, rfl⟩ := mem_map.1 hname
  refine ⟨ts, rfl, s.system.lookupSegments_stays s.foreign s'.foreign s'.system hstays
    (prefix_append _ _) hfound, mem_map.2 ⟨e, ?_, rfl⟩⟩
  exact hstays.entries ts e.1 (prefix_refl _) k d hfound e.2 he

theorem Taken.run {name : Str} (hq : Normal q) (ht : Taken q k d name s)
    (hrun : Relation.ReflTransGen (fun s s' => s.Step s' ∧ ¬ Opening.Disturbs q s s') s s') :
    Taken q k d name s' := by
  induction hrun with
  | refl => exact ht
  | tail _ hstep ih => exact ih.step hq hstep.1 hstep.2

/-- **Of several exclusive opens at most one passes**, until the path is disturbed. -/
theorem Taken.not_passes {name : Str} (ht : Taken q k d name s)
    (hq : createdPath c.absolute = .ok q) : ¬ s.Passes n c s' := by
  intro hpass
  obtain ⟨ts, rfl, hfound, hname⟩ := ht
  obtain ⟨inode, hcreate⟩ := hpass.created
  obtain ⟨⟨x, name'⟩, htarget⟩ := hcreate.target
  obtain ⟨us, ts', -, -, -, hq', hfound', -⟩ := createTarget_ok htarget
  obtain ⟨rfl, hnames⟩ := append_inj' (Except.ok.inj (hq.symm.trans hq')) rfl
  obtain rfl : name = name' := singleton_injective hnames
  obtain rfl : .memory k d = x := Except.ok.inj (hfound.symm.trans hfound')
  exact (hcreate.adds htarget).1 hname

/-- A path that has been looked up in vain is not that of a mount point. -/
def Looked (s : Opening F) : Prop :=
  ∀ n c, s.calls n = some (c, .create) → ∀ ss, Normal ss →
    normalizeAbsolutePath c.absolute = .ok (joinAbsoluteSegments ss) →
    ∀ m ∈ s.system.mounts, m.segments ≠ ss

theorem Opening.Step.table (h : s.Step s') : s'.system.toManager = s.system.toManager := by
  rcases h.cases with ⟨htable, -⟩ | ⟨cwd, c, r, hmutates⟩
  · exact htable
  · exact hmutates.table

theorem start_ne_create (c : OpenCall) : (c.start : Phase F) ≠ .create := by
  rw [start]
  split
  · simp
  · split <;> simp

theorem afterLookup_eq_create {r : Except FsError (Inode F)} (h : c.afterLookup r = .create) :
    r = .error .notFound := by
  rcases r with e | i
  · cases e <;> first | rfl | simp [afterLookup] at h
  · rw [afterLookup] at h
    split at h <;> simp at h

theorem afterCreate_ne_create (c : OpenCall) (r : Except FsError (Inode F)) :
    c.afterCreate r ≠ .create := by
  rcases r with e | i
  · cases e <;> simp only [afterCreate, ne_eq] <;> first | split <;> simp | simp
  · cases i <;> simp [afterCreate]

theorem afterOpen_ne_create (c : OpenCall) (fileType : Inode F → FileType)
    (r : Except FsError (Inode F)) : c.afterOpen fileType r ≠ .create := by
  rcases r with e | i
  · simp [afterOpen]
  rw [afterOpen]
  split
  · simp
  · split <;> simp

/-- Only a lookup in vain leads to the second step. -/
theorem Opening.Step.to_create (h : s.Step s') (hcall : s'.calls n = some (c, .create)) :
    s.calls n = some (c, .create) ∨
      s.system.lookupPath s.foreign c.absolute = .error .notFound := by
  have hturn : ∀ {n0 c0 phase v}, (s.turn n0 c0 phase v).calls n = some (c, .create) →
      (phase = .create → s.system.lookupPath s.foreign c0.absolute = .error .notFound) →
      s.calls n = some (c, .create) ∨
        s.system.lookupPath s.foreign c.absolute = .error .notFound := by
    intro n0 c0 phase v hcall hphase
    by_cases hn : n = n0
    · subst hn
      simp only [turn, update_self, some_inj, Prod.mk.injEq] at hcall
      obtain ⟨rfl, rfl⟩ := hcall
      exact .inr (hphase rfl)
    · simp only [turn, update_of_ne hn] at hcall
      exact .inl hcall
  cases h with
  | begin hfree hpath => exact hturn hcall fun h => absurd h (start_ne_create _)
  | @advance n0 c0 phase s' hcall0 hstep =>
    cases hstep with
    | lookup => exact hturn hcall afterLookup_eq_create
    | create hcreate => exact hturn hcall fun h => absurd h (afterCreate_ne_create _ _)
    | openPath answer => exact hturn hcall fun h => absurd h (afterOpen_ne_create _ _ _)
    | @metadata k i r v hran => exact hturn hcall fun h => by cases r <;> exact nomatch h
    | @truncate k i r v hran => exact hturn hcall fun h => by cases r <;> exact nomatch h
    | truncateForeign r => exact hturn hcall fun h => by cases r <;> exact nomatch h
  | mutate h => exact .inl hcall
  | other hc hran => exact .inl hcall
  | elsewhere foreign => exact .inl hcall

theorem Looked.step (hl : Looked s) (h : s.Step s') : Looked s' := by
  intro n c hcall ss hss hpath m hm hms
  rw [congrArg Manager.mounts h.table] at hm
  rcases h.to_create hcall with hcall | hlookup
  · exact hl n c hcall ss hss hpath m hm hms
  obtain ⟨m', -, hfound⟩ := s.system.lookupSegments_mount s.foreign hm hms
  rw [lookupPath, hpath] at hlookup
  have hexact : s.system.lookupExact s.foreign (joinAbsoluteSegments ss) = .error .notFound :=
    hlookup
  rw [s.system.lookupExact_joined s.foreign hss, hfound] at hexact
  cases hexact

theorem looked_of_run {s0 : Opening F} (hstart : ∀ n, s0.calls n = none)
    (hrun : Relation.ReflTransGen Opening.Step s0 s) : Looked s := by
  induction hrun with
  | refl => exact fun n c hcall => absurd hcall (by simp [hstart])
  | tail _ hstep ih => exact ih.step hstep

end Steps

/-- **Exclusive opens.**  In every run, an open with `O_CREAT` and `O_EXCL` of a path on a memory
file system passes its second step only if the entry of the path is not there, and if the path
cannot be looked up.  After that no other such open of the path passes, until an `unlink` or a
`rename` succeeds that acts on an entry on the path. -/
theorem exclusive_creates {F : Type} {s0 s s' : Opening F} {n : Nat} {c : OpenCall}
    (hstart : ∀ n, s0.calls n = none) (hrun : Relation.ReflTransGen Opening.Step s0 s)
    (hpass : s.Passes n c s') {k d : Nat} {name : Str}
    (htarget : createTarget s.foreign s.system c.absolute = .ok (.memory k d, name)) :
    name ∉ ((s.system.memory k).fs.entries d).map Prod.fst ∧
    (tidy c.absolute = true → ∀ inode, s.system.lookupPath s.foreign c.absolute ≠ .ok inode) ∧
    ∀ q, createdPath c.absolute = .ok q → ∀ s1,
      Relation.ReflTransGen (fun s s' => s.Step s' ∧ ¬ Opening.Disturbs q s s') s' s1 →
      ∀ n' c' s2, createdPath c'.absolute = .ok q → ¬ s1.Passes n' c' s2 := by
  obtain ⟨inode, hcreate⟩ := hpass.created
  obtain ⟨hnew, hadded, htable, hkeeps⟩ := hcreate.adds htarget
  obtain ⟨us, ts, hus, hts, hpath, hq, hfound, htidy⟩ := createTarget_ok htarget
  refine ⟨hnew, fun ht inode' hlookup => ?_, fun q' hq' s1 hquiet n' c' s2 hc' => ?_⟩
  · obtain rfl := htidy ht
    have hno := looked_of_run hstart hrun n c hpass.2.2.1 _ hus hpath
    rw [lookupPath, hpath] at hlookup
    have hexact : s.system.lookupExact s.foreign (joinAbsoluteSegments (ts ++ [name])) =
        .ok inode' :=
      hlookup
    rw [s.system.lookupExact_joined s.foreign hus, s.system.lookupSegments_concat s.foreign hno,
      hfound] at hexact
    obtain ⟨j, -, hj⟩ := (s.system.lookup_eq_ok_iff s.foreign
      (s.system.live_of_lookupSegments s.foreign hfound)).1 hexact
    exact hnew (mem_map.2 ⟨_, hj, rfl⟩)
  · obtain rfl := Except.ok.inj (hq.symm.trans hq')
    have hstays := staysOn_of_keeps s.foreign (ts ++ [name]) htable hkeeps
    have htaken : Taken (ts ++ [name]) k d name s' :=
      ⟨ts, rfl, s.system.lookupSegments_stays s.foreign s'.foreign s'.system hstays
        (prefix_append _ _) hfound, hadded⟩
    have hnormal : Normal (ts ++ [name]) := by
      intro t ht
      rcases mem_append.1 ht with ht | ht
      · exact hts t ht
      · exact hus t (by simp [mem_singleton.1 ht])
    exact (htaken.run hnormal hquiet).not_passes hc'

/-- The system `unmounted` with the file `/x`. -/
def withFile : System Empty where
  root := some (.memory 1)
  mounts := []
  memory k := if k = 1 then withMnt.after (.create 1 ['x'] .regular) else emptyFs k
  fsId k := by
    split_ifs with hk
    · exact hk.symm
    · rfl
  reachable k := by
    split
    · exact reachable_withMnt.after (r := .ok ()) rfl
    · exact reachable_emptyFs k

/-- `open("/x", O_WRONLY | O_CREAT | O_EXCL, 0o644)`. -/
def openX : OpenCall := ⟨['/', 'x'], 0xc1, 0o644, 0, 0⟩

/-- The call begins, and looks for `/x` in vain. -/
theorem looks_in_vain {s : Opening Empty} (hforeign : s.foreign = noForeign)
    (hsystem : s.system = unmounted) (hfree : s.calls n = none) :
    Relation.ReflTransGen Opening.Step s (s.turn n openX .create s.system) := by
  have hpath : resolveAbsolute none ['/', 'x'] = .ok openX.absolute := by decide
  have hlookup : unmounted.lookupPath noForeign openX.absolute = .error .notFound := rfl
  have hstart : (openX.start : Phase Empty) = .lookup := rfl
  have hbegin : s.Step (s.turn n openX .lookup s.system) := hstart ▸ .begin hfree hpath
  have hnext : (s.turn n openX .lookup s.system).OpenStep n openX .lookup
      (s.turn n openX .create s.system) := by
    have h : (s.turn n openX .lookup s.system).OpenStep n openX .lookup _ := .lookup
    simpa [turn, hforeign, hsystem, hlookup, afterLookup] using h
  exact .tail (.single hbegin) (.advance (by simp [turn]) hnext)

theorem exclusive_creates_twoOpens :
    ∃ s s' : Opening Empty, s.Passes 0 openX s' ∧ s'.calls 1 = some (openX, .create) ∧
      ∀ s2, ¬ s'.Passes 1 openX s2 := by
  have htarget : createTarget noForeign unmounted openX.absolute = .ok (.memory 1 1, ['x']) := rfl
  have hran : Ran unmounted 1 (.create 1 ['x'] .regular) (.ok ()) withFile :=
    ⟨rfl, fun j hj => by simp [withFile, unmounted, hj], rfl⟩
  have hcreate : CreatePath noForeign unmounted openX.absolute (.ok (.memory 1 3)) withFile :=
    .created htarget hran (by decide)
  -- both look the path up before one of them creates the file
  let start : Opening Empty := ⟨noForeign, unmounted, fun _ => none⟩
  let s := (start.turn 0 openX .create unmounted).turn 1 openX .create unmounted
  have hrun : Relation.ReflTransGen Opening.Step start s :=
    (looks_in_vain rfl rfl rfl).trans (looks_in_vain rfl rfl rfl)
  have hpass : s.Passes 0 openX (s.turn 0 openX (openX.afterCreate (.ok (.memory 1 3))) withFile) :=
    ⟨rfl, rfl, rfl, .create hcreate, by simp [turn, afterCreate]⟩
  refine ⟨s, _, hpass, rfl, fun s2 => ?_⟩
  obtain ⟨-, -, honce⟩ := exclusive_creates (fun _ => rfl) hrun hpass htarget
  exact honce [['x']] (by decide) _ .refl 1 openX s2 (by decide)

end Krust.Process
