import Krust.Lib.Runs

/-!
# Kernel modules and what they depend on

Modules are registered under their name, and loaded with what they depend on: `register_module`
makes a module known and loads it, after its dependencies and theirs, and `unregister_module`
unloads it again unless a loaded module depends on it.  What `init` and `cleanup` of a module do to
the rest of the kernel is not modelled, and they do not call back into the registry here.  Their
calls are recorded in a journal, and the call that is the `n`th in it returns `outcome n`: any of
them can fail.

What a loaded module depends on is loaded, was initialised before it and has not been cleaned up
since, and no loaded module is marked as failed (`Sound`).  Loading keeps this, whatever the
dependencies are and whichever `init` fails: while a module is being loaded it is in the set of
loading modules, and nothing else can load it then.  Unloading keeps it because it looks for
dependents first.  A chain of recursive calls enters each known module at most once, so the depth
that `register_module` allows for is enough (`loadModuleRecursive_isSome`).
-/

set_option autoImplicit false

namespace Krust.Module

open Lib List

/-! ## The registry -/

section Source

/-- `KernelModule`, as far as the registry asks. -/
class KernelModule (M : Type) where
  name : M → String
  version : M → String
  dependencies : M → List String

inductive ModuleError
  | initFailed
  | cleanupFailed
  | dependencyMissing (name : String)
  | alreadyLoaded
  | notLoaded
  | invalidModule
  deriving DecidableEq, Repr

/-- `ModuleRegistry`; the maps are keyed by the names of the modules. -/
structure ModuleRegistry (M : Type) where
  loadedModules : List M
  knownModules : List M
  loadingModules : List String
  failedModules : List String

open KernelModule

variable {M : Type} [KernelModule M]

/-- `BTreeMap::insert`, with the module's name as the key. -/
def insertModule (module : M) (modules : List M) : List M :=
  module :: modules.filter (name · ≠ name module)

/-- `BTreeMap::remove`. -/
def removeModule (key : String) (modules : List M) : List M := modules.filter (name · ≠ key)

/-- `BTreeMap::get`. -/
def getModule (key : String) (modules : List M) : Option M := modules.find? (name · == key)

namespace ModuleRegistry

variable (registry : ModuleRegistry M)

def new : ModuleRegistry M := ⟨[], [], [], []⟩

def isLoaded (key : String) : Bool := (getModule key registry.loadedModules).isSome

def known (key : String) : Option M := getModule key registry.knownModules

def isLoading (key : String) : Bool := key ∈ registry.loadingModules

def hasFailed (key : String) : Bool := key ∈ registry.failedModules

def registerKnown (module : M) : Except ModuleError (ModuleRegistry M) :=
  if (name module).isEmpty ∨ (version module).isEmpty then .error .invalidModule
  else if registry.isLoaded (name module) then .error .alreadyLoaded
  else .ok { registry with
    failedModules := registry.failedModules.filter (· ≠ name module)
    knownModules := insertModule module registry.knownModules }

def markLoading (key : String) : ModuleRegistry M :=
  { registry with loadingModules := key :: registry.loadingModules.filter (· ≠ key) }

def clearLoading (key : String) : ModuleRegistry M :=
  { registry with loadingModules := registry.loadingModules.filter (· ≠ key) }

def markFailed (key : String) : ModuleRegistry M :=
  { registry with failedModules := key :: registry.failedModules.filter (· ≠ key) }

def markLoaded (module : M) : ModuleRegistry M :=
  { registry with
    loadedModules := insertModule module registry.loadedModules
    failedModules := registry.failedModules.filter (· ≠ name module) }

def findDependent (key : String) : Option M :=
  registry.loadedModules.find? fun module => (dependencies module).any (· == key)

end ModuleRegistry

/-! ## Loading and unloading -/

/-- A call of `init` or `cleanup` of the module with this name, and whether it succeeded. -/
inductive Call
  | init (name : String) (ok : Bool)
  | cleanup (name : String) (ok : Bool)
  deriving DecidableEq, Repr

/-- The registry, and the calls that were made so far. -/
structure State (M : Type) where
  registry : ModuleRegistry M
  journal : List Call

namespace State

variable (outcome : Nat → Except ModuleError Unit) (s : State M)

def setRegistry (f : ModuleRegistry M → ModuleRegistry M) : State M :=
  { s with registry := f s.registry }

/-- `module.init` or `module.cleanup`. -/
def call (entry : Bool → Call) : Except ModuleError Unit × State M :=
  let result := outcome s.journal.length
  (result, { s with journal := s.journal ++ [entry result.isOk] })

/-- Load what a module depends on, in order, up to the first error. -/
def loadAll (load : String → State M → Option (Except ModuleError Unit × State M)) :
    List String → State M → Option (Except ModuleError Unit × State M)
  | [], s => some (.ok (), s)
  | dependency :: rest, s =>
    match load dependency s with
    | none => none
    | some (.error err, s) => some (.error err, s)
    | some (.ok (), s) => loadAll load rest s

/-- A module could not be loaded. -/
def giveUp (key : String) (err : ModuleError) : Option (Except ModuleError Unit × State M) :=
  some (.error err, s.setRegistry fun registry => (registry.clearLoading key).markFailed key)

/-- `KernelServices::load_module_recursive`, to a depth of calls; `none` if it goes deeper. -/
def loadModuleRecursive : Nat → String → State M → Option (Except ModuleError Unit × State M)
  | 0, _, _ => none
  | depth + 1, key, s =>
    if s.registry.isLoaded key then some (.ok (), s)
    else if s.registry.hasFailed key then some (.error .initFailed, s)
    else if s.registry.isLoading key then some (.error .initFailed, s)
    else
      match s.registry.known key with
      | none => some (.error (.dependencyMissing key), s)
      | some module =>
        match loadAll (loadModuleRecursive depth) (dependencies module)
            (s.setRegistry (·.markLoading key)) with
        | none => none
        | some (.error err, s) => s.giveUp key err
        | some (.ok (), s) =>
          match s.call outcome (.init key) with
          | (.error err, s) => s.giveUp key err
          | (.ok (), s) =>
            some (.ok (), s.setRegistry fun registry =>
              (registry.clearLoading key).markLoaded module)

/-- `KernelServices::register_module`.  No chain of calls enters a known module twice. -/
def registerModule (module : M) : Option (Except ModuleError Unit × State M) :=
  match s.registry.registerKnown module with
  | .error err => some (.error err, s)
  | .ok registry =>
    loadModuleRecursive outcome (registry.knownModules.length + 1) (name module)
      { s with registry := registry }

/-- `ModuleRegistry::unload`, for a module that does not call back. -/
def unload (key : String) : Except ModuleError Unit × State M :=
  match getModule key s.registry.loadedModules with
  | none => (.error .notLoaded, s)
  | some _ =>
    match s.registry.findDependent key with
    | some _ => (.error .cleanupFailed, s)
    | none =>
      match s.call outcome (.cleanup key) with
      | (.error err, s) => (.error err, s)
      | (.ok (), s) => (.ok (), s.setRegistry fun registry =>
          { registry with loadedModules := removeModule key registry.loadedModules })

end State

inductive Request (M : Type)
  | registerModule (module : M)
  | unregisterModule (name : String)

def State.step (outcome : Nat → Except ModuleError Unit) (s : State M) : Request M → State M
  | .registerModule module => (s.registerModule outcome module).elim s (·.2)
  | .unregisterModule key => (s.unload outcome key).2

/-- `init`. -/
def State.initial : State M := ⟨.new, []⟩

end Source

section Loading

open KernelModule ModuleRegistry State

variable {M : Type} [KernelModule M]

/-! ## Maps of modules -/

variable {key : String} {modules : List M} {module : M}

theorem getModule_eq_some (h : getModule key modules = some module) :
    module ∈ modules ∧ name module = key := by
  refine ⟨mem_of_find?_eq_some h, ?_⟩
  have hname := find?_some h
  exact beq_iff_eq.1 hname

theorem mem_insertModule {m : M} :
    m ∈ insertModule module modules ↔ m = module ∨ (m ∈ modules ∧ name m ≠ name module) := by
  simp [insertModule]

theorem mem_removeModule {m : M} :
    m ∈ removeModule key modules ↔ m ∈ modules ∧ name m ≠ key := by
  simp [removeModule]

namespace ModuleRegistry

variable {registry : ModuleRegistry M} {key : String}

theorem isLoaded_iff :
    registry.isLoaded key = true ↔ ∃ m ∈ registry.loadedModules, name m = key := by
  simp [isLoaded, getModule]

theorem isLoaded_markLoaded :
    (registry.markLoaded module).isLoaded key = true ↔
      key = name module ∨ registry.isLoaded key = true := by
  simp only [isLoaded_iff, markLoaded, mem_insertModule]
  constructor
  · rintro ⟨m, rfl | ⟨hm, -⟩, rfl⟩
    · exact .inl rfl
    · exact .inr ⟨m, hm, rfl⟩
  · rintro (rfl | ⟨m, hm, rfl⟩)
    · exact ⟨module, .inl rfl, rfl⟩
    · by_cases hname : name m = name module
      · exact ⟨module, .inl rfl, hname.symm⟩
      · exact ⟨m, .inr ⟨hm, hname⟩, rfl⟩

omit [KernelModule M] in
/-- Marking and clearing a module that was not loading changes nothing. -/
theorem filter_markLoading (h : registry.isLoading key = false) :
    (registry.markLoading key).loadingModules.filter (· ≠ key) = registry.loadingModules := by
  have hnot : key ∉ registry.loadingModules := by simpa [isLoading] using h
  have hfilter : registry.loadingModules.filter (· ≠ key) = registry.loadingModules := by
    refine filter_eq_self.2 fun k hk => decide_eq_true ?_
    rintro rfl
    exact hnot hk
  rw [markLoading, filter_cons_of_neg (by simp), hfilter, hfilter]

end ModuleRegistry

/-! ## The journal -/

/-- The module was initialised, and not cleaned up since. -/
def Live (journal : List Call) (key : String) : Prop :=
  ∃ before since, journal = before ++ .init key true :: since ∧ Call.cleanup key true ∉ since

/-- The dependency was initialised before the module, and neither was cleaned up since. -/
def InitBefore (journal : List Call) (dependency key : String) : Prop :=
  ∃ before since, journal = before ++ .init key true :: since ∧ Live before dependency ∧
    Call.cleanup dependency true ∉ since ∧ Call.cleanup key true ∉ since

section Journal

variable {journal : List Call} {dependency key : String} {entry : Call}

theorem Live.of_init : Live (journal ++ [.init key true]) key := ⟨journal, [], rfl, nofun⟩

theorem InitBefore.of_init (h : Live journal dependency) :
    InitBefore (journal ++ [.init key true]) dependency key :=
  ⟨journal, [], rfl, h, nofun, nofun⟩

theorem Live.concat (h : Live journal key) (hentry : entry ≠ .cleanup key true) :
    Live (journal ++ [entry]) key := by
  obtain ⟨before, since, rfl, hnot⟩ := h
  exact ⟨before, since ++ [entry], by simp, not_mem_append hnot (mt mem_singleton.1 hentry.symm)⟩

theorem InitBefore.concat (h : InitBefore journal dependency key)
    (hdependency : entry ≠ .cleanup dependency true) (hkey : entry ≠ .cleanup key true) :
    InitBefore (journal ++ [entry]) dependency key := by
  obtain ⟨before, since, rfl, hlive, hnot, hnot'⟩ := h
  exact ⟨before, since ++ [entry], by simp, hlive,
    not_mem_append hnot (mt mem_singleton.1 hdependency.symm),
    not_mem_append hnot' (mt mem_singleton.1 hkey.symm)⟩

end Journal

/-! ## The invariant -/

/-- **Loaded modules have what they depend on.** -/
structure Sound (s : State M) : Prop where
  closed : ∀ m ∈ s.registry.loadedModules, ∀ d ∈ dependencies m, s.registry.isLoaded d = true
  ordered : ∀ m ∈ s.registry.loadedModules, ∀ d ∈ dependencies m, InitBefore s.journal d (name m)
  live : ∀ m ∈ s.registry.loadedModules, Live s.journal (name m)
  apart : ∀ m ∈ s.registry.loadedModules, name m ∉ s.registry.failedModules
  loading : ∀ key ∈ s.registry.loadingModules, s.registry.isLoaded key = false

namespace Sound

variable {s : State M}

theorem initial : Sound (initial : State M) := ⟨nofun, nofun, nofun, nofun, nofun⟩

section Journal

variable (hs : Sound s)
include hs

/-- A call that has not cleaned up a module is recorded. -/
theorem concat {entry : Call} (hentry : ∀ key, entry ≠ .cleanup key true) :
    Sound { s with journal := s.journal ++ [entry] } where
  closed := hs.closed
  ordered m hm d hd := (hs.ordered m hm d hd).concat (hentry d) (hentry (name m))
  live m hm := (hs.live m hm).concat (hentry (name m))
  apart := hs.apart
  loading := hs.loading

theorem markLoading (hkey : s.registry.isLoaded key = false) :
    Sound (s.setRegistry (·.markLoading key)) where
  closed := hs.closed
  ordered := hs.ordered
  live := hs.live
  apart := hs.apart
  loading := by
    intro k hk
    rcases mem_cons.1 hk with rfl | hk
    · exact hkey
    · exact hs.loading k (mem_of_mem_filter hk)

/-- A module that is loading is given up. -/
theorem giveUp (hkey : s.registry.isLoaded key = false) :
    Sound (s.setRegistry fun registry => (registry.clearLoading key).markFailed key) where
  closed := hs.closed
  ordered := hs.ordered
  live := hs.live
  apart := by
    intro m hm hfailed
    rcases mem_cons.1 hfailed with heq | hfailed
    · have hloaded : s.registry.isLoaded key = true := isLoaded_iff.2 ⟨m, hm, heq⟩
      rw [hkey] at hloaded
      cases hloaded
    · exact hs.apart m hm (mem_of_mem_filter hfailed)
  loading k hk := hs.loading k (mem_of_mem_filter hk)

/-- **A module whose dependencies are loaded and whose `init` has just succeeded is loaded.** -/
theorem markLoaded (hdeps : ∀ d ∈ dependencies module, s.registry.isLoaded d = true) :
    Sound { s with
      registry := (s.registry.clearLoading (name module)).markLoaded module
      journal := s.journal ++ [.init (name module) true] } := by
  have hloaded : ∀ key, s.registry.isLoaded key = true →
      ((s.registry.clearLoading (name module)).markLoaded module).isLoaded key = true :=
    fun key h => isLoaded_markLoaded.2 (.inr h)
  refine ⟨?_, ?_, ?_, ?_, ?_⟩
  · intro m hm d hd
    rcases mem_insertModule.1 hm with rfl | ⟨hm, -⟩
    · exact hloaded d (hdeps d hd)
    · exact hloaded d (hs.closed m hm d hd)
  · intro m hm d hd
    rcases mem_insertModule.1 hm with rfl | ⟨hm, -⟩
    · obtain ⟨m', hm', rfl⟩ := isLoaded_iff.1 (hdeps d hd)
      exact .of_init (hs.live m' hm')
    · exact (hs.ordered m hm d hd).concat nofun nofun
  · intro m hm
    rcases mem_insertModule.1 hm with rfl | ⟨hm, -⟩
    · exact .of_init
    · exact (hs.live m hm).concat nofun
  · intro m hm hfailed
    obtain ⟨hfailed, hne⟩ := mem_filter.1 hfailed
    rcases mem_insertModule.1 hm with rfl | ⟨hm, -⟩
    · simp at hne
    · exact hs.apart m hm hfailed
  · intro k hk
    obtain ⟨hk, hne⟩ := mem_filter.1 hk
    refine Bool.eq_false_iff.2 fun h => ?_
    rcases isLoaded_markLoaded.1 h with rfl | h
    · simp at hne
    · exact Bool.false_ne_true ((hs.loading k hk).symm.trans h)

end Journal

end Sound

/-! ## What has to be loaded -/

/-- The module `k` has to be loaded for the module `key`: it is not loaded, and can be reached
through the dependencies of modules that are not loaded. -/
inductive Needs (registry : ModuleRegistry M) (key : String) : String → Prop
  | here (h : registry.isLoaded key = false) : Needs registry key key
  | next {k d : String} {module : M} (h : Needs registry key k)
      (hknown : registry.known k = some module) (hd : d ∈ dependencies module)
      (hloaded : registry.isLoaded d = false) : Needs registry key d

/-- The module needs itself. -/
def OnCycle (registry : ModuleRegistry M) (k : String) : Prop :=
  ∃ module, registry.known k = some module ∧ ∃ d ∈ dependencies module, Needs registry d k

/-- Nothing stands in the way of a module, but its `init` and what it needs. -/
@[mk_iff]
structure Loadable (registry : ModuleRegistry M) (k : String) : Prop where
  known : (registry.known k).isSome = true
  notFailed : registry.hasFailed k = false
  notLoading : registry.isLoading k = false
  acyclic : ¬ OnCycle registry k

section Needs

variable {registry registry' : ModuleRegistry M} {key k : String}

theorem Needs.not_isLoaded (h : Needs registry key k) : registry.isLoaded k = false := by
  cases h <;> assumption

theorem Needs.self (h : Needs registry key k) : registry.isLoaded key = false := by
  induction h with
  | here h => exact h
  | next _ _ _ _ ih => exact ih

/-- What a module needs is itself and what its dependencies need. -/
theorem needs_iff (hloaded : registry.isLoaded key = false)
    (hknown : registry.known key = some module) :
    Needs registry key k ↔ k = key ∨ ∃ d ∈ dependencies module, Needs registry d k := by
  constructor
  · intro h
    induction h with
    | here => exact .inl rfl
    | @next k d m h hm hd hnot ih =>
      rcases ih with rfl | ⟨d', hd', h'⟩
      · cases hknown.symm.trans hm
        exact .inr ⟨d, hd, .here hnot⟩
      · exact .inr ⟨d', hd', h'.next hm hd hnot⟩
  · rintro (rfl | ⟨d, hd, h⟩)
    · exact .here hloaded
    · induction h with
      | here hnot => exact (Needs.here hloaded).next hknown hd hnot
      | next _ hm hd' hnot ih => exact ih.next hm hd' hnot

variable (hsame : registry'.knownModules = registry.knownModules)
include hsame

theorem Needs.mono (hgrows : ∀ k, registry.isLoaded k = true → registry'.isLoaded k = true)
    (h : Needs registry' key k) : Needs registry key k := by
  have hnot : ∀ {k}, registry'.isLoaded k = false → registry.isLoaded k = false := fun h =>
    Bool.eq_false_iff.2 fun h' => Bool.false_ne_true (h.symm.trans (hgrows _ h'))
  induction h with
  | here h => exact .here (hnot h)
  | next _ hm hd h ih =>
    rw [known, hsame] at hm
    exact ih.next hm hd (hnot h)

/-- What is needed has been loaded with `key`, or is still needed. -/
theorem Needs.split {key' : String}
    (hloaded : ∀ k, registry'.isLoaded k = true ↔ registry.isLoaded k = true ∨ Needs registry key k)
    (h : Needs registry key' k) : Needs registry key k ∨ Needs registry' key' k := by
  have hnot : ∀ {k}, registry.isLoaded k = false →
      Needs registry key k ∨ registry'.isLoaded k = false := by
    intro k hk
    by_cases hk' : Needs registry key k
    · exact .inl hk'
    · refine .inr (Bool.eq_false_iff.2 fun h => ?_)
      rcases (hloaded k).1 h with h | h
      · exact Bool.false_ne_true (hk.symm.trans h)
      · exact hk' h
  induction h with
  | here h => exact (hnot h).imp_right .here
  | next _ hm hd h ih =>
    rcases ih with ih | ih
    · exact .inl (ih.next hm hd h)
    · refine (hnot h).imp_right fun h' => ih.next ?_ hd h'
      rw [known, hsame]
      exact hm

end Needs

/-! ## Loading -/

/-- **What loading these modules does**, whatever the registry was before.  `A` are the modules that
have to be loaded, and `calls` the calls of `init` on the way. -/
structure Searched (s : State M) (A : String → Prop) (r : Except ModuleError Unit) (s' : State M) :
    Prop where
  sound : Sound s → Sound s'
  loading : s'.registry.loadingModules = s.registry.loadingModules
  known : s'.registry.knownModules = s.registry.knownModules
  grows : ∀ key, s.registry.isLoaded key = true → s'.registry.isLoaded key = true
  frozen : ∀ key ∈ s.registry.loadingModules, s'.registry.isLoaded key = s.registry.isLoaded key
  result : ∃ calls, s'.journal = s.journal ++ calls ∧
    (r = .ok () → (∀ call ∈ calls, ∃ k, call = .init k true) ∧ (∀ k, A k → Loadable s.registry k) ∧
      (∀ k, s'.registry.isLoaded k = true ↔ s.registry.isLoaded k = true ∨ A k) ∧
      ∀ k, s'.registry.hasFailed k = s.registry.hasFailed k) ∧
    (r ≠ .ok () → (∃ k, A k ∧ ¬ Loadable s.registry k) ∨ ∃ k, .init k false ∈ calls)

section Searched

variable {s s1 s' : State M} {A : String → Prop} {r : Except ModuleError Unit} {key d : String}
  {err : ModuleError} {keys : List String}

/-- Nothing is done where nothing is needed, or where something stands in the way at once. -/
theorem searched_self (hok : r = .ok () → ∀ k, ¬ A k)
    (herr : r ≠ .ok () → ∃ k, A k ∧ ¬ Loadable s.registry k) : Searched s A r s where
  sound := id
  loading := rfl
  known := rfl
  grows _ h := h
  frozen _ _ := rfl
  result := ⟨[], (append_nil _).symm, fun hr => ⟨nofun, fun k hk => (hok hr k hk).elim,
    fun k => ⟨.inl, fun h => h.resolve_right (hok hr k)⟩, fun _ => rfl⟩, fun hr => .inl (herr hr)⟩

theorem Searched.failed (h : Searched s (Needs s.registry d) (.error err) s1) :
    Searched s (fun k => ∃ d' ∈ d :: keys, Needs s.registry d' k) (.error err) s1 := by
  obtain ⟨calls, hcalls, -, hobstacle⟩ := h.result
  refine ⟨h.sound, h.loading, h.known, h.grows, h.frozen, calls, hcalls, nofun, fun _ => ?_⟩
  exact (hobstacle nofun).imp_left fun ⟨k, hk, hnot⟩ => ⟨k, ⟨d, mem_cons_self, hk⟩, hnot⟩

/-- **One dependency after the other.**  Those that come later may need modules that have been
loaded before. -/
theorem Searched.cons (h : Searched s (Needs s.registry d) (.ok ()) s1)
    (h' : Searched s1 (fun k => ∃ d ∈ keys, Needs s1.registry d k) r s') :
    Searched s (fun k => ∃ d' ∈ d :: keys, Needs s.registry d' k) r s' := by
  obtain ⟨calls, hcalls, hok, -⟩ := h.result
  obtain ⟨hinits, hloadable, hloaded, hfailed⟩ := hok rfl
  obtain ⟨calls', hcalls', hok', hobstacle'⟩ := h'.result
  have hmono : ∀ {a b}, Needs s1.registry a b → Needs s.registry a b := Needs.mono h.known h.grows
  have hsplit : ∀ {a b}, Needs s.registry a b → Needs s.registry d b ∨ Needs s1.registry a b :=
    Needs.split h.known hloaded
  -- In the way of what is still needed stands what stood there before.
  have hsame : ∀ {a k}, Needs s1.registry a k →
      (Loadable s1.registry k ↔ Loadable s.registry k) := by
    intro a k hk
    have hcycle : OnCycle s1.registry k ↔ OnCycle s.registry k := by
      simp only [OnCycle, ModuleRegistry.known, h.known]
      refine exists_congr fun m => and_congr_right fun _ => exists_congr fun e =>
        and_congr_right fun _ => ⟨hmono, fun he => (hsplit he).resolve_left fun hd => ?_⟩
      exact Bool.false_ne_true (hk.not_isLoaded.symm.trans ((hloaded k).2 (.inr hd)))
    simp only [loadable_iff, ModuleRegistry.known, ModuleRegistry.isLoading, h.known, h.loading,
      hfailed, hcycle]
  refine ⟨fun hs => h'.sound (h.sound hs), h'.loading.trans h.loading, h'.known.trans h.known,
    fun key hkey => h'.grows key (h.grows key hkey), fun key hkey => ?_, calls ++ calls', ?_,
    fun hr => ?_, fun hr => ?_⟩
  · exact (h'.frozen key (h.loading ▸ hkey)).trans (h.frozen key hkey)
  · rw [hcalls', hcalls, append_assoc]
  · obtain ⟨hinits', hloadable', hloaded', hfailed'⟩ := hok' hr
    refine ⟨fun call hcall => (mem_append.1 hcall).elim (hinits call) (hinits' call),
      fun k hk => ?_, fun k => ?_, fun k => (hfailed' k).trans (hfailed k)⟩
    · obtain ⟨d', hd', hk⟩ := hk
      rcases hsplit hk with hk' | hk'
      · exact hloadable k hk'
      · rcases mem_cons.1 hd' with rfl | hd'
        · exact hloadable k hk
        · exact (hsame hk').1 (hloadable' k ⟨d', hd', hk'⟩)
    · rw [hloaded', hloaded]
      constructor
      · rintro ((hk | hk) | ⟨d', hd', hk⟩)
        · exact .inl hk
        · exact .inr ⟨d, mem_cons_self, hk⟩
        · exact .inr ⟨d', mem_cons_of_mem _ hd', hmono hk⟩
      · rintro (hk | ⟨d', hd', hk⟩)
        · exact .inl (.inl hk)
        rcases mem_cons.1 hd' with rfl | hd'
        · exact .inl (.inr hk)
        · rcases hsplit hk with hk | hk
          · exact .inl (.inr hk)
          · exact .inr ⟨d', hd', hk⟩
  · exact (hobstacle' hr).imp (fun ⟨k, ⟨d', hd', hk⟩, hnot⟩ =>
      ⟨k, ⟨d', mem_cons_of_mem _ hd', hmono hk⟩, (hsame hk).not.1 hnot⟩)
      fun ⟨k, hk⟩ => ⟨k, mem_append_right _ hk⟩

theorem Searched.init_failed (h : Searched s A (.ok ()) s1) :
    Searched s A (.error err) { s1 with journal := s1.journal ++ [.init key false] } := by
  obtain ⟨calls, hcalls, -⟩ := h.result
  refine ⟨fun hs => (h.sound hs).concat nofun, h.loading, h.known, h.grows, h.frozen,
    calls ++ [.init key false], ?_, nofun, fun _ => .inr ⟨key, by simp⟩⟩
  rw [hcalls, append_assoc]

omit [KernelModule M] in
theorem mem_markLoading {k : String} : k ∈ (s.registry.markLoading key).loadingModules ↔
    k = key ∨ k ∈ s.registry.loadingModules := by
  simp [markLoading]
  tauto

theorem needs_markLoading {k : String} :
    Needs (s.setRegistry (·.markLoading key)).registry d k ↔ Needs s.registry d k := by
  have hsame : (s.setRegistry (·.markLoading key)).registry.knownModules =
      s.registry.knownModules := rfl
  exact ⟨Needs.mono hsame fun _ h => h, Needs.mono hsame.symm fun _ h => h⟩

theorem loadable_markLoading {k : String} :
    Loadable (s.setRegistry (·.markLoading key)).registry k ↔ k ≠ key ∧ Loadable s.registry k := by
  have hloading : (s.setRegistry (·.markLoading key)).registry.isLoading k = false ↔
      k ≠ key ∧ s.registry.isLoading k = false := by
    simp only [isLoading, decide_eq_false_iff_not, setRegistry, mem_markLoading,
      not_or]
  have hcycle : OnCycle (s.setRegistry (·.markLoading key)).registry k ↔ OnCycle s.registry k := by
    simp only [OnCycle, needs_markLoading]
    rfl
  rw [loadable_iff, loadable_iff, hloading, hcycle]
  constructor
  · rintro ⟨hknown, hfailed, ⟨hne, hnot⟩, hcycle⟩
    exact ⟨hne, hknown, hfailed, hnot, hcycle⟩
  · rintro ⟨hne, hknown, hfailed, hnot, hcycle⟩
    exact ⟨hknown, hfailed, ⟨hne, hnot⟩, hcycle⟩

section Entered

variable (hloaded : s.registry.isLoaded key = false) (hfailed : s.registry.hasFailed key = false)
  (hloading : s.registry.isLoading key = false) (hknown : s.registry.known key = some module)
  (h : Searched (s.setRegistry (·.markLoading key))
    (fun k => ∃ d ∈ dependencies module, Needs (s.setRegistry (·.markLoading key)).registry d k)
    r s1)

include hloaded hloading hknown h

omit hloading hknown in
theorem Searched.not_isLoaded : s1.registry.isLoaded key = false :=
  (h.frozen key mem_cons_self).trans hloaded

omit hloaded hknown in
/-- The set of loading modules is as it was once the module has left it. -/
theorem Searched.clearLoading :
    (s1.registry.clearLoading key).loadingModules = s.registry.loadingModules := by
  rw [ModuleRegistry.clearLoading, h.loading]
  exact ModuleRegistry.filter_markLoading hloading

theorem Searched.giveUp (hr : r = .error err) : Searched s (Needs s.registry key) (.error err)
    (s1.setRegistry fun registry => (registry.clearLoading key).markFailed key) := by
  obtain ⟨calls, hcalls, -, hobstacle⟩ := h.result
  refine ⟨fun hs => (h.sound (hs.markLoading hloaded)).giveUp (h.not_isLoaded hloaded),
    h.clearLoading hloading, h.known, h.grows, fun k hk => h.frozen k ?_, calls, hcalls, nofun,
    fun _ => (hobstacle (by simp [hr])).imp_left ?_⟩
  · exact mem_markLoading.2 (.inr hk)
  · rintro ⟨k, ⟨d, hd, hk⟩, hnot⟩
    rw [loadable_markLoading, not_and_or, not_not] at hnot
    rw [needs_markLoading] at hk
    rcases hnot with rfl | hnot
    · exact ⟨k, .here hloaded, fun hl => hl.acyclic ⟨module, hknown, d, hd, hk⟩⟩
    · exact ⟨k, (needs_iff hloaded hknown).2 (.inr ⟨d, hd, hk⟩), hnot⟩

include hfailed in
theorem Searched.loaded (hr : r = .ok ()) : Searched s (Needs s.registry key) (.ok ())
    { s1 with
      registry := (s1.registry.clearLoading key).markLoaded module
      journal := s1.journal ++ [.init key true] } := by
  obtain ⟨-, rfl⟩ := getModule_eq_some hknown
  obtain ⟨calls, hcalls, hok, -⟩ := h.result
  obtain ⟨hinits, hloadable, hdeps, hsame⟩ := hok hr
  have hneeds : ∀ {k}, Needs s.registry (name module) k ↔ _ := needs_iff hloaded hknown
  simp only [needs_markLoading] at hloadable hdeps
  refine ⟨fun hs => (h.sound (hs.markLoading hloaded)).markLoaded fun d hd => ?_,
    h.clearLoading hloading, h.known,
    fun k hk => isLoaded_markLoaded.2 (.inr (h.grows k hk)), fun k hk => ?_,
    calls ++ [.init (name module) true], ?_, fun _ => ⟨fun call hcall => ?_, fun k hk => ?_,
      fun k => ?_, fun k => ?_⟩, fun h => absurd rfl h⟩
  · by_cases hd' : s.registry.isLoaded d = true
    · exact h.grows d hd'
    · exact (hdeps d).2 (.inr ⟨d, hd, .here (Bool.eq_false_iff.2 hd')⟩)
  · have hne : k ≠ name module := by
      rintro rfl
      simp [isLoading, hk] at hloading
    refine Eq.trans ?_ (h.frozen k (mem_markLoading.2 (.inr hk)))
    rw [Bool.eq_iff_iff, isLoaded_markLoaded, or_iff_right hne]
    rfl
  · rw [hcalls, append_assoc]
    rfl
  · rcases mem_append.1 hcall with hcall | hcall
    · exact hinits call hcall
    · exact ⟨_, mem_singleton.1 hcall⟩
  · rcases hneeds.1 hk with rfl | hk
    · refine ⟨by rw [hknown]; rfl, hfailed, hloading, ?_⟩
      rintro ⟨m, hm, d, hd, hcycle⟩
      cases hknown.symm.trans hm
      exact (loadable_markLoading.1 (hloadable _ ⟨d, hd, hcycle⟩)).1 rfl
    · exact (loadable_markLoading.1 (hloadable k hk)).2
  · rw [isLoaded_markLoaded, hneeds]
    change k = name module ∨ s1.registry.isLoaded k = true ↔ _
    rw [hdeps]
    exact or_left_comm
  · by_cases hk : k = name module
    · subst hk
      rw [hfailed]
      simp [hasFailed, markLoaded]
    · refine Eq.trans ?_ (hsame k)
      simp [ModuleRegistry.hasFailed, ModuleRegistry.markLoaded, ModuleRegistry.clearLoading, hk]

end Entered

end Searched

section Load

variable {outcome : Nat → Except ModuleError Unit} {s : State M}
  {load : String → State M → Option (Except ModuleError Unit × State M)}

theorem searched_loadAll (hload : ∀ key s r s', load key s = some (r, s') →
      Searched s (Needs s.registry key) r s') (keys : List String) {s' : State M}
    {r : Except ModuleError Unit} (h : loadAll load keys s = some (r, s')) :
    Searched s (fun k => ∃ d ∈ keys, Needs s.registry d k) r s' := by
  induction keys generalizing s with
  | nil =>
    cases h
    exact searched_self (fun _ => nofun) fun h => absurd rfl h
  | cons key keys ih =>
    rw [loadAll] at h
    split at h
    · cases h
    · rename_i err s1 hfirst
      cases h
      exact (hload key s _ s' hfirst).failed
    · rename_i s1 hfirst
      exact (hload key s _ s1 hfirst).cons (ih h)

/-- **Loading a module** loads what it needs, or meets with an obstacle.  The induction is on the
depth of the calls. -/
theorem searched_loadModuleRecursive (depth : Nat) (key : String) (s : State M)
    (r : Except ModuleError Unit) (s' : State M)
    (h : loadModuleRecursive outcome depth key s = some (r, s')) :
    Searched s (Needs s.registry key) r s' := by
  induction depth generalizing key s r s' with
  | zero => cases h
  | succ depth ih =>
    rw [loadModuleRecursive] at h
    split at h
    · rename_i hloaded
      cases h
      exact searched_self (fun _ k hk => Bool.false_ne_true (hk.self.symm.trans hloaded))
        fun h => absurd rfl h
    rename_i hloaded
    rw [Bool.not_eq_true] at hloaded
    split at h
    · rename_i hfailed
      cases h
      exact searched_self nofun fun _ => ⟨key, .here hloaded, fun hl =>
        by simp [hl.notFailed] at hfailed⟩
    rename_i hfailed
    split at h
    · rename_i hloading
      cases h
      exact searched_self nofun fun _ => ⟨key, .here hloaded, fun hl =>
        by simp [hl.notLoading] at hloading⟩
    rename_i hloading
    rw [Bool.not_eq_true] at hfailed hloading
    split at h
    · rename_i hknown
      cases h
      exact searched_self nofun fun _ => ⟨key, .here hloaded, fun hl =>
        by simpa [hknown] using hl.known⟩
    rename_i module hknown
    split at h
    · cases h
    · rename_i err s1 hdeps
      cases h
      exact (searched_loadAll ih _ hdeps).giveUp hloaded hloading hknown rfl
    rename_i s1 hdeps
    have hall := searched_loadAll ih _ hdeps
    rw [call] at h
    cases hinit : outcome s1.journal.length with
    | error err =>
      rw [hinit] at h
      cases h
      exact hall.init_failed.giveUp hloaded hloading hknown rfl
    | ok =>
      rw [hinit] at h
      cases h
      exact hall.loaded hloaded hfailed hloading hknown rfl

/-! ## The depth of the calls -/

/-- The number of known modules that a call can still enter. -/
def pending (s : State M) : Nat :=
  (s.registry.knownModules.filter fun m => !s.registry.isLoading (name m)).length

theorem pending_congr {s' : State M} {A : String → Prop} {r : Except ModuleError Unit}
    (h : Searched s A r s') : pending s' = pending s := by
  rw [pending, pending, h.known]
  simp only [isLoading, h.loading]

theorem pending_markLoading (hmem : module ∈ s.registry.knownModules)
    (hloading : s.registry.isLoading (name module) = false) :
    pending (s.setRegistry (·.markLoading (name module))) < pending s := by
  have hfilter : (s.registry.knownModules.filter fun m =>
        !(s.registry.markLoading (name module)).isLoading (name m)) =
      (s.registry.knownModules.filter fun m => !s.registry.isLoading (name m)).filter fun m =>
        name m ≠ name module := by
    rw [filter_filter]
    refine filter_congr fun m _ => ?_
    by_cases hname : name m = name module
    · simp [isLoading, markLoading, hname]
    · simp [isLoading, markLoading, hname]
  refine (congrArg length hfilter).trans_lt (length_filter_lt_length_iff_exists.2 ?_)
  refine ⟨module, mem_filter.2 ⟨hmem, by rw [hloading]; rfl⟩, by simp⟩

theorem loadAll_isSome {n : Nat} (hspec : ∀ key s r s', load key s = some (r, s') →
      Searched s (Needs s.registry key) r s')
    (hload : ∀ key s, pending s < n → (load key s).isSome = true) (keys : List String)
    (hpending : pending s < n) : (loadAll load keys s).isSome = true := by
  induction keys generalizing s with
  | nil => rfl
  | cons key keys ih =>
    rw [loadAll]
    obtain ⟨⟨r, s1⟩, hfirst⟩ := Option.isSome_iff_exists.1 (hload key s hpending)
    rw [hfirst]
    cases r with
    | error err => rfl
    | ok => exact ih (pending_congr (hspec key s _ s1 hfirst) ▸ hpending)

/-- **The depth is enough.** -/
theorem loadModuleRecursive_isSome (outcome : Nat → Except ModuleError Unit) (depth : Nat)
    (key : String) (s : State M)
    (hpending : pending s < depth) :
    (loadModuleRecursive outcome depth key s).isSome = true := by
  induction depth generalizing key s with
  | zero => exact absurd hpending (Nat.not_lt_zero _)
  | succ depth ih =>
    rw [loadModuleRecursive]
    split
    · rfl
    split
    · rfl
    split
    · rfl
    rename_i hloading
    rw [Bool.not_eq_true] at hloading
    split
    · rfl
    rename_i module hknown
    obtain ⟨hmem, rfl⟩ := getModule_eq_some hknown
    have hless := pending_markLoading hmem hloading
    have hdeps := loadAll_isSome (searched_loadModuleRecursive depth) ih
      (dependencies module) (s := s.setRegistry (·.markLoading (name module))) (by omega)
    obtain ⟨⟨r, s1⟩, hdeps⟩ := Option.isSome_iff_exists.1 hdeps
    rw [hdeps]
    cases r with
    | error err => rfl
    | ok =>
      dsimp only [call]
      cases outcome s1.journal.length <;> rfl

end Load

/-- **Loading returns.** -/
theorem exists_searched (outcome : Nat → Except ModuleError Unit) (key : String) (s : State M) :
    ∃ r s',
      loadModuleRecursive outcome (s.registry.knownModules.length + 1) key s = some (r, s') ∧
        Searched s (Needs s.registry key) r s' := by
  have hdepth : pending s < s.registry.knownModules.length + 1 :=
    Nat.lt_succ_of_le (length_filter_le _ _)
  obtain ⟨⟨r, s'⟩, hload⟩ := Option.isSome_iff_exists.1
    (loadModuleRecursive_isSome outcome _ key s hdepth)
  exact ⟨r, s', hload, searched_loadModuleRecursive _ _ _ _ _ hload⟩

/-- **When a module can be loaded**: from every registry, whatever depends on what, loading returns
and leaves the set of loading modules as it was.  It succeeds exactly if none of the modules that
are needed is missing, marked as failed, already loading or on a cycle, and no call of `init` fails;
then all of them are loaded. -/
theorem load_succeeds_iff (outcome : Nat → Except ModuleError Unit) (key : String) (s : State M) :
    ∃ r s' calls,
      loadModuleRecursive outcome (s.registry.knownModules.length + 1) key s = some (r, s') ∧
        s'.registry.loadingModules = s.registry.loadingModules ∧ s'.journal = s.journal ++ calls ∧
        (r = .ok () ↔ (∀ k, Needs s.registry key k → Loadable s.registry k) ∧
          ∀ k, .init k false ∉ calls) ∧
        (r = .ok () → ∀ k, Needs s.registry key k → s'.registry.isLoaded k = true) := by
  obtain ⟨r, s', hload, h⟩ := exists_searched outcome key s
  obtain ⟨calls, hcalls, hok, hobstacle⟩ := h.result
  refine ⟨r, s', calls, hload, h.loading, hcalls, ⟨fun hr => ?_, fun ⟨hall, hinits⟩ => ?_⟩,
    fun hr k hk => ((hok hr).2.2.1 k).2 (.inr hk)⟩
  · refine ⟨(hok hr).2.1, fun k hk => ?_⟩
    obtain ⟨k', hk'⟩ := (hok hr).1 _ hk
    cases hk'
  · by_contra hr
    rcases hobstacle hr with ⟨k, hk, hnot⟩ | ⟨k, hk⟩
    · exact hnot (hall k hk)
    · exact hinits k hk

/-! ## Requests -/

section Requests

variable {outcome : Nat → Except ModuleError Unit} {s : State M} {registry : ModuleRegistry M}

/-- A module is made known, and may be tried again if it had failed. -/
theorem Sound.registerKnown (hs : Sound s) (h : s.registry.registerKnown module = .ok registry) :
    Sound { s with registry := registry } ∧
      registry.loadedModules = s.registry.loadedModules := by
  rw [ModuleRegistry.registerKnown] at h
  split at h
  · cases h
  split at h
  · cases h
  cases h
  exact ⟨⟨hs.closed, hs.ordered, hs.live,
    fun m hm hfailed => hs.apart m hm (mem_of_mem_filter hfailed), hs.loading⟩, rfl⟩

/-- **Registering returns, keeps the invariant and unloads nothing.** -/
theorem Sound.registerModule (outcome : Nat → Except ModuleError Unit) (hs : Sound s) (module : M) :
    ∃ r s', s.registerModule outcome module = some (r, s') ∧ Sound s' ∧
      ∀ key, s.registry.isLoaded key = true → s'.registry.isLoaded key = true := by
  rw [State.registerModule]
  cases hknown : s.registry.registerKnown module with
  | error err => exact ⟨_, s, rfl, hs, fun _ h => h⟩
  | ok registry =>
    obtain ⟨hsound, hloaded⟩ := hs.registerKnown hknown
    obtain ⟨r, s', hload, hloads⟩ :=
      exists_searched outcome (name module) { s with registry := registry }
    refine ⟨r, s', hload, hloads.sound hsound, fun key hkey => hloads.grows key ?_⟩
    rw [isLoaded, hloaded]
    exact hkey

theorem findDependent_none (h : registry.findDependent key = none) :
    ∀ m ∈ registry.loadedModules, key ∉ dependencies m := by
  intro m hm hmem
  exact find?_eq_none.1 h m hm (any_eq_true.2 ⟨key, hmem, beq_self_eq_true key⟩)

theorem Sound.removeModule (hs : Sound s)
    (hnone : ∀ m ∈ s.registry.loadedModules, key ∉ dependencies m) :
    Sound { s with
      registry := { s.registry with
        loadedModules := removeModule key s.registry.loadedModules }
      journal := s.journal ++ [.cleanup key true] } := by
  refine ⟨?_, ?_, ?_, ?_, ?_⟩
  · intro m hm d hd
    have hm := (mem_removeModule.1 hm).1
    obtain ⟨m', hm', rfl⟩ := isLoaded_iff.1 (hs.closed m hm d hd)
    refine isLoaded_iff.2 ⟨m', mem_removeModule.2 ⟨hm', fun hkey => ?_⟩, rfl⟩
    exact hnone m hm (hkey ▸ hd)
  · intro m hm d hd
    obtain ⟨hm, hne⟩ := mem_removeModule.1 hm
    refine (hs.ordered m hm d hd).concat ?_ ?_
    · rintro ⟨⟩
      exact hnone m hm hd
    · rintro ⟨⟩
      exact hne rfl
  · intro m hm
    obtain ⟨hm, hne⟩ := mem_removeModule.1 hm
    refine (hs.live m hm).concat ?_
    rintro ⟨⟩
    exact hne rfl
  · intro m hm
    exact hs.apart m (mem_removeModule.1 hm).1
  · intro k hk
    refine Bool.eq_false_iff.2 fun hloaded => ?_
    obtain ⟨m, hm, rfl⟩ := isLoaded_iff.1 hloaded
    have hloaded := isLoaded_iff.2 ⟨m, (mem_removeModule.1 hm).1, rfl⟩
    exact Bool.false_ne_true ((hs.loading _ hk).symm.trans hloaded)

/-- **Unloading keeps the invariant, and takes away at most one module, on which none depends.** -/
theorem Sound.unload (hs : Sound s) (key : String) :
    Sound (s.unload outcome key).2 ∧
      ∀ k, s.registry.isLoaded k = true → (s.unload outcome key).2.registry.isLoaded k = false →
        ∀ m ∈ s.registry.loadedModules, k ∉ dependencies m := by
  have hsame : ∀ s' : State M, s'.registry = s.registry → ∀ k, s.registry.isLoaded k = true →
      s'.registry.isLoaded k = false → ∀ m ∈ s.registry.loadedModules, k ∉ dependencies m := by
    intro s' hregistry k hloaded hnot
    rw [hregistry, hloaded] at hnot
    cases hnot
  rw [State.unload]
  split
  · exact ⟨hs, hsame s rfl⟩
  split
  · exact ⟨hs, hsame s rfl⟩
  rename_i hdependent
  have hnone := findDependent_none hdependent
  dsimp only [call]
  cases houtcome : outcome s.journal.length with
  | error err => exact ⟨hs.concat nofun, hsame _ rfl⟩
  | ok =>
    refine ⟨hs.removeModule hnone, fun k hloaded hnot => ?_⟩
    obtain ⟨m, hm, rfl⟩ := isLoaded_iff.1 hloaded
    obtain rfl : name m = key := by
      refine not_not.1 fun hne => Bool.false_ne_true (hnot.symm.trans ?_)
      exact isLoaded_iff.2 ⟨m, mem_removeModule.2 ⟨hm, hne⟩, rfl⟩
    exact hnone

theorem Sound.step (hs : Sound s) (request : Request M) : Sound (s.step outcome request) := by
  cases request with
  | registerModule module =>
    obtain ⟨r, s', h, hsound, -⟩ := hs.registerModule outcome module
    rw [State.step, h]
    exact hsound
  | unregisterModule key => exact (hs.unload key).1

end Requests

/-- **Along every run of the registry** what a loaded module depends on is loaded and was
initialised before it, no loaded module is marked as failed, a module is only unloaded if no loaded
module depends on it, and every request returns. -/
theorem modules_sound (outcome : Nat → Except ModuleError Unit) (requests : List (Request M)) :
    let s := runFrom (step outcome) initial requests
    (∀ m ∈ s.registry.loadedModules, ∀ d ∈ dependencies m,
        s.registry.isLoaded d = true ∧ InitBefore s.journal d (name m)) ∧
      (∀ m ∈ s.registry.loadedModules, s.registry.hasFailed (name m) = false) ∧
      (∀ request key, s.registry.isLoaded key = true →
        (s.step outcome request).registry.isLoaded key = false →
          ∀ m ∈ s.registry.loadedModules, key ∉ dependencies m) ∧
      ∀ module, (s.registerModule outcome module).isSome = true := by
  intro s
  have hs : Sound s :=
    runFrom_induction Sound.initial (fun _ request hs => hs.step request) requests
  refine ⟨fun m hm d hd => ⟨hs.closed m hm d hd, hs.ordered m hm d hd⟩, ?_, ?_, ?_⟩
  · intro m hm
    exact decide_eq_false (hs.apart m hm)
  · intro request key hloaded hnot
    cases request with
    | registerModule module =>
      obtain ⟨r, s', h, -, hgrows⟩ := hs.registerModule outcome module
      rw [step, h] at hnot
      exact absurd (hgrows key hloaded) (Bool.eq_false_iff.1 hnot)
    | unregisterModule k => exact (hs.unload k).2 key hloaded hnot
  · intro module
    obtain ⟨r, s', h, -, -⟩ := hs.registerModule outcome module
    rw [h]
    rfl

end Loading

end Krust.Module
