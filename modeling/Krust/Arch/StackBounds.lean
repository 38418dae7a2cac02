import Krust.Arch.InitialStack

/-!
# The stack is built without a panic

Where the arguments leave room for it, `build_initial_user_stack` never goes below the bottom of
memory, so none of its subtractions panics, and all that it writes is below the top of the stack.
This is stated with an invariant of the address space: if the mapping of the stack and the writes
below the top keep it, and come back, then so does the whole (`ends_buildInitialUserStack`).
-/

set_option autoImplicit false

namespace Krust.Arch

open Prog Lib List

variable {σ : Type} {space : UserSpace σ} {checks : Bool}

/-- Something has come back, with the invariant. -/
def Built {α : Type} (I : σ → Prop) (r : Option α) (s : σ) : Prop := I s ∧ r ≠ none

/-- A method comes back, and keeps the invariant. -/
def KeepsBuilt (I : σ → Prop) (method : σ → Option Bool × σ) : Prop :=
  ∀ s, I s → Built I (method s).1 (method s).2

/-- The room for strings, each with a zero behind it. -/
def stringBytes (strings : List (List UInt8)) : Nat := (strings.map fun s => s.length + 1).sum

theorem stringBytes_reverse (strings : List (List UInt8)) :
    stringBytes strings.reverse = stringBytes strings := by
  rw [stringBytes, stringBytes, map_reverse, sum_reverse]

/-- More than the stack needs for these arguments: their strings, a pointer to each, the path, and
less than 512 bytes for the rest. -/
def stackBytes (argv envp : List (List UInt8)) (execPath : List UInt8) : Nat :=
  stringBytes argv + stringBytes envp + 8 * (argv.length + envp.length) + execPath.length + 512

variable {strings : List (List UInt8)} {a : Nat}

section Push

variable {I : σ → Prop} {k : Nat → Prog σ Int Nat} {s : σ}

theorem ends_orFail {method : σ → Option Bool × σ} (hmethod : Built I (method s).1 (method s).2)
    {k : Unit → Prog σ Int Nat} (hk : ∀ s', I s' → Ends (k ()) (Built I) s') :
    Ends (Prog.bind (orFail method) k) (Built I) s := by
  obtain ⟨hs', hresult⟩ := hmethod
  rw [orFail, bind_eq, bind_assoc, ends_step]
  rcases h : (method s).1 with _ | _ | _
  · exact absurd h hresult
  · exact ⟨hs', nofun⟩
  · exact hk _ hs'

theorem ends_subtract {α : Type} {k : Nat → Prog σ Int α} {Q : Option (Except Int α) → σ → Prop}
    {sp n : Nat} (hn : n ≤ sp) (hk : ∀ a, a + n = sp → Ends (k a) Q s) :
    Ends (Prog.bind (subtract checks sp n) k) Q s := by
  rw [subtract, fitSub, if_pos hn]
  exact hk _ (Nat.sub_add_cancel hn)

theorem ends_checkedSub {sp n : Nat} (hs : I s) (hk : ∀ a, a + n = sp → Ends (k a) (Built I) s) :
    Ends (Prog.bind (checkedSub sp n) k) (Built I) s := by
  rw [checkedSub]
  split_ifs with hle
  · exact hk _ (Nat.sub_add_cancel hle)
  · exact ⟨hs, Option.some_ne_none _⟩

variable (hwrite : ∀ a bs, a + bs.length ≤ USER_STACK_TOP → KeepsBuilt I (space.writeBytes a bs))

include hwrite

theorem ends_writeBytes {k : Unit → Prog σ Int Nat} {bs : List UInt8} (hs : I s)
    (ha : a + bs.length ≤ USER_STACK_TOP) (hk : ∀ s', I s' → Ends (k ()) (Built I) s') :
    Ends (Prog.bind (writeBytes space a bs) k) (Built I) s :=
  ends_orFail (hwrite a bs ha s hs) hk

theorem ends_writeString {k : Unit → Prog σ Int Nat} {bytes : List UInt8} (hs : I s)
    (ha : a + (bytes.length + 1) ≤ USER_STACK_TOP) (hk : ∀ s', I s' → Ends (k ()) (Built I) s') :
    Ends (Prog.bind (writeString space a bytes) k) (Built I) s := by
  rw [writeString, bind_eq, bind_assoc]
  refine ends_writeBytes hwrite hs (by omega) fun s1 hs1 => ?_
  refine ends_writeBytes hwrite hs1 ?_ hk
  omega

/-- The strings take their room below `sp`. -/
theorem ends_pushStrings :
    ∀ {sp : Nat} {s : σ}, I s → sp ≤ USER_STACK_TOP →
    (∀ sp' s', I s' → sp' + stringBytes strings = sp → Ends (k sp') (Built I) s') →
    Ends (Prog.bind (pushStrings space strings sp) k) (Built I) s := by
  induction strings with
  | nil => exact fun hs _ hk => hk _ _ hs rfl
  | cons bytes rest ih =>
    intro sp s hs hsp hk
    simp only [pushStrings, bind_eq, bind_assoc]
    refine ends_checkedSub hs fun a ha => ?_
    refine ends_writeString hwrite hs (by omega) fun s1 hs1 => ?_
    refine ih hs1 (by omega) fun sp' s2 hs2 hsp' => hk sp' s2 hs2 ?_
    rw [stringBytes] at hsp' ⊢
    rw [map_cons, sum_cons]
    omega

theorem ends_pushU64 {sp value : Nat} (hs : I s) (hlo : 8 ≤ sp) (hhi : sp ≤ USER_STACK_TOP)
    (hk : ∀ a s', I s' → a + 8 = sp → Ends (k a) (Built I) s') :
    Ends (Prog.bind (pushU64 space checks sp value) k) (Built I) s := by
  simp only [pushU64, bind_eq, bind_assoc]
  refine ends_subtract hlo fun a ha => ?_
  refine ends_writeBytes hwrite hs ?_ fun s' hs' => hk a s' hs' ha
  rw [length_leBytes, ha]
  exact hhi

theorem ends_pushAuxvs {l : List (Nat × Nat)} :
    ∀ {sp : Nat} {s : σ}, I s → 16 * l.length ≤ sp → sp ≤ USER_STACK_TOP →
    (∀ a s', I s' → a + 16 * l.length = sp → Ends (k a) (Built I) s') →
    Ends (Prog.bind (pushAuxvs space checks l sp) k) (Built I) s := by
  induction l with
  | nil => exact fun hs _ _ hk => hk _ _ hs rfl
  | cons entry rest ih =>
    intro sp s hs hlo hhi hk
    rw [length_cons] at hlo hk
    simp only [pushAuxvs, pushAuxv, bind_eq, bind_assoc]
    refine ends_pushU64 hwrite hs (by omega) hhi fun a1 s1 hs1 ha1 => ?_
    refine ends_pushU64 hwrite hs1 (by omega) (by omega) fun a2 s2 hs2 ha2 => ?_
    exact ih hs2 (by omega) (by omega) fun a3 s3 hs3 ha3 => hk a3 s3 hs3 (by omega)

theorem ends_pushPointers :
    ∀ {scan sp : Nat} {s : σ}, I s → 8 * strings.length ≤ sp → sp ≤ USER_STACK_TOP →
    (∀ a s', I s' → a + 8 * strings.length = sp → Ends (k a) (Built I) s') →
    Ends (Prog.bind (pushPointers space checks strings scan sp) k) (Built I) s := by
  induction strings with
  | nil => exact fun hs _ _ hk => hk _ _ hs rfl
  | cons bytes rest ih =>
    intro scan sp s hs hlo hhi hk
    rw [length_cons] at hlo hk
    simp only [pushPointers, bind_eq, bind_assoc]
    refine ends_checkedSub hs fun _ _ => ?_
    refine ends_pushU64 hwrite hs (by omega) hhi fun a1 s1 hs1 ha1 => ?_
    exact ih hs1 (by omega) (by omega) fun a2 s2 hs2 ha2 => hk a2 s2 hs2 (by omega)

theorem ends_pushPadding {tableQwords sp : Nat} (hs : I s) (hlo : 8 ≤ sp)
    (hhi : sp ≤ USER_STACK_TOP)
    (hk : ∀ sp' s', I s' → sp' ≤ sp → sp ≤ sp' + 8 → Ends (k sp') (Built I) s') :
    Ends (Prog.bind (pushPadding space checks tableQwords sp) k) (Built I) s := by
  rw [pushPadding]
  split
  · exact ends_pushU64 hwrite hs hlo hhi fun a s' hs' ha => hk a s' hs' (by omega) (by omega)
  · exact hk sp s hs (le_refl _) (by omega)

end Push

/-- **The stack is built, or an error is returned**, and what the writes keep is kept. -/
theorem ends_buildInitialUserStack {I : σ → Prop} {s : σ} {region : Option Bool × σ}
    (heq : space.mapZeroedRegion (USER_STACK_TOP - (USER_STACK_SIZE + USER_STACK_RESERVE))
      USER_STACK_MAP_SIZE WRITABLE s = region)
    (hregion : Built I region.1 region.2)
    (hwrite : ∀ a bs, a + bs.length ≤ USER_STACK_TOP → KeepsBuilt I (space.writeBytes a bs))
    {argv envp : List (List UInt8)} {execPath : List UInt8} (plan : LoadPlan)
    (hsize : stackBytes argv envp execPath ≤ USER_STACK_TOP - USER_STACK_RESERVE) :
    Ends (buildInitialUserStack space checks argv envp execPath plan) (Built I) s := by
  subst heq
  rw [stackBytes] at hsize
  have htop : USER_STACK_TOP - USER_STACK_RESERVE ≤ USER_STACK_TOP := Nat.sub_le _ _
  have htop' : USER_STACK_TOP < 2 ^ 64 := by decide
  have hplatform : platform.length = 6 := rfl
  refine ends_orFail hregion fun s1 hs1 => ?_
  refine ends_pushStrings hwrite hs1 htop fun argvStart s2 hs2 hargv => ?_
  refine ends_pushStrings hwrite hs2 (by omega) fun sp s3 hs3 hsp => ?_
  rw [stringBytes_reverse] at hargv hsp
  refine ends_subtract (by omega) fun platformAddr hplatformAddr => ?_
  refine ends_writeString hwrite hs3 (by omega) fun s4 hs4 => ?_
  refine ends_subtract (by omega) fun execfnAddr hexecfnAddr => ?_
  refine ends_writeString hwrite hs4 (by omega) fun s5 hs5 => ?_
  refine ends_subtract (by omega) fun randomAddr hrandomAddr => ?_
  refine ends_writeBytes hwrite hs5 ?_ fun s6 hs6 => ?_
  · rw [length_replicate]
    omega
  have hmask : randomAddr &&& 0xffff_ffff_ffff_fff0 = randomAddr / 2 ^ 4 * 2 ^ 4 :=
    mask_high (n := 4) (k := 60) (by omega)
  have hauxv : (auxvPushes plan execfnAddr randomAddr platformAddr).length = 19 := rfl
  have henvc : envp.reverse.length = envp.length := length_reverse
  have hargc : argv.reverse.length = argv.length := length_reverse
  refine ends_pushPadding hwrite hs6 (by omega) (by omega) fun sp1 s7 hs7 hhi hlo => ?_
  refine ends_pushAuxvs hwrite hs7 (by omega) (by omega) fun sp2 s8 hs8 hsp2 => ?_
  refine ends_pushU64 hwrite hs8 (by omega) (by omega) fun sp3 s9 hs9 hsp3 => ?_
  refine ends_pushPointers hwrite hs9 (by omega) (by omega) fun sp4 s10 hs10 hsp4 => ?_
  refine ends_pushU64 hwrite hs10 (by omega) (by omega) fun sp5 s11 hs11 hsp5 => ?_
  refine ends_pushPointers hwrite hs11 (by omega) (by omega) fun sp6 s12 hs12 hsp6 => ?_
  refine ends_subtract (by omega) fun sp7 hsp7 => ?_
  refine ends_writeBytes hwrite hs12 ?_ fun s13 hs13 => ⟨hs13, nofun⟩
  rw [length_leBytes]
  omega

end Krust.Arch
