import Krust.Lib.Prog
import Mathlib.Data.List.Nodup

/-!
# Critical sections

Any number of threads run a program each, and every program holds one and the same mutex from its
first action to its last.  `Crew` is the state of such a system, and the crews that are `Reached`
are those of every interleaving of the threads' actions with each other and with what others do to
the shared state meanwhile.

The mutex makes the threads take turns.  If the shared state stands for an abstract value, and each
section, whatever the others do within `rely`, makes one step `T` of the abstract value, then the
sections that have been left are the steps of one sequential history (`Reached.serial`): `Trace` is
that history.
-/

set_option autoImplicit false

namespace Krust

open List Function Option

namespace Prog

variable {σ ε α β γ : Type}

/-- The outcome of a program that has nothing left to do. -/
def outcome : Prog σ ε α → Option (Except ε α)
  | ret a => some (.ok a)
  | fail e => some (.error e)
  | act _ _ => none

/-- No action of the program changes `g`. -/
def Leaves (g : σ → γ) : Prog σ ε α → Prop
  | ret _ => True
  | fail _ => True
  | act f k => (∀ s b s', f s = some (b, s') → g s' = g s) ∧ ∀ b, Leaves g (k b)

section Leaves

variable {g : σ → γ}

theorem leaves_step {f : σ → β × σ} (hf : ∀ s, g (f s).2 = g s) :
    Leaves g (step f : Prog σ ε β) := by
  refine ⟨fun s b s' h => ?_, fun b => trivial⟩
  rw [← hf s, some_inj.1 h]

@[simp] theorem leaves_load (f : σ → β) : Leaves g (load f : Prog σ ε β) :=
  leaves_step fun _ => rfl

theorem leaves_update {f : σ → σ} (hf : ∀ s, g (f s) = g s) :
    Leaves g (update f : Prog σ ε Unit) := leaves_step hf

theorem leaves_await {p : σ → Bool} {f : σ → σ} (hf : ∀ s, g (f s) = g s) :
    Leaves g (await p f : Prog σ ε Unit) := by
  refine ⟨fun s b s' h => ?_, fun b => trivial⟩
  simp only [ite_none_right_eq_some, some_inj, Prod.mk.injEq] at h
  rw [← h.2.2, hf]

@[simp] theorem leaves_failIf (c : Bool) (e : ε) : Leaves g (failIf c e : Prog σ ε Unit) := by
  cases c <;> exact trivial

@[simp] theorem leaves_ofExcept (x : Except ε α) : Leaves g (ofExcept x : Prog σ ε α) := by
  cases x <;> exact trivial

variable {p : Prog σ ε α}

variable (hp : Leaves g p)
include hp

theorem Leaves.bind {k : α → Prog σ ε β} (hk : ∀ a, Leaves g (k a)) : Leaves g (bind p k) := by
  induction p with
  | ret a => exact hk a
  | fail e => exact trivial
  | act f h ih => exact ⟨hp.1, fun b => ih b (hp.2 b)⟩

theorem Leaves.attempt : Leaves g (attempt p) := by
  induction p with
  | ret a => exact trivial
  | fail e => exact trivial
  | act f h ih => exact ⟨hp.1, fun b => ih b (hp.2 b)⟩

theorem Leaves.map (h : α → β) : Leaves g (map h p) :=
  hp.bind fun _ => trivial

theorem Leaves.comp {δ : Type} (h : γ → δ) : Leaves (fun s => h (g s)) p := by
  induction p with
  | ret a => exact trivial
  | fail e => exact trivial
  | act f k ih => exact ⟨fun s b s' hf => congrArg h (hp.1 s b s' hf), fun b => ih b (hp.2 b)⟩

theorem Leaves.onFail {cleanup : Prog σ ε Unit} (hc : Leaves g cleanup) :
    Leaves g (onFail p cleanup) := by
  refine hp.attempt.bind fun r => ?_
  cases r with
  | ok a => exact trivial
  | error e => exact hc.bind fun _ => trivial

end Leaves

/-- A block with a guard still has the guard to release. -/
@[simp] theorem outcome_andFinally (p : Prog σ ε α) (f : σ → σ) :
    (andFinally p f).outcome = none := by
  cases p <;> rfl

end Prog

open Prog

variable {σ ε α ν : Type}

/-- A mutex: when it can be taken, and what taking and releasing it do to the state. -/
structure Mutex (σ : Type) where
  free : σ → Bool
  take : σ → σ
  release : σ → σ

/-- A program that holds the mutex throughout. -/
def Mutex.guard (m : Mutex σ) (p : Prog σ ε α) : Prog σ ε α :=
  Prog.bind (await m.free m.take) fun _ => andFinally p m.release

/-- The threads, by number: what each has still to do, and whether it has begun. -/
structure Crew (σ ε α : Type) where
  shared : σ
  prog : Nat → Prog σ ε α
  begun : Nat → Prop

namespace Crew

/-- The thread is inside its section. -/
def Inside (c : Crew σ ε α) (n : Nat) : Prop := c.begun n ∧ (c.prog n).outcome = none

def act (c : Crew σ ε α) (n : Nat) (s : σ) (p : Prog σ ε α) : Crew σ ε α :=
  ⟨s, Function.update c.prog n p, Function.update c.begun n True⟩

/-- **The states of every interleaving** of these programs, from the shared state `s0`.  The others
may do what `rely` allows, and while a thread is inside its section they leave its mutex alone. -/
inductive Reached (m : Mutex σ) (rely : σ → σ → Prop) (progs : Nat → Prog σ ε α) (s0 : σ) :
    Crew σ ε α → Prop
  | start : Reached m rely progs s0 ⟨s0, progs, fun _ => False⟩
  | act {c : Crew σ ε α} (hc : Reached m rely progs s0 c) (n : Nat) {β : Type}
      {f : σ → Option (β × σ)} {k : β → Prog σ ε α} (hn : c.prog n = .act f k) {b : β} {s : σ}
      (hf : f c.shared = some (b, s)) : Reached m rely progs s0 (c.act n s (k b))
  | others {c : Crew σ ε α} (hc : Reached m rely progs s0 c) {s : σ} (hs : rely c.shared s)
      (hm : ∀ n, c.Inside n → m.free s = m.free c.shared) :
      Reached m rely progs s0 { c with shared := s }

end Crew

/-- A sequential history: the outcomes of the threads, each of which made a step `T`. -/
inductive Trace (T : Nat → Except ε α → ν → ν → Prop) (v0 : ν) :
    List (Nat × Except ε α) → ν → Prop
  | nil : Trace T v0 [] v0
  | snoc {log : List (Nat × Except ε α)} {v v' : ν} (h : Trace T v0 log v) {n : Nat}
      {r : Except ε α} (hstep : T n r v v') : Trace T v0 (log ++ [(n, r)]) v'

namespace Crew

section Serial

variable {m : Mutex σ} {rely : σ → σ → Prop} {progs body : Nat → Prog σ ε α} {s0 : σ}
  {T : Nat → Except ε α → ν → ν → Prop} {Abs : σ → ν → Prop} {v0 : ν} {c : Crew σ ε α}

/-- What is known of a crew whose sections were left in the order of `log`, with `v` as the value
after the last of them. -/
structure Serial (m : Mutex σ) (rely : σ → σ → Prop) (body : Nat → Prog σ ε α)
    (T : Nat → Except ε α → ν → ν → Prop) (Abs : σ → ν → Prop) (v0 : ν) (c : Crew σ ε α)
    (log : List (Nat × Except ε α)) (v : ν) : Prop where
  trace : Trace T v0 log v
  nodup : (log.map Prod.fst).Nodup
  left : ∀ n r, (n, r) ∈ log ↔ c.begun n ∧ (c.prog n).outcome = some r
  waiting : ∀ n, ¬ c.begun n → c.prog n = m.guard (body n)
  /-- With nobody inside, the state stands for the value. -/
  quiet : (∀ n, ¬ c.Inside n) → Abs c.shared v
  /-- A thread inside is on its way to a step from the value, and has the mutex. -/
  inside : ∀ n, c.Inside n → m.free c.shared = false ∧ ∃ p s, c.prog n = andFinally p m.release ∧
    Leaves m.free p ∧ rely s c.shared ∧ wp rely p (fun r s' => ∃ v', T n r v v' ∧ Abs s' v') s
  one : ∀ n n', c.Inside n → c.Inside n' → n = n'

/-- What the programs and the others have to keep to: each program is a section, with this body. -/
structure Sections (m : Mutex σ) (rely : σ → σ → Prop) (progs body : Nat → Prog σ ε α)
    (T : Nat → Except ε α → ν → ν → Prop) (Abs : σ → ν → Prop) : Prop where
  guarded : ∀ n, progs n = m.guard (body n)
  refl : ∀ s, rely s s
  trans : ∀ {s s' s''}, rely s s' → rely s' s'' → rely s s''
  abs : ∀ {s s' v}, rely s s' → Abs s v → Abs s' v
  take : ∀ s, rely s (m.take s)
  taken : ∀ s, m.free (m.take s) = false
  release : ∀ s, rely s (m.release s)
  leaves : ∀ n, Leaves m.free (body n)
  step : ∀ {n s v}, Abs s v → wp rely (body n) (fun r s' => ∃ v', T n r v v' ∧ Abs s' v') s

variable {p : Prog σ ε α} {log : List (Nat × Except ε α)} {n : Nat} {s : σ}

theorem inside_act_self : (c.act n s p).Inside n ↔ p.outcome = none := by
  simp [Inside, act]

theorem inside_act_of_ne {n' : Nat} (hne : n' ≠ n) :
    (c.act n s p).Inside n' ↔ c.Inside n' := by
  simp [Inside, act, hne]

variable {v : ν}

/-- Those that wait are not concerned. -/
theorem Serial.waiting_act (h : Serial m rely body T Abs v0 c log v) {n' : Nat}
    (hn' : ¬ (c.act n s p).begun n') : (c.act n s p).prog n' = m.guard (body n') := by
  have hne : n' ≠ n := by
    rintro rfl
    simp [act] at hn'
  simp only [act, update_of_ne hne] at hn' ⊢
  exact h.waiting n' hn'

variable (hs : Sections m rely progs body T Abs)

include hs

theorem Serial.others (h : Serial m rely body T Abs v0 c log v)
    (hrely : rely c.shared s) (hm : ∀ n, c.Inside n → m.free s = m.free c.shared) :
    Serial m rely body T Abs v0 { c with shared := s } log v := by
  refine { h with
    quiet := fun hnone => hs.abs hrely (h.quiet hnone)
    inside := fun n hn => ?_ }
  obtain ⟨hfree, p, s1, hp, hleaves, hs1, hwp⟩ := h.inside n hn
  exact ⟨(hm n hn).trans hfree, p, s1, hp, hleaves, hs.trans hs1 hrely, hwp⟩

/-- A thread acts inside its section, where nobody else is, or enters it. -/
theorem Serial.inner (h : Serial m rely body T Abs v0 c log v) (hone : ∀ n', c.Inside n' → n' = n)
    (hn : c.begun n → (c.prog n).outcome = none) (hfree : m.free s = false)
    (hleaves : Leaves m.free p) (hwp : wp rely p (fun r s' => ∃ v', T n r v v' ∧ Abs s' v') s) :
    Serial m rely body T Abs v0 (c.act n s (andFinally p m.release)) log v := by
  have honly : ∀ n', (c.act n s (andFinally p m.release)).Inside n' → n' = n := fun n' hn' => by
    by_contra hne
    exact hne (hone n' ((inside_act_of_ne hne).1 hn'))
  refine ⟨h.trace, h.nodup, fun n' r => ?_, fun n' => h.waiting_act, fun hquiet => ?_,
    fun n' hn' => ?_, fun n1 n2 h1 h2 => (honly n1 h1).trans (honly n2 h2).symm⟩
  · rw [h.left]
    by_cases hne : n' = n
    · subst hne
      simp +contextual [act, hn]
    · simp [act, hne]
  · exact absurd (inside_act_self.2 (outcome_andFinally _ _)) (hquiet n)
  · obtain rfl := honly n' hn'
    exact ⟨hfree, p, s, by simp [act], hleaves, hs.refl _, hwp⟩

/-- A thread leaves its section: its step is the next one of the history. -/
theorem Serial.leave {v' : ν} (h : Serial m rely body T Abs v0 c log v) (hn : c.Inside n)
    {r : Except ε α} (hp : p.outcome = some r) (hstep : T n r v v') (habs : Abs c.shared v') :
    Serial m rely body T Abs v0 (c.act n (m.release c.shared) p) (log ++ [(n, r)]) v' := by
  have hnone : ∀ n', ¬ (c.act n (m.release c.shared) p).Inside n' := fun n' hn' => by
    by_cases hne : n' = n
    · subst hne
      rw [inside_act_self, hp] at hn'
      exact nomatch hn'
    · exact hne (h.one n' n ((inside_act_of_ne hne).1 hn') hn)
  have hfresh : ∀ r', (n, r') ∉ log := fun r' hr' => by
    have := ((h.left n r').1 hr').2
    rw [hn.2] at this
    exact nomatch this
  refine ⟨.snoc h.trace hstep, ?_, fun n' r' => ?_, fun n' => h.waiting_act,
    fun _ => hs.abs (hs.release _) habs, fun n' hn' => absurd hn' (hnone n'),
    fun n1 _ h1 => absurd h1 (hnone n1)⟩
  · rw [map_append, nodup_append]
    refine ⟨h.nodup, by simp, ?_⟩
    rintro n1 h1 n2 h2 rfl
    obtain ⟨⟨n1, r1⟩, hr1, rfl⟩ := mem_map.1 h1
    obtain rfl : n1 = n := by simpa using h2
    exact hfresh r1 hr1
  · rw [mem_append, h.left]
    by_cases hne : n' = n
    · subst hne
      simp [act, hp, hn.2, eq_comm]
    · simp [act, hne]

/-- One action keeps the crew in order. -/
theorem Serial.act {log : List (Nat × Except ε α)} (h : Serial m rely body T Abs v0 c log v)
    {β : Type} {f : σ → Option (β × σ)} {k : β → Prog σ ε α} (hn : c.prog n = .act f k)
    {b : β} (hf : f c.shared = some (b, s)) :
    ∃ log' v', Serial m rely body T Abs v0 (c.act n s (k b)) log' v' := by
  by_cases hbegun : c.begun n
  · have hin : c.Inside n := ⟨hbegun, by rw [hn]; rfl⟩
    obtain ⟨hfree, p, s1, hp, hleaves, hs1, hwp⟩ := h.inside n hin
    rw [hn] at hp
    cases p with
    | ret a =>
      -- the last action releases the mutex
      cases hp
      cases hf
      obtain ⟨v', hstep, habs⟩ := hwp
      exact ⟨_, v', h.leave hs hin rfl hstep (hs.abs hs1 habs)⟩
    | fail e =>
      cases hp
      cases hf
      obtain ⟨v', hstep, habs⟩ := hwp
      exact ⟨_, v', h.leave hs hin rfl hstep (hs.abs hs1 habs)⟩
    | act f' k' =>
      cases hp
      obtain ⟨b', s', hf', hk⟩ := hwp c.shared hs1
      cases hf.symm.trans hf'
      exact ⟨log, v, h.inner hs (fun n' hn' => h.one n' n hn' hin) (fun _ => hin.2)
        ((hleaves.1 _ _ _ hf).trans hfree) (hleaves.2 b) hk⟩
  · have hguard := h.waiting n hbegun
    rw [hn] at hguard
    cases hguard
    simp only [ite_none_right_eq_some, some_inj, Prod.mk.injEq] at hf
    obtain ⟨hfree, -, rfl⟩ := hf
    -- nobody is inside, since the mutex was free
    have hnone : ∀ n', ¬ c.Inside n' := fun n' hn' => by
      have := (h.inside n' hn').1
      simp [hfree] at this
    exact ⟨log, v, h.inner hs (fun n' hn' => absurd hn' (hnone n')) (fun hn => absurd hn hbegun)
      (hs.taken _) (hs.leaves n) (hs.step (hs.abs (hs.take _) (h.quiet hnone)))⟩

/-- **The threads take turns.**  In every interleaving the sections that have been left are the
steps of one sequential history. -/
theorem Reached.serial (h : Reached m rely progs s0 c) (habs : Abs s0 v0) :
    ∃ log v, Serial m rely body T Abs v0 c log v := by
  induction h with
  | start =>
    have hnone : ∀ n, ¬ Inside (⟨s0, progs, fun _ => False⟩ : Crew σ ε α) n := fun n hn => hn.1
    exact ⟨[], v0, .nil, by simp, by simp, fun n _ => hs.guarded n, fun _ => habs,
      fun n hn => absurd hn (hnone n), fun n _ hn => absurd hn (hnone n)⟩
  | act _ n hn hf ih =>
    obtain ⟨log, v, hserial⟩ := ih
    exact hserial.act hs hn hf
  | others _ hrely hm ih =>
    obtain ⟨log, v, hserial⟩ := ih
    exact ⟨log, v, hserial.others hs hrely hm⟩

end Serial

/-- A thread that is left alone runs to its end. -/
theorem Reached.run {m : Mutex σ} {rely : σ → σ → Prop} {progs : Nat → Prog σ ε α} {s0 : σ}
    {c : Crew σ ε α} (h : Reached m rely progs s0 c) (n : Nat) {r : Except ε α} {s : σ}
    (hn : ¬ (c.prog n).outcome = some r) (hrun : Prog.run (c.prog n) c.shared = (some r, s)) :
    ∃ p, p.outcome = some r ∧ Reached m rely progs s0 (c.act n s p) := by
  suffices hall : ∀ (p : Prog σ ε α) (c : Crew σ ε α), Reached m rely progs s0 c → c.prog n = p →
      ¬ p.outcome = some r → Prog.run p c.shared = (some r, s) →
      ∃ p', p'.outcome = some r ∧ Reached m rely progs s0 (c.act n s p') from hall _ c h rfl hn hrun
  intro p
  induction p with
  | ret a => intro c _ _ hn hrun; exact absurd (congrArg Prod.fst hrun) hn
  | fail e => intro c _ _ hn hrun; exact absurd (congrArg Prod.fst hrun) hn
  | act f k ih =>
    intro c hc hp _ hrun
    rw [Prog.run] at hrun
    rcases hf : f c.shared with _ | x
    · simp [hf] at hrun
    simp only [hf] at hrun
    have hstep := hc.act n hp (b := x.1) (s := x.2) hf
    by_cases hdone : (k x.1).outcome = some r
    · refine ⟨k x.1, hdone, ?_⟩
      have hs : x.2 = s := by
        cases hk : k x.1 with
        | ret a => rw [hk] at hrun; exact congrArg Prod.snd hrun
        | fail e => rw [hk] at hrun; exact congrArg Prod.snd hrun
        | act f' k' => rw [hk] at hdone; cases hdone
      rwa [hs] at hstep
    · obtain ⟨p', hp', hreached⟩ :=
        ih x.1 (c.act n x.2 (k x.1)) hstep (by simp [Crew.act]) hdone hrun
      refine ⟨p', hp', ?_⟩
      simpa [Crew.act] using hreached

end Crew

end Krust
