import Krust.Lib.Prog
import Mathlib.Algebra.BigOperators.Group.List.Basic
import Mathlib.Tactic.Abel

/-!
# Many programs at once

A `Pool` is a shared state and any number of programs that have started on it.  One step of the
pool is one atomic action of one of them, or the start of a new one, so that the reachable pools
are the states of every interleaving.

A resource (a unit of quota it has reserved, a reference it has cloned) is counted in the shared
state; `own s` is that count, over all the threads.  `Prog.Holds inv own p m Φ` says that a thread
which owns `m` of it and runs `p` keeps the invariant `inv` and changes the total exactly as it
changes its own share, and that it ends up with a share that satisfies `Φ`.  The frame `rest` is
what the other threads own.  `Pool.reachable_shares` is the rule: in every reachable pool the
invariant holds and the total is the sum of the shares.
-/

set_option autoImplicit false

namespace Krust

open List Option

variable {σ ε α β M : Type} [AddCommMonoid M]

/-- A thread that owns `m` and runs this program keeps `inv`, keeps its account, and ends with a
share that satisfies `Φ`. -/
def Prog.Holds (inv : σ → Prop) (own : σ → M) :
    Prog σ ε α → M → (Except ε α → M → Prop) → Prop
  | .ret a, m, Φ => Φ (.ok a) m
  | .fail e, m, Φ => Φ (.error e) m
  | .act f k, m, Φ => ∀ s rest b s', inv s → own s = rest + m → f s = some (b, s') →
      inv s' ∧ ∃ m', own s' = rest + m' ∧ Prog.Holds inv own (k b) m' Φ

variable {Φ : Except ε Unit → M → Prop} {shares : List M} {f : σ → σ}

namespace Prog

variable {inv : σ → Prop} {own : σ → M}

theorem holds_bind (p : Prog σ ε α) (g : α → Prog σ ε β) (m : M) (Φ : Except ε β → M → Prop) :
    Holds inv own (bind p g) m Φ ↔
      Holds inv own p m (fun r m' => match r with
        | .ok a => Holds inv own (g a) m' Φ
        | .error e => Φ (.error e) m') := by
  induction p generalizing m with
  | ret a => exact Iff.rfl
  | fail e => exact Iff.rfl
  | act f k ih => simp only [bind, Holds, ih]

theorem holds_attempt (p : Prog σ ε α) (m : M) (Φ : Except ε (Except ε α) → M → Prop) :
    Holds inv own (attempt p) m Φ ↔ Holds inv own p m (fun r m' => Φ (.ok r) m') := by
  induction p generalizing m with
  | ret a => exact Iff.rfl
  | fail e => exact Iff.rfl
  | act f k ih => simp only [attempt, Holds, ih]

theorem holds_step (f : σ → β × σ) (m : M) (Φ : Except ε β → M → Prop) :
    Holds inv own (step f) m Φ ↔ ∀ s rest, inv s → own s = rest + m →
      inv (f s).2 ∧ ∃ m', own (f s).2 = rest + m' ∧ Φ (.ok (f s).1) m' := by
  refine ⟨fun h s rest hs ho => h s rest _ _ hs ho rfl, fun h s rest b s' hs ho hf => ?_⟩
  obtain rfl : (f s).1 = b := congrArg Prod.fst (some_inj.1 hf)
  obtain rfl : (f s).2 = s' := congrArg Prod.snd (some_inj.1 hf)
  exact h s rest hs ho

variable {p : Prog σ ε α}

theorem Holds.mono {m : M} {Φ Ψ : Except ε α → M → Prop} (hΦ : ∀ r m', Φ r m' → Ψ r m')
    (h : Holds inv own p m Φ) : Holds inv own p m Ψ := by
  induction p generalizing m with
  | ret a => exact hΦ _ _ h
  | fail e => exact hΦ _ _ h
  | act f k ih =>
    intro s rest b s' hs ho hf
    obtain ⟨hi, m', ho', hk⟩ := h s rest b s' hs ho hf
    exact ⟨hi, m', ho', ih b hk⟩

theorem holds_await (c : σ → Bool) (f : σ → σ) (m : M) (Φ : Except ε Unit → M → Prop) :
    Holds inv own (await c f) m Φ ↔ ∀ s rest, inv s → own s = rest + m → c s = true →
      inv (f s) ∧ ∃ m', own (f s) = rest + m' ∧ Φ (.ok ()) m' := by
  refine ⟨fun h s rest hs ho hc => h s rest () (f s) hs ho (if_pos hc),
    fun h s rest b s' hs ho hf => ?_⟩
  simp only [ite_none_right_eq_some, some_inj, Prod.mk.injEq] at hf
  obtain ⟨hc, -, rfl⟩ := hf
  exact h s rest hs ho hc

/-- What a program that is executed alone leaves behind. -/
theorem Holds.of_run {m rest : M} {Φ : Except ε α → M → Prop} (h : Holds inv own p m Φ) {s s' : σ}
    {r : Except ε α} (hs : inv s) (ho : own s = rest + m) (hr : run p s = (some r, s')) :
    inv s' ∧ ∃ m', own s' = rest + m' ∧ Φ r m' := by
  induction p generalizing m s with
  | ret a =>
    obtain ⟨hr', rfl⟩ := Prod.mk.inj hr
    exact ⟨hs, m, ho, some_inj.1 hr' ▸ h⟩
  | fail e =>
    obtain ⟨hr', rfl⟩ := Prod.mk.inj hr
    exact ⟨hs, m, ho, some_inj.1 hr' ▸ h⟩
  | act f k ih =>
    rw [run] at hr
    rcases hf : f s with _ | x
    · simp [hf] at hr
    obtain ⟨hi, m', ho', hk⟩ := h s rest x.1 x.2 hs ho hf
    simp only [hf] at hr
    exact ih x.1 hk hi ho' hr

/-! ### Programs with a fixed price -/

/-- A thread that owns `m` and runs this program owns `n` when it fails, and `m' a` when it returns
`a`. -/
def Trades (inv : σ → Prop) (own : σ → M) (p : Prog σ ε α) (m n : M) (m' : α → M) : Prop :=
  Holds inv own p m fun r x => x = match r with
    | .ok a => m' a
    | .error _ => n

variable {m n n1 : M} {m' m1 : α → M} {m2 : β → M}

theorem trades_ret {a : α} (h : m = m' a) : Trades inv own (ret a : Prog σ ε α) m n m' := h

theorem trades_fail (e : ε) : Trades inv own (fail e : Prog σ ε α) n n m' := rfl

theorem Trades.bind {k : α → Prog σ ε β} (hp : Trades inv own p m n m1)
    (hk : ∀ a, Trades inv own (k a) (m1 a) n m2) : Trades inv own (bind p k) m n m2 := by
  rw [Trades, holds_bind]
  refine hp.mono ?_
  rintro (e | a) x rfl
  · rfl
  · exact hk a

theorem Trades.attempt (hp : Trades inv own p m m fun _ => m) :
    Trades inv own (attempt p) m n fun _ => m := by
  rw [Trades, holds_attempt]
  refine hp.mono ?_
  rintro (e | a) x rfl <;> rfl

theorem trades_step {f : σ → β × σ}
    (hf : ∀ s rest, inv s → own s = rest + m → inv (f s).2 ∧ own (f s).2 = rest + m2 (f s).1) :
    Trades inv own (step f : Prog σ ε β) m n m2 := by
  rw [Trades, holds_step]
  intro s rest hs ho
  obtain ⟨hi, ho'⟩ := hf s rest hs ho
  exact ⟨hi, _, ho', rfl⟩

theorem trades_load (f : σ → β) : Trades inv own (load f : Prog σ ε β) m n fun _ => m :=
  trades_step fun _ _ hs ho => ⟨hs, ho⟩

theorem trades_update {m' : M}
    (hf : ∀ s rest, inv s → own s = rest + m → inv (f s) ∧ own (f s) = rest + m') :
    Trades inv own (update f : Prog σ ε Unit) m n fun _ => m' := trades_step hf

theorem trades_await {c : σ → Bool} {m' : M}
    (hf : ∀ s rest, inv s → own s = rest + m → c s = true → inv (f s) ∧ own (f s) = rest + m') :
    Trades inv own (await c f : Prog σ ε Unit) m n fun _ => m' := by
  rw [Trades, holds_await]
  intro s rest hs ho hc
  obtain ⟨hi, ho'⟩ := hf s rest hs ho hc
  exact ⟨hi, _, ho', rfl⟩

theorem trades_failIf (c : Bool) (e : ε) :
    Trades inv own (failIf c e : Prog σ ε Unit) m m fun _ => m := by
  cases c <;> rfl

theorem trades_ofExcept (x : Except ε α) :
    Trades inv own (ofExcept x : Prog σ ε α) m m fun _ => m := by
  cases x <;> rfl

theorem Trades.andFinally (hp : Trades inv own p m n1 m1)
    (herr : ∀ s rest, inv s → own s = rest + n1 → inv (f s) ∧ own (f s) = rest + n)
    (hok : ∀ a s rest, inv s → own s = rest + m1 a → inv (f s) ∧ own (f s) = rest + m' a) :
    Trades inv own (andFinally p f) m n m' := by
  rw [Trades, Prog.andFinally, holds_bind, holds_attempt]
  refine hp.mono ?_
  rintro (e | a) x rfl
  · exact (trades_update herr).bind fun _ => trades_fail e
  · exact (trades_update (hok a)).bind fun _ => trades_ret rfl

theorem Trades.onFail {cleanup : Prog σ ε Unit} (hp : Trades inv own p m n1 m')
    (hc : Trades inv own cleanup n1 n fun _ => n) : Trades inv own (onFail p cleanup) m n m' := by
  rw [Trades, Prog.onFail, holds_bind, holds_attempt]
  refine hp.mono ?_
  rintro (e | a) x rfl
  · exact hc.bind fun _ => trades_fail e
  · exact trades_ret rfl

theorem Trades.map (g : α → β) (hp : Trades inv own p m n fun _ => m) :
    Trades inv own (map g p) m n fun _ => m := hp.bind fun _ => trades_ret rfl

/-- What is left of a program after at most `n` actions in a row, and the state. -/
def advance : Nat → Prog σ ε α → σ → Prog σ ε α × σ
  | n + 1, act f k, s =>
    match f s with
    | none => (act f k, s)
    | some (b, s') => advance n (k b) s'
  | _, p, s => (p, s)

end Prog

/-- A shared state and the programs running on it. -/
structure Pool (σ ε : Type) where
  shared : σ
  /-- What each of them still has to do. -/
  threads : List (Prog σ ε Unit)

namespace Pool

/-- One step: a new program starts, or one of the threads takes its next action. -/
inductive Step (ops : Prog σ ε Unit → Prop) : Pool σ ε → Pool σ ε → Prop
  | spawn {s : σ} {ts : List (Prog σ ε Unit)} {p : Prog σ ε Unit} (hp : ops p) :
      Step ops ⟨s, ts⟩ ⟨s, p :: ts⟩
  | act {β : Type} {s s' : σ} {ts1 ts2 : List (Prog σ ε Unit)} {f : σ → Option (β × σ)}
      {k : β → Prog σ ε Unit} {b : β} (hf : f s = some (b, s')) :
      Step ops ⟨s, ts1 ++ .act f k :: ts2⟩ ⟨s', ts1 ++ k b :: ts2⟩

/-- The pools that some interleaving of programs in `ops`, started on `s0`, passes through. -/
inductive Reachable (ops : Prog σ ε Unit → Prop) (s0 : σ) : Pool σ ε → Prop
  | start : Reachable ops s0 ⟨s0, []⟩
  | step {c c' : Pool σ ε} (h : Reachable ops s0 c) (hs : Step ops c c') : Reachable ops s0 c'

/-- Nobody is running: every thread has returned. -/
def Idle (c : Pool σ ε) : Prop :=
  ∀ p ∈ c.threads, (∃ a, p = .ret a) ∨ ∃ e, p = .fail e

/-- Another program is started, and takes at most `n` actions before any other thread. -/
def begin (c : Pool σ ε) (p : Prog σ ε Unit) (n : Nat) : Pool σ ε :=
  ⟨(p.advance n c.shared).2, (p.advance n c.shared).1 :: c.threads⟩

omit [AddCommMonoid M] in
theorem Reachable.begin {ops : Prog σ ε Unit → Prop} {s0 : σ} {c : Pool σ ε}
    (h : Reachable ops s0 c) {p : Prog σ ε Unit} (hp : ops p) (n : Nat) :
    Reachable ops s0 (c.begin p n) := by
  have hadvance : ∀ (n : Nat) (p : Prog σ ε Unit) (s : σ), Reachable ops s0 ⟨s, p :: c.threads⟩ →
      Reachable ops s0 ⟨(p.advance n s).2, (p.advance n s).1 :: c.threads⟩ := by
    intro n
    induction n with
    | zero => exact fun _ _ h => h
    | succ n ih =>
      rintro (a | e | ⟨f, k⟩) s h
      · exact h
      · exact h
      rw [Prog.advance]
      cases hf : f s with
      | none => exact h
      | some r =>
        have hact : Step ops ⟨s, [] ++ .act f k :: c.threads⟩ ⟨r.2, [] ++ k r.1 :: c.threads⟩ :=
          .act hf
        exact ih _ _ (h.step hact)
  exact hadvance n p c.shared (h.step (.spawn hp))

omit [AddCommMonoid M] in
/-- The share of the thread in the middle, and those of the threads around it. -/
theorem shares_split {R : Prog σ ε Unit → M → Prop} {ts1 ts2 : List (Prog σ ε Unit)}
    {p : Prog σ ε Unit} (h : List.Forall₂ R (ts1 ++ p :: ts2) shares) :
    ∃ l1 m l2, shares = l1 ++ m :: l2 ∧ List.Forall₂ R ts1 l1 ∧ R p m ∧
      List.Forall₂ R ts2 l2 := by
  induction ts1 generalizing shares with
  | nil =>
    obtain ⟨m, l2, hm, h2, rfl⟩ := forall₂_cons_left_iff.1 h
    exact ⟨[], m, l2, rfl, .nil, hm, h2⟩
  | cons q ts1 ih =>
    obtain ⟨n, l, hn, hl, rfl⟩ := forall₂_cons_left_iff.1 h
    obtain ⟨l1, m, l2, rfl, h1, hm, h2⟩ := ih hl
    exact ⟨n :: l1, m, l2, rfl, .cons hn h1, hm, h2⟩

/-- **The accounts add up.**  If every program that may start accounts for what it owns, then in
every reachable pool the invariant holds and the total is the sum of the threads' shares. -/
theorem reachable_shares {ops : Prog σ ε Unit → Prop} {s0 : σ} {inv : σ → Prop} {own : σ → M}
    (hinv : inv s0) (hown : own s0 = 0) (hops : ∀ p, ops p → Prog.Holds inv own p 0 Φ)
    {c : Pool σ ε} (hc : Reachable ops s0 c) :
    inv c.shared ∧ ∃ shares : List M, own c.shared = shares.sum ∧
      List.Forall₂ (fun p m => Prog.Holds inv own p m Φ) c.threads shares := by
  induction hc with
  | start => exact ⟨hinv, [], by simpa using hown, .nil⟩
  | step _ hs ih =>
    obtain ⟨hi, shares, hsum, hall⟩ := ih
    cases hs with
    | spawn hp => exact ⟨hi, 0 :: shares, by simpa using hsum, .cons (hops _ hp) hall⟩
    | @act β s s' ts1 ts2 f k b hf =>
      obtain ⟨l1, m, l2, rfl, h1, hm, h2⟩ := shares_split hall
      -- the frame of the acting thread is what the threads before and after it own
      have hframe : own s = (l1.sum + l2.sum) + m := by
        rw [hsum, sum_append, sum_cons]; abel
      obtain ⟨hi', m', ho', hk⟩ := hm s _ b s' hi hframe hf
      refine ⟨hi', l1 ++ m' :: l2, ?_, rel_append h1 (.cons hk h2)⟩
      rw [ho', sum_append, sum_cons]; abel

/-- When nobody is running, what is left of the total is what the threads ended with. -/
theorem idle_shares {inv : σ → Prop} {own : σ → M} {P : M → Prop} (hΦ : ∀ r m, Φ r m → P m)
    (h0 : P 0) (hadd : ∀ m m', P m → P m' → P (m + m')) {ts : List (Prog σ ε Unit)}
    (hidle : ∀ p ∈ ts, (∃ a, p = .ret a) ∨ ∃ e, p = .fail e)
    (hall : List.Forall₂ (fun p m => Prog.Holds inv own p m Φ) ts shares) : P shares.sum := by
  induction hall with
  | nil => simpa using h0
  | @cons p m ts shares hp _ ih =>
    refine hadd _ _ ?_ (ih (forall_mem_cons.1 hidle).2)
    rcases hidle p (by simp) with ⟨a, rfl⟩ | ⟨e, rfl⟩
    · exact hΦ _ _ hp
    · exact hΦ _ _ hp

end Pool

end Krust
