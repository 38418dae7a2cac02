import Mathlib.Data.List.Infix

/-!
# Runs of a state machine

A run is a list of events, taken one after the other from an initial state.  `forall_prefix_iff` is
the rule for properties that one event can break and that are then broken: a property holds
throughout a run exactly if each event meets the condition under which it keeps the property.
-/

set_option autoImplicit false

namespace Krust.Lib

open List

section Run

variable {σ ε : Type}

def runFrom (step : σ → ε → σ) (init : σ) (es : List ε) : σ := es.foldl step init

theorem runFrom_concat (step : σ → ε → σ) (init : σ) (es : List ε) (e : ε) :
    runFrom step init (es ++ [e]) = step (runFrom step init es) e := by
  rw [runFrom, foldl_append]
  rfl

theorem runFrom_append (step : σ → ε → σ) (init : σ) (es es' : List ε) :
    runFrom step init (es ++ es') = runFrom step (runFrom step init es) es' :=
  foldl_append

variable {step : σ → ε → σ} {init : σ} {P : σ → Prop}

/-- **An invariant of the machine holds after every run.** -/
theorem runFrom_induction (h0 : P init)
    (hstep : ∀ s e, P s → P (step s e)) (es : List ε) : P (runFrom step init es) := by
  induction es using reverseRecOn with
  | nil => exact h0
  | append_singleton es e ih =>
    rw [runFrom_concat]
    exact hstep _ e ih

/-- What holds of every event of a run, with the events before it. -/
theorem forall_event_nil {C : List ε → ε → Prop} : ∀ es' e, es' ++ [e] <+: [] → C es' e := by
  intro es' e hes'
  exact absurd (prefix_nil.1 hes') (append_ne_nil_of_right_ne_nil _ (by simp))

theorem forall_event_concat (C : List ε → ε → Prop) (es : List ε) (e : ε) :
    (∀ es' e', es' ++ [e'] <+: es ++ [e] → C es' e') ↔
      (∀ es' e', es' ++ [e'] <+: es → C es' e') ∧ C es e := by
  simp only [prefix_concat_iff, or_imp, forall_and, append_singleton_inj, and_imp]
  refine and_comm.trans (and_congr_right' ⟨fun h => h es e rfl rfl, ?_⟩)
  rintro h _ _ rfl rfl
  exact h

variable {C : σ → ε → Prop}

/-- The same, for runs whose events all meet a condition where they come. -/
theorem runFrom_induction_of (h0 : P init) (hstep : ∀ s e, P s → C s e → P (step s e)) (es : List ε)
    (hes : ∀ es' e, es' ++ [e] <+: es → C (runFrom step init es') e) :
    P (runFrom step init es) := by
  induction es using reverseRecOn with
  | nil => exact h0
  | append_singleton es e ih =>
    rw [forall_event_concat (fun es' e' => C (runFrom step init es') e')] at hes
    rw [runFrom_concat]
    exact hstep _ e (ih hes.1) hes.2

/-- **A property holds throughout a run exactly if every event of the run keeps it.** -/
theorem forall_prefix_iff (h0 : P init) (hstep : ∀ es e, P (runFrom step init es) →
      (P (step (runFrom step init es) e) ↔ C (runFrom step init es) e)) (es : List ε) :
    (∀ es', es' <+: es → P (runFrom step init es')) ↔
      ∀ es' e, es' ++ [e] <+: es → C (runFrom step init es') e := by
  induction es using reverseRecOn with
  | nil =>
    refine iff_of_true (fun es' hes' => ?_) (forall_event_nil (C := fun es' e => C _ e))
    rw [prefix_nil.1 hes']
    exact h0
  | append_singleton es e ih =>
    have hleft : (∀ es', es' <+: es ++ [e] → P (runFrom step init es')) ↔
        (∀ es', es' <+: es → P (runFrom step init es')) ∧ P (step (runFrom step init es) e) := by
      simp only [prefix_concat_iff, or_imp, forall_and, forall_eq, runFrom_concat, and_comm]
    rw [hleft, forall_event_concat (fun es' e' => C (runFrom step init es') e'), ← ih]
    exact and_congr_right fun h => hstep es e (h es (prefix_refl es))

end Run

/-! ## Loops that restart

The body of a loop either goes on with another state or leaves the loop with a result.  `loop` runs
it for a given number of rounds, `Loops` says how often the body goes on before it leaves, and the
two agree (`Loops.loop_eq`).  If a number gets smaller with every round then the loop comes to its
end within that many rounds (`exists_loops`), and what is done with the result may as well be done
inside of the loop (`Loops.map`).
-/

section Loop

variable {σ α β : Type}

/-- The result of the loop, if it is left within so many rounds. -/
def loop (body : σ → σ ⊕ α) : Nat → σ → Option α
  | 0, _ => none
  | rounds + 1, s =>
    match body s with
    | .inl s' => loop body rounds s'
    | .inr a => some a

/-- The body goes on so many times, and then leaves the loop with this result. -/
inductive Loops (body : σ → σ ⊕ α) : σ → Nat → α → Prop
  | done {s : σ} {a : α} (h : body s = .inr a) : Loops body s 0 a
  | again {s s' : σ} {n : Nat} {a : α} (h : body s = .inl s') (hs' : Loops body s' n a) :
      Loops body s (n + 1) a

variable {body : σ → σ ⊕ α} {s : σ} {n : Nat} {a : α}

theorem Loops.loop_eq (h : Loops body s n a) :
    ∀ {rounds : Nat}, n < rounds → loop body rounds s = some a := by
  induction h with
  | done hdone =>
    intro rounds hlt
    obtain ⟨k, rfl⟩ := Nat.exists_eq_succ_of_ne_zero (Nat.ne_of_gt hlt)
    rw [loop, hdone]
  | again hagain _ ih =>
    intro rounds hlt
    obtain ⟨k, rfl⟩ := Nat.exists_eq_succ_of_ne_zero (Nat.ne_of_gt (Nat.zero_lt_of_lt hlt))
    rw [loop, hagain]
    exact ih (Nat.lt_of_succ_lt_succ hlt)

/-- **A loop comes to its end** if a number gets smaller with every round. -/
theorem exists_loops {I : σ → Prop} (μ : σ → Nat)
    (h : ∀ s s', I s → body s = .inl s' → I s' ∧ μ s' < μ s) :
    ∀ {s : σ}, I s → ∃ n a s', n ≤ μ s ∧ Loops body s n a ∧ I s' ∧ body s' = .inr a := by
  intro s
  induction hμ : μ s using Nat.strongRecOn generalizing s with
  | _ k ih =>
    intro hs
    cases hbody : body s with
    | inr a => exact ⟨0, a, s, Nat.zero_le _, .done hbody, hs, hbody⟩
    | inl s' =>
      obtain ⟨hs', hlt⟩ := h s s' hs hbody
      obtain ⟨n, a, s'', hn, hloops, hI, hlast⟩ := ih (μ s') (hμ ▸ hlt) rfl hs'
      exact ⟨n + 1, a, s'', by omega, .again hbody hloops, hI, hlast⟩

/-- What is done with the result, done inside of the loop. -/
theorem Loops.map {body' : σ → σ ⊕ β} {f : α → β} (hbody : ∀ s, body' s = (body s).map id f)
    (h : Loops body s n a) : Loops body' s n (f a) := by
  induction h with
  | done hdone =>
    refine .done ?_
    rw [hbody, hdone]
    rfl
  | again hagain _ ih =>
    refine .again ?_ ih
    rw [hbody, hagain]
    rfl

end Loop

end Krust.Lib
