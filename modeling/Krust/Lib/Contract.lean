import Krust.Lib.Prog

/-!
# Contracts

A contract says what a program may do to a state: there is an invariant that it has to keep, and a
relation between the states before and after; a program that fails may have changed the state in
other ways, as long as the invariant holds.

`Prog.Obeys` says that a program obeys a contract from one state, and may relate its result to the
state where it returns; `Prog.Keeps` says it for every state with the invariant.  There is a rule
for each way of putting programs together.
-/

set_option autoImplicit false

namespace Krust

/-- What programs may do to a state. -/
structure Contract (σ : Type) where
  /-- What holds before and after. -/
  inv : σ → Prop
  step : σ → σ → Prop
  /-- How the state may have changed where a program fails. -/
  failed : σ → σ → Prop
  refl : ∀ s, step s s
  trans : ∀ {s s' s''}, step s s' → step s' s'' → step s s''
  failed_trans : ∀ {s s' s''}, step s s' → failed s' s'' → failed s s''

/-- A contract under which a program may fail for no reason. -/
class Contract.Lenient {σ : Type} (C : Contract σ) : Prop where
  failed_refl : ∀ s, C.failed s s

namespace Prog

variable {σ ε α β : Type} {C : Contract σ} {p : Prog σ ε α} {k : β → Prog σ ε α}

/-- Run from `s`, the program obeys the contract; what is known of its result may depend on the
state where it returns.  A program that never returns has not failed. -/
def Obeys (C : Contract σ) (p : Prog σ ε α) (R : α → σ → Prop) (s : σ) : Prop :=
  Ends p (fun
    | some (.ok a), s' => C.inv s' ∧ C.step s s' ∧ R a s'
    | some (.error _), s' => C.inv s' ∧ C.failed s s'
    | none, s' => C.inv s' ∧ C.step s s') s

section Obeys

variable {R : α → σ → Prop} {S : β → σ → Prop} {s : σ}

theorem obeys_ret {a : α} (hinv : C.inv s) (h : R a s) : Obeys C (ret a : Prog σ ε α) R s :=
  ⟨hinv, C.refl s, h⟩

theorem obeys_fail [C.Lenient] (e : ε) (hinv : C.inv s) : Obeys C (fail e : Prog σ ε α) R s :=
  ⟨hinv, Contract.Lenient.failed_refl s⟩

theorem Obeys.mono {R' : α → σ → Prop} (h : Obeys C p R s) (hR : ∀ a s', R a s' → R' a s') :
    Obeys C p R' s := by
  refine Ends.mono (fun r s' hr => ?_) h
  rcases r with _ | _ | a
  · exact hr
  · exact hr
  · exact ⟨hr.1, hr.2.1, hR a s' hr.2.2⟩

/-- **The rule of composition.** -/
theorem Obeys.bind {p : Prog σ ε β} (hp : Obeys C p S s)
    (hk : ∀ b s', C.inv s' → C.step s s' → S b s' → Obeys C (k b) R s') :
    Obeys C (bind p k) R s := by
  rw [Obeys, ends_bind]
  refine Ends.mono (fun r s' h => ?_) hp
  rcases r with _ | e | b
  · exact h
  · exact h
  rw [andThen_ok]
  refine Ends.mono (fun r s'' h' => ?_) (hk b s' h.1 h.2.1 h.2.2)
  rcases r with _ | e | a
  · exact ⟨h'.1, C.trans h.2.1 h'.2⟩
  · exact ⟨h'.1, C.failed_trans h.2.1 h'.2⟩
  · exact ⟨h'.1, C.trans h.2.1 h'.2.1, h'.2.2⟩

end Obeys

def Keeps (C : Contract σ) (p : Prog σ ε α) : Prop :=
  ∀ s, C.inv s → Obeys C p (fun _ _ => True) s

/-! ## Programs without actions -/

theorem keeps_ret (a : α) : Keeps C (ret a : Prog σ ε α) := fun _ hs => obeys_ret hs trivial

theorem keeps_fail [C.Lenient] (e : ε) : Keeps C (fail e : Prog σ ε α) :=
  fun _ hs => obeys_fail e hs

theorem keeps_ofOption (x : Option α) : Keeps C (ofOption x : Prog σ ε α) := by
  cases x with
  | none => exact fun s hs => ⟨hs, C.refl s⟩
  | some a => exact keeps_ret a

theorem keeps_ofExcept [C.Lenient] (x : Except ε α) : Keeps C (ofExcept x) := by
  cases x with
  | error e => exact keeps_fail e
  | ok a => exact keeps_ret a

theorem keeps_failIf [C.Lenient] (c : Bool) (e : ε) : Keeps C (failIf c e : Prog σ ε Unit) := by
  cases c with
  | true => exact keeps_fail e
  | false => exact keeps_ret ()

/-! ## Actions -/

theorem keeps_load (f : σ → α) : Keeps C (load f : Prog σ ε α) :=
  fun s hs => ⟨hs, C.refl s, trivial⟩

theorem keeps_update {f : σ → σ} (hf : ∀ s, C.inv s → C.inv (f s) ∧ C.step s (f s)) :
    Keeps C (update f : Prog σ ε Unit) :=
  fun s hs => ⟨(hf s hs).1, (hf s hs).2, trivial⟩

/-! ## Putting programs together -/

theorem Keeps.bind {p : Prog σ ε β} (hp : Keeps C p) (hk : ∀ b, Keeps C (k b)) :
    Keeps C (bind p k) :=
  fun s hs => (hp s hs).bind fun b s' hs' _ _ => hk b s' hs'

theorem keeps_forEach {γ : Type} {f : γ → Prog σ ε Unit} (hf : ∀ x, Keeps C (f x)) (xs : List γ) :
    Keeps C (forEach f xs) := by
  induction xs with
  | nil => exact keeps_ret ()
  | cons x xs ih => exact (hf x).bind fun _ => ih

end Prog

end Krust
