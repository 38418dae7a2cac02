import Mathlib.Order.Defs.Unbundled

/-!
# Programs made of atomic actions

A kernel routine is a sequence of steps that each touch shared memory once: take a lock, read a
field, bump an atomic counter.  `Prog σ ε α` is such a routine, over a shared state `σ`, with errors
in `ε` and a result in `α`: it is finished (`ret`), it has failed (`fail`), or it performs one
atomic action on the state and goes on with what the action returned (`act`).  An action that
returns `none` is *blocked*: it is waiting for a state in which it can be taken.

The same program can then be looked at in several ways, and this file has the rules for two of
them; `Krust.Lib.Pool` interleaves whole programs.

* `Prog.run` executes it alone.  The answer is `none` when the program blocks: with nobody else
  around to change the state, that is a program that waits for itself.  `Prog.Ends` states what
  holds where the run stops, and has a rule for every way of putting programs together.
* `Prog.Exec rely` executes it in company: before every action the state may be changed by
  somebody else, as long as the change is allowed by `rely`.  `Prog.wp` is the weakest
  precondition for that semantics, and it is a total one: `Prog.wp_sound` says where an execution
  ends, and `Prog.wp_run` that the program, left alone, does end there.
-/

set_option autoImplicit false

namespace Krust

open List Option

/-- A routine that acts on the shared state `σ` by atomic actions. -/
inductive Prog (σ ε : Type) (α : Type) : Type 1 where
  | ret (a : α)
  | fail (e : ε)
  /-- The routine takes one atomic action and continues; `none` means the action cannot be taken
  in this state. -/
  | act {β : Type} (f : σ → Option (β × σ)) (k : β → Prog σ ε α)

namespace Prog

variable {σ ε α β : Type}

def bind : Prog σ ε α → (α → Prog σ ε β) → Prog σ ε β
  | ret a, g => g a
  | fail e, _ => fail e
  | act f k, g => act f fun b => bind (k b) g

instance : Monad (Prog σ ε) where
  pure := ret
  bind := bind

/-- Run `p`, and hand its outcome, error or not, to what follows.  This is how the destructors of
local variables run on every way out of a block. -/
def attempt : Prog σ ε α → Prog σ ε (Except ε α)
  | ret a => ret (.ok a)
  | fail e => ret (.error e)
  | act f k => act f fun b => attempt (k b)

/-- Return what a `Result` holds. -/
def ofExcept : Except ε α → Prog σ ε α
  | .ok a => ret a
  | .error e => fail e

/-- One atomic action that cannot block. -/
def step (f : σ → β × σ) : Prog σ ε β := act (fun s => some (f s)) ret

def load (f : σ → β) : Prog σ ε β := step fun s => (f s, s)

def update (f : σ → σ) : Prog σ ε Unit := step fun s => ((), f s)

def await (p : σ → Bool) (f : σ → σ) : Prog σ ε Unit :=
  act (fun s => if p s then some ((), f s) else none) ret

def failIf (c : Bool) (e : ε) : Prog σ ε Unit := if c then fail e else ret ()

/-- Run `p`, then change the state by `f` whatever the outcome of `p` is, and return that outcome:
a guard that is released on every way out of its block. -/
def andFinally (p : Prog σ ε α) (f : σ → σ) : Prog σ ε α :=
  bind (attempt p) fun r => bind (update f) fun _ => ofExcept r

/-- Run `p`, and if it fails clean up before returning the error. -/
def onFail (p : Prog σ ε α) (cleanup : Prog σ ε Unit) : Prog σ ε α :=
  bind (attempt p) fun
    | .ok a => ret a
    | .error e => bind cleanup fun _ => fail e

def map (g : α → β) (p : Prog σ ε α) : Prog σ ε β := bind p fun a => ret (g a)

/-- A routine that never returns. -/
def hang : Prog σ ε α := act (fun _ => (none : Option (Empty × σ))) fun b => b.elim

/-- Go on with a value, if there is one, and never return otherwise. -/
def ofOption : Option α → Prog σ ε α
  | some a => ret a
  | none => hang

/-- Run `p` on a part of a larger state, and translate its errors. -/
def embed {τ ε' : Type} (get : τ → σ) (set : σ → τ → τ) (err : ε → ε') :
    Prog σ ε α → Prog τ ε' α
  | ret a => ret a
  | fail e => fail (err e)
  | act f k => act (fun t => (f (get t)).map fun r => (r.1, set r.2 t)) fun b =>
      embed get set err (k b)

/-- Run `p` with a local variable, and return its outcome and what the variable holds then. -/
def withLocal {τ : Type} : Prog (σ × τ) ε α → τ → Prog σ ε (Except ε α × τ)
  | ret a, t => ret (.ok a, t)
  | fail e, t => ret (.error e, t)
  | act f k, t => act (fun s => (f (s, t)).map fun r => ((r.1, r.2.2), r.2.1)) fun b =>
      withLocal (k b.1) b.2

/-- The result of `p`, or a default if it fails. -/
def unwrapOr (p : Prog σ ε α) (default : α) : Prog σ ε α :=
  bind (attempt p) fun
    | .ok a => ret a
    | .error _ => ret default

/-- Run a program for each element of a list. -/
def forEach {γ : Type} (f : γ → Prog σ ε Unit) : List γ → Prog σ ε Unit
  | [] => ret ()
  | x :: xs => bind (f x) fun _ => forEach f xs

@[simp] theorem pure_eq (a : α) : (pure a : Prog σ ε α) = ret a := rfl

@[simp] theorem bind_eq (p : Prog σ ε α) (g : α → Prog σ ε β) : p >>= g = bind p g := rfl

theorem bind_assoc {γ : Type} (p : Prog σ ε α) (f : α → Prog σ ε β) (g : β → Prog σ ε γ) :
    bind (bind p f) g = bind p fun a => bind (f a) g := by
  induction p with
  | ret a => rfl
  | fail e => rfl
  | act h k ih => exact congrArg (act h) (funext ih)

theorem map_andFinally (g : α → β) (p : Prog σ ε α) (f : σ → σ) :
    map g (andFinally p f) = andFinally (map g p) f := by
  induction p with
  | ret a => rfl
  | fail e => rfl
  | act h k ih => exact congrArg (act h) (funext ih)

/-! ## Running a program alone -/

/-- Execute the program with nobody else around.  `none` is a program that waits forever. -/
def run : Prog σ ε α → σ → Option (Except ε α) × σ
  | ret a, s => (some (.ok a), s)
  | fail e, s => (some (.error e), s)
  | act f k, s =>
    match f s with
    | none => (none, s)
    | some (b, s') => run (k b) s'

theorem run_bind (p : Prog σ ε α) (g : α → Prog σ ε β) (s : σ) :
    run (bind p g) s =
      match run p s with
      | (some (.ok a), s') => run (g a) s'
      | (some (.error e), s') => (some (.error e), s')
      | (none, s') => (none, s') := by
  induction p generalizing s with
  | ret a => rfl
  | fail e => rfl
  | act f k ih =>
    rw [bind, run, run]
    cases h : f s with
    | none => rfl
    | some r => exact ih r.1 r.2

variable {p : Prog σ ε α} {s s' : σ} {Q : Except ε α → σ → Prop}

theorem run_bind_ok {a : α} (h : run p s = (some (.ok a), s')) (g : α → Prog σ ε β) :
    run (bind p g) s = run (g a) s' := by
  rw [run_bind, h]

variable {g : α → Prog σ ε β}

/-- What is known if both parts have returned. -/
theorem run_bind_eq_ok {s'' : σ} {b : β} (h : run (bind p g) s = (some (.ok b), s'')) :
    ∃ a s', run p s = (some (.ok a), s') ∧ run (g a) s' = (some (.ok b), s'') := by
  rw [run_bind] at h
  rcases hp : run p s with ⟨_ | _ | a, s'⟩ <;> rw [hp] at h
  · cases h
  · cases h
  · exact ⟨a, s', rfl, h⟩

theorem run_bind_error {e : ε} (h : run p s = (some (.error e), s')) (g : α → Prog σ ε β) :
    run (bind p g) s = (some (.error e), s') := by
  rw [run_bind, h]

theorem run_attempt (p : Prog σ ε α) (s : σ) :
    run (attempt p) s =
      match run p s with
      | (some r, s') => (some (.ok r), s')
      | (none, s') => (none, s') := by
  induction p generalizing s with
  | ret a => rfl
  | fail e => rfl
  | act f k ih =>
    rw [attempt, run, run]
    cases h : f s with
    | none => rfl
    | some r => exact ih r.1 r.2

theorem run_attempt_ok {a : α} (h : run p s = (some (.ok a), s')) :
    run (attempt p) s = (some (.ok (.ok a)), s') := by
  rw [run_attempt, h]

theorem run_unwrapOr_ok {a : α} (h : run p s = (some (.ok a), s')) (default : α) :
    run (unwrapOr p default) s = (some (.ok a), s') := by
  rw [unwrapOr, run_bind_ok (run_attempt_ok h)]
  rfl

/-- A program that only changes the state, run for each element. -/
theorem run_forEach {γ : Type} {f : γ → Prog σ ε Unit} {g : γ → σ → σ} {P : σ → Prop} {xs : List γ}
    (hf : ∀ x ∈ xs, ∀ s, P s → run (f x) s = (some (.ok ()), g x s) ∧ P (g x s)) (hs : P s) :
    run (forEach f xs) s = (some (.ok ()), xs.foldl (fun s x => g x s) s) := by
  induction xs generalizing s with
  | nil => rfl
  | cons x xs ih =>
    obtain ⟨hrun, hnext⟩ := hf x mem_cons_self s hs
    rw [forEach, run_bind_ok hrun, ih (forall_mem_cons.1 hf).2 hnext]
    rfl

variable {τ ε' : Type}

/-- A program on a part of the state changes that part. -/
theorem run_embed (get : τ → σ) (set : σ → τ → τ) (err : ε → ε')
    (p : Prog σ ε α) (t : τ) (hget : ∀ s t, get (set s t) = s := by intros; rfl)
    (hset : ∀ t, set (get t) t = t := by intros; rfl)
    (hsets : ∀ s s' t, set s (set s' t) = set s t := by intros; rfl) :
    run (embed get set err p) t =
      ((run p (get t)).1.map (·.mapError err), set (run p (get t)).2 t) := by
  induction p generalizing t with
  | ret a => exact congrArg (Prod.mk _) (hset t).symm
  | fail e => exact congrArg (Prod.mk _) (hset t).symm
  | act f k ih =>
    rw [embed, run, run]
    rcases h : f (get t) with _ | r
    · exact congrArg (Prod.mk _) (hset t).symm
    rw [map_some]
    dsimp only
    rw [ih r.1, hget, hsets]

/-- A local variable is a part of the state while the program runs. -/
theorem run_withLocal (p : Prog (σ × τ) ε α) (s : σ) (t : τ) :
    run (withLocal p t) s =
      ((run p (s, t)).1.map fun r => .ok (r, (run p (s, t)).2.2), (run p (s, t)).2.1) := by
  induction p generalizing s t with
  | ret a => rfl
  | fail e => rfl
  | act f k ih =>
    rw [withLocal, run, run]
    rcases h : f (s, t) with _ | r
    · rfl
    rw [map_some]
    dsimp only
    rw [ih r.1]

/-- Run alone from `s`, the program stops with an outcome (`none` if it never returns) and in a
state that satisfy `Q`. -/
def Ends (p : Prog σ ε α) (Q : Option (Except ε α) → σ → Prop) (s : σ) : Prop :=
  Q (run p s).1 (run p s).2

section Ends

variable {Q Q' : Option (Except ε α) → σ → Prop} {s : σ}

theorem Ends.mono {p : Prog σ ε α} (hQ : ∀ r s', Q r s' → Q' r s') (h : Ends p Q s) :
    Ends p Q' s := hQ _ _ h

theorem Ends.of_run {p : Prog σ ε α} (h : Ends p Q s) {r : Option (Except ε α)} {s' : σ}
    (hr : run p s = (r, s')) : Q r s' := by
  rw [Ends, hr] at h
  exact h

@[simp] theorem ends_ret (a : α) : Ends (ret a) Q s ↔ Q (some (.ok a)) s := Iff.rfl

/-- The rest of the program, which is run if there is a result. -/
def AndThen (g : β → Prog σ ε α) (Q : Option (Except ε α) → σ → Prop) :
    Option (Except ε β) → σ → Prop
  | some (.ok b), s => Ends (g b) Q s
  | some (.error e), s => Q (some (.error e)) s
  | none, s => Q none s

@[simp] theorem andThen_ok (g : β → Prog σ ε α) (b : β) :
    AndThen g Q (some (.ok b)) s ↔ Ends (g b) Q s := Iff.rfl

theorem ends_bind (p : Prog σ ε β) (g : β → Prog σ ε α) :
    Ends (bind p g) Q s ↔ Ends p (AndThen g Q) s := by
  rw [Ends, Ends, run_bind]
  rcases h : run p s with ⟨_ | _ | _, s'⟩ <;> exact Iff.rfl

theorem ends_step (f : σ → β × σ) (g : β → Prog σ ε α) :
    Ends (bind (step f) g) Q s ↔ Ends (g (f s).1) Q (f s).2 := Iff.rfl

theorem ends_load (f : σ → β) (g : β → Prog σ ε α) :
    Ends (bind (load f) g) Q s ↔ Ends (g (f s)) Q s := Iff.rfl

theorem ends_update (f : σ → σ) (g : Unit → Prog σ ε α) :
    Ends (bind (update f) g) Q s ↔ Ends (g ()) Q (f s) := Iff.rfl

theorem ends_await (p : σ → Bool) (f : σ → σ) (g : Unit → Prog σ ε α) :
    Ends (bind (await p f) g) Q s ↔ if p s then Ends (g ()) Q (f s) else Q none s := by
  rw [ends_bind, Ends, await]
  by_cases h : p s <;> simp [h, run, AndThen]

variable {g : Unit → Prog σ ε α}

theorem ends_wait {p : σ → Bool} {f : σ → σ}
    (hok : p s = true → Ends (g ()) Q (f s)) (hwait : p s = false → Q none s) :
    Ends (bind (await p f) g) Q s := by
  rw [ends_await]
  cases h : p s with
  | true => exact hok h
  | false => exact hwait h

theorem ends_failIf (c : Bool) (e : ε) (g : Unit → Prog σ ε α) :
    Ends (bind (failIf c e) g) Q s ↔ if c then Q (some (.error e)) s else Ends (g ()) Q s := by
  cases c <;> exact Iff.rfl

theorem ends_guard {c : Bool} {e : ε} (herr : c = true → Q (some (.error e)) s)
    (hok : c = false → Ends (g ()) Q s) : Ends (bind (failIf c e) g) Q s := by
  cases c with
  | true => exact herr rfl
  | false => exact hok rfl

theorem ends_ofExcept (x : Except ε β) (g : β → Prog σ ε α) :
    Ends (bind (ofExcept x) g) Q s ↔
      match x with
      | .ok b => Ends (g b) Q s
      | .error e => Q (some (.error e)) s := by
  cases x <;> exact Iff.rfl

/-- `Q` once the state has been changed by `f`, provided there is a return at all. -/
def OnReturn (f : σ → σ) (Q : Option (Except ε α) → σ → Prop) : Option (Except ε α) → σ → Prop
  | some r, s => Q (some r) (f s)
  | none, s => Q none s

@[simp] theorem onReturn_some (f : σ → σ) (r : Except ε α) :
    OnReturn f Q (some r) s ↔ Q (some r) (f s) := Iff.rfl

theorem ends_andFinally (p : Prog σ ε α) (f : σ → σ) :
    Ends (andFinally p f) Q s ↔ Ends p (OnReturn f Q) s := by
  rw [andFinally, ends_bind, Ends, run_attempt, Ends]
  rcases h : run p s with ⟨_ | _ | _, s'⟩ <;> exact Iff.rfl

/-- `Q` for the outcome as a value. -/
def OnAttempt (Q : Option (Except ε (Except ε β)) → σ → Prop) : Option (Except ε β) → σ → Prop
  | some r, s => Q (some (.ok r)) s
  | none, s => Q none s

theorem ends_attempt {Q : Option (Except ε (Except ε β)) → σ → Prop} (p : Prog σ ε β) :
    Ends (attempt p) Q s ↔ Ends p (OnAttempt Q) s := by
  rw [Ends, run_attempt, Ends]
  rcases h : run p s with ⟨_ | _ | _, s'⟩ <;> exact Iff.rfl

/-- `Q` once an error has been cleaned up after. -/
def OnError (cleanup : Prog σ ε Unit) (Q : Option (Except ε α) → σ → Prop) :
    Option (Except ε α) → σ → Prop
  | some (.ok a), s => Q (some (.ok a)) s
  | some (.error e), s => Ends (bind cleanup fun _ => fail e) Q s
  | none, s => Q none s

@[simp] theorem onError_ok (cleanup : Prog σ ε Unit) (a : α) :
    OnError cleanup Q (some (.ok a)) s ↔ Q (some (.ok a)) s := Iff.rfl

theorem ends_onFail (p : Prog σ ε α) (cleanup : Prog σ ε Unit) :
    Ends (onFail p cleanup) Q s ↔ Ends p (OnError cleanup Q) s := by
  rw [onFail, ends_bind, Ends, run_attempt, Ends]
  rcases h : run p s with ⟨_ | _ | _, s'⟩ <;> exact Iff.rfl

end Ends

/-- Run alone from any state, the program stops within `R` of it, and it comes to an end unless it
`may` hang. -/
def Within (may : Prop) (R : σ → σ → Prop) (p : Prog σ ε α) : Prop :=
  ∀ s, Ends p (fun r s' => (r = none → may) ∧ R s s') s

/-- The two states have the same `g`. -/
def Same {γ : Type} (g : σ → γ) (s s' : σ) : Prop := g s' = g s

instance {γ : Type} (g : σ → γ) : IsPreorder σ (Same g) where
  refl _ := rfl
  trans _ _ _ h h' := h'.trans h

section Within

variable {may : Prop} {R : σ → σ → Prop} {f : σ → σ} {p : Prog σ ε α}

theorem within_step {f : σ → β × σ} (hf : ∀ s, R s (f s).2) :
    Within may R (step f : Prog σ ε β) := fun s => ⟨nofun, hf s⟩

/-- What comes after such a program starts within `R`. -/
theorem Within.ends_bind {p : Prog σ ε β} {k : β → Prog σ ε α}
    {Q : Option (Except ε α) → σ → Prop} {s : σ} (hp : Within may R p)
    (hnone : may → ∀ s', R s s' → Q none s') (herror : ∀ e s', R s s' → Q (some (.error e)) s')
    (hk : ∀ b s', R s s' → Ends (k b) Q s') : Ends (bind p k) Q s := by
  rw [Prog.ends_bind]
  refine (hp s).mono fun r s' h => ?_
  rcases r with _ | e | b
  · exact hnone (h.1 rfl) s' h.2
  · exact herror e s' h.2
  · exact hk b s' h.2

theorem Within.attempt (hp : Within may R p) : Within may R (attempt p) := by
  intro s
  rw [ends_attempt]
  refine (hp s).mono fun r s' h => ?_
  cases r with
  | none => exact ⟨fun _ => h.1 rfl, h.2⟩
  | some r => exact ⟨nofun, h.2⟩

variable [IsPreorder σ R]

theorem within_ret (a : α) : Within may R (ret a : Prog σ ε α) := fun s => ⟨nofun, refl s⟩

theorem within_fail (e : ε) : Within may R (fail e : Prog σ ε α) := fun s => ⟨nofun, refl s⟩

theorem within_load (f : σ → β) : Within may R (load f : Prog σ ε β) := within_step refl

theorem within_await {p : σ → Bool} (hf : ∀ s, R s (f s)) :
    Within True R (await p f : Prog σ ε Unit) := by
  intro s
  rw [Ends, await, run]
  cases p s with
  | true => exact ⟨nofun, hf s⟩
  | false => exact ⟨fun _ => trivial, refl s⟩

theorem within_ofExcept (x : Except ε α) : Within may R (ofExcept x : Prog σ ε α) := by
  cases x with
  | error e => exact within_fail e
  | ok a => exact within_ret a

theorem within_ofOption (x : Option α) : Within True R (ofOption x : Prog σ ε α) := by
  cases x <;> exact fun s => ⟨fun _ => trivial, refl s⟩

theorem within_failIf (c : Bool) (e : ε) : Within may R (failIf c e : Prog σ ε Unit) := by
  cases c with
  | false => exact within_ret ()
  | true => exact within_fail e

theorem Within.bind {p : Prog σ ε β} {k : β → Prog σ ε α} (hp : Within may R p)
    (hk : ∀ b, Within may R (k b)) : Within may R (Prog.bind p k) :=
  fun s => hp.ends_bind (fun hmay _ h => ⟨fun _ => hmay, h⟩) (fun _ _ h => ⟨nofun, h⟩)
    fun b s' h => ⟨(hk b s').1, IsTrans.trans s s' _ h (hk b s').2⟩

theorem Within.andFinally (hp : Within may R p) (hf : ∀ s, R s (f s)) :
    Within may R (andFinally p f) := by
  intro s
  rw [ends_andFinally]
  refine (hp s).mono fun r s' h => ?_
  cases r with
  | none => exact h
  | some r => exact ⟨nofun, IsTrans.trans s s' _ h.2 (hf s')⟩

/-- A program on a part of the state leaves alone what does not depend on that part. -/
theorem within_embed {γ : Type} {g : τ → γ} {get : τ → σ} {set : σ → τ → τ} {err : ε → ε'}
    (hset : ∀ s t, g (set s t) = g t) (p : Prog σ ε α) :
    Within True (Same g) (embed get set err p) := by
  induction p with
  | ret a => exact within_ret a
  | fail e => exact within_fail _
  | act f k ih =>
    intro t
    rw [Ends, embed, run]
    cases h : f (get t) with
    | none => exact ⟨fun _ => trivial, rfl⟩
    | some r => exact ⟨fun _ => trivial, (ih r.1 _).2.trans (hset r.2 t)⟩

end Within

/-! ## Running a program in company

`rely` is what the others may do to the state between two of our actions. -/

variable {rely : σ → σ → Prop}

/-- `p`, started in the first state, has this outcome and leaves the last state. -/
inductive Exec (rely : σ → σ → Prop) : Prog σ ε α → σ → Except ε α → σ → Prop
  | ret (a : α) (s : σ) : Exec rely (ret a) s (.ok a) s
  | fail (e : ε) (s : σ) : Exec rely (fail e) s (.error e) s
  | act {β : Type} {f : σ → Option (β × σ)} {k : β → Prog σ ε α} {s s1 s2 s3 : σ} {b : β}
      {r : Except ε α} (henv : rely s s1) (hf : f s1 = some (b, s2))
      (hk : Exec rely (k b) s2 r s3) : Exec rely (act f k) s r s3

theorem exec_bind {r : Except ε β} (h : Exec rely (bind p g) s r s') :
    (∃ a s1, Exec rely p s (.ok a) s1 ∧ Exec rely (g a) s1 r s') ∨
      ∃ e, r = .error e ∧ Exec rely p s (.error e) s' := by
  induction p generalizing s with
  | ret a => exact .inl ⟨a, s, .ret a s, h⟩
  | fail e => cases h; exact .inr ⟨e, rfl, .fail e _⟩
  | act f k ih =>
    cases h with
    | act henv hf hk =>
      rcases ih _ hk with ⟨a, s1, hp, hg⟩ | ⟨e, rfl, hp⟩
      · exact .inl ⟨a, s1, .act henv hf hp, hg⟩
      · exact .inr ⟨e, rfl, .act henv hf hp⟩

theorem exec_attempt {r : Except ε (Except ε α)} (h : Exec rely (attempt p) s r s') :
    ∃ r', r = .ok r' ∧ Exec rely p s r' s' := by
  induction p generalizing s with
  | ret a => cases h; exact ⟨_, rfl, .ret a _⟩
  | fail e => cases h; exact ⟨_, rfl, .fail e _⟩
  | act f k ih =>
    cases h with
    | act henv hf hk =>
      obtain ⟨r', rfl, hp⟩ := ih _ hk
      exact ⟨r', rfl, .act henv hf hp⟩

theorem exec_update {f : σ → σ} {r : Except ε Unit} (h : Exec rely (update f) s r s') :
    r = .ok () ∧ ∃ s1, rely s s1 ∧ s' = f s1 := by
  cases h with
  | act henv hf hk =>
    cases hk
    cases hf
    exact ⟨rfl, _, henv, rfl⟩

variable {r : Except ε α}

theorem exec_andFinally {f : σ → σ} (h : Exec rely (andFinally p f) s r s') :
    ∃ s1 s2, Exec rely p s r s1 ∧ rely s1 s2 ∧ s' = f s2 := by
  rcases exec_bind h with ⟨r', s1, hp, h⟩ | ⟨e, rfl, hp⟩
  · obtain ⟨r', hr', hp⟩ := exec_attempt hp
    cases hr'
    rcases exec_bind h with ⟨_, s2, hu, h⟩ | ⟨e, rfl, hu⟩
    · obtain ⟨-, s3, henv, rfl⟩ := exec_update hu
      cases r' <;> (cases h; exact ⟨s1, s3, hp, henv, rfl⟩)
    · exact absurd (exec_update hu).1 (by simp)
  · obtain ⟨r', hr', -⟩ := exec_attempt hp
    exact absurd hr' (by simp)

/-- Running alone is an execution in which the others do nothing. -/
theorem exec_of_run (hrefl : ∀ s, rely s s) (h : run p s = (some r, s')) :
    Exec rely p s r s' := by
  induction p generalizing s with
  | ret a => cases h; exact .ret a _
  | fail e => cases h; exact .fail e _
  | act f k ih =>
    rw [run] at h
    cases hf : f s with
    | none => rw [hf] at h; cases h
    | some b => rw [hf] at h; exact .act (hrefl s) hf (ih b.1 h)

/-- The weakest precondition: `wp rely p Q s` says that `p`, started in `s`, is never blocked,
whatever the others do within `rely`, and ends in an outcome and a state that satisfy `Q`. -/
def wp (rely : σ → σ → Prop) : Prog σ ε α → (Except ε α → σ → Prop) → σ → Prop
  | ret a, Q, s => Q (.ok a) s
  | fail e, Q, s => Q (.error e) s
  | act f k, Q, s => ∀ s1, rely s s1 → ∃ b s2, f s1 = some (b, s2) ∧ wp rely (k b) Q s2

@[simp] theorem wp_ret (a : α) (Q : Except ε α → σ → Prop) (s : σ) :
    wp rely (ret a) Q s ↔ Q (.ok a) s := Iff.rfl

theorem wp_step (f : σ → β × σ) (Q : Except ε β → σ → Prop) (s : σ) :
    wp rely (step f) Q s ↔ ∀ s1, rely s s1 → Q (.ok (f s1).1) (f s1).2 := by
  refine forall₂_congr fun s1 _ => ⟨fun ⟨b, s2, hf, h⟩ => ?_, fun h => ⟨_, _, rfl, h⟩⟩
  obtain rfl : (f s1).1 = b := congrArg Prod.fst (some_inj.1 hf)
  obtain rfl : (f s1).2 = s2 := congrArg Prod.snd (some_inj.1 hf)
  exact h

theorem wp_load (f : σ → β) (Q : Except ε β → σ → Prop) (s : σ) :
    wp rely (load f) Q s ↔ ∀ s1, rely s s1 → Q (.ok (f s1)) s1 := wp_step _ _ _

theorem wp_update (f : σ → σ) (Q : Except ε Unit → σ → Prop) (s : σ) :
    wp rely (update f) Q s ↔ ∀ s1, rely s s1 → Q (.ok ()) (f s1) := wp_step _ _ _

theorem wp_await (p : σ → Bool) (f : σ → σ) (Q : Except ε Unit → σ → Prop) (s : σ) :
    wp rely (await p f) Q s ↔ ∀ s1, rely s s1 → p s1 = true ∧ Q (.ok ()) (f s1) := by
  refine forall₂_congr fun s1 _ => ⟨fun ⟨b, s2, hf, h⟩ => ?_, fun ⟨hp, h⟩ => ?_⟩
  · simp only [ite_none_right_eq_some, some_inj, Prod.mk.injEq] at hf
    exact ⟨hf.1, hf.2.2 ▸ h⟩
  · exact ⟨(), f s1, by simp [hp], h⟩

/-- **The rule of composition.** -/
theorem wp_bind (p : Prog σ ε α) (g : α → Prog σ ε β) (Q : Except ε β → σ → Prop) (s : σ) :
    wp rely (bind p g) Q s ↔
      wp rely p (fun r s' => match r with
        | .ok a => wp rely (g a) Q s'
        | .error e => Q (.error e) s') s := by
  induction p generalizing s with
  | ret a => exact Iff.rfl
  | fail e => exact Iff.rfl
  | act f k ih => simp only [bind, wp, ih]

theorem wp_attempt (p : Prog σ ε α) (Q : Except ε (Except ε α) → σ → Prop) (s : σ) :
    wp rely (attempt p) Q s ↔ wp rely p (fun r s' => Q (.ok r) s') s := by
  induction p generalizing s with
  | ret a => exact Iff.rfl
  | fail e => exact Iff.rfl
  | act f k ih => simp only [attempt, wp, ih]

theorem wp_map (g : α → β) (p : Prog σ ε α) (Q : Except ε β → σ → Prop) (s : σ) :
    wp rely (map g p) Q s ↔ wp rely p (fun r s' => Q (r.map g) s') s := by
  rw [map, wp_bind]
  refine Iff.of_eq (congrArg (fun R => wp rely p R s) ?_)
  funext r s'
  cases r <;> rfl

theorem wp_ofExcept (x : Except ε α) (Q : Except ε α → σ → Prop) (s : σ) :
    wp rely (ofExcept x) Q s ↔ Q x s := by
  cases x <;> exact Iff.rfl

theorem wp_failIf (c : Bool) (e : ε) (Q : Except ε Unit → σ → Prop) (s : σ) :
    wp rely (failIf c e) Q s ↔ if c then Q (.error e) s else Q (.ok ()) s := by
  cases c <;> exact Iff.rfl

theorem wp_onFail (p : Prog σ ε α) (cleanup : Prog σ ε Unit) (Q : Except ε α → σ → Prop) (s : σ) :
    wp rely (onFail p cleanup) Q s ↔
      wp rely p (fun r s' => match r with
        | .ok a => Q (.ok a) s'
        | .error e => wp rely (bind cleanup fun _ => fail e) Q s') s := by
  rw [onFail, wp_bind, wp_attempt]
  refine Iff.of_eq (congrArg (fun R => wp rely p R s) ?_)
  funext r s'
  cases r <;> rfl

/-- **The rule of consequence.** -/
theorem wp_mono {Q' : Except ε α → σ → Prop} (hQ : ∀ r s', Q r s' → Q' r s') (h : wp rely p Q s) :
    wp rely p Q' s := by
  induction p generalizing s with
  | ret a => exact hQ _ _ h
  | fail e => exact hQ _ _ h
  | act f k ih =>
    intro s1 hs1
    obtain ⟨b, s2, hf, hk⟩ := h s1 hs1
    exact ⟨b, s2, hf, ih b hk⟩

/-- **Soundness**: an execution ends where the weakest precondition says. -/
theorem wp_sound (h : Exec rely p s r s') (hw : wp rely p Q s) : Q r s' := by
  induction h with
  | ret a s => exact hw
  | fail e s => exact hw
  | act henv hf _ ih =>
    obtain ⟨b, s2, hf', hk⟩ := hw _ henv
    rw [hf, some_inj, Prod.mk.injEq] at hf'
    exact ih (hf'.1 ▸ hf'.2 ▸ hk)

/-- **Termination**: left alone, the program returns. -/
theorem wp_run (hrefl : ∀ s, rely s s) (hw : wp rely p Q s) :
    ∃ r s', run p s = (some r, s') ∧ Q r s' := by
  induction p generalizing s with
  | ret a => exact ⟨_, _, rfl, hw⟩
  | fail e => exact ⟨_, _, rfl, hw⟩
  | act f k ih =>
    obtain ⟨b, s2, hf, hk⟩ := hw s (hrefl s)
    obtain ⟨r, s', hr, hQ⟩ := ih b hk
    exact ⟨r, s', by rw [run, hf]; exact hr, hQ⟩

end Prog

end Krust
