import Mathlib.Data.List.Perm.Subperm

/-!
# Climbing to a root

A forest given by what is above each of its points, as a file system gives it by the parent field
of its inodes.  `Reaches up stop x n` says that climbing from `x` arrives at `stop` after `n`
steps, and `Above up stop a x` that the climb from `x` passes through `a`.  Nothing is said about
where `up` leads otherwise, so there may be loops; the point of the lemmas is that there are none
among the points that are `Rooted`.

`Rooted.update` is the fact a rename depends on: hanging `a` below `b` keeps everything rooted,
provided the climb from `b` does not pass through `a`.
-/

set_option autoImplicit false

namespace Krust

open List Function

variable {α : Type} {up up' : α → α} {stop : α}

/-- Climbing from this point arrives at `stop` after this many steps. -/
inductive Reaches (up : α → α) (stop : α) : α → Nat → Prop
  | stop : Reaches up stop stop 0
  | step {x : α} {n : Nat} (hx : x ≠ stop) (h : Reaches up stop (up x) n) :
      Reaches up stop x (n + 1)

/-- Climbing from this point arrives at `stop`. -/
def Rooted (up : α → α) (stop x : α) : Prop := ∃ n, Reaches up stop x n

/-- Climbing from this point passes through `a`; it does so at once from `a` itself. -/
inductive Above (up : α → α) (stop a : α) : α → Prop
  | here : Above up stop a a
  | step {x : α} (hx : x ≠ stop) (h : Above up stop a (up x)) : Above up stop a x

theorem rooted_stop : Rooted up stop stop := ⟨0, .stop⟩

theorem Rooted.step {x : α} (hx : x ≠ stop) (h : Rooted up stop (up x)) : Rooted up stop x := by
  obtain ⟨n, h⟩ := h
  exact ⟨n + 1, .step hx h⟩

variable {x : α} {n : Nat} {a : α}

theorem Reaches.unique {m : Nat} (hn : Reaches up stop x n) (hm : Reaches up stop x m) : n = m := by
  induction hn generalizing m with
  | stop =>
    cases hm with
    | stop => rfl
    | step hx _ => exact absurd rfl hx
  | step hx _ ih =>
    cases hm with
    | stop => exact absurd rfl hx
    | step _ hm => rw [ih hm]

theorem Above.reaches (h : Above up stop a x) (hn : Reaches up stop x n) :
    ∃ m, Reaches up stop a m ∧ m ≤ n := by
  induction h generalizing n with
  | here => exact ⟨n, hn, Nat.le_refl n⟩
  | step hx _ ih =>
    cases hn with
    | stop => exact absurd rfl hx
    | step _ hn =>
      obtain ⟨m, hm, hle⟩ := ih hn
      exact ⟨m, hm, Nat.le_succ_of_le hle⟩

variable {b : α}

theorem Above.trans (hab : Above up stop a b) (hbx : Above up stop b x) : Above up stop a x := by
  induction hbx with
  | here => exact hab
  | step hx _ ih => exact .step hx ih

/-- There are no loops below a root. -/
theorem Rooted.not_above_up (h : Rooted up stop x) (hx : x ≠ stop) : ¬ Above up stop x (up x) := by
  intro ha
  obtain ⟨n, h⟩ := h
  cases h with
  | stop => exact hx rfl
  | step _ h =>
    obtain ⟨m, hm, hle⟩ := ha.reaches h
    have := hm.unique (.step hx h)
    omega

theorem Reaches.congr (h : Reaches up stop x n)
    (hup : ∀ y, Above up stop y x → y ≠ stop → up' y = up y) : Reaches up' stop x n := by
  induction h with
  | stop => exact .stop
  | step hx _ ih =>
    refine .step hx ?_
    rw [hup _ .here hx]
    exact ih fun y hy => hup y (.step hx hy)

theorem Rooted.congr (h : Rooted up stop x)
    (hup : ∀ y, Above up stop y x → y ≠ stop → up' y = up y) :
    Rooted up' stop x := by
  obtain ⟨n, h⟩ := h
  exact ⟨n, h.congr hup⟩

theorem Above.congr (h : Above up' stop a x)
    (hup : ∀ y, Above up stop y x → y ≠ stop → up' y = up y) : Above up stop a x := by
  induction h with
  | here => exact .here
  | step hx _ ih =>
    rw [hup _ .here hx] at ih
    exact .step hx (ih fun y hy => hup y (.step hx hy))

/-- **Moving a point**: if the climb from `b` does not pass through `a`, then `a` can be hung below
`b`, and everything stays rooted. -/
theorem Rooted.update [DecidableEq α] (hb : Rooted up stop b) (hab : ¬ Above up stop a b)
    (hx : Rooted up stop x) : Rooted (Function.update up a b) stop x := by
  have hb' : Rooted (Function.update up a b) stop b := hb.congr fun y hy _ => by
    refine update_of_ne ?_ _ _
    rintro rfl
    exact hab hy
  obtain ⟨n, hx⟩ := hx
  induction hx with
  | stop => exact rooted_stop
  | @step x n hx _ ih =>
    refine .step hx ?_
    by_cases h : x = a
    · subst h
      rwa [update_self]
    · rwa [update_of_ne h]

/-- The points of a climb, all different. -/
theorem Reaches.points (h : Reaches up stop x n) :
    ∃ l : List α, l.length = n + 1 ∧ l.Nodup ∧ ∀ y ∈ l, Above up stop y x := by
  induction h with
  | stop => exact ⟨[stop], rfl, by simp, fun y hy => by rw [mem_singleton.1 hy]; exact .here⟩
  | @step x n hx h ih =>
    obtain ⟨l, hlen, hnodup, hl⟩ := ih
    refine ⟨x :: l, by rw [length_cons, hlen], nodup_cons.2 ⟨fun hxl => ?_, hnodup⟩, ?_⟩
    · exact Rooted.not_above_up ⟨n + 1, .step hx h⟩ hx (hl x hxl)
    intro y hy
    rcases mem_cons.1 hy with rfl | hy
    · exact .here
    · exact .step hx (hl y hy)

/-- A climb is shorter than any list that has all of its points. -/
theorem Reaches.lt_length (h : Reaches up stop x n) {l : List α}
    (hl : ∀ y, Above up stop y x → y ∈ l) : n < l.length := by
  obtain ⟨p, hlen, hnodup, hp⟩ := h.points
  have hle : p.length ≤ l.length :=
    (subperm_of_subset hnodup fun y hy => hl y (hp y hy)).length_le
  omega

end Krust
