import Mathlib.Data.List.Nodup

/-!
# Chains in a table

A table says for each of its places which place follows, or that none does.  `Chain next a l` says
that following the table from `a` comes to an end, and passes through the places `l`.  A chain never
returns to a place (`Chain.nodup`), depends only on the places it passes through (`Chain.congr`),
and a new place can be put at its end (`Chain.concat`).
-/

set_option autoImplicit false

namespace Krust.Lib

open List Option

variable {α : Type} {next next' : α → Option α}

/-- Following the table from a place passes through these places and comes to an end. -/
inductive Chain (next : α → Option α) : α → List α → Prop
  | last {a : α} (h : next a = none) : Chain next a [a]
  | step {a b : α} {l : List α} (h : next a = some b) (hl : Chain next b l) : Chain next a (a :: l)

namespace Chain

variable {a b : α} {l l' : List α}

variable (h : Chain next a l)
include h

theorem ne_nil : l ≠ [] := by
  cases h <;> exact cons_ne_nil _ _

theorem unique (h' : Chain next a l') : l = l' := by
  induction h generalizing l' with
  | last hnone =>
    cases h' with
    | last => rfl
    | step hsome => cases hnone.symm.trans hsome
  | step hsome _ ih =>
    cases h' with
    | last hnone => cases hnone.symm.trans hsome
    | step hsome' hl' =>
      cases hsome.symm.trans hsome'
      rw [ih hl']

/-- From each of its places a chain goes on in the same way. -/
theorem suffix_of_mem (hb : b ∈ l) : ∃ l', Chain next b l' ∧ l' <:+ l := by
  induction h with
  | last hnone =>
    rw [mem_singleton] at hb
    subst hb
    exact ⟨_, .last hnone, suffix_refl _⟩
  | step hsome hl ih =>
    rcases mem_cons.1 hb with rfl | hb
    · exact ⟨_, .step hsome hl, suffix_refl _⟩
    · obtain ⟨l', hl', hsuffix⟩ := ih hb
      exact ⟨l', hl', hsuffix.trans (suffix_cons _ _)⟩

/-- **A chain does not return to a place.** -/
theorem nodup : l.Nodup := by
  induction h with
  | last => exact nodup_singleton _
  | @step a b l hsome hl ih =>
    refine nodup_cons.2 ⟨fun ha => ?_, ih⟩
    -- Otherwise the chain from `a` would be a part of its own rest.
    obtain ⟨l', hl', hsuffix⟩ := hl.suffix_of_mem ha
    rw [hl'.unique (.step hsome hl)] at hsuffix
    have hlen := hsuffix.length_le
    rw [length_cons] at hlen
    omega

theorem congr (hnext : ∀ x ∈ l, next' x = next x) : Chain next' a l := by
  induction h with
  | last hnone => exact .last ((hnext _ mem_cons_self).trans hnone)
  | step hsome _ ih =>
    exact .step ((hnext _ mem_cons_self).trans hsome)
      (ih (forall_mem_cons.1 hnext).2)

theorem concat {c : α} (hlast : ∀ z ∈ l.getLast?, next' z = some c) (hc : next' c = none)
    (hnext : ∀ x ∈ l, x ∉ l.getLast? → next' x = next x) : Chain next' a (l ++ [c]) := by
  induction h with
  | @last a hnone => exact .step (hlast a rfl) (.last hc)
  | @step a b l hsome hl ih =>
    have hgetLast : (a :: l).getLast? = l.getLast? := by
      rw [getLast?_cons, getLast?_eq_some_getLast hl.ne_nil, getD_some]
    rw [hgetLast] at hlast hnext
    have ha : a ∉ l.getLast? := fun hlast' =>
      (nodup_cons.1 (step hsome hl).nodup).1 (mem_of_getLast? hlast')
    refine .step ((hnext a mem_cons_self ha).trans hsome) (ih hlast fun x hx => ?_)
    exact hnext x (mem_cons_of_mem _ hx)

end Chain

end Krust.Lib
