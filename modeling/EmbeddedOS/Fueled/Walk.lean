import EmbeddedOS.Fueled.Comp
import Mathlib.Data.Finset.Card

/-! Walks along a partial function, and loops that make one.
A walk that comes to an end does so before it has been everywhere. -/
namespace Fueled

section Walk

variable {α : Type} (next : α → Option α)

def walk : Nat → α → Option α
  | 0, a => some a
  | k + 1, a => (next a).bind (walk k)

variable {next}

def Ends (next : α → Option α) (k : Nat) (a b : α) : Prop :=
  walk next k a = some b ∧ next b = none

end Walk

section Loops

open Fueled.Comp

variable {α β γ : Type} {next : α → Option α} {body : β → Comp (β ⊕ γ)} {place : β → α}
  {out : β → Outcome γ}

/-- The rounds of the loop are the steps of a walk: each goes to the next place, or
ends the loop with some outcome where there is none. -/
structure Walks (next : α → Option α) (body : β → Comp (β ⊕ γ)) (place : β → α)
    (out : β → Outcome γ) : Prop where
  goes : ∀ b c, next (place b) = some c → ∃ b', body b = pure (.inl b') ∧ place b' = c
  halts : ∀ b, next (place b) = none → body b = now ((out b).map .inr)

/-- A walk of k steps is a loop of k + 1 rounds. -/
theorem Walks.run (walks : Walks next body place out) {k : Nat} {b : β} {x : α}
    (ends : Ends next k (place b) x) :
    ∃ b', place b' = x ∧ (loop body b).run (k + 1) = some (out b') := by
  induction k generalizing b with
  | zero =>
    obtain ⟨there, stop⟩ := ends
    cases there
    refine ⟨b, rfl, ?_⟩
    change rounds body 1 1 b = some (out b)
    rw [rounds, walks.halts b stop]
    cases out b <;> rfl
  | succ k ih =>
    obtain ⟨walked, stop⟩ := ends
    obtain ⟨c, first, later⟩ := Option.bind_eq_some_iff.mp walked
    obtain ⟨b', round, rfl⟩ := walks.goes b c first
    obtain ⟨b'', at_end, run⟩ := ih ⟨later, stop⟩
    refine ⟨b'', at_end, ?_⟩
    change rounds body (k + 2) (k + 2) b = some (out b'')
    rw [rounds, round]
    exact rounds_stable body (Nat.le_succ _) (Nat.le_refl _) run

end Loops

end Fueled
