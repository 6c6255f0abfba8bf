import Mathlib.Data.Nat.Basic
import Mathlib.Logic.Function.Basic

/-! Sequences in which each value is made of two earlier ones, and the table that holds the last of them:
a new value replaces the oldest one, at a place that goes round. -/
namespace Lagged

variable {α : Type} [Add α] {deg sep : Nat} {start : Nat → α}

/-- Each value is the sum of those deg and sep places before it. -/
def sequence (deg sep : Nat) (start : Nat → α) (n : Nat) : α :=
  if _ : n < deg ∨ sep = 0 ∨ deg = 0 then start n
  else sequence deg sep start (n - deg) + sequence deg sep start (n - sep)
termination_by n
decreasing_by all_goals omega

theorem sequence_start {n : Nat} (short : n < deg) : sequence deg sep start n = start n := by
  rw [sequence, dif_pos (.inl short)]

theorem sequence_next (some_sep : 0 < sep) (inside : sep < deg) (n : Nat) :
    sequence deg sep start (n + deg) =
      sequence deg sep start n + sequence deg sep start (n + (deg - sep)) := by
  have long : ¬ (n + deg < deg ∨ sep = 0 ∨ deg = 0) := by omega
  have lag : n + deg - sep = n + (deg - sep) := by omega
  rw [sequence, dif_neg long, Nat.add_sub_cancel, lag]

/-- From the place of the oldest value on, the table has the values from the n-th on. -/
def Turned (deg sep : Nat) (start : Nat → α) (table : Nat → α) (n : Nat) : Prop :=
  ∀ i < deg, table ((n + sep + i) % deg) = sequence deg sep start (n + i)

theorem turned_start {table : Nat → α} (begins : ∀ i < deg, table ((sep + i) % deg) = start i) :
    Turned deg sep start table 0 := by
  intro i inside
  rw [Nat.zero_add, Nat.zero_add, begins i inside, sequence_start inside]

section Step

variable {table : Nat → α} {n : Nat}

theorem Turned.front (turned : Turned deg sep start table n) (some_deg : 0 < deg) :
    table ((n + sep) % deg) = sequence deg sep start n := by
  have first := turned 0 some_deg
  rwa [Nat.add_zero, Nat.add_zero] at first

theorem Turned.rear (turned : Turned deg sep start table n) (some_sep : 0 < sep) (inside : sep < deg) :
    table (n % deg) = sequence deg sep start (n + (deg - sep)) := by
  have there := turned (deg - sep) (Nat.sub_lt (Nat.zero_lt_of_lt inside) some_sep)
  have round : n + sep + (deg - sep) = n + deg := by omega
  rwa [round, Nat.add_mod_right] at there

theorem Turned.next (turned : Turned deg sep start table n) (some_sep : 0 < sep) (inside : sep < deg) :
    Turned deg sep start
      (Function.update table ((n + sep) % deg) (table ((n + sep) % deg) + table (n % deg))) (n + 1) := by
  have some_deg : 0 < deg := Nat.zero_lt_of_lt inside
  intro i below
  have place : n + 1 + sep + i = n + sep + (i + 1) := by omega
  rw [place]
  by_cases last : i + 1 = deg
  · have value : n + 1 + i = n + deg := by omega
    rw [last, Nat.add_mod_right, Function.update_self, turned.front some_deg,
      turned.rear some_sep inside, value, sequence_next some_sep inside]
  · have later : i + 1 < deg := by omega
    have apart : (n + sep + (i + 1)) % deg ≠ (n + sep) % deg := by
      intro same
      have none := Nat.sub_mod_eq_zero_of_mod_eq same
      rw [Nat.add_sub_cancel_left, Nat.mod_eq_of_lt later] at none
      exact Nat.succ_ne_zero i none
    have value : n + 1 + i = n + (i + 1) := by omega
    rw [Function.update_of_ne apart, turned (i + 1) later, value]

end Step

end Lagged
