import Mathlib.Data.List.Basic

/-! One program over two monads: what relates their single operations relates the whole runs. -/
namespace Steps

/-- A relation between the computations of two monads that sequencing keeps. -/
structure Related (m n : Type → Type) [Monad m] [Monad n] where
  rel : ∀ {α : Type}, m α → n α → Prop
  pure_rel : ∀ {α : Type} (a : α), rel (pure a) (pure a)
  bind_rel : ∀ {α β : Type} {p : m α} {q : n α} {f : α → m β} {g : α → n β}, rel p q →
    (∀ a, rel (f a) (g a)) → rel (p >>= f) (q >>= g)

namespace Related

variable {m n : Type → Type} [Monad m] [Monad n] (R : Related m n)

theorem forM_rel {α : Type} {f : α → m Unit} {g : α → n Unit} (each : ∀ a, R.rel (f a) (g a))
    (as : List α) : R.rel (as.forM f) (as.forM g) := by
  induction as with
  | nil => exact R.pure_rel ()
  | cons a as ih => exact R.bind_rel (each a) fun _ => ih

theorem ite_rel {α : Type} {c : Prop} [Decidable c] {p p' : m α} {q q' : n α} (yes : R.rel p q)
    (no : R.rel p' q') : R.rel (if c then p else p') (if c then q else q') := by
  by_cases holds : c
  · rw [if_pos holds, if_pos holds]
    exact yes
  · rw [if_neg holds, if_neg holds]
    exact no

end Related

end Steps
