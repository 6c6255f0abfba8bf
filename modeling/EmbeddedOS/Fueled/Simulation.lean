import EmbeddedOS.Fueled.Comp

/-! Two computations side by side: as the one ends, so does the other, up to a relation
between their values. Neither has to end. -/
namespace Fueled

inductive Outcome.Related {α β : Type} (R : α → β → Prop) : Outcome α → Outcome β → Prop where
  | ok {a : α} {b : β} (values : R a b) : Related R (.ok a) (.ok b)
  | panic : Related R .panic .panic
  | wild (place : Nat) : Related R (.wild place) (.wild place)

namespace Comp

variable {α β γ δ : Type} {R : α → β → Prop} {S : γ → δ → Prop}

def Simulates (R : α → β → Prop) (x : Comp α) (y : Comp β) : Prop :=
  ∀ r, x.Returns r → ∃ r', y.Returns r' ∧ r.Related R r'

/-- They end in the same way, up to the relation. -/
def Agrees (R : α → β → Prop) (x : Comp α) (y : Comp β) : Prop :=
  Simulates R x y ∧ Simulates (fun b a => R a b) y x

/-- They end in the same way, and never by an access outside of an object. -/
structure Alike (R : α → β → Prop) (x : Comp α) (y : Comp β) : Prop where
  agrees : Agrees R x y
  tame : ∀ i, ¬ x.Returns (.wild i)

section Rules

theorem simulates_of_related {x : Comp α} {y : Comp β} {r : Outcome α} {r' : Outcome β}
    (one : x.Returns r) (other : y.Returns r') (related : r.Related R r') : Simulates R x y := by
  intro o returns
  rw [returns_unique returns one]
  exact ⟨r', other, related⟩

theorem simulates_pure {a : α} {b : β} (values : R a b) : Simulates R (pure a) (pure b) :=
  simulates_of_related (returns_pure.mpr rfl) (returns_pure.mpr rfl) (.ok values)

theorem simulates_panic : Simulates R panic panic :=
  simulates_of_related (returns_panic.mpr rfl) (returns_panic.mpr rfl) .panic

theorem simulates_wild (place : Nat) : Simulates R (wild place) (wild place) :=
  simulates_of_related (returns_wild.mpr rfl) (returns_wild.mpr rfl) (.wild place)

theorem simulates_self (x : Comp α) : Simulates Eq x x := by
  intro r returns
  refine ⟨r, returns, ?_⟩
  cases r with
  | ok a => exact .ok rfl
  | panic => exact .panic
  | wild i => exact .wild i

theorem Simulates.mono {R' : α → β → Prop} {x : Comp α} {y : Comp β} (simulates : Simulates R x y)
    (weaker : ∀ a b, R a b → R' a b) : Simulates R' x y := by
  intro r returns
  obtain ⟨r', returns', related⟩ := simulates r returns
  refine ⟨r', returns', ?_⟩
  cases related with
  | ok values => exact .ok (weaker _ _ values)
  | panic => exact .panic
  | wild i => exact .wild i

/-- The rule of composition: the second parts need to be related only behind values
that the first parts can come with. -/
theorem Simulates.bind {x : Comp α} {y : Comp β} {k : α → Comp γ} {l : β → Comp δ}
    (first : Simulates R x y)
    (rest : ∀ a b, x.Returns (.ok a) → y.Returns (.ok b) → R a b → Simulates S (k a) (l b)) :
    Simulates S (x >>= k) (y >>= l) := by
  intro r returns
  obtain ⟨o, returned, later⟩ := returns_bind.mp returns
  obtain ⟨o', returned', related⟩ := first o returned
  cases related with
  | @ok a b values =>
    obtain ⟨r', later', related⟩ := rest a b returned returned' values r later
    exact ⟨r', (bind_ok returned' l r').mpr later', related⟩
  | panic =>
    rw [returns_panic.mp later]
    exact ⟨.panic, bind_panic returned' l, .panic⟩
  | wild i =>
    rw [returns_wild.mp later]
    exact ⟨.wild i, bind_wild returned' l, .wild i⟩

/-- The rule of the loop: an invariant between the two states that every pair of rounds
keeps. -/
theorem simulates_loop {I : α → β → Prop} {body : α → Comp (α ⊕ γ)} {body' : β → Comp (β ⊕ δ)}
    (round : ∀ a b, I a b → Simulates (Sum.LiftRel I S) (body a) (body' b)) {a : α} {b : β}
    (start : I a b) : Simulates S (loop body a) (loop body' b) := by
  intro r ends
  refine loop_induction (P := fun a => ∀ b, I a b →
    ∃ r', (loop body' b).Returns r' ∧ r.Related S r') ?_ ?_ ends b start
  · intro a stops returns b start
    obtain ⟨o, first, rest⟩ := returns_bind.mp returns
    obtain ⟨o', first', related⟩ := round a b start o first
    cases related with
    | ok values =>
      cases values with
      | inl _ => exact (stops _ first).elim
      | @inr c d values =>
        cases returns_pure.mp rest
        exact ⟨.ok d, returns_loop.mpr ((bind_ok first' _ _).mpr (returns_pure.mpr rfl)),
          .ok values⟩
    | panic =>
      rw [returns_panic.mp rest]
      exact ⟨.panic, returns_loop.mpr (bind_panic first' _), .panic⟩
    | wild i =>
      rw [returns_wild.mp rest]
      exact ⟨.wild i, returns_loop.mpr (bind_wild first' _), .wild i⟩
  · intro a a' first _ ih b start
    obtain ⟨o', first', related⟩ := round a b start _ first
    cases related with
    | ok values =>
      cases values with
      | @inl _ b' keeps =>
        obtain ⟨r', ends', related⟩ := ih b' keeps
        exact ⟨r', returns_loop.mpr ((bind_ok first' _ _).mpr ends'), related⟩

theorem Agrees.ok {x : Comp α} {y : Comp β} (agrees : Agrees R x y) {a : α} {b : β}
    (one : x.Returns (.ok a)) (other : y.Returns (.ok b)) : R a b := by
  obtain ⟨r', returns, related⟩ := agrees.1 _ one
  cases related with
  | ok values =>
    cases returns_unique returns other
    exact values

theorem Simulates.wild {x : Comp α} {y : Comp β} (simulates : Simulates R x y) {i : Nat}
    (astray : x.Returns (.wild i)) : y.Returns (.wild i) := by
  obtain ⟨r', returns, related⟩ := simulates _ astray
  cases related
  exact returns

theorem alike_panic : Alike R panic panic :=
  ⟨⟨simulates_panic, simulates_panic⟩, fun _ astray => by cases returns_panic.mp astray⟩

theorem Alike.symm {x : Comp α} {y : Comp β} (alike : Alike R x y) :
    Alike (fun b a => R a b) y x where
  agrees := ⟨alike.agrees.2, alike.agrees.1⟩
  tame i astray := alike.tame i (alike.agrees.2.wild astray)

end Rules

end Comp

end Fueled
