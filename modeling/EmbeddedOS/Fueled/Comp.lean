import Mathlib.Data.List.Basic

/-! Computations that may fail to come to an end, by fuel.
An outcome is a value, a panic, or an access outside of the object it is meant
for. More fuel never changes an outcome. -/
namespace Fueled

inductive Outcome (α : Type) where
  | ok (a : α)
  | panic
  | wild (place : Nat)
deriving DecidableEq, Repr

namespace Outcome

variable {α β : Type}

def bind : Outcome α → (α → Option (Outcome β)) → Option (Outcome β)
  | .ok a, k => k a
  | .panic, _ => some .panic
  | .wild i, _ => some (.wild i)

def map (f : α → β) : Outcome α → Outcome β
  | .ok a => .ok (f a)
  | .panic => .panic
  | .wild i => .wild i

end Outcome

structure Comp (α : Type) where
  run : Nat → Option (Outcome α)
  stable : ∀ {n m : Nat} {r : Outcome α}, n ≤ m → run n = some r → run m = some r

namespace Comp

variable {α β γ : Type}

def now (r : Outcome α) : Comp α := ⟨fun _ => some r, fun _ h => h⟩

def panic : Comp α := now .panic
def wild (place : Nat) : Comp α := now (.wild place)

theorem bind_stable (x : Comp α) (k : α → Comp β) {n m : Nat} {r : Outcome β} (le : n ≤ m)
    (ends : ((x.run n).bind fun o => o.bind fun a => (k a).run n) = some r) :
    ((x.run m).bind fun o => o.bind fun a => (k a).run m) = some r := by
  obtain ⟨o, first, rest⟩ := Option.bind_eq_some_iff.mp ends
  rw [x.stable le first]
  cases o with
  | ok a => exact (k a).stable le rest
  | panic => exact rest
  | wild i => exact rest

instance : Monad Comp where
  pure a := now (.ok a)
  bind x k := ⟨fun n => (x.run n).bind fun o => o.bind fun a => (k a).run n, bind_stable x k⟩

def assert (c : Bool) : Comp Unit := if c then pure () else panic

def rounds (body : β → Comp (β ⊕ α)) (n : Nat) : Nat → β → Option (Outcome α)
  | 0, _ => none
  | k + 1, b => ((body b).run n).bind fun o => o.bind fun
    | .inl b' => rounds body n k b'
    | .inr a => some (.ok a)

theorem rounds_stable (body : β → Comp (β ⊕ α)) {n m j k : Nat} (le : n ≤ m) (le' : j ≤ k)
    {b : β} {r : Outcome α} (ends : rounds body n j b = some r) :
    rounds body m k b = some r := by
  induction j generalizing k b with
  | zero => cases ends
  | succ j ih =>
    obtain ⟨k, rfl⟩ := Nat.exists_eq_add_of_le' (Nat.le_trans (Nat.succ_pos j) le')
    obtain ⟨o, first, rest⟩ := Option.bind_eq_some_iff.mp ends
    rw [rounds, (body b).stable le first]
    cases o with
    | ok s =>
      cases s with
      | inl b' => exact ih (Nat.le_of_succ_le_succ le') rest
      | inr a => exact rest
    | panic => exact rest
    | wild i => exact rest

/-- Run the body on and on, until it comes with a result. -/
def loop (body : β → Comp (β ⊕ α)) (b : β) : Comp α :=
  ⟨fun n => rounds body n n b, fun le ends => rounds_stable body le le ends⟩

def Returns (x : Comp α) (r : Outcome α) : Prop := ∃ n, x.run n = some r

section Laws

@[ext] theorem ext {x y : Comp α} (same : ∀ n, x.run n = y.run n) : x = y := by
  cases x
  cases y
  congr
  funext n
  exact same n

@[simp] theorem pure_bind (a : α) (k : α → Comp β) : (pure a : Comp α) >>= k = k a := rfl

@[simp] theorem panic_bind (k : α → Comp β) : (panic : Comp α) >>= k = panic := rfl

@[simp] theorem wild_bind (i : Nat) (k : α → Comp β) : (wild i : Comp α) >>= k = wild i := rfl

theorem bind_assoc (x : Comp α) (k : α → Comp β) (l : β → Comp γ) :
    x >>= k >>= l = x >>= fun a => k a >>= l := by
  refine ext fun n => ?_
  change ((x.run n).bind fun o => o.bind fun a => (k a).run n).bind _ =
    (x.run n).bind fun o => o.bind fun a => ((k a).run n).bind _
  cases x.run n with
  | none => rfl
  | some o => cases o <;> rfl

theorem bind_pure (x : Comp α) : x >>= pure = x := by
  refine ext fun n => ?_
  change ((x.run n).bind fun o => o.bind fun a => some (.ok a)) = x.run n
  cases x.run n with
  | none => rfl
  | some o => cases o <;> rfl

@[simp] theorem assert_true : assert true = pure () := rfl

@[simp] theorem assert_false : assert false = panic := rfl

end Laws

section Rules

theorem returns_unique {x : Comp α} {r r' : Outcome α} (h : x.Returns r) (h' : x.Returns r') :
    r = r' := by
  obtain ⟨n, hn⟩ := h
  obtain ⟨m, hm⟩ := h'
  have one := x.stable (Nat.le_max_left n m) hn
  have other := x.stable (Nat.le_max_right n m) hm
  exact Option.some.inj (one.symm.trans other)

@[simp] theorem returns_now {r r' : Outcome α} : (now r).Returns r' ↔ r' = r := by
  constructor
  · rintro ⟨_, h⟩
    exact (Option.some.inj h).symm
  · rintro rfl
    exact ⟨0, rfl⟩

@[simp] theorem returns_pure {a : α} {r : Outcome α} :
    (pure a : Comp α).Returns r ↔ r = .ok a := returns_now

@[simp] theorem returns_panic {r : Outcome α} : (panic : Comp α).Returns r ↔ r = .panic :=
  returns_now

@[simp] theorem returns_wild {i : Nat} {r : Outcome α} :
    (wild i : Comp α).Returns r ↔ r = .wild i := returns_now

/-- What follows on an outcome of the first part. -/
def after (k : α → Comp β) : Outcome α → Comp β
  | .ok a => k a
  | .panic => panic
  | .wild i => wild i

theorem returns_bind {x : Comp α} {k : α → Comp β} {r : Outcome β} :
    (x >>= k).Returns r ↔ ∃ o, x.Returns o ∧ (after k o).Returns r := by
  constructor
  · rintro ⟨n, ends⟩
    obtain ⟨o, first, rest⟩ := Option.bind_eq_some_iff.mp ends
    refine ⟨o, ⟨n, first⟩, n, ?_⟩
    cases o <;> exact rest
  · rintro ⟨o, ⟨n, first⟩, m, rest⟩
    refine ⟨max n m, Option.bind_eq_some_iff.mpr
      ⟨o, x.stable (Nat.le_max_left n m) first, ?_⟩⟩
    have later := (after k o).stable (Nat.le_max_right n m) rest
    cases o <;> exact later

theorem bind_ok {x : Comp α} {a : α} (first : x.Returns (.ok a)) (k : α → Comp β)
    (r : Outcome β) : (x >>= k).Returns r ↔ (k a).Returns r := by
  rw [returns_bind]
  constructor
  · rintro ⟨o, h, rest⟩
    rw [returns_unique h first] at rest
    exact rest
  · exact fun rest => ⟨.ok a, first, rest⟩

theorem bind_returns_ok {x : Comp α} {k : α → Comp β} {b : β} :
    (x >>= k).Returns (.ok b) ↔ ∃ a, x.Returns (.ok a) ∧ (k a).Returns (.ok b) := by
  rw [returns_bind]
  constructor
  · rintro ⟨o, first, rest⟩
    cases o with
    | ok a => exact ⟨a, first, rest⟩
    | panic => cases returns_panic.mp rest
    | wild i => cases returns_wild.mp rest
  · rintro ⟨a, first, rest⟩
    exact ⟨.ok a, first, rest⟩

theorem bind_returns_wild {x : Comp α} {k : α → Comp β} {i : Nat} :
    (x >>= k).Returns (.wild i) ↔
      x.Returns (.wild i) ∨ ∃ a, x.Returns (.ok a) ∧ (k a).Returns (.wild i) := by
  rw [returns_bind]
  constructor
  · rintro ⟨o, first, rest⟩
    cases o with
    | ok a => exact .inr ⟨a, first, rest⟩
    | panic => cases returns_panic.mp rest
    | wild j =>
      cases returns_wild.mp rest
      exact .inl first
  · rintro (first | ⟨a, first, rest⟩)
    · exact ⟨.wild i, first, returns_wild.mpr rfl⟩
    · exact ⟨.ok a, first, rest⟩

theorem bind_wild {x : Comp α} {i : Nat} (first : x.Returns (.wild i)) (k : α → Comp β) :
    (x >>= k).Returns (.wild i) :=
  returns_bind.mpr ⟨.wild i, first, returns_wild.mpr rfl⟩

theorem bind_panic {x : Comp α} (first : x.Returns .panic) (k : α → Comp β) :
    (x >>= k).Returns .panic :=
  returns_bind.mpr ⟨.panic, first, returns_panic.mpr rfl⟩

def back (body : β → Comp (β ⊕ α)) : β ⊕ α → Comp α
  | .inl b => loop body b
  | .inr a => pure a

theorem rounds_succ {body : β → Comp (β ⊕ α)} {n k : Nat} {b : β} {r : Outcome α}
    (ends : rounds body n (k + 1) b = some r) : (body b >>= back body).Returns r := by
  obtain ⟨o, first, rest⟩ := Option.bind_eq_some_iff.mp ends
  refine returns_bind.mpr ⟨o, ⟨n, first⟩, ?_⟩
  cases o with
  | ok s =>
    cases s with
    | inl b' =>
      exact ⟨max n k, rounds_stable body (Nat.le_max_left n k) (Nat.le_max_right n k) rest⟩
    | inr a => exact returns_pure.mpr (Option.some.inj rest).symm
  | panic => exact returns_panic.mpr (Option.some.inj rest).symm
  | wild i => exact returns_wild.mpr (Option.some.inj rest).symm

/-- The rule of the loop: it is its first round and then what that asks for. -/
theorem returns_loop {body : β → Comp (β ⊕ α)} {b : β} {r : Outcome α} :
    (loop body b).Returns r ↔ (body b >>= back body).Returns r := by
  constructor
  · rintro ⟨n, ends⟩
    cases n with
    | zero => cases ends
    | succ n => exact rounds_succ ends
  · intro first
    obtain ⟨o, ⟨n, h⟩, m, rest⟩ := returns_bind.mp first
    refine ⟨max n m + 1, ?_⟩
    have more : (body b).run (max n m + 1) = some o :=
      (body b).stable (Nat.le_succ_of_le (Nat.le_max_left n m)) h
    change rounds body (max n m + 1) (max n m + 1) b = some r
    rw [rounds, more]
    cases o with
    | ok s =>
      cases s with
      | inl b' =>
        exact rounds_stable body (Nat.le_succ_of_le (Nat.le_max_right n m))
          (Nat.le_max_right n m) rest
      | inr a => exact rest
    | panic => exact rest
    | wild i => exact rest

/-- Induction over the rounds of a loop that ends. -/
theorem loop_induction {body : β → Comp (β ⊕ α)} {r : Outcome α} {P : β → Prop}
    (last : ∀ b, (∀ b', ¬ (body b).Returns (.ok (.inl b'))) → (body b >>= back body).Returns r → P b)
    (again : ∀ b b', (body b).Returns (.ok (.inl b')) → (loop body b').Returns r → P b' → P b)
    {b : β} (ends : (loop body b).Returns r) : P b := by
  obtain ⟨n, run⟩ := ends
  have all : ∀ k b, rounds body n k b = some r → P b := by
    intro k
    induction k with
    | zero => intro b h; cases h
    | succ k ih =>
      intro b h
      by_cases more : ∃ b', (body b).Returns (.ok (.inl b'))
      · obtain ⟨b', step⟩ := more
        obtain ⟨o, first, rest⟩ := Option.bind_eq_some_iff.mp h
        have same := returns_unique ⟨n, first⟩ step
        subst same
        exact again b b' step ⟨max n k, rounds_stable body (Nat.le_max_left n k)
          (Nat.le_max_right n k) rest⟩ (ih b' rest)
      · exact last b (fun b' step => more ⟨b', step⟩) (rounds_succ h)
  exact all n b run

end Rules

end Comp

end Fueled
