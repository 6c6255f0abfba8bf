import EmbeddedOS.Mmio.Driver
import Mathlib.Logic.Relation

/-! Programs that call drivers of one device, change a memory of their own and loop without a bound. -/
namespace Mmio

inductive Program (ρ υ μ : Type) : Type → Type 1 where
  | ret {α : Type} (a : α) : Program ρ υ μ α
  | bind {α β : Type} (p : Program ρ υ μ β) (k : β → Program ρ υ μ α) : Program ρ υ μ α
  | call {α : Type} (c : Driver ρ υ α) : Program ρ υ μ α
  | memory {α : Type} (f : μ → α × μ) : Program ρ υ μ α
  | iter {α β : Type} (body : β → Program ρ υ μ (β ⊕ α)) (b : β) : Program ρ υ μ α
  | halt {α : Type} : Program ρ υ μ α

structure Machine (ρ υ μ σ α : Type) where
  code : Program ρ υ μ α
  mem : μ
  dev : σ

namespace Program

variable {ρ υ μ σ ε α β : Type}

instance : Monad (Program ρ υ μ) where
  pure := Program.ret
  bind := Program.bind

def loopBack (body : β → Program ρ υ μ (β ⊕ α)) : β ⊕ α → Program ρ υ μ α
  | .inl b => .iter body b
  | .inr a => .ret a

def fire (d : Device ρ υ σ ε) {α : Type} : Program ρ υ μ α → μ → σ → Option (Machine ρ υ μ σ α)
  | .ret _, _, _ => none
  | .halt, _, _ => none
  | .call c, m, s =>
    match c with
    | .ret a => some ⟨.ret a, m, s⟩
    | c@(.load ..) | c@(.store ..) | c@(.poll ..) =>
      (step d ⟨c, s⟩ .cpu).map fun c' => ⟨.call c'.code, m, c'.dev⟩
  | .memory f, m, s => some ⟨.ret (f m).1, (f m).2, s⟩
  | .iter body b, m, s => some ⟨.bind (body b) (loopBack body), m, s⟩
  | .bind p k, m, s =>
    match fire d p m s with
    | some n => some ⟨.bind n.code k, n.mem, n.dev⟩
    | none =>
      match p with
      | .ret b => some ⟨k b, m, s⟩
      | .halt => some ⟨.halt, m, s⟩
      | _ => none

/-- All a step of the processor can do, one rule for each kind. -/
inductive Fires (d : Device ρ υ σ ε) : {α : Type} → Program ρ υ μ α → μ → σ → Machine ρ υ μ σ α → Prop where
  | returns {α : Type} (a : α) (m : μ) (s : σ) : Fires d (.call (.ret a)) m s ⟨.ret a, m, s⟩
  | call {α : Type} {c : Driver ρ υ α} {s : σ} {c' : Config ρ υ σ α} (m : μ)
      (here : step d ⟨c, s⟩ .cpu = some c') : Fires d (.call c) m s ⟨.call c'.code, m, c'.dev⟩
  | memory {α : Type} (f : μ → α × μ) (m : μ) (s : σ) : Fires d (.memory f) m s ⟨.ret (f m).1, (f m).2, s⟩
  | iter {α β : Type} (body : β → Program ρ υ μ (β ⊕ α)) (b : β) (m : μ) (s : σ) :
      Fires d (.iter body b) m s ⟨.bind (body b) (loopBack body), m, s⟩
  | bind {α β : Type} {p : Program ρ υ μ β} {m : μ} {s : σ} {n : Machine ρ υ μ σ β}
      (k : β → Program ρ υ μ α) (inner : Fires d p m s n) :
      Fires d (.bind p k) m s ⟨.bind n.code k, n.mem, n.dev⟩
  | bind_ret {α β : Type} (b : β) (k : β → Program ρ υ μ α) (m : μ) (s : σ) :
      Fires d (.bind (.ret b) k) m s ⟨k b, m, s⟩
  | bind_halt {α β : Type} (k : β → Program ρ υ μ α) (m : μ) (s : σ) :
      Fires d (.bind .halt k) m s ⟨.halt, m, s⟩

theorem fire_cases {d : Device ρ υ σ ε} {p : Program ρ υ μ α} {m : μ} {s : σ} {n : Machine ρ υ μ σ α}
    (fires : fire d p m s = some n) : Fires d p m s n := by
  induction p with
  | ret a => cases fires
  | halt => cases fires
  | call c =>
    cases c with
    | ret a =>
      cases Option.some.inj fires
      exact .returns a m s
    | load | store | poll =>
      simp only [fire, Option.map_eq_some_iff] at fires
      obtain ⟨c', here, same⟩ := fires
      cases same
      exact .call m here
  | memory f =>
    cases Option.some.inj fires
    exact .memory f m s
  | iter body b =>
    cases Option.some.inj fires
    exact .iter body b m s
  | bind p k ih =>
    simp only [fire] at fires
    cases h : fire d p m s with
    | some q =>
      rw [h] at fires
      cases Option.some.inj fires
      exact .bind k (ih h)
    | none =>
      rw [h] at fires
      cases p with
      | ret b =>
        cases Option.some.inj fires
        exact .bind_ret b k m s
      | halt =>
        cases Option.some.inj fires
        exact .bind_halt k m s
      | call | memory | iter | bind => cases fires

theorem Fires.fire {d : Device ρ υ σ ε} {p : Program ρ υ μ α} {m : μ} {s : σ} {n : Machine ρ υ μ σ α}
    (fires : Fires d p m s n) : Program.fire d p m s = some n := by
  induction fires with
  | @call _ c s c' m here =>
    cases c with
    | ret a => cases here
    | load | store | poll => simp only [Program.fire, here, Option.map_some]
  | bind k inner ih => simp only [Program.fire, ih]
  | returns | memory | iter | bind_ret | bind_halt => rfl

end Program

section Moves

variable {ρ υ μ σ ε α : Type} (d : Device ρ υ σ ε) (fine : σ → ε → Prop)

/-- A step of the processor, or a move of the device that it is held to. -/
inductive Moves (a b : Machine ρ υ μ σ α) : Prop where
  | cpu (fires : Program.fire d a.code a.mem a.dev = some b)
  | act {e : ε} {s : σ} (allowed : fine a.dev e) (moved : d.act e a.dev = some s)
      (same : b = { a with dev := s })

def Runs : Machine ρ υ μ σ α → Machine ρ υ μ σ α → Prop := Relation.ReflTransGen (Moves d fine)

/-- The machine after the steps of a list, where what cannot happen is passed over. -/
def after : List (Event ε) → Machine ρ υ μ σ α → Machine ρ υ μ σ α
  | [], n => n
  | .cpu :: es, n => after es ((Program.fire d n.code n.mem n.dev).getD n)
  | .act e :: es, n => after es { n with dev := (d.act e n.dev).getD n.dev }

theorem after_runs {d fine} (all : ∀ s e, fine s e) (es : List (Event ε)) (n : Machine ρ υ μ σ α) :
    Runs d fine n (after d es n) := by
  induction es generalizing n with
  | nil => exact .refl
  | cons e es ih =>
    cases e with
    | cpu =>
      refine .trans ?_ (ih _)
      cases fires : Program.fire d n.code n.mem n.dev with
      | none => exact .refl
      | some m => exact .single (.cpu fires)
    | act e =>
      refine .trans ?_ (ih _)
      cases moved : d.act e n.dev with
      | none => exact .refl
      | some s => exact .single (.act (all n.dev e) moved rfl)

theorem after_cpu {d : Device ρ υ σ ε} {fine : σ → ε → Prop} (k : Nat) (n : Machine ρ υ μ σ α) :
    Runs d fine n (after d (List.replicate k .cpu) n) := by
  induction k generalizing n with
  | zero => exact .refl
  | succ k ih =>
    refine .trans ?_ (ih _)
    cases fires : Program.fire d n.code n.mem n.dev with
    | none => exact .refl
    | some m => exact .single (.cpu fires)

def Machine.returned : Machine ρ υ μ σ α → Option α
  | ⟨.ret a, _, _⟩ => some a
  | _ => none

theorem Machine.returned_eq {n : Machine ρ υ μ σ α} {a : α} (returned : n.returned = some a) :
    n = ⟨.ret a, n.mem, n.dev⟩ := by
  obtain ⟨code, m, s⟩ := n
  cases code with
  | ret b =>
    cases returned
    rfl
  | bind | call | memory | iter | halt => cases returned

theorem after_returns {d fine} (all : ∀ s e, fine s e) {es : List (Event ε)} {n : Machine ρ υ μ σ α} {a : α}
    (returned : (after d es n).returned = some a) : ∃ m s, Runs d fine n ⟨.ret a, m, s⟩ := by
  have runs := after_runs all es n (d := d)
  rw [Machine.returned_eq returned] at runs
  exact ⟨_, _, runs⟩

end Moves

section Safety

variable {ρ υ σ ε α : Type} {d : Device ρ υ σ ε} {fine : σ → ε → Prop} {I : σ → Prop} {Q : α → σ → Prop}
variable {p : Driver ρ υ α} {s : σ}

theorem Safe.here (safe : Safe d fine I Q p s) : I s := (safe [] p s trivial rfl).1

theorem Safe.returned {a : α} (safe : Safe d fine I Q (.ret a) s) : Q a s := (safe [] _ s trivial rfl).2 a rfl

theorem Safe.next {e : Event ε} {c : Config ρ υ σ α} (safe : Safe d fine I Q p s)
    (allowed : Allows fine (⟨p, s⟩ : Config ρ υ σ α) e) (moved : step d ⟨p, s⟩ e = some c) :
    Safe d fine I Q c.code c.dev := by
  intro es q t along ran
  refine safe (e :: es) q t ⟨allowed, ?_⟩ (Option.bind_eq_some_iff.mpr ⟨c, moved, ran⟩)
  intro c' moved'
  cases moved.symm.trans moved'
  exact along

end Safety

section Runs

variable {ρ υ μ σ ε α β : Type} {d : Device ρ υ σ ε} {fine : σ → ε → Prop}

/-- A run through two parts is inside the first, has halted there, or is past it. -/
theorem runs_bind {p : Program ρ υ μ β} {k : β → Program ρ υ μ α} {m : μ} {s : σ} {n : Machine ρ υ μ σ α}
    (runs : Runs d fine ⟨.bind p k, m, s⟩ n) :
    (∃ q, n.code = .bind q k ∧ Runs d fine ⟨p, m, s⟩ ⟨q, n.mem, n.dev⟩) ∨
      (n.code = .halt ∧ Runs d fine ⟨p, m, s⟩ ⟨.halt, n.mem, n.dev⟩) ∨
      ∃ b m' t, Runs d fine ⟨p, m, s⟩ ⟨.ret b, m', t⟩ ∧ Runs d fine ⟨k b, m', t⟩ n := by
  induction runs with
  | refl => exact .inl ⟨p, rfl, .refl⟩
  | @tail a b _ moves ih =>
    rcases ih with ⟨q, code, first⟩ | ⟨halted, first⟩ | ⟨b, m', t, first, rest⟩
    · cases moves with
      | act allowed moved same =>
        subst same
        exact .inl ⟨q, code, first.tail (.act allowed moved rfl)⟩
      | cpu fires =>
        rw [code] at fires
        cases Program.fire_cases fires with
        | @bind _ _ _ _ _ c _ inner =>
          exact .inl ⟨c.code, rfl, first.tail (.cpu inner.fire)⟩
        | bind_ret b => exact .inr (.inr ⟨b, _, _, first, .refl⟩)
        | bind_halt => exact .inr (.inl ⟨rfl, first⟩)
    · cases moves with
      | act allowed moved same =>
        subst same
        exact .inr (.inl ⟨halted, first.tail (.act allowed moved rfl)⟩)
      | cpu fires =>
        rw [halted] at fires
        cases fires
    · exact .inr (.inr ⟨b, m', t, first, rest.tail moves⟩)

/-- A run of a call is inside its driver, or past it. -/
theorem runs_call {c : Driver ρ υ α} {I : σ → Prop} {Q : α → σ → Prop} {m : μ} {s : σ}
    {n : Machine ρ υ μ σ α} (safe : Safe d fine I Q c s) (runs : Runs d fine ⟨.call c, m, s⟩ n) :
    n.mem = m ∧ ∃ c', Safe d fine I Q c' n.dev ∧ (n.code = .call c' ∨ ∃ a, c' = .ret a ∧ n.code = .ret a) := by
  induction runs with
  | refl => exact ⟨rfl, c, safe, .inl rfl⟩
  | @tail a b _ moves ih =>
    obtain ⟨mem, c', safe', place⟩ := ih
    cases moves with
    | @act e t allowed moved same =>
      subst same
      have here : step d ⟨c', a.dev⟩ (.act e) = some ⟨c', t⟩ := Option.map_eq_some_iff.mpr ⟨t, moved, rfl⟩
      exact ⟨mem, c', safe'.next (e := .act e) allowed here, place⟩
    | cpu fires =>
      rcases place with code | ⟨a, rfl, code⟩
      · rw [code] at fires
        cases Program.fire_cases fires with
        | returns a => exact ⟨mem, .ret a, safe', .inr ⟨a, rfl, rfl⟩⟩
        | @call _ _ _ c'' _ here => exact ⟨mem, c''.code, safe'.next (e := .cpu) trivial here, .inl rfl⟩
      · rw [code] at fires
        cases fires

theorem call_returns {c : Driver ρ υ α} {I : σ → Prop} {Q : α → σ → Prop} {m m' : μ} {s t : σ} {a : α}
    (safe : Safe d fine I Q c s) (runs : Runs d fine ⟨.call c, m, s⟩ ⟨.ret a, m', t⟩) : m' = m ∧ Q a t := by
  obtain ⟨mem, c', safe', code | ⟨a', rfl, code⟩⟩ := runs_call safe runs
  · cases code
  · cases code
    exact ⟨mem, safe'.returned⟩

theorem runs_ret {P : σ → Prop} {m : μ} {s : σ} {a : α} {n : Machine ρ υ μ σ α} (stable : Stable d fine P)
    (holds : P s) (runs : Runs d fine ⟨.ret a, m, s⟩ n) : n.code = .ret a ∧ n.mem = m ∧ P n.dev := by
  induction runs with
  | refl => exact ⟨rfl, rfl, holds⟩
  | tail _ moves ih =>
    obtain ⟨code, mem, here⟩ := ih
    cases moves with
    | act allowed moved same =>
      subst same
      exact ⟨code, mem, stable _ _ _ here allowed moved⟩
    | cpu fires =>
      rw [code] at fires
      cases fires

theorem bind_returns {p : Program ρ υ μ β} {k : β → Program ρ υ μ α} {m m' : μ} {s t : σ} {a : α}
    (runs : Runs d fine ⟨.bind p k, m, s⟩ ⟨.ret a, m', t⟩) :
    ∃ b m₁ u, Runs d fine ⟨p, m, s⟩ ⟨.ret b, m₁, u⟩ ∧ Runs d fine ⟨k b, m₁, u⟩ ⟨.ret a, m', t⟩ := by
  rcases runs_bind runs with ⟨q, code, _⟩ | ⟨halted, _⟩ | found
  · cases code
  · cases halted
  · exact found

theorem runs_inside {p q : Program ρ υ μ β} (k : β → Program ρ υ μ α) {m m' : μ} {s t : σ}
    (runs : Runs d fine ⟨p, m, s⟩ ⟨q, m', t⟩) : Runs d fine ⟨.bind p k, m, s⟩ ⟨.bind q k, m', t⟩ := by
  refine Relation.ReflTransGen.lift
    (fun n : Machine ρ υ μ σ β => (⟨.bind n.code k, n.mem, n.dev⟩ : Machine ρ υ μ σ α)) (fun a b moves => ?_) _ _
    runs
  cases moves with
  | cpu fires => exact .cpu (Program.Fires.bind k (Program.fire_cases fires)).fire
  | act allowed moved same =>
    subst same
    exact .act allowed moved rfl

theorem runs_on {p : Program ρ υ μ β} (k : β → Program ρ υ μ α) {b : β} {m m' : μ} {s t : σ}
    (runs : Runs d fine ⟨p, m, s⟩ ⟨.ret b, m', t⟩) : Runs d fine ⟨.bind p k, m, s⟩ ⟨k b, m', t⟩ :=
  (runs_inside k runs).tail (.cpu (Program.Fires.bind_ret b k m' t).fire)

/-- A store that has returned was made in one state on the way, where what the device keeps still held. -/
theorem store_made {P : σ → Prop} {r : ρ} {v : υ} {m m' : μ} {s t : σ} (stable : Stable d fine P) (holds : P s)
    (runs : Runs d fine ⟨.call (store r v), m, s⟩ ⟨.ret (), m', t⟩) :
    ∃ u, P u ∧ Runs d fine ⟨.call (store r v), m, s⟩ ⟨.call (store r v), m, u⟩ ∧
      Runs d fine ⟨.call (.ret ()), m, d.store r v u⟩ ⟨.ret (), m', t⟩ := by
  generalize begun : (⟨.call (store r v), m, s⟩ : Machine ρ υ μ σ Unit) = a at runs
  induction runs using Relation.ReflTransGen.head_induction_on generalizing s with
  | refl => cases begun
  | head moves rest ih =>
    subst begun
    cases moves with
    | cpu fires =>
      cases Program.fire_cases fires with
      | call _ here =>
        cases here
        exact ⟨s, holds, .refl, rest⟩
    | act allowed moved same =>
      subst same
      obtain ⟨u, here, waits, later⟩ := ih (stable _ _ _ holds allowed moved) rfl
      exact ⟨u, here, waits.head (.act allowed moved rfl), later⟩

end Runs

end Mmio
