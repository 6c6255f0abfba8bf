import Mathlib.Data.List.Basic

/-! Programs on a state that may stop for good, and what holds wherever they come back. -/
namespace Steps

variable {σ α β : Type}

def Ends (p : StateT σ Option α) (Q : α → σ → Prop) (s : σ) : Prop :=
  ∀ a t, p.run s = some (a, t) → Q a t

variable {Q : α → σ → Prop} {s : σ}

@[simp] theorem ends_pure (a : α) : Ends (pure a : StateT σ Option α) Q s ↔ Q a s := by
  constructor
  · intro ends
    exact ends a s rfl
  · intro post b t ran
    cases ran
    exact post

@[simp] theorem ends_bind (p : StateT σ Option β) (f : β → StateT σ Option α) :
    Ends (p >>= f) Q s ↔ Ends p (fun b t => Ends (f b) Q t) s := by
  constructor
  · intro ends b t first a u rest
    exact ends a u (Option.bind_eq_some_iff.mpr ⟨(b, t), first, rest⟩)
  · intro ends a u ran
    obtain ⟨⟨b, t⟩, first, rest⟩ := Option.bind_eq_some_iff.mp ran
    exact ends b t first a u rest

@[simp] theorem ends_get {Q : σ → σ → Prop} : Ends (get : StateT σ Option σ) Q s ↔ Q s s := by
  constructor
  · intro ends
    exact ends s s rfl
  · intro post a t ran
    cases ran
    exact post

@[simp] theorem ends_modify {Q : Unit → σ → Prop} (f : σ → σ) :
    Ends (modify f : StateT σ Option Unit) Q s ↔ Q () (f s) := by
  constructor
  · intro ends
    exact ends () (f s) rfl
  · intro post a t ran
    cases ran
    exact post

@[simp] theorem ends_failure : Ends (failure : StateT σ Option α) Q s := by
  intro a t ran
  cases ran

@[simp] theorem ends_ite (c : Prop) [Decidable c] (p q : StateT σ Option α) :
    Ends (if c then p else q) Q s ↔ (c → Ends p Q s) ∧ (¬ c → Ends q Q s) := by
  by_cases holds : c
  · simp [holds]
  · simp [holds]

theorem Ends.mono {R : α → σ → Prop} {p : StateT σ Option α} (ends : Ends p Q s)
    (weaker : ∀ a t, Q a t → R a t) : Ends p R s :=
  fun a t ran => weaker a t (ends a t ran)

/-- A program that leaves a part of the state as it is. -/
def Keeps {γ : Type} (part : σ → γ) (p : StateT σ Option α) : Prop :=
  ∀ s, Ends p (fun _ t => part t = part s) s

theorem Keeps.bind {γ : Type} {part : σ → γ} {p : StateT σ Option β} {f : β → StateT σ Option α}
    (first : Keeps part p) (rest : ∀ b, Keeps part (f b)) : Keeps part (p >>= f) := by
  intro s
  rw [ends_bind]
  intro b t ran
  exact (rest b t).mono fun _ _ same => same.trans (first s b t ran)

end Steps
