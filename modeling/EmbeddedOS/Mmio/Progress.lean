import EmbeddedOS.Mmio.Driver

/-! Drivers that leave their polling loops. A run is only held up by polls that have to go round
once more; all its other steps are bounded in number, and one of them is always possible. -/
namespace Mmio

variable {ρ υ σ ε α β : Type}

section Effort

variable (d : Device ρ υ σ ε)

/-- A poll that has to go round once more. -/
def waits (c : Config ρ υ σ α) : Event ε → Bool
  | .act _ => false
  | .cpu =>
    match c.code with
    | .poll r ready _ => ! ready (d.load r c.dev).1
    | _ => false

/-- The steps of a run that are no such polls. -/
def effort (c : Config ρ υ σ α) : List (Event ε) → Nat
  | [] => 0
  | e :: es => (if waits d c e then 0 else 1) + ((step d c e).map fun c' => effort c' es).getD 0

def Moving (fine : σ → ε → Prop) (c : Config ρ υ σ α) : Prop :=
  (∃ a, c.code = .ret a) ∨ ∃ e c', Allows fine c e ∧ step d c e = some c' ∧ waits d c e = false

/-- Every run from here has at most N such steps, can go on by one until the driver has returned, and
Q holds where it has. -/
def Finishes (fine : σ → ε → Prop) (N : Nat) (Q : α → σ → Prop) (p : Driver ρ υ α) (s : σ) : Prop :=
  ∀ es c, Steps.Along (step d) (Allows fine) ⟨p, s⟩ es → Steps.exec (step d) ⟨p, s⟩ es = some c →
    effort d ⟨p, s⟩ es ≤ N ∧ Moving d fine c ∧ ∀ a, c.code = .ret a → Q a c.dev

/-- The device keeps P, and has fewer moves left with each one. -/
def Dwindles (fine : σ → ε → Prop) (P : σ → Prop) (v : σ → Nat) : Prop :=
  ∀ s e t, P s → fine s e → d.act e s = some t → P t ∧ v t < v s

end Effort

section Rules

variable {d : Device ρ υ σ ε} {fine : σ → ε → Prop} {P : σ → Prop} {v : σ → Nat}
variable {Q : α → σ → Prop} {s : σ} {M N : Nat}

theorem effort_cons {c c' : Config ρ υ σ α} {e : Event ε} (es : List (Event ε))
    (here : step d c e = some c') :
    effort d c (e :: es) = (if waits d c e then 0 else 1) + effort d c' es := by
  rw [effort, here]
  rfl

theorem stuck {c : Config ρ υ σ α} (waiting : waits d c .cpu = true) (rests : ∀ e, d.act e c.dev = none) :
    ¬ Moving d fine c := by
  rintro (⟨a, done⟩ | ⟨e, c', -, moved, goes⟩)
  · rw [waits, done] at waiting
    cases waiting
  · cases e with
    | cpu =>
      rw [waiting] at goes
      cases goes
    | act e =>
      rw [step, rests e] at moved
      cases moved

theorem Finishes.mono {p : Driver ρ υ α} (finishes : Finishes d fine N Q p s) (more : N ≤ M) :
    Finishes d fine M Q p s := by
  intro es c along ran
  obtain ⟨bound, rest⟩ := finishes es c along ran
  exact ⟨Nat.le_trans bound more, rest⟩

theorem Finishes.weaken {R : α → σ → Prop} {p : Driver ρ υ α} (finishes : Finishes d fine N Q p s)
    (post : ∀ a t, Q a t → R a t) : Finishes d fine N R p s := by
  intro es c along ran
  obtain ⟨bound, moving, returns⟩ := finishes es c along ran
  exact ⟨bound, moving, fun a done => post a c.dev (returns a done)⟩

/-- The rule behind all others: the device has moves left, and the driver stays or goes on. -/
theorem finishes_of_step {p : Driver ρ υ α} (dwindles : Dwindles d fine P v) (few : ∀ s, P s → v s ≤ N)
    (moving : ∀ s, P s → Moving d fine ⟨p, s⟩) (returns : ∀ s a, P s → p = .ret a → Q a s)
    (goes : ∀ s c, P s → step d ⟨p, s⟩ .cpu = some c →
      waits d (⟨p, s⟩ : Config ρ υ σ α) .cpu = true ∧ c.code = p ∧ P c.dev ∧ v c.dev ≤ v s ∨
        Finishes d fine M Q c.code c.dev)
    (holds : P s) : Finishes d fine (N + 1 + M) Q p s := by
  suffices bounded : ∀ s, P s → Finishes d fine (v s + 1 + M) Q p s by
    have room := few s holds
    exact (bounded s holds).mono (by omega)
  intro s holds es
  induction es generalizing s with
  | nil =>
    intro c _ ran
    cases ran
    exact ⟨Nat.zero_le _, moving s holds, fun a done => returns s a holds done⟩
  | cons e es ih =>
    intro c along ran
    obtain ⟨⟨p', s'⟩, here, later⟩ := Option.bind_eq_some_iff.mp ran
    rw [effort_cons es here]
    cases e with
    | act e =>
      obtain ⟨s'', moved, same⟩ := Option.map_eq_some_iff.mp here
      cases same
      obtain ⟨kept, less⟩ := dwindles s e s' holds along.1 moved
      obtain ⟨bound, rest⟩ := ih s' kept c (along.2 _ here) later
      have counts : waits d (⟨p, s⟩ : Config ρ υ σ α) (.act e) = false := rfl
      refine ⟨?_, rest⟩
      change effort d ⟨p, s'⟩ es ≤ _ at bound
      change (if waits d (⟨p, s⟩ : Config ρ υ σ α) (.act e) then 0 else 1) + effort d ⟨p, s'⟩ es ≤ _
      rw [counts, if_neg Bool.false_ne_true]
      omega
    | cpu =>
      rcases goes s ⟨p', s'⟩ holds here with ⟨waiting, same, kept, less⟩ | finishes
      · cases same
        obtain ⟨bound, rest⟩ := ih s' kept c (along.2 _ here) later
        refine ⟨?_, rest⟩
        rw [waiting, if_pos rfl]
        change effort d ⟨p', s'⟩ es ≤ _ at bound
        change v s' ≤ v s at less
        omega
      · obtain ⟨bound, rest⟩ := finishes es c (along.2 _ here) later
        refine ⟨?_, rest⟩
        change effort d ⟨p', s'⟩ es ≤ _ at bound
        split <;> omega

theorem finishes_ret {a : α} (dwindles : Dwindles d fine P v) (few : ∀ s, P s → v s ≤ N)
    (returns : ∀ s, P s → Q a s) (holds : P s) : Finishes d fine (N + 1 + M) Q (.ret a) s := by
  refine finishes_of_step dwindles few (fun s _ => .inl ⟨a, rfl⟩) ?_ ?_ holds
  · intro s b here same
    cases same
    exact returns s here
  · intro s c _ stuck
    cases stuck

theorem finishes_load {r : ρ} {k : υ → Driver ρ υ α} (dwindles : Dwindles d fine P v)
    (few : ∀ s, P s → v s ≤ N)
    (next : ∀ s, P s → Finishes d fine M Q (k (d.load r s).1) (d.load r s).2) (holds : P s) :
    Finishes d fine (N + 1 + M) Q (.load r k) s := by
  refine finishes_of_step dwindles few (fun s _ => .inr ⟨.cpu, _, trivial, rfl, rfl⟩)
    (fun _ _ _ same => by cases same) ?_ holds
  intro s c here stepped
  cases stepped
  exact .inr (next s here)

theorem finishes_store {r : ρ} {u : υ} {k : Driver ρ υ α} (dwindles : Dwindles d fine P v)
    (few : ∀ s, P s → v s ≤ N) (next : ∀ s, P s → Finishes d fine M Q k (d.store r u s))
    (holds : P s) : Finishes d fine (N + 1 + M) Q (.store r u k) s := by
  refine finishes_of_step dwindles few (fun s _ => .inr ⟨.cpu, _, trivial, rfl, rfl⟩)
    (fun _ _ _ same => by cases same) ?_ holds
  intro s c here stepped
  cases stepped
  exact .inr (next s here)

/-- While the value will not do, the device has a move that is allowed. -/
theorem finishes_poll {r : ρ} {ready : υ → Bool} {k : υ → Driver ρ υ α} (dwindles : Dwindles d fine P v)
    (few : ∀ s, P s → v s ≤ N)
    (again : ∀ s, P s → ready (d.load r s).1 = false →
      P (d.load r s).2 ∧ v (d.load r s).2 ≤ v s ∧ ∃ e t, fine s e ∧ d.act e s = some t)
    (next : ∀ s, P s → ready (d.load r s).1 = true →
      Finishes d fine M Q (k (d.load r s).1) (d.load r s).2) (holds : P s) :
    Finishes d fine (N + 1 + M) Q (.poll r ready k) s := by
  refine finishes_of_step dwindles few ?_ (fun _ _ _ same => by cases same) ?_ holds
  · intro s here
    cases good : ready (d.load r s).1 with
    | true =>
      exact .inr ⟨.cpu, ⟨k (d.load r s).1, (d.load r s).2⟩, trivial,
        by simp only [step, good, if_true], by simp [waits, good]⟩
    | false =>
      obtain ⟨_, _, e, t, allowed, moved⟩ := again s here good
      exact .inr ⟨.act e, _, allowed, by simp only [step, moved]; rfl, rfl⟩
  · intro s c here stepped
    simp only [step] at stepped
    split at stepped
    · rename_i good
      cases stepped
      exact .inr (next s here good)
    · rename_i bad
      cases stepped
      obtain ⟨kept, less, _⟩ := again s here (by simpa using bad)
      exact .inl ⟨by simp [waits, bad], rfl, kept, less⟩

theorem waits_bind {p : Driver ρ υ β} {k : β → Driver ρ υ α} (going : ∀ b, p ≠ .ret b) (e : Event ε) :
    waits d (⟨p >>= k, s⟩ : Config ρ υ σ α) e = waits d (⟨p, s⟩ : Config ρ υ σ β) e := by
  cases e with
  | act e => rfl
  | cpu =>
    cases p with
    | ret b => exact absurd rfl (going b)
    | load r f => rfl
    | store r u f => rfl
    | poll r ready f => rfl

theorem moving_bind {p : Driver ρ υ β} {k : β → Driver ρ υ α} (going : ∀ b, p ≠ .ret b)
    (moving : Moving d fine (⟨p, s⟩ : Config ρ υ σ β)) :
    Moving d fine (⟨p >>= k, s⟩ : Config ρ υ σ α) := by
  rcases moving with ⟨b, done⟩ | ⟨e, c, allowed, here, goes⟩
  · exact absurd done (going b)
  · refine .inr ⟨e, _, ?_, by rw [step_bind going, here]; rfl, by rw [waits_bind going, goes]⟩
    cases e with
    | cpu => trivial
    | act e => exact allowed

theorem finishes_bind {R : β → σ → Prop} {p : Driver ρ υ β} {k : β → Driver ρ υ α}
    (first : Finishes d fine N R p s) (rest : ∀ b t, R b t → Finishes d fine M Q (k b) t) :
    Finishes d fine (N + M) Q (p >>= k) s := by
  intro es
  induction es generalizing p s N with
  | nil =>
    intro c along ran
    by_cases done : ∃ b, p = .ret b
    · obtain ⟨b, rfl⟩ := done
      have here := (first [] _ trivial rfl).2.2 b rfl
      exact (rest b s here).mono (Nat.le_add_left M N) [] c along ran
    · have going : ∀ b, p ≠ .ret b := fun b same => done ⟨b, same⟩
      cases ran
      refine ⟨Nat.zero_le _, moving_bind going (first [] _ trivial rfl).2.1, fun a same => ?_⟩
      cases p with
      | ret b => exact absurd ⟨b, rfl⟩ done
      | load r f => cases same
      | store r u f => cases same
      | poll r ready f => cases same
  | cons e es ih =>
    intro c along ran
    by_cases done : ∃ b, p = .ret b
    · obtain ⟨b, rfl⟩ := done
      have here := (first [] _ trivial rfl).2.2 b rfl
      exact (rest b s here).mono (Nat.le_add_left M N) (e :: es) c along ran
    · have going : ∀ b, p ≠ .ret b := fun b same => done ⟨b, same⟩
      obtain ⟨c', here, later⟩ := Option.bind_eq_some_iff.mp ran
      rw [effort_cons es here, waits_bind going]
      rw [step_bind going] at here
      obtain ⟨⟨p', s'⟩, moved, same⟩ := Option.map_eq_some_iff.mp here
      cases same
      have allowed : Allows fine (⟨p, s⟩ : Config ρ υ σ β) e := by
        cases e with
        | cpu => trivial
        | act e => exact along.1
      have tail {es' : List (Event ε)} {c' : Config ρ υ σ β}
          (along' : Steps.Along (step d) (Allows fine) ⟨p', s'⟩ es')
          (ran' : Steps.exec (step d) ⟨p', s'⟩ es' = some c') :
          (if waits d (⟨p, s⟩ : Config ρ υ σ β) e then 0 else 1) + effort d ⟨p', s'⟩ es' ≤ N ∧
            Moving d fine c' ∧ ∀ b, c'.code = .ret b → R b c'.dev := by
        have whole := first (e :: es') c'
          ⟨allowed, fun c'' moved' => by cases moved.symm.trans moved'; exact along'⟩
          (Option.bind_eq_some_iff.mpr ⟨_, moved, ran'⟩)
        rwa [effort_cons es' moved] at whole
      have cost := (@tail [] ⟨p', s'⟩ trivial rfl).1
      have remaining : Finishes d fine
          (N - if waits d (⟨p, s⟩ : Config ρ υ σ β) e then 0 else 1) R p' s' := by
        intro es' c' along' ran'
        obtain ⟨bound, more⟩ := tail along' ran'
        exact ⟨by omega, more⟩
      have along' := along.2 _ (by rw [step_bind going, moved]; rfl)
      obtain ⟨bound, more⟩ := ih remaining c along' later
      refine ⟨?_, more⟩
      change _ + effort d ⟨p' >>= k, s'⟩ es ≤ _
      simp only [effort] at cost
      omega

end Rules

section Completes

variable (d : Device ρ υ σ ε) (fine : σ → ε → Prop)

/-- The device keeps P, with a bound on the moves that it has left. -/
def Held (P : σ → Prop) : Prop := ∃ v N, Dwindles d fine P v ∧ ∀ s, P s → v s ≤ N

/-- From any state with P the driver comes to its end with Q, within one bound for all of them. -/
def Completes (P : σ → Prop) (p : Driver ρ υ α) (Q : α → σ → Prop) : Prop :=
  ∃ N, ∀ s, P s → Finishes d fine N Q p s

variable {d fine} {P R : σ → Prop} {Q : α → σ → Prop}

theorem completes_ret {a : α} (held : Held d fine P) (returns : ∀ s, P s → Q a s) :
    Completes d fine P (.ret a) Q := by
  obtain ⟨v, N, dwindles, few⟩ := held
  exact ⟨N + 1 + 0, fun s => finishes_ret dwindles few returns⟩

theorem completes_load {r : ρ} {k : υ → Driver ρ υ α} (held : Held d fine P)
    (next : ∃ M, ∀ s, P s → Finishes d fine M Q (k (d.load r s).1) (d.load r s).2) :
    Completes d fine P (.load r k) Q := by
  obtain ⟨v, N, dwindles, few⟩ := held
  obtain ⟨M, next⟩ := next
  exact ⟨N + 1 + M, fun s => finishes_load dwindles few next⟩

theorem completes_store {r : ρ} {u : υ} {k : Driver ρ υ α} (held : Held d fine P)
    (stores : ∀ s, P s → R (d.store r u s)) (next : Completes d fine R k Q) :
    Completes d fine P (.store r u k) Q := by
  obtain ⟨v, N, dwindles, few⟩ := held
  obtain ⟨M, next⟩ := next
  exact ⟨N + 1 + M, fun s => finishes_store dwindles few fun s here => next _ (stores s here)⟩

theorem completes_poll {r : ρ} {ready : υ → Bool} {k : Driver ρ υ α} (held : Held d fine P)
    (quiet : ∀ s, P s → (d.load r s).2 = s)
    (again : ∀ s, P s → ready (d.load r s).1 = false → ∃ e t, fine s e ∧ d.act e s = some t)
    (loads : ∀ s, P s → ready (d.load r s).1 = true → R s) (next : Completes d fine R k Q) :
    Completes d fine P (.poll r ready fun _ => k) Q := by
  obtain ⟨v, N, dwindles, few⟩ := held
  obtain ⟨M, next⟩ := next
  refine ⟨N + 1 + M, fun s => finishes_poll dwindles few (fun s here bad => ?_) fun s here good => ?_⟩
  · rw [quiet s here]
    exact ⟨here, Nat.le_refl _, again s here bad⟩
  · rw [quiet s here]
    exact next s (loads s here good)

theorem Completes.weaken {Q' : α → σ → Prop} {p : Driver ρ υ α} (completes : Completes d fine P p Q)
    (post : ∀ a s, Q a s → Q' a s) : Completes d fine P p Q' := by
  obtain ⟨N, finishes⟩ := completes
  exact ⟨N, fun s here => (finishes s here).weaken post⟩

end Completes

section Errors

variable {κ : Type} {d : Device ρ υ σ ε} {fine : σ → ε → Prop} {P : σ → Prop} {M N : Nat}
variable {S : Except κ β → σ → Prop} {Q : Except κ α → σ → Prop}
variable {p : ExceptT κ (Driver ρ υ) β} {k : β → ExceptT κ (Driver ρ υ) α}

theorem finishes_try {s : σ} (first : Finishes d fine N S p s)
    (stops : ∀ e s, S (.error e) s → Finishes d fine M Q (.ret (.error e)) s)
    (next : ∀ b s, S (.ok b) s → Finishes d fine M Q (k b) s) :
    Finishes d fine (N + M) Q (p >>= k : ExceptT κ (Driver ρ υ) α) s := by
  change Finishes d fine _ Q ((p : Driver ρ υ (Except κ β)) >>= ExceptT.bindCont k) s
  refine finishes_bind first fun r t post => ?_
  cases r with
  | error e => exact stops e t post
  | ok b => exact next b t post

theorem completes_try (first : Completes d fine P p S)
    (stops : ∃ M, ∀ e s, S (.error e) s → Finishes d fine M Q (.ret (.error e)) s)
    (next : ∃ M, ∀ b s, S (.ok b) s → Finishes d fine M Q (k b) s) :
    Completes d fine P (p >>= k : ExceptT κ (Driver ρ υ) α) Q := by
  obtain ⟨N, finishes⟩ := first
  obtain ⟨M, stops⟩ := stops
  obtain ⟨K, next⟩ := next
  refine ⟨N + max M K, fun s here => finishes_try (finishes s here) (fun e t post => ?_) fun b t post => ?_⟩
  · exact (stops e t post).mono (Nat.le_max_left M K)
  · exact (next b t post).mono (Nat.le_max_right M K)

end Errors

end Mmio
