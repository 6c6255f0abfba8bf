import Mathlib.Data.List.Basic

/-! Runs of a system that takes one step for each input, and what holds all along them. -/
namespace Steps

variable {S A : Type}

def run (step : S → A → S) (s : S) : List A → S
  | [] => s
  | a :: rest => run step (step s a) rest

theorem run_invariant {step : S → A → S} {inv : S → Prop} (kept : ∀ s a, inv s → inv (step s a))
    {s : S} (initial : inv s) (as : List A) : inv (run step s as) := by
  induction as generalizing s with
  | nil => exact initial
  | cons a rest ih => exact ih (kept s a initial)

theorem run_map {B : Type} (step : S → A → S) (f : B → A) (s : S) (bs : List B) :
    run step s (bs.map f) = run (fun s b => step s (f b)) s bs := by
  induction bs generalizing s with
  | nil => rfl
  | cons b bs ih => exact ih (step s (f b))

/-- A cost that the steps of one kind lower and no other raises comes to zero. -/
theorem run_lowers {step : S → A → S} {inv : S → Prop} (cost : S → Nat) (mine : A → Bool)
    (kept : ∀ s a, inv s → inv (step s a))
    (less : ∀ s a, inv s → mine a = true → 0 < cost s → cost (step s a) < cost s)
    (others : ∀ s a, inv s → mine a = false → cost (step s a) ≤ cost s)
    {s : S} (initial : inv s) {as : List A} (enough : cost s ≤ as.countP mine) :
    ∃ first rest, as = first ++ rest ∧ cost (run step s first) = 0 := by
  induction as generalizing s with
  | nil => exact ⟨[], [], rfl, Nat.le_zero.mp enough⟩
  | cons a as ih =>
    by_cases ended : cost s = 0
    · exact ⟨[], a :: as, rfl, ended⟩
    have lower : cost (step s a) ≤ as.countP mine := by
      cases kind : mine a with
      | true =>
        have lowered := less s a initial kind (Nat.pos_of_ne_zero ended)
        rw [List.countP_cons_of_pos kind] at enough
        omega
      | false =>
        have bounded := others s a initial kind
        rw [List.countP_cons_of_neg (by rw [kind]; exact Bool.false_ne_true)] at enough
        omega
    obtain ⟨first, rest, split, zero⟩ := ih (kept s a initial) lower
    exact ⟨a :: first, rest, congrArg (a :: ·) split, zero⟩

/-- Every input of the run is fine in the state it comes to. -/
def Throughout (step : S → A → S) (fine : S → A → Prop) (s : S) : List A → Prop
  | [] => True
  | a :: rest => fine s a ∧ Throughout step fine (step s a) rest

instance decidableThroughout {step : S → A → S} {fine : S → A → Prop} [∀ s a, Decidable (fine s a)] :
    (s : S) → (as : List A) → Decidable (Throughout step fine s as)
  | _, [] => isTrue trivial
  | s, a :: rest =>
    have := @decidableThroughout step fine _ (step s a) rest
    inferInstanceAs (Decidable (fine s a ∧ Throughout step fine (step s a) rest))

/-- Where an input is fine just if it is good and keeps the invariant, a run is fine just if its inputs
are good and the invariant holds after each of them. -/
theorem throughout_iff {step : S → A → S} {inv : S → Prop} {good fine : S → A → Prop}
    (one : ∀ s a, inv s → (fine s a ↔ good s a ∧ inv (step s a))) {s : S} (initial : inv s) (as : List A) :
    Throughout step fine s as ↔
      Throughout step good s as ∧ ∀ first, first <+: as → inv (run step s first) := by
  induction as generalizing s with
  | nil =>
    refine ⟨fun _ => ⟨trivial, ?_⟩, fun _ => trivial⟩
    intro first inside
    rw [List.prefix_nil.mp inside]
    exact initial
  | cons a rest ih =>
    rw [Throughout, one s a initial]
    constructor
    · rintro ⟨⟨here, kept⟩, later⟩
      obtain ⟨goods, after⟩ := (ih kept).mp later
      refine ⟨⟨here, goods⟩, ?_⟩
      intro first inside
      cases first with
      | nil => exact initial
      | cons b first =>
        obtain ⟨rfl, shorter⟩ := List.cons_prefix_cons.mp inside
        exact after first shorter
    · rintro ⟨⟨here, goods⟩, after⟩
      have kept : inv (step s a) := after [a] (List.cons_prefix_cons.mpr ⟨rfl, List.nil_prefix⟩)
      refine ⟨⟨here, kept⟩, (ih kept).mpr ⟨goods, ?_⟩⟩
      intro first inside
      exact after (a :: first) (List.cons_prefix_cons.mpr ⟨rfl, inside⟩)

/-- A run of a system that can get stuck. -/
def exec (step : S → A → Option S) (s : S) : List A → Option S
  | [] => some s
  | a :: rest => (step s a).bind fun t => exec step t rest

theorem exec_append {step : S → A → Option S} {s t u : S} {first rest : List A}
    (one : exec step s first = some t) (two : exec step t rest = some u) :
    exec step s (first ++ rest) = some u := by
  induction first generalizing s with
  | nil =>
    cases one
    exact two
  | cons a first ih =>
    obtain ⟨mid, here, later⟩ := Option.bind_eq_some_iff.mp one
    exact Option.bind_eq_some_iff.mpr ⟨mid, here, ih later⟩

theorem exec_split {step : S → A → Option S} {s u : S} {first rest : List A}
    (ran : exec step s (first ++ rest) = some u) :
    ∃ t, exec step s first = some t ∧ exec step t rest = some u := by
  induction first generalizing s with
  | nil => exact ⟨s, rfl, ran⟩
  | cons a first ih =>
    obtain ⟨mid, here, later⟩ := Option.bind_eq_some_iff.mp ran
    obtain ⟨t, one, two⟩ := ih later
    exact ⟨t, Option.bind_eq_some_iff.mpr ⟨mid, here, one⟩, two⟩

def Reaches (step : S → A → Option S) (s t : S) : Prop := ∃ as, exec step s as = some t

theorem Reaches.refl (step : S → A → Option S) (s : S) : Reaches step s s := ⟨[], rfl⟩

theorem Reaches.trans {step : S → A → Option S} {s t u : S} (one : Reaches step s t)
    (two : Reaches step t u) : Reaches step s u := by
  obtain ⟨first, ran⟩ := one
  obtain ⟨rest, ran'⟩ := two
  exact ⟨first ++ rest, exec_append ran ran'⟩

theorem Reaches.step {step : S → A → Option S} {s t u : S} {a : A} (one : step s a = some t)
    (two : Reaches step t u) : Reaches step s u := by
  obtain ⟨rest, ran⟩ := two
  exact ⟨a :: rest, Option.bind_eq_some_iff.mpr ⟨t, one, ran⟩⟩

theorem forall_takes {step : S → A → Option S} {P : S → Prop} {s t : S} {a : A} {rest : List A}
    (one : step s a = some t) : (∀ k u, exec step s ((a :: rest).take k) = some u → P u) ↔
      P s ∧ ∀ k u, exec step t (rest.take k) = some u → P u := by
  constructor
  · intro all
    exact ⟨all 0 s rfl, fun k u ran => all (k + 1) u (Option.bind_eq_some_iff.mpr ⟨t, one, ran⟩)⟩
  · rintro ⟨here, later⟩ k u ran
    cases k with
    | zero =>
      cases ran
      exact here
    | succ k =>
      obtain ⟨t', one', ran'⟩ := Option.bind_eq_some_iff.mp ran
      cases one.symm.trans one'
      exact later k u ran'

theorem exec_invariant {step : S → A → Option S} {inv : S → Prop}
    (kept : ∀ s a t, inv s → step s a = some t → inv t) {s t : S} (initial : inv s) {as : List A}
    (ran : exec step s as = some t) : inv t := by
  induction as generalizing s with
  | nil =>
    cases ran
    exact initial
  | cons a rest ih =>
    obtain ⟨mid, here, later⟩ := Option.bind_eq_some_iff.mp ran
    exact ih (kept s a mid initial here) later

/-- Every step of the run is taken in a state, and with an input, that is fine. -/
def Along (step : S → A → Option S) (fine : S → A → Prop) (s : S) : List A → Prop
  | [] => True
  | a :: rest => fine s a ∧ ∀ t, step s a = some t → Along step fine t rest

theorem along_cons {step : S → A → Option S} {fine : S → A → Prop} {s t : S} {a : A} {rest : List A}
    (one : step s a = some t) :
    Along step fine s (a :: rest) ↔ fine s a ∧ Along step fine t rest := by
  simp [Along, one]

instance decidableAlong {step : S → A → Option S} {fine : S → A → Prop}
    [∀ s a, Decidable (fine s a)] : (s : S) → (as : List A) → Decidable (Along step fine s as)
  | _, [] => isTrue trivial
  | s, a :: rest =>
    match one : step s a with
    | none => decidable_of_iff (fine s a) (by simp [Along, one])
    | some t =>
      have := @decidableAlong step fine _ t rest
      decidable_of_iff (fine s a ∧ Along step fine t rest) (along_cons one).symm

theorem exec_along {step : S → A → Option S} {fine : S → A → Prop} {inv : S → Prop}
    (kept : ∀ s a t, inv s → fine s a → step s a = some t → inv t) {s t : S} (initial : inv s)
    {as : List A} (along : Along step fine s as) (ran : exec step s as = some t) : inv t := by
  induction as generalizing s with
  | nil =>
    cases ran
    exact initial
  | cons a rest ih =>
    obtain ⟨mid, here, later⟩ := Option.bind_eq_some_iff.mp ran
    exact ih (kept s a mid initial along.1 here) (along.2 mid here) later

theorem along_exec {step : S → A → Option S} {fine : S → A → Prop} {inv : S → Prop}
    (goes : ∀ s a, inv s → fine s a → ∃ t, step s a = some t ∧ inv t) {s : S} (initial : inv s)
    {as : List A} (along : Along step fine s as) : ∃ t, exec step s as = some t ∧ inv t := by
  induction as generalizing s with
  | nil => exact ⟨s, rfl, initial⟩
  | cons a rest ih =>
    obtain ⟨mid, here, kept⟩ := goes s a initial along.1
    obtain ⟨t, ran, reached⟩ := ih kept (along.2 mid here)
    exact ⟨t, Option.bind_eq_some_iff.mpr ⟨mid, here, ran⟩, reached⟩

/-- Some run with fine steps leads from one state to the other. -/
def Leads (step : S → A → Option S) (fine : S → A → Prop) (s t : S) : Prop :=
  ∃ as, Along step fine s as ∧ exec step s as = some t

theorem Leads.refl (step : S → A → Option S) (fine : S → A → Prop) (s : S) : Leads step fine s s :=
  ⟨[], trivial, rfl⟩

theorem Leads.step {step : S → A → Option S} {fine : S → A → Prop} {s t u : S} {a : A}
    (allowed : fine s a) (one : step s a = some t) (two : Leads step fine t u) :
    Leads step fine s u := by
  obtain ⟨rest, along, ran⟩ := two
  refine ⟨a :: rest, ⟨allowed, ?_⟩, Option.bind_eq_some_iff.mpr ⟨t, one, ran⟩⟩
  intro t' one'
  cases one.symm.trans one'
  exact along

theorem Along.append {step : S → A → Option S} {fine : S → A → Prop} {s t : S} {first rest : List A}
    (one : Along step fine s first) (ran : exec step s first = some t)
    (two : Along step fine t rest) : Along step fine s (first ++ rest) := by
  induction first generalizing s with
  | nil =>
    cases ran
    exact two
  | cons a first ih =>
    obtain ⟨mid, here, later⟩ := Option.bind_eq_some_iff.mp ran
    refine ⟨one.1, ?_⟩
    intro t' here'
    cases here.symm.trans here'
    exact ih (one.2 mid here) later

theorem Leads.trans {step : S → A → Option S} {fine : S → A → Prop} {s t u : S}
    (one : Leads step fine s t) (two : Leads step fine t u) : Leads step fine s u := by
  obtain ⟨first, along, ran⟩ := one
  obtain ⟨rest, along', ran'⟩ := two
  exact ⟨first ++ rest, along.append ran along', exec_append ran ran'⟩

/-- What some run does once, a run can do any number of times. -/
theorem Leads.repeat {step : S → A → Option S} {fine : S → A → Prop} {at_round : Nat → S → Prop}
    (round : ∀ n s, at_round n s → ∃ t, Leads step fine s t ∧ at_round (n + 1) t) (m n : Nat) {s : S}
    (initial : at_round n s) : ∃ t, Leads step fine s t ∧ at_round (n + m) t := by
  induction m with
  | zero => exact ⟨s, Leads.refl step fine s, initial⟩
  | succ m ih =>
    obtain ⟨mid, leads, there⟩ := ih
    obtain ⟨t, more, done⟩ := round (n + m) mid there
    exact ⟨t, leads.trans more, done⟩

theorem Along.and {step : S → A → Option S} {fine : S → A → Prop} {good : A → Prop} {s : S}
    {as : List A} (along : Along step fine s as) (all : ∀ a ∈ as, good a) :
    Along step (fun s a => fine s a ∧ good a) s as := by
  induction as generalizing s with
  | nil => trivial
  | cons a rest ih =>
    refine ⟨⟨along.1, all a List.mem_cons_self⟩, ?_⟩
    intro t here
    exact ih (along.2 t here) fun b inside => all b (List.mem_cons_of_mem a inside)

end Steps
