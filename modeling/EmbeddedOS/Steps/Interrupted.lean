import Mathlib.Data.List.Basic

/-! Runs of a system that something interrupts between its steps, beside the run that nothing does. -/
namespace Steps

inductive Event where
  | step | irq
  deriving DecidableEq

section
variable {S A : Type} (step : S → Option S) (enabled : S → Bool)

/-- A run with interruptions at these places, and what they pass on. -/
inductive Interrupted (intr : S → List A → S → Prop) : S → List Event → List A → S → Prop where
  | done (s : S) : Interrupted intr s [] [] s
  | step {s t u : S} {events : List Event} {told : List A} (one : step s = some t)
      (later : Interrupted intr t events told u) : Interrupted intr s (.step :: events) told u
  | irq {s t u : S} {events : List Event} {first told : List A} (on : enabled s = true)
      (one : intr s first t) (later : Interrupted intr t events told u) :
      Interrupted intr s (.irq :: events) (first ++ told) u

/-- The same steps with no interruption, and a note of each place where one may come. -/
def alone (note : S → A) : List Event → S → Option (List A × S)
  | [], s => some ([], s)
  | .step :: events, s => (step s).bind (alone note events)
  | .irq :: events, s =>
    if enabled s then (alone note events s).map fun (told, t) => (note s :: told, t) else none

def quiet : Nat → S → Option S
  | 0, s => some s
  | k + 1, s => (step s).bind (quiet k)

end

variable {S A : Type} {step : S → Option S} {enabled : S → Bool} {intr : S → List A → S → Prop}
  {note : S → A} {same : S → S → Prop} {legal : S → Prop}

theorem alone_quiet {events : List Event} {s t : S} {told : List A}
    (ran : alone step enabled note events s = some (told, t)) :
    quiet step (events.count .step) s = some t := by
  induction events generalizing s told with
  | nil =>
    cases ran
    rfl
  | cons e events ih =>
    cases e with
    | step =>
      obtain ⟨mid, one, later⟩ := Option.bind_eq_some_iff.mp ran
      rw [List.count_cons_self]
      exact Option.bind_eq_some_iff.mpr ⟨mid, one, ih later⟩
    | irq =>
      simp only [alone] at ran
      split at ran
      · obtain ⟨⟨others, u⟩, later, whole⟩ := Option.map_eq_some_iff.mp ran
        cases whole
        rw [List.count_cons_of_ne (by decide)]
        exact ih later
      · cases ran

theorem alone_stays (stays : ∀ {s t}, legal s → step s = some t → legal t) {events : List Event}
    {s t : S} {told : List A} (ok : legal s)
    (ran : alone step enabled note events s = some (told, t)) : legal t := by
  induction events generalizing s told with
  | nil =>
    cases ran
    exact ok
  | cons e events ih =>
    cases e with
    | step =>
      obtain ⟨mid, one, later⟩ := Option.bind_eq_some_iff.mp ran
      exact ih (stays ok one) later
    | irq =>
      simp only [alone] at ran
      split at ran
      · obtain ⟨⟨others, u⟩, later, whole⟩ := Option.map_eq_some_iff.mp ran
        cases whole
        exact ih ok later
      · cases ran

/-- Interruptions that change nothing a step can see, for the states that the steps stay in. -/
structure Silent (step : S → Option S) (enabled : S → Bool) (intr : S → List A → S → Prop)
    (note : S → A) (same : S → S → Prop) (legal : S → Prop) : Prop where
  comm : ∀ {s t}, same s t → same t s
  trans : ∀ {s t u}, same s t → same t u → same s u
  stays : ∀ {s t}, legal s → step s = some t → legal t
  across : ∀ {s t}, legal s → same s t → legal t ∧ enabled t = enabled s ∧ note t = note s
  blind : ∀ {s t u}, legal s → same s t → step s = some u → ∃ v, step t = some v ∧ same u v
  quiet : ∀ {s t told}, legal s → enabled s → intr s told t → told = [note s] ∧ same s t
  returns : ∀ {s}, legal s → enabled s → ∃ told t, intr s told t

section
variable (silent : Silent step enabled intr note same legal)
include silent

theorem Silent.forward {s t u : S} {events : List Event} {told : List A} (ok : legal s)
    (twin : same s t) (ran : Interrupted step enabled intr s events told u) :
    ∃ v, alone step enabled note events t = some (told, v) ∧ same u v := by
  induction ran generalizing t with
  | done s => exact ⟨t, rfl, twin⟩
  | step one later ih =>
    obtain ⟨mid, other, twin'⟩ := silent.blind ok twin one
    obtain ⟨v, run, final⟩ := ih (silent.stays ok one) twin'
    exact ⟨v, Option.bind_eq_some_iff.mpr ⟨mid, other, run⟩, final⟩
  | irq on one later ih =>
    obtain ⟨rfl, kept⟩ := silent.quiet ok on one
    obtain ⟨ok', -, -⟩ := silent.across ok kept
    obtain ⟨-, on', noted⟩ := silent.across ok twin
    obtain ⟨v, run, final⟩ := ih ok' (silent.trans (silent.comm kept) twin)
    refine ⟨v, ?_, final⟩
    simp [alone, on', on, run, noted]

theorem Silent.backward {s t v : S} {events : List Event} {told : List A} (ok : legal s)
    (twin : same s t) (ran : alone step enabled note events t = some (told, v)) :
    ∃ u, Interrupted step enabled intr s events told u ∧ same u v := by
  induction events generalizing s t told with
  | nil =>
    cases ran
    exact ⟨s, .done s, twin⟩
  | cons e events ih =>
    obtain ⟨ok', on', noted⟩ := silent.across ok twin
    cases e with
    | step =>
      obtain ⟨mid, one, later⟩ := Option.bind_eq_some_iff.mp ran
      obtain ⟨mid', one', twin'⟩ := silent.blind ok' (silent.comm twin) one
      obtain ⟨u, run, final⟩ := ih (silent.stays ok one') (silent.comm twin') later
      exact ⟨u, .step one' run, final⟩
    | irq =>
      simp only [alone] at ran
      split at ran
      · rename_i on
        obtain ⟨⟨others, w⟩, later, whole⟩ := Option.map_eq_some_iff.mp ran
        cases whole
        obtain ⟨first, mid, one⟩ := silent.returns ok (on'.symm.trans on)
        obtain ⟨rfl, kept⟩ := silent.quiet ok (on'.symm.trans on) one
        obtain ⟨okMid, -, -⟩ := silent.across ok kept
        obtain ⟨u, run, final⟩ := ih okMid (silent.trans (silent.comm kept) twin) later
        rw [noted]
        exact ⟨u, .irq (on'.symm.trans on) one run, final⟩
      · cases ran

end

end Steps
