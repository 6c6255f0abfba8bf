import EmbeddedOS.GpioInt.Handlers

/-! Where an edge only comes when the one before has been served, the handlers count every edge. -/
namespace EmbeddedOS.GpioInt
open Mmio

/-- No edge comes to the pin while its event is there. -/
def settled (s : Pins) (p : Fin 32) : Prop := p = looped → s.event looped = false

def Client.up : Client → Bool
  | .falling => false
  | .rising | .riseFall _ => true

def Client.down : Client → Bool
  | .rising => false
  | .falling | .riseFall _ => true

/-- The edges that a client asks for, since r₀ rising and f₀ falling ones had come. -/
def Client.rises (c : Client) (r₀ : Nat) (s : Pins) : Nat := if c.up then s.rises looped - r₀ else 0

def Client.falls (c : Client) (f₀ : Nat) (s : Pins) : Nat := if c.down then s.falls looped - f₀ else 0

/-- The counts, which wrap around, against the edges since r₀ rising and f₀ falling ones had come, with an edge
that is due to be counted; all interrupts but the last k have counted one. Of all pins only this one is watched. -/
structure Tally (c : Client) (m₀ : Counts) (r₀ f₀ : Nat) (m : Counts) (due : Bool) (k : Nat) (s : Pins) : Prop where
  watched_up : ∀ p, s.rising p = (decide (p = looped) && c.up)
  watched_down : ∀ p, s.falling p = (decide (p = looped) && c.down)
  events : ∀ p, s.event p = true → p = looped
  caused : s.event looped = true → (if s.level looped then c.up else c.down) = true
  rose : r₀ ≤ s.rises looped
  fell : f₀ ≤ s.falls looped
  rises : m.nRising + UInt32.ofNat (due && s.level looped).toNat = m₀.nRising + UInt32.ofNat (c.rises r₀ s)
  falls : m.nFalling + UInt32.ofNat (due && ! s.level looped).toNat = m₀.nFalling + UInt32.ofNat (c.falls f₀ s)
  began : m₀.taken ≤ m.taken
  interrupts : m.nInterrupt = m₀.nInterrupt + UInt32.ofNat (m.taken - m₀.taken)
  served : m.taken + due.toNat ≤ m₀.taken + (c.rises r₀ s + c.falls f₀ s) + k

/-- Every edge is counted or there as an event. -/
def Exact (c : Client) (m₀ : Counts) (r₀ f₀ : Nat) (k : Nat) (m : Counts) (s : Pins) : Prop :=
  Tally c m₀ r₀ f₀ m (s.event looped) k s

section Edges

variable {c : Client} {m₀ m : Counts} {r₀ f₀ k : Nat} {due : Bool} {s : Pins}

theorem event_edge {up down : Bool} (watched_up : ∀ p, s.rising p = (decide (p = looped) && up))
    (watched_down : ∀ p, s.falling p = (decide (p = looped) && down)) (p q : Fin 32) :
    (s.edge p).event q = (s.event q || (decide (p = looped) && decide (q = looped) &&
      if s.level looped then down else up)) := by
  change (s.event q || (q == p && if s.level q = true then s.falling q else s.rising q)) = _
  rw [watched_up, watched_down]
  by_cases here : q = looped
  · subst here
    by_cases same : p = looped
    · subst same
      simp
    · have apart : ¬ looped = p := fun eq => same eq.symm
      simp [same, apart]
  · simp [here]

theorem Tally.apart (tally : Tally c m₀ r₀ f₀ m due k s) {p : Fin 32} (apart : p ≠ looped) :
    Tally c m₀ r₀ f₀ m due k (s.edge p) := by
  obtain ⟨level, event, rises, falls⟩ := edge_apart apart s
  have asked_up : c.rises r₀ (s.edge p) = c.rises r₀ s := by simp only [Client.rises, rises]
  have asked_down : c.falls f₀ (s.edge p) = c.falls f₀ s := by simp only [Client.falls, falls]
  refine ⟨tally.watched_up, tally.watched_down, fun q there => ?_, ?_, ?_, ?_, ?_, ?_, tally.began, tally.interrupts,
    ?_⟩
  · rw [event_edge tally.watched_up tally.watched_down] at there
    simp only [apart, decide_false, Bool.false_and, Bool.or_false] at there
    exact tally.events q there
  · rw [event, level]
    exact tally.caused
  · rw [rises]
    exact tally.rose
  · rw [falls]
    exact tally.fell
  · rw [level, asked_up]
    exact tally.rises
  · rw [level, asked_down]
    exact tally.falls
  · rw [asked_up, asked_down]
    exact tally.served

theorem asked_edge (rose : r₀ ≤ s.rises looped) (fell : f₀ ≤ s.falls looped) :
    c.rises r₀ (s.edge looped) = c.rises r₀ s + (c.up && ! s.level looped).toNat ∧
      c.falls f₀ (s.edge looped) = c.falls f₀ s + (c.down && s.level looped).toNat := by
  obtain ⟨_, rises, falls⟩ := edge_here s
  simp only [Client.rises, Client.falls, rises, falls]
  constructor
  · cases c.up <;> cases s.level looped <;> simp [Nat.sub_add_comm rose]
  · cases c.down <;> cases s.level looped <;> simp [Nat.sub_add_comm fell]

theorem Exact.here (exact : Exact c m₀ r₀ f₀ k m s) (free : s.event looped = false) :
    Exact c m₀ r₀ f₀ k m (s.edge looped) := by
  obtain ⟨level, rises, falls⟩ := edge_here s
  obtain ⟨asked_up, asked_down⟩ := asked_edge (c := c) exact.rose exact.fell
  have event : (s.edge looped).event looped = if s.level looped then c.down else c.up := by
    rw [event_edge exact.watched_up exact.watched_down, free]
    simp
  have counted := exact.rises
  have counted' := exact.falls
  have served := exact.served
  rw [free] at counted counted' served
  refine ⟨exact.watched_up, exact.watched_down, fun q there => ?_, ?_, ?_, ?_, ?_, ?_, exact.began, exact.interrupts,
    ?_⟩
  · rw [event_edge exact.watched_up exact.watched_down] at there
    by_contra other
    simp only [other, decide_false, Bool.and_false, Bool.false_and, Bool.or_false] at there
    exact other (exact.events q there)
  · rw [event, level]
    cases s.level looped <;> simp
  · rw [rises]
    exact Nat.le_add_right_of_le exact.rose
  · rw [falls]
    exact Nat.le_add_right_of_le exact.fell
  · have due : ((if s.level looped then c.down else c.up) && ! s.level looped) = (c.up && ! s.level looped) := by
      cases s.level looped <;> simp
    rw [event, level, asked_up, due, UInt32.ofNat_add, ← UInt32.add_assoc, ← counted]
    simp
  · have due : ((if s.level looped then c.down else c.up) && ! ! s.level looped) = (c.down && s.level looped) := by
      cases s.level looped <;> simp
    rw [event, level, asked_down, due, UInt32.ofNat_add, ← UInt32.add_assoc, ← counted']
    simp
  · have due : (if s.level looped then c.down else c.up).toNat =
        (c.up && ! s.level looped).toNat + (c.down && s.level looped).toNat := by
      cases s.level looped <;> simp
    rw [event, asked_up, asked_down, due]
    simp only [Bool.toNat_false] at served
    omega

theorem exact_stable : Stable pins settled (Exact c m₀ r₀ f₀ k m) := by
  refine stable_of_edges fun s p here allowed => ?_
  by_cases same : p = looped
  · subst same
    exact here.here (allowed rfl)
  · obtain ⟨_, event, _⟩ := edge_apart same s
    exact (congrArg (fun e => Tally c m₀ r₀ f₀ m e k (s.edge p)) event).mpr (here.apart same)

/-- Where h is said of a level, the event is there and the pin has that level. -/
def Known (c : Client) (m₀ : Counts) (r₀ f₀ : Nat) (h : Bool → Prop) (k : Nat) (m : Counts) (s : Pins) : Prop :=
  Exact c m₀ r₀ f₀ k m s ∧ ∀ l, h l → s.event looped = true ∧ s.level looped = l

theorem known_edge {h : Bool → Prop} {p : Fin 32} (known : Known c m₀ r₀ f₀ h k m s) (allowed : settled s p) :
    Known c m₀ r₀ f₀ h k m (s.edge p) := by
  refine ⟨exact_stable s p _ known.1 allowed rfl, fun l said => ?_⟩
  obtain ⟨there, level⟩ := known.2 l said
  have apart : p ≠ looped := fun same => Bool.noConfusion (there.symm.trans (allowed same))
  obtain ⟨level', event, _⟩ := edge_apart apart s
  exact ⟨event.trans there, level'.trans level⟩

theorem known_stable (h : Bool → Prop) : Stable pins settled (Known c m₀ r₀ f₀ h k m) :=
  stable_of_edges fun _ _ known allowed => known_edge known allowed

theorem Tally.count (tally : Tally c m₀ r₀ f₀ m true k s) (small : k ≤ 1) :
    Tally c m₀ r₀ f₀ (m.count (s.level looped)) false 0 s := by
  have rises := tally.rises
  have falls := tally.falls
  have served := tally.served
  have same : (m.count (s.level looped)).taken = m.taken ∧
      (m.count (s.level looped)).nInterrupt = m.nInterrupt := by
    cases s.level looped <;> exact ⟨rfl, rfl⟩
  refine ⟨tally.watched_up, tally.watched_down, tally.events, tally.caused, tally.rose, tally.fell, ?_, ?_, ?_, ?_, ?_⟩
  · rw [← rises]
    cases s.level looped <;> simp [Counts.count]
  · rw [← falls]
    cases s.level looped <;> simp [Counts.count]
  · rw [same.1]
    exact tally.began
  · rw [same.1, same.2]
    exact tally.interrupts
  · rw [same.1]
    simp only [Bool.toNat_true, Bool.toNat_false] at served ⊢
    omega

theorem Tally.cleared (tally : Tally c m₀ r₀ f₀ m false k s) : Exact c m₀ r₀ f₀ k m s.cleared := by
  have gone : s.cleared.event looped = false := by simp [Pins.cleared]
  refine ⟨tally.watched_up, tally.watched_down, fun p there => ?_, fun there => ?_, tally.rose, tally.fell, ?_, ?_,
    tally.began, tally.interrupts, ?_⟩
  · exact tally.events p (Bool.and_eq_true_iff.mp there).1
  · cases gone.symm.trans there
  · rw [gone]
    exact tally.rises
  · rw [gone]
    exact tally.falls
  · rw [gone]
    exact tally.served

theorem Tally.interrupted (tally : Tally c m₀ r₀ f₀ m due 0 s) : Tally c m₀ r₀ f₀ m.interrupted due 1 s := by
  have began := tally.began
  have served := tally.served
  refine ⟨tally.watched_up, tally.watched_down, tally.events, tally.caused, tally.rose, tally.fell, tally.rises,
    tally.falls, Nat.le_succ_of_le began, ?_, ?_⟩
  · change m.nInterrupt + 1 = m₀.nInterrupt + UInt32.ofNat (m.taken + 1 - m₀.taken)
    rw [Nat.sub_add_comm began, UInt32.ofNat_add, ← UInt32.add_assoc, ← tally.interrupts]
    rfl
  · change m.taken + 1 + due.toNat ≤ _
    omega

theorem Tally.weaken (tally : Tally c m₀ r₀ f₀ m due k s) {k' : Nat} (more : k ≤ k') :
    Tally c m₀ r₀ f₀ m due k' s :=
  { tally with served := Nat.le_trans tally.served (Nat.add_le_add_left more _) }

end Edges

section Handlers

/-- What holds at any moment. -/
def Recorded (c : Client) (m₀ : Counts) (r₀ f₀ : Nat) (m : Counts) (s : Pins) : Prop :=
  ∃ due, Tally c m₀ r₀ f₀ m due 1 s ∧ (due = true → s.event looped = true)

variable {c : Client} {m₀ m : Counts} {r₀ f₀ k : Nat} {s : Pins}

theorem Exact.recorded (exact : Exact c m₀ r₀ f₀ k m s) (small : k ≤ 1) : Recorded c m₀ r₀ f₀ m s :=
  ⟨_, exact.weaken small, fun there => there⟩

/-- What a handler leaves where it returns: it has counted an edge, or known was what it had not to count. -/
def Answered (c : Client) (m₀ : Counts) (r₀ f₀ : Nat) (known : Option Bool) (k : Nat) (a : UInt32) (m : Counts)
    (s : Pins) : Prop :=
  a = 0 ∧ Known c m₀ r₀ f₀ (known = some ·) k m s ∨ a = 1 ∧ Exact c m₀ r₀ f₀ 0 m s

theorem answered_stable {known : Option Bool} (a : UInt32) (m : Counts) :
    Stable pins settled (Answered c m₀ r₀ f₀ known k a m) := by
  refine stable_of_edges ?_
  rintro t p (⟨zero, here⟩ | ⟨one, here⟩) allowed
  · exact .inl ⟨zero, known_edge here allowed⟩
  · exact .inr ⟨one, exact_stable t p _ here allowed rfl⟩

theorem Known.counted {b : Bool} (here : Known c m₀ r₀ f₀ (· = b) k m s) (small : k ≤ 1) :
    Tally c m₀ r₀ f₀ (m.count b) false 0 s := by
  obtain ⟨there, level⟩ := here.2 b rfl
  have due : Tally c m₀ r₀ f₀ m true k s := there ▸ here.1
  exact level ▸ due.count small

theorem exact_handler {b : Bool} (known : Option Bool) (small : k ≤ 1)
    (holds : Known c m₀ r₀ f₀ (known = some ·) k m s) :
    Guards pins settled (Recorded c m₀ r₀ f₀) (fun r m t => r.elim False fun a =>
      Answered c m₀ r₀ f₀ known k a m t ∧ (known = some b → a = 1))
      (edgeHandler b.toNat fun m => m.count b) m s := by
  refine handler_guards (P := Known c m₀ r₀ f₀ (known = some ·) k m)
    (Q := fun a m t => Answered c m₀ r₀ f₀ known k a m t ∧ (known = some b → a = 1))
    (D := fun e t => Known c m₀ r₀ f₀ (known = some ·) k m t ∧ (e = true → t.event looped = true) ∧
      (e = false → known = none))
    (L := fun l t => Known c m₀ r₀ f₀ (· = l) k m t ∧ ∀ l', known = some l' → l' = l)
    (known_stable _) ?_ ?_ ?_ ?_ (fun _ here => here.1.recorded small)
    (fun _ _ here => here.1.1.recorded small) (fun _ _ here => here.1.1.recorded small) ?_ ?_ ?_ ?_
    ?_ ?_ holds
  · intro e
    refine stable_of_edges ?_
    rintro t p ⟨here, there, unknown⟩ allowed
    refine ⟨known_edge here allowed, fun same => ?_, unknown⟩
    have apart : p ≠ looped := fun eq => Bool.noConfusion ((there same).symm.trans (allowed eq))
    exact (edge_apart apart t).2.1.trans (there same)
  · intro l
    refine stable_of_edges ?_
    rintro t p ⟨here, said⟩ allowed
    exact ⟨known_edge here allowed, said⟩
  · intro a m
    refine stable_of_edges ?_
    rintro t p ⟨here, rest⟩ allowed
    exact ⟨answered_stable a m t p _ here allowed rfl, rest⟩
  · rintro a m t ⟨⟨_, here⟩ | ⟨_, here⟩, _⟩
    · exact here.1.recorded small
    · exact here.recorded (Nat.zero_le 1)
  · rintro t ⟨here, _⟩
    exact ⟨false, (here.counted small).weaken (Nat.zero_le 1), fun none => Bool.noConfusion none⟩
  · intro t here
    refine ⟨here, fun there => there, fun none => ?_⟩
    cases sure : known with
    | none => rfl
    | some l => cases none.symm.trans (here.2 l sure).1
  · rintro t ⟨here, _, unknown⟩
    refine ⟨.inl ⟨rfl, here⟩, fun sure => ?_⟩
    cases sure.symm.trans (unknown rfl)
  · rintro t ⟨here, there, _⟩
    exact ⟨⟨here.1, fun l said => ⟨there rfl, said.symm⟩⟩, fun l said => (here.2 l said).2.symm⟩
  · rintro t ⟨here, sure⟩
    refine ⟨.inl ⟨rfl, here.1, fun l said => here.2 l (sure l said)⟩, fun said => ?_⟩
    have impossible := sure b said
    cases b <;> cases impossible
  · rintro t ⟨here, _⟩
    exact ⟨.inr ⟨rfl, (here.counted small).cleared⟩, fun _ => rfl⟩

/-- Where a handler or two return: an edge has been counted if one was sure to be there. -/
def Handled (c : Client) (m₀ : Counts) (r₀ f₀ : Nat) : Option UInt32 → Counts → Pins → Prop := fun r m t =>
  r.elim False fun a => Exact c m₀ r₀ f₀ 0 m t ∧ a ≠ 0

theorem Known.sure {l : Bool} (known : Known c m₀ r₀ f₀ (· = l) k m s) :
    Known c m₀ r₀ f₀ (some l = some ·) k m s :=
  ⟨known.1, fun l' said => known.2 l' (Option.some.inj said).symm⟩

theorem exact_one {b l : Bool} (holds : Known c m₀ r₀ f₀ (· = l) 1 m s) (same : l = b) :
    Guards pins settled (Recorded c m₀ r₀ f₀) (Handled c m₀ r₀ f₀) (edgeHandler b.toNat fun m => m.count b) m s := by
  subst same
  refine (exact_handler (some l) (Nat.le_refl 1) holds.sure).weaken (fun _ _ here => here) ?_
  intro r m t here
  cases r with
  | none => exact here
  | some a =>
    obtain ⟨⟨zero, _⟩ | ⟨one, exact⟩, counts⟩ := here
    · cases zero.symm.trans (counts rfl)
    · exact ⟨exact, one ▸ by decide⟩

theorem exact_two {b l : Bool} (combine : UInt32 → UInt32 → UInt32)
    (either : ∀ x, combine 1 x ≠ 0 ∧ combine x 1 ≠ 0) (holds : Known c m₀ r₀ f₀ (· = l) 1 m s) :
    Guards pins settled (Recorded c m₀ r₀ f₀) (Handled c m₀ r₀ f₀)
      (do let x ← edgeHandler b.toNat fun m => m.count b
          let y ← edgeHandler (! b).toNat fun m => m.count (! b)
          pure (combine x y)) m s := by
  have ends {x y : UInt32} {m : Counts} {t : Pins} (counted : combine x y ≠ 0) (exact : Exact c m₀ r₀ f₀ 0 m t) :
      Guards pins settled (Recorded c m₀ r₀ f₀) (Handled c m₀ r₀ f₀) (pure (combine x y)) m t :=
    guards_ret (P := Exact c m₀ r₀ f₀ 0 m) exact_stable (fun _ there => there.recorded (Nat.zero_le 1))
      (fun _ there => ⟨there, counted⟩) exact
  refine guards_bind (exact_handler (some l) (Nat.le_refl 1) holds.sure) ?_ fun _ _ none => none.elim
  rintro x m t ⟨⟨zero, known⟩ | ⟨one, exact⟩, counts⟩
  · subst zero
    have other : some l = some (! b) := by
      cases l <;> cases b <;> first | rfl | exact absurd (counts rfl) (by decide)
    refine guards_bind (exact_handler (b := ! b) (some l) (Nat.le_refl 1) known) ?_ fun _ _ none => none.elim
    rintro y m t ⟨⟨zero, _⟩ | ⟨one, exact⟩, counts⟩
    · cases zero.symm.trans (counts other)
    · subst one
      exact ends (either 0).2 exact
  · subst one
    refine guards_bind (exact_handler (b := ! b) none (Nat.zero_le 1) ⟨exact, fun l' said => by cases said⟩) ?_
      fun _ _ none => none.elim
    rintro y m t ⟨⟨_, known⟩ | ⟨_, exact⟩, _⟩
    · exact ends (either y).1 known.1
    · exact ends (either y).1 exact

theorem one_or (x : UInt32) : (1 : UInt32) ||| x ≠ 0 ∧ x ||| 1 ≠ 0 := by
  have left : (1 : UInt32) ||| x ≠ 0 := by
    intro zero
    have none : 1 ||| x.toNat = 0 := (UInt32.toNat_or 1 x).symm.trans (congrArg UInt32.toNat zero)
    cases (Nat.or_eq_zero_iff.mp none).1
  exact ⟨left, UInt32.or_comm 1 x ▸ left⟩

theorem exact_client {l : Bool} (holds : Known c m₀ r₀ f₀ (· = l) 1 m s) :
    Guards pins settled (Recorded c m₀ r₀ f₀) (Handled c m₀ r₀ f₀) c.handler m s := by
  obtain ⟨there, level⟩ := holds.2 l rfl
  have caused := holds.1.caused there
  rw [level] at caused
  cases c with
  | falling => exact exact_one (b := false) holds (by cases l <;> first | rfl | cases caused)
  | rising => exact exact_one (b := true) holds (by cases l <;> first | rfl | cases caused)
  | riseFall risingFirst =>
    cases risingFirst with
    | true => exact exact_two (b := true) (fun x y => x ||| y) one_or holds
    | false => exact exact_two (b := false) (fun x y => y ||| x) (fun x => (one_or x).symm) holds

theorem exact_vector {l : Bool} (holds : Known c m₀ r₀ f₀ (· = l) 0 m s) :
    Guards pins settled (Recorded c m₀ r₀ f₀)
      (fun r m t => r.elim False fun _ => Exact c m₀ r₀ f₀ 0 m t) (interruptVector c.handler) m s := by
  have same {t : Pins} (here : Known c m₀ r₀ f₀ (· = l) 0 m t) : Known c m₀ r₀ f₀ (· = l) 1 m.interrupted t :=
    ⟨Tally.interrupted here.1, here.2⟩
  refine guards_memory_bind (known_stable _) (fun _ here => here.1.recorded (Nat.zero_le 1))
    (fun _ here => (same here).1.recorded (Nat.le_refl 1)) (fun t here => ?_) holds
  refine guards_bind (exact_client (same here)) ?_ fun _ _ none => none.elim
  rintro a m t ⟨exact, handled⟩
  rw [if_neg handled]
  exact guards_ret (P := Exact c m₀ r₀ f₀ 0 m) exact_stable (fun _ there => there.recorded (Nat.zero_le 1))
    (fun _ there => there) exact

theorem line_raised (exact : Exact c m₀ r₀ f₀ k m s) (raised : s.load .line ≠ 0) : s.event looped = true := by
  have pending : (s.enabled && s.pending) = true := by
    by_contra low
    exact raised (if_neg low)
  obtain ⟨p, _, there⟩ := List.any_eq_true.mp (Bool.and_eq_true_iff.mp pending).2
  exact exact.events p there ▸ there

theorem exact_interrupts (exact : Exact c m₀ r₀ f₀ 0 m s) :
    Guards pins settled (Recorded c m₀ r₀ f₀) (fun r _ _ => r.isSome) (interrupts c) m s := by
  refine guards_iter (J := fun _ m t => Exact c m₀ r₀ f₀ 0 m t) (fun _ _ => exact_stable)
    (fun _ _ _ here => here.recorded (Nat.zero_le 1)) ?_ exact
  intro _ m t exact
  refine guards_call_bind (R := fun _ t => ∃ l, Known c m₀ r₀ f₀ (· = l) 0 m t) ?_ ?_
  · refine safe_poll (P := Exact c m₀ r₀ f₀ 0 m) exact_stable (fun _ here => here.recorded (Nat.zero_le 1))
      (fun _ here _ => here) ?_ exact
    intro t here raised
    have there := line_raised here (of_decide_eq_true raised)
    refine safe_ret (P := Known c m₀ r₀ f₀ (· = t.level looped) 0 m) (known_stable _)
      (fun _ here => here.1.recorded (Nat.zero_le 1)) (fun _ here => ⟨_, here⟩) ⟨here, ?_⟩
    rintro l rfl
    exact ⟨there, rfl⟩
  · rintro _ t ⟨l, here⟩
    refine guards_bind (exact_vector here) ?_ fun _ _ none => none.elim
    intro _ m t exact
    exact guards_ret (P := Exact c m₀ r₀ f₀ 0 m) exact_stable (fun _ there => there.recorded (Nat.zero_le 1))
      (fun _ there => there) exact

end Handlers

section Startup

/-- What is watched once part of the set up is done. -/
structure Armed (up down : Bool) (s : Pins) : Prop where
  watched_up : ∀ p, s.rising p = (decide (p = looped) && up)
  watched_down : ∀ p, s.falling p = (decide (p = looped) && down)
  events : ∀ p, s.event p = true → p = looped

variable {up down : Bool} {m : Counts} {s : Pins}

theorem armed_stable : Stable pins settled (Armed up down) := by
  refine stable_of_edges fun s p armed _ => ⟨armed.watched_up, armed.watched_down, fun q there => ?_⟩
  rw [event_edge armed.watched_up armed.watched_down] at there
  by_contra other
  simp only [other, decide_false, Bool.and_false, Bool.false_and, Bool.or_false] at there
  exact other (armed.events q there)

theorem armed_store {reg : Reg} {v : UInt32} (keeps : ∀ s : Pins, (s.store reg v).rising = s.rising ∧
      (s.store reg v).falling = s.falling ∧ (s.store reg v).event = s.event) (armed : Armed up down s) :
    Safe pins settled (fun _ => True) (fun _ => Armed up down) (store reg v) s := by
  refine safe_writes armed_stable (fun _ _ => trivial) armed_stable (fun _ _ => trivial) (fun t here => ?_) armed
  obtain ⟨rising, falling, event⟩ := keeps t
  exact ⟨rising ▸ here.watched_up, falling ▸ here.watched_down, event ▸ here.events⟩

theorem armed_write (v : UInt32) (armed : Armed up down s) :
    Safe pins settled (fun _ => True) (fun _ => Armed up down) (gpioWrite outPin v) s := by
  change Safe pins settled _ _ (if v ≠ 0 then _ else _) s
  split
  · exact armed_store (fun _ => ⟨rfl, rfl, rfl⟩) armed
  · exact armed_store (fun _ => ⟨rfl, rfl, rfl⟩) armed

/-- One more edge of the pin is watched, by a register that held what was watched before. -/
theorem armed_int {reg : Reg} (up' down' old : Bool)
    (loads : ∀ s : Pins, Armed up down s → ∀ p, Pins.bits (s.load reg) p = (decide (p = looped) && old))
    (stores : ∀ (s : Pins) (v : UInt32), Armed up down s → (∀ p, Pins.bits v p = (decide (p = looped) && true)) →
      Armed up' down' (s.store reg v)) (armed : Armed up down s) :
    Safe pins settled (fun _ => True) (fun _ => Armed up' down') (gpioIntEdge reg inPin) s := by
  refine safe_load armed_stable (fun _ _ => trivial) (fun t here => ?_) armed
  refine safe_store armed_stable (fun _ _ => trivial) (fun t' here' => ?_) here
  refine armed_store (fun _ => ⟨rfl, rfl, rfl⟩) (stores t' _ here' fun p => ?_)
  change Pins.bits (t.load reg ||| (1 <<< UInt32.ofNat looped)) p = _
  rw [bits_or, bits_one, loads t here]
  cases old <;> cases decide (p = looped) <;> rfl

theorem armed_falling (armed : Armed up down s) :
    Guards pins settled (fun _ _ => True) (fun r m' t => r.elim True fun _ => m' = m ∧ Armed up true t)
      fallingInit m s := by
  refine guards_call_bind (armed_write 1 armed) fun _ t here => guards_call ?_
  refine (armed_int up true down (fun t here p => ?_) (fun t v here bits => ?_) here).weaken
    (fun _ _ => trivial) fun _ _ there => ⟨rfl, there⟩
  · change Pins.bits (Pins.word t.falling) p = _
    rw [bits_word, here.watched_down]
  · exact ⟨here.watched_up, bits, here.events⟩

theorem armed_rising (armed : Armed up down s) :
    Guards pins settled (fun _ _ => True) (fun r m' t => r.elim True fun _ => m' = m ∧ Armed true down t)
      risingInit m s := by
  refine guards_call_bind (armed_write 0 armed) fun _ t here => guards_call ?_
  refine (armed_int true down up (fun t here p => ?_) (fun t v here bits => ?_) here).weaken
    (fun _ _ => trivial) fun _ _ there => ⟨rfl, there⟩
  · change Pins.bits (Pins.word t.rising) p = _
    rw [bits_word, here.watched_up]
  · exact ⟨bits, here.watched_down, here.events⟩

theorem armed_init (c : Client) (armed : Armed false false s) :
    Guards pins settled (fun _ _ => True) (fun r m' t => r.elim True fun _ => m' = m ∧ Armed c.up c.down t)
      c.init m s := by
  cases c with
  | falling => exact armed_falling armed
  | rising => exact armed_rising armed
  | riseFall risingFirst =>
    refine guards_bind (armed_rising armed) ?_ fun _ _ _ => trivial
    rintro _ m' t ⟨same, here⟩
    subst same
    refine guards_bind (armed_falling here) ?_ fun _ _ _ => trivial
    rintro _ m' t ⟨same, here⟩
    subst same
    refine guards_call_bind (R := fun _ => Armed true true) ?_ fun level t here => ?_
    · exact safe_reads armed_stable (fun _ _ => trivial) (fun _ => armed_stable) (fun _ _ _ => trivial)
        (fun _ there => there) here
    · split
      · exact guards_ret armed_stable (fun _ _ => trivial) (fun _ there => ⟨rfl, there⟩) here
      · exact guards_halt armed_stable (fun _ _ => trivial) (fun _ _ => trivial) here

theorem Armed.exact {c : Client} (armed : Armed c.up c.down s) :
    Exact c m (s.rises looped) (s.falls looped) 0 m s.cleared := by
  have gone : s.cleared.event looped = false := by simp [Pins.cleared]
  have none_up : c.rises (s.rises looped) s.cleared = 0 := by
    simp only [Client.rises, Pins.cleared, Nat.sub_self, ite_self]
  have none_down : c.falls (s.falls looped) s.cleared = 0 := by
    simp only [Client.falls, Pins.cleared, Nat.sub_self, ite_self]
  refine ⟨armed.watched_up, armed.watched_down, fun p there => ?_, fun there => ?_, Nat.le_refl _, Nat.le_refl _,
    ?_, ?_, Nat.le_refl _, ?_, ?_⟩
  · exact armed.events p (Bool.and_eq_true_iff.mp there).1
  · cases gone.symm.trans there
  · rw [gone, none_up]
    rfl
  · rw [gone, none_down]
    rfl
  · rw [Nat.sub_self]
    exact (UInt32.add_zero _).symm
  · rw [gone, none_up, none_down]
    exact Nat.le_refl _

/-- The moment u of a start up at which the event of the pin is cleared. -/
structure ClearedAt (c : Client) (m : Counts) (s u : Pins) (m' : Counts) (t : Pins) : Prop where
  reached : Runs pins settled ⟨testStartup c, m, s⟩ ⟨.call (gpioEventClear inPin), m', u⟩
  clears : Program.fire pins (.call (gpioEventClear inPin)) m' u = some ⟨.call (.ret ()), m', u.cleared⟩
  returned : Runs pins settled ⟨.call (.ret ()), m', u.cleared⟩ ⟨.ret (), m', t⟩

theorem startup_clears (c : Client) {m' : Counts} {t : Pins} (armed : Armed false false s)
    (started : Runs pins settled ⟨testStartup c, m, s⟩ ⟨.ret (), m', t⟩) :
    ∃ u, ClearedAt c m s u m' t ∧ Exact c m' (u.rises looped) (u.falls looped) 0 m' t := by
  obtain ⟨_, m₁, s₁, vectors, later⟩ := bind_returns started
  have unwatched : Safe pins settled (fun _ => True) (fun _ => Armed false false) intVecInit s :=
    safe_store armed_stable (fun _ _ => trivial)
      (fun _ here => armed_store (fun _ => ⟨rfl, rfl, rfl⟩) here) armed
  obtain ⟨same, armed₁⟩ := call_returns unwatched vectors
  subst same
  obtain ⟨_, m₂, s₂, inits, clears⟩ := bind_returns later
  obtain ⟨same, armed₂⟩ := (armed_init c armed₁ _ inits).2.1 () rfl
  subst same
  obtain ⟨u, here, waits, returned⟩ := store_made armed_stable armed₂ clears
  rw [show pins.store .GPEDS0 (1 <<< inPin) u = u.cleared from clear_store u] at returned
  have counted : Safe pins settled (fun _ => True) (fun _ => Exact c m₂ (u.rises looped) (u.falls looped) 0 m₂)
      (.ret ()) u.cleared :=
    safe_ret exact_stable (fun _ _ => trivial) (fun _ there => there) here.exact
  obtain ⟨same, exact⟩ := call_returns counted returned
  subst same
  have reached := (runs_on (fun _ => c.init >>= fun _ => .call (gpioEventClear inPin)) vectors).trans
    ((runs_on (fun _ => .call (gpioEventClear inPin)) inits).trans waits)
  exact ⟨u, ⟨reached, congrArg (fun v => some (Machine.mk _ _ v)) (clear_store u), returned⟩, exact⟩

end Startup

/-- No edge of any pin is watched yet, and the others have no event. -/
structure Plain (s : Pins) : Prop where
  unwatched : ∀ p, s.rising p = false ∧ s.falling p = false
  others : ∀ p, s.event p = true → p = looped

/-- The edges that a client asks for, of those since r₀ rising and f₀ falling ones had come: each is counted, modulo
2^32, but for one that may be due and is there as an event. No interrupt but the last has counted nothing. -/
structure Counted (c : Client) (m₀ : Counts) (r₀ f₀ : Nat) (m : Counts) (s : Pins) : Prop where
  rose : r₀ ≤ s.rises looped
  fell : f₀ ≤ s.falls looped
  edges : ∃ due : Bool, (due = true → s.event looped = true) ∧
    m.nRising + UInt32.ofNat (due && s.level looped).toNat = m₀.nRising + UInt32.ofNat (c.rises r₀ s) ∧
    m.nFalling + UInt32.ofNat (due && ! s.level looped).toNat = m₀.nFalling + UInt32.ofNat (c.falls f₀ s) ∧
    m.taken + due.toNat ≤ m₀.taken + (c.rises r₀ s + c.falls f₀ s) + 1
  interrupts : m₀.taken ≤ m.taken ∧ m.nInterrupt = m₀.nInterrupt + UInt32.ofNat (m.taken - m₀.taken)

theorem Recorded.counted {c : Client} {m₀ m : Counts} {r₀ f₀ : Nat} {s : Pins}
    (recorded : Recorded c m₀ r₀ f₀ m s) : Counted c m₀ r₀ f₀ m s := by
  obtain ⟨due, tally, there⟩ := recorded
  exact ⟨tally.rose, tally.fell, ⟨due, there, tally.rises, tally.falls, tally.served⟩, tally.began, tally.interrupts⟩

/-- An edge comes only when the one before has been served: then every edge since the moment of the clear is
counted, once, whenever the interrupts are taken, and the vector never comes to its panic. -/
theorem edges_counted (c : Client) {m m' : Counts} {s t : Pins} (plain : Plain s)
    (started : Runs pins settled ⟨testStartup c, m, s⟩ ⟨.ret (), m', t⟩) :
    ∃ u, ClearedAt c m s u m' t ∧ ∀ n, Runs pins settled ⟨interrupts c, m', t⟩ n →
      n.code ≠ .halt ∧ Counted c m' (u.rises looped) (u.falls looped) n.mem n.dev := by
  have armed : Armed false false s := by
    refine ⟨fun p => ?_, fun p => ?_, plain.others⟩
    · rw [(plain.unwatched p).1, Bool.and_false]
    · rw [(plain.unwatched p).2, Bool.and_false]
  obtain ⟨u, moment, exact⟩ := startup_clears c armed started
  refine ⟨u, moment, fun n runs => ?_⟩
  obtain ⟨recorded, _, halts⟩ := exact_interrupts exact n runs
  exact ⟨fun halted => Bool.noConfusion (halts halted), recorded.counted⟩

theorem edge_runs {p : Code Unit} {m : Counts} {s : Pins} (free : s.event looped = false) :
    Runs pins settled ⟨p, m, s⟩ ⟨p, m, s.edge looped⟩ :=
  .single (.act (fun _ => free) rfl rfl)

def startedUp : Machine Reg UInt32 Counts Pins Unit :=
  after pins (List.replicate 60 .cpu) ⟨testStartup (.riseFall true), ⟨0, 0, 0, 0⟩, resting⟩

def disturbed : Machine Reg UInt32 Counts Pins Unit :=
  ⟨interrupts (.riseFall true), startedUp.mem, startedUp.dev.edge looped⟩

def fallen : Machine Reg UInt32 Counts Pins Unit := after pins (List.replicate 60 .cpu) disturbed

theorem one_fall_counted : ∃ u, ClearedAt (.riseFall true) ⟨0, 0, 0, 0⟩ resting u startedUp.mem startedUp.dev ∧
    Counted (.riseFall true) startedUp.mem (u.rises looped) (u.falls looped) fallen.mem fallen.dev ∧
    fallen.mem.nFalling = 1 := by
  have returned : startedUp.returned = some () := by decide +kernel
  have started : Runs pins settled ⟨testStartup (.riseFall true), ⟨0, 0, 0, 0⟩, resting⟩ startedUp := after_cpu 60 _
  have free : startedUp.dev.event looped = false := by decide +kernel
  rw [Machine.returned_eq returned] at started
  have plain : Plain resting := ⟨fun _ => ⟨rfl, rfl⟩, fun _ there => by cases there⟩
  obtain ⟨u, moment, counted⟩ := edges_counted (.riseFall true) plain started
  have falls : Runs pins settled ⟨interrupts (.riseFall true), startedUp.mem, startedUp.dev⟩ disturbed :=
    edge_runs free
  have runs : Runs pins settled ⟨interrupts (.riseFall true), startedUp.mem, startedUp.dev⟩ fallen :=
    falls.trans (after_cpu 60 disturbed)
  have one : fallen.mem.nFalling = 1 := by decide +kernel
  exact ⟨u, moment, (counted fallen runs).2, one⟩

end EmbeddedOS.GpioInt
