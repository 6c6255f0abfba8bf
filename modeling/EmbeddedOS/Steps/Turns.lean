import EmbeddedOS.Steps.Run
import Mathlib.Data.Finset.Basic

/-! Members of a queue that take turns: whoever has had a turn goes to its end, and a new member
comes in at its front. -/
namespace Steps

variable {α : Type}

/-- A member comes in, begins a turn, or leaves in its turn. -/
inductive Turn (α : Type) where
  | join (a : α)
  | turn (a : α)
  | leave (a : α)
deriving DecidableEq

section Events

variable [DecidableEq α]

def members (l : Finset α) : Turn α → Finset α
  | .join a => insert a l
  | .turn _ => l
  | .leave a => l.erase a

def live (trace : List (Turn α)) : Finset α := trace.foldl members ∅

/-- Between two turns of a member, with no other turn of it between, every other member that
stays has one turn. -/
def Fair (trace : List (Turn α)) : Prop :=
  ∀ first between rest a, trace = first ++ .turn a :: (between ++ .turn a :: rest) →
    .turn a ∉ between → .leave a ∉ between →
    ∀ b ∈ live first, b ≠ a → .leave b ∉ between → between.count (.turn b) = 1

end Events

/-- Whose turn it is, and who waits. -/
structure Rota (α : Type) where
  running : Option α
  queue : List α

namespace Rota

/-- The order in which the members have their next turns. -/
def order (s : Rota α) : List α := s.queue ++ s.running.toList

/-- The one member has its next turn before the other. -/
def Before (s : Rota α) (b a : α) : Prop := [b, a].Sublist s.order

theorem Before.not_both {s : Rota α} {a b : α} (nodup : s.order.Nodup) (one : s.Before a b)
    (rest : List α) : s.order ≠ b :: rest := by
  intro first
  rw [Before, first] at one
  rw [first] at nodup
  cases one with
  | cons _ later => exact (List.nodup_cons.mp nodup).1 (later.subset (by simp))
  | cons_cons _ later => exact (List.nodup_cons.mp nodup).1 (later.subset (by simp))

variable [DecidableEq α]

def step (s : Rota α) : Turn α → Option (Rota α)
  | .join a => if a ∈ s.order then none else some { s with queue := a :: s.queue }
  | .turn a =>
    match s.order with
    | [] => none
    | b :: rest => if b = a then some ⟨some a, rest⟩ else none
  | .leave a => if s.running = some a then some ⟨none, s.queue⟩ else none

def start : Rota α := ⟨none, []⟩

theorem join_some {s t : Rota α} {a : α} :
    s.step (.join a) = some t ↔ a ∉ s.order ∧ t = { s with queue := a :: s.queue } := by
  simp only [step]
  split_ifs with inside
  · simp [inside]
  · simp [inside, eq_comm]

theorem turn_some {s t : Rota α} {a : α} :
    s.step (.turn a) = some t ↔ s.order = a :: t.queue ∧ t.running = some a := by
  simp only [step]
  cases t
  cases s.order with
  | nil => simp
  | cons b rest =>
    by_cases same : b = a
    · simp [same, and_comm, eq_comm]
    · simp [same]

theorem leave_some {s t : Rota α} {a : α} :
    s.step (.leave a) = some t ↔ s.running = some a ∧ t = ⟨none, s.queue⟩ := by
  simp [step, eq_comm]

theorem order_join {s t : Rota α} {a : α} (came : s.step (.join a) = some t) :
    t.order = a :: s.order := by
  obtain ⟨_, rfl⟩ := join_some.mp came
  rfl

theorem order_turn {s t : Rota α} {a : α} (began : s.step (.turn a) = some t) :
    ∃ rest, s.order = a :: rest ∧ t.order = rest ++ [a] := by
  obtain ⟨order, running⟩ := turn_some.mp began
  exact ⟨t.queue, order, by rw [Rota.order, running]; rfl⟩

theorem order_leave {s t : Rota α} {a : α} (left : s.step (.leave a) = some t) :
    s.order = t.order ++ [a] := by
  obtain ⟨running, rfl⟩ := leave_some.mp left
  simp [order, running]

theorem nodup_step {s t : Rota α} {e : Turn α} (nodup : s.order.Nodup) (ran : s.step e = some t) :
    t.order.Nodup := by
  cases e with
  | join a =>
    rw [order_join ran]
    exact List.nodup_cons.mpr ⟨(join_some.mp ran).1, nodup⟩
  | turn a =>
    obtain ⟨rest, before, after⟩ := order_turn ran
    rw [before] at nodup
    rw [after, ← List.concat_eq_append]
    exact List.Nodup.concat (List.nodup_cons.mp nodup).1 (List.nodup_cons.mp nodup).2
  | leave a =>
    rw [order_leave ran] at nodup
    exact nodup.of_append_left

theorem members_step {s t : Rota α} {e : Turn α} (nodup : s.order.Nodup) (ran : s.step e = some t) :
    members s.order.toFinset e = t.order.toFinset := by
  cases e with
  | join a => rw [order_join ran, List.toFinset_cons, members]
  | turn a =>
    obtain ⟨rest, before, after⟩ := order_turn ran
    rw [before, after, members]
    ext b
    rw [List.mem_toFinset, List.mem_toFinset, List.mem_cons, List.mem_append, List.mem_singleton]
    exact or_comm
  | leave a =>
    have before := order_leave ran
    rw [before] at nodup
    have apart : a ∉ t.order := fun inside =>
      (List.disjoint_of_nodup_append nodup) inside (List.mem_singleton_self a)
    rw [before, members]
    ext b
    simp only [List.mem_toFinset, Finset.mem_erase, List.mem_append, List.mem_singleton]
    constructor
    · rintro ⟨other, inside | same⟩
      · exact inside
      · exact absurd same other
    · intro inside
      exact ⟨fun same => apart (same ▸ inside), Or.inl inside⟩

theorem live_order {trace : List (Turn α)} {s t : Rota α} (nodup : s.order.Nodup)
    (ran : exec step s trace = some t) :
    t.order.Nodup ∧ trace.foldl members s.order.toFinset = t.order.toFinset := by
  induction trace generalizing s with
  | nil =>
    cases ran
    exact ⟨nodup, rfl⟩
  | cons e rest ih =>
    obtain ⟨mid, here, later⟩ := Option.bind_eq_some_iff.mp ran
    rw [List.foldl_cons, members_step nodup here]
    exact ih (nodup_step nodup here) later

theorem Before.step {s t : Rota α} {e : Turn α} {a b : α} (before : s.Before b a)
    (turn : e ≠ .turn b) (leave : e ≠ .leave a) (ran : s.step e = some t) : t.Before b a := by
  unfold Before at before ⊢
  cases e with
  | join c =>
    rw [order_join ran]
    exact before.cons c
  | turn c =>
    obtain ⟨rest, was, now⟩ := order_turn ran
    rw [was] at before
    rw [now]
    cases before with
    | cons _ later => exact later.trans (List.sublist_append_left rest [c])
    | cons_cons _ later => exact absurd rfl turn
  | leave c =>
    rw [order_leave ran, ← List.reverse_sublist, List.reverse_append] at before
    rw [← List.reverse_sublist]
    cases before with
    | cons _ later => exact later
    | cons_cons _ later => exact absurd rfl leave

theorem Before.turned {s t : Rota α} {a b : α} (before : s.Before b a)
    (ran : s.step (.turn b) = some t) (apart : b ≠ a) : t.Before a b := by
  obtain ⟨rest, was, now⟩ := order_turn ran
  rw [Before, was] at before
  rw [Before, now]
  have inside : a ∈ rest := by
    have either := before.subset (by simp : a ∈ [b, a])
    exact (List.mem_cons.mp either).resolve_left (Ne.symm apart)
  exact (List.singleton_sublist.mpr inside).append (List.Sublist.refl [b])

/-- Until the one member has a turn, the other has one turn if it comes first, and none if not. -/
theorem turns_before {between : List (Turn α)} {s t : Rota α} {a b : α} (nodup : s.order.Nodup)
    (apart : b ≠ a) (ran : exec step s between = some t) (no_turn : .turn a ∉ between)
    (a_stays : .leave a ∉ between) (b_stays : .leave b ∉ between) :
    (s.Before a b → between.count (.turn b) = 0 ∧ t.Before a b) ∧
      (s.Before b a → (between.count (.turn b) = 0 ∧ t.Before b a) ∨
        (between.count (.turn b) = 1 ∧ t.Before a b)) := by
  induction between generalizing s with
  | nil =>
    cases ran
    exact ⟨fun one => ⟨rfl, one⟩, fun one => Or.inl ⟨rfl, one⟩⟩
  | cons e between ih =>
    obtain ⟨mid, here, later⟩ := Option.bind_eq_some_iff.mp ran
    obtain ⟨a_waits, no_turn⟩ := not_or.mp (List.mem_cons.not.mp no_turn)
    obtain ⟨a_here, a_stays⟩ := not_or.mp (List.mem_cons.not.mp a_stays)
    obtain ⟨b_here, b_stays⟩ := not_or.mp (List.mem_cons.not.mp b_stays)
    obtain ⟨behind, ahead⟩ := ih (nodup_step nodup here) later no_turn a_stays b_stays
    by_cases turn : e = .turn b
    · subst turn
      constructor
      · intro one
        obtain ⟨rest, first, _⟩ := order_turn here
        exact absurd first (one.not_both nodup rest)
      · intro one
        obtain ⟨none_left, last⟩ := behind (one.turned here apart)
        exact Or.inr ⟨by rw [List.count_cons_self, none_left], last⟩
    · rw [List.count_cons_of_ne turn]
      exact ⟨fun one => behind (one.step (Ne.symm a_waits) (Ne.symm b_here) here),
        fun one => ahead (one.step turn (Ne.symm a_here) here)⟩

theorem runs_fair {trace : List (Turn α)} {s : Rota α} (ran : exec step start trace = some s) :
    Fair trace := by
  intro first between rest a split no_turn a_stays b joined apart b_stays
  rw [split] at ran
  obtain ⟨was, ran_first, ran⟩ := exec_split ran
  obtain ⟨now, began, ran⟩ := Option.bind_eq_some_iff.mp ran
  obtain ⟨last, ran_between, ran⟩ := exec_split ran
  obtain ⟨_, again, _⟩ := Option.bind_eq_some_iff.mp ran
  have none_yet : (start : Rota α).order.Nodup := List.nodup_nil
  obtain ⟨nodup, members⟩ := live_order none_yet ran_first
  obtain ⟨waiting, order, order'⟩ := order_turn began
  obtain ⟨others, next, _⟩ := order_turn again
  have waits : b ∈ waiting := by
    have inside : b ∈ was.order := List.mem_toFinset.mp (members ▸ joined)
    rw [order] at inside
    exact (List.mem_cons.mp inside).resolve_left apart
  have before : now.Before b a := by
    rw [Before, order']
    exact (List.singleton_sublist.mpr waits).append (List.Sublist.refl [a])
  have ahead := (turns_before (nodup_step nodup began) apart ran_between no_turn a_stays b_stays).2
  obtain ⟨_, one⟩ | ⟨once, _⟩ := ahead before
  · have last_nodup := (live_order (nodup_step nodup began) ran_between).1
    exact absurd next (one.not_both last_nodup others)
  · exact once

end Rota

end Steps
