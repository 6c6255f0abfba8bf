import EmbeddedOS.Circular.Queue

/-! Pushes and pops as whole calls, which end in nothing where they panic or wait. -/
namespace EmbeddedOS.Circular
open Ring

variable {α : Type} {N : Nat} [NeZero N]

def cqPush (q : Cq α N) (x : α) : Option (Cq α N × Bool) :=
  if next q.head = q.tail then some (q, false)
  else if nspace q.head q.tail > 0 then
    some ({ q with buf := Function.update q.buf q.head x, head := next q.head }, true)
  else none

def pushAll (q : Cq α N) : List α → Option (Cq α N)
  | [] => some q
  | x :: data => (cqPush q x).bind fun r => if r.2 then pushAll r.1 data else none

def cqPushN (q : Cq α N) (data : List α) : Option (Cq α N × Bool) :=
  if data.length = 0 then none
  else if nspace q.head q.tail < data.length then some (q, false)
  else (pushAll q data).map fun q => (q, true)

def cqPopNonblock (q : Cq α N) : Option (α × Cq α N) :=
  if q.head = q.tail then none else some (q.buf q.tail, { q with tail := next q.tail })

def cqPopN (q : Cq α N) : Nat → Option (List α × Cq α N)
  | 0 => some ([], q)
  | n + 1 =>
    (cqPopNonblock q).bind fun first =>
      (cqPopN first.2 n).map fun rest => (first.1 :: rest.1, rest.2)

structure Appended (q : Cq α N) (data : List α) (q' : Cq α N) : Prop where
  tail : q'.tail = q.tail
  contents : q'.contents = q.contents ++ data

theorem nspace_eq (whole : N ∣ 2 ^ 32) (q : Cq α N) :
    nspace q.head q.tail = N - 1 - q.contents.length := by
  rw [nspace, nelem_eq_gap whole, q.contents_length]

theorem cqPush_room (whole : N ∣ 2 ^ 32) {q : Cq α N} (x : α) (room : q.contents.length + 1 < N) :
    ∃ q', cqPush q x = some (q', true) ∧ Appended q [x] q' := by
  have space : nspace q.head q.tail > 0 := by
    rw [nspace_eq whole]
    omega
  rw [q.contents_length] at room
  have notFull : next q.head ≠ q.tail := by
    rw [Ne, next_eq_iff]
    omega
  refine ⟨{ q with buf := Function.update q.buf q.head x, head := next q.head }, ?_, rfl, ?_⟩
  · rw [cqPush, if_neg notFull, if_pos space]
  · rw [Cq.advance_head { q with buf := Function.update q.buf q.head x } room, q.store_contents x]
    exact congrArg (fun y => q.contents ++ [y]) (Function.update_self _ _ _)

theorem pushAll_room (whole : N ∣ 2 ^ 32) {q : Cq α N} {data : List α}
    (room : q.contents.length + data.length < N) :
    ∃ q', pushAll q data = some q' ∧ Appended q data q' := by
  induction data generalizing q with
  | nil => exact ⟨q, rfl, rfl, (List.append_nil _).symm⟩
  | cons x data ih =>
    rw [List.length_cons] at room
    obtain ⟨mid, push, first⟩ := cqPush_room whole x (q := q) (by omega)
    have length := congrArg List.length first.contents
    rw [List.length_append, List.length_singleton] at length
    obtain ⟨q', all, rest⟩ := ih (q := mid) (by omega)
    refine ⟨q', ?_, rest.tail.trans first.tail, ?_⟩
    · rw [pushAll, push]
      exact all
    · rw [rest.contents, first.contents, List.append_assoc]
      rfl

theorem cqPushN_cases (whole : N ∣ 2 ^ 32) (q : Cq α N) {data : List α} (some_data : data.length ≠ 0) :
    (N - 1 - q.contents.length < data.length ∧ cqPushN q data = some (q, false)) ∨
    (data.length ≤ N - 1 - q.contents.length ∧
      ∃ q', cqPushN q data = some (q', true) ∧ Appended q data q') := by
  have space := nspace_eq whole q
  rw [cqPushN, if_neg some_data, space]
  by_cases short : N - 1 - q.contents.length < data.length
  · exact Or.inl ⟨short, if_pos short⟩
  · have bound := q.contents_short
    have room : q.contents.length + data.length < N := by omega
    obtain ⟨q', all, appended⟩ := pushAll_room whole room
    refine Or.inr ⟨Nat.le_of_not_lt short, q', ?_, appended⟩
    rw [if_neg short, all]
    rfl

theorem cqPopN_some {q : Cq α N} {n : Nat} (le : n ≤ q.contents.length) :
    ∃ q', cqPopN q n = some (q.contents.take n, q') ∧ q'.contents = q.contents.drop n := by
  induction n generalizing q with
  | zero => exact ⟨q, rfl, rfl⟩
  | succ n ih =>
    have some_left : 0 < gap q.tail q.head := by
      rw [← q.contents_length]
      omega
    have differ : q.head ≠ q.tail := gap_pos.mp some_left
    have first := Cq.advance_tail q some_left
    rw [first, List.length_cons] at le
    obtain ⟨q', rest, left⟩ := ih (q := { q with tail := next q.tail }) (Nat.le_of_succ_le_succ le)
    refine ⟨q', ?_, ?_⟩
    · rw [cqPopN, cqPopNonblock, if_neg differ, Option.bind_some, rest, first]
      rfl
    · rw [left, first]
      rfl

end EmbeddedOS.Circular
