import EmbeddedOS.Circular.Push
import EmbeddedOS.Circular.Spsc
import Mathlib.Data.List.DropRight

/-! _push_w_drop of circular-T.h: an interrupt handler that drops the oldest element to make room,
and so moves the tail as its consumer does. -/
namespace EmbeddedOS.Circular
open Ring Steps

variable {α : Type} {N : Nat}

/-- The queue, the consumer in _pop_nonblk, and the values pushed, popped, and dropped while no pop
was at them. -/
structure Dropping (α : Type) (N : Nat) where
  q : Cq α N
  popper : Popper α N
  pushed : List α
  popped : List α
  dropped : List α

variable [NeZero N]

/-- A _push, with its panic where it finds no room. -/
def pushOrPanic (q : Cq α N) (e : α) : Option (Cq α N) :=
  if next q.head = q.tail then none
  else some { q with buf := Function.update q.buf q.head e, head := next q.head }

/-- The _pop panics on an empty queue. -/
def pushWDrop (q : Cq α N) (e : α) : Option (Cq α N) :=
  if next q.head = q.tail then
    (cqPopNonblock q).bind fun oldest => pushOrPanic oldest.2 e
  else pushOrPanic q e

def Popper.holds : Popper α N → Option (Fin N)
  | .load tail => some tail
  | .advance tail _ => some tail
  | _ => none

/-- What the handler is about to drop, without the value that a pop is at. -/
def Dropping.gives (s : Dropping α N) : List α :=
  if next s.q.head = s.q.tail ∧ s.popper.holds ≠ some s.q.tail then [s.q.buf s.q.tail] else []

/-- A whole call of the handler, or one access of the consumer. -/
def dropHappen (s : Dropping α N) : Side α → Option (Dropping α N)
  | .push x => (pushWDrop s.q x).map fun q =>
    { s with q := q, pushed := s.pushed ++ [x], dropped := s.dropped ++ s.gives }
  | .pop =>
    let (q, popper, e) := popAccess s.q s.popper
    some { s with q := q, popper := popper, popped := s.popped ++ e.toList }

def dropStart (buf : Fin N → α) : Dropping α N := ⟨⟨buf, 0, 0⟩, .idle, [], [], []⟩

/-- The handler does not drop again while the consumer is between its read of the tail and its
store of the tail. -/
def OneDrop (s : Dropping α N) : Side α → Prop
  | .pop => True
  | .push _ => ∀ tail, s.popper.holds = some tail → next s.q.head = s.q.tail → tail = s.q.tail

/-- What was popped are values of those pushed, in order, the last of which ends a first part; the
queue has the newest of the others, as many as there is room for. Between two pops each value was
popped, was dropped or is in the queue. -/
structure Newest (s : Dropping α N) : Prop where
  subsequence : s.popped.Sublist s.pushed
  newest : s.popper = .idle → ∃ before after, s.pushed = before ++ after ∧
    s.popped.Sublist before ∧ before.getLast? = s.popped.getLast? ∧
    s.q.contents = after.rtake (N - 1)
  accounted : s.popper = .idle → ∃ gone, s.pushed = gone ++ s.q.contents ∧
    s.popped.Sublist gone ∧ s.dropped.Sublist gone ∧ gone.Perm (s.popped ++ s.dropped)

/-- With two slots or more the handler never panics, in whatever state the queue is. -/
theorem handler_goes (two : 1 < N) (q : Cq α N) (x : α) : ∃ q', pushWDrop q x = some q' := by
  unfold pushWDrop pushOrPanic
  split
  · rename_i full
    have moved : ∀ i : Fin N, next i ≠ i := fun i same => by
      rw [next_eq_iff, gap_self] at same
      omega
    have some_left : q.head ≠ q.tail := fun same => by
      rw [same] at full
      exact moved q.tail full
    rw [cqPopNonblock, if_neg some_left, Option.bind_some, full, if_neg (moved q.tail).symm]
    exact ⟨_, rfl⟩
  · exact ⟨_, rfl⟩

section Newest

/-- What the consumer knows: the element that it takes is the first in the queue, or the one that
was dropped last. -/
def TakerOk (q : Cq α N) (after : List α) : Popper α N → Prop
  | .idle => True
  | .emptyTail head => head = q.head ∨ Nonempty q
  | .readTail => Nonempty q
  | .load tail => tail = q.tail ∧ Nonempty q ∨
      tail ≠ q.tail ∧ next tail = q.tail ∧ next q.head = q.tail ∧ after.rtake N = q.buf tail :: q.contents
  | .advance tail e => tail = q.tail ∧ Nonempty q ∧ q.buf tail = e ∨
      tail ≠ q.tail ∧ next tail = q.tail ∧ next q.head = q.tail ∧ after.rtake N = e :: q.contents

/-- What the consumer has still to pop, though the handler has dropped it. -/
def takenOut (q : Cq α N) : Popper α N → List α
  | .load tail => if tail = q.tail then [] else [q.buf tail]
  | .advance tail e => if tail = q.tail then [] else [e]
  | _ => []

/-- The values that have left the queue: those popped and those dropped, each in its order. -/
structure Left (taken lost gone : List α) : Prop where
  popped : taken.Sublist gone
  dropped : lost.Sublist gone
  each : gone.Perm (taken ++ lost)

structure DropInv (s : Dropping α N) (before after : List α) : Prop where
  split : s.pushed = before ++ after
  popped : s.popped.Sublist before
  last : before.getLast? = s.popped.getLast?
  contents : s.q.contents = after.rtake (N - 1)
  taker : TakerOk s.q after s.popper
  left : ∃ gone, Left s.popped s.dropped gone ∧
    s.pushed = gone ++ takenOut s.q s.popper ++ s.q.contents

theorem DropInv.newest {s : Dropping α N} {before after : List α} (inv : DropInv s before after) :
    Newest s := by
  refine ⟨?_, fun _ => ⟨before, after, inv.split, inv.popped, inv.last, inv.contents⟩, fun idle => ?_⟩
  · rw [inv.split]
    exact inv.popped.trans (List.sublist_append_left _ _)
  · obtain ⟨gone, left, pushed⟩ := inv.left
    rw [idle] at pushed
    change s.pushed = gone ++ [] ++ s.q.contents at pushed
    rw [List.append_nil] at pushed
    exact ⟨gone, pushed, left.popped, left.dropped, left.each⟩

theorem Left.pop {taken lost gone : List α} (left : Left taken lost gone) (e : α) :
    Left (taken ++ [e]) lost (gone ++ [e]) := by
  refine ⟨left.popped.append (List.Sublist.refl _), left.dropped.trans (List.sublist_append_left _ _), ?_⟩
  have swapped : (taken ++ lost ++ [e]).Perm (taken ++ [e] ++ lost) := by
    rw [List.append_assoc, List.append_assoc]
    exact List.Perm.append_left taken List.perm_append_comm
  exact (left.each.append_right [e]).trans swapped

theorem Left.drop {taken lost gone : List α} (left : Left taken lost gone) (l : List α) :
    Left taken (lost ++ l) (gone ++ l) := by
  refine ⟨left.popped.trans (List.sublist_append_left _ _), left.dropped.append (List.Sublist.refl _), ?_⟩
  rw [← List.append_assoc]
  exact left.each.append_right l

theorem pushOrPanic_spec {q q' : Cq α N} {e : α} (pushed : pushOrPanic q e = some q') :
    Room q ∧ q' = { q with buf := Function.update q.buf q.head e, head := next q.head } ∧
      q'.contents = q.contents ++ [e] := by
  unfold pushOrPanic at pushed
  split at pushed
  · cases pushed
  · rename_i notFull
    cases pushed
    have bound := gap_lt q.tail q.head
    have room : Room q := by
      rw [next_eq_iff] at notFull
      change gap q.tail q.head + 1 < N
      omega
    refine ⟨room, rfl, ?_⟩
    rw [Cq.advance_head { q with buf := Function.update q.buf q.head e } room, q.store_contents e]
    exact congrArg (fun y => q.contents ++ [y]) (Function.update_self _ _ _)

/-- The handler appends, behind a drop if the queue was full. -/
inductive HandlerRan (q q' : Cq α N) (x : α) : Prop where
  | appended (room : Room q) (tail : q'.tail = q.tail) (contents : q'.contents = q.contents ++ [x])
      (others : ∀ i, i ≠ q.head → q'.buf i = q.buf i)
  | dropped (rest : List α) (full : next q.head = q.tail) (tail : q'.tail = next q.tail)
      (still : next q'.head = q'.tail) (oldest : q.contents = q.buf q.tail :: rest)
      (contents : q'.contents = rest ++ [x]) (others : ∀ i, i ≠ q.head → q'.buf i = q.buf i)

theorem tail_moves {q q' : Cq α N} {e : α} {rest : List α} (oldest : q.contents = e :: rest)
    (tail : q'.tail = next q.tail) : q.tail ≠ q'.tail := fun same => by
  have short := q.contents_short
  rw [oldest, List.length_cons] at short
  rw [tail, eq_comm, next_eq_iff, gap_self] at same
  omega

theorem pushWDrop_pushed {q q' : Cq α N} {x : α} (pushed : pushWDrop q x = some q') :
    HandlerRan q q' x := by
  unfold pushWDrop at pushed
  split at pushed
  · rename_i full
    obtain ⟨oldest, popped, pushed⟩ := Option.bind_eq_some_iff.mp pushed
    unfold cqPopNonblock at popped
    split at popped
    · cases popped
    · rename_i some_left
      cases popped
      have oldest := Cq.advance_tail q (gap_pos.mpr some_left)
      obtain ⟨-, rfl, contents⟩ := pushOrPanic_spec pushed
      refine .dropped _ full rfl ?_ oldest contents fun i other => Function.update_of_ne other _ _
      change next (next q.head) = next q.tail
      rw [full]
  · obtain ⟨room, rfl, contents⟩ := pushOrPanic_spec pushed
    exact .appended room rfl contents fun i other => Function.update_of_ne other _ _

theorem rtake_all {l : List α} {n : Nat} (few : l.length ≤ n) : l.rtake n = l := by
  rw [List.rtake, Nat.sub_eq_zero_of_le few, List.drop_zero]

theorem rtake_tail {l : List α} {n : Nat} (more : n < l.length) :
    l.rtake n = (l.rtake (n + 1)).tail := by
  have count : l.length - n = l.length - (n + 1) + 1 := by omega
  rw [List.rtake, List.rtake, List.tail_drop, count]

theorem rtake_length (l : List α) (n : Nat) : (l.rtake n).length = min n l.length := by
  rw [List.rtake, List.length_drop]
  omega

theorem rtake_push (l : List α) (x : α) {n : Nat} (pos : 0 < n) :
    (l ++ [x]).rtake n = l.rtake (n - 1) ++ [x] := by
  cases n with
  | zero => cases pos
  | succ n => exact List.rtake_concat_succ l n x

theorem rtake_pushed {q q' : Cq α N} {after : List α} {x : α} (pushed : HandlerRan q q' x)
    (contents : q.contents = after.rtake (N - 1)) : q'.contents = (after ++ [x]).rtake (N - 1) := by
  have short := q.contents_short
  have lengths := rtake_length after (N - 1)
  rw [← contents] at lengths
  cases pushed with
  | appended room tail more others =>
    have less : q.contents.length + 1 < N := by
      rw [q.contents_length]
      exact room
    have all : after.rtake (N - 1) = after.rtake (N - 1 - 1) := by
      rw [rtake_all (by omega), rtake_all (by omega)]
    rw [more, contents, all, rtake_push _ _ (by omega)]
  | dropped rest full tail still oldest more others =>
    have whole : q.contents.length + 1 = N := by
      rw [q.contents_length]
      exact (next_eq_iff _ _).mp full
    have some_left : q.contents.length = rest.length + 1 := by rw [oldest, List.length_cons]
    have newer : after.rtake (N - 1 - 1) = rest := by
      rw [rtake_tail (by omega), Nat.sub_add_cancel (by omega), ← contents, oldest, List.tail_cons]
    rw [more, rtake_push _ _ (by omega), newer]

theorem nonempty_iff {q : Cq α N} : Nonempty q ↔ q.contents ≠ [] := by
  rw [Nonempty, ← q.contents_length, List.length_pos_iff]

theorem taken_pushed {q q' : Cq α N} {after : List α} {x e : α} {tail : Fin N}
    (pushed : HandlerRan q q' x) (contents : q.contents = after.rtake (N - 1))
    (fair : next q.head = q.tail → tail = q.tail)
    (taken : tail = q.tail ∧ Nonempty q ∧ q.buf tail = e ∨
      tail ≠ q.tail ∧ next tail = q.tail ∧ next q.head = q.tail ∧ after.rtake N = e :: q.contents) :
    q'.buf tail = q.buf tail ∧
    (tail = q'.tail ∧ Nonempty q' ∧ q'.buf tail = e ∨
      tail ≠ q'.tail ∧ next tail = q'.tail ∧ next q'.head = q'.tail ∧
        (after ++ [x]).rtake N = e :: q'.contents) := by
  rcases taken with ⟨rfl, some_left, rfl⟩ | ⟨other, -, full, -⟩
  · have apart : q.tail ≠ q.head := (gap_pos.mp some_left).symm
    cases pushed with
    | appended room tail more others =>
      refine ⟨others _ apart, Or.inl ⟨tail.symm, ?_, others _ apart⟩⟩
      rw [nonempty_iff, more]
      simp
    | dropped rest full tail still oldest more others =>
      refine ⟨others _ apart, Or.inr ⟨tail_moves oldest tail, tail.symm, still, ?_⟩⟩
      rw [rtake_push _ _ q.head.pos, ← contents, oldest, more, List.cons_append]
  · exact absurd (fair full) other

theorem TakerOk.held {q : Cq α N} {after : List α} {popper : Popper α N} {tail : Fin N}
    (taker : TakerOk q after popper) (held : popper.holds = some tail) :
    tail = q.tail ∧ Nonempty q ∨ tail ≠ q.tail ∧ next q.head = q.tail := by
  cases popper with
  | load =>
    cases held
    exact taker.imp id fun dropped => ⟨dropped.1, dropped.2.2.1⟩
  | advance =>
    cases held
    exact taker.imp (fun first => ⟨first.1, first.2.1⟩) fun dropped => ⟨dropped.1, dropped.2.2.1⟩
  | idle | emptyTail | readTail => cases held

theorem taken_appended {s : Dropping α N} {before after : List α} {q' : Cq α N} (inv : DropInv s before after)
    (notFull : next s.q.head ≠ s.q.tail) (tail : q'.tail = s.q.tail) :
    takenOut q' s.popper = takenOut s.q s.popper := by
  have taker := inv.taker
  generalize s.popper = popper at taker
  cases popper with
  | idle | emptyTail | readTail => rfl
  | load t | advance t =>
    obtain ⟨first, -⟩ | ⟨-, full⟩ := taker.held rfl
    · rw [takenOut, takenOut, if_pos first, if_pos (first.trans tail.symm)]
    · exact absurd full notFull

/-- What the handler drops leaves the queue, or is what the pop has still to give. -/
theorem left_pushed {s : Dropping α N} {before after : List α} {x : α} {q' : Cq α N}
    (inv : DropInv s before after) (fair : OneDrop s (.push x)) (pushed : HandlerRan s.q q' x) :
    ∃ gone, Left s.popped (s.dropped ++ s.gives) gone ∧
      s.pushed ++ [x] = gone ++ takenOut q' s.popper ++ q'.contents := by
  obtain ⟨gone, left, all⟩ := inv.left
  cases pushed with
  | appended room tail contents others =>
    have notFull : next s.q.head ≠ s.q.tail := fun full => by
      rw [next_eq_iff] at full
      exact absurd room (Nat.not_lt_of_ge (Nat.le_of_eq full.symm))
    have none_given : s.gives = [] := if_neg fun both => notFull both.1
    rw [none_given, List.append_nil, taken_appended inv notFull tail, contents, all]
    exact ⟨gone, left, by simp⟩
  | dropped rest full tail still oldest contents others =>
    have short := s.q.contents_short
    rw [oldest, List.length_cons] at short
    have moved := tail_moves oldest tail
    have kept : q'.buf s.q.tail = s.q.buf s.q.tail := by
      refine others _ fun same => ?_
      rw [← same, next_eq_iff, gap_self] at full
      omega
    have taker := inv.taker
    rw [oldest] at all
    rw [contents]
    unfold Dropping.gives
    unfold OneDrop at fair
    generalize s.popper = popper at taker fair all
    cases popper with
    | idle | emptyTail | readTail =>
      rw [if_pos ⟨full, nofun⟩]
      exact ⟨gone ++ [s.q.buf s.q.tail], left.drop _, by simp [all, takenOut]⟩
    | load t =>
      cases fair t rfl full
      rw [if_neg fun both => both.2 rfl, List.append_nil, takenOut, if_neg moved, kept]
      exact ⟨gone, left, by simp [all, takenOut]⟩
    | advance t e =>
      cases fair t rfl full
      have same : s.q.buf s.q.tail = e := by
        obtain ⟨-, -, same⟩ | ⟨other, -⟩ := taker
        · exact same
        · exact absurd rfl other
      rw [if_neg fun both => both.2 rfl, List.append_nil, takenOut, if_neg moved, ← same]
      exact ⟨gone, left, by simp [all, takenOut]⟩

theorem handler_inv {s : Dropping α N} {before after : List α} {x : α} {q' : Cq α N}
    (inv : DropInv s before after) (fair : OneDrop s (.push x)) (ran : pushWDrop s.q x = some q') :
    DropInv { s with q := q', pushed := s.pushed ++ [x], dropped := s.dropped ++ s.gives } before
      (after ++ [x]) := by
  have pushed := pushWDrop_pushed ran
  have some_left : Nonempty q' := by
    rw [nonempty_iff]
    cases pushed with
    | appended _ _ contents _ =>
      rw [contents]
      simp
    | dropped _ _ _ _ _ contents _ =>
      rw [contents]
      simp
  refine ⟨?_, inv.popped, inv.last, rtake_pushed pushed inv.contents, ?_, left_pushed inv fair pushed⟩
  · rw [inv.split, List.append_assoc]
  · have taker := inv.taker
    change TakerOk q' (after ++ [x]) s.popper
    unfold OneDrop at fair
    generalize s.popper = popper at taker fair
    cases popper with
    | idle => trivial
    | emptyTail head => exact Or.inr some_left
    | readTail => exact some_left
    | load tail =>
      have taken : tail = s.q.tail ∧ Nonempty s.q ∧ s.q.buf tail = s.q.buf tail ∨
          tail ≠ s.q.tail ∧ next tail = s.q.tail ∧ next s.q.head = s.q.tail ∧
            after.rtake N = s.q.buf tail :: s.q.contents :=
        taker.imp_left fun first => ⟨first.1, first.2, rfl⟩
      obtain ⟨kept, now⟩ := taken_pushed pushed inv.contents (fair tail rfl) taken
      rw [← kept] at now
      exact now.imp_left fun first => ⟨first.1, first.2.1⟩
    | advance tail e => exact (taken_pushed pushed inv.contents (fair tail rfl) taker).2

theorem taken_inv {s : Dropping α N} {before after : List α} {q' : Cq α N} {e : α} {n : Nat}
    (inv : DropInv s before after) (taken : after.rtake n = e :: q'.contents)
    (next : takenOut s.q s.popper ++ s.q.contents = e :: q'.contents) :
    ∃ before' after', DropInv { s with q := q', popper := .idle, popped := s.popped ++ [e] }
      before' after' := by
  have parts : after = after.take (after.length - n) ++ e :: q'.contents := by
    rw [← taken, List.rtake, List.take_append_drop]
  obtain ⟨gone, left, all⟩ := inv.left
  rw [List.append_assoc, next] at all
  refine ⟨before ++ after.take (after.length - n) ++ [e], q'.contents, ?_, ?_, ?_, ?_, trivial,
    gone ++ [e], left.pop e, ?_⟩
  · have split := inv.split
    rw [parts] at split
    simpa using split
  · exact (inv.popped.trans (List.sublist_append_left _ _)).append (List.Sublist.refl _)
  · rw [List.getLast?_concat, List.getLast?_concat]
  · exact (rtake_all q'.contents_short).symm
  · simp [all, takenOut]

theorem quiet_inv {s : Dropping α N} {before after : List α} {popper : Popper α N}
    (inv : DropInv s before after) (ok : TakerOk s.q after popper)
    (same : takenOut s.q popper = takenOut s.q s.popper) :
    DropInv { s with popper := popper, popped := s.popped ++ [] } before after := by
  rw [List.append_nil]
  exact ⟨inv.split, inv.popped, inv.last, inv.contents, ok, same ▸ inv.left⟩

theorem consumer_inv {s t : Dropping α N} {before after : List α} (inv : DropInv s before after)
    (ran : dropHappen s .pop = some t) : ∃ before' after', DropInv t before' after' := by
  obtain ⟨q, popper, pushed, popped⟩ := s
  cases ran
  cases popper with
  | idle => exact ⟨before, after, quiet_inv inv (Or.inl rfl) rfl⟩
  | emptyTail head =>
    have taker : head = q.head ∨ Nonempty q := inv.taker
    refine ⟨before, after, quiet_inv inv ?_ ?_⟩
    · change TakerOk q after (if head = q.tail then .idle else .readTail)
      split
      · trivial
      · rename_i differ
        rcases taker with same | some_left
        · rw [same] at differ
          exact gap_pos.mpr differ
        · exact some_left
    · change takenOut q (if head = q.tail then .idle else .readTail) = []
      split <;> rfl
  | readTail => exact ⟨before, after, quiet_inv inv (Or.inl ⟨rfl, inv.taker⟩) (if_pos rfl)⟩
  | load tail =>
    have taker : tail = q.tail ∧ Nonempty q ∨
      tail ≠ q.tail ∧ next tail = q.tail ∧ next q.head = q.tail ∧
        after.rtake N = q.buf tail :: q.contents := inv.taker
    exact ⟨before, after, quiet_inv inv (taker.imp_left fun first => ⟨first.1, first.2, rfl⟩) rfl⟩
  | advance tail e =>
    have taker : tail = q.tail ∧ Nonempty q ∧ q.buf tail = e ∨
      tail ≠ q.tail ∧ next tail = q.tail ∧ next q.head = q.tail ∧ after.rtake N = e :: q.contents :=
        inv.taker
    rcases taker with ⟨rfl, some_left, rfl⟩ | ⟨apart, moved, -, dropped⟩
    · have contents : q.contents = after.rtake (N - 1) := inv.contents
      have first := Cq.advance_tail q some_left
      have taken := first
      rw [contents] at taken
      exact taken_inv inv taken ((congrArg (· ++ q.contents) (if_pos rfl)).trans first)
    · have same : ({ q with tail := next tail } : Cq α N) = q := by rw [moved]
      have given : takenOut q (.advance tail e) ++ q.contents = e :: q.contents := by
        rw [takenOut, if_neg apart]
        rfl
      rw [← same] at dropped
      exact taken_inv inv dropped (same.symm ▸ given)

theorem dropStart_inv (buf : Fin N → α) : DropInv (dropStart buf) [] [] := by
  refine ⟨rfl, List.Sublist.refl _, rfl, ?_, trivial, [], ⟨.refl _, .refl _, .refl _⟩, ?_⟩
  · simp [dropStart, Cq.contents]
  · simp [dropStart, Cq.contents, takenOut]

end Newest

/-- In every run in which the handler drops at most once while the consumer is between its read and
its store of the tail, the consumer gets values in order and the queue has the newest ones. -/
theorem newest_kept {buf : Fin N → α} {sides : List (Side α)} {s : Dropping α N}
    (fair : Along dropHappen OneDrop (dropStart buf) sides)
    (ran : exec dropHappen (dropStart buf) sides = some s) : Newest s := by
  have kept : ∀ (s : Dropping α N) side t, (∃ before after, DropInv s before after) →
      OneDrop s side → dropHappen s side = some t → ∃ before after, DropInv t before after := by
    rintro s side t ⟨before, after, inv⟩ fair happened
    cases side with
    | push x =>
      obtain ⟨q', pushed, rfl⟩ := Option.map_eq_some_iff.mp happened
      exact ⟨before, after ++ [x], handler_inv inv fair pushed⟩
    | pop => exact consumer_inv inv happened
  obtain ⟨before, after, inv⟩ := exec_along kept ⟨[], [], dropStart_inv buf⟩ fair ran
  exact inv.newest

section Runs

instance (s : Dropping α N) : (side : Side α) → Decidable (OneDrop s side)
  | .pop => isTrue trivial
  | .push _ => inferInstanceAs (Decidable (∀ tail, s.popper.holds = some tail →
      next s.q.head = s.q.tail → tail = s.q.tail))

def dropOnce : List (Side UInt8) :=
  [.push 1, .push 2, .push 3, .pop, .pop, .pop, .pop, .push 4, .pop]

theorem one_drop_newest :
    ∃ s, exec dropHappen (dropStart (fun _ : Fin 4 => (0 : UInt8))) dropOnce = some s ∧
      Newest s := by
  obtain ⟨s, ran⟩ : ∃ s, exec dropHappen (dropStart (fun _ : Fin 4 => (0 : UInt8))) dropOnce =
    some s := ⟨_, rfl⟩
  exact ⟨s, ran, newest_kept (by decide +kernel) ran⟩

def dropTwice : List (Side UInt8) :=
  [.push 1, .push 2, .push 3, .pop, .pop, .pop, .pop, .push 4, .push 5, .pop]

theorem two_drops_empty :
    ¬ ∀ s, exec dropHappen (dropStart (fun _ : Fin 4 => (0 : UInt8))) dropTwice = some s →
      Newest s := by
  intro keeps
  obtain ⟨s, ran, idle, pushed, popped, empty⟩ :
      ∃ s, exec dropHappen (dropStart (fun _ : Fin 4 => (0 : UInt8))) dropTwice = some s ∧
        s.popper = .idle ∧ s.pushed = [1, 2, 3, 4, 5] ∧ s.popped = [1] ∧ s.q.contents = [] :=
    ⟨_, rfl, rfl, rfl, rfl, rfl⟩
  obtain ⟨before, after, split, -, last, newest⟩ := (keeps s ran).newest idle
  have none_after : after = [] := by
    rw [empty] at newest
    have length := congrArg List.length newest
    rw [rtake_length] at length
    exact List.eq_nil_of_length_eq_zero (by simpa using length.symm)
  rw [none_after, List.append_nil] at split
  rw [← split, pushed, popped] at last
  cases last

end Runs

end EmbeddedOS.Circular
