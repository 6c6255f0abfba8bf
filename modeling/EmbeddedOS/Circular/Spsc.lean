import EmbeddedOS.Circular.Queue
import EmbeddedOS.Steps.Run

/-! A producer in cq_push and a consumer in cq_pop_nonblock, one memory access after the
other, in any order of the two. -/
namespace EmbeddedOS.Circular
open Ring Steps

variable {α : Type} {N : Nat}

inductive Pusher (α : Type) (N : Nat) where
  | idle
  | fullTail (x : α) (head : Fin N)
  | readHead (x : α)
  | spaceHead (x : α) (head : Fin N)
  | spaceTail (x : α) (head now : Fin N)
  | store (x : α) (head : Fin N)
  | advance (x : α) (head : Fin N)
  | panicked

inductive Popper (α : Type) (N : Nat) where
  | idle
  | emptyTail (head : Fin N)
  | readTail
  | load (tail : Fin N)
  | advance (tail : Fin N) (e : α)

/-- The queue, both sides, and the values whose push returned 1 and that were popped. -/
structure Spsc (α : Type) (N : Nat) where
  q : Cq α N
  pusher : Pusher α N
  popper : Popper α N
  pushed : List α
  popped : List α

/-- Which side goes on; a value is taken when a push begins. -/
inductive Side (α : Type) where
  | push (x : α)
  | pop

variable [NeZero N]

/-- The push of circular.h asserts that there is space, the one of circular-T.h does not. -/
def pushStep (asserts : Bool) (s : Spsc α N) (value : α) : Spsc α N :=
  match s.pusher with
  | .idle => { s with pusher := .fullTail value s.q.head }
  | .fullTail x head => { s with pusher := if next head = s.q.tail then .idle else .readHead x }
  | .readHead x => { s with pusher := if asserts then .spaceHead x s.q.head else .store x s.q.head }
  | .spaceHead x head => { s with pusher := .spaceTail x head s.q.head }
  | .spaceTail x head now =>
    { s with pusher := if nspace now s.q.tail > 0 then .store x head else .panicked }
  | .store x head =>
    { s with q := { s.q with buf := Function.update s.q.buf head x }, pusher := .advance x head }
  | .advance x head =>
    { s with q := { s.q with head := next head }, pusher := .idle, pushed := s.pushed ++ [x] }
  | .panicked => s

/-- The queue and the place behind one access, and the value when the pop is done. -/
def popAccess (q : Cq α N) : Popper α N → Cq α N × Popper α N × Option α
  | .idle => (q, .emptyTail q.head, none)
  | .emptyTail head => (q, if head = q.tail then .idle else .readTail, none)
  | .readTail => (q, .load q.tail, none)
  | .load tail => (q, .advance tail (q.buf tail), none)
  | .advance tail e => ({ q with tail := next tail }, .idle, some e)

def popStep (s : Spsc α N) : Spsc α N :=
  let (q, popper, e) := popAccess s.q s.popper
  { s with q := q, popper := popper, popped := s.popped ++ e.toList }

def step (asserts : Bool) (s : Spsc α N) : Side α → Spsc α N
  | .push x => pushStep asserts s x
  | .pop => popStep s

def start (buf : Fin N → α) : Spsc α N := ⟨⟨buf, 0, 0⟩, .idle, .idle, [], []⟩

/-- The slot that the producer writes, from before the store until the head is moved. -/
def Pusher.writing : Pusher α N → Option (Fin N)
  | .store _ h => some h
  | .advance _ h => some h
  | _ => none

/-- The slot that the consumer reads, from before the load until the tail is moved. -/
def Popper.reading : Popper α N → Option (Fin N)
  | .load t => some t
  | .advance t _ => some t
  | _ => none

section Invariant

def Room (q : Cq α N) : Prop := gap q.tail q.head + 1 < N

def Nonempty (q : Cq α N) : Prop := 0 < gap q.tail q.head

/-- What the producer knows of the queue, at each place. -/
def PusherOk (q : Cq α N) : Pusher α N → Prop
  | .idle => True
  | .fullTail _ head => head = q.head
  | .readHead _ => Room q
  | .spaceHead _ head => head = q.head ∧ Room q
  | .spaceTail _ head now => head = q.head ∧ now = q.head ∧ Room q
  | .store _ head => head = q.head ∧ Room q
  | .advance x head => head = q.head ∧ Room q ∧ q.buf head = x
  | .panicked => ¬ N ∣ 2 ^ 32

def PopperOk (q : Cq α N) : Popper α N → Prop
  | .idle => True
  | .emptyTail head => head ≠ q.tail → Nonempty q
  | .readTail => Nonempty q
  | .load tail => tail = q.tail ∧ Nonempty q
  | .advance tail e => tail = q.tail ∧ Nonempty q ∧ q.buf tail = e

structure Inv (s : Spsc α N) : Prop where
  stream : s.pushed = s.popped ++ s.q.contents
  pusher : PusherOk s.q s.pusher
  popper : PopperOk s.q s.popper

theorem start_inv (buf : Fin N → α) : Inv (start buf) := by
  refine ⟨?_, trivial, trivial⟩
  simp [start, Cq.contents]

theorem popper_store {q : Cq α N} {p : Popper α N} (x : α) (ok : PopperOk q p) :
    PopperOk { q with buf := Function.update q.buf q.head x } p := by
  cases p with
  | advance tail e =>
    obtain ⟨rfl, some_left, same⟩ := ok
    have apart : q.tail ≠ q.head := (gap_pos.mp some_left).symm
    exact ⟨rfl, some_left, (Function.update_of_ne apart _ _).trans same⟩
  | _ => exact ok

theorem popper_advance {q : Cq α N} {p : Popper α N} (room : Room q) (ok : PopperOk q p) :
    PopperOk { q with head := next q.head } p := by
  have some_left : Nonempty { q with head := next q.head } := by
    have more := gap_next_last room
    change 0 < gap q.tail (next q.head)
    omega
  cases p with
  | idle => trivial
  | emptyTail head => exact fun _ => some_left
  | readTail => exact some_left
  | load tail => exact ⟨ok.1, some_left⟩
  | advance tail e => exact ⟨ok.1, some_left, ok.2.2⟩

theorem pusher_advance {q : Cq α N} {p : Pusher α N} (some_left : Nonempty q) (ok : PusherOk q p) :
    PusherOk { q with tail := next q.tail } p := by
  have keep : Room q → Room { q with tail := next q.tail } := by
    intro room
    have less := gap_next_first some_left
    change gap q.tail q.head + 1 < N at room
    change gap (next q.tail) q.head + 1 < N
    omega
  cases p with
  | idle => trivial
  | fullTail x head => exact ok
  | readHead x => exact keep ok
  | spaceHead x head => exact ⟨ok.1, keep ok.2⟩
  | spaceTail x head now => exact ⟨ok.1, ok.2.1, keep ok.2.2⟩
  | store x head => exact ⟨ok.1, keep ok.2⟩
  | advance x head => exact ⟨ok.1, keep ok.2.1, ok.2.2⟩
  | panicked => exact ok

theorem push_inv (asserts : Bool) {s : Spsc α N} (value : α) (inv : Inv s) :
    Inv (pushStep asserts s value) := by
  obtain ⟨⟨buf, head, tail⟩, pusher, popper, pushed, popped⟩ := s
  obtain ⟨stream, ok, other⟩ := inv
  cases pusher with
  | idle => exact ⟨stream, rfl, other⟩
  | fullTail x h =>
    obtain rfl : h = head := ok
    refine ⟨stream, ?_, other⟩
    change PusherOk _ (if next h = tail then _ else _)
    split
    · trivial
    · rename_i notFull
      have bound := gap_lt tail h
      rw [next_eq_iff] at notFull
      change gap tail h + 1 < N
      omega
  | readHead x =>
    refine ⟨stream, ?_, other⟩
    change PusherOk _ (if asserts = true then _ else _)
    split
    · exact ⟨rfl, ok⟩
    · exact ⟨rfl, ok⟩
  | spaceHead x h => exact ⟨stream, ⟨ok.1, rfl, ok.2⟩, other⟩
  | spaceTail x h now =>
    obtain ⟨same, rfl, room⟩ := ok
    refine ⟨stream, ?_, other⟩
    change PusherOk _ (if nspace now tail > 0 then _ else _)
    split
    · exact ⟨same, room⟩
    · rename_i none_left
      intro whole
      change gap tail now + 1 < N at room
      rw [nspace, nelem_eq_gap whole] at none_left
      omega
  | store x h =>
    obtain ⟨rfl, room⟩ := ok
    refine ⟨?_, ⟨rfl, room, Function.update_self _ _ _⟩, popper_store x other⟩
    exact stream.trans (congrArg _ (Cq.store_contents ⟨buf, h, tail⟩ x).symm)
  | advance x h =>
    obtain ⟨rfl, room, same⟩ := ok
    refine ⟨?_, trivial, popper_advance room other⟩
    change pushed ++ [x] = popped ++ Cq.contents ⟨buf, next h, tail⟩
    rw [Cq.advance_head ⟨buf, h, tail⟩ room, ← List.append_assoc, ← same]
    exact congrArg (· ++ [buf h]) stream
  | panicked => exact ⟨stream, ok, other⟩

theorem popAccess_ok {q q' : Cq α N} {p p' : Popper α N} {e : Option α} (ok : PopperOk q p)
    (access : popAccess q p = (q', p', e)) :
    PopperOk q' p' ∧ q.contents = e.toList ++ q'.contents ∧
      (q' = q ∨ Nonempty q ∧ q' = { q with tail := next q.tail }) := by
  cases p with
  | idle =>
    cases access
    exact ⟨gap_pos.mpr, rfl, Or.inl rfl⟩
  | emptyTail head =>
    cases access
    refine ⟨?_, rfl, Or.inl rfl⟩
    split
    · trivial
    · rename_i differ
      exact ok differ
  | readTail =>
    cases access
    exact ⟨⟨rfl, ok⟩, rfl, Or.inl rfl⟩
  | load tail =>
    cases access
    exact ⟨⟨ok.1, ok.2, rfl⟩, rfl, Or.inl rfl⟩
  | advance tail x =>
    cases access
    obtain ⟨rfl, some_left, same⟩ := ok
    refine ⟨trivial, ?_, Or.inr ⟨some_left, rfl⟩⟩
    rw [Cq.advance_tail q some_left, same]
    rfl

theorem pop_inv {s : Spsc α N} (inv : Inv s) : Inv (popStep s) := by
  obtain ⟨q, pusher, popper, pushed, popped⟩ := s
  obtain ⟨stream, other, ok⟩ := inv
  obtain ⟨q', popper', e, access⟩ : ∃ q' popper' e, popAccess q popper = (q', popper', e) :=
    ⟨_, _, _, rfl⟩
  obtain ⟨ok', taken, moved⟩ := popAccess_ok ok access
  unfold popStep
  rw [access]
  refine ⟨?_, ?_, ok'⟩
  · change pushed = popped ++ e.toList ++ q'.contents
    rw [List.append_assoc, ← taken]
    exact stream
  · rcases moved with rfl | ⟨some_left, rfl⟩
    · exact other
    · exact pusher_advance some_left other

theorem run_inv (asserts : Bool) (buf : Fin N → α) (schedule : List (Side α)) :
    Inv (run (step asserts) (start buf) schedule) := by
  apply run_invariant _ (start_inv buf)
  intro s side inv
  cases side with
  | push x => exact push_inv asserts x inv
  | pop => exact pop_inv inv

theorem apart {s : Spsc α N} (inv : Inv s) (i : Fin N) (write : s.pusher.writing = some i) :
    s.popper.reading ≠ some i := by
  have head : i = s.q.head := by
    have ok := inv.pusher
    cases here : s.pusher with
    | store x h =>
      rw [here] at write ok
      exact (Option.some.inj (write : some h = some i)).symm.trans ok.1
    | advance x h =>
      rw [here] at write ok
      exact (Option.some.inj (write : some h = some i)).symm.trans ok.1
    | _ => rw [here] at write; cases write
  have tail : ∀ j, s.popper.reading = some j → j = s.q.tail ∧ Nonempty s.q := by
    intro j read
    have ok := inv.popper
    cases here : s.popper with
    | load t =>
      rw [here] at read ok
      exact ⟨(Option.some.inj (read : some t = some j)).symm.trans ok.1, ok.2⟩
    | advance t e =>
      rw [here] at read ok
      exact ⟨(Option.some.inj (read : some t = some j)).symm.trans ok.1, ok.2.1⟩
    | _ => rw [here] at read; cases read
  intro read
  obtain ⟨same, some_left⟩ := tail i read
  exact gap_pos.mp some_left (head.symm.trans same)

end Invariant

/-- Whatever the order of the accesses: what is popped is what was pushed, from the front;
the rest is in the queue, which has at most N - 1 elements; no slot is read while it is
written; and with a size that divides 2^32 the assert of cq_push holds. -/
theorem queue_is_fifo (asserts : Bool) (buf : Fin N → α) (schedule : List (Side α)) :
    let s := run (step asserts) (start buf) schedule
    s.popped <+: s.pushed ∧ s.pushed = s.popped ++ s.q.contents ∧ s.q.contents.length ≤ N - 1 ∧
      (∀ i, s.pusher.writing = some i → s.popper.reading ≠ some i) ∧
      (N ∣ 2 ^ 32 → s.pusher ≠ .panicked) := by
  intro s
  have inv : Inv s := run_inv asserts buf schedule
  refine ⟨⟨s.q.contents, inv.stream.symm⟩, inv.stream, s.q.contents_short, apart inv, ?_⟩
  intro whole stuck
  have ok := inv.pusher
  rw [stuck] at ok
  exact ok whole

theorem byte_passes :
    let s := run (step true) (start fun _ : Fin 8192 => (0 : UInt8))
      [.push 7, .push 7, .push 7, .pop, .push 7, .push 7, .push 7, .push 7, .pop, .pop, .pop, .pop]
    s.popped <+: s.pushed ∧ s.pushed = s.popped ++ s.q.contents ∧ s.q.contents.length ≤ 8192 - 1 ∧
      (∀ i, s.pusher.writing = some i → s.popper.reading ≠ some i) ∧
      (8192 ∣ 2 ^ 32 → s.pusher ≠ .panicked) :=
  queue_is_fifo true _ _

end EmbeddedOS.Circular
