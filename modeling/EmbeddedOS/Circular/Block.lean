import EmbeddedOS.Circular.Spsc
import EmbeddedOS.Serial.Word

/-! cq_push_n and cq_pop_n_noblk, and the single calls between them, one memory access after the
other, in any order of the two sides. -/
namespace EmbeddedOS.Circular
open Ring Steps Serial

variable {α : Type} {N : Nat}

inductive PushCall (α : Type) where
  | push (x : α)
  | pushN (data : List α)

inductive PopCall where
  | popNonblock
  | popNNoblk (n : Nat)

/-- Which side goes on; a call is taken when the side is in none. -/
inductive Turn (α : Type) where
  | push (call : PushCall α)
  | pop (call : PopCall)

/-- Where the producer is, with the room that there was when its call began. -/
inductive BlockPusher (α : Type) (N : Nat) where
  | idle
  | one (x : α) (room : Nat)
  | nspaceTail (data : List α) (room : Nat) (head : Fin N)
  | pushing (data left : List α) (room : Nat)
  | asserted
  | impossible

/-- Where the consumer is, with the number of elements that there were when its call began. -/
inductive BlockPopper (α : Type) (N : Nat) where
  | idle
  | one (held : Nat)
  | nelemTail (n held : Nat) (head : Fin N)
  | popping (n left held : Nat) (got : List α)
  | deadlock

structure PushDone (α : Type) where
  data : List α
  room : Nat
  returned : Bool

structure PopDone (α : Type) where
  n : Nat
  held : Nat
  values : Option (List α)

/-- The queue with a cq_push and a cq_pop_nonblock, the calls around these, and those that have
returned. -/
structure Blocks (α : Type) (N : Nat) extends Spsc α N where
  writer : BlockPusher α N
  reader : BlockPopper α N
  sent : List (PushDone α)
  taken : List (PopDone α)

/-- What cq_push returns, when that was its last access. -/
def pushResult : Pusher α N → Pusher α N → Option Bool
  | .fullTail _ _, .idle => some false
  | .advance _ _, .idle => some true
  | _, _ => none

def free (q : Cq α N) : Nat := N - 1 - gap q.tail q.head

variable [NeZero N]

/-- One access of the producer; the loop of cq_push_n panics where a cq_push returns 0. -/
def writeStep (s : Blocks α N) (call : PushCall α) : Blocks α N :=
  match s.writer with
  | .idle =>
    match call with
    | .push x => { s with toSpsc := pushStep true s.toSpsc x, writer := .one x (free s.q) }
    | .pushN data =>
      if data.length = 0 then { s with writer := .asserted }
      else { s with writer := .nspaceTail data (free s.q) s.q.head }
  | .one x room =>
    let after := pushStep true s.toSpsc x
    match pushResult s.pusher after.pusher with
    | none => { s with toSpsc := after }
    | some result =>
      { s with toSpsc := after, writer := .idle, sent := s.sent ++ [⟨[x], room, result⟩] }
  | .nspaceTail data room head =>
    if nspace head s.q.tail < data.length then
      { s with writer := .idle, sent := s.sent ++ [⟨data, room, false⟩] }
    else { s with writer := .pushing data data room }
  | .pushing data [] room =>
    { s with writer := .idle, sent := s.sent ++ [⟨data, room, true⟩] }
  | .pushing data (x :: left) room =>
    let after := pushStep true s.toSpsc x
    match pushResult s.pusher after.pusher with
    | none => { s with toSpsc := after }
    | some true => { s with toSpsc := after, writer := .pushing data left room }
    | some false => { s with toSpsc := after, writer := .impossible }
  | .asserted => s
  | .impossible => s

/-- One access of the consumer; where cq_pop finds nothing it tries again, with interrupts
enabled. -/
def readStep (enabled : Bool) (s : Blocks α N) (call : PopCall) : Blocks α N :=
  match s.reader with
  | .idle =>
    match call with
    | .popNonblock =>
      { s with toSpsc := popStep s.toSpsc, reader := .one (gap s.q.tail s.q.head) }
    | .popNNoblk n => { s with reader := .nelemTail n (gap s.q.tail s.q.head) s.q.head }
  | .one held =>
    match popAccess s.q s.popper with
    | (_, .idle, e) =>
      { s with
        toSpsc := popStep s.toSpsc, reader := .idle
        taken := s.taken ++ [⟨1, held, e.map fun x => [x]⟩] }
    | _ => { s with toSpsc := popStep s.toSpsc }
  | .nelemTail n held head =>
    if nelem head s.q.tail < n then
      { s with reader := .idle, taken := s.taken ++ [⟨n, held, none⟩] }
    else { s with reader := .popping n n held [] }
  | .popping n 0 held got =>
    { s with reader := .idle, taken := s.taken ++ [⟨n, held, some got⟩] }
  | .popping n (left + 1) held got =>
    match popAccess s.q s.popper with
    | (_, _, some x) =>
      { s with toSpsc := popStep s.toSpsc, reader := .popping n left held (got ++ [x]) }
    | (_, .idle, none) =>
      { s with
        toSpsc := popStep s.toSpsc
        reader := if enabled then .popping n (left + 1) held got else .deadlock }
    | _ => { s with toSpsc := popStep s.toSpsc }
  | .deadlock => s

def blockStep (enabled : Bool) (s : Blocks α N) : Turn α → Blocks α N
  | .push call => writeStep s call
  | .pop call => readStep enabled s call

def blockStart (buf : Fin N → α) : Blocks α N := ⟨start buf, .idle, .idle, [], []⟩

def granted (sent : List (PushDone α)) : List α :=
  sent.flatMap fun c => if c.returned then c.data else []

def received (taken : List (PopDone α)) : List α := taken.flatMap fun c => c.values.getD []

/-- A call fails only where there was too little when it began, and stores n values or none. -/
def PopDone.Ok (c : PopDone α) : Prop :=
  match c.values with
  | none => c.held < c.n
  | some values => c.n ≤ c.held ∧ values.length = c.n

def PushDone.Ok (c : PushDone α) : Prop := c.returned = false → c.room < c.data.length

/-- Between its calls a side has moved what its calls that returned 1 were to move, in order, and
nothing else; no panic but the assert of n. -/
structure AllOrNothing (s : Blocks α N) : Prop where
  fifo : s.pushed = s.popped ++ s.q.contents
  pushed : s.writer = .idle → s.pushed = granted s.sent
  popped : s.reader = .idle → s.popped = received s.taken
  sent : ∀ c ∈ s.sent, c.Ok
  taken : ∀ c ∈ s.taken, c.Ok
  possible : s.writer ≠ .impossible
  asserts : s.pusher ≠ .panicked
  goes : s.reader ≠ .deadlock

section Invariant

def Pusher.value : Pusher α N → Option α
  | .idle => none
  | .fullTail x _ => some x
  | .readHead x => some x
  | .spaceHead x _ => some x
  | .spaceTail x _ _ => some x
  | .store x _ => some x
  | .advance x _ => some x
  | .panicked => none

def Pusher.cost : Pusher α N → Nat
  | .idle => 7
  | .fullTail _ _ => 6
  | .readHead _ => 5
  | .spaceHead _ _ => 4
  | .spaceTail _ _ _ => 3
  | .store _ _ => 2
  | .advance _ _ => 1
  | .panicked => 1

def Popper.cost : Popper α N → Nat
  | .idle => 5
  | .emptyTail _ => 4
  | .readTail => 3
  | .load _ => 2
  | .advance _ _ => 1

/-- What an access of cq_push does with the value x, by what it returns. -/
inductive PushOutcome (x : α) (s t : Spsc α N) : Option Bool → Prop where
  | going (value : t.pusher.value = some x) (pushed : t.pushed = s.pushed)
      (head : t.q.head = s.q.head) (cost : t.pusher.cost < s.pusher.cost) : PushOutcome x s t none
  | refused (idle : t.pusher = .idle) (pushed : t.pushed = s.pushed) (head : t.q.head = s.q.head)
      (full : gap s.q.tail s.q.head + 1 = N) : PushOutcome x s t (some false)
  | done (idle : t.pusher = .idle) (pushed : t.pushed = s.pushed ++ [x])
      (more : gap t.q.tail t.q.head = gap s.q.tail s.q.head + 1) : PushOutcome x s t (some true)

theorem push_keeps (s : Spsc α N) (x : α) :
    (pushStep true s x).popped = s.popped ∧ (pushStep true s x).popper = s.popper ∧
      (pushStep true s x).q.tail = s.q.tail := by
  obtain ⟨q, pusher, popper, pushed, popped⟩ := s
  cases pusher <;> exact ⟨rfl, rfl, rfl⟩

theorem push_result (whole : N ∣ 2 ^ 32) {s : Spsc α N} {x : α} (inv : Inv s)
    (at_x : s.pusher = .idle ∨ s.pusher.value = some x) :
    PushOutcome x s (pushStep true s x) (pushResult s.pusher (pushStep true s x).pusher) := by
  obtain ⟨q, pusher, popper, pushed, popped⟩ := s
  have ok : PusherOk q pusher := inv.pusher
  cases pusher with
  | idle => exact .going rfl rfl rfl (by decide : 6 < 7)
  | fullTail y h =>
    obtain rfl : h = q.head := ok
    obtain rfl : y = x := by simpa [Pusher.value] using at_x
    by_cases full : next q.head = q.tail
    · have idle : (pushStep true ⟨q, .fullTail y q.head, popper, pushed, popped⟩ y).pusher = .idle :=
        if_pos full
      rw [idle]
      exact .refused idle rfl rfl ((next_eq_iff _ _).mp full)
    · have goes : (pushStep true ⟨q, .fullTail y q.head, popper, pushed, popped⟩ y).pusher =
          .readHead y := if_neg full
      rw [goes]
      exact .going (by rw [goes]; rfl) rfl rfl (by rw [goes]; exact (by decide : 5 < 6))
  | readHead y =>
    obtain rfl : y = x := by simpa [Pusher.value] using at_x
    exact .going rfl rfl rfl (by decide : 4 < 5)
  | spaceHead y h =>
    obtain rfl : y = x := by simpa [Pusher.value] using at_x
    exact .going rfl rfl rfl (by decide : 3 < 4)
  | spaceTail y h now =>
    obtain rfl : y = x := by simpa [Pusher.value] using at_x
    obtain ⟨-, rfl, room⟩ := ok
    have space : nspace q.head q.tail > 0 := by
      change gap q.tail q.head + 1 < N at room
      rw [nspace, nelem_eq_gap whole]
      omega
    have goes : (pushStep true ⟨q, .spaceTail y h q.head, popper, pushed, popped⟩ y).pusher =
        .store y h := if_pos space
    rw [goes]
    exact .going (by rw [goes]; rfl) rfl rfl (by rw [goes]; exact (by decide : 2 < 3))
  | store y h =>
    obtain rfl : y = x := by simpa [Pusher.value] using at_x
    exact .going rfl rfl rfl (by decide : 1 < 2)
  | advance y h =>
    obtain rfl : y = x := by simpa [Pusher.value] using at_x
    obtain ⟨rfl, room, -⟩ := ok
    exact .done rfl rfl (gap_next_last room)
  | panicked => exact absurd whole ok

inductive PopOutcome (q : Cq α N) (p : Popper α N) : Cq α N × Popper α N × Option α → Prop where
  | going (p' : Popper α N) (busy : p' ≠ .idle) (cost : p'.cost < p.cost)
      (compared : ∀ head, p' = .emptyTail head → p = .idle ∧ head = q.head)
      (later : (∀ head, p' ≠ .emptyTail head) → (∀ head, p = .emptyTail head → head ≠ q.tail) ∧ p ≠ .idle) :
      PopOutcome q p (q, p', none)
  | empty (place : p = .emptyTail q.tail) : PopOutcome q p (q, .idle, none)
  | done (x : α) (place : p = .advance q.tail x) :
      PopOutcome q p ({ q with tail := next q.tail }, .idle, some x)

theorem pop_result {q : Cq α N} {p : Popper α N} (ok : PopperOk q p) :
    PopOutcome q p (popAccess q p) := by
  cases p with
  | idle =>
    refine .going (.emptyTail q.head) nofun (by decide : 4 < 5) (fun head same => ⟨rfl, ?_⟩) ?_
    · cases same
      rfl
    · exact fun other => absurd rfl (other q.head)
  | emptyTail head =>
    by_cases empty : head = q.tail
    · subst empty
      have access : popAccess q (.emptyTail q.tail) = (q, .idle, none) := by simp [popAccess]
      rw [access]
      exact .empty rfl
    · have access : popAccess q (.emptyTail head) = (q, .readTail, none) := by
        simp [popAccess, empty]
      rw [access]
      refine .going .readTail nofun (by decide : 3 < 4) nofun fun _ => ⟨fun other same => ?_, nofun⟩
      cases same
      exact empty
  | readTail => exact .going (.load q.tail) nofun (by decide : 2 < 3) nofun fun _ => ⟨nofun, nofun⟩
  | load tail =>
    exact .going (.advance tail (q.buf tail)) nofun (by decide : 1 < 2) nofun
      fun _ => ⟨nofun, nofun⟩
  | advance tail e =>
    obtain ⟨rfl, -, -⟩ := ok
    exact .done e rfl

/-- What the producer knows of its call at each place. -/
def BlockPusher.Ok (s : Blocks α N) : BlockPusher α N → Prop
  | .idle => s.pusher = .idle ∧ s.pushed = granted s.sent
  | .one x room => s.pusher.value = some x ∧ s.pushed = granted s.sent ∧ room ≤ free s.q
  | .nspaceTail _ room head =>
    s.pusher = .idle ∧ s.pushed = granted s.sent ∧ head = s.q.head ∧ room ≤ free s.q
  | .pushing data left _ =>
    (s.pusher = .idle ∨ ∃ x, left.head? = some x ∧ s.pusher.value = some x) ∧
      (∃ put, data = put ++ left ∧ s.pushed = granted s.sent ++ put) ∧
      gap s.q.tail s.q.head + left.length < N
  | .asserted => True
  | .impossible => False

/-- The test of a cq_pop_nonblock, beside the elements that there were. -/
def OneHeld (q : Cq α N) (held : Nat) : Popper α N → Prop
  | .idle => False
  | .emptyTail head => held = gap q.tail head
  | _ => 0 < held

def BlockPopper.Ok (s : Blocks α N) : BlockPopper α N → Prop
  | .idle => s.popper = .idle ∧ s.popped = received s.taken
  | .one held => OneHeld s.q held s.popper ∧ s.popped = received s.taken
  | .nelemTail _ held head =>
    s.popper = .idle ∧ s.popped = received s.taken ∧ held = gap s.q.tail head ∧
      held ≤ gap s.q.tail s.q.head
  | .popping n left held got =>
    s.popped = received s.taken ++ got ∧ got.length + left = n ∧ n ≤ held ∧
      left ≤ gap s.q.tail s.q.head ∧ (left = 0 → s.popper = .idle) ∧
      ∀ head, s.popper = .emptyTail head → head ≠ s.q.tail
  | .deadlock => False

structure BlocksInv (s : Blocks α N) : Prop where
  base : Inv s.toSpsc
  writer : s.writer.Ok s
  reader : s.reader.Ok s
  sent : ∀ c ∈ s.sent, c.Ok
  taken : ∀ c ∈ s.taken, c.Ok

theorem blockStart_inv (buf : Fin N → α) : BlocksInv (blockStart buf) :=
  ⟨start_inv buf, ⟨rfl, rfl⟩, ⟨rfl, rfl⟩, nofun, nofun⟩

omit [NeZero N] in
theorem granted_snoc (sent : List (PushDone α)) (c : PushDone α) :
    granted (sent ++ [c]) = granted sent ++ if c.returned then c.data else [] := by
  simp [granted]

omit [NeZero N] in
theorem received_snoc (taken : List (PopDone α)) (c : PopDone α) :
    received (taken ++ [c]) = received taken ++ c.values.getD [] := by
  simp [received]

omit [NeZero N] in
/-- What the consumer knows holds on while the producer goes on. -/
theorem reader_stays {s t : Blocks α N} (reader : t.reader = s.reader) (taken : t.taken = s.taken)
    (popped : t.popped = s.popped) (popper : t.popper = s.popper) (tail : t.q.tail = s.q.tail)
    (more : gap s.q.tail s.q.head ≤ gap t.q.tail t.q.head) (ok : s.reader.Ok s) :
    t.reader.Ok t := by
  rw [reader]
  generalize s.reader = place at ok
  cases place with
  | idle => exact ⟨popper.trans ok.1, by rw [popped, taken, ok.2]⟩
  | one held =>
    obtain ⟨test, same⟩ := ok
    refine ⟨?_, by rw [popped, taken, same]⟩
    rw [popper]
    generalize s.popper = at_ at test
    cases at_ with
    | emptyTail head =>
      change held = gap t.q.tail head
      rw [tail]
      exact test
    | _ => exact test
  | nelemTail n held head =>
    obtain ⟨idle, same, size, small⟩ := ok
    refine ⟨popper.trans idle, by rw [popped, taken, same], ?_, small.trans more⟩
    rw [tail]
    exact size
  | popping n left held got =>
    obtain ⟨same, count, enough, there, done, differ⟩ := ok
    refine ⟨by rw [popped, taken, same], count, enough, there.trans more, ?_, ?_⟩
    · rw [popper]
      exact done
    · rw [popper, tail]
      exact differ
  | deadlock => exact ok.elim

omit [NeZero N] in
/-- What the producer knows holds on while the consumer goes on. -/
theorem writer_stays {s t : Blocks α N} (writer : t.writer = s.writer) (sent : t.sent = s.sent)
    (pushed : t.pushed = s.pushed) (pusher : t.pusher = s.pusher) (head : t.q.head = s.q.head)
    (less : gap t.q.tail t.q.head ≤ gap s.q.tail s.q.head) (ok : s.writer.Ok s) :
    t.writer.Ok t := by
  have room : free s.q ≤ free t.q := by
    unfold free
    omega
  rw [writer]
  generalize s.writer = place at ok
  cases place with
  | idle => exact ⟨pusher.trans ok.1, by rw [pushed, sent, ok.2]⟩
  | one x before =>
    obtain ⟨value, same, small⟩ := ok
    exact ⟨by rw [pusher, value], by rw [pushed, sent, same], small.trans room⟩
  | nspaceTail data before first =>
    obtain ⟨idle, same, here, small⟩ := ok
    exact ⟨pusher.trans idle, by rw [pushed, sent, same], here.trans head.symm, small.trans room⟩
  | pushing data left before =>
    obtain ⟨value, ⟨put, split, same⟩, fits⟩ := ok
    refine ⟨?_, ⟨put, split, by rw [pushed, sent, same]⟩, by omega⟩
    rw [pusher]
    exact value
  | asserted => trivial
  | impossible => exact ok.elim

omit [NeZero N] in
theorem PushOutcome.grows {x : α} {s t : Spsc α N} {result : Option Bool}
    (outcome : PushOutcome x s t result) (tail : t.q.tail = s.q.tail) :
    gap s.q.tail s.q.head ≤ gap t.q.tail t.q.head := by
  cases outcome with
  | going value pushed head cost => rw [tail, head]
  | refused idle pushed head full => rw [tail, head]
  | done idle pushed more => omega

theorem pushing_inv {s : Blocks α N} {x : α} {writer : BlockPusher α N} {sent : List (PushDone α)}
    (inv : BlocksInv s) {result : Option Bool}
    (outcome : PushOutcome x s.toSpsc (pushStep true s.toSpsc x) result)
    (ok : writer.Ok
      { s with toSpsc := pushStep true s.toSpsc x, writer := writer, sent := sent })
    (all : ∀ c ∈ sent, c.Ok) :
    BlocksInv { s with toSpsc := pushStep true s.toSpsc x, writer := writer, sent := sent } := by
  obtain ⟨popped, popper, tail⟩ := push_keeps s.toSpsc x
  have reader := reader_stays (s := s)
    (t := { s with toSpsc := pushStep true s.toSpsc x, writer := writer, sent := sent })
    rfl rfl popped popper tail (outcome.grows tail) inv.reader
  exact ⟨push_inv true x inv.base, ok, reader, all, inv.taken⟩

/-- A place of the producer between two accesses of cq_push. -/
theorem writing_inv {s : Blocks α N} {writer : BlockPusher α N} {sent : List (PushDone α)}
    (inv : BlocksInv s) (ok : writer.Ok { s with writer := writer, sent := sent })
    (all : ∀ c ∈ sent, c.Ok) : BlocksInv { s with writer := writer, sent := sent } :=
  ⟨inv.base, ok, reader_stays rfl rfl rfl rfl rfl (Nat.le_refl _) inv.reader, all, inv.taken⟩

theorem all_append {β : Type} {R : β → Prop} {l : List β} {c : β} (all : ∀ d ∈ l, R d) (one : R c) :
    ∀ d ∈ l ++ [c], R d :=
  List.forall_mem_append.mpr ⟨all, List.forall_mem_singleton.mpr one⟩

omit [NeZero N] in
theorem free_of {s t : Spsc α N} (tail : t.q.tail = s.q.tail) (head : t.q.head = s.q.head) :
    free t.q = free s.q := by
  rw [free, free, tail, head]

theorem one_inv (whole : N ∣ 2 ^ 32) {s : Blocks α N} {x : α} {room : Nat} (call : PushCall α)
    (inv : BlocksInv s) (place : s.writer = .one x room) : BlocksInv (writeStep s call) := by
  have ok := inv.writer
  rw [place] at ok
  obtain ⟨value, same, small⟩ := ok
  have outcome := push_result whole inv.base (Or.inr value)
  have tail := (push_keeps s.toSpsc x).2.2
  unfold writeStep
  rw [place]
  dsimp only
  generalize result_eq : pushResult s.pusher (pushStep true s.toSpsc x).pusher = result at outcome
  have outcome' := outcome
  cases outcome with
  | going value' pushed head cost =>
    refine pushing_inv inv outcome' ⟨value', pushed.trans same, ?_⟩ inv.sent
    rw [free_of tail head]
    exact small
  | refused idle pushed head full =>
    refine pushing_inv inv outcome' ⟨idle, ?_⟩ (all_append inv.sent fun _ => ?_)
    · rw [granted_snoc]
      exact pushed.trans (same.trans (List.append_nil _).symm)
    · change room < 1
      unfold free at small
      omega
  | done idle pushed more =>
    refine pushing_inv inv outcome' ⟨idle, ?_⟩ (all_append inv.sent nofun)
    rw [granted_snoc]
    exact pushed.trans (congrArg (· ++ [x]) same)

omit [NeZero N] in
theorem value_first {p : Pusher α N} {left : List α} {x : α}
    (value : p = .idle ∨ ∃ y, (x :: left).head? = some y ∧ p.value = some y) : p = .idle ∨ p.value = some x := by
  rcases value with idle | ⟨y, first, holds⟩
  · exact Or.inl idle
  · cases first
    exact Or.inr holds

omit [NeZero N] in
theorem value_end {p : Pusher α N}
    (value : p = .idle ∨ ∃ y, ([] : List α).head? = some y ∧ p.value = some y) : p = .idle := by
  rcases value with idle | ⟨y, first, -⟩
  · exact idle
  · cases first

theorem loop_inv (whole : N ∣ 2 ^ 32) {s : Blocks α N} {data left : List α} {x : α} {room : Nat}
    (call : PushCall α) (inv : BlocksInv s) (place : s.writer = .pushing data (x :: left) room) :
    BlocksInv (writeStep s call) := by
  have ok := inv.writer
  rw [place] at ok
  obtain ⟨value, ⟨put, split, same⟩, fits⟩ := ok
  have outcome := push_result whole inv.base (value_first value)
  have tail := (push_keeps s.toSpsc x).2.2
  unfold writeStep
  rw [place]
  dsimp only
  generalize result_eq : pushResult s.pusher (pushStep true s.toSpsc x).pusher = result at outcome
  have outcome' := outcome
  rw [List.length_cons] at fits
  cases outcome with
  | going value' pushed head cost =>
    refine pushing_inv inv outcome' ⟨Or.inr ⟨x, rfl, value'⟩, ⟨put, split, pushed.trans same⟩, ?_⟩
      inv.sent
    change gap (pushStep true s.toSpsc x).q.tail (pushStep true s.toSpsc x).q.head + _ < N
    rw [tail, head]
    exact fits
  | refused idle pushed head full => omega
  | done idle pushed more =>
    refine pushing_inv inv outcome' ⟨Or.inl idle, ⟨put ++ [x], ?_, ?_⟩, ?_⟩ inv.sent
    · rw [split, List.append_assoc]
      rfl
    · change (pushStep true s.toSpsc x).pushed = _
      rw [pushed, same, List.append_assoc]
    · change gap (pushStep true s.toSpsc x).q.tail (pushStep true s.toSpsc x).q.head + _ < N
      omega

theorem write_inv (whole : N ∣ 2 ^ 32) {s : Blocks α N} (call : PushCall α) (inv : BlocksInv s) :
    BlocksInv (writeStep s call) := by
  have ok := inv.writer
  cases place : s.writer with
  | idle =>
    rw [place] at ok
    obtain ⟨idle, same⟩ := ok
    unfold writeStep
    rw [place]
    cases call with
    | push x =>
      have outcome := push_result whole (x := x) inv.base (Or.inl idle)
      have tail := (push_keeps s.toSpsc x).2.2
      refine pushing_inv inv outcome ?_ inv.sent
      rw [idle] at outcome
      cases outcome with
      | going value pushed head cost =>
        exact ⟨value, pushed.trans same, Nat.le_of_eq (free_of tail head).symm⟩
    | pushN data =>
      dsimp only
      split
      · exact writing_inv inv trivial inv.sent
      · exact writing_inv inv ⟨idle, same, rfl, Nat.le_refl _⟩ inv.sent
  | one x room => exact one_inv whole call inv place
  | nspaceTail data room head =>
    rw [place] at ok
    obtain ⟨idle, same, rfl, small⟩ := ok
    have space : nspace s.q.head s.q.tail = free s.q := by rw [nspace, nelem_eq_gap whole, free]
    unfold writeStep
    rw [place]
    dsimp only
    rw [space]
    split
    · refine writing_inv inv ⟨idle, ?_⟩ (all_append inv.sent fun _ => ?_)
      · rw [granted_snoc]
        exact same.trans (List.append_nil _).symm
      · exact Nat.lt_of_le_of_lt small ‹_›
    · rename_i enough
      have bound := gap_lt s.q.tail s.q.head
      refine writing_inv inv ⟨Or.inl idle, ⟨[], rfl, same.trans (List.append_nil _).symm⟩, ?_⟩ inv.sent
      change gap s.q.tail s.q.head + data.length < N
      unfold free at enough
      omega
  | pushing data left room =>
    cases left with
    | nil =>
      rw [place] at ok
      obtain ⟨value, ⟨put, split, same⟩, -⟩ := ok
      have idle := value_end value
      unfold writeStep
      rw [place]
      refine writing_inv inv ⟨idle, ?_⟩ (all_append inv.sent ?_)
      · rw [granted_snoc, split, List.append_nil]
        exact same
      · intro refused
        cases refused
    | cons x left => exact loop_inv whole call inv place
  | asserted =>
    unfold writeStep
    rw [place]
    exact inv
  | impossible =>
    rw [place] at ok
    exact ok.elim

theorem popStep_of {s : Spsc α N} {q : Cq α N} {p : Popper α N} {e : Option α}
    (access : popAccess s.q s.popper = (q, p, e)) :
    popStep s = { s with q := q, popper := p, popped := s.popped ++ e.toList } := by
  rw [popStep, access]

theorem pop_shrinks {s : Spsc α N} (inv : Inv s) :
    (popStep s).q.head = s.q.head ∧
      gap (popStep s).q.tail (popStep s).q.head ≤ gap s.q.tail s.q.head := by
  obtain ⟨q, p, e, access⟩ : ∃ q p e, popAccess s.q s.popper = (q, p, e) := ⟨_, _, _, rfl⟩
  obtain ⟨-, -, moved⟩ := popAccess_ok inv.popper access
  rw [popStep_of access]
  rcases moved with rfl | ⟨some_left, rfl⟩
  · exact ⟨rfl, Nat.le_refl _⟩
  · have less := gap_next_first some_left
    refine ⟨rfl, ?_⟩
    change gap (next s.q.tail) s.q.head ≤ _
    omega

/-- An access of cq_pop_nonblock, with what the consumer then knows. -/
theorem popping_inv {s : Blocks α N} {reader : BlockPopper α N} {taken : List (PopDone α)}
    (inv : BlocksInv s)
    (ok : reader.Ok { s with toSpsc := popStep s.toSpsc, reader := reader, taken := taken })
    (all : ∀ c ∈ taken, c.Ok) :
    BlocksInv { s with toSpsc := popStep s.toSpsc, reader := reader, taken := taken } := by
  obtain ⟨head, less⟩ := pop_shrinks inv.base
  have writer := writer_stays (s := s)
    (t := { s with toSpsc := popStep s.toSpsc, reader := reader, taken := taken })
    rfl rfl rfl rfl head less inv.writer
  exact ⟨pop_inv inv.base, writer, ok, inv.sent, all⟩

theorem reading_inv {s : Blocks α N} {reader : BlockPopper α N} {taken : List (PopDone α)}
    (inv : BlocksInv s) (ok : reader.Ok { s with reader := reader, taken := taken })
    (all : ∀ c ∈ taken, c.Ok) : BlocksInv { s with reader := reader, taken := taken } :=
  ⟨inv.base, writer_stays rfl rfl rfl rfl rfl (Nat.le_refl _) inv.writer, ok, inv.sent, all⟩

theorem one_held {q : Cq α N} {held : Nat} {p p' : Popper α N} (test : OneHeld q held p)
    (busy : p' ≠ .idle) (compared : ∀ head, p' = .emptyTail head → p = .idle ∧ head = q.head)
    (later : (∀ head, p' ≠ .emptyTail head) →
      (∀ head, p = .emptyTail head → head ≠ q.tail) ∧ p ≠ .idle) : OneHeld q held p' := by
  have none_left : ∀ head, p' ≠ .emptyTail head := by
    intro head here
    rw [(compared head here).1] at test
    exact test
  obtain ⟨differ, started⟩ := later none_left
  have positive : 0 < held := by
    cases p with
    | idle => exact absurd rfl started
    | emptyTail head =>
      rw [show held = gap q.tail head from test, gap_pos]
      exact differ head rfl
    | _ => exact test
  cases p' with
  | idle => exact absurd rfl busy
  | emptyTail head => exact absurd rfl (none_left head)
  | _ => exact positive

theorem single_inv {s : Blocks α N} {held : Nat} (enabled : Bool) (call : PopCall)
    (inv : BlocksInv s) (place : s.reader = .one held) : BlocksInv (readStep enabled s call) := by
  have ok := inv.reader
  rw [place] at ok
  obtain ⟨test, same⟩ := ok
  have outcome := pop_result inv.base.popper
  unfold readStep
  rw [place]
  dsimp only
  generalize access : popAccess s.q s.popper = result at outcome
  cases outcome with
  | going p' busy cost compared later =>
    have after := popStep_of access
    have stays : BlocksInv { s with toSpsc := popStep s.toSpsc, reader := .one held } := by
      refine popping_inv inv ⟨?_, ?_⟩ inv.taken
      · rw [after]
        exact one_held test busy compared later
      · rw [after]
        exact (List.append_nil _).trans same
    cases p' with
    | idle => exact absurd rfl busy
    | _ => exact stays
  | empty here =>
    have after := popStep_of access
    rw [here] at test
    refine popping_inv inv ⟨?_, ?_⟩ (all_append inv.taken ?_)
    · rw [after]
    · rw [after, received_snoc]
      exact congrArg (· ++ []) same
    · change held < 1
      rw [show held = gap s.q.tail s.q.tail from test, gap_self]
      exact Nat.one_pos
  | done x here =>
    have after := popStep_of access
    rw [here] at test
    refine popping_inv inv ⟨?_, ?_⟩ (all_append inv.taken ⟨test, rfl⟩)
    · rw [after]
    · rw [after, received_snoc]
      exact congrArg (· ++ [x]) same

theorem pop_loop_inv {s : Blocks α N} {n left held : Nat} {got : List α} (enabled : Bool)
    (call : PopCall) (inv : BlocksInv s) (place : s.reader = .popping n (left + 1) held got) :
    BlocksInv (readStep enabled s call) := by
  have ok := inv.reader
  rw [place] at ok
  obtain ⟨same, count, enough, there, -, differ⟩ := ok
  have outcome := pop_result inv.base.popper
  unfold readStep
  rw [place]
  dsimp only
  generalize access : popAccess s.q s.popper = result at outcome
  cases outcome with
  | going p' busy cost compared later =>
    have after := popStep_of access
    have stays : BlocksInv
        { s with toSpsc := popStep s.toSpsc, reader := .popping n (left + 1) held got } := by
      refine popping_inv inv ⟨?_, count, enough, ?_, nofun, ?_⟩ inv.taken
      · rw [after]
        exact (List.append_nil _).trans same
      · rw [after]
        exact there
      · rw [after]
        intro head here
        rw [(compared head here).2]
        exact gap_pos.mp (Nat.lt_of_lt_of_le (Nat.succ_pos left) there)
    cases p' with
    | idle => exact absurd rfl busy
    | _ => exact stays
  | empty here => exact absurd rfl (differ _ here)
  | done x here =>
    have after := popStep_of access
    refine popping_inv inv ⟨?_, ?_, enough, ?_, ?_, ?_⟩ inv.taken
    · rw [after]
      change s.popped ++ [x] = _
      rw [same, List.append_assoc]
    · rw [List.length_append, List.length_singleton]
      omega
    · rw [after]
      have less := gap_next_first (Nat.lt_of_lt_of_le (Nat.succ_pos left) there)
      change left ≤ gap (next s.q.tail) s.q.head
      omega
    · rw [after]
      exact fun _ => rfl
    · rw [after]
      exact nofun

theorem read_inv (whole : N ∣ 2 ^ 32) {s : Blocks α N} (enabled : Bool) (call : PopCall)
    (inv : BlocksInv s) : BlocksInv (readStep enabled s call) := by
  have ok := inv.reader
  cases place : s.reader with
  | idle =>
    rw [place] at ok
    obtain ⟨idle, same⟩ := ok
    unfold readStep
    rw [place]
    cases call with
    | popNonblock =>
      have after : popStep s.toSpsc =
          { s.toSpsc with popper := .emptyTail s.q.head, popped := s.popped ++ [] } :=
        popStep_of (by rw [idle, popAccess])
      refine popping_inv inv ⟨?_, ?_⟩ inv.taken
      · rw [after]
        exact rfl
      · rw [after]
        exact (List.append_nil _).trans same
    | popNNoblk n => exact reading_inv inv ⟨idle, same, rfl, Nat.le_refl _⟩ inv.taken
  | one held => exact single_inv enabled call inv place
  | nelemTail n held head =>
    rw [place] at ok
    obtain ⟨idle, same, size, small⟩ := ok
    unfold readStep
    rw [place]
    dsimp only
    rw [nelem_eq_gap whole, ← size]
    split
    · refine reading_inv inv ⟨idle, ?_⟩ (all_append inv.taken ‹_›)
      rw [received_snoc]
      exact same.trans (List.append_nil _).symm
    · rename_i enough
      have le := Nat.le_of_not_lt enough
      refine reading_inv inv ⟨?_, Nat.zero_add n, le, le.trans small, fun _ => idle, ?_⟩ inv.taken
      · exact same.trans (List.append_nil _).symm
      · intro first here
        exact absurd (idle.symm.trans here) nofun
  | popping n left held got =>
    cases left with
    | zero =>
      rw [place] at ok
      obtain ⟨same, count, enough, -, idle, -⟩ := ok
      unfold readStep
      rw [place]
      refine reading_inv inv ⟨idle rfl, ?_⟩ (all_append inv.taken ⟨enough, count⟩)
      rw [received_snoc]
      exact same
    | succ left => exact pop_loop_inv enabled call inv place
  | deadlock =>
    rw [place] at ok
    exact ok.elim

theorem block_inv (whole : N ∣ 2 ^ 32) (enabled : Bool) (s : Blocks α N) (turn : Turn α)
    (inv : BlocksInv s) : BlocksInv (blockStep enabled s turn) := by
  cases turn with
  | push call => exact write_inv whole call inv
  | pop call => exact read_inv whole enabled call inv

theorem BlocksInv.allOrNothing (whole : N ∣ 2 ^ 32) {s : Blocks α N} (inv : BlocksInv s) :
    AllOrNothing s := by
  refine ⟨inv.base.stream, fun place => ?_, fun place => ?_, inv.sent, inv.taken, fun place => ?_,
    fun place => ?_, fun place => ?_⟩
  · have ok := inv.writer
    rw [place] at ok
    exact ok.2
  · have ok := inv.reader
    rw [place] at ok
    exact ok.2
  · have ok := inv.writer
    rw [place] at ok
    exact ok
  · have ok := inv.base.pusher
    rw [place] at ok
    exact ok whole
  · have ok := inv.reader
    rw [place] at ok
    exact ok

end Invariant

end EmbeddedOS.Circular
