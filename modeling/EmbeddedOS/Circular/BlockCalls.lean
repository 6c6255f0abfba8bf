import EmbeddedOS.Circular.Block

/-! The block calls return, and words of four bytes stay whole. -/
namespace EmbeddedOS.Circular
open Ring Steps Serial

variable {α : Type} {N : Nat}

def Turn.isPush : Turn α → Bool
  | .push _ => true
  | .pop _ => false

def Turn.isPop : Turn α → Bool
  | .push _ => false
  | .pop _ => true

variable [NeZero N]

/-- After some number of accesses of its own a side is out of its call, whatever the other side
does in between. -/
structure Returns (enabled : Bool) (s : Blocks α N) : Prop where
  push : ∃ accesses, ∀ more : List (Turn α), accesses ≤ more.countP Turn.isPush →
    ∃ first rest, more = first ++ rest ∧
      ((run (blockStep enabled) s first).writer = .idle ∨
        (run (blockStep enabled) s first).writer = .asserted)
  pop : ∃ accesses, ∀ more : List (Turn α), accesses ≤ more.countP Turn.isPop →
    ∃ first rest, more = first ++ rest ∧ (run (blockStep enabled) s first).reader = .idle

section Cost

def BlockPusher.cost (at_ : Pusher α N) : BlockPusher α N → Nat
  | .idle => 0
  | .one _ _ => at_.cost
  | .nspaceTail data _ _ => 7 * data.length + 2
  | .pushing _ left _ => 7 * left.length + at_.cost - 6
  | .asserted => 0
  | .impossible => 0

def BlockPopper.cost (at_ : Popper α N) : BlockPopper α N → Nat
  | .idle => 0
  | .one _ => at_.cost
  | .nelemTail n _ _ => 5 * n + 2
  | .popping _ left _ _ => 5 * left + at_.cost - 4
  | .deadlock => 0

omit [NeZero N] in
theorem Pusher.cost_pos (p : Pusher α N) : 0 < p.cost := by
  cases p <;> exact Nat.succ_pos _

omit [NeZero N] in
theorem Popper.cost_pos (p : Popper α N) : 0 < p.cost := by
  cases p <;> exact Nat.succ_pos _

theorem write_lowers (whole : N ∣ 2 ^ 32) {s : Blocks α N} (call : PushCall α) (inv : BlocksInv s)
    (busy : 0 < s.writer.cost s.pusher) :
    (writeStep s call).writer.cost (writeStep s call).pusher < s.writer.cost s.pusher := by
  have ok := inv.writer
  cases place : s.writer with
  | idle =>
    rw [place] at busy
    exact absurd busy (Nat.lt_irrefl 0)
  | one x room =>
    rw [place] at ok
    have outcome := push_result whole inv.base (Or.inr ok.1)
    unfold writeStep
    rw [place]
    dsimp only
    generalize pushResult s.pusher (pushStep true s.toSpsc x).pusher = result at outcome
    cases outcome with
    | going value pushed head cost => exact cost
    | refused idle pushed head full => exact s.pusher.cost_pos
    | done idle pushed more => exact s.pusher.cost_pos
  | nspaceTail data room head =>
    rw [place] at ok
    unfold writeStep
    rw [place]
    dsimp only
    split
    · exact Nat.succ_pos _
    · change 7 * data.length + s.pusher.cost - 6 < 7 * data.length + 2
      rw [ok.1]
      change 7 * data.length + 7 - 6 < 7 * data.length + 2
      omega
  | pushing data left room =>
    rw [place] at ok
    obtain ⟨value, -, fits⟩ := ok
    cases left with
    | nil =>
      have idle := value_end value
      unfold writeStep
      rw [place, idle]
      exact Nat.one_pos
    | cons x left =>
      have outcome := push_result whole inv.base (value_first value)
      have positive := s.pusher.cost_pos
      unfold writeStep
      rw [place]
      dsimp only
      generalize pushResult s.pusher (pushStep true s.toSpsc x).pusher = result at outcome
      change _ < 7 * (left.length + 1) + s.pusher.cost - 6
      cases outcome with
      | going value' pushed head cost =>
        change 7 * (left.length + 1) + (pushStep true s.toSpsc x).pusher.cost - 6 < _
        omega
      | refused idle pushed head full => exact Nat.lt_of_lt_of_le (Nat.succ_pos 0) (by omega)
      | done idle pushed more =>
        change 7 * left.length + (pushStep true s.toSpsc x).pusher.cost - 6 < _
        rw [idle]
        change 7 * left.length + 7 - 6 < _
        omega
  | asserted =>
    rw [place] at busy
    exact absurd busy (Nat.lt_irrefl 0)
  | impossible =>
    rw [place] at ok
    exact ok.elim

theorem read_lowers {s : Blocks α N} (enabled : Bool) (call : PopCall)
    (inv : BlocksInv s) (busy : 0 < s.reader.cost s.popper) :
    (readStep enabled s call).reader.cost (readStep enabled s call).popper <
      s.reader.cost s.popper := by
  have ok := inv.reader
  have outcome := pop_result inv.base.popper
  cases place : s.reader with
  | idle =>
    rw [place] at busy
    exact absurd busy (Nat.lt_irrefl 0)
  | one held =>
    unfold readStep
    rw [place]
    dsimp only
    generalize access : popAccess s.q s.popper = result at outcome
    cases outcome with
    | going p' not_idle cost compared later =>
      have after := popStep_of access
      have lower : (popStep s.toSpsc).popper.cost < s.popper.cost := by
        rw [after]
        exact cost
      cases p' with
      | idle => exact absurd rfl not_idle
      | _ => exact lower
    | empty here => exact s.popper.cost_pos
    | done x here => exact s.popper.cost_pos
  | nelemTail n held head =>
    rw [place] at ok
    unfold readStep
    rw [place]
    dsimp only
    split
    · exact Nat.succ_pos _
    · change 5 * n + s.popper.cost - 4 < 5 * n + 2
      rw [ok.1]
      change 5 * n + 5 - 4 < 5 * n + 2
      omega
  | popping n left held got =>
    rw [place] at ok
    obtain ⟨-, -, -, -, idle, differ⟩ := ok
    cases left with
    | zero =>
      unfold readStep
      rw [place, idle rfl]
      exact Nat.one_pos
    | succ left =>
      have positive := s.popper.cost_pos
      unfold readStep
      rw [place]
      dsimp only
      generalize access : popAccess s.q s.popper = result at outcome
      change _ < 5 * (left + 1) + s.popper.cost - 4
      cases outcome with
      | going p' not_idle cost compared later =>
        have after := popStep_of access
        have lower : 5 * (left + 1) + (popStep s.toSpsc).popper.cost - 4 <
            5 * (left + 1) + s.popper.cost - 4 := by
          rw [after]
          change 5 * (left + 1) + p'.cost - 4 < _
          omega
        cases p' with
        | idle => exact absurd rfl not_idle
        | _ => exact lower
      | empty here => exact absurd rfl (differ _ here)
      | done x here =>
        have after := popStep_of access
        change 5 * left + (popStep s.toSpsc).popper.cost - 4 < _
        rw [after]
        change 5 * left + 5 - 4 < _
        omega
  | deadlock =>
    rw [place] at ok
    exact ok.elim

theorem write_apart (s : Blocks α N) (call : PushCall α) :
    (writeStep s call).reader = s.reader ∧ (writeStep s call).popper = s.popper ∧
      (writeStep s call).taken = s.taken := by
  have popper (x : α) := (push_keeps s.toSpsc x).2.1
  unfold writeStep
  cases s.writer with
  | idle =>
    cases call with
    | push x => exact ⟨rfl, popper x, rfl⟩
    | pushN data =>
      dsimp only
      split <;> exact ⟨rfl, rfl, rfl⟩
  | one x room =>
    dsimp only
    split <;> exact ⟨rfl, popper x, rfl⟩
  | nspaceTail data room head =>
    dsimp only
    split <;> exact ⟨rfl, rfl, rfl⟩
  | pushing data left room =>
    cases left with
    | nil => exact ⟨rfl, rfl, rfl⟩
    | cons x left =>
      dsimp only
      split <;> exact ⟨rfl, popper x, rfl⟩
  | asserted => exact ⟨rfl, rfl, rfl⟩
  | impossible => exact ⟨rfl, rfl, rfl⟩

theorem read_apart (enabled : Bool) (s : Blocks α N) (call : PopCall) :
    (readStep enabled s call).writer = s.writer ∧ (readStep enabled s call).pusher = s.pusher ∧
      (readStep enabled s call).sent = s.sent := by
  unfold readStep
  cases s.reader with
  | idle => cases call <;> exact ⟨rfl, rfl, rfl⟩
  | one held =>
    dsimp only
    split <;> exact ⟨rfl, rfl, rfl⟩
  | nelemTail n held head =>
    dsimp only
    split <;> exact ⟨rfl, rfl, rfl⟩
  | popping n left held got =>
    cases left with
    | zero => exact ⟨rfl, rfl, rfl⟩
    | succ left =>
      dsimp only
      split <;> exact ⟨rfl, rfl, rfl⟩
  | deadlock => exact ⟨rfl, rfl, rfl⟩

theorem BlocksInv.writer_ended {s : Blocks α N} (inv : BlocksInv s)
    (zero : s.writer.cost s.pusher = 0) : s.writer = .idle ∨ s.writer = .asserted := by
  have ok := inv.writer
  have positive := s.pusher.cost_pos
  cases place : s.writer with
  | idle => exact Or.inl rfl
  | asserted => exact Or.inr rfl
  | one x room =>
    rw [place] at zero
    change s.pusher.cost = 0 at zero
    omega
  | nspaceTail data room head =>
    rw [place] at zero
    cases zero
  | pushing data left room =>
    rw [place] at zero ok
    obtain ⟨value, -, -⟩ := ok
    change 7 * left.length + s.pusher.cost - 6 = 0 at zero
    cases left with
    | nil =>
      have idle : s.pusher = .idle := value.resolve_right (by rintro ⟨x, first, -⟩; cases first)
      rw [idle] at zero
      cases zero
    | cons x left =>
      rw [List.length_cons] at zero
      omega
  | impossible =>
    rw [place] at ok
    exact ok.elim

theorem BlocksInv.reader_ended {s : Blocks α N} (inv : BlocksInv s)
    (zero : s.reader.cost s.popper = 0) : s.reader = .idle := by
  have ok := inv.reader
  have positive := s.popper.cost_pos
  cases place : s.reader with
  | idle => rfl
  | one held =>
    rw [place] at zero
    change s.popper.cost = 0 at zero
    omega
  | nelemTail n held head =>
    rw [place] at zero
    cases zero
  | popping n left held got =>
    rw [place] at zero ok
    obtain ⟨-, -, -, -, idle, -⟩ := ok
    change 5 * left + s.popper.cost - 4 = 0 at zero
    cases left with
    | zero =>
      rw [idle rfl] at zero
      cases zero
    | succ left => omega
  | deadlock =>
    rw [place] at ok
    exact ok.elim

theorem BlocksInv.returns (whole : N ∣ 2 ^ 32) (enabled : Bool) {s : Blocks α N}
    (inv : BlocksInv s) : Returns enabled s := by
  have kept (s : Blocks α N) (turn : Turn α) (inv : BlocksInv s) := block_inv whole enabled s turn inv
  constructor
  · refine ⟨s.writer.cost s.pusher, fun more enough => ?_⟩
    obtain ⟨first, rest, split, zero⟩ := run_lowers (fun s => s.writer.cost s.pusher)
      Turn.isPush kept (fun s turn inv mine busy => by
        cases turn with
        | push call => exact write_lowers whole call inv busy
        | pop call => cases mine) (fun s turn inv other => by
        cases turn with
        | push call => cases other
        | pop call =>
          obtain ⟨writer, pusher, -⟩ := read_apart enabled s call
          exact Nat.le_of_eq (congrArg₂ _ pusher writer)) inv enough
    exact ⟨first, rest, split, (run_invariant kept inv first).writer_ended zero⟩
  · refine ⟨s.reader.cost s.popper, fun more enough => ?_⟩
    obtain ⟨first, rest, split, zero⟩ := run_lowers (fun s => s.reader.cost s.popper)
      Turn.isPop kept (fun s turn inv mine busy => by
        cases turn with
        | push call => cases mine
        | pop call => exact read_lowers enabled call inv busy) (fun s turn inv other => by
        cases turn with
        | push call =>
          obtain ⟨reader, popper, -⟩ := write_apart s call
          exact Nat.le_of_eq (congrArg₂ _ popper reader)
        | pop call => cases other) inv enough
    exact ⟨first, rest, split, (run_invariant kept inv first).reader_ended zero⟩

end Cost

section Words

def BlockPusher.data : BlockPusher α N → Option (List α)
  | .one x _ => some [x]
  | .nspaceTail data _ _ => some data
  | .pushing data _ _ => some data
  | _ => none

def BlockPopper.n : BlockPopper α N → Option Nat
  | .one _ => some 1
  | .nelemTail n _ _ => some n
  | .popping n _ _ _ => some n
  | _ => none

/-- The calls, returned and under way, are of some kind. -/
structure CallsAre (P : List α → Prop) (Q : Nat → Prop) (s : Blocks α N) : Prop where
  sent : ∀ c ∈ s.sent, P c.data
  writer : ∀ data, s.writer.data = some data → P data
  taken : ∀ c ∈ s.taken, Q c.n
  reader : ∀ n, s.reader.n = some n → Q n

def Turn.Is (P : List α → Prop) (Q : Nat → Prop) : Turn α → Prop
  | .push (.push x) => P [x]
  | .push (.pushN data) => P data
  | .pop .popNonblock => Q 1
  | .pop (.popNNoblk n) => Q n

variable {P : List α → Prop} {Q : Nat → Prop}

theorem write_calls {s : Blocks α N} {call : PushCall α} (are : CallsAre P Q s)
    (kind : (Turn.push call).Is P Q) : CallsAre P Q (writeStep s call) := by
  obtain ⟨sent, writer, taken, reader⟩ := are
  unfold writeStep
  cases place : s.writer with
  | idle =>
    cases call with
    | push x => exact ⟨sent, fun _ same => Option.some.inj same ▸ kind, taken, reader⟩
    | pushN data =>
      dsimp only
      split
      · exact ⟨sent, nofun, taken, reader⟩
      · exact ⟨sent, fun _ same => Option.some.inj same ▸ kind, taken, reader⟩
  | one x room =>
    rw [place] at writer
    dsimp only
    split
    · exact ⟨sent, writer, taken, reader⟩
    · exact ⟨all_append sent (writer _ rfl), nofun, taken, reader⟩
  | nspaceTail data room head =>
    rw [place] at writer
    dsimp only
    split
    · exact ⟨all_append sent (writer _ rfl), nofun, taken, reader⟩
    · exact ⟨sent, writer, taken, reader⟩
  | pushing data left room =>
    rw [place] at writer
    cases left with
    | nil => exact ⟨all_append sent (writer _ rfl), nofun, taken, reader⟩
    | cons x left =>
      dsimp only
      split
      · exact ⟨sent, writer, taken, reader⟩
      · exact ⟨sent, writer, taken, reader⟩
      · exact ⟨sent, nofun, taken, reader⟩
  | asserted =>
    rw [place] at writer
    exact ⟨sent, by rw [place]; exact writer, taken, reader⟩
  | impossible => exact ⟨sent, by rw [place]; nofun, taken, reader⟩

theorem read_calls {s : Blocks α N} {enabled : Bool} {call : PopCall} (are : CallsAre P Q s)
    (kind : (Turn.pop call : Turn α).Is P Q) : CallsAre P Q (readStep enabled s call) := by
  obtain ⟨sent, writer, taken, reader⟩ := are
  unfold readStep
  cases place : s.reader with
  | idle =>
    cases call with
    | popNonblock => exact ⟨sent, writer, taken, fun _ same => Option.some.inj same ▸ kind⟩
    | popNNoblk n => exact ⟨sent, writer, taken, fun _ same => Option.some.inj same ▸ kind⟩
  | one held =>
    rw [place] at reader
    dsimp only
    split
    · exact ⟨sent, writer, all_append taken (reader _ rfl), nofun⟩
    · exact ⟨sent, writer, taken, reader⟩
  | nelemTail n held head =>
    rw [place] at reader
    dsimp only
    split
    · exact ⟨sent, writer, all_append taken (reader _ rfl), nofun⟩
    · exact ⟨sent, writer, taken, reader⟩
  | popping n left held got =>
    rw [place] at reader
    cases left with
    | zero => exact ⟨sent, writer, all_append taken (reader _ rfl), nofun⟩
    | succ left =>
      dsimp only
      split
      · exact ⟨sent, writer, taken, reader⟩
      · cases enabled with
        | true => exact ⟨sent, writer, taken, reader⟩
        | false => exact ⟨sent, writer, taken, nofun⟩
      · exact ⟨sent, writer, taken, reader⟩
  | deadlock => exact ⟨sent, writer, taken, by rw [place]; nofun⟩

theorem calls_are {enabled : Bool} {A : Type} {turn : A → Turn α}
    (kind : ∀ a, (turn a).Is P Q) (buf : Fin N → α) (schedule : List A) :
    CallsAre P Q (run (blockStep enabled) (blockStart buf) (schedule.map turn)) := by
  rw [run_map]
  refine run_invariant (fun s a are => ?_) ⟨nofun, nofun, nofun, nofun⟩ schedule
  have here := kind a
  cases call : turn a with
  | push call' =>
    rw [call] at here
    exact write_calls are here
  | pop call' =>
    rw [call] at here
    exact read_calls are here

def cqPush32Call (x : UInt32) : PushCall UInt8 := .pushN (leBytes x)

def cqPop32NoblkCall : PopCall := .popNNoblk 4

def wordTurn : Side UInt32 → Turn UInt8
  | .push x => .push (cqPush32Call x)
  | .pop => .pop cqPop32NoblkCall

/-- The words of the calls that returned 1, in their order. -/
structure WordsMoved (s : Blocks UInt8 N) (pushed popped : List UInt32) : Prop where
  pushed : (s.sent.filter PushDone.returned).map PushDone.data = pushed.map leBytes
  popped : s.taken.filterMap PopDone.values = popped.map leBytes

theorem words_of {l : List (List UInt8)} (all : ∀ bytes ∈ l, ∃ x, bytes = leBytes x) :
    ∃ words : List UInt32, l = words.map leBytes := by
  induction l with
  | nil => exact ⟨[], rfl⟩
  | cons bytes l ih =>
    obtain ⟨x, rfl⟩ := all bytes List.mem_cons_self
    obtain ⟨words, rest⟩ := ih fun b inside => all b (List.mem_cons_of_mem _ inside)
    exact ⟨x :: words, by rw [rest, List.map_cons]⟩

theorem four_bytes {bytes : List UInt8} (four : bytes.length = 4) : ∃ x, bytes = leBytes x := by
  match bytes, four with
  | [a, b, c, d], _ => exact ⟨leWord a b c d, (leBytes_leWord a b c d).symm⟩

theorem leBytes_inj {x y : UInt32} (same : leBytes x = leBytes y) : x = y := by
  simp only [leBytes, List.cons.injEq, and_true] at same
  rw [← leWord_leBytes x, ← leWord_leBytes y, same.1, same.2.1, same.2.2.1, same.2.2.2]

theorem words_prefix {first all : List UInt32}
    (bytes : first.flatMap leBytes <+: all.flatMap leBytes) : first <+: all := by
  induction first generalizing all with
  | nil => exact List.nil_prefix
  | cons x first ih =>
    cases all with
    | nil =>
      have short := bytes.length_le
      simp only [List.flatMap_cons, List.flatMap_nil, List.length_append, leBytes_length,
        List.length_nil] at short
      omega
    | cons y all =>
      obtain ⟨rest, same⟩ := bytes
      rw [List.flatMap_cons, List.flatMap_cons, List.append_assoc] at same
      obtain ⟨word, later⟩ := List.append_inj same rfl
      rw [leBytes_inj word]
      exact List.cons_prefix_cons.mpr ⟨rfl, ih ⟨rest, later⟩⟩

omit [NeZero N] in
theorem granted_words {sent : List (PushDone α)} :
    granted sent = ((sent.filter PushDone.returned).map PushDone.data).flatten := by
  induction sent with
  | nil => rfl
  | cons c sent ih =>
    rw [granted, List.flatMap_cons]
    change _ ++ granted sent = _
    cases done : c.returned <;> simp [done, ih]

omit [NeZero N] in
theorem received_words {taken : List (PopDone α)} :
    received taken = (taken.filterMap PopDone.values).flatten := by
  induction taken with
  | nil => rfl
  | cons c taken ih =>
    rw [received, List.flatMap_cons]
    change _ ++ received taken = _
    cases done : c.values <;> simp [done, ih]

theorem BlocksInv.received_prefix {s : Blocks α N} (inv : BlocksInv s) :
    received s.taken <+: s.popped := by
  have ok := inv.reader
  cases place : s.reader with
  | idle =>
    rw [place] at ok
    exact ok.2 ▸ List.prefix_refl _
  | one held =>
    rw [place] at ok
    exact ok.2 ▸ List.prefix_refl _
  | nelemTail n held head =>
    rw [place] at ok
    exact ok.2.1 ▸ List.prefix_refl _
  | popping n left held got =>
    rw [place] at ok
    rw [ok.1]
    exact List.prefix_append _ _
  | deadlock =>
    rw [place] at ok
    exact ok.elim

theorem words_moved (whole : N ∣ 2 ^ 32) (enabled : Bool) (buf : Fin N → UInt8)
    (schedule : List (Side UInt32)) :
    let s := run (blockStep enabled) (blockStart buf) (schedule.map wordTurn)
    ∃ pushed popped, WordsMoved s pushed popped ∧ (s.writer = .idle → popped <+: pushed) := by
  intro s
  have inv : BlocksInv s := run_invariant (block_inv whole enabled) (blockStart_inv buf) _
  have are : CallsAre (fun data => ∃ x, data = leBytes x) (fun n => n = 4) s := by
    refine calls_are (fun side => ?_) buf schedule
    cases side with
    | push x => exact ⟨x, rfl⟩
    | pop => rfl
  obtain ⟨pushed, sent⟩ := words_of (l := (s.sent.filter PushDone.returned).map PushDone.data) (by
    intro bytes member
    obtain ⟨c, inside, rfl⟩ := List.mem_map.mp member
    exact are.sent c (List.mem_of_mem_filter inside))
  obtain ⟨popped, taken⟩ := words_of (l := s.taken.filterMap PopDone.values) (by
    intro bytes member
    obtain ⟨c, inside, values⟩ := List.mem_filterMap.mp member
    have ok := inv.taken c inside
    rw [PopDone.Ok, values] at ok
    exact four_bytes (ok.2.trans (are.taken c inside)))
  refine ⟨pushed, popped, ⟨sent, taken⟩, fun idle => words_prefix ?_⟩
  have stream := inv.base.stream
  have all := (inv.allOrNothing whole).pushed idle
  rw [granted_words, sent] at all
  have first := inv.received_prefix
  rw [received_words, taken] at first
  rw [List.flatMap_def, List.flatMap_def, ← all, stream]
  exact first.trans (List.prefix_append _ _)

end Words

section Assert

theorem read_keeps_assert (enabled : Bool) {s : Blocks α N} (call : PopCall) :
    (readStep enabled s call).writer = s.writer := (read_apart enabled s call).1

/-- Only a call without elements comes to the assert of n. -/
theorem write_asserted {s : Blocks α N} {call : PushCall α}
    (here : (writeStep s call).writer = .asserted) : s.writer = .asserted ∨ call = .pushN [] := by
  unfold writeStep at here
  cases place : s.writer with
  | idle =>
    rw [place] at here
    cases call with
    | push x => cases here
    | pushN data =>
      dsimp only at here
      split at here
      · exact Or.inr (congrArg PushCall.pushN (List.length_eq_zero_iff.mp ‹_›))
      · cases here
  | asserted => exact Or.inl rfl
  | one x room =>
    rw [place] at here
    dsimp only at here
    split at here <;> cases here
  | nspaceTail data room head =>
    rw [place] at here
    dsimp only at here
    split at here <;> cases here
  | pushing data left room =>
    rw [place] at here
    cases left with
    | nil => cases here
    | cons x left =>
      dsimp only at here
      split at here <;> cases here
  | impossible =>
    rw [place] at here
    dsimp only at here
    rw [place] at here
    cases here

theorem stays_asserted {enabled : Bool} {s : Blocks α N} (turn : Turn α)
    (here : s.writer = .asserted) : (blockStep enabled s turn).writer = .asserted := by
  cases turn with
  | push call =>
    change (writeStep s call).writer = _
    unfold writeStep
    rw [here]
    exact here
  | pop call => exact (read_keeps_assert enabled call).trans here

theorem never_asserted {enabled : Bool} {schedule : List (Turn α)}
    (nonempty : ∀ turn ∈ schedule, turn ≠ .push (.pushN [])) {s : Blocks α N}
    (before : s.writer ≠ .asserted) :
    (run (blockStep enabled) s schedule).writer ≠ .asserted := by
  induction schedule generalizing s with
  | nil => exact before
  | cons turn schedule ih =>
    refine ih (fun later inside => nonempty later (List.mem_cons_of_mem _ inside)) ?_
    intro here
    cases turn with
    | push call =>
      rcases write_asserted here with stuck | empty
      · exact before stuck
      · exact nonempty _ List.mem_cons_self (congrArg Turn.push empty)
    | pop call => exact before ((read_keeps_assert enabled call).symm.trans here)

end Assert

/-- In any order of the accesses of the two sides every call is all or nothing and returns; only a
cq_push_n of nothing comes to an assert; and words of four bytes come out in their order. -/
structure WholeBlocks (N : Nat) [NeZero N] : Prop where
  calls : ∀ (α : Type) (enabled : Bool) (buf : Fin N → α) (schedule : List (Turn α)),
    AllOrNothing (run (blockStep enabled) (blockStart buf) schedule) ∧
      Returns enabled (run (blockStep enabled) (blockStart buf) schedule)
  asserted : ∀ (α : Type) (enabled : Bool) (buf : Fin N → α) (schedule : List (Turn α)),
    (∀ turn ∈ schedule, turn ≠ .push (.pushN [])) →
      (run (blockStep enabled) (blockStart buf) schedule).writer ≠ .asserted
  words : ∀ (enabled : Bool) (buf : Fin N → UInt8) (schedule : List (Side UInt32)),
    ∃ pushed popped,
      WordsMoved (run (blockStep enabled) (blockStart buf) (schedule.map wordTurn)) pushed popped ∧
        ((run (blockStep enabled) (blockStart buf) (schedule.map wordTurn)).writer = .idle →
          popped <+: pushed)

theorem blocks_whole (whole : N ∣ 2 ^ 32) : WholeBlocks N where
  calls := by
    intro α enabled buf schedule
    have inv := run_invariant (block_inv whole enabled) (blockStart_inv buf) schedule
    exact ⟨inv.allOrNothing whole, inv.returns whole enabled⟩
  asserted := fun _ _ _ _ nonempty => never_asserted nonempty nofun
  words := fun enabled buf schedule => words_moved whole enabled buf schedule

theorem blocks_of_8192 : WholeBlocks CQ_N := blocks_whole CQ_N_whole

/-- The assert of n is not left. -/
theorem push_of_nothing_panics : ¬ ∀ data : List UInt8, ∃ more : List (Turn UInt8),
    (run (blockStep true) (blockStart fun _ : Fin CQ_N => (0 : UInt8))
      (.push (.pushN data) :: more)).writer = .idle := by
  intro returns
  obtain ⟨more, idle⟩ := returns []
  let Stuck (s : Blocks UInt8 CQ_N) : Prop := s.writer = .asserted
  have kept (s : Blocks UInt8 CQ_N) (turn : Turn UInt8) (stuck : Stuck s) :
      Stuck (blockStep true s turn) := stays_asserted turn stuck
  have stuck := run_invariant kept
    (s := { blockStart (fun _ : Fin CQ_N => (0 : UInt8)) with writer := .asserted }) rfl more
  exact absurd (stuck.symm.trans idle) nofun

end EmbeddedOS.Circular
