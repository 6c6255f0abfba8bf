import EmbeddedOS.Circular.Spsc

/-! cq_peek_n, and cq_ckpt with pops and cq_restore, while a producer is in cq_push: the consumer
moves the tail and puts it back. -/
namespace EmbeddedOS.Circular
open Ring Steps

variable {α : Type} {N : Nat}

/-- What the consumer is to do, with the n of cq_peek_n or a number of pops to try. -/
inductive Job where
  | peek (n : Nat)
  | rollback (attempts : Nat)

def Job.count : Job → Nat
  | .peek n => n
  | .rollback attempts => attempts

/-- The next access of the consumer, with the values that it holds. The pops have the saved tail,
the size where there is one, and how many are left. -/
inductive Looker (N : Nat) where
  | idle
  | sizeTail (head : Fin N)
  | readTail (sz : Nat)
  | againHead (sz : Nat) (tail : Fin N)
  | againTail (sz : Nat) (tail head : Fin N)
  | popping (sz : Option Nat) (tail : Fin N) (left : Nat)
  | finalHead (sz : Nat)
  | finalTail (sz : Nat) (head : Fin N)
  | done (returned : Bool)
  | panicked
deriving DecidableEq

structure Peeking (α : Type) (N : Nat) extends Spsc α N where
  looker : Looker N

def Popper.isIdle : Popper α N → Bool
  | .idle => true
  | _ => false

variable [NeZero N]

/-- One access of the pops; cq_pop tries again where it finds nothing. -/
def popOne (s : Peeking α N) (sz : Option Nat) (tail : Fin N) (left : Nat) : Peeking α N :=
  let (_, popper, e) := popAccess s.q s.popper
  let ended := match sz with
    | some _ => e.isSome
    | none => popper.isIdle
  { toSpsc := popStep s.toSpsc, looker := .popping sz tail (if ended then left else left + 1) }

/-- The tail is back: cq_peek_n counts once more, cq_restore is done. -/
def Looker.restored : Option Nat → Looker N
  | some sz => .finalHead sz
  | none => .done true

def lookStep (job : Job) (s : Peeking α N) : Peeking α N :=
  match s.looker with
  | .idle =>
    { s with
      looker := match job with
        | .peek _ => .sizeTail s.q.head
        | .rollback attempts => .popping none s.q.tail attempts }
  | .sizeTail head =>
    { s with
      looker := if job.count > nelem head s.q.tail then .done false
        else .readTail (nelem head s.q.tail) }
  | .readTail sz => { s with looker := .againHead sz s.q.tail }
  | .againHead sz tail => { s with looker := .againTail sz tail s.q.head }
  | .againTail sz tail head =>
    { s with
      looker := if nelem head s.q.tail < job.count then .done false
        else .popping (some sz) tail job.count }
  | .popping sz tail (left + 1) => popOne s sz tail left
  | .popping sz tail 0 =>
    { s with q := { s.q with tail := tail }, looker := .restored sz }
  | .finalHead sz => { s with looker := .finalTail sz s.q.head }
  | .finalTail sz head =>
    { s with looker := if sz = nelem head s.q.tail then .done true else .panicked }
  | .done _ => s
  | .panicked => s

def peekHappen (job : Job) (s : Peeking α N) : Side α → Option (Peeking α N)
  | .push x => some { s with toSpsc := pushStep true s.toSpsc x }
  | .pop => some (lookStep job s)

def peekStart (q : Cq α N) : Peeking α N := ⟨⟨q, .idle, .idle, [], []⟩, .idle⟩

/-- The tail that will be put back, while it is moved. -/
def Looker.saved : Looker N → Option (Fin N)
  | .popping _ tail _ => some tail
  | _ => none

/-- The head has been read for the size, and is still to be read for the assert. -/
def Looker.counting (job : Job) (tail : Fin N) : Looker N → Bool
  | .sizeTail head => job.count ≤ nelem head tail
  | .readTail _ => true
  | .againHead _ _ => true
  | .againTail _ _ _ => true
  | .popping (some _) _ _ => true
  | .finalHead _ => true
  | _ => false

/-- The queue as it is when the tail is back. -/
def Peeking.view (s : Peeking α N) : Cq α N :=
  { s.q with tail := s.looker.saved.getD s.q.tail }

/-- A push finds room only where there is room with the tail back, and the head stays where the
assert compares. -/
def UndeceivedAt (job : Job) (s : Peeking α N) : Pusher α N → Prop
  | .fullTail _ head => next head = s.q.tail ∨ Room s.view
  | .advance _ _ => s.looker.counting job s.q.tail = false
  | _ => True

def Undeceived (job : Job) (s : Peeking α N) : Side α → Prop
  | .pop => True
  | .push _ => UndeceivedAt job s s.pusher

/-- What was in the queue and was pushed since is still there, the values looked at are the first of
it, and the assert holds. -/
structure Undisturbed (job : Job) (q : Cq α N) (s : Peeking α N) : Prop where
  held : ∀ returned, s.looker = .done returned → s.q.contents = q.contents ++ s.pushed
  oldest : s.popped <+: q.contents ++ s.pushed
  all : ∀ n, job = .peek n → s.looker = .done true → s.popped.length = n
  asserts : s.looker ≠ .panicked

section Invariant

/-- What the consumer knows at each place. -/
def LookerOk (job : Job) (s : Peeking α N) : Looker N → Prop
  | .idle => s.popped = [] ∧ s.popper = .idle
  | .sizeTail head =>
    s.popped = [] ∧ s.popper = .idle ∧ (job.count ≤ nelem head s.q.tail → head = s.q.head)
  | .readTail sz => s.popped = [] ∧ s.popper = .idle ∧ sz = nelem s.q.head s.q.tail
  | .againHead sz tail =>
    s.popped = [] ∧ s.popper = .idle ∧ sz = nelem s.q.head s.q.tail ∧ tail = s.q.tail
  | .againTail sz tail _ =>
    s.popped = [] ∧ s.popper = .idle ∧ sz = nelem s.q.head s.q.tail ∧ tail = s.q.tail
  | .popping sz tail left =>
    s.view.contents = s.popped ++ s.q.contents ∧ PopperOk s.q s.popper ∧
      (∀ size, sz = some size → size = nelem s.q.head tail ∧ s.popped.length + left = job.count) ∧
      (sz = none → ∀ n, job ≠ .peek n)
  | .finalHead sz => s.popped.length = job.count ∧ sz = nelem s.q.head s.q.tail
  | .finalTail sz head => s.popped.length = job.count ∧ sz = nelem head s.q.tail
  | .done returned => returned → ∀ n, job = .peek n → s.popped.length = n
  | .panicked => False

structure PeekInv (job : Job) (q : Cq α N) (s : Peeking α N) : Prop where
  stream : s.view.contents = q.contents ++ s.pushed
  pusher : PusherOk s.view s.pusher
  oldest : s.popped <+: q.contents ++ s.pushed
  looker : LookerOk job s s.looker

/-- What a step of the producer does to the queue, as it is and with another tail. -/
structure Pushes (t : Fin N) (s s' : Spsc α N) (more : List α) : Prop where
  pushed : s'.pushed = s.pushed ++ more
  pusher : PusherOk { s'.q with tail := t } s'.pusher
  view : ({ s'.q with tail := t } : Cq α N).contents =
    ({ s.q with tail := t } : Cq α N).contents ++ more
  contents : s'.q.contents = s.q.contents ++ more
  tail : s'.q.tail = s.q.tail
  popped : s'.popped = s.popped
  place : s'.popper = s.popper
  popper : PopperOk s.q s.popper → PopperOk s'.q s.popper
  head : (∀ x h, s.pusher ≠ .advance x h) → s'.q.head = s.q.head

omit [NeZero N] in
theorem room_within {q : Cq α N} {t : Fin N} (within : gap q.tail q.head ≤ gap t q.head)
    (room : Room { q with tail := t }) : Room q := by
  change gap t q.head + 1 < N at room
  change gap q.tail q.head + 1 < N
  omega

theorem push_pushes {s : Spsc α N} {t : Fin N} (value : α)
    (ok : PusherOk { s.q with tail := t } s.pusher)
    (within : gap s.q.tail s.q.head ≤ gap t s.q.head)
    (fair : ∀ x h, s.pusher = .fullTail x h →
      next h = s.q.tail ∨ Room ({ s.q with tail := t } : Cq α N)) :
    ∃ more, Pushes t s (pushStep true s value) more := by
  obtain ⟨q, pusher, popper, pushed, popped⟩ := s
  have quiet (p : Pusher α N) (ok' : PusherOk { q with tail := t } p) :
      Pushes t ⟨q, pusher, popper, pushed, popped⟩ ⟨q, p, popper, pushed, popped⟩ [] :=
    ⟨(List.append_nil _).symm, ok', (List.append_nil _).symm, (List.append_nil _).symm, rfl, rfl,
      rfl, id, fun _ => rfl⟩
  cases pusher with
  | idle => exact ⟨[], quiet _ rfl⟩
  | fullTail x h =>
    refine ⟨[], quiet _ ?_⟩
    change PusherOk _ (if next h = q.tail then _ else _)
    split
    · trivial
    · rename_i notFull
      exact (fair x h rfl).resolve_left notFull
  | readHead x => exact ⟨[], quiet _ ⟨rfl, ok⟩⟩
  | spaceHead x h => exact ⟨[], quiet _ ⟨ok.1, rfl, ok.2⟩⟩
  | spaceTail x h now =>
    obtain ⟨same, current, room⟩ := ok
    refine ⟨[], quiet _ ?_⟩
    change PusherOk _ (if nspace now q.tail > 0 then _ else _)
    split
    · exact ⟨same, room⟩
    · rename_i none_left
      intro whole
      have space := room_within within room
      change gap q.tail q.head + 1 < N at space
      change now = q.head at current
      rw [nspace, nelem_eq_gap whole, current] at none_left
      omega
  | store x h =>
    obtain ⟨same, room⟩ := ok
    change h = q.head at same
    subst same
    refine ⟨[], (List.append_nil _).symm, ⟨rfl, room, Function.update_self _ _ _⟩, ?_, ?_, rfl, rfl,
      rfl, popper_store x, fun _ => rfl⟩
    · rw [List.append_nil]
      exact Cq.store_contents { q with tail := t } x
    · rw [List.append_nil]
      exact Cq.store_contents q x
  | advance x h =>
    obtain ⟨same, room, stored⟩ := ok
    change h = q.head at same
    subst same
    change q.buf q.head = x at stored
    subst stored
    have space := room_within within room
    exact ⟨[q.buf q.head], rfl, trivial, Cq.advance_head { q with tail := t } room,
      Cq.advance_head q space, rfl, rfl, rfl, popper_advance space,
      fun other => absurd rfl (other _ _)⟩
  | panicked => exact ⟨[], quiet _ ok⟩

variable {job : Job} {q : Cq α N}

theorem view_within {s : Peeking α N} (inv : PeekInv job q s) :
    gap s.q.tail s.q.head ≤ gap (s.looker.saved.getD s.q.tail) s.q.head := by
  cases place : s.looker with
  | popping sz tail left =>
    have ok := inv.looker
    rw [place] at ok
    have lengths := congrArg List.length ok.1
    rw [List.length_append, Cq.contents_length, Cq.contents_length, Peeking.view, place] at lengths
    change gap tail s.q.head = _ at lengths
    change gap s.q.tail s.q.head ≤ gap tail s.q.head
    omega
  | _ => exact Nat.le_refl _

theorem pushed_inv {s : Peeking α N} {x : α} (inv : PeekInv job q s)
    (fair : Undeceived job s (.push x)) :
    PeekInv job q { s with toSpsc := pushStep true s.toSpsc x } := by
  have allowed : ∀ y h, s.pusher = .fullTail y h → next h = s.q.tail ∨ Room s.view := by
    intro y h place
    rw [Undeceived, place] at fair
    exact fair
  obtain ⟨more, pushes⟩ := push_pushes x inv.pusher (view_within inv) allowed
  have still : s.looker.counting job s.q.tail = true →
      (pushStep true s.toSpsc x).q.head = s.q.head := by
    intro counting
    apply pushes.head
    intro y h place
    rw [Undeceived, place] at fair
    change s.looker.counting job s.q.tail = false at fair
    rw [fair] at counting
    cases counting
  have view : Peeking.view { s with toSpsc := pushStep true s.toSpsc x } =
      { (pushStep true s.toSpsc x).q with tail := s.looker.saved.getD s.q.tail } := by
    simp only [Peeking.view, pushes.tail]
  refine ⟨?_, ?_, ?_, ?_⟩
  · rw [view, pushes.view, pushes.pushed, ← List.append_assoc, ← inv.stream]
    rfl
  · rw [view]
    exact pushes.pusher
  · rw [pushes.pushed, pushes.popped, ← List.append_assoc]
    exact inv.oldest.trans (List.prefix_append _ _)
  · have ok := inv.looker
    have same_size : s.looker.counting job s.q.tail = true →
        nelem (pushStep true s.toSpsc x).q.head (pushStep true s.toSpsc x).q.tail =
          nelem s.q.head s.q.tail := fun counting => by rw [still counting, pushes.tail]
    have popped := pushes.popped
    have popper := pushes.place
    generalize place : s.looker = looker at ok still same_size
    cases looker with
    | idle => exact ⟨popped.trans ok.1, popper.trans ok.2⟩
    | sizeTail head =>
      refine ⟨popped.trans ok.1, popper.trans ok.2.1, fun enough => ?_⟩
      change job.count ≤ nelem head (pushStep true s.toSpsc x).q.tail at enough
      rw [pushes.tail] at enough
      exact (ok.2.2 enough).trans (still (decide_eq_true enough)).symm
    | readTail sz =>
      exact ⟨popped.trans ok.1, popper.trans ok.2.1, ok.2.2.trans (same_size rfl).symm⟩
    | againHead sz tail =>
      exact ⟨popped.trans ok.1, popper.trans ok.2.1, ok.2.2.1.trans (same_size rfl).symm,
        ok.2.2.2.trans pushes.tail.symm⟩
    | againTail sz tail head =>
      exact ⟨popped.trans ok.1, popper.trans ok.2.1, ok.2.2.1.trans (same_size rfl).symm,
        ok.2.2.2.trans pushes.tail.symm⟩
    | popping sz tail left =>
      obtain ⟨split, pops, counted, free⟩ := ok
      refine ⟨?_, ?_, fun size here => ?_, free⟩
      · have seen := pushes.view
        rw [Peeking.view, place] at split
        rw [place] at seen
        refine seen.trans ?_
        change _ = (pushStep true s.toSpsc x).popped ++ (pushStep true s.toSpsc x).q.contents
        rw [pushes.popped, pushes.contents, ← List.append_assoc, ← split]
      · change PopperOk (pushStep true s.toSpsc x).q (pushStep true s.toSpsc x).popper
        rw [popper]
        exact pushes.popper pops
      · subst here
        change size = nelem (pushStep true s.toSpsc x).q.head tail ∧
          (pushStep true s.toSpsc x).popped.length + left = job.count
        rw [still rfl, popped]
        exact counted size rfl
    | finalHead sz =>
      exact ⟨(congrArg List.length popped).trans ok.1, ok.2.trans (same_size rfl).symm⟩
    | finalTail sz head =>
      refine ⟨(congrArg List.length popped).trans ok.1, ok.2.trans ?_⟩
      change _ = nelem head (pushStep true s.toSpsc x).q.tail
      rw [pushes.tail]
    | done returned =>
      exact fun all n peek => (congrArg List.length popped).trans (ok all n peek)
    | panicked => exact ok

theorem place_inv {s : Peeking α N} {looker : Looker N} (inv : PeekInv job q s)
    (saved : looker.saved.getD s.q.tail = s.looker.saved.getD s.q.tail)
    (ok : LookerOk job { s with looker := looker } looker) :
    PeekInv job q { s with looker := looker } := by
  have view : Peeking.view { s with looker := looker } = s.view := by
    simp only [Peeking.view, saved]
  refine ⟨?_, ?_, inv.oldest, ok⟩
  · rw [view]
    exact inv.stream
  · rw [view]
    exact inv.pusher

theorem popOne_inv {s : Peeking α N} {sz : Option Nat} {tail : Fin N} {left : Nat}
    (inv : PeekInv job q s) (place : s.looker = .popping sz tail (left + 1)) :
    PeekInv job q (popOne s sz tail left) := by
  have ok := inv.looker
  have stream := inv.stream
  have pusher := inv.pusher
  rw [place] at ok
  obtain ⟨split, pops, counted, free⟩ := ok
  rw [Peeking.view, place] at split stream pusher
  change ({ s.q with tail := tail } : Cq α N).contents = _ at split
  change ({ s.q with tail := tail } : Cq α N).contents = _ at stream
  obtain ⟨q', popper, e, access⟩ : ∃ q' popper e, popAccess s.q s.popper = (q', popper, e) :=
    ⟨_, _, _, rfl⟩
  obtain ⟨pops', taken, moved⟩ := popAccess_ok pops access
  have view : ({ q' with tail := tail } : Cq α N) = { s.q with tail := tail } := by
    rcases moved with rfl | ⟨-, rfl⟩
    · rfl
    · rfl
  have head : q'.head = s.q.head := by
    rcases moved with rfl | ⟨-, rfl⟩
    · rfl
    · rfl
  have split' : ({ q' with tail := tail } : Cq α N).contents =
      s.popped ++ e.toList ++ q'.contents := by
    rw [view, split, taken, List.append_assoc]
  unfold popOne popStep
  simp only [access]
  refine ⟨?_, ?_, ?_, split', pops', ?_, free⟩
  · exact (congrArg Cq.contents view).trans stream
  · change PusherOk { q' with tail := tail } s.pusher
    rw [view]
    exact pusher
  · change s.popped ++ e.toList <+: q.contents ++ s.pushed
    rw [← stream, ← view, split']
    exact List.prefix_append _ _
  · rintro size rfl
    obtain ⟨same, length⟩ := counted size rfl
    refine ⟨by rw [same, head], ?_⟩
    change (s.popped ++ e.toList).length + _ = job.count
    rw [← length, List.length_append]
    cases e with
    | none => rfl
    | some x =>
      change s.popped.length + 1 + left = s.popped.length + (left + 1)
      omega

theorem restore_inv {s : Peeking α N} {sz : Option Nat} {tail : Fin N}
    (inv : PeekInv job q s) (place : s.looker = .popping sz tail 0) :
    PeekInv job q { s with q := { s.q with tail := tail }, looker := .restored sz } := by
  have ok := inv.looker
  have stream := inv.stream
  have pusher := inv.pusher
  rw [place] at ok
  rw [Peeking.view, place] at stream pusher
  obtain ⟨-, -, counted, free⟩ := ok
  cases sz with
  | some sz => exact ⟨stream, pusher, inv.oldest, (counted sz rfl).2, (counted sz rfl).1⟩
  | none => exact ⟨stream, pusher, inv.oldest, fun _ n peek => absurd peek (free rfl n)⟩

theorem look_inv {s : Peeking α N} (inv : PeekInv job q s) : PeekInv job q (lookStep job s) := by
  have ok := inv.looker
  unfold lookStep
  cases place : s.looker with
  | idle =>
    rw [place] at ok
    cases job with
    | peek n => exact place_inv inv (by rw [place]; rfl) ⟨ok.1, ok.2, fun _ => rfl⟩
    | rollback attempts =>
      refine place_inv inv (by rw [place]; rfl) ⟨?_, ?_, nofun, nofun⟩
      · change s.q.contents = s.popped ++ s.q.contents
        rw [ok.1, List.nil_append]
      · change PopperOk s.q s.popper
        rw [ok.2]
        trivial
  | sizeTail head =>
    rw [place] at ok
    obtain ⟨none_popped, idle, same⟩ := ok
    dsimp only
    split
    · exact place_inv inv (by rw [place]; rfl) nofun
    · rename_i enough
      refine place_inv inv (by rw [place]; rfl) ⟨none_popped, idle, ?_⟩
      rw [same (Nat.le_of_not_lt enough)]
  | readTail sz =>
    rw [place] at ok
    exact place_inv inv (by rw [place]; rfl) ⟨ok.1, ok.2.1, ok.2.2, rfl⟩
  | againHead sz tail =>
    rw [place] at ok
    exact place_inv inv (by rw [place]; rfl) ok
  | againTail sz tail head =>
    rw [place] at ok
    obtain ⟨none_popped, idle, size, rfl⟩ := ok
    dsimp only
    split
    · exact place_inv inv (by rw [place]; rfl) nofun
    · refine place_inv inv (by rw [place]; rfl) ⟨?_, ?_, fun z here => ⟨?_, ?_⟩, nofun⟩
      · change s.q.contents = s.popped ++ s.q.contents
        rw [none_popped, List.nil_append]
      · change PopperOk s.q s.popper
        rw [idle]
        trivial
      · exact (Option.some.inj here).symm.trans size
      · change s.popped.length + job.count = job.count
        rw [none_popped, List.length_nil, Nat.zero_add]
  | popping sz tail left =>
    cases left with
    | zero => exact restore_inv inv place
    | succ left => exact popOne_inv inv place
  | finalHead sz =>
    rw [place] at ok
    exact place_inv inv (by rw [place]; rfl) ok
  | finalTail sz head =>
    rw [place] at ok
    dsimp only
    rw [if_pos ok.2]
    refine place_inv inv (by rw [place]; rfl) fun _ n peek => ?_
    rw [peek] at ok
    exact ok.1
  | done returned =>
    rw [place] at ok
    dsimp only
    exact inv
  | panicked =>
    rw [place] at ok
    exact ok.elim

theorem peekStart_inv (q : Cq α N) : PeekInv job q (peekStart q) :=
  ⟨(List.append_nil _).symm, trivial, List.nil_prefix, rfl, rfl⟩

theorem PeekInv.undisturbed {s : Peeking α N} (inv : PeekInv job q s) : Undisturbed job q s := by
  have ok := inv.looker
  refine ⟨fun returned place => ?_, inv.oldest, fun n peek place => ?_, fun place => ?_⟩
  · have stream := inv.stream
    rw [Peeking.view, place] at stream
    exact stream
  · rw [place] at ok
    exact ok rfl n peek
  · rw [place] at ok
    exact ok

end Invariant

/-- In every run in which no push is deceived by the tail being moved, and the head stays while a
peek compares its sizes, a peek or a rollback leaves the queue as it was but for the pushes. -/
theorem peek_keeps {job : Job} {q : Cq α N} {sides : List (Side α)} {s : Peeking α N}
    (fair : Along (peekHappen job) (Undeceived job) (peekStart q) sides)
    (ran : exec (peekHappen job) (peekStart q) sides = some s) : Undisturbed job q s := by
  apply PeekInv.undisturbed
  refine exec_along ?_ (peekStart_inv q) fair ran
  intro s side t inv fair happened
  cases side with
  | push x =>
    cases happened
    exact pushed_inv inv fair
  | pop =>
    cases happened
    exact look_inv inv

section Runs

instance (q : Cq α N) : Decidable (Room q) := inferInstanceAs (Decidable (_ < _))

instance (job : Job) (s : Peeking α N) :
    (pusher : Pusher α N) → Decidable (UndeceivedAt job s pusher)
  | .fullTail _ head => inferInstanceAs (Decidable (next head = s.q.tail ∨ Room s.view))
  | .advance _ _ => inferInstanceAs (Decidable (s.looker.counting job s.q.tail = false))
  | .idle => isTrue trivial
  | .readHead _ => isTrue trivial
  | .spaceHead _ _ => isTrue trivial
  | .spaceTail _ _ _ => isTrue trivial
  | .store _ _ => isTrue trivial
  | .panicked => isTrue trivial

instance (job : Job) (s : Peeking α N) : (side : Side α) → Decidable (Undeceived job s side)
  | .pop => isTrue trivial
  | .push _ => inferInstanceAs (Decidable (UndeceivedAt job s s.pusher))

def oneElement : Cq UInt8 CQ_N := ⟨fun _ => 5, 1, 0⟩

theorem push_then_peek :
    ∃ s, exec (peekHappen (.peek 1)) (peekStart oneElement)
        (List.replicate 7 (.push 7) ++ List.replicate 13 .pop) = some s ∧
      Undisturbed (.peek 1) oneElement s := by
  obtain ⟨s, ran⟩ : ∃ s, exec (peekHappen (.peek 1)) (peekStart oneElement)
      (List.replicate 7 (.push 7) ++ List.replicate 13 .pop) = some s := ⟨_, rfl⟩
  exact ⟨s, ran, peek_keeps (by decide +kernel) ran⟩

theorem push_during_peek :
    ¬ ∀ s, exec (peekHappen (.peek 1)) (peekStart oneElement)
        (.pop :: List.replicate 7 (.push 7) ++ List.replicate 12 .pop) = some s →
      Undisturbed (.peek 1) oneElement s := by
  intro keeps
  obtain ⟨s, ran, fails⟩ : ∃ s, exec (peekHappen (.peek 1)) (peekStart oneElement)
      (.pop :: List.replicate 7 (.push 7) ++ List.replicate 12 .pop) = some s ∧
        s.looker = .panicked := ⟨_, rfl, by decide +kernel⟩
  exact (keeps s ran).asserts fails

def fullQueue : Cq UInt8 CQ_N := ⟨fun _ => 5, 8191, 0⟩

theorem rollback_loses : ∃ s, exec (peekHappen (.rollback 1)) (peekStart fullQueue)
      (List.replicate 6 .pop ++ List.replicate 7 (.push 7) ++ [.pop]) = some s ∧
    s.looker = .done true ∧ s.pushed = [7] ∧ s.q.contents = [] :=
  ⟨_, rfl, rfl, rfl, rfl⟩

end Runs

end EmbeddedOS.Circular
