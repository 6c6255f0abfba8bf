import EmbeddedOS.Circular.Push
import EmbeddedOS.Circular.Spsc
import EmbeddedOS.Serial.Word

/-! The logic analyzer: a gpio interrupt pushes two words for each edge into a queue of
bytes, and the main loop pops them two at a time. -/
namespace EmbeddedOS.Circular
open Ring Steps Serial

variable {N : Nat}

/-- The next access of the main loop: the test of its while, or a pop with the bytes of the
pair that are there. -/
inductive Reader (N : Nat) where
  | loop
  | loopTail (head : Fin N)
  | pop (at_ : Popper UInt8 N) (got : List UInt8)

structure Analyzer (N : Nat) where
  uartQ : Cq UInt8 N
  prevCycleCnt : UInt32
  reader : Reader N
  calls : List (UInt32 × UInt32)
  read : List (UInt32 × UInt32)

def wordOf (bytes : List UInt8) : UInt32 :=
  leWord (bytes.getD 0 0) (bytes.getD 1 0) (bytes.getD 2 0) (bytes.getD 3 0)

def pairOf (bytes : List UInt8) : UInt32 × UInt32 := (wordOf (bytes.take 4), wordOf (bytes.drop 4))

def pairBytes (p : UInt32 × UInt32) : List UInt8 := leBytes p.1 ++ leBytes p.2

variable [NeZero N]

def cqPush32 (q : Cq UInt8 N) (x : UInt32) : Option (Cq UInt8 N × Bool) := cqPushN q (leBytes x)

/-- The handler, with the cycle count and the pin that it reads. -/
def interruptVector (s : Analyzer N) (cycleCnt pinVal : UInt32) : Option (Analyzer N) := do
  let cycles := cycleCnt - s.prevCycleCnt
  let first ← cqPush32 s.uartQ cycles
  let second ← cqPush32 first.1 (1 - pinVal)
  pure { s with uartQ := second.1, prevCycleCnt := cycleCnt, calls := s.calls ++ [(cycles, 1 - pinVal)] }

/-- One access of the main loop; interrupts are on, so a pop that finds nothing goes on. -/
def readerStep (s : Analyzer N) : Analyzer N :=
  match s.reader with
  | .loop => { s with reader := .loopTail s.uartQ.head }
  | .loopTail head =>
    { s with reader := if head = s.uartQ.tail then .loop else .pop .idle [] }
  | .pop place got =>
    let (q, place, e) := popAccess s.uartQ place
    let bytes := got ++ e.toList
    if bytes.length = 8 then
      { s with uartQ := q, reader := .loop, read := s.read ++ [pairOf bytes] }
    else { s with uartQ := q, reader := .pop place bytes }

/-- An edge, an access of the main loop, or the start of its next round. -/
inductive Happening where
  | edge (cycleCnt pinVal : UInt32)
  | reader
  | round (cycleCnt : UInt32)

def happen (s : Analyzer N) : Happening → Option (Analyzer N)
  | .edge cycleCnt pinVal => interruptVector s cycleCnt pinVal
  | .reader => some (readerStep s)
  | .round cycleCnt =>
    match s.reader with
    | .loop => some { s with prevCycleCnt := cycleCnt }
    | _ => none

def Analyzer.start (prev : UInt32) : Analyzer N := ⟨⟨fun _ => 0, 0, 0⟩, prev, .loop, [], []⟩

/-- What was read are pairs of single calls of the handler, in their order. -/
def Whole (s : Analyzer N) : Prop := s.read.Sublist s.calls

/-- There is no room for one word only. -/
def Fits (q : Cq UInt8 N) : Prop := ¬ (4 ≤ nspace q.head q.tail ∧ nspace q.head q.tail < 8)

/-- The handler is not called when there is room for one word only. -/
def Fine (s : Analyzer N) : Happening → Prop
  | .edge _ _ => Fits s.uartQ
  | _ => True

section Bytes

theorem pairBytes_length (p : UInt32 × UInt32) : (pairBytes p).length = 8 := rfl

theorem pairOf_pairBytes (p : UInt32 × UInt32) : pairOf (pairBytes p) = p :=
  Prod.ext (leWord_leBytes p.1) (leWord_leBytes p.2)

end Bytes

section Invariant

def Reader.got : Reader N → List UInt8
  | .pop _ got => got
  | _ => []

def ReaderOk (q : Cq UInt8 N) : Reader N → Prop
  | .pop place got => PopperOk q place ∧ got.length < 8
  | _ => True

/-- The bytes in the queue, behind those that the main loop holds, are those of whole pairs
that calls have pushed after what was read. -/
structure Aligned (s : Analyzer N) : Prop where
  pairs : ∃ accepted pending, accepted.Sublist s.calls ∧ accepted = s.read ++ pending ∧
    s.reader.got ++ s.uartQ.contents = pending.flatMap pairBytes
  reader : ReaderOk s.uartQ s.reader

theorem Appended.popper {q q' : Cq UInt8 N} {data : List UInt8} {place : Popper UInt8 N}
    (appended : Appended q data q') (ok : PopperOk q place) : PopperOk q' place := by
  have same : ∀ q : Cq UInt8 N, Nonempty q ↔ q.contents ≠ [] := by
    intro q
    rw [Nonempty, ← q.contents_length, List.length_pos_iff]
  have keep : Nonempty q → Nonempty q' ∧ q'.buf q'.tail = q.buf q.tail := by
    intro some_left
    have before := Cq.advance_tail q some_left
    have some_left' : Nonempty q' := by
      rw [same, appended.contents, before]
      exact List.cons_ne_nil _ _
    have after := Cq.advance_tail q' some_left'
    rw [appended.contents, before] at after
    exact ⟨some_left', (List.cons.inj after).1.symm⟩
  cases place with
  | idle => trivial
  | emptyTail head => exact fun differ => (keep (ok (appended.tail ▸ differ))).1
  | readTail => exact (keep ok).1
  | load tail => exact ⟨ok.1.trans appended.tail.symm, (keep ok.2).1⟩
  | advance tail e =>
    obtain ⟨rfl, some_left, loaded⟩ := ok
    obtain ⟨some_left', first⟩ := keep some_left
    rw [appended.tail] at first
    exact ⟨appended.tail.symm, some_left', first.trans loaded⟩

/-- What a call of the handler leaves in the queue: both words, the first one only, or none. -/
inductive Pushed (q q' : Cq UInt8 N) (pair : UInt32 × UInt32) : Prop where
  | both (room : 8 ≤ nspace q.head q.tail) (appended : Appended q (pairBytes pair) q')
  | first (room : 4 ≤ nspace q.head q.tail ∧ nspace q.head q.tail < 8)
      (appended : Appended q (leBytes pair.1) q')
  | none (room : nspace q.head q.tail < 4) (same : q' = q)

theorem handler_call (whole : N ∣ 2 ^ 32) (s : Analyzer N) (cycleCnt pinVal : UInt32) :
    ∃ q pair, pair = (cycleCnt - s.prevCycleCnt, 1 - pinVal) ∧ Pushed s.uartQ q pair ∧
      interruptVector s cycleCnt pinVal =
        some { s with uartQ := q, prevCycleCnt := cycleCnt, calls := s.calls ++ [pair] } := by
  have space := nspace_eq whole s.uartQ
  unfold interruptVector cqPush32
  generalize cycleCnt - s.prevCycleCnt = cycles
  generalize 1 - pinVal = value
  have four : ∀ w, (leBytes w).length ≠ 0 := fun w => by simp
  rcases cqPushN_cases whole s.uartQ (four cycles) with ⟨short, refused⟩ | ⟨room, q, accepted, appended⟩
  · rw [leBytes_length] at short
    rcases cqPushN_cases whole s.uartQ (four value) with ⟨_, refused'⟩ | ⟨room, _⟩
    · refine ⟨s.uartQ, _, rfl, .none (by omega) rfl, ?_⟩
      change (cqPushN s.uartQ (leBytes cycles)).bind _ = _
      rw [refused, Option.bind_some]
      change (cqPushN s.uartQ (leBytes value)).bind _ = _
      rw [refused', Option.bind_some]
      rfl
    · rw [leBytes_length] at room
      omega
  · rw [leBytes_length] at room
    have length := congrArg List.length appended.contents
    rw [List.length_append, leBytes_length] at length
    rcases cqPushN_cases whole q (four value) with ⟨short, refused'⟩ | ⟨room', q', accepted', appended'⟩
    · rw [leBytes_length] at short
      refine ⟨q, _, rfl, .first (by omega) appended, ?_⟩
      change (cqPushN s.uartQ (leBytes cycles)).bind _ = _
      rw [accepted, Option.bind_some]
      change (cqPushN q (leBytes value)).bind _ = _
      rw [refused', Option.bind_some]
      rfl
    · rw [leBytes_length] at room'
      refine ⟨q', _, rfl, .both (by omega) ⟨appended'.tail.trans appended.tail, ?_⟩, ?_⟩
      · rw [appended'.contents, appended.contents, List.append_assoc]
        rfl
      · change (cqPushN s.uartQ (leBytes cycles)).bind _ = _
        rw [accepted, Option.bind_some]
        change (cqPushN q (leBytes value)).bind _ = _
        rw [accepted', Option.bind_some]
        rfl

theorem edge_aligned (whole : N ∣ 2 ^ 32) {s t : Analyzer N} {cycleCnt pinVal : UInt32}
    (aligned : Aligned s) (fits : Fits s.uartQ)
    (call : interruptVector s cycleCnt pinVal = some t) : Aligned t := by
  obtain ⟨⟨accepted, pending, sub, order, bytes⟩, ok⟩ := aligned
  obtain ⟨q, pair, _, pushed, same⟩ := handler_call whole s cycleCnt pinVal
  cases same.symm.trans call
  cases pushed with
  | none room same =>
    refine ⟨⟨accepted, pending, sub.trans (List.sublist_append_left _ _), order, ?_⟩, ?_⟩
    · rw [same]
      exact bytes
    · rw [same]
      exact ok
  | first room _ => exact absurd room fits
  | both _ appended =>
    refine ⟨⟨accepted ++ [pair], pending ++ [pair], sub.append (List.Sublist.refl _), ?_, ?_⟩, ?_⟩
    · rw [order, List.append_assoc]
    · change s.reader.got ++ q.contents = _
      rw [appended.contents, ← List.append_assoc, bytes, List.flatMap_append]
      simp
    · change ReaderOk q s.reader
      cases here : s.reader with
      | pop place got =>
        rw [here] at ok
        exact ⟨appended.popper ok.1, ok.2⟩
      | _ => trivial

theorem first_pending {bytes rest : List UInt8} {pending : List (UInt32 × UInt32)}
    (eight : bytes.length = 8) (same : bytes ++ rest = pending.flatMap pairBytes) :
    ∃ later, pending = pairOf bytes :: later ∧ rest = later.flatMap pairBytes := by
  cases pending with
  | nil =>
    have empty := congrArg List.length same
    simp [eight] at empty
  | cons pair later =>
    rw [List.flatMap_cons] at same
    obtain ⟨front, back⟩ := List.append_inj same (eight.trans (pairBytes_length pair).symm)
    refine ⟨later, ?_, back⟩
    rw [front, pairOf_pairBytes]

theorem reader_aligned {s : Analyzer N} (aligned : Aligned s) : Aligned (readerStep s) := by
  obtain ⟨q, prev, reader, calls, read⟩ := s
  obtain ⟨⟨accepted, pending, sub, order, bytes⟩, ok⟩ := aligned
  cases reader with
  | loop => exact ⟨⟨accepted, pending, sub, order, bytes⟩, trivial⟩
  | loopTail head =>
    unfold readerStep
    dsimp only
    split
    · exact ⟨⟨accepted, pending, sub, order, bytes⟩, trivial⟩
    · exact ⟨⟨accepted, pending, sub, order, bytes⟩, trivial, by decide⟩
  | pop place got =>
    obtain ⟨q', place', e, access⟩ : ∃ q' p' e, popAccess q place = (q', p', e) := ⟨_, _, _, rfl⟩
    obtain ⟨ok', taken, _⟩ := popAccess_ok ok.1 access
    change got ++ q.contents = _ at bytes
    rw [taken, ← List.append_assoc] at bytes
    have grown : (got ++ e.toList).length ≤ 8 := by
      have less : got.length < 8 := ok.2
      rw [List.length_append]
      cases e <;> simp <;> omega
    unfold readerStep
    simp only [access]
    split
    · rename_i eight
      obtain ⟨later, first, rest⟩ := first_pending eight bytes
      refine ⟨⟨accepted, later, sub, ?_, rest⟩, trivial⟩
      rw [order, first]
      exact (List.append_cons _ _ _)
    · rename_i notEight
      exact ⟨⟨accepted, pending, sub, order, bytes⟩, ok', by omega⟩

theorem aligned_whole {s : Analyzer N} (aligned : Aligned s) : Whole s := by
  obtain ⟨⟨accepted, pending, sub, order, _⟩, _⟩ := aligned
  exact ((List.sublist_append_left s.read pending).trans (by rw [order])).trans sub

theorem start_aligned (prev : UInt32) : Aligned (.start prev : Analyzer N) := by
  refine ⟨⟨[], [], List.Sublist.refl _, rfl, ?_⟩, trivial⟩
  simp [Analyzer.start, Reader.got, Cq.contents]

end Invariant

/-- In every run in which no call of the handler finds room for one word only, what is read
are pairs of single calls, in order. -/
theorem records_stay_whole {prev : UInt32} {happenings : List Happening} {s : Analyzer CQ_N}
    (fine : Along happen Fine (.start prev : Analyzer CQ_N) happenings)
    (ran : exec happen (.start prev) happenings = some s) : Whole s := by
  refine aligned_whole (exec_along ?_ (start_aligned prev) fine ran)
  intro s a t aligned fine step
  cases a with
  | edge cycleCnt pinVal => exact edge_aligned CQ_N_whole aligned fine step
  | reader =>
    cases step
    exact reader_aligned aligned
  | round cycleCnt =>
    rw [happen] at step
    split at step
    · cases step
      exact ⟨aligned.pairs, aligned.reader⟩
    · cases step

theorem start_fits : Fits (Analyzer.start 0 : Analyzer CQ_N).uartQ := by
  have empty : (Analyzer.start 0 : Analyzer CQ_N).uartQ.contents = [] := by
    simp [Analyzer.start, Cq.contents]
  rw [Fits, nspace_eq CQ_N_whole, empty]
  decide

theorem first_edge_is_whole :
    ∃ s : Analyzer CQ_N, exec happen (.start 0) [.edge 7 1] = some s ∧ Whole s := by
  obtain ⟨q, pair, _, _, call⟩ := handler_call CQ_N_whole (.start 0) 7 1
  have ran : exec happen (.start 0 : Analyzer CQ_N) [.edge 7 1] = some _ :=
    Option.bind_eq_some_iff.mpr ⟨_, call, rfl⟩
  have fine : Along happen Fine (.start 0 : Analyzer CQ_N) [.edge 7 1] :=
    ⟨start_fits, fun _ _ => trivial⟩
  exact ⟨_, ran, records_stay_whole fine ran⟩

section Torn

structure Between (s : Analyzer N) (calls read : List (UInt32 × UInt32)) (bytes : List UInt8) : Prop where
  reader : s.reader = .loop
  prev : s.prevCycleCnt = 0
  calls : s.calls = calls
  read : s.read = read
  contents : s.uartQ.contents = bytes

variable {calls read : List (UInt32 × UInt32)}

theorem access_none {s : Analyzer N} {place place' : Popper UInt8 N} {got : List UInt8}
    (reader : s.reader = .pop place got) (short : got.length < 8)
    (access : popAccess s.uartQ place = (s.uartQ, place', none)) :
    happen s .reader = some { s with reader := .pop place' got } := by
  have notEight : got.length ≠ 8 := Nat.ne_of_lt short
  rw [happen, readerStep, reader]
  simp only [access, Option.toList_none, List.append_nil, if_neg notEight]

theorem pop_byte {s : Analyzer N} {got rest : List UInt8} {b : UInt8}
    (reader : s.reader = .pop .idle got) (short : got.length < 8)
    (contents : s.uartQ.contents = b :: rest) :
    ∃ q : Cq UInt8 N, q.contents = rest ∧ Reaches happen s
      (if (got ++ [b]).length = 8 then
        { s with uartQ := q, reader := .loop, read := s.read ++ [pairOf (got ++ [b])] }
      else { s with uartQ := q, reader := .pop .idle (got ++ [b]) }) := by
  have some_left : 0 < gap s.uartQ.tail s.uartQ.head := by
    rw [← s.uartQ.contents_length, contents]
    exact Nat.succ_pos _
  have differ : s.uartQ.head ≠ s.uartQ.tail := gap_pos.mp some_left
  have first := Cq.advance_tail s.uartQ some_left
  rw [contents] at first
  obtain ⟨same, rest⟩ := List.cons.inj first
  refine ⟨{ s.uartQ with tail := next s.uartQ.tail }, rest.symm, ?_⟩
  refine .step (access_none reader short rfl) ?_
  have more : popAccess s.uartQ (.emptyTail s.uartQ.head) = (s.uartQ, .readTail, none) := by
    rw [popAccess, if_neg differ]
  refine .step (access_none rfl short more) ?_
  refine .step (access_none rfl short rfl) ?_
  refine .step (access_none rfl short rfl) ?_
  refine .step (t := _) (a := .reader) ?_ (.refl _ _)
  rw [same]
  change some (if _ then _ else _) = some (if _ then _ else _)
  rfl

theorem pop_bytes {s : Analyzer N} {got bytes rest : List UInt8} (reader : s.reader = .pop .idle got)
    (some_bytes : bytes ≠ []) (eight : got.length + bytes.length = 8)
    (contents : s.uartQ.contents = bytes ++ rest) :
    ∃ q : Cq UInt8 N, q.contents = rest ∧ Reaches happen s
      { s with uartQ := q, reader := .loop, read := s.read ++ [pairOf (got ++ bytes)] } := by
  induction bytes generalizing s got with
  | nil => exact absurd rfl some_bytes
  | cons b bytes ih =>
    rw [List.length_cons] at eight
    obtain ⟨q, first, reached⟩ := pop_byte reader (by omega) contents
    have grown : (got ++ [b]).length = got.length + 1 := by simp
    by_cases last : bytes = []
    · subst last
      rw [if_pos (by rw [grown]; exact eight)] at reached
      exact ⟨q, first, reached⟩
    · have more : 0 < bytes.length := List.length_pos_iff.mpr last
      rw [if_neg (by omega)] at reached
      obtain ⟨q', second, reached'⟩ := ih (s := { s with uartQ := q, reader := .pop .idle (got ++ [b]) })
        rfl last (by omega) first
      rw [List.append_assoc] at reached'
      exact ⟨q', second, reached.trans reached'⟩

theorem read_pair {s : Analyzer N} {bytes rest : List UInt8} (eight : bytes.length = 8)
    (between : Between s calls read (bytes ++ rest)) :
    ∃ t, Reaches happen s t ∧ Between t calls (read ++ [pairOf bytes]) rest := by
  obtain ⟨q, prev, reader, calls, read⟩ := s
  obtain ⟨rfl, rfl, rfl, rfl, contents⟩ := between
  have differ : q.head ≠ q.tail := by
    apply gap_pos.mp
    have length := congrArg List.length contents
    rw [Cq.contents_length, List.length_append, eight] at length
    change gap q.tail q.head = _ at length
    omega
  have some_bytes : bytes ≠ [] := fun empty => by simp [empty] at eight
  have all : ([] : List UInt8).length + bytes.length = 8 := by simpa using eight
  obtain ⟨q', rest_left, reached⟩ :=
    pop_bytes (s := ⟨q, 0, .pop .idle [], calls, read⟩) rfl some_bytes all contents
  refine ⟨⟨q', 0, .loop, calls, read ++ [pairOf bytes]⟩, ?_, rfl, rfl, rfl, rfl, rest_left⟩
  refine .step (a := .reader) (t := ⟨q, 0, .loopTail q.head, calls, read⟩) rfl ?_
  refine .step (a := .reader) (t := ⟨q, 0, .pop .idle [], calls, read⟩) ?_ reached
  simp only [happen, readerStep, if_neg differ]

theorem read_pairs {s : Analyzer N} {rest : List UInt8} {pairs : List (UInt32 × UInt32)}
    (between : Between s calls read (pairs.flatMap pairBytes ++ rest)) :
    ∃ t, Reaches happen s t ∧ Between t calls (read ++ pairs) rest := by
  induction pairs generalizing s read with
  | nil => exact ⟨s, .refl _ _, by simpa using between⟩
  | cons pair pairs ih =>
    rw [List.flatMap_cons, List.append_assoc] at between
    obtain ⟨mid, one, after⟩ := read_pair (pairBytes_length pair) between
    rw [pairOf_pairBytes] at after
    obtain ⟨t, rest, done⟩ := ih after
    refine ⟨t, one.trans rest, ?_⟩
    rwa [List.append_assoc] at done

theorem edge_between (whole : N ∣ 2 ^ 32) {s : Analyzer N} {bytes : List UInt8}
    (between : Between s calls read bytes) :
    ∃ t q, Reaches happen s t ∧ Pushed s.uartQ q (0, 1) ∧
      Between t (calls ++ [(0, 1)]) read q.contents := by
  obtain ⟨q, prev, reader, calls, read⟩ := s
  obtain ⟨rfl, rfl, rfl, rfl, contents⟩ := between
  obtain ⟨q', pair, made, pushed, call⟩ := handler_call whole ⟨q, 0, .loop, calls, read⟩ 0 0
  have low : ((0 : UInt32) - 0, (1 : UInt32) - 0) = (0, 1) := by decide
  obtain rfl : pair = (0, 1) := made.trans low
  exact ⟨_, q', .step (a := .edge 0 0) call (.refl _ _), pushed, rfl, rfl, rfl, rfl, rfl⟩

theorem fill (whole : N ∣ 2 ^ 32) {k n : Nat} (size : N = 8 * k + 8) (le : n ≤ k) :
    ∃ s : Analyzer N, Reaches happen (.start 0) s ∧
      Between s (List.replicate n (0, 1)) [] ((List.replicate n (0, 1)).flatMap pairBytes) := by
  induction n with
  | zero => exact ⟨.start 0, .refl _ _, rfl, rfl, rfl, rfl, by simp [Analyzer.start, Cq.contents]⟩
  | succ n ih =>
    obtain ⟨s, reached, between⟩ := ih (by omega)
    obtain ⟨t, q, edge, pushed, after⟩ := edge_between whole between
    have length : s.uartQ.contents.length = n * 8 := by
      rw [between.contents]
      simp [List.length_flatMap, pairBytes_length]
    have space := nspace_eq whole s.uartQ
    refine ⟨t, reached.trans edge, ?_⟩
    cases pushed with
    | both room appended =>
      rw [appended.contents, between.contents] at after
      rw [List.replicate_succ', List.flatMap_append]
      simpa using after
    | first room _ => omega
    | none room _ => omega

theorem word_is_left_alone (whole : N ∣ 2 ^ 32) {k : Nat} (size : N = 8 * k + 8) (more : 0 < k) :
    ∃ s : Analyzer N, Reaches happen (.start 0) s ∧ s.read = List.replicate k (0, 1) ++ [(0, 0)] ∧
      s.calls = List.replicate (k + 2) (0, 1) := by
  obtain ⟨full, filled, between⟩ := fill whole size (Nat.le_refl k)
  have space := nspace_eq whole full.uartQ
  have length : full.uartQ.contents.length = k * 8 := by
    rw [between.contents]
    simp [List.length_flatMap, pairBytes_length]
  obtain ⟨torn, q, edge, pushed, after⟩ := edge_between whole between
  have half : q.contents = (List.replicate k (0, 1)).flatMap pairBytes ++ leBytes 0 := by
    cases pushed with
    | both room _ => omega
    | first _ appended => rw [appended.contents, between.contents]
    | none room _ => omega
  rw [half] at after
  obtain ⟨drained, reads, rest⟩ := read_pairs after
  obtain ⟨next, q', edge', pushed', later⟩ := edge_between whole rest
  have space' := nspace_eq whole drained.uartQ
  have length' : drained.uartQ.contents.length = 4 := by rw [rest.contents, leBytes_length]
  have shifted : q'.contents = pairBytes (0, 0) ++ leBytes 1 := by
    cases pushed' with
    | both _ appended => rw [appended.contents, rest.contents, pairBytes, pairBytes, List.append_assoc]
    | first room _ => omega
    | none room _ => omega
  rw [shifted] at later
  obtain ⟨last, reads', done⟩ := read_pair (pairBytes_length (0, 0)) later
  rw [pairOf_pairBytes] at done
  refine ⟨last, filled.trans (edge.trans (reads.trans (edge'.trans reads'))), done.read, ?_⟩
  rw [done.calls, List.replicate_succ', List.replicate_succ']

end Torn

theorem record_is_torn : ¬ ∀ (prev : UInt32) (happenings : List Happening) (s : Analyzer CQ_N),
    exec happen (.start prev) happenings = some s → Whole s := by
  intro whole
  obtain ⟨s, ⟨happenings, ran⟩, read, calls⟩ := word_is_left_alone (N := CQ_N) CQ_N_whole
    (k := 1023) rfl (by decide)
  have sub := whole 0 happenings s ran
  have present : (0, 0) ∈ s.calls := by
    apply sub.subset
    rw [read]
    exact List.mem_append_right _ (List.mem_singleton_self _)
  rw [calls] at present
  exact absurd (List.eq_of_mem_replicate present) (by decide)

end EmbeddedOS.Circular
