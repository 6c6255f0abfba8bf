import EmbeddedOS.PiEcho.Done

/-! pi-echo.c and read-timeout.c: what the loop reads, stores in its buffer and writes. -/
namespace EmbeddedOS.PiEcho

section Effects

inductive Descriptor where
  | terminal
  | pi
  deriving DecidableEq

/-- What select and read answer for a descriptor, where read is asked for this many bytes. -/
inductive Answer (asked : Nat) where
  | selectFailed
  | idle
  | failed
  | got (bytes : { b : List UInt8 // b.length ≤ asked })

/-- What the program reads, does and leaves with. -/
inductive Effect where
  | typed (bytes : List UInt8)
  | failed (fd : Descriptor)
  | store (i : Int)
  | send (bytes : List UInt8)
  | shown (bytes : List UInt8)
  | died
  | panicked
  | exited
  deriving DecidableEq

/-- The bytes at the offsets from buf, and the position of pi_done. -/
structure State where
  mem : Int → UInt8
  pos : Nat

/-- What was done, and with which state the program goes on, if it does. -/
structure Part where
  effects : List Effect
  next : Option State

def Part.andThen (p : Part) (f : State → Part) : Part :=
  match p.next with
  | none => p
  | some s => ⟨p.effects ++ (f s).effects, (f s).next⟩

end Effects

section Loop

def bufferSize : Nat := 4096

def State.filled (s : State) (bytes : List UInt8) : State :=
  { s with mem := fun i => if 0 ≤ i then (bytes[i.toNat]?).getD (s.mem i) else s.mem i }

def State.put (s : State) (i : Int) (v : UInt8) : State := { s with mem := Function.update s.mem i v }

def State.text (s : State) (n : Nat) : List UInt8 := (List.range n).map fun (i : Nat) => s.mem i

def stores (n : Nat) : List Effect := (List.range n).map fun (i : Nat) => .store i

def reads {asked : Nat} (fd : Descriptor) (s : State) : Answer asked → List Effect × State × Int
  | .got bytes =>
    ((if fd = .terminal then [.typed bytes.val] else []) ++ stores bytes.val.length,
      s.filled bytes.val, bytes.val.length)
  | _ => ([.failed fd], s, -1)

/-- none where the program dies. -/
def canRead {asked : Nat} : Answer asked → Option Bool
  | .selectFailed => none
  | .idle => some false
  | _ => some true

/-- Its n is unsigned, and what it returns an int. -/
def readTimeout (s : State) (answer : Answer bufferSize) : List Effect × Option (State × Int) :=
  match canRead answer with
  | none => ([.failed .terminal, .died], none)
  | some false => ([], some (s, 0))
  | some true =>
    let (effects, s, got) := reads .terminal s answer
    let n := UInt32.ofInt got
    if n < 0 then (effects ++ [.died], none) else (effects, some (s, n.toInt32.toInt))

def writeExact (s : State) (n : UInt32) (got : Int) : Part :=
  if n = 0 then ⟨[.panicked], none⟩
  else if got < 0 then ⟨[.send (s.text n.toNat), .failed .pi, .died], none⟩
  else if UInt32.ofInt got ≠ n then ⟨[.send (s.text n.toNat), .panicked], none⟩
  else ⟨[.send (s.text n.toNat)], some s⟩

/-- What the two descriptors, write and tty_gone answer in a turn of the loop. -/
structure Round where
  terminal : Answer bufferSize
  written : Int
  pi : Answer (bufferSize - 1)
  gone : Bool

def fromTerminal (s : State) (r : Round) : Part :=
  match readTimeout s r.terminal with
  | (effects, none) => ⟨effects, none⟩
  | (effects, some (s, n)) =>
    if n = 0 then ⟨effects, some s⟩
    else
      Part.andThen ⟨effects ++ [.store n], some (s.put n 0)⟩ fun s =>
        writeExact s (UInt32.ofInt n) r.written

/-- What is stored where the byte is not to be shown. -/
def overwrites (bytes : List UInt8) : List Effect :=
  ((List.range bytes.length).filter fun i => bytes[i]? ≠ (removeNonprint bytes)[i]?).map
    fun (i : Nat) => .store i

def fromPi (portname : Bool) (s : State) (r : Round) : Part :=
  match canRead r.pi with
  | none => ⟨[.failed .pi, .died], none⟩
  | some false => ⟨[], some s⟩
  | some true =>
    let (effects, s, n) := reads .pi s r.pi
    if n = 0 then ⟨effects ++ if !portname || r.gone then [.exited] else [],
      if !portname || r.gone then none else some s⟩
    else if n < 0 then ⟨effects ++ [.died], none⟩
    else
      let s := s.put n 0
      let text := s.text n.toNat
      let s := s.filled (removeNonprint text)
      let effects := effects ++ (.store n :: (overwrites text ++ [.shown (removeNonprint text)]))
      match piDone (removeNonprint text) s.pos with
      | none => ⟨effects ++ [.panicked], none⟩
      | some (true, _) => ⟨effects ++ [.exited], none⟩
      | some (false, pos) => ⟨effects, some { s with pos }⟩

def turn (portname : Bool) (s : State) (r : Round) : Part :=
  (fromTerminal s r).andThen fun s => fromPi portname s r

def echo (portname : Bool) : State → List Round → Part
  | s, [] => ⟨[], some s⟩
  | s, r :: rounds => (turn portname s r).andThen fun s => echo portname s rounds

end Loop

section Purpose

/-- Every store lies in the buffer. -/
def Inside (effects : List Effect) : Prop :=
  ∀ i, Effect.store i ∈ effects → 0 ≤ i ∧ i < bufferSize

def typed (effects : List Effect) : List UInt8 :=
  effects.flatMap fun
    | .typed bytes => bytes
    | _ => []

def sent (effects : List Effect) : List UInt8 :=
  effects.flatMap fun
    | .send bytes => bytes
    | _ => []

/-- With an error of a descriptor the program ends. -/
def Handled (effects : List Effect) : Prop :=
  ∀ before fd after, effects = before ++ .failed fd :: after → after = [.died]

/-- What the loop owes. -/
def Kept (effects : List Effect) : Prop :=
  Inside effects ∧ sent effects = typed effects ∧ Handled effects

/-- Neither an error of read nor a full buffer. -/
def Harmless : Answer bufferSize → Prop
  | .failed => False
  | .got bytes => bytes.val.length ≠ bufferSize
  | _ => True

end Purpose

section Effects

def Clean (effects : List Effect) : Prop := ∀ fd, Effect.failed fd ∉ effects

theorem inside_append (a b : List Effect) : Inside (a ++ b) ↔ Inside a ∧ Inside b := by
  constructor
  · intro inside
    exact ⟨fun i here => inside i (List.mem_append_left b here),
      fun i here => inside i (List.mem_append_right a here)⟩
  · rintro ⟨left, right⟩ i here
    exact (List.mem_append.mp here).elim (left i) (right i)

theorem sent_append (a b : List Effect) : sent (a ++ b) = sent a ++ sent b := List.flatMap_append

theorem typed_append (a b : List Effect) : typed (a ++ b) = typed a ++ typed b := List.flatMap_append

theorem clean_append (a b : List Effect) : Clean (a ++ b) ↔ Clean a ∧ Clean b := by
  simp only [Clean, List.mem_append, not_or, forall_and]

theorem handled_append {a : List Effect} (clean : Clean a) (b : List Effect) :
    Handled (a ++ b) ↔ Handled b := by
  constructor
  · intro handled before fd after split
    exact handled (a ++ before) fd after (by rw [split, List.append_assoc])
  · intro handled before fd after split
    rcases List.append_eq_append_iff.mp split with ⟨rest, rfl, same⟩ | ⟨rest, same, rest'⟩
    · exact handled rest fd after same
    · cases rest with
      | nil =>
        exact handled [] fd after rest'.symm
      | cons x rest =>
        obtain ⟨rfl, _⟩ := List.cons.inj rest'
        exact absurd (same ▸ List.mem_append_right _ List.mem_cons_self) (clean fd)

theorem kept_append {a : List Effect} (kept : Kept a) (clean : Clean a) (b : List Effect) :
    Kept (a ++ b) ↔ Kept b := by
  obtain ⟨inside, same, _⟩ := kept
  rw [Kept, Kept, inside_append, sent_append, typed_append, handled_append clean, same,
    List.append_cancel_left_eq, and_iff_right inside]

theorem kept_clean {a : List Effect} (inside : Inside a) (same : sent a = typed a) (clean : Clean a) :
    Kept a := by
  refine ⟨inside, same, ?_⟩
  intro before fd after split
  exact absurd (split ▸ List.mem_append_right before List.mem_cons_self) (clean fd)

theorem kept_died (fd : Descriptor) : Kept [.failed fd, .died] := by
  refine ⟨by simp [Inside], rfl, ?_⟩
  intro before fd' after split
  cases before with
  | nil => exact (List.cons.inj split).2.symm
  | cons x before =>
    obtain ⟨_, rest⟩ := List.cons.inj split
    have inside : Effect.failed fd' ∈ [Effect.died] := rest ▸ List.mem_append_right _ List.mem_cons_self
    cases List.mem_singleton.mp inside

def Quiet (effects : List Effect) : Prop := ∀ e ∈ effects, ∃ i, e = .store i

theorem quiet_sent {effects : List Effect} (quiet : Quiet effects) : sent effects = [] := by
  rw [sent, List.flatMap_eq_nil_iff]
  intro e inside
  obtain ⟨i, rfl⟩ := quiet e inside
  rfl

theorem quiet_typed {effects : List Effect} (quiet : Quiet effects) : typed effects = [] := by
  rw [typed, List.flatMap_eq_nil_iff]
  intro e inside
  obtain ⟨i, rfl⟩ := quiet e inside
  rfl

theorem quiet_clean {effects : List Effect} (quiet : Quiet effects) : Clean effects := by
  intro fd inside
  obtain ⟨i, same⟩ := quiet _ inside
  cases same

theorem stores_quiet (n : Nat) : Quiet (stores n) := by
  intro e inside
  obtain ⟨i, _, rfl⟩ := List.mem_map.mp inside
  exact ⟨i, rfl⟩

theorem stores_inside {n : Nat} (small : n ≤ bufferSize) : Inside (stores n) := by
  intro i inside
  obtain ⟨k, within, same⟩ := List.mem_map.mp inside
  cases same
  have below := List.mem_range.mp within
  omega

theorem overwrites_quiet (bytes : List UInt8) : Quiet (overwrites bytes) := by
  intro e inside
  obtain ⟨i, _, rfl⟩ := List.mem_map.mp inside
  exact ⟨i, rfl⟩

theorem overwrites_inside {bytes : List UInt8} (small : bytes.length ≤ bufferSize) :
    Inside (overwrites bytes) := by
  intro i inside
  obtain ⟨k, within, same⟩ := List.mem_map.mp inside
  cases same
  have below := List.mem_range.mp (List.mem_filter.mp within).1
  omega

end Effects

section Parts

/-- Its effects are kept, and it goes on only without an error. -/
def Part.Fine (p : Part) : Prop := Kept p.effects ∧ (p.next ≠ none → Clean p.effects)

theorem andThen_fine {p : Part} {f : State → Part} (first : p.Fine) (second : ∀ s, (f s).Fine) :
    (p.andThen f).Fine := by
  rw [Part.andThen]
  split
  · exact first
  · rename_i s next
    have clean := first.2 (by simp [next])
    refine ⟨(kept_append first.1 clean _).mpr (second s).1, ?_⟩
    intro goes
    exact (clean_append _ _).mpr ⟨clean, (second s).2 goes⟩

theorem ends_fine {effects : List Effect} (kept : Kept effects) : (Part.mk effects none).Fine :=
  ⟨kept, fun goes => absurd rfl goes⟩

theorem died_fine {effects : List Effect} (kept : Kept effects) (clean : Clean effects)
    (fd : Descriptor) : (Part.mk (effects ++ [.failed fd, .died]) none).Fine :=
  ends_fine ((kept_append kept clean _).mpr (kept_died fd))

theorem small_word {n : Nat} (small : n < 2 ^ 31) : (UInt32.ofInt n).toNat = n := by
  rw [UInt32.ofInt, UInt32.toNat_ofNat']
  omega

theorem small_int {n : Nat} (small : n < 2 ^ 31) : (UInt32.ofInt n).toInt32.toInt = n := by
  have word : (UInt32.ofInt n).toInt32.toBitVec.toNat = n := small_word small
  rw [← Int32.toInt_toBitVec, BitVec.toInt_eq_toNat_of_lt (by omega), word]

theorem text_filled (s : State) (bytes : List UInt8) :
    ((s.filled bytes).put bytes.length 0).text bytes.length = bytes := by
  apply List.ext_getElem
  · simp [State.text]
  · intro i _ below
    have other : (i : Int) ≠ bytes.length := by omega
    simp [State.text, State.put, State.filled, Function.update_of_ne other, below]

theorem kept_quiet {effects : List Effect} (inside : Inside effects) (quiet : Quiet effects) :
    Kept effects := by
  apply kept_clean inside _ (quiet_clean quiet)
  rw [quiet_sent quiet, quiet_typed quiet]

theorem kept_last {e : Effect} (other : ∀ i, e ≠ .store i) (none : sent [e] = typed [e])
    (clean : ∀ fd, e ≠ .failed fd) : Kept [e] := by
  apply kept_clean _ none
  · intro fd inside
    exact clean fd (List.mem_singleton.mp inside).symm
  · intro i inside
    exact absurd (List.mem_singleton.mp inside).symm (other i)

end Parts

section Terminal

theorem readTimeout_got (s : State) (bytes : { b : List UInt8 // b.length ≤ bufferSize }) :
    readTimeout s (.got bytes) =
      (.typed bytes.val :: stores bytes.val.length,
        some (s.filled bytes.val, (bytes.val.length : Int))) := by
  have small : bytes.val.length < 2 ^ 31 := Nat.lt_of_le_of_lt bytes.property (by decide)
  simp only [readTimeout, canRead, reads, UInt32.not_lt_zero, if_false, small_int small]
  rfl

theorem readTimeout_failed (s : State) :
    readTimeout s .failed = ([.failed .terminal], some (s, -1)) := by
  simp only [readTimeout, canRead, reads, UInt32.not_lt_zero, if_false]
  rfl

theorem written_fine (s : State) {bytes : List UInt8} (some_left : bytes ≠ [])
    (short : bytes.length < bufferSize) (got : Int) :
    (Part.andThen ⟨.typed bytes :: stores bytes.length ++ [.store bytes.length],
      some ((s.filled bytes).put bytes.length 0)⟩ fun s =>
        writeExact s (UInt32.ofInt bytes.length) got).Fine := by
  have small : bytes.length < 2 ^ 31 := Nat.lt_trans short (by decide)
  have word := small_word small
  have positive : UInt32.ofInt bytes.length ≠ 0 := by
    intro zero
    rw [zero] at word
    exact some_left (List.length_eq_zero_iff.mp word.symm)
  let base : List Effect :=
    .typed bytes :: stores bytes.length ++ [.store bytes.length] ++ [.send bytes]
  have quiet := stores_quiet bytes.length
  have clean : Clean base := by
    intro fd inside
    simp [base, quiet_clean quiet fd] at inside
  have inside : Inside base := by
    intro i there
    have cases : Effect.store i ∈ stores bytes.length ∨ i = bytes.length := by
      simpa [base] using there
    rcases cases with stored | rfl
    · exact stores_inside (Nat.le_of_lt short) i stored
    · omega
  have same : sent base = typed base := by
    have first : sent base = sent (stores bytes.length) ++ bytes := by simp [base, sent]
    have second : typed base = bytes ++ typed (stores bytes.length) := by simp [base, typed]
    rw [first, second, quiet_sent quiet, quiet_typed quiet, List.nil_append, List.append_nil]
  have kept := kept_clean inside same clean
  simp only [Part.andThen, writeExact, if_neg positive, word, text_filled]
  split
  · have died := died_fine kept clean .pi
    simpa only [base, List.append_assoc, List.cons_append, List.nil_append] using died
  · split
    · have panics : Kept [Effect.panicked] := kept_last (by simp) rfl (by simp)
      have ends := ends_fine ((kept_append kept clean _).mpr panics)
      simpa only [base, List.append_assoc, List.cons_append, List.nil_append] using ends
    · exact ⟨kept, fun _ => clean⟩

theorem fromTerminal_fine (s : State) {r : Round} (harmless : Harmless r.terminal) :
    (fromTerminal s r).Fine := by
  have nothing : (Part.mk [] (some s)).Fine :=
    ⟨kept_quiet (by simp [Inside]) (by simp [Quiet]), fun _ => by simp [Clean]⟩
  rw [fromTerminal]
  cases answer : r.terminal with
  | selectFailed => exact ends_fine (kept_died .terminal)
  | idle => exact nothing
  | failed =>
    rw [answer] at harmless
    exact harmless.elim
  | got bytes =>
    rw [answer] at harmless
    rw [readTimeout_got]
    have short : bytes.val.length < bufferSize := Nat.lt_of_le_of_ne bytes.property harmless
    by_cases empty : bytes.val = []
    · rw [empty]
      refine ⟨kept_clean ?_ rfl ?_, fun _ => ?_⟩
      · simp [Inside, stores]
      · simp [Clean, stores]
      · simp [Clean, stores]
    · have some_left : ¬ (bytes.val.length : Int) = 0 := by
        rw [Int.natCast_eq_zero]
        exact fun zero => empty (List.length_eq_zero_iff.mp zero)
      simp only [if_neg some_left]
      exact written_fine s empty short r.written

theorem fromTerminal_outside (s : State) {r : Round} (harm : ¬ Harmless r.terminal) :
    ∃ i, Effect.store i ∈ (fromTerminal s r).effects ∧ ¬ (0 ≤ i ∧ i < bufferSize) := by
  rw [fromTerminal]
  cases answer : r.terminal with
  | selectFailed =>
    rw [answer] at harm
    exact absurd trivial harm
  | idle =>
    rw [answer] at harm
    exact absurd trivial harm
  | failed =>
    rw [readTimeout_failed]
    refine ⟨-1, ?_, by decide⟩
    simp [Part.andThen]
  | got bytes =>
    rw [answer] at harm
    have full : bytes.val.length = bufferSize := not_not.mp harm
    have some_left : ¬ (bytes.val.length : Int) = 0 := by
      rw [full]
      decide
    rw [readTimeout_got]
    refine ⟨bytes.val.length, ?_, by omega⟩
    simp only [if_neg some_left, Part.andThen]
    simp

end Terminal

section Pi

theorem quiet_append {a b : List Effect} (left : Quiet a) (right : Quiet b) : Quiet (a ++ b) := by
  intro e inside
  exact (List.mem_append.mp inside).elim (left e) (right e)

theorem shown_kept {bytes : List UInt8} (short : bytes.length < bufferSize) :
    Kept (stores bytes.length ++ (.store bytes.length :: (overwrites bytes ++
      [.shown (removeNonprint bytes)]))) ∧
    Clean (stores bytes.length ++ (.store bytes.length :: (overwrites bytes ++
      [.shown (removeNonprint bytes)]))) := by
  have last : Quiet [Effect.store bytes.length] := fun e inside => ⟨_, List.mem_singleton.mp inside⟩
  have lastInside : Inside [Effect.store bytes.length] := by
    intro i there
    cases List.mem_singleton.mp there
    omega
  have quiet := quiet_append (quiet_append (stores_quiet bytes.length) last) (overwrites_quiet bytes)
  have inside : Inside (stores bytes.length ++ [.store bytes.length] ++ overwrites bytes) := by
    rw [inside_append, inside_append]
    exact ⟨⟨stores_inside (Nat.le_of_lt short), lastInside⟩, overwrites_inside (Nat.le_of_lt short)⟩
  have shows : Kept [Effect.shown (removeNonprint bytes)] := kept_last (by simp) rfl (by simp)
  have kept := (kept_append (kept_quiet inside quiet) (quiet_clean quiet) _).mpr shows
  have clean := (clean_append _ [.shown (removeNonprint bytes)]).mpr
    ⟨quiet_clean quiet, by simp [Clean]⟩
  simp only [List.append_assoc, List.cons_append, List.nil_append] at kept clean
  exact ⟨kept, clean⟩

theorem fromPi_fine (portname : Bool) (s : State) (r : Round) : (fromPi portname s r).Fine := by
  have nothing : (Part.mk [] (some s)).Fine :=
    ⟨kept_quiet (by simp [Inside]) (by simp [Quiet]), fun _ => by simp [Clean]⟩
  have panics : Kept [Effect.panicked] := kept_last (by simp) rfl (by simp)
  have exits : Kept [Effect.exited] := kept_last (by simp) rfl (by simp)
  rw [fromPi]
  cases answer : r.pi with
  | selectFailed => exact ends_fine (kept_died .pi)
  | idle => exact nothing
  | failed => exact ends_fine (kept_died .pi)
  | got bytes =>
    have short : bytes.val.length < bufferSize := by
      have asked := bytes.property
      have size : bufferSize = 4096 := rfl
      omega
    obtain ⟨kept, clean⟩ := shown_kept short
    simp only [canRead, reads, reduceCtorEq, if_false, List.nil_append]
    split
    · rename_i empty
      rw [Int.natCast_eq_zero.mp empty]
      split
      · exact ends_fine exits
      · exact ⟨kept_quiet (by simp [Inside, stores]) (by simp [Quiet, stores]),
          fun _ => by simp [Clean, stores]⟩
    · rw [if_neg (by omega), Int.toNat_natCast, text_filled]
      split
      · exact ends_fine ((kept_append kept clean _).mpr panics)
      · exact ends_fine ((kept_append kept clean _).mpr exits)
      · exact ⟨kept, fun _ => clean⟩

end Pi

section Rounds

theorem turn_fine (portname : Bool) (s : State) {r : Round} (harmless : Harmless r.terminal) :
    (turn portname s r).Fine :=
  andThen_fine (fromTerminal_fine s harmless) fun s => fromPi_fine portname s r

theorem mem_andThen {p : Part} {f : State → Part} {e : Effect} (first : e ∈ p.effects) :
    e ∈ (p.andThen f).effects := by
  rw [Part.andThen]
  split
  · exact first
  · exact List.mem_append_left _ first

theorem turn_outside {portname : Bool} {s : State} {r : Round} (harm : ¬ Harmless r.terminal)
    (f : State → Part) : ¬ Kept ((turn portname s r).andThen f).effects := by
  intro kept
  obtain ⟨i, stored, outside⟩ := fromTerminal_outside s harm
  exact outside (kept.1 i (mem_andThen (mem_andThen stored)))

/-- The loop keeps what it owes exactly as long as no read from the terminal fails or fills the
buffer. -/
theorem echo_kept_iff (portname : Bool) (s : State) (rounds : List Round) :
    Kept (echo portname s rounds).effects ↔
      ∀ before r after, rounds = before ++ r :: after → (echo portname s before).next ≠ none →
        Harmless r.terminal := by
  induction rounds generalizing s with
  | nil =>
    have kept : Kept [] := kept_quiet (by simp [Inside]) (by simp [Quiet])
    exact iff_of_true kept fun before r after split => absurd split (by simp)
  | cons r rounds ih =>
    by_cases harmless : Harmless r.terminal
    · obtain ⟨kept, clean⟩ := turn_fine portname s harmless
      have first (before : List Round) (r' : Round) (after : List Round)
          (split : r :: rounds = before ++ r' :: after) (some_left : before ≠ []) :
          ∃ before', before = r :: before' ∧ rounds = before' ++ r' :: after := by
        cases before with
        | nil => exact absurd rfl some_left
        | cons b before' =>
          obtain ⟨rfl, rest⟩ := List.cons.inj split
          exact ⟨before', rfl, rest⟩
      cases next : (turn portname s r).next with
      | none =>
        have ends (l : List Round) : echo portname s (r :: l) = turn portname s r := by
          rw [echo, Part.andThen, next]
        rw [ends]
        refine iff_of_true kept ?_
        intro before r' after split goes
        by_cases start : before = []
        · subst start
          cases split
          exact harmless
        · obtain ⟨before', rfl, _⟩ := first before r' after split start
          rw [ends, next] at goes
          exact absurd rfl goes
      | some s' =>
        have goesOn (l : List Round) : echo portname s (r :: l) =
            ⟨(turn portname s r).effects ++ (echo portname s' l).effects,
              (echo portname s' l).next⟩ := by
          rw [echo, Part.andThen, next]
        have clean := clean (by rw [next]; simp)
        rw [goesOn, kept_append kept clean, ih s']
        constructor
        · intro all before r' after split goes
          by_cases start : before = []
          · subst start
            cases split
            exact harmless
          · obtain ⟨before', rfl, rest⟩ := first before r' after split start
            rw [goesOn] at goes
            exact all before' r' after rest goes
        · intro all before r' after split goes
          apply all (r :: before) r' after (by rw [split]; rfl)
          rw [goesOn]
          exact goes
    · refine iff_of_false ?_ ?_
      · rw [echo]
        exact turn_outside harmless _
      · intro all
        exact harmless (all [] r rounds rfl (by simp [echo]))

def oneTurn (answer : Answer bufferSize) : Round := ⟨answer, 0, .idle, false⟩

def fullBuffer : Answer bufferSize :=
  .got ⟨List.replicate bufferSize 0x20, Nat.le_of_eq List.length_replicate⟩

theorem fullBuffer_harmful : ¬ Harmless fullBuffer := fun harmless => harmless List.length_replicate

def fresh : State := ⟨fun _ => 0, 0⟩

/-- A failed read from the terminal, and one that fills the buffer. -/
theorem outside_the_buffer : ¬ Kept (echo true fresh [oneTurn .failed]).effects ∧
    ¬ Kept (echo true fresh [oneTurn fullBuffer]).effects :=
  ⟨turn_outside id _, turn_outside fullBuffer_harmful _⟩

end Rounds

end EmbeddedOS.PiEcho
