import EmbeddedOS.Libc.RandomStreams

/-! Any calls of random.c, in any order and on any arrays: every one gives the number that is promised. -/
namespace EmbeddedOS.Libc.Random
open Lagged

section Represents

variable {ι : Type}

/-- The table of an array is where its numbers are. -/
structure Tabled (words : List Int32) (d : Drawn) : Prop where
  legal : d.type < MAX_TYPES
  room : 1 < words.length ∧ degrees d.type < words.length
  linear : d.type = TYPE_0 → table words 0 = congruential d.seed d.drawn
  turned : d.type ≠ TYPE_0 → Turned (degrees d.type) (seps d.type) (start d.type d.seed) (table words)
    (10 * degrees d.type + d.drawn)

/-- And its header has the place that was saved. -/
structure Holds (words : List Int32) (d : Drawn) : Prop extends Tabled words d where
  header : words[0]? = some (header d.type (d.saved % degrees d.type))

/-- The structure of the calls is set up for the array. -/
structure Serves (s : Rng ι) (c : ι) (d : Drawn) : Prop where
  prepared : Prepared s c d.type
  placed : d.type ≠ TYPE_0 → s.buf = placed c d.type (10 * degrees d.type + d.drawn)

structure Represents (size : ι → Nat) (s : Rng ι) (A : Streams ι) : Prop where
  sizes : ∀ a, (s.mem a).length = size a
  holds : ∀ a d, A.drawn a = some d → Holds (s.mem a) d
  serves : ∀ c, A.current = some c → ∃ d, A.drawn c = some d ∧ Serves s c d

variable {size : ι → Nat} {s s' : Rng ι} {A : Streams ι} {c : ι} {d : Drawn} {type : Nat}

theorem Running.serves {first : Nat → Int32} {n : Nat} (running : Running s c d.type first n)
    (turns : n = 10 * degrees d.type + d.drawn) (room : 1 < (s.mem c).length) : Serves s c d := by
  subst turns
  have buf := running.buf
  exact ⟨⟨running.legal, ⟨room, running.room⟩, by rw [buf]; rfl, by rw [buf]; rfl, by rw [buf]; rfl,
    by rw [buf]; rfl, by rw [buf]; rfl⟩, fun _ => buf⟩

theorem Prepared.same (prepared : Prepared s c type) (buf : s'.buf = s.buf)
    (length : (s'.mem c).length = (s.mem c).length) : Prepared s' c type := by
  obtain ⟨legal, room, kind, deg, sep, state, ending⟩ := prepared
  rw [← buf] at kind deg sep state ending
  exact ⟨legal, by rw [length]; exact room, kind, deg, sep, state, ending⟩

theorem Serves.rear (serves : Serves s c d) :
    header d.type (s.buf.rptr.index - s.buf.state.index) = header d.type (d.drawn % degrees d.type) := by
  by_cases linear : d.type = TYPE_0
  · rw [header, header, if_pos linear, if_pos linear]
  · rw [serves.placed linear]
    change header _ (1 + (10 * degrees d.type + d.drawn) % degrees d.type - 1) = _
    rw [Nat.mul_add_mod_self_right, Nat.add_sub_cancel_left]

theorem Represents.turn (represents : Represents size s A) {a : ι} (there : A.drawn a = some d)
    (mem : s'.mem = s.mem) (serves : Serves s' a d) : Represents size s' { A with current := some a } := by
  refine ⟨fun b => by rw [mem]; exact represents.sizes b, fun b e here => by rw [mem]; exact represents.holds b e here,
    fun b here => ?_⟩
  cases here
  exact ⟨d, there, serves⟩

variable [DecidableEq ι]

/-- One array is changed, and served next. -/
theorem Represents.put (represents : Represents size s A) (kept : ∀ a ≠ c, s'.mem a = s.mem a)
    (length : (s'.mem c).length = (s.mem c).length) (holds : Holds (s'.mem c) d) (serves : Serves s' c d) :
    Represents size s' { A.put c d with current := some c } := by
  refine ⟨fun a => ?_, fun a e there => ?_, fun a there => ?_⟩
  · by_cases same : a = c
    · rw [same, length, represents.sizes]
    · rw [kept a same, represents.sizes]
  · change Function.update A.drawn c (some d) a = some e at there
    by_cases same : a = c
    · subst same
      rw [Function.update_self] at there
      cases there
      exact holds
    · rw [Function.update_of_ne same] at there
      rw [kept a same]
      exact represents.holds a e there
  · cases there
    exact ⟨d, Function.update_self .., serves⟩

theorem put_current (current : A.current = some c) (d : Drawn) :
    { A.put c d with current := some c } = A.put c d := by
  rw [← current]
  rfl

theorem random_draws (represents : Represents size s A) (current : A.current = some c)
    (drawn : A.drawn c = some d) :
    ∃ s', randomR s = some (number d.type d.seed d.drawn, s') ∧
      Represents size s' (A.put c { d with drawn := d.drawn + 1 }) := by
  have holds := represents.holds c d drawn
  obtain ⟨d', there, serves⟩ := represents.serves c current
  cases drawn.symm.trans there
  rw [← put_current current]
  by_cases linear : d.type = TYPE_0
  · have read : s.read ⟨c, 1⟩ = some (congruential d.seed d.drawn) := by
      rw [← holds.linear linear]
      exact read_table (i := 0) holds.room.1
    have wrote (v : Int32) : s.write ⟨c, 1⟩ v = some (s.stored c 0 v) := write_table (i := 0) holds.room.1 v
    have kept := stored_keeps s c 0 (congruential d.seed (d.drawn + 1))
    refine ⟨_, ?_, represents.put kept.others kept.length ⟨⟨holds.legal, ?_, fun _ => ?_, ?_⟩, ?_⟩
      ⟨serves.prepared.same rfl kept.length, fun other => absurd linear other⟩⟩
    · rw [randomR, if_pos (serves.prepared.randType.trans linear), serves.prepared.state, read, number,
        if_pos linear]
      simp only [Option.bind_eq_bind, Option.bind_some, wrote]
      rfl
    · rw [kept.length]
      exact holds.room
    · rw [stored_words, table_set (i := 0) holds.room.1, Function.update_self]
    · exact fun other => absurd linear other
    · exact kept.header.trans holds.header
  · have running : Running s c d.type (start d.type d.seed) (10 * degrees d.type + d.drawn) :=
      ⟨linear, holds.legal, holds.room.2, serves.placed linear, holds.turned linear⟩
    obtain ⟨s', draws, next, kept⟩ := random_running running
    have room : 1 < (s'.mem c).length := by
      rw [kept.length]
      exact holds.room.1
    refine ⟨s', ?_, represents.put kept.others kept.length ⟨⟨holds.legal, ⟨room, next.room⟩,
      fun other => absurd other linear, fun _ => next.turned⟩, kept.header.trans holds.header⟩
      (next.serves (d := { d with drawn := d.drawn + 1 }) rfl room)⟩
    rw [draws, number, if_neg linear]

/-- A table is made from a seed, whatever its array held before. -/
theorem srandom_tables (prepared : Prepared s c type) (seed : UInt32) (saved : Nat) :
    ∃ s', srandomR seed s = some (0, s') ∧ Keeps c s s' ∧ Tabled (s'.mem c) ⟨type, seed, 0, saved⟩ ∧
      Serves s' c ⟨type, seed, 0, saved⟩ := by
  by_cases linear : type = TYPE_0
  · subst linear
    have kept := stored_keeps s c 0 (seeded seed)
    refine ⟨_, srandom_linear prepared seed, kept, ⟨prepared.legal, by rw [kept.length]; exact prepared.room,
      fun _ => ?_, fun other => absurd rfl other⟩, ⟨prepared.same rfl kept.length, fun other => absurd rfl other⟩⟩
    rw [stored_words, table_set (i := 0) prepared.room.1, Function.update_self]
    rfl
  · obtain ⟨s', seeds, running, kept⟩ := srandom_running prepared linear seed
    have room : 1 < (s'.mem c).length := by
      rw [kept.length]
      exact prepared.room.1
    exact ⟨s', seeds, kept, ⟨prepared.legal, ⟨room, running.room⟩, fun other => absurd other linear,
      fun _ => running.turned⟩, running.serves (d := ⟨type, seed, 0, saved⟩) rfl room⟩

theorem srandom_draws (represents : Represents size s A) (current : A.current = some c)
    (drawn : A.drawn c = some d) (seed : UInt32) :
    ∃ s', srandomR seed s = some (0, s') ∧ Represents size s' (A.put c { d with seed, drawn := 0 }) := by
  have holds := represents.holds c d drawn
  obtain ⟨d', there, serves⟩ := represents.serves c current
  cases drawn.symm.trans there
  rw [← put_current current]
  obtain ⟨s', seeds, kept, tabled, serves'⟩ := srandom_tables serves.prepared seed d.saved
  exact ⟨s', seeds, represents.put kept.others kept.length ⟨tabled, kept.header.trans holds.header⟩ serves'⟩

def Rng.marked (s : Rng ι) (c : ι) (v : Int32) : Rng ι :=
  { s with mem := Function.update s.mem c ((s.mem c).set 0 v) }

theorem marked_words (s : Rng ι) (c : ι) (v : Int32) : (s.marked c v).mem c = (s.mem c).set 0 v :=
  Function.update_self ..

theorem marked_others (s : Rng ι) (c : ι) (v : Int32) : ∀ a ≠ c, (s.marked c v).mem a = s.mem a :=
  fun _ apart => Function.update_of_ne apart _ _

theorem marked_length (s : Rng ι) (c : ι) (v : Int32) :
    ((s.marked c v).mem c).length = (s.mem c).length := by
  rw [marked_words, List.length_set]

theorem write_header (inside : 0 < (s.mem c).length) (v : Int32) : s.write ⟨c, 0⟩ v = some (s.marked c v) :=
  if_pos inside

theorem table_marked (words : List Int32) (v : Int32) : table (words.set 0 v) = table words := by
  funext i
  rw [table, table, List.getD_eq_getElem?_getD, List.getElem?_set_ne (by omega), List.getD_eq_getElem?_getD]

theorem Tabled.marked {words : List Int32} (tabled : Tabled words d) :
    Holds (words.set 0 (header d.type (d.saved % degrees d.type))) d := by
  obtain ⟨legal, room, linear, turned⟩ := tabled
  refine ⟨⟨legal, by rw [List.length_set]; exact room, by rw [table_marked]; exact linear,
    by rw [table_marked]; exact turned⟩, List.getElem?_set_self (Nat.zero_lt_of_lt room.1)⟩

theorem initstate_draws (represents : Represents size s A) {a : ι} {n : Nat} (fits : typeFor n = some type)
    (room : n ≤ 4 * size a) (seed : UInt32) :
    ∃ s', initstateR seed a n s = some (0, s') ∧
      Represents size s' { A.put a ⟨type, seed, 0, 0⟩ with current := some a } := by
  obtain ⟨legal, enough, two⟩ := typeFor_room fits
  have length := represents.sizes a
  let begun : Rng ι := ⟨⟨s.buf.fptr, s.buf.rptr, ⟨a, 1⟩, type, degrees type, seps type, ⟨a, 1 + degrees type⟩⟩, s.mem⟩
  have prepared : Prepared begun a type :=
    ⟨legal, by change 1 < (s.mem a).length ∧ degrees type < (s.mem a).length; omega, rfl, rfl, rfl, rfl, rfl⟩
  obtain ⟨t, seeds, kept, tabled, serves⟩ := srandom_tables prepared seed 0
  have marks := write_header (Nat.zero_lt_of_lt tabled.room.1)
    (header type (t.buf.rptr.index - t.buf.state.index))
  rw [serves.rear] at marks
  have others : ∀ b ≠ a, (t.marked a (header type (0 % degrees type))).mem b = s.mem b :=
    fun b apart => (marked_others t a _ b apart).trans (kept.others b apart)
  have same : ((t.marked a (header type (0 % degrees type))).mem a).length = (s.mem a).length :=
    (marked_length t a _).trans kept.length
  refine ⟨_, ?_, represents.put others same ?_ ⟨serves.prepared.same rfl (marked_length t a _), serves.placed⟩⟩
  · rw [initstateR, fits]
    change (srandomR seed begun >>= fun r =>
      r.2.write ⟨a, 0⟩ (header type (r.2.buf.rptr.index - r.2.buf.state.index)) >>= fun s => pure (0, s)) = _
    rw [seeds]
    change (t.write ⟨a, 0⟩ (header type (t.buf.rptr.index - t.buf.state.index)) >>= _) = _
    rw [serves.rear, marks]
    rfl
  · rw [marked_words]
    exact tabled.marked

theorem header_read {type rear : Nat} (legal : type < 5) (small : rear < 64) :
    (header type rear % 5).toInt.toNat = type ∧ ¬ (header type rear % 5 < 0 ∨ header type rear % 5 > 4) ∧
      (type ≠ TYPE_0 → (header type rear / 5).toInt.toNat = rear) := by
  have all : ∀ type < 5, ∀ rear < 64, (header type rear % 5).toInt.toNat = type ∧
      ¬ (header type rear % 5 < 0 ∨ header type rear % 5 > 4) ∧
      (type ≠ TYPE_0 → (header type rear / 5).toInt.toNat = rear) := by decide +kernel
  exact all type legal rear small

/-- The place in the header of a table that resumes. -/
theorem Drawn.resumes_rear (legal : d.type < MAX_TYPES) (resumes : d.resumes) :
    ∃ rear < 64, header d.type (d.saved % degrees d.type) = header d.type rear ∧
      (d.type ≠ TYPE_0 → rear = d.drawn % degrees d.type) := by
  by_cases linear : d.type = TYPE_0
  · refine ⟨0, by decide, ?_, fun other => absurd linear other⟩
    rw [header, header, if_pos linear, if_pos linear]
  · rw [Drawn.resumes, Bool.or_eq_true, decide_eq_true_eq, decide_eq_true_eq] at resumes
    have same := resumes.resolve_left linear
    have some_deg := Nat.zero_lt_of_lt (lags linear legal).2
    have sizes : ∀ type < MAX_TYPES, degrees type < 64 := by decide
    exact ⟨d.drawn % degrees d.type, Nat.lt_trans (Nat.mod_lt _ some_deg) (sizes d.type legal), by rw [same],
      fun _ => rfl⟩

/-- The array that is left has its place saved, and the other one is taken up where it was. -/
theorem setstate_draws (represents : Represents size s A) (current : A.current = some c)
    (drawn : A.drawn c = some d) {a : ι} {e : Drawn}
    (there : (A.put c { d with saved := d.drawn }).drawn a = some e) (resumes : e.resumes) :
    ∃ s', setstateR (some a) s = some (0, s') ∧
      Represents size s' { A.put c { d with saved := d.drawn } with current := some a } := by
  have holds := represents.holds c d drawn
  obtain ⟨d', same, serves⟩ := represents.serves c current
  cases drawn.symm.trans same
  have marks := write_header (Nat.zero_lt_of_lt holds.room.1)
    (header d.type (s.buf.rptr.index - s.buf.state.index))
  rw [serves.rear] at marks
  have saves : Represents size (s.marked c (header d.type (d.drawn % degrees d.type)))
      (A.put c { d with saved := d.drawn }) := by
    rw [← put_current current]
    refine represents.put (marked_others s c _) (marked_length s c _) ?_
      ⟨serves.prepared.same rfl (marked_length s c _), serves.placed⟩
    rw [marked_words]
    exact Tabled.marked (d := { d with saved := d.drawn }) ⟨holds.legal, holds.room, holds.linear, holds.turned⟩
  generalize s.marked c (header d.type (d.drawn % degrees d.type)) = t at marks saves
  have table := saves.holds a e there
  obtain ⟨rear, small, written, place⟩ := Drawn.resumes_rear table.legal resumes
  obtain ⟨kind, ok, rear_read⟩ := header_read table.legal small
  have read : t.read ⟨a, 0⟩ = some (header e.type rear) := table.header.trans (congrArg some written)
  have unfolds : setstateR (some a) s = if e.type ≠ TYPE_0 then
      some (0, ⟨⟨⟨a, 1 + ((header e.type rear / 5).toInt.toNat + seps e.type) % degrees e.type⟩,
        ⟨a, 1 + (header e.type rear / 5).toInt.toNat⟩, ⟨a, 1⟩, e.type, degrees e.type, seps e.type,
        ⟨a, 1 + degrees e.type⟩⟩, t.mem⟩)
      else some (0, ⟨⟨t.buf.fptr, t.buf.rptr, ⟨a, 1⟩, e.type, degrees e.type, seps e.type,
        ⟨a, 1 + degrees e.type⟩⟩, t.mem⟩) := by
    change (s.buf.state.before >>= fun saved =>
      s.write saved (header s.buf.randType (s.buf.rptr.index - s.buf.state.index)) >>= _) = _
    rw [serves.prepared.randType, serves.rear, serves.prepared.state]
    change (s.write ⟨c, 0⟩ (header d.type (d.drawn % degrees d.type)) >>= _) = _
    rw [marks]
    change (t.read ⟨a, 0⟩ >>= _) = _
    rw [read]
    refine (if_neg ok).trans ?_
    rw [kind]
    rfl
  rw [unfolds]
  by_cases linear : e.type = TYPE_0
  · rw [if_neg (not_not.mpr linear)]
    refine ⟨_, rfl, saves.turn there rfl ⟨⟨table.legal, table.room, rfl, rfl, rfl, rfl, rfl⟩, ?_⟩⟩
    exact fun other => absurd linear other
  · rw [if_pos linear, rear_read linear, place linear]
    refine ⟨_, rfl, saves.turn there rfl ⟨⟨table.legal, table.room, rfl, rfl, rfl, rfl, rfl⟩, fun _ => ?_⟩⟩
    rw [placed, around, Nat.mul_add_mod_self_right, Nat.add_assoc, Nat.mul_add_mod_self_right, Nat.mod_add_mod]

theorem call_draws (represents : Represents size s A) {call : Call ι} {r : Answer} {A' : Streams ι}
    (promised : A.call size call = some (r, A')) :
    ∃ s', s.call call = some (r, s') ∧ Represents size s' A' := by
  cases call with
  | random =>
    simp only [Streams.call, Option.bind_eq_bind, Option.bind_eq_some_iff] at promised
    obtain ⟨c, current, d, drawn, same⟩ := promised
    cases same
    obtain ⟨s', draws, after⟩ := random_draws represents current drawn
    exact ⟨s', by rw [Rng.call, draws]; rfl, after⟩
  | srandom seed =>
    simp only [Streams.call, Option.bind_eq_bind, Option.bind_eq_some_iff] at promised
    obtain ⟨c, current, d, drawn, same⟩ := promised
    cases same
    obtain ⟨s', seeds, after⟩ := srandom_draws represents current drawn seed
    exact ⟨s', by rw [Rng.call, seeds]; rfl, after⟩
  | initstate seed a n =>
    rw [Streams.call] at promised
    cases fits : typeFor n with
    | none =>
      rw [fits] at promised
      cases promised
      exact ⟨s, by rw [Rng.call, initstateR, fits]; rfl, represents⟩
    | some type =>
      rw [fits] at promised
      change (if n ≤ 4 * size a then _ else none) = _ at promised
      by_cases room : n ≤ 4 * size a
      · rw [if_pos room] at promised
        cases promised
        obtain ⟨s', begins, after⟩ := initstate_draws represents fits room seed
        exact ⟨s', by rw [Rng.call, begins]; rfl, after⟩
      · rw [if_neg room] at promised
        cases promised
  | setstate a =>
    cases a with
    | none =>
      cases promised
      exact ⟨s, rfl, represents⟩
    | some a =>
      simp only [Streams.call, Option.bind_eq_bind, Option.bind_eq_some_iff] at promised
      obtain ⟨c, current, d, drawn, e, there, same⟩ := promised
      split at same
      next resumes =>
        cases same
        obtain ⟨s', turns, after⟩ := setstate_draws represents current drawn there resumes
        exact ⟨s', by rw [Rng.call, turns]; rfl, after⟩
      next lost => cases same

theorem calls_draw (represents : Represents size s A) {calls : List (Call ι)} {rs : List Answer}
    {A' : Streams ι} (promised : A.calls size calls = some (rs, A')) :
    ∃ s', s.calls calls = some (rs, s') ∧ Represents size s' A' := by
  induction calls generalizing s A rs with
  | nil =>
    cases promised
    exact ⟨s, rfl, represents⟩
  | cons call calls ih =>
    simp only [Streams.calls, Option.bind_eq_bind, Option.bind_eq_some_iff] at promised
    obtain ⟨⟨r, B⟩, first, ⟨rs, B'⟩, rest, same⟩ := promised
    cases same
    obtain ⟨t, called, after⟩ := call_draws represents first
    obtain ⟨u, calls_rest, last⟩ := ih after rest
    refine ⟨u, ?_, last⟩
    rw [Rng.calls, called]
    change ((t.calls calls) >>= _) = _
    rw [calls_rest]
    rfl

end Represents

section Runs

variable {ι : Type} [DecidableEq ι]

def Streams.none : Streams ι := ⟨.none, fun _ => .none⟩

omit [DecidableEq ι] in
theorem none_represents (s : Rng ι) : Represents (fun a => (s.mem a).length) s Streams.none :=
  ⟨fun _ => rfl, fun _ _ there => (by cases there), fun _ there => (by cases there)⟩

end Runs

section Pi

inductive PiCall where
  | seed (x : UInt32)
  | random

def PiRandom.call (p : PiRandom) : PiCall → Option (Option UInt32 × PiRandom)
  | .seed x => (piRandomSeed x p).map fun p => (none, p)
  | .random => (piRandom p).map fun r => (some r.1, r.2)

def PiRandom.calls (p : PiRandom) : List PiCall → Option (List (Option UInt32))
  | [] => some []
  | c :: cs => do
    let (r, p) ← p.call c
    let rs ← p.calls cs
    pure (r :: rs)

/-- The seed, and how many of its numbers are drawn. The first number of the default seed is lost to the check
of pi_random_init. -/
def promise : Option (UInt32 × Nat) → PiCall → Option UInt32 × Option (UInt32 × Nat)
  | _, .seed x => (none, some (x, 0))
  | none, .random => (some (number TYPE_3 0 1).toUInt32, some (0, 2))
  | some (x, k), .random => (some (number TYPE_3 x k).toUInt32, some (x, k + 1))

def promises (n : Option (UInt32 × Nat)) : List PiCall → List (Option UInt32)
  | [] => []
  | c :: cs => (promise n c).1 :: promises (promise n c).2 cs

def Started (p : PiRandom) (x : UInt32) (k : Nat) : Prop :=
  p.initializedP = true ∧
    Represents (fun _ => 32) p.rng ⟨some (), fun _ => some ⟨TYPE_3, x, k, 0⟩⟩

theorem put_only (A : Streams Unit) (d : Drawn) :
    { A.put () d with current := some () } = (⟨some (), fun _ => some d⟩ : Streams Unit) := by
  rw [Streams.put]
  congr 1

theorem first_number : number TYPE_3 0 0 = 0x6b8b4567 := by
  obtain ⟨A, promised⟩ : ∃ A, Streams.none.calls (fun _ => 32) [.initstate 0 () STATESIZE, .random] =
      some ([(0, none), (0, some (number TYPE_3 0 0))], A) := ⟨_, rfl⟩
  obtain ⟨s', called, _⟩ := calls_draw (none_represents ⟨zeroed, fun _ => List.replicate 32 0⟩) promised
  have computed : ((⟨zeroed, fun _ => List.replicate 32 0⟩ : Rng Unit).calls
      [.initstate 0 () STATESIZE, .random]).map Prod.fst = some [(0, none), (0, some 0x6b8b4567)] := by
    decide +kernel
  rw [called] at computed
  simpa using computed

theorem seed_starts {p : PiRandom} (size : (p.rng.mem ()).length = 32) (x : UInt32) :
    ∃ p', piRandomSeed x p = some p' ∧ Started p' x 0 := by
  have begins : Represents (fun _ => 32) { p.rng with buf := zeroed } Streams.none :=
    ⟨fun _ => size, fun _ _ there => (by cases there), fun _ there => (by cases there)⟩
  obtain ⟨s, set, made⟩ := initstate_draws begins (a := ()) (n := STATESIZE) rfl (by decide) x
  rw [put_only] at made
  obtain ⟨t, again, seeded⟩ := srandom_draws made (c := ()) rfl rfl x
  rw [← put_current rfl, put_only] at seeded
  refine ⟨⟨true, t⟩, ?_, rfl, seeded⟩
  rw [piRandomSeed, set]
  change (srandomR x s >>= _) = _
  rw [again]
  rfl

theorem started_draws {p : PiRandom} {x : UInt32} {k : Nat} (started : Started p x k) :
    ∃ p', p.draw = some ((number TYPE_3 x k).toUInt32, p') ∧ Started p' x (k + 1) := by
  obtain ⟨initialized, represents⟩ := started
  obtain ⟨s, draws, after⟩ := random_draws represents (c := ()) rfl rfl
  rw [← put_current rfl, put_only] at after
  refine ⟨{ p with rng := s }, ?_, initialized, after⟩
  rw [PiRandom.draw, draws]
  rfl

theorem nested_draws {p : PiRandom} (initialized : p.initializedP = true) (fuel : Nat) :
    piRandomNested (fuel + 1) p = p.draw := by
  rw [piRandomNested, if_pos initialized]
  rfl

theorem first_call {p q r t : PiRandom} {u v : UInt32} (fresh : p.initializedP = false)
    (seeds : piRandomSeed 0 p = some q) (initialized : q.initializedP = true)
    (kept : r.initializedP = true) (draws : q.draw = some (u, r)) (check : 0x6b8b4567 = u)
    (next : r.draw = some (v, t)) : piRandom p = some (v, t) := by
  have begun : ¬ p.initializedP = true := by
    rw [fresh]
    decide
  have set : ({ r with initializedP := true } : PiRandom) = r := by
    rw [← kept]
  rw [piRandom, piRandomNested, if_neg begun, seeds]
  simp only [Option.bind_eq_bind, Option.bind_some, nested_draws initialized, draws, if_pos check,
    Option.pure_def, set, next]

theorem first_draws {p : PiRandom} (fresh : p.initializedP = false) (size : (p.rng.mem ()).length = 32) :
    ∃ p', piRandom p = some ((number TYPE_3 0 1).toUInt32, p') ∧ Started p' 0 2 := by
  obtain ⟨q, seeds, started⟩ := seed_starts size 0
  obtain ⟨r, draws, started'⟩ := started_draws started
  obtain ⟨t, next, last⟩ := started_draws started'
  have check : 0x6b8b4567 = (number TYPE_3 0 0).toUInt32 := by
    rw [first_number]
    rfl
  exact ⟨t, first_call fresh seeds started.1 started'.1 draws check next, last⟩

def Matches (p : PiRandom) : Option (UInt32 × Nat) → Prop
  | none => p.initializedP = false ∧ (p.rng.mem ()).length = 32
  | some (x, k) => Started p x k

theorem Started.size {p : PiRandom} {x : UInt32} {k : Nat} (started : Started p x k) :
    (p.rng.mem ()).length = 32 := started.2.sizes ()

theorem Matches.size {p : PiRandom} {n : Option (UInt32 × Nat)} (matched : Matches p n) :
    (p.rng.mem ()).length = 32 := by
  cases n with
  | none => exact matched.2
  | some n => exact Started.size matched

theorem pi_call {p : PiRandom} {n : Option (UInt32 × Nat)} (matched : Matches p n) (c : PiCall) :
    ∃ p', p.call c = some ((promise n c).1, p') ∧ Matches p' (promise n c).2 := by
  cases c with
  | seed x =>
    obtain ⟨p', seeds, started⟩ := seed_starts matched.size x
    have same : promise n (.seed x) = (none, some (x, 0)) := by
      cases n <;> rfl
    rw [same]
    exact ⟨p', by rw [PiRandom.call, seeds]; rfl, started⟩
  | random =>
    cases n with
    | none =>
      obtain ⟨p', draws, started⟩ := first_draws matched.1 matched.2
      exact ⟨p', by rw [PiRandom.call, draws]; rfl, started⟩
    | some n =>
      obtain ⟨x, k⟩ := n
      obtain ⟨p', draws, started⟩ := started_draws matched
      exact ⟨p', by rw [PiRandom.call, piRandom, nested_draws matched.1, draws]; rfl, started⟩

theorem pi_calls {p : PiRandom} {n : Option (UInt32 × Nat)} (matched : Matches p n) (calls : List PiCall) :
    p.calls calls = some (promises n calls) := by
  induction calls generalizing p n with
  | nil => rfl
  | cons c cs ih =>
    obtain ⟨p', called, matched'⟩ := pi_call matched c
    rw [PiRandom.calls, called]
    change (p'.calls cs >>= _) = _
    rw [ih matched']
    rfl

/-- From the start of the program on, in any order of the calls, no assert fails, and each pi_random gives the
next number of the last seed. -/
theorem pi_calls_as_promised {p : PiRandom} (fresh : p.initializedP = false)
    (size : (p.rng.mem ()).length = 32) (calls : List PiCall) : p.calls calls = some (promises none calls) :=
  pi_calls (n := none) ⟨fresh, size⟩ calls

theorem two_draws : (⟨false, ⟨zeroed, fun _ => List.replicate 32 0⟩⟩ : PiRandom).calls [.random, .seed 7, .random] =
    some [some (number TYPE_3 0 1).toUInt32, none, some (number TYPE_3 7 0).toUInt32] :=
  pi_calls_as_promised rfl List.length_replicate _

end Pi

end EmbeddedOS.Libc.Random
