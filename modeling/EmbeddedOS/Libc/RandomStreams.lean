import EmbeddedOS.Libc.Random
import Mathlib.Logic.Function.Iterate

/-! The numbers of random.c: each array has a sequence of its own, and goes on with it where it was left. -/
namespace EmbeddedOS.Libc.Random
open Lagged

section Numbers

/-- The quotient and the remainder of a division toward zero. -/
theorem divided (v : Int) (low : -2147483648 ≤ v) (high : v < 2147483648) :
    ∃ hi lo : Int, v.tdiv 127773 = hi ∧ v.tmod 127773 = lo ∧ v = 127773 * hi + lo ∧
      (0 ≤ hi ∧ hi ≤ 16807 ∧ 0 ≤ lo ∧ lo < 127773 ∨ -16807 ≤ hi ∧ hi ≤ 0 ∧ -127773 < lo ∧ lo ≤ 0) := by
  refine ⟨_, _, rfl, rfl, ?_, ?_⟩
  · exact (Int.mul_tdiv_add_tmod v 127773).symm
  · rcases Int.le_total 0 v with up | down
    · rw [Int.tdiv_eq_ediv_of_nonneg up, Int.tmod_eq_emod_of_nonneg up]
      omega
    · obtain ⟨u, rfl⟩ : ∃ u, v = -u := ⟨-v, (Int.neg_neg v).symm⟩
      have up : 0 ≤ u := by omega
      rw [Int.neg_tdiv, Int.neg_tmod, Int.tdiv_eq_ediv_of_nonneg up, Int.tmod_eq_emod_of_nonneg up]
      omega

/-- In a long int of 32 bits the product is never formed, and its remainder comes out for every word. -/
theorem nextWord_eq (word : Int32) : nextWord word = Int32.ofInt (16807 * word.toInt % 2147483647) := by
  have low := word.le_toInt
  have high := word.toInt_lt
  obtain ⟨hi, lo, quotient, remainder, whole, signs⟩ := divided word.toInt low high
  have small (v : Int) (low : -2147483648 ≤ v) (high : v < 2147483648) : v.bmod (2 ^ 32) = v :=
    Int.bmod_eq_of_le (by omega) (by omega)
  have hi' : (word / 127773).toInt = hi :=
    (Int32.toInt_div_of_ne_right word 127773 (by decide)).trans quotient
  have lo' : (word % 127773).toInt = lo := (Int32.toInt_mod word 127773).trans remainder
  have factor : (16807 : Int32).toInt = 16807 ∧ (2836 : Int32).toInt = 2836 ∧
      (2147483647 : Int32).toInt = 2147483647 ∧ (0 : Int32).toInt = 0 := by decide
  have first : (16807 * (word % 127773)).toInt = 16807 * lo := by
    rw [Int32.toInt_mul, lo', factor.1]
    exact small _ (by omega) (by omega)
  have second : (2836 * (word / 127773)).toInt = 2836 * hi := by
    rw [Int32.toInt_mul, hi', factor.2.1]
    exact small _ (by omega) (by omega)
  have difference : (16807 * (word % 127773) - 2836 * (word / 127773)).toInt = 16807 * lo - 2836 * hi := by
    rw [Int32.toInt_sub, first, second]
    exact small _ (by omega) (by omega)
  have residue : 16807 * word.toInt % 2147483647 = (16807 * lo - 2836 * hi) % 2147483647 := by
    rw [whole]
    omega
  apply Int32.toInt_inj.mp
  rw [nextWord, residue, Int32.toInt_ofInt_of_le (by omega) (by omega)]
  simp only [Int32.lt_iff_toInt_lt, difference, factor.2.2.2]
  split
  next below =>
    rw [Int32.toInt_add, difference, factor.2.2.1, small _ (by omega) (by omega),
      ← Int.add_emod_right, Int.emod_eq_of_lt (by omega) (by omega)]
  next above =>
    rw [difference, Int.emod_eq_of_lt (by omega) (by omega)]

def seeded (seed : UInt32) : Int32 := (if seed = 0 then 1 else seed).toInt32

/-- The words that the table begins with, each 16807 times the one before by the prime modulus. -/
def seedWord (seed : UInt32) : Nat → Int32
  | 0 => seeded seed
  | j + 1 => Int32.ofInt (16807 * (seedWord seed j).toInt % 2147483647)

def congruential (seed : UInt32) : Nat → Int32
  | 0 => seeded seed
  | k + 1 => (congruential seed k * 1103515245 + 12345) &&& 0x7fffffff

def start (type : Nat) (seed : UInt32) (i : Nat) : Int32 := seedWord seed ((seps type + i) % degrees type)

/-- The numbers that an array gives from its seed on; ten rounds of the table are thrown away first. -/
def number (type : Nat) (seed : UInt32) (k : Nat) : Int32 :=
  if type = TYPE_0 then congruential seed (k + 1)
  else (sequence (degrees type) (seps type) (start type seed) (10 * degrees type + k + degrees type) >>> 1) &&&
    0x7fffffff

end Numbers

section Calls

variable {ι : Type} [DecidableEq ι]

inductive Call (ι : Type) where
  | random
  | srandom (seed : UInt32)
  | initstate (seed : UInt32) (a : ι) (n : Nat)
  | setstate (a : Option ι)

/-- What a call returns, and the number that it stores. -/
abbrev Answer := Int × Option Int32

def Rng.call (s : Rng ι) : Call ι → Option (Answer × Rng ι)
  | .random => (randomR s).map fun r => ((0, some r.1), r.2)
  | .srandom seed => (srandomR seed s).map fun r => ((r.1, none), r.2)
  | .initstate seed a n => (initstateR seed a n s).map fun r => ((r.1, none), r.2)
  | .setstate a => (setstateR a s).map fun r => ((r.1, none), r.2)

def Rng.calls (s : Rng ι) : List (Call ι) → Option (List Answer × Rng ι)
  | [] => some ([], s)
  | c :: cs => do
    let (r, s) ← s.call c
    let (rs, s) ← s.calls cs
    pure (r :: rs, s)

/-- The type and the seed of an array, how many of its numbers are drawn, and how many were when its place
was saved last. -/
structure Drawn where
  type : Nat
  seed : UInt32
  drawn : Nat
  saved : Nat

/-- The saved place is the one that the table is at. -/
def Drawn.resumes (d : Drawn) : Bool := d.type = TYPE_0 || d.saved % degrees d.type = d.drawn % degrees d.type

structure Streams (ι : Type) where
  current : Option ι
  drawn : ι → Option Drawn

def Streams.put (A : Streams ι) (a : ι) (d : Drawn) : Streams ι :=
  { A with drawn := Function.update A.drawn a (some d) }

/-- What is promised of a call for arrays of these sizes: nothing before the first initstate_r, for an array
that is smaller than it is said to be, and for one that initstate_r has left without saving its place. -/
def Streams.call (size : ι → Nat) (A : Streams ι) : Call ι → Option (Answer × Streams ι)
  | .random => do
    let c ← A.current
    let d ← A.drawn c
    pure ((0, some (number d.type d.seed d.drawn)), A.put c { d with drawn := d.drawn + 1 })
  | .srandom seed => do
    let c ← A.current
    let d ← A.drawn c
    pure ((0, none), A.put c { d with seed, drawn := 0 })
  | .initstate seed a n =>
    match typeFor n with
    | none => some ((-1, none), A)
    | some type =>
      if n ≤ 4 * size a then some ((0, none), { A.put a ⟨type, seed, 0, 0⟩ with current := some a }) else none
  | .setstate none => some ((-1, none), A)
  | .setstate (some a) => do
    let c ← A.current
    let d ← A.drawn c
    let A := A.put c { d with saved := d.drawn }
    let e ← A.drawn a
    if e.resumes then pure ((0, none), { A with current := some a }) else none

def Streams.calls (size : ι → Nat) (A : Streams ι) : List (Call ι) → Option (List Answer × Streams ι)
  | [] => some ([], A)
  | c :: cs => do
    let (r, A) ← A.call size c
    let (rs, A) ← A.calls size cs
    pure (r :: rs, A)

end Calls

section Table

theorem lags {type : Nat} (some_type : type ≠ TYPE_0) (legal : type < MAX_TYPES) :
    0 < seps type ∧ seps type < degrees type := by
  obtain rfl | rfl | rfl | rfl : type = 1 ∨ type = 2 ∨ type = 3 ∨ type = 4 := by
    simp only [TYPE_0, MAX_TYPES] at some_type legal
    omega
  all_goals decide

theorem typeFor_room {n type : Nat} (fits : typeFor n = some type) :
    type < MAX_TYPES ∧ 4 * (degrees type + 1) ≤ n ∧ 8 ≤ n := by
  have breaks : BREAK_0 = 8 ∧ BREAK_1 = 32 ∧ BREAK_2 = 64 ∧ BREAK_3 = 128 ∧ BREAK_4 = 256 := by decide
  have sizes : degrees TYPE_0 = 0 ∧ degrees TYPE_1 = 7 ∧ degrees TYPE_2 = 15 ∧ degrees TYPE_3 = 31 ∧
      degrees TYPE_4 = 63 := by decide
  have legal : TYPE_0 < MAX_TYPES ∧ TYPE_1 < MAX_TYPES ∧ TYPE_2 < MAX_TYPES ∧ TYPE_3 < MAX_TYPES ∧
      TYPE_4 < MAX_TYPES := by decide
  unfold typeFor at fits
  split at fits
  · split at fits <;> cases fits <;> omega
  · split at fits
    · split at fits
      · cases fits
      · cases fits
        omega
    · split at fits <;> cases fits <;> omega

/-- The words behind the header. -/
def table (words : List Int32) (i : Nat) : Int32 := words.getD (1 + i) 0

theorem table_get {words : List Int32} {i : Nat} (inside : 1 + i < words.length) :
    words[1 + i]? = some (table words i) := by
  rw [table, List.getD_eq_getElem?_getD, List.getElem?_eq_getElem inside]
  rfl

theorem table_set {words : List Int32} {i : Nat} (inside : 1 + i < words.length) (v : Int32) :
    table (words.set (1 + i) v) = Function.update (table words) i v := by
  funext j
  by_cases same : j = i
  · subst same
    rw [Function.update_self, table, List.getD_eq_getElem?_getD, List.getElem?_set_self inside]
    rfl
  · have apart : 1 + i ≠ 1 + j := fun equal => same (Nat.add_left_cancel equal).symm
    rw [Function.update_of_ne same, table, table, List.getD_eq_getElem?_getD, List.getElem?_set_ne apart,
      List.getD_eq_getElem?_getD]

theorem turn_last {m deg : Nat} (last : m % deg + 1 = deg) : (m + 1) % deg = 0 := by
  rw [← Nat.mod_add_mod, last, Nat.mod_self]

theorem turn_on {m deg : Nat} (some_deg : 0 < deg) (inside : m % deg + 1 ≠ deg) :
    (m + 1) % deg = m % deg + 1 := by
  have below := Nat.mod_lt m some_deg
  rw [← Nat.mod_add_mod, Nat.mod_eq_of_lt (by omega)]

/-- The two pointers do not reach the end of the table at once. -/
theorem not_both {n deg sep : Nat} (some_sep : 0 < sep) (inside : sep < deg)
    (front : (n + sep) % deg + 1 = deg) : n % deg + 1 ≠ deg := by
  intro rear
  have same : (n + sep) % deg = n % deg := by omega
  have none := Nat.sub_mod_eq_zero_of_mod_eq same
  rw [Nat.add_sub_cancel_left, Nat.mod_eq_of_lt inside] at none
  omega

end Table

section Running

variable {ι : Type} {s s' s'' : Rng ι} {c : ι} {type n : Nat} {first : Nat → Int32}

def around (c : ι) (type front rear : Nat) : RandomData ι where
  fptr := ⟨c, 1 + front⟩
  rptr := ⟨c, 1 + rear⟩
  state := ⟨c, 1⟩
  randType := type
  randDeg := degrees type
  randSep := seps type
  endPtr := ⟨c, 1 + degrees type⟩

/-- Where they are after n turns. -/
def placed (c : ι) (type n : Nat) : RandomData ι :=
  around c type ((n + seps type) % degrees type) (n % degrees type)

theorem around_advance (c : ι) (type front rear : Nat) : (around c type front rear).advance =
    if front + 1 ≥ degrees type then around c type 0 (rear + 1)
    else if rear + 1 ≥ degrees type then around c type (front + 1) 0
    else around c type (front + 1) (rear + 1) := by
  have ends (i : Nat) : 1 + i + 1 ≥ 1 + degrees type ↔ i + 1 ≥ degrees type := by omega
  by_cases wraps : front + 1 ≥ degrees type
  · rw [if_pos wraps]
    exact if_pos ((ends front).mpr wraps)
  · rw [if_neg wraps]
    refine (if_neg (mt (ends front).mp wraps)).trans ?_
    by_cases back : rear + 1 ≥ degrees type
    · rw [if_pos back]
      exact congrArg (fun rptr => { around c type (front + 1) 0 with rptr }) (if_pos ((ends rear).mpr back))
    · rw [if_neg back]
      exact congrArg (fun rptr => { around c type (front + 1) 0 with rptr })
        (if_neg (mt (ends rear).mp back))

theorem placed_advance (some_type : type ≠ TYPE_0) (legal : type < MAX_TYPES) :
    (placed c type n).advance = placed c type (n + 1) := by
  obtain ⟨some_sep, inside⟩ := lags some_type legal
  have some_deg : 0 < degrees type := Nat.zero_lt_of_lt inside
  have front := Nat.mod_lt (n + seps type) some_deg
  have rear := Nat.mod_lt n some_deg
  rw [placed, placed, around_advance, Nat.add_right_comm n 1]
  by_cases wraps : (n + seps type) % degrees type + 1 = degrees type
  · rw [if_pos (by omega), turn_last wraps, turn_on some_deg (not_both some_sep inside wraps)]
  · rw [if_neg (by omega), turn_on some_deg wraps]
    by_cases back : n % degrees type + 1 = degrees type
    · rw [if_pos (by omega), turn_last back]
    · rw [if_neg (by omega), turn_on some_deg back]

structure Running (s : Rng ι) (c : ι) (type : Nat) (first : Nat → Int32) (n : Nat) : Prop where
  some_type : type ≠ TYPE_0
  legal : type < MAX_TYPES
  room : degrees type < (s.mem c).length
  buf : s.buf = placed c type n
  turned : Turned (degrees type) (seps type) first (table (s.mem c)) n

/-- Nothing else in memory is changed, nor the header of the array. -/
structure Keeps (c : ι) (s s' : Rng ι) : Prop where
  others : ∀ a ≠ c, s'.mem a = s.mem a
  length : (s'.mem c).length = (s.mem c).length
  header : (s'.mem c)[0]? = (s.mem c)[0]?

theorem Keeps.refl (c : ι) (s : Rng ι) : Keeps c s s := ⟨fun _ _ => rfl, rfl, rfl⟩

theorem Keeps.trans (one : Keeps c s s') (two : Keeps c s' s'') : Keeps c s s'' :=
  ⟨fun a apart => (two.others a apart).trans (one.others a apart), two.length.trans one.length,
    two.header.trans one.header⟩

theorem read_table {i : Nat} (inside : 1 + i < (s.mem c).length) :
    s.read ⟨c, 1 + i⟩ = some (table (s.mem c) i) := table_get inside

variable [DecidableEq ι]

def Rng.stored (s : Rng ι) (c : ι) (i : Nat) (v : Int32) : Rng ι :=
  { s with mem := Function.update s.mem c ((s.mem c).set (1 + i) v) }

theorem stored_words (s : Rng ι) (c : ι) (i : Nat) (v : Int32) :
    (s.stored c i v).mem c = (s.mem c).set (1 + i) v := Function.update_self ..

theorem stored_keeps (s : Rng ι) (c : ι) (i : Nat) (v : Int32) : Keeps c s (s.stored c i v) := by
  refine ⟨fun a apart => Function.update_of_ne apart _ _, ?_, ?_⟩
  · rw [stored_words, List.length_set]
  · rw [stored_words, List.getElem?_set_ne (by omega)]

theorem write_table {i : Nat} (inside : 1 + i < (s.mem c).length) (v : Int32) :
    s.write ⟨c, 1 + i⟩ v = some (s.stored c i v) := if_pos inside

theorem random_running (running : Running s c type first n) :
    ∃ s', randomR s = some ((sequence (degrees type) (seps type) first (n + degrees type) >>> 1) &&&
        0x7fffffff, s') ∧ Running s' c type first (n + 1) ∧ Keeps c s s' := by
  obtain ⟨some_type, legal, room, buf, turned⟩ := running
  obtain ⟨some_sep, inside⟩ := lags some_type legal
  have some_deg : 0 < degrees type := Nat.zero_lt_of_lt inside
  have front := Nat.mod_lt (n + seps type) some_deg
  have rear := Nat.mod_lt n some_deg
  have sum : sequence _ _ first _ = _ := sequence_next some_sep inside n
  rw [← turned.front some_deg, ← turned.rear some_sep inside] at sum
  have next := turned.next some_sep inside
  rw [← sum, ← table_set (by omega)] at next
  have front_read : s.read s.buf.fptr = some (table (s.mem c) ((n + seps type) % degrees type)) := by
    rw [buf]
    exact read_table (by omega)
  have rear_read : s.read s.buf.rptr = some (table (s.mem c) (n % degrees type)) := by
    rw [buf]
    exact read_table (by omega)
  have written (v : Int32) : s.write s.buf.fptr v = some (s.stored c ((n + seps type) % degrees type) v) := by
    rw [buf]
    exact write_table (by omega) v
  have other : s.buf.randType ≠ TYPE_0 := by
    rw [buf]
    exact some_type
  have kept := stored_keeps s c ((n + seps type) % degrees type)
    (sequence (degrees type) (seps type) first (n + degrees type))
  refine ⟨⟨placed c type (n + 1), _⟩, ?_, ⟨some_type, legal, ?_, rfl, ?_⟩, kept.others, kept.length, kept.header⟩
  · rw [randomR, if_neg other, front_read, rear_read]
    simp only [Option.bind_eq_bind, Option.bind_some, ← sum, written]
    change some (_, Rng.mk s.buf.advance _) = _
    rw [buf, placed_advance some_type legal]
  · exact kept.length ▸ room
  · change Turned _ _ _ (table ((s.stored c _ _).mem c)) _
    rw [stored_words]
    exact next

theorem discard_running (running : Running s c type first n) (k : Nat) :
    ∃ s', discard k s = some s' ∧ Running s' c type first (n + k) ∧ Keeps c s s' := by
  induction k generalizing n s with
  | zero => exact ⟨s, rfl, running, .refl c s⟩
  | succ k ih =>
    obtain ⟨t, drawn, next, kept⟩ := random_running running
    obtain ⟨u, rest, after, kept'⟩ := ih next
    refine ⟨u, ?_, ?_, kept.trans kept'⟩
    · rw [discard, drawn]
      exact rest
    · rwa [Nat.add_assoc, Nat.add_comm 1] at after

theorem seedWord_iterate (seed : UInt32) (j : Nat) : seedWord seed j = nextWord^[j] (seeded seed) := by
  induction j with
  | zero => rfl
  | succ j ih => rw [seedWord, ih, Function.iterate_succ_apply', nextWord_eq]

theorem fill_table {k j : Nat} (word : Int32) (room : 1 + (j + k) < (s.mem c).length) :
    ∃ s', fill k word ⟨c, 1 + j⟩ s = some s' ∧ s'.buf = s.buf ∧ Keeps c s s' ∧
      ∀ i, table (s'.mem c) i =
        if j < i ∧ i ≤ j + k then nextWord^[i - j] word else table (s.mem c) i := by
  induction k generalizing j word s with
  | zero =>
    refine ⟨s, rfl, rfl, .refl c s, fun i => ?_⟩
    rw [if_neg (by omega)]
  | succ k ih =>
    have wrote : s.write ⟨c, 1 + (j + 1)⟩ (nextWord word) = some (s.stored c (j + 1) (nextWord word)) :=
      write_table (by omega) _
    have kept := stored_keeps s c (j + 1) (nextWord word)
    obtain ⟨t, rest, same, kept', words⟩ := ih (s := s.stored c (j + 1) (nextWord word)) (j := j + 1)
      (nextWord word) (by rw [kept.length]; omega)
    refine ⟨t, ?_, same, kept.trans kept', fun i => ?_⟩
    · change (s.write ⟨c, 1 + (j + 1)⟩ (nextWord word) >>= _) = _
      rw [wrote]
      exact rest
    · rw [words i, stored_words, table_set (by omega)]
      by_cases later : j + 1 < i ∧ i ≤ j + 1 + k
      · have steps : i - j = i - (j + 1) + 1 := by omega
        rw [if_pos later, if_pos (by omega), steps, Function.iterate_succ_apply]
      · rw [if_neg later]
        by_cases here : i = j + 1
        · subst here
          have one : j + 1 - j = 1 := by omega
          rw [Function.update_self, if_pos (by omega), one]
          rfl
        · rw [Function.update_of_ne here, if_neg (by omega)]

/-- All is set up but the pointers and the table. -/
structure Prepared (s : Rng ι) (c : ι) (type : Nat) : Prop where
  legal : type < MAX_TYPES
  room : 1 < (s.mem c).length ∧ degrees type < (s.mem c).length
  randType : s.buf.randType = type
  randDeg : s.buf.randDeg = degrees type
  randSep : s.buf.randSep = seps type
  state : s.buf.state = ⟨c, 1⟩
  endPtr : s.buf.endPtr = ⟨c, 1 + degrees type⟩

theorem srandom_linear (prepared : Prepared s c TYPE_0) (seed : UInt32) :
    srandomR seed s = some (0, s.stored c 0 (seeded seed)) := by
  have legal : ¬ s.buf.randType ≥ MAX_TYPES := Nat.not_le.mpr (prepared.randType ▸ prepared.legal)
  have wrote : s.write ⟨c, 1⟩ (seeded seed) = some (s.stored c 0 (seeded seed)) :=
    write_table (i := 0) prepared.room.1 _
  rw [srandomR, if_neg legal, prepared.state]
  change (s.write ⟨c, 1⟩ (seeded seed) >>= _) = _
  rw [wrote]
  exact if_pos prepared.randType

theorem srandom_running (prepared : Prepared s c type) (some_type : type ≠ TYPE_0) (seed : UInt32) :
    ∃ s', srandomR seed s = some (0, s') ∧ Running s' c type (start type seed) (10 * degrees type) ∧
      Keeps c s s' := by
  obtain ⟨legal, room, kind, deg, sep, state, ending⟩ := prepared
  obtain ⟨some_sep, inside⟩ := lags some_type legal
  have legal' : ¬ s.buf.randType ≥ MAX_TYPES := Nat.not_le.mpr (kind ▸ legal)
  have wrote : s.write ⟨c, 1⟩ (seeded seed) = some (s.stored c 0 (seeded seed)) :=
    write_table (i := 0) room.1 _
  have kept := stored_keeps s c 0 (seeded seed)
  obtain ⟨t, filled, same, kept', words⟩ := fill_table (s := s.stored c 0 (seeded seed)) (c := c)
    (k := degrees type - 1) (j := 0) (seeded seed) (by rw [kept.length]; omega)
  have begins : Running { t with buf := placed c type 0 } c type (start type seed) 0 := by
    refine ⟨some_type, legal, ?_, rfl, turned_start fun i below => ?_⟩
    · change _ < (t.mem c).length
      rw [kept'.length, kept.length]
      exact room.2
    · change table (t.mem c) _ = _
      have place := Nat.mod_lt (seps type + i) (Nat.zero_lt_of_lt inside)
      rw [words, start, seedWord_iterate]
      by_cases later : 0 < (seps type + i) % degrees type
      · rw [if_pos (by omega), Nat.sub_zero]
      · have zero : (seps type + i) % degrees type = 0 := by omega
        rw [if_neg (by omega), zero, stored_words, table_set room.1, Function.update_self]
        rfl
  obtain ⟨u, discarded, running, kept''⟩ := discard_running begins (10 * degrees type)
  rw [Nat.zero_add] at running
  have kept_t : Keeps c s { t with buf := placed c type 0 } :=
    (kept.trans kept').trans ⟨fun _ _ => rfl, rfl, rfl⟩
  refine ⟨u, ?_, running, kept_t.trans kept''⟩
  have buf : t.buf = s.buf := same
  have pointers : (⟨t.buf.state.add t.buf.randSep, t.buf.state, t.buf.state, t.buf.randType, t.buf.randDeg,
      t.buf.randSep, t.buf.endPtr⟩ : RandomData ι) = placed c type 0 := by
    rw [buf, state, sep, kind, deg, ending, placed, Nat.zero_add, Nat.mod_eq_of_lt inside, Nat.zero_mod]
    rfl
  rw [srandomR, if_neg legal', state]
  change (s.write ⟨c, 1⟩ (seeded seed) >>= _) = _
  rw [wrote]
  refine (if_neg (kind ▸ some_type)).trans ?_
  change (fill (s.buf.randDeg - 1) (seeded seed) s.buf.state (s.stored c 0 (seeded seed)) >>= fun t =>
    discard (t.buf.randDeg * 10) { t with
      buf := { t.buf with fptr := t.buf.state.add t.buf.randSep, rptr := t.buf.state } } >>= fun s =>
        pure (0, s)) = _
  rw [deg, state, show fill (degrees type - 1) (seeded seed) ⟨c, 1⟩ (s.stored c 0 (seeded seed)) = some t from filled]
  change (discard (t.buf.randDeg * 10) ⟨⟨t.buf.state.add t.buf.randSep, t.buf.state, t.buf.state,
    t.buf.randType, t.buf.randDeg, t.buf.randSep, t.buf.endPtr⟩, t.mem⟩ >>= fun s => pure (0, s)) = _
  rw [pointers, buf, deg, Nat.mul_comm, discarded]
  rfl

end Running

end EmbeddedOS.Libc.Random
