import Mathlib.Data.List.TakeWhile

/-! quine-gen.c and the printing code of seed.c, on bytes of any value. -/
namespace EmbeddedOS.TrustingTrust.Quine

def byte (c : Char) : UInt8 := UInt8.ofNat c.toNat

def bytes (s : String) : List UInt8 := s.toList.map byte

section Printing

def EOF : Int := -1

def char (c : UInt8) : Int8 := c.toInt8

/-- `while ((ch = getchar()) != EOF) prog[k++] = ch;`, where a char is signed. -/
def fill : List UInt8 → List Int8
  | [] => []
  | c :: input => if (char c).toInt = EOF then [] else char c :: fill input

def bufferSize : Nat := 10000

/-- The array with its terminator, where the buffer has room for both. -/
def readProg (input : List UInt8) : Option (List Int8) :=
  if (fill input).length < bufferSize then some (fill input ++ [0]) else none

/-- `%d` -/
def decimal (v : Int) : List UInt8 :=
  if v < 0 then byte '-' :: (Nat.toDigits 10 v.natAbs).map byte
  else (Nat.toDigits 10 v.natAbs).map byte

/-- `for(i = 0; prog[i]; i++) printf("\t%d,%c", prog[i], (i+1)%8==0 ? '\n' : ' ');` -/
def entries : Nat → List Int8 → List UInt8
  | _, [] => []
  | i, v :: rest =>
    if v = 0 then []
    else byte '\t' :: (decimal v.toInt ++
      byte ',' :: (if (i + 1) % 8 = 0 then byte '\n' else byte ' ') :: entries (i + 1) rest)

/-- `%s` -/
def text (prog : List Int8) : List UInt8 := (prog.takeWhile (· ≠ 0)).map Int8.toUInt8

def opening : List UInt8 := bytes "char prog[] = \x7b\n"
def closing : List UInt8 := bytes "0 \x7d;\n"

/-- What main of seed.c prints with this array. -/
def seed (prog : List Int8) : List UInt8 := opening ++ (entries 0 prog ++ (closing ++ text prog))

/-- What main of quine-gen.c prints for this input, if it stays in its buffer. -/
def quineGen (input : List UInt8) : Option (List UInt8) :=
  (readProg input).map fun prog => opening ++ (entries 0 prog ++ (closing ++ text prog))

example : quineGen (bytes "A\n") = some (bytes "char prog[] = \x7b\n\t65, \t10, 0 \x7d;\nA\n") := by
  decide +kernel

end Printing

section Reading

def isSpace (c : UInt8) : Bool := c = byte ' ' || c = byte '\t' || c = byte '\n'

def isDigit (c : UInt8) : Bool := byte '0' ≤ c && c ≤ byte '9'

/-- Where the compiler is in an initialiser: in front of an element, in it or behind it. -/
inductive Place where
  | start
  | minus
  | number (neg : Bool) (n : Nat)
  | behind (neg : Bool) (n : Nat)
deriving DecidableEq

def Place.next : Place → UInt8 → Option Place
  | .start, c =>
    if isSpace c then some .start
    else if c = byte '-' then some .minus
    else if isDigit c then some (.number false (c - byte '0').toNat)
    else none
  | .minus, c => if isDigit c then some (.number true (c - byte '0').toNat) else none
  | .number neg n, c =>
    if isDigit c then some (.number neg (10 * n + (c - byte '0').toNat))
    else if isSpace c then some (.behind neg n)
    else none
  | .behind neg n, c => if isSpace c then some (.behind neg n) else none

def element (neg : Bool) (n : Nat) : Int8 := Int8.ofInt (if neg then -n else n)

def Place.value : Place → Option Int8
  | .number neg n => some (element neg n)
  | .behind neg n => some (element neg n)
  | _ => none

/-- The elements up to the closing brace, and the text behind it. -/
def elements : Place → List UInt8 → Option (List Int8 × List UInt8)
  | _, [] => none
  | place, c :: cs =>
    match place.next c, place.value with
    | some place, _ => elements place cs
    | none, some v =>
      if c = byte ',' then (elements .start cs).map fun r => (v :: r.1, r.2)
      else if c = byte '\x7d' then some ([v], cs)
      else none
    | none, none => if place = .start ∧ c = byte '\x7d' then some ([], cs) else none

def behind (first : List UInt8) (cs : List UInt8) : Option (List UInt8) :=
  if first.isPrefixOf cs then some (cs.drop first.length) else none

/-- The array that the initialiser at the head of a program declares, and the rest of the program. -/
def decode (program : List UInt8) : Option (List Int8 × List UInt8) :=
  (behind (bytes "char prog[] = \x7b") program).bind fun cs =>
  (elements .start cs).bind fun r =>
  (behind (bytes ";\n") r.2).map fun source => (r.1, source)

end Reading

/-- The program that is generated declares an array of this text and has the text behind it, and is
what the printing code prints with that array. -/
def Reproduces (source : List UInt8) : Prop :=
  ∃ out prog, quineGen source = some out ∧ decode out = some (prog, source) ∧
    text prog = source ∧ prog.getLast? = some 0 ∧ seed prog = out

section Printed

theorem byte_forall {P : UInt8 → Prop} (all : ∀ c : Fin 256, P (UInt8.ofNat c)) (c : UInt8) : P c := by
  have here := all ⟨c.toNat, c.toNat_lt⟩
  rwa [UInt8.ofNat_toNat] at here

theorem char_toUInt8 (c : UInt8) : (char c).toUInt8 = c := rfl

theorem char_zero (c : UInt8) : char c = 0 ↔ c = 0 := by
  have back := char_toUInt8 c
  constructor
  · intro zero
    rw [← back, zero]
    rfl
  · rintro rfl
    rfl

theorem char_EOF : ∀ c : UInt8, (char c).toInt = EOF ↔ c = 0xFF := byte_forall (by decide +kernel)

theorem fill_eq (input : List UInt8) : fill input = (input.takeWhile (· ≠ 0xFF)).map char := by
  induction input with
  | nil => rfl
  | cons c input ih =>
    rw [fill, List.takeWhile_cons]
    by_cases ends : c = 0xFF
    · simp [ends, (char_EOF 0xFF).mpr rfl]
    · simp [ends, mt (char_EOF c).mp ends, ih]

theorem text_chars {source : List UInt8} (nonzero : 0 ∉ source) :
    text (source.map char ++ [0]) = source := by
  induction source with
  | nil => rfl
  | cons c source ih =>
    rw [List.mem_cons, not_or] at nonzero
    have visible : char c ≠ 0 := fun zero => nonzero.1 ((char_zero c).mp zero).symm
    have rest := ih nonzero.2
    unfold text at rest ⊢
    simp only [List.map_cons, List.cons_append, List.takeWhile_cons, visible, ne_eq, not_false_eq_true,
      decide_true, if_true, char_toUInt8, rest]

end Printed

section Read

theorem elements_steps {place place' : Place} {w : List UInt8} (rest : List UInt8)
    (steps : w.foldlM Place.next place = some place') :
    elements place (w ++ rest) = elements place' rest := by
  induction w generalizing place with
  | nil =>
    cases steps
    rfl
  | cons c w ih =>
    obtain ⟨mid, one, later⟩ := Option.bind_eq_some_iff.mp steps
    rw [List.cons_append, elements, one]
    exact ih later

theorem decimal_steps (v : Int8) : (decimal v.toInt).foldlM Place.next .start =
      some (.number (v.toInt < 0) v.toInt.natAbs) ∧ element (v.toInt < 0) v.toInt.natAbs = v := by
  have all : ∀ c : UInt8, (decimal (char c).toInt).foldlM Place.next .start =
        some (.number ((char c).toInt < 0) (char c).toInt.natAbs) ∧
      element ((char c).toInt < 0) (char c).toInt.natAbs = char c := byte_forall (by decide +kernel)
  exact all v.toUInt8

theorem elements_entry (v : Int8) (cs : List UInt8) :
    elements .start (byte '\t' :: (decimal v.toInt ++ byte ',' :: cs)) =
      (elements .start cs).map fun r => (v :: r.1, r.2) := by
  obtain ⟨steps, value⟩ := decimal_steps v
  have tab : ([byte '\t'] ++ decimal v.toInt).foldlM Place.next .start =
      some (.number (v.toInt < 0) v.toInt.natAbs) := by
    rw [List.foldlM_append]
    exact steps
  have read := elements_steps (byte ',' :: cs) tab
  simp only [List.cons_append, List.nil_append] at read
  rw [read, elements]
  have stops : Place.next (.number (v.toInt < 0) v.toInt.natAbs) (byte ',') = none := rfl
  rw [stops]
  simp only [Place.value, value, if_true]

theorem elements_entries (i : Nat) {prog : List Int8} (visible : 0 ∉ prog) (rest : List UInt8) :
    elements .start (entries i (prog ++ [0]) ++ (closing ++ rest)) =
      some (prog ++ [0], byte ';' :: byte '\n' :: rest) := by
  induction prog generalizing i with
  | nil => rfl
  | cons v prog ih =>
    rw [List.mem_cons, not_or] at visible
    have later := ih (i + 1) visible.2
    have space : Place.next .start (if (i + 1) % 8 = 0 then byte '\n' else byte ' ') = some .start := by
      split <;> rfl
    rw [List.cons_append, entries, if_neg (Ne.symm visible.1)]
    simp only [List.cons_append, List.append_assoc]
    rw [elements_entry, elements, space]
    simp only [later, Option.map_some]

end Read

section Decoded

theorem decode_printed {prog : List Int8} (visible : 0 ∉ prog) (source : List UInt8) :
    decode (opening ++ (entries 0 (prog ++ [0]) ++ (closing ++ source))) = some (prog ++ [0], source) := by
  have header : opening ++ (entries 0 (prog ++ [0]) ++ (closing ++ source)) =
      bytes "char prog[] = \x7b" ++ byte '\n' :: (entries 0 (prog ++ [0]) ++ (closing ++ source)) := rfl
  have space : elements .start (byte '\n' :: (entries 0 (prog ++ [0]) ++ (closing ++ source))) =
      elements .start (entries 0 (prog ++ [0]) ++ (closing ++ source)) := rfl
  have found (first rest : List UInt8) : behind first (first ++ rest) = some rest := by
    simp [behind, List.isPrefixOf_iff_prefix.mpr (List.prefix_append first rest)]
  rw [decode, header, found, Option.bind_some, space, elements_entries 0 visible, Option.bind_some]
  have last := found (bytes ";\n") source
  change behind (bytes ";\n") (byte ';' :: byte '\n' :: source) = some source at last
  rw [last, Option.map_some]

/-- What quine-gen prints, whatever it has read. -/
theorem quineGen_some {input : List UInt8} (nonzero : 0 ∉ input) (room : input.length < bufferSize) :
    ∃ out, quineGen input = some out ∧
      decode out = some ((input.takeWhile (· ≠ 0xFF)).map char ++ [0], input.takeWhile (· ≠ 0xFF)) ∧
      seed ((input.takeWhile (· ≠ 0xFF)).map char ++ [0]) = out := by
  have shorter : (input.takeWhile (· ≠ 0xFF)).length ≤ input.length :=
    (List.takeWhile_prefix _).length_le
  have nonzero' : 0 ∉ input.takeWhile (· ≠ 0xFF) :=
    fun inside => nonzero ((List.takeWhile_subset _) inside)
  have visible : 0 ∉ (input.takeWhile (· ≠ 0xFF)).map char := by
    intro inside
    obtain ⟨c, there, zero⟩ := List.mem_map.mp inside
    rw [(char_zero c).mp zero] at there
    exact nonzero' there
  have fits : (fill input).length < bufferSize := by
    rw [fill_eq, List.length_map]
    omega
  refine ⟨_, ?_, ?_, rfl⟩
  · rw [quineGen, readProg, if_pos fits, fill_eq]
    rfl
  · rw [seed, text_chars nonzero']
    exact decode_printed visible _

/-- The generated program reproduces itself exactly when no byte of its text is 0xFF. -/
theorem quine_iff {source : List UInt8} (nonzero : 0 ∉ source) (room : source.length < bufferSize) :
    Reproduces source ↔ 0xFF ∉ source := by
  obtain ⟨out, prints, decodes, again⟩ := quineGen_some nonzero room
  have whole : source.takeWhile (· ≠ 0xFF) = source ↔ 0xFF ∉ source := by
    rw [List.takeWhile_eq_self_iff]
    constructor
    · intro all inside
      simpa using all 0xFF inside
    · intro plain c inside
      have other : c ≠ 0xFF := fun same => plain (same ▸ inside)
      simpa using other
  constructor
  · rintro ⟨out', prog, prints', decodes', _⟩
    cases prints.symm.trans prints'
    exact whole.mp (Prod.mk.inj (Option.some.inj (decodes.symm.trans decodes'))).2
  · intro plain
    rw [whole.mpr plain] at decodes again
    exact ⟨out, _, prints, decodes, text_chars nonzero, List.getLast?_concat, again⟩

def seedLines : List String := [
    "// can put any payload here.",
    "#include <stdio.h>",
    "",
    "// the C code for thompson's replicating program, more-or-less.",
    "int main() \x7b ",
    "\tint i;",
    "",
    " \t// Q: why can't we just print prog twice?",
    "\tprintf(\"char prog[] = \x7b\\n\");",
    "\tfor(i = 0; prog[i]; i++)",
    "\t\tprintf(\"\\t%d,%c\", prog[i], (i+1)%8==0 ? '\\n' : ' ');",
    "\tprintf(\"0 \x7d;\\n\");",
    "\tprintf(\"%s\", prog);",
    "\treturn 0;",
    "\x7d"]

def seedC : List UInt8 := seedLines.flatMap fun line => bytes line ++ [byte '\n']

/-- `make check` -/
theorem seed_reproduces : Reproduces seedC :=
  (quine_iff (by decide +kernel) (by decide +kernel)).mpr (by decide +kernel)

theorem last_byte_value_ends : ¬ ∀ source : List UInt8, 0 ∉ source → source.length < bufferSize →
    Reproduces source := by
  intro all
  obtain ⟨out, prog, prints, decodes, _⟩ := all [0xFF] (by decide) (by decide)
  have printed : quineGen [0xFF] = some (opening ++ closing) := by decide +kernel
  cases printed.symm.trans prints
  have read : decode (opening ++ closing) = some ([0], []) := by decide +kernel
  exact absurd (Prod.mk.inj (Option.some.inj (read.symm.trans decodes))).2 (by decide)

end Decoded

end EmbeddedOS.TrustingTrust.Quine
