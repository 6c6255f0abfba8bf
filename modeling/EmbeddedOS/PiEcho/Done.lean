import Mathlib.Data.List.Infix
import Mathlib.Algebra.Group.Nat.Even

/-! pi-echo.c: the matcher for the string with which the pi asks to be left alone, fed one buffer
after the other. -/
namespace EmbeddedOS.PiEcho

def exitString : List UInt8 := [0x44, 0x4f, 0x4e, 0x45, 0x21, 0x21, 0x21, 0x0a]

/-- The answer and the position for the next call; nothing where the assert fails. -/
def piDone : List UInt8 → Nat → Option (Bool × Nat)
  | [], pos => some (false, pos)
  | c :: s, pos =>
    if c = 0 then some (false, pos)
    else if pos < exitString.length then
      if exitString[pos]? ≠ some c then piDone s 0
      else if pos + 1 = exitString.length then some (true, pos + 1)
      else piDone s (pos + 1)
    else none

def isprint (c : UInt8) : Bool := 0x20 ≤ c && c ≤ 0x7e

def isspace (c : UInt8) : Bool := c == 0x20 || (0x09 ≤ c && c ≤ 0x0d)

def removeNonprint (buf : List UInt8) : List UInt8 :=
  buf.map fun c => if isprint c || (isspace c && c != 0x0d) then c else 0x20

/-- What pi_done answers to the buffers that pi_echo reads, until it leaves. -/
def piEcho : List (List UInt8) → Nat → Option (List Bool)
  | [], _ => some []
  | buf :: bufs, pos =>
    match piDone (removeNonprint buf) pos with
    | none => none
    | some (true, _) => some [true]
    | some (false, pos) => (piEcho bufs pos).map (false :: ·)

/-- The answers of a test on the stream so far, up to the first yes. -/
def answers (test : List UInt8 → Bool) (seen : List UInt8) : List (List UInt8) → List Bool
  | [] => []
  | buf :: bufs =>
    if test (seen ++ buf) then [true] else false :: answers test (seen ++ buf) bufs

/-- Yes on the buffer in which the first occurrence ends. -/
def wanted (bufs : List (List UInt8)) : List Bool :=
  answers (fun s => decide (exitString <:+: s)) [] bufs

section Scan

/-- How far the string is matched behind one more byte. -/
def goes (pos : Nat) (c : UInt8) : Nat := if exitString[pos]? = some c then pos + 1 else 0

def level (s : List UInt8) : Nat := s.foldl goes 0

/-- The answer on the bytes as they come, and how far the string is matched. -/
def scan : Nat → List UInt8 → Bool × Nat
  | pos, [] => (false, pos)
  | pos, c :: s => if goes pos c = 8 then (true, 8) else scan (goes pos c) s

theorem goes_le {pos : Nat} (inside : pos < 8) (c : UInt8) : goes pos c ≤ 8 := by
  unfold goes
  split <;> omega

theorem goes_clean (pos : Nat) (c : UInt8) :
    goes pos (if isprint c || (isspace c && c != 0x0d) then c else 0x20) = goes pos c := by
  split
  · rfl
  · rename_i bad
    have other (x : UInt8) (visible : (isprint x || (isspace x && x != 0x0d)) = true) : x ≠ c := by
      rintro rfl
      exact bad visible
    have none : ∀ x ∈ exitString, x ≠ c ∧ x ≠ 0x20 := by
      have all : ∀ x ∈ exitString,
          (isprint x || (isspace x && x != 0x0d)) = true ∧ x ≠ 0x20 := by decide +kernel
      intro x inside
      exact ⟨other x (all x inside).1, (all x inside).2⟩
    have apart (y : UInt8) (differs : ∀ x ∈ exitString, x ≠ y) : exitString[pos]? ≠ some y := by
      intro there
      exact differs y (List.mem_of_getElem? there) rfl
    unfold goes
    rw [if_neg (apart _ fun x inside => (none x inside).2),
      if_neg (apart _ fun x inside => (none x inside).1)]

theorem piDone_scan (buf : List UInt8) {pos : Nat} (inside : pos < 8) :
    piDone (removeNonprint buf) pos = some (scan pos buf) := by
  induction buf generalizing pos with
  | nil => rfl
  | cons c buf ih =>
    have same := goes_clean pos c
    change piDone ((if isprint c || (isspace c && c != 0x0d) then c else 0x20) :: removeNonprint buf)
      pos = _
    generalize shown : (if isprint c || (isspace c && c != 0x0d) then c else 0x20) = d at same
    have visible : d ≠ 0 := by
      rintro rfl
      split at shown
      · rename_i ok
        subst shown
        exact absurd ok (by decide)
      · exact absurd shown (by decide)
    have size : exitString.length = 8 := rfl
    rw [piDone, scan, if_neg visible, size, if_pos inside, ← same]
    unfold goes
    by_cases hit : exitString[pos]? = some d
    · rw [if_neg (not_not_intro hit), if_pos hit]
      by_cases last : pos + 1 = 8
      · rw [if_pos last, if_pos last, last]
      · rw [if_neg last, if_neg last]
        exact ih (by omega)
    · rw [if_pos hit, if_neg hit, if_neg (by decide)]
      exact ih (by decide)

end Scan

section Pieces

def Piece (p : List UInt8) : Prop := p ≠ [] ∧ p <+: exitString

/-- An even number of pieces stands at the end of the text, one directly behind the other. -/
def EvenPieces (w : List UInt8) : Prop :=
  ∃ (v : List UInt8) (ps : List (List UInt8)), w = v ++ ps.flatten ∧ (∀ p ∈ ps, Piece p) ∧
    (∀ p, Piece p → ¬ p <:+ v) ∧ Even ps.length

theorem level_suffix (s : List UInt8) : exitString.take (level s) <:+ s := by
  induction s using List.reverseRecOn with
  | nil => exact List.suffix_refl []
  | append_singleton s c ih =>
    have more : level (s ++ [c]) = goes (level s) c := List.foldl_concat ..
    rw [more, goes]
    split
    · rename_i hit
      obtain ⟨before, whole⟩ := ih
      obtain ⟨inside, same⟩ := List.getElem?_eq_some_iff.mp hit
      refine ⟨before, ?_⟩
      rw [List.take_succ_eq_append_getElem inside, same, ← List.append_assoc, whole]
    · exact List.nil_suffix

theorem level_fresh {v : List UInt8} (none : ∀ p, Piece p → ¬ p <:+ v) : level v = 0 := by
  by_contra some_left
  refine none _ ⟨?_, List.take_prefix _ _⟩ (level_suffix v)
  intro empty
  rcases List.take_eq_nil_iff.mp empty with zero | nothing
  · exact some_left zero
  · exact absurd nothing (by decide)

theorem piece_take {p : List UInt8} (piece : Piece p) :
    ∃ k, k < 8 ∧ p = exitString.take (k + 1) := by
  obtain ⟨some_left, start⟩ := piece
  have short : p.length ≤ 8 := start.length_le
  have positive := List.length_pos_iff.mpr some_left
  refine ⟨p.length - 1, by omega, ?_⟩
  rw [Nat.sub_add_cancel positive]
  exact List.prefix_iff_eq_take.mp start

/-- A piece is matched from the start, and is what stops every other match. -/
theorem piece_from {p : List UInt8} (piece : Piece p) (pos : Nat) :
    p.foldl goes pos = 0 ↔ pos ≠ 0 := by
  obtain ⟨k, short, rfl⟩ := piece_take piece
  have fresh : ∀ k < 8, (exitString.take (k + 1)).foldl goes 0 = k + 1 := by decide
  have late : ∀ k < 8, (exitString.tail.take k).foldl goes 0 = 0 := by decide
  by_cases zero : pos = 0
  · rw [zero, fresh k short]
    simp
  · have stops : goes pos 0x44 = 0 := by
      obtain ⟨n, rfl⟩ := Nat.exists_eq_succ_of_ne_zero zero
      have absent : ∀ c ∈ exitString.tail, c ≠ 0x44 := by decide +kernel
      unfold goes
      rw [if_neg]
      intro there
      exact absent _ (List.mem_of_getElem? (i := n) there) rfl
    have split : exitString.take (k + 1) = 0x44 :: exitString.tail.take k := rfl
    rw [split, List.foldl_cons, stops, late k short]
    simp [zero]

theorem pieces_from {ps : List (List UInt8)} (pieces : ∀ p ∈ ps, Piece p) (pos : Nat) :
    ps.flatten.foldl goes pos = 0 ↔ (Even ps.length ↔ pos = 0) := by
  induction ps generalizing pos with
  | nil => simp
  | cons p ps ih =>
    have first := piece_from (pieces p List.mem_cons_self) pos
    have later := ih fun q inside => pieces q (List.mem_cons_of_mem p inside)
    rw [List.flatten_cons, List.foldl_append, later, first, List.length_cons, Nat.even_add_one]
    tauto

theorem level_zero {v : List UInt8} {ps : List (List UInt8)} (pieces : ∀ p ∈ ps, Piece p)
    (none : ∀ p, Piece p → ¬ p <:+ v) : level (v ++ ps.flatten) = 0 ↔ Even ps.length := by
  have start : v.foldl goes 0 = 0 := level_fresh none
  rw [level, List.foldl_append, start, pieces_from pieces]
  simp

theorem pieces_exist (w : List UInt8) : ∃ (v : List UInt8) (ps : List (List UInt8)),
    w = v ++ ps.flatten ∧ (∀ p ∈ ps, Piece p) ∧ ∀ p, Piece p → ¬ p <:+ v := by
  induction size : w.length using Nat.strong_induction_on generalizing w with
  | _ n ih =>
    by_cases ends : ∃ p, Piece p ∧ p <:+ w
    · obtain ⟨p, piece, u, rfl⟩ := ends
      have positive := List.length_pos_iff.mpr piece.1
      rw [List.length_append] at size
      obtain ⟨v, ps, rfl, pieces, none⟩ := ih u.length (by omega) u rfl
      refine ⟨v, ps ++ [p], ?_, ?_, none⟩
      · simp [List.append_assoc]
      · intro q inside
        rcases List.mem_append.mp inside with first | last
        · exact pieces q first
        · exact (List.mem_singleton.mp last) ▸ piece
    · refine ⟨w, [], (List.append_nil w).symm, ?_, ?_⟩
      · intro p inside
        cases inside
      · intro p piece suffix
        exact ends ⟨p, piece, suffix⟩

theorem level_zero_iff (w : List UInt8) : level w = 0 ↔ EvenPieces w := by
  constructor
  · intro zero
    obtain ⟨v, ps, rfl, pieces, none⟩ := pieces_exist w
    exact ⟨v, ps, rfl, pieces, none, (level_zero pieces none).mp zero⟩
  · rintro ⟨v, ps, rfl, pieces, none, even⟩
    exact (level_zero pieces none).mpr even

theorem level_full_iff (w : List UInt8) : level (w ++ exitString) = 8 ↔ EvenPieces w := by
  rw [← level_zero_iff]
  have whole : Piece exitString := ⟨by decide, List.prefix_refl _⟩
  have after := piece_from whole (level w)
  have split : level (w ++ exitString) = exitString.foldl goes (level w) := List.foldl_append ..
  rw [split]
  constructor
  · intro full
    by_contra some_left
    rw [after.mpr some_left] at full
    cases full
  · intro zero
    rw [zero]
    decide

end Pieces

section Buffers

theorem scan_append (a b : List UInt8) (pos : Nat) :
    scan pos (a ++ b) = if (scan pos a).1 then scan pos a else scan (scan pos a).2 b := by
  induction a generalizing pos with
  | nil => rfl
  | cons c a ih =>
    rw [List.cons_append, scan, scan]
    by_cases full : goes pos c = 8
    · simp [full]
    · rw [if_neg full, if_neg full, ih]

theorem scan_no {s : List UInt8} {pos : Nat} (inside : pos < 8) (no : (scan pos s).1 = false) :
    (scan pos s).2 < 8 := by
  induction s generalizing pos with
  | nil => exact inside
  | cons c s ih =>
    have bound := goes_le inside c
    rw [scan] at no ⊢
    by_cases full : goes pos c = 8
    · rw [if_pos full] at no
      cases no
    · rw [if_neg full] at no ⊢
      exact ih (by omega) no

theorem scan_yes (s : List UInt8) (pos : Nat) (inside : pos < 8) :
    (scan pos s).1 = true ↔ ∃ t, t <+: s ∧ t.foldl goes pos = 8 := by
  induction s generalizing pos with
  | nil =>
    constructor
    · intro yes
      cases yes
    · rintro ⟨t, start, full⟩
      rw [List.prefix_nil.mp start] at full
      change pos = 8 at full
      omega
  | cons c s ih =>
    have bound := goes_le inside c
    rw [scan]
    by_cases full : goes pos c = 8
    · rw [if_pos full]
      exact iff_of_true rfl ⟨[c], ⟨s, rfl⟩, full⟩
    · rw [if_neg full, ih (goes pos c) (by omega)]
      constructor
      · rintro ⟨t, start, hit⟩
        exact ⟨c :: t, List.cons_prefix_cons.mpr ⟨rfl, start⟩, hit⟩
      · rintro ⟨t, start, hit⟩
        cases t with
        | nil =>
          change pos = 8 at hit
          omega
        | cons d t =>
          obtain ⟨rfl, rest⟩ := List.cons_prefix_cons.mp start
          exact ⟨t, rest, hit⟩

/-- What pi_done has noticed of a stream, in however many buffers it came. -/
def noticed (s : List UInt8) : Bool := (scan 0 s).1

theorem piEcho_answers (bufs : List (List UInt8)) {seen : List UInt8} {pos : Nat}
    (here : scan 0 seen = (false, pos)) : piEcho bufs pos = some (answers noticed seen bufs) := by
  induction bufs generalizing seen pos with
  | nil => rfl
  | cons buf bufs ih =>
    have inside : pos < 8 := by
      have kept := @scan_no seen 0 (by decide) (by rw [here])
      rwa [here] at kept
    have more : scan 0 (seen ++ buf) = scan pos buf := by
      rw [scan_append, here]
      rfl
    rw [piEcho, answers, piDone_scan buf inside, noticed, more]
    cases told : scan pos buf with
    | mk done next =>
      cases done with
      | true => rfl
      | false =>
        have later := ih (more.trans told)
        simp only [later, Option.map_some]
        rfl

theorem noticed_iff (s : List UInt8) :
    noticed s = true ↔ ∃ w, w ++ exitString <+: s ∧ EvenPieces w := by
  rw [noticed, scan_yes s 0 (by decide)]
  constructor
  · rintro ⟨t, start, full⟩
    have ends := level_suffix t
    rw [level, full] at ends
    obtain ⟨w, rfl⟩ := ends
    exact ⟨w, start, (level_full_iff w).mp full⟩
  · rintro ⟨w, start, even⟩
    exact ⟨w ++ exitString, start, (level_full_iff w).mpr even⟩

/-- Two tests give the same answers when the weaker one is met wherever the other first is. -/
theorem answers_iff {one other : List UInt8 → Bool} (weaker : ∀ s, one s = true → other s = true)
    (stays : ∀ s t, other s = true → other (s ++ t) = true) (bufs : List (List UInt8))
    {seen : List UInt8} (fresh : other seen = false) :
    answers one seen bufs = answers other seen bufs ↔
      ∀ before buf after, bufs = before ++ buf :: after → other (seen ++ before.flatten) = false →
        other (seen ++ before.flatten ++ buf) = true →
        one (seen ++ before.flatten ++ buf) = true := by
  induction bufs generalizing seen with
  | nil => simp [answers]
  | cons buf bufs ih =>
    rw [answers, answers]
    cases hit : other (seen ++ buf) with
    | true =>
      constructor
      · intro same before b after split no yes
        cases before with
        | nil =>
          obtain ⟨rfl, rfl⟩ := List.cons.inj split
          simp only [List.flatten_nil, List.append_nil] at no yes ⊢
          by_contra missed
          simp [missed] at same
        | cons a before =>
          obtain ⟨rfl, rfl⟩ := List.cons.inj split
          rw [List.flatten_cons, ← List.append_assoc, stays _ _ hit] at no
          cases no
      · intro all
        have here := all [] buf bufs rfl (by simpa using fresh) (by simpa using hit)
        simp only [List.flatten_nil, List.append_nil] at here
        simp [here]
    | false =>
      have miss : one (seen ++ buf) = false := by
        by_contra met
        rw [weaker _ (by simpa using met)] at hit
        cases hit
      simp only [miss, Bool.false_eq_true, if_false, List.cons.injEq, true_and, ih hit]
      constructor
      · intro all before b after split no yes
        cases before with
        | nil =>
          obtain ⟨rfl, rfl⟩ := List.cons.inj split
          simp [hit] at yes
        | cons a before =>
          obtain ⟨rfl, rfl⟩ := List.cons.inj split
          simp only [List.flatten_cons, ← List.append_assoc] at no yes ⊢
          exact all before b after rfl no yes
      · intro all before b after split no yes
        have here := all (buf :: before) b after (by rw [split]; rfl)
        simp only [List.flatten_cons, ← List.append_assoc] at here
        exact here no yes

/-- In the buffer in which the string first ends, an occurrence ends that stands behind an even
number of pieces. -/
def Undisturbed (bufs : List (List UInt8)) : Prop :=
  ∀ before buf after, bufs = before ++ buf :: after → ¬ exitString <:+: before.flatten →
    exitString <:+: before.flatten ++ buf →
    ∃ w, w ++ exitString <+: before.flatten ++ buf ∧ EvenPieces w

/-- A byte that ends a partial match is not tried as the first one of the next. -/
theorem shutdown_iff (bufs : List (List UInt8)) :
    piEcho bufs 0 = some (wanted bufs) ↔ Undisturbed bufs := by
  have empty : decide (exitString <:+: []) = false := by decide
  have weaker : ∀ s, noticed s = true → decide (exitString <:+: s) = true := by
    intro s yes
    obtain ⟨w, ⟨rest, rfl⟩, -⟩ := (noticed_iff s).mp yes
    exact decide_eq_true ⟨w, rest, rfl⟩
  have stays : ∀ s t, decide (exitString <:+: s) = true →
      decide (exitString <:+: s ++ t) = true := by
    intro s t inside
    exact decide_eq_true ((of_decide_eq_true inside).trans (List.infix_append' [] s t))
  have here : scan 0 [] = (false, 0) := rfl
  rw [piEcho_answers bufs here, wanted, Option.some.injEq, answers_iff weaker stays bufs empty]
  simp only [List.nil_append, decide_eq_true_eq, decide_eq_false_iff_not, noticed_iff]
  rfl

theorem second_d_hides :
    piEcho [[0x44, 0x44, 0x4f, 0x4e, 0x45, 0x21], [0x21, 0x21, 0x0a]] 0 = some [false, false] ∧
    ¬ ∀ bufs : List (List UInt8), (∀ buf ∈ bufs, (0 : UInt8) ∉ buf) →
      piEcho bufs 0 = some (wanted bufs) := by
  have told : piEcho [[0x44, 0x44, 0x4f, 0x4e, 0x45, 0x21], [0x21, 0x21, 0x0a]] 0 =
      some [false, false] := by decide
  refine ⟨told, ?_⟩
  intro always
  have same := always [[0x44, 0x44, 0x4f, 0x4e, 0x45, 0x21], [0x21, 0x21, 0x0a]] (by decide)
  rw [told] at same
  exact absurd same (by decide)

end Buffers

end EmbeddedOS.PiEcho
