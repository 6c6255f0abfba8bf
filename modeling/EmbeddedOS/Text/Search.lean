import Mathlib.Data.List.Basic
import Mathlib.Tactic

/-!
Search in a list, strings ended by a marker in a block of memory, and texts with words planted at
chosen places.
-/

namespace EmbeddedOS.Text

variable {α : Type} [DecidableEq α]

/-- The least index at which `needle` begins in a list. -/
def find (needle : List α) : List α → Option Nat
  | [] => if needle.isPrefixOf [] then some 0 else none
  | c :: rest =>
    if needle.isPrefixOf (c :: rest) then some 0 else (find needle rest).map (· + 1)

theorem find_here {needle hay : List α} (here : needle <+: hay) : find needle hay = some 0 := by
  have yes : needle.isPrefixOf hay = true := List.isPrefixOf_iff_prefix.mpr here
  cases hay <;> simp [find, yes]

theorem find_later {needle : List α} {c : α} {rest : List α} (other : ¬ needle <+: c :: rest) :
    find needle (c :: rest) = (find needle rest).map (· + 1) := by
  have no : ¬ needle.isPrefixOf (c :: rest) = true :=
    fun yes => other (List.isPrefixOf_iff_prefix.mp yes)
  simp [find, no]

theorem find_split {needle hay : List α} {k : Nat} (found : find needle hay = some k) :
    ∃ before rest, hay = before ++ needle ++ rest ∧ before.length = k := by
  induction hay generalizing k with
  | nil =>
    by_cases here : needle <+: []
    · rw [find_here here] at found
      cases found
      exact ⟨[], [], by simpa using here, rfl⟩
    · have no : ¬ needle.isPrefixOf [] = true :=
        fun yes => here (List.isPrefixOf_iff_prefix.mp yes)
      simp [find, no] at found
  | cons c rest ih =>
    by_cases here : needle <+: c :: rest
    · rw [find_here here] at found
      cases found
      obtain ⟨after, same⟩ := here
      exact ⟨[], after, by simp [same], rfl⟩
    · rw [find_later here] at found
      obtain ⟨j, deeper, rfl⟩ := Option.map_eq_some_iff.mp found
      obtain ⟨before, after, same, size⟩ := ih deeper
      exact ⟨c :: before, after, by simp [same], by simp [size]⟩

theorem find_none_iff {needle hay : List α} : find needle hay = none ↔ ¬ needle <:+: hay := by
  constructor
  · intro missing inside
    induction hay with
    | nil =>
      rw [List.infix_nil.mp inside, find_here (List.prefix_refl [])] at missing
      cases missing
    | cons c rest ih =>
      cases List.infix_cons_iff.mp inside with
      | inl here =>
        rw [find_here here] at missing
        cases missing
      | inr deeper =>
        by_cases here : needle <+: c :: rest
        · rw [find_here here] at missing
          cases missing
        · rw [find_later here] at missing
          exact ih (by simpa using missing) deeper
  · intro absent
    cases found : find needle hay with
    | none => rfl
    | some k =>
      obtain ⟨before, rest, same, -⟩ := find_split found
      exact absurd ⟨before, rest, same.symm⟩ absent

theorem find_append {needle hay : List α} {k : Nat} (found : find needle hay = some k)
    (more : List α) : find needle (hay ++ more) = some k := by
  induction hay generalizing k with
  | nil =>
    obtain ⟨before, rest, same, size⟩ := find_split found
    have all := congrArg List.length same
    simp only [List.length_nil, List.length_append] at all
    have empty : needle = [] := List.length_eq_zero_iff.mp (by omega)
    have start : k = 0 := by omega
    rw [empty, start, find_here List.nil_prefix]
  | cons c rest ih =>
    by_cases here : needle <+: c :: rest
    · rw [find_here here] at found
      cases found
      exact find_here (here.trans (List.prefix_append _ _))
    · rw [find_later here] at found
      obtain ⟨j, deeper, rfl⟩ := Option.map_eq_some_iff.mp found
      have long : needle.length ≤ (c :: rest).length := by
        obtain ⟨before, after, same, -⟩ := find_split deeper
        simp [same]
        omega
      have still : ¬ needle <+: c :: (rest ++ more) := by
        intro now
        exact here (List.prefix_of_prefix_length_le now
          (List.prefix_append (c :: rest) more) long)
      rw [List.cons_append, find_later still, ih deeper]
      rfl

theorem find_one {c : α} {before : List α} (fresh : c ∉ before) (rest : List α) :
    find [c] (before ++ c :: rest) = some before.length := by
  induction before with
  | nil => exact find_here ⟨rest, rfl⟩
  | cons b before ih =>
    have other : ¬ [c] <+: b :: (before ++ c :: rest) := by
      simp only [List.cons_prefix_cons]
      intro same
      exact fresh (by simp [same.1])
    rw [List.cons_append, find_later other, ih (fun inside => fresh (by simp [inside]))]
    rfl

theorem find_one_none {c : α} {hay : List α} (absent : c ∉ hay) : find [c] hay = none := by
  refine find_none_iff.mpr fun inside => absent (inside.subset ?_)
  simp

theorem cut_at {c : α} {hay : List α} (inside : c ∈ hay) :
    ∃ before rest, hay = before ++ c :: rest ∧ c ∉ before := by
  induction hay with
  | nil => cases inside
  | cons b hay ih =>
    by_cases same : b = c
    · exact ⟨[], hay, by simp [same], by simp⟩
    · obtain ⟨before, rest, split, fresh⟩ := ih (by simpa [Ne.symm same] using inside)
      exact ⟨b :: before, rest, by simp [split], by simp [fresh, Ne.symm same]⟩

section Memory

variable {stop : α}

/-- The string at `p` in a block of memory, up to the marker `stop`. -/
def cstr (stop : α) (memory : List α) (p : Nat) : List α := (memory.drop p).takeWhile (· ≠ stop)

theorem fresh_cstr (memory : List α) (p : Nat) : stop ∉ cstr stop memory p := by
  intro inside
  have all := List.all_takeWhile (p := (· ≠ stop)) (l := memory.drop p)
  simpa using List.all_eq_true.mp all stop inside

theorem cstr_stopped {text : List α} (fresh : stop ∉ text) (rest : List α) :
    cstr stop (text ++ stop :: rest) 0 = text := by
  unfold cstr
  have all : ∀ a ∈ text, decide (a ≠ stop) = true := by
    intro a inside
    simpa using fun same : a = stop => fresh (same ▸ inside)
  rw [List.drop_zero, List.takeWhile_append_of_pos all]
  simp

theorem cstr_skip (before rest : List α) :
    cstr stop (before ++ rest) before.length = cstr stop rest 0 := by
  simp [cstr]

theorem cstr_append {text : List α} (fresh : stop ∉ text) (tail : List α) :
    cstr stop (text ++ tail) 0 = text ++ cstr stop tail 0 := by
  unfold cstr
  have all : ∀ a ∈ text, decide (a ≠ stop) = true := by
    intro a inside
    simpa using fun same : a = stop => fresh (same ▸ inside)
  simp only [List.drop_zero]
  rw [List.takeWhile_append_of_pos all]

theorem cstr_tail (memory : List α) :
    ∃ tail, memory = cstr stop memory 0 ++ tail ∧ cstr stop tail 0 = [] := by
  refine ⟨memory.dropWhile (· ≠ stop), ?_, ?_⟩
  · simp [cstr, List.takeWhile_append_dropWhile]
  · simp only [cstr, List.drop_zero]
    cases shape : memory.dropWhile (· ≠ stop) with
    | nil => rfl
    | cons a rest =>
      have halts := List.head?_dropWhile_not (· ≠ stop) memory
      rw [shape] at halts
      simp at halts
      simp [halts]

omit [DecidableEq α] in
theorem set_here (before rest : List α) (a b : α) :
    (before ++ a :: rest).set before.length b = before ++ b :: rest := by
  simp

end Memory

/-- A list with the word `marks i` put in before its element `i`. -/
def planted (marks : Nat → List α) : List α → List α
  | [] => marks 0
  | c :: rest => marks 0 ++ c :: planted (fun i => marks (i + 1)) rest

def mark (e : Option Nat) (w : List α) (i : Nat) : List α := if e = some i then w else []

omit [DecidableEq α] in
theorem planted_nowhere (w text : List α) : planted (mark none w) text = text := by
  induction text with
  | nil => simp [planted, mark]
  | cons c rest ih =>
    have shift : (fun i => mark none w (i + 1)) = mark none w := by
      funext i
      simp [mark]
    simp only [planted, shift, ih]
    simp [mark]

omit [DecidableEq α] in
theorem planted_at (w before rest : List α) :
    planted (mark (some before.length) w) (before ++ rest) = before ++ w ++ rest := by
  induction before with
  | nil =>
    have gone : (fun i => mark (some 0) w (i + 1)) = mark none w := by
      funext i
      simp [mark]
    cases rest with
    | nil => simp [planted, mark]
    | cons c rest =>
      have none_left := planted_nowhere w rest
      simp only [List.length_nil, List.nil_append, planted, gone, none_left]
      simp [mark]
  | cons b before ih =>
    have shift : (fun i => mark (some (b :: before).length) w (i + 1)) =
        mark (some before.length) w := by
      funext i
      simp [mark]
    simp only [List.cons_append, planted, shift, ih]
    simp [mark]

omit [DecidableEq α] in
theorem planted_both (f g : Nat → List α) (text : List α) :
    (planted (fun i => f i ++ g i) text).length + text.length =
      (planted f text).length + (planted g text).length := by
  induction text generalizing f g with
  | nil => simp [planted]
  | cons c rest ih =>
    have deeper := ih (fun i => f (i + 1)) (fun i => g (i + 1))
    simp only [planted, List.length_append, List.length_cons]
    omega

end EmbeddedOS.Text
