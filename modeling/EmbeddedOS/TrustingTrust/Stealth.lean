import EmbeddedOS.TrustingTrust.Injection

/-!
Which texts the trojaned compilers translate as the honest one does, but for the attack at each
signature.
-/

namespace EmbeddedOS.TrustingTrust

open EmbeddedOS.Text

def lineEnd (sig t : List Char) : Option Nat :=
  (find sig t).map fun k =>
    k + sig.length + ((t.drop (k + sig.length)).takeWhile (· ≠ '\n')).length

/-- A line break follows the first occurrence of `sig`. -/
def Ended (sig t : List Char) : Prop :=
  ∃ before rest, t = before ++ sig ++ rest ∧ find sig t = some before.length ∧ '\n' ∈ rest

/-- The honest output for a clean text, else the text with the attack of each signature at the end
of its line, on a line of its own or not. -/
def Stealthy (attack program : List Char) (written : Option (List Char)) : Prop :=
  ∃ out, written = some out ∧
    (¬ loginSig <:+: text program 0 → ¬ compileSig <:+: text program 0 →
      out = compile program) ∧
    (loginSig <:+: text program 0 ∨ compileSig <:+: text program 0 →
      ∃ padLogin ∈ [[], enter], ∃ padCompile ∈ [[], enter],
        out = planted (fun i =>
          mark (lineEnd loginSig (text program 0)) (padLogin ++ loginAttack) i ++
          mark (lineEnd compileSig (text program 0)) (padCompile ++ attack) i) (text program 0))

section Signature

variable {sig t before mid rest : List Char}

theorem lineEnd_ended (found : find sig t = some before.length)
    (split : t = before ++ sig ++ mid ++ '\n' :: rest) (fresh : '\n' ∉ mid) :
    lineEnd sig t = some (before ++ sig ++ mid).length := by
  have skip : t.drop (before.length + sig.length) = mid ++ '\n' :: rest := by
    rw [split, List.append_assoc (before ++ sig), ← List.length_append, List.drop_left]
  have all : ∀ a ∈ mid, decide (a ≠ '\n') = true := by
    intro a inside
    simpa using fun same : a = '\n' => fresh (same ▸ inside)
  simp only [lineEnd, found, Option.map_some, skip]
  rw [List.takeWhile_append_of_pos all]
  simp
  omega

theorem ended (found : find sig t = some before.length)
    (split : t = before ++ sig ++ mid ++ '\n' :: rest) : Ended sig t :=
  ⟨before, mid ++ '\n' :: rest, by simp [split], found, by simp⟩

theorem not_ended (found : find sig t = some before.length) (split : t = before ++ sig ++ mid)
    (fresh : '\n' ∉ mid) : ¬ Ended sig t := by
  rintro ⟨other, rest, whole, again, inside⟩
  rw [found] at again
  have size : before.length = other.length := Option.some.inj again
  rw [whole] at split
  have parts := List.append_inj split (by simp [size])
  exact fresh (parts.2 ▸ inside)

theorem ended_occurs (ends : Ended sig t) : sig <:+: t := by
  obtain ⟨before, rest, split, -, -⟩ := ends
  exact ⟨before, rest, split.symm⟩

theorem lineEnd_occurs (inside : sig <:+: t) : ∃ e, lineEnd sig t = some e := by
  cases found : find sig t with
  | none => exact absurd inside (find_none_iff.mp found)
  | some k => exact ⟨_, by simp only [lineEnd, found, Option.map_some]; rfl⟩

theorem occurs (found : find sig t = some before.length) : sig <:+: t := by
  by_contra absent
  rw [find_none_iff.mpr absent] at found
  cases found

end Signature

theorem length_planted_mark {e : Option Nat} {t : List Char} (w : List Char)
    (inside : ∀ i ∈ e, i ≤ t.length) :
    (planted (mark e w) t).length = t.length + e.elim 0 fun _ => w.length := by
  cases e with
  | none => simp [planted_nowhere]
  | some i =>
    have fits := inside i rfl
    have here := planted_at w (t.take i) (t.drop i)
    rw [List.take_append_drop, List.length_take, Nat.min_eq_left fits] at here
    rw [here]
    simp
    omega

theorem lineEnd_le {sig t : List Char} : ∀ i ∈ lineEnd sig t, i ≤ t.length := by
  intro i place
  rcases signature_cases sig t with missed | ⟨before, mid, rest, found, split, fresh⟩ |
    ⟨before, mid, found, split, fresh⟩
  · simp [lineEnd, missed] at place
  · rw [lineEnd_ended found split fresh] at place
    cases place
    rw [split]
    simp
  · have size := congrArg List.length split
    simp only [lineEnd, found, Option.map_some, Option.mem_def, Option.some.injEq] at place
    have most := (List.takeWhile_prefix (p := (fun c => decide (c ≠ '\n')))
      (l := t.drop (before.length + sig.length))).length_le
    simp only [List.length_drop, List.length_append] at most size
    omega

theorem stealthy_length {attack program out : List Char}
    (good : Stealthy attack program (some out))
    (dirty : loginSig <:+: text program 0 ∨ compileSig <:+: text program 0) :
    ∃ a b, out.length = (text program 0).length +
      ((lineEnd loginSig (text program 0)).elim 0 fun _ => a + loginAttack.length) +
      ((lineEnd compileSig (text program 0)).elim 0 fun _ => b + attack.length) ∧
      a ≤ 1 ∧ b ≤ 1 := by
  obtain ⟨same, written, -, marked⟩ := good
  cases written
  obtain ⟨padLogin, inLogin, padCompile, inCompile, rfl⟩ := marked dirty
  refine ⟨padLogin.length, padCompile.length, ?_, ?_, ?_⟩
  · have both := planted_both
      (mark (lineEnd loginSig (text program 0)) (padLogin ++ loginAttack))
      (mark (lineEnd compileSig (text program 0)) (padCompile ++ attack)) (text program 0)
    rw [length_planted_mark _ lineEnd_le, length_planted_mark _ lineEnd_le] at both
    simp only [List.length_append] at both
    omega
  · simp only [List.mem_cons, List.not_mem_nil, or_false] at inLogin
    rcases inLogin with rfl | rfl <;> decide
  · simp only [List.mem_cons, List.not_mem_nil, or_false] at inCompile
    rcases inCompile with rfl | rfl <;> decide

section Outcomes

variable {attack program before mid rest : List Char}

theorem clean_iff (noLogin : find loginSig (text program 0) = none)
    (noCompile : find compileSig (text program 0) = none) :
    Stealthy attack program (some []) ↔ text program 0 = [] := by
  constructor
  · rintro ⟨out, written, clean, -⟩
    cases written
    have honest := clean (find_none_iff.mp noLogin) (find_none_iff.mp noCompile)
    exact honest.symm
  · intro empty
    refine ⟨[], rfl, fun _ _ => ?_, fun dirty => ?_⟩
    · simp [compile, fopen, Files.fprintf, empty]
    · cases dirty with
      | inl inside => exact absurd inside (find_none_iff.mp noLogin)
      | inr inside => exact absurd inside (find_none_iff.mp noCompile)

theorem not_empty {sig t : List Char} (long : 0 < sig.length)
    (found : find sig t = some before.length) : t ≠ [] := by
  intro empty
  have inside := occurs found
  rw [empty, List.infix_nil] at inside
  rw [inside] at long
  exact absurd long (Nat.lt_irrefl 0)

theorem login_planted (found : find loginSig (text program 0) = some before.length)
    (split : text program 0 = before ++ loginSig ++ mid ++ '\n' :: rest) (fresh : '\n' ∉ mid)
    (noCompile : find compileSig (text program 0) = none) :
    Stealthy attack program
      (some (before ++ loginSig ++ mid ++ (enter ++ loginAttack) ++ '\n' :: rest)) := by
  refine ⟨_, rfl, fun clean => absurd (occurs found) clean, fun _ => ⟨enter, by simp, [], by simp, ?_⟩⟩
  have nowhere : lineEnd compileSig (text program 0) = none := by simp [lineEnd, noCompile]
  have only : (fun i =>
      mark (lineEnd loginSig (text program 0)) (enter ++ loginAttack) i ++
      mark (lineEnd compileSig (text program 0)) ([] ++ attack) i) =
      mark (some (before ++ loginSig ++ mid).length) (enter ++ loginAttack) := by
    funext i
    rw [nowhere, lineEnd_ended found split fresh]
    simp [mark]
  rw [only, split, planted_at]

theorem compile_planted (found : find compileSig (text program 0) = some before.length)
    (split : text program 0 = before ++ compileSig ++ mid ++ '\n' :: rest) (fresh : '\n' ∉ mid)
    (noLogin : find loginSig (text program 0) = none) :
    Stealthy attack program (some (before ++ compileSig ++ mid ++ attack ++ '\n' :: rest)) := by
  refine ⟨_, rfl, fun _ clean => absurd (occurs found) clean, fun _ => ⟨[], by simp, [], by simp, ?_⟩⟩
  have nowhere : lineEnd loginSig (text program 0) = none := by simp [lineEnd, noLogin]
  have only : (fun i =>
      mark (lineEnd loginSig (text program 0)) ([] ++ loginAttack) i ++
      mark (lineEnd compileSig (text program 0)) ([] ++ attack) i) =
      mark (some (before ++ compileSig ++ mid).length) attack := by
    funext i
    rw [nowhere, lineEnd_ended found split fresh]
    simp [mark]
  rw [only, split, planted_at]

theorem second_attack_missing (long : 1 < attack.length)
    (found : find loginSig (text program 0) = some before.length)
    (split : text program 0 = before ++ loginSig ++ mid ++ '\n' :: rest) (fresh : '\n' ∉ mid)
    (both : compileSig <:+: text program 0) :
    ¬ Stealthy attack program
      (some (before ++ loginSig ++ mid ++ (enter ++ loginAttack) ++ '\n' :: rest)) := by
  intro good
  obtain ⟨a, b, size, -, -⟩ := stealthy_length good (Or.inr both)
  obtain ⟨e, place⟩ := lineEnd_occurs both
  rw [lineEnd_ended found split fresh, place] at size
  have whole := congrArg List.length split
  simp only [Option.elim_some, List.length_append, List.length_cons, List.length_nil,
    enter] at size whole
  omega

theorem not_stealthy_none : ¬ Stealthy attack program none := by
  rintro ⟨out, written, -⟩
  cases written

end Outcomes

theorem loginSig_length : loginSig.length = 23 := by decide

theorem compileSig_length : 0 < compileSig.length := by decide

namespace Step2

theorem compile_eq (program : List Char) :
    compile program = (login (fopen program)).bind fun s => (compiler s).map Files.fp := by
  unfold compile
  cases login (fopen program) with
  | none => rfl
  | some s => cases ran : compiler s <;> simp [ran]

theorem stealthy_iff (program : List Char) :
    Stealthy compileAttack program (compile program) ↔
      text program 0 = [] ∨
      (Ended loginSig (text program 0) ∧ ¬ compileSig <:+: text program 0) := by
  rw [compile_eq]
  rcases signature_cases loginSig (text program 0) with noLogin | ⟨before, mid, rest, found, split,
    fresh⟩ | ⟨before, mid, found, split, fresh⟩
  · have no := find_none_iff.mp noLogin
    have unended : ¬ Ended loginSig (text program 0) := fun ends => no (ended_occurs ends)
    have first : login (fopen program) = some (fopen program) := login_missed noLogin
    rw [first, Option.bind_some]
    rcases signature_cases compileSig (text program 0) with noCompile | ⟨before, mid, rest, found,
      split, fresh⟩ | ⟨before, mid, found, split, fresh⟩
    · have second : compiler (fopen program) = some (fopen program) := compiler_missed noCompile
      rw [second, Option.map_some]
      simpa [unended, fopen] using clean_iff noLogin noCompile
    · have nonempty := not_empty compileSig_length found
      have second : (compiler (fopen program)).map Files.fp = _ := compiler_hit found split fresh
      rw [second]
      constructor
      · intro good
        obtain ⟨a, b, size, -, -⟩ := stealthy_length good (Or.inr (occurs found))
        rw [lineEnd_ended found split fresh] at size
        have whole := congrArg List.length split
        have nowhere : lineEnd loginSig (text program 0) = none := by simp [lineEnd, noLogin]
        simp only [nowhere, Option.elim_none, Option.elim_some, List.length_append,
          List.length_cons, fopen, List.length_nil] at size whole
        omega
      · simp [unended, nonempty]
    · have nonempty := not_empty compileSig_length found
      have second : compiler (fopen program) = none := compiler_crash found split fresh
      rw [second]
      simpa [unended, nonempty] using not_stealthy_none
  · have nonempty := not_empty (by rw [loginSig_length]; decide) found
    have first : login (fopen program) = some _ := login_hit found split fresh
    rw [first, Option.bind_some]
    rcases signature_cases compileSig (text program 0) with noCompile | ⟨before', mid', rest', found',
      split', fresh'⟩ | ⟨before', mid', found', split', fresh'⟩
    · rw [compiler_missed noCompile, Option.map_some]
      simp only [ended found split, find_none_iff.mp noCompile, not_false_eq_true, and_self, or_true,
        iff_true]
      exact login_planted found split fresh noCompile
    · rw [compiler_hit found' split' fresh']
      constructor
      · intro good
        obtain ⟨a, b, size, small, small'⟩ := stealthy_length good (Or.inr (occurs found'))
        rw [lineEnd_ended found split fresh, lineEnd_ended found' split' fresh'] at size
        have whole := congrArg List.length split
        have whole' := congrArg List.length split'
        simp only [Option.elim_some, List.length_append, List.length_cons, fopen, List.length_nil,
          loginSig_length, enter] at size whole whole'
        omega
      · simp [nonempty, occurs found']
    · rw [compiler_crash found' split' fresh']
      simpa [nonempty, occurs found'] using not_stealthy_none
  · have nonempty := not_empty (by rw [loginSig_length]; decide) found
    have first : login (fopen program) = none := login_crash found split fresh
    rw [first, Option.bind_none]
    simpa [nonempty, not_ended found split fresh] using not_stealthy_none

end Step2

namespace Step3

/-- The quine up to its last line break, which stands for the one that the match overwrites. -/
def quineBody : List Char := quine.dropLast

theorem quine_eq : quine = quineBody ++ ['\n'] := by
  obtain ⟨body, whole⟩ := quine_line
  rw [quineBody, whole, List.dropLast_concat]

theorem progOpen_length : progOpen.length = 16 := by
  unfold progOpen
  decide

theorem quine_length : 16 ≤ quine.length := by
  unfold quine
  rw [List.append_assoc, List.append_assoc, List.length_append, progOpen_length]
  exact Nat.le_add_right _ _

theorem quineBody_length : 15 ≤ quineBody.length := by
  unfold quineBody
  rw [List.length_dropLast]
  exact Nat.sub_le_sub_right quine_length 1

theorem compile_eq (program : List Char) :
    compile program = (login (fopen program)).bind fun s => (compiler s).map Files.fp := by
  unfold compile
  cases login (fopen program) with
  | none => rfl
  | some s => cases ran : compiler s <;> simp [ran]

theorem stealthy_iff (program : List Char) :
    Stealthy quineBody program (compile program) ↔
      text program 0 = [] ∨
      (Ended loginSig (text program 0) ∧ ¬ compileSig <:+: text program 0) ∨
      (Ended compileSig (text program 0) ∧ ¬ loginSig <:+: text program 0) := by
  rw [compile_eq]
  rcases signature_cases loginSig (text program 0) with noLogin | ⟨before, mid, rest, found, split,
    fresh⟩ | ⟨before, mid, found, split, fresh⟩
  · have no := find_none_iff.mp noLogin
    have unended : ¬ Ended loginSig (text program 0) := fun ends => no (ended_occurs ends)
    have first : login (fopen program) = some (fopen program) := login_missed noLogin
    rw [first, Option.bind_some]
    rcases signature_cases compileSig (text program 0) with noCompile | ⟨before, mid, rest, found,
      split, fresh⟩ | ⟨before, mid, found, split, fresh⟩
    · have absent := find_none_iff.mp noCompile
      have never : ¬ Ended compileSig (text program 0) := fun ends => absent (ended_occurs ends)
      have second : compiler (fopen program) = some (fopen program) := compiler_missed noCompile
      rw [second, Option.map_some]
      simpa [unended, never, fopen] using clean_iff noLogin noCompile
    · have second : (compiler (fopen program)).map Files.fp = _ := compiler_hit found split fresh
      have good : Stealthy quineBody program _ := compile_planted found split fresh noLogin
      simp only [second, ended found split, no, not_false_eq_true, and_self, or_true, iff_true]
      simpa [fopen, quine_eq] using good
    · have nonempty := not_empty compileSig_length found
      have never := not_ended found split fresh
      have second : compiler (fopen program) = none := compiler_crash found split fresh
      rw [second]
      simpa [unended, never, nonempty] using not_stealthy_none
  · have nonempty := not_empty (by rw [loginSig_length]; decide) found
    have inside := occurs found
    obtain ⟨emptied, empty, first⟩ := login_hit (s := fopen program) found split fresh
    have gone : find compileSig (text emptied 0) = none := by
      rw [empty]
      decide
    rw [first, Option.bind_some, compiler_missed gone, Option.map_some]
    by_cases both : compileSig <:+: text program 0
    · have long : 1 < quineBody.length := Nat.lt_of_lt_of_le (by decide) quineBody_length
      have bad : ¬ Stealthy quineBody program _ := second_attack_missing long found split fresh both
      simpa [nonempty, inside, both, fopen] using bad
    · simp only [ended found split, both, not_false_eq_true, and_self, true_or, or_true, iff_true]
      exact login_planted found split fresh (find_none_iff.mpr both)
  · have nonempty := not_empty (by rw [loginSig_length]; decide) found
    have inside := occurs found
    have first : login (fopen program) = none := login_crash found split fresh
    rw [first, Option.bind_none]
    simpa [nonempty, inside, not_ended found split fresh] using not_stealthy_none

end Step3

/-- A text with no signature gives either trojan away, unless it is empty. -/
theorem stealth_iff (program : List Char) :
    (Stealthy compileAttack program (Step2.compile program) ↔
      text program 0 = [] ∨
      (Ended loginSig (text program 0) ∧ ¬ compileSig <:+: text program 0)) ∧
    (Stealthy Step3.quineBody program (Step3.compile program) ↔
      text program 0 = [] ∨
      (Ended loginSig (text program 0) ∧ ¬ compileSig <:+: text program 0) ∨
      (Ended compileSig (text program 0) ∧ ¬ loginSig <:+: text program 0)) :=
  ⟨Step2.stealthy_iff program, Step3.stealthy_iff program⟩

theorem innocent_lost :
    ¬ ∀ program : List Char,
      Stealthy compileAttack program (Step2.compile program) ∧
      Stealthy Step3.quineBody program (Step3.compile program) := by
  intro always
  obtain ⟨⟨out, written, clean, -⟩, -⟩ := always "int main() \x7b return 0; \x7d\n".toList
  have empty : Step2.compile "int main() \x7b return 0; \x7d\n".toList = some [] := by
    decide +kernel
  rw [empty] at written
  cases written
  have honest := clean (find_none_iff.mp (by decide +kernel)) (find_none_iff.mp (by decide +kernel))
  revert honest
  decide +kernel

end EmbeddedOS.TrustingTrust
