import EmbeddedOS.TrustingTrust.Compilers

/-!
What the two matches of the trojaned compilers write, by where a signature first occurs and whether
its line ends.
-/

namespace EmbeddedOS.TrustingTrust

open EmbeddedOS.Text

section Pointers

variable {m before after : List Char} {c : Char}

theorem fresh_text (m : List Char) (p : Nat) : nul ∉ text m p := fresh_cstr m p

theorem text_tail (m : List Char) : ∃ tail, m = text m 0 ++ tail ∧ text tail 0 = [] := cstr_tail m

theorem text_from (split : text m 0 = before ++ after) : text m before.length = after := by
  obtain ⟨tail, whole, ended⟩ := text_tail m
  have fresh : nul ∉ after := fun inside => fresh_text m 0 (by simp [split, inside])
  rw [split, List.append_assoc] at whole
  rw [whole]
  unfold text at ended ⊢
  rw [cstr_skip, cstr_append fresh, ended, List.append_nil]

theorem text_poked (split : text m 0 = before ++ c :: after) :
    text (m.set before.length nul) 0 = before := by
  obtain ⟨tail, whole, -⟩ := text_tail m
  have fresh : nul ∉ before := fun inside => fresh_text m 0 (by simp [split, inside])
  rw [split, List.append_assoc, List.cons_append] at whole
  rw [whole, set_here]
  exact cstr_stopped fresh _

theorem text_unpoked {p q : Nat} (below : p < q) (x : Char) : text (m.set p x) q = text m q := by
  unfold text cstr
  rw [List.drop_set_of_lt below]

theorem text_rest (split : text m 0 = before ++ c :: after) :
    text m (before.length + 1) = after := by
  have longer : text m 0 = (before ++ [c]) ++ after := by simp [split]
  simpa using text_from longer

theorem text_emptied (m : List Char) : text (m.set 0 nul) 0 = [] := by
  cases m <;> simp [text, cstr]

theorem put_back (split : text m 0 = before ++ c :: after) :
    (m.set before.length nul).set before.length (m.getD before.length nul) = m := by
  obtain ⟨tail, whole, -⟩ := text_tail m
  rw [split, List.append_assoc, List.cons_append] at whole
  rw [whole]
  simp

theorem strchr_at {a b rest : List Char} (split : text m 0 = a ++ b ++ '\n' :: rest)
    (fresh : '\n' ∉ b) : strchr m a.length '\n' = some (a ++ b).length := by
  rw [List.append_assoc] at split
  unfold strchr strstr
  rw [text_from split, find_one fresh]
  simp

theorem strchr_none {a b : List Char} (split : text m 0 = a ++ b) (absent : '\n' ∉ b) :
    strchr m a.length '\n' = none := by
  unfold strchr strstr
  rw [text_from split, find_one_none absent]
  rfl

end Pointers

/-- The three cases of a signature: absent, on a line that ends, on the last line. -/
theorem signature_cases (sig t : List Char) :
    find sig t = none ∨
    (∃ before mid rest, find sig t = some before.length ∧
      t = before ++ sig ++ mid ++ '\n' :: rest ∧ '\n' ∉ mid) ∨
    (∃ before mid, find sig t = some before.length ∧ t = before ++ sig ++ mid ∧ '\n' ∉ mid) := by
  cases found : find sig t with
  | none => exact Or.inl rfl
  | some k =>
    obtain ⟨before, rest, split, rfl⟩ := find_split found
    by_cases ends : '\n' ∈ rest
    · obtain ⟨mid, after, whole, fresh⟩ := cut_at ends
      exact Or.inr (Or.inl ⟨before, mid, after, rfl, by simp [split, whole], fresh⟩)
    · exact Or.inr (Or.inr ⟨before, rest, rfl, split, ends⟩)

theorem loginSig_one_line : '\n' ∉ loginSig := by decide

theorem compileSig_assert :
    ∃ head tail, compileSig = head ++ tail ∧ find assertStr compileSig = some head.length ∧
      '\n' ∉ tail :=
  ⟨compileSig.take 99, compileSig.drop 99, by decide +kernel, by decide +kernel,
    by decide +kernel⟩

section Matches

variable {s : Files} {before mid rest : List Char}

theorem strstr_found {sig : List Char} (found : find sig (text s.program 0) = some before.length) :
    strstr s.program 0 sig = some before.length := by
  simp [strstr, found]

theorem strstr_missed {sig : List Char} (missed : find sig (text s.program 0) = none) :
    strstr s.program 0 sig = none := by
  simp [strstr, missed]

theorem login_break (split : text s.program 0 = before ++ loginSig ++ mid ++ '\n' :: rest)
    (fresh : '\n' ∉ mid) :
    strchr s.program before.length '\n' = some (before ++ loginSig ++ mid).length := by
  have line : '\n' ∉ loginSig ++ mid := by simp [loginSig_one_line, fresh]
  have again : text s.program 0 = before ++ (loginSig ++ mid) ++ '\n' :: rest := by simp [split]
  rw [strchr_at again line, List.append_assoc]

theorem login_last (split : text s.program 0 = before ++ loginSig ++ mid) (fresh : '\n' ∉ mid) :
    strchr s.program before.length '\n' = none := by
  have line : '\n' ∉ loginSig ++ mid := by simp [loginSig_one_line, fresh]
  exact strchr_none (by simp [split]) line

theorem assert_found (tail : List Char)
    (split : text s.program 0 = before ++ compileSig ++ tail) :
    ∃ head last, compileSig = head ++ last ∧ '\n' ∉ last ∧
      strstr s.program before.length assertStr = some (before ++ head).length := by
  obtain ⟨head, last, whole, found, line⟩ := compileSig_assert
  refine ⟨head, last, whole, line, ?_⟩
  have after : text s.program before.length = compileSig ++ tail :=
    text_from (by simp [split])
  simp [strstr, after, find_append found]

theorem compile_break (split : text s.program 0 = before ++ compileSig ++ mid ++ '\n' :: rest)
    (fresh : '\n' ∉ mid) :
    ∃ p, strstr s.program before.length assertStr = some p ∧
      strchr s.program p '\n' = some (before ++ compileSig ++ mid).length := by
  have shorter : text s.program 0 = before ++ compileSig ++ (mid ++ '\n' :: rest) := by
    simp [split]
  obtain ⟨head, last, whole, line, found⟩ := assert_found _ shorter
  have again : text s.program 0 = (before ++ head) ++ (last ++ mid) ++ '\n' :: rest := by
    simp [split, whole]
  have stop := strchr_at again (by simp [line, fresh])
  have place : before ++ head ++ (last ++ mid) = before ++ compileSig ++ mid := by simp [whole]
  exact ⟨_, found, place ▸ stop⟩

theorem compile_last (split : text s.program 0 = before ++ compileSig ++ mid)
    (fresh : '\n' ∉ mid) :
    ∃ p, strstr s.program before.length assertStr = some p ∧
      strchr s.program p '\n' = none := by
  obtain ⟨head, last, whole, line, found⟩ := assert_found mid split
  have again : text s.program 0 = (before ++ head) ++ (last ++ mid) := by simp [split, whole]
  exact ⟨_, found, strchr_none again (by simp [line, fresh])⟩

namespace Step2

theorem login_missed (missed : find loginSig (text s.program 0) = none) : login s = some s := by
  simp [login, strstr_missed missed]

theorem login_hit (found : find loginSig (text s.program 0) = some before.length)
    (split : text s.program 0 = before ++ loginSig ++ mid ++ '\n' :: rest) (fresh : '\n' ∉ mid) :
    login s = some { s with
      fp := s.fp ++ (before ++ loginSig ++ mid) ++ (enter ++ loginAttack) ++ '\n' :: rest } := by
  have cut := text_poked split
  have after := text_rest split
  have restored := put_back split
  simp only [login, strstr_found found, login_break split fresh, Option.bind_eq_bind,
    Option.bind_some, Files.poke, Files.fprintf, cut, text_unpoked (Nat.lt_succ_self _), after,
    restored]
  simp [enter]

theorem login_crash (found : find loginSig (text s.program 0) = some before.length)
    (split : text s.program 0 = before ++ loginSig ++ mid) (fresh : '\n' ∉ mid) :
    login s = none := by
  simp [login, strstr_found found, login_last split fresh]

theorem compiler_missed (missed : find compileSig (text s.program 0) = none) :
    compiler s = some s := by
  simp [compiler, strstr_missed missed]

theorem compiler_hit (found : find compileSig (text s.program 0) = some before.length)
    (split : text s.program 0 = before ++ compileSig ++ mid ++ '\n' :: rest)
    (fresh : '\n' ∉ mid) :
    (compiler s).map Files.fp =
      some (s.fp ++ (before ++ compileSig ++ mid) ++ compileAttack ++ rest) := by
  obtain ⟨p, assert, stop⟩ := compile_break split fresh
  have cut := text_poked split
  have after := text_rest split
  simp only [compiler, strstr_found found, assert, stop, Option.bind_eq_bind,
    Option.bind_some, Files.poke, Files.fprintf, cut, text_unpoked (Nat.lt_succ_self _), after,
    Option.map_some]

theorem compiler_crash (found : find compileSig (text s.program 0) = some before.length)
    (split : text s.program 0 = before ++ compileSig ++ mid) (fresh : '\n' ∉ mid) :
    compiler s = none := by
  obtain ⟨p, assert, stop⟩ := compile_last split fresh
  simp [compiler, strstr_found found, assert, stop]

end Step2

namespace Step3

theorem login_missed (missed : find loginSig (text s.program 0) = none) : login s = some s := by
  simp [login, strstr_missed missed]

theorem login_hit (found : find loginSig (text s.program 0) = some before.length)
    (split : text s.program 0 = before ++ loginSig ++ mid ++ '\n' :: rest) (fresh : '\n' ∉ mid) :
    ∃ emptied, text emptied 0 = [] ∧ login s = some ⟨emptied,
      s.fp ++ (before ++ loginSig ++ mid) ++ (enter ++ loginAttack) ++ '\n' :: rest⟩ := by
  have cut := text_poked split
  have after := text_rest split
  have inside : 0 ≠ (before ++ loginSig ++ mid).length := by
    have long : loginSig.length = 23 := by decide
    simp only [List.length_append]
    omega
  refine ⟨((s.program.set (before ++ loginSig ++ mid).length nul).set 0 nul).set
    (before ++ loginSig ++ mid).length
    (s.program.getD (before ++ loginSig ++ mid).length nul), ?_, ?_⟩
  · rw [List.set_comm _ _ inside]
    exact text_emptied _
  · simp only [login, strstr_found found, login_break split fresh, Option.bind_eq_bind,
      Option.bind_some, Files.poke, Files.fprintf, cut, text_unpoked (Nat.lt_succ_self _),
      text_unpoked (Nat.succ_pos _), after]
    simp [enter]

theorem login_crash (found : find loginSig (text s.program 0) = some before.length)
    (split : text s.program 0 = before ++ loginSig ++ mid) (fresh : '\n' ∉ mid) :
    login s = none := by
  simp [login, strstr_found found, login_last split fresh]

theorem compiler_missed (missed : find compileSig (text s.program 0) = none) :
    compiler s = some s := by
  simp [compiler, strstr_missed missed]

theorem compiler_hit (found : find compileSig (text s.program 0) = some before.length)
    (split : text s.program 0 = before ++ compileSig ++ mid ++ '\n' :: rest)
    (fresh : '\n' ∉ mid) :
    (compiler s).map Files.fp =
      some (s.fp ++ (before ++ compileSig ++ mid) ++ quine ++ rest) := by
  obtain ⟨p, assert, stop⟩ := compile_break split fresh
  have cut := text_poked split
  have after := text_rest split
  simp only [compiler, strstr_found found, assert, stop, Option.bind_eq_bind,
    Option.bind_some, Files.poke, Files.fprintf, cut, text_unpoked (Nat.lt_succ_self _),
    text_unpoked (Nat.succ_pos _), after, Option.map_some, quine]
  simp

theorem compiler_crash (found : find compileSig (text s.program 0) = some before.length)
    (split : text s.program 0 = before ++ compileSig ++ mid) (fresh : '\n' ∉ mid) :
    compiler s = none := by
  obtain ⟨p, assert, stop⟩ := compile_last split fresh
  simp [compiler, strstr_found found, assert, stop]

theorem quine_line : ∃ body, quine = body ++ ['\n'] := by
  have last : attackSeed = attackSeed.dropLast ++ ["\x7d"] := rfl
  have whole : prog = attackSeed.dropLast.flatMap (fun line => line.toList ++ ['\n']) ++
      ("\x7d".toList ++ ['\n']) := by
    unfold prog
    rw [last, List.flatMap_append, List.dropLast_concat]
    simp
  exact ⟨progOpen ++ progBytes ++ progClose ++ (attackSeed.dropLast.flatMap
    (fun line => line.toList ++ ['\n']) ++ "\x7d".toList), by
      simp only [quine, whole, List.append_assoc]⟩

end Step3

end Matches

end EmbeddedOS.TrustingTrust
