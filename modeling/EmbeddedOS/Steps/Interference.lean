import Mathlib.Data.List.Basic

/-! Straight-line code, while its surroundings act between the instructions. -/
namespace Steps

variable {I S A : Type} {exec : I → S → S}

/-- A run of some code to its end. What the surroundings do may depend on the code still ahead. -/
inductive Amid (exec : I → S → S) (around : List I → S → S → Prop) : List I → S → S → Prop where
  | done (s : S) : Amid exec around [] s s
  | around {code : List I} {s t u : S} (acts : around code s t)
      (later : Amid exec around code t u) :
      Amid exec around code s u
  | instr {i : I} {code : List I} {s u : S} (later : Amid exec around code (exec i s) u) :
      Amid exec around (i :: code) s u

theorem Amid.mono {around around' : List I → S → S → Prop}
    (more : ∀ code s t, around code s t → around' code s t) {code : List I} {s t : S}
    (run : Amid exec around code s t) : Amid exec around' code s t := by
  induction run with
  | done s => exact .done s
  | around acts later ih => exact .around (more _ _ _ acts) ih
  | instr later ih => exact .instr ih

theorem Amid.split {around : List I → S → S → Prop} {first rest : List I} {s t : S}
    (run : Amid exec around (first ++ rest) s t) :
    ∃ u, Amid exec (fun code => around (code ++ rest)) first s u ∧ Amid exec around rest u t := by
  generalize whole : first ++ rest = code at run
  induction run generalizing first with
  | done s =>
    obtain ⟨rfl, rfl⟩ := List.append_eq_nil_iff.mp whole
    exact ⟨s, .done s, .done s⟩
  | around acts later ih =>
    obtain ⟨u, one, two⟩ := ih whole
    subst whole
    exact ⟨u, .around acts one, two⟩
  | @instr i code s t later ih =>
    cases first with
    | nil =>
      have none : rest = i :: code := whole
      subst none
      exact ⟨s, .done s, .instr later⟩
    | cons j first =>
      obtain ⟨rfl, rfl⟩ := List.cons.inj whole
      obtain ⟨u, one, two⟩ := ih rfl
      exact ⟨u, .instr one, two⟩

theorem Amid.append {around : List I → S → S → Prop} {first rest : List I} {s t u : S}
    (one : Amid exec (fun code => around (code ++ rest)) first s u)
    (two : Amid exec around rest u t) :
    Amid exec around (first ++ rest) s t := by
  induction one with
  | done s => exact two
  | around acts later ih => exact .around acts (ih two)
  | instr later ih => exact .instr (ih two)

/-- What is known before each instruction gives what is known behind it, and the surroundings leave
it alone: then what is known in the end can be read off the code. -/
theorem Amid.known {around : List I → S → S → Prop} {know : A → S → Prop} {next : A → I → A}
    {code : List I} (left : ∀ a ahead s t, ahead <:+ code → know a s → around ahead s t → know a t)
    (kept : ∀ a, ∀ i ∈ code, ∀ s, know a s → know (next a i) (exec i s)) {s t : S} {a : A}
    (first : know a s) (run : Amid exec around code s t) : know (code.foldl next a) t := by
  induction run generalizing a with
  | done s => exact first
  | around acts later ih => exact ih left kept (left a _ _ _ List.suffix_rfl first acts)
  | instr later ih =>
    refine ih ?_ ?_ (kept a _ List.mem_cons_self _ first)
    · intro a ahead s t part
      exact left a ahead s t (part.trans (List.suffix_cons _ _))
    · intro a i inside
      exact kept a i (List.mem_cons_of_mem _ inside)

theorem Amid.head {around : List I → S → S → Prop} {inv : S → Prop}
    (left : ∀ code s t, inv s → around code s t → inv t) {i : I} {code : List I} {s t : S}
    (first : inv s) (run : Amid exec around (i :: code) s t) :
    ∃ u, inv u ∧ Amid exec around code (exec i u) t := by
  generalize whole : i :: code = ahead at run
  induction run with
  | done s => cases whole
  | around acts later ih => exact ih (left _ _ _ first acts) whole
  | @instr j ahead s t later ih =>
    cases whole
    exact ⟨s, first, later⟩

theorem Amid.alone (around : List I → S → S → Prop) (code : List I) (s : S) :
    Amid exec around code s (code.foldl (fun s i => exec i s) s) := by
  induction code generalizing s with
  | nil => exact .done s
  | cons i code ih => exact .instr (ih (exec i s))

end Steps
