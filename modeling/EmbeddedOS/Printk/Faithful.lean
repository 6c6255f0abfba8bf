import Mathlib.Data.Nat.Digits.Lemmas
import Mathlib.Data.FinEnum
import EmbeddedOS.Printk.Bounded

/-! Numbers that printk prints, read back. -/
namespace EmbeddedOS.Printk

inductive Directive where
  | d
  | u
  | x
  | b
  | llx
  | p
deriving DecidableEq

abbrev Directive.Val : Directive → Type
  | .llx => UInt64
  | _ => UInt32

def Directive.fmt : Directive → List UInt8
  | .d => [ch '%', ch 'd']
  | .u => [ch '%', ch 'u']
  | .x => [ch '%', ch 'x']
  | .b => [ch '%', ch 'b']
  | .llx => [ch '%', ch 'l', ch 'l', ch 'x']
  | .p => [ch '%', ch 'p']

def Directive.arg : (dir : Directive) → dir.Val → Arg
  | .d, v => .word v
  | .u, v => .word v
  | .x, v => .word v
  | .b, v => .word v
  | .llx, v => .dword v
  | .p, v => .word v

def Directive.value : (dir : Directive) → dir.Val → Int
  | .d, v => if v.toNat < 2 ^ 31 then v.toNat else v.toNat - 2 ^ 32
  | .u, v => v.toNat
  | .x, v => v.toNat
  | .b, v => v.toNat
  | .llx, v => v.toNat
  | .p, v => v.toNat

section Reading

def digitValue (c : UInt8) : Nat :=
  if ch '0' ≤ c ∧ c ≤ ch '9' then c.toNat - (ch '0').toNat
  else if ch 'a' ≤ c ∧ c ≤ ch 'f' then c.toNat - (ch 'a').toNat + 10
  else 16

/-- A numeral in some base, the first digit first. -/
def numeral (base : Nat) (cs : List UInt8) : Option Nat :=
  if cs ≠ [] ∧ ∀ c ∈ cs, digitValue c < base then
    some (Nat.ofDigits base (cs.reverse.map digitValue))
  else none

def signed : List UInt8 → Option Int
  | [] => none
  | c :: cs =>
    if c = ch '-' then (numeral 10 cs).map fun n => -Int.ofNat n
    else (numeral 10 (c :: cs)).map Int.ofNat

def prefixed : List UInt8 → Option Int
  | z :: x :: cs => if z = ch '0' ∧ x = ch 'x' then (numeral 16 cs).map Int.ofNat else none
  | _ => none

def Directive.parse : Directive → List UInt8 → Option Int
  | .d, cs => signed cs
  | .u, cs => (numeral 10 cs).map Int.ofNat
  | .b, cs => (numeral 2 cs).map Int.ofNat
  | .x, cs => prefixed cs
  | .llx, cs => prefixed cs
  | .p, cs => prefixed cs

end Reading

def Directive.printed (dir : Directive) (v : dir.Val) : Option (List UInt8) :=
  ((vprintk dir.fmt [dir.arg v]).run []).map Prod.snd

def Directive.Faithful (dir : Directive) (v : dir.Val) : Prop :=
  (dir.printed v).bind dir.parse = some (dir.value v)

/-- The low word has eight digits, where a high word is printed. -/
def Directive.Fits : (dir : Directive) → dir.Val → Prop
  | .llx, v => v.toNat < 2 ^ 32 ∨ 2 ^ 28 ≤ v.toNat % 2 ^ 32
  | _, _ => True

section Digits

theorem digitValue_char : ∀ d : UInt8, d < 16 →
    digitValue (if d < 10 then ch '0' + d else ch 'a' + (d - 10)) = d.toNat := by
  intro d small
  have all : ∀ d : Fin 16, digitValue (if UInt8.ofNat d < 10 then ch '0' + UInt8.ofNat d
      else ch 'a' + (UInt8.ofNat d - 10)) = (UInt8.ofNat d).toNat := by decide
  have bound : d.toNat < 16 := small
  have same : UInt8.ofNat d.toNat = d := UInt8.ofNat_toNat
  have here := all ⟨d.toNat, bound⟩
  rwa [same] at here

variable {b u : UInt32}

theorem char_value (two : 2 ≤ b.toNat) (small : b.toNat ≤ 16) :
    (u % b).toUInt8 < 16 ∧ (u % b).toUInt8.toNat = u.toNat % b.toNat := by
  have less : u.toNat % b.toNat < b.toNat := Nat.mod_lt _ (by omega)
  have same : (u % b).toUInt8.toNat = u.toNat % b.toNat := by
    rw [UInt32.toNat_toUInt8, UInt32.toNat_mod, Nat.mod_eq_of_lt (by omega)]
  refine ⟨?_, same⟩
  rw [UInt8.lt_iff_toNat_lt, same]
  exact Nat.lt_of_lt_of_le less small

/-- The characters are the digits of the number, with one 0 for zero. -/
theorem digits_values (two : 2 ≤ b.toNat) (small : b.toNat ≤ 16) {k : Nat}
    (room : u.toNat < 2 ^ k) : (digits b (k + 1) u).map digitValue =
      if u.toNat = 0 then [0] else Nat.digits b.toNat u.toNat := by
  induction k generalizing u with
  | zero =>
    have zero : u.toNat = 0 := by omega
    have none_left : u / b = 0 := by
      rw [← UInt32.toNat_inj, UInt32.toNat_div, zero]
      exact Nat.zero_div _
    obtain ⟨range, value⟩ := char_value (u := u) two small
    simp only [digits, none_left, if_true, List.map_cons, List.map_nil, digitValue_char _ range,
      value, zero, Nat.zero_mod]
  | succ k ih =>
    obtain ⟨range, value⟩ := char_value (u := u) two small
    have quotient : (u / b).toNat = u.toNat / b.toNat := UInt32.toNat_div ..
    have zero_iff : u / b = 0 ↔ u.toNat / b.toNat = 0 := by
      rw [← UInt32.toNat_inj, quotient]
      rfl
    have less : (u / b).toNat < 2 ^ k := by
      rw [quotient]
      apply Nat.div_lt_of_lt_mul
      calc u.toNat < 2 * 2 ^ k := by omega
        _ ≤ b.toNat * 2 ^ k := Nat.mul_le_mul_right _ two
    rw [digits, List.map_cons, digitValue_char _ range, value]
    by_cases zero : u.toNat = 0
    · have none_left : u / b = 0 := zero_iff.mpr (by rw [zero]; exact Nat.zero_div _)
      rw [if_pos none_left, if_pos zero, zero]
      simp
    · rw [if_neg zero, Nat.digits_def' two (Nat.pos_of_ne_zero zero)]
      by_cases last : u / b = 0
      · rw [if_pos last, zero_iff.mp last]
        simp
      · have more : ¬ (u / b).toNat = 0 := fun none_left => last (UInt32.toNat_inj.mp none_left)
        rw [if_neg last, ih less, if_neg more, quotient]

theorem digits_number (two : 2 ≤ b.toNat) (small : b.toNat ≤ 16) :
    Nat.ofDigits b.toNat ((digits b 33 u).map digitValue) = u.toNat := by
  rw [digits_values two small u.toNat_lt]
  split
  · simp [*]
  · exact Nat.ofDigits_digits _ _

theorem digits_small (two : 2 ≤ b.toNat) (small : b.toNat ≤ 16) :
    ∀ c ∈ digits b 33 u, digitValue c < b.toNat := by
  intro c member
  have mapped : digitValue c ∈ (digits b 33 u).map digitValue := List.mem_map_of_mem member
  rw [digits_values two small u.toNat_lt] at mapped
  split at mapped
  · rw [List.mem_singleton.mp mapped]
    omega
  · exact Nat.digits_lt_base two mapped

theorem digits_some : digits b 33 u ≠ [] := by
  rw [digits]
  exact List.cons_ne_nil _ _

theorem numeral_digits (two : 2 ≤ b.toNat) (small : b.toNat ≤ 16) :
    numeral b.toNat (digits b 33 u).reverse = some u.toNat := by
  have fine : (digits b 33 u).reverse ≠ [] ∧
      ∀ c ∈ (digits b 33 u).reverse, digitValue c < b.toNat := by
    refine ⟨fun none_left => digits_some (List.reverse_eq_nil_iff.mp none_left), fun c member => ?_⟩
    exact digits_small two small c (List.mem_reverse.mp member)
  rw [numeral, if_pos fine, List.reverse_reverse, digits_number two small]

end Digits

section Text

def Directive.text : (dir : Directive) → dir.Val → List UInt8
  | .d, v =>
    if v < 0x80000000 then (digits 10 33 v).reverse else ch '-' :: (digits 10 33 (0 - v)).reverse
  | .u, v => (digits 10 33 v).reverse
  | .x, v => ch '0' :: ch 'x' :: (digits 16 33 v).reverse
  | .b, v => (digits 2 33 v).reverse
  | .llx, v =>
    ch '0' :: ch 'x' ::
      ((if (v >>> 32).toUInt32 ≠ 0 then (digits 16 33 (v >>> 32).toUInt32).reverse else []) ++
        (digits 16 33 v.toUInt32).reverse)
  | .p, v => ch '0' :: ch 'x' :: (digits 16 33 v).reverse

theorem putchars (cs out : List UInt8) :
    (cs.forM consoleOut.putchar).run out = some ((), out ++ cs) := by
  induction cs generalizing out with
  | nil => exact congrArg (fun o => some ((), o)) (List.append_nil out).symm
  | cons c cs ih =>
    have rest := ih (out ++ [c])
    rw [List.append_assoc] at rest
    exact rest

theorem emitVal_run {b : UInt32} (legal : b = 2 ∨ b = 10 ∨ b = 16) (u : UInt32)
    (out : List UInt8) :
    (emitVal consoleOut b u).run out = some ((), out ++ (digits b 33 u).reverse) := by
  rw [emitVal, if_pos legal]
  exact putchars _ out

theorem format_conversion {c : UInt8} (other : c ≠ ch 'l') (rest : List UInt8) (args : List Arg) :
    format consoleOut (ch '%' :: c :: rest) args =
      (conversion consoleOut c args >>= fun args => format consoleOut rest args) := by
  conv_lhs => unfold format
  rw [if_neg (by decide), if_neg (by decide)]
  change (if c = ch 'l' then _ else _) = _
  exact if_neg other

theorem format_llx (rest : List UInt8) (args : List Arg) :
    format consoleOut (ch '%' :: ch 'l' :: ch 'l' :: ch 'x' :: rest) args =
      (llx consoleOut args >>= fun args => format consoleOut rest args) := by
  rw [format, if_neg (by decide), if_neg (by decide)]
  exact (if_pos rfl).trans (if_pos ⟨rfl, rfl⟩)

theorem number_run {b : UInt32} (legal : b = 2 ∨ b = 10 ∨ b = 16) (u : UInt32)
    (args : List Arg) (out : List UInt8) :
    (emitVal consoleOut b u >>= fun _ => pure args : Console (List Arg)).run out =
      some (args, out ++ (digits b 33 u).reverse) := by
  rw [StateT.run_bind, emitVal_run legal]
  rfl

theorem conversion_run {dir : Directive} (one : dir ≠ .llx) (v : dir.Val) (args : List Arg)
    (out : List UInt8) : ∃ c, dir.fmt = [ch '%', c] ∧ c ≠ ch 'l' ∧
      (conversion consoleOut c (dir.arg v :: args)).run out = some (args, out ++ dir.text v) := by
  have hex : ∀ u, (emitVal consoleOut 16 u >>= fun _ => pure args : Console (List Arg)).run
      (out ++ [ch '0'] ++ [ch 'x']) =
        some (args, out ++ ch '0' :: ch 'x' :: (digits 16 33 u).reverse) := by
    intro u
    rw [number_run (by decide), List.append_assoc, List.append_assoc]
    rfl
  cases dir with
  | u => exact ⟨ch 'u', rfl, by decide, number_run (by decide) v args out⟩
  | b => exact ⟨ch 'b', rfl, by decide, number_run (by decide) v args out⟩
  | x => exact ⟨ch 'x', rfl, by decide, hex v⟩
  | p => exact ⟨ch 'p', rfl, by decide, hex v⟩
  | d =>
    refine ⟨ch 'd', rfl, by decide, ?_⟩
    have switch : conversion consoleOut (ch 'd') (.word v :: args) =
        if v < 0x80000000 then emitVal consoleOut 10 v >>= fun _ => pure args
        else consoleOut.putchar (ch '-') >>= fun _ =>
          emitVal consoleOut 10 (0 - v) >>= fun _ => pure args := rfl
    have negative := number_run (b := 10) (by decide) (0 - v) args (out ++ [ch '-'])
    rw [List.append_assoc] at negative
    change (conversion consoleOut (ch 'd') (.word v :: args)).run out = _
    rw [switch, Directive.text]
    by_cases small : v < 0x80000000
    · rw [if_pos small, if_pos small]
      exact number_run (by decide) v args out
    · rw [if_neg small, if_neg small]
      exact negative
  | llx => exact absurd rfl one

theorem llx_run (v : UInt64) (args : List Arg) (out : List UInt8) :
    (llx consoleOut (.dword v :: args)).run out = some (args, out ++ Directive.llx.text v) := by
  have switch : (llx consoleOut (.dword v :: args)).run out =
      (if (v >>> 32).toUInt32 ≠ 0 then emitVal consoleOut 16 (v >>> 32).toUInt32 >>= fun _ =>
          emitVal consoleOut 16 v.toUInt32 >>= fun _ => pure args
        else emitVal consoleOut 16 v.toUInt32 >>= fun _ => pure args : Console (List Arg)).run
        (out ++ [ch '0'] ++ [ch 'x']) := rfl
  have low := number_run (b := 16) (by decide) v.toUInt32 args
  rw [switch, Directive.text]
  by_cases some_high : (v >>> 32).toUInt32 ≠ 0
  · rw [if_pos some_high, if_pos some_high, StateT.run_bind, emitVal_run (by decide)]
    refine (low _).trans ?_
    simp
  · rw [if_neg some_high, if_neg some_high]
    refine (low _).trans ?_
    simp

/-- In any format a directive prints the text of its argument. -/
theorem format_text (dir : Directive) (v : dir.Val) (rest : List UInt8) (args : List Arg)
    (out : List UInt8) :
    (format consoleOut (dir.fmt ++ rest) (dir.arg v :: args)).run out =
      (format consoleOut rest args).run (out ++ dir.text v) := by
  by_cases long : dir = .llx
  · subst long
    change (format consoleOut (ch '%' :: ch 'l' :: ch 'l' :: ch 'x' :: rest) (.dword v :: args)).run
      out = _
    rw [format_llx, StateT.run_bind, llx_run]
    rfl
  · obtain ⟨c, fmt, other, ran⟩ := conversion_run long v args out
    rw [fmt]
    change (format consoleOut (ch '%' :: c :: rest) _).run out = _
    rw [format_conversion other, StateT.run_bind, ran]
    rfl

theorem printed_text (dir : Directive) (v : dir.Val) : dir.printed v = some (dir.text v) := by
  have ran := format_text dir v [] [] []
  rw [List.append_nil, List.nil_append] at ran
  rw [Directive.printed]
  change (((format consoleOut dir.fmt [dir.arg v]).run []).bind _).map Prod.snd = _
  rw [ran]
  rfl

end Text

section Back

theorem faithful_text {dir : Directive} {v : dir.Val} :
    dir.Faithful v ↔ dir.parse (dir.text v) = some (dir.value v) := by
  rw [Directive.Faithful, printed_text]
  rfl

theorem signed_digits (u : UInt32) : signed (digits 10 33 u).reverse = some (u.toNat : Int) := by
  have number : numeral 10 (digits 10 33 u).reverse = some u.toNat :=
    numeral_digits (b := 10) (by decide) (by decide)
  cases text : (digits 10 33 u).reverse with
  | nil => exact absurd (List.reverse_eq_nil_iff.mp text) digits_some
  | cons c cs =>
    have plain : c ≠ ch '-' := by
      rintro rfl
      have member : ch '-' ∈ digits 10 33 u :=
        List.mem_reverse.mp (text ▸ List.mem_cons_self)
      exact absurd (digits_small (b := 10) (by decide) (by decide) _ member) (by decide)
    rw [text] at number
    rw [signed, if_neg plain, number]
    rfl

theorem hex_digits (u : UInt32) : numeral 16 (digits 16 33 u).reverse = some u.toNat :=
  numeral_digits (b := 16) (by decide) (by decide)

theorem prefixed_text (cs : List UInt8) :
    prefixed (ch '0' :: ch 'x' :: cs) = (numeral 16 cs).map Int.ofNat := by
  rw [prefixed, if_pos ⟨rfl, rfl⟩]

/-- All directives for one word are read back. -/
theorem word_faithful (dir : Directive) (one : dir ≠ .llx) (v : dir.Val) : dir.Faithful v := by
  rw [faithful_text]
  cases dir with
  | d =>
    have bound : v.toNat < 2 ^ 32 := UInt32.toNat_lt v
    rw [Directive.parse, Directive.text, Directive.value]
    by_cases small : v < 0x80000000
    · have less : v.toNat < 2 ^ 31 := UInt32.lt_iff_toNat_lt.mp small
      rw [if_pos small, if_pos less]
      exact signed_digits v
    · have large : ¬ v.toNat < 2 ^ 31 := fun less => small (UInt32.lt_iff_toNat_lt.mpr less)
      have opposite : (0 - v : UInt32).toNat = 2 ^ 32 - v.toNat := by
        rw [UInt32.toNat_sub, UInt32.toNat_zero]
        omega
      have number : numeral 10 (digits 10 33 (0 - v)).reverse = some (0 - v).toNat :=
        numeral_digits (b := 10) (by decide) (by decide)
      rw [if_neg small, if_neg large, signed, if_pos rfl, number, opposite]
      refine congrArg some ?_
      change -((2 ^ 32 - v.toNat : Nat) : Int) = _
      omega
  | u => exact congrArg (Option.map _) (numeral_digits (b := 10) (by decide) (by decide))
  | b => exact congrArg (Option.map _) (numeral_digits (b := 2) (by decide) (by decide))
  | x => exact (prefixed_text _).trans (congrArg (Option.map _) (hex_digits v))
  | p => exact (prefixed_text _).trans (congrArg (Option.map _) (hex_digits v))
  | llx => exact absurd rfl one

theorem two_words (hi lo : UInt32) :
    numeral 16 ((digits 16 33 hi).reverse ++ (digits 16 33 lo).reverse) =
      some (lo.toNat + 16 ^ (digits 16 33 lo).length * hi.toNat) := by
  have small (u : UInt32) := digits_small (b := 16) (u := u) (by decide) (by decide)
  have number (u : UInt32) := digits_number (b := 16) (u := u) (by decide) (by decide)
  have fine : (digits 16 33 hi).reverse ++ (digits 16 33 lo).reverse ≠ [] ∧
      ∀ c ∈ (digits 16 33 hi).reverse ++ (digits 16 33 lo).reverse, digitValue c < 16 := by
    refine ⟨fun none_left => ?_, fun c member => ?_⟩
    · exact digits_some (List.reverse_eq_nil_iff.mp (List.append_eq_nil_iff.mp none_left).2)
    · rcases List.mem_append.mp member with first | last
      · exact small hi c (List.mem_reverse.mp first)
      · exact small lo c (List.mem_reverse.mp last)
  rw [numeral, if_pos fine, List.reverse_append, List.reverse_reverse, List.reverse_reverse,
    List.map_append, Nat.ofDigits_append, List.length_map]
  exact congrArg some (congrArg₂ (fun a b => a + 16 ^ (digits 16 33 lo).length * b) (number lo) (number hi))

theorem eight_digits (lo : UInt32) : (digits 16 33 lo).length = 8 ↔ 2 ^ 28 ≤ lo.toNat := by
  have bound : lo.toNat < 2 ^ 32 := UInt32.toNat_lt lo
  have values := digits_values (b := 16) (u := lo) (by decide) (by decide) (k := 32) bound
  have count := congrArg List.length values
  rw [List.length_map] at count
  rw [count]
  split
  · simp [*]
  · change (Nat.digits 16 lo.toNat).length = 8 ↔ _
    have most := (Nat.digits_length_le_iff (b := 16) (k := 8) (by decide) lo.toNat).mpr bound
    have least := Nat.lt_digits_length_iff (b := 16) (k := 7) (by decide) lo.toNat
    norm_num at least
    omega

theorem llx_faithful_iff (v : UInt64) :
    Directive.llx.Faithful v ↔ v.toNat < 2 ^ 32 ∨ 2 ^ 28 ≤ v.toNat % 2 ^ 32 := by
  have high : (v >>> 32).toUInt32.toNat = v.toNat / 2 ^ 32 := by
    have bound := UInt64.toNat_lt v
    rw [UInt64.toNat_toUInt32, UInt64.toNat_shiftRight]
    change v.toNat >>> 32 % 2 ^ 32 = _
    rw [Nat.shiftRight_eq_div_pow]
    omega
  have low : v.toUInt32.toNat = v.toNat % 2 ^ 32 := UInt64.toNat_toUInt32 v
  have some_high : (v >>> 32).toUInt32 ≠ 0 ↔ 2 ^ 32 ≤ v.toNat := by
    rw [Ne, ← UInt32.toNat_inj, high]
    change ¬ v.toNat / 2 ^ 32 = 0 ↔ _
    omega
  rw [faithful_text, Directive.parse, Directive.text, prefixed_text, Directive.value]
  by_cases large : 2 ^ 32 ≤ v.toNat
  · have eight := eight_digits v.toUInt32
    have split := Nat.mod_add_div v.toNat (2 ^ 32)
    have positive : 0 < v.toNat / 2 ^ 32 := Nat.div_pos large (by decide)
    rw [if_pos (some_high.mpr large), two_words, high]
    rw [low] at eight ⊢
    change some (Int.ofNat _) = some (Int.ofNat v.toNat) ↔ _
    rw [Option.some.injEq, Int.ofNat.injEq, ← eight]
    constructor
    · intro same
      have weights : 16 ^ (digits 16 33 v.toUInt32).length * (v.toNat / 2 ^ 32) =
          16 ^ 8 * (v.toNat / 2 ^ 32) := by omega
      exact Or.inr (Nat.pow_right_injective (by decide : 2 ≤ 16) (Nat.eq_of_mul_eq_mul_right positive weights))
    · rintro (small | eight_long)
      · omega
      · rw [eight_long]
        exact split
  · rw [if_neg (fun more => large (some_high.mp more)), List.nil_append, hex_digits, low]
    change some (Int.ofNat _) = some (Int.ofNat v.toNat) ↔ _
    rw [Option.some.injEq, Int.ofNat.injEq]
    omega

theorem faithful_iff (dir : Directive) (v : dir.Val) : dir.Faithful v ↔ dir.Fits v := by
  cases dir with
  | d => exact iff_of_true (word_faithful .d nofun v) trivial
  | u => exact iff_of_true (word_faithful .u nofun v) trivial
  | x => exact iff_of_true (word_faithful .x nofun v) trivial
  | b => exact iff_of_true (word_faithful .b nofun v) trivial
  | llx => exact llx_faithful_iff v
  | p => exact iff_of_true (word_faithful .p nofun v) trivial

theorem value_inj {dir : Directive} {v w : dir.Val} (same : dir.value v = dir.value w) : v = w := by
  cases dir with
  | d =>
    have first : v.toNat < 2 ^ 32 := UInt32.toNat_lt v
    have second : w.toNat < 2 ^ 32 := UInt32.toNat_lt w
    change (if v.toNat < 2 ^ 31 then (v.toNat : Int) else v.toNat - 2 ^ 32) =
      if w.toNat < 2 ^ 31 then (w.toNat : Int) else w.toNat - 2 ^ 32 at same
    apply UInt32.toNat_inj.mp
    split at same <;> split at same <;> omega
  | llx => exact UInt64.toNat_inj.mp (Int.ofNat.inj same)
  | _ => exact UInt32.toNat_inj.mp (Int.ofNat.inj same)

end Back

/-- Wherever a directive stands it prints one text of its argument, and two arguments are read back
from their texts, which then differ, exactly when no low word of either loses a zero. -/
theorem numbers_faithful_iff (dir : Directive) (v w : dir.Val) :
    (∃ text, dir.printed v = some text ∧ ∀ rest args out,
      (format consoleOut (dir.fmt ++ rest) (dir.arg v :: args)).run out =
        (format consoleOut rest args).run (out ++ text)) ∧
    ((dir.Faithful v ∧ dir.Faithful w ∧ (v ≠ w → dir.printed v ≠ dir.printed w)) ↔
      dir.Fits v ∧ dir.Fits w) := by
  refine ⟨⟨dir.text v, printed_text dir v, format_text dir v⟩, ?_, ?_⟩
  · rintro ⟨first, second, -⟩
    exact ⟨(faithful_iff dir v).mp first, (faithful_iff dir w).mp second⟩
  · rintro ⟨first, second⟩
    have one := (faithful_iff dir v).mpr first
    have two := (faithful_iff dir w).mpr second
    refine ⟨one, two, fun other same => other (value_inj (Option.some.inj ?_))⟩
    rw [← one, ← two, same]

/-- 0x100000000 prints as 0x10 does. -/
theorem zeros_are_lost :
    ¬ Directive.llx.Faithful 0x100000000 ∧
      Directive.llx.printed 0x100000000 = Directive.llx.printed 0x10 := by
  refine ⟨fun faithful => ?_, by decide +kernel⟩
  exact absurd ((llx_faithful_iff _).mp faithful) (by decide)

end EmbeddedOS.Printk
