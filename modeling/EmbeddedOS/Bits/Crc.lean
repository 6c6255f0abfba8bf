import Mathlib.Algebra.CharP.Two
import Mathlib.Algebra.Field.ZMod
import Mathlib.Algebra.Polynomial.Div
import Mathlib.RingTheory.AdjoinRoot
import Mathlib.GroupTheory.OrderOfElement
import Mathlib.Tactic.Ring
import Mathlib.Algebra.Polynomial.Degree.Lemmas
import Mathlib.Algebra.Polynomial.Monic
import Mathlib.Data.ZMod.Basic
import Mathlib.Data.List.GetD

/-! Checksums from a shift register that divides by a polynomial over two elements. The register holds the
highest power in its lowest bit, and bits are fed to it at that end. -/
namespace Bits.Crc

variable {w : Nat}

def bit (b : Bool) : BitVec w := if b then 1#w else 0#w

/-- One place down, with the divisor subtracted where a one falls out. -/
def shift (poly s : BitVec w) : BitVec w := (s >>> 1) ^^^ (if s.getLsbD 0 then poly else 0#w)

def feed (poly s : BitVec w) (b : Bool) : BitVec w := shift poly (s ^^^ bit b)

def run (poly s : BitVec w) (bits : List Bool) : BitVec w := bits.foldl (feed poly) s

def word : List Bool → BitVec w
  | [] => 0#w
  | b :: bits => bit b ^^^ (word bits <<< 1)

section Shifts

variable (poly s : BitVec w)

theorem bit_getLsbD (b : Bool) (i : Nat) :
    (bit b : BitVec w).getLsbD i = (decide (0 < w) && decide (i = 0) && b) := by
  cases b <;> simp [bit]

theorem word_getLsbD (bits : List Bool) (i : Nat) :
    (word bits : BitVec w).getLsbD i = (decide (i < w) && bits.getD i false) := by
  induction bits generalizing i with
  | nil => simp [word]
  | cons b bits ih =>
    rw [word, BitVec.getLsbD_xor, bit_getLsbD, BitVec.getLsbD_shiftLeft, ih]
    cases i with
    | zero => simp
    | succ i =>
      by_cases inside : i + 1 < w
      · have before : i < w := Nat.lt_of_succ_lt inside
        simp [inside, before]
      · simp [inside]

theorem shift_getLsbD (i : Nat) :
    (shift poly s).getLsbD i = (s.getLsbD (i + 1) ^^ (s.getLsbD 0 && poly.getLsbD i)) := by
  rw [shift, BitVec.getLsbD_xor, BitVec.getLsbD_ushiftRight, Nat.add_comm]
  cases s.getLsbD 0 <;> simp

theorem shift_xor (t : BitVec w) : shift poly (s ^^^ t) = shift poly s ^^^ shift poly t := by
  apply BitVec.eq_of_getLsbD_eq
  intro i _
  simp only [shift_getLsbD, BitVec.getLsbD_xor]
  cases s.getLsbD (i + 1) <;> cases t.getLsbD (i + 1) <;> cases s.getLsbD 0 <;> cases t.getLsbD 0 <;>
    cases poly.getLsbD i <;> rfl

/-- What is still above the lowest bit only moves down. -/
theorem shift_above {t : BitVec w} (small : t.getLsbD (w - 1) = false) : shift poly (t <<< 1) = t := by
  apply BitVec.eq_of_getLsbD_eq
  intro i inside
  rw [shift_getLsbD, BitVec.getLsbD_shiftLeft, BitVec.getLsbD_shiftLeft]
  by_cases last : i + 1 < w
  · simp [last]
  · have top : i = w - 1 := by omega
    subst top
    simp [small]

variable {poly} {s}

/-- A divisor with its constant term: nothing that the register held is lost. -/
theorem shift_injective (constant : poly.getLsbD (w - 1) = true) : Function.Injective (shift poly) := by
  intro s t same
  have bits (i : Nat) : (s.getLsbD (i + 1) ^^ (s.getLsbD 0 && poly.getLsbD i)) =
      (t.getLsbD (i + 1) ^^ (t.getLsbD 0 && poly.getLsbD i)) := by
    rw [← shift_getLsbD, ← shift_getLsbD, same]
  have lowest : s.getLsbD 0 = t.getLsbD 0 := by
    by_cases some_bits : 0 < w
    · have top := bits (w - 1)
      rw [constant, Nat.sub_add_cancel some_bits, BitVec.getLsbD_of_ge s w (Nat.le_refl w),
        BitVec.getLsbD_of_ge t w (Nat.le_refl w)] at top
      simpa using top
    · rw [BitVec.getLsbD_of_ge s 0 (by omega), BitVec.getLsbD_of_ge t 0 (by omega)]
  apply BitVec.eq_of_getLsbD_eq
  intro i _
  cases i with
  | zero => exact lowest
  | succ i =>
    have here := bits i
    rw [lowest] at here
    exact (Bool.xor_left_inj).mp here

end Shifts

section Bursts

variable {poly : BitVec w}

theorem run_append (s : BitVec w) (first rest : List Bool) :
    run poly s (first ++ rest) = run poly (run poly s first) rest := List.foldl_append

theorem run_injective (constant : poly.getLsbD (w - 1) = true) (bits : List Bool) :
    Function.Injective fun s => run poly s bits := by
  induction bits with
  | nil => exact fun _ _ same => same
  | cons b bits ih =>
    intro s t same
    have fed := shift_injective constant (ih same)
    exact (BitVec.xor_left_inj (bit b)).mp fed

theorem run_word (s : BitVec w) {bits : List Bool} (fits : bits.length ≤ w) :
    run poly s bits = (shift poly)^[bits.length] (s ^^^ word bits) := by
  induction bits generalizing s with
  | nil =>
    rw [word, BitVec.xor_zero]
    rfl
  | cons b bits ih =>
    rw [List.length_cons] at fits
    have small : (word bits : BitVec w).getLsbD (w - 1) = false := by
      rw [word_getLsbD, List.getD_eq_default _ _ (by omega), Bool.and_false]
    change run poly (feed poly s b) bits = _
    rw [ih _ (Nat.le_of_succ_le fits), List.length_cons, Function.iterate_succ_apply, word,
      ← BitVec.xor_assoc, shift_xor, shift_above poly small, feed]

theorem word_injective {a b : List Bool} (size : a.length = b.length) (fits : a.length ≤ w)
    (same : (word a : BitVec w) = word b) : a = b := by
  refine List.ext_getElem size fun i here there => ?_
  have bits := congrArg (BitVec.getLsbD · i) same
  simp only [word_getLsbD] at bits
  rw [List.getD_eq_getElem _ _ here, List.getD_eq_getElem _ _ there] at bits
  simpa [Nat.lt_of_lt_of_le here fits] using bits

/-- Two messages that differ only within as many bits as the register holds have different checksums. -/
theorem burst_detected (constant : poly.getLsbD (w - 1) = true) (s : BitVec w) (before after : List Bool)
    {a b : List Bool} (size : a.length = b.length) (fits : a.length ≤ w) (differ : a ≠ b) :
    run poly s (before ++ a ++ after) ≠ run poly s (before ++ b ++ after) := by
  intro same
  rw [run_append, run_append, run_append, run_append] at same
  have within : run poly (run poly s before) a = run poly (run poly s before) b :=
    run_injective constant after same
  have fits' : b.length ≤ w := size ▸ fits
  rw [run_word _ fits, run_word _ fits', size] at within
  have words := (shift_injective constant).iterate b.length within
  exact differ (word_injective size fits ((BitVec.xor_right_inj _).mp words))

end Bursts

section Tables

variable (poly : BitVec w)

theorem shifts_xor (s t : BitVec w) (k : Nat) :
    (shift poly)^[k] (s ^^^ t) = (shift poly)^[k] s ^^^ (shift poly)^[k] t := by
  induction k generalizing s t with
  | zero => rfl
  | succ k ih => rw [Function.iterate_succ_apply, shift_xor, ih]; rfl

theorem shifts_above {k : Nat} {t : BitVec w} (small : ∀ i, w - k ≤ i → t.getLsbD i = false) :
    (shift poly)^[k] (t <<< k) = t := by
  induction k with
  | zero => simp
  | succ k ih =>
    have top : (t <<< k).getLsbD (w - 1) = false := by
      rw [BitVec.getLsbD_shiftLeft, small _ (by omega), Bool.and_false]
    rw [Function.iterate_succ_apply, BitVec.shiftLeft_add, shift_above poly top]
    exact ih fun i above => small i (by omega)

/-- A table of what the low places leave behind does as many shifts at once. -/
theorem shifts_table (s : BitVec w) (k : Nat) :
    (shift poly)^[k] s = (shift poly)^[k] (s ^^^ (s >>> k <<< k)) ^^^ (s >>> k) := by
  have small (i : Nat) (above : w - k ≤ i) : (s >>> k).getLsbD i = false := by
    rw [BitVec.getLsbD_ushiftRight]
    exact BitVec.getLsbD_of_ge s _ (by omega)
  rw [shifts_xor, shifts_above poly small, BitVec.xor_assoc, BitVec.xor_self, BitVec.xor_zero]

end Tables

section Remainders

open Polynomial

noncomputable def coefficient (b : Bool) : (ZMod 2)[X] := if b then 1 else 0

noncomputable def value (s : BitVec w) : (ZMod 2)[X] :=
  ∑ i ∈ Finset.range w, coefficient (s.getLsbD i) * X ^ (w - 1 - i)

/-- The register holds all of the divisor but its highest power. -/
noncomputable def divisor (poly : BitVec w) : (ZMod 2)[X] := X ^ w + value poly

noncomputable def message : List Bool → (ZMod 2)[X]
  | [] => 0
  | b :: bits => coefficient b * X ^ bits.length + message bits

theorem coefficient_xor (a b : Bool) : coefficient (a ^^ b) = coefficient a + coefficient b := by
  cases a <;> cases b <;> simp [coefficient, CharTwo.add_self_eq_zero]

theorem coefficient_and (a b : Bool) : coefficient (a && b) = coefficient a * coefficient b := by
  cases a <;> cases b <;> simp [coefficient]

theorem value_xor (s t : BitVec w) : value (s ^^^ t) = value s + value t := by
  rw [value, value, value, ← Finset.sum_add_distrib]
  refine Finset.sum_congr rfl fun i _ => ?_
  rw [BitVec.getLsbD_xor, coefficient_xor, add_mul]

theorem value_bit (some_bits : 0 < w) (b : Bool) :
    value (bit b : BitVec w) = coefficient b * X ^ (w - 1) := by
  rw [value, Finset.sum_eq_single 0]
  · rw [bit_getLsbD, decide_eq_true some_bits, Nat.sub_zero]
    rfl
  · intro i _ above
    rw [bit_getLsbD, decide_eq_false above, Bool.and_false, Bool.false_and]
    exact zero_mul _
  · intro outside
    exact absurd (Finset.mem_range.mpr some_bits) outside

theorem degree_value (s : BitVec w) : (value s).degree < w := by
  refine Finset.sum_induction _ (fun p : (ZMod 2)[X] => p.degree < w) ?_ ?_ ?_
  · exact fun p q small small' => lt_of_le_of_lt (degree_add_le p q) (max_lt small small')
  · rw [degree_zero]
    exact WithBot.bot_lt_coe w
  · intro i inside
    have below := Finset.mem_range.mp inside
    have power : w - 1 - i < w := by omega
    cases s.getLsbD i
    · simp [coefficient]
    · simpa [coefficient] using power

theorem divisor_monic (poly : BitVec w) : (divisor poly).Monic := monic_X_pow_add (degree_value poly)

theorem degree_divisor (poly : BitVec w) : (divisor poly).degree = w := by
  rw [divisor, degree_add_eq_left_of_degree_lt] <;> rw [degree_X_pow]
  exact degree_value poly

/-- A shift multiplies by one power and takes the divisor away where the degree became too high. -/
theorem value_shift (poly s : BitVec w) (some_bits : 0 < w) :
    X * value s = value (shift poly s) + coefficient (s.getLsbD 0) * divisor poly := by
  obtain ⟨v, rfl⟩ : ∃ v, w = v + 1 := ⟨w - 1, (Nat.sub_add_cancel some_bits).symm⟩
  have moved : value (shift poly s) = ∑ i ∈ Finset.range v, coefficient (s.getLsbD (i + 1)) * X ^ (v - i) +
      coefficient (s.getLsbD 0) * value poly := by
    rw [value, value, Finset.mul_sum]
    have last : coefficient (s.getLsbD (v + 1)) * X ^ (v - v) = 0 := by
      rw [BitVec.getLsbD_of_ge s (v + 1) (Nat.le_refl _)]
      exact zero_mul _
    rw [← add_zero (∑ i ∈ Finset.range v, _), ← last, ← Finset.sum_range_succ, ← Finset.sum_add_distrib]
    refine Finset.sum_congr rfl fun i _ => ?_
    rw [shift_getLsbD, coefficient_xor, coefficient_and, add_mul, mul_assoc]
    rfl
  have lifted : X * value s = ∑ i ∈ Finset.range v, coefficient (s.getLsbD (i + 1)) * X ^ (v - i) +
      coefficient (s.getLsbD 0) * X ^ (v + 1) := by
    rw [value, Finset.mul_sum, Finset.sum_range_succ']
    refine congrArg₂ (· + ·) (Finset.sum_congr rfl fun i inside => ?_) ?_
    · have below := Finset.mem_range.mp inside
      have power : v - i = v + 1 - 1 - (i + 1) + 1 := by omega
      rw [power, pow_succ]
      ring
    · rw [Nat.add_sub_cancel, Nat.sub_zero, pow_succ]
      ring
  rw [moved, lifted, divisor, mul_add, add_assoc, add_comm (coefficient _ * X ^ _), ← add_assoc (_ * value poly),
    CharTwo.add_self_eq_zero, zero_add]

/-- The register as a residue by the divisor. -/
noncomputable def residue (poly s : BitVec w) : AdjoinRoot (divisor poly) := AdjoinRoot.mk _ (value s)

theorem residue_xor (poly s t : BitVec w) : residue poly (s ^^^ t) = residue poly s + residue poly t := by
  rw [residue, value_xor, map_add]
  rfl

theorem residue_shift (poly s : BitVec w) (some_bits : 0 < w) :
    residue poly (shift poly s) = AdjoinRoot.root _ * residue poly s := by
  have same := congrArg (AdjoinRoot.mk (divisor poly)) (value_shift poly s some_bits)
  rw [map_mul, map_add, map_mul, AdjoinRoot.mk_X, AdjoinRoot.mk_self, mul_zero, add_zero] at same
  exact same.symm

theorem residue_bit (poly : BitVec w) (some_bits : 0 < w) (b : Bool) :
    residue poly (bit b) = AdjoinRoot.mk _ (coefficient b) * AdjoinRoot.root _ ^ (w - 1) := by
  rw [residue, value_bit some_bits, map_mul, map_pow, AdjoinRoot.mk_X]

theorem residue_shifts (poly s : BitVec w) (some_bits : 0 < w) (k : Nat) :
    residue poly ((shift poly)^[k] s) = AdjoinRoot.root _ ^ k * residue poly s := by
  induction k with
  | zero => rw [pow_zero, one_mul, Function.iterate_zero_apply]
  | succ k ih => rw [Function.iterate_succ_apply', residue_shift poly _ some_bits, ih, pow_succ', mul_assoc]

theorem residue_run (poly s : BitVec w) (some_bits : 0 < w) (bits : List Bool) :
    residue poly (run poly s bits) =
      AdjoinRoot.mk _ (X ^ bits.length * value s + X ^ w * message bits) := by
  induction bits generalizing s with
  | nil =>
    change AdjoinRoot.mk _ (value s) = AdjoinRoot.mk _ (X ^ 0 * value s + X ^ w * 0)
    rw [pow_zero, one_mul, mul_zero, add_zero]
  | cons b bits ih =>
    have fed : AdjoinRoot.mk (divisor poly) (value (feed poly s b)) =
        AdjoinRoot.mk _ (X * (value s + coefficient b * X ^ (w - 1))) := by
      rw [← value_bit some_bits b, ← value_xor, map_mul, AdjoinRoot.mk_X]
      exact residue_shift poly _ some_bits
    have powers : (X : (ZMod 2)[X]) ^ w = X * X ^ (w - 1) := by rw [← pow_succ', Nat.sub_add_cancel some_bits]
    change residue poly (run poly (feed poly s b) bits) = AdjoinRoot.mk _
      (X ^ (bits.length + 1) * value s + X ^ w * (coefficient b * X ^ bits.length + message bits))
    calc residue poly (run poly (feed poly s b) bits)
        = AdjoinRoot.mk _ (X ^ bits.length) * AdjoinRoot.mk _ (value (feed poly s b)) +
            AdjoinRoot.mk _ (X ^ w * message bits) := by rw [ih, map_add, map_mul]
      _ = AdjoinRoot.mk _ (X ^ bits.length * (X * (value s + coefficient b * X ^ (w - 1))) +
            X ^ w * message bits) := by rw [fed, ← map_mul, ← map_add]
      _ = _ := by
          rw [powers]
          congr 1
          ring

/-- What is left in the register is the remainder of the message, with the start in front of it. -/
theorem run_remainder (poly s : BitVec w) (some_bits : 0 < w) (bits : List Bool) :
    value (run poly s bits) = (X ^ bits.length * value s + X ^ w * message bits) %ₘ divisor poly := by
  obtain ⟨q, same⟩ := AdjoinRoot.mk_eq_mk.mp (residue_run poly s some_bits bits).symm
  have unique := div_modByMonic_unique q (value (run poly s bits)) (divisor_monic poly)
    ⟨by rw [← same, add_sub_cancel], by rw [degree_divisor]; exact degree_value _⟩
  exact unique.2.symm

theorem value_injective : Function.Injective (value : BitVec w → (ZMod 2)[X]) := by
  intro s t same
  have bits (s : BitVec w) (i : Nat) (inside : i < w) :
      (value s).coeff (w - 1 - i) = if s.getLsbD i then 1 else 0 := by
    rw [value, finsetSum_coeff, Finset.sum_eq_single i]
    · cases s.getLsbD i <;> simp [coefficient]
    · intro j inside' other
      have below := Finset.mem_range.mp inside'
      have apart : w - 1 - i ≠ w - 1 - j := by omega
      cases s.getLsbD j <;> simp [coefficient, coeff_X_pow, apart]
    · exact fun outside => absurd (Finset.mem_range.mpr inside) outside
  apply BitVec.eq_of_getLsbD_eq
  intro i inside
  have here := bits s i inside
  rw [same, bits t i inside] at here
  cases left : s.getLsbD i <;> cases right : t.getLsbD i <;> simp_all

theorem residue_injective (poly : BitVec w) : Function.Injective (residue poly) := by
  intro s t same
  apply value_injective
  have divides := AdjoinRoot.mk_eq_mk.mp same
  have small : (value s - value t).degree < (divisor poly).degree := by
    rw [degree_divisor]
    exact lt_of_le_of_lt (degree_sub_le _ _) (max_lt (degree_value s) (degree_value t))
  by_contra differ
  exact (divisor_monic poly).not_dvd_of_degree_lt (sub_ne_zero.mpr differ) small divides

end Remainders

section Powers

variable (poly : BitVec w)

def one : BitVec w := BitVec.twoPow w (w - 1)

def timesUpTo (s t : BitVec w) : Nat → BitVec w
  | 0 => 0#w
  | n + 1 => shift poly (timesUpTo s t n) ^^^ (if t.getLsbD n then s else 0#w)

def times (s t : BitVec w) : BitVec w := timesUpTo poly s t w

def power : Nat → Nat → BitVec w
  | 0, _ => one
  | k + 1, n =>
    let half := power k (n / 2)
    let square := times poly half half
    if n % 2 = 1 then shift poly square else square

variable {poly} (some_bits : 0 < w)
include some_bits

theorem residue_one : residue poly one = 1 := by
  have value_one : value (one : BitVec w) = 1 := by
    rw [value, Finset.sum_eq_single (w - 1)]
    · simp [one, coefficient, some_bits]
    · intro i inside other
      have apart : w - 1 ≠ i := fun same => other same.symm
      simp [one, coefficient, BitVec.getLsbD_twoPow, apart]
    · exact fun outside => absurd (Finset.mem_range.mpr (Nat.sub_lt some_bits Nat.one_pos)) outside
  rw [residue, value_one, map_one]

theorem residue_timesUpTo (s t : BitVec w) (n : Nat) :
    residue poly (timesUpTo poly s t n) =
      (∑ i ∈ Finset.range n, AdjoinRoot.mk _ (coefficient (t.getLsbD i)) * AdjoinRoot.root _ ^ (n - 1 - i)) *
        residue poly s := by
  induction n with
  | zero => simp [timesUpTo, residue, value, coefficient]
  | succ n ih =>
    have added : residue poly (if t.getLsbD n then s else 0#w) =
        AdjoinRoot.mk _ (coefficient (t.getLsbD n)) * residue poly s := by
      cases t.getLsbD n <;> simp [coefficient, residue, value]
    have moved : ∑ i ∈ Finset.range n, AdjoinRoot.mk (divisor poly) (coefficient (t.getLsbD i)) *
          AdjoinRoot.root _ ^ (n - i) =
        AdjoinRoot.root _ * ∑ i ∈ Finset.range n, AdjoinRoot.mk _ (coefficient (t.getLsbD i)) *
          AdjoinRoot.root _ ^ (n - 1 - i) := by
      rw [Finset.mul_sum]
      refine Finset.sum_congr rfl fun i inside => ?_
      have below := Finset.mem_range.mp inside
      have exponent : n - i = n - 1 - i + 1 := by omega
      rw [exponent, pow_succ]
      ring
    rw [timesUpTo, residue_xor, residue_shift poly _ some_bits, ih, added, Finset.sum_range_succ,
      Nat.add_sub_cancel, moved, Nat.sub_self, pow_zero]
    ring

theorem residue_times (s t : BitVec w) :
    residue poly (times poly s t) = residue poly t * residue poly s := by
  have sum : residue poly t =
      ∑ i ∈ Finset.range w, AdjoinRoot.mk _ (coefficient (t.getLsbD i)) * AdjoinRoot.root _ ^ (w - 1 - i) := by
    rw [residue, value, map_sum]
    simp only [map_mul, map_pow, AdjoinRoot.mk_X]
  rw [times, residue_timesUpTo some_bits, sum]

theorem residue_power {k n : Nat} (small : n < 2 ^ k) :
    residue poly (power poly k n) = AdjoinRoot.root _ ^ n := by
  induction k generalizing n with
  | zero =>
    have none : n = 0 := by simpa using small
    rw [none, power, residue_one some_bits, pow_zero]
  | succ k ih =>
    have half := ih (Nat.div_lt_of_lt_mul (by rwa [← Nat.pow_succ'] : n < 2 * 2 ^ k))
    have square : residue poly (times poly (power poly k (n / 2)) (power poly k (n / 2))) = _ :=
      residue_times some_bits _ _
    rw [half, ← pow_add] at square
    rw [power]
    split
    next odd =>
      rw [residue_shift poly _ some_bits, square, ← pow_succ']
      congr 1
      omega
    next even =>
      rw [square]
      congr 1
      omega

theorem power_eq_one_iff {k n : Nat} (small : n < 2 ^ k) :
    AdjoinRoot.root (divisor poly) ^ n = 1 ↔ power poly k n = one := by
  rw [← residue_power some_bits small, ← residue_one some_bits]
  exact (residue_injective poly).eq_iff

/-- The shifts come back to a single bit only after as many as the order of the divisor's root. -/
theorem order_dvd (periodic : 0 < orderOf (AdjoinRoot.root (divisor poly))) {k : Nat}
    (back : (shift poly)^[k] (bit true) = bit true) : orderOf (AdjoinRoot.root (divisor poly)) ∣ k := by
  have same := residue_shifts poly (bit true) some_bits k
  rw [back, residue_bit poly some_bits, coefficient, if_pos rfl, map_one, one_mul] at same
  have unit : IsUnit (AdjoinRoot.root (divisor poly)) :=
    (orderOf_pos_iff.mp periodic).isUnit
  exact orderOf_dvd_of_pow_eq_one ((unit.pow (w - 1)).mul_right_cancel (by rw [one_mul, ← same]))

end Powers

section Pairs

variable {poly : BitVec w}

theorem feed_xor (s t : BitVec w) (b : Bool) : feed poly (s ^^^ t) b = feed poly s b ^^^ shift poly t := by
  rw [feed, feed, ← shift_xor, BitVec.xor_assoc, BitVec.xor_comm t, ← BitVec.xor_assoc]

theorem run_xor (s t : BitVec w) (bits : List Bool) :
    run poly (s ^^^ t) bits = run poly s bits ^^^ (shift poly)^[bits.length] t := by
  induction bits generalizing s t with
  | nil => rfl
  | cons b bits ih =>
    change run poly (feed poly (s ^^^ t) b) bits = run poly (feed poly s b) bits ^^^ _
    rw [feed_xor, ih, List.length_cons, Function.iterate_succ_apply]

theorem feed_not (s : BitVec w) (b : Bool) : feed poly s (!b) = feed poly s b ^^^ shift poly (bit true) := by
  have flipped : (bit (!b) : BitVec w) = bit b ^^^ bit true := by
    cases b <;> simp [bit]
  rw [feed, feed, ← shift_xor, flipped, BitVec.xor_assoc]

/-- Two messages that differ in two places closer than the order have different checksums. -/
theorem pair_detected (some_bits : 0 < w) (constant : poly.getLsbD (w - 1) = true) (s : BitVec w)
    (before between after : List Bool) (a b : Bool)
    (near : between.length + 1 < orderOf (AdjoinRoot.root (divisor poly))) :
    run poly s (before ++ a :: between ++ b :: after) ≠
      run poly s (before ++ (!a) :: between ++ (!b) :: after) := by
  intro same
  simp only [run_append] at same
  have within : feed poly (run poly (feed poly (run poly s before) a) between) b =
      feed poly (run poly (feed poly (run poly s before) (!a)) between) (!b) :=
    run_injective constant after same
  rw [feed_not, feed_not, run_xor, feed_xor, BitVec.xor_assoc] at within
  have none := (BitVec.xor_right_inj _).mp ((BitVec.xor_zero).trans within)
  have equal := shift_injective constant (BitVec.xor_eq_zero_iff.mp none.symm)
  have divides := order_dvd some_bits (Nat.zero_lt_of_lt near) (k := between.length + 1) equal
  exact absurd (Nat.le_of_dvd (Nat.succ_pos _) divides) (Nat.not_le_of_lt near)

end Pairs

end Bits.Crc
