import Mathlib.Data.Nat.Bitwise

/-! Fields of a word: the bits from some place on, read and replaced with shifts and masks. -/
namespace Bits

/-- The n bits from lo on. -/
def field (x lo n : Nat) : Nat := x / 2 ^ lo % 2 ^ n

theorem field_lt (x lo n : Nat) : field x lo n < 2 ^ n := Nat.mod_lt _ (Nat.two_pow_pos n)

theorem field_testBit (x lo n i : Nat) :
    (field x lo n).testBit i = (decide (i < n) && x.testBit (lo + i)) := by
  rw [field, Nat.testBit_mod_two_pow, Nat.testBit_div_two_pow, Nat.add_comm]

theorem field_congr {x y lo n : Nat}
    (same : ∀ i, lo ≤ i → i < lo + n → x.testBit i = y.testBit i) : field x lo n = field y lo n := by
  apply Nat.eq_of_testBit_eq
  intro i
  rw [field_testBit, field_testBit]
  by_cases inside : i < n
  · rw [same (lo + i) (Nat.le_add_right lo i) (Nat.add_lt_add_left inside lo)]
  · simp [inside]

theorem field_of_testBit {x v lo n : Nat} (small : v < 2 ^ n)
    (same : ∀ i, lo ≤ i → i < lo + n → x.testBit i = v.testBit (i - lo)) : field x lo n = v := by
  apply Nat.eq_of_testBit_eq
  intro i
  rw [field_testBit]
  by_cases inside : i < n
  · rw [same (lo + i) (Nat.le_add_right lo i) (Nat.add_lt_add_left inside lo), Nat.add_sub_cancel_left]
    simp [inside]
  · have high : v < 2 ^ i := Nat.lt_of_lt_of_le small (Nat.pow_le_pow_right (by decide) (by omega))
    simp [inside, Nat.testBit_lt_two_pow high]

section Words

theorem shifted_testBit {v s : UInt32} {n : Nat} (small : v.toNat < 2 ^ n)
    (fits : s.toNat + n ≤ 32) (some_bits : 0 < n) (i : Nat) :
    (v <<< s).toNat.testBit i = (decide (s.toNat ≤ i) && v.toNat.testBit (i - s.toNat)) := by
  have bound : v.toNat <<< s.toNat < 2 ^ 32 := by
    rw [Nat.shiftLeft_eq]
    calc v.toNat * 2 ^ s.toNat < 2 ^ n * 2 ^ s.toNat :=
          Nat.mul_lt_mul_of_pos_right small (Nat.two_pow_pos _)
      _ = 2 ^ (s.toNat + n) := by rw [Nat.pow_add, Nat.mul_comm]
      _ ≤ 2 ^ 32 := Nat.pow_le_pow_right (by decide) fits
  rw [UInt32.toNat_shiftLeft, Nat.mod_eq_of_lt (by omega : s.toNat < 32), Nat.mod_eq_of_lt bound,
    Nat.testBit_shiftLeft]

theorem not_testBit (x : UInt32) {i : Nat} (inside : i < 32) :
    (~~~x).toNat.testBit i = !x.toNat.testBit i := by
  rw [UInt32.toNat_not]
  have bound := UInt32.toNat_lt x
  have flip := Nat.testBit_two_pow_sub_succ (n := 32) bound i
  rw [show UInt32.size - 1 - x.toNat = 2 ^ 32 - (x.toNat + 1) by
    change 2 ^ 32 - 1 - x.toNat = _
    omega, flip]
  simp [inside]

theorem replaced_testBit (x : UInt32) {v m s : UInt32} {n : Nat} (mask : m.toNat = 2 ^ n - 1)
    (small : v.toNat < 2 ^ n) (fits : s.toNat + n ≤ 32) (some_bits : 0 < n) {i : Nat}
    (inside : i < 32) :
    ((x &&& ~~~(m <<< s)) ||| (v <<< s)).toNat.testBit i =
      if s.toNat ≤ i ∧ i < s.toNat + n then v.toNat.testBit (i - s.toNat)
      else x.toNat.testBit i := by
  have ones : m.toNat < 2 ^ n := by
    rw [mask]
    exact Nat.sub_lt (Nat.two_pow_pos n) Nat.one_pos
  rw [UInt32.toNat_or, UInt32.toNat_and, Nat.testBit_or, Nat.testBit_and, not_testBit _ inside,
    shifted_testBit ones fits some_bits, shifted_testBit small fits some_bits, mask,
    Nat.testBit_two_pow_sub_one]
  by_cases low : s.toNat ≤ i
  · by_cases high : i < s.toNat + n
    · have offset : i - s.toNat < n := by omega
      simp [low, high, offset]
    · have offset : ¬ i - s.toNat < n := by omega
      have zero : v.toNat.testBit (i - s.toNat) = false :=
        Nat.testBit_lt_two_pow (Nat.lt_of_lt_of_le small (Nat.pow_le_pow_right (by decide) (by omega)))
      simp [low, high, offset, zero]
  · simp [low]

theorem replaced_field (x : UInt32) {v m s : UInt32} {n : Nat} (mask : m.toNat = 2 ^ n - 1)
    (small : v.toNat < 2 ^ n) (fits : s.toNat + n ≤ 32) (some_bits : 0 < n) :
    field ((x &&& ~~~(m <<< s)) ||| (v <<< s)).toNat s.toNat n = v.toNat := by
  refine field_of_testBit small fun i low high => ?_
  rw [replaced_testBit x mask small fits some_bits (by omega), if_pos ⟨low, high⟩]

theorem replaced_apart (x : UInt32) {v m s : UInt32} {n lo k : Nat} (mask : m.toNat = 2 ^ n - 1)
    (small : v.toNat < 2 ^ n) (fits : s.toNat + n ≤ 32) (some_bits : 0 < n) (inside : lo + k ≤ 32)
    (apart : lo + k ≤ s.toNat ∨ s.toNat + n ≤ lo) :
    field ((x &&& ~~~(m <<< s)) ||| (v <<< s)).toNat lo k = field x.toNat lo k := by
  refine field_congr fun i low high => ?_
  rw [replaced_testBit x mask small fits some_bits (by omega), if_neg (by omega)]

end Words

end Bits
