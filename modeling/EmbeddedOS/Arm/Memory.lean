import Mathlib.Logic.Function.Basic
import Mathlib.Data.List.FinRange
import Mathlib.Algebra.GroupWithZero.Nat

/-! A memory of words under their byte addresses, written a word or a block at a time. -/
namespace Arm

abbrev Memory := UInt32 → UInt32

/-- Where a block keeps its word of this index. -/
def word (base : UInt32) (i : Nat) : UInt32 := base + 4 * UInt32.ofNat i

theorem word_inj {base : UInt32} {i j : Nat} (low : i < 2 ^ 30) (low' : j < 2 ^ 30)
    (same : word base i = word base j) : i = j := by
  have offsets := congrArg UInt32.toNat ((UInt32.add_right_inj base).mp same)
  simp only [UInt32.toNat_mul, UInt32.toNat_ofNat'] at offsets
  change 4 * (i % 2 ^ 32) % 2 ^ 32 = 4 * (j % 2 ^ 32) % 2 ^ 32 at offsets
  omega

theorem word_eq (base : UInt32) (i : Nat) {k : UInt32} (offset : 4 * UInt32.ofNat i = k) :
    base + k = word base i := by
  rw [word, offset]

theorem multiple_add {a b k : UInt32} (whole : k.toNat ∣ 2 ^ 32) (one : a % k = 0) (two : b % k = 0) :
    (a + b) % k = 0 := by
  have first := congrArg UInt32.toNat one
  have second := congrArg UInt32.toNat two
  apply UInt32.toNat_inj.mp
  simp only [UInt32.toNat_mod, UInt32.toNat_add] at first second ⊢
  rw [Nat.mod_mod_of_dvd _ whole, Nat.add_mod, first, second]
  simp

theorem aligned_add {a k : UInt32} (base : a % 4 = 0) (offset : k % 4 = 0) : (a + k) % 4 = 0 :=
  multiple_add (by decide) base offset

theorem rounded_iff (a k : UInt32) : a / k * k = a ↔ a % k = 0 := by
  have split := Nat.div_add_mod a.toNat k.toNat
  have short := Nat.div_mul_le_self a.toNat k.toNat
  have small : a.toNat / k.toNat * k.toNat < 2 ^ 32 := Nat.lt_of_le_of_lt short a.toNat_lt
  rw [← UInt32.toNat_inj, ← UInt32.toNat_inj, UInt32.toNat_mul, UInt32.toNat_div,
    Nat.mod_eq_of_lt small, UInt32.toNat_mod, Nat.mul_comm]
  change k.toNat * (a.toNat / k.toNat) = a.toNat ↔ a.toNat % k.toNat = 0
  omega

theorem word_add (base : UInt32) (i j : Nat) : word (word base i) j = word base (i + j) := by
  unfold word
  rw [UInt32.add_assoc, UInt32.ofNat_add, UInt32.mul_add]

theorem word_drop (base : UInt32) (i j : Nat) :
    word base (i + j) - 4 * UInt32.ofNat j = word base i := by
  rw [← word_add]
  exact UInt32.add_sub_cancel _ _

theorem word_base (a b : UInt32) (i : Nat) : word a i = word b i ↔ a = b := UInt32.add_left_inj _

def write (mem : Memory) (a v : UInt32) : Memory := Function.update mem a v

@[simp] theorem write_same (mem : Memory) (a v : UInt32) : write mem a v a = v :=
  Function.update_self ..

@[simp] theorem write_other (mem : Memory) {a b : UInt32} (v : UInt32) (other : b ≠ a) :
    write mem a v b = mem b :=
  Function.update_of_ne other ..

def fill (mem : Memory) (base : UInt32) : List (Nat × UInt32) → Memory
  | [] => mem
  | (i, v) :: rest => fill (write mem (word base i) v) base rest

theorem fill_append (mem : Memory) (base : UInt32) (first rest : List (Nat × UInt32)) :
    fill mem base (first ++ rest) = fill (fill mem base first) base rest := by
  induction first generalizing mem with
  | nil => rfl
  | cons p first ih => exact ih _

theorem fill_other (mem : Memory) (base : UInt32) {pairs : List (Nat × UInt32)} {a : UInt32}
    (other : ∀ p ∈ pairs, a ≠ word base p.1) : fill mem base pairs a = mem a := by
  induction pairs generalizing mem with
  | nil => rfl
  | cons p rest ih =>
    simp only [List.forall_mem_cons] at other
    rw [fill, ih _ other.2, write_other _ _ other.1]

theorem fill_outside (mem : Memory) (base : UInt32) {pairs : List (Nat × UInt32)} {i : Nat}
    (low : i < 2 ^ 30) (short : ∀ p ∈ pairs, p.1 < 2 ^ 30) (outside : i ∉ pairs.map Prod.fst) :
    fill mem base pairs (word base i) = mem (word base i) := by
  apply fill_other
  intro p inside same
  have index : i = p.1 := word_inj low (short p inside) same
  exact outside (List.mem_map.mpr ⟨p, inside, index.symm⟩)

theorem fill_inside (mem : Memory) (base : UInt32) {pairs : List (Nat × UInt32)} {i : Nat} {v : UInt32}
    (short : ∀ p ∈ pairs, p.1 < 2 ^ 30) (once : (pairs.map Prod.fst).Nodup) (inside : (i, v) ∈ pairs) :
    fill mem base pairs (word base i) = v := by
  induction pairs generalizing mem with
  | nil => cases inside
  | cons p rest ih =>
    have low := short _ inside
    simp only [List.map_cons, List.nodup_cons] at once
    simp only [List.forall_mem_cons] at short
    cases inside with
    | head => rw [fill, fill_outside _ _ low short.2 once.1, write_same]
    | tail _ later =>
      rw [fill]
      exact ih _ short.2 once.2 later

def row {n : Nat} (f : Fin n → UInt32) : List (Nat × UInt32) :=
  (List.finRange n).map fun i => (i.val, f i)

theorem row_other {n : Nat} (mem : Memory) (base : UInt32) (f : Fin n → UInt32) {a : UInt32}
    (other : ∀ i < n, a ≠ word base i) : fill mem base (row f) a = mem a := by
  apply fill_other
  intro p inside
  obtain ⟨i, -, rfl⟩ := List.mem_map.mp inside
  exact other i i.isLt

theorem row_slot {n : Nat} (mem : Memory) (base : UInt32) (f : Fin n → UInt32) (short : n ≤ 2 ^ 30)
    (i : Fin n) : fill mem base (row f) (word base i) = f i := by
  apply fill_inside
  · intro p inside
    obtain ⟨i, -, rfl⟩ := List.mem_map.mp inside
    exact Nat.lt_of_lt_of_le i.isLt short
  · have slots : (row f).map Prod.fst = (List.finRange n).map Fin.val := List.map_map
    rw [slots]
    exact (List.nodup_finRange n).map Fin.val_injective
  · exact List.mem_map.mpr ⟨i, List.mem_finRange i, rfl⟩

theorem slot_aligned (i : Nat) : 4 * UInt32.ofNat i % 4 = 0 := by
  apply UInt32.toNat_inj.mp
  simp only [UInt32.toNat_mod, UInt32.toNat_mul, UInt32.toNat_ofNat']
  change 4 * (i % 2 ^ 32) % 2 ^ 32 % 4 = 0
  omega

end Arm
