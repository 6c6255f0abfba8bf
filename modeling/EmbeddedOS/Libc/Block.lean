import EmbeddedOS.Bytes.Memory
import Mathlib.Order.Interval.Set.LinearOrder

/-! memmove.c, memcpy.c and memset.c, on byte memory, with what they return. -/
namespace EmbeddedOS.Libc
open Bytes

section Routines

/-- `while (count--) *a++ = *b++;` -/
def copyUp (mem : Mem) (a b : UInt32) : Nat → Mem
  | 0 => mem
  | count + 1 => copyUp (store mem a (load mem b 1) 1) (a + 1) (b + 1) count

/-- `while (count--) *a-- = *b--;` -/
def copyDown (mem : Mem) (a b : UInt32) : Nat → Mem
  | 0 => mem
  | count + 1 => copyDown (store mem a (load mem b 1) 1) (a - 1) (b - 1) count

def memmove (mem : Mem) (dst src count : UInt32) : Mem × UInt32 :=
  if src = dst then (mem, dst)
  else if dst < src then (copyUp mem dst src count.toNat, dst)
  else (copyDown mem (dst + (count - 1)) (src + (count - 1)) count.toNat, dst)

def aligned (ptr n : UInt32) : Prop := ptr % n = 0

instance (ptr n : UInt32) : Decidable (aligned ptr n) := inferInstanceAs (Decidable (_ = _))

/-- `d[i] = s[i];` from i on, for this many elements of this width. -/
def copyElements (mem : Mem) (d s : UInt32) (width : Nat) (i : UInt32) : Nat → Mem
  | 0 => mem
  | left + 1 =>
    let value := load mem (s + UInt32.ofNat width * i) width
    copyElements (store mem (d + UInt32.ofNat width * i) value width) d s width (i + 1) left

def memcpy (mem : Mem) (dst src nbytes : UInt32) : Mem × UInt32 :=
  if aligned dst 8 ∧ aligned src 8 ∧ aligned nbytes 8 then
    (copyElements mem dst src 8 0 (nbytes / 8).toNat, dst)
  else if aligned dst 4 ∧ aligned src 4 ∧ aligned nbytes 4 then
    (copyElements mem dst src 4 0 (nbytes / 4).toNat, dst)
  else (copyElements mem dst src 1 0 nbytes.toNat, dst)

/-- `while(n-- > 0) *p++ = c;`, with the pointer behind the last element. -/
def fillElements (mem : Mem) (p : UInt32) (c width : Nat) : Nat → Mem × UInt32
  | 0 => (mem, p)
  | n + 1 => fillElements (store mem p c width) (p + UInt32.ofNat width) c width n

/-- `while(p < e) *p++ = c;`, with the pointer at the end. -/
def fillTo (mem : Mem) (c : Nat) (p e : UInt32) : Mem × UInt32 :=
  if p < e then fillTo (store mem p c 1) c (p + 1) e else (mem, p)
termination_by e.toNat - p.toNat
decreasing_by
  rename_i below
  rw [UInt32.lt_iff_toNat_lt] at below
  have bound := e.toNat_lt
  have next : (p + 1).toNat = p.toNat + 1 := by
    rw [UInt32.toNat_add, UInt32.toNat_one]
    omega
  omega

def memset (mem : Mem) (dst : UInt32) (c : Int32) (n : UInt32) : Mem × UInt32 :=
  if n = 0 then (mem, dst)
  else if c = 0 ∧ aligned dst 8 ∧ aligned n 8 then
    fillElements mem dst c.toInt64.toUInt64.toNat 8 (n / 8).toNat
  else if c = 0 ∧ aligned dst 4 ∧ aligned n 4 then
    fillElements mem dst c.toUInt32.toNat 4 (n / 4).toNat
  else fillTo mem c.toUInt32.toUInt8.toNat dst (dst + n)

end Routines

section Purpose

/-- The range ends at the top of the address space at the latest. -/
def Range (p n : UInt32) : Prop := p.toNat + n.toNat ≤ 2 ^ 32

instance (p n : UInt32) : Decidable (Range p n) := inferInstanceAs (Decidable (_ ≤ _))

def Disjoint (dst src n : UInt32) : Prop :=
  dst.toNat + n.toNat ≤ src.toNat ∨ src.toNat + n.toNat ≤ dst.toNat

/-- The destination is the source as it was, all else is as it was, and dst is returned. -/
def Copies (mem : Mem) (dst src n : UInt32) (result : Mem × UInt32) : Prop :=
  Copied mem result.1 dst src (Set.Iio n.toNat) ∧ result.2 = dst

def lowByte (c : Int32) : UInt8 := c.toUInt32.toUInt8

/-- The range is the low byte of c, all else is as it was, and dst is returned. -/
def Fills (mem : Mem) (dst : UInt32) (c : Int32) (n : UInt32) (result : Mem × UInt32) : Prop :=
  Filled mem result.1 dst (lowByte c) (Set.Iio n.toNat) ∧ result.2 = dst

end Purpose

section Move

theorem source_offset {dst src x : UInt32} (bound : src.toNat + (x - dst).toNat < 2 ^ 32) :
    (src + (x - dst) - dst).toNat =
      if dst.toNat ≤ src.toNat + (x - dst).toNat then src.toNat + (x - dst).toNat - dst.toNat
      else 2 ^ 32 + src.toNat + (x - dst).toNat - dst.toNat := by
  have value : (src + (x - dst)).toNat = src.toNat + (x - dst).toNat := by
    rw [UInt32.toNat_add, Nat.mod_eq_of_lt bound]
  have low := dst.toNat_lt
  rw [UInt32.toNat_sub, value]
  split <;> omega

theorem next_address (p : UInt32) (i : Nat) : p + UInt32.ofNat i + 1 = p + UInt32.ofNat (i + 1) := by
  rw [UInt32.ofNat_add]
  grind

theorem copyUp_copied (mem : Mem) {dst src : UInt32} {n i left : Nat} (small : n ≤ 2 ^ 32)
    (later : ∀ x, (x - dst).toNat < n → (x - dst).toNat ≤ (src + (x - dst) - dst).toNat)
    (total : i + left = n) :
    Copied mem (copyUp mem (dst + UInt32.ofNat i) (src + UInt32.ofNat i) left) dst src (Set.Ico i n) := by
  induction left generalizing mem i with
  | zero =>
    rw [copyUp, Set.Ico_eq_empty (by omega)]
    exact copied_none mem dst src
  | succ left ih =>
    have first := copied_access mem dst src i 1 (by omega)
    have total' : i + 1 + left = n := by omega
    have rest := ih (store mem (dst + UInt32.ofNat i) (load mem (src + UInt32.ofNat i) 1) 1) total'
    rw [← next_address, ← next_address] at rest
    rw [copyUp, ← Set.Ico_union_Ico_eq_Ico (b := i + 1) (by omega) (by omega)]
    apply first.and_then rest
    intro x inside hit
    have behind := later x inside.2
    have here := hit.2
    have there := inside.1
    omega

theorem copyDown_copied (mem : Mem) {dst src : UInt32} {n left : Nat} (small : n ≤ 2 ^ 32)
    (earlier : ∀ x, (x - dst).toNat < n → (src + (x - dst) - dst).toNat ≤ (x - dst).toNat ∨
      n ≤ (src + (x - dst) - dst).toNat)
    (part : left ≤ n) :
    Copied mem (copyDown mem (dst + UInt32.ofNat left - 1) (src + UInt32.ofNat left - 1) left) dst src
      (Set.Ico 0 left) := by
  induction left generalizing mem with
  | zero =>
    rw [copyDown, Set.Ico_self]
    exact copied_none mem dst src
  | succ left ih =>
    have back (p : UInt32) : p + UInt32.ofNat (left + 1) - 1 = p + UInt32.ofNat left := by
      rw [← next_address]
      grind
    have first := copied_access mem dst src left 1 (by omega)
    have rest := ih (store mem (dst + UInt32.ofNat left) (load mem (src + UInt32.ofNat left) 1) 1)
      (by omega)
    rw [copyDown, back, back, ← Set.Ico_union_Ico_eq_Ico (b := left) (by omega) (by omega),
      Set.union_comm]
    apply first.and_then rest
    intro x inside hit
    have before := inside.2
    rcases earlier x (by omega) with ahead | beyond
    · exact absurd hit.1 (by omega)
    · exact absurd hit.2 (by omega)

theorem memmove_copies {mem : Mem} {dst src n : UInt32} (target : Range dst n) (source : Range src n) :
    Copies mem dst src n (memmove mem dst src n) := by
  unfold Range at target source
  have all : Set.Iio n.toNat = Set.Ico 0 n.toNat := by
    ext k
    simp
  have small : n.toNat ≤ 2 ^ 32 := by omega
  rw [memmove]
  split
  · rename_i same
    subst same
    refine ⟨⟨fun x _ => ?_, fun _ _ => rfl⟩, rfl⟩
    have here : src + (x - src) = x := by grind
    rw [here]
  · rename_i other
    have differ : src.toNat ≠ dst.toNat := fun same => other (UInt32.toNat_inj.mp same)
    split
    · rename_i above
      rw [UInt32.lt_iff_toNat_lt] at above
      have later (x : UInt32) (inside : (x - dst).toNat < n.toNat) :
          (x - dst).toNat ≤ (src + (x - dst) - dst).toNat := by
        rw [source_offset (by omega)]
        split <;> omega
      have up := copyUp_copied mem small later (Nat.zero_add _)
      refine ⟨?_, rfl⟩
      rw [all]
      simpa using up
    · rename_i below
      rw [UInt32.lt_iff_toNat_lt] at below
      have earlier (x : UInt32) (inside : (x - dst).toNat < n.toNat) :
          (src + (x - dst) - dst).toNat ≤ (x - dst).toNat ∨
            n.toNat ≤ (src + (x - dst) - dst).toNat := by
        rw [source_offset (by omega)]
        split <;> omega
      have down := copyDown_copied mem small earlier (Nat.le_refl _)
      have last (p : UInt32) : p + UInt32.ofNat n.toNat - 1 = p + (n - 1) := by
        rw [UInt32.ofNat_toNat]
        grind
      rw [last, last] at down
      refine ⟨?_, rfl⟩
      rw [all]
      exact down

end Move

section Copy

theorem element_address (p : UInt32) (width i : Nat) :
    p + UInt32.ofNat width * UInt32.ofNat i = p + UInt32.ofNat (width * i) := by
  rw [UInt32.ofNat_mul]

theorem copyElements_copied (mem : Mem) {dst src : UInt32} {width n i left : Nat} (small : n ≤ 2 ^ 32)
    (apart : ∀ x, (x - dst).toNat < n → n ≤ (src + (x - dst) - dst).toNat)
    (total : width * (i + left) = n) :
    Copied mem (copyElements mem dst src width (UInt32.ofNat i) left) dst src (Set.Ico (width * i) n) := by
  induction left generalizing mem i with
  | zero =>
    rw [Nat.add_zero] at total
    rw [copyElements, total, Set.Ico_self]
    exact copied_none mem dst src
  | succ left ih =>
    have total' : width * (i + 1 + left) = n := by
      rw [← total, Nat.add_assoc, Nat.add_comm 1]
    have sum : width * i + width + width * left = n := by
      rw [← total', Nat.mul_add, Nat.mul_add_one]
    have next : UInt32.ofNat i + 1 = UInt32.ofNat (i + 1) := by
      rw [UInt32.ofNat_add]
      rfl
    have first := copied_access mem dst src (width * i) width (by omega)
    have rest := ih (store mem (dst + UInt32.ofNat (width * i))
      (load mem (src + UInt32.ofNat (width * i)) width) width) total'
    rw [Nat.mul_add_one] at rest
    rw [copyElements, element_address, element_address, next,
      ← Set.Ico_union_Ico_eq_Ico (b := width * i + width) (by omega) (by omega)]
    apply first.and_then rest
    intro x inside hit
    have away := apart x inside.2
    have here := hit.2
    omega

theorem copyElements_all (mem : Mem) {dst src n : UInt32} (width : UInt32)
    (whole : n.toNat % width.toNat = 0)
    (apart : ∀ x, (x - dst).toNat < n.toNat → n.toNat ≤ (src + (x - dst) - dst).toNat) :
    Copied mem (copyElements mem dst src width.toNat 0 (n / width).toNat) dst src (Set.Iio n.toNat) := by
  have total : width.toNat * (0 + (n / width).toNat) = n.toNat := by
    rw [Nat.zero_add, UInt32.toNat_div, Nat.mul_div_cancel' (Nat.dvd_of_mod_eq_zero whole)]
  have all := copyElements_copied mem (Nat.le_of_lt n.toNat_lt) apart total
  have range : Set.Iio n.toNat = Set.Ico (width.toNat * 0) n.toNat := by
    ext k
    simp
  rw [range]
  exact all

theorem aligned_iff (ptr n : UInt32) : aligned ptr n ↔ ptr.toNat % n.toNat = 0 := by
  rw [aligned, ← UInt32.toNat_inj, UInt32.toNat_mod]
  rfl

theorem memcpy_copies {mem : Mem} {dst src n : UInt32} (target : Range dst n) (source : Range src n)
    (disjoint : Disjoint dst src n) : Copies mem dst src n (memcpy mem dst src n) := by
  unfold Range at target source
  unfold Disjoint at disjoint
  have apart (x : UInt32) (inside : (x - dst).toNat < n.toNat) :
      n.toNat ≤ (src + (x - dst) - dst).toNat := by
    rw [source_offset (by omega)]
    split <;> omega
  rw [memcpy]
  split
  · rename_i eight
    exact ⟨copyElements_all mem 8 ((aligned_iff _ _).mp eight.2.2) apart, rfl⟩
  · split
    · rename_i four
      exact ⟨copyElements_all mem 4 ((aligned_iff _ _).mp four.2.2) apart, rfl⟩
    · have bytes := copyElements_all mem 1 (Nat.mod_one _) apart
      rw [UInt32.div_one] at bytes
      exact ⟨bytes, rfl⟩

end Copy

section Set

theorem fillElements_filled (mem : Mem) (dst : UInt32) {c width n i left : Nat} {byte : UInt8}
    (small : n ≤ 2 ^ 32) (bytes : ∀ j < width, UInt8.ofNat (c / 256 ^ j) = byte)
    (total : i + width * left = n) :
    Filled mem (fillElements mem (dst + UInt32.ofNat i) c width left).1 dst byte (Set.Ico i n) ∧
      (fillElements mem (dst + UInt32.ofNat i) c width left).2 = dst + UInt32.ofNat n := by
  induction left generalizing mem i with
  | zero =>
    have done : i = n := by omega
    subst done
    rw [fillElements, Set.Ico_self]
    exact ⟨filled_none mem dst byte, rfl⟩
  | succ left ih =>
    rw [Nat.mul_add_one] at total
    have next : dst + UInt32.ofNat i + UInt32.ofNat width = dst + UInt32.ofNat (i + width) := by
      rw [UInt32.ofNat_add]
      grind
    have first := filled_access mem dst i width (by omega) bytes
    have total' : i + width + width * left = n := by omega
    obtain ⟨rest, ends⟩ := ih (store mem (dst + UInt32.ofNat i) c width) total'
    rw [fillElements, next]
    refine ⟨?_, ends⟩
    rw [← Set.Ico_union_Ico_eq_Ico (b := i + width) (by omega) (by omega)]
    exact first.and_then rest

theorem fillTo_eq (mem : Mem) (c : Nat) (p e : UInt32) :
    fillTo mem c p e = fillElements mem p c 1 (e.toNat - p.toNat) := by
  induction mem, p using fillTo.induct c e with
  | case1 mem p below ih =>
    rw [fillTo, if_pos below, ih]
    rw [UInt32.lt_iff_toNat_lt] at below
    have bound := e.toNat_lt
    have next : (p + 1).toNat = p.toNat + 1 := by
      rw [UInt32.toNat_add, UInt32.toNat_one]
      omega
    have left : e.toNat - p.toNat = e.toNat - (p + 1).toNat + 1 := by omega
    rw [left, fillElements]
    rfl
  | case2 mem p done =>
    rw [fillTo, if_neg done]
    rw [UInt32.lt_iff_toNat_lt] at done
    have left : e.toNat - p.toNat = 0 := by omega
    rw [left, fillElements]

theorem fillElements_all (mem : Mem) (dst : UInt32) {c : Nat} {n : UInt32} (width : UInt32)
    {byte : UInt8} (whole : n.toNat % width.toNat = 0)
    (bytes : ∀ j < width.toNat, UInt8.ofNat (c / 256 ^ j) = byte) :
    Filled mem (fillElements mem dst c width.toNat (n / width).toNat).1 dst byte (Set.Iio n.toNat) ∧
      (fillElements mem dst c width.toNat (n / width).toNat).2 = dst + n := by
  have total : 0 + width.toNat * (n / width).toNat = n.toNat := by
    rw [Nat.zero_add, UInt32.toNat_div, Nat.mul_div_cancel' (Nat.dvd_of_mod_eq_zero whole)]
  have all := fillElements_filled mem dst (Nat.le_of_lt n.toNat_lt) bytes total
  have range : Set.Iio n.toNat = Set.Ico 0 n.toNat := by
    ext k
    simp
  have start : dst + UInt32.ofNat 0 = dst := UInt32.add_zero dst
  rw [start, UInt32.ofNat_toNat] at all
  rw [range]
  exact all

/-- The byte loop does not run for a range that ends at the top of the address space. -/
def Skips (dst : UInt32) (c : Int32) (n : UInt32) : Prop :=
  dst.toNat + n.toNat = 2 ^ 32 ∧ ¬ (c = 0 ∧ aligned dst 4 ∧ aligned n 4)

theorem aligned_four {ptr : UInt32} (eight : aligned ptr 8) : aligned ptr 4 := by
  rw [aligned_iff] at eight ⊢
  have mod8 : ptr.toNat % 8 = 0 := eight
  change ptr.toNat % 4 = 0
  omega

theorem memset_skips (mem : Mem) {dst n : UInt32} {c : Int32} (skips : Skips dst c n) :
    memset mem dst c n = (mem, dst) := by
  obtain ⟨top, bytes⟩ := skips
  have some : n ≠ 0 := by
    rintro rfl
    have bound := dst.toNat_lt
    rw [UInt32.toNat_zero] at top
    omega
  have eight : ¬ (c = 0 ∧ aligned dst 8 ∧ aligned n 8) := fun ⟨zero, left, right⟩ =>
    bytes ⟨zero, aligned_four left, aligned_four right⟩
  have wraps : ¬ dst < dst + n := by
    rw [UInt32.lt_iff_toNat_lt, UInt32.toNat_add, top]
    omega
  rw [memset, if_neg some, if_neg eight, if_neg bytes, fillTo, if_neg wraps]

theorem memset_runs (mem : Mem) {dst n : UInt32} {c : Int32} (range : Range dst n)
    (runs : ¬ Skips dst c n) :
    Filled mem (memset mem dst c n).1 dst (lowByte c) (Set.Iio n.toNat) ∧
      (memset mem dst c n).2 = dst + n := by
  rw [memset]
  split
  · rename_i none
    subst none
    have empty : Set.Iio (0 : UInt32).toNat = ∅ := by
      ext k
      simp
    rw [empty]
    exact ⟨filled_none mem dst _, (UInt32.add_zero dst).symm⟩
  · split
    · rename_i eight
      obtain ⟨rfl, _, whole⟩ := eight
      apply fillElements_all mem dst 8 ((aligned_iff _ _).mp whole)
      intro j _
      exact congrArg UInt8.ofNat (Nat.zero_div _)
    · split
      · rename_i four
        obtain ⟨rfl, _, whole⟩ := four
        apply fillElements_all mem dst 4 ((aligned_iff _ _).mp whole)
        intro j _
        exact congrArg UInt8.ofNat (Nat.zero_div _)
      · rename_i bytes
        have below : dst.toNat + n.toNat < 2 ^ 32 :=
          Nat.lt_of_le_of_ne range fun top => runs ⟨top, bytes⟩
        have count : (dst + n).toNat - dst.toNat = (n / 1).toNat := by
          rw [UInt32.toNat_add, Nat.mod_eq_of_lt below, UInt32.div_one]
          omega
        rw [fillTo_eq, count]
        apply fillElements_all mem dst 1 (Nat.mod_one _)
        intro j one
        have first : j = 0 := Nat.lt_one_iff.mp one
        rw [first, Nat.pow_zero, Nat.div_one, UInt8.ofNat_toNat]
        rfl

/-- The range is filled, unless the loop does not run and the bytes are other ones. -/
theorem memset_fills_iff (mem : Mem) {dst n : UInt32} (c : Int32) (range : Range dst n) :
    Filled mem (memset mem dst c n).1 dst (lowByte c) (Set.Iio n.toNat) ↔
      (Skips dst c n → ∀ x, (x - dst).toNat < n.toNat → mem x = lowByte c) := by
  by_cases skips : Skips dst c n
  · rw [memset_skips mem skips]
    constructor
    · intro filled _ x inside
      exact filled.inside x inside
    · intro already
      exact ⟨already skips, fun _ _ => rfl⟩
  · exact iff_of_true (memset_runs mem range skips).1 fun skip => absurd skip skips

theorem memset_returns_iff (mem : Mem) {dst n : UInt32} (c : Int32) (range : Range dst n) :
    (memset mem dst c n).2 = dst ↔ n = 0 ∨ Skips dst c n := by
  by_cases skips : Skips dst c n
  · rw [memset_skips mem skips]
    exact iff_of_true rfl (Or.inr skips)
  · rw [(memset_runs mem range skips).2, or_iff_left skips]
    constructor
    · intro same
      grind
    · rintro rfl
      exact UInt32.add_zero dst

end Set

section Results

/-- memmove and memcpy do what they are for; memset does so only for n = 0, or where it does nothing
and nothing was to be done. -/
theorem block_routines_iff (mem : Mem) {dst src n : UInt32} (c : Int32) (target : Range dst n)
    (source : Range src n) :
    Copies mem dst src n (memmove mem dst src n) ∧
    (Disjoint dst src n → Copies mem dst src n (memcpy mem dst src n)) ∧
    (Fills mem dst c n (memset mem dst c n) ↔
      n = 0 ∨ (Skips dst c n ∧ ∀ x, (x - dst).toNat < n.toNat → mem x = lowByte c)) := by
  refine ⟨memmove_copies target source, memcpy_copies target source, ?_⟩
  rw [Fills, memset_fills_iff mem c target, memset_returns_iff mem c target]
  constructor
  · rintro ⟨filled, none | skips⟩
    · exact Or.inl none
    · exact Or.inr ⟨skips, filled skips⟩
  · rintro (none | ⟨skips, already⟩)
    · subst none
      exact ⟨fun _ x inside => absurd inside (Nat.not_lt_zero _), Or.inl rfl⟩
    · exact ⟨fun _ => already, Or.inr skips⟩

def countingMem : Mem := fun a => a.toUInt8

theorem eight_bytes_copied :
    Copies countingMem 0x9000 0x8000 8 (memmove countingMem 0x9000 0x8000 8) ∧
    Copies countingMem 0x9000 0x8000 8 (memcpy countingMem 0x9000 0x8000 8) ∧
    ¬ Fills countingMem 0x9000 0x41 8 (memset countingMem 0x9000 0x41 8) := by
  have target : Range 0x9000 8 := by decide
  have source : Range 0x8000 8 := by decide
  obtain ⟨moves, copies, fills⟩ := block_routines_iff countingMem 0x41 target source
  refine ⟨moves, copies (Or.inr (by decide)), ?_⟩
  rw [fills]
  rintro (none | ⟨⟨top, _⟩, _⟩)
  · exact absurd none (by decide)
  · exact absurd top (by decide)

theorem cleared_word_returns_end : ¬ Fills countingMem 0x8000 0 4 (memset countingMem 0x8000 0 4) := by
  rintro ⟨_, returned⟩
  rw [memset_returns_iff countingMem 0 (show Range 0x8000 4 by decide)] at returned
  rcases returned with none | ⟨top, _⟩
  · exact absurd none (by decide)
  · exact absurd top (by decide)

end Results

end EmbeddedOS.Libc
