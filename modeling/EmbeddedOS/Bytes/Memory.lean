import Mathlib.Order.Interval.Set.Basic
import Mathlib.Algebra.Group.Nat.Defs

/-! Byte memory with 32-bit addresses: accesses of several bytes, and ranges copied or filled. -/
namespace EmbeddedOS.Bytes

abbrev Mem := UInt32 → UInt8

section Offsets

theorem offset_after {x a i : UInt32} (before : i.toNat ≤ (x - a).toNat) :
    (x - (a + i)).toNat = (x - a).toNat - i.toNat := by
  have split : x - (a + i) = x - a - i := by grind
  rw [split, UInt32.toNat_sub_of_le _ _ (UInt32.le_iff_toNat_le.mpr before)]

theorem offset_before {x a i : UInt32} (after : (x - a).toNat < i.toNat) :
    (x - (a + i)).toNat = 2 ^ 32 + (x - a).toNat - i.toNat := by
  have split : x - (a + i) = x - a - i := by grind
  have bound := i.toNat_lt
  rw [split, UInt32.toNat_sub]
  omega

theorem offset_zero {x a : UInt32} (none : (x - a).toNat = 0) : x = a := by
  have zero : x - a = 0 := UInt32.toNat_inj.mp none
  grind

theorem offset_within {x a : UInt32} {i k : Nat} (bound : i + k ≤ 2 ^ 32) :
    (x - (a + UInt32.ofNat i)).toNat < k ↔ (x - a).toNat ∈ Set.Ico i (i + k) := by
  rw [Set.mem_Ico]
  by_cases none : k = 0
  · omega
  · have value : (UInt32.ofNat i).toNat = i := by
      rw [UInt32.toNat_ofNat', Nat.mod_eq_of_lt (by omega)]
    by_cases before : i ≤ (x - a).toNat
    · rw [offset_after (value.symm ▸ before), value]
      omega
    · rw [offset_before (by omega), value]
      omega

end Offsets

section Access

def write (mem : Mem) (a : UInt32) (v : UInt8) : Mem := fun x => if x = a then v else mem x

def load (mem : Mem) (a : UInt32) : Nat → Nat
  | 0 => 0
  | width + 1 => (mem a).toNat + 256 * load mem (a + 1) width

def store (mem : Mem) (a : UInt32) (v : Nat) : Nat → Mem
  | 0 => mem
  | width + 1 => store (write mem a (UInt8.ofNat v)) (a + 1) (v / 256) width

theorem load_byte {mem : Mem} {a : UInt32} {width i : Nat} (inside : i < width) :
    UInt8.ofNat (load mem a width / 256 ^ i) = mem (a + UInt32.ofNat i) := by
  induction width generalizing a i with
  | zero => omega
  | succ width ih =>
    cases i with
    | zero =>
      have byte := (mem a).toNat_lt
      have sum : UInt8.ofNat (load mem a (width + 1)) = mem a := by
        rw [← UInt8.toNat_inj, UInt8.toNat_ofNat', load]
        omega
      simpa using sum
    | succ i =>
      have byte := (mem a).toNat_lt
      have rest : load mem a (width + 1) / 256 ^ (i + 1) = load mem (a + 1) width / 256 ^ i := by
        rw [Nat.pow_succ', ← Nat.div_div_eq_div_mul, load]
        congr 1
        omega
      rw [rest, ih (by omega), UInt32.ofNat_add]
      congr 1
      grind

theorem store_apply {mem : Mem} {a x : UInt32} {v width : Nat} (bound : width ≤ 2 ^ 32) :
    store mem a v width x =
      if (x - a).toNat < width then UInt8.ofNat (v / 256 ^ (x - a).toNat) else mem x := by
  induction width generalizing mem a v with
  | zero => rfl
  | succ width ih =>
    rw [store, ih (by omega)]
    by_cases first : (x - a).toNat = 0
    · have same := offset_zero first
      have last : (x - (a + 1)).toNat = 2 ^ 32 - 1 := by
        rw [offset_before (by rw [first]; decide), first]
        rfl
      rw [if_neg (by omega), if_pos (by omega), first, write, if_pos same]
      simp
    · have next : (x - (a + 1)).toNat = (x - a).toNat - 1 := offset_after (Nat.pos_of_ne_zero first)
      obtain ⟨i, offset⟩ := Nat.exists_eq_succ_of_ne_zero first
      have other : x ≠ a := by
        rintro rfl
        simp at first
      rw [next, offset, Nat.succ_sub_one, write, if_neg other, Nat.pow_succ', Nat.div_div_eq_div_mul]
      simp only [Nat.succ_lt_succ_iff]

end Access

section Ranges

/-- From mem to mem', the bytes at these offsets from src have come to the same offsets from dst. -/
structure Copied (mem mem' : Mem) (dst src : UInt32) (done : Set Nat) : Prop where
  inside : ∀ x, (x - dst).toNat ∈ done → mem' x = mem (src + (x - dst))
  outside : ∀ x, (x - dst).toNat ∉ done → mem' x = mem x

/-- From mem to mem', the bytes at these offsets from dst have become v. -/
structure Filled (mem mem' : Mem) (dst : UInt32) (v : UInt8) (done : Set Nat) : Prop where
  inside : ∀ x, (x - dst).toNat ∈ done → mem' x = v
  outside : ∀ x, (x - dst).toNat ∉ done → mem' x = mem x

theorem copied_none (mem : Mem) (dst src : UInt32) : Copied mem mem dst src ∅ :=
  ⟨fun _ inside => inside.elim, fun _ _ => rfl⟩

theorem filled_none (mem : Mem) (dst : UInt32) (v : UInt8) : Filled mem mem dst v ∅ :=
  ⟨fun _ inside => inside.elim, fun _ _ => rfl⟩

/-- Two copies together, where the first writes nothing that the second reads. -/
theorem Copied.and_then {mem mem' mem'' : Mem} {dst src : UInt32} {first second : Set Nat}
    (before : Copied mem mem' dst src first) (after : Copied mem' mem'' dst src second)
    (kept : ∀ x, (x - dst).toNat ∈ second → (src + (x - dst) - dst).toNat ∉ first) :
    Copied mem mem'' dst src (first ∪ second) where
  inside x inside := by
    by_cases late : (x - dst).toNat ∈ second
    · rw [after.inside x late, before.outside _ (kept x late)]
    · rw [after.outside x late, before.inside x (inside.resolve_right late)]
  outside x outside := by
    rw [Set.mem_union, not_or] at outside
    rw [after.outside x outside.2, before.outside x outside.1]

theorem Filled.and_then {mem mem' mem'' : Mem} {dst : UInt32} {v : UInt8} {first second : Set Nat}
    (before : Filled mem mem' dst v first) (after : Filled mem' mem'' dst v second) :
    Filled mem mem'' dst v (first ∪ second) where
  inside x inside := by
    by_cases late : (x - dst).toNat ∈ second
    · exact after.inside x late
    · rw [after.outside x late, before.inside x (inside.resolve_right late)]
  outside x outside := by
    rw [Set.mem_union, not_or] at outside
    rw [after.outside x outside.2, before.outside x outside.1]

theorem copied_access (mem : Mem) (dst src : UInt32) (i width : Nat) (bound : i + width ≤ 2 ^ 32) :
    Copied mem (store mem (dst + UInt32.ofNat i) (load mem (src + UInt32.ofNat i) width) width) dst src
      (Set.Ico i (i + width)) where
  inside x inside := by
    have within := (offset_within bound).mpr inside
    have source : src + UInt32.ofNat i + (x - (dst + UInt32.ofNat i)) = src + (x - dst) := by grind
    rw [store_apply (by omega), if_pos within, load_byte within, UInt32.ofNat_toNat, source]
  outside x outside := by
    rw [store_apply (by omega), if_neg ((offset_within bound).not.mpr outside)]

theorem filled_access (mem : Mem) (dst : UInt32) (i width : Nat) {v : Nat} {byte : UInt8}
    (bound : i + width ≤ 2 ^ 32) (bytes : ∀ j < width, UInt8.ofNat (v / 256 ^ j) = byte) :
    Filled mem (store mem (dst + UInt32.ofNat i) v width) dst byte (Set.Ico i (i + width)) where
  inside x inside := by
    have within := (offset_within bound).mpr inside
    rw [store_apply (by omega), if_pos within, bytes _ within]
  outside x outside := by
    rw [store_apply (by omega), if_neg ((offset_within bound).not.mpr outside)]

end Ranges

end EmbeddedOS.Bytes
