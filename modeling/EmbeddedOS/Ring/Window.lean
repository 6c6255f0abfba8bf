import Mathlib.Data.Fin.Basic
import Mathlib.Data.Nat.ModEq
import Mathlib.Logic.Function.Basic

/-! Positions on a ring of N slots, and the list that stands between two of them. -/
namespace Ring

variable {α : Type} {N : Nat}

/-- How far it is from one slot to another. -/
def gap (first last : Fin N) : Nat := (last.val + N - first.val) % N

theorem gap_lt (first last : Fin N) : gap first last < N := Nat.mod_lt _ first.pos

@[simp] theorem gap_self (i : Fin N) : gap i i = 0 := by
  rw [gap, Nat.add_sub_cancel_left, Nat.mod_self]

variable [NeZero N]

def slot (start : Fin N) (i : Nat) : Fin N := Fin.ofNat N (start.val + i)

def next (i : Fin N) : Fin N := slot i 1

/-- The n values from a slot on. -/
def window (buf : Fin N → α) (start : Fin N) (n : Nat) : List α :=
  (List.range n).map fun i => buf (slot start i)

theorem slot_val (start : Fin N) (i : Nat) : (slot start i).val = (start.val + i) % N := rfl

theorem next_val (i : Fin N) : (next i).val = (i.val + 1) % N := rfl

@[simp] theorem slot_zero (start : Fin N) : slot start 0 = start := by
  apply Fin.ext
  rw [slot_val, Nat.add_zero, Nat.mod_eq_of_lt start.isLt]

theorem slot_next (start : Fin N) (i : Nat) : slot (next start) i = slot start (i + 1) := by
  apply Fin.ext
  rw [slot_val, slot_val, next_val, Nat.mod_add_mod, Nat.add_assoc, Nat.add_comm 1]

theorem next_slot (start : Fin N) (i : Nat) : next (slot start i) = slot start (i + 1) := by
  apply Fin.ext
  rw [next_val, slot_val, slot_val, Nat.mod_add_mod, Nat.add_assoc]

theorem slot_inj {start : Fin N} {i j : Nat} (first : i < N) (second : j < N)
    (same : slot start i = slot start j) : i = j := by
  have values := congrArg Fin.val same
  rw [slot_val, slot_val] at values
  exact (Nat.ModEq.add_left_cancel' start.val values).eq_of_lt_of_lt first second

theorem slot_gap (first last : Fin N) : slot first (gap first last) = last := by
  have bound := last.isLt
  have bound' := first.isLt
  apply Fin.ext
  rw [slot_val, gap, Nat.add_mod_mod]
  have whole : first.val + (last.val + N - first.val) = last.val + N := by omega
  rw [whole, Nat.add_mod_right, Nat.mod_eq_of_lt bound]

theorem gap_slot (start : Fin N) {i : Nat} (small : i < N) : gap start (slot start i) = i :=
  slot_inj (gap_lt _ _) small (slot_gap start _)

theorem gap_eq_zero {first last : Fin N} : gap first last = 0 ↔ first = last := by
  constructor
  · intro zero
    rw [← slot_gap first last, zero, slot_zero]
  · rintro rfl
    exact gap_self first

theorem gap_pos {first last : Fin N} : 0 < gap first last ↔ last ≠ first := by
  rw [Nat.pos_iff_ne_zero, Ne, gap_eq_zero, eq_comm]

theorem gap_next_last {first last : Fin N} (room : gap first last + 1 < N) :
    gap first (next last) = gap first last + 1 := by
  conv_lhs => rw [← slot_gap first last, next_slot]
  exact gap_slot first room

theorem gap_next_first {first last : Fin N} (some_left : 0 < gap first last) :
    gap (next first) last + 1 = gap first last := by
  obtain ⟨n, count⟩ := Nat.exists_eq_succ_of_ne_zero (Nat.pos_iff_ne_zero.mp some_left)
  have bound := gap_lt first last
  have place : slot (next first) n = last := by rw [slot_next, ← Nat.succ_eq_add_one, ← count, slot_gap]
  conv_lhs => rw [← place]
  rw [gap_slot (next first) (by omega), count]

/-- The slot behind the last one is the first exactly when only one slot is free. -/
theorem next_eq_iff (first last : Fin N) : next last = first ↔ gap first last + 1 = N := by
  have bound := gap_lt first last
  have place : next last = slot first (gap first last + 1) := by
    conv_lhs => rw [← slot_gap first last, next_slot]
  constructor
  · intro same
    by_contra room
    rw [place] at same
    have zero : gap first last + 1 = 0 :=
      slot_inj (by omega) first.pos (same.trans (slot_zero first).symm)
    omega
  · intro full
    rw [place, full]
    apply Fin.ext
    rw [slot_val, Nat.add_mod_right, Nat.mod_eq_of_lt first.isLt]

@[simp] theorem window_zero (buf : Fin N → α) (start : Fin N) : window buf start 0 = [] := rfl

@[simp] theorem window_length (buf : Fin N → α) (start : Fin N) (n : Nat) :
    (window buf start n).length = n := by simp [window]

theorem window_succ (buf : Fin N → α) (start : Fin N) (n : Nat) :
    window buf start (n + 1) = window buf start n ++ [buf (slot start n)] := by
  simp [window, List.range_succ]

theorem window_cons (buf : Fin N → α) (start : Fin N) (n : Nat) :
    window buf start (n + 1) = buf start :: window buf (next start) n := by
  simp [window, List.range_succ_eq_map, slot_next, Function.comp_def]

theorem window_update (buf : Fin N → α) (start : Fin N) {n : Nat} (x : α) (room : n < N) :
    window (Function.update buf (slot start n) x) start n = window buf start n := by
  apply List.map_congr_left
  intro i member
  have less := List.mem_range.mp member
  apply Function.update_of_ne
  intro same
  have equal := slot_inj (by omega) room same
  omega

end Ring
