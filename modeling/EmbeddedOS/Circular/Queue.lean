import EmbeddedOS.Ring.Window
import Mathlib.Data.Nat.ModEq

/-! The queue of circular.h and circular-T.h, with CQ_N slots of some type: what is in it,
and the tests on its indices. -/
namespace EmbeddedOS.Circular
open Ring

def CQ_N : Nat := 8192

instance : NeZero CQ_N := ⟨by decide⟩

theorem CQ_N_whole : CQ_N ∣ 2 ^ 32 := by decide

variable {α : Type} {N : Nat}

structure Cq (α : Type) (N : Nat) where
  buf : Fin N → α
  head : Fin N
  tail : Fin N

/-- `(head - tail) % CQ_N`, with unsigned words. -/
def nelem (head tail : Fin N) : Nat := (head.val + 2 ^ 32 - tail.val) % 2 ^ 32 % N

def nspace (head tail : Fin N) : Nat := N - 1 - nelem head tail

/-- The count is right where the words wrap around with the ring. -/
theorem nelem_eq_gap (whole : N ∣ 2 ^ 32) (head tail : Fin N) :
    nelem head tail = gap tail head := by
  obtain ⟨k, count⟩ := whole
  have bound := tail.isLt
  have positive : 0 < k := Nat.pos_of_mul_pos_left (by rw [← count]; decide)
  have more : N ≤ N * k := Nat.le_mul_of_pos_right N positive
  rw [nelem, Nat.mod_mod_of_dvd _ ⟨k, count⟩, gap, count]
  have split : head.val + N * k - tail.val = head.val + N - tail.val + N * (k - 1) := by
    rw [Nat.mul_sub_one]
    omega
  rw [split, Nat.add_mul_mod_self_left]

variable [NeZero N]

def Cq.contents (q : Cq α N) : List α := window q.buf q.tail (gap q.tail q.head)

theorem Cq.contents_length (q : Cq α N) : q.contents.length = gap q.tail q.head := window_length _ _ _

theorem Cq.contents_short (q : Cq α N) : q.contents.length ≤ N - 1 := by
  have bound := gap_lt q.tail q.head
  rw [q.contents_length]
  omega

theorem Cq.store_contents (q : Cq α N) (x : α) :
    ({ q with buf := Function.update q.buf q.head x } : Cq α N).contents = q.contents := by
  have outside := window_update q.buf q.tail x (gap_lt q.tail q.head)
  rw [slot_gap] at outside
  exact outside

theorem Cq.advance_head (q : Cq α N) (room : gap q.tail q.head + 1 < N) :
    ({ q with head := next q.head } : Cq α N).contents = q.contents ++ [q.buf q.head] := by
  change window q.buf q.tail (gap q.tail (next q.head)) = _
  rw [gap_next_last room, window_succ, slot_gap]
  rfl

theorem Cq.advance_tail (q : Cq α N) (some_left : 0 < gap q.tail q.head) :
    q.contents = q.buf q.tail :: ({ q with tail := next q.tail } : Cq α N).contents := by
  rw [Cq.contents, ← gap_next_first some_left, window_cons]
  rfl

end EmbeddedOS.Circular
