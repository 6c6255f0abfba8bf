import EmbeddedOS.Circular.Spsc

/-! The counts of circular.h and circular-T.h for any capacity. -/
namespace EmbeddedOS.Circular
open Ring Steps

variable {α : Type} {N : Nat}

theorem nelem_ordered (small : N < 2 ^ 32) {head tail : Fin N} (ordered : tail ≤ head) :
    nelem head tail = gap tail head := by
  have le : tail.val ≤ head.val := ordered
  have bound := head.isLt
  rw [nelem, gap]
  have word : head.val + 2 ^ 32 - tail.val = (head.val - tail.val) + 2 ^ 32 := by omega
  have ring : head.val + N - tail.val = (head.val - tail.val) + N := by omega
  rw [word, ring, Nat.add_mod_right, Nat.add_mod_right, Nat.mod_eq_of_lt (a := head.val - tail.val)
    (b := 2 ^ 32) (by omega)]

theorem nelem_wrapped (small : N < 2 ^ 32) {head tail : Fin N} (wrapped : head < tail)
    (right : nelem head tail = gap tail head) : N ∣ 2 ^ 32 := by
  have less : head.val < tail.val := wrapped
  have bound := tail.isLt
  rw [nelem, gap, Nat.mod_eq_of_lt (a := head.val + 2 ^ 32 - tail.val) (by omega)] at right
  have whole : N ∣ (head.val + 2 ^ 32 - tail.val) - (head.val + N - tail.val) :=
    (Nat.modEq_iff_dvd' (by omega)).mp right.symm
  have rest : (head.val + 2 ^ 32 - tail.val) - (head.val + N - tail.val) = 2 ^ 32 - N := by omega
  rw [rest] at whole
  have sum := Nat.dvd_add whole (Nat.dvd_refl N)
  rwa [Nat.sub_add_cancel (Nat.le_of_lt small)] at sum

variable [NeZero N]

def cqFull (q : Cq α N) : Bool := next q.head = q.tail

/-- `_get`, whose index is an unsigned word before it is reduced. -/
def get (q : Cq α N) (i : Nat) : Option α :=
  if nelem q.head q.tail ≤ i then none
  else some (q.buf (Fin.ofNat N ((q.tail.val + i) % 2 ^ 32)))

/-- The counts and `_get`, beside the values pushed and not yet popped. -/
structure CountsRight (s : Spsc α N) : Prop where
  nelem : nelem s.q.head s.q.tail = s.pushed.length - s.popped.length
  nspace : nspace s.q.head s.q.tail = N - 1 - (s.pushed.length - s.popped.length)
  full : cqFull s.q = true ↔ s.pushed.length - s.popped.length = N - 1
  get : ∀ i < 2 ^ 32, get s.q i = (s.pushed.drop s.popped.length)[i]?

omit [NeZero N] in
theorem nelem_iff (small : N < 2 ^ 32) (head tail : Fin N) :
    nelem head tail = gap tail head ↔ N ∣ 2 ^ 32 ∨ tail ≤ head := by
  constructor
  · intro right
    by_cases ordered : tail ≤ head
    · exact Or.inr ordered
    · exact Or.inl (nelem_wrapped small (Fin.not_le.mp ordered) right)
  · rintro (whole | ordered)
    · exact nelem_eq_gap whole head tail
    · exact nelem_ordered small ordered

theorem contents_get (q : Cq α N) {i : Nat} (inside : i < gap q.tail q.head) :
    q.contents[i]? = some (q.buf (slot q.tail i)) := by
  simp [Cq.contents, window, inside]

theorem get_right (small : N < 2 ^ 32) (q : Cq α N) (fits : N ∣ 2 ^ 32 ∨ q.tail ≤ q.head)
    (i : Nat) :
    get q i = q.contents[i]? := by
  have count := (nelem_iff small q.head q.tail).mpr fits
  have last := gap_lt q.tail q.head
  unfold get
  rw [count]
  by_cases beyond : gap q.tail q.head ≤ i
  · rw [if_pos beyond, List.getElem?_eq_none]
    rw [q.contents_length]
    exact beyond
  · have bound := q.tail.isLt
    have top := q.head.isLt
    have room : q.tail.val + i < 2 ^ 32 := by
      rcases fits with ⟨k, whole⟩ | ordered
      · have two : 2 ≤ k := by
          by_contra few
          have at_most : N * k ≤ N * 1 := Nat.mul_le_mul_left N (by omega)
          omega
        have double : N * 2 ≤ N * k := Nat.mul_le_mul_left N two
        omega
      · have le : q.tail.val ≤ q.head.val := ordered
        have distance : gap q.tail q.head = q.head.val - q.tail.val := by
          have ring : q.head.val + N - q.tail.val = (q.head.val - q.tail.val) + N := by omega
          rw [gap, ring, Nat.add_mod_right, Nat.mod_eq_of_lt (by omega)]
        omega
    rw [if_neg beyond, contents_get q (Nat.lt_of_not_le beyond), Nat.mod_eq_of_lt room]
    rfl

/-- The counts are right for the capacities that divide 2^32, and for all others as long as the
head has not wrapped around behind the tail. -/
theorem counts_iff (asserts : Bool) (large : 2 ≤ N) (small : N < 2 ^ 32) (buf : Fin N → α)
    (schedule : List (Side α)) :
    let s := run (step asserts) (start buf) schedule
    CountsRight s ↔ N ∣ 2 ^ 32 ∨ s.q.tail ≤ s.q.head := by
  intro s
  have inv : Inv s := run_inv asserts buf schedule
  have stream := inv.stream
  have count : s.pushed.length - s.popped.length = gap s.q.tail s.q.head := by
    rw [stream, List.length_append, Nat.add_sub_cancel_left, s.q.contents_length]
  have left : s.pushed.drop s.popped.length = s.q.contents := by rw [stream, List.drop_left]
  constructor
  · intro right
    exact (nelem_iff small _ _).mp (right.nelem.trans count)
  · intro fits
    have same := (nelem_iff small s.q.head s.q.tail).mpr fits
    refine ⟨same.trans count.symm, ?_, ?_, ?_⟩
    · rw [nspace, same, count]
    · rw [count, cqFull, decide_eq_true_eq, next_eq_iff]
      omega
    · intro i _
      rw [left]
      exact get_right small s.q fits i

theorem six_slots_count :
    let s := run (step false) (start fun _ : Fin 6 => (0 : UInt8)) (List.replicate 5 (.push 7))
    CountsRight s :=
  (counts_iff false (by decide) (by decide) _ _).mpr (Or.inr (by decide))

/-- Six slots, one push and one pop at a time: when the head comes back to the first slot the
difference 0 - 5 counts as five. -/
theorem six_slots_miscount :
    let s := run (step false) (start fun _ : Fin 6 => (0 : UInt8))
      ((List.replicate 5 (List.replicate 5 (.push 7) ++ List.replicate 5 .pop)).flatten ++
        List.replicate 5 (.push 7))
    s.pushed.length - s.popped.length = 1 ∧ nelem s.q.head s.q.tail = 5 ∧ ¬ CountsRight s := by
  intro s
  have one : s.pushed.length - s.popped.length = 1 := by decide
  have five : nelem s.q.head s.q.tail = 5 := by decide
  refine ⟨one, five, ?_⟩
  intro right
  have same := right.nelem
  rw [one, five] at same
  exact absurd same (by decide)

end EmbeddedOS.Circular
