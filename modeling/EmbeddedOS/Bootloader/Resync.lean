import EmbeddedOS.Bootloader.Atomicity
import EmbeddedOS.Bootloader.UnixRun

/-! Step 0 of simple_boot against a line that starts with garbage.
A round that fails takes five bytes, which is one more than a word, so the rounds
come past every place that a word can start at. -/
namespace EmbeddedOS.Bootloader
open Serial Serial.Node

def initialDrain : Unix Unit :=
  .iter (fun _ => do
    let op ← getOp
    if op = GET_PROG_INFO then pure (.inr ())
    else do
      let _ ← getUint8
      pure (.inl ())) ()

theorem simpleBoot_drains {w : List UInt8} {c d : Ctx UInt32 (List UInt8)} (bootAddr : UInt32)
    (buf : List UInt8) (n : UInt32) (drained : Does w initialDrain c () d) :
    Steps w ⟨simpleBoot bootAddr buf n, c⟩ ⟨supply buf n, d.say (header buf n)⟩ := by
  rw [header, ← Ctx.say_say, ← Ctx.say_say, ← Ctx.say_say]
  exact drained.andThen <| (putUint32_does _ _).andThen <| (putUint32_does _ _).andThen <|
    (putUint32_does _ _).andThen <| (putUint32_does _ _).andThen .refl

namespace Stream

variable (s : Stream)

/-- The word that starts at any byte. -/
def window (i : Nat) : UInt32 := leWord (s i) (s (i + 1)) (s (i + 2)) (s (i + 3))

theorem unread_upTo {c : Ctx UInt32 (List UInt8)} {j k : Nat} (inside : c.taken + j ≤ k) :
    ∃ xs, c.Unread (s.upTo k) ((List.range j).map (fun i => s (c.taken + i)) ++ xs) := by
  obtain ⟨more, rfl⟩ := Nat.exists_eq_add_of_le inside
  refine ⟨(List.range more).map fun i => s (c.taken + j + i), ?_⟩
  rw [upTo_add, upTo_add, List.append_assoc]
  apply Ctx.unread_after
  simp [upTo]

theorem unread_window {c : Ctx UInt32 (List UInt8)} {k : Nat} (inside : c.taken + 4 ≤ k) :
    ∃ xs, c.Unread (s.upTo k) (leBytes (s.window c.taken) ++ xs) := by
  obtain ⟨xs, unread⟩ := s.unread_upTo inside
  refine ⟨xs, ?_⟩
  rw [window, leBytes_leWord]
  exact unread

theorem unread_window_byte {c : Ctx UInt32 (List UInt8)} {k : Nat} (inside : c.taken + 5 ≤ k) :
    ∃ xs, c.Unread (s.upTo k) (leBytes (s.window c.taken) ++ s (c.taken + 4) :: xs) := by
  obtain ⟨xs, unread⟩ := s.unread_upTo inside
  refine ⟨xs, ?_⟩
  rw [window, leBytes_leWord]
  exact unread

end Stream

section Rounds

variable {s : Stream} {c : Ctx UInt32 (List UInt8)} {k : Nat}

theorem initialDrain_skips {n : Node UInt32 (List UInt8) Unit}
    (silent : s.window c.taken ≠ PRINT_STRING)
    (other : s.window c.taken ≠ GET_PROG_INFO) (inside : c.taken + 5 ≤ k)
    (rest : Steps (s.upTo k) ⟨initialDrain, c.take 5⟩ n) : Steps (s.upTo k) ⟨initialDrain, c⟩ n := by
  obtain ⟨xs, unread⟩ := s.unread_window_byte inside
  have dropped := does_get8 (Ctx.unread_take _ unread)
  rw [leBytes_length, Ctx.take_take] at dropped
  refine does_iter_again ?_ rest
  refine (getOp_plain silent unread).andThen ?_
  rw [if_neg other]
  exact dropped.andThen .refl

theorem initialDrain_skips_all {n : Node UInt32 (List UInt8) Unit} (r : Nat)
    (silent : ∀ i < r, s.window (c.taken + 5 * i) ≠ PRINT_STRING)
    (other : ∀ i < r, s.window (c.taken + 5 * i) ≠ GET_PROG_INFO) (inside : c.taken + 5 * r ≤ k)
    (rest : Steps (s.upTo k) ⟨initialDrain, c.take (5 * r)⟩ n) :
    Steps (s.upTo k) ⟨initialDrain, c⟩ n := by
  induction r generalizing c with
  | zero => exact rest
  | succ r ih =>
    apply initialDrain_skips (silent 0 (Nat.succ_pos r)) (other 0 (Nat.succ_pos r)) (by omega)
    have shift : ∀ i, (c.take 5).taken + 5 * i = c.taken + 5 * (i + 1) := by
      intro i
      rw [Ctx.take_taken]
      omega
    apply ih
    · intro i hi
      rw [shift]
      exact silent (i + 1) (Nat.succ_lt_succ hi)
    · intro i hi
      rw [shift]
      exact other (i + 1) (Nat.succ_lt_succ hi)
    · rw [shift]
      exact inside
    · rw [Ctx.take_take, Nat.add_comm 5]
      exact rest

theorem initialDrain_ends (request : s.window c.taken = GET_PROG_INFO) (inside : c.taken + 4 ≤ k) :
    Does (s.upTo k) initialDrain c () (c.take 4) := by
  obtain ⟨xs, unread⟩ := s.unread_window inside
  rw [request] at unread
  exact does_iter_last ((getOp_plain (by decide) unread).andThen .refl)

end Rounds

section Noise

variable (garbage : List UInt8)

/-- The garbage, and behind it the request word again and again. -/
def noisy : Stream := fun i =>
  if i < garbage.length then garbage.getD i 0
  else (leBytes GET_PROG_INFO).getD ((i - garbage.length) % 4) 0

theorem noisy_behind (i : Nat) :
    noisy garbage (garbage.length + i) = (leBytes GET_PROG_INFO).getD (i % 4) 0 := by
  have behind : ¬ garbage.length + i < garbage.length := by omega
  rw [noisy, if_neg behind, Nat.add_sub_cancel_left]

theorem window_behind (i : Nat) : (noisy garbage).window (garbage.length + i) =
    leWord ((leBytes GET_PROG_INFO).getD (i % 4) 0) ((leBytes GET_PROG_INFO).getD ((i % 4 + 1) % 4) 0)
      ((leBytes GET_PROG_INFO).getD ((i % 4 + 2) % 4) 0)
      ((leBytes GET_PROG_INFO).getD ((i % 4 + 3) % 4) 0) := by
  simp only [Stream.window, Nat.add_assoc, noisy_behind, Nat.mod_add_mod]

/-- Of the four ways to read the requests one is in step, and none prints. -/
theorem window_in_step (i : Nat) :
    (noisy garbage).window (garbage.length + i) ≠ PRINT_STRING ∧
      ((noisy garbage).window (garbage.length + i) = GET_PROG_INFO ↔ i % 4 = 0) := by
  rw [window_behind]
  have low : i % 4 < 4 := Nat.mod_lt i (by decide)
  interval_cases i % 4 <;> decide

theorem noisy_upTo (m : Nat) :
    (noisy garbage).upTo (garbage.length + 4 * m) = garbage ++ requests m := by
  induction m with
  | zero =>
    apply List.ext_getElem
    · simp [Stream.upTo, requests]
    · intro i hi _
      have inside : i < garbage.length := by simpa [Stream.upTo] using hi
      simp [Stream.upTo, noisy, requests, inside]
  | succ m ih =>
    have more : requests (m + 1) = requests m ++ leBytes GET_PROG_INFO := by
      simp [requests, List.replicate_succ']
    rw [Nat.mul_succ, ← Nat.add_assoc, Stream.upTo_add, ih, more, List.append_assoc]
    congr 2
    simp only [Nat.add_assoc, noisy_behind, Nat.mul_add_mod]
    decide

theorem round_in_step : ∃ r, garbage.length ≤ 5 * r ∧ (5 * r - garbage.length) % 4 = 0 ∧
    5 * r ≤ garbage.length + 16 ∧
    ∀ i < r, garbage.length ≤ 5 * i → (5 * i - garbage.length) % 4 ≠ 0 := by
  have some : ∃ r, garbage.length ≤ 5 * r ∧ (5 * r - garbage.length) % 4 = 0 :=
    ⟨garbage.length, by omega, by omega⟩
  obtain ⟨late, step⟩ := Nat.find_spec some
  refine ⟨Nat.find some, late, step, ?_, ?_⟩
  · by_cases first : Nat.find some < 4
    · omega
    · have earlier := Nat.find_min some (show Nat.find some - 4 < Nat.find some by omega)
      omega
  · intro i hi past aligned
    exact Nat.find_min some hi ⟨past, aligned⟩

variable (c : Ctx UInt32 (List UInt8))

/-- The drain returns on the stream and simple_boot goes on to its header; wherever
the drain has stopped it has taken the garbage and m requests, and the requests
behind them are still in the line. -/
structure Synchronised (m : Nat) : Prop where
  ends : ∃ k, Does ((noisy garbage).upTo k) initialDrain c () (c.take (garbage.length + 4 * m))
  offers : ∀ bootAddr buf n, ∃ k, Steps ((noisy garbage).upTo k) ⟨simpleBoot bootAddr buf n, c⟩
    ⟨supply buf n, (c.take (garbage.length + 4 * m)).say (header buf n)⟩
  stops : ∀ k n, Steps ((noisy garbage).upTo k) ⟨initialDrain, c⟩ n → n.Finished →
    n = ⟨.ret (), c.take (garbage.length + 4 * m)⟩
  consumed : (noisy garbage).upTo (garbage.length + 4 * m) = garbage ++ requests m
  aligned : ∀ k, (c.take (garbage.length + 4 * m)).Unread
    ((noisy garbage).upTo (garbage.length + 4 * m + 4 * k)) (requests k)

variable {garbage c}

theorem Stream.steps_upTo {s : Stream} {m n : Node UInt32 (List UInt8) Unit} {j k : Nat}
    (short : j ≤ k) (steps : Steps (s.upTo j) m n) : Steps (s.upTo k) m n := by
  obtain ⟨more, rfl⟩ := Nat.exists_eq_add_of_le short
  rw [Stream.upTo_add]
  exact steps_wire _ steps

theorem synchronised_of_does {m : Nat} (start : c.taken = 0)
    (does : Does ((noisy garbage).upTo (garbage.length + 4 * m)) initialDrain c ()
      (c.take (garbage.length + 4 * m))) : Synchronised garbage c m := by
  refine ⟨⟨_, does⟩, fun bootAddr buf n => ⟨_, simpleBoot_drains bootAddr buf n does⟩, ?_,
    noisy_upTo garbage m, ?_⟩
  · intro k n steps done
    have longer := Stream.steps_upTo (Nat.le_max_left k (garbage.length + 4 * m)) steps
    have whole := Stream.steps_upTo (Nat.le_max_right k (garbage.length + 4 * m)) does
    exact finished_unique longer whole done (.ret _ _)
  · intro k
    have bytes : garbage.length + 4 * m + 4 * k = garbage.length + 4 * (m + k) := by omega
    have split : requests (m + k) = requests m ++ requests k := by
      rw [requests, requests, requests, List.replicate_add, List.flatten_append]
    rw [bytes, noisy_upTo, split, ← List.append_assoc]
    apply Ctx.unread_after
    simp [start, requests, Nat.mul_comm]

/-- Whatever the garbage is, at most five requests are spent on getting in step. -/
theorem drain_synchronises (start : c.taken = 0)
    (silent : ∀ r, 5 * r < garbage.length → (noisy garbage).window (5 * r) ≠ PRINT_STRING)
    (other : ∀ i < garbage.length, (noisy garbage).window i ≠ GET_PROG_INFO) :
    ∃ m, 0 < m ∧ m ≤ 5 ∧ Synchronised garbage c m := by
  obtain ⟨r, late, step, soon, before⟩ := round_in_step garbage
  obtain ⟨i, hi⟩ := Nat.exists_eq_add_of_le late
  have inStep := window_in_step garbage
  refine ⟨i / 4 + 1, Nat.succ_pos _, by omega, synchronised_of_does start ?_⟩
  have length : garbage.length + 4 * (i / 4 + 1) = 5 * r + 4 := by omega
  rw [length]
  have request : (noisy garbage).window (c.take (5 * r)).taken = GET_PROG_INFO := by
    rw [Ctx.take_taken, start, Nat.zero_add, hi]
    exact (inStep i).2.mpr (by omega)
  have ends := initialDrain_ends (k := 5 * r + 4) request (by simp [start])
  rw [Ctx.take_take] at ends
  apply initialDrain_skips_all r _ _ (by omega) ends
  · intro j hj
    rw [start, Nat.zero_add]
    by_cases early : 5 * j < garbage.length
    · exact silent j early
    · obtain ⟨d, hd⟩ := Nat.exists_eq_add_of_le (Nat.le_of_not_lt early)
      rw [hd]
      exact (inStep d).1
  · intro j hj
    rw [start, Nat.zero_add]
    by_cases early : 5 * j < garbage.length
    · exact other _ early
    · obtain ⟨d, hd⟩ := Nat.exists_eq_add_of_le (Nat.le_of_not_lt early)
      have off := before j hj (by omega)
      rw [hd]
      intro request
      have aligned := (inStep d).2.mp request
      omega

end Noise

theorem seven_bytes_drained : ∃ m, 0 < m ∧ m ≤ 5 ∧
    Synchronised [1, 2, 3, 4, 5, 6, 7] ⟨[], [], 0, []⟩ m :=
  drain_synchronises rfl
    (by
      intro r hr
      have low : r < 2 := by simp only [List.length_cons, List.length_nil] at hr; omega
      interval_cases r <;> decide)
    (by
      intro i hi
      simp only [List.length_cons, List.length_nil, Nat.zero_add, Nat.reduceAdd] at hi
      interval_cases i <;> decide)

end EmbeddedOS.Bootloader
