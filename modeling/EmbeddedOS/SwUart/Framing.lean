import EmbeddedOS.SwUart.Timing
import Mathlib.Data.List.GetD
import Mathlib.Tactic.IntervalCases

/-! Bytes from sw_uart_put8 to sw_uart_get8_timeout, between two clocks of one baud rate. -/
namespace EmbeddedOS.SwUart

section Purpose

/-- A byte, the time before it is sent, and the time from its start edge to the detection. -/
structure Frame (n : UInt32) where
  byte : UInt8
  gap : Nat
  delay : Nat
  early : 2 * delay < n.toNat

def sends (c0 n : UInt32) : Nat → List (Frame n) → Option (List (Nat × Bool))
  | _, [] => some []
  | t, f :: fs => do
    let ts ← swUartPut8 c0 n (t + f.gap)
    let rest ← sends c0 n (ts.getD 10 0) fs
    some (writes f.byte ts ++ rest)

/-- Each read but the first lies strictly between the writes of its bit and the next, and the return
between the stop bit and its end. -/
def Inside (ts rs : List Nat) : Prop :=
  ∀ k < 9, ts.getD (k + 1) 0 < rs.getD (k + 1) 0 ∧ rs.getD (k + 1) 0 < ts.getD (k + 2) 0

def Before {n : UInt32} (t : Nat) (fs : List (Frame n)) (x : Nat) : Prop :=
  ∀ f ∈ fs.head?, x < t + f.gap

/-- Every byte is read inside its bits, is the value that is returned, and leaves the pin on until the
next one. -/
def Received (rx : Nat → Bool) (c0 c0' n n' : UInt32) : Nat → List (Frame n) → Prop
  | _, [] => True
  | t, f :: fs => ∃ ts rs, swUartPut8 c0 n (t + f.gap) = some ts ∧
      rx (t + f.gap + f.delay) = false ∧ swUartGet8 c0' n' (t + f.gap + f.delay) = some rs ∧
      Inside ts rs ∧ value rx rs = f.byte.toNat ∧
      (∀ x, rs.getD 9 0 ≤ x → Before (ts.getD 10 0) fs x → rx x = true) ∧
      Received rx c0 c0' n n' (ts.getD 10 0) fs

def Framed (c0 c0' n n' : UInt32) (fs : List (Frame n)) : Prop :=
  ∃ ws, sends c0 n 0 fs = some ws ∧ (∀ x, Before 0 fs x → level ws x = true) ∧
    Received (level ws) c0 c0' n n' 0 fs

/-- Ten bits fit in the counter, and the first and the last wait end inside their bits. -/
def Clear (n n' delay : Nat) : Prop :=
  10 * n < 2 ^ 32 ∧ n < delay + n' ∧ delay + n' < 2 * n ∧
    9 * n < delay + 9 * n' ∧ delay + 9 * n' < 10 * n

instance (n n' delay : Nat) : Decidable (Clear n n' delay) := inferInstanceAs (Decidable (_ ∧ _))

end Purpose

section One
variable {c0 c0' n n' : UInt32} {t d : Nat}

def moments (t : Nat) (n : UInt32) (k : Nat) : List Nat :=
  (List.range' 0 (k + 1)).map fun i => t + moment n.toNat i

theorem moments_getD {k i : Nat} (inside : i ≤ k) : (moments t n k).getD i 0 = t + moment n.toNat i := by
  have below : i < (moments t n k).length := by simp [moments]; omega
  rw [List.getD_eq_getElem _ _ below]
  simp [moments]

theorem paced_whole {k : Nat} (room : k * n.toNat + 1 < 2 ^ 32) :
    paced c0 (cycleCnt c0 t) n n t k = some (moments t n k) := by
  have runs := paced_runs c0 t (n := n) (k := k) (j := 0) (by rwa [Nat.zero_add])
  rwa [Nat.zero_add, Nat.one_mul, UInt32.ofNat_toNat] at runs

theorem paced_first {s u : UInt32} {k : Nat} {ts : List Nat} (ran : paced c0 s n u t k = some ts) :
    ts.getD 0 0 = t ∧ ts.length = k + 1 := by
  obtain ⟨rest, rfl, length⟩ := paced_head ran
  exact ⟨rfl, by rw [List.length_cons, length]⟩

theorem paced_second {k : Nat} {ts : List Nat}
    (ran : paced c0 (cycleCnt c0 t) n n t (k + 1) = some ts) : ts.getD 0 0 < ts.getD 1 0 := by
  obtain ⟨t', ends, more⟩ := Option.bind_eq_some_iff.mp ran
  obtain ⟨rest, after, same⟩ := Option.map_eq_some_iff.mp more
  obtain ⟨later, split, _⟩ := paced_head after
  subst same
  subst split
  have zero : cycleCnt c0 t - cycleCnt c0 t = 0 := by grind
  rw [waitNcyclesExact, zero, if_neg UInt32.not_lt_zero] at ends
  split at ends
  · cases ends
  · cases ends
    simp

theorem paced_closed {k : Nat} {ts : List Nat} (ran : paced c0 (cycleCnt c0 t) n n t k = some ts)
    (rising : ∀ i < k, ts.getD i 0 < ts.getD (i + 1) 0) :
    k * n.toNat + 1 < 2 ^ 32 ∧ ts = moments t n k := by
  have length := (paced_first ran).2
  have chain : ts.IsChain (· < ·) := by
    rw [List.isChain_iff_getElem]
    intro i below
    have step := rising i (by omega)
    rwa [List.getD_eq_getElem _ _ (by omega), List.getD_eq_getElem _ _ below] at step
  have ran' : paced c0 (cycleCnt c0 t) n (UInt32.ofNat ((0 + 1) * n.toNat)) (t + moment n.toNat 0) k =
      some ts := by
    rwa [Nat.zero_add, Nat.one_mul, UInt32.ofNat_toNat]
  have room := paced_room (by simp) ran' chain
  rw [Nat.zero_add] at room
  exact ⟨room, Option.some.inj (ran.symm.trans (paced_whole room))⟩

/-- The reads of a byte are inside its bits exactly when the two clocks are clear. -/
theorem inside_iff : (∃ ts rs, swUartPut8 c0 n t = some ts ∧ swUartGet8 c0' n' (t + d) = some rs ∧
    Inside ts rs) ↔ Clear n.toNat n'.toNat d := by
  constructor
  · rintro ⟨ts, rs, put, get, inside⟩
    have sender : ∀ i < 10, ts.getD i 0 < ts.getD (i + 1) 0 := by
      intro i below
      cases i with
      | zero => exact paced_second put
      | succ i => exact Nat.lt_trans (inside i (by omega)).1 (inside i (by omega)).2
    have receiver : ∀ i < 9, rs.getD i 0 < rs.getD (i + 1) 0 := by
      intro i below
      cases i with
      | zero => exact paced_second get
      | succ i => exact Nat.lt_trans (inside i (by omega)).2 (inside (i + 1) (by omega)).1
    obtain ⟨room, rfl⟩ := paced_closed put sender
    obtain ⟨room', rfl⟩ := paced_closed get receiver
    have first := inside 0 (by decide)
    have last := inside 8 (by decide)
    rw [moments_getD (by decide), moments_getD (by decide), moments_getD (by decide)] at first last
    rw [moment_succ, moment_succ, moment_succ] at first last
    unfold Clear
    omega
  · intro clear
    have room : 10 * n.toNat + 1 < 2 ^ 32 := by unfold Clear at clear; omega
    have room' : 9 * n'.toNat + 1 < 2 ^ 32 := by unfold Clear at clear; omega
    refine ⟨_, _, paced_whole room, paced_whole room', ?_⟩
    intro k below
    rw [moments_getD (by omega), moments_getD (by omega), moments_getD (by omega), moment_succ,
      moment_succ, moment_succ]
    unfold Clear at clear
    interval_cases k <;> omega

end One

section Line

theorem level_append (front back : List (Nat × Bool)) (x : Nat) :
    level (front ++ back) x = back.foldl (fun v w => if w.1 ≤ x then w.2 else v) (level front x) :=
  List.foldl_append ..

theorem level_later {front back : List (Nat × Bool)} {x : Nat} (later : ∀ w ∈ back, x < w.1) :
    level (front ++ back) x = level front x := by
  rw [level_append]
  induction back with
  | nil => rfl
  | cons w back ih =>
    obtain ⟨first, rest⟩ := List.forall_mem_cons.mp later
    rw [List.foldl_cons, if_neg (Nat.not_le.mpr first)]
    exact ih rest

theorem level_last {front : List (Nat × Bool)} {w : Nat × Bool} {x : Nat} (past : w.1 ≤ x) :
    level (front ++ [w]) x = w.2 := by
  rw [level_append, List.foldl_cons, List.foldl_nil, if_pos past]

theorem levels_length (c : UInt8) : (levels c).length = 10 := by simp [levels]

theorem writes_getElem {c : UInt8} {n : UInt32} {t i : Nat} (below : i < 10) :
    (writes c (moments t n 10))[i]? = some (t + moment n.toNat i, (levels c).getD i true) := by
  have inside : i < (levels c).length := by rw [levels_length]; exact below
  have times : (moments t n 10)[i]? = some (t + moment n.toNat i) := by
    have short : i < 11 := by omega
    simp [moments, short]
  have value : (levels c)[i]? = some ((levels c).getD i true) := by
    rw [List.getElem?_eq_getElem inside, List.getD_eq_getElem _ _ inside]
  rw [writes, List.getElem?_zip_eq_some]
  exact ⟨times, value⟩

theorem writes_length (c : UInt8) (n : UInt32) (t : Nat) : (writes c (moments t n 10)).length = 10 := by
  simp [writes, moments, levels_length]

theorem moment_mono {n i j : Nat} (order : i ≤ j) : moment n i ≤ moment n j := by
  unfold moment
  have less := Nat.mul_le_mul_right n order
  split
  · omega
  · rw [if_neg (by omega)]
    omega

theorem level_frame {front rest : List (Nat × Bool)} {c : UInt8} {n : UInt32} {t x j : Nat}
    (below : j < 10) (past : t + moment n.toNat j ≤ x) (next : j < 9 → x < t + moment n.toNat (j + 1))
    (later : ∀ w ∈ rest, x < w.1) :
    level (front ++ (writes c (moments t n 10) ++ rest)) x = (levels c).getD j true := by
  let ws := writes c (moments t n 10)
  have inside : j < ws.length := by rw [writes_length]; exact below
  have here : ws[j] = (t + moment n.toNat j, (levels c).getD j true) := by
    have found := @writes_getElem c n t j below
    rwa [List.getElem?_eq_getElem inside, Option.some_inj] at found
  have split : ws = ws.take j ++ [ws[j]] ++ ws.drop (j + 1) := by
    rw [List.append_assoc, List.singleton_append, ← List.drop_eq_getElem_cons, List.take_append_drop]
  have after : ∀ w ∈ ws.drop (j + 1), x < w.1 := by
    intro w member
    obtain ⟨i, bound, rfl⟩ := List.mem_iff_getElem.mp member
    rw [List.length_drop, writes_length] at bound
    have found := @writes_getElem c n t (j + 1 + i) (by omega)
    rw [List.getElem_drop]
    rw [List.getElem?_eq_getElem (by rw [writes_length]; omega), Option.some_inj] at found
    rw [found]
    have mono : moment n.toNat (j + 1) ≤ moment n.toNat (j + 1 + i) := moment_mono (Nat.le_add_right ..)
    have bit := next (by omega)
    change x < t + moment n.toNat (j + 1 + i)
    omega
  change level (front ++ (ws ++ rest)) x = _
  rw [split, ← List.append_assoc, level_later later, ← List.append_assoc, level_later after,
    ← List.append_assoc, level_last (by rw [here]; exact past), here]

end Line

section Value

theorem levels_bit (c : UInt8) {i : Nat} (below : i < 8) :
    (levels c).getD (i + 1) true = c.toNat.testBit i := by
  interval_cases i <;> rfl

theorem byte_bits : ∀ b : Fin 256,
    ((List.range 8).map fun i => (b.val.testBit i).toNat <<< i).foldr (· ||| ·) 0 = b.val := by
  decide +kernel

theorem value_eq {rx : Nat → Bool} {rs : List Nat} {c : UInt8}
    (bits : ∀ i < 8, rx (rs.getD (i + 1) 0) = c.toNat.testBit i) : value rx rs = c.toNat := by
  have read : (List.range 8).map (fun i => (rx (rs.getD (i + 1) 0)).toNat <<< i) =
      (List.range 8).map fun i => (c.toNat.testBit i).toNat <<< i := by
    apply List.map_congr_left
    intro i inside
    rw [bits i (List.mem_range.mp inside)]
  rw [value, read]
  exact byte_bits ⟨c.toNat, c.toNat_lt⟩

end Value

section Sequence
variable {c0 c0' n n' : UInt32}

theorem writes_from {c : UInt8} {t : Nat} : ∀ w ∈ writes c (moments t n 10), t ≤ w.1 := by
  intro w member
  obtain ⟨i, bound, rfl⟩ := List.mem_iff_getElem.mp member
  rw [writes_length] at bound
  have found := @writes_getElem c n t i bound
  rw [List.getElem?_eq_getElem (by rw [writes_length]; exact bound), Option.some_inj] at found
  rw [found]
  exact Nat.le_add_right ..

theorem received_of_clear {fs : List (Frame n)} (clear : ∀ f ∈ fs, Clear n.toNat n'.toNat f.delay)
    (t : Nat) : ∃ ws, sends c0 n t fs = some ws ∧ (∀ x, Before t fs x → ∀ w ∈ ws, x < w.1) ∧
      ∀ front, Received (level (front ++ ws)) c0 c0' n n' t fs := by
  induction fs generalizing t with
  | nil => exact ⟨[], rfl, fun _ _ w inside => absurd inside List.not_mem_nil, fun _ => trivial⟩
  | cons f fs ih =>
    obtain ⟨here, rest⟩ := List.forall_mem_cons.mp clear
    obtain ⟨ts, rs, put, get, inside⟩ := (@inside_iff c0 c0' n n' (t + f.gap) f.delay).mpr here
    have room : 10 * n.toNat + 1 < 2 ^ 32 := by unfold Clear at here; omega
    cases put.symm.trans (paced_whole room)
    have ends : (moments (t + f.gap) n 10).getD 10 0 = t + f.gap + moment n.toNat 10 :=
      moments_getD (by decide)
    obtain ⟨ws, sent, before, received⟩ := ih rest (t + f.gap + moment n.toNat 10)
    have soon {x : Nat} (early : x < t + f.gap + moment n.toNat 10) : ∀ w ∈ ws, x < w.1 := by
      apply before x
      intro g _
      omega
    have shows (front : List (Nat × Bool)) {x j : Nat} (below : j < 10)
        (past : t + f.gap + moment n.toNat j ≤ x)
        (next : j < 9 → x < t + f.gap + moment n.toNat (j + 1)) (later : ∀ w ∈ ws, x < w.1) :
        level (front ++ (writes f.byte (moments (t + f.gap) n 10) ++ ws)) x =
          (levels f.byte).getD j true := level_frame below past next later
    refine ⟨writes f.byte (moments (t + f.gap) n 10) ++ ws, ?_, ?_, ?_⟩
    · rw [sends, put]
      simp only [Option.bind_eq_bind, Option.bind_some, ends, sent]
    · intro x early w member
      have first : x < t + f.gap := early f rfl
      rcases List.mem_append.mp member with own | other
      · exact Nat.lt_of_lt_of_le first (writes_from w own)
      · exact soon (by omega) w other
    · intro front
      refine ⟨_, rs, put, ?_, get, inside, ?_, ?_, ?_⟩
      · have early := f.early
        have first : moment n.toNat (0 + 1) = (0 + 1) * n.toNat + 1 := moment_succ _ 0
        have tenth : moment n.toNat 10 = 10 * n.toNat + 1 := moment_succ _ 9
        have off : (levels f.byte).getD 0 true = false := rfl
        rw [← off]
        exact shows front (by decide) (Nat.le_add_right ..) (fun _ => by omega) (soon (by omega))
      · apply value_eq
        intro i below
        have between := inside i (by omega)
        rw [moments_getD (by omega), moments_getD (by omega)] at between
        have order : moment n.toNat (i + 2) ≤ moment n.toNat 10 := moment_mono (by omega)
        rw [← levels_bit f.byte below]
        exact shows front (by omega) (Nat.le_of_lt between.1) (fun _ => between.2) (soon (by omega))
      · intro x late early
        have stop := (inside 8 (by decide)).1
        rw [moments_getD (by decide)] at stop
        rw [ends] at early
        have on : (levels f.byte).getD 9 true = true := rfl
        rw [← on]
        exact shows front (by decide) (Nat.le_of_lt (Nat.lt_of_lt_of_le stop late))
          (fun below => absurd below (by decide)) (before x early)
      · rw [ends, ← List.append_assoc]
        exact received _

theorem received_clear {rx : Nat → Bool} {fs : List (Frame n)} {t : Nat}
    (received : Received rx c0 c0' n n' t fs) : ∀ f ∈ fs, Clear n.toNat n'.toNat f.delay := by
  induction fs generalizing t with
  | nil =>
    intro f inside
    cases inside
  | cons f fs ih =>
    obtain ⟨ts, rs, put, _, get, inside, _, _, rest⟩ := received
    exact List.forall_mem_cons.mpr ⟨inside_iff.mp ⟨ts, rs, put, get, inside⟩, ih rest⟩

end Sequence

section Clocks

/-- Bytes are read inside their bits, and are those that were sent, exactly when the clocks are clear
for every delay. -/
theorem framing_iff {baud : UInt32} (n n' : Admitted baud) (c0 c0' : UInt32) (fs : List (Frame n.val)) :
    Framed c0 c0' n.val n'.val fs ↔ ∀ f ∈ fs, Clear n.val.toNat n'.val.toNat f.delay := by
  constructor
  · rintro ⟨ws, _, _, received⟩
    exact received_clear received
  · intro clear
    obtain ⟨ws, sent, before, received⟩ := received_of_clear clear 0
    refine ⟨ws, sent, ?_, received []⟩
    intro x early
    exact @level_later [] ws x (before x early)

def defaultCycles : Admitted 115200 := ⟨6076, 14, 15, 8, rfl⟩

def atOnce : Frame defaultCycles.val := ⟨0x55, 0, 0, by decide⟩

/-- With equal clocks and a detection at once the reads fall on the edges. -/
theorem reads_on_edges : ¬ ∀ (baud : UInt32) (n n' : Admitted baud) (c0 c0' : UInt32)
    (fs : List (Frame n.val)), Framed c0 c0' n.val n'.val fs := by
  intro always
  obtain ⟨ws, _, _, received⟩ := always 115200 defaultCycles defaultCycles 0 0 [atOnce]
  have clear := received_clear received atOnce List.mem_cons_self
  exact absurd clear (by decide)

end Clocks

end EmbeddedOS.SwUart
