import Mathlib.Data.List.Chain
import Mathlib.Data.List.Range
import Mathlib.Algebra.Group.Nat.Defs

/-! sw-uart.c and wait-routines.h: the moments at which a byte is written and read, by the 32-bit
cycle counter. -/
namespace EmbeddedOS.SwUart

section Waits

/-- The counter at a moment, from its value c0 at the first one. -/
def cycleCnt (c0 : UInt32) (t : Nat) : UInt32 := c0 + UInt32.ofNat t

/-- The moment at which `while (cycle_cnt_read() - start_cycle <= ncycles)` is left; it may not be. -/
def waitNcyclesExact (c0 startCycle ncycles : UInt32) (t : Nat) : Option Nat :=
  let gone := cycleCnt c0 t - startCycle
  if ncycles < gone then some t
  else if ncycles = 0xffffffff then none
  else some (t + (ncycles.toNat + 1 - gone.toNat))

def paced (c0 s n : UInt32) : UInt32 → Nat → Nat → Option (List Nat)
  | _, t, 0 => some [t]
  | u, t, k + 1 =>
    (waitNcyclesExact c0 s u t).bind fun t' => (paced c0 s n (u + n) t' k).map (t :: ·)

end Waits

section Uart

structure SwUart where
  tx : UInt32
  rx : UInt32
  baud : UInt32
  cyclePerBit : UInt32
  usecPerBit : UInt32

def swUartInitHelper (tx rx baud cycPerBit usecPerBit : UInt32) : Option SwUart :=
  if tx ≠ 0 ∧ tx < 31 ∧ rx ≠ 0 ∧ rx < 31 ∧ cycPerBit ≠ 0 ∧ usecPerBit < cycPerBit ∧
      usecPerBit ≠ 0 then
    let mhz : UInt32 := 700 * 1000 * 1000
    let derived := cycPerBit * baud
    if mhz - baud ≤ derived ∧ derived ≤ mhz + baud then
      some ⟨tx, rx, baud, cycPerBit, usecPerBit⟩
    else none
  else none

/-- The cycles of a bit that are taken for this baud rate. -/
abbrev Admitted (baud : UInt32) :=
  { n : UInt32 // ∃ tx rx usec, (swUartInitHelper tx rx baud n usec).isSome = true }

/-- The ten writes of sw_uart_put8 from a moment on, and its return. -/
def swUartPut8 (c0 n : UInt32) (t : Nat) : Option (List Nat) :=
  paced c0 (cycleCnt c0 t) n n t 10

/-- The nine reads of sw_uart_get8_timeout from the detection on, and its return. -/
def swUartGet8 (c0 n : UInt32) (t : Nat) : Option (List Nat) :=
  paced c0 (cycleCnt c0 t) n n t 9

def levels (c : UInt8) : List Bool :=
  false :: ((List.range 8).map fun i => c.toNat.testBit i) ++ [true]

def writes (c : UInt8) (ts : List Nat) : List (Nat × Bool) := ts.zip (levels c)

/-- The pin after these writes, at a moment; it is on before. -/
def level (ws : List (Nat × Bool)) (x : Nat) : Bool :=
  ws.foldl (fun v w => if w.1 ≤ x then w.2 else v) true

/-- `bit7 | ... | bit0`, where the first read is not used. -/
def value (rx : Nat → Bool) (rs : List Nat) : Nat :=
  ((List.range 8).map fun i => (rx (rs.getD (i + 1) 0)).toNat <<< i).foldr (· ||| ·) 0

end Uart

section Counter

theorem cycle_cnt_sub (c0 : UInt32) (t e : Nat) :
    cycleCnt c0 (t + e) - cycleCnt c0 t = UInt32.ofNat e := by
  rw [cycleCnt, cycleCnt, UInt32.ofNat_add]
  grind

theorem wait_ends (c0 : UInt32) (t0 : Nat) {u : UInt32} {e : Nat} (early : e ≤ u.toNat + 1)
    (room : u.toNat + 1 < 2 ^ 32) :
    waitNcyclesExact c0 (cycleCnt c0 t0) u (t0 + e) = some (t0 + (u.toNat + 1)) := by
  have gone : (UInt32.ofNat e).toNat = e := by
    rw [UInt32.toNat_ofNat', Nat.mod_eq_of_lt (by omega)]
  have last : u ≠ 0xffffffff := by
    rintro rfl
    exact absurd room (by decide)
  rw [waitNcyclesExact, cycle_cnt_sub]
  simp only [UInt32.lt_iff_toNat_lt, gone, if_neg last]
  split
  · congr 1
    omega
  · congr 1
    omega

theorem wait_takes {c0 : UInt32} {t0 e t' : Nat} {u : UInt32} (short : e < 2 ^ 32)
    (ends : waitNcyclesExact c0 (cycleCnt c0 t0) u (t0 + e) = some t') (later : t0 + e < t') :
    e ≤ u.toNat ∧ u.toNat + 1 < 2 ^ 32 ∧ t' = t0 + (u.toNat + 1) := by
  have gone : (UInt32.ofNat e).toNat = e := by
    rw [UInt32.toNat_ofNat', Nat.mod_eq_of_lt short]
  rw [waitNcyclesExact, cycle_cnt_sub] at ends
  simp only [UInt32.lt_iff_toNat_lt, gone] at ends
  split at ends
  · cases ends
    omega
  · rename_i before
    split at ends
    · cases ends
    · rename_i last
      have other : u.toNat ≠ 2 ^ 32 - 1 := fun same => last (UInt32.toNat_inj.mp same)
      have bound := u.toNat_lt
      cases ends
      omega

theorem wait_first {c0 s u : UInt32} {t t' : Nat} (ends : waitNcyclesExact c0 s u t = some t') :
    t ≤ t' ∧ u < cycleCnt c0 t' - s ∧ ∀ x, t ≤ x → x < t' → cycleCnt c0 x - s ≤ u := by
  have ahead (d : Nat) : cycleCnt c0 (t + d) - s = cycleCnt c0 t - s + UInt32.ofNat d := by
    rw [cycleCnt, cycleCnt, UInt32.ofNat_add]
    grind
  rw [waitNcyclesExact] at ends
  split at ends
  · rename_i now
    cases ends
    exact ⟨Nat.le_refl t, now, fun x from_t to_t => absurd to_t (Nat.not_lt.mpr from_t)⟩
  · rename_i before
    split at ends
    · cases ends
    · rename_i last
      rw [UInt32.lt_iff_toNat_lt] at before
      have other : u.toNat ≠ 2 ^ 32 - 1 := fun same => last (UInt32.toNat_inj.mp same)
      have bound := u.toNat_lt
      have reached {d : Nat} (small : (cycleCnt c0 t - s).toNat + d < 2 ^ 32) :
          (cycleCnt c0 (t + d) - s).toNat = (cycleCnt c0 t - s).toNat + d := by
        rw [ahead, UInt32.toNat_add, UInt32.toNat_ofNat', Nat.mod_eq_of_lt (a := d) (by omega),
          Nat.mod_eq_of_lt small]
      cases ends
      refine ⟨Nat.le_add_right .., ?_, ?_⟩
      · rw [UInt32.lt_iff_toNat_lt, reached (by omega)]
        omega
      · intro x from_t to_t
        obtain ⟨d, rfl⟩ := Nat.exists_eq_add_of_le from_t
        rw [UInt32.le_iff_toNat_le, reached (by omega)]
        omega

end Counter

section Paced

/-- The moment of the access of this number, from the first one on, with n cycles between two. -/
def moment (n j : Nat) : Nat := if j = 0 then 0 else j * n + 1

theorem moment_succ (n j : Nat) : moment n (j + 1) = (j + 1) * n + 1 := if_neg (Nat.succ_ne_zero j)

theorem paced_runs (c0 : UInt32) (t0 : Nat) {n : UInt32} {k j : Nat}
    (room : (j + k) * n.toNat + 1 < 2 ^ 32) :
    paced c0 (cycleCnt c0 t0) n (UInt32.ofNat ((j + 1) * n.toNat)) (t0 + moment n.toNat j) k =
      some ((List.range' j (k + 1)).map fun i => t0 + moment n.toNat i) := by
  induction k generalizing j with
  | zero => rfl
  | succ k ih =>
    have less : (j + 1) * n.toNat ≤ (j + (k + 1)) * n.toNat := Nat.mul_le_mul_right _ (by omega)
    have time : (UInt32.ofNat ((j + 1) * n.toNat)).toNat = (j + 1) * n.toNat := by
      rw [UInt32.toNat_ofNat', Nat.mod_eq_of_lt (by omega)]
    have early : moment n.toNat j ≤ (UInt32.ofNat ((j + 1) * n.toNat)).toNat + 1 := by
      rw [time, moment, Nat.succ_mul]
      split <;> omega
    have ends := wait_ends c0 t0 early (by rw [time]; omega)
    have next : UInt32.ofNat ((j + 1) * n.toNat) + n = UInt32.ofNat ((j + 1 + 1) * n.toNat) := by
      rw [Nat.succ_mul (j + 1), UInt32.ofNat_add _ n.toNat, UInt32.ofNat_toNat]
    have here : (UInt32.ofNat ((j + 1) * n.toNat)).toNat + 1 = moment n.toNat (j + 1) := by
      rw [time, moment_succ]
    have room' : (j + 1 + k) * n.toNat + 1 < 2 ^ 32 := by rwa [Nat.add_assoc, Nat.add_comm 1]
    rw [paced, ends, Option.bind_some, next, here, ih room', Option.map_some, List.range'_succ (s := j),
      List.map_cons]

theorem paced_head {c0 s n u : UInt32} {t k : Nat} {ts : List Nat} (ran : paced c0 s n u t k = some ts) :
    ∃ rest, ts = t :: rest ∧ rest.length = k := by
  induction k generalizing u t ts with
  | zero =>
    cases ran
    exact ⟨[], rfl, rfl⟩
  | succ k ih =>
    obtain ⟨t', _, more⟩ := Option.bind_eq_some_iff.mp ran
    obtain ⟨rest, after, same⟩ := Option.map_eq_some_iff.mp more
    obtain ⟨later, split, length⟩ := ih after
    exact ⟨rest, same.symm, by rw [split, List.length_cons, length]⟩

theorem paced_room {c0 n : UInt32} {t0 k j : Nat} {ts : List Nat}
    (start : j * n.toNat + 1 < 2 ^ 32)
    (ran : paced c0 (cycleCnt c0 t0) n (UInt32.ofNat ((j + 1) * n.toNat)) (t0 + moment n.toNat j) k =
      some ts) (chain : ts.IsChain (· < ·)) : (j + k) * n.toNat + 1 < 2 ^ 32 := by
  induction k generalizing j ts with
  | zero => exact start
  | succ k ih =>
    obtain ⟨t', ends, more⟩ := Option.bind_eq_some_iff.mp ran
    obtain ⟨rest, after, same⟩ := Option.map_eq_some_iff.mp more
    obtain ⟨later, split, _⟩ := paced_head after
    subst same
    subst split
    obtain ⟨takes, chain⟩ := List.isChain_cons_cons.mp chain
    have bound := n.toNat_lt
    have short : moment n.toNat j < 2 ^ 32 := by
      rw [moment]
      split <;> omega
    obtain ⟨early, room, rfl⟩ := wait_takes short ends takes
    have time : (UInt32.ofNat ((j + 1) * n.toNat)).toNat = (j + 1) * n.toNat := by
      rw [UInt32.toNat_ofNat', Nat.succ_mul, moment] at early
      rw [UInt32.toNat_ofNat', Nat.succ_mul]
      by_cases first : j = 0
      · subst first
        omega
      · rw [if_neg first] at early
        omega
    have next : UInt32.ofNat ((j + 1) * n.toNat) + n = UInt32.ofNat ((j + 1 + 1) * n.toNat) := by
      rw [Nat.succ_mul (j + 1), UInt32.ofNat_add _ n.toNat, UInt32.ofNat_toNat]
    have here : (UInt32.ofNat ((j + 1) * n.toNat)).toNat + 1 = moment n.toNat (j + 1) := by
      rw [time, moment_succ]
    rw [next, here] at after
    rw [here] at chain
    rw [time] at room
    have done := ih room after chain
    rwa [Nat.add_assoc, Nat.add_comm 1] at done

end Paced

end EmbeddedOS.SwUart
