import Mathlib.Data.List.Chain
import Mathlib.Algebra.Group.Nat.Defs

/-! The delays of timer.c, which look at the counter of microseconds again and again. -/
namespace EmbeddedOS.Timer

def timerGetUsec (now : Nat) : UInt32 := UInt32.ofNat now

/-- The loop of delay_us, over the times at which it reads the counter; the time of its return. -/
def delayLoop (us s : UInt32) : List Nat → Option Nat
  | [] => none
  | now :: times =>
    let e := timerGetUsec now
    if e - s ≥ us then some now else delayLoop us s times

def delayUs (us : UInt32) : List Nat → Option Nat
  | [] => none
  | now :: times => delayLoop us (timerGetUsec now) times

def delayMs (ms : UInt32) : List Nat → Option Nat := delayUs (ms * 1000)

def delaySec (sec : UInt32) : List Nat → Option Nat := delayMs (sec * 1000)

inductive Delay where
  | us (n : UInt32)
  | ms (n : UInt32)
  | sec (n : UInt32)

def Delay.run : Delay → List Nat → Option Nat
  | .us n => delayUs n
  | .ms n => delayMs n
  | .sec n => delaySec n

def Delay.asked : Delay → Nat
  | .us n => n.toNat
  | .ms n => n.toNat * 1000
  | .sec n => n.toNat * 1000000

/-- The counter is read in order, each time before it has gone further than so far. -/
def Sampled (most : Nat) (times : List Nat) : Prop :=
  times.IsChain fun before now => before ≤ now ∧ now ≤ before + most

/-- A delay that does not return before its time, with more than one reading a wrap, and that does
return where no reading comes too late to see the end before the counter has wrapped. -/
structure Waits (delay : List Nat → Option Nat) (asked : Nat) : Prop where
  never_early : ∀ start times now, Sampled (2 ^ 32 - 1) (start :: times) →
    delay (start :: times) = some now → start + asked ≤ now
  returns : ∀ start times, Sampled (2 ^ 32 - asked) (start :: times) →
    (∃ now ∈ times, start + asked ≤ now) → ∃ now, delay (start :: times) = some now

section Loop

variable {us : UInt32} {start : Nat}

/-- The difference of two readings is the time between them, but for whole wraps. -/
theorem elapsed {now : Nat} (later : start ≤ now) :
    (timerGetUsec now - timerGetUsec start).toNat = (now - start) % 2 ^ 32 := by
  rw [UInt32.toNat_sub, timerGetUsec, timerGetUsec, UInt32.toNat_ofNat', UInt32.toNat_ofNat']
  omega

theorem loop_late {times : List Nat} {now : Nat} (later : ∀ t ∈ times, start ≤ t)
    (returned : delayLoop us (timerGetUsec start) times = some now) : start + us.toNat ≤ now := by
  induction times with
  | nil => cases returned
  | cons t times ih =>
    have after := later t List.mem_cons_self
    rw [delayLoop] at returned
    by_cases ended : timerGetUsec t - timerGetUsec start ≥ us
    · rw [if_pos ended, Option.some.injEq] at returned
      have enough := UInt32.le_iff_toNat_le.mp ended
      rw [elapsed after] at enough
      have whole := Nat.mod_le (t - start) (2 ^ 32)
      omega
    · rw [if_neg ended] at returned
      exact ih (fun u inside => later u (List.mem_cons_of_mem t inside)) returned

theorem loop_returns {times : List Nat} {before : Nat} (waiting : before < start + us.toNat)
    (after : start ≤ before)
    (sampled : Sampled (2 ^ 32 - us.toNat) (before :: times))
    (reaches : ∃ now ∈ times, start + us.toNat ≤ now) :
    ∃ now, delayLoop us (timerGetUsec start) times = some now := by
  induction times generalizing before with
  | nil =>
    obtain ⟨now, inside, -⟩ := reaches
    cases inside
  | cons t times ih =>
    obtain ⟨⟨later, soon⟩, rest⟩ := List.isChain_cons_cons.mp sampled
    have bound := UInt32.toNat_lt us
    rw [delayLoop]
    by_cases ended : timerGetUsec t - timerGetUsec start ≥ us
    · exact ⟨t, if_pos ended⟩
    · have early : t < start + us.toNat := by
        by_contra enough
        refine ended (UInt32.le_iff_toNat_le.mpr ?_)
        rw [elapsed (Nat.le_trans after later), Nat.mod_eq_of_lt (by omega)]
        omega
      have further : ∃ now ∈ times, start + us.toNat ≤ now := by
        obtain ⟨now, inside, enough⟩ := reaches
        rcases List.mem_cons.mp inside with rfl | later_on
        · omega
        · exact ⟨now, later_on, enough⟩
      obtain ⟨now, returned⟩ := ih early (Nat.le_trans after later) rest further
      exact ⟨now, (if_neg ended).trans returned⟩

theorem sampled_later {most : Nat} {times : List Nat} (sampled : Sampled most (start :: times)) :
    ∀ t ∈ times, start ≤ t := by
  induction times generalizing start with
  | nil => nofun
  | cons t times ih =>
    obtain ⟨⟨later, -⟩, rest⟩ := List.isChain_cons_cons.mp sampled
    intro now inside
    rcases List.mem_cons.mp inside with rfl | further
    · exact later
    · exact Nat.le_trans later (ih rest now further)

theorem us_waits (us : UInt32) : Waits (delayUs us) us.toNat where
  never_early := fun _ _ _ sampled returned => loop_late (sampled_later sampled) returned
  returns := by
    intro start times sampled reaches
    by_cases zero : us.toNat = 0
    · obtain ⟨now, inside, -⟩ := reaches
      cases times with
      | nil => cases inside
      | cons t times =>
        refine ⟨t, if_pos (UInt32.le_iff_toNat_le.mpr ?_)⟩
        rw [zero]
        exact Nat.zero_le _
    · exact loop_returns (by omega) (Nat.le_refl _) sampled reaches

end Loop

def Delay.micros : Delay → UInt32
  | .us n => n
  | .ms n => n * 1000
  | .sec n => n * 1000 * 1000

theorem run_micros (d : Delay) : d.run = delayUs d.micros := by
  cases d <;> rfl

theorem micros_toNat (d : Delay) : d.micros.toNat = d.asked % 2 ^ 32 := by
  cases d with
  | us n => exact (Nat.mod_eq_of_lt (UInt32.toNat_lt n)).symm
  | ms n => exact UInt32.toNat_mul ..
  | sec n =>
    rw [Delay.micros, UInt32.toNat_mul, UInt32.toNat_mul]
    change n.toNat * 1000 % 2 ^ 32 * 1000 % 2 ^ 32 = n.toNat * 1000000 % 2 ^ 32
    omega

/-- A delay waits for its time exactly when that is less than one wrap of the counter. -/
theorem waits_iff (d : Delay) : Waits d.run d.asked ↔ d.asked < 2 ^ 32 := by
  rw [run_micros]
  have micros := micros_toNat d
  constructor
  · intro waits
    by_contra long
    have bound := UInt32.toNat_lt d.micros
    have early := waits.never_early 0 [d.micros.toNat] d.micros.toNat
      (List.isChain_cons_cons.mpr ⟨⟨Nat.zero_le _, by omega⟩, List.isChain_singleton _⟩)
      (if_pos (UInt32.le_iff_toNat_le.mpr (by
        rw [elapsed (Nat.zero_le _), Nat.sub_zero]
        exact Nat.le_of_eq (Nat.mod_eq_of_lt bound).symm)))
    omega
  · intro short
    have waits := us_waits d.micros
    rwa [micros, Nat.mod_eq_of_lt short] at waits

theorem long_delay_is_early :
    delayMs 4294968 [0, 704] = some 704 ∧ ¬ Waits (delayMs 4294968) (4294968 * 1000) := by
  have back : delayMs 4294968 [0, 704] = some 704 := by decide
  refine ⟨back, fun waits => ?_⟩
  have early := waits.never_early 0 [704] 704
    (List.isChain_cons_cons.mpr ⟨⟨by decide, by decide⟩, List.isChain_singleton _⟩) back
  omega

end EmbeddedOS.Timer
