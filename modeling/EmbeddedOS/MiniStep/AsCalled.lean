import EmbeddedOS.MiniStep.Step

/-! When a single-stepped function runs as the plain call of it does. -/
namespace EmbeddedOS.MiniStep
open EquivThreads FullExcept

variable {M : Type} {code : Code M} {u : User M} {s t : Sys M}

def faultOf (r : UserRegs) : StepFault := stepFaultMk (r.val 15) r

/-- The stepped run stands before the instruction with this number, and has stepped those before. -/
structure Stands (code : Code M) (u : User M) (n : Nat) (s : Sys M) : Prop where
  user : s.user = after code u n
  executed : s.executed = instructions code u n
  block : s.r.val 0 = 0
  on : s.singleStepOnP = true
  result : s.result = none

/-- The handler has not been called for the next instruction. -/
structure Ready (code : Code M) (u : User M) (n : Nat) (s : Sys M) : Prop extends
    Stands code u n s where
  bvr0 : s.bvr0 = pcBefore code u n
  calls : s.calls = (instructions code u n).map faultOf

structure Handled (code : Code M) (u : User M) (n : Nat) (s : Sys M) : Prop extends
    Stands code u n s where
  bvr0 : s.bvr0 = (after code u n).pc
  calls : s.calls = (instructions code u (n + 1)).map faultOf

structure Left (code : Code M) (u : User M) (n : Nat) (s : Sys M) : Prop where
  user : s.user = after code u n
  executed : s.executed = instructions code u n
  calls : s.calls = (instructions code u n).map faultOf
  result : s.result = some 0

section Ticks

variable {n : Nat}

theorem tick_faults (result : s.result = none) (on : s.singleStepOnP = true)
    (other : s.user.pc ≠ s.bvr0) : tick code s = mismatchFault code s := by
  simp [tick, result, on, other]

theorem tick_executes (result : s.result = none) (same : s.user.pc = s.bvr0) :
    tick code s =
      some { s with user := code.next s.user, executed := s.executed ++ [s.user.regs] } := by
  simp [tick, result, same]

theorem Stands.executes (stands : Stands code u n s) (same : s.user.pc = s.bvr0) :
    ∃ t, tick code s = some t ∧ Stands code u (n + 1) t ∧ t.bvr0 = s.bvr0 ∧ t.calls = s.calls := by
  refine ⟨_, tick_executes stands.result same, ⟨?_, ?_, stands.block, stands.on, stands.result⟩,
    rfl, rfl⟩
  · rw [after_succ, ← stands.user]
  · rw [instructions_succ, stands.executed, stands.user]

theorem Ready.handles (ready : Ready code u n s) (goes_on : (after code u n).pc ≠ code.ssOnExit)
    (moves : (after code u n).pc ≠ pcBefore code u n) :
    ∃ t, tick code s = some t ∧ Handled code u n t := by
  have other : s.user.pc ≠ s.bvr0 := by
    rw [ready.user, ready.bvr0]
    exact moves
  have inside : s.user.pc ≠ code.ssOnExit := by
    rw [ready.user]
    exact goes_on
  rw [tick_faults ready.result ready.on other, mismatchFault, if_neg inside, mismatchPcSet,
    if_pos ready.on]
  refine ⟨_, rfl, ⟨ready.user, ready.executed, ready.block, ready.on, ready.result⟩, ?_, ?_⟩
  · rw [ready.user]
  · rw [instructions_succ, List.map_append, ← ready.calls, ready.user]
    rfl

theorem Handled.executes (handled : Handled code u n s) :
    ∃ t, tick code s = some t ∧ Ready code u (n + 1) t := by
  have same : s.user.pc = s.bvr0 := by rw [handled.user, handled.bvr0]
  obtain ⟨t, ran, stands, bvr0, calls⟩ := handled.toStands.executes same
  exact ⟨t, ran, stands, bvr0.trans handled.bvr0, calls.trans handled.calls⟩

theorem Ready.leaves (ready : Ready code u n s) (executes : Executes code u n)
    (exits : (after code u n).pc = code.ssOnExit) : ∃ t, tick code s = some t ∧ Left code u n t := by
  have other : s.user.pc ≠ s.bvr0 := by
    rw [ready.user, ready.bvr0, exits]
    exact Ne.symm (pcBefore_exit executes)
  have here : s.user.pc = code.ssOnExit := by rw [ready.user, exits]
  rw [tick_faults ready.result ready.on other, mismatchFault, if_pos here, resumed, mismatchOff,
    if_pos ready.on]
  exact ⟨_, rfl, ready.user, ready.executed, ready.calls, congrArg some ready.block⟩

theorem Left.stays (left : Left code u n s) : tick code s = some s := by
  simp [tick, left.result]

theorem ticks_succ {k : Nat} (ran : ticks code s k = some t) :
    ticks code s (k + 1) = tick code t := by
  rw [ticks, ran, Option.bind_some]

end Ticks

section Runs

/-- As long as no instruction is at the address of the one before, all of them are handled. -/
theorem run_ready (initial : Ready code u 0 s) {n : Nat} (executes : Executes code u n)
    (moves : ∀ m < n, (after code u m).pc ≠ pcBefore code u m) :
    ∃ k t, ticks code s k = some t ∧ Ready code u n t := by
  induction n with
  | zero => exact ⟨0, s, rfl, initial⟩
  | succ n ih =>
    obtain ⟨before, goes_on⟩ := (executes_succ n).mp executes
    obtain ⟨k, mid, ran, ready⟩ := ih before fun m less => moves m (Nat.lt_succ_of_lt less)
    obtain ⟨called, faults, handled⟩ := ready.handles goes_on (moves n (Nat.lt_succ_self n))
    obtain ⟨t, steps, next⟩ := handled.executes
    have one := (ticks_succ ran).trans faults
    exact ⟨k + 2, t, (ticks_succ one).trans steps, next⟩

/-- Where a run that handles all its instructions can be. -/
inductive Along (code : Code M) (u : User M) (s : Sys M) : Prop where
  | ready {n : Nat} (executes : Executes code u n) (ready : Ready code u n s)
  | handled {n : Nat} (executes : Executes code u (n + 1)) (handled : Handled code u n s)
  | left {n : Nat} (executes : Executes code u n) (left : Left code u n s)

theorem along_tick (moves : Moves code u) (along : Along code u s) :
    ∃ t, tick code s = some t ∧ Along code u t := by
  cases along with
  | @ready n executes ready =>
    by_cases exits : (after code u n).pc = code.ssOnExit
    · obtain ⟨t, ran, left⟩ := ready.leaves executes exits
      exact ⟨t, ran, .left executes left⟩
    · have more := (executes_succ n).mpr ⟨executes, exits⟩
      obtain ⟨t, ran, handled⟩ := ready.handles exits (moves n more)
      exact ⟨t, ran, .handled more handled⟩
  | handled executes handled =>
    obtain ⟨t, ran, ready⟩ := handled.executes
    exact ⟨t, ran, .ready executes ready⟩
  | left executes left => exact ⟨s, left.stays, .left executes left⟩

theorem run_along (moves : Moves code u) (initial : Ready code u 0 s) {k : Nat}
    (ran : ticks code s k = some t) : Along code u t := by
  induction k generalizing t with
  | zero =>
    cases ran
    exact .ready (fun m less => absurd less (Nat.not_lt_zero m)) initial
  | succ k ih =>
    obtain ⟨mid, before, step⟩ := Option.bind_eq_some_iff.mp ran
    obtain ⟨t', step', along⟩ := along_tick moves (ih before)
    cases step.symm.trans step'
    exact along

end Runs

/-- The block of `mini_step_run` and what it returns. -/
structure BlockZero (s : Sys M) : Prop where
  block : s.r.val 0 = 0
  result : ∀ v, s.result = some v → v = 0

theorem result_tick (zero : BlockZero s) (ran : tick code s = some t) : BlockZero t := by
  unfold tick at ran
  split_ifs at ran
  · cases ran
    exact zero
  · simp only [mismatchFault, resumed, mismatchOff, mismatchPcSet] at ran
    split_ifs at ran
    · cases ran
      exact ⟨zero.block, fun v same => (Option.some.inj same).symm.trans zero.block⟩
    · cases ran
    · cases ran
      exact ⟨zero.block, zero.result⟩
  · cases ran
    exact ⟨zero.block, zero.result⟩

theorem run_result (initial : BlockZero s) {k : Nat} (ran : ticks code s k = some t) :
    BlockZero t := by
  induction k generalizing t with
  | zero =>
    cases ran
    exact initial
  | succ k ih =>
    obtain ⟨mid, before, step⟩ := Option.bind_eq_some_iff.mp ran
    exact result_tick (ih before) step

def pcOf (r : UserRegs) : UInt32 := r.val 15

/-- The stepped run executes the instructions of the call, with its argument and its result, calls
the handler once for each, with its registers, and returns what the call returns. -/
structure AsCalled (code : Code M) (u : User M) (s : Sys M) : Prop where
  argument : s.user.regs.val 0 = u.regs.val 0
  follows : ∀ k t, ticks code s k = some t →
    ∃ n, Executes code u n ∧ t.executed.map pcOf = (instructions code u n).map pcOf
  reaches : ∀ n, Executes code u n →
    ∃ k t, ticks code s k = some t ∧ t.executed.map pcOf = (instructions code u n).map pcOf
  handled : ∀ k t, ticks code s k = some t → t.calls = t.executed.map faultOf ∨
    t.calls = (t.executed ++ [t.user.regs]).map faultOf
  returns : ∀ n v, ReturnsAfter code u n v → ∃ k t, ticks code s k = some t ∧
    t.executed.length = n ∧ t.calls = t.executed.map faultOf ∧ t.user.regs.val 0 = v ∧
    t.result = some v

section Start

variable {mem : M} {fn arg sp cpsr : UInt32}

def started (code : Code M) (mem : M) (fn sp cpsr : UInt32) : Sys M :=
  { miniStepInit mem with
    user := ⟨runRegs code fn sp cpsr, mem⟩
    r := runRegs code fn sp cpsr
    singleStepOnP := true }

theorem run_started :
    miniStepRun code (miniStepInit mem) fn arg sp cpsr = some (started code mem fn sp cpsr) := rfl

def call (code : Code M) (mem : M) (fn arg sp cpsr : UInt32) : User M :=
  ⟨callRegs code fn arg sp cpsr, mem⟩

theorem call_zero : call code mem fn 0 sp cpsr = (started code mem fn sp cpsr).user := by
  have same : callRegs code fn 0 sp cpsr = runRegs code fn sp cpsr := by
    apply Subtype.ext
    funext i
    simp only [callRegs, runRegs]
    split_ifs with first <;> simp_all
  rw [call, same]
  rfl

theorem started_ready :
    Ready code (call code mem fn 0 sp cpsr) 0 (started code mem fn sp cpsr) where
  user := call_zero.symm
  executed := rfl
  block := rfl
  on := rfl
  result := rfl
  bvr0 := rfl
  calls := rfl

end Start

theorem Along.executed (along : Along code u s) :
    ∃ n, Executes code u n ∧ s.executed = instructions code u n := by
  cases along with
  | @ready n executes ready => exact ⟨n, executes, ready.executed⟩
  | @handled n executes handled => exact ⟨n, ((executes_succ n).mp executes).1, handled.executed⟩
  | @left n executes left => exact ⟨n, executes, left.executed⟩

theorem Along.calls (along : Along code u s) : s.calls = s.executed.map faultOf ∨
    s.calls = (s.executed ++ [s.user.regs]).map faultOf := by
  cases along with
  | ready executes ready => exact Or.inl (by rw [ready.calls, ready.executed])
  | handled executes handled =>
    right
    rw [handled.calls, handled.executed, handled.user, instructions_succ]
  | left executes left => exact Or.inl (by rw [left.calls, left.executed])

/-- Where the handler is called for each instruction, none is at the address of the one before. -/
theorem moves_of_handled (initial : Ready code u 0 s)
    (handled : ∀ k t, ticks code s k = some t → t.calls = t.executed.map faultOf ∨
      t.calls = (t.executed ++ [t.user.regs]).map faultOf) : Moves code u := by
  intro n
  induction n using Nat.strong_induction_on with
  | _ n ih =>
    intro executes same
    obtain ⟨before, goes_on⟩ := (executes_succ n).mp executes
    have moves : ∀ m < n, (after code u m).pc ≠ pcBefore code u m := by
      intro m less
      exact ih m less fun i small => executes i (Nat.lt_of_lt_of_le small (Nat.succ_le_succ less.le))
    obtain ⟨k, mid, ran, ready⟩ := run_ready initial before moves
    have here : mid.user.pc = mid.bvr0 := by rw [ready.user, ready.bvr0, same]
    obtain ⟨t, step, stands, _, calls⟩ := ready.toStands.executes here
    have reached := (ticks_succ ran).trans step
    have short : t.calls.length = n := by
      rw [calls, ready.calls]
      simp [instructions]
    have long : t.executed.length = n + 1 := by
      rw [stands.executed]
      simp [instructions]
    obtain same | same := handled _ t reached
    · rw [same, List.length_map, long] at short
      omega
    · rw [same, List.length_map, List.length_append, long] at short
      omega

/-- mini_step_run does what the plain call does exactly when the argument is 0, the function
returns 0 and no instruction follows one at the same address. -/
theorem as_called_iff (code : Code M) (mem : M) (fn arg sp cpsr : UInt32) :
    ∃ s, miniStepRun code (miniStepInit mem) fn arg sp cpsr = some s ∧
      (AsCalled code (call code mem fn arg sp cpsr) s ↔
        arg = 0 ∧ Moves code (call code mem fn arg sp cpsr) ∧
          ∀ n v, ReturnsAfter code (call code mem fn arg sp cpsr) n v → v = 0) := by
  refine ⟨_, run_started, ?_⟩
  constructor
  · intro as_called
    have none_passed : (0 : UInt32) = arg := as_called.argument
    subst none_passed
    have moves := moves_of_handled started_ready as_called.handled
    refine ⟨rfl, moves, ?_⟩
    intro n v returns
    obtain ⟨k, t, ran, _, _, _, result⟩ := as_called.returns n v returns
    have initial : BlockZero (started code mem fn sp cpsr) :=
      ⟨rfl, fun v none_yet => by cases none_yet⟩
    exact (run_result initial ran).result v result
  · rintro ⟨rfl, moves, zero⟩
    constructor
    case argument => rfl
    case follows =>
      intro k t ran
      obtain ⟨n, executes, same⟩ := (run_along moves started_ready ran).executed
      exact ⟨n, executes, congrArg _ same⟩
    case reaches =>
      intro n executes
      obtain ⟨k, t, ran, ready⟩ := run_ready started_ready executes fun m less =>
        moves m fun i small => executes i (Nat.lt_of_lt_of_le small less)
      exact ⟨k, t, ran, congrArg _ ready.executed⟩
    case handled => exact fun k t ran => (run_along moves started_ready ran).calls
    case returns =>
      intro n v returns
      obtain rfl := zero n v returns
      obtain ⟨k, mid, ran, ready⟩ := run_ready started_ready returns.executes fun m less =>
        moves m fun i small => returns.executes i (Nat.lt_of_lt_of_le small less)
      obtain ⟨t, step, left⟩ := ready.leaves returns.executes returns.pc
      refine ⟨k + 1, t, (ticks_succ ran).trans step, ?_, ?_, ?_, left.result⟩
      · rw [left.executed]
        simp [instructions]
      · rw [left.calls, left.executed]
      · rw [left.user]
        exact returns.value

def identity : Code Unit where
  inst := fun r _ => (⟨Function.update r.val 15 (r.val 14), by simpa using r.property⟩, ())
  ssOnExit := 0x9000
  placed := by decide

theorem argument_is_lost : ¬ ∀ (code : Code Unit) (mem : Unit) (fn arg sp cpsr : UInt32) (s : Sys Unit),
    miniStepRun code (miniStepInit mem) fn arg sp cpsr = some s →
    AsCalled code (call code mem fn arg sp cpsr) s := by
  intro all
  have as_called := all identity () 0x8000 5 0x110000 0x13 _ run_started
  have same : (0 : UInt32) = 5 := as_called.argument
  exact absurd same (by decide)

end EmbeddedOS.MiniStep
