import EmbeddedOS.EquivThreads.Threads
import Mathlib.Logic.Function.Iterate

/-! mini-step.c: a function that runs at user level by mismatch faults, and the plain call of it. -/
namespace EmbeddedOS.MiniStep
open EquivThreads FullExcept

/-- Code that stays at user level, whatever it does to the registers and to memory, and the
address of the function to which it returns. -/
structure Code (M : Type) where
  inst : UserRegs → M → UserRegs × M
  ssOnExit : UInt32
  placed : ssOnExit ≠ 0

structure User (M : Type) where
  regs : UserRegs
  mem : M

variable {M : Type}

def User.pc (u : User M) : UInt32 := u.regs.val 15

def Code.next (code : Code M) (u : User M) : User M :=
  ⟨(code.inst u.regs u.mem).1, (code.inst u.regs u.mem).2⟩

structure StepFault where
  faultPc : UInt32
  regs : UserRegs

def stepFaultMk (faultPc : UInt32) (regs : UserRegs) : StepFault := ⟨faultPc, regs⟩

/-- The machine with the variables of mini-step.c, the block of `mini_step_run` and what it
returned, the calls of the handler, and the registers of the instructions that were executed. -/
structure Sys (M : Type) where
  user : User M
  bvr0 : UInt32
  singleStepOnP : Bool
  r : UserRegs
  result : Option UInt32
  calls : List StepFault
  executed : List UserRegs

def mismatchPcSet (s : Sys M) (pc : UInt32) : Option (Sys M) :=
  if s.singleStepOnP then some { s with bvr0 := pc } else none

def mismatchOn (s : Sys M) : Option (Sys M) :=
  if s.singleStepOnP then none else mismatchPcSet { s with singleStepOnP := true } 0

def mismatchOff (s : Sys M) : Option (Sys M) :=
  if s.singleStepOnP then some { s with singleStepOnP := false } else none

def resumed (s : Sys M) : Option (Sys M) :=
  (mismatchOff s).map fun s => { s with result := some (s.r.val 0) }

/-- What the fault saved is what the switch at its end resumes. -/
def mismatchFault (code : Code M) (s : Sys M) : Option (Sys M) :=
  let pc := s.user.pc
  if pc = code.ssOnExit then resumed s
  else mismatchPcSet { s with calls := s.calls ++ [stepFaultMk pc s.user.regs] } pc

/-- One instruction of user code, or the fault in its place. -/
def tick (code : Code M) (s : Sys M) : Option (Sys M) :=
  if s.result.isSome then some s
  else if s.singleStepOnP ∧ s.user.pc ≠ s.bvr0 then mismatchFault code s
  else some { s with user := code.next s.user, executed := s.executed ++ [s.user.regs] }

def ticks (code : Code M) (s : Sys M) : Nat → Option (Sys M)
  | 0 => some s
  | n + 1 => (ticks code s n).bind (tick code)

/-- The registers that `mini_step_run` sets up. -/
def runRegs (code : Code M) (fn sp cpsr : UInt32) : UserRegs :=
  ⟨fun i => if i = 15 then fn else if i = 13 then sp else if i = 14 then code.ssOnExit
    else if i = 16 then cpsrInherit USER_MODE cpsr else 0, inherit_user cpsr⟩

def miniStepInit (mem : M) : Sys M where
  user := ⟨⟨fun i => if i = 16 then cpsrInherit USER_MODE 0 else 0, inherit_user 0⟩, mem⟩
  bvr0 := 0
  singleStepOnP := false
  r := ⟨fun i => if i = 16 then cpsrInherit USER_MODE 0 else 0, inherit_user 0⟩
  result := none
  calls := []
  executed := []

/-- `mini_step_run` up to the switch, with the end of its stack and its own status. The argument
is not among the registers. -/
def miniStepRun (code : Code M) (s : Sys M) (fn _arg sp cpsr : UInt32) : Option (Sys M) :=
  (mismatchOn s).map fun s =>
    { s with r := runRegs code fn sp cpsr, user := ⟨runRegs code fn sp cpsr, s.user.mem⟩ }

section Call

variable (code : Code M) (u : User M)

/-- The registers of a plain call on the same stack, to return to the same address. -/
def callRegs (fn arg sp cpsr : UInt32) : UserRegs :=
  ⟨fun i => if i = 0 then arg else if i = 15 then fn else if i = 13 then sp
    else if i = 14 then code.ssOnExit else if i = 16 then cpsrInherit USER_MODE cpsr else 0,
    inherit_user cpsr⟩

def after (n : Nat) : User M := code.next^[n] u

def Executes (n : Nat) : Prop := ∀ m < n, (after code u m).pc ≠ code.ssOnExit

def instructions (n : Nat) : List UserRegs := (List.range n).map fun m => (after code u m).regs

structure ReturnsAfter (n : Nat) (v : UInt32) : Prop where
  executes : Executes code u n
  pc : (after code u n).pc = code.ssOnExit
  value : (after code u n).regs.val 0 = v

/-- The address of the instruction before, and the 0 of `mismatch_on` before the first. -/
def pcBefore : Nat → UInt32
  | 0 => 0
  | n + 1 => (after code u n).pc

/-- No instruction is executed at the address of the one before. -/
def Moves : Prop := ∀ n, Executes code u (n + 1) → (after code u n).pc ≠ pcBefore code u n

variable {code u}

theorem after_succ (n : Nat) : after code u (n + 1) = code.next (after code u n) :=
  Function.iterate_succ_apply' ..

theorem instructions_succ (n : Nat) :
    instructions code u (n + 1) = instructions code u n ++ [(after code u n).regs] := by
  rw [instructions, List.range_succ, List.map_append]
  rfl

theorem executes_succ (n : Nat) :
    Executes code u (n + 1) ↔ Executes code u n ∧ (after code u n).pc ≠ code.ssOnExit := by
  constructor
  · intro executes
    exact ⟨fun m less => executes m (Nat.lt_succ_of_lt less), executes n (Nat.lt_succ_self n)⟩
  · rintro ⟨executes, goes_on⟩ m less
    obtain less | rfl := Nat.lt_succ_iff_lt_or_eq.mp less
    · exact executes m less
    · exact goes_on

theorem pcBefore_exit {n : Nat} (executes : Executes code u n) : pcBefore code u n ≠ code.ssOnExit := by
  cases n with
  | zero => exact Ne.symm code.placed
  | succ n => exact executes n (Nat.lt_succ_self n)

end Call

end EmbeddedOS.MiniStep
