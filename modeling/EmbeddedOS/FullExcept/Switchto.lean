import EmbeddedOS.Arm.Machine
import Mathlib.Data.List.GetD

/-! switchto.h and switchto-asm.S: the block of saved registers, and the code that resumes it or
saves the running code in one. -/
namespace EmbeddedOS.FullExcept
open Arm

def USER_MODE : UInt32 := 0x10
def IRQ_MODE : UInt32 := 0x12
def SUPER_MODE : UInt32 := 0x13
def ABORT_MODE : UInt32 := 0x17
def UNDEF_MODE : UInt32 := 0x1b
def SYS_MODE : UInt32 := 0x1f

def modeLegal (mode : UInt32) : Option Unit :=
  if mode = USER_MODE ∨ mode = IRQ_MODE ∨ mode = SUPER_MODE ∨ mode = ABORT_MODE ∨
      mode = UNDEF_MODE ∨ mode = SYS_MODE then some ()
  else none

def modeGet (cpsr : UInt32) : Option UInt32 := (modeLegal (cpsr &&& 0x1f)).map fun _ => cpsr &&& 0x1f

def REGS_SP : Nat := 13
def REGS_LR : Nat := 14
def REGS_PC : Nat := 15
def REGS_CPSR : Nat := 16

instance blockRegisters : NeZero 17 := ⟨by decide⟩

/-- The seventeen words of a `regs_t`. -/
abbrev Regs := Fin 17 → UInt32

def regsAt (mem : Memory) (r : UInt32) : Regs := fun i => mem (word r i)

def privGetSpLrCode : List Instr :=
  [.mrsCpsr (.low 3), .msrControl (.low 0), .movImm (.low 12) 0, .str .sp (.low 1) 0,
    .str .lr (.low 2) 0, .msrControl (.low 3), .movImm (.low 12) 0, .bx .lr]

def privGetSpLrAsm (mode sp lr : UInt32) (m : Machine) : Option Machine :=
  (m.call [mode, sp, lr]).bind (exec privGetSpLrCode)

def switchtoUserCode : List Instr :=
  [.movImm (.low 1) 15, .lslImm (.low 1) (.low 1) 2, .add .sp (.low 0) (.low 1), .ldmUser (.low 0),
    .rfe .sp]

def switchtoUserAsm (r : UInt32) (m : Machine) : Option Machine :=
  (m.call [r]).bind (exec switchtoUserCode)

def switchtoPrivCode : List Instr := [.ldr (.low 1) (.low 0) 64, .msrAll (.low 1), .ldmAll (.low 0)]

def switchtoPrivAsm (r : UInt32) (m : Machine) : Option Machine :=
  (m.call [r]).bind (exec switchtoPrivCode)

def switchto (r : UInt32) (m : Machine) : Option Machine := do
  let mode ← modeGet (m.mem (word r REGS_CPSR))
  if mode = USER_MODE then switchtoUserAsm r m else switchtoPrivAsm r m

def cswitchtoSaveCode : List Instr :=
  [.str (.low 4) (.low 0) 16, .str (.low 5) (.low 0) 20, .str (.low 6) (.low 0) 24,
    .str (.low 7) (.low 0) 28, .str (.low 8) (.low 0) 32, .str (.low 9) (.low 0) 36,
    .str (.low 10) (.low 0) 40, .str (.low 11) (.low 0) 44, .str .sp (.low 0) 52,
    .str .lr (.low 0) 56, .str .lr (.low 0) 60, .mrsCpsr (.low 12), .str (.low 12) (.low 0) 64,
    .mov (.low 0) (.low 1)]

/-- The machine once the caller is saved in `old`, with `next` as the first argument. -/
def cswitchtoSave (old next : UInt32) (m : Machine) : Option Machine :=
  (m.call [old, next]).bind (exec cswitchtoSaveCode)

def cswitchtoUserAsm (old next : UInt32) (m : Machine) : Option Machine :=
  (cswitchtoSave old next m).bind fun m => (m.call []).bind (exec switchtoUserCode)

def cswitchtoPrivAsm (old next : UInt32) (m : Machine) : Option Machine :=
  (cswitchtoSave old next m).bind fun m => (m.call []).bind (exec switchtoPrivCode)

def switchtoCswitch (old next : UInt32) (m : Machine) : Option Machine := do
  let mode ← modeGet m.cpsr
  guard (mode ≠ USER_MODE)
  let target ← modeGet (m.mem (word next REGS_CPSR))
  if target = USER_MODE then cswitchtoUserAsm old next m else cswitchtoPrivAsm old next m

/-- The registers and the status of user code, in the order of a block. -/
def userRegs (m : Machine) : Regs := fun i => if i.val < 16 then m.reg .usr i else m.cpsr

theorem userRegs_eq {m : Machine} {mem : Memory} {r : UInt32}
    (low : ∀ n, m.low n = mem (word r n)) (sp : m.sp .usr = mem (word r 13))
    (lr : m.lr .usr = mem (word r 14)) (pc : m.pc = mem (word r 15))
    (cpsr : m.cpsr = mem (word r 16)) : userRegs m = regsAt mem r := by
  funext i
  have small := i.isLt
  simp only [userRegs, Machine.reg, regsAt, low, sp, lr, pc, cpsr]
  split_ifs with one two three four
  · rfl
  · rw [three]
  · rw [four]
  · have last : i.val = 15 := by omega
    rw [last]
  · have last : i.val = 16 := by omega
    rw [last]

theorem mode_get_bank {psr : UInt32} {b : Bank} (bank : bankOf psr = some b) :
    modeGet psr = some (modeBits psr) := by
  have legal : modeLegal (modeBits psr) = some () := by
    apply if_pos
    by_contra other
    simp only [not_or, USER_MODE, IRQ_MODE, SUPER_MODE, ABORT_MODE, UNDEF_MODE, SYS_MODE] at other
    obtain ⟨user, irq, super, abort, undef, sys⟩ := other
    unfold bankOf at bank
    rw [if_neg user, if_neg irq, if_neg super, if_neg abort, if_neg undef, if_neg sys] at bank
    cases bank
  change (modeLegal (modeBits psr)).map _ = _
  rw [legal]
  rfl

theorem switchto_user_runs {m : Machine} {b : Bank} {r : UInt32} (bank : bankOf m.cpsr = some b)
    (own : b ≠ .usr) (arm : m.cpsr &&& stateMask = 0) (aligned : r % 4 = 0)
    (pc : align (m.mem (word r 16)) (m.mem (word r 15)) = m.mem (word r 15)) :
    ∃ final, switchtoUserAsm r m = some final ∧ userRegs final = regsAt m.mem r := by
  have privileged := bank_privileged bank own
  have frame : (r + 60) % 4 = 0 := aligned_add aligned (by decide)
  have shifted : (15 : UInt32) <<< 2 = 60 := by decide
  have psr : word (r + 60) 1 = word r 16 := by
    unfold word
    rw [UInt32.add_assoc]
    rfl
  have counter : r + 60 = word r 15 := word_eq r 15 (by decide)
  simp [switchtoUserAsm, switchtoUserCode, Machine.call, exec, Steps.exec, step, bank, own, arm,
    Machine.set, Machine.get, Machine.next, Machine.loadRegs, aligned, shifted, frame, privileged, psr]
  apply userRegs_eq
  · intro n
    rfl
  · simp
  · simp
  · simp [counter, pc]
  · rfl

/-- Privileged code in ARM state; the reserved bits of a status register read as zero. -/
structure InKernel (m : Machine) (b : Bank) : Prop where
  bank : bankOf m.cpsr = some b
  mode : modeBits m.cpsr ≠ USER
  state : m.cpsr &&& (stateMask ||| unallocMask) = 0

theorem switchto_priv_runs {m : Machine} {b c : Bank} {r : UInt32} (kernel : InKernel m b)
    (aligned : r % 4 = 0) (bank : bankOf (m.mem (word r 16)) = some c)
    (state : m.mem (word r 16) &&& (stateMask ||| unallocMask) = 0)
    (pc : m.mem (word r 15) % 4 = 0) :
    ∃ final, switchtoPrivAsm r m = some final ∧ (∀ n, final.low n = m.mem (word r n)) ∧
      final.sp c = m.mem (word r 13) ∧ final.pc = m.mem (word r 15) ∧
      final.cpsr = m.mem (word r 16) := by
  have arm : m.cpsr &&& stateMask = 0 := masked_again (by decide) kernel.state
  have arm' : m.mem (word r 16) &&& stateMask = 0 := masked_again (by decide) state
  have slot : r + 64 = word r 16 := word_eq _ _ (by decide)
  have slot_ok : word r 16 % 4 = 0 := aligned_add aligned (slot_aligned 16)
  simp [switchtoPrivAsm, Machine.call, switchtoPrivCode, exec, Steps.exec, step, kernel.bank, arm,
    Machine.get, Machine.set, Machine.next, slot, slot_ok,
    writeStatus_all, kernel.mode, kernel.state, state, bank, arm', aligned, Machine.loadRegs,
    branch_aligned, pc]

def calleeSlots : List (Reg × Nat) :=
  [(.low 4, 4), (.low 5, 5), (.low 6, 6), (.low 7, 7), (.low 8, 8), (.low 9, 9), (.low 10, 10),
    (.low 11, 11), (.sp, 13), (.lr, 14), (.lr, 15)]

theorem cswitchtoSaveCode_eq : cswitchtoSaveCode = stores (.low 0) calleeSlots ++
    [.mrsCpsr (.low 12), .str (.low 12) (.low 0) 64, .mov (.low 0) (.low 1)] := rfl

/-- What cswitchto keeps of its caller, with the way back in the slots of lr and pc. -/
def calleeBlock (m : Machine) (b : Bank) : List (Nat × UInt32) :=
  [(4, m.low 4), (5, m.low 5), (6, m.low 6), (7, m.low 7), (8, m.low 8), (9, m.low 9),
    (10, m.low 10), (11, m.low 11), (13, m.sp b), (14, m.pc + 4), (15, m.pc + 4), (16, m.cpsr)]

theorem cswitchto_saves {m : Machine} {b : Bank} {old : UInt32} (next : UInt32) (kernel : InKernel m b)
    (aligned : old % 4 = 0) :
    ∃ s, cswitchtoSave old next m = some s ∧ s.low 0 = next ∧ s.cpsr = m.cpsr ∧
      ∀ p ∈ calleeBlock m b, s.mem (word old p.1) = p.2 := by
  have arm : m.cpsr &&& stateMask = 0 := masked_again (by decide) kernel.state
  have slot : old + 64 = word old 16 := word_eq _ _ (by decide)
  have slot_ok : word old 16 % 4 = 0 := aligned_add aligned (slot_aligned 16)
  let called : Machine :=
    { m with
      low := fun n => [old, next].getD n (m.low n)
      lr := Function.update m.lr b (m.pc + 4) }
  have call : m.call [old, next] = some called := by
    simp [Machine.call, kernel.bank, called]
  have low (n : Fin 13) (above : 2 ≤ n.val) : called.low n = m.low n := List.getD_eq_default _ _ above
  have link : called.lr b = m.pc + 4 := Function.update_self ..
  have sp : called.sp b = m.sp b := rfl
  have block : calleeSlots.map (fun s => (s.2, called.get b s.1)) ++ [(16, m.cpsr)] = calleeBlock m b := by
    simp [calleeSlots, calleeBlock, Machine.get, link, sp, low 4 (by decide), low 5 (by decide),
      low 6 (by decide), low 7 (by decide), low 8 (by decide), low 9 (by decide),
      low 10 (by decide), low 11 (by decide)]
  obtain ⟨pc, stored⟩ := exec_stores (n := .low 0) (m := called) kernel.bank arm aligned calleeSlots
  obtain ⟨s, runs, first, cpsr, mem⟩ : ∃ s, cswitchtoSave old next m = some s ∧ s.low 0 = next ∧
      s.cpsr = m.cpsr ∧ s.mem = fill m.mem old (calleeBlock m b) := by
    rw [cswitchtoSave, call, Option.bind_some, cswitchtoSaveCode_eq, stored, ← block, fill_append]
    simp [exec, Steps.exec, step, kernel.bank, arm, Machine.get, Machine.set, Machine.next, fill, called,
      slot, slot_ok]
  refine ⟨s, runs, first, cpsr, ?_⟩
  intro p inside
  rw [mem]
  exact fill_inside _ _ (by simp [calleeBlock]) (by simp [calleeBlock]) inside

end EmbeddedOS.FullExcept
