import EmbeddedOS.FullExcept.Switchto

/-! full-except-asm.S and full-except.c: the way from an exception to the handler that the client
has set, and back to the code that was interrupted. -/
namespace EmbeddedOS.FullExcept
open Arm

def INT_STACK_ADDR : UInt32 := 0x9000000

def saveAllCode : List Instr :=
  [.stmUser .sp, .str .lr .sp 60, .mrsSpsr (.low 12), .str (.low 12) .sp 64, .mov (.low 0) .sp,
    .mrsSpsr (.low 1), .mov (.low 2) .lr]

def prefetchHandlerFull : List Instr :=
  [.movImm .sp INT_STACK_ADDR, .subImm .lr .lr 4] ++ saveAllCode

def dataAbortFull : List Instr :=
  [.movImm .sp INT_STACK_ADDR, .subImm .lr .lr 8] ++ saveAllCode

def syscallFull : List Instr := [.movImm .sp INT_STACK_ADDR] ++ saveAllCode

/-- The entries of the vector table that lead to a full handler. -/
def fullExceptInts : Exception → List Instr
  | .swi => syscallFull
  | .prefetchAbort => prefetchHandlerFull
  | .dataAbort => dataAbortFull

/-- A client's handler, with the block that it is given; none if it does not return. -/
abbrev FullExceptT := UInt32 → Machine → Option Machine

/-- The same, with a value returned. -/
abbrev FullExceptiT := UInt32 → Machine → Option (UInt32 × Machine)

structure Handlers where
  prefetchHandler : Option FullExceptT
  dataAbortHandler : Option FullExceptT
  syscallHandler : Option FullExceptiT

def fixupRegs (r spsr : UInt32) (m : Machine) : Option Machine := do
  let mode ← modeGet spsr
  if mode = USER_MODE then some m
  else privGetSpLrAsm spsr (word r REGS_SP) (word r REGS_LR) m

/-- A C handler for an abort: the checks, the client's handler, and the switch back. -/
def abortFullExcept (handler : Option FullExceptT) (r spsr pc : UInt32) (m : Machine) :
    Option Machine := do
  guard (spsr = m.mem (word r REGS_CPSR))
  guard (pc = m.mem (word r REGS_PC))
  let h ← handler
  let m ← fixupRegs r spsr m
  let m ← h r m
  switchto r m

def prefetchAbortFullExcept (hs : Handlers) := abortFullExcept hs.prefetchHandler

def dataAbortFullExcept (hs : Handlers) := abortFullExcept hs.dataAbortHandler

/-- `sp` is the address of a local variable. -/
def syscallFullExcept (hs : Handlers) (sp r spsr pc : UInt32) (m : Machine) : Option Machine := do
  guard (spsr = m.mem (word r REGS_CPSR))
  guard (pc = m.mem (word r REGS_PC))
  let mode ← modeGet spsr
  guard (mode = USER_MODE)
  guard (sp > 100000)
  let h ← hs.syscallHandler
  let (v, m) ← h r m
  switchto r { m with mem := write m.mem (word r 0) v }

/-- An exception from its vector on, where `sp` is a local of the C handler. -/
def fullExcept (hs : Handlers) (sp : UInt32) (e : Exception) (m : Machine) : Option Machine := do
  let m ← exec (fullExceptInts e) m
  let m ← m.call []
  match e with
  | .prefetchAbort => prefetchAbortFullExcept hs (m.low 0) (m.low 1) (m.low 2) m
  | .dataAbort => dataAbortFullExcept hs (m.low 0) (m.low 1) (m.low 2) m
  | .swi => syscallFullExcept hs sp (m.low 0) (m.low 1) (m.low 2) m

/-- Where user code is to go on after an exception at its pc. -/
def resumePc (e : Exception) (m : Machine) : UInt32 :=
  match e with
  | .swi => m.pc + (if m.cpsr &&& 0x20 = 0 then 4 else 2)
  | _ => m.pc

/-- The state that the handler of an exception is to see. -/
def saved (e : Exception) (m : Machine) : Regs := userRegs { m with pc := resumePc e m }

theorem saveAll_runs {m : Machine} {b : Bank} (bank : bankOf m.cpsr = some b) (own : b ≠ .usr)
    (arm : m.cpsr &&& stateMask = 0) (stack : m.sp b % 4 = 0) :
    ∃ n, exec saveAllCode m = some n ∧
      n.mem = fill m.mem (m.sp b) (m.blockOf .usr 15 ++ [(15, m.lr b), (16, m.spsr b)]) ∧
      n.low 0 = m.sp b ∧ n.low 1 = m.spsr b ∧ n.low 2 = m.lr b ∧ n.cpsr = m.cpsr := by
  have pc_slot : m.sp b + 60 = word (m.sp b) 15 := word_eq _ _ (by decide)
  have cpsr_slot : m.sp b + 64 = word (m.sp b) 16 := word_eq _ _ (by decide)
  have pc_aligned : word (m.sp b) 15 % 4 = 0 := aligned_add stack (slot_aligned 15)
  have cpsr_aligned : word (m.sp b) 16 % 4 = 0 := aligned_add stack (slot_aligned 16)
  simp [saveAllCode, exec, Steps.exec, step, bank, arm, own, Machine.get, stack, pc_slot, cpsr_slot,
    pc_aligned, cpsr_aligned, Machine.set, Machine.next, fill_append, fill]

theorem filled (m : Machine) (mem : Memory) (base pc psr : UInt32) :
    regsAt (fill mem base (m.blockOf .usr 15 ++ [(15, pc), (16, psr)])) base =
      userRegs { m with pc := pc, cpsr := psr } := by
  have order : (m.blockOf .usr 15 ++ [(15, pc), (16, psr)]).map Prod.fst = List.range 17 := rfl
  funext i
  apply fill_inside
  · intro p inside
    have below := List.mem_map_of_mem (f := Prod.fst) inside
    rw [order, List.mem_range] at below
    omega
  · rw [order]
    exact List.nodup_range
  · have small := i.isLt
    by_cases below : i.val < 15
    · have top : i.val < 16 := by omega
      have shown : ({ m with pc := pc, cpsr := psr } : Machine).reg .usr i = m.reg .usr i := by
        apply reg_congr _ _ _ below <;> rfl
      simp [Machine.blockOf, userRegs, below, top, shown]
    · by_cases counter : i.val = 15
      · simp [counter, userRegs, Machine.reg]
      · have last : i.val = 16 := by omega
        simp [last, userRegs]

/-- The trampolines differ in what they take from lr only. -/
theorem trampoline_starts (e : Exception) (m : Machine) (vector : Exception → UInt32) :
    ∃ n, exec (fullExceptInts e) (m.take e vector) = exec saveAllCode n ∧
      n.cpsr = e.status m.cpsr ∧ n.sp e.bank = INT_STACK_ADDR ∧ n.lr e.bank = resumePc e m ∧
      n.spsr e.bank = m.cpsr ∧ ∀ i < 15, n.reg .usr i = m.reg .usr i := by
  have bank := bankOf_status e m.cpsr
  have arm := status_arm e m.cpsr
  cases e <;>
  · simp [fullExceptInts, prefetchHandlerFull, dataAbortFull, syscallFull, exec, Steps.exec,
      step, Machine.take, bank, arm, Machine.set, Machine.get, Machine.next, Exception.link,
      Exception.bank]
    refine ⟨_, rfl, rfl, by simp, by simp [resumePc], by simp, ?_⟩
    intro i below
    apply reg_congr _ _ _ below <;> simp

theorem trampoline_runs (e : Exception) (m : Machine) (vector : Exception → UInt32) :
    ∃ n, exec (fullExceptInts e) (m.take e vector) = some n ∧
      regsAt n.mem INT_STACK_ADDR = saved e m ∧ n.low 0 = INT_STACK_ADDR ∧ n.low 1 = m.cpsr ∧
      n.low 2 = resumePc e m ∧ bankOf n.cpsr = some e.bank := by
  obtain ⟨start, begins, cpsr, stack, link, status, regs⟩ := trampoline_starts e m vector
  have bank : bankOf start.cpsr = some e.bank := by
    rw [cpsr]
    exact bankOf_status e m.cpsr
  have arm : start.cpsr &&& stateMask = 0 := by
    rw [cpsr]
    exact status_arm e m.cpsr
  have aligned : start.sp e.bank % 4 = 0 := by
    rw [stack]
    decide
  obtain ⟨n, runs, mem, first, second, third, kept⟩ := saveAll_runs bank e.bank_own arm aligned
  have block : start.blockOf .usr 15 = m.blockOf .usr 15 := by
    apply List.map_congr_left
    intro i inside
    rw [regs i (List.mem_range.mp inside)]
  refine ⟨n, begins.trans runs, ?_, first.trans stack, second.trans status, third.trans link, ?_⟩
  · rw [mem, stack, block, filled, link, status]
    rfl
  · rw [kept]
    exact bank

end EmbeddedOS.FullExcept
