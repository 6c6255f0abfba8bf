import EmbeddedOS.Arm.Interrupt
import EmbeddedOS.Steps.Interrupted

/-! interrupts-asm.S and interrupt-asm.S: the tables of exceptions, and the code around the C
handler of a general interrupt. -/
namespace EmbeddedOS.Interrupts
open Arm

def INT_STACK_ADDR : UInt32 := 0x9000000

inductive Label where
  | resetAsm | undefinedInstructionAsm | softwareInterruptAsm | usrSoftwareInterruptAsm
  | prefetchAbortAsm | dataAbortAsm | interruptAsm
  | unhandledReset | unhandledUndefinedInstruction | unhandledSwi | unhandledPrefetchAbort
  | unhandledDataAbort

/-- A line of assembly; `bl` calls interrupt_vector. -/
inductive Line where
  | ldrPc (target : Label)
  | instr (i : Instr)
  | bl

def savedRegs : List Reg := (List.finRange 13).map .low ++ [.lr]

def interruptAsm : List Line :=
  [.instr (.movImm .sp INT_STACK_ADDR), .instr (.subImm .lr .lr 4), .instr (.push savedRegs),
    .instr (.mov (.low 0) .lr), .bl, .instr (.pop savedRegs), .instr .movsPcLr]

/-- The exception tables, each with an entry for every four bytes. -/
inductive Table where
  | interruptTable | usrInterruptTable | interruptVec
  deriving DecidableEq

/-- In the last table the handler itself stands where the entry of general interrupts would. -/
def Table.lines : Table → List Line
  | .interruptTable =>
    [.ldrPc .resetAsm, .ldrPc .undefinedInstructionAsm, .ldrPc .softwareInterruptAsm,
      .ldrPc .prefetchAbortAsm, .ldrPc .dataAbortAsm, .ldrPc .resetAsm, .ldrPc .interruptAsm]
  | .usrInterruptTable =>
    [.ldrPc .resetAsm, .ldrPc .undefinedInstructionAsm, .ldrPc .usrSoftwareInterruptAsm,
      .ldrPc .prefetchAbortAsm, .ldrPc .dataAbortAsm, .ldrPc .resetAsm, .ldrPc .interruptAsm]
  | .interruptVec =>
    [.ldrPc .unhandledReset, .ldrPc .unhandledUndefinedInstruction, .ldrPc .unhandledSwi,
      .ldrPc .unhandledPrefetchAbort, .ldrPc .unhandledDataAbort, .ldrPc .interruptAsm] ++ interruptAsm

/-- The code that runs from the entry for general interrupts, 0x18 bytes into a table. -/
def Table.irqCode (t : Table) : List Line :=
  match t.lines.drop (0x18 / 4) with
  | .ldrPc .interruptAsm :: _ => interruptAsm
  | lines => lines

theorem irqCode_eq (t : Table) : t.irqCode = interruptAsm := by cases t <;> rfl

/-- Lines of code where `vector` is how interrupt_vector may go, and the arguments it is called with. -/
def Exec (vector : Machine → Machine → Prop) : List Line → Machine → List UInt32 → Machine → Prop
  | [], m, told, n => told = [] ∧ n = m
  | .instr i :: rest, m, told, n => ∃ t, step m i = some t ∧ Exec vector rest t told n
  | .bl :: rest, m, told, n => ∃ called k later, m.call [] = some called ∧ vector called k ∧
      told = called.low 0 :: later ∧ Exec vector rest k later n
  | .ldrPc _ :: _, _, _, _ => False

/-- The registers that all modes share, with those of the fast interrupt mode beside the others. -/
structure Cpu extends Machine where
  fiq : Fin 8 → UInt32

/-- A general interrupt, from its entry until it is over. -/
def Irq (t : Table) (address : UInt32) (vector : Machine → Machine → Prop) (m : Cpu)
    (told : List UInt32) (n : Cpu) : Prop :=
  Exec vector t.irqCode (m.takeIrq address) told n.toMachine ∧ n.fiq = m.fiq

def irqOn (m : Cpu) : Bool := m.cpsr &&& irqMask = 0

def controlMask : UInt32 := 0x07f0ffff

/-- The calling convention, as far as the code after the call relies on it, for a function with
data of its own and a stack down to `bottom`. -/
structure Conforms (own : UInt32 → Prop) (bottom : UInt32) (vector : Machine → Machine → Prop) : Prop where
  returns : ∀ {m b}, bankOf m.cpsr = some b → ∃ k, vector m k
  sp : ∀ {m k b}, bankOf m.cpsr = some b → vector m k → k.sp = m.sp
  lr : ∀ {m k b}, bankOf m.cpsr = some b → vector m k → ∀ c, c ≠ b → k.lr c = m.lr c
  spsr : ∀ {m k b}, bankOf m.cpsr = some b → vector m k → k.spsr = m.spsr
  status : ∀ {m k b}, bankOf m.cpsr = some b → vector m k →
    k.cpsr &&& controlMask = m.cpsr &&& controlMask
  mem : ∀ {m k b}, bankOf m.cpsr = some b → vector m k → ∀ a, ¬ own a →
    ¬ (bottom ≤ a ∧ a < m.sp b) → k.mem a = m.mem a

def frame : UInt32 := INT_STACK_ADDR - 56

theorem frame_eq : INT_STACK_ADDR - 4 * UInt32.ofNat savedRegs.length = frame := by decide

/-- The interrupt stack, down to `bottom`, and the data of the handler. -/
def Hidden (own : UInt32 → Prop) (bottom a : UInt32) : Prop := own a ∨ (bottom ≤ a ∧ a < INT_STACK_ADDR)

/-- The interrupt stack has room for the registers, and the handler's data is elsewhere. -/
structure Room (own : UInt32 → Prop) (bottom : UInt32) : Prop where
  deep : bottom ≤ frame
  apart : ∀ a, own a → ¬ (frame ≤ a ∧ a < INT_STACK_ADDR)

/-- Equal but for what belongs to the interrupts: the registers of their mode and hidden memory. -/
structure Same (own : UInt32 → Prop) (bottom : UInt32) (m n : Cpu) : Prop where
  lows : n.low = m.low
  sp : ∀ b, b ≠ .irq → n.sp b = m.sp b
  lr : ∀ b, b ≠ .irq → n.lr b = m.lr b
  spsr : ∀ b, b ≠ .irq → n.spsr b = m.spsr b
  pc : n.pc = m.pc
  cpsr : n.cpsr = m.cpsr
  fiq : n.fiq = m.fiq
  mem : ∀ a, ¬ Hidden own bottom a → n.mem a = m.mem a

section
variable {own : UInt32 → Prop} {bottom : UInt32} {m n l : Cpu}

theorem Same.symm (same : Same own bottom m n) : Same own bottom n m where
  lows := same.lows.symm
  sp b other := (same.sp b other).symm
  lr b other := (same.lr b other).symm
  spsr b other := (same.spsr b other).symm
  pc := same.pc.symm
  cpsr := same.cpsr.symm
  fiq := same.fiq.symm
  mem a plain := (same.mem a plain).symm

theorem Same.trans (one : Same own bottom l m) (two : Same own bottom m n) : Same own bottom l n where
  lows := two.lows.trans one.lows
  sp b other := (two.sp b other).trans (one.sp b other)
  lr b other := (two.lr b other).trans (one.lr b other)
  spsr b other := (two.spsr b other).trans (one.spsr b other)
  pc := two.pc.trans one.pc
  cpsr := two.cpsr.trans one.cpsr
  fiq := two.fiq.trans one.fiq
  mem a plain := (two.mem a plain).trans (one.mem a plain)

end

theorem exec_instrs {vector : Machine → Machine → Prop} (code : List Instr) (rest : List Line)
    {m n : Machine} {told : List UInt32} :
    Exec vector (code.map .instr ++ rest) m told n ↔
      ∃ t, exec code m = some t ∧ Exec vector rest t told n := by
  induction code generalizing m with
  | nil => simp [exec, Steps.exec]
  | cons i code ih =>
    constructor
    · rintro ⟨s, one, later⟩
      obtain ⟨t, ran, final⟩ := ih.mp later
      exact ⟨t, Option.bind_eq_some_iff.mpr ⟨s, one, ran⟩, final⟩
    · rintro ⟨t, ran, final⟩
      obtain ⟨s, one, later⟩ := Option.bind_eq_some_iff.mp ran
      exact ⟨s, one, ih.mpr ⟨t, later, final⟩⟩

end EmbeddedOS.Interrupts
