import EmbeddedOS.Mmu.Machine

/-! your-mmu-asm.S, with the macros of armv6-coprocessor-asm.h. -/
namespace EmbeddedOS.Mmu

def dsb (rd : Gpr) : List Instr := [.mcr rd 7 10 4]

def prefetchFlush (rd : Gpr) : List Instr := [.mcr rd 7 5 4]

def flushBtb (rd : Gpr) : List Instr := [.mcr rd 7 5 6]

/-- Four times over, with eleven nops, for a bug of the chip. -/
def invIcache (rd : Gpr) : List Instr :=
  List.replicate 4 (.mcr rd 7 5 0) ++ List.replicate 11 .nop

def cleanInvDcache (rd : Gpr) : List Instr := [.mcr rd 7 14 0]

def invDcache (rd : Gpr) : List Instr := [.mcr rd 7 6 0]

def invTlb (rd : Gpr) : List Instr := [.mcr rd 8 7 0]

def ttbr0Set (rd : Gpr) : List Instr := [.mcr rd 2 0 0]

def ttbr1Set (rd : Gpr) : List Instr := [.mcr rd 2 0 1]

def ttbrBaseCtrlWr (rd : Gpr) : List Instr := [.mcr rd 2 0 2]

def asidSet (rd : Gpr) : List Instr := [.mcr rd 13 0 1]

def domainCtrlWr (rd : Gpr) : List Instr := [.mcr rd 3 0 0]

def controlReg1Rd (rd : Gpr) : List Instr := [.mrc rd 1 0 0]

def controlReg1Wr (rd : Gpr) : List Instr := [.mcr rd 1 0 0]

def mmuReset : List Instr :=
  [.mov .r2 0] ++ invTlb .r2 ++ invDcache .r2 ++ invIcache .r2 ++ dsb .r2 ++ prefetchFlush .r2

def cp15DomainCtrlWr : List Instr :=
  [.mov .r2 0] ++ domainCtrlWr .r0 ++ prefetchFlush .r2

def cp15SetProcidTtbr0 : List Instr :=
  [.mov .r2 0] ++ asidSet .r2 ++ prefetchFlush .r2 ++
  ttbrBaseCtrlWr .r2 ++ ttbr0Set .r1 ++ ttbr1Set .r2 ++ prefetchFlush .r2 ++
  flushBtb .r2 ++ prefetchFlush .r2 ++
  asidSet .r0 ++ prefetchFlush .r2

def mmuDisableSetAsm : List Instr :=
  [.mov .r2 0] ++ cleanInvDcache .r2 ++ dsb .r2 ++ prefetchFlush .r2 ++
  controlReg1Wr .r0 ++ prefetchFlush .r2 ++
  invIcache .r2 ++ dsb .r2 ++ prefetchFlush .r2 ++
  flushBtb .r2 ++ prefetchFlush .r2

def mmuEnableSetAsm : List Instr :=
  [.mov .r2 0] ++ controlReg1Rd .r3 ++ [.bic .r3 .r3 0x1000] ++ controlReg1Wr .r3 ++
  prefetchFlush .r2 ++
  invIcache .r2 ++ dsb .r2 ++
  controlReg1Wr .r0 ++ prefetchFlush .r2 ++
  flushBtb .r2 ++ prefetchFlush .r2

def mmuSyncPteMods : List Instr :=
  [.mov .r2 0] ++ cleanInvDcache .r2 ++ invIcache .r2 ++ dsb .r2 ++
  invTlb .r2 ++ flushBtb .r2 ++ dsb .r2 ++ prefetchFlush .r2

/-- The routines, up to their `bx lr`. -/
inductive Routine where
  | mmuReset | cp15DomainCtrlWr | cp15SetProcidTtbr0 | mmuDisableSetAsm | mmuEnableSetAsm
  | mmuSyncPteMods
  deriving DecidableEq

def Routine.code : Routine → List Instr
  | .mmuReset => Mmu.mmuReset
  | .cp15DomainCtrlWr => Mmu.cp15DomainCtrlWr
  | .cp15SetProcidTtbr0 => Mmu.cp15SetProcidTtbr0
  | .mmuDisableSetAsm => Mmu.mmuDisableSetAsm
  | .mmuEnableSetAsm => Mmu.mmuEnableSetAsm
  | .mmuSyncPteMods => Mmu.mmuSyncPteMods

/-- The cp15 registers as a routine is to leave them. -/
def Routine.change (r : Routine) (s : Machine) : Cp15 :=
  match r with
  | .mmuReset | .mmuSyncPteMods => s.regs
  | .cp15DomainCtrlWr => { s.regs with domain := s.gpr .r0 }
  | .cp15SetProcidTtbr0 =>
    { s.regs with ttbr0 := s.gpr .r1, ttbr1 := 0, ttbcr := 0, contextId := s.gpr .r0 }
  | .mmuDisableSetAsm | .mmuEnableSetAsm => { s.regs with control := s.gpr .r0 }

end EmbeddedOS.Mmu
