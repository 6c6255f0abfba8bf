import EmbeddedOS.Mmu.Machine

/-! The registers along some code: as they are written, and as fetching, predicting and translating
may see them. -/
namespace EmbeddedOS.Mmu
open Steps

variable {slot : Tables → UInt32 → UInt32}

/-- What the instructions alone decide. -/
structure Core where
  gpr : Gpr → UInt32
  regs : Cp15

def Machine.core (s : Machine) : Core := ⟨s.gpr, s.regs⟩

def Core.next (c : Core) : Instr → Core
  | .mov d v => { c with gpr := Function.update c.gpr d v }
  | .bic d n v => { c with gpr := Function.update c.gpr d (c.gpr n &&& ~~~v) }
  | .nop => c
  | .mcr d crn crm op2 =>
    match effectOf crn crm op2 with
    | some (.write r) => { c with regs := c.regs.write (r, c.gpr d) }
    | _ => c
  | .mrc d crn crm op2 =>
    if (crn, crm, op2) = (1, 0, 0) then { c with gpr := Function.update c.gpr d c.regs.control }
    else c

/-- The registers are seen as written, and all instructions are fetched under them since. -/
def Settled (settled : Bool) (s : Machine) : Prop :=
  settled = true → s.posted = [] ∧ ∀ f ∈ s.buffer, f.made = s.seen ∧ f.old = false

end EmbeddedOS.Mmu
