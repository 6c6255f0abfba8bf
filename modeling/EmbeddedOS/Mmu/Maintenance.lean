import EmbeddedOS.Mmu.Asm
import EmbeddedOS.Mmu.Goal
import EmbeddedOS.Mmu.Registers

/-! The routines of your-mmu-asm.S leave nothing stale, but for cp15_set_procid_ttbr0, which flushes
the BTB before the context id is what it is to be. -/
namespace EmbeddedOS.Mmu
open Steps

variable {slot : Tables → UInt32 → UInt32}

/-- What a routine's change has invalidated. A change of the tables invalidates no TLB entries, but
one of other tables has to have another ASID, and a global one to be what the new tables have. -/
def Routine.stale (slot : Tables → UInt32 → UInt32) (r : Routine) (now : Machine) : Entry → Prop
  | .tlb e =>
    match r with
    | .mmuReset => e.old = true
    | .mmuSyncPteMods => e.old = true ∨ e.pte ≠ now.held.memory (slot e.made.tables e.page)
    | .cp15SetProcidTtbr0 => (e.made.asid = now.seen.asid ∧ e.made.tables ≠ now.seen.tables) ∨
        (globalWord e.pte = true ∧ e.pte ≠ now.held.memory (slot now.seen.tables e.page))
    | _ => False
  | .btb b =>
    match r with
    | .mmuSyncPteMods => b.old = true
    | .cp15SetProcidTtbr0 | .mmuDisableSetAsm | .mmuEnableSetAsm => b.made.regime ≠ now.seen.regime
    | _ => False
  | .line l =>
    match r with
    | .mmuReset | .mmuDisableSetAsm | .mmuEnableSetAsm | .mmuSyncPteMods => l.old = true
    | _ => False
  | .data _ l =>
    match r with
    | .mmuReset => l.old = true
    | .mmuDisableSetAsm | .mmuSyncPteMods => l.old = true ∨ l.dirty = true
    | _ => False

/-- The change is visible, and what it has invalidated is neither held nor was fetched through. -/
structure Clean (slot : Tables → UInt32 → UInt32) (r : Routine) (s t : Machine) : Prop where
  visible : t.posted = []
  change : t.seen = r.change s
  held : ∀ x, t.held.has x → ¬ r.stale slot t x
  fetched : ∀ f ∈ t.buffer, f.made = t.seen ∧ f.old = false ∧ ∀ x, f.uses x → ¬ r.stale slot t x

/-- The hardware acts on its own, with a condition on the branch targets that it records. -/
def around (slot : Tables → UInt32 → UInt32) (record : List Instr → Machine → Prop)
    (code : List Instr) (s t : Machine) : Prop :=
  ∃ a, t = s.act slot a ∧ ∀ branch target, a = .fill (.record branch target) → record code s

section Goals

theorem acts (record : List Instr → Machine → Prop) : Acts slot (around slot record) := by
  rintro code s t ⟨a, moved, -⟩
  exact ⟨a, moved⟩

def Held.clean (h : Held) : Prop := ∀ a l, h.dcache a = some l → l.dirty = false

end Goals

section Runs

variable {env : List Instr → Machine → Machine → Prop} {g : Goal slot} {code : List Instr}
  {s t : Machine}

/-- The part of a regime that is not the context id. -/
def Cp15.apart (now v : Cp15) : Prop := v.mmuOn = now.mmuOn ∧ v.tables = now.tables

section Asid

variable {asid : UInt32} {tables : Tables} {st : Status}

end Asid

variable {record : List Instr → Machine → Prop}

end Runs

section Switch

end Switch

end EmbeddedOS.Mmu
