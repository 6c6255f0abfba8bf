import Mathlib.Logic.Function.Basic
import EmbeddedOS.Steps.Interference

/-! A machine that follows MEMORY-ORDER-cheatsheet.md: what it holds beside memory, what it may do
by itself, and the cp15 instructions. -/
namespace EmbeddedOS.Mmu

inductive Gpr where
  | r0 | r1 | r2 | r3
  deriving DecidableEq

/-- The cp15 registers that translation and fetching depend on. -/
structure Cp15 where
  control : UInt32
  domain : UInt32
  ttbr0 : UInt32
  ttbr1 : UInt32
  ttbcr : UInt32
  contextId : UInt32
  deriving DecidableEq

inductive Reg where
  | control | domain | ttbr0 | ttbr1 | ttbcr | contextId
  deriving DecidableEq

def Cp15.write (v : Cp15) : Reg × UInt32 → Cp15
  | (.control, x) => { v with control := x }
  | (.domain, x) => { v with domain := x }
  | (.ttbr0, x) => { v with ttbr0 := x }
  | (.ttbr1, x) => { v with ttbr1 := x }
  | (.ttbcr, x) => { v with ttbcr := x }
  | (.contextId, x) => { v with contextId := x }

def Cp15.mmuOn (v : Cp15) : Bool := v.control &&& 0x1 ≠ 0

def Cp15.dcacheOn (v : Cp15) : Bool := v.control &&& 0x4 ≠ 0

def Cp15.icacheOn (v : Cp15) : Bool := v.control &&& 0x1000 ≠ 0

def asidOf (contextId : UInt32) : UInt32 := contextId &&& 0xff

def Cp15.asid (v : Cp15) : UInt32 := asidOf v.contextId

structure Tables where
  ttbr0 : UInt32
  ttbr1 : UInt32
  ttbcr : UInt32
  deriving DecidableEq

def Cp15.tables (v : Cp15) : Tables := ⟨v.ttbr0, v.ttbr1, v.ttbcr⟩

/-- What a branch target is good for: the BTB has no ASIDs. -/
def Cp15.regime (v : Cp15) : Bool × Tables × UInt32 := (v.mmuOn, v.tables, v.contextId)

/-- Each entry notes the registers that it was made under, and whether the routine of interest was
called since. -/
structure TlbEntry where
  made : Cp15
  page : UInt32
  pte : UInt32
  old : Bool
  deriving DecidableEq

/-- A section with nG clear: such an entry is used under every ASID. -/
def globalWord (pte : UInt32) : Bool := pte &&& 0x20003 = 0x2

structure BtbEntry where
  made : Cp15
  branch : UInt32
  target : UInt32
  old : Bool
  deriving DecidableEq

structure Line where
  addr : UInt32
  old : Bool
  deriving DecidableEq

structure DLine where
  word : UInt32
  dirty : Bool
  old : Bool
  deriving DecidableEq

/-- An instruction in the prefetch buffer, with what it was fetched through. -/
structure Fetched where
  made : Cp15
  through : Option TlbEntry
  line : Option Line
  old : Bool
  deriving DecidableEq

/-- Memory and all that is held beside it. -/
structure Held where
  tlb : List TlbEntry
  btb : List BtbEntry
  icache : List Line
  dcache : UInt32 → Option DLine
  memory : UInt32 → UInt32

/-- The maintenance operations. -/
inductive Op where
  | invTlb | invDcache | cleanInvDcache | invIcache | flushBtb
  deriving DecidableEq

def Held.written (h : Held) (a : UInt32) : UInt32 :=
  match h.dcache a with
  | some l => if l.dirty then l.word else h.memory a
  | none => h.memory a

/-- The words that the table walker may find at an address, now or once dirty lines are written back. -/
def Held.finds (h : Held) (a w : UInt32) : Prop :=
  h.memory a = w ∨ ∃ l, h.dcache a = some l ∧ l.dirty = true ∧ l.word = w

def Held.effect (h : Held) : Op → Held
  | .invTlb => { h with tlb := [] }
  | .invDcache => { h with dcache := fun _ => none }
  | .cleanInvDcache => { h with memory := h.written, dcache := fun _ => none }
  | .invIcache => { h with icache := [] }
  | .flushBtb => { h with btb := [] }

/-- What the hardware may do at any time, under the registers as it sees them. -/
inductive Fill where
  | walk (page : UInt32)
  | record (branch target : UInt32)
  | icache (addr : UInt32)
  | dcache (addr : UInt32)
  | evict (addr : UInt32)

section
variable (slot : Tables → UInt32 → UInt32)

/-- The table walker reads memory; `slot` is where it looks. -/
def Held.fill (h : Held) (v : Cp15) : Fill → Held
  | .walk page =>
    if v.mmuOn then
      { h with tlb := h.tlb ++ [⟨v, page, h.memory (slot v.tables page), false⟩] }
    else h
  | .record branch target => { h with btb := h.btb ++ [⟨v, branch, target, false⟩] }
  | .icache addr => if v.icacheOn then { h with icache := h.icache ++ [⟨addr, false⟩] } else h
  | .dcache addr =>
    if v.dcacheOn ∧ h.dcache addr = none then
      { h with dcache := Function.update h.dcache addr (some ⟨h.memory addr, false, false⟩) }
    else h
  | .evict addr =>
    { h with
      memory := Function.update h.memory addr (h.written addr)
      dcache := Function.update h.dcache addr none }

end

/-- Register writes and maintenance operations wait here until they are done; `seen` is what
fetching, predicting and translating go by. -/
structure Machine where
  gpr : Gpr → UInt32
  seen : Cp15
  posted : List (Reg × UInt32)
  pending : List Op
  held : Held
  buffer : List Fetched

def Machine.regs (s : Machine) : Cp15 := s.posted.foldl Cp15.write s.seen

inductive Hw where
  | see
  | finish (i : Nat)
  | fill (f : Fill)
  | fetch (through : Option TlbEntry) (line : Option Line)

/-- An instruction fetch goes through an entry of this ASID, or a global one, while the MMU is on. -/
def Machine.canFetch (s : Machine) (through : Option TlbEntry) (line : Option Line) : Prop :=
  (match through with
    | some e => s.seen.mmuOn = true ∧ e ∈ s.held.tlb ∧
        (e.made.asid = s.seen.asid ∨ globalWord e.pte = true)
    | none => s.seen.mmuOn = false) ∧
  match line with
    | some l => s.seen.icacheOn = true ∧ l ∈ s.held.icache
    | none => True

instance (s : Machine) (through : Option TlbEntry) (line : Option Line) :
    Decidable (s.canFetch through line) := by
  unfold Machine.canFetch
  cases through <;> cases line <;> infer_instance

section
variable (slot : Tables → UInt32 → UInt32)

/-- Pending operations finish in any order, which is more than the rules allow. -/
def Machine.act (s : Machine) : Hw → Machine
  | .see =>
    match s.posted with
    | [] => s
    | w :: rest => { s with seen := s.seen.write w, posted := rest }
  | .finish i =>
    match s.pending[i]? with
    | none => s
    | some op => { s with pending := s.pending.eraseIdx i, held := s.held.effect op }
  | .fill f => { s with held := s.held.fill slot s.seen f }
  | .fetch through line =>
    if s.canFetch through line then
      { s with buffer := s.buffer ++ [⟨s.seen, through, line, false⟩] }
    else s

end

inductive Instr where
  | mov (d : Gpr) (v : UInt32)
  | bic (d n : Gpr) (v : UInt32)
  | nop
  | mcr (d : Gpr) (crn crm op2 : Nat)
  | mrc (d : Gpr) (crn crm op2 : Nat)

/-- What an mcr p15 does. -/
inductive Effect where
  | write (r : Reg)
  | issue (op : Op)
  | dsb
  | prefetchFlush

def effectOf : Nat → Nat → Nat → Option Effect
  | 1, 0, 0 => some (.write .control)
  | 2, 0, 0 => some (.write .ttbr0)
  | 2, 0, 1 => some (.write .ttbr1)
  | 2, 0, 2 => some (.write .ttbcr)
  | 3, 0, 0 => some (.write .domain)
  | 13, 0, 1 => some (.write .contextId)
  | 7, 5, 0 => some (.issue .invIcache)
  | 7, 5, 6 => some (.issue .flushBtb)
  | 7, 6, 0 => some (.issue .invDcache)
  | 7, 14, 0 => some (.issue .cleanInvDcache)
  | 8, 7, 0 => some (.issue .invTlb)
  | 7, 10, 4 => some .dsb
  | 7, 5, 4 => some .prefetchFlush
  | _, _, _ => none

def Op.ofBtb (op : Op) : Bool := op == .flushBtb

/-- A DSB completes the cache and TLB operations, a PrefetchFlush those on the BTB. -/
def Machine.complete (s : Machine) (which : Op → Bool) : Machine :=
  { s with
    pending := s.pending.filter fun op => !which op
    held := (s.pending.filter which).foldl Held.effect s.held }

def Machine.effect (s : Machine) (x : UInt32) : Effect → Machine
  | .write r => { s with posted := s.posted ++ [(r, x)] }
  | .issue op => { s with pending := s.pending ++ [op] }
  | .dsb => s.complete fun op => !op.ofBtb
  | .prefetchFlush => { s.complete Op.ofBtb with seen := s.regs, posted := [], buffer := [] }

def Machine.exec : Instr → Machine → Machine
  | .mov d v, s => { s with gpr := Function.update s.gpr d v }
  | .bic d n v, s => { s with gpr := Function.update s.gpr d (s.gpr n &&& ~~~v) }
  | .nop, s => s
  | .mcr d crn crm op2, s =>
    match effectOf crn crm op2 with
    | some e => s.effect (s.gpr d) e
    | none => s
  | .mrc d crn crm op2, s =>
    if (crn, crm, op2) = (1, 0, 0) then { s with gpr := Function.update s.gpr d s.regs.control }
    else s

/-- Surroundings, by the code that is ahead, in which nothing but the hardware acts. -/
def Acts (slot : Tables → UInt32 → UInt32)
    (around : List Instr → Machine → Machine → Prop) : Prop :=
  ∀ ahead s t, around ahead s t → ∃ a, t = s.act slot a

theorem Acts.ahead {slot : Tables → UInt32 → UInt32}
    {around : List Instr → Machine → Machine → Prop} (acts : Acts slot around) (rest : List Instr) :
    Acts slot fun code => around (code ++ rest) := fun code => acts (code ++ rest)

def Machine.called (s : Machine) : Machine :=
  { s with
    held := { s.held with
      tlb := s.held.tlb.map fun e => { e with old := true }
      btb := s.held.btb.map fun b => { b with old := true }
      icache := s.held.icache.map fun l => { l with old := true }
      dcache := fun a => (s.held.dcache a).map fun l => { l with old := true } }
    buffer := s.buffer.map fun f => { f with old := true } }

end EmbeddedOS.Mmu
