import EmbeddedOS.Arm.Memory
import EmbeddedOS.Steps.Run

/-! A 32-bit ARM machine of the sixth architecture: the registers that each mode has of its own,
the instructions that save and restore them, and the entry into an exception. -/
namespace Arm

/-- The modes that have registers of their own; user and system mode share the first. -/
inductive Bank where
  | usr | irq | svc | abt | und
  deriving DecidableEq

def USER : UInt32 := 0x10

def modeBits (psr : UInt32) : UInt32 := psr &&& 0x1f

def bankOf (psr : UInt32) : Option Bank :=
  if modeBits psr = 0x10 then some .usr
  else if modeBits psr = 0x12 then some .irq
  else if modeBits psr = 0x13 then some .svc
  else if modeBits psr = 0x17 then some .abt
  else if modeBits psr = 0x1b then some .und
  else if modeBits psr = 0x1f then some .usr
  else none

/-- The J and T bits, by which the machine is not in ARM state. -/
def stateMask : UInt32 := 0x01000020

def unallocMask : UInt32 := 0x06f0fc00

/-- The bits that privileged code may write by msr. -/
def writeMask : UInt32 := 0xf80f03df

instance lowRegisters : NeZero 13 := ⟨by decide⟩

/-- A register that an instruction names: one of the thirteen that most modes share, or sp or lr. -/
inductive Reg where
  | low (n : Fin 13)
  | sp
  | lr
  deriving DecidableEq

structure Machine where
  low : Fin 13 → UInt32
  sp : Bank → UInt32
  lr : Bank → UInt32
  spsr : Bank → UInt32
  pc : UInt32
  cpsr : UInt32
  mem : Memory

namespace Machine

def get (m : Machine) (b : Bank) : Reg → UInt32
  | .low n => m.low n
  | .sp => m.sp b
  | .lr => m.lr b

def set (m : Machine) (b : Bank) (r : Reg) (v : UInt32) : Machine :=
  match r with
  | .low n => { m with low := Function.update m.low n v }
  | .sp => { m with sp := Function.update m.sp b v }
  | .lr => { m with lr := Function.update m.lr b v }

/-- The registers in the order in which a block holds them, as one bank shows them. -/
def reg (m : Machine) (b : Bank) (n : Nat) : UInt32 :=
  if low : n < 13 then m.low ⟨n, low⟩
  else if n = 13 then m.sp b
  else if n = 14 then m.lr b
  else m.pc

def blockOf (m : Machine) (b : Bank) (n : Nat) : List (Nat × UInt32) :=
  (List.range n).map fun i => (i, m.reg b i)

/-- The fifteen registers below the pc, from a block. -/
def loadRegs (m : Machine) (b : Bank) (base : UInt32) : Machine :=
  { m with
    low := fun n => m.mem (word base n)
    sp := Function.update m.sp b (m.mem (word base 13))
    lr := Function.update m.lr b (m.mem (word base 14)) }

def loadSlots (m : Machine) (b : Bank) (base : UInt32) : List (Reg × Nat) → Machine
  | [] => m
  | (r, i) :: rest => loadSlots (m.set b r (m.mem (word base i))) b base rest

def next (m : Machine) : Machine := { m with pc := m.pc + 4 }

/-- A call with these first arguments: they are in the lowest registers, the way back in lr. -/
def call (m : Machine) (args : List UInt32) : Option Machine :=
  (bankOf m.cpsr).map fun b =>
    { m with
      low := fun n => args.getD n (m.low n)
      lr := Function.update m.lr b (m.pc + 4) }

def branchExchange (m : Machine) (target : UInt32) : Option Machine :=
  if target % 2 = 1 then some { m with pc := target - 1, cpsr := m.cpsr ||| 0x20 }
  else if target % 4 = 0 then some { m with pc := target, cpsr := m.cpsr &&& ~~~0x20 }
  else none

end Machine

/-- A pc without the bits that an instruction address cannot have in this state. -/
def align (psr pc : UInt32) : UInt32 :=
  if psr &&& stateMask = 0 then pc / 4 * 4
  else if psr &&& stateMask = 0x20 then pc / 2 * 2
  else pc

inductive Instr where
  | movImm (d : Reg) (v : UInt32)
  | mov (d n : Reg)
  | add (d n m : Reg)
  | subImm (d n : Reg) (v : UInt32)
  | lslImm (d n : Reg) (k : UInt32)
  | str (t n : Reg) (offset : UInt32)
  | ldr (t n : Reg) (offset : UInt32)
  /-- `stm n, {r0-r12, sp, lr}^` -/
  | stmUser (n : Reg)
  /-- `ldm n, {r0-r12, sp, lr}^` -/
  | ldmUser (n : Reg)
  /-- `ldm n, {r0-r15}` -/
  | ldmAll (n : Reg)
  | mrsCpsr (d : Reg)
  | mrsSpsr (d : Reg)
  /-- `msr cpsr_csxf, n` -/
  | msrAll (n : Reg)
  /-- `msr cpsr_c, n` -/
  | msrControl (n : Reg)
  | rfe (n : Reg)
  | bx (n : Reg)
  /-- `stmdb sp!, {rs}` -/
  | push (rs : List Reg)
  /-- `ldmia sp!, {rs}` -/
  | pop (rs : List Reg)
  /-- `movs pc, lr` -/
  | movsPcLr

/-- The status register after msr writes these bits of a word. -/
def writeStatus (m : Machine) (v mask : UInt32) : Option Machine :=
  if modeBits m.cpsr = USER then none
  else if v &&& (stateMask ||| unallocMask) ≠ 0 then none
  else some { m with cpsr := m.cpsr &&& ~~~(mask &&& writeMask) ||| v &&& (mask &&& writeMask) }

/-- One instruction in ARM state; none is what the architecture leaves unpredictable. -/
def step (m : Machine) (i : Instr) : Option Machine :=
  (bankOf m.cpsr).bind fun b =>
  if m.cpsr &&& stateMask ≠ 0 then none
  else match i with
  | .movImm d v => some (m.set b d v).next
  | .mov d n => some (m.set b d (m.get b n)).next
  | .add d n k => some (m.set b d (m.get b n + m.get b k)).next
  | .subImm d n v => some (m.set b d (m.get b n - v)).next
  | .lslImm d n k => some (m.set b d (m.get b n <<< k)).next
  | .str t n offset =>
    let a := m.get b n + offset
    if a % 4 ≠ 0 then none
    else some { m with mem := write m.mem a (m.get b t) }.next
  | .ldr t n offset =>
    let a := m.get b n + offset
    if a % 4 ≠ 0 then none
    else some (m.set b t (m.mem a)).next
  | .stmUser n =>
    if b = .usr ∨ m.get b n % 4 ≠ 0 then none
    else some { m with mem := fill m.mem (m.get b n) (m.blockOf .usr 15) }.next
  | .ldmUser n =>
    if b = .usr ∨ m.get b n % 4 ≠ 0 then none
    else some (m.loadRegs .usr (m.get b n)).next
  | .ldmAll n =>
    if m.get b n % 4 ≠ 0 then none
    else (m.loadRegs b (m.get b n)).branchExchange (m.mem (word (m.get b n) 15))
  | .mrsCpsr d => some (m.set b d m.cpsr).next
  | .mrsSpsr d => if b = .usr then none else some (m.set b d (m.spsr b)).next
  | .msrAll n => (writeStatus m (m.get b n) 0xffffffff).map Machine.next
  | .msrControl n => (writeStatus m (m.get b n) 0xff).map Machine.next
  | .rfe n =>
    let a := m.get b n
    if modeBits m.cpsr = USER ∨ a % 4 ≠ 0 then none
    else some { m with pc := align (m.mem (word a 1)) (m.mem a), cpsr := m.mem (word a 1) }
  | .bx n => m.branchExchange (m.get b n)
  | .push rs =>
    let base := m.sp b - 4 * UInt32.ofNat rs.length
    if m.sp b % 4 ≠ 0 then none
    else some ({ m with
      mem := fill m.mem base (rs.zipIdx.map fun (s : Reg × Nat) => (s.2, m.get b s.1)) }.set b .sp base).next
  | .pop rs =>
    if m.sp b % 4 ≠ 0 then none
    else some ((m.loadSlots b (m.sp b) rs.zipIdx).set b .sp
      (m.sp b + 4 * UInt32.ofNat rs.length)).next
  | .movsPcLr =>
    if b = .usr then none
    else some { m with pc := align (m.spsr b) (m.lr b), cpsr := m.spsr b }

def exec (code : List Instr) (m : Machine) : Option Machine := Steps.exec step m code

inductive Exception where
  | prefetchAbort | dataAbort | swi
  deriving DecidableEq

/-- The mode an exception is taken to. -/
def Exception.bank : Exception → Bank
  | .prefetchAbort => .abt
  | .dataAbort => .abt
  | .swi => .svc

/-- What the entry leaves in lr, for the instruction at the pc. -/
def Exception.link (m : Machine) : Exception → UInt32
  | .prefetchAbort => m.pc + 4
  | .dataAbort => m.pc + 8
  | .swi => m.pc + (if m.cpsr &&& 0x20 = 0 then 4 else 2)

/-- The status register of the handler: ARM state, little endian, with interrupts off. -/
def Exception.status (cpsr : UInt32) : Exception → UInt32
  | .prefetchAbort => cpsr &&& 0xfefffdc0 ||| 0x197
  | .dataAbort => cpsr &&& 0xfefffdc0 ||| 0x197
  | .swi => cpsr &&& 0xfefffdc0 ||| 0x93

/-- The machine when it takes an exception at its pc, with a vector table that leads to these. -/
def Machine.take (m : Machine) (e : Exception) (vector : Exception → UInt32) : Machine :=
  { m with
    lr := Function.update m.lr e.bank (e.link m)
    spsr := Function.update m.spsr e.bank m.cpsr
    cpsr := e.status m.cpsr
    pc := vector e }

theorem and_or (x y z : UInt32) : x &&& (y ||| z) = x &&& y ||| x &&& z :=
  UInt32.toBitVec_inj.mp BitVec.and_or_distrib_left

/-- The bits that a mask drops do not matter where the mask of the reader has no others. -/
theorem masked (x : UInt32) {a b k : UInt32} (dropped : a &&& k = 0) :
    (x &&& a ||| b) &&& k = b &&& k := by
  rw [UInt32.and_comm, and_or, UInt32.and_comm k, UInt32.and_comm k, UInt32.and_assoc, dropped]
  simp

theorem unset {x a k : UInt32} (zero : x &&& a = 0) (rest : k ||| a = -1) : x &&& k = x := by
  have split := and_or x k a
  rw [rest, zero] at split
  simpa using split.symm

theorem Exception.bank_own (e : Exception) : e.bank ≠ .usr := by cases e <;> decide

theorem bankOf_status (e : Exception) (cpsr : UInt32) : bankOf (e.status cpsr) = some e.bank := by
  have mode : modeBits (e.status cpsr) = if e = .swi then 0x13 else 0x17 := by
    cases e <;> exact masked cpsr (by decide)
  cases e <;> simp [bankOf, mode, Exception.bank]

theorem status_arm (e : Exception) (cpsr : UInt32) : e.status cpsr &&& stateMask = 0 := by
  cases e <;> exact masked cpsr (by decide)

theorem masked_again {x a k : UInt32} (inside : a &&& k = k) (zero : x &&& a = 0) : x &&& k = 0 := by
  rw [← inside, ← UInt32.and_assoc, zero]
  simp

theorem align_link {psr pc : UInt32} (aligned : align psr pc = pc) :
    align psr (pc + if psr &&& 0x20 = 0 then 4 else 2) = pc + if psr &&& 0x20 = 0 then 4 else 2 := by
  unfold align at aligned ⊢
  by_cases arm : psr &&& stateMask = 0
  · have plain : psr &&& 0x20 = 0 := masked_again (by decide) arm
    rw [if_pos arm] at aligned ⊢
    rw [if_pos plain, rounded_iff]
    exact multiple_add (by decide) ((rounded_iff pc 4).mp aligned) (by decide)
  · rw [if_neg arm] at aligned ⊢
    by_cases thumb : psr &&& stateMask = 0x20
    · rw [if_pos thumb] at aligned ⊢
      rw [rounded_iff]
      apply multiple_add (by decide) ((rounded_iff pc 2).mp aligned)
      split <;> decide
    · rw [if_neg thumb]

theorem branch_aligned (m : Machine) {target : UInt32} (arm : m.cpsr &&& stateMask = 0)
    (aligned : target % 4 = 0) : m.branchExchange target = some { m with pc := target } := by
  have even : ¬ target % 2 = 1 := by
    intro odd
    have four := congrArg UInt32.toNat aligned
    have two := congrArg UInt32.toNat odd
    simp only [UInt32.toNat_mod] at four two
    change target.toNat % 4 = 0 at four
    change target.toNat % 2 = 1 at two
    omega
  have kept : m.cpsr &&& ~~~0x20 = m.cpsr := unset (masked_again (k := 0x20) (by decide) arm) (by decide)
  simp [Machine.branchExchange, even, aligned, kept]

/-- Where the bits that no code writes are zero, msr sets the whole status register. -/
theorem writeStatus_all {m : Machine} {psr : UInt32} (mode : modeBits m.cpsr ≠ USER)
    (here : m.cpsr &&& (stateMask ||| unallocMask) = 0)
    (there : psr &&& (stateMask ||| unallocMask) = 0) :
    writeStatus m psr 0xffffffff = some { m with cpsr := psr } := by
  have gone : m.cpsr &&& ~~~(0xffffffff &&& writeMask) = 0 := masked_again (by decide) here
  have kept : psr &&& (0xffffffff &&& writeMask) = psr := unset there (by decide)
  unfold writeStatus
  rw [if_neg mode, if_neg (not_not.mpr there), gone, kept]
  simp

theorem bank_privileged {psr : UInt32} {b : Bank} (bank : bankOf psr = some b) (own : b ≠ .usr) :
    modeBits psr ≠ USER := by
  intro user
  have first : bankOf psr = some .usr := by
    unfold bankOf
    exact if_pos user
  rw [first] at bank
  exact own (Option.some.inj bank).symm

theorem reg_congr {m n : Machine} {b : Bank} (low : n.low = m.low) (sp : n.sp b = m.sp b)
    (lr : n.lr b = m.lr b) {i : Nat} (below : i < 15) : n.reg b i = m.reg b i := by
  unfold Machine.reg
  rw [low, sp, lr]
  split_ifs with one two three
  · rfl
  · rfl
  · rfl
  · omega

def stores (n : Reg) (slots : List (Reg × Nat)) : List Instr :=
  slots.map fun s => .str s.1 n (4 * UInt32.ofNat s.2)

theorem exec_stores {m : Machine} {b : Bank} {n : Reg} (bank : bankOf m.cpsr = some b)
    (arm : m.cpsr &&& stateMask = 0) (aligned : m.get b n % 4 = 0) (slots : List (Reg × Nat)) :
    ∃ pc, ∀ rest, exec (stores n slots ++ rest) m =
      exec rest { m with
        mem := fill m.mem (m.get b n) (slots.map fun s => (s.2, m.get b s.1))
        pc := pc } := by
  induction slots generalizing m with
  | nil => exact ⟨m.pc, fun rest => rfl⟩
  | cons s slots ih =>
    let stored : Machine :=
      { m with mem := write m.mem (word (m.get b n) s.2) (m.get b s.1), pc := m.pc + 4 }
    obtain ⟨pc, runs⟩ := @ih stored bank arm aligned
    have here : (m.get b n + 4 * UInt32.ofNat s.2) % 4 = 0 := aligned_add aligned (slot_aligned s.2)
    have one : step m (.str s.1 n (4 * UInt32.ofNat s.2)) = some stored := by
      simp [step, bank, arm, here, Machine.next, word, stored]
    refine ⟨pc, ?_⟩
    intro rest
    change (step m _).bind _ = _
    rw [one]
    exact runs rest

end Arm
