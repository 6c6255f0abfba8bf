import EmbeddedOS.Interrupts.Handler

/-! A program that general interrupts break into, at any of its instructions, runs as it would alone. -/
namespace EmbeddedOS.Interrupts
open Arm

def savedValue (m : Machine) : Reg → UInt32
  | .low n => m.low n
  | .sp => m.sp .irq
  | .lr => m.pc

structure Entered (m t : Machine) : Prop where
  bank : bankOf t.cpsr = some .irq
  arm : t.cpsr &&& stateMask = 0
  arg : t.low 0 = m.pc
  stack : t.sp .irq = frame
  spsr : t.spsr .irq = m.cpsr
  sp : ∀ b, b ≠ .irq → t.sp b = m.sp b
  lr : ∀ b, b ≠ .irq → t.lr b = m.lr b
  spsrs : ∀ b, b ≠ .irq → t.spsr b = m.spsr b
  held : ∀ s ∈ savedRegs.zipIdx, t.mem (word frame s.2) = savedValue m s.1
  mem : ∀ a, (∀ i < savedRegs.length, a ≠ word frame i) → t.mem a = m.mem a

def entryCode : List Instr :=
  [.movImm .sp INT_STACK_ADDR, .subImm .lr .lr 4, .push savedRegs, .mov (.low 0) .lr]

def exitCode : List Instr := [.pop savedRegs, .movsPcLr]

theorem interruptAsm_eq : interruptAsm = entryCode.map .instr ++ .bl :: exitCode.map .instr := rfl

theorem sp_notin : Reg.sp ∉ savedRegs := by decide

def ready (m : Machine) (address : UInt32) : Machine :=
  { m.takeIrq address with
    sp := Function.update m.sp .irq INT_STACK_ADDR
    lr := Function.update m.lr .irq m.pc
    pc := address + 4 + 4 }

def entered (m : Machine) (address : UInt32) : Machine :=
  { ready m address with
    low := Function.update m.low 0 m.pc
    sp := Function.update m.sp .irq frame
    pc := address + 4 + 4 + 4 + 4
    mem := fill m.mem frame
      (savedRegs.zipIdx.map fun (s : Reg × Nat) => (s.2, (ready m address).get .irq s.1)) }

theorem entry_code (m : Machine) (address : UInt32) :
    exec entryCode (m.takeIrq address) = some (entered m address) := by
  have bank := bankOf_irqStatus m.cpsr
  have arm := irqStatus_arm m.cpsr
  have aligned : INT_STACK_ADDR % 4 = 0 := by decide
  have first : exec entryCode (m.takeIrq address) =
      exec [.push savedRegs, .mov (.low 0) .lr] (ready m address) := by
    simp [exec, Steps.exec, entryCode, step, Machine.takeIrq, bank, arm, Machine.set, Machine.get,
      Machine.next, ready]
  rw [first]
  simp [exec, Steps.exec, step, ready, entered, Machine.takeIrq, bank, arm, Machine.set, Machine.get,
    Machine.next, aligned, frame_eq]

theorem entry_runs (m : Machine) (address : UInt32) : Entered m (entered m address) := by
  have short : savedRegs.length ≤ 2 ^ 30 := by decide
  obtain ⟨slots, others⟩ := push_slots short m.mem frame
    fun r => (ready m address).get .irq r
  have values : ∀ r ∈ savedRegs, (ready m address).get .irq r = savedValue m r := by
    intro r inside
    cases r with
    | low n => rfl
    | sp => exact absurd inside sp_notin
    | lr => simp [ready, Machine.get, savedValue]
  constructor
  · exact bankOf_irqStatus m.cpsr
  · exact irqStatus_arm m.cpsr
  · simp [entered]
  · simp [entered]
  · simp [entered, ready, Machine.takeIrq]
  · intro b other
    simp [entered, other]
  · intro b other
    simp [entered, ready, other]
  · intro b other
    simp [entered, ready, Machine.takeIrq, other]
  · intro s inside
    have member : s.1 ∈ savedRegs := by
      have listed := List.mem_map_of_mem (f := Prod.fst) inside
      rwa [List.zipIdx_map_fst] at listed
    exact (slots s inside).trans (values s.1 member)
  · intro a other
    exact others a other

structure Back (m k : Machine) : Prop where
  bank : bankOf k.cpsr = some .irq
  arm : k.cpsr &&& stateMask = 0
  stack : k.sp .irq = frame
  spsr : k.spsr .irq = m.cpsr
  held : ∀ s ∈ savedRegs.zipIdx, k.mem (word frame s.2) = savedValue m s.1

structure Left (m k n : Machine) : Prop where
  low : n.low = m.low
  elsewhere : ∀ b, b ≠ .irq → n.sp b = k.sp b ∧ n.lr b = k.lr b ∧ n.spsr b = k.spsr b
  stack : n.sp .irq = INT_STACK_ADDR
  pc : n.pc = m.pc
  cpsr : n.cpsr = m.cpsr
  mem : n.mem = k.mem

theorem exit_runs {m k : Machine} (back : Back m k) (aligned : align m.cpsr m.pc = m.pc) :
    ∃ n, exec exitCode k = some n ∧ Left m k n := by
  obtain ⟨others, mem⟩ := loadSlots_elsewhere k .irq frame savedRegs.zipIdx
  have loaded := loadSlots_get (b := .irq) (savedValue m) back.held
  have listed : savedRegs.zipIdx.map Prod.fst = savedRegs := List.zipIdx_map_fst 0 savedRegs
  have all : ∀ n : Fin 13, Reg.low n ∈ savedRegs := by decide
  have link : Reg.lr ∈ savedRegs := by decide
  have multiple : frame % 4 = 0 := by decide
  let popped : Machine := ((k.loadSlots .irq frame savedRegs.zipIdx).set .irq .sp
    (frame + 4 * UInt32.ofNat savedRegs.length)).next
  have one : step k (.pop savedRegs) = some popped := by
    simp [step, back.bank, back.arm, back.stack, multiple, popped]
  have way : popped.lr .irq = m.pc := by
    have shown := loaded .lr
    rw [listed, if_pos link] at shown
    exact shown
  have status : popped.spsr .irq = m.cpsr := (congrFun others.spsr .irq).trans back.spsr
  have bank : bankOf popped.cpsr = some .irq := (congrArg bankOf others.cpsr).trans back.bank
  have arm : popped.cpsr &&& stateMask = 0 := (congrArg (· &&& stateMask) others.cpsr).trans back.arm
  have two : step popped .movsPcLr = some { popped with pc := m.pc, cpsr := m.cpsr } := by
    simp [step, bank, arm, way, status, aligned]
  refine ⟨{ popped with pc := m.pc, cpsr := m.cpsr }, ?_, ?_, ?_, ?_, rfl, rfl, mem⟩
  · simp [exec, exitCode, Steps.exec, one, two]
  · funext n
    have shown := loaded (.low n)
    rw [listed, if_pos (all n)] at shown
    exact shown
  · intro b other
    refine ⟨?_, others.lr b other, congrFun others.spsr b⟩
    have kept := others.sp b other
    simpa [popped, Machine.set, Machine.next, other] using kept
  · simp only [popped, Machine.set, Machine.next, Function.update_self]
    decide

section
variable {own : UInt32 → Prop} {bottom address : UInt32} {vector : Machine → Machine → Prop}

theorem frame_word {i : Nat} (below : i < savedRegs.length) :
    frame ≤ word frame i ∧ word frame i < INT_STACK_ADDR := by
  have short : i < 14 := below
  have value : (word frame i).toNat = 0x9000000 - 56 + 4 * i := by
    simp only [word, UInt32.toNat_add, UInt32.toNat_mul, UInt32.toNat_ofNat']
    change (150994888 + 4 * (i % 2 ^ 32) % 2 ^ 32) % 2 ^ 32 = _
    omega
  rw [UInt32.le_iff_toNat_le, UInt32.lt_iff_toNat_lt, value]
  change 150994888 ≤ _ ∧ _ < 150994944
  omega

theorem back_from_handler {m t k : Machine} (room : Room own bottom)
    (good : Conforms own bottom vector) (entry : Entered m t) {called : Machine}
    (call : t.call [] = some called) (ran : vector called k) :
    Back m k ∧ (∀ b, b ≠ .irq → k.sp b = m.sp b ∧ k.lr b = m.lr b ∧ k.spsr b = m.spsr b) ∧
      (∀ a, ¬ Hidden own bottom a → k.mem a = m.mem a) ∧ called.low 0 = m.pc := by
  have shape : called = { t with lr := Function.update t.lr .irq (t.pc + 4) } := by
    simpa [Machine.call, entry.bank] using call.symm
  have bank : bankOf called.cpsr = some .irq := by rw [shape]; exact entry.bank
  have status := good.status bank ran
  have mode : modeBits k.cpsr = modeBits called.cpsr := and_agree (by decide) status
  have state : k.cpsr &&& stateMask = called.cpsr &&& stateMask := and_agree (by decide) status
  have stack : called.sp .irq = frame := by rw [shape]; exact entry.stack
  have kept : ∀ a, ¬ own a → ¬ (bottom ≤ a ∧ a < frame) → k.mem a = t.mem a := by
    intro a foreign above
    have same := good.mem bank ran a foreign (by rw [stack]; exact above)
    rw [same, shape]
  refine ⟨⟨?_, ?_, ?_, ?_, ?_⟩, ?_, ?_, ?_⟩
  · rw [← bank]
    simp only [bankOf, mode]
  · rw [state, shape]
    exact entry.arm
  · rw [good.sp bank ran, stack]
  · rw [good.spsr bank ran, shape]
    exact entry.spsr
  · intro s inside
    have below : s.2 < savedRegs.length := by
      have listed := List.snd_lt_of_mem_zipIdx inside
      simpa using listed
    obtain ⟨above, inFrame⟩ := frame_word below
    have foreign : ¬ own (word frame s.2) := fun bad => room.apart _ bad ⟨above, inFrame⟩
    rw [kept _ foreign (fun bad => absurd bad.2 (UInt32.not_lt.mpr above))]
    exact entry.held s inside
  · intro b other
    refine ⟨?_, ?_, ?_⟩
    · rw [good.sp bank ran, shape]
      exact entry.sp b other
    · rw [good.lr bank ran b other, shape]
      simpa [other] using entry.lr b other
    · rw [good.spsr bank ran, shape]
      exact entry.spsrs b other
  · intro a plain
    have foreign : ¬ own a := fun bad => plain (Or.inl bad)
    have outside : ¬ (bottom ≤ a ∧ a < INT_STACK_ADDR) := fun bad => plain (Or.inr bad)
    have above : ¬ (bottom ≤ a ∧ a < frame) := by
      rintro ⟨high, short⟩
      exact outside ⟨high, UInt32.lt_trans short (by decide)⟩
    rw [kept a foreign above]
    apply entry.mem
    intro i below same
    obtain ⟨high, short⟩ := frame_word below
    rw [← same] at high short
    exact outside ⟨UInt32.le_trans room.deep high, short⟩
  · rw [shape]
    exact entry.arg

theorem irq_iff (t : Table) {m n : Cpu} {told : List UInt32} :
    Irq t address vector m told n ↔ ∃ called k, (entered m.toMachine address).call [] = some called ∧
      vector called k ∧ told = [called.low 0] ∧ exec exitCode k = some n.toMachine ∧
      n.fiq = m.fiq := by
  have nothing : exitCode.map Line.instr = exitCode.map Line.instr ++ [] := (List.append_nil _).symm
  rw [Irq, irqCode_eq, interruptAsm_eq, exec_instrs, nothing]
  constructor
  · rintro ⟨⟨s, ran, called, k, later, call, go, rfl, rest⟩, fiq⟩
    rw [entry_code] at ran
    cases ran
    obtain ⟨u, final, rfl, whole⟩ := (exec_instrs exitCode []).mp rest
    exact ⟨called, k, call, go, rfl, by rw [final, whole], fiq⟩
  · rintro ⟨called, k, call, go, rfl, final, fiq⟩
    refine ⟨⟨_, entry_code m.toMachine address, called, k, [], call, go, rfl, ?_⟩, fiq⟩
    exact (exec_instrs exitCode []).mpr ⟨n.toMachine, final, rfl, rfl⟩

variable (t : Table) (room : Room own bottom) (good : Conforms own bottom vector)
include room good

/-- An interrupt calls the C handler once, with the place it came at, and changes nothing else. -/
theorem irq_quiet {m n : Cpu} {told : List UInt32} (aligned : align m.cpsr m.pc = m.pc)
    (ran : Irq t address vector m told n) : told = [m.pc] ∧ Same own bottom m n := by
  obtain ⟨called, k, call, go, rfl, final, fiq⟩ := (irq_iff t).mp ran
  obtain ⟨back, others, mem, arg⟩ :=
    back_from_handler room good (entry_runs m.toMachine address) call go
  obtain ⟨u, final', left⟩ := exit_runs back aligned
  rw [final] at final'
  cases final'
  refine ⟨by rw [arg], left.low, ?_, ?_, ?_, left.pc, left.cpsr, fiq, ?_⟩
  · intro b other
    exact (left.elsewhere b other).1.trans (others b other).1
  · intro b other
    exact (left.elsewhere b other).2.1.trans (others b other).2.1
  · intro b other
    exact (left.elsewhere b other).2.2.trans (others b other).2.2
  · intro a plain
    rw [left.mem]
    exact mem a plain

theorem irq_returns {m : Cpu} (aligned : align m.cpsr m.pc = m.pc) :
    ∃ told n, Irq t address vector m told n ∧ n.sp .irq = INT_STACK_ADDR := by
  have entry := entry_runs m.toMachine address
  obtain ⟨called, call⟩ : ∃ called, (entered m.toMachine address).call [] = some called := by
    simp [Machine.call, entry.bank]
  have bank : bankOf called.cpsr = some .irq := by
    simp only [Machine.call, entry.bank, Option.map_some, Option.some.injEq] at call
    rw [← call]
    exact entry.bank
  obtain ⟨k, go⟩ := good.returns bank
  obtain ⟨back, -, -, -⟩ := back_from_handler room good entry call go
  obtain ⟨u, final, left⟩ := exit_runs back aligned
  exact ⟨_, ⟨u, m.fiq⟩, (irq_iff t).mpr ⟨called, k, call, go, rfl, final, rfl⟩, left.stack⟩

end

/-- A program at the instructions it may be at, which uses nothing of the interrupts. -/
structure Program (own : UInt32 → Prop) (bottom : UInt32) (instr : Cpu → Option Cpu)
    (At : Cpu → Prop) : Prop where
  stays : ∀ {m n}, At m → instr m = some n → At n
  same : ∀ {m n}, At m → Same own bottom m n → At n
  aligned : ∀ {m}, At m → align m.cpsr m.pc = m.pc
  blind : ∀ {m n u}, At m → Same own bottom m n → instr m = some u →
    ∃ v, instr n = some v ∧ Same own bottom u v

/-- r0 to r15 as the mode shows them. -/
def shown (m : Cpu) (i : Nat) : UInt32 :=
  if fast : modeBits m.cpsr = 0x11 ∧ 8 ≤ i ∧ i < 15 then m.fiq ⟨i - 8, by omega⟩
  else m.reg ((bankOf m.cpsr).getD .usr) i

/-- What the program can tell two machines by. -/
structure Alike (own : UInt32 → Prop) (bottom : UInt32) (m n : Cpu) : Prop where
  regs : ∀ i < 16, shown n i = shown m i
  cpsr : n.cpsr = m.cpsr
  mem : ∀ a, ¬ Hidden own bottom a → n.mem a = m.mem a

/-- However interrupts fall between its instructions, the program goes on as if alone, and each of
them calls the C handler once, with the address of the instruction that was next. -/
def Transparent (t : Table) (address : UInt32) (vector : Machine → Machine → Prop)
    (instr : Cpu → Option Cpu) (own : UInt32 → Prop) (bottom : UInt32) (m : Cpu) : Prop :=
  ∀ events told,
    (∀ n, Steps.Interrupted instr irqOn (Irq t address vector) m events told n →
      ∃ l, Steps.alone instr irqOn (fun m => m.pc) events m = some (told, l) ∧
        Steps.quiet instr (events.count .step) m = some l ∧ Alike own bottom l n) ∧
    (∀ l, Steps.alone instr irqOn (fun m => m.pc) events m = some (told, l) →
      ∃ n, Steps.Interrupted instr irqOn (Irq t address vector) m events told n ∧
        Alike own bottom l n)

theorem bank_not_irq {psr : UInt32} (other : modeBits psr ≠ IRQ_MODE) :
    (bankOf psr).getD .usr ≠ .irq := by
  have no : ¬ modeBits psr = 0x12 := other
  unfold bankOf
  rw [if_neg no]
  split_ifs <;> simp

theorem Same.alike {own : UInt32 → Prop} {bottom : UInt32} {m n : Cpu}
    (other : modeBits m.cpsr ≠ IRQ_MODE) (same : Same own bottom m n) : Alike own bottom m n where
  regs i _ := by
    have bank := bank_not_irq other
    simp only [shown, same.cpsr, same.fiq, Machine.reg, same.lows, same.sp _ bank, same.lr _ bank,
      same.pc]
  cpsr := same.cpsr
  mem := same.mem

theorem interrupts_transparent {own : UInt32 → Prop} {bottom : UInt32}
    {vector : Machine → Machine → Prop} {instr : Cpu → Option Cpu} {At : Cpu → Prop} (t : Table)
    (address : UInt32) (room : Room own bottom) (good : Conforms own bottom vector)
    (program : Program own bottom instr At) (outside : ∀ m, At m → modeBits m.cpsr ≠ IRQ_MODE)
    {m : Cpu} (start : At m) : Transparent t address vector instr own bottom m := by
  have silent : Steps.Silent instr irqOn (Irq t address vector) (fun m => m.pc) (Same own bottom) At :=
    { comm := Same.symm
      trans := Same.trans
      stays := program.stays
      across := fun ok same => ⟨program.same ok same, by simp [irqOn, same.cpsr], same.pc⟩
      blind := program.blind
      quiet := fun ok _ ran => irq_quiet t room good (program.aligned ok) ran
      returns := fun ok _ => by
        obtain ⟨told, n, ran, -⟩ := irq_returns t room good (program.aligned ok)
        exact ⟨told, n, ran⟩ }
  have refl : Same own bottom m m :=
    ⟨rfl, fun _ _ => rfl, fun _ _ => rfl, fun _ _ => rfl, rfl, rfl, rfl, fun _ _ => rfl⟩
  intro events told
  constructor
  · intro n ran
    obtain ⟨l, apart, same⟩ := silent.forward start refl ran
    have still := outside l (Steps.alone_stays program.stays start apart)
    exact ⟨l, apart, Steps.alone_quiet apart, same.symm.alike still⟩
  · intro l apart
    obtain ⟨n, ran, same⟩ := silent.backward start refl apart
    have still := outside l (Steps.alone_stays program.stays start apart)
    exact ⟨n, ran, same.symm.alike still⟩

def ticks (a : UInt32) : Prop := a = 0x9000

/-- A C handler that counts in a word of its own and comes back with other values in r0 to r12. -/
def tick (m k : Machine) : Prop :=
  k = { m with
    low := fun n => 0xdead0000 + UInt32.ofNat n
    mem := write m.mem 0x9000 (m.mem 0x9000 + 1)
    pc := m.lr .irq }

def count (m : Cpu) : Option Cpu :=
  some { m with low := Function.update m.low 0 (m.low 0 + 1), pc := m.pc + 4 }

def Counting (psr : UInt32) (m : Cpu) : Prop := m.cpsr = psr ∧ m.pc % 4 = 0

theorem tick_conforms : Conforms ticks 0x8000000 tick where
  returns _ := ⟨_, rfl⟩
  sp _ ran := by rw [ran]
  lr _ ran _ _ := by rw [ran]
  spsr _ ran := by rw [ran]
  status _ ran := by rw [ran]
  mem _ ran a other _ := by
    rw [ran]
    exact Function.update_of_ne other _ _

theorem tick_room : Room ticks 0x8000000 := by
  refine ⟨by decide, ?_⟩
  rintro a rfl
  decide

theorem counting {psr : UInt32} (arm : psr &&& stateMask = 0) :
    Program ticks 0x8000000 count (Counting psr) where
  stays ok one := by
    cases one
    exact ⟨ok.1, aligned_add ok.2 (by decide)⟩
  same ok same := ⟨same.cpsr.trans ok.1, by rw [same.pc]; exact ok.2⟩
  aligned ok := by
    unfold align
    rw [ok.1, if_pos arm, rounded_iff]
    exact ok.2
  blind ok same one := by
    cases one
    refine ⟨_, rfl, ?_⟩
    exact { same with
      lows := by simp only [same.lows]
      pc := by simp only [same.pc] }

def counter (psr : UInt32) : Cpu where
  low := fun _ => 0
  sp := fun _ => 0x1000
  lr := fun _ => 0
  spsr := fun _ => 0
  pc := 0x8000
  cpsr := psr
  mem := fun _ => 0
  fiq := fun _ => 0

/-- Three interrupts around two instructions in user mode. -/
theorem counting_goes_on :
    ∃ n, Steps.Interrupted count irqOn (Irq .interruptVec 0x18 tick) (counter USER)
      [.irq, .step, .irq, .irq, .step] [0x8000, 0x8004, 0x8004] n ∧ shown n 0 = 2 := by
  have user : Counting USER (counter USER) := ⟨rfl, by decide⟩
  have clear := interrupts_transparent .interruptVec 0x18 tick_room tick_conforms
    (counting (by decide)) (fun m ok => by rw [ok.1]; decide) user
  obtain ⟨n, ran, alike⟩ :=
    (clear [.irq, .step, .irq, .irq, .step] [0x8000, 0x8004, 0x8004]).2 _ rfl
  exact ⟨n, ran, (alike.regs 0 (by decide)).trans (by decide)⟩

/-- A program in the mode of the interrupts themselves loses its sp. -/
theorem irq_mode_disturbed :
    ¬ ∀ (t : Table) (address : UInt32) (own : UInt32 → Prop) (bottom : UInt32)
      (vector : Machine → Machine → Prop) (instr : Cpu → Option Cpu) (At : Cpu → Prop),
      Room own bottom → Conforms own bottom vector → Program own bottom instr At →
      ∀ m, At m → Transparent t address vector instr own bottom m := by
  intro always
  have start : Counting IRQ_MODE (counter IRQ_MODE) := ⟨rfl, by decide⟩
  have program : Program ticks 0x8000000 count (Counting IRQ_MODE) :=
    counting (by decide)
  have clear := always .interruptVec 0x18 _ _ _ _ _ tick_room tick_conforms program _ start
  have aligned : align (counter IRQ_MODE).cpsr (counter IRQ_MODE).pc = (counter IRQ_MODE).pc := by
    decide
  have returns : ∃ told n, Irq .interruptVec 0x18 tick (counter IRQ_MODE) told n ∧
      n.sp .irq = INT_STACK_ADDR := irq_returns .interruptVec tick_room tick_conforms aligned
  obtain ⟨told, n, one, stack⟩ := returns
  obtain ⟨l, apart, -, alike⟩ := (clear [.irq] (told ++ [])).1 n (.irq (by decide) one (.done n))
  obtain ⟨-, rfl⟩ := Prod.mk.inj (Option.some.inj apart)
  have moved := alike.regs 13 (by decide)
  have mode : n.cpsr = IRQ_MODE := alike.cpsr
  have here : shown n 13 = n.sp .irq := by
    simp only [shown, mode]
    rfl
  rw [here, stack] at moved
  exact absurd moved (by decide)

end EmbeddedOS.Interrupts
