import EmbeddedOS.Interrupts.Transparency

/-! interrupts-asm.S: the two entries of a system call, around the C function syscall_vector. -/
namespace EmbeddedOS.Interrupts
open Arm

section Code

inductive Entry where
  | softwareInterruptAsm | usrSoftwareInterruptAsm
  deriving DecidableEq

def kept : List Reg := [.low 1, .lr]

def Entry.before : Entry → List Instr
  | .softwareInterruptAsm =>
    [.push kept, .subImm .lr .lr 4, .mov (.low 1) (.low 0), .mov (.low 0) .lr]
  | .usrSoftwareInterruptAsm =>
    [.movImm .sp INT_STACK_ADDR, .push kept, .subImm .lr .lr 4, .mov (.low 1) (.low 0), .mov (.low 0) .lr]

def afterCall : List Instr := [.pop kept, .movsPcLr]

/-- From the instruction swi to the first one of syscall_vector. -/
def enter (e : Entry) (vectors : Exception → UInt32) (m : Machine) : Option Machine :=
  (exec e.before (m.take .swi vectors)).bind fun t => t.call []

/-- From what syscall_vector leaves to the instruction behind swi. -/
def leave (k : Machine) : Option Machine := exec afterCall k

def Entry.top (e : Entry) (m : Machine) : UInt32 :=
  match e with
  | .softwareInterruptAsm => m.sp .svc
  | .usrSoftwareInterruptAsm => INT_STACK_ADDR

end Code

section Purpose

/-- The stack has room for the two registers above its lowest word, and nothing else keeps data there. -/
structure Stack (own : UInt32 → Prop) (bottom top : UInt32) : Prop where
  aligned : top % 4 = 0
  deep : bottom.toNat + 8 ≤ top.toNat
  apart : ∀ a, own a → ¬ (top - 8 ≤ a ∧ a < top)

/-- What the calling convention promises of a C function in supervisor mode, with data of its own
and a stack down to `bottom`; it may change r0 to r3, r12, lr and the flags. -/
structure Follows (own : UInt32 → Prop) (bottom : UInt32) (m k : Machine) : Prop where
  low : ∀ n : Fin 13, 4 ≤ n → n < 12 → k.low n = m.low n
  sp : k.sp = m.sp
  lr : ∀ b, b ≠ .svc → k.lr b = m.lr b
  spsr : k.spsr = m.spsr
  status : k.cpsr &&& controlMask = m.cpsr &&& controlMask
  mem : ∀ a, ¬ own a → ¬ (bottom ≤ a ∧ a < m.sp .svc) → k.mem a = m.mem a

/-- The call gets the address of the swi and r0, and the program goes on behind the swi with the
result, its registers, flags and mode. -/
def Served (e : Entry) (vectors : Exception → UInt32) (m : Cpu) (k : Machine) : Prop :=
  ∃ called n, enter e vectors m.toMachine = some called ∧ leave k = some n ∧
    called.low 0 = m.pc ∧ called.low 1 = m.low 0 ∧
    n.pc = Exception.swi.link m.toMachine ∧ n.cpsr = m.cpsr ∧
    shown ⟨n, m.fiq⟩ 0 = k.low 0 ∧ ∀ i, 0 < i → i < 15 → shown ⟨n, m.fiq⟩ i = shown m i

/-- ARM state; a function that leaves the registers alone that the entry does not save; and from
supervisor mode, whose lr the swi sets, an lr that is that already and a stack pointer that is the
entry's. -/
structure Spared (e : Entry) (m : Cpu) (k : Machine) : Prop where
  arm : m.cpsr &&& 0x20 = 0
  r2 : k.low 2 = m.low 2
  r3 : k.low 3 = m.low 3
  r12 : modeBits m.cpsr ≠ 0x11 → k.low 12 = m.low 12
  lr : bankOf m.cpsr = some .svc → m.lr .svc = m.pc + 4
  sp : bankOf m.cpsr = some .svc → m.sp .svc = e.top m.toMachine

end Purpose

section Before

structure Called (e : Entry) (m t : Machine) : Prop where
  bank : bankOf t.cpsr = some .svc
  arm : t.cpsr &&& stateMask = 0
  pc : t.low 0 = Exception.swi.link m - 4
  arg : t.low 1 = m.low 0
  low : ∀ n, n ≠ 0 → n ≠ 1 → t.low n = m.low n
  stack : t.sp .svc = e.top m - 8
  sp : ∀ b, b ≠ .svc → t.sp b = m.sp b
  lr : ∀ b, b ≠ .svc → t.lr b = m.lr b
  spsr : t.spsr .svc = m.cpsr
  r1 : t.mem (word (e.top m - 8) 0) = m.low 1
  link : t.mem (word (e.top m - 8) 1) = Exception.swi.link m

def seated (e : Entry) (vectors : Exception → UInt32) (m : Machine) : Machine :=
  { m.take .swi vectors with sp := Function.update m.sp .svc (e.top m) }

theorem seated_sp (e : Entry) (vectors : Exception → UInt32) (m : Machine) :
    (seated e vectors m).sp .svc = e.top m := by simp [seated]

theorem seated_lr (e : Entry) (vectors : Exception → UInt32) (m : Machine) :
    (seated e vectors m).lr .svc = Exception.swi.link m := by simp [seated, Machine.take, Exception.bank]

def pushed (s : Machine) (pc : UInt32) : Machine :=
  { s with
    low := Function.update (Function.update s.low 1 (s.low 0)) 0 (s.lr .svc - 4)
    sp := Function.update s.sp .svc (s.sp .svc - 8)
    lr := Function.update s.lr .svc (s.lr .svc - 4)
    mem := fill s.mem (s.sp .svc - 8) [(0, s.low 1), (1, s.lr .svc)]
    pc := pc }

theorem pushes {s : Machine} (bank : bankOf s.cpsr = some .svc) (arm : s.cpsr &&& stateMask = 0)
    (aligned : s.sp .svc % 4 = 0) :
    exec Entry.softwareInterruptAsm.before s = some (pushed s (s.pc + 4 + 4 + 4 + 4)) := by
  have size : 4 * UInt32.ofNat kept.length = 8 := by decide
  have slots : (kept.zipIdx.map fun (r : Reg × Nat) => (r.2, s.get .svc r.1)) =
      [(0, s.low 1), (1, s.lr .svc)] := rfl
  have one : step s (.push kept) = some ({ s with
      mem := fill s.mem (s.sp .svc - 8) [(0, s.low 1), (1, s.lr .svc)] }.set .svc .sp
        (s.sp .svc - 8)).next := by
    simp [step, bank, arm, aligned, size, slots]
  change (step s _).bind _ = _
  rw [one]
  simp [Steps.exec, step, bank, arm, Machine.set, Machine.get, Machine.next, pushed]

theorem enters (e : Entry) (vectors : Exception → UInt32) {m : Machine} (aligned : e.top m % 4 = 0) :
    ∃ pc, exec e.before (m.take .swi vectors) = some (pushed (seated e vectors m) pc) := by
  have bank : bankOf (Exception.swi.status m.cpsr) = some .svc := bankOf_status .swi m.cpsr
  have arm := status_arm .swi m.cpsr
  have top := seated_sp e vectors m
  cases e with
  | softwareInterruptAsm =>
    have same : seated .softwareInterruptAsm vectors m = m.take .swi vectors := by
      simp [seated, Entry.top, Machine.take]
    rw [same] at top ⊢
    exact ⟨_, pushes bank arm (by rw [top]; exact aligned)⟩
  | usrSoftwareInterruptAsm =>
    let s : Machine := { seated .usrSoftwareInterruptAsm vectors m with pc := vectors .swi + 4 }
    have first : step (m.take .swi vectors) (.movImm .sp INT_STACK_ADDR) = some s := by
      simp [step, Machine.take, bank, arm, s, seated, Entry.top, Machine.set, Machine.next]
    have rest : exec Entry.softwareInterruptAsm.before s = some (pushed s (s.pc + 4 + 4 + 4 + 4)) :=
      pushes bank arm (by rw [show s.sp .svc = _ from top]; exact aligned)
    exact ⟨_, (congrArg (Option.bind · _) first).trans rest⟩

theorem enter_calls (e : Entry) (vectors : Exception → UInt32) {m : Machine} (aligned : e.top m % 4 = 0) :
    ∃ t, enter e vectors m = some t ∧ Called e m t := by
  obtain ⟨pc, ran⟩ := enters e vectors aligned
  have bank : bankOf (pushed (seated e vectors m) pc).cpsr = some .svc := bankOf_status .swi m.cpsr
  have link := seated_lr e vectors m
  have top := seated_sp e vectors m
  let t := pushed (seated e vectors m) pc
  refine ⟨{ t with lr := Function.update t.lr .svc (pc + 4) }, ?_, ?_⟩
  · rw [enter, ran, Option.bind_some, Machine.call, bank]
    rfl
  · simp only [t]
    constructor
    · exact bank
    · exact status_arm .swi m.cpsr
    · simp [pushed, link]
    · simp [pushed, seated, Machine.take]
    · intro n zero one
      simp [pushed, seated, Machine.take, zero, one]
    · simp [pushed, top]
    · intro b other
      simp [pushed, seated, other]
    · intro b other
      simp [pushed, seated, Machine.take, Exception.bank, other]
    · simp [pushed, seated, Machine.take, Exception.bank]
    · have apart : word (e.top m - 8) 0 ≠ word (e.top m - 8) 1 := fun same =>
        absurd (word_inj (by decide) (by decide) same) (by decide)
      simp [pushed, fill, write_other _ _ apart, seated, Machine.take]
    · simp [pushed, top, link, fill]

end Before

section After
variable {own : UInt32 → Prop} {bottom : UInt32} {e : Entry} {m t k : Machine}

structure Returned (e : Entry) (m k : Machine) : Prop where
  bank : bankOf k.cpsr = some .svc
  arm : k.cpsr &&& stateMask = 0
  low : ∀ n : Fin 13, 4 ≤ n → n < 12 → k.low n = m.low n
  stack : k.sp .svc = e.top m - 8
  sp : ∀ b, b ≠ .svc → k.sp b = m.sp b
  lr : ∀ b, b ≠ .svc → k.lr b = m.lr b
  spsr : k.spsr .svc = m.cpsr
  r1 : k.mem (word (e.top m - 8) 0) = m.low 1
  link : k.mem (word (e.top m - 8) 1) = Exception.swi.link m

theorem saved_word {top : UInt32} (stack : Stack own bottom top) {i : Nat} (two : i < 2) :
    top - 8 ≤ word (top - 8) i ∧ word (top - 8) i < top := by
  have deep := stack.deep
  have high : (8 : UInt32) ≤ top := UInt32.le_iff_toNat_le.mpr (by change 8 ≤ _; omega)
  have base : (top - 8).toNat = top.toNat - 8 := UInt32.toNat_sub_of_le _ _ high
  have bound := top.toNat_lt
  have value : (word (top - 8) i).toNat = top.toNat - 8 + 4 * i := by
    simp only [word, UInt32.toNat_add, UInt32.toNat_mul, UInt32.toNat_ofNat', base]
    change (top.toNat - 8 + 4 * (i % 2 ^ 32) % 2 ^ 32) % 2 ^ 32 = _
    omega
  rw [UInt32.le_iff_toNat_le, UInt32.lt_iff_toNat_lt, value, base]
  omega

theorem returns (stack : Stack own bottom (e.top m)) (called : Called e m t)
    (good : Follows own bottom t k) : Returned e m k := by
  have mode : modeBits k.cpsr = modeBits t.cpsr := and_agree (by decide) good.status
  have held {i : Nat} (two : i < 2) : k.mem (word (e.top m - 8) i) = t.mem (word (e.top m - 8) i) := by
    have inside := saved_word stack two
    apply good.mem _ fun bad => stack.apart _ bad inside
    rw [called.stack]
    exact fun below => absurd below.2 (UInt32.not_lt.mpr inside.1)
  constructor
  · rw [← called.bank]
    simp only [bankOf, mode]
  · exact (and_agree (by decide) good.status).trans called.arm
  · intro n low high
    rw [good.low n low high]
    apply called.low
    · rintro rfl
      exact absurd low (by decide)
    · rintro rfl
      exact absurd low (by decide)
  · rw [good.sp, called.stack]
  · intro b other
    rw [good.sp, called.sp b other]
  · intro b other
    rw [good.lr b other, called.lr b other]
  · rw [good.spsr, called.spsr]
  · rw [held (by decide), called.r1]
  · rw [held (by decide), called.link]

structure Resumed (e : Entry) (m k n : Machine) : Prop where
  low : n.low = Function.update k.low 1 (m.low 1)
  stack : n.sp .svc = e.top m
  link : n.lr .svc = Exception.swi.link m
  sp : ∀ b, b ≠ .svc → n.sp b = m.sp b
  lr : ∀ b, b ≠ .svc → n.lr b = m.lr b
  pc : n.pc = Exception.swi.link m
  cpsr : n.cpsr = m.cpsr

theorem leaves (stack : Stack own bottom (e.top m)) (back : Returned e m k)
    (aligned : align m.cpsr m.pc = m.pc) : ∃ n, leave k = some n ∧ Resumed e m k n := by
  have deep := stack.deep
  have whole : (e.top m - 8) % 4 = 0 := by
    have split : e.top m - 8 = e.top m + 4294967288 := by grind
    rw [split]
    exact aligned_add stack.aligned (by decide)
  have size : e.top m - 8 + 4 * UInt32.ofNat kept.length = e.top m := by
    have eight : 4 * UInt32.ofNat kept.length = 8 := by decide
    rw [eight]
    grind
  have way : align m.cpsr (Exception.swi.link m) = Exception.swi.link m := align_link aligned
  let popped : Machine := { k with
    low := Function.update k.low 1 (m.low 1)
    sp := Function.update k.sp .svc (e.top m)
    lr := Function.update k.lr .svc (Exception.swi.link m)
    pc := k.pc + 4 }
  have one : step k (.pop kept) = some popped := by
    have loaded : k.loadSlots .svc (e.top m - 8) kept.zipIdx =
        { k with
          low := Function.update k.low 1 (m.low 1)
          lr := Function.update k.lr .svc (Exception.swi.link m) } := by
      rw [← back.r1, ← back.link]
      rfl
    simp [step, back.bank, back.arm, back.stack, whole, loaded, size, Machine.set, Machine.next, popped]
  have two : step popped .movsPcLr =
      some { popped with pc := Exception.swi.link m, cpsr := m.cpsr } := by
    simp [step, popped, back.bank, back.arm, back.spsr, way]
  refine ⟨{ popped with pc := Exception.swi.link m, cpsr := m.cpsr }, ?_, ?_⟩
  · simp [leave, exec, afterCall, Steps.exec, one, two]
  · constructor
    · rfl
    · simp [popped]
    · simp [popped]
    · intro b other
      simp [popped, other, back.sp b other]
    · intro b other
      simp [popped, other, back.lr b other]
    · rfl
    · rfl

end After

section Shown

theorem shown_low {c : Cpu} {i : Nat} (below : i < 13) (plain : modeBits c.cpsr = 0x11 → i < 8) :
    shown c i = c.low ⟨i, below⟩ := by
  have other : ¬ (modeBits c.cpsr = 0x11 ∧ 8 ≤ i ∧ i < 15) := by
    rintro ⟨fast, high, _⟩
    exact absurd (plain fast) (Nat.not_lt.mpr high)
  rw [shown, dif_neg other, Machine.reg, dif_pos below]

theorem shown_fast {c : Cpu} {i : Nat} (fast : modeBits c.cpsr = 0x11) (high : 8 ≤ i) (below : i < 15) :
    shown c i = c.fiq ⟨i - 8, by omega⟩ := by
  rw [shown, dif_pos ⟨fast, high, below⟩]

theorem shown_sp {c : Cpu} (plain : modeBits c.cpsr ≠ 0x11) :
    shown c 13 = c.sp ((bankOf c.cpsr).getD .usr) := by
  rw [shown, dif_neg fun bad => plain bad.1]
  rfl

theorem shown_lr {c : Cpu} (plain : modeBits c.cpsr ≠ 0x11) :
    shown c 14 = c.lr ((bankOf c.cpsr).getD .usr) := by
  rw [shown, dif_neg fun bad => plain bad.1]
  rfl

theorem svc_plain {psr : UInt32} (svc : bankOf psr = some .svc) : modeBits psr ≠ 0x11 := by
  intro fast
  simp [bankOf, fast] at svc

theorem bank_svc {psr : UInt32} (svc : (bankOf psr).getD .usr = .svc) : bankOf psr = some .svc := by
  cases bank : bankOf psr with
  | none =>
    rw [bank] at svc
    cases svc
  | some b =>
    rw [bank] at svc
    exact congrArg some svc

variable {e : Entry} {m : Cpu} {k n : Machine}

theorem between : ∀ i : Fin 13, i ≠ 0 → i ≠ 1 → i ≠ 2 → i ≠ 3 → i ≠ 12 → 4 ≤ i ∧ i < 12 := by decide

theorem low_resumed (back : Returned e m.toMachine k) (resumed : Resumed e m.toMachine k n) (i : Fin 13)
    (first : i ≠ 0) (r2 : i = 2 → k.low 2 = m.low 2) (r3 : i = 3 → k.low 3 = m.low 3)
    (r12 : i = 12 → k.low 12 = m.low 12) : n.low i = m.low i := by
  rw [resumed.low]
  by_cases one : i = 1
  · rw [one, Function.update_self]
  · rw [Function.update_of_ne one]
    by_cases two : i = 2
    · rw [two, r2 two]
    by_cases three : i = 3
    · rw [three, r3 three]
    by_cases twelve : i = 12
    · rw [twelve, r12 twelve]
    · obtain ⟨low, high⟩ := between i first one two three twelve
      exact back.low i low high

/-- The program's registers are as before when those are that the entry does not save. -/
theorem shown_same_iff (back : Returned e m.toMachine k) (resumed : Resumed e m.toMachine k n) :
    (∀ i, 0 < i → i < 15 → shown ⟨n, m.fiq⟩ i = shown m i) ↔
      k.low 2 = m.low 2 ∧ k.low 3 = m.low 3 ∧ (modeBits m.cpsr ≠ 0x11 → k.low 12 = m.low 12) ∧
      (bankOf m.cpsr = some .svc → Exception.swi.link m.toMachine = m.lr .svc) ∧
      (bankOf m.cpsr = some .svc → e.top m.toMachine = m.sp .svc) := by
  let c : Cpu := ⟨n, m.fiq⟩
  have cpsr : c.cpsr = m.cpsr := resumed.cpsr
  have low {i : Nat} (below : i < 13) (plain : modeBits m.cpsr = 0x11 → i < 8) :
      shown c i = shown m i ↔ n.low ⟨i, below⟩ = m.low ⟨i, below⟩ := by
    rw [shown_low below (by rwa [cpsr]), shown_low below plain]
  constructor
  · intro same
    have r2 := (low (i := 2) (by decide) (fun _ => by decide)).mp (same 2 (by decide) (by decide))
    have r3 := (low (i := 3) (by decide) (fun _ => by decide)).mp (same 3 (by decide) (by decide))
    rw [resumed.low] at r2 r3
    refine ⟨r2, r3, ?_, ?_, ?_⟩
    · intro plain
      have r12 := (low (i := 12) (by decide) (fun fast => absurd fast plain)).mp
        (same 12 (by decide) (by decide))
      rw [resumed.low] at r12
      exact r12
    · intro svc
      have lr : shown c 14 = shown m 14 := same 14 (by decide) (by decide)
      rw [shown_lr (by rw [cpsr]; exact svc_plain svc), shown_lr (svc_plain svc), cpsr, svc] at lr
      exact resumed.link.symm.trans lr
    · intro svc
      have sp : shown c 13 = shown m 13 := same 13 (by decide) (by decide)
      rw [shown_sp (by rw [cpsr]; exact svc_plain svc), shown_sp (svc_plain svc), cpsr, svc] at sp
      exact resumed.stack.symm.trans sp
  · rintro ⟨r2, r3, r12, lr, sp⟩ i first below
    by_cases fast : modeBits m.cpsr = 0x11 ∧ 8 ≤ i
    · have fast' : modeBits c.cpsr = 0x11 := by rw [cpsr, fast.1]
      exact (shown_fast fast' fast.2 below).trans (shown_fast fast.1 fast.2 below).symm
    · by_cases general : i < 13
      · refine (low general fun isFast => Nat.not_le.mp fun high => fast ⟨isFast, high⟩).mpr ?_
        apply low_resumed back resumed
        · rw [Ne, Fin.ext_iff]
          exact Nat.ne_of_gt first
        · exact fun _ => r2
        · exact fun _ => r3
        · intro twelve
          rw [Fin.ext_iff] at twelve
          have value : i = 12 := twelve
          exact r12 fun isFast => fast ⟨isFast, by omega⟩
      · have plain : modeBits m.cpsr ≠ 0x11 := fun isFast => fast ⟨isFast, by omega⟩
        have plain' : modeBits c.cpsr ≠ 0x11 := by rwa [cpsr]
        have which : i = 13 ∨ i = 14 := by omega
        by_cases svc : (bankOf m.cpsr).getD .usr = .svc
        · rcases which with rfl | rfl
          · rw [shown_sp plain, svc, ← sp (bank_svc svc)]
            rw [← resumed.stack, ← svc, ← cpsr]
            exact shown_sp plain'
          · rw [shown_lr plain, svc, ← lr (bank_svc svc)]
            rw [← resumed.link, ← svc, ← cpsr]
            exact shown_lr plain'
        · rcases which with rfl | rfl
          · rw [shown_sp plain, ← resumed.sp _ svc, ← cpsr]
            exact shown_sp plain'
          · rw [shown_lr plain, ← resumed.lr _ svc, ← cpsr]
            exact shown_lr plain'

end Shown

section Served

theorem link_arm (m : Machine) : Exception.swi.link m - 4 = m.pc ↔ m.cpsr &&& 0x20 = 0 := by
  rw [Exception.link]
  split
  · rename_i arm
    refine iff_of_true ?_ arm
    grind
  · rename_i thumb
    refine iff_of_false ?_ thumb
    intro same
    have two : (2 : UInt32) = 4 := by grind
    exact absurd two (by decide)

/-- A system call is served, with nothing lost, exactly when syscall_vector leaves r2, r3 and r12
alone and the caller, in ARM state, has nothing of its own in the registers of supervisor mode. -/
theorem syscall_iff {own : UInt32 → Prop} {bottom : UInt32} (e : Entry) (vectors : Exception → UInt32)
    {m : Cpu} {t k : Machine} (stack : Stack own bottom (e.top m.toMachine))
    (aligned : align m.cpsr m.pc = m.pc) (entered : enter e vectors m.toMachine = some t)
    (good : Follows own bottom t k) : Served e vectors m k ↔ Spared e m k := by
  obtain ⟨t', entered', called⟩ := enter_calls e vectors stack.aligned
  cases entered.symm.trans entered'
  have back := returns stack called good
  obtain ⟨n, left, resumed⟩ := leaves stack back aligned
  have result : shown ⟨n, m.fiq⟩ 0 = k.low 0 := by
    rw [shown_low (c := ⟨n, m.fiq⟩) (by decide) (fun _ => by decide)]
    change n.low 0 = _
    rw [resumed.low]
    rfl
  have address : t.low 0 = m.pc ↔ m.cpsr &&& 0x20 = 0 := by rw [called.pc, link_arm]
  have same := shown_same_iff back resumed
  have link (arm : m.cpsr &&& 0x20 = 0) : Exception.swi.link m.toMachine = m.pc + 4 := by
    rw [Exception.link, if_pos arm]
  constructor
  · rintro ⟨t', n', entered', left', pc, -, -, -, -, regs⟩
    cases entered.symm.trans entered'
    cases left.symm.trans left'
    have arm := address.mp pc
    obtain ⟨r2, r3, r12, lr, sp⟩ := same.mp regs
    exact ⟨arm, r2, r3, r12, fun svc => (lr svc).symm.trans (link arm), fun svc => (sp svc).symm⟩
  · intro spared
    have regs := same.mpr ⟨spared.r2, spared.r3, spared.r12,
      fun svc => (link spared.arm).trans (spared.lr svc).symm, fun svc => (spared.sp svc).symm⟩
    exact ⟨t, n, entered, left, address.mpr spared.arm, called.arg, resumed.pc, resumed.cpsr,
      result, regs⟩

def caller : Cpu := { counter USER with low := fun n => if n = 2 then 5 else 0 }

def table : Exception → UInt32
  | .prefetchAbort => 0xc
  | .dataAbort => 0x10
  | .swi => 8

theorem caller_stack : Stack (fun _ => False) 0x8000000 INT_STACK_ADDR :=
  ⟨by decide, by decide, fun _ bad => bad.elim⟩

theorem caller_aligned : align caller.cpsr caller.pc = caller.pc := by decide

theorem low_follows {own : UInt32 → Prop} {bottom : UInt32} (t : Machine) {i : Fin 13} (scratch : i < 4)
    (v : UInt32) : Follows own bottom t { t with low := Function.update t.low i v } := by
  refine ⟨?_, rfl, fun _ _ => rfl, rfl, rfl, fun _ _ _ => rfl⟩
  intro n low _
  apply Function.update_of_ne
  rintro rfl
  exact absurd scratch (Fin.not_lt.mpr low)

theorem seven_served : ∃ k : Machine, k.low 0 = 7 ∧ Served .usrSoftwareInterruptAsm table caller k := by
  obtain ⟨t, entered, called⟩ := enter_calls .usrSoftwareInterruptAsm table caller_stack.aligned
    (m := caller.toMachine)
  let k : Machine := { t with low := Function.update t.low 0 7 }
  have good : Follows (fun _ => False) 0x8000000 t k := low_follows t (by decide) _
  refine ⟨k, by simp [k], ?_⟩
  rw [syscall_iff .usrSoftwareInterruptAsm table caller_stack caller_aligned entered good]
  refine ⟨by decide, called.low 2 (by decide) (by decide), called.low 3 (by decide) (by decide),
    fun _ => called.low 12 (by decide) (by decide), ?_, ?_⟩
  · intro svc
    exact absurd svc (by decide)
  · intro svc
    exact absurd svc (by decide)

theorem r2_is_lost :
    ¬ ∀ (e : Entry) (vectors : Exception → UInt32) (own : UInt32 → Prop) (bottom : UInt32) (m : Cpu)
      (t k : Machine), Stack own bottom (e.top m.toMachine) → align m.cpsr m.pc = m.pc →
      enter e vectors m.toMachine = some t → Follows own bottom t k → Served e vectors m k := by
  intro always
  obtain ⟨t, entered, called⟩ := enter_calls .usrSoftwareInterruptAsm table caller_stack.aligned
    (m := caller.toMachine)
  let k : Machine := { t with low := Function.update t.low 2 0 }
  have good : Follows (fun _ => False) 0x8000000 t k := low_follows t (by decide) _
  have served := always .usrSoftwareInterruptAsm table _ _ caller t k caller_stack caller_aligned
    entered good
  obtain ⟨t', n, entered', left, -, -, -, -, -, regs⟩ := served
  cases entered.symm.trans entered'
  obtain ⟨n', left', resumed⟩ := leaves caller_stack (returns caller_stack called good) caller_aligned
  cases left.symm.trans left'
  have r2 := ((shown_same_iff (returns caller_stack called good) resumed).mp regs).1
  simp [k, caller] at r2

end Served

end EmbeddedOS.Interrupts
