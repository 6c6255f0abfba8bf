import EmbeddedOS.FullExcept.Trampoline
import Mathlib.Tactic.IntervalCases

/-! What an exception or a voluntary switch saves is what the switch back restores. -/
namespace EmbeddedOS.FullExcept
open Arm

/-- User code, at an instruction address of its state. -/
structure InUser (m : Machine) : Prop where
  mode : modeBits m.cpsr = USER
  aligned : align m.cpsr m.pc = m.pc

theorem mode_get_user {psr : UInt32} (user : modeBits psr = USER) : modeGet psr = some USER_MODE := by
  have bits : psr &&& 0x1f = USER_MODE := user
  simp [modeGet, modeLegal, bits]

/-- The client's part of a full handler: its own code, and the value that a system call returns. -/
def client (hs : Handlers) (e : Exception) (r : UInt32) (m : Machine) : Option Machine :=
  match e with
  | .prefetchAbort => hs.prefetchHandler.bind fun h => h r m
  | .dataAbort => hs.dataAbortHandler.bind fun h => h r m
  | .swi => hs.syscallHandler.bind fun h =>
      (h r m).map fun (v, m) => { m with mem := write m.mem (word r 0) v }

theorem full_except_client {e : Exception} {m : Machine} (vector : Exception → UInt32) (user : InUser m) :
    ∃ entered, regsAt entered.mem INT_STACK_ADDR = saved e m ∧ bankOf entered.cpsr = some e.bank ∧
      ∀ (hs : Handlers) (sp : UInt32), 100000 < sp →
        fullExcept hs sp e (m.take e vector) =
          (client hs e INT_STACK_ADDR entered).bind (switchto INT_STACK_ADDR) := by
  obtain ⟨n, runs, block, first, second, third, bank⟩ := trampoline_runs e m vector
  have psr : n.mem (word INT_STACK_ADDR REGS_CPSR) = m.cpsr := congrFun block 16
  have pc : n.mem (word INT_STACK_ADDR REGS_PC) = resumePc e m := congrFun block 15
  have mode := mode_get_user user.mode
  obtain ⟨entered, called, low, mem, cpsr⟩ : ∃ entered, n.call [] = some entered ∧
      entered.low = n.low ∧ entered.mem = n.mem ∧ entered.cpsr = n.cpsr := by
    simp [Machine.call, bank]
  refine ⟨entered, by rw [mem, block], by rw [cpsr, bank], ?_⟩
  intro hs sp high
  rw [← mem] at psr pc
  rw [← low] at first second third
  cases e with
  | prefetchAbort =>
    simp [fullExcept, runs, called, first, second, third, prefetchAbortFullExcept,
      abortFullExcept, psr, pc, fixupRegs, mode, client, guard, Option.bind_assoc]
  | dataAbort =>
    simp [fullExcept, runs, called, first, second, third, dataAbortFullExcept,
      abortFullExcept, psr, pc, fixupRegs, mode, client, guard, Option.bind_assoc]
  | swi =>
    simp [fullExcept, runs, called, first, second, third, syscallFullExcept, psr, pc, mode, high,
      client, guard, Option.bind_assoc, Option.bind_map]

theorem aligned_resume {e : Exception} {m : Machine} (user : InUser m) :
    align m.cpsr (resumePc e m) = resumePc e m := by
  cases e with
  | swi => exact align_link user.aligned
  | prefetchAbort => exact user.aligned
  | dataAbort => exact user.aligned

theorem switchto_saved {e : Exception} {m later : Machine} {b : Bank} {r : UInt32} (user : InUser m)
    (bank : bankOf later.cpsr = some b) (own : b ≠ .usr) (arm : later.cpsr &&& stateMask = 0)
    (aligned : r % 4 = 0) (kept : regsAt later.mem r = saved e m) :
    ∃ final, switchto r later = some final ∧ userRegs final = saved e m := by
  have psr : later.mem (word r 16) = m.cpsr := congrFun kept 16
  have pc : later.mem (word r 15) = resumePc e m := congrFun kept 15
  have fits : align (later.mem (word r 16)) (later.mem (word r 15)) = later.mem (word r 15) := by
    rw [psr, pc]
    exact aligned_resume user
  obtain ⟨final, runs, shown⟩ := switchto_user_runs bank own arm aligned fits
  refine ⟨final, ?_, shown.trans kept⟩
  simp [switchto, REGS_CPSR, psr, mode_get_user user.mode, runs]

theorem calleeBlock_low (m : Machine) (b : Bank) {n : Fin 13} (low : 4 ≤ n.val) (high : n.val ≤ 11) :
    (n.val, m.low n) ∈ calleeBlock m b := by
  obtain ⟨k, bound⟩ := n
  simp only at low high
  interval_cases k <;> simp [calleeBlock]

theorem cswitchto_returns {m : Machine} {b : Bank} {old : UInt32} (next : UInt32)
    (kernel : InKernel m b) (site : m.pc % 4 = 0) (aligned : old % 4 = 0) :
    ∃ s, cswitchtoSave old next m = some s ∧ s.low 0 = next ∧
      ∀ (later : Machine) (c : Bank), InKernel later c → regsAt later.mem old = regsAt s.mem old →
        ∃ final, switchto old later = some final ∧
          (∀ n : Fin 13, 4 ≤ n.val → n.val ≤ 11 → final.low n = m.low n) ∧
          final.sp b = m.sp b ∧ final.cpsr = m.cpsr ∧ final.pc = m.pc + 4 := by
  obtain ⟨s, saves, first, -, block⟩ := cswitchto_saves next kernel aligned
  refine ⟨s, saves, first, ?_⟩
  intro later c kernel' kept
  have held : ∀ p ∈ calleeBlock m b, later.mem (word old p.1) = p.2 := by
    intro p inside
    have short : p.1 < 17 := by
      have all : ∀ q ∈ calleeBlock m b, q.1 < 17 := by simp [calleeBlock]
      exact all p inside
    exact (congrFun kept ⟨p.1, short⟩).trans (block p inside)
  have psr : later.mem (word old 16) = m.cpsr := held (16, _) (by simp [calleeBlock])
  have pc : later.mem (word old 15) = m.pc + 4 := held (15, _) (by simp [calleeBlock])
  have sp : later.mem (word old 13) = m.sp b := held (13, _) (by simp [calleeBlock])
  obtain ⟨final, runs, low, sp', pc', psr'⟩ := switchto_priv_runs (c := b) kernel' aligned
    (by rw [psr, kernel.bank]) (by rw [psr, kernel.state]) (by rw [pc, aligned_add site (by decide)])
  refine ⟨final, ?_, ?_, sp'.trans sp, psr'.trans psr, pc'.trans pc⟩
  · have other : modeBits m.cpsr ≠ USER_MODE := kernel.mode
    simp [switchto, REGS_CPSR, psr, mode_get_bank kernel.bank, other, runs]
  · intro n from_four to_eleven
    rw [low n]
    exact held (n.val, m.low n) (calleeBlock_low m b from_four to_eleven)

theorem switchto_cswitch_saves {m s : Machine} {b : Bank} {old next mode : UInt32} (kernel : InKernel m b)
    (saves : cswitchtoSave old next m = some s)
    (target : modeGet (m.mem (word next REGS_CPSR)) = some mode) :
    switchtoCswitch old next m = (s.call []).bind
      (exec (if mode = USER_MODE then switchtoUserCode else switchtoPrivCode)) := by
  have other : modeBits m.cpsr ≠ USER_MODE := kernel.mode
  unfold switchtoCswitch
  by_cases user : mode = USER_MODE
  · simp [mode_get_bank kernel.bank, other, target, user, cswitchtoUserAsm, saves, guard]
  · simp [mode_get_bank kernel.bank, other, target, user, cswitchtoPrivAsm, saves, guard]

/-- An exception in user mode and the switch back, and a voluntary switch and its way back. The
banks of an exception exclude system mode, from which `ldm ^` is unpredictable. -/
theorem save_restore_identity :
    (∀ (e : Exception) (m : Machine) (vector : Exception → UInt32), InUser m →
      (∃ entered : Machine, regsAt entered.mem INT_STACK_ADDR = saved e m ∧
        bankOf entered.cpsr = some e.bank ∧
        ∀ (hs : Handlers) (sp : UInt32), 100000 < sp →
          fullExcept hs sp e (m.take e vector) =
            (client hs e INT_STACK_ADDR entered).bind (switchto INT_STACK_ADDR)) ∧
      ∀ (later : Machine) (b : Bank) (r : UInt32), bankOf later.cpsr = some b → b ≠ .usr →
        later.cpsr &&& stateMask = 0 → r % 4 = 0 → regsAt later.mem r = saved e m →
        ∃ final, switchto r later = some final ∧ userRegs final = saved e m) ∧
    ∀ (m : Machine) (b : Bank) (old next : UInt32), InKernel m b → m.pc % 4 = 0 → old % 4 = 0 →
      ∃ s : Machine, (∀ mode, modeGet (m.mem (word next REGS_CPSR)) = some mode →
          switchtoCswitch old next m = (s.call []).bind
            (exec (if mode = USER_MODE then switchtoUserCode else switchtoPrivCode))) ∧
        s.low 0 = next ∧
        ∀ (later : Machine) (c : Bank), InKernel later c → regsAt later.mem old = regsAt s.mem old →
          ∃ final, switchto old later = some final ∧
            (∀ n : Fin 13, 4 ≤ n.val → n.val ≤ 11 → final.low n = m.low n) ∧
            final.sp b = m.sp b ∧ final.cpsr = m.cpsr ∧ final.pc = m.pc + 4 := by
  constructor
  · intro e m vector user
    refine ⟨full_except_client vector user, ?_⟩
    intro later b r bank own arm aligned kept
    exact switchto_saved user bank own arm aligned kept
  · intro m b old next kernel site aligned
    obtain ⟨s, saves, first, returns⟩ := cswitchto_returns next kernel site aligned
    exact ⟨s, fun mode target => switchto_cswitch_saves kernel saves target, first, returns⟩

def distinct (cpsr : UInt32) : Machine :=
  { low := fun n => 0x100 + UInt32.ofNat n, sp := fun b => if b = .usr then 0x7000 else 0x9000,
    lr := fun b => if b = .usr then 0x8888 else 0x8844, spsr := fun _ => 0, pc := 0x8000, cpsr := cpsr,
    mem := fun _ => 0 }

theorem swi_is_saved :
    (∃ entered later final : Machine, regsAt entered.mem INT_STACK_ADDR = saved .swi (distinct USER_MODE) ∧
      later.mem = entered.mem ∧ switchto INT_STACK_ADDR later = some final ∧
      List.ofFn (userRegs final) = [0x100, 0x101, 0x102, 0x103, 0x104, 0x105, 0x106, 0x107, 0x108, 0x109, 0x10a,
        0x10b, 0x10c, 0x7000, 0x8888, 0x8004, USER_MODE]) ∧
    ∃ later final, switchto 0x100 later = some final ∧ final.low 4 = 0x104 ∧ final.low 11 = 0x10b ∧
      final.sp .svc = 0x9000 ∧ final.pc = 0x8004 := by
  have user : InUser (distinct USER_MODE) := ⟨by decide, by decide⟩
  have kernel : InKernel (distinct SUPER_MODE) .svc := ⟨by decide, by decide, by decide⟩
  obtain ⟨⟨entered, block, -⟩, goes_back⟩ :=
    save_restore_identity.1 .swi (distinct USER_MODE) (fun _ => 0) user
  obtain ⟨s, -, -, returns⟩ :=
    save_restore_identity.2 (distinct SUPER_MODE) .svc 0x100 0x200 kernel (by decide) (by decide)
  let handled : Machine := { distinct SUPER_MODE with mem := entered.mem }
  have arm : (distinct SUPER_MODE).cpsr &&& stateMask = 0 := by decide
  obtain ⟨left, switched, shown⟩ := goes_back handled .svc INT_STACK_ADDR kernel.bank (by decide) arm
    (by decide) block
  let later : Machine := { distinct SUPER_MODE with mem := s.mem }
  have kernel' : InKernel later .svc := ⟨kernel.bank, kernel.mode, kernel.state⟩
  obtain ⟨final, runs, low, sp, -, pc⟩ := returns later .svc kernel' rfl
  refine ⟨⟨entered, handled, left, block, rfl, switched, ?_⟩, later, final, runs, ?_, ?_, sp, pc⟩
  · rw [shown]
    decide
  · exact low 4 (by decide) (by decide)
  · exact low 11 (by decide) (by decide)

end EmbeddedOS.FullExcept
