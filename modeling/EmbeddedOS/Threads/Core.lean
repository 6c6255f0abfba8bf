import EmbeddedOS.Threads.Contexts

/-! The invariant of the machine: the blocks are on their lists, and every queued thread and the
caller have a context that a switch can resume. -/
namespace EmbeddedOS.Threads
open Arm Linked

variable {p : Image}

/-- Nothing changes but words of one block and the pointers of queued ones. -/
def Only (t : UInt32) (run : List UInt32) (mem mem' : Memory) : Prop :=
  ∀ x, (∀ i < blockWords, x ≠ word t i) → (∀ b ∈ run, x ≠ nextAt b) → mem' x = mem x

theorem Only.trans {t : UInt32} {run : List UInt32} {mem mem' mem'' : Memory}
    (one : Only t run mem mem') (two : Only t run mem' mem'') : Only t run mem mem'' := by
  intro x outside apart
  rw [two x outside apart, one x outside apart]

theorem Only.more {t : UInt32} {run : List UInt32} {mem mem' : Memory} (only : Only t [] mem mem') :
    Only t run mem mem' := by
  intro x outside _
  exact only x outside (by simp)

theorem Only.words {t b : UInt32} {run blocks : List UInt32} {mem mem' : Memory}
    (only : Only t run mem mem') (placed : Placed p blocks) (known : t ∈ blocks)
    (queued : ∀ b ∈ run, b ∈ blocks) (inside : b ∈ blocks) (other : b ≠ t) :
    ∀ i < blockWords, i ≠ 1 → mem' (word b i) = mem (word b i) := by
  intro i low index
  apply only
  · intro j low' same
    exact other (placed.index inside known low low' same).1
  · intro c member same
    exact index (placed.index inside (queued c member) low (by decide) same).2

theorem Only.way {t scheduler : UInt32} {run blocks : List UInt32} {mem mem' : Memory}
    (only : Only t run mem mem') (placed : Placed p blocks) (known : t ∈ blocks)
    (queued : ∀ b ∈ run, b ∈ blocks) (inside : scheduler ∈ blocks) (other : scheduler ≠ t)
    (way : Way p mem scheduler) : Way p mem' scheduler := by
  have saved : mem' (savedSpAt scheduler) = mem (savedSpAt scheduler) :=
    only.words placed known queued inside other 0 (by decide) (by decide)
  have kept : ∀ x, p.callerStack x → mem' x = mem x := by
    intro x stack
    apply only
    · intro i low same
      exact placed.outside t known i low (same ▸ stack)
    · intro b member same
      rw [same] at stack
      exact placed.outside b (queued b member) 1 (by decide) stack
  constructor
  · rw [saved, kept _ way.inside]
    exact way.lr
  · rw [saved]
    exact way.inside

/-- What the switch of a thread leaves in its own block. -/
structure Switched (t : UInt32) (j : Nat) (callee : Callee) (mem mem' : Memory) : Prop where
  saved : mem' (savedSpAt t) = stackAt t j
  regs : ∀ i : Fin 9, mem' (stackAt t (j + i)) = callee i
  above : ∀ i < THREAD_MAXSTACK, j + 9 ≤ i → mem' (stackAt t i) = mem (stackAt t i)

section Switch

variable {t new : UInt32} {j : Nat} {c : Cpu}

theorem switch_apart {i : Nat} (room : i < THREAD_MAXSTACK) : stackAt t i ≠ savedSpAt t := by
  intro same
  have index := (block_inj (stack_inside room) (by decide)).mp same
  omega

theorem switched (sp : c.sp = word (stackAt t j) 9) (room : j + 9 ≤ THREAD_MAXSTACK) :
    Switched t j c.callee c.mem (rpiCswitch (savedSpAt t) new c).mem := by
  have base : c.sp - 36 = stackAt t j := by rw [sp, push_sp]
  refine ⟨?_, ?_, ?_⟩
  · rw [cswitch_saved, base]
  · intro i
    have slot : stackAt t (j + i) = word (c.sp - 36) i := by rw [base, stack_word]
    rw [slot]
    apply cswitch_slot
    rw [← slot]
    exact switch_apart (by omega)
  · intro i low high
    apply cswitch_other (switch_apart low)
    intro k low' same
    rw [base, stack_word, stack_inj low (by omega)] at same
    omega

theorem switch_only (sp : c.sp = word (stackAt t j) 9) (room : j + 9 ≤ THREAD_MAXSTACK) :
    Only t [] c.mem (rpiCswitch (savedSpAt t) new c).mem := by
  intro x outside _
  apply cswitch_other (outside 0 (by decide))
  intro i low
  rw [sp, push_sp, stack_word]
  exact outside _ (stack_inside (by omega))

theorem switch_fields {blocks : List UInt32} {b : UInt32} {i : Nat} (placed : Placed p blocks)
    (known : t ∈ blocks) (sp : c.sp = word (stackAt t j) 9) (room : j + 9 ≤ THREAD_MAXSTACK)
    (inside : b ∈ blocks) (field : i < 6) (index : i ≠ 0) :
    (rpiCswitch (savedSpAt t) new c).mem (word b i) = c.mem (word b i) := by
  have low : i < blockWords := Nat.lt_of_lt_of_le field (by decide)
  apply cswitch_other
  · intro same
    exact index (placed.index inside known low (by decide) same).2
  · intro k low' same
    rw [sp, push_sp, stack_word] at same
    have slot := (placed.index inside known low (stack_inside (by omega)) same).2
    omega

theorem switch_arrives {s : Sys} {old : UInt32} {call : Option Call}
    (ready : Ready p (rpiCswitch (savedSpAt old) (s.cpu.mem (savedSpAt t)) s.cpu).mem t call)
    (kept : (rpiCswitch (savedSpAt old) (s.cpu.mem (savedSpAt t)) s.cpu).mem (savedSpAt t) =
      s.cpu.mem (savedSpAt t)) :
    ∃ c, switch p s old t = some { s with cpu := c, inCaller := false } ∧
      c.mem = (rpiCswitch (savedSpAt old) (s.cpu.mem (savedSpAt t)) s.cpu).mem ∧
        Arrived p t c call := by
  let gone : Sys := { s with cpu := rpiCswitch (savedSpAt old) (s.cpu.mem (savedSpAt t)) s.cpu }
  have arrived : Ready p gone.cpu.mem t call := ready
  have sp : gone.cpu.sp = word (gone.cpu.mem (savedSpAt t)) 9 := by
    rw [kept]
    rfl
  have regs : ∀ i : Fin 9, gone.cpu.callee i =
      gone.cpu.mem (word (gone.cpu.mem (savedSpAt t)) i) := by
    intro i
    rw [kept]
    rfl
  exact arrived.wakes sp regs rfl

theorem switch_returns {s : Sys} {old scheduler : UInt32}
    (way : Way p (rpiCswitch (savedSpAt old) (s.cpu.mem (savedSpAt scheduler)) s.cpu).mem scheduler)
    (kept : (rpiCswitch (savedSpAt old) (s.cpu.mem (savedSpAt scheduler)) s.cpu).mem (savedSpAt scheduler) =
      s.cpu.mem (savedSpAt scheduler)) :
    ∃ c, switch p s old scheduler = some { s with cpu := c, inCaller := true } ∧
      c.mem = (rpiCswitch (savedSpAt old) (s.cpu.mem (savedSpAt scheduler)) s.cpu).mem := by
  let gone : Sys := { s with cpu := rpiCswitch (savedSpAt old) (s.cpu.mem (savedSpAt scheduler)) s.cpu }
  have arrived : Way p gone.cpu.mem scheduler := way
  have regs : ∀ i : Fin 9, gone.cpu.callee i =
      gone.cpu.mem (word (gone.cpu.mem (savedSpAt scheduler)) i) := by
    intro i
    rw [kept]
    rfl
  exact ⟨leave p.rpiThreadStart gone.cpu, arrived.wakes regs rfl, rfl⟩

end Switch

def elsewhere (s : Sys) : List UInt32 := s.curThread.toList ++ s.schedulerThread.toList

structure Core (p : Image) (s : Sys) (k : Allocs) (calls : UInt32 → Option Call)
    (run free : List UInt32) : Prop where
  listed : Listed p s.cpu.mem s.runq s.freeq k run free (elsewhere s)
  counted : Counted s k
  caller : s.inCaller = s.curThread.isNone
  way : s.curThread ≠ none → ∃ scheduler, s.schedulerThread = some scheduler ∧
    Way p s.cpu.mem scheduler
  ready : ∀ b ∈ run, Ready p s.cpu.mem b (calls b)
  idle : ∀ b, b ∉ run → calls b = none

section Steps

variable {s : Sys} {k : Allocs} {calls : UInt32 → Option Call} {run free : List UInt32}

theorem Core.known_cur (core : Core p s k calls run free) {t : UInt32} (cur : s.curThread = some t) :
    t ∈ k.blocks := core.listed.mem_other (by simp [elsewhere, cur])

theorem Core.known_scheduler (core : Core p s k calls run free) {t : UInt32}
    (scheduler : s.schedulerThread = some t) : t ∈ k.blocks :=
  core.listed.mem_other (by simp [elsewhere, scheduler])

theorem Core.apart (core : Core p s k calls run free) :
    (run ++ free ++ elsewhere s).Nodup := core.listed.parts

theorem Core.run_not_cur (core : Core p s k calls run free) {t b : UInt32}
    (cur : s.curThread = some t) (inside : b ∈ run) : b ≠ t := by
  have nodup := core.apart
  simp only [elsewhere, cur, List.nodup_append, List.mem_append, Option.toList_some,
    List.mem_singleton] at nodup
  exact nodup.2.2 b (Or.inl inside) t (Or.inl rfl)

theorem Core.scheduler_not_cur (core : Core p s k calls run free) {t scheduler : UInt32}
    (cur : s.curThread = some t) (found : s.schedulerThread = some scheduler) : scheduler ≠ t := by
  have nodup := core.apart
  simp only [elsewhere, cur, found, List.nodup_append, Option.toList_some,
    List.mem_singleton] at nodup
  exact (nodup.2.1.2.2 t rfl scheduler rfl).symm

theorem Core.run_not_scheduler (core : Core p s k calls run free) {scheduler b : UInt32}
    (found : s.schedulerThread = some scheduler) (inside : b ∈ run) : b ≠ scheduler := by
  have nodup := core.apart
  simp only [elsewhere, found, List.nodup_append, List.mem_append, Option.toList_some,
    List.mem_singleton] at nodup
  exact nodup.2.2 b (Or.inl inside) scheduler (Or.inr rfl)

/-- What the running thread does to its own block and the links leaves the way back. -/
theorem Core.way_kept (core : Core p s k calls run free) {t : UInt32} {queue : List UInt32}
    {mem : Memory} (cur : s.curThread = some t) (queued : ∀ b ∈ queue, b ∈ k.blocks)
    (only : Only t queue s.cpu.mem mem) :
    ∃ scheduler, s.schedulerThread = some scheduler ∧ Way p mem scheduler := by
  obtain ⟨scheduler, found, way⟩ := core.way (by simp [cur])
  exact ⟨scheduler, found, only.way core.listed.placed (core.known_cur cur) queued
    (core.known_scheduler found) (core.scheduler_not_cur cur found) way⟩

end Steps

end EmbeddedOS.Threads
