import EmbeddedOS.Threads.Lists

/-! The contexts that wait on the stacks: what a switch stores of the code it leaves, and where the
code it resumes goes on. -/
namespace EmbeddedOS.Threads
open Arm Linked

variable {p : Image}

theorem stack_word (t : UInt32) (i j : Nat) : word (stackAt t i) j = stackAt t (i + j) := by
  unfold stackAt
  rw [word_add, Nat.add_assoc]

theorem stack_inside {i : Nat} (room : i < THREAD_MAXSTACK) : 6 + i < blockWords :=
  Nat.add_lt_add_left room 6

theorem stack_inj {t : UInt32} {i j : Nat} (room : i < THREAD_MAXSTACK) (room' : j < THREAD_MAXSTACK) :
    stackAt t i = stackAt t j ↔ i = j := by
  unfold stackAt
  rw [block_inj (stack_inside room) (stack_inside room')]
  omega

theorem cswitch_mem (old new : UInt32) (c : Cpu) : (rpiCswitch old new c).mem =
    write (fill c.mem (c.sp - 36) (row c.callee)) old (c.sp - 36) := rfl

theorem cswitch_other {old new x : UInt32} {c : Cpu} (apart : x ≠ old)
    (outside : ∀ i < 9, x ≠ word (c.sp - 36) i) : (rpiCswitch old new c).mem x = c.mem x := by
  rw [cswitch_mem, write_other _ _ apart, row_other _ _ _ outside]

theorem cswitch_saved (old new : UInt32) (c : Cpu) :
    (rpiCswitch old new c).mem old = c.sp - 36 := write_same ..

theorem cswitch_slot {old new : UInt32} {c : Cpu} (i : Fin 9) (apart : word (c.sp - 36) i ≠ old) :
    (rpiCswitch old new c).mem (word (c.sp - 36) i) = c.callee i := by
  rw [cswitch_mem, write_other _ _ apart, row_slot _ _ _ (by decide)]

section Framed

variable {f : Around} {c : Cpu} {base : UInt32} {frame : Fin f.size → UInt32} {callee : Callee}

theorem Framed.enter_sp (framed : Framed f c base frame callee) :
    (enter f frame callee c).sp = word base 9 := by
  change c.sp - 4 * UInt32.ofNat f.size = word base 9
  rw [framed.sp, word_drop]

theorem push_sp (base : UInt32) : word base 9 - 36 = base := UInt32.add_sub_cancel _ _

theorem Framed.enter_other (framed : Framed f c base frame callee) {x : UInt32}
    (outside : ∀ i < f.size, x ≠ word base (9 + i)) : (enter f frame callee c).mem x = c.mem x := by
  have sp := framed.enter_sp
  change c.sp - 4 * UInt32.ofNat f.size = word base 9 at sp
  apply row_other
  intro i low
  rw [sp, word_add]
  exact outside i low

theorem Framed.enter_slot (framed : Framed f c base frame callee) (i : Fin f.size) :
    (enter f frame callee c).mem (word base (9 + i)) = frame i := by
  have sp := framed.enter_sp
  change c.sp - 4 * UInt32.ofNat f.size = word base 9 at sp
  have short := f.short
  change fill c.mem (c.sp - 4 * UInt32.ofNat f.size) (row frame) _ = _
  rw [sp, ← word_add, row_slot _ _ _ (by omega)]

theorem Framed.leave (framed : Framed f c base frame callee) {d : Cpu} (sp : d.sp = word base 9)
    (regs : d.callee = callee) (kept : ∀ i : Fin f.size, d.mem (word base (9 + i)) = frame i) :
    (∀ i, i ≠ LR_OFFSET → (leave f d).callee i = c.callee i) ∧ (leave f d).sp = c.sp ∧
      (leave f d).pc = c.callee LR_OFFSET := by
  have found : (fun i : Fin f.size => d.mem (word d.sp i)) = frame := by
    funext i
    rw [sp, word_add, kept i]
  refine ⟨fun i other => ?_, ?_, ?_⟩
  · change f.restore (fun i => d.mem (word d.sp i)) d.callee i = c.callee i
    rw [found, regs, framed.restores i other]
  · change d.sp + 4 * UInt32.ofNat f.size = c.sp
    rw [framed.sp, ← word_add, sp]
    rfl
  · change f.pc (fun i => d.mem (word d.sp i)) d.callee = _
    rw [found, regs, framed.returns]

end Framed

/-- A queued thread: new, or in a call of `rpi_yield`. -/
inductive Ready (p : Image) (mem : Memory) (t : UInt32) : Option Call → Prop where
  | new (saved : mem (savedSpAt t) = stackAt t 2028)
      (lr : mem (stackAt t 2036) = p.rpiInitTrampoline)
      (code : mem (stackAt t 2028) = mem (fnAt t)) (arg : mem (stackAt t 2029) = mem (argAt t)) :
      Ready p mem t none
  | yielded {call : Call} {j : Nat} {frame : Fin p.rpiYield.size → UInt32} {callee : Callee}
      (room : j + (9 + p.rpiYield.size) ≤ THREAD_MAXSTACK)
      (framed : Framed p.rpiYield call.made.cpu (stackAt t j) frame callee)
      (saved : mem (savedSpAt t) = stackAt t j)
      (regs : ∀ i : Fin 9, mem (stackAt t (j + i)) = callee i)
      (kept : ∀ i : Fin p.rpiYield.size, mem (stackAt t (j + (9 + i))) = frame i)
      (left : call.left (savedSpAt t) = stackAt t j)
      (above : ∀ i < THREAD_MAXSTACK, j ≤ i → mem (stackAt t i) = call.left (stackAt t i))
      (caller : ∀ i < THREAD_MAXSTACK, j + (9 + p.rpiYield.size) ≤ i →
        mem (stackAt t i) = call.made.cpu.mem (stackAt t i)) : Ready p mem t (some call)

theorem Ready.congr {mem mem' : Memory} {t : UInt32} {call : Option Call} (ready : Ready p mem t call)
    (same : ∀ i < blockWords, i ≠ 1 → mem' (word t i) = mem (word t i)) : Ready p mem' t call := by
  have stack {i : Nat} (room : i < THREAD_MAXSTACK) : mem' (stackAt t i) = mem (stackAt t i) :=
    same (6 + i) (stack_inside room) (by omega)
  cases ready with
  | new saved lr code arg =>
    refine .new ?_ ?_ ?_ ?_
    · rw [savedSpAt, same 0 (by decide) (by decide)]
      exact saved
    · rw [stack (by decide)]
      exact lr
    · rw [stack (by decide), fnAt, same 3 (by decide) (by decide)]
      exact code
    · rw [stack (by decide), argAt, same 4 (by decide) (by decide)]
      exact arg
  | yielded room framed saved regs kept left above caller =>
    refine .yielded room framed ?_ ?_ ?_ left ?_ ?_
    · rw [savedSpAt, same 0 (by decide) (by decide)]
      exact saved
    · intro i
      rw [stack (by omega)]
      exact regs i
    · intro i
      rw [stack (by omega)]
      exact kept i
    · intro i low above_j
      rw [stack low]
      exact above i low above_j
    · intro i low above_k
      rw [stack low]
      exact caller i low above_k

/-- A thread behind its call of `rpi_yield`, with what it had before: r4 to r11, the sp and all
of its stack, at the address that the call was to return to. -/
structure Restored (t : UInt32) (call : Call) (c : Cpu) : Prop where
  callee : ∀ i, i ≠ LR_OFFSET → c.callee i = call.made.cpu.callee i
  sp : c.sp = call.made.cpu.sp
  pc : c.pc = call.made.cpu.callee LR_OFFSET
  /-- The words above the sp of the call are as they were at the call. -/
  stack : ∀ k i, call.made.cpu.sp = stackAt t k → k ≤ i → i < THREAD_MAXSTACK →
    c.mem (stackAt t i) = call.made.cpu.mem (stackAt t i)
  /-- The words above the sp that the switch saved are as they were after the switch. -/
  saved : ∀ k i, call.left (savedSpAt t) = stackAt t k → k ≤ i → i < THREAD_MAXSTACK →
    c.mem (stackAt t i) = call.left (stackAt t i)

/-- Where a thread is when a switch has come to it. -/
def Woken (t : UInt32) (c : Cpu) : Option Call → Prop
  | none => c.pc = c.mem (fnAt t) ∧ c.r0 = c.mem (argAt t) ∧ c.sp = stackAt t 2037
  | some call => Restored t call c

/-- And the code of a new thread returns to the branch to `rpi_exit`; one that had yielded has the
registers that `rpi_yield` has made of its frame. -/
structure Arrived (p : Image) (t : UInt32) (c : Cpu) (call : Option Call) : Prop where
  woken : Woken t c call
  lr : call = none → c.callee LR_OFFSET = p.toExit
  taken : call ≠ none → ∃ frame callee, callee LR_OFFSET = p.rpiYield.back ∧
    c.callee = p.rpiYield.restore frame callee

theorem stack_least {t : UInt32} {i j k : Nat} (same : stackAt t j = stackAt t k) (below : k ≤ i)
    (room : i < THREAD_MAXSTACK) (low : j ≤ THREAD_MAXSTACK) : j ≤ i := by
  unfold THREAD_MAXSTACK at room low
  have index := word_inj (by omega) (by omega) same
  omega

theorem Ready.wakes {s : Sys} {t : UInt32} {call : Option Call} (ready : Ready p s.cpu.mem t call)
    (sp : s.cpu.sp = word (s.cpu.mem (savedSpAt t)) 9)
    (regs : ∀ i : Fin 9, s.cpu.callee i = s.cpu.mem (word (s.cpu.mem (savedSpAt t)) i))
    (pc : s.cpu.pc = s.cpu.callee LR_OFFSET) :
    ∃ c, resume p s = some { s with cpu := c, inCaller := false } ∧ c.mem = s.cpu.mem ∧
      Arrived p t c call := by
  cases ready with
  | new saved lr code arg =>
    rw [saved] at sp regs
    have start : s.cpu.pc = p.rpiInitTrampoline := by
      rw [pc, regs, stack_word]
      exact lr
    refine ⟨rpiInitTrampoline p s.cpu, if_pos start, rfl, ⟨?_, ?_, ?_⟩,
      fun _ => by simp [rpiInitTrampoline], fun other => (other rfl).elim⟩
    · change s.cpu.callee R4_OFFSET = s.cpu.mem (fnAt t)
      rw [regs, stack_word]
      exact code
    · change s.cpu.callee R5_OFFSET = s.cpu.mem (argAt t)
      rw [regs, stack_word]
      exact arg
    · exact sp.trans (stack_word t 2028 9)
  | @yielded call j frame callee room framed saved slots kept left above caller =>
    rw [saved] at sp regs
    have same : s.cpu.callee = callee := by
      funext i
      rw [regs, stack_word, slots]
    have back : s.cpu.pc = p.rpiYield.back := by rw [pc, same, framed.back]
    have other : ¬ s.cpu.pc = p.rpiInitTrampoline := by
      have distinct := p.distinct
      simp only [List.nodup_cons, List.mem_cons, not_or] at distinct
      rw [back]
      exact Ne.symm distinct.1.1
    have frame_kept : ∀ i : Fin p.rpiYield.size,
        s.cpu.mem (word (stackAt t j) (9 + i)) = frame i := by
      intro i
      rw [stack_word]
      exact kept i
    obtain ⟨callee_back, sp_back, pc_back⟩ := framed.leave sp same frame_kept
    have low : j + (9 + p.rpiYield.size) ≤ THREAD_MAXSTACK := room
    refine ⟨leave p.rpiYield s.cpu, (if_neg other).trans (if_pos back), rfl,
      ⟨callee_back, sp_back, pc_back, ?_, ?_⟩, nofun,
      fun _ => ⟨_, s.cpu.callee, (congrFun same LR_OFFSET).trans framed.back, rfl⟩⟩
    · intro k i top below inside
      have at_call := framed.sp
      rw [stack_word] at at_call
      exact caller i inside (stack_least (at_call.symm.trans top) below inside low)
    · intro k i top below inside
      exact above i inside (stack_least (left.symm.trans top) below inside (by omega))

/-- The way back to the caller: the scheduler block has its saved sp. -/
structure Way (p : Image) (mem : Memory) (scheduler : UInt32) : Prop where
  lr : mem (word (mem (savedSpAt scheduler)) 8) = p.rpiThreadStart.back
  inside : p.callerStack (word (mem (savedSpAt scheduler)) 8)

theorem Way.wakes {s : Sys} {scheduler : UInt32} (way : Way p s.cpu.mem scheduler)
    (regs : ∀ i : Fin 9, s.cpu.callee i = s.cpu.mem (word (s.cpu.mem (savedSpAt scheduler)) i))
    (pc : s.cpu.pc = s.cpu.callee LR_OFFSET) :
    resume p s = some { s with cpu := leave p.rpiThreadStart s.cpu, inCaller := true } := by
  have back : s.cpu.pc = p.rpiThreadStart.back := by
    rw [pc, regs]
    exact way.lr
  have distinct := p.distinct
  simp only [List.nodup_cons, List.mem_cons, not_or] at distinct
  have first : ¬ s.cpu.pc = p.rpiInitTrampoline := by
    rw [back]
    exact Ne.symm distinct.1.2.1
  have second : ¬ s.cpu.pc = p.rpiYield.back := by
    rw [back]
    exact Ne.symm distinct.2.1.1
  rw [resume, if_neg first, if_neg second, if_pos back]

end EmbeddedOS.Threads
