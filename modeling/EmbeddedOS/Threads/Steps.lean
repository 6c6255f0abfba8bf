import EmbeddedOS.Threads.Core

/-! Each call keeps the invariant, never fails where it is made as it has to be, and says which
blocks it moves. -/
namespace EmbeddedOS.Threads
open Arm Linked

variable {p : Image} {s : Sys} {k : Allocs} {calls : UInt32 → Option Call} {run free : List UInt32}

theorem write_word {t v : UInt32} {mem : Memory} {i j : Nat} (low : i < blockWords)
    (low' : j < blockWords) :
    write mem (word t i) v (word t j) = if j = i then v else mem (word t j) := by
  by_cases same : j = i
  · subst same
    simp
  · have apart : word t j ≠ word t i := fun equal => same ((block_inj low' low).mp equal)
    simp [same, apart]

/-- Of the blocks on a queue only the pointers to the next change. -/
def Kept (run : List UInt32) (mem mem' : Memory) : Prop :=
  ∀ b ∈ run, ∀ i < blockWords, i ≠ 1 → mem' (word b i) = mem (word b i)

/-- The words that `rpi_fork` writes in the block. -/
def forkMem (p : Image) (mem : Memory) (t code arg : UInt32) : Memory :=
  let start := THREAD_MAXSTACK - 20
  let mem := write mem (fnAt t) code
  let mem := write mem (argAt t) arg
  let mem := write mem (stackAt t (start + LR_OFFSET.val)) p.rpiInitTrampoline
  let mem := write mem (stackAt t (start + R4_OFFSET.val)) code
  let mem := write mem (stackAt t (start + R5_OFFSET.val)) arg
  write mem (savedSpAt t) (stackAt t start)

theorem forkMem_only (mem : Memory) (t code arg : UInt32) :
    Only t [] mem (forkMem p mem t code arg) := by
  intro x outside _
  have stack : ∀ i < THREAD_MAXSTACK, x ≠ stackAt t i := fun i low => outside _ (stack_inside low)
  have fields : write (write mem (fnAt t) code) (argAt t) arg x = mem x :=
    (write_other _ _ (outside 4 (by decide))).trans (write_other _ _ (outside 3 (by decide)))
  have lr := (write_other _ p.rpiInitTrampoline (stack 2036 (by decide))).trans fields
  have regs := (write_other _ arg (stack 2029 (by decide))).trans
    ((write_other _ code (stack 2028 (by decide))).trans lr)
  exact (write_other _ _ (outside 0 (by decide))).trans regs

theorem forkMem_field {mem : Memory} {t code arg : UInt32} {i : Nat} (low : i = 1 ∨ i = 2) :
    forkMem p mem t code arg (word t i) = mem (word t i) := by
  obtain rfl | rfl := low <;>
    simp (disch := decide) only [forkMem, savedSpAt, fnAt, argAt, stackAt, write_word] <;> rfl

theorem forkMem_ready (mem : Memory) (t code arg : UInt32) :
    Ready p (forkMem p mem t code arg) t none := by
  refine .new ?_ ?_ ?_ ?_ <;>
    simp (disch := decide) only [forkMem, savedSpAt, fnAt, argAt, stackAt, write_word] <;> rfl

theorem forkMem_call (mem : Memory) (t code arg : UInt32) :
    forkMem p mem t code arg (fnAt t) = code ∧ forkMem p mem t code arg (argAt t) = arg := by
  constructor <;>
    simp (disch := decide) only [forkMem, savedSpAt, fnAt, argAt, stackAt, write_word] <;> rfl

theorem append_words {mem mem' : Memory} {t : UInt32} {run blocks : List UInt32}
    (placed : Placed p blocks) (known : t ∈ blocks) (queued : ∀ b ∈ run, b ∈ blocks)
    (only : ∀ x, (∀ b ∈ t :: run, x ≠ nextAt b) → mem' x = mem x) :
    ∀ i < blockWords, i ≠ 1 → mem' (word t i) = mem (word t i) := by
  intro i low index
  apply only
  intro b member same
  have inside : b ∈ blocks := by
    obtain rfl | before := List.mem_cons.mp member
    · exact known
    · exact queued b before
  exact index (placed.index known inside low (by decide) same).2

theorem append_only {mem mem' : Memory} {t : UInt32} {run : List UInt32}
    (only : ∀ x, (∀ b ∈ t :: run, x ≠ nextAt b) → mem' x = mem x) : Only t run mem mem' := by
  intro x outside apart
  apply only
  intro b member
  obtain rfl | before := List.mem_cons.mp member
  · exact outside 1 (by decide)
  · exact apart b before

theorem rpi_fork_eq {t a code arg : UInt32} {s1 : Sys} (alloc : thAlloc s a = some (t, s1)) :
    rpiFork p s a code arg = some { s1 with
      cpu := { s1.cpu with
        r0 := t, mem := (qAppend (forkMem p s1.cpu.mem t code arg) s1.runq t).1 }
      runq := (qAppend (forkMem p s1.cpu.mem t code arg) s1.runq t).2 } := by
  simp only [rpiFork, alloc, Option.bind_eq_bind, Option.bind_some]
  rfl

/-- A fork queues a block that was nowhere, or free. -/
theorem fork_core {a code arg : UInt32} (core : Core p s k calls run free)
    (fresh : s.freeq.head = none → Fresh p k a) :
    ∃ t s', t = s.freeq.head.getD a ∧ rpiFork p s a code arg = some s' ∧ s'.cpu.r0 = t ∧
      s'.curThread = s.curThread ∧ s'.schedulerThread = s.schedulerThread ∧
      t ∉ run ++ elsewhere s ∧ s'.cpu.sp = s.cpu.sp ∧ s'.cpu.callee = s.cpu.callee ∧
      (s'.cpu.mem (fnAt t) = code ∧ s'.cpu.mem (argAt t) = arg) ∧
      Kept run s.cpu.mem s'.cpu.mem ∧
      Core p s' (k.add s.freeq.head.isNone t) calls (run ++ [t]) free.tail := by
  obtain ⟨t, q, n, chosen, alloc, listed, counted, absent⟩ :=
    th_alloc_spec core.listed core.counted fresh
  have known := listed.mem_other (List.mem_cons_self : t ∈ t :: elsewhere s)
  let mem1 := write s.cpu.mem (tidAt t) s.tid
  let mem2 := forkMem p mem1 t code arg
  have stamped : Only t [] s.cpu.mem mem1 := by
    intro x outside _
    exact write_other _ _ (outside 2 (by decide))
  have filled : Only t [] mem1 mem2 := forkMem_only mem1 t code arg
  have fields : ∀ b ∈ (k.add s.freeq.head.isNone t).blocks, ∀ i, i = 1 ∨ i = 2 →
      mem2 (word b i) = mem1 (word b i) := by
    intro b inside i field
    by_cases here : b = t
    · subst here
      exact forkMem_field field
    · apply filled
      · intro j low same
        have short : i < blockWords := by
          obtain rfl | rfl := field <;> decide
        exact here (listed.placed.index inside known short low same).1
      · simp
  have listed2 : Listed p mem2 s.runq q (k.add s.freeq.head.isNone t) run free.tail
      (t :: elsewhere s) :=
    listed.frame (fun b inside => fields b inside 1 (Or.inl rfl))
      (fun b inside => fields b inside 2 (Or.inr rfl))
  obtain ⟨listed3, kept⟩ := listed2.appended
  have queued : ∀ b ∈ run, b ∈ (k.add s.freeq.head.isNone t).blocks :=
    fun b inside => listed2.mem_run inside
  have only : Only t run s.cpu.mem (qAppend mem2 s.runq t).1 :=
    (stamped.more.trans filled.more).trans (append_only kept)
  have own := append_words listed2.placed known queued kept
  have others : Kept run s.cpu.mem (qAppend mem2 s.runq t).1 := by
    intro b before
    have other : b ≠ t := by
      rintro rfl
      exact absent (List.mem_append_left _ before)
    exact only.words listed2.placed known queued (queued b before) other
  refine ⟨t, _, chosen, rpi_fork_eq alloc, rfl, rfl, rfl, absent, rfl, rfl, ⟨?_, ?_⟩, others,
    listed3, ?_, core.caller, ?_, ?_, ?_⟩
  · exact (own 3 (by decide) (by decide)).trans (forkMem_call mem1 t code arg).1
  · exact (own 4 (by decide) (by decide)).trans (forkMem_call mem1 t code arg).2
  · exact ⟨counted.nalloced, counted.tid⟩
  · intro running
    obtain ⟨scheduler, found, way⟩ := core.way running
    have inside : scheduler ∈ elsewhere s := by simp [elsewhere, found]
    have other : scheduler ≠ t := by
      rintro rfl
      exact absent (List.mem_append_right _ inside)
    exact ⟨scheduler, found, only.way listed2.placed known queued
      (listed2.mem_other (List.mem_cons_of_mem t inside)) other way⟩
  · intro b inside
    obtain before | here := List.mem_append.mp inside
    · exact (core.ready b before).congr (others b before)
    · rw [List.mem_singleton.mp here]
      have new : calls t = none := core.idle t fun inside => absent (List.mem_append_left _ inside)
      rw [new]
      exact (forkMem_ready mem1 t code arg).congr own
  · intro b outside
    apply core.idle
    intro inside
    exact outside (List.mem_append_left _ inside)

theorem arrive_core {s1 : Sys} {old b : UInt32} {mem : Memory} {calls' : UInt32 → Option Call}
    {call : Option Call}
    (memory : (rpiCswitch (savedSpAt old) (s1.cpu.mem (savedSpAt b)) s1.cpu).mem = mem)
    (listed : Listed p mem s1.runq s1.freeq k run free (elsewhere s1)) (counted : Counted s1 k)
    (cur : s1.curThread = some b)
    (way : ∃ scheduler, s1.schedulerThread = some scheduler ∧ Way p mem scheduler)
    (ready : Ready p mem b call) (kept : mem (savedSpAt b) = s1.cpu.mem (savedSpAt b))
    (queued : ∀ x ∈ run, Ready p mem x (calls' x)) (idle : ∀ x, x ∉ run → calls' x = none) :
    ∃ s', switch p s1 old b = some s' ∧ s'.cpu.mem = mem ∧ s'.curThread = some b ∧
      s'.schedulerThread = s1.schedulerThread ∧ s'.inCaller = false ∧ Arrived p b s'.cpu call ∧
      Core p s' k calls' run free := by
  subst memory
  obtain ⟨c, ran, same, woken⟩ := switch_arrives ready kept
  refine ⟨_, ran, same, cur, rfl, rfl, woken, ?_, ⟨counted.nalloced, counted.tid⟩, ?_, ?_, ?_, idle⟩
  · change Listed p c.mem s1.runq s1.freeq k run free (elsewhere s1)
    rw [same]
    exact listed
  · change false = s1.curThread.isNone
    rw [cur]
    rfl
  · intro _
    obtain ⟨scheduler, found, way⟩ := way
    refine ⟨scheduler, found, ?_⟩
    change Way p c.mem scheduler
    rw [same]
    exact way
  · intro x inside
    change Ready p c.mem x (calls' x)
    rw [same]
    exact queued x inside

theorem frame_fields {mem mem' : Memory} {runq freeq : Q} {other : List UInt32}
    (listed : Listed p mem runq freeq k run free other)
    (same : ∀ b ∈ k.blocks, ∀ i < 6, i ≠ 0 → mem' (word b i) = mem (word b i)) :
    Listed p mem' runq freeq k run free other :=
  listed.frame (fun b inside => same b inside 1 (by decide) (by decide))
    (fun b inside => same b inside 2 (by decide) (by decide))

theorem wake_queued {mem : Memory} {b : UInt32} (nodup : (b :: run).Nodup)
    (ready : ∀ x ∈ b :: run, Ready p mem x (calls x)) :
    ∀ x ∈ run, Ready p mem x (Function.update calls b none x) := by
  intro x inside
  have apart : x ≠ b := fun same => (List.nodup_cons.mp nodup).1 (same ▸ inside)
  rw [Function.update_of_ne apart]
  exact ready x (List.mem_cons_of_mem b inside)

theorem wake_idle {b : UInt32} (idle : ∀ x, x ∉ b :: run → calls x = none) :
    ∀ x, x ∉ run → Function.update calls b none x = none := by
  intro x outside
  by_cases here : x = b
  · subst here
    exact Function.update_self ..
  · rw [Function.update_of_ne here]
    apply idle
    intro inside
    exact (List.mem_cons.mp inside).elim here outside

def exiting (s : Sys) (cur : Option UInt32) (runq : Q) (t : UInt32) : Sys :=
  thFree { s with curThread := cur, runq := runq } t

theorem exiting_only (s : Sys) (cur : Option UInt32) (runq : Q) (t : UInt32) :
    Only t [] s.cpu.mem (exiting s cur runq t).cpu.mem := by
  intro x outside _
  exact write_other _ _ (outside 1 (by decide))

/-- An exit frees the block of the thread, and the thread at the head of the queue goes on. -/
theorem exit_core {t b : UInt32} {j : Nat} (core : Core p s k calls (b :: run) free)
    (cur : s.curThread = some t) (room : j + 9 ≤ THREAD_MAXSTACK)
    (sp : s.cpu.sp = stackAt t (j + 9)) :
    ∃ s', rpiExit p s = some s' ∧ s'.curThread = some b ∧
      s'.schedulerThread = s.schedulerThread ∧ s'.inCaller = false ∧
      Arrived p b s'.cpu (calls b) ∧ Kept (b :: run) s.cpu.mem s'.cpu.mem ∧
      Core p s' k (Function.update calls b none) run (t :: free) := by
  have known := core.known_cur cur
  have other := core.run_not_cur cur (List.mem_cons_self : b ∈ b :: run)
  obtain ⟨q, popped, listed⟩ := core.listed.popped
  have places : (b :: elsewhere s).Perm (t :: b :: s.schedulerThread.toList) := by
    rw [elsewhere, cur]
    exact List.Perm.swap t b _
  obtain ⟨listed1, -⟩ := (listed.perm places).pushed
  let s1 : Sys := exiting s (some b) q t
  let mem := (rpiCswitch (savedSpAt t) (s1.cpu.mem (savedSpAt b)) s1.cpu).mem
  have sp1 : s1.cpu.sp = word (stackAt t j) 9 := by rw [stack_word]; exact sp
  have only1 : Only t [] s.cpu.mem s1.cpu.mem := exiting_only s (some b) q t
  have only2 : Only t [] s1.cpu.mem mem := switch_only sp1 room
  have only := only1.trans only2
  have placed := core.listed.placed
  have none_queued : ∀ b ∈ ([] : List UInt32), b ∈ k.blocks := by simp
  have listed2 : Listed p mem q s1.freeq k run (t :: free) (elsewhere s1) :=
    frame_fields listed1 fun c inside i field index =>
      switch_fields placed known sp1 room inside field index
  have queue_kept : Kept (b :: run) s.cpu.mem mem := fun x inside =>
    only.words placed known none_queued (core.listed.mem_run inside) (core.run_not_cur cur inside)
  have ready {x : UInt32} (inside : x ∈ b :: run) : Ready p mem x (calls x) :=
    (core.ready x inside).congr (queue_kept x inside)
  have nodup := core.listed.runq.holds.nodup
  have way : ∃ scheduler, s1.schedulerThread = some scheduler ∧ Way p mem scheduler :=
    core.way_kept cur none_queued only
  have kept : mem (savedSpAt b) = s1.cpu.mem (savedSpAt b) :=
    only2.words placed known none_queued (core.listed.mem_run List.mem_cons_self) other 0
      (by decide) (by decide)
  obtain ⟨s', ran, same, cur', scheduler', caller', woken, core'⟩ :=
    arrive_core rfl listed2 ⟨core.counted.nalloced, core.counted.tid⟩ rfl way
      (ready List.mem_cons_self) kept (wake_queued nodup fun x inside => ready inside)
      (wake_idle core.idle)
  refine ⟨s', ?_, cur', scheduler', caller', woken, ?_, core'⟩
  · simp only [rpiExit, cur, popped, Option.bind_eq_bind, Option.bind_some]
    exact ran
  · rw [same]
    exact queue_kept

theorem exit_last {t : UInt32} {j : Nat} (core : Core p s k calls [] free)
    (cur : s.curThread = some t) (room : j + 9 ≤ THREAD_MAXSTACK)
    (sp : s.cpu.sp = stackAt t (j + 9)) :
    ∃ s', rpiExit p s = some s' ∧ s'.curThread = none ∧
      s'.schedulerThread = s.schedulerThread ∧ s'.inCaller = true ∧ s'.runq.head = none ∧
      Core p s' k calls [] (t :: free) := by
  have known := core.known_cur cur
  have popped := Q_pop_nil core.listed.runq
  have places : elsewhere s = t :: s.schedulerThread.toList := by rw [elsewhere, cur]; rfl
  have listed := core.listed
  rw [places] at listed
  obtain ⟨listed1, -⟩ := listed.pushed
  obtain ⟨scheduler, found, way⟩ := core.way (by simp [cur])
  let s1 : Sys := exiting s none s.runq t
  let mem := (rpiCswitch (savedSpAt t) (s1.cpu.mem (savedSpAt scheduler)) s1.cpu).mem
  have sp1 : s1.cpu.sp = word (stackAt t j) 9 := by rw [stack_word]; exact sp
  have only1 : Only t [] s.cpu.mem s1.cpu.mem := exiting_only s none s.runq t
  have only2 : Only t [] s1.cpu.mem mem := switch_only sp1 room
  have placed := core.listed.placed
  have none_queued : ∀ b ∈ ([] : List UInt32), b ∈ k.blocks := by simp
  have known' := core.known_scheduler found
  have other := core.scheduler_not_cur cur found
  have way' : Way p mem scheduler :=
    (only1.trans only2).way placed known none_queued known' other way
  have kept : mem (savedSpAt scheduler) = s1.cpu.mem (savedSpAt scheduler) :=
    only2.words placed known none_queued known' other 0 (by decide) (by decide)
  have listed2 : Listed p mem s.runq s1.freeq k [] (t :: free) s.schedulerThread.toList :=
    frame_fields listed1 fun c inside i field index =>
      switch_fields placed known sp1 room inside field index
  obtain ⟨c, ran, same⟩ := switch_returns way' kept
  refine ⟨{ s1 with cpu := c, inCaller := true }, ?_, rfl, rfl, rfl, core.listed.runq.head_nil, ?_,
    ⟨core.counted.nalloced, core.counted.tid⟩, rfl, ?_, ?_, core.idle⟩
  · have there : s1.schedulerThread = some scheduler := found
    simp only [rpiExit, cur, popped, Option.bind_eq_bind, Option.bind_some]
    change (s1.schedulerThread.bind fun scheduler => switch p s1 t scheduler) = _
    exact Option.bind_eq_some_iff.mpr ⟨scheduler, there, ran⟩
  · change Listed p c.mem s.runq s1.freeq k [] (t :: free) s.schedulerThread.toList
    rw [same]
    exact listed2
  · intro running
    exact absurd rfl running
  · simp

section Yield

variable {t : UInt32} {j : Nat} {frame : Fin p.rpiYield.size → UInt32} {callee : Callee}

theorem enter_only (room : j + (9 + p.rpiYield.size) ≤ THREAD_MAXSTACK)
    (framed : Framed p.rpiYield s.cpu (stackAt t j) frame callee) :
    Only t [] s.cpu.mem (enter p.rpiYield frame callee s.cpu).mem := by
  intro x outside _
  apply framed.enter_other
  intro i low
  rw [stack_word]
  exact outside _ (stack_inside (by omega))

theorem enter_fields {blocks : List UInt32} (placed : Placed p blocks) (known : t ∈ blocks)
    (room : j + (9 + p.rpiYield.size) ≤ THREAD_MAXSTACK)
    (framed : Framed p.rpiYield s.cpu (stackAt t j) frame callee) :
    ∀ b ∈ blocks, ∀ i < 6, i ≠ 0 →
      (enter p.rpiYield frame callee s.cpu).mem (word b i) = s.cpu.mem (word b i) := by
  intro b inside i field _
  apply framed.enter_other
  intro k low same
  rw [stack_word] at same
  have short : i < blockWords := Nat.lt_of_lt_of_le field (by decide)
  have slot := (placed.index inside known short (stack_inside (by omega)) same).2
  omega

theorem yield_alone (core : Core p s k calls [] free) (cur : s.curThread = some t)
    (room : j + (9 + p.rpiYield.size) ≤ THREAD_MAXSTACK)
    (framed : Framed p.rpiYield s.cpu (stackAt t j) frame callee) :
    ∃ s', rpiYield p s frame callee = some s' ∧ s'.curThread = some t ∧
      s'.schedulerThread = s.schedulerThread ∧ Restored t ⟨s, s'.cpu.mem⟩ s'.cpu ∧
      Core p s' k calls [] free := by
  have known := core.known_cur cur
  have placed := core.listed.placed
  have none_queued : ∀ b ∈ ([] : List UInt32), b ∈ k.blocks := by simp
  have only := enter_only room framed
  obtain ⟨callee_back, sp_back, pc_back⟩ :=
    framed.leave framed.enter_sp rfl fun i => framed.enter_slot i
  refine ⟨{ s with cpu := leave p.rpiYield (enter p.rpiYield frame callee s.cpu) }, ?_, cur, rfl,
    ⟨callee_back, sp_back, pc_back, ?_, ?_⟩,
    frame_fields core.listed (enter_fields placed known room framed),
    ⟨core.counted.nalloced, core.counted.tid⟩, core.caller, ?_, by simp, core.idle⟩
  · simp only [rpiYield, Q_empty_nil core.listed.runq, Option.bind_eq_bind, Option.bind_some,
      if_true]
    rfl
  · intro m i top below inside
    apply framed.enter_other
    intro n low same
    have at_call := framed.sp
    rw [stack_word] at at_call
    have least := stack_least (at_call.symm.trans top) below inside room
    rw [stack_word, stack_inj inside (by omega)] at same
    omega
  · intro m i _ _ _
    rfl
  · intro _
    exact core.way_kept cur none_queued only

def yieldCalls (s : Sys) (mem : Memory) (calls : UInt32 → Option Call) (t b : UInt32) :
    UInt32 → Option Call :=
  fun x => if x = b then none else if x = t then some ⟨s, mem⟩ else calls x

theorem yieldCalls_idle {mem : Memory} {b : UInt32} (idle : ∀ x, x ∉ b :: run → calls x = none) :
    ∀ x, x ∉ run ++ [t] → yieldCalls s mem calls t b x = none := by
  intro x outside
  simp only [List.mem_append, List.mem_singleton, not_or] at outside
  unfold yieldCalls
  split_ifs with first
  · rfl
  · exact absurd (by assumption) outside.2
  · apply idle
    intro inside
    exact (List.mem_cons.mp inside).elim first outside.1

theorem yieldCalls_ready {mem : Memory} {b : UInt32} (nodup : (b :: run).Nodup)
    (apart : ∀ x ∈ b :: run, x ≠ t) (ready : ∀ x ∈ b :: run, Ready p mem x (calls x))
    (yielded : Ready p mem t (some ⟨s, mem⟩)) :
    ∀ x ∈ run ++ [t], Ready p mem x (yieldCalls s mem calls t b x) := by
  intro x inside
  obtain before | here := List.mem_append.mp inside
  · have other : x ≠ b := fun same => (List.nodup_cons.mp nodup).1 (same ▸ before)
    rw [yieldCalls, if_neg other, if_neg (apart x (List.mem_cons_of_mem b before))]
    exact ready x (List.mem_cons_of_mem b before)
  · rw [List.mem_singleton.mp here, yieldCalls, if_neg (apart b List.mem_cons_self).symm, if_pos rfl]
    exact yielded

/-- Its registers are below its frame, and all above is as the call found it. -/
theorem yielded_ready {mem mem' : Memory} (room : j + (9 + p.rpiYield.size) ≤ THREAD_MAXSTACK)
    (framed : Framed p.rpiYield s.cpu (stackAt t j) frame callee)
    (own : ∀ i < THREAD_MAXSTACK,
      mem (stackAt t i) = (enter p.rpiYield frame callee s.cpu).mem (stackAt t i))
    (left : Switched t j callee mem mem') : Ready p mem' t (some ⟨s, mem'⟩) := by
  refine .yielded room framed left.saved left.regs ?_ left.saved (fun i _ _ => rfl) ?_
  · intro i
    rw [left.above _ (by omega) (by omega), own _ (by omega), ← stack_word]
    exact framed.enter_slot i
  · intro i low high
    rw [left.above _ low (by omega), own _ low]
    apply framed.enter_other
    intro n small same
    rw [stack_word, stack_inj low (by omega)] at same
    omega

/-- A yield queues the thread, and the one at the head of the queue goes on. -/
theorem yield_core {b : UInt32} (core : Core p s k calls (b :: run) free)
    (cur : s.curThread = some t) (room : j + (9 + p.rpiYield.size) ≤ THREAD_MAXSTACK)
    (framed : Framed p.rpiYield s.cpu (stackAt t j) frame callee) :
    ∃ s', rpiYield p s frame callee = some s' ∧ s'.curThread = some b ∧
      s'.schedulerThread = s.schedulerThread ∧ s'.inCaller = false ∧
      Arrived p b s'.cpu (calls b) ∧ Kept (b :: run) s.cpu.mem s'.cpu.mem ∧
      Core p s' k (yieldCalls s s'.cpu.mem calls t b) (run ++ [t]) free := by
  have known := core.known_cur cur
  have placed := core.listed.placed
  have none_queued : ∀ b ∈ ([] : List UInt32), b ∈ k.blocks := by simp
  have places : elsewhere s = t :: s.schedulerThread.toList := by rw [elsewhere, cur]; rfl
  let mem0 := (enter p.rpiYield frame callee s.cpu).mem
  have only0 : Only t [] s.cpu.mem mem0 := enter_only room framed
  have listed0 : Listed p mem0 s.runq s.freeq k (b :: run) free (t :: s.schedulerThread.toList) := by
    rw [← places]
    exact frame_fields core.listed (enter_fields placed known room framed)
  obtain ⟨listed1, kept1⟩ := listed0.appended
  let mem1 := (qAppend mem0 s.runq t).1
  obtain ⟨q, popped, listed2⟩ := listed1.popped
  let s1 : Sys := { s with
    cpu := { enter p.rpiYield frame callee s.cpu with mem := mem1 }
    curThread := some b
    runq := q }
  let mem := (rpiCswitch (savedSpAt t) (s1.cpu.mem (savedSpAt b)) s1.cpu).mem
  have sp1 : s1.cpu.sp = word (stackAt t j) 9 := framed.enter_sp
  have room1 : j + 9 ≤ THREAD_MAXSTACK := by omega
  have only2 : Only t [] mem1 mem := switch_only sp1 room1
  have left : Switched t j callee mem1 mem := switched sp1 room1
  have queued : ∀ c ∈ b :: run, c ∈ k.blocks := fun c inside => core.listed.mem_run inside
  have only : Only t (b :: run) s.cpu.mem mem :=
    (only0.more.trans (append_only kept1)).trans only2.more
  have own : ∀ i < THREAD_MAXSTACK, mem1 (stackAt t i) = mem0 (stackAt t i) :=
    fun i low => append_words placed known queued kept1 _ (stack_inside low) (by omega)
  have listed3 : Listed p mem q s.freeq k (run ++ [t]) free (elsewhere s1) :=
    frame_fields listed2 fun c inside i field index =>
      switch_fields placed known sp1 room1 inside field index
  have queue_kept : Kept (b :: run) s.cpu.mem mem := fun x inside =>
    only.words placed known queued (queued x inside) (core.run_not_cur cur inside)
  have ready {x : UInt32} (inside : x ∈ b :: run) : Ready p mem x (calls x) :=
    (core.ready x inside).congr (queue_kept x inside)
  have yielded : Ready p mem t (some ⟨s, mem⟩) := yielded_ready room framed own left
  have nodup := core.listed.runq.holds.nodup
  have way : ∃ scheduler, s1.schedulerThread = some scheduler ∧ Way p mem scheduler :=
    core.way_kept cur queued only
  have head_other := core.run_not_cur cur (List.mem_cons_self : b ∈ b :: run)
  have kept : mem (savedSpAt b) = s1.cpu.mem (savedSpAt b) :=
    only2.words placed known none_queued (queued b List.mem_cons_self) head_other 0 (by decide)
      (by decide)
  have waiting : ∀ x ∈ run ++ [t], Ready p mem x (yieldCalls s mem calls t b x) :=
    yieldCalls_ready nodup (fun x inside => core.run_not_cur cur inside) (fun x inside => ready inside)
      yielded
  obtain ⟨s', ran, same, cur', scheduler', caller', woken, core'⟩ :=
    arrive_core rfl listed3 ⟨core.counted.nalloced, core.counted.tid⟩ rfl way
      (ready List.mem_cons_self) kept waiting (yieldCalls_idle core.idle)
  refine ⟨s', ?_, cur', scheduler', caller', woken, ?_, ?_⟩
  · simp only [rpiYield, Q_empty_cons core.listed.runq, cur, Option.bind_eq_bind,
      Option.bind_some, Bool.false_eq_true, if_false]
    rw [show qPop (qAppend (enter p.rpiYield frame callee s.cpu).mem s.runq t).1
      (qAppend (enter p.rpiYield frame callee s.cpu).mem s.runq t).2 = some (some b, q) from popped]
    exact ran
  · rw [same]
    exact queue_kept
  · rw [same]
    exact core'

end Yield

section Start

variable {base a : UInt32} {frame : Fin p.rpiThreadStart.size → UInt32} {callee : Callee}

theorem enter_outside {blocks : List UInt32} {b : UInt32} {i : Nat} (placed : Placed p blocks)
    (stack : ∀ i < 9 + p.rpiThreadStart.size, p.callerStack (word base i))
    (framed : Framed p.rpiThreadStart s.cpu base frame callee) (inside : b ∈ blocks)
    (low : i < blockWords) :
    (enter p.rpiThreadStart frame callee s.cpu).mem (word b i) = s.cpu.mem (word b i) := by
  apply framed.enter_other
  intro n small same
  have own := stack (9 + n) (by omega)
  rw [← same] at own
  exact placed.outside b inside i low own

theorem entered_core (core : Core p s k calls run free) (cur : s.curThread = none)
    (stack : ∀ i < 9 + p.rpiThreadStart.size, p.callerStack (word base i))
    (framed : Framed p.rpiThreadStart s.cpu base frame callee) :
    Core p { s with cpu := enter p.rpiThreadStart frame callee s.cpu } k calls run free := by
  have words {x : UInt32} (inside : x ∈ k.blocks) (i : Nat) (low : i < blockWords) :
      (enter p.rpiThreadStart frame callee s.cpu).mem (word x i) = s.cpu.mem (word x i) :=
    enter_outside core.listed.placed stack framed inside low
  refine ⟨frame_fields core.listed ?_, ⟨core.counted.nalloced, core.counted.tid⟩, core.caller, ?_,
    ?_, core.idle⟩
  · intro x inside i field _
    exact words inside i (Nat.lt_of_lt_of_le field (by decide))
  · intro running
    exact absurd cur running
  · intro x inside
    exact (core.ready x inside).congr fun i low _ => words (core.listed.mem_run inside) i low

/-- The registers that the switch to a thread saves are below the frame of the call. -/
theorem scheduler_way {c : Cpu} {blocks : List UInt32} {scheduler new : UInt32} (placed : Placed p blocks)
    (known : scheduler ∈ blocks) (stack : ∀ i < 9 + p.rpiThreadStart.size, p.callerStack (word base i))
    (sp : c.sp - 36 = base) (lr : c.callee LR_OFFSET = p.rpiThreadStart.back) :
    Way p (rpiCswitch (savedSpAt scheduler) new c).mem scheduler := by
  subst sp
  have saved := cswitch_saved (savedSpAt scheduler) new c
  have lr_apart : word (c.sp - 36) LR_OFFSET.val ≠ savedSpAt scheduler := by
    intro same
    have own := stack LR_OFFSET.val (by omega)
    rw [same] at own
    exact placed.outside scheduler known 0 (by decide) own
  refine ⟨?_, by rw [saved]; exact stack 8 (by omega)⟩
  rw [saved, ← lr]
  exact cswitch_slot LR_OFFSET lr_apart

theorem start_alone (core : Core p s k calls [] free) (caller : s.inCaller = true)
    (stack : ∀ i < 9 + p.rpiThreadStart.size, p.callerStack (word base i))
    (framed : Framed p.rpiThreadStart s.cpu base frame callee) :
    ∃ s', rpiThreadStart p s frame callee a = some s' ∧ s'.curThread = none ∧
      s'.schedulerThread = s.schedulerThread ∧ s'.inCaller = true ∧ s'.runq.head = none ∧
      Core p s' k calls [] free := by
  have cur : s.curThread = none := by
    rw [← Option.isNone_iff_eq_none, ← core.caller]
    exact caller
  refine ⟨{ s with cpu := leave p.rpiThreadStart (enter p.rpiThreadStart frame callee s.cpu) },
    ?_, cur, rfl, caller, core.listed.runq.head_nil, frame_fields core.listed ?_,
    ⟨core.counted.nalloced, core.counted.tid⟩, core.caller, ?_, by simp, core.idle⟩
  · simp only [rpiThreadStart, Q_empty_nil core.listed.runq, Option.bind_eq_bind,
      Option.bind_some, if_true]
    rfl
  · intro b inside i field _
    exact enter_outside core.listed.placed stack framed inside
      (Nat.lt_of_lt_of_le field (by decide))
  · intro running
    exact absurd cur running

theorem scheduler_block_spec (core : Core p s k calls run free) (cur : s.curThread = none)
    (fresh : s.schedulerThread = none → s.freeq.head = none → Fresh p k a) :
    ∃ scheduler s1 k' free', schedulerBlock s a = some (scheduler, s1) ∧
      k' = (if s.schedulerThread = none then k.add s.freeq.head.isNone scheduler else k) ∧
      Listed p s1.cpu.mem s1.runq s1.freeq k' run free' [scheduler] ∧ Counted s1 k' ∧
      s1.cpu = { s.cpu with mem := s1.cpu.mem } ∧ s1.runq = s.runq ∧
      (∀ x, x ≠ tidAt scheduler → s1.cpu.mem x = s.cpu.mem x) ∧ scheduler ∉ run ∧
      (s.schedulerThread ≠ none → s.schedulerThread = some scheduler) ∧
      (s.schedulerThread = none → scheduler = s.freeq.head.getD a ∧ free' = free.tail) := by
  have listed := core.listed
  cases found : s.schedulerThread with
  | none =>
    have nowhere : elsewhere s = [] := by rw [elsewhere, cur, found]; rfl
    rw [nowhere] at listed
    obtain ⟨t, q, n, chosen, alloc, listed', counted, absent⟩ :=
      th_alloc_spec listed core.counted (fresh found)
    refine ⟨t, _, _, free.tail, by rw [schedulerBlock, found, alloc], rfl, listed', counted, rfl,
      rfl, ?_, ?_, ?_,
      fun _ => ⟨chosen, rfl⟩⟩
    · intro x other
      exact write_other _ _ other
    · simpa using absent
    · intro some_there
      exact absurd rfl some_there
  | some scheduler =>
    have only_it : elsewhere s = [scheduler] := by rw [elsewhere, cur, found]; rfl
    rw [only_it] at listed
    refine ⟨scheduler, s, k, free, by rw [schedulerBlock, found], rfl, listed, core.counted, rfl,
      rfl, fun _ _ => rfl, ?_, fun _ => rfl, ?_⟩
    · intro inside
      exact core.run_not_scheduler found inside rfl
    · intro none_there
      cases none_there

theorem start_core {b : UInt32} (core : Core p s k calls (b :: run) free)
    (caller : s.inCaller = true)
    (stack : ∀ i < 9 + p.rpiThreadStart.size, p.callerStack (word base i))
    (framed : Framed p.rpiThreadStart s.cpu base frame callee)
    (fresh : s.schedulerThread = none → s.freeq.head = none → Fresh p k a) :
    ∃ s' scheduler free', rpiThreadStart p s frame callee a = some s' ∧
      s'.curThread = some b ∧ s'.schedulerThread = some scheduler ∧ s'.inCaller = false ∧
      Arrived p b s'.cpu (calls b) ∧ Kept (b :: run) s.cpu.mem s'.cpu.mem ∧ scheduler ∉ b :: run ∧
      (s.schedulerThread ≠ none → s.schedulerThread = some scheduler) ∧
      (s.schedulerThread = none → scheduler = s.freeq.head.getD a ∧ free' = free.tail) ∧
      Core p s' (if s.schedulerThread = none then k.add s.freeq.head.isNone scheduler else k)
        (Function.update calls b none) run free' := by
  have cur : s.curThread = none := by
    rw [← Option.isNone_iff_eq_none, ← core.caller]
    exact caller
  let s0 : Sys := { s with cpu := enter p.rpiThreadStart frame callee s.cpu }
  have core0 : Core p s0 k calls (b :: run) free := entered_core core cur stack framed
  obtain ⟨scheduler, s1, k', free', block, allocs, listed1, counted, same_cpu, same_runq, kept1, absent,
    found, chosen⟩ := scheduler_block_spec core0 cur fresh
  obtain ⟨q, popped, listed2⟩ := listed1.popped
  let s2 : Sys := { s1 with schedulerThread := some scheduler, curThread := some b, runq := q }
  let mem := (rpiCswitch (savedSpAt scheduler) (s2.cpu.mem (savedSpAt b)) s2.cpu).mem
  have placed := listed2.placed
  have known : scheduler ∈ k'.blocks :=
    listed2.mem_other (List.mem_cons_of_mem b List.mem_cons_self)
  have base_sp : s2.cpu.sp - 36 = base := by
    have sp0 : s0.cpu.sp = word base 9 := framed.enter_sp
    change s1.cpu.sp - 36 = base
    rw [same_cpu]
    change s0.cpu.sp - 36 = base
    rw [sp0, push_sp]
  have words {x : UInt32} (inside : x ∈ k'.blocks) (i : Nat) (low : i < blockWords)
      (other : word x i ≠ savedSpAt scheduler) : mem (word x i) = s1.cpu.mem (word x i) := by
    apply cswitch_other other
    intro n small same
    have own := stack n (by omega)
    rw [base_sp] at same
    rw [← same] at own
    exact placed.outside x inside i low own
  have queue_kept : Kept (b :: run) s0.cpu.mem mem := by
    intro x inside i low _
    have member := listed1.mem_run inside
    have other : x ≠ scheduler := fun same => absent (same ▸ inside)
    have saved_apart : word x i ≠ savedSpAt scheduler :=
      fun same => other (placed.index member known low (by decide) same).1
    have tid_apart : word x i ≠ tidAt scheduler :=
      fun same => other (placed.index member known low (by decide) same).1
    rw [words member i low saved_apart, kept1 _ tid_apart]
  have queued : ∀ x ∈ b :: run, Ready p mem x (calls x) :=
    fun x inside => (core0.ready x inside).congr (queue_kept x inside)
  have listed3 : Listed p mem q s1.freeq k' run free' (elsewhere s2) := by
    apply frame_fields listed2
    intro x inside i field index
    have low : i < blockWords := Nat.lt_of_lt_of_le field (by decide)
    exact words inside i low fun same => index (placed.index inside known low (by decide) same).2
  have way : Way p mem scheduler := by
    apply scheduler_way placed known stack base_sp
    rw [← framed.back]
    change s1.cpu.callee LR_OFFSET = callee LR_OFFSET
    rw [same_cpu]
    rfl
  have head := listed1.mem_run (List.mem_cons_self : b ∈ b :: run)
  have head_other : b ≠ scheduler := fun same => absent (same ▸ List.mem_cons_self)
  have kept : mem (savedSpAt b) = s2.cpu.mem (savedSpAt b) :=
    words head 0 (by decide) fun same =>
      head_other (placed.index head known (by decide) (by decide) same).1
  have nodup := core.listed.runq.holds.nodup
  obtain ⟨s', ran, same, cur', scheduler', caller', woken, core'⟩ :=
    arrive_core rfl listed3 ⟨counted.nalloced, counted.tid⟩ rfl ⟨scheduler, rfl, way⟩
      (queued b List.mem_cons_self) kept (wake_queued nodup queued) (wake_idle core.idle)
  refine ⟨s', scheduler, free', ?_, cur', scheduler', caller', woken, ?_, absent, found, chosen, ?_⟩
  rotate_left
  · intro x inside i low index
    rw [same]
    have member := core.listed.mem_run inside
    exact (queue_kept x inside i low index).trans (enter_outside core.listed.placed stack framed member low)
  · rw [allocs] at core'
    exact core'
  simp only [rpiThreadStart, Q_empty_cons core.listed.runq, Option.bind_eq_bind,
    Option.bind_some, Bool.false_eq_true, if_false]
  refine Option.bind_eq_some_iff.mpr ⟨(scheduler, s1), block, ?_⟩
  rw [popped]
  exact ran

end Start

end EmbeddedOS.Threads
