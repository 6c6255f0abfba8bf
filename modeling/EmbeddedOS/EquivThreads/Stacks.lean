import EmbeddedOS.EquivThreads.Handler
import EmbeddedOS.EquivThreads.Rotation

/-! The stacks of the threads of equiv-threads.c and the blocks that they share memory with. -/
namespace EmbeddedOS.EquivThreads
open Arm Linked Steps

variable {P : Type}

/-- A word that is pushed while the stack pointer goes down from the end of the stack. -/
structure Pushed (th : Th) (sp w : UInt32) : Prop where
  above : sp ≤ w
  below : w < th.stackEnd
  whole : (th.stackEnd - w) % 4 = 0

/-- The fault handler accesses this word, with some of the threads on the queue. -/
def HandlerWord (s : Sys P) (w : UInt32) : Prop :=
  ∃ q cur r mem, s.th cur ≠ none ∧ (∀ b, q.head = some b → s.th b ≠ none) ∧
    (∀ b, q.tail = some b → s.th b ≠ none) ∧
    w ∈ (equivHashHandlerMem q cur r ⟨mem, []⟩).1.accessed

/-- What is pushed down to the stack pointer stays in the region of the stack, and is no field of
a thread that the fault handler reads or writes. -/
structure StackApart (s : Sys P) (th : Th) (sp : UInt32) : Prop where
  region : ∀ w, Pushed th sp w → th.stackStart ≤ w ∧ w.toNat + 4 ≤ th.stackEnd.toNat
  fields : ∀ w, Pushed th sp w → ¬ HandlerWord s w

def heapStart : UInt32 := 1024 * 1024
def heapEnd : UInt32 := 65 * 1024 * 1024

/-- `kmalloc_aligned` returns memory of the heap that is in no other block. -/
structure NewBlock (s : Sys P) (a : UInt32) : Prop where
  start : heapStart ≤ a
  last : a.toNat + stackSize.toNat ≤ heapEnd.toNat
  apart : ∀ b, s.th b ≠ none →
    a.toNat + stackSize.toNat ≤ b.toNat ∨ b.toNat + stackSize.toNat ≤ a.toNat

def Allocates (w : Turns P) (op : Op) : Prop := ∀ a, op.forks = some a → NewBlock w.sys a

/-- All the blocks are in the heap, and no two overlap. -/
structure BlocksApart (s : Sys P) : Prop where
  last : ∀ a, s.th a ≠ none → a.toNat + stackSize.toNat ≤ heapEnd.toNat
  apart : ∀ a b, s.th a ≠ none → s.th b ≠ none → a ≠ b →
    a.toNat + stackSize.toNat ≤ b.toNat ∨ b.toNat + stackSize.toNat ≤ a.toNat

structure SameStack (th th' : Th) : Prop where
  start : th'.stackStart = th.stackStart
  last : th'.stackEnd = th.stackEnd

section Steps

variable {p : Program P} {s t : Sys P}

theorem schedule_th (ran : equivSchedule s = some t) : t.th = s.th := by
  obtain ⟨cur, _, ran⟩ := Option.bind_eq_some_iff.mp ran
  obtain ⟨⟨e, runq⟩, _, ran⟩ := Option.bind_eq_some_iff.mp ran
  cases e with
  | none =>
    obtain ⟨_, _, blocks, _⟩ := resume_some ran
    exact blocks
  | some th =>
    obtain ⟨_, _, blocks, _⟩ := resume_some ran
    exact blocks

theorem exit_th (ran : equivExit s = some t) : t.th = s.th := by
  obtain ⟨⟨e, runq⟩, _, ran⟩ := Option.bind_eq_some_iff.mp ran
  cases e with
  | none =>
    simp only at ran
    split_ifs at ran
    cases ran
    rfl
  | some th =>
    obtain ⟨_, _, blocks, _⟩ := resume_some ran
    exact blocks

theorem run_th (ran : equivRun s = some t) : t.th = s.th := by
  simp only [equivRun, Option.bind_eq_bind, Option.bind_eq_some_iff] at ran
  obtain ⟨_, _, a, _, _, _, ran⟩ := ran
  obtain ⟨_, _, blocks, _⟩ := resume_some ran
  exact blocks

/-- The blocks after a step: the same, or with one changed where its stack is not. -/
def Changed (s t : Sys P) : Prop :=
  t.th = s.th ∨ ∃ a th th', s.th a = some th ∧ t.th = Function.update s.th a (some th') ∧
    SameStack th th'

theorem syscall_changed {r : UserRegs} (ran : equivSyscallHandler s r = some t) : Changed s t := by
  simp only [equivSyscallHandler, Option.bind_eq_bind, Option.bind_eq_some_iff] at ran
  obtain ⟨cur, _, th, block, _, _, ran⟩ := ran
  split_ifs at ran
  · exact Or.inr ⟨cur, th, _, block, schedule_th ran, rfl, rfl⟩
  · obtain ⟨th', checked, ran⟩ := Option.bind_eq_some_iff.mp ran
    refine Or.inr ⟨cur, th, th', block, exit_th ran, ?_⟩
    unfold checkHash at checked
    split_ifs at checked <;>
    · cases checked
      exact ⟨rfl, rfl⟩

theorem hash_changed {r : UserRegs} (ran : equivHashHandler s r = some t) : Changed s t := by
  simp only [equivHashHandler, Option.bind_eq_bind, Option.bind_eq_some_iff] at ran
  obtain ⟨cur, _, th, block, ran⟩ := ran
  exact Or.inr ⟨cur, th, _, block, schedule_th ran, rfl, rfl⟩

theorem instruction_changed (ran : instruction p s = some t) : Changed s t := by
  simp only [instruction, Option.bind_eq_bind, Option.bind_eq_some_iff] at ran
  obtain ⟨cur, _, r, _, ran⟩ := ran
  cases made : p.inst cur r (s.priv cur) with
  | next r' priv =>
    simp only [made] at ran
    split_ifs at ran
    · cases ran
      exact Or.inl rfl
    · unfold mismatchFault at ran
      split_ifs at ran
      have changed := hash_changed ran
      exact changed
  | swi r' priv =>
    simp only [made] at ran
    have changed := syscall_changed ran
    exact changed
  | fault =>
    simp only [made] at ran
    cases ran

theorem refresh_changed {a cpsr : UInt32} (ran : equivRefresh p s a cpsr = some t) : Changed s t := by
  simp only [equivRefresh, Option.bind_eq_bind, Option.bind_eq_some_iff] at ran
  obtain ⟨th, block, _, _, done⟩ := ran
  cases done
  exact Or.inr ⟨a, th, _, block, rfl, rfl, rfl⟩

theorem operate_th {op : Op} (ran : operate p s op = some t) :
    Changed s t ∨ ∃ a th, s.th a = none ∧ op.forks = some a ∧
      t.th = Function.update s.th a (some th) := by
  cases op with
  | fork a =>
    obtain ⟨first, th, rfl⟩ := forks_some rfl ran
    exact Or.inr ⟨a, th, first, rfl, rfl⟩
  | forkNostack a =>
    obtain ⟨first, th, rfl⟩ := forks_some rfl ran
    exact Or.inr ⟨a, th, first, rfl, rfl⟩
  | refresh a cpsr => exact Or.inl (refresh_changed ran)
  | run =>
    simp only [operate] at ran
    split_ifs at ran
    exact Or.inl (Or.inl (run_th ran))
  | inst => exact Or.inl (instruction_changed ran)

theorem changed_made {b : UInt32} (changed : Changed s t) : t.th b ≠ none ↔ s.th b ≠ none := by
  obtain same | ⟨a, th, th', block, update, _⟩ := changed
  · rw [same]
  · rw [update, Function.update_apply]
    split_ifs with same
    · simp [same, block]
    · rfl

theorem operate_made {op : Op} {b : UInt32} (ran : operate p s op = some t) (made : t.th b ≠ none) :
    s.th b ≠ none ∨ op.forks = some b := by
  obtain changed | ⟨a, th, _, forks, update⟩ := operate_th ran
  · exact Or.inl ((changed_made changed).mp made)
  · rw [update, Function.update_apply] at made
    split_ifs at made with same
    · exact Or.inr (same ▸ forks)
    · exact Or.inl made

theorem blocks_step {w w' : Turns P} {op : Op} (blocks : BlocksApart w.sys)
    (allocates : Allocates w op) (took : take p w op = some w') : BlocksApart w'.sys := by
  obtain ⟨t, ran, rfl⟩ := Option.map_eq_some_iff.mp took
  constructor
  · intro a made
    obtain before | now := operate_made ran made
    · exact blocks.last a before
    · exact (allocates a now).last
  · intro a b made made' other
    obtain before | now := operate_made ran made
    · obtain before' | now' := operate_made ran made'
      · exact blocks.apart a b before before' other
      · exact ((allocates b now').apart a before).symm
    · obtain before' | now' := operate_made ran made'
      · exact (allocates a now).apart b before'
      · exact absurd (Option.some.inj (now.symm.trans now')) other

/-- The thread has the stack that equiv_fork gives it. -/
def OwnStack (s : Sys P) (a : UInt32) : Prop :=
  ∃ th, s.th a = some th ∧ th.stackStart = a ∧ th.stackEnd = a + stackSize

theorem fork_stack {a fn arg expectedHash cpsr : UInt32}
    (ran : equivFork p s a fn arg expectedHash cpsr = some t) : OwnStack t a := by
  simp only [equivFork, Option.bind_eq_bind, Option.bind_eq_some_iff] at ran
  obtain ⟨_, _, _, _, _, _, done⟩ := ran
  cases done
  exact ⟨_, Function.update_self .., rfl, rfl⟩

theorem stack_step {w w' : Turns P} {op : Op} {a : UInt32} (own : OwnStack w.sys a)
    (took : take p w op = some w') : OwnStack w'.sys a := by
  obtain ⟨t, ran, rfl⟩ := Option.map_eq_some_iff.mp took
  obtain ⟨th, block, start, last⟩ := own
  change ∃ th, t.th a = some th ∧ _
  obtain (same | ⟨b, th0, th', found, update, kept⟩) | ⟨b, th', first, _, update⟩ := operate_th ran
  · exact ⟨th, same ▸ block, start, last⟩
  · by_cases here : a = b
    · subst here
      cases block.symm.trans found
      exact ⟨th', by rw [update, Function.update_self], kept.start.trans start, kept.last.trans last⟩
    · exact ⟨th, by rw [update, Function.update_of_ne here, block], start, last⟩
  · have other : a ≠ b := by
      intro here
      rw [here, first] at block
      cases block
    exact ⟨th, by rw [update, Function.update_of_ne other, block], start, last⟩

end Steps

section Placement

variable {p : Program P}

theorem run_blocks {priv : UInt32 → P} {ops : List Op} {w : Turns P}
    (allocates : Along (take p) Allocates (powerOn priv) ops)
    (ran : exec (take p) (powerOn priv) ops = some w) : BlocksApart w.sys := by
  have initial : BlocksApart (powerOn priv).sys :=
    ⟨fun a made => absurd rfl made, fun a b made => absurd rfl made⟩
  have kept : ∀ (w : Turns P) op w', BlocksApart w.sys → Allocates w op → take p w op = some w' →
      BlocksApart w'.sys := fun w op w' blocks here took => blocks_step blocks here took
  exact exec_along kept initial allocates ran

theorem run_stack {start w : Turns P} {ops : List Op} {a fn arg expectedHash cpsr : UInt32}
    (ran : exec (take p) start ops = some w)
    (forked : Op.fork a fn arg expectedHash cpsr ∈ ops) : OwnStack w.sys a := by
  obtain ⟨first, rest, rfl⟩ := List.append_of_mem forked
  obtain ⟨before, _, ran⟩ := exec_split ran
  obtain ⟨after, took, ran⟩ := Option.bind_eq_some_iff.mp ran
  obtain ⟨t, forks, rfl⟩ := Option.map_eq_some_iff.mp took
  simp only [operate] at forks
  split_ifs at forks
  have kept : ∀ (w : Turns P) op w', OwnStack w.sys a → take p w op = some w' → OwnStack w'.sys a :=
    fun w op w' own took => stack_step own took
  exact exec_invariant kept (fork_stack forks) ran

theorem check_sp_some {th : Th} (accepted : checkSp th = some ()) :
    th.stackStart ≤ th.regs.val 13 ∧ th.regs.val 13 ≤ th.stackEnd := by
  unfold checkSp at accepted
  split_ifs at accepted with low high
  exact ⟨UInt32.not_lt.mp low, UInt32.not_lt.mp high⟩

theorem word_toNat {a : UInt32} {i : Nat} (last : a.toNat + stackSize.toNat ≤ heapEnd.toNat)
    (small : i < blockWords) : (word a i).toNat = a.toNat + 4 * i := by
  change a.toNat + 65536 ≤ 68157440 at last
  unfold blockWords at small
  rw [word, UInt32.toNat_add, UInt32.toNat_mul, UInt32.toNat_ofNat']
  change (a.toNat + 4 * (i % 2 ^ 32) % 2 ^ 32) % 2 ^ 32 = _
  omega

theorem whole_iff {x y : UInt32} (le : y.toNat ≤ x.toNat) :
    (x - y) % 4 = 0 ↔ (x.toNat - y.toNat) % 4 = 0 := by
  rw [← UInt32.toNat_inj, UInt32.toNat_mod, UInt32.toNat_sub_of_le _ _ (UInt32.le_iff_toNat_le.mpr le)]
  rfl

/-- The words that a thread pushes are none that the fault handler accesses exactly when its stack
pointer stays above the last field of its block. -/
theorem stack_apart_iff {priv : UInt32 → P} {ops : List Op} {w : Turns P}
    (allocates : Along (take p) Allocates (powerOn priv) ops)
    (ran : exec (take p) (powerOn priv) ops = some w) {a fn arg expectedHash cpsr : UInt32}
    (forked : Op.fork a fn arg expectedHash cpsr ∈ ops) {th : Th} (block : w.sys.th a = some th)
    {r : UserRegs} (accepted : checkSp { th with regs := r } = some ()) :
    StackApart w.sys th (r.val 13) ↔ verbosePAt a < r.val 13 := by
  have blocks := run_blocks allocates ran
  obtain ⟨th', block', start, last⟩ := run_stack ran forked
  cases block.symm.trans block'
  obtain ⟨low, high⟩ := check_sp_some accepted
  have made : w.sys.th a ≠ none := by simp [block]
  have fits := blocks.last a made
  have ends : th.stackEnd.toNat = a.toNat + 65536 := by
    change a.toNat + 65536 ≤ 68157440 at fits
    rw [last, UInt32.toNat_add]
    change (a.toNat + 65536) % 2 ^ 32 = _
    omega
  have flag : (verbosePAt a).toNat = a.toNat + 4 * 27 := word_toNat fits (by decide)
  rw [UInt32.le_iff_toNat_le] at low high
  change th.stackStart.toNat ≤ (r.val 13).toNat at low
  rw [start] at low
  constructor
  · intro apart
    by_contra under
    rw [UInt32.not_lt, UInt32.le_iff_toNat_le] at under
    have pushed : Pushed th (r.val 13) (verbosePAt a) := by
      constructor
      · exact UInt32.le_iff_toNat_le.mpr under
      · rw [UInt32.lt_iff_toNat_lt, flag, ends]
        omega
      · rw [whole_iff (by omega), flag, ends]
        omega
    refine apart.fields _ pushed ⟨Ends.empty, a, r, fun _ => 0, made, ?_, ?_, ?_⟩
    · intro b none_there
      cases none_there
    · intro b none_there
      cases none_there
    · exact handler_accesses _ _ _ _
  · intro above
    rw [UInt32.lt_iff_toNat_lt, flag] at above
    constructor
    · rintro x ⟨up, down, whole⟩
      rw [UInt32.lt_iff_toNat_lt] at down
      rw [whole_iff (Nat.le_of_lt down)] at whole
      rw [UInt32.le_iff_toNat_le] at up
      refine ⟨?_, by omega⟩
      rw [start, UInt32.le_iff_toNat_le]
      omega
    · rintro x ⟨up, down, _⟩ ⟨q, cur, r', mem, known, head, tail, inside⟩
      rw [UInt32.lt_iff_toNat_lt] at down
      rw [UInt32.le_iff_toNat_le] at up
      obtain ⟨l, accessed, allowed⟩ := within_handler known head tail r' ⟨mem, []⟩
      rw [accessed, List.nil_append] at inside
      obtain ⟨b, there, i, small, rfl⟩ := allowed x inside
      have at_word := word_toNat (blocks.last b there) small
      have index : i < 28 := small
      by_cases same : a = b
      · subst same
        omega
      · have apart := blocks.apart a b made there same
        change a.toNat + 65536 ≤ b.toNat ∨ b.toNat + 65536 ≤ a.toNat at apart
        omega

end Placement

def oneFork : List Op := [.fork 0x100000 0x8000 0 0 0x13]

theorem inherit_nothing : Arm.modeBits (cpsrInherit FullExcept.USER_MODE 0) = Arm.USER := inherit_user 0

def regsWith (sp : UInt32) : UserRegs :=
  ⟨fun i => if i = 13 then sp else if i = 16 then cpsrInherit FullExcept.USER_MODE 0 else 0,
    inherit_nothing⟩

theorem one_fork_runs : ∃ w th, exec (take stepAndExit) (powerOn fun _ => ()) oneFork = some w ∧
    w.sys.th 0x100000 = some th ∧ th.stackStart = 0x100000 ∧ th.stackEnd = 0x110000 := by
  have ranges : (exec (take stepAndExit) (powerOn fun _ => ()) oneFork).bind
      (fun w => (w.sys.th 0x100000).map fun th => (th.stackStart, th.stackEnd)) =
      some (0x100000, 0x110000) := by decide +kernel
  obtain ⟨w, ran, found⟩ := Option.bind_eq_some_iff.mp ranges
  obtain ⟨th, block, same⟩ := Option.map_eq_some_iff.mp found
  exact ⟨w, th, ran, block, congrArg Prod.fst same, congrArg Prod.snd same⟩

theorem one_fork_allocates : Along (take stepAndExit) Allocates (powerOn fun _ => ()) oneFork := by
  refine ⟨?_, fun _ _ => trivial⟩
  intro a forks
  cases forks
  exact ⟨by decide, by decide, fun b made => absurd rfl made⟩

theorem high_stack_is_apart : ∃ w th,
    exec (take stepAndExit) (powerOn fun _ => ()) oneFork = some w ∧
      w.sys.th 0x100000 = some th ∧ StackApart w.sys th 0x10ff00 := by
  obtain ⟨w, th, ran, block, start, last⟩ := one_fork_runs
  have accepted : checkSp { th with regs := regsWith 0x10ff00 } = some () := by
    simp only [checkSp, start, last]
    decide
  refine ⟨w, th, ran, block, ?_⟩
  exact (stack_apart_iff one_fork_allocates ran (List.mem_singleton_self _) block accepted).mpr
    (by decide)

theorem low_stack_overlaps : ¬ ∀ (p : Program Unit) (priv : UInt32 → Unit) (ops : List Op)
    (w : Turns Unit), Along (take p) Allocates (powerOn priv) ops →
    exec (take p) (powerOn priv) ops = some w → ∀ a fn arg expectedHash cpsr,
    Op.fork a fn arg expectedHash cpsr ∈ ops → ∀ th, w.sys.th a = some th → ∀ r : UserRegs,
    checkSp { th with regs := r } = some () → StackApart w.sys th (r.val 13) := by
  intro all
  obtain ⟨w, th, ran, block, start, last⟩ := one_fork_runs
  have accepted : checkSp { th with regs := regsWith 0x100000 } = some () := by
    simp only [checkSp, start, last]
    decide
  have apart := all _ _ _ w one_fork_allocates ran _ _ _ _ _ (List.mem_singleton_self _) th block
    (regsWith 0x100000) accepted
  have pushed : Pushed th ((regsWith 0x100000).val 13) (verbosePAt 0x100000) := by
    refine ⟨by decide, ?_, ?_⟩
    · rw [last]
      decide
    · rw [last]
      decide
  refine apart.fields _ pushed ⟨Ends.empty, 0x100000, fun _ => 0, fun _ => 0, ?_, ?_, ?_, ?_⟩
  · simp [block]
  · intro b none_there
    cases none_there
  · intro b none_there
    cases none_there
  · exact handler_accesses _ _ _ _

end EmbeddedOS.EquivThreads
