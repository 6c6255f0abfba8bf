import EmbeddedOS.EquivThreads.Stacks

/-! The fault handler on blocks in memory does what it does on the threads that they hold. -/
namespace EmbeddedOS.EquivThreads
open Arm FullExcept Linked Steps OnBus

variable {P : Type}

/-- The block at this address holds this thread, and the pointer to the next. -/
structure BlockAt (mem : Memory) (a : UInt32) (th : Th) (next : Option UInt32) : Prop where
  regs : ∀ i, mem (regsAt a i) = th.regs.val i
  next : pointer (mem (nextAt a)) = next
  regHash : mem (regHashAt a) = th.regHash
  instCnt : mem (instCntAt a) = th.instCnt

def InMemory (th : UInt32 → Option Th) (next : Links UInt32) (mem : Memory) : Prop :=
  ∀ a block, th a = some block → BlockAt mem a block (next a)

theorem reg_small (i : Fin 17) : i.val < blockWords := Nat.lt_trans i.isLt (by decide)

theorem BlockAt.congr {mem mem' : Memory} {a : UInt32} {th : Th} {next : Option UInt32}
    (block : BlockAt mem a th next) (same : ∀ i < blockWords, mem' (word a i) = mem (word a i)) :
    BlockAt mem' a th next where
  regs i := (same i (reg_small i)).trans (block.regs i)
  next := by
    rw [nextAt, same 17 (by decide)]
    exact block.next
  regHash := (same 19 (by decide)).trans block.regHash
  instCnt := (same 26 (by decide)).trans block.instCnt

theorem word_ne (a : UInt32) {i j : Nat} (small : i < blockWords) (small' : j < blockWords)
    (other : i ≠ j) : word a i ≠ word a j := by
  unfold blockWords at small small'
  exact fun same => other (word_inj (by omega) (by omega) same)

/-- A field keeps its value when another one of the block is written. -/
theorem field_kept (mem : Memory) (a v : UInt32) {i j : Nat} (small : i < blockWords)
    (small' : j < blockWords) (other : j ≠ i) : write mem (word a i) v (word a j) = mem (word a j) :=
  write_other mem v (word_ne a small' small other)

theorem pointer_some {a : UInt32} (other : a ≠ 0) : pointer a = some a := if_neg other

section Fields

variable {mem : Memory} {a : UInt32} {th : Th} {p : Option UInt32}

theorem block_regs (block : BlockAt mem a th p) (r : UserRegs) :
    BlockAt (fill mem a (row r.val)) a { th with regs := r } p := by
  have kept {j : Nat} (small : j < blockWords) (after : 17 ≤ j) :
      fill mem a (row r.val) (word a j) = mem (word a j) := by
    apply row_other
    intro i first
    exact word_ne a small (Nat.lt_trans first (by decide)) (by omega)
  constructor
  · exact row_slot mem a r.val (by decide)
  · rw [nextAt, kept (by decide) (by decide)]
    exact block.next
  · exact (kept (by decide) (by decide)).trans block.regHash
  · exact (kept (by decide) (by decide)).trans block.instCnt

theorem regs_kept (block : BlockAt mem a th p) (v : UInt32) {i : Nat} (small : i < blockWords)
    (after : 17 ≤ i) (j : Fin 17) : write mem (word a i) v (regsAt a j) = th.regs.val j :=
  (field_kept mem a v small (reg_small j) (by omega)).trans (block.regs j)

theorem block_next (block : BlockAt mem a th p) {v : UInt32} {p' : Option UInt32}
    (same : pointer v = p') : BlockAt (write mem (nextAt a) v) a th p' := by
  constructor
  · exact regs_kept block v (by decide) (by decide)
  · rw [write_same]
    exact same
  · exact (field_kept mem a v (by decide) (by decide) (by decide)).trans block.regHash
  · exact (field_kept mem a v (by decide) (by decide) (by decide)).trans block.instCnt

theorem block_inst_cnt (block : BlockAt mem a th p) (v : UInt32) :
    BlockAt (write mem (instCntAt a) v) a { th with instCnt := v } p := by
  constructor
  · exact regs_kept block v (by decide) (by decide)
  · have kept := field_kept mem a v (i := 26) (j := 17) (by decide) (by decide) (by decide)
    rw [nextAt, instCntAt, kept]
    exact block.next
  · exact (field_kept mem a v (by decide) (by decide) (by decide)).trans block.regHash
  · exact write_same mem _ v

theorem block_reg_hash (block : BlockAt mem a th p) (v : UInt32) :
    BlockAt (write mem (regHashAt a) v) a { th with regHash := v } p := by
  constructor
  · exact regs_kept block v (by decide) (by decide)
  · have kept := field_kept mem a v (i := 19) (j := 17) (by decide) (by decide) (by decide)
    rw [nextAt, regHashAt, kept]
    exact block.next
  · exact write_same mem _ v
  · exact (field_kept mem a v (by decide) (by decide) (by decide)).trans block.instCnt

def saveTh (th : Th) (r : UserRegs) : Th :=
  { th with
    regs := r
    instCnt := th.instCnt + 1
    regHash := fastHashInc32 (List.ofFn r.val) th.regHash }

def saveMem (mem : Memory) (a : UInt32) (th : Th) (r : UserRegs) : Memory :=
  write (write (fill mem a (row r.val)) (instCntAt a) (th.instCnt + 1)) (regHashAt a)
    (fastHashInc32 (List.ofFn r.val) th.regHash)

theorem block_saved (block : BlockAt mem a th p) (r : UserRegs) :
    BlockAt (saveMem mem a th r) a (saveTh th r) p :=
  block_reg_hash (block_inst_cnt (block_regs block r) _) _

end Fields

section Blocks

variable {s : Sys P} {mem mem' : Memory} {next : Links UInt32}

theorem blocks_ne (blocks : BlocksApart s) {a b : UInt32} (made : s.th a ≠ none) (made' : s.th b ≠ none)
    (other : a ≠ b) {i j : Nat} (small : i < blockWords) (small' : j < blockWords) :
    word a i ≠ word b j := by
  intro same
  have at_word := word_toNat (blocks.last a made) small
  have at_word' := word_toNat (blocks.last b made') small'
  have apart := blocks.apart a b made made' other
  change a.toNat + 65536 ≤ b.toNat ∨ b.toNat + 65536 ≤ a.toNat at apart
  have equal := congrArg UInt32.toNat same
  unfold blockWords at small small'
  omega

/-- Only the block at this address has changed. -/
def OnlyAt (a : UInt32) (mem mem' : Memory) : Prop :=
  ∀ x, (∀ i < blockWords, x ≠ word a i) → mem' x = mem x

theorem only_write (a v : UInt32) {i : Nat} (small : i < blockWords) :
    OnlyAt a mem (write mem (word a i) v) :=
  fun _ other => write_other mem v (other i small)

theorem only_row (a : UInt32) (r : Regs) : OnlyAt a mem (fill mem a (row r)) :=
  fun x other => row_other mem a r fun i small => other i (Nat.lt_trans small (by decide))

theorem OnlyAt.trans {mem'' : Memory} {a : UInt32} (first : OnlyAt a mem mem')
    (rest : OnlyAt a mem' mem'') : OnlyAt a mem mem'' :=
  fun x other => (rest x other).trans (first x other)

theorem only_saved (a : UInt32) (th : Th) (r : UserRegs) : OnlyAt a mem (saveMem mem a th r) := by
  have saved : OnlyAt a mem (fill mem a (row r.val)) := only_row a r.val
  have counted := saved.trans (only_write a (th.instCnt + 1) (i := 26) (by decide))
  exact counted.trans (only_write a _ (i := 19) (by decide))

theorem changed_in_memory (blocks : BlocksApart s) (held : InMemory s.th next mem) {a : UInt32}
    (made : s.th a ≠ none) (only : OnlyAt a mem mem') {th' : Th} {next' : Option UInt32}
    (block : BlockAt mem' a th' next') :
    InMemory (Function.update s.th a (some th')) (Function.update next a next') mem' := by
  intro b th found
  by_cases same : b = a
  · subst same
    rw [Function.update_self] at found ⊢
    cases found
    exact block
  · rw [Function.update_of_ne same] at found ⊢
    have made' : s.th b ≠ none := by simp [found]
    refine (held b th found).congr fun i small => only _ ?_
    exact fun j small' => blocks_ne blocks made' made same small small'

end Blocks

section Code

variable {s t : Sys P} {mem : Memory} {next : Links UInt32} {a : UInt32} {th : Th}

theorem pop_in_memory {q : Linked.Ends UInt32} {out : Option UInt32 × Linked.Ends UInt32}
    (held : InMemory s.th next mem) (head : ∀ b, q.head = some b → s.th b ≠ none)
    (popped : eqPop next q = some out) : Makes (eqPopMem q) mem out mem := by
  unfold eqPop at popped
  split_ifs at popped with bad
  cases popped
  unfold eqPopMem pop
  cases first : q.head with
  | none =>
    have empty : q.tail = none := by
      by_contra more
      exact bad ⟨first, more⟩
    simp only [empty]
    exact makes_pure mem _
  | some e =>
    obtain ⟨th, block⟩ := Option.ne_none_iff_exists'.mp (head e first)
    have linked := (held e th block).next
    refine makes_bind (makes_load mem _) ?_
    simp only [linked, Option.isNone_iff_eq_none]
    exact makes_pure mem _

theorem link_in_memory (blocks : BlocksApart s) (held : InMemory s.th next mem) (made : s.th a ≠ none)
    {v : UInt32} {p : Option UInt32} (same : pointer v = p) :
    InMemory s.th (Function.update next a p) (write mem (nextAt a) v) := by
  obtain ⟨th, found⟩ := Option.ne_none_iff_exists'.mp made
  have block := held a th found
  have kept : Function.update s.th a (some th) = s.th := by
    rw [← found]
    exact Function.update_eq_self a s.th
  have only : OnlyAt a mem (write mem (nextAt a) v) := only_write a v (by decide)
  rw [← kept]
  apply changed_in_memory blocks held made only
  exact block_next block same

theorem append_in_memory {q : Linked.Ends UInt32} (blocks : BlocksApart s) (held : InMemory s.th next mem)
    (made : s.th a ≠ none) (tail : ∀ b, q.tail = some b → s.th b ≠ none) (low : a ≠ 0) :
    ∃ mem', Makes (eqAppendMem q a) mem (append next q a).2 mem' ∧
      InMemory s.th (append next q a).1 mem' := by
  have ended := link_in_memory blocks held made (v := 0) rfl
  unfold eqAppendMem append
  cases last : q.tail with
  | none => exact ⟨_, makes_bind (makes_store mem _ _) (makes_pure _ _), ended⟩
  | some e =>
    have linked := link_in_memory blocks ended (tail e last) (pointer_some low)
    exact ⟨_, makes_bind (makes_store mem _ _) (makes_bind (makes_store _ _ _) (makes_pure _ _)), linked⟩

theorem run_in_memory {p : Option UInt32} (block : BlockAt mem a th p) :
    Makes (mismatchRunMem a) mem (List.ofFn th.regs.val) mem :=
  makes_bind (makes_load mem _) (makes_bind (makes_load mem _) (makes_loadWords_of block.regs))

theorem ifSet_in_memory (flag : UInt32) {x : OnBus Unit} (rest : Makes x mem () mem) :
    Makes (ifSet flag x) mem () mem := by
  unfold ifSet
  split_ifs
  · exact makes_pure mem _
  · exact rest

theorem switch_in_memory (cur th : UInt32) : Makes (outputSwitch cur th) mem () mem :=
  makes_bind (makes_load mem _) (makes_bind (makes_load mem _) (makes_bind (makes_load mem _)
    (makes_bind (makes_load mem _) (makes_bind (makes_load mem _) (makes_pure mem _)))))

theorem hash_in_memory (th : UInt32) : Makes (outputHash th) mem () mem :=
  makes_bind (makes_load mem _) (makes_bind (makes_load mem _) (makes_bind (makes_load mem _)
    (makes_pure mem _)))

/-- The code on the blocks goes on with the same thread and registers, and leaves the same queue. -/
def SameSwitch (x : OnBus (Linked.Ends UInt32 × UInt32 × List UInt32)) (mem : Memory) (t : Sys P) : Prop :=
  ∃ b r mem', t.curThread = some b ∧ t.user = some r ∧
    Makes x mem (t.equivRunq, b, List.ofFn r.val) mem' ∧ InMemory t.th t.next mem'

/-- The threads at the ends of the queue have been made. -/
structure EndsMade (s : Sys P) : Prop where
  head : ∀ b, s.equivRunq.head = some b → s.th b ≠ none
  tail : ∀ b, s.equivRunq.tail = some b → s.th b ≠ none

theorem schedule_in_memory (blocks : BlocksApart s) (held : InMemory s.th s.next mem)
    (cur : s.curThread = some a) (made : s.th a ≠ none) (low : a ≠ 0) (queue : EndsMade s)
    (ran : equivSchedule s = some t) : SameSwitch (equivScheduleMem s.equivRunq a) mem t := by
  rw [equivSchedule, cur, Option.bind_some] at ran
  obtain ⟨⟨e, runq⟩, popped, ran⟩ := Option.bind_eq_some_iff.mp ran
  have pops := pop_in_memory held queue.head popped
  have last : runq.tail = none ∨ runq.tail = s.equivRunq.tail := by
    obtain ⟨_, done, _⟩ := pops ⟨mem, []⟩ rfl
    exact (pop_returns _ _ _ done).2
  cases e with
  | none =>
    obtain ⟨th, going, same, _, links, left⟩ := resume_some ran
    have block := held a th (same ▸ going.block)
    refine ⟨a, th.regs, mem, going.cur, going.user, ?_, ?_⟩
    · rw [left]
      exact makes_bind pops (makes_bind (run_in_memory block) (makes_pure mem _))
    · rw [same, links]
      exact held
  | some b =>
    obtain ⟨th, going, same, _, links, left⟩ := resume_some ran
    have tail : ∀ c, runq.tail = some c → s.th c ≠ none := by
      intro c here
      obtain empty | kept := last
      · cases here.symm.trans empty
      · exact queue.tail c (kept.symm.trans here)
    obtain ⟨mem', appends, held'⟩ := append_in_memory (q := runq) blocks held made tail low
    have block := held' b th (same ▸ going.block)
    refine ⟨b, th.regs, mem', going.cur, going.user, ?_, ?_⟩
    · rw [left]
      refine makes_bind pops (makes_bind (makes_load mem _) ?_)
      refine makes_bind (ifSet_in_memory _ (switch_in_memory a b)) ?_
      exact makes_bind appends (makes_bind (run_in_memory block) (makes_pure mem' _))
    · rw [same, links]
      exact held'

theorem saves_in_memory {p : Option UInt32} {q : Linked.Ends UInt32} {r : UserRegs}
    {out : Linked.Ends UInt32 × UInt32 × List UInt32} {mem' : Memory} (block : BlockAt mem a th p)
    (switches : Makes (equivScheduleMem q a) (saveMem mem a th r) out mem') :
    Makes (equivHashHandlerMem q a r.val) mem out mem' := by
  have saved := block_regs block r
  have counted := block_inst_cnt saved (th.instCnt + 1)
  refine makes_bind (makes_storeRow mem a r.val) ?_
  refine makes_bind (makes_load_of saved.instCnt) (makes_bind (makes_store _ _ _) ?_)
  refine makes_bind (makes_load_of counted.regHash) ?_
  refine makes_bind (makes_loadWords_of counted.regs) (makes_bind (makes_store _ _ _) ?_)
  exact makes_bind (makes_load _ _) (makes_bind (ifSet_in_memory _ (hash_in_memory a)) switches)

/-- The fault handler saves the registers, counts the instruction and hashes it in the block of the
current thread, and then switches as the one on the threads does. -/
theorem handler_in_memory (blocks : BlocksApart s) (held : InMemory s.th s.next mem)
    (cur : s.curThread = some a) (low : ∀ b, s.th b ≠ none → b ≠ 0) (queue : EndsMade s)
    {r : UserRegs} (ran : equivHashHandler s r = some t) :
    SameSwitch (equivHashHandlerMem s.equivRunq a r.val) mem t := by
  simp only [equivHashHandler, Option.bind_eq_bind, Option.bind_eq_some_iff] at ran
  obtain ⟨_, here, th, found, ran⟩ := ran
  cases cur.symm.trans here
  have made : s.th a ≠ none := by simp [found]
  have saved := block_saved (held a th found) r
  have held' : InMemory (Function.update s.th a (some (saveTh th r))) s.next (saveMem mem a th r) := by
    have changed := changed_in_memory blocks held made (only_saved a th r) saved
    rw [Function.update_eq_self] at changed
    exact changed
  let s' : Sys P := { s with th := Function.update s.th a (some (saveTh th r)) }
  have changed : Changed s s' := Or.inr ⟨a, th, saveTh th r, found, rfl, rfl, rfl⟩
  have made_iff (b : UInt32) : s'.th b ≠ none ↔ s.th b ≠ none := changed_made changed
  have blocks' : BlocksApart s' :=
    ⟨fun b there => blocks.last b ((made_iff b).mp there), fun b c there there' =>
      blocks.apart b c ((made_iff b).mp there) ((made_iff c).mp there')⟩
  have queue' : EndsMade s' :=
    ⟨fun b here => (made_iff b).mpr (queue.head b here),
      fun b here => (made_iff b).mpr (queue.tail b here)⟩
  obtain ⟨b, r', mem', cur', user, switches, left⟩ :=
    schedule_in_memory blocks' held' cur ((made_iff a).mpr made) (low a made) queue' ran
  exact ⟨b, r', mem', cur', user, saves_in_memory (held a th found) switches, left⟩

end Code

section Run

variable {p : Program P} {priv : UInt32 → P} {ops : List Op} {w : Turns P}

theorem run_low (allocates : Along (take p) Allocates (powerOn priv) ops)
    (ran : exec (take p) (powerOn priv) ops = some w) : ∀ a, w.sys.th a ≠ none → heapStart ≤ a := by
  have kept : ∀ (w : Turns P) op w', (∀ a, w.sys.th a ≠ none → heapStart ≤ a) →
      Allocates w op → take p w op = some w' → ∀ a, w'.sys.th a ≠ none → heapStart ≤ a := by
    intro w op w' low here took a made
    obtain ⟨t, ran, rfl⟩ := Option.map_eq_some_iff.mp took
    obtain before | now := operate_made ran made
    · exact low a before
    · exact (here a now).start
  exact exec_along kept (fun a made => absurd rfl made) allocates ran

theorem ends_made {m : Rota UInt32} (rotates : Rotates w m) : EndsMade w.sys := by
  have queued : ∀ b ∈ m.queue, w.sys.th b ≠ none :=
    fun b inside => rotates.blocks b (List.mem_append_left _ inside)
  constructor
  · intro b first
    apply queued
    have chain := rotates.queue.chain
    rw [first] at chain
    cases l : m.queue with
    | nil =>
      rw [l] at chain
      cases chain
    | cons c rest =>
      rw [l] at chain
      cases chain.1
      exact List.mem_cons_self
  · intro b last
    exact queued b (List.mem_of_getLast? (rotates.queue.last.symm.trans last))

/-- In every run a mismatch fault is handled on the blocks in memory as on the threads. -/
theorem fault_in_memory (allocates : Along (take p) Allocates (powerOn priv) ops)
    (exited : Along (take p) Exited (powerOn priv) ops)
    (ran : exec (take p) (powerOn priv) ops = some w) {mem : Memory}
    (held : InMemory w.sys.th w.sys.next mem) {a : UInt32} (cur : w.sys.curThread = some a)
    {priv' : UInt32 → P} {r : UserRegs} {t : Sys P}
    (faults : mismatchFault p { w.sys with priv := priv' } r = some t) :
    SameSwitch (equivHashHandlerMem w.sys.equivRunq a r.val) mem t := by
  have blocks := run_blocks allocates ran
  obtain ⟨m, rotates⟩ := run_rotates exited ran
  have queue := ends_made rotates
  have low : ∀ b, w.sys.th b ≠ none → b ≠ 0 := by
    rintro b made rfl
    exact absurd (run_low allocates ran 0 made) (by decide)
  unfold mismatchFault at faults
  split_ifs at faults
  exact handler_in_memory (s := { w.sys with priv := priv' }) ⟨blocks.last, blocks.apart⟩ held cur low
    ⟨queue.head, queue.tail⟩ faults

end Run

end EmbeddedOS.EquivThreads
