import EmbeddedOS.EquivThreads.Threads
import Mathlib.Logic.Relation

/-! What one instruction of a thread comes to, whatever else is queued, and the solo run of a
block: the same system with that block alone. -/
namespace EmbeddedOS.EquivThreads
open Arm FullExcept Linked Relation

variable {P : Type}

/-- The thread that is about to exit, with its hash and its count. -/
def exiting (p : Program P) (s : Sys P) : Option (UInt32 × UInt32 × UInt32) := do
  let cur ← s.curThread
  let r ← s.user
  let th ← s.th cur
  match p.inst cur r (s.priv cur) with
  | .swi r _ => if r.val 0 = EQUIV_EXIT then some (cur, th.regHash, th.instCnt) else none
  | _ => none

/-- What an instruction does to the thread itself: it goes on, or its block is saved and another
thread may run, or it is done. -/
inductive Effect (P : Type) where
  | quiet (r : UserRegs) (priv : P)
  | yield (th : Th) (priv : P) (output : List UInt8)
  | exit (th : Th) (priv : P)

def effect (p : Program P) (a : UInt32) (th : Th) (r : UserRegs) (priv : P) (bvr0 : UInt32) :
    Option (Effect P) :=
  match p.inst a r priv with
  | .next r priv =>
    if r.val 15 = bvr0 then some (.quiet r priv)
    else if r.val 15 = p.ssOnExit then none
    else
      let hash := fastHashInc32 (List.ofFn r.val) th.regHash
      some (.yield { th with regs := r, instCnt := th.instCnt + 1, regHash := hash } priv [])
  | .swi r priv =>
    (checkSp { th with regs := r }).bind fun _ =>
    if r.val 0 = EQUIV_PUTC then some (.yield { th with regs := r } priv [(r.val 1).toUInt8])
    else if r.val 0 = EQUIV_EXIT then (checkHash { th with regs := r }).map fun th => .exit th priv
    else none
  | .fault => none

/-- What is left to the system once the effect on the running thread is known. -/
def commit (s : Sys P) (a : UInt32) : Effect P → Option (Sys P)
  | .quiet r priv => some { s with priv := Function.update s.priv a priv, user := some r }
  | .yield th priv output =>
    equivSchedule { s with
      priv := Function.update s.priv a priv
      th := Function.update s.th a (some th)
      output := s.output ++ output }
  | .exit th priv =>
    equivExit { s with
      priv := Function.update s.priv a priv
      th := Function.update s.th a (some th) }

theorem instruction_eq {p : Program P} {s : Sys P} {a : UInt32} {r : UserRegs} {th : Th}
    (cur : s.curThread = some a) (user : s.user = some r) (block : s.th a = some th) :
    instruction p s = (effect p a th r (s.priv a) s.bvr0).bind (commit s a) := by
  cases s
  cases cur
  cases user
  simp only at block
  simp only [instruction, effect, Option.bind_eq_bind, Option.bind_some]
  cases p.inst a r _ with
  | next r' priv =>
    simp only [mismatchFault, equivHashHandler, Option.bind_eq_bind, Option.bind_some, block]
    split_ifs <;> simp [commit]
  | swi r' priv =>
    simp only [equivSyscallHandler, block, Option.bind_eq_bind, Option.bind_some]
    cases checkSp { th with regs := r' } with
    | none => rfl
    | some _ =>
      simp only [Option.bind_some]
      split_ifs
      · rfl
      · cases checkHash { th with regs := r' } <;> rfl
      · rfl
  | fault => rfl

theorem exiting_of_exit {p : Program P} {s : Sys P} {a : UInt32} {r : UserRegs} {th th' : Th} {priv : P}
    (cur : s.curThread = some a) (user : s.user = some r) (block : s.th a = some th)
    (exits : effect p a th r (s.priv a) s.bvr0 = some (.exit th' priv)) :
    exiting p s = some (a, th.regHash, th.instCnt) := by
  simp only [exiting, cur, user, block, Option.bind_eq_bind, Option.bind_some]
  unfold effect at exits
  cases made : p.inst a r (s.priv a) with
  | next r' priv' =>
    simp only [made] at exits
    split_ifs at exits <;> cases exits
  | swi r' priv' =>
    simp only [made] at exits
    obtain ⟨_, _, exits⟩ := Option.bind_eq_some_iff.mp exits
    split_ifs at exits with putc code
    · cases exits
    · exact if_pos code
  | fault =>
    simp only [made] at exits
    cases exits

theorem exiting_inst {p : Program P} {s : Sys P} {a b hash count : UInt32} {r : UserRegs} {th : Th}
    (cur : s.curThread = some a) (user : s.user = some r) (block : s.th a = some th)
    (exits : exiting p s = some (b, hash, count)) :
    b = a ∧ hash = th.regHash ∧ count = th.instCnt ∧
      ∃ r' priv, p.inst a r (s.priv a) = .swi r' priv ∧ r'.val 0 = EQUIV_EXIT := by
  simp only [exiting, cur, user, block, Option.bind_eq_bind, Option.bind_some] at exits
  cases made : p.inst a r (s.priv a) with
  | next r' priv => simp [made] at exits
  | swi r' priv =>
    simp only [made] at exits
    split_ifs at exits with code
    cases exits
    exact ⟨rfl, rfl, rfl, r', priv, rfl, code⟩
  | fault => simp [made] at exits

theorem effect_of_exit {p : Program P} {a : UInt32} {r r' : UserRegs} {th : Th} {priv priv' : P}
    {bvr0 : UInt32} {e : Effect P} (made : p.inst a r priv = .swi r' priv')
    (code : r'.val 0 = EQUIV_EXIT) (does : effect p a th r priv bvr0 = some e) :
    ∃ th', checkHash { th with regs := r' } = some th' ∧ e = .exit th' priv' := by
  simp only [effect, made] at does
  obtain ⟨_, _, does⟩ := Option.bind_eq_some_iff.mp does
  rw [code, if_neg (by decide), if_pos rfl] at does
  obtain ⟨th', checked, same⟩ := Option.map_eq_some_iff.mp does
  exact ⟨th', checked, same.symm⟩

/-- The machine goes on with this thread where its block says. -/
structure Running (s : Sys P) (a : UInt32) (th : Th) : Prop where
  cur : s.curThread = some a
  block : s.th a = some th
  user : s.user = some th.regs
  bvr0 : s.bvr0 = th.regs.val 15
  on : s.singleStepOnP = true

theorem resume_some {s t : Sys P} {a : UInt32} (ran : resume s a = some t) :
    ∃ th, Running t a th ∧ t.th = s.th ∧ t.priv = s.priv ∧ t.next = s.next ∧
      t.equivRunq = s.equivRunq := by
  obtain ⟨th, block, ran⟩ := Option.bind_eq_some_iff.mp ran
  unfold mismatchRun mismatchPcSet at ran
  split_ifs at ran with on
  · cases ran
    exact ⟨th, ⟨rfl, block, rfl, rfl, on⟩, rfl, rfl, rfl, rfl⟩
  · cases ran

theorem resume_runs {s : Sys P} {a : UInt32} {th : Th} (block : s.th a = some th)
    (on : s.singleStepOnP = true) : ∃ t, resume s a = some t := by
  simp [resume, block, mismatchRun, mismatchPcSet, on]

theorem eq_pop_holds {next : Links UInt32} {q : Ends UInt32} {l : List UInt32}
    (holds : Holds next q l) : eqPop next q = some (pop next q) := by
  apply if_neg
  rintro ⟨head, tail⟩
  cases l with
  | nil => exact tail holds.last
  | cons a l =>
    rw [holds.chain.1] at head
    cases head

theorem schedule_some {s t : Sys P} {a : UInt32} {l : List UInt32}
    (holds : Holds s.next s.equivRunq l) (cur : s.curThread = some a) (fresh : a ∉ l)
    (ran : equivSchedule s = some t) :
    ∃ b rest th, l ++ [a] = b :: rest ∧ Running t b th ∧ Holds t.next t.equivRunq rest ∧
      t.th = s.th ∧ t.priv = s.priv := by
  rw [equivSchedule, cur, Option.bind_some, eq_pop_holds holds, Option.bind_some] at ran
  cases l with
  | nil =>
    rw [pop_nil holds] at ran
    obtain ⟨th, running, block, priv, next, runq⟩ := resume_some ran
    refine ⟨a, [], th, rfl, running, ?_, block, priv⟩
    rw [next, runq]
    exact holds
  | cons b l =>
    obtain ⟨q, popped, holds'⟩ := pop_cons holds
    rw [popped] at ran
    obtain ⟨th, running, block, priv, next, runq⟩ := resume_some ran
    have outside : a ∉ l := fun inside => fresh (List.mem_cons_of_mem b inside)
    refine ⟨b, l ++ [a], th, rfl, running, ?_, block, priv⟩
    rw [next, runq]
    exact append_holds holds' outside

theorem exit_some {s t : Sys P} {l : List UInt32} (holds : Holds s.next s.equivRunq l)
    (ran : equivExit s = some t) :
    t.th = s.th ∧ t.priv = s.priv ∧
      ((l = [] ∧ t.user = none ∧ t.singleStepOnP = false ∧ Holds t.next t.equivRunq []) ∨
        ∃ b rest th, l = b :: rest ∧ Running t b th ∧ Holds t.next t.equivRunq rest) := by
  rw [equivExit, eq_pop_holds holds, Option.bind_some] at ran
  cases l with
  | nil =>
    rw [pop_nil holds] at ran
    simp only at ran
    split_ifs at ran with on
    cases ran
    exact ⟨rfl, rfl, Or.inl ⟨rfl, rfl, rfl, holds⟩⟩
  | cons b l =>
    obtain ⟨q, popped, holds'⟩ := pop_cons holds
    rw [popped] at ran
    obtain ⟨th, running, block, priv, next, runq⟩ := resume_some ran
    refine ⟨block, priv, Or.inr ⟨b, l, th, rfl, running, ?_⟩⟩
    rw [next, runq]
    exact holds'

theorem run_some {s t : Sys P} {l : List UInt32} (holds : Holds s.next s.equivRunq l)
    (ran : equivRun s = some t) :
    ∃ b rest th, l = b :: rest ∧ Running t b th ∧ Holds t.next t.equivRunq rest ∧ t.th = s.th ∧
      t.priv = s.priv := by
  simp only [equivRun, eq_pop_holds holds, Option.bind_eq_bind, Option.bind_some] at ran
  cases l with
  | nil =>
    rw [pop_nil holds] at ran
    cases ran
  | cons b l =>
    obtain ⟨q, popped, holds'⟩ := pop_cons holds
    rw [popped] at ran
    simp only [Option.bind_some, guard] at ran
    split_ifs at ran with off
    · obtain ⟨th, running, block, priv, next, runq⟩ := resume_some ran
      refine ⟨b, l, th, rfl, running, ?_, block, priv⟩
      rw [next, runq]
      exact holds'
    · cases ran

def alone (a : UInt32) (th : Th) (priv : P) : Sys P :=
  { th := fun b => if b = a then some th else none, next := fun _ => none,
    equivRunq := ⟨some a, some a⟩, curThread := none, ntids := 0, singleStepOnP := false,
    bvr0 := 0, user := none, priv := fun _ => priv, output := [] }

/-- The instructions from here on lead to an exit with this hash and this count. -/
inductive Ends (p : Program P) : Sys P → UInt32 → UInt32 → Prop where
  | now {s : Sys P} {a hash count : UInt32} (exits : exiting p s = some (a, hash, count)) :
      Ends p s hash count
  | later {s t : Sys P} {hash count : UInt32} (ran : instruction p s = some t)
      (ends : Ends p t hash count) : Ends p s hash count

/-- The solo run of a block ends with this hash and this count. -/
def SoloEnds (p : Program P) (a : UInt32) (th : Th) (priv : P) (hash count : UInt32) : Prop :=
  ∃ s, equivRun (alone a th priv) = some s ∧ Ends p s hash count

def SoloReaches (p : Program P) (a : UInt32) (th : Th) (priv : P) (s : Sys P) : Prop :=
  ∃ first, equivRun (alone a th priv) = some first ∧
    ReflTransGen (fun s t => instruction p s = some t) first s

theorem SoloReaches.ends {p : Program P} {a : UInt32} {th : Th} {priv : P} {s : Sys P}
    {hash count : UInt32} (reached : SoloReaches p a th priv s) (ends : Ends p s hash count) :
    SoloEnds p a th priv hash count := by
  obtain ⟨first, ran, path⟩ := reached
  refine ⟨first, ran, ?_⟩
  clear ran
  induction path using ReflTransGen.head_induction_on with
  | refl => exact ends
  | head one _ ih => exact .later one ih

theorem SoloReaches.step {p : Program P} {a : UInt32} {th : Th} {priv : P} {s t : Sys P}
    (reached : SoloReaches p a th priv s) (ran : instruction p s = some t) :
    SoloReaches p a th priv t := by
  obtain ⟨first, started, path⟩ := reached
  exact ⟨first, started, path.tail ran⟩

/-- One thread runs and no other is queued. -/
structure Solo (s : Sys P) (a : UInt32) (th : Th) (priv : P) (r : UserRegs) (bvr0 : UInt32) : Prop where
  cur : s.curThread = some a
  block : s.th a = some th
  priv : s.priv a = priv
  user : s.user = some r
  bvr0 : s.bvr0 = bvr0
  on : s.singleStepOnP = true
  queue : Holds s.next s.equivRunq []

theorem alone_runs (a : UInt32) (th : Th) (priv : P) :
    ∃ s, equivRun (alone a th priv) = some s ∧ Solo s a th priv th.regs (th.regs.val 15) := by
  have holds : Holds (alone a th priv).next (alone a th priv).equivRunq [a] :=
    ⟨⟨rfl, rfl⟩, rfl, List.nodup_singleton a⟩
  have block : (alone a th priv).th a = some th := if_pos rfl
  obtain ⟨s, ran⟩ : ∃ s, equivRun (alone a th priv) = some s := by
    simp [equivRun, eqPop, pop, alone, guard, resume, mismatchRun, mismatchPcSet]
  obtain ⟨b, rest, th', same, running, queue, th_kept, priv_kept⟩ := run_some holds ran
  cases same
  have same : th' = th := by
    have found := running.block
    rw [th_kept, block] at found
    exact (Option.some.inj found).symm
  subst same
  refine ⟨s, ran, running.cur, running.block, ?_, running.user, running.bvr0, running.on,
    queue⟩
  rw [priv_kept]
  rfl

theorem Solo.instruction_eq {p : Program P} {s : Sys P} {a : UInt32} {th : Th} {priv : P}
    {r : UserRegs} {bvr0 : UInt32} (solo : Solo s a th priv r bvr0) :
    instruction p s = (effect p a th r priv bvr0).bind (commit s a) := by
  rw [EquivThreads.instruction_eq solo.cur solo.user solo.block, solo.priv, solo.bvr0]

theorem Solo.quiet {p : Program P} {s : Sys P} {a : UInt32} {th : Th} {priv priv' : P}
    {r r' : UserRegs} {bvr0 : UInt32} (solo : Solo s a th priv r bvr0)
    (does : effect p a th r priv bvr0 = some (.quiet r' priv')) :
    ∃ t, instruction p s = some t ∧ Solo t a th priv' r' bvr0 := by
  rw [solo.instruction_eq, does]
  exact ⟨_, rfl, solo.cur, solo.block, Function.update_self .., rfl, solo.bvr0, solo.on, solo.queue⟩

theorem Solo.yield {p : Program P} {s : Sys P} {a : UInt32} {th th' : Th} {priv priv' : P}
    {r : UserRegs} {bvr0 : UInt32} {output : List UInt8} (solo : Solo s a th priv r bvr0)
    (does : effect p a th r priv bvr0 = some (.yield th' priv' output)) :
    ∃ t, instruction p s = some t ∧ Solo t a th' priv' th'.regs (th'.regs.val 15) := by
  let saved : Sys P := { s with
    priv := Function.update s.priv a priv'
    th := Function.update s.th a (some th')
    output := s.output ++ output }
  have block : saved.th a = some th' := Function.update_self ..
  have cur : saved.curThread = some a := solo.cur
  obtain ⟨t, ran⟩ : ∃ t, equivSchedule saved = some t := by
    rw [equivSchedule, cur, Option.bind_some, eq_pop_holds solo.queue, Option.bind_some,
      pop_nil solo.queue]
    exact resume_runs block solo.on
  obtain ⟨b, rest, th'', same, running, queue, th_kept, priv_kept⟩ :=
    schedule_some (s := saved) solo.queue cur (List.not_mem_nil) ran
  cases same
  have same : th'' = th' := by
    have found := running.block
    rw [th_kept, block] at found
    exact (Option.some.inj found).symm
  subst same
  refine ⟨t, ?_, running.cur, running.block, ?_, running.user, running.bvr0, running.on, queue⟩
  · rw [solo.instruction_eq, does]
    exact ran
  · rw [priv_kept]
    exact Function.update_self ..

end EmbeddedOS.EquivThreads
