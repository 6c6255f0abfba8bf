import EmbeddedOS.Threads.Scheduler

/-! Thread ids are 32-bit: a thread that lives long enough shares its id with a later one. -/
namespace EmbeddedOS.Threads
open Arm Linked Steps

/-- A compiled function that begins with `push {r4, r5, r6, lr}` and ends with
`pop {r4, r5, r6, pc}`. -/
def popsPc (back : UInt32) : Around where
  size := 4
  short := by decide
  back := back
  restore := fun frame callee i =>
    if i = 0 then frame 0 else if i = 1 then frame 1 else if i = 2 then frame 2 else callee i
  pc := fun frame _ => frame 3

def pushed (c : Cpu) : Fin 4 → UInt32 := fun i =>
  if i = 0 then c.callee 0 else if i = 1 then c.callee 1 else if i = 2 then c.callee 2
  else c.callee LR_OFFSET

/-- The registers at its call of `rpi_cswitch`: it has used three of them, and lr is where the
call returns to. -/
def busy (back : UInt32) (c : Cpu) : Callee := fun i =>
  if i = LR_OFFSET then back else if i < 3 then 0x7777 else c.callee i

theorem popsPc_framed {c : Cpu} {base back : UInt32} (sp : c.sp = word base 13) :
    Framed (popsPc back) c base (pushed c) (busy back c) := by
  refine ⟨sp, fun i other => ?_, rfl, rfl⟩
  by_cases first : i = 0
  · rw [first]; rfl
  by_cases second : i = 1
  · rw [second]; rfl
  by_cases third : i = 2
  · rw [third]; rfl
  have used : ¬i < 3 := by omega
  simp only [popsPc, busy, if_neg first, if_neg second, if_neg third, if_neg other, if_neg used]

def callerBase : UInt32 := 0x7000000

def image : Image where
  rpiInitTrampoline := 0x8000
  toExit := 0x800c
  rpiYield := popsPc 0x8100
  rpiThreadStart := popsPc 0x8200
  distinct := by decide
  callerStack := fun x => ∃ i < blockWords, x = word callerBase i

def blockA : UInt32 := 0x100000
def blockS : UInt32 := 0x110000
def blockB : UInt32 := 0x120000

theorem far_apart {a b : UInt32} (gap : a.toNat + 4 * blockWords ≤ b.toNat)
    (top : b.toNat + 4 * blockWords ≤ 2 ^ 32) : Apart a b := by
  unfold Apart blockWords THREAD_MAXSTACK at *
  intro i low j low' same
  have values := congrArg UInt32.toNat same
  simp only [word, UInt32.toNat_add, UInt32.toNat_mul, UInt32.toNat_ofNat'] at values
  change (a.toNat + 4 * (i % 2 ^ 32) % 2 ^ 32) % 2 ^ 32 =
    (b.toNat + 4 * (j % 2 ^ 32) % 2 ^ 32) % 2 ^ 32 at values
  omega

theorem image_fresh {k : Allocs} {a : UInt32} (nonzero : a ≠ 0) (aligned : a % 8 = 0)
    (below : a.toNat + 4 * blockWords ≤ callerBase.toNat) (apart : ∀ b ∈ k.blocks, Apart b a) :
    Fresh image k a := by
  refine ⟨nonzero, aligned, fun b inside => (apart b inside).symm, ?_⟩
  rintro i low ⟨j, low', same⟩
  exact far_apart below (by decide) i low j low' same

/-- The first thread runs alone, and its second has been freed, or is new. -/
structure Round (n : Nat) (w : World) : Prop where
  cur : w.sys.curThread = some blockA
  sp : w.sys.cpu.sp = stackAt blockA 2037
  first : w.allocs.number blockA = 0
  count : w.allocs.count = n
  core : ∃ free, Core image w.sys w.allocs w.calls [] free ∧
    ((free = [] ∧ w.allocs.blocks = [blockA, blockS]) ∨ free = [blockB])

def forkB : Act image := .fork blockB 0 0

theorem fork_b {n : Nat} {w : World} (round : Round n w) :
    ∃ s, happen image w forkB = some (w.after forkB s) ∧ Proper image w forkB ∧
      s.curThread = some blockA ∧ s.cpu.sp = stackAt blockA 2037 ∧
      s.cpu.callee = w.sys.cpu.callee ∧ w.calls blockB = none ∧ s.cpu.r0 = blockB ∧
      Core image s (w.after forkB s).allocs (w.after forkB s).calls [blockB] [] := by
  obtain ⟨free, core, places⟩ := round.core
  have proper : Proper image w forkB := by
    intro none_free
    obtain ⟨-, blocks⟩ | rfl := places
    · apply image_fresh (by decide) (by decide) (by decide)
      intro b inside
      rw [blocks] at inside
      obtain rfl | inside := List.mem_cons.mp inside
      · exact far_apart (by decide) (by decide)
      · rw [List.mem_singleton.mp inside]
        exact far_apart (by decide) (by decide)
    · have head := core.listed.freeq.head_cons
      rw [head] at none_free
      cases none_free
  obtain ⟨t, s, chosen, ran, taken, cur, -, -, sp, callee, -, -, core'⟩ := fork_core core proper
  have same : t = blockB ∧ free.tail = [] := by
    obtain ⟨rfl, -⟩ | rfl := places
    · rw [core.listed.freeq.head_nil] at chosen
      exact ⟨chosen, rfl⟩
    · rw [core.listed.freeq.head_cons] at chosen
      exact ⟨chosen, rfl⟩
  obtain ⟨rfl, rest⟩ := same
  rw [rest] at core'
  refine ⟨s, happen_some ran, proper, cur.trans round.cur, sp.trans round.sp, callee,
    core.idle _ (by simp), taken, ?_⟩
  have allocs : (w.after forkB s).allocs = w.allocs.add w.sys.freeq.head.isNone blockB := by
    simp only [World.after, forkB, allocated, taken]
  rw [allocs]
  exact core'

theorem number_first {n : Nat} {w : World} {s : Sys} (round : Round n w) (taken : s.cpu.r0 = blockB) :
    (w.after forkB s).allocs.number blockA = 0 ∧ (w.after forkB s).allocs.number blockB = n ∧
      (w.after forkB s).allocs.count = n + 1 := by
  have allocs : (w.after forkB s).allocs = w.allocs.add w.sys.freeq.head.isNone blockB := by
    simp only [World.after, forkB, allocated, taken]
  rw [allocs]
  refine ⟨?_, ?_, ?_⟩
  · have other : blockA ≠ blockB := by decide
    change Function.update w.allocs.number blockB w.allocs.count blockA = 0
    rw [Function.update_of_ne other, round.first]
  · rw [number_new, round.count]
  · change w.allocs.count + 1 = n + 1
    rw [round.count]

def yieldIn (w : World) : Act image :=
  .yield (pushed w.sys.cpu) (busy 0x8100 w.sys.cpu)

theorem one_round (n : Nat) (w : World) (round : Round n w) :
    ∃ w', Leads (happen image) (Proper image) w w' ∧ Round (n + 1) w' ∧
      ∃ r ∈ w'.returns, r.call.made.cpu.callee LR_OFFSET = w.sys.cpu.callee LR_OFFSET ∧
        r.after.cpu.callee LR_OFFSET = 0x8100 := by
  obtain ⟨s1, happened1, proper1, cur1, sp1, regs1, new, taken, core1⟩ := fork_b round
  obtain ⟨first, -, count⟩ := number_first round taken
  let w1 := w.after forkB s1
  have cur1' : w1.sys.curThread = some blockA := cur1
  have framed : Framed image.rpiYield w1.sys.cpu (stackAt blockA 2024)
      (pushed w1.sys.cpu) (busy 0x8100 w1.sys.cpu) := by
    apply popsPc_framed
    rw [stack_word]
    exact sp1
  have proper2 : Proper image w1 (yieldIn w1) := ⟨blockA, 2024, cur1, by decide, framed⟩
  obtain ⟨s2, ran2, cur2, -, -, woken2, -, core2⟩ := yield_core core1 cur1 (by decide) framed
  let w2 := w1.after (yieldIn w1) s2
  have calls1 : w1.calls blockB = none := new
  rw [calls1] at woken2
  have calls2 : w2.calls = yieldCalls w1.sys s2.cpu.mem w1.calls blockA blockB :=
    yielded_calls cur1' cur2
  have core2' : Core image w2.sys w2.allocs w2.calls [blockA] [] := by
    rw [calls2]
    exact core2
  have sp2 : w2.sys.cpu.sp = stackAt blockB (2028 + 9) := woken2.woken.2.2
  have proper3 : Proper image w2 .exit := ⟨blockB, 2028, cur2, by decide, sp2⟩
  obtain ⟨s3, ran3, cur3, -, -, woken3, -, core3⟩ := exit_core core2' cur2 (by decide) sp2
  let w3 := w2.after (.exit : Act image) s3
  have call : w2.calls blockA = some ⟨w1.sys, s2.cpu.mem⟩ := by
    rw [calls2, yieldCalls, if_neg (by decide), if_pos rfl]
  rw [call] at woken3
  have wakes3 : wakes s3 (.exit : Act image) = some blockA := cur3
  have calls3 : w3.calls = Function.update w2.calls blockA none := woken_calls wakes3 rfl
  refine ⟨w3, .step proper1 happened1 (.step proper2 (happen_some ran2)
    (.step proper3 (happen_some ran3) (.refl ..))), ⟨cur3, woken3.woken.sp.trans sp1, first, count,
    [blockB], ?_, Or.inr rfl⟩, ?_⟩
  · rw [calls3]
    exact core3
  · have returned : returnOf w2 s3 (.exit : Act image) =
        some ⟨blockA, ⟨w1.sys, s2.cpu.mem⟩, s3⟩ := by
      simp only [returnOf, wakes3, Option.bind_some, callsOf, call, Option.map_some]
    have returns : w3.returns = w2.returns ++ [⟨blockA, ⟨w1.sys, s2.cpu.mem⟩, s3⟩] := by
      simp only [w3, World.after, returned, Option.toList_some]
    refine ⟨_, by rw [returns]; exact List.mem_append_right _ (List.mem_singleton_self _),
      congrFun regs1 LR_OFFSET, ?_⟩
    obtain ⟨frame, callee, back, regs⟩ := woken3.taken (by simp)
    change s3.cpu.callee LR_OFFSET = 0x8100
    rw [regs]
    exact back

def firstCpu : Cpu :=
  { r0 := 0, r1 := 0, callee := fun _ => 0, sp := word callerBase 13, pc := 0x8000,
    mem := fun _ => 0 }

def startIn (w : World) : Act image :=
  .start (pushed w.sys.cpu) (busy 0x8200 w.sys.cpu) blockS

theorem first_steps (code arg : UInt32) : ∃ w1 w2 : World,
    Proper image (boot firstCpu) (.fork blockA code arg) ∧
    happen image (boot firstCpu) (.fork blockA code arg) = some w1 ∧ w1.sys.cpu.r0 = blockA ∧
    Proper image w1 (startIn w1) ∧ happen image w1 (startIn w1) = some w2 ∧
    wakes w2.sys (startIn w1) = some blockA ∧ Round 2 w2 ∧
    w2.sys.cpu.callee LR_OFFSET = image.toExit := by
  have core := (good_boot firstCpu : Good image (boot firstCpu) [] []).core
  let fork : Act image := .fork blockA code arg
  have proper1 : Proper image (boot firstCpu) fork := by
    intro _
    apply image_fresh (by decide) (by decide) (by decide)
    simp [boot]
  obtain ⟨t, s1, chosen, ran1, taken, cur1, scheduler1, -, sp1, -, -, -, core1⟩ :=
    @fork_core image _ _ _ _ _ blockA code arg core proper1
  have same : t = blockA := chosen
  subst same
  let w1 := (boot firstCpu).after fork s1
  have allocs1 : w1.allocs = (boot firstCpu).allocs.add true blockA := by
    simp only [w1, World.after, fork, allocated, taken]
    rfl
  have caller1 : w1.sys.inCaller = true := by
    have caller := core1.caller
    rw [cur1] at caller
    exact caller
  have core1' : Core image w1.sys w1.allocs w1.calls [blockA] [] := by
    rw [allocs1]
    exact core1
  have framed : Framed image.rpiThreadStart w1.sys.cpu callerBase
      (pushed w1.sys.cpu) (busy 0x8200 w1.sys.cpu) := popsPc_framed sp1
  have stack : ∀ i < 9 + image.rpiThreadStart.size, image.callerStack (word callerBase i) :=
    fun i low => ⟨i, Nat.lt_trans low (by decide), rfl⟩
  have fresh : Fresh image w1.allocs blockS := by
    apply image_fresh (by decide) (by decide) (by decide)
    rw [allocs1]
    intro b inside
    rw [List.mem_singleton.mp (show b ∈ [blockA] from inside)]
    exact far_apart (by decide) (by decide)
  have proper2 : Proper image w1 (startIn w1) :=
    ⟨caller1, ⟨callerBase, stack, framed⟩, fun _ _ => fresh⟩
  obtain ⟨s2, scheduler, free, ran2, cur2, scheduler2, -, woken2, -, -, -, chosen2, core2⟩ :=
    start_core core1' caller1 stack framed (fun _ _ => fresh)
  have none_yet : w1.sys.schedulerThread = none := scheduler1
  have head : w1.sys.freeq.head = none := core1'.listed.freeq.head_nil
  obtain ⟨which, rest⟩ := chosen2 none_yet
  rw [head] at which
  have which : scheduler = blockS := which
  have rest : free = [] := rest
  subst which
  subst rest
  let w2 := w1.after (startIn w1) s2
  have allocs2 : w2.allocs = w1.allocs.add true blockS := by
    simp only [w2, World.after, startIn, allocated, none_yet, scheduler2, if_true, head,
      Option.isNone_none]
  have wakes2 : wakes s2 (startIn w1) = some blockA := cur2
  have calls2 : w2.calls = Function.update w1.calls blockA none := woken_calls wakes2 rfl
  rw [if_pos none_yet, head] at core2
  have calls1 : w1.calls blockA = none := rfl
  rw [calls1] at woken2
  refine ⟨w1, w2, proper1, happen_some ran1, taken, proper2, happen_some ran2, wakes2,
    ⟨cur2, woken2.woken.2.2, ?_, ?_, [], ?_, Or.inl ⟨rfl, ?_⟩⟩, woken2.lr rfl⟩
  · rw [allocs2, allocs1]
    rfl
  · rw [allocs2, allocs1]
    rfl
  · rw [allocs2, calls2]
    exact core2
  · rw [allocs2, allocs1]
    rfl

theorem first_round : ∃ w, Leads (happen image) (Proper image) (boot firstCpu) w ∧ Round 2 w ∧
    w.sys.cpu.callee LR_OFFSET = image.toExit := by
  obtain ⟨w1, w2, proper1, happened1, -, proper2, happened2, -, round, lr⟩ := first_steps 0 0
  exact ⟨w2, .step proper1 happened1 (.step proper2 happened2 (.refl ..)), round, lr⟩

theorem rounds (m : Nat) : ∃ w, Leads (happen image) (Proper image) (boot firstCpu) w ∧
    Round (2 + m) w := by
  obtain ⟨w, begins, round, -⟩ := first_round
  have again (n : Nat) (w : World) (round : Round n w) :
      ∃ w', Leads (happen image) (Proper image) w w' ∧ Round (n + 1) w' := by
    obtain ⟨w', leads, round', -⟩ := one_round n w round
    exact ⟨w', leads, round'⟩
  obtain ⟨w', leads, done⟩ := Leads.repeat again m 2 round
  exact ⟨w', begins.trans leads, done⟩

/-- After 2^32 forks the ids are used up, and a new thread has the id of the first one. -/
theorem ids_wrap : ∃ (acts : List (Act image)) (w : World),
    Along (happen image) (Proper image) (boot firstCpu) acts ∧
    exec (happen image) (boot firstCpu) acts = some w ∧
    ∃ a b, w.sys.curThread = some a ∧ w.sys.runq.head = some b ∧ a ≠ b ∧
      w.sys.cpu.mem (tidAt a) = w.sys.cpu.mem (tidAt b) := by
  obtain ⟨w, leads, round⟩ := rounds (2 ^ 32 - 2)
  obtain ⟨s, happened, proper, cur, -, -, -, taken, core⟩ := fork_b round
  obtain ⟨first, second, -⟩ := number_first round taken
  obtain ⟨acts, along, ran⟩ := leads.trans (.step proper happened (.refl ..))
  refine ⟨acts, _, along, ran, blockA, blockB, cur, core.listed.runq.head_cons, by decide, ?_⟩
  have id_a := core.listed.tids blockA (core.known_cur cur)
  have id_b := core.listed.tids blockB (core.listed.mem_run List.mem_cons_self)
  change s.cpu.mem (tidAt blockA) = s.cpu.mem (tidAt blockB)
  rw [id_a, id_b, first, second]
  decide

theorem two_threads_run : ∃ (acts : List (Act image)) (w : World) (run free : List UInt32),
    exec (happen image) (boot firstCpu) acts = some w ∧ Scheduled w run free ∧
    w.sys.curThread = some blockA ∧ w.allocs.count = 3 := by
  obtain ⟨w, ⟨acts, along, ran⟩, round⟩ := rounds 1
  obtain ⟨w', run, free, ran', scheduled⟩ := scheduler_keeps along
  cases ran.symm.trans ran'
  exact ⟨acts, w, run, free, ran, scheduled, round.cur, round.count⟩

theorem thread_comes_back : ∃ (acts : List (Act image)) (w : World),
    exec (happen image) (boot firstCpu) acts = some w ∧ w.returns ≠ [] ∧
    ∀ r ∈ w.returns, Restored r.thread r.call r.after.cpu := by
  obtain ⟨w, begins, round, -⟩ := first_round
  obtain ⟨w', leads, -, r, returned, -⟩ := one_round 2 w round
  obtain ⟨acts, along, ran⟩ := begins.trans leads
  obtain ⟨w'', ran', restored⟩ := yield_restores along
  cases ran.symm.trans ran'
  exact ⟨acts, w', ran, List.ne_nil_of_mem returned, restored⟩

/-- The thread called rpi_yield with the lr it had started with, and has come back with the
address behind the call of rpi_cswitch. -/
theorem lr_is_lost : ¬ ∀ (p : Image) (c : Cpu) (acts : List (Act p)) (w : World),
    Along (happen p) (Proper p) (boot c) acts → exec (happen p) (boot c) acts = some w →
    ∀ r ∈ w.returns, r.after.cpu.callee = r.call.made.cpu.callee := by
  intro kept
  obtain ⟨w, begins, round, lr⟩ := first_round
  obtain ⟨w', leads, -, r, returned, before, after⟩ := one_round 2 w round
  obtain ⟨acts, along, ran⟩ := begins.trans leads
  have same := congrFun (kept image firstCpu acts w' along ran r returned) LR_OFFSET
  rw [before, after, lr] at same
  exact absurd same (by decide)

end EmbeddedOS.Threads
