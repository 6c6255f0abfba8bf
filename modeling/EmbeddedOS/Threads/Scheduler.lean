import EmbeddedOS.Threads.Steps

/-! Every run: no block is lost, each thread runs until its one exit, threads are resumed in the
order in which they were queued, and rpi_thread_start returns when none is left. -/
namespace EmbeddedOS.Threads
open Arm Linked

variable {p : Image} {w : World} {run free : List UInt32}

theorem work_words {c : Cpu} (core : Core p w.sys w.allocs w.calls run free)
    (proper : Proper p w (.work c)) {b : UInt32} (inside : b ∈ w.allocs.blocks) {i : Nat}
    (low : i < blockWords) (guarded : i < 6 ∨ w.sys.curThread ≠ some b) :
    c.mem (word b i) = w.sys.cpu.mem (word b i) := by
  obtain same | ⟨t, n, cur, room, same⟩ | ⟨outside, -⟩ := proper (word b i)
  · exact same
  · obtain ⟨rfl, index⟩ :=
      core.listed.placed.index inside (core.known_cur cur) low (stack_inside room) same
    obtain field | other := guarded
    · omega
    · exact absurd cur other
  · exact absurd rfl (outside b inside i low)

theorem work_kept {c : Cpu} (core : Core p w.sys w.allocs w.calls run free)
    (proper : Proper p w (.work c)) : Kept run w.sys.cpu.mem c.mem := by
  intro b inside i low _
  apply work_words core proper (core.listed.mem_run inside) low
  right
  intro cur
  exact core.run_not_cur cur inside rfl

theorem work_core {c : Cpu} (core : Core p w.sys w.allocs w.calls run free)
    (proper : Proper p w (.work c)) :
    Core p { w.sys with cpu := c } w.allocs w.calls run free := by
  have placed := core.listed.placed
  refine ⟨frame_fields core.listed ?_, ⟨core.counted.nalloced, core.counted.tid⟩, core.caller, ?_,
    ?_, core.idle⟩
  · intro b inside i field _
    exact work_words core proper inside (Nat.lt_of_lt_of_le field (by decide)) (Or.inl field)
  · intro running
    obtain ⟨scheduler, found, way⟩ := core.way running
    have saved : c.mem (savedSpAt scheduler) = w.sys.cpu.mem (savedSpAt scheduler) :=
      work_words core proper (core.known_scheduler found) (by decide) (Or.inl (by decide))
    have stack {x : UInt32} (inside : p.callerStack x) : c.mem x = w.sys.cpu.mem x := by
      obtain same | ⟨t, n, cur, room, rfl⟩ | ⟨-, allowed⟩ := proper x
      · exact same
      · exact absurd inside (placed.outside t (core.known_cur cur) _ (stack_inside room))
      · have caller := allowed inside
        rw [core.caller, Option.isNone_iff_eq_none] at caller
        exact absurd caller running
    refine ⟨scheduler, found, ?_, ?_⟩
    · change c.mem (word (c.mem (savedSpAt scheduler)) 8) = _
      rw [saved, stack way.inside]
      exact way.lr
    · change p.callerStack (word (c.mem (savedSpAt scheduler)) 8)
      rw [saved]
      exact way.inside
  · intro b inside
    exact (core.ready b inside).congr (work_kept core proper b inside)

/-- What holds of the history. -/
structure Laws (w : World) (run : List UInt32) : Prop where
  numbers : ((w.sys.curThread.toList ++ run).map w.allocs.number ++ w.exited ++
    w.sys.schedulerThread.toList.map w.allocs.number).Perm (List.range w.allocs.count)
  fifo : w.queued = w.resumed ++ run
  returns : ∀ r ∈ w.returns, Restored r.thread r.call r.after.cpu
  finished : ∀ s ∈ w.finished, s.curThread = none ∧ s.runq.head = none

structure Good (p : Image) (w : World) (run free : List UInt32) : Prop where
  core : Core p w.sys w.allocs w.calls run free
  laws : Laws w run

theorem number_old {k : Allocs} {new : Bool} {t : UInt32} {l : List UInt32} (absent : t ∉ l) :
    l.map (k.add new t).number = l.map k.number := by
  apply List.map_congr_left
  intro b inside
  have other : b ≠ t := fun same => absent (same ▸ inside)
  exact Function.update_of_ne other _ _

theorem number_new (k : Allocs) (new : Bool) (t : UInt32) : (k.add new t).number t = k.count :=
  Function.update_self ..

theorem happen_some {act : Act p} {t : Sys} (ran : perform p w.sys act = some t) :
    happen p w act = some (w.after act t) := by rw [happen, ran, Option.map_some]

theorem good_work {c : Cpu} (good : Good p w run free) (proper : Proper p w (.work c)) :
    ∃ w', happen p w (.work c) = some w' ∧ Good p w' run free := by
  refine ⟨_, happen_some rfl, work_core good.core proper, good.laws.numbers, ?_, ?_, ?_⟩
  · simpa [World.after, queues, resumes] using good.laws.fifo
  · simpa [World.after, returnOf, wakes] using good.laws.returns
  · simpa [World.after, finishes] using good.laws.finished

theorem good_fork {a code arg : UInt32} (good : Good p w run free)
    (proper : Proper p w (.fork a code arg)) :
    ∃ w' t, happen p w (.fork a code arg) = some w' ∧ Good p w' (run ++ [t]) free.tail := by
  obtain ⟨t, s', -, ran, rfl, cur, scheduler, absent, -, -, -, -, core⟩ :=
    fork_core good.core proper
  refine ⟨_, _, happen_some ran, core, ?_, ?_, ?_, ?_⟩
  · have fresh_run : s'.cpu.r0 ∉ w.sys.curThread.toList ++ run := by
      simp only [elsewhere, List.mem_append, not_or] at absent ⊢
      exact ⟨absent.2.1, absent.1⟩
    have fresh_scheduler : s'.cpu.r0 ∉ w.sys.schedulerThread.toList := by
      simp only [elsewhere, List.mem_append, not_or] at absent
      exact absent.2.2
    have before := good.laws.numbers
    simp only [World.after, allocated, cur, scheduler]
    rw [← List.append_assoc, List.map_append, number_old fresh_run, number_old fresh_scheduler]
    have count : (w.allocs.add w.sys.freeq.head.isNone s'.cpu.r0).count = w.allocs.count + 1 := rfl
    rw [count, List.range_succ, List.map_singleton, number_new]
    have moved : (List.map w.allocs.number (w.sys.curThread.toList ++ run) ++ [w.allocs.count] ++
        w.exited ++ List.map w.allocs.number w.sys.schedulerThread.toList).Perm
        (List.map w.allocs.number (w.sys.curThread.toList ++ run) ++ w.exited ++
          List.map w.allocs.number w.sys.schedulerThread.toList ++ [w.allocs.count]) := by
      rw [List.perm_iff_count]
      intro n
      simp only [List.count_append]
      omega
    exact moved.trans (before.append_right _)
  · simp only [World.after, queues, resumes, Option.toList_some, Option.toList_none,
      List.append_nil, good.laws.fifo, List.append_assoc]
  · simpa [World.after, returnOf, wakes] using good.laws.returns
  · simpa [World.after, finishes] using good.laws.finished

theorem returns_after {act : Act p} {t : Sys} (laws : Laws w run)
    (fine : ∀ b call, wakes t act = some b → callsOf w t act b = some call → Restored b call t.cpu) :
    ∀ r ∈ (w.after act t).returns, Restored r.thread r.call r.after.cpu := by
  intro r inside
  obtain before | now := List.mem_append.mp inside
  · exact laws.returns r before
  · obtain ⟨b, woken, found⟩ := Option.bind_eq_some_iff.mp (Option.mem_toList.mp now)
    obtain ⟨call, made, rfl⟩ := Option.map_eq_some_iff.mp found
    exact fine b call woken made

theorem woken_restored {b : UInt32} {c : Cpu} {call : Call} {found : Option Call}
    (woken : Woken b c found) (made : found = some call) : Restored b call c := by
  subst made
  exact woken

theorem returns_woken {act : Act p} {t : Sys} {b : UInt32} (laws : Laws w run)
    (wakes_b : wakes t act = some b) (woken : Woken b t.cpu (callsOf w t act b)) :
    ∀ r ∈ (w.after act t).returns, Restored r.thread r.call r.after.cpu := by
  apply returns_after laws
  intro c call woken' made
  rw [wakes_b, Option.some.injEq] at woken'
  subst woken'
  exact woken_restored woken made

theorem finished_after {act : Act p} {t : Sys} (laws : Laws w run)
    (done : t.curThread = none ∧ t.runq.head = none) :
    ∀ s ∈ (w.after act t).finished, s.curThread = none ∧ s.runq.head = none := by
  intro s inside
  obtain before | now := List.mem_append.mp inside
  · exact laws.finished s before
  · have same : s = t := by
      cases act <;> simp [finishes] at now <;> exact now.2
    rw [same]
    exact done

theorem yielded_calls {frame : Fin p.rpiYield.size → UInt32} {callee : Callee} {s : Sys}
    {t b : UInt32} (cur : w.sys.curThread = some t) (cur' : s.curThread = some b) :
    (w.after (.yield frame callee) s).calls = yieldCalls w.sys s.cpu.mem w.calls t b := by
  funext x
  simp only [World.after, wakes, callsOf, cur, cur', yieldCalls, Option.some.injEq, eq_comm]

theorem good_yield {frame : Fin p.rpiYield.size → UInt32} {callee : Callee}
    (good : Good p w run free) (proper : Proper p w (.yield frame callee)) :
    ∃ w' run', happen p w (.yield frame callee) = some w' ∧ Good p w' run' free := by
  obtain ⟨t, j, cur, room, framed⟩ := proper
  cases run with
  | nil =>
    obtain ⟨s', ran, cur', scheduler', restored, core⟩ := yield_alone good.core cur room framed
    have head := good.core.listed.runq.head_nil
    refine ⟨_, [], happen_some ran, ?_, ?_, ?_, ?_, ?_⟩
    · have calls : (w.after (.yield frame callee) s').calls = w.calls := by
        funext b
        by_cases here : t = b
        · subst here
          simp [World.after, wakes, cur', good.core.idle t]
        · simp [World.after, wakes, callsOf, cur, cur', here]
      rw [calls]
      exact core
    · simpa [World.after, allocated, cur, cur', scheduler'] using good.laws.numbers
    · simpa [World.after, queues, resumes, head] using good.laws.fifo
    · apply returns_after good.laws
      intro b call woken made
      simp only [wakes, cur', Option.some.injEq] at woken
      subst woken
      simp only [callsOf, cur, if_true, Option.some.injEq] at made
      subst made
      exact restored
    · simpa [World.after, finishes] using good.laws.finished
  | cons b run =>
    obtain ⟨s', ran, cur', scheduler', -, woken, -, core⟩ := yield_core good.core cur room framed
    have head := good.core.listed.runq.head_cons
    have other := good.core.run_not_cur cur (List.mem_cons_self : b ∈ b :: run)
    refine ⟨_, run ++ [t], happen_some ran, ?_, ?_, ?_, ?_, ?_⟩
    · rw [yielded_calls cur cur']
      exact core
    · have before := good.laws.numbers
      simp only [cur, Option.toList_some, List.singleton_append, List.map_cons] at before
      simp only [World.after, allocated, cur', scheduler', Option.toList_some,
        List.singleton_append, List.map_cons, List.map_append, List.map_nil]
      refine List.Perm.trans ?_ before
      rw [List.perm_iff_count]
      intro n
      simp only [List.count_append, List.count_cons, List.count_nil]
      omega
    · simp [World.after, queues, resumes, head, cur, cur', good.laws.fifo]
    · apply returns_after good.laws
      intro c call woken' made
      simp only [wakes, cur', Option.some.injEq] at woken'
      subst woken'
      have apart : ¬ w.sys.curThread = some b := by
        rw [cur]
        exact fun same => other (Option.some.inj same).symm
      simp only [callsOf, apart, if_false] at made
      exact woken_restored woken.woken made
    · simpa [World.after, finishes] using good.laws.finished

theorem asleep_calls {act : Act p} {t : Sys} (asleep : wakes t act = none) (calls : callsOf w t act = w.calls) :
    (w.after act t).calls = w.calls := by
  funext b
  simp [World.after, asleep, calls]

theorem returns_asleep {act : Act p} {t : Sys} (laws : Laws w run) (asleep : wakes t act = none) :
    ∀ r ∈ (w.after act t).returns, Restored r.thread r.call r.after.cpu := by
  refine returns_after laws fun b call woken _ => ?_
  cases asleep.symm.trans woken

theorem woken_calls {act : Act p} {t : Sys} {b : UInt32} (wakes_b : wakes t act = some b)
    (calls : callsOf w t act = w.calls) :
    (w.after act t).calls = Function.update w.calls b none := by
  funext x
  by_cases here : x = b
  · subst here
    simp [World.after, wakes_b]
  · simp [World.after, wakes_b, calls, here, Ne.symm here]

theorem good_exit (good : Good p w run free) (proper : Proper p w .exit) :
    ∃ w' run' free', happen p w (.exit : Act p) = some w' ∧ Good p w' run' free' := by
  obtain ⟨t, j, cur, room, sp⟩ := proper
  cases run with
  | nil =>
    obtain ⟨s', ran, cur', scheduler', -, head', core⟩ := exit_last good.core cur room sp
    have asleep : wakes s' (.exit : Act p) = none := cur'
    refine ⟨_, [], t :: free, happen_some ran, ?_, ?_, ?_, ?_, ?_⟩
    · rw [asleep_calls asleep rfl]
      exact core
    · have before := good.laws.numbers
      simp only [cur, Option.toList_some, List.append_nil, List.map_cons, List.map_nil] at before
      simp only [World.after, allocated, cur, cur', scheduler', Option.map_some, Option.toList_some,
        Option.toList_none, List.append_nil, List.map_nil, List.nil_append]
      refine List.Perm.trans ?_ before
      exact (List.perm_append_comm).append_right _
    · simpa [World.after, queues, resumes, cur'] using good.laws.fifo
    · exact returns_asleep good.laws asleep
    · exact finished_after good.laws ⟨cur', head'⟩
  | cons b run =>
    obtain ⟨s', ran, cur', scheduler', caller', woken, -, core⟩ := exit_core good.core cur room sp
    refine ⟨_, run, t :: free, happen_some ran, ?_, ?_, ?_, ?_, ?_⟩
    · have wakes_b : wakes s' (.exit : Act p) = some b := cur'
      rw [woken_calls wakes_b rfl]
      exact core
    · have before := good.laws.numbers
      simp only [cur, Option.toList_some, List.singleton_append, List.map_cons] at before
      simp only [World.after, allocated, cur, cur', scheduler', Option.map_some, Option.toList_some,
        List.singleton_append, List.map_cons]
      refine List.Perm.trans ?_ before
      rw [List.perm_iff_count]
      intro n
      simp only [List.count_append, List.count_cons, List.count_nil]
      omega
    · simp [World.after, queues, resumes, cur', good.laws.fifo]
    · exact returns_woken good.laws cur' woken.woken
    · simpa [World.after, finishes, caller'] using good.laws.finished

theorem good_start {frame : Fin p.rpiThreadStart.size → UInt32} {callee : Callee} {a : UInt32}
    (good : Good p w run free) (proper : Proper p w (.start frame callee a)) :
    ∃ w' run' free', happen p w (.start frame callee a) = some w' ∧ Good p w' run' free' := by
  obtain ⟨caller, ⟨base, stack, framed⟩, fresh⟩ := proper
  have cur : w.sys.curThread = none := by
    rw [← Option.isNone_iff_eq_none, ← good.core.caller]
    exact caller
  cases run with
  | nil =>
    obtain ⟨s', ran, cur', scheduler', -, head', core⟩ :=
      start_alone (a := a) good.core caller stack framed
    have asleep : wakes s' (.start frame callee a) = none := cur'
    have none_new : allocated w.sys s' (.start frame callee a) = none := by
      unfold allocated
      split_ifs with first
      · rw [scheduler', first]
      · rfl
    refine ⟨_, [], free, happen_some ran, ?_, ?_, ?_, ?_, ?_⟩
    · have allocs : (w.after (.start frame callee a) s').allocs = w.allocs := by
        simp only [World.after, none_new]
      rw [asleep_calls asleep rfl, allocs]
      exact core
    · simpa [World.after, none_new, cur, cur', scheduler'] using good.laws.numbers
    · simpa [World.after, queues, resumes, cur'] using good.laws.fifo
    · exact returns_asleep good.laws asleep
    · exact finished_after good.laws ⟨cur', head'⟩
  | cons b run =>
    obtain ⟨s', scheduler, free', ran, cur', scheduler', caller', woken, -, absent, known, -, core⟩ :=
      start_core good.core caller stack framed fresh
    have allocs : (w.after (.start frame callee a) s').allocs =
        if w.sys.schedulerThread = none then w.allocs.add w.sys.freeq.head.isNone scheduler
        else w.allocs := by
      by_cases first : w.sys.schedulerThread = none <;>
        simp [World.after, allocated, first, scheduler']
    have before := good.laws.numbers
    refine ⟨_, run, free', happen_some ran, ?_, ?_, ?_, ?_, ?_⟩
    · have wakes_b : wakes s' (.start frame callee a) = some b := cur'
      rw [woken_calls wakes_b rfl, allocs]
      exact core
    · rw [allocs]
      change ((s'.curThread.toList ++ run).map _ ++ w.exited ++
        s'.schedulerThread.toList.map _).Perm _
      rw [cur', scheduler']
      by_cases first : w.sys.schedulerThread = none
      · simp only [cur, first, Option.toList_none, List.nil_append, List.map_nil,
          List.append_nil] at before
        rw [if_pos first]
        have count : (w.allocs.add w.sys.freeq.head.isNone scheduler).count =
            w.allocs.count + 1 := rfl
        rw [count, List.range_succ]
        change ((b :: run).map _ ++ w.exited ++ [scheduler].map _).Perm _
        rw [number_old absent, List.map_singleton, number_new]
        exact before.append_right _
      · rw [if_neg first]
        rw [cur, known first] at before
        exact before
    · simp [World.after, queues, resumes, cur', good.laws.fifo]
    · exact returns_woken good.laws cur' woken.woken
    · simpa [World.after, finishes, caller'] using good.laws.finished

theorem good_step {act : Act p} (good : ∃ run free, Good p w run free) (proper : Proper p w act) :
    ∃ w', happen p w act = some w' ∧ ∃ run free, Good p w' run free := by
  obtain ⟨run, free, good⟩ := good
  cases act with
  | work c =>
    obtain ⟨w', ran, good'⟩ := good_work good proper
    exact ⟨w', ran, run, free, good'⟩
  | fork a code arg =>
    obtain ⟨w', t, ran, good'⟩ := good_fork good proper
    exact ⟨w', ran, run ++ [t], free.tail, good'⟩
  | yield frame callee =>
    obtain ⟨w', run', ran, good'⟩ := good_yield good proper
    exact ⟨w', ran, run', free, good'⟩
  | exit =>
    obtain ⟨w', run', free', ran, good'⟩ := good_exit good proper
    exact ⟨w', ran, run', free', good'⟩
  | start frame callee a =>
    obtain ⟨w', run', free', ran, good'⟩ := good_start good proper
    exact ⟨w', ran, run', free', good'⟩

def boot (c : Cpu) : World :=
  { sys :=
      { cpu := c, runq := { head := none, tail := none, cnt := 0 },
        freeq := { head := none, tail := none, cnt := 0 }, curThread := none,
        schedulerThread := none, tid := 1, nalloced := 0, inCaller := true }
    allocs := { blocks := [], count := 0, number := fun _ => 0 }
    exited := [], queued := [], resumed := [], calls := fun _ => none, returns := [], finished := [] }

theorem good_boot (c : Cpu) : Good p (boot c) [] [] := by
  refine ⟨⟨⟨⟨?_, ?_, ?_, ?_⟩, ⟨holds_empty _, rfl⟩, ⟨holds_empty _, rfl⟩, List.Perm.refl _,
    List.nodup_nil, ?_⟩, ⟨rfl, rfl⟩, rfl, ?_, ?_, fun _ _ => rfl⟩, ⟨List.Perm.refl _, rfl, ?_, ?_⟩⟩
  all_goals simp [boot]

/-- What holds in every state between two calls. -/
structure Scheduled (w : World) (run free : List UInt32) : Prop where
  runq : Queue w.sys.cpu.mem w.sys.runq run
  freeq : Queue w.sys.cpu.mem w.sys.freeq free
  /-- Each allocated block is in exactly one place. -/
  places : (w.sys.curThread.toList ++ run ++ free ++ w.sys.schedulerThread.toList).Perm
    w.allocs.blocks
  nodup : w.allocs.blocks.Nodup
  nalloced : w.sys.nalloced.toNat = w.allocs.blocks.length
  ids : w.allocs.count ≤ 2 ^ 32 → ∀ a ∈ w.sys.curThread.toList ++ run,
    ∀ b ∈ w.sys.curThread.toList ++ run, a ≠ b →
      w.sys.cpu.mem (tidAt a) ≠ w.sys.cpu.mem (tidAt b)
  /-- Each thread has exited once, or is live and has not. -/
  lives : ((w.sys.curThread.toList ++ run).map w.allocs.number ++ w.exited ++
    w.sys.schedulerThread.toList.map w.allocs.number).Perm (List.range w.allocs.count)
  fifo : w.queued = w.resumed ++ run
  returned : ∀ s ∈ w.finished, s.curThread = none ∧ s.runq.head = none

theorem blocks_few {blocks : List UInt32} (nodup : blocks.Nodup) (nonzero : ∀ b ∈ blocks, b ≠ 0) :
    blocks.length < 2 ^ 32 := by
  have distinct : ((0 :: blocks).map UInt32.toNat).Nodup := by
    apply List.Nodup.map (fun a b => UInt32.toNat_inj.mp)
    exact List.nodup_cons.mpr ⟨fun inside => nonzero 0 inside rfl, nodup⟩
  have inside : (0 :: blocks).map UInt32.toNat ⊆ List.range (2 ^ 32) := by
    intro n member
    obtain ⟨b, -, rfl⟩ := List.mem_map.mp member
    exact List.mem_range.mpr b.toNat_lt
  have bound := (List.subperm_of_subset distinct inside).length_le
  simp only [List.map_cons, List.length_cons, List.length_map, List.length_range] at bound
  omega

theorem ids_distinct {k : Allocs} {a b : UInt32} (few : k.count ≤ 2 ^ 32)
    (one : k.number a < k.count) (two : k.number b < k.count) (other : k.number a ≠ k.number b) :
    UInt32.ofNat (1 + k.number a) ≠ UInt32.ofNat (1 + k.number b) := by
  intro same
  have values := congrArg UInt32.toNat same
  simp only [UInt32.toNat_ofNat'] at values
  omega

theorem Good.scheduled (good : Good p w run free) : Scheduled w run free := by
  have listed := good.core.listed
  have numbers := good.laws.numbers
  refine ⟨listed.runq, listed.freeq, ?_, listed.nodup, ?_, ?_, numbers, good.laws.fifo,
    good.laws.finished⟩
  · refine List.Perm.trans ?_ listed.split
    rw [List.perm_iff_count]
    intro b
    simp only [elsewhere, List.count_append]
    omega
  · have few := blocks_few listed.nodup listed.placed.nonzero
    rw [good.core.counted.nalloced, UInt32.toNat_ofNat', Nat.mod_eq_of_lt few]
  · intro few a one b two other
    have places : ∀ c ∈ w.sys.curThread.toList ++ run, c ∈ w.allocs.blocks ∧
        w.allocs.number c < w.allocs.count := by
      intro c inside
      constructor
      · obtain cur | queued := List.mem_append.mp inside
        · exact listed.mem_other (List.mem_append_left _ cur)
        · exact listed.mem_run queued
      · apply List.mem_range.mp
        apply numbers.subset
        exact List.mem_append_left _ (List.mem_append_left _ (List.mem_map_of_mem inside))
    have distinct : ((w.sys.curThread.toList ++ run).map w.allocs.number).Nodup := by
      have all := numbers.nodup_iff.mpr List.nodup_range
      exact (List.nodup_append.mp (List.nodup_append.mp all).1).1
    have numbers_other : w.allocs.number a ≠ w.allocs.number b :=
      fun same => other (List.inj_on_of_nodup_map distinct one two same)
    rw [listed.tids a (places a one).1, listed.tids b (places b two).1]
    exact ids_distinct few (places a one).2 (places b two).2 numbers_other

theorem run_good {c : Cpu} {acts : List (Act p)}
    (proper : Steps.Along (happen p) (Proper p) (boot c) acts) :
    ∃ w, Steps.exec (happen p) (boot c) acts = some w ∧ ∃ run free, Good p w run free :=
  Steps.along_exec (fun _ _ good proper => good_step good proper) ⟨[], [], good_boot c⟩ proper

/-- No run gets stuck, and all runs keep the threads as a scheduler has to. -/
theorem scheduler_keeps {c : Cpu} {acts : List (Act p)}
    (proper : Steps.Along (happen p) (Proper p) (boot c) acts) :
    ∃ w run free, Steps.exec (happen p) (boot c) acts = some w ∧ Scheduled w run free := by
  obtain ⟨w, ran, run, free, good⟩ := run_good proper
  exact ⟨w, run, free, ran, good.scheduled⟩

/-- Whatever the other threads do, a thread comes back from rpi_yield with what it had. -/
theorem yield_restores {c : Cpu} {acts : List (Act p)}
    (proper : Steps.Along (happen p) (Proper p) (boot c) acts) :
    ∃ w, Steps.exec (happen p) (boot c) acts = some w ∧
      ∀ r ∈ w.returns, Restored r.thread r.call r.after.cpu := by
  obtain ⟨w, ran, run, free, good⟩ := run_good proper
  exact ⟨w, ran, good.laws.returns⟩

end EmbeddedOS.Threads
