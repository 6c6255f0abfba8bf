import EmbeddedOS.Threads.Wrap

/-! The first run of a thread: what its code is called with, and on which stack. -/
namespace EmbeddedOS.Threads
open Arm Linked Steps

variable {p : Image} {w w' : World} {run free : List UInt32} {t code arg : UInt32}

def Reached (p : Image) (w : World) : Prop :=
  ∃ c acts, Along (happen p) (Proper p) (boot c) acts ∧ exec (happen p) (boot c) acts = some w

/-- The thread has been forked with this code and this argument, and has not run since. -/
inductive Waiting (p : Image) (t code arg : UInt32) : World → Prop where
  | fork {w w' : World} {a : UInt32} : Reached p w → Proper p w (.fork a code arg) →
      happen p w (.fork a code arg) = some w' → w'.sys.cpu.r0 = t → Waiting p t code arg w'
  | step {w w' : World} {act : Act p} : Waiting p t code arg w → Proper p w act →
      happen p w act = some w' → wakes w'.sys act ≠ some t → Waiting p t code arg w'

/-- The first switch to the thread. -/
def FirstSwitch (p : Image) (t code arg : UInt32) (w' : World) : Prop :=
  ∃ w act, Waiting p t code arg w ∧ Proper p w act ∧ happen p w act = some w' ∧
    wakes w'.sys act = some t

/-- The code is called in its thread, on the stack of the thread, and returns to the branch to
`rpi_exit`. -/
structure Entered (p : Image) (t code arg : UInt32) (w : World) : Prop where
  running : w.sys.curThread = some t
  code : w.sys.cpu.pc = code
  arg : w.sys.cpu.r0 = arg
  inside : ∃ i < THREAD_MAXSTACK, w.sys.cpu.sp = stackAt t i
  exits : w.sys.cpu.callee LR_OFFSET = p.toExit

/-- And the stack pointer is a multiple of 8, as the calling convention wants it. -/
structure FirstRun (p : Image) (t code arg : UInt32) (w : World) : Prop
    extends Entered p t code arg w where
  aligned : w.sys.cpu.sp % 8 = 0

theorem happen_cases {act : Act p} (happened : happen p w act = some w') :
    ∃ s, perform p w.sys act = some s ∧ w' = w.after act s := by
  obtain ⟨s, ran, same⟩ := Option.map_eq_some_iff.mp happened
  exact ⟨s, ran, same.symm⟩

/-- A step leaves the queued threads as they are, and goes on in one where it stopped. -/
theorem step_queued {act : Act p} (good : Good p w run free) (proper : Proper p w act)
    (happened : happen p w act = some w') : Kept run w.sys.cpu.mem w'.sys.cpu.mem ∧
      ∀ t ∈ run, wakes w'.sys act = some t → Arrived p t w'.sys.cpu (w.calls t) := by
  obtain ⟨s', ran, rfl⟩ := happen_cases happened
  cases act with
  | work c =>
    cases ran
    exact ⟨work_kept good.core proper, nofun⟩
  | fork a code arg =>
    obtain ⟨t, s, -, forked, -, -, -, -, -, -, -, kept, -⟩ :=
      @fork_core p w.sys w.allocs w.calls run free a code arg good.core proper
    cases forked.symm.trans ran
    exact ⟨kept, nofun⟩
  | yield frame callee =>
    obtain ⟨t, j, cur, room, framed⟩ := proper
    cases run with
    | nil => exact ⟨nofun, nofun⟩
    | cons b run =>
      obtain ⟨s, yielded, cur', -, -, woken, kept, -⟩ := yield_core good.core cur room framed
      cases yielded.symm.trans ran
      refine ⟨kept, fun c _ wakes_c => ?_⟩
      cases cur'.symm.trans wakes_c
      exact woken
  | exit =>
    obtain ⟨t, j, cur, room, sp⟩ := proper
    cases run with
    | nil => exact ⟨nofun, nofun⟩
    | cons b run =>
      obtain ⟨s, exited, cur', -, -, woken, kept, -⟩ := exit_core good.core cur room sp
      cases exited.symm.trans ran
      refine ⟨kept, fun c _ wakes_c => ?_⟩
      cases cur'.symm.trans wakes_c
      exact woken
  | start frame callee a =>
    obtain ⟨caller, ⟨base, stack, framed⟩, fresh⟩ := proper
    cases run with
    | nil => exact ⟨nofun, nofun⟩
    | cons b run =>
      obtain ⟨s, scheduler, free', started, cur', -, -, woken, kept, -⟩ :=
        start_core good.core caller stack framed fresh
      cases started.symm.trans ran
      refine ⟨kept, fun c _ wakes_c => ?_⟩
      cases cur'.symm.trans wakes_c
      exact woken

theorem stays_queued {act : Act p} {run' free' : List UInt32} (good : Good p w run free)
    (good' : Good p w' run' free') (happened : happen p w act = some w') (inside : t ∈ run)
    (other : wakes w'.sys act ≠ some t) : t ∈ run' := by
  obtain ⟨s, -, rfl⟩ := happen_cases happened
  have not_resumed : t ∉ (resumes w.sys s act).toList := by
    intro resumed
    apply other
    have woken := Option.mem_toList.mp resumed
    cases act with
    | yield frame callee =>
      simp only [resumes] at woken
      split_ifs at woken
      exact woken
    | work c => cases woken
    | fork a code arg => cases woken
    | exit => exact woken
    | start frame callee a => exact woken
  have queue := good'.laws.fifo
  simp only [World.after, good.laws.fifo, List.append_assoc, List.append_cancel_left_eq] at queue
  have somewhere : t ∈ run ++ (queues w.sys s act).toList := List.mem_append_left _ inside
  rw [queue] at somewhere
  exact (List.mem_append.mp somewhere).resolve_left not_resumed

/-- What is known of a thread while it waits for its first run. -/
structure Queued (p : Image) (t code arg : UInt32) (w : World) (run : List UInt32) : Prop where
  inside : t ∈ run
  new : w.calls t = none
  fn : w.sys.cpu.mem (fnAt t) = code
  arg : w.sys.cpu.mem (argAt t) = arg

theorem calls_kept {act : Act p} {s : Sys} (good : Good p w run free) (inside : t ∈ run)
    (new : w.calls t = none) : (w.after act s).calls t = none := by
  change (if wakes s act = some t then none else callsOf w s act t) = none
  split_ifs
  · rfl
  · cases act with
    | yield frame callee =>
      have other : w.sys.curThread ≠ some t :=
        fun cur => good.core.run_not_cur cur inside rfl
      exact (if_neg other).trans new
    | work c => exact new
    | fork a code arg => exact new
    | exit => exact new
    | start frame callee a => exact new

theorem reached_good (reached : Reached p w) : ∃ run free, Good p w run free := by
  obtain ⟨c, acts, along, ran⟩ := reached
  obtain ⟨w'', ran', good⟩ := run_good along
  cases ran.symm.trans ran'
  exact good

theorem step_good {act : Act p} (good : ∃ run free, Good p w run free) (proper : Proper p w act)
    (happened : happen p w act = some w') : ∃ run free, Good p w' run free := by
  obtain ⟨w'', happened', good'⟩ := good_step good proper
  cases happened.symm.trans happened'
  exact good'

theorem waiting_queued (waiting : Waiting p t code arg w) :
    ∃ run free, Good p w run free ∧ Queued p t code arg w run := by
  induction waiting with
  | @fork w w' a reached proper happened chosen =>
    obtain ⟨run, free, good⟩ := reached_good reached
    obtain ⟨run', free', good'⟩ := step_good ⟨run, free, good⟩ proper happened
    obtain ⟨t', s, -, forked, taken, -, -, absent, -, -, ⟨fn, argument⟩, -, -⟩ :=
      @fork_core p w.sys w.allocs w.calls run free a code arg good.core proper
    have happened' : happen p w (.fork a code arg) = some (w.after (.fork a code arg) s) :=
      happen_some forked
    cases happened'.symm.trans happened
    have same : t' = t := taken.symm.trans chosen
    subst same
    have queue := good'.laws.fifo
    simp only [World.after, queues, resumes, Option.toList_some, Option.toList_none, taken,
      good.laws.fifo, List.append_assoc, List.append_nil, List.append_cancel_left_eq] at queue
    refine ⟨run', free', good', ?_, ?_, fn, argument⟩
    · rw [← queue]
      exact List.mem_append_right _ List.mem_cons_self
    · exact good.core.idle t' fun inside => absent (List.mem_append_left _ inside)
  | @step w w' act waiting proper happened other ih =>
    obtain ⟨run, free, good, queued⟩ := ih
    obtain ⟨run', free', good'⟩ := step_good ⟨run, free, good⟩ proper happened
    obtain ⟨kept, -⟩ := step_queued good proper happened
    refine ⟨run', free', good', stays_queued good good' happened queued.inside other, ?_, ?_, ?_⟩
    · obtain ⟨s, -, rfl⟩ := happen_cases happened
      exact calls_kept good queued.inside queued.new
    · exact (kept t queued.inside 3 (by decide) (by decide)).trans queued.fn
    · exact (kept t queued.inside 4 (by decide) (by decide)).trans queued.arg

theorem sp_off {t : UInt32} (aligned : t % 8 = 0) : stackAt t 2037 % 8 = 4 := by
  have start : stackAt t 2037 = t + 8172 := by
    unfold stackAt word
    rfl
  have multiple := congrArg UInt32.toNat aligned
  rw [start, ← UInt32.toNat_inj]
  rw [UInt32.toNat_mod] at multiple ⊢
  rw [UInt32.toNat_add]
  simp only [UInt32.reduceToNat] at multiple ⊢
  omega

/-- Whatever runs between the fork and the first switch, the code is called with its argument, on
its own stack: the sp is the end of the nine words from slot 2028 on. -/
theorem first_entered (first : FirstSwitch p t code arg w) :
    Entered p t code arg w ∧ w.sys.cpu.sp = stackAt t 2037 ∧ t % 8 = 0 ∧
      ∃ run free, Good p w run free := by
  obtain ⟨before, act, waiting, proper, happened, switched⟩ := first
  obtain ⟨run, free, good, queued⟩ := waiting_queued waiting
  obtain ⟨kept, wakes⟩ := step_queued good proper happened
  have woken := wakes t queued.inside switched
  rw [queued.new] at woken
  obtain ⟨⟨pc, r0, sp⟩, lr⟩ := woken
  have fn := (kept t queued.inside 3 (by decide) (by decide)).trans queued.fn
  have argument := (kept t queued.inside 4 (by decide) (by decide)).trans queued.arg
  have aligned := good.core.listed.placed.aligned t (good.core.listed.mem_run queued.inside)
  refine ⟨⟨?_, pc.trans fn, r0.trans argument, ⟨2037, by decide, sp⟩, lr rfl⟩, sp, aligned,
    step_good ⟨run, free, good⟩ proper happened⟩
  cases act with
  | work c => cases switched
  | fork a code arg => cases switched
  | yield frame callee => exact switched
  | exit => exact switched
  | start frame callee a => exact switched

/-- Nine words are popped from a slot with an even number, of a stack that is aligned. -/
theorem never_aligned (first : FirstSwitch p t code arg w) : ¬ FirstRun p t code arg w := by
  obtain ⟨-, sp, aligned, -⟩ := first_entered first
  intro right
  have off := sp_off aligned
  rw [← sp, right.aligned] at off
  exact absurd off (by decide)

theorem code_returns (first : FirstSwitch p t code arg w) {acts : List (Act p)}
    (proper : Along (happen p) (Proper p) w acts) (later : exec (happen p) w acts = some w')
    (running : w'.sys.curThread = some t) (pc : w'.sys.cpu.pc = w.sys.cpu.callee LR_OFFSET)
    (sp : w'.sys.cpu.sp = w.sys.cpu.sp) : w'.sys.cpu.pc = p.toExit ∧
      ∃ w'', happen p w' .exit = some w'' ∧ w''.exited = w'.exited ++ [w'.allocs.number t] := by
  obtain ⟨entered, top, -, good⟩ := first_entered first
  obtain ⟨w1, later', run, free, good'⟩ :=
    along_exec (fun _ _ good proper => good_step good proper) good proper
  cases later.symm.trans later'
  have exits : Proper p w' .exit := ⟨t, 2028, running, by decide, sp.trans top⟩
  obtain ⟨w'', run', free', happened, -⟩ := good_exit good' exits
  refine ⟨pc.trans entered.exits, w'', happened, ?_⟩
  obtain ⟨s, -, rfl⟩ := happen_cases happened
  simp only [World.after, running, Option.map_some, Option.toList_some]

theorem first_switch_happens : ∃ w, FirstSwitch image blockA 0x8400 7 w := by
  obtain ⟨w1, w2, proper1, happened1, taken, proper2, happened2, switched, -⟩ :=
    first_steps 0x8400 7
  have reached : Reached image (boot firstCpu) := ⟨firstCpu, [], trivial, rfl⟩
  exact ⟨w2, w1, startIn w1, .fork reached proper1 happened1 taken, proper2, happened2, switched⟩

theorem first_off :
    ∃ w, FirstSwitch image blockA 0x8400 7 w ∧ ¬ FirstRun image blockA 0x8400 7 w := by
  obtain ⟨w, first⟩ := first_switch_happens
  exact ⟨w, first, never_aligned first⟩

theorem code_misaligned : ¬ ∀ w, FirstSwitch image blockA 0x8400 7 w →
    FirstRun image blockA 0x8400 7 w := by
  intro right
  obtain ⟨w, first⟩ := first_switch_happens
  have aligned := (right w first).aligned
  rw [(first_entered first).2.1] at aligned
  exact absurd aligned (by decide)

end EmbeddedOS.Threads
