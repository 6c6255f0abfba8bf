import EmbeddedOS.EquivThreads.Trace
import EmbeddedOS.Steps.Run

/-! Every run of equiv_fork, equiv_refresh and equiv_run: the hash and the count of a thread that
exits are those of a solo run of its block. -/
namespace EmbeddedOS.EquivThreads
open Arm FullExcept Linked Steps

variable {P : Type} {kept : UInt32}

/-- The status of the code that forks and refreshes, of which its threads inherit these bits. -/
abbrev Caller (kept : UInt32) := { cpsr : UInt32 // cpsrInherit USER_MODE cpsr = kept }

/-- A call by that code, with the block where there is one, or an instruction of a thread. -/
inductive Act (kept : UInt32) where
  | fork (a fn arg expectedHash : UInt32) (cpsr : Caller kept)
  | forkNostack (a fn arg expectedHash : UInt32) (cpsr : Caller kept)
  | refresh (a : UInt32) (cpsr : Caller kept)
  | run
  | inst

/-- Calls are made while no thread runs, and a new block is at a new address. -/
def perform (p : Program P) (s : Sys P) : Act kept → Option (Sys P)
  | .fork a fn arg expectedHash cpsr =>
    if s.user.isNone ∧ (s.th a).isNone then equivFork p s a fn arg expectedHash cpsr.val else none
  | .forkNostack a fn arg expectedHash cpsr =>
    if s.user.isNone ∧ (s.th a).isNone then equivForkNostack p s a fn arg expectedHash cpsr.val
    else none
  | .refresh a cpsr => if s.user.isNone then equivRefresh p s a cpsr.val else none
  | .run => if s.user.isNone then equivRun s else none
  | .inst => instruction p s

def Act.starts : Act kept → Option UInt32
  | .fork a _ _ _ _ => some a
  | .forkNostack a _ _ _ _ => some a
  | .refresh a _ => some a
  | .run => none
  | .inst => none

structure Exit (P : Type) where
  thread : UInt32
  /-- The block and the private memory from which the thread ran. -/
  start : Th
  priv : P
  hash : UInt32
  count : UInt32

/-- The system with its history: where each thread last started, and the exits. -/
structure World (P : Type) where
  sys : Sys P
  started : UInt32 → Option (Th × P)
  exits : List (Exit P)

def exitOf (p : Program P) (w : World P) : Act kept → List (Exit P)
  | .inst =>
    match exiting p w.sys with
    | some (a, hash, count) =>
      ((w.started a).map fun start => ⟨a, start.1, start.2, hash, count⟩).toList
    | none => []
  | _ => []

def startOf (s : Sys P) (a : UInt32) : Option (Th × P) := (s.th a).map fun th => (th, s.priv a)

def happen (p : Program P) (w : World P) (act : Act kept) : Option (World P) :=
  (perform p w.sys act).map fun s =>
    { sys := s
      started := fun b => if act.starts = some b then startOf s b else w.started b
      exits := w.exits ++ exitOf p w act }

/-- A block is refreshed when it is not on the queue. -/
def Proper (w : World P) : Act kept → Prop
  | .refresh a _ => ∀ l, Holds w.sys.next w.sys.equivRunq l → a ∉ l
  | _ => True

def boot (priv : UInt32 → P) : World P :=
  { sys :=
      { th := fun _ => none, next := fun _ => none, equivRunq := Ends.empty, curThread := none,
        ntids := 1, singleStepOnP := false, bvr0 := 0, user := none, priv := priv, output := [] }
    started := fun _ => none
    exits := [] }

/-- The thread is where the solo run from its start once is. -/
def Life (p : Program P) (a : UInt32) (started : Option (Th × P)) (priv : P) (th : Th) (r : UserRegs)
    (bvr0 : UInt32) : Prop :=
  ∃ start s, started = some start ∧ SoloReaches p a start.1 start.2 s ∧ Solo s a th priv r bvr0

/-- A thread that is to go on where its block says. -/
def Waiting (p : Program P) (w : World P) (a : UInt32) : Prop :=
  ∃ th, w.sys.th a = some th ∧
    Life p a (w.started a) (w.sys.priv a) th th.regs (th.regs.val 15)

structure Queued (p : Program P) (w : World P) (l : List UInt32) : Prop where
  holds : Holds w.sys.next w.sys.equivRunq l
  waiting : ∀ b ∈ l, Waiting p w b
  running : ∀ r, w.sys.user = some r → w.sys.singleStepOnP = true ∧
    ∃ a th, w.sys.curThread = some a ∧ w.sys.th a = some th ∧ a ∉ l ∧
      Life p a (w.started a) (w.sys.priv a) th r w.sys.bvr0

structure Good (p : Program P) (w : World P) : Prop where
  queue : ∃ l, Queued p w l
  exits : ∀ e ∈ w.exits, SoloEnds p e.thread e.start e.priv e.hash e.count

theorem queued_resumed {p : Program P} {w : World P} {b : UInt32} {rest : List UInt32} {th : Th}
    (running : Running w.sys b th) (holds : Holds w.sys.next w.sys.equivRunq rest)
    (nodup : (b :: rest).Nodup) (waiting : ∀ c ∈ b :: rest, Waiting p w c) : Queued p w rest := by
  refine ⟨holds, fun c inside => waiting c (List.mem_cons_of_mem b inside), ?_⟩
  intro r user
  obtain ⟨th', block, life⟩ := waiting b List.mem_cons_self
  rw [running.block] at block
  cases block
  rw [running.user] at user
  cases user
  refine ⟨running.on, b, th, running.cur, running.block, (List.nodup_cons.mp nodup).1, ?_⟩
  rw [running.bvr0]
  exact life

theorem waiting_frame {p : Program P} {w w' : World P} {b : UInt32} (waiting : Waiting p w b)
    (block : w'.sys.th b = w.sys.th b) (priv : w'.sys.priv b = w.sys.priv b)
    (started : w'.started b = w.started b) : Waiting p w' b := by
  obtain ⟨th, found, life⟩ := waiting
  refine ⟨th, block.trans found, ?_⟩
  rw [started, priv]
  exact life

theorem exits_solo {p : Program P} {w : World P} {l : List UInt32} (queued : Queued p w l) :
    ∀ e ∈ exitOf p w (.inst : Act kept), SoloEnds p e.thread e.start e.priv e.hash e.count := by
  intro e inside
  unfold exitOf at inside
  cases exits : exiting p w.sys with
  | none => simp [exits] at inside
  | some x =>
    obtain ⟨b, hash, count⟩ := x
    obtain ⟨r, user⟩ := Option.ne_none_iff_exists'.mp (exiting_running exits)
    obtain ⟨-, a, th, cur, block, -, start, s, started, reached, solo⟩ := queued.running r user
    obtain ⟨rfl, rfl, rfl, r', priv, made, code⟩ := exiting_inst cur user block exits
    simp only [exits, started, Option.map_some, Option.toList_some, List.mem_singleton] at inside
    subst inside
    have leaves : exiting p s = some (b, th.regHash, th.instCnt) := by
      simp [exiting, solo.cur, solo.user, solo.block, solo.priv, made, code]
    exact reached.ends (.now leaves)

theorem good_inst {p : Program P} {w w' : World P} (good : Good p w)
    (happened : happen p w (.inst : Act kept) = some w') : Good p w' := by
  obtain ⟨t, ran, rfl⟩ := Option.map_eq_some_iff.mp happened
  change instruction p w.sys = some t at ran
  obtain ⟨l, queued⟩ := good.queue
  refine ⟨?_, ?_⟩
  · obtain ⟨r, user⟩ := Option.ne_none_iff_exists'.mp (instruction_running ran)
    obtain ⟨on, a, th, cur, block, fresh, start, s, started, reached, solo⟩ := queued.running r user
    rw [instruction_eq cur user block] at ran
    obtain ⟨e, does, done⟩ := Option.bind_eq_some_iff.mp ran
    have frame : ∀ b ∈ l, ∀ w', w'.sys.th b = w.sys.th b → w'.sys.priv b = w.sys.priv b →
        w'.started b = w.started b → Waiting p w' b :=
      fun b inside _ => waiting_frame (queued.waiting b inside)
    have apart : ∀ b ∈ l, b ≠ a := fun b inside same => fresh (same ▸ inside)
    cases e with
    | quiet r' q =>
      cases done
      obtain ⟨s', ran', solo'⟩ := solo.quiet does
      refine ⟨l, queued.holds, ?_, ?_⟩
      · intro b inside
        exact frame b inside _ rfl (Function.update_of_ne (apart b inside) _ _) rfl
      · intro r2 user2
        cases user2
        refine ⟨on, a, th, cur, block, fresh, start, s', started, reached.step ran', ?_⟩
        change Solo s' a th (Function.update w.sys.priv a q a) r' w.sys.bvr0
        rw [Function.update_self]
        exact solo'
    | yield th' q output =>
      obtain ⟨s', ran', solo'⟩ := solo.yield does
      let saved : Sys P := { w.sys with
        priv := Function.update w.sys.priv a q
        th := Function.update w.sys.th a (some th')
        output := w.sys.output ++ output }
      obtain ⟨b, rest, th2, order, running, holds, blocks, privs⟩ :=
        schedule_some (s := saved) queued.holds cur fresh done
      have nodup : (l ++ [a]).Nodup := by
        rw [← List.concat_eq_append]
        exact List.Nodup.concat fresh queued.holds.nodup
      rw [order] at nodup
      refine ⟨rest, queued_resumed running holds nodup ?_⟩
      rw [← order]
      intro c inside
      obtain before | here := List.mem_append.mp inside
      · refine frame c before _ ?_ ?_ rfl
        · simp [blocks, saved, apart c before]
        · simp [privs, saved, apart c before]
      · rw [List.mem_singleton] at here
        subst here
        refine ⟨th', by simp [blocks, saved], start, s', started, reached.step ran', ?_⟩
        simpa [privs, saved] using solo'
    | exit th' q =>
      let saved : Sys P := { w.sys with
        priv := Function.update w.sys.priv a q
        th := Function.update w.sys.th a (some th') }
      obtain ⟨blocks, privs, stopped | resumed⟩ := exit_some (s := saved) queued.holds done
      · obtain ⟨-, stopped, -, holds⟩ := stopped
        refine ⟨[], holds, by simp, ?_⟩
        intro r2 user2
        cases stopped.symm.trans user2
      · obtain ⟨b, rest, th2, rfl, running, holds⟩ := resumed
        refine ⟨rest, queued_resumed running holds queued.holds.nodup ?_⟩
        intro c inside
        refine frame c inside _ ?_ ?_ rfl
        · simp [blocks, saved, apart c inside]
        · simp [privs, saved, apart c inside]
  · intro e inside
    obtain before | here := List.mem_append.mp inside
    · exact good.exits e before
    · exact exits_solo queued e here

def startRegs (p : Program P) (kept : UInt32) (th : Th) : Regs := fun i =>
  if i = 0 then th.arg else if i = 15 then th.fn else if i = 13 then th.stackEnd
  else if i = 14 then p.sysEquivExit else if i = 16 then kept else 0

/-- A block that has not run yet. -/
structure Fresh (p : Program P) (kept : UInt32) (th : Th) : Prop where
  regs : th.regs.val = startRegs p kept th
  hash : th.regHash = 0
  count : th.instCnt = 0

def pushed (s : Sys P) (a : UInt32) (th : Th) (ntids : UInt32) : Sys P :=
  { s with
    th := Function.update s.th a (some th)
    ntids := ntids
    next := (push s.next s.equivRunq a).1
    equivRunq := (push s.next s.equivRunq a).2 }

/-- The fields that stay from one run of a block to the next. -/
structure SameBlock (th th' : Th) : Prop where
  fn : th'.fn = th.fn
  arg : th'.arg = th.arg
  stackEnd : th'.stackEnd = th.stackEnd

theorem regs_init {p : Program P} {th : Th} {cpsr : Caller kept}
    (made : th.regs = equivRegsInit p th.fn th.arg th.stackEnd cpsr.val) :
    th.regs.val = startRegs p kept th := by
  rw [made]
  funext i
  simp only [equivRegsInit, startRegs, cpsr.property]

theorem fork_some {p : Program P} {s t : Sys P} {a fn arg expectedHash : UInt32} {cpsr : Caller kept}
    (ran : equivFork p s a fn arg expectedHash cpsr.val = some t) :
    ∃ th, t = pushed s a th (s.ntids + 1) ∧ Fresh p kept th ∧ th.expectedHash = expectedHash := by
  simp only [equivFork, Option.bind_eq_bind, Option.bind_eq_some_iff] at ran
  obtain ⟨_, -, _, -, _, -, done⟩ := ran
  cases done
  exact ⟨_, rfl, ⟨regs_init rfl, rfl, rfl⟩, rfl⟩

theorem nostack_some {p : Program P} {s t : Sys P} {a fn arg expectedHash : UInt32}
    {cpsr : Caller kept} (ran : equivForkNostack p s a fn arg expectedHash cpsr.val = some t) :
    ∃ th, t = pushed s a th (s.ntids + 1) ∧ Fresh p kept th ∧ th.expectedHash = expectedHash := by
  simp only [equivForkNostack, Option.bind_eq_bind, Option.bind_eq_some_iff] at ran
  obtain ⟨forked, ran, th, found, done⟩ := ran
  obtain ⟨th', rfl, fresh, given⟩ := fork_some ran
  have same : th' = th := by simpa [pushed] using found
  subst same
  cases done
  let bare : Th := { th' with
    regs := ⟨Function.update th'.regs.val 13 0, th'.regs.property⟩, stackStart := 0, stackEnd := 0 }
  refine ⟨bare, by simp [pushed, bare], ⟨?_, fresh.hash, fresh.count⟩, given⟩
  funext i
  simp only [bare, fresh.regs, startRegs, Function.update_apply]
  split_ifs <;> simp_all

theorem refresh_some {p : Program P} {s t : Sys P} {a : UInt32} {cpsr : Caller kept}
    (ran : equivRefresh p s a cpsr.val = some t) :
    ∃ old th, s.th a = some old ∧ t = pushed s a th s.ntids ∧ Fresh p kept th ∧ SameBlock old th ∧
      th.expectedHash = old.expectedHash := by
  simp only [equivRefresh, Option.bind_eq_bind, Option.bind_eq_some_iff] at ran
  obtain ⟨old, found, _, -, done⟩ := ran
  cases done
  exact ⟨old, _, found, rfl, ⟨regs_init rfl, rfl, rfl⟩, ⟨rfl, rfl, rfl⟩, rfl⟩

def Act.gives : Act kept → Option (UInt32 × UInt32)
  | .fork a _ _ expectedHash _ => some (a, expectedHash)
  | .forkNostack a _ _ expectedHash _ => some (a, expectedHash)
  | _ => none

theorem starts_some {p : Program P} {s t : Sys P} {act : Act kept} {a : UInt32}
    (starts : act.starts = some a) (ran : perform p s act = some t) :
    s.user = none ∧ ∃ th ntids, t = pushed s a th ntids ∧ Fresh p kept th ∧
      ((s.th a = none ∧ act.gives = some (a, th.expectedHash)) ∨
        ∃ cpsr old, act = .refresh a cpsr ∧ s.th a = some old ∧ SameBlock old th ∧
          th.expectedHash = old.expectedHash) := by
  cases act with
  | fork b fn arg h cpsr =>
    cases starts
    simp only [perform, Option.isNone_iff_eq_none] at ran
    split_ifs at ran with first
    obtain ⟨th, same, fresh, rfl⟩ := fork_some ran
    exact ⟨first.1, th, _, same, fresh, Or.inl ⟨first.2, rfl⟩⟩
  | forkNostack b fn arg h cpsr =>
    cases starts
    simp only [perform, Option.isNone_iff_eq_none] at ran
    split_ifs at ran with first
    obtain ⟨th, same, fresh, rfl⟩ := nostack_some ran
    exact ⟨first.1, th, _, same, fresh, Or.inl ⟨first.2, rfl⟩⟩
  | refresh b cpsr =>
    cases starts
    simp only [perform, Option.isNone_iff_eq_none] at ran
    split_ifs at ran with idle
    obtain ⟨old, th, found, same, fresh, block, expected⟩ := refresh_some ran
    exact ⟨idle, th, _, same, fresh, Or.inr ⟨cpsr, old, rfl, found, block, expected⟩⟩
  | run => cases starts
  | inst => cases starts

theorem good_starts {p : Program P} {w w' : World P} {act : Act kept} {a : UInt32} (good : Good p w)
    (proper : Proper w act) (starts : act.starts = some a) (happened : happen p w act = some w') :
    Good p w' := by
  obtain ⟨t, ran, rfl⟩ := Option.map_eq_some_iff.mp happened
  obtain ⟨idle, th, ntids, rfl, fresh, origin⟩ := starts_some starts ran
  obtain ⟨l, queued⟩ := good.queue
  have outside : a ∉ l := by
    obtain ⟨absent, -⟩ | ⟨cpsr, old, rfl, -⟩ := origin
    · intro inside
      obtain ⟨th', found, -⟩ := queued.waiting a inside
      rw [absent] at found
      cases found
    · exact proper l queued.holds
  have none_exit : exitOf p w act = [] := by
    cases act <;> first | rfl | cases starts
  refine ⟨⟨a :: l, push_holds queued.holds outside, ?_, ?_⟩, ?_⟩
  · intro b inside
    by_cases same : b = a
    · subst same
      obtain ⟨s, begins, solo⟩ := alone_runs b th (w.sys.priv b)
      have block : (pushed w.sys b th ntids).th b = some th := Function.update_self ..
      refine ⟨th, block, (th, w.sys.priv b), s, ?_, ⟨s, begins, .refl⟩, solo⟩
      simp only [starts, if_true, startOf, block, Option.map_some]
      rfl
    · have before : b ∈ l := List.mem_of_ne_of_mem same inside
      apply waiting_frame (queued.waiting b before)
      · exact Function.update_of_ne same _ _
      · rfl
      · simp [starts, Ne.symm same]
  · intro r user
    change w.sys.user = some r at user
    rw [idle] at user
    cases user
  · rw [none_exit, List.append_nil]
    exact good.exits

theorem good_run {p : Program P} {w w' : World P} (good : Good p w)
    (happened : happen p w (.run : Act kept) = some w') : Good p w' := by
  obtain ⟨t, ran, rfl⟩ := Option.map_eq_some_iff.mp happened
  simp only [perform] at ran
  split_ifs at ran with idle
  obtain ⟨l, queued⟩ := good.queue
  obtain ⟨b, rest, th, rfl, running, holds, blocks, privs⟩ := run_some queued.holds ran
  refine ⟨⟨rest, queued_resumed running holds queued.holds.nodup ?_⟩, ?_⟩
  · intro c inside
    exact waiting_frame (queued.waiting c inside) (by rw [blocks]) (by rw [privs]) rfl
  · simpa [exitOf] using good.exits

theorem good_step {p : Program P} (w : World P) (act : Act kept) (w' : World P) (good : Good p w)
    (proper : Proper w act) (happened : happen p w act = some w') : Good p w' := by
  cases act with
  | fork => exact good_starts good proper rfl happened
  | forkNostack => exact good_starts good proper rfl happened
  | refresh => exact good_starts good proper rfl happened
  | run => exact good_run good happened
  | inst => exact good_inst good happened

theorem good_boot (p : Program P) (priv : UInt32 → P) : Good p (boot priv) := by
  refine ⟨⟨[], holds_empty _, by simp, ?_⟩, by simp [boot]⟩
  intro r user
  cases user

end EmbeddedOS.EquivThreads
