import EmbeddedOS.EquivThreads.Expected
import EmbeddedOS.Steps.Turns

/-! The order in which the threads of equiv-threads.c have their turns, in every run of forks,
refreshes, instructions and exits. -/
namespace EmbeddedOS.EquivThreads
open Linked Steps

variable {P : Type}

/-- An operation on the threads, with the block and the status of the caller where there is one. -/
inductive Op where
  | fork (a fn arg expectedHash cpsr : UInt32)
  | forkNostack (a fn arg expectedHash cpsr : UInt32)
  | refresh (a cpsr : UInt32)
  | run
  | inst
deriving DecidableEq

/-- A new block is at a new address. Forks and refreshes may come between any two instructions. -/
def operate (p : Program P) (s : Sys P) : Op → Option (Sys P)
  | .fork a fn arg expectedHash cpsr =>
    if (s.th a).isNone then equivFork p s a fn arg expectedHash cpsr else none
  | .forkNostack a fn arg expectedHash cpsr =>
    if (s.th a).isNone then equivForkNostack p s a fn arg expectedHash cpsr else none
  | .refresh a cpsr => equivRefresh p s a cpsr
  | .run => if s.user.isNone then equivRun s else none
  | .inst => instruction p s

def Op.forks : Op → Option UInt32
  | .fork a _ _ _ _ => some a
  | .forkNostack a _ _ _ _ => some a
  | _ => none

def enters (p : Program P) (s : Sys P) : Bool :=
  match s.curThread, s.user with
  | some cur, some r =>
    match p.inst cur r (s.priv cur) with
    | .next r _ => r.val 15 != s.bvr0
    | _ => true
  | _, _ => false

/-- The turn that begins with the registers of the current thread in the machine. -/
def begun (t : Sys P) : List (Turn UInt32) :=
  if t.user.isSome then t.curThread.toList.map .turn else []

def turnsOf (p : Program P) (s t : Sys P) : Op → List (Turn UInt32)
  | .fork a _ _ _ _ => [.join a]
  | .forkNostack a _ _ _ _ => [.join a]
  | .refresh a _ => [.join a]
  | .run => begun t
  | .inst =>
    (exiting p s).toList.map (fun e => .leave e.1) ++ if enters p s then begun t else []

structure Turns (P : Type) where
  sys : Sys P
  trace : List (Turn UInt32)

def take (p : Program P) (w : Turns P) (op : Op) : Option (Turns P) :=
  (operate p w.sys op).map fun t => ⟨t, w.trace ++ turnsOf p w.sys t op⟩

/-- Only a thread that has exited is refreshed. -/
def Exited (w : Turns P) : Op → Prop
  | .refresh a _ => a ∉ live w.trace
  | _ => True

def powerOn (priv : UInt32 → P) : Turns P := ⟨(boot priv).sys, []⟩

def running (s : Sys P) : Option UInt32 := if s.user.isSome then s.curThread else none

/-- The queue and the running thread are those of a rota that had the same turns. -/
structure Rotates (w : Turns P) (m : Rota UInt32) : Prop where
  ran : exec Rota.step Rota.start w.trace = some m
  queue : Holds w.sys.next w.sys.equivRunq m.queue
  running : m.running = running w.sys
  blocks : ∀ a ∈ m.order, w.sys.th a ≠ none
  user : w.sys.user ≠ none → w.sys.curThread ≠ none

def Effect.turns (a : UInt32) (t : Sys P) : Effect P → List (Turn UInt32)
  | .quiet _ _ => []
  | .yield _ _ _ => begun t
  | .exit _ _ => .leave a :: begun t

section Steps

variable {p : Program P} {w w' : Turns P} {m : Rota UInt32}

theorem forks_some {s t : Sys P} {op : Op} {a : UInt32} (forks : op.forks = some a)
    (ran : operate p s op = some t) : s.th a = none ∧ ∃ th, t = pushed s a th (s.ntids + 1) := by
  cases op with
  | fork b fn arg expectedHash cpsr =>
    cases forks
    simp only [operate, Option.isNone_iff_eq_none] at ran
    split_ifs at ran with first
    let caller : Caller (cpsrInherit FullExcept.USER_MODE cpsr) := ⟨cpsr, rfl⟩
    change equivFork p s a fn arg expectedHash caller.val = some t at ran
    obtain ⟨th, same, _⟩ := fork_some ran
    exact ⟨first, th, same⟩
  | forkNostack b fn arg expectedHash cpsr =>
    cases forks
    simp only [operate, Option.isNone_iff_eq_none] at ran
    split_ifs at ran with first
    let caller : Caller (cpsrInherit FullExcept.USER_MODE cpsr) := ⟨cpsr, rfl⟩
    change equivForkNostack p s a fn arg expectedHash caller.val = some t at ran
    obtain ⟨th, same, _⟩ := nostack_some ran
    exact ⟨first, th, same⟩
  | refresh => cases forks
  | run => cases forks
  | inst => cases forks

theorem turns_of_effect {s t : Sys P} {a : UInt32} {r : UserRegs} {th : Th} {e : Effect P}
    (cur : s.curThread = some a) (user : s.user = some r) (block : s.th a = some th)
    (does : effect p a th r (s.priv a) s.bvr0 = some e) :
    turnsOf p s t .inst = e.turns a t := by
  simp only [turnsOf, Effect.turns, exiting, enters, cur, user, block, Option.bind_eq_bind, Option.bind_some]
  unfold effect at does
  cases made : p.inst a r (s.priv a) with
  | next r' priv =>
    simp only [made] at does
    split_ifs at does with same
    · cases does
      simp [same]
    · cases does
      simp [same]
  | swi r' priv =>
    simp only [made] at does
    obtain ⟨_, _, does⟩ := Option.bind_eq_some_iff.mp does
    split_ifs at does with putc exits
    · cases does
      have other : r'.val 0 ≠ EQUIV_EXIT := by
        rw [putc]
        decide
      simp [other]
    · obtain ⟨_, _, rfl⟩ := Option.map_eq_some_iff.mp does
      simp [exits]
  | fault =>
    simp only [made] at does
    cases does

theorem begun_running {t : Sys P} {b : UInt32} {th : Th} (going : Running t b th) :
    begun t = [.turn b] := by
  simp [begun, going.user, going.cur]

theorem running_running {t : Sys P} {b : UInt32} {th : Th} (going : Running t b th) :
    running t = some b := by
  simp [running, going.user, going.cur]

theorem Rotates.members (h : Rotates w m) :
    m.order.Nodup ∧ live w.trace = m.order.toFinset := by
  have none_yet : (Rota.start : Rota UInt32).order.Nodup := List.nodup_nil
  exact Rota.live_order none_yet h.ran

theorem exec_snoc {s t : Rota UInt32} {trace : List (Turn UInt32)} {e : Turn UInt32}
    (ran : exec Rota.step Rota.start trace = some s) (one : s.step e = some t) :
    exec Rota.step Rota.start (trace ++ [e]) = some t :=
  exec_append ran (by simp [exec, one])

theorem rotates_join {a : UInt32} {th : Th} {ntids : UInt32} (h : Rotates w m) (fresh : a ∉ m.order) :
    Rotates ⟨pushed w.sys a th ntids, w.trace ++ [.join a]⟩ { m with queue := a :: m.queue } where
  ran := exec_snoc h.ran (Rota.join_some.mpr ⟨fresh, rfl⟩)
  queue := push_holds h.queue fun inside => fresh (List.mem_append_left _ inside)
  running := h.running
  blocks := by
    intro b inside
    change Function.update w.sys.th a (some th) b ≠ none
    by_cases same : b = a
    · rw [same, Function.update_self]
      exact Option.some_ne_none th
    · rw [Function.update_of_ne same]
      exact h.blocks b ((List.mem_cons.mp inside).resolve_left same)
  user := h.user

theorem rotates_turn {t : Sys P} {b : UInt32} {rest : List UInt32} {th : Th} {trace : List (Turn UInt32)}
    (ran : exec Rota.step Rota.start trace = some m) (order : m.order = b :: rest)
    (going : Running t b th) (queue : Holds t.next t.equivRunq rest)
    (blocks : ∀ c ∈ m.order, t.th c ≠ none) :
    Rotates ⟨t, trace ++ [.turn b]⟩ ⟨some b, rest⟩ where
  ran := exec_snoc ran (Rota.turn_some.mpr ⟨order, rfl⟩)
  queue := queue
  running := (running_running going).symm
  blocks := by
    intro c inside
    apply blocks
    rw [order, List.mem_cons]
    exact (List.mem_append.mp inside).symm.imp_left List.mem_singleton.mp
  user := fun _ => by simp [going.cur]

theorem rotates_inst {t : Sys P} (h : Rotates w m) (ran : instruction p w.sys = some t) :
    ∃ m', Rotates ⟨t, w.trace ++ turnsOf p w.sys t .inst⟩ m' := by
  obtain ⟨r, user⟩ := Option.ne_none_iff_exists'.mp (instruction_running ran)
  obtain ⟨a, cur⟩ := Option.ne_none_iff_exists'.mp (h.user (by simp [user]))
  have here : m.running = some a := by
    rw [h.running]
    simp [running, user, cur]
  have order : m.order = m.queue ++ [a] := by
    rw [Rota.order, here]
    rfl
  have nodup := h.members.1
  have fresh : a ∉ m.queue := by
    rw [order] at nodup
    exact fun inside => List.disjoint_of_nodup_append nodup inside (List.mem_singleton_self a)
  obtain ⟨th, block⟩ := Option.ne_none_iff_exists'.mp (h.blocks a (by simp [order]))
  have kept : ∀ th' : Th, ∀ c ∈ m.order, Function.update w.sys.th a (some th') c ≠ none := by
    intro th' c inside
    rw [Function.update_apply]
    split_ifs
    · exact Option.some_ne_none th'
    · exact h.blocks c inside
  rw [instruction_eq cur user block] at ran
  obtain ⟨e, does, done⟩ := Option.bind_eq_some_iff.mp ran
  rw [turns_of_effect cur user block does]
  cases e with
  | quiet r' q =>
    cases done
    refine ⟨m, ?_, h.queue, ?_, h.blocks, fun _ => h.user (by simp [user])⟩
    · simp only [Effect.turns, List.append_nil]
      exact h.ran
    · rw [h.running]
      simp [running, user]
  | yield th' q output =>
    let saved : Sys P := { w.sys with
      priv := Function.update w.sys.priv a q
      th := Function.update w.sys.th a (some th')
      output := w.sys.output ++ output }
    obtain ⟨b, rest, th2, split, going, queue, blocks, _⟩ :=
      schedule_some (s := saved) h.queue cur fresh done
    simp only [Effect.turns, begun_running going]
    refine ⟨_, rotates_turn h.ran (order.trans split) going queue ?_⟩
    rw [blocks]
    exact kept th'
  | exit th' q =>
    let saved : Sys P := { w.sys with
      priv := Function.update w.sys.priv a q
      th := Function.update w.sys.th a (some th') }
    obtain ⟨blocks, _, ends⟩ := exit_some (s := saved) h.queue done
    have gone : Rota.step m (.leave a) = some ⟨none, m.queue⟩ :=
      Rota.leave_some.mpr ⟨here, rfl⟩
    have left := exec_snoc h.ran gone
    have others : ∀ c ∈ m.queue, t.th c ≠ none := by
      intro c inside
      rw [blocks]
      exact kept th' c (List.mem_append_left _ inside)
    obtain ⟨empty, stopped, _, queue⟩ | ⟨b, rest, th2, split, going, queue⟩ := ends
    · have idle : begun t = [] := by simp [begun, stopped]
      simp only [Effect.turns, idle]
      refine ⟨_, left, ?_, ?_, ?_, ?_⟩
      · rw [empty]
        exact queue
      · simp [running, stopped]
      · simp [Rota.order, empty]
      · simp [stopped]
    · have next : (⟨none, m.queue⟩ : Rota UInt32).order = b :: rest := by
        simp [Rota.order, split]
      simp only [Effect.turns, begun_running going]
      rw [List.append_cons]
      refine ⟨_, rotates_turn left next going queue ?_⟩
      intro c inside
      apply others
      simpa [Rota.order] using inside

theorem rotates_step {op : Op} (h : Rotates w m) (exited : Exited w op)
    (took : take p w op = some w') : ∃ m', Rotates w' m' := by
  obtain ⟨t, ran, rfl⟩ := Option.map_eq_some_iff.mp took
  cases op with
  | fork a =>
    obtain ⟨first, th, rfl⟩ := forks_some rfl ran
    exact ⟨_, rotates_join h fun inside => h.blocks a inside first⟩
  | forkNostack a =>
    obtain ⟨first, th, rfl⟩ := forks_some rfl ran
    exact ⟨_, rotates_join h fun inside => h.blocks a inside first⟩
  | refresh a cpsr =>
    let caller : Caller (cpsrInherit FullExcept.USER_MODE cpsr) := ⟨cpsr, rfl⟩
    change equivRefresh p w.sys a caller.val = some t at ran
    obtain ⟨_, th, _, rfl, _⟩ := refresh_some ran
    refine ⟨_, rotates_join h fun inside => exited ?_⟩
    rw [h.members.2]
    exact List.mem_toFinset.mpr inside
  | run =>
    simp only [operate, Option.isNone_iff_eq_none] at ran
    split_ifs at ran with idle
    obtain ⟨b, rest, th, split, going, queue, blocks, _⟩ := run_some h.queue ran
    have order : m.order = b :: rest := by
      rw [Rota.order, h.running]
      simp [running, idle, split]
    simp only [turnsOf, begun_running going]
    refine ⟨_, rotates_turn h.ran order going queue ?_⟩
    rw [blocks]
    exact h.blocks
  | inst => exact rotates_inst h ran

theorem run_rotates {priv : UInt32 → P} {ops : List Op}
    (exited : Along (take p) Exited (powerOn priv) ops)
    (ran : exec (take p) (powerOn priv) ops = some w) : ∃ m, Rotates w m := by
  have initial : ∃ m, Rotates (powerOn priv) m :=
    ⟨Rota.start, rfl, holds_empty _, rfl, by simp [Rota.start, Rota.order], by simp [powerOn, boot]⟩
  have kept : ∀ w op w', (∃ m, Rotates w m) → Exited w op → take p w op = some w' →
      ∃ m, Rotates w' m := by
    rintro w op w' ⟨m, h⟩ exited took
    exact rotates_step h exited took
  exact exec_along kept initial exited ran

end Steps

/-- The live threads are the running one, if there is one, and those on the queue, each once. -/
def LiveQueued (w : Turns P) (current : Option UInt32) : Prop :=
  ∃ l, Holds w.sys.next w.sys.equivRunq l ∧ (current.toList ++ l).Nodup ∧
    live w.trace = (current.toList ++ l).toFinset

/-- In every run the live threads are the run queue, together with cur_thread while a thread
runs, and have their turns in rotation. -/
theorem threads_rotate {p : Program P} {priv : UInt32 → P} {ops : List Op} {w : Turns P}
    (exited : Along (take p) Exited (powerOn priv) ops)
    (ran : exec (take p) (powerOn priv) ops = some w) :
    LiveQueued w (running w.sys) ∧ Fair w.trace := by
  obtain ⟨m, h⟩ := run_rotates exited ran
  obtain ⟨nodup, members⟩ := h.members
  refine ⟨⟨m.queue, h.queue, ?_, ?_⟩, Rota.runs_fair h.ran⟩
  · rw [← h.running]
    exact List.nodup_append_comm.mp nodup
  · rw [← h.running, members]
    ext b
    simp [Rota.order, or_comm]

def twoInTurn : List Op :=
  [.fork 0x100000 0x8000 0 0 0x13, .fork 0x200000 0x8000 0 0 0x13, .run, .inst, .inst, .inst]

theorem two_threads_in_turn : ∃ w, exec (take stepAndExit) (powerOn fun _ => ()) twoInTurn = some w ∧
    w.trace = [.join 0x100000, .join 0x200000, .turn 0x200000, .turn 0x100000, .turn 0x200000,
      .leave 0x200000, .turn 0x100000] ∧ LiveQueued w (running w.sys) ∧ Fair w.trace := by
  have turns : (exec (take stepAndExit) (powerOn fun _ => ()) twoInTurn).map Turns.trace =
      some [.join 0x100000, .join 0x200000, .turn 0x200000, .turn 0x100000, .turn 0x200000,
        .leave 0x200000, .turn 0x100000] := by decide +kernel
  have exited : Along (take stepAndExit) Exited (powerOn fun _ => ()) twoInTurn := by
    simp [twoInTurn, Along, Exited]
  obtain ⟨w, ran, taken⟩ := Option.map_eq_some_iff.mp turns
  exact ⟨w, ran, taken, threads_rotate exited ran⟩

def oneAlone : List Op := [.fork 0x100000 0x8000 0 0 0x13, .run, .inst, .inst]

theorem last_exit_stays_current : ¬ ∀ (p : Program Unit) (priv : UInt32 → Unit) (ops : List Op)
    (w : Turns Unit), Along (take p) Exited (powerOn priv) ops →
    exec (take p) (powerOn priv) ops = some w →
    LiveQueued w w.sys.curThread ∧ Fair w.trace := by
  intro all
  have stays : (exec (take stepAndExit) (powerOn fun _ => ()) oneAlone).map
      (fun w => (w.sys.curThread, live w.trace)) = some (some 0x100000, ∅) := by decide +kernel
  have exited : Along (take stepAndExit) Exited (powerOn fun _ => ()) oneAlone := by
    simp [oneAlone, Along, Exited]
  obtain ⟨w, ran, same⟩ := Option.map_eq_some_iff.mp stays
  obtain ⟨cur, none_live⟩ := Prod.mk.inj same
  obtain ⟨⟨l, _, _, members⟩, _⟩ := all _ _ _ w exited ran
  rw [none_live, cur] at members
  exact absurd members.symm (by simp)

end EmbeddedOS.EquivThreads
