import EmbeddedOS.EquivThreads.Schedule

/-! The hash that one exit of a thread records is the one that its later exits compare. -/
namespace EmbeddedOS.EquivThreads
open Arm FullExcept Linked Steps

variable {P : Type} {kept : UInt32}

theorem SameBlock.refl (th : Th) : SameBlock th th := ⟨rfl, rfl, rfl⟩

theorem SameBlock.trans {th th' th'' : Th} (one : SameBlock th th') (two : SameBlock th' th'') :
    SameBlock th th'' :=
  ⟨two.fn.trans one.fn, two.arg.trans one.arg, two.stackEnd.trans one.stackEnd⟩

theorem check_hash_some {th th' : Th} (checked : checkHash th = some th') :
    SameBlock th th' ∧ (th'.expectedHash = th.expectedHash ∨ th'.expectedHash = th.regHash) := by
  unfold checkHash at checked
  split_ifs at checked
  · cases checked
    exact ⟨⟨rfl, rfl, rfl⟩, Or.inr rfl⟩
  · cases checked
    exact ⟨SameBlock.refl th, Or.inl rfl⟩

theorem effect_yield {p : Program P} {a : UInt32} {th th' : Th} {r : UserRegs} {priv q : P}
    {bvr0 : UInt32} {output : List UInt8}
    (does : effect p a th r priv bvr0 = some (.yield th' q output)) :
    SameBlock th th' ∧ th'.expectedHash = th.expectedHash := by
  unfold effect at does
  cases made : p.inst a r priv with
  | next r' q' =>
    simp only [made] at does
    split_ifs at does
    · cases does
    · cases does
      exact ⟨⟨rfl, rfl, rfl⟩, rfl⟩
  | swi r' q' =>
    simp only [made] at does
    obtain ⟨_, -, does⟩ := Option.bind_eq_some_iff.mp does
    split_ifs at does
    · cases does
      exact ⟨⟨rfl, rfl, rfl⟩, rfl⟩
    · obtain ⟨_, -, other⟩ := Option.map_eq_some_iff.mp does
      cases other
  | fault =>
    simp only [made] at does
    cases does

theorem effect_exit {p : Program P} {a : UInt32} {th th' : Th} {r : UserRegs} {priv q : P}
    {bvr0 : UInt32} (does : effect p a th r priv bvr0 = some (.exit th' q)) :
    SameBlock th th' ∧ (th'.expectedHash = th.expectedHash ∨ th'.expectedHash = th.regHash) := by
  unfold effect at does
  cases made : p.inst a r priv with
  | next r' q' =>
    simp only [made] at does
    split_ifs at does <;> cases does
  | swi r' q' =>
    simp only [made] at does
    obtain ⟨_, -, does⟩ := Option.bind_eq_some_iff.mp does
    split_ifs at does
    · cases does
    · obtain ⟨th1, checked, same⟩ := Option.map_eq_some_iff.mp does
      cases same
      obtain ⟨block, expected⟩ := check_hash_some checked
      exact ⟨⟨block.fn, block.arg, block.stackEnd⟩, expected⟩
  | fault =>
    simp only [made] at does
    cases does

theorem instruction_blocks {p : Program P} {w : World P} {l : List UInt32} {t : Sys P}
    (queued : Queued p w l) (ran : instruction p w.sys = some t) :
    ∃ a th th', w.sys.th a = some th ∧ t.th = Function.update w.sys.th a (some th') ∧
      SameBlock th th' ∧ (∃ start, w.started a = some start) ∧
      (th'.expectedHash = th.expectedHash ∨
        exiting p w.sys = some (a, th'.expectedHash, th.instCnt)) := by
  obtain ⟨r, user⟩ := Option.ne_none_iff_exists'.mp (instruction_running ran)
  obtain ⟨on, a, th, cur, block, fresh, start, s, started, -, -⟩ := queued.running r user
  rw [instruction_eq cur user block] at ran
  obtain ⟨e, does, done⟩ := Option.bind_eq_some_iff.mp ran
  cases e with
  | quiet r' q =>
    cases done
    refine ⟨a, th, th, block, ?_, SameBlock.refl th, ⟨start, started⟩, Or.inl rfl⟩
    rw [← block, Function.update_eq_self]
  | yield th' q output =>
    let saved : Sys P := { w.sys with
      priv := Function.update w.sys.priv a q
      th := Function.update w.sys.th a (some th')
      output := w.sys.output ++ output }
    obtain ⟨b, rest, th2, -, -, -, blocks, -⟩ :=
      schedule_some (s := saved) queued.holds cur fresh done
    obtain ⟨same, expected⟩ := effect_yield does
    exact ⟨a, th, th', block, blocks, same, ⟨start, started⟩, Or.inl expected⟩
  | exit th' q =>
    let saved : Sys P := { w.sys with
      priv := Function.update w.sys.priv a q
      th := Function.update w.sys.th a (some th') }
    obtain ⟨blocks, -, -⟩ := exit_some (s := saved) queued.holds done
    obtain ⟨same, expected⟩ := effect_exit does
    refine ⟨a, th, th', block, blocks, same, ⟨start, started⟩, ?_⟩
    have exits := exiting_of_exit cur user block does
    obtain before | now := expected
    · exact Or.inl before
    · exact Or.inr (now ▸ exits)

theorem exit_records {p : Program P} {w : World P} {l : List UInt32} {t : Sys P} (queued : Queued p w l)
    {a hash count : UInt32} {th : Th} (exits : exiting p w.sys = some (a, hash, count))
    (found : w.sys.th a = some th) (none_yet : th.expectedHash = 0) (ran : instruction p w.sys = some t) :
    ∃ th', t.th a = some th' ∧ th'.expectedHash = hash := by
  obtain ⟨r, user⟩ := Option.ne_none_iff_exists'.mp (instruction_running ran)
  obtain ⟨on, b, th0, cur, block, -⟩ := queued.running r user
  obtain ⟨rfl, rfl, -, r', priv, made, code⟩ := exiting_inst cur user block exits
  cases found.symm.trans block
  rw [instruction_eq cur user block] at ran
  obtain ⟨e, does, done⟩ := Option.bind_eq_some_iff.mp ran
  obtain ⟨th', checked, rfl⟩ := effect_of_exit made code does
  have zero : ({ th with regs := r' } : Th).expectedHash = 0 := none_yet
  rw [checkHash, if_pos zero] at checked
  cases checked
  let saved : Sys P := { w.sys with
    priv := Function.update w.sys.priv a priv
    th := Function.update w.sys.th a (some { th with regs := r', expectedHash := th.regHash }) }
  obtain ⟨blocks, -, -⟩ := exit_some (s := saved) queued.holds done
  exact ⟨_, (congrFun blocks a).trans (Function.update_self ..), rfl⟩

theorem blocks_kept {p : Program P} {w w' : World P} {act : Act kept} (good : Good p w)
    (happened : happen p w act = some w') {b : UInt32} {th : Th} (found : w.sys.th b = some th) :
    ∃ th', w'.sys.th b = some th' ∧ SameBlock th th' := by
  obtain ⟨t, ran, rfl⟩ := Option.map_eq_some_iff.mp happened
  obtain ⟨l, queued⟩ := good.queue
  cases starts : act.starts with
  | some a =>
    obtain ⟨-, th', ntids, rfl, -, origin⟩ := starts_some starts ran
    by_cases same : b = a
    · subst same
      refine ⟨th', Function.update_self .., ?_⟩
      obtain ⟨absent, -⟩ | ⟨-, old, -, before, block, -⟩ := origin
      · cases absent.symm.trans found
      · cases before.symm.trans found
        exact block
    · exact ⟨th, (Function.update_of_ne same _ _).trans found, SameBlock.refl th⟩
  | none =>
    cases act with
    | run =>
      simp only [perform] at ran
      split_ifs at ran
      obtain ⟨-, -, -, -, -, -, blocks, -⟩ := run_some queued.holds ran
      exact ⟨th, by rw [blocks, found], SameBlock.refl th⟩
    | inst =>
      obtain ⟨a, th0, th', before, blocks, same_block, -⟩ := instruction_blocks queued ran
      by_cases same : b = a
      · subst same
        cases before.symm.trans found
        exact ⟨th', by rw [blocks, Function.update_self], same_block⟩
      · exact ⟨th, by rw [blocks, Function.update_of_ne same, found], SameBlock.refl th⟩
    | fork => cases starts
    | forkNostack => cases starts
    | refresh => cases starts

theorem exitOf_some {p : Program P} {w : World P} {act : Act kept} {e : Exit P}
    (inside : e ∈ exitOf p w act) : act = .inst ∧ exiting p w.sys = some (e.thread, e.hash, e.count) ∧
      w.started e.thread = some (e.start, e.priv) := by
  cases act with
  | inst =>
    unfold exitOf at inside
    cases exits : exiting p w.sys with
    | none => simp [exits] at inside
    | some x =>
      obtain ⟨a, hash, count⟩ := x
      cases started : w.started a with
      | none => simp [exits, started] at inside
      | some start =>
        simp only [exits, started, Option.map_some, Option.toList_some, List.mem_singleton] at inside
        subst inside
        exact ⟨rfl, rfl, started⟩
  | _ => cases inside

theorem exitOf_mem {p : Program P} {w : World P} {a hash count : UInt32} {start : Th × P}
    (exits : exiting p w.sys = some (a, hash, count)) (started : w.started a = some start) :
    ⟨a, start.1, start.2, hash, count⟩ ∈ exitOf p w (.inst : Act kept) := by
  simp [exitOf, exits, started]

/-- The blocks from which the exits, and the present runs, started. -/
structure Origins (p : Program P) (kept : UInt32) (w : World P) : Prop where
  started : ∀ a start, w.started a = some start → Fresh p kept start.1 ∧
    ∃ th, w.sys.th a = some th ∧ SameBlock start.1 th
  exits : ∀ e ∈ w.exits, Fresh p kept e.start ∧
    ∃ th, w.sys.th e.thread = some th ∧ SameBlock e.start th

theorem origins_step {p : Program P} {w w' : World P} {act : Act kept} (good : Good p w)
    (origins : Origins p kept w) (happened : happen p w act = some w') : Origins p kept w' := by
  have on {b : UInt32} {start : Th} (known : ∃ th, w.sys.th b = some th ∧ SameBlock start th) :
      ∃ th, w'.sys.th b = some th ∧ SameBlock start th := by
    obtain ⟨th, found, same⟩ := known
    obtain ⟨th', found', same'⟩ := blocks_kept good happened found
    exact ⟨th', found', same.trans same'⟩
  obtain ⟨t, ran, rfl⟩ := Option.map_eq_some_iff.mp happened
  constructor
  · intro b start started
    by_cases here : act.starts = some b
    · obtain ⟨-, th, ntids, rfl, fresh, -⟩ := starts_some here ran
      have block : (pushed w.sys b th ntids).th b = some th := Function.update_self ..
      simp only [here, if_true, startOf, block, Option.map_some, Option.some.injEq] at started
      subst started
      exact ⟨fresh, th, block, SameBlock.refl th⟩
    · simp only [here, if_false] at started
      obtain ⟨fresh, known⟩ := origins.started b start started
      exact ⟨fresh, on known⟩
  · intro e inside
    obtain before | now := List.mem_append.mp inside
    · obtain ⟨fresh, known⟩ := origins.exits e before
      exact ⟨fresh, on known⟩
    · obtain ⟨-, -, started⟩ := exitOf_some now
      obtain ⟨fresh, known⟩ := origins.started _ _ started
      exact ⟨fresh, on known⟩

theorem starts_same {p : Program P} {start start' th : Th} (fresh : Fresh p kept start)
    (fresh' : Fresh p kept start') (block : SameBlock start th) (block' : SameBlock start' th) :
    start'.regs = start.regs ∧ start'.regHash = start.regHash ∧
      start'.instCnt = start.instCnt := by
  refine ⟨?_, fresh'.hash.trans fresh.hash.symm, fresh'.count.trans fresh.count.symm⟩
  apply Subtype.ext
  rw [fresh.regs, fresh'.regs]
  funext i
  simp only [startRegs, ← block.fn, ← block.arg, ← block.stackEnd, block'.fn, block'.arg,
    block'.stackEnd]

/-- A hash that a block holds was recorded by an exit. -/
def Recorded (a : UInt32) (w : World P) : Prop :=
  ∀ th, w.sys.th a = some th → th.expectedHash = 0 ∨
    ∃ e ∈ w.exits, e.thread = a ∧ e.hash = th.expectedHash

theorem recorded_step {p : Program P} {w w' : World P} {act : Act kept} {a : UInt32}
    (good : Good p w) (recorded : Recorded a w) (none_given : ∀ h, act.gives = some (a, h) → h = 0)
    (happened : happen p w act = some w') : Recorded a w' := by
  obtain ⟨t, ran, rfl⟩ := Option.map_eq_some_iff.mp happened
  obtain ⟨l, queued⟩ := good.queue
  have on {h : UInt32} (known : h = 0 ∨ ∃ e ∈ w.exits, e.thread = a ∧ e.hash = h) :
      h = 0 ∨ ∃ e ∈ w.exits ++ exitOf p w act, e.thread = a ∧ e.hash = h := by
    obtain zero | ⟨e, inside, facts⟩ := known
    · exact Or.inl zero
    · exact Or.inr ⟨e, List.mem_append_left _ inside, facts⟩
  intro th found
  cases starts : act.starts with
  | some b =>
    obtain ⟨-, th', ntids, rfl, -, origin⟩ := starts_some starts ran
    by_cases same : a = b
    · subst same
      have block : (pushed w.sys a th' ntids).th a = some th' := Function.update_self ..
      cases block.symm.trans found
      obtain ⟨-, given⟩ | ⟨-, old, -, before, -, expected⟩ := origin
      · exact Or.inl (none_given _ given)
      · rw [expected]
        exact on (recorded old before)
    · have before : w.sys.th a = some th := by
        rw [← found]
        exact (Function.update_of_ne same _ _).symm
      exact on (recorded th before)
  | none =>
    cases act with
    | run =>
      simp only [perform] at ran
      split_ifs at ran
      obtain ⟨-, -, -, -, -, -, blocks, -⟩ := run_some queued.holds ran
      exact on (recorded th (by rw [← blocks, found]))
    | inst =>
      obtain ⟨b, th0, th', before, blocks, -, ⟨start, started⟩, expected⟩ :=
        instruction_blocks queued ran
      have found' : Function.update w.sys.th b (some th') a = some th := by
        rw [← blocks]
        exact found
      by_cases same : a = b
      · subst same
        rw [Function.update_self] at found'
        cases found'
        obtain unchanged | exits := expected
        · rw [unchanged]
          exact on (recorded th0 before)
        · exact Or.inr ⟨_, List.mem_append_right _ (exitOf_mem exits started), rfl, rfl⟩
      · rw [Function.update_of_ne same] at found'
        exact on (recorded th found')
    | fork => cases starts
    | forkNostack => cases starts
    | refresh => cases starts

theorem run_origins {p : Program P} {priv : UInt32 → P} {acts : List (Act kept)} {w : World P}
    (proper : Along (happen p) Proper (boot priv) acts)
    (ran : exec (happen p) (boot priv) acts = some w) : Good p w ∧ Origins p kept w := by
  have initial : Good p (boot priv) ∧ Origins p kept (boot priv) :=
    ⟨good_boot p priv, ⟨by simp [boot], by simp [boot]⟩⟩
  have kept_on (w : World P) (act : Act kept) (w' : World P) (both : Good p w ∧ Origins p kept w)
      (fine : Proper w act) (happened : happen p w act = some w') : Good p w' ∧ Origins p kept w' :=
    ⟨good_step w act w' both.1 fine happened, origins_step both.1 both.2 happened⟩
  exact exec_along kept_on initial proper ran

theorem run_recorded {p : Program P} {priv : UInt32 → P} {acts : List (Act kept)} {w : World P}
    {a : UInt32} (proper : Along (happen p) Proper (boot priv) acts)
    (none_given : ∀ act ∈ acts, ∀ h, act.gives = some (a, h) → h = 0)
    (ran : exec (happen p) (boot priv) acts = some w) : Recorded a w := by
  have initial : Good p (boot priv) ∧ Recorded a (boot priv) :=
    ⟨good_boot p priv, by simp [Recorded, boot]⟩
  have kept_on (w : World P) (act : Act kept) (w' : World P) (both : Good p w ∧ Recorded a w)
      (fine : Proper w act ∧ ∀ h, act.gives = some (a, h) → h = 0)
      (happened : happen p w act = some w') : Good p w' ∧ Recorded a w' :=
    ⟨good_step w act w' both.1 fine.1 happened, recorded_step both.1 both.2 fine.2 happened⟩
  exact (exec_along kept_on initial (proper.and none_given) ran).2

theorem exits_agree {p : Program P} {w : World P} {e e' : Exit P} (origins : Origins p kept w)
    (good : Good p w) (inside : e ∈ w.exits) (inside' : e' ∈ w.exits) (thread : e'.thread = e.thread)
    (steady : Deterministic p e.thread e.start.regs) : e'.hash = e.hash ∧ e'.count = e.count := by
  obtain ⟨fresh, th, found, block⟩ := origins.exits e inside
  obtain ⟨fresh', th', found', block'⟩ := origins.exits e' inside'
  rw [thread] at found'
  cases found.symm.trans found'
  obtain ⟨regs, hash, count⟩ := starts_same fresh fresh' block block'
  have solo' := good.exits e' inside'
  rw [thread] at solo'
  exact soloEnds_same regs hash count (steady e.priv e'.priv) (good.exits e inside) solo'

/-- Whatever the schedule, a thread exits with the hash and the count of the solo run of its block,
two exits of a deterministic thread agree, none finds another hash recorded, and one that finds none
records its own. -/
theorem exits_are_solo {p : Program P} {priv : UInt32 → P} {acts : List (Act kept)} {w : World P}
    (proper : Along (happen p) Proper (boot priv) acts)
    (ran : exec (happen p) (boot priv) acts = some w) :
    (∀ e ∈ w.exits, ∀ hash count,
      SoloEnds p e.thread e.start e.priv hash count ↔ hash = e.hash ∧ count = e.count) ∧
    (∀ e ∈ w.exits, ∀ e' ∈ w.exits, e'.thread = e.thread →
      Deterministic p e.thread e.start.regs → e'.hash = e.hash ∧ e'.count = e.count) ∧
    (∀ a hash count start th, exiting p w.sys = some (a, hash, count) → w.started a = some start →
      w.sys.th a = some th → Deterministic p a start.1.regs →
      (∀ act ∈ acts, ∀ h, act.gives = some (a, h) → h = 0) →
      th.expectedHash = 0 ∨ th.expectedHash = hash) ∧
    ∀ a hash count th t, exiting p w.sys = some (a, hash, count) → w.sys.th a = some th →
      th.expectedHash = 0 → instruction p w.sys = some t →
      ∃ th', t.th a = some th' ∧ th'.expectedHash = hash := by
  obtain ⟨good, origins⟩ := run_origins proper ran
  refine ⟨?_, ?_, ?_, ?_⟩
  · intro e inside hash count
    have solo := good.exits e inside
    constructor
    · intro ends
      exact soloEnds_same rfl rfl rfl (fun _ => rfl) solo ends
    · rintro ⟨rfl, rfl⟩
      exact solo
  · intro e inside e' inside' thread steady
    exact exits_agree origins good inside inside' thread steady
  · intro a hash count start th exits started found steady none_given
    obtain zero | ⟨e, inside, thread, recorded⟩ := run_recorded proper none_given ran th found
    · exact Or.inl zero
    right
    obtain ⟨l, queued⟩ := good.queue
    have leaves : ⟨a, start.1, start.2, hash, count⟩ ∈ exitOf p w (.inst : Act kept) :=
      exitOf_mem exits started
    have solo := exits_solo queued _ leaves
    obtain ⟨fresh, th1, found1, block1⟩ := origins.started a start started
    obtain ⟨fresh2, th2, found2, block2⟩ := origins.exits e inside
    rw [thread] at found2
    cases found.symm.trans found1
    cases found.symm.trans found2
    obtain ⟨regs, zero_hash, zero_count⟩ := starts_same fresh fresh2 block1 block2
    have solo2 := good.exits e inside
    rw [thread] at solo2
    have same := soloEnds_same regs zero_hash zero_count (steady start.2 e.priv) solo solo2
    rw [← recorded]
    exact same.1
  · intro a hash count th t exits found none_yet moved
    obtain ⟨l, queued⟩ := good.queue
    exact exit_records queued exits found none_yet moved

def stepAndExit : Program Unit where
  inst := fun _ r priv =>
    if r.val 15 = 0x8000 then
      .next ⟨Function.update r.val 15 0x8004, by simpa using r.property⟩ priv
    else .swi r priv
  sysEquivExit := 0x9000
  ssOnExit := 0xa000

def twoForks : List (Act USER_MODE) :=
  [.fork 0x100000 0x8000 0 0 ⟨0x13, by decide⟩, .fork 0x200000 0x8000 0 0 ⟨0x13, by decide⟩, .run,
    .inst, .inst, .inst, .inst]

theorem two_threads_exit :
    ∃ w, exec (happen stepAndExit) (boot fun _ => ()) twoForks = some w ∧
      (w.exits.map fun e => (e.thread, e.count)) = [(0x200000, 1), (0x100000, 1)] ∧
      ∀ e ∈ w.exits, SoloEnds stepAndExit e.thread e.start e.priv e.hash e.count := by
  have counts : (exec (happen stepAndExit) (boot fun _ => ()) twoForks).map
      (fun w => w.exits.map fun e => (e.thread, e.count)) =
      some [(0x200000, 1), (0x100000, 1)] := by decide +kernel
  have proper : Along (happen stepAndExit) Proper (boot fun _ => ()) twoForks := by
    simp [twoForks, Along, Proper]
  obtain ⟨w, ran, counted⟩ := Option.map_eq_some_iff.mp counts
  exact ⟨w, ran, counted, fun e inside =>
    ((exits_are_solo proper ran).1 e inside e.hash e.count).mpr ⟨rfl, rfl⟩⟩

end EmbeddedOS.EquivThreads
