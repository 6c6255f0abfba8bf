import EmbeddedOS.EquivThreads.Solo

/-! A thread that does the same whatever its private memory holds when it starts: all its solo
runs from the same registers end with the same hash and the same count. -/
namespace EmbeddedOS.EquivThreads
open Arm FullExcept Linked

variable {P : Type}

inductive Event where
  | next (r : UserRegs)
  | swi (r : UserRegs)
  | fault

/-- The first instructions of a thread that starts with these registers, up to its exit. -/
def trace (p : Program P) (a : UInt32) : Nat → UserRegs → P → List Event
  | 0, _, _ => []
  | n + 1, r, priv =>
    match p.inst a r priv with
    | .next r priv => .next r :: trace p a n r priv
    | .swi r priv => .swi r :: (if r.val 0 = EQUIV_EXIT then [] else trace p a n r priv)
    | .fault => [.fault]

def SameTrace (p : Program P) (a : UInt32) (r : UserRegs) (priv priv' : P) : Prop :=
  ∀ n, trace p a n r priv = trace p a n r priv'

def Deterministic (p : Program P) (a : UInt32) (r : UserRegs) : Prop :=
  ∀ priv priv', SameTrace p a r priv priv'

/-- The same but for private memory, with what follows the same as well. -/
inductive SameEffect (p : Program P) (a : UInt32) : Effect P → Effect P → Prop where
  | quiet {r : UserRegs} {priv priv' : P} (same : SameTrace p a r priv priv') :
      SameEffect p a (.quiet r priv) (.quiet r priv')
  | yield {th th' : Th} {priv priv' : P} {output : List UInt8} (regs : th'.regs = th.regs)
      (hash : th'.regHash = th.regHash) (count : th'.instCnt = th.instCnt)
      (same : SameTrace p a th.regs priv priv') :
      SameEffect p a (.yield th priv output) (.yield th' priv' output)
  | exit {th th' : Th} {priv priv' : P} : SameEffect p a (.exit th priv) (.exit th' priv')

theorem SameTrace.inst {p : Program P} {a : UInt32} {r : UserRegs} {priv priv' : P}
    (same : SameTrace p a r priv priv') :
    (∃ r1 q q', p.inst a r priv = .next r1 q ∧ p.inst a r priv' = .next r1 q' ∧
      SameTrace p a r1 q q') ∨
    (∃ r1 q q', p.inst a r priv = .swi r1 q ∧ p.inst a r priv' = .swi r1 q' ∧
      (r1.val 0 ≠ EQUIV_EXIT → SameTrace p a r1 q q')) ∨
    p.inst a r priv = .fault := by
  have first := same 1
  have both (n : Nat) := same (n + 1)
  simp only [trace] at first both
  cases made : p.inst a r priv with
  | next r1 q =>
    cases made' : p.inst a r priv' with
    | next r2 q' =>
      simp only [made, made'] at first both
      have regs : r1 = r2 := Event.next.inj (List.cons.inj first).1
      subst regs
      exact Or.inl ⟨r1, q, q', rfl, rfl, fun n => (List.cons.inj (both n)).2⟩
    | swi r2 q' => simp [made, made'] at first
    | fault => simp [made, made'] at first
  | swi r1 q =>
    cases made' : p.inst a r priv' with
    | next r2 q' => simp [made, made'] at first
    | swi r2 q' =>
      simp only [made, made'] at first both
      have regs : r1 = r2 := Event.swi.inj (List.cons.inj first).1
      subst regs
      refine Or.inr (Or.inl ⟨r1, q, q', rfl, rfl, ?_⟩)
      intro goes_on n
      have tails := (List.cons.inj (both n)).2
      rwa [if_neg goes_on, if_neg goes_on] at tails
    | fault => simp [made, made'] at first
  | fault => exact Or.inr (Or.inr rfl)

theorem effect_same {p : Program P} {a : UInt32} {th th' : Th} {r : UserRegs} {priv priv' : P}
    {bvr0 : UInt32} {e e' : Effect P} (hash : th'.regHash = th.regHash)
    (count : th'.instCnt = th.instCnt) (same : SameTrace p a r priv priv')
    (one : effect p a th r priv bvr0 = some e) (two : effect p a th' r priv' bvr0 = some e') :
    SameEffect p a e e' := by
  unfold effect at one two
  obtain ⟨r1, q, q', made, made', tails⟩ | ⟨r1, q, q', made, made', tails⟩ | made := same.inst
  · simp only [made, made', hash, count] at one two
    split_ifs at one two
    · cases one
      cases two
      exact .quiet tails
    · cases one
      cases two
      exact .yield rfl rfl rfl tails
  · simp only [made, made'] at one two
    obtain ⟨_, _, one⟩ := Option.bind_eq_some_iff.mp one
    obtain ⟨_, _, two⟩ := Option.bind_eq_some_iff.mp two
    split_ifs at one two with putc exits
    · cases one
      cases two
      have goes_on : r1.val 0 ≠ EQUIV_EXIT := by
        rw [putc]
        decide
      exact .yield rfl hash count (tails goes_on)
    · obtain ⟨_, _, rfl⟩ := Option.map_eq_some_iff.mp one
      obtain ⟨_, _, rfl⟩ := Option.map_eq_some_iff.mp two
      exact .exit
  · simp only [made] at one
    cases one

theorem exiting_running {p : Program P} {s : Sys P} {x : UInt32 × UInt32 × UInt32}
    (exits : exiting p s = some x) : s.user ≠ none := by
  obtain ⟨_, _, exits⟩ := Option.bind_eq_some_iff.mp exits
  obtain ⟨_, user, _⟩ := Option.bind_eq_some_iff.mp exits
  simp [user]

theorem instruction_running {p : Program P} {s t : Sys P} (ran : instruction p s = some t) :
    s.user ≠ none := by
  obtain ⟨_, _, ran⟩ := Option.bind_eq_some_iff.mp ran
  obtain ⟨_, user, _⟩ := Option.bind_eq_some_iff.mp ran
  simp [user]

theorem Ends.running {p : Program P} {s : Sys P} {hash count : UInt32} (ends : Ends p s hash count) :
    s.user ≠ none := by
  cases ends with
  | now exits => exact exiting_running exits
  | later ran _ => exact instruction_running ran

theorem Solo.effect_some {p : Program P} {s t : Sys P} {a : UInt32} {th : Th} {priv : P} {r : UserRegs}
    {bvr0 : UInt32} (solo : Solo s a th priv r bvr0) (ran : instruction p s = some t) :
    ∃ e, effect p a th r priv bvr0 = some e ∧ ((∃ th' q, e = .exit th' q) → t.user = none) := by
  rw [solo.instruction_eq] at ran
  obtain ⟨e, does, done⟩ := Option.bind_eq_some_iff.mp ran
  refine ⟨e, does, ?_⟩
  rintro ⟨th', q, rfl⟩
  simp only [commit, equivExit, eq_pop_holds solo.queue, pop_nil solo.queue, Option.bind_some,
    solo.on, if_true] at done
  cases done
  rfl

theorem Solo.now {p : Program P} {s : Sys P} {a b : UInt32} {th : Th} {priv : P} {r : UserRegs}
    {bvr0 hash count : UInt32} (solo : Solo s a th priv r bvr0)
    (exits : exiting p s = some (b, hash, count)) :
    hash = th.regHash ∧ count = th.instCnt ∧
      ∃ r' q, p.inst a r priv = .swi r' q ∧ r'.val 0 = EQUIV_EXIT := by
  obtain ⟨-, same_hash, same_count, made⟩ := exiting_inst solo.cur solo.user solo.block exits
  rw [solo.priv] at made
  exact ⟨same_hash, same_count, made⟩

theorem Solo.stops {p : Program P} {s t : Sys P} {a : UInt32} {th : Th} {priv q : P} {r r' : UserRegs}
    {bvr0 : UInt32} (solo : Solo s a th priv r bvr0) (made : p.inst a r priv = .swi r' q)
    (code : r'.val 0 = EQUIV_EXIT) (ran : instruction p s = some t) : t.user = none := by
  obtain ⟨e, does, stops⟩ := solo.effect_some ran
  obtain ⟨th', -, exits⟩ := effect_of_exit made code does
  exact stops ⟨th', q, exits⟩

theorem SameTrace.symm {p : Program P} {a : UInt32} {r : UserRegs} {priv priv' : P}
    (same : SameTrace p a r priv priv') : SameTrace p a r priv' priv := fun n => (same n).symm

theorem SameTrace.exits {p : Program P} {a : UInt32} {r r' : UserRegs} {priv priv' q : P}
    (same : SameTrace p a r priv priv') (made : p.inst a r priv = .swi r' q) :
    ∃ q', p.inst a r priv' = .swi r' q' := by
  obtain ⟨r1, q1, q', other, -, -⟩ | ⟨r1, q1, q', other, also, -⟩ | other := same.inst
  · cases made.symm.trans other
  · cases made.symm.trans other
    exact ⟨q', also⟩
  · cases made.symm.trans other

theorem ends_same {p : Program P} {s s' : Sys P} {a : UInt32} {th th' : Th} {priv priv' : P}
    {r : UserRegs} {bvr0 hash count hash' count' : UInt32} (solo : Solo s a th priv r bvr0)
    (solo' : Solo s' a th' priv' r bvr0) (same_hash : th'.regHash = th.regHash)
    (same_count : th'.instCnt = th.instCnt) (same : SameTrace p a r priv priv')
    (ends : Ends p s hash count) (ends' : Ends p s' hash' count') :
    hash' = hash ∧ count' = count := by
  induction ends generalizing s' th th' priv priv' r bvr0 with
  | now exits =>
    obtain ⟨rfl, rfl, r', q, made, code⟩ := solo.now exits
    cases ends' with
    | now exits' =>
      obtain ⟨rfl, rfl, -⟩ := solo'.now exits'
      exact ⟨same_hash, same_count⟩
    | later ran' ends' =>
      obtain ⟨q', made'⟩ := same.exits made
      exact absurd (solo'.stops made' code ran') ends'.running
  | later ran ends ih =>
    obtain ⟨e, does, stops⟩ := solo.effect_some ran
    cases ends' with
    | now exits' =>
      obtain ⟨-, -, r', q', made', code⟩ := solo'.now exits'
      obtain ⟨q, made⟩ := same.symm.exits made'
      exact absurd (solo.stops made code ran) ends.running
    | later ran' ends' =>
      obtain ⟨e', does', -⟩ := solo'.effect_some ran'
      cases effect_same same_hash same_count same does does' with
      | quiet tails =>
        obtain ⟨t, ran1, next⟩ := solo.quiet does
        obtain ⟨t', ran1', next'⟩ := solo'.quiet does'
        cases ran.symm.trans ran1
        cases ran'.symm.trans ran1'
        exact ih next next' same_hash same_count tails ends'
      | yield regs hash count tails =>
        obtain ⟨t, ran1, next⟩ := solo.yield does
        obtain ⟨t', ran1', next'⟩ := solo'.yield does'
        cases ran.symm.trans ran1
        cases ran'.symm.trans ran1'
        rw [regs] at next'
        exact ih next next' hash count tails ends'
      | exit => exact absurd (stops ⟨_, _, rfl⟩) ends.running

theorem soloEnds_same {p : Program P} {a : UInt32} {th th' : Th} {priv priv' : P}
    {hash count hash' count' : UInt32} (regs : th'.regs = th.regs)
    (same_hash : th'.regHash = th.regHash) (same_count : th'.instCnt = th.instCnt)
    (same : SameTrace p a th.regs priv priv') (ends : SoloEnds p a th priv hash count)
    (ends' : SoloEnds p a th' priv' hash' count') : hash' = hash ∧ count' = count := by
  obtain ⟨s, ran, ends⟩ := ends
  obtain ⟨s', ran', ends'⟩ := ends'
  obtain ⟨first, begins, solo⟩ := alone_runs a th priv
  obtain ⟨first', begins', solo'⟩ := alone_runs a th' priv'
  cases ran.symm.trans begins
  cases ran'.symm.trans begins'
  rw [regs] at solo'
  exact ends_same solo solo' same_hash same_count same ends ends'

end EmbeddedOS.EquivThreads
