import EmbeddedOS.FullExcept.Switchto
import EmbeddedOS.Linked.Queue

/-! equiv-threads.c: threads that run one instruction at a time by mismatch faults, and the hash
of the registers that each of them goes through. -/
namespace EmbeddedOS.EquivThreads
open Arm FullExcept Linked

def hashWord (hash w : UInt32) : UInt32 :=
  let hash := hash + (w &&& 0xffff)
  let tmp := (w >>> 16) <<< 11 ^^^ hash
  let hash := hash <<< 16 ^^^ tmp
  hash + hash >>> 11

def avalanche (hash : UInt32) : UInt32 :=
  let hash := hash ^^^ hash <<< 3
  let hash := hash + hash >>> 5
  let hash := hash ^^^ hash <<< 4
  let hash := hash + hash >>> 17
  let hash := hash ^^^ hash <<< 25
  hash + hash >>> 6

/-- The hash of data that is a whole number of words. -/
def fastHashInc32 (data : List UInt32) (hash : UInt32) : UInt32 :=
  if data = [] then 0 else avalanche (data.foldl hashWord hash)

def cpsrClearCarry (cpsr : UInt32) : UInt32 := cpsr &&& 0x0fffffff

def cpsrInherit (mode cpsr : UInt32) : UInt32 := cpsrClearCarry cpsr &&& ~~~0x1f ||| mode

/-- The registers of user code, whose mode user code does not change. -/
abbrev UserRegs := { r : Regs // modeBits (r 16) = USER }

theorem inherit_user (cpsr : UInt32) : modeBits (cpsrInherit USER_MODE cpsr) = USER :=
  masked (cpsrClearCarry cpsr) (by decide)

/-- An `eq_th_t`, without its pointer and its print flag. -/
structure Th where
  regs : UserRegs
  expectedHash : UInt32
  regHash : UInt32
  tid : UInt32
  fn : UInt32
  arg : UInt32
  stackStart : UInt32
  stackEnd : UInt32
  instCnt : UInt32

/-- What one instruction of a thread does to its registers and its private memory. -/
inductive Inst (P : Type) where
  | next (r : UserRegs) (priv : P)
  | swi (r : UserRegs) (priv : P)
  | fault

/-- The code of the threads, and two addresses in it. -/
structure Program (P : Type) where
  inst : UInt32 → UserRegs → P → Inst P
  sysEquivExit : UInt32
  ssOnExit : UInt32

structure Sys (P : Type) where
  th : UInt32 → Option Th
  next : Links UInt32
  equivRunq : Ends UInt32
  curThread : Option UInt32
  ntids : UInt32
  singleStepOnP : Bool
  bvr0 : UInt32
  /-- The registers of the machine while user code runs. -/
  user : Option UserRegs
  priv : UInt32 → P
  output : List UInt8

variable {P : Type}

def eqPop (next : Links UInt32) (q : Ends UInt32) : Option (Option UInt32 × Ends UInt32) :=
  if q.head = none ∧ q.tail ≠ none then none else some (pop next q)

def mismatchPcSet (s : Sys P) (pc : UInt32) : Option (Sys P) :=
  if s.singleStepOnP then some { s with bvr0 := pc } else none

def mismatchRun (s : Sys P) (r : UserRegs) : Option (Sys P) :=
  (mismatchPcSet s (r.val 15)).map fun s => { s with user := some r }

/-- The switch to a thread that is now the current one. -/
def resume (s : Sys P) (a : UInt32) : Option (Sys P) :=
  (s.th a).bind fun th => mismatchRun { s with curThread := some a } th.regs

def equivSchedule (s : Sys P) : Option (Sys P) :=
  s.curThread.bind fun cur =>
  (eqPop s.next s.equivRunq).bind fun
  | (none, runq) => resume { s with equivRunq := runq } cur
  | (some th, runq) =>
    let (next, runq) := append s.next runq cur
    resume { s with next := next, equivRunq := runq } th

def checkSp (th : Th) : Option Unit :=
  if th.regs.val 13 < th.stackStart then none
  else if th.regs.val 13 > th.stackEnd then none
  else some ()

def EQUIV_EXIT : UInt32 := 0
def EQUIV_PUTC : UInt32 := 1

def checkHash (th : Th) : Option Th :=
  if th.expectedHash = 0 then some { th with expectedHash := th.regHash }
  else if th.expectedHash = th.regHash then some th
  else none

def equivExit (s : Sys P) : Option (Sys P) :=
  (eqPop s.next s.equivRunq).bind fun
  | (none, runq) =>
    if s.singleStepOnP then
      some { s with equivRunq := runq, user := none, singleStepOnP := false }
    else none
  | (some th, runq) => resume { s with equivRunq := runq } th

def equivSyscallHandler (s : Sys P) (r : UserRegs) : Option (Sys P) := do
  let cur ← s.curThread
  let th ← s.th cur
  let th := { th with regs := r }
  checkSp th
  if r.val 0 = EQUIV_PUTC then
    equivSchedule { s with
      th := Function.update s.th cur (some th)
      output := s.output ++ [(r.val 1).toUInt8] }
  else if r.val 0 = EQUIV_EXIT then
    let th ← checkHash th
    equivExit { s with th := Function.update s.th cur (some th) }
  else none

def equivHashHandler (s : Sys P) (r : UserRegs) : Option (Sys P) := do
  let cur ← s.curThread
  let th ← s.th cur
  let th := { th with
    regs := r
    instCnt := th.instCnt + 1
    regHash := fastHashInc32 (List.ofFn r.val) th.regHash }
  equivSchedule { s with th := Function.update s.th cur (some th) }

/-- The prefetch abort of a mismatch. A thread does not go to `ss_on_exit`. -/
def mismatchFault (p : Program P) (s : Sys P) (r : UserRegs) : Option (Sys P) :=
  if r.val 15 = p.ssOnExit then none else equivHashHandler s r

/-- The running thread executes the instruction at its pc, which faults at the next one unless
that is at the address that is left out. -/
def instruction (p : Program P) (s : Sys P) : Option (Sys P) := do
  let cur ← s.curThread
  let r ← s.user
  match p.inst cur r (s.priv cur) with
  | .next r priv =>
    let s := { s with priv := Function.update s.priv cur priv }
    if r.val 15 = s.bvr0 then some { s with user := some r } else mismatchFault p s r
  | .swi r priv => equivSyscallHandler { s with priv := Function.update s.priv cur priv } r
  | .fault => none

def stackSize : UInt32 := 8192 * 8

def equivRegsInit (p : Program P) (fn arg stackEnd cpsr : UInt32) : UserRegs :=
  ⟨fun i => if i = 0 then arg else if i = 15 then fn else if i = 13 then stackEnd
    else if i = 14 then p.sysEquivExit else if i = 16 then cpsrInherit USER_MODE cpsr else 0,
    inherit_user cpsr⟩

/-- A block at an address that `kmalloc_aligned` returns, filled with zeros before. -/
def equivFork (p : Program P) (s : Sys P) (a fn arg expectedHash cpsr : UInt32) : Option (Sys P) := do
  guard (a % 8 = 0)
  let stackEnd := a + stackSize
  guard (stackEnd % 8 = 0)
  let th : Th :=
    { regs := equivRegsInit p fn arg stackEnd cpsr, expectedHash := expectedHash, regHash := 0,
      tid := s.ntids, fn := fn, arg := arg, stackStart := a, stackEnd := stackEnd, instCnt := 0 }
  checkSp th
  let (next, runq) := push s.next s.equivRunq a
  some { s with
    th := Function.update s.th a (some th), ntids := s.ntids + 1, next := next, equivRunq := runq }

def equivForkNostack (p : Program P) (s : Sys P) (a fn arg expectedHash cpsr : UInt32) :
    Option (Sys P) := do
  let s ← equivFork p s a fn arg expectedHash cpsr
  let th ← s.th a
  let th := { th with
    regs := ⟨Function.update th.regs.val 13 0, th.regs.property⟩, stackStart := 0, stackEnd := 0 }
  some { s with th := Function.update s.th a (some th) }

def equivRefresh (p : Program P) (s : Sys P) (a cpsr : UInt32) : Option (Sys P) := do
  let th ← s.th a
  let th := { th with regs := equivRegsInit p th.fn th.arg th.stackEnd cpsr }
  checkSp th
  let th := { th with instCnt := 0, regHash := 0 }
  let (next, runq) := push s.next s.equivRunq a
  some { s with th := Function.update s.th a (some th), next := next, equivRunq := runq }

/-- `equiv_run` up to the switch to the first thread. -/
def equivRun (s : Sys P) : Option (Sys P) := do
  let (e, runq) ← eqPop s.next s.equivRunq
  let a ← e
  guard (s.singleStepOnP = false)
  resume { s with equivRunq := runq, singleStepOnP := true } a

end EmbeddedOS.EquivThreads
