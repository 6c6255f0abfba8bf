import EmbeddedOS.Threads.Blocks
import EmbeddedOS.Steps.Run

/-! What the running code can do, and the history of a run: the blocks that were allocated, the
order in which threads were queued and resumed, their exits, and the returns of rpi_yield. -/
namespace EmbeddedOS.Threads
open Arm Linked

/-- What the running thread does, or the caller of `rpi_thread_start` where no thread runs. -/
inductive Act (p : Image) where
  | work (c : Cpu)
  | fork (a code arg : UInt32)
  | yield (frame : Fin p.rpiYield.size → UInt32) (callee : Callee)
  | exit
  | start (frame : Fin p.rpiThreadStart.size → UInt32) (callee : Callee) (a : UInt32)

def perform (p : Image) (s : Sys) : Act p → Option Sys
  | .work c => some { s with cpu := c }
  | .fork a code arg => rpiFork p s a code arg
  | .yield frame callee => rpiYield p s frame callee
  | .exit => rpiExit p s
  | .start frame callee a => rpiThreadStart p s frame callee a

/-- A call of `rpi_yield`: the state it was made in, and the memory once it had switched. -/
structure Call where
  made : Sys
  left : Memory

structure Return where
  thread : UInt32
  call : Call
  after : Sys

/-- What `th_alloc` has handed out: all blocks, and the number of the last time for each of them. -/
structure Allocs where
  blocks : List UInt32
  count : Nat
  number : UInt32 → Nat

structure World where
  sys : Sys
  allocs : Allocs
  /-- The threads that exited, by the numbers of their blocks. -/
  exited : List Nat
  queued : List UInt32
  resumed : List UInt32
  /-- The calls of `rpi_yield` that have not returned. -/
  calls : UInt32 → Option Call
  returns : List Return
  /-- The states in which `rpi_thread_start` returned. -/
  finished : List Sys

variable {p : Image}

def allocated (s t : Sys) : Act p → Option UInt32
  | .fork _ _ _ => some t.cpu.r0
  | .start _ _ _ => if s.schedulerThread = none then t.schedulerThread else none
  | _ => none

def Allocs.add (k : Allocs) (new : Bool) (t : UInt32) : Allocs :=
  { blocks := if new then k.blocks ++ [t] else k.blocks
    count := k.count + 1
    number := Function.update k.number t k.count }

def queues (s t : Sys) : Act p → Option UInt32
  | .fork _ _ _ => some t.cpu.r0
  | .yield _ _ => if s.runq.head = none then none else s.curThread
  | _ => none

def resumes (s t : Sys) : Act p → Option UInt32
  | .yield _ _ => if s.runq.head = none then none else t.curThread
  | .exit => t.curThread
  | .start _ _ _ => t.curThread
  | _ => none

/-- The thread that the core is in behind a call that may switch. -/
def wakes (t : Sys) : Act p → Option UInt32
  | .yield _ _ => t.curThread
  | .exit => t.curThread
  | .start _ _ _ => t.curThread
  | _ => none

def callsOf (w : World) (t : Sys) : Act p → UInt32 → Option Call
  | .yield _ _ => fun b => if w.sys.curThread = some b then some ⟨w.sys, t.cpu.mem⟩ else w.calls b
  | _ => w.calls

def returnOf (w : World) (t : Sys) (act : Act p) : Option Return :=
  (wakes t act).bind fun b => (callsOf w t act b).map fun call => ⟨b, call, t⟩

def finishes (t : Sys) : Act p → List Sys
  | .exit => if t.inCaller then [t] else []
  | .start _ _ _ => if t.inCaller then [t] else []
  | _ => []

/-- The history when an act has led to a state. -/
def World.after (w : World) (act : Act p) (t : Sys) : World :=
  { sys := t
    allocs := match allocated w.sys t act with
      | some b => w.allocs.add w.sys.freeq.head.isNone b
      | none => w.allocs
    exited := match act with
      | .exit => w.exited ++ (w.sys.curThread.map w.allocs.number).toList
      | _ => w.exited
    queued := w.queued ++ (queues w.sys t act).toList
    resumed := w.resumed ++ (resumes w.sys t act).toList
    calls := fun b => if wakes t act = some b then none else callsOf w t act b
    returns := w.returns ++ (returnOf w t act).toList
    finished := w.finished ++ finishes t act }

def happen (p : Image) (w : World) (act : Act p) : Option World :=
  (perform p w.sys act).map (w.after act)

/-- `kmalloc_aligned` returns memory that is used for nothing else. -/
structure Fresh (p : Image) (k : Allocs) (a : UInt32) : Prop where
  nonzero : a ≠ 0
  aligned : a % 8 = 0
  apart : ∀ b ∈ k.blocks, Apart a b
  outside : ∀ i < blockWords, ¬ p.callerStack (word a i)

/-- The running thread writes its own stack, and what belongs to no thread and not to the caller;
the caller writes what belongs to no thread. -/
def MayWrite (p : Image) (w : World) (x : UInt32) : Prop :=
  (∃ t i, w.sys.curThread = some t ∧ i < THREAD_MAXSTACK ∧ x = stackAt t i) ∨
    ((∀ b ∈ w.allocs.blocks, ∀ i < blockWords, x ≠ word b i) ∧ (p.callerStack x → w.sys.inCaller))

/-- A call with room for its frame and for nine registers, of a function that gives r4 to r11 back
to its caller and returns to it. What it leaves in lr is its own. -/
structure Framed (f : Around) (c : Cpu) (base : UInt32) (frame : Fin f.size → UInt32)
    (callee : Callee) : Prop where
  sp : c.sp = word base (9 + f.size)
  restores : ∀ i, i ≠ LR_OFFSET → f.restore frame callee i = c.callee i
  returns : f.pc frame callee = c.callee LR_OFFSET
  back : callee LR_OFFSET = f.back

/-- Threads call from their own stacks, which do not overflow, and the caller calls from its. -/
def Proper (p : Image) (w : World) : Act p → Prop
  | .work c => ∀ x, c.mem x = w.sys.cpu.mem x ∨ MayWrite p w x
  | .fork a _ _ => w.sys.freeq.head = none → Fresh p w.allocs a
  | .yield frame callee => ∃ t j, w.sys.curThread = some t ∧
      j + (9 + p.rpiYield.size) ≤ THREAD_MAXSTACK ∧
      Framed p.rpiYield w.sys.cpu (stackAt t j) frame callee
  | .exit => ∃ t j, w.sys.curThread = some t ∧ j + 9 ≤ THREAD_MAXSTACK ∧
      w.sys.cpu.sp = stackAt t (j + 9)
  | .start frame callee a => w.sys.inCaller ∧
      (∃ base, (∀ i < 9 + p.rpiThreadStart.size, p.callerStack (word base i)) ∧
        Framed p.rpiThreadStart w.sys.cpu base frame callee) ∧
      (w.sys.schedulerThread = none → w.sys.freeq.head = none → Fresh p w.allocs a)

end EmbeddedOS.Threads
