import EmbeddedOS.Arm.Memory
import EmbeddedOS.Linked.Queue

/-! rpi-thread.c and rpi-thread-asm.S: cooperative threads, each with its saved registers on its own
stack, and the two queues of their blocks. -/
namespace EmbeddedOS.Threads
open Arm Linked

def THREAD_MAXSTACK : Nat := 2048

def savedSpAt (t : UInt32) : UInt32 := word t 0
def nextAt (t : UInt32) : UInt32 := word t 1
def tidAt (t : UInt32) : UInt32 := word t 2
def fnAt (t : UInt32) : UInt32 := word t 3
def argAt (t : UInt32) : UInt32 := word t 4
def stackAt (t : UInt32) (i : Nat) : UInt32 := word t (6 + i)

def blockWords : Nat := 6 + THREAD_MAXSTACK

instance savedRegisters : NeZero 9 := ⟨by decide⟩

def R4_OFFSET : Fin 9 := 0
def R5_OFFSET : Fin 9 := 1
def LR_OFFSET : Fin 9 := 8

/-- r4 to r11 and lr, in the order in which a push stores them. -/
abbrev Callee := Fin 9 → UInt32

structure Cpu where
  r0 : UInt32
  r1 : UInt32
  callee : Callee
  sp : UInt32
  pc : UInt32
  mem : Memory

/-- `push {r4-r11, lr}` -/
def push (c : Cpu) : Cpu :=
  { c with
    sp := c.sp - 36
    mem := fill c.mem (c.sp - 36) (row c.callee) }

/-- `pop {r4-r11, lr}` -/
def pop (c : Cpu) : Cpu := { c with callee := fun i => c.mem (word c.sp i), sp := c.sp + 36 }

def rpiCswitch (oldSpSave newSp : UInt32) (c : Cpu) : Cpu :=
  let c := push { c with r0 := oldSpSave, r1 := newSp }
  let c := { c with mem := write c.mem c.r0 c.sp }
  let c := pop { c with sp := c.r1 }
  { c with pc := c.callee LR_OFFSET }

/-- What a compiled function does around its call of `rpi_cswitch`: it keeps words in a frame, is
returned to at an address, and at its end takes registers, and apart from them the pc, from what it
finds there. -/
structure Around where
  size : Nat
  short : size < 2 ^ 20
  back : UInt32
  restore : (Fin size → UInt32) → Callee → Callee
  pc : (Fin size → UInt32) → Callee → UInt32

structure Image where
  rpiInitTrampoline : UInt32
  /-- The address of the branch to `rpi_exit` at its end. -/
  toExit : UInt32
  rpiYield : Around
  rpiThreadStart : Around
  distinct : [rpiInitTrampoline, rpiYield.back, rpiThreadStart.back].Nodup
  /-- The stack of the caller of `rpi_thread_start`. -/
  callerStack : UInt32 → Prop

def rpiInitTrampoline (p : Image) (c : Cpu) : Cpu :=
  let c := { c with r0 := c.callee R5_OFFSET }
  let c := { c with r1 := c.callee R4_OFFSET }
  { c with callee := Function.update c.callee LR_OFFSET p.toExit, pc := c.r1 }

def enter (f : Around) (frame : Fin f.size → UInt32) (callee : Callee) (c : Cpu) : Cpu :=
  let sp := c.sp - 4 * UInt32.ofNat f.size
  { c with
    callee := callee
    sp := sp
    mem := fill c.mem sp (row frame) }

def leave (f : Around) (c : Cpu) : Cpu :=
  let frame (i : Fin f.size) := c.mem (word c.sp i)
  { c with
    callee := f.restore frame c.callee
    sp := c.sp + 4 * UInt32.ofNat f.size
    pc := f.pc frame c.callee }

structure Q extends Ends UInt32 where
  cnt : UInt32

def wordOf (p : Option UInt32) : UInt32 := p.getD 0

def pointer (w : UInt32) : Option UInt32 := if w = 0 then none else some w

def links (mem : Memory) : Links UInt32 := fun t => pointer (mem (nextAt t))

def qEmpty (q : Q) : Option Bool :=
  if q.head ≠ none then some false
  else if q.cnt = 0 ∧ q.tail = none then some true
  else none

def qPop (mem : Memory) (q : Q) : Option (Option UInt32 × Q) :=
  match q.head with
  | none => (qEmpty q).bind fun empty => if empty then some (none, q) else none
  | some e =>
    let head := links mem e
    some (some e, { head := head, tail := if head = none then none else q.tail, cnt := q.cnt - 1 })

def qAppend (mem : Memory) (q : Q) (e : UInt32) : Memory × Q :=
  let mem := write mem (nextAt e) 0
  match q.tail with
  | none => (mem, { head := some e, tail := some e, cnt := q.cnt + 1 })
  | some t => (write mem (nextAt t) e, { head := q.head, tail := some e, cnt := q.cnt + 1 })

def qPush (mem : Memory) (q : Q) (e : UInt32) : Memory × Q :=
  let mem := write mem (nextAt e) (wordOf q.head)
  (mem, { head := some e, tail := if q.tail = none then some e else q.tail, cnt := q.cnt + 1 })

structure Sys where
  cpu : Cpu
  runq : Q
  freeq : Q
  curThread : Option UInt32
  schedulerThread : Option UInt32
  tid : UInt32
  nalloced : UInt32
  /-- The caller of `rpi_thread_start` runs, and no thread. -/
  inCaller : Bool

def Sys.store (s : Sys) (mem : Memory) : Sys := { s with cpu := { s.cpu with mem := mem } }

/-- A new block comes from `kmalloc_aligned` with this address. -/
def thAlloc (s : Sys) (a : UInt32) : Option (UInt32 × Sys) := do
  let (t, freeq) ← qPop s.cpu.mem s.freeq
  let (t, nalloced) := match t with
    | none => (a, s.nalloced + 1)
    | some t => (t, s.nalloced)
  guard (stackAt t 0 % 8 = 0)
  let s := s.store (write s.cpu.mem (tidAt t) s.tid)
  some (t, { s with freeq := freeq, nalloced := nalloced, tid := s.tid + 1 })

def thFree (s : Sys) (th : UInt32) : Sys :=
  let (mem, freeq) := qPush s.cpu.mem s.freeq th
  { s.store mem with freeq := freeq }

/-- Where a switch comes out: in a new thread, in one that had yielded, or in the caller. -/
def resume (p : Image) (s : Sys) : Option Sys :=
  if s.cpu.pc = p.rpiInitTrampoline then
    some { s with cpu := rpiInitTrampoline p s.cpu, inCaller := false }
  else if s.cpu.pc = p.rpiYield.back then
    some { s with cpu := leave p.rpiYield s.cpu, inCaller := false }
  else if s.cpu.pc = p.rpiThreadStart.back then
    some { s with cpu := leave p.rpiThreadStart s.cpu, inCaller := true }
  else none

def switch (p : Image) (s : Sys) (old new : UInt32) : Option Sys :=
  resume p { s with cpu := rpiCswitch (savedSpAt old) (s.cpu.mem (savedSpAt new)) s.cpu }

def rpiFork (p : Image) (s : Sys) (a code arg : UInt32) : Option Sys := do
  let (t, s) ← thAlloc s a
  let start := THREAD_MAXSTACK - 20
  let mem := write s.cpu.mem (fnAt t) code
  let mem := write mem (argAt t) arg
  let mem := write mem (stackAt t (start + LR_OFFSET.val)) p.rpiInitTrampoline
  let mem := write mem (stackAt t (start + R4_OFFSET.val)) code
  let mem := write mem (stackAt t (start + R5_OFFSET.val)) arg
  let mem := write mem (savedSpAt t) (stackAt t start)
  let (mem, runq) := qAppend mem s.runq t
  some { s with cpu := { s.cpu with r0 := t, mem := mem }, runq := runq }

def rpiExit (p : Image) (s : Sys) : Option Sys := do
  let oldThread ← s.curThread
  let (cur, runq) ← qPop s.cpu.mem s.runq
  let s := thFree { s with curThread := cur, runq := runq } oldThread
  match cur with
  | some t => switch p s oldThread t
  | none => do
    let scheduler ← s.schedulerThread
    switch p s oldThread scheduler

def rpiYield (p : Image) (s : Sys) (frame : Fin p.rpiYield.size → UInt32) (callee : Callee) :
    Option Sys := do
  let s := { s with cpu := enter p.rpiYield frame callee s.cpu }
  if ← qEmpty s.runq then
    return { s with cpu := leave p.rpiYield s.cpu }
  let oldThread ← s.curThread
  let (mem, runq) := qAppend s.cpu.mem s.runq oldThread
  let (cur, runq) ← qPop mem runq
  let t ← cur
  switch p { s.store mem with curThread := some t, runq := runq } oldThread t

/-- The first start allocates the scheduler block. -/
def schedulerBlock (s : Sys) (a : UInt32) : Option (UInt32 × Sys) :=
  match s.schedulerThread with
  | none => thAlloc s a
  | some t => some (t, s)

def rpiThreadStart (p : Image) (s : Sys) (frame : Fin p.rpiThreadStart.size → UInt32)
    (callee : Callee) (a : UInt32) : Option Sys := do
  let s := { s with cpu := enter p.rpiThreadStart frame callee s.cpu }
  if ← qEmpty s.runq then
    return { s with cpu := leave p.rpiThreadStart s.cpu }
  let (scheduler, s) ← schedulerBlock s a
  let (cur, runq) ← qPop s.cpu.mem s.runq
  let t ← cur
  switch p { s with schedulerThread := some scheduler, curThread := some t, runq := runq } scheduler t

end EmbeddedOS.Threads
