import EmbeddedOS.Bits.Field
import Mathlib.Data.UInt

/-! mini-watch.c over the debug coprocessor: a watchpoint on one byte, and a handler for its faults. -/
namespace EmbeddedOS.MiniWatch

def bit (v : UInt32) (i : Nat) : Bool := v.toNat.testBit i

/-- The registers of the debug coprocessor, and those that tell about a fault. -/
structure Debug where
  dscr : UInt32
  wcr0 : UInt32
  wvr0 : UInt32
  bcr0 : UInt32
  dfsr : UInt32
  ifsr : UInt32
  wfar : UInt32

inductive Size where
  | byte | half | word

def Size.bytes : Size → Nat
  | .byte => 1
  | .half => 2
  | .word => 4

/-- A load or a store of the instruction at pc. -/
structure Access where
  pc : UInt32
  addr : UInt32
  size : Size
  load : Bool
  privileged : Bool
  aligned : addr.toNat % size.bytes = 0

def Access.touches (x : Access) (a : UInt32) : Bool :=
  decide (x.addr.toNat ≤ a.toNat) && decide (a.toNat < x.addr.toNat + x.size.bytes)

section Hardware

/-- Whether the access is one that the watchpoint is set for: in monitor mode, for the privilege and the
direction of the access, linked to nothing, and with one of its bytes selected in the word of the register. -/
def Debug.watches (d : Debug) (x : Access) : Bool :=
  bit d.dscr 15 && ! bit d.dscr 14 && bit d.wcr0 0 && bit d.wcr0 (if x.privileged then 1 else 2) &&
    bit d.wcr0 (if x.load then 3 else 4) && ! bit d.wcr0 14 && ! bit d.wcr0 20 &&
    decide (x.addr.toNat / 4 = d.wvr0.toNat / 4) &&
    (List.range 4).any fun k => bit d.wcr0 (5 + k) && x.touches (UInt32.ofNat (4 * (x.addr.toNat / 4) + k))

/-- What the fault leaves behind once the access has been made. -/
def Debug.fault (d : Debug) (x : Access) : Debug :=
  { d with
    dscr := (d.dscr &&& ~~~((0xF : UInt32) <<< 2)) ||| ((0b0010 : UInt32) <<< 2)
    dfsr := if x.load then 0b0010 else (0b0010 : UInt32) ||| ((1 : UInt32) <<< 11)
    wfar := x.pc + 8 }

def cp14DscrSet (d : Debug) (v : UInt32) : Debug := { d with dscr := v }

def cp14Wcr0Set (d : Debug) (v : UInt32) : Debug := { d with wcr0 := v }

def cp14Wvr0Set (d : Debug) (v : UInt32) : Debug := { d with wvr0 := v &&& ~~~0b11 }

end Hardware

section Support

def cp14IsEnabled (d : Debug) : UInt32 := (d.dscr >>> 15) &&& 0x1

def cp14Enable (d : Debug) : Option Debug :=
  if cp14IsEnabled d ≠ 0 then some d
  else
    let val := d.dscr &&& ~~~((0b11 : UInt32) <<< 14)
    let d := cp14DscrSet d (val ||| ((0b10 : UInt32) <<< 14))
    if cp14IsEnabled d ≠ 0 then some d else none

def cp14Bcr0IsEnabled (d : Debug) : UInt32 := d.bcr0 &&& 0x1

def cp14Wcr0IsEnabled (d : Debug) : UInt32 := d.wcr0 &&& 0x1

def cp14Wcr0Disable (d : Debug) : Debug := cp14Wcr0Set d (d.wcr0 &&& ~~~0x1)

def wasBrkptFault (d : Debug) : Bool :=
  d.ifsr &&& 0b1111 == 2 && (d.dscr >>> 2) &&& 0b1111 == 1

def wasWatchptFault (d : Debug) : Bool :=
  d.dfsr &&& 0b1111 == 2 && (d.dscr >>> 2) &&& 0b1111 == 2

def datafaultFromLd (d : Debug) : Bool := ! bit d.dfsr 11

def watchptFaultPc (d : Debug) : UInt32 := d.wfar - 0x8

end Support

structure WatchFault (R : Type) where
  faultPc : UInt32
  faultAddr : UInt32
  isLoadP : Bool
  regs : R

def watchFaultMk {R : Type} (faultPc faultAddr : UInt32) (isLoadP : Bool) (regs : R) : WatchFault R :=
  ⟨faultPc, faultAddr, isLoadP, regs⟩

/-- What a client calls, in its handler too. -/
inductive Api where
  | watch (addr : UInt32)
  | disable (addr : UInt32)

/-- The handler of the client, over what its data points to: the registers with which the program goes on,
and what it calls. -/
abbrev Handler (D R : Type) := D → WatchFault R → D × R × List Api

inductive Shown (R : Type) where
  | called (w : WatchFault R) (resumed : R)
  | enabled (on : UInt32)

/-- The variables of mini-watch.c, and what there was to see. -/
structure Sys (D R : Type) where
  debug : Debug
  watchptHandler : Option (Handler D R)
  watchptData : D
  shown : List (Shown R)

section Calls

variable {D R : Type}

def miniWatchAddr (d : Debug) (addr : UInt32) : Option Debug :=
  let b := d.wcr0
  let b := b &&& ~~~((1 : UInt32) <<< 20)
  let b := b ||| 0x1
  let b := b &&& ~~~((0b1111 : UInt32) <<< 5)
  let shift := addr % 4 + 5
  let b := b ||| ((1 : UInt32) <<< shift)
  let b := b ||| ((0b11 : UInt32) <<< 3)
  let b := b &&& ~~~((0b11 : UInt32) <<< 14)
  let b := b ||| ((0b11 : UInt32) <<< 1)
  if b = 0 then none
  else
    let d := cp14Wcr0Set d b
    let d := cp14Wvr0Set d addr
    if cp14Wcr0IsEnabled d = 0 then none else some d

def miniWatchDisable (d : Debug) (_addr : UInt32) : Debug := cp14Wcr0Disable d

def miniWatchEnabled (d : Debug) : UInt32 := cp14Wcr0IsEnabled d

def Api.run (d : Debug) : Api → Option Debug
  | .watch addr => miniWatchAddr d addr
  | .disable addr => some (miniWatchDisable d addr)

/-- The loop that looks for a one among so many bits; without one it does not end. -/
def shiftOf : Nat → UInt32 → Option UInt32
  | 0, _ => none
  | n + 1, val => if val &&& 0x1 ≠ 1 then (shiftOf n (val >>> 1)).map (1 + ·) else some 0

def watchptFault (s : Sys D R) (r : R) : Option (Sys D R) :=
  if wasBrkptFault s.debug then none
  else if ! wasWatchptFault s.debug then none
  else
    s.watchptHandler.bind fun h =>
      (shiftOf 4 ((s.debug.wcr0 >>> 5) &&& 0xF)).bind fun shift =>
        let w := watchFaultMk (watchptFaultPc s.debug) (s.debug.wvr0 + shift) (datafaultFromLd s.debug) r
        let answer := h s.watchptData w
        (answer.2.2.foldlM Api.run s.debug).map fun d =>
          { s with debug := d, watchptData := answer.1, shown := s.shown ++ [.called w answer.2.1] }

def miniWatchInit (d : Debug) (h : Handler D R) (data : D) : Option (Sys D R) :=
  (cp14Enable d).bind fun d =>
    if cp14Bcr0IsEnabled d ≠ 0 then none
    else if cp14Bcr0IsEnabled d ≠ 0 then none
    else some ⟨d, some h, data, []⟩

/-- What happens after the set up: calls, and the accesses of the program with its registers, and the program
may write what the data of the client points to. -/
inductive Event (D R : Type) where
  | api (c : Api)
  | enabled
  | data (write : D → D)
  | access (x : Access) (r : R)

def step (s : Sys D R) : Event D R → Option (Sys D R)
  | .api c => (c.run s.debug).map fun d => { s with debug := d }
  | .data write => some { s with watchptData := write s.watchptData }
  | .enabled => some { s with shown := s.shown ++ [.enabled (miniWatchEnabled s.debug)] }
  | .access x r => if s.debug.watches x then watchptFault { s with debug := s.debug.fault x } r else some s

def run (s : Sys D R) (es : List (Event D R)) : Option (Sys D R) := es.foldlM step s

end Calls

section Purpose

variable {D R : Type}

/-- At most one byte is watched. -/
structure Watcher (D R : Type) where
  watched : Option UInt32
  data : D
  shown : List (Shown R)

def Api.sets : Option UInt32 → Api → Option UInt32
  | _, .watch addr => some addr
  | _, .disable _ => none

/-- The handler is called with where the access to the byte was made and which way. -/
def Watcher.call (h : Handler D R) (s : Watcher D R) (w : WatchFault R) : Watcher D R :=
  let answer := h s.data w
  ⟨answer.2.2.foldl Api.sets s.watched, answer.1, s.shown ++ [.called w answer.2.1]⟩

def Watcher.step (h : Handler D R) (s : Watcher D R) : Event D R → Watcher D R
  | .api c => { s with watched := Api.sets s.watched c }
  | .data write => { s with data := write s.data }
  | .enabled => { s with shown := s.shown ++ [.enabled (if s.watched.isSome then 1 else 0)] }
  | .access x r =>
    match s.watched with
    | none => s
    | some a => if x.touches a then s.call h (watchFaultMk x.pc a x.load r) else s

end Purpose

end EmbeddedOS.MiniWatch
