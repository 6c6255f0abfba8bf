import EmbeddedOS.Bits.Field
import EmbeddedOS.Mmio.Driver
import Mathlib.Data.UInt

/-! The mini UART behind the registers of uart.c. Bytes leave its transmit FIFO over a shift register and
come into its receive FIFO while the processor does something else. -/
namespace EmbeddedOS.Uart
open Mmio Bits

inductive Reg where
  | AUXENB | AUXIO | AUXIER | AUXIIR | AUXLCR | AUXLSR | AUXCNTL | AUXBAUD | GPFSEL1 | CLO
deriving DecidableEq

/-- The registers, the FIFOs, all bytes that have left on the wire, and all that have come into the receive
FIFO: one that comes while it is full is lost and not among them. -/
structure MiniUart where
  enb : UInt32
  ier : UInt32
  lcr : UInt32
  cntl : UInt32
  baud : UInt32
  fsel1 : UInt32
  clock : UInt32
  tx : List UInt8
  shifting : Option UInt8
  line : List UInt8
  rx : List UInt8
  arrived : List UInt8
  overrun : Bool

namespace MiniUart

def FIFO : Nat := 8

def enabled (s : MiniUart) : Bool := s.enb &&& 1 = 1

/-- What the wire carries: in the mode for seven bits the last one is lost, and no pin carries anything
unless its function is ALT5. -/
def onWire (s : MiniUart) (pin : Nat) (b : UInt8) : List UInt8 :=
  if field s.fsel1.toNat (3 * (pin % 10)) 3 = 2 then [if s.lcr &&& 3 = 3 then b else b &&& 0x7f] else []

def idle (s : MiniUart) : Bool := s.tx.isEmpty && s.shifting.isNone

def flag (b : Bool) (i : UInt32) : UInt32 := if b then 1 <<< i else 0

def status (data overrun room idle : Bool) : UInt32 :=
  flag data 0 ||| flag overrun 1 ||| flag room 5 ||| flag idle 6

def lsr (s : MiniUart) : UInt32 :=
  status (! s.rx.isEmpty) s.overrun (decide (s.tx.length < FIFO)) s.idle

/-- With the UART disabled its own registers cannot be accessed. -/
def load : Reg → MiniUart → UInt32 × MiniUart
  | .AUXENB, s => (s.enb, s)
  | .GPFSEL1, s => (s.fsel1, s)
  | .CLO, s => (s.clock, s)
  | r, s =>
    if s.enabled then
      match r with
      | Reg.AUXIO =>
        match s.rx with
        | [] => (0, s)
        | b :: rest => (b.toUInt32, { s with rx := rest })
      | .AUXLSR => (s.lsr, { s with overrun := false })
      | .AUXIER => (s.ier, s)
      | .AUXIIR => (0xC1, s)
      | .AUXLCR => (s.lcr, s)
      | .AUXCNTL => (s.cntl, s)
      | _ => (s.baud, s)
    else (0, s)

def store : Reg → UInt32 → MiniUart → MiniUart
  | .AUXENB, v, s => { s with enb := v &&& 7 }
  | .GPFSEL1, v, s => { s with fsel1 := v }
  | .CLO, _, s => s
  | r, v, s =>
    if s.enabled then
      match r with
      | Reg.AUXIO => if s.tx.length < FIFO then { s with tx := s.tx ++ [v.toUInt8] } else s
      | .AUXIIR =>
        { s with
          rx := if v &&& 0b10 ≠ 0 then [] else s.rx
          tx := if v &&& 0b100 ≠ 0 then [] else s.tx }
      | .AUXIER => { s with ier := v }
      | .AUXLCR => { s with lcr := v }
      | .AUXCNTL => { s with cntl := v }
      | .AUXBAUD => { s with baud := v }
      | _ => s
    else s

/-- A byte goes into the shift register, leaves it, or comes in; time goes by. -/
inductive Move where
  | shift
  | leave
  | receive (b : UInt8)
  | tick (n : UInt32)

def act : Move → MiniUart → Option MiniUart
  | .shift, s =>
    match s.shifting, s.tx with
    | none, b :: rest =>
      if s.enabled && s.cntl &&& 2 = 2 then some { s with shifting := some b, tx := rest } else none
    | _, _ => none
  | .leave, s =>
    match s.shifting with
    | some b => some { s with shifting := none, line := s.line ++ s.onWire 14 b }
    | none => none
  | .receive b, s =>
    if s.enabled && s.cntl &&& 1 = 1 then
      if s.rx.length < FIFO then
        some { s with rx := s.rx ++ s.onWire 15 b, arrived := s.arrived ++ s.onWire 15 b }
      else some { s with overrun := true }
    else none
  | .tick n, s => some { s with clock := s.clock + n }

/-- All that the UART can do on its own, one rule for each move. -/
inductive Moves (s : MiniUart) : Move → MiniUart → Prop where
  | shift {b : UInt8} {rest : List UInt8} (free : s.shifting = none) (queue : s.tx = b :: rest)
      (on : s.enabled = true) (sends : s.cntl &&& 2 = 2) : Moves s .shift { s with shifting := some b, tx := rest }
  | leave {b : UInt8} (full : s.shifting = some b) :
      Moves s .leave { s with shifting := none, line := s.line ++ s.onWire 14 b }
  | receive (b : UInt8) (on : s.enabled = true) (hears : s.cntl &&& 1 = 1) (room : s.rx.length < FIFO) :
      Moves s (.receive b) { s with rx := s.rx ++ s.onWire 15 b, arrived := s.arrived ++ s.onWire 15 b }
  | drop (b : UInt8) (full : FIFO ≤ s.rx.length) : Moves s (.receive b) { s with overrun := true }
  | tick (n : UInt32) : Moves s (.tick n) { s with clock := s.clock + n }

theorem act_cases {e : Move} {s t : MiniUart} (moved : act e s = some t) : Moves s e t := by
  cases e with
  | shift =>
    simp only [act] at moved
    split at moved
    · rename_i free queue
      split at moved
      · rename_i fires
        cases moved
        rw [Bool.and_eq_true, decide_eq_true_eq] at fires
        exact .shift free queue fires.1 fires.2
      · cases moved
    · cases moved
  | leave =>
    simp only [act] at moved
    split at moved
    · rename_i full
      cases moved
      exact .leave full
    · cases moved
  | receive b =>
    simp only [act] at moved
    split at moved
    · rename_i fires
      rw [Bool.and_eq_true, decide_eq_true_eq] at fires
      split at moved
      · rename_i room
        cases moved
        exact .receive b fires.1 fires.2 room
      · rename_i full
        cases moved
        exact .drop b (Nat.le_of_not_lt full)
    · cases moved
  | tick n =>
    cases moved
    exact .tick n

theorem load_arrived (r : Reg) (s : MiniUart) : (load r s).2.arrived = s.arrived := by
  cases r with
  | AUXENB | GPFSEL1 | CLO => rfl
  | AUXIO =>
    simp only [load]
    split
    · split <;> rfl
    · rfl
  | AUXIER | AUXIIR | AUXLCR | AUXLSR | AUXCNTL | AUXBAUD =>
    simp only [load]
    split <;> rfl

theorem store_arrived (r : Reg) (v : UInt32) (s : MiniUart) : (store r v s).arrived = s.arrived := by
  cases r with
  | AUXENB | GPFSEL1 | CLO => rfl
  | AUXIO =>
    simp only [store]
    split
    · split <;> rfl
    · rfl
  | AUXIER | AUXIIR | AUXLCR | AUXLSR | AUXCNTL | AUXBAUD =>
    simp only [store]
    split <;> rfl

theorem load_lsr {s : MiniUart} (on : s.enabled = true) :
    load .AUXLSR s = (s.lsr, { s with overrun := false }) := by
  simp only [load, on, if_true]

theorem load_io {s : MiniUart} {b : UInt8} {rest : List UInt8} (on : s.enabled = true) (data : s.rx = b :: rest) :
    load Reg.AUXIO s = (b.toUInt32, { s with rx := rest }) := by
  simp only [load, on, if_true, data]

theorem store_io {s : MiniUart} (v : UInt32) (on : s.enabled = true) (room : s.tx.length < FIFO) :
    store Reg.AUXIO v s = { s with tx := s.tx ++ [v.toUInt8] } := by
  simp only [store, on, if_true, room]

end MiniUart

def miniUart : Device Reg UInt32 MiniUart MiniUart.Move := ⟨MiniUart.load, MiniUart.store, MiniUart.act⟩

section Status

theorem status_bits : ∀ data overrun room idle : Bool,
    let v := MiniUart.status data overrun room idle
    (v &&& 0x1 = if data then 1 else 0) ∧ ((v >>> 5) &&& 0x1 = if room then 1 else 0) ∧
      ((v >>> 6) &&& 0x1 = if idle then 1 else 0) := by
  decide

variable (s : MiniUart)

theorem lsr_data : s.lsr &&& 0x1 = if s.rx.isEmpty then 0 else 1 := by
  rw [MiniUart.lsr, (status_bits ..).1]
  cases s.rx.isEmpty <;> rfl

theorem lsr_room : (s.lsr >>> 5) &&& 0x1 = if s.tx.length < MiniUart.FIFO then 1 else 0 := by
  rw [MiniUart.lsr, (status_bits ..).2.1]
  simp only [decide_eq_true_eq]

theorem lsr_idle : (s.lsr >>> 6) &&& 0x1 = if s.idle then 1 else 0 := (status_bits ..).2.2

theorem data_iff : s.lsr &&& 0x1 ≠ 0 ↔ s.rx ≠ [] := by
  rw [lsr_data, ← List.isEmpty_eq_false_iff]
  cases s.rx.isEmpty <;> decide

theorem room_iff : (s.lsr >>> 5) &&& 0x1 ≠ 0 ↔ s.tx.length < MiniUart.FIFO := by
  rw [lsr_room]
  split <;> simp [*]

theorem idle_iff : (s.lsr >>> 6) &&& 0x1 ≠ 0 ↔ s.tx = [] ∧ s.shifting = none := by
  rw [lsr_idle, ← List.isEmpty_iff, ← Option.isNone_iff_eq_none, ← Bool.and_eq_true]
  change _ ↔ s.idle = true
  cases s.idle <;> decide

end Status

end EmbeddedOS.Uart
