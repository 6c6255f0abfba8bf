import EmbeddedOS.Mmio.Driver

/-! The serial controller behind the registers of i2c.c.
A store to the control register that sets ST starts a transfer, and the READ bit of
the same store is its direction. From then on bytes go over the bus on their own. -/
namespace EmbeddedOS.I2c
open Mmio

inductive Reg where
  | control | status | dlen | devAddr | fifo | clockDiv

/-- One transfer on the bus: what it was started with, and the bytes so far. -/
structure Transfer where
  read : Bool
  addr : UInt32
  len : Nat
  bytes : List UInt8

def Transfer.header (t : Transfer) : Bool × UInt32 × Nat := (t.read, t.addr, t.len)

structure Bsc where
  control : UInt32
  dlen : UInt32
  devAddr : UInt32
  clockDiv : UInt32
  fifo : List UInt8
  active : Bool
  done : Bool
  past : List Transfer
  current : Option Transfer

namespace Bsc

def log (s : Bsc) : List Transfer := s.past ++ s.current.toList

def flag (b : Bool) (i : UInt32) : UInt32 := if b then 1 <<< i else 0

def statusWord (ta done txw rxr txd rxd txe rxf : Bool) : UInt32 :=
  flag ta 0 ||| flag done 1 ||| flag txw 2 ||| flag rxr 3 ||| flag txd 4 ||| flag rxd 5 |||
    flag txe 6 ||| flag rxf 7

def status (s : Bsc) : UInt32 :=
  statusWord s.active s.done
    (s.active && s.current.any (! ·.read) && decide (s.fifo.length < 4))
    (s.active && s.current.any (·.read) && decide (12 ≤ s.fifo.length))
    (decide (s.fifo.length < 16)) (! s.fifo.isEmpty) s.fifo.isEmpty (decide (16 ≤ s.fifo.length))

def load : Reg → Bsc → UInt32 × Bsc
  | .control, s => (s.control, s)
  | .status, s => (s.status, s)
  | .dlen, s =>
    match s.current with
    | some t => if s.active || s.done then (.ofNat (t.len - t.bytes.length), s) else (s.dlen, s)
    | none => (s.dlen, s)
  | .devAddr, s => (s.devAddr, s)
  | .fifo, s =>
    match s.fifo with
    | [] => (0, s)
    | b :: rest => (b.toUInt32, { s with fifo := rest })
  | .clockDiv, s => (s.clockDiv, s)

/-- ST and the two CLEAR bits act once and read back as 0. -/
def setControl (v : UInt32) (s : Bsc) : Bsc :=
  { s with
    control := v &&& ~~~0xB0
    fifo := if v &&& 0x30 ≠ 0 then [] else s.fifo }

def start (read : Bool) (s : Bsc) : Bsc :=
  { s with
    active := true
    past := s.log
    current := some ⟨read, s.devAddr, s.dlen.toNat, []⟩ }

def store : Reg → UInt32 → Bsc → Bsc
  | .control, v, s =>
    if v &&& 0x80 ≠ 0 then (s.setControl v).start (v &&& 1 ≠ 0) else s.setControl v
  | .status, v, s => { s with done := s.done && v &&& 2 = 0 }
  | .dlen, v, s => { s with dlen := v &&& 0xFFFF }
  | .devAddr, v, s => { s with devAddr := v &&& 0x7F }
  | .fifo, v, s => if s.fifo.length < 16 then { s with fifo := s.fifo ++ [v.toUInt8] } else s
  | .clockDiv, v, s => { s with clockDiv := v &&& 0xFFFF }

/-- What happens on the bus: a byte goes out, the device sends one, or the transfer
has come to its end. -/
inductive Move where
  | send
  | receive (b : UInt8)
  | finish

def act : Move → Bsc → Option Bsc
  | .send, s =>
    match s.current, s.fifo with
    | some t, b :: rest =>
      if s.active && ! t.read && decide (t.bytes.length < t.len) then
        some { s with fifo := rest, current := some { t with bytes := t.bytes ++ [b] } }
      else none
    | _, _ => none
  | .receive b, s =>
    match s.current with
    | some t =>
      if s.active && t.read && decide (t.bytes.length < t.len) && decide (s.fifo.length < 16) then
        some { s with fifo := s.fifo ++ [b], current := some { t with bytes := t.bytes ++ [b] } }
      else none
    | none => none
  | .finish, s =>
    match s.current with
    | some t =>
      if s.active && decide (t.len ≤ t.bytes.length) then some { s with active := false, done := true }
      else none
    | none => none

/-- All that the controller can do on its own, one rule for each move. -/
inductive Moves (s : Bsc) : Bsc → Prop where
  | send {t : Transfer} {b : UInt8} {rest : List UInt8} (on : s.active = true)
      (current : s.current = some t) (queue : s.fifo = b :: rest) (out : t.read = false)
      (left : t.bytes.length < t.len) :
      Moves s { s with fifo := rest, current := some { t with bytes := t.bytes ++ [b] } }
  | receive {t : Transfer} (b : UInt8) (on : s.active = true) (current : s.current = some t)
      (back : t.read = true) (left : t.bytes.length < t.len) (room : s.fifo.length < 16) :
      Moves s { s with fifo := s.fifo ++ [b], current := some { t with bytes := t.bytes ++ [b] } }
  | finish {t : Transfer} (on : s.active = true) (current : s.current = some t)
      (whole : t.len ≤ t.bytes.length) : Moves s { s with active := false, done := true }

theorem act_cases {e : Move} {s s' : Bsc} (moved : act e s = some s') : Moves s s' := by
  cases e with
  | send =>
    simp only [act] at moved
    split at moved
    · rename_i t b rest current queue
      split at moved
      · rename_i fires
        cases moved
        simp only [Bool.and_eq_true, Bool.not_eq_true', decide_eq_true_eq] at fires
        exact .send fires.1.1 current queue fires.1.2 fires.2
      · cases moved
    · cases moved
  | receive b =>
    simp only [act] at moved
    split at moved
    · rename_i t current
      split at moved
      · rename_i fires
        cases moved
        simp only [Bool.and_eq_true, decide_eq_true_eq] at fires
        exact .receive b fires.1.1.1 current fires.1.1.2 fires.1.2 fires.2
      · cases moved
    · cases moved
  | finish =>
    simp only [act] at moved
    split at moved
    · rename_i t current
      split at moved
      · rename_i fires
        cases moved
        simp only [Bool.and_eq_true, decide_eq_true_eq] at fires
        exact .finish fires.1 current fires.2
      · cases moved
    · cases moved

theorem Moves.act {s s' : Bsc} (moves : Moves s s') : ∃ e, Bsc.act e s = some s' := by
  cases moves with
  | send on current queue out left =>
    refine ⟨.send, ?_⟩
    simp only [Bsc.act, current, queue, on, out, left, Bool.not_false, Bool.and_self, decide_true,
      if_true]
  | receive b on current back left room =>
    refine ⟨.receive b, ?_⟩
    simp only [Bsc.act, current, on, back, left, room, Bool.and_self, decide_true, if_true]
  | finish on current whole =>
    refine ⟨.finish, ?_⟩
    simp only [Bsc.act, current, on, whole, Bool.and_self, decide_true, if_true]

end Bsc

def bsc : Device Reg UInt32 Bsc Bsc.Move := ⟨Bsc.load, Bsc.store, Bsc.act⟩

section Status

theorem statusWord_bits : ∀ ta done txw rxr txd rxd txe rxf : Bool,
    let v := Bsc.statusWord ta done txw rxr txd rxd txe rxf
    (v &&& 1 ≠ 0 ↔ ta = true) ∧ (v &&& 0b10 ≠ 0 ↔ done = true) ∧
      ((v >>> 4) &&& 1 ≠ 0 ↔ txd = true) ∧ ((v >>> 5) &&& 1 ≠ 0 ↔ rxd = true) ∧
      (v &&& ((1 : UInt32) <<< 6) ≠ 0 ↔ txe = true) ∧ (v ||| 0b10) &&& 2 ≠ 0 := by
  decide

variable (s : Bsc)

theorem status_active : s.status &&& 1 ≠ 0 ↔ s.active = true := (statusWord_bits ..).1

theorem status_done : s.status &&& 0b10 ≠ 0 ↔ s.done = true := (statusWord_bits ..).2.1

theorem status_room : (s.status >>> 4) &&& 1 ≠ 0 ↔ s.fifo.length < 16 := by
  rw [← decide_eq_true_iff (p := s.fifo.length < 16)]
  exact (statusWord_bits ..).2.2.1

theorem status_data : (s.status >>> 5) &&& 1 ≠ 0 ↔ s.fifo ≠ [] := by
  rw [← List.isEmpty_eq_false_iff, ← Bool.not_eq_true']
  exact (statusWord_bits ..).2.2.2.1

theorem status_empty : s.status &&& ((1 : UInt32) <<< 6) ≠ 0 ↔ s.fifo = [] := by
  rw [← List.isEmpty_iff]
  exact (statusWord_bits ..).2.2.2.2.1

theorem status_clears : (s.status ||| 0b10) &&& 2 ≠ 0 := (statusWord_bits ..).2.2.2.2.2

end Status

end EmbeddedOS.I2c
