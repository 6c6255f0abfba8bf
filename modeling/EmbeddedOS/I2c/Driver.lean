import EmbeddedOS.I2c.Bsc

/-! The driver of the controller, i2c.c. -/
namespace EmbeddedOS.I2c
open Mmio

abbrev Bus := Driver Reg UInt32

def sendFrom (data : List UInt8) : Nat → Nat → Bus Unit
  | _, 0 => pure ()
  | i, k + 1 => do
    let _ ← poll .status fun v => (v >>> 4) &&& 1 ≠ 0
    store .fifo (data.getD i 0).toUInt32
    sendFrom data (i + 1) k

def receiveBytes : Nat → Bus (List UInt8)
  | 0 => pure []
  | k + 1 => do
    let _ ← poll .status fun v => (v >>> 5) &&& 1 ≠ 0
    let v ← load .fifo
    let rest ← receiveBytes k
    pure (v.toUInt8 :: rest)

/-- What both routines do before the control register. -/
def prepare (addr nbytes : UInt32) : Bus Unit := do
  let _ ← poll .status fun v => v &&& 1 = 0
  let _ ← poll .status fun v => v &&& ((1 : UInt32) <<< 6) ≠ 0
  let v ← load .status
  store .status (v ||| 0b10)
  store .devAddr addr
  store .dlen nbytes

def i2cWrite (addr : UInt32) (data : List UInt8) (nbytes : UInt32) : Bus Int := do
  prepare addr nbytes
  let v ← load .control
  store .control (v ||| ((1 : UInt32) <<< 7))
  let v ← load .control
  store .control (v &&& ~~~0x1)
  let _ ← poll .status fun v => v &&& 1 ≠ 0
  sendFrom data 0 nbytes.toNat
  let _ ← poll .status fun v => v &&& 0b10 ≠ 0
  pure 1

/-- The bytes that the call stores into data come with its result. -/
def i2cRead (addr nbytes : UInt32) : Bus (Int × List UInt8) := do
  prepare addr nbytes
  let v ← load .control
  store .control (v ||| (((1 : UInt32) <<< 7) ||| 0x1))
  let _ ← poll .status fun v => v &&& 1 ≠ 0
  let data ← receiveBytes nbytes.toNat
  let _ ← poll .status fun v => v &&& 0b10 ≠ 0
  pure (1, data)

/-- The pins are set up elsewhere: gpio_set_function touches no register of the controller. -/
def i2cInit : Bus Unit := do
  store .control (((0b11 : UInt32) <<< 4) ||| ((1 : UInt32) <<< 15))
  store .clockDiv 0x5dc
  store .status 0

section Idle

def anything (_ : Bsc) (_ : Bsc.Move) : Prop := True

variable {α : Type} {I : Bsc → Prop} {Q : α → Bsc → Prop} {s : Bsc}

theorem idle_stable (off : s.active = false) : Stable bsc anything (· = s) := by
  rintro _ e t rfl _ moved
  cases Bsc.act_cases moved with
  | send on | receive _ on | finish on =>
    rw [off] at on
    cases on

theorem idle_ret {a : α} (off : s.active = false) (inv : I s) (post : Q a s) :
    Safe bsc anything I Q (.ret a) s :=
  safe_ret (idle_stable off) (by rintro _ rfl; exact inv) (by rintro _ rfl; exact post) rfl

theorem idle_load {r : Reg} {k : UInt32 → Bus α} (off : s.active = false) (inv : I s)
    (next : Safe bsc anything I Q (k (Bsc.load r s).1) (Bsc.load r s).2) :
    Safe bsc anything I Q (.load r k) s :=
  safe_load (idle_stable off) (by rintro _ rfl; exact inv) (by rintro _ rfl; exact next) rfl

theorem idle_store {r : Reg} {v : UInt32} {k : Bus α} (off : s.active = false) (inv : I s)
    (next : Safe bsc anything I Q k (Bsc.store r v s)) :
    Safe bsc anything I Q (.store r v k) s :=
  safe_store (idle_stable off) (by rintro _ rfl; exact inv) (by rintro _ rfl; exact next) rfl

theorem idle_poll {ready : UInt32 → Bool} {k : UInt32 → Bus α} (off : s.active = false)
    (inv : I s) (next : Safe bsc anything I Q (k s.status) s) :
    Safe bsc anything I Q (.poll .status ready k) s :=
  safe_poll (idle_stable off) (by rintro _ rfl; exact inv) (by rintro _ rfl _; rfl)
    (by rintro _ rfl _; exact next) rfl

def prepared (addr nbytes : UInt32) (s : Bsc) : Bsc :=
  { s with done := false, devAddr := addr &&& 0x7F, dlen := nbytes &&& 0xFFFF }

theorem status_stored (s : Bsc) :
    Bsc.store .status (s.status ||| 0b10) s = { s with done := false } := by
  simp only [Bsc.store, decide_eq_false (status_clears s), Bool.and_false]

theorem prepare_safe {addr n : UInt32} {k : Unit → Bus α} (off : s.active = false)
    (inv : ∀ t : Bsc, t.log = s.log → I t)
    (next : Safe bsc anything I Q (k ()) (prepared addr n s)) :
    Safe bsc anything I Q (prepare addr n >>= k) s := by
  refine idle_poll off (inv s rfl) (idle_poll off (inv s rfl) (idle_load off (inv s rfl) ?_))
  refine idle_store off (inv s rfl) ?_
  change Safe bsc anything I Q _ (Bsc.store .status (s.status ||| 0b10) s)
  rw [status_stored]
  exact idle_store off (inv _ rfl) (idle_store off (inv _ rfl) next)

end Idle

end EmbeddedOS.I2c
