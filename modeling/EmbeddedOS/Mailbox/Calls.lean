import EmbeddedOS.Mmio.Logic
import Mathlib.Data.UInt
import Mathlib.Data.Nat.Bitwise

/-! mbox.h and mbox.c: questions to the graphics processor, by messages in memory that both processors see
and mail that tells where they are. -/
namespace EmbeddedOS.Mailbox
open Mmio

inductive Reg where
  | MBOX_STATUS | MBOX_READ | MBOX_WRITE
  /-- A word of the memory. -/
  | ram (a : UInt32)
  deriving DecidableEq

def MAILBOX_FULL : UInt32 := 0x80000000
def MAILBOX_EMPTY : UInt32 := 0x40000000
def GPU_MEM_OFFSET : UInt32 := 0x40000000
def MBOX_CH : UInt32 := 8

def DEPTH : Nat := 8

def word (msg i : UInt32) : UInt32 := msg + 4 * i

def message (ram : UInt32 → UInt32) (msg : UInt32) : List UInt32 :=
  [0, 1, 2, 3, 4, 5, 6, 7].map fun i => ram (word msg i)

def update (ram : UInt32 → UInt32) (a v : UInt32) : UInt32 → UInt32 := fun b => if b = a then v else ram b

/-- What is answered: whether the whole is a success, the word of the tag, and the two words of the value. -/
structure Reply where
  ok : Bool
  tag : UInt32
  first : UInt32
  second : UInt32

/-- A message as it was handed over, and what was answered. -/
structure Exchange where
  asked : List UInt32
  reply : Reply

/-- The memory, the mail to the graphics processor and from it, what it works on, and all it has answered. -/
structure Gpu where
  ram : UInt32 → UInt32
  requests : List UInt32
  working : Option (UInt32 × List UInt32)
  replies : List UInt32
  log : List Exchange

namespace Gpu

def base (mail : UInt32) : UInt32 := mail &&& 0x3FFFFFF0

def channel (mail : UInt32) : UInt32 := mail &&& 0xf

def load : Reg → Gpu → UInt32 × Gpu
  | .MBOX_STATUS, s =>
    ((if s.requests.length < DEPTH then 0 else MAILBOX_FULL) ||| (if s.replies = [] then MAILBOX_EMPTY else 0), s)
  | .MBOX_READ, s =>
    match s.replies with
    | [] => (0, s)
    | mail :: rest => (mail, { s with replies := rest })
  | .MBOX_WRITE, s => (0, s)
  | .ram a, s => (s.ram a, s)

def store : Reg → UInt32 → Gpu → Gpu
  | .MBOX_WRITE, v, s => if s.requests.length < DEPTH then { s with requests := s.requests ++ [v] } else s
  | .ram a, v, s => { s with ram := update s.ram a v }
  | _, _, s => s

/-- It takes its mail, writes into the message that it works on, answers it, or sends mail of its own. -/
inductive Move where
  | take
  | write (i w : UInt32)
  | answer (r : Reply)
  | mail (v : UInt32)

def answered (ram : UInt32 → UInt32) (msg : UInt32) (r : Reply) : UInt32 → UInt32 :=
  update (update (update (update ram (word msg 1) (if r.ok then 0x80000000 else 0x80000001))
    (word msg 4) r.tag) (word msg 5) r.first) (word msg 6) r.second

def act : Move → Gpu → Option Gpu
  | .take, s =>
    match s.working, s.requests with
    | none, v :: rest =>
      if channel v = MBOX_CH then
        some { s with working := some (v, message s.ram (base v)), requests := rest }
      else some { s with requests := rest }
    | _, _ => none
  | .write i w, s =>
    match s.working with
    | some (v, _) => some { s with ram := update s.ram (word (base v) (i % 8)) w }
    | none => none
  | .answer r, s =>
    match s.working with
    | some (v, asked) =>
      some { s with
        ram := answered s.ram (base v) r
        working := none
        replies := s.replies ++ [v]
        log := s.log ++ [⟨asked, r⟩] }
    | none => none
  | .mail v, s => if channel v = MBOX_CH then none else some { s with replies := s.replies ++ [v] }

end Gpu

def gpu : Device Reg UInt32 Gpu Gpu.Move where
  load := Gpu.load
  store := Gpu.store
  act := Gpu.act

abbrev Bus := Driver Reg UInt32
abbrev Code := Program Reg UInt32 Unit

def assert (p : Prop) [Decidable p] : Code Unit := if p then pure () else .halt

def uncached (cp : UInt32) : UInt32 := cp ||| GPU_MEM_OFFSET

def mboxWrite (channel data : UInt32) : Code Unit := do
  assert (channel = MBOX_CH)
  assert (data % 16 = 0)
  let _ ← Program.call (poll .MBOX_STATUS fun v => v &&& MAILBOX_FULL = 0)
  .call (store .MBOX_WRITE (uncached data ||| channel))

def mboxRead (channel : UInt32) : Code UInt32 := do
  assert (channel = MBOX_CH)
  let _ ← Program.call (poll .MBOX_STATUS fun v => v &&& MAILBOX_EMPTY = 0)
  let v ← Program.call (load .MBOX_READ)
  if v &&& 0xf ≠ channel then .halt else pure v

def mboxSend (_channel data : UInt32) : Code UInt32 := do
  mboxWrite MBOX_CH data
  let _ ← mboxRead MBOX_CH
  let code ← Program.call (load (.ram (word data 1)))
  if code ≠ 0x80000000 then .halt else pure 0

def fill (msg i : UInt32) : List UInt32 → Bus Unit
  | [] => pure ()
  | w :: ws => do
    store (.ram (word msg i)) w
    fill msg (i + 1) ws

/-- What the five calls have in common: the message for a tag, sent and checked. -/
def ask (tag msg : UInt32) : Code Unit := do
  assert (msg % 16 = 0)
  .call (fill msg 0 [8 * 4, 0, tag, 8, 0, 0, 0, 0])
  let _ ← mboxSend MBOX_CH msg
  let code ← Program.call (load (.ram (word msg 1)))
  if code ≠ 0x80000000 then .halt else pure ()

def rpiGetSerialnum (msg : UInt32) : Code UInt64 := do
  ask 0x00010004 msg
  let reply ← Program.call (load (.ram (word msg 4)))
  assert (reply = ((1 : UInt32) <<< 31) ||| 8)
  let upper ← Program.call (load (.ram (word msg 6)))
  assert (upper = 0)
  let lower ← Program.call (load (.ram (word msg 5)))
  pure lower.toUInt64

def rpiGetMemsize (msg : UInt32) : Code UInt32 := do
  ask 0x00010005 msg
  .call (load (.ram (word msg 6)))

def rpiGetModel (msg : UInt32) : Code UInt32 := do
  ask 0x00010001 msg
  .call (load (.ram (word msg 5)))

def rpiGetRevision (msg : UInt32) : Code UInt32 := do
  ask 0x00010002 msg
  .call (load (.ram (word msg 5)))

def rpiTempGet (msg : UInt32) : Code UInt32 := do
  ask 0x00030006 msg
  .call (load (.ram (word msg 6)))

section Mail

def mailFor (msg : UInt32) : UInt32 := uncached msg ||| MBOX_CH

theorem aligned_low {msg : UInt32} (aligned : msg % 16 = 0) {i : Nat} (inside : i < 4) :
    msg.toNat.testBit i = false := by
  have zero : msg.toNat % 2 ^ 4 = 0 := congrArg UInt32.toNat aligned
  have bit := Nat.testBit_mod_two_pow msg.toNat 4 i
  rw [zero, Nat.zero_testBit, decide_eq_true inside, Bool.true_and] at bit
  exact bit.symm

theorem mail_bit (msg : UInt32) (i : Nat) : (mailFor msg).toNat.testBit i =
    (msg.toNat.testBit i || decide (i = 30) || decide (i = 3)) := by
  have high : GPU_MEM_OFFSET.toNat = 2 ^ 30 := rfl
  have small : MBOX_CH.toNat = 2 ^ 3 := rfl
  rw [mailFor, uncached, UInt32.toNat_or, UInt32.toNat_or, Nat.testBit_or, Nat.testBit_or, high, small,
    Nat.testBit_two_pow, Nat.testBit_two_pow]
  simp only [eq_comm]

theorem mail_channel {msg : UInt32} (aligned : msg % 16 = 0) : Gpu.channel (mailFor msg) = MBOX_CH := by
  rw [← UInt32.toNat_inj]
  apply Nat.eq_of_testBit_eq
  intro i
  have mask : (0xf : UInt32).toNat = 2 ^ 4 - 1 := rfl
  have small : MBOX_CH.toNat = 2 ^ 3 := rfl
  rw [Gpu.channel, UInt32.toNat_and, Nat.testBit_and, mail_bit, mask, Nat.testBit_two_pow_sub_one, small,
    Nat.testBit_two_pow]
  by_cases inside : i < 4
  · have apart : ¬ i = 30 := by omega
    simp [aligned_low aligned inside, inside, apart, eq_comm]
  · have apart : ¬ 3 = i := by omega
    simp [inside, apart]

theorem mail_base {msg : UInt32} (aligned : msg % 16 = 0) (low : msg < 0x40000000) :
    Gpu.base (mailFor msg) = msg := by
  rw [← UInt32.toNat_inj]
  apply Nat.eq_of_testBit_eq
  intro i
  have mask : (0x3FFFFFF0 : UInt32).toNat = (2 ^ 26 - 1) <<< 4 := rfl
  rw [Gpu.base, UInt32.toNat_and, Nat.testBit_and, mail_bit, mask, Nat.testBit_shiftLeft,
    Nat.testBit_two_pow_sub_one]
  have bound : msg.toNat < 2 ^ 30 := UInt32.lt_iff_toNat_lt.mp low
  by_cases small : i < 4
  · simp [aligned_low aligned small, small]
  · by_cases high : i < 30
    · have inside : i - 4 < 26 := by omega
      have apart : ¬ i = 30 ∧ ¬ i = 3 := by omega
      simp [inside, apart]
      omega
    · have none : msg.toNat.testBit i = false :=
        Nat.testBit_lt_two_pow (Nat.lt_of_lt_of_le bound (Nat.pow_le_pow_right (by decide) (by omega)))
      have outside : ¬ i - 4 < 26 := by omega
      simp [none, outside]

theorem word_inj {msg i j : UInt32} (few : i < 8) (few' : j < 8) : word msg i = word msg j ↔ i = j := by
  constructor
  · intro same
    have same : 4 * i = 4 * j := by simpa [word] using same
    rw [UInt32.lt_iff_toNat_lt] at few few'
    rw [← UInt32.toNat_inj] at same ⊢
    rw [UInt32.toNat_mul, UInt32.toNat_mul] at same
    change 4 * i.toNat % 2 ^ 32 = 4 * j.toNat % 2 ^ 32 at same
    change i.toNat < 8 at few
    change j.toNat < 8 at few'
    omega
  · rintro rfl
    rfl

end Mail

end EmbeddedOS.Mailbox
