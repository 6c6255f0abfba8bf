import EmbeddedOS.I2c.Calls
import EmbeddedOS.Mmio.Progress

/-! The controller with transfers that it gives up: a device that does not acknowledge, or that
stretches the clock for too long. -/
namespace EmbeddedOS.I2c
open Mmio

section Controller

/-- The error bits, and whether the status was read since the transfer was started. -/
structure Controller extends Bsc where
  err : Bool
  clkt : Bool
  polled : Bool

/-- The transfer goes on, or is given up with one of the error bits, and with DONE or without. -/
inductive Fault where
  | bus (m : Bsc.Move)
  | abort (clkt done : Bool)

namespace Controller

def status (s : Controller) : UInt32 := s.toBsc.status ||| (Bsc.flag s.err 8 ||| Bsc.flag s.clkt 9)

def load : Reg → Controller → UInt32 × Controller
  | .status, s => (s.status, { s with polled := s.polled || s.active })
  | r, s => ((Bsc.load r s.toBsc).1, { s with toBsc := (Bsc.load r s.toBsc).2 })

def store (r : Reg) (v : UInt32) (s : Controller) : Controller :=
  let t := { s with toBsc := Bsc.store r v s.toBsc }
  match r with
  | .status => { t with err := t.err && v &&& 0x100 = 0, clkt := t.clkt && v &&& 0x200 = 0 }
  | .control => { t with polled := t.polled && v &&& 0x80 = 0 }
  | _ => t

def act : Fault → Controller → Option Controller
  | .bus m, s => (Bsc.act m s.toBsc).map fun b => { s with toBsc := b }
  | .abort clkt done, s =>
    if s.active then
      some { s with active := false, done := s.done || done, err := s.err || !clkt, clkt := s.clkt || clkt }
    else none

end Controller

def controller : Device Reg UInt32 Controller Fault := ⟨Controller.load, Controller.store, Controller.act⟩

/-- No transfer is given up before its last byte, and none is over before its start was seen. -/
def Steady (s : Controller) : Fault → Prop
  | .bus .finish => s.polled = true
  | .bus _ => True
  | .abort _ done => done = true ∧ s.polled = true ∧ ∃ t, s.current = some t ∧ t.len ≤ t.bytes.length

/-- A byte on the bus does not end the transfer. -/
theorem act_stays {m : Bsc.Move} {b b' : Bsc} (moved : Bsc.act m b = some b') (goes : m ≠ .finish) :
    b'.active = b.active := by
  cases m with
  | finish => exact absurd rfl goes
  | send | receive =>
    simp only [Bsc.act] at moved
    repeat split at moved
    all_goals cases moved
    all_goals rfl

theorem Bsc.Moves.on {b b' : Bsc} (moves : Bsc.Moves b b') : b.active = true := by
  cases moves <;> assumption

/-- A steady move is one of a controller that knows no errors. -/
theorem steady_moves {s t : Controller} {e : Fault} (steady : Steady s e) (moved : controller.act e s = some t) :
    Bsc.Moves s.toBsc t.toBsc ∧ t.polled = s.polled ∧ (s.polled = false → t.active = s.active) := by
  cases e with
  | bus m =>
    obtain ⟨b, here, same⟩ := Option.map_eq_some_iff.mp moved
    subst same
    refine ⟨Bsc.act_cases here, rfl, fun unseen => act_stays here ?_⟩
    rintro rfl
    rw [show s.polled = true from steady] at unseen
    cases unseen
  | abort clkt done =>
    obtain ⟨rfl, seen, x, current, whole⟩ := steady
    change (if s.active then _ else none) = some t at moved
    split at moved
    · rename_i on
      cases moved
      refine ⟨?_, rfl, fun unseen => ?_⟩
      · rw [Bool.or_true]
        exact .finish on current whole
      · rw [seen] at unseen
        cases unseen
    · cases moved

end Controller

section Status

theorem or_masked {a b k : UInt32} (none : b &&& k = 0) : (a ||| b) &&& k = a &&& k := by
  have split : (a ||| b) &&& k = a &&& k ||| b &&& k := UInt32.toBitVec_inj.mp BitVec.and_or_distrib_right
  rw [split, none, UInt32.or_zero]

theorem bit_set (v : UInt32) : (v ||| 0b10) &&& 2 ≠ 0 := by
  have set : (v ||| 0b10) &&& 2 = v &&& 2 ||| 2 := UInt32.toBitVec_inj.mp BitVec.and_or_distrib_right
  intro clear
  rw [set] at clear
  exact absurd (UInt32.or_eq_zero_iff.mp clear).2 (by decide)

variable (s : Controller)

/-- The bits that i2c.c looks at are those of the transfer. -/
theorem status_masked {k : UInt32} (low : k &&& 0xff = k) : s.status &&& k = s.toBsc.status &&& k := by
  have unseen : (Bsc.flag s.err 8 ||| Bsc.flag s.clkt 9) &&& 0xff = 0 := by
    cases s.err <;> cases s.clkt <;> rfl
  refine or_masked ?_
  rw [← low, UInt32.and_comm k, ← UInt32.and_assoc, unseen]
  exact UInt32.zero_and

theorem status_shifted {i : UInt32} (low : i = 4 ∨ i = 5) :
    (s.status >>> i) &&& 1 = (s.toBsc.status >>> i) &&& 1 := by
  change ((_ ||| _) >>> i) &&& 1 = _
  rw [UInt32.shiftRight_or]
  refine or_masked ?_
  rcases low with rfl | rfl <;> cases s.err <;> cases s.clkt <;> rfl

end Status

section Idle
variable {α : Type} {Q : α → Controller → Prop} {s : Controller} {M : Nat}

theorem idle_dwindles (off : s.active = false) : Dwindles controller Steady (· = s) fun _ => 0 := by
  rintro _ e t rfl steady moved
  have on := (steady_moves steady moved).1.on
  rw [off] at on
  cases on

theorem quiet_status (off : s.active = false) : (controller.load .status s).2 = s := by
  change { s with polled := s.polled || s.active } = s
  rw [off, Bool.or_false]

theorem quiet_poll {ready : UInt32 → Bool} {k : UInt32 → Bus α} (off : s.active = false)
    (good : ready s.status = true) (next : Finishes controller Steady M Q (k s.status) s) :
    Finishes controller Steady (0 + 1 + M) Q (.poll .status ready k) s := by
  refine finishes_poll (idle_dwindles off) (fun _ _ => Nat.le_refl 0) ?_ ?_ rfl
  · rintro _ rfl bad
    exact absurd (good.symm.trans bad) Bool.noConfusion
  · rintro _ rfl _
    rw [quiet_status off]
    exact next

theorem quiet_load {r : Reg} {k : UInt32 → Bus α} (off : s.active = false)
    (next : Finishes controller Steady M Q (k (controller.load r s).1) (controller.load r s).2) :
    Finishes controller Steady (0 + 1 + M) Q (.load r k) s :=
  finishes_load (idle_dwindles off) (fun _ _ => Nat.le_refl 0) (by rintro _ rfl; exact next) rfl

theorem quiet_store {r : Reg} {v : UInt32} {k : Bus α} (off : s.active = false)
    (next : Finishes controller Steady M Q k (controller.store r v s)) :
    Finishes controller Steady (0 + 1 + M) Q (.store r v k) s :=
  finishes_store (idle_dwindles off) (fun _ _ => Nat.le_refl 0) (by rintro _ rfl; exact next) rfl

theorem quiet_ret {a : α} (off : s.active = false) (post : Q a s) :
    Finishes controller Steady (0 + 1 + 0) Q (.ret a) s :=
  finishes_ret (idle_dwindles off) (fun _ _ => Nat.le_refl 0) (by rintro _ rfl; exact post) rfl

end Idle

end EmbeddedOS.I2c
