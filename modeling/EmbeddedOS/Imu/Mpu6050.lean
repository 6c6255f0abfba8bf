import EmbeddedOS.Mmio.Driver
import Mathlib.Tactic.IntervalCases

/-! Readings of the accelerometer and of the gyro, mpu-6050.c.
Each register is read by a bus transfer of its own, and the device may replace its
samples at any moment between two of them. -/
namespace EmbeddedOS.Imu
open Mmio

/-- A register of a device on the bus. -/
structure Reg where
  addr : UInt8
  reg : UInt8
deriving DecidableEq

abbrev Bus := Driver Reg UInt8

def INT_STATUS : UInt8 := 0x3a
def ACCEL_XOUT_H : UInt8 := 0x3b
def accelXoutL : UInt8 := 0x3c
def accelYoutH : UInt8 := 0x3d
def accelYoutL : UInt8 := 0x3e
def accelZoutH : UInt8 := 0x3f
def accelZoutL : UInt8 := 0x40
def GYRO_XOUT_H : UInt8 := 67
def GYRO_XOUT_L : UInt8 := 68
def GYRO_YOUT_H : UInt8 := 69
def GYRO_YOUT_L : UInt8 := 70
def GYRO_ZOUT_H : UInt8 := 71
def GYRO_ZOUT_L : UInt8 := 72

structure ImuXyz where
  x : Int
  y : Int
  z : Int
deriving DecidableEq

structure Accel where
  addr : UInt8
  hz : UInt32
  g : UInt32

structure Gyro where
  addr : UInt8
  dps : UInt32

/-- The value of the register at the moment of the transfer that reads it. -/
def imuRd (addr reg : UInt8) : Bus UInt8 := load ⟨addr, reg⟩

/-- `(short)hi << 8 | lo`, cut down to a short. -/
def mgRaw (lo hi : UInt8) : Int := ((hi.toUInt16 <<< 8) ||| lo.toUInt16).toInt16.toInt

/-- Where the two bytes of each coordinate are. -/
structure Outputs where
  addr : UInt8
  xHi : UInt8
  xLo : UInt8
  yHi : UInt8
  yLo : UInt8
  zHi : UInt8
  zLo : UInt8
  no_status : INT_STATUS ∉ [xHi, xLo, yHi, yLo, zHi, zLo]

/-- What accel_rd and gyro_rd do: wait for data, `while(!has_data(h)) ;`, and read the
six registers one after the other. -/
def xyzRd (o : Outputs) : Bus ImuXyz := do
  let _ ← poll ⟨o.addr, INT_STATUS⟩ fun status => status &&& 0x1 ≠ 0
  let xHi ← imuRd o.addr o.xHi
  let xLo ← imuRd o.addr o.xLo
  let yHi ← imuRd o.addr o.yHi
  let yLo ← imuRd o.addr o.yLo
  let zHi ← imuRd o.addr o.zHi
  let zLo ← imuRd o.addr o.zLo
  pure ⟨mgRaw xLo xHi, mgRaw yLo yHi, mgRaw zLo zHi⟩

def accelOutputs (h : Accel) : Outputs :=
  ⟨h.addr, ACCEL_XOUT_H, accelXoutL, accelYoutH, accelYoutL, accelZoutH, accelZoutL,
    by decide⟩

def gyroOutputs (h : Gyro) : Outputs :=
  ⟨h.addr, GYRO_XOUT_H, GYRO_XOUT_L, GYRO_YOUT_H, GYRO_YOUT_L, GYRO_ZOUT_H, GYRO_ZOUT_L, by decide⟩

def accelRd (h : Accel) : Bus ImuXyz := xyzRd (accelOutputs h)

def gyroRd (h : Gyro) : Bus ImuXyz := xyzRd (gyroOutputs h)

section Device

/-- All registers at one moment. -/
abbrev Registers := Reg → UInt8

/-- The registers now and at all moments since the call began, and how many output
registers the call has read. -/
structure Sensor where
  regs : Registers
  held : List Registers
  taken : Nat

def Outputs.all (o : Outputs) : List Reg :=
  [o.xHi, o.xLo, o.yHi, o.yLo, o.zHi, o.zLo].map (⟨o.addr, ·⟩)

def Outputs.sample (o : Outputs) (regs : Registers) : ImuXyz :=
  ⟨mgRaw (regs ⟨o.addr, o.xLo⟩) (regs ⟨o.addr, o.xHi⟩),
    mgRaw (regs ⟨o.addr, o.yLo⟩) (regs ⟨o.addr, o.yHi⟩),
    mgRaw (regs ⟨o.addr, o.zLo⟩) (regs ⟨o.addr, o.zHi⟩)⟩

namespace Sensor

def update (regs : Registers) (s : Sensor) : Sensor :=
  { s with regs := regs, held := regs :: s.held }

/-- Reading INT_STATUS clears it. -/
def load (o : Outputs) (r : Reg) (s : Sensor) : UInt8 × Sensor :=
  if r.reg = INT_STATUS then (s.regs r, s.update fun q => if q = r then 0 else s.regs q)
  else if r ∈ o.all then (s.regs r, { s with taken := s.taken + 1 })
  else (s.regs r, s)

def store (r : Reg) (v : UInt8) (s : Sensor) : Sensor :=
  s.update fun q => if q = r then v else s.regs q

end Sensor

def mpu (o : Outputs) : Device Reg UInt8 Sensor Registers :=
  ⟨Sensor.load o, Sensor.store, fun regs s => some (s.update regs)⟩

def Sensor.begin (regs : Registers) : Sensor := ⟨regs, [regs], 0⟩

/-- The device only updates its registers when the number of output registers that the
call has read is one of these. -/
def during (w : Nat → Prop) (s : Sensor) (_ : Registers) : Prop := w s.taken

/-- A triple that the device has held at one moment of the call. -/
def Held (o : Outputs) (xyz : ImuXyz) (s : Sensor) : Prop := ∃ regs ∈ s.held, xyz = o.sample regs

/-- Whatever the registers hold and become, what is returned was held at one moment. -/
def Consistent (o : Outputs) (w : Nat → Prop) (rd : Bus ImuXyz) : Prop :=
  ∀ regs, Safe (mpu o) (during w) (fun _ => True) (Held o) rd (.begin regs)

end Device

section Frozen

variable {o : Outputs} {w : Nat → Prop} {α : Type} {Q : α → Sensor → Prop} {s : Sensor}

theorem output_apart {r : Reg} (output : r ∈ o.all) : r.reg ≠ INT_STATUS := by
  obtain ⟨reg, there, rfl⟩ := List.mem_map.mp output
  rintro rfl
  exact o.no_status there

theorem load_output {r : Reg} (output : r ∈ o.all) (s : Sensor) :
    Sensor.load o r s = (s.regs r, { s with taken := s.taken + 1 }) := by
  rw [Sensor.load, if_neg (output_apart output), if_pos output]

theorem safe_load_output {P : Sensor → Prop} {r : Reg} {k : UInt8 → Bus α} (output : r ∈ o.all)
    (stable : Stable (mpu o) (during w) P)
    (next : ∀ t, P t → Safe (mpu o) (during w) (fun _ => True) Q (k (t.regs r))
      { t with taken := t.taken + 1 }) (holds : P s) :
    Safe (mpu o) (during w) (fun _ => True) Q (.load r k) s := by
  refine safe_load stable (fun _ _ => trivial) (fun t here => ?_) holds
  change Safe _ _ _ _ (k (Sensor.load o r t).1) (Sensor.load o r t).2
  rw [load_output output]
  exact next t here

theorem frozen_load {r : Reg} {k : UInt8 → Bus α} (output : r ∈ o.all) (frozen : ¬ w s.taken)
    (next : Safe (mpu o) (during w) (fun _ => True) Q (k (s.regs r)) { s with taken := s.taken + 1 }) :
    Safe (mpu o) (during w) (fun _ => True) Q (.load r k) s := by
  have stable : Stable (mpu o) (during w) (· = s) := by
    rintro _ e t rfl allowed _
    exact absurd allowed frozen
  refine safe_load_output output stable ?_ rfl
  rintro t rfl
  exact next

theorem xyz_rd_consistent (closed : ∀ k, 0 < k → k < 6 → ¬ w k) : Consistent o w (xyzRd o) := by
  intro regs
  have waiting : Stable (mpu o) (during w) fun s => s.taken = 0 ∧ s.regs ∈ s.held := by
    rintro s e t ⟨none, _⟩ _ moved
    cases moved
    exact ⟨none, List.mem_cons_self⟩
  have status : ∀ s : Sensor, s.taken = 0 ∧ s.regs ∈ s.held →
      (Sensor.load o ⟨o.addr, INT_STATUS⟩ s).2.taken = 0 ∧
        (Sensor.load o ⟨o.addr, INT_STATUS⟩ s).2.regs ∈ (Sensor.load o ⟨o.addr, INT_STATUS⟩ s).2.held := by
    rintro s ⟨none, _⟩
    rw [Sensor.load, if_pos rfl]
    exact ⟨none, List.mem_cons_self⟩
  refine safe_poll waiting (fun _ _ => trivial) (fun s here _ => status s here) ?_
    ⟨rfl, List.mem_cons_self⟩
  intro s here _
  refine safe_load_output (by simp [Outputs.all]) waiting ?_ (status s here)
  rintro s ⟨none, inside⟩
  refine frozen_load (by simp [Outputs.all]) (closed _ (by simp) (by simp [none])) ?_
  refine frozen_load (by simp [Outputs.all]) (closed _ (by simp) (by simp [none])) ?_
  refine frozen_load (by simp [Outputs.all]) (closed _ (by simp) (by simp [none])) ?_
  refine frozen_load (by simp [Outputs.all]) (closed _ (by simp) (by simp [none])) ?_
  refine frozen_load (by simp [Outputs.all]) (closed _ (by simp) (by simp [none])) ?_
  have held : Stable (mpu o) (during w) (Held o (o.sample s.regs)) := by
    rintro s e t ⟨regs, inside, same⟩ _ moved
    cases moved
    exact ⟨regs, List.mem_cons_of_mem _ inside, same⟩
  exact safe_ret held (fun _ _ => trivial) (fun _ here => here) ⟨s.regs, inside, rfl⟩

end Frozen

section Torn

variable {o : Outputs} {w : Nat → Prop} {α : Type} {s : Sensor}

/-- Runs in which the device only updates its registers when it may. -/
def Runs (o : Outputs) (w : Nat → Prop) (c c' : Config Reg UInt8 Sensor α) : Prop :=
  Steps.Leads (step (mpu o)) (Allows (during w)) c c'

def readAll : List Reg → (List UInt8 → Bus α) → Bus α
  | [], f => f []
  | r :: rs, f => .load r fun v => readAll rs fun vs => f (v :: vs)

theorem readAll_append (rs rs' : List Reg) (f : List UInt8 → Bus α) :
    readAll (rs ++ rs') f = readAll rs fun vs => readAll rs' fun vs' => f (vs ++ vs') := by
  induction rs generalizing f with
  | nil => rfl
  | cons r rs ih =>
    rw [List.cons_append, readAll, readAll]
    congr 1
    funext v
    exact ih fun vs => f (v :: vs)

def triple (vs : List UInt8) : ImuXyz :=
  ⟨mgRaw (vs.getD 1 0) (vs.getD 0 0), mgRaw (vs.getD 3 0) (vs.getD 2 0),
    mgRaw (vs.getD 5 0) (vs.getD 4 0)⟩

theorem xyz_rd_reads : xyzRd o = .poll ⟨o.addr, INT_STATUS⟩ (fun status => status &&& 0x1 ≠ 0)
    fun _ => readAll o.all fun vs => pure (triple vs) := rfl

theorem runs_readAll {v : UInt8} (rs : List Reg) (f : List UInt8 → Bus α)
    (outputs : ∀ r ∈ rs, r ∈ o.all) (same : ∀ r ∈ rs, s.regs r = v) :
    Runs o w ⟨readAll rs f, s⟩
      ⟨f (List.replicate rs.length v), { s with taken := s.taken + rs.length }⟩ := by
  induction rs generalizing f s with
  | nil => exact Steps.Leads.refl _ _ _
  | cons r rs ih =>
    rw [List.forall_mem_cons] at outputs same
    have rest := ih (s := { s with taken := s.taken + 1 }) (fun vs => f (v :: vs)) outputs.2 same.2
    rw [Nat.add_assoc, Nat.add_comm 1] at rest
    refine Steps.Leads.step (a := .cpu) trivial ?_ rest
    change some (⟨readAll rs fun vs => f ((Sensor.load o r s).1 :: vs), (Sensor.load o r s).2⟩ :
      Config Reg UInt8 Sensor α) = _
    rw [load_output outputs.1, same.1]

def zeros : Registers := fun r => if r.reg = INT_STATUS then 1 else 0

def cleared (o : Outputs) : Registers := fun r => if r = ⟨o.addr, INT_STATUS⟩ then 0 else zeros r

def ones : Registers := fun _ => 0xFF

theorem zero_outputs {r : Reg} (output : r ∈ o.all) : zeros r = 0 ∧ cleared o r = 0 := by
  have apart := output_apart output
  have other : r ≠ ⟨o.addr, INT_STATUS⟩ := fun same => apart (congrArg Reg.reg same)
  exact ⟨if_neg apart, (if_neg other).trans (if_neg apart)⟩

theorem sample_triple (regs : Registers) : o.sample regs = triple (o.all.map regs) := rfl

theorem torn_run (k : Nat) (some : 0 < k) (few : k < 6) (allowed : w k) :
    ∃ t, Runs o w ⟨xyzRd o, .begin zeros⟩
      ⟨.ret (triple (List.replicate k 0 ++ List.replicate (6 - k) 0xFF)), t⟩ ∧
      t.held = [ones, cleared o, zeros] := by
  let s : Sensor := ⟨cleared o, [cleared o, zeros], 0⟩
  let f : List UInt8 → Bus ImuXyz := fun vs => pure (triple vs)
  have six : o.all.length = 6 := rfl
  have taken : (o.all.take k).length = k := List.length_take_of_le (by omega)
  have left : (o.all.drop k).length = 6 - k := by rw [List.length_drop, six]
  have before := runs_readAll (w := w) (s := s) (v := 0) (o.all.take k)
    (fun vs => readAll (o.all.drop k) fun vs' => f (vs ++ vs'))
    (fun r inside => List.mem_of_mem_take inside)
    (fun r inside => (zero_outputs (List.mem_of_mem_take inside)).2)
  have after := runs_readAll (w := w) (s := { s with taken := 0 + k }.update ones) (v := 0xFF)
    (o.all.drop k) (fun vs' => f (List.replicate k 0 ++ vs'))
    (fun r inside => List.mem_of_mem_drop inside) (fun r inside => rfl)
  rw [← readAll_append, List.take_append_drop, taken] at before
  rw [left] at after
  have allowed' : w (0 + k) := by rwa [Nat.zero_add]
  have updates : Runs o w ⟨readAll (o.all.drop k) fun vs' => f (List.replicate k 0 ++ vs'),
      { s with taken := 0 + k }⟩ ⟨readAll (o.all.drop k) fun vs' => f (List.replicate k 0 ++ vs'),
      { s with taken := 0 + k }.update ones⟩ :=
    Steps.Leads.step (a := .act ones) allowed' rfl (Steps.Leads.refl _ _ _)
  have status : Sensor.load o ⟨o.addr, INT_STATUS⟩ (.begin zeros) = (1, s) := rfl
  refine ⟨⟨ones, [ones, cleared o, zeros], 0 + k + (6 - k)⟩, ?_, rfl⟩
  rw [xyz_rd_reads]
  refine Steps.Leads.step (a := .cpu) trivial ?_ (before.trans (updates.trans after))
  simp only [step, mpu, status]
  rfl

theorem sample_constant {regs : Registers} {v : UInt8} (same : ∀ r ∈ o.all, regs r = v) :
    o.sample regs = triple (List.replicate 6 v) := by
  rw [sample_triple, List.map_congr_left same, List.map_const']
  rfl

/-- Some bytes of one sample and some of the other make a third. -/
theorem triple_torn (k : Nat) (some : 0 < k) (few : k < 6) :
    triple (List.replicate k 0 ++ List.replicate (6 - k) 0xFF) ≠ triple (List.replicate 6 0) ∧
      triple (List.replicate k 0 ++ List.replicate (6 - k) 0xFF) ≠ triple (List.replicate 6 0xFF) := by
  interval_cases k <;> decide

theorem torn_not_held {k : Nat} {t : Sensor} (some : 0 < k) (few : k < 6)
    (held : t.held = [ones, cleared o, zeros]) :
    ¬ Held o (triple (List.replicate k 0 ++ List.replicate (6 - k) 0xFF)) t := by
  rintro ⟨regs, inside, same⟩
  obtain ⟨low, high⟩ := triple_torn k some few
  rw [held] at inside
  simp only [List.mem_cons, List.not_mem_nil, or_false] at inside
  rcases inside with rfl | rfl | rfl
  · exact high (same.trans (sample_constant fun r _ => rfl))
  · exact low (same.trans (sample_constant fun r output => (zero_outputs output).2))
  · exact low (same.trans (sample_constant fun r output => (zero_outputs output).1))

/-- A call is consistent whatever the device does exactly when the device leaves its
registers alone from the first output register that the call reads to the last. -/
theorem samples_consistent_iff (h : Accel) (h' : Gyro) (w : Nat → Prop) :
    (Consistent (accelOutputs h) w (accelRd h) ∧ Consistent (gyroOutputs h') w (gyroRd h')) ↔
      ∀ k, 0 < k → k < 6 → ¬ w k := by
  constructor
  · rintro ⟨consistent, -⟩ k some few allowed
    obtain ⟨t, ⟨es, along, ran⟩, held⟩ := torn_run k some few allowed
    exact torn_not_held some few held ((consistent zeros es _ t along ran).2 _ rfl)
  · intro closed
    exact ⟨xyz_rd_consistent closed, xyz_rd_consistent closed⟩

theorem update_tears : ¬ ∀ (h : Accel) (h' : Gyro),
    Consistent (accelOutputs h) (fun _ => True) (accelRd h) ∧
      Consistent (gyroOutputs h') (fun _ => True) (gyroRd h') := by
  intro always
  obtain ⟨t, ⟨es, along, ran⟩, held⟩ :=
    torn_run (o := accelOutputs ⟨0x68, 20, 2⟩) (w := fun _ => True) 1 (by decide) (by decide) trivial
  have consistent := (always ⟨0x68, 20, 2⟩ ⟨0x68, 250⟩).1
  exact torn_not_held (by decide) (by decide) held ((consistent zeros es _ t along ran).2 _ rfl)

end Torn

end EmbeddedOS.Imu
