import EmbeddedOS.Gpio.FunctionSelect

/-! The levels of the pins: how gpio.c writes them, by a bit in one of two banks, and reads them back. -/
namespace EmbeddedOS.Gpio
open Bits

section Device

/-- The pins 0 to 53: what their function select registers say, and their levels. -/
structure Device where
  fsel : Regs
  level : Fin 54 → Bool

def Device.isOutput (dev : Device) (pin : Fin 54) : Bool := functionOf dev.fsel pin = GPIO_FUNC_OUTPUT.toNat

/-- A word is written to a set or clear register: of the pins of its bank, those with a one that are
output pins take the level. -/
def Device.drive (dev : Device) (bank : Nat) (val : UInt32) (v : Bool) : Device :=
  { dev with
    level := fun pin =>
      if pin / 32 = bank ∧ val.toNat.testBit (pin % 32) = true ∧ dev.isOutput pin = true then v
      else dev.level pin }

/-- The word of a bank in a level register. -/
def Device.lev (dev : Device) (bank : Nat) : UInt32 := UInt32.ofNat (Nat.ofBits fun i : Fin 32 =>
  if inside : 32 * bank + i < 54 then dev.level ⟨32 * bank + i, inside⟩ else false)

def gpioSet0 : UInt32 := GPIO_BASE + 0x1C
def gpioSet1 : UInt32 := GPIO_BASE + 0x20
def gpioClr0 : UInt32 := GPIO_BASE + 0x28
def gpioClr1 : UInt32 := GPIO_BASE + 0x2C
def gpioLev0 : UInt32 := GPIO_BASE + 0x34

/-- The second level register, to which gpio.c gives no name. -/
def lev1 : UInt32 := GPIO_BASE + 0x38

def put32 (dev : Device) (addr val : UInt32) : Device :=
  if addr = gpioSet0 then dev.drive 0 val true
  else if addr = gpioSet1 then dev.drive 1 val true
  else if addr = gpioClr0 then dev.drive 0 val false
  else if addr = gpioClr1 then dev.drive 1 val false
  else dev

def get32 (dev : Device) (addr : UInt32) : UInt32 :=
  if addr = gpioLev0 then dev.lev 0 else if addr = lev1 then dev.lev 1 else dev.fsel addr

/-- A shift to the right by a register: by its low byte, and from 32 on nothing is left. -/
def lsr (val pin : UInt32) : UInt32 := if pin.toNat % 256 < 32 then val >>> pin else 0

end Device

section Calls

/-- The body of gpio_set_on and gpio_set_off, with the registers of the two banks. -/
def putPin (dev : Device) (reg0 reg1 pin : UInt32) : Device :=
  if pin ≥ 32 ∧ pin ≠ 47 then dev
  else if pin ≤ 31 then put32 dev reg0 (1 <<< pin)
  else if pin ≤ 53 then
    let shift := pin - 32
    put32 dev reg1 (1 <<< shift)
  else dev

def gpioSetOn (dev : Device) (pin : UInt32) : Device := putPin dev gpioSet0 gpioSet1 pin

def gpioSetOff (dev : Device) (pin : UInt32) : Device := putPin dev gpioClr0 gpioClr1 pin

def gpioWrite (dev : Device) (pin v : UInt32) : Device :=
  if v ≠ 0 then gpioSetOn dev pin else gpioSetOff dev pin

def gpioRead (dev : Device) (pin : UInt32) : Int :=
  if pin ≥ 32 ∧ pin ≠ 47 then -1
  else
    let val := get32 dev gpioLev0
    (lsr val pin &&& 0x1).toNat

inductive Write where
  | write (pin v : UInt32)
  | setOn (pin : UInt32)
  | setOff (pin : UInt32)

def write (dev : Device) : Write → Device
  | .write pin v => gpioWrite dev pin v
  | .setOn pin => gpioSetOn dev pin
  | .setOff pin => gpioSetOff dev pin

def writes (dev : Device) : List Write → Device := List.foldl write dev

def Write.pin : Write → UInt32
  | .write pin _ => pin
  | .setOn pin => pin
  | .setOff pin => pin

def Write.value : Write → Bool
  | .write _ v => v ≠ 0
  | .setOn _ => true
  | .setOff _ => false

def admits (pin : UInt32) : Bool := pin < 32 || pin == 47

end Calls

section Purpose

def lastWritten (pin : Fin 54) (ws : List Write) : Option Bool :=
  (ws.reverse.find? fun w => admits w.pin && w.pin.toNat == pin.val).map Write.value

/-- The level that a pin is to have: an output pin that was written has the value of the last write. -/
def levelBehind (dev : Device) (ws : List Write) (pin : Fin 54) : Bool :=
  if dev.isOutput pin then (lastWritten pin ws).getD (dev.level pin) else dev.level pin

/-- Every admitted pin reads as its level, pins that were not written keep it, and a write to a pin that
is not admitted changes nothing. -/
structure ReadsBack (dev : Device) (ws : List Write) : Prop where
  read : ∀ pin : Fin 54, admits (UInt32.ofNat pin) = true →
    gpioRead (writes dev ws) (UInt32.ofNat pin) = (levelBehind dev ws pin).toNat
  kept : ∀ pin, lastWritten pin ws = none → (writes dev ws).level pin = dev.level pin
  refused : ∀ w, admits w.pin = false → write (writes dev ws) w = writes dev ws

end Purpose

section Step

variable {dev : Device} {w : Write}

/-- A map of the pins to their levels, with the write as an update of it. -/
def mapWrite (isOutput : Fin 54 → Bool) (levels : Fin 54 → Bool) (w : Write) : Fin 54 → Bool := fun pin =>
  if admits w.pin = true ∧ w.pin.toNat = pin ∧ isOutput pin = true then w.value else levels pin

theorem admits_iff {pin : UInt32} : admits pin = true ↔ ¬ (pin ≥ 32 ∧ pin ≠ 47) := by
  simp only [admits, Bool.or_eq_true, decide_eq_true_eq, beq_iff_eq, ge_iff_le, not_and_or,
    UInt32.not_le, Decidable.not_not]

theorem write_eq (dev : Device) (w : Write) : write dev w =
    if w.value = true then gpioSetOn dev w.pin else gpioSetOff dev w.pin := by
  cases w with
  | write pin v =>
    change (if v ≠ 0 then _ else _) = if decide (v ≠ 0) = true then _ else _
    simp only [decide_eq_true_eq]
    rfl
  | setOn pin => rfl
  | setOff pin => rfl

theorem drive_one (dev : Device) (bank : Nat) {s : UInt32} (small : s.toNat < 32) (v : Bool) :
    dev.drive bank (1 <<< s) v = { dev with
      level := fun pin =>
        if 32 * bank + s.toNat = pin ∧ dev.isOutput pin = true then v else dev.level pin } := by
  unfold Device.drive
  congr 1
  funext pin
  have bit : (1 <<< s).toNat.testBit (pin.val % 32) = true ↔ pin.val % 32 = s.toNat := by
    rw [shifted_testBit (v := 1) (n := 1) (by decide) (by omega) (by decide), Bool.and_eq_true,
      decide_eq_true_eq]
    change _ ∧ Nat.testBit 1 _ = true ↔ _
    rw [Nat.testBit_one_eq_true_iff_self_eq_zero]
    omega
  have place : 32 * bank + s.toNat = pin.val ↔ pin.val / 32 = bank ∧ pin.val % 32 = s.toNat := by omega
  simp only [bit, place, and_assoc]

theorem putPin_eq {reg0 reg1 pin : UInt32} {v : Bool} (zero : ∀ val, put32 dev reg0 val = dev.drive 0 val v)
    (one : ∀ val, put32 dev reg1 val = dev.drive 1 val v) :
    putPin dev reg0 reg1 pin = { dev with
      level := fun p =>
        if admits pin = true ∧ pin.toNat = p ∧ dev.isOutput p = true then v else dev.level p } := by
  by_cases admitted : admits pin = true
  · have inside := admits_iff.mp admitted
    simp only [admitted, true_and]
    rw [putPin, if_neg inside]
    by_cases low : pin ≤ 31
    · have small : pin.toNat < 32 := Nat.lt_succ_of_le (UInt32.le_iff_toNat_le.mp low)
      rw [if_pos low, zero, drive_one dev 0 small v, Nat.mul_zero, Nat.zero_add]
    · have last : pin = 47 := by
        by_contra other
        refine inside ⟨?_, other⟩
        have high := UInt32.lt_iff_toNat_lt.mp (UInt32.not_le.mp low)
        exact UInt32.le_iff_toNat_le.mpr high
      subst last
      rw [if_neg low, if_pos (by decide), one]
      exact drive_one dev 1 (by decide) v
  · have outside : pin ≥ 32 ∧ pin ≠ 47 := Decidable.not_not.mp (mt admits_iff.mpr admitted)
    rw [putPin, if_pos outside]
    simp only [admitted, false_and, if_false, Bool.false_eq_true]

theorem write_map (dev : Device) (w : Write) :
    write dev w = { dev with level := mapWrite dev.isOutput dev.level w } := by
  rw [write_eq]
  unfold mapWrite
  cases value : w.value with
  | true => exact putPin_eq (fun _ => rfl) fun _ => rfl
  | false => exact putPin_eq (fun _ => rfl) fun _ => rfl

end Step

section Run

variable {dev : Device} {ws : List Write}

theorem writes_map (dev : Device) (ws : List Write) :
    writes dev ws = { dev with level := ws.foldl (mapWrite dev.isOutput) dev.level } := by
  induction ws generalizing dev with
  | nil => rfl
  | cons w ws ih =>
    change writes (write dev w) ws = _
    rw [ih, write_map]
    rfl

/-- Any writes in any order leave each pin with the level that it is to have. -/
theorem writes_level (dev : Device) (ws : List Write) (pin : Fin 54) :
    (writes dev ws).level pin = levelBehind dev ws pin := by
  rw [writes_map]
  change ws.foldl (mapWrite dev.isOutput) dev.level pin = _
  induction ws using List.reverseRec with
  | nil => simp [levelBehind, lastWritten]
  | append_singleton ws w ih =>
    rw [List.foldl_append, List.foldl_cons, List.foldl_nil, mapWrite, ih, levelBehind, levelBehind,
      lastWritten, lastWritten, List.reverse_append, List.reverse_singleton, List.singleton_append,
      List.find?_cons]
    by_cases mine : admits w.pin = true ∧ w.pin.toNat = pin
    · cases output : dev.isOutput pin <;> simp [mine]
    · have other : (admits w.pin && w.pin.toNat == pin.val) = false := by simpa using mine
      rw [other, if_neg fun both => mine ⟨both.1, both.2.1⟩]

theorem lev_testBit (dev : Device) {i : Nat} (low : i < 32) :
    (dev.lev 0).toNat.testBit i = dev.level ⟨i, by omega⟩ := by
  have small := Nat.ofBits_lt_two_pow fun i : Fin 32 =>
    if inside : 32 * 0 + i.val < 54 then dev.level ⟨32 * 0 + i, inside⟩ else false
  rw [Device.lev, UInt32.toNat_ofNat', Nat.mod_eq_of_lt small, Nat.testBit_ofBits_lt _ i low]
  simp [show i < 54 by omega]

/-- gpio_read takes its bit out of the first level register, also for the pin of the second bank. -/
theorem read_level (dev : Device) {pin : Fin 54} (admitted : admits (UInt32.ofNat pin) = true) :
    gpioRead dev (UInt32.ofNat pin) = if pin.val < 32 then ((dev.level pin).toNat : Int) else 0 := by
  rw [gpioRead, if_neg (admits_iff.mp admitted)]
  have pin_self := pin_toNat pin
  have bound := pin.isLt
  change ((lsr (dev.lev 0) (UInt32.ofNat pin) &&& 0x1).toNat : Int) = _
  by_cases low : pin.val < 32
  · rw [lsr, if_pos (by omega), if_pos low, UInt32.toNat_and, UInt32.toNat_shiftRight, pin_self,
      Nat.mod_eq_of_lt low]
    change (((dev.lev 0).toNat >>> pin.val &&& 1 : Nat) : Int) = _
    rw [Nat.and_one_is_mod, Nat.shiftRight_eq_div_pow, ← Nat.toNat_testBit, lev_testBit dev low]
  · rw [lsr, if_neg (by omega), if_neg low]
    rfl

end Run

/-- After any writes, on any levels: the pins read back exactly when pin 47 is to be low. -/
theorem reads_back_iff (dev : Device) (ws : List Write) :
    ReadsBack dev ws ↔ levelBehind dev ws 47 = false := by
  constructor
  · intro back
    have read := back.read 47 (by decide)
    rw [read_level _ (by decide), if_neg (by decide)] at read
    cases level : levelBehind dev ws 47 with
    | false => rfl
    | true =>
      rw [level] at read
      cases read
  · intro low
    refine ⟨fun pin admitted => ?_, fun pin never => ?_, fun w refused => ?_⟩
    · rw [read_level _ admitted, writes_level]
      by_cases first : pin.val < 32
      · rw [if_pos first]
      · have last : pin = 47 := by
          have all : ∀ p : Fin 54, admits (UInt32.ofNat p) = true → ¬ p.val < 32 → p = 47 := by decide
          exact all pin admitted first
        rw [if_neg first, last, low]
        rfl
    · rw [writes_level, levelBehind, never]
      exact ite_self _
    · rw [write_map]
      unfold mapWrite
      simp [refused]

def lit : Device := ⟨Function.update (fun _ => 0) (GPIO_BASE + 16) ((1 : UInt32) <<< 21), fun _ => false⟩

theorem pin_47_reads_low : ¬ ∀ (dev : Device) (ws : List Write), ReadsBack dev ws := by
  intro back
  have read := (back lit [.setOn 47]).read 47 (by decide)
  rw [read_level _ (by decide), if_neg (by decide)] at read
  exact absurd read (by decide)

end EmbeddedOS.Gpio
