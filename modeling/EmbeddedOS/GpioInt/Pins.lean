import EmbeddedOS.Bits.Field
import EmbeddedOS.Mmio.Logic
import Mathlib.Data.Nat.Bitwise
import Mathlib.Data.UInt

/-! The edge detection of the pins 0 to 31 and the interrupt that they share, and gpio-int.c over it. -/
namespace EmbeddedOS.GpioInt
open Mmio Bits

/-- `line` is no register: it is what the processor sees of the interrupts that are enabled. -/
inductive Reg where
  | gpioSet0 | gpioClr0 | gpioLev0 | GPEDS0 | GPREN0 | GPFEN0
  | irqPending2 | enableIrqs2 | disableIrqs1 | disableIrqs2 | line
  deriving DecidableEq

/-- What each pin is driven to, its level, what is detected on it and whether that has happened; whether the
interrupt of the pins is enabled; and how often each pin rose and fell. -/
structure Pins where
  latch : Fin 32 → Bool
  level : Fin 32 → Bool
  rising : Fin 32 → Bool
  falling : Fin 32 → Bool
  event : Fin 32 → Bool
  enabled : Bool
  rises : Fin 32 → Nat
  falls : Fin 32 → Nat

namespace Pins

def word (f : Fin 32 → Bool) : UInt32 := UInt32.ofNat (Nat.ofBits f)

def bits (v : UInt32) : Fin 32 → Bool := fun p => v.toNat.testBit p

def pending (s : Pins) : Bool := (List.finRange 32).any s.event

def GPIO_INT0 : UInt32 := (1 : UInt32) <<< 17

def load : Reg → Pins → UInt32
  | .gpioLev0, s => word s.level
  | .GPEDS0, s => word s.event
  | .GPREN0, s => word s.rising
  | .GPFEN0, s => word s.falling
  | .irqPending2, s => if s.pending then GPIO_INT0 else 0
  | .line, s => if s.enabled && s.pending then 1 else 0
  | _, _ => 0

def store : Reg → UInt32 → Pins → Pins
  | .gpioSet0, v, s => { s with latch := fun p => s.latch p || bits v p }
  | .gpioClr0, v, s => { s with latch := fun p => s.latch p && ! bits v p }
  | .GPEDS0, v, s => { s with event := fun p => s.event p && ! bits v p }
  | .GPREN0, v, s => { s with rising := bits v }
  | .GPFEN0, v, s => { s with falling := bits v }
  | .enableIrqs2, v, s => { s with enabled := s.enabled || v.toNat.testBit 17 }
  | .disableIrqs2, v, s => { s with enabled := s.enabled && ! v.toNat.testBit 17 }
  | _, _, s => s

/-- The level of the pin changes, whatever it is driven to and whatever it is wired to. -/
def edge (p : Fin 32) (s : Pins) : Pins :=
  { s with
    level := fun q => if q = p then ! s.level q else s.level q
    event := fun q => s.event q || (q == p && if s.level q then s.falling q else s.rising q)
    rises := fun q => if q = p ∧ s.level q = false then s.rises q + 1 else s.rises q
    falls := fun q => if q = p ∧ s.level q = true then s.falls q + 1 else s.falls q }

end Pins

def pins : Device Reg UInt32 Pins (Fin 32) where
  load r s := (s.load r, s)
  store := Pins.store
  act p s := some (s.edge p)

abbrev Bus := Driver Reg UInt32

/-- The body of gpio_int_rising_edge and gpio_int_falling_edge, with the register that turns detection on. -/
def gpioIntEdge (reg : Reg) (pin : UInt32) : Bus Unit :=
  if pin ≥ 32 then pure ()
  else do
    let val ← load reg
    store reg (val ||| (1 <<< pin))
    store .enableIrqs2 ((1 : UInt32) <<< 17)

def gpioIntRisingEdge : UInt32 → Bus Unit := gpioIntEdge .GPREN0

def gpioIntFallingEdge : UInt32 → Bus Unit := gpioIntEdge .GPFEN0

def gpioEventDetected (pin : UInt32) : Bus UInt32 :=
  if pin ≥ 32 then pure 0
  else do
    let val ← load .GPEDS0
    pure ((val >>> pin) &&& 0x1)

def gpioEventClear (pin : UInt32) : Bus Unit :=
  if pin ≥ 32 then pure ()
  else store .GPEDS0 (1 <<< pin)

def gpioRead (pin : UInt32) : Bus Int :=
  if pin ≥ 32 then pure (-1)
  else do
    let val ← load .gpioLev0
    pure ((val >>> pin) &&& 0x1).toNat

def gpioWrite (pin v : UInt32) : Bus Unit :=
  if pin ≥ 32 then pure ()
  else if v ≠ 0 then store .gpioSet0 (1 <<< pin)
  else store .gpioClr0 (1 <<< pin)

section Words

open Pins

@[simp] theorem bits_word (f : Fin 32 → Bool) : bits (word f) = f := by
  funext p
  have small : Nat.ofBits f < 2 ^ 32 := Nat.ofBits_lt_two_pow f
  rw [bits, word, UInt32.toNat_ofNat_of_lt' small, Nat.testBit_ofBits_lt f p.val p.isLt]

theorem bits_or (v w : UInt32) (p : Fin 32) : bits (v ||| w) p = (bits v p || bits w p) := by
  rw [bits, UInt32.toNat_or, Nat.testBit_or]
  rfl

theorem bits_one (p q : Fin 32) : bits (1 <<< UInt32.ofNat p) q = decide (q = p) := by
  revert p q
  decide +kernel

theorem bit_shifted (v : UInt32) (p : Fin 32) : (v >>> UInt32.ofNat p) &&& 0x1 = if bits v p then 1 else 0 := by
  have shift : (UInt32.ofNat p).toNat = p := UInt32.toNat_ofNat_of_lt' (Nat.lt_trans p.isLt (by decide))
  have low : ((v >>> UInt32.ofNat p) &&& 0x1).toNat = (bits v p).toNat := by
    rw [UInt32.toNat_and, UInt32.toNat_shiftRight, shift, Nat.mod_eq_of_lt p.isLt, bits, Nat.toNat_testBit,
      ← Nat.shiftRight_eq_div_pow]
    exact Nat.and_one_is_mod _
  rw [← UInt32.toNat_inj, low]
  cases bits v p <;> rfl

end Words

end EmbeddedOS.GpioInt
