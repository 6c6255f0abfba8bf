import EmbeddedOS.Bits.Field
import Mathlib.Data.List.Induction
import Mathlib.Logic.Function.Basic

/-! The function select registers of gpio.c: ten fields of three bits in each. -/
namespace EmbeddedOS.Gpio
open Bits

def GPIO_BASE : UInt32 := 0x20200000
def GPIO_FUNC_INPUT : UInt32 := 0
def GPIO_FUNC_OUTPUT : UInt32 := 1

/-- The words that GET32 reads and PUT32 writes. -/
abbrev Regs := UInt32 → UInt32

def gpioSetFunction (regs : Regs) (pin function : UInt32) : Regs :=
  if pin ≥ 32 ∧ pin ≠ 47 then regs
  else if function ≥ 8 then regs
  else
    let regN := pin / 10
    let selN := pin % 10
    let addr := GPIO_BASE + 4 * regN
    let val := regs addr
    let mask := 0x7 <<< (selN * 3)
    let shift := 3 * selN
    let val := val &&& ~~~mask
    let val := val ||| (function <<< shift)
    Function.update regs addr val

def gpioSetOutput (regs : Regs) (pin : UInt32) : Regs := gpioSetFunction regs pin GPIO_FUNC_OUTPUT

def gpioSetInput (regs : Regs) (pin : UInt32) : Regs := gpioSetFunction regs pin GPIO_FUNC_INPUT

inductive Call where
  | setFunction (pin function : UInt32)
  | setOutput (pin : UInt32)
  | setInput (pin : UInt32)

def call (regs : Regs) : Call → Regs
  | .setFunction pin function => gpioSetFunction regs pin function
  | .setOutput pin => gpioSetOutput regs pin
  | .setInput pin => gpioSetInput regs pin

def calls (regs : Regs) : List Call → Regs := List.foldl call regs

def Call.pin : Call → UInt32
  | .setFunction pin _ => pin
  | .setOutput pin => pin
  | .setInput pin => pin

def Call.function : Call → UInt32
  | .setFunction _ function => function
  | .setOutput _ => GPIO_FUNC_OUTPUT
  | .setInput _ => GPIO_FUNC_INPUT

def Call.admitted (c : Call) : Bool := (c.pin < 32 || c.pin == 47) && c.function < 8

/-- What the registers say of the pins 0 to 53. -/
def functionOf (regs : Regs) (pin : Fin 54) : Nat :=
  field (regs (GPIO_BASE + 4 * UInt32.ofNat (pin / 10))).toNat (3 * (pin % 10)) 3

/-- The map of the pins to their functions, with the calls as updates of it. -/
def mapCall (fns : Fin 54 → Nat) (c : Call) : Fin 54 → Nat := fun pin =>
  if c.admitted ∧ c.pin.toNat = pin then c.function.toNat else fns pin

def lastFor (pin : Fin 54) (cs : List Call) : Option Nat :=
  (cs.reverse.find? fun c => c.admitted && c.pin.toNat == pin.val).map fun c => c.function.toNat

def selAddr (pin : UInt32) : UInt32 := GPIO_BASE + 4 * (pin / 10)

def Call.Covers (c : Call) (addr : UInt32) (i : Nat) : Prop :=
  addr = selAddr c.pin ∧ 3 * (c.pin.toNat % 10) ≤ i ∧ i < 3 * (c.pin.toNat % 10) + 3

section Step

variable {regs : Regs} {c : Call}

theorem call_eq (regs : Regs) (c : Call) : call regs c = gpioSetFunction regs c.pin c.function := by
  cases c <;> rfl

theorem admitted_iff :
    c.admitted = true ↔ ¬ (c.pin ≥ 32 ∧ c.pin ≠ 47) ∧ ¬ c.function ≥ 8 := by
  simp only [Call.admitted, Bool.and_eq_true, Bool.or_eq_true, decide_eq_true_eq, beq_iff_eq,
    ge_iff_le, not_and_or, UInt32.not_le, Decidable.not_not]

theorem call_refused (refused : c.admitted = false) : call regs c = regs := by
  rw [call_eq, gpioSetFunction]
  by_cases pin : c.pin ≥ 32 ∧ c.pin ≠ 47
  · rw [if_pos pin]
  · have function : c.function ≥ 8 := by
      by_contra small
      rw [admitted_iff.mpr ⟨pin, small⟩] at refused
      cases refused
    rw [if_neg pin, if_pos function]

theorem shift_toNat (pin : UInt32) : (3 * (pin % 10)).toNat = 3 * (pin.toNat % 10) ∧
    pin % 10 * 3 = 3 * (pin % 10) := by
  have less : pin.toNat % 10 < 10 := Nat.mod_lt _ (by decide)
  refine ⟨?_, UInt32.mul_comm _ _⟩
  rw [UInt32.toNat_mul, UInt32.toNat_mod]
  change 3 * (pin.toNat % 10) % 2 ^ 32 = _
  omega

/-- What a call does to each bit of each word. -/
theorem call_testBit (regs : Regs) (c : Call) (addr : UInt32) {i : Nat} (inside : i < 32) :
    ((call regs c) addr).toNat.testBit i =
      if c.admitted = true ∧ addr = selAddr c.pin ∧ 3 * (c.pin.toNat % 10) ≤ i ∧
          i < 3 * (c.pin.toNat % 10) + 3 then
        c.function.toNat.testBit (i - 3 * (c.pin.toNat % 10))
      else (regs addr).toNat.testBit i := by
  by_cases admitted : c.admitted = true
  · obtain ⟨pin, function⟩ := admitted_iff.mp admitted
    obtain ⟨shift, order⟩ := shift_toNat c.pin
    have small : c.function.toNat < 2 ^ 3 := UInt32.lt_iff_toNat_lt.mp (UInt32.not_le.mp function)
    have less : c.pin.toNat % 10 < 10 := Nat.mod_lt _ (by decide)
    have fits : (3 * (c.pin % 10)).toNat + 3 ≤ 32 := by omega
    rw [call_eq, gpioSetFunction, if_neg pin, if_neg function, order]
    by_cases here : addr = selAddr c.pin
    · subst here
      have replaced := replaced_testBit (regs (selAddr c.pin)) (m := 0x7) rfl small fits (by decide)
        inside
      rw [shift] at replaced
      change (Function.update regs (selAddr c.pin) _ (selAddr c.pin)).toNat.testBit i = _
      rw [Function.update_self]
      refine replaced.trans ?_
      simp [admitted]
    · change (Function.update regs (selAddr c.pin) _ addr).toNat.testBit i = _
      rw [Function.update_of_ne here]
      simp [here]
  · rw [call_refused (Bool.not_eq_true _ ▸ admitted)]
    simp [admitted]

end Step

section Pins

theorem selAddr_toNat {p : UInt32} (small : p.toNat < 54) :
    (selAddr p).toNat = 0x20200000 + 4 * (p.toNat / 10) := by
  have quotient : (p / 10).toNat = p.toNat / 10 := UInt32.toNat_div ..
  rw [selAddr, UInt32.toNat_add, UInt32.toNat_mul, quotient]
  change (0x20200000 + 4 * (p.toNat / 10) % 2 ^ 32) % 2 ^ 32 = _
  omega

theorem pin_toNat (pin : Fin 54) : (UInt32.ofNat pin).toNat = pin :=
  UInt32.toNat_ofNat_of_lt' (Nat.lt_trans pin.isLt (by decide))

theorem pin_addr (pin : Fin 54) :
    GPIO_BASE + 4 * UInt32.ofNat (pin / 10) = selAddr (UInt32.ofNat pin) := by
  revert pin
  decide

theorem admitted_small {c : Call} (admitted : c.admitted = true) :
    c.pin.toNat < 54 ∧ c.function.toNat < 2 ^ 3 := by
  obtain ⟨pin, function⟩ := admitted_iff.mp admitted
  refine ⟨?_, UInt32.lt_iff_toNat_lt.mp (UInt32.not_le.mp function)⟩
  by_cases low : c.pin ≥ 32
  · have last : c.pin = 47 := by
      by_contra other
      exact pin ⟨low, other⟩
    rw [last]
    decide
  · have less : c.pin.toNat < 32 := UInt32.lt_iff_toNat_lt.mp (UInt32.not_le.mp low)
    omega

theorem pin_inj {pin : Fin 54} {p : UInt32} (small : p.toNat < 54)
    (word : selAddr (UInt32.ofNat pin) = selAddr p) (place : pin.val % 10 = p.toNat % 10) :
    p.toNat = pin := by
  have words := congrArg UInt32.toNat word
  have bound := pin.isLt
  rw [selAddr_toNat small, selAddr_toNat (by rw [pin_toNat]; exact bound), pin_toNat] at words
  omega

theorem call_functionOf (regs : Regs) (c : Call) :
    functionOf (call regs c) = mapCall (functionOf regs) c := by
  funext pin
  have less : pin.val % 10 < 10 := Nat.mod_lt _ (by decide)
  rw [mapCall, functionOf, functionOf, pin_addr]
  by_cases mine : c.admitted = true ∧ c.pin.toNat = pin
  · obtain ⟨admitted, same⟩ := mine
    have word : UInt32.ofNat pin = c.pin := by rw [← same, UInt32.ofNat_toNat]
    rw [if_pos ⟨admitted, same⟩, word]
    refine field_of_testBit (admitted_small admitted).2 fun i low high => ?_
    rw [call_testBit regs c _ (by omega), same, if_pos ⟨admitted, rfl, low, high⟩]
  · rw [if_neg mine]
    refine field_congr fun i low high => ?_
    rw [call_testBit regs c _ (by omega), if_neg]
    rintro ⟨admitted, word, low', high'⟩
    have place : pin.val % 10 = c.pin.toNat % 10 := by omega
    exact mine ⟨admitted, pin_inj (admitted_small admitted).1 word place⟩

theorem calls_functionOf (regs : Regs) (cs : List Call) :
    functionOf (calls regs cs) = cs.foldl mapCall (functionOf regs) := by
  induction cs generalizing regs with
  | nil => rfl
  | cons c cs ih =>
    rw [List.foldl_cons, ← call_functionOf]
    exact ih (call regs c)

theorem map_lastFor (fns : Fin 54 → Nat) (cs : List Call) (pin : Fin 54) :
    cs.foldl mapCall fns pin = (lastFor pin cs).getD (fns pin) := by
  induction cs using List.reverseRec with
  | nil => rfl
  | append_singleton cs c ih =>
    rw [List.foldl_append, List.foldl_cons, List.foldl_nil, mapCall, lastFor, List.reverse_append,
      List.reverse_singleton, List.singleton_append, List.find?_cons]
    by_cases mine : c.admitted = true ∧ c.pin.toNat = pin
    · simp [mine]
    · have other : (c.admitted && c.pin.toNat == pin.val) = false := by simpa using mine
      rw [if_neg mine, other, ih]
      rfl

theorem calls_frame (regs : Regs) (cs : List Call) (addr : UInt32) {i : Nat} (inside : i < 32)
    (outside : ∀ c ∈ cs, c.admitted = true → ¬ c.Covers addr i) :
    (calls regs cs addr).toNat.testBit i = (regs addr).toNat.testBit i := by
  induction cs generalizing regs with
  | nil => rfl
  | cons c cs ih =>
    have rest := ih (call regs c) fun d member => outside d (List.mem_cons_of_mem c member)
    have first := call_testBit regs c addr inside
    rw [if_neg fun here => outside c List.mem_cons_self here.1 here.2] at first
    exact rest.trans first

end Pins

/-- After any calls the field of each pin has the function of the last admitted call for it, or what
it had; no other bit of any word has changed; and a call that is not admitted changes nothing. -/
theorem function_select_is_map (regs : Regs) (cs : List Call) :
    (∀ pin, functionOf (calls regs cs) pin = (lastFor pin cs).getD (functionOf regs pin)) ∧
    (∀ addr, ∀ i < 32, (∀ c ∈ cs, c.admitted = true → ¬ c.Covers addr i) →
      (calls regs cs addr).toNat.testBit i = (regs addr).toNat.testBit i) ∧
    ∀ c, c.admitted = false → call (calls regs cs) c = calls regs cs := by
  refine ⟨fun pin => ?_, fun addr i inside outside => calls_frame regs cs addr inside outside,
    fun c refused => call_refused refused⟩
  rw [calls_functionOf, map_lastFor]

example : lastFor 47 [.setFunction 47 4, .setOutput 3, .setFunction 47 9] = some 4 := by decide

end EmbeddedOS.Gpio
