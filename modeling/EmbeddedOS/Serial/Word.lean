import EmbeddedOS.Serial.Run
import Mathlib.Tactic.IntervalCases

/-! 32-bit words on a byte wire, least significant byte first. -/
namespace Serial

def leWord (a b c d : UInt8) : UInt32 :=
  a.toUInt32 ||| (b.toUInt32 <<< 8) ||| (c.toUInt32 <<< 16) ||| (d.toUInt32 <<< 24)

def leBytes (u : UInt32) : List UInt8 :=
  [u.toUInt8, (u >>> 8).toUInt8, (u >>> 16).toUInt8, (u >>> 24).toUInt8]

theorem leWord_leBytes (u : UInt32) :
    leWord u.toUInt8 (u >>> 8).toUInt8 (u >>> 16).toUInt8 (u >>> 24).toUInt8 = u := by
  apply UInt32.eq_of_toBitVec_eq
  simp only [leWord]
  ext i hi
  interval_cases i <;> simp [-UInt32.toUInt32_toUInt8]

theorem leBytes_leWord (a b c d : UInt8) : leBytes (leWord a b c d) = [a, b, c, d] := by
  simp only [leBytes, leWord, List.cons.injEq, and_true]
  refine ⟨?_, ?_, ?_, ?_⟩ <;>
  · apply UInt8.eq_of_toBitVec_eq
    ext i hi
    interval_cases i <;> simp

@[simp] theorem leBytes_length (u : UInt32) : (leBytes u).length = 4 := rfl

end Serial
