import EmbeddedOS.Bits.Crc
import EmbeddedOS.Bootloader.Bootload
import Mathlib.Data.UInt
import Mathlib.Tactic.NormNum.Prime

/-! What the table of the checksum computes, and which damage to a program on its way it finds. -/
namespace EmbeddedOS.Bootloader
open Serial Serial.Node Bits Polynomial

section Remainder

def crcPoly : BitVec 32 := 0xEDB88320#32

noncomputable def generator : (ZMod 2)[X] :=
  X ^ 32 + X ^ 26 + X ^ 23 + X ^ 22 + X ^ 16 + X ^ 12 + X ^ 11 + X ^ 10 + X ^ 8 + X ^ 7 + X ^ 5 + X ^ 4 +
    X ^ 2 + X + 1

def bitsOf (b : UInt8) : List Bool := (List.range 8).map b.toBitVec.getLsbD

def messageBits (buf : List UInt8) : List Bool := buf.flatMap bitsOf

theorem crc32Tab_shifts : ∀ i : Fin 256,
    (crc32Tab.getD i 0).toBitVec = (Crc.shift crcPoly)^[8] (BitVec.ofNat 32 i) := by
  decide +kernel

theorem divisor_crcPoly : Crc.divisor crcPoly = generator := by
  simp [Crc.divisor, Crc.value, Crc.coefficient, crcPoly, generator, Finset.sum_range_succ]
  ring

theorem word_bitsOf (b : UInt8) : (Crc.word (bitsOf b) : BitVec 32) = b.toUInt32.toBitVec := by
  apply BitVec.eq_of_getLsbD_eq
  intro i inside
  rw [Crc.word_getLsbD, UInt8.toBitVec_toUInt32, BitVec.getLsbD_setWidth]
  by_cases within : i < 8
  · simp [bitsOf, within, inside]
  · simp [bitsOf, within, BitVec.getLsbD_of_ge b.toBitVec i (by omega)]

theorem above_byte (b : UInt8) : b.toUInt32.toBitVec >>> 8 = 0#32 := by
  apply BitVec.eq_of_getLsbD_eq
  intro i _
  rw [BitVec.getLsbD_ushiftRight, UInt8.toBitVec_toUInt32, BitVec.getLsbD_setWidth,
    BitVec.getLsbD_of_ge b.toBitVec (8 + i) (by omega), Bool.and_false, BitVec.getLsbD_zero]

theorem low_places (s : BitVec 32) : s ^^^ (s >>> 8 <<< 8) = s &&& 0xFF#32 := by
  apply BitVec.eq_of_getLsbD_eq
  intro i inside
  have mask : (0xFF#32).getLsbD i = decide (i < 8) := by
    rw [BitVec.getLsbD_ofNat, show (0xFF : Nat) = 2 ^ 8 - 1 by rfl, Nat.testBit_two_pow_sub_one,
      decide_eq_true inside, Bool.true_and]
  rw [BitVec.getLsbD_xor, BitVec.getLsbD_shiftLeft, BitVec.getLsbD_ushiftRight, BitVec.getLsbD_and, mask]
  by_cases within : i < 8
  · simp [within]
  · simp [within, inside, Nat.add_sub_cancel' (Nat.le_of_not_lt within)]

theorem crc32Step_run (crc : UInt32) (b : UInt8) :
    (crc32Step crc b).toBitVec = Crc.run crcPoly crc.toBitVec (bitsOf b) := by
  have small : ((crc ^^^ b.toUInt32) &&& 0xFF).toNat < 256 := by
    rw [UInt32.toNat_and]
    exact Nat.lt_of_le_of_lt Nat.and_le_right (by decide)
  have looked_up := crc32Tab_shifts ⟨_, small⟩
  rw [Crc.run_word _ (by simp [bitsOf]), word_bitsOf, ← UInt32.toBitVec_xor]
  change _ = (Crc.shift crcPoly)^[8] _
  rw [Crc.shifts_table, low_places, crc32Step, UInt32.toBitVec_xor]
  refine congrArg₂ (· ^^^ ·) (looked_up.trans (congrArg _ ?_)) ?_
  · exact BitVec.ofNat_toNat _ _
  · rw [UInt32.toBitVec_xor, BitVec.ushiftRight_xor_distrib, above_byte, BitVec.xor_zero]
    rfl

theorem messageBits_length (buf : List UInt8) : (messageBits buf).length = 8 * buf.length := by
  induction buf with
  | nil => rfl
  | cons b buf ih =>
    rw [messageBits, List.flatMap_cons, List.length_append, ← messageBits, ih, List.length_cons]
    simp only [bitsOf, List.length_map, List.length_range]
    omega

theorem foldl_crc32Step (buf : List UInt8) (crc : UInt32) :
    (buf.foldl crc32Step crc).toBitVec = Crc.run crcPoly crc.toBitVec (messageBits buf) := by
  induction buf generalizing crc with
  | nil => rfl
  | cons b buf ih =>
    rw [List.foldl_cons, ih, crc32Step_run, ← Crc.run_append]
    rfl

theorem crc32Inc_run (buf : List UInt8) (crc : UInt32) :
    (crc32Inc buf crc ^^^ ~~~0).toBitVec = Crc.run crcPoly (crc ^^^ ~~~0).toBitVec (messageBits buf) := by
  rw [crc32Inc, UInt32.xor_assoc, UInt32.xor_self, UInt32.xor_zero, foldl_crc32Step]

end Remainder

/-- Complemented, the checksum is the remainder of the bits by the generator, with the old one in front. -/
theorem crc32Inc_remainder (buf : List UInt8) (crc : UInt32) :
    Crc.value (crc32Inc buf crc ^^^ ~~~0).toBitVec =
      (X ^ (8 * buf.length) * Crc.value (crc ^^^ ~~~0).toBitVec + X ^ 32 * Crc.message (messageBits buf)) %ₘ
        generator := by
  rw [crc32Inc_run, Crc.run_remainder _ _ (by decide), messageBits_length, divisor_crcPoly]

section Damage

/-- Wrong bits within thirty-two neighbours, or two wrong bits anywhere in half a gigabyte. -/
inductive Damaged : List Bool → List Bool → Prop
  | burst (before after : List Bool) {a b : List Bool} (size : a.length = b.length) (fits : a.length ≤ 32)
      (differ : a ≠ b) : Damaged (before ++ a ++ after) (before ++ b ++ after)
  | pair (before between after : List Bool) (a b : Bool) (near : between.length + 1 < 2 ^ 32 - 1) :
      Damaged (before ++ a :: between ++ b :: after) (before ++ (!a) :: between ++ (!b) :: after)

theorem prime_factor {q : Nat} (prime : q.Prime) (divides : q ∣ 2 ^ 32 - 1) :
    q = 3 ∨ q = 5 ∨ q = 17 ∨ q = 257 ∨ q = 65537 := by
  have factors : 2 ^ 32 - 1 = 3 * (5 * (17 * (257 * 65537))) := rfl
  rw [factors, prime.dvd_mul, prime.dvd_mul, prime.dvd_mul, prime.dvd_mul,
    Nat.prime_dvd_prime_iff_eq prime (by norm_num), Nat.prime_dvd_prime_iff_eq prime (by norm_num),
    Nat.prime_dvd_prime_iff_eq prime (by norm_num), Nat.prime_dvd_prime_iff_eq prime (by norm_num),
    Nat.prime_dvd_prime_iff_eq prime (by norm_num)] at divides
  exact divides

theorem crcPoly_order : orderOf (AdjoinRoot.root (Crc.divisor crcPoly)) = 2 ^ 32 - 1 := by
  refine orderOf_eq_of_pow_and_pow_div_prime (by decide) ?_ fun q prime divides => ?_
  · rw [Crc.power_eq_one_iff (k := 32) (by decide) (by decide)]
    decide +kernel
  · obtain rfl | rfl | rfl | rfl | rfl := prime_factor prime divides <;>
      rw [Ne, Crc.power_eq_one_iff (k := 32) (by decide) (by decide)] <;>
      decide +kernel

theorem damaged_run {a b : List Bool} (damaged : Damaged a b) (s : BitVec 32) :
    Crc.run crcPoly s a ≠ Crc.run crcPoly s b := by
  cases damaged with
  | burst before after size fits differ => exact Crc.burst_detected (by decide) s before after size fits differ
  | pair before between after a b near =>
    exact Crc.pair_detected (by decide) (by decide) s before between after a b (crcPoly_order ▸ near)

theorem damaged_crc32 {p q : List UInt8} (damaged : Damaged (messageBits p) (messageBits q)) :
    crc32 q ≠ crc32 p := by
  intro same
  have runs := damaged_run damaged (0 ^^^ ~~~0 : UInt32).toBitVec
  rw [← crc32Inc_run, ← crc32Inc_run] at runs
  exact runs (by rw [← crc32, ← crc32, same])

end Damage

section Download

variable {w : List UInt8} {img : Image} {s : Stream} {mem : PiMem}

theorem conclude_fails {c : Ctx UInt32 (List UInt8)} {xs : List UInt8}
    (unread : c.Unread w (leBytes BOOT_ERROR ++ xs)) : Steps w ⟨conclude, c⟩ ⟨.halt, c.take 4⟩ := by
  refine (getOp_plain (by decide) unread).andThen ?_
  rw [decide_eq_false (by decide)]
  exact .refl

/-- Either error of the pi stops simple_boot. -/
theorem simpleBoot_fails (p : Program) (bootAddr n : UInt32) {code : List UInt8}
    (wrong : crc32 code ≠ crc32 p.buf) (k : Nat)
    (heard : w = requests (k + 1) ++ answer img ARMBASE n (crc32 p.buf) ++ verdict (crc32 p.buf) code) :
    ∃ c, Steps w (unixStart p bootAddr) ⟨.halt, c⟩ := by
  have asked : Ctx.Unread (⟨[], [], 0, []⟩ : Ctx UInt32 (List UInt8)) w (leBytes GET_PROG_INFO ++
      (requests k ++ answer img ARMBASE n (crc32 p.buf) ++ verdict (crc32 p.buf) code)) := by
    rw [heard, requests_succ]
    simp only [List.append_assoc]
    rfl
  have offers := simpleBoot_offers p.buf p.n bootAddr asked
  have rest : (offered p).Unread w
      (requests k ++ answer img ARMBASE n (crc32 p.buf) ++ verdict (crc32 p.buf) code) :=
    Ctx.unread_take _ asked
  rw [answer] at rest
  by_cases collision : collides img ARMBASE n = true
  · rw [errorIf, if_pos collision] at rest
    simp only [List.append_assoc] at rest
    exact ⟨_, offers.trans (supply_fails p.buf p.n k (by decide) (by decide) (by decide) rest)⟩
  · rw [errorIf, if_neg collision, List.nil_append] at rest
    have sends := supply_sends p.buf p.n k p.size (by simpa only [List.append_assoc] using rest)
    have last := Ctx.unread_take (requests k ++ (leBytes GET_CODE ++ leBytes (crc32 p.buf))) rest
    have length : (requests k ++ (leBytes GET_CODE ++ leBytes (crc32 p.buf))).length = 4 * k + 8 := by
      simp only [requests, List.length_append, List.length_flatten, List.map_replicate, leBytes_length]
      simp
      omega
    rw [length, verdict, errorIf, if_pos wrong, List.append_assoc] at last
    exact ⟨_, offers.trans (sends.trans (conclude_fails last))⟩

theorem upTo_header : s.upTo 16 = leBytes (s.word 0) ++ leBytes (s.word 1) ++ leBytes (s.word 2) ++
    leBytes (s.word 3) := by
  simp only [Stream.word, leBytes_leWord]
  rfl

theorem leBytes_injective {a b : UInt32} (same : leBytes a = leBytes b) : a = b := by
  rw [← leWord_leBytes a, ← leWord_leBytes b]
  simp only [leBytes, List.cons.injEq, and_true] at same
  rw [same.1, same.2.1, same.2.2.1, same.2.2.2]

theorem header_words {p : Program} (intact : s.upTo 16 = header p.buf p.n) :
    s.word 1 = ARMBASE ∧ s.word 3 = crc32 p.buf := by
  have whole : p.buf.take p.n.toNat = p.buf := List.take_of_length_le (Nat.le_of_eq p.size)
  rw [upTo_header, header, whole] at intact
  obtain ⟨first, sum⟩ := List.append_inj intact (by simp only [List.length_append, leBytes_length])
  obtain ⟨first, _⟩ := List.append_inj first (by simp only [List.length_append, leBytes_length])
  obtain ⟨_, address⟩ := List.append_inj first (by simp only [leBytes_length])
  exact ⟨leBytes_injective address, leBytes_injective sum⟩

end Download

/-- A download that is damaged on its way, behind an intact header: the pi sends BOOT_ERROR, and
simple_boot can hear what the pi sends only to its failed check. -/
theorem damaged_download (img : Image) (p : Program) (bootAddr : UInt32) (s : Stream) (mem : PiMem)
    (intact : s.upTo 16 = header p.buf p.n) (damaged : Damaged (messageBits p.buf) (messageBits s.code))
    (script : List UInt32) (n : Node UInt32 PiMem UInt32) (completed : Completed img s mem script n) :
    BOOT_ERROR ∈ opcodes n.ctx.sent ∧ (∃ c, Steps n.ctx.sent (unixStart p bootAddr) ⟨.halt, c⟩) ∧
      ∀ m, Steps n.ctx.sent (unixStart p bootAddr) m → m.Finished → m.code = .halt := by
  obtain ⟨address, sum⟩ := header_words intact
  have wrong := damaged_crc32 damaged
  obtain ⟨_, _, k, sent⟩ := completed_shape img s mem completed
  rw [address, sum] at sent
  obtain ⟨c, fails⟩ := simpleBoot_fails p bootAddr (s.word 2) wrong k sent
  refine ⟨?_, ⟨c, fails⟩, fun m steps done => ?_⟩
  · rw [sent, opcodes_run, if_pos wrong]
    simp
  · rcases steps_linear steps fails with before | after
    · rw [← finished_steps done before]
    · rw [finished_steps (.halt c) after]

theorem corrupted_stream_damaged : Damaged (messageBits oneByte.buf) (messageBits corruptedStream.code) := by
  have code : corruptedStream.code = [0x42] := by decide +kernel
  rw [code]
  exact .burst [] [] (rfl : (bitsOf 0x41).length = (bitsOf 0x42).length) (by decide) (by decide)

theorem corrupted_download_fails : ∃ n, Completed linkedImage corruptedStream ⟨fun _ => 0, []⟩ dataThere n ∧
    BOOT_ERROR ∈ opcodes n.ctx.sent := by
  obtain ⟨n, completed⟩ := completed_exists linkedImage corruptedStream ⟨fun _ => 0, []⟩
  exact ⟨n, completed, (damaged_download linkedImage oneByte ARMBASE corruptedStream _ (by decide +kernel)
    corrupted_stream_damaged dataThere n completed).1⟩

end EmbeddedOS.Bootloader
