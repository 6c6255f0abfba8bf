import EmbeddedOS.Bootloader.Overlap
import EmbeddedOS.Bootloader.Atomicity

/-! Where the write loop of get_code writes, for any header.
A colliding header is answered with an error and stored all the same, so the code
is safe only from headers that do not reach it. -/
namespace EmbeddedOS.Bootloader
open Serial Serial.Node

section Headers

variable (img : Image) (addr n : UInt32)

/-- What a header leads to, in every run on every stream that carries it: nothing that is
needed is written, and the error word of step 3 stays out if the program does not reach
the code. -/
structure Harmless : Prop where
  spares : ∀ (s : Stream), s.word 1 = addr → s.word 2 = n →
    ∀ (bytes : UInt32 → UInt8) (script : List UInt32) (k : Nat) (m : Node UInt32 PiMem UInt32),
    Steps (s.upTo k) (piStart img ⟨bytes, []⟩ script) m → ∀ a ∈ m.ctx.mem.stores, ¬ img.Needs a
  accepts : ¬ Touches img addr n → ∀ (s : Stream), s.word 1 = addr → s.word 2 = n →
    ∀ (bytes : UInt32 → UInt8) (script : List UInt32) (m : Node UInt32 PiMem UInt32),
    Completed img s ⟨bytes, []⟩ script m →
    BOOT_ERROR ∉ (opcodes m.ctx.sent).takeWhile (· ≠ GET_CODE)

/-- The range ends in time or starts late enough, with the two ends as the test of
step 3 takes them. -/
def InTheClear : Prop :=
  addr.toNat + n.toNat < img.PUT32.toNat ∨
    img.progEnd.toNat < addr.toNat ∧ addr.toNat + n.toNat ≤ 2 ^ 32 + img.PUT32.toNat ∨
    addr = img.progEnd ∧ 2 ^ 32 ≤ addr.toNat + n.toNat ∧
      addr.toNat + n.toNat < 2 ^ 32 + img.PUT32.toNat

instance : Decidable (InTheClear img addr n) := inferInstanceAs (Decidable (_ ∨ _))

theorem inTheClear_iff :
    InTheClear img addr n ↔ ¬ Touches img addr n ∧ collides img addr n = false := by
  have hn := n.toNat_lt
  have ha := addr.toNat_lt
  have hp := UInt32.lt_iff_toNat_lt.mp img.put32_lt
  have he := img.progEnd.toNat_lt
  rw [← Bool.not_eq_true, collides_iff, touches_iff, InTheClear, ← UInt32.toNat_inj]
  omega

def headerStream : Stream := fun i => (leBytes 0 ++ leBytes addr ++ leBytes n).getD i 0

theorem headerStream_word1 : (headerStream addr n).word 1 = addr := leWord_leBytes addr

theorem headerStream_word2 : (headerStream addr n).word 2 = n := leWord_leBytes n

theorem rejected_iff {s : Stream} {mem : PiMem} {script : List UInt32}
    {m : Node UInt32 PiMem UInt32} (completed : Completed img s mem script m) :
    BOOT_ERROR ∈ (opcodes m.ctx.sent).takeWhile (· ≠ GET_CODE) ↔
      collides img (s.word 1) (s.word 2) = true := by
  obtain ⟨_, _, k, sent⟩ := completed_shape img s mem completed
  have asking : ∀ op ∈ List.replicate (k + 1) GET_PROG_INFO, decide (op ≠ GET_CODE) = true := by
    intro op requested
    rw [List.eq_of_mem_replicate requested]
    decide
  rw [sent, opcodes_run, List.append_assoc, List.append_assoc, List.append_assoc,
    List.takeWhile_append_of_pos asking, List.mem_append]
  have quiet : BOOT_ERROR ∉ List.replicate (k + 1) GET_PROG_INFO := by
    intro requested
    exact absurd (List.eq_of_mem_replicate requested) (by decide)
  cases collides img (s.word 1) (s.word 2)
  · simpa using quiet
  · simp [List.takeWhile]
    decide

theorem harmless_of_clear (clear : InTheClear img addr n) : Harmless img addr n := by
  obtain ⟨apart, quiet⟩ := (inTheClear_iff img addr n).mp clear
  constructor
  · intro s atAddr size bytes script k m steps a stored needed
    obtain ⟨i, inside, rfl⟩ := stores_in_range img steps stored
    rw [atAddr] at needed
    rw [size] at inside
    exact apart ⟨i, inside, needed⟩
  · intro _ s atAddr size bytes script m completed rejected
    have collision := (rejected_iff img completed).mp rejected
    rw [atAddr, size, quiet] at collision
    cases collision

theorem clear_of_harmless (harmless : Harmless img addr n) : InTheClear img addr n := by
  let s := headerStream addr n
  have atAddr : s.word 1 = addr := headerStream_word1 addr n
  have size : s.word 2 = n := headerStream_word2 addr n
  obtain ⟨m, completed⟩ := completed_exists img s ⟨fun _ => 0, []⟩
  have apart : ¬ Touches img addr n := by
    rintro ⟨i, inside, needed⟩
    obtain ⟨k, steps⟩ := completed.2
    have stored := range_stored img completed (size ▸ inside)
    rw [atAddr] at stored
    exact harmless.spares s atAddr size _ _ k m steps _ stored needed
  have quiet : collides img addr n = false := by
    have accepted := harmless.accepts apart s atAddr size _ _ m completed
    rw [rejected_iff img completed, atAddr, size] at accepted
    exact Bool.eq_false_iff.mpr accepted
  exact (inTheClear_iff img addr n).mpr ⟨apart, quiet⟩

end Headers

/-- A header is harmless exactly when its range lies in the clear. -/
theorem header_harmless_iff (img : Image) (addr n : UInt32) :
    Harmless img addr n ↔ InTheClear img addr n :=
  ⟨clear_of_harmless img addr n, harmless_of_clear img addr n⟩

theorem store_loop_overwrites_itself :
    ¬ ∀ (img : Image) (addr n : UInt32), Harmless img addr n := by
  intro harmless
  have clear := clear_of_harmless linkedImage 0x20000c 1 (harmless _ _ _)
  revert clear
  decide

end EmbeddedOS.Bootloader
