import EmbeddedOS.Bootloader.Overlap
import EmbeddedOS.Bootloader.Streams

/-! All or nothing: what one run of get_code owes to the stream it is given, and
the streams on which it pays. -/
namespace EmbeddedOS.Bootloader
open Serial Serial.Node

section Checks

def isVerdict (op : UInt32) : Bool := op = BOOT_ERROR || op = BOOT_SUCCESS

/-- The four checks that the protocol asks for, on the words received and on the
bytes that are stored when the run ends. -/
structure Passed (img : Image) (s : Stream) (m : PiMem) : Prop where
  putProgInfo : s.word 0 = PUT_PROG_INFO
  noCollision : collides img (s.word 1) (s.word 2) = false
  putCode : s.word 4 = PUT_CODE
  checksum : crc32 (m.range (s.word 1) (s.word 2)) = s.word 3

/-- What a run owes: one verdict, an address only after every check, and else an
end at BOOT_ERROR, before GET_CODE if the program collides. -/
structure AllOrNothing (img : Image) (s : Stream) (n : Node UInt32 PiMem UInt32) : Prop where
  one_verdict : ((opcodes n.ctx.sent).filter isVerdict).length = 1
  returns_checked : ∀ addr, n.code = .ret addr → Passed img s n.ctx.mem
  aborts : ¬ Passed img s n.ctx.mem → n.code = .halt ∧
    BOOT_ERROR ∈ opcodes n.ctx.sent ∧ BOOT_SUCCESS ∉ opcodes n.ctx.sent
  before_getCode : collides img (s.word 1) (s.word 2) = true → GET_CODE ∉ opcodes n.ctx.sent

/-- The streams on which no check fails, in terms of the stream alone. -/
structure WellFormed (img : Image) (s : Stream) : Prop where
  putProgInfo : s.word 0 = PUT_PROG_INFO
  noCollision : collides img (s.word 1) (s.word 2) = false
  putCode : s.word 4 = PUT_CODE
  checksum : crc32 s.code = s.word 3

theorem stored_code (s : Stream) (mem : PiMem) :
    (mem.fill (s.word 1) s.code).range (s.word 1) (s.word 2) = s.code :=
  mem.fill_range _ _ _ s.code_length

theorem passed_iff (img : Image) (s : Stream) (mem : PiMem) :
    Passed img s (mem.fill (s.word 1) s.code) ↔ WellFormed img s := by
  constructor
  · rintro ⟨first, clear, second, sum⟩
    exact ⟨first, clear, second, stored_code s mem ▸ sum⟩
  · rintro ⟨first, clear, second, sum⟩
    exact ⟨first, clear, second, (stored_code s mem).symm ▸ sum⟩

theorem verdicts_clean (img : Image) (s : Stream) (k : Nat) (ok : WellFormed img s) :
    opcodes (requests (k + 1) ++ answer img (s.word 1) (s.word 2) (s.word 3) ++
      verdict (s.word 3) s.code) =
      List.replicate (k + 1) GET_PROG_INFO ++ [GET_CODE, PRINT_STRING, BOOT_SUCCESS] := by
  rw [opcodes_run, ok.noCollision, if_neg (by decide), if_neg (not_not.mpr ok.checksum)]
  simp only [List.append_nil, List.append_assoc, List.singleton_append]

theorem all_or_nothing {img : Image} {s : Stream} {mem : PiMem} (ok : WellFormed img s)
    {script : List UInt32} {n : Node UInt32 PiMem UInt32}
    (completed : Completed img s mem script n) : AllOrNothing img s n := by
  obtain ⟨code, stored, k, sent⟩ := completed_shape img s mem completed
  have passed : Passed img s n.ctx.mem := stored ▸ (passed_iff img s mem).mpr ok
  constructor
  · rw [sent, verdicts_clean img s k ok, List.filter_append, List.filter_replicate,
      if_neg (by decide)]
    rfl
  · exact fun _ _ => passed
  · exact fun failed => (failed passed).elim
  · intro collision
    rw [ok.noCollision] at collision
    cases collision

/-- A completed run that has returned has done so whatever the checks say. -/
theorem well_formed_of_checked {img : Image} {s : Stream} {mem : PiMem} {script : List UInt32}
    {n : Node UInt32 PiMem UInt32} (completed : Completed img s mem script n)
    (owes : AllOrNothing img s n) : WellFormed img s := by
  obtain ⟨code, stored, _⟩ := completed_shape img s mem completed
  exact (passed_iff img s mem).mp (stored ▸ owes.returns_checked _ code)

end Checks

section Machine

/-- What there is besides the image: boot-start.S puts the stack pointer to stack, the frames
of get_code and of what it calls go down to frames, and memory ends at memEnd, before the
device registers. -/
structure Board where
  img : Image
  frames : UInt32
  stack : UInt32
  memEnd : UInt32
  apart : img.progEnd ≤ frames
  framed : frames ≤ stack
  inside : stack ≤ memEnd
  devices : memEnd ≤ 0x20000000

/-- A byte of memory that nothing else is kept in while get_code runs. -/
def Board.Plain (b : Board) (a : UInt32) : Prop :=
  ¬ b.img.Needs a ∧ ¬ (b.frames ≤ a ∧ a < b.stack) ∧ a < b.memEnd

instance (b : Board) (a : UInt32) : Decidable (b.Plain a) := inferInstanceAs (Decidable (_ ∧ _))

/-- The n bytes from addr on are plain memory. -/
def Board.Clear (b : Board) (addr n : UInt32) : Prop := ∀ i < n.toNat, b.Plain (addr + UInt32.ofNat i)

/-- How a run of get_code may end on a board. Behind a store to its own code or stack, to a
register or to no memory at all the source says nothing of it. -/
inductive Ends (b : Board) (s : Stream) (bytes : UInt32 → UInt8) (script : List UInt32)
    (n : Node UInt32 PiMem UInt32) : Prop where
  | told (completed : Completed b.img s ⟨bytes, []⟩ script n)
      (plain : ∀ a ∈ n.ctx.mem.stores, b.Plain a)
  | untold {k : Nat} {m : Node UInt32 PiMem UInt32} {a : UInt32}
      (steps : Steps (s.upTo k) (piStart b.img ⟨bytes, []⟩ script) m)
      (stored : a ∈ m.ctx.mem.stores) (astray : ¬ b.Plain a)

variable {b : Board} {s : Stream} {bytes : UInt32 → UInt8}

theorem told_of_clear {script : List UInt32} {n : Node UInt32 PiMem UInt32}
    (clear : b.Clear (s.word 1) (s.word 2)) (ends : Ends b s bytes script n) :
    Completed b.img s ⟨bytes, []⟩ script n := by
  cases ends with
  | told completed => exact completed
  | untold steps stored astray =>
    obtain ⟨i, inside, rfl⟩ := stores_in_range b.img steps stored
    exact (astray (clear i inside)).elim

theorem ends_of_completed {script : List UInt32} {n : Node UInt32 PiMem UInt32}
    (clear : b.Clear (s.word 1) (s.word 2)) (completed : Completed b.img s ⟨bytes, []⟩ script n) :
    Ends b s bytes script n := by
  refine .told completed fun a stored => ?_
  obtain ⟨_, steps⟩ := completed.2
  obtain ⟨i, inside, rfl⟩ := stores_in_range b.img steps stored
  exact clear i inside

/-- Nothing is owed by a run that has stored anywhere else. -/
theorem clear_of_owed (owes : ∀ script n, Ends b s bytes script n → AllOrNothing b.img s n) :
    b.Clear (s.word 1) (s.word 2) := by
  by_contra meets
  obtain ⟨i, meets⟩ := not_forall.mp meets
  obtain ⟨inside, astray⟩ := Classical.not_imp.mp meets
  obtain ⟨m, completed⟩ := completed_exists b.img s ⟨bytes, []⟩
  obtain ⟨_, steps⟩ := completed.2
  have stored := range_stored b.img completed inside
  have silent := (owes _ ⟨.halt, ⟨⟨bytes, []⟩, [], 0, []⟩⟩ (.untold steps stored astray)).one_verdict
  rw [opcodes, messages_nil] at silent
  cases silent

end Machine

/-- get_code is all or nothing on a stream, however it ends, exactly when no check fails on
it and the program lies in plain memory. -/
theorem getCode_all_or_nothing_iff (b : Board) (s : Stream) (bytes : UInt32 → UInt8) :
    (∀ script n, Ends b s bytes script n → AllOrNothing b.img s n) ↔
      WellFormed b.img s ∧ b.Clear (s.word 1) (s.word 2) := by
  constructor
  · intro owes
    have clear := clear_of_owed owes
    obtain ⟨n, completed⟩ := completed_exists b.img s ⟨bytes, []⟩
    exact ⟨well_formed_of_checked completed (owes _ n (ends_of_completed clear completed)), clear⟩
  · exact fun ⟨ok, clear⟩ _ _ ends => all_or_nothing ok (told_of_clear clear ends)

def linkedImage : Image := ⟨0x20000c, 0x2013b0, by decide, by decide⟩

/-- The frames as the compiler has laid them out: 96 bytes at most. -/
def linkedBoard : Board :=
  ⟨linkedImage, 0x7ffffa0, 0x8000000, 0x1c000000, by decide, by decide, by decide, by decide⟩

/-- A good header for one byte of code, and then another byte. -/
def corruptedStream : Stream := fun i =>
  (leBytes PUT_PROG_INFO ++ leBytes ARMBASE ++ leBytes 1 ++ leBytes (crc32 [0x41]) ++
    leBytes PUT_CODE ++ [0x42]).getD i 0

/-- A program in plain memory, where nothing but the checks decides. -/
theorem corrupted_program_is_booted :
    ¬ ∀ (b : Board) (s : Stream) (bytes : UInt32 → UInt8) (script : List UInt32)
      (n : Node UInt32 PiMem UInt32), b.Clear (s.word 1) (s.word 2) →
      Ends b s bytes script n → AllOrNothing b.img s n := by
  intro owes
  obtain ⟨n, completed⟩ := completed_exists linkedImage corruptedStream ⟨fun _ => 0, []⟩
  have addr : corruptedStream.word 1 = ARMBASE := by decide +kernel
  have size : corruptedStream.word 2 = 1 := by decide +kernel
  have clear : linkedBoard.Clear (corruptedStream.word 1) (corruptedStream.word 2) := by
    rw [addr, size]
    intro i inside
    obtain rfl : i = 0 := Nat.lt_one_iff.mp inside
    decide
  have owed := owes linkedBoard corruptedStream _ _ n clear (ends_of_completed clear completed)
  have wrong : crc32 corruptedStream.code ≠ corruptedStream.word 3 := by decide +kernel
  exact wrong (well_formed_of_checked completed owed).checksum

end EmbeddedOS.Bootloader
