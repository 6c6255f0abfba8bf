import EmbeddedOS.Bootloader.UnixRun

/-! The bytes that the pi sends, read as messages: an opcode, and for GET_CODE the
echoed checksum, for PRINT_STRING the length and the string. -/
namespace EmbeddedOS.Bootloader
open Serial

structure Message where
  op : UInt32
  payload : List UInt8

def stringLength : List UInt8 → Nat
  | b0 :: b1 :: b2 :: b3 :: _ => 4 + (leWord b0 b1 b2 b3).toNat
  | _ => 0

def payloadLength (op : UInt32) (rest : List UInt8) : Nat :=
  if op = GET_CODE then 4 else if op = PRINT_STRING then stringLength rest else 0

def messages : List UInt8 → List Message
  | b0 :: b1 :: b2 :: b3 :: rest =>
    let op := leWord b0 b1 b2 b3
    ⟨op, rest.take (payloadLength op rest)⟩ :: messages (rest.drop (payloadLength op rest))
  | _ => []
termination_by bs => bs.length
decreasing_by
  simp only [List.length_drop, List.length_cons]
  omega

theorem messages_cons (op : UInt32) (rest : List UInt8) :
    messages (leBytes op ++ rest) = ⟨op, rest.take (payloadLength op rest)⟩ ::
      messages (rest.drop (payloadLength op rest)) := by
  simp only [leBytes, List.cons_append, List.nil_append, messages, leWord_leBytes]

@[simp] theorem messages_nil : messages [] = [] := by
  unfold messages
  rfl

theorem messages_plain {op : UInt32} (h : op ≠ GET_CODE) (h' : op ≠ PRINT_STRING)
    (rest : List UInt8) : messages (leBytes op ++ rest) = ⟨op, []⟩ :: messages rest := by
  rw [messages_cons, payloadLength, if_neg h, if_neg h', List.take_zero, List.drop_zero]

theorem messages_getCode (crc : UInt32) (rest : List UInt8) :
    messages (leBytes GET_CODE ++ (leBytes crc ++ rest)) =
      ⟨GET_CODE, leBytes crc⟩ :: messages rest := by
  rw [messages_cons, payloadLength, if_pos rfl]
  rfl

theorem messages_printed (msg rest : List UInt8) (short : msg.length < 2 ^ 32) :
    messages (printed msg ++ rest) =
      ⟨PRINT_STRING, leBytes (UInt32.ofNat msg.length) ++ msg⟩ :: messages rest := by
  have length : payloadLength PRINT_STRING (leBytes (UInt32.ofNat msg.length) ++ (msg ++ rest)) =
      (leBytes (UInt32.ofNat msg.length) ++ msg).length := by
    rw [payloadLength, if_neg (by decide), if_pos rfl]
    simp only [stringLength, leBytes, List.cons_append, List.nil_append, leWord_leBytes,
      UInt32.toNat_ofNat_of_lt' short, List.length_cons]
    omega
  rw [printed, List.append_assoc, List.append_assoc, messages_cons, length, ← List.append_assoc,
    List.take_left, List.drop_left]

theorem messages_requests (k : Nat) (rest : List UInt8) :
    messages (requests k ++ rest) = List.replicate k ⟨GET_PROG_INFO, []⟩ ++ messages rest := by
  induction k with
  | zero => rfl
  | succ k ih =>
    rw [requests_succ, List.append_assoc, messages_plain (by decide) (by decide), ih]
    rfl

theorem messages_errorIf (wrong : Prop) [Decidable wrong] (rest : List UInt8) :
    messages (errorIf wrong ++ rest) =
      (if wrong then [⟨BOOT_ERROR, []⟩] else []) ++ messages rest := by
  unfold errorIf
  split
  · rw [messages_plain (by decide) (by decide)]
    rfl
  · rfl

def opcodes (sent : List UInt8) : List UInt32 := (messages sent).map Message.op

theorem opcodes_run (img : Image) (addr n crc : UInt32) (k : Nat) (code : List UInt8) :
    opcodes (requests k ++ answer img addr n crc ++ verdict crc code) =
      List.replicate k GET_PROG_INFO ++
        (if collides img addr n then [BOOT_ERROR] else []) ++ [GET_CODE] ++
        (if crc32 code ≠ crc then [BOOT_ERROR] else []) ++ [PRINT_STRING, BOOT_SUCCESS] := by
  have last : messages (leBytes BOOT_SUCCESS) = [⟨BOOT_SUCCESS, []⟩] := by
    have h := messages_plain (show BOOT_SUCCESS ≠ GET_CODE by decide) (by decide) []
    rwa [List.append_nil, messages_nil] at h
  simp only [opcodes, answer, verdict, List.append_assoc, messages_requests, messages_errorIf,
    messages_getCode, messages_printed greeting _ (by decide), last]
  split <;> split <;> simp

theorem crc_echoed (img : Image) (addr n crc : UInt32) (k : Nat) (rest : List UInt8) :
    ⟨GET_CODE, leBytes crc⟩ ∈ messages (requests k ++ answer img addr n crc ++ rest) := by
  simp only [answer, List.append_assoc, messages_requests, messages_errorIf, messages_getCode]
  simp

end EmbeddedOS.Bootloader
