import EmbeddedOS.Bootloader.PutCode
import EmbeddedOS.Bootloader.PiRun

/-! What the unix side does with the bytes it is given, in three stretches:
up to the header, up to the code, and to its end. -/
namespace EmbeddedOS.Bootloader
open Serial Serial.Node

variable {w : List UInt8} {c : Ctx UInt32 (List UInt8)}

section Words

theorem getUint32_does {u : UInt32} {xs : List UInt8} (unread : c.Unread w (leBytes u ++ xs)) :
    Does w getUint32 c u (c.take 4) := by
  have u1 : (c.take 1).Unread w ((leBytes u).tail ++ xs) :=
    Ctx.unread_take [u.toUInt8] unread
  have u2 : (c.take 2).Unread w ((leBytes u).drop 2 ++ xs) :=
    Ctx.unread_take ((leBytes u).take 2) unread
  have u3 : (c.take 3).Unread w ((leBytes u).drop 3 ++ xs) :=
    Ctx.unread_take ((leBytes u).take 3) unread
  have whole : Does w getUint32 c (leWord u.toUInt8 (u >>> 8).toUInt8 (u >>> 16).toUInt8
      (u >>> 24).toUInt8) (c.take 4) :=
    (does_get8 unread).andThen <| (does_get8 u1).andThen <| (does_get8 u2).andThen <|
      (does_get8 u3).andThen .refl
  rwa [leWord_leBytes] at whole

theorem putUint32_does (u : UInt32) (c : Ctx UInt32 (List UInt8)) :
    Does w (putUint32 u) c () (c.say (leBytes u)) := by
  have bytes : leBytes u = [u.toUInt8] ++ [(u >>> 8).toUInt8] ++ [(u >>> 16).toUInt8] ++
      [(u >>> 24).toUInt8] := rfl
  rw [bytes, ← Ctx.say_say, ← Ctx.say_say, ← Ctx.say_say]
  exact (does_put8 _ c).andThen <| (does_put8 _ _).andThen <| (does_put8 _ _).andThen <|
    does_put8 _ _

theorem sending_does (buf : List UInt8) (i : UInt32) (k : Nat) (size : i.toNat + k = buf.length)
    (short : buf.length < 2 ^ 32) (c : Ctx UInt32 (List UInt8)) :
    Does w (Proc.forFrom k i fun i => putUint8 (buf.getD i.toNat 0)) c ()
      (c.say (buf.drop i.toNat)) := by
  induction k generalizing i c with
  | zero =>
    rw [List.drop_eq_nil_of_le (by omega), Ctx.say_nil]
    exact .refl
  | succ k ih =>
    have inside : i.toNat < buf.length := by omega
    have next : (i + 1).toNat = i.toNat + 1 := by
      rw [UInt32.toNat_add]
      exact Nat.mod_eq_of_lt (by simpa using (by omega : i.toNat + 1 < 2 ^ 32))
    have rest := ih (i + 1) (by omega) (c.say [buf[i.toNat]])
    rw [Ctx.say_say, next, List.singleton_append, ← List.drop_eq_getElem_cons inside] at rest
    have first : Does w (putUint8 (buf.getD i.toNat 0)) c () (c.say [buf[i.toNat]]) := by
      rw [List.getD_eq_getElem?_getD, List.getElem?_eq_getElem inside]
      exact does_put8 _ c
    exact first.andThen rest

end Words

section Opcodes

theorem getOp_plain {op : UInt32} {xs : List UInt8} (plain : op ≠ PRINT_STRING)
    (unread : c.Unread w (leBytes op ++ xs)) : Does w getOp c op (c.take 4) := by
  apply does_iter_last
  refine (getUint32_does unread).andThen ?_
  rw [if_pos plain]
  exact .refl

theorem printing_does (msg xs : List UInt8) (i : UInt32) (unread : c.Unread w (msg ++ xs)) :
    Does w (Proc.forFrom msg.length i fun _ => do
        let x ← getUint8
        output x) c () ((c.take msg.length).store (c.mem ++ msg)) := by
  induction msg generalizing c i with
  | nil =>
    rw [List.append_nil]
    exact .refl
  | cons x msg ih =>
    have later : ((c.take 1).store (c.mem ++ [x])).Unread w (msg ++ xs) :=
      Ctx.unread_take [x] unread
    have rest := ih (i + 1) later
    rw [Ctx.store_mem, List.append_assoc, List.singleton_append, Ctx.store_take, Ctx.take_take,
      Ctx.store_store, Nat.add_comm 1] at rest
    have round : Does w (getUint8 >>= output) c () ((c.take 1).store (c.mem ++ [x])) :=
      (does_get8 unread).andThen (does_memory _ _)
    exact round.andThen rest

def shown (msg : List UInt8) : List UInt8 :=
  if msg.getLast? = some 0x0a then msg.dropLast else msg

/-- A printed string is read and shown, and get_op goes on behind it. The string has
a last byte, and fewer than 512 in all. -/
theorem getOp_shows {n : Node UInt32 (List UInt8) UInt32} {xs : List UInt8} (msg : List UInt8)
    (last : UInt8) (short : msg.length + 1 < 512)
    (unread : c.Unread w (printed (msg ++ [last]) ++ xs))
    (rest : Steps w ⟨getOp, (c.take (msg.length + 9)).store (c.mem ++ shown (msg ++ [last]))⟩ n) :
    Steps w ⟨getOp, c⟩ n := by
  have small : (UInt32.ofNat (msg.length + 1)).toNat = msg.length + 1 :=
    UInt32.toNat_ofNat_of_lt' (Nat.lt_trans short (by decide))
  have size : (UInt32.ofNat (msg.length + 1) - 1).toNat = msg.length := by
    rw [UInt32.toNat_sub_of_le _ _ (by rw [UInt32.le_iff_toNat_le, small]; exact Nat.le_add_left ..),
      small]
    rfl
  simp only [printed, List.length_append, List.length_singleton, List.append_assoc] at unread
  have u1 := Ctx.unread_take _ unread
  have u2 := Ctx.unread_take _ u1
  have u3 := Ctx.unread_take _ u2
  simp only [leBytes_length, Ctx.take_take] at u1 u2 u3
  have shows := printing_does msg _ 0 u2
  rw [Ctx.take_take] at shows
  have ends : ((c.take (8 + msg.length)).store (c.mem ++ msg)).Unread w (last :: xs) := u3
  have small' : UInt32.ofNat (msg.length + 1) < 512 := by
    rw [UInt32.lt_iff_toNat_lt, small]
    exact short
  have lastShown : Does w (if last ≠ 0x0a then output last else pure ())
      (((c.take (8 + msg.length)).store (c.mem ++ msg)).take 1) ()
      ((c.take (msg.length + 9)).store (c.mem ++ shown (msg ++ [last]))) := by
    rw [Ctx.store_take, Ctx.take_take, show 8 + msg.length + 1 = msg.length + 9 by omega, shown,
      List.getLast?_concat, List.dropLast_concat]
    by_cases newline : last = 0x0a
    · rw [if_neg (not_not.mpr newline), if_pos (congrArg some newline)]
      exact .refl
    · rw [if_pos newline, if_neg fun same => newline (Option.some.inj same), ← List.append_assoc]
      exact does_memory _ _
  refine does_iter_again ?_ rest
  refine (getUint32_does unread).andThen ?_
  rw [if_neg (not_not.mpr rfl)]
  refine (getUint32_does u1).andThen ?_
  refine (does_assert (decide_eq_true small') _).andThen ?_
  rw [Proc.forTo, size]
  exact shows.andThen <| (does_get8 ends).andThen <| lastShown.andThen .refl

theorem getOp_printed {op : UInt32} {xs : List UInt8} (msg : List UInt8) (last : UInt8)
    (plain : op ≠ PRINT_STRING) (short : msg.length + 1 < 512)
    (unread : c.Unread w (printed (msg ++ [last]) ++ leBytes op ++ xs)) :
    Does w getOp c op ((c.take (msg.length + 13)).store (c.mem ++ shown (msg ++ [last]))) := by
  rw [List.append_assoc] at unread
  have again := Ctx.unread_take _ unread
  have bytes : (printed (msg ++ [last])).length = msg.length + 9 := by
    simp [printed]
    omega
  rw [bytes] at again
  have opcode := getOp_plain (c := (c.take (msg.length + 9)).store (c.mem ++ shown (msg ++ [last])))
    plain again
  rw [Ctx.store_take, Ctx.take_take] at opcode
  exact getOp_shows msg last short unread opcode

end Opcodes

section Stretches

variable (buf : List UInt8) (n : UInt32)

def supply : Unix Unit := do
  let op ← .iter (fun _ => do
    let op ← getOp
    pure (if op = GET_PROG_INFO then .inl () else .inr op)) ()
  .assert (op = GET_CODE)
  let crc ← getUint32
  .assert (crc = crc32 (buf.take n.toNat))
  putUint32 PUT_CODE
  .forTo n fun i => putUint8 (buf.getD i.toNat 0)
  let op ← getOp
  .assert (op = BOOT_SUCCESS)

def conclude : Unix Unit := do
  let op ← getOp
  .assert (op = BOOT_SUCCESS)

def header : List UInt8 :=
  leBytes PUT_PROG_INFO ++ leBytes ARMBASE ++ leBytes n ++ leBytes (crc32 (buf.take n.toNat))

theorem header_length : (header buf n).length = 16 := by
  simp only [header, List.length_append, leBytes_length]

theorem simpleBoot_offers (bootAddr : UInt32) {xs : List UInt8}
    (unread : c.Unread w (leBytes GET_PROG_INFO ++ xs)) :
    Steps w ⟨simpleBoot bootAddr buf n, c⟩ ⟨supply buf n, (c.take 4).say (header buf n)⟩ := by
  have asked : Does w (.iter (fun _ : Unit => do
      let op ← getOp
      if op = GET_PROG_INFO then pure (.inr ())
      else do
        let _ ← getUint8
        pure (.inl ())) ()) c () (c.take 4) :=
    does_iter_last ((getOp_plain (by decide) unread).andThen .refl)
  rw [header, ← Ctx.say_say, ← Ctx.say_say, ← Ctx.say_say]
  exact asked.andThen <| (putUint32_does _ _).andThen <| (putUint32_does _ _).andThen <|
    (putUint32_does _ _).andThen <| (putUint32_does _ _).andThen .refl

theorem draining_does {op : UInt32} {xs : List UInt8} (plain : op ≠ PRINT_STRING)
    (other : op ≠ GET_PROG_INFO) (k : Nat)
    (unread : c.Unread w (requests k ++ (leBytes op ++ xs))) :
    Does w (.iter (fun _ : Unit => do
      let op ← getOp
      pure (if op = GET_PROG_INFO then .inl () else .inr op)) ()) c op (c.take (4 * k + 4)) := by
  induction k generalizing c with
  | zero =>
    apply does_iter_last
    refine (getOp_plain plain unread).andThen ?_
    rw [if_neg other]
    exact .refl
  | succ k ih =>
    rw [requests_succ, List.append_assoc] at unread
    have rest := ih (Ctx.unread_take _ unread)
    rw [leBytes_length, Ctx.take_take, show 4 + (4 * k + 4) = 4 * (k + 1) + 4 by omega] at rest
    exact does_iter_again ((getOp_plain (by decide) unread).andThen .refl) rest

theorem supply_sends (k : Nat) {xs : List UInt8} (size : buf.length = n.toNat)
    (unread : c.Unread w (requests k ++ (leBytes GET_CODE ++ (leBytes (crc32 buf) ++ xs)))) :
    Steps w ⟨supply buf n, c⟩
      ⟨conclude, (c.take (4 * k + 8)).say (leBytes PUT_CODE ++ buf)⟩ := by
  have whole : buf.take n.toNat = buf := List.take_of_length_le (Nat.le_of_eq size)
  have drained := draining_does (w := w) (by decide) (by decide) k unread
  have length : (requests k ++ leBytes GET_CODE).length = 4 * k + 4 := by
    simp [requests, Nat.mul_comm]
  have later := Ctx.unread_take (requests k ++ leBytes GET_CODE)
    (List.append_assoc .. ▸ unread)
  rw [length] at later
  have echoed := getUint32_does later
  rw [Ctx.take_take] at echoed
  have sends := sending_does (w := w) buf 0 n.toNat (by rw [size]; exact Nat.zero_add _)
    (size ▸ n.toNat_lt) ((c.take (4 * k + 8)).say (leBytes PUT_CODE))
  rw [← Ctx.say_say]
  refine drained.andThen <| (does_assert (by decide) _).andThen <| echoed.andThen <|
    (does_assert (by rw [whole]; exact decide_eq_true rfl) _).andThen <|
    (putUint32_does _ _).andThen ?_
  exact sends.andThen .refl

theorem conclude_does {xs : List UInt8}
    (unread : c.Unread w (printed greeting ++ leBytes BOOT_SUCCESS ++ xs)) :
    ∃ shown, Does w conclude c () ((c.take 26).store (c.mem ++ shown)) := by
  have reads := getOp_printed greeting.dropLast 0x67 (by decide) (by decide) unread
  exact ⟨_, reads.andThen (does_assert (by decide) _)⟩

theorem supply_fails (k : Nat) {op : UInt32} {xs : List UInt8} (plain : op ≠ PRINT_STRING)
    (other : op ≠ GET_PROG_INFO) (wrong : op ≠ GET_CODE)
    (unread : c.Unread w (requests k ++ (leBytes op ++ xs))) :
    Steps w ⟨supply buf n, c⟩ ⟨.halt, c.take (4 * k + 4)⟩ := by
  refine (draining_does plain other k unread).andThen ?_
  rw [decide_eq_false wrong]
  exact .single rfl

end Stretches

end EmbeddedOS.Bootloader
