import Mathlib.Data.List.Basic

/-! nrf_getn and nrf_putn in single accesses to the arrays through which they transfer bytes. -/
namespace EmbeddedOS.Nrf.Transfer

section Arrays

/-- An assert fails, or an index is not in its array. -/
inductive Fault where
  | assert
  | outside (i : Nat)
deriving DecidableEq

def check (c : Bool) : Except Fault Unit := if c then pure () else throw .assert

def loadAt (array : List UInt8) (i : Nat) : Except Fault UInt8 :=
  match array[i]? with
  | some v => pure v
  | none => throw (.outside i)

def storeAt (array : List UInt8) (i : Nat) (v : UInt8) : Except Fault (List UInt8) :=
  if i < array.length then pure (array.set i v) else throw (.outside i)

def loadAll (array : List UInt8) (i : Nat) : Nat → Except Fault (List UInt8)
  | 0 => pure []
  | n + 1 => do
    let v ← loadAt array i
    let rest ← loadAll array (i + 1) n
    pure (v :: rest)

def storeAll (array : List UInt8) (i : Nat) : List UInt8 → Except Fault (List UInt8)
  | [] => pure array
  | v :: bytes => do
    let array ← storeAt array i v
    storeAll array (i + 1) bytes

end Arrays

section Code

def NRF_NOP : UInt8 := 0b11111111

/-- The bytes that come back for those that go out, one for each. -/
abbrev Spi := { exchange : List UInt8 → List UInt8 // ∀ tx, (exchange tx).length = tx.length }

/-- The array for the bytes received, and what went out. -/
def spiNTransfer (spi : Spi) (rx tx : List UInt8) (nbytes : Nat) : Except Fault (List UInt8 × List UInt8) := do
  let sent ← loadAll tx 0 nbytes
  let rx ← storeAll rx 0 (spi.val sent)
  pure (rx, sent)

def sizeofTx : UInt32 := 64

/-- The status, what is copied to the caller, and what went out. -/
def nrfGetn (spi : Spi) (rx tx : List UInt8) (cmd : UInt8) (nbytes : UInt32) :
    Except Fault (UInt8 × List UInt8 × List UInt8) := do
  check (nbytes < sizeofTx + 1)
  check (nbytes > 0)
  let tx ← storeAt tx 0 cmd
  let tx ← storeAll tx 1 (List.replicate nbytes.toNat NRF_NOP)
  let (rx, sent) ← spiNTransfer spi rx tx (nbytes + 1).toNat
  let bytes ← loadAll rx 1 nbytes.toNat
  let status ← loadAt rx 0
  pure (status, bytes, sent)

/-- The status, and what went out. -/
def nrfPutn (spi : Spi) (rx tx : List UInt8) (cmd : UInt8) (bytes : List UInt8) (nbytes : UInt32) :
    Except Fault (UInt8 × List UInt8) := do
  check (nbytes < sizeofTx + 1)
  check (nbytes > 0)
  let tx ← storeAt tx 0 cmd
  let tx ← storeAll tx 1 (bytes.take nbytes.toNat)
  let (rx, sent) ← spiNTransfer spi rx tx (nbytes + 1).toNat
  let status ← loadAt rx 0
  pure (status, sent)

end Code

section Purpose

/-- The arrays on the stack, with what happens to be in them. -/
abbrev Local := { array : List UInt8 // array.length = 64 }

/-- The sizes that the asserts let through. -/
def Admitted (nbytes : UInt32) : Prop := 0 < nbytes ∧ nbytes < sizeofTx + 1

instance (nbytes : UInt32) : Decidable (Admitted nbytes) := instDecidableAnd

/-- No index is outside; the command goes out and then NOPs, the first byte received is the status, and
the others come to the caller. -/
def GetnRight (nbytes : UInt32) : Prop := ∀ (spi : Spi) (rx tx : Local) (cmd : UInt8),
  ∃ status bytes, spi.val (cmd :: List.replicate nbytes.toNat NRF_NOP) = status :: bytes ∧
    nrfGetn spi rx.val tx.val cmd nbytes =
      .ok (status, bytes, cmd :: List.replicate nbytes.toNat NRF_NOP)

/-- No index is outside; the command goes out and then the bytes of the caller, and the first byte
received is the status. -/
def PutnRight (nbytes : UInt32) : Prop := ∀ (spi : Spi) (rx tx : Local) (cmd : UInt8) (bytes : List UInt8),
  bytes.length = nbytes.toNat →
    ∃ status rest, spi.val (cmd :: bytes) = status :: rest ∧
      nrfPutn spi rx.val tx.val cmd bytes nbytes = .ok (status, cmd :: bytes)

end Purpose

section Accesses

variable {array : List UInt8} {i n : Nat}

theorem loadAt_ok (inside : i < array.length) : loadAt array i = .ok array[i] := by
  rw [loadAt, List.getElem?_eq_getElem inside]
  rfl

theorem loadAll_ok (inside : i + n ≤ array.length) : loadAll array i n = .ok ((array.drop i).take n) := by
  induction n generalizing i with
  | zero => rfl
  | succ n ih =>
    rw [loadAll, loadAt_ok (by omega), List.drop_eq_getElem_cons (by omega), List.take_succ_cons]
    change (loadAll array (i + 1) n).bind _ = _
    rw [ih (by omega)]
    rfl

theorem storeAll_ok {bytes : List UInt8} (inside : i + bytes.length ≤ array.length) :
    storeAll array i bytes = .ok (array.take i ++ (bytes ++ array.drop (i + bytes.length))) := by
  induction bytes generalizing array i with
  | nil => simp [storeAll, pure, Except.pure]
  | cons v bytes ih =>
    rw [List.length_cons] at inside
    rw [storeAll, storeAt, if_pos (by omega)]
    change storeAll (array.set i v) (i + 1) bytes = _
    rw [ih (by rw [List.length_set]; omega), List.take_add_one, List.take_set_of_le (Nat.le_refl i),
      List.getElem?_set_self (by omega), List.drop_set_of_lt (by omega), List.length_cons]
    simp [Nat.add_assoc, Nat.add_comm 1]

/-- The first index that is not in the array is the one the last bytes meet. -/
theorem storeAll_outside {bytes : List UInt8} (start : i ≤ array.length)
    (long : array.length < i + bytes.length) : storeAll array i bytes = .error (.outside array.length) := by
  induction bytes generalizing array i with
  | nil =>
    rw [List.length_nil] at long
    omega
  | cons v bytes ih =>
    rw [List.length_cons] at long
    rw [storeAll, storeAt]
    split
    · change storeAll (array.set i v) (i + 1) bytes = _
      rw [ih (by rw [List.length_set]; omega) (by rw [List.length_set]; omega), List.length_set]
    · rename_i past
      have last : i = array.length := by omega
      rw [last]
      rfl

end Accesses

section Transfers

variable {nbytes : UInt32}

theorem admitted_small (admitted : Admitted nbytes) : 0 < nbytes.toNat ∧ nbytes.toNat ≤ 64 := by
  obtain ⟨some_bytes, few⟩ := admitted
  exact ⟨UInt32.lt_iff_toNat_lt.mp some_bytes, Nat.le_of_lt_succ (UInt32.lt_iff_toNat_lt.mp few)⟩

theorem asserts_pass {α : Type} (run : Except Fault α) (admitted : Admitted nbytes) :
    (do
      check (nbytes < sizeofTx + 1)
      check (nbytes > 0)
      run) = run := by
  rw [check, check, if_pos (decide_eq_true admitted.2), if_pos (decide_eq_true admitted.1)]
  rfl

theorem with_command (admitted : Admitted nbytes) : (nbytes + 1).toNat = nbytes.toNat + 1 := by
  have small := (admitted_small admitted).2
  rw [UInt32.toNat_add, UInt32.toNat_one]
  omega

theorem filled {tx : List UInt8} (cmd : UInt8) (payload : List UInt8) (size : tx.length = 64)
    (room : payload.length < 64) :
    ∃ others rest, storeAt tx 0 cmd = .ok (cmd :: others) ∧
      storeAll (cmd :: others) 1 payload = .ok (cmd :: (payload ++ rest)) := by
  cases tx with
  | nil => cases size
  | cons v tx =>
    rw [List.length_cons] at size
    refine ⟨tx, tx.drop payload.length, rfl, ?_⟩
    rw [storeAll_ok (by rw [List.length_cons, size]; omega), Nat.add_comm, List.drop_succ_cons]
    rfl

theorem exchanged (spi : Spi) {rx : List UInt8} (cmd : UInt8) (payload rest : List UInt8)
    (size : rx.length = 64) (room : payload.length < 64) :
    spiNTransfer spi rx (cmd :: (payload ++ rest)) (payload.length + 1) =
      .ok (spi.val (cmd :: payload) ++ rx.drop (payload.length + 1), cmd :: payload) := by
  have out : loadAll (cmd :: (payload ++ rest)) 0 (payload.length + 1) = .ok (cmd :: payload) := by
    rw [loadAll_ok (by simp), List.drop_zero, List.take_succ_cons, List.take_left]
  have back := spi.property (cmd :: payload)
  rw [spiNTransfer, out]
  change (storeAll rx 0 (spi.val (cmd :: payload))).bind _ = _
  rw [storeAll_ok (by rw [back, size, List.length_cons]; omega), back, List.length_cons, Nat.zero_add]
  rfl

theorem received (spi : Spi) (cmd : UInt8) (payload rest : List UInt8) :
    ∃ status bytes, spi.val (cmd :: payload) = status :: bytes ∧
      loadAt (spi.val (cmd :: payload) ++ rest) 0 = .ok status ∧
      loadAll (spi.val (cmd :: payload) ++ rest) 1 payload.length = .ok bytes := by
  have back := spi.property (cmd :: payload)
  cases answer : spi.val (cmd :: payload) with
  | nil =>
    rw [answer] at back
    cases back
  | cons status bytes =>
    rw [answer, List.length_cons, List.length_cons, Nat.succ_inj] at back
    refine ⟨status, bytes, rfl, rfl, ?_⟩
    rw [loadAll_ok (by simp; omega), ← back]
    change Except.ok ((bytes ++ rest).take bytes.length) = _
    rw [List.take_left]

theorem transferred (spi : Spi) {rx tx : List UInt8} (cmd : UInt8) (payload : List UInt8)
    (rx_size : rx.length = 64) (tx_size : tx.length = 64) (room : payload.length < 64) :
    ∃ rx' status bytes, spi.val (cmd :: payload) = status :: bytes ∧ loadAt rx' 0 = .ok status ∧
      loadAll rx' 1 payload.length = .ok bytes ∧
      ∀ {α : Type} (rest : List UInt8 × List UInt8 → Except Fault α), (do
        let tx ← storeAt tx 0 cmd
        let tx ← storeAll tx 1 payload
        let r ← spiNTransfer spi rx tx (payload.length + 1)
        rest r) = rest (rx', cmd :: payload) := by
  obtain ⟨others, left, command, stored⟩ := filled cmd payload tx_size room
  have sent := exchanged spi cmd payload left rx_size room
  obtain ⟨status, bytes, answer, first, behind⟩ :=
    received spi cmd payload (rx.drop (payload.length + 1))
  refine ⟨_, status, bytes, answer, first, behind, fun rest => ?_⟩
  rw [command]
  change (storeAll (cmd :: others) 1 payload).bind _ = _
  rw [stored]
  change (spiNTransfer spi rx _ (payload.length + 1)).bind _ = _
  rw [sent]
  rfl

theorem getn_right (admitted : Admitted nbytes) (room : nbytes.toNat < 64) : GetnRight nbytes := by
  intro spi rx tx cmd
  have length : (List.replicate nbytes.toNat NRF_NOP).length = nbytes.toNat := List.length_replicate
  obtain ⟨rx', status, bytes, answer, first, payload, run⟩ :=
    transferred spi cmd (List.replicate nbytes.toNat NRF_NOP) rx.property tx.property
      (by rw [length]; exact room)
  rw [length] at payload run
  refine ⟨status, bytes, answer, (asserts_pass _ admitted).trans ?_⟩
  rw [with_command admitted]
  refine (run _).trans ?_
  dsimp only
  rw [payload]
  change (loadAt rx' 0).bind _ = _
  rw [first]
  rfl

theorem putn_right (admitted : Admitted nbytes) (room : nbytes.toNat < 64) : PutnRight nbytes := by
  intro spi rx tx cmd bytes length
  obtain ⟨rx', status, rest, answer, first, _, run⟩ :=
    transferred spi cmd bytes rx.property tx.property (by rw [length]; exact room)
  rw [length] at run
  refine ⟨status, rest, answer, (asserts_pass _ admitted).trans ?_⟩
  rw [with_command admitted, List.take_of_length_le (Nat.le_of_eq length)]
  refine (run _).trans ?_
  dsimp only
  rw [first]
  rfl

/-- The last of 64 bytes goes behind the array. -/
theorem overfilled {tx : List UInt8} (cmd : UInt8) (payload : List UInt8) (size : tx.length = 64)
    (full : payload.length = 64) :
    ∃ others, storeAt tx 0 cmd = .ok (cmd :: others) ∧
      storeAll (cmd :: others) 1 payload = .error (.outside 64) := by
  cases tx with
  | nil => cases size
  | cons v tx =>
    have stays : (cmd :: tx).length = 64 := size
    refine ⟨tx, rfl, ?_⟩
    rw [storeAll_outside (by omega) (by omega), stays]

theorem getn_outside (spi : Spi) (rx tx : Local) (cmd : UInt8) :
    nrfGetn spi rx.val tx.val cmd 64 = .error (.outside 64) := by
  obtain ⟨others, command, stored⟩ :=
    overfilled cmd (List.replicate 64 NRF_NOP) tx.property List.length_replicate
  rw [nrfGetn]
  change (storeAt tx.val 0 cmd).bind _ = _
  rw [command]
  change (storeAll (cmd :: others) 1 (List.replicate 64 NRF_NOP)).bind _ = _
  rw [stored]
  rfl

theorem putn_outside (spi : Spi) (rx tx : Local) (cmd : UInt8) {bytes : List UInt8}
    (length : bytes.length = 64) : nrfPutn spi rx.val tx.val cmd bytes 64 = .error (.outside 64) := by
  obtain ⟨others, command, stored⟩ := overfilled cmd bytes tx.property length
  rw [nrfPutn]
  change (storeAt tx.val 0 cmd).bind _ = _
  rw [command]
  change (storeAll (cmd :: others) 1 (bytes.take 64)).bind _ = _
  rw [List.take_of_length_le (Nat.le_of_eq length), stored]
  rfl

def loopback : Spi := ⟨id, fun _ => rfl⟩

def zeroed : Local := ⟨List.replicate 64 0, List.length_replicate⟩

theorem admitted_cases (admitted : Admitted nbytes) : nbytes.toNat < 64 ∨ nbytes = 64 := by
  have small := (admitted_small admitted).2
  rcases Nat.lt_or_eq_of_le small with room | full
  · exact Or.inl room
  · exact Or.inr (UInt32.toNat_inj.mp full)

theorem getn_right_iff (admitted : Admitted nbytes) : GetnRight nbytes ↔ nbytes.toNat < 64 := by
  refine ⟨fun right => ?_, getn_right admitted⟩
  rcases admitted_cases admitted with room | full
  · exact room
  · subst full
    obtain ⟨_, _, _, run⟩ := right loopback zeroed zeroed 0
    rw [getn_outside] at run
    cases run

theorem putn_right_iff (admitted : Admitted nbytes) : PutnRight nbytes ↔ nbytes.toNat < 64 := by
  refine ⟨fun right => ?_, putn_right admitted⟩
  rcases admitted_cases admitted with room | full
  · exact room
  · subst full
    obtain ⟨_, _, _, run⟩ := right loopback zeroed zeroed 0 (List.replicate 64 0) List.length_replicate
    rw [putn_outside _ _ _ _ List.length_replicate] at run
    cases run

/-- Of the sizes that the asserts let through, all but the largest are right. -/
theorem transfers_right_iff (admitted : Admitted nbytes) :
    (GetnRight nbytes ↔ nbytes < 64) ∧ (PutnRight nbytes ↔ nbytes < 64) := by
  have bound : nbytes < 64 ↔ nbytes.toNat < 64 := UInt32.lt_iff_toNat_lt
  rw [bound]
  exact ⟨getn_right_iff admitted, putn_right_iff admitted⟩

theorem transfers_of_63 : Admitted 63 ∧ GetnRight 63 ∧ PutnRight 63 := by
  have admitted : Admitted 63 := by decide
  obtain ⟨getn, putn⟩ := transfers_right_iff admitted
  exact ⟨admitted, getn.mpr (by decide), putn.mpr (by decide)⟩

theorem transfers_of_64_outside :
    Admitted 64 ∧ nrfGetn loopback zeroed.val zeroed.val 0 64 = .error (.outside 64) ∧
      nrfPutn loopback zeroed.val zeroed.val 0 (List.replicate 64 0) 64 = .error (.outside 64) ∧
      ¬ GetnRight 64 ∧ ¬ PutnRight 64 := by
  have admitted : Admitted 64 := by decide
  refine ⟨admitted, getn_outside loopback zeroed zeroed 0,
    putn_outside loopback zeroed zeroed 0 List.length_replicate, ?_, ?_⟩
  · rw [getn_right_iff admitted]
    decide
  · rw [putn_right_iff admitted]
    decide

end Transfers

end EmbeddedOS.Nrf.Transfer
