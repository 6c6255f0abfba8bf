import EmbeddedOS.Bootloader.GetCode

/-! What the pi side does with the bytes it is given: one lemma for each routine,
and from them the three stretches of get_code between which it waits. -/
namespace EmbeddedOS.Bootloader
open Serial Serial.Node

variable {w : List UInt8} {c : Ctx UInt32 PiMem}

section Words

theorem bootGet32_does {b0 b1 b2 b3 : UInt8} {xs : List UInt8}
    (unread : c.Unread w (b0 :: b1 :: b2 :: b3 :: xs)) :
    Does w bootGet32 c (leWord b0 b1 b2 b3) (c.take 4) := by
  have u1 : (c.take 1).Unread w (b1 :: b2 :: b3 :: xs) := Ctx.unread_take [b0] unread
  have u2 : (c.take 2).Unread w (b2 :: b3 :: xs) := Ctx.unread_take [b0, b1] unread
  have u3 : (c.take 3).Unread w (b3 :: xs) := Ctx.unread_take [b0, b1, b2] unread
  exact (does_get8 unread).andThen <| (does_get8 u1).andThen <| (does_get8 u2).andThen <|
    (does_get8 u3).andThen .refl

theorem low_byte (u : UInt32) : (u &&& 0xff).toUInt8 = u.toUInt8 := by
  apply UInt8.eq_of_toBitVec_eq
  ext i hi
  interval_cases i <;> simp

theorem bootPut32_does (u : UInt32) (c : Ctx UInt32 PiMem) :
    Does w (bootPut32 u) c () (c.say (leBytes u)) := by
  have bytes : leBytes u = [((u >>> 0) &&& 0xff).toUInt8] ++ [((u >>> 8) &&& 0xff).toUInt8] ++
      [((u >>> 16) &&& 0xff).toUInt8] ++ [((u >>> 24) &&& 0xff).toUInt8] := by
    simp only [low_byte, leBytes, List.cons_append, List.nil_append, UInt32.shiftRight_zero]
  rw [bytes, ← Ctx.say_say, ← Ctx.say_say, ← Ctx.say_say]
  exact (does_put8 _ c).andThen <| (does_put8 _ _).andThen <| (does_put8 _ _).andThen <|
    does_put8 _ _

theorem putString_does (msg : List UInt8) (c : Ctx UInt32 PiMem) :
    Does w (putString msg) c () (c.say msg) := by
  induction msg generalizing c with
  | nil => rw [Ctx.say_nil]; exact .refl
  | cons b msg ih =>
    rw [← List.singleton_append, ← Ctx.say_say]
    exact (does_put8 b c).andThen (ih (c.say [b]))

def printed (msg : List UInt8) : List UInt8 :=
  leBytes PRINT_STRING ++ leBytes (UInt32.ofNat msg.length) ++ msg

theorem bootPutk_does (msg : List UInt8) (c : Ctx UInt32 PiMem) :
    Does w (bootPutk msg) c () (c.say (printed msg)) := by
  rw [printed, ← Ctx.say_say, ← Ctx.say_say]
  exact (bootPut32_does _ c).andThen <| (bootPut32_does _ _).andThen <| putString_does msg _

end Words

section Waiting

/-- Readings of a timer that stands still and a receiver that has data: with them
in store behind any others, the wait loop comes to its end. -/
def dataThere : List UInt32 := [1, 1, 1]

theorem uartHasData_does {r : UInt32} {rest : List UInt32} (stored : c.script = r :: rest)
    (there : c.taken < w.length) : Does w uartHasData c r (c.reload rest) :=
  does_sense stored fun _ => there

theorem timerGetUsec_does {r : UInt32} {rest : List UInt32} (stored : c.script = r :: rest) :
    Does w timerGetUsec c r (c.reload rest) :=
  does_sense stored fun promised => by cases promised

/-- One call of the polling loop, from any readings with two ones behind them: it
returns 1, or it times out within the readings that come first. -/
theorem poll_does (s timeout : UInt32) (behind : List UInt32) (first : List UInt32)
    (stored : c.script = first ++ 1 :: 1 :: behind) (there : c.taken < w.length) :
    ∃ (v : UInt32) (rest : List UInt32), Does w (.iter (fun _ => do
        let e ← timerGetUsec
        let there ← uartHasData
        if there = 1 then pure (.inr 1)
        else if e - s ≥ timeout then pure (.inr 0)
        else pure (.inl ())) ()) c v (c.reload rest) ∧
      (v = 0 → ∃ fewer, fewer.length < first.length ∧ rest = fewer ++ 1 :: 1 :: behind) := by
  induction h : first.length using Nat.strong_induction_on generalizing first c with
  | _ n ih =>
    match first with
    | [] =>
      refine ⟨1, behind, does_iter_last ?_, fun zero => by cases zero⟩
      exact (timerGetUsec_does stored).andThen <|
        (uartHasData_does (c := c.reload (1 :: behind)) rfl there).andThen .refl
    | [e] =>
      refine ⟨1, 1 :: behind, does_iter_last ?_, fun zero => by cases zero⟩
      exact (timerGetUsec_does stored).andThen <|
        (uartHasData_does (c := c.reload (1 :: 1 :: behind)) rfl there).andThen .refl
    | e :: d :: first =>
      have readE := timerGetUsec_does (w := w) stored
      have readD : Does w uartHasData (c.reload (d :: (first ++ 1 :: 1 :: behind))) d
          (c.reload (first ++ 1 :: 1 :: behind)) := uartHasData_does rfl there
      by_cases data : d = 1
      · refine ⟨1, first ++ 1 :: 1 :: behind, does_iter_last ?_, fun zero => by cases zero⟩
        refine readE.andThen (readD.andThen ?_)
        rw [if_pos data]
        exact .refl
      · by_cases late : e - s ≥ timeout
        · refine ⟨0, first ++ 1 :: 1 :: behind, does_iter_last ?_, fun _ => ⟨first, ?_, rfl⟩⟩
          · refine readE.andThen (readD.andThen ?_)
            rw [if_neg data, if_pos late]
            exact .refl
          · simp only [List.length_cons] at h ⊢
            omega
        · have again : first.length < n := by simp only [List.length_cons] at h; omega
          obtain ⟨v, rest, runs, ends⟩ := ih first.length again
            (c := c.reload (first ++ 1 :: 1 :: behind)) first rfl there rfl
          refine ⟨v, rest, does_iter_again ?_ runs, ?_⟩
          · refine readE.andThen (readD.andThen ?_)
            rw [if_neg data, if_neg late]
            exact .refl
          · intro zero
            obtain ⟨fewer, less, eq⟩ := ends zero
            exact ⟨fewer, by omega, eq⟩

theorem hasDataTimeout_does (timeout : UInt32) (first : List UInt32)
    (stored : c.script = first ++ dataThere) (there : c.taken < w.length) :
    ∃ v rest, Does w (hasDataTimeout timeout) c v (c.reload rest) ∧
      (v = 0 → ∃ fewer, fewer.length < first.length ∧ rest = fewer ++ dataThere) := by
  cases first with
  | nil =>
    obtain ⟨v, rest, runs, ends⟩ := poll_does (w := w) (c := c.reload [1, 1]) 1 timeout []
      [] rfl there
    refine ⟨v, rest, (timerGetUsec_does stored).andThen runs, fun zero => ?_⟩
    obtain ⟨fewer, less, _⟩ := ends zero
    cases less
  | cons s first =>
    obtain ⟨v, rest, runs, ends⟩ := poll_does (w := w) (c := c.reload (first ++ dataThere))
      s timeout [1] first rfl there
    refine ⟨v, rest, (timerGetUsec_does stored).andThen runs, fun zero => ?_⟩
    obtain ⟨fewer, less, eq⟩ := ends zero
    exact ⟨fewer, Nat.lt_succ_of_lt less, eq⟩

def requests (k : Nat) : List UInt8 := (List.replicate k (leBytes GET_PROG_INFO)).flatten

def backToWait (usec : UInt32) : Unit ⊕ Unit → Pi Unit :=
  Proc.loopBack fun _ => do
    bootPut32 GET_PROG_INFO
    untilData usec

theorem waiting_does (usec : UInt32) (first : List UInt32)
    (stored : c.script = first ++ dataThere) (there : c.taken < w.length) :
    ∃ k rest, Does w (untilData usec >>= backToWait usec) c ()
      ((c.reload rest).say (requests k)) := by
  induction h : first.length using Nat.strong_induction_on generalizing first c with
  | _ n ih =>
    obtain ⟨v, rest, runs, ends⟩ := hasDataTimeout_does (w := w) usec first stored there
    have asked : Does w (untilData usec) c (if v = 0 then .inl () else .inr ())
        (c.reload rest) := runs.andThen .refl
    by_cases zero : v = 0
    · rw [if_pos zero] at asked
      obtain ⟨fewer, less, eq⟩ := ends zero
      obtain ⟨k, rest', loops⟩ := ih fewer.length (h ▸ less)
        (c := (c.reload rest).say (leBytes GET_PROG_INFO)) fewer eq there rfl
      refine ⟨k + 1, rest', asked.andThen ?_⟩
      have said : (((c.reload rest).say (leBytes GET_PROG_INFO)).reload rest').say (requests k) =
          (c.reload rest').say (requests (k + 1)) := by
        simp only [requests, List.replicate_succ, List.flatten_cons, ← Ctx.say_say,
          Ctx.reload_reload, Ctx.reload_say]
      rw [said] at loops
      refine .head rfl ?_
      exact ((steps_bind _ (steps_bind _ (bootPut32_does _ _))).trans (.head rfl loops))
    · rw [if_neg zero] at asked
      refine ⟨0, rest, asked.andThen ?_⟩
      rw [requests, List.replicate_zero, List.flatten_nil, Ctx.say_nil]
      exact .refl

theorem waitForData_asks (usec : UInt32) (c : Ctx UInt32 PiMem) :
    Steps w ⟨waitForData usec, c⟩
      ⟨untilData usec >>= backToWait usec, c.say (leBytes GET_PROG_INFO)⟩ :=
  .head rfl ((steps_bind _ (steps_bind _ (bootPut32_does _ c))).trans (.single rfl))

theorem requests_succ (k : Nat) : requests (k + 1) = leBytes GET_PROG_INFO ++ requests k := by
  simp only [requests, List.replicate_succ, List.flatten_cons]

theorem waitForData_does (usec : UInt32) (first : List UInt32)
    (stored : c.script = first ++ dataThere) (there : c.taken < w.length) :
    ∃ k rest, Does w (waitForData usec) c () ((c.reload rest).say (requests (k + 1))) := by
  obtain ⟨k, rest, waits⟩ := waiting_does (w := w) usec first
    (c := c.say (leBytes GET_PROG_INFO)) stored there
  refine ⟨k, rest, ?_⟩
  rw [requests_succ, ← Ctx.say_say]
  exact (waitForData_asks usec c).trans waits

end Waiting

section Storing

def PiMem.fill (m : PiMem) (addr : UInt32) : List UInt8 → PiMem
  | [] => m
  | x :: code => (m.put addr x).fill (addr + 1) code

theorem PiMem.fill_stores (m : PiMem) (addr : UInt32) (code : List UInt8) :
    (m.fill addr code).stores =
      m.stores ++ (List.range code.length).map fun i => addr + UInt32.ofNat i := by
  induction code generalizing m addr with
  | nil => simp only [fill, List.length_nil, List.range_zero, List.map_nil, List.append_nil]
  | cons x code ih =>
    have shift : ∀ i : Nat, addr + 1 + UInt32.ofNat i = addr + UInt32.ofNat (i + 1) := by
      intro i
      rw [UInt32.ofNat_add, UInt32.add_comm (UInt32.ofNat i), ← UInt32.add_assoc]
      rfl
    simp only [fill, ih, put, List.length_cons, List.range_succ_eq_map, List.map_cons,
      List.map_map, List.append_assoc, List.singleton_append]
    congr 2
    · exact (UInt32.add_zero addr).symm
    · exact List.map_congr_left fun i _ => shift i

theorem PiMem.fill_bytes_other (m : PiMem) (addr a : UInt32) (code : List UInt8)
    (other : ∀ i < code.length, addr + UInt32.ofNat i ≠ a) :
    (m.fill addr code).bytes a = m.bytes a := by
  induction code generalizing m addr with
  | nil => rfl
  | cons x code ih =>
    have here : addr ≠ a := by
      have h := other 0 (Nat.succ_pos _)
      rwa [show addr + UInt32.ofNat 0 = addr from UInt32.add_zero addr] at h
    have later : ∀ i < code.length, addr + 1 + UInt32.ofNat i ≠ a := by
      intro i hi
      have h := other (i + 1) (Nat.succ_lt_succ hi)
      rwa [UInt32.ofNat_add, UInt32.add_comm (UInt32.ofNat i), ← UInt32.add_assoc] at h
    rw [fill, ih _ _ later, put]
    exact if_neg (Ne.symm here)

theorem add_ofNat_ne (addr : UInt32) {i j : Nat} (hij : i < j) (hj : j < 2 ^ 32) :
    addr + UInt32.ofNat j ≠ addr + UInt32.ofNat i := by
  intro same
  have h := UInt32.add_right_inj addr |>.mp same
  have h' := congrArg UInt32.toNat h
  rw [UInt32.toNat_ofNat_of_lt' hj, UInt32.toNat_ofNat_of_lt' (Nat.lt_trans hij hj)] at h'
  omega

theorem PiMem.fill_bytes (m : PiMem) (addr : UInt32) (code : List UInt8)
    (short : code.length < 2 ^ 32) (i : Nat) (hi : i < code.length) :
    (m.fill addr code).bytes (addr + UInt32.ofNat i) = code[i] := by
  induction code generalizing m addr i with
  | nil => cases hi
  | cons x code ih =>
    have shorter : code.length < 2 ^ 32 := Nat.lt_of_succ_lt short
    cases i with
    | zero =>
      have start : addr + UInt32.ofNat 0 = addr := UInt32.add_zero addr
      have other : ∀ i < code.length, addr + 1 + UInt32.ofNat i ≠ addr := by
        intro i hi
        have h := add_ofNat_ne addr (Nat.succ_pos i)
          (Nat.lt_trans (Nat.succ_lt_succ hi) short)
        rwa [start, Nat.succ_eq_add_one, UInt32.ofNat_add, UInt32.add_comm (UInt32.ofNat i),
          ← UInt32.add_assoc] at h
      rw [start, fill, fill_bytes_other _ _ _ _ other]
      exact if_pos rfl
    | succ i =>
      have h := ih (m.put addr x) (addr + 1) shorter i (Nat.lt_of_succ_lt_succ hi)
      rw [UInt32.ofNat_add, UInt32.add_comm (UInt32.ofNat i), ← UInt32.add_assoc]
      exact h

theorem PiMem.fill_range (m : PiMem) (addr n : UInt32) (code : List UInt8)
    (size : code.length = n.toNat) : (m.fill addr code).range addr n = code := by
  have short : code.length < 2 ^ 32 := size ▸ n.toNat_lt
  apply List.ext_getElem
  · simp only [range, List.length_map, List.length_range, size]
  · intro i _ hi
    simp only [range, List.getElem_map, List.getElem_range]
    exact m.fill_bytes addr code short i hi

theorem storing_does (addr i : UInt32) (code xs : List UInt8)
    (unread : c.Unread w (code ++ xs)) :
    Does w (Proc.forFrom code.length i fun i => do
        let x ← bootGet8
        PUT8 (addr + i) x) c ()
      ((c.take code.length).store (c.mem.fill (addr + i) code)) := by
  induction code generalizing c i with
  | nil => exact .refl
  | cons x code ih =>
    have rest : (c.take 1).Unread w (code ++ xs) := Ctx.unread_take [x] unread
    have h := ih (c := (c.take 1).store (c.mem.put (addr + i) x)) (i + 1) rest
    rw [Ctx.store_take, Ctx.take_take, Ctx.store_store, Nat.add_comm 1] at h
    have round : Does w (bootGet8 >>= fun x => PUT8 (addr + i) x) c ()
        ((c.take 1).store (c.mem.put (addr + i) x)) :=
      (does_get8 unread).andThen (does_memory _ _)
    rw [← UInt32.add_assoc] at h
    exact round.andThen h

end Storing

section Stretches

variable (img : Image) (addr n crc : UInt32)

/-- get_code behind the checksum of step 6. -/
def report (addr crc sum : UInt32) : Pi UInt32 := do
  (if sum ≠ crc then bootPut32 BOOT_ERROR else pure ())
  bootPutk greeting
  bootPut32 BOOT_SUCCESS
  delayMs 1000
  uartFlushTx
  pure addr

/-- get_code from step 5 on. -/
def fetch : Pi UInt32 := do
  let _ ← bootGet32
  .forTo n fun i => do
    let c ← bootGet8
    PUT8 (addr + i) c
  let sum ← .memory fun m => (crc32 (m.range addr n), m)
  report addr crc sum

/-- get_code from step 2 on. -/
def negotiate : Pi UInt32 := do
  let _ ← bootGet32
  let addr ← bootGet32
  let n ← bootGet32
  let crc ← bootGet32
  (if collides img addr n then bootPut32 BOOT_ERROR else pure ())
  bootPut32 GET_CODE
  bootPut32 crc
  fetch addr n crc

theorem getCode_eq : getCode img = waitForData (300 * 1000) >>= fun _ => negotiate img := rfl

def errorIf (wrong : Prop) [Decidable wrong] : List UInt8 :=
  if wrong then leBytes BOOT_ERROR else []

theorem errorIf_does (wrong : Prop) [Decidable wrong] (c : Ctx UInt32 PiMem) :
    Does w (if wrong then bootPut32 BOOT_ERROR else pure ()) c () (c.say (errorIf wrong)) := by
  unfold errorIf
  split
  · exact bootPut32_does _ c
  · rw [Ctx.say_nil]
    exact .refl

def answer : List UInt8 :=
  errorIf (collides img addr n = true) ++ leBytes GET_CODE ++ leBytes crc

def verdict (code : List UInt8) : List UInt8 :=
  errorIf (crc32 code ≠ crc) ++ printed greeting ++ leBytes BOOT_SUCCESS

variable {n}

theorem negotiate_steps {op : UInt32} {xs : List UInt8}
    (unread : c.Unread w (leBytes op ++ leBytes addr ++ leBytes n ++ leBytes crc ++ xs)) :
    Steps w ⟨negotiate img, c⟩
      ⟨fetch addr n crc, (c.take 16).say (answer img addr n crc)⟩ := by
  have u1 : (c.take 4).Unread w (leBytes addr ++ leBytes n ++ leBytes crc ++ xs) :=
    Ctx.unread_take (leBytes op) unread
  have u2 : (c.take 8).Unread w (leBytes n ++ leBytes crc ++ xs) :=
    Ctx.unread_take (leBytes op ++ leBytes addr) unread
  have u3 : (c.take 12).Unread w (leBytes crc ++ xs) :=
    Ctx.unread_take (leBytes op ++ leBytes addr ++ leBytes n) unread
  have w0 := bootGet32_does unread
  have w1 := bootGet32_does u1
  have w2 := bootGet32_does u2
  have w3 := bootGet32_does u3
  rw [leWord_leBytes] at w0 w1 w2 w3
  rw [answer, ← Ctx.say_say, ← Ctx.say_say]
  exact w0.andThen <| w1.andThen <| w2.andThen <| w3.andThen <|
    (errorIf_does _ _).andThen <| (bootPut32_does _ _).andThen <| (bootPut32_does _ _).andThen .refl

theorem fetch_stores {op : UInt32} {code xs : List UInt8} (size : code.length = n.toNat)
    (unread : c.Unread w (leBytes op ++ code ++ xs)) :
    Steps w ⟨fetch addr n crc, c⟩
      ⟨report addr crc (crc32 code), (c.take (4 + code.length)).store (c.mem.fill addr code)⟩ := by
  have u1 : (c.take 4).Unread w (code ++ xs) :=
    Ctx.unread_take (leBytes op) (List.append_assoc .. ▸ unread)
  have w0 : Does w bootGet32 c op (c.take 4) := by
    have h := bootGet32_does (List.append_assoc .. ▸ unread :
      c.Unread w (leBytes op ++ (code ++ xs)))
    rwa [leWord_leBytes] at h
  have stores := storing_does addr 0 code xs u1
  rw [UInt32.add_zero, size, Ctx.take_take] at stores
  have sum := does_memory (w := w) (fun m : PiMem => (crc32 (m.range addr n), m))
    ((c.take (4 + n.toNat)).store ((c.take 4).mem.fill addr code))
  simp only [Ctx.store_mem, PiMem.fill_range _ _ _ _ size, Ctx.store_store] at sum
  rw [size]
  exact w0.andThen <| stores.andThen <| sum.andThen .refl

theorem report_does (code : List UInt8) (c : Ctx UInt32 PiMem) :
    Does w (report addr crc (crc32 code)) c addr (c.say (verdict crc code)) := by
  rw [verdict, ← Ctx.say_say, ← Ctx.say_say]
  exact (errorIf_does _ _).andThen <| (bootPutk_does _ _).andThen <|
    (bootPut32_does _ _).andThen <| (does_pure () _).andThen <| (does_pure () _).andThen .refl

/-- A header, an opcode and n bytes of code, whatever the words are, take the run
to the point where the code is stored. -/
theorem getCode_stores {op op' : UInt32} {code xs : List UInt8} (first : List UInt32)
    (stored : c.script = first ++ dataThere) (size : code.length = n.toNat)
    (unread : c.Unread w (leBytes op ++ leBytes addr ++ leBytes n ++ leBytes crc ++
      (leBytes op' ++ code ++ xs))) :
    ∃ k rest, Steps w ⟨getCode img, c⟩ ⟨report addr crc (crc32 code),
      (((c.take (20 + code.length)).store (c.mem.fill addr code)).reload rest).say
        (requests (k + 1) ++ answer img addr n crc)⟩ := by
  have there : c.taken < w.length := by
    by_contra empty
    have none : w.drop c.taken = [] := List.drop_eq_nil_of_le (Nat.le_of_not_lt empty)
    rw [Ctx.Unread, none] at unread
    cases unread
  obtain ⟨k, rest, waits⟩ := waitForData_does (w := w) (300 * 1000) first stored there
  refine ⟨k, rest, ?_⟩
  have asked : ((c.reload rest).say (requests (k + 1))).Unread w (leBytes op ++ leBytes addr ++
      leBytes n ++ leBytes crc ++ (leBytes op' ++ code ++ xs)) := unread
  have later : (((c.reload rest).say (requests (k + 1))).take 16).Unread w
      (leBytes op' ++ code ++ xs) :=
    Ctx.unread_take (leBytes op ++ leBytes addr ++ leBytes n ++ leBytes crc) asked
  have fetched := fetch_stores addr crc size
    (c := (((c.reload rest).say (requests (k + 1))).take 16).say (answer img addr n crc)) later
  have whole := waits.andThen (k := fun _ => negotiate img)
    ((negotiate_steps img addr crc asked).trans fetched)
  rw [getCode_eq]
  simp only [Ctx.say_take, Ctx.take_take, Ctx.say_say, Ctx.reload_take,
    ← Nat.add_assoc] at whole ⊢
  exact whole

end Stretches

/-! Only the write loop changes the memory; the other routines respect anything. -/
section Frames

variable {R : PiMem → PiMem → Prop}

theorem bootGet32_respects : bootGet32.Respects R := by
  refine ⟨trivial, fun _ => ⟨trivial, fun _ => ⟨trivial, fun _ => ⟨trivial, fun _ => ?_⟩⟩⟩⟩
  trivial

theorem bootPut32_respects (u : UInt32) : (bootPut32 u).Respects R :=
  ⟨trivial, fun _ => ⟨trivial, fun _ => ⟨trivial, fun _ => trivial⟩⟩⟩

theorem putString_respects (msg : List UInt8) : (putString msg).Respects R := by
  induction msg with
  | nil => trivial
  | cons b msg ih => exact ⟨trivial, fun _ => ih⟩

theorem bootPutk_respects (msg : List UInt8) : (bootPutk msg).Respects R :=
  respects_bind (bootPut32_respects _) fun _ =>
    respects_bind (bootPut32_respects _) fun _ => putString_respects msg

theorem errorIf_respects (wrong : Prop) [Decidable wrong] :
    (if wrong then bootPut32 BOOT_ERROR else pure ()).Respects R := by
  split
  · exact bootPut32_respects _
  · trivial

theorem untilData_respects (usec : UInt32) : (untilData usec).Respects R := by
  refine ⟨⟨trivial, fun s _ => ⟨trivial, fun e => ⟨trivial, fun there => ?_⟩⟩⟩, fun _ => trivial⟩
  dsimp only
  split
  · trivial
  · split
    · trivial
    · trivial

theorem report_respects (addr crc sum : UInt32) : (report addr crc sum).Respects R :=
  respects_bind (errorIf_respects _) fun _ =>
    respects_bind (bootPutk_respects _) fun _ => respects_bind (bootPut32_respects _) fun _ =>
      respects_bind (p := delayMs 1000) trivial fun _ =>
        respects_bind (p := uartFlushTx) trivial fun _ => trivial

end Frames

end EmbeddedOS.Bootloader
