import EmbeddedOS.I2c.Driver

/-! One call of i2c_write or i2c_read on an idle controller, whenever the bus moves.
A write takes its direction from the READ bit that the calls before it have left. -/
namespace EmbeddedOS.I2c
open Mmio

/-- The control register after a call: enabled, with the READ bit as it was left. -/
def controlWord (r : Bool) : UInt32 := if r then 0x8001 else 0x8000

/-- No transfer is going on, and those of the log have been started. -/
structure Quiet (L : List Transfer) (r : Bool) (s : Bsc) : Prop where
  off : s.active = false
  empty : s.fifo = []
  log : s.log = L
  control : s.control = controlWord r

def started (r : Bool) (s : Bsc) : Bsc :=
  { s with
    control := controlWord r
    active := true
    past := s.log
    current := some ⟨r, s.devAddr, s.dlen.toNat, []⟩ }

section Control

variable {s : Bsc} {r : Bool}

/-- The first store of i2c_write starts a transfer with the READ bit that is there. -/
theorem write_starts :
    Bsc.store .control (controlWord r ||| ((1 : UInt32) <<< 7)) s = started r s := by
  cases r <;> rfl

theorem read_starts :
    Bsc.store .control (controlWord r ||| (((1 : UInt32) <<< 7) ||| 0x1)) s = started true s := by
  cases r <;> rfl

theorem write_clears :
    Bsc.store .control (controlWord r &&& ~~~0x1) s = { s with control := controlWord false } := by
  cases r <;> rfl

theorem masked_addr {addr : UInt32} (fits : addr < 0x80) : addr &&& 0x7F = addr := by
  rw [← UInt32.toNat_inj, UInt32.toNat_and]
  exact Nat.and_two_pow_sub_one_of_lt_two_pow (n := 7) (UInt32.lt_iff_toNat_lt.mp fits)

theorem masked_length {n : UInt32} (fits : n < 0x10000) : n &&& 0xFFFF = n := by
  rw [← UInt32.toNat_inj, UInt32.toNat_and]
  exact Nat.and_two_pow_sub_one_of_lt_two_pow (n := 16) (UInt32.lt_iff_toNat_lt.mp fits)

end Control

section Sending

/-- A transfer to the device, with the bytes given so far sent or in the fifo. -/
structure Sending (L : List Transfer) (addr : UInt32) (n : Nat) (given : List UInt8) (s : Bsc) :
    Prop where
  control : s.control = controlWord false
  past : s.past = L
  current : ∃ sent, s.current = some ⟨false, addr, n, sent⟩ ∧ sent ++ s.fifo = given ∧
    sent.length ≤ n ∧ (s.active = false → sent.length = n)
  done : s.done = true → s.active = false

variable {L : List Transfer} {addr : UInt32} {n : Nat} {given : List UInt8} {s : Bsc}

theorem sending_stable : Stable bsc anything (Sending L addr n given) := by
  rintro s e t ⟨control, past, ⟨sent, current, queue, few, ended⟩, done⟩ _ moved
  cases Bsc.act_cases moved with
  | send on cur front out left =>
    cases current.symm.trans cur
    rw [front] at queue
    refine ⟨control, past, ⟨_, rfl, ?_, ?_, ?_⟩, done⟩
    · rw [List.append_assoc]
      exact queue
    · rw [List.length_append]
      exact left
    · intro off
      rw [on] at off
      cases off
  | receive b on cur back =>
    cases current.symm.trans cur
    cases back
  | finish on cur whole =>
    cases current.symm.trans cur
    exact ⟨control, past, ⟨sent, current, queue, few, fun _ => Nat.le_antisymm few whole⟩,
      fun _ => rfl⟩

theorem Sending.log (sending : Sending L addr n given s) :
    s.log.map Transfer.header = L.map Transfer.header ++ [(false, addr, n)] := by
  obtain ⟨sent, current, _⟩ := sending.current
  rw [Bsc.log, sending.past, current, Option.toList_some, List.map_append]
  rfl

theorem Sending.quiet (sending : Sending L addr n given s) (whole : given.length = n)
    (done : s.done = true) : Quiet (L ++ [⟨false, addr, n, given⟩]) false s := by
  obtain ⟨sent, current, queue, few, ended⟩ := sending.current
  have off := sending.done done
  have length := ended off
  have split : sent.length + s.fifo.length = given.length := by
    rw [← queue, List.length_append]
  have empty : s.fifo = [] := List.eq_nil_of_length_eq_zero (by omega)
  rw [empty, List.append_nil] at queue
  subst queue
  refine ⟨off, empty, ?_, sending.control⟩
  rw [Bsc.log, sending.past, current]
  rfl

theorem room_stable : Stable bsc anything fun s => Sending L addr n given s ∧ s.fifo.length < 16 := by
  rintro s e t ⟨sending, room⟩ _ moved
  refine ⟨sending_stable s e t sending trivial moved, ?_⟩
  cases Bsc.act_cases moved with
  | send on cur front =>
    rw [front] at room
    exact Nat.lt_of_succ_lt room
  | receive b on cur back =>
    obtain ⟨sent, current, _⟩ := sending.current
    cases current.symm.trans cur
    cases back
  | finish => exact room

theorem Sending.store {b : UInt8} (sending : Sending L addr n given s) (room : s.fifo.length < 16) :
    Sending L addr n (given ++ [b]) (Bsc.store .fifo b.toUInt32 s) := by
  obtain ⟨control, past, ⟨sent, current, queue, few, ended⟩, done⟩ := sending
  simp only [Bsc.store, if_pos room, UInt8.toUInt8_toUInt32]
  refine ⟨control, past, ⟨sent, current, ?_, few, ended⟩, done⟩
  rw [← queue, List.append_assoc]

variable {I : Bsc → Prop}

theorem sendFrom_safe {data : List UInt8} {k i : Nat} (inside : i + k ≤ data.length)
    (inv : ∀ t : Bsc, t.log.map Transfer.header = L.map Transfer.header ++ [(false, addr, n)] → I t)
    (sending : Sending L addr n (data.take i) s) :
    Safe bsc anything I (fun _ => Sending L addr n (data.take (i + k))) (sendFrom data i k) s := by
  have kept : ∀ given (t : Bsc), Sending L addr n given t → I t := fun _ t here => inv t here.log
  induction k generalizing i s with
  | zero => exact safe_ret sending_stable (kept _) (fun _ here => here) sending
  | succ k ih =>
    refine safe_poll sending_stable (kept _) (fun _ here _ => here) (fun t here ready => ?_) sending
    have room : t.fifo.length < 16 := (status_room t).mp (of_decide_eq_true ready)
    refine safe_store room_stable (fun u at_u => kept _ u at_u.1) (fun u at_u => ?_) ⟨here, room⟩
    have next : data.take i ++ [data.getD i 0] = data.take (i + 1) := by
      have there : i < data.length := by omega
      rw [List.getD_eq_getElem?_getD, List.getElem?_eq_getElem there, Option.getD_some,
        List.take_append_getElem there]
    have stored := at_u.1.store (b := data.getD i 0) at_u.2
    rw [next] at stored
    rw [show i + (k + 1) = i + 1 + k by omega]
    exact ih (by omega) stored

end Sending

section Receiving

/-- A transfer from the device, with the bytes got so far taken out of the fifo. -/
structure Receiving (L : List Transfer) (addr : UInt32) (n : Nat) (got : List UInt8) (s : Bsc) :
    Prop where
  control : s.control = controlWord true
  past : s.past = L
  current : ∃ bytes, s.current = some ⟨true, addr, n, bytes⟩ ∧ got ++ s.fifo = bytes ∧
    bytes.length ≤ n
  done : s.done = true → s.active = false

variable {L : List Transfer} {addr : UInt32} {n : Nat} {got : List UInt8} {s : Bsc}

theorem receiving_stable : Stable bsc anything (Receiving L addr n got) := by
  rintro s e t ⟨control, past, ⟨bytes, current, queue, few⟩, done⟩ _ moved
  cases Bsc.act_cases moved with
  | send on cur front out =>
    cases current.symm.trans cur
    cases out
  | receive b on cur back left =>
    cases current.symm.trans cur
    refine ⟨control, past, ⟨_, rfl, ?_, ?_⟩, done⟩
    · rw [← List.append_assoc, queue]
    · rw [List.length_append]
      exact left
  | finish on cur whole => exact ⟨control, past, ⟨bytes, current, queue, few⟩, fun _ => rfl⟩

theorem data_stable : Stable bsc anything fun s => Receiving L addr n got s ∧ s.fifo ≠ [] := by
  rintro s e t ⟨receiving, some⟩ _ moved
  refine ⟨receiving_stable s e t receiving trivial moved, ?_⟩
  cases Bsc.act_cases moved with
  | send on cur front out =>
    obtain ⟨bytes, current, _⟩ := receiving.current
    cases current.symm.trans cur
    cases out
  | receive b on cur back left => exact List.append_ne_nil_of_right_ne_nil _ (by simp)
  | finish on cur whole => exact some

theorem Receiving.log (receiving : Receiving L addr n got s) :
    s.log.map Transfer.header = L.map Transfer.header ++ [(true, addr, n)] := by
  obtain ⟨bytes, current, _⟩ := receiving.current
  rw [Bsc.log, receiving.past, current, Option.toList_some, List.map_append]
  rfl

theorem Receiving.quiet (receiving : Receiving L addr n got s) (whole : got.length = n)
    (done : s.done = true) : Quiet (L ++ [⟨true, addr, n, got⟩]) true s := by
  obtain ⟨bytes, current, queue, few⟩ := receiving.current
  have split : got.length + s.fifo.length = bytes.length := by
    rw [← queue, List.length_append]
  have empty : s.fifo = [] := List.eq_nil_of_length_eq_zero (by omega)
  rw [empty, List.append_nil] at queue
  subst queue
  refine ⟨receiving.done done, empty, ?_, receiving.control⟩
  rw [Bsc.log, receiving.past, current]
  rfl

theorem Receiving.load (receiving : Receiving L addr n got s) (some : s.fifo ≠ []) :
    Receiving L addr n (got ++ [(Bsc.load .fifo s).1.toUInt8]) (Bsc.load .fifo s).2 := by
  obtain ⟨control, past, ⟨bytes, current, queue, few⟩, done⟩ := receiving
  obtain ⟨b, rest, front⟩ := List.exists_cons_of_ne_nil some
  simp only [Bsc.load, front, UInt8.toUInt8_toUInt32]
  refine ⟨control, past, ⟨bytes, current, ?_, few⟩, done⟩
  rw [← queue, front, List.append_assoc]
  rfl

variable {I : Bsc → Prop}

theorem receiveBytes_safe {k : Nat}
    (inv : ∀ t : Bsc, t.log.map Transfer.header = L.map Transfer.header ++ [(true, addr, n)] → I t)
    (receiving : Receiving L addr n got s) :
    Safe bsc anything I (fun xs t => xs.length = k ∧ Receiving L addr n (got ++ xs) t)
      (receiveBytes k) s := by
  have kept : ∀ got (t : Bsc), Receiving L addr n got t → I t := fun _ t here => inv t here.log
  induction k generalizing got s with
  | zero =>
    refine safe_ret receiving_stable (kept _) (fun t here => ⟨rfl, ?_⟩) receiving
    rw [List.append_nil]
    exact here
  | succ k ih =>
    refine safe_poll receiving_stable (kept _) (fun _ here _ => here) (fun t here ready => ?_)
      receiving
    have some : t.fifo ≠ [] := (status_data t).mp (of_decide_eq_true ready)
    refine safe_load data_stable (fun u at_u => kept _ u at_u.1) (fun u at_u => ?_) ⟨here, some⟩
    change Safe bsc anything I _ (receiveBytes k >>= fun rest => pure (_ :: rest)) _
    refine safe_bind (ih (at_u.1.load at_u.2)) ?_
    rintro rest v ⟨length, taken⟩
    rw [List.append_assoc] at taken
    refine safe_ret receiving_stable (kept _) (fun w here => ⟨?_, here⟩) taken
    rw [List.length_cons, length]

end Receiving

section Calls

variable {L : List Transfer} {addr n : UInt32} {s : Bsc} {I : Bsc → Prop} {r : Bool}

theorem started_sending (quiet : Quiet L r s) (fits : addr < 0x80) (short : n < 0x10000) :
    Sending L addr n.toNat [] { started false (prepared addr n s) with control := controlWord false } := by
  refine ⟨rfl, quiet.log, ⟨[], ?_, quiet.empty, Nat.zero_le _, fun off => by cases off⟩,
    fun done => by cases done⟩
  simp only [started, prepared, masked_addr fits, masked_length short]

theorem started_receiving (quiet : Quiet L r s) (fits : addr < 0x80) (short : n < 0x10000) :
    Receiving L addr n.toNat [] (started true (prepared addr n s)) := by
  refine ⟨rfl, quiet.log, ⟨[], ?_, quiet.empty, Nat.zero_le _⟩, fun done => by cases done⟩
  simp only [started, prepared, masked_addr fits, masked_length short]

theorem i2c_write_safe {data : List UInt8} (fits : addr < 0x80) (short : n < 0x10000)
    (inside : n.toNat ≤ data.length) (before : ∀ t : Bsc, t.log = L → I t)
    (after : ∀ t : Bsc, t.log.map Transfer.header =
      L.map Transfer.header ++ [(false, addr, n.toNat)] → I t) (quiet : Quiet L false s) :
    Safe bsc anything I
      (fun v t => v = 1 ∧ Quiet (L ++ [⟨false, addr, n.toNat, data.take n.toNat⟩]) false t)
      (i2cWrite addr data n) s := by
  have kept : ∀ given (t : Bsc), Sending L addr n.toNat given t → I t :=
    fun _ t here => after t here.log
  refine prepare_safe quiet.off (fun t same => before t (same.trans quiet.log)) ?_
  refine idle_load quiet.off (before _ quiet.log) (idle_store quiet.off (before _ quiet.log) ?_)
  have control : (prepared addr n s).control = controlWord false := quiet.control
  change Safe bsc anything I _ _ (Bsc.store .control ((prepared addr n s).control ||| _) _)
  rw [control, write_starts]
  have sending := started_sending quiet fits short
  refine safe_load sending_stable (kept _) (fun t here => ?_) sending
  change Safe bsc anything I _ (.store .control (t.control &&& ~~~0x1) _) t
  rw [here.control]
  refine safe_store sending_stable (kept _) (fun u at_u => ?_) here
  have cleared : bsc.store .control (controlWord false &&& ~~~0x1) u =
      { u with control := controlWord false } := write_clears (s := u) (r := false)
  have sending' : Sending L addr n.toNat (data.take 0) { u with control := controlWord false } :=
    ⟨rfl, at_u.past, at_u.current, at_u.done⟩
  rw [cleared]
  refine safe_poll sending_stable (kept _) (fun _ here _ => here) (fun v here _ => ?_) sending'
  change Safe bsc anything I _ (sendFrom data 0 n.toNat >>= fun _ => _) v
  refine safe_bind (sendFrom_safe (by omega) after here) ?_
  rintro _ w sent
  rw [Nat.zero_add] at sent
  refine safe_poll sending_stable (kept _) (fun _ here _ => here) (fun x here ready => ?_) sent
  have whole : (data.take n.toNat).length = n.toNat := List.length_take_of_le inside
  have ends := here.quiet whole ((status_done x).mp (of_decide_eq_true ready))
  exact idle_ret ends.off (kept _ x here) ⟨rfl, ends⟩

theorem i2c_read_safe (fits : addr < 0x80) (short : n < 0x10000)
    (before : ∀ t : Bsc, t.log = L → I t)
    (after : ∀ t : Bsc, t.log.map Transfer.header =
      L.map Transfer.header ++ [(true, addr, n.toNat)] → I t) (quiet : Quiet L r s) :
    Safe bsc anything I
      (fun v t => v.1 = 1 ∧ v.2.length = n.toNat ∧ Quiet (L ++ [⟨true, addr, n.toNat, v.2⟩]) true t)
      (i2cRead addr n) s := by
  have kept : ∀ got (t : Bsc), Receiving L addr n.toNat got t → I t :=
    fun _ t here => after t here.log
  refine prepare_safe quiet.off (fun t same => before t (same.trans quiet.log)) ?_
  refine idle_load quiet.off (before _ quiet.log) (idle_store quiet.off (before _ quiet.log) ?_)
  have control : (prepared addr n s).control = controlWord r := quiet.control
  change Safe bsc anything I _ _ (Bsc.store .control ((prepared addr n s).control ||| _) _)
  rw [control, read_starts]
  have receiving := started_receiving quiet fits short
  refine safe_poll receiving_stable (kept _) (fun _ here _ => here) (fun t here _ => ?_) receiving
  change Safe bsc anything I _ (receiveBytes n.toNat >>= fun data => _) t
  refine safe_bind (receiveBytes_safe after here) ?_
  rintro data u ⟨length, got⟩
  rw [List.nil_append] at got
  refine safe_poll receiving_stable (kept _) (fun _ here _ => here) (fun v here ready => ?_) got
  have ends := here.quiet length ((status_done v).mp (of_decide_eq_true ready))
  exact idle_ret ends.off (kept _ v here) ⟨rfl, length, ends⟩

end Calls

section Returning

variable {L : List Transfer} {addr n : UInt32} {s t : Bsc} {r : Bool}

theorem reaches_move {α : Type} {p : Bus α} {c : Config Reg UInt32 Bsc α} (moves : Bsc.Moves s t)
    (rest : Steps.Reaches (step bsc) ⟨p, t⟩ c) : Steps.Reaches (step bsc) ⟨p, s⟩ c := by
  obtain ⟨e, moved⟩ := moves.act
  exact reaches_act moved rest

theorem loads (g : Reg) (s : Bsc) : Returns bsc (load g) s (Bsc.load g s).1 (Bsc.load g s).2 :=
  returns_load g s

theorem stores (g : Reg) (v : UInt32) (s : Bsc) : Returns bsc (store g v) s () (Bsc.store g v s) :=
  returns_store g v s

theorem polls {ready : UInt32 → Bool} (good : ready s.status = true) :
    Returns bsc (poll .status ready) s s.status s := returns_poll Reg.status good

theorem prepare_returns (quiet : Quiet L r s) :
    Returns bsc (prepare addr n) s () (prepared addr n s) := by
  have idle : s.status &&& 1 = 0 := by
    by_contra busy
    have on := (status_active s).mp busy
    rw [quiet.off] at on
    cases on
  have empty : s.status &&& ((1 : UInt32) <<< 6) ≠ 0 := (status_empty s).mpr quiet.empty
  refine (polls (decide_eq_true idle)).andThen ((polls (decide_eq_true empty)).andThen ?_)
  refine (loads .status s).andThen ((stores .status _ s).andThen ?_)
  rw [show (Bsc.load .status s).1 = s.status from rfl, status_stored]
  exact (stores .devAddr addr _).andThen (stores .dlen n _)

/-- The schedule that sends each byte as soon as it is there. -/
theorem sendFrom_returns (data : List UInt8) {sent : List UInt8} {m : Nat} (i k : Nat)
    (on : s.active = true) (empty : s.fifo = []) (current : s.current = some ⟨false, addr, m, sent⟩)
    (left : sent.length + k = m) :
    ∃ t bytes, Returns bsc (sendFrom data i k) s () t ∧ t.active = true ∧
      t.current = some ⟨false, addr, m, bytes⟩ ∧ bytes.length = m := by
  induction k generalizing i sent s with
  | zero => exact ⟨s, sent, Steps.Reaches.refl _ _, on, current, left⟩
  | succ k ih =>
    have room : s.fifo.length < 16 := by
      rw [empty]
      decide
    have less : sent.length < m := by omega
    have stored : Bsc.store .fifo (data.getD i 0).toUInt32 s =
        { s with fifo := [(data.getD i 0)] } := by
      simp only [Bsc.store, empty, UInt8.toUInt8_toUInt32]
      rfl
    have moves : Bsc.Moves { s with fifo := [(data.getD i 0)] } _ := .send on current rfl rfl less
    have grown : (sent ++ [data.getD i 0]).length + k = m := by
      rw [List.length_append, List.length_singleton]
      omega
    let next : Bsc :=
      { s with fifo := [], current := some ⟨false, addr, m, sent ++ [data.getD i 0]⟩ }
    obtain ⟨t, bytes, runs, rest⟩ := ih (s := next) (i + 1) on rfl rfl grown
    refine ⟨t, bytes, ?_, rest⟩
    refine (polls (decide_eq_true ((status_room s).mpr room))).andThen ?_
    refine (stores .fifo _ s).andThen ?_
    rw [stored]
    exact reaches_move moves runs

/-- The schedule in which the device sends zeros, each when it is waited for. -/
theorem receiveBytes_returns {got : List UInt8} {m : Nat} (k : Nat)
    (on : s.active = true) (empty : s.fifo = []) (current : s.current = some ⟨true, addr, m, got⟩)
    (left : got.length + k = m) :
    ∃ xs t bytes, Returns bsc (receiveBytes k) s xs t ∧ t.active = true ∧
      t.current = some ⟨true, addr, m, bytes⟩ ∧ bytes.length = m := by
  induction k generalizing got s with
  | zero => exact ⟨[], s, got, Steps.Reaches.refl _ _, on, current, left⟩
  | succ k ih =>
    have less : got.length < m := by omega
    have room : s.fifo.length < 16 := by
      rw [empty]
      decide
    have moves := Bsc.Moves.receive 0 on current rfl less room
    rw [empty] at moves
    have grown : (got ++ [0]).length + k = m := by
      rw [List.length_append, List.length_singleton]
      omega
    let next : Bsc := { s with fifo := [], current := some ⟨true, addr, m, got ++ [0]⟩ }
    obtain ⟨xs, t, bytes, runs, rest⟩ := ih (s := next) on rfl rfl grown
    refine ⟨0 :: xs, t, bytes, reaches_move moves ?_, rest⟩
    refine (polls (decide_eq_true ((status_data _).mpr (List.cons_ne_nil _ _)))).andThen ?_
    refine (loads .fifo _).andThen ?_
    exact Returns.andThen runs (Steps.Reaches.refl _ _)

theorem finish_returns {α : Type} {a : α} {x : Transfer} (on : s.active = true)
    (current : s.current = some x) (whole : x.bytes.length = x.len) :
    ∃ t, Returns bsc (do
      let _ ← poll .status fun v => v &&& 0b10 ≠ 0
      pure a) s a t := by
  have moves := Bsc.Moves.finish on current (Nat.le_of_eq whole.symm)
  refine ⟨{ s with active := false, done := true }, reaches_move moves ?_⟩
  exact (polls (decide_eq_true ((status_done _).mpr rfl))).andThen (Steps.Reaches.refl _ _)

theorem i2c_write_returns (data : List UInt8) (fits : addr < 0x80) (short : n < 0x10000)
    (quiet : Quiet L false s) : ∃ t, Returns bsc (i2cWrite addr data n) s 1 t := by
  let p := prepared addr n s
  have control : p.control = controlWord false := quiet.control
  have current : (started false p).current = some ⟨false, addr, n.toNat, []⟩ := by
    simp only [p, started, prepared, masked_addr fits, masked_length short]
  have on : ({ started false p with control := controlWord false } : Bsc).active = true := rfl
  obtain ⟨t, bytes, sends, on', at_t, whole⟩ := sendFrom_returns data 0 n.toNat on quiet.empty
    current (Nat.zero_add _)
  obtain ⟨v, ends⟩ := finish_returns (a := (1 : Int)) on' at_t whole
  refine ⟨v, (prepare_returns quiet).andThen ?_⟩
  refine (loads .control p).andThen ((stores .control _ p).andThen ?_)
  rw [show (Bsc.load .control p).1 = controlWord false from control, write_starts]
  refine (loads .control _).andThen ((stores .control _ _).andThen ?_)
  rw [show (Bsc.load .control (started false p)).1 = controlWord false from rfl, write_clears]
  exact (polls (decide_eq_true ((status_active _).mpr on))).andThen (sends.andThen ends)

theorem i2c_read_returns (fits : addr < 0x80) (short : n < 0x10000) (quiet : Quiet L r s) :
    ∃ v t, Returns bsc (i2cRead addr n) s v t := by
  let p := prepared addr n s
  have control : p.control = controlWord r := quiet.control
  have current : (started true p).current = some ⟨true, addr, n.toNat, []⟩ := by
    simp only [p, started, prepared, masked_addr fits, masked_length short]
  have on : (started true p).active = true := rfl
  obtain ⟨data, t, bytes, receives, on', at_t, whole⟩ := receiveBytes_returns n.toNat on quiet.empty
    current (Nat.zero_add _)
  obtain ⟨v, ends⟩ := finish_returns (a := ((1 : Int), data)) on' at_t whole
  refine ⟨(1, data), v, (prepare_returns quiet).andThen ?_⟩
  refine (loads .control p).andThen ((stores .control _ p).andThen ?_)
  rw [show (Bsc.load .control p).1 = controlWord r from control, read_starts]
  exact (polls (decide_eq_true ((status_active _).mpr on))).andThen (receives.andThen ends)

theorem i2c_write_reads (addr n : UInt32) (data : List UInt8) (quiet : Quiet L true s) :
    ∃ q, Steps.Reaches (step bsc) ⟨i2cWrite addr data n, s⟩
      ⟨q, started true (prepared addr n s)⟩ := by
  let p := prepared addr n s
  have control : p.control = controlWord true := quiet.control
  constructor
  refine (prepare_returns quiet).andThen ?_
  refine (loads .control p).andThen ((stores .control _ p).andThen ?_)
  rw [show (Bsc.load .control p).1 = controlWord true from control, write_starts]
  exact Steps.Reaches.refl _ _

end Returning

end EmbeddedOS.I2c
