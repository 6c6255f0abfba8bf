import EmbeddedOS.I2c.Faults

/-! What the calls report, and that they come to their end, as long as the controller gives no
transfer up and ends none before its start was seen. -/
namespace EmbeddedOS.I2c
open Mmio

section Live

/-- A transfer that goes on was seen to start, and one that is over has moved all its bytes. -/
structure Live (s : Controller) : Prop where
  here : s.active = true ∨ s.done = true
  seen : s.active = true → s.polled = true
  whole : s.active = false → ∃ t, s.current = some t ∧ t.len ≤ t.bytes.length

def left (b : Bsc) : Nat := (b.current.elim 0 fun t => t.len - t.bytes.length) + b.active.toNat

theorem left_moves {b b' : Bsc} (moves : Bsc.Moves b b') : left b' < left b := by
  cases moves with
  | send on current queue out less | receive _ on current back less room =>
    simp only [left, current, Option.elim_some, List.length_append, List.length_singleton]
    omega
  | finish on current whole =>
    simp only [left, on, Bool.toNat_true, Bool.toNat_false]
    omega

theorem left_le {b : Bsc} {t : Transfer} (current : b.current = some t) : left b ≤ t.len + 1 := by
  have bit := Bool.toNat_le b.active
  simp only [left, current, Option.elim_some]
  omega

theorem Live.moves {s t : Controller} (live : Live s) (moves : Bsc.Moves s.toBsc t.toBsc)
    (polled : t.polled = s.polled) : Live t := by
  generalize same : t.toBsc = b at moves
  have on := moves.on
  have seen := live.seen on
  cases moves with
  | send | receive =>
    have stays : t.active = true := by
      rw [same]
      exact on
    refine ⟨.inl stays, fun _ => polled.trans seen, fun off => ?_⟩
    rw [stays] at off
    cases off
  | finish on current whole =>
    refine ⟨.inr (by rw [same]), fun _ => polled.trans seen, fun _ => ⟨_, ?_, whole⟩⟩
    rw [same]
    exact current

theorem Live.goes {s : Controller} (live : Live s) {b : Bsc} (moves : Bsc.Moves s.toBsc b) :
    ∃ e t, Steady s e ∧ controller.act e s = some t := by
  obtain ⟨m, moved⟩ := moves.act
  refine ⟨.bus m, { s with toBsc := b }, ?_, Option.map_eq_some_iff.mpr ⟨b, moved, rfl⟩⟩
  cases m with
  | send | receive => trivial
  | finish => exact live.seen moves.on

theorem Live.load {s : Controller} (live : Live s) : Live (controller.load .status s).2 := by
  refine ⟨live.here, fun on => ?_, live.whole⟩
  change (s.polled || s.active) = true
  rw [show s.active = true from on, Bool.or_true]

variable {α : Type} {Q : α → Controller → Prop} {s : Controller} {J : Bsc → Prop} {N M : Nat}

theorem stable_moves (stable : Stable bsc anything J) {b b' : Bsc} (holds : J b)
    (moves : Bsc.Moves b b') : J b' := by
  obtain ⟨e, moved⟩ := moves.act
  exact stable b e b' holds trivial moved

theorem live_dwindles (stable : Stable bsc anything J) :
    Dwindles controller Steady (fun s => J s.toBsc ∧ Live s) fun s => left s.toBsc := by
  rintro s e t ⟨holds, live⟩ steady moved
  obtain ⟨moves, polled, -⟩ := steady_moves steady moved
  exact ⟨⟨stable_moves stable holds moves, live.moves moves polled⟩, left_moves moves⟩

theorem fresh_dwindles (stable : Stable bsc anything J) :
    Dwindles controller Steady (fun s => J s.toBsc ∧ s.active = true ∧ s.polled = false)
      fun s => left s.toBsc := by
  rintro s e t ⟨holds, on, fresh⟩ steady moved
  obtain ⟨moves, polled, stays⟩ := steady_moves steady moved
  exact ⟨⟨stable_moves stable holds moves, (stays fresh).trans on, polled.trans fresh⟩,
    left_moves moves⟩

theorem live_poll {ready : UInt32 → Bool} {k : UInt32 → Bus α} (stable : Stable bsc anything J)
    (few : ∀ b, J b → left b ≤ N)
    (again : ∀ s : Controller, J s.toBsc → Live s → ready s.status = false → ∃ b, Bsc.Moves s.toBsc b)
    (next : ∀ s : Controller, J s.toBsc → Live s → ready s.status = true →
      Finishes controller Steady M Q (k s.status) s) (holds : J s.toBsc) (live : Live s) :
    Finishes controller Steady (N + 1 + M) Q (.poll .status ready k) s := by
  refine finishes_poll (live_dwindles stable) (fun s here => few _ here.1) ?_ ?_ ⟨holds, live⟩
  · rintro s ⟨holds, live⟩ bad
    obtain ⟨b, moves⟩ := again s holds live bad
    exact ⟨⟨holds, live.load⟩, Nat.le_refl _, live.goes moves⟩
  · rintro s ⟨holds, live⟩ good
    exact next (controller.load .status s).2 holds live.load good

/-- The poll for the start of a transfer goes through at once. -/
theorem start_seen {k : UInt32 → Bus α} (stable : Stable bsc anything J) (few : ∀ b, J b → left b ≤ N)
    (next : ∀ s : Controller, J s.toBsc → Live s → Finishes controller Steady M Q (k s.status) s)
    (holds : J s.toBsc) (on : s.active = true) (fresh : s.polled = false) :
    Finishes controller Steady (N + 1 + M) Q (.poll .status (fun v => v &&& 1 ≠ 0) k) s := by
  refine finishes_poll (fresh_dwindles stable) (fun s here => few _ here.1) ?_ ?_ ⟨holds, on, fresh⟩
  · rintro s ⟨_, on, _⟩ bad
    have busy : s.status &&& 1 ≠ 0 := by
      rw [status_masked s rfl]
      exact (status_active s.toBsc).mpr on
    exact absurd busy (of_decide_eq_false bad)
  · rintro s ⟨holds, on, _⟩ -
    refine next (controller.load .status s).2 holds ⟨.inl on, fun _ => ?_, fun off => ?_⟩
    · change (s.polled || s.active) = true
      rw [on, Bool.or_true]
    · rw [show s.active = false from off] at on
      cases on

end Live

section Phases
variable {L : List Transfer} {addr : UInt32} {n : Nat} {given got : List UInt8} {s : Controller}

theorem Live.store {v : UInt32} (live : Live s) : Live (controller.store .fifo v s) := by
  obtain ⟨here, seen, whole⟩ := live
  change Live { s with toBsc := if s.fifo.length < 16 then _ else _ }
  split <;> exact ⟨here, seen, whole⟩

theorem Live.take (live : Live s) : Live (controller.load .fifo s).2 := by
  obtain ⟨here, seen, whole⟩ := live
  change Live { s with toBsc := (Bsc.load .fifo s.toBsc).2 }
  rw [Bsc.load]
  split <;> exact ⟨here, seen, whole⟩

theorem sending_left (b : Bsc) (sending : Sending L addr n given b) : left b ≤ n + 1 := by
  obtain ⟨sent, current, _⟩ := sending.current
  exact left_le current

theorem receiving_left (b : Bsc) (receiving : Receiving L addr n got b) : left b ≤ n + 1 := by
  obtain ⟨bytes, current, _⟩ := receiving.current
  exact left_le current

theorem sending_goes {b : Bsc} (sending : Sending L addr n given b) (short : given.length ≤ n)
    (waiting : b.fifo ≠ []) : ∃ b', Bsc.Moves b b' := by
  obtain ⟨sent, current, queue, few, ended⟩ := sending.current
  obtain ⟨x, rest, front⟩ := List.exists_cons_of_ne_nil waiting
  have length := congrArg List.length queue
  rw [List.length_append, front, List.length_cons] at length
  have on : b.active = true := by
    by_contra off
    have whole := ended (by simpa using off)
    omega
  exact ⟨_, .send on current front rfl (show sent.length < n by omega)⟩

theorem sending_ends (sending : Sending L addr n given s.toBsc) (live : Live s)
    (whole : given.length = n) (going : s.done = false) : ∃ b, Bsc.Moves s.toBsc b := by
  by_cases empty : s.fifo = []
  · obtain ⟨sent, current, queue, few, _⟩ := sending.current
    rw [empty, List.append_nil] at queue
    have on : s.active = true := by simpa [going] using live.here
    exact ⟨_, .finish on current (show n ≤ sent.length by rw [queue]; exact Nat.le_of_eq whole.symm)⟩
  · exact sending_goes sending (Nat.le_of_eq whole) empty

theorem receiving_goes (receiving : Receiving L addr n got s.toBsc) (live : Live s)
    (short : got.length < n) (empty : s.fifo = []) : ∃ b, Bsc.Moves s.toBsc b := by
  obtain ⟨bytes, current, queue, few⟩ := receiving.current
  rw [empty, List.append_nil] at queue
  subst queue
  have on : s.active = true := by
    by_contra off
    obtain ⟨t, there, whole⟩ := live.whole (by simpa using off)
    cases current.symm.trans there
    exact absurd whole (Nat.not_le.mpr short)
  exact ⟨_, .receive 0 on current rfl short (by rw [empty]; exact Nat.zero_lt_succ 15)⟩

theorem receiving_ends (receiving : Receiving L addr n got s.toBsc) (live : Live s)
    (whole : got.length = n) (going : s.done = false) : ∃ b, Bsc.Moves s.toBsc b := by
  obtain ⟨bytes, current, queue, few⟩ := receiving.current
  have length := congrArg List.length queue
  rw [List.length_append] at length
  have on : s.active = true := by simpa [going] using live.here
  exact ⟨_, .finish on current (show n ≤ bytes.length by omega)⟩

theorem sendFrom_finishes (data : List UInt8) (k i : Nat) (inside : i + k ≤ data.length)
    (short : i + k ≤ n) : ∃ M, ∀ L addr s, Sending L addr n (data.take i) s.toBsc → Live s →
      Finishes controller Steady M
        (fun _ t => Sending L addr n (data.take (i + k)) t.toBsc ∧ Live t) (sendFrom data i k) s := by
  induction k generalizing i with
  | zero =>
    refine ⟨n + 1 + 1 + 0, fun L addr s sending live => ?_⟩
    exact finishes_ret (live_dwindles sending_stable) (fun t here => sending_left _ here.1)
      (fun t here => here) ⟨sending, live⟩
  | succ k ih =>
    obtain ⟨M, rest⟩ := ih (i + 1) (by omega) (by omega)
    refine ⟨n + 1 + 1 + (n + 1 + 1 + M), fun L addr s sending live => ?_⟩
    refine live_poll sending_stable sending_left ?_ ?_ sending live
    · intro t sending _ full
      refine sending_goes sending ?_ fun empty => ?_
      · rw [List.length_take]
        omega
      · refine absurd ?_ (of_decide_eq_false full)
        rw [status_shifted t (.inl rfl), status_room, empty]
        exact Nat.zero_lt_succ 15
    · intro t sending live ready
      have room : t.fifo.length < 16 := by
        rw [← status_room, ← status_shifted t (.inl rfl)]
        exact of_decide_eq_true ready
      refine finishes_store (live_dwindles room_stable) (fun u here => sending_left _ here.1.1) ?_
        ⟨⟨sending, room⟩, live⟩
      rintro u ⟨⟨sending, room⟩, live⟩
      have next : data.take i ++ [data.getD i 0] = data.take (i + 1) := by
        have there : i < data.length := by omega
        rw [List.getD_eq_getElem?_getD, List.getElem?_eq_getElem there, Option.getD_some,
          List.take_append_getElem there]
      have stored := sending.store (b := data.getD i 0) room
      rw [next] at stored
      rw [show i + (k + 1) = i + 1 + k by omega]
      exact rest L addr _ stored live.store

theorem receiveBytes_finishes (k : Nat) : ∃ M, ∀ L addr got s, got.length + k ≤ n →
    Receiving L addr n got s.toBsc → Live s → Finishes controller Steady M
      (fun xs t => xs.length = k ∧ Receiving L addr n (got ++ xs) t.toBsc ∧ Live t) (receiveBytes k) s := by
  induction k with
  | zero =>
    refine ⟨n + 1 + 1 + 0, fun L addr got s _ receiving live => ?_⟩
    refine finishes_ret (live_dwindles receiving_stable) (fun t here => receiving_left _ here.1) ?_
      ⟨receiving, live⟩
    rintro t ⟨receiving, live⟩
    rw [List.append_nil]
    exact ⟨rfl, receiving, live⟩
  | succ k ih =>
    obtain ⟨M, rest⟩ := ih
    refine ⟨n + 1 + 1 + (n + 1 + 1 + (M + (n + 1 + 1 + 0))), fun L addr got s short receiving live => ?_⟩
    refine live_poll receiving_stable receiving_left ?_ ?_ receiving live
    · intro t receiving live none
      refine receiving_goes receiving live (by omega) ?_
      by_contra some
      refine absurd ?_ (of_decide_eq_false none)
      rw [status_shifted t (.inr rfl), status_data]
      exact some
    · intro t receiving live ready
      have some : t.fifo ≠ [] := by
        rw [← status_data, ← status_shifted t (.inr rfl)]
        exact of_decide_eq_true ready
      refine finishes_load (live_dwindles data_stable) (fun u here => receiving_left _ here.1.1) ?_
        ⟨⟨receiving, some⟩, live⟩
      rintro u ⟨⟨receiving, some⟩, live⟩
      have taken := receiving.load some
      change Finishes controller Steady _ _ (receiveBytes k >>= fun rest => pure (_ :: rest)) _
      refine finishes_bind (rest L addr _ _ ?_ taken live.take) ?_
      · rw [List.length_append, List.length_singleton]
        omega
      · rintro xs v ⟨length, receiving, live⟩
        refine finishes_ret (live_dwindles receiving_stable) (fun t here => receiving_left _ here.1) ?_
          ⟨receiving, live⟩
        rintro w ⟨receiving, live⟩
        rw [List.append_assoc] at receiving
        exact ⟨congrArg Nat.succ length, receiving, live⟩

end Phases

section Calls
variable {addr n : UInt32} {s : Controller} {r : Bool} {α : Type} {Q : α → Controller → Prop} {M : Nat}

def readied (addr n : UInt32) (s : Controller) : Controller :=
  controller.store .dlen n (controller.store .devAddr addr
    (controller.store .status (s.status ||| 0b10) s))

theorem readied_bsc : (readied addr n s).toBsc = prepared addr n s.toBsc := by
  simp only [readied, controller, Controller.store, Bsc.store, decide_eq_false (bit_set _), Bool.and_false]
  rfl

theorem prepare_finishes {L : List Transfer} {k : Unit → Bus α} (quiet : Quiet L r s.toBsc)
    (next : Finishes controller Steady M Q (k ()) (readied addr n s)) :
    Finishes controller Steady (0 + 1 + (0 + 1 + (0 + 1 + (0 + 1 + (0 + 1 + (0 + 1 + M)))))) Q
      (prepare addr n >>= k) s := by
  have off : s.active = false := quiet.off
  refine quiet_poll off ?_ (quiet_poll off ?_ (quiet_load off ?_))
  · refine decide_eq_true ?_
    by_contra busy
    rw [status_masked s rfl] at busy
    rw [(status_active s.toBsc).mp busy] at off
    cases off
  · refine decide_eq_true ?_
    rw [status_masked s rfl]
    exact (status_empty s.toBsc).mpr quiet.empty
  · rw [quiet_status off]
    exact quiet_store off (quiet_store off (quiet_store off next))

theorem undone {v : UInt32} (bad : decide (v &&& 0b10 ≠ 0) = false) (same : v = s.status) :
    s.done = false := by
  by_contra ends
  refine absurd ?_ (of_decide_eq_false bad)
  rw [same, status_masked s rfl]
  exact (status_done s.toBsc).mpr (by simpa using ends)

theorem came_to_end {v : UInt32} (good : decide (v &&& 0b10 ≠ 0) = true) (same : v = s.status) :
    s.done = true := by
  have ends := of_decide_eq_true good
  rw [same, status_masked s rfl] at ends
  exact (status_done s.toBsc).mp ends

theorem unseen {v : UInt32} (start : v &&& 0x80 ≠ 0) : (controller.store .control v s).polled = false := by
  change (s.polled && decide (v &&& 0x80 = 0)) = false
  rw [decide_eq_false start, Bool.and_false]

/-- A write from the poll for its start on. -/
theorem sent_finishes {data : List UInt8} (inside : n.toNat ≤ data.length) : ∃ N, ∀ L s,
    Sending L addr n.toNat [] s.toBsc → s.active = true → s.polled = false → Finishes controller Steady N
      (fun v t => v = 1 ∧ Quiet (L ++ [⟨false, addr, n.toNat, data.take n.toNat⟩]) false t.toBsc)
      (do
        let _ ← poll .status fun v => v &&& 1 ≠ 0
        sendFrom data 0 n.toNat
        let _ ← poll .status fun v => v &&& 0b10 ≠ 0
        pure 1 : Bus Int) s := by
  obtain ⟨M, sends⟩ := sendFrom_finishes (n := n.toNat) data n.toNat 0 (by omega) (by omega)
  refine ⟨n.toNat + 1 + 1 + (M + (n.toNat + 1 + 1 + (0 + 1 + 0))), fun L s sending on fresh => ?_⟩
  refine start_seen sending_stable sending_left ?_ sending on fresh
  intro t sending live
  change Finishes controller Steady _ _ (sendFrom data 0 n.toNat >>= fun _ => _) t
  refine finishes_bind (sends L addr t sending live) ?_
  rintro _ u ⟨sent, live⟩
  rw [Nat.zero_add] at sent
  have whole : (data.take n.toNat).length = n.toNat := List.length_take_of_le inside
  refine live_poll sending_stable sending_left ?_ ?_ sent live
  · intro v sent live bad
    exact sending_ends sent live whole (undone bad rfl)
  · intro v sent live good
    have ends := sent.quiet whole (came_to_end good rfl)
    exact quiet_ret ends.off ⟨rfl, ends⟩

theorem i2c_write_finishes {data : List UInt8} (fits : addr < 0x80) (short : n < 0x10000)
    (inside : n.toNat ≤ data.length) : ∃ N, ∀ L s, Quiet L false s.toBsc →
      Finishes controller Steady N
        (fun v t => v = 1 ∧ Quiet (L ++ [⟨false, addr, n.toNat, data.take n.toNat⟩]) false t.toBsc)
        (i2cWrite addr data n) s := by
  obtain ⟨M, rest⟩ := @sent_finishes addr n data inside
  refine ⟨0 + 1 + (0 + 1 + (0 + 1 + (0 + 1 + (0 + 1 + (0 + 1 + (0 + 1 + (0 + 1 +
    (n.toNat + 1 + 1 + (n.toNat + 1 + 1 + M))))))))), fun L s quiet => prepare_finishes quiet ?_⟩
  let p := readied addr n s
  have off : p.active = false := quiet.off
  have control : p.control = controlWord false := quiet.control
  refine quiet_load off (quiet_store off ?_)
  change Finishes controller Steady _ _ _ (controller.store .control (p.control ||| _) p)
  rw [control]
  let q := controller.store .control (controlWord false ||| ((1 : UInt32) <<< 7)) p
  have starts : q.toBsc = started false (prepared addr n s.toBsc) := by
    rw [← readied_bsc]
    exact write_starts (r := false)
  have sending : Sending L addr n.toNat [] q.toBsc := by
    rw [starts]
    exact started_sending quiet fits short
  have on : q.active = true := by rw [starts]; rfl
  refine finishes_load (fresh_dwindles sending_stable) (fun t here => sending_left _ here.1) ?_
    ⟨sending, on, unseen (by decide)⟩
  rintro t ⟨sending, on, fresh⟩
  change Finishes controller Steady _ _ (.store .control (t.control &&& ~~~0x1) _) t
  rw [sending.control]
  refine finishes_store (fresh_dwindles sending_stable) (fun t here => sending_left _ here.1) ?_
    ⟨sending, on, fresh⟩
  rintro u ⟨sending, on, fresh⟩
  have cleared : (controller.store .control (controlWord false &&& ~~~0x1) u).toBsc =
      { u.toBsc with control := controlWord false } := write_clears (s := u.toBsc) (r := false)
  refine rest L _ ?_ ?_ ?_
  · rw [cleared]
    exact ⟨rfl, sending.past, sending.current, sending.done⟩
  · rw [cleared]
    exact on
  · change (u.polled && _) = false
    rw [fresh, Bool.false_and]

theorem i2c_read_finishes (fits : addr < 0x80) (short : n < 0x10000) : ∃ N, ∀ L r s,
    Quiet L r s.toBsc → Finishes controller Steady N
      (fun v t => v.1 = 1 ∧ v.2.length = n.toNat ∧
        Quiet (L ++ [⟨true, addr, n.toNat, v.2⟩]) true t.toBsc)
      (i2cRead addr n) s := by
  let U := n.toNat + 1
  obtain ⟨M, receives⟩ := receiveBytes_finishes (n := n.toNat) n.toNat
  refine ⟨0 + 1 + (0 + 1 + (0 + 1 + (0 + 1 + (0 + 1 + (0 + 1 + (0 + 1 + (0 + 1 + (U + 1 +
    (M + (U + 1 + (0 + 1 + 0))))))))))), fun L r s quiet => prepare_finishes quiet ?_⟩
  let p := readied addr n s
  have off : p.active = false := quiet.off
  have control : p.control = controlWord r := quiet.control
  refine quiet_load off (quiet_store off ?_)
  change Finishes controller Steady _ _ _ (controller.store .control (p.control ||| _) p)
  rw [control]
  let q := controller.store .control (controlWord r ||| (((1 : UInt32) <<< 7) ||| 0x1)) p
  have starts : q.toBsc = started true (prepared addr n s.toBsc) := by
    rw [← readied_bsc]
    exact read_starts
  have receiving : Receiving L addr n.toNat [] q.toBsc := by
    rw [starts]
    exact started_receiving quiet fits short
  have on : q.active = true := by rw [starts]; rfl
  refine start_seen receiving_stable receiving_left ?_ receiving on (unseen (by cases r <;> decide))
  intro t receiving live
  change Finishes controller Steady _ _ (receiveBytes n.toNat >>= fun data => _) t
  refine finishes_bind (receives L addr [] t (by simp) receiving live) ?_
  rintro data u ⟨length, received, live⟩
  rw [List.nil_append] at received
  refine live_poll receiving_stable receiving_left ?_ ?_ received live
  · intro v received live bad
    exact receiving_ends received live length (undone bad rfl)
  · intro v received live good
    have ends := received.quiet length (came_to_end good rfl)
    exact quiet_ret ends.off ⟨rfl, length, ends⟩

end Calls

section Sessions

/-- The call, with what it returns and the bytes that it stores into the caller's buffer. -/
def Call.result : Call → Bus (Int × List UInt8)
  | .write addr data nbytes => do
    let v ← i2cWrite addr data nbytes
    pure (v, [])
  | .read addr nbytes => i2cRead addr nbytes

def results : List Call → Bus (List (Int × List UInt8))
  | [] => pure []
  | c :: calls => do
    let r ← c.result
    let rest ← results calls
    pure (r :: rest)

/-- The call has a transfer of its own, and success is that all of its bytes went over. -/
structure Reported (c : Call) (r : Int × List UInt8) (x : Transfer) : Prop where
  header : x.header = c.header
  success : r.1 = 1 ↔ x.bytes.length = x.len
  data : r.1 = 1 → x = c.transfer r.2

def Accounts : List Call → List (Int × List UInt8) → List Transfer → Prop
  | [], [], [] => True
  | c :: calls, r :: rs, x :: xs => Reported c r x ∧ Accounts calls rs xs
  | _, _, _ => False

/-- All calls come to their end, and their results are those of the transfers made for them. -/
def Reports (fine : Controller → Fault → Prop) (calls : List Call) (s : Controller) : Prop :=
  ∃ N, Finishes controller fine N (fun rs t => ∃ xs, t.log = s.log ++ xs ∧ Accounts calls rs xs)
    (i2cInit >>= fun _ => results calls) s

variable {L : List Transfer} {r : Bool} {s : Controller}

theorem Call.result_finishes (c : Call) (fits : c.Fits) : ∃ N, ∀ L r s, (r = true → c.reads = true) →
    Quiet L r s.toBsc → Finishes controller Steady N
      (fun v t => Reported c v (c.transfer v.2) ∧ Quiet (L ++ [c.transfer v.2]) c.reads t.toBsc)
      c.result s := by
  cases c with
  | write addr data n =>
    obtain ⟨N, finishes⟩ := i2c_write_finishes fits.1 fits.2.1 fits.2.2
    refine ⟨N + (0 + 1 + 0), fun L r s ordered quiet => ?_⟩
    cases r with
    | true => cases ordered rfl
    | false =>
      refine finishes_bind (finishes L s quiet) ?_
      rintro v t ⟨rfl, done⟩
      have length : (data.take n.toNat).length = n.toNat := List.length_take_of_le fits.2.2
      exact quiet_ret done.off ⟨⟨rfl, iff_of_true rfl length, fun _ => rfl⟩, done⟩
  | read addr n =>
    obtain ⟨N, finishes⟩ := i2c_read_finishes fits.1 fits.2
    refine ⟨N, fun L r s _ quiet => (finishes L r s quiet).weaken ?_⟩
    rintro v t ⟨one, length, done⟩
    exact ⟨⟨rfl, iff_of_true one length, fun _ => rfl⟩, done⟩

theorem results_finish (calls : List Call) (fits : ∀ c ∈ calls, c.Fits) : ∃ N, ∀ L r s,
    InOrder r calls → Quiet L r s.toBsc → Finishes controller Steady N
      (fun rs t => t.active = false ∧ ∃ xs, t.log = L ++ xs ∧ Accounts calls rs xs) (results calls) s := by
  induction calls with
  | nil =>
    refine ⟨0 + 1 + 0, fun L r s _ quiet => ?_⟩
    refine quiet_ret quiet.off ⟨quiet.off, [], ?_, trivial⟩
    rw [List.append_nil]
    exact quiet.log
  | cons c calls ih =>
    rw [List.forall_mem_cons] at fits
    obtain ⟨N, finishes⟩ := c.result_finishes fits.1
    obtain ⟨M, rest⟩ := ih fits.2
    refine ⟨N + (M + (0 + 1 + 0)), fun L r s ordered quiet => ?_⟩
    have reads : r = true → c.reads = true := fun set => ordered.2 set c List.mem_cons_self
    refine finishes_bind (finishes L r s reads quiet) ?_
    rintro v t ⟨reported, done⟩
    change Finishes controller Steady _ _ (results calls >>= fun rest => pure (v :: rest)) t
    refine finishes_bind (rest _ _ t ((later_inOrder reads).mp ordered) done) ?_
    rintro rs u ⟨off, xs, log, accounts⟩
    refine quiet_ret off ⟨off, c.transfer v.2 :: xs, ?_, reported, accounts⟩
    rw [log, List.append_assoc]
    rfl

theorem i2c_init_finishes (off : s.active = false) : Finishes controller Steady
    (0 + 1 + (0 + 1 + (0 + 1 + (0 + 1 + 0)))) (fun _ t => Quiet s.log false t.toBsc) i2cInit s := by
  refine quiet_store off (quiet_store off (quiet_store off (quiet_ret off ?_)))
  change Quiet s.log false (Bsc.store .status 0 (initialised s.toBsc))
  rw [init_status]
  exact initialised_quiet off

/-- Every program of calls that the controller gives no reason to complain. -/
theorem steady_reports (calls : List Call) (fits : ∀ c ∈ calls, c.Fits)
    (ordered : calls.Pairwise fun c d => c.reads → d.reads) (off : s.active = false) :
    Reports Steady calls s := by
  obtain ⟨N, finishes⟩ := results_finish calls fits
  have rest (t : Controller) (quiet : Quiet s.log false t.toBsc) :=
    (finishes s.log false t ⟨ordered, fun set => by cases set⟩ quiet).weaken fun _ _ ended => ended.2
  exact ⟨_, finishes_bind (i2c_init_finishes off) fun _ => rest⟩

def clean : Controller := ⟨atReset, false, false, false⟩

theorem one_byte_reported : Reports Steady [.write 0x68 [0x75] 1, .read 0x68 1] clean :=
  steady_reports _ (by decide) (by decide) rfl

theorem rests {s : Controller} (off : s.active = false) (e : Fault) : controller.act e s = none := by
  cases e with
  | bus m =>
    by_contra moves
    obtain ⟨t, acted⟩ := Option.ne_none_iff_exists'.mp moves
    obtain ⟨b, acts, -⟩ := Option.map_eq_some_iff.mp acted
    have on := (Bsc.act_cases acts).on
    rw [off] at on
    cases on
  | abort clkt done =>
    change (if s.active then _ else none) = none
    rw [off]
    rfl

def anyFault (_ : Controller) (_ : Fault) : Prop := True

def early : List (Event Fault) :=
  List.replicate 11 .cpu ++ [.act (.bus (.receive 0x71)), .act (.bus .finish)]

def absent : List (Event Fault) := List.replicate 16 .cpu ++ [.act (.abort false true), .cpu]

theorem faults_unreported : ¬ Reports anyFault [.read 0x68 1] clean ∧
    ¬ Reports anyFault [.write 0x68 [0x75] 1] clean := by
  have free (s : Controller) (e : Fault) : anyFault s e := trivial
  constructor
  · rintro ⟨N, finishes⟩
    have hangs : (Steps.exec (step controller) ⟨i2cInit >>= fun _ => results [.read 0x68 1], clean⟩
        early).map (fun c => (c.dev.active, waits controller c .cpu)) = some (false, true) := by
      decide +kernel
    obtain ⟨c, ran, same⟩ := Option.map_eq_some_iff.mp hangs
    obtain ⟨off, waiting⟩ := Prod.mk.inj same
    exact stuck waiting (rests off) (finishes early c (along_all free _ early) ran).2.1
  · rintro ⟨N, finishes⟩
    have returns : (Steps.exec (step controller)
        ⟨i2cInit >>= fun _ => results [.write 0x68 [0x75] 1], clean⟩ absent).map
          (fun c => (match c.code with | .ret rs => rs.map Prod.fst | _ => [],
            c.dev.log.map (·.bytes.length))) = some ([1], [0]) := by
      decide +kernel
    obtain ⟨⟨code, t⟩, ran, same⟩ := Option.map_eq_some_iff.mp returns
    obtain ⟨ones, lengths⟩ := Prod.mk.inj same
    have ends := (finishes absent _ (along_all free _ absent) ran).2.2
    cases code with
    | load | store | poll => cases ones
    | ret rs =>
      obtain ⟨xs, log, accounts⟩ := ends rs rfl
      rw [show t.log = xs from log] at lengths
      obtain ⟨v, rfl, one⟩ := List.map_eq_singleton_iff.mp ones
      obtain ⟨x, rfl, empty⟩ := List.map_eq_singleton_iff.mp lengths
      obtain ⟨header, success, -⟩ := accounts.1
      have length : x.len = 1 := congrArg (·.2.2) header
      rw [success.mp one, length] at empty
      cases empty

end Sessions

end EmbeddedOS.I2c
