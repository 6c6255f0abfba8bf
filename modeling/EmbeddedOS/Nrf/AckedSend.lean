import EmbeddedOS.Nrf.Fetch

/-! nrf_tx_send_ack on a radio that moves meanwhile: how it ends, as long as no transmission ends with
MAX_RT. -/
namespace EmbeddedOS.Nrf.OnAir
open Circular Serial Mmio

/-- What nrf_tx_send_ack does once it has fetched the packets. -/
def transmit (n : Nic) (txaddr : UInt32) (msg : List UInt8) : Io Nat := do
  nrfSetAddr NRF_RX_ADDR_P0 txaddr nrfDefaultAddrNbytes
  nrfSetAddr NRF_TX_ADDR txaddr nrfDefaultAddrNbytes
  nrfPutn NRF_W_TX_PAYLOAD msg
  nrfTxMode n
  let _ ← (poll (.read NRF_FIFO_STATUS 1) fun rx => bitIsset (rx.headD 0) 4 : Driver Port (List UInt8) _)
  if ← nrfHasMaxRtIntr then throw .maxTx
  nrfTxIntrClr
  nrfRxMode n
  nrfOptAssert (notM nrfHasTxIntr)
  nrfOptAssert (configIs rxConfig)
  pure msg.length

/-- The queue behind the call, with what it returns. -/
def nrfTxSendAck (fuel : Nat) (n : Nic) (q : Recvq) (txaddr : UInt32) (msg : List UInt8) :
    Io (Recvq × Nat) := do
  nrfOptAssert (configIs rxConfig)
  nrfOptAssert (nrfPipeIsEnabled 0)
  nrfOptAssert (nrfPipeIsEnabled 1)
  nrfOptAssert (nrfPipeIsAcked 0)
  nrfOptAssert (nrfPipeIsAcked 1)
  nrfOptAssert nrfTxFifoEmpty
  let q ← drain n fuel fuel q
  let res ← transmit n txaddr msg
  pure (q, res)

section Address
variable {c : Chip} {log : List (UInt32 × List UInt8)} {s : Radio}

theorem wordOf_three (u : UInt32) : wordOf ((leBytes u).take 3) = u % 2 ^ 24 := by
  change leWord u.toUInt8 (u >>> 8).toUInt8 (u >>> 16).toUInt8 0 = u % 2 ^ 24
  have mask : u % 2 ^ 24 = u &&& 0xFFFFFF := by
    rw [← UInt32.toNat_inj, UInt32.toNat_and]
    exact (Nat.and_two_pow_sub_one_eq_mod u.toNat 24).symm
  rw [mask]
  apply UInt32.eq_of_toBitVec_eq
  simp only [leWord]
  ext i hi
  interval_cases i <;> simp [-UInt32.toUInt32_toUInt8]

theorem mod_mod (u : UInt32) : u % 2 ^ 24 % 2 ^ 24 = u % 2 ^ 24 := by
  rw [← UInt32.toNat_inj]
  exact Nat.mod_mod u.toNat (2 ^ 24)

theorem setAddr_three (c : Chip) (reg : UInt8) (addr : UInt32) :
    c.setAddr reg (wordOf ((leBytes addr).take 3)) = c.setAddr reg addr := by
  rw [Chip.setAddr, wordOf_three, mod_mod]
  rfl

def Addressed (reg : UInt8) : Prop :=
  reg ≠ NRF_R_RX_PAYLOAD ∧ reg ||| NRF_WR_REG ≠ NRF_W_TX_PAYLOAD ∧
    (reg ||| NRF_WR_REG) ^^^ NRF_WR_REG = reg ∧ isAddr reg = true

instance (reg : UInt8) : Decidable (Addressed reg) := inferInstanceAs (Decidable (_ ∧ _ ∧ _ ∧ _))

/-- The address is there, or it has more than three bytes and the call panics. -/
def Stored (c : Chip) (log : List (UInt32 × List UInt8)) (reg : UInt8) (addr : UInt32)
    (r : Except Panic Unit) (s : Radio) : Prop :=
  Idle (c.setAddr reg addr) log s ∧
    (r = .ok () ∧ addr % 2 ^ 24 = addr ∨ r = .error .assert ∧ addr % 2 ^ 24 ≠ addr)

theorem nrfSetAddr_completes {reg : UInt8} {addr : UInt32} (place : Addressed reg) :
    Completes radio Heard (Idle c log) (nrfSetAddr reg addr nrfDefaultAddrNbytes) (Stored c log reg addr) := by
  obtain ⟨data, data', same, isaddr⟩ := place
  have ends (r : Except Panic Unit)
      (fits : r = .ok () ∧ addr % 2 ^ 24 = addr ∨ r = .error .assert ∧ addr % 2 ^ 24 ≠ addr) :
      Completes radio Heard (Idle (c.setAddr reg addr) log) (.ret r) (Stored c log reg addr) :=
    completes_ret idle_held fun s idle => ⟨idle, fits⟩
  have checked : Completes radio Heard (Idle (c.setAddr reg addr) log)
      (check (addr % 2 ^ 24 = addr) .assert) (Stored c log reg addr) := by
    by_cases fits : addr % 2 ^ 24 = addr
    · rw [decide_eq_true fits]
      exact ends _ (.inl ⟨rfl, fits⟩)
    · rw [decide_eq_false fits]
      exact ends _ (.inr ⟨rfl, fits⟩)
  obtain ⟨M, checked⟩ := checked
  have held : Held radio Heard (Idle (c.setAddr reg addr) log) := idle_held
  refine completes_store idle_held ?_ (completes_load held ⟨M, fun s idle => ?_⟩)
  · intro s idle
    change Idle _ log (Radio.store (.write (reg ||| NRF_WR_REG)) ((leBytes addr).take 3) s)
    simp only [Radio.store, if_neg data', same, isaddr, if_true, setAddr_three, idle.chip]
    exact ⟨rfl, idle.txq, idle.txDs, idle.maxRt, idle.delivered⟩
  · have reads : radio.load (.read reg 3) s = ((leBytes (addr % 2 ^ 24)).take 3, s) := by
      simp only [radio, Radio.load, if_neg data, isaddr, if_true, idle.chip, Chip.setAddr,
        Function.update_self]
    change Finishes radio Heard M _
      (check (wordOf (radio.load (.read reg 3) s).1 = addr) .assert) (radio.load (.read reg 3) s).2
    rw [reads, wordOf_three, mod_mod]
    exact checked s idle

end Address

section Send

/-- The radio as a nic with acks leaves it between two calls. -/
structure AckedRx (c : Chip) : Prop where
  config : c.reg NRF_CONFIG = rxConfig
  enabled0 : bitIsset (c.reg NRF_EN_RXADDR) 0 = true
  enabled1 : bitIsset (c.reg NRF_EN_RXADDR) 1 = true
  acked0 : bitIsset (c.reg NRF_EN_AA) 0 = true
  acked1 : bitIsset (c.reg NRF_EN_AA) 1 = true
  ce : c.ce = true

/-- RX mode, with an empty TX FIFO and both bits of a transmission clear. -/
structure Ready (s : Radio) : Prop where
  rx : AckedRx s.chip
  txq : s.txq = []
  txDs : s.txDs = false
  maxRt : s.maxRt = false

/-- The pins and the packets that nrf_conf_mk and the driver take. -/
structure Legal (n : Nic) : Prop where
  pin : n.config.cePin = 6 ∨ n.config.cePin = 5
  width : 0 < n.config.nbytes.toNat ∧ n.config.nbytes.toNat ≤ 32

def Sendable (txaddr : UInt32) (msg : List UInt8) : Prop :=
  txaddr % 2 ^ 24 = txaddr ∧ 0 < msg.length ∧ msg.length < 65

/-- Success is that the payload was acknowledged; a panic, for a full queue or for arguments that the
driver refuses, comes before anything is sent. -/
def Settled (log : List (UInt32 × List UInt8)) (txaddr : UInt32) (msg : List UInt8) :
    Except Panic Nat → Radio → Prop
  | .ok res, t => res = msg.length ∧ t.delivered = log ++ [(txaddr, msg.take 32)] ∧ Ready t
  | .error e, t => (e = .recvqFull ∨ e = .assert ∧ ¬ Sendable txaddr msg) ∧ t.delivered = log ∧ Ready t

variable {c : Chip} {log : List (UInt32 × List UInt8)} {txaddr : UInt32} {msg : List UInt8} {n : Nic}

theorem AckedRx.still (rx : AckedRx c) : Radio.transmits c = false := by
  rw [Radio.transmits, rx.config, rx.ce]
  decide

theorem AckedRx.setAddr (rx : AckedRx c) (reg : UInt8) (addr : UInt32) : AckedRx (c.setAddr reg addr) :=
  ⟨rx.config, rx.enabled0, rx.enabled1, rx.acked0, rx.acked1, rx.ce⟩

theorem mode_other (c : Chip) (v : UInt8) {reg : UInt8} (other : reg ≠ NRF_CONFIG) :
    (c.mode v).reg reg = c.reg reg := put8_other c v other

theorem AckedRx.mode (rx : AckedRx c) (v : UInt8) : AckedRx ((c.mode v).mode rxConfig) where
  config := mode_config _ rxConfig
  enabled0 := by rw [mode_other _ _ (by decide), mode_other _ _ (by decide), rx.enabled0]
  enabled1 := by rw [mode_other _ _ (by decide), mode_other _ _ (by decide), rx.enabled1]
  acked0 := by rw [mode_other _ _ (by decide), mode_other _ _ (by decide), rx.acked0]
  acked1 := by rw [mode_other _ _ (by decide), mode_other _ _ (by decide), rx.acked1]
  ce := rfl

theorem At.ready {s : Radio} (here : Idle c log s) (rx : AckedRx c) : Ready s :=
  ⟨by rw [here.chip]; exact rx, here.txq, here.txDs, here.maxRt⟩

theorem refused (rx : AckedRx c) (not : ¬ Sendable txaddr msg) :
    Completes radio Heard (Idle c log) (.ret (.error .assert)) (Settled log txaddr msg) :=
  completes_ret idle_held fun _ here => ⟨.inr ⟨rfl, not⟩, here.delivered, here.ready rx⟩

theorem putn_completes (still : Radio.transmits c = false) (some : 0 < msg.length) (short : msg.length < 65) :
    Completes radio Heard (Idle c log) (nrfPutn NRF_W_TX_PAYLOAD msg)
      (Done fun _ => At c [msg.take 32] false log) := by
  have held : Held radio Heard (At c [msg.take 32] false log) := at_held (.inl still)
  unfold nrfPutn
  rw [decide_eq_true some, decide_eq_true short]
  refine completes_store idle_held (fun s here => ?_) (completes_ret held fun s here => ⟨(), rfl, here⟩)
  have room : s.txq.length < 3 := by
    rw [here.txq]
    decide
  change At c _ false log (if s.txq.length < 3 then _ else _)
  rw [if_pos room]
  refine ⟨here.chip, ?_, here.txDs, here.maxRt, here.delivered⟩
  rw [here.txq]
  rfl

def aloft (c : Chip) (txaddr : UInt32) : Chip :=
  ((c.setAddr NRF_RX_ADDR_P0 txaddr).setAddr NRF_TX_ADDR txaddr).mode txConfig

theorem aloft_sends : Radio.transmits (aloft c txaddr) = true := by
  have config : (aloft c txaddr).reg NRF_CONFIG = txConfig := mode_config _ txConfig
  have ce : (aloft c txaddr).ce = true := rfl
  rw [Radio.transmits, config, ce]
  decide

theorem setAddr_at (c : Chip) (reg : UInt8) (addr : UInt32) : (c.setAddr reg addr).addr reg = addr % 2 ^ 24 := by
  simp [Chip.setAddr]

theorem aloft_addr : (aloft c txaddr).addr NRF_TX_ADDR = txaddr % 2 ^ 24 := by
  rw [aloft, mode_addr, setAddr_at]

/-- The acknowledgement comes to the address that the payload went to. -/
theorem aloft_hears (rx : AckedRx c) : Radio.hearsAck (aloft c txaddr) = true := by
  have p0 : (aloft c txaddr).addr NRF_RX_ADDR_P0 = txaddr % 2 ^ 24 := by
    rw [aloft, mode_addr, setAddr_other _ _ p0_not_tx, setAddr_at]
  have enabled : bitIsset ((aloft c txaddr).reg NRF_EN_RXADDR) 0 = true := by
    rw [aloft, mode_other _ _ (by decide)]
    exact rx.enabled0
  rw [Radio.hearsAck, p0, aloft_addr, enabled]
  simp

theorem flying_goes {p : List UInt8} {s : Radio} (rx : AckedRx c) (flying : Flying (aloft c txaddr) p log s)
    (waiting : s.txq ≠ []) : ∃ e t, Heard s e ∧ radio.act e s = some t := by
  cases flying with
  | inr gone => exact absurd gone.txq waiting
  | inl here =>
    refine ⟨.acked, { s with
      txq := []
      txDs := true
      delivered := s.delivered ++ [(s.chip.addr NRF_TX_ADDR, p)] }, trivial, ?_⟩
    change Radio.act .acked s = some _
    rw [Radio.act, here.txq]
    simp only [here.chip, here.maxRt, aloft_sends, aloft_hears rx, Bool.not_false, Bool.and_self, if_true]

theorem setAddr_done {reg : UInt8} (place : Addressed reg) (fits : txaddr % 2 ^ 24 = txaddr) :
    Completes radio Heard (Idle c log) (nrfSetAddr reg txaddr nrfDefaultAddrNbytes)
      (Done fun _ => Idle (c.setAddr reg txaddr) log) := by
  refine (nrfSetAddr_completes place).weaken ?_
  rintro r s ⟨here, ⟨done, -⟩ | ⟨-, far⟩⟩
  · exact ⟨(), done, here⟩
  · exact absurd fits far

theorem held_known {P : Radio → Prop} {b : Bool} (held : Held radio Heard P) :
    Held radio Heard fun s => b = false ∧ P s := by
  obtain ⟨v, N, dwindles, few⟩ := held
  refine ⟨v, N, ?_, fun s here => few s here.2⟩
  rintro s e t ⟨known, here⟩ heard moved
  obtain ⟨kept, less⟩ := dwindles s e t here heard moved
  exact ⟨⟨known, kept⟩, less⟩

/-- Behind the wait loop, with the bit TX_DS set. -/
theorem ended_completes (legal : Legal n) {d : Chip} (rx : AckedRx (d.mode rxConfig))
    (there : d.addr NRF_TX_ADDR = txaddr) :
    Completes radio Heard (At d [] true (log ++ [(d.addr NRF_TX_ADDR, msg.take 32)]))
      (do
        if ← nrfHasMaxRtIntr then throw .maxTx
        nrfTxIntrClr
        nrfRxMode n
        nrfOptAssert (notM nrfHasTxIntr)
        nrfOptAssert (configIs rxConfig)
        pure msg.length : Io Nat) (Settled log txaddr msg) := by
  rw [there]
  let log' := log ++ [(txaddr, msg.take 32)]
  have gone : Held radio Heard (At d [] true log') := at_held (.inr rfl)
  have home : Held radio Heard (At (d.mode rxConfig) [] false log') := at_held (.inr rfl)
  have tested : Completes radio Heard (At d [] true log') nrfHasMaxRtIntr
      (Done fun b s => b = false ∧ At d [] true log' s) := by
    refine bit_completes gone (by decide) (fun b => held_known gone) fun s here => ⟨?_, here⟩
    rw [status_max_rt, here.maxRt]
  refine completes_test tested fun b => ?_
  cases b with
  | true => exact ⟨0, fun s here => by cases here.1⟩
  | false =>
    have cleared : Completes radio Heard (fun s => false = false ∧ At d [] true log' s) nrfTxIntrClr
        (Done fun _ => At d [] false log') := by
      refine completes_store (held_known gone) (fun s here => ?_)
        (completes_ret (at_held (.inr rfl)) fun s here => ⟨(), rfl, here⟩)
      rw [store_plain (by decide)]
      refine ⟨here.2.chip, here.2.txq, Bool.and_false _, ?_, here.2.delivered⟩
      change (s.maxRt && true) = false
      rw [Bool.and_true, here.2.maxRt]
    have quiet : Completes radio Heard (At (d.mode rxConfig) [] false log')
        (nrfOptAssert (notM nrfHasTxIntr)) (Done fun _ => At (d.mode rxConfig) [] false log') := by
      refine assert_completes (g := fun v => ! bitIsset v TX_DS) home (by decide) fun s here => ?_
      rw [status_tx_ds, here.txDs]
      rfl
    have back : Completes radio Heard (At (d.mode rxConfig) [] false log')
        (nrfOptAssert (configIs rxConfig)) (Done fun _ => At (d.mode rxConfig) [] false log') := by
      refine assert_completes (g := fun v => v = rxConfig) home (by decide) fun s here => ?_
      rw [here.plain plain_config, rx.config]
      rfl
    refine completes_seq cleared (completes_seq (rxMode_completes legal.pin) (completes_seq quiet
      (completes_seq back (completes_ret home fun s here => ⟨rfl, here.delivered, here.ready rx⟩))))

/-- From the wait for an empty TX FIFO on. -/
theorem landed_completes (legal : Legal n) (rx : AckedRx c) (fits : txaddr % 2 ^ 24 = txaddr) :
    Completes radio Heard (Flying (aloft c txaddr) (msg.take 32) log)
      (do
        let _ ← (poll (.read NRF_FIFO_STATUS 1) fun rx => bitIsset (rx.headD 0) 4 : Driver Port (List UInt8) _)
        if ← nrfHasMaxRtIntr then throw .maxTx
        nrfTxIntrClr
        nrfRxMode n
        nrfOptAssert (notM nrfHasTxIntr)
        nrfOptAssert (configIs rxConfig)
        pure msg.length : Io Nat) (Settled log txaddr msg) := by
  have quiet (s : Radio) : (radio.load (.read NRF_FIFO_STATUS 1) s).2 = s := by
    rw [load_plain (by decide)]
  have reads (s : Radio) : bitIsset ((radio.load (.read NRF_FIFO_STATUS 1) s).1.headD 0) 4 = s.txq.isEmpty := by
    rw [load_plain (by decide)]
    exact fifo_tx_empty s
  have home : AckedRx ((aloft c txaddr).mode rxConfig) := ((rx.setAddr _ _).setAddr _ _).mode txConfig
  refine completes_poll flying_held (fun s _ => quiet s) (fun s flying bad => ?_)
    (fun s flying good => ?_) (ended_completes legal home (aloft_addr.trans fits))
  · rw [reads] at bad
    exact flying_goes rx flying (by simpa using bad)
  · rw [reads] at good
    cases flying with
    | inr here => exact here
    | inl here =>
      rw [here.txq] at good
      cases good

theorem transmit_completes (legal : Legal n) (rx : AckedRx c) :
    Completes radio Heard (Idle c log) (transmit n txaddr msg) (Settled log txaddr msg) := by
  by_cases fits : txaddr % 2 ^ 24 = txaddr
  · let d := (c.setAddr NRF_RX_ADDR_P0 txaddr).setAddr NRF_TX_ADDR txaddr
    have rx' : AckedRx d := (rx.setAddr _ _).setAddr _ _
    have still : Radio.transmits d = false := rx'.still
    refine completes_seq (setAddr_done (by decide) fits) (completes_seq (setAddr_done (by decide) fits) ?_)
    by_cases length : 0 < msg.length ∧ msg.length < 65
    · refine completes_seq (putn_completes still length.1 length.2) ?_
      exact completes_seq (txMode_completes legal.pin still) (landed_completes legal rx fits)
    · have stops : (nrfPutn NRF_W_TX_PAYLOAD msg : Io Unit) = Driver.ret (.error .assert) := by
        unfold nrfPutn
        by_cases short : msg.length < 65
        · have none : ¬ 0 < msg.length := fun some => length ⟨some, short⟩
          rw [decide_eq_true short, decide_eq_false none]
          rfl
        · rw [decide_eq_false short]
          rfl
      rw [stops]
      exact refused rx' fun sendable => length sendable.2
  · obtain ⟨M, stops⟩ : Completes radio Heard (Idle (c.setAddr NRF_RX_ADDR_P0 txaddr) log) _
        (Settled log txaddr msg) := refused (rx.setAddr _ _) fun sendable => fits sendable.1
    refine completes_try (nrfSetAddr_completes (by decide)) ⟨M, ?_⟩ ⟨0, ?_⟩
    · rintro e s ⟨here, ⟨done, -⟩ | ⟨same, -⟩⟩
      · cases done
      · cases same
        exact stops s here
    · rintro b s ⟨-, ⟨-, fits'⟩ | ⟨same, -⟩⟩
      · exact absurd fits' fits
      · cases same

theorem Settled.ready {r : Except Panic Nat} {t : Radio} (settled : Settled log txaddr msg r t) : Ready t := by
  cases r with
  | ok res => exact settled.2.2
  | error e => exact settled.2.2

/-- Packets that still come change nothing of it. -/
theorem Settled.later {r : Except Panic Nat} {t u : Radio} (settled : Settled log txaddr msg r t)
    (here : Idle t.chip t.delivered u) : Settled log txaddr msg r u := by
  have ready : Ready u := here.ready settled.ready.rx
  cases r with
  | ok res => exact ⟨settled.1, here.delivered.trans settled.2.1, ready⟩
  | error e => exact ⟨settled.1, here.delivered.trans settled.2.1, ready⟩

theorem settled_ret {r : Except Panic (Recvq × Nat)} {t : Radio}
    (settled : Settled log txaddr msg (r.map Prod.snd) t) :
    Finishes radio Heard (3 + 1 + 0) (fun r => Settled log txaddr msg (r.map Prod.snd)) (.ret r) t := by
  have ready := settled.ready
  refine finishes_ret (at_dwindles (.inr rfl)) (fun _ => at_left) (fun u here => settled.later here) ?_
  exact ⟨rfl, ready.txq, ready.txDs, ready.maxRt, rfl⟩

/-- From any state between two calls, with any packets waiting and coming. -/
theorem acked_send_settles {n : Nic} (legal : Legal n) {fuel : Nat} (enough : CQ_N ≤ fuel) (q : Recvq)
    (txaddr : UInt32) (msg : List UInt8) {s : Radio} (ready : Ready s) :
    ∃ N, Finishes radio Heard N (fun r => Settled s.delivered txaddr msg (r.map Prod.snd))
      (nrfTxSendAck fuel n q txaddr msg) s := by
  let c := s.chip
  let log := s.delivered
  have rx : AckedRx c := ready.rx
  have width : 0 < n.config.nbytes.toNat ∧ n.config.nbytes.toNat < 65 :=
    ⟨legal.width.1, Nat.lt_of_le_of_lt legal.width.2 (by decide)⟩
  have asserts {reg : UInt8} {g : UInt8 → Bool} (plain : Plain reg)
      (good : ∀ t, Idle c log t → g (t.get8 reg) = true) : Completes radio Heard (Idle c log)
        (nrfOptAssert do pure (g (← nrfGet8 reg))) (Done fun _ => Idle c log) :=
    assert_completes idle_held plain good
  obtain ⟨M, fetches⟩ := @drain_finishes c log n width rx.config fuel enough fuel
  obtain ⟨N, sends⟩ : Completes radio Heard (Idle c log) (transmit n txaddr msg) (Settled log txaddr msg) :=
    transmit_completes legal rx
  have rest : Completes radio Heard (Idle c log)
      (drain n fuel fuel q >>= fun q => transmit n txaddr msg >>= fun res => pure (q, res) : Io (Recvq × Nat))
      fun r => Settled log txaddr msg (r.map Prod.snd) := by
    refine ⟨M + (N + (3 + 1 + 0)), fun t idle => finishes_try (fetches q t (by omega) idle) ?_ ?_⟩
    · rintro e u ⟨idle, full⟩
      have refusal : Settled log txaddr msg (.error e) u := ⟨.inl full, idle.delivered, idle.ready rx⟩
      exact Finishes.mono (settled_ret refusal) (by omega)
    · rintro q' u ⟨idle, -⟩
      exact finishes_try (sends u idle) (fun e v settled => settled_ret settled)
        fun res v settled => settled_ret settled
  have all : Completes radio Heard (Idle c log) (nrfTxSendAck fuel n q txaddr msg)
      fun r => Settled log txaddr msg (r.map Prod.snd) := by
    refine completes_seq (asserts (g := fun v => v = rxConfig) (by decide) fun t idle => ?_)
      (completes_seq (asserts (g := fun v => bitIsset v 0) (by decide) fun t idle => ?_)
        (completes_seq (asserts (g := fun v => bitIsset v 1) (by decide) fun t idle => ?_)
          (completes_seq (asserts (g := fun v => bitIsset v 0) (by decide) fun t idle => ?_)
            (completes_seq (asserts (g := fun v => bitIsset v 1) (by decide) fun t idle => ?_)
              (completes_seq (asserts (g := fun v => bitIsset v 4) (by decide) fun t idle => ?_) rest)))))
    · rw [idle.plain plain_config, rx.config]
      rfl
    · rw [idle.plain plain_en_rxaddr, rx.enabled0]
    · rw [idle.plain plain_en_rxaddr, rx.enabled1]
    · rw [idle.plain plain_en_aa, rx.acked0]
    · rw [idle.plain plain_en_aa, rx.acked1]
    · rw [fifo_tx_empty, idle.txq]
      rfl
  obtain ⟨K, finishes⟩ := all
  exact ⟨K, finishes s ⟨rfl, ready.txq, ready.txDs, ready.maxRt, rfl⟩⟩

end Send

section OutOfRange

def listening : Radio where
  chip := {
    reg := fun reg =>
      if reg = NRF_CONFIG then rxConfig
      else if reg = NRF_EN_AA ∨ reg = NRF_EN_RXADDR then 0b11
      else if reg = NRF_RX_PW_P0 ∨ reg = NRF_RX_PW_P1 then 4
      else 0
    addr := fun _ => 0xd5d5d5
    ce := true }
  txq := []
  rxq := []
  rxDr := false
  txDs := false
  maxRt := false
  delivered := []

def nic : Nic := ⟨conf, 0xd5d5d5⟩

def emptyq : Recvq := ⟨fun _ => 0, 0, 0⟩

theorem listening_ready : Ready listening := ⟨⟨rfl, rfl, rfl, rfl, rfl, rfl⟩, rfl, rfl, rfl⟩

theorem nic_legal : Legal nic := ⟨.inl rfl, by decide⟩

theorem four_bytes_settle : ∃ N, Finishes radio Heard N
    (fun r => Settled [] 0xe5e5e5 [1, 2, 3, 4] (r.map Prod.snd))
    (nrfTxSendAck CQ_N nic emptyq 0xe5e5e5 [1, 2, 3, 4]) listening :=
  acked_send_settles nic_legal (Nat.le_refl CQ_N) emptyq 0xe5e5e5 [1, 2, 3, 4] listening_ready

def anyAir (_ : Radio) (_ : Radio.Air) : Prop := True

def unheard : List (Event Radio.Air) := List.replicate 18 .cpu ++ [.act .lost]

/-- After MAX_RT, out of RX mode, nothing happens on the air. -/
theorem deaf {s : Radio} (given_up : s.maxRt = true) (tx : bitIsset (s.chip.reg NRF_CONFIG) PRIM_RX = false)
    (e : Radio.Air) : radio.act e s = none := by
  cases e with
  | arrives pipe payload =>
    change (if _ then _ else none) = none
    rw [Radio.receives, tx]
    simp
  | acked =>
    change Radio.act .acked s = none
    rw [Radio.act, given_up]
    split <;> simp
  | lost =>
    change (if _ then _ else none) = none
    rw [given_up]
    simp

theorem out_of_range_hangs : ¬ ∀ (n : Nic) (fuel : Nat) (q : Recvq) (txaddr : UInt32) (msg : List UInt8)
    (s : Radio), Legal n → CQ_N ≤ fuel → Ready s → ∃ N, Finishes radio anyAir N
      (fun r => Settled s.delivered txaddr msg (r.map Prod.snd)) (nrfTxSendAck fuel n q txaddr msg) s := by
  intro always
  obtain ⟨N, finishes⟩ := always nic CQ_N emptyq 0xe5e5e5 [1, 2, 3, 4] listening nic_legal (Nat.le_refl CQ_N)
    listening_ready
  have hangs : (Steps.exec (step radio)
      ⟨nrfTxSendAck CQ_N nic emptyq 0xe5e5e5 [1, 2, 3, 4], listening⟩ unheard).map
        (fun c => (waits radio c .cpu, c.dev.maxRt, bitIsset (c.dev.chip.reg NRF_CONFIG) PRIM_RX)) =
      some (true, true, false) := by
    decide +kernel
  obtain ⟨c, ran, same⟩ := Option.map_eq_some_iff.mp hangs
  obtain ⟨waiting, rest⟩ := Prod.mk.inj same
  obtain ⟨given_up, tx⟩ := Prod.mk.inj rest
  exact stuck waiting (deaf given_up tx) (finishes unheard c (along_all (fun _ _ => trivial) _ unheard) ran).2.1

end OutOfRange

end EmbeddedOS.Nrf.OnAir
