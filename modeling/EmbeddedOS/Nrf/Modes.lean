import EmbeddedOS.Nrf.Survival
import EmbeddedOS.Nrf.Radio

/-! The registers and the modes of a radio that moves meanwhile, as long as no transmission ends with
MAX_RT. -/
namespace EmbeddedOS.Nrf.OnAir
open Serial Mmio

def nrfIsRx : Io Bool := nrfBitIsset NRF_CONFIG PRIM_RX

def nrfIsTx : Io Bool := do pure !(← nrfIsRx)

def nrfPipeIsAcked (p : UInt8) : Io Bool := nrfBitIsset NRF_EN_AA p

def nrfPipeIsEnabled (p : UInt8) : Io Bool := nrfBitIsset NRF_EN_RXADDR p

def nrfHasMaxRtIntr : Io Bool := nrfBitIsset NRF_STATUS MAX_RT

def nrfHasTxIntr : Io Bool := nrfBitIsset NRF_STATUS TX_DS

def nrfTxIntrClr : Io Unit := nrfPut8 NRF_STATUS (setBit TX_DS)

def nrfRxIntrClr : Io Unit := nrfPut8 NRF_STATUS (setBit RX_DR)

def nrfRxFifoEmpty : Io Bool := nrfBitIsset NRF_FIFO_STATUS 0

def nrfRxHasPacket : Io Bool := do pure !(← nrfRxFifoEmpty)

def nrfTxFifoEmpty : Io Bool := nrfBitIsset NRF_FIFO_STATUS 4

def nrfOptAssert (cond : Io Bool) : Io Unit := do check (← cond) .assert

def notM (cond : Io Bool) : Io Bool := do pure !(← cond)

def configIs (v : UInt8) : Io Bool := do pure ((← nrfGet8 NRF_CONFIG) = v)

def gpioWrite (v : UInt8) : Io Unit := (store .ce [v] : Driver Port (List UInt8) _)

def ceLo (ce : UInt8) : Io Unit := do
  check (ce = 6 || ce = 5) .cePin
  gpioWrite 0

def ceHi (ce : UInt8) : Io Unit := do
  check (ce = 6 || ce = 5) .cePin
  gpioWrite 1

def nrfRxMode (n : Nic) : Io Unit := do
  ceLo n.config.cePin
  nrfPut8Chk NRF_CONFIG rxConfig
  ceHi n.config.cePin
  nrfOptAssert nrfIsRx

def nrfTxMode (n : Nic) : Io Unit := do
  ceLo n.config.cePin
  nrfPut8Chk NRF_CONFIG txConfig
  ceHi n.config.cePin
  nrfOptAssert nrfIsTx

section Air

/-- No transmission ends with MAX_RT. -/
def Heard (_ : Radio) : Radio.Air → Prop
  | .lost => False
  | _ => True

/-- The moves that the air has left: packets that find room, and payloads to be acknowledged. -/
def left (s : Radio) : Nat := (3 - s.rxq.length) + s.txq.length

/-- What the driver goes by, with the packets received left open. -/
structure At (c : Chip) (queue : List (List UInt8)) (ds : Bool) (log : List (UInt32 × List UInt8))
    (s : Radio) : Prop where
  chip : s.chip = c
  txq : s.txq = queue
  txDs : s.txDs = ds
  maxRt : s.maxRt = false
  delivered : s.delivered = log

variable {c : Chip} {queue : List (List UInt8)} {ds : Bool} {log : List (UInt32 × List UInt8)}
variable {p : List UInt8} {s t : Radio} {e : Radio.Air}

theorem heard_moves (heard : Heard s e) (moved : radio.act e s = some t) :
    s.rxq.length < 3 ∧ (∃ x, t = { s with rxq := s.rxq ++ [x], rxDr := true }) ∨
      Radio.transmits s.chip = true ∧ ∃ p rest, s.txq = p :: rest ∧
        t = { s with
          txq := rest
          txDs := true
          delivered := s.delivered ++ [(s.chip.addr NRF_TX_ADDR, p)] } := by
  cases e with
  | lost => cases heard
  | arrives pipe payload =>
    change (if _ then _ else none) = some t at moved
    split at moved
    · rename_i room
      cases moved
      simp only [Bool.and_eq_true, decide_eq_true_eq] at room
      exact .inl ⟨room.2, _, rfl⟩
    · cases moved
  | acked =>
    change Radio.act .acked s = some t at moved
    rw [Radio.act] at moved
    split at moved
    · cases moved
    · rename_i p rest front
      split at moved
      · rename_i sends
        cases moved
        simp only [Bool.and_eq_true] at sends
        exact .inr ⟨sends.1.1, p, rest, front, rfl⟩
      · cases moved

theorem at_dwindles (still : Radio.transmits c = false ∨ queue = []) :
    Dwindles radio Heard (At c queue ds log) left := by
  rintro s e t ⟨chip, txq, txDs, maxRt, delivered⟩ heard moved
  obtain ⟨room, x, rfl⟩ | ⟨sends, p, rest, front, rfl⟩ := heard_moves heard moved
  · refine ⟨⟨chip, txq, txDs, maxRt, delivered⟩, ?_⟩
    simp only [left, List.length_append, List.length_singleton]
    omega
  · cases still with
    | inl off =>
      rw [chip, off] at sends
      cases sends
    | inr empty =>
      rw [txq, empty] at front
      cases front

theorem at_left (here : At c queue ds log s) : left s ≤ 3 + queue.length := by
  rw [left, here.txq]
  omega

theorem at_held (still : Radio.transmits c = false ∨ queue = []) :
    Held radio Heard (At c queue ds log) :=
  ⟨left, 3 + queue.length, at_dwindles still, fun _ => at_left⟩

/-- The payload is on the air, or it has been acknowledged. -/
def Flying (c : Chip) (p : List UInt8) (log : List (UInt32 × List UInt8)) (s : Radio) : Prop :=
  At c [p] false log s ∨ At c [] true (log ++ [(c.addr NRF_TX_ADDR, p)]) s

theorem flying_held : Held radio Heard (Flying c p log) := by
  refine ⟨left, 4, ?_, fun s here => ?_⟩
  · rintro s e t (here | here) heard moved
    · obtain ⟨room, x, rfl⟩ | ⟨sends, p', rest, front, rfl⟩ := heard_moves heard moved
      · refine ⟨.inl ⟨here.chip, here.txq, here.txDs, here.maxRt, here.delivered⟩, ?_⟩
        simp only [left, List.length_append, List.length_singleton]
        omega
      · rw [here.txq] at front
        cases front
        refine ⟨.inr ⟨here.chip, rfl, rfl, here.maxRt, ?_⟩, ?_⟩
        · change s.delivered ++ [(s.chip.addr NRF_TX_ADDR, p)] = _
          rw [here.delivered, here.chip]
        · simp only [left, here.txq, List.length_nil, List.length_singleton]
          omega
    · obtain ⟨kept, less⟩ := at_dwindles (.inr rfl) s e t here heard moved
      exact ⟨.inr kept, less⟩
  · cases here with
    | inl here => exact at_left here
    | inr here => exact Nat.le_trans (at_left here) (by decide)

end Air

section Rules
variable {α β : Type} {P : Radio → Prop} {R : β → Radio → Prop} {Q : Except Panic α → Radio → Prop}

/-- The call comes back without a panic. -/
def Done (R : β → Radio → Prop) (r : Except Panic β) (s : Radio) : Prop := ∃ b, r = .ok b ∧ R b s

theorem completes_next {p : Io β} {k : β → Io α} (first : Completes radio Heard P p (Done R))
    (next : ∃ M, ∀ b s, R b s → Finishes radio Heard M Q (k b) s) : Completes radio Heard P (p >>= k : Io α) Q := by
  obtain ⟨M, next⟩ := next
  refine completes_try first ⟨0, ?_⟩ ⟨M, ?_⟩
  · rintro e s ⟨b, same, -⟩
    cases same
  · rintro b s ⟨b', same, post⟩
    cases same
    exact next b s post

theorem completes_seq {R : Unit → Radio → Prop} {p : Io Unit} {k : Unit → Io α} (first : Completes radio Heard P p (Done R))
    (next : Completes radio Heard (R ()) (k ()) Q) : Completes radio Heard P (p >>= k : Io α) Q := by
  obtain ⟨M, next⟩ := next
  exact completes_next first ⟨M, fun _ => next⟩

theorem completes_test {R : Bool → Radio → Prop} {p : Io Bool} {k : Bool → Io α} (first : Completes radio Heard P p (Done R))
    (next : ∀ b, Completes radio Heard (R b) (k b) Q) : Completes radio Heard P (p >>= k : Io α) Q := by
  obtain ⟨M, yes⟩ := next true
  obtain ⟨N, no⟩ := next false
  refine completes_next first ⟨max M N, fun b s here => ?_⟩
  cases b with
  | true => exact (yes s here).mono (Nat.le_max_left M N)
  | false => exact (no s here).mono (Nat.le_max_right M N)

def Plain (reg : UInt8) : Prop :=
  reg ≠ NRF_R_RX_PAYLOAD ∧ NRF_WR_REG ||| reg ≠ NRF_W_TX_PAYLOAD ∧
    (NRF_WR_REG ||| reg) ^^^ NRF_WR_REG = reg ∧ isAddr reg = false

instance (reg : UInt8) : Decidable (Plain reg) := inferInstanceAs (Decidable (_ ∧ _ ∧ _ ∧ _))

theorem load_plain {reg : UInt8} (plain : Plain reg) (s : Radio) :
    radio.load (.read reg 1) s = ([s.get8 reg], s) := by
  obtain ⟨data, -, -, addr⟩ := plain
  simp only [radio, Radio.load, if_neg data, addr, Bool.false_eq_true, if_false]

theorem store_plain {reg : UInt8} (plain : Plain reg) (v : UInt8) (s : Radio) :
    radio.store (.write (NRF_WR_REG ||| reg)) [v] s = s.put8 reg v := by
  obtain ⟨-, data, same, addr⟩ := plain
  simp only [radio, Radio.store, if_neg data, same, addr, Bool.false_eq_true, if_false, List.headD_cons]

theorem bit_completes {reg bit : UInt8} {R : Bool → Radio → Prop} (held : Held radio Heard P) (plain : Plain reg)
    (later : ∀ b, Held radio Heard (R b)) (reads : ∀ s, P s → R (bitIsset (s.get8 reg) bit) s) :
    Completes radio Heard P (nrfBitIsset reg bit) (Done R) := by
  have ends (b : Bool) : Completes radio Heard (R b) (.ret (.ok b)) (Done R) :=
    completes_ret (later b) fun s here => ⟨b, rfl, here⟩
  obtain ⟨M, yes⟩ := ends true
  obtain ⟨N, no⟩ := ends false
  refine completes_load held ⟨max M N, fun s here => ?_⟩
  rw [load_plain plain]
  have after := reads s here
  change Finishes radio Heard _ _ (.ret (Except.ok (bitIsset (s.get8 reg) bit))) s
  generalize bitIsset (s.get8 reg) bit = b at after
  cases b with
  | true => exact (yes s after).mono (Nat.le_max_left M N)
  | false => exact (no s after).mono (Nat.le_max_right M N)

theorem assert_completes {reg : UInt8} {g : UInt8 → Bool} (held : Held radio Heard P) (plain : Plain reg)
    (good : ∀ s, P s → g (s.get8 reg) = true) :
    Completes radio Heard P (nrfOptAssert do pure (g (← nrfGet8 reg))) (Done fun _ => P) := by
  have ends : Completes radio Heard P (.ret (.ok ())) (Done fun _ => P) :=
    completes_ret held fun s here => ⟨(), rfl, here⟩
  obtain ⟨M, ends⟩ := ends
  refine completes_load held ⟨M, fun s here => ?_⟩
  rw [load_plain plain]
  change Finishes radio Heard _ _ (check (g (s.get8 reg)) .assert) s
  rw [good s here]
  exact ends s here

end Rules

section Bits
variable (s : Radio)

theorem statusWord_bits : ∀ (dr ds rt full : Bool) (pipe : Fin 8),
    let v := flag dr RX_DR ||| flag ds TX_DS ||| flag rt MAX_RT ||| UInt8.ofNat pipe <<< 1 ||| flag full 0
    bitIsset v TX_DS = ds ∧ bitIsset v MAX_RT = rt := by
  decide

theorem fifoWord_bits : ∀ txFull txEmpty rxFull rxEmpty : Bool,
    let v := flag txFull 5 ||| flag txEmpty 4 ||| flag rxFull 1 ||| flag rxEmpty 0
    bitIsset v 4 = txEmpty ∧ bitIsset v 0 = rxEmpty := by
  decide

theorem status_pipe : ∃ pipe : Fin 8, s.status = flag s.rxDr RX_DR ||| flag s.txDs TX_DS |||
    flag s.maxRt MAX_RT ||| UInt8.ofNat pipe <<< 1 ||| flag (3 ≤ s.txq.length) 0 := by
  rw [Radio.status]
  cases s.rxq with
  | nil => exact ⟨7, rfl⟩
  | cons x rest => exact ⟨x.1.castLE (by decide), rfl⟩

theorem status_tx_ds : bitIsset (s.get8 NRF_STATUS) TX_DS = s.txDs := by
  obtain ⟨pipe, same⟩ := status_pipe s
  change bitIsset s.status TX_DS = s.txDs
  rw [same]
  exact (statusWord_bits ..).1

theorem status_max_rt : bitIsset (s.get8 NRF_STATUS) MAX_RT = s.maxRt := by
  obtain ⟨pipe, same⟩ := status_pipe s
  change bitIsset s.status MAX_RT = s.maxRt
  rw [same]
  exact (statusWord_bits ..).2

theorem fifo_tx_empty : bitIsset (s.get8 NRF_FIFO_STATUS) 4 = s.txq.isEmpty := (fifoWord_bits ..).1

theorem fifo_rx_empty : bitIsset (s.get8 NRF_FIFO_STATUS) 0 = s.rxq.isEmpty := (fifoWord_bits ..).2

end Bits

section Parts
variable {c : Chip} {queue : List (List UInt8)} {ds : Bool} {log : List (UInt32 × List UInt8)}

theorem At.plain {s : Radio} {reg : UInt8} (here : At c queue ds log s) (kept : isVolatile reg = false) :
    s.get8 reg = c.reg reg := by
  simp only [isVolatile, Bool.or_eq_false_iff, decide_eq_false_iff_not] at kept
  rw [Radio.get8, if_neg kept.1, if_neg kept.2, here.chip]

theorem At.put8 {s : Radio} {reg : UInt8} (v : UInt8) (here : At c queue ds log s)
    (kept : isVolatile reg = false) : At (c.put8 reg v) queue ds log (s.put8 reg v) := by
  simp only [isVolatile, Bool.or_eq_false_iff, decide_eq_false_iff_not] at kept
  rw [Radio.put8, if_neg kept.1, here.chip]
  exact ⟨rfl, here.txq, here.txDs, here.maxRt, here.delivered⟩

theorem put8Chk_completes {reg : UInt8} (v : UInt8) (plain : Plain reg) (kept : isVolatile reg = false)
    (still : Radio.transmits c = false) (still' : Radio.transmits (c.put8 reg v) = false) :
    Completes radio Heard (At c queue ds log) (nrfPut8Chk reg v)
      (Done fun _ => At (c.put8 reg v) queue ds log) := by
  have held : Held radio Heard (At (c.put8 reg v) queue ds log) := at_held (.inl still')
  have ends : Completes radio Heard (At (c.put8 reg v) queue ds log) (.ret (.ok ()))
      (Done fun _ => At (c.put8 reg v) queue ds log) := completes_ret held fun s here => ⟨(), rfl, here⟩
  obtain ⟨M, ends⟩ := ends
  refine completes_store (at_held (.inl still)) (fun s here => ?_) (completes_load held ⟨M, fun s here => ?_⟩)
  · rw [store_plain plain]
    exact here.put8 v kept
  · rw [load_plain plain]
    change Finishes radio Heard _ _ (check (s.get8 reg = v) .readBack) s
    rw [here.plain kept, put8_same c v kept, decide_eq_true rfl]
    exact ends s here

theorem ce_completes {v ce : UInt8} {P R : Radio → Prop} (pin : ce = 6 ∨ ce = 5)
    (held : Held radio Heard P) (later : Held radio Heard R)
    (stores : ∀ s, P s → R { s with chip := { s.chip with ce := decide ([v] ≠ [0]) } }) :
    Completes radio Heard P (check (ce = 6 || ce = 5) .cePin >>= fun _ => gpioWrite v : Io Unit)
      (Done fun _ => R) := by
  have legal : (decide (ce = 6) || decide (ce = 5)) = true := by simpa using pin
  rw [legal]
  exact completes_store held stores (completes_ret later fun s here => ⟨(), rfl, here⟩)

/-- CE low, the register CONFIG, CE high: how both modes begin. -/
theorem switch_completes {v ce : UInt8} {α : Type} {k : Unit → Io α} {Q : Except Panic α → Radio → Prop}
    {R : Radio → Prop} (pin : ce = 6 ∨ ce = 5) (still : Radio.transmits c = false ∨ queue = [])
    (later : Held radio Heard R) (raised : ∀ s, At (c.mode v) queue ds log s → R s)
    (next : Completes radio Heard R (k ()) Q) :
    Completes radio Heard (At c queue ds log)
      (do ceLo ce; nrfPut8Chk NRF_CONFIG v; ceHi ce; k () : Io α) Q := by
  let low : Chip := { c with ce := false }
  have off : Radio.transmits low = false := rfl
  have off' : Radio.transmits (low.put8 NRF_CONFIG v) = false := rfl
  have lowered : Completes radio Heard (At c queue ds log) (ceLo ce) (Done fun _ => At low queue ds log) := by
    refine ce_completes pin (at_held still) (at_held (.inl off)) fun s here => ?_
    exact ⟨by rw [here.chip]; rfl, here.txq, here.txDs, here.maxRt, here.delivered⟩
  have set : Completes radio Heard (At low queue ds log) (nrfPut8Chk NRF_CONFIG v)
      (Done fun _ => At (low.put8 NRF_CONFIG v) queue ds log) :=
    put8Chk_completes v (by decide) plain_config off off'
  have high : Completes radio Heard (At (low.put8 NRF_CONFIG v) queue ds log) (ceHi ce) (Done fun _ => R) := by
    refine ce_completes pin (at_held (.inl off')) later fun s here => raised _ ?_
    exact ⟨by rw [here.chip]; rfl, here.txq, here.txDs, here.maxRt, here.delivered⟩
  exact completes_seq lowered (completes_seq set (completes_seq high next))

theorem mode_config (c : Chip) (v : UInt8) : (c.mode v).reg NRF_CONFIG = v := put8_same c v plain_config

theorem Flying.chip {p : List UInt8} {s : Radio} (flying : Flying c p log s) : s.chip = c := by
  cases flying with
  | inl here => exact here.chip
  | inr here => exact here.chip

theorem txMode_completes {n : Nic} {p : List UInt8} (pin : n.config.cePin = 6 ∨ n.config.cePin = 5)
    (still : Radio.transmits c = false) :
    Completes radio Heard (At c [p] false log) (nrfTxMode n) (Done fun _ => Flying (c.mode txConfig) p log) := by
  refine switch_completes (k := fun _ => nrfOptAssert nrfIsTx) pin (.inl still) flying_held
    (fun s here => .inl here) ?_
  refine assert_completes (g := fun v => ! bitIsset v PRIM_RX) flying_held (by decide) fun s here => ?_
  change (! bitIsset (s.chip.reg NRF_CONFIG) PRIM_RX) = true
  rw [here.chip, mode_config]
  decide

theorem rxMode_completes {n : Nic} (pin : n.config.cePin = 6 ∨ n.config.cePin = 5) :
    Completes radio Heard (At c [] ds log) (nrfRxMode n)
      (Done fun _ => At (c.mode rxConfig) [] ds log) := by
  refine switch_completes (k := fun _ => nrfOptAssert nrfIsRx) pin (.inr rfl) (at_held (.inr rfl))
    (fun s here => here) ?_
  refine assert_completes (g := fun v => bitIsset v PRIM_RX) (at_held (.inr rfl)) (by decide) fun s here => ?_
  rw [here.plain plain_config, mode_config]
  decide

end Parts

end EmbeddedOS.Nrf.OnAir
