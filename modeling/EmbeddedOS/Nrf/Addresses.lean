import EmbeddedOS.Nrf.Driver
import EmbeddedOS.Steps.Run

/-! The addresses that the radio listens on when a call has come back. -/
namespace EmbeddedOS.Nrf
open Circular Steps

def Bus.heard (b : Bus) (rest : List UInt8) : Bus := { b with answers := rest }

@[simp] theorem heard_chip (b : Bus) (rest : List UInt8) : (b.heard rest).chip = b.chip := rfl

@[simp] theorem onChip_chip (f : Chip → Chip) (b : Bus) : (b.onChip f).chip = f b.chip := rfl

@[simp] theorem put8_other (c : Chip) {reg q : UInt8} (v : UInt8) (other : q ≠ reg) :
    (c.put8 reg v).reg q = c.reg q := by
  unfold Chip.put8
  split
  · rfl
  · exact Function.update_of_ne other ..

@[simp] theorem put8_addr (c : Chip) (reg v : UInt8) : (c.put8 reg v).addr = c.addr := by
  unfold Chip.put8
  split <;> rfl

@[simp] theorem put8_ce (c : Chip) (reg v : UInt8) : (c.put8 reg v).ce = c.ce := by
  unfold Chip.put8
  split <;> rfl

theorem put8_air (c : Chip) {reg : UInt8} (v : UInt8) (air : isVolatile reg = true) :
    c.put8 reg v = c := by
  simp [Chip.put8, air]

theorem put8_same (c : Chip) {reg : UInt8} (v : UInt8) (plain : isVolatile reg = false) :
    (c.put8 reg v).reg reg = v := by
  simp [Chip.put8, plain]

@[simp] theorem setAddr_reg (c : Chip) (reg : UInt8) (addr : UInt32) :
    (c.setAddr reg addr).reg = c.reg := rfl

@[simp] theorem setAddr_ce (c : Chip) (reg : UInt8) (addr : UInt32) :
    (c.setAddr reg addr).ce = c.ce := rfl

@[simp] theorem setAddr_other (c : Chip) {reg q : UInt8} (addr : UInt32) (other : q ≠ reg) :
    (c.setAddr reg addr).addr q = c.addr q := Function.update_of_ne other ..

theorem setAddr_same (c : Chip) (reg : UInt8) {addr : UInt32} (fits : addr % 2 ^ 24 = addr) :
    (c.setAddr reg addr).addr reg = addr := by
  simp [Chip.setAddr, fits]

section Rules

variable {Q : Unit → Bus → Prop} {s : Bus}

@[simp] theorem ends_panic {α : Type} {Q : α → Bus → Prop} : Ends (panic : Drv α) Q s := ends_failure

@[simp] theorem ends_check (c : Bool) : Ends (check c) Q s ↔ (c = true → Q () s) := by
  cases c <;> simp [check]

@[simp] theorem ends_answer {Q : UInt8 → Bus → Prop} :
    Ends answer Q s ↔ ∀ v rest, s.answers = v :: rest → Q v (s.heard rest) := by
  unfold answer
  rw [ends_bind, ends_get]
  cases s.answers with
  | nil => simp
  | cons v rest =>
    simp only [List.cons.injEq, and_imp, forall_eq', forall_apply_eq_imp_iff]
    exact (ends_bind _ _).trans ((ends_modify _).trans (ends_pure _))

theorem ends_get8 {Q : UInt8 → Bus → Prop} {reg : UInt8} (plain : isVolatile reg = false) :
    Ends (nrfGet8 reg) Q s ↔ Q (s.chip.reg reg) s := by
  unfold nrfGet8
  rw [plain]
  exact (ends_bind _ _).trans (ends_get.trans (ends_pure _))

theorem ends_get8_air {Q : UInt8 → Bus → Prop} {reg : UInt8} (air : isVolatile reg = true) :
    Ends (nrfGet8 reg) Q s ↔
      ∀ v rest, s.answers = v :: rest → Q v (s.heard rest) := by
  unfold nrfGet8
  rw [air]
  exact ends_answer

@[simp] theorem ends_put8 (reg v : UInt8) :
    Ends (nrfPut8 reg v) Q s ↔ Q () (s.onChip (·.put8 reg v)) := ends_modify _

@[simp] theorem ends_gpio (v : Bool) :
    Ends (gpioWrite v) Q s ↔ Q () (s.onChip fun c => { c with ce := v }) := ends_modify _

theorem ends_put8Chk {reg : UInt8} (v : UInt8) (plain : isVolatile reg = false) :
    Ends (nrfPut8Chk reg v) Q s ↔ Q () (s.onChip (·.put8 reg v)) := by
  unfold nrfPut8Chk
  rw [ends_bind, ends_put8, ends_bind, ends_get8 plain, ends_check]
  simp [plain, Bus.onChip, Chip.put8]

theorem ends_put8Chk_air {reg : UInt8} (v : UInt8) (air : isVolatile reg = true) :
    Ends (nrfPut8Chk reg v) Q s ↔
      ∀ rest, s.answers = v :: rest → Q () (s.heard rest) := by
  unfold nrfPut8Chk
  rw [ends_bind, ends_put8, ends_bind, ends_get8_air air]
  simp only [ends_check, decide_eq_true_eq, air, Bus.onChip, Chip.put8, if_true]
  constructor
  · intro ends rest same
    exact ends v rest same rfl
  · rintro ends x rest same rfl
    exact ends rest same

@[simp] theorem ends_isset {Q : Bool → Bus → Prop} (reg bit : UInt8) :
    Ends (nrfBitIsset reg bit) Q s ↔ Ends (nrfGet8 reg) (fun v t => Q (bitIsset v bit) t) s := by
  unfold nrfBitIsset
  rw [ends_bind]
  simp only [ends_pure]

@[simp] theorem ends_notM {Q : Bool → Bus → Prop} (cond : Drv Bool) :
    Ends (notM cond) Q s ↔ Ends cond (fun b t => Q (!b) t) s := by
  unfold notM
  rw [ends_bind]
  simp only [ends_pure]

@[simp] theorem ends_optAssert (cond : Drv Bool) :
    Ends (nrfOptAssert cond) Q s ↔ Ends cond (fun b t => b = true → Q () t) s := by
  unfold nrfOptAssert
  rw [ends_bind]
  simp only [ends_check]

@[simp] theorem ends_setAddr (reg : UInt8) (addr : UInt32) (nbytes : UInt8) :
    Ends (nrfSetAddr reg addr nbytes) Q s ↔ (nbytes = nrfDefaultAddrNbytes →
      addr % 2 ^ 24 = addr → Q () (s.onChip (·.setAddr reg addr))) := by
  unfold nrfSetAddr nrfGetAddr
  simp only [ends_bind, ends_check, ends_modify, ends_get, ends_pure, decide_eq_true_eq]
  constructor
  · intro ends width fits
    exact ends width width (by simpa [Bus.onChip, Chip.setAddr] using fits)
  · intro ends width _ same
    exact ends width (by simpa [Bus.onChip, Chip.setAddr] using same)

end Rules

/-- The radio of a nic that is set up for acks or not. -/
structure Tuned (acked : Bool) (rxaddr : UInt32) (c : Chip) : Prop where
  config : c.reg NRF_CONFIG = rxConfig
  enabled : c.reg NRF_EN_RXADDR = if acked then 0b11 else 0b10
  p1 : c.addr NRF_RX_ADDR_P1 = rxaddr
  ce : c.ce = true

theorem plain_config : isVolatile NRF_CONFIG = false := rfl
theorem plain_en_aa : isVolatile NRF_EN_AA = false := rfl
theorem plain_en_rxaddr : isVolatile NRF_EN_RXADDR = false := rfl
theorem plain_setup_aw : isVolatile NRF_SETUP_AW = false := rfl
theorem plain_setup_retr : isVolatile NRF_SETUP_RETR = false := rfl
theorem plain_rf_ch : isVolatile NRF_RF_CH = false := rfl
theorem plain_rf_setup : isVolatile NRF_RF_SETUP = false := rfl
theorem plain_rx_pw_p0 : isVolatile NRF_RX_PW_P0 = false := rfl
theorem plain_rx_pw_p1 : isVolatile NRF_RX_PW_P1 = false := rfl
theorem plain_rx_pw_p2 : isVolatile NRF_RX_PW_P2 = false := rfl
theorem plain_rx_pw_p3 : isVolatile NRF_RX_PW_P3 = false := rfl
theorem plain_rx_pw_p4 : isVolatile NRF_RX_PW_P4 = false := rfl
theorem plain_rx_pw_p5 : isVolatile NRF_RX_PW_P5 = false := rfl
theorem air_status : isVolatile NRF_STATUS = true := rfl
theorem air_fifo_status : isVolatile NRF_FIFO_STATUS = true := rfl

theorem init_ends (c : Conf) (rxaddr acked : UInt32) (s : Bus) :
    Ends (nrfInit c rxaddr acked) (fun n t => n = ⟨c, rxaddr⟩ ∧
      Tuned (acked ≠ 0) rxaddr t.chip ∧ t.chip.addr NRF_RX_ADDR_P0 = rxaddr) s := by
  unfold nrfInit nrfSpiInit cqInit nrfSetPwrupOn nrfBitSet nrfIsPwrup configIs nrfPipeIsEnabled
    nrfPipeIsAcked nrfTxFifoEmpty nrfRxFifoEmpty
  have second : setBit 1 = 2 := by decide
  by_cases plain : acked = 0
  all_goals
    simp only [plain, ends_bind, ends_pure, ends_check, ends_gpio, ends_modify, ends_optAssert,
      ends_notM, ends_isset, ends_setAddr, ends_get8 plain_config, ends_get8 plain_en_aa,
      ends_get8 plain_en_rxaddr, ends_get8_air air_fifo_status, ends_put8Chk_air _ air_status,
      ends_put8Chk _ plain_config, ends_put8Chk _ plain_en_aa, ends_put8Chk _ plain_en_rxaddr,
      ends_put8Chk _ plain_setup_aw, ends_put8Chk _ plain_setup_retr, ends_put8Chk _ plain_rf_ch,
      ends_put8Chk _ plain_rf_setup, ends_put8Chk _ plain_rx_pw_p0, ends_put8Chk _ plain_rx_pw_p1,
      ends_put8Chk _ plain_rx_pw_p2, ends_put8Chk _ plain_rx_pw_p3, ends_put8Chk _ plain_rx_pw_p4,
      ends_put8Chk _ plain_rx_pw_p5, if_true, if_false]
    intros
    have fits : rxaddr % 2 ^ 24 = rxaddr := by assumption
    refine ⟨trivial, ⟨?_, ?_, ?_, rfl⟩, ?_⟩
    · simp (disch := decide) only [heard_chip, onChip_chip, put8_same]
    · simp (disch := decide) only [heard_chip, onChip_chip, put8_other, setAddr_reg, put8_same]
      simp [plain, second]
    · simp (disch := decide) only [heard_chip, onChip_chip, put8_addr, setAddr_other]
      exact setAddr_same _ _ fits
    · simp (disch := decide) only [heard_chip, onChip_chip, put8_addr, setAddr_other]
      exact setAddr_same _ _ fits

section Keeping

/-- A part of the bus that neither the answers nor the queue belong to. -/
def Apart {γ : Type} (part : Bus → γ) : Prop :=
  ∀ (s : Bus) q rest, part { s with recvq := q, answers := rest } = part s

theorem chip_apart : Apart Bus.chip := fun _ _ _ => rfl

variable {γ : Type} {part : Bus → γ}

theorem isset_keeps (apart : Apart part) (reg bit : UInt8) : Keeps part (nrfBitIsset reg bit) := by
  intro s
  rw [ends_isset]
  cases plain : isVolatile reg with
  | false => rw [ends_get8 plain]
  | true =>
    rw [ends_get8_air plain]
    intro v rest _
    exact apart s s.recvq rest

theorem optAssert_keeps {cond : Drv Bool} (keeps : Keeps part cond) :
    Keeps part (nrfOptAssert cond) := by
  intro s
  rw [ends_optAssert]
  exact (keeps s).mono fun _ _ same _ => same

theorem configIs_keeps (v : UInt8) : Keeps part (configIs v) := by
  intro s
  unfold configIs
  rw [ends_bind, ends_get8 plain_config, ends_pure]

theorem spin_keeps {done : Drv Bool} (keeps : Keeps Bus.chip done) (k : Nat) :
    Keeps Bus.chip (spin done k) := by
  induction k with
  | zero =>
    intro s
    exact ends_panic
  | succ k ih =>
    apply Keeps.bind keeps
    intro b s
    cases b with
    | true => exact (ends_pure ()).mpr rfl
    | false => exact ih s

theorem getPayload_keeps (nbytes : UInt8) : Keeps Bus.chip (nrfGetPayload nbytes) := by
  intro s
  unfold nrfGetPayload
  rw [ends_bind, ends_check]
  intro _
  rw [ends_bind, ends_get]
  cases s.packets with
  | nil => exact ends_panic
  | cons buf rest =>
    simp only [ends_bind, ends_check, ends_modify, ends_pure]
    intro _
    trivial

theorem push_keeps (apart : Apart part) (buf : List UInt8) : Keeps part (push buf) := by
  intro s
  unfold push
  rw [ends_bind, ends_get]
  cases cqPushN s.recvq buf with
  | none => exact ends_panic
  | some r =>
    simp only [ends_bind, ends_check, ends_modify]
    intro _
    exact apart s r.1 s.answers

theorem intrClr_keeps (v : UInt8) : Keeps part (nrfPut8 NRF_STATUS v) := by
  intro s
  rw [ends_put8]
  rfl

theorem getPktsLoop_keeps (n : Nic) (k : Nat) (res : UInt32) :
    Keeps Bus.chip (getPktsLoop n k res) := by
  induction k generalizing res with
  | zero =>
    intro s
    exact ends_panic
  | succ k ih =>
    apply Keeps.bind (getPayload_keeps _)
    intro buf
    apply Keeps.bind (push_keeps chip_apart buf)
    intro _
    apply Keeps.bind (intrClr_keeps _)
    intro _
    apply Keeps.bind (isset_keeps chip_apart _ _)
    intro b s
    cases b with
    | true => exact (ends_pure _).mpr rfl
    | false => exact ih _ s

theorem getPkts_keeps (n : Nic) : Keeps Bus.chip (nrfGetPkts n) := by
  apply Keeps.bind (optAssert_keeps (configIs_keeps _))
  intro _
  have asks : Keeps Bus.chip nrfRxHasPacket := by
    apply Keeps.bind (isset_keeps chip_apart _ _)
    intro b s
    exact (ends_pure _).mpr rfl
  apply Keeps.bind asks
  intro b s
  cases b with
  | false => exact (ends_pure _).mpr rfl
  | true =>
    simp only [Bool.not_true, Bool.false_eq_true, if_false, ends_bind, ends_get]
    refine (getPktsLoop_keeps n _ 0 s).mono fun res t same => ?_
    have back : Keeps Bus.chip (nrfOptAssert (configIs rxConfig)) := optAssert_keeps (configIs_keeps _)
    refine (back t).mono fun _ u same' => ?_
    exact (ends_pure _).mpr (same'.trans same)

theorem drain_keeps (n : Nic) : Keeps Bus.chip (drain n) := by
  intro s
  unfold drain
  rw [ends_bind, ends_get]
  apply spin_keeps
  apply Keeps.bind (getPkts_keeps n)
  intro r t
  exact (ends_pure _).mpr rfl

end Keeping

def Chip.mode (c : Chip) (config : UInt8) : Chip := { c.put8 NRF_CONFIG config with ce := true }

theorem mode_addr (c : Chip) (config : UInt8) : (c.mode config).addr = c.addr :=
  put8_addr c NRF_CONFIG config

theorem txMode_ends (n : Nic) (s : Bus) :
    Ends (nrfTxMode n) (fun _ t => t.chip = s.chip.mode txConfig) s := by
  unfold nrfTxMode ceLo ceHi nrfIsTx nrfIsRx
  simp only [ends_bind, ends_pure, ends_check, ends_gpio, ends_optAssert, ends_isset,
    ends_get8 plain_config, ends_put8Chk _ plain_config]
  intros
  rfl

theorem rxMode_ends (n : Nic) (s : Bus) :
    Ends (nrfRxMode n) (fun _ t => t.chip = s.chip.mode rxConfig) s := by
  unfold nrfRxMode ceLo ceHi nrfIsRx
  simp only [ends_bind, ends_check, ends_gpio, ends_optAssert, ends_isset,
    ends_get8 plain_config, ends_put8Chk _ plain_config]
  intros
  rfl

theorem mode_mode (c : Chip) : (c.mode txConfig).mode rxConfig = c.mode rxConfig := by
  simp [Chip.mode, Chip.put8, plain_config]

theorem sendNoack_ends (n : Nic) (txaddr : UInt32) (msg : List UInt8) (s : Bus) :
    Ends (nrfTxSendNoack n txaddr msg)
      (fun _ t => t.chip = (s.chip.setAddr NRF_TX_ADDR txaddr).mode rxConfig) s := by
  unfold nrfTxSendNoack configIs nrfPipeIsEnabled nrfPipeIsAcked nrfTxFifoEmpty nrfHasTxIntr
    nrfPutPayload nrfTxIntrClr
  simp only [ends_bind, ends_pure, ends_check, ends_optAssert, ends_notM, ends_isset, ends_setAddr,
    ends_get8 plain_config, ends_get8 plain_en_aa, ends_get8 plain_en_rxaddr,
    ends_get8_air air_fifo_status, ends_get8_air air_status, ends_put8, ends_get]
  intros
  refine (drain_keeps n _).mono fun _ t drained _ _ _ => ?_
  refine (txMode_ends n _).mono fun _ u sending => ?_
  refine (spin_keeps (isset_keeps chip_apart _ _) _ u).mono fun _ v waited => ?_
  refine (rxMode_ends n _).mono fun _ w back _ _ _ _ _ => ?_
  rw [heard_chip, back, onChip_chip, put8_air _ _ air_status, waited, sending, mode_mode,
    onChip_chip, drained]
  rfl

theorem sendAck_ends (n : Nic) (txaddr : UInt32) (msg : List UInt8) (s : Bus) :
    Ends (nrfTxSendAck n txaddr msg) (fun _ t => bitIsset (s.chip.reg NRF_EN_RXADDR) 0 = true ∧
      txaddr % 2 ^ 24 = txaddr ∧
      t.chip = ((s.chip.setAddr NRF_RX_ADDR_P0 txaddr).setAddr NRF_TX_ADDR txaddr).mode rxConfig) s := by
  unfold nrfTxSendAck configIs nrfPipeIsEnabled nrfPipeIsAcked nrfTxFifoEmpty nrfHasTxIntr
    nrfPutPayload nrfTxIntrClr nrfHasMaxRtIntr
  simp only [ends_bind, ends_pure, ends_check, ends_optAssert, ends_isset, ends_setAddr,
    ends_get8 plain_config, ends_get8 plain_en_aa, ends_get8 plain_en_rxaddr,
    ends_get8_air air_fifo_status, ends_get8_air air_status, ends_get]
  intro _ enabled
  intros
  refine (drain_keeps n _).mono fun _ t drained _ fits _ _ _ => ?_
  refine (txMode_ends n _).mono fun _ u sending => ?_
  refine (spin_keeps (isset_keeps chip_apart _ _) _ u).mono fun _ v waited _ _ _ => ?_
  rw [ends_ite]
  refine ⟨fun _ => (ends_bind _ _).mpr ends_panic, fun _ => ?_⟩
  simp only [ends_bind, ends_pure, ends_optAssert, ends_notM, ends_isset, ends_put8,
    ends_get8 plain_config, ends_get8_air air_status]
  refine (rxMode_ends n _).mono fun _ w back _ _ _ _ _ => ⟨enabled, fits, ?_⟩
  rw [heard_chip, back, onChip_chip, put8_air _ _ air_status, heard_chip, waited, sending, mode_mode,
    onChip_chip, onChip_chip, drained]
  rfl

end EmbeddedOS.Nrf
