import EmbeddedOS.Nrf.Addresses

/-! Whether the radio listens on its own address alone, after any calls with any outcomes. -/
namespace EmbeddedOS.Nrf
open Circular Steps

structure World where
  chip : Chip
  recvq : Cq UInt8 CQ_N
  nic : Option Nic

inductive Call where
  | init (c : Conf) (rxaddr ackedP : UInt32)
  | txSendAck (txaddr : UInt32) (msg : List UInt8)
  | txSendNoack (txaddr : UInt32) (msg : List UInt8)
  | getPkts

/-- A call with what its status registers and its packets will be. -/
structure Happens where
  call : Call
  answers : List UInt8
  packets : List (List UInt8)

def World.bus (w : World) (h : Happens) : Bus := ⟨w.chip, w.recvq, h.answers, h.packets⟩

/-- A call of the nic that comes back. -/
def World.ask {α : Type} (w : World) (h : Happens) (p : Nic → Drv α) : Option World :=
  w.nic.bind fun n => ((p n).run (w.bus h)).map fun r => ⟨r.2.chip, r.2.recvq, some n⟩

def perform (w : World) (h : Happens) : Option World :=
  match h.call with
  | .init c rxaddr ackedP =>
    ((nrfInit c rxaddr ackedP).run (w.bus h)).map fun r => ⟨r.2.chip, r.2.recvq, some r.1⟩
  | .txSendAck txaddr msg => w.ask h fun n => nrfTxSendAck n txaddr msg
  | .txSendNoack txaddr msg => w.ask h fun n => nrfTxSendNoack n txaddr msg
  | .getPkts => w.ask h nrfGetPkts

/-- The address of a pipe; from the third on they have a last byte of their own. -/
def pipeAddr (c : Chip) (p : Fin 6) : UInt32 :=
  if p = 0 then c.addr NRF_RX_ADDR_P0
  else if p = 1 then c.addr NRF_RX_ADDR_P1
  else c.addr NRF_RX_ADDR_P1 / 256 * 256 + (c.reg (NRF_RX_ADDR_P0 + UInt8.ofNat p)).toUInt32

def Listens (c : Chip) (a : UInt32) : Prop :=
  ∃ p : Fin 6, bitIsset (c.reg NRF_EN_RXADDR) (UInt8.ofNat p) = true ∧ pipeAddr c p = a

def InRx (c : Chip) : Prop :=
  c.ce = true ∧ bitIsset (c.reg NRF_CONFIG) PWR_UP_BIT = true ∧
    bitIsset (c.reg NRF_CONFIG) PRIM_RX = true

/-- The radio in RX mode listens on the nic's own address and no other. -/
def OwnOnly (w : World) : Prop :=
  ∀ n, w.nic = some n → InRx w.chip → ∀ a, Listens w.chip a ↔ a = n.rxaddr

/-- Every send with acks goes to the address of the nic itself. -/
def Homebound : Option UInt32 → List Happens → Prop
  | _, [] => True
  | own, h :: rest =>
    match h.call with
    | .init _ rxaddr _ => Homebound (some rxaddr) rest
    | .txSendAck txaddr _ => own = some txaddr ∧ Homebound own rest
    | _ => Homebound own rest

theorem listens_two {c : Chip} (enabled : c.reg NRF_EN_RXADDR = 0b11) (a : UInt32) :
    Listens c a ↔ c.addr NRF_RX_ADDR_P0 = a ∨ c.addr NRF_RX_ADDR_P1 = a := by
  have bits : ∀ p : Fin 6, bitIsset 0b11 (UInt8.ofNat p) = true → p = 0 ∨ p = 1 := by decide
  unfold Listens
  rw [enabled]
  constructor
  · rintro ⟨p, on, same⟩
    cases bits p on with
    | inl zero =>
      rw [zero] at same
      exact Or.inl same
    | inr one =>
      rw [one] at same
      exact Or.inr same
  · intro either
    cases either with
    | inl same => exact ⟨0, by decide, same⟩
    | inr same => exact ⟨1, by decide, same⟩

theorem listens_one {c : Chip} (enabled : c.reg NRF_EN_RXADDR = 0b10) (a : UInt32) :
    Listens c a ↔ c.addr NRF_RX_ADDR_P1 = a := by
  have bits : ∀ p : Fin 6, bitIsset 0b10 (UInt8.ofNat p) = true → p = 1 := by decide
  unfold Listens
  rw [enabled]
  constructor
  · rintro ⟨p, on, same⟩
    rw [bits p on] at same
    exact same
  · intro same
    exact ⟨1, by decide, same⟩

/-- The radio is set up for the nic, and pipe 0 has its address if it is in use. -/
structure AtHome (w : World) (n : Nic) : Prop where
  tuned : ∃ acked, Tuned acked n.rxaddr w.chip
  p0 : bitIsset (w.chip.reg NRF_EN_RXADDR) 0 = true → w.chip.addr NRF_RX_ADDR_P0 = n.rxaddr

theorem Tuned.enabled_cases {acked : Bool} {rxaddr : UInt32} {c : Chip} (tuned : Tuned acked rxaddr c) :
    c.reg NRF_EN_RXADDR = 0b11 ∨ c.reg NRF_EN_RXADDR = 0b10 := by
  have enabled := tuned.enabled
  cases acked with
  | true => exact Or.inl enabled
  | false => exact Or.inr enabled

theorem AtHome.own {w : World} (home : ∀ n, w.nic = some n → AtHome w n) : OwnOnly w := by
  intro n here _ a
  obtain ⟨⟨acked, tuned⟩, p0⟩ := home n here
  cases tuned.enabled_cases with
  | inl both =>
    rw [listens_two both, p0 (by rw [both]; decide), tuned.p1, or_self, eq_comm]
  | inr one => rw [listens_one one, tuned.p1, eq_comm]

theorem Tuned.inRx {acked : Bool} {rxaddr : UInt32} {c : Chip} (tuned : Tuned acked rxaddr c) :
    InRx c := by
  refine ⟨tuned.ce, ?_, ?_⟩ <;>
  · rw [tuned.config]
    decide

theorem Tuned.mode {acked : Bool} {rxaddr : UInt32} {c d : Chip} (tuned : Tuned acked rxaddr c)
    (reg : d.reg = c.reg) (p1 : d.addr NRF_RX_ADDR_P1 = c.addr NRF_RX_ADDR_P1) :
    Tuned acked rxaddr (d.mode rxConfig) where
  config := put8_same d rxConfig plain_config
  enabled := by
    have kept := put8_other d rxConfig (show NRF_EN_RXADDR ≠ NRF_CONFIG by decide)
    exact kept.trans ((congrFun reg _).trans tuned.enabled)
  p1 := (congrFun (mode_addr d rxConfig) _).trans (p1.trans tuned.p1)
  ce := rfl

theorem p0_not_tx : NRF_RX_ADDR_P0 ≠ NRF_TX_ADDR := by decide

theorem p1_not_tx : NRF_RX_ADDR_P1 ≠ NRF_TX_ADDR := by decide

theorem p1_not_p0 : NRF_RX_ADDR_P1 ≠ NRF_RX_ADDR_P0 := by decide

theorem setup {w v : World} {h : Happens} {c : Conf} {rxaddr acked : UInt32}
    (call : h.call = .init c rxaddr acked) (ran : perform w h = some v) :
    v.nic = some ⟨c, rxaddr⟩ ∧ AtHome v ⟨c, rxaddr⟩ := by
  simp only [perform, call] at ran
  obtain ⟨⟨n, b⟩, back, rfl⟩ := Option.map_eq_some_iff.mp ran
  obtain ⟨rfl, tuned, p0⟩ := init_ends c rxaddr acked (w.bus h) n b back
  exact ⟨rfl, ⟨_, tuned⟩, fun _ => p0⟩

theorem sent_noack {w v : World} {h : Happens} {txaddr : UInt32} {msg : List UInt8}
    (call : h.call = .txSendNoack txaddr msg) (ran : perform w h = some v)
    (home : ∀ n, w.nic = some n → AtHome w n) :
    v.nic = w.nic ∧ ∀ n, v.nic = some n → AtHome v n := by
  simp only [perform, call, World.ask] at ran
  obtain ⟨n, here, asked⟩ := Option.bind_eq_some_iff.mp ran
  obtain ⟨⟨r, b⟩, back, rfl⟩ := Option.map_eq_some_iff.mp asked
  have chip : b.chip = _ := sendNoack_ends n txaddr msg (w.bus h) r b back
  obtain ⟨⟨acked, tuned⟩, p0⟩ := home n here
  refine ⟨here.symm, ?_⟩
  intro n' same
  cases same
  have tuned' : Tuned acked n.rxaddr b.chip := by
    rw [chip]
    exact tuned.mode rfl (setAddr_other w.chip txaddr p1_not_tx)
  refine ⟨⟨acked, tuned'⟩, fun on => ?_⟩
  have before := p0 (by rw [tuned.enabled, ← tuned'.enabled]; exact on)
  rw [← before, chip]
  exact (congrFun (mode_addr _ _) _).trans (setAddr_other w.chip txaddr p0_not_tx)

theorem pkts_gotten {w v : World} {h : Happens} (call : h.call = .getPkts)
    (ran : perform w h = some v) (home : ∀ n, w.nic = some n → AtHome w n) :
    v.nic = w.nic ∧ ∀ n, v.nic = some n → AtHome v n := by
  simp only [perform, call, World.ask] at ran
  obtain ⟨n, here, asked⟩ := Option.bind_eq_some_iff.mp ran
  obtain ⟨⟨r, b⟩, back, rfl⟩ := Option.map_eq_some_iff.mp asked
  have chip : b.chip = w.chip := getPkts_keeps n (w.bus h) r b back
  refine ⟨here.symm, ?_⟩
  intro n' same
  cases same
  obtain ⟨tuned, p0⟩ := home n here
  exact ⟨by rw [chip]; exact tuned, by rw [chip]; exact p0⟩

theorem sent_ack {w v : World} {h : Happens} {txaddr : UInt32} {msg : List UInt8}
    (call : h.call = .txSendAck txaddr msg) (ran : perform w h = some v)
    (home : ∀ n, w.nic = some n → AtHome w n) :
    ∃ n, w.nic = some n ∧ v.nic = some n ∧ Tuned true n.rxaddr v.chip ∧
      v.chip.addr NRF_RX_ADDR_P0 = txaddr := by
  simp only [perform, call, World.ask] at ran
  obtain ⟨n, here, asked⟩ := Option.bind_eq_some_iff.mp ran
  obtain ⟨⟨r, b⟩, back, rfl⟩ := Option.map_eq_some_iff.mp asked
  obtain ⟨on, fits, chip⟩ := sendAck_ends n txaddr msg (w.bus h) r b back
  obtain ⟨⟨acked, tuned⟩, -⟩ := home n here
  have yes : acked = true := by
    cases acked with
    | true => rfl
    | false =>
      have off : bitIsset (w.chip.reg NRF_EN_RXADDR) 0 = true := on
      rw [tuned.enabled] at off
      exact absurd off (by decide)
  subst yes
  refine ⟨n, here, rfl, ?_, ?_⟩
  · change Tuned true n.rxaddr b.chip
    rw [chip]
    exact tuned.mode rfl ((setAddr_other _ txaddr p1_not_tx).trans
      (setAddr_other w.chip txaddr p1_not_p0))
  · change b.chip.addr NRF_RX_ADDR_P0 = txaddr
    rw [chip]
    exact (congrFun (mode_addr _ _) _).trans ((setAddr_other _ txaddr p0_not_tx).trans
      (setAddr_same w.chip _ fits))

theorem survival {w v : World} {hs : List Happens} (home : ∀ n, w.nic = some n → AtHome w n)
    (ran : exec perform w hs = some v) :
    (∀ k u, exec perform w (hs.take k) = some u → OwnOnly u) ↔ Homebound (w.nic.map Nic.rxaddr) hs := by
  induction hs generalizing w with
  | nil =>
    constructor
    · intro _
      trivial
    · intro _ k u same
      simp only [List.take_nil] at same
      cases same
      exact AtHome.own home
  | cons h hs ih =>
    obtain ⟨mid, one, later⟩ := Option.bind_eq_some_iff.mp ran
    rw [forall_takes one, and_iff_right (AtHome.own home)]
    cases call : h.call with
    | init c rxaddr acked =>
      obtain ⟨nic, home'⟩ := setup call one
      rw [ih (fun n here => by rw [nic] at here; cases here; exact home') later, nic]
      simp only [Homebound, call, Option.map_some]
    | txSendNoack txaddr msg =>
      obtain ⟨nic, home'⟩ := sent_noack call one home
      rw [ih home' later, nic]
      simp only [Homebound, call]
    | getPkts =>
      obtain ⟨nic, home'⟩ := pkts_gotten call one home
      rw [ih home' later, nic]
      simp only [Homebound, call]
    | txSendAck txaddr msg =>
      obtain ⟨n, before, nic, tuned, p0⟩ := sent_ack call one home
      simp only [Homebound, call, before, Option.map_some, Option.some.injEq]
      by_cases own : n.rxaddr = txaddr
      · have home' : ∀ n', mid.nic = some n' → AtHome mid n' := by
          intro n' here
          rw [nic] at here
          cases here
          exact ⟨⟨true, tuned⟩, fun _ => p0.trans own.symm⟩
        rw [ih home' later, nic]
        simp [own]
      · constructor
        · intro all
          have heard := (all 0 mid rfl n nic tuned.inRx txaddr).mp
            ((listens_two tuned.enabled txaddr).mpr (Or.inl p0))
          exact absurd heard.symm own
        · rintro ⟨same, -⟩
          exact absurd same own

/-- At every return of a run from power-up the radio listens on the nic's own address alone, just if
no send with acks goes to another. -/
theorem addresses_survive_iff {w v : World} {hs : List Happens} (fresh : w.nic = none)
    (ran : exec perform w hs = some v) :
    (∀ k u, exec perform w (hs.take k) = some u → OwnOnly u) ↔ Homebound none hs := by
  have home : ∀ n, w.nic = some n → AtHome w n := by
    intro n here
    rw [fresh] at here
    cases here
  have all := survival home ran
  rwa [fresh] at all

def powerUp : World := ⟨⟨fun _ => 0, fun _ => 0, false⟩, ⟨fun _ => 0, 0, 0⟩, none⟩

def conf : Conf := ⟨0, 6, 4⟩

def unacked : List Happens :=
  [⟨.init conf 0xd5d5d5 0, [0x0e, 0x11, 0x11, 0x11], []⟩,
    ⟨.txSendNoack 0xe5e5e5 [1, 2, 3, 4], [0x11, 0x11, 0x01, 0x11, 0x0e], []⟩,
    ⟨.txSendNoack 0xe5e5e5 [5, 6, 7, 8], [0x11, 0x11, 0x01, 0x11, 0x0e], []⟩,
    ⟨.getPkts, [0x10, 0x11], [[1, 2, 3, 4]]⟩]

theorem unacked_survives : ∃ v, exec perform powerUp unacked = some v ∧ OwnOnly v := by
  have comes : (exec perform powerUp unacked).isSome = true := by decide +kernel
  obtain ⟨v, ran⟩ := Option.isSome_iff_exists.mp comes
  have home : Homebound none unacked := trivial
  exact ⟨v, ran, (addresses_survive_iff rfl ran).mpr home 4 v ran⟩

def acked : List Happens :=
  [⟨.init conf 0xd5d5d5 1, [0x0e, 0x11, 0x11, 0x11], []⟩,
    ⟨.txSendAck 0xe5e5e5 [1, 2, 3, 4], [0x11, 0x11, 0x01, 0x11, 0x2e, 0x0e], []⟩]

theorem acked_send_stays :
    ¬ ∀ (w v : World) (hs : List Happens), w.nic = none → exec perform w hs = some v →
      OwnOnly v := by
  intro always
  have comes : (exec perform powerUp acked).isSome = true := by decide +kernel
  obtain ⟨v, ran⟩ := Option.isSome_iff_exists.mp comes
  have home : ∀ n, powerUp.nic = some n → AtHome powerUp n := by
    intro n here
    cases here
  have bound : Homebound none acked := (survival home ran).mp fun k u => always powerUp u _ rfl
  exact absurd bound.1 (by decide)

end EmbeddedOS.Nrf
