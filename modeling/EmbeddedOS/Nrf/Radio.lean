import EmbeddedOS.Nrf.Driver
import EmbeddedOS.Circular.LogicAnalyzer
import EmbeddedOS.Mmio.Progress

/-! The radio under the driver: its commands over SPI, its two FIFOs and its interrupt bits, and what
happens on the air meanwhile. -/
namespace EmbeddedOS.Nrf.OnAir
open Circular Serial Mmio

def NRF_WR_REG : UInt8 := 0b00100000
def NRF_R_RX_PAYLOAD : UInt8 := 0b01100001
def NRF_W_TX_PAYLOAD : UInt8 := 0b10100000

/-- A transfer of a command that reads bytes, or of one with bytes behind it, or the pin CE. -/
inductive Port where
  | read (cmd : UInt8) (nbytes : Nat)
  | write (cmd : UInt8)
  | ce

/-- The chip; rxq has each payload with its pipe, and delivered what was acknowledged, with the
address that it went to. -/
structure Radio where
  chip : Chip
  txq : List (List UInt8)
  rxq : List (Fin 6 × List UInt8)
  rxDr : Bool
  txDs : Bool
  maxRt : Bool
  delivered : List (UInt32 × List UInt8)

def flag (b : Bool) (bit : UInt8) : UInt8 := if b then setBit bit else 0

def isAddr (reg : UInt8) : Bool := reg = NRF_RX_ADDR_P0 || reg = NRF_RX_ADDR_P1 || reg = NRF_TX_ADDR

namespace Radio

def status (s : Radio) : UInt8 :=
  flag s.rxDr RX_DR ||| flag s.txDs TX_DS ||| flag s.maxRt MAX_RT |||
    (s.rxq.head?.elim 0b111 fun p => UInt8.ofNat p.1) <<< 1 ||| flag (3 ≤ s.txq.length) 0

def fifoStatus (s : Radio) : UInt8 :=
  flag (3 ≤ s.txq.length) 5 ||| flag s.txq.isEmpty 4 ||| flag (3 ≤ s.rxq.length) 1 |||
    flag s.rxq.isEmpty 0

def get8 (s : Radio) (reg : UInt8) : UInt8 :=
  if reg = NRF_STATUS then s.status
  else if reg = NRF_FIFO_STATUS then s.fifoStatus
  else s.chip.reg reg

/-- An interrupt bit is cleared by a 1. -/
def put8 (s : Radio) (reg v : UInt8) : Radio :=
  if reg = NRF_STATUS then
    { s with
      rxDr := s.rxDr && ! bitIsset v RX_DR
      txDs := s.txDs && ! bitIsset v TX_DS
      maxRt := s.maxRt && ! bitIsset v MAX_RT }
  else { s with chip := s.chip.put8 reg v }

def load : Port → Radio → List UInt8 × Radio
  | .read cmd nbytes, s =>
    if cmd = NRF_R_RX_PAYLOAD then
      match s.rxq with
      | [] => (List.replicate nbytes 0, s)
      | p :: rest => ((p.2 ++ List.replicate nbytes 0).take nbytes, { s with rxq := rest })
    else if isAddr cmd then ((leBytes (s.chip.addr cmd)).take nbytes, s)
    else ([s.get8 cmd], s)
  | _, s => ([], s)

/-- The TX FIFO has room for three payloads of 32 bytes. -/
def store : Port → List UInt8 → Radio → Radio
  | .write cmd, bytes, s =>
    if cmd = NRF_W_TX_PAYLOAD then
      if s.txq.length < 3 then { s with txq := s.txq ++ [bytes.take 32] } else s
    else if isAddr (cmd ^^^ NRF_WR_REG) then
      { s with chip := s.chip.setAddr (cmd ^^^ NRF_WR_REG) (wordOf bytes) }
    else s.put8 (cmd ^^^ NRF_WR_REG) (bytes.headD 0)
  | .ce, bytes, s => { s with chip := { s.chip with ce := bytes ≠ [0] } }
  | _, _, s => s

/-- A packet comes for one of the pipes, or the transmission ends, with TX_DS or with MAX_RT. -/
inductive Air where
  | arrives (pipe : Fin 6) (payload : List UInt8)
  | acked
  | lost

def receives (c : Chip) (pipe : Fin 6) : Bool :=
  c.ce && bitIsset (c.reg NRF_CONFIG) PWR_UP_BIT && bitIsset (c.reg NRF_CONFIG) PRIM_RX &&
    bitIsset (c.reg NRF_EN_RXADDR) (UInt8.ofNat pipe)

def transmits (c : Chip) : Bool :=
  c.ce && bitIsset (c.reg NRF_CONFIG) PWR_UP_BIT && ! bitIsset (c.reg NRF_CONFIG) PRIM_RX

/-- An acknowledgement comes to the address of the transmission, on pipe 0. -/
def hearsAck (c : Chip) : Bool :=
  ! bitIsset (c.reg NRF_EN_AA) 0 ||
    bitIsset (c.reg NRF_EN_RXADDR) 0 && c.addr NRF_RX_ADDR_P0 = c.addr NRF_TX_ADDR

/-- After MAX_RT the payload is kept, and nothing is sent until the bit is cleared. -/
def act : Air → Radio → Option Radio
  | .arrives pipe payload, s =>
    if receives s.chip pipe && payload.length = (s.chip.reg (NRF_RX_PW_P0 + UInt8.ofNat pipe)).toNat &&
        s.rxq.length < 3 then
      some { s with rxq := s.rxq ++ [(pipe, payload)], rxDr := true }
    else none
  | .acked, s =>
    match s.txq with
    | [] => none
    | p :: rest =>
      if transmits s.chip && ! s.maxRt && hearsAck s.chip then
        some { s with
          txq := rest
          txDs := true
          delivered := s.delivered ++ [(s.chip.addr NRF_TX_ADDR, p)] }
      else none
  | .lost, s =>
    if transmits s.chip && ! s.maxRt && ! s.txq.isEmpty then some { s with maxRt := true } else none

end Radio

def radio : Device Port (List UInt8) Radio Radio.Air := ⟨Radio.load, Radio.store, Radio.act⟩

/-- How a call panics; no loop of the driver is cut off where its bound is large enough. -/
inductive Panic where
  | assert
  | cePin
  | readBack
  | recvqFull
  | maxTx
  | cutOff

abbrev Io := ExceptT Panic (Driver Port (List UInt8))

def check (c : Bool) (e : Panic) : Io Unit := if c then pure () else throw e

def nrfGet8 (reg : UInt8) : Io UInt8 := do
  let rx ← (load (.read reg 1) : Driver Port (List UInt8) _)
  pure (rx.headD 0)

def nrfPut8 (reg v : UInt8) : Io Unit := (store (.write (NRF_WR_REG ||| reg)) [v] : Driver Port (List UInt8) _)

def nrfPut8Chk (reg v : UInt8) : Io Unit := do
  nrfPut8 reg v
  let x ← nrfGet8 reg
  check (x = v) .readBack

/-- The arrays on the stack are in Transfer, with the byte that a transfer of 64 stores behind them. -/
def nrfGetn (cmd : UInt8) (nbytes : Nat) : Io (List UInt8) := do
  check (nbytes < 65) .assert
  check (0 < nbytes) .assert
  (load (.read cmd nbytes) : Driver Port (List UInt8) _)

def nrfPutn (cmd : UInt8) (bytes : List UInt8) : Io Unit := do
  check (bytes.length < 65) .assert
  check (0 < bytes.length) .assert
  (store (.write cmd) bytes : Driver Port (List UInt8) _)

def nrfBitIsset (reg bit : UInt8) : Io Bool := do
  pure (bitIsset (← nrfGet8 reg) bit)

def nrfGetAddr (reg : UInt8) (nbytes : UInt8) : Io UInt32 := do
  check (nbytes = 4 || nbytes = 3) .assert
  check (nbytes = nrfDefaultAddrNbytes) .assert
  pure (wordOf (← nrfGetn reg nbytes.toNat))

def nrfSetAddr (reg : UInt8) (addr : UInt32) (nbytes : UInt8) : Io Unit := do
  check (nbytes = nrfDefaultAddrNbytes) .assert
  check (nbytes = 4 || nbytes = 3) .assert
  nrfPutn (reg ||| NRF_WR_REG) ((leBytes addr).take nbytes.toNat)
  check ((← nrfGetAddr reg nbytes) = addr) .assert

end EmbeddedOS.Nrf.OnAir
