import EmbeddedOS.Circular.Push
import EmbeddedOS.Steps.Ends
import Mathlib.Data.UInt

/-! nrf-hw-support.c: the registers of the radio over SPI. What its status registers read as, and
the packets that it has received, are up to the air; a panic does not come back. -/
namespace EmbeddedOS.Nrf
open Circular

def NRF_CONFIG : UInt8 := 0x0
def NRF_EN_AA : UInt8 := 0x1
def NRF_EN_RXADDR : UInt8 := 0x2
def NRF_SETUP_AW : UInt8 := 0x3
def NRF_SETUP_RETR : UInt8 := 0x4
def NRF_RF_CH : UInt8 := 0x5
def NRF_RF_SETUP : UInt8 := 0x6
def NRF_STATUS : UInt8 := 0x7
def NRF_RX_ADDR_P0 : UInt8 := 0xa
def NRF_RX_ADDR_P1 : UInt8 := 0xb
def NRF_TX_ADDR : UInt8 := 0x10
def NRF_RX_PW_P0 : UInt8 := 0x11
def NRF_RX_PW_P1 : UInt8 := 0x12
def NRF_RX_PW_P2 : UInt8 := 0x13
def NRF_RX_PW_P3 : UInt8 := 0x14
def NRF_RX_PW_P4 : UInt8 := 0x15
def NRF_RX_PW_P5 : UInt8 := 0x16
def NRF_FIFO_STATUS : UInt8 := 0x17

def nrfDefaultAddrNbytes : UInt8 := 3

/-- The registers that keep what is written to them, those of an address, and the pin CE. -/
structure Chip where
  reg : UInt8 → UInt8
  addr : UInt8 → UInt32
  ce : Bool

/-- The registers that the air writes. -/
def isVolatile (reg : UInt8) : Bool := reg = NRF_STATUS || reg = NRF_FIFO_STATUS

def Chip.put8 (c : Chip) (reg v : UInt8) : Chip :=
  if isVolatile reg then c else { c with reg := Function.update c.reg reg v }

def Chip.setAddr (c : Chip) (reg : UInt8) (addr : UInt32) : Chip :=
  { c with addr := Function.update c.addr reg (addr % 2 ^ 24) }

/-- What a call works on: the chip, the queue of received bytes, and what the air has for it. -/
structure Bus where
  chip : Chip
  recvq : Cq UInt8 CQ_N
  answers : List UInt8
  packets : List (List UInt8)

abbrev Drv := StateT Bus Option

def Bus.onChip (f : Chip → Chip) (b : Bus) : Bus := { b with chip := f b.chip }

def panic {α : Type} : Drv α := failure

def check (c : Bool) : Drv Unit := if c then pure () else panic

def answer : Drv UInt8 := do
  match (← get).answers with
  | [] => panic
  | v :: rest =>
    modify fun b => { b with answers := rest }
    pure v

def nrfGet8 (reg : UInt8) : Drv UInt8 := do
  if isVolatile reg then answer else pure ((← get).chip.reg reg)

def nrfPut8 (reg v : UInt8) : Drv Unit := modify (Bus.onChip (·.put8 reg v))

def nrfPut8Chk (reg v : UInt8) : Drv Unit := do
  nrfPut8 reg v
  let x ← nrfGet8 reg
  check (x = v)

def setBit (x : UInt8) : UInt8 := 1 <<< x

def bitSet (x bit : UInt8) : UInt8 := x ||| setBit bit

def bitIsset (x bit : UInt8) : Bool := (x >>> bit) &&& 1 = 1

def nrfBitSet (reg bit : UInt8) : Drv Unit := do
  nrfPut8Chk reg (bitSet (← nrfGet8 reg) bit)

def nrfBitIsset (reg bit : UInt8) : Drv Bool := do
  pure (bitIsset (← nrfGet8 reg) bit)

def nrfGetAddr (reg nbytes : UInt8) : Drv UInt32 := do
  check (nbytes = nrfDefaultAddrNbytes)
  pure ((← get).chip.addr reg)

def nrfSetAddr (reg : UInt8) (addr : UInt32) (nbytes : UInt8) : Drv Unit := do
  check (nbytes = nrfDefaultAddrNbytes)
  modify (Bus.onChip (·.setAddr reg addr))
  check ((← nrfGetAddr reg nbytes) = addr)

def nrfPutPayload (msg : List UInt8) : Drv Unit := check (0 < msg.length ∧ msg.length < 65)

def nrfGetPayload (nbytes : UInt8) : Drv (List UInt8) := do
  check (0 < nbytes ∧ nbytes < 65)
  match (← get).packets with
  | [] => panic
  | buf :: rest =>
    check (buf.length = nbytes.toNat)
    modify fun b => { b with packets := rest }
    pure buf

/-- `while(!done) ;`, which does not come back before the answers are used up. -/
def spin (done : Drv Bool) : Nat → Drv Unit
  | 0 => panic
  | k + 1 => do
    if ← done then pure () else spin done k

def PWR_UP_BIT : UInt8 := 1
def PRIM_RX : UInt8 := 0
def TX_DS : UInt8 := 5
def RX_DR : UInt8 := 6
def MAX_RT : UInt8 := 4

def nrfIsPwrup : Drv Bool := nrfBitIsset NRF_CONFIG PWR_UP_BIT

def nrfSetPwrupOn : Drv Unit := do
  nrfBitSet NRF_CONFIG PWR_UP_BIT
  check (← nrfIsPwrup)

def nrfIsRx : Drv Bool := nrfBitIsset NRF_CONFIG PRIM_RX

def nrfIsTx : Drv Bool := do pure !(← nrfIsRx)

def nrfPipeIsAcked (p : UInt8) : Drv Bool := nrfBitIsset NRF_EN_AA p

def nrfPipeIsEnabled (p : UInt8) : Drv Bool := nrfBitIsset NRF_EN_RXADDR p

def nrfHasMaxRtIntr : Drv Bool := nrfBitIsset NRF_STATUS MAX_RT

def nrfHasTxIntr : Drv Bool := nrfBitIsset NRF_STATUS TX_DS

def nrfTxIntrClr : Drv Unit := nrfPut8 NRF_STATUS (setBit TX_DS)

def nrfRxIntrClr : Drv Unit := nrfPut8 NRF_STATUS (setBit RX_DR)

def nrfRxFifoEmpty : Drv Bool := nrfBitIsset NRF_FIFO_STATUS 0

def nrfRxHasPacket : Drv Bool := do pure !(← nrfRxFifoEmpty)

def nrfTxFifoEmpty : Drv Bool := nrfBitIsset NRF_FIFO_STATUS 4

end EmbeddedOS.Nrf
