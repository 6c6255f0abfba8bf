import EmbeddedOS.Nrf.Chip

/-! nrf-driver.c: the public operations of the driver. -/
namespace EmbeddedOS.Nrf
open Circular

def enableCrc : UInt8 := setBit 3
def crcTwoByte : UInt8 := setBit 2
def pwrUp : UInt8 := setBit PWR_UP_BIT
def maskInt : UInt8 := setBit 6 ||| setBit 5 ||| setBit 4
def txConfig : UInt8 := enableCrc ||| crcTwoByte ||| pwrUp ||| maskInt
def rxConfig : UInt8 := txConfig ||| setBit PRIM_RX

def nrfDefaultChannel : UInt8 := 113
def nrfDefaultDataRate : UInt8 := setBit 3
def nrfDefaultDb : UInt8 := (0b11 : UInt8) <<< 1
def nrfDefaultRetranAttempts : UInt8 := 6
def nrfDefaultRetranDelay : Nat := 2000

structure Conf where
  spiChip : UInt8
  cePin : UInt8
  nbytes : UInt8

/-- The part of a nic that does not change once it is set up. -/
structure Nic where
  config : Conf
  rxaddr : UInt32

def gpioWrite (v : Bool) : Drv Unit := modify (Bus.onChip fun c => { c with ce := v })

def ceLo (ce : UInt8) : Drv Unit := do
  check (ce = 6 || ce = 5)
  gpioWrite false

def ceHi (ce : UInt8) : Drv Unit := do
  check (ce = 6 || ce = 5)
  gpioWrite true

def nrfOptAssert (cond : Drv Bool) : Drv Unit := do check (← cond)

def notM (cond : Drv Bool) : Drv Bool := do pure !(← cond)

def configIs (v : UInt8) : Drv Bool := do pure ((← nrfGet8 NRF_CONFIG) = v)

def nrfSpiInit (spiChip : UInt8) : Drv Unit := do
  check (spiChip = 0 || spiChip = 1)
  gpioWrite false

def cqInit : Drv Unit := modify fun b => { b with recvq := ⟨fun _ => 0, 0, 0⟩ }

def nrfInit (c : Conf) (rxaddr ackedP : UInt32) : Drv Nic := do
  nrfSpiInit c.spiChip
  cqInit
  nrfPut8Chk NRF_CONFIG 0
  nrfOptAssert (notM nrfIsPwrup)
  nrfPut8Chk NRF_EN_RXADDR 0
  if ackedP = 0 then
    nrfPut8Chk NRF_EN_AA 0
    nrfPut8Chk NRF_SETUP_RETR 0
    nrfPut8Chk NRF_EN_RXADDR (setBit 1)
    nrfOptAssert (nrfPipeIsEnabled 1)
    nrfOptAssert (notM (nrfPipeIsAcked 1))
    nrfOptAssert (notM (nrfPipeIsEnabled 0))
  else
    nrfPut8Chk NRF_EN_AA 0b11
    nrfPut8Chk NRF_EN_RXADDR 0b11
    let delay := UInt8.ofNat (nrfDefaultRetranDelay / 250 - 1)
    nrfPut8Chk NRF_SETUP_RETR (delay <<< 4 ||| nrfDefaultRetranAttempts)
    nrfOptAssert (nrfPipeIsEnabled 0)
    nrfOptAssert (nrfPipeIsEnabled 1)
    nrfOptAssert (nrfPipeIsAcked 1)
    nrfOptAssert (nrfPipeIsAcked 0)
  nrfPut8Chk NRF_RX_PW_P0 c.nbytes
  nrfSetAddr NRF_RX_ADDR_P0 rxaddr nrfDefaultAddrNbytes
  nrfPut8Chk NRF_RX_PW_P1 c.nbytes
  nrfSetAddr NRF_RX_ADDR_P1 rxaddr nrfDefaultAddrNbytes
  nrfPut8Chk NRF_SETUP_AW (nrfDefaultAddrNbytes - 2)
  nrfSetAddr NRF_TX_ADDR 0 nrfDefaultAddrNbytes
  nrfPut8Chk NRF_RX_PW_P2 0
  nrfPut8Chk NRF_RX_PW_P3 0
  nrfPut8Chk NRF_RX_PW_P4 0
  nrfPut8Chk NRF_RX_PW_P5 0
  nrfPut8Chk NRF_RF_CH nrfDefaultChannel
  nrfPut8Chk NRF_RF_SETUP (nrfDefaultDataRate ||| nrfDefaultDb)
  nrfPut8Chk NRF_STATUS ((0b111 : UInt8) <<< 1)
  nrfOptAssert nrfTxFifoEmpty
  nrfOptAssert nrfRxFifoEmpty
  nrfSetPwrupOn
  nrfPut8Chk NRF_CONFIG rxConfig
  gpioWrite true
  if ackedP = 0 then
    nrfOptAssert (configIs rxConfig)
    nrfOptAssert (notM (nrfPipeIsEnabled 0))
    nrfOptAssert (nrfPipeIsEnabled 1)
    nrfOptAssert (notM (nrfPipeIsAcked 1))
    nrfOptAssert nrfTxFifoEmpty
  else
    nrfOptAssert (configIs rxConfig)
    nrfOptAssert (nrfPipeIsEnabled 0)
    nrfOptAssert (nrfPipeIsEnabled 1)
    nrfOptAssert (nrfPipeIsAcked 0)
    nrfOptAssert (nrfPipeIsAcked 1)
    nrfOptAssert nrfTxFifoEmpty
  pure ⟨c, rxaddr⟩

def nrfRxMode (n : Nic) : Drv Unit := do
  ceLo n.config.cePin
  nrfPut8Chk NRF_CONFIG rxConfig
  ceHi n.config.cePin
  nrfOptAssert nrfIsRx

def nrfTxMode (n : Nic) : Drv Unit := do
  ceLo n.config.cePin
  nrfPut8Chk NRF_CONFIG txConfig
  ceHi n.config.cePin
  nrfOptAssert nrfIsTx

def push (buf : List UInt8) : Drv Unit := do
  match cqPushN (← get).recvq buf with
  | none => panic
  | some (q, pushed) =>
    check pushed
    modify fun b => { b with recvq := q }

def getPktsLoop (n : Nic) : Nat → UInt32 → Drv UInt32
  | 0, _ => panic
  | k + 1, res => do
    let buf ← nrfGetPayload n.config.nbytes
    push buf
    nrfRxIntrClr
    if ← nrfRxFifoEmpty then pure (res + 1) else getPktsLoop n k (res + 1)

def nrfGetPkts (n : Nic) : Drv UInt32 := do
  nrfOptAssert (configIs rxConfig)
  if !(← nrfRxHasPacket) then pure 0
  else
    let res ← getPktsLoop n ((← get).answers.length + 1) 0
    nrfOptAssert (configIs rxConfig)
    pure res

/-- `while(nrf_get_pkts(n)) ;` -/
def drain (n : Nic) : Drv Unit := do
  spin (do pure ((← nrfGetPkts n) = 0)) ((← get).answers.length + 1)

def nrfTxSendAck (n : Nic) (txaddr : UInt32) (msg : List UInt8) : Drv Nat := do
  nrfOptAssert (configIs rxConfig)
  nrfOptAssert (nrfPipeIsEnabled 0)
  nrfOptAssert (nrfPipeIsEnabled 1)
  nrfOptAssert (nrfPipeIsAcked 0)
  nrfOptAssert (nrfPipeIsAcked 1)
  nrfOptAssert nrfTxFifoEmpty
  drain n
  nrfSetAddr NRF_RX_ADDR_P0 txaddr nrfDefaultAddrNbytes
  nrfSetAddr NRF_TX_ADDR txaddr nrfDefaultAddrNbytes
  nrfPutPayload msg
  nrfTxMode n
  spin nrfTxFifoEmpty ((← get).answers.length + 1)
  if ← nrfHasMaxRtIntr then panic
  nrfTxIntrClr
  nrfRxMode n
  nrfOptAssert (notM nrfHasTxIntr)
  nrfOptAssert (configIs rxConfig)
  pure msg.length

def nrfTxSendNoack (n : Nic) (txaddr : UInt32) (msg : List UInt8) : Drv Nat := do
  nrfOptAssert (configIs rxConfig)
  nrfOptAssert (notM (nrfPipeIsEnabled 0))
  nrfOptAssert (nrfPipeIsEnabled 1)
  nrfOptAssert (notM (nrfPipeIsAcked 1))
  nrfOptAssert nrfTxFifoEmpty
  drain n
  nrfSetAddr NRF_TX_ADDR txaddr nrfDefaultAddrNbytes
  nrfPutPayload msg
  nrfTxMode n
  spin nrfTxFifoEmpty ((← get).answers.length + 1)
  nrfTxIntrClr
  nrfRxMode n
  nrfOptAssert (notM nrfHasTxIntr)
  nrfOptAssert (configIs rxConfig)
  pure msg.length

end EmbeddedOS.Nrf
