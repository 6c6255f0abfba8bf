import EmbeddedOS.Bootloader.Defs
import EmbeddedOS.Serial.Word

/-! The pi side of the bootloader: get-code.h and the driver in main.c.
A register reading is a 32-bit word. The memory of the pi is all of its bytes,
with the places that PUT8 has written to, oldest first. -/
namespace EmbeddedOS.Bootloader
open Serial

structure PiMem where
  bytes : UInt32 → UInt8
  stores : List UInt32

def PiMem.put (m : PiMem) (addr : UInt32) (x : UInt8) : PiMem :=
  ⟨fun a => if a = addr then x else m.bytes a, m.stores ++ [addr]⟩

/-- The n bytes from addr on, as a pointer that wraps around sees them. -/
def PiMem.range (m : PiMem) (addr n : UInt32) : List UInt8 :=
  (List.range n.toNat).map fun i => m.bytes (addr + UInt32.ofNat i)

/-- Where the linker has put the bootloader: the address of PUT32, the first code
it still needs, and the symbol __prog_end__. The start file leaves the space from
ARMBASE on free, and the end lies behind PUT32. -/
structure Image where
  PUT32 : UInt32
  progEnd : UInt32
  armbase_lt : ARMBASE < PUT32
  put32_lt : PUT32 < progEnd

abbrev Pi := Proc UInt32 PiMem

def bootGet8 : Pi UInt8 := .get8
def bootPut8 (x : UInt8) : Pi Unit := .put8 x

/-- A reading 1 means that a byte is there; a reading 0 says nothing, since a byte
may still be on its way. -/
def uartHasData : Pi UInt32 := .sense (· == 1)
def timerGetUsec : Pi UInt32 := .sense fun _ => false
def PUT8 (addr : UInt32) (x : UInt8) : Pi Unit := .memory fun m => ((), m.put addr x)
def rpiReboot {α : Type} : Pi α := .halt
-- These two only let time pass: no byte is lost or held back meanwhile.
def delayMs (_ms : UInt32) : Pi Unit := pure ()
def uartFlushTx : Pi Unit := pure ()

def bootGet32 : Pi UInt32 := do
  let b0 ← bootGet8
  let b1 ← bootGet8
  let b2 ← bootGet8
  let b3 ← bootGet8
  pure (b0.toUInt32 ||| (b1.toUInt32 <<< 8) ||| (b2.toUInt32 <<< 16) ||| (b3.toUInt32 <<< 24))

def bootPut32 (u : UInt32) : Pi Unit := do
  bootPut8 ((u >>> 0) &&& 0xff).toUInt8
  bootPut8 ((u >>> 8) &&& 0xff).toUInt8
  bootPut8 ((u >>> 16) &&& 0xff).toUInt8
  bootPut8 ((u >>> 24) &&& 0xff).toUInt8

def putString : List UInt8 → Pi Unit
  | [] => pure ()
  | b :: msg => do
    bootPut8 b
    putString msg

def bootPutk (msg : List UInt8) : Pi Unit := do
  bootPut32 PRINT_STRING
  bootPut32 (UInt32.ofNat msg.length)
  putString msg

def hasDataTimeout (timeout : UInt32) : Pi UInt32 := do
  let s ← timerGetUsec
  .iter (fun _ => do
    let e ← timerGetUsec
    let there ← uartHasData
    if there = 1 then pure (.inr 1)
    else if e - s ≥ timeout then pure (.inr 0)
    else pure (.inl ())) ()

/-- The condition of the loop below: go around again while nothing came. -/
def untilData (usecTimeout : UInt32) : Pi (Unit ⊕ Unit) := do
  let there ← hasDataTimeout usecTimeout
  pure (if there = 0 then .inl () else .inr ())

def waitForData (usecTimeout : UInt32) : Pi Unit :=
  .iter (fun _ => do
    bootPut32 GET_PROG_INFO
    untilData usecTimeout) ()

def collides (img : Image) (addr n : UInt32) : Bool :=
  addr + n ≥ img.PUT32 && img.progEnd ≥ addr

-- "UART - Jiayang"
def greeting : List UInt8 :=
  [0x55, 0x41, 0x52, 0x54, 0x20, 0x2d, 0x20, 0x4a, 0x69, 0x61, 0x79, 0x61, 0x6e, 0x67]

def getCode (img : Image) : Pi UInt32 := do
  waitForData (300 * 1000)
  -- step 2: the first word is read and dropped
  let _ ← bootGet32
  let addr ← bootGet32
  let n ← bootGet32
  let crc ← bootGet32
  -- step 3: the error is sent, and the run goes on
  (if collides img addr n then bootPut32 BOOT_ERROR else pure ())
  -- step 4
  bootPut32 GET_CODE
  bootPut32 crc
  -- step 5: again the first word is dropped
  let _ ← bootGet32
  .forTo n fun i => do
    let c ← bootGet8
    PUT8 (addr + i) c
  -- step 6
  let sum ← .memory fun m => (crc32 (m.range addr n), m)
  (if sum ≠ crc then bootPut32 BOOT_ERROR else pure ())
  -- step 7
  bootPutk greeting
  bootPut32 BOOT_SUCCESS
  delayMs 1000
  uartFlushTx
  pure addr

def notmain (img : Image) : Pi UInt32 := do
  let addr ← getCode img
  if addr = 0 then rpiReboot else pure addr

end EmbeddedOS.Bootloader
