import EmbeddedOS.Bootloader.Defs
import EmbeddedOS.Serial.Word

/-! The unix side of the bootloader: put-code.c and put-get.c.
The private memory of the program is what it has printed of the strings the pi
sends. A failed assert, demand or check ends the program. -/
namespace EmbeddedOS.Bootloader
open Serial

abbrev Unix := Proc UInt32 (List UInt8)

def getUint8 : Unix UInt8 := .get8
def putUint8 (b : UInt8) : Unix Unit := .put8 b
def output (c : UInt8) : Unix Unit := .memory fun printed => ((), printed ++ [c])

def getUint32 : Unix UInt32 := do
  let b0 ← getUint8
  let b1 ← getUint8
  let b2 ← getUint8
  let b3 ← getUint8
  pure (b0.toUInt32 ||| (b1.toUInt32 <<< 8) ||| (b2.toUInt32 <<< 16) ||| (b3.toUInt32 <<< 24))

/-- One write of the four bytes of the word, which lie in memory low byte first. -/
def putUint32 (u : UInt32) : Unix Unit := do
  putUint8 u.toUInt8
  putUint8 (u >>> 8).toUInt8
  putUint8 (u >>> 16).toUInt8
  putUint8 (u >>> 24).toUInt8

def getOp : Unix UInt32 :=
  .iter (fun _ => do
    let op ← getUint32
    if op ≠ PRINT_STRING then pure (.inr op)
    else do
      let nbytes ← getUint32
      .assert (nbytes < 512)
      .forTo (nbytes - 1) fun _ => do
        let c ← getUint8
        output c
      -- the last byte of the string, which is not printed if it ends the line
      let c ← getUint8
      (if c ≠ 0x0a then output c else pure ())
      pure (.inl ())) ()

/-- The address the caller asks for is not used: the header carries ARMBASE. -/
def simpleBoot (_bootAddr : UInt32) (buf : List UInt8) (n : UInt32) : Unix Unit := do
  -- step 0: drop a byte and try again until the pi asks for the program
  .iter (fun _ => do
    let op ← getOp
    if op = GET_PROG_INFO then pure (.inr ())
    else do
      let _ ← getUint8
      pure (.inl ())) ()
  -- step 1
  putUint32 PUT_PROG_INFO
  putUint32 ARMBASE
  putUint32 n
  putUint32 (crc32 (buf.take n.toNat))
  -- step 2
  let op ← .iter (fun _ => do
    let op ← getOp
    pure (if op = GET_PROG_INFO then .inl () else .inr op)) ()
  -- step 3
  .assert (op = GET_CODE)
  let crc ← getUint32
  .assert (crc = crc32 (buf.take n.toNat))
  -- step 4
  putUint32 PUT_CODE
  .forTo n fun i => putUint8 (buf.getD i.toNat 0)
  -- step 5
  let op ← getOp
  .assert (op = BOOT_SUCCESS)

end EmbeddedOS.Bootloader
