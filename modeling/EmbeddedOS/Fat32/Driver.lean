import EmbeddedOS.Fueled.Comp
import EmbeddedOS.Serial.Word
import Mathlib.Data.List.DropRight

/-! The read-only FAT32 driver: fat32.c with what it uses of fat32-helpers.
A panic is a failed assert or demand, a card that cannot be read, or a request
that kmalloc does not serve; a wild access is an index past the table or a null pointer. -/
namespace EmbeddedOS.Fat32
open Fueled Fueled.Comp

/-- The bytes of a C string before the 0 that ends it. -/
abbrev CString := List UInt8

abbrev Sector := { bytes : List UInt8 // bytes.length = 512 }

/-- A volume that fat32_mk has mounted: what the driver reads of fat32_fs_t, of its
globals and of the card. The table was read into a heap of at most 64 MB. -/
structure Volume where
  clusterBeginLba : UInt32
  sectorsPerCluster : UInt32
  rootDirFirstCluster : UInt32
  fat : List UInt32
  bytesPerSec : UInt32
  initP : Bool
  card : UInt32 → Option Sector
  mounted : initP = true
  bytesPerSec_eq : bytesPerSec = 512
  sectors_le : sectorsPerCluster ≤ 128
  fat_fits : fat.length ≤ 2 ^ 24

/-- Memory from a pointer on: how much of it is allocated, and the bytes written so
far. What was not written is 0. -/
structure Buf where
  size : Nat
  bytes : List UInt8
deriving DecidableEq

def Buf.get (b : Buf) (i : Nat) : UInt8 := b.bytes.getD i 0

def Buf.write (b : Buf) (offset : Nat) (xs : List UInt8) : Buf :=
  { b with bytes := b.bytes.take offset ++ List.replicate (offset - b.bytes.length) 0 ++ xs ++
    b.bytes.drop (offset + xs.length) }

section Memory

/-- The heap of kmalloc, which is not in the source, by what it can serve: these requests,
one after the other. It serves none for no bytes. -/
structure Heap where
  serves : List UInt32 → Bool
  earlier : ∀ sizes {later}, serves (sizes ++ later) = true → serves sizes = true
  nonzero : ∀ {sizes}, serves sizes = true → 0 ∉ sizes

def Heap.after (heap : Heap) (nbytes : UInt32) : Heap where
  serves sizes := heap.serves (nbytes :: sizes)
  earlier sizes _ served := heap.earlier (nbytes :: sizes) served
  nonzero served zero := heap.nonzero served (List.mem_cons_of_mem nbytes zero)

def kmalloc (heap : Heap) (nbytes : UInt32) : Comp (Buf × Heap) := do
  .assert (heap.serves [nbytes])
  pure (⟨nbytes.toNat, []⟩, heap.after nbytes)

end Memory

inductive EntryType where
  | freeCluster
  | reservedCluster
  | badCluster
  | lastCluster
  | usedCluster
deriving DecidableEq

def fat32FatEntryType (x : UInt32) : Comp EntryType :=
  let x := (x <<< 4) >>> 4
  if x = 0 then pure .freeCluster
  else if x = 1 then pure .reservedCluster
  else if x = 0xFFFFFF7 then pure .badCluster
  else if x ≥ 0x2 ∧ x ≤ 0xFFFFFEF then pure .usedCluster
  else if x ≥ 0xFFFFFF0 ∧ x ≤ 0xFFFFFF6 then panic
  else if x ≥ 0xFFFFFF8 ∧ x ≤ 0xFFFFFFF then pure .lastCluster
  else panic

section Dirents

/-- The fields of a 32-byte slot that the driver looks at. -/
structure Dirent where
  filename : List UInt8
  attr : UInt8
  hiStart : UInt16
  loStart : UInt16
  fileNbytes : UInt32
deriving DecidableEq

def leHalf (a b : UInt8) : UInt16 := a.toUInt16 ||| (b.toUInt16 <<< 8)

def direntAt (byte : Nat → UInt8) : Dirent where
  filename := (List.range 11).map byte
  attr := byte 11
  hiStart := leHalf (byte 20) (byte 21)
  loStart := leHalf (byte 26) (byte 27)
  fileNbytes := Serial.leWord (byte 28) (byte 29) (byte 30) (byte 31)

def FAT32_LONG_FILE_NAME : UInt8 := 0x0f
def FAT32_DIR : UInt8 := 0x10

def Dirent.firstByte (d : Dirent) : UInt8 := d.filename.headD 0

def fat32ClusterId (d : Dirent) : UInt32 := (d.hiStart.toUInt32 <<< 16) ||| d.loStart.toUInt32

def fat32DirentIsLfn (d : Dirent) : Bool := d.attr == FAT32_LONG_FILE_NAME

def fat32DirentIsDeletedLfn (d : Dirent) : Bool := d.firstByte &&& 0xe5 == 0xe5

def fat32DirentFree (d : Dirent) : Bool :=
  if d.attr == FAT32_LONG_FILE_NAME then fat32DirentIsDeletedLfn d
  else d.firstByte == 0 || d.firstByte == 0xe5

/-- The stem without its last spaces, a dot and the suffix. If the stem is all spaces
the dot falls in front of the string. -/
def to8dot3 (p : List UInt8) : CString :=
  let stem := (p.take 8).rdropWhile (· == 0x20)
  let s := if stem = [] then p.drop 8 else stem ++ 0x2e :: p.drop 8
  s.takeWhile (· != 0)

def fat32DirentName (d : Dirent) : CString := to8dot3 d.filename

structure PiDirent where
  name : CString
  rawName : List UInt8
  clusterId : UInt32
  isDirP : Bool
  nbytes : UInt32
deriving DecidableEq

def direntConvert (d : Dirent) : PiDirent where
  name := fat32DirentName d
  rawName := d.filename ++ List.replicate 5 0
  clusterId := fat32ClusterId d
  isDirP := d.attr == FAT32_DIR
  nbytes := d.fileNbytes

end Dirents

section Driver

variable (v : Volume)

def clusterToLba (clusterNum : UInt32) : Comp UInt32 := do
  .assert (clusterNum ≥ 2)
  pure (v.clusterBeginLba + (clusterNum - 2) * v.sectorsPerCluster)

def fat32GetRoot : Comp PiDirent := do
  .assert v.initP
  pure ⟨[], List.replicate 16 0, v.rootDirFirstCluster, true, 0⟩

def fatEntry (cluster : UInt32) : Comp UInt32 :=
  match v.fat[cluster.toNat]? with
  | some word => pure word
  | none => wild cluster.toNat

def lengthRound : UInt32 × UInt32 → Comp (UInt32 × UInt32 ⊕ UInt32)
  | (cluster, count) => do
    let type ← fat32FatEntryType cluster
    if type = .lastCluster then pure (.inr count)
    else do
      let cluster ← fatEntry v cluster
      pure (.inl (cluster, count + 1))

def getClusterChainLength (startCluster : UInt32) : Comp UInt32 :=
  .loop (lengthRound v) (startCluster, 1)

def readSectors (lba : UInt32) : Nat → Option (List UInt8)
  | 0 => some []
  | n + 1 => do
    let sector ← v.card lba
    let rest ← readSectors (lba + 1) n
    pure (sector.1 ++ rest)

def piSdRead (data : Buf) (offset : Nat) (lba nsec : UInt32) : Comp Buf :=
  match readSectors v lba nsec.toNat with
  | some bytes => pure (data.write offset bytes)
  | none => panic

def readRound : UInt32 × Buf × Nat → Comp (UInt32 × Buf × Nat ⊕ Buf)
  | (cluster, data, offset) => do
    let lba ← clusterToLba v cluster
    let data ← piSdRead v data offset lba v.sectorsPerCluster
    let offset := offset + (v.sectorsPerCluster * v.bytesPerSec).toNat
    let cluster ← fatEntry v cluster
    let type ← fat32FatEntryType cluster
    pure (if type = .lastCluster then .inr data else .inl (cluster, data, offset))

def readClusterChain (startCluster : UInt32) (data : Buf) : Comp Buf :=
  .loop (readRound v) (startCluster, data, 0)

def getDirents (heap : Heap) (clusterStart : UInt32) : Comp (Buf × UInt32 × Heap) := do
  let chainLength ← getClusterChainLength v clusterStart
  let (buf, heap) ← kmalloc heap (chainLength * v.sectorsPerCluster * v.bytesPerSec)
  let buf ← readClusterChain v clusterStart buf
  pure (buf, chainLength * v.sectorsPerCluster * v.bytesPerSec / 32, heap)

/-- The buffer as an array of n slots. -/
def direntsIn (buf : Buf) (n : UInt32) : List Dirent :=
  (List.range n.toNat).map fun i => direntAt fun j => buf.get (32 * i + j)

def validDirents : List Dirent → List PiDirent
  | [] => []
  | d :: dirents =>
    if fat32DirentIsLfn d then validDirents dirents
    else if (d.attr >>> 3) &&& 0x1 ≠ 0 then validDirents dirents
    else if d.firstByte = 0 then validDirents dirents
    else direntConvert d :: validDirents dirents

def fat32Readdir (heap : Heap) (dirent : PiDirent) : Comp (List PiDirent × Heap) := do
  .assert v.initP
  .assert dirent.isDirP
  let (buf, n, heap) ← getDirents v heap dirent.clusterId
  let (_, heap) ← kmalloc heap (n * 44)
  pure (validDirents (direntsIn buf n), heap)

/-- The index of the first slot with the name; none stands for -1. -/
def findDirentWithName (dirents : List Dirent) (filename : CString) : Option Nat :=
  dirents.findIdx? fun d => filename == fat32DirentName d

def fat32Stat (heap : Heap) (directory : PiDirent) (filename : CString) :
    Comp (Option PiDirent × Heap) := do
  .assert v.initP
  .assert directory.isDirP
  let (buf, n, heap) ← getDirents v heap directory.clusterId
  match findDirentWithName (direntsIn buf n) filename with
  | none => pure (none, heap)
  | some i => do
    let (_, heap) ← kmalloc heap 44
    pure ((direntsIn buf n)[i]?.map direntConvert, heap)

structure PiFile where
  data : Buf
  nAlloc : UInt32
  nData : UInt32
deriving DecidableEq

def fat32Read (heap : Heap) (directory : PiDirent) (filename : CString) :
    Comp (Option PiFile × Heap) := do
  .assert v.initP
  .assert directory.isDirP
  let (piDirent, heap) ← fat32Stat v heap directory filename
  match piDirent with
  | none => wild 0
  | some d => do
    let length ← getClusterChainLength v d.clusterId
    let (buf, heap) ← kmalloc heap d.nbytes
    let buf ← readClusterChain v d.clusterId buf
    let (_, heap) ← kmalloc heap 12
    pure (some ⟨buf, length * v.sectorsPerCluster * v.bytesPerSec, d.nbytes⟩, heap)

end Driver

end EmbeddedOS.Fat32
