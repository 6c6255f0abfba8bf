import EmbeddedOS.Fat32.Driver

/-! fat32_mk: the checks on the boot sector, and where the volume's parts lie on the card. -/
namespace EmbeddedOS.Fat32

/-- The fields of the boot sector that are checked or used. -/
structure BootSec where
  bytesPerSec : UInt16
  secPerCluster : UInt8
  reservedAreaNsec : UInt16
  nfats : UInt8
  maxFiles : UInt16
  fsNsec : UInt16
  zero : UInt16
  nsecInFs : UInt32
  nsecPerFat : UInt32
  firstCluster : UInt32
  infoSecNum : UInt16
  backupBootLoc : UInt16
  extendedSig : UInt8
  sig : UInt16
deriving DecidableEq

def Sector.byte (s : Sector) (i : Nat) : UInt8 := s.1.getD i 0

def Sector.half (s : Sector) (i : Nat) : UInt16 := leHalf (s.byte i) (s.byte (i + 1))

def Sector.word (s : Sector) (i : Nat) : UInt32 :=
  Serial.leWord (s.byte i) (s.byte (i + 1)) (s.byte (i + 2)) (s.byte (i + 3))

def bootSec (s : Sector) : BootSec where
  bytesPerSec := s.half 11
  secPerCluster := s.byte 13
  reservedAreaNsec := s.half 14
  nfats := s.byte 16
  maxFiles := s.half 17
  fsNsec := s.half 19
  zero := s.half 22
  nsecInFs := s.word 32
  nsecPerFat := s.word 36
  firstCluster := s.word 44
  infoSecNum := s.half 48
  backupBootLoc := s.half 50
  extendedSig := s.byte 66
  sig := s.half 510

def isPow2 (x : UInt32) : Bool := x &&& (0 - x) == x

/-- The asserts of the check hold. -/
def fat32VolumeIdCheck (b : BootSec) : Bool :=
  b.bytesPerSec == 512 && b.nfats == 2 && b.sig == 0xAA55 && isPow2 b.secPerCluster.toUInt32 &&
    (b.bytesPerSec == 512 || b.bytesPerSec == 1024 || b.bytesPerSec == 2048 ||
      b.bytesPerSec == 4096) &&
    b.maxFiles == 0 && b.fsNsec == 0 && b.zero == 0 && b.nsecInFs != 0 && b.infoSecNum == 1 &&
    b.backupBootLoc == 6 && b.extendedSig == 0x29

def fat32FsinfoCheck (s : Sector) : Bool :=
  s.word 0 == 0x41615252 && s.word 484 == 0x61417272 && s.word 508 == 0xaa550000

structure Fs where
  lbaStart : UInt32
  fatBeginLba : UInt32
  clusterBeginLba : UInt32
  sectorsPerCluster : UInt32
  rootDirFirstCluster : UInt32
  fat : List UInt32
  nEntries : UInt32
deriving DecidableEq

abbrev Card := UInt32 → Option Sector

/-- The bytes of some sectors in a row, where all of them can be read. -/
def sdReadblock (card : Card) (lba : UInt32) : Nat → Option (List UInt8)
  | 0 => some []
  | n + 1 => do
    let sector ← card lba
    let rest ← sdReadblock card (lba + 1) n
    pure (sector.1 ++ rest)

def piSecRead (card : Card) (lba nsec : UInt32) : Option (List UInt8) :=
  if nsec * 512 = 0 then none else sdReadblock card lba nsec.toNat

def words : List UInt8 → List UInt32
  | a :: b :: c :: d :: bytes => Serial.leWord a b c d :: words bytes
  | _ => []

/-- The metadata that fat32_mk computes from a boot sector. -/
def layout (b : BootSec) (lbaStart : UInt32) (fat : List UInt32) : Fs :=
  let fatBeginLba := lbaStart + b.reservedAreaNsec.toUInt32
  { lbaStart := lbaStart
    fatBeginLba := fatBeginLba
    clusterBeginLba := fatBeginLba + b.nfats.toUInt32 * b.nsecPerFat
    sectorsPerCluster := b.secPerCluster.toUInt32
    rootDirFirstCluster := b.firstCluster
    fat := fat
    nEntries := b.fsNsec.toUInt32 }

/-- Nothing where a demand, an assert or a read fails. -/
def fat32Mk (card : Card) (initP : Bool) (lbaStart : UInt32) : Option (BootSec × Fs) :=
  if initP then none
  else do
    let sector ← card lbaStart
    let b := bootSec sector
    if fat32VolumeIdCheck b then
      let fsinfo ← card (lbaStart + b.infoSecNum.toUInt32)
      if fat32FsinfoCheck fsinfo then
        let bytes ← piSecRead card (lbaStart + b.reservedAreaNsec.toUInt32) b.nsecPerFat
        pure (b, layout b lbaStart (words bytes))
      else none
    else none

/-- cluster_to_lba behind its assert. -/
def Fs.clusterToLba (f : Fs) (clusterNum : UInt32) : UInt32 :=
  f.clusterBeginLba + (clusterNum - 2) * f.sectorsPerCluster

section Layout

def Fs.cluster (f : Fs) (c : UInt32) : List UInt32 :=
  (List.range f.sectorsPerCluster.toNat).map fun i => f.clusterToLba c + UInt32.ofNat i

/-- The reserved area and the FATs behind it. -/
def Fs.metadata (f : Fs) (b : BootSec) : List UInt32 :=
  (List.range (b.reservedAreaNsec.toNat + b.nfats.toNat * b.nsecPerFat.toNat)).map fun i =>
    f.lbaStart + UInt32.ofNat i

def Fs.dataStart (f : Fs) (b : BootSec) : Nat :=
  f.lbaStart.toNat + b.reservedAreaNsec.toNat + b.nfats.toNat * b.nsecPerFat.toNat

variable (b : BootSec) (f : Fs) (n : Nat)

/-- Every cluster below n has sectors of its own behind the metadata. -/
structure Fs.Laid : Prop where
  some_sectors : ∀ c : UInt32, 2 ≤ c → c.toNat < n → f.cluster c ≠ []
  behind : ∀ c : UInt32, 2 ≤ c → c.toNat < n → (f.metadata b).Disjoint (f.cluster c)
  apart : ∀ c d : UInt32, 2 ≤ c → c.toNat < n → 2 ≤ d → d.toNat < n → c ≠ d →
    (f.cluster c).Disjoint (f.cluster d)

/-- No LBA computed for the metadata or for a cluster below n wraps. -/
structure Fs.Exact : Prop where
  fat : f.fatBeginLba.toNat = f.lbaStart.toNat + b.reservedAreaNsec.toNat
  clusters : f.clusterBeginLba.toNat = f.dataStart b
  cluster : ∀ c : UInt32, 2 ≤ c → c.toNat < n →
    (f.clusterToLba c).toNat = f.dataStart b + (c.toNat - 2) * f.sectorsPerCluster.toNat

structure Fs.LayoutRight : Prop where
  entries : f.nEntries.toNat = f.fat.length
  laid : f.Laid b f.nEntries.toNat
  exact : f.lbaStart.toNat + b.nsecInFs.toNat ≤ 2 ^ 32 → f.Exact b f.nEntries.toNat

end Layout

section Mounted
variable {card : Card} {initP : Bool} {lbaStart : UInt32} {b : BootSec} {f : Fs}

theorem mk_cases (mounted : fat32Mk card initP lbaStart = some (b, f)) :
    fat32VolumeIdCheck b ∧ ∃ bytes,
      piSecRead card (lbaStart + b.reservedAreaNsec.toUInt32) b.nsecPerFat = some bytes ∧
        f = layout b lbaStart (words bytes) := by
  unfold fat32Mk at mounted
  split at mounted
  · cases mounted
  · obtain ⟨sector, -, mounted⟩ := Option.bind_eq_some_iff.mp mounted
    dsimp only at mounted
    split at mounted
    · rename_i checked
      obtain ⟨fsinfo, -, mounted⟩ := Option.bind_eq_some_iff.mp mounted
      split at mounted
      · obtain ⟨bytes, read, same⟩ := Option.bind_eq_some_iff.mp mounted
        cases same
        exact ⟨checked, bytes, read, rfl⟩
      · cases mounted
    · cases mounted

theorem sdReadblock_length {lba : UInt32} {n : Nat} {bytes : List UInt8}
    (read : sdReadblock card lba n = some bytes) : bytes.length = 512 * n := by
  induction n generalizing lba bytes with
  | zero =>
    cases read
    rfl
  | succ n ih =>
    obtain ⟨sector, -, read⟩ := Option.bind_eq_some_iff.mp read
    obtain ⟨rest, rest_read, same⟩ := Option.bind_eq_some_iff.mp read
    cases same
    have rest_length := ih rest_read
    have sector_length := sector.2
    rw [List.length_append]
    omega

theorem words_length (bytes : List UInt8) : (words bytes).length = bytes.length / 4 := by
  induction bytes using words.induct with
  | case1 a b c d bytes ih =>
    simp only [words, List.length_cons, ih]
    omega
  | case2 bytes short =>
    have few : bytes.length < 4 := by
      match bytes, short with
      | [], _ | [_], _ | [_, _], _ | [_, _, _], _ => simp
      | a :: b :: c :: d :: rest, short => exact absurd rfl (short a b c d rest)
    rw [words, List.length_nil, Nat.div_eq_of_lt few]
    exact short

theorem table_length (mounted : fat32Mk card initP lbaStart = some (b, f)) :
    b.nsecPerFat ≠ 0 ∧ f.fat.length = 128 * b.nsecPerFat.toNat := by
  obtain ⟨-, bytes, read, rfl⟩ := mk_cases mounted
  unfold piSecRead at read
  split at read
  · cases read
  · rename_i some_bytes
    refine ⟨fun none => some_bytes (by simp [none]), ?_⟩
    have length := sdReadblock_length read
    simp only [layout, words_length]
    omega

theorem check_cases (checked : fat32VolumeIdCheck b) :
    b.bytesPerSec = 512 ∧ b.nfats = 2 ∧ isPow2 b.secPerCluster.toUInt32 ∧ b.fsNsec = 0 := by
  simp only [fat32VolumeIdCheck, Bool.and_eq_true, beq_iff_eq] at checked
  exact ⟨by simp_all, by simp_all, by simp_all, by simp_all⟩

/-- The count of entries is read from a field that the check wants to be 0. -/
theorem never_laid_out (mounted : fat32Mk card initP lbaStart = some (b, f)) :
    ¬ f.LayoutRight b := by
  intro right
  obtain ⟨some_sectors, length⟩ := table_length mounted
  obtain ⟨checked, bytes, -, rfl⟩ := mk_cases mounted
  have none_counted : (layout b lbaStart (words bytes)).nEntries.toNat = 0 := by
    simp [layout, (check_cases checked).2.2.2]
  have counted := right.entries
  have positive : b.nsecPerFat.toNat ≠ 0 := fun zero => some_sectors (UInt32.toNat_inj.mp zero)
  omega

/-- The test for a power of 2 lets 0 through. -/
theorem no_sectors {n : Nat} (none : f.sectorsPerCluster = 0) (more : 2 < n) : ¬ f.Laid b n := by
  intro laid
  exact laid.some_sectors 2 (by decide) more (by simp [Fs.cluster, none])

section Room
variable {n : Nat} (two : b.nfats = 2) (laid : f = layout b lbaStart f.fat)
  (fits : f.dataStart b < 2 ^ 32)
  (room : f.dataStart b + (n - 2) * f.sectorsPerCluster.toNat ≤ 2 ^ 32)
include two laid fits

theorem begins_exact : f.clusterBeginLba.toNat = f.dataStart b := by
  have two' : b.nfats.toNat = 2 := by rw [two]; rfl
  unfold Fs.dataStart at fits ⊢
  rw [laid] at fits ⊢
  simp only [layout, two', UInt32.toNat_add, UInt32.toNat_mul, UInt16.toNat_toUInt32,
    UInt8.toNat_toUInt32] at fits ⊢
  omega

omit two in
theorem fat_exact : f.fatBeginLba.toNat = f.lbaStart.toNat + b.reservedAreaNsec.toNat := by
  unfold Fs.dataStart at fits
  rw [laid] at fits ⊢
  simp only [layout, UInt32.toNat_add, UInt16.toNat_toUInt32] at fits ⊢
  omega

include room

theorem cluster_exact (some_sectors : f.sectorsPerCluster ≠ 0) {c : UInt32} (two_le : 2 ≤ c)
    (below : c.toNat < n) :
    (f.clusterToLba c).toNat = f.dataStart b + (c.toNat - 2) * f.sectorsPerCluster.toNat := by
  have some_sectors' : f.sectorsPerCluster.toNat ≠ 0 :=
    fun zero => some_sectors (UInt32.toNat_inj.mp zero)
  have two_le' : 2 ≤ c.toNat := two_le
  have less : (c.toNat - 2 + 1) * f.sectorsPerCluster.toNat ≤
      (n - 2) * f.sectorsPerCluster.toNat := Nat.mul_le_mul_right _ (by omega)
  rw [Nat.succ_mul] at less
  rw [Fs.clusterToLba, UInt32.toNat_add, UInt32.toNat_mul, begins_exact two laid fits,
    UInt32.toNat_sub_of_le _ _ two_le, show (2 : UInt32).toNat = 2 from rfl,
    Nat.mod_eq_of_lt (a := (c.toNat - 2) * f.sectorsPerCluster.toNat) (by omega)]
  exact Nat.mod_eq_of_lt (by omega)

theorem mem_cluster {c lba : UInt32} (two_le : 2 ≤ c) (below : c.toNat < n)
    (mem : lba ∈ f.cluster c) :
    f.dataStart b + (c.toNat - 2) * f.sectorsPerCluster.toNat ≤ lba.toNat ∧
      lba.toNat < f.dataStart b + (c.toNat - 2 + 1) * f.sectorsPerCluster.toNat := by
  obtain ⟨i, inside, rfl⟩ := List.mem_map.mp mem
  rw [List.mem_range] at inside
  have some_sectors : f.sectorsPerCluster ≠ 0 := by
    rintro zero
    simp [zero] at inside
  have two_le' : 2 ≤ c.toNat := two_le
  have less : (c.toNat - 2 + 1) * f.sectorsPerCluster.toNat ≤
      (n - 2) * f.sectorsPerCluster.toNat := Nat.mul_le_mul_right _ (by omega)
  rw [Nat.succ_mul] at less ⊢
  rw [UInt32.toNat_add, cluster_exact two laid fits room some_sectors two_le below,
    UInt32.toNat_ofNat', Nat.mod_eq_of_lt (a := i) (by omega), Nat.mod_eq_of_lt (by omega)]
  omega

omit two laid room in
theorem mem_metadata {lba : UInt32} (mem : lba ∈ f.metadata b) : lba.toNat < f.dataStart b := by
  obtain ⟨i, inside, rfl⟩ := List.mem_map.mp mem
  rw [List.mem_range] at inside
  unfold Fs.dataStart at fits ⊢
  rw [UInt32.toNat_add, UInt32.toNat_ofNat', Nat.mod_eq_of_lt (a := i) (by omega),
    Nat.mod_eq_of_lt (by omega)]
  omega

/-- With room for the clusters that a true count would allow, the layout is right if a
cluster has sectors at all. -/
theorem laid_out (some_sectors : f.sectorsPerCluster ≠ 0) : f.Laid b n ∧ f.Exact b n := by
  have within := @mem_cluster _ _ _ _ two laid fits room
  refine ⟨⟨?_, ?_, ?_⟩, ⟨fat_exact laid fits, begins_exact two laid fits,
    fun c => cluster_exact two laid fits room some_sectors⟩⟩
  · intro c _ _ empty
    have none : f.sectorsPerCluster.toNat = 0 := by simpa [Fs.cluster] using empty
    exact some_sectors (UInt32.toNat_inj.mp none)
  · intro c two_le below lba meta_mem mem
    have before := mem_metadata fits meta_mem
    have behind := (within two_le below mem).1
    omega
  · intro c d c_two c_below d_two d_below differ lba c_mem d_mem
    have c_within := within c_two c_below c_mem
    have d_within := within d_two d_below d_mem
    have c_two' : 2 ≤ c.toNat := c_two
    have d_two' : 2 ≤ d.toNat := d_two
    have differ' : c.toNat ≠ d.toNat := fun same => differ (UInt32.toNat_inj.mp same)
    rcases Nat.lt_or_gt_of_ne differ' with less | less
    · have order : (c.toNat - 2 + 1) * f.sectorsPerCluster.toNat ≤
          (d.toNat - 2) * f.sectorsPerCluster.toNat := Nat.mul_le_mul_right _ (by omega)
      omega
    · have order : (d.toNat - 2 + 1) * f.sectorsPerCluster.toNat ≤
          (c.toNat - 2) * f.sectorsPerCluster.toNat := Nat.mul_le_mul_right _ (by omega)
      omega

end Room

theorem pow2_le (byte : UInt8) (pow2 : isPow2 byte.toUInt32) : byte.toUInt32 ≤ 128 := by
  have every : ∀ n : Fin 256, isPow2 (UInt8.ofNat n.val).toUInt32 →
      (UInt8.ofNat n.val).toUInt32 ≤ 128 := by decide +kernel
  have this := every ⟨byte.toNat, byte.toNat_lt⟩
  rw [UInt8.ofNat_toNat] at this
  exact this pow2

/-- What fat32_mk mounts is all that the driver asks of a volume. -/
def mountedVolume (card : Card) (b : BootSec) (f : Fs)
    (mounted : fat32Mk card false lbaStart = some (b, f)) (fits : f.fat.length ≤ 2 ^ 24) :
    Volume where
  clusterBeginLba := f.clusterBeginLba
  sectorsPerCluster := f.sectorsPerCluster
  rootDirFirstCluster := f.rootDirFirstCluster
  fat := f.fat
  bytesPerSec := b.bytesPerSec.toUInt32
  initP := true
  card := card
  mounted := rfl
  bytesPerSec_eq := by
    rw [(check_cases (mk_cases mounted).1).1]
    rfl
  sectors_le := by
    obtain ⟨checked, bytes, -, rfl⟩ := mk_cases mounted
    exact pow2_le _ (check_cases checked).2.2.1
  fat_fits := fits

end Mounted

section SmallVolume

def smallBoot : Sector :=
  ⟨[0, 0, 0, 0, 0, 0, 0, 0, 0, 0, 0, 0, 2, 1, 2, 0, 2] ++ List.replicate 15 0 ++
    [32, 0, 0, 0, 1, 0, 0, 0, 0, 0, 0, 0, 2, 0, 0, 0, 1, 0, 6, 0] ++ List.replicate 14 0 ++
      [0x29] ++ List.replicate 443 0 ++ [0x55, 0xAA], by decide +kernel⟩

def smallFsinfo : Sector :=
  ⟨[0x52, 0x52, 0x61, 0x41] ++ List.replicate 480 0 ++ [0x72, 0x72, 0x41, 0x61] ++
    List.replicate 20 0 ++ [0, 0, 0x55, 0xAA], by decide +kernel⟩

def zeroes : Sector := ⟨List.replicate 512 0, List.length_replicate⟩

def smallCard : Card
  | 0 => some smallBoot
  | 1 => some smallFsinfo
  | _ => some zeroes

theorem smallCard_mounts : fat32Mk smallCard false 0 =
    some (bootSec smallBoot, layout (bootSec smallBoot) 0 (words zeroes.1)) := by
  decide +kernel

theorem small_miscounted : ¬ ∀ b f, fat32Mk smallCard false 0 = some (b, f) → f.LayoutRight b := by
  intro right
  have counted := (right _ _ smallCard_mounts).entries
  exact absurd counted (by decide +kernel)

theorem small_never_laid_out : fat32Mk smallCard false 0 =
    some (bootSec smallBoot, layout (bootSec smallBoot) 0 (words zeroes.1)) ∧
      ¬ (layout (bootSec smallBoot) 0 (words zeroes.1)).LayoutRight (bootSec smallBoot) :=
  ⟨smallCard_mounts, never_laid_out smallCard_mounts⟩

end SmallVolume

end EmbeddedOS.Fat32
