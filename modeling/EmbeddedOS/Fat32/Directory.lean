import EmbeddedOS.Fat32.Chain

/-! Directories: the slots that lie in their clusters, and the slots that the driver
looks at. get_dirents counts one cluster too many, and what it sees there is zero. -/
namespace EmbeddedOS.Fat32
open Fueled Fueled.Comp

/-- Every data cluster that the table has an entry for can be read from the card. -/
structure WellFormed (v : Volume) : Prop where
  sectors_pos : 0 < v.sectorsPerCluster
  readable : ∀ c, 2 ≤ c → c.toNat < v.fat.length → (v.cluster c).isSome

def slots (bytes : List UInt8) : List Dirent :=
  (List.range (bytes.length / 32)).map fun i => direntAt fun j => bytes.getD (32 * i + j) 0

/-- A slot of zeros: never used, and nothing behind it is in use either. -/
def neverUsed : Dirent := direntAt fun _ => 0

/-- A directory of the format: its clusters, and at most 65536 slots in them. -/
structure Directory (v : Volume) where
  start : UInt32
  clusters : List UInt32
  bytes : List UInt8
  chain : Chain v.fat start clusters
  content : v.content clusters = some bytes
  small : bytes.length ≤ 65536 * 32

def Directory.slots {v : Volume} (D : Directory v) : List Dirent := Fat32.slots D.bytes

section Content

variable {v : Volume}

theorem clusterSize_le (v : Volume) : v.clusterSize ≤ 65536 := by
  have small := UInt32.le_iff_toNat_le.mp v.sectors_le
  exact Nat.mul_le_mul_right 512 small

theorem WellFormed.clusterSize_pos (wf : WellFormed v) : 0 < v.clusterSize :=
  Nat.mul_pos (UInt32.lt_iff_toNat_lt.mp wf.sectors_pos) (by decide)

theorem WellFormed.content (wf : WellFormed v) {names : UInt32 → UInt32} {c : UInt32}
    {cs : List UInt32} (chain : Linked names v.fat c cs) : ∃ bytes, v.content cs = some bytes := by
  have all : ∀ x ∈ cs, (v.cluster x).isSome := by
    intro x member
    obtain ⟨_, chain, _⟩ := chain.suffix member
    exact wf.readable x chain.head.1 chain.head.2
  clear chain
  induction cs with
  | nil => exact ⟨[], rfl⟩
  | cons c cs ih =>
    obtain ⟨first, here⟩ := Option.isSome_iff_exists.mp (all c List.mem_cons_self)
    obtain ⟨rest, later⟩ := ih fun x member => all x (List.mem_cons_of_mem c member)
    refine ⟨first ++ rest, ?_⟩
    rw [Volume.content, here, later]
    rfl

end Content

section Dirents

variable {v : Volume} {c : UInt32} {cs : List UInt32} {bytes : List UInt8}

/-- The bytes that get_dirents allocates for a chain. -/
def Volume.allocation (v : Volume) (cs : List UInt32) : UInt32 :=
  UInt32.ofNat (cs.length + 1) * v.sectorsPerCluster * v.bytesPerSec

theorem kmalloc_returns {heap : Heap} {n : UInt32} {r : Buf × Heap} :
    (kmalloc heap n).Returns (.ok r) ↔ heap.serves [n] = true ∧ r = (⟨n.toNat, []⟩, heap.after n) := by
  cases served : heap.serves [n] <;> simp [kmalloc, served]

theorem kmalloc_tame {heap : Heap} {n : UInt32} {i : Nat} : ¬ (kmalloc heap n).Returns (.wild i) := by
  cases served : heap.serves [n] <;> simp [kmalloc, served]

theorem Heap.serves_first {heap : Heap} {n : UInt32} {sizes : List UInt32}
    (served : heap.serves (n :: sizes) = true) : heap.serves [n] = true := heap.earlier [n] served

theorem getDirents_returns {heap : Heap} {r : Buf × UInt32 × Heap} :
    (getDirents v heap c).Returns (.ok r) ↔ ∃ cs bytes, RawChain v.fat c cs ∧
      v.content cs = some bytes ∧ heap.serves [v.allocation cs] = true ∧
      r = (⟨(v.allocation cs).toNat, bytes⟩, v.allocation cs / 32, heap.after (v.allocation cs)) := by
  constructor
  · intro runs
    obtain ⟨length, counted, runs⟩ := bind_returns_ok.mp runs
    obtain ⟨fresh, allocated, runs⟩ := bind_returns_ok.mp runs
    obtain ⟨served, rfl⟩ := kmalloc_returns.mp allocated
    obtain ⟨read, reads, runs⟩ := bind_returns_ok.mp runs
    obtain ⟨cs, bytes, chain, content, rfl⟩ := readClusterChain_returns.mp reads
    have same := returns_unique counted (chainLength_returns chain)
    cases same
    cases returns_pure.mp runs
    exact ⟨cs, bytes, chain, content, served, rfl⟩
  · rintro ⟨cs, bytes, chain, content, served, rfl⟩
    exact bind_returns_ok.mpr ⟨_, chainLength_returns chain, bind_returns_ok.mpr
      ⟨_, kmalloc_returns.mpr ⟨served, rfl⟩, bind_returns_ok.mpr
        ⟨_, readClusterChain_returns.mpr ⟨cs, bytes, chain, content, rfl⟩, returns_pure.mpr rfl⟩⟩⟩

theorem allocation_mod (v : Volume) (cs : List UInt32) :
    (v.allocation cs).toNat = (cs.length + 1) * v.clusterSize % 2 ^ 32 := by
  rw [Volume.allocation, v.bytesPerSec_eq, UInt32.toNat_mul, UInt32.toNat_mul,
    UInt32.toNat_ofNat', Nat.mod_mul_mod, Nat.mul_assoc, Nat.mod_mul_mod]
  rfl

theorem allocation_toNat (small : (cs.length + 1) * v.clusterSize < 2 ^ 32) :
    (v.allocation cs).toNat = (cs.length + 1) * v.clusterSize := by
  rw [allocation_mod, Nat.mod_eq_of_lt small]

variable (D : Directory v)

theorem Directory.length_eq : D.bytes.length = D.clusters.length * v.clusterSize :=
  content_length D.content

theorem Directory.allocation_small : (D.clusters.length + 1) * v.clusterSize < 2 ^ 32 := by
  have small := D.small
  have cluster := clusterSize_le v
  rw [D.length_eq] at small
  rw [Nat.succ_mul]
  omega

def Volume.slotsPerCluster (v : Volume) : Nat := v.sectorsPerCluster.toNat * 16

theorem clusterSize_eq (v : Volume) : v.clusterSize = 32 * v.slotsPerCluster := by
  unfold Volume.clusterSize Volume.slotsPerCluster
  omega

theorem Directory.count_toNat : (v.allocation D.clusters / 32).toNat =
    D.clusters.length * v.slotsPerCluster + v.slotsPerCluster := by
  rw [UInt32.toNat_div, allocation_toNat D.allocation_small, clusterSize_eq, Nat.succ_mul]
  change (D.clusters.length * (32 * v.slotsPerCluster) + 32 * v.slotsPerCluster) / 32 = _
  rw [Nat.mul_left_comm, ← Nat.mul_add, Nat.mul_div_cancel_left _ (by decide)]

/-- What a call comes to, with the heap that it leaves. -/
def Gives {α : Type} (call : Comp (α × Heap)) (a : α) : Prop := ∃ rest, call.Returns (.ok (a, rest))

/-- The slots that the driver looks at: those of the directory, and behind them one
cluster more. -/
def Directory.seen : List Dirent := D.slots ++ List.replicate v.slotsPerCluster neverUsed

theorem direntsIn_eq (size : Nat) :
    direntsIn ⟨size, D.bytes⟩ (v.allocation D.clusters / 32) = D.seen := by
  have own : D.bytes.length / 32 = D.clusters.length * v.slotsPerCluster := by
    rw [D.length_eq, clusterSize_eq, Nat.mul_left_comm, Nat.mul_div_cancel_left _ (by decide)]
  have length : D.bytes.length = 32 * (D.clusters.length * v.slotsPerCluster) := by
    rw [D.length_eq, clusterSize_eq, Nat.mul_left_comm]
  rw [direntsIn, D.count_toNat, List.range_add, List.map_append, Directory.seen, Directory.slots,
    slots, own]
  congr 1
  rw [List.map_map]
  apply List.ext_getElem
  · simp
  · intro i _ _
    simp only [List.getElem_map, List.getElem_range, List.getElem_replicate, Function.comp_apply]
    have beyond : ∀ j, Buf.get ⟨size, D.bytes⟩
        (32 * (D.clusters.length * v.slotsPerCluster + i) + j) = 0 := by
      intro j
      rw [Buf.get, List.getD_eq_getElem?_getD, List.getElem?_eq_none (by rw [length]; omega)]
      rfl
    simp only [beyond]
    rfl

end Dirents

section Handles

variable {v : Volume} {c : UInt32} (D : Directory v)

/-- A handle on a directory can be walked only if no reserved bit is set, neither in
the handle nor in the words between the clusters. -/
theorem clean_of_getDirents (names : significant c = D.start) {heap : Heap}
    {r : Buf × UInt32 × Heap} (runs : (getDirents v heap c).Returns (.ok r)) :
    RawChain v.fat c D.clusters ∧ heap.serves [v.allocation D.clusters] = true := by
  obtain ⟨cs, bytes, chain, _, served, _⟩ := getDirents_returns.mp runs
  obtain rfl := chain.meant v.fat_fits (names ▸ D.chain)
  exact ⟨chain, served⟩

theorem getDirents_clean {heap : Heap} (clean : RawChain v.fat c D.clusters)
    (served : heap.serves [v.allocation D.clusters] = true) :
    (getDirents v heap c).Returns (.ok (⟨(v.allocation D.clusters).toNat, D.bytes⟩,
      v.allocation D.clusters / 32, heap.after (v.allocation D.clusters))) :=
  getDirents_returns.mpr ⟨_, _, clean, D.content, served, rfl⟩

end Handles

section Small

def fits (room : Nat) (sizes : List UInt32) : Bool :=
  (! sizes.contains 0) && decide ((sizes.map fun n => (n.toNat + 7) / 8 * 8).sum ≤ room)

theorem fits_iff {room : Nat} {sizes : List UInt32} : fits room sizes = true ↔
    0 ∉ sizes ∧ (sizes.map fun n => (n.toNat + 7) / 8 * 8).sum ≤ room := by
  simp [fits]

theorem fits_earlier {room : Nat} (sizes : List UInt32) {later : List UInt32}
    (served : fits room (sizes ++ later) = true) : fits room sizes = true := by
  rw [fits_iff, List.mem_append, List.map_append, List.sum_append] at served
  exact fits_iff.mpr
    ⟨fun zero => served.1 (.inl zero), Nat.le_trans (Nat.le_add_right _ _) served.2⟩

theorem fits_nonzero {room : Nat} {sizes : List UInt32} (served : fits room sizes = true) : 0 ∉ sizes :=
  (fits_iff.mp served).1

/-- A heap of so many bytes, from which each block is cut off behind the one before. -/
def freshHeap (room : Nat) : Heap := ⟨fits room, fits_earlier, fits_nonzero⟩

def sectorOf (bytes : List UInt8) : Sector :=
  ⟨(bytes ++ List.replicate 512 0).take 512, by
    rw [List.length_take, List.length_append, List.length_replicate]
    omega⟩

def smallVolume (fat : List UInt32) (fits : fat.length ≤ 2 ^ 24) (sectors : List (List UInt8)) :
    Volume where
  clusterBeginLba := 0
  sectorsPerCluster := 1
  rootDirFirstCluster := 2
  fat := fat
  bytesPerSec := 512
  initP := true
  card lba := sectors[lba.toNat]?.map sectorOf
  mounted := rfl
  bytesPerSec_eq := rfl
  sectors_le := by decide
  fat_fits := fits

variable {fat : List UInt32} {fits : fat.length ≤ 2 ^ 24} {sectors : List (List UInt8)}

theorem smallVolume_cluster (c : UInt32) : (smallVolume fat fits sectors).cluster c =
    sectors[(c - 2).toNat]?.map fun bytes => (sectorOf bytes).1 := by
  have place : (0 : UInt32) + (c - 2) * 1 = c - 2 := by rw [UInt32.zero_add, UInt32.mul_one]
  simp only [Volume.cluster, smallVolume, place]
  change readSectors _ (c - 2) 1 = _
  simp only [readSectors]
  cases sectors[(c - 2).toNat]? with
  | none => rfl
  | some bytes => simp

theorem smallVolume_wellFormed (enough : fat.length ≤ sectors.length + 2) :
    WellFormed (smallVolume fat fits sectors) := by
  constructor
  · exact (by decide : (0 : UInt32) < 1)
  · intro c two inside
    have index : (c - 2).toNat = c.toNat - 2 := UInt32.toNat_sub_of_le _ _ two
    have two' : 2 ≤ c.toNat := UInt32.le_iff_toNat_le.mp two
    have there : (c - 2).toNat < sectors.length := by
      rw [index]
      change c.toNat < fat.length at inside
      omega
    rw [smallVolume_cluster, List.getElem?_eq_getElem there]
    rfl

def slotOf (filename : List UInt8) (attr : UInt8) (cluster nbytes : UInt32) : List UInt8 :=
  (filename ++ List.replicate 11 0x20).take 11 ++ [attr] ++ List.replicate 8 0 ++
    (Serial.leBytes cluster).drop 2 ++ List.replicate 4 0 ++ (Serial.leBytes cluster).take 2 ++
    Serial.leBytes nbytes

def smallRoot (w : UInt32) (there : fat[2]? = some w) (ends : Last w) (bytes : List UInt8) :
    Directory (smallVolume fat fits (bytes :: sectors)) where
  start := 2
  clusters := [2]
  bytes := (sectorOf bytes).1
  chain := .last (by decide) there ends
  content := by
    rw [Volume.content, smallVolume_cluster]
    simp [Volume.content]
  small := by
    rw [(sectorOf bytes).2]
    decide

def rootOnly (bytes : List UInt8) : Volume :=
  smallVolume [0x0FFFFFF8, 0x0FFFFFFF, 0x0FFFFFFF] (by decide) [bytes]

theorem end_mark_last : Last 0x0FFFFFFF := by decide

def rootOnlyDirectory (bytes : List UInt8) : Directory (rootOnly bytes) :=
  smallRoot 0x0FFFFFFF rfl end_mark_last bytes

def rootHandle : PiDirent := ⟨[], List.replicate 16 0, 2, true, 0⟩

theorem rootOnly_wellFormed (bytes : List UInt8) : WellFormed (rootOnly bytes) :=
  smallVolume_wellFormed (Nat.le_refl 3)

theorem rootOnly_clean (bytes : List UInt8) :
    RawChain (rootOnly bytes).fat rootHandle.clusterId (rootOnlyDirectory bytes).clusters :=
  .last (by decide) rfl end_mark_last

end Small

end EmbeddedOS.Fat32
