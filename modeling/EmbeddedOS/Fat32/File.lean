import EmbeddedOS.Fat32.Listing

/-! fat32_read: what it returns for a name, and how that relates to the memory that
it has asked for. -/
namespace EmbeddedOS.Fat32
open Fueled Fueled.Comp

section Files

/-- The entry is not a directory. -/
def isRegular (d : Dirent) : Bool := d.attr &&& FAT32_DIR == 0

/-- The clusters of a file: none and no bytes, or a chain whose last cluster is in use. -/
inductive FileOf (v : Volume) (d : Dirent) : List UInt8 → Prop where
  | empty (none : significant (fat32ClusterId d) = 0) (size : d.fileNbytes = 0) : FileOf v d []
  | chain {cs : List UInt32} {bytes : List UInt8}
      (chain : Chain v.fat (significant (fat32ClusterId d)) cs) (content : v.content cs = some bytes)
      (some : d.fileNbytes ≠ 0) (enough : d.fileNbytes.toNat ≤ bytes.length)
      (last_used : bytes.length < d.fileNbytes.toNat + v.clusterSize) : FileOf v d bytes

theorem FileOf.unique {v : Volume} {d : Dirent} {xs ys : List UInt8} (one : FileOf v d xs)
    (other : FileOf v d ys) : xs = ys := by
  cases one with
  | empty _ size =>
    cases other with
    | empty => rfl
    | chain _ _ some => exact (some size).elim
  | chain chain content some =>
    cases other with
    | empty _ size => exact (some size).elim
    | chain chain' content' =>
      rw [chain.unique chain', content'] at content
      exact (Option.some.inj content).symm

def firstBytes (bytes : List UInt8) (n : UInt32) : List UInt8 :=
  (List.range n.toNat).map fun i => bytes.getD i 0

def PiFile.contents (f : PiFile) : List UInt8 := firstBytes f.data.bytes f.nData

theorem firstBytes_take {bytes : List UInt8} {n : UInt32} (enough : n.toNat ≤ bytes.length) :
    firstBytes bytes n = bytes.take n.toNat := by
  apply List.ext_getElem
  · simp [firstBytes, enough]
  · intro i hi _
    have inside : i < bytes.length := by
      rw [firstBytes, List.length_map, List.length_range] at hi
      omega
    simp [firstBytes, inside]

end Files

section Calls

variable {v : Volume} {heap : Heap} {p : PiDirent} {filename : CString}

theorem serves_behind (sizes more : List UInt32) (heap : Heap) :
    (sizes.foldl Heap.after heap).serves more = heap.serves (sizes ++ more) := by
  induction sizes generalizing heap with
  | nil => rfl
  | cons n sizes ih => exact ih (heap.after n)

theorem read_returns (dir : p.isDirP = true) {r : Option PiFile × Heap} :
    (fat32Read v heap p filename).Returns (.ok r) ↔ ∃ d rest cs bytes,
      (fat32Stat v heap p filename).Returns (.ok (some d, rest)) ∧
      RawChain v.fat d.clusterId cs ∧ v.content cs = some bytes ∧ rest.serves [d.nbytes, 12] = true ∧
      r = (some ⟨⟨d.nbytes.toNat, bytes⟩, v.allocation cs, d.nbytes⟩,
        (rest.after d.nbytes).after 12) := by
  rw [fat32Read, v.mounted, dir, assert_true, pure_bind, pure_bind]
  constructor
  · intro runs
    obtain ⟨⟨found, rest⟩, stat, runs⟩ := bind_returns_ok.mp runs
    cases found with
    | none => cases returns_wild.mp runs
    | some d =>
      obtain ⟨length, counted, runs⟩ := bind_returns_ok.mp runs
      obtain ⟨fresh, allocated, runs⟩ := bind_returns_ok.mp runs
      obtain ⟨_, rfl⟩ := kmalloc_returns.mp allocated
      obtain ⟨read, reads, runs⟩ := bind_returns_ok.mp runs
      obtain ⟨cs, bytes, chain, content, rfl⟩ := readClusterChain_returns.mp reads
      obtain ⟨last, allocated, runs⟩ := bind_returns_ok.mp runs
      obtain ⟨served, rfl⟩ := kmalloc_returns.mp allocated
      cases returns_unique counted (chainLength_returns chain)
      cases returns_pure.mp runs
      exact ⟨d, rest, cs, bytes, stat, chain, content, served, rfl⟩
  · rintro ⟨d, rest, cs, bytes, stat, chain, content, served, rfl⟩
    have first : rest.serves [d.nbytes] = true := Heap.serves_first served
    refine (bind_ok stat _ _).mpr (bind_returns_ok.mpr ⟨_, chainLength_returns chain,
      bind_returns_ok.mpr ⟨_, kmalloc_returns.mpr ⟨first, rfl⟩, bind_returns_ok.mpr
        ⟨_, readClusterChain_returns.mpr ⟨cs, bytes, chain, content, rfl⟩, ?_⟩⟩⟩)
    exact bind_returns_ok.mpr ⟨_, kmalloc_returns.mpr ⟨served, rfl⟩, returns_pure.mpr rfl⟩

end Calls

section Reading

variable {v : Volume} (D : Directory v) (heap : Heap) (p : PiDirent) (filename : CString)

/-- The entry that the name stands for: the first live one that spells it. -/
def Directory.entry : Option Dirent := D.slots.find? fun d => live d && named filename d

/-- The files of a well-formed directory have their bytes. -/
def Directory.FilesOk : Prop :=
  ∀ d ∈ D.slots, live d = true → isRegular d = true → ∃ bytes, FileOf v d bytes

/-- What reading by name owes: the file's first bytes, or a null pointer. -/
structure ReadSound : Prop where
  present : ∀ d bytes, D.entry filename = some d → isRegular d = true → FileOf v d bytes →
    ∃ f, Gives (fat32Read v heap p filename) (some f) ∧ f.nData = d.fileNbytes ∧
      f.contents = bytes.take d.fileNbytes.toNat
  absent : D.entry filename = none → Gives (fat32Read v heap p filename) none

/-- The driver comes to the bytes of a file through this slot: its chain has no
reserved bits, and its size and first bytes are those of the file. -/
def Serves (v : Volume) (g d : Dirent) : Prop :=
  g.fileNbytes = d.fileNbytes ∧ ∃ cs served bytes, RawChain v.fat (fat32ClusterId g) cs ∧
    v.content cs = some served ∧ FileOf v d bytes ∧
    firstBytes served d.fileNbytes = bytes.take d.fileNbytes.toNat

/-- The requests of fat32_read: the slots, the entry, the bytes of the file and a pi_file_t. -/
def Directory.readRequests (d : Dirent) : List UInt32 :=
  [v.allocation D.clusters, 44, d.fileNbytes, 12]

/-- The name is that of a file with some bytes, the directory can be walked, the first slot that
spells the name, live or not, serves the file, and the heap serves what is asked of it. -/
def Readable : Prop :=
  RawChain v.fat p.clusterId D.clusters ∧ ∃ d g, D.entry filename = some d ∧ d.fileNbytes ≠ 0 ∧
    D.seen.find? (named filename) = some g ∧ Serves v g d ∧ heap.serves (D.readRequests d) = true

variable {D p filename}

theorem read_requests {g d : Dirent} (first : D.seen.find? (named filename) = some g)
    (same : g.fileNbytes = d.fileNbytes) :
    D.lookupRequests filename ++ [(direntConvert g).nbytes, 12] = D.readRequests d := by
  rw [Directory.lookupRequests, first, Option.isSome_some, if_pos rfl, Directory.readRequests, ← same]
  rfl

variable (D p filename)

theorem entry_file (files : D.FilesOk)
    (regular : ∀ d, D.entry filename = some d → isRegular d = true) {d : Dirent}
    (entry : D.entry filename = some d) : ∃ bytes, FileOf v d bytes := by
  have passes := List.find?_some entry
  rw [Bool.and_eq_true] at passes
  exact files d (List.mem_of_find?_eq_some entry) passes.1 (regular d entry)

theorem readable_of_sound (dir : p.isDirP = true) (names : significant p.clusterId = D.start)
    (files : D.FilesOk) (regular : ∀ d, D.entry filename = some d → isRegular d = true)
    (sound : ReadSound D heap p filename) : Readable D heap p filename := by
  cases entry : D.entry filename with
  | none =>
    obtain ⟨_, reads⟩ := sound.absent entry
    obtain ⟨_, _, _, _, _, _, _, _, none⟩ := (read_returns dir).mp reads
    cases none
  | some d =>
    obtain ⟨bytes, file⟩ := entry_file D filename files regular entry
    obtain ⟨f, ⟨_, reads⟩, size, contents⟩ := sound.present d bytes entry (regular d entry) file
    obtain ⟨e, rest, cs, served, stat, chain, content, room, eq⟩ := (read_returns dir).mp reads
    cases eq
    obtain ⟨clean, looks⟩ := clean_of_stat D names stat
    have found := Outcome.ok.inj (returns_unique stat (stat_clean D dir clean looks))
    obtain ⟨g, first, rfl⟩ := Option.map_eq_some_iff.mp (congrArg Prod.fst found).symm
    have behind : rest = (D.lookupRequests filename).foldl Heap.after heap := congrArg Prod.snd found
    have same : g.fileNbytes = d.fileNbytes := size
    rw [behind, serves_behind, read_requests first same] at room
    have some : d.fileNbytes ≠ 0 := fun zero => heap.nonzero room (by simp [Directory.readRequests, zero])
    refine ⟨clean, d, g, entry, some, first, ⟨same, cs, served, bytes, chain, content, file, ?_⟩, room⟩
    rw [← contents, ← same]
    rfl

theorem sound_of_readable (dir : p.isDirP = true) (readable : Readable D heap p filename) :
    ReadSound D heap p filename := by
  obtain ⟨clean, d, g, entry, some, first, ⟨same, cs, served, bytes, chain, content, file, eq⟩, room⟩ :=
    readable
  rw [← read_requests first same] at room
  have stat := stat_clean D dir clean (heap.earlier _ room)
  rw [first] at stat
  rw [← serves_behind] at room
  have reads := (read_returns dir).mpr
    ⟨direntConvert g, _, cs, served, stat, chain, content, room, rfl⟩
  constructor
  · intro d' bytes' entry' _ file'
    rw [entry] at entry'
    cases entry'
    rw [file'.unique file]
    refine ⟨_, ⟨_, reads⟩, same, ?_⟩
    rw [← eq, ← same]
    rfl
  · intro none
    rw [entry] at none
    cases none

end Reading

/-- fat32_read does what a name asks for exactly on the readable names: never for an
empty file or an absent name, nor with too small a heap. -/
theorem read_sound_iff {v : Volume} (D : Directory v) (heap : Heap) (p : PiDirent)
    (filename : CString) (dir : p.isDirP = true) (names : significant p.clusterId = D.start)
    (files : D.FilesOk) (regular : ∀ d, D.entry filename = some d → isRegular d = true) :
    ReadSound D heap p filename ↔ Readable D heap p filename :=
  ⟨readable_of_sound D heap p filename dir names files regular,
    sound_of_readable D heap p filename dir⟩

theorem empty_root_is_silent : ∀ d ∈ (rootOnlyDirectory []).slots, live d = false := by
  decide +kernel

theorem absent_name_is_dereferenced : ¬ ∀ (v : Volume), WellFormed v → ∀ (D : Directory v)
    (heap : Heap) (p : PiDirent) (filename : CString), p.isDirP = true →
    significant p.clusterId = D.start → D.FilesOk →
    (∀ d, D.entry filename = some d → isRegular d = true ∧ heap.serves (D.readRequests d) = true) →
    heap.serves (D.lookupRequests filename) = true → ReadSound D heap p filename := by
  intro sound
  let D := rootOnlyDirectory []
  have absent : D.entry nameA = none := by
    refine List.find?_eq_none.mpr fun d member => ?_
    rw [empty_root_is_silent d member]
    exact Bool.false_ne_true
  have files : D.FilesOk := by
    intro d member alive
    rw [empty_root_is_silent d member] at alive
    cases alive
  have owes := sound _ (rootOnly_wellFormed []) D smallHeap rootHandle nameA rfl rfl files
    (fun d entry => by rw [absent] at entry; cases entry) (root_lookup_served [] nameA)
  obtain ⟨_, reads⟩ := owes.absent absent
  obtain ⟨_, _, _, _, _, _, _, _, none⟩ := (read_returns rfl).mp reads
  cases none

def fileBytes : List UInt8 := slotOf [0x41] 0x20 3 1

def fileSlot : Dirent := direntAt fun j => fileBytes.getD j 0

theorem four_words_fit :
    ([0x0FFFFFF8, 0x0FFFFFFF, 0x0FFFFFFF, 0x0FFFFFFF] : List UInt32).length ≤ 2 ^ 24 := by decide

def fileVolume : Volume :=
  smallVolume [0x0FFFFFF8, 0x0FFFFFFF, 0x0FFFFFFF, 0x0FFFFFFF] four_words_fit [fileBytes, [0x42]]

theorem root_word :
    ([0x0FFFFFF8, 0x0FFFFFFF, 0x0FFFFFFF, 0x0FFFFFFF] : List UInt32)[2]? = some 0x0FFFFFFF := rfl

def fileRoot : Directory fileVolume := smallRoot 0x0FFFFFFF root_word end_mark_last fileBytes

theorem fileVolume_wellFormed : WellFormed fileVolume := smallVolume_wellFormed (Nat.le_refl 4)

theorem fileRoot_clean : RawChain fileVolume.fat rootHandle.clusterId fileRoot.clusters :=
  .last (by decide) rfl (by decide)

theorem fileRoot_live : ∀ d ∈ fileRoot.slots, live d = true → d = fileSlot := by
  have all : (slots (sectorOf fileBytes).1).all (fun d => !live d || d == fileSlot) = true := by
    decide +kernel
  intro d member alive
  simpa [alive] using List.all_eq_true.mp all d member

theorem fileRoot_entry : fileRoot.entry nameA = some fileSlot := by
  have first : (slots (sectorOf fileBytes).1).find? (fun d => live d && named nameA d) =
      some fileSlot := by decide +kernel
  exact first

theorem fileRoot_seen : fileRoot.seen.find? (named nameA) = some fileSlot := by
  have first : (slots (sectorOf fileBytes).1 ++ List.replicate 16 neverUsed).find?
      (named nameA) = some fileSlot := by decide +kernel
  exact first

theorem file_cluster : fat32ClusterId fileSlot = 3 := by decide +kernel

theorem file_chain : RawChain fileVolume.fat (fat32ClusterId fileSlot) [3] := by
  rw [file_cluster]
  exact .last (by decide) rfl (by decide)

theorem file_meant : Chain fileVolume.fat (significant (fat32ClusterId fileSlot)) [3] := by
  have start : significant 3 = 3 := by decide
  rw [file_cluster, start]
  exact .last (by decide) rfl (by decide)

theorem file_content : fileVolume.content [3] = some (sectorOf [0x42]).1 := by
  rw [Volume.content, fileVolume, smallVolume_cluster]
  simp [Volume.content]

theorem file_nbytes : fileSlot.fileNbytes = 1 := by decide +kernel

theorem fileSlot_file : FileOf fileVolume fileSlot (sectorOf [0x42]).1 := by
  have size := (sectorOf [0x42]).2
  refine .chain file_meant file_content ?_ ?_ ?_
  · rw [file_nbytes]
    decide
  · rw [file_nbytes, size]
    decide
  · rw [file_nbytes, size]
    decide

theorem fileRoot_files : fileRoot.FilesOk := by
  intro d member alive _
  rw [fileRoot_live d member alive]
  exact ⟨_, fileSlot_file⟩

theorem file_requests_served : smallHeap.serves (fileRoot.readRequests fileSlot) = true := by
  have slots : fileVolume.allocation fileRoot.clusters = 1024 :=
    (by decide : UInt32.ofNat 2 * 1 * 512 = 1024)
  rw [Directory.readRequests, slots, file_nbytes]
  exact small_heap_serves (by decide) (by decide)

theorem first_byte_is_read : ReadSound fileRoot smallHeap rootHandle nameA := by
  refine (read_sound_iff fileRoot smallHeap rootHandle nameA rfl rfl fileRoot_files ?_).mpr
    ⟨fileRoot_clean, fileSlot, fileSlot, fileRoot_entry, ?_, fileRoot_seen,
      ⟨rfl, [3], _, _, file_chain, file_content, fileSlot_file, ?_⟩, file_requests_served⟩
  · intro d entry
    rw [fileRoot_entry] at entry
    cases entry
    decide +kernel
  · rw [file_nbytes]
    decide
  · apply firstBytes_take
    rw [file_nbytes, (sectorOf [0x42]).2]
    decide

section Memory

variable {v : Volume} {heap : Heap} {cs : List UInt32}

/-- Whenever a caller comes to read a chain, into what it has allocated for the number
of clusters counted, the reading ends and has room. -/
def ReadWithin (v : Volume) (heap : Heap) (c : UInt32) (nbytes : UInt32 → UInt32) : Prop :=
  ∀ length buf rest, (getClusterChainLength v c).Returns (.ok length) →
    (kmalloc heap (nbytes length)).Returns (.ok (buf, rest)) →
    ∃ out, (readClusterChain v c buf).Returns (.ok out) ∧ out.bytes.length ≤ buf.size

/-- Reading by name stays within the table and what it has allocated, and says how much
that is. -/
structure Accounted (v : Volume) (heap : Heap) (p : PiDirent) (filename : CString) : Prop where
  file_within : ∀ d rest, (fat32Stat v heap p filename).Returns (.ok (some d, rest)) →
    ReadWithin v rest d.clusterId fun _ => d.nbytes
  dirents_within : ReadWithin v heap p.clusterId fun length =>
    length * v.sectorsPerCluster * v.bytesPerSec
  alloc : ∀ f, Gives (fat32Read v heap p filename) (some f) → f.nAlloc.toNat = f.data.size
  tame : ∀ i, ¬ (fat32Read v heap p filename).Returns (.wild i)

theorem read_within_iff {c : UInt32} {bytes : List UInt8} (clean : RawChain v.fat c cs)
    (content : v.content cs = some bytes) (nbytes : UInt32 → UInt32) :
    ReadWithin v heap c nbytes ↔ (heap.serves [nbytes (UInt32.ofNat (cs.length + 1))] = true →
      bytes.length ≤ (nbytes (UInt32.ofNat (cs.length + 1))).toNat) := by
  constructor
  · intro within served
    obtain ⟨out, reads, room⟩ :=
      within _ _ _ (chainLength_returns clean) (kmalloc_returns.mpr ⟨served, rfl⟩)
    obtain ⟨cs', bytes', chain, content', rfl⟩ := readClusterChain_returns.mp reads
    rw [chain.unique clean, content] at content'
    cases content'
    exact room
  · intro room length buf rest counted allocated
    cases returns_unique counted (chainLength_returns clean)
    obtain ⟨served, eq⟩ := kmalloc_returns.mp allocated
    cases eq
    exact ⟨_, readClusterChain_returns.mpr ⟨cs, bytes, clean, content, rfl⟩, room served⟩

theorem dirents_within (D : Directory v) {p : PiDirent} (names : significant p.clusterId = D.start) :
    ReadWithin v heap p.clusterId fun length => length * v.sectorsPerCluster * v.bytesPerSec := by
  intro length buf rest counted
  have clean := clean_of_counted (names ▸ D.chain) counted
  refine (read_within_iff clean D.content fun length =>
    length * v.sectorsPerCluster * v.bytesPerSec).mpr (fun _ => ?_) length buf rest counted
  have size := allocation_toNat D.allocation_small
  rw [content_length D.content]
  exact (Nat.mul_le_mul_right _ (Nat.le_succ _)).trans_eq size.symm

theorem alloc_wrong {bytes : List UInt8} (content : v.content cs = some bytes) {n : UInt32}
    (enough : n.toNat ≤ bytes.length) (last_used : bytes.length < n.toNat + v.clusterSize) :
    (v.allocation cs).toNat ≠ n.toNat := by
  have length := content_length content
  have cluster := clusterSize_le v
  have size := n.toNat_lt
  rw [allocation_mod, Nat.succ_mul, ← length]
  omega

variable {p : PiDirent} {filename : CString} {d : PiDirent} {rest : Heap} {bytes : List UInt8}

/-- A reserved bit on the way through a file leads its count out of the table. -/
theorem read_wild (dir : p.isDirP = true)
    (found : (fat32Stat v heap p filename).Returns (.ok (some d, rest)))
    (chain : Chain v.fat (significant d.clusterId) cs) (dirty : ¬ RawChain v.fat d.clusterId cs) :
    ∃ i, (fat32Read v heap p filename).Returns (.wild i) := by
  obtain ⟨i, wild⟩ := counting_wild chain dirty 1
  refine ⟨i, ?_⟩
  rw [fat32Read, v.mounted, dir, assert_true, pure_bind, pure_bind]
  exact (bind_ok found _ _).mpr (bind_wild wild _)

theorem read_tame (dir : p.isDirP = true)
    (found : (fat32Stat v heap p filename).Returns (.ok (some d, rest)))
    (clean : RawChain v.fat d.clusterId cs) (content : v.content cs = some bytes) (i : Nat) :
    ¬ (fat32Read v heap p filename).Returns (.wild i) := by
  intro astray
  rw [fat32Read, v.mounted, dir, assert_true, pure_bind, pure_bind] at astray
  have runs := (bind_ok (chainLength_returns clean) _ _).mp ((bind_ok found _ _).mp astray)
  rcases bind_returns_wild.mp runs with first | ⟨⟨buf, behind⟩, allocated, runs⟩
  · exact kmalloc_tame first
  · obtain ⟨_, eq⟩ := kmalloc_returns.mp allocated
    cases eq
    have reads := readClusterChain_returns.mpr
      ⟨cs, bytes, clean, content, (rfl : Buf.mk d.nbytes.toNat bytes = _)⟩
    rcases bind_returns_wild.mp ((bind_ok reads _ _).mp runs) with last | ⟨_, _, runs⟩
    · exact kmalloc_tame last
    · cases returns_pure.mp runs

end Memory

/-- Where a lookup finds a file, fat32_read keeps to the table and to its memory and says how
much that is exactly when no file is returned: the way through it has no reserved bits, and the
heap has no room for its bytes, or they fill its clusters and there is none for the pi_file_t. -/
theorem accounted_iff {v : Volume} (D : Directory v) (heap : Heap) (p : PiDirent)
    (filename : CString) (dir : p.isDirP = true) (names : significant p.clusterId = D.start)
    {d : PiDirent} {rest : Heap}
    (found : (fat32Stat v heap p filename).Returns (.ok (some d, rest))) {cs : List UInt32}
    {bytes : List UInt8} (chain : Chain v.fat (significant d.clusterId) cs)
    (content : v.content cs = some bytes) (enough : d.nbytes.toNat ≤ bytes.length)
    (last_used : bytes.length < d.nbytes.toNat + v.clusterSize) :
    Accounted v heap p filename ↔ RawChain v.fat d.clusterId cs ∧
      (rest.serves [d.nbytes] = false ∨
        bytes.length = d.nbytes.toNat ∧ rest.serves [d.nbytes, 12] = false) := by
  constructor
  · intro accounted
    have clean : RawChain v.fat d.clusterId cs := by
      by_contra dirty
      obtain ⟨i, wild⟩ := read_wild dir found chain dirty
      exact accounted.tame i wild
    refine ⟨clean, ?_⟩
    cases first : rest.serves [d.nbytes] with
    | false => exact .inl rfl
    | true =>
      have room := (read_within_iff clean content _).mp (accounted.file_within d rest found) first
      refine .inr ⟨Nat.le_antisymm room enough, ?_⟩
      rw [← Bool.not_eq_true]
      intro served
      have reads := (read_returns dir).mpr ⟨d, rest, cs, bytes, found, clean, content, served, rfl⟩
      exact alloc_wrong content enough last_used (accounted.alloc _ ⟨_, reads⟩)
  · rintro ⟨clean, full⟩
    constructor
    · intro e later stat
      cases returns_unique found stat
      refine (read_within_iff clean content _).mpr fun first => ?_
      rcases full with none | ⟨whole, _⟩
      · rw [none] at first
        cases first
      · exact Nat.le_of_eq whole
    · exact dirents_within D names
    · rintro f ⟨_, reads⟩
      obtain ⟨e, later, cs', _, stat, _, _, served, _⟩ := (read_returns dir).mp reads
      cases returns_unique found stat
      rcases full with none | ⟨_, none⟩
      · rw [Heap.serves_first served] at none
        cases none
      · rw [served] at none
        cases none
    · exact read_tame dir found clean content

def fileHeap : Heap := (fileRoot.lookupRequests nameA).foldl Heap.after smallHeap

theorem fileRoot_stat : (fat32Stat fileVolume smallHeap rootHandle nameA).Returns
    (.ok (some (direntConvert fileSlot), fileHeap)) := by
  have room := smallHeap.earlier (fileRoot.lookupRequests nameA)
    ((congrArg smallHeap.serves (read_requests fileRoot_seen rfl)).trans file_requests_served)
  have stat := stat_clean fileRoot rfl fileRoot_clean room
  rwa [fileRoot_seen] at stat

theorem fileHeap_serves : fileHeap.serves [(direntConvert fileSlot).nbytes, 12] = true := by
  rw [fileHeap, serves_behind, read_requests fileRoot_seen rfl]
  exact file_requests_served

theorem file_overruns_its_buffer : ¬ ∀ (v : Volume), WellFormed v → ∀ (D : Directory v)
    (heap : Heap) (p : PiDirent) (filename : CString), p.isDirP = true →
    significant p.clusterId = D.start → ∀ (d : PiDirent) (rest : Heap),
    (fat32Stat v heap p filename).Returns (.ok (some d, rest)) →
    ∀ (cs : List UInt32) (bytes : List UInt8), Chain v.fat (significant d.clusterId) cs →
    v.content cs = some bytes → d.nbytes.toNat ≤ bytes.length →
    bytes.length < d.nbytes.toNat + v.clusterSize → Accounted v heap p filename := by
  intro accounted
  have size := (sectorOf [0x42]).2
  have one : (direntConvert fileSlot).nbytes = 1 := file_nbytes
  have accounts := accounted _ fileVolume_wellFormed fileRoot smallHeap rootHandle nameA rfl rfl _ _
    fileRoot_stat _ _ file_meant file_content (by rw [one, size]; decide)
    (by rw [one, size]; decide)
  have room := (read_within_iff file_chain file_content _).mp
    (accounts.file_within _ _ fileRoot_stat) (Heap.serves_first fileHeap_serves)
  rw [one, size] at room
  exact absurd room (by decide)

theorem file_size_is_misreported : ¬ Accounted fileVolume smallHeap rootHandle nameA := by
  have size := (sectorOf [0x42]).2
  have one : (direntConvert fileSlot).nbytes = 1 := file_nbytes
  intro accounts
  rcases ((accounted_iff fileRoot smallHeap rootHandle nameA rfl rfl fileRoot_stat file_meant
    file_content (by rw [one, size]; decide) (by rw [one, size]; decide)).mp accounts).2 with
    none | ⟨_, none⟩
  · rw [Heap.serves_first fileHeap_serves] at none
    cases none
  · rw [fileHeap_serves] at none
    cases none

end EmbeddedOS.Fat32
