import EmbeddedOS.Fat32.Directory

/-! fat32_readdir and fat32_stat on the same directory: what is listed, what is
found, and when the two agree. -/
namespace EmbeddedOS.Fat32
open Fueled Fueled.Comp

section Slots

def isLabel (d : Dirent) : Bool := (d.attr >>> 3) &&& 0x1 != 0

/-- The slot holds an entry that a listing is about. -/
def live (d : Dirent) : Bool := !fat32DirentFree d && !fat32DirentIsLfn d && !isLabel d

/-- The slot passes the three tests of fat32_readdir. -/
def listed (d : Dirent) : Bool := !fat32DirentIsLfn d && !isLabel d && d.firstByte != 0

def named (filename : CString) (d : Dirent) : Bool := filename == fat32DirentName d

theorem validDirents_eq (dirents : List Dirent) :
    validDirents dirents = (dirents.filter listed).map direntConvert := by
  induction dirents with
  | nil => rfl
  | cons d dirents ih =>
    rw [validDirents, ih]
    by_cases lfn : fat32DirentIsLfn d
    · simp [listed, lfn]
    · by_cases label : (d.attr >>> 3) &&& 0x1 = 0
      · by_cases unused : d.firstByte = 0
        · simp [listed, lfn, unused]
        · simp [listed, isLabel, lfn, label, unused]
      · simp [listed, isLabel, lfn, label]

theorem live_iff (d : Dirent) : live d = true ↔ listed d = true ∧ d.firstByte ≠ 0xe5 := by
  unfold live listed fat32DirentFree fat32DirentIsLfn
  by_cases lfn : d.attr = FAT32_LONG_FILE_NAME
  · simp [lfn]
  · simp [lfn]
    tauto

theorem listed_of_live {d : Dirent} (h : live d = true) : listed d = true := ((live_iff d).mp h).1

theorem neverUsed_not_listed : listed neverUsed = false := by decide

theorem find_findIdx (dirents : List Dirent) (p : Dirent → Bool) :
    (dirents.findIdx? p).bind (dirents[·]?) = dirents.find? p := by
  induction dirents with
  | nil => rfl
  | cons d dirents ih =>
    rw [List.findIdx?_cons, List.find?_cons]
    cases p d
    · simpa [Option.bind_map] using ih
    · rfl

end Slots

section Calls

variable {v : Volume} (D : Directory v) {heap : Heap} {p : PiDirent}

def Directory.listingRequests : List UInt32 :=
  [v.allocation D.clusters, v.allocation D.clusters / 32 * 44]

/-- The requests of fat32_stat: an entry is converted into a block of its own. -/
def Directory.lookupRequests (filename : CString) : List UInt32 :=
  v.allocation D.clusters :: if (D.seen.find? (named filename)).isSome then [44] else []

theorem validDirents_seen : validDirents D.seen = validDirents D.slots := by
  rw [validDirents_eq, validDirents_eq, Directory.seen, List.filter_append, List.filter_replicate,
    neverUsed_not_listed]
  simp

theorem Gives.unique {α : Type} {call : Comp (α × Heap)} {a b : α} (one : Gives call a)
    (other : Gives call b) : a = b := by
  obtain ⟨_, one⟩ := one
  obtain ⟨_, other⟩ := other
  exact congrArg Prod.fst (Outcome.ok.inj (returns_unique one other))

theorem readdir_clean (dir : p.isDirP = true) (clean : RawChain v.fat p.clusterId D.clusters)
    (served : heap.serves D.listingRequests = true) :
    Gives (fat32Readdir v heap p) (validDirents D.slots) := by
  have first : heap.serves [v.allocation D.clusters] = true := Heap.serves_first served
  refine ⟨(heap.after (v.allocation D.clusters)).after (v.allocation D.clusters / 32 * 44), ?_⟩
  rw [fat32Readdir, v.mounted, dir, assert_true, pure_bind, pure_bind,
    bind_ok (getDirents_clean D clean first)]
  refine (bind_ok (kmalloc_returns.mpr ⟨served, rfl⟩) _ _).mpr ?_
  rw [returns_pure, direntsIn_eq, validDirents_seen]

theorem clean_of_readdir (names : significant p.clusterId = D.start) {L : List PiDirent}
    (gives : Gives (fat32Readdir v heap p) L) :
    RawChain v.fat p.clusterId D.clusters ∧ heap.serves D.listingRequests = true := by
  obtain ⟨_, runs⟩ := gives
  obtain ⟨_, _, runs⟩ := bind_returns_ok.mp runs
  obtain ⟨_, _, runs⟩ := bind_returns_ok.mp runs
  obtain ⟨r, dirents, runs⟩ := bind_returns_ok.mp runs
  obtain ⟨clean, first⟩ := clean_of_getDirents D names dirents
  cases returns_unique dirents (getDirents_clean D clean first)
  obtain ⟨_, allocated, _⟩ := bind_returns_ok.mp runs
  exact ⟨clean, (kmalloc_returns.mp allocated).1⟩

theorem stat_clean (dir : p.isDirP = true) (clean : RawChain v.fat p.clusterId D.clusters)
    {filename : CString} (served : heap.serves (D.lookupRequests filename) = true) :
    (fat32Stat v heap p filename).Returns (.ok ((D.seen.find? (named filename)).map direntConvert,
      (D.lookupRequests filename).foldl Heap.after heap)) := by
  have first : heap.serves [v.allocation D.clusters] = true := Heap.serves_first served
  rw [fat32Stat, v.mounted, dir, assert_true, pure_bind, pure_bind,
    bind_ok (getDirents_clean D clean first)]
  have look : findDirentWithName D.seen filename = D.seen.findIdx? (named filename) := rfl
  simp only [direntsIn_eq, look]
  rw [Directory.lookupRequests, ← find_findIdx] at served ⊢
  cases found : D.seen.findIdx? (named filename) with
  | none => exact returns_pure.mpr rfl
  | some i =>
    have inside := (List.findIdx?_eq_some_iff_getElem.mp found).1
    have there : D.seen[i]? = some D.seen[i] := List.getElem?_eq_getElem inside
    rw [found, Option.bind_some, there, Option.isSome_some, if_pos rfl] at served
    refine (bind_ok (kmalloc_returns.mpr ⟨served, rfl⟩) _ _).mpr ?_
    rw [Option.bind_some, there]
    exact returns_pure.mpr rfl

theorem clean_of_stat (names : significant p.clusterId = D.start) {filename : CString}
    {r : Option PiDirent × Heap} (runs : (fat32Stat v heap p filename).Returns (.ok r)) :
    RawChain v.fat p.clusterId D.clusters ∧ heap.serves (D.lookupRequests filename) = true := by
  obtain ⟨_, _, runs⟩ := bind_returns_ok.mp runs
  obtain ⟨_, _, runs⟩ := bind_returns_ok.mp runs
  obtain ⟨_, dirents, runs⟩ := bind_returns_ok.mp runs
  obtain ⟨clean, first⟩ := clean_of_getDirents D names dirents
  refine ⟨clean, ?_⟩
  cases returns_unique dirents (getDirents_clean D clean first)
  have look : findDirentWithName D.seen filename = D.seen.findIdx? (named filename) := rfl
  simp only [direntsIn_eq, look] at runs
  rw [Directory.lookupRequests, ← find_findIdx]
  cases found : D.seen.findIdx? (named filename) with
  | none => exact first
  | some i =>
    rw [found] at runs
    obtain ⟨_, allocated, _⟩ := bind_returns_ok.mp runs
    have inside := (List.findIdx?_eq_some_iff_getElem.mp found).1
    rw [Option.bind_some, List.getElem?_eq_getElem inside, Option.isSome_some, if_pos rfl]
    exact (kmalloc_returns.mp allocated).1

end Calls

section Agreement

variable {v : Volume} (D : Directory v) (p : PiDirent)

/-- What a listing of the directory should be: its live slots, in order, each once. -/
def Directory.listing : List PiDirent := (D.slots.filter live).map direntConvert

theorem listing_eq_iff : D.listing = validDirents D.slots ↔
    ∀ d ∈ D.slots, fat32DirentIsLfn d = false → isLabel d = false → d.firstByte ≠ 0xe5 := by
  rw [Directory.listing, validDirents_eq]
  constructor
  · intro same d member noLfn noLabel deleted
    have sub : (D.slots.filter live).Sublist (D.slots.filter listed) :=
      List.monotone_filter_right _ fun d h => listed_of_live h
    have whole : D.slots.filter live = D.slots.filter listed := by
      apply sub.eq_of_length
      simpa using congrArg List.length same
    have passes : listed d = true := by simp [listed, noLfn, noLabel, deleted]
    have kept : d ∈ D.slots.filter live := whole ▸ List.mem_filter.mpr ⟨member, passes⟩
    exact ((live_iff d).mp (List.mem_filter.mp kept).2).2 deleted
  · intro clean
    congr 1
    apply List.filter_congr
    intro d member
    by_cases passes : listed d = true
    · have noLfn : fat32DirentIsLfn d = false := by simp [listed] at passes; tauto
      have noLabel : isLabel d = false := by simp [listed] at passes; tauto
      rw [passes, (live_iff d).mpr ⟨passes, clean d member noLfn noLabel⟩]
    · rw [Bool.eq_false_iff.mpr passes, Bool.eq_false_iff]
      exact fun alive => passes (listed_of_live alive)

end Agreement

/-- fat32_readdir returns the live entries, in order, exactly when the heap serves it, no
reserved bit is set on the way and no entry of the directory is a deleted one. -/
theorem readdir_exact_iff {v : Volume} (D : Directory v) (heap : Heap) (p : PiDirent)
    (dir : p.isDirP = true) (names : significant p.clusterId = D.start) :
    Gives (fat32Readdir v heap p) D.listing ↔ heap.serves D.listingRequests = true ∧
      RawChain v.fat p.clusterId D.clusters ∧
      ∀ d ∈ D.slots, fat32DirentIsLfn d = false → isLabel d = false → d.firstByte ≠ 0xe5 := by
  constructor
  · intro exactly
    obtain ⟨clean, served⟩ := clean_of_readdir D names exactly
    have same := exactly.unique (readdir_clean D dir clean served)
    exact ⟨served, clean, (listing_eq_iff D).mp same⟩
  · rintro ⟨served, clean, noDeleted⟩
    rw [(listing_eq_iff D).mpr noDeleted]
    exact readdir_clean D dir clean served

def deletedEntry : List UInt8 := slotOf [0xe5, 0x4c, 0x44] 0x20 0 0

def smallHeap : Heap := freshHeap 4096

theorem small_heap_serves {sizes : List UInt32} (nonzero : 0 ∉ sizes)
    (room : (sizes.map fun n => (n.toNat + 7) / 8 * 8).sum ≤ 4096) : smallHeap.serves sizes = true :=
  fits_iff.mpr ⟨nonzero, room⟩

theorem root_allocation (bytes : List UInt8) :
    (rootOnly bytes).allocation (rootOnlyDirectory bytes).clusters = 1024 := by
  change UInt32.ofNat 2 * 1 * 512 = 1024
  decide

theorem root_listing_served (bytes : List UInt8) :
    smallHeap.serves (rootOnlyDirectory bytes).listingRequests = true := by
  rw [Directory.listingRequests, root_allocation]
  exact small_heap_serves (by decide) (by decide)

theorem deleted_entry_is_listed : ¬ ∀ (v : Volume), WellFormed v → ∀ (D : Directory v) (heap : Heap)
    (p : PiDirent), p.isDirP = true → significant p.clusterId = D.start →
    heap.serves D.listingRequests = true → Gives (fat32Readdir v heap p) D.listing := by
  intro exactly
  let D := rootOnlyDirectory deletedEntry
  have served := root_listing_served deletedEntry
  have gives := exactly _ (rootOnly_wellFormed deletedEntry) D smallHeap rootHandle rfl rfl served
  have same := gives.unique (readdir_clean D rfl (rootOnly_clean deletedEntry) served)
  have noDeleted := (listing_eq_iff D).mp same
  have deleted : ¬ ∀ d ∈ slots (sectorOf deletedEntry).1, fat32DirentIsLfn d = false →
      isLabel d = false → d.firstByte ≠ 0xe5 := by decide +kernel
  exact deleted noDeleted

def fileEntry : List UInt8 := slotOf [0x41] 0x20 0 0

theorem file_is_listed : Gives (fat32Readdir (rootOnly fileEntry) smallHeap rootHandle)
    (rootOnlyDirectory fileEntry).listing :=
  (readdir_exact_iff (rootOnlyDirectory fileEntry) smallHeap rootHandle rfl rfl).mpr
    ⟨root_listing_served fileEntry, rootOnly_clean fileEntry, by decide +kernel⟩

section Lookup

variable {v : Volume} (D : Directory v) (heap : Heap) (p : PiDirent) (filename : CString)

/-- What a lookup owes to the listing of the same directory: the first entry of that
name, if there is one, and never through a slot that holds no entry. -/
structure LookupAgrees : Prop where
  same : ∃ L, Gives (fat32Readdir v heap p) L ∧
    Gives (fat32Stat v heap p filename) (L.find? fun e => filename == e.name)
  only_live : ∀ buf n rest, (getDirents v heap p.clusterId).Returns (.ok (buf, n, rest)) →
    ∀ i, findDirentWithName (direntsIn buf n) filename = some i →
      ∃ d, (direntsIn buf n)[i]? = some d ∧ live d = true

theorem find_listed {dirents : List Dirent} {q : Dirent → Bool}
    (first : ∀ d, dirents.find? q = some d → listed d = true) :
    (dirents.filter listed).find? q = dirents.find? q := by
  rw [List.find?_filter]
  induction dirents with
  | nil => rfl
  | cons d dirents ih =>
    rw [List.find?_cons] at first
    cases found : q d with
    | true =>
      have passes := first d (by rw [found])
      simp [passes, found]
    | false =>
      rw [found] at first
      simpa [found] using ih first

theorem lookup_of_live (dir : p.isDirP = true) (lists : heap.serves D.listingRequests = true)
    (looks : heap.serves (D.lookupRequests filename) = true)
    (clean : RawChain v.fat p.clusterId D.clusters)
    (first : ∀ d, D.seen.find? (named filename) = some d → live d = true) :
    LookupAgrees (v := v) heap p filename := by
  constructor
  · refine ⟨validDirents D.slots, readdir_clean D dir clean lists, ?_⟩
    have found := find_listed fun d h => listed_of_live (first d h)
    have entry : ((fun e => filename == e.name) ∘ direntConvert) = named filename := rfl
    rw [← validDirents_seen, validDirents_eq, List.find?_map, entry, found]
    exact ⟨_, stat_clean D dir clean looks⟩
  · intro buf n rest runs i found
    have same := returns_unique runs (getDirents_clean D clean (Heap.serves_first looks))
    cases same
    rw [direntsIn_eq] at found ⊢
    have lookup := find_findIdx D.seen (named filename)
    rw [show D.seen.findIdx? (named filename) = some i from found] at lookup
    have inside := (List.findIdx?_eq_some_iff_getElem.mp found).1
    have there : D.seen[i]? = some D.seen[i] := List.getElem?_eq_getElem inside
    exact ⟨D.seen[i], there, first _ (lookup.symm.trans there)⟩

theorem live_of_lookup (names : significant p.clusterId = D.start)
    (agrees : LookupAgrees (v := v) heap p filename) :
    heap.serves D.listingRequests = true ∧ heap.serves (D.lookupRequests filename) = true ∧
      RawChain v.fat p.clusterId D.clusters ∧
      ∀ d, D.seen.find? (named filename) = some d → live d = true := by
  obtain ⟨L, lists, _, finds⟩ := agrees.same
  obtain ⟨clean, served⟩ := clean_of_readdir D names lists
  have looks := (clean_of_stat D names finds).2
  refine ⟨served, looks, clean, fun d first => ?_⟩
  have lookup := find_findIdx D.seen (named filename)
  rw [first] at lookup
  obtain ⟨i, found, there⟩ := Option.bind_eq_some_iff.mp lookup
  have runs := getDirents_clean D clean (Heap.serves_first looks)
  have looked : findDirentWithName (direntsIn ⟨(v.allocation D.clusters).toNat, D.bytes⟩
      (v.allocation D.clusters / 32)) filename = some i := by
    rw [direntsIn_eq]
    exact found
  obtain ⟨d', there', alive⟩ := agrees.only_live _ _ _ runs i looked
  rw [direntsIn_eq, there] at there'
  cases there'
  exact alive

end Lookup

/-- fat32_stat agrees with fat32_readdir exactly when the heap serves both, no reserved bit is set
on the way and the first slot that spells the name, if there is one, is live. -/
theorem stat_agrees_iff {v : Volume} (D : Directory v) (heap : Heap) (p : PiDirent)
    (filename : CString) (dir : p.isDirP = true) (names : significant p.clusterId = D.start) :
    LookupAgrees (v := v) heap p filename ↔ heap.serves D.listingRequests = true ∧
      heap.serves (D.lookupRequests filename) = true ∧ RawChain v.fat p.clusterId D.clusters ∧
      ∀ d, D.seen.find? (named filename) = some d → live d = true :=
  ⟨live_of_lookup D heap p filename names,
    fun ⟨lists, looks, clean, first⟩ => lookup_of_live D heap p filename dir lists looks clean first⟩

def nameA : CString := [0x41, 0x2e, 0x20, 0x20, 0x20]

def labelEntry : List UInt8 := slotOf [0x41] 0x08 0 0

theorem root_lookup_served (bytes : List UInt8) (filename : CString) :
    smallHeap.serves ((rootOnlyDirectory bytes).lookupRequests filename) = true := by
  rw [Directory.lookupRequests, root_allocation]
  split
  · exact small_heap_serves (by decide) (by decide)
  · exact small_heap_serves (by decide) (by decide)

theorem label_is_found : ¬ ∀ (v : Volume), WellFormed v → ∀ (D : Directory v) (heap : Heap)
    (p : PiDirent) (filename : CString), p.isDirP = true → significant p.clusterId = D.start →
    heap.serves D.listingRequests = true → heap.serves (D.lookupRequests filename) = true →
    LookupAgrees (v := v) heap p filename := by
  intro agrees
  let D := rootOnlyDirectory labelEntry
  have owes := agrees _ (rootOnly_wellFormed labelEntry) D smallHeap rootHandle nameA rfl rfl
    (root_listing_served labelEntry) (root_lookup_served labelEntry nameA)
  have lives := (live_of_lookup D smallHeap rootHandle _ rfl owes).2.2.2
  have found : (slots (sectorOf labelEntry).1 ++ List.replicate 16 neverUsed).find? (named nameA) =
      some (direntAt fun j => labelEntry.getD j 0) := by decide +kernel
  have dead : live (direntAt fun j => labelEntry.getD j 0) = false := by decide +kernel
  have alive := lives _ found
  rw [dead] at alive
  cases alive

theorem file_is_found : LookupAgrees (v := rootOnly fileEntry) smallHeap rootHandle nameA := by
  have alive : ((slots (sectorOf fileEntry).1 ++ List.replicate 16 neverUsed).find?
      (named nameA)).all live = true := by decide +kernel
  have first : ∀ d, (rootOnlyDirectory fileEntry).seen.find? (named nameA) = some d →
      live d = true := by
    intro d found
    have all := alive
    rw [show (slots (sectorOf fileEntry).1 ++ List.replicate 16 neverUsed).find? (named nameA) =
      some d from found] at all
    exact all
  exact (stat_agrees_iff (rootOnlyDirectory fileEntry) smallHeap rootHandle nameA rfl rfl).mpr
    ⟨root_listing_served fileEntry, root_lookup_served fileEntry nameA, rootOnly_clean fileEntry, first⟩

end EmbeddedOS.Fat32
