import EmbeddedOS.Fat32.Reserved

/-! Walks through the tree of directories, from fat32_get_root on, by entries that
fat32_readdir and fat32_stat return. -/
namespace EmbeddedOS.Fat32
open Fueled Fueled.Comp

section Tree

variable {v : Volume} {root : Directory v}

/-- The directory that a cluster number in a slot stands for: 0 is the root. -/
inductive Names (root : Directory v) (c : UInt32) : Directory v → Prop where
  | zero (zero : significant c = 0) : Names root c root
  | own {D : Directory v} (start : significant c = D.start) : Names root c D

inductive InTree (root : Directory v) : Directory v → Prop where
  | root : InTree root root
  | child {D E : Directory v} {d : Dirent} (parent : InTree root D) (member : d ∈ D.slots)
      (alive : live d = true) (dir : isRegular d = false)
      (names : Names root (fat32ClusterId d) E) : InTree root E

/-- Every entry with the directory attribute stands for a directory. -/
def TreeOk (root : Directory v) : Prop :=
  ∀ D, InTree root D → ∀ d ∈ D.slots, live d = true → isRegular d = false →
    ∃ E, Names root (fat32ClusterId d) E

/-- The slots whose entries a call on the handle returns, whatever the heap is by then. -/
inductive Returned (v : Volume) (p : PiDirent) (d : Dirent) : Prop where
  | readdir {heap rest : Heap} {xs : List Dirent} (looks : Looks v heap p.clusterId xs rest)
      (lists : Gives (fat32Readdir v heap p) (validDirents xs)) (member : d ∈ xs)
      (passes : listed d = true)
  | stat {heap rest : Heap} {xs : List Dirent} {filename : CString}
      (looks : Looks v heap p.clusterId xs rest)
      (finds : Gives (fat32Stat v heap p filename) (some (direntConvert d)))
      (first : xs.find? (named filename) = some d)

/-- The handles that are come to by entries with the directory attribute, each of which
meets some condition. -/
inductive Navigates (v : Volume) (meets : Dirent → Prop) : PiDirent → Prop where
  | root {p : PiDirent} (starts : (fat32GetRoot v).Returns (.ok p)) : Navigates v meets p
  | step {p : PiDirent} {d : Dirent} (before : Navigates v meets p) (returned : Returned v p d)
      (dir : isRegular d = false) (met : meets d) : Navigates v meets (direntConvert d)

/-- The handle is one of a directory, and fat32_readdir lists what it stands for, with any
heap that has room for the listing. -/
def Opens (root : Directory v) (p : PiDirent) : Prop :=
  p.isDirP = true ∧ ∃ D, Names root p.clusterId D ∧ ∀ heap : Heap,
    heap.serves D.listingRequests = true → Gives (fat32Readdir v heap p) D.listing

/-- The way through the directory has no reserved bits, and it has no deleted entries. -/
def Tidy (c : UInt32) (D : Directory v) : Prop :=
  RawChain v.fat c D.clusters ∧
    ∀ d ∈ D.slots, fat32DirentIsLfn d = false → isLabel d = false → d.firstByte ≠ 0xe5

/-- The slot is a live one with no other attribute, and its directory a tidy one. -/
structure Plain (root : Directory v) (d : Dirent) : Prop where
  alive : live d = true
  attr : d.attr = FAT32_DIR
  tidy : ∀ D, Names root (fat32ClusterId d) D → Tidy (fat32ClusterId d) D

end Tree

section Steps

variable {v : Volume} {root D : Directory v} {p : PiDirent}

theorem clean_not_zero {c : UInt32} {cs : List UInt32} (chain : RawChain v.fat c cs) :
    significant c ≠ 0 := by
  have fits := v.fat_fits
  have inside := chain.head
  have two := UInt32.le_iff_toNat_le.mp inside.1
  intro zero
  rw [significant_of_lt (by omega)] at zero
  rw [zero] at two
  exact absurd two (by decide)

theorem Tidy.names {c : UInt32} (tidy : Tidy c D) (names : Names root c D) :
    significant c = D.start := by
  cases names with
  | zero zero => exact (clean_not_zero tidy.1 zero).elim
  | own start => exact start

theorem opens_iff (d : Dirent) (names : Names root (fat32ClusterId d) D) {heap : Heap}
    (room : heap.serves D.listingRequests = true) :
    ((direntConvert d).isDirP = true ∧ Gives (fat32Readdir v heap (direntConvert d)) D.listing) ↔
      d.attr = FAT32_DIR ∧ Tidy (fat32ClusterId d) D := by
  have flag : (direntConvert d).isDirP = true ↔ d.attr = FAT32_DIR := beq_iff_eq
  rw [← flag]
  refine and_congr_right fun dir => ?_
  cases names with
  | own start =>
    exact (readdir_exact_iff D heap (direntConvert d) dir start).trans (and_iff_right room)
  | zero zero =>
    constructor
    · rintro ⟨_, lists⟩
      rw [readdir_eq dir] at lists
      obtain ⟨_, dirents, _⟩ := bind_returns_ok.mp lists
      obtain ⟨cs, _, chain, _⟩ := getDirents_returns.mp dirents
      exact (clean_not_zero chain zero).elim
    · intro tidy
      exact (clean_not_zero tidy.1 zero).elim

/-- Where a walk has come to: a directory of the tree that can be listed. -/
def At (root : Directory v) (p : PiDirent) : Prop :=
  p.isDirP = true ∧ ∃ D, InTree root D ∧ significant p.clusterId = D.start ∧ Tidy p.clusterId D

theorem returned_slot (place : Tidy p.clusterId D) {d : Dirent} (returned : Returned v p d)
    (alive : live d = true) : d ∈ D.slots := by
  have seen : ∀ heap xs rest, Looks v heap p.clusterId xs rest → d ∈ xs → d ∈ D.slots := by
    rintro heap xs rest ⟨cs, bytes, chain, content, _, _, rfl⟩ member
    cases chain.unique place.1
    rw [D.content] at content
    cases content
    rw [direntsIn_eq, Directory.seen] at member
    rcases List.mem_append.mp member with own | unused
    · exact own
    · have never : live neverUsed = false := by decide
      rw [List.eq_of_mem_replicate unused, never] at alive
      cases alive
  cases returned with
  | readdir looks _ member _ => exact seen _ _ _ looks member
  | stat looks _ first => exact seen _ _ _ looks (List.mem_of_find?_eq_some first)

theorem at_step (tree : TreeOk root) (place : At root p) {d : Dirent} (returned : Returned v p d)
    (dir : isRegular d = false) (plain : Plain root d) : At root (direntConvert d) := by
  obtain ⟨_, D, inside, _, tidy⟩ := place
  have member := returned_slot tidy returned plain.alive
  obtain ⟨E, names⟩ := tree D inside d member plain.alive dir
  have tidy' := plain.tidy E names
  exact ⟨beq_iff_eq.mpr plain.attr, E, .child inside member plain.alive dir names,
    tidy'.names names, tidy'⟩

theorem at_run (tree : TreeOk root) (start : significant v.rootDirFirstCluster = root.start)
    (tidy : Tidy v.rootDirFirstCluster root) (run : Navigates v (Plain root) p) : At root p := by
  induction run with
  | root starts =>
    rw [fat32GetRoot, v.mounted, assert_true, pure_bind] at starts
    cases returns_pure.mp starts
    exact ⟨rfl, root, .root, start, tidy⟩
  | step _ returned dir plain ih => exact at_step tree ih returned dir plain

end Steps

/-- Every walk from a tidy root, all of whose steps go by plain slots, comes only to
handles that open what they stand for. -/
theorem navigation_closed {v : Volume} (root : Directory v)
    (start : significant v.rootDirFirstCluster = root.start) (tree : TreeOk root)
    (tidy : Tidy v.rootDirFirstCluster root) {p : PiDirent}
    (run : Navigates v (Plain root) p) : Opens root p := by
  obtain ⟨dir, D, _, names, tidy⟩ := at_run tree start tidy run
  exact ⟨dir, D, .own names, fun heap room =>
    (readdir_exact_iff D heap p dir names).mpr ⟨room, tidy⟩⟩

section Small

theorem Directory.unique {v : Volume} (D : Directory v) {E : Directory v}
    (same : D.start = E.start) : D.clusters = E.clusters ∧ D.slots = E.slots := by
  have chain := E.chain
  rw [← same] at chain
  have clusters := D.chain.unique chain
  have content := E.content
  rw [← clusters, D.content] at content
  exact ⟨clusters, by rw [Directory.slots, Directory.slots, Option.some.inj content]⟩

theorem tree_of_one {v : Volume} {root sub : Directory v}
    (one : ∀ d ∈ root.slots, live d = true → isRegular d = false →
      significant (fat32ClusterId d) = sub.start)
    (not_zero : sub.start ≠ 0) (leaf : ∀ d ∈ sub.slots, live d = false) : TreeOk root := by
  have places : ∀ D, InTree root D → D.slots = root.slots ∨ D.slots = sub.slots := by
    intro D inside
    induction inside with
    | root => exact .inl rfl
    | @child D E d _ member alive dir names ih =>
      rcases ih with same | same
      · rw [same] at member
        have cluster := one d member alive dir
        cases names with
        | zero zero => exact (not_zero (cluster.symm.trans zero)).elim
        | own start => exact .inr (sub.unique (cluster.symm.trans start)).2.symm
      · rw [same] at member
        rw [leaf d member] at alive
        cases alive
  intro D inside d member alive dir
  rcases places D inside with same | same
  · rw [same] at member
    exact ⟨sub, .own (one d member alive dir)⟩
  · rw [same] at member
    rw [leaf d member] at alive
    cases alive

theorem looks_clean {v : Volume} {heap : Heap} {p : PiDirent} (D : Directory v)
    (clean : RawChain v.fat p.clusterId D.clusters)
    (served : heap.serves [v.allocation D.clusters] = true) :
    Looks v heap p.clusterId D.seen (heap.after (v.allocation D.clusters)) :=
  looks_iff.mpr ⟨_, _, getDirents_clean D clean served, (direntsIn_eq D _).symm⟩

def subBytes (attr : UInt8) : List UInt8 := slotOf [0x41] attr 3 0

def subSlot (attr : UInt8) : Dirent := direntAt fun j => (subBytes attr).getD j 0

def treeVolume (attr : UInt8) : Volume :=
  smallVolume [0x0FFFFFF8, 0x0FFFFFFF, 0x0FFFFFFF, 0x0FFFFFFF] four_words_fit [subBytes attr, []]

def treeRoot (attr : UInt8) : Directory (treeVolume attr) :=
  smallRoot 0x0FFFFFFF root_word end_mark_last (subBytes attr)

def treeSub (attr : UInt8) : Directory (treeVolume attr) where
  start := 3
  clusters := [3]
  bytes := (sectorOf []).1
  chain := .last (by decide) rfl end_mark_last
  content := by
    rw [Volume.content, treeVolume, smallVolume_cluster]
    simp [Volume.content]
  small := by
    rw [(sectorOf []).2]
    decide

theorem treeVolume_wellFormed (attr : UInt8) : WellFormed (treeVolume attr) :=
  smallVolume_wellFormed (Nat.le_refl 4)

theorem treeSub_unused (attr : UInt8) :
    ∀ d ∈ (treeSub attr).slots, live d = false ∧ d.firstByte ≠ 0xe5 := by
  have all : ∀ d ∈ slots (sectorOf []).1, live d = false ∧ d.firstByte ≠ 0xe5 := by decide +kernel
  exact all

theorem treeRoot_chain (attr : UInt8) : RawChain (treeVolume attr).fat 2 [2] :=
  .last (by decide) rfl (by decide)

theorem treeRoot_tidy {attr : UInt8} (noDeleted : ∀ d ∈ slots (sectorOf (subBytes attr)).1,
    fat32DirentIsLfn d = false → isLabel d = false → d.firstByte ≠ 0xe5) :
    Tidy (treeVolume attr).rootDirFirstCluster (treeRoot attr) :=
  ⟨treeRoot_chain attr, noDeleted⟩

theorem treeRoot_served (attr : UInt8) :
    smallHeap.serves (treeRoot attr).listingRequests = true := by
  have slots : (treeVolume attr).allocation (treeRoot attr).clusters = 1024 :=
    (by decide : UInt32.ofNat 2 * 1 * 512 = 1024)
  rw [Directory.listingRequests, slots]
  exact small_heap_serves (by decide) (by decide)

theorem sub_start (attr : UInt8) : (treeSub attr).start ≠ 0 :=
  (by decide : (3 : UInt32) ≠ 0)

theorem treeRoot_ok {attr : UInt8} (one : ∀ d ∈ slots (sectorOf (subBytes attr)).1,
    live d = true → isRegular d = false → significant (fat32ClusterId d) = 3) :
    TreeOk (treeRoot attr) := by
  have leaf : ∀ d ∈ (treeSub attr).slots, live d = false :=
    fun d member => (treeSub_unused attr d member).1
  have entry : ∀ d ∈ (treeRoot attr).slots, live d = true → isRegular d = false →
      significant (fat32ClusterId d) = (treeSub attr).start := one
  exact tree_of_one entry (sub_start attr) leaf

theorem subSlot_returned (attr : UInt8) (passes : listed (subSlot attr) = true)
    (first : subSlot attr ∈ slots (sectorOf (subBytes attr)).1) :
    Returned (treeVolume attr) rootHandle (subSlot attr) := by
  have served := treeRoot_served attr
  have looks := looks_clean (p := rootHandle) (treeRoot attr) (treeRoot_chain attr)
    (Heap.serves_first served)
  have lists := readdir_clean (p := rootHandle) (treeRoot attr) rfl (treeRoot_chain attr) served
  rw [← validDirents_seen] at lists
  exact .readdir looks lists (List.mem_append_left _ first) passes

theorem read_only_directory_is_closed : ¬ ∀ (v : Volume), WellFormed v → ∀ (root : Directory v),
    significant v.rootDirFirstCluster = root.start → TreeOk root → ∀ (p : PiDirent),
    Navigates v (fun _ => True) p → Opens root p := by
  intro closed
  have returned := subSlot_returned 0x11 (by decide +kernel) (by decide +kernel)
  have opens := closed _ (treeVolume_wellFormed 0x11) (treeRoot 0x11) rfl
    (treeRoot_ok (by decide +kernel)) _
    (.step (.root (returns_pure.mpr rfl)) returned (by decide +kernel) trivial)
  have flag : (direntConvert (subSlot 0x11)).isDirP = false := by decide +kernel
  rw [opens.1] at flag
  cases flag

theorem directory_is_opened : Opens (treeRoot 0x10) (direntConvert (subSlot 0x10)) := by
  have returned := subSlot_returned 0x10 (by decide +kernel) (by decide +kernel)
  have cluster : fat32ClusterId (subSlot 0x10) = 3 := by decide +kernel
  have plain : Plain (treeRoot 0x10) (subSlot 0x10) := by
    refine ⟨by decide +kernel, by decide +kernel, fun D names => ?_⟩
    rw [cluster] at names ⊢
    cases names with
    | zero zero => cases zero
    | own start =>
      obtain ⟨clusters, same⟩ := (treeSub 0x10).unique start
      refine ⟨clusters ▸ .last (by decide) rfl (by decide), fun d member _ _ => ?_⟩
      rw [← same] at member
      exact (treeSub_unused 0x10 d member).2
  exact navigation_closed (treeRoot 0x10) rfl
    (treeRoot_ok (by decide +kernel)) (treeRoot_tidy (by decide +kernel))
    (.step (.root (returns_pure.mpr rfl)) returned (by decide +kernel) plain)

end Small

end EmbeddedOS.Fat32
