import Mathlib.Data.List.TakeWhile
import Mathlib.Data.List.Sort

/-! find-ttyusb.c: the search for the serial device among the names of /dev. -/
namespace EmbeddedOS.Ttyusb

abbrev Name := { s : List UInt8 // 0 ∉ s }

structure Dirent where
  dName : Name
  mtime : Int
  deriving DecidableEq

/-- What is in a directory: no name twice. -/
abbrev Listing := { ds : List Dirent // (ds.map Dirent.dName).Nodup }

section Strings

/-- The difference of the first bytes that differ, the NULs included. -/
def strcmp : List UInt8 → List UInt8 → Int
  | [], [] => 0
  | [], d :: _ => -d.toNat
  | c :: _, [] => c.toNat
  | c :: s, d :: t => if c = d then strcmp s t else c.toNat - d.toNat

def strncpy (buf s : List UInt8) (n : Nat) : List UInt8 :=
  s.take n ++ (List.replicate (n - s.length) 0 ++ buf.drop n)

def strcpy (buf : List UInt8) (off : Nat) (s : List UInt8) : List UInt8 :=
  buf.take off ++ (s ++ 0 :: buf.drop (off + s.length + 1))

def stringAt (buf : List UInt8) : List UInt8 := buf.takeWhile (· ≠ 0)

/-- Memory of this size, with any contents. -/
abbrev Malloc := { malloc : Nat → List UInt8 // ∀ n, (malloc n).length = n }

end Strings

section Search

def bytes (s : String) : List UInt8 := s.toList.map fun c => UInt8.ofNat c.toNat

def ttyusbPrefixes : List (List UInt8) :=
  [bytes "ttyUSB", bytes "ttyACM", bytes "cu.SLAB_USB", bytes "cu.usbserial",
    bytes "cu.usbserial-120"]

def scan : List (List UInt8) → Dirent → Bool
  | [], _ => false
  | known :: rest, d => if strcmp known d.dName.val = 0 then true else scan rest d

def filter (d : Dirent) : Bool := scan ttyusbPrefixes d

def alphasort (a b : Dirent) : Bool := strcmp a.dName.val b.dName.val ≤ 0

def scandir (listing : Listing) (select : Dirent → Bool)
    (compar : Dirent → Dirent → Bool) : List Dirent :=
  (listing.val.filter select).mergeSort compar

def devPrefix : List UInt8 := bytes "/dev/"

/-- none where it panics. -/
def findTtyusb (heap : Malloc) (listing : Listing) : Option (List UInt8) :=
  match scandir listing filter alphasort with
  | [d] =>
    let name := heap.val (d.dName.val.length + devPrefix.length + 1)
    let name := strncpy name devPrefix devPrefix.length
    some (stringAt (strcpy name devPrefix.length d.dName.val))
  | _ => none

def findTtyusbLast (heap : Malloc) (listing : Listing) : Option (List UInt8) := findTtyusb heap listing

def findTtyusbFirst (heap : Malloc) (listing : Listing) : Option (List UInt8) := findTtyusb heap listing

end Search

section Purpose

def known (d : Dirent) : Bool := ttyusbPrefixes.any fun start => start.isPrefixOf d.dName.val

def path (d : Dirent) : List UInt8 := devPrefix ++ d.dName.val

def Single (select : Dirent → Bool) (listing : Listing) : Prop := ∃ d, listing.val.filter select = [d]

/-- The path of the only known entry, and a failure where there is none or several. -/
def FindsOnly (listing : Listing) (result : Option (List UInt8)) : Prop :=
  (∀ d, listing.val.filter known = [d] → result = some (path d)) ∧
    (¬ Single known listing → result = none)

/-- A known entry whose modification time is this far out. -/
def Extreme (le : Int → Int → Prop) (listing : Listing) (d : Dirent) : Prop :=
  d ∈ listing.val.filter known ∧ ∀ e ∈ listing.val.filter known, le e.mtime d.mtime

/-- Where some entry is known, the path of the one with the extreme modification time. -/
def FindsExtreme (le : Int → Int → Prop) (listing : Listing) (result : Option (List UInt8)) : Prop :=
  listing.val.filter known ≠ [] → ∃ d, Extreme le listing d ∧ result = some (path d)

end Purpose

section Comparison

theorem strcmp_self (s : List UInt8) : strcmp s s = 0 := by
  induction s with
  | nil => rfl
  | cons c s ih => rw [strcmp, if_pos rfl, ih]

theorem strcmp_eq_zero {s t : List UInt8} (left : 0 ∉ s) (right : 0 ∉ t) : strcmp s t = 0 ↔ s = t := by
  constructor
  · intro equal
    induction s, t using strcmp.induct with
    | case1 => rfl
    | case2 d t =>
      have zero : d = 0 := by
        rw [← UInt8.toNat_inj]
        simpa [strcmp] using equal
      exact absurd (zero ▸ List.mem_cons_self) right
    | case3 c s =>
      have zero : c = 0 := by
        rw [← UInt8.toNat_inj]
        simpa [strcmp] using equal
      exact absurd (zero ▸ List.mem_cons_self) left
    | case4 s c t ih =>
      rw [strcmp, if_pos rfl] at equal
      rw [ih (fun inside => left (List.mem_cons_of_mem c inside))
        (fun inside => right (List.mem_cons_of_mem c inside)) equal]
    | case5 c s d t other =>
      rw [strcmp, if_neg other] at equal
      exact absurd (UInt8.toNat_inj.mp (by omega)) other
  · rintro rfl
    exact strcmp_self s

theorem prefixes_end : ∀ start ∈ ttyusbPrefixes, (0 : UInt8) ∉ start := by decide

theorem scan_iff {table : List (List UInt8)} (ends : ∀ start ∈ table, (0 : UInt8) ∉ start)
    (d : Dirent) :
    scan table d = true ↔ d.dName.val ∈ table := by
  induction table with
  | nil => simp [scan]
  | cons start rest ih =>
    obtain ⟨first, ends⟩ := List.forall_mem_cons.mp ends
    have head := strcmp_eq_zero first d.dName.property
    rw [scan, List.mem_cons]
    split
    · rename_i same
      exact iff_of_true rfl (Or.inl (head.mp same).symm)
    · rename_i differ
      have other : d.dName.val ≠ start := fun same => differ (head.mpr same.symm)
      rw [ih ends, or_iff_right other]

/-- Only the names of the table itself are let through. -/
theorem filter_iff (d : Dirent) : filter d = true ↔ d.dName.val ∈ ttyusbPrefixes :=
  scan_iff prefixes_end d

theorem filter_known {d : Dirent} (passed : filter d = true) : known d = true := by
  rw [known, List.any_eq_true]
  exact ⟨_, (filter_iff d).mp passed, by simp⟩

end Comparison

section Result

theorem copied (buf : List UInt8) (d : Dirent) :
    stringAt (strcpy (strncpy buf devPrefix devPrefix.length) devPrefix.length d.dName.val) = path d := by
  have front : (strncpy buf devPrefix devPrefix.length).take devPrefix.length = devPrefix := by
    rw [strncpy, List.take_length, List.take_left]
  have clean : ∀ c ∈ path d, decide (c ≠ 0) = true := by
    intro c inside
    have start : (0 : UInt8) ∉ devPrefix := by decide
    rw [decide_eq_true_eq]
    rintro rfl
    exact (List.mem_append.mp inside).elim start d.dName.property
  rw [stringAt, strcpy, front, ← List.append_assoc, ← path, List.takeWhile_append_of_pos clean]
  simp

theorem scandir_single {listing : Listing} {d : Dirent} :
    scandir listing filter alphasort = [d] ↔ listing.val.filter filter = [d] := by
  have same : (scandir listing filter alphasort).Perm (listing.val.filter filter) :=
    List.mergeSort_perm _ _
  constructor
  · intro single
    exact List.perm_singleton.mp (single ▸ same.symm)
  · intro single
    exact List.perm_singleton.mp (single ▸ same)

theorem find_single (heap : Malloc) {listing : Listing} {d : Dirent}
    (single : listing.val.filter filter = [d]) : findTtyusb heap listing = some (path d) := by
  rw [findTtyusb, scandir_single.mpr single]
  exact congrArg some (copied _ d)

theorem find_fails (heap : Malloc) {listing : Listing} (no : ¬ Single filter listing) :
    findTtyusb heap listing = none := by
  rw [findTtyusb]
  split
  · rename_i d single
    exact absurd ⟨d, scandir_single.mp single⟩ no
  · rfl

end Result

section Searches

theorem single_known {listing : Listing} {d : Dirent} (single : listing.val.filter filter = [d]) :
    d ∈ listing.val ∧ known d = true := by
  have inside : d ∈ listing.val.filter filter := single ▸ List.mem_singleton_self d
  obtain ⟨inside, passed⟩ := List.mem_filter.mp inside
  exact ⟨inside, filter_known passed⟩

theorem only_iff (heap : Malloc) (listing : Listing) :
    FindsOnly listing (findTtyusb heap listing) ↔ (Single filter listing ↔ Single known listing) := by
  constructor
  · rintro ⟨finds, fails⟩
    constructor
    · rintro ⟨d, single⟩
      by_contra no
      exact absurd (fails no) (by simp [find_single heap single])
    · rintro ⟨d, single⟩
      by_contra no
      exact absurd (finds d single) (by simp [find_fails heap no])
  · intro both
    constructor
    · intro d single
      obtain ⟨e, passed⟩ := both.mpr ⟨d, single⟩
      have inside : e ∈ listing.val.filter known := List.mem_filter.mpr (single_known passed)
      rw [single, List.mem_singleton] at inside
      rw [find_single heap passed, inside]
    · intro no
      exact find_fails heap fun passed => no (both.mp passed)

theorem same_entry {listing : Listing} {d e : Dirent} (inside : d ∈ listing.val)
    (inside' : e ∈ listing.val) (same : path d = path e) : d = e :=
  List.inj_on_of_nodup_map listing.property inside inside'
    (Subtype.ext (List.append_cancel_left same))

theorem extreme_iff (le : Int → Int → Prop) (heap : Malloc) (listing : Listing) :
    FindsExtreme le listing (findTtyusb heap listing) ↔
      listing.val.filter known = [] ∨ ∃ d, listing.val.filter filter = [d] ∧ Extreme le listing d := by
  constructor
  · intro finds
    by_cases none : listing.val.filter known = []
    · exact Or.inl none
    · obtain ⟨d, extreme, result⟩ := finds none
      by_cases single : Single filter listing
      · obtain ⟨e, single⟩ := single
        rw [find_single heap single, Option.some_inj] at result
        have same := same_entry (single_known single).1 (List.mem_filter.mp extreme.1).1 result
        exact Or.inr ⟨d, same ▸ single, extreme⟩
      · rw [find_fails heap single] at result
        cases result
  · rintro (none | ⟨d, single, extreme⟩) some
    · exact absurd none some
    · exact ⟨d, extreme, find_single heap single⟩

/-- The three searches, each on exactly these listings. -/
theorem searches_iff (heap : Malloc) (listing : Listing) :
    (FindsOnly listing (findTtyusb heap listing) ↔ (Single filter listing ↔ Single known listing)) ∧
    (FindsExtreme (· ≤ ·) listing (findTtyusbLast heap listing) ↔
      listing.val.filter known = [] ∨
        ∃ d, listing.val.filter filter = [d] ∧ Extreme (· ≤ ·) listing d) ∧
    (FindsExtreme (· ≥ ·) listing (findTtyusbFirst heap listing) ↔
      listing.val.filter known = [] ∨
        ∃ d, listing.val.filter filter = [d] ∧ Extreme (· ≥ ·) listing d) :=
  ⟨only_iff heap listing, extreme_iff _ heap listing, extreme_iff _ heap listing⟩

def oneDevice : Listing := ⟨[⟨⟨bytes "ttyUSB0", by decide⟩, 0⟩], by decide⟩

def zeros : Malloc := ⟨fun n => List.replicate n 0, fun _ => List.length_replicate⟩

/-- The device is found by none of the searches. -/
theorem ttyUSB0_not_found : ¬ FindsOnly oneDevice (findTtyusb zeros oneDevice) ∧
    ¬ FindsExtreme (· ≤ ·) oneDevice (findTtyusbLast zeros oneDevice) ∧
    ¬ FindsExtreme (· ≥ ·) oneDevice (findTtyusbFirst zeros oneDevice) := by
  have fails : findTtyusb zeros oneDevice = none := by
    apply find_fails
    rintro ⟨d, single⟩
    cases single
  have some : oneDevice.val.filter known ≠ [] := by decide
  refine ⟨?_, ?_, ?_⟩
  · rintro ⟨finds, _⟩
    have found := finds _ (show oneDevice.val.filter known = [_] from rfl)
    cases fails.symm.trans found
  · intro finds
    obtain ⟨d, _, found⟩ := finds some
    cases fails.symm.trans found
  · intro finds
    obtain ⟨d, _, found⟩ := finds some
    cases fails.symm.trans found

end Searches

end EmbeddedOS.Ttyusb
