import EmbeddedOS.Fat32.File
import EmbeddedOS.Fat32.Twins

/-! The three calls on two volumes that differ in reserved bits only. -/
namespace EmbeddedOS.Fat32
open Fueled Fueled.Comp

section Slots

/-- A slot without the reserved bits of its first cluster. -/
def Dirent.reduced (d : Dirent) : Dirent := { d with hiStart := d.hiStart &&& 0x0fff }

theorem leHalf_low (a b : UInt8) : leHalf a b &&& 0x0fff = leHalf a (b &&& 0x0f) := by
  apply UInt16.eq_of_toBitVec_eq
  simp only [leHalf]
  ext i hi
  interval_cases i <;> simp

theorem masked_getD {xs ys : List UInt8} (same : masked xs = masked ys) (i : Nat) :
    (if i % 32 = 21 then xs.getD i 0 &&& 0x0f else xs.getD i 0) =
      if i % 32 = 21 then ys.getD i 0 &&& 0x0f else ys.getD i 0 := by
  have entry := congrArg (·[i]?.getD 0) same
  simp only [masked, List.getElem?_mapIdx] at entry
  rw [List.getD_eq_getElem?_getD, List.getD_eq_getElem?_getD]
  cases one : xs[i]? with
  | none =>
    cases other : ys[i]? with
    | none => rfl
    | some b => simpa [one, other] using entry
  | some a =>
    cases other : ys[i]? with
    | none => simpa [one, other] using entry
    | some b => simpa [one, other] using entry

theorem direntAt_reduced {f g : Nat → UInt8} (same : ∀ j < 32, j ≠ 21 → f j = g j)
    (top : f 21 &&& 0x0f = g 21 &&& 0x0f) : (direntAt f).reduced = (direntAt g).reduced := by
  have names : (List.range 11).map f = (List.range 11).map g := by
    apply List.map_congr_left
    intro j member
    have small := List.mem_range.mp member
    exact same j (by omega) (by omega)
  simp only [Dirent.reduced, direntAt, names, same 11 (by decide) (by decide),
    same 20 (by decide) (by decide), leHalf_low _ (f 21), leHalf_low _ (g 21), top,
    same 26 (by decide) (by decide),
    same 27 (by decide) (by decide), same 28 (by decide) (by decide),
    same 29 (by decide) (by decide), same 30 (by decide) (by decide),
    same 31 (by decide) (by decide)]

theorem direntsIn_reduced {one other : Buf} (twins : BufTwins one other) (n : UInt32) :
    (direntsIn one n).map Dirent.reduced = (direntsIn other n).map Dirent.reduced := by
  unfold direntsIn
  rw [List.map_map, List.map_map]
  apply List.map_congr_left
  intro i _
  apply direntAt_reduced
  · intro j small other
    have entry := masked_getD twins.bytes (32 * i + j)
    rw [if_neg (by omega), if_neg (by omega)] at entry
    exact entry
  · have entry := masked_getD twins.bytes (32 * i + 21)
    rw [if_pos (by omega), if_pos (by omega)] at entry
    exact entry

theorem converted_iff {xs ys : List Dirent} (same : xs.map Dirent.reduced = ys.map Dirent.reduced) :
    xs.map direntConvert = ys.map direntConvert ↔ xs.map fat32ClusterId = ys.map fat32ClusterId := by
  have split : ∀ zs : List Dirent, zs.map direntConvert = List.zipWith
      (fun d c => { direntConvert d with clusterId := c })
      (zs.map Dirent.reduced) (zs.map fat32ClusterId) := by
    intro zs
    rw [List.zipWith_map, List.zipWith_self]
    rfl
  constructor
  · intro converted
    have clusters := congrArg (List.map PiDirent.clusterId) converted
    rwa [List.map_map, List.map_map] at clusters
  · intro clusters
    rw [split, split, same, clusters]

end Slots

section Looks

variable {directories : UInt32 → Prop} {v w : Volume} {heap rest : Heap} {c : UInt32}
  {xs ys : List Dirent}

/-- The slots that the driver looks at when it comes to read a chain from c on, and the heap
behind them. -/
def Looks (v : Volume) (heap : Heap) (c : UInt32) (xs : List Dirent) (rest : Heap) : Prop :=
  ∃ cs bytes, RawChain v.fat c cs ∧ v.content cs = some bytes ∧
    heap.serves [v.allocation cs] = true ∧ rest = heap.after (v.allocation cs) ∧
    xs = direntsIn ⟨(v.allocation cs).toNat, bytes⟩ (v.allocation cs / 32)

theorem looks_iff : Looks v heap c xs rest ↔
    ∃ buf n, (getDirents v heap c).Returns (.ok (buf, n, rest)) ∧ xs = direntsIn buf n := by
  constructor
  · rintro ⟨cs, bytes, chain, content, served, rfl, rfl⟩
    exact ⟨_, _, getDirents_returns.mpr ⟨cs, bytes, chain, content, served, rfl⟩, rfl⟩
  · rintro ⟨buf, n, runs, rfl⟩
    obtain ⟨cs, bytes, chain, content, served, eq⟩ := getDirents_returns.mp runs
    cases eq
    exact ⟨cs, bytes, chain, content, served, rfl, rfl⟩

theorem getDirents_tame_iff : (∀ i, ¬ (getDirents v heap c).Returns (.wild i)) ↔
    Within v heap c (v.allocation []) := by
  rw [getDirents_eq]
  constructor
  · exact fun tame => within_of_tame _ fun i astray => tame i (bind_wild astray _)
  · intro within i astray
    rcases bind_returns_wild.mp astray with astray | ⟨_, _, astray⟩
    · exact fetch_tame within i astray
    · cases returns_pure.mp astray

theorem getDirents_simulates (twins : Twins directories v w) (stays : Stays v.fat c)
    (stays' : Stays w.fat c) :
    Simulates FetchTwins (getDirents v heap c) (getDirents w heap c) := by
  rw [getDirents_eq, getDirents_eq, ← twins.sectors, v.bytesPerSec_eq, w.bytesPerSec_eq]
  refine (fetch_simulates twins stays stays' _).bind ?_
  rintro ⟨buf, n, rest⟩ ⟨buf', _⟩ _ _ ⟨bufs, rfl⟩
  exact simulates_pure ⟨bufs, rfl⟩

theorem Looks.twin (twins : Twins directories v w) (stays : Stays v.fat c) (stays' : Stays w.fat c)
    (looks : Looks v heap c xs rest) :
    ∃ ys, Looks w heap c ys rest ∧ xs.map Dirent.reduced = ys.map Dirent.reduced := by
  obtain ⟨buf, n, runs, rfl⟩ := looks_iff.mp looks
  obtain ⟨_, runs', related⟩ := getDirents_simulates twins stays stays' _ runs
  cases related with
  | @ok _ b values =>
    obtain ⟨buf', _⟩ := b
    obtain ⟨bufs, rfl⟩ := values
    exact ⟨_, looks_iff.mpr ⟨buf', n, runs', rfl⟩, direntsIn_reduced bufs n⟩

theorem looks_reduced (twins : Twins directories v w) (stays : Stays v.fat c)
    (stays' : Stays w.fat c) (looks : Looks v heap c xs rest) (looks' : Looks w heap c ys rest) :
    xs.map Dirent.reduced = ys.map Dirent.reduced := by
  obtain ⟨zs, twin, same⟩ := looks.twin twins stays stays'
  obtain ⟨_, _, runs, rfl⟩ := looks_iff.mp looks'
  obtain ⟨_, _, runs', rfl⟩ := looks_iff.mp twin
  cases returns_unique runs runs'
  exact same

end Looks

section Calls

variable {v : Volume} {heap rest : Heap} {p : PiDirent} {filename : CString} {xs : List Dirent}
  {g : Dirent}

theorem readdir_eq (dir : p.isDirP = true) : fat32Readdir v heap p =
    getDirents v heap p.clusterId >>= fun r => kmalloc r.2.2 (r.2.1 * 44) >>= fun s =>
      pure (validDirents (direntsIn r.1 r.2.1), s.2) := by
  rw [fat32Readdir, v.mounted, dir, assert_true, pure_bind, pure_bind]

theorem slot_count (buf : Buf) (n : UInt32) : UInt32.ofNat (direntsIn buf n).length = n := by
  rw [direntsIn, List.length_map, List.length_range, UInt32.ofNat_toNat]

theorem readdir_ok (dir : p.isDirP = true) (looks : Looks v heap p.clusterId xs rest)
    (room : rest.serves [UInt32.ofNat xs.length * 44] = true) :
    Gives (fat32Readdir v heap p) (validDirents xs) := by
  obtain ⟨buf, n, runs, rfl⟩ := looks_iff.mp looks
  rw [slot_count] at room
  refine ⟨rest.after (n * 44), ?_⟩
  rw [readdir_eq dir, bind_ok runs]
  exact (bind_ok (kmalloc_returns.mpr ⟨room, rfl⟩) _ _).mpr (returns_pure.mpr rfl)

/-- What fat32_stat does behind get_dirents. -/
def lookup (heap : Heap) (xs : List Dirent) (filename : CString) : Comp (Option PiDirent × Heap) :=
  match xs.find? (named filename) with
  | none => pure (none, heap)
  | some g => kmalloc heap 44 >>= fun r => pure (some (direntConvert g), r.2)

theorem stat_eq (dir : p.isDirP = true) : fat32Stat v heap p filename =
    getDirents v heap p.clusterId >>= fun r => lookup r.2.2 (direntsIn r.1 r.2.1) filename := by
  rw [fat32Stat, v.mounted, dir, assert_true, pure_bind, pure_bind]
  congr 1
  funext listing
  obtain ⟨buf, n, rest⟩ := listing
  have look : findDirentWithName (direntsIn buf n) filename =
      (direntsIn buf n).findIdx? (named filename) := rfl
  simp only [lookup, look, ← find_findIdx]
  cases found : (direntsIn buf n).findIdx? (named filename) with
  | none => rfl
  | some i =>
    have inside := (List.findIdx?_eq_some_iff_getElem.mp found).1
    rw [Option.bind_some]
    simp only [List.getElem?_eq_getElem inside]
    rfl

theorem stat_found (dir : p.isDirP = true) (looks : Looks v heap p.clusterId xs rest)
    (first : xs.find? (named filename) = some g) (room : rest.serves [44] = true) :
    (fat32Stat v heap p filename).Returns (.ok (some (direntConvert g), rest.after 44)) := by
  obtain ⟨buf, n, runs, rfl⟩ := looks_iff.mp looks
  rw [stat_eq dir, bind_ok runs, lookup, first]
  exact (bind_ok (kmalloc_returns.mpr ⟨room, rfl⟩) _ _).mpr (returns_pure.mpr rfl)

theorem stat_absent (dir : p.isDirP = true) (looks : Looks v heap p.clusterId xs rest)
    (absent : xs.find? (named filename) = none) :
    (fat32Stat v heap p filename).Returns (.ok (none, rest)) := by
  obtain ⟨buf, n, runs, rfl⟩ := looks_iff.mp looks
  rw [stat_eq dir, bind_ok runs, lookup, absent]
  exact returns_pure.mpr rfl

theorem looks_of_stat (dir : p.isDirP = true) {r : Option PiDirent × Heap}
    (stat : (fat32Stat v heap p filename).Returns (.ok r)) :
    ∃ xs rest, Looks v heap p.clusterId xs rest ∧
      (xs.find? (named filename) = none ∧ r = (none, rest) ∨
        ∃ g, xs.find? (named filename) = some g ∧ rest.serves [44] = true ∧
          r = (some (direntConvert g), rest.after 44)) := by
  rw [stat_eq dir] at stat
  obtain ⟨⟨buf, n, rest⟩, runs, stat⟩ := bind_returns_ok.mp stat
  refine ⟨_, rest, looks_iff.mpr ⟨buf, n, runs, rfl⟩, ?_⟩
  rw [lookup] at stat
  cases found : (direntsIn buf n).find? (named filename) with
  | none =>
    rw [found] at stat
    cases returns_pure.mp stat
    exact .inl ⟨rfl, rfl⟩
  | some g =>
    rw [found] at stat
    obtain ⟨_, allocated, stat⟩ := bind_returns_ok.mp stat
    obtain ⟨room, rfl⟩ := kmalloc_returns.mp allocated
    cases returns_pure.mp stat
    exact .inr ⟨g, rfl, room, rfl⟩

theorem read_eq (dir : p.isDirP = true) : fat32Read v heap p filename =
    fat32Stat v heap p filename >>= fun found => match found.1 with
      | none => wild 0
      | some d => fetch v found.2 d.clusterId (fun _ => d.nbytes) >>= fun r =>
          kmalloc r.2.2 12 >>= fun s =>
            pure (some ⟨r.1, r.2.1 * v.sectorsPerCluster * v.bytesPerSec, d.nbytes⟩, s.2) := by
  rw [fat32Read, v.mounted, dir, assert_true, pure_bind, pure_bind]
  congr 1
  funext answer
  obtain ⟨found, rest⟩ := answer
  cases found with
  | none => rfl
  | some d => simp only [fetch, bind_assoc, pure_bind]

end Calls

section Results

def PiFile.view (f : PiFile) : List UInt8 × UInt32 × UInt32 := (f.contents, f.nAlloc, f.nData)

/-- The three calls end in the same way on both volumes, and never by an access outside
the table or through a null pointer. -/
structure SameResults (v w : Volume) (heap : Heap) (p : PiDirent) (filename : CString) : Prop where
  readdir : Alike Eq (fat32Readdir v heap p) (fat32Readdir w heap p)
  stat : Alike Eq (fat32Stat v heap p filename) (fat32Stat w heap p filename)
  read : Alike (fun f g => f.1.map PiFile.view = g.1.map PiFile.view)
    (fat32Read v heap p filename) (fat32Read w heap p filename)

/-- From this cluster on, no word leads out of the tables, and what is read has the same
first bytes. -/
structure FileTogether (v w : Volume) (heap : Heap) (c nbytes : UInt32) : Prop where
  within : Within v heap c nbytes
  within' : Within w heap c nbytes
  bytes : ∀ cs cs' xs ys, heap.serves [nbytes, 12] = true → RawChain v.fat c cs →
    RawChain w.fat c cs' → v.content cs = some xs → w.content cs' = some ys →
    firstBytes xs nbytes = firstBytes ys nbytes

/-- No reserved bit makes a difference: none on the way through the directory, none in
an entry that is returned, none on the way through the file. The name is that of a slot. -/
structure Undisturbed (v w : Volume) (heap : Heap) (p : PiDirent) (filename : CString) : Prop where
  within : Within v heap p.clusterId (v.allocation [])
  within' : Within w heap p.clusterId (w.allocation [])
  listed : ∀ xs ys rest, Looks v heap p.clusterId xs rest → Looks w heap p.clusterId ys rest →
    rest.serves [UInt32.ofNat xs.length * 44] = true →
    (xs.filter listed).map fat32ClusterId = (ys.filter listed).map fat32ClusterId
  present : ∀ xs rest, Looks v heap p.clusterId xs rest → xs.find? (named filename) ≠ none
  found : ∀ xs ys rest, Looks v heap p.clusterId xs rest → Looks w heap p.clusterId ys rest →
    rest.serves [44] = true →
    (xs.find? (named filename)).map fat32ClusterId = (ys.find? (named filename)).map fat32ClusterId
  file : ∀ xs rest g, Looks v heap p.clusterId xs rest → xs.find? (named filename) = some g →
    rest.serves [44] = true → FileTogether v w (rest.after 44) (fat32ClusterId g) g.fileNbytes

variable {directories : UInt32 → Prop} {v w : Volume} {heap : Heap} {p : PiDirent}
  {filename : CString} {xs ys : List Dirent}

theorem listings_iff (same : xs.map Dirent.reduced = ys.map Dirent.reduced) :
    validDirents xs = validDirents ys ↔
      (xs.filter listed).map fat32ClusterId = (ys.filter listed).map fat32ClusterId := by
  rw [validDirents_eq, validDirents_eq]
  apply converted_iff
  have passes : listed = listed ∘ Dirent.reduced := rfl
  rw [passes, ← List.filter_map, ← List.filter_map, same]

variable (filename) in
theorem found_reduced (same : xs.map Dirent.reduced = ys.map Dirent.reduced) :
    (xs.find? (named filename)).map Dirent.reduced =
      (ys.find? (named filename)).map Dirent.reduced := by
  have passes : named filename = named filename ∘ Dirent.reduced := rfl
  rw [passes, ← List.find?_map, ← List.find?_map, same]

variable (filename) in
theorem found_iff (same : xs.map Dirent.reduced = ys.map Dirent.reduced) :
    (xs.find? (named filename)).map direntConvert = (ys.find? (named filename)).map direntConvert ↔
      (xs.find? (named filename)).map fat32ClusterId =
        (ys.find? (named filename)).map fat32ClusterId := by
  have first := found_reduced filename same
  generalize xs.find? (named filename) = one, ys.find? (named filename) = other at first
  have lists : one.toList.map Dirent.reduced = other.toList.map Dirent.reduced := by
    rw [← Option.toList_map, ← Option.toList_map, first]
  have converted := converted_iff lists
  cases one with
  | none =>
    rw [Option.map_eq_none_iff.mp first.symm]
    simp
  | some g =>
    obtain ⟨h, rfl, _⟩ := Option.map_eq_some_iff.mp first.symm
    simpa using converted

theorem readdir_tame (dir : p.isDirP = true) (within : Within v heap p.clusterId (v.allocation []))
    (i : Nat) : ¬ (fat32Readdir v heap p).Returns (.wild i) := by
  intro astray
  rw [readdir_eq dir] at astray
  rcases bind_returns_wild.mp astray with astray | ⟨_, _, astray⟩
  · exact getDirents_tame_iff.mpr within i astray
  rcases bind_returns_wild.mp astray with astray | ⟨_, _, astray⟩
  · exact kmalloc_tame astray
  · cases returns_pure.mp astray

theorem lookup_tame (i : Nat) : ¬ (lookup heap xs filename).Returns (.wild i) := by
  intro astray
  rw [lookup] at astray
  cases found : xs.find? (named filename) with
  | none =>
    rw [found] at astray
    cases returns_pure.mp astray
  | some g =>
    rw [found] at astray
    rcases bind_returns_wild.mp astray with astray | ⟨_, _, astray⟩
    · exact kmalloc_tame astray
    · cases returns_pure.mp astray

theorem stat_tame (dir : p.isDirP = true) (within : Within v heap p.clusterId (v.allocation []))
    (i : Nat) : ¬ (fat32Stat v heap p filename).Returns (.wild i) := by
  intro astray
  rw [stat_eq dir] at astray
  rcases bind_returns_wild.mp astray with astray | ⟨_, _, astray⟩
  · exact getDirents_tame_iff.mpr within i astray
  · exact lookup_tame i astray

theorem Undisturbed.read_tame (dir : p.isDirP = true) (undisturbed : Undisturbed v w heap p filename)
    (i : Nat) : ¬ (fat32Read v heap p filename).Returns (.wild i) := by
  intro astray
  rw [read_eq dir] at astray
  rcases bind_returns_wild.mp astray with astray | ⟨_, stat, astray⟩
  · exact stat_tame dir undisturbed.within i astray
  obtain ⟨xs, rest, looks, ⟨absent, rfl⟩ | ⟨g, first, room, rfl⟩⟩ := looks_of_stat dir stat
  · exact undisturbed.present xs rest looks absent
  rcases bind_returns_wild.mp astray with astray | ⟨_, _, astray⟩
  · exact fetch_tame (undisturbed.file xs rest g looks first room).within i astray
  rcases bind_returns_wild.mp astray with astray | ⟨_, _, astray⟩
  · exact kmalloc_tame astray
  · cases returns_pure.mp astray

theorem readdir_simulates (twins : Twins directories v w) (dir : p.isDirP = true)
    (undisturbed : Undisturbed v w heap p filename) :
    Simulates Eq (fat32Readdir v heap p) (fat32Readdir w heap p) := by
  rw [readdir_eq dir, readdir_eq dir]
  refine (getDirents_simulates twins undisturbed.within.stays undisturbed.within'.stays).bind ?_
  rintro ⟨buf, n, rest⟩ ⟨buf', _⟩ runs runs' ⟨bufs, rfl⟩
  refine (simulates_self (kmalloc rest (n * 44))).bind ?_
  rintro s _ allocated _ rfl
  have room := (kmalloc_returns.mp allocated).1
  rw [← slot_count buf n] at room
  have same := (listings_iff (direntsIn_reduced bufs n)).mpr (undisturbed.listed _ _ rest
    (looks_iff.mpr ⟨buf, n, runs, rfl⟩) (looks_iff.mpr ⟨buf', n, runs', rfl⟩) room)
  exact simulates_pure (congrArg (·, s.2) same)

theorem lookup_simulates {rest : Heap} (same : xs.map Dirent.reduced = ys.map Dirent.reduced)
    (clusters : rest.serves [44] = true → (xs.find? (named filename)).map fat32ClusterId =
      (ys.find? (named filename)).map fat32ClusterId) :
    Simulates Eq (lookup rest xs filename) (lookup rest ys filename) := by
  have reduced := found_reduced filename same
  have converted := found_iff filename same
  rw [lookup, lookup]
  cases first : xs.find? (named filename) with
  | none =>
    rw [first] at reduced
    rw [Option.map_eq_none_iff.mp reduced.symm]
    exact simulates_pure rfl
  | some g =>
    rw [first] at reduced converted clusters
    obtain ⟨h, second, _⟩ := Option.map_eq_some_iff.mp reduced.symm
    rw [second] at converted clusters
    rw [second]
    refine (simulates_self (kmalloc rest 44)).bind ?_
    rintro s _ allocated _ rfl
    exact simulates_pure (congrArg (·, s.2) (converted.mpr (clusters (kmalloc_returns.mp allocated).1)))

theorem stat_simulates (twins : Twins directories v w) (dir : p.isDirP = true)
    (undisturbed : Undisturbed v w heap p filename) :
    Simulates Eq (fat32Stat v heap p filename) (fat32Stat w heap p filename) := by
  rw [stat_eq dir, stat_eq dir]
  refine (getDirents_simulates twins undisturbed.within.stays undisturbed.within'.stays).bind ?_
  rintro ⟨buf, n, rest⟩ ⟨buf', _⟩ runs runs' ⟨bufs, rfl⟩
  exact lookup_simulates (direntsIn_reduced bufs n) (undisturbed.found _ _ rest
    (looks_iff.mpr ⟨buf, n, runs, rfl⟩) (looks_iff.mpr ⟨buf', n, runs', rfl⟩))

theorem Undisturbed.symm (twins : Twins directories v w)
    (undisturbed : Undisturbed v w heap p filename) : Undisturbed w v heap p filename := by
  have back := fun ys rest (looks' : Looks w heap p.clusterId ys rest) =>
    looks'.twin twins.symm undisturbed.within'.stays undisturbed.within.stays
  refine ⟨undisturbed.within', undisturbed.within, ?_, ?_, ?_, ?_⟩
  · intro ys xs rest looks' looks room
    have same := looks_reduced twins undisturbed.within.stays undisturbed.within'.stays looks looks'
    have length : ys.length = xs.length := by simpa using (congrArg List.length same).symm
    rw [length] at room
    exact (undisturbed.listed xs ys rest looks looks' room).symm
  · intro ys rest looks' absent
    obtain ⟨xs, looks, same⟩ := back ys rest looks'
    have reduced := found_reduced filename same
    rw [absent] at reduced
    exact undisturbed.present xs rest looks (Option.map_eq_none_iff.mp reduced.symm)
  · exact fun ys xs rest looks' looks room =>
      (undisturbed.found xs ys rest looks looks' room).symm
  · intro ys rest h looks' first' room
    obtain ⟨xs, looks, same⟩ := back ys rest looks'
    have converted := (found_iff filename same.symm).mpr (undisturbed.found xs ys rest looks looks' room)
    rw [first'] at converted
    obtain ⟨g, first, eq⟩ := Option.map_eq_some_iff.mp converted
    obtain ⟨within, within', bytes⟩ := undisturbed.file xs rest g looks first room
    have cluster : fat32ClusterId g = fat32ClusterId h := congrArg PiDirent.clusterId eq
    have size : g.fileNbytes = h.fileNbytes := congrArg PiDirent.nbytes eq
    rw [cluster, size] at within within' bytes
    exact ⟨within', within, fun cs cs' xs ys some chain chain' content content' =>
      (bytes cs' cs ys xs some chain' chain content' content).symm⟩

theorem read_simulates (twins : Twins directories v w) (dir : p.isDirP = true)
    (undisturbed : Undisturbed v w heap p filename) :
    Simulates (fun f g => f.1.map PiFile.view = g.1.map PiFile.view)
      (fat32Read v heap p filename) (fat32Read w heap p filename) := by
  rw [read_eq dir, read_eq dir]
  refine (stat_simulates twins dir undisturbed).bind ?_
  rintro found _ stat _ rfl
  obtain ⟨xs, rest, looks, ⟨absent, rfl⟩ | ⟨g, first, room, rfl⟩⟩ := looks_of_stat dir stat
  · exact (undisturbed.present xs rest looks absent).elim
  have file := undisturbed.file xs rest g looks first room
  refine (fetch_simulates twins file.within.stays file.within'.stays _).bind ?_
  rintro ⟨buf, n, behind⟩ ⟨buf', _⟩ fetched fetched' ⟨_, rfl⟩
  obtain ⟨cs, bytes, chain, content, _, eq⟩ := fetch_ok.mp fetched
  obtain ⟨cs', bytes', chain', content', _, eq'⟩ := fetch_ok.mp fetched'
  refine (simulates_self (kmalloc behind 12)).bind fun s _ allocated _ _ => simulates_pure ?_
  have served := (kmalloc_returns.mp allocated).1
  rw [show behind = _ from congrArg (·.2.2) eq] at served
  have same := file.bytes cs cs' bytes bytes' served chain chain' content content'
  cases congrArg Prod.fst eq
  cases congrArg Prod.fst eq'
  change Option.some (firstBytes bytes _, _) = Option.some (firstBytes bytes' _, _)
  rw [show (direntConvert g).nbytes = g.fileNbytes from rfl, same, twins.sectors,
    v.bytesPerSec_eq, w.bytesPerSec_eq]

theorem same_of_undisturbed (twins : Twins directories v w) (dir : p.isDirP = true)
    (undisturbed : Undisturbed v w heap p filename) : SameResults v w heap p filename := by
  have mirrored := undisturbed.symm twins
  refine ⟨⟨⟨readdir_simulates twins dir undisturbed, ?_⟩, readdir_tame dir undisturbed.within⟩,
    ⟨⟨stat_simulates twins dir undisturbed, ?_⟩, stat_tame dir undisturbed.within⟩,
    ⟨⟨read_simulates twins dir undisturbed, ?_⟩, undisturbed.read_tame dir⟩⟩
  · exact (readdir_simulates twins.symm dir mirrored).mono fun _ _ => Eq.symm
  · exact (stat_simulates twins.symm dir mirrored).mono fun _ _ => Eq.symm
  · exact (read_simulates twins.symm dir mirrored).mono fun _ _ => Eq.symm

theorem within_of_readdir (dir : p.isDirP = true)
    (tame : ∀ i, ¬ (fat32Readdir v heap p).Returns (.wild i)) :
    Within v heap p.clusterId (v.allocation []) := by
  refine getDirents_tame_iff.mp fun i astray => tame i ?_
  rw [readdir_eq dir]
  exact bind_wild astray _

theorem within_of_read (dir : p.isDirP = true) {d : PiDirent} {rest : Heap}
    (stat : (fat32Stat v heap p filename).Returns (.ok (some d, rest)))
    (tame : ∀ i, ¬ (fat32Read v heap p filename).Returns (.wild i)) :
    Within v rest d.clusterId d.nbytes := by
  refine within_of_tame (fun _ => d.nbytes) fun i astray => tame i ?_
  rw [read_eq dir]
  exact (bind_ok stat _ _).mpr (bind_wild astray _)

theorem file_together (dir : p.isDirP = true) {d : PiDirent} {rest : Heap}
    (stat : (fat32Stat v heap p filename).Returns (.ok (some d, rest)))
    (stat' : (fat32Stat w heap p filename).Returns (.ok (some d, rest)))
    (same : Alike (fun f g => f.1.map PiFile.view = g.1.map PiFile.view)
      (fat32Read v heap p filename) (fat32Read w heap p filename)) :
    FileTogether v w rest d.clusterId d.nbytes where
  within := within_of_read dir stat same.tame
  within' := within_of_read dir stat' same.symm.tame
  bytes cs cs' xs ys served chain chain' content content' := by
    have reads := (read_returns dir).mpr ⟨d, rest, cs, xs, stat, chain, content, served, rfl⟩
    have reads' := (read_returns dir).mpr ⟨d, rest, cs', ys, stat', chain', content', served, rfl⟩
    exact congrArg Prod.fst (Option.some.inj (same.agrees.ok reads reads'))

theorem Undisturbed.of_same (twins : Twins directories v w) (dir : p.isDirP = true)
    (same : SameResults v w heap p filename) : Undisturbed v w heap p filename := by
  have within := within_of_readdir dir same.readdir.tame
  have within' := within_of_readdir dir same.readdir.symm.tame
  have twin := fun xs rest (looks : Looks v heap p.clusterId xs rest) =>
    looks.twin twins within.stays within'.stays
  have finds : ∀ xs rest g, Looks v heap p.clusterId xs rest →
      xs.find? (named filename) = some g → rest.serves [44] = true →
      (fat32Stat w heap p filename).Returns (.ok (some (direntConvert g), rest.after 44)) := by
    intro xs rest g looks first room
    obtain ⟨r', returns, related⟩ := same.stat.agrees.1 _ (stat_found dir looks first room)
    cases related with
    | ok values => exact values ▸ returns
  refine ⟨within, within', ?_, ?_, ?_, ?_⟩
  · intro xs ys rest looks looks' room
    have reduced := looks_reduced twins within.stays within'.stays looks looks'
    have length : xs.length = ys.length := by simpa using congrArg List.length reduced
    obtain ⟨_, lists⟩ := readdir_ok dir looks room
    rw [length] at room
    obtain ⟨_, lists'⟩ := readdir_ok dir looks' room
    exact (listings_iff reduced).mp (congrArg Prod.fst (same.readdir.agrees.ok lists lists'))
  · intro xs rest looks absent
    have stat := stat_absent dir looks absent
    refine same.read.tame 0 ?_
    rw [read_eq dir]
    exact (bind_ok stat _ _).mpr (returns_wild.mpr rfl)
  · intro xs ys rest looks looks' room
    have reduced := looks_reduced twins within.stays within'.stays looks looks'
    refine (found_iff filename reduced).mp ?_
    cases first : xs.find? (named filename) with
    | none =>
      have alike := found_reduced filename reduced
      rw [first] at alike
      rw [Option.map_eq_none_iff.mp alike.symm]
    | some g =>
      have alike := found_reduced filename reduced
      rw [first] at alike
      obtain ⟨h, second, _⟩ := Option.map_eq_some_iff.mp alike.symm
      have found := returns_unique (finds xs rest g looks first room)
        (stat_found dir looks' second room)
      rw [second]
      exact congrArg Prod.fst (Outcome.ok.inj found)
  · exact fun xs rest g looks first room => file_together dir (stat_found dir looks first room)
      (finds xs rest g looks first room) same.read

end Results

theorem refused (v : Volume) (heap : Heap) {p : PiDirent} (filename : CString)
    (file : p.isDirP = false) : fat32Readdir v heap p = Comp.panic ∧
      fat32Stat v heap p filename = Comp.panic ∧ fat32Read v heap p filename = Comp.panic := by
  simp [fat32Readdir, fat32Stat, fat32Read, v.mounted, file]

/-- The three calls give the same on two volumes that differ in reserved bits only, and keep to
the table, exactly when no reserved bit is set in a number that is followed or returned. -/
theorem same_results_iff {directories : UInt32 → Prop} {v w : Volume}
    (twins : Twins directories v w) (heap : Heap) (p : PiDirent) (filename : CString) :
    SameResults v w heap p filename ↔ (p.isDirP = true → Undisturbed v w heap p filename) := by
  cases dir : p.isDirP with
  | true =>
    constructor
    · exact fun same _ => .of_same twins dir same
    · exact fun undisturbed => same_of_undisturbed twins dir (undisturbed rfl)
  | false =>
    constructor
    · intro _ impossible
      cases impossible
    · intro _
      obtain ⟨lists, finds, reads⟩ := refused v heap filename dir
      obtain ⟨lists', finds', reads'⟩ := refused w heap filename dir
      constructor
      · rw [lists, lists']
        exact alike_panic
      · rw [finds, finds']
        exact alike_panic
      · rw [reads, reads']
        exact alike_panic

def linkedVolume (reserved : UInt32) : Volume :=
  smallVolume [0x0FFFFFF8, 0x0FFFFFFF, reserved ||| 3, 0x0FFFFFFF]
    (by decide : 4 ≤ 2 ^ 24) [[], []]

theorem linked_twins : Twins (fun _ => False) (linkedVolume 0) (linkedVolume 0xF0000000) where
  begins := rfl
  sectors := rfl
  root := rfl
  fat := by decide
  card _ := rfl
  elsewhere _ _ := rfl

theorem stays_of_chain {v : Volume} {c : UInt32} {cs : List UInt32}
    (chain : RawChain v.fat c cs) : Stays v.fat c := by
  intro x leaves
  cases returns_unique (chainLength_returns chain) (leaves.counting 1)

theorem within_of_chain {v : Volume} {heap : Heap} {c nbytes : UInt32} {cs : List UInt32}
    (chain : RawChain v.fat c cs) : Within v heap c nbytes :=
  ⟨stays_of_chain chain, fun ends => (not_last_of_followed (chain.followed v.fat_fits) ends).elim⟩

theorem reserved_bits_are_followed : ¬ ∀ (directories : UInt32 → Prop) (v w : Volume),
    Twins directories v w → ∀ (heap : Heap) (p : PiDirent) (filename : CString),
    Agrees Eq (fat32Readdir v heap p) (fat32Readdir w heap p) ∧
    Agrees Eq (fat32Stat v heap p filename) (fat32Stat w heap p filename) ∧
    Agrees (fun f g => f.1.map PiFile.view = g.1.map PiFile.view)
      (fat32Read v heap p filename) (fat32Read w heap p filename) := by
  intro same
  have agrees := (same _ _ _ linked_twins smallHeap rootHandle nameA).1
  have leaves : Leaves (linkedVolume 0xF0000000).fat rootHandle.clusterId 0xF0000003 :=
    .later (by decide) rfl (.here (by decide) rfl)
  have chain : RawChain (linkedVolume 0).fat rootHandle.clusterId [2, 3] :=
    .link (by decide) rfl (by decide) (.last (by decide) rfl (by decide))
  have tame : ∀ i, ¬ (fat32Readdir (linkedVolume 0) smallHeap rootHandle).Returns (.wild i) :=
    readdir_tame rfl (within_of_chain chain)
  have within := within_of_readdir rfl fun i astray => tame i (agrees.2.wild astray)
  exact within.stays _ leaves

section Marked

def markedVolume : Volume :=
  smallVolume [0x0FFFFFF8, 0x0FFFFFFF, 0xFFFFFFFF, 0xFFFFFFFF] (by decide) [fileBytes, [0x42]]

theorem marked_twins : Twins (fun _ => False) fileVolume markedVolume where
  begins := rfl
  sectors := rfl
  root := rfl
  fat := by decide
  card _ := rfl
  elsewhere _ _ := rfl

theorem marked_content (cs : List UInt32) : markedVolume.content cs = fileVolume.content cs := by
  induction cs with
  | nil => rfl
  | cons c cs ih =>
    rw [Volume.content, Volume.content, ih]
    rfl

theorem marked_chain {c : UInt32} (there : markedVolume.fat[c.toNat]? = some 0xFFFFFFFF)
    (data : 2 ≤ c) : RawChain markedVolume.fat c [c] :=
  .last data there (by decide)

theorem file_looks {heap rest : Heap} {xs : List Dirent} (looks : Looks fileVolume heap 2 xs rest) :
    xs = fileRoot.seen := by
  obtain ⟨cs, bytes, chain, content, _, _, rfl⟩ := looks
  cases chain.unique fileRoot_clean
  rw [fileRoot.content] at content
  cases content
  exact direntsIn_eq fileRoot _

theorem marked_looks {heap rest : Heap} {xs : List Dirent}
    (looks : Looks markedVolume heap 2 xs rest) : xs = fileRoot.seen := by
  obtain ⟨cs, bytes, chain, content, _, _, rfl⟩ := looks
  cases chain.unique (marked_chain rfl (by decide))
  rw [marked_content, show fileVolume.content [2] = some fileRoot.bytes from fileRoot.content] at content
  cases content
  exact direntsIn_eq fileRoot _

theorem marks_are_masked : SameResults fileVolume markedVolume smallHeap rootHandle nameA := by
  refine (same_results_iff marked_twins smallHeap rootHandle nameA).mpr fun _ => ?_
  have chain := file_chain
  have chain' : RawChain markedVolume.fat (fat32ClusterId fileSlot) [3] := by
    rw [file_cluster]
    exact marked_chain rfl (by decide)
  refine ⟨within_of_chain fileRoot_clean, within_of_chain (marked_chain (c := 2) rfl (by decide)),
    ?_, ?_, ?_, ?_⟩
  · intro xs ys rest looks looks' _
    rw [file_looks looks, marked_looks looks']
  · intro xs rest looks
    rw [file_looks looks, fileRoot_seen]
    exact Option.some_ne_none _
  · intro xs ys rest looks looks' _
    rw [file_looks looks, marked_looks looks']
  · intro xs rest g looks first _
    rw [file_looks looks, fileRoot_seen] at first
    cases first
    refine ⟨within_of_chain chain, within_of_chain chain', ?_⟩
    intro cs cs' xs ys _ one other content content'
    rw [other.unique chain', marked_content, ← one.unique chain, content] at content'
    cases content'
    rfl

end Marked

end EmbeddedOS.Fat32
