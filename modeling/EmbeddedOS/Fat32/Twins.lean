import EmbeddedOS.Fat32.Directory
import EmbeddedOS.Fueled.Simulation

/-! Two volumes that differ in reserved bits only, and the reading of a chain on both.
It goes the same way as long as the words followed are entries of the table. -/
namespace EmbeddedOS.Fat32
open Fueled Fueled.Comp

section Bytes

/-- Some bytes without the reserved bits of what would be the slots in them. -/
def masked (bytes : List UInt8) : List UInt8 :=
  bytes.mapIdx fun i b => if i % 32 = 21 then b &&& 0x0f else b

theorem masked_length (bytes : List UInt8) : (masked bytes).length = bytes.length := by
  simp [masked]

theorem masked_append {xs ys : List UInt8} (whole : xs.length % 32 = 0) :
    masked (xs ++ ys) = masked xs ++ masked ys := by
  unfold masked
  rw [List.mapIdx_append]
  congr 2
  funext i b
  rw [Nat.add_mod, whole, Nat.add_zero, Nat.mod_mod]

theorem length_of_masked {xs ys : List UInt8} (same : masked xs = masked ys) :
    xs.length = ys.length := by
  rw [← masked_length xs, same, masked_length]

end Bytes

/-- Two volumes that differ only in the top four bits of the FAT words and, in the
sectors that hold directories, of the first clusters of the slots. -/
structure Twins (directories : UInt32 → Prop) (v w : Volume) : Prop where
  begins : v.clusterBeginLba = w.clusterBeginLba
  sectors : v.sectorsPerCluster = w.sectorsPerCluster
  root : v.rootDirFirstCluster = w.rootDirFirstCluster
  fat : v.fat.map significant = w.fat.map significant
  card : ∀ lba, (v.card lba).map (masked ·.1) = (w.card lba).map (masked ·.1)
  elsewhere : ∀ lba, ¬ directories lba → v.card lba = w.card lba

section Tables

variable {directories : UInt32 → Prop} {v w : Volume} {c d : UInt32}

theorem Twins.symm (twins : Twins directories v w) : Twins directories w v :=
  ⟨twins.begins.symm, twins.sectors.symm, twins.root.symm, twins.fat.symm,
    fun lba => (twins.card lba).symm, fun lba other => (twins.elsewhere lba other).symm⟩

theorem Twins.clusterSize (twins : Twins directories v w) : v.clusterSize = w.clusterSize := by
  unfold Volume.clusterSize
  rw [twins.sectors]

theorem Twins.length (twins : Twins directories v w) : v.fat.length = w.fat.length := by
  simpa using congrArg List.length twins.fat

theorem Twins.word (twins : Twins directories v w) {x : UInt32}
    (there : v.fat[c.toNat]? = some x) :
    ∃ y, w.fat[c.toNat]? = some y ∧ significant x = significant y := by
  have same := congrArg (·[c.toNat]?) twins.fat
  simp only [List.getElem?_map, there, Option.map_some] at same
  obtain ⟨y, there', eq⟩ := Option.map_eq_some_iff.mp same.symm
  exact ⟨y, there', eq.symm⟩

theorem Twins.no_word (twins : Twins directories v w) (outside : v.fat[c.toNat]? = none) :
    w.fat[c.toNat]? = none := by
  rw [List.getElem?_eq_none_iff] at outside ⊢
  rwa [← twins.length]

theorem Twins.readSectors (twins : Twins directories v w) (lba : UInt32) (n : Nat) :
    (readSectors v lba n).map masked = (Fat32.readSectors w lba n).map masked := by
  induction n generalizing lba with
  | zero => rfl
  | succ n ih =>
    have here := twins.card lba
    have later := ih (lba + 1)
    simp only [Fat32.readSectors]
    cases one : v.card lba with
    | none =>
      rw [one] at here
      rw [Option.map_eq_none_iff.mp here.symm]
      rfl
    | some s =>
      rw [one] at here
      obtain ⟨t, other, same⟩ := Option.map_eq_some_iff.mp here.symm
      rw [other]
      cases more : Fat32.readSectors v (lba + 1) n with
      | none =>
        rw [more] at later
        rw [Option.map_eq_none_iff.mp later.symm]
        rfl
      | some xs =>
        rw [more] at later
        obtain ⟨ys, more', same'⟩ := Option.map_eq_some_iff.mp later.symm
        rw [more']
        have sector : ∀ s : Sector, s.1.length % 32 = 0 := fun s => by rw [s.2]
        change some (masked (s.1 ++ xs)) = some (masked (t.1 ++ ys))
        rw [masked_append (sector s), masked_append (sector t), same, same']

theorem Twins.cluster (twins : Twins directories v w) (c : UInt32) :
    (v.cluster c).map masked = (w.cluster c).map masked := by
  unfold Volume.cluster
  rw [twins.readSectors, twins.begins, twins.sectors]

theorem Twins.clusters (twins : Twins directories v w) (c : UInt32) :
    (v.cluster c = none ∧ w.cluster c = none) ∨
      ∃ xs ys, v.cluster c = some xs ∧ w.cluster c = some ys ∧ masked ys = masked xs := by
  have same := twins.cluster c
  cases read : v.cluster c with
  | none =>
    rw [read] at same
    exact Or.inl ⟨rfl, Option.map_eq_none_iff.mp same.symm⟩
  | some xs =>
    rw [read] at same
    obtain ⟨ys, read', masks⟩ := Option.map_eq_some_iff.mp same.symm
    exact Or.inr ⟨xs, ys, rfl, read', masks⟩

theorem Twins.file_cluster (twins : Twins directories v w)
    (apart : ∀ i < v.sectorsPerCluster.toNat, ¬ directories
      (v.clusterBeginLba + (c - 2) * v.sectorsPerCluster + UInt32.ofNat i)) :
    v.cluster c = w.cluster c := by
  unfold Volume.cluster
  rw [← twins.begins, ← twins.sectors]
  generalize v.clusterBeginLba + (c - 2) * v.sectorsPerCluster = lba at apart
  generalize v.sectorsPerCluster.toNat = n at apart
  induction n generalizing lba with
  | zero => rfl
  | succ n ih =>
    have first := twins.elsewhere lba (by simpa using apart 0 (Nat.succ_pos n))
    have rest := ih (lba + 1) fun i lt => by
      rw [UInt32.add_assoc, ← UInt32.ofNat_one, ← UInt32.ofNat_add, Nat.add_comm]
      exact apart (i + 1) (Nat.succ_lt_succ lt)
    rw [Fat32.readSectors, Fat32.readSectors, first, rest]

theorem same_of_inside {fat : List UInt32} (fits : fat.length ≤ 2 ^ 24)
    (inside : c.toNat < fat.length) (inside' : d.toNat < fat.length)
    (same : significant c = significant d) : c = d := by
  rw [← significant_of_lt (w := c) (by omega), same, significant_of_lt (by omega)]

theorem last_of_significant (same : significant c = significant d) : Last c ↔ Last d := by
  unfold Last
  rw [← significant_toNat, ← significant_toNat, same]

theorem followed_of_significant (same : significant c = significant d) :
    Followed c ↔ Followed d := by
  unfold Followed
  rw [← significant_toNat, ← significant_toNat, same]

end Tables

/-- The words followed from c lead out of the table, at x. -/
inductive Leaves (fat : List UInt32) : UInt32 → UInt32 → Prop where
  | here {c : UInt32} (used : Followed c) (outside : fat[c.toNat]? = none) : Leaves fat c c
  | later {c w x : UInt32} (used : Followed c) (there : fat[c.toNat]? = some w)
      (rest : Leaves fat w x) : Leaves fat c x

/-- The words followed from c never lead out of the table. -/
def Stays (fat : List UInt32) (c : UInt32) : Prop := ∀ x, ¬ Leaves fat c x

section Leaving

variable {v w : Volume} {c d x : UInt32}

theorem Leaves.followed (leaves : Leaves v.fat c x) : Followed c := by
  cases leaves with
  | here used _ => exact used
  | later used _ _ => exact used

theorem Stays.next (stays : Stays v.fat c) (used : Followed c) :
    ∃ y, v.fat[c.toNat]? = some y ∧ Stays v.fat y := by
  cases there : v.fat[c.toNat]? with
  | none => exact (stays c (.here used there)).elim
  | some y => exact ⟨y, rfl, fun x leaves => stays x (.later used there leaves)⟩

theorem Stays.inside (stays : Stays v.fat c) (used : Followed c) : c.toNat < v.fat.length := by
  obtain ⟨y, there, _⟩ := stays.next used
  exact (List.getElem?_eq_some_iff.mp there).1

theorem Leaves.counting (leaves : Leaves v.fat c x) (count : UInt32) :
    (loop (lengthRound v) (c, count)).Returns (.wild x.toNat) := by
  induction leaves generalizing count with
  | here used outside =>
    rw [returns_loop, lengthRound_followed used, outside]
    exact returns_wild.mpr rfl
  | later used there _ ih =>
    rw [returns_loop, lengthRound_followed used, there, pure_bind, back]
    exact ih (count + 1)

/-- All that a round of the count can end with. -/
inductive LengthStep (v : Volume) (c count : UInt32) :
    Outcome (UInt32 × UInt32 ⊕ UInt32) → Prop where
  | next {y : UInt32} (used : Followed c) (there : v.fat[c.toNat]? = some y) :
      LengthStep v c count (.ok (.inl (y, count + 1)))
  | outside (used : Followed c) (there : v.fat[c.toNat]? = none) :
      LengthStep v c count (.wild c.toNat)
  | last (ends : Last c) : LengthStep v c count (.ok (.inr count))
  | reserved (goes : ¬ Last c) (stays : ¬ Followed c) : LengthStep v c count .panic

theorem lengthRound_step {count : UInt32} {r : Outcome (UInt32 × UInt32 ⊕ UInt32)}
    (round : (lengthRound v (c, count)).Returns r) : LengthStep v c count r := by
  by_cases used : Followed c
  · rw [lengthRound_followed used] at round
    cases there : v.fat[c.toNat]? with
    | none =>
      rw [there] at round
      cases returns_wild.mp round
      exact .outside used there
    | some y =>
      rw [there] at round
      cases returns_pure.mp round
      exact .next used there
  · by_cases ends : Last c
    · rw [lengthRound_last ends] at round
      cases returns_pure.mp round
      exact .last ends
    · rw [lengthRound_reserved ends used] at round
      cases returns_panic.mp round
      exact .reserved ends used

theorem leaves_of_counting {i : Nat} (wild : (getClusterChainLength v c).Returns (.wild i)) :
    ∃ x, Leaves v.fat c x ∧ x.toNat = i := by
  refine loop_induction (P := fun s : UInt32 × UInt32 => ∃ x, Leaves v.fat s.1 x ∧ x.toNat = i)
    ?_ ?_ wild
  · rintro ⟨c, count⟩ stops round
    obtain ⟨o, first, rest⟩ := returns_bind.mp round
    cases lengthRound_step first with
    | next used there => exact (stops _ first).elim
    | outside used there =>
      cases returns_wild.mp rest
      exact ⟨c, .here used there, rfl⟩
    | last ends => cases returns_pure.mp rest
    | reserved => cases returns_panic.mp rest
  · rintro ⟨c, count⟩ state' round _ ⟨x, leaves, place⟩
    cases lengthRound_step round with
    | next used there => exact ⟨x, .later used there leaves, place⟩

end Leaving

section Counting

variable {directories : UInt32 → Prop} {v w : Volume} {c d : UInt32}

/-- Where neither leads out of the table, a followed number and its word are the same on
both, but for reserved bits of the word. -/
theorem Twins.next (twins : Twins directories v w) (same : significant c = significant d)
    (stays : Stays v.fat c) (stays' : Stays w.fat d) (used : Followed c) :
    c = d ∧ ∃ x y, v.fat[c.toNat]? = some x ∧ w.fat[d.toNat]? = some y ∧
      significant x = significant y ∧ Stays v.fat x ∧ Stays w.fat y := by
  have used' := (followed_of_significant same).mp used
  have inside' := stays'.inside used'
  rw [← twins.length] at inside'
  obtain rfl := same_of_inside v.fat_fits (stays.inside used) inside' same
  obtain ⟨x, there, stays⟩ := stays.next used
  obtain ⟨y, there', stays'⟩ := stays'.next used'
  obtain ⟨z, known, alike⟩ := twins.word there
  rw [there'] at known
  cases known
  exact ⟨rfl, x, y, there, there', alike, stays, stays'⟩

theorem count_simulates (twins : Twins directories v w) (same : significant c = significant d)
    (stays : Stays v.fat c) (stays' : Stays w.fat d) :
    Simulates Eq (getClusterChainLength v c) (getClusterChainLength w d) := by
  refine simulates_loop (I := fun s t : UInt32 × UInt32 => significant s.1 = significant t.1 ∧
    s.2 = t.2 ∧ Stays v.fat s.1 ∧ Stays w.fat t.1) ?_ ⟨same, rfl, stays, stays'⟩
  rintro ⟨c, count⟩ ⟨d, _⟩ ⟨same, rfl, stays, stays'⟩
  by_cases used : Followed c
  · obtain ⟨rfl, x, y, there, there', alike, stays, stays'⟩ := twins.next same stays stays' used
    rw [lengthRound_followed used, lengthRound_followed used, there, there']
    exact simulates_pure (.inl ⟨alike, rfl, stays, stays'⟩)
  · have used' := fun h => used ((followed_of_significant same).mpr h)
    by_cases ends : Last c
    · rw [lengthRound_last ends, lengthRound_last ((last_of_significant same).mp ends)]
      exact simulates_pure (.inr rfl)
    · have goes := fun h => ends ((last_of_significant same).mpr h)
      rw [lengthRound_reserved ends used, lengthRound_reserved goes used']
      exact simulates_panic

end Counting

section Reading

variable {directories : UInt32 → Prop} {v w : Volume} {c : UInt32}

structure BufTwins (one other : Buf) : Prop where
  size : one.size = other.size
  bytes : masked one.bytes = masked other.bytes
  whole : one.bytes.length % 32 = 0

theorem BufTwins.append {one other : Buf} (twins : BufTwins one other) {xs ys : List UInt8}
    (same : masked xs = masked ys) (whole : xs.length % 32 = 0) :
    BufTwins ⟨one.size, one.bytes ++ xs⟩ ⟨other.size, other.bytes ++ ys⟩ where
  size := twins.size
  bytes := by
    have whole' := twins.whole
    rw [length_of_masked twins.bytes] at whole'
    rw [masked_append twins.whole, masked_append whole', twins.bytes, same]
  whole := by
    rw [List.length_append, Nat.add_mod, twins.whole, whole]

/-- Both loops have come to one cluster, which is followed. -/
structure ReadTwins (v w : Volume) (s t : UInt32 × Buf × Nat) : Prop where
  cluster : s.1 = t.1
  bufs : BufTwins s.2.1 t.2.1
  fresh : s.2.2 = s.2.1.bytes.length
  fresh' : t.2.2 = t.2.1.bytes.length
  used : Followed s.1
  stays : Stays v.fat s.1
  stays' : Stays w.fat t.1

theorem readRound_simulates (twins : Twins directories v w) {s t : UInt32 × Buf × Nat}
    (both : ReadTwins v w s t) :
    Simulates (Sum.LiftRel (ReadTwins v w) BufTwins) (readRound v s) (readRound w t) := by
  obtain ⟨c, data, offset⟩ := s
  obtain ⟨_, data', offset'⟩ := t
  obtain ⟨rfl, bufs, fresh, fresh', used, stays, stays'⟩ := both
  by_cases data_cluster : 2 ≤ c
  · rw [readRound_data data offset data_cluster, readRound_data data' offset' data_cluster]
    rcases twins.clusters c with ⟨unread, unread'⟩ | ⟨xs, ys, read, read', same⟩
    · rw [unread, unread']
      exact simulates_panic
    · obtain ⟨_, x, y, there, there', alike, next, next'⟩ := twins.next rfl stays stays' used
      have length := cluster_length read
      have length' := cluster_length read'
      have whole : xs.length % 32 = 0 := by
        rw [length, clusterSize_eq, Nat.mul_mod_right]
      simp only [read, read', fatEntry, there, there', pure_bind]
      by_cases ends : Last x
      · simp only [entryType_last ends, entryType_last ((last_of_significant alike).mp ends),
          pure_bind, if_true, Buf.write_end fresh, Buf.write_end fresh']
        exact simulates_pure (.inr (bufs.append same.symm whole))
      · have goes : ¬ Last y := fun h => ends ((last_of_significant alike).mpr h)
        by_cases more : Followed x
        · obtain ⟨type, other, eq⟩ := entryType_followed more
          obtain ⟨rfl, _⟩ := twins.next alike next next' more
          simp only [eq, pure_bind, if_neg other, Buf.write_end fresh, Buf.write_end fresh']
          refine simulates_pure (.inl ⟨rfl, bufs.append same.symm whole, ?_, ?_, more, next, next'⟩)
          · simp only [List.length_append, length]
            exact congrArg (· + _) fresh
          · simp only [List.length_append, length']
            exact congrArg (· + _) fresh'
        · have more' : ¬ Followed y := fun h => more ((followed_of_significant alike).mpr h)
          rw [entryType_reserved ends more, entryType_reserved goes more']
          exact simulates_panic
  · rw [readRound_reserved data offset data_cluster, readRound_reserved data' offset' data_cluster]
    exact simulates_panic

theorem end_mark_outside (v : Volume) (ends : Last c) : 2 ≤ c ∧ v.fat[c.toNat]? = none := by
  have fits := v.fat_fits
  unfold Last at ends
  constructor
  · rw [UInt32.le_iff_toNat_le]
    change 2 ≤ c.toNat
    omega
  · exact List.getElem?_eq_none (by omega)

theorem readLast_simulates (twins : Twins directories v w) (ends : Last c) (data data' : Buf) :
    Simulates BufTwins (readClusterChain v c data) (readClusterChain w c data') := by
  obtain ⟨data_cluster, outside⟩ := end_mark_outside v ends
  refine simulates_loop (I := fun s t => s = (c, data, 0) ∧ t = (c, data', 0)) ?_ ⟨rfl, rfl⟩
  rintro _ _ ⟨rfl, rfl⟩
  rw [readRound_data data 0 data_cluster, readRound_data data' 0 data_cluster]
  rcases twins.clusters c with ⟨unread, unread'⟩ | ⟨xs, ys, read, read', -⟩
  · rw [unread, unread']
    exact simulates_panic
  · simp only [read, read', fatEntry, outside, twins.no_word outside]
    exact simulates_wild c.toNat

theorem reading_simulates (twins : Twins directories v w) (stays : Stays v.fat c)
    (stays' : Stays w.fat c) {length : UInt32}
    (counted : (getClusterChainLength v c).Returns (.ok length)) (size : Nat) :
    Simulates BufTwins (readClusterChain v c ⟨size, []⟩) (readClusterChain w c ⟨size, []⟩) := by
  by_cases used : Followed c
  · exact simulates_loop (fun _ _ both => readRound_simulates twins both)
      ⟨rfl, ⟨rfl, rfl, rfl⟩, rfl, rfl, used, stays, stays'⟩
  · by_cases ends : Last c
    · exact readLast_simulates twins ends _ _
    · obtain ⟨s, round, _⟩ := bind_returns_ok.mp (returns_loop.mp counted)
      rw [lengthRound_reserved ends used] at round
      cases returns_panic.mp round

theorem readRound_wild {data : Buf} {offset i : Nat}
    (wild : (readRound v (c, data, offset)).Returns (.wild i)) : v.fat[c.toNat]? = none := by
  by_cases data_cluster : 2 ≤ c
  · rw [readRound_data data offset data_cluster] at wild
    cases read : v.cluster c with
    | none =>
      rw [read] at wild
      cases returns_panic.mp wild
    | some xs =>
      rw [read] at wild
      cases there : v.fat[c.toNat]? with
      | none => rfl
      | some x =>
        simp only [fatEntry, there, pure_bind] at wild
        by_cases ends : Last x
        · rw [entryType_last ends, pure_bind] at wild
          cases returns_pure.mp wild
        · by_cases used : Followed x
          · obtain ⟨type, _, eq⟩ := entryType_followed used
            rw [eq, pure_bind] at wild
            cases returns_pure.mp wild
          · rw [entryType_reserved ends used, panic_bind] at wild
            cases returns_panic.mp wild
  · rw [readRound_reserved data offset data_cluster] at wild
    cases returns_panic.mp wild

theorem reading_stays (stays : Stays v.fat c) (used : Followed c) (data : Buf) (i : Nat) :
    ¬ (readClusterChain v c data).Returns (.wild i) := by
  intro wild
  refine loop_induction (P := fun s : UInt32 × Buf × Nat => Stays v.fat s.1 → Followed s.1 → False)
    ?_ ?_ wild stays used
  · rintro ⟨c, data, offset⟩ stops round stays used
    obtain ⟨o, first, rest⟩ := returns_bind.mp round
    cases o with
    | ok next =>
      cases next with
      | inl _ => exact stops _ first
      | inr _ => cases returns_pure.mp rest
    | panic => cases returns_panic.mp rest
    | wild j =>
      obtain ⟨y, there, _⟩ := stays.next used
      rw [readRound_wild first] at there
      cases there
  · rintro ⟨c, data, offset⟩ state' round _ ih stays used
    cases readRound_ok.mp round with
    | next _ _ there more =>
      obtain ⟨y, there', next⟩ := stays.next used
      rw [there] at there'
      cases there'
      exact ih next more

end Reading

section Fetching

variable {directories : UInt32 → Prop} {v w : Volume} {heap : Heap} {c x : UInt32}
  {nbytes : UInt32 → UInt32}

/-- What get_dirents and fat32_read have in common: to count a chain, allocate and read. -/
def fetch (v : Volume) (heap : Heap) (c : UInt32) (nbytes : UInt32 → UInt32) :
    Comp (Buf × UInt32 × Heap) := do
  let length ← getClusterChainLength v c
  let (buf, heap) ← kmalloc heap (nbytes length)
  let buf ← readClusterChain v c buf
  pure (buf, length, heap)

theorem getDirents_eq (v : Volume) (heap : Heap) (c : UInt32) : getDirents v heap c =
    fetch v heap c (fun length => length * v.sectorsPerCluster * v.bytesPerSec) >>= fun r =>
      pure (r.1, r.2.1 * v.sectorsPerCluster * v.bytesPerSec / 32, r.2.2) := by
  simp only [getDirents, fetch, bind_assoc, pure_bind]

theorem fetch_ok {r : Buf × UInt32 × Heap} : (fetch v heap c nbytes).Returns (.ok r) ↔
    ∃ cs bytes, RawChain v.fat c cs ∧ v.content cs = some bytes ∧
      heap.serves [nbytes (UInt32.ofNat (cs.length + 1))] = true ∧
      r = (⟨(nbytes (UInt32.ofNat (cs.length + 1))).toNat, bytes⟩, UInt32.ofNat (cs.length + 1),
        heap.after (nbytes (UInt32.ofNat (cs.length + 1)))) := by
  constructor
  · intro runs
    obtain ⟨count, counted, runs⟩ := bind_returns_ok.mp runs
    obtain ⟨fresh, allocated, runs⟩ := bind_returns_ok.mp runs
    obtain ⟨served, rfl⟩ := kmalloc_returns.mp allocated
    obtain ⟨read, reads, runs⟩ := bind_returns_ok.mp runs
    obtain ⟨cs, bytes, chain, content, rfl⟩ := readClusterChain_returns.mp reads
    cases returns_unique counted (chainLength_returns chain)
    cases returns_pure.mp runs
    exact ⟨cs, bytes, chain, content, served, rfl⟩
  · rintro ⟨cs, bytes, chain, content, served, rfl⟩
    exact bind_returns_ok.mpr ⟨_, chainLength_returns chain, bind_returns_ok.mpr
      ⟨_, kmalloc_returns.mpr ⟨served, rfl⟩, bind_returns_ok.mpr
        ⟨_, readClusterChain_returns.mpr ⟨cs, bytes, chain, content, rfl⟩, returns_pure.mpr rfl⟩⟩⟩

/-- Neither walk from c on leads out of the table. The one that reads looks up c itself before
it tests for an end mark, if it comes that far. -/
structure Within (v : Volume) (heap : Heap) (c nbytes : UInt32) : Prop where
  stays : Stays v.fat c
  end_mark : Last c → heap.serves [nbytes] = true → v.cluster c = none

theorem counting_last (ends : Last c) : (getClusterChainLength v c).Returns (.ok 1) := by
  rw [getClusterChainLength, returns_loop, lengthRound_last ends, pure_bind, back, returns_pure]

theorem reading_last (v : Volume) (ends : Last c) (data : Buf) :
    (readClusterChain v c data).Returns
      (if (v.cluster c).isSome then .wild c.toNat else .panic) := by
  obtain ⟨data_cluster, outside⟩ := end_mark_outside v ends
  rw [readClusterChain, returns_loop, readRound_data data 0 data_cluster]
  cases v.cluster c with
  | none => exact returns_panic.mpr rfl
  | some bytes =>
    rw [fatEntry, outside]
    exact returns_wild.mpr rfl

theorem fetch_tame (within : Within v heap c (nbytes 1)) (i : Nat) :
    ¬ (fetch v heap c nbytes).Returns (.wild i) := by
  intro astray
  rcases bind_returns_wild.mp astray with astray | ⟨length, counted, astray⟩
  · obtain ⟨x, leaves, _⟩ := leaves_of_counting astray
    exact within.stays x leaves
  rcases bind_returns_wild.mp astray with astray | ⟨⟨buf, rest⟩, allocated, astray⟩
  · exact kmalloc_tame astray
  rcases bind_returns_wild.mp astray with strays | ⟨_, _, astray⟩
  · by_cases used : Followed c
    · exact reading_stays within.stays used buf i strays
    by_cases ends : Last c
    · cases returns_unique counted (counting_last ends)
      have unread := within.end_mark ends (kmalloc_returns.mp allocated).1
      have stops := reading_last v ends buf
      rw [unread] at stops
      cases returns_unique strays stops
    · obtain ⟨_, round, _⟩ := bind_returns_ok.mp (returns_loop.mp counted)
      rw [lengthRound_reserved ends used] at round
      cases returns_panic.mp round
  · cases returns_pure.mp astray

variable (nbytes) in
theorem within_of_tame (tame : ∀ i, ¬ (fetch v heap c nbytes).Returns (.wild i)) :
    Within v heap c (nbytes 1) where
  stays x leaves := tame x.toNat (bind_wild (leaves.counting 1) _)
  end_mark ends served := by
    rw [← Option.not_isSome_iff_eq_none]
    intro read
    have stops := reading_last v ends ⟨(nbytes 1).toNat, []⟩
    rw [if_pos read] at stops
    refine tame c.toNat ((bind_ok (counting_last ends) _ _).mpr ?_)
    exact (bind_ok (kmalloc_returns.mpr ⟨served, rfl⟩) _ _).mpr (bind_wild stops _)

def FetchTwins {α : Type} (r r' : Buf × α) : Prop := BufTwins r.1 r'.1 ∧ r.2 = r'.2

theorem fetch_simulates (twins : Twins directories v w) (stays : Stays v.fat c)
    (stays' : Stays w.fat c) (nbytes : UInt32 → UInt32) :
    Simulates FetchTwins (fetch v heap c nbytes) (fetch w heap c nbytes) := by
  refine (count_simulates twins rfl stays stays').bind ?_
  rintro length _ counted _ rfl
  refine (simulates_self (kmalloc heap (nbytes length))).bind ?_
  rintro ⟨buf, rest⟩ _ allocated _ rfl
  obtain ⟨_, eq⟩ := kmalloc_returns.mp allocated
  cases eq
  refine (reading_simulates twins stays stays' counted _).bind ?_
  exact fun _ _ _ _ bufs => simulates_pure ⟨bufs, rfl⟩

end Fetching

end EmbeddedOS.Fat32
