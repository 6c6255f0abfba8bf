import EmbeddedOS.Fat32.Driver
import Mathlib.Data.List.Nodup
import Mathlib.Data.List.Perm.Subperm

/-! Cluster chains, and what the two walks of the driver make of them.
A FAT word says where the chain goes on in its low 28 bits; the driver follows
all 32 of them. -/
namespace EmbeddedOS.Fat32
open Fueled Fueled.Comp

section Words

/-- The cluster number in a FAT word, without the four reserved bits. -/
def significant (w : UInt32) : UInt32 := (w <<< 4) >>> 4

theorem significant_toNat (w : UInt32) : (significant w).toNat = w.toNat % 2 ^ 28 := by
  have size := w.toNat_lt
  have four : (4 : UInt32).toNat % 32 = 4 := rfl
  simp only [significant, UInt32.toNat_shiftRight, UInt32.toNat_shiftLeft, four, Nat.shiftLeft_eq,
    Nat.shiftRight_eq_div_pow]
  omega

def Last (w : UInt32) : Prop := 0xFFFFFF8 ≤ w.toNat % 2 ^ 28

/-- A walk goes on behind this word: it is neither an end nor one of the reserved
values at which fat32_fat_entry_type panics. -/
def Followed (w : UInt32) : Prop := w.toNat % 2 ^ 28 ≤ 0xFFFFFEF ∨ w.toNat % 2 ^ 28 = 0xFFFFFF7

instance (w : UInt32) : Decidable (Last w) := inferInstanceAs (Decidable (_ ≤ _))
instance (w : UInt32) : Decidable (Followed w) := inferInstanceAs (Decidable (_ ∨ _))

theorem not_last_of_followed {w : UInt32} (used : Followed w) : ¬ Last w := by
  unfold Followed at used
  unfold Last
  omega

theorem entryType_eq (w : UInt32) : fat32FatEntryType w =
    if w.toNat % 2 ^ 28 = 0 then pure .freeCluster
    else if w.toNat % 2 ^ 28 = 1 then pure .reservedCluster
    else if w.toNat % 2 ^ 28 = 0xFFFFFF7 then pure .badCluster
    else if w.toNat % 2 ^ 28 ≤ 0xFFFFFEF then pure .usedCluster
    else if w.toNat % 2 ^ 28 ≤ 0xFFFFFF6 then panic
    else pure .lastCluster := by
  have low : ((w <<< 4) >>> 4).toNat = w.toNat % 2 ^ 28 := significant_toNat w
  have size : w.toNat % 2 ^ 28 < 2 ^ 28 := Nat.mod_lt _ (by decide)
  simp only [fat32FatEntryType, ← UInt32.toNat_inj, UInt32.le_iff_toNat_le, ge_iff_le, low,
    UInt32.reduceToNat]
  generalize w.toNat % 2 ^ 28 = x at size
  split_ifs <;> first | rfl | omega

theorem entryType_last {w : UInt32} (ends : Last w) :
    fat32FatEntryType w = pure .lastCluster := by
  unfold Last at ends
  rw [entryType_eq, if_neg (by omega), if_neg (by omega), if_neg (by omega), if_neg (by omega),
    if_neg (by omega)]

theorem entryType_followed {w : UInt32} (used : Followed w) :
    ∃ type, type ≠ .lastCluster ∧ fat32FatEntryType w = pure type := by
  unfold Followed at used
  rw [entryType_eq]
  split
  · exact ⟨_, by decide, rfl⟩
  · split
    · exact ⟨_, by decide, rfl⟩
    · split
      · exact ⟨_, by decide, rfl⟩
      · rw [if_pos (by omega)]
        exact ⟨_, by decide, rfl⟩

theorem entryType_reserved {w : UInt32} (goes : ¬ Last w) (stays : ¬ Followed w) :
    fat32FatEntryType w = panic := by
  unfold Followed at stays
  unfold Last at goes
  rw [entryType_eq, if_neg (by omega), if_neg (by omega), if_neg (by omega), if_neg (by omega),
    if_pos (by omega)]

end Words

/-- A chain of data clusters from c on. The parameter says which cluster a FAT word
is taken to name: its significant bits, or all of it. -/
inductive Linked (names : UInt32 → UInt32) (fat : List UInt32) : UInt32 → List UInt32 → Prop where
  | last {c w : UInt32} (data : 2 ≤ c) (there : fat[c.toNat]? = some w) (ends : Last w) :
      Linked names fat c [c]
  | link {c w : UInt32} {cs : List UInt32} (data : 2 ≤ c) (there : fat[c.toNat]? = some w)
      (used : Followed w) (rest : Linked names fat (names w) cs) : Linked names fat c (c :: cs)

/-- A chain as the format means it. -/
abbrev Chain := Linked significant

/-- A chain as the driver walks it. -/
abbrev RawChain := Linked id

section Links

variable {names : UInt32 → UInt32} {fat : List UInt32} {c : UInt32} {cs : List UInt32}

theorem Linked.head (chain : Linked names fat c cs) : 2 ≤ c ∧ c.toNat < fat.length := by
  cases chain with
  | last data there _ => exact ⟨data, (List.getElem?_eq_some_iff.mp there).1⟩
  | link data there _ _ => exact ⟨data, (List.getElem?_eq_some_iff.mp there).1⟩

theorem Linked.unique {cs' : List UInt32} (chain : Linked names fat c cs)
    (other : Linked names fat c cs') : cs = cs' := by
  induction chain generalizing cs' with
  | last data there ends =>
    cases other with
    | last => rfl
    | link _ there' used _ =>
      rw [there] at there'
      cases there'
      exact (not_last_of_followed used ends).elim
  | link data there used rest ih =>
    cases other with
    | last _ there' ends =>
      rw [there] at there'
      cases there'
      exact (not_last_of_followed used ends).elim
    | link _ there' _ rest' =>
      rw [there] at there'
      cases there'
      rw [ih rest']

theorem significant_of_lt {w : UInt32} (small : w.toNat < 2 ^ 28) : significant w = w := by
  rw [← UInt32.toNat_inj, significant_toNat, Nat.mod_eq_of_lt small]

theorem RawChain.chain (fits : fat.length ≤ 2 ^ 24) (chain : RawChain fat c cs) :
    Chain fat c cs := by
  induction chain with
  | last data there ends => exact .last data there ends
  | @link c w cs data there used rest ih =>
    have small : w.toNat < fat.length := rest.head.2
    refine .link data there used ?_
    rw [significant_of_lt (by omega)]
    exact ih

theorem RawChain.meant (fits : fat.length ≤ 2 ^ 24) (chain : RawChain fat c cs)
    {cs' : List UInt32} (means : Chain fat (significant c) cs') : cs = cs' := by
  have inside := chain.head.2
  rw [significant_of_lt (by omega)] at means
  exact (chain.chain fits).unique means

theorem significant_inside (fits : fat.length ≤ 2 ^ 24)
    (inside : (significant c).toNat < fat.length) :
    Followed c ∧ (significant c = c ∨ fat[c.toNat]? = none) := by
  have size := significant_toNat c
  constructor
  · unfold Followed
    omega
  · by_cases there : c.toNat < fat.length
    · exact .inl (significant_of_lt (by omega))
    · exact .inr (List.getElem?_eq_none (Nat.le_of_not_lt there))

theorem Linked.followed (fits : fat.length ≤ 2 ^ 24) (chain : Linked names fat c cs) :
    Followed c := by
  have inside := chain.head.2
  unfold Followed
  omega

theorem Linked.suffix {x : UInt32} (chain : Linked names fat c cs) (inside : x ∈ cs) :
    ∃ ys, Linked names fat x ys ∧ ys.length ≤ cs.length := by
  induction chain with
  | @last c w data there ends =>
    obtain rfl := List.mem_singleton.mp inside
    exact ⟨[x], .last data there ends, Nat.le_refl _⟩
  | @link c w cs data there used rest ih =>
    rcases List.mem_cons.mp inside with rfl | later
    · exact ⟨_, .link data there used rest, Nat.le_refl _⟩
    · obtain ⟨ys, chain, le⟩ := ih later
      exact ⟨ys, chain, Nat.le_succ_of_le le⟩

/-- A chain that comes to its end never meets a cluster twice. -/
theorem Linked.nodup (chain : Linked names fat c cs) : cs.Nodup := by
  induction chain with
  | last => exact List.nodup_cons.mpr ⟨List.not_mem_nil, List.nodup_nil⟩
  | @link c w cs data there used rest ih =>
    refine List.nodup_cons.mpr ⟨fun again => ?_, ih⟩
    obtain ⟨ys, chain, le⟩ := rest.suffix again
    rw [chain.unique (.link data there used rest)] at le
    exact Nat.not_succ_le_self _ le

theorem Linked.length_le (chain : Linked names fat c cs) : cs.length ≤ fat.length := by
  have inside : ∀ x ∈ cs, x.toNat < fat.length := by
    intro x member
    obtain ⟨ys, chain, _⟩ := chain.suffix member
    exact chain.head.2
  have distinct : (cs.map UInt32.toNat).Nodup :=
    List.Nodup.map (fun _ _ same => UInt32.toNat_inj.mp same) chain.nodup
  have within : cs.map UInt32.toNat ⊆ List.range fat.length := by
    intro i member
    obtain ⟨x, there, rfl⟩ := List.mem_map.mp member
    exact List.mem_range.mpr (inside x there)
  simpa using (distinct.subperm within).length_le

end Links

section Walks

variable {v : Volume} {c : UInt32} {cs : List UInt32}

def Volume.cluster (v : Volume) (c : UInt32) : Option (List UInt8) :=
  readSectors v (v.clusterBeginLba + (c - 2) * v.sectorsPerCluster) v.sectorsPerCluster.toNat

def Volume.content (v : Volume) : List UInt32 → Option (List UInt8)
  | [] => some []
  | c :: cs => do
    let bytes ← v.cluster c
    let rest ← v.content cs
    pure (bytes ++ rest)

def Volume.clusterSize (v : Volume) : Nat := v.sectorsPerCluster.toNat * 512

theorem readSectors_length {lba : UInt32} {n : Nat} {bytes : List UInt8}
    (read : readSectors v lba n = some bytes) : bytes.length = n * 512 := by
  induction n generalizing lba bytes with
  | zero =>
    cases read
    rfl
  | succ n ih =>
    obtain ⟨sector, _, more⟩ := Option.bind_eq_some_iff.mp read
    obtain ⟨rest, later, whole⟩ := Option.bind_eq_some_iff.mp more
    cases whole
    rw [List.length_append, sector.2, ih later]
    omega

theorem cluster_length {bytes : List UInt8} (read : v.cluster c = some bytes) :
    bytes.length = v.clusterSize := readSectors_length read

theorem content_length {bytes : List UInt8} (read : v.content cs = some bytes) :
    bytes.length = cs.length * v.clusterSize := by
  induction cs generalizing bytes with
  | nil =>
    cases read
    exact (Nat.zero_mul _).symm
  | cons c cs ih =>
    obtain ⟨first, there, more⟩ := Option.bind_eq_some_iff.mp read
    obtain ⟨rest, later, whole⟩ := Option.bind_eq_some_iff.mp more
    cases whole
    rw [List.length_append, cluster_length there, ih later, List.length_cons, Nat.succ_mul,
      Nat.add_comm]

theorem step_toNat (v : Volume) : (v.sectorsPerCluster * v.bytesPerSec).toNat = v.clusterSize := by
  have small := UInt32.le_iff_toNat_le.mp v.sectors_le
  rw [v.bytesPerSec_eq, UInt32.toNat_mul]
  exact Nat.mod_eq_of_lt (Nat.lt_of_le_of_lt (Nat.mul_le_mul_right _ small) (by decide))

theorem lengthRound_followed (used : Followed c) (count : UInt32) :
    lengthRound v (c, count) = match v.fat[c.toNat]? with
      | some w => pure (.inl (w, count + 1))
      | none => wild c.toNat := by
  obtain ⟨type, other, eq⟩ := entryType_followed used
  rw [lengthRound, eq, pure_bind, if_neg other, fatEntry]
  cases v.fat[c.toNat]? with
  | some w => rfl
  | none => rfl

theorem lengthRound_last (ends : Last c) (count : UInt32) :
    lengthRound v (c, count) = pure (.inr count) := by
  rw [lengthRound, entryType_last ends, pure_bind, if_pos rfl]

theorem lengthRound_reserved (goes : ¬ Last c) (stays : ¬ Followed c) (count : UInt32) :
    lengthRound v (c, count) = panic := by
  rw [lengthRound, entryType_reserved goes stays, panic_bind]

/-- The count starts at one and grows by one for each cluster, so that it ends at one
more than there are. -/
theorem counting_returns (chain : RawChain v.fat c cs) (count : UInt32) :
    (loop (lengthRound v) (c, count)).Returns (.ok (count + UInt32.ofNat cs.length)) := by
  induction chain generalizing count with
  | @last c w data there ends =>
    have used := (Linked.last data there ends : RawChain v.fat c [c]).followed v.fat_fits
    rw [returns_loop, lengthRound_followed used, there, pure_bind, back, returns_loop,
      lengthRound_last ends, pure_bind, back, returns_pure]
    rfl
  | @link c w cs data there followed rest ih =>
    have used := (Linked.link data there followed rest : RawChain v.fat c _).followed v.fat_fits
    rw [returns_loop, lengthRound_followed used, there, pure_bind, back]
    have h := ih (count + 1)
    rw [List.length_cons, UInt32.ofNat_add, UInt32.add_comm (UInt32.ofNat cs.length),
      ← UInt32.add_assoc]
    exact h

theorem chainLength_returns (chain : RawChain v.fat c cs) :
    (getClusterChainLength v c).Returns (.ok (UInt32.ofNat (cs.length + 1))) := by
  have h := counting_returns chain 1
  rwa [UInt32.add_comm, ← UInt32.ofNat_one, ← UInt32.ofNat_add] at h

theorem counting_wild (means : Chain v.fat (significant c) cs) (dirty : ¬ RawChain v.fat c cs)
    (count : UInt32) : ∃ i, (loop (lengthRound v) (c, count)).Returns (.wild i) := by
  generalize same : significant c = m at means
  induction means generalizing c count with
  | @last m w data there ends =>
    have inside := (List.getElem?_eq_some_iff.mp there).1
    obtain ⟨used, clean | outside⟩ := significant_inside v.fat_fits (same ▸ inside)
    · obtain rfl : c = m := clean.symm.trans same
      exact (dirty (.last data there ends)).elim
    · refine ⟨c.toNat, ?_⟩
      rw [returns_loop, lengthRound_followed used, outside]
      exact returns_wild.mpr rfl
  | @link m w cs data there followed rest ih =>
    have inside := (List.getElem?_eq_some_iff.mp there).1
    obtain ⟨used, clean | outside⟩ := significant_inside v.fat_fits (same ▸ inside)
    · obtain rfl : c = m := clean.symm.trans same
      obtain ⟨i, wild⟩ := ih (fun later => dirty (.link data there followed later)) (count + 1) rfl
      refine ⟨i, ?_⟩
      rw [returns_loop, lengthRound_followed used, there, pure_bind, back]
      exact wild
    · refine ⟨c.toNat, ?_⟩
      rw [returns_loop, lengthRound_followed used, outside]
      exact returns_wild.mpr rfl

theorem clean_of_counted (means : Chain v.fat (significant c) cs) {length : UInt32}
    (counted : (getClusterChainLength v c).Returns (.ok length)) : RawChain v.fat c cs := by
  by_contra dirty
  obtain ⟨i, wild⟩ := counting_wild means dirty 1
  cases returns_unique counted wild

section Rounds

variable (data : Buf) (offset : Nat)

theorem readRound_data (data_cluster : 2 ≤ c) : readRound v (c, data, offset) =
    match v.cluster c with
    | none => panic
    | some bytes => fatEntry v c >>= fun w => fat32FatEntryType w >>= fun type =>
        pure (if type = .lastCluster then .inr (data.write offset bytes)
          else .inl (w, data.write offset bytes, offset + v.clusterSize)) := by
  simp only [readRound, clusterToLba, piSdRead, step_toNat, ge_iff_le, data_cluster,
    decide_true, assert_true, pure_bind]
  rw [show readSectors v (v.clusterBeginLba + (c - 2) * v.sectorsPerCluster) v.sectorsPerCluster.toNat =
    v.cluster c from rfl]
  cases v.cluster c with
  | none => rfl
  | some bytes => rfl

theorem readRound_reserved (small : ¬ 2 ≤ c) : readRound v (c, data, offset) = panic := by
  simp only [readRound, clusterToLba, ge_iff_le, small, decide_false, assert_false, panic_bind]

/-- What a round of read_cluster_chain can end with, other than a panic or a wild
access. -/
inductive ReadStep (v : Volume) (c : UInt32) (data : Buf) (offset : Nat) :
    UInt32 × Buf × Nat ⊕ Buf → Prop where
  | last {w : UInt32} {bytes : List UInt8} (data_cluster : 2 ≤ c)
      (read : v.cluster c = some bytes) (there : v.fat[c.toNat]? = some w) (ends : Last w) :
      ReadStep v c data offset (.inr (data.write offset bytes))
  | next {w : UInt32} {bytes : List UInt8} (data_cluster : 2 ≤ c)
      (read : v.cluster c = some bytes) (there : v.fat[c.toNat]? = some w) (used : Followed w) :
      ReadStep v c data offset (.inl (w, data.write offset bytes, offset + v.clusterSize))

variable {data offset} in
theorem readRound_ok {s : UInt32 × Buf × Nat ⊕ Buf} :
    (readRound v (c, data, offset)).Returns (.ok s) ↔ ReadStep v c data offset s := by
  constructor
  · intro runs
    by_cases data_cluster : 2 ≤ c
    · rw [readRound_data data offset data_cluster] at runs
      cases read : v.cluster c with
      | none => rw [read] at runs; cases returns_panic.mp runs
      | some bytes =>
        rw [read] at runs
        cases there : v.fat[c.toNat]? with
        | none =>
          simp only [fatEntry, there, wild_bind, returns_wild] at runs
          cases runs
        | some w =>
          simp only [fatEntry, there, pure_bind] at runs
          by_cases ends : Last w
          · simp only [entryType_last ends, pure_bind, if_true, returns_pure] at runs
            cases runs
            exact .last data_cluster read there ends
          · by_cases used : Followed w
            · obtain ⟨type, other, eq⟩ := entryType_followed used
              simp only [eq, pure_bind, if_neg other, returns_pure] at runs
              cases runs
              exact .next data_cluster read there used
            · simp only [entryType_reserved ends used, panic_bind, returns_panic] at runs
              cases runs
    · rw [readRound_reserved data offset data_cluster] at runs
      cases returns_panic.mp runs
  · intro step
    cases step with
    | last data_cluster read there ends =>
      rw [readRound_data data offset data_cluster, read]
      simp only [fatEntry, there, pure_bind, entryType_last ends, if_true, returns_pure]
    | next data_cluster read there used =>
      obtain ⟨type, other, eq⟩ := entryType_followed used
      rw [readRound_data data offset data_cluster, read]
      simp only [fatEntry, there, pure_bind, eq, if_neg other, returns_pure]

end Rounds

theorem Buf.write_end {data : Buf} {offset : Nat} (fresh : offset = data.bytes.length)
    (xs : List UInt8) : data.write offset xs = ⟨data.size, data.bytes ++ xs⟩ := by
  simp [Buf.write, fresh]

/-- The loop behind the clusters already read: it ends well exactly on a chain that it
can read, and has then put the chain's bytes behind those it had. -/
theorem reading_returns {data out : Buf} {offset : Nat} (fresh : offset = data.bytes.length) :
    (loop (readRound v) (c, data, offset)).Returns (.ok out) ↔
      ∃ cs bytes, RawChain v.fat c cs ∧ v.content cs = some bytes ∧
        out = ⟨data.size, data.bytes ++ bytes⟩ := by
  constructor
  · intro runs
    refine loop_induction (P := fun s : UInt32 × Buf × Nat => s.2.2 = s.2.1.bytes.length →
      ∃ cs bytes, RawChain v.fat s.1 cs ∧ v.content cs = some bytes ∧
        out = ⟨s.2.1.size, s.2.1.bytes ++ bytes⟩) ?_ ?_ runs fresh
    · rintro ⟨c, data, offset⟩ stops round start
      obtain ⟨s, first, rest⟩ := bind_returns_ok.mp round
      cases readRound_ok.mp first with
      | next => exact (stops _ first).elim
      | @last w bytes data_cluster read there ends =>
        cases returns_pure.mp rest
        refine ⟨[c], bytes, .last data_cluster there ends, ?_, ?_⟩
        · rw [Volume.content, read]
          simp [Volume.content]
        · exact Buf.write_end start bytes
    · rintro ⟨c, data, offset⟩ state' first _ ih start
      cases readRound_ok.mp first with
      | @next w bytes data_cluster read there used =>
        have wrote := Buf.write_end start bytes
        dsimp only at wrote
        have fresh' : offset + v.clusterSize = (data.write offset bytes).bytes.length := by
          rw [wrote, List.length_append, cluster_length read]
          exact congrArg (· + v.clusterSize) start
        obtain ⟨cs, more, chain, later, eq⟩ := ih fresh'
        refine ⟨c :: cs, bytes ++ more, .link data_cluster there used chain, ?_, ?_⟩
        · rw [Volume.content, read, later]
          rfl
        · simp only [eq, wrote, List.append_assoc]
  · rintro ⟨cs, bytes, chain, read, rfl⟩
    induction chain generalizing data offset bytes with
    | @last c w data_cluster there ends =>
      obtain ⟨first, here, more⟩ := Option.bind_eq_some_iff.mp read
      cases more
      have step := readRound_ok.mpr (.last data_cluster here there ends :
        ReadStep v c data offset _)
      rw [returns_loop, bind_ok step, back, returns_pure, Buf.write_end fresh]
      simp
    | @link c w cs data_cluster there used rest ih =>
      obtain ⟨first, here, more⟩ := Option.bind_eq_some_iff.mp read
      obtain ⟨others, later, whole⟩ := Option.bind_eq_some_iff.mp more
      cases whole
      have step := readRound_ok.mpr (.next data_cluster here there used :
        ReadStep v c data offset _)
      rw [returns_loop, bind_ok step, back, Buf.write_end fresh]
      have fresh' : offset + v.clusterSize = (data.bytes ++ first).length := by
        rw [List.length_append, cluster_length here, fresh]
      rw [← List.append_assoc]
      exact ih fresh' others later

theorem readClusterChain_returns {n : Nat} {out : Buf} :
    (readClusterChain v c ⟨n, []⟩).Returns (.ok out) ↔
      ∃ cs bytes, RawChain v.fat c cs ∧ v.content cs = some bytes ∧ out = ⟨n, bytes⟩ :=
  reading_returns rfl

end Walks

end EmbeddedOS.Fat32
