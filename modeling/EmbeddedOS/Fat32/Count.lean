import EmbeddedOS.Fat32.Directory

/-! The length of a chain against the clusters in it: the loop that counts tests a cluster before
its step, and the marker behind the last one ends it. -/
namespace EmbeddedOS.Fat32
open Fueled Fueled.Comp

/-- A chain is as long as it has clusters, so many are copied, and every slot that get_dirents
counts was copied. -/
structure Counted (v : Volume) (c : UInt32) (cs : List UInt32) : Prop where
  length : (getClusterChainLength v c).Returns (.ok (UInt32.ofNat cs.length))
  copied : ∀ n out, (readClusterChain v c ⟨n, []⟩).Returns (.ok out) →
    out.bytes.length = cs.length * v.clusterSize
  slots : ∀ heap buf n rest, (getDirents v heap c).Returns (.ok (buf, n, rest)) →
    n.toNat * 32 ≤ buf.bytes.length

variable {v : Volume} {c : UInt32} {cs : List UInt32}

theorem copied_clusters (means : Chain v.fat (significant c) cs) (n : Nat) {out : Buf}
    (read : (readClusterChain v c ⟨n, []⟩).Returns (.ok out)) :
    out.bytes.length = cs.length * v.clusterSize := by
  obtain ⟨walked, bytes, chain, content, rfl⟩ := readClusterChain_returns.mp read
  rw [← chain.meant v.fat_fits means]
  exact content_length content

theorem slots_overcounted (wf : WellFormed v) (D : Directory v) {heap rest : Heap} {buf : Buf}
    {n : UInt32} (means : significant c = D.start)
    (runs : (getDirents v heap c).Returns (.ok (buf, n, rest))) :
    n.toNat * 32 = buf.bytes.length + v.clusterSize ∧ buf.bytes.length < n.toNat * 32 := by
  obtain ⟨walked, bytes, chain, content, -, eq⟩ := getDirents_returns.mp runs
  cases eq
  obtain rfl := chain.meant v.fat_fits (means ▸ D.chain)
  have read : bytes.length = D.clusters.length * v.clusterSize := content_length content
  have count := D.count_toNat
  have size := clusterSize_eq v
  have positive := wf.clusterSize_pos
  have whole : (v.allocation D.clusters / 32).toNat * 32 = bytes.length + v.clusterSize := by
    rw [count, read, size, Nat.add_mul, Nat.mul_assoc, Nat.mul_comm v.slotsPerCluster 32]
  refine ⟨whole, ?_⟩
  change bytes.length < _
  omega

theorem length_overcounted (means : Chain v.fat (significant c) cs) :
    ¬ (getClusterChainLength v c).Returns (.ok (UInt32.ofNat cs.length)) := by
  intro length
  have chain := clean_of_counted means length
  have more := Outcome.ok.inj (returns_unique length (chainLength_returns chain))
  have bound := chain.length_le
  have fits := v.fat_fits
  have numbers := congrArg UInt32.toNat more
  rw [UInt32.toNat_ofNat', UInt32.toNat_ofNat', Nat.mod_eq_of_lt (by omega),
    Nat.mod_eq_of_lt (by omega)] at numbers
  omega

/-- Every chain is counted as one cluster longer than it is. -/
theorem never_counted {v : Volume} {c : UInt32} {cs : List UInt32}
    (means : Chain v.fat (significant c) cs) : ¬ Counted v c cs :=
  fun counted => length_overcounted means counted.length

theorem root_chain (bytes : List UInt8) : Chain (rootOnly bytes).fat (significant 2) [2] :=
  (rootOnly_clean bytes).chain (rootOnly bytes).fat_fits

theorem root_never_counted : ¬ Counted (rootOnly []) 2 [2] := never_counted (root_chain [])

/-- A root directory of one cluster counts as two. -/
theorem one_cluster_is_two : ¬ ∀ (v : Volume) (c : UInt32) (cs : List UInt32), WellFormed v →
    Chain v.fat (significant c) cs → Counted v c cs := by
  intro always
  have counted := always (rootOnly []) 2 [2] (rootOnly_wellFormed []) (root_chain [])
  have two := chainLength_returns (rootOnly_clean [])
  exact absurd (Outcome.ok.inj (returns_unique counted.length two)) (by decide)

end EmbeddedOS.Fat32
