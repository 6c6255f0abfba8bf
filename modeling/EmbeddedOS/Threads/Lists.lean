import EmbeddedOS.Threads.History

/-! Every block is on the run queue, on the free queue or elsewhere, and what the operations on the
queues leave of that. -/
namespace EmbeddedOS.Threads
open Arm Linked

variable {p : Image}

theorem Placed.index {blocks : List UInt32} {a b : UInt32} {i j : Nat} (placed : Placed p blocks)
    (one : a ∈ blocks) (two : b ∈ blocks) (low : i < blockWords) (low' : j < blockWords)
    (same : word a i = word b j) : a = b ∧ i = j := by
  by_cases here : a = b
  · subst here
    exact ⟨rfl, (block_inj low low').mp same⟩
  · exact absurd same (placed.apart a one b two here i low j low')

/-- The queues hold these blocks, the others are elsewhere, and each block has its id. -/
structure Listed (p : Image) (mem : Memory) (runq freeq : Q) (k : Allocs)
    (run free other : List UInt32) : Prop where
  placed : Placed p k.blocks
  runq : Queue mem runq run
  freeq : Queue mem freeq free
  split : (run ++ free ++ other).Perm k.blocks
  nodup : k.blocks.Nodup
  tids : ∀ b ∈ k.blocks, mem (tidAt b) = UInt32.ofNat (1 + k.number b)

section Listed

variable {mem mem' : Memory} {runq freeq : Q} {k : Allocs} {run free other : List UInt32}

theorem Listed.parts (listed : Listed p mem runq freeq k run free other) :
    (run ++ free ++ other).Nodup := listed.split.nodup_iff.mpr listed.nodup

theorem Listed.mem_run (listed : Listed p mem runq freeq k run free other) {b : UInt32}
    (inside : b ∈ run) : b ∈ k.blocks := listed.split.subset (by simp [inside])

theorem Listed.mem_free (listed : Listed p mem runq freeq k run free other) {b : UInt32}
    (inside : b ∈ free) : b ∈ k.blocks := listed.split.subset (by simp [inside])

theorem Listed.mem_other (listed : Listed p mem runq freeq k run free other) {b : UInt32}
    (inside : b ∈ other) : b ∈ k.blocks := listed.split.subset (by simp [inside])

theorem Listed.frame (listed : Listed p mem runq freeq k run free other)
    (next : ∀ b ∈ k.blocks, mem' (nextAt b) = mem (nextAt b))
    (tid : ∀ b ∈ k.blocks, mem' (tidAt b) = mem (tidAt b)) :
    Listed p mem' runq freeq k run free other := by
  refine ⟨listed.placed, ?_, ?_, listed.split, listed.nodup, ?_⟩
  · exact listed.runq.congr fun b inside => next b (listed.mem_run inside)
  · exact listed.freeq.congr fun b inside => next b (listed.mem_free inside)
  · intro b inside
    rw [tid b inside, listed.tids b inside]

theorem Listed.perm (listed : Listed p mem runq freeq k run free other) {other' : List UInt32}
    (same : other.Perm other') : Listed p mem runq freeq k run free other' :=
  ⟨listed.placed, listed.runq, listed.freeq, (same.symm.append_left _).trans listed.split,
    listed.nodup, listed.tids⟩

theorem Listed.popped {b : UInt32} (listed : Listed p mem runq freeq k (b :: run) free other) :
    ∃ q, qPop mem runq = some (some b, q) ∧ Listed p mem q freeq k run free (b :: other) := by
  obtain ⟨q, popped, queue⟩ := Q_pop_cons listed.runq
  refine ⟨q, popped, listed.placed, queue, listed.freeq, ?_, listed.nodup, listed.tids⟩
  exact List.perm_middle.trans listed.split

theorem tid_not_next {blocks : List UInt32} {b c : UInt32} (placed : Placed p blocks)
    (one : b ∈ blocks) (two : c ∈ blocks) : tidAt b ≠ nextAt c := by
  intro same
  obtain ⟨-, index⟩ := placed.index one two (by decide) (by decide) same
  cases index

theorem next_inj {b c : UInt32} : nextAt b = nextAt c ↔ b = c := word_base b c 1

theorem Listed.appended {e : UInt32} (listed : Listed p mem runq freeq k run free (e :: other)) :
    Listed p (qAppend mem runq e).1 (qAppend mem runq e).2 freeq k (run ++ [e]) free other ∧
      ∀ x, (∀ b ∈ e :: run, x ≠ nextAt b) → (qAppend mem runq e).1 x = mem x := by
  have nodup := listed.parts
  simp only [List.nodup_append, List.nodup_cons, List.mem_append, List.mem_cons] at nodup
  obtain ⟨⟨-, -, apart⟩, -, apart'⟩ := nodup
  have known : e ∈ k.blocks := listed.mem_other List.mem_cons_self
  have fresh : e ∉ run := fun inside => apart' e (Or.inl inside) e (Or.inl rfl) rfl
  obtain ⟨queue, kept⟩ := Q_append_spec listed.runq fresh (listed.placed.nonzero e known)
  refine ⟨⟨listed.placed, queue, ?_, ?_, listed.nodup, ?_⟩, kept⟩
  · apply listed.freeq.congr
    intro b inside
    apply kept
    intro c either same
    cases next_inj.mp same
    obtain here | there := List.mem_cons.mp either
    · exact apart' b (Or.inr inside) e (Or.inl rfl) here
    · exact apart b there b inside rfl
  · have moved : (run ++ [e] ++ free ++ other).Perm (run ++ free ++ e :: other) := by
      simp only [List.append_assoc, List.singleton_append]
      exact (List.perm_middle.symm).append_left run
    exact moved.trans listed.split
  · intro b inside
    rw [← listed.tids b inside]
    apply kept
    intro c either
    apply tid_not_next listed.placed inside
    obtain rfl | there := List.mem_cons.mp either
    · exact known
    · exact listed.mem_run there

theorem Listed.pushed {e : UInt32} (listed : Listed p mem runq freeq k run free (e :: other)) :
    Listed p (qPush mem freeq e).1 runq (qPush mem freeq e).2 k run (e :: free) other ∧
      ∀ x, x ≠ nextAt e → (qPush mem freeq e).1 x = mem x := by
  have nodup := listed.parts
  simp only [List.nodup_append, List.nodup_cons, List.mem_append, List.mem_cons] at nodup
  obtain ⟨-, -, apart⟩ := nodup
  have known : e ∈ k.blocks := listed.mem_other List.mem_cons_self
  have fresh : e ∉ free := fun inside => apart e (Or.inr inside) e (Or.inl rfl) rfl
  have nonzero : ∀ b ∈ free, b ≠ 0 := fun b inside =>
    listed.placed.nonzero b (listed.mem_free inside)
  obtain ⟨queue, kept⟩ := Q_push_spec listed.freeq fresh nonzero
  refine ⟨⟨listed.placed, ?_, queue, ?_, listed.nodup, ?_⟩, kept⟩
  · apply listed.runq.congr
    intro b inside
    apply kept
    intro same
    exact apart b (Or.inl inside) e (Or.inl rfl) (next_inj.mp same)
  · have moved : (run ++ e :: free ++ other).Perm (run ++ free ++ e :: other) := by
      simp only [List.append_assoc, List.cons_append]
      exact (List.perm_middle.symm).append_left run
    exact moved.trans listed.split
  · intro b inside
    rw [← listed.tids b inside]
    exact kept _ (tid_not_next listed.placed inside known)

end Listed

/-- The counters agree with what was handed out. -/
structure Counted (s : Sys) (k : Allocs) : Prop where
  nalloced : s.nalloced = UInt32.ofNat k.blocks.length
  tid : s.tid = UInt32.ofNat (1 + k.count)

theorem stamped_tid {mem : Memory} {k : Allocs} {t b : UInt32} {new : Bool}
    (tids : ∀ b ∈ k.blocks, mem (tidAt b) = UInt32.ofNat (1 + k.number b))
    (known : b ∈ k.blocks ∨ b = t) :
    write mem (tidAt t) (UInt32.ofNat (1 + k.count)) (tidAt b) =
      UInt32.ofNat (1 + (k.add new t).number b) := by
  by_cases same : b = t
  · subst same
    simp [Allocs.add]
  · have apart : tidAt b ≠ tidAt t := fun equal => same ((word_base b t 2).mp equal)
    have before : b ∈ k.blocks := known.resolve_right same
    simp [Allocs.add, same, apart, tids b before]

theorem Apart.symm {a b : UInt32} (apart : Apart a b) : Apart b a :=
  fun i low j low' same => apart j low' i low same.symm

theorem Fresh.absent {k : Allocs} {a : UInt32} (fresh : Fresh p k a) : a ∉ k.blocks := by
  intro inside
  exact fresh.apart a inside 0 (by decide) 0 (by decide) rfl

theorem Fresh.placed {k : Allocs} {a : UInt32} (fresh : Fresh p k a) (placed : Placed p k.blocks) :
    Placed p (k.blocks ++ [a]) := by
  refine ⟨?_, ?_, ?_, ?_⟩
  · intro b one c two other
    obtain one | one := List.mem_append.mp one <;> obtain two | two := List.mem_append.mp two
    · exact placed.apart b one c two other
    · cases List.mem_singleton.mp two
      exact (fresh.apart b one).symm
    · cases List.mem_singleton.mp one
      exact fresh.apart c two
    · cases List.mem_singleton.mp one
      cases List.mem_singleton.mp two
      exact absurd rfl other
  all_goals
    intro b inside
    obtain inside | inside := List.mem_append.mp inside
  · exact placed.nonzero b inside
  · cases List.mem_singleton.mp inside
    exact fresh.nonzero
  · exact placed.aligned b inside
  · cases List.mem_singleton.mp inside
    exact fresh.aligned
  · exact placed.outside b inside
  · cases List.mem_singleton.mp inside
    exact fresh.outside

def handed (s : Sys) (t : UInt32) (freeq : Q) (nalloced : UInt32) : Sys :=
  { s.store (write s.cpu.mem (tidAt t) s.tid) with
    freeq := freeq, nalloced := nalloced, tid := s.tid + 1 }

theorem handed_tid {s : Sys} {k : Allocs} (counted : Counted s k) :
    s.tid + 1 = UInt32.ofNat (1 + (k.count + 1)) := by
  rw [counted.tid, ← Nat.add_assoc, UInt32.ofNat_add (1 + k.count)]
  rfl

section Alloc

variable {s : Sys} {k : Allocs} {run free other : List UInt32} {a t : UInt32}

theorem th_alloc_new (listed : Listed p s.cpu.mem s.runq s.freeq k run [] other)
    (counted : Counted s k) (fresh : Fresh p k a) :
    thAlloc s a = some (a, handed s a s.freeq (s.nalloced + 1)) ∧
      Listed p (write s.cpu.mem (tidAt a) s.tid) s.runq s.freeq (k.add true a) run [] (a :: other) ∧
      Counted (handed s a s.freeq (s.nalloced + 1)) (k.add true a) := by
  have next_kept : ∀ b ∈ k.blocks, write s.cpu.mem (tidAt a) s.tid (nextAt b) =
      s.cpu.mem (nextAt b) := by
    intro b inside
    exact write_other _ _ ((fresh.apart b inside).symm 1 (by decide) 2 (by decide))
  refine ⟨?_, ⟨fresh.placed listed.placed, ?_, ?_, ?_, ?_, ?_⟩, ⟨?_, handed_tid counted⟩⟩
  · have aligned := stack_aligned fresh.aligned
    simp only [thAlloc, Q_pop_nil listed.freeq, Option.bind_eq_bind, Option.bind_some, guard,
      if_pos aligned]
    rfl
  · exact listed.runq.congr fun b inside => next_kept b (listed.mem_run inside)
  · exact listed.freeq.congr fun b inside => by cases inside
  · have grown : (a :: (run ++ [] ++ other)).Perm (k.blocks ++ [a]) :=
      (listed.split.cons a).trans (List.perm_append_singleton a k.blocks).symm
    exact List.perm_middle.trans grown
  · change (k.blocks ++ [a]).Nodup
    rw [← List.concat_eq_append]
    exact List.Nodup.concat fresh.absent listed.nodup
  · intro b inside
    rw [counted.tid]
    obtain before | here := List.mem_append.mp inside
    · exact stamped_tid listed.tids (Or.inl before)
    · exact stamped_tid listed.tids (Or.inr (List.mem_singleton.mp here))
  · change s.nalloced + 1 = UInt32.ofNat (k.blocks ++ [a]).length
    rw [counted.nalloced, List.length_append, List.length_singleton, UInt32.ofNat_add]
    rfl

theorem th_alloc_old (listed : Listed p s.cpu.mem s.runq s.freeq k run (t :: free) other)
    (counted : Counted s k) :
    ∃ q, thAlloc s a = some (t, handed s t q s.nalloced) ∧
      Listed p (write s.cpu.mem (tidAt t) s.tid) s.runq q (k.add false t) run free (t :: other) ∧
      Counted (handed s t q s.nalloced) (k.add false t) := by
  have known : t ∈ k.blocks := listed.mem_free List.mem_cons_self
  obtain ⟨q, popped, queue⟩ := Q_pop_cons listed.freeq
  have next_kept : ∀ b ∈ k.blocks, write s.cpu.mem (tidAt t) s.tid (nextAt b) =
      s.cpu.mem (nextAt b) := by
    intro b inside
    exact write_other _ _ (tid_not_next listed.placed known inside).symm
  refine ⟨q, ?_, ⟨listed.placed, ?_, ?_, ?_, listed.nodup, ?_⟩,
    ⟨counted.nalloced, handed_tid counted⟩⟩
  · have aligned := stack_aligned (listed.placed.aligned t known)
    simp only [thAlloc, popped, Option.bind_eq_bind, Option.bind_some, guard, if_pos aligned]
    rfl
  · exact listed.runq.congr fun b inside => next_kept b (listed.mem_run inside)
  · exact queue.congr fun b inside => next_kept b (listed.mem_free (List.mem_cons_of_mem t inside))
  · have moved : (run ++ free ++ t :: other).Perm (run ++ t :: free ++ other) := by
      simp only [List.append_assoc, List.cons_append]
      exact List.perm_middle.append_left run
    exact moved.trans listed.split
  · intro b inside
    rw [counted.tid]
    exact stamped_tid listed.tids (Or.inl inside)

theorem th_alloc_spec (listed : Listed p s.cpu.mem s.runq s.freeq k run free other)
    (counted : Counted s k) (fresh : s.freeq.head = none → Fresh p k a) :
    ∃ t q n, t = s.freeq.head.getD a ∧ thAlloc s a = some (t, handed s t q n) ∧
      Listed p (write s.cpu.mem (tidAt t) s.tid) s.runq q (k.add s.freeq.head.isNone t) run free.tail
        (t :: other) ∧
      Counted (handed s t q n) (k.add s.freeq.head.isNone t) ∧
      t ∉ run ++ other := by
  cases free with
  | nil =>
    have head := listed.freeq.head_nil
    obtain ⟨ran, listed', counted'⟩ := th_alloc_new listed counted (fresh head)
    rw [head]
    refine ⟨a, s.freeq, _, rfl, ran, listed', counted', ?_⟩
    intro inside
    exact (fresh head).absent (listed.split.subset (by simpa using inside))
  | cons t free =>
    have head := listed.freeq.head_cons
    obtain ⟨q, ran, listed', counted'⟩ := th_alloc_old (a := a) listed counted
    rw [head]
    refine ⟨t, q, _, rfl, ran, listed', counted', ?_⟩
    have nodup := listed.parts
    intro inside
    simp only [List.nodup_append, List.nodup_cons, List.mem_append, List.mem_cons] at nodup inside
    obtain ⟨⟨-, -, apart⟩, -, apart'⟩ := nodup
    obtain here | there := inside
    · exact apart t here t (Or.inl rfl) rfl
    · exact apart' t (Or.inr (Or.inl rfl)) t there rfl

end Alloc

end EmbeddedOS.Threads
