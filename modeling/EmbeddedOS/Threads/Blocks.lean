import EmbeddedOS.Threads.RpiThread

/-! Where the blocks of the threads are in memory, and the two queues that are linked through
them. -/
namespace EmbeddedOS.Threads
open Arm Linked

/-- Two blocks have no word in common. -/
def Apart (a b : UInt32) : Prop :=
  ∀ i < blockWords, ∀ j < blockWords, word a i ≠ word b j

structure Placed (p : Image) (blocks : List UInt32) : Prop where
  apart : ∀ a ∈ blocks, ∀ b ∈ blocks, a ≠ b → Apart a b
  nonzero : ∀ a ∈ blocks, a ≠ 0
  aligned : ∀ a ∈ blocks, a % 8 = 0
  outside : ∀ a ∈ blocks, ∀ i < blockWords, ¬ p.callerStack (word a i)

theorem block_inj {t : UInt32} {i j : Nat} (inside : i < blockWords) (inside' : j < blockWords) :
    word t i = word t j ↔ i = j := by
  unfold blockWords THREAD_MAXSTACK at inside inside'
  constructor
  · exact word_inj (by omega) (by omega)
  · intro same
    rw [same]

theorem stack_aligned {t : UInt32} (aligned : t % 8 = 0) : stackAt t 0 % 8 = 0 := by
  have start : stackAt t 0 = t + 24 := by
    unfold stackAt word
    rfl
  rw [start]
  exact multiple_add (by decide) aligned (by decide)

theorem links_write (mem : Memory) (e v : UInt32) :
    links (write mem (nextAt e) v) = Function.update (links mem) e (pointer v) := by
  funext t
  by_cases same : t = e
  · subst same
    simp [links]
  · have apart : nextAt t ≠ nextAt e := fun same' => same ((word_base t e 1).mp same')
    simp [links, same, apart]

theorem pointer_word {e : UInt32} (nonzero : e ≠ 0) : pointer e = some e := if_neg nonzero

/-- The queue holds these blocks, and counts them. -/
structure Queue (mem : Memory) (q : Q) (l : List UInt32) : Prop where
  holds : Holds (links mem) q.toEnds l
  cnt : q.cnt = UInt32.ofNat l.length

theorem Queue.congr {mem mem' : Memory} {q : Q} {l : List UInt32} (queue : Queue mem q l)
    (same : ∀ b ∈ l, mem' (nextAt b) = mem (nextAt b)) : Queue mem' q l := by
  refine ⟨queue.holds.congr ?_, queue.cnt⟩
  intro b inside
  rw [links, links, same b inside]

theorem Queue.head_nil {mem : Memory} {q : Q} (queue : Queue mem q []) : q.head = none :=
  queue.holds.chain

theorem Queue.head_cons {mem : Memory} {q : Q} {a : UInt32} {l : List UInt32}
    (queue : Queue mem q (a :: l)) : q.head = some a := queue.holds.chain.1

theorem Q_empty_nil {mem : Memory} {q : Q} (queue : Queue mem q []) : qEmpty q = some true := by
  have tail : q.tail = none := queue.holds.last
  have cnt : q.cnt = 0 := queue.cnt
  simp [qEmpty, queue.head_nil, tail, cnt]

theorem Q_empty_cons {mem : Memory} {q : Q} {a : UInt32} {l : List UInt32}
    (queue : Queue mem q (a :: l)) : qEmpty q = some false := by
  simp [qEmpty, queue.head_cons]

theorem Q_pop_nil {mem : Memory} {q : Q} (queue : Queue mem q []) :
    qPop mem q = some (none, q) := by
  simp [qPop, queue.head_nil, Q_empty_nil queue]

theorem count_less (n : Nat) : UInt32.ofNat (n + 1) - 1 = UInt32.ofNat n := by
  rw [UInt32.ofNat_add]
  exact UInt32.add_sub_cancel _ _

theorem Q_pop_cons {mem : Memory} {q : Q} {a : UInt32} {l : List UInt32}
    (queue : Queue mem q (a :: l)) : ∃ q', qPop mem q = some (some a, q') ∧ Queue mem q' l := by
  obtain ⟨ends, popped, holds⟩ := pop_cons queue.holds
  refine ⟨{ toEnds := ends, cnt := q.cnt - 1 }, ?_, holds, ?_⟩
  · have head := queue.head_cons
    rw [Linked.pop, head] at popped
    cases popped
    simp [qPop, head]
  · change q.cnt - 1 = _
    rw [queue.cnt, List.length_cons, count_less]

theorem Q_append_spec {mem : Memory} {q : Q} {l : List UInt32} {e : UInt32} (queue : Queue mem q l)
    (fresh : e ∉ l) (nonzero : e ≠ 0) :
    Queue (qAppend mem q e).1 (qAppend mem q e).2 (l ++ [e]) ∧
      ∀ x, (∀ b ∈ e :: l, x ≠ nextAt b) → (qAppend mem q e).1 x = mem x := by
  have holds := append_holds queue.holds fresh
  have last := queue.holds.last
  have cnt : q.cnt + 1 = UInt32.ofNat (l ++ [e]).length := by
    rw [queue.cnt, List.length_append, List.length_singleton, UInt32.ofNat_add]
    rfl
  unfold qAppend
  unfold append at holds
  cases tail : q.tail with
  | none =>
    rw [tail] at holds
    refine ⟨⟨?_, cnt⟩, ?_⟩
    · rw [links_write]
      exact holds
    · intro x outside
      exact write_other _ _ (outside e List.mem_cons_self)
  | some t =>
    rw [tail] at holds last
    have inside : t ∈ e :: l := List.mem_cons_of_mem e (List.mem_of_getLast? last.symm)
    refine ⟨⟨?_, cnt⟩, ?_⟩
    · rw [links_write, links_write, pointer_word nonzero]
      exact holds
    · intro x outside
      change write (write mem _ _) _ _ x = _
      rw [write_other _ _ (outside t inside), write_other _ _ (outside e List.mem_cons_self)]

theorem Q_push_spec {mem : Memory} {q : Q} {l : List UInt32} {e : UInt32} (queue : Queue mem q l)
    (fresh : e ∉ l) (nonzero : ∀ b ∈ l, b ≠ 0) :
    Queue (qPush mem q e).1 (qPush mem q e).2 (e :: l) ∧
      ∀ x, x ≠ nextAt e → (qPush mem q e).1 x = mem x := by
  have holds := push_holds queue.holds fresh
  have linked : pointer (wordOf q.head) = q.head := by
    cases l with
    | nil =>
      rw [queue.head_nil]
      rfl
    | cons b l =>
      rw [queue.head_cons]
      exact pointer_word (nonzero b List.mem_cons_self)
  refine ⟨⟨?_, ?_⟩, ?_⟩
  · change Holds (links (write mem (nextAt e) (wordOf q.head))) _ _
    rw [links_write, linked]
    exact holds
  · change q.cnt + 1 = _
    rw [queue.cnt, List.length_cons, UInt32.ofNat_add]
    rfl
  · intro x outside
    exact write_other _ _ outside

end EmbeddedOS.Threads
