import Mathlib.Data.List.Nodup
import Mathlib.Logic.Function.Basic

/-! A queue of nodes that are linked through a pointer in each, with a pointer to either end. -/
namespace Linked

variable {α : Type}

abbrev Links (α : Type) := α → Option α

structure Ends (α : Type) where
  head : Option α
  tail : Option α

def Ends.empty : Ends α := ⟨none, none⟩

def pop (next : Links α) (q : Ends α) : Option α × Ends α :=
  match q.head with
  | none => (none, q)
  | some e => (some e, ⟨next e, if next e = none then none else q.tail⟩)

/-- The nodes met from a pointer on, up to the null pointer. -/
def Chain (next : Links α) : Option α → List α → Prop
  | p, [] => p = none
  | p, a :: l => p = some a ∧ Chain next (next a) l

/-- The queue holds these nodes, each once. -/
structure Holds (next : Links α) (q : Ends α) (l : List α) : Prop where
  chain : Chain next q.head l
  last : q.tail = l.getLast?
  nodup : l.Nodup

theorem Chain.congr {next next' : Links α} {p : Option α} {l : List α} (chain : Chain next p l)
    (same : ∀ a ∈ l, next' a = next a) : Chain next' p l := by
  induction l generalizing p with
  | nil => exact chain
  | cons a l ih =>
    refine ⟨chain.1, ?_⟩
    rw [same a List.mem_cons_self]
    exact ih chain.2 (fun b inside => same b (List.mem_cons_of_mem a inside))

theorem Holds.congr {next next' : Links α} {q : Ends α} {l : List α} (holds : Holds next q l)
    (same : ∀ a ∈ l, next' a = next a) : Holds next' q l :=
  ⟨holds.chain.congr same, holds.last, holds.nodup⟩

theorem holds_empty (next : Links α) : Holds next Ends.empty [] := ⟨rfl, rfl, List.nodup_nil⟩

theorem pop_nil {next : Links α} {q : Ends α} (holds : Holds next q []) : pop next q = (none, q) := by
  have head : q.head = none := holds.chain
  rw [pop, head]

theorem pop_cons {next : Links α} {q : Ends α} {a : α} {l : List α} (holds : Holds next q (a :: l)) :
    ∃ q', pop next q = (some a, q') ∧ Holds next q' l := by
  obtain ⟨head, chain⟩ := holds.chain
  refine ⟨_, by rw [pop, head], chain, ?_, (List.nodup_cons.mp holds.nodup).2⟩
  cases l with
  | nil =>
    have ends : next a = none := chain
    rw [if_pos ends]
    rfl
  | cons b l =>
    have more : next a ≠ none := by
      rw [chain.1]
      exact Option.some_ne_none b
    rw [if_neg more, holds.last]
    simp

section Writes

variable [DecidableEq α]

def append (next : Links α) (q : Ends α) (e : α) : Links α × Ends α :=
  match q.tail with
  | none => (Function.update next e none, ⟨some e, some e⟩)
  | some t => (Function.update (Function.update next e none) t (some e), ⟨q.head, some e⟩)

def push (next : Links α) (q : Ends α) (e : α) : Links α × Ends α :=
  (Function.update next e q.head, ⟨some e, if q.tail = none then some e else q.tail⟩)

theorem Chain.append {next : Links α} {p : Option α} {l : List α} {t e : α} (chain : Chain next p l)
    (last : l.getLast? = some t) (nodup : l.Nodup) (fresh : e ∉ l) :
    Chain (Function.update (Function.update next e none) t (some e)) p (l ++ [e]) := by
  induction l generalizing p with
  | nil => cases last
  | cons a l ih =>
    obtain ⟨other, later⟩ := not_or.mp (fun either => fresh (List.mem_cons.mpr either))
    refine ⟨chain.1, ?_⟩
    cases l with
    | nil =>
      have same : a = t := Option.some.inj last
      subst same
      have ends : Function.update (Function.update next e none) a (some e) e = none := by
        rw [Function.update_of_ne other, Function.update_self]
      exact ⟨Function.update_self .., ends⟩
    | cons b l =>
      have last' : (b :: l).getLast? = some t := by simpa using last
      have inside : t ∈ b :: l := List.mem_of_getLast? last'
      have apart : a ≠ t := fun same => (List.nodup_cons.mp nodup).1 (same ▸ inside)
      rw [Function.update_of_ne apart, Function.update_of_ne (Ne.symm other)]
      exact ih chain.2 last' (List.nodup_cons.mp nodup).2 later

theorem append_holds {next : Links α} {q : Ends α} {l : List α} {e : α} (holds : Holds next q l)
    (fresh : e ∉ l) : Holds (append next q e).1 (append next q e).2 (l ++ [e]) := by
  have nodup : (l ++ [e]).Nodup := by
    rw [← List.concat_eq_append]
    exact List.Nodup.concat fresh holds.nodup
  have last := holds.last
  unfold append
  cases tail : q.tail with
  | none =>
    rw [tail] at last
    have none_left : l = [] := List.getLast?_eq_none_iff.mp last.symm
    subst none_left
    exact ⟨⟨rfl, Function.update_self ..⟩, rfl, nodup⟩
  | some t =>
    rw [tail] at last
    exact ⟨holds.chain.append last.symm holds.nodup fresh, by simp, nodup⟩

theorem push_holds {next : Links α} {q : Ends α} {l : List α} {e : α} (holds : Holds next q l)
    (fresh : e ∉ l) : Holds (push next q e).1 (push next q e).2 (e :: l) := by
  have kept : ∀ a ∈ l, (push next q e).1 a = next a := by
    intro a inside
    have other : a ≠ e := fun same => fresh (same ▸ inside)
    exact Function.update_of_ne other _ _
  have linked : (push next q e).1 e = q.head := Function.update_self ..
  refine ⟨⟨rfl, ?_⟩, ?_, List.nodup_cons.mpr ⟨fresh, holds.nodup⟩⟩
  · rw [linked]
    exact holds.chain.congr kept
  · unfold push
    cases l with
    | nil =>
      have none_left : q.tail = none := holds.last
      simp [none_left]
    | cons b l => simp [holds.last]

def behind (a new : α) : List α → List α
  | [] => []
  | b :: l => if b = a then b :: new :: l else b :: behind a new l

theorem behind_perm {a new : α} {l : List α} (inside : a ∈ l) : (behind a new l).Perm (new :: l) := by
  induction l with
  | nil => cases inside
  | cons b l ih =>
    rw [behind]
    split
    · exact List.Perm.swap new b l
    · rename_i other
      have later : a ∈ l := (List.mem_cons.mp inside).resolve_left (Ne.symm other)
      exact ((ih later).cons b).trans (List.Perm.swap new b l)

theorem behind_last {a new : α} {l : List α} (last : l.getLast? = some a) (nodup : l.Nodup) :
    behind a new l = l ++ [new] := by
  induction l with
  | nil => cases last
  | cons b l ih =>
    cases l with
    | nil =>
      cases last
      exact if_pos rfl
    | cons c l =>
      have last' : (c :: l).getLast? = some a := by simpa using last
      have apart : b ≠ a := fun same => (List.nodup_cons.mp nodup).1 (same ▸ List.mem_of_getLast? last')
      rw [behind, if_neg apart, ih last' (List.nodup_cons.mp nodup).2]
      rfl

theorem behind_getLast {a new : α} {l : List α} (other : l.getLast? ≠ some a) :
    (behind a new l).getLast? = l.getLast? := by
  induction l with
  | nil => rfl
  | cons b l ih =>
    cases l with
    | nil =>
      have apart : b ≠ a := fun same => other (congrArg some same)
      rw [behind, if_neg apart]
      rfl
    | cons c l =>
      have other' : (c :: l).getLast? ≠ some a := by simpa using other
      rw [behind]
      split
      · simp
      · have more : behind a new (c :: l) ≠ [] := by
          rw [behind]
          split <;> simp
        rw [List.getLast?_cons_of_ne_nil more, ih other']
        simp

theorem Chain.behind {next : Links α} {p : Option α} {l : List α} {a e : α} (chain : Chain next p l)
    (nodup : l.Nodup) (fresh : e ∉ l) (inside : a ∈ l) :
    Chain (Function.update (Function.update next e (next a)) a (some e)) p (behind a e l) := by
  induction l generalizing p with
  | nil => cases inside
  | cons b l ih =>
    obtain ⟨other, later⟩ := not_or.mp (fun either => fresh (List.mem_cons.mpr either))
    obtain ⟨first, rest⟩ := List.nodup_cons.mp nodup
    rw [Linked.behind]
    split
    · rename_i same
      subst same
      have linked : Function.update (Function.update next e (next b)) b (some e) e = next b := by
        rw [Function.update_of_ne other, Function.update_self]
      refine ⟨chain.1, Function.update_self .., ?_⟩
      rw [linked]
      refine chain.2.congr fun c inside => ?_
      have not_b : c ≠ b := fun same => first (same ▸ inside)
      have not_e : c ≠ e := fun same => later (same ▸ inside)
      rw [Function.update_of_ne not_b, Function.update_of_ne not_e]
    · rename_i apart
      refine ⟨chain.1, ?_⟩
      rw [Function.update_of_ne apart, Function.update_of_ne (Ne.symm other)]
      exact ih chain.2 rest later ((List.mem_cons.mp inside).resolve_left (Ne.symm apart))

/-- Behind a node of the queue, or at its head. -/
def insertAfter (next : Links α) (q : Ends α) (e : Option α) (new : α) : Links α × Ends α :=
  match e with
  | none => push next q new
  | some a =>
    if q.tail = some a then append next q new
    else (Function.update (Function.update next new (next a)) a (some new), q)

theorem insertAfter_holds {next : Links α} {q : Ends α} {l : List α} {a new : α} (holds : Holds next q l)
    (inside : a ∈ l) (fresh : new ∉ l) :
    Holds (insertAfter next q (some a) new).1 (insertAfter next q (some a) new).2 (behind a new l) := by
  rw [insertAfter]
  split
  · rename_i tail
    rw [behind_last (holds.last.symm.trans tail) holds.nodup]
    exact append_holds holds fresh
  · rename_i other
    rw [holds.last] at other
    refine ⟨holds.chain.behind holds.nodup fresh inside, ?_, ?_⟩
    · rw [behind_getLast other]
      exact holds.last
    · exact (behind_perm inside).nodup_iff.mpr (List.nodup_cons.mpr ⟨fresh, holds.nodup⟩)

theorem push_other {next : Links α} {q : Ends α} {e b : α} (other : b ≠ e) :
    (push next q e).1 b = next b := Function.update_of_ne other _ _

theorem append_other {next : Links α} {q : Ends α} {l : List α} {e b : α} (holds : Holds next q l)
    (other : b ≠ e) (outside : b ∉ l) : (append next q e).1 b = next b := by
  have last := holds.last
  unfold append
  cases tail : q.tail with
  | none => exact Function.update_of_ne other _ _
  | some t =>
    rw [tail] at last
    have apart : b ≠ t := fun same => outside (same ▸ List.mem_of_getLast? last.symm)
    exact (Function.update_of_ne apart _ _).trans (Function.update_of_ne other _ _)

theorem insertAfter_other {next : Links α} {q : Ends α} {l : List α} {a new b : α}
    (holds : Holds next q l) (inside : a ∈ l) (other : b ≠ new) (outside : b ∉ l) :
    (insertAfter next q (some a) new).1 b = next b := by
  rw [insertAfter]
  split
  · exact append_other holds other outside
  · have apart : b ≠ a := fun same => outside (same ▸ inside)
    exact (Function.update_of_ne apart _ _).trans (Function.update_of_ne other _ _)

end Writes

end Linked
