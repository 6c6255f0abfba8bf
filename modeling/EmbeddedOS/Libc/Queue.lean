import EmbeddedOS.Linked.Queue
import Mathlib.Data.Fintype.EquivFin
import Mathlib.Algebra.Group.Nat.Defs

/-! Q.h: queues of elements that are linked through a field in each, any number of them at once. -/
namespace EmbeddedOS.Libc
open Linked

section Calls

abbrev Elem := { p : UInt32 // p ≠ 0 }

structure Q extends Ends Elem where
  cnt : UInt32

def qMk : Q := { head := none, tail := none, cnt := 0 }

def qNelem (q : Q) : UInt32 := q.cnt

/-- none where an assert fails. -/
def qEmpty (q : Q) : Option Bool :=
  if q.head ≠ none then some false
  else if qNelem q = 0 ∧ q.tail = none then some true
  else none

/-- The element, and the queue behind it; an assert that fails gives none. -/
def qPop (next : Links Elem) (q : Q) : Option (Option Elem × Q) :=
  match q.head with
  | none => (qEmpty q).bind fun empty => if empty then some (none, q) else none
  | some e =>
    let head := next e
    some (some e, { head := head, tail := if head = none then none else q.tail, cnt := q.cnt - 1 })

def qAppend (next : Links Elem) (q : Q) (e : Elem) : Links Elem × Q :=
  let next := Function.update next e none
  match q.tail with
  | none => (next, { head := some e, tail := some e, cnt := q.cnt + 1 })
  | some t => (Function.update next t (some e), { head := q.head, tail := some e, cnt := q.cnt + 1 })

def qPush (next : Links Elem) (q : Q) (e : Elem) : Links Elem × Q :=
  let next := Function.update next e q.head
  (next, { head := some e, tail := if q.tail = none then some e else q.tail, cnt := q.cnt + 1 })

def qInsertAfter (next : Links Elem) (q : Q) (e : Option Elem) (eNew : Elem) : Links Elem × Q :=
  match e with
  | none => qPush next q eNew
  | some e =>
    if q.tail = some e then qAppend next q eNew
    else
      let q := { q with cnt := q.cnt + 1 }
      let next := Function.update next eNew (next e)
      (Function.update next e (some eNew), q)

inductive Op where
  | push (e : Elem)
  | append (e : Elem)
  | pop
  | insertAfter (e : Option Elem) (eNew : Elem)

def Op.run (next : Links Elem) (q : Q) : Op → Option (Option Elem × Links Elem × Q)
  | .push e => some (none, qPush next q e)
  | .append e => some (none, qAppend next q e)
  | .pop => (qPop next q).map fun r => (r.1, next, r.2)
  | .insertAfter e eNew => some (none, qInsertAfter next q e eNew)

end Calls

section Lists

def Op.list (l : List Elem) : Op → Option Elem × List Elem
  | .push e => (none, e :: l)
  | .append e => (none, l ++ [e])
  | .pop => (l.head?, l.tail)
  | .insertAfter none eNew => (none, eNew :: l)
  | .insertAfter (some e) eNew => (none, behind e eNew l)

def Op.new : Op → Option Elem
  | .push e => some e
  | .append e => some e
  | .pop => none
  | .insertAfter _ eNew => some eNew

def Op.after : Op → Option Elem
  | .insertAfter e _ => e
  | _ => none

theorem mem_list {op : Op} {l : List Elem} {b : Elem} (place : ∀ e, op.after = some e → e ∈ l)
    (inside : b ∈ (op.list l).2) : b ∈ l ∨ op.new = some b := by
  cases op with
  | push e => exact (List.mem_cons.mp inside).symm.imp_right fun same => congrArg some same.symm
  | append e =>
    exact (List.mem_append.mp inside).imp_right fun last => congrArg some (List.mem_singleton.mp last).symm
  | pop => exact Or.inl (List.mem_of_mem_tail inside)
  | insertAfter e eNew =>
    cases e with
    | none => exact (List.mem_cons.mp inside).symm.imp_right fun same => congrArg some same.symm
    | some e =>
      have either := (behind_perm (place e rfl)).mem_iff.mp inside
      exact (List.mem_cons.mp either).symm.imp_right fun same => congrArg some same.symm

end Lists

section Queues

/-- From the head on the elements of the list come in order, the last of them is the tail, they are
counted, and the asserts of Q_empty hold. -/
structure Represents (next : Links Elem) (q : Q) (l : List Elem) : Prop where
  chain : Chain next q.head l
  tail : q.tail = l.getLast?
  ends : q.tail = none ↔ q.head = none
  nodup : l.Nodup
  cnt : (qNelem q).toNat = l.length
  empty : qEmpty q = some (decide (l = []))

/-- Queues whose elements are linked through one memory. -/
structure Queues (ι : Type) where
  next : Links Elem
  queue : ι → Q

variable {ι : Type} [DecidableEq ι]

def call (s : Queues ι) (c : ι × Op) : Option (Option Elem × Queues ι) :=
  (c.2.run s.next (s.queue c.1)).map fun r => (r.1, ⟨r.2.1, Function.update s.queue c.1 r.2.2⟩)

def calls (s : Queues ι) : List (ι × Op) → Option (List (Option Elem) × Queues ι)
  | [] => some ([], s)
  | c :: cs => (call s c).bind fun r => (calls r.2 cs).map fun t => (r.1 :: t.1, t.2)

def onLists (ls : ι → List Elem) : List (ι × Op) → List (Option Elem) × (ι → List Elem)
  | [] => ([], ls)
  | c :: cs =>
    let r := c.2.list (ls c.1)
    let t := onLists (Function.update ls c.1 r.2) cs
    (r.1 :: t.1, t.2)

/-- A new element is in none of the queues, and one behind which it is put is in this queue. -/
structure Distinct (ls : ι → List Elem) (c : ι × Op) : Prop where
  new : ∀ e, c.2.new = some e → ∀ j, e ∉ ls j
  after : ∀ e, c.2.after = some e → e ∈ ls c.1

def AllDistinct (ls : ι → List Elem) : List (ι × Op) → Prop
  | [] => True
  | c :: cs => Distinct ls c ∧ AllDistinct (Function.update ls c.1 (c.2.list (ls c.1)).2) cs

end Queues

section Step

variable {next : Links Elem} {q : Q} {l : List Elem}

structure Counted (next : Links Elem) (q : Q) (l : List Elem) : Prop where
  holds : Holds next q.toEnds l
  cnt : q.cnt = UInt32.ofNat l.length

theorem append_eq (next : Links Elem) (q : Q) (e : Elem) : qAppend next q e =
    ((append next q.toEnds e).1, { toEnds := (append next q.toEnds e).2, cnt := q.cnt + 1 }) := by
  unfold qAppend append
  cases q.tail <;> rfl

theorem insert_after_eq (next : Links Elem) (q : Q) (a eNew : Elem) :
    qInsertAfter next q (some a) eNew = ((insertAfter next q.toEnds (some a) eNew).1,
      { toEnds := (insertAfter next q.toEnds (some a) eNew).2, cnt := q.cnt + 1 }) := by
  unfold qInsertAfter insertAfter
  dsimp only
  split
  · exact append_eq next q eNew
  · rfl

theorem count_more {l' : List Elem} (counted : Counted next q l) (longer : l'.length = l.length + 1) :
    q.cnt + 1 = UInt32.ofNat l'.length := by
  rw [counted.cnt, longer, UInt32.ofNat_add]
  rfl

theorem empty_counted (counted : Counted next q l) : qEmpty q = some (decide (l = [])) := by
  cases l with
  | nil =>
    have head : q.head = none := counted.holds.chain
    have tail : q.tail = none := counted.holds.last
    have cnt : q.cnt = 0 := counted.cnt
    simp [qEmpty, qNelem, head, tail, cnt]
  | cons a l =>
    have head : q.head = some a := counted.holds.chain.1
    simp [qEmpty, head]

theorem pop_nil_counted (counted : Counted next q []) : qPop next q = some (none, q) := by
  have head : q.head = none := counted.holds.chain
  rw [qPop, head]
  dsimp only
  rw [empty_counted counted]
  rfl

theorem pop_cons_counted {a : Elem} (counted : Counted next q (a :: l)) :
    ∃ q', qPop next q = some (some a, q') ∧ Counted next q' l := by
  obtain ⟨ends, popped, holds⟩ := pop_cons counted.holds
  have head : q.head = some a := counted.holds.chain.1
  rw [Linked.pop, head] at popped
  cases popped
  refine ⟨_, by rw [qPop, head], holds, ?_⟩
  change q.cnt - 1 = _
  rw [counted.cnt, List.length_cons, UInt32.ofNat_add]
  exact UInt32.add_sub_cancel _ _

/-- A call does on the queue what the operation does on the list, and leaves all other elements. -/
theorem run_counted {op : Op} (counted : Counted next q l) (fresh : ∀ e, op.new = some e → e ∉ l)
    (place : ∀ e, op.after = some e → e ∈ l) :
    ∃ next' q', op.run next q = some ((op.list l).1, next', q') ∧ Counted next' q' (op.list l).2 ∧
      ∀ b, b ∉ l → op.new ≠ some b → next' b = next b := by
  have pushed (e : Elem) (new : e ∉ l) : Counted (qPush next q e).1 (qPush next q e).2 (e :: l) :=
    ⟨push_holds counted.holds new, count_more counted rfl⟩
  cases op with
  | push e =>
    refine ⟨_, _, rfl, pushed e (fresh e rfl), fun b _ other => ?_⟩
    exact push_other fun same => other (congrArg some same.symm)
  | append e =>
    refine ⟨(qAppend next q e).1, (qAppend next q e).2, rfl, ?_, fun b outside other => ?_⟩
    · rw [append_eq]
      exact ⟨append_holds counted.holds (fresh e rfl), count_more counted List.length_append⟩
    · rw [append_eq]
      exact append_other counted.holds (fun same => other (congrArg some same.symm)) outside
  | pop =>
    cases l with
    | nil => exact ⟨next, q, by rw [Op.run, pop_nil_counted counted]; rfl, counted, fun _ _ _ => rfl⟩
    | cons a l =>
      obtain ⟨q', popped, left⟩ := pop_cons_counted counted
      exact ⟨next, q', by rw [Op.run, popped]; rfl, left, fun _ _ _ => rfl⟩
  | insertAfter a eNew =>
    cases a with
    | none =>
      refine ⟨_, _, rfl, pushed eNew (fresh eNew rfl), fun b _ other => ?_⟩
      exact push_other fun same => other (congrArg some same.symm)
    | some a =>
      refine ⟨(qInsertAfter next q (some a) eNew).1, (qInsertAfter next q (some a) eNew).2, rfl,
        ?_, fun b outside other => ?_⟩
      · rw [insert_after_eq]
        exact ⟨insertAfter_holds counted.holds (place a rfl) (fresh eNew rfl),
          count_more counted (behind_perm (place a rfl)).length_eq⟩
      · rw [insert_after_eq]
        exact insertAfter_other counted.holds (place a rfl) (fun same => other (congrArg some same.symm))
          outside

end Step

section Run

variable {ι : Type} [DecidableEq ι] {s : Queues ι} {ls : ι → List Elem}

/-- Every queue holds its list, and no two of them share an element. -/
structure Apart (s : Queues ι) (ls : ι → List Elem) : Prop where
  counted : ∀ i, Counted s.next (s.queue i) (ls i)
  apart : ∀ i j, i ≠ j → ∀ e ∈ ls i, e ∉ ls j

theorem call_apart {c : ι × Op} (inv : Apart s ls) (distinct : Distinct ls c) :
    ∃ s', call s c = some ((c.2.list (ls c.1)).1, s') ∧
      Apart s' (Function.update ls c.1 (c.2.list (ls c.1)).2) := by
  obtain ⟨i, op⟩ := c
  obtain ⟨next', q', ran, counted, others⟩ :=
    run_counted (inv.counted i) (fun e new => distinct.new e new i) distinct.after
  refine ⟨⟨next', Function.update s.queue i q'⟩, by rw [call, ran]; rfl, fun j => ?_, ?_⟩
  · change Counted next' (Function.update s.queue i q' j) (Function.update ls i _ j)
    by_cases here : j = i
    · subst here
      rw [Function.update_self, Function.update_self]
      exact counted
    · rw [Function.update_of_ne here, Function.update_of_ne here]
      refine ⟨(inv.counted j).holds.congr fun b inside => ?_, (inv.counted j).cnt⟩
      exact others b (inv.apart j i here b inside) fun new => distinct.new b new j inside
  · have only_here {j : ι} (other : j ≠ i) : ∀ e ∈ (op.list (ls i)).2, e ∉ ls j := by
      intro e inside
      obtain before | new := mem_list distinct.after inside
      · exact inv.apart i j other.symm e before
      · exact distinct.new e new j
    intro j k different e inside
    by_cases first : j = i
    · subst first
      rw [Function.update_self] at inside
      rw [Function.update_of_ne different.symm]
      exact only_here different.symm e inside
    · rw [Function.update_of_ne first] at inside
      by_cases second : k = i
      · subst second
        rw [Function.update_self]
        exact fun also => only_here first e also inside
      · rw [Function.update_of_ne second]
        exact inv.apart j k different e inside

theorem calls_apart {cs : List (ι × Op)} (inv : Apart s ls) (distinct : AllDistinct ls cs) :
    ∃ s', calls s cs = some ((onLists ls cs).1, s') ∧ Apart s' (onLists ls cs).2 := by
  induction cs generalizing s ls with
  | nil => exact ⟨s, rfl, inv⟩
  | cons c cs ih =>
    obtain ⟨t, called, kept⟩ := call_apart inv distinct.1
    obtain ⟨s', ran, apart⟩ := ih kept distinct.2
    exact ⟨s', by rw [calls, called, Option.bind_some, ran]; rfl, apart⟩

/-- There are not so many addresses that the counter could wrap. -/
theorem elems_few {l : List Elem} (nodup : l.Nodup) : l.length < 2 ^ 32 := by
  let place (e : Elem) : Fin (2 ^ 32 - 1) := ⟨e.val.toNat - 1, by
    have bound := e.val.toNat_lt
    have positive : e.val.toNat ≠ 0 := fun zero => e.property (UInt32.toNat_inj.mp zero)
    omega⟩
  have inj : Function.Injective place := by
    intro a b same
    have words := congrArg Fin.val same
    have a_positive : a.val.toNat ≠ 0 := fun zero => a.property (UInt32.toNat_inj.mp zero)
    have b_positive : b.val.toNat ≠ 0 := fun zero => b.property (UInt32.toNat_inj.mp zero)
    change a.val.toNat - 1 = b.val.toNat - 1 at words
    exact Subtype.ext (UInt32.toNat_inj.mp (by omega))
  have bound := (nodup.map inj).length_le_card
  rw [List.length_map, Fintype.card_fin] at bound
  omega

theorem Counted.represents {next : Links Elem} {q : Q} {l : List Elem} (counted : Counted next q l) :
    Represents next q l := by
  have empty := empty_counted counted
  obtain ⟨⟨chain, last, nodup⟩, cnt⟩ := counted
  refine ⟨chain, last, ?_, nodup, ?_, empty⟩
  · rw [last, List.getLast?_eq_none_iff]
    cases l with
    | nil => exact iff_of_true rfl chain
    | cons a l => exact iff_of_false (List.cons_ne_nil a l) fun none => by cases none.symm.trans chain.1
  · rw [qNelem, cnt, UInt32.toNat_ofNat', Nat.mod_eq_of_lt (elems_few nodup)]

end Run

/-- Any calls on queues that begin empty return, with no assert failing, what the operations on the lists
give, and leave each queue with its list. -/
theorem queues_represent {ι : Type} [DecidableEq ι] (next : Links Elem) {cs : List (ι × Op)}
    (distinct : AllDistinct (fun _ => []) cs) :
    ∃ s, calls ⟨next, fun _ => qMk⟩ cs = some ((onLists (fun _ => []) cs).1, s) ∧
      ∀ i, Represents s.next (s.queue i) ((onLists (fun _ => []) cs).2 i) := by
  have begin_empty : Apart (⟨next, fun _ => qMk⟩ : Queues ι) fun _ => [] :=
    ⟨fun _ => ⟨holds_empty next, rfl⟩, nofun⟩
  obtain ⟨s, ran, inv⟩ := calls_apart begin_empty distinct
  exact ⟨s, ran, fun i => (inv.counted i).represents⟩

def headElem : Elem := ⟨0x1000, by decide⟩

def lastElem : Elem := ⟨0x2000, by decide⟩

def midElem : Elem := ⟨0x3000, by decide⟩

theorem inserted_comes_second : ∃ s : Queues Unit,
    calls ⟨fun _ => none, fun _ => qMk⟩ [((), .append headElem), ((), .append lastElem),
      ((), .insertAfter (some headElem) midElem), ((), .pop)] = some ([none, none, none, some headElem], s) ∧
      ∀ i, Represents s.next (s.queue i) [midElem, lastElem] := by
  refine queues_represent (fun _ => none) ⟨⟨?_, nofun⟩, ⟨?_, nofun⟩, ⟨?_, ?_⟩, ⟨nofun, nofun⟩, trivial⟩
  · rintro e ⟨⟩ ⟨⟩
    decide
  · rintro e ⟨⟩ ⟨⟩
    decide
  · rintro e ⟨⟩ ⟨⟩
    decide
  · rintro e ⟨⟩
    decide

end EmbeddedOS.Libc
