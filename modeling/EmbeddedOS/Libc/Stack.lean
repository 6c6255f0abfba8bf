import EmbeddedOS.Linked.Queue
import EmbeddedOS.Steps.Run
import Mathlib.Data.List.Range
import Mathlib.Algebra.Group.Nat.Defs

/-! stack-T.h: a stack in an array of fixed size, with the counter behind it. -/
namespace EmbeddedOS.Libc.Stack

section Code

/-- What is at each index from the begin of the array on, inside it or not, and the counter. -/
structure StackT (α : Type) where
  stack : UInt32 → α
  cnt : UInt32

variable {α : Type}

/-- What the array and the memory behind it hold is left open. -/
def mk (stack : UInt32 → α) : StackT α := { stack := stack, cnt := 0 }

variable (N : UInt32) (behind : UInt32 → α → UInt32 → UInt32) (s : StackT α)

/-- A store through a pointer; one behind the array may hit the counter. -/
def store (p : UInt32) (e : α) : StackT α where
  stack := Function.update s.stack p e
  cnt := if p < N then s.cnt else behind p e s.cnt

/-- A pointer is the index of what it points to. -/
def pushPtr : Option (UInt32 × StackT α) :=
  if s.cnt > N then none else some (s.cnt, { s with cnt := s.cnt + 1 })

def push (e : α) : Option (UInt32 × StackT α) :=
  (pushPtr N s).map fun r => (r.1, store N behind r.2 r.1 e)

def popPtr : Option (Option UInt32 × StackT α) :=
  if s.cnt = 0 then some (none, s)
  else if s.cnt > 0 then some (some (s.cnt - 1), { s with cnt := s.cnt - 1 })
  else none

def pop : Option (α × StackT α) :=
  (popPtr s).bind fun r => r.1.map fun p => (r.2.stack p, r.2)

def cnt : UInt32 := s.cnt

def idx (i : UInt32) : Option UInt32 := if i < N then some i else none

def first : Option UInt32 := if s.cnt = 0 then none else some 0

def last : Option UInt32 := if s.cnt = 0 then none else some (s.cnt - 1)

def next (e : UInt32) : Option UInt32 := if some e = last s then none else some (e + 1)

def prev (e : UInt32) : Option UInt32 := if some e = first s then none else some (e - 1)

end Code

section Calls

/-- The calls, and stores of the client through a pointer into the array. -/
inductive Op (α : Type) where
  | push (e : α)
  | pushPtr
  | pop
  | popPtr
  | assign (i : UInt32) (e : α)

def Op.pushes {α : Type} : Op α → Bool
  | .push _ => true
  | .pushPtr => true
  | _ => false

inductive Result (α : Type) where
  | slot (p : UInt32) (e : α)
  | null
  | elem (e : α)
  | stored

variable {α : Type} (N : UInt32) (behind : UInt32 → α → UInt32 → UInt32)

/-- What a call returns, and the stack behind it; none where it panics. -/
def call (s : StackT α) : Op α → Option (Result α × StackT α)
  | .push e => (push N behind s e).map fun r => (.slot r.1 (r.2.stack r.1), r.2)
  | .pushPtr => (pushPtr N s).map fun r => (.slot r.1 (r.2.stack r.1), r.2)
  | .pop => (pop s).map fun r => (.elem r.1, r.2)
  | .popPtr => (popPtr s).map fun r => (r.1.elim .null fun p => .slot p (r.2.stack p), r.2)
  | .assign i e => (idx N i).map fun p => (.stored, store N behind s p e)

def step (s : StackT α) (op : Op α) : Option (StackT α) := (call N behind s op).map Prod.snd

end Calls

section Purpose

variable {α : Type}

/-- The operations on a list, with its last element on top; what push_ptr makes room for is open. -/
inductive Lifo (N : Nat) : List α → Op α → Result α → List α → Prop where
  | push {l : List α} {e : α} {p : UInt32} (room : l.length < N) (top : p.toNat = l.length) :
      Lifo N l (.push e) (.slot p e) (l ++ [e])
  | pushPtr {l : List α} {e : α} {p : UInt32} (room : l.length < N) (top : p.toNat = l.length) :
      Lifo N l .pushPtr (.slot p e) (l ++ [e])
  | pop {l : List α} {e : α} : Lifo N (l ++ [e]) .pop (.elem e) l
  | popPtr {l : List α} {e : α} {p : UInt32} (room : l.length < N) (top : p.toNat = l.length) :
      Lifo N (l ++ [e]) .popPtr (.slot p e) l
  | nothing : Lifo N [] .popPtr .null []
  | assign {l : List α} {i : UInt32} {e : α} (inside : i.toNat < N) :
      Lifo N l (.assign i e) .stored (l.set i.toNat e)

/-- The calls that are to panic: a push on a full stack, a pop on an empty one, an index outside. -/
inductive Panics (N : Nat) : List α → Op α → Prop where
  | push {l : List α} {e : α} (full : l.length = N) : Panics N l (.push e)
  | pushPtr {l : List α} (full : l.length = N) : Panics N l .pushPtr
  | pop : Panics N [] .pop
  | assign {l : List α} {i : UInt32} {e : α} (outside : N ≤ i.toNat) : Panics N l (.assign i e)

def slots (n : Nat) : List UInt32 := (List.range n).map UInt32.ofNat

/-- The array holds the list from its begin on, and both iterations meet its elements, each once. -/
structure Represents (N : Nat) (s : StackT α) (l : List α) : Prop where
  cnt : (cnt s).toNat = l.length
  room : l.length ≤ N
  elems : (slots l.length).map s.stack = l
  once : (slots l.length).Nodup
  forward : Linked.Chain (next s) (first s) (slots l.length)
  backward : Linked.Chain (prev s) (last s) (slots l.length).reverse

/-- In every state of the run the stack holds a list, and each call does on the list what it is to do. -/
def AllRight (N : UInt32) (behind : UInt32 → α → UInt32 → UInt32) (s : StackT α) (l : List α) :
    List (Op α) → Prop
  | [] => Represents N.toNat s l
  | op :: ops => Represents N.toNat s l ∧
    match call N behind s op with
    | none => Panics N.toNat l op
    | some (r, s') => ∃ l', Lifo N.toNat l op r l' ∧ AllRight N behind s' l' ops

end Purpose

section Iteration

variable {α : Type} {s : StackT α} {n : Nat}

theorem slot_toNat {i : Nat} (small : i < 2 ^ 32) : (UInt32.ofNat i).toNat = i := by
  rw [UInt32.toNat_ofNat', Nat.mod_eq_of_lt small]

theorem slot_of_toNat {p : UInt32} (same : p.toNat = n) : p = UInt32.ofNat n := by
  rw [← same, UInt32.ofNat_toNat]

theorem slot_inj {i j : Nat} (low : i < 2 ^ 32) (low' : j < 2 ^ 32) :
    UInt32.ofNat i = UInt32.ofNat j ↔ i = j := by
  rw [← UInt32.toNat_inj, slot_toNat low, slot_toNat low']

theorem slot_zero {i : Nat} (low : i < 2 ^ 32) : UInt32.ofNat i = 0 ↔ i = 0 := slot_inj low (by decide)

theorem slot_more (i : Nat) : UInt32.ofNat i + 1 = UInt32.ofNat (i + 1) := (UInt32.ofNat_add i 1).symm

theorem slot_less (i : Nat) : UInt32.ofNat (i + 1) - 1 = UInt32.ofNat i := by
  rw [← slot_more, UInt32.add_sub_cancel]

theorem slots_nodup (small : n ≤ 2 ^ 32) : (slots n).Nodup := by
  refine List.Nodup.map_on (fun i low j low' same => ?_) List.nodup_range
  have bound := List.mem_range.mp low
  have bound' := List.mem_range.mp low'
  exact (slot_inj (by omega) (by omega)).mp same

theorem last_slot (counted : s.cnt = UInt32.ofNat (n + 1)) (small : n + 1 < 2 ^ 32) :
    last s = some (UInt32.ofNat n) := by
  have some_left : s.cnt ≠ 0 := by
    rw [counted]
    exact fun zero => Nat.succ_ne_zero n ((slot_zero small).mp zero)
  rw [last, if_neg some_left, counted, slot_less]

theorem chain_from (counted : s.cnt = UInt32.ofNat n) (small : n < 2 ^ 32) {i k : Nat} (ends : i + (k + 1) = n) :
    Linked.Chain (next s) (some (UInt32.ofNat i)) ((List.range' i (k + 1)).map UInt32.ofNat) := by
  induction k generalizing i with
  | zero =>
    subst ends
    refine ⟨rfl, ?_⟩
    change next s (UInt32.ofNat i) = none
    rw [next, last_slot counted small, if_pos rfl]
  | succ k ih =>
    have more : next s (UInt32.ofNat i) = some (UInt32.ofNat (i + 1)) := by
      have other : some (UInt32.ofNat i) ≠ last s := by
        rw [last_slot (n := i + k + 1) (by rw [counted, ← ends]; rfl) (by omega)]
        intro same
        have index := (slot_inj (by omega) (by omega)).mp (Option.some.inj same)
        omega
      rw [next, if_neg other, slot_more]
    refine ⟨rfl, ?_⟩
    rw [more]
    exact ih (by omega)

theorem chain_forward (counted : s.cnt = UInt32.ofNat n) (small : n < 2 ^ 32) :
    Linked.Chain (next s) (first s) (slots n) := by
  cases n with
  | zero =>
    change first s = none
    rw [first, counted]
    rfl
  | succ n =>
    have some_left : s.cnt ≠ 0 := by
      rw [counted]
      exact fun zero => Nat.succ_ne_zero n ((slot_zero small).mp zero)
    rw [first, if_neg some_left, slots, List.range_eq_range']
    exact chain_from (i := 0) counted small (Nat.zero_add (n + 1))

theorem chain_to (counted : s.cnt = UInt32.ofNat n) (small : n < 2 ^ 32) {m : Nat} (inside : m < n) :
    Linked.Chain (prev s) (some (UInt32.ofNat m)) (slots (m + 1)).reverse := by
  have begins : first s = some 0 := by
    rw [first, if_neg]
    rw [counted, slot_zero small]
    omega
  induction m with
  | zero =>
    refine ⟨rfl, ?_⟩
    change prev s (UInt32.ofNat 0) = none
    rw [prev, begins]
    rfl
  | succ m ih =>
    have less : prev s (UInt32.ofNat (m + 1)) = some (UInt32.ofNat m) := by
      have other : some (UInt32.ofNat (m + 1)) ≠ first s := by
        rw [begins]
        intro same
        exact Nat.succ_ne_zero m ((slot_zero (by omega)).mp (Option.some.inj same))
      rw [prev, if_neg other, slot_less]
    have top : (slots (m + 1 + 1)).reverse = UInt32.ofNat (m + 1) :: (slots (m + 1)).reverse := by
      rw [slots, List.range_succ, List.map_append, List.reverse_append]
      rfl
    rw [top]
    refine ⟨rfl, ?_⟩
    rw [less]
    exact ih (by omega)

theorem chain_backward (counted : s.cnt = UInt32.ofNat n) (small : n < 2 ^ 32) :
    Linked.Chain (prev s) (last s) (slots n).reverse := by
  cases n with
  | zero =>
    change last s = none
    rw [last, counted]
    rfl
  | succ n =>
    rw [last_slot counted small]
    exact chain_to counted small (Nat.lt_succ_self n)

end Iteration

section Step

variable {α : Type} {N : UInt32} {behind : UInt32 → α → UInt32 → UInt32} {s : StackT α} {l : List α}

/-- The first entries of the array, as many as the counter says, are the list. -/
structure Holds (N : UInt32) (s : StackT α) (l : List α) : Prop where
  cnt : s.cnt = UInt32.ofNat l.length
  room : l.length ≤ N.toNat
  elems : ∀ i < l.length, l[i]? = some (s.stack (UInt32.ofNat i))

theorem Holds.small (holds : Holds N s l) : l.length < 2 ^ 32 := Nat.lt_of_le_of_lt holds.room N.toNat_lt

theorem Holds.cnt_toNat (holds : Holds N s l) : s.cnt.toNat = l.length := by
  rw [holds.cnt, slot_toNat holds.small]

theorem Holds.represents (holds : Holds N s l) : Represents N.toNat s l where
  cnt := holds.cnt_toNat
  room := holds.room
  elems := by
    apply List.ext_getElem?
    intro i
    by_cases inside : i < l.length
    · rw [holds.elems i inside, slots, List.map_map, List.getElem?_map, List.getElem?_range inside]
      rfl
    · rw [List.getElem?_eq_none (by rw [slots, List.length_map, List.length_map, List.length_range]; omega),
        List.getElem?_eq_none (by omega)]
  once := slots_nodup (Nat.le_of_lt holds.small)
  forward := chain_forward holds.cnt holds.small
  backward := chain_backward holds.cnt holds.small

theorem Represents.holds (represents : Represents N.toNat s l) : Holds N s l where
  cnt := slot_of_toNat represents.cnt
  room := represents.room
  elems := by
    intro i inside
    rw [← represents.elems] at inside ⊢
    rw [List.length_map] at inside
    rw [List.getElem?_map, slots, List.getElem?_map, List.getElem?_range]
    · rfl
    · simpa [slots] using inside

theorem push_holds {e : α} (holds : Holds N s l) (room : l.length < N.toNat) {stack : UInt32 → α}
    (below : ∀ i < l.length, stack (UInt32.ofNat i) = s.stack (UInt32.ofNat i))
    (top : stack (UInt32.ofNat l.length) = e) : Holds N ⟨stack, s.cnt + 1⟩ (l ++ [e]) := by
  refine ⟨?_, by rw [List.length_append]; exact room, fun i inside => ?_⟩
  · change s.cnt + 1 = _
    rw [holds.cnt, slot_more, List.length_append]
    rfl
  · change _ = some (stack _)
    rw [List.length_append, List.length_singleton] at inside
    by_cases before : i < l.length
    · rw [List.getElem?_append_left before, below i before]
      exact holds.elems i before
    · have last : i = l.length := by omega
      subst last
      rw [top, List.getElem?_append_right (Nat.le_refl _), Nat.sub_self]
      rfl

theorem pop_holds {e : α} (holds : Holds N s (l ++ [e])) :
    Holds N { s with cnt := s.cnt - 1 } l ∧ s.cnt ≠ 0 ∧ s.cnt - 1 = UInt32.ofNat l.length ∧
      s.stack (s.cnt - 1) = e ∧ l.length < N.toNat := by
  have cnt := holds.cnt
  have room := holds.room
  have small := holds.small
  rw [List.length_append, List.length_singleton] at cnt room small
  have less : s.cnt - 1 = UInt32.ofNat l.length := by rw [cnt, slot_less]
  have below {i : Nat} (inside : i < l.length + 1) : (l ++ [e])[i]? = some (s.stack (UInt32.ofNat i)) :=
    holds.elems i (by simpa using inside)
  refine ⟨⟨less, by omega, fun i inside => ?_⟩, ?_, less, ?_, room⟩
  · rw [← below (by omega), List.getElem?_append_left inside]
  · rw [cnt, Ne, slot_zero small]
    exact Nat.succ_ne_zero _
  · have top := below (Nat.lt_succ_self l.length)
    rw [List.getElem?_append_right (Nat.le_refl _), Nat.sub_self] at top
    rw [less]
    exact (Option.some.inj top).symm

theorem assign_holds {i : UInt32} {e : α} (holds : Holds N s l) :
    Holds N ⟨Function.update s.stack i e, s.cnt⟩ (l.set i.toNat e) := by
  refine ⟨by rw [List.length_set]; exact holds.cnt, by rw [List.length_set]; exact holds.room,
    fun j inside => ?_⟩
  rw [List.length_set] at inside
  have place := slot_toNat (Nat.lt_trans inside holds.small)
  change _ = some (Function.update s.stack i e (UInt32.ofNat j))
  by_cases here : i.toNat = j
  · subst here
    rw [UInt32.ofNat_toNat, Function.update_self, List.getElem?_set_self inside]
  · have other : UInt32.ofNat j ≠ i := fun same => here (by rw [← same, place])
    rw [Function.update_of_ne other, List.getElem?_set_ne here]
    exact holds.elems j inside

/-- A push is let through up to one element behind the array. -/
theorem push_ptr_some (holds : Holds N s l) :
    pushPtr N s = some (UInt32.ofNat l.length, ⟨s.stack, s.cnt + 1⟩) := by
  have inside : ¬ s.cnt > N := by
    rw [gt_iff_lt, UInt32.lt_iff_toNat_lt, holds.cnt_toNat]
    exact Nat.not_lt.mpr holds.room
  rw [pushPtr, if_neg inside, holds.cnt]

/-- What a call is to do on the list, with the stack that holds it. -/
def Right (N : UInt32) (behind : UInt32 → α → UInt32 → UInt32) (s : StackT α) (l : List α) (op : Op α) :
    Prop :=
  match call N behind s op with
  | none => Panics N.toNat l op
  | some (r, s') => ∃ l', Lifo N.toNat l op r l' ∧ Holds N s' l'

theorem push_right {e : α} (holds : Holds N s l) (room : l.length < N.toNat) :
    Right N behind s l (.push e) := by
  have top := slot_toNat holds.small
  have inside : UInt32.ofNat l.length < N := by
    rw [UInt32.lt_iff_toNat_lt, top]
    exact room
  have stored : store N behind ⟨s.stack, s.cnt + 1⟩ (UInt32.ofNat l.length) e =
      ⟨Function.update s.stack (UInt32.ofNat l.length) e, s.cnt + 1⟩ := by
    rw [store, if_pos inside]
  have pushed : call N behind s (.push e) = some (.slot (UInt32.ofNat l.length) e,
      ⟨Function.update s.stack (UInt32.ofNat l.length) e, s.cnt + 1⟩) := by
    rw [call, push, push_ptr_some holds]
    simp only [Option.map_some, stored, Function.update_self]
  rw [Right, pushed]
  refine ⟨l ++ [e], .push room top, push_holds holds room (fun i low => ?_) (Function.update_self ..)⟩
  refine Function.update_of_ne (fun same => ?_) _ _
  exact Nat.ne_of_lt low ((slot_inj (Nat.lt_trans low holds.small) holds.small).mp same)

theorem push_ptr_right (holds : Holds N s l) (room : l.length < N.toNat) :
    Right N behind s l .pushPtr := by
  have pushed : call N behind s .pushPtr = some (.slot (UInt32.ofNat l.length)
      (s.stack (UInt32.ofNat l.length)), ⟨s.stack, s.cnt + 1⟩) := by
    rw [call, push_ptr_some holds]
    rfl
  rw [Right, pushed]
  exact ⟨_, .pushPtr room (slot_toNat holds.small), push_holds holds room (fun _ _ => rfl) rfl⟩

theorem pop_ptr_some {e : α} (holds : Holds N s (l ++ [e])) :
    popPtr s = some (some (UInt32.ofNat l.length), { s with cnt := s.cnt - 1 }) := by
  obtain ⟨-, some_left, less, -, -⟩ := pop_holds holds
  have positive : s.cnt > 0 := UInt32.pos_iff_ne_zero.mpr some_left
  rw [popPtr, if_neg some_left, if_pos positive, less]

theorem pop_ptr_none (holds : Holds N s []) : popPtr s = some (none, s) := if_pos holds.cnt

theorem call_right (holds : Holds N s l) {op : Op α} (room : op.pushes = true → l.length < N.toNat) :
    Right N behind s l op := by
  cases op with
  | push e => exact push_right holds (room rfl)
  | pushPtr => exact push_ptr_right holds (room rfl)
  | pop =>
    cases l using List.reverseRec with
    | nil =>
      rw [Right, call, pop, pop_ptr_none holds]
      exact .pop
    | append_singleton l e =>
      obtain ⟨left, -, less, top, -⟩ := pop_holds holds
      rw [less] at top
      rw [Right, call, pop, pop_ptr_some holds]
      refine ⟨l, ?_, left⟩
      change Lifo N.toNat _ _ (.elem (s.stack (UInt32.ofNat l.length))) l
      rw [top]
      exact .pop
  | popPtr =>
    cases l using List.reverseRec with
    | nil =>
      rw [Right, call, pop_ptr_none holds]
      exact ⟨[], .nothing, holds⟩
    | append_singleton l e =>
      obtain ⟨left, -, less, top, inside⟩ := pop_holds holds
      rw [less] at top
      rw [Right, call, pop_ptr_some holds]
      refine ⟨l, ?_, left⟩
      change Lifo N.toNat _ _ (.slot _ (s.stack (UInt32.ofNat l.length))) l
      rw [top]
      exact .popPtr inside (slot_toNat left.small)
  | assign i e =>
    rw [Right, call, idx]
    by_cases inside : i < N
    · rw [if_pos inside, Option.map_some, store, if_pos inside]
      exact ⟨_, .assign (UInt32.lt_iff_toNat_lt.mp inside), assign_holds holds⟩
    · rw [if_neg inside]
      exact .assign (Nat.le_of_not_lt (mt UInt32.lt_iff_toNat_lt.mpr inside))

theorem full_wrong (holds : Holds N s l) {op : Op α} (pushes : op.pushes = true) (full : l.length = N.toNat) :
    (∃ r, call N behind s op = some r) ∧ ∀ r l', ¬ Lifo N.toNat l op r l' := by
  cases op with
  | push e =>
    refine ⟨⟨_, by rw [call, push, push_ptr_some holds]; rfl⟩, ?_⟩
    rintro r l' ⟨⟩
    omega
  | pushPtr =>
    refine ⟨⟨_, by rw [call, push_ptr_some holds]; rfl⟩, ?_⟩
    rintro r l' ⟨⟩
    omega
  | _ => cases pushes

end Step

section Run

variable {α : Type} {N : UInt32} {behind : UInt32 → α → UInt32 → UInt32} {s : StackT α} {l : List α}
variable {ops : List (Op α)}

/-- No push comes to a stack that is full. -/
def Roomy (N : UInt32) (s : StackT α) (op : Op α) : Prop := op.pushes = true → s.cnt ≠ N

theorem roomy_iff (holds : Holds N s l) {op : Op α} :
    Roomy N s op ↔ (op.pushes = true → l.length < N.toNat) := by
  have room := holds.room
  rw [Roomy, Ne, ← UInt32.toNat_inj, holds.cnt_toNat]
  exact imp_congr_right fun _ => ⟨fun other => by omega, fun less => Nat.ne_of_lt less⟩

theorem allRight_of_roomy (holds : Holds N s l) (roomy : Steps.Along (step N behind) (Roomy N) s ops) :
    AllRight N behind s l ops := by
  induction ops generalizing s l with
  | nil => exact holds.represents
  | cons op ops ih =>
    refine ⟨holds.represents, ?_⟩
    have right : Right N behind s l op := call_right holds ((roomy_iff holds).mp roomy.1)
    rw [Right] at right
    cases called : call N behind s op with
    | none =>
      rw [called] at right
      exact right
    | some r =>
      rw [called] at right
      obtain ⟨l', lifo, holds'⟩ := right
      exact ⟨l', lifo, ih holds' (roomy.2 r.2 (by rw [step, called]; rfl))⟩

theorem roomy_of_allRight (right : AllRight N behind s l ops) :
    Steps.Along (step N behind) (Roomy N) s ops := by
  induction ops generalizing s l with
  | nil => trivial
  | cons op ops ih =>
    obtain ⟨represents, here⟩ := right
    have holds := represents.holds
    constructor
    · intro pushes full
      have length : l.length = N.toNat := by rw [← holds.cnt_toNat, full]
      obtain ⟨⟨r, called⟩, wrong⟩ : (∃ r, call N behind s op = some r) ∧ _ := full_wrong holds pushes length
      rw [called] at here
      obtain ⟨l', lifo, -⟩ := here
      exact wrong r.1 l' lifo
    · intro t stepped
      obtain ⟨r, called, rfl⟩ := Option.map_eq_some_iff.mp stepped
      rw [called] at here
      obtain ⟨l', -, later⟩ := here
      exact ih later

theorem mk_holds (N : UInt32) (stack : UInt32 → α) : Holds N (mk stack) [] :=
  ⟨rfl, Nat.zero_le _, nofun⟩

end Run

/-- On every capacity, whatever lies behind the array: a run is that of a bounded stack exactly when no
push comes to a full one. -/
theorem stack_right_iff {α : Type} (N : UInt32) (behind : UInt32 → α → UInt32 → UInt32) (stack : UInt32 → α)
    (ops : List (Op α)) : AllRight N behind (mk stack) [] ops ↔
      Steps.Along (step N behind) (Roomy N) (mk stack) ops :=
  ⟨roomy_of_allRight, allRight_of_roomy (mk_holds N stack)⟩

theorem second_push_spills :
    (call 1 (fun _ e _ => e) (mk fun _ => 0) (.push (5 : UInt32))).bind (fun r =>
      (call 1 (fun _ e _ => e) r.2 (.push 77)).map fun t => t.2.cnt) = some 77 ∧
    ¬ ∀ (N : UInt32) (behind : UInt32 → UInt32 → UInt32 → UInt32) (stack : UInt32 → UInt32)
      (ops : List (Op UInt32)), AllRight N behind (mk stack) [] ops := by
  refine ⟨by decide, fun right => ?_⟩
  have roomy := roomy_of_allRight (right 1 (fun _ e _ => e) (fun _ => 0) [.push 5, .push 77])
  obtain ⟨t, pushed⟩ : ∃ t, step 1 (fun _ e _ => e) (mk fun _ => 0) (.push (5 : UInt32)) = some t := ⟨_, rfl⟩
  have full : t.cnt = 1 := by
    cases pushed
    rfl
  exact (roomy.2 t pushed).1 rfl full

end EmbeddedOS.Libc.Stack
