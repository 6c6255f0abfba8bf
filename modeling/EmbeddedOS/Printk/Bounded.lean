import Mathlib.Logic.Function.Basic
import EmbeddedOS.Printk.Format

/-! Formatting into a buffer against formatting onto the console. -/
namespace EmbeddedOS.Printk

/-- The console takes every byte; a panic does not come back. -/
abbrev Console := StateT (List UInt8) Option

def consoleOut : Out Console := ⟨fun c => modify (· ++ [c]), failure⟩

def vprintk (fmt : List UInt8) (args : List Arg) : Console UInt32 := do
  format consoleOut fmt args
  pure 0

/-- Memory, with the addresses stored to so far, and the two static pointers. -/
structure Sn where
  mem : Nat → UInt8
  stores : List Nat
  bufPtr : Nat
  bufEnd : Nat

def Sn.put (s : Sn) (c : UInt8) : Sn :=
  { s with
    mem := Function.update s.mem s.bufPtr c
    stores := s.stores ++ [s.bufPtr]
    bufPtr := s.bufPtr + 1 }

/-- A failed assertion is reported, and leaves memory as it is by then. -/
abbrev SnM := ExceptT Unit (StateM Sn)

def putchar (c : UInt8) : SnM Unit := do
  let s ← get
  if s.bufPtr < s.bufEnd then set (s.put c) else throw ()

def snOut : Out SnM := ⟨putchar, throw ()⟩

def vsnprintk (buf n : Nat) (fmt : List UInt8) (args : List Arg) : SnM UInt32 := do
  modify fun s => { s with bufPtr := buf, bufEnd := buf + n }
  format snOut fmt args
  modify fun s => s.put 0
  pure 0

def snprintk (buf n : Nat) (fmt : List UInt8) (args : List Arg) : SnM UInt32 :=
  vsnprintk buf n fmt args

/-- The outcome of a call and what it leaves. -/
def ran {α : Type} (p : SnM α) (s : Sn) : Except Unit α × Sn := p.run.run s

def Sn.wrote (s : Sn) : List UInt8 → Sn
  | [] => s
  | c :: w => (s.put c).wrote w

theorem wrote_append (s : Sn) (v w : List UInt8) : s.wrote (v ++ w) = (s.wrote v).wrote w := by
  induction v generalizing s with
  | nil => rfl
  | cons c v ih => exact ih (s.put c)

theorem wrote_ptr (s : Sn) (w : List UInt8) :
    (s.wrote w).bufPtr = s.bufPtr + w.length ∧ (s.wrote w).bufEnd = s.bufEnd := by
  induction w generalizing s with
  | nil => exact ⟨rfl, rfl⟩
  | cons c w ih =>
    obtain ⟨ptr, last⟩ := ih (s.put c)
    refine ⟨?_, last⟩
    change ((s.put c).wrote w).bufPtr = _
    rw [ptr, List.length_cons]
    change s.bufPtr + 1 + w.length = _
    omega

theorem wrote_stores (s : Sn) (w : List UInt8) :
    (s.wrote w).stores = s.stores ++ List.range' s.bufPtr w.length := by
  induction w generalizing s with
  | nil => simp [Sn.wrote]
  | cons c w ih =>
    change ((s.put c).wrote w).stores = _
    rw [ih]
    simp [Sn.put, List.range'_succ]

theorem wrote_below (s : Sn) (w : List UInt8) {a : Nat} (below : a < s.bufPtr) :
    (s.wrote w).mem a = s.mem a := by
  induction w generalizing s with
  | nil => rfl
  | cons c w ih =>
    have first := ih (s.put c) (Nat.lt_succ_of_lt below)
    exact first.trans (Function.update_of_ne (Nat.ne_of_lt below) ..)

def bytes (mem : Nat → UInt8) (a k : Nat) : List UInt8 := (List.range' a k).map mem

theorem wrote_bytes (s : Sn) (w : List UInt8) : bytes (s.wrote w).mem s.bufPtr w.length = w := by
  induction w generalizing s with
  | nil => rfl
  | cons c w ih =>
    have rest := ih (s.put c)
    have first : (s.wrote (c :: w)).mem s.bufPtr = c :=
      (wrote_below (s.put c) w (Nat.lt_succ_self _)).trans (Function.update_self ..)
    change bytes ((s.put c).wrote w).mem s.bufPtr (w.length + 1) = c :: w
    rw [bytes, List.range'_succ, List.map_cons]
    exact congrArg₂ List.cons first rest

theorem ran_bind {α β : Type} (p : SnM α) (f : α → SnM β) (s : Sn) :
    ran (p >>= f) s = match ran p s with
      | (.ok a, t) => ran (f a) t
      | (.error e, t) => (.error e, t) := by
  unfold ran
  rw [ExceptT.run_bind, StateT.run_bind]
  cases p.run.run s with
  | mk r t =>
    cases r with
    | ok a => rfl
    | error e => rfl

/-- In the buffer the bytes that the console gets, as far as there is room for them. -/
def Copies {α : Type} (p : SnM α) (q : Console α) : Prop :=
  ∀ out a out', q.run out = some (a, out') → ∃ w, out' = out ++ w ∧
    ∀ s : Sn, s.bufPtr ≤ s.bufEnd → ran p s =
      if s.bufPtr + w.length ≤ s.bufEnd then (.ok a, s.wrote w)
      else (.error (), s.wrote (w.take (s.bufEnd - s.bufPtr)))

theorem copies_pure {α : Type} (a : α) : Copies (pure a : SnM α) (pure a) := by
  intro out b out' run
  obtain ⟨rfl, rfl⟩ := Prod.mk.inj (Option.some.inj run)
  refine ⟨[], (List.append_nil out).symm, ?_⟩
  intro s room
  exact (if_pos room).symm

theorem copies_bind {α β : Type} {p : SnM α} {q : Console α} {f : α → SnM β} {g : α → Console β}
    (first : Copies p q) (rest : ∀ a, Copies (f a) (g a)) : Copies (p >>= f) (q >>= g) := by
  intro out b out' run
  obtain ⟨⟨a, mid⟩, here, there⟩ := Option.bind_eq_some_iff.mp run
  obtain ⟨v, rfl, copied⟩ := first out a mid here
  obtain ⟨w, rfl, copies⟩ := rest a (out ++ v) b out' there
  refine ⟨v ++ w, List.append_assoc .., ?_⟩
  intro s room
  obtain ⟨ptr, last⟩ := wrote_ptr s v
  rw [ran_bind, copied s room, List.length_append]
  by_cases fits : s.bufPtr + v.length ≤ s.bufEnd
  · have onward := copies (s.wrote v) (by rw [ptr, last]; exact fits)
    rw [ptr, last, ← wrote_append, ← wrote_append] at onward
    have taken : v ++ w.take (s.bufEnd - (s.bufPtr + v.length)) =
        (v ++ w).take (s.bufEnd - s.bufPtr) := by
      have whole : v.take (s.bufEnd - s.bufPtr) = v := List.take_of_length_le (by omega)
      rw [List.take_append, whole, Nat.sub_sub]
    rw [if_pos fits, ← Nat.add_assoc, ← taken]
    exact onward
  · have short : s.bufEnd - s.bufPtr - v.length = 0 := by omega
    rw [if_neg fits, if_neg (by omega), List.take_append, short, List.take_zero, List.append_nil]

theorem copies_putchar (c : UInt8) : Copies (putchar c) (consoleOut.putchar c) := by
  intro out a out' run
  obtain ⟨rfl, rfl⟩ := Prod.mk.inj (Option.some.inj run)
  refine ⟨[c], rfl, ?_⟩
  intro s room
  have decides : ran (putchar c) s =
      ran (if s.bufPtr < s.bufEnd then set (s.put c) else throw ()) s := rfl
  rw [decides]
  by_cases space : s.bufPtr < s.bufEnd
  · have one : s.bufPtr + [c].length ≤ s.bufEnd := space
    rw [if_pos space, if_pos one]
    rfl
  · have none : ¬ s.bufPtr + [c].length ≤ s.bufEnd := space
    have full : s.bufEnd - s.bufPtr = 0 := by omega
    rw [if_neg space, if_neg none, full]
    rfl

def copying : Steps.Related SnM Console := ⟨Copies, copies_pure, copies_bind⟩

/-- The two copies of the switch differ in their putchar only. -/
theorem copying_alike : Alike copying snOut consoleOut where
  putchar := copies_putchar
  panic := fun _ _ _ run => nomatch run

/-- What a call of vsnprintk does with output that vprintk would print. -/
theorem ran_vsnprintk {buf n : Nat} {fmt : List UInt8} {args : List Arg} {w : List UInt8}
    (prints : (vprintk fmt args).run [] = some (0, w)) (s : Sn) :
    ran (vsnprintk buf n fmt args) s =
      if w.length ≤ n then (.ok 0, { s with bufPtr := buf, bufEnd := buf + n }.wrote (w ++ [0]))
      else (.error (), { s with bufPtr := buf, bufEnd := buf + n }.wrote (w.take n)) := by
  obtain ⟨⟨_, out⟩, printed, rest⟩ := Option.bind_eq_some_iff.mp prints
  obtain ⟨-, rfl⟩ := Prod.mk.inj (Option.some.inj rest)
  obtain ⟨v, made, copied⟩ := format_rel copying_alike fmt args [] () out printed
  obtain rfl : out = v := made
  have body := copied { s with bufPtr := buf, bufEnd := buf + n } (Nat.le_add_right buf n)
  have opened : ran (vsnprintk buf n fmt args) s =
      ran (format snOut fmt args >>= fun _ => do
        modify fun s => s.put 0
        pure 0) { s with bufPtr := buf, bufEnd := buf + n } := rfl
  rw [opened, ran_bind, body]
  by_cases fits : out.length ≤ n
  · have inside : buf + out.length ≤ buf + n := Nat.add_le_add_left fits buf
    rw [if_pos inside, if_pos fits, wrote_append]
    rfl
  · have outside : ¬ buf + out.length ≤ buf + n := by omega
    have room : buf + n - buf = n := Nat.add_sub_cancel_left ..
    rw [if_neg outside, if_neg fits, room]

/-- The bounded call against what vprintk prints: it stores nowhere outside the buffer, and leaves
the output and a NUL there, or there is no room for these and it says so. -/
def Agrees (buf n : Nat) (w : List UInt8) (s : Sn) : Except Unit UInt32 × Sn → Prop
  | (r, t) =>
    (∃ new, t.stores = s.stores ++ new ∧ ∀ a ∈ new, buf ≤ a ∧ a < buf + n) ∧
    match r with
    | .ok _ => w.length < n ∧ bytes t.mem buf (w.length + 1) = w ++ [0]
    | .error _ => n < w.length + 1

theorem inside {a k buf n : Nat} (fits : k ≤ n) (stored : a ∈ List.range' buf k) :
    buf ≤ a ∧ a < buf + n := by
  obtain ⟨first, last⟩ := List.mem_range'_1.mp stored
  exact ⟨first, by omega⟩

theorem vsnprintk_iff {buf n : Nat} {fmt : List UInt8} {args : List Arg} {w : List UInt8}
    (prints : (vprintk fmt args).run [] = some (0, w)) (s : Sn) :
    Agrees buf n w s (ran (vsnprintk buf n fmt args) s) ↔ w.length ≠ n := by
  have made : ran (vsnprintk buf n fmt args) s = _ := ran_vsnprintk prints s
  have stored := wrote_stores { s with bufPtr := buf, bufEnd := buf + n }
  constructor
  · intro agrees full
    rw [made, if_pos (Nat.le_of_eq full)] at agrees
    exact Nat.ne_of_lt agrees.2.1 full
  · intro other
    rw [made]
    by_cases fits : w.length ≤ n
    · have room : w.length < n := Nat.lt_of_le_of_ne fits other
      rw [if_pos fits]
      refine ⟨⟨_, stored (w ++ [0]), ?_⟩, room, ?_⟩
      · intro a new
        rw [List.length_append] at new
        exact inside room new
      · have left := wrote_bytes { s with bufPtr := buf, bufEnd := buf + n } (w ++ [0])
        rw [List.length_append] at left
        exact left
    · rw [if_neg fits]
      refine ⟨⟨_, stored (w.take n), ?_⟩, by omega⟩
      intro a new
      exact inside (List.length_take_le n w) new

/-- The NUL is stored without the check of the other bytes, and one output length has no room
for it alone. -/
theorem bounded_iff {fmt : List UInt8} {args : List Arg} {w : List UInt8}
    (prints : (vprintk fmt args).run [] = some (0, w)) (buf n : Nat) (s : Sn) :
    (Agrees buf n w s (ran (vsnprintk buf n fmt args) s) ↔ w.length ≠ n) ∧
    (Agrees buf n w s (ran (snprintk buf n fmt args) s) ↔ w.length ≠ n) :=
  ⟨vsnprintk_iff prints s, vsnprintk_iff prints s⟩

def unused : Sn := ⟨fun _ => 0, [], 0, 0⟩

theorem minus_five_fits :
    Agrees 0x100 3 [ch '-', ch '5'] unused
      (ran (snprintk 0x100 3 [ch '%', ch 'd'] [.word (0 - 5)]) unused) := by
  have prints : (vprintk [ch '%', ch 'd'] [.word (0 - 5)]).run [] = some (0, [ch '-', ch '5']) := by
    decide +kernel
  exact (bounded_iff prints 0x100 3 unused).2.mpr (by decide)

theorem nul_outside :
    (vprintk [ch 'a', ch 'b'] []).run [] = some (0, [ch 'a', ch 'b']) ∧
    (ran (snprintk 0x100 2 [ch 'a', ch 'b'] []) unused).1 = .ok 0 ∧
    0x102 ∈ (ran (snprintk 0x100 2 [ch 'a', ch 'b'] []) unused).2.stores ∧
    ¬ Agrees 0x100 2 [ch 'a', ch 'b'] unused
      (ran (snprintk 0x100 2 [ch 'a', ch 'b'] []) unused) := by
  have prints : (vprintk [ch 'a', ch 'b'] []).run [] = some (0, [ch 'a', ch 'b']) := by
    decide +kernel
  refine ⟨prints, by rfl, by decide +kernel, ?_⟩
  intro agrees
  exact (vsnprintk_iff prints unused).mp agrees rfl

end EmbeddedOS.Printk
