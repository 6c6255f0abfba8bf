import EmbeddedOS.Arm.Memory

/-! Code that loads and stores words, with the addresses of all the words that it accesses. -/
namespace Arm

structure Bus where
  mem : Memory
  accessed : List UInt32

/-- Code on the bus, which may stop in a panic. -/
def OnBus (α : Type) := Bus → Bus × Option α

namespace OnBus

variable {α β : Type}

instance : Monad OnBus where
  pure a b := (b, some a)
  bind x f b :=
    match x b with
    | (b, some a) => f a b
    | (b, none) => (b, none)

def stop : OnBus α := fun b => (b, none)

def load (a : UInt32) : OnBus UInt32 := fun b =>
  ({ b with accessed := b.accessed ++ [a] }, some (b.mem a))

def store (a v : UInt32) : OnBus Unit := fun b =>
  (⟨write b.mem a v, b.accessed ++ [a]⟩, some ())

def loadWords (base : UInt32) : Nat → OnBus (List UInt32)
  | 0 => pure []
  | n + 1 => do
    let rest ← loadWords base n
    let w ← load (word base n)
    pure (rest ++ [w])

def storeWords (base : UInt32) : Nat → List UInt32 → OnBus Unit
  | _, [] => pure ()
  | i, w :: rest => do
    store (word base i) w
    storeWords base (i + 1) rest

/-- The code accesses no words but these. -/
def Within (ok : UInt32 → Prop) (x : OnBus α) : Prop :=
  ∀ b, ∃ l, (x b).1.accessed = b.accessed ++ l ∧ ∀ a ∈ l, ok a

variable {ok : UInt32 → Prop}

theorem within_pure (a : α) : Within ok (pure a) := fun b => ⟨[], (List.append_nil _).symm, by simp⟩

theorem within_stop : Within ok (stop : OnBus α) := fun b => ⟨[], (List.append_nil _).symm, by simp⟩

theorem within_load {a : UInt32} (allowed : ok a) : Within ok (load a) :=
  fun b => ⟨[a], rfl, by simpa using allowed⟩

theorem within_store {a v : UInt32} (allowed : ok a) : Within ok (store a v) :=
  fun b => ⟨[a], rfl, by simpa using allowed⟩

def Returns (post : α → Prop) (x : OnBus α) : Prop := ∀ b b' a, x b = (b', some a) → post a

theorem within_bind_of {x : OnBus α} {f : α → OnBus β} {post : α → Prop} (first : Within ok x)
    (returns : Returns post x) (rest : ∀ a, post a → Within ok (f a)) : Within ok (x >>= f) := by
  intro b
  obtain ⟨l, accessed, allowed⟩ := first b
  change ∃ l, (match x b with | (b, some a) => f a b | (b, none) => (b, none)).1.accessed = _ ∧ _
  cases done : x b with
  | mk b' result =>
    rw [done] at accessed
    cases result with
    | none => exact ⟨l, accessed, allowed⟩
    | some a =>
      obtain ⟨l', accessed', allowed'⟩ := rest a (returns b b' a done) b'
      have before : b'.accessed = b.accessed ++ l := accessed
      refine ⟨l ++ l', ?_, ?_⟩
      · rw [← List.append_assoc, ← before]
        exact accessed'
      · intro a inside
        exact (List.mem_append.mp inside).elim (allowed a) (allowed' a)

theorem within_bind {x : OnBus α} {f : α → OnBus β} (first : Within ok x)
    (rest : ∀ a, Within ok (f a)) : Within ok (x >>= f) :=
  within_bind_of first (fun _ _ _ _ => trivial) fun a (_ : True) => rest a

theorem within_loadWords {base : UInt32} {n : Nat} (allowed : ∀ i < n, ok (word base i)) :
    Within ok (loadWords base n) := by
  induction n with
  | zero => exact within_pure _
  | succ n ih =>
    refine within_bind (ih fun i small => allowed i (Nat.lt_succ_of_lt small)) fun rest => ?_
    exact within_bind (within_load (allowed n (Nat.lt_succ_self n))) fun w => within_pure _

theorem within_storeWords {base : UInt32} {i : Nat} {ws : List UInt32}
    (allowed : ∀ j < ws.length, ok (word base (i + j))) : Within ok (storeWords base i ws) := by
  induction ws generalizing i with
  | nil => exact within_pure _
  | cons w rest ih =>
    refine within_bind (within_store (allowed 0 (Nat.succ_pos _))) fun _ => ih ?_
    intro j small
    rw [Nat.add_assoc, Nat.add_comm 1]
    exact allowed (j + 1) (Nat.succ_lt_succ small)

def Goes (x : OnBus α) : Prop := ∀ b, ∃ b' a, x b = (b', some a)

theorem goes_pure (a : α) : Goes (pure a) := fun b => ⟨b, a, rfl⟩

theorem goes_load (a : UInt32) : Goes (load a) := fun _ => ⟨_, _, rfl⟩

theorem goes_store (a v : UInt32) : Goes (store a v) := fun _ => ⟨_, _, rfl⟩

theorem bind_done {x : OnBus α} {f : α → OnBus β} {b b' : Bus} {a : α} (done : x b = (b', some a)) :
    (x >>= f) b = f a b' := by
  change (match x b with | (b, some a) => f a b | (b, none) => (b, none)) = _
  rw [done]

theorem goes_bind {x : OnBus α} {f : α → OnBus β} (first : Goes x) (rest : ∀ a, Goes (f a)) :
    Goes (x >>= f) := by
  intro b
  obtain ⟨b', a, done⟩ := first b
  obtain ⟨b'', c, done'⟩ := rest a b'
  exact ⟨b'', c, (bind_done done).trans done'⟩

theorem goes_loadWords (base : UInt32) (n : Nat) : Goes (loadWords base n) := by
  induction n with
  | zero => exact goes_pure _
  | succ n ih => exact goes_bind ih fun rest => goes_bind (goes_load _) fun w => goes_pure _

theorem goes_storeWords (base : UInt32) (i : Nat) (ws : List UInt32) :
    Goes (storeWords base i ws) := by
  induction ws generalizing i with
  | nil => exact goes_pure _
  | cons w rest ih => exact goes_bind (goes_store _ _) fun _ => ih (i + 1)

def Accesses (a : UInt32) (x : OnBus α) : Prop := ∀ b, a ∈ (x b).1.accessed

theorem accesses_load (a : UInt32) : Accesses a (load a) :=
  fun b => List.mem_append_right b.accessed (List.mem_singleton_self a)

theorem accesses_first {a : UInt32} {x : OnBus α} {f : α → OnBus β} (first : Accesses a x)
    (goes : Goes x) (rest : ∀ c, Within ok (f c)) : Accesses a (x >>= f) := by
  intro b
  obtain ⟨b', c, done⟩ := goes b
  have here := first b
  rw [done] at here
  obtain ⟨l, accessed, _⟩ := rest c b'
  rw [bind_done done, accessed]
  exact List.mem_append_left l here

theorem accesses_later {a : UInt32} {x : OnBus α} {f : α → OnBus β} (goes : Goes x)
    (rest : ∀ c, Accesses a (f c)) : Accesses a (x >>= f) := by
  intro b
  obtain ⟨b', c, done⟩ := goes b
  rw [bind_done done]
  exact rest c b'

/-- From this memory the code returns this value and leaves that memory. -/
def Makes (x : OnBus α) (mem : Memory) (a : α) (mem' : Memory) : Prop :=
  ∀ b, b.mem = mem → ∃ b', x b = (b', some a) ∧ b'.mem = mem'

theorem makes_pure (mem : Memory) (a : α) : Makes (pure a) mem a mem := fun b same => ⟨b, rfl, same⟩

theorem makes_load (mem : Memory) (a : UInt32) : Makes (load a) mem (mem a) mem := by
  rintro b rfl
  exact ⟨_, rfl, rfl⟩

theorem makes_load_of {mem : Memory} {a v : UInt32} (same : mem a = v) : Makes (load a) mem v mem := by
  rw [← same]
  exact makes_load mem a

theorem makes_store (mem : Memory) (a v : UInt32) : Makes (store a v) mem () (write mem a v) := by
  rintro b rfl
  exact ⟨_, rfl, rfl⟩

theorem makes_bind {x : OnBus α} {f : α → OnBus β} {mem mem' mem'' : Memory} {a : α} {c : β}
    (first : Makes x mem a mem') (rest : Makes (f a) mem' c mem'') : Makes (x >>= f) mem c mem'' := by
  intro b same
  obtain ⟨b', done, left⟩ := first b same
  rw [bind_done done]
  exact rest b' left

theorem makes_loadWords (mem : Memory) (base : UInt32) (n : Nat) :
    Makes (loadWords base n) mem (List.ofFn fun i : Fin n => mem (word base i)) mem := by
  induction n with
  | zero => exact makes_pure mem _
  | succ n ih =>
    rw [List.ofFn_succ_last]
    exact makes_bind ih (makes_bind (makes_load mem _) (makes_pure mem _))

theorem makes_loadWords_of {mem : Memory} {base : UInt32} {n : Nat} {f : Fin n → UInt32}
    (same : ∀ i : Fin n, mem (word base i) = f i) : Makes (loadWords base n) mem (List.ofFn f) mem := by
  rw [← funext same]
  exact makes_loadWords mem base n

/-- Words with the slots that they are stored in. -/
def slots : Nat → List UInt32 → List (Nat × UInt32)
  | _, [] => []
  | i, w :: rest => (i, w) :: slots (i + 1) rest

theorem makes_storeWords (mem : Memory) (base : UInt32) (i : Nat) (ws : List UInt32) :
    Makes (storeWords base i ws) mem () (fill mem base (slots i ws)) := by
  induction ws generalizing mem i with
  | nil => exact makes_pure mem _
  | cons w rest ih => exact makes_bind (makes_store mem _ _) (ih _ _)

theorem slots_ofFn {n : Nat} (i : Nat) (f : Fin n → UInt32) :
    slots i (List.ofFn f) = (List.finRange n).map fun j => (i + j.val, f j) := by
  induction n generalizing i with
  | zero => rfl
  | succ n ih =>
    rw [List.ofFn_succ, List.finRange_succ, slots, ih]
    simp [Nat.add_assoc, Nat.add_comm 1]

theorem makes_storeRow {n : Nat} (mem : Memory) (base : UInt32) (f : Fin n → UInt32) :
    Makes (storeWords base 0 (List.ofFn f)) mem () (fill mem base (row f)) := by
  have same : slots 0 (List.ofFn f) = row f := by
    rw [slots_ofFn]
    simp [row]
  rw [← same]
  exact makes_storeWords mem base 0 _

end OnBus

end Arm
