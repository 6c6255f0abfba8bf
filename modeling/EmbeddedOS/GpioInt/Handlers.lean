import EmbeddedOS.GpioInt.Pins

/-! The interrupt handlers of test-interrupts.c, which count the edges of a pin while edges come at any time. -/
namespace EmbeddedOS.GpioInt
open Mmio

/-- The counters of the handlers, which nothing else changes. How many interrupts there were is no
variable of the program: it is kept for the statements. -/
structure Counts where
  nInterrupt : UInt32
  nFalling : UInt32
  nRising : UInt32
  taken : Nat

abbrev Code := Program Reg UInt32 Counts

def outPin : UInt32 := 21
def inPin : UInt32 := 20

/-- The body of falling_handler and rising_handler, with the level after the edge and what is counted. -/
def edgeHandler (level : Int) (counted : Counts → Counts) : Code UInt32 := do
  let detected ← .call (gpioEventDetected inPin)
  if detected = 0 then pure 0
  else do
    let now ← .call (gpioRead inPin)
    if now = level then do
      let _ ← Program.memory fun m => ((), counted m)
      let _ ← .call (gpioEventClear inPin)
      pure 1
    else pure 0

def fallingHandler : Code UInt32 := edgeHandler 0 fun m => { m with nFalling := m.nFalling + 1 }

def risingHandler : Code UInt32 := edgeHandler 1 fun m => { m with nRising := m.nRising + 1 }

def fallingInit : Code Unit := do
  .call (gpioWrite outPin 1)
  .call (gpioIntFallingEdge inPin)

def risingInit : Code Unit := do
  .call (gpioWrite outPin 0)
  .call (gpioIntRisingEdge inPin)

def riseFallInit : Code Unit := do
  risingInit
  fallingInit
  let level ← .call (gpioRead inPin)
  if level = 1 then pure () else .halt

/-- C leaves open which of the two calls comes first. -/
def riseFallHandler (risingFirst : Bool) : Code UInt32 :=
  if risingFirst then do
    let rising ← risingHandler
    let falling ← fallingHandler
    pure (rising ||| falling)
  else do
    let falling ← fallingHandler
    let rising ← risingHandler
    pure (rising ||| falling)

/-- What test_startup is called with. -/
inductive Client where
  | falling
  | rising
  | riseFall (risingFirst : Bool)

def Client.init : Client → Code Unit
  | .falling => fallingInit
  | .rising => risingInit
  | .riseFall _ => riseFallInit

def Client.handler : Client → Code UInt32
  | .falling => fallingHandler
  | .rising => risingHandler
  | .riseFall risingFirst => riseFallHandler risingFirst

def Counts.interrupted (m : Counts) : Counts :=
  { m with nInterrupt := m.nInterrupt + 1, taken := m.taken + 1 }

def interruptVector (interruptFn : Code UInt32) : Code Unit := do
  let _ ← Program.memory fun m => ((), m.interrupted)
  let handled ← interruptFn
  if handled = 0 then .halt else pure ()

/-- interrupt-vec.c -/
def intVecInit : Bus Unit := do
  store .disableIrqs1 0xffffffff
  store .disableIrqs2 0xffffffff

def testStartup (c : Client) : Code Unit := do
  .call intVecInit
  c.init
  .call (gpioEventClear inPin)

/-- The processor from the moment that it takes interrupts: some time after one is there it calls the vector,
and what runs in between touches neither the pins nor the counts. -/
def interrupts (c : Client) : Code Unit :=
  .iter (fun _ => do
    let _ ← Program.call (poll .line fun there => there ≠ 0)
    interruptVector c.handler
    pure (.inl ())) ()

def test (c : Client) : Code Unit := do
  testStartup c
  interrupts c

/-- Edges come at any time. -/
def atAnyTime (_ : Pins) (_ : Fin 32) : Prop := True

theorem inPin_inside : inPin.toNat < 32 := by decide

/-- inPin among the pins. -/
def looped : Fin 32 := ⟨inPin.toNat, inPin_inside⟩

theorem inPin_eq : inPin = UInt32.ofNat looped := rfl

section Calls

variable {fine : Pins → Fin 32 → Prop} {I P : Pins → Prop} {Q : Bool → Pins → Prop} {s : Pins}

theorem stable_of_edges {P : Pins → Prop} (edges : ∀ s p, P s → fine s p → P (s.edge p)) : Stable pins fine P := by
  intro s p t here allowed moved
  cases moved
  exact edges s p here allowed

theorem detected_safe (stable : Stable pins fine P) (inv : ∀ s, P s → I s)
    (stable' : ∀ b, Stable pins fine (Q b)) (inv' : ∀ b s, Q b s → I s) (next : ∀ s, P s → Q (s.event looped) s)
    (holds : P s) :
    Safe pins fine I (fun a t => ∃ b, a = (if b then 1 else 0) ∧ Q b t) (gpioEventDetected inPin) s := by
  refine safe_reads (g := fun v => (v >>> inPin) &&& 0x1) stable inv ?_ ?_ ?_ holds
  · intro a
    refine stable_of_edges ?_
    rintro t p ⟨b, value, here⟩ allowed
    exact ⟨b, value, stable' b t p _ here allowed rfl⟩
  · rintro a t ⟨b, _, here⟩
    exact inv' b t here
  · intro t here
    refine ⟨t.event looped, ?_, next t here⟩
    have bit := bit_shifted (Pins.word t.event) looped
    rw [bits_word] at bit
    exact bit

theorem level_safe (stable : Stable pins fine P) (inv : ∀ s, P s → I s)
    (stable' : ∀ b, Stable pins fine (Q b)) (inv' : ∀ b s, Q b s → I s) (next : ∀ s, P s → Q (s.level looped) s)
    (holds : P s) : Safe pins fine I (fun a t => ∃ b : Bool, a = (b.toNat : Int) ∧ Q b t) (gpioRead inPin) s := by
  refine safe_reads (g := fun v => (((v >>> inPin) &&& 0x1).toNat : Int)) stable inv ?_ ?_ ?_ holds
  · intro a
    refine stable_of_edges ?_
    rintro t p ⟨b, value, here⟩ allowed
    exact ⟨b, value, stable' b t p _ here allowed rfl⟩
  · rintro a t ⟨b, _, here⟩
    exact inv' b t here
  · intro t here
    refine ⟨t.level looped, ?_, next t here⟩
    have bit := bit_shifted (Pins.word t.level) looped
    rw [bits_word] at bit
    change ((((Pins.word t.level) >>> UInt32.ofNat looped) &&& 0x1).toNat : Int) = _
    rw [bit]
    cases t.level looped <;> rfl

/-- The pins after the event of the pin has been cleared. -/
def Pins.cleared (s : Pins) : Pins := { s with event := fun p => s.event p && ! decide (p = looped) }

theorem clear_store (s : Pins) : s.store .GPEDS0 (1 <<< inPin) = s.cleared := by
  have same : (fun p => s.event p && ! Pins.bits (1 <<< inPin) p) = fun p => s.event p && ! decide (p = looped) := by
    funext p
    rw [inPin_eq, bits_one]
  exact congrArg (fun event => { s with event := event }) same

end Calls

section Handler

def Counts.count (m : Counts) (level : Bool) : Counts :=
  if level then { m with nRising := m.nRising + 1 } else { m with nFalling := m.nFalling + 1 }

variable {fine : Pins → Fin 32 → Prop} {I : Counts → Pins → Prop} {Q : UInt32 → Counts → Pins → Prop}
variable {P : Pins → Prop} {D L : Bool → Pins → Prop} {b : Bool} {m : Counts} {s : Pins}

/-- What holds of the pins where a handler is entered, after it has asked for an event, after it has read the
level, and where it returns. -/
theorem handler_guards (entered : Stable pins fine P) (asked : ∀ e, Stable pins fine (D e))
    (read : ∀ l, Stable pins fine (L l)) (done : ∀ a m, Stable pins fine (Q a m))
    (inv : ∀ a m t, Q a m t → I m t) (start : ∀ t, P t → I m t) (between : ∀ e t, D e t → I m t)
    (last : ∀ l t, L l t → I m t) (counted : ∀ t, L b t → I (m.count b) t)
    (asks : ∀ t, P t → D (t.event looped) t) (missed : ∀ t, D false t → Q 0 m t)
    (reads : ∀ t, D true t → L (t.level looped) t) (other : ∀ t, L (! b) t → Q 0 m t)
    (clears : ∀ t, L b t → Q 1 (m.count b) t.cleared) (holds : P s) :
    Guards pins fine I (fun r m t => r.elim False fun a => Q a m t)
      (edgeHandler b.toNat fun m => m.count b) m s := by
  refine guards_call_bind (detected_safe entered start asked between asks holds) ?_
  rintro a t ⟨e, value, here⟩
  subst value
  cases e with
  | false => exact guards_ret (done 0 m) (inv 0 m) (fun _ there => there) (missed t here)
  | true =>
    refine guards_call_bind (level_safe (asked true) (between true) read last reads here) ?_
    rintro a t ⟨l, value, here⟩
    subst value
    dsimp only
    by_cases same : l = b
    · subst same
      rw [if_pos rfl]
      refine guards_memory_bind (read l) (last l) counted ?_ here
      intro t here
      refine guards_call_bind (safe_writes (read l) counted (done 1 _) (inv 1 _) ?_ here) ?_
      · intro t here
        exact (congrArg (Q 1 _) (clear_store t)).mpr (clears t here)
      · intro _ t here
        exact guards_ret (done 1 _) (inv 1 _) (fun _ there => there) here
    · have apart : ¬ (l.toNat : Int) = b.toNat := by
        revert same
        cases l <;> cases b <;> decide
      have flipped : l = ! b := by
        revert same
        cases l <;> cases b <;> decide
      subst flipped
      rw [if_neg apart]
      exact guards_ret (done 0 m) (inv 0 m) (fun _ there => there) (other t here)

end Handler

section Bounds

/-- The counts against the edges of the pin, which began at a level: those up to the last edge that was
counted, r and f, and those up to now. -/
structure Seen (begun : Bool) (m : Counts) (r f : Nat) (s : Pins) : Prop where
  now : s.rises looped + begun.toNat = s.falls looped + (s.level looped).toNat
  last : ∃ l : Bool, r + begun.toNat = f + l.toNat
  rising : m.nRising.toNat ≤ r
  falling : m.nFalling.toNat ≤ f
  rose : r ≤ s.rises looped
  fell : f ≤ s.falls looped

/-- There was an edge since. -/
def Due (r f : Nat) (s : Pins) : Prop := r + f < s.rises looped + s.falls looped

variable {begun : Bool} {m : Counts} {r f : Nat} {s : Pins}

theorem edge_apart {p : Fin 32} (apart : p ≠ looped) (s : Pins) :
    (s.edge p).level looped = s.level looped ∧ (s.edge p).event looped = s.event looped ∧
      (s.edge p).rises looped = s.rises looped ∧ (s.edge p).falls looped = s.falls looped := by
  have other : ¬ looped = p := fun same => apart same.symm
  simp [Pins.edge, other]

theorem edge_here (s : Pins) :
    (s.edge looped).level looped = ! s.level looped ∧
      (s.edge looped).rises looped = s.rises looped + (! s.level looped).toNat ∧
      (s.edge looped).falls looped = s.falls looped + (s.level looped).toNat := by
  cases high : s.level looped <;> simp [Pins.edge, high]

theorem Seen.edge (seen : Seen begun m r f s) (p : Fin 32) : Seen begun m r f (s.edge p) := by
  by_cases here : p = looped
  · subst here
    obtain ⟨level, rises, falls⟩ := edge_here s
    have now := seen.now
    refine ⟨?_, seen.last, seen.rising, seen.falling, ?_, ?_⟩
    · rw [level, rises, falls]
      cases high : s.level looped <;> simp only [high, Bool.toNat_true, Bool.toNat_false, Bool.not_true,
        Bool.not_false] at now ⊢ <;> omega
    · rw [rises]
      exact Nat.le_add_right_of_le seen.rose
    · rw [falls]
      exact Nat.le_add_right_of_le seen.fell
  · obtain ⟨level, _, rises, falls⟩ := edge_apart here s
    refine ⟨?_, seen.last, seen.rising, seen.falling, ?_, ?_⟩
    · rw [level, rises, falls]
      exact seen.now
    · rw [rises]
      exact seen.rose
    · rw [falls]
      exact seen.fell

theorem edge_due (seen : Seen begun m r f s) : Due r f (s.edge looped) := by
  obtain ⟨_, rises, falls⟩ := edge_here s
  have rose := seen.rose
  have fell := seen.fell
  rw [Due, rises, falls]
  cases s.level looped <;> simp only [Bool.toNat_true, Bool.toNat_false, Bool.not_true, Bool.not_false] <;> omega

theorem Due.edge (due : Due r f s) (p : Fin 32) : Due r f (s.edge p) := by
  by_cases here : p = looped
  · subst here
    obtain ⟨_, rises, falls⟩ := edge_here s
    rw [Due] at due ⊢
    omega
  · obtain ⟨_, _, rises, falls⟩ := edge_apart here s
    rw [Due, rises, falls]
    exact due

/-- A counter that wraps around counts less still. -/
theorem counter_step (v : UInt32) {n : Nat} (bound : v.toNat ≤ n) : (v + 1).toNat ≤ n + 1 := by
  have sum : (v + 1).toNat = (v.toNat + 1) % 2 ^ 32 := UInt32.toNat_add v 1
  have reduced := Nat.mod_le (v.toNat + 1) (2 ^ 32)
  omega

/-- As the edges of a pin go up and down in turn, one that came since is one to the level of now. -/
theorem Seen.counts (seen : Seen begun m r f s) (due : Due r f s) :
    Seen begun (m.count (s.level looped)) (s.rises looped) (s.falls looped) s := by
  obtain ⟨l, last⟩ := seen.last
  have now := seen.now
  have rising := seen.rising
  have falling := seen.falling
  have rose := seen.rose
  have fell := seen.fell
  rw [Due] at due
  have rising' := counter_step m.nRising rising
  have falling' := counter_step m.nFalling falling
  refine ⟨now, ⟨_, now⟩, ?_, ?_, Nat.le_refl _, Nat.le_refl _⟩
  · cases high : s.level looped <;> simp only [high, Counts.count, Bool.toNat_true, Bool.toNat_false, if_true,
      Bool.false_eq_true, if_false] at now ⊢ <;> cases l <;>
      simp only [Bool.toNat_true, Bool.toNat_false] at last <;> omega
  · cases high : s.level looped <;> simp only [high, Counts.count, Bool.toNat_true, Bool.toNat_false, if_true,
      Bool.false_eq_true, if_false] at now ⊢ <;> cases l <;>
      simp only [Bool.toNat_true, Bool.toNat_false] at last <;> omega

/-- Between two edges that are counted: where an event is there, an edge came. -/
def Behind (begun : Bool) (m : Counts) (s : Pins) : Prop :=
  ∃ r f, Seen begun m r f s ∧ (s.event looped = true → Due r f s)

theorem Behind.edge (behind : Behind begun m s) (p : Fin 32) : Behind begun m (s.edge p) := by
  obtain ⟨r, f, seen, due⟩ := behind
  refine ⟨r, f, seen.edge p, fun event => ?_⟩
  by_cases here : p = looped
  · subst here
    exact edge_due seen
  · obtain ⟨_, same, _⟩ := edge_apart here s
    rw [same] at event
    exact (due event).edge p

theorem Seen.cleared (seen : Seen begun m r f s) : Behind begun m s.cleared := by
  refine ⟨r, f, ⟨seen.now, seen.last, seen.rising, seen.falling, seen.rose, seen.fell⟩, fun event => ?_⟩
  simp [Pins.cleared] at event

/-- No more edges are counted than there were. -/
def Bounded (m : Counts) (s : Pins) : Prop :=
  m.nRising.toNat ≤ s.rises looped ∧ m.nFalling.toNat ≤ s.falls looped

theorem Seen.bounded (seen : Seen begun m r f s) : Bounded m s :=
  ⟨Nat.le_trans seen.rising seen.rose, Nat.le_trans seen.falling seen.fell⟩

theorem behind_stable (begun : Bool) (m : Counts) : Stable pins atAnyTime (Behind begun m) :=
  stable_of_edges fun _ p here _ => here.edge p

theorem Behind.bounded (behind : Behind begun m s) : Bounded m s := by
  obtain ⟨r, f, seen, _⟩ := behind
  exact seen.bounded

theorem behind_handler {b : Bool} (behind : Behind begun m s) :
    Guards pins atAnyTime Bounded (fun r m t => r.elim False fun _ => Behind begun m t)
      (edgeHandler b.toNat fun m => m.count b) m s := by
  refine handler_guards (P := Behind begun m) (Q := fun _ m t => Behind begun m t)
    (D := fun e t => ∃ r f, Seen begun m r f t ∧ (t.event looped = true → Due r f t) ∧ (e = true → Due r f t))
    (L := fun l t => Behind begun m t ∧ ∃ r f, Seen begun (m.count l) r f t)
    (behind_stable begun m) ?_ ?_ (fun _ => behind_stable begun) (fun _ _ _ => Behind.bounded)
    (fun _ => Behind.bounded) ?_ (fun _ _ here => here.1.bounded) ?_ ?_ ?_ ?_ (fun _ here => here.1) ?_ behind
  · intro e
    refine stable_of_edges fun t p => ?_
    rintro ⟨r, f, seen, due, asked⟩ _
    by_cases here : p = looped
    · subst here
      exact ⟨r, f, seen.edge _, fun _ => edge_due seen, fun _ => edge_due seen⟩
    · refine ⟨r, f, seen.edge p, fun event => ?_, fun there => (asked there).edge p⟩
      obtain ⟨_, same, _⟩ := edge_apart here t
      rw [same] at event
      exact (due event).edge p
  · intro l
    refine stable_of_edges fun t p => ?_
    rintro ⟨here, r, f, seen⟩ _
    exact ⟨here.edge p, r, f, seen.edge p⟩
  · rintro e t ⟨r, f, seen, _⟩
    exact seen.bounded
  · rintro t ⟨_, r, f, seen⟩
    exact seen.bounded
  · rintro t ⟨r, f, seen, due⟩
    exact ⟨r, f, seen, due, due⟩
  · rintro t ⟨r, f, seen, due, _⟩
    exact ⟨r, f, seen, due⟩
  · rintro t ⟨r, f, seen, due, asked⟩
    exact ⟨⟨r, f, seen, due⟩, _, _, seen.counts (asked rfl)⟩
  · rintro t ⟨_, r, f, seen⟩
    exact seen.cleared

theorem behind_riseFall (risingFirst : Bool) (behind : Behind begun m s) :
    Guards pins atAnyTime Bounded (fun r m t => r.elim False fun _ => Behind begun m t)
      (riseFallHandler risingFirst) m s := by
  have both {p q : Code UInt32} {m : Counts} {s : Pins} (combine : UInt32 → UInt32 → UInt32)
      (first : Guards pins atAnyTime Bounded (fun r m t => r.elim False fun _ => Behind begun m t) p m s)
      (second : ∀ m t, Behind begun m t →
        Guards pins atAnyTime Bounded (fun r m t => r.elim False fun _ => Behind begun m t) q m t) :
      Guards pins atAnyTime Bounded (fun r m t => r.elim False fun _ => Behind begun m t)
        (do let a ← p; let b ← q; pure (combine a b)) m s := by
    refine guards_bind first (fun a m t here => ?_) fun _ _ none => none
    refine guards_bind (second m t here) (fun b m t here => ?_) fun _ _ none => none
    exact guards_ret (behind_stable begun m) (fun _ => Behind.bounded) (fun _ there => there) here
  cases risingFirst with
  | true => exact both (fun a b => a ||| b) (behind_handler (b := true) behind) fun _ _ => behind_handler (b := false)
  | false =>
    exact both (fun a b => b ||| a) (behind_handler (b := false) behind) fun _ _ => behind_handler (b := true)

theorem behind_client (c : Client) (behind : Behind begun m s) :
    Guards pins atAnyTime Bounded (fun r m t => r.elim False fun _ => Behind begun m t) c.handler m s := by
  cases c with
  | falling => exact behind_handler (b := false) behind
  | rising => exact behind_handler (b := true) behind
  | riseFall risingFirst => exact behind_riseFall risingFirst behind

/-- The number of interrupts has no part in it. -/
theorem Behind.interrupted (behind : Behind begun m s) : Behind begun m.interrupted s := by
  obtain ⟨r, f, seen, due⟩ := behind
  exact ⟨r, f, ⟨seen.now, seen.last, seen.rising, seen.falling, seen.rose, seen.fell⟩, due⟩

theorem behind_vector (c : Client) (behind : Behind begun m s) :
    Guards pins atAnyTime Bounded (fun _ m t => Behind begun m t) (interruptVector c.handler) m s := by
  refine guards_memory_bind (behind_stable begun m) (fun _ => Behind.bounded)
    (fun _ here => here.interrupted.bounded) (fun t here => ?_) behind
  refine guards_bind (behind_client c here.interrupted) (fun a m t here => ?_) fun _ _ none => none.elim
  split
  · exact guards_halt (behind_stable begun m) (fun _ => Behind.bounded) (fun _ there => there) here
  · exact guards_ret (behind_stable begun m) (fun _ => Behind.bounded) (fun _ there => there) here

theorem behind_interrupts (c : Client) (behind : Behind begun m s) :
    Guards pins atAnyTime Bounded (fun _ _ _ => True) (interrupts c) m s := by
  refine guards_iter (J := fun _ m t => Behind begun m t) (fun _ m => behind_stable begun m)
    (fun _ _ _ => Behind.bounded) ?_ behind
  intro _ m t here
  refine guards_call_bind (R := fun _ => Behind begun m) ?_ fun _ t here => ?_
  · refine safe_poll (behind_stable begun m) (fun _ => Behind.bounded) (fun _ there _ => there) ?_ here
    intro t there _
    exact safe_ret (behind_stable begun m) (fun _ => Behind.bounded) (fun _ there => there) there
  · refine guards_bind (behind_vector c here) (fun _ m t here => ?_) fun _ _ _ => trivial
    exact guards_ret (behind_stable begun m) (fun _ => Behind.bounded) (fun _ there => there) here

theorem Seen.stored (seen : Seen begun m r f s) (reg : Reg) (v : UInt32) : Seen begun m r f (s.store reg v) := by
  have kept : (s.store reg v).level = s.level ∧ (s.store reg v).rises = s.rises ∧
      (s.store reg v).falls = s.falls := by
    cases reg <;> exact ⟨rfl, rfl, rfl⟩
  obtain ⟨level, rises, falls⟩ := kept
  refine ⟨?_, seen.last, seen.rising, seen.falling, ?_, ?_⟩
  · rw [level, rises, falls]
    exact seen.now
  · rw [rises]
    exact seen.rose
  · rw [falls]
    exact seen.fell

theorem seen_stable (begun : Bool) (m : Counts) (r f : Nat) : Stable pins atAnyTime (Seen begun m r f) :=
  stable_of_edges fun _ p here _ => here.edge p

theorem seen_call {α : Type} (c : Bus α) (seen : Seen begun m r f s) :
    Safe pins atAnyTime (Bounded m) (fun _ => Seen begun m r f) c s :=
  (safe_throughout (seen_stable begun m r f) (fun _ _ here => here) (fun reg v _ here => here.stored reg v) c
    seen).weaken (fun _ => Seen.bounded) fun _ _ here => here

theorem seen_calls (c : Bus Unit) (seen : Seen begun m r f s) :
    Guards pins atAnyTime Bounded (fun _ m' t => m' = m ∧ Seen begun m r f t) (.call c) m s :=
  guards_call ((seen_call c seen).weaken (fun _ here => here) fun _ _ here => ⟨rfl, here⟩)

theorem seen_init (c : Client) (seen : Seen begun m r f s) :
    Guards pins atAnyTime Bounded (fun _ m' t => m' = m ∧ Seen begun m r f t) c.init m s := by
  have rising {s : Pins} (seen : Seen begun m r f s) :
      Guards pins atAnyTime Bounded (fun _ m' t => m' = m ∧ Seen begun m r f t) risingInit m s :=
    guards_call_bind (seen_call _ seen) fun _ t here => seen_calls _ here
  have falling {s : Pins} (seen : Seen begun m r f s) :
      Guards pins atAnyTime Bounded (fun _ m' t => m' = m ∧ Seen begun m r f t) fallingInit m s :=
    guards_call_bind (seen_call _ seen) fun _ t here => seen_calls _ here
  cases c with
  | rising => exact rising seen
  | falling => exact falling seen
  | riseFall risingFirst =>
    refine guards_bind (rising seen) ?_ fun _ _ here => here
    rintro _ m' t ⟨same, here⟩
    subst same
    refine guards_bind (falling here) ?_ fun _ _ here => here
    rintro _ m' t ⟨same, here⟩
    subst same
    refine guards_call_bind (seen_call _ here) fun level t here => ?_
    split
    · exact guards_ret (seen_stable begun m' r f) (fun _ => Seen.bounded) (fun _ there => ⟨rfl, there⟩) here
    · exact guards_halt (seen_stable begun m' r f) (fun _ => Seen.bounded) (fun _ there => ⟨rfl, there⟩) here

theorem seen_startup (c : Client) (seen : Seen begun m r f s) :
    Guards pins atAnyTime Bounded (fun r m t => r.elim True fun _ => Behind begun m t) (testStartup c) m s := by
  refine guards_call_bind (seen_call _ seen) fun _ t here => ?_
  refine guards_bind (seen_init c here) ?_ fun _ _ _ => trivial
  rintro _ m' t ⟨same, here⟩
  subst same
  refine guards_call (safe_writes (seen_stable begun m' r f) (fun _ => Seen.bounded) (behind_stable begun m')
    (fun _ => Behind.bounded) (fun t here => ?_) here)
  exact (congrArg (Behind begun m') (clear_store t)).mpr here.cleared

/-- Whenever edges come: no more are counted than there were, of either kind. -/
theorem counts_bounded (c : Client) {m : Counts} {s : Pins} {n : Machine Reg UInt32 Counts Pins Unit}
    (zero : m.nRising = 0 ∧ m.nFalling = 0) (none : s.rises looped = 0 ∧ s.falls looped = 0)
    (runs : Runs pins atAnyTime ⟨test c, m, s⟩ n) :
    n.mem.nRising.toNat ≤ n.dev.rises looped ∧ n.mem.nFalling.toNat ≤ n.dev.falls looped := by
  have seen : Seen (s.level looped) m 0 0 s :=
    ⟨by rw [none.1, none.2], ⟨_, rfl⟩, Nat.le_of_eq (congrArg UInt32.toNat zero.1),
      Nat.le_of_eq (congrArg UInt32.toNat zero.2), Nat.zero_le _, Nat.zero_le _⟩
  exact (guards_bind (seen_startup c seen) (fun _ m t here => behind_interrupts c here)
    (fun _ _ _ => trivial) n runs).1

def glitch : List (Event (Fin 32)) :=
  List.replicate 40 .cpu ++ .act looped :: List.replicate 12 .cpu ++ .act looped :: List.replicate 40 .cpu

def resting : Pins := ⟨fun _ => false, fun _ => true, fun _ => false, fun _ => false, fun _ => false, false,
  fun _ => 0, fun _ => 0⟩

theorem glitch_bounded : Bounded (after pins glitch ⟨test (.riseFall true), ⟨0, 0, 0, 0⟩, resting⟩).mem
    (after pins glitch ⟨test (.riseFall true), ⟨0, 0, 0, 0⟩, resting⟩).dev :=
  counts_bounded (.riseFall true) ⟨rfl, rfl⟩ ⟨rfl, rfl⟩ (after_runs (fun _ _ => trivial) glitch _)

end Bounds

end EmbeddedOS.GpioInt
