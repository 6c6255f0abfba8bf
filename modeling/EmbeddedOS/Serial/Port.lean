import EmbeddedOS.Mmio.Program
import EmbeddedOS.Serial.Run

/-! Programs on the link over the drivers of a port. A driver takes many steps for one access and the
device moves meanwhile; the program sees each access as one step on the bytes that have come in. -/
namespace Serial
open Mmio

/-- Every register reading of the program is of a kind that is asked for. -/
def Proc.Senses {ι μ : Type} (asked : (ι → Bool) → Prop) {α : Type} : Proc ι μ α → Prop
  | .sense waits => asked waits
  | .bind p k => p.Senses asked ∧ ∀ b, (k b).Senses asked
  | .iter body _ => ∀ b, (body b).Senses asked
  | _ => True

/-- The accesses that take a driver. -/
def Proc.Accesses {ι μ α : Type} : Proc ι μ α → Prop
  | .get8 => True
  | .put8 _ => True
  | .sense _ => True
  | _ => False

/-- A device with drivers for the accesses, and what its state says of the link: the bytes that have come
in, how many of them are taken, and those that were given to it to send. -/
structure Port (ι ρ υ σ ε : Type) where
  dev : Device ρ υ σ ε
  get8 : Driver ρ υ UInt8
  put8 : UInt8 → Driver ρ υ Unit
  sense : (ι → Bool) → Driver ρ υ ι
  wire : σ → List UInt8
  taken : σ → Nat
  sent : σ → List UInt8

namespace Port

variable {ι ρ υ σ ε μ : Type} (P : Port ι ρ υ σ ε)

/-- The program, with a driver in place of each access. -/
def through {α : Type} : Proc ι μ α → Program ρ υ μ α
  | .ret a => .ret a
  | .bind p k => .bind (through p) fun b => through (k b)
  | .get8 => .call P.get8
  | .put8 b => .call (P.put8 b)
  | .memory f => .memory f
  | .sense waits => .call (P.sense waits)
  | .halt => .halt
  | .iter body b => .iter (fun b => through (body b)) b

structure Same (s t : σ) : Prop where
  taken : P.taken t = P.taken s
  sent : P.sent t = P.sent s

/-- What an access that returns a has done between two states. -/
def Effect {α : Type} : Proc ι μ α → σ → α → σ → Prop
  | .get8, s, b, t =>
    (P.wire t)[P.taken s]? = some b ∧ P.taken t = P.taken s + 1 ∧ P.sent t = P.sent s
  | .put8 b, s, (), t => P.taken t = P.taken s ∧ P.sent t = P.sent s ++ [b]
  | .sense waits, s, v, t => P.Same s t ∧ (waits v = true → P.taken t < (P.wire t).length)
  | _, _, _, _ => False

/-- Before the driver returns, its access has happened or not. -/
def During {α : Type} (good : σ → Prop) (p : Proc ι μ α) (s t : σ) : Prop :=
  good t ∧ (P.Same s t ∨ ∃ a, P.Effect p s a t)

def After {α : Type} (good : σ → Prop) (p : Proc ι μ α) (s : σ) (a : α) (t : σ) : Prop :=
  good t ∧ P.Effect p s a t

/-- What has come in stays on record, and in good states the device leaves alone what it was given. -/
structure Quiet (fine : σ → ε → Prop) (good : σ → Prop) : Prop where
  loaded : ∀ r s, P.wire s <+: P.wire (P.dev.load r s).2
  stored : ∀ r v s, P.wire s <+: P.wire (P.dev.store r v s)
  moved : ∀ e s t, P.dev.act e s = some t → P.wire s <+: P.wire t
  act : ∀ s e t, good s → fine s e → P.dev.act e s = some t → good t ∧ P.Same s t

/-- From good states the drivers do what they are for. -/
structure Sound (fine : σ → ε → Prop) (good : σ → Prop) (asked : (ι → Bool) → Prop) : Prop
    extends P.Quiet fine good where
  get8 : ∀ s, good s →
    Safe P.dev fine (P.During good (.get8 : Proc ι Unit UInt8) s) (P.After good (.get8 : Proc ι Unit UInt8) s)
      P.get8 s
  put8 : ∀ b s, good s →
    Safe P.dev fine (P.During good (.put8 b : Proc ι Unit Unit) s) (P.After good (.put8 b : Proc ι Unit Unit) s)
      (P.put8 b) s
  sense : ∀ waits s, asked waits → good s →
    Safe P.dev fine (P.During good (.sense waits : Proc ι Unit ι) s)
      (P.After good (.sense waits : Proc ι Unit ι) s) (P.sense waits) s

section Stability

variable {P} {fine : σ → ε → Prop} {good : σ → Prop} {α : Type} {p : Proc ι μ α} {s t u : σ}

theorem Same.refl (s : σ) : P.Same s s := ⟨rfl, rfl⟩

theorem Same.trans (one : P.Same s t) (two : P.Same t u) : P.Same s u :=
  ⟨two.taken.trans one.taken, two.sent.trans one.sent⟩

theorem Quiet.same_stable (quiet : P.Quiet fine good) (s : σ) :
    Stable P.dev fine fun t => good t ∧ P.Same s t := by
  intro t e u here allowed moved
  obtain ⟨kept, same⟩ := quiet.act t e u here.1 allowed moved
  exact ⟨kept, here.2.trans same⟩

theorem Quiet.after_stable {a : α} (quiet : P.Quiet fine good) (p : Proc ι μ α) (s : σ) :
    Stable P.dev fine (P.After good p s a) := by
  intro t e u here allowed moved
  obtain ⟨holds, effect⟩ := here
  obtain ⟨kept, same⟩ := quiet.act t e u holds allowed moved
  have grows := quiet.moved e t u moved
  refine ⟨kept, ?_⟩
  cases p with
  | get8 =>
    obtain ⟨there, taken, sent⟩ := effect
    obtain ⟨later, longer⟩ := grows
    refine ⟨?_, same.taken.trans taken, same.sent.trans sent⟩
    rw [← longer, List.getElem?_append_left (List.getElem?_eq_some_iff.mp there).1, there]
  | put8 b => exact ⟨same.taken.trans effect.1, same.sent.trans effect.2⟩
  | sense waits =>
    refine ⟨effect.1.trans same, fun waiting => ?_⟩
    rw [same.taken]
    exact Nat.lt_of_lt_of_le (effect.2 waiting) grows.length_le
  | ret | bind | memory | halt | iter => exact effect.elim

theorem After.during {a : α} (after : P.After good p s a t) : P.During good p s t :=
  ⟨after.1, .inr ⟨a, after.2⟩⟩

end Stability

/-- The context is what the device shows of the link, and all readings were used. -/
structure Shows (c : Ctx ι μ) (s : σ) : Prop where
  taken : c.taken = P.taken s
  sent : c.sent = P.sent s
  script : c.script = []

/-- The program on the link has done what the machine has, and is at its end where the machine is. -/
structure Matches {α : Type} (p : Proc ι μ α) (c : Ctx ι μ) (n : Machine ρ υ μ σ α) : Prop where
  mem : c.mem = n.mem
  shows : P.Shows c n.dev
  returned : ∀ a, n.code = .ret a → p = .ret a
  halted : n.code = .halt → p = .halt

/-- A program on the link, and the same program over the drivers: at the same place, or inside the access
that comes next. -/
inductive Mimics (fine : σ → ε → Prop) (good : σ → Prop) (asked : (ι → Bool) → Prop) :
    {α : Type} → Proc ι μ α → Ctx ι μ → Program ρ υ μ α → σ → Prop where
  | same {α : Type} {p : Proc ι μ α} {c : Ctx ι μ} {q : Program ρ υ μ α} {s : σ} (holds : good s)
      (shows : P.Shows c s) (asks : p.Senses asked) (code : q = P.through p) : Mimics fine good asked p c q s
  | inside {α : Type} {p : Proc ι μ α} {c : Ctx ι μ} {d : Driver ρ υ α} {s t : σ} (access : p.Accesses)
      (shows : P.Shows c s) (safe : Safe P.dev fine (P.During good p s) (P.After good p s) d t) :
      Mimics fine good asked p c (.call d) t
  | bind {α β : Type} {p : Proc ι μ β} {c : Ctx ι μ} {q : Program ρ υ μ β} {s : σ} (k : β → Proc ι μ α)
      (inner : Mimics fine good asked p c q s) (asks : ∀ b, (k b).Senses asked) :
      Mimics fine good asked (.bind p k) c (.bind q fun b => P.through (k b)) s

section Simulation

variable {P} {fine : σ → ε → Prop} {good : σ → Prop} {asked : (ι → Bool) → Prop} {α : Type}
variable {p : Proc ι μ α} {c : Ctx ι μ} {q : Program ρ υ μ α} {s t : σ}

theorem Shows.moved (shows : P.Shows c s) (same : P.Same s t) : P.Shows c t :=
  ⟨shows.taken.trans same.taken.symm, shows.sent.trans same.sent.symm, shows.script⟩

/-- What an access has done is a step on the link. -/
theorem effect_fires {a : α} (access : p.Accesses) (shows : P.Shows c s) (effect : P.Effect p s a t) :
    ∃ e c', Node.Fires (P.wire t) p (c.more e) ⟨.ret a, c'⟩ ∧ P.Shows c' t ∧ c'.mem = c.mem := by
  cases p with
  | get8 =>
    obtain ⟨there, taken, sent⟩ := effect
    rw [← shows.taken] at there taken
    refine ⟨[], _, .get8 there, ⟨taken.symm, shows.sent.trans sent.symm, ?_⟩, rfl⟩
    exact congrArg (· ++ []) shows.script
  | put8 b =>
    obtain ⟨taken, sent⟩ := effect
    refine ⟨[], _, .put8 b _, ⟨shows.taken.trans taken.symm, ?_, congrArg (· ++ []) shows.script⟩, rfl⟩
    rw [sent, ← shows.sent]
    rfl
  | sense waits =>
    obtain ⟨same, there⟩ := effect
    have moved := shows.moved same
    have stored : (c.more [a]).script = a :: [] := congrArg (· ++ [a]) shows.script
    refine ⟨[a], _, .sense stored fun waiting => ?_, ⟨moved.taken, moved.sent, rfl⟩, rfl⟩
    have inside := there waiting
    rwa [← moved.taken] at inside
  | ret | bind | memory | halt | iter => exact access.elim

theorem Mimics.holds (mimics : P.Mimics fine good asked p c q s) : good s := by
  induction mimics with
  | same holds => exact holds
  | inside _ _ safe => exact safe.here.1
  | bind _ _ _ ih => exact ih

theorem Mimics.acted {e : ε} (sound : P.Sound fine good asked) (mimics : P.Mimics fine good asked p c q s)
    (allowed : fine s e) (moved : P.dev.act e s = some t) : P.Mimics fine good asked p c q t := by
  induction mimics with
  | same holds shows asks code =>
    obtain ⟨kept, same⟩ := sound.act _ e t holds allowed moved
    exact .same kept (shows.moved same) asks code
  | @inside _ _ _ d _ s access shows safe =>
    have here : step P.dev ⟨d, s⟩ (.act e) = some ⟨d, t⟩ := Option.map_eq_some_iff.mpr ⟨t, moved, rfl⟩
    exact .inside access shows (safe.next (e := .act e) allowed here)
  | bind k inner asks ih => exact .bind k (ih allowed moved) asks

theorem Mimics.starts {d : Driver ρ υ α} (sound : P.Sound fine good asked) (access : p.Accesses)
    (mimics : P.Mimics fine good asked p c (.call d) s) :
    ∃ s', P.Shows c s' ∧ Safe P.dev fine (P.During good p s') (P.After good p s') d s := by
  cases mimics with
  | inside access shows safe => exact ⟨_, shows, safe⟩
  | same holds shows asks code =>
    refine ⟨s, shows, ?_⟩
    cases p with
    | get8 =>
      cases code
      exact sound.get8 s holds
    | put8 b =>
      cases code
      exact sound.put8 b s holds
    | sense waits =>
      cases code
      exact sound.sense waits s asks holds
    | ret | bind | memory | halt | iter => exact access.elim

theorem through_ret {a : α} (code : P.through p = .ret a) : p = .ret a := by
  cases p with
  | ret b =>
    cases code
    rfl
  | bind | get8 | put8 | memory | sense | halt | iter => cases code

theorem through_halt (code : P.through p = .halt) : p = .halt := by
  cases p with
  | halt => rfl
  | bind | get8 | put8 | memory | sense | ret | iter => cases code

theorem Mimics.returned {a : α} (mimics : P.Mimics fine good asked p c (.ret a) s) :
    p = .ret a ∧ P.Shows c s := by
  cases mimics with
  | same holds shows asks code => exact ⟨through_ret code.symm, shows⟩

theorem Mimics.halted (mimics : P.Mimics fine good asked p c .halt s) : p = .halt ∧ P.Shows c s := by
  cases mimics with
  | same holds shows asks code => exact ⟨through_halt code.symm, shows⟩

/-- What one step of the machine is on the link: some readings more, and steps that take the program to
where it mimics the machine again. -/
def Followed (fine : σ → ε → Prop) (good : σ → Prop) (asked : (ι → Bool) → Prop) (p : Proc ι μ α)
    (c : Ctx ι μ) (n : Machine ρ υ μ σ α) : Prop :=
  ∃ e p' c', Node.Steps (P.wire n.dev) ⟨p, c.more e⟩ ⟨p', c'⟩ ∧
    P.Mimics fine good asked p' c' n.code n.dev ∧ c'.mem = n.mem

theorem more_nil (c : Ctx ι μ) : c.more [] = c := by rw [Ctx.more, List.append_nil]

theorem access_followed {n : Machine ρ υ μ σ α} (sound : P.Sound fine good asked) (access : p.Accesses)
    (mimics : P.Mimics fine good asked p c q s) (call : ∃ d, q = .call d)
    (fires : Program.Fires P.dev q c.mem s n) : P.Followed fine good asked p c n := by
  obtain ⟨d, rfl⟩ := call
  obtain ⟨s', shows, safe⟩ := mimics.starts sound access
  cases fires with
  | returns a =>
    obtain ⟨holds, effect⟩ := safe.returned
    obtain ⟨e, c', fires, shown, kept⟩ := effect_fires access shows effect
    exact ⟨e, .ret a, c', .single fires.fire, .same holds shown trivial rfl, kept⟩
  | call _ here =>
    refine ⟨[], p, c, ?_, .inside access shows (safe.next (e := .cpu) trivial here), rfl⟩
    rw [more_nil]
    exact .refl

theorem Mimics.followed {n : Machine ρ υ μ σ α} (sound : P.Sound fine good asked)
    (mimics : P.Mimics fine good asked p c q s) (fires : Program.Fires P.dev q c.mem s n) :
    P.Followed fine good asked p c n := by
  induction p generalizing c s with
  | ret a =>
    cases mimics with
    | same holds shows asks code =>
      subst code
      cases fires
    | inside access => exact access.elim
  | halt =>
    cases mimics with
    | same holds shows asks code =>
      subst code
      cases fires
    | inside access => exact access.elim
  | get8 =>
    refine access_followed sound trivial mimics ?_ fires
    cases mimics with
    | same _ _ _ code => exact ⟨P.get8, code⟩
    | inside => exact ⟨_, rfl⟩
  | put8 b =>
    refine access_followed sound trivial mimics ?_ fires
    cases mimics with
    | same _ _ _ code => exact ⟨P.put8 b, code⟩
    | inside => exact ⟨_, rfl⟩
  | sense waits =>
    refine access_followed sound trivial mimics ?_ fires
    cases mimics with
    | same _ _ _ code => exact ⟨P.sense waits, code⟩
    | inside => exact ⟨_, rfl⟩
  | memory f =>
    cases mimics with
    | inside access => exact access.elim
    | same holds shows asks code =>
      subst code
      cases fires
      refine ⟨[], _, _, .single (Node.Fires.memory f _).fire, .same holds ?_ trivial rfl, ?_⟩
      · rw [more_nil]
        exact ⟨shows.taken, shows.sent, shows.script⟩
      · rw [more_nil]
        rfl
  | iter body b ih =>
    cases mimics with
    | inside access => exact access.elim
    | same holds shows asks code =>
      subst code
      cases fires
      refine ⟨[], .bind (body b) (Proc.loopBack body), c, ?_, .same holds shows ⟨asks b, ?_⟩ ?_, rfl⟩
      · rw [more_nil]
        exact .single (Node.Fires.iter body b c).fire
      · intro r
        cases r with
        | inl b => exact asks
        | inr a => trivial
      · refine congrArg (Program.bind _) (funext fun r => ?_)
        cases r <;> rfl
  | bind p k ih =>
    obtain ⟨q', rfl, inner, asks⟩ : ∃ q', q = .bind q' (fun b => P.through (k b)) ∧
        P.Mimics fine good asked p c q' s ∧ ∀ b, (k b).Senses asked := by
      cases mimics with
      | same holds shows asks code => exact ⟨P.through p, code, .same holds shows asks.1 rfl, asks.2⟩
      | inside access => exact access.elim
      | bind _ inner asks => exact ⟨_, rfl, inner, asks⟩
    cases fires with
    | bind _ first =>
      obtain ⟨e, p', c', steps, later, kept⟩ := ih inner first
      exact ⟨e, _, c', Node.steps_bind k steps, .bind k later asks, kept⟩
    | bind_ret b =>
      obtain ⟨rfl, shows⟩ := inner.returned
      refine ⟨[], k b, c, ?_, .same inner.holds shows (asks b) rfl, rfl⟩
      rw [more_nil]
      exact .single (Node.Fires.bind_ret b k c).fire
    | bind_halt =>
      obtain ⟨rfl, shows⟩ := inner.halted
      refine ⟨[], .halt, c, ?_, .same inner.holds shows trivial rfl, rfl⟩
      rw [more_nil]
      exact .single (Node.Fires.bind_halt k c).fire

theorem Quiet.stepped {a b : Config ρ υ σ α} {e : Event ε} (quiet : P.Quiet fine good)
    (here : step P.dev a e = some b) : P.wire a.dev <+: P.wire b.dev := by
  obtain ⟨code, s⟩ := a
  cases e with
  | act e =>
    obtain ⟨t, moved, same⟩ := Option.map_eq_some_iff.mp here
    cases same
    exact quiet.moved e s t moved
  | cpu =>
    cases code with
    | ret a => cases here
    | load r k =>
      cases here
      exact quiet.loaded r s
    | store r v k =>
      cases here
      exact quiet.stored r v s
    | poll r ready k =>
      simp only [step] at here
      split at here <;>
      · cases here
        exact quiet.loaded r s

theorem Quiet.fired {m : μ} {n : Machine ρ υ μ σ α} (quiet : P.Quiet fine good)
    (fires : Program.Fires P.dev q m s n) : P.wire s <+: P.wire n.dev := by
  induction fires with
  | call m here => exact quiet.stepped here
  | bind k inner ih => exact ih
  | returns | memory | iter | bind_ret | bind_halt => exact List.prefix_rfl

theorem Quiet.runs {a b : Machine ρ υ μ σ α} (quiet : P.Quiet fine good) (runs : Runs P.dev fine a b) :
    P.wire a.dev <+: P.wire b.dev := by
  induction runs with
  | refl => exact List.prefix_rfl
  | tail _ moves ih =>
    refine ih.trans ?_
    cases moves with
    | cpu fires => exact quiet.fired (Program.fire_cases fires)
    | act _ moved same =>
      subst same
      exact quiet.moved _ _ _ moved

theorem steps_further {w w' : List UInt8} {a b : Node ι μ α} (grows : w <+: w') (steps : Node.Steps w a b) :
    Node.Steps w' a b := by
  obtain ⟨later, rfl⟩ := grows
  exact Node.steps_wire later steps

/-- A run of the machine so far, as a run of the program on the link. -/
def Tracks (fine : σ → ε → Prop) (good : σ → Prop) (asked : (ι → Bool) → Prop) (p : Proc ι μ α)
    (c : Ctx ι μ) (n : Machine ρ υ μ σ α) : Prop :=
  ∃ script p' c', Node.Steps (P.wire n.dev) ⟨p, c.reload script⟩ ⟨p', c'⟩ ∧
    P.Mimics fine good asked p' c' n.code n.dev ∧ c'.mem = n.mem

theorem Tracks.moves {a b : Machine ρ υ μ σ α} (sound : P.Sound fine good asked)
    (tracks : P.Tracks fine good asked p c a) (moves : Moves P.dev fine a b) :
    P.Tracks fine good asked p c b := by
  obtain ⟨script, p', c', steps, mimics, kept⟩ := tracks
  cases moves with
  | act allowed moved same =>
    subst same
    exact ⟨script, p', c', steps_further (sound.moved _ _ _ moved) steps, mimics.acted sound allowed moved, kept⟩
  | cpu fires =>
    have fires := Program.fire_cases fires
    obtain ⟨e, p'', c'', later, mimics', kept'⟩ := mimics.followed sound (kept ▸ fires)
    have longer := Node.steps_more e (steps_further (sound.toQuiet.fired fires) steps)
    exact ⟨script ++ e, p'', c'', longer.trans later, mimics', kept'⟩

theorem tracks_run {a b : Machine ρ υ μ σ α} (sound : P.Sound fine good asked)
    (tracks : P.Tracks fine good asked p c a) (runs : Runs P.dev fine a b) : P.Tracks fine good asked p c b := by
  induction runs with
  | refl => exact tracks
  | tail _ moves ih => exact ih.moves sound moves

/-- What the device shows, with the access done that the driver may have done already. -/
theorem Mimics.shown {m : μ} (mimics : P.Mimics fine good asked p c q s) (mem : c.mem = m) :
    ∃ e p' c', Node.Steps (P.wire s) ⟨p, c.more e⟩ ⟨p', c'⟩ ∧ P.Matches p' c' ⟨q, m, s⟩ := by
  induction mimics with
  | same holds shows asks code =>
    refine ⟨[], _, _, .refl, ?_⟩
    rw [more_nil]
    exact ⟨mem, shows, fun a returned => through_ret (code.symm.trans returned),
      fun halted => through_halt (code.symm.trans halted)⟩
  | inside access shows safe =>
    rcases safe.here.2 with same | ⟨a, effect⟩
    · refine ⟨[], _, _, .refl, ?_⟩
      rw [more_nil]
      exact ⟨mem, shows.moved same, (fun _ same => by cases same), (fun same => by cases same)⟩
    · obtain ⟨e, c', fires, shown, kept⟩ := effect_fires access shows effect
      exact ⟨e, _, c', .single fires.fire, kept.trans mem, shown, (fun _ same => by cases same),
        (fun same => by cases same)⟩
  | bind k _ _ ih =>
    obtain ⟨e, p', c', steps, shown⟩ := ih mem
    exact ⟨e, _, c', Node.steps_bind k steps, shown.mem, shown.shows, (fun _ same => by cases same),
      (fun same => by cases same)⟩

/-- Every run of the machine is a run of the program on the link, on the bytes that have come in: what is
taken and sent, what the program keeps in memory and how it ends are the same. -/
theorem Sound.simulates {m : μ} {n : Machine ρ υ μ σ α} (sound : P.Sound fine good asked) (holds : good s)
    (asks : p.Senses asked) (runs : Runs P.dev fine ⟨P.through p, m, s⟩ n) :
    ∃ script p' c', Node.Steps (P.wire n.dev) ⟨p, ⟨m, script, P.taken s, P.sent s⟩⟩ ⟨p', c'⟩ ∧
      P.Matches p' c' n ∧ good n.dev := by
  have begun : P.Tracks fine good asked p ⟨m, [], P.taken s, P.sent s⟩ ⟨P.through p, m, s⟩ :=
    ⟨[], _, _, .refl, .same holds ⟨rfl, rfl, rfl⟩ asks rfl, rfl⟩
  obtain ⟨script, p', c', steps, mimics, kept⟩ := tracks_run sound begun runs
  obtain ⟨e, p'', c'', later, shown⟩ := mimics.shown kept
  exact ⟨script ++ e, p'', c'', (Node.steps_more e steps).trans later, shown, mimics.holds⟩

end Simulation

end Port

end Serial
