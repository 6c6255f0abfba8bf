import EmbeddedOS.Steps.Run

/-! Drivers that load and store device registers, against a device that also moves on
its own. What a driver may rely on between two accesses is what no move of the device
takes away; one rule for each kind of access carries it on. -/
namespace Mmio

inductive Driver (ρ υ α : Type) where
  | ret (a : α)
  | load (r : ρ) (k : υ → Driver ρ υ α)
  | store (r : ρ) (v : υ) (k : Driver ρ υ α)
  /-- Load the register again and again until its value will do. -/
  | poll (r : ρ) (ready : υ → Bool) (k : υ → Driver ρ υ α)

namespace Driver

variable {ρ υ α β : Type}

def bind : Driver ρ υ β → (β → Driver ρ υ α) → Driver ρ υ α
  | .ret b, f => f b
  | .load r k, f => .load r fun v => (k v).bind f
  | .store r v k, f => .store r v (k.bind f)
  | .poll r ready k, f => .poll r ready fun v => (k v).bind f

instance : Monad (Driver ρ υ) where
  pure := Driver.ret
  bind := Driver.bind

theorem bind_assoc {γ : Type} (p : Driver ρ υ γ) (f : γ → Driver ρ υ β) (g : β → Driver ρ υ α) :
    p >>= f >>= g = p >>= fun c => f c >>= g := by
  change (p.bind f).bind g = p.bind fun c => (f c).bind g
  induction p with
  | ret a => rfl
  | load r k ih => exact congrArg (Driver.load r) (funext ih)
  | store r v k ih => exact congrArg (Driver.store r v) ih
  | poll r ready k ih => exact congrArg (Driver.poll r ready) (funext ih)

theorem pure_bind (b : β) (f : β → Driver ρ υ α) : (pure b : Driver ρ υ β) >>= f = f b := rfl

end Driver

def load {ρ υ : Type} (r : ρ) : Driver ρ υ υ := .load r .ret
def store {ρ υ : Type} (r : ρ) (v : υ) : Driver ρ υ Unit := .store r v (.ret ())
/-- `while(!ready(load(r))) ;` -/
def poll {ρ υ : Type} (r : ρ) (ready : υ → Bool) : Driver ρ υ υ := .poll r ready .ret

/-- What a register access does, and what the device does on its own. -/
structure Device (ρ υ σ ε : Type) where
  load : ρ → σ → υ × σ
  store : ρ → υ → σ → σ
  act : ε → σ → Option σ

inductive Event (ε : Type) where
  | cpu
  | act (e : ε)

variable {ρ υ σ ε α β : Type}

/-- The driver with what it has left to do, and the device. -/
structure Config (ρ υ σ α : Type) where
  code : Driver ρ υ α
  dev : σ

def step (d : Device ρ υ σ ε) (c : Config ρ υ σ α) : Event ε → Option (Config ρ υ σ α)
  | .act e => (d.act e c.dev).map fun s => ⟨c.code, s⟩
  | .cpu =>
    match c.code with
    | .ret _ => none
    | .load r k => some ⟨k (d.load r c.dev).1, (d.load r c.dev).2⟩
    | .store r v k => some ⟨k, d.store r v c.dev⟩
    | .poll r ready k =>
      if ready (d.load r c.dev).1 then some ⟨k (d.load r c.dev).1, (d.load r c.dev).2⟩
      else some ⟨.poll r ready k, (d.load r c.dev).2⟩

/-- The events the device is held to: some of its moves may be ruled out by its state. -/
def Allows (fine : σ → ε → Prop) (c : Config ρ υ σ α) : Event ε → Prop
  | .cpu => True
  | .act e => fine c.dev e

section Safety

variable (d : Device ρ υ σ ε) (fine : σ → ε → Prop)

/-- No move of the device takes P away. -/
def Stable (P : σ → Prop) : Prop := ∀ s e t, P s → fine s e → d.act e s = some t → P t

/-- On every run from here I holds throughout, and Q where the driver returns. -/
def Safe (I : σ → Prop) (Q : α → σ → Prop) (p : Driver ρ υ α) (s : σ) : Prop :=
  ∀ es q t, Steps.Along (step d) (Allows fine) ⟨p, s⟩ es →
    Steps.exec (step d) ⟨p, s⟩ es = some ⟨q, t⟩ → I t ∧ ∀ a, q = .ret a → Q a t

variable {d fine} {I P : σ → Prop} {Q : α → σ → Prop} {s : σ}

theorem safe_of_step {p : Driver ρ υ α} (stable : Stable d fine P) (inv : ∀ s, P s → I s)
    (returns : ∀ s a, P s → p = .ret a → Q a s)
    (goes : ∀ s c, P s → step d ⟨p, s⟩ .cpu = some c →
      c.code = p ∧ P c.dev ∨ Safe d fine I Q c.code c.dev)
    (holds : P s) : Safe d fine I Q p s := by
  intro es
  induction es generalizing s with
  | nil =>
    intro q t _ ran
    cases ran
    exact ⟨inv s holds, fun a done => returns s a holds done⟩
  | cons e es ih =>
    intro q t along ran
    obtain ⟨⟨p', s'⟩, here, later⟩ := Option.bind_eq_some_iff.mp ran
    cases e with
    | act e =>
      obtain ⟨s'', moved, same⟩ := Option.map_eq_some_iff.mp here
      cases same
      exact ih (stable s e s' holds along.1 moved) q t (along.2 _ here) later
    | cpu =>
      rcases goes s ⟨p', s'⟩ holds here with ⟨same, kept⟩ | safe
      · cases same
        exact ih kept q t (along.2 _ here) later
      · exact safe es q t (along.2 _ here) later

theorem safe_ret {a : α} (stable : Stable d fine P) (inv : ∀ s, P s → I s)
    (returns : ∀ s, P s → Q a s) (holds : P s) : Safe d fine I Q (.ret a) s := by
  refine safe_of_step stable inv ?_ ?_ holds
  · intro s b here same
    cases same
    exact returns s here
  · intro s c _ stuck
    cases stuck

theorem safe_load {r : ρ} {k : υ → Driver ρ υ α} (stable : Stable d fine P)
    (inv : ∀ s, P s → I s)
    (next : ∀ s, P s → Safe d fine I Q (k (d.load r s).1) (d.load r s).2) (holds : P s) :
    Safe d fine I Q (.load r k) s := by
  refine safe_of_step stable inv (fun _ _ _ same => by cases same) ?_ holds
  intro s c here stepped
  cases stepped
  exact .inr (next s here)

theorem safe_store {r : ρ} {v : υ} {k : Driver ρ υ α} (stable : Stable d fine P)
    (inv : ∀ s, P s → I s) (next : ∀ s, P s → Safe d fine I Q k (d.store r v s)) (holds : P s) :
    Safe d fine I Q (.store r v k) s := by
  refine safe_of_step stable inv (fun _ _ _ same => by cases same) ?_ holds
  intro s c here stepped
  cases stepped
  exact .inr (next s here)

theorem safe_poll {r : ρ} {ready : υ → Bool} {k : υ → Driver ρ υ α} (stable : Stable d fine P)
    (inv : ∀ s, P s → I s)
    (again : ∀ s, P s → ready (d.load r s).1 = false → P (d.load r s).2)
    (next : ∀ s, P s → ready (d.load r s).1 = true →
      Safe d fine I Q (k (d.load r s).1) (d.load r s).2) (holds : P s) :
    Safe d fine I Q (.poll r ready k) s := by
  refine safe_of_step stable inv (fun _ _ _ same => by cases same) ?_ holds
  intro s c here stepped
  simp only [step] at stepped
  split at stepped
  · rename_i good
    cases stepped
    exact .inr (next s here good)
  · rename_i bad
    cases stepped
    exact .inl ⟨rfl, again s here (by simpa using bad)⟩

theorem step_bind {p : Driver ρ υ β} {k : β → Driver ρ υ α} {e : Event ε}
    (going : ∀ b, p ≠ .ret b) :
    step d ⟨p >>= k, s⟩ e = (step d ⟨p, s⟩ e).map fun c => ⟨c.code >>= k, c.dev⟩ := by
  cases e with
  | act e =>
    simp only [step, Option.map_map]
    rfl
  | cpu =>
    cases p with
    | ret b => exact absurd rfl (going b)
    | load r f => rfl
    | store r v f => rfl
    | poll r ready f =>
      change step d ⟨.poll r ready fun v => f v >>= k, s⟩ .cpu = _
      simp only [step]
      split <;> rfl

theorem safe_bind {R : β → σ → Prop} {p : Driver ρ υ β} {k : β → Driver ρ υ α}
    (first : Safe d fine I R p s) (rest : ∀ b t, R b t → Safe d fine I Q (k b) t) :
    Safe d fine I Q (p >>= k) s := by
  intro es
  induction es generalizing p s with
  | nil =>
    intro q t along ran
    by_cases done : ∃ b, p = .ret b
    · obtain ⟨b, rfl⟩ := done
      exact rest b s ((first [] _ s trivial rfl).2 b rfl) [] q t along ran
    · cases ran
      refine ⟨(first [] p s trivial rfl).1, fun a same => ?_⟩
      cases p with
      | ret b => exact absurd ⟨b, rfl⟩ done
      | load r f => cases same
      | store r v f => cases same
      | poll r ready f => cases same
  | cons e es ih =>
    intro q t along ran
    by_cases done : ∃ b, p = .ret b
    · obtain ⟨b, rfl⟩ := done
      exact rest b s ((first [] _ s trivial rfl).2 b rfl) (e :: es) q t along ran
    · have going : ∀ b, p ≠ .ret b := fun b same => done ⟨b, same⟩
      obtain ⟨c, here, later⟩ := Option.bind_eq_some_iff.mp ran
      rw [step_bind going] at here
      obtain ⟨⟨p', s'⟩, moved, same⟩ := Option.map_eq_some_iff.mp here
      cases same
      refine ih ?_ q t (along.2 _ (by rw [step_bind going, moved]; rfl)) later
      intro es' q' t' along' ran'
      have allowed : Allows fine ⟨p, s⟩ e := by
        cases e with
        | cpu => trivial
        | act e => exact along.1
      refine first (e :: es') q' t' ⟨allowed, ?_⟩ (Option.bind_eq_some_iff.mpr ⟨_, moved, ran'⟩)
      intro c moved'
      cases moved.symm.trans moved'
      exact along'

theorem Safe.weaken {I' : σ → Prop} {Q' : α → σ → Prop} {p : Driver ρ υ α}
    (safe : Safe d fine I Q p s) (inv : ∀ s, I s → I' s) (post : ∀ a s, Q a s → Q' a s) :
    Safe d fine I' Q' p s := by
  intro es q t along ran
  obtain ⟨kept, returns⟩ := safe es q t along ran
  exact ⟨inv t kept, fun a done => post a t (returns a done)⟩

theorem Safe.returns_inv {p : Driver ρ υ α} (safe : Safe d fine I Q p s) :
    Safe d fine I (fun a t => Q a t ∧ I t) p s := by
  intro es q t along ran
  obtain ⟨kept, returns⟩ := safe es q t along ran
  exact ⟨kept, fun a done => ⟨returns a done, kept⟩⟩

end Safety

section Runs

variable {d : Device ρ υ σ ε} {s t : σ}

/-- Some run of the driver, with moves of the device in between, returns. -/
def Returns (d : Device ρ υ σ ε) (p : Driver ρ υ α) (s : σ) (a : α) (t : σ) : Prop :=
  Steps.Reaches (step d) (⟨p, s⟩ : Config ρ υ σ α) ⟨.ret a, t⟩

theorem reaches_bind {p q : Driver ρ υ β} (k : β → Driver ρ υ α)
    (run : Steps.Reaches (step d) ⟨p, s⟩ ⟨q, t⟩) :
    Steps.Reaches (step d) ⟨p >>= k, s⟩ ⟨q >>= k, t⟩ := by
  obtain ⟨es, ran⟩ := run
  refine ⟨es, ?_⟩
  induction es generalizing p s with
  | nil =>
    cases ran
    rfl
  | cons e es ih =>
    obtain ⟨⟨p', s'⟩, here, later⟩ := Option.bind_eq_some_iff.mp ran
    have same : step d ⟨p >>= k, s⟩ e = some ⟨p' >>= k, s'⟩ := by
      cases e with
      | act e =>
        obtain ⟨s'', moved, same⟩ := Option.map_eq_some_iff.mp here
        cases same
        exact Option.map_eq_some_iff.mpr ⟨s', moved, rfl⟩
      | cpu =>
        cases p with
        | ret b => cases here
        | _ => rw [step_bind (by intro b same; cases same), here]; rfl
    exact Option.bind_eq_some_iff.mpr ⟨_, same, ih later⟩

theorem along_all {fine : σ → ε → Prop} (all : ∀ s e, fine s e) (c : Config ρ υ σ α)
    (es : List (Event ε)) : Steps.Along (step d) (Allows fine) c es := by
  induction es generalizing c with
  | nil => trivial
  | cons e es ih =>
    refine ⟨?_, fun t _ => ih t⟩
    cases e with
    | cpu => trivial
    | act e => exact all c.dev e

theorem Safe.reached {fine : σ → ε → Prop} {I : σ → Prop} {Q : α → σ → Prop} {p q : Driver ρ υ α}
    (safe : Safe d fine I Q p s) (all : ∀ s e, fine s e)
    (run : Steps.Reaches (step d) ⟨p, s⟩ ⟨q, t⟩) : I t ∧ ∀ a, q = .ret a → Q a t := by
  obtain ⟨es, ran⟩ := run
  exact safe es q t (along_all all _ es) ran

theorem Returns.andThen {p : Driver ρ υ β} {k : β → Driver ρ υ α} {b : β} {c : Config ρ υ σ α}
    (first : Returns d p s b t) (rest : Steps.Reaches (step d) ⟨k b, t⟩ c) :
    Steps.Reaches (step d) ⟨p >>= k, s⟩ c := (reaches_bind k first).trans rest

theorem returns_load (r : ρ) (s : σ) :
    Returns d (load r) s (d.load r s).1 (d.load r s).2 := ⟨[.cpu], rfl⟩

theorem returns_store (r : ρ) (v : υ) (s : σ) : Returns d (store r v) s () (d.store r v s) :=
  ⟨[.cpu], rfl⟩

theorem returns_poll (r : ρ) {ready : υ → Bool} (good : ready (d.load r s).1 = true) :
    Returns d (poll r ready) s (d.load r s).1 (d.load r s).2 := by
  refine ⟨[.cpu], ?_⟩
  simp only [Steps.exec, step, poll, good, if_true]
  rfl

theorem reaches_act {p : Driver ρ υ α} {e : ε} {c : Config ρ υ σ α} (moves : d.act e s = some t)
    (rest : Steps.Reaches (step d) ⟨p, t⟩ c) : Steps.Reaches (step d) ⟨p, s⟩ c :=
  Steps.Reaches.step (a := .act e) (by simp only [step, moves]; rfl) rest

end Runs

end Mmio
