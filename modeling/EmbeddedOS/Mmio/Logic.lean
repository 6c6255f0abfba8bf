import EmbeddedOS.Mmio.Program

/-! Rules for programs over a device: what holds all along the runs of a program, and where it stops. A call
takes over what its driver keeps, and a loop has an invariant. -/
namespace Mmio

variable {ρ υ μ σ ε α β : Type} {d : Device ρ υ σ ε} {fine : σ → ε → Prop}

section Accesses

variable {I P : σ → Prop} {s : σ}

theorem safe_reads {r : ρ} {g : υ → α} {Q : α → σ → Prop} (stable : Stable d fine P) (inv : ∀ s, P s → I s)
    (stable' : ∀ a, Stable d fine (Q a)) (inv' : ∀ a s, Q a s → I s)
    (next : ∀ s, P s → Q (g (d.load r s).1) (d.load r s).2) (holds : P s) :
    Safe d fine I Q (.load r fun v => .ret (g v)) s :=
  safe_load stable inv (fun s here => safe_ret (stable' _) (inv' _) (fun _ there => there) (next s here)) holds

theorem safe_writes {r : ρ} {v : υ} {P' : σ → Prop} (stable : Stable d fine P) (inv : ∀ s, P s → I s)
    (stable' : Stable d fine P') (inv' : ∀ s, P' s → I s) (next : ∀ s, P s → P' (d.store r v s)) (holds : P s) :
    Safe d fine I (fun _ => P') (store r v) s :=
  safe_store stable inv (fun s here => safe_ret stable' inv' (fun _ there => there) (next s here)) holds

/-- What no access takes away holds all along any driver. -/
theorem safe_throughout (stable : Stable d fine P) (loads : ∀ r s, P s → P (d.load r s).2)
    (stores : ∀ r v s, P s → P (d.store r v s)) (c : Driver ρ υ α) (holds : P s) :
    Safe d fine P (fun _ => P) c s := by
  induction c generalizing s with
  | ret a => exact safe_ret stable (fun _ here => here) (fun _ here => here) holds
  | load r k ih => exact safe_load stable (fun _ here => here) (fun t here => ih _ (loads r t here)) holds
  | store r v k ih => exact safe_store stable (fun _ here => here) (fun t here => ih (stores r v t here)) holds
  | poll r ready k ih =>
    exact safe_poll stable (fun _ here => here) (fun t here _ => loads r t here)
      (fun t here _ => ih _ (loads r t here)) holds

end Accesses

/-- On every run from here I holds throughout, and Q where the program stops: with what it returns, or
with none where it has halted. -/
def Guards (d : Device ρ υ σ ε) (fine : σ → ε → Prop) (I : μ → σ → Prop) (Q : Option α → μ → σ → Prop)
    (p : Program ρ υ μ α) (m : μ) (s : σ) : Prop :=
  ∀ n, Runs d fine ⟨p, m, s⟩ n →
    I n.mem n.dev ∧ (∀ a, n.code = .ret a → Q (some a) n.mem n.dev) ∧ (n.code = .halt → Q none n.mem n.dev)

variable {I : μ → σ → Prop} {Q : Option α → μ → σ → Prop} {P : σ → Prop} {m : μ} {s : σ}

theorem guards_of_step {p : Program ρ υ μ α} (stable : Stable d fine P) (inv : ∀ s, P s → I m s)
    (returns : ∀ s a, P s → p = .ret a → Q (some a) m s) (halts : ∀ s, P s → p = .halt → Q none m s)
    (goes : ∀ s n, P s → Program.fire d p m s = some n → Guards d fine I Q n.code n.mem n.dev)
    (holds : P s) : Guards d fine I Q p m s := by
  intro n runs
  generalize begun : (⟨p, m, s⟩ : Machine ρ υ μ σ α) = a at runs
  induction runs using Relation.ReflTransGen.head_induction_on generalizing s with
  | refl =>
    subst begun
    exact ⟨inv s holds, fun a done => returns s a holds done, halts s holds⟩
  | head moves rest ih =>
    subst begun
    cases moves with
    | cpu fires => exact goes s _ holds fires n rest
    | act allowed moved same =>
      subst same
      exact ih (stable _ _ _ holds allowed moved) rfl

theorem guards_ret {a : α} (stable : Stable d fine P) (inv : ∀ s, P s → I m s)
    (returns : ∀ s, P s → Q (some a) m s) (holds : P s) : Guards d fine I Q (.ret a) m s := by
  refine guards_of_step stable inv ?_ (fun _ _ same => by cases same) (fun _ _ _ fires => by cases fires) holds
  intro s b here same
  cases same
  exact returns s here

theorem guards_halt (stable : Stable d fine P) (inv : ∀ s, P s → I m s) (halts : ∀ s, P s → Q none m s)
    (holds : P s) : Guards d fine I Q .halt m s :=
  guards_of_step stable inv (fun _ _ _ same => by cases same) (fun s here _ => halts s here)
    (fun _ _ _ fires => by cases fires) holds

theorem guards_memory {f : μ → α × μ} (stable : Stable d fine P) (inv : ∀ s, P s → I m s)
    (next : ∀ s, P s → Guards d fine I Q (.ret (f m).1) (f m).2 s) (holds : P s) :
    Guards d fine I Q (.memory f) m s := by
  refine guards_of_step stable inv (fun _ _ _ same => by cases same) (fun _ _ same => by cases same) ?_ holds
  intro s n here fires
  cases Program.fire_cases fires
  exact next s here

theorem guards_call {c : Driver ρ υ α} (safe : Safe d fine (I m) (fun a => Q (some a) m) c s) :
    Guards d fine I Q (.call c) m s := by
  intro n runs
  obtain ⟨mem, c', safe', place⟩ := runs_call safe runs
  rw [mem]
  refine ⟨safe'.here, fun a done => ?_, fun halted => ?_⟩
  · rcases place with code | ⟨b, rfl, code⟩
    · cases code.symm.trans done
    · cases code.symm.trans done
      exact safe'.returned
  · rcases place with code | ⟨b, _, code⟩
    · cases code.symm.trans halted
    · cases code.symm.trans halted

theorem guards_bind {R : Option β → μ → σ → Prop} {p : Program ρ υ μ β} {k : β → Program ρ υ μ α}
    (first : Guards d fine I R p m s) (rest : ∀ b m t, R (some b) m t → Guards d fine I Q (k b) m t)
    (halts : ∀ m t, R none m t → Q none m t) : Guards d fine I Q (.bind p k) m s := by
  intro n runs
  rcases runs_bind runs with ⟨q, code, inside⟩ | ⟨halted, inside⟩ | ⟨b, m', t, done, later⟩
  · refine ⟨(first _ inside).1, fun a done => ?_, fun halted => ?_⟩
    · cases code.symm.trans done
    · cases code.symm.trans halted
  · refine ⟨(first _ inside).1, fun a done => ?_, fun _ => halts _ _ ((first _ inside).2.2 rfl)⟩
    cases halted.symm.trans done
  · exact rest b m' t ((first _ done).2.1 b rfl) n later

theorem guards_call_bind {R : β → σ → Prop} {c : Driver ρ υ β} {k : β → Program ρ υ μ α}
    (safe : Safe d fine (I m) R c s) (rest : ∀ b t, R b t → Guards d fine I Q (k b) m t) :
    Guards d fine I Q (.bind (.call c) k) m s := by
  refine guards_bind (R := fun r m' t => r.elim False fun b => m' = m ∧ R b t)
    (guards_call (safe.weaken (fun _ here => here) fun _ _ here => ⟨rfl, here⟩)) ?_ fun _ _ none => none.elim
  rintro b m' t ⟨same, here⟩
  subst same
  exact rest b t here

theorem guards_memory_bind {f : μ → β × μ} {k : β → Program ρ υ μ α} (stable : Stable d fine P)
    (before : ∀ s, P s → I m s) (after : ∀ s, P s → I (f m).2 s)
    (rest : ∀ t, P t → Guards d fine I Q (k (f m).1) (f m).2 t) (holds : P s) :
    Guards d fine I Q (.bind (.memory f) k) m s := by
  refine guards_bind (R := fun r m' t => r.elim False fun b => b = (f m).1 ∧ m' = (f m).2 ∧ P t)
    (guards_memory stable before (fun t here => guards_ret stable after (fun _ here => ⟨rfl, rfl, here⟩) here)
      holds) ?_ fun _ _ none => none.elim
  rintro b m' t ⟨result, mem, here⟩
  subst result mem
  exact rest t here

section Loop

variable {body : β → Program ρ υ μ (β ⊕ α)}

/-- Where a run of a loop is: before a round, in it, or where a round has ended the loop. -/
inductive InLoop (d : Device ρ υ σ ε) (fine : σ → ε → Prop) (body : β → Program ρ υ μ (β ⊕ α))
    (J : β → μ → σ → Prop) (n : Machine ρ υ μ σ α) : Prop where
  | between {b : β} (holds : J b n.mem n.dev) (code : n.code = .iter body b)
  | inside {b : β} {m : μ} {s : σ} {q : Program ρ υ μ (β ⊕ α)} (holds : J b m s)
      (runs : Runs d fine ⟨body b, m, s⟩ ⟨q, n.mem, n.dev⟩) (code : n.code = .bind q (Program.loopBack body))
  | left {b : β} {m : μ} {s : σ} {a : α} (holds : J b m s)
      (runs : Runs d fine ⟨body b, m, s⟩ ⟨.ret (.inr a), n.mem, n.dev⟩) (code : n.code = .ret a)
  | halted {b : β} {m : μ} {s : σ} (holds : J b m s)
      (runs : Runs d fine ⟨body b, m, s⟩ ⟨.halt, n.mem, n.dev⟩) (code : n.code = .halt)

variable {J : β → μ → σ → Prop}

theorem InLoop.acted (stable : ∀ b m, Stable d fine (J b m)) {n : Machine ρ υ μ σ α} (place : InLoop d fine body J n)
    {e : ε} {t : σ} (allowed : fine n.dev e) (moved : d.act e n.dev = some t) :
    InLoop d fine body J { n with dev := t } := by
  cases place with
  | between holds code => exact .between (stable _ _ _ _ _ holds allowed moved) code
  | inside holds runs code => exact .inside holds (runs.tail (.act allowed moved rfl)) code
  | left holds runs code => exact .left holds (runs.tail (.act allowed moved rfl)) code
  | halted holds runs code => exact .halted holds (runs.tail (.act allowed moved rfl)) code

theorem InLoop.fired
    (round : ∀ b m s, J b m s → ∀ b' m' s', Runs d fine ⟨body b, m, s⟩ ⟨.ret (.inl b'), m', s'⟩ → J b' m' s')
    {n n' : Machine ρ υ μ σ α} (place : InLoop d fine body J n)
    (fires : Program.fire d n.code n.mem n.dev = some n') : InLoop d fine body J n' := by
  cases place with
  | between holds code =>
    rw [code] at fires
    cases Program.fire_cases fires
    exact .inside holds .refl rfl
  | @inside b m s q holds runs code =>
    rw [code] at fires
    cases Program.fire_cases fires with
    | bind _ inner => exact .inside holds (runs.tail (.cpu inner.fire)) rfl
    | bind_ret c =>
      cases c with
      | inl b' => exact .between (round b m s holds b' _ _ runs) rfl
      | inr a => exact .left holds runs rfl
    | bind_halt => exact .halted holds runs rfl
  | left _ _ code | halted _ _ code =>
    rw [code] at fires
    cases fires

/-- The rule of a loop that nothing bounds. -/
theorem guards_iter {b : β} (stable : ∀ b m, Stable d fine (J b m)) (inv : ∀ b m s, J b m s → I m s)
    (round : ∀ b m s, J b m s → Guards d fine I
      (fun r m t => r.elim (Q none m t) fun r => r.elim (fun b' => J b' m t) fun a => Q (some a) m t)
      (body b) m s)
    (holds : J b m s) : Guards d fine I Q (.iter body b) m s := by
  intro n runs
  have place : InLoop d fine body J n := by
    induction runs with
    | refl => exact .between holds rfl
    | tail _ moves ih =>
      cases moves with
      | cpu fires => exact ih.fired (fun b m s here b' m' s' done => (round b m s here _ done).2.1 _ rfl) fires
      | act allowed moved same =>
        subst same
        exact ih.acted stable allowed moved
  cases place with
  | between here code =>
    refine ⟨inv _ _ _ here, fun a done => ?_, fun halted => ?_⟩
    · cases code.symm.trans done
    · cases code.symm.trans halted
  | inside here inside code =>
    refine ⟨(round _ _ _ here _ inside).1, fun a done => ?_, fun halted => ?_⟩
    · cases code.symm.trans done
    · cases code.symm.trans halted
  | left here inside code =>
    refine ⟨(round _ _ _ here _ inside).1, fun a done => ?_, fun halted => ?_⟩
    · cases code.symm.trans done
      exact (round _ _ _ here _ inside).2.1 _ rfl
    · cases code.symm.trans halted
  | halted here inside code =>
    refine ⟨(round _ _ _ here _ inside).1, fun a done => ?_, fun _ => (round _ _ _ here _ inside).2.2 rfl⟩
    cases code.symm.trans done

end Loop

theorem Guards.weaken {I' : μ → σ → Prop} {Q' : Option α → μ → σ → Prop} {p : Program ρ υ μ α}
    (guards : Guards d fine I Q p m s) (inv : ∀ m s, I m s → I' m s) (post : ∀ r m s, Q r m s → Q' r m s) :
    Guards d fine I' Q' p m s := by
  intro n runs
  obtain ⟨kept, returns, halts⟩ := guards n runs
  exact ⟨inv _ _ kept, fun a done => post _ _ _ (returns a done), fun halted => post _ _ _ (halts halted)⟩

end Mmio
