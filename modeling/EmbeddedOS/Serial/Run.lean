import EmbeddedOS.Serial.Proc
import Mathlib.Data.List.Basic

/-! Rules for runs of one program against a wire.
A run is deterministic; it is still a run when more bytes come in and when more
register readings are laid in store. -/
namespace Serial

namespace Ctx

variable {ι σ : Type}

def take (c : Ctx ι σ) (k : Nat) : Ctx ι σ := { c with taken := c.taken + k }
def say (c : Ctx ι σ) (ys : List UInt8) : Ctx ι σ := { c with sent := c.sent ++ ys }
def store (c : Ctx ι σ) (m : σ) : Ctx ι σ := { c with mem := m }
def reload (c : Ctx ι σ) (s : List ι) : Ctx ι σ := { c with script := s }
def more (c : Ctx ι σ) (e : List ι) : Ctx ι σ := { c with script := c.script ++ e }
def late (c : Ctx ι σ) (k : Nat) (l : List UInt8) : Ctx ι σ :=
  { c with taken := k + c.taken, sent := l ++ c.sent }
def Unread (c : Ctx ι σ) (w xs : List UInt8) : Prop := w.drop c.taken = xs

@[simp] theorem take_taken (c : Ctx ι σ) (k : Nat) : (c.take k).taken = c.taken + k := rfl
@[simp] theorem take_sent (c : Ctx ι σ) (k : Nat) : (c.take k).sent = c.sent := rfl
@[simp] theorem take_mem (c : Ctx ι σ) (k : Nat) : (c.take k).mem = c.mem := rfl
@[simp] theorem take_script (c : Ctx ι σ) (k : Nat) : (c.take k).script = c.script := rfl
@[simp] theorem say_taken (c : Ctx ι σ) (ys : List UInt8) : (c.say ys).taken = c.taken := rfl
@[simp] theorem say_sent (c : Ctx ι σ) (ys : List UInt8) : (c.say ys).sent = c.sent ++ ys := rfl
@[simp] theorem say_mem (c : Ctx ι σ) (ys : List UInt8) : (c.say ys).mem = c.mem := rfl
@[simp] theorem say_script (c : Ctx ι σ) (ys : List UInt8) : (c.say ys).script = c.script := rfl
@[simp] theorem store_taken (c : Ctx ι σ) (m : σ) : (c.store m).taken = c.taken := rfl
@[simp] theorem store_sent (c : Ctx ι σ) (m : σ) : (c.store m).sent = c.sent := rfl
@[simp] theorem store_mem (c : Ctx ι σ) (m : σ) : (c.store m).mem = m := rfl
@[simp] theorem store_script (c : Ctx ι σ) (m : σ) : (c.store m).script = c.script := rfl

@[simp] theorem reload_taken (c : Ctx ι σ) (s : List ι) : (c.reload s).taken = c.taken := rfl
@[simp] theorem reload_sent (c : Ctx ι σ) (s : List ι) : (c.reload s).sent = c.sent := rfl
@[simp] theorem reload_mem (c : Ctx ι σ) (s : List ι) : (c.reload s).mem = c.mem := rfl
@[simp] theorem reload_script (c : Ctx ι σ) (s : List ι) : (c.reload s).script = s := rfl

theorem say_say (c : Ctx ι σ) (xs ys : List UInt8) : (c.say xs).say ys = c.say (xs ++ ys) := by
  simp only [say, List.append_assoc]

theorem take_take (c : Ctx ι σ) (j k : Nat) : (c.take j).take k = c.take (j + k) := by
  simp only [take, Nat.add_assoc]

theorem store_store (c : Ctx ι σ) (m m' : σ) : (c.store m).store m' = c.store m' := rfl
theorem say_take (c : Ctx ι σ) (ys : List UInt8) (k : Nat) :
    (c.say ys).take k = (c.take k).say ys := rfl
theorem store_take (c : Ctx ι σ) (m : σ) (k : Nat) :
    (c.store m).take k = (c.take k).store m := rfl

theorem reload_reload (c : Ctx ι σ) (s t : List ι) : (c.reload s).reload t = c.reload t := rfl
theorem reload_take (c : Ctx ι σ) (s : List ι) (k : Nat) :
    (c.reload s).take k = (c.take k).reload s := rfl
theorem reload_say (c : Ctx ι σ) (s : List ι) (ys : List UInt8) :
    (c.reload s).say ys = (c.say ys).reload s := rfl

theorem say_nil (c : Ctx ι σ) : c.say [] = c := by simp only [say, List.append_nil]

theorem unread_take {c : Ctx ι σ} {w ys : List UInt8} (xs : List UInt8)
    (unread : c.Unread w (xs ++ ys)) :
    (c.take xs.length).Unread w ys := by
  have h : (w.drop c.taken).drop xs.length = ys := by rw [unread, List.drop_left]
  simpa only [Unread, take_taken, List.drop_drop] using h

theorem unread_after {c : Ctx ι σ} (xs ys : List UInt8) (before : c.taken = xs.length) :
    c.Unread (xs ++ ys) ys := by
  rw [Unread, before, List.drop_left]

theorem unread_all {c : Ctx ι σ} (w : List UInt8) (start : c.taken = 0) : c.Unread w w := by
  rw [Unread, start, List.drop_zero]

theorem unread_head {c : Ctx ι σ} {w xs : List UInt8} {b : UInt8}
    (unread : c.Unread w (b :: xs)) : w[c.taken]? = some b := by
  have h : (w.drop c.taken)[0]? = some b := by rw [unread]; rfl
  simpa using h

end Ctx

namespace Node

variable {ι σ α β : Type}

def more (n : Node ι σ α) (e : List ι) : Node ι σ α := ⟨n.code, n.ctx.more e⟩

/-- The program runs to its end and returns a value. -/
def Does (w : List UInt8) (p : Proc ι σ α) (c : Ctx ι σ) (a : α) (c' : Ctx ι σ) : Prop :=
  Steps w ⟨p, c⟩ ⟨.ret a, c'⟩

section Inversion

/-- All an instruction can do, one rule for each kind. -/
inductive Fires (w : List UInt8) : {α : Type} → Proc ι σ α → Ctx ι σ → Node ι σ α → Prop where
  | get8 {c : Ctx ι σ} {b : UInt8} (there : w[c.taken]? = some b) :
      Fires w .get8 c ⟨.ret b, c.take 1⟩
  | put8 (b : UInt8) (c : Ctx ι σ) : Fires w (.put8 b) c ⟨.ret (), c.say [b]⟩
  | memory {α : Type} (f : σ → α × σ) (c : Ctx ι σ) :
      Fires w (.memory f) c ⟨.ret (f c.mem).1, c.store (f c.mem).2⟩
  | sense {waits : ι → Bool} {c : Ctx ι σ} {r : ι} {rest : List ι} (stored : c.script = r :: rest)
      (ready : waits r = true → c.taken < w.length) :
      Fires w (.sense waits) c ⟨.ret r, c.reload rest⟩
  | iter {α β : Type} (body : β → Proc ι σ (β ⊕ α)) (b : β) (c : Ctx ι σ) :
      Fires w (.iter body b) c ⟨.bind (body b) (Proc.loopBack body), c⟩
  | bind {α β : Type} {p : Proc ι σ β} {c : Ctx ι σ} {q : Node ι σ β} (k : β → Proc ι σ α)
      (inner : Fires w p c q) : Fires w (.bind p k) c ⟨.bind q.code k, q.ctx⟩
  | bind_ret {α β : Type} (b : β) (k : β → Proc ι σ α) (c : Ctx ι σ) :
      Fires w (.bind (.ret b) k) c ⟨k b, c⟩
  | bind_halt {α β : Type} (k : β → Proc ι σ α) (c : Ctx ι σ) :
      Fires w (.bind .halt k) c ⟨.halt, c⟩

theorem fire_cases {w : List UInt8} {p : Proc ι σ α} {c : Ctx ι σ} {n : Node ι σ α}
    (fires : fire w p c = some n) : Fires w p c n := by
  induction p with
  | ret a => cases fires
  | halt => cases fires
  | get8 =>
    simp only [fire] at fires
    split at fires
    · cases fires
    · rename_i b there
      cases Option.some.inj fires
      exact .get8 there
  | put8 b => cases Option.some.inj fires; exact .put8 b c
  | memory f => cases Option.some.inj fires; exact .memory f c
  | sense waits =>
    simp only [fire] at fires
    split at fires
    · cases fires
    · rename_i r rest stored
      split at fires
      · cases fires
      · rename_i ready
        cases Option.some.inj fires
        refine .sense stored fun waiting => ?_
        simpa only [waiting, Bool.true_and, decide_eq_true_eq, Nat.not_le] using ready
  | iter body b => cases Option.some.inj fires; exact .iter body b c
  | bind p k ih =>
    simp only [fire] at fires
    cases h : fire w p c with
    | some q =>
      rw [h] at fires
      cases Option.some.inj fires
      exact .bind k (ih h)
    | none =>
      rw [h] at fires
      cases p with
      | ret b => cases Option.some.inj fires; exact .bind_ret b k c
      | halt => cases Option.some.inj fires; exact .bind_halt k c
      | _ => cases fires

theorem Fires.fire {w : List UInt8} {p : Proc ι σ α} {c : Ctx ι σ} {n : Node ι σ α}
    (fires : Fires w p c n) : Node.fire w p c = some n := by
  induction fires with
  | get8 there => simp only [Node.fire, there]; rfl
  | sense stored ready =>
    simp only [Node.fire, stored]
    apply if_neg
    simpa only [Bool.and_eq_true, decide_eq_true_eq, not_and, Nat.not_le] using ready
  | bind k inner ih => simp only [Node.fire, ih]
  | _ => rfl

end Inversion

section Frame

variable {w : List UInt8} {p : Proc ι σ α} {c : Ctx ι σ} {m n : Node ι σ α}

theorem Fires.longer (later : List UInt8) (fires : Fires w p c n) :
    Fires (w ++ later) p c n := by
  induction fires with
  | get8 there =>
    have inside := (List.getElem?_eq_some_iff.mp there).1
    exact .get8 (by rw [List.getElem?_append_left inside, there])
  | sense stored ready =>
    refine .sense stored fun waiting => ?_
    rw [List.length_append]
    exact Nat.lt_add_right _ (ready waiting)
  | bind k _ ih => exact .bind k ih
  | _ => constructor

theorem Fires.more (e : List ι) (fires : Fires w p c n) :
    Fires w p (c.more e) (n.more e) := by
  induction fires with
  | get8 there => exact .get8 there
  | @sense waits c r rest stored ready =>
    have kept : (c.more e).script = r :: (rest ++ e) := by simp only [Ctx.more, stored]; rfl
    exact .sense kept ready
  | bind k _ ih => exact .bind k ih
  | put8 b c => exact .put8 b (c.more e)
  | memory f c => exact .memory f (c.more e)
  | iter body b c => exact .iter body b (c.more e)
  | bind_ret b k c => exact .bind_ret b k (c.more e)
  | bind_halt k c => exact .bind_halt k (c.more e)

/-- A run that starts late on the link is one on the rest of the wire. -/
theorem Fires.late {k : Nat} {l : List UInt8} {c' : Ctx ι σ} (fires : Fires w p c n) (late : c = c'.late k l) :
    ∃ d, n.ctx = d.late k l ∧ Fires (w.drop k) p c' ⟨n.code, d⟩ := by
  induction fires with
  | get8 there =>
    subst late
    refine ⟨c'.take 1, ?_, .get8 ?_⟩
    · simp only [Ctx.late, Ctx.take, Nat.add_assoc]
    · rw [List.getElem?_drop]
      exact there
  | put8 b =>
    subst late
    refine ⟨c'.say [b], ?_, .put8 b c'⟩
    simp only [Ctx.late, Ctx.say, List.append_assoc]
  | memory f =>
    subst late
    exact ⟨c'.store (f c'.mem).2, rfl, .memory f c'⟩
  | @sense waits _ r rest stored ready =>
    subst late
    refine ⟨c'.reload rest, rfl, .sense stored fun waiting => ?_⟩
    have inside : k + c'.taken < w.length := ready waiting
    rw [List.length_drop]
    omega
  | iter body b =>
    subst late
    exact ⟨c', rfl, .iter body b c'⟩
  | bind f _ ih =>
    obtain ⟨d, same, inner⟩ := ih late
    exact ⟨d, same, .bind f inner⟩
  | bind_ret b f =>
    subst late
    exact ⟨c', rfl, .bind_ret b f c'⟩
  | bind_halt f =>
    subst late
    exact ⟨c', rfl, .bind_halt f c'⟩

theorem steps_late {k : Nat} {l : List UInt8} {c' : Ctx ι σ} (steps : Steps w ⟨p, c'.late k l⟩ n) :
    ∃ d, n.ctx = d.late k l ∧ Steps (w.drop k) ⟨p, c'⟩ ⟨n.code, d⟩ := by
  induction steps with
  | refl => exact ⟨c', rfl, .refl⟩
  | tail _ next ih =>
    obtain ⟨d, same, before⟩ := ih
    obtain ⟨e, same', one⟩ := (fire_cases next).late same
    exact ⟨e, same', before.tail one.fire⟩

theorem steps_wire (later : List UInt8) (steps : Steps w m n) :
    Steps (w ++ later) m n :=
  Relation.ReflTransGen.mono (fun _ _ h => ((fire_cases h).longer later).fire) m n steps

theorem steps_more (e : List ι) (steps : Steps w m n) :
    Steps w (m.more e) (n.more e) :=
  Relation.ReflTransGen.lift (fun a : Node ι σ α => a.more e)
    (fun _ _ h => ((fire_cases h).more e).fire) m n steps

end Frame

section Determinism

/-- Of two states of one run, one is on the way to the other. -/
theorem steps_linear {w : List UInt8} {n a b : Node ι σ α} (ha : Steps w n a)
    (hb : Steps w n b) : Steps w a b ∨ Steps w b a :=
  Relation.ReflTransGen.total_of_right_unique
    (fun _ _ _ hy hz => Option.some.inj (hy.symm.trans hz)) ha hb

theorem finished_more {n : Node ι σ α} (e : List ι) : (n.more e).Finished ↔ n.Finished := by
  obtain ⟨p, c⟩ := n
  constructor
  · intro done
    cases done with
    | ret a _ => exact .ret a c
    | halt _ => exact .halt c
  · intro done
    cases done with
    | ret a _ => exact .ret a _
    | halt _ => exact .halt _

theorem finished_next {w : List UInt8} {n : Node ι σ α} (done : n.Finished) :
    n.next w = none := by
  cases done <;> rfl

theorem finished_steps {w : List UInt8} {m n : Node ι σ α} (done : m.Finished)
    (steps : Steps w m n) : n = m := by
  rcases steps.cases_head with h | ⟨x, h, _⟩
  · exact h.symm
  · rw [finished_next done] at h
    cases h

theorem finished_unique {w : List UInt8} {n a b : Node ι σ α} (ha : Steps w n a)
    (hb : Steps w n b) (da : a.Finished) (db : b.Finished) : a = b := by
  rcases steps_linear ha hb with h | h
  · exact (finished_steps da h).symm
  · exact finished_steps db h

theorem starving_next {w : List UInt8} {n : Node ι σ α} (starves : n.starving w = true) :
    n.next w = none := by
  obtain ⟨p, c⟩ := n
  simp only [starving, Bool.and_eq_true, decide_eq_true_eq] at starves
  obtain ⟨reads, empty⟩ := starves
  change fire w p c = none
  induction p with
  | get8 => simp only [fire, List.getElem?_eq_none empty]
  | bind p k ih =>
    have h := ih reads
    simp only [fire, h]
    cases p with
    | ret b => cases reads
    | halt => cases reads
    | _ => rfl
  | _ => cases reads

end Determinism

section Rules

variable {w : List UInt8}

theorem fire_bind {p : Proc ι σ β} {k : β → Proc ι σ α} {c : Ctx ι σ} {q : Node ι σ β}
    (fires : fire w p c = some q) :
    fire w (p >>= k) c = some ⟨q.code >>= k, q.ctx⟩ := by
  change fire w (.bind p k) c = _
  simp only [fire, fires]
  rfl

theorem steps_bind {p : Proc ι σ β} {c : Ctx ι σ} {q : Node ι σ β} (k : β → Proc ι σ α)
    (steps : Steps w ⟨p, c⟩ q) : Steps w ⟨p >>= k, c⟩ ⟨q.code >>= k, q.ctx⟩ :=
  Relation.ReflTransGen.lift (fun n : Node ι σ β => (⟨n.code >>= k, n.ctx⟩ : Node ι σ α))
    (fun _ _ h => fire_bind h) ⟨p, c⟩ q steps

/-- The sequencing rule: the first part returns, the rest runs with its value. -/
theorem Does.andThen {p : Proc ι σ β} {k : β → Proc ι σ α} {c c' : Ctx ι σ} {b : β}
    {n : Node ι σ α} (first : Does w p c b c') (rest : Steps w ⟨k b, c'⟩ n) :
    Steps w ⟨p >>= k, c⟩ n :=
  (steps_bind k first).trans (Relation.ReflTransGen.head rfl rest)

theorem does_pure (a : α) (c : Ctx ι σ) : Does w (pure a) c a c := .refl

theorem does_get8 {c : Ctx ι σ} {b : UInt8} {xs : List UInt8} (unread : c.Unread w (b :: xs)) :
    Does w .get8 c b (c.take 1) := by
  apply Relation.ReflTransGen.single
  change fire w .get8 c = _
  simp only [fire, Ctx.unread_head unread]
  rfl

theorem does_put8 (b : UInt8) (c : Ctx ι σ) : Does w (.put8 b) c () (c.say [b]) :=
  .single rfl

theorem does_memory (f : σ → α × σ) (c : Ctx ι σ) :
    Does w (.memory f) c (f c.mem).1 (c.store (f c.mem).2) := .single rfl

theorem does_assert {b : Bool} (holds : b = true) (c : Ctx ι σ) :
    Does w (Proc.assert b) c () c := by
  rw [holds]
  exact .refl

theorem does_sense {waits : ι → Bool} {c : Ctx ι σ} {r : ι} {rest : List ι}
    (stored : c.script = r :: rest) (ready : waits r = true → c.taken < w.length) :
    Does w (.sense waits) c r (c.reload rest) := by
  apply Relation.ReflTransGen.single
  change fire w (.sense waits) c = _
  simp only [fire, stored]
  apply if_neg
  simpa only [Bool.and_eq_true, decide_eq_true_eq, not_and, Nat.not_le] using ready

theorem does_iter_again {body : β → Proc ι σ (β ⊕ α)} {b b' : β} {c c' : Ctx ι σ}
    {n : Node ι σ α} (round : Does w (body b) c (.inl b') c')
    (rest : Steps w ⟨.iter body b', c'⟩ n) : Steps w ⟨.iter body b, c⟩ n :=
  .head rfl (Does.andThen (k := Proc.loopBack body) round rest)

theorem does_iter_last {body : β → Proc ι σ (β ⊕ α)} {b : β} {a : α} {c c' : Ctx ι σ}
    (round : Does w (body b) c (.inr a) c') : Does w (.iter body b) c a c' :=
  .head rfl (Does.andThen (k := Proc.loopBack body) round .refl)

end Rules

section Splitting

variable {w : List UInt8}

/-- The sequencing rule read backwards: a run that returns has returned from the first
part, and then from the rest. -/
theorem Does.split {p : Proc ι σ β} {k : β → Proc ι σ α} {c c' : Ctx ι σ} {a : α}
    (runs : Does w (p >>= k) c a c') : ∃ b d, Does w p c b d ∧ Does w (k b) d a c' := by
  suffices all : ∀ m : Node ι σ α, Steps w m ⟨.ret a, c'⟩ → ∀ (p : Proc ι σ β) (c : Ctx ι σ),
      m = ⟨.bind p k, c⟩ → ∃ b d, Does w p c b d ∧ Does w (k b) d a c' from all _ runs p c rfl
  intro m steps
  induction steps using Relation.ReflTransGen.head_induction_on with
  | refl =>
    intro p c same
    cases congrArg Node.code same
  | head step rest ih =>
    rintro p c rfl
    cases fire_cases step with
    | bind _ inner =>
      obtain ⟨b, d, first, later⟩ := ih _ _ rfl
      exact ⟨b, d, .head inner.fire first, later⟩
    | bind_ret b => exact ⟨b, c, .refl, rest⟩
    | bind_halt =>
      have same := finished_steps (.halt c) rest
      cases congrArg Node.code same

/-- A run that returns goes on to its end from every state it comes through. -/
theorem Does.rest {p : Proc ι σ α} {c c' : Ctx ι σ} {a : α} {n : Node ι σ α}
    (runs : Does w p c a c') (steps : Steps w ⟨p, c⟩ n) : Steps w n ⟨.ret a, c'⟩ := by
  rcases steps_linear steps runs with before | after
  · exact before
  · rw [finished_steps (.ret a c') after]
    exact .refl

theorem does_get8_inv {c c' : Ctx ι σ} {b : UInt8} (runs : Does w .get8 c b c') :
    w[c.taken]? = some b ∧ c' = c.take 1 := by
  rcases runs.cases_head with same | ⟨n, step, rest⟩
  · cases congrArg Node.code same
  · change fire w .get8 c = some n at step
    simp only [fire] at step
    split at step
    · cases step
    · rename_i x there
      cases Option.some.inj step
      cases finished_steps (.ret x _) rest
      exact ⟨there, rfl⟩

end Splitting

section Frames

variable {w : List UInt8}

theorem respects_bind {R : σ → σ → Prop} {p : Proc ι σ β} {k : β → Proc ι σ α}
    (first : p.Respects R) (rest : ∀ b, (k b).Respects R) : (p >>= k).Respects R := ⟨first, rest⟩

theorem respects_forFrom {R : σ → σ → Prop} {body : UInt32 → Proc ι σ Unit}
    (each : ∀ i, (body i).Respects R) (k : Nat) (i : UInt32) :
    (Proc.forFrom k i body).Respects R := by
  induction k generalizing i with
  | zero => trivial
  | succ k ih => exact respects_bind (each i) fun _ => ih (i + 1)

variable {R : σ → σ → Prop} (reflexive : ∀ m, R m m)

include reflexive in
theorem Fires.respects {p : Proc ι σ α} {c : Ctx ι σ} {n : Node ι σ α} (fires : Fires w p c n)
    (respects : p.Respects R) : n.code.Respects R ∧ R c.mem n.ctx.mem := by
  induction fires with
  | memory f c => exact ⟨trivial, respects c.mem⟩
  | iter body b c =>
    refine ⟨⟨respects b, ?_⟩, reflexive _⟩
    rintro (b' | a)
    · exact respects
    · trivial
  | bind k inner ih =>
    have h := ih respects.1
    exact ⟨⟨h.1, respects.2⟩, h.2⟩
  | bind_ret b k c => exact ⟨respects.2 b, reflexive _⟩
  | _ => exact ⟨trivial, reflexive _⟩

include reflexive in
/-- The frame rule: if each change is allowed, so is what a whole run changes. -/
theorem steps_respects (transitive : ∀ {a b c}, R a b → R b c → R a c) {m n : Node ι σ α}
    (steps : Steps w m n) (respects : m.code.Respects R) :
    n.code.Respects R ∧ R m.ctx.mem n.ctx.mem := by
  induction steps with
  | refl => exact ⟨respects, reflexive _⟩
  | tail _ h ih =>
    have hn := (fire_cases h).respects reflexive ih.1
    exact ⟨hn.1, transitive ih.2 hn.2⟩

/-- What has been sent stays sent, and what has been taken stays taken. -/
theorem Fires.grows {p : Proc ι σ α} {c : Ctx ι σ} {n : Node ι σ α} (fires : Fires w p c n) :
    c.sent <+: n.ctx.sent ∧ c.taken ≤ n.ctx.taken := by
  induction fires with
  | get8 there => exact ⟨List.prefix_rfl, Nat.le_succ _⟩
  | put8 b c => exact ⟨List.prefix_append _ _, Nat.le_refl _⟩
  | bind k _ ih => exact ih
  | _ => exact ⟨List.prefix_rfl, Nat.le_refl _⟩

theorem steps_grows {m n : Node ι σ α} (steps : Steps w m n) :
    m.ctx.sent <+: n.ctx.sent ∧ m.ctx.taken ≤ n.ctx.taken := by
  induction steps with
  | refl => exact ⟨List.prefix_rfl, Nat.le_refl _⟩
  | tail _ h ih =>
    have hn := (fire_cases h).grows
    exact ⟨ih.1.trans hn.1, Nat.le_trans ih.2 hn.2⟩

theorem Fires.taken_le {p : Proc ι σ α} {c : Ctx ι σ} {n : Node ι σ α} (fires : Fires w p c n)
    (some : c.taken ≤ w.length) : n.ctx.taken ≤ w.length := by
  induction fires with
  | get8 there => exact (List.getElem?_eq_some_iff.mp there).1
  | bind k _ ih => exact ih some
  | _ => exact some

theorem steps_taken_le {m n : Node ι σ α} (steps : Steps w m n)
    (some : m.ctx.taken ≤ w.length) : n.ctx.taken ≤ w.length := by
  induction steps with
  | refl => exact some
  | tail _ h ih => exact (fire_cases h).taken_le ih

end Frames

end Node

end Serial
