import Mathlib.Logic.Relation

/-! Sequential programs on one end of a byte link, as data.
A program may read and send single bytes, change its private memory, read a
device register and loop. Register readings come from a script, so that one
script fixes one behaviour of the hardware; quantifying over scripts gives all. -/
namespace Serial

inductive Proc (ι σ : Type) : Type → Type 1 where
  | ret {α : Type} (a : α) : Proc ι σ α
  | bind {α β : Type} (p : Proc ι σ β) (k : β → Proc ι σ α) : Proc ι σ α
  | get8 : Proc ι σ UInt8
  | put8 (b : UInt8) : Proc ι σ Unit
  | memory {α : Type} (f : σ → α × σ) : Proc ι σ α
  | sense (waits : ι → Bool) : Proc ι σ ι
  | halt {α : Type} : Proc ι σ α
  | iter {α β : Type} (body : β → Proc ι σ (β ⊕ α)) (b : β) : Proc ι σ α

namespace Proc

variable {ι σ α β : Type}

instance : Monad (Proc ι σ) where
  pure := Proc.ret
  bind := Proc.bind

/-- Run a body with the counter at i, i + 1, ..., for k rounds. -/
def forFrom : Nat → UInt32 → (UInt32 → Proc ι σ Unit) → Proc ι σ Unit
  | 0, _, _ => pure ()
  | k + 1, i, body => do
    body i
    forFrom k (i + 1) body

/-- `for (i = 0; i < n; i++) body`, with an unsigned comparison. -/
def forTo (n : UInt32) (body : UInt32 → Proc ι σ Unit) : Proc ι σ Unit :=
  forFrom n.toNat 0 body

def assert (c : Bool) : Proc ι σ Unit := if c then pure () else halt

def reading {α : Type} : Proc ι σ α → Bool
  | .get8 => true
  | .bind p _ => p.reading
  | _ => false

/-- Every change that the program makes to its private memory is one that R allows. -/
def Respects (R : σ → σ → Prop) {α : Type} : Proc ι σ α → Prop
  | .memory f => ∀ m, R m (f m).2
  | .bind p k => p.Respects R ∧ ∀ b, (k b).Respects R
  | .iter body _ => ∀ b, (body b).Respects R
  | _ => True

def loopBack (body : β → Proc ι σ (β ⊕ α)) : β ⊕ α → Proc ι σ α
  | .inl b => .iter body b
  | .inr a => .ret a

end Proc

/-- What an end of the link has besides its code: its memory, the readings its
device registers are going to give, how many bytes it has taken from the wire
that comes in, and all it has sent. -/
structure Ctx (ι σ : Type) where
  mem : σ
  script : List ι
  taken : Nat
  sent : List UInt8

/-- One end of the link: what is left to run, and its context. -/
structure Node (ι σ α : Type) where
  code : Proc ι σ α
  ctx : Ctx ι σ

namespace Node

variable {ι σ α β : Type}

/-- One instruction, when the other end has put the bytes of `w` on the link
so far. A register reading that promises a byte (`waits`) is only given while an
unread byte is there. -/
def fire {α : Type} (w : List UInt8) : Proc ι σ α → Ctx ι σ → Option (Node ι σ α)
  | .ret _, _ => none
  | .halt, _ => none
  | .get8, c =>
    match w[c.taken]? with
    | none => none
    | some b => some ⟨.ret b, { c with taken := c.taken + 1 }⟩
  | .put8 b, c => some ⟨.ret (), { c with sent := c.sent ++ [b] }⟩
  | .memory f, c => some ⟨.ret (f c.mem).1, { c with mem := (f c.mem).2 }⟩
  | .sense waits, c =>
    match c.script with
    | [] => none
    | r :: rest =>
      if waits r && decide (w.length ≤ c.taken) then none
      else some ⟨.ret r, { c with script := rest }⟩
  | .iter body b, c => some ⟨.bind (body b) (Proc.loopBack body), c⟩
  | .bind p k, c =>
    match fire w p c with
    | some q => some ⟨.bind q.code k, q.ctx⟩
    | none =>
      match p with
      | .ret b => some ⟨k b, c⟩
      | .halt => some ⟨.halt, c⟩
      | _ => none

def next (w : List UInt8) (n : Node ι σ α) : Option (Node ι σ α) := fire w n.code n.ctx

def starving (w : List UInt8) (n : Node ι σ α) : Bool :=
  n.code.reading && decide (w.length ≤ n.ctx.taken)

/-- The end of a run: the program returned, or an error stopped it. -/
inductive Finished : Node ι σ α → Prop where
  | ret (a : α) (c : Ctx ι σ) : Finished ⟨.ret a, c⟩
  | halt (c : Ctx ι σ) : Finished ⟨.halt, c⟩

def Steps (w : List UInt8) : Node ι σ α → Node ι σ α → Prop :=
  Relation.ReflTransGen (fun a b => a.next w = some b)

end Node

end Serial
