import Mathlib.Data.Nat.Digits.Defs
import EmbeddedOS.Steps.Related

/-! printk.c and sprintk.c: the conversions, which the two files repeat word for word around a
putchar of their own. -/
namespace EmbeddedOS.Printk

/-- What va_arg can fetch: a word, two words, or a string. -/
inductive Arg where
  | word (v : UInt32)
  | dword (v : UInt64)
  | str (s : List UInt8)

def ch (c : Char) : UInt8 := UInt8.ofNat c.toNat

/-- The putchar and the panic of one copy. -/
structure Out (m : Type → Type) where
  putchar : UInt8 → m Unit
  panic : {α : Type} → m α

section Copy

variable {m : Type → Type} [Monad m] (o : Out m)

/-- The characters of a number, the last one first; `num` has room for 33. -/
def digits (base : UInt32) : Nat → UInt32 → List UInt8
  | 0, _ => []
  | k + 1, u =>
    let d := (u % base).toUInt8
    let c := if d < 10 then ch '0' + d else ch 'a' + (d - 10)
    c :: if u / base = 0 then [] else digits base k (u / base)

def emitVal (base u : UInt32) : m Unit :=
  if base = 2 ∨ base = 10 ∨ base = 16 then (digits base 33 u).reverse.forM o.putchar
  else o.panic

def word : List Arg → m (UInt32 × List Arg)
  | .word v :: args => pure (v, args)
  | _ => o.panic

def dword : List Arg → m (UInt64 × List Arg)
  | .dword v :: args => pure (v, args)
  | _ => o.panic

def str : List Arg → m (List UInt8 × List Arg)
  | .str s :: args => pure (s.takeWhile (· ≠ 0), args)
  | _ => o.panic

/-- The switch on the character behind a %, with the arguments that it leaves. -/
def conversion (c : UInt8) (args : List Arg) : m (List Arg) :=
  if c = ch 'b' then do
    let (u, args) ← word o args
    emitVal o 2 u
    pure args
  else if c = ch 'u' then do
    let (u, args) ← word o args
    emitVal o 10 u
    pure args
  else if c = ch 'c' then do
    let (u, args) ← word o args
    o.putchar u.toUInt8
    pure args
  else if c = ch 'x' ∨ c = ch 'p' then do
    o.putchar (ch '0')
    o.putchar (ch 'x')
    let (u, args) ← word o args
    emitVal o 16 u
    pure args
  else if c = ch 'd' then do
    let (v, args) ← word o args
    if v < 0x80000000 then emitVal o 10 v
    else do
      o.putchar (ch '-')
      emitVal o 10 (0 - v)
    pure args
  else if c = ch 's' then do
    let (s, args) ← str o args
    s.forM o.putchar
    pure args
  else o.panic

def llx (args : List Arg) : m (List Arg) := do
  o.putchar (ch '0')
  o.putchar (ch 'x')
  let (x, args) ← dword o args
  let hi := (x >>> 32).toUInt32
  let lo := x.toUInt32
  if hi ≠ 0 then emitVal o 16 hi
  emitVal o 16 lo
  pure args

/-- The loop over a format, which a zero byte ends. -/
def format : List UInt8 → List Arg → m Unit
  | [], _ => pure ()
  | c :: fmt, args =>
    if c = 0 then pure ()
    else if c ≠ ch '%' then do
      o.putchar c
      format fmt args
    else
      match fmt with
      | [] => o.panic
      | d :: fmt =>
        if d = ch 'l' then
          match fmt with
          | l :: x :: fmt =>
            if l = ch 'l' ∧ x = ch 'x' then do
              let args ← llx o args
              format fmt args
            else o.panic
          | _ => o.panic
        else do
          let args ← conversion o d args
          format fmt args

end Copy

section Relation

variable {m n : Type → Type} [Monad m] [Monad n] {R : Steps.Related m n} {o : Out m} {o' : Out n}

/-- Two copies whose putchar and panic are related. -/
structure Alike (R : Steps.Related m n) (o : Out m) (o' : Out n) : Prop where
  putchar : ∀ c, R.rel (o.putchar c) (o'.putchar c)
  panic : ∀ {α : Type}, R.rel (o.panic : m α) (o'.panic : n α)

variable (alike : Alike R o o')
include alike

theorem emitVal_rel (base u : UInt32) : R.rel (emitVal o base u) (emitVal o' base u) :=
  R.ite_rel (R.forM_rel alike.putchar _) alike.panic

theorem word_rel (args : List Arg) : R.rel (word o args) (word o' args) := by
  match args with
  | [] => exact alike.panic
  | .word v :: args => exact R.pure_rel (v, args)
  | .dword v :: args => exact alike.panic
  | .str s :: args => exact alike.panic

theorem dword_rel (args : List Arg) : R.rel (dword o args) (dword o' args) := by
  match args with
  | [] => exact alike.panic
  | .word v :: args => exact alike.panic
  | .dword v :: args => exact R.pure_rel (v, args)
  | .str s :: args => exact alike.panic

theorem str_rel (args : List Arg) : R.rel (str o args) (str o' args) := by
  match args with
  | [] => exact alike.panic
  | .word v :: args => exact alike.panic
  | .dword v :: args => exact alike.panic
  | .str s :: args => exact R.pure_rel (s.takeWhile (· ≠ 0), args)

theorem conversion_rel (c : UInt8) (args : List Arg) :
    R.rel (conversion o c args) (conversion o' c args) := by
  have number (base : UInt32) : R.rel
      (word o args >>= fun p => emitVal o base p.1 >>= fun _ => pure p.2)
      (word o' args >>= fun p => emitVal o' base p.1 >>= fun _ => pure p.2) :=
    R.bind_rel (word_rel alike args) fun p =>
      R.bind_rel (emitVal_rel alike base p.1) fun _ => R.pure_rel p.2
  apply R.ite_rel
  · exact number 2
  apply R.ite_rel
  · exact number 10
  apply R.ite_rel
  · exact R.bind_rel (word_rel alike args) fun p =>
      R.bind_rel (alike.putchar _) fun _ => R.pure_rel p.2
  apply R.ite_rel
  · exact R.bind_rel (alike.putchar _) fun _ => R.bind_rel (alike.putchar _) fun _ => number 16
  apply R.ite_rel
  · apply R.bind_rel (word_rel alike args)
    intro p
    apply R.ite_rel
    · exact R.bind_rel (emitVal_rel alike 10 p.1) fun _ => R.pure_rel p.2
    · exact R.bind_rel (alike.putchar _) fun _ =>
        R.bind_rel (emitVal_rel alike 10 _) fun _ => R.pure_rel p.2
  apply R.ite_rel
  · exact R.bind_rel (str_rel alike args) fun p =>
      R.bind_rel (R.forM_rel alike.putchar p.1) fun _ => R.pure_rel p.2
  · exact alike.panic

theorem llx_rel (args : List Arg) : R.rel (llx o args) (llx o' args) := by
  apply R.bind_rel (alike.putchar _)
  intro _
  apply R.bind_rel (alike.putchar _)
  intro _
  apply R.bind_rel (dword_rel alike args)
  intro p
  have low : R.rel (emitVal o 16 p.1.toUInt32 >>= fun _ => pure p.2)
      (emitVal o' 16 p.1.toUInt32 >>= fun _ => pure p.2) :=
    R.bind_rel (emitVal_rel alike 16 _) fun _ => R.pure_rel p.2
  apply R.ite_rel
  · exact R.bind_rel (emitVal_rel alike 16 _) fun _ => low
  · exact low

theorem format_rel : ∀ (fmt : List UInt8) (args : List Arg),
    R.rel (format o fmt args) (format o' fmt args)
  | [], _ => R.pure_rel ()
  | c :: fmt, args => by
    unfold format
    apply R.ite_rel
    · exact R.pure_rel ()
    apply R.ite_rel
    · exact R.bind_rel (alike.putchar c) fun _ => format_rel fmt args
    match fmt with
    | [] => exact alike.panic
    | d :: fmt =>
      apply R.ite_rel
      · match fmt with
        | [] => exact alike.panic
        | [l] => exact alike.panic
        | l :: x :: fmt =>
          apply R.ite_rel
          · exact R.bind_rel (llx_rel alike args) fun args => format_rel fmt args
          · exact alike.panic
      · exact R.bind_rel (conversion_rel alike d args) fun args => format_rel fmt args

end Relation

end EmbeddedOS.Printk
