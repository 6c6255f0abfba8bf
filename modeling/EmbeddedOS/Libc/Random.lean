import EmbeddedOS.Lagged.Sequence
import Mathlib.Data.List.Basic

/-! random.c and pi-random.c: trinomial generators whose states lie in arrays of the caller. -/
namespace EmbeddedOS.Libc.Random

section Code

def TYPE_0 : Nat := 0
def TYPE_1 : Nat := 1
def TYPE_2 : Nat := 2
def TYPE_3 : Nat := 3
def TYPE_4 : Nat := 4
def MAX_TYPES : Nat := 5
def BREAK_0 : Nat := 8
def BREAK_1 : Nat := 32
def BREAK_2 : Nat := 64
def BREAK_3 : Nat := 128
def BREAK_4 : Nat := 256

def degrees (type : Nat) : Nat := [0, 7, 15, 31, 63].getD type 0

def seps (type : Nat) : Nat := [0, 3, 1, 3, 1].getD type 0

/-- A pointer to a word of an array, by its index from the begin of the array on. -/
structure Pointer (ι : Type) where
  array : ι
  index : Nat

def Pointer.add {ι : Type} (p : Pointer ι) (i : Nat) : Pointer ι := { p with index := p.index + i }

/-- `p[-1]`; none in front of the array. -/
def Pointer.before {ι : Type} (p : Pointer ι) : Option (Pointer ι) :=
  if p.index = 0 then none else some { p with index := p.index - 1 }

structure RandomData (ι : Type) where
  fptr : Pointer ι
  rptr : Pointer ι
  state : Pointer ι
  randType : Nat
  randDeg : Nat
  randSep : Nat
  endPtr : Pointer ι

/-- The structure that all calls are given, and the words of the arrays. -/
structure Rng (ι : Type) where
  buf : RandomData ι
  mem : ι → List Int32

variable {ι : Type} [DecidableEq ι] (s : Rng ι)

def Rng.read (p : Pointer ι) : Option Int32 := (s.mem p.array)[p.index]?

def Rng.write (p : Pointer ι) (v : Int32) : Option (Rng ι) :=
  if p.index < (s.mem p.array).length then
    some { s with mem := Function.update s.mem p.array ((s.mem p.array).set p.index v) }
  else none

/-- Both pointers go on, and only one of them is tested where the other one has gone around. -/
def RandomData.advance (buf : RandomData ι) : RandomData ι :=
  if (buf.fptr.add 1).index ≥ buf.endPtr.index then
    { buf with fptr := buf.state, rptr := buf.rptr.add 1 }
  else
    { buf with
      fptr := buf.fptr.add 1
      rptr := if (buf.rptr.add 1).index ≥ buf.endPtr.index then buf.state else buf.rptr.add 1 }

def randomR : Option (Int32 × Rng ι) :=
  if s.buf.randType = TYPE_0 then do
    let val ← s.read s.buf.state
    let val := (val * 1103515245 + 12345) &&& 0x7fffffff
    let s ← s.write s.buf.state val
    pure (val, s)
  else do
    let front ← s.read s.buf.fptr
    let rear ← s.read s.buf.rptr
    let val := front + rear
    let s ← s.write s.buf.fptr val
    let result := (val >>> 1) &&& 0x7fffffff
    pure (result, { s with buf := s.buf.advance })

/-- A long int has 32 bits on the pi. -/
def nextWord (word : Int32) : Int32 :=
  let hi := word / 127773
  let lo := word % 127773
  let word := 16807 * lo - 2836 * hi
  if word < 0 then word + 2147483647 else word

def fill : Nat → Int32 → Pointer ι → Rng ι → Option (Rng ι)
  | 0, _, _, s => some s
  | k + 1, word, dst, s => do
    let word := nextWord word
    let dst := dst.add 1
    let s ← s.write dst word
    fill k word dst s

def discard : Nat → Rng ι → Option (Rng ι)
  | 0, s => some s
  | k + 1, s => do
    let (_, s) ← randomR s
    discard k s

def srandomR (seed : UInt32) (s : Rng ι) : Option (Int × Rng ι) :=
  if s.buf.randType ≥ MAX_TYPES then some (-1, s)
  else do
    let seed := if seed = 0 then 1 else seed
    let s ← s.write s.buf.state seed.toInt32
    if s.buf.randType = TYPE_0 then pure (0, s)
    else do
      let s ← fill (s.buf.randDeg - 1) seed.toInt32 s.buf.state s
      let s := { s with buf := { s.buf with fptr := s.buf.state.add s.buf.randSep, rptr := s.buf.state } }
      let s ← discard (s.buf.randDeg * 10) s
      pure (0, s)

/-- The best generator that the bytes have room for. -/
def typeFor (n : Nat) : Option Nat :=
  if n ≥ BREAK_3 then some (if n < BREAK_4 then TYPE_3 else TYPE_4)
  else if n < BREAK_1 then if n < BREAK_0 then none else some TYPE_0
  else some (if n < BREAK_2 then TYPE_1 else TYPE_2)

def header (type rear : Nat) : Int32 := Int32.ofNat (if type = TYPE_0 then TYPE_0 else MAX_TYPES * rear + type)

def initstateR (seed : UInt32) (argState : ι) (n : Nat) (s : Rng ι) : Option (Int × Rng ι) :=
  match typeFor n with
  | none => some (-1, s)
  | some type => do
    let state : Pointer ι := ⟨argState, 1⟩
    let s := { s with buf := { s.buf with
      randType := type
      randSep := seps type
      randDeg := degrees type
      endPtr := state.add (degrees type)
      state := state } }
    let (_, s) ← srandomR seed s
    let s ← s.write ⟨argState, 0⟩ (header type (s.buf.rptr.index - s.buf.state.index))
    pure (0, s)

def setstateR (argState : Option ι) (s : Rng ι) : Option (Int × Rng ι) :=
  match argState with
  | none => some (-1, s)
  | some argState => do
    let newState : Pointer ι := ⟨argState, 1⟩
    let oldState := s.buf.state
    let saved ← oldState.before
    let s ← s.write saved (header s.buf.randType (s.buf.rptr.index - oldState.index))
    let word ← s.read ⟨argState, 0⟩
    let type := word % 5
    if type < 0 ∨ type > 4 then pure (-1, s)
    else do
      let type := type.toInt.toNat
      let rear := (word / 5).toInt.toNat
      let buf := { s.buf with
        randDeg := degrees type
        randSep := seps type
        randType := type
        state := newState
        endPtr := newState.add (degrees type) }
      if type ≠ TYPE_0 then
        pure (0, { s with buf := { buf with
          rptr := newState.add rear
          fptr := newState.add ((rear + seps type) % degrees type) } })
      else pure (0, { s with buf := buf })

end Code

section Pi

def STATESIZE : Nat := 128

/-- The static variables of pi-random.c, with statebuf the only array. -/
structure PiRandom where
  initializedP : Bool
  rng : Rng Unit

def zeroed : RandomData Unit := ⟨⟨(), 0⟩, ⟨(), 0⟩, ⟨(), 0⟩, 0, 0, 0, ⟨(), 0⟩⟩

/-- none where an assert fails. -/
def piRandomSeed (x : UInt32) (p : PiRandom) : Option PiRandom := do
  let (r, s) ← initstateR x () STATESIZE { p.rng with buf := zeroed }
  if r ≠ 0 then none
  else do
    let (r, s) ← srandomR x s
    if r ≠ 0 then none else pure ⟨true, s⟩

/-- What pi_random does once all is set up. -/
def PiRandom.draw (p : PiRandom) : Option (UInt32 × PiRandom) := do
  let (x, s) ← randomR p.rng
  pure (x.toUInt32, { p with rng := s })

/-- pi_random_init calls pi_random again, after it has set initialized_p; the number bounds how often. -/
def piRandomNested : Nat → PiRandom → Option (UInt32 × PiRandom)
  | 0, _ => none
  | k + 1, p => do
    let p ← (if p.initializedP then some p
      else do
        let p ← piRandomSeed 0 p
        let (u, p) ← piRandomNested k p
        if 0x6b8b4567 = u then pure { p with initializedP := true } else none)
    p.draw

def piRandom (p : PiRandom) : Option (UInt32 × PiRandom) := piRandomNested 2 p

end Pi

end EmbeddedOS.Libc.Random
