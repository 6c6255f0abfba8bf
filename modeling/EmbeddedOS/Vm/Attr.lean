import Mathlib.Logic.Function.Basic

/-! Memory attributes, as mem-attr.h has them: what pin_mk makes, and the rights that
an attribute asks for. -/
namespace EmbeddedOS.Vm

/-- An assert or demand: the code goes on, or panics. -/
def demand (c : Prop) [Decidable c] : Option Unit := if c then some () else none

@[simp] theorem demand_eq_some {c : Prop} [Decidable c] {u : Unit} : demand c = some u ↔ c := by
  simp [demand]

def OneMB : UInt32 := 0x100000

def permRwUser : UInt32 := 0b011
def permRoUser : UInt32 := 0b010
def permNaUser : UInt32 := 0b001
def permRoPriv : UInt32 := 0b101
def permRwPriv : UInt32 := permNaUser
def permNaPriv : UInt32 := 0b000

def memPermIslegal (p : UInt32) : Bool :=
  p == permRwUser || p == permRoUser || p == permRoPriv || p == permRwPriv || p == permNaPriv

def texCB (tex c b : UInt32) : UInt32 := tex <<< 2 ||| c <<< 1 ||| b

inductive MemAttr where
  | device
  | uncached
  | wbNoalloc
  | wtNoalloc
deriving DecidableEq

def MemAttr.bits : MemAttr → UInt32
  | .device => texCB 0b000 0 0
  | .uncached => texCB 0b001 0 0
  | .wbNoalloc => texCB 0b000 1 1
  | .wtNoalloc => texCB 0b000 1 0

def PAGE_1MB : UInt32 := 0b11

structure Pin where
  G : UInt32
  asid : UInt32
  dom : UInt32
  pagesize : UInt32
  apPerm : UInt32
  memAttr : MemAttr
deriving DecidableEq

def pinMk (G dom asid perm : UInt32) (memAttr : MemAttr) : Option Pin := do
  demand (memPermIslegal perm)
  demand (dom ≤ 16)
  if G ≠ 0 then demand (asid = 0)
  else
    demand (asid ≠ 0)
    demand (0 < asid ∧ asid < 64)
  pure ⟨G, asid, dom, PAGE_1MB, perm, memAttr⟩

def pinMkGlobal (dom perm : UInt32) (memAttr : MemAttr) : Option Pin := pinMk 1 dom 0 perm memAttr

def pinMkDevice (dom : UInt32) : Option Pin := pinMk 1 dom 0 permRwPriv .device

/-- What an access is checked against, and how the memory is cached. -/
structure Rights where
  perm : Nat
  domain : Nat
  mem : Nat
  xn : Nat
deriving DecidableEq

/-- The rights that an attribute asks for: none of them forbids execution. -/
def Pin.rights (e : Pin) : Rights := ⟨e.apPerm.toNat, e.dom.toNat, e.memAttr.bits.toNat, 0⟩

/-- All that pin_mk promises of an attribute. -/
structure Legal (e : Pin) : Prop where
  perm : memPermIslegal e.apPerm = true
  dom : e.dom ≤ 16
  pagesize : e.pagesize = PAGE_1MB
  asid : e.asid < 64

theorem pinMk_legal {G dom asid perm : UInt32} {memAttr : MemAttr} {e : Pin}
    (made : pinMk G dom asid perm memAttr = some e) :
    Legal e ∧ e = ⟨G, asid, dom, PAGE_1MB, perm, memAttr⟩ := by
  simp only [pinMk, Option.bind_eq_bind, Option.bind_eq_some_iff, demand_eq_some] at made
  obtain ⟨_, legal, _, small, rest⟩ := made
  by_cases everywhere : G ≠ 0
  · rw [if_pos everywhere, Option.bind_eq_some_iff] at rest
    obtain ⟨_, zero, eq⟩ := rest
    rw [demand_eq_some] at zero
    cases eq
    subst zero
    exact ⟨⟨legal, small, rfl, (by decide : (0 : UInt32) < 64)⟩, rfl⟩
  · rw [if_neg everywhere] at rest
    simp only [Option.bind_eq_some_iff, demand_eq_some] at rest
    obtain ⟨_, _, _, ⟨_, bound⟩, eq⟩ := rest
    cases eq
    exact ⟨⟨legal, small, rfl, bound⟩, rfl⟩

end EmbeddedOS.Vm
