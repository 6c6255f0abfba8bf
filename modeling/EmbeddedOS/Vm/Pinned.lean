import EmbeddedOS.Vm.PageTable
import Mathlib.Tactic.IntervalCases

/-! Pinned TLB entries, and the rights that they and the descriptors of the page table
give for one attribute. -/
namespace EmbeddedOS.Vm

section Bits

def bitsMask (nbits : Nat) : UInt32 :=
  if nbits = 32 then ~~~0 else (1 <<< UInt32.ofNat nbits) - 1

def bitsGet (x : UInt32) (lb ub : Nat) : UInt32 := (x >>> UInt32.ofNat lb) &&& bitsMask (ub - lb + 1)

theorem bitsMask_toNat : ∀ n < 33, (bitsMask n).toNat = 2 ^ n - 1 := by decide

theorem bitsGet_toNat (x : UInt32) {lb ub : Nat} (le : lb ≤ ub) (small : ub < 32) :
    (bitsGet x lb ub).toNat = x.toNat / 2 ^ lb % 2 ^ (ub - lb + 1) := by
  have shift : (UInt32.ofNat lb).toNat % 32 = lb := by
    rw [UInt32.toNat_ofNat']
    omega
  rw [bitsGet, UInt32.toNat_and, bitsMask_toNat _ (by omega), Nat.and_two_pow_sub_one_eq_mod,
    UInt32.toNat_shiftRight, shift, Nat.shiftRight_eq_div_pow]

theorem or_section {x y : UInt32} (aligned : x % OneMB = 0) (small : y.toNat < 2 ^ 20) :
    (x ||| y).toNat = x.toNat + y.toNat := by
  have low : x.toNat % 0x100000 = 0 := congrArg UInt32.toNat aligned
  obtain ⟨k, whole⟩ := Nat.dvd_of_mod_eq_zero low
  rw [UInt32.toNat_or, whole]
  exact (Nat.two_pow_add_eq_or_of_lt small k).symm

theorem aligned_iff (x : UInt32) : bitsGet x 0 19 = 0 ↔ x % OneMB = 0 := by
  rw [← UInt32.toNat_inj, bitsGet_toNat x (by decide) (by decide), ← UInt32.toNat_inj,
    UInt32.toNat_mod]
  change x.toNat / 1 % 0x100000 = 0 ↔ x.toNat % 0x100000 = 0
  rw [Nat.div_one]

end Bits

section Registers

structure TlbEntry where
  va : UInt32
  pa : UInt32
  attr : UInt32
deriving DecidableEq

/-- The lockdown registers: they show the entry that the index selects. -/
structure Tlb where
  index : UInt32
  entries : Nat → TlbEntry

variable (tlb : Tlb)

def Tlb.set (e : TlbEntry) : Tlb :=
  { tlb with entries := Function.update tlb.entries tlb.index.toNat e }

def Tlb.get : TlbEntry := tlb.entries tlb.index.toNat

def lockdownIndexSet (x : UInt32) : Tlb := { tlb with index := x }
def lockdownVaSet (x : UInt32) : Tlb := tlb.set { tlb.get with va := x }
def lockdownPaSet (x : UInt32) : Tlb := tlb.set { tlb.get with pa := x }
def lockdownAttrSet (x : UInt32) : Tlb := tlb.set { tlb.get with attr := x }
def lockdownVaGet : UInt32 := tlb.get.va
def lockdownPaGet : UInt32 := tlb.get.pa
def lockdownAttrGet : UInt32 := tlb.get.attr

@[simp] theorem get_set (e : TlbEntry) : (tlb.set e).get = e := by
  simp [Tlb.set, Tlb.get]

@[simp] theorem set_set (e f : TlbEntry) : (tlb.set e).set f = tlb.set f := by
  simp [Tlb.set]

/-- The three words for a section. -/
def tlbEntry (va pa : UInt32) (e : Pin) : TlbEntry where
  va := va ||| (e.G <<< 9) ||| e.asid
  pa := pa ||| (e.pagesize <<< 6) ||| (e.apPerm <<< 1) ||| 0x1
  attr := (e.memAttr.bits <<< 1) ||| (e.dom <<< 7)

def pinMmuSec (idx va pa : UInt32) (e : Pin) : Option Tlb := do
  demand (idx < 8)
  demand (bitsGet va 0 19 = 0)
  demand (bitsGet pa 0 19 = 0)
  let ent := tlbEntry va pa e
  let tlb := lockdownIndexSet tlb idx
  let tlb := lockdownVaSet tlb ent.va
  let tlb := lockdownAttrSet tlb ent.attr
  let tlb := lockdownPaSet tlb ent.pa
  demand (lockdownVaGet tlb = ent.va)
  demand (lockdownPaGet tlb = ent.pa)
  demand (lockdownAttrGet tlb = ent.attr)
  pure tlb

variable {tlb}

theorem pinMmuSec_some {idx va pa : UInt32} {e : Pin} {tlb' : Tlb} :
    pinMmuSec tlb idx va pa e = some tlb' ↔ (idx < 8 ∧ va % OneMB = 0 ∧ pa % OneMB = 0) ∧
      tlb' = ⟨idx, Function.update tlb.entries idx.toNat (tlbEntry va pa e)⟩ := by
  have stored : lockdownPaSet (lockdownAttrSet (lockdownVaSet (lockdownIndexSet tlb idx)
      (tlbEntry va pa e).va) (tlbEntry va pa e).attr) (tlbEntry va pa e).pa =
      (lockdownIndexSet tlb idx).set (tlbEntry va pa e) := by
    simp [lockdownVaSet, lockdownAttrSet, lockdownPaSet]
  simp only [pinMmuSec, stored, lockdownVaGet, lockdownPaGet, lockdownAttrGet, get_set,
    Option.bind_eq_bind, Option.bind_eq_some_iff, demand_eq_some, aligned_iff]
  constructor
  · rintro ⟨_, small, _, one, _, two, _, _, _, _, _, _, eq⟩
    cases eq
    exact ⟨⟨small, one, two⟩, rfl⟩
  · rintro ⟨⟨small, one, two⟩, rfl⟩
    exact ⟨(), small, (), one, (), two, (), trivial, (), trivial, (), trivial, rfl⟩

end Registers

section Decoding

def Fld.rights (f : Fld) : Rights :=
  ⟨(f.APX ++ f.AP).toNat, f.domain.toNat, (f.TEX ++ f.C ++ f.B).toNat, f.XN.toNat⟩

/-- The rights in a TLB entry, by the bits that lockdown_print_entry prints. -/
def TlbEntry.rights (t : TlbEntry) : Rights where
  perm := (bitsGet t.pa 1 3).toNat
  domain := (bitsGet t.attr 7 10).toNat
  mem := (texCB (bitsGet t.attr 3 5) (bitsGet t.attr 2 2) (bitsGet t.attr 1 1)).toNat
  xn := (bitsGet t.attr 6 6).toNat

/-- The permission and the domain do not lose a bit in a descriptor. -/
def Fits (e : Pin) : Prop := e.dom < 16 ∧ e.apPerm ≠ permRwUser ∧ e.apPerm ≠ permRoUser

variable {e : Pin}

theorem legal_perm {p : UInt32} (legal : memPermIslegal p = true) :
    p = permRwUser ∨ p = permRoUser ∨ p = permRoPriv ∨ p = permRwPriv ∨ p = permNaPriv := by
  simpa [memPermIslegal, or_assoc] using legal

theorem dom_cases {dom : UInt32} (small : dom ≤ 16) : ∃ d : Fin 17, dom = UInt32.ofNat d := by
  have le := UInt32.le_iff_toNat_le.mp small
  exact ⟨⟨dom.toNat, Nat.lt_succ_of_le le⟩, UInt32.ofNat_toNat.symm⟩

theorem fill_mem (pte : Fld) (pa : UInt32) (e : Pin) :
    ((pte.fill pa e).TEX ++ (pte.fill pa e).C ++ (pte.fill pa e).B).toNat = e.memAttr.bits.toNat := by
  have all : ∀ m : MemAttr, (field 3 (m.bits >>> 2) ++ field 1 ((m.bits >>> 1) &&& 0x1) ++
      field 1 (m.bits &&& 0x1)).toNat = m.bits.toNat := by
    intro m
    cases m <;> decide
  exact all e.memAttr

theorem fill_domain_iff (pte : Fld) (pa : UInt32) (legal : Legal e) :
    (pte.fill pa e).domain.toNat = e.dom.toNat ↔ e.dom < 16 := by
  have all : ∀ d : Fin 17, (field 4 (UInt32.ofNat d)).toNat = (UInt32.ofNat d).toNat ↔
      UInt32.ofNat d < 16 := by decide
  obtain ⟨d, same⟩ := dom_cases legal.dom
  change (field 4 e.dom).toNat = _ ↔ _
  rw [same]
  exact all d

theorem fill_perm_iff (pte : Fld) (pa : UInt32) (legal : Legal e) :
    ((pte.fill pa e).APX ++ (pte.fill pa e).AP).toNat = e.apPerm.toNat ↔
      e.apPerm ≠ permRwUser ∧ e.apPerm ≠ permRoUser := by
  change (field 1 (e.apPerm >>> 2) ++ field 2 (e.apPerm &&& 0x11)).toNat = _ ↔ _
  rcases legal_perm legal.perm with same | same | same | same | same <;>
  · rw [same]
    decide

theorem fill_rights_iff (pte : Fld) (pa : UInt32) (legal : Legal e) :
    (pte.fill pa e).rights = e.rights ↔ Fits e := by
  rw [Fld.rights, Pin.rights, Rights.mk.injEq, fill_perm_iff pte pa legal,
    fill_domain_iff pte pa legal, Fits]
  constructor
  · rintro ⟨perm, dom, _, _⟩
    exact ⟨dom, perm⟩
  · rintro ⟨dom, perm⟩
    exact ⟨perm, dom, fill_mem pte pa e, rfl⟩

theorem pa_word (va : UInt32) {pa : UInt32} (aligned : pa % OneMB = 0) (legal : Legal e) :
    (tlbEntry va pa e).pa.toNat = pa.toNat + (193 + 2 * e.apPerm.toNat) ∧ e.apPerm.toNat < 8 := by
  have word : (tlbEntry va pa e).pa = pa ||| (PAGE_1MB <<< 6 ||| (e.apPerm <<< 1 ||| 0x1)) := by
    change pa ||| (e.pagesize <<< 6) ||| (e.apPerm <<< 1) ||| 0x1 = _
    rw [legal.pagesize, UInt32.or_assoc, UInt32.or_assoc]
  have rest : (PAGE_1MB <<< 6 ||| (e.apPerm <<< 1 ||| 0x1)).toNat = 193 + 2 * e.apPerm.toNat ∧
      e.apPerm.toNat < 8 := by
    rcases legal_perm legal.perm with same | same | same | same | same <;>
    · rw [same]
      decide
  rw [word, or_section aligned (by omega), rest.1]
  exact ⟨rfl, rest.2⟩

theorem entry_perm {va pa : UInt32} (aligned : pa % OneMB = 0) (legal : Legal e) :
    (bitsGet (tlbEntry va pa e).pa 1 3).toNat = e.apPerm.toNat := by
  have low : pa.toNat % 0x100000 = 0 := congrArg UInt32.toNat aligned
  obtain ⟨word, small⟩ := pa_word va aligned legal
  rw [bitsGet_toNat _ (by decide) (by decide), word]
  omega

theorem entry_attr (va pa : UInt32) (legal : Legal e) (small : e.dom < 16) :
    (tlbEntry va pa e).rights =
      { e.rights with perm := (bitsGet (tlbEntry va pa e).pa 1 3).toNat } := by
  have all : ∀ (d : Fin 17) (m : MemAttr), UInt32.ofNat d < 16 →
      (bitsGet (m.bits <<< 1 ||| UInt32.ofNat d <<< 7) 7 10).toNat = (UInt32.ofNat d).toNat ∧
      (texCB (bitsGet (m.bits <<< 1 ||| UInt32.ofNat d <<< 7) 3 5)
        (bitsGet (m.bits <<< 1 ||| UInt32.ofNat d <<< 7) 2 2)
        (bitsGet (m.bits <<< 1 ||| UInt32.ofNat d <<< 7) 1 1)).toNat = m.bits.toNat ∧
      (bitsGet (m.bits <<< 1 ||| UInt32.ofNat d <<< 7) 6 6).toNat = 0 := by
    intro d m
    revert d
    cases m <;> decide
  obtain ⟨d, same⟩ := dom_cases legal.dom
  rw [same] at small
  obtain ⟨domain, mem, xn⟩ := all d e.memAttr small
  rw [TlbEntry.rights, tlbEntry, Pin.rights, same, domain, mem, xn]

end Decoding

section Back

/-- Both back ends give exactly the rights that the attribute asks for. -/
structure RightsKept (e : Pin) : Prop where
  written : ∀ pt va pa, va % OneMB = 0 → pa % OneMB = 0 →
    ∃ pt' i, vmMapSec pt va pa e = some (pt', i) ∧ (pt' i).rights = e.rights
  pinned : ∀ tlb idx va pa, idx < 8 → va % OneMB = 0 → pa % OneMB = 0 →
    ∃ tlb', pinMmuSec tlb idx va pa e = some tlb' ∧
      (tlb'.entries idx.toNat).rights = e.rights

theorem entry_rights {e : Pin} {va pa : UInt32} (aligned : pa % OneMB = 0) (legal : Legal e)
    (small : e.dom < 16) : (tlbEntry va pa e).rights = e.rights := by
  rw [entry_attr va pa legal small, entry_perm aligned legal]
  rfl

end Back

/-- An attribute from pin_mk comes out of both back ends as it went in exactly when its
domain is below 16 and its permission is none of the two for users. -/
theorem rights_kept_iff {G dom asid perm : UInt32} {memAttr : MemAttr} {e : Pin}
    (made : pinMk G dom asid perm memAttr = some e) :
    RightsKept e ↔ dom < 16 ∧ perm ≠ permRwUser ∧ perm ≠ permRoUser := by
  obtain ⟨legal, rfl⟩ := pinMk_legal made
  constructor
  · intro kept
    obtain ⟨pt', i, wrote, same⟩ := kept.written zeroTable 0 0 rfl rfl
    obtain ⟨_, rfl, rfl⟩ := vmMapSec_some.mp wrote
    rw [Function.update_self] at same
    exact (fill_rights_iff _ _ legal).mp same
  · intro fits
    constructor
    · intro pt va pa one two
      refine ⟨_, _, vmMapSec_some.mpr ⟨⟨one, two, legal.pagesize⟩, rfl, rfl⟩, ?_⟩
      rw [Function.update_self]
      exact (fill_rights_iff _ _ legal).mpr fits
    · intro tlb idx va pa small one two
      refine ⟨_, pinMmuSec_some.mpr ⟨⟨small, one, two⟩, rfl⟩, ?_⟩
      change (Function.update tlb.entries idx.toNat _ idx.toNat).rights = _
      rw [Function.update_self]
      exact entry_rights two legal fits.1

theorem user_write_is_lost : ¬ ∀ (G dom asid perm : UInt32) (memAttr : MemAttr) (e : Pin),
    pinMk G dom asid perm memAttr = some e → RightsKept e := by
  intro kept
  have made : pinMk 0 1 1 permRwUser .uncached =
      some ⟨0, 1, 1, PAGE_1MB, permRwUser, .uncached⟩ := by decide
  obtain ⟨pt', i, wrote, same⟩ := (kept _ _ _ _ _ _ made).written zeroTable 0 0 rfl rfl
  obtain ⟨_, rfl, rfl⟩ := vmMapSec_some.mp wrote
  rw [Function.update_self] at same
  exact absurd same (by decide)

theorem kernel_rights_are_kept : RightsKept ⟨1, 0, 1, PAGE_1MB, permRwPriv, .uncached⟩ :=
  (rights_kept_iff (by decide : pinMk 1 1 0 permRwPriv .uncached = some _)).mpr (by decide)

end EmbeddedOS.Vm
