import EmbeddedOS.Bits.Field
import EmbeddedOS.Vm.Pinned

/-! The lockdown words that pin_mmu_sec writes, read back by lockdown_print_entry. -/
namespace EmbeddedOS.Vm
open Bits

def bitIsOn (x : UInt32) (bit : Nat) : UInt32 := (x >>> UInt32.ofNat bit) &&& 1

/-- What lockdown_print_entry prints of a valid entry. -/
structure Lockdown where
  va : UInt32
  G : UInt32
  asid : UInt32
  pa : UInt32
  nsa : UInt32
  nstid : UInt32
  size : UInt32
  apx : UInt32
  v : UInt32
  dom : UInt32
  xn : UInt32
  tex : UInt32
  C : UInt32
  B : UInt32
deriving DecidableEq

def Lockdown.ofWords (vaEnt paEnt attr : UInt32) : Lockdown where
  va := bitsGet vaEnt 12 31
  G := bitIsOn vaEnt 9
  asid := bitsGet vaEnt 0 7
  pa := bitsGet paEnt 12 31
  nsa := bitIsOn paEnt 9
  nstid := bitIsOn paEnt 8
  size := bitsGet paEnt 6 7
  apx := bitsGet paEnt 1 3
  v := bitIsOn paEnt 0
  dom := bitsGet attr 7 10
  xn := bitIsOn attr 6
  tex := bitsGet attr 3 5
  C := bitIsOn attr 2
  B := bitIsOn attr 1

def lockdownPrintEntry (tlb : Tlb) (idx : UInt32) : Tlb × Option Lockdown :=
  let tlb := lockdownIndexSet tlb idx
  let vaEnt := lockdownVaGet tlb
  let paEnt := lockdownPaGet tlb
  if bitIsOn paEnt 0 = 0 then (tlb, none)
  else (tlb, some (Lockdown.ofWords vaEnt paEnt (lockdownAttrGet tlb)))

/-- The printed fields are those of the mapping, and the bits beside them are 0. -/
structure Lockdown.Shows (d : Lockdown) (va pa : UInt32) (e : Pin) : Prop where
  va : d.va <<< 12 = va
  pa : d.pa <<< 12 = pa
  G : d.G = e.G
  asid : d.asid = e.asid
  size : d.size = e.pagesize
  perm : d.apx = e.apPerm
  dom : d.dom = e.dom
  mem : texCB d.tex d.C d.B = e.memAttr.bits
  rest : d.v = 1 ∧ d.nsa = 0 ∧ d.nstid = 0 ∧ d.xn = 0

section Words

variable {e : Pin} {va pa : UInt32}

theorem bits_back {x y : UInt32} {lb ub : Nat} (le : lb ≤ ub) (small : ub < 32)
    (same : x.toNat / 2 ^ lb % 2 ^ (ub - lb + 1) = y.toNat) : bitsGet x lb ub = y := by
  rw [← UInt32.toNat_inj, bitsGet_toNat x le small, same]

theorem bits_lt (x : UInt32) {lb ub : Nat} (le : lb ≤ ub) (small : ub < 32) :
    (bitsGet x lb ub).toNat < 2 ^ (ub - lb + 1) := by
  rw [bitsGet_toNat x le small]
  exact field_lt x.toNat lb _

theorem bitIsOn_eq (x : UInt32) (bit : Nat) : bitIsOn x bit = bitsGet x bit bit := by
  rw [bitsGet, Nat.sub_self]
  rfl

theorem bit_lt (x : UInt32) {bit : Nat} (small : bit < 32) : (bitIsOn x bit).toNat < 2 := by
  have less := bits_lt x le_rfl small
  rw [Nat.sub_self] at less
  rw [bitIsOn_eq]
  exact less

theorem bit_back {x y : UInt32} {bit : Nat} (small : bit < 32)
    (same : x.toNat / 2 ^ bit % 2 = y.toNat) : bitIsOn x bit = y := by
  rw [bitIsOn_eq]
  refine bits_back le_rfl small ?_
  rw [Nat.sub_self]
  exact same

theorem address_back {x y : UInt32} {low : Nat} (aligned : y % OneMB = 0) (small : low < 2 ^ 12)
    (word : x.toNat = y.toNat + low) : bitsGet x 12 31 <<< 12 = y := by
  have whole : y.toNat % 0x100000 = 0 := congrArg UInt32.toNat aligned
  have bound := y.toNat_lt
  rw [← UInt32.toNat_inj, UInt32.toNat_shiftLeft, bitsGet_toNat x (by decide) (by decide), word]
  change ((y.toNat + low) / 2 ^ 12 % 2 ^ 20) <<< 12 % 2 ^ 32 = _
  rw [Nat.shiftLeft_eq]
  omega

theorem va_word (pa : UInt32) (aligned : va % OneMB = 0) (legal : Legal e) (small : e.G ≤ 1) :
    (tlbEntry va pa e).va.toNat = va.toNat + (e.G.toNat * 512 + e.asid.toNat) := by
  have asid : e.asid.toNat < 64 := legal.asid
  have bit : e.G.toNat ≤ 1 := UInt32.le_iff_toNat_le.mp small
  have shifted : (e.G <<< 9).toNat = e.G.toNat * 2 ^ 9 := by
    rw [UInt32.toNat_shiftLeft]
    change e.G.toNat <<< 9 % 2 ^ 32 = _
    rw [Nat.shiftLeft_eq]
    omega
  have low : (e.G <<< 9 ||| e.asid).toNat = e.G.toNat * 512 + e.asid.toNat := by
    rw [UInt32.toNat_or, shifted, Nat.mul_comm]
    exact (Nat.two_pow_add_eq_or_of_lt (by omega) e.G.toNat).symm.trans (by omega)
  change (va ||| (e.G <<< 9) ||| e.asid).toNat = _
  rw [UInt32.or_assoc, or_section aligned (by omega), low]

theorem attr_word (va pa : UInt32) (legal : Legal e) (small : e.dom < 16) :
    bitsGet (tlbEntry va pa e).attr 7 10 = e.dom ∧
      texCB (bitsGet (tlbEntry va pa e).attr 3 5) (bitIsOn (tlbEntry va pa e).attr 2)
        (bitIsOn (tlbEntry va pa e).attr 1) = e.memAttr.bits ∧
      bitIsOn (tlbEntry va pa e).attr 6 = 0 := by
  have kept := entry_attr va pa legal small
  rw [TlbEntry.rights, Pin.rights, Rights.mk.injEq] at kept
  obtain ⟨_, dom, mem, xn⟩ := kept
  exact ⟨UInt32.toNat_inj.mp dom, UInt32.toNat_inj.mp mem, UInt32.toNat_inj.mp xn⟩

theorem words_show (one : va % OneMB = 0) (two : pa % OneMB = 0) (legal : Legal e)
    (dom : e.dom < 16) (small : e.G ≤ 1) :
    (Lockdown.ofWords (tlbEntry va pa e).va (tlbEntry va pa e).pa
      (tlbEntry va pa e).attr).Shows va pa e := by
  have asid : e.asid.toNat < 64 := legal.asid
  have global : e.G.toNat ≤ 1 := UInt32.le_iff_toNat_le.mp small
  have virtual_whole : va.toNat % 0x100000 = 0 := congrArg UInt32.toNat one
  have physical_whole : pa.toNat % 0x100000 = 0 := congrArg UInt32.toNat two
  have virtual_word := va_word pa one legal small
  obtain ⟨physical_word, perm⟩ := pa_word va two legal
  obtain ⟨domain, mem, never⟩ := attr_word va pa legal dom
  constructor
  case va => exact address_back one (by omega) virtual_word
  case pa => exact address_back two (by omega) physical_word
  case G => exact bit_back (by decide) (by omega)
  case asid => exact bits_back (by decide) (by decide) (by omega)
  case size =>
    refine bits_back (by decide) (by decide) ?_
    rw [legal.pagesize]
    change _ = 3
    omega
  case perm => exact bits_back (by decide) (by decide) (by omega)
  case dom => exact domain
  case mem => exact mem
  case rest =>
    refine ⟨bit_back (by decide) ?_, bit_back (by decide) ?_, bit_back (by decide) ?_, never⟩
    · change _ = 1
      omega
    · change _ = 0
      omega
    · change _ = 0
      omega

end Words

/-- What pin_mmu_sec writes for the mapping is printed as the mapping. -/
def ReadBack (tlb : Tlb) (idx va pa : UInt32) (e : Pin) : Prop :=
  ∃ tlb' d, pinMmuSec tlb idx va pa e = some tlb' ∧
    (lockdownPrintEntry tlb' idx).2 = some d ∧ d.Shows va pa e

theorem printed (tlb : Tlb) (idx : UInt32) (t : TlbEntry) :
    (lockdownPrintEntry ⟨idx, Function.update tlb.entries idx.toNat t⟩ idx).2 =
      if bitIsOn t.pa 0 = 0 then none else some (Lockdown.ofWords t.va t.pa t.attr) := by
  have same : (lockdownIndexSet ⟨idx, Function.update tlb.entries idx.toNat t⟩ idx).get = t :=
    Function.update_self ..
  rw [lockdownPrintEntry, lockdownPaGet, lockdownVaGet, lockdownAttrGet, same]
  exact apply_ite Prod.snd _ _ _

/-- A mapping comes back from the lockdown registers exactly when its domain has four bits and
its global flag has one. -/
theorem read_back_iff {G dom asid perm idx va pa : UInt32} {memAttr : MemAttr} {e : Pin}
    (tlb : Tlb) (made : pinMk G dom asid perm memAttr = some e) (small : idx < 8)
    (one : va % OneMB = 0) (two : pa % OneMB = 0) :
    ReadBack tlb idx va pa e ↔ dom < 16 ∧ G ≤ 1 := by
  obtain ⟨legal, rfl⟩ := pinMk_legal made
  constructor
  · rintro ⟨_, d, wrote, shown, shows⟩
    obtain ⟨_, rfl⟩ := pinMmuSec_some.mp wrote
    rw [printed] at shown
    split at shown
    · cases shown
    · cases shown
      have domain : dom = _ := shows.dom.symm
      have global : G = _ := shows.G.symm
      rw [UInt32.lt_iff_toNat_lt, UInt32.le_iff_toNat_le, domain, global]
      exact ⟨bits_lt _ (by decide) (by decide), Nat.le_of_lt_succ (bit_lt _ (by decide))⟩
  · rintro ⟨domain, global⟩
    have shows := words_show one two legal domain global
    refine ⟨_, _, pinMmuSec_some.mpr ⟨⟨small, one, two⟩, rfl⟩, ?_, shows⟩
    have valid := shows.rest.1
    rw [printed, if_neg]
    intro zero
    exact absurd (valid.symm.trans zero) (by decide)

theorem private_section_reads_back : ReadBack ⟨0, fun _ => ⟨0, 0, 0⟩⟩ 0 0x100000 0x200000
    ⟨0, 1, 1, PAGE_1MB, permRwPriv, .uncached⟩ :=
  (read_back_iff _ (by decide : pinMk 0 1 1 permRwPriv .uncached = some _) (by decide)
    (by decide) (by decide)).mpr (by decide)

theorem largest_domain_is_lost : ¬ ∀ (G dom asid perm idx va pa : UInt32) (memAttr : MemAttr)
    (e : Pin) (tlb : Tlb), pinMk G dom asid perm memAttr = some e → idx < 8 →
    va % OneMB = 0 → pa % OneMB = 0 → ReadBack tlb idx va pa e := by
  intro back
  have made : pinMk 0 16 1 permRwPriv .uncached =
      some ⟨0, 1, 16, PAGE_1MB, permRwPriv, .uncached⟩ := by decide
  obtain ⟨_, d, wrote, shown, shows⟩ :=
    back _ _ _ _ 0 0 0 _ _ ⟨0, fun _ => ⟨0, 0, 0⟩⟩ made (by decide) (by decide) (by decide)
  obtain ⟨_, rfl⟩ := pinMmuSec_some.mp wrote
  rw [printed, if_neg (by decide)] at shown
  cases shown
  exact absurd shows.dom (by decide)

end EmbeddedOS.Vm
