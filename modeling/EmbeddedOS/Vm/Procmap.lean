import EmbeddedOS.Bits.Field
import EmbeddedOS.Vm.Pinned

/-! The map of an address space that procmap.h keeps, and the domains that it uses. -/
namespace EmbeddedOS.Vm
open Bits

inductive MemType where
  | device
  | rw
  | ro
deriving DecidableEq

structure PrEnt where
  addr : UInt32
  nbytes : UInt32
  type : MemType
  dom : UInt32
deriving DecidableEq

def PrEnt.Contains (e : PrEnt) (va : UInt32) : Prop :=
  e.addr.toNat ≤ va.toNat ∧ va.toNat < e.addr.toNat + e.nbytes.toNat

instance (va : UInt32) : DecidablePred fun e : PrEnt => e.Contains va :=
  fun _ => inferInstanceAs (Decidable (_ ∧ _))

/-- The entries up to n; an array of MAX_ENT in the source. -/
structure Procmap where
  domIds : UInt32
  map : List PrEnt
deriving DecidableEq

def MAX_ENT : Nat := 8

def Procmap.empty : Procmap := ⟨0, []⟩

def procmapPush (p : Procmap) (e : PrEnt) : Option Procmap := do
  demand (p.map.length < MAX_ENT)
  demand (e.dom < 16)
  pure ⟨p.domIds ||| (1 <<< e.dom), p.map ++ [e]⟩

def pushAll (p : Procmap) : List PrEnt → Option Procmap
  | [] => some p
  | e :: entries => (procmapPush p e).bind fun p => pushAll p entries

def DOM_CLIENT : UInt32 := 0b01

/-- The loop of dom_perm, after n rounds. -/
def domMask (doms perm : UInt32) : Nat → UInt32
  | 0 => 0
  | i + 1 =>
    let mask := domMask doms perm i
    if doms &&& (1 <<< UInt32.ofNat i) ≠ 0 then mask ||| (perm <<< UInt32.ofNat (i * 2)) else mask

def domPerm (doms perm : UInt32) : Option UInt32 := do
  demand (doms ≠ 0)
  demand (doms >>> 16 = 0)
  demand (perm ≤ 0b11)
  pure (domMask doms perm 16)

def prEntMk (addr nbytes : UInt32) (type : MemType) (dom : UInt32) : Option PrEnt := do
  demand (nbytes = OneMB)
  demand (dom < 16)
  pure ⟨addr, nbytes, type, dom⟩

def STACK_ADDR : UInt32 := 0x8000000
def INT_STACK_ADDR : UInt32 := 0x9000000

/-- One line of procmap_default_mk: a section of this type. -/
def pushSection (p : Procmap) (addr : UInt32) (type : MemType) (dom : UInt32) : Option Procmap := do
  let e ← prEntMk addr OneMB type dom
  procmapPush p e

/-- The map of the kernel, where the program and the heap end as the linker and kmalloc say. -/
def procmapDefaultMk (progEnd heapStart heapEnd dom : UInt32) : Option Procmap := do
  let p ← pushSection .empty 0x20000000 .device dom
  let p ← pushSection p 0x20100000 .device dom
  let p ← pushSection p 0x20200000 .device dom
  demand (progEnd ≤ OneMB)
  let p ← pushSection p 0x00000000 .rw dom
  demand (heapStart = OneMB)
  demand (heapEnd - heapStart = OneMB)
  let p ← pushSection p 0x00100000 .rw dom
  let p ← pushSection p (INT_STACK_ADDR - OneMB) .rw dom
  pushSection p (STACK_ADDR - OneMB) .rw dom

def defaultMap (dom : UInt32) : List PrEnt :=
  [⟨0x20000000, OneMB, .device, dom⟩, ⟨0x20100000, OneMB, .device, dom⟩,
    ⟨0x20200000, OneMB, .device, dom⟩, ⟨0x00000000, OneMB, .rw, dom⟩,
    ⟨0x00100000, OneMB, .rw, dom⟩, ⟨0x08f00000, OneMB, .rw, dom⟩, ⟨0x07f00000, OneMB, .rw, dom⟩]

section Pushes

/-- A bit is set exactly for the domains in use. -/
def Procmap.Tracks (p : Procmap) : Prop :=
  ∀ j, p.domIds.toNat.testBit j = true ↔ ∃ e ∈ p.map, e.dom.toNat = j

variable {p p' : Procmap} {e : PrEnt} {entries : List PrEnt}

theorem bit_toNat {d : UInt32} (small : d < 16) : (1 <<< d : UInt32).toNat = 2 ^ d.toNat := by
  have bound : d.toNat < 16 := small
  rw [UInt32.toNat_shiftLeft, Nat.mod_eq_of_lt (by omega : d.toNat < 32)]
  change 1 <<< d.toNat % 2 ^ 32 = _
  rw [Nat.one_shiftLeft]
  exact Nat.mod_eq_of_lt (Nat.pow_lt_pow_right (by decide) (by omega))

theorem push_tracks (push : procmapPush p e = some p') (tracks : p.Tracks) :
    p'.Tracks ∧ e.dom < 16 ∧ p.map.length < MAX_ENT ∧ p'.map = p.map ++ [e] := by
  simp only [procmapPush, Option.bind_eq_bind, Option.bind_eq_some_iff, demand_eq_some] at push
  obtain ⟨_, room, _, small, eq⟩ := push
  cases eq
  refine ⟨fun j => ?_, small, room, rfl⟩
  change (p.domIds ||| (1 <<< e.dom)).toNat.testBit j = true ↔ _
  rw [UInt32.toNat_or, bit_toNat small, Nat.testBit_or, Bool.or_eq_true, tracks j,
    Nat.testBit_two_pow, decide_eq_true_eq]
  simp [or_and_right, exists_or]

theorem pushAll_tracks (built : pushAll p entries = some p') (tracks : p.Tracks) :
    p'.Tracks ∧ p'.map = p.map ++ entries ∧ (∀ e ∈ entries, e.dom < 16) ∧
      (p.map.length ≤ MAX_ENT → p'.map.length ≤ MAX_ENT) := by
  induction entries generalizing p with
  | nil =>
    cases built
    exact ⟨tracks, (List.append_nil _).symm, by simp, id⟩
  | cons e entries ih =>
    obtain ⟨mid, push, rest⟩ := Option.bind_eq_some_iff.mp built
    obtain ⟨tracks', small, room, map⟩ := push_tracks push tracks
    obtain ⟨all, order, smalls, length⟩ := ih rest tracks'
    refine ⟨all, ?_, ?_, fun _ => length ?_⟩
    · rw [order, map, List.append_assoc]
      rfl
    · intro f member
      rcases List.mem_cons.mp member with rfl | later
      · exact small
      · exact smalls f later
    · rw [map, List.length_append]
      exact room

theorem pushSection_some {addr dom : UInt32} {type : MemType}
    (push : pushSection p addr type dom = some p') : p'.map = p.map ++ [⟨addr, OneMB, type, dom⟩] := by
  simp only [pushSection, prEntMk, procmapPush, Option.bind_eq_bind, Option.bind_eq_some_iff,
    demand_eq_some] at push
  obtain ⟨e, ⟨_, _, _, _, made⟩, _, _, _, _, eq⟩ := push
  cases made
  cases eq
  rfl

theorem default_map {progEnd heapStart heapEnd dom : UInt32}
    (made : procmapDefaultMk progEnd heapStart heapEnd dom = some p) : p.map = defaultMap dom := by
  simp only [procmapDefaultMk, Option.bind_eq_bind, Option.bind_eq_some_iff] at made
  obtain ⟨p1, one, p2, two, p3, three, _, _, p4, four, _, _, _, _, p5, five, p6, six, last⟩ := made
  rw [pushSection_some last, pushSection_some six, pushSection_some five, pushSection_some four,
    pushSection_some three, pushSection_some two, pushSection_some one]
  rfl

theorem default_dom {progEnd heapStart heapEnd dom : UInt32}
    (made : procmapDefaultMk progEnd heapStart heapEnd dom = some p) : dom ≤ 16 := by
  simp only [procmapDefaultMk, pushSection, prEntMk, Option.bind_eq_bind, Option.bind_eq_some_iff,
    demand_eq_some] at made
  obtain ⟨_, ⟨_, ⟨_, _, _, small, _⟩, _⟩, _⟩ := made
  exact UInt32.le_of_lt small

theorem empty_tracks : Procmap.empty.Tracks := by
  intro j
  simp [Procmap.empty]

end Pushes

section Domains

variable {doms d : UInt32}

theorem in_use_iff {i : Nat} (small : i < 16) :
    doms &&& (1 <<< UInt32.ofNat i) ≠ 0 ↔ doms.toNat.testBit i = true := by
  have same : (UInt32.ofNat i).toNat = i :=
    UInt32.toNat_ofNat_of_lt' (Nat.lt_trans (by omega : _ < 32) (by decide))
  have bit : (1 <<< UInt32.ofNat i : UInt32).toNat = 2 ^ i := by
    rw [bit_toNat (UInt32.lt_iff_toNat_lt.mpr (by rw [same]; exact small)), same]
  rw [Ne, ← UInt32.toNat_inj, UInt32.toNat_and, bit, Nat.and_two_pow]
  have positive : 0 < 2 ^ i := Nat.two_pow_pos i
  change ¬ _ * 2 ^ i = 0 ↔ _
  cases doms.toNat.testBit i <;> simp

/-- After n rounds the pairs of bits up to 2n are those of the domains. -/
theorem domMask_testBit {perm : UInt32} (legal : perm.toNat < 2 ^ 2) {n : Nat} (le : n ≤ 16)
    (k : Nat) : (domMask doms perm n).toNat.testBit k =
      (decide (k / 2 < n) && doms.toNat.testBit (k / 2) && perm.toNat.testBit (k % 2)) := by
  induction n with
  | zero => simp [domMask]
  | succ i ih =>
    have even : (UInt32.ofNat (i * 2)).toNat = i * 2 :=
      UInt32.toNat_ofNat_of_lt' (Nat.lt_trans (by omega : _ < 32) (by decide))
    have pair := shifted_testBit (s := UInt32.ofNat (i * 2)) legal (by omega) (by decide) k
    rw [even] at pair
    rw [domMask]
    split
    next used =>
      have set := (in_use_iff (by omega)).mp used
      rw [UInt32.toNat_or, Nat.testBit_or, ih (by omega), pair]
      by_cases below : k / 2 < i
      · have low : ¬ i * 2 ≤ k := by omega
        simp [below, low, Nat.lt_succ_of_lt below]
      · by_cases here : k / 2 = i
        · have low : i * 2 ≤ k := by omega
          have offset : k - i * 2 = k % 2 := by omega
          simp [here, low, offset, set]
        · have high : perm.toNat.testBit (k - i * 2) = false ∨ ¬ i * 2 ≤ k := by
            by_cases low : i * 2 ≤ k
            · refine Or.inl (Nat.testBit_lt_two_pow (Nat.lt_of_lt_of_le legal ?_))
              exact Nat.pow_le_pow_right (by decide) (by omega)
            · exact Or.inr low
          have beyond : ¬ k / 2 < i + 1 := by omega
          rcases high with zero | low
          · simp [below, beyond, zero]
          · simp [below, beyond, low]
    next unused =>
      have clear : ¬ doms.toNat.testBit i = true := fun set => unused ((in_use_iff (by omega)).mpr set)
      rw [ih (by omega)]
      by_cases here : k / 2 = i
      · simp [here, clear]
      · have other : k / 2 < i + 1 ↔ k / 2 < i := by omega
        simp [other]

theorem domPerm_field {perm : UInt32} (mask : domPerm doms perm = some d) {i : Nat} (small : i < 16) :
    bitsGet d (2 * i) (2 * i + 1) = if doms.toNat.testBit i = true then perm else 0 := by
  simp only [domPerm, Option.bind_eq_bind, Option.bind_eq_some_iff, demand_eq_some] at mask
  obtain ⟨_, _, _, _, _, legal, eq⟩ := mask
  cases eq
  have bound : perm.toNat < 2 ^ 2 := Nat.lt_succ_of_le (UInt32.le_iff_toNat_le.mp legal)
  have two : 2 * i + 1 - 2 * i + 1 = 2 := by omega
  rw [← UInt32.toNat_inj, bitsGet_toNat _ (by omega) (by omega), two]
  refine (field_of_testBit (v := if doms.toNat.testBit i = true then perm.toNat else 0)
    ?_ fun k low high => ?_).trans ?_
  · split
    · exact bound
    · decide
  · have half : k / 2 = i := by omega
    have offset : k - 2 * i = k % 2 := by omega
    rw [domMask_testBit bound (Nat.le_refl 16), half, offset]
    cases doms.toNat.testBit i <;> simp [small]
  · cases doms.toNat.testBit i <;> rfl

theorem domPerm_client (mask : domPerm doms DOM_CLIENT = some d) {i : Nat} (small : i < 16)
    (used : doms.toNat.testBit i = true) : bitsGet d (2 * i) (2 * i + 1) = DOM_CLIENT := by
  rw [domPerm_field mask small, if_pos used]

/-- Behind some push the bitvector of the domains is not 0 and has no bits above the domains. -/
theorem tracked_doms {p : Procmap} (tracks : p.Tracks) (some_entry : p.map ≠ [])
    (smalls : ∀ e ∈ p.map, e.dom < 16) : p.domIds ≠ 0 ∧ p.domIds >>> 16 = 0 := by
  obtain ⟨e, member⟩ := List.exists_mem_of_ne_nil _ some_entry
  constructor
  · intro zero
    have set := (tracks e.dom.toNat).mpr ⟨e, member, rfl⟩
    rw [zero] at set
    simp at set
  · have bound : p.domIds.toNat < 2 ^ 16 := by
      apply Nat.lt_pow_two_of_testBit
      intro j large
      by_contra set
      obtain ⟨f, inside, same⟩ := (tracks j).mp (by simpa using set)
      have small : f.dom.toNat < 16 := smalls f inside
      omega
    rw [← UInt32.toNat_inj, UInt32.toNat_shiftRight]
    change p.domIds.toNat >>> 16 = 0
    rw [Nat.shiftRight_eq_div_pow]
    exact Nat.div_eq_of_lt bound

theorem domPerm_some {p : Procmap} (tracks : p.Tracks) (some_entry : p.map ≠ [])
    (smalls : ∀ e ∈ p.map, e.dom < 16) :
    domPerm p.domIds DOM_CLIENT = some (domMask p.domIds DOM_CLIENT 16) := by
  obtain ⟨nonzero, high⟩ := tracked_doms tracks some_entry smalls
  simp [domPerm, nonzero, high, demand, DOM_CLIENT]

end Domains

end EmbeddedOS.Vm
