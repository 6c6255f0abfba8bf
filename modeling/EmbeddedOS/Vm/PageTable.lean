import EmbeddedOS.Vm.Attr
import Mathlib.Data.List.Basic
import Mathlib.Algebra.Group.Nat.Defs

/-! The first-level page table of pt-vm.c: sections of one megabyte, mapped, looked up
and translated. -/
namespace EmbeddedOS.Vm

/-- A first level descriptor, from bit 0 on. -/
structure Fld where
  tag : BitVec 2
  B : BitVec 1
  C : BitVec 1
  XN : BitVec 1
  domain : BitVec 4
  IMP : BitVec 1
  AP : BitVec 2
  TEX : BitVec 3
  APX : BitVec 1
  S : BitVec 1
  nG : BitVec 1
  super : BitVec 1
  sbz1 : BitVec 1
  secBaseAddr : BitVec 12
deriving DecidableEq

def Fld.zero : Fld := ⟨0, 0, 0, 0, 0, 0, 0, 0, 0, 0, 0, 0, 0, 0⟩

def field (n : Nat) (x : UInt32) : BitVec n := x.toBitVec.setWidth n

abbrev PageTable := Fin 4096 → Fld

def zeroTable : PageTable := fun _ => .zero

/-- vm_pt_alloc, when kmalloc comes with this address. -/
def vmPtAlloc (address n : UInt32) : Option PageTable := do
  demand (n = 4096)
  demand (address % 0x4000 = 0)
  pure zeroTable

/-- `va >> 20`, which is below PT_LEVEL1_N for every address. -/
def index (va : UInt32) : Fin 4096 := ⟨(va >>> 20).toNat, by
  have size := va.toNat_lt
  rw [UInt32.toNat_shiftRight]
  change va.toNat >>> 20 < 4096
  rw [Nat.shiftRight_eq_div_pow]
  omega⟩

theorem index_val (va : UInt32) : (index va).val = va.toNat / 2 ^ 20 := by
  change (va >>> 20).toNat = _
  rw [UInt32.toNat_shiftRight]
  exact Nat.shiftRight_eq_div_pow _ _

/-- The assignments of vm_map_sec to a descriptor. -/
def Fld.fill (pte : Fld) (pa : UInt32) (attr : Pin) : Fld :=
  { pte with
    tag := 0b10
    B := field 1 (attr.memAttr.bits &&& 0x1)
    C := field 1 ((attr.memAttr.bits >>> 1) &&& 0x1)
    XN := 0b0
    domain := field 4 attr.dom
    IMP := 0b0
    AP := field 2 (attr.apPerm &&& 0x11)
    TEX := field 3 (attr.memAttr.bits >>> 2)
    APX := field 1 (attr.apPerm >>> 2)
    S := 0b0
    nG := field 1 (~~~ attr.G)
    super := 0b0
    secBaseAddr := field 12 (pa >>> 20) }

/-- The table behind the call, and which entry it returns a pointer to. -/
def vmMapSec (pt : PageTable) (va pa : UInt32) (attr : Pin) : Option (PageTable × Fin 4096) := do
  demand (va % OneMB = 0)
  demand (pa % OneMB = 0)
  demand (attr.pagesize = PAGE_1MB)
  pure (Function.update pt (index va) ((pt (index va)).fill pa attr), index va)

def vmLookup (pt : PageTable) (va : UInt32) : Option (Fin 4096) :=
  let pte := pt (index va)
  if pte.tag ≠ 0b10 then none else some (index va)

/-- The entry, and what it stores behind the pointer for the physical address. -/
def vmXlate (pt : PageTable) (va : UInt32) : Option (Fin 4096 × UInt32) := do
  let pte ← vmLookup pt va
  pure (pte, UInt32.ofBitVec ((pt pte).secBaseAddr.setWidth 32) <<< 20)

section Calls

variable {pt pt' : PageTable} {va pa : UInt32} {attr : Pin} {i : Fin 4096}

theorem vmMapSec_some : vmMapSec pt va pa attr = some (pt', i) ↔
    (va % OneMB = 0 ∧ pa % OneMB = 0 ∧ attr.pagesize = PAGE_1MB) ∧
      pt' = Function.update pt (index va) ((pt (index va)).fill pa attr) ∧ i = index va := by
  simp only [vmMapSec, Option.bind_eq_bind, Option.bind_eq_some_iff, demand_eq_some]
  constructor
  · rintro ⟨_, one, _, two, _, three, eq⟩
    cases eq
    exact ⟨⟨one, two, three⟩, rfl, rfl⟩
  · rintro ⟨⟨one, two, three⟩, rfl, rfl⟩
    exact ⟨(), one, (), two, (), three, rfl⟩

theorem vmLookup_index (found : vmLookup pt va = some i) : i = index va := by
  unfold vmLookup at found
  dsimp only at found
  split at found
  · cases found
  · exact (Option.some.inj found).symm

theorem xlate_of_entry (same : pt' (index va) = pt (index va)) :
    vmLookup pt' va = vmLookup pt va ∧ vmXlate pt' va = vmXlate pt va := by
  have lookup : vmLookup pt' va = vmLookup pt va := by rw [vmLookup, vmLookup, same]
  refine ⟨lookup, ?_⟩
  rw [vmXlate, vmXlate, lookup]
  cases found : vmLookup pt va with
  | none => simp only [Option.bind_eq_bind, Option.bind_none]
  | some pte =>
    have place := vmLookup_index found
    simp only [Option.bind_eq_bind, Option.bind_some, place, same]

theorem base_section (aligned : pa % OneMB = 0) (pte : Fld) :
    UInt32.ofBitVec ((pte.fill pa attr).secBaseAddr.setWidth 32) <<< 20 = pa := by
  have size := pa.toNat_lt
  have low : pa.toNat % 0x100000 = 0 := congrArg UInt32.toNat aligned
  rw [← UInt32.toNat_inj]
  simp only [Fld.fill, field, UInt32.toNat_shiftLeft, UInt32.toNat_ofBitVec, BitVec.toNat_setWidth,
    UInt32.toNat_toBitVec, UInt32.toNat_shiftRight, Nat.shiftLeft_eq, Nat.shiftRight_eq_div_pow]
  have twenty : (20 : UInt32).toNat % 32 = 20 := rfl
  rw [twenty]
  omega

end Calls

section Runs

/-- One call of vm_map_sec. -/
structure SecMap where
  va : UInt32
  pa : UInt32
  attr : Pin

/-- The descriptor that the call leaves behind in a table from vm_pt_alloc. -/
def SecMap.pte (m : SecMap) : Fld := Fld.zero.fill m.pa m.attr

def mapAll (pt : PageTable) : List SecMap → Option PageTable
  | [] => some pt
  | m :: calls => (vmMapSec pt m.va m.pa m.attr).bind fun r => mapAll r.1 calls

/-- The last call for this entry. -/
def lastMap (calls : List SecMap) (i : Fin 4096) : Option SecMap :=
  calls.reverse.find? fun m => index m.va = i

variable {pt pt' : PageTable} {calls : List SecMap}

theorem lastMap_cons (m : SecMap) (calls : List SecMap) (i : Fin 4096) :
    lastMap (m :: calls) i = (lastMap calls i).or (if index m.va = i then some m else none) := by
  rw [lastMap, List.reverse_cons, List.find?_append, List.find?_singleton, lastMap]
  simp

theorem lastMap_index {i : Fin 4096} {m : SecMap} (last : lastMap calls i = some m) :
    m ∈ calls ∧ index m.va = i := by
  have found := List.find?_some last
  exact ⟨List.mem_reverse.mp (List.mem_of_find?_eq_some last), of_decide_eq_true found⟩

theorem mapAll_aligned (run : mapAll pt calls = some pt') : ∀ m ∈ calls, m.pa % OneMB = 0 := by
  induction calls generalizing pt with
  | nil => exact fun m member => absurd member List.not_mem_nil
  | cons first calls ih =>
    obtain ⟨⟨mid, i⟩, step, rest⟩ := Option.bind_eq_some_iff.mp run
    intro m member
    rcases List.mem_cons.mp member with rfl | later
    · exact (vmMapSec_some.mp step).1.2.1
    · exact ih rest m later

/-- What a run leaves in an entry: the last mapping of its section, or what was there. -/
theorem mapAll_entry (blank : ∀ i, (pt i).sbz1 = 0) (run : mapAll pt calls = some pt')
    (i : Fin 4096) : pt' i = ((lastMap calls i).map SecMap.pte).getD (pt i) := by
  induction calls generalizing pt with
  | nil =>
    cases run
    rfl
  | cons m calls ih =>
    obtain ⟨⟨mid, j⟩, step, rest⟩ := Option.bind_eq_some_iff.mp run
    obtain ⟨_, rfl, rfl⟩ := vmMapSec_some.mp step
    have filled : (pt (index m.va)).fill m.pa m.attr = m.pte := by
      rw [SecMap.pte, Fld.fill, Fld.fill, blank]
      rfl
    rw [filled] at rest
    have blank' : ∀ i, (Function.update pt (index m.va) m.pte i).sbz1 = 0 := by
      intro i
      rw [Function.update_apply]
      split
      · rfl
      · exact blank i
    rw [ih blank' rest, lastMap_cons, Function.update_apply]
    cases lastMap calls i with
    | some last => rfl
    | none =>
      by_cases here : index m.va = i
      · simp [here]
      · simp [here, Ne.symm here]

/-- What the calls before it make of an address: the last mapping of its section, with
the offset, or nothing; and a call for another section leaves it alone. -/
structure StoreLaw (pt : PageTable) (calls : List SecMap) (va : UInt32) : Prop where
  lookup : vmLookup pt va = (lastMap calls (index va)).map fun _ => index va
  entry : ∀ m, lastMap calls (index va) = some m → pt (index va) = m.pte
  xlate : vmXlate pt va = (lastMap calls (index va)).map fun m => (index va, m.pa + va % OneMB)
  others : ∀ (m : SecMap) pt' i, vmMapSec pt m.va m.pa m.attr = some (pt', i) → index m.va ≠ index va →
    vmLookup pt' va = vmLookup pt va ∧ vmXlate pt' va = vmXlate pt va

theorem lookup_run (run : mapAll zeroTable calls = some pt) (va : UInt32) :
    vmLookup pt va = (lastMap calls (index va)).map fun _ => index va := by
  have entry := mapAll_entry (fun _ => rfl) run (index va)
  rw [vmLookup, entry]
  cases lastMap calls (index va) with
  | none => rfl
  | some m => rfl

theorem xlate_run (run : mapAll zeroTable calls = some pt) (va : UInt32) :
    vmXlate pt va = (lastMap calls (index va)).map fun m => (index va, m.pa) := by
  have entry := mapAll_entry (fun _ => rfl) run (index va)
  rw [vmXlate, lookup_run run]
  cases last : lastMap calls (index va) with
  | none => rfl
  | some m =>
    rw [last] at entry
    have aligned := mapAll_aligned run m (lastMap_index last).1
    change some (index va, _) = some (index va, m.pa)
    rw [entry]
    exact congrArg (fun pa => some (index va, pa)) (base_section aligned .zero)

theorem other_section {m : SecMap} {i : Fin 4096} {va : UInt32}
    (step : vmMapSec pt m.va m.pa m.attr = some (pt', i)) (other : index m.va ≠ index va) :
    vmLookup pt' va = vmLookup pt va ∧ vmXlate pt' va = vmXlate pt va := by
  obtain ⟨_, rfl, rfl⟩ := vmMapSec_some.mp step
  exact xlate_of_entry (Function.update_of_ne (Ne.symm other) _ _)

end Runs

/-- After any calls on a fresh table an address is looked up and translated as the last
mapping of its section says, exactly when it is the start of its section or not mapped. -/
theorem store_law_iff {calls : List SecMap} {pt : PageTable}
    (run : mapAll zeroTable calls = some pt) (va : UInt32) :
    StoreLaw pt calls va ↔ (lastMap calls (index va) ≠ none → va % OneMB = 0) := by
  constructor
  · intro law mapped
    obtain ⟨m, last⟩ := Option.ne_none_iff_exists'.mp mapped
    have same := law.xlate
    rw [xlate_run run, last] at same
    have sum : m.pa = m.pa + va % OneMB := congrArg Prod.snd (Option.some.inj same)
    exact UInt32.left_eq_add.mp sum
  · intro start
    refine ⟨lookup_run run va, ?_, ?_, fun m pt' i => other_section⟩
    · intro m last
      have entry := mapAll_entry (fun _ => rfl) run (index va)
      rwa [last] at entry
    · rw [xlate_run run]
      cases last : lastMap calls (index va) with
      | none => rfl
      | some m =>
        have zero := start (by rw [last]; exact Option.some_ne_none m)
        rw [zero, Option.map_some, Option.map_some, UInt32.add_zero]

def oneCall : SecMap := ⟨0x100000, 0x200000, ⟨1, 0, 1, PAGE_1MB, permRwPriv, .uncached⟩⟩

def oneTable : PageTable := Function.update zeroTable (index 0x100000) oneCall.pte

theorem oneCall_run : mapAll zeroTable [oneCall] = some oneTable := by
  have step : vmMapSec zeroTable oneCall.va oneCall.pa oneCall.attr =
      some (oneTable, index 0x100000) :=
    vmMapSec_some.mpr ⟨⟨by decide, by decide, rfl⟩, rfl, rfl⟩
  rw [mapAll, step]
  rfl

theorem offset_is_dropped : ¬ ∀ (calls : List SecMap) (pt : PageTable),
    mapAll zeroTable calls = some pt → ∀ va, StoreLaw pt calls va := by
  intro law
  have same := (law [oneCall] oneTable oneCall_run 0x100004).xlate
  have last : lastMap [oneCall] (index 0x100004) = some oneCall := by
    simp [lastMap, show index oneCall.va = index 0x100004 by decide]
  rw [xlate_run oneCall_run, last] at same
  have sum : oneCall.pa = oneCall.pa + 0x100004 % OneMB := congrArg Prod.snd (Option.some.inj same)
  exact absurd sum (by decide)

theorem section_start_is_translated : StoreLaw oneTable [oneCall] 0x100000 :=
  (store_law_iff oneCall_run 0x100000).mpr fun _ => by decide

end EmbeddedOS.Vm
