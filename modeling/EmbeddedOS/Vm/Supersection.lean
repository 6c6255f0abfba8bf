import EmbeddedOS.Vm.PageTable
import EmbeddedOS.Vm.Procmap

/-! The page table of the lab with 16MB supersections: sixteen entries for one mapping. -/
namespace EmbeddedOS.Vm.Supersection

def SixteenMB : UInt32 := 1024 * 1024 * 16

def PAGE_16MB : UInt32 := 0b00

/-- The descriptor of this lab's armv6-vm.h, with a base of eight bits. -/
structure Fld where
  tag : BitVec 2
  B : BitVec 1
  C : BitVec 1
  XN : BitVec 1
  domain : BitVec 4
  IMP : BitVec 1
  AP : BitVec 2
  TEX : BitVec 3
  APX : BitVec 1
  S : BitVec 1
  nG : BitVec 1
  super : BitVec 1
  sbz1 : BitVec 1
  sbz2 : BitVec 4
  secBaseAddr : BitVec 8
deriving DecidableEq

def Fld.zero : Fld := ⟨0, 0, 0, 0, 0, 0, 0, 0, 0, 0, 0, 0, 0, 0, 0⟩

abbrev PageTable := Fin 4096 → Fld

def zeroTable : PageTable := fun _ => .zero

/-- pin_mk of this lab's mem-attr.h, which makes 16MB pages. -/
def pinMk (G dom asid perm : UInt32) (memAttr : MemAttr) : Option Pin :=
  (Vm.pinMk G dom asid perm memAttr).map fun e => { e with pagesize := 0b00 }

def pinMkGlobal (dom perm : UInt32) (memAttr : MemAttr) : Option Pin := pinMk 1 dom 0 perm memAttr

def pinMkDevice (dom : UInt32) : Option Pin := pinMk 1 dom 0 permRwPriv .device

def Fld.fill (pte : Fld) (pa : UInt32) (attr : Pin) : Fld :=
  { pte with
    tag := 0b10
    B := field 1 (attr.memAttr.bits &&& 0x1)
    C := field 1 ((attr.memAttr.bits >>> 1) &&& 0x1)
    XN := 0b0
    domain := field 4 attr.dom
    IMP := 0b0
    AP := field 2 (attr.apPerm &&& 0x11)
    TEX := field 3 (attr.memAttr.bits >>> 2)
    APX := field 1 (attr.apPerm >>> 2)
    S := 0b0
    nG := field 1 (~~~ attr.G)
    super := 0b1
    secBaseAddr := field 8 (pa >>> 24) }

def mapLoop (pt : PageTable) (index : Nat) (pa : UInt32) (attr : Pin) : Nat → Option PageTable
  | 0 => some pt
  | rounds + 1 =>
    if small : index < 4096 then
      mapLoop (Function.update pt ⟨index, small⟩ ((pt ⟨index, small⟩).fill pa attr)) (index + 1) pa
        attr rounds
    else none

/-- The table behind the call; the pointer that it returns is that of the first entry of all. -/
def vmMapSec (pt : PageTable) (va pa : UInt32) (attr : Pin) : Option (PageTable × Fin 4096) := do
  demand (va % SixteenMB = 0)
  demand (pa % SixteenMB = 0)
  demand (attr.pagesize = PAGE_16MB)
  let startIndex := (va >>> 20).toNat
  let pt ← mapLoop pt startIndex pa attr 16
  pure (pt, 0)

def vmLookup (pt : PageTable) (va : UInt32) : Option (Fin 4096) :=
  let pte := pt (index va)
  if pte.tag ≠ 0b10 then none else some (index va)

/-- The entry, and what it stores behind the pointer for the physical address. -/
def vmXlate (pt : PageTable) (va : UInt32) : Option (Fin 4096 × UInt32) := do
  let pte ← vmLookup pt va
  pure (pte, UInt32.ofBitVec ((pt pte).secBaseAddr.setWidth 32) <<< 24)

def attrMk (e : PrEnt) : Option Pin :=
  match e.type with
  | .device => pinMkDevice e.dom
  | .rw => pinMkGlobal e.dom permRwPriv .uncached
  | .ro => none

def mapAll (pt : PageTable) : List SecMap → Option PageTable
  | [] => some pt
  | m :: calls => (vmMapSec pt m.va m.pa m.attr).bind fun r => mapAll r.1 calls

def mapEntries (pt : PageTable) : List PrEnt → Option PageTable
  | [] => some pt
  | e :: entries => do
    let attr ← attrMk e
    let (pt, _) ← vmMapSec pt e.addr e.addr attr
    mapEntries pt entries

/-- The address lies in the 16MB from va on. -/
def Inside (va a : UInt32) : Prop := a.toNat / 2 ^ 24 = va.toNat / 2 ^ 24

/-- One mapping, seen at an address: the sixteen entries, the pointer, and the translation. -/
structure SuperMapped (pt : PageTable) (va pa : UInt32) (attr : Pin) (a : UInt32)
    (r : PageTable × Fin 4096) : Prop where
  sixteen : ∀ i j : Fin 4096, (i.val / 16 = (index va).val / 16) →
    (j.val / 16 = (index va).val / 16) → r.1 i = r.1 j ∧ (r.1 i).super = 1 ∧ (r.1 i).tag = 0b10
  others : ∀ i : Fin 4096, i.val / 16 ≠ (index va).val / 16 → r.1 i = pt i
  returned : r.2 = index va
  inside : Inside va a → vmXlate r.1 a = some (index a, pa + a % SixteenMB)
  outside : ¬ Inside va a → vmLookup r.1 a = vmLookup pt a ∧ vmXlate r.1 a = vmXlate pt a

/-- The entry passes the checks of the mapping that vm_map_kernel makes for it. -/
def Accepted (pt : PageTable) (e : PrEnt) : Prop :=
  ∃ attr r, attrMk e = some attr ∧ vmMapSec pt e.addr e.addr attr = some r

section Mapping

variable {pt pt' : PageTable} {va pa a : UInt32} {attr : Pin}

theorem mapLoop_some {n start : Nat} (room : start + n ≤ 4096) :
    mapLoop pt start pa attr n = some fun i =>
      if start ≤ i.val ∧ i.val < start + n then (pt i).fill pa attr else pt i := by
  induction n generalizing pt start with
  | zero =>
    rw [mapLoop]
    refine congrArg some (funext fun i => ?_)
    rw [if_neg (by omega)]
  | succ n ih =>
    have small : start < 4096 := by omega
    rw [mapLoop, dif_pos small, ih (by omega)]
    refine congrArg some (funext fun i => ?_)
    by_cases here : i.val = start
    · have same : i = ⟨start, small⟩ := Fin.ext here
      rw [if_neg (by omega), if_pos (by omega), same, Function.update_self]
    · have other : i ≠ ⟨start, small⟩ := fun same => here (congrArg Fin.val same)
      have range : (start + 1 ≤ i.val ∧ i.val < start + 1 + n) ↔
          (start ≤ i.val ∧ i.val < start + (n + 1)) := by omega
      simp only [range, Function.update_of_ne other]

theorem aligned_nat (aligned : va % SixteenMB = 0) : va.toNat % 2 ^ 24 = 0 :=
  congrArg UInt32.toNat aligned

theorem vmMapSec_eq (one : va % SixteenMB = 0) (two : pa % SixteenMB = 0)
    (size : attr.pagesize = PAGE_16MB) :
    vmMapSec pt va pa attr = some (fun i =>
      if i.val / 16 = (index va).val / 16 then (pt i).fill pa attr else pt i, 0) := by
  have first := aligned_nat one
  have bound := UInt32.toNat_lt va
  have start := index_val va
  have room : (index va).val + 16 ≤ 4096 := by
    rw [start]
    omega
  have loop : mapLoop pt (va >>> 20).toNat pa attr 16 = _ := mapLoop_some room
  rw [vmMapSec, demand, demand, demand, if_pos one, if_pos two, if_pos size]
  simp only [Option.bind_eq_bind, Option.bind_some, loop]
  refine congrArg (fun t => some (t, 0)) (funext fun i => ?_)
  have range : ((index va).val ≤ i.val ∧ i.val < (index va).val + 16) ↔
      i.val / 16 = (index va).val / 16 := by
    rw [start]
    omega
  exact if_congr range rfl rfl

theorem inside_iff : Inside va a ↔ (index a).val / 16 = (index va).val / 16 := by
  rw [Inside, index_val, index_val]
  omega

theorem xlate_of_entry (same : pt' (index a) = pt (index a)) :
    vmLookup pt' a = vmLookup pt a ∧ vmXlate pt' a = vmXlate pt a := by
  have lookup : vmLookup pt' a = vmLookup pt a := by rw [vmLookup, vmLookup, same]
  refine ⟨lookup, ?_⟩
  rw [vmXlate, vmXlate, lookup]
  by_cases mapped : (pt (index a)).tag = 0b10
  · have found : vmLookup pt a = some (index a) := if_neg (fun other => other mapped)
    simp only [found, Option.bind_eq_bind, Option.bind_some, same]
  · have missing : vmLookup pt a = none := if_pos mapped
    simp only [missing, Option.bind_eq_bind, Option.bind_none]

theorem base_supersection (aligned : pa % SixteenMB = 0) (pte : Fld) :
    UInt32.ofBitVec ((pte.fill pa attr).secBaseAddr.setWidth 32) <<< 24 = pa := by
  have size := pa.toNat_lt
  have low := aligned_nat aligned
  rw [← UInt32.toNat_inj]
  simp only [Fld.fill, field, UInt32.toNat_shiftLeft, UInt32.toNat_ofBitVec, BitVec.toNat_setWidth,
    UInt32.toNat_toBitVec, UInt32.toNat_shiftRight, Nat.shiftLeft_eq, Nat.shiftRight_eq_div_pow]
  have twentyfour : (24 : UInt32).toNat % 32 = 24 := rfl
  rw [twentyfour]
  omega

end Mapping

section Runs

variable {pt pt' : PageTable} {va pa a : UInt32} {attr : Pin}

/-- The bits that no assignment writes are 0. -/
def Blank (pt : PageTable) : Prop := ∀ i, (pt i).sbz1 = 0 ∧ (pt i).sbz2 = 0

theorem vmMapSec_some {r : PageTable × Fin 4096} (step : vmMapSec pt va pa attr = some r) :
    va % SixteenMB = 0 ∧ pa % SixteenMB = 0 ∧ attr.pagesize = PAGE_16MB := by
  simp only [vmMapSec, Option.bind_eq_bind, Option.bind_eq_some_iff, demand_eq_some] at step
  obtain ⟨_, one, _, two, _, size, -⟩ := step
  exact ⟨one, two, size⟩

theorem mapAll_blank {calls : List SecMap} (blank : Blank pt) (run : mapAll pt calls = some pt') :
    Blank pt' := by
  induction calls generalizing pt with
  | nil =>
    cases run
    exact blank
  | cons m calls ih =>
    obtain ⟨r, step, rest⟩ := Option.bind_eq_some_iff.mp run
    obtain ⟨one, two, size⟩ := vmMapSec_some step
    rw [vmMapSec_eq one two size] at step
    cases step
    refine ih (fun i => ?_) rest
    dsimp only
    split
    · exact blank i
    · exact blank i

theorem filled_same (blank : Blank pt) (i j : Fin 4096) :
    (pt i).fill pa attr = (pt j).fill pa attr := by
  obtain ⟨one, two⟩ := blank i
  obtain ⟨three, four⟩ := blank j
  rw [Fld.fill, Fld.fill, one, two, three, four]

theorem pinMk_size {G dom asid perm : UInt32} {memAttr : MemAttr}
    (made : pinMk G dom asid perm memAttr = some attr) : attr.pagesize = PAGE_16MB := by
  obtain ⟨e, -, rfl⟩ := Option.map_eq_some_iff.mp made
  rfl

theorem superMapped_iff (blank : Blank pt) (one : va % SixteenMB = 0) (two : pa % SixteenMB = 0)
    (size : attr.pagesize = PAGE_16MB) (a : UInt32) :
    (∃ r, vmMapSec pt va pa attr = some r ∧ SuperMapped pt va pa attr a r) ↔
      va = 0 ∧ (Inside va a → a = va) := by
  have low := aligned_nat one
  have bound := UInt32.toNat_lt va
  have first := index_val va
  have mapped : vmMapSec pt va pa attr = _ := vmMapSec_eq one two size
  have entry (inside : Inside va a) : vmXlate (fun i =>
      if i.val / 16 = (index va).val / 16 then (pt i).fill pa attr else pt i) a =
        some (index a, pa) := by
    have here := inside_iff.mp inside
    have found : vmLookup (fun i =>
        if i.val / 16 = (index va).val / 16 then (pt i).fill pa attr else pt i) a =
          some (index a) := by
      rw [vmLookup, if_pos here]
      rfl
    simp only [vmXlate, found, Option.bind_eq_bind, Option.bind_some, if_pos here]
    exact congrArg (fun base => some (index a, base)) (base_supersection two _)
  constructor
  · rintro ⟨r, step, right⟩
    cases mapped.symm.trans step
    have zero := congrArg Fin.val right.returned
    change 0 = (index va).val at zero
    refine ⟨UInt32.toNat_inj.mp (by change va.toNat = 0; omega), fun inside => ?_⟩
    have same := (entry inside).symm.trans (right.inside inside)
    have sum : pa = pa + a % SixteenMB := congrArg Prod.snd (Option.some.inj same)
    have offset := aligned_nat (UInt32.left_eq_add.mp sum)
    apply UInt32.toNat_inj.mp
    change a.toNat / 2 ^ 24 = va.toNat / 2 ^ 24 at inside
    omega
  · rintro ⟨zero, start⟩
    refine ⟨_, mapped, ⟨fun i j here there => ?_, fun i other => if_neg other, ?_, fun inside => ?_,
      fun outside => ?_⟩⟩
    · dsimp only
      rw [if_pos here, if_pos there]
      exact ⟨filled_same blank i j, rfl, rfl⟩
    · apply Fin.ext
      rw [first, zero]
      rfl
    · have offset : a % SixteenMB = 0 := by rw [start inside, one]
      rw [offset, UInt32.add_zero]
      exact entry inside
    · exact xlate_of_entry (if_neg fun here => outside (inside_iff.mpr here))

end Runs

section Kernel

theorem attrMk_size {e : PrEnt} (small : e.dom ≤ 16) (type : e.type ≠ .ro) :
    ∃ attr, attrMk e = some attr ∧ attr.pagesize = PAGE_16MB := by
  unfold attrMk
  cases kind : e.type with
  | device =>
    exact ⟨_, by simp [pinMkDevice, pinMk, Vm.pinMk, demand, small, memPermIslegal, permRwPriv]; rfl,
      rfl⟩
  | rw =>
    exact ⟨_, by simp [pinMkGlobal, pinMk, Vm.pinMk, demand, small, memPermIslegal, permRwPriv]; rfl,
      rfl⟩
  | ro => exact absurd kind type

theorem accepted_iff {pt : PageTable} {e : PrEnt} (small : e.dom ≤ 16) (type : e.type ≠ .ro) :
    Accepted pt e ↔ e.addr % SixteenMB = 0 := by
  obtain ⟨attr, made, size⟩ := attrMk_size small type
  constructor
  · rintro ⟨attr', r, -, step⟩
    exact (vmMapSec_some step).1
  · intro aligned
    exact ⟨attr, _, made, vmMapSec_eq aligned aligned size⟩

theorem default_aligned {e : PrEnt} {dom : UInt32} (member : e ∈ defaultMap dom) :
    e.dom = dom ∧ e.type ≠ .ro ∧ (e.addr % SixteenMB = 0 ↔ e.addr = 0x20000000 ∨ e.addr = 0) := by
  simp only [defaultMap, List.mem_cons, List.not_mem_nil, or_false] at member
  rcases member with rfl | rfl | rfl | rfl | rfl | rfl | rfl <;>
  · refine ⟨rfl, nofun, ?_⟩
    dsimp only
    decide

theorem mapEntries_aligned {pt pt' : PageTable} {entries : List PrEnt}
    (mapped : mapEntries pt entries = some pt') : ∀ e ∈ entries, e.addr % SixteenMB = 0 := by
  induction entries generalizing pt with
  | nil => nofun
  | cons first entries ih =>
    simp only [mapEntries, Option.bind_eq_bind, Option.bind_eq_some_iff] at mapped
    obtain ⟨attr, -, r, step, rest⟩ := mapped
    intro e member
    rcases List.mem_cons.mp member with rfl | later
    · exact (vmMapSec_some step).1
    · exact ih rest e later

/-- vm_map_kernel panics on its own default map. -/
theorem kernel_never_mapped {progEnd heapStart heapEnd dom : UInt32} {p : Procmap}
    (made : procmapDefaultMk progEnd heapStart heapEnd dom = some p) (pt : PageTable) :
    mapEntries pt p.map = none := by
  rw [default_map made]
  apply Option.eq_none_iff_forall_ne_some.mpr
  intro pt' mapped
  have aligned := mapEntries_aligned mapped ⟨0x20100000, OneMB, .device, dom⟩ (by simp [defaultMap])
  exact absurd aligned (by decide : ¬ (0x20100000 : UInt32) % SixteenMB = 0)

end Kernel

/-- On a table from vm_pt_alloc and any calls: a mapping is right at an address exactly when it is
that of address 0 and the address, if it is inside, the first; and of the entries of the default map
just those two are accepted. -/
theorem supersection_iff {calls : List SecMap} {pt : PageTable}
    (run : mapAll zeroTable calls = some pt) {G dom asid perm : UInt32} {memAttr : MemAttr}
    {attr : Pin} (made : pinMk G dom asid perm memAttr = some attr) {va pa : UInt32}
    (one : va % SixteenMB = 0) (two : pa % SixteenMB = 0) (a : UInt32)
    {progEnd heapStart heapEnd kernDom : UInt32} {p : Procmap}
    (kernel : procmapDefaultMk progEnd heapStart heapEnd kernDom = some p) {e : PrEnt}
    (member : e ∈ p.map) :
    ((∃ r, vmMapSec pt va pa attr = some r ∧ SuperMapped pt va pa attr a r) ↔
      va = 0 ∧ (Inside va a → a = va)) ∧
    (Accepted pt e ↔ e.addr = 0x20000000 ∨ e.addr = 0) := by
  have blank := mapAll_blank (fun _ => ⟨rfl, rfl⟩) run
  rw [default_map kernel] at member
  obtain ⟨same, type, aligned⟩ := default_aligned member
  have small : e.dom ≤ 16 := by
    rw [same]
    exact default_dom kernel
  exact ⟨superMapped_iff blank one two (pinMk_size made) a, (accepted_iff small type).trans aligned⟩

def oneCall : SecMap := ⟨0, 0, ⟨1, 0, 1, 0b00, permRwPriv, .uncached⟩⟩

theorem first_address_is_translated :
    (∃ r, vmMapSec zeroTable 0 0 oneCall.attr = some r ∧ SuperMapped zeroTable 0 0 oneCall.attr 0 r) ∧
      Accepted zeroTable ⟨0, OneMB, .rw, 1⟩ := by
  have kernel : procmapDefaultMk 0x10000 0x100000 0x200000 1 = some ⟨2, defaultMap 1⟩ := by decide
  have run : mapAll zeroTable [] = some zeroTable := rfl
  obtain ⟨mapped, accepted⟩ := supersection_iff run
    (by decide : pinMk 1 1 0 permRwPriv .uncached = some oneCall.attr) (rfl : (0 : UInt32) % SixteenMB = 0)
    (rfl : (0 : UInt32) % SixteenMB = 0) 0 kernel (e := ⟨0, OneMB, .rw, 1⟩) (by decide)
  exact ⟨mapped.mpr ⟨rfl, fun _ => rfl⟩, accepted.mpr (Or.inr rfl)⟩

/-- Behind the mapping of 16MB at 0x1000000 the address 0x1000004 comes out as 0x2000000, the pointer
is that of entry 0, and the device memory at 0x20100000 is refused. -/
theorem offset_and_entry_lost :
    (∀ r, vmMapSec zeroTable 0x1000000 0x2000000 oneCall.attr = some r →
      ¬ SuperMapped zeroTable 0x1000000 0x2000000 oneCall.attr 0x1000004 r) ∧
      ¬ Accepted zeroTable ⟨0x20100000, OneMB, .device, 1⟩ := by
  constructor
  · intro r step right
    have both := (superMapped_iff (fun _ => ⟨rfl, rfl⟩) rfl rfl rfl 0x1000004).mp ⟨r, step, right⟩
    exact absurd both.1 (by decide)
  · intro accepted
    exact absurd ((accepted_iff (by decide) (by decide)).mp accepted) (by decide)

end EmbeddedOS.Vm.Supersection
