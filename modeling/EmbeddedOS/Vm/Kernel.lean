import EmbeddedOS.Vm.Procmap
import Mathlib.Data.List.Pairwise

/-! The kernel's address space, twice: as the page table that vm_map_kernel builds, and
as the TLB entries that procmap_pin_on pins. -/
namespace EmbeddedOS.Vm

section Hardware

/-- What becomes of an address: a fault, a physical address with the rights on it, or
something that sections do not lead to. -/
inductive Xlate where
  | fault
  | hit (pa : UInt32) (rights : Rights)
  | other
deriving DecidableEq

def offset (base va : UInt32) (n : Nat) : UInt32 := base ||| (va &&& bitsMask n)

/-- The walk of the ARM through a first-level table. -/
def walk (pt : PageTable) (va : UInt32) : Xlate :=
  let pte := pt (index va)
  if pte.tag = 0b00 then .fault
  else if pte.tag = 0b10 ∧ pte.super = 0 then
    .hit (offset (UInt32.ofBitVec (pte.secBaseAddr.setWidth 32) <<< 20) va 20) pte.rights
  else .other

def pageBits (size : UInt32) : Nat :=
  if size = 0b00 then 24 else if size = 0b01 then 12 else if size = 0b10 then 16 else 20

def TlbEntry.lsb (t : TlbEntry) : Nat := pageBits (bitsGet t.pa 6 7)

def TlbEntry.Matches (t : TlbEntry) (asid va : UInt32) : Prop :=
  bitsGet t.pa 0 0 = 1 ∧ bitsGet t.va t.lsb 31 = bitsGet va t.lsb 31 ∧
    (bitsGet t.va 9 9 = 1 ∨ bitsGet t.va 0 7 = asid)

instance (t : TlbEntry) (asid va : UInt32) : Decidable (t.Matches asid va) :=
  inferInstanceAs (Decidable (_ ∧ _))

def TlbEntry.pin (t : TlbEntry) (va : UInt32) : Xlate :=
  .hit (offset ((t.pa >>> UInt32.ofNat t.lsb) <<< UInt32.ofNat t.lsb) va t.lsb) t.rights

structure Machine where
  dacr : UInt32
  enabled : Bool
  ttbr0 : PageTable
  asid : UInt32
  tlb : Tlb

/-- The pinned entries first, then the table; two entries for one address are an error. -/
def Machine.xlate (m : Machine) (va : UInt32) : Xlate :=
  match (List.range 8).filter fun i => (m.tlb.entries i).Matches m.asid va with
  | [] => walk m.ttbr0 va
  | [i] => (m.tlb.entries i).pin va
  | _ => .other

/-- If the domain register and the permission let the kernel read. -/
def Rights.kernRd (r : Rights) (dacr : UInt32) : Bool :=
  let domain := bitsGet dacr (2 * r.domain) (2 * r.domain + 1)
  domain = 0b11 || domain = DOM_CLIENT && r.perm ≠ 0b000 && r.perm ≠ 0b100

/-- The register behind xlate_kern_rd_set: the page of the address with some bits about
the memory, or a one. -/
def Machine.xlatePa (attrs : Rights → BitVec 9) (m : Machine) (va : UInt32) : UInt32 :=
  match m.xlate va with
  | .hit pa r =>
    if r.kernRd m.dacr then (pa &&& (~~~0x3FF : UInt32)) ||| (UInt32.ofBitVec ((attrs r).setWidth 32) <<< 1)
    else 1
  | _ => 1

end Hardware

section PageTables

def mmuSetCtx (m : Machine) (pid asid address : UInt32) (pt : PageTable) : Option Machine := do
  demand (asid ≠ 0)
  demand (asid < 64)
  demand (pid > 64)
  demand (pid >>> 24 = 0)
  demand (address ≠ 0)
  pure { m with ttbr0 := pt, asid := asid }

def vmMmuEnable (m : Machine) : Option Machine := do
  demand (m.enabled = false)
  pure { m with enabled := true }

def attrMk (e : PrEnt) : Option Pin :=
  match e.type with
  | .device => pinMkDevice e.dom
  | .rw => pinMkGlobal e.dom permRwPriv .uncached
  | .ro => none

def mapEntries (pt : PageTable) : List PrEnt → Option PageTable
  | [] => some pt
  | e :: entries => do
    let attr ← attrMk e
    let (pt, _) ← vmMapSec pt e.addr e.addr attr
    mapEntries pt entries

/-- The machine and the table behind the call, when kmalloc comes with this address. -/
def vmMapKernel (m : Machine) (address : UInt32) (p : Procmap) (enable : Bool) :
    Option (Machine × PageTable) := do
  let d ← domPerm p.domIds DOM_CLIENT
  let m := { m with dacr := d }
  let pt ← vmPtAlloc address 4096
  let pt ← mapEntries pt p.map
  let m ← mmuSetCtx m 0x140e 1 address pt
  let m ← if enable then vmMmuEnable m else some m
  pure (m, pt)

end PageTables

section Pinning

def procmapPin (tlb : Tlb) (i : Nat) : List PrEnt → Option Tlb
  | [] => some tlb
  | e :: entries => do
    demand (e.nbytes = OneMB)
    let g ← (match e.type with
      | .device => pinMkDevice e.dom
      | .rw => pinMkGlobal e.dom permRwPriv .uncached
      | .ro => none)
    let tlb ← pinMmuSec tlb (UInt32.ofNat i) e.addr e.addr g
    procmapPin tlb (i + 1) entries

def pinMmuSwitch (m : Machine) (asid address : UInt32) (nullPt : PageTable) : Option Machine := do
  demand (address ≠ 0)
  demand (asid ≠ 0)
  demand (asid < 64)
  pure { m with ttbr0 := nullPt, asid := asid }

variable (attrs : Rights → BitVec 9)

def tlbContainsVa (m : Machine) (va : UInt32) : Option (Bool × UInt32) := do
  demand (bitsGet va 0 2 = 0)
  let paEnt := m.xlatePa attrs va
  let pa := paEnt &&& (~~~0x3FF : UInt32)
  pure (decide (paEnt &&& 0x1 = 0), pa ||| (va &&& 0x3FF))

def pinCheckExists (m : Machine) (va : UInt32) : Option Unit := do
  demand (m.enabled = true)
  let (found, r) ← tlbContainsVa attrs m va
  demand (found = true)
  demand (va = r)

def checkAll (m : Machine) : List PrEnt → Option Unit
  | [] => some ()
  | e :: entries => do
    pinCheckExists attrs m e.addr
    checkAll m entries

/-- The machine behind the call, when kmalloc_aligned comes with this address. -/
def procmapPinOn (m : Machine) (address : UInt32) (p : Procmap) : Option Machine := do
  let d ← domPerm p.domIds DOM_CLIENT
  let m := { m with dacr := d }
  let tlb ← procmapPin m.tlb 0 p.map
  let m := { m with tlb := tlb }
  let m ← pinMmuSwitch m 1 address zeroTable
  let m ← vmMmuEnable m
  checkAll attrs m p.map
  pure m

end Pinning

section Map

def PrEnt.mem (e : PrEnt) : MemAttr := if e.type = .device then .device else .uncached

def PrEnt.rights (e : PrEnt) : Rights := ⟨permRwPriv.toNat, e.dom.toNat, e.mem.bits.toNat, 0⟩

/-- What the map asks for: every address is its own, with the rights of its entry. -/
def identity (entries : List PrEnt) (va : UInt32) : Xlate :=
  match entries.find? fun e => e.Contains va with
  | some e => .hit va e.rights
  | none => .fault

/-- Disjoint sections of the types that both back ends know. -/
structure Accepted (entries : List PrEnt) : Prop where
  sections : ∀ e ∈ entries, e.nbytes = OneMB ∧ e.addr % OneMB = 0
  types : ∀ e ∈ entries, e.type ≠ .ro
  disjoint : entries.Pairwise fun e f => ∀ va, ¬ (e.Contains va ∧ f.Contains va)

def PrEnt.attr (e : PrEnt) : Pin := ⟨1, 0, e.dom, PAGE_1MB, permRwPriv, e.mem⟩

/-- What both back ends can rely on in an entry. -/
structure PrEnt.Good (e : PrEnt) : Prop where
  dom : e.dom < 16
  nbytes : e.nbytes = OneMB
  aligned : e.addr % OneMB = 0
  type : e.type ≠ .ro

variable {e : PrEnt} {va : UInt32}

theorem attrMk_good (good : e.Good) : attrMk e = some e.attr := by
  have small : e.dom ≤ 16 := UInt32.le_of_lt good.dom
  have made : ∀ m, pinMk 1 e.dom 0 permRwPriv m = some ⟨1, 0, e.dom, PAGE_1MB, permRwPriv, m⟩ := by
    intro m
    have legal : memPermIslegal permRwPriv = true := rfl
    simp [pinMk, demand, small, legal]
  have type := good.type
  unfold attrMk PrEnt.attr PrEnt.mem
  cases kind : e.type with
  | device => exact made .device
  | rw => exact made .uncached
  | ro => exact absurd kind type

theorem attr_legal (good : e.Good) : Legal e.attr :=
  ⟨rfl, UInt32.le_of_lt good.dom, rfl, (by decide : (0 : UInt32) < 64)⟩

theorem attr_fits (good : e.Good) : Fits e.attr :=
  ⟨good.dom, (by decide : permRwPriv ≠ permRwUser), (by decide : permRwPriv ≠ permRoUser)⟩

theorem PrEnt.Good.low (good : e.Good) : e.addr.toNat % 0x100000 = 0 :=
  congrArg UInt32.toNat good.aligned

theorem contains_iff (good : e.Good) : e.Contains va ↔ index e.addr = index va := by
  have low := good.low
  have size : e.nbytes.toNat = 0x100000 := congrArg UInt32.toNat good.nbytes
  rw [Fin.ext_iff, index_val, index_val, PrEnt.Contains, size]
  omega

theorem offset_section {base : UInt32} (aligned : base % OneMB = 0)
    (same : index base = index va) : offset base va 20 = va := by
  have low : base.toNat % 0x100000 = 0 := congrArg UInt32.toNat aligned
  have place := Fin.ext_iff.mp same
  rw [index_val, index_val] at place
  have rest : (va &&& bitsMask 20).toNat = va.toNat % 2 ^ 20 := by
    rw [UInt32.toNat_and, bitsMask_toNat 20 (by decide), Nat.and_two_pow_sub_one_eq_mod]
  rw [← UInt32.toNat_inj, offset, or_section aligned (by omega), rest]
  omega

end Map

section Walks

variable {entries : List PrEnt} {pt : PageTable}

def PrEnt.sec (e : PrEnt) : SecMap := ⟨e.addr, e.addr, e.attr⟩

theorem mapEntries_good (good : ∀ e ∈ entries, e.Good) (pt : PageTable) :
    ∃ pt', mapEntries pt entries = some pt' ∧ mapAll pt (entries.map PrEnt.sec) = some pt' := by
  induction entries generalizing pt with
  | nil => exact ⟨pt, rfl, rfl⟩
  | cons e entries ih =>
    have first := good e List.mem_cons_self
    have step : vmMapSec pt e.addr e.addr e.attr = some (_, index e.addr) :=
      vmMapSec_some.mpr ⟨⟨first.aligned, first.aligned, rfl⟩, rfl, rfl⟩
    obtain ⟨pt', ran, same⟩ := ih (fun f later => good f (List.mem_cons_of_mem e later)) _
    refine ⟨pt', ?_, ?_⟩
    · rw [mapEntries, attrMk_good first]
      simp only [Option.bind_eq_bind, Option.bind_some, step]
      exact ran
    · rw [List.map_cons, mapAll, PrEnt.sec, step]
      exact same

theorem contains_unique {e f : PrEnt} {va : UInt32} (accepted : Accepted entries)
    (one : e ∈ entries) (two : f ∈ entries) (inOne : e.Contains va) (inTwo : f.Contains va) :
    e = f := by
  have symm : Std.Symm fun e f : PrEnt => ∀ va, ¬ (e.Contains va ∧ f.Contains va) :=
    ⟨fun _ _ apart va both => apart va both.symm⟩
  by_contra differ
  exact accepted.disjoint.forall one two differ va ⟨inOne, inTwo⟩

theorem found_contains {e : PrEnt} {va : UInt32}
    (found : (entries.find? fun e => e.Contains va) = some e) : e ∈ entries ∧ e.Contains va := by
  refine ⟨List.mem_of_find?_eq_some found, ?_⟩
  simpa using List.find?_some found

theorem identity_start {e : PrEnt} (good : e.Good) (accepted : Accepted entries)
    (present : e ∈ entries) : identity entries e.addr = .hit e.addr e.rights := by
  have holds : e.Contains e.addr := (contains_iff good).mpr rfl
  rw [identity]
  cases found : entries.find? fun f => f.Contains e.addr with
  | none => exact absurd (decide_eq_true holds) (List.find?_eq_none.mp found e present)
  | some f =>
    obtain ⟨there, also⟩ := found_contains found
    rw [contains_unique accepted present there holds also]

theorem lastMap_sec (good : ∀ e ∈ entries, e.Good) (accepted : Accepted entries) (va : UInt32) :
    lastMap (entries.map PrEnt.sec) (index va) =
      (entries.find? fun e => e.Contains va).map PrEnt.sec := by
  have inside : ∀ m, lastMap (entries.map PrEnt.sec) (index va) = some m →
      ∃ f ∈ entries, f.Contains va ∧ m = f.sec := by
    intro m last
    obtain ⟨member, place⟩ := lastMap_index last
    obtain ⟨f, present, rfl⟩ := List.mem_map.mp member
    exact ⟨f, present, (contains_iff (good f present)).mpr place, rfl⟩
  cases found : entries.find? fun e => e.Contains va with
  | none =>
    cases last : lastMap (entries.map PrEnt.sec) (index va) with
    | none => rfl
    | some m =>
      obtain ⟨f, present, holds, _⟩ := inside m last
      exact absurd (decide_eq_true holds) (List.find?_eq_none.mp found f present)
  | some e =>
    obtain ⟨present, holds⟩ := found_contains found
    cases last : lastMap (entries.map PrEnt.sec) (index va) with
    | none =>
      have absent := List.find?_eq_none.mp last e.sec
        (List.mem_reverse.mpr (List.mem_map_of_mem present))
      exact absurd (decide_eq_true ((contains_iff (good e present)).mp holds)) absent
    | some m =>
      obtain ⟨f, there, also, rfl⟩ := inside m last
      rw [contains_unique accepted present there holds also]
      rfl

theorem walk_identity (good : ∀ e ∈ entries, e.Good) (accepted : Accepted entries)
    (run : mapAll zeroTable (entries.map PrEnt.sec) = some pt) (va : UInt32) :
    walk pt va = identity entries va := by
  have entry := mapAll_entry (fun _ => rfl) run (index va)
  rw [lastMap_sec good accepted] at entry
  rw [walk, identity, entry]
  cases found : entries.find? fun e => e.Contains va with
  | none => rfl
  | some e =>
    obtain ⟨present, holds⟩ := found_contains found
    have fine := good e present
    change Xlate.hit (offset (UInt32.ofBitVec ((Fld.zero.fill e.addr e.attr).secBaseAddr.setWidth 32) <<< 20)
      va 20) (Fld.zero.fill e.addr e.attr).rights = _
    rw [base_section fine.aligned, offset_section fine.aligned ((contains_iff fine).mp holds),
      (fill_rights_iff _ _ (attr_legal fine)).mpr (attr_fits fine)]
    rfl

end Walks

section Pins

variable {entries : List PrEnt} {tlb : Tlb} {e : PrEnt} {va : UInt32}

def PrEnt.pinned (e : PrEnt) : TlbEntry := tlbEntry e.addr e.addr e.attr

theorem pinned_words (good : e.Good) :
    e.pinned.va.toNat = e.addr.toNat + 512 ∧ e.pinned.pa.toNat = e.addr.toNat + 195 := by
  have va : e.pinned.va = e.addr ||| 512 := by
    change e.addr ||| ((1 : UInt32) <<< 9) ||| 0 = _
    rw [UInt32.or_assoc]
    rfl
  have pa : e.pinned.pa = e.addr ||| 195 := by
    change e.addr ||| (PAGE_1MB <<< 6) ||| (permRwPriv <<< 1) ||| 0x1 = _
    rw [UInt32.or_assoc, UInt32.or_assoc]
    rfl
  rw [va, pa, or_section good.aligned (by decide), or_section good.aligned (by decide)]
  exact ⟨rfl, rfl⟩

theorem bitsGet_eq {x y : UInt32} {lb ub : Nat} (le : lb ≤ ub) (small : ub < 32) :
    bitsGet x lb ub = y ↔ x.toNat / 2 ^ lb % 2 ^ (ub - lb + 1) = y.toNat := by
  rw [← UInt32.toNat_inj, bitsGet_toNat x le small]

theorem pinned_lsb (good : e.Good) : e.pinned.lsb = 20 := by
  have low := good.low
  have size : bitsGet e.pinned.pa 6 7 = PAGE_1MB := by
    rw [bitsGet_eq (by decide) (by decide), (pinned_words good).2]
    change _ = 3
    omega
  rw [TlbEntry.lsb, size]
  rfl

theorem pinned_matches (good : e.Good) (asid : UInt32) :
    e.pinned.Matches asid va ↔ e.Contains va := by
  obtain ⟨vaWord, paWord⟩ := pinned_words good
  have low := good.low
  have valid : bitsGet e.pinned.pa 0 0 = 1 := by
    rw [bitsGet_eq (by decide) (by decide), paWord]
    change _ = 1
    omega
  have everywhere : bitsGet e.pinned.va 9 9 = 1 := by
    rw [bitsGet_eq (by decide) (by decide), vaWord]
    change _ = 1
    omega
  have place : bitsGet e.pinned.va 20 31 = bitsGet va 20 31 ↔ index e.addr = index va := by
    have size := e.addr.toNat_lt
    have size' := va.toNat_lt
    rw [bitsGet_eq (by decide) (by decide), bitsGet_toNat va (by decide) (by decide), vaWord,
      Fin.ext_iff, index_val, index_val]
    omega
  rw [TlbEntry.Matches, pinned_lsb good, contains_iff good, place]
  simp [valid, everywhere]

theorem pinned_pin (good : e.Good) (inside : e.Contains va) :
    e.pinned.pin va = .hit va e.rights := by
  have low := good.low
  have base : (e.pinned.pa >>> 20) <<< 20 = e.addr := by
    have size := e.addr.toNat_lt
    have twenty : (20 : UInt32).toNat % 32 = 20 := rfl
    rw [← UInt32.toNat_inj, UInt32.toNat_shiftLeft, UInt32.toNat_shiftRight, (pinned_words good).2,
      twenty, Nat.shiftLeft_eq, Nat.shiftRight_eq_div_pow]
    omega
  have rights : e.pinned.rights = e.rights :=
    entry_rights good.aligned (attr_legal good) (attr_fits good).1
  rw [TlbEntry.pin, pinned_lsb good, rights]
  change Xlate.hit (offset ((e.pinned.pa >>> 20) <<< 20) va 20) _ = _
  rw [base, offset_section good.aligned ((contains_iff good).mp inside)]

/-- The loop pins the entries one after the other and leaves the rest of the TLB alone. -/
theorem procmapPin_good {i : Nat} (good : ∀ e ∈ entries, e.Good) (room : i + entries.length ≤ 8) :
    ∃ tlb', procmapPin tlb i entries = some tlb' ∧
      (∀ j e, entries[j]? = some e → tlb'.entries (i + j) = e.pinned) ∧
      ∀ j, j < i ∨ i + entries.length ≤ j → tlb'.entries j = tlb.entries j := by
  induction entries generalizing i tlb with
  | nil => exact ⟨tlb, rfl, by simp, fun _ _ => rfl⟩
  | cons e entries ih =>
    have first := good e List.mem_cons_self
    rw [List.length_cons] at room
    have same : (UInt32.ofNat i).toNat = i :=
      UInt32.toNat_ofNat_of_lt' (Nat.lt_trans (by omega : i < 8) (by decide))
    have small : UInt32.ofNat i < 8 := UInt32.lt_iff_toNat_lt.mpr (by rw [same]; change i < 8; omega)
    have step : pinMmuSec tlb (UInt32.ofNat i) e.addr e.addr e.attr =
        some ⟨UInt32.ofNat i, Function.update tlb.entries (UInt32.ofNat i).toNat e.pinned⟩ :=
      pinMmuSec_some.mpr ⟨⟨small, first.aligned, first.aligned⟩, rfl⟩
    have room' : i + 1 + entries.length ≤ 8 := by omega
    obtain ⟨tlb', ran, filled, kept⟩ :=
      @ih ⟨UInt32.ofNat i, Function.update tlb.entries (UInt32.ofNat i).toNat e.pinned⟩ (i + 1)
        (fun f later => good f (List.mem_cons_of_mem e later)) room'
    refine ⟨tlb', ?_, ?_, ?_⟩
    · have made := attrMk_good first
      unfold attrMk at made
      rw [procmapPin, made]
      simp only [demand, first.nbytes, Option.bind_eq_bind, Option.bind_some, step, if_true]
      exact ran
    · intro j f found
      cases j with
      | zero =>
        cases found
        rw [Nat.add_zero, kept i (by omega)]
        change Function.update _ (UInt32.ofNat i).toNat _ i = _
        rw [same, Function.update_self]
      | succ j =>
        have later := filled j f found
        rwa [Nat.add_right_comm] at later
    · intro j outside
      rw [List.length_cons] at outside
      rw [kept j (by omega)]
      change Function.update _ (UInt32.ofNat i).toNat _ j = _
      rw [same, Function.update_of_ne (by omega)]

theorem place_unique {i j : Nat} {f : PrEnt} (accepted : Accepted entries)
    (one : entries[i]? = some e) (two : entries[j]? = some f) (inOne : e.Contains va)
    (inTwo : f.Contains va) : i = j := by
  obtain ⟨shortI, rfl⟩ := List.getElem?_eq_some_iff.mp one
  obtain ⟨shortJ, rfl⟩ := List.getElem?_eq_some_iff.mp two
  have apart := List.pairwise_iff_getElem.mp accepted.disjoint
  by_contra differ
  rcases Nat.lt_or_gt_of_ne differ with less | more
  · exact apart i j shortI shortJ less va ⟨inOne, inTwo⟩
  · exact apart j i shortJ shortI more va ⟨inTwo, inOne⟩

theorem filter_range_single (k : Nat) (small : k < 8) : (List.range 8).filter (fun i => i = k) = [k] := by
  revert k
  decide

/-- Of the entries that procmap_pin leaves, those of the map match where the map has the address. -/
theorem entry_matches {tlb : Tlb} (good : ∀ e ∈ entries, e.Good)
    (filled : ∀ j e, entries[j]? = some e → tlb.entries j = e.pinned)
    (invalid : ∀ j, entries.length ≤ j → j < 8 → bitsGet (tlb.entries j).pa 0 0 = 0) (asid va : UInt32)
    {i : Nat} (small : i < 8) :
    (tlb.entries i).Matches asid va ↔ ∃ e, entries[i]? = some e ∧ e.Contains va := by
  cases there : entries[i]? with
  | none =>
    have zero := invalid i (List.getElem?_eq_none_iff.mp there) small
    simp [TlbEntry.Matches, zero]
  | some e =>
    rw [filled i e there, pinned_matches (good e (List.mem_of_getElem? there))]
    simp

theorem xlate_identity {m : Machine} (good : ∀ e ∈ entries, e.Good) (accepted : Accepted entries)
    (short : entries.length ≤ 8) (null : m.ttbr0 = zeroTable)
    (filled : ∀ j e, entries[j]? = some e → m.tlb.entries j = e.pinned)
    (invalid : ∀ j, entries.length ≤ j → j < 8 → bitsGet (m.tlb.entries j).pa 0 0 = 0) (va : UInt32) :
    m.xlate va = identity entries va := by
  have inside : ∀ i < 8, (m.tlb.entries i).Matches m.asid va ↔
      ∃ e, entries[i]? = some e ∧ e.Contains va :=
    fun _ small => entry_matches good filled invalid m.asid va small
  rw [Machine.xlate, identity]
  cases found : entries.find? fun e => e.Contains va with
  | none =>
    have empty : ((List.range 8).filter fun i => (m.tlb.entries i).Matches m.asid va) = [] := by
      rw [List.filter_eq_nil_iff]
      intro i member matched
      obtain ⟨e, there, holds⟩ := (inside i (List.mem_range.mp member)).mp (of_decide_eq_true matched)
      exact absurd (decide_eq_true holds) (List.find?_eq_none.mp found e (List.mem_of_getElem? there))
    rw [empty, null]
    rfl
  | some e =>
    obtain ⟨present, holds⟩ := found_contains found
    obtain ⟨k, there⟩ := List.mem_iff_getElem?.mp present
    have small : k < 8 := by
      have bound := (List.getElem?_eq_some_iff.mp there).1
      omega
    have single : ((List.range 8).filter fun i => (m.tlb.entries i).Matches m.asid va) = [k] := by
      rw [← filter_range_single k small]
      apply List.filter_congr
      intro i member
      rw [decide_eq_decide, inside i (List.mem_range.mp member)]
      constructor
      · rintro ⟨f, also, holds'⟩
        exact place_unique accepted also there holds' holds
      · rintro rfl
        exact ⟨e, there, holds⟩
    rw [single]
    change (m.tlb.entries k).pin va = _
    rw [filled k e there]
    exact pinned_pin (good e present) holds

end Pins

section Checks

theorem page_back (x : UInt32) : (x &&& (~~~0x3FF : UInt32)) ||| (x &&& 0x3FF) = x := by
  apply UInt32.toBitVec_inj.mp
  ext i small
  simp
  interval_cases i <;> simp

theorem register_bits (pa : UInt32) (attr : BitVec 9) :
    ((pa &&& (~~~0x3FF : UInt32)) ||| (UInt32.ofBitVec (attr.setWidth 32) <<< 1)) &&& 0x1 = 0 ∧
    ((pa &&& (~~~0x3FF : UInt32)) ||| (UInt32.ofBitVec (attr.setWidth 32) <<< 1)) &&&
      (~~~0x3FF : UInt32) = pa &&& (~~~0x3FF : UInt32) := by
  constructor
  · apply UInt32.toBitVec_inj.mp
    ext i small
    interval_cases i <;> simp
  · apply UInt32.toBitVec_inj.mp
    ext i small
    interval_cases i <;> simp

variable {entries : List PrEnt} {m : Machine} {e : PrEnt} (attrs : Rights → BitVec 9)

theorem checkExists_some (good : e.Good) (on : m.enabled = true)
    (hit : m.xlate e.addr = .hit e.addr e.rights) (kernRd : e.rights.kernRd m.dacr = true) :
    pinCheckExists attrs m e.addr = some () := by
  have low := good.low
  have bits : bitsGet e.addr 0 2 = 0 := by
    rw [bitsGet_eq (by decide) (by decide)]
    change _ = 0
    omega
  obtain ⟨found, page⟩ := register_bits e.addr (attrs e.rights)
  simp only [pinCheckExists, tlbContainsVa, Machine.xlatePa, hit, kernRd, if_true, demand, on, bits,
    found, page, page_back, Option.bind_eq_bind, Option.bind_some, Option.pure_def, decide_true]

theorem checkAll_some (good : ∀ e ∈ entries, e.Good) (on : m.enabled = true)
    (hit : ∀ e ∈ entries, m.xlate e.addr = .hit e.addr e.rights)
    (kernRd : ∀ e ∈ entries, e.rights.kernRd m.dacr = true) : checkAll attrs m entries = some () := by
  induction entries with
  | nil => rfl
  | cons e entries ih =>
    have first := List.mem_cons_self (a := e) (l := entries)
    have rest := fun f => List.mem_cons_of_mem (a := f) e (l := entries)
    rw [checkAll, checkExists_some attrs (good e first) on (hit e first) (kernRd e first)]
    exact ih (fun f later => good f (rest f later)) (fun f later => hit f (rest f later))
      fun f later => kernRd f (rest f later)

theorem kernRd_pushed {p : Procmap} (tracks : p.Tracks) {d : UInt32} (good : e.Good)
    (present : e ∈ p.map) (mask : domPerm p.domIds DOM_CLIENT = some d) :
    e.rights.kernRd d = true := by
  have small : e.dom.toNat < 16 := good.dom
  have client := domPerm_client mask small ((tracks e.dom.toNat).mpr ⟨e, present, rfl⟩)
  have domain : e.rights.domain = e.dom.toNat := rfl
  unfold Rights.kernRd
  rw [domain, client]
  rfl

end Checks

/-- A map from procmap_push with at least one entry, of the sort that both back ends know,
is what the table of vm_map_kernel and the pinned entries of procmap_pin_on give, at every
address and with one domain register. -/
theorem kernel_space_is_the_map {entries : List PrEnt} {p : Procmap}
    (built : pushAll .empty entries = some p) (some_entry : entries ≠ [])
    (accepted : Accepted entries) {m n : Machine} (off : m.enabled = false) (off' : n.enabled = false)
    (reset : ∀ i < 8, bitsGet (n.tlb.entries i).pa 0 0 = 0) {address address' : UInt32}
    (aligned : address % 0x4000 = 0) (nonnull : address ≠ 0) (nonnull' : address' ≠ 0)
    (attrs : Rights → BitVec 9) (enable : Bool) :
    ∃ kernel pt pinned, vmMapKernel m address p enable = some (kernel, pt) ∧ kernel.ttbr0 = pt ∧
      procmapPinOn attrs n address' p = some pinned ∧ kernel.dacr = pinned.dacr ∧
      ∀ va, walk pt va = identity entries va ∧ pinned.xlate va = identity entries va := by
  obtain ⟨tracks, map, smalls, length⟩ := pushAll_tracks built empty_tracks
  have same : p.map = entries := map
  have short : entries.length ≤ 8 := by
    rw [← same]
    exact length (by decide)
  have good : ∀ e ∈ entries, e.Good := fun e present =>
    ⟨smalls e present, (accepted.sections e present).1, (accepted.sections e present).2,
      accepted.types e present⟩
  have mask := domPerm_some tracks (by rwa [same]) (by rwa [same])
  obtain ⟨pt, wrote, run⟩ := mapEntries_good good zeroTable
  have room : 0 + entries.length ≤ 8 := by omega
  obtain ⟨tlb, ran, filled, kept⟩ := @procmapPin_good entries n.tlb 0 good room
  have kernel : ∃ k, vmMapKernel m address p enable = some (k, pt) ∧ k.ttbr0 = pt ∧
      k.dacr = domMask p.domIds DOM_CLIENT 16 := by
    have pid : (0x140e : UInt32) > 64 ∧ (0x140e : UInt32) >>> 24 = 0 := by decide
    have asid : (1 : UInt32) ≠ 0 ∧ (1 : UInt32) < 64 := by decide
    cases enable <;>
      simp [vmMapKernel, mask, vmPtAlloc, demand, aligned, nonnull, same, wrote, mmuSetCtx, pid,
        asid, vmMmuEnable, off]
  obtain ⟨k, made, table, register⟩ := kernel
  let on : Machine := ⟨domMask p.domIds DOM_CLIENT 16, true, zeroTable, 1, tlb⟩
  have invalid : ∀ j, entries.length ≤ j → j < 8 → bitsGet (on.tlb.entries j).pa 0 0 = 0 := by
    intro j outside small
    change bitsGet (tlb.entries j).pa 0 0 = 0
    rw [kept j (by omega)]
    exact reset j small
  have there : ∀ j e, entries[j]? = some e → on.tlb.entries j = e.pinned := by
    intro j e found
    have entry := filled j e found
    rwa [Nat.zero_add] at entry
  have pinned := xlate_identity (m := on) good accepted short rfl there invalid
  have own : ∀ e ∈ entries, on.xlate e.addr = .hit e.addr e.rights := by
    intro e present
    rw [pinned, identity_start (good e present) accepted present]
  have checked : checkAll attrs on entries = some () :=
    checkAll_some attrs good rfl own fun e present =>
      kernRd_pushed tracks (good e present) (by rwa [same]) mask
  refine ⟨k, pt, on, made, table, ?_, register, fun va => ⟨walk_identity good accepted run va, pinned va⟩⟩
  have asid : (1 : UInt32) ≠ 0 ∧ (1 : UInt32) < 64 := by decide
  simp [procmapPinOn, mask, same, ran, pinMmuSwitch, demand, nonnull', asid, vmMmuEnable, off', checked, on]

def deviceEnt : PrEnt := ⟨0x20000000, OneMB, .device, 1⟩
def heapEnt : PrEnt := ⟨0x00100000, OneMB, .rw, 2⟩

def coldMachine : Machine := ⟨0, false, zeroTable, 0, ⟨0, fun _ => ⟨0, 0, 0⟩⟩⟩

theorem two_entries_are_mapped : ∃ kernel pt pinned,
    vmMapKernel coldMachine 0x100000 ⟨0b110, [deviceEnt, heapEnt]⟩ true = some (kernel, pt) ∧
      kernel.ttbr0 = pt ∧
      procmapPinOn (fun _ => 0) coldMachine 0x100000 ⟨0b110, [deviceEnt, heapEnt]⟩ = some pinned ∧
      kernel.dacr = pinned.dacr ∧
      ∀ va, walk pt va = identity [deviceEnt, heapEnt] va ∧
        pinned.xlate va = identity [deviceEnt, heapEnt] va := by
  have accepted : Accepted [deviceEnt, heapEnt] := by
    refine ⟨by decide, by decide, ?_⟩
    rw [List.pairwise_pair]
    rintro va ⟨⟨above, _⟩, _, below⟩
    change 0x20000000 ≤ va.toNat at above
    change va.toNat < 0x200000 at below
    omega
  have empty : ∀ i < 8, bitsGet (coldMachine.tlb.entries i).pa 0 0 = 0 :=
    fun _ _ => (by decide : bitsGet 0 0 0 = 0)
  exact kernel_space_is_the_map (by decide) (by decide) accepted rfl rfl empty (by decide) (by decide)
    (by decide) (fun _ => 0) true

end EmbeddedOS.Vm
