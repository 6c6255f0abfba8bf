import EmbeddedOS.Steps.Run
import EmbeddedOS.Vm.Kernel

/-! Sequences of pin_mmu_sec calls, and when no address is left with two lockdown entries. -/
namespace EmbeddedOS.Vm
open Steps

section Calls

structure PinCall where
  idx : UInt32
  va : UInt32
  pa : UInt32
  attr : Pin

def PinCall.entry (c : PinCall) : TlbEntry := tlbEntry c.va c.pa c.attr

def pin (tlb : Tlb) (c : PinCall) : Tlb := (pinMmuSec tlb c.idx c.va c.pa c.attr).getD tlb

/-- The entry is for this ASID, or for all. -/
def TlbEntry.Serves (t : TlbEntry) (asid : UInt32) : Prop :=
  bitsGet t.va 9 9 = 1 ∨ bitsGet t.va 0 7 = asid

/-- No address has two entries for one ASID. -/
def Single (tlb : Tlb) : Prop :=
  ∀ asid va i j, i < 8 → j < 8 → (tlb.entries i).Matches asid va → (tlb.entries j).Matches asid va → i = j

/-- Some entry has the address of the call, for an ASID that the call maps it for. -/
def Mapped (tlb : Tlb) (c : PinCall) : Prop :=
  ∃ i < 8, ∃ asid, c.entry.Serves asid ∧ (tlb.entries i).Matches asid c.va

/-- What the header promises of a sequence of calls. -/
structure NeverDouble (tlb : Tlb) (calls : List PinCall) : Prop where
  refused : Throughout pin (fun tlb c => Mapped tlb c → pinMmuSec tlb c.idx c.va c.pa c.attr = none) tlb calls
  single : ∀ first, first <+: calls → Single (run pin tlb first)

end Calls

section Condition

def TlbEntry.Shares (t u : TlbEntry) : Prop :=
  bitsGet t.va 9 9 = 1 ∨ bitsGet u.va 9 9 = 1 ∨ bitsGet t.va 0 7 = bitsGet u.va 0 7

/-- The larger of the two pages contains the other. -/
def TlbEntry.Clashes (t u : TlbEntry) : Prop :=
  bitsGet t.pa 0 0 = 1 ∧ bitsGet u.pa 0 0 = 1 ∧
    bitsGet t.va (max t.lsb u.lsb) 31 = bitsGet u.va (max t.lsb u.lsb) 31 ∧ t.Shares u

def TlbEntry.Covers (t : TlbEntry) (c : PinCall) : Prop :=
  bitsGet t.pa 0 0 = 1 ∧ bitsGet t.va t.lsb 31 = bitsGet c.va t.lsb 31 ∧ t.Shares c.entry

def PinCall.Checked (c : PinCall) : Prop := c.idx < 8 ∧ c.va % OneMB = 0 ∧ c.pa % OneMB = 0

/-- A call that the checks let through comes with an address and a page that are free. -/
def Fresh (tlb : Tlb) (c : PinCall) : Prop :=
  c.Checked → ∀ i < 8, ¬ (tlb.entries i).Covers c ∧ (i ≠ c.idx.toNat → ¬ (tlb.entries i).Clashes c.entry)

instance (t u : TlbEntry) : Decidable (t.Shares u) := inferInstanceAs (Decidable (_ ∨ _ ∨ _))
instance (t u : TlbEntry) : Decidable (t.Clashes u) := inferInstanceAs (Decidable (_ ∧ _ ∧ _ ∧ _))
instance (t : TlbEntry) (c : PinCall) : Decidable (t.Covers c) := inferInstanceAs (Decidable (_ ∧ _ ∧ _))
instance (c : PinCall) : Decidable c.Checked := inferInstanceAs (Decidable (_ ∧ _ ∧ _))
instance (tlb : Tlb) (c : PinCall) : Decidable (Fresh tlb c) := inferInstanceAs (Decidable (_ → _))

end Condition

section Pages

variable {x y a b : Nat}

/-- Of two pages that meet, the larger contains the other. -/
theorem pages_meet_iff : (∃ v, x / 2 ^ a = v / 2 ^ a ∧ y / 2 ^ b = v / 2 ^ b) ↔
    x / 2 ^ max a b = y / 2 ^ max a b := by
  have widen {n m : Nat} (less : n ≤ m) (z : Nat) : z / 2 ^ n / 2 ^ (m - n) = z / 2 ^ m := by
    rw [Nat.div_div_eq_div_mul, ← Nat.pow_add, Nat.add_sub_cancel' less]
  constructor
  · rintro ⟨v, one, two⟩
    rw [← widen (Nat.le_max_left a b) x, ← widen (Nat.le_max_right a b) y, one, two,
      widen (Nat.le_max_left a b), widen (Nat.le_max_right a b)]
  · intro same
    rcases Nat.le_total a b with less | less
    · rw [Nat.max_eq_right less] at same
      exact ⟨x, rfl, same.symm⟩
    · rw [Nat.max_eq_left less] at same
      exact ⟨y, same, rfl⟩

theorem bitsGet_high (x y : UInt32) {a : Nat} (small : a < 32) :
    bitsGet x a 31 = bitsGet y a 31 ↔ x.toNat / 2 ^ a = y.toNat / 2 ^ a := by
  have whole (z : UInt32) : (bitsGet z a 31).toNat = z.toNat / 2 ^ a := by
    rw [bitsGet_toNat z (by omega) (by decide)]
    refine Nat.mod_eq_of_lt (Nat.div_lt_of_lt_mul ?_)
    rw [← Nat.pow_add, show a + (31 - a + 1) = 32 by omega]
    exact z.toNat_lt
  rw [← UInt32.toNat_inj, whole, whole]

theorem lsb_small (t : TlbEntry) : t.lsb < 32 := by
  rw [TlbEntry.lsb, pageBits]
  split_ifs <;> decide

theorem high_meet_iff (x y : UInt32) {a b : Nat} (one : a < 32) (two : b < 32) :
    (∃ va, bitsGet x a 31 = bitsGet va a 31 ∧ bitsGet y b 31 = bitsGet va b 31) ↔
      bitsGet x (max a b) 31 = bitsGet y (max a b) 31 := by
  rw [bitsGet_high x y (by omega), ← pages_meet_iff]
  constructor
  · rintro ⟨va, first, second⟩
    exact ⟨va.toNat, (bitsGet_high x va one).mp first, (bitsGet_high y va two).mp second⟩
  · intro meet
    rcases Nat.le_total a b with less | less
    · refine ⟨x, rfl, (bitsGet_high y x two).mpr ?_⟩
      rw [pages_meet_iff, Nat.max_eq_right less] at meet
      exact meet.symm
    · refine ⟨y, (bitsGet_high x y one).mpr ?_, rfl⟩
      rw [pages_meet_iff, Nat.max_eq_left less] at meet
      exact meet

end Pages

section Entries

variable {t u : TlbEntry} {c : PinCall}

theorem shares_iff : t.Shares u ↔ ∃ asid, t.Serves asid ∧ u.Serves asid := by
  constructor
  · rintro (all | all | same)
    · exact ⟨bitsGet u.va 0 7, .inl all, .inr rfl⟩
    · exact ⟨bitsGet t.va 0 7, .inr rfl, .inl all⟩
    · exact ⟨bitsGet t.va 0 7, .inr rfl, .inr same.symm⟩
  · rintro ⟨asid, all | one, all' | two⟩
    · exact .inl all
    · exact .inl all
    · exact .inr (.inl all')
    · exact .inr (.inr (one.trans two.symm))

theorem clashes_iff : t.Clashes u ↔ ∃ asid va, t.Matches asid va ∧ u.Matches asid va := by
  rw [TlbEntry.Clashes, ← high_meet_iff _ _ (lsb_small t) (lsb_small u), shares_iff]
  constructor
  · rintro ⟨one, two, ⟨va, here, there⟩, asid, serves, serves'⟩
    exact ⟨asid, va, ⟨one, here, serves⟩, two, there, serves'⟩
  · rintro ⟨asid, va, ⟨one, here, serves⟩, two, there, serves'⟩
    exact ⟨one, two, ⟨va, here, there⟩, asid, serves, serves'⟩

theorem covers_iff : t.Covers c ↔ ∃ asid, c.entry.Serves asid ∧ t.Matches asid c.va := by
  rw [TlbEntry.Covers, shares_iff]
  constructor
  · rintro ⟨valid, here, asid, serves, serves'⟩
    exact ⟨asid, serves', valid, here, serves⟩
  · rintro ⟨asid, serves', valid, here, serves⟩
    exact ⟨valid, here, asid, serves, serves'⟩

end Entries

section Step

variable {tlb : Tlb} {c : PinCall}

theorem refused_iff : pinMmuSec tlb c.idx c.va c.pa c.attr = none ↔ ¬ c.Checked := by
  rw [Option.eq_none_iff_forall_ne_some]
  constructor
  · intro none checked
    exact none _ (pinMmuSec_some.mpr ⟨checked, rfl⟩)
  · intro refused tlb' stored
    exact refused (pinMmuSec_some.mp stored).1

theorem pin_checked (checked : c.Checked) :
    (pin tlb c).entries = Function.update tlb.entries c.idx.toNat c.entry := by
  rw [pin, pinMmuSec_some.mpr ⟨checked, rfl⟩]
  rfl

theorem pin_refused (refused : ¬ c.Checked) : pin tlb c = tlb := by
  rw [pin, refused_iff.mpr refused]
  rfl

/-- A new entry leaves no address with two exactly when it clashes with no other. -/
theorem single_pin (single : Single tlb) (checked : c.Checked) :
    Single (pin tlb c) ↔ ∀ i < 8, i ≠ c.idx.toNat → ¬ (tlb.entries i).Clashes c.entry := by
  have place : c.idx.toNat < 8 := UInt32.lt_iff_toNat_lt.mp checked.1
  rw [Single, pin_checked checked]
  constructor
  · intro after i small other clash
    obtain ⟨asid, va, here, there⟩ := clashes_iff.mp clash
    refine other (after asid va i c.idx.toNat small place ?_ ?_)
    · rw [Function.update_of_ne other]
      exact here
    · rw [Function.update_self]
      exact there
  · intro free asid va i j small small' here there
    by_cases first : i = c.idx.toNat
    · by_cases second : j = c.idx.toNat
      · exact first.trans second.symm
      · rw [first, Function.update_self] at here
        rw [Function.update_of_ne second] at there
        exact absurd (clashes_iff.mpr ⟨asid, va, there, here⟩) (free j small' second)
    · rw [Function.update_of_ne first] at here
      by_cases second : j = c.idx.toNat
      · rw [second, Function.update_self] at there
        exact absurd (clashes_iff.mpr ⟨asid, va, here, there⟩) (free i small first)
      · rw [Function.update_of_ne second] at there
        exact single asid va i j small small' here there

theorem fresh_iff (single : Single tlb) :
    Fresh tlb c ↔ (Mapped tlb c → pinMmuSec tlb c.idx c.va c.pa c.attr = none) ∧ Single (pin tlb c) := by
  rw [refused_iff]
  by_cases checked : c.Checked
  · rw [single_pin single checked]
    constructor
    · intro fresh
      refine ⟨?_, fun i small => (fresh checked i small).2⟩
      rintro ⟨i, small, covered⟩
      exact absurd (covers_iff.mpr covered) (fresh checked i small).1
    · rintro ⟨unmapped, free⟩ _ i small
      refine ⟨?_, free i small⟩
      intro covered
      exact unmapped ⟨i, small, covers_iff.mp covered⟩ checked
  · rw [pin_refused checked]
    exact ⟨fun _ => ⟨fun _ => checked, single⟩, fun _ checked' => absurd checked' checked⟩

end Step

section Hardware

/-- Every address is translated by the table or by its only entry. -/
theorem Single.xlate {m : Machine} (single : Single m.tlb) (va : UInt32) :
    m.xlate va = walk m.ttbr0 va ∨
      ∃ i < 8, (m.tlb.entries i).Matches m.asid va ∧ m.xlate va = (m.tlb.entries i).pin va := by
  have found {i : Nat} (inside : i ∈ (List.range 8).filter fun i => (m.tlb.entries i).Matches m.asid va) :
      i < 8 ∧ (m.tlb.entries i).Matches m.asid va := by
    simpa using inside
  have apart : ((List.range 8).filter fun i => (m.tlb.entries i).Matches m.asid va).Nodup :=
    List.nodup_range.filter _
  rw [Machine.xlate]
  cases entries : (List.range 8).filter fun i => (m.tlb.entries i).Matches m.asid va with
  | nil => exact .inl rfl
  | cons i rest =>
    rw [entries] at found apart
    obtain ⟨small, here⟩ := found (i := i) List.mem_cons_self
    cases rest with
    | nil => exact .inr ⟨i, small, here, rfl⟩
    | cons j rest =>
      obtain ⟨small', there⟩ := found (i := j) (List.mem_cons_of_mem i List.mem_cons_self)
      have same := single m.asid va i j small small' here there
      simp [same] at apart

/-- A map that both back ends know, pinned where nothing else is valid, maps no address twice. -/
theorem procmap_single {entries : List PrEnt} {tlb tlb' : Tlb} (good : ∀ e ∈ entries, e.Good)
    (accepted : Accepted entries) (short : entries.length ≤ 8)
    (reset : ∀ i < 8, bitsGet (tlb.entries i).pa 0 0 = 0) (ran : procmapPin tlb 0 entries = some tlb') :
    Single tlb' := by
  obtain ⟨_, same, filled, kept⟩ := @procmapPin_good entries tlb 0 good (by omega)
  cases ran.symm.trans same
  have there (j : Nat) (e : PrEnt) (found : entries[j]? = some e) : tlb'.entries j = e.pinned := by
    have entry := filled j e found
    rwa [Nat.zero_add] at entry
  have invalid (j : Nat) (outside : entries.length ≤ j) (small : j < 8) :
      bitsGet (tlb'.entries j).pa 0 0 = 0 := by
    rw [kept j (by omega)]
    exact reset j small
  intro asid va i j small small' here also
  obtain ⟨e, first, inFirst⟩ := (entry_matches good there invalid asid va small).mp here
  obtain ⟨f, second, inSecond⟩ := (entry_matches good there invalid asid va small').mp also
  exact place_unique accepted first second inFirst inSecond

end Hardware

section Runs

/-- From any TLB that maps no address twice. -/
theorem never_double_iff {tlb : Tlb} (single : Single tlb) (calls : List PinCall) :
    NeverDouble tlb calls ↔ Throughout pin Fresh tlb calls := by
  rw [throughout_iff (fun tlb c single => fresh_iff single) single]
  exact ⟨fun never => ⟨never.refused, never.single⟩, fun ⟨refused, single⟩ => ⟨refused, single⟩⟩

def unpinned : Tlb := ⟨0, fun _ => ⟨0, 0, 0⟩⟩

theorem unpinned_single : Single unpinned := by
  rintro asid va i j - - ⟨valid, -⟩
  change bitsGet 0 0 0 = 1 at valid
  exact absurd valid (by decide)

def apart : List PinCall := [
  ⟨0, 0x1000000, 0x1000000, 1, 0, 1, 0b00, permRwPriv, .uncached⟩,
  ⟨1, 0x100000, 0x100000, 0, 1, 2, PAGE_1MB, permRwUser, .uncached⟩,
  ⟨2, 0x100000, 0x200000, 0, 2, 2, PAGE_1MB, permRwUser, .uncached⟩,
  ⟨8, 0x100000, 0x200000, 0, 2, 2, PAGE_1MB, permRwUser, .uncached⟩]

theorem apart_never_double : NeverDouble unpinned apart :=
  (never_double_iff unpinned_single apart).mpr (by decide)

def kernelAt (idx : UInt32) : PinCall := ⟨idx, 0x100000, 0x100000, 1, 0, 1, PAGE_1MB, permRwPriv, .uncached⟩

theorem kernel_pinned_twice :
    Single unpinned ∧ ¬ NeverDouble unpinned [kernelAt 0, kernelAt 1] ∧
      ¬ Single (run pin unpinned [kernelAt 0, kernelAt 1]) := by
  have double : ¬ Single (run pin unpinned [kernelAt 0, kernelAt 1]) := by
    intro single
    have same := single 0 0x100000 0 1 (by decide) (by decide) (by decide) (by decide)
    cases same
  exact ⟨unpinned_single, fun never => double (never.single _ (List.prefix_refl _)), double⟩

end Runs

end EmbeddedOS.Vm
