import EmbeddedOS.Vm.Procmap

/-! procmap_lookup, and the domain access register of a map. -/
namespace EmbeddedOS.Vm

/-- The loop of procmap_lookup; the end of an entry is a 32-bit sum. -/
def lookupLoop (addr : UInt32) : List PrEnt → Option PrEnt
  | [] => none
  | p :: map =>
    let s := p.addr
    let e := s + p.nbytes
    if addr ≥ s ∧ addr < e then some p else lookupLoop addr map

def procmapLookup (pmap : Procmap) (addr : UInt32) : Option PrEnt := lookupLoop addr pmap.map

def PrEnt.EndsBelowTop (e : PrEnt) : Prop := e.addr.toNat + e.nbytes.toNat < 2 ^ 32

/-- The lookup finds an entry, which contains the address, exactly when some entry does. -/
structure LookupRight (p : Procmap) (entries : List PrEnt) (addr : UInt32) : Prop where
  found : (∃ e, procmapLookup p addr = some e) ↔ ∃ e ∈ entries, e.Contains addr
  right : ∀ e, procmapLookup p addr = some e → e ∈ entries ∧ e.Contains addr

/-- The register gives the permission to the domains of the entries and to no other. -/
def DomainsRight (p : Procmap) (entries : List PrEnt) : Prop :=
  ∀ perm : UInt32, entries ≠ [] → perm ≤ 0b11 → ∃ d, domPerm p.domIds perm = some d ∧
    ∀ i < 16, bitsGet d (2 * i) (2 * i + 1) = if ∃ e ∈ entries, e.dom.toNat = i then perm else 0

section Lookup

variable {addr : UInt32}

/-- What the loop finds an address in: an entry that ends at the top looks empty. -/
theorem inside_iff (e : PrEnt) :
    (addr ≥ e.addr ∧ addr < e.addr + e.nbytes) ↔ e.Contains addr ∧ e.EndsBelowTop := by
  have first := UInt32.toNat_lt e.addr
  have size := UInt32.toNat_lt e.nbytes
  rw [ge_iff_le, UInt32.le_iff_toNat_le, UInt32.lt_iff_toNat_lt, UInt32.toNat_add, PrEnt.Contains,
    PrEnt.EndsBelowTop]
  omega

theorem lookupLoop_some {map : List PrEnt} {e : PrEnt} (found : lookupLoop addr map = some e) :
    e ∈ map ∧ e.Contains addr ∧ e.EndsBelowTop := by
  induction map with
  | nil => cases found
  | cons p map ih =>
    rw [lookupLoop] at found
    by_cases here : addr ≥ p.addr ∧ addr < p.addr + p.nbytes
    · rw [if_pos here, Option.some.injEq] at found
      subst found
      exact ⟨List.mem_cons_self, (inside_iff p).mp here⟩
    · rw [if_neg here] at found
      exact ⟨List.mem_cons_of_mem p (ih found).1, (ih found).2⟩

theorem lookupLoop_found {map : List PrEnt} {e : PrEnt} (member : e ∈ map)
    (contains : e.Contains addr) (below : e.EndsBelowTop) : ∃ f, lookupLoop addr map = some f := by
  induction map with
  | nil => cases member
  | cons p map ih =>
    rw [lookupLoop]
    by_cases here : addr ≥ p.addr ∧ addr < p.addr + p.nbytes
    · exact ⟨p, if_pos here⟩
    · rw [if_neg here]
      rcases List.mem_cons.mp member with rfl | later
      · exact absurd ((inside_iff e).mpr ⟨contains, below⟩) here
      · exact ih later

theorem lookupRight_iff {p : Procmap} {entries : List PrEnt} (map : p.map = entries) :
    LookupRight p entries addr ↔
      ((∃ e ∈ entries, e.Contains addr) → ∃ e ∈ entries, e.Contains addr ∧ e.EndsBelowTop) := by
  subst map
  constructor
  · intro right some_entry
    obtain ⟨e, found⟩ := right.found.mpr some_entry
    obtain ⟨member, contains, below⟩ := lookupLoop_some found
    exact ⟨e, member, contains, below⟩
  · intro covered
    refine ⟨⟨?_, ?_⟩, ?_⟩
    · rintro ⟨e, found⟩
      obtain ⟨member, contains, -⟩ := lookupLoop_some found
      exact ⟨e, member, contains⟩
    · intro some_entry
      obtain ⟨e, member, contains, below⟩ := covered some_entry
      exact lookupLoop_found member contains below
    · intro e found
      obtain ⟨member, contains, -⟩ := lookupLoop_some found
      exact ⟨member, contains⟩

end Lookup

theorem domains_right {p : Procmap} {entries : List PrEnt} (tracks : p.Tracks)
    (map : p.map = entries) (smalls : ∀ e ∈ entries, e.dom < 16) : DomainsRight p entries := by
  subst map
  intro perm some_entry legal
  obtain ⟨nonzero, high⟩ := tracked_doms tracks some_entry smalls
  have mask : domPerm p.domIds perm = some (domMask p.domIds perm 16) := by
    simp [domPerm, nonzero, high, demand, legal]
  refine ⟨_, mask, fun i small => ?_⟩
  rw [domPerm_field mask small]
  simp only [tracks i]

/-- Behind any pushes that the code admits: the register is right, and the lookup of an address is
right exactly when, of the entries that contain it, one ends below the top. -/
theorem procmap_iff {entries : List PrEnt} {p : Procmap}
    (built : pushAll Procmap.empty entries = some p) (addr : UInt32) :
    (LookupRight p entries addr ∧ DomainsRight p entries) ↔
      ((∃ e ∈ entries, e.Contains addr) → ∃ e ∈ entries, e.Contains addr ∧ e.EndsBelowTop) := by
  obtain ⟨tracks, all, smalls, -⟩ := pushAll_tracks built empty_tracks
  have map : p.map = entries := all
  rw [lookupRight_iff map]
  exact and_iff_left (domains_right tracks map smalls)

def lowSection : PrEnt := ⟨0x100000, 0x100000, .rw, 3⟩

def topSection : PrEnt := ⟨0xfff00000, 0x100000, .rw, 3⟩

theorem low_section_found :
    LookupRight ⟨8, [lowSection]⟩ [lowSection] 0x123456 ∧ DomainsRight ⟨8, [lowSection]⟩ [lowSection] :=
  (procmap_iff (by decide) 0x123456).mpr fun _ =>
    ⟨lowSection, List.mem_cons_self, ⟨by decide, by decide⟩,
      (by decide : 0x100000 + 0x100000 < 2 ^ 32)⟩

theorem top_section_missed :
    pushAll Procmap.empty [topSection] = some ⟨8, [topSection]⟩ ∧
      topSection.Contains 0xfff12345 ∧ procmapLookup ⟨8, [topSection]⟩ 0xfff12345 = none ∧
      ¬ LookupRight ⟨8, [topSection]⟩ [topSection] 0xfff12345 := by
  have contains : topSection.Contains 0xfff12345 := ⟨by decide, by decide⟩
  refine ⟨by decide, contains, by decide, fun right => ?_⟩
  obtain ⟨e, found⟩ := right.found.mpr ⟨topSection, List.mem_cons_self, contains⟩
  exact absurd found (by simp [procmapLookup, lookupLoop, topSection])

end EmbeddedOS.Vm
