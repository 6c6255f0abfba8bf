import EmbeddedOS.Bootloader.PiRun

/-! Byte ranges against the bootloader's own code, and what the test of step 3
makes of them. Ranges may wrap around the end of the address space. -/
namespace EmbeddedOS.Bootloader

/-- The code that the bootloader still needs: [PUT32, __prog_end__). -/
def Image.Needs (img : Image) (a : UInt32) : Prop := img.PUT32 ≤ a ∧ a < img.progEnd

instance (img : Image) (a : UInt32) : Decidable (img.Needs a) :=
  inferInstanceAs (Decidable (_ ∧ _))

def Touches (img : Image) (addr n : UInt32) : Prop :=
  ∃ i < n.toNat, img.Needs (addr + UInt32.ofNat i)

theorem add_toNat (addr : UInt32) (i : Nat) (hi : i < 2 ^ 32) :
    (addr + UInt32.ofNat i).toNat = (addr.toNat + i) % 2 ^ 32 := by
  rw [UInt32.toNat_add, UInt32.toNat_ofNat_of_lt' hi]

theorem needs_iff (img : Image) (addr : UInt32) (i : Nat) (hi : i < 2 ^ 32) :
    img.Needs (addr + UInt32.ofNat i) ↔
      img.PUT32.toNat ≤ (addr.toNat + i) % 2 ^ 32 ∧
        (addr.toNat + i) % 2 ^ 32 < img.progEnd.toNat := by
  rw [Image.Needs, UInt32.le_iff_toNat_le, UInt32.lt_iff_toNat_lt, add_toNat addr i hi]

theorem touches_iff (img : Image) (addr n : UInt32) :
    ¬ Touches img addr n ↔ n.toNat = 0 ∨ addr.toNat + n.toNat ≤ img.PUT32.toNat ∨
      (img.progEnd.toNat ≤ addr.toNat ∧ addr.toNat + n.toNat ≤ 2 ^ 32 + img.PUT32.toNat) := by
  have hn := n.toNat_lt
  have ha := addr.toNat_lt
  have hp := UInt32.lt_iff_toNat_lt.mp img.put32_lt
  have he := img.progEnd.toNat_lt
  constructor
  · intro clear
    by_contra other
    apply clear
    -- the first byte if it is needed, else the byte that falls on PUT32
    by_cases start : img.PUT32.toNat ≤ addr.toNat ∧ addr.toNat < img.progEnd.toNat
    · refine ⟨0, by omega, (needs_iff img addr 0 (by omega)).mpr ?_⟩
      rw [Nat.add_zero, Nat.mod_eq_of_lt ha]
      exact start
    · by_cases below : addr.toNat < img.PUT32.toNat
      · refine ⟨img.PUT32.toNat - addr.toNat, by omega, (needs_iff img addr _ (by omega)).mpr ?_⟩
        omega
      · refine ⟨2 ^ 32 + img.PUT32.toNat - addr.toNat, by omega,
          (needs_iff img addr _ (by omega)).mpr ?_⟩
        omega
  · rintro clear ⟨i, hi, needed⟩
    rw [needs_iff img addr i (by omega)] at needed
    omega

theorem collides_iff (img : Image) (addr n : UInt32) :
    collides img addr n = true ↔ img.PUT32.toNat ≤ (addr.toNat + n.toNat) % 2 ^ 32 ∧
      addr.toNat ≤ img.progEnd.toNat := by
  rw [collides, Bool.and_eq_true, decide_eq_true_eq, decide_eq_true_eq, ge_iff_le, ge_iff_le,
    UInt32.le_iff_toNat_le, UInt32.le_iff_toNat_le, UInt32.toNat_add]

end EmbeddedOS.Bootloader
