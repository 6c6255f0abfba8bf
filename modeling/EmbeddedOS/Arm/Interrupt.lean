import EmbeddedOS.Arm.Machine

/-! The entry into a general interrupt, and registers that are pushed and popped in one block. -/
namespace Arm

def IRQ_MODE : UInt32 := 0x12

def irqMask : UInt32 := 0x80

def irqStatus (cpsr : UInt32) : UInt32 := cpsr &&& 0xfefffdc0 ||| 0x192

/-- The machine when it takes a general interrupt in front of the instruction at its pc. -/
def Machine.takeIrq (m : Machine) (vector : UInt32) : Machine :=
  { m with
    lr := Function.update m.lr .irq (m.pc + 4)
    spsr := Function.update m.spsr .irq m.cpsr
    cpsr := irqStatus m.cpsr
    pc := vector }

theorem bankOf_irqStatus (cpsr : UInt32) : bankOf (irqStatus cpsr) = some .irq := by
  have mode : modeBits (irqStatus cpsr) = 0x12 := masked cpsr (by decide)
  simp [bankOf, mode]

theorem irqStatus_arm (cpsr : UInt32) : irqStatus cpsr &&& stateMask = 0 := masked cpsr (by decide)

theorem and_agree {x y a k : UInt32} (inside : a &&& k = k) (same : x &&& a = y &&& a) :
    x &&& k = y &&& k := by
  rw [← inside, ← UInt32.and_assoc, same, UInt32.and_assoc]

theorem get_set (m : Machine) (b : Bank) (r q : Reg) (v : UInt32) :
    (m.set b r v).get b q = if q = r then v else m.get b q := by
  cases r <;> cases q <;> simp [Machine.set, Machine.get, Function.update_apply]

/-- What the instructions on one bank leave alone. -/
structure Elsewhere (b : Bank) (m n : Machine) : Prop where
  sp : ∀ c, c ≠ b → n.sp c = m.sp c
  lr : ∀ c, c ≠ b → n.lr c = m.lr c
  spsr : n.spsr = m.spsr
  cpsr : n.cpsr = m.cpsr

theorem Elsewhere.trans {b : Bank} {l m n : Machine} (one : Elsewhere b l m)
    (two : Elsewhere b m n) : Elsewhere b l n where
  sp c other := (two.sp c other).trans (one.sp c other)
  lr c other := (two.lr c other).trans (one.lr c other)
  spsr := two.spsr.trans one.spsr
  cpsr := two.cpsr.trans one.cpsr

theorem elsewhere_set (m : Machine) (b : Bank) (r : Reg) (v : UInt32) :
    Elsewhere b m (m.set b r v) := by
  cases r with
  | low n => exact ⟨fun _ _ => rfl, fun _ _ => rfl, rfl, rfl⟩
  | sp => exact ⟨fun c other => by simp [Machine.set, other], fun _ _ => rfl, rfl, rfl⟩
  | lr => exact ⟨fun _ _ => rfl, fun c other => by simp [Machine.set, other], rfl, rfl⟩

theorem mem_set (m : Machine) (b : Bank) (r : Reg) (v : UInt32) : (m.set b r v).mem = m.mem := by
  cases r <;> rfl

theorem loadSlots_elsewhere (m : Machine) (b : Bank) (base : UInt32) (slots : List (Reg × Nat)) :
    Elsewhere b m (m.loadSlots b base slots) ∧ (m.loadSlots b base slots).mem = m.mem := by
  induction slots generalizing m with
  | nil => exact ⟨⟨fun _ _ => rfl, fun _ _ => rfl, rfl, rfl⟩, rfl⟩
  | cons s slots ih =>
    obtain ⟨later, mem⟩ := ih (m.set b s.1 (m.mem (word base s.2)))
    exact ⟨(elsewhere_set m b s.1 _).trans later, mem.trans (mem_set m b s.1 _)⟩

theorem loadSlots_get {m : Machine} {b : Bank} {base : UInt32} {slots : List (Reg × Nat)}
    (v : Reg → UInt32) (held : ∀ s ∈ slots, m.mem (word base s.2) = v s.1) (q : Reg) :
    (m.loadSlots b base slots).get b q = if q ∈ slots.map Prod.fst then v q else m.get b q := by
  induction slots generalizing m with
  | nil => rfl
  | cons s slots ih =>
    simp only [List.forall_mem_cons] at held
    have still : ∀ t ∈ slots, (m.set b s.1 (m.mem (word base s.2))).mem (word base t.2) = v t.1 := by
      rw [mem_set]
      exact held.2
    change ((m.set b s.1 _).loadSlots b base slots).get b q = _
    rw [ih still, get_set]
    by_cases later : q ∈ slots.map Prod.fst
    · simp [later]
    · by_cases here : q = s.1
      · simp [here, held.1]
      · simp [later, here]

theorem push_slots {rs : List Reg} (short : rs.length ≤ 2 ^ 30) (mem : Memory) (base : UInt32)
    (v : Reg → UInt32) :
    (∀ s ∈ rs.zipIdx, fill mem base (rs.zipIdx.map fun s => (s.2, v s.1)) (word base s.2) = v s.1) ∧
    ∀ a, (∀ i < rs.length, a ≠ word base i) →
      fill mem base (rs.zipIdx.map fun s => (s.2, v s.1)) a = mem a := by
  have order : (rs.zipIdx.map fun s => (s.2, v s.1)).map Prod.fst = List.range rs.length := by
    rw [List.map_map]
    exact (List.zipIdx_map_snd 0 rs).trans (List.range_eq_range' ..).symm
  have bound : ∀ p ∈ rs.zipIdx.map fun s => (s.2, v s.1), p.1 < rs.length := by
    intro p inside
    have below := List.mem_map_of_mem (f := Prod.fst) inside
    rw [order, List.mem_range] at below
    exact below
  constructor
  · intro s inside
    apply fill_inside
    · intro p member
      exact Nat.lt_of_lt_of_le (bound p member) short
    · rw [order]
      exact List.nodup_range
    · exact List.mem_map.mpr ⟨s, inside, rfl⟩
  · intro a other
    apply fill_other
    intro p inside
    exact other p.1 (bound p inside)

end Arm
