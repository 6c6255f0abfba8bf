import EmbeddedOS.Mmu.Machine

/-! What a maintenance operation establishes, and what is known of it along some code. -/
namespace EmbeddedOS.Mmu
open Steps

inductive Entry where
  | tlb (e : TlbEntry)
  | btb (b : BtbEntry)
  | line (l : Line)
  | data (addr : UInt32) (l : DLine)

def Entry.old : Entry → Bool
  | .tlb e => e.old
  | .btb b => b.old
  | .line l => l.old
  | .data _ l => l.old

def Held.has (h : Held) : Entry → Prop
  | .tlb e => e ∈ h.tlb
  | .btb b => b ∈ h.btb
  | .line l => l ∈ h.icache
  | .data addr l => h.dcache addr = some l

def Fetched.uses (f : Fetched) : Entry → Prop
  | .tlb e => f.through = some e
  | .line l => f.line = some l
  | _ => False

def Op.clears : Op → Entry → Bool
  | .invTlb, .tlb _ => true
  | .invDcache, .data _ _ => true
  | .cleanInvDcache, .data _ _ => true
  | .invIcache, .line _ => true
  | .flushBtb, .btb _ => true
  | _, _ => false

theorem has_effect {h : Held} {op : Op} {x : Entry} (inside : (h.effect op).has x) :
    h.has x ∧ op.clears x = false := by
  cases op <;> cases x <;> simp_all [Held.effect, Held.has, Op.clears]

variable {slot : Tables → UInt32 → UInt32}

def Fill.brings (slot : Tables → UInt32 → UInt32) (h : Held) (v : Cp15) : Fill → Option Entry
  | .walk page => some (.tlb ⟨v, page, h.memory (slot v.tables page), false⟩)
  | .record branch target => some (.btb ⟨v, branch, target, false⟩)
  | .icache addr => some (.line ⟨addr, false⟩)
  | .dcache addr => some (.data addr ⟨h.memory addr, false, false⟩)
  | .evict _ => none

theorem mem_appended {α : Type} {l : List α} {a x : α} (inside : a ∈ l ++ [x]) : a ∈ l ∨ x = a := by
  rcases List.mem_append.mp inside with before | new
  · exact Or.inl before
  · exact Or.inr (List.mem_singleton.mp new).symm

theorem has_fill {h : Held} {v : Cp15} {f : Fill} {x : Entry} (inside : (h.fill slot v f).has x) :
    h.has x ∨ f.brings slot h v = some x := by
  cases f with
  | walk page =>
    dsimp only [Held.fill] at inside
    split at inside
    · cases x with
      | tlb e => exact (mem_appended inside).imp_right fun new => congrArg (some ∘ Entry.tlb) new
      | _ => exact Or.inl inside
    · exact Or.inl inside
  | record branch target =>
    cases x with
    | btb b => exact (mem_appended inside).imp_right fun new => congrArg (some ∘ Entry.btb) new
    | _ => exact Or.inl inside
  | icache addr =>
    dsimp only [Held.fill] at inside
    split at inside
    · cases x with
      | line l => exact (mem_appended inside).imp_right fun new => congrArg (some ∘ Entry.line) new
      | _ => exact Or.inl inside
    · exact Or.inl inside
  | dcache addr =>
    dsimp only [Held.fill] at inside
    split at inside
    · cases x with
      | data a l =>
        rcases eq_or_ne a addr with rfl | other
        · simp_all [Held.has, Fill.brings]
        · simp_all [Held.has]
      | _ => exact Or.inl inside
    · exact Or.inl inside
  | evict addr =>
    cases x with
    | data a l =>
      rcases eq_or_ne a addr with rfl | other
      · simp_all [Held.fill, Held.has]
      · simp_all [Held.fill, Held.has]
    | _ => exact Or.inl inside

theorem fetched_has {s : Machine} {through : Option TlbEntry} {line : Option Line}
    (can : s.canFetch through line) {x : Entry}
    (uses : Fetched.uses ⟨s.seen, through, line, false⟩ x) : s.held.has x := by
  unfold Machine.canFetch at can
  cases x with
  | tlb e =>
    change through = some e at uses
    rw [uses] at can
    exact can.1.2.1
  | line l =>
    change line = some l at uses
    rw [uses] at can
    exact can.2.2
  | _ => exact uses.elim

inductive Moved (slot : Tables → UInt32 → UInt32) (h : Held) : Held → Prop where
  | effect (op : Op) : Moved slot h (h.effect op)
  | fill (v : Cp15) (f : Fill) : Moved slot h (h.fill slot v f)

/-- No entry is stale. An operation clears the stale ones, and afterwards none come in, as long as
what it found ready stays and only some fills happen. -/
structure Goal (slot : Tables → UInt32 → UInt32) where
  op : Option Op
  ready : Held → Prop
  stale : Held → Entry → Prop
  allows : Cp15 → Fill → Prop
  readied : ∀ {h h'}, ready h → Moved slot h h' → ready h'
  still : ∀ {h h' x}, ready h → Moved slot h h' → stale h' x → stale h x
  cleared : ∀ {h x o}, op = some o → stale h x → o.clears x = true
  fresh : ∀ {h v f x}, ready h → allows v f → f.brings slot h v = some x → ¬ stale h x

namespace Goal

variable (g : Goal slot)

def holds (h : Held) : Prop := ∀ x, h.has x → ¬ g.stale h x

variable {g}

theorem holds_effect {h : Held} (ready : g.ready h) (op : Op) (holds : g.holds h) :
    g.holds (h.effect op) := fun x inside stale =>
  holds x (has_effect inside).1 (g.still ready (.effect op) stale)

theorem holds_achieved {op : Op} (mine : g.op = some op) (h : Held) : g.holds (h.effect op) := by
  intro x inside stale
  have kept := (has_effect inside).2
  rw [g.cleared mine stale] at kept
  cases kept

theorem holds_fill {h : Held} {v : Cp15} {f : Fill} (ready : g.ready h) (allowed : g.allows v f)
    (holds : g.holds h) : g.holds (h.fill slot v f) := by
  intro x inside stale
  have before := g.still ready (.fill v f) stale
  rcases has_fill inside with here | new
  · exact holds x here before
  · exact g.fresh ready allowed new before

theorem ready_fold {h : Held} (ready : g.ready h) (ops : List Op) :
    g.ready (ops.foldl Held.effect h) := by
  induction ops generalizing h with
  | nil => exact ready
  | cons op ops ih => exact ih (g.readied ready (.effect op))

theorem holds_fold {h : Held} (ready : g.ready h) {ops : List Op}
    (known : g.holds h ∨ ∃ op ∈ ops, g.op = some op) : g.holds (ops.foldl Held.effect h) := by
  induction ops generalizing h with
  | nil =>
    rcases known with holds | ⟨op, none, -⟩
    · exact holds
    · cases none
  | cons first ops ih =>
    apply ih (g.readied ready (.effect first))
    rcases known with holds | ⟨op, inside, mine⟩
    · exact Or.inl (holds_effect ready first holds)
    · rcases List.mem_cons.mp inside with rfl | later
      · exact Or.inl (holds_achieved mine h)
      · exact Or.inr ⟨op, later, mine⟩

end Goal

/-- How far a goal is: its operation can be issued, is issued, is complete, and no instruction is
in the prefetch buffer that was fetched before. -/
inductive Status where
  | ready | issued | done | flushed
  deriving DecidableEq

namespace Goal

variable (g : Goal slot)

def waits (s : Machine) : Prop := ∃ op ∈ s.pending, g.op = some op

def known (st : Status) (s : Machine) : Prop :=
  match st with
  | .ready => g.ready s.held
  | .issued => g.ready s.held ∧ (g.holds s.held ∨ g.waits s)
  | .done => g.ready s.held ∧ g.holds s.held ∧ ¬ g.waits s
  | .flushed => g.ready s.held ∧ g.holds s.held ∧ ¬ g.waits s ∧
      ∀ f ∈ s.buffer, ∀ x, f.uses x → ¬ g.stale s.held x

def after (st : Status) : Effect → Status
  | .write _ => st
  | .issue op => if g.op = some op then .issued else st
  | .dsb => if st = .issued ∧ g.op.any (fun op => !op.ofBtb) then .done else st
  | .prefetchFlush =>
    match st with
    | .ready => .ready
    | .issued => if g.op.any Op.ofBtb then .flushed else .issued
    | .done => .flushed
    | .flushed => .flushed

variable {g}

theorem known_ready {s : Machine} {st : Status} (known : g.known st s) : g.ready s.held := by
  cases st with
  | ready => exact known
  | issued => exact known.1
  | done => exact known.1
  | flushed => exact known.1

theorem stale_fold {h : Held} {x : Entry} (ready : g.ready h) {ops : List Op}
    (stale : g.stale (ops.foldl Held.effect h) x) : g.stale h x := by
  induction ops generalizing h with
  | nil => exact stale
  | cons op ops ih => exact g.still ready (.effect op) (ih (g.readied ready (.effect op)) stale)

theorem waits_filter {s t : Machine} {which : Op → Bool}
    (fewer : t.pending = s.pending.filter which) (waits : g.waits t) : g.waits s := by
  obtain ⟨op, inside, mine⟩ := waits
  rw [fewer] at inside
  exact ⟨op, (List.mem_filter.mp inside).1, mine⟩

theorem complete_mine {s : Machine} (which : Op → Bool)
    (mine : ∀ op, g.op = some op → which op = true) (ready : g.ready s.held)
    (known : g.holds s.held ∨ g.waits s) :
    g.holds (s.complete which).held ∧ ¬ g.waits (s.complete which) := by
  constructor
  · refine holds_fold ready (known.imp_right ?_)
    rintro ⟨op, inside, own⟩
    exact ⟨op, List.mem_filter.mpr ⟨inside, mine op own⟩, own⟩
  · rintro ⟨op, inside, own⟩
    have left := (List.mem_filter.mp inside).2
    rw [mine op own] at left
    cases left

theorem complete_other {s : Machine} (which : Op → Bool)
    (other : ∀ op, g.op = some op → which op = false) (ready : g.ready s.held)
    (known : g.holds s.held ∨ g.waits s) :
    g.holds (s.complete which).held ∨ g.waits (s.complete which) := by
  rcases known with holds | ⟨op, inside, own⟩
  · exact Or.inl (holds_fold ready (Or.inl holds))
  · refine Or.inr ⟨op, List.mem_filter.mpr ⟨inside, ?_⟩, own⟩
    rw [other op own]
    rfl

theorem complete_done {s : Machine} (which : Op → Bool) (ready : g.ready s.held)
    (holds : g.holds s.held) (none : ¬ g.waits s) :
    g.holds (s.complete which).held ∧ ¬ g.waits (s.complete which) :=
  ⟨holds_fold ready (Or.inl holds), fun waits => none (waits_filter rfl waits)⟩

theorem issue_known {s : Machine} {st : Status} (known : g.known st s) (x : UInt32) (op : Op) :
    g.known (g.after st (.issue op)) (s.effect x (.issue op)) := by
  have ready := known_ready known
  unfold after
  dsimp only
  split
  · rename_i mine
    exact ⟨ready, Or.inr ⟨op, List.mem_append_right _ (List.mem_singleton.mpr rfl), mine⟩⟩
  · rename_i other
    have same : g.waits (s.effect x (.issue op)) → g.waits s := by
      rintro ⟨op', inside, mine⟩
      rcases mem_appended inside with before | rfl
      · exact ⟨op', before, mine⟩
      · exact absurd mine other
    cases st with
    | ready => exact ready
    | issued =>
      refine ⟨ready, known.2.imp_right ?_⟩
      rintro ⟨op', inside, mine⟩
      exact ⟨op', List.mem_append_left _ inside, mine⟩
    | done => exact ⟨ready, known.2.1, fun waits => known.2.2 (same waits)⟩
    | flushed => exact ⟨ready, known.2.1, fun waits => known.2.2.1 (same waits), known.2.2.2⟩

theorem dsb_known {s : Machine} {st : Status} (known : g.known st s) (x : UInt32) :
    g.known (g.after st .dsb) (s.effect x .dsb) := by
  have ready := ready_fold (known_ready known) (s.pending.filter fun op => !op.ofBtb)
  cases st with
  | ready => exact ready
  | issued =>
    unfold after
    dsimp only
    split
    · rename_i mine
      refine ⟨ready, complete_mine _ ?_ known.1 known.2⟩
      intro op own
      simpa [own] using mine
    · rename_i other
      refine ⟨ready, complete_other _ ?_ known.1 known.2⟩
      intro op own
      simpa [own] using other
  | done => exact ⟨ready, complete_done _ known.1 known.2.1 known.2.2⟩
  | flushed =>
    obtain ⟨holds, none⟩ := complete_done (fun op => !op.ofBtb) known.1 known.2.1 known.2.2.1
    exact ⟨ready, holds, none, fun f inside y uses stale =>
      known.2.2.2 f inside y uses (stale_fold known.1 stale)⟩

theorem prefetchFlush_known {s : Machine} {st : Status} (known : g.known st s) (x : UInt32) :
    g.known (g.after st .prefetchFlush) (s.effect x .prefetchFlush) := by
  have ready := ready_fold (known_ready known) (s.pending.filter Op.ofBtb)
  cases st with
  | ready => exact ready
  | issued =>
    unfold after
    dsimp only
    split
    · rename_i mine
      obtain ⟨holds, none⟩ := complete_mine Op.ofBtb
        (fun op own => by simpa [own] using mine) known.1 known.2
      exact ⟨ready, holds, none, nofun⟩
    · rename_i other
      refine ⟨ready, complete_other _ ?_ known.1 known.2⟩
      intro op own
      simpa [own] using other
  | done =>
    obtain ⟨holds, none⟩ := complete_done Op.ofBtb known.1 known.2.1 known.2.2
    exact ⟨ready, holds, none, nofun⟩
  | flushed =>
    obtain ⟨holds, none⟩ := complete_done Op.ofBtb known.1 known.2.1 known.2.2.1
    exact ⟨ready, holds, none, nofun⟩

theorem effect_known {s : Machine} {st : Status} (known : g.known st s) (x : UInt32) (e : Effect) :
    g.known (g.after st e) (s.effect x e) := by
  cases e with
  | write r => cases st <;> exact known
  | issue op => exact issue_known known x op
  | dsb => exact dsb_known known x
  | prefetchFlush => exact prefetchFlush_known known x

end Goal

def Instr.effect : Instr → Option Effect
  | .mcr _ crn crm op2 => effectOf crn crm op2
  | _ => none

def Goal.next (g : Goal slot) (st : Status) (i : Instr) : Status :=
  match i.effect with
  | some e => g.after st e
  | none => st

namespace Goal

variable {g : Goal slot}

theorem exec_known {s : Machine} {st : Status} (i : Instr) (known : g.known st s) :
    g.known (g.next st i) (Machine.exec i s) := by
  cases i with
  | mcr d crn crm op2 =>
    unfold next Instr.effect Machine.exec
    dsimp only
    cases effectOf crn crm op2 with
    | none => exact known
    | some e => exact effect_known known _ e
  | mrc d crn crm op2 =>
    unfold next Instr.effect Machine.exec
    dsimp only
    split
    · cases st <;> exact known
    · exact known
  | mov d v => cases st <;> exact known
  | bic d n v => cases st <;> exact known
  | nop => exact known

theorem mem_erased {α : Type} {l : List α} {i : Nat} {a b : α} (there : l[i]? = some b)
    (inside : a ∈ l) : a ∈ l.eraseIdx i ∨ a = b := by
  obtain ⟨bound, here⟩ := List.getElem?_eq_some_iff.mp there
  rw [List.eraseIdx_eq_take_drop_succ]
  rw [← List.take_append_drop i l, List.drop_eq_getElem_cons bound, here] at inside
  simp only [List.mem_append, List.mem_cons] at inside ⊢
  tauto

/-- The hardware leaves what is known, where it only brings in what is allowed or what the
operation will clear. -/
theorem act_known {s : Machine} {st : Status} {a : Hw} (known : g.known st s)
    (fair : ∀ f, a = .fill f → g.waits s ∨ g.allows s.seen f) : g.known st (s.act slot a) := by
  cases a with
  | see =>
    unfold Machine.act
    dsimp only
    split
    · exact known
    · cases st <;> exact known
  | finish i =>
    unfold Machine.act
    dsimp only
    split
    · exact known
    · rename_i op there
      have ready := g.readied (known_ready known) (.effect op)
      have fewer : ¬ g.waits s → ¬ ∃ op' ∈ s.pending.eraseIdx i, g.op = some op' := by
        rintro none ⟨op', inside, mine⟩
        exact none ⟨op', List.mem_of_mem_eraseIdx inside, mine⟩
      cases st with
      | ready => exact ready
      | issued =>
        refine ⟨ready, ?_⟩
        rcases known.2 with holds | ⟨op', inside, mine⟩
        · exact Or.inl (holds_effect known.1 op holds)
        · rcases mem_erased there inside with left | rfl
          · exact Or.inr ⟨op', left, mine⟩
          · exact Or.inl (holds_achieved mine s.held)
      | done => exact ⟨ready, holds_effect known.1 op known.2.1, fewer known.2.2⟩
      | flushed =>
        refine ⟨ready, holds_effect known.1 op known.2.1, fewer known.2.2.1, ?_⟩
        intro f inside x uses stale
        exact known.2.2.2 f inside x uses (g.still known.1 (.effect op) stale)
  | fill f =>
    have ready := g.readied (known_ready known) (.fill s.seen f)
    have filled (holds : g.holds s.held) (none : ¬ g.waits s) :
        g.holds (s.held.fill slot s.seen f) :=
      holds_fill (known_ready known) ((fair f rfl).resolve_left none) holds
    cases st with
    | ready => exact ready
    | issued =>
      refine ⟨ready, ?_⟩
      rcases Classical.em (g.waits s) with waits | none
      · exact Or.inr waits
      · exact Or.inl (filled (known.2.resolve_right none) none)
    | done => exact ⟨ready, filled known.2.1 known.2.2, known.2.2⟩
    | flushed =>
      refine ⟨ready, filled known.2.1 known.2.2.1, known.2.2.1, ?_⟩
      intro f' inside x uses stale
      exact known.2.2.2 f' inside x uses (g.still known.1 (.fill s.seen f) stale)
  | fetch through line =>
    unfold Machine.act
    dsimp only
    split
    · rename_i can
      cases st with
      | ready => exact known
      | issued => exact known
      | done => exact known
      | flushed =>
        refine ⟨known.1, known.2.1, known.2.2.1, ?_⟩
        intro f inside x uses
        rcases mem_appended inside with before | rfl
        · exact known.2.2.2 f before x uses
        · exact known.2.1 x (fetched_has can uses)
    · exact known

/-- What is known at the end of some code can be read off it. -/
theorem reached {around : List Instr → Machine → Machine → Prop} {code : List Instr}
    {s t : Machine} {st : Status} (allowed : ∀ v f, g.allows v f)
    (acts : Acts slot around) (known : g.known st s)
    (run : Amid Machine.exec around code s t) : g.known (code.foldl g.next st) t := by
  have left : ∀ st ahead s t, ahead <:+ code → g.known st s → around ahead s t → g.known st t := by
    intro st ahead s t _ known moved
    obtain ⟨a, rfl⟩ := acts ahead s t moved
    exact act_known known fun f _ => Or.inr (allowed s.seen f)
  exact Amid.known left (fun st i _ s => exec_known i) known run

end Goal

end EmbeddedOS.Mmu
