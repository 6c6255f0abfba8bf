import EmbeddedOS.Arm.Bus
import EmbeddedOS.EquivThreads.Threads

/-! The fault handler of equiv-threads.c on the blocks in memory, and the words that it accesses. -/
namespace EmbeddedOS.EquivThreads
open Arm FullExcept Linked OnBus

section Layout

variable (th : UInt32)

def regsAt (i : Fin 17) : UInt32 := word th i
def nextAt : UInt32 := word th 17
def regHashAt : UInt32 := word th 19
def tidAt : UInt32 := word th 20
def instCntAt : UInt32 := word th 26
def verbosePAt : UInt32 := word th 27

/-- The words of an `eq_th_t`: the registers, `next`, `expected_hash`, `reg_hash`, `tid`, `fn`, `arg`,
`stack_start`, `stack_end`, `refork_cnt`, `inst_cnt` and `verbose_p`. -/
def blockWords : Nat := 28

end Layout

section Code

def pointer (x : UInt32) : Option UInt32 := if x = 0 then none else some x

def eqPopMem (q : Ends UInt32) : OnBus (Option UInt32 × Ends UInt32) :=
  match q.head with
  | none => if q.tail.isNone then pure (none, q) else stop
  | some e => do
    let head := pointer (← load (nextAt e))
    pure (some e, ⟨head, if head.isNone then none else q.tail⟩)

def eqAppendMem (q : Ends UInt32) (e : UInt32) : OnBus (Ends UInt32) := do
  store (nextAt e) 0
  match q.tail with
  | none => pure ⟨some e, some e⟩
  | some tail => do
    store (nextAt tail) e
    pure ⟨q.head, some e⟩

/-- The pc for the mismatch, the mode and then all the registers are loaded. -/
def mismatchRunMem (th : UInt32) : OnBus (List UInt32) := do
  let _ ← load (regsAt th 15)
  let _ ← load (regsAt th 16)
  loadWords th 17

def ifSet (flag : UInt32) (x : OnBus Unit) : OnBus Unit := if flag = 0 then pure () else x

def outputSwitch (cur th : UInt32) : OnBus Unit := do
  let _ ← load (tidAt cur)
  let _ ← load (regsAt cur 15)
  let _ ← load (tidAt th)
  let _ ← load (regsAt th 15)
  let _ ← load (regsAt th 13)

def equivScheduleMem (q : Ends UInt32) (cur : UInt32) :
    OnBus (Ends UInt32 × UInt32 × List UInt32) := do
  let (e, q) ← eqPopMem q
  match e with
  | none => do
    let regs ← mismatchRunMem cur
    pure (q, cur, regs)
  | some th => do
    let verbose ← load (verbosePAt th)
    ifSet verbose (outputSwitch cur th)
    let q ← eqAppendMem q cur
    let regs ← mismatchRunMem th
    pure (q, th, regs)

def outputHash (th : UInt32) : OnBus Unit := do
  let _ ← load (tidAt th)
  let _ ← load (instCntAt th)
  let _ ← load (regHashAt th)

def equivHashHandlerMem (q : Ends UInt32) (th : UInt32) (r : Regs) :
    OnBus (Ends UInt32 × UInt32 × List UInt32) := do
  storeWords th 0 (List.ofFn r)
  let cnt ← load (instCntAt th)
  store (instCntAt th) (cnt + 1)
  let hash ← load (regHashAt th)
  let regs ← loadWords th 17
  store (regHashAt th) (fastHashInc32 regs hash)
  let verbose ← load (verbosePAt th)
  ifSet verbose (outputHash th)
  equivScheduleMem q th

end Code

section Accesses

def FieldOf (made : UInt32 → Prop) (x : UInt32) : Prop :=
  ∃ th, made th ∧ ∃ i < blockWords, x = word th i

variable {made : UInt32 → Prop} {th : UInt32} {q : Ends UInt32}

theorem field_of (known : made th) {i : Nat} (small : i < blockWords) : FieldOf made (word th i) :=
  ⟨th, known, i, small, rfl⟩

theorem within_field (known : made th) {i : Nat} (small : i < blockWords) :
    Within (FieldOf made) (load (word th i)) := within_load (field_of known small)

theorem within_set (known : made th) {i : Nat} (small : i < blockWords) (v : UInt32) :
    Within (FieldOf made) (store (word th i) v) := within_store (field_of known small)

theorem within_regs (known : made th) : Within (FieldOf made) (loadWords th 17) :=
  within_loadWords fun _ small => field_of known (Nat.lt_trans small (by decide))

theorem within_run (known : made th) : Within (FieldOf made) (mismatchRunMem th) :=
  within_bind (within_field known (by decide)) fun _ =>
    within_bind (within_field known (by decide)) fun _ => within_regs known

theorem within_pop (head : ∀ b, q.head = some b → made b) :
    Within (FieldOf made) (eqPopMem q) := by
  unfold eqPopMem
  cases first : q.head with
  | none =>
    simp only
    split_ifs
    · exact within_pure _
    · exact within_stop
  | some e => exact within_bind (within_field (head e first) (by decide)) fun _ => within_pure _

/-- What is popped was at the head, and the last of the queue stays its last. -/
theorem pop_returns : Returns (fun out => out.1 = q.head ∧ (out.2.tail = none ∨ out.2.tail = q.tail))
    (eqPopMem q) := by
  intro b b' out done
  unfold eqPopMem at done
  cases first : q.head with
  | none =>
    simp only [first] at done
    split_ifs at done
    · cases done
      exact ⟨rfl, Or.inr rfl⟩
    · cases done
  | some e =>
    simp only [first] at done
    cases done
    refine ⟨rfl, ?_⟩
    simp only
    split_ifs
    · exact Or.inl rfl
    · exact Or.inr rfl

theorem within_append (known : made th) (tail : ∀ b, q.tail = some b → made b) :
    Within (FieldOf made) (eqAppendMem q th) := by
  refine within_bind (within_set known (by decide) 0) fun _ => ?_
  cases last : q.tail with
  | none => exact within_pure _
  | some e => exact within_bind (within_set (tail e last) (by decide) th) fun _ => within_pure _

theorem within_ifSet (flag : UInt32) {x : OnBus Unit} (rest : Within (FieldOf made) x) :
    Within (FieldOf made) (ifSet flag x) := by
  unfold ifSet
  split_ifs
  · exact within_pure _
  · exact rest

theorem within_switch {cur : UInt32} (known : made cur) (known' : made th) :
    Within (FieldOf made) (outputSwitch cur th) :=
  within_bind (within_field known (by decide)) fun _ =>
    within_bind (within_field known (by decide)) fun _ =>
      within_bind (within_field known' (by decide)) fun _ =>
        within_bind (within_field known' (by decide)) fun _ =>
          within_bind (within_field known' (by decide)) fun _ => within_pure _

theorem within_hash (known : made th) : Within (FieldOf made) (outputHash th) :=
  within_bind (within_field known (by decide)) fun _ =>
    within_bind (within_field known (by decide)) fun _ =>
      within_bind (within_field known (by decide)) fun _ => within_pure _

theorem within_schedule (known : made th) (head : ∀ b, q.head = some b → made b)
    (tail : ∀ b, q.tail = some b → made b) : Within (FieldOf made) (equivScheduleMem q th) := by
  refine within_bind_of (within_pop head) pop_returns ?_
  rintro ⟨e, q'⟩ ⟨popped, last⟩
  have tail' : ∀ b, q'.tail = some b → made b := by
    intro b here
    obtain empty | same := last
    · cases here.symm.trans empty
    · exact tail b (same.symm.trans here)
  cases e with
  | none => exact within_bind (within_run known) fun _ => within_pure _
  | some next =>
    have known' : made next := head next popped.symm
    refine within_bind (within_field known' (by decide)) fun verbose => ?_
    refine within_bind (within_ifSet verbose (within_switch known known')) fun _ => ?_
    refine within_bind (within_append known tail') fun _ => ?_
    exact within_bind (within_run known') fun _ => within_pure _

/-- The handler accesses nothing but fields of the current thread and of the two that the queue
begins and ends with. -/
theorem within_handler (known : made th) (head : ∀ b, q.head = some b → made b)
    (tail : ∀ b, q.tail = some b → made b) (r : Regs) :
    Within (FieldOf made) (equivHashHandlerMem q th r) := by
  have saves : Within (FieldOf made) (storeWords th 0 (List.ofFn r)) := by
    apply within_storeWords
    intro j small
    rw [Nat.zero_add]
    rw [List.length_ofFn] at small
    exact field_of known (Nat.lt_trans small (by decide))
  refine within_bind saves fun _ => ?_
  refine within_bind (within_field known (by decide)) fun cnt => ?_
  refine within_bind (within_set known (by decide) _) fun _ => ?_
  refine within_bind (within_field known (by decide)) fun hash => ?_
  refine within_bind (within_regs known) fun regs => ?_
  refine within_bind (within_set known (by decide) _) fun _ => ?_
  refine within_bind (within_field known (by decide)) fun verbose => ?_
  exact within_bind (within_ifSet verbose (within_hash known)) fun _ => within_schedule known head tail

/-- The print flag, the last field of the current thread's block, is always accessed. -/
theorem handler_accesses (q : Ends UInt32) (th : UInt32) (r : Regs) :
    Accesses (verbosePAt th) (equivHashHandlerMem q th r) := by
  have rest (verbose : UInt32) : Within (FieldOf fun _ => True) (do
      ifSet verbose (outputHash th)
      equivScheduleMem q th) :=
    within_bind (within_ifSet verbose (within_hash trivial)) fun _ =>
      within_schedule trivial (fun _ _ => trivial) (fun _ _ => trivial)
  refine accesses_later (goes_storeWords _ _ _) fun _ => ?_
  refine accesses_later (goes_load _) fun cnt => ?_
  refine accesses_later (goes_store _ _) fun _ => ?_
  refine accesses_later (goes_load _) fun hash => ?_
  refine accesses_later (goes_loadWords _ _) fun regs => ?_
  refine accesses_later (goes_store _ _) fun _ => ?_
  exact accesses_first (accesses_load _) (goes_load _) rest

end Accesses

end EmbeddedOS.EquivThreads
