import EmbeddedOS.Serial.Run

/-! Two programs joined by a reliable wire in each direction.
What one end has sent is what the other can take, in order. The ends run in any
order, but a step of one never disables or changes a step of the other: all
schedules that can still move lead to the same end. -/
namespace Serial

structure Net (ι σ τ α β : Type) where
  left : Node ι σ α
  right : Node ι τ β

namespace Net

variable {ι σ τ α β : Type}

inductive Step : Net ι σ τ α β → Net ι σ τ α β → Prop where
  | left {l l' : Node ι σ α} {r : Node ι τ β} (fires : l.next r.ctx.sent = some l') :
      Step ⟨l, r⟩ ⟨l', r⟩
  | right {l : Node ι σ α} {r r' : Node ι τ β} (fires : r.next l.ctx.sent = some r') :
      Step ⟨l, r⟩ ⟨l, r'⟩

def Reaches : Net ι σ τ α β → Net ι σ τ α β → Prop := Relation.ReflTransGen Step

/-- Both ends have come to the end of their runs. -/
def Finished (n : Net ι σ τ α β) : Prop := n.left.Finished ∧ n.right.Finished

/-- No end can go on, whatever its registers read: each waits for a byte that is not
there or is at its end, and not both are at their ends. -/
def Deadlocked (n : Net ι σ τ α β) : Prop :=
  (n.left.starving n.right.ctx.sent = true ∨ n.left.Finished) ∧
    (n.right.starving n.left.ctx.sent = true ∨ n.right.Finished) ∧ ¬ n.Finished

def bindLeft {γ : Type} (n : Net ι σ τ γ β) (k : γ → Proc ι σ α) : Net ι σ τ α β :=
  ⟨⟨n.left.code >>= k, n.left.ctx⟩, n.right⟩

def more (n : Net ι σ τ α β) (e : List ι) : Net ι σ τ α β := ⟨n.left.more e, n.right⟩

section Schedules

theorem next_later {n m : Node ι σ α} {w w' : List UInt8} (grown : w <+: w')
    (fires : n.next w = some m) : n.next w' = some m := by
  obtain ⟨later, rfl⟩ := grown
  exact ((Node.fire_cases fires).longer later).fire

/-- The diamond: different next steps can be completed to the same state. -/
theorem step_diamond {n a b : Net ι σ τ α β} (ha : Step n a) (hb : Step n b) :
    a = b ∨ ∃ c, Step a c ∧ Step b c := by
  cases ha with
  | left hl =>
    cases hb with
    | left hl' => exact .inl (by rw [Option.some.inj (hl.symm.trans hl')])
    | right hr =>
      have grownL := (Node.fire_cases hl).grows.1
      have grownR := (Node.fire_cases hr).grows.1
      exact .inr ⟨_, .right (next_later grownL hr), .left (next_later grownR hl)⟩
  | right hr =>
    cases hb with
    | right hr' => exact .inl (by rw [Option.some.inj (hr.symm.trans hr')])
    | left hl =>
      have grownL := (Node.fire_cases hl).grows.1
      have grownR := (Node.fire_cases hr).grows.1
      exact .inr ⟨_, .left (next_later grownR hl), .right (next_later grownL hr)⟩

theorem finished_stops {n m : Net ι σ τ α β} (done : n.Finished) : ¬ Step n m := by
  intro step
  cases step with
  | left h => rw [Node.finished_next done.1] at h; cases h
  | right h => rw [Node.finished_next done.2] at h; cases h

theorem finished_reaches {n m : Net ι σ τ α β} (done : n.Finished) (run : Reaches n m) : m = n := by
  rcases run.cases_head with h | ⟨x, h, _⟩
  · exact h.symm
  · exact (finished_stops done h).elim

/-- If one schedule comes to an end, every state that any schedule reaches can
still come to that same end. -/
theorem reaches_end {n m e : Net ι σ τ α β} (done : e.Finished) (finishes : Reaches n e)
    (run : Reaches n m) : Reaches m e := by
  have meet : Relation.Join Reaches m e := by
    apply Relation.church_rosser _ run finishes
    intro a b c hb hc
    rcases step_diamond hb hc with rfl | ⟨d, hbd, hcd⟩
    · exact ⟨b, .refl, .refl⟩
    · exact ⟨d, .single hbd, .single hcd⟩
  obtain ⟨d, hm, he⟩ := meet
  rwa [finished_reaches done he] at hm

theorem deadlocked_stops {n m : Net ι σ τ α β} (dead : n.Deadlocked) : ¬ Step n m := by
  obtain ⟨left, right, _⟩ := dead
  intro step
  cases step with
  | left h =>
    rcases left with starves | done
    · rw [Node.starving_next starves] at h; cases h
    · rw [Node.finished_next done] at h; cases h
  | right h =>
    rcases right with starves | done
    · rw [Node.starving_next starves] at h; cases h
    · rw [Node.finished_next done] at h; cases h

/-- A state that some schedule can bring to an end is not dead. -/
theorem reaches_not_deadlocked {n e : Net ι σ τ α β} (done : e.Finished) (run : Reaches n e) :
    ¬ n.Deadlocked := by
  intro dead
  rcases run.cases_head with rfl | ⟨x, step, _⟩
  · exact dead.2.2 done
  · exact deadlocked_stops dead step

theorem deadlocked_more {n : Net ι σ τ α β} (e : List ι) (dead : n.Deadlocked) :
    (n.more e).Deadlocked := by
  obtain ⟨left, right, unfinished⟩ := dead
  refine ⟨left.imp_right (Node.finished_more e).mpr, right, ?_⟩
  intro done
  exact unfinished ⟨(Node.finished_more e).mp done.1, done.2⟩

theorem reaches_more (e : List ι) {n m : Net ι σ τ α β} (run : Reaches n m) :
    Reaches (n.more e) (m.more e) := by
  refine Relation.ReflTransGen.lift (fun a : Net ι σ τ α β => a.more e) ?_ n m run
  intro a b step
  cases step with
  | left h => exact .left ((Node.fire_cases h).more e).fire
  | right h => exact .right h

end Schedules

section Ends

variable {n m : Net ι σ τ α β}

theorem step_left {l l' : Node ι σ α} {r : Node ι τ β} (steps : Node.Steps r.ctx.sent l l') :
    Reaches ⟨l, r⟩ ⟨l', r⟩ :=
  Relation.ReflTransGen.lift (fun x : Node ι σ α => (⟨x, r⟩ : Net ι σ τ α β))
    (fun _ _ h => .left h) l l' steps

theorem step_right {l : Node ι σ α} {r r' : Node ι τ β} (steps : Node.Steps l.ctx.sent r r') :
    Reaches ⟨l, r⟩ ⟨l, r'⟩ :=
  Relation.ReflTransGen.lift (fun x : Node ι τ β => (⟨l, x⟩ : Net ι σ τ α β))
    (fun _ _ h => .right h) r r' steps

theorem reaches_bindLeft {γ : Type} {n m : Net ι σ τ γ β} (k : γ → Proc ι σ α)
    (run : Reaches n m) : Reaches (n.bindLeft k) (m.bindLeft k) := by
  refine Relation.ReflTransGen.lift (fun a : Net ι σ τ γ β => a.bindLeft k) ?_ n m run
  intro a b step
  cases step with
  | left h => exact .left (Node.fire_bind h)
  | right h => exact .right h

theorem reaches_grows (run : Reaches n m) :
    n.left.ctx.sent <+: m.left.ctx.sent ∧ n.right.ctx.sent <+: m.right.ctx.sent := by
  induction run with
  | refl => exact ⟨List.prefix_rfl, List.prefix_rfl⟩
  | tail _ step ih =>
    cases step with
    | left h => exact ⟨ih.1.trans (Node.fire_cases h).grows.1, ih.2⟩
    | right h => exact ⟨ih.1, ih.2.trans (Node.fire_cases h).grows.1⟩

/-- Seen from the left end, a run of the network is a run against the wire. -/
theorem left_alone (run : Reaches n m) : Node.Steps m.right.ctx.sent n.left m.left := by
  induction run with
  | refl => exact .refl
  | tail _ step ih =>
    cases step with
    | left h => exact ih.tail h
    | right h =>
      obtain ⟨later, grown⟩ := (Node.fire_cases h).grows.1
      rw [← grown]
      exact Node.steps_wire later ih

theorem right_alone (run : Reaches n m) : Node.Steps m.left.ctx.sent n.right m.right := by
  induction run with
  | refl => exact .refl
  | tail _ step ih =>
    cases step with
    | right h => exact ih.tail h
    | left h =>
      obtain ⟨later, grown⟩ := (Node.fire_cases h).grows.1
      rw [← grown]
      exact Node.steps_wire later ih

theorem left_stays (run : Reaches n m) (done : n.left.Finished) : m.left = n.left :=
  Node.finished_steps done (left_alone run)

theorem right_stays (run : Reaches n m) (done : n.right.Finished) : m.right = n.right :=
  Node.finished_steps done (right_alone run)

end Ends

end Net

end Serial
