import EmbeddedOS.Mailbox.Calls

/-! What the calls return is what was answered to their own message, whenever the graphics processor works. -/
namespace EmbeddedOS.Mailbox
open Mmio Gpu

/-- It does anything at any time. -/
def anything (_ : Gpu) (_ : Gpu.Move) : Prop := True

/-- The message for a tag, as it is handed over. -/
def request (tag : UInt32) : List UInt32 := [32, 0, tag, 8, 0, 0, 0, 0]

/-- No mail of this channel is under way, and L is what has been answered. -/
structure Idle (L : List Exchange) (s : Gpu) : Prop where
  requests : s.requests = []
  resting : s.working = none
  log : s.log = L
  others : ∀ v ∈ s.replies, channel v ≠ MBOX_CH

/-- The answer is in the message. -/
structure Told (msg : UInt32) (r : Reply) (ram : UInt32 → UInt32) : Prop where
  code : ram (word msg 1) = if r.ok then 0x80000000 else 0x80000001
  tag : ram (word msg 4) = r.tag
  first : ram (word msg 5) = r.first
  second : ram (word msg 6) = r.second

/-- The message for the tag has been sent: it waits, is worked on, or has been answered. -/
inductive Asked (L : List Exchange) (tag msg : UInt32) (s : Gpu) : Prop where
  | waiting (requests : s.requests = [mailFor msg]) (resting : s.working = none) (log : s.log = L)
      (others : ∀ v ∈ s.replies, channel v ≠ MBOX_CH) (asked : message s.ram msg = request tag)
  | working (requests : s.requests = []) (works : s.working = some (mailFor msg, request tag)) (log : s.log = L)
      (others : ∀ v ∈ s.replies, channel v ≠ MBOX_CH)
  | answered (r : Reply) (before after : List UInt32) (requests : s.requests = [])
      (resting : s.working = none) (log : s.log = L ++ [⟨request tag, r⟩])
      (replies : s.replies = before ++ mailFor msg :: after)
      (others : ∀ v ∈ before ++ after, channel v ≠ MBOX_CH) (told : Told msg r s.ram)

def Done (L : List Exchange) (tag msg : UInt32) (r : Reply) (s : Gpu) : Prop :=
  Idle (L ++ [⟨request tag, r⟩]) s ∧ Told msg r s.ram

section Moves

variable {L : List Exchange} {tag msg : UInt32} {s t : Gpu} {e : Gpu.Move}

theorem more_others {vs : List UInt32} {v : UInt32} (others : ∀ v ∈ vs, channel v ≠ MBOX_CH)
    (other : ¬ channel v = MBOX_CH) : ∀ w ∈ vs ++ [v], channel w ≠ MBOX_CH := by
  intro w there
  rcases List.mem_append.mp there with old | new
  · exact others w old
  · rw [List.mem_singleton.mp new]
    exact other

theorem Idle.acted (idle : Idle L s) (moved : Gpu.act e s = some t) : Idle L t ∧ t.ram = s.ram := by
  cases e with
  | take =>
    simp only [Gpu.act, idle.resting, idle.requests] at moved
    cases moved
  | write i w =>
    simp only [Gpu.act, idle.resting] at moved
    cases moved
  | answer r =>
    simp only [Gpu.act, idle.resting] at moved
    cases moved
  | mail v =>
    simp only [Gpu.act] at moved
    split at moved
    · cases moved
    next other =>
      cases moved
      exact ⟨⟨idle.requests, idle.resting, idle.log, more_others idle.others other⟩, rfl⟩

theorem told_answered (msg : UInt32) (r : Reply) (ram : UInt32 → UInt32) : Told msg r (answered ram msg r) := by
  constructor <;> simp (disch := decide) [answered, update, word_inj]

theorem Asked.acted (aligned : msg % 16 = 0) (low : msg < 0x40000000) (asked : Asked L tag msg s)
    (moved : Gpu.act e s = some t) : Asked L tag msg t := by
  cases asked with
  | waiting requests resting log others asked =>
    cases e with
    | take =>
      simp only [Gpu.act, resting, requests, mail_channel aligned, if_true, mail_base aligned low, asked] at moved
      cases moved
      exact .working rfl rfl log others
    | write i w =>
      simp only [Gpu.act, resting] at moved
      cases moved
    | answer r =>
      simp only [Gpu.act, resting] at moved
      cases moved
    | mail v =>
      simp only [Gpu.act] at moved
      split at moved
      · cases moved
      next other =>
        cases moved
        exact .waiting requests resting log (more_others others other) asked
  | working requests works log others =>
    cases e with
    | take =>
      simp only [Gpu.act, works] at moved
      cases moved
    | write i w =>
      simp only [Gpu.act, works] at moved
      cases moved
      exact .working requests rfl log others
    | answer r =>
      simp only [Gpu.act, works, mail_base aligned low] at moved
      cases moved
      refine .answered r s.replies [] requests rfl (by rw [log]) rfl ?_ (told_answered ..)
      rw [List.append_nil]
      exact others
    | mail v =>
      simp only [Gpu.act] at moved
      split at moved
      · cases moved
      next other =>
        cases moved
        exact .working requests works log (more_others others other)
  | answered r before after requests resting log replies others told =>
    cases e with
    | take =>
      simp only [Gpu.act, resting, requests] at moved
      cases moved
    | write i w =>
      simp only [Gpu.act, resting] at moved
      cases moved
    | answer r =>
      simp only [Gpu.act, resting] at moved
      cases moved
    | mail v =>
      simp only [Gpu.act] at moved
      split at moved
      · cases moved
      next other =>
        cases moved
        refine .answered r before (after ++ [v]) requests resting log ?_ ?_ told
        · rw [replies, List.append_assoc]
          rfl
        · rw [← List.append_assoc]
          exact more_others others other

theorem Asked.read (asked : Asked L tag msg s)
    (own : channel (Gpu.load .MBOX_READ s).1 = MBOX_CH) :
    ∃ r, Done L tag msg r (Gpu.load .MBOX_READ s).2 := by
  cases asked with
  | waiting _ _ _ others _ | working _ _ _ others =>
    exfalso
    cases replies : s.replies with
    | nil =>
      simp only [Gpu.load, replies] at own
      exact absurd own (by decide)
    | cons v rest =>
      simp only [Gpu.load, replies] at own
      exact others v (replies ▸ List.mem_cons_self) own
  | answered r before after requests resting log replies others told =>
    refine ⟨r, ?_⟩
    cases before with
    | cons v rest =>
      simp only [Gpu.load, replies, List.cons_append] at own
      exact absurd own (others v List.mem_cons_self)
    | nil =>
      simp only [Gpu.load, replies, List.nil_append]
      exact ⟨⟨requests, resting, log, others⟩, told⟩

end Moves

section Drivers

variable {L : List Exchange} {tag msg : UInt32} {s : Gpu}

/-- All the rest of a program may go wrong, but not what it returns. -/
abbrev Returns {α : Type} (Q : α → Gpu → Prop) (p : Code α) (s : Gpu) : Prop :=
  Guards gpu anything (fun _ _ => True) (fun r _ t => r.elim True fun a => Q a t) p () s

theorem returns_call {α : Type} {Q : α → Gpu → Prop} {c : Bus α}
    (safe : Safe gpu anything (fun _ => True) Q c s) : Returns Q (.call c) s := guards_call safe

theorem returns_bind {α β : Type} {R : β → Gpu → Prop} {Q : α → Gpu → Prop} {p : Code β} {k : β → Code α}
    (first : Returns R p s) (rest : ∀ b t, R b t → Returns Q (k b) t) : Returns Q (p >>= k) s :=
  guards_bind first (fun b _ t here => rest b t here) fun _ _ _ => trivial

theorem returns_pure {α : Type} {P : Gpu → Prop} {Q : α → Gpu → Prop} {a : α} (stable : Stable gpu anything P)
    (returns : ∀ t, P t → Q a t) (holds : P s) : Returns Q (pure a) s :=
  guards_ret stable (fun _ _ => trivial) returns holds

theorem returns_halt {α : Type} {Q : α → Gpu → Prop} : Returns Q (.halt : Code α) s :=
  guards_halt (P := fun _ => True) (fun _ _ _ _ _ _ => trivial) (fun _ _ => trivial) (fun _ _ => trivial) trivial

theorem returns_assert {P : Gpu → Prop} {p : Prop} [Decidable p] (stable : Stable gpu anything P) (holds : P s) :
    Returns (fun _ t => p ∧ P t) (assert p) s := by
  rw [assert]
  split
  next good => exact returns_pure stable (fun _ there => ⟨good, there⟩) holds
  next => exact returns_halt

theorem idle_stable (f : UInt32 → UInt32) : Stable gpu anything fun t => Idle L t ∧ t.ram = f := by
  rintro s e t ⟨idle, ram⟩ _ moved
  obtain ⟨idle', same⟩ := idle.acted moved
  exact ⟨idle', same.trans ram⟩

theorem asked_stable (aligned : msg % 16 = 0) (low : msg < 0x40000000) :
    Stable gpu anything (Asked L tag msg) := fun _ _ _ asked _ moved => asked.acted aligned low moved

theorem done_stable (r : Reply) : Stable gpu anything (Done L tag msg r) := by
  rintro s e t ⟨idle, told⟩ _ moved
  obtain ⟨idle', same⟩ := idle.acted moved
  exact ⟨idle', same.symm ▸ told⟩

def filled (ram : UInt32 → UInt32) (msg i : UInt32) : List UInt32 → UInt32 → UInt32
  | [] => ram
  | w :: ws => filled (update ram (word msg i) w) msg (i + 1) ws

theorem fill_safe (ws : List UInt32) (i : UInt32) {f : UInt32 → UInt32} (holds : Idle L s ∧ s.ram = f) :
    Safe gpu anything (fun _ => True) (fun _ t => Idle L t ∧ t.ram = filled f msg i ws) (fill msg i ws) s := by
  induction ws generalizing i f s with
  | nil => exact safe_ret (idle_stable f) (fun _ _ => trivial) (fun _ here => here) holds
  | cons w ws ih =>
    refine safe_store (idle_stable f) (fun _ _ => trivial) ?_ holds
    rintro t ⟨idle, ram⟩
    refine ih (i + 1) ⟨⟨idle.requests, idle.resting, idle.log, idle.others⟩, ?_⟩
    exact congrArg (fun g => update g (word msg i) w) ram

theorem message_filled (f : UInt32 → UInt32) (tag msg : UInt32) :
    message (filled f msg 0 [8 * 4, 0, tag, 8, 0, 0, 0, 0]) msg = request tag := by
  simp (disch := decide) [message, filled, update, word_inj, request]

theorem returns_word {P : Gpu → Prop} {a w : UInt32} (stable : Stable gpu anything P)
    (known : ∀ t, P t → t.ram a = w) (holds : P s) :
    Returns (fun v t => v = w ∧ P t) (.call (load (.ram a))) s := by
  refine returns_call (safe_reads (g := fun v => v) stable (fun _ _ => trivial) (fun v => ?_)
    (fun _ _ _ => trivial) (fun t here => ⟨known t here, here⟩) holds)
  rintro t e u ⟨value, here⟩ allowed moved
  exact ⟨value, stable t e u here allowed moved⟩

theorem returns_poll {P : Gpu → Prop} {ready : UInt32 → Bool} (stable : Stable gpu anything P) (holds : P s) :
    Returns (fun _ => P) (.call (poll .MBOX_STATUS ready)) s :=
  returns_call (safe_poll stable (fun _ _ => trivial) (fun _ here _ => here)
    (fun _ here _ => safe_ret stable (fun _ _ => trivial) (fun _ there => there) here) holds)

theorem mboxWrite_returns (aligned : msg % 16 = 0) (low : msg < 0x40000000) {f : UInt32 → UInt32}
    (asked : message f msg = request tag) (holds : Idle L s ∧ s.ram = f) :
    Returns (fun _ => Asked L tag msg) (mboxWrite MBOX_CH msg) s := by
  refine returns_bind (returns_assert (idle_stable f) holds) fun _ t here => ?_
  refine returns_bind (returns_assert (idle_stable f) here.2) fun _ t here => ?_
  refine returns_bind (returns_poll (idle_stable f) here.2) fun _ t here => returns_call ?_
  refine safe_writes (idle_stable f) (fun _ _ => trivial) (asked_stable aligned low) (fun _ _ => trivial) ?_ here
  rintro t ⟨idle, ram⟩
  have room : Gpu.store .MBOX_WRITE (mailFor msg) t = { t with requests := [mailFor msg] } := by
    simp [Gpu.store, idle.requests, DEPTH]
  refine (congrArg (Asked L tag msg) room).mpr (.waiting rfl idle.resting idle.log idle.others ?_)
  exact (congrArg (fun g => message g msg) ram).trans asked

theorem mboxRead_returns (aligned : msg % 16 = 0) (low : msg < 0x40000000) (asked : Asked L tag msg s) :
    Returns (fun _ t => ∃ r, Done L tag msg r t) (mboxRead MBOX_CH) s := by
  refine returns_bind (returns_assert (asked_stable aligned low) asked) fun _ t here => ?_
  refine returns_bind (returns_poll (asked_stable aligned low) here.2) fun _ t here => ?_
  refine returns_bind (R := fun v t => channel v = MBOX_CH → ∃ r, Done L tag msg r t)
    (returns_call ?_) fun v t here => ?_
  · refine safe_reads (g := fun v => v) (asked_stable aligned low) (fun _ _ => trivial) (fun v => ?_)
      (fun _ _ _ => trivial) (fun t here own => here.read own) here
    intro t e u told allowed moved own
    obtain ⟨r, done⟩ := told own
    exact ⟨r, done_stable r t e u done allowed moved⟩
  · split
    next => exact returns_halt
    next own =>
      obtain ⟨r, done⟩ := here (Decidable.not_not.mp own)
      exact returns_pure (done_stable r) (fun _ there => ⟨r, there⟩) done

theorem mboxSend_returns (aligned : msg % 16 = 0) (low : msg < 0x40000000) {f : UInt32 → UInt32}
    (asked : message f msg = request tag) (holds : Idle L s ∧ s.ram = f) (channel : UInt32) :
    Returns (fun _ t => ∃ r, r.ok = true ∧ Done L tag msg r t) (mboxSend channel msg) s := by
  refine returns_bind (mboxWrite_returns aligned low asked holds) fun _ t here => ?_
  refine returns_bind (mboxRead_returns aligned low here) ?_
  rintro _ t ⟨r, done⟩
  refine returns_bind (returns_word (done_stable r) (fun _ there => there.2.code) done) ?_
  rintro code t ⟨value, done⟩
  subst value
  cases ok : r.ok with
  | false => exact returns_halt
  | true => exact returns_pure (done_stable r) (fun _ there => ⟨r, ok, there⟩) done

theorem ask_returns (low : msg < 0x40000000) (idle : Idle L s) :
    Returns (fun _ t => ∃ r, r.ok = true ∧ Done L tag msg r t) (ask tag msg) s := by
  refine returns_bind (returns_assert (idle_stable s.ram) ⟨idle, rfl⟩) ?_
  rintro _ t ⟨aligned, here⟩
  refine returns_bind (returns_call (fill_safe _ 0 here)) fun _ t here => ?_
  refine returns_bind (mboxSend_returns aligned low (message_filled ..) here MBOX_CH) ?_
  rintro _ t ⟨r, ok, done⟩
  refine returns_bind (returns_word (done_stable r) (fun _ there => there.2.code) done) ?_
  rintro code t ⟨value, done⟩
  subst value
  rw [ok]
  exact returns_pure (done_stable r) (fun _ there => ⟨r, ok, there⟩) done

end Drivers

section Calls

inductive Call where
  | serialnum | memsize | model | revision | temp

def Call.tag : Call → UInt32
  | .serialnum => 0x00010004
  | .memsize => 0x00010005
  | .model => 0x00010001
  | .revision => 0x00010002
  | .temp => 0x00030006

def Call.run (c : Call) (msg : UInt32) : Code UInt64 :=
  match c with
  | .serialnum => rpiGetSerialnum msg
  | .memsize => UInt32.toUInt64 <$> rpiGetMemsize msg
  | .model => UInt32.toUInt64 <$> rpiGetModel msg
  | .revision => UInt32.toUInt64 <$> rpiGetRevision msg
  | .temp => UInt32.toUInt64 <$> rpiTempGet msg

/-- What a call makes of an answer: the whole of a serial number, or the word that holds the value. -/
def Call.value (c : Call) (e : Exchange) : Nat :=
  match c with
  | .serialnum => e.reply.first.toNat + 2 ^ 32 * e.reply.second.toNat
  | .model | .revision => e.reply.first.toNat
  | .memsize | .temp => e.reply.second.toNat

/-- The question of the call has had an answer that it takes: for the serial number, with the word of the tag
that says that the value is eight bytes long. -/
structure Call.Taken (c : Call) (e : Exchange) : Prop where
  asked : e.asked = request c.tag
  ok : e.reply.ok = true
  whole : c = .serialnum → e.reply.tag = 0x80000008

variable {L : List Exchange} {msg : UInt32} {s : Gpu}

theorem word_returns {c : Call} {i : UInt32} (other : c ≠ .serialnum) (low : msg < 0x40000000) (idle : Idle L s)
    {value : Reply → UInt32} (known : ∀ r t, Done L c.tag msg r t → t.ram (word msg i) = value r)
    (same : ∀ e, (value e.reply).toNat = c.value e) :
    Returns (fun v t => ∃ e, Idle (L ++ [e]) t ∧ c.Taken e ∧ v.toNat = c.value e)
      (UInt32.toUInt64 <$> (do ask c.tag msg; .call (load (.ram (word msg i))))) s := by
  refine returns_bind (R := fun v t => ∃ r, v = value r ∧ r.ok = true ∧ Done L c.tag msg r t)
    (returns_bind (ask_returns low idle) ?_) ?_
  · rintro _ t ⟨r, ok, done⟩
    refine Guards.weaken (returns_word (done_stable r) (known r) done)
      (fun _ _ here => here) fun answer _ t here => ?_
    cases answer with
    | none => trivial
    | some v => exact ⟨r, here.1, ok, here.2⟩
  · rintro v t ⟨r, read, ok, done⟩
    subst read
    exact returns_pure (done_stable r) (fun _ there => ⟨_, there.1, ⟨rfl, ok, fun serial => absurd serial other⟩,
      (UInt32.toNat_toUInt64 _).trans (same ⟨request c.tag, r⟩)⟩) done

theorem serialnum_returns (low : msg < 0x40000000) (idle : Idle L s) :
    Returns (fun v t => ∃ e, Idle (L ++ [e]) t ∧ Call.serialnum.Taken e ∧ v.toNat = Call.serialnum.value e)
      (rpiGetSerialnum msg) s := by
  refine returns_bind (ask_returns low idle) ?_
  rintro _ t ⟨r, ok, done⟩
  have stable : Stable gpu anything (Done L 0x00010004 msg r) := done_stable r
  refine returns_bind (returns_word stable (fun _ there => there.2.tag) done) ?_
  rintro reply t ⟨told, done⟩
  refine returns_bind (returns_assert stable done) ?_
  rintro _ t ⟨eight, done⟩
  refine returns_bind (returns_word stable (fun _ there => there.2.second) done) ?_
  rintro upper t ⟨same, done⟩
  refine returns_bind (returns_assert stable done) ?_
  rintro _ t ⟨none, done⟩
  refine returns_bind (returns_word stable (fun _ there => there.2.first) done) ?_
  rintro lower t ⟨value, done⟩
  refine returns_pure stable (fun _ there => ⟨_, there.1, ⟨rfl, ok, fun _ => told.symm.trans eight⟩, ?_⟩) done
  rw [value, Call.value, ← same, none, UInt32.toNat_toUInt64]
  rfl

theorem each_returns (c : Call) (low : msg < 0x40000000) (idle : Idle L s) :
    Returns (fun v t => ∃ e, Idle (L ++ [e]) t ∧ c.Taken e ∧ v.toNat = c.value e) (c.run msg) s := by
  cases c with
  | serialnum => exact serialnum_returns low idle
  | memsize => exact word_returns (c := .memsize) nofun low idle (fun _ _ done => done.2.second) fun _ => rfl
  | model => exact word_returns (c := .model) nofun low idle (fun _ _ done => done.2.first) fun _ => rfl
  | revision => exact word_returns (c := .revision) nofun low idle (fun _ _ done => done.2.first) fun _ => rfl
  | temp => exact word_returns (c := .temp) nofun low idle (fun _ _ done => done.2.second) fun _ => rfl

def calls : List (Call × UInt32) → Code (List UInt64)
  | [] => pure []
  | (c, msg) :: rest => do
    let v ← c.run msg
    let vs ← calls rest
    pure (v :: vs)

/-- Each call has had its own message answered, and has returned that answer. -/
inductive Answered : List (Call × UInt32) → List UInt64 → List Exchange → Prop where
  | none : Answered [] [] []
  | one {c : Call} {msg : UInt32} {v : UInt64} {e : Exchange} {rest : List (Call × UInt32)} {vs : List UInt64}
      {es : List Exchange} (taken : c.Taken e) (value : v.toNat = c.value e)
      (later : Answered rest vs es) : Answered ((c, msg) :: rest) (v :: vs) (e :: es)

theorem calls_return {cs : List (Call × UInt32)} (low : ∀ c ∈ cs, c.2 < 0x40000000) (idle : Idle L s) :
    Returns (fun vs t => ∃ es, Idle (L ++ es) t ∧ Answered cs vs es) (calls cs) s := by
  induction cs generalizing L s with
  | nil =>
    refine returns_pure (idle_stable s.ram) (fun t there => ⟨[], ?_, .none⟩) ⟨idle, rfl⟩
    rw [List.append_nil]
    exact there.1
  | cons c cs ih =>
    refine returns_bind (each_returns c.1 (low c List.mem_cons_self) idle) ?_
    rintro v t ⟨e, idle, taken, value⟩
    refine returns_bind (ih (fun c there => low c (List.mem_cons_of_mem _ there)) idle) ?_
    rintro vs t ⟨es, idle, later⟩
    refine returns_pure (idle_stable t.ram) (fun t there => ⟨e :: es, ?_, .one taken value later⟩) ⟨idle, rfl⟩
    have whole := there.1
    rw [List.append_assoc] at whole
    exact whole

/-- Whenever the graphics processor takes its mail, writes into the message and answers, and whatever mail of
other channels comes in between. -/
theorem calls_answered {cs : List (Call × UInt32)} {vs : List UInt64} {s t : Gpu}
    (low : ∀ c ∈ cs, c.2 < 0x40000000) (idle : Idle s.log s)
    (runs : Runs gpu anything ⟨calls cs, (), s⟩ ⟨.ret vs, (), t⟩) :
    ∃ es, t.log = s.log ++ es ∧ Answered cs vs es ∧ Idle t.log t := by
  obtain ⟨es, idle', answered⟩ := (calls_return low idle _ runs).2.1 vs rfl
  exact ⟨es, idle'.log, answered, idle'.log ▸ idle'⟩

def board : List (Event Gpu.Move) :=
  List.replicate 40 .cpu ++ [.act .take, .act (.write 5 7), .act (.answer ⟨true, 0x80000008, 0x12345678, 0⟩)] ++
    List.replicate 80 .cpu ++ [.act .take, .cpu, .act (.answer ⟨true, 0x80000004, 0, 0x1c000000⟩)] ++ List.replicate 40 .cpu

theorem two_calls_answered : ∃ vs t es, Answered [(.serialnum, 0x8000), (.memsize, 0x8000)] vs es ∧ t.log = es ∧
    Idle es t := by
  have returned : (after gpu board ⟨calls [(.serialnum, 0x8000), (.memsize, 0x8000)], (),
      ⟨fun _ => 0, [], none, [], []⟩⟩).returned = some [0x12345678, 0x1c000000] := by decide +kernel
  have all (s e) : anything s e := trivial
  obtain ⟨_, t, runs⟩ := after_returns all returned
  have low : ∀ c ∈ [(Call.serialnum, (0x8000 : UInt32)), (.memsize, 0x8000)], c.2 < 0x40000000 := by
    simp
  obtain ⟨es, log, answered, idle⟩ := calls_answered low
    (⟨rfl, rfl, rfl, fun _ there => by cases there⟩ : Idle [] ⟨fun _ => 0, [], none, [], []⟩) runs
  have all_answered : t.log = es := log
  exact ⟨_, t, es, answered, all_answered, all_answered ▸ idle⟩

end Calls

end EmbeddedOS.Mailbox
