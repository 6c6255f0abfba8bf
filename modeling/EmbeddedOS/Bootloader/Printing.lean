import EmbeddedOS.Bootloader.UnixRun

/-! The strings that the pi prints while it boots: boot_putk on its side, get_op on
the other. The empty string is written as any other, but the length that get_op
counts to is then one less than nothing. -/
namespace EmbeddedOS.Bootloader
open Serial Serial.Node

/-- A string as boot_putk gets it, without the zero that ends it. -/
structure Text where
  bytes : List UInt8
  no_zero : 0 ∉ bytes
  short : bytes.length < 512

def putMessages : List (List UInt8) → Pi Unit
  | [] => pure ()
  | msg :: messages => do
    bootPutk msg
    putMessages messages

def putAll (messages : List (List UInt8)) (op : UInt32) : Pi Unit := do
  putMessages messages
  bootPut32 op

/-- Whatever bytes boot_putk has sent, get_op takes them and the opcode, shows the
strings and returns the opcode. -/
def Transparent (messages : List (List UInt8)) (op : UInt32) : Prop :=
  ∀ (v w sent later : List UInt8) (d d' : Ctx UInt32 PiMem) (c : Ctx UInt32 (List UInt8)),
    Does v (putAll messages op) d () d' → d'.sent = d.sent ++ sent →
    c.Unread w (sent ++ later) →
    Does w getOp c op ((c.take sent.length).store (c.mem ++ messages.flatMap shown))

section Sending

variable {w : List UInt8}

theorem putMessages_does (messages : List (List UInt8)) (d : Ctx UInt32 PiMem) :
    Does w (putMessages messages) d () (d.say (messages.flatMap printed)) := by
  induction messages generalizing d with
  | nil =>
    rw [List.flatMap_nil, Ctx.say_nil]
    exact .refl
  | cons msg messages ih =>
    rw [List.flatMap_cons, ← Ctx.say_say]
    exact (bootPutk_does msg d).andThen (ih (d.say (printed msg)))

theorem putAll_does (messages : List (List UInt8)) (op : UInt32) (d : Ctx UInt32 PiMem) :
    Does w (putAll messages op) d () (d.say (messages.flatMap printed ++ leBytes op)) := by
  rw [← Ctx.say_say]
  exact (putMessages_does messages d).andThen (bootPut32_does op _)

theorem sent_by_putAll {messages : List (List UInt8)} {op : UInt32} {d d' : Ctx UInt32 PiMem}
    {sent : List UInt8} (does : Does w (putAll messages op) d () d')
    (grown : d'.sent = d.sent ++ sent) : sent = messages.flatMap printed ++ leBytes op := by
  have same := finished_unique does (putAll_does messages op d) (.ret _ _) (.ret _ _)
  have ctx : d' = d.say (messages.flatMap printed ++ leBytes op) := congrArg Node.ctx same
  rw [ctx, Ctx.say_sent] at grown
  exact (List.append_cancel_left grown).symm

end Sending

section Reading

variable {w : List UInt8} {c : Ctx UInt32 (List UInt8)}

theorem getOp_shows_all {xs : List UInt8} (messages : List (List UInt8))
    (some : ∀ msg ∈ messages, msg ≠ []) (short : ∀ msg ∈ messages, msg.length < 512)
    (unread : c.Unread w (messages.flatMap printed ++ xs)) :
    Steps w ⟨getOp, c⟩ ⟨getOp, (c.take (messages.flatMap printed).length).store
      (c.mem ++ messages.flatMap shown)⟩ := by
  induction messages generalizing c with
  | nil =>
    rw [List.flatMap_nil, List.flatMap_nil, List.append_nil]
    exact .refl
  | cons msg messages ih =>
    rw [List.forall_mem_cons] at some short
    rw [List.flatMap_cons, List.append_assoc] at unread
    obtain ⟨front, last, rfl⟩ := List.eq_nil_or_concat' msg |>.resolve_left some.1
    have bytes : (printed (front ++ [last])).length = front.length + 9 := by
      simp [printed]
      omega
    have behind := Ctx.unread_take _ unread
    rw [bytes] at behind
    have rest := ih (c := (c.take (front.length + 9)).store (c.mem ++ shown (front ++ [last])))
      some.2 short.2 behind
    rw [Ctx.store_take, Ctx.take_take, Ctx.store_store, Ctx.store_mem, List.append_assoc] at rest
    have length : front.length + 1 < 512 := by simpa using short.1
    rw [List.flatMap_cons, List.flatMap_cons, List.length_append, bytes]
    exact getOp_shows front last length unread rest

end Reading

section Empty

variable {w : List UInt8} {c d : Ctx UInt32 (List UInt8)}

theorem printing_inv {k : Nat} {i : UInt32}
    (runs : Does w (Proc.forFrom k i fun _ => do
      let x ← getUint8
      output x) c () d) :
    k ≤ (w.drop c.taken).length ∧ d.mem = c.mem ++ (w.drop c.taken).take k := by
  induction k generalizing i c with
  | zero =>
    cases finished_steps (.ret () c) runs
    exact ⟨Nat.zero_le _, (List.append_nil d.mem).symm⟩
  | succ k ih =>
    obtain ⟨_, e, round, rest⟩ := Does.split runs
    obtain ⟨x, f, reads, shows⟩ := Does.split round
    obtain ⟨there, rfl⟩ := does_get8_inv reads
    cases finished_unique shows (does_memory _ _) (.ret _ _) (.ret _ _)
    obtain ⟨enough, mem⟩ := ih rest
    obtain ⟨inside, rfl⟩ := List.getElem?_eq_some_iff.mp there
    rw [List.drop_eq_getElem_cons inside]
    refine ⟨Nat.succ_le_succ enough, ?_⟩
    rw [mem, List.take_succ_cons]
    exact List.append_assoc ..

theorem getUint32_respects {R : List UInt8 → List UInt8 → Prop} : getUint32.Respects R :=
  ⟨trivial, fun _ => ⟨trivial, fun _ => ⟨trivial, fun _ => ⟨trivial, fun _ => trivial⟩⟩⟩⟩

theorem output_respects (x : UInt8) : (output x).Respects (· <+: ·) :=
  fun m => List.prefix_append m [x]

def lastByte : Unix (Unit ⊕ UInt32) := do
  let c ← getUint8
  (if c ≠ 0x0a then output c else pure ())
  pure (.inl ())

def getOpRound : Unix (Unit ⊕ UInt32) := do
  let op ← getUint32
  if op ≠ PRINT_STRING then pure (.inr op)
  else do
    let nbytes ← getUint32
    .assert (nbytes < 512)
    .forTo (nbytes - 1) fun _ => do
      let c ← getUint8
      output c
    lastByte

theorem lastByte_respects : lastByte.Respects (· <+: ·) := by
  refine ⟨trivial, fun c => ⟨?_, fun _ => trivial⟩⟩
  split
  · exact output_respects c
  · trivial

theorem getOp_respects : getOp.Respects (· <+: ·) := by
  intro _
  refine respects_bind getUint32_respects fun op => ?_
  split
  · trivial
  · refine respects_bind getUint32_respects fun n => respects_bind ?_ fun _ => ?_
    · unfold Proc.assert
      split <;> trivial
    · refine respects_bind (respects_forFrom (fun _ => ?_) _ _) fun _ => lastByte_respects
      exact respects_bind (p := getUint8) True.intro output_respects

theorem getOpRound_counts {xs : List UInt8} (unread : c.Unread w (printed [] ++ xs)) :
    Steps w ⟨getOpRound, c⟩ ⟨(Proc.forTo (0 - 1) fun _ => do
      let x ← getUint8
      output x) >>= fun _ => lastByte, c.take 8⟩ ∧ (c.take 8).Unread w xs := by
  have u0 : c.Unread w (leBytes PRINT_STRING ++ (leBytes 0 ++ xs)) := unread
  have u1 : (c.take 4).Unread w (leBytes 0 ++ xs) := Ctx.unread_take _ u0
  refine ⟨?_, Ctx.unread_take (printed []) unread⟩
  refine (getUint32_does u0).andThen ?_
  rw [if_neg (not_not.mpr rfl)]
  refine (getUint32_does u1).andThen ?_
  exact (does_assert (by decide) _).andThen .refl

/-- Behind the length of an empty string get_op shows the bytes that come, as many as
the largest number says, and if it ever returns it has shown them all. -/
theorem getOp_empties {xs : List UInt8} {op : UInt32} (unread : c.Unread w (printed [] ++ xs))
    (returns : Does w getOp c op d) :
    2 ^ 32 - 1 ≤ xs.length ∧ c.mem ++ xs.take (2 ^ 32 - 1) <+: d.mem := by
  obtain ⟨counts, behind⟩ := getOpRound_counts unread
  have first : Steps w ⟨getOp, c⟩ ⟨getOpRound >>= Proc.loopBack fun _ => getOpRound, c⟩ :=
    .single rfl
  obtain ⟨out, e, round, later⟩ := Does.split (returns.rest (first.trans (steps_bind _ counts)))
  obtain ⟨_, f, loop, last⟩ := Does.split round
  obtain ⟨enough, mem⟩ := printing_inv loop
  have largest : ((0 : UInt32) - 1).toNat = 2 ^ 32 - 1 := by decide
  rw [behind, largest] at enough mem
  rw [Ctx.take_mem] at mem
  refine ⟨enough, ?_⟩
  have grown := (steps_respects (R := (· <+: ·)) (fun _ => List.prefix_rfl) List.IsPrefix.trans last
    lastByte_respects).2
  have kept : (Proc.loopBack (fun _ => getOpRound) out).Respects (· <+: ·) := by
    cases out with
    | inl _ => exact getOp_respects
    | inr _ => trivial
  have grown' := (steps_respects (R := (· <+: ·)) (fun _ => List.prefix_rfl) List.IsPrefix.trans
    later kept).2
  rw [← mem]
  exact grown.trans grown'

end Empty

section Texts

theorem shown_subset (msg : List UInt8) : shown msg ⊆ msg := by
  unfold shown
  split
  · exact List.dropLast_subset msg
  · exact List.Subset.refl msg

/-- The third byte of a length is zero, so the word cannot be part of a string. -/
theorem zero_in_printed {msg : List UInt8} (short : msg.length < 512) (xs : List UInt8) :
    0 ∈ (printed msg ++ xs).take (2 ^ 32 - 1) := by
  have small : UInt32.ofNat msg.length >>> 16 = 0 := by
    rw [← UInt32.toNat_inj, UInt32.toNat_shiftRight, UInt32.toNat_ofNat_of_lt' (by
      exact Nat.lt_trans short (by decide))]
    exact Nat.shiftRight_eq_zero _ _ (Nat.lt_trans short (by decide))
  have third : (printed msg ++ xs)[6]? = some 0 := by
    simp only [printed, leBytes, List.cons_append, List.nil_append, List.getElem?_cons_succ,
      List.getElem?_cons_zero, small]
    rfl
  exact List.mem_of_getElem? (i := 6) (by rw [List.getElem?_take_of_lt (by decide), third])

theorem shown_no_zero (texts : List Text) : 0 ∉ (texts.map Text.bytes).flatMap shown := by
  intro zero
  obtain ⟨msg, there, inside⟩ := List.mem_flatMap.mp zero
  obtain ⟨text, _, rfl⟩ := List.mem_map.mp there
  exact text.no_zero (shown_subset _ inside)

theorem empty_spoils {w : List UInt8} {c d : Ctx UInt32 (List UInt8)} {op : UInt32}
    (texts : List Text) (empties : ∃ text ∈ texts, text.bytes = [])
    (unread : c.Unread w ((texts.map Text.bytes).flatMap printed ++ leBytes op))
    (returns : Does w getOp c op d) : d.mem ≠ c.mem ++ (texts.map Text.bytes).flatMap shown := by
  induction texts generalizing c with
  | nil =>
    obtain ⟨text, none, _⟩ := empties
    cases none
  | cons text texts ih =>
    rw [List.map_cons, List.flatMap_cons, List.append_assoc] at unread
    by_cases empty : text.bytes = []
    · rw [empty] at unread
      obtain ⟨enough, grown⟩ := getOp_empties unread returns
      intro mem
      rw [mem, List.map_cons, List.flatMap_cons, empty] at grown
      have inside := (List.prefix_append_right_inj c.mem).mp grown
      cases texts with
      | nil =>
        rw [List.map_nil, List.flatMap_nil, List.nil_append, leBytes_length] at enough
        omega
      | cons next texts =>
        rw [List.map_cons, List.flatMap_cons, List.append_assoc] at inside
        exact shown_no_zero (next :: texts) (inside.subset (zero_in_printed next.short _))
    · have one : c.Unread w ([text.bytes].flatMap printed ++
          ((texts.map Text.bytes).flatMap printed ++ leBytes op)) := by
        rw [List.flatMap_singleton]
        exact unread
      have first := getOp_shows_all [text.bytes] (by simpa using empty) (by simpa using text.short)
        one
      have later : ∃ text ∈ texts, text.bytes = [] := by simpa [empty] using empties
      have behind : ((c.take _).store (c.mem ++ [text.bytes].flatMap shown)).Unread w
          ((texts.map Text.bytes).flatMap printed ++ leBytes op) := Ctx.unread_take _ one
      have spoiled := ih later behind (returns.rest first)
      intro mem
      apply spoiled
      rw [mem, Ctx.store_mem, List.map_cons, List.flatMap_cons, List.flatMap_singleton,
        List.append_assoc]

/-- The strings and the opcode come through exactly when no string is empty. -/
theorem transparent_iff (texts : List Text) (op : UInt32) (plain : op ≠ PRINT_STRING) :
    Transparent (texts.map Text.bytes) op ↔ ∀ text ∈ texts, text.bytes ≠ [] := by
  have short : ∀ msg ∈ texts.map Text.bytes, msg.length < 512 :=
    List.forall_mem_map.mpr fun text _ => text.short
  constructor
  · intro transparent
    by_contra empties
    have some : ∃ text ∈ texts, text.bytes = [] := by simpa using empties
    have unread : Ctx.Unread (⟨[], [], 0, []⟩ : Ctx UInt32 (List UInt8))
        ((texts.map Text.bytes).flatMap printed ++ leBytes op)
        ((texts.map Text.bytes).flatMap printed ++ leBytes op) := Ctx.unread_all _ rfl
    have returns := transparent [] _ _ [] ⟨⟨fun _ => 0, []⟩, [], 0, []⟩ _ _
      (putAll_does _ op _) rfl (by rw [List.append_nil]; exact unread)
    exact empty_spoils texts some unread returns rfl
  · intro some v w sent later d d' c sends grown unread
    cases sent_by_putAll sends grown
    rw [List.append_assoc] at unread
    have shows := getOp_shows_all _ (List.forall_mem_map.mpr some) short unread
    have opcode := getOp_plain (c := (c.take ((texts.map Text.bytes).flatMap printed).length).store
      (c.mem ++ (texts.map Text.bytes).flatMap shown)) plain (Ctx.unread_take _ unread)
    rw [Ctx.store_take, Ctx.take_take] at opcode
    rw [List.length_append, leBytes_length]
    exact shows.trans opcode

def okLine : Text := ⟨[0x6f, 0x6b, 0x0a], by decide, by decide⟩

theorem lines_come_through : BOOT_SUCCESS ≠ PRINT_STRING ∧
    Transparent ([okLine, okLine].map Text.bytes) BOOT_SUCCESS :=
  ⟨by decide, (transparent_iff [okLine, okLine] BOOT_SUCCESS (by decide)).mpr (by decide)⟩

def emptyText : Text := ⟨[], by decide, by decide⟩

theorem empty_text_spoils : ¬ ∀ (texts : List Text) (op : UInt32), op ≠ PRINT_STRING →
    Transparent (texts.map Text.bytes) op := by
  intro always
  have unread : Ctx.Unread (⟨[], [], 0, []⟩ : Ctx UInt32 (List UInt8))
      (printed [] ++ leBytes BOOT_SUCCESS) (printed [] ++ leBytes BOOT_SUCCESS) :=
    Ctx.unread_all _ rfl
  have returns := always [emptyText] BOOT_SUCCESS (by decide) [] _ _ []
    ⟨⟨fun _ => 0, []⟩, [], 0, []⟩ _ ⟨[], [], 0, []⟩ (putAll_does _ _ _) rfl
    (Ctx.unread_all _ rfl)
  rw [List.append_nil] at returns
  obtain ⟨enough, _⟩ := getOp_empties unread returns
  rw [leBytes_length] at enough
  omega

end Texts

end EmbeddedOS.Bootloader
