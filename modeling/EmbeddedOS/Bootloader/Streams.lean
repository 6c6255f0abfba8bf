import EmbeddedOS.Bootloader.Messages

/-! get_code against any bytes the other end may send.
Every run can come to its end, and has then gone through all steps and returned
the address of the header: no check cuts it short. -/
namespace EmbeddedOS.Bootloader
open Serial Serial.Node

abbrev Stream := Nat → UInt8

namespace Stream

variable (s : Stream)

def word (i : Nat) : UInt32 := leWord (s (4 * i)) (s (4 * i + 1)) (s (4 * i + 2)) (s (4 * i + 3))

def upTo (k : Nat) : List UInt8 := (List.range k).map s

/-- The bytes that step 5 takes for the code: as many as the header says, behind
the header and one more word. -/
def code : List UInt8 := (List.range (s.word 2).toNat).map fun i => s (20 + i)

theorem upTo_add (j k : Nat) :
    s.upTo (j + k) = s.upTo j ++ (List.range k).map fun i => s (j + i) := by
  simp only [upTo, List.range_add, List.map_append, List.map_map]
  rfl

theorem upTo_words : s.upTo 20 = leBytes (s.word 0) ++ leBytes (s.word 1) ++ leBytes (s.word 2) ++
    leBytes (s.word 3) ++ leBytes (s.word 4) := by
  simp only [word, leBytes_leWord]
  rfl

theorem code_length : s.code.length = (s.word 2).toNat := by
  simp only [code, List.length_map, List.length_range]

theorem upTo_run (j : Nat) : ∃ xs, s.upTo (20 + (s.word 2).toNat + j) =
    leBytes (s.word 0) ++ leBytes (s.word 1) ++ leBytes (s.word 2) ++ leBytes (s.word 3) ++
      (leBytes (s.word 4) ++ s.code ++ xs) := by
  refine ⟨(List.range j).map fun i => s (20 + (s.word 2).toNat + i), ?_⟩
  rw [upTo_add, upTo_add, upTo_words, code]
  simp only [List.append_assoc]

end Stream

/-- The pi when get_code is called: nothing read or sent yet. -/
def piStart (img : Image) (mem : PiMem) (script : List UInt32) : Node UInt32 PiMem UInt32 :=
  ⟨getCode img, ⟨mem, script, 0, []⟩⟩

def Completed (img : Image) (s : Stream) (mem : PiMem) (script : List UInt32)
    (n : Node UInt32 PiMem UInt32) : Prop :=
  n.Finished ∧ ∃ k, Steps (s.upTo k) (piStart img mem script) n

section Runs

variable (img : Image) (s : Stream) (mem : PiMem)

theorem getCode_run (script : List UInt32) (j : Nat) :
    ∃ k c, Does (s.upTo (20 + (s.word 2).toNat + j)) (getCode img)
      ⟨mem, script ++ dataThere, 0, []⟩ (s.word 1) c ∧
      c.mem = mem.fill (s.word 1) s.code ∧
      c.sent = requests (k + 1) ++ answer img (s.word 1) (s.word 2) (s.word 3) ++
        verdict (s.word 3) s.code := by
  obtain ⟨xs, wire⟩ := s.upTo_run j
  have unread : Ctx.Unread (⟨mem, script ++ dataThere, 0, []⟩ : Ctx UInt32 PiMem)
      (s.upTo (20 + (s.word 2).toNat + j)) _ := wire
  obtain ⟨k, rest, runs⟩ := getCode_stores img (s.word 1) (s.word 3) script rfl s.code_length unread
  exact ⟨k, _, runs.trans (report_does (s.word 1) (s.word 3) s.code _), rfl, rfl⟩

/-- Whatever a run has done, with more bytes and readings it comes to its end. -/
theorem getCode_completes {script : List UInt32} {j : Nat} {n : Node UInt32 PiMem UInt32}
    (steps : Steps (s.upTo j) (piStart img mem script) n) :
    ∃ k c, Steps (s.upTo (20 + (s.word 2).toNat + j)) (n.more dataThere) ⟨.ret (s.word 1), c⟩ ∧
      c.mem = mem.fill (s.word 1) s.code ∧
      c.sent = requests (k + 1) ++ answer img (s.word 1) (s.word 2) (s.word 3) ++
        verdict (s.word 3) s.code := by
  obtain ⟨k, c, runs, stored, sent⟩ := getCode_run img s mem script j
  have longer : Steps (s.upTo (20 + (s.word 2).toNat + j))
      ((piStart img mem script).more dataThere) (n.more dataThere) := by
    rw [Nat.add_comm, Stream.upTo_add]
    exact steps_more dataThere (steps_wire _ steps)
  refine ⟨k, c, ?_, stored, sent⟩
  rcases steps_linear longer runs with before | after
  · exact before
  · rw [finished_steps (.ret _ c) after]
    exact .refl

theorem completed_exists : ∃ n, Completed img s mem dataThere n := by
  obtain ⟨k, c, runs, _⟩ := getCode_run img s mem [] 0
  exact ⟨⟨.ret (s.word 1), c⟩, .ret _ _, _, runs⟩

theorem completed_shape {script : List UInt32} {n : Node UInt32 PiMem UInt32}
    (completed : Completed img s mem script n) :
    n.code = .ret (s.word 1) ∧ n.ctx.mem = mem.fill (s.word 1) s.code ∧
      ∃ k, n.ctx.sent = requests (k + 1) ++ answer img (s.word 1) (s.word 2) (s.word 3) ++
        verdict (s.word 3) s.code := by
  obtain ⟨done, j, steps⟩ := completed
  obtain ⟨k, c, rest, stored, sent⟩ := getCode_completes img s mem steps
  have same := finished_steps ((finished_more dataThere).mpr done) rest
  have code : n.code = .ret (s.word 1) := (congrArg Node.code same).symm
  have ctx : c = n.ctx.more dataThere := congrArg Node.ctx same
  subst ctx
  exact ⟨code, stored, k, sent⟩

end Runs

section Stores

def PiMem.Grows (m m' : PiMem) : Prop := m.stores <+: m'.stores

def Appends {α : Type} (p : Pi α) : Prop := p.Respects PiMem.Grows

theorem storing_appends (addr n : UInt32) : Appends (Proc.forTo n fun i => do
    let c ← bootGet8
    PUT8 (addr + i) c) := by
  apply respects_forFrom
  intro i
  exact ⟨trivial, fun _ m => List.prefix_append m.stores _⟩

theorem fetch_appends (addr n crc : UInt32) : Appends (fetch addr n crc) :=
  respects_bind bootGet32_respects fun _ =>
    respects_bind (storing_appends addr n) fun _ =>
      respects_bind (p := .memory _) (fun _ => List.prefix_rfl) fun _ => report_respects _ _ _

theorem getCode_appends (img : Image) : Appends (getCode img) :=
  respects_bind (fun _ => respects_bind (bootPut32_respects _) fun _ => untilData_respects _)
    fun _ => respects_bind bootGet32_respects fun _ => respects_bind bootGet32_respects fun _ =>
      respects_bind bootGet32_respects fun _ => respects_bind bootGet32_respects fun _ =>
        respects_bind (errorIf_respects _) fun _ => respects_bind (bootPut32_respects _) fun _ =>
          respects_bind (bootPut32_respects _) fun _ => fetch_appends _ _ _

theorem steps_appends {w : List UInt8} {m m' : Node UInt32 PiMem UInt32} (steps : Steps w m m')
    (appends : Appends m.code) :
    Appends m'.code ∧ m.ctx.mem.stores <+: m'.ctx.mem.stores :=
  steps_respects (R := PiMem.Grows) (fun _ => List.prefix_rfl)
    (fun first later => List.IsPrefix.trans first later) steps appends

end Stores

section Ranges

variable (img : Image)

theorem stores_in_range {s : Stream} {bytes : UInt32 → UInt8} {script : List UInt32} {k : Nat}
    {m : Node UInt32 PiMem UInt32} (steps : Steps (s.upTo k) (piStart img ⟨bytes, []⟩ script) m)
    {a : UInt32} (stored : a ∈ m.ctx.mem.stores) :
    ∃ i < (s.word 2).toNat, s.word 1 + UInt32.ofNat i = a := by
  obtain ⟨_, c, rest, mem, _⟩ := getCode_completes img s _ steps
  have appends := (steps_appends steps (getCode_appends img)).1
  have grown := (steps_appends rest appends).2
  have final := grown.subset stored
  rw [mem, PiMem.fill_stores, List.nil_append, s.code_length] at final
  simpa only [List.mem_map, List.mem_range] using final

theorem range_stored {s : Stream} {mem : PiMem} {script : List UInt32}
    {m : Node UInt32 PiMem UInt32} (completed : Completed img s mem script m)
    {i : Nat} (inside : i < (s.word 2).toNat) :
    s.word 1 + UInt32.ofNat i ∈ m.ctx.mem.stores := by
  obtain ⟨_, stored, _⟩ := completed_shape img s mem completed
  rw [stored, PiMem.fill_stores, s.code_length]
  exact List.mem_append_right _ (List.mem_map_of_mem (List.mem_range.mpr inside))

end Ranges

end EmbeddedOS.Bootloader
