import EmbeddedOS.Bootloader.Overlap
import EmbeddedOS.Bootloader.Atomicity
import EmbeddedOS.Serial.Network

/-! Both programs of the bootloader on one link, in any order of their steps.
One schedule that goes to the end decides what all others can do. -/
namespace EmbeddedOS.Bootloader
open Serial Serial.Node

/-- The file to boot, with its size in a word. -/
structure Program where
  buf : List UInt8
  n : UInt32
  size : buf.length = n.toNat

abbrev Link := Net UInt32 PiMem (List UInt8) UInt32 Unit

section Boot

variable (img : Image) (p : Program) (mem : PiMem) (bootAddr : UInt32)

def unixStart : Node UInt32 (List UInt8) Unit := ⟨simpleBoot bootAddr p.buf p.n, ⟨[], [], 0, []⟩⟩

def bootStart (script : List UInt32) : Link := ⟨piStart img mem script, unixStart p bootAddr⟩

/-- What simple_boot promises when it returns. -/
structure Delivered (s : Link) : Prop where
  stored : s.left.ctx.mem.range ARMBASE p.n = p.buf
  echoed : ⟨GET_CODE, leBytes (crc32 p.buf)⟩ ∈ messages s.left.ctx.sent
  returns : ∃ readings c, Steps s.right.ctx.sent (s.left.more readings) ⟨.ret ARMBASE, c⟩

structure Sound (s : Link) : Prop where
  not_deadlocked : ¬ s.Deadlocked
  no_assert_fails : s.right.code ≠ .halt
  delivered : s.right.code = .ret () → Delivered p s
  header_address : ∀ addr, s.left.code = .ret addr → addr = ARMBASE

theorem quiet_of_apart {img : Image} {n : UInt32} (apart : ¬ Touches img ARMBASE n)
    (short : ARMBASE + n ≠ img.PUT32) : collides img ARMBASE n = false := by
  have base := UInt32.lt_iff_toNat_lt.mp img.armbase_lt
  have code := UInt32.lt_iff_toNat_lt.mp img.put32_lt
  have size := img.PUT32.toNat_lt
  rw [← Bool.not_eq_true, collides_iff]
  rw [touches_iff] at apart
  rw [Ne, ← UInt32.toNat_inj, UInt32.toNat_add] at short
  omega

theorem collides_adjacent {img : Image} {n : UInt32} (ending : ARMBASE + n = img.PUT32) :
    collides img ARMBASE n = true := by
  simp only [collides, ending, ge_iff_le, Bool.and_eq_true, decide_eq_true_eq]
  exact ⟨UInt32.le_refl _, UInt32.le_of_lt (UInt32.lt_trans img.armbase_lt img.put32_lt)⟩

section Schedule

variable (script : List UInt32)

def asking : Ctx UInt32 PiMem := Ctx.say ⟨mem, script ++ dataThere, 0, []⟩ (leBytes GET_PROG_INFO)

def offered : Ctx UInt32 (List UInt8) := (Ctx.take ⟨[], [], 0, []⟩ 4).say (header p.buf p.n)

theorem offered_sent : (offered p).sent = header p.buf p.n := List.nil_append _

theorem asked_first : Steps [] (piStart img mem (script ++ dataThere))
    ⟨(untilData (300 * 1000) >>= backToWait (300 * 1000)) >>= fun _ => negotiate img,
      asking mem script⟩ :=
  steps_bind _ (waitForData_asks _ _)

theorem offered_next : Steps (asking mem script).sent (unixStart p bootAddr)
    ⟨supply p.buf p.n, offered p⟩ := by
  have asked : Ctx.Unread (⟨[], [], 0, []⟩ : Ctx UInt32 (List UInt8)) (leBytes GET_PROG_INFO)
      (leBytes GET_PROG_INFO ++ []) := by
    rw [List.append_nil]
    exact Ctx.unread_all _ rfl
  exact simpleBoot_offers p.buf p.n bootAddr asked

theorem answered : ∃ k c, Steps (offered p).sent
    ⟨(untilData (300 * 1000) >>= backToWait (300 * 1000)) >>= fun _ => negotiate img,
      asking mem script⟩ ⟨fetch ARMBASE p.n (crc32 p.buf), c⟩ ∧ c.mem = mem ∧ c.taken = 16 ∧
      c.sent = requests (k + 1) ++ answer img ARMBASE p.n (crc32 p.buf) := by
  have whole : p.buf.take p.n.toNat = p.buf := List.take_of_length_le (Nat.le_of_eq p.size)
  rw [offered_sent]
  have there : (asking mem script).taken < (header p.buf p.n).length := by
    rw [header_length]
    exact Nat.succ_pos _
  obtain ⟨k, rest, waits⟩ := waiting_does (w := header p.buf p.n) (c := asking mem script)
    (300 * 1000) script rfl there
  have unread : (((asking mem script).reload rest).say (requests k)).Unread (header p.buf p.n)
      (leBytes PUT_PROG_INFO ++ leBytes ARMBASE ++ leBytes p.n ++ leBytes (crc32 p.buf) ++ []) := by
    rw [List.append_nil, header, whole]
    exact Ctx.unread_all _ rfl
  have answers := negotiate_steps img ARMBASE (crc32 p.buf) unread
  refine ⟨k, _, waits.andThen answers, rfl, rfl, ?_⟩
  rw [requests_succ]
  rfl

theorem opening : ∃ k c, Net.Reaches ((bootStart img p mem bootAddr script).more dataThere)
    ⟨⟨fetch ARMBASE p.n (crc32 p.buf), c⟩, ⟨supply p.buf p.n, offered p⟩⟩ ∧
      c.mem = mem ∧ c.taken = 16 ∧
      c.sent = requests (k + 1) ++ answer img ARMBASE p.n (crc32 p.buf) := by
  obtain ⟨k, c, answers, kept⟩ := answered img p mem script
  refine ⟨k, c, ?_, kept⟩
  exact ((Net.step_left (asked_first img mem script)).trans
    (Net.step_right (offered_next p mem bootAddr script))).trans (Net.step_left answers)

/-- If the test lets the program pass, this schedule goes to the end of both. -/
theorem boots (quiet : collides img ARMBASE p.n = false) :
    ∃ c d, Net.Reaches ((bootStart img p mem bootAddr script).more dataThere)
      ⟨⟨.ret ARMBASE, c⟩, ⟨.ret (), d⟩⟩ ∧ d.taken = c.sent.length ∧
      d.sent = header p.buf p.n ++ (leBytes PUT_CODE ++ p.buf) := by
  obtain ⟨k, c, opens, _, taken, sent⟩ := opening img p mem bootAddr script
  have plain : c.sent = requests (k + 1) ++ (leBytes GET_CODE ++ leBytes (crc32 p.buf)) := by
    rw [sent, answer, quiet]
    rfl
  have asked : (offered p).Unread c.sent
      (requests k ++ (leBytes GET_CODE ++ (leBytes (crc32 p.buf) ++ []))) := by
    rw [plain, requests_succ, List.append_assoc, List.append_nil]
    exact Ctx.unread_after _ _ rfl
  have supplies := supply_sends p.buf p.n k p.size asked
  generalize supplied : (((offered p).take (4 * k + 8)).say (leBytes PUT_CODE ++ p.buf)) = d
    at supplies
  have code : d.sent = header p.buf p.n ++ (leBytes PUT_CODE ++ p.buf) := by
    rw [← supplied, Ctx.say_sent, Ctx.take_sent, offered_sent]
  have read : d.taken = c.sent.length := by
    rw [← supplied, plain]
    simp [offered, requests]
    omega
  have unread : c.Unread d.sent (leBytes PUT_CODE ++ p.buf ++ []) := by
    rw [code, List.append_nil]
    exact Ctx.unread_after _ _ (taken.trans (header_length p.buf p.n).symm)
  have fetches := (fetch_stores ARMBASE (crc32 p.buf) p.size unread).trans
    (report_does ARMBASE (crc32 p.buf) p.buf _)
  have passed : verdict (crc32 p.buf) p.buf = printed greeting ++ leBytes BOOT_SUCCESS := by
    rw [verdict, errorIf, if_neg (not_not.mpr rfl), List.nil_append]
  have told : d.Unread (c.sent ++ verdict (crc32 p.buf) p.buf)
      (printed greeting ++ leBytes BOOT_SUCCESS ++ []) := by
    rw [passed, List.append_nil]
    exact Ctx.unread_after _ _ read
  obtain ⟨shown, concludes⟩ := conclude_does told
  refine ⟨_, _, ((opens.trans (Net.step_right supplies)).trans (Net.step_left fetches)).trans
    (Net.step_right concludes), ?_, code⟩
  have short : (printed greeting ++ leBytes BOOT_SUCCESS).length = 26 := by decide
  rw [Ctx.store_taken, Ctx.take_taken, Ctx.say_sent, Ctx.store_sent, Ctx.take_sent,
    List.length_append, passed, short, read]

theorem stored_when_sent {l : Node UInt32 PiMem UInt32} {c : Ctx UInt32 PiMem}
    (before : Steps (header p.buf p.n ++ (leBytes PUT_CODE ++ p.buf))
      (piStart img mem (script ++ dataThere)) l)
    (after : Steps (header p.buf p.n ++ (leBytes PUT_CODE ++ p.buf)) l ⟨.ret ARMBASE, c⟩)
    (silent : l.ctx.sent = c.sent) :
    l.ctx.mem = mem.fill ARMBASE p.buf ∧
      ⟨GET_CODE, leBytes (crc32 p.buf)⟩ ∈ messages l.ctx.sent := by
  have whole : p.buf.take p.n.toNat = p.buf := List.take_of_length_le (Nat.le_of_eq p.size)
  have unread : Ctx.Unread (⟨mem, script ++ dataThere, 0, []⟩ : Ctx UInt32 PiMem)
      (header p.buf p.n ++ (leBytes PUT_CODE ++ p.buf)) (leBytes PUT_PROG_INFO ++
      leBytes ARMBASE ++ leBytes p.n ++ leBytes (crc32 p.buf) ++
      (leBytes PUT_CODE ++ p.buf ++ [])) := by
    rw [List.append_nil, header, whole]
    exact Ctx.unread_all _ rfl
  obtain ⟨k, rest, stores⟩ := getCode_stores img ARMBASE (crc32 p.buf) script rfl p.size unread
  have reports := report_does (w := header p.buf p.n ++ (leBytes PUT_CODE ++ p.buf)) ARMBASE
    (crc32 p.buf) p.buf
  generalize at_store : (((Ctx.take ⟨mem, script ++ dataThere, 0, []⟩ (20 + p.buf.length)).store
    (mem.fill ARMBASE p.buf)).reload rest).say
      (requests (k + 1) ++ answer img ARMBASE p.n (crc32 p.buf)) = q at stores
  have full : q.mem = mem.fill ARMBASE p.buf := by rw [← at_store]; rfl
  have said : q.sent = requests (k + 1) ++ answer img ARMBASE p.n (crc32 p.buf) := by
    rw [← at_store]; rfl
  have ends : (⟨.ret ARMBASE, c⟩ : Node UInt32 PiMem UInt32) =
      ⟨.ret ARMBASE, q.say (verdict (crc32 p.buf) p.buf)⟩ :=
    finished_unique (before.trans after) (stores.trans (reports q)) (.ret _ _) (.ret _ _)
  have all : l.ctx.sent = q.sent ++ verdict (crc32 p.buf) p.buf :=
    silent.trans (congrArg (·.ctx.sent) ends)
  constructor
  · rcases steps_linear before stores with early | late
    · have less : l.ctx.sent.length ≤ q.sent.length := (steps_grows early).1.length_le
      rw [all, List.length_append] at less
      have some : 0 < (verdict (crc32 p.buf) p.buf).length := by
        simp [verdict]
      omega
    · have kept := (steps_respects (R := Eq) (fun _ => rfl) Eq.trans late
        (report_respects _ _ _)).2
      exact kept.symm.trans full
  · rw [all, said]
    exact crc_echoed ..

end Schedule

section Reached

variable {script : List UInt32} {s : Link}

theorem reached_sound (quiet : collides img ARMBASE p.n = false)
    (run : Net.Reaches (bootStart img p mem bootAddr script) s) : Sound p s := by
  obtain ⟨c, d, boots, read, code⟩ := boots img p mem bootAddr script quiet
  have done : Net.Finished (⟨⟨.ret ARMBASE, c⟩, ⟨.ret (), d⟩⟩ : Link) := ⟨.ret _ _, .ret _ _⟩
  have longer : Net.Reaches ((bootStart img p mem bootAddr script).more dataThere)
      (s.more dataThere) := Net.reaches_more dataThere run
  have ends : Net.Reaches (s.more dataThere) ⟨⟨.ret ARMBASE, c⟩, ⟨.ret (), d⟩⟩ :=
    Net.reaches_end done boots longer
  constructor
  · intro dead
    exact Net.reaches_not_deadlocked done ends (Net.deadlocked_more dataThere dead)
  · intro failed
    have stopped : s.right.Finished := by
      rw [show s.right = ⟨.halt, s.right.ctx⟩ from failed ▸ rfl]
      exact .halt _
    have same := Net.right_stays ends stopped
    have codes := congrArg Node.code same
    exact absurd (codes.trans failed) (by simp)
  · intro returned
    have stopped : s.right.Finished := by
      rw [show s.right = ⟨.ret (), s.right.ctx⟩ from returned ▸ rfl]
      exact .ret _ _
    have same := Net.right_stays ends stopped
    have ctx : d = s.right.ctx := congrArg Node.ctx same
    have out : s.right.ctx.sent = header p.buf p.n ++ (leBytes PUT_CODE ++ p.buf) := by
      rw [← code, ctx]
    have taken : s.right.ctx.taken ≤ s.left.ctx.sent.length :=
      steps_taken_le (Net.right_alone run) (Nat.zero_le _)
    have silent : s.left.ctx.sent = c.sent := by
      refine (Net.reaches_grows ends).1.eq_of_length_le ?_
      rw [← read, ctx]
      exact taken
    have before := Net.left_alone longer
    have after := Net.left_alone ends
    rw [code] at after
    rw [show (s.more dataThere).right.ctx.sent = _ from out] at before
    obtain ⟨full, echoed⟩ := stored_when_sent img p mem script before after silent
    refine ⟨?_, echoed, dataThere, c, ?_⟩
    · rw [show s.left.ctx.mem = _ from full]
      exact mem.fill_range _ _ _ p.size
    · rw [out]
      exact after
  · intro addr returned
    have stopped : s.left.Finished := by
      rw [show s.left = ⟨.ret addr, s.left.ctx⟩ from returned ▸ rfl]
      exact .ret _ _
    have same := Net.left_stays ends ((finished_more dataThere).mpr stopped)
    have codes : Proc.ret ARMBASE = s.left.code := congrArg Node.code same
    rw [returned] at codes
    cases codes
    rfl

theorem collision_halts (collision : collides img ARMBASE p.n = true) :
    ∃ s, Net.Reaches (bootStart img p mem bootAddr dataThere) s ∧ s.right.code = .halt := by
  obtain ⟨k, c, opens, _, _, sent⟩ := opening img p mem bootAddr []
  have asked : (offered p).Unread c.sent
      (requests k ++ (leBytes BOOT_ERROR ++ (leBytes GET_CODE ++ leBytes (crc32 p.buf)))) := by
    rw [sent, answer, collision, requests_succ, List.append_assoc, errorIf, if_pos rfl,
      List.append_assoc]
    exact Ctx.unread_after _ _ rfl
  have fails := supply_fails p.buf p.n k (by decide) (by decide) (by decide) asked
  exact ⟨_, opens.trans (Net.step_right fails), rfl⟩

end Reached

end Boot

/-- A program that stays clear of the bootloader boots, in every order of steps and
with every number of requests, exactly when it does not end where PUT32 begins. -/
theorem bootload_sound_iff (img : Image) (p : Program) (mem : PiMem) (bootAddr : UInt32)
    (apart : ¬ Touches img ARMBASE p.n) :
    (∀ script s, Net.Reaches (bootStart img p mem bootAddr script) s → Sound p s) ↔
      ARMBASE + p.n ≠ img.PUT32 := by
  constructor
  · intro sound ending
    obtain ⟨s, run, failed⟩ := collision_halts img p mem bootAddr (collides_adjacent ending)
    exact (sound _ s run).no_assert_fails failed
  · intro short script s run
    exact reached_sound img p mem bootAddr (quiet_of_apart apart short) run

def tightProgram : Program where
  buf := List.replicate (linkedImage.PUT32 - ARMBASE).toNat 0
  n := linkedImage.PUT32 - ARMBASE
  size := List.length_replicate

theorem tight_apart : ¬ Touches linkedImage ARMBASE tightProgram.n := by
  rw [touches_iff]
  decide

theorem adjacent_program_is_refused :
    ¬ ∀ (img : Image) (p : Program) (mem : PiMem) (bootAddr : UInt32) (script : List UInt32)
      (s : Link), ¬ Touches img ARMBASE p.n →
      Net.Reaches (bootStart img p mem bootAddr script) s → Sound p s := by
  intro sound
  have collision : collides linkedImage ARMBASE tightProgram.n = true := by decide
  obtain ⟨s, run, failed⟩ := collision_halts linkedImage tightProgram ⟨fun _ => 0, []⟩ ARMBASE
    collision
  exact (sound _ _ _ _ _ s tight_apart run).no_assert_fails failed

def oneByte : Program := ⟨[0x41], 1, rfl⟩

theorem oneByte_apart : ¬ Touches linkedImage ARMBASE oneByte.n := by
  rw [touches_iff]
  decide

theorem one_byte_boots : ¬ Touches linkedImage ARMBASE oneByte.n ∧
    ∀ script s, Net.Reaches (bootStart linkedImage oneByte ⟨fun _ => 0, []⟩ ARMBASE script) s →
      Sound oneByte s :=
  ⟨oneByte_apart, (bootload_sound_iff linkedImage oneByte _ ARMBASE oneByte_apart).mpr (by decide)⟩

end EmbeddedOS.Bootloader
