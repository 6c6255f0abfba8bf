import EmbeddedOS.Bootloader.Bootload

/-! The driver of the unix side, my-install.c, and the whole way of an address: from
the command line over the header to the branch of the pi. -/
namespace EmbeddedOS.Bootloader
open Serial Serial.Node

section Arguments

inductive Trace where
  | off | controlOnly | all

inductive Device where
  | last | first
  | named (path : String)

structure Options where
  trace : Trace
  devName : Option Device
  piProg : Option String
  baudRate : UInt32
  bootAddr : UInt32
  execArgv : Option (List String)

def B115200 : UInt32 := 0o010002

def defaults : Options := ⟨.off, none, none, B115200, ARMBASE, none⟩

def prefixCmp (s start : String) : Bool := start.toList.isPrefixOf s.toList
def suffixCmp (s ending : String) : Bool := ending.toList.isSuffixOf s.toList

def isspace (c : Char) : Bool := [' ', '\t', '\n', '\r', '\x0b', '\x0c'].contains c

def digits (cs : List Char) : Nat :=
  (cs.takeWhile Char.isDigit).foldl (fun n c => 10 * n + (c.toNat - 48)) 0

/-- The library's atoi: white space, a sign and digits. -/
def atoi (s : String) : Int :=
  match s.toList.dropWhile isspace with
  | '-' :: cs => -(digits cs : Int)
  | '+' :: cs => digits cs
  | cs => digits cs

/-- The loop of main over argv, without the program's name. -/
def parseArgs : List String → Options → Option Options
  | [], o => some o
  | arg :: rest, o =>
    if arg = "--trace-control" then parseArgs rest { o with trace := .controlOnly }
    else if arg = "--trace-all" then parseArgs rest { o with trace := .all }
    else if arg = "--last" then parseArgs rest { o with devName := some .last }
    else if arg = "--first" then parseArgs rest { o with devName := some .first }
    else if prefixCmp arg "/dev/" then parseArgs rest { o with devName := some (.named arg) }
    else if suffixCmp arg ".bin" then parseArgs rest { o with piProg := some arg }
    else if arg = "--baud" then
      match rest with
      | [] => none
      | value :: rest => parseArgs rest { o with baudRate := .ofInt (atoi value) }
    else if arg = "--addr" then
      match rest with
      | [] => none
      | value :: rest => parseArgs rest { o with bootAddr := .ofInt (atoi value) }
    else if arg = "--exec" then
      match rest with
      | [] => none
      | value :: rest => some { o with execArgv := some (value :: rest) }
    else if arg = "--device" then
      match rest with
      | [] => none
      | value :: rest => parseArgs rest { o with devName := some (.named value) }
    else none

def installOptions (argv : List String) : Option Options :=
  match parseArgs argv defaults with
  | none => none
  | some o => if o.piProg.isNone then none else some { o with devName := some (o.devName.getD .last) }

end Arguments

section Spelling

def hexDigit (c : Char) : Option Nat :=
  if c.isDigit then some (c.toNat - 48)
  else if 'a' ≤ c ∧ c ≤ 'f' then some (c.toNat - 97 + 10)
  else if 'A' ≤ c ∧ c ≤ 'F' then some (c.toNat - 65 + 10)
  else none

def hexValue (cs : List Char) : Option Nat :=
  cs.foldlM (fun n c => (hexDigit c).map fun d => 16 * n + d) 0

/-- The number that an address as written stands for: digits, or 0x and digits in
base sixteen. -/
def addressOf (text : String) : Option Nat :=
  match text.toList with
  | [] => none
  | '0' :: 'x' :: c :: cs => hexValue (c :: cs)
  | c :: cs => if (c :: cs).all Char.isDigit then some (digits (c :: cs)) else none

/-- The operand of the last --addr that main comes to. -/
def addrOperand : List String → Option String → Option String
  | [], found => found
  | arg :: rest, found =>
    if arg = "--addr" then
      match rest with
      | [] => found
      | text :: rest => addrOperand rest (some text)
    else if arg = "--baud" ∨ arg = "--device" then
      match rest with
      | [] => found
      | _ :: rest => addrOperand rest found
    else if arg = "--exec" then found
    else addrOperand rest found

/-- A command line that main accepts, with the address that it asks for. -/
structure Request where
  argv : List String
  options : Options
  text : String
  addr : UInt32
  accepted : installOptions argv = some options
  asked : addrOperand argv none = some text
  spelled : addressOf text = some addr.toNat

end Spelling

section Path

variable (img : Image) (p : Program) (mem : PiMem) (o : Options)

/-- What the driver of the pi does with the address that get_code returns. -/
def branch (addr : UInt32) : Pi UInt32 := if addr = 0 then rpiReboot else pure addr

def installStart (script : List UInt32) : Link :=
  ⟨⟨notmain img, ⟨mem, script, 0, []⟩⟩, unixStart p o.bootAddr⟩

/-- All that simple_boot has to send for the program to be stored at addr. -/
def offer (addr : UInt32) : List UInt8 :=
  leBytes PUT_PROG_INFO ++ leBytes addr ++ leBytes p.n ++ leBytes (crc32 (p.buf.take p.n.toNat)) ++
    (leBytes PUT_CODE ++ p.buf)

/-- What has been sent so far is on the way to the offer with this address, the run can
go on to the end of both sides, and where the pi branches, it branches to the address
with the code there. -/
structure Honoured (addr : UInt32) (s : Link) : Prop where
  header : s.right.ctx.sent <+: offer p addr
  arrives : ∃ e, Net.Reaches (s.more dataThere) e ∧ e.left.code = .ret addr ∧
    e.left.ctx.mem.range addr p.n = p.buf ∧ e.right.code = .ret ()
  branches : ∀ a, s.left.code = .ret a → a = addr ∧ s.left.ctx.mem.range addr p.n = p.buf

theorem offer_address {a b : UInt32} {xs : List UInt8}
    (start : leBytes PUT_PROG_INFO ++ leBytes a ++ xs <+: offer p b) : a = b := by
  have words : leBytes a = leBytes b := by
    have h := congrArg (fun ys => (ys.drop 4).take 4) (List.prefix_iff_eq_take.mp start)
    simpa [offer, leBytes] using h
  have same := congrArg (fun ys : List UInt8 =>
    leWord (ys.getD 0 0) (ys.getD 1 0) (ys.getD 2 0) (ys.getD 3 0)) words
  simpa [leBytes, leWord_leBytes] using same

section Quiet

variable (script : List UInt32) {s : Link} (quiet : collides img ARMBASE p.n = false)

include quiet in
theorem installs : ∃ e, Net.Reaches ((installStart img p mem o script).more dataThere) e ∧
    e.Finished ∧ e.left.code = .ret ARMBASE ∧ e.left.ctx.mem.range ARMBASE p.n = p.buf ∧
      e.right.code = .ret () ∧ e.right.ctx.sent = offer p ARMBASE := by
  obtain ⟨c, d, boots, _, sent⟩ := boots img p mem o.bootAddr script quiet
  have start : (bootStart img p mem o.bootAddr script).more dataThere =
      bootStart img p mem o.bootAddr (script ++ dataThere) := rfl
  rw [start] at boots
  have sound := reached_sound img p mem o.bootAddr quiet boots
  have branched : Net.Step (Net.bindLeft (⟨⟨.ret ARMBASE, c⟩, ⟨.ret (), d⟩⟩ : Link) branch)
      ⟨⟨.ret ARMBASE, c⟩, ⟨.ret (), d⟩⟩ := .left rfl
  refine ⟨_, (Net.reaches_bindLeft branch boots).tail branched, ⟨.ret _ _, .ret _ _⟩, rfl,
    (sound.delivered rfl).stored, rfl, ?_⟩
  exact sent

include quiet in
theorem reached_honoured (run : Net.Reaches (installStart img p mem o script) s) :
    Honoured p ARMBASE s := by
  obtain ⟨e, installs, done, code, stored, returned, sent⟩ :=
    installs img p mem o script quiet
  have ends := Net.reaches_end done installs (Net.reaches_more dataThere run)
  refine ⟨?_, ⟨e, ends, code, stored, returned⟩, ?_⟩
  · rw [← sent]
    exact (Net.reaches_grows ends).2
  · intro a stopped
    have finished : s.left.Finished := by
      rw [show s.left = ⟨.ret a, s.left.ctx⟩ from stopped ▸ rfl]
      exact .ret _ _
    have same := Net.left_stays ends ((finished_more dataThere).mpr finished)
    have code' : e.left.code = (s.left.more dataThere).code := congrArg Node.code same
    have ctx : e.left.ctx.mem = s.left.ctx.mem := congrArg (fun n => n.ctx.mem) same
    have returned' : Proc.ret ARMBASE = (Proc.ret a : Pi UInt32) :=
      code.symm.trans (code'.trans stopped)
    rw [← ctx]
    cases returned'
    exact ⟨rfl, stored⟩

end Quiet

theorem header_ignores_address {addr : UInt32} (other : addr ≠ ARMBASE) :
    ∃ s, Net.Reaches (installStart img p mem o dataThere) s ∧ ¬ Honoured p addr s := by
  obtain ⟨k, c, opens, _, _, _⟩ := opening img p mem o.bootAddr []
  refine ⟨_, Net.reaches_bindLeft branch opens, ?_⟩
  intro honoured
  have sent : (offered p).sent <+: offer p addr := honoured.header
  rw [offered_sent, header, List.append_assoc, List.append_assoc, ← List.append_assoc] at sent
  exact other (offer_address p sent).symm

theorem adjacent_not_honoured {addr : UInt32} (ending : ARMBASE + p.n = img.PUT32) :
    ∃ s, Net.Reaches (installStart img p mem o dataThere) s ∧ ¬ Honoured p addr s := by
  obtain ⟨s, run, failed⟩ := collision_halts img p mem o.bootAddr (collides_adjacent ending)
  refine ⟨_, Net.reaches_bindLeft branch run, ?_⟩
  intro honoured
  obtain ⟨e, ends, _, _, returned⟩ := honoured.arrives
  have stopped : s.right.Finished := by
    rw [show s.right = ⟨.halt, s.right.ctx⟩ from failed ▸ rfl]
    exact .halt _
  have stays := congrArg Node.code (Net.right_stays ends stopped)
  exact absurd (returned.symm.trans (stays.trans failed)) (by simp)

end Path

/-- An address is honoured exactly when it is ARMBASE, whatever main has made of it, and
the program does not end where PUT32 begins, which the pi takes for a collision. -/
theorem address_honoured_iff (img : Image) (p : Program) (mem : PiMem) (r : Request)
    (apart : ¬ Touches img r.addr p.n) :
    (∀ script s, Net.Reaches (installStart img p mem r.options script) s → Honoured p r.addr s) ↔
      r.addr = ARMBASE ∧ ARMBASE + p.n ≠ img.PUT32 := by
  constructor
  · intro honoured
    constructor
    · by_contra other
      obtain ⟨s, run, dropped⟩ := header_ignores_address img p mem r.options other
      exact dropped (honoured _ s run)
    · intro ending
      obtain ⟨s, run, dropped⟩ := adjacent_not_honoured img p mem r.options ending
      exact dropped (honoured _ s run)
  · rintro ⟨same, short⟩ script s run
    rw [same] at apart ⊢
    exact reached_honoured img p mem r.options script (quiet_of_apart apart short) run

def usualRequest : Request where
  argv := ["--addr", "0x8000", "hello.bin"]
  options := { defaults with devName := some .last, piProg := some "hello.bin", bootAddr := 0 }
  text := "0x8000"
  addr := 0x8000
  accepted := rfl
  asked := rfl
  spelled := by decide

theorem usual_address_honoured : ¬ Touches linkedImage usualRequest.addr oneByte.n ∧
    ∀ script s, Net.Reaches (installStart linkedImage oneByte ⟨fun _ => 0, []⟩
      usualRequest.options script) s → Honoured oneByte usualRequest.addr s :=
  ⟨oneByte_apart, (address_honoured_iff linkedImage oneByte _ usualRequest oneByte_apart).mpr
    (by decide)⟩

def otherRequest : Request where
  argv := ["--addr", "36864", "hello.bin"]
  options := { defaults with devName := some .last, piProg := some "hello.bin", bootAddr := 0x9000 }
  text := "36864"
  addr := 0x9000
  accepted := rfl
  asked := rfl
  spelled := by decide

theorem other_address_ignored : ¬ ∀ (img : Image) (p : Program) (mem : PiMem) (r : Request),
    ¬ Touches img r.addr p.n → ∀ script s,
      Net.Reaches (installStart img p mem r.options script) s → Honoured p r.addr s := by
  intro always
  have apart : ¬ Touches linkedImage otherRequest.addr oneByte.n := by
    rw [touches_iff]
    decide
  have other : otherRequest.addr ≠ ARMBASE := by decide
  obtain ⟨s, run, dropped⟩ := header_ignores_address linkedImage oneByte ⟨fun _ => 0, []⟩
    otherRequest.options other
  exact dropped (always _ _ _ otherRequest apart _ s run)

end EmbeddedOS.Bootloader
