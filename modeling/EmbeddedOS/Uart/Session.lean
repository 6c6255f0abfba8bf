import EmbeddedOS.Uart.Driver

/-! Sessions: the UART is set up from whatever state it is in, any program runs over it, and it is turned
off when all is on the wire. -/
namespace EmbeddedOS.Uart
open Mmio Serial Bits

namespace MiniUart

/-- What the processor sets and the UART does not change. -/
structure Config where
  enb : UInt32
  ier : UInt32
  lcr : UInt32
  cntl : UInt32
  baud : UInt32
  fsel1 : UInt32

def config (s : MiniUart) : Config := ⟨s.enb, s.ier, s.lcr, s.cntl, s.baud, s.fsel1⟩

structure Silent (s : MiniUart) : Prop where
  on : s.enabled = true
  off : s.cntl = 0
  rx : s.rx = []
  tx : s.tx = []

structure Flushed (s : MiniUart) : Prop where
  tx : s.tx = []
  shifting : s.shifting = none

theorem act_config {e : Move} {s t : MiniUart} (moved : act e s = some t) : t.config = s.config := by
  cases act_cases moved <;> rfl

theorem act_silent {e : Move} {s t : MiniUart} (silent : s.Silent) (moved : act e s = some t) : t.Silent := by
  obtain ⟨on, off, rx, tx⟩ := silent
  cases act_cases moved with
  | shift free queue =>
    rw [tx] at queue
    cases queue
  | receive b _ hears =>
    rw [off] at hears
    exact absurd hears (by decide)
  | leave | drop | tick => exact ⟨on, off, rx, tx⟩

theorem act_flushed {e : Move} {s t : MiniUart} (flushed : s.Flushed) (moved : act e s = some t) :
    t.Flushed ∧ t.line = s.line := by
  obtain ⟨tx, shifting⟩ := flushed
  cases act_cases moved with
  | shift free queue =>
    rw [tx] at queue
    cases queue
  | leave full =>
    rw [shifting] at full
    cases full
  | receive | drop | tick => exact ⟨⟨tx, shifting⟩, rfl⟩

end MiniUart

section Stages

variable {P R : MiniUart → Prop} {Q : Unit → MiniUart → Prop} {s : MiniUart}

def untold (_ : MiniUart) : Prop := True

/-- One store of a sequence, from what holds before it to what holds after it. -/
theorem stage_store {r : Reg} {v : UInt32} {k : Bus Unit} (stable : Stable miniUart anything P)
    (next : ∀ s, P s → R (MiniUart.store r v s)) (rest : ∀ s, R s → Safe miniUart anything untold Q k s)
    (holds : P s) : Safe miniUart anything untold Q (.store r v k) s :=
  safe_store stable (fun _ _ => trivial) (fun s here => rest _ (next s here)) holds

theorem flush_safe {k : Unit → Bus Unit} (stable : Stable miniUart anything P)
    (on : ∀ s, P s → s.enabled = true) (cleared : ∀ s, P s → P { s with overrun := false })
    (rest : ∀ s, P s ∧ s.Flushed → Safe miniUart anything untold Q (k ()) s) (holds : P s) :
    Safe miniUart anything untold Q (uartFlushTx >>= k) s := by
  have status (t : MiniUart) (here : P t) :
      miniUart.load .AUXLSR t = (t.lsr, { t with overrun := false }) := MiniUart.load_lsr (on t here)
  refine safe_poll stable (fun _ _ => trivial) (fun t here _ => ?_) (fun t here idle => ?_) holds
  · rw [status t here]
    exact cleared t here
  · rw [status t here, decide_eq_true_eq, idle_iff] at idle
    rw [status t here]
    exact rest _ ⟨cleared t here, idle.1, idle.2⟩

theorem flushed_stable (stable : Stable miniUart anything P) :
    Stable miniUart anything fun s => P s ∧ s.Flushed :=
  and_stable stable fun _ _ _ flushed moved => (MiniUart.act_flushed flushed moved).1

end Stages

section Init

/-- The registers while they are set up, one after the other. -/
structure Configured (C : MiniUart.Config → Prop) (s : MiniUart) : Prop where
  silent : s.Silent
  config : C s.config

theorem configured_stable (C : MiniUart.Config → Prop) : Stable miniUart anything (Configured C) := by
  intro s e t here _ moved
  refine ⟨MiniUart.act_silent here.silent moved, ?_⟩
  rw [MiniUart.act_config moved]
  exact here.config

theorem or_and_right (v w : UInt32) : (v ||| w) &&& w = w := by
  apply UInt32.toNat_inj.mp
  refine Nat.eq_of_testBit_eq fun i => ?_
  rw [UInt32.toNat_and, UInt32.toNat_or, Nat.testBit_and, Nat.testBit_or]
  cases v.toNat.testBit i <;> cases w.toNat.testBit i <;> rfl

theorem turned_on (v : UInt32) : ((v ||| 0x1) &&& 7) &&& 1 = 1 := by
  rw [UInt32.and_assoc]
  exact or_and_right v 1

theorem turned_off (v : UInt32) : ((v &&& ~~~0x1) &&& 7) &&& 1 = 0 := by
  rw [UInt32.and_assoc, UInt32.and_assoc]
  exact UInt32.and_zero

/-- What gpio_set_function makes of GPFSEL1, for the pin whose field is at the place s. -/
def alt5 (v s : UInt32) : UInt32 := (v &&& ~~~(0x7 <<< s)) ||| (GPIO_FUNC_ALT5 <<< s)

theorem alt5_here (v : UInt32) {s : UInt32} (fits : s.toNat + 3 ≤ 32) : field (alt5 v s).toNat s.toNat 3 = 2 :=
  replaced_field v rfl (by decide) fits (by decide)

theorem alt5_apart (v : UInt32) {s : UInt32} {lo : Nat} (fits : s.toNat + 3 ≤ 32) (below : lo + 3 ≤ s.toNat) :
    field (alt5 v s).toNat lo 3 = field v.toNat lo 3 :=
  replaced_apart v rfl (by decide) fits (by decide) (by omega) (.inl below)

/-- The UART as uart_init leaves it. -/
structure Started (s : MiniUart) : Prop where
  ready : s.Ready
  flushed : s.Flushed
  ier : s.ier = 0
  baud : s.baud = 271

theorem started_stable : Stable miniUart anything fun s => s.Ready ∧ s.ier = 0 ∧ s.baud = 271 := by
  intro s e t here allowed moved
  have same := MiniUart.act_config moved
  refine ⟨(uart_quiet.act s e t here.1 allowed moved).1, ?_, ?_⟩
  · rw [← here.2.1]
    exact congrArg MiniUart.Config.ier same
  · rw [← here.2.2]
    exact congrArg MiniUart.Config.baud same

variable {s : MiniUart}

/-- From the registers set up, the two directions are turned on and the rest of an earlier byte goes out. -/
theorem opened_safe (set : Configured (fun c => c.ier = 0 ∧ c.lcr = 3 ∧ c.baud = 271 ∧
      field c.fsel1.toNat 12 3 = 2 ∧ field c.fsel1.toNat 15 3 = 2) s) :
    Safe miniUart anything untold (fun _ => Started) (.store .AUXCNTL 0b11 uartFlushTx) s := by
  refine stage_store (R := fun t => (t.Ready ∧ t.ier = 0 ∧ t.baud = 271) ∧ t.tx = []) (configured_stable _)
    ?_ ?_ set
  · rintro t ⟨⟨on, off, rx, tx⟩, ier, lcr, baud, out, back⟩
    have there : MiniUart.store .AUXCNTL 0b11 t = { t with cntl := 0b11 } := by
      simp only [MiniUart.store, on, if_true]
    rw [there]
    refine ⟨⟨⟨on, rfl, ?_, out, back, ?_⟩, ier, baud⟩, tx⟩
    · change t.lcr &&& 3 = 3
      rw [show t.lcr = 3 from lcr]
      rfl
    · change t.rx <:+ t.arrived
      rw [rx]
      exact List.nil_suffix
  · intro t here
    have empty : Stable miniUart anything fun t => (t.Ready ∧ t.ier = 0 ∧ t.baud = 271) ∧ t.tx = [] := by
      refine and_stable started_stable fun s e t none_there moved => ?_
      cases MiniUart.act_cases moved with
      | shift free queue =>
        rw [none_there] at queue
        cases queue
      | leave | receive | drop | tick => exact none_there
    refine flush_safe (k := Driver.ret) empty (fun s here => here.1.1.on) ?_ ?_ here
    · rintro s ⟨⟨⟨on, both, eight, out, back, unread⟩, rest⟩, tx⟩
      exact ⟨⟨⟨on, both, eight, out, back, unread⟩, rest⟩, tx⟩
    · intro s flushed
      refine safe_ret (flushed_stable started_stable) (fun _ _ => trivial)
        (fun t here => ⟨here.1.1, here.2, here.1.2.1, here.1.2.2⟩) ⟨flushed.1.1, flushed.2⟩

theorem set_tx : gpioSetFunction GPIO_TX GPIO_FUNC_ALT5 =
    .load .GPFSEL1 fun val => .store .GPFSEL1 (alt5 val 12) (.ret ()) := by
  have place : GPIO_TX % 10 * 3 = 12 ∧ 3 * (GPIO_TX % 10) = 12 := by decide
  simp only [gpioSetFunction, place]
  rfl

theorem set_rx : gpioSetFunction GPIO_RX GPIO_FUNC_ALT5 =
    .load .GPFSEL1 fun val => .store .GPFSEL1 (alt5 val 15) (.ret ()) := by
  have place : GPIO_RX % 10 * 3 = 15 ∧ 3 * (GPIO_RX % 10) = 15 := by decide
  simp only [gpioSetFunction, place]
  rfl

theorem pins_safe (set : Configured (fun c => c.ier = 0 ∧ c.lcr = 3 ∧ c.baud = 271) s) :
    Safe miniUart anything untold (fun _ => Started)
      (gpioSetFunction GPIO_TX GPIO_FUNC_ALT5 >>= fun _ =>
        gpioSetFunction GPIO_RX GPIO_FUNC_ALT5 >>= fun _ => .store .AUXCNTL 0b11 uartFlushTx) s := by
  rw [set_tx, set_rx]
  refine safe_load (configured_stable _) (fun _ _ => trivial) (fun s here => ?_) set
  refine stage_store (configured_stable _)
    (R := Configured fun c => c.ier = 0 ∧ c.lcr = 3 ∧ c.baud = 271 ∧ field c.fsel1.toNat 12 3 = 2) ?_ ?_ here
  · rintro t ⟨⟨on, off, rx, tx⟩, ier, lcr, baud⟩
    exact ⟨⟨on, off, rx, tx⟩, ier, lcr, baud, alt5_here _ (s := 12) (by decide)⟩
  · intro t there
    refine safe_load (configured_stable _) (fun _ _ => trivial) (fun t there => ?_) there
    have first : field t.fsel1.toNat 12 3 = 2 := there.config.2.2.2
    refine stage_store (configured_stable _) ?_ (fun _ => opened_safe) there
    rintro u ⟨⟨on, off, rx, tx⟩, ier, lcr, baud, out⟩
    refine ⟨⟨on, off, rx, tx⟩, ier, lcr, baud, ?_, alt5_here _ (s := 15) (by decide)⟩
    exact (alt5_apart _ (s := 15) (by decide) (by decide)).trans first

/-- From any state, uart_init leaves the UART set up for eight bits in both directions, with no interrupts
and nothing of what it held before. -/
theorem init_safe (s : MiniUart) : Safe miniUart anything untold (fun _ => Started) uartInit s := by
  have anywhere : Stable miniUart anything untold := fun _ _ _ _ _ _ => trivial
  have config_stable (C : MiniUart.Config → Prop) : Stable miniUart anything fun s => C s.config := by
    intro s e t here _ moved
    rw [MiniUart.act_config moved]
    exact here
  refine safe_load anywhere (fun _ _ => trivial) (fun s _ => ?_) trivial
  refine stage_store anywhere (R := fun s => s.config.enb &&& 1 = 1) (fun s _ => turned_on _) ?_ trivial
  intro s on
  refine stage_store (config_stable fun c => c.enb &&& 1 = 1)
    (R := fun s => s.config.enb &&& 1 = 1 ∧ s.config.cntl = 0) ?_ ?_ on
  · intro s on
    have there : MiniUart.store .AUXCNTL 0b00 s = { s with cntl := 0b00 } :=
      if_pos (decide_eq_true on)
    rw [there]
    exact ⟨on, rfl⟩
  intro s off
  refine stage_store (config_stable fun c => c.enb &&& 1 = 1 ∧ c.cntl = 0) (R := MiniUart.Silent) ?_ ?_ off
  · intro s off
    have there : MiniUart.store .AUXIIR 0b110 s = { s with rx := [], tx := [] } :=
      if_pos (decide_eq_true off.1)
    rw [there]
    exact ⟨decide_eq_true off.1, off.2, rfl, rfl⟩
  intro s silent
  refine stage_store (R := Configured fun c => c.ier = 0) (fun s e t here _ => MiniUart.act_silent here) ?_ ?_ silent
  · rintro s ⟨on, off, rx, tx⟩
    have there : MiniUart.store .AUXIER 0b00 s = { s with ier := 0b00 } := if_pos on
    rw [there]
    exact ⟨⟨on, off, rx, tx⟩, rfl⟩
  intro s quiet
  refine stage_store (configured_stable _) (R := Configured fun c => c.ier = 0 ∧ c.lcr = 3) ?_ ?_ quiet
  · rintro s ⟨⟨on, off, rx, tx⟩, ier⟩
    have there : MiniUart.store .AUXLCR 0b11 s = { s with lcr := 0b11 } := if_pos on
    rw [there]
    exact ⟨⟨on, off, rx, tx⟩, ier, rfl⟩
  intro s eight
  refine stage_store (configured_stable _) (R := Configured fun c => c.ier = 0 ∧ c.lcr = 3 ∧ c.baud = 271)
    ?_ (fun _ => pins_safe) eight
  rintro s ⟨⟨on, off, rx, tx⟩, ier, lcr⟩
  have there : MiniUart.store .AUXBAUD 271 s = { s with baud := 271 } := if_pos on
  rw [there]
  exact ⟨⟨on, off, rx, tx⟩, ier, lcr, rfl⟩

end Init

section Disable

variable {s : MiniUart}

/-- The UART as uart_disable leaves it: all that it was given is on the wire. -/
structure Disabled (given : List UInt8) (s : MiniUart) : Prop where
  off : s.enabled = false
  flushed : s.Flushed
  line : s.line = given

theorem disabled_stable (given : List UInt8) : Stable miniUart anything (Disabled given) := by
  intro s e t here _ moved
  obtain ⟨flushed, line⟩ := MiniUart.act_flushed here.flushed moved
  refine ⟨?_, flushed, line.trans here.line⟩
  rw [← here.off]
  have enb : t.enb = s.enb := congrArg MiniUart.Config.enb (MiniUart.act_config moved)
  simp only [MiniUart.enabled, enb]

theorem disable_safe (ready : s.Ready) :
    Safe miniUart anything untold (fun _ => Disabled s.given) uartDisable s := by
  have quiet : Stable miniUart anything fun t => t.Ready ∧ uart.Same s t := uart_quiet.same_stable s
  refine flush_safe quiet (fun t here => here.1.on) ?_ ?_ ⟨ready, .refl s⟩
  · rintro t ⟨⟨on, both, eight, out, back, unread⟩, same⟩
    exact ⟨⟨on, both, eight, out, back, unread⟩, same.taken, same.sent⟩
  · intro t flushed
    refine safe_load (flushed_stable quiet) (fun _ _ => trivial) (fun t here => ?_) flushed
    refine stage_store (flushed_stable quiet) (R := Disabled s.given) ?_ ?_ here
    · rintro u ⟨⟨ready, same⟩, tx, shifting⟩
      refine ⟨?_, ⟨tx, shifting⟩, ?_⟩
      · change decide (((t.enb &&& ~~~0x1) &&& 7) &&& 1 = 1) = false
        rw [turned_off]
        rfl
      · have given : u.given = s.given := same.sent
        rw [← given, MiniUart.given, tx, shifting, List.append_nil]
        exact (List.append_nil _).symm
    · intro u here
      exact safe_ret (disabled_stable _) (fun _ _ => trivial) (fun _ here => here) here

end Disable

section Sessions

variable {μ α : Type}

/-- How many of the bytes that came in have been read. -/
def MiniUart.read (s : MiniUart) : Nat := s.arrived.length - s.rx.length

/-- The program on a fresh link has come to p', where it has read what was read since s of the bytes that
came in, and sent what is now on the wire, in the shift register or in the FIFO behind what was given at s. -/
structure OnLink (p : Proc UInt32 μ α) (m : μ) (s : MiniUart) (n : Machine Reg UInt32 μ MiniUart α)
    (p' : Proc UInt32 μ α) (c : Ctx UInt32 μ) : Prop where
  steps : ∃ script, Node.Steps (n.dev.arrived.drop s.read) ⟨p, ⟨m, script, 0, []⟩⟩ ⟨p', c⟩
  mem : c.mem = n.mem
  taken : s.read + c.taken + n.dev.rx.length = n.dev.arrived.length
  sent : s.given ++ c.sent = n.dev.line ++ n.dev.shifting.toList ++ n.dev.tx
  returned : ∀ a, n.code = .ret a → p' = .ret a

theorem over_uart {p : Proc UInt32 μ α} {m : μ} {s : MiniUart} {n : Machine Reg UInt32 μ MiniUart α}
    (asks : p.Senses Asked) (ready : s.Ready) (runs : Runs miniUart anything ⟨uart.through p, m, s⟩ n) :
    ∃ p' c, OnLink p m s n p' c ∧ n.dev.Ready := by
  obtain ⟨script, p', c, steps, shown, kept⟩ := uart_sound.simulates ready asks runs
  have begun : (⟨m, script, uart.taken s, uart.sent s⟩ : Ctx UInt32 μ) =
      Ctx.late ⟨m, script, 0, []⟩ s.read s.given := by
    simp only [Ctx.late, Nat.add_zero, List.append_nil]
    rfl
  rw [begun] at steps
  obtain ⟨d, late, fresh⟩ := Node.steps_late steps
  change c = d.late s.read s.given at late
  subst late
  have taken : s.read + d.taken = n.dev.arrived.length - n.dev.rx.length := shown.shows.taken
  have inside := kept.unread.length_le
  exact ⟨p', d, ⟨⟨script, fresh⟩, shown.mem, by omega, shown.shows.sent, shown.returned⟩, kept⟩

def echo : Proc UInt32 Unit Unit := do
  let b ← .get8
  let c ← .get8
  .put8 b
  .put8 c

theorem echo_asks : echo.Senses Asked :=
  ⟨trivial, fun _ => ⟨trivial, fun _ => ⟨trivial, fun _ => trivial⟩⟩⟩

def listening : MiniUart := ⟨1, 0, 3, 3, 271, 73728, 0, [], none, [], [], [], false⟩

def echoing : MiniUart := { listening with line := [0x41, 0x42], arrived := [0x41, 0x42] }

theorem listening_ready : listening.Ready := ⟨rfl, rfl, rfl, rfl, rfl, List.suffix_rfl⟩

def turns (k : Nat) (b : UInt8) : List (Event MiniUart.Move) :=
  .act (.receive b) :: (List.replicate k [.cpu, .act .shift, .act .leave]).flatten

theorem echo_over_uart : ∃ p' c, OnLink echo () listening ⟨.ret (), (), echoing⟩ p' c ∧ echoing.Ready :=
  over_uart echo_asks listening_ready
    (after_runs (fun _ _ => trivial) (turns 1 0x41 ++ turns 14 0x42) ⟨uart.through echo, (), listening⟩)

/-- The UART is set up, the program runs over it, and the UART is turned off. -/
def session (p : Proc UInt32 μ α) : Program Reg UInt32 μ α := do
  .call uartInit
  let a ← uart.through p
  .call uartDisable
  pure a

/-- A session from the state s in which uart_init has brought the UART to the state u, and the program
returned when the bytes of w had come in: it has done what the program does on a fresh link, and all that it
sent is on the wire. -/
structure Held (p : Proc UInt32 μ α) (m : μ) (s u : MiniUart) (w : List UInt8) (a : α) (m' : μ) (t : MiniUart) :
    Prop where
  reached : Runs miniUart anything ⟨(.call uartInit : Program Reg UInt32 μ Unit), m, s⟩ ⟨.ret (), m, u⟩
  started : Started u
  heard : u.arrived <+: w ∧ w <+: t.arrived
  link : ∃ script c, Node.Steps (w.drop u.read) ⟨p, ⟨m, script, 0, []⟩⟩ ⟨.ret a, c⟩ ∧ c.mem = m' ∧
    t.line = u.line ++ c.sent
  flushed : t.Flushed
  off : t.enabled = false

/-- Whatever state the UART is in first. -/
theorem session_held {p : Proc UInt32 μ α} {m m' : μ} {s t : MiniUart} {a : α} (asks : p.Senses Asked)
    (runs : Runs miniUart anything ⟨session p, m, s⟩ ⟨.ret a, m', t⟩) : ∃ u w, Held p m s u w a m' t := by
  obtain ⟨_, m₁, u, first, rest⟩ := bind_returns runs
  obtain ⟨rfl, started⟩ := call_returns (init_safe s) first
  obtain ⟨a', m₂, v, middle, rest⟩ := bind_returns rest
  obtain ⟨p', c, link, ready⟩ := over_uart asks started.ready middle
  cases link.returned a' rfl
  have before := uart_quiet.runs middle
  have later := uart_quiet.runs rest
  obtain ⟨_, m₃, w, last, ending⟩ := bind_returns rest
  obtain ⟨rfl, disabled⟩ := call_returns (disable_safe ready) last
  obtain ⟨same, mem, ended⟩ := runs_ret (disabled_stable _) disabled ending
  cases same
  obtain ⟨script, steps⟩ := link.steps
  have nothing : u.given = u.line := by
    rw [MiniUart.given, started.flushed.tx, started.flushed.shifting, List.append_nil]
    exact List.append_nil _
  refine ⟨u, v.arrived, first, started, ⟨before, later⟩, ⟨script, c, steps, link.mem.trans mem.symm, ?_⟩,
    ended.flushed, ended.off⟩
  rw [ended.line, ← nothing, link.sent]
  rfl

def atReset : MiniUart := ⟨0, 0, 0, 0, 0, 0, 0, [], none, [], [], [], false⟩

theorem echo_session : ∃ m' t u w, Held echo () atReset u w () m' t := by
  have returned : (after miniUart (List.replicate 14 .cpu ++ turns 2 0x41 ++ turns 30 0x42)
      ⟨session echo, (), atReset⟩).returned = some () := by
    decide +kernel
  have all (s e) : anything s e := trivial
  obtain ⟨m', t, runs⟩ := after_returns all returned
  exact ⟨m', t, session_held echo_asks runs⟩

end Sessions

end EmbeddedOS.Uart
