import EmbeddedOS.Serial.Port
import EmbeddedOS.Uart.MiniUart

/-! The driver of the mini UART, uart.c, as a port: from the moment that it is set up, each of its calls
does to the wire what its name says, whatever the UART does meanwhile. -/
namespace EmbeddedOS.Uart
open Mmio Serial Bits

abbrev Bus := Driver Reg UInt32

def GPIO_TX : UInt32 := 14
def GPIO_RX : UInt32 := 15
def GPIO_FUNC_ALT5 : UInt32 := 2

def uartHasData : Bus UInt32 := do
  let val ← load .AUXLSR
  pure (val &&& 0x1)

def uartGet8 : Bus UInt32 := do
  let _ ← poll .AUXLSR fun val => val &&& 0x1 ≠ 0
  let val ← load Reg.AUXIO
  pure (val &&& 0xFF)

def uartPut8 (c : UInt8) : Bus UInt32 := do
  let _ ← poll .AUXLSR fun val => (val >>> 5) &&& 0x1 ≠ 0
  store Reg.AUXIO c.toUInt32
  pure 0

def uartFlushTx : Bus Unit := do
  let _ ← poll .AUXLSR fun val => (val >>> 6) &&& 0x1 ≠ 0

/-- For the pins of GPFSEL1, which are 10 to 19. -/
def gpioSetFunction (pin function : UInt32) : Bus Unit := do
  let val ← load .GPFSEL1
  let selN := pin % 10
  let val := val &&& ~~~(0x7 <<< (selN * 3))
  store .GPFSEL1 (val ||| (function <<< (3 * selN)))

def uartInit : Bus Unit := do
  let val ← load .AUXENB
  store .AUXENB (val ||| 0x1)
  store .AUXCNTL 0b00
  store .AUXIIR 0b110
  store .AUXIER 0b00
  store .AUXLCR 0b11
  store .AUXBAUD 271
  gpioSetFunction GPIO_TX GPIO_FUNC_ALT5
  gpioSetFunction GPIO_RX GPIO_FUNC_ALT5
  store .AUXCNTL 0b11
  uartFlushTx

def uartDisable : Bus Unit := do
  uartFlushTx
  let val ← load .AUXENB
  store .AUXENB (val &&& ~~~0x1)

def timerGetUsec : Bus UInt32 := load .CLO

/-- The bytes that were given to the UART, those still on their way included. -/
def MiniUart.given (s : MiniUart) : List UInt8 := s.line ++ s.shifting.toList ++ s.tx

/-- A program that asks for a byte is told by uart_has_data, one that asks for the time by the timer. -/
def uart : Port UInt32 Reg UInt32 MiniUart MiniUart.Move where
  dev := miniUart
  get8 := do
    let c ← uartGet8
    pure c.toUInt8
  put8 b := do
    let _ ← uartPut8 b
  sense waits := if waits 1 then uartHasData else timerGetUsec
  wire s := s.arrived
  taken s := s.arrived.length - s.rx.length
  sent := MiniUart.given

/-- The two questions: whether a byte is there, where 0 says nothing, and what time it is. -/
def Asked (waits : UInt32 → Bool) : Prop :=
  waits 1 = true ∧ waits 0 = false ∨ ∀ v, waits v = false

def anything (_ : MiniUart) (_ : MiniUart.Move) : Prop := True

namespace MiniUart

/-- Set up for eight bits in both directions, on the pins; and what has not been read is the end of what
has come in. -/
structure Ready (s : MiniUart) : Prop where
  on : s.enabled = true
  both : s.cntl = 0b11
  eight : s.lcr &&& 3 = 3
  out : field s.fsel1.toNat 12 3 = 2
  back : field s.fsel1.toNat 15 3 = 2
  unread : s.rx <:+ s.arrived

variable {s t : MiniUart}

theorem Ready.out_whole (ready : s.Ready) (b : UInt8) : s.onWire 14 b = [b] := by
  rw [onWire, if_pos ready.out, if_pos ready.eight]

theorem Ready.back_whole (ready : s.Ready) (b : UInt8) : s.onWire 15 b = [b] := by
  rw [onWire, if_pos ready.back, if_pos ready.eight]

end MiniUart

theorem uart_quiet : uart.Quiet anything MiniUart.Ready where
  loaded r s := ⟨[], by rw [List.append_nil]; exact (MiniUart.load_arrived r s).symm⟩
  stored r v s := ⟨[], by rw [List.append_nil]; exact (MiniUart.store_arrived r v s).symm⟩
  moved e s t moved := by
    cases MiniUart.act_cases moved with
    | receive b => exact List.prefix_append ..
    | shift | leave | drop | tick => exact List.prefix_rfl
  act s e t ready _ moved := by
    obtain ⟨on, both, eight, out, back, unread⟩ := ready
    cases MiniUart.act_cases moved with
    | shift free queue =>
      refine ⟨⟨on, both, eight, out, back, unread⟩, rfl, ?_⟩
      simp [uart, MiniUart.given, free, queue]
    | @leave b full =>
      refine ⟨⟨on, both, eight, out, back, unread⟩, rfl, ?_⟩
      have whole := (MiniUart.Ready.mk on both eight out back unread).out_whole b
      simp [uart, MiniUart.given, full, whole]
    | receive b =>
      have whole := (MiniUart.Ready.mk on both eight out back unread).back_whole b
      rw [whole]
      refine ⟨⟨on, both, eight, out, back, ?_⟩, ?_, rfl⟩
      · obtain ⟨first, split⟩ := unread
        exact ⟨first, by rw [← List.append_assoc, split]⟩
      · simp only [uart, List.length_append, List.length_singleton]
        omega
    | drop | tick => exact ⟨⟨on, both, eight, out, back, unread⟩, rfl, rfl⟩

section Calls

variable {s t : MiniUart}

theorem low_byte (b : UInt8) : (b.toUInt32 &&& 0xFF).toUInt8 = b := by
  apply UInt8.toNat_inj.mp
  simp only [UInt32.toNat_toUInt8, UInt32.toNat_and, UInt8.toNat_toUInt32, UInt32.reduceToNat]
  have small := b.toNat_lt
  rw [Nat.and_two_pow_sub_one_eq_mod b.toNat 8]
  omega

theorem status_same (ready : t.Ready) (same : uart.Same s t) :
    MiniUart.Ready (miniUart.load .AUXLSR t).2 ∧ uart.Same s (miniUart.load .AUXLSR t).2 := by
  obtain ⟨on, both, eight, out, back, unread⟩ := ready
  change MiniUart.Ready (MiniUart.load .AUXLSR t).2 ∧ uart.Same s (MiniUart.load .AUXLSR t).2
  rw [MiniUart.load_lsr on]
  exact ⟨⟨on, both, eight, out, back, unread⟩, same.taken, same.sent⟩

theorem status_value (ready : t.Ready) : (miniUart.load .AUXLSR t).1 = t.lsr :=
  congrArg Prod.fst (MiniUart.load_lsr ready.on)

theorem data_stays {e : MiniUart.Move} (data : s.rx ≠ []) (moved : MiniUart.act e s = some t) : t.rx ≠ [] := by
  cases MiniUart.act_cases moved with
  | receive b => exact List.append_ne_nil_of_left_ne_nil data _
  | shift | leave | drop | tick => exact data

theorem room_stays {e : MiniUart.Move} (room : s.tx.length < MiniUart.FIFO)
    (moved : MiniUart.act e s = some t) : t.tx.length < MiniUart.FIFO := by
  cases MiniUart.act_cases moved with
  | shift free queue =>
    rw [queue, List.length_cons] at room
    exact Nat.lt_of_succ_lt room
  | leave | receive | drop | tick => exact room

theorem taken_next {b : UInt8} {rest : List UInt8} (ready : t.Ready) (same : uart.Same s t)
    (data : t.rx = b :: rest) :
    MiniUart.Ready { t with rx := rest } ∧
      uart.Effect (.get8 : Proc UInt32 Unit UInt8) s b { t with rx := rest } := by
  obtain ⟨on, both, eight, out, back, unread⟩ := ready
  obtain ⟨first, split⟩ := unread
  rw [data] at split
  have before : uart.taken t = first.length := by
    simp only [uart, ← split, data, List.length_append]
    omega
  refine ⟨⟨on, both, eight, out, back, first ++ [b], ?_⟩, ?_, ?_, same.sent⟩
  · rw [List.append_assoc]
    exact split
  · rw [← same.taken, before]
    change t.arrived[first.length]? = some b
    rw [← split, List.getElem?_append_right (Nat.le_refl _), Nat.sub_self]
    rfl
  · rw [← same.taken, before]
    simp only [uart, ← split, List.length_append, List.length_cons]
    omega

theorem and_stable {P R : MiniUart → Prop} (one : Stable miniUart anything P)
    (two : ∀ s e t, R s → MiniUart.act e s = some t → R t) :
    Stable miniUart anything fun t => P t ∧ R t := by
  intro s e t here allowed moved
  exact ⟨one s e t here.1 allowed moved, two s e t here.2 moved⟩

theorem get8_safe (ready : s.Ready) :
    Safe miniUart anything (uart.During MiniUart.Ready (.get8 : Proc UInt32 Unit UInt8) s)
      (uart.After MiniUart.Ready (.get8 : Proc UInt32 Unit UInt8) s) uart.get8 s := by
  have quiet : Stable miniUart anything fun t => t.Ready ∧ uart.Same s t := uart_quiet.same_stable s
  refine safe_poll quiet (fun t here => ⟨here.1, .inl here.2⟩)
    (fun t here _ => status_same here.1 here.2) ?_ ⟨ready, .refl s⟩
  intro t here there
  rw [status_value here.1, decide_eq_true_eq, data_iff] at there
  have data : (miniUart.load .AUXLSR t).2.rx ≠ [] := by
    change (MiniUart.load .AUXLSR t).2.rx ≠ []
    rw [MiniUart.load_lsr here.1.on]
    exact there
  refine safe_load (P := fun t => (t.Ready ∧ uart.Same s t) ∧ t.rx ≠ []) (and_stable quiet ?_)
    (fun t here => ⟨here.1.1, .inl here.1.2⟩) ?_ ⟨status_same here.1 here.2, data⟩
  · intro t e u nonempty moved
    exact data_stays nonempty moved
  · rintro t ⟨⟨ready, same⟩, data⟩
    obtain ⟨b, rest, head⟩ := List.exists_cons_of_ne_nil data
    have after := taken_next ready same head
    change Safe miniUart anything _ _
      (Driver.ret (((MiniUart.load Reg.AUXIO t).1 &&& 0xFF).toUInt8)) (MiniUart.load Reg.AUXIO t).2
    rw [MiniUart.load_io ready.on head]
    dsimp only
    rw [low_byte]
    exact safe_ret (uart_quiet.after_stable _ s) (fun _ => Port.After.during) (fun _ here => here) after

theorem put8_safe (c : UInt8) (ready : s.Ready) :
    Safe miniUart anything (uart.During MiniUart.Ready (.put8 c : Proc UInt32 Unit Unit) s)
      (uart.After MiniUart.Ready (.put8 c : Proc UInt32 Unit Unit) s) (uart.put8 c) s := by
  have quiet : Stable miniUart anything fun t => t.Ready ∧ uart.Same s t := uart_quiet.same_stable s
  refine safe_poll quiet (fun t here => ⟨here.1, .inl here.2⟩)
    (fun t here _ => status_same here.1 here.2) ?_ ⟨ready, .refl s⟩
  intro t here there
  rw [status_value here.1, decide_eq_true_eq, room_iff] at there
  have room : (miniUart.load .AUXLSR t).2.tx.length < MiniUart.FIFO := by
    change (MiniUart.load .AUXLSR t).2.tx.length < MiniUart.FIFO
    rw [MiniUart.load_lsr here.1.on]
    exact there
  refine safe_store (P := fun t => (t.Ready ∧ uart.Same s t) ∧ t.tx.length < MiniUart.FIFO)
    (and_stable quiet ?_) (fun t here => ⟨here.1.1, .inl here.1.2⟩) ?_ ⟨status_same here.1 here.2, room⟩
  · intro t e u fits moved
    exact room_stays fits moved
  · rintro t ⟨⟨ready, same⟩, room⟩
    change Safe miniUart anything _ _ (Driver.ret ()) (MiniUart.store Reg.AUXIO c.toUInt32 t)
    rw [MiniUart.store_io _ ready.on room, UInt8.toUInt8_toUInt32]
    obtain ⟨on, both, eight, out, back, unread⟩ := ready
    refine safe_ret (uart_quiet.after_stable _ s) (fun _ => Port.After.during) (fun _ here => here)
      ⟨⟨on, both, eight, out, back, unread⟩, same.taken, ?_⟩
    rw [← same.sent]
    exact (List.append_assoc ..).symm

theorem has_data_safe {waits : UInt32 → Bool} (one : waits 1 = true) (zero : waits 0 = false) (ready : s.Ready) :
    Safe miniUart anything (uart.During MiniUart.Ready (.sense waits : Proc UInt32 Unit UInt32) s)
      (uart.After MiniUart.Ready (.sense waits : Proc UInt32 Unit UInt32) s) (uart.sense waits) s := by
  have quiet : Stable miniUart anything fun t => t.Ready ∧ uart.Same s t := uart_quiet.same_stable s
  have code : uart.sense waits = uartHasData := if_pos one
  rw [code]
  refine safe_load quiet (fun t here => ⟨here.1, .inl here.2⟩) ?_ ⟨ready, .refl s⟩
  intro t here
  rw [status_value here.1]
  refine safe_ret (uart_quiet.after_stable _ s) (fun _ => Port.After.during) (fun _ here => here)
    ⟨(status_same here.1 here.2).1, (status_same here.1 here.2).2, fun waiting => ?_⟩
  have there : t.rx ≠ [] := by
    rw [← data_iff, Ne]
    intro nothing
    rw [nothing, zero] at waiting
    cases waiting
  change (MiniUart.load .AUXLSR t).2.arrived.length - (MiniUart.load .AUXLSR t).2.rx.length <
    (MiniUart.load .AUXLSR t).2.arrived.length
  rw [MiniUart.load_lsr here.1.on]
  dsimp only
  have some_there := List.length_pos_of_ne_nil there
  have inside := here.1.unread.length_le
  omega

theorem get_usec_safe {waits : UInt32 → Bool} (never : ∀ v, waits v = false) (ready : s.Ready) :
    Safe miniUart anything (uart.During MiniUart.Ready (.sense waits : Proc UInt32 Unit UInt32) s)
      (uart.After MiniUart.Ready (.sense waits : Proc UInt32 Unit UInt32) s) (uart.sense waits) s := by
  have quiet : Stable miniUart anything fun t => t.Ready ∧ uart.Same s t := uart_quiet.same_stable s
  have code : uart.sense waits = timerGetUsec := if_neg (by rw [never 1]; exact Bool.false_ne_true)
  rw [code]
  refine safe_load quiet (fun t here => ⟨here.1, .inl here.2⟩) ?_ ⟨ready, .refl s⟩
  intro t here
  refine safe_ret (uart_quiet.after_stable _ s) (fun _ => Port.After.during) (fun _ here => here)
    ⟨here.1, here.2, fun waiting => ?_⟩
  rw [never] at waiting
  cases waiting

end Calls

theorem uart_sound : uart.Sound anything MiniUart.Ready Asked where
  toQuiet := uart_quiet
  get8 _ ready := get8_safe ready
  put8 b _ ready := put8_safe b ready
  sense waits s asked ready := by
    rcases asked with ⟨one, zero⟩ | never
    · exact has_data_safe one zero ready
    · exact get_usec_safe never ready

end EmbeddedOS.Uart
