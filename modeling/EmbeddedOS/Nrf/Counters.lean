import EmbeddedOS.Nrf.Survival

/-! The counters of a nic, against what was sent and received. Of all operations only nrf_init stores
to them, with nrf_stat_start. -/
namespace EmbeddedOS.Nrf
open Circular Steps

structure Stats where
  totSentMsgs : UInt32
  totSentBytes : UInt32
  totRetrans : UInt32
  totLost : UInt32
  totRecvMsgs : UInt32
  totRecvBytes : UInt32

def nrfStatStart : Stats := ⟨0, 0, 0, 0, 0, 0⟩

/-- What the counters are for: sends that were reported as successful, with their bytes, what the
radio had to send again or lost, and the packets that were put into the queue. -/
structure Tally where
  sentMsgs : Nat
  sentBytes : Nat
  retrans : Nat
  lost : Nat
  recvMsgs : Nat
  recvBytes : Nat
deriving DecidableEq

def Tally.start : Tally := ⟨0, 0, 0, 0, 0, 0⟩

def Stats.tally (s : Stats) : Tally :=
  ⟨s.totSentMsgs.toNat, s.totSentBytes.toNat, s.totRetrans.toNat, s.totLost.toNat, s.totRecvMsgs.toNat,
    s.totRecvBytes.toNat⟩

/-- An operation of the driver on the counters and the bus. -/
abbrev Counted := StateT Stats Drv

namespace Counted

def init (c : Conf) (rxaddr ackedP : UInt32) : Counted Nic := do
  set nrfStatStart
  nrfInit c rxaddr ackedP

def txSendAck (n : Nic) (txaddr : UInt32) (msg : List UInt8) : Counted Nat := nrfTxSendAck n txaddr msg

def txSendNoack (n : Nic) (txaddr : UInt32) (msg : List UInt8) : Counted Nat := nrfTxSendNoack n txaddr msg

def getPkts (n : Nic) : Counted UInt32 := nrfGetPkts n

end Counted

structure Counting where
  world : World
  stats : Stats
  tally : Tally

/-- nrf_stat_start, or a call with what the radio counts meanwhile. -/
inductive Op where
  | statStart
  | call (h : Happens) (retrans lost : Nat)

/-- The packets that a call takes out of the RX FIFO go to the queue. -/
def Tally.receive (t : Tally) (h : Happens) (b : Bus) : Tally :=
  let got := h.packets.take (h.packets.length - b.packets.length)
  { t with recvMsgs := t.recvMsgs + got.length, recvBytes := t.recvBytes + (got.map List.length).sum }

def Tally.send (t : Tally) (res retrans lost : Nat) : Tally :=
  { t with
    sentMsgs := t.sentMsgs + 1
    sentBytes := t.sentBytes + res
    retrans := t.retrans + retrans
    lost := t.lost + lost }

def Counting.ask {α : Type} (w : Counting) (h : Happens) (p : Nic → Counted α) (f : α → Tally → Tally) :
    Option Counting :=
  w.world.nic.bind fun n => (((p n).run w.stats).run (w.world.bus h)).map fun r =>
    ⟨⟨r.2.chip, r.2.recvq, some n⟩, r.1.2, f r.1.1 (w.tally.receive h r.2)⟩

def tick (w : Counting) : Op → Option Counting
  | .statStart => w.world.nic.map fun _ => { w with stats := nrfStatStart, tally := .start }
  | .call h retrans lost =>
    match h.call with
    | .init c rxaddr acked =>
      (((Counted.init c rxaddr acked).run w.stats).run (w.world.bus h)).map fun r =>
        ⟨⟨r.2.chip, r.2.recvq, some r.1.1⟩, r.1.2, .start⟩
    | .txSendAck txaddr msg =>
      w.ask h (fun n => Counted.txSendAck n txaddr msg) fun res t => t.send res retrans lost
    | .txSendNoack txaddr msg =>
      w.ask h (fun n => Counted.txSendNoack n txaddr msg) fun res t => t.send res retrans lost
    | .getPkts => w.ask h Counted.getPkts fun _ t => t

def Truthful (w : Counting) : Prop := w.world.nic.isSome → w.stats.tally = w.tally

/-- A call of nrf_init, or one of nrf_get_pkts that finds the RX FIFO empty. -/
def Uneventful : Op → Prop
  | .statStart => True
  | .call h _ _ =>
    match h.call with
    | .init .. => True
    | .getPkts => ∀ v ∈ h.answers.head?, bitIsset v 0 = true
    | _ => False

section Fetching

theorem packets_apart : Apart Bus.packets := fun _ _ _ => rfl

theorem getPayload_takes (nbytes : UInt8) (s : Bus) :
    Ends (nrfGetPayload nbytes) (fun _ t => t.packets.length < s.packets.length) s := by
  unfold nrfGetPayload
  rw [ends_bind, ends_check]
  intro _
  rw [ends_bind, ends_get]
  cases front : s.packets with
  | nil => exact ends_panic
  | cons buf rest =>
    simp only [ends_bind, ends_check, ends_modify, ends_pure]
    intro _
    exact Nat.lt_succ_self rest.length

theorem getPktsLoop_takes (n : Nic) (k : Nat) (res : UInt32) (s : Bus) :
    Ends (getPktsLoop n k res) (fun _ t => t.packets.length < s.packets.length) s := by
  induction k generalizing res s with
  | zero => exact ends_panic
  | succ k ih =>
    unfold getPktsLoop
    rw [ends_bind]
    refine (getPayload_takes n.config.nbytes s).mono fun buf t less => ?_
    rw [ends_bind]
    refine (push_keeps packets_apart buf t).mono fun _ u pushed => ?_
    rw [ends_bind]
    have clears : Keeps Bus.packets nrfRxIntrClr := intrClr_keeps _
    refine (clears u).mono fun _ v cleared => ?_
    rw [ends_bind]
    have asks : Keeps Bus.packets nrfRxFifoEmpty := isset_keeps packets_apart _ _
    refine (asks v).mono fun b w asked => ?_
    have taken : w.packets.length < s.packets.length := by
      rw [asked, cleared, pushed]
      exact less
    cases b with
    | true => exact (ends_pure _).mpr taken
    | false => exact (ih (res + 1) w).mono fun _ _ later => Nat.lt_trans later taken

/-- What the first look at the RX FIFO decides. -/
theorem getPkts_takes (n : Nic) (s : Bus) : Ends (nrfGetPkts n) (fun _ t => ∃ v, s.answers.head? = some v ∧
    (bitIsset v 0 = true → t.packets = s.packets) ∧
      (bitIsset v 0 = false → t.packets.length < s.packets.length)) s := by
  unfold nrfGetPkts nrfRxHasPacket nrfRxFifoEmpty
  simp only [ends_bind, ends_optAssert, configIs, ends_get8 plain_config, ends_pure, ends_isset,
    ends_get8_air air_fifo_status]
  intro _ v rest heard
  have first : s.answers.head? = some v := by rw [heard, List.head?_cons]
  cases empty : bitIsset v 0 with
  | true => exact (ends_pure _).mpr ⟨v, first, fun _ => rfl, fun off => by rw [empty] at off; cases off⟩
  | false =>
    simp only [Bool.not_false, Bool.not_true, Bool.false_eq_true, if_false, ends_bind, ends_get]
    refine (getPktsLoop_takes n _ 0 (s.heard rest)).mono fun res t less => ?_
    have back : Keeps Bus.packets (nrfOptAssert (configIs rxConfig)) := optAssert_keeps (configIs_keeps _)
    refine (back t).mono fun _ u kept => (ends_pure _).mpr ⟨v, first, fun on => ?_, fun _ => ?_⟩
    · rw [empty] at on
      cases on
    · rw [kept]
      exact less

end Fetching

section Truth

/-- No operation but nrf_stat_start stores to the counters. -/
theorem lifted_run {α : Type} (p : Drv α) (stats : Stats) (b : Bus) :
    ((liftM p : Counted α).run stats).run b = (p.run b).map fun r => ((r.1, stats), r.2) := by
  change (p.run b).bind (fun r => some ((r.1, stats), r.2)) = _
  cases p.run b <;> rfl

/-- The counters are zero, and there is nothing that they should have counted. -/
def Blank (w : Counting) : Prop := w.world.nic.isSome → w.stats = nrfStatStart ∧ w.tally = .start

theorem asked {α : Type} {p : Nic → Drv α} {f : α → Tally → Tally} {w v : Counting} {h : Happens}
    (ran : w.ask h (fun n => liftM (p n)) f = some v) : ∃ n a b, w.world.nic = some n ∧
      (p n).run (w.world.bus h) = some (a, b) ∧ v.world.nic = some n ∧ v.stats = w.stats ∧
        v.tally = f a (w.tally.receive h b) := by
  obtain ⟨n, here, back⟩ := Option.bind_eq_some_iff.mp ran
  rw [lifted_run, Option.map_map] at back
  obtain ⟨⟨a, b⟩, came, rfl⟩ := Option.map_eq_some_iff.mp back
  exact ⟨n, a, b, here, came, rfl, rfl, rfl⟩

theorem init_run (c : Conf) (rxaddr acked : UInt32) (stats : Stats) (b : Bus) :
    ((Counted.init c rxaddr acked).run stats).run b =
      ((nrfInit c rxaddr acked).run b).map fun r => ((r.1, nrfStatStart), r.2) :=
  lifted_run (nrfInit c rxaddr acked) nrfStatStart b

theorem receive_none {t : Tally} {h : Happens} {b : Bus} (kept : b.packets = h.packets) :
    t.receive h b = t := by
  simp only [Tally.receive, kept, Nat.sub_self, List.take_zero, List.length_nil, List.map_nil, List.sum_nil,
    Nat.add_zero]

theorem receive_some {t : Tally} {h : Happens} {b : Bus} (less : b.packets.length < h.packets.length) :
    (t.receive h b).recvMsgs ≠ 0 := by
  simp only [Tally.receive, List.length_take]
  omega

/-- What is counted, from nothing on, is nothing just if the operation is uneventful. -/
theorem tick_cases {w v : Counting} {op : Op} (blank : Blank w) (ran : tick w op = some v) :
    v.world.nic.isSome ∧ v.stats = nrfStatStart ∧ (v.tally = .start ↔ Uneventful op) := by
  cases op with
  | statStart =>
    obtain ⟨n, here, rfl⟩ := Option.map_eq_some_iff.mp ran
    exact ⟨by rw [here]; rfl, rfl, iff_of_true rfl trivial⟩
  | call h retrans lost =>
    have sent {n : Nic} {t : Tally} {a : Nat} (here : w.world.nic = some n) (nic : v.world.nic = some n)
        (stats : v.stats = w.stats) (tally : v.tally = t.send a retrans lost)
        (eventful : ¬ Uneventful (.call h retrans lost)) : v.world.nic.isSome ∧ v.stats = nrfStatStart ∧
          (v.tally = .start ↔ Uneventful (.call h retrans lost)) := by
      refine ⟨by rw [nic]; rfl, stats.trans (blank (by rw [here]; rfl)).1, iff_of_false ?_ eventful⟩
      rw [tally]
      intro same
      exact absurd (congrArg Tally.sentMsgs same) (Nat.succ_ne_zero t.sentMsgs)
    cases call : h.call with
    | init c rxaddr acked =>
      simp only [tick, call, init_run, Option.map_map] at ran
      obtain ⟨r, -, rfl⟩ := Option.map_eq_some_iff.mp ran
      refine ⟨rfl, rfl, iff_of_true rfl ?_⟩
      simp only [Uneventful, call]
    | txSendAck txaddr msg =>
      simp only [tick, call] at ran
      obtain ⟨n, a, b, here, -, nic, stats, tally⟩ := asked ran
      exact sent here nic stats tally (by simp only [Uneventful, call, not_false_eq_true])
    | txSendNoack txaddr msg =>
      simp only [tick, call] at ran
      obtain ⟨n, a, b, here, -, nic, stats, tally⟩ := asked ran
      exact sent here nic stats tally (by simp only [Uneventful, call, not_false_eq_true])
    | getPkts =>
      simp only [tick, call] at ran
      obtain ⟨n, a, b, here, came, nic, stats, tally⟩ := asked ran
      obtain ⟨zero, start⟩ := blank (by rw [here]; rfl)
      obtain ⟨x, first, stays, takes⟩ := getPkts_takes n (w.world.bus h) a b came
      have head : h.answers.head? = some x := first
      refine ⟨by rw [nic]; rfl, stats.trans zero, ?_⟩
      rw [tally, start]
      simp only [Uneventful, call, head, Option.mem_some_iff, forall_eq']
      cases empty : bitIsset x 0 with
      | true => exact iff_of_true (receive_none (stays empty)) rfl
      | false =>
        refine iff_of_false (fun same => ?_) Bool.false_ne_true
        exact receive_some (takes empty) (congrArg Tally.recvMsgs same)

theorem truthful_iff {w : Counting} (nic : w.world.nic.isSome) (zero : w.stats = nrfStatStart) :
    Truthful w ↔ w.tally = .start := by
  rw [Truthful, zero]
  constructor
  · intro truthful
    exact (truthful nic).symm
  · rintro same -
    exact same.symm

theorem Blank.truthful {w : Counting} (blank : Blank w) : Truthful w := by
  intro nic
  obtain ⟨zero, start⟩ := blank nic
  rw [zero, start]
  rfl

theorem truth {w v : Counting} {ops : List Op} (blank : Blank w) (ran : exec tick w ops = some v) :
    (∀ k u, exec tick w (ops.take k) = some u → Truthful u) ↔ ∀ op ∈ ops, Uneventful op := by
  induction ops generalizing w with
  | nil =>
    refine iff_of_true (fun k u reached => ?_) (fun op none => by cases none)
    rw [List.take_nil] at reached
    cases reached
    exact blank.truthful
  | cons op ops ih =>
    obtain ⟨mid, one, later⟩ := Option.bind_eq_some_iff.mp ran
    obtain ⟨nic, zero, start⟩ := tick_cases blank one
    rw [forall_takes one, and_iff_right blank.truthful, List.forall_mem_cons]
    by_cases quiet : Uneventful op
    · rw [ih (fun _ => ⟨zero, start.mpr quiet⟩) later, and_iff_right quiet]
    · refine iff_of_false (fun all => quiet ?_) fun all => quiet all.1
      exact start.mp ((truthful_iff nic zero).mp (all 0 mid rfl))

/-- At every return of a run from power-up the counters are true, just if there was nothing to count. -/
theorem counters_true_iff {w v : Counting} {ops : List Op} (fresh : w.world.nic = none)
    (ran : exec tick w ops = some v) :
    (∀ k u, exec tick w (ops.take k) = some u → Truthful u) ↔ ∀ op ∈ ops, Uneventful op := by
  refine truth (fun some => ?_) ran
  rw [fresh] at some
  cases some

def unset : Counting := ⟨powerUp, nrfStatStart, .start⟩

def lonely : List Op :=
  [.call ⟨.init conf 0xd5d5d5 0, [0x0e, 0x11, 0x11, 0x11], []⟩ 0 0, .call ⟨.getPkts, [0x11], []⟩ 0 0]

theorem lonely_truthful : ∃ v, exec tick unset lonely = some v ∧ Truthful v := by
  have comes : (exec tick unset lonely).isSome = true := by decide +kernel
  obtain ⟨v, ran⟩ := Option.isSome_iff_exists.mp comes
  have quiet : ∀ op ∈ lonely, Uneventful op := by
    rw [lonely, List.forall_mem_cons, List.forall_mem_singleton]
    refine ⟨trivial, fun v first => ?_⟩
    cases first
    decide
  exact ⟨v, ran, (counters_true_iff rfl ran).mpr quiet 2 v ran⟩

def busy : List Op := unacked.map fun h => .call h 0 0

theorem busy_untruthful : ¬ ∀ (w v : Counting) (ops : List Op), w.world.nic = none →
    exec tick w ops = some v → Truthful v := by
  intro always
  have comes : (exec tick unset busy).map (fun w => (w.world.nic.isSome, w.stats.tally.sentMsgs, w.tally)) =
      some (true, 0, ⟨2, 8, 0, 0, 1, 4⟩) := by
    decide +kernel
  obtain ⟨v, ran, same⟩ := Option.map_eq_some_iff.mp comes
  obtain ⟨nic, rest⟩ := Prod.mk.inj same
  obtain ⟨zero, tally⟩ := Prod.mk.inj rest
  have truthful := always unset v busy rfl ran nic
  rw [truthful, tally] at zero
  cases zero

end Truth

end EmbeddedOS.Nrf
