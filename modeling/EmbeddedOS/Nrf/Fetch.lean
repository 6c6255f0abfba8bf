import EmbeddedOS.Nrf.Modes

/-! nrf_get_pkts on a radio to which packets still come. -/
namespace EmbeddedOS.Nrf.OnAir
open Circular Serial Mmio

abbrev Recvq := Cq UInt8 CQ_N

def push (q : Recvq) (buf : List UInt8) : Io Recvq :=
  match cqPushN q buf with
  | none => throw .assert
  | some (q, pushed) => do
    check pushed .recvqFull
    pure q

def getPktsLoop (n : Nic) : Nat → Recvq → Nat → Io (Recvq × Nat)
  | 0, _, _ => throw .cutOff
  | fuel + 1, q, res => do
    let buf ← nrfGetn NRF_R_RX_PAYLOAD n.config.nbytes.toNat
    let q ← push q buf
    nrfRxIntrClr
    if ← nrfRxFifoEmpty then pure (q, res + 1) else getPktsLoop n fuel q (res + 1)

def nrfGetPkts (fuel : Nat) (n : Nic) (q : Recvq) : Io (Recvq × Nat) := do
  nrfOptAssert (configIs rxConfig)
  if !(← nrfRxHasPacket) then pure (q, 0)
  else
    let r ← getPktsLoop n fuel q 0
    nrfOptAssert (configIs rxConfig)
    pure r

/-- `while(nrf_get_pkts(n)) ;` -/
def drain (n : Nic) (bound : Nat) : Nat → Recvq → Io Recvq
  | 0, _ => throw .cutOff
  | fuel + 1, q => do
    let (q, res) ← nrfGetPkts bound n q
    if res = 0 then pure q else drain n bound fuel q

section Drain
variable {c : Chip} {log : List (UInt32 × List UInt8)} {n : Nic}

/-- Nothing of the send is under way. -/
abbrev Idle (c : Chip) (log : List (UInt32 × List UInt8)) : Radio → Prop := At c [] false log

theorem idle_held : Held radio Heard (Idle c log) := at_held (.inr rfl)

theorem waiting_held : Held radio Heard fun s => Idle c log s ∧ s.rxq ≠ [] := by
  refine ⟨left, 3, ?_, fun s here => at_left here.1⟩
  rintro s e t ⟨here, some⟩ heard moved
  obtain ⟨kept, less⟩ := at_dwindles (.inr rfl) s e t here heard moved
  refine ⟨⟨kept, ?_⟩, less⟩
  obtain ⟨-, x, rfl⟩ | ⟨-, p, rest, front, -⟩ := heard_moves heard moved
  · exact List.append_ne_nil_of_left_ne_nil some _
  · rw [here.txq] at front
    cases front

/-- What a call leaves behind that fetches packets, if it finds room for them. -/
def Fetched {β : Type} (c : Chip) (log : List (UInt32 × List UInt8)) (R : β → Prop) (r : Except Panic β)
    (s : Radio) : Prop :=
  Idle c log s ∧ match r with | .ok b => R b | .error e => e = .recvqFull

theorem getn_bind {α : Type} {nbytes : Nat} (legal : 0 < nbytes ∧ nbytes < 65) (cmd : UInt8)
    (k : List UInt8 → Io α) : (nrfGetn cmd nbytes >>= k : Io α) = Driver.load (.read cmd nbytes) k := by
  unfold nrfGetn
  rw [decide_eq_true legal.1, decide_eq_true legal.2]
  rfl

theorem push_bind {α : Type} (q : Recvq) {buf : List UInt8} (some : buf.length ≠ 0) (k : Recvq → Io α) :
    (push q buf >>= k : Io α) = Driver.ret (.error .recvqFull) ∨
      ∃ q' : Recvq, q.contents.length < q'.contents.length ∧ (push q buf >>= k : Io α) = k q' := by
  rcases cqPushN_cases CQ_N_whole q some with ⟨-, full⟩ | ⟨-, q', pushed, appended⟩
  · refine .inl ?_
    simp only [push, full]
    rfl
  · refine .inr ⟨q', ?_, ?_⟩
    · rw [appended.contents, List.length_append]
      omega
    · simp only [push, pushed]
      rfl

theorem idle_taken (nbytes : Nat) {s : Radio} (here : Idle c log s) :
    Idle c log (radio.load (.read NRF_R_RX_PAYLOAD nbytes) s).2 ∧
      (radio.load (.read NRF_R_RX_PAYLOAD nbytes) s).1.length = nbytes := by
  simp only [radio, Radio.load, if_pos]
  cases s.rxq with
  | nil => exact ⟨here, List.length_replicate⟩
  | cons x rest =>
    refine ⟨⟨here.chip, here.txq, here.txDs, here.maxRt, here.delivered⟩, List.length_take_of_le ?_⟩
    rw [List.length_append, List.length_replicate]
    exact Nat.le_add_left nbytes _

theorem idle_cleared {s : Radio} (here : Idle c log s) : Idle c log (s.put8 NRF_STATUS (setBit RX_DR)) := by
  refine ⟨here.chip, here.txq, ?_, ?_, here.delivered⟩
  · change (s.txDs && true) = false
    rw [Bool.and_true, here.txDs]
  · change (s.maxRt && true) = false
    rw [Bool.and_true, here.maxRt]

theorem fetched_ret {β : Type} {R : β → Prop} {r : Except Panic β} {s : Radio} (here : Fetched c log R r s) :
    Finishes radio Heard (3 + 1 + 0) (Fetched c log R) (.ret r) s :=
  finishes_ret (at_dwindles (.inr rfl)) (fun _ => at_left) (fun _ idle => ⟨idle, here.2⟩) here.1

theorem getPktsLoop_finishes (legal : 0 < n.config.nbytes.toNat ∧ n.config.nbytes.toNat < 65) (fuel : Nat) :
    ∃ M, ∀ (q : Recvq) (res : Nat) (s : Radio), CQ_N ≤ q.contents.length + fuel → Idle c log s → s.rxq ≠ [] →
      Finishes radio Heard M
        (Fetched c log fun r => q.contents.length < r.1.contents.length ∧ res < r.2)
        (getPktsLoop n fuel q res) s := by
  induction fuel with
  | zero =>
    refine ⟨0, fun q res s enough _ _ => ?_⟩
    have short := q.contents_short
    have size : 0 < CQ_N := by decide
    omega
  | succ fuel ih =>
    obtain ⟨M, again⟩ := ih
    obtain ⟨v, N, dwindles, few⟩ := @waiting_held c log
    refine ⟨N + 1 + (3 + 1 + (3 + 1 + (3 + 1 + 0 + M))), fun q res s enough idle some => ?_⟩
    rw [getPktsLoop, getn_bind legal]
    refine finishes_load dwindles few ?_ ⟨idle, some⟩
    rintro t ⟨idle, -⟩
    obtain ⟨idle, length⟩ := idle_taken n.config.nbytes.toNat idle
    have bytes : (radio.load (.read NRF_R_RX_PAYLOAD n.config.nbytes.toNat) t).1.length ≠ 0 := by omega
    rcases push_bind q bytes _ with full | ⟨q', grown, pushed⟩
    · rw [full]
      exact (fetched_ret ⟨idle, rfl⟩).mono (by omega)
    · rw [pushed]
      refine finishes_store (at_dwindles (.inr rfl)) (fun _ => at_left) (fun u idle => ?_) idle
      have cleared : Idle c log (radio.store (.write (NRF_WR_REG ||| NRF_STATUS)) [setBit RX_DR] u) := by
        rw [store_plain (by decide)]
        exact idle_cleared idle
      refine finishes_load (at_dwindles (.inr rfl)) (fun _ => at_left) (fun w idle => ?_) cleared
      rw [load_plain (by decide)]
      change Finishes radio Heard _ _
        (if bitIsset (w.get8 NRF_FIFO_STATUS) 0 = true then pure (q', res + 1) else
          getPktsLoop n fuel q' (res + 1) : Io (Recvq × Nat)) w
      rw [fifo_rx_empty]
      split
      · refine Finishes.mono (fetched_ret ?_) (by omega)
        exact ⟨idle, grown, Nat.lt_succ_self res⟩
      · rename_i more
        have some : w.rxq ≠ [] := by simpa using more
        refine ((again q' (res + 1) w (by omega) idle some).weaken ?_).mono (by omega)
        rintro r x ⟨idle, rest⟩
        refine ⟨idle, ?_⟩
        cases r with
        | error e => exact rest
        | ok b => exact ⟨Nat.lt_trans grown rest.1, Nat.lt_of_succ_lt rest.2⟩

/-- The packets that are there, and that come meanwhile. -/
theorem nrfGetPkts_finishes (legal : 0 < n.config.nbytes.toNat ∧ n.config.nbytes.toNat < 65)
    (rx : c.reg NRF_CONFIG = rxConfig) (fuel : Nat) :
    ∃ M, ∀ (q : Recvq) (s : Radio), CQ_N ≤ q.contents.length + fuel → Idle c log s →
      Finishes radio Heard M
        (Fetched c log fun r => q.contents.length ≤ r.1.contents.length ∧
          (r.2 ≠ 0 → q.contents.length < r.1.contents.length)) (nrfGetPkts fuel n q) s := by
  obtain ⟨M, loop⟩ := getPktsLoop_finishes legal fuel
  refine ⟨3 + 1 + (3 + 1 + (3 + 1 + 0 + (M + (3 + 1 + (3 + 1 + 0))))), fun q s enough idle => ?_⟩
  refine finishes_load (at_dwindles (.inr rfl)) (fun _ => at_left) (fun t idle => ?_) idle
  rw [load_plain (by decide)]
  change Finishes radio Heard _ _ (check (t.get8 NRF_CONFIG = rxConfig) .assert >>= fun _ => _ : Io _) t
  rw [idle.plain plain_config, rx, decide_eq_true rfl]
  refine finishes_load (at_dwindles (.inr rfl)) (fun _ => at_left) (fun u idle => ?_) idle
  rw [load_plain (by decide)]
  change Finishes radio Heard _ _
    (if (! ! bitIsset (u.get8 NRF_FIFO_STATUS) 0) = true then pure (q, 0) else
      getPktsLoop n fuel q 0 >>= fun r => nrfOptAssert (configIs rxConfig) >>= fun _ => pure r : Io _) u
  rw [fifo_rx_empty, Bool.not_not]
  split
  · refine Finishes.mono (fetched_ret ?_) (by omega)
    exact ⟨idle, Nat.le_refl _, fun some => absurd rfl some⟩
  · rename_i more
    have some : u.rxq ≠ [] := by simpa using more
    refine Finishes.mono (finishes_try (loop q 0 u enough idle some) (M := 3 + 1 + (3 + 1 + 0)) ?_ ?_)
      (by omega)
    · rintro e w ⟨idle, full⟩
      refine Finishes.mono (fetched_ret ?_) (by omega)
      exact ⟨idle, full⟩
    · rintro r w ⟨idle, grown, -⟩
      refine finishes_load (at_dwindles (.inr rfl)) (fun _ => at_left) (fun x idle => ?_) idle
      rw [load_plain (by decide)]
      change Finishes radio Heard _ _ (check (x.get8 NRF_CONFIG = rxConfig) .assert >>= fun _ => _ : Io _) x
      rw [idle.plain plain_config, rx, decide_eq_true rfl]
      refine fetched_ret ?_
      exact ⟨idle, Nat.le_of_lt grown, fun _ => grown⟩

theorem drain_finishes (legal : 0 < n.config.nbytes.toNat ∧ n.config.nbytes.toNat < 65)
    (rx : c.reg NRF_CONFIG = rxConfig) {bound : Nat} (wide : CQ_N ≤ bound) (fuel : Nat) :
    ∃ M, ∀ (q : Recvq) (s : Radio), CQ_N ≤ q.contents.length + fuel → Idle c log s →
      Finishes radio Heard M (Fetched c log fun _ => True) (drain n bound fuel q) s := by
  induction fuel with
  | zero =>
    refine ⟨0, fun q s enough _ => ?_⟩
    have short := q.contents_short
    have size : 0 < CQ_N := by decide
    omega
  | succ fuel ih =>
    obtain ⟨M, again⟩ := ih
    obtain ⟨N, first⟩ := nrfGetPkts_finishes legal rx bound
    refine ⟨N + (3 + 1 + 0 + M), fun q s enough idle => ?_⟩
    refine finishes_try (first q s (by omega) idle) ?_ ?_
    · rintro e t ⟨idle, full⟩
      refine Finishes.mono (fetched_ret ?_) (by omega)
      exact ⟨idle, full⟩
    · rintro ⟨q', res⟩ t ⟨idle, -, grown⟩
      change Finishes radio Heard _ _ (if res = 0 then pure q' else drain n bound fuel q' : Io Recvq) t
      split
      · refine Finishes.mono (fetched_ret ?_) (by omega)
        exact ⟨idle, trivial⟩
      · rename_i some
        have more : q.contents.length < q'.contents.length := grown some
        exact (again q' t (by omega) idle).mono (by omega)

end Drain

end EmbeddedOS.Nrf.OnAir
