import EmbeddedOS.Circular.Push
import EmbeddedOS.Steps.Run

/-! Reading from the NRF chip: the driver drains packets of one size from the chip's FIFO
into a queue of bytes, and calls of any sizes read from it. -/
namespace EmbeddedOS.Circular
open Ring Steps

/-- The payload of a packet, of the size that the chip is set to. -/
abbrev Packet (w : Nat) := { payload : List UInt8 // payload.length = w }

/-- The next access to the chip in nrf_get_pkts. -/
inductive Access where
  | hasPacket
  | payload
  | intrClr
  | fifoEmpty
deriving DecidableEq

/-- A call under way: the loop of nrf_nbytes_avail alone, as before a send, or with one of
the two reads behind it. -/
inductive Call where
  | drain
  | noblk (nbytes : UInt32)
  | timeout (nbytes : UInt32)

/-- What a call returned: the bytes, or 0, or -1. -/
inductive Returned where
  | bytes (nbytes : UInt32) (msg : List UInt8)
  | zero
  | timeout

def Returned.msg : Returned → List UInt8
  | .bytes _ msg => msg
  | _ => []

/-- The driver and the chip; calls sleep in rpi_wait between two tries. -/
structure Nrf (w : Nat) where
  recvq : Cq UInt8 CQ_N
  fifo : List (Packet w)
  running : Option (Call × Access)
  sleeping : List UInt32
  arrived : List (Packet w)
  returned : List Returned

variable {w : Nat}

def Nrf.start : Nrf w := ⟨⟨fun _ => 0, 0, 0⟩, [], none, [], [], []⟩

def deliver (s : Nrf w) (nbytes : UInt32) : Option (Nrf w) :=
  (cqPopN s.recvq nbytes.toNat).map fun r =>
    { s with recvq := r.2, running := none, returned := s.returned ++ [.bytes nbytes r.1] }

def finish (s : Nrf w) (expired : Bool) : Call → Option (Nrf w)
  | .drain => some { s with running := none }
  | .noblk nbytes =>
    if nelem s.recvq.head s.recvq.tail < nbytes.toNat then
      some { s with running := none, returned := s.returned ++ [.zero] }
    else deliver s nbytes
  | .timeout nbytes =>
    if nelem s.recvq.head s.recvq.tail < nbytes.toNat then
      if expired then some { s with running := none, returned := s.returned ++ [.timeout] }
      else some { s with running := none, sleeping := s.sleeping ++ [nbytes] }
    else deliver s nbytes

def access (s : Nrf w) (call : Call) (expired : Bool) : Access → Option (Nrf w)
  | .hasPacket =>
    if s.fifo.isEmpty then finish s expired call else some { s with running := some (call, .payload) }
  | .payload =>
    match s.fifo with
    | [] => none
    | p :: rest =>
      (cqPushN s.recvq p.val).bind fun r =>
        if r.2 then some { s with recvq := r.1, fifo := rest, running := some (call, .intrClr) }
        else none
  | .intrClr => some { s with running := some (call, .fifoEmpty) }
  | .fifoEmpty =>
    some { s with running := some (call, if s.fifo.isEmpty then .hasPacket else .payload) }

inductive Happens (w : Nat) where
  | arrive (p : Packet w)
  | call (call : Call)
  | wake (nbytes : UInt32)
  | access (expired : Bool)

/-- The reads assert that they are asked for something. -/
def Call.Asserts : Call → Prop
  | .drain => True
  | .noblk nbytes => nbytes > 0
  | .timeout nbytes => nbytes > 0

instance : DecidablePred Call.Asserts
  | .drain => inferInstanceAs (Decidable True)
  | .noblk nbytes => inferInstanceAs (Decidable (nbytes > 0))
  | .timeout nbytes => inferInstanceAs (Decidable (nbytes > 0))

/-- The FIFO of the chip has three places; a packet that finds none does not arrive. -/
def happens (s : Nrf w) : Happens w → Option (Nrf w)
  | .arrive p =>
    if s.fifo.length < 3 then some { s with fifo := s.fifo ++ [p], arrived := s.arrived ++ [p] }
    else some s
  | .call call =>
    if s.running.isNone ∧ call.Asserts then some { s with running := some (call, .hasPacket) }
    else none
  | .wake nbytes =>
    if s.running.isNone ∧ nbytes ∈ s.sleeping then
      some { s with running := some (.timeout nbytes, .hasPacket), sleeping := s.sleeping.erase nbytes }
    else none
  | .access expired => s.running.bind fun r => access s r.1 expired r.2

section Stream

def payloads (ps : List (Packet w)) : List UInt8 := ps.flatMap Subtype.val

def Nrf.received (s : Nrf w) : List UInt8 := s.returned.flatMap Returned.msg

/-- A call that returns bytes returns as many as it was asked for. -/
def Returned.Exact : Returned → Prop
  | .bytes nbytes msg => msg.length = nbytes.toNat
  | _ => True

structure Streams (s : Nrf w) : Prop where
  stream : payloads s.arrived = s.received ++ (s.recvq.contents ++ payloads s.fifo)
  exact_ : ∀ r ∈ s.returned, r.Exact
  present : ∀ call, s.running = some (call, .payload) → s.fifo ≠ []

variable {s t : Nrf w}

theorem start_streams : Streams (.start : Nrf w) := by
  refine ⟨?_, by simp [Nrf.start], by simp [Nrf.start]⟩
  simp [Nrf.start, Cq.contents, payloads, Nrf.received]

theorem received_append (s : Nrf w) (r : Returned) :
    (s.returned ++ [r]).flatMap Returned.msg = s.received ++ r.msg := by
  rw [List.flatMap_append, Nrf.received]
  simp

theorem exact_append {s : Nrf w} {r : Returned} (before : ∀ x ∈ s.returned, x.Exact) (last : r.Exact) :
    ∀ x ∈ s.returned ++ [r], x.Exact := by
  intro x member
  rcases List.mem_append.mp member with there | here
  · exact before x there
  · rw [List.mem_singleton.mp here]
    exact last

theorem failure_streams {r : Returned} (streams : Streams s) (none_left : r.msg = []) (fine : r.Exact) :
    Streams { s with running := none, returned := s.returned ++ [r] } := by
  refine ⟨?_, exact_append streams.exact_ fine, fun _ same => by cases same⟩
  change _ = (s.returned ++ [r]).flatMap Returned.msg ++ _
  rw [received_append, none_left, List.append_nil]
  exact streams.stream

theorem deliver_streams {nbytes : UInt32} (streams : Streams s)
    (enough : ¬ nelem s.recvq.head s.recvq.tail < nbytes.toNat) :
    ∃ t, deliver s nbytes = some t ∧ Streams t := by
  rw [nelem_eq_gap CQ_N_whole, ← Cq.contents_length] at enough
  obtain ⟨q, popped, rest⟩ := cqPopN_some (Nat.le_of_not_lt enough)
  refine ⟨_, by rw [deliver, popped]; rfl, ?_, exact_append streams.exact_ ?_, fun _ same => by cases same⟩
  · change _ = (s.returned ++ [Returned.bytes _ _]).flatMap Returned.msg ++ (q.contents ++ payloads s.fifo)
    rw [received_append, rest, List.append_assoc, ← List.append_assoc _ _ (payloads s.fifo)]
    change _ = _ ++ ((s.recvq.contents.take _ ++ s.recvq.contents.drop _) ++ _)
    rw [List.take_append_drop]
    exact streams.stream
  · change (s.recvq.contents.take _).length = _
    rw [List.length_take]
    omega

theorem finish_streams (streams : Streams s) (expired : Bool) (call : Call) :
    ∃ t, finish s expired call = some t ∧ Streams t := by
  have idle : ∀ call : Call, (none : Option (Call × Access)) = some (call, .payload) → s.fifo ≠ [] :=
    fun _ absurd => by cases absurd
  cases call with
  | drain => exact ⟨_, rfl, streams.stream, streams.exact_, idle⟩
  | noblk nbytes =>
    rw [finish]
    split
    · exact ⟨_, rfl, failure_streams streams rfl trivial⟩
    · rename_i enough
      exact deliver_streams streams enough
  | timeout nbytes =>
    rw [finish]
    split
    · split
      · exact ⟨_, rfl, failure_streams streams rfl trivial⟩
      · exact ⟨_, rfl, streams.stream, streams.exact_, idle⟩
    · rename_i enough
      exact deliver_streams streams enough

theorem access_streams {call : Call} {expired : Bool} {next : Access} (streams : Streams s)
    (done : access s call expired next = some t) : Streams t := by
  obtain ⟨stream, exact_, _⟩ := streams
  cases next with
  | hasPacket =>
    rw [access] at done
    split at done
    · obtain ⟨t', ended, kept⟩ := finish_streams ⟨stream, exact_, by assumption⟩ expired call
      cases ended.symm.trans done
      exact kept
    · rename_i some_left
      cases done
      exact ⟨stream, exact_, fun _ _ empty => some_left (by rw [empty]; rfl)⟩
  | payload =>
    rw [access] at done
    split at done
    · cases done
    · rename_i p rest fifo
      obtain ⟨⟨q, accepted⟩, push, more⟩ := Option.bind_eq_some_iff.mp done
      cases accepted with
      | false => cases more
      | true =>
        cases more
        have some_data : p.val.length ≠ 0 := by
          intro zero
          rw [cqPushN, if_pos zero] at push
          cases push
        refine ⟨?_, exact_, fun _ same => by cases same⟩
        rcases cqPushN_cases CQ_N_whole s.recvq some_data with ⟨_, refused⟩ | ⟨_, q', pushed, appended⟩
        · cases refused.symm.trans push
        · cases pushed.symm.trans push
          change _ = s.received ++ (q.contents ++ payloads rest)
          rw [appended.contents, stream, fifo, List.append_assoc]
          rfl
  | intrClr =>
    cases done
    exact ⟨stream, exact_, fun _ same => by cases same⟩
  | fifoEmpty =>
    cases done
    refine ⟨stream, exact_, fun other same empty => ?_⟩
    change s.fifo = [] at empty
    rw [empty] at same
    cases same

theorem happens_streams {happening : Happens w} (streams : Streams s)
    (done : happens s happening = some t) : Streams t := by
  obtain ⟨stream, exact_, present⟩ := streams
  cases happening with
  | arrive p =>
    rw [happens] at done
    split at done
    · cases done
      refine ⟨?_, exact_, fun _ _ empty => by simp at empty⟩
      change payloads (s.arrived ++ [p]) = s.received ++ (s.recvq.contents ++ payloads (s.fifo ++ [p]))
      rw [payloads, payloads, List.flatMap_append, List.flatMap_append, ← List.append_assoc s.recvq.contents,
        ← List.append_assoc]
      exact congrArg (· ++ _) stream
    · cases done
      exact ⟨stream, exact_, present⟩
  | call call =>
    rw [happens] at done
    split at done
    · cases done
      exact ⟨stream, exact_, fun _ same => by cases same⟩
    · cases done
  | wake nbytes =>
    rw [happens] at done
    split at done
    · cases done
      exact ⟨stream, exact_, fun _ same => by cases same⟩
    · cases done
  | access expired =>
    obtain ⟨⟨call, next⟩, _, step⟩ := Option.bind_eq_some_iff.mp done
    exact access_streams ⟨stream, exact_, present⟩ step

theorem access_goes_on (streams : Streams s) (expired : Bool) (running : s.running ≠ none)
    (some_size : 0 < w) (room : s.recvq.contents.length + w ≤ CQ_N - 1) :
    happens s (.access expired) ≠ none := by
  obtain ⟨⟨call, next⟩, runs⟩ := Option.ne_none_iff_exists'.mp running
  rw [happens, runs, Option.bind_some]
  cases next with
  | hasPacket =>
    dsimp only [access]
    split
    · obtain ⟨t, ended, _⟩ := finish_streams streams expired call
      rw [ended]
      exact Option.some_ne_none _
    · exact Option.some_ne_none _
  | payload =>
    obtain ⟨p, rest, fifo⟩ := List.exists_cons_of_ne_nil (streams.present call runs)
    have size := p.property
    have some_bytes : p.val.length ≠ 0 := by omega
    rcases cqPushN_cases CQ_N_whole s.recvq some_bytes with ⟨short, _⟩ | ⟨_, q, pushed, _⟩
    · omega
    · dsimp only [access]
      rw [fifo]
      dsimp only
      rw [pushed]
      exact Option.some_ne_none _
  | intrClr => exact Option.some_ne_none _
  | fifoEmpty => exact Option.some_ne_none _

end Stream

/-- After any arrivals and calls: what the calls returned is what arrived, from the front,
and the rest is in the queue or in the chip; a call returned all the bytes that it asked
for, or none; and the next access panics only when the queue overflows. -/
theorem receive_stream {happenings : List (Happens w)} {s : Nrf w}
    (ran : exec happens .start happenings = some s) :
    s.received <+: payloads s.arrived ∧
    payloads s.arrived = s.received ++ (s.recvq.contents ++ payloads s.fifo) ∧
    (∀ r ∈ s.returned, r.Exact) ∧
    ∀ expired, s.running ≠ none → 0 < w → s.recvq.contents.length + w ≤ CQ_N - 1 →
      happens s (.access expired) ≠ none := by
  have streams := exec_invariant (fun _ _ _ kept => happens_streams kept) start_streams ran
  exact ⟨⟨_, streams.stream.symm⟩, streams.stream, streams.exact_, access_goes_on streams⟩

/-- The second packet comes while the first is read, and both reads go across two packets. -/
def threePackets : List (Happens 2) :=
  [.arrive ⟨[1, 2], rfl⟩, .call (.noblk 3), .access false, .access false, .arrive ⟨[3, 4], rfl⟩] ++
    List.replicate 6 (.access false) ++ [.call (.timeout 3), .arrive ⟨[5, 6], rfl⟩] ++
    List.replicate 5 (.access false)

theorem packets_are_read : ∃ s : Nrf 2, exec happens .start threePackets = some s ∧
    s.received = [1, 2, 3, 4, 5, 6] ∧ s.received <+: payloads s.arrived ∧ ∀ r ∈ s.returned, r.Exact := by
  have read : (exec happens .start threePackets).map Nrf.received = some [1, 2, 3, 4, 5, 6] := by decide +kernel
  obtain ⟨s, ran, same⟩ := Option.map_eq_some_iff.mp read
  obtain ⟨first, -, exact_, -⟩ := receive_stream ran
  exact ⟨s, ran, same, first, exact_⟩

end EmbeddedOS.Circular
