import EmbeddedOS.I2c.Transfers

/-! Sequences of calls of the driver, from i2c_init on. -/
namespace EmbeddedOS.I2c
open Mmio

inductive Call where
  | write (addr : UInt32) (data : List UInt8) (nbytes : UInt32)
  | read (addr nbytes : UInt32)

namespace Call

/-- The address and the length fit the registers, and the buffer holds what is sent. -/
def Fits : Call → Prop
  | .write addr data nbytes => addr < 0x80 ∧ nbytes < 0x10000 ∧ nbytes.toNat ≤ data.length
  | .read addr nbytes => addr < 0x80 ∧ nbytes < 0x10000

instance : DecidablePred Fits
  | .write .. => inferInstanceAs (Decidable (_ ∧ _))
  | .read .. => inferInstanceAs (Decidable (_ ∧ _))

def reads : Call → Bool
  | .write .. => false
  | .read .. => true

def run : Call → Bus (List UInt8)
  | .write addr data nbytes => do
    let _ ← i2cWrite addr data nbytes
    pure []
  | .read addr nbytes => do
    let (_, data) ← i2cRead addr nbytes
    pure data

def header : Call → Bool × UInt32 × Nat
  | .write addr _ nbytes => (false, addr, nbytes.toNat)
  | .read addr nbytes => (true, addr, nbytes.toNat)

/-- The transfer that was asked for, given what the caller finds in its buffer. -/
def transfer : Call → List UInt8 → Transfer
  | .write addr data nbytes, _ => ⟨false, addr, nbytes.toNat, data.take nbytes.toNat⟩
  | .read addr nbytes, got => ⟨true, addr, nbytes.toNat, got⟩

end Call

def runAll : List Call → Bus (List (List UInt8))
  | [] => pure []
  | c :: calls => do
    let got ← c.run
    let rest ← runAll calls
    pure (got :: rest)

def session (calls : List Call) : Bus (List (List UInt8)) := do
  i2cInit
  runAll calls

/-- At every moment the transfers started are those of the calls so far, each with its
direction, address and length. -/
def Started (L : List Transfer) (calls : List Call) (s : Bsc) : Prop :=
  s.log.map Transfer.header <+: L.map Transfer.header ++ calls.map Call.header

/-- In the end there is one transfer for each call: a write has sent its bytes, and what
a read has stored is what the device has sent, all of it. -/
structure Ended (L : List Transfer) (calls : List Call) (gots : List (List UInt8)) (s : Bsc) :
    Prop where
  answered : gots.length = calls.length
  log : s.log = L ++ List.zipWith Call.transfer calls gots
  whole : ∀ t ∈ List.zipWith Call.transfer calls gots, t.bytes.length = t.len

/-- Every run of the calls does what they ask for, and some run comes to its end. -/
structure AsAsked (calls : List Call) (s : Bsc) : Prop where
  safe : Safe bsc anything (Started s.log calls) (Ended s.log calls) (session calls) s
  ends : ∃ gots t, Returns bsc (session calls) s gots t

/-- No write comes after a read, and none at all where the READ bit is set. -/
def InOrder (r : Bool) (calls : List Call) : Prop :=
  calls.Pairwise (fun c d => c.reads → d.reads) ∧ (r → ∀ c ∈ calls, c.reads)

theorem inOrder_write {addr nbytes : UInt32} {data : List UInt8} {r : Bool} {calls : List Call} :
    InOrder r (.write addr data nbytes :: calls) ↔ r = false ∧ InOrder false calls := by
  cases r <;> simp [InOrder, Call.reads]

theorem inOrder_read {addr nbytes : UInt32} {r : Bool} {calls : List Call} :
    InOrder r (.read addr nbytes :: calls) ↔ InOrder true calls := by
  simp only [InOrder, List.pairwise_cons, List.forall_mem_cons, Call.reads, forall_const, true_and]
  constructor
  · rintro ⟨⟨all, ordered⟩, _⟩
    exact ⟨ordered, all⟩
  · rintro ⟨ordered, all⟩
    exact ⟨⟨all, ordered⟩, fun _ => all⟩

section Init

variable {s : Bsc}

def initialised (s : Bsc) : Bsc := { s with control := controlWord false, fifo := [], clockDiv := 0x5dc }

theorem init_control : Bsc.store .control (((0b11 : UInt32) <<< 4) ||| ((1 : UInt32) <<< 15)) s =
    { s with control := controlWord false, fifo := [] } := rfl

theorem init_status : Bsc.store .status 0 s = s := by
  simp [Bsc.store]

theorem initialised_quiet (off : s.active = false) : Quiet s.log false (initialised s) :=
  ⟨off, rfl, rfl, rfl⟩

theorem i2c_init_safe {I : Bsc → Prop} (off : s.active = false)
    (inv : ∀ t : Bsc, t.log = s.log → I t) :
    Safe bsc anything I (fun _ t => t = initialised s) i2cInit s := by
  refine idle_store off (inv s rfl) ?_
  rw [init_control]
  refine idle_store off (inv _ rfl) (idle_store off (inv _ rfl) ?_)
  rw [init_status]
  exact idle_ret off (inv _ rfl) rfl

theorem i2c_init_returns (s : Bsc) : Returns bsc i2cInit s () (initialised s) := by
  refine (stores .control _ s).andThen ?_
  rw [init_control]
  refine (stores .clockDiv _ _).andThen ?_
  have kept := stores .status 0 (initialised s)
  rwa [init_status] at kept

end Init

section Sessions

variable {L : List Transfer} {s : Bsc} {r : Bool}

theorem Call.run_safe {I : Bsc → Prop} (c : Call) (fits : c.Fits) (ordered : r = true → c.reads = true)
    (before : ∀ t : Bsc, t.log = L → I t)
    (after : ∀ t : Bsc, t.log.map Transfer.header = L.map Transfer.header ++ [c.header] → I t)
    (quiet : Quiet L r s) :
    Safe bsc anything I (fun got t => (c.transfer got).bytes.length = (c.transfer got).len ∧
      Quiet (L ++ [c.transfer got]) c.reads t) c.run s := by
  cases c with
  | write addr data n =>
    cases r with
    | true => cases ordered rfl
    | false =>
      refine safe_bind (i2c_write_safe fits.1 fits.2.1 fits.2.2 before after quiet) ?_
      rintro v t ⟨-, done⟩
      have length : (data.take n.toNat).length = n.toNat := List.length_take_of_le fits.2.2
      exact idle_ret done.off (after t (by rw [done.log, List.map_append]; rfl)) ⟨length, done⟩
  | read addr n =>
    refine safe_bind (i2c_read_safe fits.1 fits.2 before after quiet) ?_
    rintro ⟨v, data⟩ t ⟨-, length, done⟩
    exact idle_ret done.off (after t (by rw [done.log, List.map_append]; rfl)) ⟨length, done⟩

theorem Call.run_returns (c : Call) (fits : c.Fits) (ordered : r = true → c.reads = true)
    (quiet : Quiet L r s) : ∃ got t, Returns bsc c.run s got t := by
  cases c with
  | write addr data n =>
    cases r with
    | true => cases ordered rfl
    | false =>
      obtain ⟨t, returns⟩ := i2c_write_returns data fits.1 fits.2.1 quiet
      exact ⟨[], t, returns.andThen (Steps.Reaches.refl _ _)⟩
  | read addr n =>
    obtain ⟨v, t, returns⟩ := i2c_read_returns fits.1 fits.2 quiet
    exact ⟨v.2, t, returns.andThen (Steps.Reaches.refl _ _)⟩

theorem header_transfer (c : Call) (got : List UInt8) : (c.transfer got).header = c.header := by
  cases c <;> rfl

theorem later_inOrder {c : Call} {calls : List Call} (reads : r = true → c.reads = true) :
    InOrder r (c :: calls) ↔ InOrder c.reads calls := by
  cases c with
  | read addr n => exact inOrder_read
  | write addr data n =>
    have clear : r = false := by
      by_contra set
      cases reads (by simpa using set)
    rw [inOrder_write]
    exact and_iff_right clear

theorem runAll_safe {E : List (Bool × UInt32 × Nat)} (calls : List Call)
    (fits : ∀ c ∈ calls, c.Fits) (ordered : InOrder r calls)
    (total : L.map Transfer.header ++ calls.map Call.header = E) (quiet : Quiet L r s) :
    Safe bsc anything (fun t => t.log.map Transfer.header <+: E)
      (fun gots t => Ended L calls gots t ∧ t.active = false) (runAll calls) s := by
  induction calls generalizing L r s with
  | nil =>
    have same : s.log.map Transfer.header = E := by
      rw [quiet.log, ← total, List.map_nil, List.append_nil]
    refine idle_ret quiet.off (same ▸ List.prefix_rfl) ⟨⟨rfl, ?_, ?_⟩, quiet.off⟩
    · rw [quiet.log, List.zipWith_nil_left, List.append_nil]
    · intro t none
      cases none
  | cons c calls ih =>
    rw [List.forall_mem_cons] at fits
    have reads : r = true → c.reads = true := fun set => ordered.2 set c List.mem_cons_self
    have later : InOrder c.reads calls := (later_inOrder reads).mp ordered
    rw [List.map_cons, List.append_cons] at total
    have before : ∀ t : Bsc, t.log = L → t.log.map Transfer.header <+: E := by
      intro t same
      rw [same, ← total, List.append_assoc]
      exact List.prefix_append _ _
    have after : ∀ t : Bsc, t.log.map Transfer.header = L.map Transfer.header ++ [c.header] →
        t.log.map Transfer.header <+: E := by
      intro t same
      rw [same, ← total]
      exact List.prefix_append _ _
    refine safe_bind (c.run_safe fits.1 reads before after quiet) ?_
    rintro got t ⟨whole, done⟩
    have total' : (L ++ [c.transfer got]).map Transfer.header ++ calls.map Call.header = E := by
      rw [List.map_append, List.map_singleton, header_transfer, total]
    have rest := ih fits.2 later total' done
    change Safe bsc anything _ _ (runAll calls >>= fun rest => pure (got :: rest)) t
    refine safe_bind rest.returns_inv ?_
    rintro gots u ⟨⟨ended, off⟩, headers⟩
    have log : u.log = L ++ List.zipWith Call.transfer (c :: calls) (got :: gots) := by
      rw [ended.log, List.append_assoc, List.zipWith_cons_cons]
      rfl
    refine idle_ret off headers ⟨⟨congrArg Nat.succ ended.answered, log, ?_⟩, off⟩
    rw [List.zipWith_cons_cons, List.forall_mem_cons]
    exact ⟨whole, ended.whole⟩

/-- The state between two calls, by what any run of the first has to leave behind. -/
theorem Call.run_quiet (c : Call) (fits : c.Fits) (ordered : r = true → c.reads = true)
    (quiet : Quiet L r s) :
    ∃ got t, Returns bsc c.run s got t ∧ Quiet (L ++ [c.transfer got]) c.reads t := by
  obtain ⟨got, t, returns⟩ := c.run_returns fits ordered quiet
  have safe := c.run_safe (I := fun _ => True) fits ordered (fun _ _ => trivial)
    (fun _ _ => trivial) quiet
  exact ⟨got, t, returns, ((safe.reached (fun _ _ => trivial) returns).2 got rfl).2⟩

theorem runAll_returns (calls : List Call) (fits : ∀ c ∈ calls, c.Fits) (ordered : InOrder r calls)
    (quiet : Quiet L r s) : ∃ gots t, Returns bsc (runAll calls) s gots t := by
  induction calls generalizing L r s with
  | nil => exact ⟨[], s, Steps.Reaches.refl _ _⟩
  | cons c calls ih =>
    rw [List.forall_mem_cons] at fits
    have reads : r = true → c.reads = true := fun set => ordered.2 set c List.mem_cons_self
    obtain ⟨got, t, returns, done⟩ := c.run_quiet fits.1 reads quiet
    obtain ⟨gots, u, rest⟩ := ih fits.2 ((later_inOrder reads).mp ordered) done
    refine ⟨got :: gots, u, returns.andThen ?_⟩
    exact Returns.andThen rest (Steps.Reaches.refl _ _)

theorem runAll_strays {E : List (Bool × UInt32 × Nat)} (calls : List Call)
    (fits : ∀ c ∈ calls, c.Fits) (unordered : ¬ InOrder r calls)
    (total : L.map Transfer.header ++ calls.map Call.header = E) (quiet : Quiet L r s) :
    ∃ q t, Steps.Reaches (step bsc) ⟨runAll calls, s⟩ ⟨q, t⟩ ∧
      ¬ t.log.map Transfer.header <+: E := by
  induction calls generalizing L r s with
  | nil =>
    refine absurd ⟨List.Pairwise.nil, ?_⟩ unordered
    intro _ c none
    cases none
  | cons c calls ih =>
    rw [List.forall_mem_cons] at fits
    rw [List.map_cons, List.append_cons] at total
    by_cases reads : r = true → c.reads = true
    · have later : ¬ InOrder c.reads calls := fun ordered =>
        unordered ((later_inOrder reads).mpr ordered)
      obtain ⟨got, t, returns, done⟩ := c.run_quiet fits.1 reads quiet
      have total' : (L ++ [c.transfer got]).map Transfer.header ++ calls.map Call.header = E := by
        rw [List.map_append, List.map_singleton, header_transfer, total]
      obtain ⟨q, u, run, strays⟩ := ih fits.2 later total' done
      exact ⟨_, u, returns.andThen (reaches_bind _ run), strays⟩
    · cases c with
      | read addr n => exact absurd (fun _ => rfl) reads
      | write addr data n =>
        cases r with
        | false => exact absurd (fun set => by cases set) reads
        | true =>
          obtain ⟨q, run⟩ := i2c_write_reads addr n data quiet
          refine ⟨_, _, reaches_bind _ (reaches_bind _ run), ?_⟩
          have log : (started true (prepared addr n s)).log = L ++ [⟨true, addr &&& 0x7F,
              (n &&& 0xFFFF).toNat, []⟩] := by
            rw [← quiet.log]
            rfl
          rw [log, ← total, List.map_append, List.append_assoc, List.prefix_append_right_inj]
          intro same
          simp [Transfer.header, Call.header] at same

/-- The program behaves on every run exactly when no write comes after a read. -/
theorem transfers_as_asked_iff (calls : List Call) (fits : ∀ c ∈ calls, c.Fits) (s : Bsc)
    (off : s.active = false) :
    AsAsked calls s ↔ calls.Pairwise fun c d => c.reads → d.reads := by
  have quiet := initialised_quiet off
  constructor
  · intro asked
    by_contra unordered
    obtain ⟨q, t, run, strays⟩ := runAll_strays calls fits (fun ordered => unordered ordered.1) rfl quiet
    exact strays (asked.safe.reached (fun _ _ => trivial) ((i2c_init_returns s).andThen run)).1
  · intro ordered
    have inOrder : InOrder false calls := ⟨ordered, fun set => by cases set⟩
    refine ⟨?_, ?_⟩
    · have before : ∀ t : Bsc, t.log = s.log → Started s.log calls t := by
        intro t same
        rw [Started, same]
        exact List.prefix_append _ _
      refine safe_bind (i2c_init_safe off before) ?_
      rintro _ t rfl
      exact (runAll_safe calls fits inOrder rfl quiet).weaken (fun _ h => h) fun _ _ h => h.1
    · obtain ⟨gots, t, returns⟩ := runAll_returns calls fits inOrder quiet
      exact ⟨gots, t, (i2c_init_returns s).andThen returns⟩

def atReset : Bsc := ⟨0, 0, 0, 0x5dc, [], false, false, [], none⟩

theorem one_register_is_read : (∀ c ∈ [Call.write 0x68 [0x75] 1, .read 0x68 1], c.Fits) ∧
    atReset.active = false ∧ AsAsked [.write 0x68 [0x75] 1, .read 0x68 1] atReset :=
  ⟨by decide, rfl, (transfers_as_asked_iff _ (by decide) atReset rfl).mpr (by decide)⟩

/-- imu_rd twice: the second write is a read on the bus. -/
theorem second_write_reads : ¬ ∀ (calls : List Call) (s : Bsc), (∀ c ∈ calls, c.Fits) →
    s.active = false → AsAsked calls s := by
  intro always
  let calls : List Call :=
    [.write 0x68 [0x75] 1, .read 0x68 1, .write 0x68 [0x75] 1, .read 0x68 1]
  have fits : ∀ c ∈ calls, c.Fits := by decide
  have unordered : ¬ InOrder false calls := by
    rintro ⟨ordered, -⟩
    exact absurd ordered (by decide)
  obtain ⟨q, t, run, strays⟩ := runAll_strays calls fits unordered rfl
    (initialised_quiet (s := atReset) rfl)
  have asked := always calls atReset fits rfl
  exact strays (asked.safe.reached (fun _ _ => trivial) ((i2c_init_returns atReset).andThen run)).1

end Sessions

end EmbeddedOS.I2c
