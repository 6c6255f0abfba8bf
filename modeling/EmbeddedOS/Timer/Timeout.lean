import EmbeddedOS.Timer.Delay
import Mathlib.Data.List.Range

/-! timeout.h: time over any number of wraps of the counter, from readings less than a wrap apart. -/
namespace EmbeddedOS.Timer

structure Timeout where
  timeLast : UInt32
  timeUsecs : UInt64

def timeoutStart (now : Nat) : Timeout where
  timeUsecs := 0
  timeLast := timerGetUsec now

/-- What it returns, and the timeout behind the call. -/
def timeoutGetUsec (t : Timeout) (now : Nat) : UInt64 × Timeout :=
  let now := timerGetUsec now
  let t := { t with timeUsecs := t.timeUsecs + (now - t.timeLast).toUInt64 }
  let t := { t with timeLast := now }
  (t.timeUsecs, t)

def timeoutUsec (t : Timeout) (maxUsec : UInt64) (now : Nat) : Bool × Timeout :=
  let (usecs, t) := timeoutGetUsec t now
  (usecs ≥ maxUsec, t)

def timeoutMsec (t : Timeout) (maxMsec : UInt64) (now : Nat) : Bool × Timeout :=
  timeoutUsec t (maxMsec * 1000) now

def timeoutSec (t : Timeout) (maxSec : UInt64) (now : Nat) : Bool × Timeout :=
  timeoutMsec t (maxSec * 1000) now

inductive Reading where
  | usecs
  | usec (most : UInt64)
  | msec (most : UInt64)
  | sec (most : UInt64)

def Reading.step (t : Timeout) : Reading × Nat → Timeout
  | (.usecs, now) => (timeoutGetUsec t now).2
  | (.usec most, now) => (timeoutUsec t most now).2
  | (.msec most, now) => (timeoutMsec t most now).2
  | (.sec most, now) => (timeoutSec t most now).2

/-- The timeout that was started at a time, behind these readings. -/
def readings (start : Nat) (rs : List (Reading × Nat)) : Timeout :=
  rs.foldl Reading.step (timeoutStart start)

/-- A reading of the timeout at this time tells how long it has run. -/
structure Exact (start : Nat) (t : Timeout) (now : Nat) : Prop where
  elapsed : (timeoutGetUsec t now).1.toNat = now - start
  reported : ∀ most, (timeoutUsec t most now).1 = true ↔ most.toNat ≤ now - start

/-- Each reading tells how long it has been since the start. -/
def AllExact (start : Nat) (rs : List (Reading × Nat)) : Prop :=
  ∀ before r rest, rs = before ++ r :: rest → Exact start (readings start before) r.2

def timesOf (start : Nat) (rs : List (Reading × Nat)) : List Nat := start :: rs.map Prod.snd

section Wraps

/-- The last reading was at this time, and the sum is the time to it, in 64 bits. -/
structure Tracks (start last : Nat) (t : Timeout) : Prop where
  later : start ≤ last
  timeLast : t.timeLast = timerGetUsec last
  timeUsecs : t.timeUsecs = UInt64.ofNat (last - start)

variable {start last now : Nat} {t : Timeout}

theorem start_tracks (start : Nat) : Tracks start start (timeoutStart start) := by
  refine ⟨Nat.le_refl start, rfl, ?_⟩
  rw [Nat.sub_self]
  rfl

theorem step_get (t : Timeout) (r : Reading × Nat) : Reading.step t r = (timeoutGetUsec t r.2).2 := by
  obtain ⟨r, now⟩ := r
  cases r <;> rfl

theorem get_tracks (tracks : Tracks start last t) (later : last ≤ now) (soon : now ≤ last + (2 ^ 32 - 1)) :
    Tracks start now (timeoutGetUsec t now).2 := by
  obtain ⟨after, timeLast, timeUsecs⟩ := tracks
  have difference : (timerGetUsec now - timerGetUsec last).toUInt64 = UInt64.ofNat (now - last) := by
    rw [← UInt64.toNat_inj, UInt32.toNat_toUInt64, elapsed later, UInt64.toNat_ofNat']
    omega
  refine ⟨Nat.le_trans after later, rfl, ?_⟩
  change t.timeUsecs + (timerGetUsec now - t.timeLast).toUInt64 = _
  rw [timeLast, timeUsecs, difference, ← UInt64.ofNat_add]
  congr 1
  omega

theorem readings_track {before rest : List (Reading × Nat)} {r : Reading × Nat}
    (tracks : Tracks start last t) (sampled : Sampled (2 ^ 32 - 1) (timesOf last (before ++ r :: rest))) :
    Tracks start r.2 (timeoutGetUsec (before.foldl Reading.step t) r.2).2 := by
  induction before generalizing last t with
  | nil =>
    obtain ⟨⟨later, soon⟩, -⟩ := List.isChain_cons_cons.mp sampled
    exact get_tracks tracks later soon
  | cons q before ih =>
    obtain ⟨⟨later, soon⟩, further⟩ := List.isChain_cons_cons.mp sampled
    have next := get_tracks tracks later soon
    rw [← step_get] at next
    exact ih next further

theorem tracks_exact (tracks : Tracks start now (timeoutGetUsec t now).2) (short : now - start < 2 ^ 64) :
    Exact start t now := by
  have sum : (timeoutGetUsec t now).1.toNat = now - start := by
    change (timeoutGetUsec t now).2.timeUsecs.toNat = _
    rw [tracks.timeUsecs, UInt64.toNat_ofNat', Nat.mod_eq_of_lt short]
  refine ⟨sum, fun most => ?_⟩
  change decide ((timeoutGetUsec t now).1 ≥ most) = true ↔ _
  rw [decide_eq_true_eq, ge_iff_le, UInt64.le_iff_toNat_le, sum]

theorem Exact.msec (told : Exact start t now) {most : UInt64} (fits : most.toNat * 1000 < 2 ^ 64) :
    (timeoutMsec t most now).1 = true ↔ most.toNat * 1000 ≤ now - start := by
  have product : (most * 1000).toNat = most.toNat * 1000 := by
    rw [UInt64.toNat_mul]
    exact Nat.mod_eq_of_lt fits
  rw [timeoutMsec, told.reported, product]

theorem Exact.sec (told : Exact start t now) {most : UInt64} (fits : most.toNat * 1000000 < 2 ^ 64) :
    (timeoutSec t most now).1 = true ↔ most.toNat * 1000000 ≤ now - start := by
  have product : (most * 1000).toNat = most.toNat * 1000 := by
    rw [UInt64.toNat_mul]
    change most.toNat * 1000 % 2 ^ 64 = _
    omega
  have fits' : (most * 1000).toNat * 1000 < 2 ^ 64 := by
    simpa only [product, Nat.mul_assoc] using fits
  have reported := told.msec fits'
  rw [product, Nat.mul_assoc] at reported
  exact reported

end Wraps

/-- With less than a wrap between any two readings, and less than 2^64 microseconds in all. -/
theorem readings_exact {start : Nat} {rs : List (Reading × Nat)}
    (sampled : Sampled (2 ^ 32 - 1) (timesOf start rs)) (short : ∀ r ∈ rs, r.2 - start < 2 ^ 64) :
    AllExact start rs := by
  rintro before r rest rfl
  exact tracks_exact (readings_track (start_tracks start) sampled)
    (short r (List.mem_append_right before List.mem_cons_self))

theorem two_wraps_exact : AllExact 5 [(.usecs, 4000000000), (.usec 10000000000, 8000000000),
    (.msec 9000000, 12000000000)] :=
  readings_exact (List.isChain_cons_cons.mpr ⟨⟨by decide, by decide⟩, List.isChain_cons_cons.mpr
    ⟨⟨by decide, by decide⟩, List.isChain_cons_cons.mpr ⟨⟨by decide, by decide⟩,
      List.isChain_singleton _⟩⟩⟩) (by decide)

section Longest

def spaced (n : Nat) : List (Reading × Nat) := (List.range n).map fun k => (.usecs, (k + 1) * (2 ^ 32 - 1))

theorem spaced_times (n : Nat) : timesOf 0 (spaced n) = (List.range (n + 1)).map fun k => k * (2 ^ 32 - 1) := by
  rw [timesOf, spaced, List.map_map, List.range_succ_eq_map, List.map_cons, List.map_map, Nat.zero_mul]
  rfl

theorem spaced_sampled (n : Nat) : Sampled (2 ^ 32 - 1) (timesOf 0 (spaced n)) := by
  rw [spaced_times, Sampled, List.isChain_map, List.isChain_range]
  intro m _
  omega

theorem readings_overflow : ¬ ∀ (start : Nat) (rs : List (Reading × Nat)),
    Sampled (2 ^ 32 - 1) (timesOf start rs) → AllExact start rs := by
  intro always
  have last : spaced (2 ^ 32 + 3) = spaced (2 ^ 32 + 2) ++ [(.usecs, (2 ^ 32 + 3) * (2 ^ 32 - 1))] := by
    rw [spaced, List.range_succ, List.map_append]
    rfl
  have exact_last := always 0 (spaced (2 ^ 32 + 3)) (spaced_sampled _) _ _ _ last
  have elapsed : (timeoutGetUsec _ _).1.toNat = (2 ^ 32 + 3) * (2 ^ 32 - 1) - 0 := exact_last.elapsed
  exact absurd (elapsed ▸ UInt64.toNat_lt _) (by decide)

end Longest

end EmbeddedOS.Timer
