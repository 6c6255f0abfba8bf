import EmbeddedOS.MiniWatch.Watch

/-! mini-watch.c is a watcher of one byte: what it shows on any run is what the watcher shows. -/
namespace EmbeddedOS.MiniWatch
open Bits

section Words

variable (v w : UInt32) (i : Nat)

theorem bit_and : bit (v &&& w) i = (bit v i && bit w i) := by
  rw [bit, UInt32.toNat_and, Nat.testBit_and]
  rfl

theorem bit_or : bit (v ||| w) i = (bit v i || bit w i) := by
  rw [bit, UInt32.toNat_or, Nat.testBit_or]
  rfl

theorem bit_not {i : Nat} (inside : i < 32) : bit (~~~v) i = ! bit v i := not_testBit v inside

theorem bit_shift {n : UInt32} (small : n < 32) : bit (v >>> n) i = bit v (n.toNat + i) := by
  have few : n.toNat < 32 := UInt32.lt_iff_toNat_lt.mp small
  rw [bit, UInt32.toNat_shiftRight, Nat.mod_eq_of_lt few, Nat.testBit_shiftRight]
  rfl

theorem word_of_bits {v w : UInt32} (same : ∀ i < 32, bit v i = bit w i) : v = w := by
  rw [← UInt32.toNat_inj]
  apply Nat.eq_of_testBit_eq
  intro i
  by_cases inside : i < 32
  · exact same i inside
  · have high (x : UInt32) : x.toNat.testBit i = false :=
      Nat.testBit_lt_two_pow (Nat.lt_of_lt_of_le x.toNat_lt (Nat.pow_le_pow_right (by decide) (by omega)))
    rw [high, high]

/-- The place of a byte in its word. -/
theorem place_cases (addr : UInt32) : ∃ r < 4, addr.toNat % 4 = r ∧ addr % 4 = UInt32.ofNat r := by
  refine ⟨addr.toNat % 4, Nat.mod_lt _ (by decide), rfl, ?_⟩
  have small : addr.toNat % 4 < 2 ^ 32 := Nat.lt_trans (Nat.mod_lt _ (by decide)) (by decide)
  rw [← UInt32.toNat_inj, UInt32.toNat_mod, UInt32.toNat_ofNat_of_lt' small]
  rfl

end Words

def control (b addr : UInt32) : UInt32 :=
  let b := b &&& ~~~((1 : UInt32) <<< 20)
  let b := b ||| 0x1
  let b := b &&& ~~~((0b1111 : UInt32) <<< 5)
  let b := b ||| ((1 : UInt32) <<< (addr % 4 + 5))
  let b := b ||| ((0b11 : UInt32) <<< 3)
  let b := b &&& ~~~((0b11 : UInt32) <<< 14)
  b ||| ((0b11 : UInt32) <<< 1)

theorem control_bit (b addr : UInt32) {i : Nat} (inside : i < 32) : bit (control b addr) i =
    if i < 5 then true else if i < 9 then decide (i = 5 + addr.toNat % 4)
    else if i = 14 ∨ i = 15 ∨ i = 20 then false else bit b i := by
  obtain ⟨r, small, place, word⟩ := place_cases addr
  have table : ∀ i < 32, ∀ r < 4, ∀ x : Bool,
      (((((x && ! bit ((1 : UInt32) <<< 20) i || bit 0x1 i) && ! bit ((0b1111 : UInt32) <<< 5) i ||
        bit ((1 : UInt32) <<< (UInt32.ofNat r + 5)) i || bit ((0b11 : UInt32) <<< 3) i) &&
        ! bit ((0b11 : UInt32) <<< 14) i) || bit ((0b11 : UInt32) <<< 1) i)) =
      if i < 5 then true else if i < 9 then decide (i = 5 + r)
      else if i = 14 ∨ i = 15 ∨ i = 20 then false else x := by decide +kernel
  simp only [control, word, place, bit_or, bit_and, bit_not _ inside]
  exact table i inside r small (bit b i)

section Registers

theorem low_bit (v : UInt32) : v &&& 0x1 = if bit v 0 then 1 else 0 := by
  have table : ∀ i < 32, ∀ x y : Bool, (i = 0 → x = y) → (x && bit 0x1 i) = bit (if y then 1 else 0) i := by
    decide +kernel
  refine word_of_bits fun i inside => ?_
  rw [bit_and]
  exact table i inside _ _ fun zero => by rw [zero]

theorem enabled_eq (d : Debug) : miniWatchEnabled d = if bit d.wcr0 0 then 1 else 0 := low_bit _

theorem set_eq (d : Debug) (addr : UInt32) :
    miniWatchAddr d addr = some { d with wcr0 := control d.wcr0 addr, wvr0 := addr &&& ~~~0b11 } := by
  have on : bit (control d.wcr0 addr) 0 = true := by rw [control_bit _ _ (by decide), if_pos (by decide)]
  have some_bits : control d.wcr0 addr ≠ 0 := by
    intro zero
    rw [zero] at on
    cases on
  have enabled : control d.wcr0 addr &&& 0x1 ≠ 0 := by
    rw [low_bit, on]
    decide
  change (if control d.wcr0 addr = 0 then none else if control d.wcr0 addr &&& 0x1 = 0 then none else _) = _
  rw [if_neg some_bits, if_neg enabled]
  rfl

theorem base_toNat (a : UInt32) : (a &&& ~~~0b11).toNat = a.toNat / 4 * 4 := by
  have table : ∀ i < 32, bit (~~~0b11) i = decide (2 ≤ i) := by decide +kernel
  rw [show a.toNat / 4 * 4 = (a.toNat >>> 2) <<< 2 by rw [Nat.shiftLeft_eq, Nat.shiftRight_eq_div_pow]]
  apply Nat.eq_of_testBit_eq
  intro i
  rw [Nat.testBit_shiftLeft, Nat.testBit_shiftRight]
  by_cases inside : i < 32
  · have both := bit_and a (~~~0b11) i
    rw [table i inside] at both
    change bit (a &&& ~~~0b11) i = _
    rw [both, Bool.and_comm]
    by_cases high : 2 ≤ i
    · rw [Nat.add_sub_cancel' high]
      rfl
    · simp [high]
  · have none (x : UInt32) : x.toNat.testBit i = false :=
      Nat.testBit_lt_two_pow (Nat.lt_of_lt_of_le x.toNat_lt (Nat.pow_le_pow_right (by decide) (by omega)))
    rw [none, Nat.add_sub_cancel' (by omega : 2 ≤ i), none, Bool.and_false]

/-- Debug faults are taken in monitor mode. -/
structure Ready (d : Debug) : Prop where
  monitor : bit d.dscr 15 = true
  unhalted : bit d.dscr 14 = false

/-- The registers are set for the byte. -/
structure SetFor (a : UInt32) (d : Debug) : Prop where
  control : ∃ b, d.wcr0 = control b a
  value : d.wvr0 = a &&& ~~~0b11

variable {d : Debug} {a : UInt32} {x : Access}

theorem watches_off (off : bit d.wcr0 0 = false) (x : Access) : d.watches x = false := by
  simp [Debug.watches, off]

theorem touches_iff : x.touches a = true ↔ x.addr.toNat / 4 = a.toNat / 4 ∧
    ∃ k < 4, k = a.toNat % 4 ∧ x.touches (UInt32.ofNat (4 * (x.addr.toNat / 4) + k)) = true := by
  have bound := x.addr.toNat_lt
  have whole : ∀ k < 4, (UInt32.ofNat (4 * (x.addr.toNat / 4) + k)).toNat = 4 * (x.addr.toNat / 4) + k :=
    fun k few => UInt32.toNat_ofNat_of_lt' (by
      change 4 * (x.addr.toNat / 4) + k < 2 ^ 32
      omega)
  constructor
  · intro touches
    have same : x.addr.toNat / 4 = a.toNat / 4 := by
      simp only [Access.touches, Bool.and_eq_true, decide_eq_true_eq] at touches
      have aligned := x.aligned
      cases size : x.size <;> simp only [size, Size.bytes] at touches aligned <;> omega
    refine ⟨same, a.toNat % 4, Nat.mod_lt _ (by decide), rfl, ?_⟩
    have here : UInt32.ofNat (4 * (x.addr.toNat / 4) + a.toNat % 4) = a := by
      rw [← UInt32.toNat_inj, whole _ (Nat.mod_lt _ (by decide))]
      omega
    rw [here]
    exact touches
  · rintro ⟨same, k, few, place, touches⟩
    have here : UInt32.ofNat (4 * (x.addr.toNat / 4) + k) = a := by
      rw [← UInt32.toNat_inj, whole k few]
      omega
    rwa [here] at touches

theorem watches_set (ready : Ready d) (set : SetFor a d) : d.watches x = x.touches a := by
  obtain ⟨b, control⟩ := set.control
  have low {i : Nat} (few : i < 5) : bit d.wcr0 i = true := by
    rw [control, control_bit b a (by omega), if_pos few]
  have unlinked : bit d.wcr0 14 = false ∧ bit d.wcr0 20 = false := by
    rw [control, control_bit b a (by decide), control_bit b a (by decide)]
    exact ⟨rfl, rfl⟩
  have select {k : Nat} (few : k < 4) : bit d.wcr0 (5 + k) = decide (k = a.toNat % 4) := by
    rw [control, control_bit b a (by omega), if_neg (by omega), if_pos (by omega)]
    simp
  have word : d.wvr0.toNat / 4 = a.toNat / 4 := by
    rw [set.value, base_toNat, Nat.mul_div_cancel _ (by decide)]
  have privileged : bit d.wcr0 (if x.privileged then 1 else 2) = true := by
    split
    · exact low (by decide)
    · exact low (by decide)
  have direction : bit d.wcr0 (if x.load then 3 else 4) = true := by
    split
    · exact low (by decide)
    · exact low (by decide)
  rw [Bool.eq_iff_iff, touches_iff]
  simp only [Debug.watches, ready.monitor, ready.unhalted, low (by decide : 0 < 5), privileged, direction,
    unlinked.1, unlinked.2, word, Bool.true_and, Bool.not_false, Bool.and_eq_true, decide_eq_true_eq,
    List.any_eq_true, List.mem_range]
  constructor
  · rintro ⟨same, k, few, chosen, touches⟩
    rw [select few, decide_eq_true_eq] at chosen
    exact ⟨same, k, few, chosen, touches⟩
  · rintro ⟨same, k, few, chosen, touches⟩
    refine ⟨same, k, few, ?_, touches⟩
    rw [select few, decide_eq_true_eq]
    exact chosen

end Registers

section Faults

variable (d : Debug) (x : Access)

theorem fault_entry : ((d.fault x).dscr >>> 2) &&& 0b1111 = 2 := by
  have table : ∀ i < 32, ∀ y : Bool, bit 0b1111 i = true →
      ((y && ! bit ((0xF : UInt32) <<< 2) (2 + i) || bit ((0b0010 : UInt32) <<< 2) (2 + i)) && bit 0b1111 i) =
        bit 2 i := by decide +kernel
  have beyond : ∀ i < 32, bit 0b1111 i = false → bit 2 i = false := by decide +kernel
  have four : ∀ i < 32, bit 0b1111 i = true → 2 + i < 32 := by decide +kernel
  refine word_of_bits fun i inside => ?_
  rw [bit_and, bit_shift _ _ (by decide)]
  by_cases low : bit 0b1111 i = true
  · rw [← table i inside (bit d.dscr (2 + i)) low]
    change (bit ((d.dscr &&& _) ||| _) (2 + i) && _) = _
    rw [bit_or, bit_and, bit_not _ (four i inside low)]
  · rw [Bool.not_eq_true] at low
    rw [low, Bool.and_false, beyond i inside low]

theorem fault_not_brkpt : wasBrkptFault (d.fault x) = false := by
  rw [wasBrkptFault, fault_entry]
  exact Bool.and_false _

theorem fault_watchpt : wasWatchptFault (d.fault x) = true := by
  have store : ((0b0010 : UInt32) ||| ((1 : UInt32) <<< 11)) &&& 0b1111 = 2 := by decide
  have load : (0b0010 : UInt32) &&& 0b1111 = 2 := by decide
  rw [wasWatchptFault, fault_entry]
  cases way : x.load <;> simp [Debug.fault, way, store, load]

theorem fault_load : datafaultFromLd (d.fault x) = x.load := by
  have store : bit ((0b0010 : UInt32) ||| ((1 : UInt32) <<< 11)) 11 = true := by decide
  have load : bit 0b0010 11 = false := by decide
  cases way : x.load <;> simp [datafaultFromLd, Debug.fault, way, store, load]

theorem at_the_access : watchptFaultPc (d.fault x) = x.pc := by
  rw [watchptFaultPc, Debug.fault, UInt32.add_sub_cancel]

variable {d x} {a : UInt32}

theorem Ready.fault (ready : Ready d) : Ready (d.fault x) := by
  have high : ∀ i < 32, 14 ≤ i → bit ((0xF : UInt32) <<< 2) i = false ∧ bit ((0b0010 : UInt32) <<< 2) i = false := by
    decide +kernel
  have kept {i : Nat} (inside : i < 32) (above : 14 ≤ i) : bit (d.fault x).dscr i = bit d.dscr i := by
    change bit ((d.dscr &&& _) ||| _) i = _
    rw [bit_or, bit_and, bit_not _ inside, (high i inside above).1, (high i inside above).2]
    simp
  exact ⟨(kept (by decide) (by decide)).trans ready.monitor, (kept (by decide) (by decide)).trans ready.unhalted⟩

theorem SetFor.fault (set : SetFor a d) : SetFor a (d.fault x) := ⟨set.control, set.value⟩

theorem SetFor.shift (set : SetFor a d) : shiftOf 4 ((d.wcr0 >>> 5) &&& 0xF) = some (a % 4) := by
  obtain ⟨b, control⟩ := set.control
  obtain ⟨r, small, place, word⟩ := place_cases a
  have one : ∀ i < 32, ∀ r < 4, bit ((1 : UInt32) <<< UInt32.ofNat r) i = decide (i = r) := by decide +kernel
  have mask : ∀ i < 32, bit 0xF i = decide (i < 4) := by decide +kernel
  have found : ∀ r < 4, shiftOf 4 ((1 : UInt32) <<< UInt32.ofNat r) = some (UInt32.ofNat r) := by decide
  have selected : (d.wcr0 >>> 5) &&& 0xF = (1 : UInt32) <<< UInt32.ofNat r := by
    refine word_of_bits fun i inside => ?_
    rw [bit_and, bit_shift _ _ (by decide), one i inside r small, mask i inside, control]
    by_cases low : i < 4
    · rw [control_bit _ _ (by change 5 + i < 32; omega), if_neg (by change ¬ 5 + i < 5; omega),
        if_pos (by change 5 + i < 9; omega), place, decide_eq_true low, Bool.and_true]
      exact decide_eq_decide.mpr ⟨fun same => by change 5 + i = 5 + r at same; omega, fun same => by rw [same]; rfl⟩
    · rw [decide_eq_false low, Bool.and_false, decide_eq_false (by omega)]
  rw [selected, found r small, word]

theorem SetFor.addr (set : SetFor a d) : d.wvr0 + a % 4 = a := by
  rw [set.value, ← UInt32.toNat_inj, UInt32.toNat_add, base_toNat, UInt32.toNat_mod]
  have bound := a.toNat_lt
  change (a.toNat / 4 * 4 + a.toNat % 4) % 2 ^ 32 = a.toNat
  rw [Nat.div_add_mod', Nat.mod_eq_of_lt bound]

end Faults

section Simulation

variable {D R : Type}

/-- The registers say which byte is watched. -/
def Shows (d : Debug) : Option UInt32 → Prop
  | none => bit d.wcr0 0 = false
  | some a => SetFor a d

theorem enabled_shows {d : Debug} {watched : Option UInt32} (shows_ : Shows d watched) :
    miniWatchEnabled d = if watched.isSome then 1 else 0 := by
  rw [enabled_eq]
  cases watched with
  | none =>
    rw [show bit d.wcr0 0 = false from shows_]
    rfl
  | some a =>
    obtain ⟨b, control⟩ := SetFor.control shows_
    rw [control, control_bit b a (by decide)]
    rfl

/-- A call sets the registers for the byte that it names, or for none, whatever they were. -/
theorem api_keeps (c : Api) {d : Debug} (ready : Ready d) (watched : Option UInt32) :
    ∃ d', c.run d = some d' ∧ Ready d' ∧ Shows d' (Api.sets watched c) := by
  cases c with
  | watch addr => exact ⟨_, set_eq d addr, ⟨ready.monitor, ready.unhalted⟩, ⟨_, rfl⟩, rfl⟩
  | disable addr =>
    refine ⟨_, rfl, ⟨ready.monitor, ready.unhalted⟩, ?_⟩
    change bit (d.wcr0 &&& ~~~0x1) 0 = false
    rw [bit_and, bit_not _ (by decide)]
    exact Bool.and_false _

theorem apis_keep (cs : List Api) : ∀ {d : Debug} {watched : Option UInt32}, Ready d → Shows d watched →
    ∃ d', cs.foldlM Api.run d = some d' ∧ Ready d' ∧ Shows d' (cs.foldl Api.sets watched) := by
  induction cs with
  | nil => exact fun ready shows_ => ⟨_, rfl, ready, shows_⟩
  | cons c cs rest =>
    intro d watched ready _
    obtain ⟨d₁, called, ready₁, shows₁⟩ := api_keeps c ready watched
    obtain ⟨d₂, after, ready₂, shows₂⟩ := rest ready₁ shows₁
    exact ⟨d₂, by rw [List.foldlM_cons, called]; exact after, ready₂, shows₂⟩

/-- What mini-watch.c has seen and what the watcher has, with the registers set for its byte. -/
structure Sim (h : Handler D R) (s : Sys D R) (t : Watcher D R) : Prop where
  ready : Ready s.debug
  handler : s.watchptHandler = some h
  data : s.watchptData = t.data
  shown : s.shown = t.shown
  watched : Shows s.debug t.watched

variable {h : Handler D R} {s : Sys D R} {t : Watcher D R}

theorem Sim.set (sim : Sim h s t) {a : UInt32} (here : t.watched = some a) : SetFor a s.debug := by
  have watched := sim.watched
  rwa [here] at watched

/-- On a fault of the byte the handler gets the access as it was made. -/
theorem fault_simulates (sim : Sim h s t) {a : UInt32} (here : t.watched = some a) (x : Access) (r : R) :
    ∃ s', watchptFault { s with debug := s.debug.fault x } r = some s' ∧
      Sim h s' (t.call h (watchFaultMk x.pc a x.load r)) := by
  have set : SetFor a (s.debug.fault x) := (sim.set here).fault
  have watched : Shows (s.debug.fault x) t.watched := by
    rw [here]
    exact set
  obtain ⟨d', called, ready', shows'⟩ :=
    apis_keep (h t.data (watchFaultMk x.pc a x.load r)).2.2 sim.ready.fault watched
  refine ⟨⟨d', some h, _, _⟩, ?_, ready', rfl, rfl, rfl, shows'⟩
  simp only [watchptFault, fault_not_brkpt, fault_watchpt, sim.handler, sim.data, set.shift, set.addr,
    fault_load, at_the_access, Option.bind_some, called, sim.shown]
  rfl

theorem step_simulates (sim : Sim h s t) (e : Event D R) :
    ∃ s', step s e = some s' ∧ Sim h s' (Watcher.step h t e) := by
  cases e with
  | api c =>
    obtain ⟨d', called, ready', shows'⟩ := api_keeps c sim.ready t.watched
    exact ⟨{ s with debug := d' }, by rw [step, called]; rfl, ready', sim.handler, sim.data, sim.shown, shows'⟩
  | data write => exact ⟨_, rfl, sim.ready, sim.handler, congrArg write sim.data, sim.shown, sim.watched⟩
  | enabled =>
    refine ⟨_, rfl, sim.ready, sim.handler, sim.data, ?_, sim.watched⟩
    change s.shown ++ [.enabled (miniWatchEnabled s.debug)] = _
    rw [sim.shown, enabled_shows sim.watched]
    rfl
  | access x r =>
    cases here : t.watched with
    | none =>
      have off : Shows s.debug none := by
        have watched := sim.watched
        rwa [here] at watched
      rw [step, watches_off off, Watcher.step, here]
      exact ⟨s, rfl, sim⟩
    | some a =>
      simp only [step, watches_set sim.ready (sim.set here), Watcher.step, here]
      split
      · exact fault_simulates sim here x r
      · exact ⟨s, rfl, sim⟩

theorem run_simulates (es : List (Event D R)) : ∀ {s : Sys D R} {t : Watcher D R}, Sim h s t →
    ∃ s', run s es = some s' ∧ Sim h s' (es.foldl (Watcher.step h) t) := by
  induction es with
  | nil => exact fun sim => ⟨_, rfl, sim⟩
  | cons e es rest =>
    intro s t sim
    obtain ⟨s₁, stepped, sim₁⟩ := step_simulates sim e
    obtain ⟨s₂, after, sim₂⟩ := rest sim₁
    exact ⟨s₂, by rw [run, List.foldlM_cons, stepped]; exact after, sim₂⟩

end Simulation

section Init

variable {D R : Type}

theorem enable_ready {d : Debug} (monitor : bit d.dscr 15 = true → bit d.dscr 14 = false) :
    ∃ d', cp14Enable d = some d' ∧ Ready d' ∧ d'.wcr0 = d.wcr0 ∧ d'.bcr0 = d.bcr0 := by
  have enabled (d : Debug) : cp14IsEnabled d = if bit d.dscr 15 then 1 else 0 := by
    rw [cp14IsEnabled, low_bit, bit_shift _ _ (by decide)]
    rfl
  cases already : bit d.dscr 15 with
  | true => exact ⟨d, by rw [cp14Enable, enabled, already]; rfl, ⟨already, monitor already⟩, rfl, rfl⟩
  | false =>
    have selected : bit ((d.dscr &&& ~~~((0b11 : UInt32) <<< 14)) ||| ((0b10 : UInt32) <<< 14)) 15 = true := by
      rw [bit_or, show bit ((0b10 : UInt32) <<< 14) 15 = true by decide, Bool.or_true]
    have unhalted : bit ((d.dscr &&& ~~~((0b11 : UInt32) <<< 14)) ||| ((0b10 : UInt32) <<< 14)) 14 = false := by
      rw [bit_or, bit_and, bit_not _ (by decide), show bit ((0b11 : UInt32) <<< 14) 14 = true by decide,
        show bit ((0b10 : UInt32) <<< 14) 14 = false by decide, Bool.not_true, Bool.and_false, Bool.or_false]
    refine ⟨{ d with dscr := _ }, ?_, ⟨selected, unhalted⟩, rfl, rfl⟩
    rw [cp14Enable, enabled, already, if_neg (by decide)]
    dsimp only
    rw [enabled, cp14DscrSet, selected, if_pos (by decide)]

theorem init_simulates {d : Debug} (h : Handler D R) (data : D)
    (monitor : bit d.dscr 15 = true → bit d.dscr 14 = false) (unbroken : bit d.bcr0 0 = false)
    (off : bit d.wcr0 0 = false) : ∃ s, miniWatchInit d h data = some s ∧ Sim h s ⟨none, data, []⟩ := by
  have unset {d : Debug} (unbroken : bit d.bcr0 0 = false) : cp14Bcr0IsEnabled d = 0 := by
    rw [cp14Bcr0IsEnabled, low_bit, unbroken]
    rfl
  obtain ⟨d', set_up, ready, same, same'⟩ := enable_ready monitor
  refine ⟨⟨d', some h, data, []⟩, ?_, ready, rfl, rfl, rfl, ?_⟩
  · rw [miniWatchInit, set_up, Option.bind_some, unset (by rw [same', unbroken])]
    rfl
  · change bit d'.wcr0 0 = false
    rw [same, off]

/-- The breakpoint is looked at twice, and the watchpoint never: it may be on from the start. -/
theorem init_of_any_watchpoint (d : Debug) (v : UInt32) (h : Handler D R) (data : D) :
    miniWatchInit { d with wcr0 := v } h data =
      (miniWatchInit d h data).map fun s => { s with debug := { s.debug with wcr0 := v } } := by
  have set_up : cp14Enable { d with wcr0 := v } = (cp14Enable d).map fun d => { d with wcr0 := v } := by
    by_cases already : cp14IsEnabled d ≠ 0
    · rw [cp14Enable, cp14Enable, if_pos already]
      exact if_pos already
    · rw [cp14Enable, cp14Enable, if_neg already]
      refine (if_neg already).trans ?_
      by_cases on : cp14IsEnabled
          (cp14DscrSet d ((d.dscr &&& ~~~((0b11 : UInt32) <<< 14)) ||| ((0b10 : UInt32) <<< 14))) ≠ 0
      · rw [if_pos on]
        exact if_pos on
      · rw [if_neg on]
        exact if_neg on
  rw [miniWatchInit, miniWatchInit, set_up]
  cases cp14Enable d with
  | none => rfl
  | some d =>
    by_cases broken : cp14Bcr0IsEnabled d ≠ 0
    · rw [Option.map_some, Option.bind_some, Option.bind_some, if_pos broken]
      exact if_pos broken
    · rw [Option.map_some, Option.bind_some, Option.bind_some, if_neg broken, if_neg broken]
      refine (if_neg broken).trans ?_
      exact if_neg broken

/-- Whatever the handler calls, the program and its handler see a watcher of one byte, and nothing panics. -/
theorem watches_a_byte (h : Handler D R) (data : D) (d : Debug)
    (monitor : bit d.dscr 15 = true → bit d.dscr 14 = false) (unbroken : bit d.bcr0 0 = false)
    (off : bit d.wcr0 0 = false) (es : List (Event D R)) :
    ∃ s s', miniWatchInit d h data = some s ∧ run s es = some s' ∧
      s'.shown = (es.foldl (Watcher.step h) ⟨none, data, []⟩).shown ∧
      s'.watchptData = (es.foldl (Watcher.step h) ⟨none, data, []⟩).data := by
  obtain ⟨s, set_up, sim⟩ := init_simulates h data monitor unbroken off
  obtain ⟨s', ran, sim'⟩ := run_simulates es sim
  exact ⟨s, s', set_up, ran, sim'.shown, sim'.data⟩

/-- Of two stores into a word the one to another byte is not seen; the handler counts and stops watching. -/
theorem word_watched : ∃ s s',
    miniWatchInit ⟨0, 0, 0, 0, 0, 0, 0⟩
      (fun n (w : WatchFault Unit) => (n + 1, (), [.disable w.faultAddr])) 0 = some s ∧
    run s [.api (.watch 0x8002), .access ⟨0x9000, 0x8001, .byte, true, true, by decide⟩ (),
      .access ⟨0x9004, 0x8000, .word, false, true, by decide⟩ (), .enabled] = some s' ∧
    s'.shown = [.called ⟨0x9004, 0x8002, false, ()⟩ (), .enabled 0] ∧ s'.watchptData = 1 :=
  watches_a_byte _ _ _ (by decide) (by decide) (by decide) _

end Init

end EmbeddedOS.MiniWatch
