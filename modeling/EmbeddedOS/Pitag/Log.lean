import EmbeddedOS.Serial.Word

/-! pitag-linker.c: records with a name and a binary behind a base program, in one file. -/
namespace EmbeddedOS.Pitag
open Serial

def BIN_TAG : UInt32 := 0x12345678

abbrev Program := { b : List UInt8 // b.length < 2 ^ 32 }

abbrev Name := { s : List UInt8 // 0 ∉ s }

structure Record where
  name : Name
  bin : Program

section Linker

/-- The contents of the file, and the total size so far. -/
structure Handle where
  file : List UInt8
  totNbytes : UInt32

/-- How many of the bytes that it is given one write of the system takes. -/
abbrev Write := Nat → Nat

variable (write : Write)

/-- Its assert, a result of write that is a negative int, and one that is not n. -/
def writeExact (file data : List UInt8) (n : UInt32) : Option (List UInt8) :=
  let got := Int32.ofNat (write n.toNat)
  if n = 0 then none
  else if got < 0 then none
  else if got.toUInt32 ≠ n then none
  else some (file ++ data.take (write n.toNat))

def pitagStart (prog : List UInt8) (nbytes : UInt32) : Option Handle :=
  (writeExact write [] prog nbytes).map fun file => ⟨file, nbytes⟩

def pitagAddBin (h : Handle) (binName bin : List UInt8) (binNbytes : UInt32) : Option Handle := do
  let file ← writeExact write h.file (leBytes BIN_TAG) 4
  let entryNbytes := UInt32.ofNat (binName.length + 1 + binNbytes.toNat + 4 * 4)
  let file ← writeExact write file (leBytes entryNbytes) 4
  let file ← writeExact write file (leBytes binNbytes) 4
  let file ← writeExact write file (leBytes h.totNbytes) 4
  let file ← writeExact write file bin binNbytes
  let file ← writeExact write file (binName ++ [0]) (UInt32.ofNat (binName.length + 1))
  some ⟨file, h.totNbytes + entryNbytes⟩

def addAll (h : Handle) : List Record → Option Handle
  | [] => some h
  | r :: rs => (pitagAddBin write h r.name.val r.bin.val (UInt32.ofNat r.bin.val.length)).bind (addAll · rs)

def link (base : Program) (rs : List Record) : Option (List UInt8) :=
  (pitagStart write base.val (UInt32.ofNat base.val.length)).bind fun h => (addAll write h rs).map Handle.file

end Linker

section Reading

def wordAt (file : List UInt8) (off : Nat) : Option UInt32 :=
  match file.drop off with
  | a :: b :: c :: d :: _ => some (leWord a b c d)
  | _ => none

def nameAt (file : List UInt8) (off : Nat) : Option (List UInt8) :=
  if 0 ∈ file.drop off then some ((file.drop off).takeWhile (· ≠ 0)) else none

/-- What is found in the file from an offset on: these records, each with its own offset in its
fourth word and the next one entry_nbytes behind it, and then the end. -/
inductive Log (file : List UInt8) : Nat → List Record → Prop where
  | done : Log file file.length []
  | more {off : Nat} {r : Record} {rs : List Record} {entryNbytes binNbytes offset : UInt32}
      (tag : wordAt file off = some BIN_TAG) (entry : wordAt file (off + 4) = some entryNbytes)
      (size : wordAt file (off + 8) = some binNbytes) (fourth : wordAt file (off + 12) = some offset)
      (here : offset.toNat = off) (bin : (file.drop (off + 16)).take binNbytes.toNat = r.bin.val)
      (name : nameAt file (off + 16 + binNbytes.toNat) = some r.name.val)
      (later : Log file (off + entryNbytes.toNat) rs) : Log file off (r :: rs)

end Reading

/-- The file is written, and holds the records behind the base program. -/
def Linked (write : Write) (base : Program) (rs : List Record) : Prop :=
  ∃ file, link write base rs = some file ∧ file.take base.val.length = base.val ∧ Log file base.val.length rs

section Fits

variable (write : Write)

def Writable (n : Nat) : Prop := 0 < n ∧ n < 2 ^ 31 ∧ write n = n

def Record.size (r : Record) : Nat := r.name.val.length + 1 + r.bin.val.length + 16

/-- The records can be written, and each begins below 4GB and is no longer than that. -/
def Fits : Nat → List Record → Prop
  | _, [] => True
  | off, r :: rs => off < 2 ^ 32 ∧ r.size < 2 ^ 32 ∧ (Writable write 4 ∧ Writable write r.bin.val.length ∧
      Writable write (r.name.val.length + 1)) ∧ Fits (off + r.size) rs

end Fits

section Written

variable {write : Write}

theorem write_all (file : List UInt8) {data : List UInt8} (writable : Writable write data.length) :
    writeExact write file data (UInt32.ofNat data.length) = some (file ++ data) := by
  obtain ⟨positive, small, whole⟩ := writable
  have same : (UInt32.ofNat data.length).toNat = data.length := by
    rw [UInt32.toNat_ofNat', Nat.mod_eq_of_lt (by omega)]
  have nonzero : UInt32.ofNat data.length ≠ 0 := by
    intro zero
    rw [← UInt32.toNat_inj, same] at zero
    exact absurd zero (Nat.ne_of_gt positive)
  have value : (Int32.ofNat data.length).toInt = data.length := Int32.toInt_ofNat_of_lt small
  have positive_int : ¬ Int32.ofNat data.length < 0 := by
    rw [Int32.lt_iff_toInt_lt, value]
    exact Int.not_lt.mpr (Int.natCast_nonneg _)
  have back : (Int32.ofNat data.length).toUInt32 = UInt32.ofNat data.length := rfl
  simp only [writeExact, same, whole]
  rw [if_neg nonzero, if_neg positive_int, back, if_neg (not_not.mpr rfl), List.take_length]

def Record.Writes (write : Write) (r : Record) : Prop :=
  Writable write 4 ∧ Writable write r.bin.val.length ∧ Writable write (r.name.val.length + 1)

def header (r : Record) (offset : UInt32) : List UInt8 :=
  leBytes BIN_TAG ++ leBytes (UInt32.ofNat r.size) ++ leBytes (UInt32.ofNat r.bin.val.length) ++
    leBytes offset

def encode (r : Record) (offset : UInt32) : List UInt8 :=
  header r offset ++ (r.bin.val ++ (r.name.val ++ [0]))

theorem encode_length (r : Record) (offset : UInt32) : (encode r offset).length = r.size := by
  simp [encode, header, Record.size]
  omega

theorem bin_size (r : Record) : (UInt32.ofNat r.bin.val.length).toNat = r.bin.val.length := by
  rw [UInt32.toNat_ofNat', Nat.mod_eq_of_lt r.bin.property]

theorem add_writes {h : Handle} {r : Record} (writes : r.Writes write) :
    pitagAddBin write h r.name.val r.bin.val (UInt32.ofNat r.bin.val.length) =
      some ⟨h.file ++ encode r h.totNbytes, h.totNbytes + UInt32.ofNat r.size⟩ := by
  obtain ⟨four, bin, name⟩ := writes
  have word (file : List UInt8) (u : UInt32) :
      writeExact write file (leBytes u) 4 = some (file ++ leBytes u) := by
    have four' : Writable write (leBytes u).length := four
    exact write_all file four'
  have name' : Writable write (r.name.val ++ [0]).length := by
    rw [List.length_append]
    exact name
  have last (file : List UInt8) : writeExact write file (r.name.val ++ [0])
      (UInt32.ofNat (r.name.val.length + 1)) = some (file ++ (r.name.val ++ [0])) := by
    have all := write_all file name'
    rwa [List.length_append] at all
  have size : r.name.val.length + 1 + (UInt32.ofNat r.bin.val.length).toNat + 4 * 4 = r.size := by
    rw [bin_size]
    rfl
  simp only [pitagAddBin, word, write_all _ bin, last, size, Option.bind_eq_bind, Option.bind_some,
    encode, header, List.append_assoc]

/-- The records, each with the offset at which it stands. -/
def joined : Nat → List Record → List UInt8
  | _, [] => []
  | off, r :: rs => encode r (UInt32.ofNat off) ++ joined (off + r.size) rs

theorem addAll_writes {rs : List Record} {off : Nat} {h : Handle} (writable : ∀ r ∈ rs, r.Writes write)
    (total : h.totNbytes = UInt32.ofNat off) :
    (addAll write h rs).map Handle.file = some (h.file ++ joined off rs) := by
  induction rs generalizing off h with
  | nil => simp [addAll, joined]
  | cons r rs ih =>
    obtain ⟨first, later⟩ := List.forall_mem_cons.mp writable
    have total' : h.totNbytes + UInt32.ofNat r.size = UInt32.ofNat (off + r.size) := by
      rw [total, UInt32.ofNat_add]
    have rest := @ih _ ⟨h.file ++ encode r h.totNbytes, _⟩ later total'
    rw [addAll, add_writes first, Option.bind_some, rest, total, joined, List.append_assoc]

theorem link_writes {base : Program} {rs : List Record} (writable : Writable write base.val.length)
    (writables : ∀ r ∈ rs, r.Writes write) :
    link write base rs = some (base.val ++ joined base.val.length rs) := by
  rw [link, pitagStart, write_all [] writable, Option.map_some, Option.bind_some,
    addAll_writes writables rfl]
  rfl

theorem fits_writable {rs : List Record} {off : Nat} (fits : Fits write off rs) : ∀ r ∈ rs, r.Writes write := by
  induction rs generalizing off with
  | nil =>
    intro r inside
    cases inside
  | cons r rs ih =>
    obtain ⟨_, _, writes, later⟩ := fits
    exact List.forall_mem_cons.mpr ⟨writes, ih later⟩

end Written

section Read

theorem wordAt_of {file : List UInt8} (front back : List UInt8) {u : UInt32} {off : Nat}
    (shape : file = front ++ (leBytes u ++ back)) (length : front.length = off) :
    wordAt file off = some u := by
  have rest : file.drop off = leBytes u ++ back := by
    rw [shape, ← length, List.drop_left]
  rw [wordAt, rest]
  exact congrArg some (leWord_leBytes u)

theorem nameAt_of {file : List UInt8} (front back : List UInt8) {name : Name} {off : Nat}
    (shape : file = front ++ (name.val ++ 0 :: back)) (length : front.length = off) :
    nameAt file off = some name.val := by
  have rest : file.drop off = name.val ++ 0 :: back := by
    rw [shape, ← length, List.drop_left]
  have ends : (0 : UInt8) ∈ name.val ++ 0 :: back := List.mem_append_right _ List.mem_cons_self
  have text : (name.val ++ 0 :: back).takeWhile (· ≠ 0) = name.val := by
    have all : ∀ c ∈ name.val, decide (c ≠ 0) = true := by
      intro c inside
      have other : c ≠ 0 := fun zero => name.property (zero ▸ inside)
      simpa using other
    rw [List.takeWhile_append_of_pos all]
    simp
  rw [nameAt, rest, if_pos ends, text]

theorem entry_at (front back : List UInt8) (r : Record) (offset : UInt32) :
    wordAt (front ++ (encode r offset ++ back)) (front.length + 4) = some (UInt32.ofNat r.size) := by
  apply wordAt_of (front ++ leBytes BIN_TAG)
    (leBytes (UInt32.ofNat r.bin.val.length) ++ (leBytes offset ++
      (r.bin.val ++ (r.name.val ++ 0 :: back))))
  · simp [encode, header]
  · simp

theorem log_record {front back : List UInt8} {r : Record} {rs : List Record} (low : front.length < 2 ^ 32)
    (short : r.size < 2 ^ 32)
    (later : Log (front ++ (encode r (UInt32.ofNat front.length) ++ back)) (front.length + r.size) rs) :
    Log (front ++ (encode r (UInt32.ofNat front.length) ++ back)) front.length (r :: rs) := by
  have entry : (UInt32.ofNat r.size).toNat = r.size := by
    rw [UInt32.toNat_ofNat', Nat.mod_eq_of_lt short]
  have offset : (UInt32.ofNat front.length).toNat = front.length := by
    rw [UInt32.toNat_ofNat', Nat.mod_eq_of_lt low]
  have parts : front ++ (encode r (UInt32.ofNat front.length) ++ back) =
      front ++ (leBytes BIN_TAG ++ (leBytes (UInt32.ofNat r.size) ++
        (leBytes (UInt32.ofNat r.bin.val.length) ++ (leBytes (UInt32.ofNat front.length) ++
          (r.bin.val ++ (r.name.val ++ 0 :: back)))))) := by
    simp [encode, header]
  generalize file : front ++ (encode r (UInt32.ofNat front.length) ++ back) = contents at *
  let tag := leBytes BIN_TAG
  let size := leBytes (UInt32.ofNat r.size)
  let bin := leBytes (UInt32.ofNat r.bin.val.length)
  let four := leBytes (UInt32.ofNat front.length)
  have word0 : wordAt contents front.length = some BIN_TAG := wordAt_of front _ parts rfl
  have word1 : wordAt contents (front.length + 4) = some (UInt32.ofNat r.size) := by
    rw [← file]
    exact entry_at front back r _
  have word2 : wordAt contents (front.length + 8) = some (UInt32.ofNat r.bin.val.length) := by
    apply wordAt_of (front ++ (tag ++ size)) (four ++ (r.bin.val ++ (r.name.val ++ 0 :: back)))
    · rw [parts]
      simp only [List.append_assoc, tag, size, four]
    · simp [tag, size]
  have word3 : wordAt contents (front.length + 12) = some (UInt32.ofNat front.length) := by
    apply wordAt_of (front ++ (tag ++ (size ++ bin))) (r.bin.val ++ (r.name.val ++ 0 :: back))
    · rw [parts]
      simp only [List.append_assoc, tag, size, bin]
    · simp [tag, size, bin]
  have shape : contents =
      (front ++ (tag ++ (size ++ (bin ++ four)))) ++ (r.bin.val ++ (r.name.val ++ 0 :: back)) := by
    rw [parts]
    simp only [List.append_assoc, tag, size, bin, four]
  have length : (front ++ (tag ++ (size ++ (bin ++ four)))).length = front.length + 16 := by
    simp [tag, size, bin, four]
  have taken : (contents.drop (front.length + 16)).take (UInt32.ofNat r.bin.val.length).toNat =
      r.bin.val := by
    rw [shape, ← length, List.drop_left, bin_size, List.take_left]
  have named : nameAt contents (front.length + 16 + (UInt32.ofNat r.bin.val.length).toNat) =
      some r.name.val := by
    apply nameAt_of ((front ++ (tag ++ (size ++ (bin ++ four)))) ++ r.bin.val) back
    · rw [shape]
      simp only [List.append_assoc]
    · rw [List.length_append, length, bin_size]
  rw [← entry] at later
  exact .more word0 word1 word2 word3 offset taken named later

theorem log_joined {write : Write} {rs : List Record} {front : List UInt8} (fits : Fits write front.length rs) :
    Log (front ++ joined front.length rs) front.length rs := by
  induction rs generalizing front with
  | nil =>
    rw [joined, List.append_nil]
    exact .done
  | cons r rs ih =>
    obtain ⟨low, short, _, rest⟩ := fits
    have length : (front ++ encode r (UInt32.ofNat front.length)).length = front.length + r.size := by
      rw [List.length_append, encode_length]
    rw [← length] at rest
    have later := ih rest
    rw [length, List.append_assoc] at later
    exact log_record low short later

end Read

section Linking

variable {write : Write}

/-- Where the program and the records can be written and lie below 4GB, the records are read back. -/
theorem records_read_back {base : Program} {rs : List Record} (writable : Writable write base.val.length)
    (fits : Fits write base.val.length rs) : Linked write base rs :=
  ⟨_, link_writes writable (fits_writable fits), List.take_left, log_joined fits⟩

def word : Program := ⟨[0, 0, 0, 0xea], by decide⟩

/-- The write of Linux, where there is room for the file. -/
def linuxWrite : Write := min 0x7ffff000

theorem two_binaries_read_back :
    Linked linuxWrite word
      [⟨⟨[0x61], by decide⟩, word⟩, ⟨⟨[], by decide⟩, ⟨[1, 2, 3], by decide⟩⟩] := by
  have takes : Writable linuxWrite 4 ∧ Writable linuxWrite 3 ∧ Writable linuxWrite 2 ∧ Writable linuxWrite 1 :=
    ⟨⟨by decide, by decide, rfl⟩, ⟨by decide, by decide, rfl⟩, ⟨by decide, by decide, rfl⟩, by decide, by decide, rfl⟩
  obtain ⟨four, three, two, one⟩ := takes
  exact records_read_back four
    ⟨by decide, by decide, ⟨four, four, two⟩, by decide, by decide, ⟨four, three, one⟩, trivial⟩

theorem log_cons {file : List UInt8} {off : Nat} {r : Record} {rs : List Record}
    (log : Log file off (r :: rs)) : off < 2 ^ 32 ∧
      ∃ entryNbytes, wordAt file (off + 4) = some entryNbytes ∧
        Log file (off + entryNbytes.toNat) rs := by
  cases log with
  | more _ entry _ _ here _ _ later => exact ⟨here ▸ UInt32.toNat_lt _, _, entry, later⟩

theorem far_is_lost {base : Program} {r next : Record} (writable : Writable write base.val.length)
    (writables : ∀ r' ∈ [r, next], r'.Writes write)
    (short : r.size < 2 ^ 32) (far : 2 ^ 32 ≤ base.val.length + r.size) : ¬ Linked write base [r, next] := by
  rintro ⟨file, linked, _, log⟩
  rw [link_writes writable writables, Option.some_inj] at linked
  have entry' := entry_at base.val (joined (base.val.length + r.size) [next]) r
    (UInt32.ofNat base.val.length)
  rw [← joined, linked] at entry'
  obtain ⟨_, entryNbytes, entry, later⟩ := log_cons log
  rw [entry', Option.some_inj] at entry
  rw [← entry, UInt32.toNat_ofNat', Nat.mod_eq_of_lt short] at later
  exact absurd (log_cons later).1 (Nat.not_lt.mpr far)

def intWrite : Write := min (2 ^ 31 - 1)

def long : Program :=
  ⟨List.replicate (2 ^ 31 - 1) 0, by rw [List.length_replicate]; exact Nat.lt_of_sub_eq_succ rfl⟩

theorem long_length : long.val.length = 2 ^ 31 - 1 := List.length_replicate

theorem empty_name : (0 : UInt8) ∉ [] := List.not_mem_nil

def longRecord : Record := ⟨⟨[], empty_name⟩, long⟩

theorem long_size : longRecord.size = 2 ^ 31 + 16 := by
  rw [Record.size, show longRecord.bin.val.length = 2 ^ 31 - 1 from long_length]
  rfl

/-- An empty binary is not written, and of two long records behind a long program the second does
not begin below 4GB. -/
theorem empty_or_far_is_lost :
    ¬ Linked linuxWrite word [⟨⟨[0x61], by decide⟩, ⟨[], by decide⟩⟩] ∧
      ¬ Linked intWrite long [longRecord, longRecord] := by
  constructor
  · rintro ⟨file, linked, _⟩
    have stops : link linuxWrite word [⟨⟨[0x61], by decide⟩, ⟨[], by decide⟩⟩] = none := by decide +kernel
    cases stops.symm.trans linked
  · have writable : Writable intWrite long.val.length := by
      rw [long_length]
      exact ⟨by omega, by omega, Nat.min_self _⟩
    have words : Writable intWrite 4 := ⟨by decide, by decide, rfl⟩
    have name : Writable intWrite (longRecord.name.val.length + 1) := ⟨by decide, by decide, rfl⟩
    apply far_is_lost writable
    · intro r inside
      have same : r = longRecord := by
        rcases List.mem_cons.mp inside with same | inside
        · exact same
        · exact List.mem_singleton.mp inside
      rw [same]
      exact ⟨words, writable, name⟩
    · rw [long_size]
      omega
    · rw [long_size, long_length]
      omega

end Linking

end EmbeddedOS.Pitag
