import EmbeddedOS.Fat32.ShortName
import Mathlib.Data.List.Flatten

/-! Long names: to_utf8, and how fat32_dir_filename puts a name together from its slots. -/
namespace EmbeddedOS.Fat32
open Fueled Fueled.Comp

section Utf8

structure Utf where
  mask : UInt8
  lead : UInt8
  beg : UInt32
  last : UInt32
  bitsStored : UInt32

def utf : List Utf :=
  [⟨0b00111111, 0b10000000, 0, 0, 6⟩,
   ⟨0b01111111, 0b00000000, 0o000, 0o177, 7⟩,
   ⟨0b00011111, 0b11000000, 0o200, 0o3777, 5⟩,
   ⟨0b00001111, 0b11100000, 0o4000, 0o177777, 4⟩,
   ⟨0b00000111, 0b11110000, 0o200000, 0o4177777, 3⟩]

/-- The first line of the table whose range has the code point. -/
def codepointLen (cp : UInt32) : Nat := utf.findIdx fun u => u.beg ≤ cp && cp ≤ u.last

def utfByte (cp shift : UInt32) (n : Nat) : UInt8 :=
  match utf[n]? with
  | some u => ((cp >>> shift).toUInt8 &&& u.mask) ||| u.lead
  | none => 0

/-- The bytes in front of the NUL, for a code point that the table has. -/
def toUtf8 (cp : UInt32) : CString :=
  match codepointLen cp with
  | 0 => []
  | bytes + 1 => utfByte cp (6 * UInt32.ofNat bytes) (bytes + 1) ::
      ((List.range bytes).reverse.map fun i => utfByte cp (6 * UInt32.ofNat i) 0)

end Utf8

section Slots

abbrev Slot := { bytes : List UInt8 // bytes.length = 32 }

def Slot.dirent (s : Slot) : Dirent := direntAt fun i => s.1.getD i 0

def Slot.attr (s : Slot) : UInt8 := s.1.getD 11 0

def Slot.reserved0 (s : Slot) : UInt8 := s.1.getD 12 0

def Slot.seqno (s : Slot) : UInt8 := s.1.getD 0 0

def Slot.cksum (s : Slot) : UInt8 := s.1.getD 13 0

def Slot.name1_5 (s : Slot) : List UInt8 := (s.1.drop 1).take 10

def Slot.name6_11 (s : Slot) : List UInt8 := (s.1.drop 14).take 12

def Slot.name12_13 (s : Slot) : List UInt8 := (s.1.drop 28).take 4

def FAT32_ARCHIVE : UInt8 := 0x20

def FAT32_VOLUME_LABEL : UInt8 := 0x08

def isAttr (x flag : UInt8) : Bool :=
  if x == FAT32_LONG_FILE_NAME then x == flag else x &&& flag == flag

end Slots

section Code

def lfnTerminator (a b : UInt8) : Bool := (a == 0 && b == 0) || (a == 0xff && b == 0xff)

/-- `strcat` at the end of the string in filename, which has 512 bytes. -/
def filenameCat (filename utf8 : CString) : Comp CString :=
  if filename.length + utf8.length < 512 then pure (filename ++ utf8) else wild 512

def utf8AppendFrom (filename : CString) : List UInt8 → Comp CString
  | a :: b :: unicode =>
    if lfnTerminator a b then pure filename
    else do
      let filename ← filenameCat filename (toUtf8 (a.toUInt32 ||| (b.toUInt32 <<< 8)))
      utf8AppendFrom filename unicode
  | _ => pure filename

def utf8Append (filename : CString) (unicode : List UInt8) : Comp CString := do
  .assert (unicode.length % 2 == 0)
  utf8AppendFrom filename unicode

def lfnPart (filename : CString) (l : Slot) : Comp CString := do
  .assert (l.attr == FAT32_LONG_FILE_NAME)
  let filename ← utf8Append filename l.name1_5
  let filename ← utf8Append filename l.name6_11
  utf8Append filename l.name12_13

def lfnParts (filename : CString) : List Slot → Comp CString
  | [] => pure filename
  | l :: s => do
    let filename ← lfnParts filename s
    lfnPart filename l

def lfnGetName (s : List Slot) : Comp CString := lfnParts [] s

def lowered (lowerCaseP : Bool) (c : UInt8) : UInt8 :=
  if lowerCaseP && 0x41 ≤ c && c ≤ 0x5a then c + 32 else c

/-- The name and how many slots further its entry is, for the slots from d up to end. -/
def fat32DirFilename : List Slot → Comp (CString × Nat)
  | [] => wild 0
  | d :: rest => do
    .assert (!fat32DirentFree d.dirent)
    if d.attr == FAT32_LONG_FILE_NAME then do
      let cnt := 1 + (rest.takeWhile (·.attr == FAT32_LONG_FILE_NAME)).length
      match (d :: rest)[cnt]? with
      | none => panic
      | some s =>
        .assert (isAttr s.attr FAT32_DIR || isAttr s.attr FAT32_ARCHIVE)
        let name ← lfnGetName ((d :: rest).take cnt)
        pure (name, cnt)
    else do
      .assert (isAttr d.attr FAT32_DIR || isAttr d.attr FAT32_ARCHIVE ||
        isAttr d.attr FAT32_VOLUME_LABEL)
      let lowerCaseP := d.reserved0 == 0x18
      let stem := ((d.1.take 8).filter (· != SPACE)).map (lowered lowerCaseP)
      let suffix := ((d.1.drop 8).take 3).map (lowered lowerCaseP)
      pure ((stem ++ DOT :: suffix).takeWhile (· != 0), 0)

end Code

section Stored

def charBytes (c : UInt16) : List UInt8 := [c.toUInt8, (c >>> 8).toUInt8]

def padded (part : List UInt16) : List UInt16 :=
  if part.length < 13 then part ++ 0 :: List.replicate (12 - part.length) 0xffff else part

structure Slot.Holds (s : Slot) (seqno cksum : UInt8) (part : List UInt16) : Prop where
  attr : s.attr = FAT32_LONG_FILE_NAME
  seqno : s.seqno = seqno
  cksum : s.cksum = cksum
  name1_5 : s.name1_5 = ((padded part).take 5).flatMap charBytes
  name6_11 : s.name6_11 = (((padded part).drop 5).take 6).flatMap charBytes
  name12_13 : s.name12_13 = ((padded part).drop 11).flatMap charBytes

/-- The slots hold the name from its part k on, the last part first. -/
inductive Stored (cksum : UInt8) : Nat → List UInt16 → List Slot → Prop
  | last {k : Nat} {chars : List UInt16} {s : Slot} : chars ≠ [] → chars.length ≤ 13 →
      s.Holds (0x40 ||| UInt8.ofNat k) cksum chars → Stored cksum k chars [s]
  | more {k : Nat} {chars : List UInt16} {s : Slot} {later : List Slot} : 13 < chars.length →
      s.Holds (UInt8.ofNat k) cksum (chars.take 13) →
      Stored cksum (k + 1) (chars.drop 13) later → Stored cksum k chars (later ++ [s])

def toUtf8s (chars : List UInt16) : CString := chars.flatMap fun c => toUtf8 c.toUInt32

end Stored

section Encoding

theorem codepointLen_char (c : UInt16) (some : c ≠ 0) :
    codepointLen c.toUInt32 = if c.toNat < 0x80 then 1 else if c.toNat < 0x800 then 2 else 3 := by
  have pos : c.toNat ≠ 0 := fun zero => some (UInt16.toNat_inj.mp zero)
  have small : c.toNat ≤ 65535 := Nat.le_of_lt_succ c.toNat_lt
  simp only [codepointLen, utf, List.findIdx_cons, UInt32.le_iff_toNat_le, UInt16.toNat_toUInt32,
    UInt32.reduceToNat]
  split_ifs with one two
  · simp [pos, show c.toNat ≤ 127 by omega]
  · simp [pos, show ¬ c.toNat ≤ 127 by omega, show c.toNat ≤ 2047 by omega,
      show 128 ≤ c.toNat by omega]
  · simp [pos, show ¬ c.toNat ≤ 127 by omega, show ¬ c.toNat ≤ 2047 by omega,
      show 2048 ≤ c.toNat by omega, small]

theorem toUtf8_length (c : UInt16) (some : c ≠ 0) :
    1 ≤ (toUtf8 c.toUInt32).length ∧ (toUtf8 c.toUInt32).length ≤ 3 := by
  rw [toUtf8, codepointLen_char c some]
  split_ifs <;> simp

theorem lead_kept (byte lead : UInt8) (some : lead ≠ 0) : 0 ≠ byte ||| lead := by
  intro zero
  have both := congrArg UInt8.toBitVec zero.symm
  rw [UInt8.toBitVec_or, UInt8.toBitVec_ofNat, BitVec.or_eq_zero_iff] at both
  exact some (UInt8.toBitVec_inj.mp both.2)

theorem toUtf8_nonzero (c : UInt16) (some : c ≠ 0) : 0 ∉ toUtf8 c.toUInt32 := by
  rw [toUtf8, codepointLen_char c some]
  split_ifs with one two
  · have pos : c.toNat ≠ 0 := fun zero => some (UInt16.toNat_inj.mp zero)
    have kept : (c.toUInt8 &&& 127).toNat = c.toNat := by
      rw [UInt8.toNat_and, UInt16.toNat_toUInt8, show (127 : UInt8).toNat = 2 ^ 7 - 1 from rfl,
        Nat.and_two_pow_sub_one_eq_mod]
      omega
    have byte : (0 : UInt8) ≠ c.toUInt8 &&& 127 := by
      intro zero
      rw [← zero] at kept
      exact pos kept.symm
    simpa [utfByte, utf] using byte
  · simpa [utfByte, utf] using
      ⟨lead_kept ((c.toUInt32 >>> 6).toUInt8 &&& 31) 192 (by decide),
        lead_kept (c.toUInt8 &&& 63) 128 (by decide)⟩
  · have rest (byte : UInt8) := lead_kept byte 128 (by decide)
    simpa [utfByte, utf, rest] using
      lead_kept ((c.toUInt32 >>> 12).toUInt8 &&& 15) 224 (by decide)

theorem char_bytes (c : UInt16) :
    c.toUInt8.toUInt32 ||| ((c >>> 8).toUInt8.toUInt32 <<< 8) = c.toUInt32 := by
  apply UInt32.eq_of_toBitVec_eq
  ext i hi
  interval_cases i <;> simp [-UInt16.toUInt32_toUInt8]

/-- What utf8_append goes over. -/
def goesOn (c : UInt16) : Bool := c != 0 && c != 0xffff

theorem lfnTerminator_bytes (c : UInt16) :
    lfnTerminator c.toUInt8 (c >>> 8).toUInt8 = !goesOn c := by
  have split : c.toNat = c.toUInt8.toNat + 256 * (c >>> 8).toUInt8.toNat := by
    have small := c.toNat_lt
    simp [Nat.shiftRight_eq_div_pow]
    omega
  have low := c.toUInt8.toNat_lt
  have high := (c >>> 8).toUInt8.toNat_lt
  rw [Bool.eq_iff_iff]
  simp only [lfnTerminator, goesOn, Bool.or_eq_true, Bool.and_eq_true, beq_iff_eq, bne,
    Bool.not_eq_true', Bool.and_eq_false_iff, Bool.not_eq_false', ← UInt8.toNat_inj,
    ← UInt16.toNat_inj, UInt8.reduceToNat, UInt16.reduceToNat]
  omega

theorem toUtf8s_append (xs ys : List UInt16) : toUtf8s (xs ++ ys) = toUtf8s xs ++ toUtf8s ys :=
  List.flatMap_append

theorem shorter_without {chars kept : List UInt16} {c : UInt16} (some : c ≠ 0) (inside : c ∈ chars)
    (sub : kept.Sublist (chars.filter (· != c))) :
    (toUtf8s kept).length < (toUtf8s chars).length := by
  obtain ⟨before, behind, rfl⟩ := List.append_of_mem inside
  have rest : (before ++ c :: behind).filter (· != c) =
      before.filter (· != c) ++ behind.filter (· != c) := by simp
  have less : kept.Sublist (before ++ behind) := by
    rw [rest] at sub
    exact sub.trans (List.filter_sublist.append List.filter_sublist)
  have bound : (toUtf8s kept).length ≤ (toUtf8s (before ++ behind)).length :=
    (less.flatMap _).length_le
  have one := (toUtf8_length c some).1
  have whole : (toUtf8s (before ++ c :: behind)).length =
      (toUtf8s (before ++ behind)).length + (toUtf8 c.toUInt32).length := by
    simp only [toUtf8s, List.flatMap_append, List.flatMap_cons, List.length_append]
    omega
  omega

end Encoding

section Reading

/-- The text, where it fits into filename together with its NUL. -/
def fitted (text : CString) : Outcome CString :=
  if text.length < 512 then .ok text else .wild 512

theorem fitted_bind {x : Comp CString} {k : CString → Comp CString} {text more : CString}
    (first : x.Returns (fitted text))
    (rest : text.length < 512 → (k text).Returns (fitted (text ++ more))) :
    (x >>= k).Returns (fitted (text ++ more)) := by
  unfold fitted at first
  split_ifs at first with short
  · exact (bind_ok first k _).mpr (rest short)
  · have long : ¬ (text ++ more).length < 512 := by
      rw [List.length_append]
      omega
    rw [fitted, if_neg long]
    exact bind_wild first k

theorem filenameCat_fitted (filename utf8 : CString) :
    (filenameCat filename utf8).Returns (fitted (filename ++ utf8)) := by
  unfold filenameCat fitted
  rw [List.length_append]
  split_ifs
  · exact returns_pure.mpr rfl
  · exact returns_wild.mpr rfl

theorem appendFrom_fitted (filename : CString) (chars : List UInt16)
    (short : filename.length < 512) :
    (utf8AppendFrom filename (chars.flatMap charBytes)).Returns
      (fitted (filename ++ toUtf8s (chars.takeWhile goesOn))) := by
  induction chars generalizing filename with
  | nil => simp [utf8AppendFrom, fitted, toUtf8s, short]
  | cons c chars ih =>
    simp only [List.flatMap_cons, charBytes, List.cons_append, List.nil_append, utf8AppendFrom,
      lfnTerminator_bytes, char_bytes, List.takeWhile_cons]
    cases goesOn c with
    | false => simp [fitted, toUtf8s, short]
    | true =>
      simp only [Bool.not_true, Bool.false_eq_true, if_false, if_true, toUtf8s, List.flatMap_cons,
        ← List.append_assoc]
      exact fitted_bind (filenameCat_fitted _ _) fun short => ih _ short

theorem append_fitted {filename : CString} {field : List UInt8} {chars : List UInt16}
    (holds : field = chars.flatMap charBytes) (short : filename.length < 512) :
    (utf8Append filename field).Returns
      (fitted (filename ++ toUtf8s (chars.takeWhile goesOn))) := by
  have even : (field.length % 2 == 0) = true := by
    rw [holds, List.length_flatMap]
    simp [charBytes, Nat.mul_mod_left]
  rw [utf8Append, even, assert_true, pure_bind, holds]
  exact appendFrom_fitted filename chars short

def partRead (part : List UInt16) : List UInt16 :=
  ((padded part).take 5).takeWhile goesOn ++ ((((padded part).drop 5).take 6).takeWhile goesOn ++
    ((padded part).drop 11).takeWhile goesOn)

theorem part_fitted {filename : CString} {s : Slot} {seqno cksum : UInt8} {part : List UInt16}
    (holds : s.Holds seqno cksum part) (short : filename.length < 512) :
    (lfnPart filename s).Returns (fitted (filename ++ toUtf8s (partRead part))) := by
  have attr : (s.attr == FAT32_LONG_FILE_NAME) = true := by rw [holds.attr, beq_self_eq_true]
  rw [lfnPart, attr, assert_true, pure_bind, partRead, toUtf8s_append, toUtf8s_append,
    ← List.append_assoc]
  refine fitted_bind (append_fitted holds.name1_5 short) fun short => ?_
  rw [← List.append_assoc]
  refine fitted_bind (append_fitted holds.name6_11 short) fun short => ?_
  exact append_fitted holds.name12_13 short

theorem takeWhile_sublist_filter (p : UInt16 → Bool) (xs : List UInt16) :
    (xs.takeWhile p).Sublist (xs.filter p) := by
  have all : (xs.takeWhile p).filter p = xs.takeWhile p := by
    rw [List.filter_eq_self]
    exact fun c inside => List.mem_takeWhile_imp inside
  have sub := (List.takeWhile_sublist p (l := xs)).filter p
  rwa [all] at sub

theorem padded_filter (part : List UInt16) (nonNul : 0 ∉ part) :
    (padded part).filter goesOn = part.filter (· != 0xffff) := by
  have same : part.filter goesOn = part.filter (· != 0xffff) := by
    refine List.filter_congr fun c inside => ?_
    have some : c ≠ 0 := fun zero => nonNul (zero ▸ inside)
    simp [goesOn, some]
  unfold padded
  split_ifs
  · simp [same, goesOn]
  · exact same

theorem padded_split (part : List UInt16) :
    (padded part).take 5 ++ (((padded part).drop 5).take 6 ++ (padded part).drop 11) =
      padded part := by
  have later : (padded part).drop 11 = ((padded part).drop 5).drop 6 := by rw [List.drop_drop]
  rw [later, List.take_append_drop, List.take_append_drop]

theorem partRead_sublist (part : List UInt16) (nonNul : 0 ∉ part) :
    (partRead part).Sublist (part.filter (· != 0xffff)) := by
  rw [← padded_filter part nonNul, ← padded_split part, List.filter_append, List.filter_append]
  exact (takeWhile_sublist_filter _ _).append
    ((takeWhile_sublist_filter _ _).append (takeWhile_sublist_filter _ _))

theorem takeWhile_ended {p : UInt16 → Bool} {good bad : List UInt16} (all : ∀ c ∈ good, p c)
    (none : ∀ c ∈ bad, ¬ p c) : (good ++ bad).takeWhile p = (good ++ bad).filter p := by
  rw [List.takeWhile_append_of_pos all, List.filter_append, List.filter_eq_self.mpr all,
    List.filter_eq_nil_iff.mpr none]
  cases bad with
  | nil => rfl
  | cons c bad => rw [List.takeWhile_cons_of_neg (none c List.mem_cons_self)]

theorem takeWhile_slice {p : UInt16 → Bool} {good bad : List UInt16} (all : ∀ c ∈ good, p c)
    (none : ∀ c ∈ bad, ¬ p c) (n m : Nat) :
    (((good ++ bad).drop n).take m).takeWhile p = (((good ++ bad).drop n).take m).filter p := by
  rw [List.drop_append, List.take_append]
  refine takeWhile_ended (fun c inside => all c ?_) (fun c inside => none c ?_)
  · exact List.mem_of_mem_drop (List.mem_of_mem_take inside)
  · exact List.mem_of_mem_drop (List.mem_of_mem_take inside)

theorem partRead_whole (part : List UInt16) (nonNul : 0 ∉ part) (noPad : 0xffff ∉ part) :
    partRead part = part := by
  have all : ∀ c ∈ part, goesOn c := by
    intro c inside
    have some : c ≠ 0 := fun zero => nonNul (zero ▸ inside)
    have other : c ≠ 0xffff := fun pad => noPad (pad ▸ inside)
    simp [goesOn, some, other]
  obtain ⟨bad, ends, none⟩ : ∃ bad, padded part = part ++ bad ∧ ∀ c ∈ bad, ¬ goesOn c := by
    unfold padded
    split_ifs
    · refine ⟨_, rfl, fun c inside => ?_⟩
      rcases List.mem_cons.mp inside with rfl | inside
      · decide
      · rw [List.eq_of_mem_replicate inside]
        decide
    · exact ⟨[], (List.append_nil _).symm, nofun⟩
  have slice (n m : Nat) : (((padded part).drop n).take m).takeWhile goesOn =
      (((padded part).drop n).take m).filter goesOn := by
    rw [ends]
    exact takeWhile_slice all none n m
  have head := slice 0 5
  have tail := slice 11 ((padded part).drop 11).length
  rw [List.drop_zero] at head
  rw [List.take_length] at tail
  rw [partRead, head, slice 5 6, tail, ← List.filter_append, ← List.filter_append, padded_split,
    ends, List.filter_append, List.filter_eq_self.mpr all, List.filter_eq_nil_iff.mpr none,
    List.append_nil]

theorem lfnParts_append (filename : CString) (s t : List Slot) :
    lfnParts filename (s ++ t) = lfnParts filename t >>= fun filename => lfnParts filename s := by
  induction s with
  | nil => exact (bind_pure _).symm
  | cons l s ih =>
    rw [List.cons_append, lfnParts, ih, bind_assoc]
    rfl

/-- What is read of a stored name: characters of it in their order, and all of them if none
looks like padding. -/
theorem stored_read {cksum : UInt8} {k : Nat} {chars : List UInt16} {slots : List Slot}
    (stored : Stored cksum k chars slots) (nonNul : 0 ∉ chars) : ∃ kept : List UInt16,
      kept.Sublist (chars.filter (· != 0xffff)) ∧ (0xffff ∉ chars → kept = chars) ∧
      ∀ filename : CString, filename.length < 512 →
        (lfnParts filename slots).Returns (fitted (filename ++ toUtf8s kept)) := by
  induction stored with
  | last some short holds =>
    refine ⟨_, partRead_sublist _ nonNul, partRead_whole _ nonNul, fun filename short => ?_⟩
    exact part_fitted holds short
  | @more k chars s later long holds stored ih =>
    have split : chars.take 13 ++ chars.drop 13 = chars := List.take_append_drop 13 chars
    have first : 0 ∉ chars.take 13 := fun inside => nonNul (List.mem_of_mem_take inside)
    obtain ⟨kept, sub, whole, fits⟩ := ih fun inside => nonNul (List.mem_of_mem_drop inside)
    refine ⟨partRead (chars.take 13) ++ kept, ?_, fun noPad => ?_, fun filename short => ?_⟩
    · have both := (partRead_sublist _ first).append sub
      rwa [← List.filter_append, split] at both
    · rw [whole fun inside => noPad (List.mem_of_mem_drop inside),
        partRead_whole _ first fun inside => noPad (List.mem_of_mem_take inside), split]
    · rw [lfnParts_append, toUtf8s_append, ← List.append_assoc]
      exact fitted_bind (part_fitted holds short) fun short => fits _ short

end Reading

section Found

theorem stored_attr {cksum : UInt8} {k : Nat} {chars : List UInt16} {slots : List Slot}
    (stored : Stored cksum k chars slots) :
    ∀ s ∈ slots, (s.attr == FAT32_LONG_FILE_NAME) = true := by
  induction stored with
  | last _ _ holds =>
    intro s inside
    rw [List.mem_singleton.mp inside, holds.attr, beq_self_eq_true]
  | more _ holds _ ih =>
    intro s inside
    rcases List.mem_append.mp inside with inside | inside
    · exact ih s inside
    · rw [List.mem_singleton.mp inside, holds.attr, beq_self_eq_true]

theorem seqno_not_deleted : ∀ k < 32, (0x40 ||| UInt8.ofNat k) &&& 0xe5 ≠ 0xe5 := by decide

theorem stored_head {cksum : UInt8} {k : Nat} {chars : List UInt16} {slots : List Slot}
    (stored : Stored cksum (k + 1) chars slots) (length : 13 * k + chars.length ≤ 255) :
    ∃ d rest, slots = d :: rest ∧ fat32DirentFree d.dirent = false := by
  generalize counted : k + 1 = n at stored
  induction stored generalizing k with
  | @last n chars s some _ holds =>
    have pos : chars.length ≠ 0 := fun zero => some (List.length_eq_zero_iff.mp zero)
    have lfn : s.dirent.attr = FAT32_LONG_FILE_NAME := holds.attr
    have first : s.dirent.firstByte = 0x40 ||| UInt8.ofNat n := holds.seqno
    refine ⟨s, [], rfl, ?_⟩
    rw [fat32DirentFree, lfn, beq_self_eq_true, if_pos rfl, fat32DirentIsDeletedLfn, first]
    exact beq_eq_false_iff_ne.mpr (seqno_not_deleted n (by omega))
  | @more n chars s later long _ _ ih =>
    have shorter : 13 * (k + 1) + (chars.drop 13).length ≤ 255 := by
      rw [List.length_drop]
      omega
    obtain ⟨d, rest, rfl, used⟩ := ih (k := k + 1) shorter (by omega)
    exact ⟨d, rest ++ [s], rfl, used⟩

variable {cksum : UInt8} {chars : List UInt16} {slots rest : List Slot} {short : Slot}

theorem dirFilename_eq (stored : Stored cksum 1 chars slots) (length : chars.length ≤ 255)
    (entry : short.attr ≠ FAT32_LONG_FILE_NAME) :
    fat32DirFilename (slots ++ short :: rest) =
      (assert (isAttr short.attr FAT32_DIR || isAttr short.attr FAT32_ARCHIVE) >>= fun _ =>
        lfnGetName slots >>= fun name => pure (name, slots.length)) := by
  have all := stored_attr stored
  obtain ⟨d, later, rfl, used⟩ := stored_head (k := 0) stored (by omega)
  have lfn := all d List.mem_cons_self
  have counted : (later ++ short :: rest).takeWhile (·.attr == FAT32_LONG_FILE_NAME) = later := by
    rw [List.takeWhile_append_of_pos fun s inside => all s (List.mem_cons_of_mem d inside),
      List.takeWhile_cons_of_neg (by simpa using entry), List.append_nil]
  have next : (d :: (later ++ short :: rest))[1 + later.length]? = some short := by
    rw [Nat.add_comm, List.getElem?_cons_succ, List.getElem?_append_right (Nat.le_refl _),
      Nat.sub_self, List.getElem?_cons_zero]
  have taken : (d :: (later ++ short :: rest)).take (1 + later.length) = d :: later := by
    rw [Nat.add_comm, List.take_succ_cons, List.take_left']
    rfl
  rw [List.cons_append, fat32DirFilename, used, Bool.not_false, assert_true, pure_bind, lfn,
    if_pos rfl]
  simp only [counted, next, taken]
  rw [Nat.add_comm, List.length_cons]

/-- The name comes back if its text fits into filename with a NUL, no character of it looks like
padding, and its entry is a directory or has the archive bit. -/
theorem long_name_iff (stored : Stored cksum 1 chars slots) (length : chars.length ≤ 255)
    (nonNul : 0 ∉ chars) (entry : short.attr ≠ FAT32_LONG_FILE_NAME) :
    (fat32DirFilename (slots ++ short :: rest)).Returns (.ok (toUtf8s chars, slots.length)) ↔
      (toUtf8s chars).length ≤ 511 ∧ 0xffff ∉ chars ∧
        (isAttr short.attr FAT32_DIR ∨ isAttr short.attr FAT32_ARCHIVE) := by
  obtain ⟨kept, sub, whole, fits⟩ := stored_read stored nonNul
  have reads : (lfnGetName slots).Returns (fitted (toUtf8s kept)) := fits [] (by decide)
  rw [dirFilename_eq stored length entry, ← Bool.or_eq_true]
  cases isAttr short.attr FAT32_DIR || isAttr short.attr FAT32_ARCHIVE with
  | false => simp
  | true =>
    rw [assert_true, pure_bind, bind_returns_ok]
    constructor
    · rintro ⟨name, returned, same⟩
      have same_name : name = toUtf8s chars := by
        cases returns_pure.mp same
        rfl
      have outcome := returns_unique reads returned
      unfold fitted at outcome
      split_ifs at outcome with short
      have text : toUtf8s kept = toUtf8s chars := by
        rw [← same_name]
        exact Outcome.ok.inj outcome
      rw [text] at short
      refine ⟨Nat.le_of_lt_succ short, fun pad => ?_, rfl⟩
      have less := shorter_without (by decide) pad sub
      rw [text] at less
      exact Nat.lt_irrefl _ less
    · rintro ⟨short, noPad, -⟩
      refine ⟨toUtf8s chars, ?_, returns_pure.mpr rfl⟩
      rwa [whole noPad, fitted, if_pos (Nat.lt_succ_of_le short)] at reads

end Found

section Names

theorem padded_length {part : List UInt16} (short : part.length ≤ 13) :
    (padded part).length = 13 := by
  unfold padded
  split_ifs
  · simp
    omega
  · omega

theorem charBytes_length (chars : List UInt16) :
    (chars.flatMap charBytes).length = 2 * chars.length := by
  simp [List.length_flatMap, charBytes, Nat.mul_comm]

def slotBytes (seqno cksum : UInt8) (name1_5 name6_11 name12_13 : List UInt8) : List UInt8 :=
  seqno :: (name1_5 ++ ([0x0f, 0, cksum] ++ (name6_11 ++ ([0, 0] ++ name12_13))))

section Fields
variable {one six twelve : List UInt8} (ten : one.length = 10) (dozen : six.length = 12)
  (four : twelve.length = 4) (seqno cksum : UInt8)
include ten

theorem slotBytes_one : ((slotBytes seqno cksum one six twelve).drop 1).take 10 = one := by
  simp [slotBytes, ← ten]

theorem slotBytes_attr : (slotBytes seqno cksum one six twelve).getD 11 0 = 0x0f := by
  simp [slotBytes, ten]

theorem slotBytes_cksum : (slotBytes seqno cksum one six twelve).getD 13 0 = cksum := by
  simp [slotBytes, List.getElem?_append, ten]

include dozen

theorem slotBytes_six : ((slotBytes seqno cksum one six twelve).drop 14).take 12 = six := by
  simp [slotBytes, List.drop_append, List.take_append, ten, dozen]

include four

theorem slotBytes_twelve : ((slotBytes seqno cksum one six twelve).drop 28).take 4 = twelve := by
  have no_one : one.drop 27 = [] := List.drop_eq_nil_of_le (by omega)
  have no_six : six.drop 14 = [] := List.drop_eq_nil_of_le (by omega)
  have all : twelve.take 4 = twelve := List.take_of_length_le (by omega)
  simp [slotBytes, List.drop_append, ten, dozen, no_one, no_six, all]

theorem slotBytes_length : (slotBytes seqno cksum one six twelve).length = 32 := by
  simp [slotBytes, ten, dozen, four]

end Fields

section Part
variable (seqno cksum : UInt8) (part : List UInt16) (short : part.length ≤ 13)
include short

theorem field_one : (((padded part).take 5).flatMap charBytes).length = 10 := by
  rw [charBytes_length, List.length_take, padded_length short]
  rfl

theorem field_six : ((((padded part).drop 5).take 6).flatMap charBytes).length = 12 := by
  rw [charBytes_length, List.length_take, List.length_drop, padded_length short]
  rfl

theorem field_twelve : (((padded part).drop 11).flatMap charBytes).length = 4 := by
  rw [charBytes_length, List.length_drop, padded_length short]

omit short in
def partSlot (short : part.length ≤ 13) : Slot :=
  ⟨slotBytes seqno cksum _ _ _, slotBytes_length (field_one part short) (field_six part short)
    (field_twelve part short) seqno cksum⟩

theorem partSlot_holds : (partSlot seqno cksum part short).Holds seqno cksum part where
  attr := slotBytes_attr (field_one part short) seqno cksum
  seqno := rfl
  cksum := slotBytes_cksum (field_one part short) seqno cksum
  name1_5 := slotBytes_one (field_one part short) seqno cksum
  name6_11 := slotBytes_six (field_one part short) (field_six part short) seqno cksum
  name12_13 := slotBytes_twelve (field_one part short) (field_six part short)
    (field_twelve part short) seqno cksum

end Part

def nameSlots (cksum : UInt8) (k : Nat) (chars : List UInt16) : List Slot :=
  if short : chars.length ≤ 13 then [partSlot (0x40 ||| UInt8.ofNat k) cksum chars short]
  else nameSlots cksum (k + 1) (chars.drop 13) ++
    [partSlot (UInt8.ofNat k) cksum (chars.take 13) (List.length_take_le 13 chars)]
termination_by chars.length
decreasing_by
  rw [List.length_drop]
  omega

theorem nameSlots_stored (cksum : UInt8) (k : Nat) (chars : List UInt16) (some : chars ≠ []) :
    Stored cksum k chars (nameSlots cksum k chars) := by
  induction k, chars using nameSlots.induct with
  | case1 k chars short =>
    rw [nameSlots, dif_pos short]
    exact .last some short (partSlot_holds ..)
  | case2 k chars long ih =>
    rw [nameSlots, dif_neg long]
    have more : chars.drop 13 ≠ [] := by
      rw [ne_eq, List.drop_eq_nil_iff]
      exact long
    exact .more (Nat.lt_of_not_le long) (partSlot_holds ..) (ih more)

def lfnChecksum (name : List UInt8) : UInt8 :=
  (name.take 11).foldl (fun sum c => ((sum &&& 1) <<< 7) + (sum >>> 1) + c) 0

def kernelEntry : Slot :=
  ⟨[0x4b, 0x45, 0x52, 0x4e, 0x45, 0x4c, 0x7e, 0x31, 0x42, 0x49, 0x4e, FAT32_ARCHIVE] ++
    List.replicate 20 0, by decide⟩

def kernelSlots (chars : List UInt16) : List Slot := nameSlots (lfnChecksum kernelEntry.1) 1 chars

def kernelImage : List UInt16 :=
  [0x6b, 0x65, 0x72, 0x6e, 0x65, 0x6c, 0x2d, 0x69, 0x6d, 0x61, 0x67, 0x65, 0x2e, 0x62, 0x69, 0x6e]

theorem kernelImage_comes_back :
    (fat32DirFilename (kernelSlots kernelImage ++ kernelEntry :: [])).Returns
      (.ok (toUtf8s kernelImage, (kernelSlots kernelImage).length)) :=
  (long_name_iff (nameSlots_stored _ 1 kernelImage (by decide)) (by decide) (by decide)
    (by decide)).mpr ⟨by decide, by decide, by decide⟩

def euros : List UInt16 := List.replicate 171 0x20ac

/-- The text of the name has 513 bytes, of which the last is stored behind the buffer. -/
theorem euros_overflow :
    (fat32DirFilename (kernelSlots euros ++ [kernelEntry])).Returns (.wild 512) ∧
    ¬ (fat32DirFilename (kernelSlots euros ++ [kernelEntry])).Returns
      (.ok (toUtf8s euros, (kernelSlots euros).length)) := by
  have stored : Stored (lfnChecksum kernelEntry.1) 1 euros (kernelSlots euros) :=
    nameSlots_stored _ 1 euros (by decide)
  have nonNul : 0 ∉ euros := fun inside => absurd (List.eq_of_mem_replicate inside) (by decide)
  have noPad : 0xffff ∉ euros := fun inside => absurd (List.eq_of_mem_replicate inside) (by decide)
  obtain ⟨kept, -, whole, fits⟩ := stored_read stored nonNul
  have reads : (lfnGetName (kernelSlots euros)).Returns (fitted (toUtf8s kept)) :=
    fits [] (by decide)
  have long : ¬ (toUtf8s euros).length < 512 := by
    have each : (toUtf8 (0x20ac : UInt16).toUInt32).length = 3 := by decide
    rw [toUtf8s, euros, List.length_flatMap, List.map_replicate, each, List.sum_replicate_nat]
    decide
  rw [whole noPad, fitted, if_neg long] at reads
  have attr :
      (isAttr kernelEntry.attr FAT32_DIR || isAttr kernelEntry.attr FAT32_ARCHIVE) = true := by
    decide
  have wild : (fat32DirFilename (kernelSlots euros ++ [kernelEntry])).Returns (.wild 512) := by
    have length : euros.length ≤ 255 := by
      rw [euros, List.length_replicate]
      decide
    rw [dirFilename_eq stored length (by decide), attr, assert_true, Comp.pure_bind]
    exact bind_wild reads _
  exact ⟨wild, fun returned => nomatch returns_unique wild returned⟩

end Names

end EmbeddedOS.Fat32
