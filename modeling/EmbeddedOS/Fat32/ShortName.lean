import EmbeddedOS.Fat32.Directory
import Mathlib.Data.List.GetD

/-! Short names: how they are put into a slot and read back, and where to_8dot3 stores. -/
namespace EmbeddedOS.Fat32

def DOT : UInt8 := 0x2e

def SPACE : UInt8 := 0x20

/-- A to Z and 0 to 9. -/
def nameChar (c : UInt8) : Bool := (0x41 ≤ c && c ≤ 0x5a) || (0x30 ≤ c && c ≤ 0x39)

def hasDot (name : CString) : Bool := name.any (· == DOT)

def fat32IsValidName (name : CString) : Bool :=
  let n := name.length
  if hasDot name then
    n ≤ 12 && 5 ≤ n && name.getD (n - 4) 0 == DOT &&
      (List.range n).all fun i => nameChar (name.getD i 0) || i == n - 4
  else n ≤ 8 && 1 ≤ n && name.all nameChar

def copyTo (dst : List UInt8) (offset : Nat) (src : List UInt8) : List UInt8 :=
  dst.take offset ++ src ++ dst.drop (offset + src.length)

/-- The slot with the name, where the assert holds. -/
def fat32DirentSetName (d : Dirent) (name : CString) : Option Dirent :=
  let n := name.length
  if fat32IsValidName name then
    let blank := List.replicate 11 SPACE
    some { d with
      filename :=
        if hasDot name then copyTo (copyTo blank 0 (name.take (n - 4))) 8 (name.drop (n - 3))
        else copyTo blank 0 name }
  else none

/-- The name read back from the slot is the one that was set, and it sets the same bytes again. -/
structure RoundTrip (d : Dirent) (name : CString) : Prop where
  back : ∃ e, fat32DirentSetName d name = some e ∧ fat32DirentName e = name
  again : ∃ e f, fat32DirentSetName d name = some e ∧
    fat32DirentSetName e (fat32DirentName e) = some f ∧ f.filename = e.filename

section RoundTrip

theorem nameChar_range {c : UInt8} (ok : nameChar c = true) : c ≠ 0 ∧ c ≠ DOT ∧ c ≠ SPACE := by
  refine ⟨?_, ?_, ?_⟩
  · rintro rfl
    exact absurd ok (by decide)
  · rintro rfl
    exact absurd ok (by decide)
  · rintro rfl
    exact absurd ok (by decide)

theorem all_nameChar {xs : List UInt8} (ok : xs.all nameChar = true) (c : UInt8) (inside : c ∈ xs) :
    c ≠ 0 ∧ c ≠ DOT ∧ c ≠ SPACE :=
  nameChar_range (List.all_eq_true.mp ok c inside)

theorem valid_dotted {name : CString} (valid : fat32IsValidName name = true)
    (dot : hasDot name = true) : ∃ stem suffix, name = stem ++ DOT :: suffix ∧
      1 ≤ stem.length ∧ stem.length ≤ 8 ∧ suffix.length = 3 ∧
      stem.all nameChar = true ∧ suffix.all nameChar = true := by
  simp only [fat32IsValidName, dot, if_true, Bool.and_eq_true, decide_eq_true_eq, beq_iff_eq,
    List.all_eq_true, List.mem_range, Bool.or_eq_true] at valid
  obtain ⟨⟨⟨long, short⟩, place⟩, others⟩ := valid
  have inside : name.length - 4 < name.length := by omega
  have char (i : Nat) (there : i < name.length) (other : i ≠ name.length - 4) :
      nameChar name[i] = true := by
    have ok := (others i there).resolve_right other
    rwa [List.getD_eq_getElem _ _ there] at ok
  rw [List.getD_eq_getElem _ _ inside] at place
  have split : name = name.take (name.length - 4) ++ name.drop (name.length - 4) :=
    (List.take_append_drop _ _).symm
  rw [List.drop_eq_getElem_cons inside, place] at split
  refine ⟨_, _, split, ?_, ?_, ?_, ?_, ?_⟩
  · rw [List.length_take]
    omega
  · rw [List.length_take]
    omega
  · rw [List.length_drop]
    omega
  · rw [List.all_eq_true]
    intro c member
    obtain ⟨i, there, rfl⟩ := List.mem_iff_getElem.mp member
    rw [List.length_take] at there
    rw [List.getElem_take]
    exact char i (by omega) (by omega)
  · rw [List.all_eq_true]
    intro c member
    obtain ⟨i, there, rfl⟩ := List.mem_iff_getElem.mp member
    rw [List.length_drop] at there
    rw [List.getElem_drop]
    exact char _ (by omega) (by omega)

theorem copy_stem {stem : List UInt8} (short : stem.length ≤ 8) :
    copyTo (List.replicate 11 SPACE) 0 stem =
      stem ++ List.replicate (8 - stem.length) SPACE ++ List.replicate 3 SPACE := by
  have room : 11 - stem.length = (8 - stem.length) + 3 := by omega
  simp only [copyTo, List.take_zero, List.nil_append, List.drop_replicate, Nat.zero_add, room,
    List.replicate_add, List.append_assoc]

theorem padded_eight {stem : List UInt8} (short : stem.length ≤ 8) :
    (stem ++ List.replicate (8 - stem.length) SPACE).length = 8 := by
  rw [List.length_append, List.length_replicate]
  omega

theorem set_dotted {stem suffix : List UInt8} (short : stem.length ≤ 8)
    (three : suffix.length = 3) :
    copyTo (copyTo (List.replicate 11 SPACE) 0 stem) 8 suffix =
      stem ++ List.replicate (8 - stem.length) SPACE ++ suffix := by
  have eight := padded_eight short
  rw [copy_stem short, copyTo, three, List.take_left' eight, List.drop_eq_nil_of_le, List.append_nil]
  rw [List.length_append, eight, List.length_replicate]

theorem rdropWhile_padded {stem : List UInt8} (k : Nat) (fresh : ∀ c ∈ stem, c ≠ SPACE) :
    (stem ++ List.replicate k SPACE).rdropWhile (· == 0x20) = stem := by
  induction k with
  | zero =>
    rw [List.replicate_zero, List.append_nil, List.rdropWhile_eq_self_iff]
    intro hl
    have last := fresh _ (List.getLast_mem hl)
    simpa [SPACE] using last
  | succ k ih =>
    rw [List.replicate_succ', ← List.append_assoc, List.rdropWhile_concat_pos _ _ _ (by decide)]
    exact ih

theorem takeWhile_nonzero {xs : List UInt8} (fresh : ∀ c ∈ xs, c ≠ 0) :
    xs.takeWhile (· != 0) = xs := by
  rw [List.takeWhile_eq_self_iff]
  intro c inside
  exact bne_iff_ne.mpr (fresh c inside)

theorem to8dot3_padded {stem suffix : List UInt8} (some_left : stem ≠ []) (short : stem.length ≤ 8)
    (fresh : ∀ c ∈ stem, c ≠ 0 ∧ c ≠ SPACE) (whole : ∀ c ∈ suffix, c ≠ 0) :
    to8dot3 (stem ++ List.replicate (8 - stem.length) SPACE ++ suffix) = stem ++ DOT :: suffix := by
  have eight := padded_eight short
  unfold to8dot3
  rw [List.take_left' eight, List.drop_left' eight,
    rdropWhile_padded _ fun c inside => (fresh c inside).2]
  simp only [if_neg some_left]
  apply takeWhile_nonzero
  intro c inside
  rcases List.mem_append.mp inside with first | later
  · exact (fresh c first).1
  · rcases List.mem_cons.mp later with rfl | last
    · decide
    · exact whole c last

theorem dotted_back {d : Dirent} {name : CString} (valid : fat32IsValidName name = true)
    (dot : hasDot name = true) :
    ∃ e, fat32DirentSetName d name = some e ∧ fat32DirentName e = name := by
  obtain ⟨stem, suffix, rfl, some_left, short, three, first, last⟩ := valid_dotted valid dot
  have place : (stem ++ DOT :: suffix).length - 4 = stem.length := by
    rw [List.length_append, List.length_cons, three]
    omega
  have behind : (stem ++ DOT :: suffix).length - 3 = stem.length + 1 := by
    rw [List.length_append, List.length_cons, three]
    omega
  refine ⟨_, by simp only [fat32DirentSetName, valid, dot, if_true]; rfl, ?_⟩
  unfold fat32DirentName
  dsimp only
  rw [place, behind, List.take_left' rfl, ← List.drop_drop, List.drop_left' rfl, List.drop_one,
    List.tail_cons, set_dotted short three]
  apply to8dot3_padded (List.ne_nil_of_length_pos some_left) short
  · intro c inside
    have ok := all_nameChar first c inside
    exact ⟨ok.1, ok.2.2⟩
  · intro c inside
    exact (all_nameChar last c inside).1

theorem undotted_back {d e : Dirent} {name : CString} (valid : fat32IsValidName name = true)
    (dot : ¬ hasDot name = true) (set : fat32DirentSetName d name = some e) :
    fat32DirentName e = name ++ [DOT, SPACE, SPACE, SPACE] := by
  have chars := valid
  simp only [fat32IsValidName, if_neg dot, Bool.and_eq_true, decide_eq_true_eq] at chars
  obtain ⟨⟨short, some_left⟩, chars⟩ := chars
  simp only [fat32DirentSetName, valid, if_neg dot, if_true, Option.some.injEq] at set
  rw [← set]
  unfold fat32DirentName
  dsimp only
  rw [copy_stem short]
  apply to8dot3_padded (List.ne_nil_of_length_pos some_left) short
  · intro c inside
    have ok := all_nameChar chars c inside
    exact ⟨ok.1, ok.2.2⟩
  · decide +kernel

end RoundTrip

/-- Names with an extension come back, and no others. -/
theorem round_trip_iff (d : Dirent) {name : CString} (valid : fat32IsValidName name = true) :
    RoundTrip d name ↔ hasDot name = true := by
  constructor
  · rintro ⟨⟨e, set, back⟩, -⟩
    by_contra dot
    rw [undotted_back valid dot set] at back
    have longer := congrArg List.length back
    rw [List.length_append] at longer
    simp at longer
  · intro dot
    obtain ⟨e, set, back⟩ := dotted_back (d := d) valid dot
    refine ⟨⟨e, set, back⟩, ?_⟩
    obtain ⟨f, twice, -⟩ := dotted_back (d := e) valid dot
    refine ⟨e, f, set, by rw [back, twice], ?_⟩
    simp only [fat32DirentSetName, valid, if_true, Option.some.injEq] at set twice
    rw [← set, ← twice]

theorem kernel_img_comes_back : RoundTrip neverUsed
    [0x4b, 0x45, 0x52, 0x4e, 0x45, 0x4c, 0x2e, 0x49, 0x4d, 0x47] :=
  (round_trip_iff _ (by decide)).mpr (by decide)

theorem boot_changes :
    ¬ ∀ (d : Dirent) (name : CString), fat32IsValidName name = true → RoundTrip d name := by
  intro always
  obtain ⟨⟨e, set, back⟩, -⟩ := always neverUsed [0x42, 0x4f, 0x4f, 0x54] (by decide)
  rw [undotted_back (by decide) (by decide) set] at back
  exact absurd back (by decide)

section Bounds

def trimmed (s : List UInt8) : Nat → Int
  | 0 => -1
  | k + 1 => if s.getD k 0 ≠ SPACE then k + 1 else trimmed s k

/-- What to_8dot3 stores where the scan has ended with i, by index into its buffer of 14. -/
def storesFrom (p : List UInt8) (i : Int) : List (Int × UInt8) :=
  (List.range 8).map (fun j : Nat => ((j : Int), p.getD j 0)) ++
    [(i, DOT), (i + 1, p.getD 8 0), (i + 2, p.getD 9 0), (i + 3, p.getD 10 0), (i + 4, 0)]

/-- The scan only reads among the first eight. -/
def to8dot3Stores (p : List UInt8) : List (Int × UInt8) := storesFrom p (trimmed p 8)

/-- What the stores leave at an index. -/
def stored (stores : List (Int × UInt8)) (a : Int) : UInt8 :=
  stores.foldl (fun old s => if s.1 = a then s.2 else old) 0

def buffer (stores : List (Int × UInt8)) : List UInt8 :=
  (List.range 14).map fun a : Nat => stored stores a

def bufferString (p : List UInt8) : CString :=
  (buffer (to8dot3Stores p)).takeWhile (· != 0)

/-- The stores stay in the buffer, and the string with its NUL fits into the names of
find_dirent_with_name and of dirent_convert. -/
structure NamesFit (p : List UInt8) : Prop where
  inside : ∀ s ∈ to8dot3Stores p, 0 ≤ s.1 ∧ s.1 < 14
  find : (bufferString p).length + 1 ≤ 12
  convert : (bufferString p).length + 1 ≤ 16

theorem trimmed_cases (s : List UInt8) {n : Nat} (fits : n ≤ s.length) :
    (trimmed s n = -1 ∧ (s.take n).rdropWhile (· == 0x20) = []) ∨
    ∃ k < n, trimmed s n = k + 1 ∧ (s.take n).rdropWhile (· == 0x20) = s.take (k + 1) ∧
      (s.getD (n - 1) 0 = SPACE ↔ k + 1 ≠ n) := by
  induction n with
  | zero => exact Or.inl ⟨rfl, rfl⟩
  | succ n ih =>
    have there : n < s.length := fits
    have last : s.getD n 0 = s[n] := List.getD_eq_getElem _ _ there
    rw [List.take_succ_eq_append_getElem there, trimmed, last, Nat.add_sub_cancel, last]
    by_cases blank : s[n] = SPACE
    · rw [if_neg (not_not_intro blank), blank, List.rdropWhile_concat_pos _ _ _ (by decide)]
      rcases ih (Nat.le_of_succ_le fits) with none | ⟨k, less, at_k, rest, -⟩
      · exact Or.inl none
      · exact Or.inr ⟨k, by omega, at_k, rest, by simp; omega⟩
    · have stops : ¬ (s[n] == 0x20) = true := by simpa [SPACE] using blank
      have kept : (s.take n ++ [s[n]]).rdropWhile (· == 0x20) = s.take n ++ [s[n]] :=
        List.rdropWhile_concat_neg _ _ _ stops
      rw [if_pos blank, kept]
      exact Or.inr ⟨n, Nat.lt_succ_self n, rfl,
        (List.take_succ_eq_append_getElem there).symm, by simp [blank]⟩

theorem takeWhile_stop (xs ys : List UInt8) :
    (xs ++ 0 :: ys).takeWhile (· != 0) = xs.takeWhile (· != 0) := by
  induction xs with
  | nil => rfl
  | cons x xs ih =>
    rw [List.cons_append, List.takeWhile_cons, List.takeWhile_cons, ih]

theorem buffer_trimmed {p : List UInt8} (eleven : p.length = 11) {k : Nat} (short : k < 8) :
    ∃ rest, buffer (storesFrom p (k + 1)) = (p.take (k + 1) ++ DOT :: p.drop 8) ++ 0 :: rest := by
  match p, eleven with
  | [a, b, c, d, e, f, g, h, i, j, l], _ =>
    interval_cases k
    all_goals exact ⟨_, rfl⟩

theorem buffer_blank {p : List UInt8} (eleven : p.length = 11) :
    ∃ rest, buffer (storesFrom p (-1)) = p.drop 8 ++ 0 :: rest := by
  match p, eleven with
  | [a, b, c, d, e, f, g, h, i, j, l], _ => exact ⟨_, rfl⟩

theorem take_some {p : List UInt8} (eleven : p.length = 11) (k : Nat) : p.take (k + 1) ≠ [] := by
  apply List.ne_nil_of_length_pos
  rw [List.length_take]
  omega

/-- The string is the one that the listing and the lookup go by. -/
theorem bufferString_eq {p : List UInt8} (eleven : p.length = 11) : bufferString p = to8dot3 p := by
  unfold bufferString to8dot3Stores to8dot3
  rcases trimmed_cases p (n := 8) (by omega) with ⟨none, blank⟩ | ⟨k, short, at_k, stem, -⟩
  · obtain ⟨rest, whole⟩ := buffer_blank eleven
    rw [none, whole, takeWhile_stop, blank]
    rfl
  · have some_left := take_some eleven k
    obtain ⟨rest, whole⟩ := buffer_trimmed eleven short
    rw [at_k, whole, takeWhile_stop, stem]
    simp only [if_neg some_left]
    rfl

theorem stores_inside {p : List UInt8} {k : Nat} (short : k < 8) :
    ∀ s ∈ storesFrom p (k + 1), 0 ≤ s.1 ∧ s.1 < 14 := by
  intro s member
  simp only [storesFrom, List.mem_append, List.mem_map, List.mem_range, List.mem_cons,
    List.not_mem_nil, or_false] at member
  rcases member with ⟨j, less, rfl⟩ | rfl | rfl | rfl | rfl | rfl
  all_goals
    dsimp only
    omega

theorem takeWhile_whole {xs : List UInt8} :
    (xs.takeWhile (· != 0)).length = xs.length ↔ (0 : UInt8) ∉ xs := by
  constructor
  · intro whole inside
    have all := (List.takeWhile_prefix (l := xs) (· != 0)).eq_of_length whole
    have fine := (List.takeWhile_eq_self_iff.mp all) 0 inside
    simp at fine
  · intro fresh
    rw [takeWhile_nonzero fun c inside => fun zero => fresh (zero ▸ inside)]

theorem zero_inside (p : List UInt8) : (0 : UInt8) ∈ p.take 8 ++ DOT :: p.drop 8 ↔ 0 ∈ p := by
  have dot : (0 : UInt8) ≠ DOT := by decide
  have whole : (0 : UInt8) ∈ p.take 8 ++ p.drop 8 ↔ 0 ∈ p := by rw [List.take_append_drop]
  rw [← whole]
  simp only [List.mem_append, List.mem_cons, dot, false_or]

/-- The dot of a blank stem is stored in front of the buffer, and a name of twelve characters has
no room for its NUL. -/
theorem names_fit_iff {p : List UInt8} (eleven : p.length = 11) :
    NamesFit p ↔ (∃ c ∈ p.take 8, c ≠ SPACE) ∧ (p.getD 7 0 = SPACE ∨ 0 ∈ p) := by
  rcases trimmed_cases p (n := 8) (by omega) with ⟨none, blank⟩ | ⟨k, short, at_k, stem, last⟩
  · have all := List.rdropWhile_eq_nil_iff.mp blank
    constructor
    · intro fits
      have before := fits.inside (-1, DOT) (by simp [to8dot3Stores, storesFrom, none])
      exact absurd before.1 (by decide)
    · rintro ⟨⟨c, inside, other⟩, -⟩
      exact absurd (by simpa [SPACE] using all c inside) other
  · have some_left := take_some eleven k
    have visible : ∃ c ∈ p.take 8, c ≠ SPACE := by
      by_contra none
      have all : ∀ c ∈ p.take 8, (c == 0x20) = true := by
        intro c inside
        by_contra other
        exact none ⟨c, inside, by simpa [SPACE] using other⟩
      rw [List.rdropWhile_eq_nil_iff.mpr all] at stem
      exact some_left stem.symm
    have string : bufferString p = (p.take (k + 1) ++ DOT :: p.drop 8).takeWhile (· != 0) := by
      rw [bufferString_eq eleven, to8dot3, stem]
      simp only [if_neg some_left]
      rfl
    have length : (p.take (k + 1) ++ DOT :: p.drop 8).length = k + 5 := by
      rw [List.length_append, List.length_take, List.length_cons, List.length_drop, eleven]
      omega
    have bound := (List.takeWhile_prefix (l := p.take (k + 1) ++ DOT :: p.drop 8) (· != 0)).length_le
    rw [length] at bound
    have inside : ∀ s ∈ to8dot3Stores p, 0 ≤ s.1 ∧ s.1 < 14 := by
      unfold to8dot3Stores
      rw [at_k]
      exact stores_inside short
    constructor
    · intro fits
      refine ⟨visible, ?_⟩
      by_contra neither
      obtain ⟨full, fresh⟩ := not_or.mp neither
      have seven : k = 7 := by
        by_contra other
        exact full (last.mpr (by omega))
      subst seven
      have absent := mt (zero_inside p).mp fresh
      have find := fits.find
      rw [string, takeWhile_whole.mpr absent, length] at find
      omega
    · rintro ⟨-, room⟩
      have find : (bufferString p).length + 1 ≤ 12 := by
        rw [string]
        rcases room with space | zero
        · have other := last.mp space
          omega
        · by_cases seven : k = 7
          · subst seven
            have there : (0 : UInt8) ∈ p.take (7 + 1) ++ DOT :: p.drop 8 := (zero_inside p).mpr zero
            have less := mt takeWhile_whole.mp (not_not_intro there)
            rw [length] at less
            omega
          · omega
      exact ⟨inside, find, by omega⟩

theorem abc_txt_fits :
    NamesFit [0x41, 0x42, 0x43, 0x20, 0x20, 0x20, 0x20, 0x20, 0x54, 0x58, 0x54] :=
  (names_fit_iff rfl).mpr ⟨⟨0x41, by decide, by decide⟩, Or.inl rfl⟩

/-- Eleven spaces put the dot at -1, and `ABCDEFGHIJK` needs thirteen bytes. -/
theorem names_overflow :
    (-1, DOT) ∈ to8dot3Stores (List.replicate 11 SPACE) ∧
    (bufferString [0x41, 0x42, 0x43, 0x44, 0x45, 0x46, 0x47, 0x48, 0x49, 0x4a, 0x4b]).length = 12 ∧
    ¬ ∀ p : List UInt8, p.length = 11 → NamesFit p := by
  have before : (-1, DOT) ∈ to8dot3Stores (List.replicate 11 SPACE) := by decide
  refine ⟨before, by decide, ?_⟩
  intro always
  have fits := always (List.replicate 11 SPACE) rfl
  exact absurd (fits.inside _ before).1 (by decide)

end Bounds

end EmbeddedOS.Fat32
