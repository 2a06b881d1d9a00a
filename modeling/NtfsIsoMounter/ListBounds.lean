import NtfsIsoMounter.IsoLists

/-!
# What a list of images may hold

`parse_iso_list` is given a file that anything may have happened to. It looks for four separators
behind every tag and copies the fields into items of a fixed size, as many as there are tags.
-/

namespace ListBounds

open CText IsoLists MenuWindow

/-! ## Lines -/

/-- The lines of the loop, which ends where it meets the end of the file. -/
inductive Reads : List UInt8 → List (List UInt8) → Prop where
  | last {text} (ended : hitEof (fgets 2047 text).1 (fgets 2047 text).2 = true) :
    Reads text [(fgets 2047 text).1]
  | more {text lines} (going : hitEof (fgets 2047 text).1 (fgets 2047 text).2 = false)
    (rest : Reads (fgets 2047 text).2 lines) : Reads text ((fgets 2047 text).1 :: lines)

def fileLines (text : List UInt8) : List (List UInt8) := readLines (text.length + 1) text

theorem fgets_append (n : Nat) (text : List UInt8) :
    (fgets n text).1 ++ (fgets n text).2 = text := by
  induction n generalizing text with
  | zero => rfl
  | succ n ih =>
    cases text with
    | nil => rfl
    | cons b text =>
      rw [fgets]
      split
      · rfl
      · rw [List.cons_append, ih]

theorem fgets_length (n : Nat) (text : List UInt8) : (fgets n text).1.length ≤ n := by
  induction n generalizing text with
  | zero => exact le_rfl
  | succ n ih =>
    cases text with
    | nil => exact Nat.zero_le _
    | cons b text =>
      rw [fgets]
      split
      · exact Nat.succ_le_succ (Nat.zero_le n)
      · exact Nat.succ_le_succ (ih text)

/-- A line that does not meet the end of the file takes a byte of it. -/
theorem fgets_shorter {text : List UInt8}
    (going : hitEof (fgets 2047 text).1 (fgets 2047 text).2 = false) :
    (fgets 2047 text).2.length < text.length := by
  have whole := congrArg List.length (fgets_append 2047 text)
  rw [List.length_append] at whole
  have some' : (fgets 2047 text).1 ≠ [] := by
    intro none'
    cases text with
    | nil => exact absurd going (by decide)
    | cons b text =>
      rw [fgets] at none'
      split at none'
      · cases none'
      · cases none'
  have positive := List.length_pos_of_ne_nil some'
  omega

theorem readLines_reads (fuel : Nat) (text : List UInt8) (enough : text.length < fuel) :
    Reads text (readLines fuel text) := by
  induction fuel generalizing text with
  | zero => exact absurd enough (Nat.not_lt_zero _)
  | succ fuel ih =>
    simp only [readLines]
    cases ended : hitEof (fgets 2047 text).1 (fgets 2047 text).2 with
    | true => exact .last ended
    | false =>
      have shorter := fgets_shorter ended
      exact .more ended (ih _ (by omega))

theorem Reads.short {text : List UInt8} {lines : List (List UInt8)} (reads : Reads text lines) :
    ∀ line ∈ lines, line.length ≤ 2047 := by
  induction reads with
  | last ended =>
    intro line hl
    rw [List.mem_singleton.mp hl]
    exact fgets_length _ _
  | more going rest ih =>
    intro line hl
    rcases List.mem_cons.mp hl with rfl | later
    · exact fgets_length _ _
    · exact ih line later

/-! ## Fields -/

/-- What follows the tag, cut at the semicolons. -/
def fieldsOf (pch : List UInt8) : List (List UInt8) := (pch.drop 5).splitOn 59

def nameOf (pch : List UInt8) : List UInt8 := (fieldsOf pch).getD 0 []

def sizeOf (pch : List UInt8) : List UInt8 := (fieldsOf pch).getD 1 []

def pathOf (pch : List UInt8) : List UInt8 := (fieldsOf pch).getD 3 []

/-- What follows the third semicolon. -/
def fromPath (pch : List UInt8) : List UInt8 := [59].intercalate ((fieldsOf pch).drop 3)

/-- The path with the name behind it. -/
def fullOf (pch : List UInt8) : List UInt8 := pathOf pch ++ 47 :: nameOf pch

/-- The fields are all there and fit in an item. Behind a full path of less than seven bytes
the item takes what else stood in the line. -/
structure FieldsFit (pch : List UInt8) : Prop where
  separators : 4 < (fieldsOf pch).length
  label : (nameOf pch).length < 1024
  size : (sizeOf pch).length < 1024
  full : (fullOf pch).length < 1024
  behind : (fullOf pch).length < 7 → ((fromPath pch).drop 7).length < 1024

theorem splitOn_cases (text : List UInt8) : (59 ∉ text ∧ text.splitOn 59 = [text]) ∨
    ∃ field rest, 59 ∉ field ∧ text = field ++ 59 :: rest ∧
      text.splitOn 59 = field :: rest.splitOn 59 := by
  by_cases inside : 59 ∈ text
  · obtain ⟨field, rest, split, plain⟩ := List.eq_append_cons_of_mem inside
    refine Or.inr ⟨field, rest, plain, split, ?_⟩
    rw [split, List.splitOn_append_cons_self, List.splitOn_eq_singleton plain]
    rfl
  · exact Or.inl ⟨inside, List.splitOn_eq_singleton inside⟩

/-- A field is cut where a semicolon follows, and the next one begins behind it. -/
theorem cutField_cases (pch : List UInt8) (pos : Nat) :
    (cutField pch pos = none ∧ (pch.drop pos).splitOn 59 = [pch.drop pos]) ∨
      ∃ field, cutField pch pos = some field ∧
        (pch.drop pos).splitOn 59 = field :: (pch.drop (pos + field.length + 1)).splitOn 59 := by
  rcases splitOn_cases (pch.drop pos) with ⟨none', same⟩ | ⟨field, rest, plain, split, fields⟩
  · refine Or.inl ⟨?_, same⟩
    rw [cutField, if_neg]
    rwa [List.contains_iff_mem]
  · have inside : (field ++ 59 :: rest).contains 59 = true := by simp
    have next : pch.drop (pos + field.length + 1) = rest := by
      rw [Nat.add_assoc, ← List.drop_drop, split, ← List.drop_drop, List.drop_left]
      rfl
    refine Or.inr ⟨field, ?_, by rw [fields, next]⟩
    rw [cutField, split, if_pos inside, takeWhile_field plain]

/-- The first part of the data of an item. -/
def dataOf (pch : List UInt8) : List UInt8 :=
  cString ((fullOf pch ++ 0 :: (fromPath pch).drop ((fullOf pch).length + 1)).drop 7)

/-- A line with a tag gives an item if the four semicolons are there, and else no result. -/
theorem parseLine_tagged {line pch : List UInt8}
    (found : strstr (ascii "<iso>") (cString line) = some pch) :
    ((fieldsOf pch).length ≤ 4 ∧ parseLine line = none) ∨
      (4 < (fieldsOf pch).length ∧ parseLine line =
        some (some ⟨nameOf pch, dataOf pch, sizeOf pch, fullOf pch⟩)) := by
  simp only [parseLine, found, Option.bind_eq_bind, Option.pure_def]
  rcases cutField_cases pch 5 with ⟨cut, fields⟩ | ⟨name, cut, fields⟩
  · refine Or.inl ⟨?_, by rw [cut, Option.bind_none]⟩
    rw [fieldsOf, fields]
    exact Nat.le_add_left 1 3
  rw [cut, Option.bind_some]
  rcases cutField_cases pch (5 + name.length + 1) with ⟨cut, fields₂⟩ | ⟨size, cut, fields₂⟩
  · refine Or.inl ⟨?_, by rw [cut, Option.bind_none]⟩
    rw [fieldsOf, fields, fields₂]
    exact Nat.le_add_left 2 2
  rw [cut, Option.bind_some]
  obtain ⟨pos, hpos⟩ : ∃ pos, pos = 5 + name.length + 1 + size.length + 1 := ⟨_, rfl⟩
  rw [← hpos] at fields₂ ⊢
  rcases cutField_cases pch pos with ⟨cut, fields₃⟩ | ⟨ext, cut, fields₃⟩
  · refine Or.inl ⟨?_, by rw [cut, Option.bind_none]⟩
    rw [fieldsOf, fields, fields₂, fields₃]
    exact Nat.le_add_left 3 1
  rw [cut, Option.bind_some]
  obtain ⟨next, hnext⟩ : ∃ next, next = pos + ext.length + 1 := ⟨_, rfl⟩
  rw [← hnext] at fields₃ ⊢
  have behind : fromPath pch = pch.drop next := by
    rw [fromPath, fieldsOf, fields, fields₂, fields₃]
    exact List.intercalate_splitOn 59
  rcases cutField_cases pch next with ⟨cut, fields₄⟩ | ⟨path, cut, fields₄⟩
  · refine Or.inl ⟨?_, by rw [cut, Option.bind_none]⟩
    rw [fieldsOf, fields, fields₂, fields₃, fields₄]
    exact le_rfl
  · have all : fieldsOf pch = name :: size :: ext :: path ::
        (pch.drop (next + path.length + 1)).splitOn 59 := by
      rw [fieldsOf, fields, fields₂, fields₃, fields₄]
    refine Or.inr ⟨?_, ?_⟩
    · have positive := List.length_pos_of_ne_nil
        (List.splitOn_ne_nil 59 (pch.drop (next + path.length + 1)))
      rw [all]
      simp only [List.length_cons]
      omega
    · rw [cut, Option.bind_some, dataOf, behind, fullOf, nameOf, sizeOf, pathOf, all]
      rfl

/-! ## Items -/

theorem strstr_text {line pch : List UInt8}
    (found : strstr (ascii "<iso>") (cString line) = some pch) :
    0 ∉ pch ∧ pch.length ≤ line.length := by
  have inside := strstr_suffix found
  constructor
  · intro zero
    have text : 0 ∈ line.takeWhile (· != 0) := inside.subset zero
    exact absurd (List.mem_takeWhile_imp text) (by decide)
  · exact inside.length_le.trans (List.takeWhile_prefix _).length_le

/-- What is put together of the fields is shorter than the line. -/
theorem fullOf_length {pch : List UInt8} (separators : 4 < (fieldsOf pch).length) :
    (fullOf pch).length ≤ pch.length := by
  have whole : [59].intercalate (fieldsOf pch) = pch.drop 5 := List.intercalate_splitOn 59
  rw [fullOf, pathOf, nameOf]
  match fieldsOf pch, separators, whole with
  | name :: size :: ext :: path :: last :: more, _, whole =>
    have lengths := congrArg List.length whole
    simp only [List.intercalate_cons_cons, List.length_append, List.length_singleton,
      List.length_drop] at lengths
    simp only [List.getD_cons_zero, List.getD_cons_succ, List.length_append, List.length_cons]
    omega

theorem fromPath_suffix {pch : List UInt8} (separators : 4 < (fieldsOf pch).length) :
    fromPath pch <:+ pch := by
  have whole : [59].intercalate (fieldsOf pch) = pch.drop 5 := List.intercalate_splitOn 59
  rw [fromPath]
  refine List.IsSuffix.trans ?_ (whole ▸ List.drop_suffix 5 pch)
  match fieldsOf pch, separators with
  | name :: size :: ext :: path :: last :: more, _ =>
    refine ⟨name ++ [59] ++ size ++ [59] ++ ext ++ [59], ?_⟩
    simp only [List.intercalate_cons_cons, List.append_assoc]
    rfl

/-- A string ends in front of a zero. -/
theorem cString_length (a rest : List UInt8) : (cString (a ++ 0 :: rest)).length ≤ a.length := by
  rw [cString, List.takeWhile_append, List.takeWhile_cons_of_neg (by decide), List.append_nil]
  split
  · exact le_rfl
  · exact (List.takeWhile_prefix _).length_le

/-- The item of a line with its semicolons can be stored exactly if its fields fit. -/
theorem item_fits_iff {pch : List UInt8} (text : 0 ∉ pch) (separators : 4 < (fieldsOf pch).length) :
    ((nameOf pch).length < 1024 ∧ (dataOf pch).length < 1024 ∧ (sizeOf pch).length < 1024 ∧
      (fullOf pch).length < 1024) ↔ FieldsFit pch := by
  have short : (fullOf pch).length < 1024 →
      ((dataOf pch).length < 1024 ↔
        ((fullOf pch).length < 7 → ((fromPath pch).drop 7).length < 1024)) := by
    intro full
    by_cases long : 7 ≤ (fullOf pch).length
    · refine iff_of_true ?_ fun few => absurd long (by omega)
      have data := cString_length ((fullOf pch).drop 7)
        ((fromPath pch).drop ((fullOf pch).length + 1))
      rw [dataOf, List.drop_append_of_le_length long]
      rw [List.length_drop] at data
      omega
    · -- the string at the seventh byte begins behind the terminator
      have left : (fullOf pch ++ 0 :: (fromPath pch).drop ((fullOf pch).length + 1)).drop 7 =
          (fromPath pch).drop 7 := by
        obtain ⟨k, hk⟩ : ∃ k, 7 = (fullOf pch).length + (1 + k) :=
          ⟨6 - (fullOf pch).length, by omega⟩
        have shift : (fullOf pch).length + 1 + k = 7 := by omega
        calc _ = (0 :: (fromPath pch).drop ((fullOf pch).length + 1)).drop (1 + k) := by
              rw [hk, ← List.drop_drop, List.drop_left]
          _ = ((fromPath pch).drop ((fullOf pch).length + 1)).drop k := by
              rw [Nat.add_comm 1 k, List.drop_succ_cons]
          _ = (fromPath pch).drop 7 := by rw [List.drop_drop, shift]
      have plain : 0 ∉ (fromPath pch).drop 7 := fun zero =>
        text ((fromPath_suffix separators).subset (List.mem_of_mem_drop zero))
      rw [dataOf, left, cString_of_plain plain, imp_iff_right (by omega)]
  constructor
  · rintro ⟨label, data, size, full⟩
    exact ⟨separators, label, size, full, (short full).mp data⟩
  · rintro ⟨-, label, size, full, behind⟩
    exact ⟨label, (short full).mpr behind, size, full⟩

/-! ## The list -/

/-- What stands in a line from its tag on. -/
def fromTag (line : List UInt8) : Option (List UInt8) := strstr (ascii "<iso>") (cString line)

def tagged (lines : List (List UInt8)) : List (List UInt8) := lines.filterMap fromTag

/-- The lines give a menu exactly if the fields behind every tag fit and there is a slot for
each. -/
theorem parseLines_isSome_iff (lines : List (List UInt8)) (m : Menu) :
    (∃ m', parseLines lines m = some m') ↔
      ∀ i pch, (tagged lines)[i]? = some pch → FieldsFit pch ∧ m.item.length + i < 2048 := by
  induction lines generalizing m with
  | nil =>
    refine iff_of_true ⟨m, rfl⟩ fun i pch none' => ?_
    rw [tagged, List.filterMap_nil, List.getElem?_nil] at none'
    cases none'
  | cons line lines ih =>
    rw [parseLines, Option.bind_eq_bind]
    cases found : fromTag line with
    | none =>
      have skipped : parseLine line = some none := by
        rw [parseLine, ← fromTag, found]
      have same : tagged (line :: lines) = tagged lines := by
        rw [tagged, List.filterMap_cons_none found, tagged]
      rw [skipped, same, Option.bind_some]
      exact ih m
    | some pch =>
      have more : tagged (line :: lines) = pch :: tagged lines := by
        rw [tagged, List.filterMap_cons_some found, tagged]
      rw [more]
      rcases parseLine_tagged found with ⟨few, refused⟩ | ⟨separators, parsed⟩
      · rw [refused]
        refine iff_of_false ?_ fun all => ?_
        · rintro ⟨m', none'⟩
          cases none'
        · exact absurd (all 0 pch rfl).1.separators (by omega)
      · have fits := item_fits_iff (strstr_text found).1 separators
        rw [parsed, Option.bind_some]
        by_cases stored : m.item.length < 2048 ∧ FieldsFit pch
        · have added : m.addItemEx ⟨nameOf pch, dataOf pch, sizeOf pch, fullOf pch⟩ =
              some { m with item := m.item ++
                [⟨nameOf pch, dataOf pch, sizeOf pch, fullOf pch⟩] } := by
            rw [Menu.addItemEx, if_pos ⟨stored.1, fits.mpr stored.2⟩]
          simp only [added, Option.bind_eq_bind, Option.bind_some]
          rw [ih]
          simp only [List.length_append, List.length_singleton]
          constructor
          · intro later i pch' at'
            cases i with
            | zero =>
              rw [← Option.some.inj at']
              exact ⟨stored.2, stored.1⟩
            | succ i =>
              obtain ⟨fit, slot⟩ := later i pch' at'
              exact ⟨fit, by omega⟩
          · intro all i pch' at'
            obtain ⟨fit, slot⟩ := all (i + 1) pch' at'
            exact ⟨fit, by omega⟩
        · have refused : m.addItemEx ⟨nameOf pch, dataOf pch, sizeOf pch, fullOf pch⟩ = none := by
            rw [Menu.addItemEx, if_neg]
            rintro ⟨slot, lengths⟩
            exact stored ⟨slot, fits.mp lengths⟩
          simp only [refused, Option.bind_eq_bind, Option.bind_none]
          refine iff_of_false ?_ fun all => ?_
          · rintro ⟨m', none'⟩
            cases none'
          · obtain ⟨fit, slot⟩ := all 0 pch rfl
            exact stored ⟨slot, fit⟩

/-- Reading a list ends at the end of the file, with lines and paths that the buffers hold. It
leaves no buffer, item or slot exactly if the fields behind every tag fit in an item and
there is a slot for each. -/
theorem parseIsoList_inside_iff (text : List UInt8) (m : Menu) :
    Reads text (fileLines text) ∧
      (∀ line ∈ fileLines text, line.length ≤ 2047 ∧ ∀ item,
        parseLine line = some (some item) → item.szData3.length ≤ 2047) ∧
      ((∃ m', parseIsoList text m = some m') ↔
        ∀ i pch, (tagged (fileLines text))[i]? = some pch →
          FieldsFit pch ∧ m.item.length + i < 2048) := by
  have reads := readLines_reads (text.length + 1) text (Nat.lt_succ_self _)
  refine ⟨reads, ?_, parseLines_isSome_iff _ m⟩
  intro line hl
  have short := reads.short line hl
  refine ⟨short, fun item parsed => ?_⟩
  cases found : fromTag line with
  | none =>
    rw [parseLine, ← fromTag, found] at parsed
    cases parsed
  | some pch =>
    rcases parseLine_tagged found with ⟨-, refused⟩ | ⟨separators, made⟩
    · rw [refused] at parsed
      cases parsed
    · rw [made] at parsed
      rw [← Option.some.inj (Option.some.inj parsed)]
      exact (fullOf_length separators).trans ((strstr_text found).2.trans short)

/-- A line that an interrupted scan has left behind. -/
theorem cutLine_outside : ¬ ∃ m', parseIsoList (ascii "<iso>GAME.iso;12") (cMenu mainListMax) =
    some m' := by
  have none' : parseIsoList (ascii "<iso>GAME.iso;12") (cMenu mainListMax) = none := by
    decide +kernel
  rintro ⟨m', some'⟩
  rw [none'] at some'
  cases some'

end ListBounds
