import NtfsIsoMounter.CText
import NtfsIsoMounter.MenuWindow

/-!
# The list of images

One program writes a line for every image it finds in four directories, another
reads the lines into the menu. The fields of a line are separated by semicolons
and nothing is escaped.
-/

namespace IsoLists

open CText MenuWindow

/-! ## Writing -/

inductive IsoDir where
  | ps3iso
  | psxiso
  | bdiso
  | dvdiso
deriving DecidableEq

/-- The name of the directory. -/
def IsoDir.text : IsoDir → List UInt8
  | ps3iso => ascii "PS3ISO"
  | psxiso => ascii "PSXISO"
  | bdiso => ascii "BDISO"
  | dvdiso => ascii "DVDISO"

/-- What `ps3ntfs_dirnext` stores, and the bytes in front of `filename` then. -/
structure DirEntry where
  filename : List UInt8
  regular : Bool
  stSize : Nat
  inFront : List UInt8

/-- `/ntfsN:/<directory>` -/
def dirPath (n : Fin 8) (d : IsoDir) : List UInt8 :=
  ascii "/ntfs" ++ UInt8.ofNat (48 + n) :: (ascii ":/" ++ d.text)

/-- The text from the first occurrence of a key on. -/
def strstr (key : List UInt8) : List UInt8 → Option (List UInt8)
  | [] => if key = [] then some [] else none
  | b :: text => if key.isPrefixOf (b :: text) then some (b :: text) else strstr key text

/-- `filename + (nLen - 4)`, which starts in front of a name that is too short. -/
def lastFour (e : DirEntry) : List UInt8 :=
  (e.inFront ++ e.filename).drop (e.inFront.length + e.filename.length - 4)

/-- The line `fprintf` writes. -/
def isoLine (path : List UInt8) (e : DirEntry) : List UInt8 :=
  ascii "<iso>" ++ e.filename ++ ascii ";" ++ padded 0 e.stSize ++ ascii ";" ++ lastFour e ++
    ascii ";" ++ path ++ ascii ";</iso>\n"

def entryLines (path : List UInt8) (e : DirEntry) : List UInt8 :=
  if e.filename = ascii "." ∨ e.filename = ascii ".." then []
  else if !e.regular then []
  else
    (if (strstr (ascii "PS3ISO") path).isSome ∨ (strstr (ascii "DVDISO") path).isSome ∨
        (strstr (ascii "BDISO") path).isSome then
      if lastFour e = ascii ".iso" ∨ lastFour e = ascii ".ISO" then isoLine path e else []
    else []) ++
    if (strstr (ascii "PSXISO") path).isSome then
      if lastFour e = ascii ".bin" ∨ lastFour e = ascii ".BIN" then isoLine path e else []
    else []

def generateList (path : List UInt8) (entries : List DirEntry) : List UInt8 :=
  entries.flatMap (entryLines path)

/-- The directories in the order `main` lists them. -/
def isoDirs : List IsoDir := [.ps3iso, .psxiso, .bdiso, .dvdiso]

/-- The content of `iso_list.txt`. -/
def isoList (n : Fin 8) (listing : IsoDir → List DirEntry) : List UInt8 :=
  isoDirs.flatMap (fun d => generateList (dirPath n d) (listing d))

/-! ## Reading -/

/-- `fgets` of at most `n` bytes: the line and what follows it. -/
def fgets : Nat → List UInt8 → List UInt8 × List UInt8
  | 0, text => ([], text)
  | _ + 1, [] => ([], [])
  | n + 1, b :: text => if b = 10 then ([b], text) else ((b :: (fgets n text).1), (fgets n text).2)

/-- The end of the file was met reading the line. -/
def hitEof (line rest : List UInt8) : Bool :=
  rest.isEmpty && line.getLast? != some 10 && decide (line.length < 2047)

/-- The lines the loop reads; every line but the last takes at least a byte. -/
def readLines : Nat → List UInt8 → List (List UInt8)
  | 0, _ => []
  | fuel + 1, text =>
    let (line, rest) := fgets 2047 text
    line :: if hitEof line rest then [] else readLines fuel rest

/-- `strncpy(field, pch + pos, 2048)` and the cut at the semicolon; without one a
null pointer is written to. -/
def cutField (pch : List UInt8) (pos : Nat) : Option (List UInt8) :=
  let field := pch.drop pos
  if field.contains 59 then some (field.takeWhile (· != 59)) else none

/-- The item of a line, if any; `none` where a field has no semicolon. -/
def parseLine (line : List UInt8) : Option (Option MenuItem) :=
  match strstr (ascii "<iso>") (cString line) with
  | none => some none
  | some pch => do
    let name ← cutField pch 5
    let pos := 5 + name.length + 1
    let size ← cutField pch pos
    let pos := pos + size.length + 1
    let ext ← cutField pch pos
    let pos := pos + ext.length + 1
    let path ← cutField pch pos
    let full := path ++ 47 :: name
    -- behind the terminator stands what `strncpy` copied there
    let pszPath := full ++ 0 :: (pch.drop pos).drop (full.length + 1)
    pure (some ⟨name, cString (pszPath.drop 7), size, full⟩)

def parseLines : List (List UInt8) → Menu → Option Menu
  | [], m => some m
  | line :: rest, m => do
    let item ← parseLine line
    let m ← match item with
      | none => some m
      | some item => m.addItemEx item
    parseLines rest m

def parseIsoList (text : List UInt8) (m : Menu) : Option Menu :=
  parseLines (readLines (text.length + 1) text) m

/-! ## Mounting -/

inductive EmuMode where
  | ps3
  | psx
  | bd
  | dvd
deriving DecidableEq

/-- The part of `input` that picks the mode, a later match overriding. -/
def nType (szData1 : List UInt8) : Option EmuMode :=
  let n := none
  let n := if (strstr (ascii "PS3ISO") szData1).isSome then some EmuMode.ps3 else n
  let n := if (strstr (ascii "PSXISO") szData1).isSome then some EmuMode.psx else n
  let n := if (strstr (ascii "DVDISO") szData1).isSome then some EmuMode.dvd else n
  if (strstr (ascii "BDISO") szData1).isSome then some EmuMode.bd else n

/-- The arguments of `mount_ntfs_iso` when CROSS is pressed on an item. -/
def pressCross (item : MenuItem) : Option (List UInt8 × EmuMode) :=
  (nType item.szData1).map (fun mode => (item.szData1, mode))

/-- The mode that belongs to a directory. -/
def IsoDir.mode : IsoDir → EmuMode
  | ps3iso => .ps3
  | psxiso => .psx
  | bdiso => .bd
  | dvdiso => .dvd

/-! ## What should be in the menu -/

/-- The extensions of images in a directory. -/
def IsoDir.extensions : IsoDir → List (List UInt8)
  | psxiso => [ascii ".bin", ascii ".BIN"]
  | _ => [ascii ".iso", ascii ".ISO"]

/-- A regular file of at least four characters that ends in an extension. -/
def IsImage (d : IsoDir) (e : DirEntry) : Prop :=
  e.regular = true ∧ 4 ≤ e.filename.length ∧ e.filename.drop (e.filename.length - 4) ∈ d.extensions

instance (d : IsoDir) (e : DirEntry) : Decidable (IsImage d e) :=
  inferInstanceAs (Decidable (_ ∧ _ ∧ _))

def isoItem (n : Fin 8) (d : IsoDir) (e : DirEntry) : MenuItem :=
  ⟨e.filename, 47 :: (d.text ++ 47 :: e.filename), padded 0 e.stSize,
    dirPath n d ++ 47 :: e.filename⟩

def isoItems (n : Fin 8) (listing : IsoDir → List DirEntry) : List MenuItem :=
  isoDirs.flatMap (fun d => ((listing d).filter (fun e => IsImage d e)).map (isoItem n d))

/-- The name can stand in a line. -/
def Plain (name : List UInt8) : Prop := 59 ∉ name ∧ 10 ∉ name

/-- A short name that the bytes in front of it complete to an extension. -/
def Completed (d : IsoDir) (e : DirEntry) : Prop :=
  e.regular = true ∧ e.filename.length < 4 ∧ lastFour e ∈ d.extensions

instance : DecidablePred Plain := fun _ => inferInstanceAs (Decidable (_ ∧ _))

instance (d : IsoDir) (e : DirEntry) : Decidable (Completed d e) :=
  inferInstanceAs (Decidable (_ ∧ _ ∧ _))

/-- What a directory can present: a name of up to 255 characters of at most three
bytes, none of them a terminator or a slash, a 64-bit size. -/
structure Readable (e : DirEntry) : Prop where
  name : e.filename ≠ [] ∧ e.filename.length ≤ 765
  plain : 0 ∉ e.filename ∧ 47 ∉ e.filename
  size : e.stSize < 2 ^ 64
  room : 4 ≤ e.inFront.length

/-! ## Lines -/

theorem fgets_line {n : Nat} {body : List UInt8} (one : 10 ∉ body) (short : body.length < n)
    (rest : List UInt8) : fgets n (body ++ 10 :: rest) = (body ++ [10], rest) := by
  induction body generalizing n with
  | nil =>
    obtain ⟨k, rfl⟩ := Nat.exists_eq_succ_of_ne_zero (Nat.ne_of_gt short)
    rfl
  | cons b body ih =>
    obtain ⟨k, rfl⟩ := Nat.exists_eq_succ_of_ne_zero (Nat.ne_zero_of_lt short)
    rw [List.mem_cons, not_or] at one
    rw [List.cons_append, fgets, if_neg fun h => one.1 h.symm,
      ih one.2 (Nat.lt_of_succ_lt_succ short)]
    rfl

/-- A newline can only stand at the end of a line. -/
theorem fgets_newline (n : Nat) (text : List UInt8) {front behind : List UInt8}
    (split : (fgets n text).1 = front ++ 10 :: behind) : behind = [] := by
  induction n generalizing text front with
  | zero =>
    rw [fgets] at split
    exact absurd split.symm (List.append_ne_nil_of_right_ne_nil _ (List.cons_ne_nil _ _))
  | succ n ih =>
    cases text with
    | nil =>
      rw [fgets] at split
      exact absurd split.symm (List.append_ne_nil_of_right_ne_nil _ (List.cons_ne_nil _ _))
    | cons b text =>
      rw [fgets] at split
      by_cases last : b = 10
      · rw [if_pos last] at split
        cases front with
        | nil => exact (List.cons.inj split).2.symm
        | cons c front =>
          exact absurd (List.cons.inj split).2.symm
            (List.append_ne_nil_of_right_ne_nil _ (List.cons_ne_nil _ _))
      · rw [if_neg last] at split
        cases front with
        | nil => exact absurd (List.cons.inj split).1 last
        | cons c front => exact ih text (List.cons.inj split).2

/-- A line that `fgets` reads in one piece. -/
def Line (line : List UInt8) : Prop :=
  ∃ body, line = body ++ [10] ∧ 10 ∉ body ∧ line.length ≤ 2047

theorem readLines_lines {lines : List (List UInt8)} (whole : ∀ line ∈ lines, Line line)
    {fuel : Nat} (enough : lines.length < fuel) :
    readLines fuel lines.flatten = lines ++ [[]] := by
  induction lines generalizing fuel with
  | nil =>
    obtain ⟨k, rfl⟩ := Nat.exists_eq_succ_of_ne_zero (Nat.ne_zero_of_lt enough)
    rfl
  | cons line lines ih =>
    obtain ⟨k, rfl⟩ := Nat.exists_eq_succ_of_ne_zero (Nat.ne_zero_of_lt enough)
    obtain ⟨body, rfl, one, short⟩ := whole line List.mem_cons_self
    have read := fgets_line one (n := 2047) (by
      rw [List.length_append, List.length_singleton] at short
      omega) lines.flatten
    have more : hitEof (body ++ [10]) lines.flatten = false := by
      simp [hitEof]
    rw [List.flatten_cons, List.append_assoc, List.singleton_append, readLines, read]
    simp only [more, Bool.false_eq_true, if_false]
    rw [ih (fun l hl => whole l (List.mem_cons_of_mem _ hl)) (Nat.lt_of_succ_lt_succ enough),
      List.cons_append]

/-- Every line takes a byte. -/
theorem length_le_flatten {lines : List (List UInt8)} (whole : ∀ line ∈ lines, Line line) :
    lines.length ≤ lines.flatten.length := by
  rw [List.length_flatten]
  have positive : ∀ k ∈ lines.map List.length, 1 ≤ k := by
    intro k hk
    obtain ⟨line, hl, rfl⟩ := List.mem_map.mp hk
    obtain ⟨body, rfl, -, -⟩ := whole line hl
    rw [List.length_append]
    exact Nat.le_add_left _ _
  exact (List.length_map _).symm.trans_le (List.length_le_sum_of_one_le _ positive)

theorem readLines_newline {fuel : Nat} {text line : List UInt8}
    (read : line ∈ readLines fuel text) {front behind : List UInt8}
    (split : line = front ++ 10 :: behind) : behind = [] := by
  induction fuel generalizing text with
  | zero => cases read
  | succ fuel ih =>
    rw [readLines] at read
    rcases List.mem_cons.mp read with rfl | later
    · exact fgets_newline 2047 text split
    · split at later
      · cases later
      · exact ih later

/-! ## Fields -/

theorem strstr_isSome_iff {key text : List UInt8} :
    (strstr key text).isSome = true ↔ key <:+: text := by
  induction text with
  | nil =>
    rw [strstr, List.infix_nil]
    split <;> simp_all
  | cons b text ih =>
    rw [strstr, List.infix_cons_iff]
    split
    · rename_i starts
      exact ⟨fun _ => Or.inl (List.isPrefixOf_iff_prefix.mp starts), fun _ => rfl⟩
    · rename_i other
      rw [ih]
      constructor
      · exact Or.inr
      · rintro (starts | later)
        · exact absurd (List.isPrefixOf_iff_prefix.mpr starts) other
        · exact later

theorem strstr_suffix {key text pch : List UInt8} (found : strstr key text = some pch) :
    pch <:+ text := by
  induction text with
  | nil =>
    rw [strstr] at found
    split at found
    · rw [← Option.some.inj found]
    · cases found
  | cons b text ih =>
    rw [strstr] at found
    split at found
    · rw [← Option.some.inj found]
    · exact (ih found).trans (List.suffix_cons b text)

theorem takeWhile_field {field rest : List UInt8} (plain : 59 ∉ field) :
    (field ++ 59 :: rest).takeWhile (· != 59) = field := by
  rw [List.takeWhile_append_of_pos]
  · simp
  · intro b hb
    rw [bne_iff_ne]
    rintro rfl
    exact plain hb

theorem cutField_eq {front field rest : List UInt8} (plain : 59 ∉ field) :
    cutField (front ++ (field ++ 59 :: rest)) front.length = some field := by
  have inside : (field ++ 59 :: rest).contains 59 = true := by simp
  simp only [cutField, List.drop_left, inside, if_true, takeWhile_field plain]

/-- A field ends in front of its semicolon. -/
theorem cutField_some {pch field : List UInt8} {pos : Nat} (cut : cutField pch pos = some field) :
    59 ∉ field ∧ ∃ rest, pch.drop pos = field ++ 59 :: rest := by
  rw [cutField] at cut
  split at cut
  · rename_i inside
    have field_eq := Option.some.inj cut
    constructor
    · rw [← field_eq]
      intro member
      exact absurd (List.mem_takeWhile_imp member) (by decide)
    · obtain ⟨front, rest, split, before⟩ :=
        List.eq_append_cons_of_mem (List.contains_iff_mem.mp inside)
      refine ⟨rest, ?_⟩
      rw [← field_eq, split, takeWhile_field before]
  · cases cut

/-! ## Reading a written line -/

section Written
variable {n : Fin 8} {d : IsoDir} {e : DirEntry}

/-- The lines of a directory: one for each regular file whose last four
characters are an extension. -/
def Written (d : IsoDir) (e : DirEntry) : Prop := e.regular = true ∧ lastFour e ∈ d.extensions

instance (d : IsoDir) (e : DirEntry) : Decidable (Written d e) :=
  inferInstanceAs (Decidable (_ ∧ _))

/-- An extension does not end in a dot. -/
theorem lastFour_dots (written : lastFour e ∈ d.extensions) (dots : e.filename = ascii "." ∨
    e.filename = ascii "..") : False := by
  have last : ∀ x ∈ d.extensions, x.getLast? ≠ some 46 := by
    cases d <;> decide
  have ends : e.filename.getLast? = some 46 := by
    rcases dots with h | h <;> rw [h] <;> rfl
  apply last _ written
  rw [lastFour, List.getLast?_drop, List.getLast?_append, ends]
  have long : e.filename.length ≠ 0 := by
    rcases dots with h | h <;> rw [h] <;> decide
  have inside : ¬ (e.inFront ++ e.filename).length ≤ e.inFront.length + e.filename.length - 4 := by
    rw [List.length_append]
    omega
  rw [if_neg inside]
  rfl

theorem strstr_dirPath (n : Fin 8) (d : IsoDir) :
    (((strstr (ascii "PS3ISO") (dirPath n d)).isSome ∨
      (strstr (ascii "DVDISO") (dirPath n d)).isSome ∨
      (strstr (ascii "BDISO") (dirPath n d)).isSome) ↔ d ≠ .psxiso) ∧
    ((strstr (ascii "PSXISO") (dirPath n d)).isSome ↔ d = .psxiso) := by
  revert n
  cases d <;> decide +kernel

theorem entryLines_eq (n : Fin 8) (d : IsoDir) (e : DirEntry) :
    entryLines (dirPath n d) e = if Written d e then isoLine (dirPath n d) e else [] := by
  by_cases dots : e.filename = ascii "." ∨ e.filename = ascii ".."
  · rw [entryLines, if_pos dots, if_neg fun written => lastFour_dots written.2 dots]
  · obtain ⟨iso, bin⟩ := strstr_dirPath n d
    rw [entryLines, if_neg dots]
    simp only [iso, bin]
    cases hr : e.regular with
    | false => simp [Written, hr]
    | true => cases d <;> simp [Written, hr, IsoDir.extensions]

theorem generateList_eq (n : Fin 8) (d : IsoDir) (entries : List DirEntry) :
    generateList (dirPath n d) entries =
      ((entries.filter (fun e => Written d e)).map (isoLine (dirPath n d))).flatten := by
  induction entries with
  | nil => rfl
  | cons e entries ih =>
    rw [generateList, List.flatMap_cons, entryLines_eq, ← generateList, ih]
    by_cases written : Written d e
    · simp only [List.filter_cons, written, decide_true, if_true, List.map_cons,
        List.flatten_cons]
    · simp only [List.filter_cons, written, decide_false, if_false, Bool.false_eq_true,
        List.nil_append]

/-- Digits are neither terminators nor semicolons nor newlines. -/
theorem padded_plain (w k : Nat) : ∀ b ∈ padded w k, b ≠ 0 ∧ b ≠ 59 ∧ b ≠ 10 := by
  intro b hb
  obtain ⟨digit, inside, rfl⟩ := List.mem_map.mp hb
  have small := padded_digits_lt w k digit inside
  have all : ∀ d, d < 10 → UInt8.ofNat (48 + d) ≠ 0 ∧ UInt8.ofNat (48 + d) ≠ 59 ∧
      UInt8.ofNat (48 + d) ≠ 10 := by decide
  exact all digit small

theorem text_plain (d : IsoDir) :
    (∀ b ∈ d.text, b ≠ 0 ∧ b ≠ 59 ∧ b ≠ 10) ∧ 5 ≤ d.text.length ∧ d.text.length ≤ 6 := by
  cases d <;> decide +kernel

theorem dirPath_plain (n : Fin 8) (d : IsoDir) :
    (∀ b ∈ dirPath n d, b ≠ 0 ∧ b ≠ 59 ∧ b ≠ 10) ∧ (dirPath n d).length ≤ 14 := by
  have front : ∀ b ∈ ascii "/ntfs", b ≠ 0 ∧ b ≠ 59 ∧ b ≠ 10 := by decide +kernel
  have number : ∀ n : Fin 8, UInt8.ofNat (48 + n) ≠ 0 ∧ UInt8.ofNat (48 + n) ≠ 59 ∧
      UInt8.ofNat (48 + n) ≠ 10 := by decide
  have colon : ∀ b ∈ ascii ":/", b ≠ 0 ∧ b ≠ 59 ∧ b ≠ 10 := by decide +kernel
  constructor
  · intro b inside
    rw [dirPath, List.mem_append, List.mem_cons, List.mem_append] at inside
    rcases inside with h | rfl | h | h
    · exact front b h
    · exact number n
    · exact colon b h
    · exact (text_plain d).1 b h
  · have five : (ascii "/ntfs").length = 5 := rfl
    have two : (ascii ":/").length = 2 := rfl
    have six := (text_plain d).2.2
    rw [dirPath, List.length_append, List.length_cons, List.length_append]
    omega

theorem extensions_plain (d : IsoDir) : ∀ x ∈ d.extensions,
    (∀ b ∈ x, b ≠ 0 ∧ b ≠ 59 ∧ b ≠ 10) ∧ x.length = 4 := by
  cases d <;> decide +kernel

/-- What `parseLine` makes of a line whose fields have no semicolon. -/
theorem parseLine_fields {name size ext path : List UInt8}
    (plain : ∀ b ∈ name ++ size ++ ext ++ path, b ≠ 0 ∧ b ≠ 59) (long : 7 ≤ path.length) :
    parseLine (ascii "<iso>" ++ name ++ ascii ";" ++ size ++ ascii ";" ++ ext ++ ascii ";" ++
        path ++ ascii ";</iso>\n") =
      some (some ⟨name, (path ++ 47 :: name).drop 7, size, path ++ 47 :: name⟩) := by
  simp only [List.mem_append, or_assoc] at plain
  have hname : 59 ∉ name := fun h => (plain 59 (Or.inl h)).2 rfl
  have hsize : 59 ∉ size := fun h => (plain 59 (Or.inr (Or.inl h))).2 rfl
  have hext : 59 ∉ ext := fun h => (plain 59 (Or.inr (Or.inr (Or.inl h)))).2 rfl
  have hpath : 59 ∉ path := fun h => (plain 59 (Or.inr (Or.inr (Or.inr h)))).2 rfl
  have five : (ascii "<iso>").length = 5 := rfl
  have one : (ascii ";").length = 1 := rfl
  generalize hline : ascii "<iso>" ++ name ++ ascii ";" ++ size ++ ascii ";" ++ ext ++
    ascii ";" ++ path ++ ascii ";</iso>\n" = line
  have text : cString line = line := by
    apply cString_of_plain
    rw [← hline]
    simp only [List.mem_append, not_or]
    have tag : 0 ∉ ascii "<iso>" ∧ 0 ∉ ascii ";" ∧ 0 ∉ ascii ";</iso>\n" := by decide
    refine ⟨⟨⟨⟨⟨⟨⟨⟨tag.1, ?_⟩, tag.2.1⟩, ?_⟩, tag.2.1⟩, ?_⟩, tag.2.1⟩, ?_⟩, tag.2.2⟩
    · exact fun h => (plain 0 (Or.inl h)).1 rfl
    · exact fun h => (plain 0 (Or.inr (Or.inl h))).1 rfl
    · exact fun h => (plain 0 (Or.inr (Or.inr (Or.inl h)))).1 rfl
    · exact fun h => (plain 0 (Or.inr (Or.inr (Or.inr h)))).1 rfl
  have start : strstr (ascii "<iso>") line = some line := by
    rw [← hline]
    rfl
  -- each field behind what stands in front of it
  have nameCut : cutField line 5 = some name := by
    have split : line = ascii "<iso>" ++ (name ++ 59 :: (size ++ ascii ";" ++ ext ++ ascii ";" ++
        path ++ ascii ";</iso>\n")) := by
      rw [← hline]
      simp only [List.append_assoc]
      rfl
    rw [split, ← five]
    exact cutField_eq hname
  have sizeCut : cutField line (5 + name.length + 1) = some size := by
    have split : line = ascii "<iso>" ++ name ++ ascii ";" ++ (size ++ 59 :: (ext ++ ascii ";" ++
        path ++ ascii ";</iso>\n")) := by
      rw [← hline]
      simp only [List.append_assoc]
      rfl
    have pos : 5 + name.length + 1 = (ascii "<iso>" ++ name ++ ascii ";").length := by
      simp only [List.length_append, five, one]
    rw [split, pos]
    exact cutField_eq hsize
  have extCut : cutField line (5 + name.length + 1 + size.length + 1) = some ext := by
    have split : line = ascii "<iso>" ++ name ++ ascii ";" ++ size ++ ascii ";" ++ (ext ++
        59 :: (path ++ ascii ";</iso>\n")) := by
      rw [← hline]
      simp only [List.append_assoc]
      rfl
    have pos : 5 + name.length + 1 + size.length + 1 =
        (ascii "<iso>" ++ name ++ ascii ";" ++ size ++ ascii ";").length := by
      simp only [List.length_append, five, one]
    rw [split, pos]
    exact cutField_eq hext
  have pathCut : cutField line (5 + name.length + 1 + size.length + 1 + ext.length + 1) =
      some path := by
    have split : line = ascii "<iso>" ++ name ++ ascii ";" ++ size ++ ascii ";" ++ ext ++
        ascii ";" ++ (path ++ 59 :: ascii "</iso>\n") := by
      rw [← hline]
      simp only [List.append_assoc]
      rfl
    have pos : 5 + name.length + 1 + size.length + 1 + ext.length + 1 =
        (ascii "<iso>" ++ name ++ ascii ";" ++ size ++ ascii ";" ++ ext ++ ascii ";").length := by
      simp only [List.length_append, five, one]
    rw [split, pos]
    exact cutField_eq hpath
  have data : ∀ tail, cString ((path ++ 47 :: name ++ 0 :: tail).drop 7) =
      (path ++ 47 :: name).drop 7 := by
    intro tail
    rw [List.drop_append_of_le_length (by
      rw [List.length_append]
      omega), cString, List.takeWhile_append_of_pos]
    · simp
    · intro b hb
      have inside := List.mem_of_mem_drop hb
      rw [List.mem_append, List.mem_cons] at inside
      rw [bne_iff_ne]
      rintro rfl
      rcases inside with h | h | h
      · exact (plain 0 (Or.inr (Or.inr (Or.inr h)))).1 rfl
      · exact absurd h (by decide)
      · exact (plain 0 (Or.inl h)).1 rfl
  simp only [parseLine, text, start, nameCut, sizeCut, extCut, pathCut, data, Option.bind_eq_bind,
    Option.bind_some, Option.pure_def]

theorem dirPath_drop (n : Fin 8) (d : IsoDir) (name : List UInt8) :
    (dirPath n d ++ 47 :: name).drop 7 = 47 :: (d.text ++ 47 :: name) := by
  have split : dirPath n d = ascii "/ntfs" ++ [UInt8.ofNat (48 + n)] ++ [58] ++ (47 :: d.text) := by
    cases d <;> rfl
  have seven : (ascii "/ntfs" ++ [UInt8.ofNat (48 + n)] ++ [58]).length = 7 := rfl
  rw [split, List.append_assoc, List.drop_left' seven]
  rfl

/-- The line of a file with a plain name is read back as the item of the file. -/
theorem parseLine_isoLine (readable : Readable e) (written : Written d e)
    (plain : Plain e.filename) :
    parseLine (isoLine (dirPath n d) e) = some (some (isoItem n d e)) := by
  have hext := (extensions_plain d _ written.2).1
  have hpath := (dirPath_plain n d).1
  have hsize := padded_plain 0 e.stSize
  rw [isoLine, parseLine_fields, isoItem, dirPath_drop]
  · intro b hb
    simp only [List.mem_append, or_assoc] at hb
    rcases hb with h | h | h | h
    · constructor
      · rintro rfl
        exact readable.plain.1 h
      · rintro rfl
        exact plain.1 h
    · exact ⟨(hsize b h).1, (hsize b h).2.1⟩
    · exact ⟨(hext b h).1, (hext b h).2.1⟩
    · exact ⟨(hpath b h).1, (hpath b h).2.1⟩
  · have long : 7 ≤ (ascii "/ntfs").length + 2 := by decide
    rw [dirPath, List.length_append, List.length_cons, List.length_append]
    have two : (ascii ":/").length = 2 := rfl
    omega

theorem digits_length {k : Nat} (small : k < 2 ^ 64) : (padded 0 k).length ≤ 20 := by
  rw [padded, List.length_map, Nat.zero_sub, List.replicate_zero, List.nil_append, digits]
  split
  · decide
  · rename_i positive
    rw [List.length_reverse, Nat.length_digits 10 k (by decide) positive]
    have power : k < 10 ^ 20 := lt_trans small (by decide)
    have := Nat.log_lt_of_lt_pow positive power
    omega

/-- A name of 765 bytes leaves room in the buffer of the reader. -/
theorem isoLine_length (readable : Readable e) (written : Written d e) :
    (isoLine (dirPath n d) e).length ≤ 819 := by
  have hext := extensions_plain d _ written.2
  have hpath := (dirPath_plain n d).2
  have digits := digits_length readable.size
  have short := readable.name.2
  have lengths : (ascii "<iso>").length = 5 ∧ (ascii ";").length = 1 ∧
      (ascii ";</iso>\n").length = 8 := ⟨rfl, rfl, rfl⟩
  simp only [isoLine, List.length_append, lengths, hext.2]
  omega

/-- The line of a file with a plain name is read in one piece. -/
theorem isoLine_line (readable : Readable e) (written : Written d e) (plain : Plain e.filename) :
    Line (isoLine (dirPath n d) e) := by
  have hext := extensions_plain d _ written.2
  have hpath := dirPath_plain n d
  have hsize := padded_plain 0 e.stSize
  refine ⟨ascii "<iso>" ++ e.filename ++ ascii ";" ++ padded 0 e.stSize ++ ascii ";" ++
    lastFour e ++ ascii ";" ++ dirPath n d ++ ascii ";</iso>", ?_, ?_, ?_⟩
  · rw [isoLine]
    simp only [List.append_assoc]
    rfl
  · simp only [List.mem_append, not_or]
    have tag : 10 ∉ ascii "<iso>" ∧ 10 ∉ ascii ";" ∧ 10 ∉ ascii ";</iso>" := by decide
    refine ⟨⟨⟨⟨⟨⟨⟨⟨tag.1, plain.2⟩, tag.2.1⟩, ?_⟩, tag.2.1⟩, ?_⟩, tag.2.1⟩, ?_⟩, tag.2.2⟩
    · exact fun h => (hsize 10 h).2.2 rfl
    · exact fun h => (hext.1 10 h).2.2 rfl
    · exact fun h => (hpath.1 10 h).2.2 rfl
  · exact (isoLine_length readable written).trans (by decide)

end Written

/-! ## The menu -/

theorem parseLines_items {lines : List (List UInt8)} {items : List MenuItem}
    (each : lines.map parseLine = items.map (fun item => some (some item))) (m : Menu) :
    parseLines (lines ++ [[]]) m = m.addItems items := by
  induction lines generalizing items m with
  | nil =>
    cases items with
    | nil => rfl
    | cons item items => cases each
  | cons line lines ih =>
    cases items with
    | nil => cases each
    | cons item items =>
      obtain ⟨head, tail⟩ := List.cons.inj each
      rw [List.cons_append, parseLines, head, Menu.addItems]
      simp only [Option.bind_eq_bind, Option.bind_some]
      congr 1
      funext m'
      exact ih tail m'

theorem addItems_eq {m : Menu} {items : List MenuItem}
    (room : m.item.length + items.length ≤ 2048)
    (fits : ∀ item ∈ items, item.szMenuLabel.length < 1024 ∧ item.szData1.length < 1024 ∧
      item.szData2.length < 1024 ∧ item.szData3.length < 1024) :
    m.addItems items = some { m with item := m.item ++ items } := by
  induction items generalizing m with
  | nil => rw [Menu.addItems, List.append_nil]
  | cons item items ih =>
    rw [List.length_cons] at room
    obtain ⟨h0, h1, h2, h3⟩ := fits item List.mem_cons_self
    rw [Menu.addItems, Menu.addItemEx, if_pos ⟨by omega, h0, h1, h2, h3⟩, Option.bind_some,
      ih (by simp only [List.length_append, List.length_singleton]; omega)
        (fun x hx => fits x (List.mem_cons_of_mem item hx))]
    simp only [List.append_assoc, List.singleton_append]

/-- A field is followed by a semicolon in its line, so it holds no newline; nor
does it hold a terminator. -/
theorem field_plain {fuel pos : Nat} {text line pch field rest : List UInt8}
    (read : line ∈ readLines fuel text) (inside : pch <:+ cString line)
    (split : pch.drop pos = field ++ 59 :: rest) : 10 ∉ field ∧ 0 ∉ field := by
  obtain ⟨before, text_eq⟩ := inside
  have whole : cString line = before ++ pch.take pos ++ (field ++ 59 :: rest) := by
    rw [← split, List.append_assoc, List.take_append_drop, text_eq]
  constructor
  · intro newline
    obtain ⟨front, behind, rfl⟩ := List.append_of_mem newline
    obtain ⟨after, line_eq⟩ := List.takeWhile_prefix (l := line) (· != 0)
    have last : line = (before ++ pch.take pos ++ front) ++
        10 :: (behind ++ 59 :: rest ++ after) := by
      calc line = cString line ++ after := line_eq.symm
        _ = _ := by
          rw [whole]
          simp only [List.append_assoc, List.cons_append]
    have none := readLines_newline read last
    exact absurd none (List.append_ne_nil_of_left_ne_nil
      (List.append_ne_nil_of_right_ne_nil _ (List.cons_ne_nil _ _)) _)
  · intro zero
    have member : 0 ∈ cString line := by
      rw [whole]
      exact List.mem_append_right _ (List.mem_append_left _ zero)
    exact absurd (List.mem_takeWhile_imp member) (by decide)

/-- What is known of every item, whatever the text. -/
structure Parsed (item : MenuItem) : Prop where
  label : Plain item.szMenuLabel
  full : Plain item.szData3
  data : 7 ≤ item.szData3.length → item.szData1 = item.szData3.drop 7

theorem parseLine_parsed {fuel : Nat} {text line : List UInt8} (read : line ∈ readLines fuel text)
    {item : MenuItem} (parsed : parseLine line = some (some item)) : Parsed item := by
  rw [parseLine] at parsed
  split at parsed
  · cases parsed
  · rename_i pch found
    simp only [Option.bind_eq_bind, Option.bind_eq_some_iff, Option.pure_def] at parsed
    obtain ⟨name, cut, size, -, ext, -, path, cut', made⟩ := parsed
    obtain ⟨plain, rest, split⟩ := cutField_some cut
    obtain ⟨plain', rest', split'⟩ := cutField_some cut'
    obtain ⟨one, zero⟩ := field_plain read (strstr_suffix found) split
    obtain ⟨one', zero'⟩ := field_plain read (strstr_suffix found) split'
    rw [← Option.some.inj (Option.some.inj made)]
    refine ⟨⟨plain, one⟩, ⟨?_, ?_⟩, ?_⟩
    · simp only [List.mem_append, List.mem_cons, not_or]
      exact ⟨plain', by decide, plain⟩
    · simp only [List.mem_append, List.mem_cons, not_or]
      exact ⟨one', by decide, one⟩
    · intro long
      simp only
      rw [List.drop_append_of_le_length long, cString, List.takeWhile_append_of_pos]
      · simp
      · intro b hb
        have inside := List.mem_of_mem_drop hb
        rw [List.mem_append, List.mem_cons] at inside
        rw [bne_iff_ne]
        rintro rfl
        rcases inside with h | h | h
        · exact zero' h
        · exact absurd h (by decide)
        · exact zero h

theorem parseLines_parsed {fuel : Nat} {text : List UInt8} {lines : List (List UInt8)}
    (read : ∀ line ∈ lines, line ∈ readLines fuel text) {m m' : Menu}
    (before : ∀ item ∈ m.item, Parsed item) (parsed : parseLines lines m = some m') :
    ∀ item ∈ m'.item, Parsed item := by
  induction lines generalizing m with
  | nil =>
    rw [← Option.some.inj parsed]
    exact before
  | cons line lines ih =>
    rw [parseLines] at parsed
    simp only [Option.bind_eq_bind] at parsed
    obtain ⟨found, line_eq, parsed⟩ := Option.bind_eq_some_iff.mp parsed
    have later : ∀ l ∈ lines, l ∈ readLines fuel text :=
      fun l hl => read l (List.mem_cons_of_mem line hl)
    cases found with
    | none => exact ih later before parsed
    | some item =>
      obtain ⟨mid, added, rest⟩ := Option.bind_eq_some_iff.mp parsed
      refine ih later ?_ rest
      rw [Menu.addItemEx] at added
      split at added
      · rw [← Option.some.inj added]
        intro x hx
        rcases List.mem_append.mp hx with old | new
        · exact before x old
        · rw [List.mem_singleton.mp new]
          exact parseLine_parsed (read line List.mem_cons_self) line_eq
      · cases added

theorem parseIsoList_parsed {text : List UInt8} {m : Menu}
    (read : parseIsoList text (cMenu mainListMax) = some m) : ∀ item ∈ m.item, Parsed item :=
  parseLines_parsed (fun _ hl => hl) (fun _ none => by cases none) read

/-! ## Writing and reading the list -/

section RoundTrip
variable {n : Fin 8} {listing : IsoDir → List DirEntry}

/-- The entries of a directory that get a line. -/
def writtenEntries (listing : IsoDir → List DirEntry) (d : IsoDir) : List DirEntry :=
  (listing d).filter (fun e => Written d e)

def writtenItems (n : Fin 8) (listing : IsoDir → List DirEntry) : List MenuItem :=
  isoDirs.flatMap (fun d => (writtenEntries listing d).map (isoItem n d))

theorem written_iff {d : IsoDir} {e : DirEntry} (long : 4 ≤ e.filename.length) :
    Written d e ↔ IsImage d e := by
  have last : lastFour e = e.filename.drop (e.filename.length - 4) := by
    rw [lastFour, List.drop_append, List.drop_of_length_le (by omega), List.nil_append]
    congr 1
    omega
  rw [Written, IsImage, last]
  exact ⟨fun h => ⟨h.1, long, h.2⟩, fun h => ⟨h.1, h.2.2⟩⟩

/-- A completed name is the end of an extension. -/
theorem plain_of_completed {d : IsoDir} {e : DirEntry} (completed : Completed d e)
    (room : 4 ≤ e.inFront.length) : Plain e.filename := by
  have inside : ∀ b ∈ e.filename, b ∈ lastFour e := by
    intro b hb
    rw [lastFour, List.drop_append_of_le_length (by have := completed.2.1; omega)]
    exact List.mem_append_right _ hb
  have plain := (extensions_plain d _ completed.2.2).1
  exact ⟨fun h => (plain 59 (inside 59 h)).2.1 rfl, fun h => (plain 10 (inside 10 h)).2.2 rfl⟩

theorem item_fits {d : IsoDir} {e : DirEntry} (readable : Readable e) :
    (isoItem n d e).szMenuLabel.length < 1024 ∧ (isoItem n d e).szData1.length < 1024 ∧
      (isoItem n d e).szData2.length < 1024 ∧ (isoItem n d e).szData3.length < 1024 := by
  have path := (dirPath_plain n d).2
  have text : d.text.length ≤ 6 := by cases d <;> decide
  have digits := digits_length readable.size
  have short := readable.name.2
  simp only [isoItem, List.length_append, List.length_cons]
  omega

theorem isoList_eq (n : Fin 8) (listing : IsoDir → List DirEntry) :
    isoList n listing = (isoDirs.flatMap (fun d =>
      (writtenEntries listing d).map (isoLine (dirPath n d)))).flatten := by
  simp only [isoList, generateList_eq, writtenEntries, isoDirs, List.flatMap_cons,
    List.flatMap_nil, List.flatten_append, List.append_nil]

/-- With plain names only, the items of the written lines are loaded. -/
theorem parseIsoList_written (readable : ∀ d, ∀ e ∈ listing d, Readable e)
    (plain : ∀ d, ∀ e ∈ listing d, Written d e → Plain e.filename) (m : Menu) :
    parseIsoList (isoList n listing) m = m.addItems (writtenItems n listing) := by
  have member : ∀ d e, e ∈ writtenEntries listing d → e ∈ listing d ∧ Written d e := by
    intro d e he
    obtain ⟨inside, written⟩ := List.mem_filter.mp he
    exact ⟨inside, of_decide_eq_true written⟩
  have whole : ∀ line ∈ isoDirs.flatMap (fun d =>
      (writtenEntries listing d).map (isoLine (dirPath n d))), Line line := by
    intro line hl
    obtain ⟨d, -, hd⟩ := List.mem_flatMap.mp hl
    obtain ⟨e, he, rfl⟩ := List.mem_map.mp hd
    obtain ⟨inside, written⟩ := member d e he
    exact isoLine_line (readable d e inside) written (plain d e inside written)
  have each : (isoDirs.flatMap (fun d =>
      (writtenEntries listing d).map (isoLine (dirPath n d)))).map parseLine =
      (writtenItems n listing).map (fun item => some (some item)) := by
    rw [writtenItems, List.map_flatMap, List.map_flatMap]
    congr 1
    funext d
    rw [List.map_map, List.map_map]
    apply List.map_congr_left
    intro e he
    obtain ⟨inside, written⟩ := member d e he
    exact parseLine_isoLine (readable d e inside) written (plain d e inside written)
  have enough := Nat.lt_succ_of_le (length_le_flatten whole)
  rw [parseIsoList, isoList_eq, readLines_lines whole enough, parseLines_items each]

theorem writtenItems_fit (readable : ∀ d, ∀ e ∈ listing d, Readable e) :
    ∀ item ∈ writtenItems n listing, item.szMenuLabel.length < 1024 ∧
      item.szData1.length < 1024 ∧ item.szData2.length < 1024 ∧ item.szData3.length < 1024 := by
  intro item hi
  obtain ⟨d, -, hd⟩ := List.mem_flatMap.mp hi
  obtain ⟨e, he, rfl⟩ := List.mem_map.mp hd
  exact item_fits (readable d e (List.mem_filter.mp he).1)

/-- The files that count are the written ones, completed names left out. -/
theorem filter_isImage {d : IsoDir} {l : List DirEntry}
    (none : ∀ e ∈ l, ¬ Completed d e) :
    l.filter (fun e => Written d e) = l.filter (fun e => IsImage d e) := by
  apply List.filter_congr
  intro e he
  apply decide_eq_decide.mpr
  by_cases long : 4 ≤ e.filename.length
  · exact written_iff long
  · constructor
    · intro written
      exact absurd ⟨written.1, by omega, written.2⟩ (none e he)
    · intro image
      exact absurd image.2.1 long

theorem isImage_written {d : IsoDir} {e : DirEntry} (image : IsImage d e) : Written d e :=
  (written_iff image.2.1).mpr image

/-- As many items as files that count: no name was completed. -/
theorem not_completed_of_length (same : writtenItems n listing = isoItems n listing) (d : IsoDir) :
    ∀ e ∈ listing d, ¬ Completed d e := by
  have sub : ∀ d, ((listing d).filter (fun e => IsImage d e)).Sublist (writtenEntries listing d) :=
    fun d => List.monotone_filter_right _ fun e image =>
      decide_eq_true (isImage_written (of_decide_eq_true image))
  have lengths := congrArg List.length same
  simp only [writtenItems, isoItems, isoDirs, List.flatMap_cons, List.flatMap_nil,
    List.length_append, List.length_map, List.length_nil] at lengths
  have h1 := (sub .ps3iso).length_le
  have h2 := (sub .psxiso).length_le
  have h3 := (sub .bdiso).length_le
  have h4 := (sub .dvdiso).length_le
  have equal : ((listing d).filter (fun e => IsImage d e)).length =
      (writtenEntries listing d).length := by
    cases d <;> omega
  have lists := (sub d).eq_of_length equal
  intro e he completed
  have written : e ∈ writtenEntries listing d :=
    List.mem_filter.mpr ⟨he, decide_eq_true ⟨completed.1, completed.2.2⟩⟩
  rw [← lists] at written
  have image : IsImage d e := of_decide_eq_true (List.mem_filter.mp written).2
  have := completed.2.1
  have := image.2.1
  omega

/-- Reading the written list gives one item for each image, in order, exactly where
no name of an image holds a semicolon or a newline and no shorter name is
completed by the bytes in front of it. -/
theorem parseIsoList_roundTrip_iff (readable : ∀ d, ∀ e ∈ listing d, Readable e)
    (few : (isoItems n listing).length < 2048) :
    parseIsoList (isoList n listing) (cMenu mainListMax) =
        some { cMenu mainListMax with item := isoItems n listing } ↔
      ∀ d, ∀ e ∈ listing d, (IsImage d e → Plain e.filename) ∧ ¬ Completed d e := by
  constructor
  · intro read d e he
    have plain : ∀ d, ∀ e ∈ listing d, IsImage d e → Plain e.filename := by
      intro d e he image
      refine (parseIsoList_parsed read (isoItem n d e) ?_).label
      apply List.mem_flatMap.mpr
      refine ⟨d, by cases d <;> decide, ?_⟩
      exact List.mem_map_of_mem (List.mem_filter.mpr ⟨he, decide_eq_true image⟩)
    have plain' : ∀ d, ∀ e ∈ listing d, Written d e → Plain e.filename := by
      intro d e he written
      by_cases long : 4 ≤ e.filename.length
      · exact plain d e he ((written_iff long).mp written)
      · exact plain_of_completed ⟨written.1, by omega, written.2⟩ (readable d e he).room
    rw [parseIsoList_written readable plain'] at read
    obtain ⟨-, -, -, items⟩ := addItems_counters read
    rw [cMenu_item, List.nil_append] at items
    exact ⟨plain d e he, not_completed_of_length items.symm d e he⟩
  · intro clean
    have same : writtenItems n listing = isoItems n listing := by
      rw [writtenItems, isoItems]
      congr 1
      funext d
      rw [writtenEntries, filter_isImage fun e he => (clean d e he).2]
    have plain : ∀ d, ∀ e ∈ listing d, Written d e → Plain e.filename := by
      intro d e he written
      by_cases long : 4 ≤ e.filename.length
      · exact (clean d e he).1 ((written_iff long).mp written)
      · exact plain_of_completed ⟨written.1, by omega, written.2⟩ (readable d e he).room
    have room : (cMenu mainListMax).item.length + (writtenItems n listing).length ≤ 2048 := by
      rw [same, cMenu_item, List.length_nil, Nat.zero_add]
      exact few.le
    rw [parseIsoList_written readable plain, addItems_eq room (writtenItems_fit readable), same,
      cMenu_item, List.nil_append]

/-- Images in three of the directories, and files beside them. -/
def someFiles : IsoDir → List DirEntry
  | .ps3iso => [⟨ascii "game one.iso", true, 5000, [0, 0, 0, 0]⟩,
      ⟨ascii "notes.txt", true, 7, [0, 0, 0, 0]⟩, ⟨ascii "BDISO.ISO", true, 0, [0, 0, 0, 0]⟩]
  | .psxiso => []
  | .bdiso => [⟨ascii "film.iso", true, 50000000000, [0, 0, 0, 0]⟩]
  | .dvdiso => [⟨ascii "iso", true, 1, [0, 0, 0, 0]⟩, ⟨ascii "disc.iso", true, 12, [0, 0, 0, 0]⟩,
      ⟨ascii "more.iso", false, 0, [0, 0, 0, 0]⟩]

theorem someFiles_readable : ∀ d, ∀ e ∈ someFiles d, Readable e := by
  have all : ∀ d ∈ isoDirs, ∀ e ∈ someFiles d,
      (e.filename ≠ [] ∧ e.filename.length ≤ 765) ∧ (0 ∉ e.filename ∧ 47 ∉ e.filename) ∧
        e.stSize < 2 ^ 64 ∧ 4 ≤ e.inFront.length := by
    decide +kernel
  intro d e he
  obtain ⟨name, plain, size, room⟩ := all d (by cases d <;> decide) e he
  exact ⟨name, plain, size, room⟩

theorem parseIsoList_roundTrip_iff_some :
    (isoItems 2 someFiles).length = 4 ∧
      parseIsoList (isoList 2 someFiles) (cMenu mainListMax) =
        some { cMenu mainListMax with item := isoItems 2 someFiles } := by
  have clean : ∀ d ∈ isoDirs, ∀ e ∈ someFiles d,
      (IsImage d e → Plain e.filename) ∧ ¬ Completed d e := by
    decide +kernel
  exact ⟨by decide +kernel, (parseIsoList_roundTrip_iff someFiles_readable (by decide +kernel)).mpr
    fun d => clean d (by cases d <;> decide)⟩

/-- A directory with one file of five bytes. -/
def oneFile (name : List UInt8) : IsoDir → List DirEntry
  | .ps3iso => [⟨name, true, 5, [0, 0, 0, 0]⟩]
  | _ => []

/-- The name `a;b.iso` is read back as the label `a` and the path `.iso/a`. -/
theorem semicolon_name :
    isoItems 0 (oneFile (ascii "a;b.iso")) = [⟨ascii "a;b.iso", ascii "/PS3ISO/a;b.iso",
      ascii "5", ascii "/ntfs0:/PS3ISO/a;b.iso"⟩] ∧
    parseIsoList (isoList 0 (oneFile (ascii "a;b.iso"))) (cMenu mainListMax) =
      some { cMenu mainListMax with item := [⟨ascii "a", ascii "tfs0:/PS3ISO;</iso>\n",
        ascii "b.iso", ascii ".iso/a"⟩] } := by
  decide +kernel

end RoundTrip

end IsoLists
