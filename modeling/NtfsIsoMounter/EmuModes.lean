import NtfsIsoMounter.ListBounds

/-!
# The emulation mode of a menu item

The mode is found again by looking for the names of the directories in the path
of an item, file name included, and a directory name tested later overrides one
tested before. A file name with a semicolon or a newline moves the fields of its line,
so the path of its item need not be that of the file.
-/

namespace EmuModes

open CText MenuWindow IsoLists ListBounds

/-- The directories whose names `input` looks for after the name of a directory. -/
def testedLater : IsoDir → List IsoDir
  | .ps3iso => [.psxiso, .dvdiso, .bdiso]
  | .psxiso => [.dvdiso, .bdiso]
  | .dvdiso => [.bdiso]
  | .bdiso => []

/-! ## Occurrences in a path -/

theorem prefix_of_append_cons {a : UInt8} {key x y : List UInt8} (plain : a ∉ key)
    (starts : key <+: x ++ a :: y) : key <+: x := by
  induction x generalizing key with
  | nil =>
    cases key with
    | nil => exact List.nil_prefix
    | cons k key =>
      obtain ⟨rfl, -⟩ := List.cons_prefix_cons.mp starts
      exact absurd List.mem_cons_self plain
  | cons b x ih =>
    cases key with
    | nil => exact List.nil_prefix
    | cons k key =>
      obtain ⟨rfl, rest⟩ := List.cons_prefix_cons.mp starts
      exact List.cons_prefix_cons.mpr ⟨rfl, ih (fun h => plain (List.mem_cons_of_mem k h)) rest⟩

/-- A text without slashes occurs in front of a slash or behind it. -/
theorem infix_append_cons_iff {a : UInt8} {key x y : List UInt8} (plain : a ∉ key) :
    key <:+: x ++ a :: y ↔ key <:+: x ∨ key <:+: y := by
  constructor
  · intro inside
    induction x with
    | nil =>
      rw [List.nil_append] at inside
      rcases List.infix_cons_iff.mp inside with starts | later
      · have none := prefix_of_append_cons (x := []) plain starts
        rw [List.prefix_nil.mp none]
        exact Or.inl List.nil_infix
      · exact Or.inr later
    | cons b x ih =>
      rw [List.cons_append] at inside
      rcases List.infix_cons_iff.mp inside with starts | later
      · exact Or.inl (prefix_of_append_cons (x := b :: x) plain starts).isInfix
      · rcases ih later with front | behind
        · exact Or.inl (front.trans (List.suffix_cons b x).isInfix)
        · exact Or.inr behind
  · rintro (front | behind)
    · exact front.trans (List.prefix_append x _).isInfix
    · exact behind.trans ((List.suffix_cons a y).trans (List.suffix_append x _)).isInfix

/-- A directory name occurs in the path where it is the directory or occurs in the
file name. -/
theorem path_infix_iff (l d : IsoDir) (name : List UInt8) :
    l.text <:+: 47 :: (d.text ++ 47 :: name) ↔ l = d ∨ l.text <:+: name := by
  have slash : 47 ∉ l.text := by
    cases l <;> decide
  have own : l.text <:+: 47 :: d.text ↔ l = d := by
    rw [← strstr_isSome_iff]
    cases l <;> cases d <;> decide +kernel
  rw [← List.cons_append, infix_append_cons_iff slash, own]

/-- The text holds the name of the directory and none that is tested later. -/
def Named (d : IsoDir) (text : List UInt8) : Prop :=
  d.text <:+: text ∧ ∀ l ∈ testedLater d, ¬ l.text <:+: text

theorem nType_eq_iff (d : IsoDir) (text : List UInt8) :
    nType text = some d.mode ↔ Named d text := by
  have ps3 : (strstr (ascii "PS3ISO") text).isSome = true ↔ IsoDir.ps3iso.text <:+: text :=
    strstr_isSome_iff
  have psx : (strstr (ascii "PSXISO") text).isSome = true ↔ IsoDir.psxiso.text <:+: text :=
    strstr_isSome_iff
  have dvd : (strstr (ascii "DVDISO") text).isSome = true ↔ IsoDir.dvdiso.text <:+: text :=
    strstr_isSome_iff
  have bd : (strstr (ascii "BDISO") text).isSome = true ↔ IsoDir.bdiso.text <:+: text :=
    strstr_isSome_iff
  simp only [nType, ps3, psx, dvd, bd, Named]
  by_cases hps3 : IsoDir.ps3iso.text <:+: text <;>
    by_cases hpsx : IsoDir.psxiso.text <:+: text <;>
    by_cases hdvd : IsoDir.dvdiso.text <:+: text <;>
    by_cases hbd : IsoDir.bdiso.text <:+: text <;>
    cases d <;> simp [testedLater, IsoDir.mode, hps3, hpsx, hdvd, hbd]

/-- For the path of a file only the file name matters. -/
theorem named_path_iff (d : IsoDir) (name : List UInt8) :
    Named d (47 :: (d.text ++ 47 :: name)) ↔ ∀ l ∈ testedLater d, ¬ l.text <:+: name := by
  have other : ∀ l ∈ testedLater d, l ≠ d := by
    cases d <;> decide
  constructor
  · rintro ⟨-, clear⟩ l later inside
    exact clear l later ((path_infix_iff l d name).mpr (Or.inr inside))
  · intro clear
    refine ⟨(path_infix_iff d d name).mpr (Or.inl rfl), fun l later inside => ?_⟩
    rcases (path_infix_iff l d name).mp inside with same | inside
    · exact other l later same
    · exact clear l later inside

/-! ## The items of a list -/

/-- The item made of what stands in a line from its tag on. -/
def itemOf (pch : List UInt8) : MenuItem := ⟨nameOf pch, dataOf pch, sizeOf pch, fullOf pch⟩

theorem parseLines_item {lines : List (List UInt8)} {m m' : Menu}
    (read : parseLines lines m = some m') : m'.item = m.item ++ (tagged lines).map itemOf := by
  induction lines generalizing m with
  | nil =>
    rw [← Option.some.inj read, tagged, List.filterMap_nil, List.map_nil, List.append_nil]
  | cons line lines ih =>
    rw [parseLines, Option.bind_eq_bind] at read
    obtain ⟨item, parsed, read⟩ := Option.bind_eq_some_iff.mp read
    cases found : fromTag line with
    | none =>
      rw [parseLine, ← fromTag, found] at parsed
      cases parsed
      rw [ih read, tagged, tagged, List.filterMap_cons_none found]
    | some pch =>
      rcases parseLine_tagged found with ⟨-, refused⟩ | ⟨-, made⟩
      · rw [refused] at parsed
        cases parsed
      · rw [made] at parsed
        cases parsed
        obtain ⟨mid, added, read⟩ := Option.bind_eq_some_iff.mp read
        rw [Menu.addItemEx] at added
        split at added
        · cases added
          rw [ih read, tagged, tagged, List.filterMap_cons_some found, List.map_cons,
            List.append_assoc, List.singleton_append, itemOf]
        · cases added

/-- A short text that ends in a newline is read line by line. -/
theorem exists_lines {text : List UInt8} (short : text.length ≤ 2047)
    (ended : text = [] ∨ text.getLast? = some 10) :
    ∃ lines : List (List UInt8), (∀ line ∈ lines, Line line) ∧ lines.flatten = text := by
  induction length : text.length using Nat.strong_induction_on generalizing text with
  | _ k ih =>
    by_cases newline : 10 ∈ text
    · obtain ⟨body, rest, rfl, one⟩ := List.eq_append_cons_of_mem newline
      rw [List.length_append, List.length_cons] at short length
      have ended' : rest = [] ∨ rest.getLast? = some 10 := by
        cases rest with
        | nil => exact Or.inl rfl
        | cons b rest =>
          rcases ended with none' | last
          · exact absurd none' (List.append_ne_nil_of_right_ne_nil _ (List.cons_ne_nil _ _))
          · rw [List.getLast?_append_cons, List.getLast?_cons_cons] at last
            exact Or.inr last
      obtain ⟨lines, all, whole⟩ := ih rest.length (by omega) (by omega) ended' rfl
      refine ⟨(body ++ [10]) :: lines, List.forall_mem_cons.mpr ⟨⟨body, rfl, one, ?_⟩, all⟩, ?_⟩
      · rw [List.length_append, List.length_singleton]
        omega
      · rw [List.flatten_cons, whole, List.append_assoc, List.singleton_append]
    · rcases ended with rfl | last
      · exact ⟨[], fun line member => absurd member List.not_mem_nil, rfl⟩
      · exact absurd (List.mem_of_getLast? last) newline

theorem tagged_lines {lines : List (List UInt8)} (all : ∀ line ∈ lines, Line line) :
    tagged (fileLines lines.flatten) = tagged lines := by
  have enough := Nat.lt_succ_of_le (length_le_flatten all)
  rw [fileLines, readLines_lines all enough, tagged, List.filterMap_append]
  exact List.append_nil _

section Listing
variable {n : Fin 8} {d : IsoDir} {e : DirEntry} {listing : IsoDir → List DirEntry}

/-- The tags in what is written for one file, which is read line by line. -/
def ownTags (n : Fin 8) (d : IsoDir) (e : DirEntry) : List (List UInt8) :=
  tagged (fileLines (isoLine (dirPath n d) e))

theorem isoLine_lines (readable : Readable e) (written : Written d e) :
    ∃ lines : List (List UInt8), (∀ line ∈ lines, Line line) ∧
      lines.flatten = isoLine (dirPath n d) e ∧ tagged lines = ownTags n d e := by
  have ended : (isoLine (dirPath n d) e).getLast? = some 10 := by
    rw [isoLine, List.getLast?_append]
    rfl
  obtain ⟨lines, all, whole⟩ :=
    exists_lines ((isoLine_length readable written).trans (by decide)) (Or.inr ended)
  refine ⟨lines, all, whole, ?_⟩
  rw [ownTags, ← whole, tagged_lines all]

/-- The tags of a list are those of the files, one file after the other. -/
theorem tagged_isoList (readable : ∀ d, ∀ e ∈ listing d, Readable e) :
    tagged (fileLines (isoList n listing)) =
      isoDirs.flatMap (fun d => (writtenEntries listing d).flatMap (ownTags n d)) := by
  -- over the files of which a line is written
  have read : ∀ files : List (IsoDir × DirEntry),
      (∀ f ∈ files, Readable f.2 ∧ Written f.1 f.2) →
      ∃ lines : List (List UInt8), (∀ line ∈ lines, Line line) ∧
        lines.flatten = (files.map fun f => isoLine (dirPath n f.1) f.2).flatten ∧
        tagged lines = files.flatMap fun f => ownTags n f.1 f.2 := by
    intro files
    induction files with
    | nil => exact fun _ => ⟨[], fun line member => absurd member List.not_mem_nil, rfl, rfl⟩
    | cons f files ih =>
      intro all
      obtain ⟨⟨own, written⟩, others⟩ := List.forall_mem_cons.mp all
      obtain ⟨lines, here, text, tags⟩ := isoLine_lines (n := n) own written
      obtain ⟨lines', here', text', tags'⟩ := ih others
      refine ⟨lines ++ lines', List.forall_mem_append.mpr ⟨here, here'⟩, ?_, ?_⟩
      · rw [List.flatten_append, text, text', List.map_cons, List.flatten_cons]
      · rw [tagged, List.filterMap_append, ← tagged, ← tagged, tags, tags', List.flatMap_cons]
  obtain ⟨lines, all, text, tags⟩ := read
    (isoDirs.flatMap fun d => (writtenEntries listing d).map (Prod.mk d)) (by
      intro f member
      obtain ⟨d, -, among⟩ := List.mem_flatMap.mp member
      obtain ⟨e, he, rfl⟩ := List.mem_map.mp among
      obtain ⟨inside, written⟩ := List.mem_filter.mp he
      exact ⟨readable d e inside, of_decide_eq_true written⟩)
  have whole : isoList n listing = lines.flatten := by
    rw [text, isoList_eq, List.map_flatMap]
    simp only [List.map_map]
    rfl
  rw [whole, tagged_lines all, tags, List.flatMap_assoc]
  simp only [List.flatMap_map]

/-! ## Pressing CROSS -/

/-- The items of the lines that are written for one file. -/
def ownItems (n : Fin 8) (d : IsoDir) (e : DirEntry) : List MenuItem :=
  (fileLines (isoLine (dirPath n d) e)).filterMap fun line => (parseLine line).join

/-- CROSS on any item of the file's own lines mounts it with the mode of its directory. -/
def KeepsMode (n : Fin 8) (d : IsoDir) (e : DirEntry) : Prop :=
  ∀ listing : IsoDir → List DirEntry, (∀ d, ∀ e ∈ listing d, Readable e) → e ∈ listing d →
    ∀ m, parseIsoList (isoList n listing) (cMenu mainListMax) = some m →
      ∀ item ∈ ownItems n d e, pressCross item = some (item.szData1, d.mode)

theorem ownItems_eq (fit : ∀ pch ∈ ownTags n d e, FieldsFit pch) :
    ownItems n d e = (ownTags n d e).map itemOf := by
  rw [ownItems, ownTags] at *
  generalize fileLines (isoLine (dirPath n d) e) = lines at fit ⊢
  induction lines with
  | nil => rfl
  | cons line lines ih =>
    cases found : fromTag line with
    | none =>
      have skipped : parseLine line = some none := by
        rw [parseLine, ← fromTag, found]
      rw [tagged, List.filterMap_cons_none found] at fit ⊢
      rw [List.filterMap_cons_none (by rw [skipped]; rfl)]
      exact ih fit
    | some pch =>
      rw [tagged, List.filterMap_cons_some found] at fit ⊢
      obtain ⟨own, others⟩ := List.forall_mem_cons.mp fit
      rcases parseLine_tagged found with ⟨few, -⟩ | ⟨-, made⟩
      · exact absurd own.separators (by omega)
      · rw [List.filterMap_cons_some (by rw [made]; rfl), ih others]
        rfl

/-- The files of a list that is loaded have their fields, and the items are those of the
files, one file after the other. -/
theorem loaded_items (readable : ∀ d, ∀ e ∈ listing d, Readable e) {m : Menu}
    (read : parseIsoList (isoList n listing) (cMenu mainListMax) = some m) :
    (∀ d, ∀ e ∈ writtenEntries listing d, ∀ pch ∈ ownTags n d e, FieldsFit pch) ∧
      m.item = isoDirs.flatMap (fun d => (writtenEntries listing d).flatMap (ownItems n d)) := by
  have tags := tagged_isoList (n := n) readable
  have fit := (parseLines_isSome_iff (fileLines (isoList n listing)) _).mp ⟨m, read⟩
  have own : ∀ d, ∀ e ∈ writtenEntries listing d, ∀ pch ∈ ownTags n d e, FieldsFit pch := by
    intro d e he pch member
    have among : pch ∈ tagged (fileLines (isoList n listing)) := by
      rw [tags]
      exact List.mem_flatMap.mpr ⟨d, by cases d <;> decide, List.mem_flatMap.mpr ⟨e, he, member⟩⟩
    obtain ⟨i, at'⟩ := List.mem_iff_getElem?.mp among
    exact (fit i pch at').1
  refine ⟨own, ?_⟩
  have items := @parseLines_item (fileLines (isoList n listing)) _ _ read
  rw [items, cMenu_item, List.nil_append, tags, List.map_flatMap]
  congr 1
  funext d
  rw [List.map_flatMap]
  refine List.flatMap_congr fun e he => ?_
  exact (ownItems_eq (own d e he)).symm

theorem ownTags_length (readable : Readable e) (written : Written d e) :
    (ownTags n d e).length ≤ 819 := by
  obtain ⟨lines, all, text, tags⟩ := isoLine_lines (n := n) readable written
  have few := length_le_flatten all
  have short := isoLine_length (n := n) readable written
  rw [← tags, tagged]
  rw [text] at few
  exact (List.length_filterMap_le _ _).trans (few.trans short)

theorem pressCross_itemOf (d : IsoDir) (pch : List UInt8) :
    pressCross (itemOf pch) = some ((itemOf pch).szData1, d.mode) ↔ Named d (dataOf pch) := by
  rw [← nType_eq_iff, pressCross, itemOf]
  constructor
  · intro pressed
    obtain ⟨mode, found, pair⟩ := Option.map_eq_some_iff.mp pressed
    rw [← (Prod.mk.inj pair).2]
    exact found
  · intro found
    rw [found, Option.map_some]

/-- The listing of one file. -/
def onlyIn (d : IsoDir) (e : DirEntry) (d' : IsoDir) : List DirEntry := if d' = d then [e] else []

theorem onlyIn_readable (readable : Readable e) : ∀ d', ∀ e' ∈ onlyIn d e d', Readable e' := by
  intro d' e' member
  rw [onlyIn] at member
  split at member
  · rw [List.mem_singleton.mp member]
    exact readable
  · cases member

/-- The list of one file is loaded if the fields of its lines fit. -/
theorem onlyIn_loaded (readable : Readable e) (written : Written d e)
    (fit : ∀ pch ∈ ownTags n d e, FieldsFit pch) :
    ∃ m, parseIsoList (isoList n (onlyIn d e)) (cMenu mainListMax) = some m := by
  have tags : tagged (fileLines (isoList n (onlyIn d e))) = ownTags n d e := by
    rw [tagged_isoList (onlyIn_readable readable)]
    cases d <;> simp [isoDirs, writtenEntries, onlyIn, written]
  refine (parseLines_isSome_iff (fileLines (isoList n (onlyIn d e))) _).mpr ?_
  intro i pch at'
  rw [tags] at at'
  have inside := (List.getElem?_eq_some_iff.mp at').1
  have few := ownTags_length (n := n) readable written
  rw [cMenu_item, List.length_nil]
  exact ⟨fit pch (List.mem_of_getElem? at'), by omega⟩

/-- The mode is kept where the paths of all own items name the directory. -/
theorem keepsMode_iff_named (readable : Readable e) (written : Written d e) :
    KeepsMode n d e ↔
      ((∀ pch ∈ ownTags n d e, FieldsFit pch) → ∀ pch ∈ ownTags n d e, Named d (dataOf pch)) := by
  constructor
  · intro keeps fit pch member
    obtain ⟨m, loaded⟩ := onlyIn_loaded readable written fit
    have self : e ∈ onlyIn d e d := by simp [onlyIn]
    have pressed := keeps (onlyIn d e) (onlyIn_readable readable) self m loaded (itemOf pch) (by
      rw [ownItems_eq fit]
      exact List.mem_map_of_mem member)
    exact (pressCross_itemOf d pch).mp pressed
  · intro named listing readable' inside m loaded item member
    have fit := (loaded_items readable' loaded).1 d e
      (List.mem_filter.mpr ⟨inside, decide_eq_true written⟩)
    rw [ownItems_eq fit] at member
    obtain ⟨pch, among, rfl⟩ := List.mem_map.mp member
    exact (pressCross_itemOf d pch).mpr (named fit pch among)

/-- A plain name gives one item, with the path of the file. -/
theorem ownTags_plain (readable : Readable e) (written : Written d e) (plain : Plain e.filename) :
    ∃ pch, ownTags n d e = [pch] ∧ FieldsFit pch ∧
      dataOf pch = 47 :: (d.text ++ 47 :: e.filename) := by
  have line := isoLine_line (n := n) readable written plain
  have read := parseLine_isoLine (n := n) readable written plain
  have one : ∀ l ∈ [isoLine (dirPath n d) e], Line l := fun l hl => List.mem_singleton.mp hl ▸ line
  have lines := tagged_lines one
  rw [List.flatten_singleton] at lines
  cases found : fromTag (isoLine (dirPath n d) e) with
  | none =>
    rw [parseLine, ← fromTag, found] at read
    cases read
  | some pch =>
    rcases parseLine_tagged found with ⟨-, refused⟩ | ⟨separators, made⟩
    · rw [refused] at read
      cases read
    · have item : isoItem n d e = itemOf pch :=
        Option.some.inj (Option.some.inj (read.symm.trans made))
      refine ⟨pch, ?_, ?_, ?_⟩
      · rw [ownTags, lines, tagged, List.filterMap_cons_some found, List.filterMap_nil]
      · have fits := item_fits (n := n) (d := d) readable
        rw [item] at fits
        exact (item_fits_iff (strstr_text found).1 separators).mp fits
      · exact (congrArg MenuItem.szData1 item).symm

/-- The items of a loaded list are those of the files of which a line is written. CROSS on
the items of such a file mounts them with the mode of its directory exactly where a name
without semicolons and newlines holds no directory name tested later, and with another name
the paths that its fields give name the directory and none tested later. -/
theorem keepsMode_iff (readable : Readable e) (written : Written d e) :
    (∀ listing : IsoDir → List DirEntry, (∀ d, ∀ e ∈ listing d, Readable e) →
      ∀ m, parseIsoList (isoList n listing) (cMenu mainListMax) = some m →
        m.item = isoDirs.flatMap fun d => (writtenEntries listing d).flatMap (ownItems n d)) ∧
    (KeepsMode n d e ↔
      (Plain e.filename → ∀ l ∈ testedLater d, ¬ l.text <:+: e.filename) ∧
      (¬ Plain e.filename → (∀ pch ∈ ownTags n d e, FieldsFit pch) →
        ∀ pch ∈ ownTags n d e, Named d (dataOf pch))) := by
  refine ⟨fun listing readable' m loaded => (loaded_items readable' loaded).2, ?_⟩
  rw [keepsMode_iff_named readable written]
  by_cases plain : Plain e.filename
  · obtain ⟨pch, tags, fit, data⟩ := ownTags_plain (n := n) readable written plain
    rw [tags, List.forall_mem_singleton, List.forall_mem_singleton, data, named_path_iff]
    exact ⟨fun named => ⟨fun _ => named fit, fun other => absurd plain other⟩,
      fun clear _ => clear.1 plain⟩
  · exact ⟨fun named => ⟨fun plain' => absurd plain' plain, fun _ => named⟩,
      fun clear => clear.2 plain⟩

end Listing

theorem keepsMode_plain_name :
    KeepsMode 0 .ps3iso ⟨ascii "a.iso", true, 5, [0, 0, 0, 0]⟩ :=
  (keepsMode_iff ⟨by decide, by decide, by decide, le_rfl⟩ (by decide)).2.mpr
    ⟨fun _ => by decide +kernel, fun other => absurd ⟨by decide +kernel, by decide +kernel⟩ other⟩

/-- The fourth field of this line is a piece of the name. -/
example : (ownItems 0 .bdiso ⟨ascii "x;1;y;abcdefgPS3ISO;.iso", true, 5, [0, 0, 0, 0]⟩).map
    pressCross = [some (ascii "PS3ISO/x", .ps3)] := by
  decide +kernel

/-- A file in `PS3ISO` with the name `BDISO.iso` is mounted as a disc of another kind. -/
theorem bdiso_in_name :
    parseIsoList (isoList 0 (oneFile (ascii "BDISO.iso"))) (cMenu mainListMax) =
      some { cMenu mainListMax with item := [⟨ascii "BDISO.iso", ascii "/PS3ISO/BDISO.iso",
        ascii "5", ascii "/ntfs0:/PS3ISO/BDISO.iso"⟩] } ∧
    pressCross ⟨ascii "BDISO.iso", ascii "/PS3ISO/BDISO.iso", ascii "5",
      ascii "/ntfs0:/PS3ISO/BDISO.iso"⟩ = some (ascii "/PS3ISO/BDISO.iso", .bd) ∧
    IsoDir.ps3iso.mode = .ps3 := by
  decide +kernel

end EmuModes
