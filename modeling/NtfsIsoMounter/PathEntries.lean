import NtfsIsoMounter.ContentHeads
import NtfsIsoMounter.DirectoryChildren
import NtfsIsoMounter.ImageTables

/-!
# What the path tables say

A reader walks a table by the identifier lengths. Entry by entry it gets the directories
in the order of the list, each with the sector its content says it starts at and with
the number of the directory that holds it, which is listed before. The tables in the two
byte orders say the same, and the relocation moves both in the same way.
-/

namespace PathEntries

open ByteOrder CText SourceTrees DirectoryRecords ImageBuild RecordPasses ContentPasses
  ContentHeads PathTables ImageTables DirectoryChildren

/-! ## Reading a table -/

def value (msb : Bool) (bytes : List UInt8) : Nat := if msb then beValue bytes else leValue bytes

def readTableFrom (msb : Bool) : Nat → List UInt8 → List Entry
  | 0, _ => []
  | _ + 1, [] => []
  | fuel + 1, lenDi :: rest =>
    let entry := lenDi :: rest
    let n := lenDi.toNat
    ⟨value msb ((entry.drop 2).take 4), value msb ((entry.drop 6).take 2),
      (entry.drop 8).take n⟩ :: readTableFrom msb fuel (entry.drop (8 + n + n % 2))

/-- The entries of a table in one of the byte orders. -/
def readTable (msb : Bool) (table : List UInt8) : List Entry :=
  readTableFrom msb table.length table

/-- What a table keeps of an entry. -/
def stored (e : Entry) : Entry := ⟨e.location % 2 ^ 32, e.parent % 2 ^ 16, e.ident⟩

theorem value_location (msb : Bool) (v : Nat) :
    value msb (if msb then beBytes 4 v else leBytes 4 v) = v % 2 ^ 32 := by
  cases msb with
  | true => exact beValue_beBytes 4 v
  | false => exact leValue_leBytes 4 v

theorem value_parent (msb : Bool) (v : Nat) :
    value msb (if msb then beBytes 2 v else leBytes 2 v) = v % 2 ^ 16 := by
  cases msb with
  | true => exact beValue_beBytes 2 v
  | false => exact leValue_leBytes 2 v

theorem ite_length {msb : Bool} {w v : Nat} :
    (if msb then beBytes w v else leBytes w v).length = w := by
  cases msb <;> simp

/-- One entry at the head. -/
theorem readTableFrom_bytes (msb : Bool) (fuel : Nat) {e : Entry} (short : e.ident.length < 256)
    (more : List UInt8) : readTableFrom msb (fuel + 1) (e.bytes msb ++ more) =
      stored e :: readTableFrom msb fuel more := by
  obtain ⟨location, hlocation⟩ : ∃ location, location =
    if msb then beBytes 4 e.location else leBytes 4 e.location := ⟨_, rfl⟩
  obtain ⟨parent, hparent⟩ : ∃ parent, parent =
    if msb then beBytes 2 e.parent else leBytes 2 e.parent := ⟨_, rfl⟩
  have four : location.length = 4 := hlocation ▸ ite_length
  have two : parent.length = 2 := hparent ▸ ite_length
  have lenDi : (UInt8.ofNat e.ident.length).toNat = e.ident.length := by
    rw [UInt8.toNat_ofNat']
    exact Nat.mod_eq_of_lt short
  have whole : e.bytes msb ++ more = UInt8.ofNat e.ident.length :: 0 :: (location ++ (parent ++
      (e.ident ++ (List.replicate (e.ident.length % 2) 0 ++ more)))) := by
    rw [Entry.bytes, ← hlocation, ← hparent]
    simp only [List.append_assoc, List.cons_append, List.nil_append]
  have atLocation : ((e.bytes msb ++ more).drop 2).take 4 = location := by
    rw [whole, List.drop_succ_cons, List.drop_succ_cons, List.drop_zero, List.take_left' four]
  have atParent : ((e.bytes msb ++ more).drop 6).take 2 = parent := by
    rw [whole, List.drop_succ_cons, List.drop_succ_cons, List.drop_left' four, List.take_left' two]
  have atIdent : ((e.bytes msb ++ more).drop 8).take e.ident.length = e.ident := by
    rw [whole, List.drop_succ_cons, List.drop_succ_cons, ← List.append_assoc location,
      List.drop_left' (by rw [List.length_append, four, two]), List.take_left' rfl]
  have behind : (e.bytes msb ++ more).drop (8 + e.ident.length + e.ident.length % 2) = more :=
    List.drop_left' (Entry.bytes_length msb e)
  have head : e.bytes msb ++ more = UInt8.ofNat e.ident.length :: (e.bytes msb ++ more).tail := by
    rw [whole]
    rfl
  rw [head, readTableFrom]
  rw [← head, lenDi, atLocation, atParent, atIdent, behind, hlocation, hparent, value_location,
    value_parent, stored]

theorem readTable_tableOf (msb : Bool) {entries : List Entry}
    (short : ∀ e ∈ entries, e.ident.length < 256) :
    readTable msb (tableOf msb entries) = entries.map stored := by
  have run : ∀ (entries : List Entry) (fuel : Nat), (∀ e ∈ entries, e.ident.length < 256) →
      entries.length ≤ fuel →
      readTableFrom msb fuel (tableOf msb entries) = entries.map stored := by
    intro entries
    induction entries with
    | nil =>
      intro fuel _ _
      cases fuel <;> rfl
    | cons e rest ih =>
      intro fuel short enough
      obtain ⟨head, tail⟩ := List.forall_mem_cons.mp short
      cases fuel with
      | zero => simp at enough
      | succ fuel =>
        rw [tableOf_cons, readTableFrom_bytes msb fuel head, ih fuel tail (by simpa using enough),
          List.map_cons]
  exact run entries _ short (length_le_tableOf msb entries)

/-! ## What the entries are about -/

/-- The entries are those of the listed directories, in their order: the identifier, the
number of an entry that is not behind it and is the parent, and the first sector that the
content has in its record `.`, where the content before ends. -/
structure Describes (joliet : Bool) (dirs : List Dir) (contents : List (List UInt8))
    (entries : List Entry) : Prop where
  count : entries.length = dirs.length
  ident : ∀ i d e, dirs[i]? = some d → entries[i]? = some e → e.ident = tableIdent joliet i d
  parent : ∀ i d e, dirs[i]? = some d → entries[i]? = some e →
    1 ≤ e.parent ∧ e.parent ≤ i + 1 ∧
      if i = 0 then e.parent = 1 else ∃ p, dirs[e.parent - 1]? = some p ∧ d ∈ p.subdirs
  location : ∀ i e, entries[i]? = some e → ∃ content size, contents[i]? = some content ∧
    Headed e.location size content ∧
    ∀ next, entries[i + 1]? = some next →
      next.location = (e.location + bytesToSectors size) % 2 ^ 32

/-- An entry whose location is moved, in 32 bits. -/
def shifted (dirLba : Nat) (e : Entry) : Entry :=
  { e with location := (e.location + dirLba) % 2 ^ 32 }

/-- The relocation of the contents and of the entries keep step. -/
theorem Describes.relocated {joliet : Bool} {dirs : List Dir} {contents : List (List UInt8)}
    {entries : List Entry} (describes : Describes joliet dirs contents entries)
    (small : ∀ e ∈ entries, e.location < 2 ^ 32) (dirLba filesLba : Nat) :
    Describes joliet dirs (contents.map fun content => fixDirLba content dirLba filesLba)
      (entries.map (shifted dirLba)) := by
  have back : ∀ (i : Nat) (e : Entry), (entries.map (shifted dirLba))[i]? = some e →
      ∃ e', entries[i]? = some e' ∧ shifted dirLba e' = e := by
    intro i e at'
    rw [List.getElem?_map] at at'
    exact Option.map_eq_some_iff.mp at'
  constructor
  · rw [List.length_map]
    exact describes.count
  · intro i d e here at'
    obtain ⟨e', old, rfl⟩ := back i e at'
    exact describes.ident i d e' here old
  · intro i d e here at'
    obtain ⟨e', old, rfl⟩ := back i e at'
    exact describes.parent i d e' here old
  · intro i e at'
    obtain ⟨e', old, rfl⟩ := back i e at'
    obtain ⟨content, size, stored, headed, follows⟩ := describes.location i e' old
    refine ⟨fixDirLba content dirLba filesLba, size, ?_, ?_, ?_⟩
    · rw [List.getElem?_map, stored]
      rfl
    · exact (headed.fixDirLba_moved (small e' (List.mem_of_getElem? old)) dirLba filesLba).mod
    · intro next at''
      obtain ⟨next', old', rfl⟩ := back (i + 1) next at''
      have order := follows next' old'
      simp only [shifted, order]
      omega

section Hierarchies
variable {stat : List UInt8 → Option Stat} {joliet : Bool} {tempBufSize : Nat}
  {inDir : List UInt8} {tree : SourceTree} {files : List (List FileEntry)} {h : Hierarchy}

/-- The entries of a table that holds all directories. -/
def entriesOf (joliet : Bool) (dirs : List Dir) (sizes : List Nat) : List Entry :=
  (List.range dirs.length).map (entryAt joliet dirs (startOf sizes))

theorem entriesOf_getElem? {dirs : List Dir} {sizes : List Nat} {i : Nat} {e : Entry}
    (at' : (entriesOf joliet dirs sizes)[i]? = some e) :
    i < dirs.length ∧ entryAt joliet dirs (startOf sizes) i = e := by
  rw [entriesOf, List.getElem?_map] at at'
  obtain ⟨j, found, same⟩ := Option.map_eq_some_iff.mp at'
  obtain ⟨inside, value⟩ := List.getElem?_eq_some_iff.mp found
  rw [List.length_range] at inside
  rw [List.getElem_range] at value
  exact ⟨inside, value ▸ same⟩

theorem getParent_le (proper : tree.Proper) {i : Nat} (inside : i < (listDirs inDir tree).length) :
    getParent (listDirs inDir tree) i ≤ i := by
  by_cases first : i = 0
  · rw [first, getParent_zero]
  · exact (listDirs_earlier proper i first inside).le

theorem describes_entriesOf (proper : tree.Proper) {sizes : List Nat}
    (count : sizes.length = (listDirs inDir tree).length) {st : Pass} (heads : Heads sizes st) :
    Describes joliet (listDirs inDir tree) st.contents
      (entriesOf joliet (listDirs inDir tree) sizes) := by
  constructor
  · rw [entriesOf, List.length_map, List.length_range]
  · intro i d e here at'
    obtain ⟨-, rfl⟩ := entriesOf_getElem? at'
    rw [entryAt, here]
    rfl
  · intro i d e here at'
    obtain ⟨inside, rfl⟩ := entriesOf_getElem? at'
    refine ⟨Nat.le_add_left _ _, Nat.succ_le_succ (getParent_le proper inside), ?_⟩
    split
    · rename_i first
      rw [entryAt, first, getParent_zero]
    · rename_i later
      obtain ⟨p, parent, inner, -⟩ := getParent_spec proper here later
      exact ⟨p, parent, inner⟩
  · intro i e at'
    obtain ⟨inside, rfl⟩ := entriesOf_getElem? at'
    have inside' : i < st.contents.length := by rw [heads.count, count]; exact inside
    have size := List.getElem?_eq_getElem (l := sizes) (i := i) (by rw [count]; exact inside)
    refine ⟨_, _, List.getElem?_eq_getElem inside',
      heads.headed i _ _ (List.getElem?_eq_getElem inside') size, ?_⟩
    intro next at''
    obtain ⟨-, rfl⟩ := entriesOf_getElem? at''
    exact startOf_succ size

theorem entriesOf_fits (proper : tree.Proper) (few : (listDirs inDir tree).length ≤ 65535)
    (sizes : List Nat) : ∀ e ∈ entriesOf joliet (listDirs inDir tree) sizes,
      e.location < 2 ^ 32 ∧ e.parent < 2 ^ 16 ∧ e.ident.length < 256 := by
  intro e he
  obtain ⟨i, hi, rfl⟩ := List.mem_map.mp he
  have inside := List.mem_range.mp hi
  have parent := getParent_le proper inside
  refine ⟨Nat.mod_lt _ (Nat.two_pow_pos 32), ?_, entryAt_ident_length _ i⟩
  rw [entryAt]
  dsimp only
  omega

/-- Both tables of a hierarchy list these entries. -/
structure Lists (joliet : Bool) (dirs : List Dir) (h : Hierarchy) (entries : List Entry) :
    Prop where
  lengths : h.pathTableL.length = h.pathTableM.length
  little : readTable false h.pathTableL = entries
  big : readTable true h.pathTableM = entries
  describes : Describes joliet dirs h.contents entries

/-- The tables of a pass: at most 65536 entries, made of the starts of the contents. -/
theorem passed_tables (proper : tree.Proper)
    (passed : Passed stat joliet tempBufSize (listDirs inDir tree) files h) :
    ∃ sizes, sizes.length = (listDirs inDir tree).length ∧ Heads sizes ⟨h.contents, h.sectors⟩ ∧
      h.pathTableL = tableOf false ((List.range (min 65536 (listDirs inDir tree).length)).map
        (entryAt joliet (listDirs inDir tree) (startOf sizes))) ∧
      h.pathTableM = tableOf true ((List.range (min 65536 (listDirs inDir tree).length)).map
        (entryAt joliet (listDirs inDir tree) (startOf sizes))) := by
  obtain ⟨sizes, count, heads⟩ := buildContents_headed (listDirs_keys proper joliet) passed.pass
  have first : ∀ i < (listDirs inDir tree).length, ∃ dot more,
      h.contents[i]? = some (Record.bytes dot ++ more) ∧ dot.ident = [0] ∧
        dot.start = startOf sizes i := by
    intro i inside
    have inside' : i < h.contents.length := by
      have := heads.count
      rw [this, count]
      exact inside
    have size := List.getElem?_eq_getElem (l := sizes) (i := i) (by rw [count]; exact inside)
    obtain ⟨time, more, content⟩ := heads.headed i _ _ (List.getElem?_eq_getElem inside') size
    exact ⟨_, more, (List.getElem?_eq_getElem inside').trans (congrArg some content), rfl, rfl⟩
  exact ⟨sizes, count, heads, buildPathTable_eq first passed.tableL,
    buildPathTable_eq first passed.tableM⟩

/-- The relocation keeps the lengths of the tables. -/
theorem fixLba_lengths (proper : tree.Proper)
    (passed : Passed stat joliet tempBufSize (listDirs inDir tree) files h)
    (dirLba filesLba : Nat) :
    (h.fixLba dirLba filesLba).pathTableL.length = h.pathTableL.length ∧
      (h.fixLba dirLba filesLba).pathTableM.length = h.pathTableM.length := by
  obtain ⟨sizes, -, -, tableL, tableM⟩ := passed_tables proper passed
  obtain ⟨entries, same⟩ : ∃ entries, entries =
    (List.range (min 65536 (listDirs inDir tree).length)).map
      (entryAt joliet (listDirs inDir tree) (startOf sizes)) := ⟨_, rfl⟩
  rw [← same] at tableL tableM
  have fits : ∀ e ∈ entries, e.location < 2 ^ 32 ∧ e.ident.length < 256 := by
    intro e he
    rw [same] at he
    obtain ⟨i, -, rfl⟩ := List.mem_map.mp he
    exact ⟨Nat.mod_lt _ (Nat.two_pow_pos 32), entryAt_ident_length _ i⟩
  have kept : ∀ msb, (fixPathTableLba (tableOf msb entries) dirLba msb).length =
      (tableOf msb entries).length := by
    intro msb
    rw [fixPathTableLba_tableOf entries (fun e he => (fits e he).1) fun e he => (fits e he).2]
    apply tableOf_length
    rw [List.map_map]
    rfl
  constructor
  · rw [Hierarchy.fixLba, tableL]
    exact kept false
  · rw [Hierarchy.fixLba, tableM]
    exact kept true

theorem lists_passed (proper : tree.Proper) (few : (listDirs inDir tree).length ≤ 65535)
    (passed : Passed stat joliet tempBufSize (listDirs inDir tree) files h)
    (dirLba filesLba : Nat) :
    ∃ entries, Lists joliet (listDirs inDir tree) h entries ∧
      Lists joliet (listDirs inDir tree) (h.fixLba dirLba filesLba)
        (entries.map (shifted dirLba)) := by
  obtain ⟨sizes, count, heads, tableL, tableM⟩ := passed_tables proper passed
  obtain ⟨entries, same⟩ : ∃ entries, entries = entriesOf joliet (listDirs inDir tree) sizes :=
    ⟨_, rfl⟩
  have fits : ∀ e ∈ entriesOf joliet (listDirs inDir tree) sizes,
      e.location < 2 ^ 32 ∧ e.parent < 2 ^ 16 ∧ e.ident.length < 256 :=
    entriesOf_fits proper few sizes
  have describes : Describes joliet (listDirs inDir tree) h.contents
      (entriesOf joliet (listDirs inDir tree) sizes) := describes_entriesOf proper count heads
  rw [← same] at fits describes
  have all : min 65536 (listDirs inDir tree).length = (listDirs inDir tree).length := by omega
  rw [all, ← entriesOf, ← same] at tableL tableM
  have kept : ∀ es : List Entry, (∀ e ∈ es, e.location < 2 ^ 32 ∧ e.parent < 2 ^ 16) →
      es.map stored = es := by
    intro es small
    refine (List.map_congr_left ?_).trans (List.map_id es)
    intro e he
    rw [stored, Nat.mod_eq_of_lt (small e he).1, Nat.mod_eq_of_lt (small e he).2]
    rfl
  have moved : (entries.map (Entry.moved dirLba)).map stored = entries.map (shifted dirLba) := by
    rw [List.map_map]
    refine List.map_congr_left ?_
    intro e he
    rw [Function.comp_apply, stored, Entry.moved, shifted, Nat.mod_eq_of_lt (fits e he).2.1]
  have short : ∀ e ∈ entries, e.ident.length < 256 := fun e he => (fits e he).2.2
  have short' : ∀ e ∈ entries.map (Entry.moved dirLba), e.ident.length < 256 := by
    intro e he
    obtain ⟨e', he', rfl⟩ := List.mem_map.mp he
    exact short e' he'
  have fixed : ∀ msb, fixPathTableLba (tableOf msb entries) dirLba msb =
      tableOf msb (entries.map (Entry.moved dirLba)) := fun msb =>
    fixPathTableLba_tableOf entries (fun e he => (fits e he).1) short
  have small : ∀ e ∈ entries, e.location < 2 ^ 32 := fun e he => (fits e he).1
  refine ⟨entries, ⟨?_, ?_, ?_, describes⟩, ⟨?_, ?_, ?_, describes.relocated small dirLba filesLba⟩⟩
  · rw [tableL, tableM]
    exact tableOf_length _ _ _ _ rfl
  · rw [tableL, readTable_tableOf false short]
    exact kept entries fun e he => ⟨(fits e he).1, (fits e he).2.1⟩
  · rw [tableM, readTable_tableOf true short]
    exact kept entries fun e he => ⟨(fits e he).1, (fits e he).2.1⟩
  · rw [Hierarchy.fixLba, tableL, tableM, fixed, fixed]
    exact tableOf_length _ _ _ _ rfl
  · rw [Hierarchy.fixLba, tableL, fixed, readTable_tableOf false short', moved]
  · rw [Hierarchy.fixLba, tableM, fixed, readTable_tableOf true short', moved]

end Hierarchies

/-! ## The tables of an image -/

section Image
variable {stat : List UInt8 → Option Stat} {tempBufSize : Nat} {inDir : List UInt8}
  {tree : SourceTree}

/-- The sector that is added to the sectors of a hierarchy. -/
def dirLba (m : Image) (joliet : Bool) : Nat := if joliet then m.jolietLba else m.isoLba

theorem hierarchy_fixLba (m : Image) (joliet : Bool) :
    (m.fixLba m.isoLba m.jolietLba m.filesLba).hierarchy joliet =
      (m.hierarchy joliet).fixLba (dirLba m joliet) m.filesLba := by
  cases joliet <;> rfl

/-- In front of and behind the relocation the tables of both hierarchies list the directories. -/
theorem buildUnmoved_pathTables (proper : tree.Proper)
    (few : (listDirs inDir tree).length ≤ 65535) {m : Image}
    (built : buildUnmoved stat tempBufSize inDir tree = .ok m) :
    build stat tempBufSize inDir tree = .ok (m.fixLba m.isoLba m.jolietLba m.filesLba) ∧
      ∀ joliet, ∃ entries, Lists joliet (listDirs inDir tree) (m.hierarchy joliet) entries ∧
        Lists joliet (listDirs inDir tree)
          ((m.fixLba m.isoLba m.jolietLba m.filesLba).hierarchy joliet)
          (entries.map (shifted (dirLba m joliet))) := by
  constructor
  · rw [build_eq, built]
    rfl
  · intro joliet
    rw [hierarchy_fixLba]
    exact lists_passed proper few ((buildUnmoved_spec built).2 joliet) _ _

/-- Directories three deep, with a file beside them. -/
def nestedDirs : SourceTree :=
  .dir true [ascii "readme.txt"] [(ascii "docs", .dir true [] [(ascii "de", .dir true [] []),
    (ascii "en", .dir true [] [(ascii "api", .dir true [] [])])]), (ascii "src", .dir true [] [])]

theorem nestedDirs_proper : nestedDirs.Proper := by
  have leaf : (SourceTree.dir true [] []).Proper := .empty true
  have api : (SourceTree.dir true [] [(ascii "api", .dir true [] [])]).Proper := by
    refine .dir (by decide) (by decide) fun name tree member => ?_
    rw [(Prod.mk.inj (List.mem_singleton.mp member)).2]
    exact leaf
  have docs : (SourceTree.dir true [] [(ascii "de", .dir true [] []),
      (ascii "en", .dir true [] [(ascii "api", .dir true [] [])])]).Proper := by
    refine .dir (by decide) (by decide) fun name tree member => ?_
    rcases List.mem_pair.mp member with same | same
    · rw [(Prod.mk.inj same).2]
      exact leaf
    · rw [(Prod.mk.inj same).2]
      exact api
  refine .dir (by decide) (by decide) fun name tree member => ?_
  rcases List.mem_pair.mp member with same | same
  · rw [(Prod.mk.inj same).2]
    exact docs
  · rw [(Prod.mk.inj same).2]
    exact leaf

/-- The tables list the six directories, before and after the sectors are known. -/
theorem nestedDirs_pathTables : ∃ m,
    buildUnmoved anyStat 0x100000 (ascii "/in") nestedDirs = .ok m ∧
    build anyStat 0x100000 (ascii "/in") nestedDirs =
      .ok (m.fixLba m.isoLba m.jolietLba m.filesLba) ∧
    (listDirs (ascii "/in") nestedDirs).length = 6 ∧
    ∀ joliet, ∃ entries, Lists joliet (listDirs (ascii "/in") nestedDirs) (m.hierarchy joliet)
        entries ∧
      Lists joliet (listDirs (ascii "/in") nestedDirs)
        ((m.fixLba m.isoLba m.jolietLba m.filesLba).hierarchy joliet)
        (entries.map (shifted (dirLba m joliet))) := by
  obtain ⟨m, built⟩ := ok_of_isSome
    (x := buildUnmoved anyStat 0x100000 (ascii "/in") nestedDirs) (by decide +kernel)
  obtain ⟨moved, lists⟩ := buildUnmoved_pathTables nestedDirs_proper (by decide) built
  exact ⟨m, built, moved, by decide, lists⟩

end Image

end PathEntries
