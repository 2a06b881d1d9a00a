import NtfsIsoMounter.DirectoryRecords

/-!
# Building the tables of an image

`build` lists directories and files, makes the contents of all directories in
a first pass for ISO and a second one for Joliet, makes four path tables and
then relocates every sector number that was counted from the start of its
kind. `stat` is a parameter of all of it.
-/

namespace ImageBuild

open ByteOrder CText SourceTrees DirectoryRecords

/-- `false` is returned, or a null pointer or the end of a buffer is passed. -/
inductive Stop where
  | failed
  | fault
deriving DecidableEq

def need {α : Type} : Option α → Except Stop α
  | none => .error .failed
  | some a => .ok a

def deref {α : Type} : Option α → Except Stop α
  | none => .error .fault
  | some a => .ok a

theorem need_ok {α : Type} {o : Option α} {a : α} : need o = .ok a ↔ o = some a := by
  cases o <;> simp [need]

theorem deref_ok {α : Type} {o : Option α} {a : α} : deref o = .ok a ↔ o = some a := by
  cases o <;> simp [deref]

theorem ok_of_isSome {α : Type} {x : Except Stop α} (some' : x.toOption.isSome = true) :
    ∃ a, x = .ok a := by
  cases x with
  | error stop => cases some'
  | ok a => exact ⟨a, rfl⟩

theorem bind_ok {α β : Type} {x : Except Stop α} {f : α → Except Stop β} {b : β} :
    (x >>= f) = .ok b ↔ ∃ a, x = .ok a ∧ f a = .ok b := by
  cases x with
  | error stop => simp [bind, Except.bind]
  | ok a => simp [bind, Except.bind]

theorem mapM_eq_some {α β : Type} {f : α → Option β} {l : List α} {out : List β} :
    l.mapM f = some out ↔ l.map f = out.map some := by
  induction l generalizing out with
  | nil =>
    rw [List.mapM_nil, List.map_nil, eq_comm (a := []), List.map_eq_nil_iff]
    exact ⟨fun same => (Option.some.inj same).symm, fun same => congrArg some same.symm⟩
  | cons a l ih =>
    rw [List.mapM_cons, List.map_cons, eq_comm (a := f a :: l.map f), List.map_eq_cons_iff]
    constructor
    · intro mapped
      obtain ⟨b, first, mapped⟩ := Option.bind_eq_some_iff.mp mapped
      obtain ⟨bs, rest, mapped⟩ := Option.bind_eq_some_iff.mp mapped
      exact ⟨b, bs, (Option.some.inj mapped).symm, first.symm, (ih.mp rest).symm⟩
    · rintro ⟨b, bs, rfl, first, rest⟩
      rw [← first, ih.mpr rest.symm]
      rfl

/-! ## Files -/

structure FileEntry where
  path : List UInt8
  rlba : Nat
  size : Nat
  multipart : Bool
deriving DecidableEq

/-- What stands behind the last dot. -/
def extension (name : List UInt8) : Option (List UInt8) :=
  if name.contains 46 then some (name.reverse.takeWhile (· != 46)).reverse else none

/-- The two digits of a name that ends in `.666` and two digits. -/
def partDigits (name : List UInt8) : Option (UInt8 × UInt8) :=
  match extension name with
  | some [a, b, c, d, e] =>
    if a = 54 ∧ b = 54 ∧ c = 54 ∧ isDigit d ∧ isDigit e then some (d, e) else none
  | _ => none

/-- The path of part `i`; the two digits are characters. -/
def partPath (base : List UInt8) (i : Nat) : List UInt8 :=
  cString (base ++ ascii ".666" ++ [UInt8.ofNat (48 + i / 10), UInt8.ofNat (48 + i % 10)])

section Stats
variable (stat : List UInt8 → Option Stat)

/-- The loop over the further parts. The paths repeat with period 2560, so it
ends within that many steps or not at all. -/
def partsSize (base : List UInt8) : Nat → Nat → Nat → Except Stop Nat
  | 0, _, _ => .error .fault
  | fuel + 1, i, size =>
    match stat (partPath base i) with
    | none => .ok size
    | some s => partsSize base fuel (i + 1) (size + s.size)

/-- The size, and the path with `.66600` cut off. -/
def getFileSizeAndProcessMultipart (file : List UInt8) : Except Stop (Nat × List UInt8) := do
  let s ← need (stat file)
  if extension file = some (ascii "66600") then
    let base := file.take (file.length - 6)
    let size ← partsSize stat base 2561 1 s.size
    pure (size, base)
  else pure (s.size, file)

/-- No entry for a part but the first; whether the entry is a multipart one. -/
def entryKind (name : List UInt8) : Option Bool :=
  match partDigits name with
  | none => some false
  | some digits => if digits = (48, 48) then some true else none

/-- The names of one directory from number `i` on; `linked` says whether the list
of the directory has a node to link to. -/
def listFilesFrom (dir : List UInt8) :
    Nat → Bool → Nat → List (List UInt8) → Except Stop (List FileEntry × Nat)
  | _, _, sectors, [] => .ok ([], sectors)
  | i, linked, sectors, name :: names =>
    match entryKind name with
    | none => listFilesFrom dir (i + 1) linked sectors names
    | some multipart =>
      if i ≠ 0 ∧ linked = false then .error .fault
      else do
        let (size, path) ← getFileSizeAndProcessMultipart stat (createPath dir name)
        let (entries, last) ←
          listFilesFrom dir (i + 1) true ((sectors + bytesToSectors size) % 2 ^ 32) names
        pure (⟨path, sectors, size, multipart⟩ :: entries, last)

/-- The second loop of `build`, `sectors` being `filesSizeSectors`. -/
def listFiles : List Dir → Nat → Except Stop (List (List FileEntry) × Nat)
  | [], sectors => .ok ([], sectors)
  | d :: dirs, sectors => do
    let (entries, sectors) ← listFilesFrom stat d.path 0 false sectors d.tree.files
    let (rest, sectors) ← listFiles dirs sectors
    pure (entries :: rest, sectors)

/-! ## Directory contents -/

def multiextentPartSize : Nat := 0xFFFFF800

/-- The number of records for a file. -/
def partsOf (size : Nat) : Nat :=
  if size > 0xFFFFFFFF then
    size / multiextentPartSize + if size % multiextentPartSize = 0 then 0 else 1
  else 1

/-- Every file has a record. -/
theorem partsOf_pos (size : Nat) : 0 < partsOf size := by
  rw [partsOf, multiextentPartSize]
  split
  · rename_i long
    have : 0 < size / 0xFFFFF800 := Nat.div_pos (by omega) (by decide)
    omega
  · decide

def fileRecord (joliet : Bool) (time : RecordTime) (e : FileEntry) (i : Nat) : Record where
  start := (e.rlba + i * bytesToSectors multiextentPartSize) % 2 ^ 32
  length :=
    if i + 1 = partsOf e.size then (e.size - i * multiextentPartSize) % 2 ^ 32
    else multiextentPartSize
  time := time
  flags := if i + 1 = partsOf e.size then 0 else isoMultiextent
  ident := fileIdent joliet (baseName e.path)

def fileRecords (joliet : Bool) (e : FileEntry) : Option (List Record) := do
  let s ← stat (if e.multipart then e.path ++ ascii ".66600" else e.path)
  pure ((List.range (partsOf e.size)).map (fileRecord joliet s.mtime e))

def dirRecord (joliet : Bool) (d : Dir) : Option Record := do
  let s ← stat d.path
  pure ⟨0, 0, s.mtime, isoDirectory, dirIdent joliet (baseName d.path)⟩

/-- The directory records behind the records of the files. -/
def childRecords (joliet : Bool) (dirs : List Dir) (i : Nat) : Option (List Record) :=
  (childDirs dirs i).mapM (dirRecord stat joliet)

def dotRecord (start : Nat) (time : RecordTime) : Record := ⟨start, 0, time, isoDirectory, [0]⟩

def dotDotRecord (time : RecordTime) : Record := ⟨0, 0, time, isoDirectory, [1]⟩

/-- The contents made so far, in the order of the list, and `dirsSizeSectors` or
`dirsSizeSectorsJoliet`. -/
structure Pass where
  contents : List (List UInt8)
  sectors : Nat

def buildContent (joliet : Bool) (tempBufSize : Nat) (dirs : List Dir) (files : List FileEntry)
    (st : Pass) (i : Nat) (d : Dir) : Except Stop Pass := do
  let parent := getParent dirs i
  let own ← need (stat d.path)
  -- `parentRecord`; the content of a directory not yet built is a null pointer
  let parentRecord ← if parent = i then pure none else (deref st.contents[parent]?).map some
  let above ← need (dirs[parent]?.bind (fun p => stat p.path))
  let dot := (dotRecord st.sectors own.mtime).bytes
  let dotDot :=
    match parentRecord with
    | none => (dotDotRecord above.mtime).bytes
    | some content => setExtent (dotDotRecord above.mtime).bytes 0 (getExtent content 0)
  let entries ← need (files.mapM (fileRecords stat joliet))
  let children ← need (childRecords stat joliet dirs i)
  let placed ← need (placeAll tempBufSize ((entries.flatten ++ children).map Record.bytes)
    (dot ++ dotDot))
  let size := (placed.length + 0x7ff) / 0x800 * 0x800
  let content := setExtent (placed ++ List.replicate (size - placed.length) 0) 0
    (extentBytes st.sectors size)
  let sectors := (st.sectors + bytesToSectors size) % 2 ^ 32
  match parentRecord with
  | none => pure ⟨st.contents ++ [setExtent content 0x28 (getExtent content 0)], sectors⟩
  | some above =>
    let childRecord ← need (findDirRecord (strCheck joliet (baseName d.path)) above)
    pure ⟨st.contents.set parent (setExtent above childRecord (getExtent content 0)) ++ [content],
      sectors⟩

def buildContents (joliet : Bool) (tempBufSize : Nat) (dirs : List Dir)
    (files : List (List FileEntry)) : Nat → List Dir → Pass → Except Stop Pass
  | _, [], st => pure st
  | i, d :: rest, st => do
    let st ← buildContent stat joliet tempBufSize dirs (files.getD i []) st i d
    buildContents joliet tempBufSize dirs files (i + 1) rest st

end Stats

/-! ## Path tables -/

def tableIdent (joliet : Bool) (i : Nat) (d : Dir) : List UInt8 :=
  if i = 0 then [0] else dirIdent joliet (baseName d.path)

/-- How far the entry and the writes behind it reach: `strncpy` fills up with
zeros, and `strlen` looks for a terminator. -/
def tableReach (joliet : Bool) (i : Nat) (ident : List UInt8) : Nat :=
  if i = 0 then 9
  else if joliet then 8 + ident.length
  else 8 + max maxIsoDir (ident.length + 1)

def tableEntry (msb : Bool) (record : List UInt8) (parentIdx : Nat) (ident : List UInt8) :
    List UInt8 :=
  [UInt8.ofNat ident.length, 0] ++
    (if msb then (record.drop 6).take 4 else (record.drop 2).take 4) ++
    (if msb then beBytes 2 parentIdx else leBytes 2 parentIdx) ++
    (ident ++ List.replicate (ident.length % 2) 0)

def tableFrom (msb joliet : Bool) (tempBufSize : Nat) (dirs : List Dir)
    (contents : List (List UInt8)) : Nat → List Dir → List UInt8 → Except Stop (List UInt8)
  | _, [], table => pure table
  | i, d :: rest, table => do
    let record ← deref contents[i]?
    let ident := tableIdent joliet i d
    if table.length + tableReach joliet i ident > tempBufSize then .error .fault
    else
      let parentIdx := getParent dirs i + 1
      tableFrom msb joliet tempBufSize dirs contents (i + 1) rest
        (table ++ tableEntry msb record parentIdx ident)

def buildPathTable (msb joliet : Bool) (tempBufSize : Nat) (dirs : List Dir)
    (contents : List (List UInt8)) : Except Stop (List UInt8) :=
  tableFrom msb joliet tempBufSize dirs contents 0 (dirs.take 65536) []

/-- The addition to `dirLocation` of the entry at the head. -/
def fixTableEntry (dirLba : Nat) (msb : Bool) (rest : List UInt8) : List UInt8 :=
  let location := (rest.drop 2).take 4
  rest.take 2 ++
    (if msb then beBytes 4 (beValue location + dirLba)
      else leBytes 4 (leValue location + dirLba)) ++
    rest.drop 6

def fixTableFrom (dirLba : Nat) (msb : Bool) : Nat → List UInt8 → List UInt8
  | 0, rest => rest
  | _ + 1, [] => []
  | fuel + 1, lenDi :: rest =>
    let fixed := fixTableEntry dirLba msb (lenDi :: rest)
    let len := 8 + lenDi.toNat + lenDi.toNat % 2
    fixed.take len ++ fixTableFrom dirLba msb fuel (fixed.drop len)

def fixPathTableLba (pathTable : List UInt8) (dirLba : Nat) (msb : Bool) : List UInt8 :=
  fixTableFrom dirLba msb pathTable.length pathTable

/-! ## The image tables -/

/-- The contents and path tables of the ISO or of the Joliet tree. -/
structure Hierarchy where
  contents : List (List UInt8)
  sectors : Nat
  pathTableL : List UInt8
  pathTableM : List UInt8

structure Image where
  dirs : List Dir
  files : List (List FileEntry)
  filesSizeSectors : Nat
  iso : Hierarchy
  joliet : Hierarchy

def Image.hierarchy (m : Image) (joliet : Bool) : Hierarchy := if joliet then m.joliet else m.iso

/-- The sector of the first path table. -/
def tablesLba : Nat := 0xA000 / 0x800

def Image.isoLba (m : Image) : Nat :=
  (tablesLba + bytesToSectors m.iso.pathTableM.length * 2 +
    bytesToSectors m.joliet.pathTableM.length * 2) % 2 ^ 32

def Image.jolietLba (m : Image) : Nat := (m.isoLba + m.iso.sectors) % 2 ^ 32

def Image.filesLba (m : Image) : Nat := (m.jolietLba + m.joliet.sectors) % 2 ^ 32

def Hierarchy.fixLba (t : Hierarchy) (dirLba filesLba : Nat) : Hierarchy where
  contents := t.contents.map (fun content => fixDirLba content dirLba filesLba)
  sectors := t.sectors
  pathTableL := fixPathTableLba t.pathTableL dirLba false
  pathTableM := fixPathTableLba t.pathTableM dirLba true

def Image.fixLba (m : Image) (isoLba jolietLba filesLba : Nat) : Image :=
  { m with
    iso := m.iso.fixLba isoLba filesLba
    joliet := m.joliet.fixLba jolietLba filesLba }

def build (stat : List UInt8 → Option Stat) (tempBufSize : Nat) (inDir : List UInt8)
    (tree : SourceTree) : Except Stop Image := do
  let dirs := listDirs inDir tree
  if dirs.any (fun d => !d.tree.opens) then .error .failed
  else
    let (files, filesSizeSectors) ← listFiles stat dirs 0
    let iso ← buildContents stat false tempBufSize dirs files 0 dirs ⟨[], 0⟩
    let joliet ← buildContents stat true tempBufSize dirs files 0 dirs ⟨[], 0⟩
    let pathTableL ← buildPathTable false false tempBufSize dirs iso.contents
    let pathTableM ← buildPathTable true false tempBufSize dirs iso.contents
    let pathTableJolietL ← buildPathTable false true tempBufSize dirs joliet.contents
    let pathTableJolietM ← buildPathTable true true tempBufSize dirs joliet.contents
    let m : Image := ⟨dirs, files, filesSizeSectors,
      ⟨iso.contents, iso.sectors, pathTableL, pathTableM⟩,
      ⟨joliet.contents, joliet.sectors, pathTableJolietL, pathTableJolietM⟩⟩
    pure (m.fixLba m.isoLba m.jolietLba m.filesLba)

end ImageBuild
