import NtfsIsoMounter.ImageBuild
import NtfsIsoMounter.SplitOutput

/-!
# Writing the image

`write` emits the objects of an image one after another and tells the progress
function how far it is. What it emits depends on the tables and on the source
files alone, so it is a list of steps; the output files and the cancel flag decide
how far along the list a run gets. `generate` builds, counts the parts, writes, and
removes the parts of a run that failed.
-/

namespace ImageWriter

open ByteOrder CText SourceTrees DirectoryRecords ImageBuild SplitOutput

/-! ## Volume descriptors -/

/-- The members of `struct tm` in use; the year counts from 0. -/
structure Tm where
  year : Nat
  month : Nat
  day : Nat
  hour : Nat
  minute : Nat
  second : Nat

/-- `genIso9660TimePvd`: `'0'` is added to all but the last number. -/
def genIso9660TimePvd (t : Tm) : List UInt8 :=
  [t.year / 1000, t.year % 1000 / 100, t.year % 100 / 10, t.year % 10,
    if t.month ≥ 10 then 1 else 0, t.month % 10, t.day / 10, t.day % 10, t.hour / 10, t.hour % 10,
    t.minute / 10, t.minute % 10, t.second / 10, t.second % 10, 0, 0].map
      (fun n => UInt8.ofNat (48 + n)) ++ [0]

def zeros (n : Nat) : List UInt8 := List.replicate n 0

/-- The volume identifier of the ISO or of the Joliet descriptor. -/
def volumeIdentifier (joliet : Bool) (volumeName : List UInt8) : List UInt8 :=
  let name := if joliet then utf8ToUcs2 16 volumeName else upperName volumeName 32
  name ++ List.replicate (32 - name.length) (if joliet then 0 else 32)

/-- An `Iso9660PVD`, member by member, up to the root directory record. -/
def descriptorFront (joliet : Bool) (volumeName : List UInt8) (volumeSize pathTableSize lsbTable
    msbTable : Nat) : List UInt8 :=
  [if joliet then 2 else 1] ++ ascii "CD001" ++ [1, 0] ++
    List.replicate 32 (if joliet then 0 else 32) ++ volumeIdentifier joliet volumeName ++ zeros 8 ++
    leBytes 4 volumeSize ++ beBytes 4 volumeSize ++
    (if joliet then ascii "%/@" ++ zeros 29 else zeros 32) ++
    leBytes 2 1 ++ beBytes 2 1 ++ leBytes 2 1 ++ beBytes 2 1 ++ leBytes 2 0x800 ++
      beBytes 2 0x800 ++
    leBytes 4 pathTableSize ++ beBytes 4 pathTableSize ++
    leBytes 4 lsbTable ++ zeros 4 ++ beBytes 4 msbTable ++ zeros 4

/-- The members behind the root directory record. -/
def descriptorBack (joliet : Bool) (volumeName : List UInt8) (t : Tm) : List UInt8 :=
  let blank : UInt8 := if joliet then 0 else 32
  volumeIdentifier joliet volumeName ++ List.replicate 96 blank ++ List.replicate 384 blank ++
    List.replicate 111 blank ++ genIso9660TimePvd t ++
    (List.replicate 16 48 ++ [0]) ++ (List.replicate 16 48 ++ [0]) ++
    (List.replicate 16 48 ++ [0]) ++
    [1] ++ zeros 1166

/-- The root record is that of the root directory with a length of its own. -/
def descriptor (joliet : Bool) (volumeName : List UInt8) (t : Tm) (volumeSize pathTableSize lsbTable
    msbTable : Nat) (content : List UInt8) : List UInt8 :=
  descriptorFront joliet volumeName volumeSize pathTableSize lsbTable msbTable ++
    34 :: (content.take 34).drop 1 ++ descriptorBack joliet volumeName t

/-! ## Sizes -/

def systemArea : Nat := 0x8000

/-- The sectors in front of the files, computed in 32 bits. -/
def Image.frontSectors (m : Image) : Nat :=
  (tablesLba + bytesToSectors m.iso.pathTableM.length * 2 +
    bytesToSectors m.joliet.pathTableM.length * 2 + m.iso.sectors + m.joliet.sectors) % 2 ^ 32

/-- `volumeSize` before the pad is added. -/
def Image.usedSectors (m : Image) : Nat := (Image.frontSectors m + m.filesSizeSectors) % 2 ^ 32

def Image.padSectors (m : Image) : Nat :=
  0x20 + if Image.usedSectors m % 0x20 ≠ 0 then 0x20 - Image.usedSectors m % 0x20 else 0

def Image.volumeSize (m : Image) : Nat := (Image.usedSectors m + Image.padSectors m) % 2 ^ 32

def Image.totalSize (m : Image) : Nat := Image.volumeSize m * 0x800

/-! ## Steps -/

/-- A call of `writeOutputFile`, a call of the progress function with the position,
`return false`, or a null pointer or the end of a buffer. -/
inductive Step where
  | write (buf : List UInt8)
  | progress (current : Nat)
  | fail
  | fault

/-- What successive calls of `fread` return for a file that can be opened, up to the
first that returns nothing. -/
abbrev Sources := List UInt8 → Option (List (List UInt8))

/-- Up to the next sector. -/
def fillSector (n : Nat) : Nat := (0x800 - n % 0x800) % 0x800

/-- The loop over a file that is not a multipart one: each piece read is filled up. -/
def pieceSteps : Nat → List (List UInt8) → List Step × Nat
  | current, [] => ([], current)
  | current, piece :: pieces =>
    let buf := piece ++ zeros (fillSector piece.length)
    let (steps, last) := pieceSteps (current + buf.length) pieces
    (.write buf :: .progress (current + buf.length) :: steps, last)

/-- The loop over the pieces of a part. -/
def partPieceSteps : Nat → List (List UInt8) → List Step × Nat
  | current, [] => ([], current)
  | current, piece :: pieces =>
    let (steps, last) := partPieceSteps (current + piece.length) pieces
    (.write piece :: .progress (current + piece.length) :: steps, last)

/-- The parts from number `i` on. Part 2540 has a dot for a digit, and in front of
the part behind it the digits are stored past the end of the path. -/
def partSteps (fopen : Sources) (base : List UInt8) : Nat → Nat → Nat → List Step × Nat
  | 0, _, current => ([.fault], current)
  | fuel + 1, i, current =>
    match fopen (partPath base i) with
    | none => (if i = 0 then [.fail] else [], current)
    | some pieces =>
      let (steps, next) := partPieceSteps current pieces
      let (more, last) := partSteps fopen base fuel (i + 1) next
      (steps ++ more, last)

/-- The end of a multipart file is filled up. -/
def fillSteps (current : Nat) : List Step × Nat :=
  if current % 0x800 ≠ 0 then
    let rem := 0x800 - current % 0x800
    ([.write (zeros rem), .progress (current + rem)], current + rem)
  else ([], current)

def fileSteps (fopen : Sources) (current : Nat) (e : FileEntry) : List Step × Nat :=
  if e.multipart then
    let (steps, next) := partSteps fopen e.path 2541 0 current
    let (fill, last) := fillSteps next
    (steps ++ fill, last)
  else
    match fopen e.path with
    | none => ([.fault], current)
    | some pieces => pieceSteps current pieces

def filesSteps (fopen : Sources) : Nat → List FileEntry → List Step × Nat
  | current, [] => ([], current)
  | current, e :: rest =>
    let (steps, next) := fileSteps fopen current e
    let (more, last) := filesSteps fopen next rest
    (steps ++ more, last)

/-- A path table, filled up to whole sectors in `ioBuf`. -/
def tableSteps (ioBufSize : Nat) (table : List UInt8) : List Step :=
  let size := bytesToSectors table.length * 0x800
  if max size table.length > ioBufSize then [.fault]
  else [.write ((table ++ zeros (size - table.length)).take size)]

/-- `write` from the system area to the last directory. -/
def frontSteps (ioBufSize : Nat) (volumeName : List UInt8) (t : Tm) (m : Image) : List Step :=
  let isoTables := bytesToSectors m.iso.pathTableM.length
  let jolietTables := bytesToSectors m.joliet.pathTableM.length
  [.write (zeros systemArea),
    .write (descriptor false volumeName t (Image.volumeSize m) m.iso.pathTableM.length tablesLba
      (tablesLba + isoTables) (m.iso.contents.headD [])),
    .write (descriptor true volumeName t (Image.volumeSize m) m.joliet.pathTableM.length
      (tablesLba + isoTables * 2) (tablesLba + isoTables * 2 + jolietTables)
      (m.joliet.contents.headD [])),
    .write (255 :: ascii "CD001" ++ zeros 0x7fa), .write (zeros 0x800)] ++
  tableSteps ioBufSize m.iso.pathTableL ++ tableSteps ioBufSize m.iso.pathTableM ++
  tableSteps ioBufSize m.joliet.pathTableL ++ tableSteps ioBufSize m.joliet.pathTableM ++
  m.iso.contents.map .write ++ m.joliet.contents.map .write

/-- What `write` does as long as nothing fails. -/
def writeSteps (ioBufSize : Nat) (volumeName : List UInt8) (t : Tm) (fopen : Sources) (m : Image) :
    List Step :=
  let current := Image.frontSectors m * 0x800
  let (files, last) := filesSteps fopen current m.files.flatten
  let pad := Image.padSectors m * 0x800
  frontSteps ioBufSize volumeName t m ++ .progress current :: files ++
    [.write (zeros pad), .progress (last + pad)]

/-! ## A run -/

/-- The progress function: whether the cancel flag is set after its k-th call, given
the position and the total. -/
abbrev Progress := Nat → Nat → Nat → Bool

/-- The steps until one returns false; `none` where the behaviour is undefined. -/
def runSteps (disk : Disk) (progress : Progress) (totalSize numOfParts : Nat)
    (partitionSize : Int) :
    Nat → Output → List Step → Option (Bool × Output)
  | _, o, [] => some (true, o)
  | k, o, .write buf :: rest =>
    match writeOutputFile disk numOfParts partitionSize o buf with
    | none => none
    | some (false, o) => some (false, o)
    | some (true, o) => runSteps disk progress totalSize numOfParts partitionSize k o rest
  | k, o, .progress current :: rest =>
    if progress k current totalSize then some (false, o)
    else runSteps disk progress totalSize numOfParts partitionSize (k + 1) o rest
  | _, o, .fail :: _ => some (false, o)
  | _, _, .fault :: _ => none

/-- A write that has a result. -/
theorem runSteps_write {disk : Disk} {progress : Progress} {totalSize numOfParts k : Nat}
    {partitionSize : Int} {o o' : Output} {buf : List UInt8} {ok : Bool} (rest : List Step)
    (run : writeOutputFile disk numOfParts partitionSize o buf = some (ok, o')) :
    runSteps disk progress totalSize numOfParts partitionSize k o (.write buf :: rest) =
      if ok then runSteps disk progress totalSize numOfParts partitionSize k o' rest
      else some (false, o') := by
  rw [runSteps, run]
  cases ok with
  | false => rfl
  | true => rfl

theorem runSteps_progress {disk : Disk} {progress : Progress} {totalSize numOfParts : Nat}
    {partitionSize : Int} (k : Nat) (o : Output) (current : Nat) (rest : List Step) :
    runSteps disk progress totalSize numOfParts partitionSize k o (.progress current :: rest) =
      if progress k current totalSize then some (false, o)
      else runSteps disk progress totalSize numOfParts partitionSize (k + 1) o rest := by
  rw [runSteps]

/-- The `int` that holds the number of parts. -/
def partCount (partitionSize : Int) (totalSize : Nat) : Int :=
  if partitionSize ≠ 0 then
    let n := Int.bmod ((totalSize : Int).tdiv partitionSize) (2 ^ 32)
    if (totalSize : Int).tmod partitionSize ≠ 0 then Int.bmod (n + 1) (2 ^ 32) else n
  else 1

def partName (outFile : List UInt8) (i : Nat) : List UInt8 := outFile ++ 46 :: padded 0 i

/-- What a call leaves: its result, whether `write` came to its end, the files it
created and the files it removed, the size of the buffer `outFilePath` and the strings
stored in it. -/
structure Outcome where
  code : Int
  completed : Bool
  created : List (List UInt8)
  unlinked : List (List UInt8)
  bufferSize : Nat
  names : List (List UInt8)

def errorOutput : Int := -0x8000
def errorInput : Int := -0x7FFF

/-- The output files with the first `n` numbers; a single one has no number. -/
def outputNames (outFile : List UInt8) (parts : Int) (n : Nat) : List (List UInt8) :=
  if parts = 1 then [outFile] else (List.range n).map (partName outFile)

def nameBuffer (outFile : List UInt8) (parts : Int) : Nat :=
  if parts = 1 then outFile.length + 1 else outFile.length + 4

/-- The end of `generate`, after `write`. -/
def finish (outFile : List UInt8) (parts : Int) (run : Bool × Output) : Outcome :=
  let created := outputNames outFile parts run.2.parts.length
  let stored := outputNames outFile parts (min (run.2.currentPart + 1) 100)
  let unlinked := outputNames outFile parts parts.toNat
  if run.1 then ⟨0, true, created, [], nameBuffer outFile parts, stored⟩
  else ⟨errorOutput, false, created, unlinked, nameBuffer outFile parts, stored ++ unlinked⟩

/-- `generate` on an object whose buffers are set; `none` where the behaviour is
undefined. -/
def generate (stat : List UInt8 → Option Stat) (tempBufSize ioBufSize : Nat) (fopen : Sources)
    (disk : Disk) (progress : Progress) (partitionSize : Int) (t : Tm) (inDir : List UInt8)
    (tree : SourceTree) (outFile volumeName : List UInt8) : Option Outcome :=
  match build stat tempBufSize inDir tree with
  | .error .fault => none
  | .error .failed => some ⟨errorInput, false, [], [], 0, []⟩
  | .ok m =>
    let parts := partCount partitionSize (Image.totalSize m)
    if disk.fopen 0 = false then
      some ⟨errorOutput, false, [], [], nameBuffer outFile parts, outputNames outFile parts 1⟩
    else
      (runSteps disk progress (Image.totalSize m) parts.toNat partitionSize 0 opened
        (writeSteps ioBufSize volumeName t fopen m)).map (finish outFile parts)

end ImageWriter
