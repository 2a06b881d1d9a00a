import NtfsIsoMounter.FileLists
import NtfsIsoMounter.MultiExtents
import NtfsIsoMounter.PieceLayout
import NtfsIsoMounter.WorkBuffers

/-!
# Where the objects of an image stand

`write` emits the system area and the descriptors, the four path tables, the contents of
both trees, the files and the pad. With the objects named, the offset of one of them is
the length of what is emitted before it.
-/

namespace WriteOrder

open ByteOrder CText SourceTrees DirectoryRecords ImageBuild ImageWriter MultiExtents FileLists
  PieceLayout WorkBuffers

/-! ## The objects -/

inductive Object where
  | table (joliet msb : Bool)
  | content (joliet : Bool) (number : Nat)
  | file (number : Nat)
deriving DecidableEq

def pathTable (m : Image) (joliet msb : Bool) : List UInt8 :=
  if msb then (m.hierarchy joliet).pathTableM else (m.hierarchy joliet).pathTableL

/-- The descriptor of one of the trees, as `write` makes it. -/
def volumeDescriptor (joliet : Bool) (volumeName : List UInt8) (t : Tm) (m : Image) : List UInt8 :=
  let isoTables := bytesToSectors m.iso.pathTableM.length
  let jolietTables := bytesToSectors m.joliet.pathTableM.length
  if joliet then
    descriptor true volumeName t (Image.volumeSize m) m.joliet.pathTableM.length
      (tablesLba + isoTables * 2) (tablesLba + isoTables * 2 + jolietTables)
      (m.joliet.contents.headD [])
  else
    descriptor false volumeName t (Image.volumeSize m) m.iso.pathTableM.length tablesLba
      (tablesLba + isoTables) (m.iso.contents.headD [])

/-- What is emitted in front of the tables. -/
def header (volumeName : List UInt8) (t : Tm) (m : Image) : List UInt8 :=
  zeros systemArea ++ (volumeDescriptor false volumeName t m ++
    (volumeDescriptor true volumeName t m ++
    (255 :: ascii "CD001" ++ zeros 0x7fa ++ zeros 0x800)))

/-- A path table, filled up. -/
def tableBytes (table : List UInt8) : List UInt8 :=
  let size := bytesToSectors table.length * 0x800
  (table ++ zeros (size - table.length)).take size

/-- The bytes of the files, the first of them at position `current`. -/
def fileBytes (fopen : Sources) : Nat → List FileEntry → List (List UInt8)
  | _, [] => []
  | current, e :: rest =>
    emitted (fileSteps fopen current e).1 :: fileBytes fopen (fileSteps fopen current e).2 rest

def frontPieces (volumeName : List UInt8) (t : Tm) (m : Image) :
    List (Option Object × List UInt8) :=
  [(none, header volumeName t m),
    (some (.table false false), tableBytes (pathTable m false false)),
    (some (.table false true), tableBytes (pathTable m false true)),
    (some (.table true false), tableBytes (pathTable m true false)),
    (some (.table true true), tableBytes (pathTable m true true))]

/-- The image, object by object. -/
def written (volumeName : List UInt8) (t : Tm) (fopen : Sources) (m : Image) :
    List (Option Object × List UInt8) :=
  frontPieces volumeName t m ++ (numbered (.content false) 0 m.iso.contents ++
    (numbered (.content true) 0 m.joliet.contents ++
      (numbered .file 0 (fileBytes fopen (Image.frontSectors m * 0x800) m.files.flatten) ++
        [(none, zeros (Image.padSectors m * 0x800))])))

theorem emitted_files (fopen : Sources) (current : Nat) (es : List FileEntry) :
    emitted (filesSteps fopen current es).1 = (fileBytes fopen current es).flatten := by
  induction es generalizing current with
  | nil => rfl
  | cons e es ih => simp only [filesSteps, emitted_append, fileBytes, List.flatten_cons, ih]

theorem emitted_map_write (bufs : List (List UInt8)) :
    emitted (bufs.map .write) = bufs.flatten := by
  induction bufs with
  | nil => rfl
  | cons buf bufs ih => rw [List.map_cons, emitted_write, ih, List.flatten_cons]

theorem emitted_table {ioBufSize : Nat} {table : List UInt8} (copied : Copied ioBufSize table) :
    emitted (tableSteps ioBufSize table) = tableBytes table := by
  rw [Copied] at copied
  simp only [tableSteps, if_neg (Nat.not_lt_of_le copied), emitted_write]
  exact List.append_nil _

/-- Tables that stay in the buffer are emitted, and with them all of the image. -/
theorem emitted_writeSteps {ioBufSize : Nat} (volumeName : List UInt8) (t : Tm) (fopen : Sources)
    {m : Image} (copied : ∀ joliet msb, Copied ioBufSize (pathTable m joliet msb)) :
    emitted (writeSteps ioBufSize volumeName t fopen m) =
      output (written volumeName t fopen m) := by
  have tables : ∀ joliet msb, emitted (tableSteps ioBufSize (pathTable m joliet msb)) =
      tableBytes (pathTable m joliet msb) := fun joliet msb => emitted_table (copied joliet msb)
  have isoL := tables false false
  have isoM := tables false true
  have jolietL := tables true false
  have jolietM := tables true true
  simp only [pathTable, Image.hierarchy, Bool.false_eq_true, if_false,
    if_true] at isoL isoM jolietL jolietM
  simp only [writeSteps, frontSteps, emitted_append, emitted_write, emitted_progress, emitted_files,
    emitted_map_write, isoL, isoM, jolietL, jolietM, written, frontPieces, output_append,
    output_cons, output_nil, output_numbered, header, volumeDescriptor, pathTable, Image.hierarchy,
    Bool.false_eq_true, if_false, if_true, List.append_assoc]
  simp [emitted]

/-! ## Files -/

/-- The position goes on by what is written. -/
theorem pieceSteps_position (current : Nat) (pieces : List (List UInt8)) :
    (pieceSteps current pieces).2 = current + (emitted (pieceSteps current pieces).1).length := by
  induction pieces generalizing current with
  | nil => rfl
  | cons piece pieces ih =>
    simp only [pieceSteps, emitted_write, emitted_progress, List.length_append, ih]
    omega

theorem partPieceSteps_position (current : Nat) (pieces : List (List UInt8)) :
    (partPieceSteps current pieces).2 =
      current + (emitted (partPieceSteps current pieces).1).length := by
  induction pieces generalizing current with
  | nil => rfl
  | cons piece pieces ih =>
    simp only [partPieceSteps, emitted_write, emitted_progress, List.length_append, ih]
    omega

theorem partSteps_position (fopen : Sources) (base : List UInt8) (fuel i current : Nat) :
    (partSteps fopen base fuel i current).2 =
      current + (emitted (partSteps fopen base fuel i current).1).length := by
  induction fuel generalizing i current with
  | zero => rfl
  | succ fuel ih =>
    rw [partSteps]
    cases fopen (partPath base i) with
    | none => by_cases first : i = 0 <;> simp [first, emitted]
    | some pieces =>
      simp only [emitted_append, List.length_append, ih, partPieceSteps_position]
      omega

/-- The end of a multipart file is a whole sector. -/
theorem fillSteps_spec (current : Nat) : (fillSteps current).2 = sectorsOf current * 0x800 ∧
    emitted (fillSteps current).1 = zeros (sectorsOf current * 0x800 - current) := by
  rw [fillSteps, sectorsOf]
  split
  · dsimp only
    rw [emitted_write, emitted_progress]
    have rem : 0x800 - current % 0x800 = (current + 0x7ff) / 0x800 * 0x800 - current := by omega
    rw [← rem]
    refine ⟨by omega, ?_⟩
    exact List.append_nil _
  · rename_i whole
    have none' : (current + 0x7ff) / 0x800 * 0x800 - current = 0 := by omega
    rw [none']
    exact ⟨by dsimp only; omega, rfl⟩

theorem fileSteps_position (fopen : Sources) (current : Nat) (e : FileEntry) :
    (fileSteps fopen current e).2 = current + (emitted (fileSteps fopen current e).1).length := by
  rw [fileSteps]
  cases e.multipart with
  | true =>
    simp only [if_true, emitted_append, List.length_append, (fillSteps_spec _).1,
      (fillSteps_spec _).2, zeros, List.length_replicate, partSteps_position]
    rw [sectorsOf]
    omega
  | false =>
    simp only [Bool.false_eq_true, if_false]
    cases fopen e.path with
    | none => rfl
    | some pieces => exact pieceSteps_position current pieces

/-! ## Files that are as they were measured -/

/-- What the run reads of a file has the size that was measured: the file can be opened,
`fread` fills the buffer until the last piece, and all pieces together have that size. -/
structure Unchanged (fopen : Sources) (ioBufSize : Nat) (e : FileEntry) : Prop where
  opens : if e.multipart then (fopen (partPath e.path 0)).isSome ∧
      ∃ i < 2541, fopen (partPath e.path i) = none
    else (fopen e.path).isSome
  reads : ∀ path ∈ streamedFiles fopen e, ∀ piece ∈ ((fopen path).getD []).dropLast,
    piece.length = ioBufSize
  total : ((streamedFiles fopen e).map fun path => ((fopen path).getD []).flatten.length).sum =
    e.size

theorem filled_length (n : Nat) : n + fillSector n = sectorsOf n * 0x800 := by
  rw [fillSector, sectorsOf]
  omega

theorem sectorsOf_add {m : Nat} (n : Nat) (whole : m % 0x800 = 0) :
    sectorsOf (m + n) * 0x800 = m + sectorsOf n * 0x800 := by
  rw [sectorsOf, sectorsOf]
  omega

/-- Only the last piece may need to be filled up. -/
theorem filled_pieces {pieces : List (List UInt8)}
    (whole : ∀ piece ∈ pieces.dropLast, piece.length % 0x800 = 0) :
    (pieces.flatMap fun piece => piece ++ zeros (fillSector piece.length)).length =
      sectorsOf pieces.flatten.length * 0x800 := by
  induction pieces with
  | nil => rfl
  | cons piece pieces ih =>
    rw [List.flatMap_cons, List.length_append, List.length_append, zeros, List.length_replicate,
      filled_length, List.flatten_cons, List.length_append]
    cases pieces with
    | nil => simp only [List.flatMap_nil, List.flatten_nil, List.length_nil, Nat.add_zero]
    | cons next pieces =>
      obtain ⟨here, behind⟩ := List.forall_mem_cons.mp whole
      rw [ih behind, sectorsOf_add _ here]
      have single : sectorsOf piece.length * 0x800 = piece.length := by
        rw [sectorsOf]
        omega
      rw [single]

section Sizes
variable {fopen : Sources} {ioBufSize : Nat} (aligned : ioBufSize % 0x800 = 0)
include aligned

/-- A file takes whole sectors, as many as its measured size needs. -/
theorem Unchanged.emitted_length {e : FileEntry} (unchanged : Unchanged fopen ioBufSize e)
    {current : Nat} (whole : current % 0x800 = 0) :
    (emitted (fileSteps fopen current e).1).length = sectorsOf e.size * 0x800 := by
  obtain ⟨opens, reads, total⟩ := unchanged
  rw [fileSteps]
  rw [streamedFiles] at reads total
  cases kind : e.multipart with
  | true =>
    simp only [kind, if_true] at total ⊢
    have parts := emitted_parts fopen e.path 2541 0 current
    have position := partSteps_position fopen e.path 2541 0 current
    have bytes : (emitted (partSteps fopen e.path 2541 0 current).1).length = e.size := by
      rw [parts, List.length_flatMap]
      exact total
    rw [emitted_append, List.length_append, (fillSteps_spec _).2, zeros, List.length_replicate,
      position, bytes, sectorsOf_add _ whole]
    have enough : e.size ≤ sectorsOf e.size * 0x800 := by
      rw [sectorsOf]
      omega
    omega
  | false =>
    simp only [kind, Bool.false_eq_true, if_false] at opens reads total ⊢
    obtain ⟨pieces, found⟩ := Option.isSome_iff_exists.mp opens
    simp only [found, Option.isSome_some, if_true, List.mem_singleton, forall_eq, Option.getD_some,
      List.map_cons, List.map_nil, List.sum_cons, List.sum_nil, Nat.add_zero] at reads total ⊢
    rw [emitted_pieces, filled_pieces, total]
    intro piece hpiece
    rw [reads piece hpiece]
    exact aligned

theorem fileBytes_lengths {es : List FileEntry} (unchanged : ∀ e ∈ es, Unchanged fopen ioBufSize e)
    {current : Nat} (whole : current % 0x800 = 0) :
    (fileBytes fopen current es).map List.length = es.map fun e => sectorsOf e.size * 0x800 := by
  induction es generalizing current with
  | nil => rfl
  | cons e es ih =>
    obtain ⟨here, behind⟩ := List.forall_mem_cons.mp unchanged
    have length := here.emitted_length aligned whole
    have next : (fileSteps fopen current e).2 % 0x800 = 0 := by
      rw [fileSteps_position, length]
      omega
    rw [fileBytes, List.map_cons, List.map_cons, length, ih behind next]

theorem fileBytes_getElem? {es : List FileEntry} (unchanged : ∀ e ∈ es, Unchanged fopen ioBufSize e)
    {current : Nat} (whole : current % 0x800 = 0) {n : Nat} {e : FileEntry}
    (here : es[n]? = some e) :
    ∃ bytes current', current' % 0x800 = 0 ∧ (fileBytes fopen current es)[n]? = some bytes ∧
      bytes = emitted (fileSteps fopen current' e).1 := by
  induction es generalizing current n with
  | nil => cases here
  | cons first es ih =>
    obtain ⟨own, behind⟩ := List.forall_mem_cons.mp unchanged
    cases n with
    | zero =>
      cases here
      exact ⟨_, current, whole, rfl, rfl⟩
    | succ n =>
      rw [List.getElem?_cons_succ] at here
      have next : (fileSteps fopen current first).2 % 0x800 = 0 := by
        rw [fileSteps_position, own.emitted_length aligned whole]
        omega
      exact ih behind next here

end Sizes

/-! ## Descriptors -/

theorem volumeIdentifier_length (joliet : Bool) (volumeName : List UInt8) :
    (volumeIdentifier joliet volumeName).length = 32 := by
  have short :
      (if joliet then utf8ToUcs2 16 volumeName else upperName volumeName 32).length ≤ 32 := by
    cases joliet with
    | true => exact RecordPasses.utf8ToUcs2_length 16 volumeName
    | false =>
      rw [if_neg Bool.false_ne_true, upperName, List.length_map, List.length_take]
      exact Nat.min_le_left _ _
  rw [volumeIdentifier, List.length_append, List.length_replicate]
  omega

theorem descriptorFront_split (joliet : Bool) (volumeName : List UInt8)
    (volumeSize pathTableSize lsbTable msbTable : Nat) : ∃ front, front.length = 140 ∧
      descriptorFront joliet volumeName volumeSize pathTableSize lsbTable msbTable =
        front ++ (leBytes 4 lsbTable ++ (zeros 4 ++ (beBytes 4 msbTable ++ zeros 4))) := by
  have name := volumeIdentifier_length joliet volumeName
  have escape : (if joliet then ascii "%/@" ++ zeros 29 else zeros 32).length = 32 := by
    cases joliet <;> rfl
  refine ⟨[if joliet then 2 else 1] ++ ascii "CD001" ++ [1, 0] ++
    List.replicate 32 (if joliet then 0 else 32) ++ volumeIdentifier joliet volumeName ++ zeros 8 ++
    leBytes 4 volumeSize ++ beBytes 4 volumeSize ++
    (if joliet then ascii "%/@" ++ zeros 29 else zeros 32) ++
    leBytes 2 1 ++ beBytes 2 1 ++ leBytes 2 1 ++ beBytes 2 1 ++ leBytes 2 0x800 ++
      beBytes 2 0x800 ++
    leBytes 4 pathTableSize ++ beBytes 4 pathTableSize, ?_, ?_⟩
  · simp only [List.length_append, List.length_replicate, leBytes_length, beBytes_length, name,
      zeros]
    simp only [zeros] at escape
    rw [escape]
    rfl
  · have regroup : ∀ x a b c d : List UInt8,
        x ++ a ++ b ++ c ++ d = x ++ (a ++ (b ++ (c ++ d))) := by
      intro x a b c d
      simp only [List.append_assoc]
    exact regroup _ _ _ _ _

theorem descriptorBack_length (joliet : Bool) (volumeName : List UInt8) (t : Tm) :
    (descriptorBack joliet volumeName t).length = 1858 := by
  have name := volumeIdentifier_length joliet volumeName
  simp only [descriptorBack, List.length_append, List.length_replicate, name, zeros,
    genIso9660TimePvd, List.length_map, List.length_cons, List.length_nil]

/-- The pointers of a descriptor, its root record and what stands behind them. -/
theorem descriptor_split (joliet : Bool) (volumeName : List UInt8) (t : Tm)
    (volumeSize pathTableSize lsbTable msbTable : Nat) (content : List UInt8) :
    ∃ front back, front.length = 140 ∧ back.length = 1858 ∧
      descriptor joliet volumeName t volumeSize pathTableSize lsbTable msbTable content =
        front ++ (leBytes 4 lsbTable ++ (zeros 4 ++ (beBytes 4 msbTable ++ (zeros 4 ++
          (34 :: (content.take 34).drop 1 ++ back))))) := by
  obtain ⟨front, length, split⟩ :=
    descriptorFront_split joliet volumeName volumeSize pathTableSize lsbTable msbTable
  refine ⟨front, _, length, descriptorBack_length joliet volumeName t, ?_⟩
  rw [descriptor, split]
  simp only [List.append_assoc]

/-! ## Sizes -/

/-- The sectors of an image, not cut to 32 bits. -/
def imageSectors (m : Image) : Nat :=
  tablesLba + sectorsOf m.iso.pathTableM.length * 2 + sectorsOf m.joliet.pathTableM.length * 2 +
    (m.iso.contents.map fun c => sectorsOf c.length).sum +
    (m.joliet.contents.map fun c => sectorsOf c.length).sum +
    (m.files.flatten.map fun e => sectorsOf e.size).sum + Image.padSectors m

/-- The counts of an image are those of its tables, contents and files. -/
structure Measured (m : Image) : Prop where
  tables : ∀ joliet, (m.hierarchy joliet).pathTableL.length = (m.hierarchy joliet).pathTableM.length
  whole : ∀ joliet, ∀ c ∈ (m.hierarchy joliet).contents, c.length % 0x800 = 0
  first : ∀ joliet, 34 ≤ ((m.hierarchy joliet).contents.headD []).length
  sectors : ∀ joliet, (m.hierarchy joliet).sectors =
    ((m.hierarchy joliet).contents.map fun c => sectorsOf c.length).sum % 2 ^ 32
  files : m.filesSizeSectors = (m.files.flatten.map fun e => sectorsOf e.size).sum % 2 ^ 32

section Exact
variable {m : Image} (measured : Measured m) (few : imageSectors m < 2 ^ 32)
include measured few

omit measured in
theorem tables_exact (joliet : Bool) : bytesToSectors (m.hierarchy joliet).pathTableM.length =
    sectorsOf (m.hierarchy joliet).pathTableM.length := by
  rw [bytesToSectors_eq]
  apply Nat.mod_eq_of_lt
  rw [imageSectors] at few
  cases joliet with
  | false =>
    change sectorsOf m.iso.pathTableM.length < _
    omega
  | true =>
    change sectorsOf m.joliet.pathTableM.length < _
    omega

/-- Nothing is lost in 32 bits. -/
theorem lbas_exact :
    m.isoLba = tablesLba + sectorsOf m.iso.pathTableM.length * 2 +
      sectorsOf m.joliet.pathTableM.length * 2 ∧
    m.jolietLba = m.isoLba + (m.iso.contents.map fun c => sectorsOf c.length).sum ∧
    m.filesLba = m.jolietLba + (m.joliet.contents.map fun c => sectorsOf c.length).sum ∧
    Image.frontSectors m = m.filesLba ∧
    Image.usedSectors m =
      m.filesLba + (m.files.flatten.map fun e => sectorsOf e.size).sum ∧
    Image.volumeSize m = imageSectors m := by
  have isoTable : bytesToSectors m.iso.pathTableM.length = sectorsOf m.iso.pathTableM.length :=
    tables_exact few false
  have jolietTable : bytesToSectors m.joliet.pathTableM.length =
    sectorsOf m.joliet.pathTableM.length := tables_exact few true
  have isoSectors : m.iso.sectors = _ := measured.sectors false
  have jolietSectors : m.joliet.sectors = _ := measured.sectors true
  have fileSectors := measured.files
  rw [Image.hierarchy, if_neg Bool.false_ne_true] at isoSectors
  rw [Image.hierarchy, if_pos rfl] at jolietSectors
  rw [imageSectors] at few
  have front : Image.frontSectors m = (tablesLba + sectorsOf m.iso.pathTableM.length * 2 +
      sectorsOf m.joliet.pathTableM.length * 2 + m.iso.sectors + m.joliet.sectors) % 2 ^ 32 := by
    rw [Image.frontSectors, isoTable, jolietTable]
  have lba : m.isoLba = (tablesLba + sectorsOf m.iso.pathTableM.length * 2 +
      sectorsOf m.joliet.pathTableM.length * 2) % 2 ^ 32 := by
    rw [Image.isoLba, isoTable, jolietTable]
  have size : Image.volumeSize m = imageSectors m % 2 ^ 32 := by
    rw [Image.volumeSize, Image.usedSectors, front, isoSectors, jolietSectors, fileSectors,
      imageSectors]
    omega
  rw [size, Image.usedSectors, front, Image.filesLba, Image.jolietLba, lba, isoSectors,
    jolietSectors, fileSectors, imageSectors]
  refine ⟨?_, ?_, ?_, ?_, ?_, ?_⟩ <;> omega

/-- Both trees end below `2 ^ 32` sectors. -/
theorem contents_few (joliet : Bool) : PathEntries.dirLba m joliet +
    ((m.hierarchy joliet).contents.map fun c => sectorsOf c.length).sum < 2 ^ 32 := by
  obtain ⟨isoLba, jolietLba, -⟩ := lbas_exact measured few
  rw [imageSectors] at few
  cases joliet with
  | false =>
    change m.isoLba + (m.iso.contents.map fun c => sectorsOf c.length).sum < _
    omega
  | true =>
    change m.jolietLba + (m.joliet.contents.map fun c => sectorsOf c.length).sum < _
    omega

end Exact

/-! ## Offsets -/

theorem sum_before_le {α : Type} (f : α → Nat) {l : List α} {n : Nat} {a : α}
    (here : l[n]? = some a) : ((l.take n).map f).sum + f a ≤ (l.map f).sum := by
  obtain ⟨low, rfl⟩ := List.getElem?_eq_some_iff.mp here
  have parts := congrArg (fun l => (l.map f).sum) (List.take_append_drop n l)
  rw [List.drop_eq_getElem_cons low] at parts
  simp only [List.map_append, List.map_cons, List.sum_append, List.sum_cons] at parts
  omega

theorem sum_sectors (lengths : List Nat) (whole : ∀ n ∈ lengths, n % 0x800 = 0) :
    (lengths.map sectorsOf).sum * 0x800 = lengths.sum := by
  induction lengths with
  | nil => rfl
  | cons n lengths ih =>
    obtain ⟨here, behind⟩ := List.forall_mem_cons.mp whole
    have single : sectorsOf n * 0x800 = n := by
      rw [sectorsOf]
      omega
    rw [List.map_cons, List.sum_cons, List.sum_cons, Nat.add_mul, ih behind, single]

theorem volumeDescriptor_length (joliet : Bool) (volumeName : List UInt8) (t : Tm) {m : Image}
    (first : 34 ≤ ((m.hierarchy joliet).contents.headD []).length) :
    (volumeDescriptor joliet volumeName t m).length = 2048 := by
  have each : ∀ volumeSize pathTableSize lsbTable msbTable,
      (descriptor joliet volumeName t volumeSize pathTableSize lsbTable msbTable
        ((m.hierarchy joliet).contents.headD [])).length = 2048 := by
    intro volumeSize pathTableSize lsbTable msbTable
    obtain ⟨front, back, length, length', split⟩ := descriptor_split joliet volumeName t volumeSize
      pathTableSize lsbTable msbTable ((m.hierarchy joliet).contents.headD [])
    rw [split]
    simp only [List.length_append, leBytes_length, beBytes_length, zeros, List.length_replicate,
      List.length_cons, List.length_drop, List.length_take, length, length']
    omega
  cases joliet with
  | false => exact each _ _ _ _
  | true => exact each _ _ _ _

/-- The first sector of a path table. -/
def tableLba (m : Image) (joliet msb : Bool) : Nat :=
  tablesLba + (if joliet then bytesToSectors m.iso.pathTableM.length * 2 else 0) +
    if msb then bytesToSectors (m.hierarchy joliet).pathTableM.length else 0

/-- The numbers in a descriptor: the tables of both byte orders, and the root record, which
is copied from the content of the root directory. -/
theorem volumeDescriptor_fields (joliet : Bool) (volumeName : List UInt8) (t : Tm) {m : Image}
    {content : List UInt8} (root : (m.hierarchy joliet).contents.headD [] = content)
    (first : 34 ≤ content.length) :
    ((volumeDescriptor joliet volumeName t m).drop 140).take 4 =
      leBytes 4 (tableLba m joliet false) ∧
    ((volumeDescriptor joliet volumeName t m).drop 148).take 4 =
      beBytes 4 (tableLba m joliet true) ∧
    ((volumeDescriptor joliet volumeName t m).drop 158).take 4 = (content.drop 2).take 4 ∧
    ((volumeDescriptor joliet volumeName t m).drop 162).take 4 = (content.drop 6).take 4 := by
  have each : ∀ volumeSize pathTableSize lsbTable msbTable,
      let desc := descriptor joliet volumeName t volumeSize pathTableSize lsbTable msbTable content
      (desc.drop 140).take 4 = leBytes 4 lsbTable ∧ (desc.drop 148).take 4 = beBytes 4 msbTable ∧
        (desc.drop 158).take 4 = (content.drop 2).take 4 ∧
        (desc.drop 162).take 4 = (content.drop 6).take 4 := by
    intro volumeSize pathTableSize lsbTable msbTable desc
    obtain ⟨front, back, length, -, split⟩ := descriptor_split joliet volumeName t volumeSize
      pathTableSize lsbTable msbTable content
    obtain ⟨root, hroot⟩ : ∃ root, root = (content.take 34).drop 1 := ⟨_, rfl⟩
    have long : root.length = 33 := by
      rw [hroot, List.length_drop, List.length_take]
      omega
    have rootAt : ∀ k, k + 4 ≤ 33 →
        ((root ++ back).drop k).take 4 = (content.drop (k + 1)).take 4 := by
      intro k inside
      rw [List.drop_append_of_le_length (by omega), List.take_append_of_le_length (by
        rw [List.length_drop]; omega), hroot, List.drop_drop, List.drop_take, List.take_take,
        Nat.min_eq_left (by omega), Nat.add_comm 1 k]
    have behind : ∀ k, desc.drop (140 + k) = (leBytes 4 lsbTable ++
        (zeros 4 ++ (beBytes 4 msbTable ++
        (zeros 4 ++ (34 :: root ++ back))))).drop k := by
      intro k
      change (descriptor _ _ _ _ _ _ _ _).drop (140 + k) = _
      rw [split, ← hroot, ← length, List.drop_append, List.drop_eq_nil_of_le (by omega),
        List.nil_append, Nat.add_sub_cancel_left]
    have eight : (leBytes 4 lsbTable ++ zeros 4).length = 8 := by simp [zeros]
    have sixteen :
        (leBytes 4 lsbTable ++ (zeros 4 ++ (beBytes 4 msbTable ++ zeros 4))).length = 16 := by
      simp [zeros]
    have regroup : leBytes 4 lsbTable ++ (zeros 4 ++ (beBytes 4 msbTable ++ (zeros 4 ++
        (34 :: root ++ back)))) =
          (leBytes 4 lsbTable ++ (zeros 4 ++ (beBytes 4 msbTable ++ zeros 4))) ++
          (34 :: (root ++ back)) := by
      simp only [List.append_assoc, List.cons_append]
    have rootBehind : ∀ k, desc.drop (140 + (16 + (k + 1))) = (root ++ back).drop k := by
      intro k
      rw [behind, regroup, ← sixteen, List.drop_append, List.drop_eq_nil_of_le (by omega),
        List.nil_append, Nat.add_sub_cancel_left, List.drop_succ_cons]
    refine ⟨?_, ?_, ?_, ?_⟩
    · rw [behind 0, List.drop_zero, List.take_left' (leBytes_length 4 _)]
    · rw [behind 8, ← List.append_assoc, List.drop_left' eight,
        List.take_left' (beBytes_length 4 _)]
    · rw [rootBehind 1]
      exact rootAt 1 (by omega)
    · rw [rootBehind 5]
      exact rootAt 5 (by omega)
  subst root
  cases joliet with
  | false =>
    have fields := each (Image.volumeSize m) m.iso.pathTableM.length tablesLba
      (tablesLba + bytesToSectors m.iso.pathTableM.length)
    exact fields
  | true =>
    have fields := each (Image.volumeSize m) m.joliet.pathTableM.length
      (tablesLba + bytesToSectors m.iso.pathTableM.length * 2)
      (tablesLba + bytesToSectors m.iso.pathTableM.length * 2 +
        bytesToSectors m.joliet.pathTableM.length)
    exact fields

section Offsets
variable {m : Image} (measured : Measured m) (volumeName : List UInt8) (t : Tm) (fopen : Sources)
include measured

theorem header_length : (header volumeName t m).length = tablesLba * 0x800 := by
  simp only [header, List.length_append, List.length_cons, zeros, List.length_replicate,
    volumeDescriptor_length false volumeName t (measured.first false),
    volumeDescriptor_length true volumeName t (measured.first true)]
  rfl

theorem tableBytes_length (joliet msb : Bool) : (tableBytes (pathTable m joliet msb)).length =
    bytesToSectors (m.hierarchy joliet).pathTableM.length * 0x800 := by
  have same : (pathTable m joliet msb).length = (m.hierarchy joliet).pathTableM.length := by
    rw [pathTable]
    split
    · rfl
    · exact measured.tables joliet
  rw [tableBytes, same, List.length_take, List.length_append, zeros, List.length_replicate, same]
  omega

theorem find_table (joliet msb : Bool) : find (.table joliet msb) (written volumeName t fopen m) =
    some (tableLba m joliet msb * 0x800, tableBytes (pathTable m joliet msb)) := by
  have front := header_length measured volumeName t
  have iso : (tableBytes (pathTable m false false)).length =
    bytesToSectors m.iso.pathTableM.length * 0x800 := tableBytes_length measured false false
  have iso' : (tableBytes (pathTable m false true)).length =
    bytesToSectors m.iso.pathTableM.length * 0x800 := tableBytes_length measured false true
  have jol : (tableBytes (pathTable m true false)).length =
    bytesToSectors m.joliet.pathTableM.length * 0x800 := tableBytes_length measured true false
  rw [written]
  apply find_front
  cases joliet <;> cases msb <;>
    simp only [frontPieces, find, reduceCtorEq, Option.some.injEq, Object.table.injEq,
      Bool.false_eq_true, Bool.true_eq_false, and_false, false_and, and_self, if_false, if_true,
      Option.map_some, front, iso, iso', jol, tableLba, Image.hierarchy]
  · exact Prod.ext (by dsimp only; omega) rfl
  · exact Prod.ext (by dsimp only; omega) rfl
  · exact Prod.ext (by dsimp only; omega) rfl
  · exact Prod.ext (by dsimp only; omega) rfl

theorem front_length : (output (frontPieces volumeName t m)).length = (tablesLba +
    bytesToSectors m.iso.pathTableM.length * 2 +
    bytesToSectors m.joliet.pathTableM.length * 2) * 0x800 := by
  have tables := tableBytes_length measured
  have front := header_length measured volumeName t
  simp only [frontPieces, output_cons, output_nil, List.length_append, List.length_nil, front,
    tables]
  simp only [Image.hierarchy, Bool.false_eq_true, if_false, if_true]
  omega

variable (few : imageSectors m < 2 ^ 32)
include few

/-- The contents of both trees and what stands in front of them. -/
theorem contents_length : (output (frontPieces volumeName t m)).length = m.isoLba * 0x800 ∧
    m.isoLba * 0x800 + m.iso.contents.flatten.length = m.jolietLba * 0x800 ∧
    m.jolietLba * 0x800 + m.joliet.contents.flatten.length = m.filesLba * 0x800 := by
  obtain ⟨iso, joliet, files, -⟩ := lbas_exact measured few
  have isoTable : bytesToSectors m.iso.pathTableM.length = sectorsOf m.iso.pathTableM.length :=
    tables_exact few false
  have jolietTable : bytesToSectors m.joliet.pathTableM.length =
    sectorsOf m.joliet.pathTableM.length := tables_exact few true
  have lengths : ∀ contents : List (List UInt8), (∀ c ∈ contents, c.length % 0x800 = 0) →
      (contents.map fun c => sectorsOf c.length).sum * 0x800 = contents.flatten.length := by
    intro contents whole
    have sum := sum_sectors (contents.map List.length) fun n hn => by
      obtain ⟨c, hc, rfl⟩ := List.mem_map.mp hn
      exact whole c hc
    rw [List.map_map] at sum
    rw [List.length_flatten, ← sum]
    rfl
  have isoBytes := lengths m.iso.contents (measured.whole false)
  have jolietBytes := lengths m.joliet.contents (measured.whole true)
  refine ⟨?_, ?_, ?_⟩
  · rw [front_length measured, iso, isoTable, jolietTable]
  · rw [joliet, Nat.add_mul, isoBytes]
  · rw [files, Nat.add_mul, jolietBytes]

theorem find_content {joliet : Bool} {i : Nat} {c : List UInt8}
    (here : (m.hierarchy joliet).contents[i]? = some c) :
    find (.content joliet i) (written volumeName t fopen m) =
      some (PathEntries.dirLba m joliet * 0x800 +
        (((m.hierarchy joliet).contents.take i).map List.length).sum, c) := by
  obtain ⟨front, iso, -⟩ := contents_length measured volumeName t few
  have plain : ∀ piece ∈ frontPieces volumeName t m, piece.1 ≠ some (.content joliet i) := by
    simp [frontPieces]
  have inj : Function.Injective (Object.content joliet) :=
    fun a b same => (Object.content.inj same).2
  rw [written, find_behind plain, front]
  cases joliet with
  | false =>
    change m.iso.contents[i]? = some c at here
    have found := find_numbered inj 0 here
    rw [Nat.zero_add] at found
    rw [find_front found]
    rfl
  | true =>
    change m.joliet.contents[i]? = some c at here
    have found := find_numbered inj 0 here
    have other : ∀ piece ∈ numbered (Object.content false) 0 m.iso.contents,
        piece.1 ≠ some (.content true i) := by
      intro piece hpiece
      obtain ⟨k, -, tag⟩ := mem_numbered hpiece
      rw [tag]
      exact nofun
    rw [Nat.zero_add] at found
    rw [find_behind other, find_front found, output_numbered, Option.map_some, Option.map_some,
      ← Nat.add_assoc, iso]
    rfl

section Files
variable {fopen : Sources} {ioBufSize : Nat} (aligned : ioBufSize % 0x800 = 0)
  (unchanged : ∀ e ∈ m.files.flatten, Unchanged fopen ioBufSize e)
include aligned unchanged

theorem find_file {n : Nat} {e : FileEntry} (here : m.files.flatten[n]? = some e) :
    ∃ bytes, (∃ current, current % 0x800 = 0 ∧ bytes = emitted (fileSteps fopen current e).1) ∧
      find (.file n) (written volumeName t fopen m) =
        some ((m.filesLba + ((m.files.flatten.take n).map fun e => sectorsOf e.size).sum) * 0x800,
          bytes) := by
  obtain ⟨front, iso, joliet⟩ := contents_length measured volumeName t few
  obtain ⟨-, -, -, first, -⟩ := lbas_exact measured few
  have aligned' : (Image.frontSectors m * 0x800) % 0x800 = 0 := Nat.mul_mod_left _ _
  have lengths := fileBytes_lengths aligned unchanged aligned'
  obtain ⟨bytes, current, whole, here', same⟩ := fileBytes_getElem? aligned unchanged aligned' here
  refine ⟨bytes, ⟨current, whole, same⟩, ?_⟩
  have plain : ∀ piece ∈ frontPieces volumeName t m, piece.1 ≠ some (.file n) := by
    simp [frontPieces]
  have other : ∀ (j : Bool) (contents : List (List UInt8)),
      ∀ piece ∈ numbered (Object.content j) 0 contents, piece.1 ≠ some (.file n) := by
    intro j contents piece hpiece
    obtain ⟨k, -, tag⟩ := mem_numbered hpiece
    rw [tag]
    exact nofun
  have inj : Function.Injective Object.file := fun a b same => Object.file.inj same
  have found := find_numbered inj 0 here'
  rw [Nat.zero_add, List.map_take, lengths, ← List.map_take] at found
  have sum : ((m.files.flatten.take n).map fun e => sectorsOf e.size * 0x800).sum =
      ((m.files.flatten.take n).map fun e => sectorsOf e.size).sum * 0x800 := by
    rw [← List.sum_map_mul_right]
  rw [written, find_behind plain, find_behind (other false _), find_behind (other true _),
    find_front found, output_numbered, output_numbered, front, sum]
  simp only [Option.map_some]
  rw [← Nat.add_assoc, iso, ← Nat.add_assoc, joliet, Nat.add_mul]

/-- The size of the image. -/
theorem written_length : (output (written volumeName t fopen m)).length =
    imageSectors m * 0x800 := by
  obtain ⟨front, iso, joliet⟩ := contents_length measured volumeName t few
  obtain ⟨-, -, -, first, used, size⟩ := lbas_exact measured few
  have aligned' : (Image.frontSectors m * 0x800) % 0x800 = 0 := Nat.mul_mod_left _ _
  have lengths := fileBytes_lengths aligned unchanged aligned'
  have sum : (m.files.flatten.map fun e => sectorsOf e.size * 0x800).sum =
      (m.files.flatten.map fun e => sectorsOf e.size).sum * 0x800 := by
    rw [← List.sum_map_mul_right]
  have total : imageSectors m = Image.usedSectors m + Image.padSectors m := by
    obtain ⟨isoLba, jolietLba, filesLba, -⟩ := lbas_exact measured few
    rw [used, filesLba, jolietLba, isoLba, imageSectors]
  have files : (fileBytes fopen (Image.frontSectors m * 0x800) m.files.flatten).flatten.length =
      (m.files.flatten.map fun e => sectorsOf e.size).sum * 0x800 := by
    rw [List.length_flatten, lengths, sum]
  have pad : (zeros (Image.padSectors m * 0x800)).length = Image.padSectors m * 0x800 :=
    List.length_replicate
  rw [written, output_append, output_append, output_append, output_append, output_numbered,
    output_numbered, output_numbered, output_cons, output_nil, List.append_nil]
  simp only [List.length_append, front, files, pad]
  rw [total, used, Nat.add_mul, Nat.add_mul, ← joliet, ← iso]
  simp only [Nat.add_assoc]

end Files

end Offsets

theorem pad_mod (n : Nat) :
    (n + (0x20 + if n % 0x20 ≠ 0 then 0x20 - n % 0x20 else 0)) % 32 = 0 := by
  by_cases whole : n % 0x20 = 0
  · rw [if_neg (not_not_intro whole)]
    omega
  · rw [if_pos whole]
    omega

/-- The pad makes the size a multiple of 32 sectors. -/
theorem volumeSize_mod {m : Image} (measured : Measured m) (few : imageSectors m < 2 ^ 32) :
    Image.volumeSize m % 32 = 0 := by
  obtain ⟨isoLba, jolietLba, filesLba, -, used, size⟩ := lbas_exact measured few
  have total : imageSectors m = Image.usedSectors m + Image.padSectors m := by
    rw [used, filesLba, jolietLba, isoLba, imageSectors]
  rw [size, total]
  exact pad_mod (Image.usedSectors m)

/-! ## No step that ends the call -/

/-- Writes and progress calls only. -/
def Plain (steps : List Step) : Prop := ∀ step ∈ steps, step ≠ .fail ∧ step ≠ .fault

theorem Plain.append {a b : List Step} (front : Plain a) (back : Plain b) : Plain (a ++ b) :=
  List.forall_mem_append.mpr ⟨front, back⟩

theorem Plain.write {steps : List Step} (plain : Plain steps) (buf : List UInt8) :
    Plain (.write buf :: steps) :=
  List.forall_mem_cons.mpr ⟨⟨nofun, nofun⟩, plain⟩

theorem Plain.progress {steps : List Step} (plain : Plain steps) (current : Nat) :
    Plain (.progress current :: steps) :=
  List.forall_mem_cons.mpr ⟨⟨nofun, nofun⟩, plain⟩

theorem plain_nil : Plain [] := fun _ none => nomatch none

theorem pieceSteps_plain (current : Nat) (pieces : List (List UInt8)) :
    Plain (pieceSteps current pieces).1 := by
  induction pieces generalizing current with
  | nil => exact plain_nil
  | cons piece pieces ih => exact ((ih _).progress _).write _

theorem partPieceSteps_plain (current : Nat) (pieces : List (List UInt8)) :
    Plain (partPieceSteps current pieces).1 := by
  induction pieces generalizing current with
  | nil => exact plain_nil
  | cons piece pieces ih => exact ((ih _).progress _).write _

theorem partSteps_plain {fopen : Sources} {base : List UInt8} {fuel i : Nat} (current : Nat)
    (first : i = 0 → (fopen (partPath base 0)).isSome)
    (stops : ∃ k, i ≤ k ∧ k < i + fuel ∧ fopen (partPath base k) = none) :
    Plain (partSteps fopen base fuel i current).1 := by
  induction fuel generalizing i current with
  | zero =>
    obtain ⟨k, low, high, -⟩ := stops
    omega
  | succ fuel ih =>
    rw [partSteps]
    cases found : fopen (partPath base i) with
    | none =>
      have later : i ≠ 0 := by
        rintro rfl
        have opens := first rfl
        rw [found] at opens
        cases opens
      simp only [if_neg later]
      exact plain_nil
    | some pieces =>
      obtain ⟨k, low, high, none'⟩ := stops
      have other : k ≠ i := by
        rintro rfl
        rw [found] at none'
        cases none'
      exact (partPieceSteps_plain current pieces).append
        (ih _ (fun zero => absurd zero (Nat.succ_ne_zero i)) ⟨k, by omega, by omega, none'⟩)

/-- Some parts without an end, or without a beginning, stop the call. -/
theorem partSteps_opens {fopen : Sources} {base : List UInt8} {fuel i current : Nat}
    (plain : Plain (partSteps fopen base fuel i current).1) :
    (i = 0 → (fopen (partPath base 0)).isSome) ∧
      ∃ k, i ≤ k ∧ k < i + fuel ∧ fopen (partPath base k) = none := by
  induction fuel generalizing i current with
  | zero => exact absurd rfl (plain .fault (List.mem_singleton.mpr rfl)).2
  | succ fuel ih =>
    rw [partSteps] at plain
    cases found : fopen (partPath base i) with
    | none =>
      rw [found] at plain
      refine ⟨?_, i, le_rfl, by omega, found⟩
      rintro rfl
      exact absurd rfl (plain .fail (List.mem_singleton.mpr rfl)).1
    | some pieces =>
      rw [found] at plain
      obtain ⟨-, k, low, high, none'⟩ := ih (List.forall_mem_append.mp plain).2
      refine ⟨?_, k, by omega, by omega, none'⟩
      rintro rfl
      rw [found]
      rfl

/-- A file that is not a multipart one can be opened, and the parts of one that is, the first of
them among them, come to an end. -/
def Opens (fopen : Sources) (e : FileEntry) : Prop :=
  if e.multipart then (fopen (partPath e.path 0)).isSome ∧
    ∃ i < 2541, fopen (partPath e.path i) = none
  else (fopen e.path).isSome

theorem fillSteps_plain (n : Nat) : Plain (fillSteps n).1 := by
  rw [fillSteps]
  split
  · exact (plain_nil.progress _).write _
  · exact plain_nil

theorem fileSteps_plain_iff {fopen : Sources} {e : FileEntry} (current : Nat) :
    Plain (fileSteps fopen current e).1 ↔ Opens fopen e := by
  rw [fileSteps, Opens]
  cases kind : e.multipart with
  | true =>
    simp only [if_true]
    constructor
    · intro plain
      obtain ⟨first, i, -, low, none'⟩ := partSteps_opens (List.forall_mem_append.mp plain).1
      exact ⟨first rfl, i, by omega, none'⟩
    · rintro ⟨first, i, low, none'⟩
      exact (partSteps_plain current (fun _ => first) ⟨i, Nat.zero_le i, by omega, none'⟩).append
        (fillSteps_plain _)
  | false =>
    simp only [Bool.false_eq_true, if_false]
    cases found : fopen e.path with
    | none =>
      refine iff_of_false (fun plain => ?_) Bool.false_ne_true
      exact absurd rfl (plain .fault (List.mem_singleton.mpr rfl)).2
    | some pieces => exact iff_of_true (pieceSteps_plain current pieces) rfl

theorem filesSteps_plain_iff {fopen : Sources} {es : List FileEntry} (current : Nat) :
    Plain (filesSteps fopen current es).1 ↔ ∀ e ∈ es, Opens fopen e := by
  induction es generalizing current with
  | nil => exact iff_of_true plain_nil (fun e none => nomatch none)
  | cons e es ih =>
    have both : Plain (filesSteps fopen current (e :: es)).1 ↔
        Plain (fileSteps fopen current e).1 ∧
          Plain (filesSteps fopen (fileSteps fopen current e).2 es).1 := List.forall_mem_append
    rw [both, fileSteps_plain_iff, ih, List.forall_mem_cons]

theorem map_write_plain (bufs : List (List UInt8)) : Plain (bufs.map .write) := by
  intro step hstep
  obtain ⟨buf, -, rfl⟩ := List.mem_map.mp hstep
  exact ⟨nofun, nofun⟩

theorem tableSteps_plain_iff {ioBufSize : Nat} {table : List UInt8} :
    Plain (tableSteps ioBufSize table) ↔ Copied ioBufSize table := by
  rw [← tableSteps_copied]
  constructor
  · exact fun plain step member => (plain step member).2
  · intro sound step member
    refine ⟨?_, sound step member⟩
    rintro rfl
    rw [tableSteps] at member
    split at member
    · cases List.mem_singleton.mp member
    · cases List.mem_singleton.mp member

/-- With tables that fit and files that can be opened `write` comes to its end unless an output
file or the user stops it, and only then. -/
theorem writeSteps_plain_iff (ioBufSize : Nat) (volumeName : List UInt8) (t : Tm) {fopen : Sources}
    {m : Image} : Plain (writeSteps ioBufSize volumeName t fopen m) ↔
      (∀ joliet msb, Copied ioBufSize (pathTable m joliet msb)) ∧
        ∀ e ∈ m.files.flatten, Opens fopen e := by
  have split : ∀ a b : List Step, Plain (a ++ b) ↔ Plain a ∧ Plain b := fun a b =>
    List.forall_mem_append
  constructor
  · intro plain
    rw [writeSteps] at plain
    obtain ⟨front, files⟩ := (split _ _).mp ((split _ _).mp plain).1
    refine ⟨?_, (filesSteps_plain_iff _).mp (List.forall_mem_cons.mp files).2⟩
    rw [frontSteps] at front
    simp only [split, tableSteps_plain_iff] at front
    obtain ⟨⟨⟨⟨⟨⟨-, isoL⟩, isoM⟩, jolietL⟩, jolietM⟩, -⟩, -⟩ := front
    intro joliet msb
    cases joliet with
    | false =>
      cases msb with
      | false => exact isoL
      | true => exact isoM
    | true =>
      cases msb with
      | false => exact jolietL
      | true => exact jolietM
  · rintro ⟨copied, opens⟩
    have tables : ∀ joliet msb, Plain (tableSteps ioBufSize (pathTable m joliet msb)) :=
      fun joliet msb => tableSteps_plain_iff.mpr (copied joliet msb)
    have front : Plain (frontSteps ioBufSize volumeName t m) := by
      refine Plain.append (Plain.append (Plain.append (Plain.append (Plain.append (Plain.append ?_
        (tables false false)) (tables false true)) (tables true false)) (tables true true))
        (map_write_plain _)) (map_write_plain _)
      exact ((((plain_nil.write _).write _).write _).write _).write _
    exact (front.append (((filesSteps_plain_iff _).mpr opens).progress _)).append
      ((plain_nil.progress _).write _)

end WriteOrder
