import NtfsIsoMounter.FileReads
import NtfsIsoMounter.ImageLayout
import NtfsIsoMounter.OutputCleanup

/-!
# Files in an image that was reported complete

`write` streams the files again after `build` has measured them and does not compare what it reads
with what was measured. What a successful call has left of a file in its extents depends on that.
-/

namespace FileExtents

open ByteOrder CText SourceTrees DirectoryRecords ImageBuild RecordPasses ContentPasses ImageTables
  ImageWriter SplitOutput MultiExtents RecordLayout RecordLookups FileLists PieceLayout WorkBuffers
  WriteOrder ImageLayout OutputCleanup FileReads

/-! ## Calls that succeed -/

section Runs
variable {disk : Disk} {o o' : Output}

/-- A call of `fwrite` that takes all bytes puts them at the end. -/
theorem fwriteAll_all {bytes : List UInt8} (isOpen : o.current ≠ none)
    (all : fwriteAll disk o bytes = (true, o')) : o'.parts.flatten = o.parts.flatten ++ bytes := by
  obtain ⟨enough, rfl⟩ := Prod.mk.inj all
  rw [beq_iff_eq] at enough
  obtain ⟨last, current⟩ := Option.ne_none_iff_exists'.mp isOpen
  simp only [Output.parts, current, enough, List.take_length, Option.map_some, Option.toList_some,
    List.flatten_append, List.flatten_singleton, List.append_assoc]

theorem writeRemainder_all {rest : List UInt8} (all : writeRemainder disk o rest = (true, o')) :
    o'.parts.flatten = o.parts.flatten ++ rest := by
  rw [writeRemainder] at all
  simp only [closeOutputFile] at all
  split at all
  · cases all
  split at all
  · cases all
  obtain ⟨ok, after, written⟩ : ∃ ok after,
      fwriteAll disk ⟨o.parts, some [], 0, o.currentPart + 1, o.fwrites⟩ rest = (ok, after) :=
    ⟨_, _, rfl⟩
  simp only [written] at all
  cases ok with
  | false => cases all
  | true =>
    have bytes := fwriteAll_all (Option.some_ne_none []) written
    simp only [Output.parts, Option.toList_some, List.flatten_append, List.flatten_singleton,
      List.append_nil] at bytes
    rw [if_pos rfl] at all
    cases all
    simpa only [Output.parts, List.flatten_append] using bytes

theorem division_whole {numOfParts : Nat} {partitionSize size bSize remSize : Int}
    (divided : division numOfParts partitionSize o size = (bSize, remSize))
    (whole : numOfParts = 1 ∨ remSize = 0) : bSize = size := by
  rw [division] at divided
  split at divided
  · exact (Prod.mk.inj divided).1.symm
  · rename_i many
    split at divided
    · obtain ⟨-, rest⟩ := Prod.mk.inj divided
      have none' := whole.resolve_left many
      omega
    · exact (Prod.mk.inj divided).1.symm

/-- A write that succeeds puts the buffer behind what was written before, over however many
parts. -/
theorem writeOutputFile_all {numOfParts : Nat} {partitionSize : Int} {buf : List UInt8}
    (all : writeOutputFile disk numOfParts partitionSize o buf = some (true, o')) :
    o'.parts.flatten = o.parts.flatten ++ buf := by
  rw [writeOutputFile] at all
  by_cases isOpen : o.current = none
  · rw [if_pos isOpen] at all
    cases all
  rw [if_neg isOpen] at all
  obtain ⟨bSize, remSize, divided⟩ : ∃ bSize remSize,
      division numOfParts partitionSize o buf.length = (bSize, remSize) := ⟨_, _, rfl⟩
  simp only [divided] at all
  split at all
  · cases all
  rename_i positive
  obtain ⟨ok, first, written⟩ : ∃ ok first, (if bSize = 0 then (true, o)
      else fwriteAll disk o (buf.take bSize.toNat)) = (ok, first) := ⟨_, _, rfl⟩
  simp only [written] at all
  cases ok with
  | false => cases all
  | true =>
    have front : first.parts.flatten = o.parts.flatten ++ buf.take bSize.toNat := by
      split at written
      · rename_i none'
        obtain ⟨-, rfl⟩ := Prod.mk.inj written
        rw [none', Int.toNat_zero, List.take_zero, List.append_nil]
      · exact fwriteAll_all isOpen written
    rw [if_neg Bool.noConfusion] at all
    split at all
    · rename_i single
      cases all
      rw [front, division_whole divided (.inl single), Int.toNat_natCast, List.take_length]
    · split at all
      · rename_i within
        cases all
        have bytes : ({ first with
            bytesWrittenInPart := first.bytesWrittenInPart + bSize } : Output).parts =
              first.parts := rfl
        rw [bytes, front, division_whole divided (.inr within), Int.toNat_natCast, List.take_length]
      · rw [writeRemainder_all (Option.some.inj all), front, List.append_assoc,
          List.take_append_drop]

/-- The steps of a run that succeeds are writes and progress calls, and all that they write is in
the parts. -/
theorem runSteps_all {progress : Progress} {totalSize numOfParts : Nat} {partitionSize : Int}
    {k : Nat} {steps : List Step}
    (all : runSteps disk progress totalSize numOfParts partitionSize k o steps = some (true, o')) :
    Plain steps ∧ o'.parts.flatten = o.parts.flatten ++ emitted steps := by
  induction steps generalizing k o with
  | nil =>
    cases all
    exact ⟨plain_nil, (List.append_nil _).symm⟩
  | cons step steps ih =>
    cases step with
    | write buf =>
      rw [runSteps] at all
      cases written : writeOutputFile disk numOfParts partitionSize o buf with
      | none =>
        rw [written] at all
        cases all
      | some result =>
        obtain ⟨ok, next⟩ := result
        rw [written] at all
        cases ok with
        | false => cases all
        | true =>
          obtain ⟨plain, bytes⟩ := ih all
          refine ⟨plain.write buf, ?_⟩
          rw [bytes, writeOutputFile_all written, emitted_write, List.append_assoc]
    | progress current =>
      rw [runSteps_progress] at all
      split at all
      · cases all
      · obtain ⟨plain, bytes⟩ := ih all
        exact ⟨plain.progress current, bytes⟩
    | fail => cases all
    | fault => cases all

/-- On a disk that takes everything plain steps come to their end. -/
theorem run_plain (totalSize : Nat) (partitionSize : Int) (works : disk.Works) {k : Nat}
    {steps : List Step} (current : o.current ≠ none) (plain : Plain steps) :
    ∃ o', runSteps disk quiet totalSize 1 partitionSize k o steps = some (true, o') := by
  induction steps generalizing k o with
  | nil => exact ⟨o, rfl⟩
  | cons step steps ih =>
    obtain ⟨here, behind⟩ := List.forall_mem_cons.mp plain
    cases step with
    | write buf =>
      obtain ⟨ok, next, written, current', sound⟩ := write_single disk partitionSize buf current
      cases sound works
      obtain ⟨o', rest⟩ := ih (k := k) current' behind
      exact ⟨o', by rw [runSteps_write steps written, if_pos rfl, rest]⟩
    | progress at' =>
      obtain ⟨o', rest⟩ := ih (k := k + 1) current behind
      exact ⟨o', by rw [runSteps_progress, if_neg (show ¬ quiet k at' totalSize = true from
        Bool.false_ne_true), rest]⟩
    | fail => exact absurd rfl here.1
    | fault => exact absurd rfl here.2

end Runs

/-! ## Extents -/

/-- What the sectors of an extent hold. -/
def sectorsAt (image : List UInt8) (x : Nat × Nat) : List UInt8 :=
  (image.drop (x.1 * 0x800)).take (sectorsOf x.2 * 0x800)

/-- Extents of a file of `size` bytes that hold so many of those that were read, and zeros up to the
end of their last sector. -/
structure Kept (image read : List UInt8) (size : Nat) (extents : List (Nat × Nat)) : Prop where
  small : ∀ x ∈ extents, x.1 < 2 ^ 32 ∧ x.2 < 2 ^ 32
  lengths : (extents.map Prod.snd).sum = size
  enough : size ≤ read.length
  bytes : extents.flatMap (sectorsAt image) = read.take size ++ zeros (fillSector size)

/-- The bytes in part `s` of a file. -/
def partSize (size s : Nat) : Nat :=
  if s + 1 = partsOf size then size - s * multiextentPartSize else multiextentPartSize

/-- The extents of a file that begins at sector `base`, one for each part. -/
def fileExtents (base size : Nat) : List (Nat × Nat) :=
  (List.range (partsOf size)).map fun s => (base + s * 0x1FFFFF, partSize size s)

theorem sectorsOf_part : sectorsOf multiextentPartSize = 0x1FFFFF := by decide

theorem partSize_lt (size s : Nat) : partSize size s < 2 ^ 32 := by
  rw [partSize]
  split
  · rename_i last
    have fits := (left_of_last last).2.1
    omega
  · decide

/-- From some part on the extents hold what is left of the file, sector by sector. -/
theorem extents_range (image : List UInt8) (base size n i : Nat)
    (together : i + n + 1 = partsOf size) :
    ((List.range' i (n + 1)).map (partSize size)).sum = size - i * multiextentPartSize ∧
    (List.range' i (n + 1)).flatMap
        (fun s => sectorsAt image (base + s * 0x1FFFFF, partSize size s)) =
      (image.drop ((base + i * 0x1FFFFF) * 0x800)).take
        (sectorsOf (size - i * multiextentPartSize) * 0x800) := by
  induction n generalizing i with
  | zero =>
    have own : partSize size i = size - i * multiextentPartSize := if_pos together
    constructor
    · exact (Nat.add_zero _).trans own
    · refine (List.append_nil _).trans ?_
      change sectorsAt image (base + i * 0x1FFFFF, partSize size i) = _
      rw [own]
      rfl
  | succ n ih =>
    have before : i + 1 < partsOf size := by omega
    have left := left_of_before before
    have own : partSize size i = multiextentPartSize := if_neg before.ne
    obtain ⟨sum, bytes⟩ := ih (i + 1) (by omega)
    rw [Nat.add_mul, Nat.one_mul] at left
    constructor
    · rw [List.range'_succ, List.map_cons, List.sum_cons, sum, own, Nat.add_mul, Nat.one_mul]
      omega
    · have here : sectorsAt image (base + i * 0x1FFFFF, partSize size i) =
          (image.drop ((base + i * 0x1FFFFF) * 0x800)).take
            (sectorsOf multiextentPartSize * 0x800) := by
        rw [own]
        rfl
      have sectors : sectorsOf (size - i * multiextentPartSize) * 0x800 =
          sectorsOf multiextentPartSize * 0x800 +
            sectorsOf (size - (i + 1) * multiextentPartSize) * 0x800 := by
        simp only [sectorsOf, multiextentPartSize] at left ⊢
        omega
      have next : (base + (i + 1) * 0x1FFFFF) * 0x800 =
          (base + i * 0x1FFFFF) * 0x800 + sectorsOf multiextentPartSize * 0x800 := by
        rw [sectorsOf_part, Nat.add_mul i, Nat.one_mul, ← Nat.add_assoc, Nat.add_mul _ 0x1FFFFF]
      rw [List.range'_succ, List.flatMap_cons, bytes, here, sectors, List.take_add, List.drop_drop,
        next]

theorem fileExtents_spec (image : List UInt8) (base size : Nat) :
    ((fileExtents base size).map Prod.snd).sum = size ∧
    (fileExtents base size).flatMap (sectorsAt image) =
      (image.drop (base * 0x800)).take (sectorsOf size * 0x800) := by
  obtain ⟨n, parts⟩ : ∃ n, partsOf size = n + 1 :=
    ⟨partsOf size - 1, by have := partsOf_pos size; omega⟩
  obtain ⟨sum, bytes⟩ := extents_range image base size n 0 (by omega)
  simp only [Nat.zero_mul, Nat.sub_zero, Nat.add_zero] at sum bytes
  rw [fileExtents, parts, List.range_eq_range', List.map_map, List.flatMap_map]
  simp only [Function.comp_def]
  exact ⟨sum, bytes⟩

theorem fileExtents_small {base size : Nat} (small : base + sectorsOf size < 2 ^ 32) :
    ∀ x ∈ fileExtents base size, x.1 < 2 ^ 32 ∧ x.2 < 2 ^ 32 := by
  intro x member
  obtain ⟨s, inside, rfl⟩ := List.mem_map.mp member
  have part := part_le_sectors (List.mem_range.mp inside)
  exact ⟨by dsimp only; omega, partSize_lt size s⟩

/-- In its own extents a file is kept if it stands where they begin. -/
theorem kept_iff {image read : List UInt8} {base size : Nat}
    (small : base + sectorsOf size < 2 ^ 32) :
    Kept image read size (fileExtents base size) ↔
      Holds read size (image.drop (base * 0x800)) := by
  obtain ⟨sum, bytes⟩ := fileExtents_spec image base size
  constructor
  · intro kept
    exact ⟨kept.enough, bytes.symm.trans kept.bytes⟩
  · intro holds
    exact ⟨fileExtents_small small, sum, holds.enough, bytes.trans holds.bytes⟩

/-! ## Records -/

/-- The numbers of a record that no directory takes for its own, or one with these numbers. -/
theorem record_spared {stat : List UInt8 → Option Stat} {joliet : Bool} {dirs : List Dir}
    {files : List (List FileEntry)} {i k n s : Nat} {e : FileEntry}
    (made : Made stat joliet dirs files i) (here : (partsIn files i)[k]? = some (e, n, s))
    (small : (e.rlba + s * bytesToSectors multiextentPartSize) % 2 ^ 32 = e.rlba + s * 0x1FFFFF)
    (spared : ∀ j ∈ (writers stat joliet dirs files dirs.length i (k + 2)).getLast?,
      startAt stat joliet dirs files j = e.rlba + s * 0x1FFFFF ∧
        sizeAt stat joliet dirs files j = partSize e.size s) :
    ∃ r, (recordsAt stat joliet dirs files dirs.length i)[k + 2]? = some r ∧
      r.start = e.rlba + s * 0x1FFFFF ∧ r.length = partSize e.size s ∧
      r.flags &&& isoDirectory = 0 := by
  obtain ⟨r, at', start, length, flags⟩ := record_part made here
  refine ⟨r, at', ?_, ?_, flags⟩
  · rw [start, small]
    cases last : (writers stat joliet dirs files dirs.length i (k + 2)).getLast? with
    | none => rw [Option.map_none, Option.getD_none]
    | some j =>
      rw [Option.map_some, Option.getD_some]
      exact (spared j last).1
  · rw [length]
    cases last : (writers stat joliet dirs files dirs.length i (k + 2)).getLast? with
    | none =>
      rw [Option.map_none, Option.getD_none, partSize]
      split
      · rename_i final
        have fits := (left_of_last final).2.1
        exact Nat.mod_eq_of_lt (by omega)
      · rfl
    | some j =>
      rw [Option.map_some, Option.getD_some]
      exact (spared j last).2

/-- What a tree must be like: the identifiers of its directories fit into their records, its
sectors are counted in 32 bits, and no directory takes the record of a file for its own, or one that
has the same extent. -/
structure Sound (stat : List UInt8 → Option Stat) (dirs : List Dir) (m : Image) : Prop where
  shortDirs : ∀ joliet, ShortDirs joliet dirs
  few : imageSectors m < 2 ^ 32
  spared : ∀ joliet, ∀ i < dirs.length, ∀ (k : Nat) (e : FileEntry) (n s : Nat),
    (partsIn m.files i)[k]? = some (e, n, s) →
      ∀ j ∈ (writers stat joliet dirs m.files dirs.length i (k + 2)).getLast?,
        startAt stat joliet dirs m.files j = e.rlba + s * 0x1FFFFF ∧
          sizeAt stat joliet dirs m.files j = partSize e.size s

/-- The extents in the records of a file, which stand behind those of the files `front` of its
directory. -/
def extentsOf (rs : List Record) (front : List FileEntry) (e : FileEntry) : List (Nat × Nat) :=
  ((rs.drop (2 + (front.map fun e => partsOf e.size).sum)).take (partsOf e.size)).map
    fun r => (r.start, r.length)

/-- The extents stored in 32 bits. -/
def stored32 (x : Nat × Nat) : Nat × Nat := (x.1 % 2 ^ 32, x.2 % 2 ^ 32)

theorem stored32_small {extents : List (Nat × Nat)}
    (small : ∀ x ∈ extents, x.1 < 2 ^ 32 ∧ x.2 < 2 ^ 32) : extents.map stored32 = extents := by
  refine (List.map_congr_left fun x member => ?_).trans (List.map_id extents)
  obtain ⟨start, length⟩ := small x member
  rw [stored32, Nat.mod_eq_of_lt start, Nat.mod_eq_of_lt length]
  rfl

theorem lengths_of_extents {start start' length length' : Nat}
    (same : extentBytes start length = extentBytes start' length') :
    length % 2 ^ 32 = length' % 2 ^ 32 := by
  have field : ∀ start length, ((extentBytes start length).drop 8).take 4 = leBytes 4 length := by
    intro start length
    have front : (leBytes 4 start ++ beBytes 4 start).length = 8 := by
      rw [List.length_append, leBytes_length, beBytes_length]
    rw [extentBytes, List.append_assoc, List.drop_left' front, List.take_left' (leBytes_length 4 _)]
  have values := congrArg (fun l : List UInt8 => leValue ((l.drop 8).take 4)) same
  simp only [field] at values
  rwa [leValue_leBytes, leValue_leBytes] at values

/-- The bytes of records tell their extents. -/
theorem extentsOf_bytes {rs rs' : List Record} (same : rs.map Record.bytes = rs'.map Record.bytes)
    (short : ∀ r ∈ rs, Short r.ident) (short' : ∀ r ∈ rs', Short r.ident)
    (front : List FileEntry) (e : FileEntry) :
    (extentsOf rs front e).map stored32 = (extentsOf rs' front e).map stored32 := by
  have all : rs.map (fun r => stored32 (r.start, r.length)) =
      rs'.map fun r => stored32 (r.start, r.length) := by
    induction rs generalizing rs' with
    | nil =>
      rw [List.map_nil, eq_comm, List.map_eq_nil_iff] at same
      rw [same]
    | cons r rs ih =>
      rw [List.map_cons, eq_comm, List.map_eq_cons_iff] at same
      obtain ⟨r', rest, rfl, bytes, same⟩ := same
      obtain ⟨own, behind⟩ := List.forall_mem_cons.mp short
      obtain ⟨own', behind'⟩ := List.forall_mem_cons.mp short'
      have extents := extents_of_bytes own own' bytes.symm
      have start := starts_of_extents extents
      have length := lengths_of_extents extents
      rw [List.map_cons, List.map_cons, ih same.symm behind behind', stored32, stored32, start,
        length]
  rw [extentsOf, extentsOf, List.map_map, List.map_map]
  simp only [Function.comp_def, List.map_take, List.map_drop, all]

/-! ## Files in an image -/

theorem listFiles_length {stat : List UInt8 → Option Stat} {dirs : List Dir} {sectors total : Nat}
    {files : List (List FileEntry)} (listed : listFiles stat dirs sectors = .ok (files, total)) :
    files.length = dirs.length := by
  induction dirs generalizing sectors files with
  | nil =>
    cases listed
    rfl
  | cons d dirs ih =>
    obtain ⟨⟨entries, between⟩, -, listed⟩ := bind_ok.mp listed
    obtain ⟨⟨later, last⟩, rest, listed⟩ := bind_ok.mp listed
    cases listed
    exact congrArg (· + 1) (ih rest)

/-- A file among all files is one of a directory. -/
theorem flatten_split {files : List (List FileEntry)} {before after : List FileEntry}
    {e : FileEntry} (split : files.flatten = before ++ e :: after) :
    ∃ i front back, i < files.length ∧ files.getD i [] = front ++ e :: back ∧
      before = (files.take i).flatten ++ front := by
  induction files generalizing before with
  | nil =>
    rw [List.flatten_nil] at split
    exact absurd split.symm (List.append_ne_nil_of_right_ne_nil _ (List.cons_ne_nil _ _))
  | cons es files ih =>
    rw [List.flatten_cons, List.append_eq_append_iff] at split
    rcases split with ⟨front, rfl, split⟩ | ⟨own, rfl, split⟩
    · obtain ⟨i, front', back, inside, here, rfl⟩ := ih split
      exact ⟨i + 1, front', back, Nat.succ_lt_succ inside, here, (List.append_assoc _ _ _).symm⟩
    · cases own with
      | nil =>
        obtain ⟨i, front', back, inside, here, none'⟩ := @ih [] split.symm
        exact ⟨i + 1, front', back, Nat.succ_lt_succ inside, here, by
          rw [List.take_succ_cons, List.flatten_cons, List.append_assoc, ← none', List.append_nil,
            List.append_nil]⟩
      | cons first own =>
        obtain ⟨rfl, -⟩ := List.cons.inj split
        exact ⟨0, before, own, Nat.zero_lt_succ _, rfl, rfl⟩

/-- The content of every directory stands where the path tables say, and the extents in its records
hold its files. -/
def FilesKept (stat : List UInt8 → Option Stat) (dirs : List Dir) (fopen : Sources) (m : Image)
    (image : List UInt8) : Prop :=
  ∀ joliet, ∀ i < dirs.length, ∃ rs content,
    (m.hierarchy joliet).contents[i]? = some content ∧
    (image.drop ((startAt stat joliet dirs m.files i + PathEntries.dirLba m joliet) * 0x800)).take
      content.length = content ∧
    Formed stat joliet dirs m.files i rs
      ⟨(m.hierarchy joliet).contents, (m.hierarchy joliet).sectors⟩ ∧
    ∀ front e back, m.files.getD i [] = front ++ e :: back →
      Kept image (readOf fopen e) e.size (extentsOf rs front e)

section Image
variable {stat : List UInt8 → Option Stat} {tempBufSize : Nat} {inDir : List UInt8}
  {tree : SourceTree} {m : Image} (proper : tree.Proper)
  (built : build stat tempBufSize inDir tree = .ok m)
  (sound : Sound stat (listDirs inDir tree) m)
include proper built sound

/-- The records of a tree that is sound have the extents of its files. -/
theorem build_extents (joliet : Bool) {i : Nat} (inside : i < (listDirs inDir tree).length) :
    ∃ rs, Formed stat joliet (listDirs inDir tree) m.files i rs
        ⟨(m.hierarchy joliet).contents, (m.hierarchy joliet).sectors⟩ ∧
      (∀ r ∈ rs, Short r.ident) ∧
      ∀ front e back, m.files.getD i [] = front ++ e :: back →
        extentsOf rs front e = fileExtents (e.rlba + m.filesLba) e.size := by
  obtain ⟨shortDirs, few, spared⟩ := sound
  have hierarchy := build_hierarchy proper built shortDirs joliet
  have made := hierarchy.made i inside
  obtain ⟨rs, content, records, stored, same, short, -⟩ :=
    built_content (shortDirs joliet) hierarchy inside
  refine ⟨rs, ⟨content, stored, ?_, same ▸ wellFormed_packed short⟩, short, ?_⟩
  · rw [records, ← recordsAt_kinds stat joliet m.files (listDirs inDir tree).length i, List.map_map]
    rfl
  · intro front e back split
    apply List.ext_getElem?
    intro s
    rw [extentsOf, fileExtents, List.getElem?_map, List.getElem?_map, List.getElem?_take]
    by_cases part : s < partsOf e.size
    · have here : (partsIn m.files i)[(front.map fun e => partsOf e.size).sum + s]? =
          some (e, (m.files.take i).flatten.length + front.length, s) := by
        rw [partsIn, split, ← partsFrom_length (m.files.take i).flatten.length]
        exact partsFrom_at _ part
      have exact' := part_exact proper built shortDirs few here
      obtain ⟨r, at', start, length, flags⟩ := record_spared made here exact'
        (spared joliet i inside _ e _ s here)
      have place : 2 + (front.map fun e => partsOf e.size).sum + s =
          (front.map fun e => partsOf e.size).sum + s + 2 := by omega
      rw [if_pos part, List.getElem?_drop, place, records, List.getElem?_map, at',
        List.getElem?_range part, Option.map_some, Option.map_some, Option.map_some,
        Record.relocate, Record.base, flags, if_neg (not_not_intro rfl)]
      dsimp only
      rw [start, length]
      congr 2
      omega
    · rw [if_neg part, List.getElem?_eq_none (by rw [List.length_range]; omega)]
      rfl

variable (volumeName : List UInt8) (t : Tm) (fopen : Sources)

/-- The files follow one another from their first sector on, and the pad follows them. -/
theorem output_files : ∃ front, front.length = m.filesLba * 0x800 ∧
    output (written volumeName t fopen m) =
      front ++ (stream fopen m.files.flatten ++ zeros (Image.padSectors m * 0x800)) := by
  obtain ⟨shortDirs, few, -⟩ := sound
  have measured := build_measured proper built shortDirs
  obtain ⟨front, iso, joliet⟩ := contents_length measured volumeName t few
  have whole : (Image.frontSectors m * 0x800) % 0x800 = 0 := Nat.mul_mod_left _ _
  refine ⟨output (frontPieces volumeName t m) ++ (m.iso.contents.flatten ++
    m.joliet.contents.flatten), ?_, ?_⟩
  · rw [List.length_append, List.length_append, front, ← joliet, ← iso, Nat.add_assoc]
  · rw [written, output_append, output_append, output_append, output_append, output_numbered,
      output_numbered, output_numbered, output_cons, output_nil, List.append_nil,
      fileBytes_eq fopen _ whole, stream, List.flatMap_def]
    simp only [List.append_assoc]

theorem content_stands {joliet : Bool} {i : Nat} {content : List UInt8}
    (inside : i < (listDirs inDir tree).length)
    (stored : (m.hierarchy joliet).contents[i]? = some content) :
    ((output (written volumeName t fopen m)).drop
      ((startAt stat joliet (listDirs inDir tree) m.files i + PathEntries.dirLba m joliet) *
        0x800)).take content.length = content := by
  obtain ⟨shortDirs, few, -⟩ := sound
  have measured := build_measured proper built shortDirs
  obtain ⟨offset, bytes, found, place⟩ :=
    (leads_content proper built shortDirs volumeName t fopen few inside _).mpr rfl
  have found' := find_content measured volumeName t fopen few stored
  cases found.symm.trans found'
  obtain ⟨front, back, split, length⟩ := find_output found
  rw [place, Nat.add_zero, split, List.append_assoc, List.drop_left' length, List.take_left]

/-- The files are kept if they stand where they were counted. -/
theorem filesKept_iff : FilesKept stat (listDirs inDir tree) fopen m
      (output (written volumeName t fopen m)) ↔
    HoldsAll fopen m.files.flatten (zeros (Image.padSectors m * 0x800)) := by
  obtain ⟨listed, -, -⟩ := build_spec proper built sound.shortDirs
  obtain ⟨before, length, split⟩ := output_files proper built sound volumeName t fopen
  have few := sound.few
  have measured := build_measured proper built sound.shortDirs
  obtain ⟨isoLba, jolietLba, filesLba, -⟩ := lbas_exact measured few
  have sectors : counted m.files.flatten + m.filesLba < 2 ^ 32 := by
    rw [imageSectors, Image.padSectors] at few
    rw [counted]
    omega
  -- the place of a file
  have each : ∀ i front e back, m.files.getD i [] = front ++ e :: back →
      e.rlba + m.filesLba + sectorsOf e.size < 2 ^ 32 ∧
      (Kept (output (written volumeName t fopen m)) (readOf fopen e) e.size
          (fileExtents (e.rlba + m.filesLba) e.size) ↔
        Holds (readOf fopen e) e.size ((stream fopen m.files.flatten ++
          zeros (Image.padSectors m * 0x800)).drop
            (counted ((m.files.take i).flatten ++ front) * 0x800))) := by
    intro i front e back own
    obtain ⟨at', before'⟩ := flatten_getElem? own
    have inside : counted (m.files.flatten.take ((m.files.take i).flatten.length + front.length)) +
        sectorsOf e.size ≤ counted m.files.flatten :=
      sum_before_le (fun e : FileEntry => sectorsOf e.size) at'
    have rlba : e.rlba = counted (m.files.flatten.take
        ((m.files.take i).flatten.length + front.length)) :=
      listFiles_rlba listed (by rw [counted] at sectors; omega) at'
    rw [before'] at rlba inside
    have small : e.rlba + m.filesLba + sectorsOf e.size < 2 ^ 32 := by omega
    refine ⟨small, ?_⟩
    rw [kept_iff small, split, Nat.add_mul, Nat.add_comm, ← List.drop_drop,
      List.drop_left' length, rlba]
  constructor
  · intro kept before e after own
    obtain ⟨i, front, back, low, here, rfl⟩ := flatten_split own
    rw [listFiles_length listed] at low
    obtain ⟨rs, -, -, -, formed, all⟩ := kept false i low
    obtain ⟨rs', formed', short', extents⟩ := build_extents proper built sound false low
    have own' := all front e back here
    obtain ⟨small, place⟩ := each i front e back here
    -- the records read are those that were made
    have same : extentsOf rs front e = fileExtents (e.rlba + m.filesLba) e.size := by
      obtain ⟨content, stored, kinds, whole⟩ := formed
      obtain ⟨content', stored', -, whole'⟩ := formed'
      cases stored.symm.trans stored'
      have made := (build_hierarchy proper built sound.shortDirs false).made i low
      have short := short_of_kinds kinds (short_fresh made (sound.shortDirs false i low))
      have both := extentsOf_bytes (whole.unique whole') short short' front e
      rw [extents front e back here, stored32_small own'.small,
        stored32_small (fileExtents_small small)] at both
      exact both
    rw [same] at own'
    exact place.mp own'
  · intro holds joliet i low
    obtain ⟨rs, formed, -, extents⟩ := build_extents proper built sound joliet low
    obtain ⟨content, stored, kinds, whole⟩ := formed
    refine ⟨rs, content, stored, content_stands proper built sound volumeName t fopen low stored,
      ⟨content, stored, kinds, whole⟩, ?_⟩
    intro front e back own
    obtain ⟨-, place⟩ := each i front e back own
    rw [extents front e back own, place]
    obtain ⟨at', before'⟩ := flatten_getElem? own
    obtain ⟨inner, value⟩ := List.getElem?_eq_some_iff.mp at'
    refine holds _ e (m.files.flatten.drop ((m.files.take i).flatten.length + front.length + 1)) ?_
    rw [← before', ← value, ← List.drop_eq_getElem_cons, List.take_append_drop]

end Image

/-! ## Calls of `generate` -/

section Generate
variable (stat : List UInt8 → Option Stat) (tempBufSize ioBufSize : Nat) (inDir : List UInt8)
  (tree : SourceTree) (fopen : Sources)

/-- Whatever bytes the files have, as long as the reads have these lengths: a call that returns 0
has left an image in its parts that keeps all files. -/
def KeepsFiles : Prop :=
  ∀ fopen', SameLengths fopen fopen' →
    ∀ (disk : Disk) (progress : Progress) (partitionSize : Int) (t : Tm)
      (outFile volumeName : List UInt8) (outcome : Outcome),
      generate stat tempBufSize ioBufSize fopen' disk progress partitionSize t inDir tree outFile
        volumeName = some outcome → outcome.code = 0 →
      ∃ m o, build stat tempBufSize inDir tree = .ok m ∧
        runSteps disk progress (Image.totalSize m)
          (partCount partitionSize (Image.totalSize m)).toNat partitionSize 0 opened
          (writeSteps ioBufSize volumeName t fopen' m) = some (true, o) ∧
        FilesKept stat (listDirs inDir tree) fopen' m o.parts.flatten

/-- If all files can be opened, they are read as they were measured. -/
def ReadsAsMeasured : Prop :=
  ∀ m, build stat tempBufSize inDir tree = .ok m →
    (∀ joliet msb, Copied ioBufSize (pathTable m joliet msb)) →
    (∀ e ∈ m.files.flatten, Opens fopen e) → ReadsFit fopen m.files.flatten

variable {stat tempBufSize ioBufSize inDir tree fopen}

/-- A call that returns 0 has written all of its steps. -/
theorem generate_zero {disk : Disk} {progress : Progress} {partitionSize : Int} {t : Tm}
    {outFile volumeName : List UInt8} {outcome : Outcome}
    (call : generate stat tempBufSize ioBufSize fopen disk progress partitionSize t inDir tree
      outFile
      volumeName = some outcome) (zero : outcome.code = 0) :
    ∃ m o, build stat tempBufSize inDir tree = .ok m ∧
      runSteps disk progress (Image.totalSize m)
        (partCount partitionSize (Image.totalSize m)).toNat partitionSize 0 opened
        (writeSteps ioBufSize volumeName t fopen m) = some (true, o) := by
  have error : errorOutput ≠ 0 := by decide
  have input : errorInput ≠ 0 := by decide
  rw [generate] at call
  cases built : build stat tempBufSize inDir tree with
  | error stop =>
    rw [built] at call
    cases stop with
    | fault => cases call
    | failed =>
      cases call
      exact absurd zero input
  | ok m =>
    rw [built] at call
    simp only at call
    split at call
    · cases call
      exact absurd zero error
    · obtain ⟨⟨ok, o⟩, run, rfl⟩ := Option.map_eq_some_iff.mp call
      cases ok with
      | true => exact ⟨m, o, rfl, run⟩
      | false => exact absurd zero error

/-- On a disk that takes everything a call returns 0 if its tables fit and its files can be
opened. -/
theorem generate_succeeds {m : Image} (built : build stat tempBufSize inDir tree = .ok m)
    (copied : ∀ joliet msb, Copied ioBufSize (pathTable m joliet msb))
    (opens : ∀ e ∈ m.files.flatten, Opens fopen e) (t : Tm) (outFile volumeName : List UInt8) :
    ∃ outcome, generate stat tempBufSize ioBufSize fopen soundDisk quiet 0 t inDir tree outFile
      volumeName = some outcome ∧ outcome.code = 0 := by
  have plain := (writeSteps_plain_iff ioBufSize volumeName t).mpr ⟨copied, opens⟩
  obtain ⟨o, run⟩ := run_plain (Image.totalSize m) 0 soundDisk_works opened_open.current plain
    (k := 0)
  refine ⟨finish outFile 1 (true, o), ?_, rfl⟩
  have single : partCount 0 (Image.totalSize m) = 1 := if_neg (not_not_intro rfl)
  rw [generate, built]
  simp only [single]
  rw [if_neg Bool.noConfusion]
  exact congrArg (Option.map (finish outFile 1)) run

/-- What a run that succeeds leaves is the image, object by object. -/
theorem run_image {disk : Disk} {progress : Progress} {totalSize parts : Nat} {partitionSize : Int}
    {t : Tm} {volumeName : List UInt8} {m : Image} {o : Output}
    (run : runSteps disk progress totalSize parts partitionSize 0 opened
      (writeSteps ioBufSize volumeName t fopen m) = some (true, o)) :
    o.parts.flatten = output (written volumeName t fopen m) ∧
      (∀ joliet msb, Copied ioBufSize (pathTable m joliet msb)) ∧
      ∀ e ∈ m.files.flatten, Opens fopen e := by
  obtain ⟨plain, bytes⟩ := runSteps_all run
  obtain ⟨copied, opens⟩ := (writeSteps_plain_iff ioBufSize volumeName t).mp plain
  refine ⟨?_, copied, opens⟩
  rw [bytes, emitted_writeSteps volumeName t fopen copied]
  rfl

/-- A call that succeeds keeps the files of a sound tree if they are read as they were measured; and
it keeps them, whatever bytes they have, only then, where no file is read for two entries. -/
theorem generate_keepsFiles_iff (proper : tree.Proper)
    (sound : ∀ m, build stat tempBufSize inDir tree = .ok m → Sound stat (listDirs inDir tree) m) :
    (ReadsAsMeasured stat tempBufSize ioBufSize inDir tree fopen →
      KeepsFiles stat tempBufSize ioBufSize inDir tree fopen) ∧
    ((∀ m, build stat tempBufSize inDir tree = .ok m → Unshared fopen m.files.flatten) →
      KeepsFiles stat tempBufSize ioBufSize inDir tree fopen →
      ReadsAsMeasured stat tempBufSize ioBufSize inDir tree fopen) := by
  constructor
  · intro reads fopen' same disk progress partitionSize t outFile volumeName outcome call zero
    obtain ⟨m, o, built, run⟩ := generate_zero call zero
    refine ⟨m, o, built, run, ?_⟩
    obtain ⟨image, copied, opens⟩ := run_image run
    have fits := reads m built copied fun e member => (same.opensEntry e).mp (opens e member)
    rw [image, filesKept_iff proper built (sound m built)]
    exact readsFit_holds (same.fits fits) _
  · intro unshared keeps m built copied opens
    apply holdsAll_fits (unshared m built)
    intro fopen' same
    have t : Tm := ⟨0, 0, 0, 0, 0, 0⟩
    obtain ⟨outcome, call, zero⟩ := generate_succeeds built copied
      (fun e member => (same.opensEntry e).mpr (opens e member)) t [] []
    obtain ⟨m', o, built', run, kept⟩ := keeps fopen' same _ _ _ _ _ _ outcome call zero
    cases built.symm.trans built'
    rw [(run_image run).1, filesKept_iff proper built (sound m built)] at kept
    exact kept

end Generate

/-! ## One file -/

/-- The tree of a file `a` and an empty directory `b` is sound. -/
theorem oneEach_sound : ∃ m,
    build (oneEachStat (ascii "a") (ascii "b")) 0x100000 (ascii "/in")
      (oneEach (ascii "a") (ascii "b")) = .ok m ∧
    m.files = oneEachFiles (ascii "a") ∧
    (∀ joliet msb, Copied 0x100000 (pathTable m joliet msb)) ∧
    Sound (oneEachStat (ascii "a") (ascii "b"))
      (listDirs (ascii "/in") (oneEach (ascii "a") (ascii "b"))) m := by
  have proper : (oneEach (ascii "a") (ascii "b")).Proper :=
    oneEach_proper (by decide) (by decide)
  obtain ⟨m, built, files, presumed⟩ := oneEach_presumed proper (by decide +kernel)
    (by decide +kernel) rfl (by decide +kernel)
  refine ⟨m, built, files, presumed.copied, presumed.shortDirs, presumed.few, ?_⟩
  rw [files]
  intro joliet i inside k e n s here j last
  have none' : ∀ joliet, ∀ i < 2, ∀ k < (partsIn (oneEachFiles (ascii "a")) i).length,
      writers (oneEachStat (ascii "a") (ascii "b")) joliet
        (listDirs (ascii "/in") (oneEach (ascii "a") (ascii "b"))) (oneEachFiles (ascii "a")) 2 i
        (k + 2) = [] := by
    decide +kernel
  have free := none' joliet i inside k (List.getElem?_eq_some_iff.mp here).1
  have two : (listDirs (ascii "/in") (oneEach (ascii "a") (ascii "b"))).length = 2 := by
    decide +kernel
  rw [two, free] at last
  cases last

/-- The file is read as it was measured. -/
theorem oneEach_kept : KeepsFiles (oneEachStat (ascii "a") (ascii "b")) 0x100000 0x100000
    (ascii "/in") (oneEach (ascii "a") (ascii "b"))
    (oneEachSources (ascii "a") (ascii "b")) := by
  obtain ⟨m, built, files, -, sound⟩ := oneEach_sound
  have proper : (oneEach (ascii "a") (ascii "b")).Proper :=
    oneEach_proper (by decide) (by decide)
  refine (generate_keepsFiles_iff proper fun m' built' => ?_).1 ?_
  · cases built.symm.trans built'
    exact sound
  · intro m' built' copied opens
    cases built.symm.trans built'
    rw [files]
    intro front e back split
    cases front with
    | nil =>
      obtain ⟨rfl, rfl⟩ := List.cons.inj split
      refine ⟨?_, fun more => ?_⟩
      · have lengths : (piecesOf (oneEachSources (ascii "a") (ascii "b"))
            ⟨createPath (ascii "/in") (ascii "a"), 0, (createPath (ascii "/in") (ascii "a")).length,
              false⟩).map List.length = [5] := by
          decide +kernel
        rw [lengths]
        change Fits 5 [5]
        rw [Fits, if_neg (Nat.lt_irrefl _)]
        exact Or.inl rfl
      · obtain ⟨e', none', -⟩ := more
        cases none'
    | cons first front =>
      have none' : front ++ e :: back = [] := (List.cons.inj split).2.symm
      exact absurd none' (List.append_ne_nil_of_right_ne_nil _ (List.cons_ne_nil _ _))

/-- The file is found empty when it is read. -/
def emptied : Sources := fun path => (oneEachStat (ascii "a") (ascii "b") path).map fun _ => []

/-- The call still returns 0, and its image does not hold the five bytes that were measured. -/
theorem emptied_lost : ∃ m o outcome,
    build (oneEachStat (ascii "a") (ascii "b")) 0x100000 (ascii "/in")
      (oneEach (ascii "a") (ascii "b")) = .ok m ∧
    generate (oneEachStat (ascii "a") (ascii "b")) 0x100000 0x100000 emptied soundDisk quiet 0
      ⟨2013, 10, 7, 12, 0, 0⟩ (ascii "/in") (oneEach (ascii "a") (ascii "b")) (ascii "/out.iso")
      (ascii "V") = some outcome ∧ outcome.code = 0 ∧
    runSteps soundDisk quiet (Image.totalSize m) (partCount 0 (Image.totalSize m)).toNat 0 0 opened
      (writeSteps 0x100000 (ascii "V") ⟨2013, 10, 7, 12, 0, 0⟩ emptied m) = some (true, o) ∧
    ¬ FilesKept (oneEachStat (ascii "a") (ascii "b"))
      (listDirs (ascii "/in") (oneEach (ascii "a") (ascii "b"))) emptied m o.parts.flatten := by
  obtain ⟨m, built, files, copied, -⟩ := oneEach_sound
  have opens : ∀ e ∈ m.files.flatten, Opens emptied e := by
    rw [files]
    intro e only
    rw [List.mem_singleton.mp only]
    change (emptied (createPath (ascii "/in") (ascii "a"))).isSome = true
    decide +kernel
  obtain ⟨outcome, call, zero⟩ := generate_succeeds built copied opens ⟨2013, 10, 7, 12, 0, 0⟩
    (ascii "/out.iso") (ascii "V")
  obtain ⟨m', o, built', run⟩ := generate_zero call zero
  cases built.symm.trans built'
  refine ⟨m, o, outcome, built, call, zero, run, fun kept => ?_⟩
  obtain ⟨rs, content, -, -, -, all⟩ := kept false 0 (by decide +kernel)
  rw [files] at all
  have enough := (all [] _ [] rfl).enough
  revert enough
  decide +kernel

end FileExtents
