import NtfsIsoMounter.DirectoryChildren
import NtfsIsoMounter.ModularSpans

/-!
# Files of several extents

A file above 4 GiB gets one record for each part. The part index times the part size
is computed in 32 bits and subtracted from a 64-bit size; narrowed to 32 bits again,
the last length is nevertheless what is left. The parts of one file follow one another,
and so do the files, by sector numbers of 32 bits: two files share a sector number only
if there are more than `2 ^ 32` sectors of files.
-/

namespace MultiExtents

open CText SourceTrees DirectoryRecords ImageBuild DirectoryChildren ModularSpans

/-! ## The loop over the parts -/

/-- `parts` -/
def partCount (size : Nat) : UInt32 :=
  if size > 0xFFFFFFFF then
    UInt32.ofNat (size / multiextentPartSize) + if size % multiextentPartSize = 0 then 0 else 1
  else 1

/-- The length of part `i`; the product is one of `unsigned int`. -/
def partLength (size : Nat) (parts i : UInt32) : UInt32 :=
  if parts = 1 then UInt32.ofNat size
  else if i = parts - 1 then UInt32.ofNat (size - (i * 0xFFFFF800).toNat)
  else 0xFFFFF800

/-- The records from part `i` on, `n` of them, the next one at `lba`. -/
def partRecords (joliet : Bool) (time : RecordTime) (e : FileEntry) (parts : UInt32) :
    Nat → UInt32 → UInt32 → List Record
  | 0, _, _ => []
  | n + 1, i, lba =>
    let whole := parts ≠ 1 ∧ i ≠ parts - 1
    ⟨lba.toNat, (partLength e.size parts i).toNat, time, if whole then isoMultiextent else 0,
      fileIdent joliet (baseName e.path)⟩ ::
    partRecords joliet time e parts n (i + 1)
      (if whole then lba + UInt32.ofNat (bytesToSectors multiextentPartSize) else lba)

/-- The sectors of a file. -/
def sectorsOf (size : Nat) : Nat := (size + 0x7ff) / 0x800

theorem bytesToSectors_eq (size : Nat) : bytesToSectors size = sectorsOf size % 2 ^ 32 := rfl

theorem bytesToSectors_part : bytesToSectors multiextentPartSize = 0x1FFFFF := by decide

/-- What is left for the last part, and for a part before it. -/
theorem left_of_last {size i : Nat} (last : i + 1 = partsOf size) :
    i * multiextentPartSize ≤ size ∧ size - i * multiextentPartSize ≤ 0xFFFFFFFF ∧
      (i ≠ 0 → i * multiextentPartSize < size) := by
  rw [partsOf, multiextentPartSize] at last
  rw [multiextentPartSize]
  split at last
  · have whole := Nat.div_add_mod size 0xFFFFF800
    have below := Nat.mod_lt size (show 0 < 0xFFFFF800 by decide)
    split at last <;> omega
  · omega

theorem left_of_before {size i : Nat} (before : i + 1 < partsOf size) :
    (i + 1) * multiextentPartSize < size := by
  rw [partsOf, multiextentPartSize] at before
  rw [multiextentPartSize]
  split at before
  · have whole := Nat.div_add_mod size 0xFFFFF800
    split at before <;> omega
  · omega

section Parts
variable {size : Nat} (small : sectorsOf size < 2 ^ 32)
include small

theorem partsOf_lt : partsOf size < 2 ^ 12 := by
  rw [sectorsOf] at small
  rw [partsOf, multiextentPartSize]
  split
  · split <;> omega
  · decide

theorem partCount_toNat : (partCount size).toNat = partsOf size := by
  have limit := partsOf_lt small
  rw [partsOf] at limit ⊢
  rw [partCount]
  split at limit
  · rename_i long
    rw [if_pos long, if_pos long, UInt32.toNat_add, UInt32.toNat_ofNat']
    split at limit
    · rename_i none'
      rw [if_pos none', if_pos none', UInt32.toNat_zero]
      rw [Nat.mod_eq_of_lt (a := size / multiextentPartSize) (by omega)]
      exact Nat.mod_eq_of_lt (by omega)
    · rename_i some'
      rw [if_neg some', if_neg some', UInt32.toNat_one]
      rw [Nat.mod_eq_of_lt (a := size / multiextentPartSize) (by omega)]
      exact Nat.mod_eq_of_lt (by omega)
  · rename_i short
    rw [if_neg short, if_neg short]
    rfl

theorem partCount_eq_one : partCount size = 1 ↔ partsOf size = 1 := by
  rw [← UInt32.toNat_inj, partCount_toNat small, UInt32.toNat_one]

theorem last_part {i : UInt32} : i = partCount size - 1 ↔ i.toNat + 1 = partsOf size := by
  have pos := partsOf_pos size
  have count := partCount_toNat small
  have one : (1 : UInt32) ≤ partCount size := by
    rw [UInt32.le_iff_toNat_le, count]
    exact pos
  rw [← UInt32.toNat_inj, UInt32.toNat_sub_of_le _ _ one, count, UInt32.toNat_one]
  omega

/-- The product loses a multiple of `2 ^ 32`, and so does the difference. -/
theorem partLength_toNat {i : UInt32} (inside : i.toNat < partsOf size) :
    (partLength size (partCount size) i).toNat =
      if i.toNat + 1 = partsOf size then (size - i.toNat * multiextentPartSize) % 2 ^ 32
      else multiextentPartSize := by
  rw [partLength]
  by_cases single : partsOf size = 1
  · have first : i.toNat = 0 := by omega
    rw [if_pos ((partCount_eq_one small).mpr single), if_pos (by omega), first, Nat.zero_mul,
      Nat.sub_zero, UInt32.toNat_ofNat']
  · rw [if_neg (fun h => single ((partCount_eq_one small).mp h))]
    by_cases final : i.toNat + 1 = partsOf size
    · have left := (left_of_last final).1
      have product := Nat.div_add_mod (i.toNat * multiextentPartSize) (2 ^ 32)
      have literal : (0xFFFFF800 : UInt32).toNat = multiextentPartSize := rfl
      rw [if_pos ((last_part small).mpr final), if_pos final, UInt32.toNat_ofNat',
        UInt32.toNat_mul, literal]
      omega
    · rw [if_neg (fun h => final ((last_part small).mp h)), if_neg final]
      rfl

end Parts

/-- The loop makes the records that the model of `buildContent` counts off. -/
theorem partRecords_eq (joliet : Bool) (time : RecordTime) {e : FileEntry}
    (small : sectorsOf e.size < 2 ^ 32) {n : Nat} {i lba : UInt32}
    (together : i.toNat + n = partsOf e.size)
    (at' : lba.toNat = (e.rlba + i.toNat * bytesToSectors multiextentPartSize) % 2 ^ 32) :
    partRecords joliet time e (partCount e.size) n i lba =
      (List.range' i.toNat n).map (fileRecord joliet time e) := by
  induction n generalizing i lba with
  | zero => rfl
  | succ n ih =>
    have limit := partsOf_lt small
    have next : (i + 1).toNat = i.toNat + 1 := by
      rw [UInt32.toNat_add, UInt32.toNat_one, Nat.mod_eq_of_lt (by omega)]
    have whole : (partCount e.size ≠ 1 ∧ i ≠ partCount e.size - 1) ↔
        ¬ i.toNat + 1 = partsOf e.size := by
      rw [Ne, Ne, partCount_eq_one small, last_part small]
      omega
    rw [partRecords, List.range'_succ, List.map_cons]
    congr 1
    · rw [partLength_toNat small (by omega), at', fileRecord]
      simp only [whole, ite_not]
    · cases n with
      | zero => rfl
      | succ n =>
        rw [if_pos (whole.mpr (by omega)), ih (by omega) ?_, next]
        rw [UInt32.toNat_add, at', next, UInt32.toNat_ofNat', bytesToSectors_part]
        omega

/-- The records of a file are those of the whole loop. -/
theorem partRecords_of_fileRecords {stat : List UInt8 → Option Stat} {joliet : Bool}
    {e : FileEntry} (small : sectorsOf e.size < 2 ^ 32) {rs : List Record}
    (made : fileRecords stat joliet e = some rs) : ∃ time, rs =
      partRecords joliet time e (partCount e.size) (partCount e.size).toNat 0
        (UInt32.ofNat e.rlba) := by
  obtain ⟨s, -, records⟩ := Option.bind_eq_some_iff.mp made
  refine ⟨s.mtime, ?_⟩
  rw [partRecords_eq joliet s.mtime small, partCount_toNat small, ← Option.some.inj records,
    List.range_eq_range']
  · rfl
  · rw [partCount_toNat small, UInt32.toNat_zero, Nat.zero_add]
  · rw [UInt32.toNat_ofNat', UInt32.toNat_zero, Nat.zero_mul, Nat.add_zero]

/-! ## The extents of a file -/

/-- The records of a file of `size` bytes whose first sector is `lba`, in a row. -/
inductive PartsFrom : Nat → Nat → List Record → Prop
  | last {lba size : Nat} {r : Record} : r.start = lba % 2 ^ 32 → r.length = size →
      size ≤ 0xFFFFFFFF → r.flags = 0 → PartsFrom lba size [r]
  | part {lba size : Nat} {r : Record} {rs : List Record} : r.start = lba % 2 ^ 32 →
      r.length = multiextentPartSize → r.flags = isoMultiextent → multiextentPartSize < size →
      PartsFrom (lba + sectorsOf multiextentPartSize) (size - multiextentPartSize) rs →
      PartsFrom lba size (r :: rs)

/-- Each record starts at the sector where the one before ends, the first at `lba`. -/
def Chained (lba : Nat) : List Record → Prop
  | [] => True
  | r :: rs => r.start = lba % 2 ^ 32 ∧ Chained (r.start + sectorsOf r.length) rs

structure Extents (e : FileEntry) (rs : List Record) : Prop where
  sum : (rs.map Record.length).sum = e.size
  chained : Chained e.rlba rs
  parts : ∀ r ∈ rs.dropLast, r.flags = isoMultiextent ∧ r.length = 0xFFFFF800
  last : ∃ r, rs.getLast? = some r ∧ r.flags = 0 ∧ r.length ≤ 0xFFFFFFFF ∧
    (r.length = 0 → e.size = 0)

/-! ## Records made for one file -/

/-- From some part on, the records of the parts left. -/
theorem partsFrom_range (joliet : Bool) (time : RecordTime) (e : FileEntry) {n i : Nat}
    (together : i + n + 1 = partsOf e.size) :
    PartsFrom (e.rlba + i * bytesToSectors multiextentPartSize) (e.size - i * multiextentPartSize)
      ((List.range' i (n + 1)).map (fileRecord joliet time e)) := by
  induction n generalizing i with
  | zero =>
    obtain ⟨-, fits, -⟩ := left_of_last together
    refine .last rfl ?_ fits ?_
    · rw [fileRecord, if_pos together]
      exact Nat.mod_eq_of_lt (by omega)
    · exact if_pos together
  | succ n ih =>
    have before : i + 1 < partsOf e.size := by omega
    have left := left_of_before before
    have rest := ih (i := i + 1) (by omega)
    rw [List.range'_succ, List.map_cons]
    refine .part rfl ?_ ?_ ?_ ?_
    · exact if_neg before.ne
    · exact if_neg before.ne
    · rw [Nat.add_mul] at left
      omega
    · rw [Nat.add_mul, Nat.one_mul, Nat.add_mul, Nat.one_mul, ← Nat.add_assoc,
        ← Nat.sub_sub] at rest
      exact rest

theorem partsFrom_fileRecords {stat : List UInt8 → Option Stat} {joliet : Bool} {e : FileEntry}
    {rs : List Record} (made : fileRecords stat joliet e = some rs) :
    PartsFrom e.rlba e.size rs := by
  obtain ⟨s, -, records⟩ := Option.bind_eq_some_iff.mp made
  have pos := partsOf_pos e.size
  have all := partsFrom_range joliet s.mtime e (n := partsOf e.size - 1) (i := 0) (by omega)
  rw [Nat.sub_add_cancel pos, Nat.zero_mul, Nat.zero_mul, Nat.sub_zero, Nat.add_zero,
    ← List.range_eq_range'] at all
  rw [← Option.some.inj records]
  exact all

namespace PartsFrom
variable {lba size : Nat} {rs : List Record}

theorem sum_eq (parts : PartsFrom lba size rs) : (rs.map Record.length).sum = size := by
  induction parts with
  | last _ length _ _ => rw [List.map_singleton, List.sum_singleton, length]
  | part _ length _ more _ ih =>
    rw [List.map_cons, List.sum_cons, ih, length]
    omega

theorem chained (parts : PartsFrom lba size rs) {lba' : Nat}
    (same : lba' % 2 ^ 32 = lba % 2 ^ 32) : Chained lba' rs := by
  induction parts generalizing lba' with
  | last start _ _ _ => exact ⟨start.trans same.symm, trivial⟩
  | part start length _ _ _ ih =>
    refine ⟨start.trans same.symm, ih ?_⟩
    rw [start, length, Nat.mod_add_mod]

theorem dropLast_whole (parts : PartsFrom lba size rs) :
    ∀ r ∈ rs.dropLast, r.flags = isoMultiextent ∧ r.length = 0xFFFFF800 := by
  induction parts with
  | last _ _ _ _ =>
    intro r hr
    cases hr
  | part _ length flags _ rest ih =>
    have nonempty : ∀ {lba size : Nat} {rs : List Record}, PartsFrom lba size rs → rs ≠ [] := by
      rintro lba size rs (_ | _) <;> exact List.cons_ne_nil _ _
    rw [List.dropLast_cons_of_ne_nil (nonempty rest)]
    exact List.forall_mem_cons.mpr ⟨⟨flags, length⟩, ih⟩

/-- What is left for the last record is nothing only if there was nothing. -/
theorem getLast_rest (parts : PartsFrom lba size rs) : ∃ r, rs.getLast? = some r ∧
    r.flags = 0 ∧ r.length ≤ 0xFFFFFFFF ∧ (r.length = 0 → size = 0) := by
  induction parts with
  | last _ length fits flags =>
    exact ⟨_, rfl, flags, length.trans_le fits, fun empty => length.symm.trans empty⟩
  | part _ _ _ more _ ih =>
    obtain ⟨r, last, flags, fits, filled⟩ := ih
    refine ⟨r, ?_, flags, fits, ?_⟩
    · rw [List.getLast?_cons, last]
      rfl
    · intro empty
      have := filled empty
      omega

theorem extents {e : FileEntry} (parts : PartsFrom e.rlba e.size rs) : Extents e rs :=
  ⟨parts.sum_eq, parts.chained rfl, parts.dropLast_whole, parts.getLast_rest⟩

/-- The records hold the sectors of the file. -/
theorem covers_iff (parts : PartsFrom lba size rs) (s : Nat) :
    (∃ r ∈ rs, Covers (2 ^ 32) r.start (sectorsOf r.length) s) ↔
      Covers (2 ^ 32) lba (sectorsOf size) s := by
  induction parts with
  | last start length _ _ =>
    simp only [List.mem_singleton, exists_eq_left, start, length, covers_mod]
  | @part lba size r rs start length _ more _ ih =>
    have split : sectorsOf size =
        sectorsOf multiextentPartSize + sectorsOf (size - multiextentPartSize) := by
      simp only [sectorsOf, multiextentPartSize] at more ⊢
      omega
    rw [split, covers_add, ← ih]
    simp only [List.mem_cons, exists_eq_or_imp, start, length, covers_mod]

end PartsFrom

/-! ## The extents of different files -/

/-- No sector number belongs to records of both. -/
def NoOverlap (rs ss : List Record) : Prop :=
  ∀ s, (∃ r ∈ rs, Covers (2 ^ 32) r.start (sectorsOf r.length) s) →
    ¬ ∃ r ∈ ss, Covers (2 ^ 32) r.start (sectorsOf r.length) s

/-- The first sector and the number of sectors. -/
def span (e : FileEntry) : Nat × Nat := (e.rlba, sectorsOf e.size)

section Listing
variable {stat : List UInt8 → Option Stat}

/-- One file follows the other, in 32 bits. -/
theorem listFilesFrom_spans {dir : List UInt8} {names : List (List UInt8)} {i : Nat}
    {linked : Bool} {sectors : Nat} {entries : List FileEntry} {last : Nat}
    (listed : listFilesFrom stat dir i linked (sectors % 2 ^ 32) names = .ok (entries, last)) :
    entries.map span = (spansFrom sectors (entries.map fun e => sectorsOf e.size)).map
        (fun x => (x.1 % 2 ^ 32, x.2)) ∧
      last = (sectors + (entries.map fun e => sectorsOf e.size).sum) % 2 ^ 32 := by
  induction names generalizing i linked sectors entries last with
  | nil =>
    cases listed
    exact ⟨rfl, rfl⟩
  | cons name names ih =>
    rw [listFilesFrom] at listed
    split at listed
    · exact ih listed
    · split at listed
      · cases listed
      · obtain ⟨⟨size, path⟩, -, listed⟩ := bind_ok.mp listed
        obtain ⟨⟨later, last'⟩, rest, listed⟩ := bind_ok.mp listed
        cases listed
        rw [bytesToSectors_eq, Nat.mod_add_mod, Nat.add_mod_mod] at rest
        obtain ⟨spans, sum⟩ := ih rest
        constructor
        · rw [List.map_cons, List.map_cons, spansFrom, List.map_cons, spans]
          rfl
        · rw [sum, List.map_cons, List.sum_cons, Nat.add_assoc]

theorem listFiles_spans {dirs : List Dir} {sectors : Nat} {files : List (List FileEntry)}
    {last : Nat} (listed : listFiles stat dirs (sectors % 2 ^ 32) = .ok (files, last)) :
    files.flatten.map span =
      (spansFrom sectors (files.flatten.map fun e => sectorsOf e.size)).map
        (fun x => (x.1 % 2 ^ 32, x.2)) := by
  induction dirs generalizing sectors files last with
  | nil =>
    cases listed
    rfl
  | cons d dirs ih =>
    obtain ⟨⟨entries, between⟩, first, listed⟩ := bind_ok.mp listed
    obtain ⟨⟨later, last'⟩, rest, listed⟩ := bind_ok.mp listed
    cases listed
    obtain ⟨spans, rfl⟩ := listFilesFrom_spans first
    rw [List.flatten_cons, List.map_append, List.map_append, spansFrom_append, List.map_append,
      spans, ih rest]

end Listing

/-! ## All files -/

theorem noOverlap_iff {stat : List UInt8 → Option Stat} {joliet : Bool} {e f : FileEntry}
    {rs ss : List Record} (made : fileRecords stat joliet e = some rs)
    (made' : fileRecords stat joliet f = some ss) :
    NoOverlap rs ss ↔ Apart (2 ^ 32) (span e) (span f) := by
  simp only [NoOverlap, Apart, span, (partsFrom_fileRecords made).covers_iff,
    (partsFrom_fileRecords made').covers_iff]

theorem pairwise_noOverlap_iff {stat : List UInt8 → Option Stat} {joliet : Bool}
    {es : List FileEntry} {records : List (List Record)}
    (made : es.mapM (fileRecords stat joliet) = some records) :
    records.Pairwise NoOverlap ↔ (es.map span).Pairwise (Apart (2 ^ 32)) := by
  have each := mapM_eq_some.mp made
  have all : (es.map (fileRecords stat joliet)).Pairwise (fun x y =>
      ∀ rs ss, x = some rs → y = some ss → NoOverlap rs ss) ↔ records.Pairwise NoOverlap := by
    rw [each, List.pairwise_map]
    constructor
    · exact List.Pairwise.imp fun apart => apart _ _ rfl rfl
    · refine List.Pairwise.imp fun apart rs ss same same' => ?_
      rw [← Option.some.inj same, ← Option.some.inj same']
      exact apart
  have some' : ∀ e ∈ es, ∃ rs, fileRecords stat joliet e = some rs := by
    intro e he
    have member : fileRecords stat joliet e ∈ records.map some := each ▸ List.mem_map_of_mem he
    obtain ⟨rs, -, same⟩ := List.mem_map.mp member
    exact ⟨rs, same.symm⟩
  rw [← all, List.pairwise_map, List.pairwise_map]
  constructor
  · refine List.Pairwise.imp_of_mem ?_
    intro e f he hf apart
    obtain ⟨rs, made⟩ := some' e he
    obtain ⟨ss, made'⟩ := some' f hf
    exact (noOverlap_iff made made').mp (apart rs ss made made')
  · refine List.Pairwise.imp_of_mem ?_
    intro e f he hf apart rs ss made made'
    exact (noOverlap_iff made made').mpr apart

/-- The records made for the listed files: each file has its extents, and different files
have different sectors exactly if there are at most `2 ^ 32` sectors of files. -/
theorem fileRecords_extents {stat : List UInt8 → Option Stat} {dirs : List Dir}
    {files : List (List FileEntry)} {total : Nat}
    (listed : listFiles stat dirs 0 = .ok (files, total))
    (small : ∀ e ∈ files.flatten, sectorsOf e.size < 2 ^ 32) {joliet : Bool}
    {records : List (List Record)}
    (made : files.flatten.mapM (fileRecords stat joliet) = some records) :
    List.Forall₂ (fun e rs => Extents e rs ∧ ∃ time, rs =
        partRecords joliet time e (partCount e.size) (partCount e.size).toNat 0
          (UInt32.ofNat e.rlba)) files.flatten records ∧
      (records.Pairwise NoOverlap ↔
        (files.flatten.map fun e => sectorsOf e.size).sum ≤ 2 ^ 32) := by
  constructor
  · have each : List.Forall₂ (fun e rs => fileRecords stat joliet e = some rs)
        files.flatten records := by
      rw [← List.forall₂_map_left_iff (R := fun x rs => x = some rs), mapM_eq_some.mp made,
        List.forall₂_map_left_iff]
      exact List.forall₂_same.mpr fun _ _ => rfl
    refine ((List.forall₂_and_left _ _).mpr ⟨small, each⟩).imp ?_
    rintro e rs ⟨small, made⟩
    exact ⟨(partsFrom_fileRecords made).extents, partRecords_of_fileRecords small made⟩
  · have spans : files.flatten.map span =
        (spansFrom 0 (files.flatten.map fun e => sectorsOf e.size)).map
          (fun x => (x.1 % 2 ^ 32, x.2)) := listFiles_spans listed
    rw [pairwise_noOverlap_iff made, spans, List.pairwise_map]
    have wrap : ∀ x y : Nat × Nat, Apart (2 ^ 32) (x.1 % 2 ^ 32, x.2) (y.1 % 2 ^ 32, y.2) ↔
        Apart (2 ^ 32) x y := by
      intro x y
      simp only [Apart, covers_mod]
    simp only [wrap]
    apply apart_iff_fits
    intro n hn
    obtain ⟨e, he, rfl⟩ := List.mem_map.mp hn
    exact small e he

/-! ## Files of 5 GiB and of 4 TiB -/

/-- Files `a`, `b` and `c`. -/
def threeFiles : SourceTree := .dir true [ascii "a", ascii "b", ascii "c"] []

def sizedStat (size : List UInt8 → Nat) (path : List UInt8) : Option Stat :=
  some ⟨size path, ⟨0, 0, 0, 0, 0, 0⟩⟩

def fiveGiB : List FileEntry :=
  [⟨ascii "/in/a", 0, 5 * 2 ^ 30, false⟩, ⟨ascii "/in/b", 2621440, 5 * 2 ^ 30, false⟩,
    ⟨ascii "/in/c", 5242880, 5 * 2 ^ 30, false⟩]

theorem fiveGiB_apart :
    listFiles (sizedStat fun _ => 5 * 2 ^ 30) (listDirs (ascii "/in") threeFiles) 0 =
      .ok ([fiveGiB], 7864320) ∧
    ∃ records, fiveGiB.mapM (fileRecords (sizedStat fun _ => 5 * 2 ^ 30) false) = some records ∧
      records.Pairwise NoOverlap := by
  obtain ⟨records, made⟩ := Option.isSome_iff_exists.mp
    (show (fiveGiB.mapM (fileRecords (sizedStat fun _ => 5 * 2 ^ 30) false)).isSome = true by
      decide +kernel)
  refine ⟨rfl, records, made, ?_⟩
  have listed : listFiles (sizedStat fun _ => 5 * 2 ^ 30) (listDirs (ascii "/in") threeFiles) 0 =
      .ok ([fiveGiB], 7864320) := rfl
  exact (fileRecords_extents listed (by decide +kernel) made).2.mpr (by decide +kernel)

def fourTiBSize (path : List UInt8) : Nat := if path = ascii "/in/c" then 0x800 else 2 ^ 42

def fourTiB : List FileEntry :=
  [⟨ascii "/in/a", 0, 2 ^ 42, false⟩, ⟨ascii "/in/b", 2 ^ 31, 2 ^ 42, false⟩,
    ⟨ascii "/in/c", 0, 0x800, false⟩]

/-- Two files of `2 ^ 31` sectors use up the sector numbers, and the third begins
where the first does. -/
theorem fourTiB_overlap :
    listFiles (sizedStat fourTiBSize) (listDirs (ascii "/in") threeFiles) 0 = .ok ([fourTiB], 1) ∧
    (∀ e ∈ fourTiB, sectorsOf e.size < 2 ^ 32) ∧
    ∃ records, fourTiB.mapM (fileRecords (sizedStat fourTiBSize) false) = some records ∧
      ¬ records.Pairwise NoOverlap := by
  obtain ⟨records, made⟩ := Option.isSome_iff_exists.mp
    (show (fourTiB.mapM (fileRecords (sizedStat fourTiBSize) false)).isSome = true by
      decide +kernel)
  refine ⟨rfl, by decide +kernel, records, made, ?_⟩
  intro apart
  have spans := (pairwise_noOverlap_iff made).mp apart
  have first := (List.pairwise_cons.mp spans).1 (0, 1) (by decide +kernel) 0
  exact first ⟨0, by decide +kernel, rfl⟩ ⟨0, by decide, rfl⟩

end MultiExtents
