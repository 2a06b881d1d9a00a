import NtfsIsoMounter.ContentHeads
import NtfsIsoMounter.ImageTables

/-!
# The records a content stores

A reader takes the records out of a content by the length in the first byte of
each. In a content that has just been made it finds every record whose length
byte is not zero, also those whose length has wrapped and that are cut off.
-/

namespace StoredRecords

open ByteOrder CText SectorPacking SourceTrees DirectoryRecords ImageBuild RecordPasses
  ContentPasses ContentHeads ImageTables

/-- The records from a position on, each with as many bytes as its first one tells. -/
def recordsFrom : Nat → Nat → List UInt8 → List (List UInt8)
  | 0, _, _ => []
  | fuel + 1, pos, rest =>
    match nextDirRecord pos rest with
    | none => []
    | some (pos, rest) =>
      let len := (rest.getD 0 0).toNat
      rest.take len :: recordsFrom fuel (pos + len) (rest.drop len)

def storedRecords (content : List UInt8) : List (List UInt8) :=
  recordsFrom content.length 0 content

/-- `fileFlags` are those of a directory. A record that ends in front of them counts as
one, since no file has such a long name. -/
def isDirectory (record : List UInt8) : Bool := record.getD 25 isoDirectory &&& isoDirectory != 0

/-- The directory records behind `.` and `..`. -/
def storedDirectories (content : List UInt8) : List (List UInt8) :=
  ((storedRecords content).drop 2).filter isDirectory

/-! ## Records that take no place -/

/-- Some bytes that tell their own number, or none. -/
def Marked (bytes : List UInt8) : Prop :=
  bytes = [] ∨ ∃ b more, bytes = b :: more ∧ b.toNat = bytes.length

theorem gap_zero (pos : Nat) : gap sectorSize pos 0 = 0 := by
  rw [gap, Nat.add_zero, if_neg (lt_irrefl _)]

def kept (bs : List (List UInt8)) : List (List UInt8) := bs.filter (fun b => !b.isEmpty)

theorem packFrom_kept (pos : Nat) (bs : List (List UInt8)) :
    packFrom sectorSize (0 : UInt8) pos (kept bs) = packFrom sectorSize 0 pos bs ∧
      endFrom sectorSize pos (kept bs) = endFrom sectorSize pos bs := by
  induction bs generalizing pos with
  | nil => exact ⟨rfl, rfl⟩
  | cons b bs ih =>
    cases b with
    | nil =>
      have skipped : kept ([] :: bs) = kept bs := List.filter_cons_of_neg (by simp)
      rw [skipped, packFrom, endFrom, List.length_nil, gap_zero, List.replicate_zero,
        List.nil_append, List.nil_append, Nat.add_zero]
      exact ih pos
    | cons x xs =>
      have stored : kept ((x :: xs) :: bs) = (x :: xs) :: kept bs :=
        List.filter_cons_of_pos (by simp)
      obtain ⟨first, second⟩ := ih (pos + gap sectorSize pos (x :: xs).length + (x :: xs).length)
      rw [stored, packFrom, endFrom, packFrom, endFrom, first]
      exact ⟨rfl, second⟩

theorem pack_kept (bs : List (List UInt8)) :
    pack sectorSize (0 : UInt8) (kept bs) = pack sectorSize 0 bs := by
  obtain ⟨first, second⟩ := packFrom_kept 0 bs
  rw [pack, pack, first, second]

theorem fits_of_kept {bs : List (List UInt8)} (marked : ∀ b ∈ bs, Marked b) :
    ∀ b ∈ kept bs, Fits sectorSize UInt8.toNat b := by
  intro b among
  obtain ⟨own, filled⟩ := List.mem_filter.mp among
  rcases marked b own with rfl | ⟨x, more, rfl, length⟩
  · cases filled
  · have small := x.toNat_lt
    exact ⟨by rw [← length, sectorSize]; omega, x, more, rfl, length⟩

theorem recordsFrom_pack (fuel pos : Nat) {bs : List (List UInt8)}
    (fits : ∀ b ∈ bs, Fits sectorSize UInt8.toNat b) (enough : bs.length ≤ fuel) :
    recordsFrom fuel pos (packFrom sectorSize 0 pos bs ++
      List.replicate (fill sectorSize (endFrom sectorSize pos bs)) 0) = bs := by
  have zero : UInt8.toNat 0 = 0 := rfl
  induction bs generalizing fuel pos with
  | nil =>
    cases fuel with
    | zero => rfl
    | succ fuel => rw [packFrom, List.nil_append, endFrom, recordsFrom, nextDirRecord_end]
  | cons b bs ih =>
    obtain ⟨fuel, rfl⟩ : ∃ k, fuel = k + 1 := ⟨fuel - 1, by rw [List.length_cons] at enough; omega⟩
    obtain ⟨own, others⟩ := List.forall_mem_cons.mp fits
    have first (more : List UInt8) : ((b ++ more).getD 0 0).toNat = b.length := by
      obtain ⟨-, x, rest, rfl, length⟩ := own
      exact length
    rw [recordsFrom, nextDirRecord, nextRecord_packFrom zero pos own]
    dsimp only
    rw [first, List.take_left, List.drop_left, endFrom,
      ih fuel _ others (by rw [List.length_cons] at enough; omega)]

theorem length_le_packFrom (pos : Nat) {bs : List (List UInt8)} (filled : ∀ b ∈ bs, b ≠ []) :
    bs.length ≤ (packFrom sectorSize (0 : UInt8) pos bs).length := by
  induction bs generalizing pos with
  | nil => exact le_rfl
  | cons b bs ih =>
    obtain ⟨own, others⟩ := List.forall_mem_cons.mp filled
    have later := ih (pos + gap sectorSize pos b.length + b.length) others
    have some' := List.length_pos_iff.mpr own
    rw [packFrom, List.length_append, List.length_append, List.length_cons]
    omega

/-- The reader finds the packed records that take a place. -/
theorem storedRecords_pack {bs : List (List UInt8)} (marked : ∀ b ∈ bs, Marked b) :
    storedRecords (pack sectorSize 0 bs) = kept bs := by
  have filled : ∀ b ∈ kept bs, b ≠ [] := by
    rintro b among rfl
    cases (List.mem_filter.mp among).2
  have enough : (kept bs).length ≤ (pack sectorSize (0 : UInt8) (kept bs)).length := by
    rw [pack, List.length_append]
    exact (length_le_packFrom 0 filled).trans (Nat.le_add_right _ _)
  rw [storedRecords, ← pack_kept]
  exact recordsFrom_pack _ 0 (fits_of_kept marked) enough

/-! ## The bytes of one record -/

/-- Whatever its identifier, a record has as many bytes as its length byte tells. -/
theorem bytes_length (r : Record) : r.bytes.length = (lenDr r.ident).toNat := by
  rw [Record.bytes, List.length_take, List.length_append, List.length_replicate]
  omega

theorem marked_bytes (r : Record) : Marked r.bytes := by
  have length := bytes_length r
  rw [Record.bytes] at length ⊢
  generalize lenDr r.ident = n at length ⊢
  obtain none' | ⟨k, some'⟩ : n.toNat = 0 ∨ ∃ k, n.toNat = k + 1 := by
    cases n.toNat with
    | zero => exact Or.inl rfl
    | succ k => exact Or.inr ⟨k, rfl⟩
  · rw [none']
    exact Or.inl List.take_zero
  · rw [some'] at length ⊢
    exact Or.inr ⟨n, _, rfl, some'.trans length.symm⟩

theorem packed_kept (rs : List Record) :
    packed rs = pack sectorSize 0 (kept (rs.map Record.bytes)) :=
  (pack_kept _).symm

theorem kept_fits (rs : List Record) :
    ∀ b ∈ kept (rs.map Record.bytes), Fits sectorSize UInt8.toNat b := by
  refine fits_of_kept fun b among => ?_
  obtain ⟨r, -, rfl⟩ := List.mem_map.mp among
  exact marked_bytes r

theorem lenDr_wraps {ident : List UInt8} (short : ident.length ≤ maxIsoDir) :
    (lenDr ident).toNat = (39 + ident.length + (39 + ident.length) % 2) % 256 := by
  have all : ∀ n, n < 255 → (let k := 0x27 + UInt8.ofNat n
      if k &&& 1 = 1 then k + 1 else k : UInt8).toNat = (39 + n + (39 + n) % 2) % 256 := by
    decide +kernel
  apply all
  rw [maxIsoDir] at short
  omega

/-- The length byte is zero only for 216 and 217 bytes. -/
theorem bytes_eq_nil_iff {r : Record} (limit : r.ident.length ≤ maxIsoDir) :
    r.bytes = [] ↔ r.ident.length = 216 ∨ r.ident.length = 217 := by
  have length := bytes_length r
  rw [lenDr_wraps limit] at length
  rw [maxIsoDir] at limit
  rw [← List.length_eq_zero_iff]
  omega

/-- A byte of a record that is not cut off in front of it. -/
theorem bytes_getD (r : Record) {i : Nat} (inside : i < r.bytes.length) (b : UInt8) :
    r.bytes.getD i b = ([lenDr r.ident, 0] ++ extentBytes r.start r.length ++ r.rest ++
      List.replicate (lenDr r.ident).toNat 0).getD i b := by
  rw [bytes_length] at inside
  rw [Record.bytes, List.getD_eq_getElem?_getD, List.getElem?_take_of_lt inside,
    List.getD_eq_getElem?_getD]

theorem bytes_lenFi (r : Record) (inside : 32 < r.bytes.length) :
    r.bytes.getD 32 0 = UInt8.ofNat r.ident.length := by
  rw [bytes_getD r inside]
  simp [Record.rest, extentBytes, timeBytes, leBytes, beBytes]

theorem isDirectory_bytes (r : Record) :
    isDirectory r.bytes = (decide (r.bytes.length ≤ 25) || (r.flags &&& isoDirectory != 0)) := by
  rw [isDirectory]
  by_cases short : r.bytes.length ≤ 25
  · rw [List.getD_eq_default _ _ short, decide_eq_true short]
    rfl
  · have flags : r.bytes.getD 25 isoDirectory = r.flags := by
      rw [bytes_getD r (Nat.lt_of_not_le short)]
      simp [Record.rest, extentBytes, timeBytes, leBytes, beBytes]
    rw [flags, decide_eq_false short, Bool.false_or]

/-- From 218 bytes on the record is cut off in front of the end of its identifier. -/
theorem not_isRecord_of_long {r : Record} (long : 218 ≤ r.ident.length)
    (limit : r.ident.length ≤ maxIsoDir) : ¬ IsRecord r.bytes := by
  intro record
  have length := bytes_length r
  have least := record.least
  have inside := record.inside
  rw [lenDr_wraps limit] at length
  rw [maxIsoDir] at limit
  have lenFi : (r.bytes.getD 32 0).toNat = r.ident.length := by
    rw [bytes_lenFi r (by omega)]
    exact Nat.mod_eq_of_lt (by omega)
  omega

/-- A record of which the whole identifier can be read is not cut off. -/
theorem short_of_recordIdent {r : Record} (limit : r.ident.length ≤ maxIsoDir)
    (same : recordIdent r.bytes = r.ident) : Short r.ident := by
  have length := bytes_length r
  have read := congrArg List.length same
  rw [recordIdent, List.length_take, List.length_drop] at read
  rw [lenDr_wraps limit] at length
  rw [maxIsoDir] at limit
  rw [Short]
  omega

/-! ## A new content -/

/-- The records of a content that has just been made, with those of files and children. -/
structure Fresh (stat : List UInt8 → Option Stat) (joliet : Bool) (dirs : List Dir)
    (files : List FileEntry) (i : Nat) (dot dotDot : Record) (entries children : List Record) :
    Prop where
  self : dot.ident = [0]
  up : dotDot.ident = [1]
  files : ∃ parts, files.mapM (fileRecords stat joliet) = some parts ∧ entries = parts.flatten
  children : childRecords stat joliet dirs i = some children

section Turn
variable {stat : List UInt8 → Option Stat} {joliet : Bool} {tempBufSize : Nat} {dirs : List Dir}
  {files : List FileEntry} {sizes : List Nat} {st st' : Pass} {d : Dir}

theorem placed_packed {time above : RecordTime} {start start' length' : Nat}
    {rs : List Record} {placed : List UInt8}
    (ok : placeAll tempBufSize (rs.map Record.bytes) ((dotRecord start time).bytes ++
      (⟨start', length', above, isoDirectory, [1]⟩ : Record).bytes) = some placed) :
    setExtent (placed ++ List.replicate ((placed.length + 0x7ff) / 0x800 * 0x800 - placed.length) 0)
        0 (extentBytes start ((placed.length + 0x7ff) / 0x800 * 0x800)) =
      packed (⟨start, (placed.length + 0x7ff) / 0x800 * 0x800, time, isoDirectory, [0]⟩ ::
        ⟨start', length', above, isoDirectory, [1]⟩ :: rs) := by
  have dot : (dotRecord start time).ident = [0] := rfl
  have up : (⟨start', length', above, isoDirectory, [1]⟩ : Record).ident = [1] := rfl
  rw [(placeAll_content dot up ok).1, setExtent_first dot]
  rfl

/-- The turn for a directory makes its content, and stores an extent into that of its parent. -/
theorem buildContent_fresh (heads : Heads sizes st)
    (ok : buildContent stat joliet tempBufSize dirs files st st.contents.length d = .ok st') :
    ∃ contents dot dotDot entries children,
      st'.contents = contents ++ [packed (dot :: dotDot :: (entries ++ children))] ∧
      Fresh stat joliet dirs files st.contents.length dot dotDot entries children ∧
      (contents = st.contents ∨ ∃ p above pos start length, st.contents[p]? = some above ∧
        findDirRecord (strCheck joliet (baseName d.path)) above = some pos ∧
        contents = st.contents.set p (setExtent above pos (extentBytes start length))) := by
  by_cases root : getParent dirs st.contents.length = st.contents.length
  · simp only [buildContent, if_pos root, bind_ok, need_ok, pure_bind, pure_ok] at ok
    obtain ⟨own, -, above, -, entries, hentries, children, hchildren, placed, hplaced, rfl⟩ := ok
    have built := placed_packed hplaced
    rw [built, getExtent_first rfl, setExtent_second rfl rfl]
    exact ⟨_, _, _, _, _, rfl, ⟨rfl, rfl, ⟨entries, hentries, rfl⟩, hchildren⟩, Or.inl rfl⟩
  · simp only [buildContent, if_neg root, bind_ok, need_ok] at ok
    obtain ⟨own, -, parentRecord, stored, above, -, entries, hentries, children, hchildren, placed,
      hplaced, last⟩ := ok
    obtain ⟨content, above', rfl⟩ : ∃ content,
        st.contents[getParent dirs st.contents.length]? = some content ∧
          some content = parentRecord := by
      cases at' : st.contents[getParent dirs st.contents.length]? with
      | none =>
        rw [at'] at stored
        cases stored
      | some content =>
        rw [at'] at stored
        cases stored
        exact ⟨content, rfl, rfl⟩
    obtain ⟨pos, found, last⟩ := bind_ok.mp last
    rw [need_ok] at found
    rw [pure_ok] at last
    have inside : getParent dirs st.contents.length < sizes.length :=
      heads.count ▸ (List.getElem?_eq_some_iff.mp above').1
    have headed := heads.headed _ content _ above' (List.getElem?_eq_getElem inside)
    dsimp only at hplaced last
    rw [headed.getExtent_eq, setExtent_dotDot] at hplaced
    have built := placed_packed hplaced
    rw [built, getExtent_first rfl] at last
    rw [← last]
    exact ⟨_, _, _, _, _, rfl, ⟨rfl, rfl, ⟨entries, hentries, rfl⟩, hchildren⟩,
      Or.inr ⟨_, content, pos, _, _, above', found, rfl⟩⟩

end Turn

/-! ## The turns of a pass -/

section Pass
variable {stat : List UInt8 → Option Stat} {joliet : Bool} {tempBufSize : Nat} {dirs : List Dir}
  {files : List (List FileEntry)}

theorem buildContents_append (i : Nat) (first later : List Dir) (st : Pass) :
    buildContents stat joliet tempBufSize dirs files i (first ++ later) st =
      (buildContents stat joliet tempBufSize dirs files i first st >>= fun mid =>
        buildContents stat joliet tempBufSize dirs files (i + first.length) later mid) := by
  induction first generalizing i st with
  | nil => rfl
  | cons d first ih =>
    rw [List.cons_append, buildContents, buildContents]
    cases buildContent stat joliet tempBufSize dirs (files.getD i []) st i d with
    | error stop => rfl
    | ok mid =>
      have count : i + (d :: first).length = i + 1 + first.length := by
        rw [List.length_cons]
        omega
      rw [count]
      exact ih (i + 1) mid

/-- The last of the first turns, and what the turns before it leave. -/
theorem buildContents_last (keys : ∀ j, j ≠ 0 → j < dirs.length → keyAt joliet dirs j ≠ [0])
    {i : Nat} {d : Dir} (here : dirs[i]? = some d) {st : Pass}
    (ok : buildContents stat joliet tempBufSize dirs files 0 (dirs.take (i + 1)) ⟨[], 0⟩ =
      .ok st) :
    ∃ before sizes, buildContents stat joliet tempBufSize dirs files 0 (dirs.take i) ⟨[], 0⟩ =
        .ok before ∧ before.contents.length = i ∧ Heads sizes before ∧
      buildContent stat joliet tempBufSize dirs (files.getD i []) before i d = .ok st := by
  have inside := (List.getElem?_eq_some_iff.mp here).1
  have count : (dirs.take i).length = i := by
    rw [List.length_take]
    omega
  have last : dirs.take (i + 1) = dirs.take i ++ [d] := by
    rw [List.take_add_one, here, Option.toList_some]
  rw [last, buildContents_append, bind_ok] at ok
  obtain ⟨before, first, turn⟩ := ok
  have empty : Heads [] ⟨[], 0⟩ := by
    refine ⟨rfl, rfl, fun j content size at' => ?_⟩
    cases at'
  have front : dirs.take i <+: dirs.drop (⟨[], 0⟩ : Pass).contents.length := List.take_prefix i dirs
  obtain ⟨sizes, length, heads⟩ := buildContents_heads keys (dirs.take i) front empty first
  rw [List.nil_append] at heads
  rw [count, Nat.zero_add, buildContents] at turn
  obtain ⟨after, turn, ended⟩ := bind_ok.mp turn
  cases ended
  refine ⟨before, sizes, first, ?_, heads, turn⟩
  rw [heads.count, length, count]

end Pass

end StoredRecords
