import NtfsIsoMounter.DirectoryChildren
import NtfsIsoMounter.ImageTables

/-!
# Whole records in the sectors of a directory

The length of a record is stored in one byte. As long as it fits, every record of a
content lies in one sector, behind the one before it or at the start of the next
sector, with zeros in between. A directory name of more than 215 bytes in its tree
makes the byte wrap: up to 217 bytes no record is stored, from there on one that is
cut off.
-/

namespace RecordLayout

open CText SectorPacking SourceTrees DirectoryRecords ImageBuild RecordPasses ContentPasses
  ContentHeads ImageTables StoredRecords DirectoryChildren

/-- A record that is stored as a whole: its first byte is its even length, with room
for the members and the identifier, whose length is stored in front of it. -/
structure Whole (r : Record) : Prop where
  stored : r.bytes.head? = some (lenDr r.ident)
  length : r.bytes.length = (lenDr r.ident).toNat
  even : (lenDr r.ident).toNat % 2 = 0
  room : 33 + r.ident.length ≤ (lenDr r.ident).toNat
  lenFi : (r.bytes.getD 32 0).toNat = r.ident.length
  ident : (r.bytes.drop 33).take r.ident.length = r.ident

/-- From a position on, the content is these records and zeros: each record inside one
sector, directly behind the one before it or at the start of the next sector. -/
inductive WellFormed : Nat → List Record → List UInt8 → Prop
  | done {pos : Nat} {rest : List UInt8} : (∀ b ∈ rest, b = 0) → WellFormed pos [] rest
  | record {pos skip : Nat} {r : Record} {rs : List Record} {rest : List UInt8} : Whole r →
      (skip = 0 ∨ (pos + skip) % sectorSize = 0 ∧ skip < sectorSize) →
      (pos + skip) / sectorSize = (pos + skip + r.bytes.length - 1) / sectorSize →
      WellFormed (pos + skip + r.bytes.length) rs rest →
      WellFormed pos (r :: rs) (List.replicate skip 0 ++ (r.bytes ++ rest))

/-- The content of a directory: records of an even length with room for the identifier,
each inside one sector, and zeros. -/
def Formed (content : List UInt8) : Prop :=
  ∃ bs, Laid sectorSize 0 IsRecord 0 bs content

/-! ## Records with their members -/

/-- Room for the identifier is there only without a wrap. -/
theorem Whole.short {r : Record} (whole : Whole r) (limit : r.ident.length ≤ maxIsoDir) :
    Short r.ident := by
  have room := whole.room
  rw [lenDr_wraps limit] at room
  rw [maxIsoDir] at limit
  simp only [Short]
  omega

theorem Whole.of_short {r : Record} (short : Short r.ident) : Whole r := by
  obtain ⟨pad, split, length⟩ := Record.bytes_eq short
  have value := lenDr_toNat short
  have whole := Record.hasIdent_bytes short r.ident []
  rw [List.append_nil, hasIdent, beq_self_eq_true, Bool.and_eq_true, beq_iff_eq,
    beq_iff_eq] at whole
  constructor
  · rw [split]
    rfl
  · exact length
  · omega
  · omega
  · exact whole.1
  · exact whole.2

theorem WellFormed.whole {pos : Nat} {rs : List Record} {content : List UInt8}
    (formed : WellFormed pos rs content) : ∀ r ∈ rs, Whole r := by
  induction formed with
  | done _ =>
    intro r hr
    cases hr
  | record whole _ _ _ ih => exact List.forall_mem_cons.mpr ⟨whole, ih⟩

theorem Whole.isRecord {r : Record} (whole : Whole r) : IsRecord r.bytes := by
  have length := whole.length
  have even := whole.even
  have room := whole.room
  have byte := (lenDr r.ident).toNat_lt
  constructor
  · rw [length, even]
  · rw [length]
    omega
  · rw [length]
    omega
  · rw [List.getD_eq_getElem?_getD, ← List.head?_eq_getElem?, whole.stored, length]
    rfl
  · rw [whole.lenFi, length]
    exact room

theorem WellFormed.laid {pos : Nat} {rs : List Record} {content : List UInt8}
    (formed : WellFormed pos rs content) :
    Laid sectorSize 0 IsRecord pos (rs.map Record.bytes) content := by
  induction formed with
  | done zeros => exact .done zeros
  | record whole place inside _ ih => exact .record whole.isRecord place inside ih

/-- A content holds its records in one way. -/
theorem WellFormed.unique {pos : Nat} {rs rs' : List Record} {content : List UInt8}
    (formed : WellFormed pos rs content) (formed' : WellFormed pos rs' content) :
    rs.map Record.bytes = rs'.map Record.bytes := by
  have zero : UInt8.toNat 0 = 0 := rfl
  exact Laid.unique zero (fun _ => IsRecord.fits) (fun _ => IsRecord.fits) formed.laid
    formed'.laid

/-- Packed records are well formed. -/
theorem wellFormed_packFrom (pos k : Nat) {rs : List Record} (short : ∀ r ∈ rs, Short r.ident) :
    WellFormed pos rs (packFrom sectorSize 0 pos (rs.map Record.bytes) ++ List.replicate k 0) := by
  induction rs generalizing pos with
  | nil =>
    refine .done ?_
    intro b hb
    rw [List.map_nil, packFrom, List.nil_append] at hb
    exact List.eq_of_mem_replicate hb
  | cons r rs ih =>
    obtain ⟨head, tail⟩ := List.forall_mem_cons.mp short
    have length := Record.bytes_length head
    have value := lenDr_toNat head
    have byte := (lenDr r.ident).toNat_lt
    rw [List.map_cons, packFrom, List.append_assoc, List.append_assoc]
    refine .record (Whole.of_short head) (gap_placed (by decide) _ _)
      (gap_inside (by omega) ?_ _) (ih _ tail)
    rw [sectorSize]
    omega

theorem wellFormed_packed {rs : List Record} (short : ∀ r ∈ rs, Short r.ident) :
    WellFormed 0 rs (packed rs) :=
  wellFormed_packFrom 0 _ short

/-! ## A new extent in one record -/

theorem IsRecord.setExtent {bytes : List UInt8} (record : IsRecord bytes) (start length : Nat) :
    IsRecord (setExtent bytes 0 (extentBytes start length)) := by
  have least := record.least
  have same : (DirectoryRecords.setExtent bytes 0 (extentBytes start length)).length =
      bytes.length := by
    simp only [DirectoryRecords.setExtent, List.length_append, List.length_take,
      List.length_drop, extentBytes_length]
    omega
  have kept' (i : Nat) (other : i < 2 ∨ 18 ≤ i) :
      (DirectoryRecords.setExtent bytes 0 (extentBytes start length)).getD i 0 =
        bytes.getD i 0 := by
    have two : (bytes.take (0 + 2)).length = 2 := by
      rw [List.length_take]
      omega
    rw [DirectoryRecords.setExtent, List.append_assoc, List.getD_eq_getElem?_getD,
      List.getD_eq_getElem?_getD]
    congr 1
    rcases other with first | behind
    · rw [List.getElem?_append_left (by omega), List.getElem?_take_of_lt (by omega)]
    · obtain ⟨j, rfl⟩ := Nat.exists_eq_add_of_le behind
      rw [List.getElem?_append_right (by omega), List.getElem?_append_right (by
        rw [extentBytes_length]
        omega), List.getElem?_drop]
      congr 1
      rw [extentBytes_length]
      omega
  constructor
  · rw [same]
    exact record.even
  · rw [same]
    exact least
  · rw [same]
    exact record.most
  · rw [same, kept' 0 (by omega)]
    exact record.own
  · rw [same, kept' 32 (by omega)]
    exact record.inside

/-- The search ends where one of the records starts. -/
theorem findDirRecord_split {key : List UInt8} {bs : List (List UInt8)} {pos : Nat}
    (records : ∀ b ∈ bs, IsRecord b)
    (found : findDirRecord key (pack sectorSize 0 bs) = some pos) :
    ∃ xs r ys, bs = xs ++ r :: ys ∧ pos = (leading sectorSize (0 : UInt8) xs r.length).length := by
  rw [findDirRecord_pack key records] at found
  obtain ⟨⟨start, r⟩, among, rfl⟩ := Option.map_eq_some_iff.mp found
  obtain ⟨k, at'⟩ := List.mem_iff_getElem?.mp (List.mem_of_find?_eq_some among)
  obtain ⟨starts, own⟩ := List.getElem?_zip_eq_some.mp at'
  obtain ⟨inside, own'⟩ := List.getElem?_eq_some_iff.mp own
  have split : bs = bs.take k ++ r :: bs.drop (k + 1) := by
    have whole := List.take_append_drop k bs
    rw [List.drop_eq_getElem_cons inside, own'] at whole
    exact whole.symm
  refine ⟨bs.take k, r, bs.drop (k + 1), split, ?_⟩
  have count : (bs.take k).length = k := by
    rw [List.length_take]
    omega
  have before : 0 + (packFrom sectorSize (0 : UInt8) 0 (bs.take k)).length = _ :=
    packFrom_length 0 _
  rw [split, List.map_append, startsFrom_append, List.getElem?_append_right (by
    rw [startsFrom_length, List.length_map, count]), startsFrom_length, List.length_map, count,
    Nat.sub_self, List.map_cons, startsFrom, List.getElem?_cons_zero] at starts
  rw [leading, List.length_append, List.length_replicate, ← Option.some.inj starts]
  omega

theorem setExtent_pack (xs ys : List (List UInt8)) {r : List UInt8} (room : 18 ≤ r.length)
    (start length : Nat) :
    setExtent (pack sectorSize 0 (xs ++ r :: ys))
        (leading sectorSize (0 : UInt8) xs r.length).length (extentBytes start length) =
      pack sectorSize 0 (xs ++ setExtent r 0 (extentBytes start length) :: ys) := by
  have same : (setExtent r 0 (extentBytes start length)).length = r.length := by
    simp only [setExtent, List.length_append, List.length_take, List.length_drop,
      extentBytes_length]
    omega
  rw [pack_split, pack_split, same, setExtent, setExtent, List.take_append, List.drop_append,
    List.take_of_length_le (by omega), List.drop_of_length_le (by omega), Nat.add_sub_cancel_left,
    Nat.add_sub_cancel_left, List.nil_append, List.take_append_of_le_length (by omega),
    List.drop_append_of_le_length room]
  simp only [List.append_assoc, Nat.zero_add]

/-! ## The contents of a pass -/

/-- A content in which every record is whole. -/
def Packed (content : List UInt8) : Prop :=
  ∃ bs, (∀ b ∈ bs, IsRecord b) ∧ content = pack sectorSize 0 bs

theorem Packed.formed {content : List UInt8} (packed : Packed content) : Formed content := by
  obtain ⟨bs, records, rfl⟩ := packed
  exact ⟨bs, Laid.packed 0 _ (fun b member => (records b member).fits) records⟩

theorem Packed.setExtent {content key : List UInt8} {pos : Nat} (packed : Packed content)
    (found : findDirRecord key content = some pos) (start length : Nat) :
    Packed (setExtent content pos (extentBytes start length)) := by
  obtain ⟨bs, records, rfl⟩ := packed
  obtain ⟨xs, r, ys, rfl, rfl⟩ := findDirRecord_split records found
  have own := records r (List.mem_append_right _ List.mem_cons_self)
  have least := own.least
  refine ⟨_, ?_, setExtent_pack xs ys (by omega) start length⟩
  intro b member
  rcases List.mem_append.mp member with first | member
  · exact records b (List.mem_append_left _ first)
  · rcases List.mem_cons.mp member with rfl | behind
    · exact IsRecord.setExtent own start length
    · exact records b (List.mem_append_right _ (List.mem_cons_of_mem r behind))

section Tree
variable {stat : List UInt8 → Option Stat} {joliet : Bool} {tempBufSize n : Nat} {dirs : List Dir}
  {inDir : List UInt8} {tree : SourceTree} {files : List (List FileEntry)} {st st' : Pass}

/-- Whenever up to `n` directories have been built, every content is well formed. -/
def AllFormed (stat : List UInt8 → Option Stat) (joliet : Bool) (tempBufSize : Nat)
    (dirs : List Dir) (files : List (List FileEntry)) (n : Nat) : Prop :=
  ∀ m ≤ n, ∀ st, buildContents stat joliet tempBufSize dirs files 0 (dirs.take m) ⟨[], 0⟩ =
    .ok st → ∀ content ∈ st.contents, Formed content

/-- All records of a new content are whole, where the names of the children allow. -/
theorem packed_of_fresh {fs : List FileEntry} {i : Nat} {dot dotDot : Record}
    {entries children : List Record}
    (fresh : Fresh stat joliet dirs fs i dot dotDot entries children)
    (limit : ∀ e ∈ childDirs dirs i, identLength joliet e ≤ 217) :
    Packed (packed (dot :: dotDot :: (entries ++ children))) := by
  obtain ⟨self, up, ⟨parts, made, rfl⟩, made'⟩ := fresh
  have low : ∀ r ∈ dot :: dotDot :: (parts.flatten ++ children), r.ident.length ≤ 217 := by
    refine List.forall_mem_cons.mpr ⟨self ▸ by decide, List.forall_mem_cons.mpr
      ⟨up ▸ by decide, List.forall_mem_append.mpr ⟨fun r file => ?_, fun r child => ?_⟩⟩⟩
    · obtain ⟨time, e, t, rfl⟩ := mem_fileRecords made file
      have short : Short (fileRecord joliet time e t).ident := short_fileIdent joliet _
      rw [short_iff] at short
      omega
    · obtain ⟨e, member, own⟩ := forall₂_exists (forall₂_mapM made').flip r child
      rw [(dirRecord_fields own).2]
      exact limit e member
  refine ⟨_, fun b among => ?_, packed_kept _⟩
  obtain ⟨own, filled⟩ := List.mem_filter.mp among
  obtain ⟨r, member, rfl⟩ := List.mem_map.mp own
  have some' : ¬ r.bytes = [] := by
    intro none'
    rw [none'] at filled
    cases filled
  rw [bytes_eq_nil_iff ((low r member).trans (by decide))] at some'
  have upper := low r member
  exact (Record.isRecord (short_iff.mpr (by omega))).1

/-- A new content is well formed only where they do. -/
theorem limit_of_formed {fs : List FileEntry} {i : Nat} {dot dotDot : Record}
    {entries children : List Record}
    (fresh : Fresh stat joliet dirs fs i dot dotDot entries children)
    (formed : Formed (packed (dot :: dotDot :: (entries ++ children)))) :
    ∀ e ∈ childDirs dirs i, identLength joliet e ≤ 217 := by
  intro e he
  by_contra long
  obtain ⟨r, child, own⟩ := forall₂_exists (forall₂_mapM fresh.children) e he
  have ident := (dirRecord_fields own).2
  have limit : r.ident.length ≤ maxIsoDir := ident ▸ dirIdent_length joliet _
  rw [identLength, ← ident] at long
  -- the content has one reading only, and the record is among what it reads
  obtain ⟨bs, laid⟩ := formed
  have zero : UInt8.toNat 0 = 0 := rfl
  rw [packed_kept] at laid
  have read := Laid.unique zero (fun _ => IsRecord.fits) (fun _ fits => fits) laid
    (Laid.packed 0 _ (kept_fits _) (kept_fits _))
  refine not_isRecord_of_long (Nat.lt_of_not_le long) limit (laid.all r.bytes ?_)
  rw [read]
  refine List.mem_filter.mpr ⟨List.mem_map_of_mem ?_, ?_⟩
  · exact List.mem_cons_of_mem _ (List.mem_cons_of_mem _ (List.mem_append_right _ child))
  · have some' : ¬ r.bytes = [] := by
      rw [bytes_eq_nil_iff limit]
      omega
    rw [Bool.not_eq_true', ← Bool.not_eq_true, List.isEmpty_iff]
    exact some'

/-- One more directory keeps the contents packed. -/
theorem buildContent_packed {sizes : List Nat} {d : Dir} {fs : List FileEntry}
    (heads : Heads sizes st)
    (ok : buildContent stat joliet tempBufSize dirs fs st st.contents.length d = .ok st')
    (limit : ∀ e ∈ childDirs dirs st.contents.length, identLength joliet e ≤ 217)
    (before : ∀ content ∈ st.contents, Packed content) :
    ∀ content ∈ st'.contents, Packed content := by
  obtain ⟨contents, dot, dotDot, entries, children, stored, fresh, changed⟩ :=
    buildContent_fresh heads ok
  rw [stored, List.forall_mem_append, List.forall_mem_singleton]
  refine ⟨?_, packed_of_fresh fresh limit⟩
  rcases changed with rfl | ⟨p, above, pos, start, length, here, found, rfl⟩
  · exact before
  · intro content member
    rcases List.mem_or_eq_of_mem_set member with same | rfl
    · exact before content same
    · exact (before above (List.mem_of_getElem? here)).setExtent found start length

theorem buildContents_packed
    (keys : ∀ j, j ≠ 0 → j < dirs.length → keyAt joliet dirs j ≠ [0])
    (limit : ∀ i < n, ∀ e ∈ childDirs dirs i, identLength joliet e ≤ 217)
    (inside : n ≤ dirs.length)
    (ok : buildContents stat joliet tempBufSize dirs files 0 (dirs.take n) ⟨[], 0⟩ = .ok st) :
    ∀ content ∈ st.contents, Packed content := by
  induction n generalizing st with
  | zero =>
    cases ok
    exact fun content member => absurd member List.not_mem_nil
  | succ n ih =>
    obtain ⟨d, here⟩ : ∃ d, dirs[n]? = some d := ⟨_, List.getElem?_eq_getElem (by omega)⟩
    obtain ⟨before, sizes, first, count, heads, turn⟩ := buildContents_last keys here ok
    rw [← count] at turn
    refine buildContent_packed heads turn ?_
      (ih (fun i low => limit i (by omega)) (by omega) first)
    rw [count]
    exact limit n (by omega)

/-- The new contents alone tell that no name is too long. -/
theorem limit_of_allFormed
    (keys : ∀ j, j ≠ 0 → j < dirs.length → keyAt joliet dirs j ≠ [0])
    (inside : n ≤ dirs.length)
    (ok : buildContents stat joliet tempBufSize dirs files 0 (dirs.take n) ⟨[], 0⟩ = .ok st)
    (formed : AllFormed stat joliet tempBufSize dirs files n) :
    ∀ i < n, ∀ e ∈ childDirs dirs i, identLength joliet e ≤ 217 := by
  intro i low
  have split : dirs.take n = dirs.take (i + 1) ++ (dirs.take n).drop (i + 1) := by
    have parts := List.take_append_drop (i + 1) (dirs.take n)
    rwa [List.take_take, Nat.min_eq_left low, eq_comm] at parts
  rw [split, buildContents_append] at ok
  obtain ⟨mid, first, -⟩ := bind_ok.mp ok
  obtain ⟨d, here⟩ : ∃ d, dirs[i]? = some d := ⟨_, List.getElem?_eq_getElem (by omega)⟩
  obtain ⟨before, sizes, -, count, heads, turn⟩ := buildContents_last keys here first
  rw [← count] at turn
  obtain ⟨contents, dot, dotDot, entries, children, stored, fresh, -⟩ :=
    buildContent_fresh heads turn
  rw [count] at fresh
  refine limit_of_formed fresh (formed (i + 1) low mid first _ ?_)
  rw [stored]
  exact List.mem_append_right _ List.mem_cons_self

/-- While the first directories are built, their contents are well formed exactly
where no child has an identifier of more than 217 bytes. -/
theorem buildContents_wellFormed_iff (proper : tree.Proper)
    (inside : n ≤ (listDirs inDir tree).length)
    (ok : buildContents stat joliet tempBufSize (listDirs inDir tree) files 0
      ((listDirs inDir tree).take n) ⟨[], 0⟩ = .ok st) :
    AllFormed stat joliet tempBufSize (listDirs inDir tree) files n ↔
      ∀ i < n, ∀ e ∈ childDirs (listDirs inDir tree) i, identLength joliet e ≤ 217 := by
  constructor
  · exact limit_of_allFormed (listDirs_keys proper joliet) inside ok
  · intro limit m le st' ok' content member
    have packed := buildContents_packed (listDirs_keys proper joliet)
      (fun i low => limit i (by omega)) (by omega) ok' content member
    exact packed.formed

end Tree

/-! ## Two trees -/

theorem siblings_formed : ∃ st,
    buildContents anyStat true 0x100000 (listDirs (ascii "/in") siblings) [] 0
      ((listDirs (ascii "/in") siblings).take 3) ⟨[], 0⟩ = .ok st ∧
    AllFormed anyStat true 0x100000 (listDirs (ascii "/in") siblings) [] 3 := by
  obtain ⟨st, ok⟩ := ok_of_isSome (x := buildContents anyStat true 0x100000
    (listDirs (ascii "/in") siblings) [] 0 ((listDirs (ascii "/in") siblings).take 3) ⟨[], 0⟩)
    (by decide +kernel)
  refine ⟨st, ok, (buildContents_wellFormed_iff siblings_proper (by decide) ok).mpr ?_⟩
  decide +kernel

/-- A directory with a subdirectory whose name has 218 bytes. -/
def longName : SourceTree :=
  .dir true [] [(List.replicate 218 65, .dir true [] [])]

theorem longName_proper : longName.Proper := by
  refine .dir ?_ (by decide) ?_
  · decide +kernel
  · intro name tree member
    rw [(Prod.mk.inj (List.mem_singleton.mp member)).2]
    exact .empty true

/-- The first content is made, and its last record has two bytes. -/
theorem longName_wraps :
    (buildContents anyStat false 0x100000 (listDirs (ascii "/in") longName) [] 0
      ((listDirs (ascii "/in") longName).take 1) ⟨[], 0⟩).toOption.isSome = true ∧
    ¬ AllFormed anyStat false 0x100000 (listDirs (ascii "/in") longName) [] 1 := by
  have made : (buildContents anyStat false 0x100000 (listDirs (ascii "/in") longName) [] 0
      ((listDirs (ascii "/in") longName).take 1) ⟨[], 0⟩).toOption.isSome = true := by
    decide +kernel
  refine ⟨made, fun formed => ?_⟩
  obtain ⟨st, ok⟩ := ok_of_isSome made
  have low := limit_of_allFormed (listDirs_keys longName_proper false) (by decide) ok formed 0
    Nat.one_pos
  revert low
  decide +kernel

end RecordLayout
