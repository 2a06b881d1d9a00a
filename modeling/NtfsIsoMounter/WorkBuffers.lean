import NtfsIsoMounter.ImageWriter
import NtfsIsoMounter.PassSuccess
import NtfsIsoMounter.PathEntries

/-!
# The work buffers

`setBuffers` accepts buffers of whole sectors from 1 MiB on. `buildContent` compares
its cursor with the end of the buffer before it copies a record, `buildPathTable` and the
copies of the path tables in `write` compare nothing: whether they stay inside depends on
the number of directories and on the lengths of their names.
-/

namespace WorkBuffers

open CText SectorPacking SourceTrees DirectoryRecords ImageBuild RecordPasses ContentPasses
  ContentHeads PathTables ImageTables PathEntries ImageWriter DirectoryChildren RecordLookups
  PassSuccess

def setBuffers (tempBufSize ioBufSize : Nat) : Bool :=
  if tempBufSize < 1048576 ∨ ioBufSize < 1048576 then false
  else if tempBufSize % 0x800 ≠ 0 ∨ ioBufSize % 0x800 ≠ 0 then false
  else true

theorem setBuffers_eq_true {tempBufSize ioBufSize : Nat} :
    setBuffers tempBufSize ioBufSize = true ↔ 1048576 ≤ tempBufSize ∧ 1048576 ≤ ioBufSize ∧
      tempBufSize % 0x800 = 0 ∧ ioBufSize % 0x800 = 0 := by
  rw [setBuffers]
  split
  · simp only [Bool.false_eq_true, false_iff]
    omega
  · split
    · simp only [Bool.false_eq_true, false_iff]
      omega
    · simp only [true_iff]
      omega

/-! ## A directory content -/

/-- Offsets and lengths in `tempBuf`: each record that is copied there, and what is
copied from there at the end. -/
def contentRanges (tempBufSize : Nat) : List (List UInt8) → List UInt8 → List (Nat × Nat)
  | [], buf => [(0, (buf.length + 0x7ff) / 0x800 * 0x800)]
  | record :: rest, buf =>
    match place tempBufSize buf record with
    | none => []
    | some out => (out.length - record.length, record.length) :: contentRanges tempBufSize rest out

theorem place_length {tempBufSize : Nat} {buf record out : List UInt8}
    (placed : place tempBufSize buf record = some out) : out.length < tempBufSize := by
  rw [place] at placed
  generalize (if buf.length / 0x800 < (buf.length + record.length) / 0x800 then
    buf ++ List.replicate ((buf.length + 0x7ff) / 0x800 * 0x800 - buf.length) 0 else buf) = padded
    at placed
  split at placed
  · cases placed
  · rename_i inside
    rw [← Option.some.inj placed, List.length_append]
    exact Nat.lt_of_not_le inside

theorem contentRanges_inside {tempBufSize : Nat} (whole : tempBufSize % 0x800 = 0)
    (records : List (List UInt8)) {buf : List UInt8} (below : buf.length ≤ tempBufSize) :
    ∀ r ∈ contentRanges tempBufSize records buf, r.1 + r.2 ≤ tempBufSize := by
  induction records generalizing buf with
  | nil =>
    intro r hr
    rw [List.mem_singleton.mp hr]
    dsimp only
    omega
  | cons record rest ih =>
    intro r hr
    rw [contentRanges] at hr
    split at hr
    · cases hr
    · rename_i out placed
      have low := place_length placed
      have record' : record.length ≤ out.length := by
        rw [place_eq placed, List.length_append, List.length_append]
        omega
      rcases List.mem_cons.mp hr with rfl | hr
      · dsimp only
        omega
      · exact ih low.le r hr

/-! ## A path table -/

def entrySize (ident : List UInt8) : Nat := 8 + ident.length + ident.length % 2

/-- Offset of each entry and how far its writes reach. -/
def tableRanges (joliet : Bool) : Nat → Nat → List Dir → List (Nat × Nat)
  | _, _, [] => []
  | i, offset, d :: rest =>
    let ident := tableIdent joliet i d
    (offset, tableReach joliet i ident) :: tableRanges joliet (i + 1)
    (offset + entrySize ident) rest

/-- The size of the table. -/
def tableEnd (joliet : Bool) : Nat → Nat → List Dir → Nat
  | _, offset, [] => offset
  | i, offset, d :: rest => tableEnd joliet (i + 1)
      (offset + entrySize (tableIdent joliet i d)) rest

theorem tableIdent_length (joliet : Bool) (i : Nat) (d : Dir) :
    (tableIdent joliet i d).length ≤ 254 := by
  rw [tableIdent]
  split
  · decide
  · exact dirIdent_length joliet _

theorem tableEnd_le (joliet : Bool) (i offset : Nat) (dirs : List Dir) :
    tableEnd joliet i offset dirs ≤ offset + 264 * dirs.length := by
  induction dirs generalizing i offset with
  | nil => exact Nat.le_add_right _ _
  | cons d rest ih =>
    have later := ih (i + 1) (offset + entrySize (tableIdent joliet i d))
    have short := tableIdent_length joliet i d
    rw [entrySize] at later
    rw [tableEnd, List.length_cons, entrySize]
    omega

/-- An entry behind the first ends where its writes do, or before. -/
theorem entrySize_le_reach (joliet : Bool) {i : Nat} (later : i ≠ 0) (d : Dir) :
    entrySize (tableIdent joliet i d) ≤ tableReach joliet i (tableIdent joliet i d) := by
  have short := tableIdent_length joliet i d
  rw [entrySize, tableReach, if_neg later]
  cases joliet with
  | true =>
    have even : (tableIdent true i d).length % 2 = 0 := by
      rw [tableIdent, if_neg later]
      exact utf8ToUcs2_even _ _
    rw [if_pos rfl]
    omega
  | false =>
    rw [if_neg Bool.false_ne_true, maxIsoDir]
    omega

/-- The copy of the whole table stays inside if the entries do. -/
theorem tableEnd_inside {joliet : Bool} {tempBufSize : Nat} (some' : 10 ≤ tempBufSize)
    (dirs : List Dir) {i offset : Nat} (start : offset ≤ tempBufSize) (first : i = 0 → offset = 0)
    (fits : ∀ r ∈ tableRanges joliet i offset dirs, r.1 + r.2 ≤ tempBufSize) :
    tableEnd joliet i offset dirs ≤ tempBufSize := by
  induction dirs generalizing i offset with
  | nil => exact start
  | cons d rest ih =>
    obtain ⟨here, behind⟩ := List.forall_mem_cons.mp fits
    refine ih ?_ (fun none => absurd none (Nat.succ_ne_zero i)) behind
    by_cases root : i = 0
    · have size : entrySize (tableIdent joliet i d) = 10 := by
        rw [tableIdent, if_pos root]
        rfl
      rw [first root, size]
      omega
    · have reach := entrySize_le_reach joliet root d
      omega

section Build
variable {msb joliet : Bool} {tempBufSize : Nat} {dirs : List Dir} {contents : List (List UInt8)}

theorem tableEntry_length (msb : Bool) {record : List UInt8} (long : 10 ≤ record.length)
    (parentIdx : Nat) (ident : List UInt8) :
    (tableEntry msb record parentIdx ident).length = entrySize ident := by
  rw [tableEntry, entrySize]
  cases msb <;> simp <;> omega

/-- The loop ends well if the entries stay inside, and leaves the buffer otherwise. -/
theorem tableFrom_fits (stored : ∀ i < dirs.length, ∃ content, contents[i]? = some content ∧
      10 ≤ content.length) (rest : List Dir) {k : Nat} (inside : k + rest.length ≤ dirs.length)
    (table : List UInt8) :
    if ∀ r ∈ tableRanges joliet k table.length rest, r.1 + r.2 ≤ tempBufSize then
      ∃ out, tableFrom msb joliet tempBufSize dirs contents k rest table = .ok out ∧
        out.length = tableEnd joliet k table.length rest
    else tableFrom msb joliet tempBufSize dirs contents k rest table = .error .fault := by
  induction rest generalizing k table with
  | nil =>
    rw [if_pos (fun r hr => nomatch hr)]
    exact ⟨table, rfl, rfl⟩
  | cons d rest ih =>
    rw [List.length_cons] at inside
    obtain ⟨content, found, long⟩ := stored k (by omega)
    have entry := tableEntry_length msb long (getParent dirs k + 1) (tableIdent joliet k d)
    have later := ih (k := k + 1) (by omega)
      (table ++ tableEntry msb content (getParent dirs k + 1) (tableIdent joliet k d))
    rw [List.length_append, entry] at later
    have step : tableFrom msb joliet tempBufSize dirs contents k (d :: rest) table =
        if table.length + tableReach joliet k (tableIdent joliet k d) > tempBufSize then
          .error .fault
        else tableFrom msb joliet tempBufSize dirs contents (k + 1) rest
          (table ++ tableEntry msb content (getParent dirs k + 1) (tableIdent joliet k d)) := by
      rw [tableFrom, found]
      rfl
    rw [step, tableRanges, tableEnd]
    simp only [List.forall_mem_cons]
    by_cases here : table.length + tableReach joliet k (tableIdent joliet k d) ≤ tempBufSize
    · rw [if_neg (Nat.not_lt_of_le here)]
      simpa only [here, true_and] using later
    · rw [if_pos (Nat.lt_of_not_le here), if_neg (fun both => here both.1)]

end Build

/-! ## The tables of an image -/

/-- Every entry of the four tables stays in `tempBuf`. -/
def TempFits (tempBufSize : Nat) (dirs : List Dir) : Prop :=
  ∀ joliet, ∀ r ∈ tableRanges joliet 0 0 (dirs.take 65536), r.1 + r.2 ≤ tempBufSize

/-- The four tables, filled up to whole sectors, stay in `ioBuf`. -/
def IoFits (ioBufSize : Nat) (dirs : List Dir) : Prop :=
  ∀ joliet, (tableEnd joliet 0 0 (dirs.take 65536) + 0x7ff) / 0x800 * 0x800 ≤ ioBufSize

/-- `tableSteps` copies and clears inside `ioBuf`. -/
def Copied (ioBufSize : Nat) (table : List UInt8) : Prop :=
  max (bytesToSectors table.length * 0x800) table.length ≤ ioBufSize

instance (ioBufSize : Nat) (table : List UInt8) : Decidable (Copied ioBufSize table) :=
  inferInstanceAs (Decidable (_ ≤ _))

theorem tableSteps_copied {ioBufSize : Nat} {table : List UInt8} :
    (∀ step ∈ tableSteps ioBufSize table, step ≠ .fault) ↔ Copied ioBufSize table := by
  rw [tableSteps, Copied]
  by_cases inside : max (bytesToSectors table.length * 0x800) table.length ≤ ioBufSize
  · rw [if_neg (Nat.not_lt_of_le inside)]
    refine iff_of_true ?_ inside
    intro step hstep
    rw [List.mem_singleton.mp hstep]
    exact fun h => nomatch h
  · rw [if_pos (Nat.lt_of_not_le inside)]
    refine iff_of_false ?_ inside
    intro all
    exact all _ List.mem_cons_self rfl

/-- A table of at most 65536 entries is far below `2 ^ 32` sectors. -/
theorem copied_iff {ioBufSize : Nat} {table : List UInt8} (few : table.length < 2 ^ 32) :
    Copied ioBufSize table ↔ (table.length + 0x7ff) / 0x800 * 0x800 ≤ ioBufSize := by
  have low : (table.length + 0x7ff) / 0x800 < 2 ^ 32 := by omega
  rw [Copied, bytesToSectors, Nat.mod_eq_of_lt low, max_eq_left (by omega)]

/-- The directories are listed and both passes over them come to their end, with these
results: `build` goes on to the path tables. -/
structure TablesReached (stat : List UInt8 → Option Stat) (tempBufSize : Nat)
    (inDir : List UInt8) (tree : SourceTree) (files : List (List FileEntry)) (total : Nat)
    (passes : Bool → Pass) : Prop where
  opened : (listDirs inDir tree).any (fun d => !d.tree.opens) = false
  listed : listFiles stat (listDirs inDir tree) 0 = .ok (files, total)
  passed : ∀ joliet, buildContents stat joliet tempBufSize (listDirs inDir tree) files 0
    (listDirs inDir tree) ⟨[], 0⟩ = .ok (passes joliet)

section Image
variable {stat : List UInt8 → Option Stat} {joliet : Bool} {tempBufSize : Nat}
  {inDir : List UInt8} {tree : SourceTree} {files : List (List FileEntry)}

theorem stored_pass (proper : tree.Proper) {st : Pass}
    (ok : buildContents stat joliet tempBufSize (listDirs inDir tree) files 0
      (listDirs inDir tree) ⟨[], 0⟩ = .ok st) :
    ∀ i < (listDirs inDir tree).length, ∃ content, st.contents[i]? = some content ∧
      10 ≤ content.length := by
  intro i inside
  obtain ⟨sizes, count, heads⟩ := buildContents_headed (listDirs_keys proper joliet) ok
  have inside' : i < st.contents.length := by rw [heads.count, count]; exact inside
  have size := List.getElem?_eq_getElem (l := sizes) (i := i) (by rw [count]; exact inside)
  have stored := List.getElem?_eq_getElem inside'
  obtain ⟨time, more, content⟩ := heads.headed i _ _ stored size
  refine ⟨_, stored, ?_⟩
  rw [content, List.length_append, dot_length rfl]
  omega

/-- One table of a pass. -/
theorem buildPathTable_fits (proper : tree.Proper) {st : Pass}
    (ok : buildContents stat joliet tempBufSize (listDirs inDir tree) files 0
      (listDirs inDir tree) ⟨[], 0⟩ = .ok st) (msb : Bool) :
    if ∀ r ∈ tableRanges joliet 0 0 ((listDirs inDir tree).take 65536), r.1 + r.2 ≤ tempBufSize then
      ∃ out, buildPathTable msb joliet tempBufSize (listDirs inDir tree) st.contents = .ok out ∧
        out.length = tableEnd joliet 0 0 ((listDirs inDir tree).take 65536)
    else buildPathTable msb joliet tempBufSize (listDirs inDir tree) st.contents =
      .error .fault := by
  have length : 0 + ((listDirs inDir tree).take 65536).length ≤ (listDirs inDir tree).length := by
    rw [List.length_take]
    omega
  exact tableFrom_fits (stored_pass proper ok) _ length []

theorem reached_of_build {m : Image} (built : build stat tempBufSize inDir tree = .ok m) :
    ∃ files total passes, TablesReached stat tempBufSize inDir tree files total passes := by
  rw [build_eq] at built
  obtain ⟨before, unmoved, -⟩ := bind_ok.mp built
  obtain ⟨listed, passed⟩ := buildUnmoved_spec unmoved
  refine ⟨_, _, _, ?_, listed, fun joliet => (passed joliet).pass⟩
  rw [buildUnmoved] at unmoved
  dsimp only at unmoved
  split at unmoved
  · cases unmoved
  · exact Bool.eq_false_of_not_eq_true ‹_›

variable {total : Nat} {passes : Bool → Pass} (proper : tree.Proper)
  (reached : TablesReached stat tempBufSize inDir tree files total passes)
include proper reached

/-- Once both passes are done, the tables alone decide. -/
theorem buildUnmoved_tables (fits : TempFits tempBufSize (listDirs inDir tree)) :
    ∃ m, buildUnmoved stat tempBufSize inDir tree = .ok m ∧ ∀ joliet,
      (m.hierarchy joliet).pathTableL.length =
        tableEnd joliet 0 0 ((listDirs inDir tree).take 65536) ∧
      (m.hierarchy joliet).pathTableM.length =
        tableEnd joliet 0 0 ((listDirs inDir tree).take 65536) := by
  have tables := fun msb => buildPathTable_fits proper (reached.passed false) msb
  have tables' := fun msb => buildPathTable_fits proper (reached.passed true) msb
  simp only [if_pos (fits false), if_pos (fits true)] at tables tables'
  obtain ⟨tableL, builtL, sizeL⟩ := tables false
  obtain ⟨tableM, builtM, sizeM⟩ := tables true
  obtain ⟨tableL', builtL', sizeL'⟩ := tables' false
  obtain ⟨tableM', builtM', sizeM'⟩ := tables' true
  refine ⟨⟨listDirs inDir tree, files, total,
    ⟨(passes false).contents, (passes false).sectors, tableL, tableM⟩,
    ⟨(passes true).contents, (passes true).sectors, tableL', tableM'⟩⟩, ?_, ?_⟩
  · rw [buildUnmoved]
    simp only [reached.opened, Bool.false_eq_true, if_false]
    exact bind_ok.mpr ⟨_, reached.listed, bind_ok.mpr ⟨_, reached.passed false,
      bind_ok.mpr ⟨_, reached.passed true,
      bind_ok.mpr ⟨_, builtL, bind_ok.mpr ⟨_, builtM, bind_ok.mpr ⟨_, builtL',
        bind_ok.mpr ⟨_, builtM', rfl⟩⟩⟩⟩⟩⟩⟩
  · rintro (_ | _)
    · exact ⟨sizeL, sizeM⟩
    · exact ⟨sizeL', sizeM'⟩

/-- An entry past the end of the buffer is not noticed. -/
theorem build_fault (unfit : ¬ TempFits tempBufSize (listDirs inDir tree)) :
    build stat tempBufSize inDir tree = .error .fault := by
  have tables := fun msb => buildPathTable_fits proper (reached.passed false) msb
  have tables' := fun msb => buildPathTable_fits proper (reached.passed true) msb
  have unmoved : buildUnmoved stat tempBufSize inDir tree = .error .fault := by
    rw [buildUnmoved]
    simp only [reached.opened, Bool.false_eq_true, if_false]
    by_cases isoFits : ∀ r ∈ tableRanges false 0 0 ((listDirs inDir tree).take 65536),
        r.1 + r.2 ≤ tempBufSize
    · have jolietUnfit : ¬ ∀ r ∈ tableRanges true 0 0 ((listDirs inDir tree).take 65536),
          r.1 + r.2 ≤ tempBufSize := by
        intro jolietFits
        exact unfit fun joliet => by cases joliet <;> assumption
      simp only [if_pos isoFits, if_neg jolietUnfit] at tables tables'
      obtain ⟨tableL, builtL, -⟩ := tables false
      obtain ⟨tableM, builtM, -⟩ := tables true
      have left := tables' false
      simp only [Bind.bind, Except.bind, reached.listed, reached.passed, builtL, builtM, left]
    · simp only [if_neg isoFits] at tables
      have left := tables false
      simp only [Bind.bind, Except.bind, reached.listed, reached.passed, left]
  rw [build_eq, unmoved]
  rfl

end Image

/-! ## Both buffers -/

/-- No index that belongs to a path table leaves its buffer: not of the entries, not of the
copies of the tables, and not of those in `write`. -/
structure IndicesInside (stat : List UInt8 → Option Stat) (tempBufSize ioBufSize : Nat)
    (inDir : List UInt8) (tree : SourceTree) : Prop where
  temp : ∀ files total passes, TablesReached stat tempBufSize inDir tree files total passes →
    ∀ msb joliet, ∃ table, buildPathTable msb joliet tempBufSize (listDirs inDir tree)
      (passes joliet).contents = .ok table ∧ table.length ≤ tempBufSize
  io : ∀ m, build stat tempBufSize inDir tree = .ok m →
    ∀ table ∈ [m.iso.pathTableL, m.iso.pathTableM, m.joliet.pathTableL, m.joliet.pathTableM],
      ∀ step ∈ tableSteps ioBufSize table, step ≠ .fault

theorem tableEnd_small (joliet : Bool) (dirs : List Dir) :
    tableEnd joliet 0 0 (dirs.take 65536) < 2 ^ 32 := by
  have bound := tableEnd_le joliet 0 0 (dirs.take 65536)
  rw [List.length_take] at bound
  omega

section Both
variable {stat : List UInt8 → Option Stat} {tempBufSize ioBufSize : Nat} {inDir : List UInt8}
  {tree : SourceTree} {files : List (List FileEntry)} {total : Nat} {passes : Bool → Pass}

/-- Where the tables fit `tempBuf`, those of the image decide about `ioBuf`. -/
theorem copied_iff_ioFits (proper : tree.Proper)
    (reached : TablesReached stat tempBufSize inDir tree files total passes)
    (fits : TempFits tempBufSize (listDirs inDir tree)) :
    ∃ m, build stat tempBufSize inDir tree = .ok m ∧
      ((∀ table ∈ [m.iso.pathTableL, m.iso.pathTableM, m.joliet.pathTableL, m.joliet.pathTableM],
        ∀ step ∈ tableSteps ioBufSize table, step ≠ .fault) ↔
          IoFits ioBufSize (listDirs inDir tree)) := by
  have small := fun joliet => tableEnd_small joliet (listDirs inDir tree)
  obtain ⟨before, built, lengths⟩ := buildUnmoved_tables proper reached fits
  have passed := (buildUnmoved_spec built).2
  have kept := fixLba_lengths proper (passed false) before.isoLba before.filesLba
  have kept' := fixLba_lengths proper (passed true) before.jolietLba before.filesLba
  rw [(lengths false).1, (lengths false).2] at kept
  rw [(lengths true).1, (lengths true).2] at kept'
  obtain ⟨m, hm⟩ : ∃ m, m = before.fixLba before.isoLba before.jolietLba before.filesLba :=
    ⟨_, rfl⟩
  have isoTables : (before.hierarchy false).fixLba before.isoLba before.filesLba = m.iso :=
    hm ▸ rfl
  have jolietTables :
      (before.hierarchy true).fixLba before.jolietLba before.filesLba = m.joliet := hm ▸ rfl
  rw [isoTables] at kept
  rw [jolietTables] at kept'
  refine ⟨m, ?_, ?_⟩
  · rw [build_eq, built, hm]
    rfl
  · simp only [tableSteps_copied, List.forall_mem_cons, IoFits, Bool.forall_bool]
    rw [copied_iff (kept.1.trans_lt (small false)), copied_iff (kept.2.trans_lt (small false)),
      copied_iff (kept'.1.trans_lt (small true)), copied_iff (kept'.2.trans_lt (small true)),
      kept.1, kept.2, kept'.1, kept'.2]
    constructor
    · rintro ⟨isoL, -, jolietL, -, -⟩
      exact ⟨isoL, jolietL⟩
    · rintro ⟨isoFits, jolietFits⟩
      exact ⟨isoFits, isoFits, jolietFits, jolietFits, fun table none => nomatch none⟩

/-- The tables that are reached stay inside exactly if their sizes do. -/
theorem indicesInside_iff (proper : tree.Proper)
    (accepted : setBuffers tempBufSize ioBufSize = true) :
    IndicesInside stat tempBufSize ioBufSize inDir tree ↔
      ∀ files total passes, TablesReached stat tempBufSize inDir tree files total passes →
        TempFits tempBufSize (listDirs inDir tree) ∧ IoFits ioBufSize (listDirs inDir tree) := by
  obtain ⟨large, -, -, -⟩ := setBuffers_eq_true.mp accepted
  constructor
  · rintro ⟨temp, io⟩ files total passes reached
    have fits : TempFits tempBufSize (listDirs inDir tree) := by
      intro joliet
      by_contra unfit
      have left := buildPathTable_fits proper (reached.passed joliet) false
      rw [if_neg unfit] at left
      obtain ⟨table, made, -⟩ := temp files total passes reached false joliet
      cases left.symm.trans made
    obtain ⟨m, built, copied⟩ := copied_iff_ioFits proper reached fits
    exact ⟨fits, copied.mp (io m built)⟩
  · intro fits
    refine ⟨fun files total passes reached msb joliet => ?_, fun m built => ?_⟩
    · have temp := (fits files total passes reached).1 joliet
      have made := buildPathTable_fits proper (reached.passed joliet) msb
      rw [if_pos temp] at made
      obtain ⟨table, made, size⟩ := made
      refine ⟨table, made, size.trans_le ?_⟩
      exact tableEnd_inside (by omega) _ (Nat.zero_le _) (fun _ => rfl) temp
    · obtain ⟨files, total, passes, reached⟩ := reached_of_build built
      obtain ⟨temp, io⟩ := fits files total passes reached
      obtain ⟨m', built', copied⟩ := copied_iff_ioFits proper reached temp
      cases built.symm.trans built'
      exact copied.mpr io

/-- With accepted buffers `buildContent` never leaves `tempBuf`, whatever the records are.
The path tables stay inside exactly if they are not reached or their sizes, computed from the
names, do. A table that is reached and does not fit `tempBuf` makes no error: the call has
no defined result. -/
theorem build_buffers_iff (proper : tree.Proper)
    (accepted : setBuffers tempBufSize ioBufSize = true) :
    (∀ (records : List (List UInt8)) (buf : List UInt8), buf.length = 0x50 →
      ∀ r ∈ (0, 0x50) :: contentRanges tempBufSize records buf, r.1 + r.2 ≤ tempBufSize) ∧
    (IndicesInside stat tempBufSize ioBufSize inDir tree ↔
      (¬ ∃ files total passes, TablesReached stat tempBufSize inDir tree files total passes) ∨
        TempFits tempBufSize (listDirs inDir tree) ∧ IoFits ioBufSize (listDirs inDir tree)) ∧
    ((∃ files total passes, TablesReached stat tempBufSize inDir tree files total passes) →
      ¬ TempFits tempBufSize (listDirs inDir tree) →
      ∀ fopen disk progress partitionSize t outFile volumeName,
        generate stat tempBufSize ioBufSize fopen disk progress partitionSize t inDir tree outFile
          volumeName = none) := by
  obtain ⟨large, -, whole, -⟩ := setBuffers_eq_true.mp accepted
  refine ⟨?_, ?_, ?_⟩
  · intro records buf start
    refine List.forall_mem_cons.mpr ⟨?_, contentRanges_inside whole records (by omega)⟩
    dsimp only
    omega
  · rw [indicesInside_iff proper accepted, or_iff_not_imp_left, not_not]
    exact ⟨fun fits ⟨files, total, passes, reached⟩ => fits files total passes reached,
      fun fits files total passes reached => fits ⟨files, total, passes, reached⟩⟩
  · rintro ⟨files, total, passes, reached⟩ unfit fopen disk progress partitionSize t outFile
      volumeName
    rw [generate, build_fault proper reached unfit]

end Both

theorem siblings_inside : IndicesInside anyStat 0x100000 0x100000 (ascii "/in") siblings := by
  refine (build_buffers_iff siblings_proper (by decide)).2.1.mpr (Or.inr ⟨?_, ?_⟩)
  · rintro (_ | _) <;> decide +kernel
  · rintro (_ | _) <;> decide +kernel

/-! ## A tree with many directories -/

theorem utf8ToUcs2_ascii_length {n : Nat} {name : List UInt8} (plain : ∀ b ∈ name, b < 0x80)
    (fits : name.length ≤ n) : (utf8ToUcs2 n name).length = 2 * name.length := by
  induction name generalizing n with
  | nil =>
    cases n <;> rfl
  | cons b name ih =>
    obtain ⟨head, tail⟩ := List.forall_mem_cons.mp plain
    obtain ⟨k, rfl⟩ : ∃ k, n = k + 1 := ⟨n - 1, by rw [List.length_cons] at fits; omega⟩
    have code : ucs2FromUtf8 (b :: name) = some (b.toNat, name) := by
      rw [ucs2FromUtf8.eq_def]
      exact if_pos head
    rw [List.length_cons] at fits ⊢
    simp only [utf8ToUcs2, code, List.length_append, ByteOrder.beBytes_length]
    rw [ih tail (by omega)]
    omega

/-- Names of 107 letters and digits, the last two telling them apart. -/
def wideName (i : Nat) : List UInt8 :=
  List.replicate 105 65 ++ [UInt8.ofNat (48 + i / 10), UInt8.ofNat (48 + i % 10)]

/-- 70 subdirectories that are all the same. -/
def level (sub : SourceTree) : SourceTree :=
  .dir true [] ((List.range 70).map fun i => (wideName i, sub))

def leaf : SourceTree := .dir true [] []

/-- 4971 directories. -/
def manyDirs : SourceTree := level (level leaf)

theorem digit_toNat {n : Nat} (small : n < 10) : (UInt8.ofNat (48 + n)).toNat = 48 + n := by
  rw [UInt8.toNat_ofNat', Nat.mod_eq_of_lt (by omega)]

theorem wideName_bytes {i : Nat} (low : i < 70) : ∀ b ∈ wideName i, 48 ≤ b ∧ b < 0x80 := by
  have digit {n : Nat} (small : n < 10) :
      48 ≤ UInt8.ofNat (48 + n) ∧ UInt8.ofNat (48 + n) < 0x80 := by
    rw [UInt8.le_iff_toNat_le, UInt8.lt_iff_toNat_lt, digit_toNat small]
    exact ⟨Nat.le_add_right 48 n, (Nat.add_lt_add_left small 48).trans (by decide)⟩
  intro b hb
  rcases List.mem_append.mp hb with hb | hb
  · rw [List.eq_of_mem_replicate hb]
    decide
  · rcases List.mem_pair.mp hb with rfl | rfl
    · exact digit (by omega)
    · exact digit (by omega)

theorem wideName_length (i : Nat) : (wideName i).length = 107 := by
  rw [wideName, List.length_append, List.length_replicate]
  rfl

theorem wideNames_nodup : ((List.range 70).map wideName).Nodup := by
  refine List.nodup_range.map_on ?_
  intro i hi j hj same
  rw [List.mem_range] at hi hj
  have digits := List.append_cancel_left same
  have digit {m n : Nat} (small : m < 10) (small' : n < 10)
      (equal : UInt8.ofNat (48 + m) = UInt8.ofNat (48 + n)) : m = n := by
    have numbers := congrArg UInt8.toNat equal
    rw [digit_toNat small, digit_toNat small'] at numbers
    exact Nat.add_left_cancel numbers
  have tens : i / 10 = j / 10 := digit (by omega) (by omega) (List.cons.inj digits).1
  have ones : i % 10 = j % 10 :=
    digit (by omega) (by omega) (List.cons.inj (List.cons.inj digits).2).1
  omega

/-- The string looked for is the identifier, whose record fits; in the Joliet tree it has
two bytes for each letter. -/
theorem wideName_ident {i : Nat} (low : i < 70) :
    (dirIdent true (wideName i)).length = 214 ∧
      ∀ joliet, Short (dirIdent joliet (wideName i)) ∧
        strCheck joliet (wideName i) = dirIdent joliet (wideName i) := by
  have length := wideName_length i
  have joliet : (dirIdent true (wideName i)).length = 214 := by
    have units := utf8ToUcs2_ascii_length (n := 127) (fun b hb => (wideName_bytes low b hb).2)
      (by rw [length]; decide)
    rwa [length] at units
  refine ⟨joliet, ?_⟩
  rintro (_ | _)
  · constructor
    · rw [DirectoryChildren.short_iff, dirIdent, if_neg Bool.false_ne_true, upperName,
        List.length_map, List.length_take]
      omega
    · rw [strCheck, dirIdent, if_neg Bool.false_ne_true, if_neg Bool.false_ne_true, upperName,
        upperName, List.take_of_length_le (by rw [length]; decide),
        List.take_of_length_le (by rw [length]; decide)]
  · constructor
    · rw [DirectoryChildren.short_iff, joliet]
      decide
    · rfl

theorem level_proper {sub : SourceTree} (proper : sub.Proper) : (level sub).Proper := by
  have names : ((List.range 70).map fun i => (wideName i, sub)).map Prod.fst =
      (List.range 70).map wideName := by
    rw [List.map_map]
    rfl
  refine .dir ?_ ?_ ?_
  · rw [List.nil_append, names]
    intro name member
    obtain ⟨i, hi, rfl⟩ := List.mem_map.mp member
    have bytes := wideName_bytes (List.mem_range.mp hi)
    refine ⟨?_, ?_, ?_⟩
    · intro none
      have length := wideName_length i
      rw [none] at length
      cases length
    · exact fun slash => absurd (bytes _ slash).1 (by decide)
    · exact fun zero => absurd (bytes _ zero).1 (by decide)
  · rw [List.nil_append, names]
    exact wideNames_nodup
  · intro name tree member
    obtain ⟨i, -, same⟩ := List.mem_map.mp member
    rw [← (Prod.mk.inj same).2]
    exact proper

theorem leaf_proper : leaf.Proper := .empty true

theorem manyDirs_proper : manyDirs.Proper := level_proper (level_proper leaf_proper)

/-- A directory of the tree that is listed: it can be opened, has no files, and its
subdirectories have the names above. -/
def Wide (tree : SourceTree) : Prop :=
  tree.opens = true ∧ tree.files = [] ∧ (tree = leaf ∨ ∃ sub, tree = level sub)

theorem manyDirs_wide : ∀ d ∈ listDirs (ascii "/in") manyDirs, Wide d.tree := by
  have step : ∀ {d e : Dir}, e ∈ d.subdirs → ∀ {sub}, d.tree = level sub → e.tree = sub := by
    intro d e child sub tree
    obtain ⟨name, member, -⟩ := Dir.mem_subdirs.mp child
    rw [tree] at member
    obtain ⟨i, -, same⟩ := List.mem_map.mp member
    exact (Prod.mk.inj same).2.symm
  have kinds : ∀ d ∈ listDirs (ascii "/in") manyDirs,
      d.tree = manyDirs ∨ d.tree = level leaf ∨ d.tree = leaf := by
    intro d hd
    obtain ⟨a, ha, below⟩ := BreadthFirst.mem_walk_below _ _ hd
    rw [List.mem_singleton.mp ha] at below
    clear hd ha
    induction below with
    | refl => exact Or.inl rfl
    | @tail b c _ child ih =>
      rcases ih with top | middle | bottom
      · exact Or.inr (Or.inl (step child top))
      · exact Or.inr (Or.inr (step child middle))
      · obtain ⟨name, member, -⟩ := Dir.mem_subdirs.mp child
        rw [bottom] at member
        cases member
  intro d hd
  rcases kinds d hd with tree | tree | tree
  · rw [tree]
    exact ⟨rfl, rfl, Or.inr ⟨_, rfl⟩⟩
  · rw [tree]
    exact ⟨rfl, rfl, Or.inr ⟨_, rfl⟩⟩
  · rw [tree]
    exact ⟨rfl, rfl, Or.inl rfl⟩

theorem subdirs_wide {d e : Dir} (hd : d ∈ listDirs (ascii "/in") manyDirs)
    (child : e ∈ d.subdirs) :
    ∃ i < 70, e.path = createPath d.path (wideName i) := by
  obtain ⟨name, member, path⟩ := Dir.mem_subdirs.mp child
  obtain ⟨-, -, bottom | ⟨sub, tree⟩⟩ := manyDirs_wide d hd
  · rw [bottom] at member
    cases member
  · rw [tree] at member
    obtain ⟨i, hi, same⟩ := List.mem_map.mp member
    exact ⟨i, List.mem_range.mp hi, by rw [path, (Prod.mk.inj same).1]⟩

theorem subdirs_length {d : Dir} (hd : d ∈ listDirs (ascii "/in") manyDirs) :
    d.subdirs.length ≤ 70 := by
  rw [Dir.subdirs, List.length_map]
  obtain ⟨-, -, bottom | ⟨sub, tree⟩⟩ := manyDirs_wide d hd
  · rw [bottom]
    exact Nat.zero_le _
  · rw [tree, level, SourceTree.dirs, List.length_map, List.length_range]

/-- Every directory behind the first has such a name. -/
theorem baseName_wide {j : Nat} (later : j ≠ 0) {d : Dir}
    (here : (listDirs (ascii "/in") manyDirs)[j]? = some d) :
    ∃ i < 70, baseName d.path = wideName i := by
  obtain ⟨p, parent, inner, -⟩ := getParent_spec manyDirs_proper here later
  obtain ⟨i, low, path⟩ := subdirs_wide (List.mem_of_getElem? parent) inner
  refine ⟨i, low, ?_⟩
  rw [path, baseName_createPath]
  exact fun slash => absurd (wideName_bytes low _ slash).1 (by decide)

/-- Names of one length hide no sibling. -/
theorem childDirs_wide {i : Nat} {d : Dir} (here : (listDirs (ascii "/in") manyDirs)[i]? = some d) :
    childDirs (listDirs (ascii "/in") manyDirs) i = d.subdirs := by
  obtain ⟨inside, rfl⟩ := List.getElem?_eq_some_iff.mp here
  have split : listDirs (ascii "/in") manyDirs =
      (listDirs (ascii "/in") manyDirs).take i ++ (listDirs (ascii "/in") manyDirs)[i] ::
        (listDirs (ascii "/in") manyDirs).drop (i + 1) := by
    rw [← List.drop_eq_getElem_cons, List.take_append_drop]
  have length : ((listDirs (ascii "/in") manyDirs).take i).length = i := by
    rw [List.length_take]
    omega
  have exactly := childDirs_eq manyDirs_proper split ?_
  · rwa [length] at exactly
  · rintro e ⟨p, hp, pre, name, tree, post, parts, -, ⟨name', tree'⟩, member, starts, -⟩
    have names : ∀ e ∈ p.tree.dirs, e.1.length = 107 := by
      intro e he
      obtain ⟨k, -, path⟩ := subdirs_wide hp (List.mem_map_of_mem he)
      have same : e.1 = wideName k := (List.cons.inj (List.append_cancel_left path)).2
      rw [same, wideName_length]
    have inner : (name', tree') ∈ p.tree.dirs := by
      rw [parts]
      exact List.mem_append_right _ (List.mem_cons_of_mem _ member)
    have inner' : (name, tree) ∈ p.tree.dirs := by
      rw [parts]
      exact List.mem_append_right _ List.mem_cons_self
    have equal : name = name' := starts.eq_of_length ((names _ inner').trans (names _ inner).symm)
    have nodup := (mem_listDirs_proper manyDirs_proper hp).names_nodup
    rw [parts, List.map_append, List.map_cons] at nodup
    have once := (List.nodup_cons.mp (List.nodup_middle.mp nodup)).1
    apply once
    rw [equal]
    exact List.mem_append_right _ (List.mem_map.mpr ⟨(name', tree'), member, rfl⟩)

theorem ident_childDirs {i : Nat} {d e : Dir} (here : (listDirs (ascii "/in") manyDirs)[i]? =
    some d)
    (child : e ∈ childDirs (listDirs (ascii "/in") manyDirs) i) :
    ∃ k < 70, baseName e.path = wideName k := by
  rw [childDirs_wide here] at child
  obtain ⟨k, low, path⟩ := subdirs_wide (List.mem_of_getElem? here) child
  refine ⟨k, low, ?_⟩
  rw [path, baseName_createPath]
  exact fun slash => absurd (wideName_bytes low _ slash).1 (by decide)

theorem listFiles_none (stat : List UInt8 → Option Stat) {dirs : List Dir}
    (none : ∀ d ∈ dirs, d.tree.files = []) (sectors : Nat) :
    listFiles stat dirs sectors = .ok (dirs.map fun _ => [], sectors) := by
  induction dirs with
  | nil => rfl
  | cons d dirs ih =>
    obtain ⟨head, tail⟩ := List.forall_mem_cons.mp none
    have here : listFilesFrom stat d.path 0 false sectors d.tree.files = .ok ([], sectors) := by
      rw [head]
      rfl
    exact bind_ok.mpr ⟨_, here, bind_ok.mpr ⟨_, ih tail, rfl⟩⟩

theorem files_none (dirs : List Dir) (i : Nat) :
    (dirs.map fun _ => ([] : List FileEntry)).getD i [] = [] := by
  rw [List.getD_eq_getElem?_getD, List.getElem?_map]
  cases dirs[i]? <;> rfl

theorem made_wide (joliet : Bool) {dirs : List Dir} (i : Nat) :
    Made anyStat joliet dirs (dirs.map fun _ => []) i := by
  constructor
  · rw [files_none]
    rfl
  · have all : childRecords anyStat joliet dirs i = some ((childDirs dirs i).map fun d =>
        ⟨0, 0, ⟨0, 0, 0, 0, 0, 0⟩, isoDirectory, dirIdent joliet (baseName d.path)⟩) := by
      rw [childRecords, mapM_eq_some, List.map_map]
      rfl
    rw [all]
    rfl

theorem idents_wide (joliet : Bool) (dirs : List Dir) (i : Nat) :
    (entriesAt anyStat joliet dirs (dirs.map fun _ => []) i).map Record.ident =
      (childDirs dirs i).map fun d => dirIdent joliet (baseName d.path) := by
  rw [entriesAt_idents (made_wide joliet i), files_none]
  rfl

/-- Both passes over the tree come to their end. -/
theorem manyDirs_pass (joliet : Bool) : ∃ st, buildContents anyStat joliet 0x100000
    (listDirs (ascii "/in") manyDirs) ((listDirs (ascii "/in") manyDirs).map fun _ => []) 0
    (listDirs (ascii "/in") manyDirs) ⟨[], 0⟩ = .ok st := by
  have short : ShortDirs joliet (listDirs (ascii "/in") manyDirs) := by
    intro i inside d child
    obtain ⟨k, low, name⟩ := ident_childDirs (List.getElem?_eq_getElem inside) child
    rw [name]
    exact ((wideName_ident low).2 joliet).1
  refine ⟨_, buildContents_succeeds (listDirs_earlier manyDirs_proper)
    (listDirs_keys manyDirs_proper joliet) (fun e _ => ⟨_, rfl⟩) (fun i _ => made_wide joliet i)
    short ?_ ?_⟩
  · -- 70 records of at most 254 bytes, the gaps not counted
    intro i inside
    have here := List.getElem?_eq_getElem inside
    have idents := idents_wide joliet (listDirs (ascii "/in") manyDirs) i
    have few : (entriesAt anyStat joliet (listDirs (ascii "/in") manyDirs)
        ((listDirs (ascii "/in") manyDirs).map fun _ => []) i).length ≤ 70 := by
      have count := congrArg List.length idents
      rw [List.length_map, List.length_map, childDirs_wide here] at count
      rw [count]
      exact subdirs_length (List.mem_of_getElem? here)
    have small : ∀ n ∈ ((entriesAt anyStat joliet (listDirs (ascii "/in") manyDirs)
        ((listDirs (ascii "/in") manyDirs).map fun _ => []) i).map Record.bytes).map List.length,
        n ≤ 255 := by
      intro n hn
      obtain ⟨bytes, hbytes, rfl⟩ := List.mem_map.mp hn
      obtain ⟨r, hr, rfl⟩ := List.mem_map.mp hbytes
      have listed : r.ident ∈ (childDirs (listDirs (ascii "/in") manyDirs) i).map
          fun d => dirIdent joliet (baseName d.path) := by
        rw [← idents]
        exact List.mem_map_of_mem hr
      obtain ⟨d, child, ident⟩ := List.mem_map.mp listed
      have size := Record.bytes_length (ident ▸ short i inside d child)
      rw [size]
      exact Nat.le_of_lt_succ (lenDr r.ident).toNat_lt
    have total := List.sum_le_card_nsmul _ _ small
    rw [List.length_map, List.length_map, smul_eq_mul] at total
    have bound := endFrom_le 80 ((entriesAt anyStat joliet (listDirs (ascii "/in") manyDirs)
      ((listDirs (ascii "/in") manyDirs).map fun _ => []) i).map Record.bytes)
    omega
  · intro j later inside
    obtain ⟨d, here, child⟩ := mem_childDirs_parent manyDirs_proper later inside
    obtain ⟨k, low, name⟩ := baseName_wide later here
    have key : keyAt joliet (listDirs (ascii "/in") manyDirs) j =
        dirIdent joliet (baseName d.path) := by
      rw [keyAt, here, Option.map_some, Option.getD_some, name]
      exact ((wideName_ident low).2 joliet).2
    have listed : keyAt joliet (listDirs (ascii "/in") manyDirs) j ∈
        (entriesAt anyStat joliet (listDirs (ascii "/in") manyDirs)
          ((listDirs (ascii "/in") manyDirs).map fun _ => [])
          (getParent (listDirs (ascii "/in") manyDirs) j)).map Record.ident := by
      rw [idents_wide, key]
      exact List.mem_map.mpr ⟨d, child, rfl⟩
    obtain ⟨r, hr, ident⟩ := List.mem_map.mp listed
    exact ⟨r, List.mem_cons_of_mem _ (List.mem_cons_of_mem _ hr), ident⟩

theorem tableEnd_wide (dirs : List Dir) (wide : ∀ d ∈ dirs, ∃ i < 70, baseName d.path = wideName i)
    {i : Nat} (later : i ≠ 0) (offset : Nat) :
    tableEnd true i offset dirs = offset + 222 * dirs.length := by
  induction dirs generalizing i offset with
  | nil => rfl
  | cons d dirs ih =>
    obtain ⟨⟨k, low, name⟩, tail⟩ := List.forall_mem_cons.mp wide
    have size : entrySize (tableIdent true i d) = 222 := by
      rw [tableIdent, if_neg later, name, entrySize, (wideName_ident low).1]
    rw [tableEnd, size, ih tail (Nat.succ_ne_zero i), List.length_cons]
    omega

theorem manyDirs_length : (listDirs (ascii "/in") manyDirs).length = 4971 := by
  have count : ∀ sub : SourceTree, (level sub).dirCount = 1 + 70 * sub.dirCount := by
    intro sub
    rw [dirCount_eq, level, SourceTree.dirs, List.map_map]
    simp only [Function.comp_def, List.map_const', List.length_range, List.sum_replicate,
      smul_eq_mul]
  rw [listDirs_length, manyDirs, count, count]
  rfl

/-- The Joliet table of the tree has 1103350 bytes. -/
theorem manyDirs_unfit : ¬ TempFits 0x100000 (listDirs (ascii "/in") manyDirs) := by
  intro fits
  have whole : (listDirs (ascii "/in") manyDirs).take 65536 = listDirs (ascii "/in") manyDirs :=
    List.take_of_length_le (by rw [manyDirs_length]; decide)
  have inside := tableEnd_inside (by decide) _ (Nat.zero_le _) (fun _ => rfl) (fits true)
  have length := manyDirs_length
  rw [whole] at inside
  cases list : listDirs (ascii "/in") manyDirs with
  | nil =>
    rw [list] at length
    cases length
  | cons first rest =>
    have wide : ∀ d ∈ rest, ∃ i < 70, baseName d.path = wideName i := by
      intro d hd
      obtain ⟨j, here⟩ := List.getElem?_of_mem hd
      apply baseName_wide (Nat.succ_ne_zero j)
      rw [list, List.getElem?_cons_succ]
      exact here
    have size : tableEnd true 0 0 (first :: rest) = 10 + 222 * rest.length :=
      tableEnd_wide rest wide Nat.one_ne_zero 10
    rw [list] at inside length
    rw [List.length_cons] at length
    rw [size] at inside
    omega

/-- With buffers of 1 MiB, the smallest that are accepted, the entries of the Joliet table
leave `tempBuf`, and no error is returned. -/
theorem manyDirs_overruns : setBuffers 0x100000 0x100000 = true ∧
    ¬ IndicesInside anyStat 0x100000 0x100000 (ascii "/in") manyDirs ∧
    build anyStat 0x100000 (ascii "/in") manyDirs = .error .fault ∧
    ∀ fopen disk progress partitionSize t outFile volumeName,
      generate anyStat 0x100000 0x100000 fopen disk progress partitionSize t (ascii "/in") manyDirs
        outFile volumeName = none := by
  have opened : (listDirs (ascii "/in") manyDirs).any (fun d => !d.tree.opens) = false := by
    rw [List.any_eq_false]
    intro d hd
    rw [(manyDirs_wide d hd).1]
    decide
  have listed := listFiles_none anyStat (fun d hd => (manyDirs_wide d hd).2.1) 0
  choose passes passed using manyDirs_pass
  have reached := TablesReached.mk opened listed passed
  have fault := build_fault manyDirs_proper reached manyDirs_unfit
  refine ⟨rfl, ?_, fault, ?_⟩
  · intro inside
    exact manyDirs_unfit ((indicesInside_iff manyDirs_proper rfl).mp inside _ _ _ reached).1
  intro fopen disk progress partitionSize t outFile volumeName
  rw [generate, fault]

end WorkBuffers
