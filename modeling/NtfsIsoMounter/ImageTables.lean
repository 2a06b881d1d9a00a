import NtfsIsoMounter.PathTables

/-!
# The tables of a built image

A build that succeeds has made a record for every file and every child, and its
contents and path tables are those of the last pass with every sector number moved
by the start of its kind.
-/

namespace ImageTables

open ByteOrder CText SourceTrees DirectoryRecords ImageBuild RecordPasses ContentPasses PathTables

section Records
variable (stat : List UInt8 → Option Stat) (joliet : Bool) (dirs : List Dir)
  (files : List (List FileEntry))

/-- Every file and every child of directory `i` could be looked at. -/
def Made (i : Nat) : Prop :=
  ((files.getD i []).mapM (fileRecords stat joliet)).isSome ∧
    (childRecords stat joliet dirs i).isSome

variable {stat joliet dirs files}

theorem fileRecords_eq {e : FileEntry} {rs : List Record}
    (made : fileRecords stat joliet e = some rs) :
    ∃ time, rs = (List.range (partsOf e.size)).map (fileRecord joliet time e) := by
  obtain ⟨s, -, same⟩ := Option.bind_eq_some_iff.mp made
  exact ⟨s.mtime, (Option.some.inj same).symm⟩

/-- What the records of the files have in a member that does not depend on the time. -/
theorem fileRecordsAt_map {β : Type} {g : Record → β} {h : FileEntry → Nat → β} {i : Nat}
    (same : ∀ time e t, g (fileRecord joliet time e t) = h e t)
    (made : Made stat joliet dirs files i) :
    (fileRecordsAt stat joliet files i).map g =
      (files.getD i []).flatMap (fun e => (List.range (partsOf e.size)).map (h e)) := by
  obtain ⟨entries, mapped⟩ := Option.isSome_iff_exists.mp made.1
  rw [fileRecordsAt, mapped, Option.getD_some]
  rw [mapM_eq_some] at mapped
  generalize files.getD i [] = l at mapped
  induction l generalizing entries with
  | nil =>
    rw [List.map_nil, eq_comm, List.map_eq_nil_iff] at mapped
    rw [mapped]
    rfl
  | cons e l ih =>
    rw [List.map_cons, eq_comm, List.map_eq_cons_iff] at mapped
    obtain ⟨rs, rest, rfl, first, behind⟩ := mapped
    obtain ⟨time, rfl⟩ := fileRecords_eq first.symm
    rw [List.flatten_cons, List.map_append, ih rest behind.symm, List.flatMap_cons, List.map_map]
    congr 1
    exact List.map_congr_left fun t _ => same time e t

theorem childRecordsAt_map {β : Type} {g : Record → β} {h : Dir → β} {i : Nat}
    (same : ∀ time d, g ⟨0, 0, time, isoDirectory, dirIdent joliet (baseName d.path)⟩ = h d)
    (made : Made stat joliet dirs files i) :
    (childRecordsAt stat joliet dirs i).map g = (childDirs dirs i).map h := by
  obtain ⟨children, mapped⟩ := Option.isSome_iff_exists.mp made.2
  rw [childRecordsAt, mapped, Option.getD_some]
  rw [childRecords, mapM_eq_some] at mapped
  generalize childDirs dirs i = l at mapped
  induction l generalizing children with
  | nil =>
    rw [List.map_nil, eq_comm, List.map_eq_nil_iff] at mapped
    rw [mapped]
    rfl
  | cons d l ih =>
    rw [List.map_cons, eq_comm, List.map_eq_cons_iff] at mapped
    obtain ⟨r, rest, rfl, first, behind⟩ := mapped
    obtain ⟨s, -, record⟩ := Option.bind_eq_some_iff.mp first.symm
    rw [List.map_cons, List.map_cons, ih rest behind.symm, ← Option.some.inj record, same]

/-! ## Turns of the loop look at everything -/

theorem buildContent_made {tempBufSize i : Nat} {d : Dir} {st st' : Pass}
    (ok : buildContent stat joliet tempBufSize dirs (files.getD i []) st i d = .ok st') :
    Made stat joliet dirs files i := by
  by_cases root : getParent dirs i = i
  · simp only [buildContent, if_pos root, bind_ok, need_ok, pure_bind] at ok
    obtain ⟨own, -, above, -, entries, hentries, children, hchildren, -⟩ := ok
    exact ⟨Option.isSome_of_eq_some hentries, Option.isSome_of_eq_some hchildren⟩
  · simp only [buildContent, if_neg root, bind_ok, need_ok] at ok
    obtain ⟨own, -, content, -, above, -, entries, hentries, children, hchildren, -⟩ := ok
    exact ⟨Option.isSome_of_eq_some hentries, Option.isSome_of_eq_some hchildren⟩

theorem buildContents_made {tempBufSize : Nat} (rest : List Dir) {k : Nat} {st st' : Pass}
    (ok : buildContents stat joliet tempBufSize dirs files k rest st = .ok st') :
    ∀ i, k ≤ i → i < k + rest.length → Made stat joliet dirs files i := by
  induction rest generalizing k st with
  | nil => exact fun i low high => absurd low (by simpa using high)
  | cons d rest ih =>
    rw [buildContents] at ok
    obtain ⟨mid, turn, ok⟩ := bind_ok.mp ok
    intro i low high
    rcases Nat.eq_or_lt_of_le low with rfl | low
    · exact buildContent_made turn
    · rw [List.length_cons] at high
      exact ih ok i low (by omega)

/-! ## Sector numbers fit 32 bits -/

theorem startAt_lt (i : Nat) : startAt stat joliet dirs files i < 2 ^ 32 := by
  cases i with
  | zero => exact Nat.two_pow_pos 32
  | succ i => exact Nat.mod_lt _ (Nat.two_pow_pos 32)

theorem assign_small {key : List UInt8} {start length : Nat} {rs : List Record}
    (new : start < 2 ^ 32) (old : ∀ r ∈ rs, r.start < 2 ^ 32) :
    ∀ r ∈ assign key start length rs, r.start < 2 ^ 32 := by
  induction rs with
  | nil => exact old
  | cons r rs ih =>
    obtain ⟨head, tail⟩ := List.forall_mem_cons.mp old
    rw [assign]
    split
    · exact List.forall_mem_cons.mpr ⟨new, tail⟩
    · exact List.forall_mem_cons.mpr ⟨head, ih tail⟩

theorem recordsAt_small {i : Nat} (made : Made stat joliet dirs files i) (k : Nat) :
    ∀ r ∈ recordsAt stat joliet dirs files k i, r.start < 2 ^ 32 := by
  induction k with
  | zero =>
    rintro r (_ | ⟨_, _ | ⟨_, member⟩⟩)
    · exact startAt_lt i
    · exact startAt_lt _
    · rcases List.mem_append.mp member with member | member
      · have starts := fileRecordsAt_map (g := Record.start)
          (h := fun e t => (e.rlba + t * bytesToSectors multiextentPartSize) % 2 ^ 32)
          (fun _ _ _ => rfl) made
        have start : r.start ∈ (fileRecordsAt stat joliet files i).map Record.start :=
          List.mem_map_of_mem member
        rw [starts] at start
        obtain ⟨e, -, start⟩ := List.mem_flatMap.mp start
        obtain ⟨t, -, start⟩ := List.mem_map.mp start
        rw [← start]
        exact Nat.mod_lt _ (Nat.two_pow_pos 32)
      · have starts := childRecordsAt_map (g := Record.start) (h := fun _ => 0)
          (fun _ _ => rfl) made
        have start : r.start ∈ (childRecordsAt stat joliet dirs i).map Record.start :=
          List.mem_map_of_mem member
        rw [starts] at start
        obtain ⟨d, -, start⟩ := List.mem_map.mp start
        rw [← start]
        exact Nat.two_pow_pos 32
  | succ k ih =>
    rw [recordsAt_succ]
    split
    · exact assign_small (startAt_lt k) ih
    · exact ih

/-! ## Identifiers -/

/-- No record of a directory is longer than its length byte says. -/
def ShortDirs (joliet : Bool) (dirs : List Dir) : Prop :=
  ∀ i < dirs.length, ∀ d ∈ childDirs dirs i, Short (dirIdent joliet (baseName d.path))

theorem entriesAt_idents {i : Nat} (made : Made stat joliet dirs files i) :
    (entriesAt stat joliet dirs files i).map Record.ident =
      (files.getD i []).flatMap (fun e =>
        List.replicate (partsOf e.size) (fileIdent joliet (baseName e.path))) ++
      (childDirs dirs i).map (fun d => dirIdent joliet (baseName d.path)) := by
  rw [entriesAt, List.map_append, fileRecordsAt_map (g := Record.ident)
    (h := fun e _ => fileIdent joliet (baseName e.path)) (fun _ _ _ => rfl) made,
    childRecordsAt_map (g := Record.ident) (h := fun d => dirIdent joliet (baseName d.path))
      (fun _ _ => rfl) made]
  congr 1
  apply List.flatMap_congr
  intro e _
  rw [List.map_const', List.length_range]

theorem short_fresh {i : Nat} (made : Made stat joliet dirs files i)
    (short : ∀ d ∈ childDirs dirs i, Short (dirIdent joliet (baseName d.path))) :
    ∀ r ∈ freshAt stat joliet dirs files i, Short r.ident := by
  have behind : ∀ r ∈ entriesAt stat joliet dirs files i, Short r.ident := by
    intro r hr
    have member : r.ident ∈ (entriesAt stat joliet dirs files i).map Record.ident :=
      List.mem_map_of_mem hr
    rw [entriesAt_idents made] at member
    rcases List.mem_append.mp member with member | member
    · obtain ⟨e, -, member⟩ := List.mem_flatMap.mp member
      rw [List.eq_of_mem_replicate member]
      exact short_fileIdent joliet _
    · obtain ⟨d, hd, same⟩ := List.mem_map.mp member
      exact same ▸ short d hd
  exact List.forall_mem_cons.mpr ⟨short_dot, List.forall_mem_cons.mpr ⟨short_dotDot, behind⟩⟩

/-! ## One hierarchy -/

/-- The entries of a path table. -/
def tableEntries (stat : List UInt8 → Option Stat) (joliet : Bool) (dirs : List Dir)
    (files : List (List FileEntry)) : List Entry :=
  (List.range (min 65536 dirs.length)).map (entryAt joliet dirs (startAt stat joliet dirs files))

/-- A hierarchy with the contents and tables of the last pass, moved. -/
structure Built (stat : List UInt8 → Option Stat) (joliet : Bool) (dirs : List Dir)
    (files : List (List FileEntry)) (dirLba filesLba : Nat) (h : Hierarchy) : Prop where
  contents : h.contents = (List.range dirs.length).map (fun i =>
    packed ((recordsAt stat joliet dirs files dirs.length i).map (Record.relocate dirLba filesLba)))
  sectors : h.sectors = startAt stat joliet dirs files dirs.length
  pathTableL : h.pathTableL =
    tableOf false ((tableEntries stat joliet dirs files).map (Entry.moved dirLba))
  pathTableM : h.pathTableM =
    tableOf true ((tableEntries stat joliet dirs files).map (Entry.moved dirLba))
  made : ∀ i < dirs.length, Made stat joliet dirs files i
  found : ∀ j, j ≠ 0 → j < dirs.length →
    ∃ r ∈ recordsAt stat joliet dirs files j (getParent dirs j), r.ident = keyAt joliet dirs j

theorem dirIdent_length (joliet : Bool) (name : List UInt8) :
    (dirIdent joliet name).length ≤ maxIsoDir := by
  cases joliet with
  | true => exact (utf8ToUcs2_length _ _).trans (by decide)
  | false =>
    rw [dirIdent, if_neg Bool.false_ne_true, upperName, List.length_map, List.length_take]
    exact Nat.min_le_left _ _

theorem entryAt_ident_length (start : Nat → Nat) (i : Nat) :
    (entryAt joliet dirs start i).ident.length < 256 := by
  rw [entryAt]
  cases dirs[i]? with
  | none => exact Nat.succ_pos 255
  | some d =>
    change (tableIdent joliet i d).length < 256
    rw [tableIdent]
    split
    · decide
    · have := dirIdent_length joliet (baseName d.path)
      rw [maxIsoDir] at this
      omega

theorem passAt_stored (stat : List UInt8 → Option Stat) (files : List (List FileEntry))
    (keys : ∀ j, j ≠ 0 → j < dirs.length → keyAt joliet dirs j ≠ [0]) :
    ∀ i < dirs.length, ∃ dot more,
      (passAt stat joliet dirs files dirs.length).contents[i]? = some (Record.bytes dot ++ more) ∧
        dot.ident = [0] ∧ dot.start = startAt stat joliet dirs files i := by
  intro i inside
  obtain ⟨rest, head⟩ := recordsAt_head stat joliet files keys le_rfl i
  obtain ⟨dot, this⟩ : ∃ dot : Record, dot = ⟨startAt stat joliet dirs files i,
    sizeAt stat joliet dirs files i, timeAt stat dirs i, isoDirectory, [0]⟩ := ⟨_, rfl⟩
  have self : dot.ident = [0] := by rw [this]
  obtain ⟨more, first⟩ := packed_first self rest
  refine ⟨dot, more, ?_, self, by rw [this]⟩
  rw [← first, this, ← head, passAt, List.getElem?_map, List.getElem?_range inside]
  rfl

/-- A path table in front of and behind its relocation. -/
theorem built_table {msb : Bool} {tempBufSize : Nat}
    (keys : ∀ j, j ≠ 0 → j < dirs.length → keyAt joliet dirs j ≠ [0]) {table : List UInt8}
    (built : buildPathTable msb joliet tempBufSize dirs
      (passAt stat joliet dirs files dirs.length).contents = .ok table) (dirLba : Nat) :
    table = tableOf msb (tableEntries stat joliet dirs files) ∧
      fixPathTableLba table dirLba msb =
        tableOf msb ((tableEntries stat joliet dirs files).map (Entry.moved dirLba)) := by
  have entries : ∀ e ∈ tableEntries stat joliet dirs files,
      e.location < 2 ^ 32 ∧ e.ident.length < 256 := by
    intro e he
    obtain ⟨i, -, rfl⟩ := List.mem_map.mp he
    exact ⟨startAt_lt i, entryAt_ident_length _ i⟩
  have same := buildPathTable_eq (passAt_stored stat files keys) built
  refine ⟨same, ?_⟩
  rw [same]
  exact fixPathTableLba_tableOf _ (fun e he => (entries e he).1) fun e he => (entries e he).2

section Hierarchies
variable {tempBufSize : Nat} (earlier : ∀ j, j ≠ 0 → j < dirs.length → getParent dirs j < j)
  (keys : ∀ j, j ≠ 0 → j < dirs.length → keyAt joliet dirs j ≠ [0])
  (shortDirs : ShortDirs joliet dirs) {st : Pass}
  (pass : buildContents stat joliet tempBufSize dirs files 0 dirs ⟨[], 0⟩ = .ok st)
  {tableL tableM : List UInt8}
  (builtL : buildPathTable false joliet tempBufSize dirs st.contents = .ok tableL)
  (builtM : buildPathTable true joliet tempBufSize dirs st.contents = .ok tableM)
include earlier keys shortDirs pass builtL builtM

theorem hierarchy_built (dirLba filesLba : Nat) :
    Built stat joliet dirs files dirLba filesLba
        (Hierarchy.fixLba ⟨st.contents, st.sectors, tableL, tableM⟩ dirLba filesLba) ∧
      (fixPathTableLba tableM dirLba true).length = tableM.length := by
  have made : ∀ i < dirs.length, Made stat joliet dirs files i := fun i inside =>
    buildContents_made dirs pass i (Nat.zero_le i) (by omega)
  have short : ∀ i < dirs.length, ∀ r ∈ freshAt stat joliet dirs files i, Short r.ident :=
    fun i inside => short_fresh (made i inside) (shortDirs i inside)
  obtain ⟨rfl, found⟩ := buildContents_pass earlier keys short pass
  obtain ⟨-, movedL⟩ := built_table keys builtL dirLba
  obtain ⟨sameM, movedM⟩ := built_table keys builtM dirLba
  refine ⟨⟨?_, rfl, movedL, movedM, made, found⟩, ?_⟩
  · rw [Hierarchy.fixLba, passAt, List.map_map]
    apply List.map_congr_left
    intro i hi
    have inside := List.mem_range.mp hi
    exact fixDirLba_packed dirLba filesLba
      (short_of_kinds (recordsAt_kinds stat joliet files dirs.length i) (short i inside))
      (recordsAt_small (made i inside) dirs.length)
  · rw [movedM, sameM]
    apply tableOf_length
    rw [List.map_map]
    rfl

end Hierarchies

end Records

/-! ## The image -/

section Image
variable {stat : List UInt8 → Option Stat} {tempBufSize : Nat} {inDir : List UInt8}
  {tree : SourceTree}

/-- A relocation that keeps the lengths of the tables keeps the first sectors. -/
theorem fixLba_lbas (m : Image) {a b c : Nat}
    (iso : (fixPathTableLba m.iso.pathTableM a true).length = m.iso.pathTableM.length)
    (joliet : (fixPathTableLba m.joliet.pathTableM b true).length = m.joliet.pathTableM.length) :
    (m.fixLba a b c).isoLba = m.isoLba ∧ (m.fixLba a b c).jolietLba = m.jolietLba ∧
      (m.fixLba a b c).filesLba = m.filesLba := by
  have isoLba : (m.fixLba a b c).isoLba = m.isoLba := by
    simp only [Image.isoLba, Image.fixLba, Hierarchy.fixLba, iso, joliet]
  have jolietLba : (m.fixLba a b c).jolietLba = m.jolietLba := by
    rw [Image.jolietLba, Image.jolietLba, isoLba]
    rfl
  refine ⟨isoLba, jolietLba, ?_⟩
  rw [Image.filesLba, Image.filesLba, jolietLba]
  rfl

/-- The tables in front of the relocation. -/
def buildUnmoved (stat : List UInt8 → Option Stat) (tempBufSize : Nat) (inDir : List UInt8)
    (tree : SourceTree) : Except Stop Image := do
  let dirs := listDirs inDir tree
  if dirs.any (fun d => !d.tree.opens) then .error .failed
  else
    let (files, filesSizeSectors) ← listFiles stat dirs 0
    let iso ← buildContents stat false tempBufSize dirs files 0 dirs ⟨[], 0⟩
    let joliet ← buildContents stat true tempBufSize dirs files 0 dirs ⟨[], 0⟩
    let pathTableL ← buildPathTable false false tempBufSize dirs iso.contents
    let pathTableM ← buildPathTable true false tempBufSize dirs iso.contents
    let pathTableJolietL ← buildPathTable false true tempBufSize dirs joliet.contents
    let pathTableJolietM ← buildPathTable true true tempBufSize dirs joliet.contents
    pure ⟨dirs, files, filesSizeSectors,
      ⟨iso.contents, iso.sectors, pathTableL, pathTableM⟩,
      ⟨joliet.contents, joliet.sectors, pathTableJolietL, pathTableJolietM⟩⟩

/-- The relocation is the last thing a build does. -/
theorem build_eq : build stat tempBufSize inDir tree =
    (buildUnmoved stat tempBufSize inDir tree >>= fun m =>
      pure (m.fixLba m.isoLba m.jolietLba m.filesLba)) := by
  rw [build, buildUnmoved]
  dsimp only
  split
  · rfl
  · simp only [bind_assoc, pure_bind]

/-- A hierarchy with the contents of a pass and the path tables made of them. -/
structure Passed (stat : List UInt8 → Option Stat) (joliet : Bool) (tempBufSize : Nat)
    (dirs : List Dir) (files : List (List FileEntry)) (h : Hierarchy) : Prop where
  pass : buildContents stat joliet tempBufSize dirs files 0 dirs ⟨[], 0⟩ =
    .ok ⟨h.contents, h.sectors⟩
  tableL : buildPathTable false joliet tempBufSize dirs h.contents = .ok h.pathTableL
  tableM : buildPathTable true joliet tempBufSize dirs h.contents = .ok h.pathTableM

theorem buildUnmoved_spec {m : Image}
    (built : buildUnmoved stat tempBufSize inDir tree = .ok m) :
    listFiles stat (listDirs inDir tree) 0 = .ok (m.files, m.filesSizeSectors) ∧
      ∀ joliet, Passed stat joliet tempBufSize (listDirs inDir tree) m.files
        (m.hierarchy joliet) := by
  rw [buildUnmoved] at built
  dsimp only at built
  split at built
  · cases built
  · obtain ⟨⟨files, sectors⟩, listed, built⟩ := bind_ok.mp built
    obtain ⟨iso, isoPass, built⟩ := bind_ok.mp built
    obtain ⟨joliet, jolietPass, built⟩ := bind_ok.mp built
    obtain ⟨tableL, builtL, built⟩ := bind_ok.mp built
    obtain ⟨tableM, builtM, built⟩ := bind_ok.mp built
    obtain ⟨tableL', builtL', built⟩ := bind_ok.mp built
    obtain ⟨tableM', builtM', built⟩ := bind_ok.mp built
    cases built
    refine ⟨listed, ?_⟩
    rintro (_ | _)
    · exact ⟨isoPass, builtL, builtM⟩
    · exact ⟨jolietPass, builtL', builtM'⟩

/-- What a build that succeeds returns. -/
theorem build_spec (proper : tree.Proper) {m : Image}
    (built : build stat tempBufSize inDir tree = .ok m)
    (shortDirs : ∀ joliet, ShortDirs joliet (listDirs inDir tree)) :
    listFiles stat (listDirs inDir tree) 0 = .ok (m.files, m.filesSizeSectors) ∧
      Built stat false (listDirs inDir tree) m.files m.isoLba m.filesLba m.iso ∧
      Built stat true (listDirs inDir tree) m.files m.jolietLba m.filesLba m.joliet := by
  rw [build_eq] at built
  obtain ⟨before, unmoved, built⟩ := bind_ok.mp built
  cases built
  obtain ⟨listed, passed⟩ := buildUnmoved_spec unmoved
  obtain ⟨isoBuilt, isoLength⟩ := hierarchy_built (listDirs_earlier proper)
    (listDirs_keys proper false) (shortDirs false) (passed false).pass (passed false).tableL
    (passed false).tableM before.isoLba before.filesLba
  obtain ⟨jolietBuilt, jolietLength⟩ := hierarchy_built (listDirs_earlier proper)
    (listDirs_keys proper true) (shortDirs true) (passed true).pass (passed true).tableL
    (passed true).tableM before.jolietLba before.filesLba
  have lbas := fixLba_lbas before (c := before.filesLba) isoLength jolietLength
  rw [lbas.1, lbas.2.1, lbas.2.2]
  exact ⟨listed, isoBuilt, jolietBuilt⟩

end Image

end ImageTables
