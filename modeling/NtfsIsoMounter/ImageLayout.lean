import NtfsIsoMounter.PathEntries
import NtfsIsoMounter.RecordLookups
import NtfsIsoMounter.WriteOrder

/-!
# The sectors stored in an image

Every sector number a reader follows, in the records of the directories, in the volume
descriptors and in the path tables, against the place where `write` emits the object. The
counts of `build` and the order of `write` agree; what can go wrong is a directory that
is looked up by the first 205 bytes of its name and finds the record of a file.
-/

namespace ImageLayout

open ByteOrder CText SourceTrees DirectoryRecords ImageBuild RecordPasses ContentPasses
  ContentHeads PathTables ImageTables PathEntries ImageWriter MultiExtents RecordLookups
  RecordLayout FileLists PieceLayout WorkBuffers WriteOrder

/-! ## The records of files -/

/-- The parts of some files, which are numbered from `n` on. -/
def partsFrom (n : Nat) : List FileEntry → List (FileEntry × Nat × Nat)
  | [] => []
  | e :: es => (List.range (partsOf e.size)).map (fun t => (e, n, t)) ++ partsFrom (n + 1) es

theorem partsFrom_append (n : Nat) (front back : List FileEntry) :
    partsFrom n (front ++ back) = partsFrom n front ++ partsFrom (n + front.length) back := by
  induction front generalizing n with
  | nil => rfl
  | cons e front ih =>
    rw [List.cons_append, partsFrom, partsFrom, ih, List.append_assoc, List.length_cons,
      Nat.add_assoc, Nat.add_comm 1]

theorem partsFrom_map {β : Type} (h : FileEntry → Nat → β) (n : Nat) (es : List FileEntry) :
    (partsFrom n es).map (fun x => h x.1 x.2.2) =
      es.flatMap fun e => (List.range (partsOf e.size)).map (h e) := by
  induction es generalizing n with
  | nil => rfl
  | cons e es ih =>
    rw [partsFrom, List.map_append, List.map_map, ih, List.flatMap_cons]
    rfl

/-- The place of a part. -/
theorem partsFrom_getElem? {n k m t : Nat} {es : List FileEntry} {e : FileEntry}
    (here : (partsFrom n es)[k]? = some (e, m, t)) :
    ∃ front back, es = front ++ e :: back ∧ m = n + front.length ∧ t < partsOf e.size ∧
      k = (partsFrom n front).length + t := by
  induction es generalizing n k with
  | nil => cases here
  | cons first es ih =>
    rw [partsFrom] at here
    by_cases low : k < partsOf first.size
    · rw [List.getElem?_append_left (by rw [List.length_map, List.length_range]; exact low),
        List.getElem?_map, List.getElem?_range low] at here
      cases here
      exact ⟨[], es, rfl, rfl, low, (Nat.zero_add _).symm⟩
    · rw [List.getElem?_append_right (by rw [List.length_map, List.length_range]; omega),
        List.length_map, List.length_range] at here
      obtain ⟨front, back, rfl, rfl, inside, place⟩ := ih here
      refine ⟨first :: front, back, rfl, ?_, inside, ?_⟩
      · rw [List.length_cons]
        omega
      · rw [partsFrom, List.length_append, List.length_map, List.length_range]
        omega

theorem partsFrom_length (n : Nat) (es : List FileEntry) :
    (partsFrom n es).length = (es.map fun e => partsOf e.size).sum := by
  induction es generalizing n with
  | nil => rfl
  | cons e es ih =>
    rw [partsFrom, List.length_append, List.length_map, List.length_range, ih, List.map_cons,
      List.sum_cons]

theorem partsFrom_at {front back : List FileEntry} {e : FileEntry} (n : Nat) {s : Nat}
    (inside : s < partsOf e.size) :
    (partsFrom n (front ++ e :: back))[(partsFrom n front).length + s]? =
      some (e, n + front.length, s) := by
  rw [partsFrom_append, List.getElem?_append_right (Nat.le_add_right _ _), Nat.add_sub_cancel_left,
    partsFrom, List.getElem?_append_left (by rw [List.length_map, List.length_range]; exact inside),
    List.getElem?_map, List.getElem?_range inside]
  rfl

/-- The parts of the files of directory `i`, with the numbers of the files in the image. -/
def partsIn (files : List (List FileEntry)) (i : Nat) : List (FileEntry × Nat × Nat) :=
  partsFrom (files.take i).flatten.length (files.getD i [])

/-- A file of a directory among all files. -/
theorem flatten_getElem? {files : List (List FileEntry)} {i : Nat} {front back : List FileEntry}
    {e : FileEntry} (split : files.getD i [] = front ++ e :: back) :
    files.flatten[(files.take i).flatten.length + front.length]? = some e ∧
      ((files.flatten.take ((files.take i).flatten.length + front.length))) =
        (files.take i).flatten ++ front := by
  have inside : i < files.length := by
    by_contra outside
    rw [List.getD_eq_getElem?_getD, List.getElem?_eq_none (by omega)] at split
    cases front <;> cases split
  have own : files[i] = front ++ e :: back := by
    rw [← split, List.getD_eq_getElem?_getD, List.getElem?_eq_getElem inside]
    rfl
  have whole : files.flatten = (files.take i).flatten ++ front ++
      (e :: back ++ (files.drop (i + 1)).flatten) := by
    have parts : files = files.take i ++ files[i] :: files.drop (i + 1) := by
      rw [← List.drop_eq_getElem_cons, List.take_append_drop]
    rw [own] at parts
    conv_lhs => rw [parts]
    simp only [List.flatten_append, List.flatten_cons, List.append_assoc]
  constructor
  · rw [whole, List.getElem?_append_right (by simp), List.length_append, Nat.sub_self]
    rfl
  · rw [whole, ← List.length_append, List.take_left]

/-- What the records of directory `i` stand for, from the first on: the directory, its
parent, and the parts of its files, each some bytes into the file. -/
def targets (joliet : Bool) (dirs : List Dir) (files : List (List FileEntry)) (i : Nat) :
    List (Object × Nat) :=
  (.content joliet i, 0) :: (.content joliet (getParent dirs i), 0) ::
    (partsIn files i).map fun x => (.file x.2.1, x.2.2 * multiextentPartSize)

theorem le_sectorsOf {sectors size : Nat} (inside : sectors * 0x800 ≤ size) :
    sectors ≤ sectorsOf size := by
  rw [sectorsOf]
  omega

theorem part_sectors (s : Nat) : s * multiextentPartSize = s * 0x1FFFFF * 0x800 := by
  rw [multiextentPartSize, Nat.mul_assoc]

/-- The parts in front of one are not longer than the file. -/
theorem part_le_sectors {size s : Nat} (inside : s < partsOf size) :
    s * 0x1FFFFF ≤ sectorsOf size := by
  have bytes : s * multiextentPartSize ≤ size := by
    rcases Nat.lt_or_eq_of_le (Nat.succ_le_of_lt inside) with before | last
    · have more := left_of_before before
      rw [Nat.succ_mul] at more
      omega
    · exact (left_of_last last).1
  rw [part_sectors] at bytes
  exact le_sectorsOf bytes

/-! ## The records that directories write to -/

/-- The subdirectories of directory `i`. -/
def subdirsAt (dirs : List Dir) (i : Nat) : List Dir := (dirs[i]?.map Dir.subdirs).getD []

/-- The identifiers of a directory are pairwise different, those of `.` and `..` among them. -/
def Distinct (joliet : Bool) (dirs : List Dir) (files : List (List FileEntry)) (i : Nat) : Prop :=
  ([0] :: [1] :: ((files.getD i []).map (fun e => fileIdent joliet (baseName e.path)) ++
    (subdirsAt dirs i).map fun d => dirIdent joliet (baseName d.path))).Nodup

instance (joliet : Bool) (dirs : List Dir) (files : List (List FileEntry)) (i : Nat) :
    Decidable (Distinct joliet dirs files i) :=
  inferInstanceAs (Decidable (List.Nodup _))

section Hits
variable {stat : List UInt8 → Option Stat} {joliet : Bool} {dirs : List Dir}
  {files : List (List FileEntry)} {i : Nat} (made : Made stat joliet dirs files i)
  (distinct : Distinct joliet dirs files i)
include made

/-- The identifiers in a directory, those of the parts of a file repeated. -/
theorem freshAt_idents : (freshAt stat joliet dirs files i).map Record.ident =
    [0] :: [1] :: ((partsIn files i).map (fun x => fileIdent joliet (baseName x.1.path)) ++
      (childDirs dirs i).map fun d => dirIdent joliet (baseName d.path)) := by
  have parts := partsFrom_map (fun e _ => fileIdent joliet (baseName e.path))
    (files.take i).flatten.length (files.getD i [])
  rw [freshAt, List.map_cons, List.map_cons, entriesAt, List.map_append,
    fileRecordsAt_map (g := Record.ident) (h := fun e _ => fileIdent joliet (baseName e.path))
      (fun _ _ _ => rfl) made, ← parts,
    childRecordsAt_map (g := Record.ident) (h := fun d => dirIdent joliet (baseName d.path))
      (fun _ _ => rfl) made]
  rfl

include distinct

/-- A directory finds the first record of the file with its string, if there is one. -/
theorem hit_file {j k m t : Nat} {e : FileEntry} (here : (partsIn files i)[k]? = some (e, m, t)) :
    hit stat joliet dirs files i j = k + 2 ↔
      t = 0 ∧ keyAt joliet dirs j = fileIdent joliet (baseName e.path) := by
  obtain ⟨front, back, split, -, inside, place⟩ := partsFrom_getElem? here
  -- what stands in front of the record
  obtain ⟨before, hbefore⟩ : ∃ before : List (List UInt8), before = [0] :: [1] ::
    ((partsFrom (files.take i).flatten.length front).map
        (fun x => fileIdent joliet (baseName x.1.path)) ++
      List.replicate t (fileIdent joliet (baseName e.path))) := ⟨_, rfl⟩
  obtain ⟨rest, hrest⟩ : ∃ rest, (freshAt stat joliet dirs files i).map Record.ident =
      before ++ fileIdent joliet (baseName e.path) :: rest := by
    obtain ⟨s, parts⟩ : ∃ s, partsOf e.size = t + (s + 1) := ⟨partsOf e.size - t - 1, by omega⟩
    have own : (List.range (partsOf e.size)).map (fun _ => fileIdent joliet (baseName e.path)) =
        List.replicate t (fileIdent joliet (baseName e.path)) ++
          fileIdent joliet (baseName e.path) ::
            List.replicate s (fileIdent joliet (baseName e.path)) := by
      rw [List.map_const', List.length_range, parts, List.replicate_add]
      rfl
    refine ⟨List.replicate s (fileIdent joliet (baseName e.path)) ++
      (partsFrom ((files.take i).flatten.length + front.length + 1) back).map
        (fun x => fileIdent joliet (baseName x.1.path)) ++
      (childDirs dirs i).map (fun d => dirIdent joliet (baseName d.path)), ?_⟩
    rw [freshAt_idents made, hbefore, partsIn, split, partsFrom_append, partsFrom, List.map_append,
      List.map_append, List.map_map]
    simp only [Function.comp_def, own, List.cons_append, List.append_assoc]
  have length : before.length = k + 2 := by
    rw [hbefore, List.length_cons, List.length_cons, List.length_append, List.length_map,
      List.length_replicate, place]
  rw [hit, hrest, ← length, findIdx_eq_length_iff, hbefore]
  simp only [List.forall_mem_cons, List.forall_mem_append, List.forall_mem_map, beq_eq_false_iff_ne,
    beq_iff_eq]
  constructor
  · rintro ⟨⟨-, -, -, same⟩, key⟩
    refine ⟨?_, key.symm⟩
    by_contra later
    exact same _ (List.mem_replicate.mpr ⟨later, rfl⟩) key
  · rintro ⟨rfl, key⟩
    rw [Distinct, split] at distinct
    obtain ⟨dot, behind⟩ := List.nodup_cons.mp distinct
    obtain ⟨dotDot, behind⟩ := List.nodup_cons.mp behind
    have member : fileIdent joliet (baseName e.path) ∈
        (front ++ e :: back).map fun e => fileIdent joliet (baseName e.path) :=
      List.mem_map_of_mem (List.mem_append_right _ List.mem_cons_self)
    rw [key]
    refine ⟨⟨?_, ?_, ?_, ?_⟩, rfl⟩
    · intro same
      exact dot (List.mem_cons_of_mem _ (List.mem_append_left _ (same ▸ member)))
    · intro same
      exact dotDot (List.mem_append_left _ (same ▸ member))
    · rintro ⟨e', m', t'⟩ inner same
      obtain ⟨k', at'⟩ := List.mem_iff_getElem?.mp inner
      obtain ⟨front', back', split', -⟩ := partsFrom_getElem? at'
      have nodup := (List.nodup_append.mp behind).1
      rw [split'] at nodup
      simp only [List.map_append, List.map_cons, List.append_assoc, List.cons_append] at nodup
      have apart := (List.nodup_append.mp nodup).2.1
      have same' : fileIdent joliet (baseName e'.path) = fileIdent joliet (baseName e.path) := same
      apply (List.nodup_cons.mp apart).1
      rw [same']
      exact List.mem_append_right _ List.mem_cons_self
    · intro x none'
      cases none'

end Hits

section Writes
variable {stat : List UInt8 → Option Stat} {joliet : Bool} {inDir : List UInt8} {tree : SourceTree}
  {files : List (List FileEntry)} {i : Nat}

/-- Of several writes to a record the last one stays. -/
theorem foldl_write_last (start size : Nat → Nat) (js : List Nat) (r : Record) :
    js.foldl (fun r j => write (start j) (size j) r) r =
      (js.getLast?.map fun j => write (start j) (size j) r).getD r := by
  induction js generalizing r with
  | nil => rfl
  | cons j js ih =>
    rw [List.foldl_cons, ih, List.getLast?_cons]
    cases js.getLast? with
    | none => rfl
    | some k => rfl

/-- The numbers in the record of a part: those of the last directory that takes it for its own, or
those counted for the file. -/
theorem record_part {dirs : List Dir} (made : Made stat joliet dirs files i) {k m t : Nat}
    {e : FileEntry} (here : (partsIn files i)[k]? = some (e, m, t)) :
    ∃ r, (recordsAt stat joliet dirs files dirs.length i)[k + 2]? = some r ∧
      r.start = ((writers stat joliet dirs files dirs.length i (k + 2)).getLast?.map
        (startAt stat joliet dirs files)).getD
          ((e.rlba + t * bytesToSectors multiextentPartSize) % 2 ^ 32) ∧
      r.length = ((writers stat joliet dirs files dirs.length i (k + 2)).getLast?.map
        (sizeAt stat joliet dirs files)).getD
          (if t + 1 = partsOf e.size then (e.size - t * multiextentPartSize) % 2 ^ 32
            else multiextentPartSize) ∧
      r.flags &&& isoDirectory = 0 := by
  have fields := fileRecordsAt_map (g := fun r => (r.start, r.length, r.flags &&& isoDirectory))
    (h := fun e t => ((e.rlba + t * bytesToSectors multiextentPartSize) % 2 ^ 32,
      (if t + 1 = partsOf e.size then (e.size - t * multiextentPartSize) % 2 ^ 32
        else multiextentPartSize),
      (if t + 1 = partsOf e.size then 0 else isoMultiextent) &&& isoDirectory))
    (fun _ _ _ => rfl) made
  rw [← partsFrom_map _ (files.take i).flatten.length, ← partsIn] at fields
  have field := congrArg (fun l => l[k]?) fields
  simp only [List.getElem?_map, here, Option.map_some] at field
  obtain ⟨fresh, at', values⟩ := Option.map_eq_some_iff.mp field
  obtain ⟨start, values⟩ := Prod.mk.inj values
  obtain ⟨length, flags⟩ := Prod.mk.inj values
  have place : (freshAt stat joliet dirs files i)[k + 2]? = some fresh := by
    rw [freshAt, List.getElem?_cons_succ, List.getElem?_cons_succ, entriesAt,
      List.getElem?_append_left (List.getElem?_eq_some_iff.mp at').1]
    exact at'
  have file : fresh.flags &&& isoDirectory = 0 := by
    rw [flags]
    split <;> decide
  refine ⟨_, by rw [recordsAt_getElem?, place, Option.map_some], ?_⟩
  rw [foldl_write_last]
  cases (writers stat joliet dirs files dirs.length i (k + 2)).getLast? with
  | none =>
    rw [Option.map_none, Option.map_none, Option.map_none, Option.getD_none, Option.getD_none,
      Option.getD_none, start, length]
    exact ⟨rfl, rfl, file⟩
  | some j =>
    rw [Option.map_some, Option.map_some, Option.map_some, Option.getD_some, Option.getD_some,
      Option.getD_some]
    exact ⟨rfl, rfl, file⟩

theorem key_up (name : List UInt8) (up : strCheck joliet name = [1]) :
    dirIdent joliet name = [1] := by
  cases joliet with
  | true => exact up
  | false =>
    have length := congrArg List.length up
    rw [strCheck, if_neg Bool.false_ne_true, upperName, List.length_map, List.length_take] at length
    rw [List.length_singleton] at length
    have single : name.length = 1 := by
      rw [maxIsoName] at length
      omega
    rw [strCheck, if_neg Bool.false_ne_true, upperName,
      List.take_of_length_le (by rw [single]; decide)]
      at up
    rw [dirIdent, if_neg Bool.false_ne_true, upperName,
      List.take_of_length_le (by rw [single]; decide)]
    exact up

/-- A directory is built into the parent that the tree gives it. -/
theorem builtBelow_spec (joliet : Bool) (proper : tree.Proper) {n j : Nat}
    (le : n ≤ (listDirs inDir tree).length)
    (hj : j ∈ builtBelow (listDirs inDir tree) n i) :
    ∃ d ∈ subdirsAt (listDirs inDir tree) i,
      keyAt joliet (listDirs inDir tree) j = strCheck joliet (baseName d.path) := by
  obtain ⟨low, child⟩ := List.mem_filter.mp hj
  obtain ⟨other, parent⟩ := of_decide_eq_true child
  have inside : j < (listDirs inDir tree).length := (List.mem_range.mp low).trans_le le
  have later : j ≠ 0 := by
    rintro rfl
    rw [getParent_zero] at parent
    exact other parent
  have here := List.getElem?_eq_getElem inside
  obtain ⟨p, above, inner, -⟩ := getParent_spec proper here later
  rw [parent] at above
  refine ⟨_, by rwa [subdirsAt, above], ?_⟩
  rw [keyAt, here]
  rfl

variable (proper : tree.Proper) (made : Made stat joliet (listDirs inDir tree) files i)
  (distinct : Distinct joliet (listDirs inDir tree) files i)
include proper made distinct

/-- No directory finds the record of the parent. -/
theorem writers_dotDot (n : Nat) (le : n ≤ (listDirs inDir tree).length) :
    writers stat joliet (listDirs inDir tree) files n i 1 = [] := by
  rw [writers, List.filter_eq_nil_iff]
  intro j hj
  obtain ⟨d, inner, key⟩ := builtBelow_spec joliet proper le hj
  rw [decide_eq_true_iff, hit, freshAt_idents made]
  intro one
  obtain ⟨-, up⟩ := (@findIdx_eq_length_iff _ _ [[0]] _ _).mp one
  rw [beq_iff_eq, key] at up
  have ident := key_up (baseName d.path) up.symm
  obtain ⟨-, behind⟩ := List.nodup_cons.mp distinct
  apply (List.nodup_cons.mp behind).1
  rw [← ident]
  exact List.mem_append_right _ (List.mem_map_of_mem inner)

/-- The last directory that takes the record of a file for its own. -/
def taker (joliet : Bool) (dirs : List Dir) (i : Nat) (e : FileEntry) : Option Nat :=
  ((builtBelow dirs dirs.length i).filter fun j =>
    keyAt joliet dirs j = fileIdent joliet (baseName e.path)).getLast?

theorem record_dotDot : ∃ r, (recordsAt stat joliet (listDirs inDir tree) files
      (listDirs inDir tree).length i)[1]? = some r ∧
    r.start = startAt stat joliet (listDirs inDir tree) files (getParent (listDirs inDir tree) i) ∧
    r.flags = isoDirectory := by
  rw [recordsAt_getElem?, writers_dotDot proper made distinct _ le_rfl]
  exact ⟨_, rfl, rfl, rfl⟩

omit proper in
theorem record_file {k m t : Nat} {e : FileEntry} (here : (partsIn files i)[k]? = some (e, m, t)) :
    ∃ r, (recordsAt stat joliet (listDirs inDir tree) files
        (listDirs inDir tree).length i)[k + 2]? = some r ∧
      r.start = (((if t = 0 then taker joliet (listDirs inDir tree) i e else none).map
        (startAt stat joliet (listDirs inDir tree) files)).getD
          ((e.rlba + t * bytesToSectors multiextentPartSize) % 2 ^ 32)) ∧
      r.flags &&& isoDirectory = 0 := by
  have wrote : writers stat joliet (listDirs inDir tree) files (listDirs inDir tree).length i
      (k + 2) = if t = 0 then
        (builtBelow (listDirs inDir tree) (listDirs inDir tree).length i).filter
        (fun j => keyAt joliet (listDirs inDir tree) j = fileIdent joliet (baseName e.path))
      else [] := by
    simp only [writers, hit_file made distinct here]
    by_cases first : t = 0
    · simp only [first, true_and, if_true]
    · simp only [first, false_and, if_false, decide_false, List.filter_false]
  obtain ⟨r, at', start, -, flags⟩ := record_part made here
  refine ⟨r, at', ?_, flags⟩
  rw [start, wrote]
  by_cases first : t = 0
  · rw [if_pos first, if_pos first, taker]
  · rw [if_neg first, if_neg first]
    rfl

end Writes

/-- The same extents start at the same number, in 32 bits. -/
theorem starts_of_extents {start start' length length' : Nat}
    (same : extentBytes start length = extentBytes start' length') :
    start % 2 ^ 32 = start' % 2 ^ 32 := by
  have first := congrArg (List.take 4) same
  simp only [extentBytes, List.append_assoc, List.take_left' (leBytes_length 4 _)] at first
  have values := congrArg leValue first
  rwa [leValue_leBytes, leValue_leBytes] at values

theorem directory_flag : isoDirectory &&& isoDirectory ≠ 0 := by decide

/-! ## A build and its counts -/

/-- The sectors of the files are added up in 32 bits. -/
theorem listFiles_total {stat : List UInt8 → Option Stat} {dirs : List Dir} {sectors total : Nat}
    {files : List (List FileEntry)}
    (listed : listFiles stat dirs (sectors % 2 ^ 32) = .ok (files, total)) :
    total = (sectors + (files.flatten.map fun e => sectorsOf e.size).sum) % 2 ^ 32 := by
  induction dirs generalizing sectors files with
  | nil =>
    cases listed
    rfl
  | cons d dirs ih =>
    obtain ⟨⟨entries, between⟩, first, listed⟩ := bind_ok.mp listed
    obtain ⟨⟨later, last⟩, rest, listed⟩ := bind_ok.mp listed
    cases listed
    obtain ⟨-, rfl⟩ := listFilesFrom_spans first
    rw [ih rest, List.flatten_cons, List.map_append, List.sum_append, Nat.add_assoc]

/-- The first sectors of the files, while all of them are counted in 32 bits. -/
theorem listFiles_rlba {stat : List UInt8 → Option Stat} {dirs : List Dir} {total : Nat}
    {files : List (List FileEntry)} (listed : listFiles stat dirs 0 = .ok (files, total))
    (few : (files.flatten.map fun e => sectorsOf e.size).sum < 2 ^ 32) {n : Nat} {e : FileEntry}
    (here : files.flatten[n]? = some e) :
    e.rlba = ((files.flatten.take n).map fun e => sectorsOf e.size).sum := by
  have spans : files.flatten.map span =
      (ModularSpans.spansFrom 0 (files.flatten.map fun e => sectorsOf e.size)).map
        (fun x => (x.1 % 2 ^ 32, x.2)) := listFiles_spans listed
  have at' := congrArg (fun l => l[n]?) spans
  simp only [List.getElem?_map, here, Option.map_some] at at'
  obtain ⟨x, place, same⟩ := Option.map_eq_some_iff.mp at'.symm
  have starts : ∀ (start : Nat) (lengths : List Nat) (n : Nat) (x : Nat × Nat),
      (ModularSpans.spansFrom start lengths)[n]? = some x →
      x.1 = start + (lengths.take n).sum := by
    intro start lengths
    induction lengths generalizing start with
    | nil =>
      intro n x none'
      cases none'
    | cons first lengths ih =>
      intro n x place
      cases n with
      | zero =>
        cases place
        rfl
      | succ n =>
        rw [ModularSpans.spansFrom, List.getElem?_cons_succ] at place
        rw [ih _ n x place, List.take_succ_cons, List.sum_cons, Nat.add_assoc]
  have start := starts 0 _ n x place
  have value : x.1 % 2 ^ 32 = e.rlba := congrArg Prod.fst same
  have before : ((files.flatten.take n).map fun e => sectorsOf e.size).sum ≤
      (files.flatten.map fun e => sectorsOf e.size).sum := by
    rw [List.map_take]
    exact (List.take_sublist n _).sum_le_sum fun _ _ => Nat.zero_le _
  rw [← value, start, Nat.zero_add, ← List.map_take, Nat.mod_eq_of_lt (by omega)]

section Counts
variable {stat : List UInt8 → Option Stat} {joliet : Bool} {inDir : List UInt8} {tree : SourceTree}
  {files : List (List FileEntry)} {dirLba filesLba : Nat} {h : Hierarchy} (proper : tree.Proper)
  (shortDirs : ShortDirs joliet (listDirs inDir tree))
  (built : Built stat joliet (listDirs inDir tree) files dirLba filesLba h)

theorem startAt_sectors (stat : List UInt8 → Option Stat) (joliet : Bool) (dirs : List Dir)
    (files : List (List FileEntry)) (k : Nat) : startAt stat joliet dirs files k =
      ((List.range k).map fun i => sectorsOf (sizeAt stat joliet dirs files i)).sum % 2 ^ 32 := by
  induction k with
  | zero => rfl
  | succ k ih =>
    rw [startAt, ih, bytesToSectors_eq, List.range_succ, List.map_append, List.sum_append,
      List.map_singleton, List.sum_singleton, Nat.mod_add_mod, Nat.add_mod_mod]

include shortDirs built

/-- A content of the image. -/
theorem built_content {i : Nat} (inside : i < (listDirs inDir tree).length) :
    ∃ rs content, rs = (recordsAt stat joliet (listDirs inDir tree) files
        (listDirs inDir tree).length i).map (Record.relocate dirLba filesLba) ∧
      h.contents[i]? = some content ∧ content = packed rs ∧ (∀ r ∈ rs, Short r.ident) ∧
      content.length = sizeAt stat joliet (listDirs inDir tree) files i := by
  have kinds : ((recordsAt stat joliet (listDirs inDir tree) files
      (listDirs inDir tree).length i).map (Record.relocate dirLba filesLba)).map kind =
      (freshAt stat joliet (listDirs inDir tree) files i).map kind := by
    rw [← recordsAt_kinds stat joliet files (listDirs inDir tree).length i, List.map_map]
    rfl
  have short := short_of_kinds kinds (short_fresh (built.made i inside) (shortDirs i inside))
  refine ⟨_, _, rfl, ?_, rfl, short, packed_length_congr short (ident_of_kinds kinds)⟩
  rw [built.contents, List.getElem?_map, List.getElem?_range inside]
  rfl

theorem built_lengths :
    h.contents.map List.length =
      (List.range (listDirs inDir tree).length).map
        (sizeAt stat joliet (listDirs inDir tree) files) := by
  apply List.ext_getElem?
  intro i
  rw [List.getElem?_map, List.getElem?_map]
  by_cases inside : i < (listDirs inDir tree).length
  · obtain ⟨rs, content, -, stored, -, -, length⟩ := built_content shortDirs built inside
    rw [stored, List.getElem?_range inside, Option.map_some, Option.map_some, length]
  · rw [built.contents, List.getElem?_map, List.getElem?_eq_none (by rw [List.length_range]; omega)]
    rfl

theorem built_sectors : h.sectors = (h.contents.map fun c => sectorsOf c.length).sum % 2 ^ 32 := by
  have lengths := built_lengths shortDirs built
  have each : h.contents.map (fun c => sectorsOf c.length) =
      (List.range (listDirs inDir tree).length).map fun i =>
        sectorsOf (sizeAt stat joliet (listDirs inDir tree) files i) := by
    have mapped := congrArg (List.map sectorsOf) lengths
    rwa [List.map_map, List.map_map] at mapped
  rw [each, built.sectors, startAt_sectors]

theorem built_whole : ∀ c ∈ h.contents, c.length % 0x800 = 0 := by
  intro c hc
  have member : c.length ∈ h.contents.map List.length := List.mem_map_of_mem hc
  rw [built_lengths shortDirs built] at member
  obtain ⟨i, -, same⟩ := List.mem_map.mp member
  rw [← same]
  exact (sizeAt_sectors stat joliet (listDirs inDir tree) files i).2

/-- A content starts, in sectors, where the ones before it end. -/
theorem startAt_before (few : (h.contents.map fun c => sectorsOf c.length).sum < 2 ^ 32) {i : Nat}
    (le : i ≤ (listDirs inDir tree).length) :
    startAt stat joliet (listDirs inDir tree) files i * 0x800 =
      ((h.contents.take i).map List.length).sum := by
  have lengths := built_lengths shortDirs built
  have sectors := sum_sectors (h.contents.map List.length) fun n hn => by
    obtain ⟨c, hc, rfl⟩ := List.mem_map.mp hn
    exact built_whole shortDirs built c hc
  rw [List.map_map] at sectors
  have total : bytesBefore stat joliet (listDirs inDir tree) files (listDirs inDir tree).length =
      (h.contents.map fun c => sectorsOf c.length).sum * 0x800 := by
    rw [bytesBefore, ← lengths, ← sectors]
    rfl
  have before : bytesBefore stat joliet (listDirs inDir tree) files i ≤
      bytesBefore stat joliet (listDirs inDir tree) files (listDirs inDir tree).length :=
    bytesBefore_mono le
  rw [startAt_exact (by omega), List.map_take, lengths, ← List.map_take, List.take_range,
    Nat.min_eq_left le, bytesBefore]

end Counts

theorem headD_of_first {contents : List (List UInt8)} {content : List UInt8}
    (first : contents[0]? = some content) : contents.headD [] = content := by
  cases contents with
  | nil => cases first
  | cons c rest => exact Option.some.inj first

/-! ## The layout -/

/-- A sector number, times the size of a sector, is where the object begins in the image,
or as many bytes behind. -/
def Leads (pieces : List (Option Object × List UInt8)) (o : Object) (behind lba : Nat) : Prop :=
  ∃ offset bytes, find o pieces = some (offset, bytes) ∧ lba * 0x800 = offset + behind

/-- All sector numbers of an image but those in the records of subdirectories lead to the
objects they stand for, and `write` emits as much as it says. -/
structure Layout (stat : List UInt8 → Option Stat) (dirs : List Dir) (ioBufSize : Nat)
    (volumeName : List UInt8) (t : Tm) (fopen : Sources) (m : Image) : Prop where
  records : ∀ joliet, ∀ i < dirs.length, ∃ rs : List Record,
    Formed stat joliet dirs m.files i rs
      ⟨(m.hierarchy joliet).contents, (m.hierarchy joliet).sectors⟩ ∧
    ∀ (k : Nat) (o : Object) (behind : Nat),
      (targets joliet dirs m.files i)[k]? = some (o, behind) →
        ∃ r, rs[k]? = some r ∧ Leads (written volumeName t fopen m) o behind r.start
  roots : ∀ joliet,
    Leads (written volumeName t fopen m) (.content joliet 0) 0
      (leValue (((volumeDescriptor joliet volumeName t m).drop 158).take 4)) ∧
    Leads (written volumeName t fopen m) (.content joliet 0) 0
      (beValue (((volumeDescriptor joliet volumeName t m).drop 162).take 4))
  tables : ∀ joliet,
    Leads (written volumeName t fopen m) (.table joliet false) 0
      (leValue (((volumeDescriptor joliet volumeName t m).drop 140).take 4)) ∧
    Leads (written volumeName t fopen m) (.table joliet true) 0
      (beValue (((volumeDescriptor joliet volumeName t m).drop 148).take 4))
  entries : ∀ joliet msb,
    (readTable msb (pathTable m joliet msb)).length = min 65536 dirs.length ∧
    ∀ (k : Nat) (e : Entry), (readTable msb (pathTable m joliet msb))[k]? = some e →
      Leads (written volumeName t fopen m) (.content joliet k) 0 e.location
  emits : emitted (writeSteps ioBufSize volumeName t fopen m) =
    output (written volumeName t fopen m)
  size : (emitted (writeSteps ioBufSize volumeName t fopen m)).length = Image.totalSize m ∧
    Image.volumeSize m % 32 = 0
  plain : Plain (writeSteps ioBufSize volumeName t fopen m)

/-- A directory that takes the record of a file for its own has, by chance, the number there
that the file has. -/
def Spared (stat : List UInt8 → Option Stat) (dirs : List Dir) (files : List (List FileEntry)) :
    Prop :=
  ∀ i < dirs.length, ∀ e ∈ files.getD i [], ∀ j ∈ taker false dirs i e,
    startAt stat false dirs files j = e.rlba

section Build
variable {stat : List UInt8 → Option Stat} {tempBufSize : Nat} {inDir : List UInt8}
  {tree : SourceTree} {m : Image} (proper : tree.Proper)
  (built : build stat tempBufSize inDir tree = .ok m)
  (shortDirs : ∀ joliet, ShortDirs joliet (listDirs inDir tree))
include proper built shortDirs

theorem build_hierarchy (joliet : Bool) : Built stat joliet (listDirs inDir tree) m.files
    (PathEntries.dirLba m joliet) m.filesLba (m.hierarchy joliet) := by
  obtain ⟨-, iso, joliet'⟩ := build_spec proper built shortDirs
  cases joliet with
  | false => exact iso
  | true => exact joliet'

theorem build_measured : Measured m := by
  obtain ⟨listed, -, -⟩ := build_spec proper built shortDirs
  have hierarchy := build_hierarchy proper built shortDirs
  constructor
  · intro joliet
    rw [(hierarchy joliet).pathTableL, (hierarchy joliet).pathTableM]
    exact tableOf_length _ _ _ _ rfl
  · exact fun joliet => built_whole (shortDirs joliet) (hierarchy joliet)
  · intro joliet
    have inside : 0 < (listDirs inDir tree).length := by
      have head : (listDirs inDir tree)[0]? = some ⟨inDir, tree⟩ := listDirs_head
      exact (List.getElem?_eq_some_iff.mp head).1
    obtain ⟨rs, content, -, stored, -, -, length⟩ :=
      built_content (shortDirs joliet) (hierarchy joliet) inside
    obtain ⟨some', whole⟩ := sizeAt_sectors stat joliet (listDirs inDir tree) m.files 0
    rw [headD_of_first stored, length]
    omega
  · exact fun joliet => built_sectors (shortDirs joliet) (hierarchy joliet)
  · have total : m.filesSizeSectors =
        (0 + (m.files.flatten.map fun e => sectorsOf e.size).sum) % 2 ^ 32 := listFiles_total listed
    rwa [Nat.zero_add] at total

variable (volumeName : List UInt8) (t : Tm) (fopen : Sources) (few : imageSectors m < 2 ^ 32)
include few

/-- Where the content of a directory begins. -/
theorem leads_content {joliet : Bool} {i : Nat} (inside : i < (listDirs inDir tree).length)
    (lba : Nat) : Leads (written volumeName t fopen m) (.content joliet i) 0 lba ↔
      lba = startAt stat joliet (listDirs inDir tree) m.files i + PathEntries.dirLba m joliet := by
  have hierarchy := build_hierarchy proper built shortDirs joliet
  have measured := build_measured proper built shortDirs
  obtain ⟨rs, content, -, stored, -⟩ := built_content (shortDirs joliet) hierarchy inside
  have found := find_content measured volumeName t fopen few stored
  have sectors := contents_few measured few joliet
  have before := startAt_before (shortDirs joliet) hierarchy (by omega) inside.le
  rw [← before] at found
  constructor
  · rintro ⟨offset, bytes, found', equal⟩
    rw [found] at found'
    cases found'
    omega
  · rintro rfl
    refine ⟨_, _, found, ?_⟩
    rw [Nat.add_zero, Nat.add_mul, Nat.add_comm]

theorem start_small {joliet : Bool} {i : Nat} (inside : i < (listDirs inDir tree).length) :
    startAt stat joliet (listDirs inDir tree) m.files i + PathEntries.dirLba m joliet < 2 ^ 32 := by
  have hierarchy := build_hierarchy proper built shortDirs joliet
  have measured := build_measured proper built shortDirs
  have sectors := contents_few measured few joliet
  have total := sum_sectors ((m.hierarchy joliet).contents.map List.length) fun n hn => by
    obtain ⟨c, hc, rfl⟩ := List.mem_map.mp hn
    exact built_whole (shortDirs joliet) hierarchy c hc
  rw [List.map_map] at total
  have total' : ((m.hierarchy joliet).contents.map fun c => sectorsOf c.length).sum * 0x800 =
    ((m.hierarchy joliet).contents.map List.length).sum := total
  have before := startAt_before (shortDirs joliet) hierarchy (by omega) inside.le
  have part : (((m.hierarchy joliet).contents.take i).map List.length).sum ≤
      ((m.hierarchy joliet).contents.map List.length).sum := by
    rw [List.map_take]
    exact (List.take_sublist i _).sum_le_sum fun _ _ => Nat.zero_le _
  omega

/-- The root records in the descriptors. -/
theorem roots_lead (joliet : Bool) :
    Leads (written volumeName t fopen m) (.content joliet 0) 0
      (leValue (((volumeDescriptor joliet volumeName t m).drop 158).take 4)) ∧
    Leads (written volumeName t fopen m) (.content joliet 0) 0
      (beValue (((volumeDescriptor joliet volumeName t m).drop 162).take 4)) := by
  have hierarchy := build_hierarchy proper built shortDirs joliet
  have inside : 0 < (listDirs inDir tree).length := by
    have head : (listDirs inDir tree)[0]? = some ⟨inDir, tree⟩ := listDirs_head
    exact (List.getElem?_eq_some_iff.mp head).1
  obtain ⟨rs, content, records, stored, same, -, -⟩ :=
    built_content (shortDirs joliet) hierarchy inside
  obtain ⟨rest, head⟩ := recordsAt_head stat joliet m.files (listDirs_keys proper joliet)
    le_rfl 0
  obtain ⟨dot, hdot, self, start⟩ : ∃ dot : Record, content = packed (dot :: rest.map
      (Record.relocate (PathEntries.dirLba m joliet) m.filesLba)) ∧ dot.ident = [0] ∧
      dot.start = startAt stat joliet (listDirs inDir tree) m.files 0 +
        PathEntries.dirLba m joliet := by
    refine ⟨_, by rw [same, records, head, List.map_cons], rfl, ?_⟩
    rw [Record.relocate, Record.base, if_pos directory_flag]
  obtain ⟨more, first⟩ := packed_first self (rest.map
    (Record.relocate (PathEntries.dirLba m joliet) m.filesLba))
  have extent : getExtent content 0 = extentBytes dot.start dot.length := by
    rw [hdot, first]
    exact Record.getExtent_bytes (self ▸ short_dot) [] more
  have long : 40 ≤ content.length := by
    rw [hdot, first, List.length_append, dot_length self]
    omega
  have root := headD_of_first stored
  obtain ⟨-, -, little, big⟩ :=
    volumeDescriptor_fields joliet volumeName t root (by omega)
  have lsb : (content.drop 2).take 4 = leBytes 4 dot.start := by
    have front := congrArg (List.take 4) extent
    rw [getExtent, List.take_take, extentBytes, List.append_assoc, List.append_assoc,
      List.take_left' (leBytes_length 4 _)] at front
    exact front
  have msb : (content.drop 6).take 4 = beBytes 4 dot.start := by
    have front := congrArg (fun l : List UInt8 => (l.drop 4).take 4) extent
    simp only [getExtent, List.drop_take, List.take_take, List.drop_drop] at front
    rw [extentBytes, List.append_assoc, List.append_assoc, List.drop_left' (leBytes_length 4 _),
      List.take_left' (beBytes_length 4 _)] at front
    exact front
  have small : startAt stat joliet (listDirs inDir tree) m.files 0 + PathEntries.dirLba m joliet <
    2 ^ 32 := start_small proper built shortDirs few inside
  have value := (leads_content proper built shortDirs volumeName t fopen few inside
    (startAt stat joliet (listDirs inDir tree) m.files 0 + PathEntries.dirLba m joliet)).mpr rfl
  rw [little, big, lsb, msb, start, leValue_leBytes_exact (by omega),
    beValue_beBytes_exact (by omega)]
  exact ⟨value, value⟩

omit proper built shortDirs in
/-- The pointers to the path tables. -/
theorem tables_lead (measured : Measured m) (joliet : Bool) :
    Leads (written volumeName t fopen m) (.table joliet false) 0
      (leValue (((volumeDescriptor joliet volumeName t m).drop 140).take 4)) ∧
    Leads (written volumeName t fopen m) (.table joliet true) 0
      (beValue (((volumeDescriptor joliet volumeName t m).drop 148).take 4)) := by
  obtain ⟨little, big, -⟩ := volumeDescriptor_fields joliet volumeName t rfl (measured.first joliet)
  have small : ∀ msb, tableLba m joliet msb < 256 ^ 4 := by
    intro msb
    have iso : bytesToSectors m.iso.pathTableM.length = sectorsOf m.iso.pathTableM.length :=
      tables_exact few false
    have own := tables_exact few joliet
    rw [imageSectors] at few
    rw [tableLba, iso, own]
    cases joliet <;> cases msb <;>
      simp only [Image.hierarchy, Bool.false_eq_true, if_false, if_true] <;> omega
  rw [little, big, leValue_leBytes_exact (small false), beValue_beBytes_exact (small true)]
  exact ⟨⟨_, _, find_table measured volumeName t fopen joliet false, (Nat.add_zero _).symm⟩,
    ⟨_, _, find_table measured volumeName t fopen joliet true, (Nat.add_zero _).symm⟩⟩

/-- The entries of the path tables. -/
theorem entries_lead (joliet msb : Bool) :
    (readTable msb (pathTable m joliet msb)).length = min 65536 (listDirs inDir tree).length ∧
    ∀ (k : Nat) (e : Entry), (readTable msb (pathTable m joliet msb))[k]? = some e →
      Leads (written volumeName t fopen m) (.content joliet k) 0 e.location := by
  have hierarchy := build_hierarchy proper built shortDirs joliet
  have table : pathTable m joliet msb = tableOf msb
      ((tableEntries stat joliet (listDirs inDir tree) m.files).map
        (Entry.moved (PathEntries.dirLba m joliet))) := by
    rw [pathTable]
    cases msb with
    | false => exact hierarchy.pathTableL
    | true => exact hierarchy.pathTableM
  have short : ∀ e ∈ (tableEntries stat joliet (listDirs inDir tree) m.files).map
      (Entry.moved (PathEntries.dirLba m joliet)), e.ident.length < 256 := by
    intro e he
    obtain ⟨e', he', rfl⟩ := List.mem_map.mp he
    obtain ⟨i, -, rfl⟩ := List.mem_map.mp he'
    exact entryAt_ident_length (startAt stat joliet (listDirs inDir tree) m.files) i
  rw [table, readTable_tableOf msb short]
  constructor
  · rw [List.length_map, List.length_map, tableEntries, List.length_map, List.length_range]
  · intro k e at'
    rw [List.getElem?_map, List.getElem?_map, tableEntries, List.getElem?_map] at at'
    obtain ⟨e₁, moved, rfl⟩ := Option.map_eq_some_iff.mp at'
    obtain ⟨e₂, entry, rfl⟩ := Option.map_eq_some_iff.mp moved
    obtain ⟨j, place, rfl⟩ := Option.map_eq_some_iff.mp entry
    obtain ⟨low, value⟩ := List.getElem?_eq_some_iff.mp place
    rw [List.getElem_range] at value
    rw [List.length_range] at low
    subst value
    have inside : k < (listDirs inDir tree).length := by omega
    rw [leads_content proper built shortDirs volumeName t fopen few inside]
    exact Nat.mod_eq_of_lt (start_small proper built shortDirs few inside)

section Files
variable {fopen : Sources} {ioBufSize : Nat} (aligned : ioBufSize % 0x800 = 0)
  (unchanged : ∀ e ∈ m.files.flatten, Unchanged fopen ioBufSize e)
include aligned unchanged

/-- Where a part of a file begins. -/
theorem leads_file {i k n s : Nat} {e : FileEntry} (here : (partsIn m.files i)[k]? = some (e, n, s))
    (lba : Nat) :
    Leads (written volumeName t fopen m) (.file n) (s * multiextentPartSize) lba ↔
      lba = e.rlba + s * 0x1FFFFF + m.filesLba := by
  obtain ⟨listed, -, -⟩ := build_spec proper built shortDirs
  have measured := build_measured proper built shortDirs
  obtain ⟨front, back, split, rfl, -, -⟩ := partsFrom_getElem? here
  obtain ⟨at', -⟩ := flatten_getElem? split
  obtain ⟨bytes, -, found⟩ := find_file measured volumeName t few aligned unchanged at'
  have sectors : (m.files.flatten.map fun e => sectorsOf e.size).sum < 2 ^ 32 := by
    rw [imageSectors] at few
    omega
  have rlba := listFiles_rlba listed sectors at'
  rw [← rlba] at found
  rw [part_sectors]
  constructor
  · rintro ⟨offset, bytes', found', equal⟩
    rw [found] at found'
    cases found'
    omega
  · rintro rfl
    refine ⟨_, _, found, ?_⟩
    rw [← Nat.add_mul]
    congr 1
    omega

omit aligned unchanged in
/-- The number of a part in its record is exact. -/
theorem part_exact {i k n s : Nat} {e : FileEntry}
    (here : (partsIn m.files i)[k]? = some (e, n, s)) :
    (e.rlba + s * bytesToSectors multiextentPartSize) % 2 ^ 32 = e.rlba + s * 0x1FFFFF := by
  obtain ⟨listed, -, -⟩ := build_spec proper built shortDirs
  obtain ⟨front, back, split, rfl, inside, -⟩ := partsFrom_getElem? here
  obtain ⟨at', -⟩ := flatten_getElem? split
  have sectors : (m.files.flatten.map fun e => sectorsOf e.size).sum < 2 ^ 32 := by
    rw [imageSectors] at few
    omega
  have rlba := listFiles_rlba listed sectors at'
  have whole := sum_before_le (fun e => sectorsOf e.size) at'
  have inner := part_le_sectors inside
  rw [bytesToSectors_part, Nat.mod_eq_of_lt (by omega)]

/-- The records of a directory, file records that no directory takes for its own among them. -/
theorem records_lead {joliet : Bool} {i : Nat} (inside : i < (listDirs inDir tree).length)
    (distinct : Distinct joliet (listDirs inDir tree) m.files i)
    (spared : ∀ e ∈ m.files.getD i [], ∀ j ∈ taker joliet (listDirs inDir tree) i e,
      startAt stat joliet (listDirs inDir tree) m.files j = e.rlba) :
    ∃ rs : List Record, Formed stat joliet (listDirs inDir tree) m.files i rs
        ⟨(m.hierarchy joliet).contents, (m.hierarchy joliet).sectors⟩ ∧
      ∀ (k : Nat) (o : Object) (behind : Nat),
        (targets joliet (listDirs inDir tree) m.files i)[k]? = some (o, behind) →
          ∃ r, rs[k]? = some r ∧ Leads (written volumeName t fopen m) o behind r.start := by
  have hierarchy := build_hierarchy proper built shortDirs joliet
  have made := hierarchy.made i inside
  obtain ⟨rs, content, records, stored, same, short, -⟩ :=
    built_content (shortDirs joliet) hierarchy inside
  have moved : ∀ (k : Nat) (r : Record), (recordsAt stat joliet (listDirs inDir tree) m.files
      (listDirs inDir tree).length i)[k]? = some r →
      rs[k]? = some (r.relocate (PathEntries.dirLba m joliet) m.filesLba) := by
    intro k r at'
    rw [records, List.getElem?_map, at']
    rfl
  have directory : ∀ r : Record, r.flags = isoDirectory →
      (r.relocate (PathEntries.dirLba m joliet) m.filesLba).start =
        r.start + PathEntries.dirLba m joliet := by
    intro r flags
    rw [Record.relocate, Record.base, flags, if_pos directory_flag]
  refine ⟨rs, ⟨content, stored, ?_, same ▸ wellFormed_packed short⟩, ?_⟩
  · rw [records, ← recordsAt_kinds stat joliet m.files (listDirs inDir tree).length i, List.map_map]
    rfl
  · rintro (_ | _ | k) o behind target
    · obtain ⟨rest, head⟩ := recordsAt_head stat joliet m.files
        (listDirs_keys proper joliet) le_rfl i
      cases target
      refine ⟨_, moved 0 _ (by rw [head]; rfl), ?_⟩
      rw [leads_content proper built shortDirs volumeName t fopen few inside]
      exact directory _ rfl
    · obtain ⟨r, at', start, flags⟩ := record_dotDot proper made distinct
      cases target
      have parent := (getParent_le proper inside).trans_lt inside
      refine ⟨_, moved 1 r at', ?_⟩
      rw [leads_content proper built shortDirs volumeName t fopen few parent, directory r flags,
        start]
    · rw [targets, List.getElem?_cons_succ, List.getElem?_cons_succ, List.getElem?_map] at target
      obtain ⟨⟨e, n, s⟩, here, pair⟩ := Option.map_eq_some_iff.mp target
      cases pair
      obtain ⟨r, at', start, flags⟩ := record_file made distinct here
      refine ⟨_, moved (k + 2) r at', ?_⟩
      rw [leads_file proper built shortDirs volumeName t few aligned unchanged here]
      have base : (r.relocate (PathEntries.dirLba m joliet) m.filesLba).start =
          r.start + m.filesLba := by
        rw [Record.relocate, Record.base, flags, if_neg (not_not_intro rfl)]
      rw [base, start, part_exact proper built shortDirs few here]
      by_cases first : s = 0
      · obtain ⟨front, back, split, -⟩ := partsFrom_getElem? here
        have member : e ∈ m.files.getD i [] := by
          rw [split]
          exact List.mem_append_right _ List.mem_cons_self
        rw [if_pos first]
        cases taken : taker joliet (listDirs inDir tree) i e with
        | none => rw [Option.map_none, Option.getD_none]
        | some j =>
          have number := spared e member j taken
          rw [Option.map_some, Option.getD_some, number, first, Nat.zero_mul, Nat.add_zero]
      · rw [if_neg first, Option.map_none, Option.getD_none]

omit aligned unchanged few built shortDirs in
/-- In the Joliet tree the strings looked for are the identifiers. -/
theorem taker_joliet {i : Nat} (distinct : Distinct true (listDirs inDir tree) m.files i)
    {e : FileEntry} (member : e ∈ m.files.getD i []) :
    taker true (listDirs inDir tree) i e = none := by
  rw [taker, List.getLast?_eq_none_iff, List.filter_eq_nil_iff]
  intro j hj key
  obtain ⟨d, inner, string⟩ := builtBelow_spec true proper le_rfl hj
  rw [decide_eq_true_iff, string] at key
  obtain ⟨-, behind⟩ := List.nodup_cons.mp distinct
  obtain ⟨-, behind⟩ := List.nodup_cons.mp behind
  exact (List.nodup_append.mp behind).2.2 _ (List.mem_map_of_mem member) _
    (List.mem_map_of_mem inner) key.symm

/-- A file record that leads to its file was not taken by a directory, or by one with the
same number. -/
theorem spared_of_records {i : Nat} (inside : i < (listDirs inDir tree).length)
    (distinct : Distinct false (listDirs inDir tree) m.files i) {rs : List Record}
    (formed : Formed stat false (listDirs inDir tree) m.files i rs ⟨m.iso.contents, m.iso.sectors⟩)
    (leads : ∀ (k : Nat) (o : Object) (behind : Nat),
      (targets false (listDirs inDir tree) m.files i)[k]? = some (o, behind) →
        ∃ r, rs[k]? = some r ∧ Leads (written volumeName t fopen m) o behind r.start)
    {e : FileEntry} (member : e ∈ m.files.getD i []) {j : Nat}
    (taken : taker false (listDirs inDir tree) i e = some j) :
    startAt stat false (listDirs inDir tree) m.files j = e.rlba := by
  have hierarchy := build_hierarchy proper built shortDirs false
  have made := hierarchy.made i inside
  obtain ⟨front, back, split⟩ := List.append_of_mem member
  have here : (partsIn m.files i)[(partsFrom (m.files.take i).flatten.length front).length]? =
      some (e, (m.files.take i).flatten.length + front.length, 0) := by
    rw [partsIn, split]
    have first := @partsFrom_at front back e (m.files.take i).flatten.length 0 (partsOf_pos e.size)
    rwa [Nat.add_zero] at first
  obtain ⟨k, hk⟩ : ∃ k, k = (partsFrom (m.files.take i).flatten.length front).length := ⟨_, rfl⟩
  rw [← hk] at here
  have target : (targets false (listDirs inDir tree) m.files i)[k + 2]? =
      some (.file ((m.files.take i).flatten.length + front.length), 0 * multiextentPartSize) := by
    rw [targets, List.getElem?_cons_succ, List.getElem?_cons_succ, List.getElem?_map, here]
    rfl
  obtain ⟨r, place, lead⟩ := leads _ _ _ target
  rw [leads_file proper built shortDirs volumeName t few aligned unchanged here] at lead
  -- the record as it is stored
  obtain ⟨rs', content, records, stored, same, short, -⟩ :=
    built_content (shortDirs false) hierarchy inside
  obtain ⟨r', at', start, flags⟩ := record_file made distinct here
  rw [if_pos rfl, taken, Option.map_some, Option.getD_some] at start
  obtain ⟨content', stored', kinds, formed'⟩ := formed
  have equal : content' = content := Option.some.inj (stored'.symm.trans stored)
  rw [equal] at formed'
  have both := congrArg (fun l : List (List UInt8) => l[k + 2]?)
    (formed'.unique (same ▸ wellFormed_packed short))
  have place' : rs'[k + 2]? = some (r'.relocate (PathEntries.dirLba m false) m.filesLba) := by
    rw [records, List.getElem?_map, at']
    rfl
  simp only [List.getElem?_map, place, place', Option.map_some, Option.some_inj] at both
  have shorts := short_of_kinds kinds (short_fresh made (shortDirs false i inside))
  have extents := extents_of_bytes (shorts r (List.mem_of_getElem? place))
    (short _ (List.mem_of_getElem? place')) both
  have base : (r'.relocate (PathEntries.dirLba m false) m.filesLba).start =
      startAt stat false (listDirs inDir tree) m.files j + m.filesLba := by
    rw [Record.relocate, Record.base, flags, if_neg (not_not_intro rfl), start]
  have numbers := starts_of_extents extents
  rw [base, lead, Nat.zero_mul, Nat.add_zero] at numbers
  have rlba := part_exact proper built shortDirs few here
  rw [Nat.zero_mul, Nat.zero_mul, Nat.add_zero] at rlba
  have small : startAt stat false (listDirs inDir tree) m.files j < 2 ^ 32 := startAt_lt j
  omega

end Files

end Build

/-- What a layout presupposes: identifiers that are short and differ, tables that fit, files
as they were measured, and sectors that are counted in 32 bits. -/
structure Presumed (dirs : List Dir) (ioBufSize : Nat) (fopen : Sources) (m : Image) : Prop where
  shortDirs : ∀ joliet, ShortDirs joliet dirs
  distinct : ∀ joliet, ∀ i < dirs.length, Distinct joliet dirs m.files i
  copied : ∀ joliet msb, Copied ioBufSize (pathTable m joliet msb)
  unchanged : ∀ e ∈ m.files.flatten, Unchanged fopen ioBufSize e
  few : imageSectors m < 2 ^ 32

/-- An image has the layout that its numbers tell exactly if no directory takes the record of
a file for its own, or only with the number that the file has. -/
theorem build_layout_iff {stat : List UInt8 → Option Stat} {tempBufSize ioBufSize : Nat}
    {inDir : List UInt8} {tree : SourceTree} {fopen : Sources} {m : Image} (proper : tree.Proper)
    (accepted : setBuffers tempBufSize ioBufSize = true)
    (built : build stat tempBufSize inDir tree = .ok m)
    (presumed : Presumed (listDirs inDir tree) ioBufSize fopen m) (volumeName : List UInt8)
    (t : Tm) :
    Layout stat (listDirs inDir tree) ioBufSize volumeName t fopen m ↔
      Spared stat (listDirs inDir tree) m.files := by
  obtain ⟨shortDirs, distinct, copied, unchanged, few⟩ := presumed
  obtain ⟨-, -, -, aligned⟩ := setBuffers_eq_true.mp accepted
  have measured := build_measured proper built shortDirs
  constructor
  · intro layout i inside e member j taken
    obtain ⟨rs, formed, leads⟩ := layout.records false i inside
    exact spared_of_records proper built shortDirs volumeName t few aligned unchanged inside
      (distinct false i inside) formed leads member taken
  · intro spared
    have emits := emitted_writeSteps volumeName t fopen copied
    obtain ⟨-, -, -, -, -, size⟩ := lbas_exact measured few
    constructor
    · intro joliet i inside
      apply records_lead proper built shortDirs volumeName t few aligned unchanged inside
        (distinct joliet i inside)
      intro e member j taken
      cases joliet with
      | false => exact spared i inside e member j taken
      | true =>
        rw [taker_joliet proper (distinct true i inside) member] at taken
        cases taken
    · exact roots_lead proper built shortDirs volumeName t fopen few
    · exact tables_lead volumeName t fopen few measured
    · exact entries_lead proper built shortDirs volumeName t fopen few
    · exact emits
    · refine ⟨?_, volumeSize_mod measured few⟩
      rw [emits, written_length measured volumeName t few aligned unchanged, Image.totalSize, size]
    · exact (writeSteps_plain_iff ioBufSize volumeName t).mpr
        ⟨copied, fun e member => (unchanged e member).opens⟩

/-! ## A file and a directory -/

theorem unchanged_piece {fopen : Sources} {e : FileEntry} {piece : List UInt8} (ioBufSize : Nat)
    (single : e.multipart = false) (found : fopen e.path = some [piece])
    (size : piece.length = e.size) : Unchanged fopen ioBufSize e := by
  have streamed : streamedFiles fopen e = [e.path] := by
    rw [streamedFiles, if_neg (by rw [single]; exact Bool.false_ne_true), found]
    rfl
  constructor
  · rw [if_neg (by rw [single]; exact Bool.false_ne_true), found]
    rfl
  · rw [streamed]
    intro path only
    rw [List.mem_singleton.mp only, found]
    exact fun piece none' => absurd none' List.not_mem_nil
  · rw [streamed, List.map_singleton, List.sum_singleton, found, Option.getD_some,
      List.flatten_singleton, size]

/-- A file and an empty directory. -/
def oneEach (file dir : List UInt8) : SourceTree := .dir true [file] [(dir, .dir true [] [])]

/-- The file has as many bytes as its path. -/
def oneEachStat (file dir : List UInt8) : List UInt8 → Option Stat :=
  onlyStat [ascii "/in", createPath (ascii "/in") file, createPath (ascii "/in") dir]

def oneEachSources (file dir : List UInt8) : Sources := fun path =>
  (oneEachStat file dir path).map fun _ => [path]

def oneEachFiles (file : List UInt8) : List (List FileEntry) :=
  [[⟨createPath (ascii "/in") file, 0, (createPath (ascii "/in") file).length, false⟩], []]

theorem oneEach_proper {file dir : List UInt8}
    (plain : ∀ name ∈ [file, dir], name ≠ [] ∧ 47 ∉ name ∧ 0 ∉ name) (other : file ≠ dir) :
    (oneEach file dir).Proper := by
  refine .dir plain ?_ ?_
  · exact List.nodup_cons.mpr ⟨fun same => other (List.mem_singleton.mp same),
      List.nodup_singleton _⟩
  · intro name tree member
    rw [(Prod.mk.inj (List.mem_singleton.mp member)).2]
    exact .empty true

instance (joliet : Bool) (dirs : List Dir) : Decidable (ShortDirs joliet dirs) :=
  inferInstanceAs (Decidable (∀ i < dirs.length, ∀ d ∈ childDirs dirs i, _ ≤ 255))

section OneEach
variable {file dir : List UInt8} (proper : (oneEach file dir).Proper)
  (shortDirs : ∀ joliet, ShortDirs joliet (listDirs (ascii "/in") (oneEach file dir)))
  (distinct : ∀ joliet, ∀ i < 2,
    Distinct joliet (listDirs (ascii "/in") (oneEach file dir)) (oneEachFiles file) i)
  (listed : listFiles (oneEachStat file dir) (listDirs (ascii "/in") (oneEach file dir)) 0 =
    .ok (oneEachFiles file, 1))
include proper shortDirs distinct listed

theorem oneEach_presumed
    (counted : (build (oneEachStat file dir) 0x100000 (ascii "/in") (oneEach file dir)).toOption.any
      (fun m => decide (imageSectors m < 2 ^ 32 ∧
        ∀ joliet msb, Copied 0x100000 (pathTable m joliet msb))) = true) :
    ∃ m, build (oneEachStat file dir) 0x100000 (ascii "/in") (oneEach file dir) = .ok m ∧
      m.files = oneEachFiles file ∧
      Presumed (listDirs (ascii "/in") (oneEach file dir)) 0x100000
        (oneEachSources file dir) m := by
  obtain ⟨m, some', checked⟩ := Option.any_eq_true _ _ |>.mp counted
  obtain ⟨few, copied⟩ := of_decide_eq_true checked
  have built : build (oneEachStat file dir) 0x100000 (ascii "/in") (oneEach file dir) = .ok m := by
    cases result : build (oneEachStat file dir) 0x100000 (ascii "/in") (oneEach file dir) with
    | error stop =>
      rw [result] at some'
      cases some'
    | ok m' =>
      rw [result] at some'
      cases some'
      rfl
  obtain ⟨listed', -⟩ := build_spec proper built shortDirs
  have files : m.files = oneEachFiles file :=
    (Prod.mk.inj (Except.ok.inj (listed'.symm.trans listed))).1
  refine ⟨m, built, files, shortDirs, ?_, copied, ?_, few⟩
  · rw [files]
    exact distinct
  · rw [files]
    intro e only
    rw [List.mem_singleton.mp only]
    refine unchanged_piece 0x100000 rfl ?_ rfl
    rw [oneEachSources, oneEachStat, onlyStat, if_pos (by simp)]
    rfl

end OneEach

theorem oneEach_layout : ∃ m,
    build (oneEachStat (ascii "a") (ascii "b")) 0x100000 (ascii "/in")
      (oneEach (ascii "a") (ascii "b")) = .ok m ∧
    Layout (oneEachStat (ascii "a") (ascii "b"))
      (listDirs (ascii "/in") (oneEach (ascii "a") (ascii "b"))) 0x100000 (ascii "V")
      ⟨2013, 10, 7, 12, 0, 0⟩ (oneEachSources (ascii "a") (ascii "b")) m := by
  have proper : (oneEach (ascii "a") (ascii "b")).Proper :=
    oneEach_proper (by decide) (by decide)
  obtain ⟨m, built, files, presumed⟩ := oneEach_presumed proper (by decide +kernel)
    (by decide +kernel) rfl (by decide +kernel)
  refine ⟨m, built, (build_layout_iff proper (by decide) built presumed _ _).mpr ?_⟩
  rw [files]
  intro i inside e member j taken
  have none' : ∀ i < 2, ∀ e ∈ (oneEachFiles (ascii "a")).getD i [],
      taker false (listDirs (ascii "/in") (oneEach (ascii "a") (ascii "b"))) i e = none := by
    decide +kernel
  rw [none' i inside e member] at taken
  cases taken

/-- 203 bytes: 101 letters that have two each, and an `X`. -/
def accents : List UInt8 := (List.replicate 101 [0xC3, 0xA9]).flatten ++ ascii "X"

/-- The name of the directory is the identifier of the file and one letter more, of 206 bytes:
it looks for the first 205 of them, and the record of the file gets the sector of the
directory. -/
theorem accents_misled : ∃ m,
    build (oneEachStat accents (accents ++ ascii ";1A")) 0x100000 (ascii "/in")
      (oneEach accents (accents ++ ascii ";1A")) = .ok m ∧
    Presumed (listDirs (ascii "/in") (oneEach accents (accents ++ ascii ";1A"))) 0x100000
      (oneEachSources accents (accents ++ ascii ";1A")) m ∧
    ¬ Layout (oneEachStat accents (accents ++ ascii ";1A"))
      (listDirs (ascii "/in") (oneEach accents (accents ++ ascii ";1A"))) 0x100000 (ascii "V")
      ⟨2013, 10, 7, 12, 0, 0⟩ (oneEachSources accents (accents ++ ascii ";1A")) m := by
  have proper : (oneEach accents (accents ++ ascii ";1A")).Proper :=
    oneEach_proper (by decide +kernel) (by decide +kernel)
  obtain ⟨m, built, files, presumed⟩ := oneEach_presumed proper (by decide +kernel)
    (by decide +kernel) (by decide +kernel) (by decide +kernel)
  refine ⟨m, built, presumed, ?_⟩
  intro layout
  have inside : 0 < (listDirs (ascii "/in") (oneEach accents (accents ++ ascii ";1A"))).length := by
    decide +kernel
  obtain ⟨rs, formed, leads⟩ := layout.records false 0 inside
  have member : ⟨createPath (ascii "/in") accents, 0, 207, false⟩ ∈ m.files.getD 0 [] := by
    rw [files]
    decide +kernel
  have same := spared_of_records proper built presumed.shortDirs _ _ presumed.few (by decide)
    presumed.unchanged inside (presumed.distinct false 0 inside) formed leads member (j := 1)
    (by decide +kernel)
  rw [files] at same
  revert same
  decide +kernel

end ImageLayout
