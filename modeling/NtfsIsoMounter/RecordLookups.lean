import NtfsIsoMounter.ContentHeads
import NtfsIsoMounter.RecordLayout

/-!
# Which record a directory finds in its parent

A directory built behind the first looks for a string among all records of its parent,
files and earlier directories included, and writes its extent into the first that has
it. That is its own record exactly if the name was not cut in another way and no earlier
record has the same identifier.
-/

namespace RecordLookups

open CText SectorPacking SourceTrees DirectoryRecords ImageBuild RecordPasses ContentPasses
  ContentHeads ImageTables DirectoryChildren RecordLayout

/-! ## Updates at places of a list -/

section Updates
variable {α ι : Type}

theorem findIdx_eq_length_iff {p : α → Bool} {xs ys : List α} {y : α} :
    (xs ++ y :: ys).findIdx p = xs.length ↔ (∀ x ∈ xs, p x = false) ∧ p y = true := by
  induction xs with
  | nil =>
    rw [List.nil_append, List.findIdx_cons, List.length_nil]
    cases p y <;> simp
  | cons x xs ih =>
    rw [List.cons_append, List.findIdx_cons, List.length_cons, List.forall_mem_cons, and_assoc,
      ← ih]
    cases p x <;> simp

/-- An entry is changed by the updates at its place. -/
theorem foldl_modify_getElem? (place : ι → Nat) (f : ι → α → α) (js : List ι) (l : List α)
    (m : Nat) : (js.foldl (fun l j => l.modify (place j) (f j)) l)[m]? =
      l[m]?.map (fun a => (js.filter fun j => place j = m).foldl (fun a j => f j a) a) := by
  induction js generalizing l with
  | nil => simp
  | cons j js ih =>
    rw [List.foldl_cons, ih, List.getElem?_modify]
    by_cases here : place j = m
    · rw [List.filter_cons_of_pos (by simpa using here)]
      simp only [if_pos here, Option.map_eq_map, Option.map_map, Function.comp_def,
        List.foldl_cons]
    · rw [List.filter_cons_of_neg (by simpa using here)]
      simp only [if_neg here, Option.map_eq_map, Option.map_map, Function.comp_def]

theorem eq_singleton {l : List α} {a : α} (nodup : l.Nodup) (member : a ∈ l)
    (only : ∀ b ∈ l, b = a) : l = [a] := by
  cases l with
  | nil => cases member
  | cons b l =>
    obtain ⟨head, tail⟩ := List.forall_mem_cons.mp only
    subst head
    cases l with
    | nil => rfl
    | cons c l =>
      have same := tail c List.mem_cons_self
      rw [same] at nodup
      exact absurd List.mem_cons_self (List.nodup_cons.mp nodup).1

end Updates

/-! ## Assignments are updates -/

def write (start length : Nat) (r : Record) : Record := { r with start := start, length := length }

theorem assign_eq_modify (key : List UInt8) (start length : Nat) (rs : List Record) :
    assign key start length rs =
      rs.modify ((rs.map Record.ident).findIdx (· == key)) (write start length) := by
  induction rs with
  | nil => rfl
  | cons r rs ih =>
    rw [assign, List.map_cons, List.findIdx_cons]
    by_cases here : r.ident = key
    · rw [if_pos here, beq_iff_eq.mpr here, cond_true, List.modify_zero_cons, write]
    · rw [if_neg here, beq_eq_false_iff_ne.mpr here, cond_false, List.modify_succ_cons, ih]

section Fold
variable (stat : List UInt8 → Option Stat) (joliet : Bool) (dirs : List Dir)
  (files : List (List FileEntry))

/-- Where directory `j` finds its string in directory `i`. -/
def hit (i j : Nat) : Nat :=
  ((freshAt stat joliet dirs files i).map Record.ident).findIdx (· == keyAt joliet dirs j)

/-- The directories among the first `k` that write to record `m` of directory `i`. -/
def writers (k i m : Nat) : List Nat :=
  (builtBelow dirs k i).filter fun j => hit stat joliet dirs files i j = m

/-- A record once the first `k` directories are built. -/
theorem recordsAt_getElem? (k i m : Nat) : (recordsAt stat joliet dirs files k i)[m]? =
    (freshAt stat joliet dirs files i)[m]?.map (fun r =>
      (writers stat joliet dirs files k i m).foldl (fun r j =>
        write (startAt stat joliet dirs files j) (sizeAt stat joliet dirs files j) r) r) := by
  have updates : ∀ (js : List Nat) (rs : List Record),
      rs.map Record.ident = (freshAt stat joliet dirs files i).map Record.ident →
      js.foldl (fun rs j => assign (keyAt joliet dirs j) (startAt stat joliet dirs files j)
        (sizeAt stat joliet dirs files j) rs) rs =
      js.foldl (fun rs j => rs.modify (hit stat joliet dirs files i j)
        (write (startAt stat joliet dirs files j) (sizeAt stat joliet dirs files j))) rs := by
    intro js
    induction js with
    | nil => exact fun _ _ => rfl
    | cons j js ih =>
      intro rs idents
      have step : assign (keyAt joliet dirs j) (startAt stat joliet dirs files j)
          (sizeAt stat joliet dirs files j) rs = rs.modify (hit stat joliet dirs files i j)
          (write (startAt stat joliet dirs files j) (sizeAt stat joliet dirs files j)) := by
        rw [assign_eq_modify, idents, hit]
      rw [List.foldl_cons, List.foldl_cons, ← step]
      exact ih _ ((ident_of_kinds (assign_kinds rs)).trans idents)
  rw [recordsAt, updates _ _ rfl, foldl_modify_getElem?]
  rfl

end Fold

/-! ## The record of a directory -/

def pathAt (dirs : List Dir) (j : Nat) : List UInt8 := ((dirs[j]?).map Dir.path).getD []

/-- The children of the parent of directory `j` that are listed before it. -/
def childrenBefore (dirs : List Dir) (j : Nat) : List Dir :=
  (childDirs dirs (getParent dirs j)).takeWhile fun e => e.path != pathAt dirs j

/-- The place of the record of directory `j` in the content of its parent. -/
def recordIndex (stat : List UInt8 → Option Stat) (joliet : Bool) (dirs : List Dir)
    (files : List (List FileEntry)) (j : Nat) : Nat :=
  2 + (fileRecordsAt stat joliet files (getParent dirs j)).length + (childrenBefore dirs j).length

/-- The name of directory `j` is not cut too early, its record fits, and no record in front
of its own has the same identifier. -/
structure FindsOwn (joliet : Bool) (dirs : List Dir) (files : List (List FileEntry))
    (j : Nat) : Prop where
  fits : if joliet then (dirIdent true (baseName (pathAt dirs j))).length ≤ 215
    else (baseName (pathAt dirs j)).length ≤ 205
  notUp : keyAt joliet dirs j ≠ [1]
  noFile : ∀ e ∈ files.getD (getParent dirs j) [],
    fileIdent joliet (baseName e.path) ≠ keyAt joliet dirs j
  noDir : ∀ e ∈ childrenBefore dirs j, dirIdent joliet (baseName e.path) ≠ keyAt joliet dirs j

section Listing
variable {stat : List UInt8 → Option Stat} {joliet : Bool} {inDir : List UInt8}
  {tree : SourceTree} {files : List (List FileEntry)} {j : Nat}

/-- A directory behind the first stands among the children of its parent. -/
theorem mem_childDirs_parent (proper : tree.Proper) (later : j ≠ 0)
    (inside : j < (listDirs inDir tree).length) :
    ∃ d, (listDirs inDir tree)[j]? = some d ∧
      d ∈ childDirs (listDirs inDir tree) (getParent (listDirs inDir tree) j) := by
  have here := List.getElem?_eq_getElem inside
  obtain ⟨p, parent, inner, -⟩ := getParent_spec proper here later
  obtain ⟨low, rfl⟩ := List.getElem?_eq_some_iff.mp parent
  have split : listDirs inDir tree =
      (listDirs inDir tree).take (getParent (listDirs inDir tree) j) ++
        (listDirs inDir tree)[getParent (listDirs inDir tree) j] ::
          (listDirs inDir tree).drop (getParent (listDirs inDir tree) j + 1) := by
    rw [← List.drop_eq_getElem_cons, List.take_append_drop]
  have length : ((listDirs inDir tree).take (getParent (listDirs inDir tree) j)).length =
      getParent (listDirs inDir tree) j := by
    rw [List.length_take]
    omega
  have sublist := subdirs_sublist_childDirs proper split
  rw [length] at sublist
  exact ⟨_, here, sublist.subset inner⟩

/-- The children in front of a directory, and the directory behind them. -/
theorem childrenBefore_split {dirs : List Dir} {d : Dir} (here : dirs[j]? = some d)
    (child : d ∈ childDirs dirs (getParent dirs j)) :
    ∃ e post, childDirs dirs (getParent dirs j) = childrenBefore dirs j ++ e :: post ∧
      e.path = pathAt dirs j := by
  have path : pathAt dirs j = d.path := by
    rw [pathAt, here]
    rfl
  have split := List.takeWhile_append_dropWhile (p := fun e : Dir => e.path != pathAt dirs j)
    (l := childDirs dirs (getParent dirs j))
  cases behind : (childDirs dirs (getParent dirs j)).dropWhile fun e => e.path != pathAt dirs j with
  | nil =>
    have all := List.dropWhile_eq_nil_iff.mp behind d child
    rw [path] at all
    simp at all
  | cons e post =>
    refine ⟨e, post, ?_, ?_⟩
    · rw [childrenBefore, ← behind, split]
    · have stops := List.head?_dropWhile_not (fun e : Dir => e.path != pathAt dirs j)
        (childDirs dirs (getParent dirs j))
      rw [behind] at stops
      simpa using stops

theorem key_eq_ident (joliet : Bool) (dirs : List Dir) (j : Nat) :
    keyAt joliet dirs j = dirIdent joliet (baseName (pathAt dirs j)) ↔
      joliet = true ∨ (baseName (pathAt dirs j)).length ≤ 205 := by
  cases joliet with
  | true => exact iff_of_true rfl (Or.inl rfl)
  | false =>
    have key : keyAt false dirs j = upperName (baseName (pathAt dirs j)) 205 := rfl
    have ident : dirIdent false (baseName (pathAt dirs j)) =
      upperName (baseName (pathAt dirs j)) 254 := rfl
    rw [key, ident, upperName, upperName]
    constructor
    · intro same
      have lengths := congrArg List.length same
      rw [List.length_map, List.length_map, List.length_take, List.length_take] at lengths
      right
      omega
    · rintro (none | short)
      · cases none
      · rw [List.take_of_length_le short, List.take_of_length_le (by omega)]

/-- The identifiers in front of the record of a directory. -/
theorem hit_eq_iff {dirs : List Dir} {d : Dir} (here : dirs[j]? = some d)
    (child : d ∈ childDirs dirs (getParent dirs j))
    (made : Made stat joliet dirs files (getParent dirs j)) (notDot : keyAt joliet dirs j ≠ [0]) :
    hit stat joliet dirs files (getParent dirs j) j = recordIndex stat joliet dirs files j ↔
      (joliet = true ∨ (baseName (pathAt dirs j)).length ≤ 205) ∧ keyAt joliet dirs j ≠ [1] ∧
      (∀ e ∈ files.getD (getParent dirs j) [],
        fileIdent joliet (baseName e.path) ≠ keyAt joliet dirs j) ∧
      ∀ e ∈ childrenBefore dirs j, dirIdent joliet (baseName e.path) ≠ keyAt joliet dirs j := by
  obtain ⟨e, post, split, path⟩ := childrenBefore_split here child
  obtain ⟨front, hfront⟩ : ∃ front : List (List UInt8), front = [0] :: [1] ::
    ((files.getD (getParent dirs j) []).flatMap (fun e =>
        List.replicate (partsOf e.size) (fileIdent joliet (baseName e.path))) ++
      (childrenBefore dirs j).map fun e => dirIdent joliet (baseName e.path)) := ⟨_, rfl⟩
  have idents : (freshAt stat joliet dirs files (getParent dirs j)).map Record.ident =
      front ++ dirIdent joliet (baseName (pathAt dirs j)) ::
        post.map fun e => dirIdent joliet (baseName e.path) := by
    rw [freshAt, List.map_cons, List.map_cons, entriesAt_idents made, split, hfront,
      List.map_append, List.map_cons, path]
    simp only [List.cons_append, List.append_assoc]
  have place : recordIndex stat joliet dirs files j = front.length := by
    have records := congrArg List.length (fileRecordsAt_map (g := Record.ident)
      (h := fun e _ => fileIdent joliet (baseName e.path)) (fun _ _ _ => rfl) made)
    rw [List.length_map] at records
    have same : ((files.getD (getParent dirs j) []).flatMap (fun e =>
        (List.range (partsOf e.size)).map fun _ => fileIdent joliet (baseName e.path))) =
        (files.getD (getParent dirs j) []).flatMap (fun e =>
          List.replicate (partsOf e.size) (fileIdent joliet (baseName e.path))) := by
      apply List.flatMap_congr
      intro e _
      rw [List.map_const', List.length_range]
    rw [same] at records
    rw [recordIndex, records, hfront, List.length_cons, List.length_cons, List.length_append,
      List.length_map]
    omega
  rw [hit, idents, place, findIdx_eq_length_iff, hfront, List.forall_mem_cons,
    List.forall_mem_cons, List.forall_mem_append, ← key_eq_ident joliet dirs j]
  simp only [beq_eq_false_iff_ne, beq_iff_eq, List.forall_mem_map, List.mem_flatMap,
    List.mem_replicate]
  constructor
  · rintro ⟨⟨-, up, noFile, noDir⟩, own⟩
    refine ⟨own.symm, up.symm, ?_, noDir⟩
    intro f hf
    exact noFile _ ⟨f, hf, (partsOf_pos f.size).ne', rfl⟩
  · rintro ⟨own, up, noFile, noDir⟩
    refine ⟨⟨notDot.symm, up.symm, ?_, noDir⟩, own.symm⟩
    rintro ident ⟨f, hf, -, rfl⟩
    exact noFile f hf

/-- A directory is known by the place of its record among those of one parent. -/
theorem recordIndex_inj (proper : tree.Proper) {k : Nat} (later : j ≠ 0)
    (inside : j < (listDirs inDir tree).length) (later' : k ≠ 0)
    (inside' : k < (listDirs inDir tree).length)
    (parent : getParent (listDirs inDir tree) k = getParent (listDirs inDir tree) j)
    (same : recordIndex stat joliet (listDirs inDir tree) files k =
      recordIndex stat joliet (listDirs inDir tree) files j) : k = j := by
  obtain ⟨d, here, child⟩ := mem_childDirs_parent proper later inside
  obtain ⟨d', here', child'⟩ := mem_childDirs_parent proper later' inside'
  obtain ⟨e, post, split, path⟩ := childrenBefore_split here child
  obtain ⟨e', post', split', path'⟩ := childrenBefore_split here' child'
  have lengths : (childrenBefore (listDirs inDir tree) k).length =
      (childrenBefore (listDirs inDir tree) j).length := by
    rw [recordIndex, recordIndex, parent] at same
    omega
  rw [parent, split] at split'
  obtain ⟨-, tails⟩ := List.append_inj split' lengths.symm
  have paths : d'.path = d.path := by
    rw [pathAt, here] at path
    rw [pathAt, here'] at path'
    have ee := (List.cons.inj tails).1
    rw [← ee] at path'
    exact path'.symm.trans path
  have dirs := eq_of_path proper (List.mem_of_getElem? here') (List.mem_of_getElem? here) paths
  rw [dirs] at here'
  obtain ⟨low, at'⟩ := List.getElem?_eq_some_iff.mp here
  obtain ⟨low', at''⟩ := List.getElem?_eq_some_iff.mp here'
  exact ((listDirs_nodup proper).getElem_inj_iff).mp (at''.trans at'.symm)

end Listing

/-! ## Different starts -/

section Starts
variable (stat : List UInt8 → Option Stat) (joliet : Bool) (dirs : List Dir)
  (files : List (List FileEntry))

/-- The bytes of the first contents. -/
def bytesBefore (k : Nat) : Nat := ((List.range k).map (sizeAt stat joliet dirs files)).sum

theorem bytesBefore_succ (k : Nat) : bytesBefore stat joliet dirs files (k + 1) =
    bytesBefore stat joliet dirs files k + sizeAt stat joliet dirs files k := by
  rw [bytesBefore, bytesBefore, List.range_succ, List.map_append, List.sum_append,
    List.map_singleton, List.sum_singleton]

theorem sizeAt_sectors (i : Nat) : 0 < sizeAt stat joliet dirs files i ∧
    sizeAt stat joliet dirs files i % 0x800 = 0 := by
  constructor
  · have self : (dotRecord 0 (timeAt stat dirs i)).ident = [0] := rfl
    obtain ⟨more, first⟩ := packed_first self
      (dotDotRecord (timeAt stat dirs (getParent dirs i)) :: entriesAt stat joliet dirs files i)
    rw [sizeAt, first, List.length_append, dot_length self]
    omega
  · exact pack_length_mod (by decide) _

variable {stat joliet dirs files}

theorem bytesBefore_mono {k n : Nat} (le : k ≤ n) :
    bytesBefore stat joliet dirs files k ≤ bytesBefore stat joliet dirs files n := by
  induction n, le using Nat.le_induction with
  | base => exact le_rfl
  | succ n _ ih =>
    rw [bytesBefore_succ]
    omega

theorem sectors_exact {size : Nat} (whole : size % 0x800 = 0) :
    (size + 0x7ff) / 0x800 * 0x800 = size := by
  omega

theorem sectors_step {start size bytes : Nat} (before : start * 0x800 = bytes)
    (whole : size % 0x800 = 0) (few : bytes + size < 2 ^ 32 * 0x800) :
    (start + bytesToSectors size) % 2 ^ 32 * 0x800 = bytes + size := by
  have exact := sectors_exact whole
  rw [bytesToSectors, Nat.add_mod_mod]
  generalize (size + 0x7ff) / 0x800 = sectors at exact ⊢
  have low : start + sectors < 2 ^ 32 := by
    rw [← before, ← exact, ← Nat.add_mul] at few
    exact Nat.lt_of_mul_lt_mul_right few
  rw [Nat.mod_eq_of_lt low, Nat.add_mul, exact, before]

/-- Below `2 ^ 32` sectors nothing is lost. -/
theorem startAt_exact {k : Nat} (few : bytesBefore stat joliet dirs files k < 2 ^ 32 * 0x800) :
    startAt stat joliet dirs files k * 0x800 = bytesBefore stat joliet dirs files k := by
  induction k with
  | zero => exact Nat.zero_mul _
  | succ k ih =>
    obtain ⟨-, whole⟩ := sizeAt_sectors stat joliet dirs files k
    rw [bytesBefore_succ] at few ⊢
    have before := ih (lt_of_le_of_lt (Nat.le_add_right _ _) few)
    exact sectors_step before whole few

theorem startAt_lt_of_lt {j k : Nat} (few : bytesBefore stat joliet dirs files k < 2 ^ 32 * 0x800)
    (earlier : j < k) : startAt stat joliet dirs files j < startAt stat joliet dirs files k := by
  have order : bytesBefore stat joliet dirs files (j + 1) ≤ bytesBefore stat joliet dirs files k :=
    bytesBefore_mono earlier
  obtain ⟨some', -⟩ := sizeAt_sectors stat joliet dirs files j
  rw [bytesBefore_succ] at order
  have few' : bytesBefore stat joliet dirs files j < 2 ^ 32 * 0x800 := by omega
  have first := startAt_exact few'
  have second := startAt_exact few
  omega

theorem startAt_inj {n j k : Nat} (few : bytesBefore stat joliet dirs files n < 2 ^ 32 * 0x800)
    (low : j < n) (low' : k < n)
    (same : startAt stat joliet dirs files j = startAt stat joliet dirs files k) : j = k := by
  have bound : ∀ i < n, bytesBefore stat joliet dirs files i < 2 ^ 32 * 0x800 := fun i low =>
    lt_of_le_of_lt (bytesBefore_mono low.le) few
  rcases Nat.lt_trichotomy j k with less | equal | more
  · exact absurd same (startAt_lt_of_lt (bound k low') less).ne
  · exact equal
  · exact absurd same.symm (startAt_lt_of_lt (bound j low) more).ne

end Starts

/-! ## What a pass leaves of it -/

section Results
variable (stat : List UInt8 → Option Stat) (joliet : Bool) (dirs : List Dir)
  (files : List (List FileEntry))

/-- The content of directory `i` is made of these records, the ones expected. -/
def Formed (i : Nat) (rs : List Record) (st : Pass) : Prop :=
  ∃ content, st.contents[i]? = some content ∧
    rs.map kind = (freshAt stat joliet dirs files i).map kind ∧ WellFormed 0 rs content

/-- The record of directory `j` has the extent that its own content has. -/
def Recorded (j : Nat) (st : Pass) : Prop :=
  ∃ rs r own, Formed stat joliet dirs files (getParent dirs j) rs st ∧
    rs[recordIndex stat joliet dirs files j]? = some r ∧
    st.contents[j]? = some own ∧ Headed r.start r.length own

/-- Of the records of its parent no other is changed. -/
def AltersOnly (j : Nat) (st st' : Pass) : Prop :=
  ∃ rs rs', Formed stat joliet dirs files (getParent dirs j) rs st ∧
    Formed stat joliet dirs files (getParent dirs j) rs' st' ∧
    ∀ m, m ≠ recordIndex stat joliet dirs files j → rs'[m]? = rs[m]?

end Results

theorem findsOwn_iff {joliet : Bool} {dirs : List Dir} {files : List (List FileEntry)} {j : Nat} :
    FindsOwn joliet dirs files j ↔
      ((joliet = true ∨ (baseName (pathAt dirs j)).length ≤ 205) ∧ keyAt joliet dirs j ≠ [1] ∧
        (∀ e ∈ files.getD (getParent dirs j) [],
          fileIdent joliet (baseName e.path) ≠ keyAt joliet dirs j) ∧
        ∀ e ∈ childrenBefore dirs j, dirIdent joliet (baseName e.path) ≠ keyAt joliet dirs j) ∧
      Short (dirIdent joliet (baseName (pathAt dirs j))) := by
  rw [short_iff]
  cases joliet with
  | true =>
    constructor
    · rintro ⟨fits, notUp, noFile, noDir⟩
      exact ⟨⟨Or.inl rfl, notUp, noFile, noDir⟩, fits⟩
    · rintro ⟨⟨-, notUp, noFile, noDir⟩, fits⟩
      exact ⟨fits, notUp, noFile, noDir⟩
  | false =>
    constructor
    · rintro ⟨fits, notUp, noFile, noDir⟩
      have fits' : (baseName (pathAt dirs j)).length ≤ 205 := fits
      refine ⟨⟨Or.inr fits', notUp, noFile, noDir⟩, ?_⟩
      rw [dirIdent, if_neg Bool.false_ne_true, upperName, List.length_map, List.length_take]
      omega
    · rintro ⟨⟨cut, notUp, noFile, noDir⟩, -⟩
      rcases cut with none | fits
      · cases none
      · exact ⟨fits, notUp, noFile, noDir⟩

section Run
variable {stat : List UInt8 → Option Stat} {joliet : Bool} {tempBufSize : Nat}
  {inDir : List UInt8} {tree : SourceTree} {files : List (List FileEntry)} {st : Pass}

/-- Short identifiers of all directories are enough for all contents. -/
theorem shortDirs_of (short : ∀ j, j ≠ 0 → j < (listDirs inDir tree).length →
      Short (dirIdent joliet (baseName (pathAt (listDirs inDir tree) j)))) :
    ShortDirs joliet (listDirs inDir tree) := by
  intro i _ e he
  rw [childDirs] at he
  split at he
  · cases he
  · have behind := (List.mem_filter.mp he).1
    obtain ⟨k, low, at'⟩ := List.mem_iff_getElem.mp behind
    rw [List.length_drop] at low
    rw [List.getElem_drop] at at'
    have here : (listDirs inDir tree)[i + 1 + k]? = some e := by
      rw [← at']
      exact List.getElem?_eq_getElem (by omega)
    have own := short (i + 1 + k) (by omega) (by omega)
    rw [pathAt, here] at own
    exact own

/-- What a pass leaves, and what its first turns left. -/
theorem passes (proper : tree.Proper) (shortDirs : ShortDirs joliet (listDirs inDir tree))
    (ok : buildContents stat joliet tempBufSize (listDirs inDir tree) files 0
      (listDirs inDir tree) ⟨[], 0⟩ = .ok st) :
    (∀ i < (listDirs inDir tree).length, Made stat joliet (listDirs inDir tree) files i) ∧
    st = passAt stat joliet (listDirs inDir tree) files (listDirs inDir tree).length ∧
    ∀ n ≤ (listDirs inDir tree).length, ∀ st',
      buildContents stat joliet tempBufSize (listDirs inDir tree) files 0
        ((listDirs inDir tree).take n) ⟨[], 0⟩ = .ok st' →
      st' = passAt stat joliet (listDirs inDir tree) files n := by
  have made : ∀ i < (listDirs inDir tree).length,
      Made stat joliet (listDirs inDir tree) files i := fun i inside =>
    buildContents_made _ ok i (Nat.zero_le i) (by omega)
  have short : ∀ i < (listDirs inDir tree).length,
      ∀ r ∈ freshAt stat joliet (listDirs inDir tree) files i, Short r.ident :=
    fun i inside => short_fresh (made i inside) (shortDirs i inside)
  refine ⟨made, (buildContents_pass (listDirs_earlier proper) (listDirs_keys proper joliet)
    short ok).1, ?_⟩
  intro n le st' ok'
  exact (buildContents_take (listDirs_earlier proper) (listDirs_keys proper joliet) le
    (fun i low => short i (lt_of_lt_of_le low le)) ok').1

/-- The records of a pass are well formed. -/
theorem formed_passAt (shortDirs : ShortDirs joliet (listDirs inDir tree))
    (made : ∀ i < (listDirs inDir tree).length, Made stat joliet (listDirs inDir tree) files i)
    {i n : Nat} (le : n ≤ (listDirs inDir tree).length) (low : i < n) :
    Formed stat joliet (listDirs inDir tree) files i
      (recordsAt stat joliet (listDirs inDir tree) files n i)
      (passAt stat joliet (listDirs inDir tree) files n) := by
  have inside : i < (listDirs inDir tree).length := lt_of_lt_of_le low le
  have kinds : (recordsAt stat joliet (listDirs inDir tree) files n i).map kind =
      (freshAt stat joliet (listDirs inDir tree) files i).map kind := recordsAt_kinds _ _ _ n i
  refine ⟨_, ?_, kinds, wellFormed_packed (short_of_kinds kinds
    (short_fresh (made i inside) (shortDirs i inside)))⟩
  rw [passAt, List.getElem?_map, List.getElem?_range low]
  rfl

theorem headed_passAt (stat : List UInt8 → Option Stat) (joliet : Bool)
    (files : List (List FileEntry)) (proper : tree.Proper) {i : Nat}
    (inside : i < (listDirs inDir tree).length) :
    ∃ own, (passAt stat joliet (listDirs inDir tree) files
        (listDirs inDir tree).length).contents[i]? = some own ∧
      Headed (startAt stat joliet (listDirs inDir tree) files i)
        (sizeAt stat joliet (listDirs inDir tree) files i) own := by
  obtain ⟨rest, head⟩ := recordsAt_head stat joliet files (listDirs_keys proper joliet) le_rfl i
  obtain ⟨dot, this⟩ : ∃ dot : Record, dot =
    ⟨startAt stat joliet (listDirs inDir tree) files i,
      sizeAt stat joliet (listDirs inDir tree) files i, timeAt stat (listDirs inDir tree) i,
      isoDirectory, [0]⟩ := ⟨_, rfl⟩
  have self : dot.ident = [0] := by rw [this]
  obtain ⟨more, first⟩ := packed_first self rest
  refine ⟨packed (dot :: rest), ?_, timeAt stat (listDirs inDir tree) i, more, ?_⟩
  · rw [passAt, List.getElem?_map, List.getElem?_range inside, Option.map_some, head, this]
  · rw [first, this]

section Finds
variable (proper : tree.Proper)
  (finds : ∀ j, j ≠ 0 → j < (listDirs inDir tree).length →
    FindsOwn joliet (listDirs inDir tree) files j)
  (made : ∀ i < (listDirs inDir tree).length, Made stat joliet (listDirs inDir tree) files i)
include proper finds made

theorem hit_own {j : Nat} (later : j ≠ 0) (inside : j < (listDirs inDir tree).length) :
    hit stat joliet (listDirs inDir tree) files (getParent (listDirs inDir tree) j) j =
      recordIndex stat joliet (listDirs inDir tree) files j := by
  obtain ⟨d, here, child⟩ := mem_childDirs_parent proper later inside
  have parent := (listDirs_earlier proper j later inside).trans inside
  exact (hit_eq_iff here child (made _ parent) (listDirs_keys proper joliet j later inside)).mpr
    (findsOwn_iff.mp (finds j later inside)).1

/-- Only the directory itself writes to its record. -/
theorem writers_own {j : Nat} (later : j ≠ 0) (inside : j < (listDirs inDir tree).length) :
    writers stat joliet (listDirs inDir tree) files (listDirs inDir tree).length
      (getParent (listDirs inDir tree) j)
      (recordIndex stat joliet (listDirs inDir tree) files j) = [j] := by
  have parent := listDirs_earlier proper j later inside
  apply eq_singleton
  · exact (List.nodup_range.filter _).filter _
  · apply List.mem_filter.mpr
    refine ⟨List.mem_filter.mpr ⟨List.mem_range.mpr inside, ?_⟩, ?_⟩
    · simpa using parent.ne'
    · simpa using hit_own proper finds made later inside
  · intro k hk
    obtain ⟨below, place⟩ := List.mem_filter.mp hk
    obtain ⟨inside', child⟩ := List.mem_filter.mp below
    rw [List.mem_range] at inside'
    obtain ⟨other, same⟩ := of_decide_eq_true child
    have later' : k ≠ 0 := by
      rintro rfl
      rw [getParent_zero] at same
      exact other same
    have own := hit_own proper finds made later' inside'
    rw [same] at own
    exact recordIndex_inj proper later inside later' inside' same
      (own.symm.trans (of_decide_eq_true place))

end Finds

theorem recordIndex_lt {j : Nat} {d : Dir} {dirs : List Dir} (here : dirs[j]? = some d)
    (child : d ∈ childDirs dirs (getParent dirs j))
    (made : Made stat joliet dirs files (getParent dirs j)) :
    ∃ r,
      (freshAt stat joliet dirs files (getParent dirs j))[recordIndex stat joliet dirs files j]? =
      some r ∧ r.start = 0 ∧ r.flags = isoDirectory := by
  obtain ⟨e, post, split, -⟩ := childrenBefore_split here child
  have starts := childRecordsAt_map (g := fun r => (r.start, r.flags))
    (h := fun _ => (0, isoDirectory)) (fun _ _ => rfl) made
  have place : recordIndex stat joliet dirs files j =
      (fileRecordsAt stat joliet files (getParent dirs j)).length +
        (childrenBefore dirs j).length + 1 + 1 := by
    rw [recordIndex]
    omega
  have low : (childrenBefore dirs j).length <
      (childRecordsAt stat joliet dirs (getParent dirs j)).length := by
    have lengths := congrArg List.length starts
    rw [List.length_map, List.length_map, split, List.length_append, List.length_cons] at lengths
    omega
  refine ⟨(childRecordsAt stat joliet dirs (getParent dirs j))[(childrenBefore dirs j).length],
    ?_, ?_⟩
  · rw [freshAt, place, List.getElem?_cons_succ, List.getElem?_cons_succ, entriesAt,
      List.getElem?_append_right (Nat.le_add_right _ _), Nat.add_sub_cancel_left,
      List.getElem?_eq_getElem low]
  · have both := List.mem_map_of_mem (f := fun r : Record => (r.start, r.flags))
      (List.getElem_mem low)
    rw [starts] at both
    obtain ⟨-, -, both⟩ := List.mem_map.mp both
    exact ⟨congrArg Prod.fst both.symm, congrArg Prod.snd both.symm⟩

/-- Directories that find their own records have their extents in them, and change
nothing else. -/
theorem recorded_of_finds (proper : tree.Proper)
    (finds : ∀ j, j ≠ 0 → j < (listDirs inDir tree).length →
      FindsOwn joliet (listDirs inDir tree) files j)
    (ok : buildContents stat joliet tempBufSize (listDirs inDir tree) files 0
      (listDirs inDir tree) ⟨[], 0⟩ = .ok st) {j : Nat} (later : j ≠ 0)
    (inside : j < (listDirs inDir tree).length) :
    Recorded stat joliet (listDirs inDir tree) files j st ∧ ∀ before after,
      buildContents stat joliet tempBufSize (listDirs inDir tree) files 0
        ((listDirs inDir tree).take j) ⟨[], 0⟩ = .ok before →
      buildContents stat joliet tempBufSize (listDirs inDir tree) files 0
        ((listDirs inDir tree).take (j + 1)) ⟨[], 0⟩ = .ok after →
      AltersOnly stat joliet (listDirs inDir tree) files j before after := by
  have shortDirs : ShortDirs joliet (listDirs inDir tree) :=
    shortDirs_of fun j later inside => (findsOwn_iff.mp (finds j later inside)).2
  obtain ⟨made, rfl, taken⟩ := passes proper shortDirs ok
  have parent := listDirs_earlier proper j later inside
  constructor
  · obtain ⟨d, here, child⟩ := mem_childDirs_parent proper later inside
    obtain ⟨r, at', -⟩ := recordIndex_lt here child (made _ (parent.trans inside))
    obtain ⟨own, stored, headed⟩ := headed_passAt stat joliet files proper inside
    refine ⟨_, write (startAt stat joliet (listDirs inDir tree) files j)
      (sizeAt stat joliet (listDirs inDir tree) files j) r, own,
      formed_passAt shortDirs made le_rfl (parent.trans inside), ?_, stored, headed⟩
    rw [recordsAt_getElem?, writers_own proper finds made later inside, at']
    rfl
  · intro before after first second
    rw [taken j inside.le before first, taken (j + 1) inside after second]
    refine ⟨_, _, formed_passAt shortDirs made inside.le parent,
      formed_passAt shortDirs made inside (parent.trans (Nat.lt_succ_self j)), ?_⟩
    intro m other
    rw [recordsAt_succ, if_pos ⟨parent.ne', rfl⟩, assign_eq_modify,
      ident_of_kinds (recordsAt_kinds stat joliet files j _), ← hit,
      hit_own proper finds made later inside, List.getElem?_modify_ne _ _ other.symm]

/-- The contents of a pass have the sizes counted off. -/
theorem passAt_lengths (shortDirs : ShortDirs joliet (listDirs inDir tree))
    (made : ∀ i < (listDirs inDir tree).length, Made stat joliet (listDirs inDir tree) files i) :
    ((passAt stat joliet (listDirs inDir tree) files
        (listDirs inDir tree).length).contents.map List.length).sum =
      bytesBefore stat joliet (listDirs inDir tree) files (listDirs inDir tree).length := by
  rw [passAt, List.map_map, bytesBefore]
  congr 1
  refine List.map_congr_left ?_
  intro i hi
  have inside := List.mem_range.mp hi
  have kinds : (recordsAt stat joliet (listDirs inDir tree) files
      (listDirs inDir tree).length i).map kind =
      (freshAt stat joliet (listDirs inDir tree) files i).map kind := recordsAt_kinds _ _ _ _ i
  exact packed_length_congr (short_of_kinds kinds (short_fresh (made i inside)
    (shortDirs i inside)))
    (ident_of_kinds kinds)

/-- The same bytes are the same extents. -/
theorem extents_of_bytes {r s : Record} (short : Short r.ident) (short' : Short s.ident)
    (same : r.bytes = s.bytes) : extentBytes r.start r.length = extentBytes s.start s.length := by
  have first := Record.getExtent_bytes short [] []
  have second := Record.getExtent_bytes short' [] []
  rw [same] at first
  exact first.symm.trans second

theorem start_of_extents {start start' length length' : Nat} (small : start < 2 ^ 32)
    (small' : start' < 2 ^ 32) (same : extentBytes start length = extentBytes start' length') :
    start = start' := by
  have first := congrArg (List.take 4) same
  simp only [extentBytes, List.append_assoc,
    List.take_left' (ByteOrder.leBytes_length 4 _)] at first
  have values := congrArg ByteOrder.leValue first
  rwa [ByteOrder.leValue_leBytes_exact (by omega), ByteOrder.leValue_leBytes_exact (by omega)]
    at values

/-- A record that carries a start of the pass was written by the directory that has it. -/
theorem hit_of_start (few : bytesBefore stat joliet (listDirs inDir tree) files
      (listDirs inDir tree).length < 2 ^ 32 * 0x800) {j i m : Nat} (later : j ≠ 0)
    (inside : j < (listDirs inDir tree).length) {fresh r : Record}
    (at' : (freshAt stat joliet (listDirs inDir tree) files i)[m]? = some fresh)
    (zero : fresh.start = 0)
    (value : (recordsAt stat joliet (listDirs inDir tree) files
      (listDirs inDir tree).length i)[m]? = some r)
    (start : r.start = startAt stat joliet (listDirs inDir tree) files j) :
    hit stat joliet (listDirs inDir tree) files i j = m := by
  rw [recordsAt_getElem?, at', Option.map_some, Option.some_inj] at value
  rcases List.eq_nil_or_concat (writers stat joliet (listDirs inDir tree) files
    (listDirs inDir tree).length i m) with none' | ⟨ks, k, last⟩
  · rw [none', List.foldl_nil] at value
    rw [← value, zero] at start
    have first : startAt stat joliet (listDirs inDir tree) files 0 = 0 := rfl
    exact absurd (startAt_inj few inside (by omega) (start.symm.trans first.symm)) later
  · rw [List.concat_eq_append] at last
    have member : k ∈ writers stat joliet (listDirs inDir tree) files
        (listDirs inDir tree).length i m := by
      rw [last]
      exact List.mem_append_right _ List.mem_cons_self
    rw [last, List.foldl_append] at value
    rw [← value] at start
    obtain ⟨below, hits⟩ := List.mem_filter.mp member
    have inside' := List.mem_range.mp (List.mem_filter.mp below).1
    rw [← startAt_inj few inside' inside start]
    exact of_decide_eq_true hits

theorem child_kind {dirs : List Dir} {i : Nat} (made : Made stat joliet dirs files i) {e : Dir}
    (he : e ∈ childDirs dirs i) {rs : List Record}
    (same : rs.map kind = (freshAt stat joliet dirs files i).map kind) :
    ∃ r ∈ rs, r.ident = dirIdent joliet (baseName e.path) := by
  have listed : dirIdent joliet (baseName e.path) ∈ rs.map Record.ident := by
    rw [ident_of_kinds same, freshAt, List.map_cons, List.map_cons, entriesAt_idents made]
    exact List.mem_cons_of_mem _ (List.mem_cons_of_mem _
      (List.mem_append_right _ (List.mem_map_of_mem he)))
  obtain ⟨r, hr, ident⟩ := List.mem_map.mp listed
  exact ⟨r, hr, ident⟩

/-- Where starts do not repeat, the records of the directories tell that they were found. -/
theorem finds_of_recorded (proper : tree.Proper)
    (ok : buildContents stat joliet tempBufSize (listDirs inDir tree) files 0
      (listDirs inDir tree) ⟨[], 0⟩ = .ok st)
    (few : (st.contents.map List.length).sum < 2 ^ 32 * 0x800)
    (recorded : ∀ j, j ≠ 0 → j < (listDirs inDir tree).length →
      Recorded stat joliet (listDirs inDir tree) files j st) :
    ∀ j, j ≠ 0 → j < (listDirs inDir tree).length →
      FindsOwn joliet (listDirs inDir tree) files j := by
  have all : ∀ i < (listDirs inDir tree).length,
      Made stat joliet (listDirs inDir tree) files i := fun i inside =>
    buildContents_made _ ok i (Nat.zero_le i) (by omega)
  have short : ∀ j, j ≠ 0 → j < (listDirs inDir tree).length →
      Short (dirIdent joliet (baseName (pathAt (listDirs inDir tree) j))) := by
    intro j later inside
    obtain ⟨rs, -, -, ⟨content, -, kinds, formed⟩, -⟩ := recorded j later inside
    obtain ⟨d, here, child⟩ := mem_childDirs_parent proper later inside
    have parent := (listDirs_earlier proper j later inside).trans inside
    obtain ⟨r, hr, ident⟩ := child_kind (all _ parent) child kinds
    have limit := dirIdent_length joliet (baseName d.path)
    have path : pathAt (listDirs inDir tree) j = d.path := by
      rw [pathAt, here]
      rfl
    rw [path, ← ident]
    rw [← ident] at limit
    exact (formed.whole r hr).short limit
  have shortDirs : ShortDirs joliet (listDirs inDir tree) := shortDirs_of short
  obtain ⟨made, rfl, -⟩ := passes proper shortDirs ok
  rw [passAt_lengths shortDirs made] at few
  intro j later inside
  refine findsOwn_iff.mpr ⟨?_, short j later inside⟩
  obtain ⟨d, here, child⟩ := mem_childDirs_parent proper later inside
  have parent := (listDirs_earlier proper j later inside).trans inside
  refine (hit_eq_iff here child (made _ parent) (listDirs_keys proper joliet j later inside)).mp ?_
  obtain ⟨fresh, at', zero, -⟩ := recordIndex_lt here child (made _ parent)
  obtain ⟨rs, r, own, ⟨content, stored, kinds, formed⟩, place, placed, headed⟩ :=
    recorded j later inside
  -- the records read are those of the pass
  obtain ⟨content', stored', kinds', formed'⟩ :=
    formed_passAt shortDirs made le_rfl parent
  rw [stored] at stored'
  cases stored'
  have both := congrArg (fun l : List (List UInt8) =>
    l[recordIndex stat joliet (listDirs inDir tree) files j]?) (formed.unique formed')
  simp only [List.getElem?_map, place, Option.map_some] at both
  obtain ⟨s, value, same⟩ := Option.map_eq_some_iff.mp both.symm
  have shorts := short_fresh (made _ parent) (shortDirs _ parent)
  have extents := extents_of_bytes
    (short_of_kinds kinds shorts r (List.mem_of_getElem? place))
    (short_of_kinds kinds' shorts s (List.mem_of_getElem? value)) same.symm
  obtain ⟨own', placed', headed'⟩ := headed_passAt stat joliet files proper inside
  rw [placed] at placed'
  cases placed'
  rw [← headed.getExtent_eq, headed'.getExtent_eq] at extents
  have start := start_of_extents (startAt_lt j)
    (recordsAt_small (made _ parent) _ s (List.mem_of_getElem? value)) extents
  exact hit_of_start few later inside at' zero value start.symm

/-- The relocation moves the record and the content alike. -/
theorem recorded_fixed (proper : tree.Proper)
    (finds : ∀ j, j ≠ 0 → j < (listDirs inDir tree).length →
      FindsOwn joliet (listDirs inDir tree) files j)
    (ok : buildContents stat joliet tempBufSize (listDirs inDir tree) files 0
      (listDirs inDir tree) ⟨[], 0⟩ = .ok st) {j : Nat} (later : j ≠ 0)
    (inside : j < (listDirs inDir tree).length) (dirLba filesLba : Nat) :
    Recorded stat joliet (listDirs inDir tree) files j
      ⟨st.contents.map fun content => fixDirLba content dirLba filesLba, st.sectors⟩ := by
  have shortDirs : ShortDirs joliet (listDirs inDir tree) :=
    shortDirs_of fun j later inside => (findsOwn_iff.mp (finds j later inside)).2
  obtain ⟨made, rfl, -⟩ := passes proper shortDirs ok
  have parent := (listDirs_earlier proper j later inside).trans inside
  obtain ⟨d, here, child⟩ := mem_childDirs_parent proper later inside
  obtain ⟨r, at', -, flags⟩ := recordIndex_lt here child (made _ parent)
  obtain ⟨own, stored, headed⟩ := headed_passAt stat joliet files proper inside
  obtain ⟨rs, hrs⟩ : ∃ rs, rs = recordsAt stat joliet (listDirs inDir tree) files
    (listDirs inDir tree).length (getParent (listDirs inDir tree) j) := ⟨_, rfl⟩
  have kinds : rs.map kind = (freshAt stat joliet (listDirs inDir tree) files
      (getParent (listDirs inDir tree) j)).map kind := hrs ▸ recordsAt_kinds _ _ _ _ _
  have shorts := short_of_kinds kinds (short_fresh (made _ parent) (shortDirs _ parent))
  have small : ∀ r ∈ rs, r.start < 2 ^ 32 := hrs ▸ recordsAt_small (made _ parent) _
  have kinds' : (rs.map (Record.relocate dirLba filesLba)).map kind =
      (freshAt stat joliet (listDirs inDir tree) files
        (getParent (listDirs inDir tree) j)).map kind := by
    rw [← kinds, List.map_map]
    rfl
  have place : rs[recordIndex stat joliet (listDirs inDir tree) files j]? =
      some (write (startAt stat joliet (listDirs inDir tree) files j)
        (sizeAt stat joliet (listDirs inDir tree) files j) r) := by
    rw [hrs, recordsAt_getElem?, writers_own proper finds made later inside, at']
    rfl
  refine ⟨rs.map (Record.relocate dirLba filesLba), Record.relocate dirLba filesLba
    (write (startAt stat joliet (listDirs inDir tree) files j)
      (sizeAt stat joliet (listDirs inDir tree) files j) r), fixDirLba own dirLba filesLba,
    ⟨packed (rs.map (Record.relocate dirLba filesLba)), ?_, kinds', ?_⟩, ?_, ?_, ?_⟩
  · dsimp only
    rw [List.getElem?_map, passAt, List.getElem?_map, List.getElem?_range parent, Option.map_some,
      Option.map_some, ← hrs, fixDirLba_packed dirLba filesLba shorts small]
  · apply wellFormed_packed
    exact short_of_kinds (kinds'.trans kinds.symm) shorts
  · rw [List.getElem?_map, place]
    rfl
  · dsimp only
    rw [List.getElem?_map, stored]
    rfl
  · have directory : r.flags &&& isoDirectory ≠ 0 := by
      rw [flags]
      decide
    have moved := headed.fixDirLba_moved (startAt_lt j) dirLba filesLba
    rw [Record.relocate, Record.base, write, if_pos directory]
    exact moved

end Run

/-! ## Both at once -/

/-- Every directory behind the first has its extent in its own record, and its turn has
changed no other record of its parent. -/
def RecordsKept (stat : List UInt8 → Option Stat) (joliet : Bool) (tempBufSize : Nat)
    (dirs : List Dir) (files : List (List FileEntry)) (st : Pass) : Prop :=
  ∀ j, j ≠ 0 → j < dirs.length → Recorded stat joliet dirs files j st ∧ ∀ before after,
    buildContents stat joliet tempBufSize dirs files 0 (dirs.take j) ⟨[], 0⟩ = .ok before →
    buildContents stat joliet tempBufSize dirs files 0 (dirs.take (j + 1)) ⟨[], 0⟩ = .ok after →
    AltersOnly stat joliet dirs files j before after

/-- In a pass that ends well, directories that all find their own records have their extents
there, also once relocated; the converse holds as long as no start is used twice, which is
below `2 ^ 32` sectors of directories. -/
theorem buildContents_recorded_iff {stat : List UInt8 → Option Stat} {joliet : Bool}
    {tempBufSize : Nat} {inDir : List UInt8} {tree : SourceTree}
    {files : List (List FileEntry)} {st : Pass} (proper : tree.Proper)
    (ok : buildContents stat joliet tempBufSize (listDirs inDir tree) files 0
      (listDirs inDir tree) ⟨[], 0⟩ = .ok st) :
    ((∀ j, j ≠ 0 → j < (listDirs inDir tree).length →
        FindsOwn joliet (listDirs inDir tree) files j) →
      RecordsKept stat joliet tempBufSize (listDirs inDir tree) files st ∧
        ∀ dirLba filesLba j, j ≠ 0 → j < (listDirs inDir tree).length →
          Recorded stat joliet (listDirs inDir tree) files j
            ⟨st.contents.map fun content => fixDirLba content dirLba filesLba, st.sectors⟩) ∧
    ((st.contents.map List.length).sum < 2 ^ 32 * 0x800 →
      RecordsKept stat joliet tempBufSize (listDirs inDir tree) files st →
        ∀ j, j ≠ 0 → j < (listDirs inDir tree).length →
          FindsOwn joliet (listDirs inDir tree) files j) := by
  constructor
  · intro finds
    constructor
    · exact fun j later inside => recorded_of_finds proper finds ok later inside
    · exact fun dirLba filesLba j later inside =>
        recorded_fixed proper finds ok later inside dirLba filesLba
  · intro few kept
    exact finds_of_recorded proper ok few fun j later inside => (kept j later inside).1

/-! ## Two trees -/

theorem siblings_recorded : ∃ st,
    buildContents anyStat false 0x100000 (listDirs (ascii "/in") siblings) [] 0
      (listDirs (ascii "/in") siblings) ⟨[], 0⟩ = .ok st ∧
    RecordsKept anyStat false 0x100000 (listDirs (ascii "/in") siblings) [] st := by
  obtain ⟨st, ok⟩ := ok_of_isSome (x := buildContents anyStat false 0x100000
    (listDirs (ascii "/in") siblings) [] 0 (listDirs (ascii "/in") siblings) ⟨[], 0⟩)
    (by decide +kernel)
  refine ⟨st, ok, ((buildContents_recorded_iff siblings_proper ok).1 ?_).1⟩
  intro j later inside
  have low : j < 3 := inside
  interval_cases j
  · exact absurd rfl later
  · exact ⟨by decide +kernel, by decide +kernel, by decide +kernel, by decide +kernel⟩
  · exact ⟨by decide +kernel, by decide +kernel, by decide +kernel, by decide +kernel⟩

/-- A file `x` and a directory `x;1`. -/
def versioned : SourceTree := .dir true [ascii "x"] [(ascii "x;1", .dir true [] [])]

def versionedFiles : List (List FileEntry) := [[⟨ascii "/in/x", 0, 0, false⟩], []]

theorem versioned_proper : versioned.Proper := by
  refine .dir (by decide) (by decide) ?_
  intro name tree member
  rw [(Prod.mk.inj (List.mem_singleton.mp member)).2]
  exact .empty true

/-- The directory finds the record of the file. -/
theorem versioned_misses : ∃ st,
    buildContents anyStat false 0x100000 (listDirs (ascii "/in") versioned) versionedFiles 0
      (listDirs (ascii "/in") versioned) ⟨[], 0⟩ = .ok st ∧
    ¬ RecordsKept anyStat false 0x100000 (listDirs (ascii "/in") versioned) versionedFiles st := by
  have total : (buildContents anyStat false 0x100000 (listDirs (ascii "/in") versioned)
      versionedFiles 0 (listDirs (ascii "/in") versioned) ⟨[], 0⟩).toOption.map
        (fun st => (st.contents.map List.length).sum) = some 4096 := by
    decide +kernel
  obtain ⟨st, ok⟩ := ok_of_isSome (x := buildContents anyStat false 0x100000
    (listDirs (ascii "/in") versioned) versionedFiles 0 (listDirs (ascii "/in") versioned) ⟨[], 0⟩)
    (by decide +kernel)
  refine ⟨st, ok, ?_⟩
  intro kept
  rw [ok] at total
  have sum : (st.contents.map List.length).sum = 4096 := Option.some.inj total
  have finds := finds_of_recorded versioned_proper ok (by rw [sum]; decide)
    (fun j later inside => (kept j later inside).1) 1 (by decide) (by decide)
  have free := finds.noFile ⟨ascii "/in/x", 0, 0, false⟩ (by decide +kernel)
  revert free
  decide +kernel

end RecordLookups
