import NtfsIsoMounter.ImageBuild

/-!
# What a pass over the directories computes

In terms of records a pass is simple: a directory starts where the ones before
it end, its first two records point to itself and to its parent, and every
directory built later writes its own extent into the first record of its
parent that has the string it looks for. `buildContent` does this on bytes.
-/

namespace RecordPasses

open ByteOrder CText SectorPacking SourceTrees DirectoryRecords ImageBuild

/-- The extent goes into the first record with the identifier. -/
def assign (key : List UInt8) (start length : Nat) : List Record → List Record
  | [] => []
  | r :: rs =>
    if r.ident = key then { r with start := start, length := length } :: rs
    else r :: assign key start length rs

/-- What a new extent leaves of a record. -/
def kind (r : Record) : RecordTime × UInt8 × List UInt8 := (r.time, r.flags, r.ident)

section Assign
variable {key : List UInt8} {start length : Nat} {rs xs ys : List Record}

theorem assign_kinds (rs : List Record) :
    (assign key start length rs).map kind = rs.map kind := by
  induction rs with
  | nil => rfl
  | cons r rs ih =>
    rw [assign]
    split
    · rfl
    · rw [List.map_cons, List.map_cons, ih]

theorem assign_append (other : ∀ x ∈ xs, x.ident ≠ key) :
    assign key start length (xs ++ ys) = xs ++ assign key start length ys := by
  induction xs with
  | nil => rfl
  | cons x xs ih =>
    rw [List.cons_append, assign, if_neg (other x List.mem_cons_self),
      ih fun y hy => other y (List.mem_cons_of_mem x hy), List.cons_append]

theorem assign_first {r : Record} (other : ∀ x ∈ xs, x.ident ≠ key) (here : r.ident = key) :
    assign key start length (xs ++ r :: ys) =
      xs ++ { r with start := start, length := length } :: ys := by
  rw [assign_append other, assign, if_pos here]

theorem first_split (member : ∃ r ∈ rs, r.ident = key) :
    ∃ xs r ys, rs = xs ++ r :: ys ∧ (∀ x ∈ xs, x.ident ≠ key) ∧ r.ident = key := by
  induction rs with
  | nil =>
    obtain ⟨r, none, -⟩ := member
    cases none
  | cons r rs ih =>
    by_cases here : r.ident = key
    · exact ⟨[], r, rs, rfl, fun x none => (List.not_mem_nil none).elim, here⟩
    · obtain ⟨r', member, found⟩ := member
      have later : r' ∈ rs := by
        rcases List.mem_cons.mp member with rfl | later
        · exact absurd found here
        · exact later
      obtain ⟨xs, s, ys, rfl, other, found'⟩ := ih ⟨r', later, found⟩
      refine ⟨r :: xs, s, ys, rfl, ?_, found'⟩
      rintro x (_ | ⟨_, behind⟩)
      · exact here
      · exact other x behind

/-- Storing an extent where the walk ends is the assignment. -/
theorem findDirRecord_assign (start length : Nat) (short : ∀ r ∈ rs, Short r.ident) {pos : Nat}
    (found : findDirRecord key (packed rs) = some pos) :
    (∃ r ∈ rs, r.ident = key) ∧
      setExtent (packed rs) pos (extentBytes start length) =
        packed (assign key start length rs) := by
  by_cases member : ∃ r ∈ rs, r.ident = key
  · obtain ⟨xs, r, ys, rfl, other, here⟩ := first_split member
    have walk := findDirRecord_packed key xs ys short other here
    have pos_eq : position xs r = pos := Option.some.inj (walk.symm.trans found)
    refine ⟨member, ?_⟩
    rw [← pos_eq, setExtent_packed xs ys (short r (List.mem_append_right _ List.mem_cons_self)),
      assign_first other here]
  · exfalso
    have none := findDirRecord_none key short fun r hr same => member ⟨r, hr, same⟩
    rw [none] at found
    cases found

/-- The size of a content depends on the identifiers alone. -/
theorem packed_length_congr (short : ∀ r ∈ xs, Short r.ident)
    (same : xs.map Record.ident = ys.map Record.ident) :
    (packed xs).length = (packed ys).length := by
  have lengths : (xs.map Record.bytes).map List.length = (ys.map Record.bytes).map List.length := by
    have each : ∀ zs : List Record, (∀ r ∈ zs, Short r.ident) →
        (zs.map Record.bytes).map List.length =
          (zs.map Record.ident).map (fun ident => (lenDr ident).toNat) := by
      intro zs hzs
      simp only [List.map_map]
      exact List.map_congr_left fun r hr => Record.bytes_length (hzs r hr)
    have short' : ∀ r ∈ ys, Short r.ident := by
      intro r hr
      have member : r.ident ∈ xs.map Record.ident := same ▸ List.mem_map_of_mem hr
      obtain ⟨x, hx, ident⟩ := List.mem_map.mp member
      exact ident ▸ short x hx
    rw [each xs short, each ys short', same]
  rw [packed, packed, pack_length, pack_length, endFrom_congr 0 lengths]

end Assign

/-! ## The records of a directory -/

section Pass
variable (stat : List UInt8 → Option Stat) (joliet : Bool) (dirs : List Dir)
  (files : List (List FileEntry))

def timeAt (i : Nat) : RecordTime :=
  ((dirs[i]?.bind (fun d => stat d.path)).map Stat.mtime).getD ⟨0, 0, 0, 0, 0, 0⟩

def fileRecordsAt (i : Nat) : List Record :=
  (((files.getD i []).mapM (fileRecords stat joliet)).getD []).flatten

def childRecordsAt (i : Nat) : List Record := (childRecords stat joliet dirs i).getD []

/-- The records behind the first two, no child built yet. -/
def entriesAt (i : Nat) : List Record :=
  fileRecordsAt stat joliet files i ++ childRecordsAt stat joliet dirs i

/-- The size of the content. -/
def sizeAt (i : Nat) : Nat :=
  (packed (dotRecord 0 (timeAt stat dirs i) :: dotDotRecord (timeAt stat dirs (getParent dirs i)) ::
    entriesAt stat joliet dirs files i)).length

/-- The first sector of the content, from the first content on. -/
def startAt : Nat → Nat
  | 0 => 0
  | i + 1 => (startAt i + bytesToSectors (sizeAt stat joliet dirs files i)) % 2 ^ 32

/-- The content as it is stored first. -/
def freshAt (i : Nat) : List Record :=
  ⟨startAt stat joliet dirs files i, sizeAt stat joliet dirs files i, timeAt stat dirs i,
    isoDirectory, [0]⟩ ::
  ⟨startAt stat joliet dirs files (getParent dirs i),
    sizeAt stat joliet dirs files (getParent dirs i), timeAt stat dirs (getParent dirs i),
    isoDirectory, [1]⟩ ::
  entriesAt stat joliet dirs files i

/-- What directory `j` looks for in its parent. -/
def keyAt (j : Nat) : List UInt8 :=
  strCheck joliet (baseName ((dirs[j]?.map Dir.path).getD []))

/-- The directories below directory `i` among the first `k`. -/
def builtBelow (k i : Nat) : List Nat :=
  (List.range k).filter (fun j => j ≠ i ∧ getParent dirs j = i)

/-- The records of directory `i` once the first `k` directories are built. -/
def recordsAt (k i : Nat) : List Record :=
  (builtBelow dirs k i).foldl (fun rs j => assign (keyAt joliet dirs j)
    (startAt stat joliet dirs files j) (sizeAt stat joliet dirs files j) rs)
    (freshAt stat joliet dirs files i)

def passAt (k : Nat) : Pass :=
  ⟨(List.range k).map (fun i => packed (recordsAt stat joliet dirs files k i)),
    startAt stat joliet dirs files k⟩

end Pass

/-! ## The bytes of a new content -/

section Contents

theorem short_dot : Short [0] := by simp [Short]

theorem short_dotDot : Short [1] := by simp [Short]

theorem utf8ToUcs2_length (n : Nat) (utf8 : List UInt8) : (utf8ToUcs2 n utf8).length ≤ 2 * n := by
  induction n generalizing utf8 with
  | zero => exact Nat.zero_le _
  | succ n ih =>
    rw [utf8ToUcs2]
    split
    · exact Nat.zero_le _
    · rw [List.length_append, beBytes_length]
      have := ih ‹List UInt8›
      omega

/-- The identifier of a file is cut to a length that fits its record. -/
theorem short_fileIdent (joliet : Bool) (name : List UInt8) : Short (fileIdent joliet name) := by
  have bound : (fileIdent joliet name).length ≤ 207 := by
    cases joliet with
    | true => exact (utf8ToUcs2_length _ _).trans (by decide)
    | false =>
      simp only [fileIdent, Bool.false_eq_true, if_false, upperName, List.length_append,
        List.length_map, List.length_take, maxIsoName]
      have : (ascii ";1").length = 2 := rfl
      omega
  simp only [Short]
  omega

theorem dot_length {dot : Record} (self : dot.ident = [0]) : dot.bytes.length = 40 := by
  rw [Record.bytes_length (self ▸ short_dot), self]
  rfl

theorem dotDot_length {dotDot : Record} (up : dotDot.ident = [1]) : dotDot.bytes.length = 40 := by
  rw [Record.bytes_length (up ▸ short_dotDot), up]
  rfl

/-- A content begins with the bytes of its first record. -/
theorem packed_first {dot : Record} (self : dot.ident = [0]) (rs : List Record) :
    ∃ more, packed (dot :: rs) = dot.bytes ++ more := by
  have first : gap sectorSize 0 40 = 0 := rfl
  simp only [packed, pack, List.map_cons, packFrom, dot_length self, first, List.replicate_zero,
    List.nil_append, List.append_assoc]
  exact ⟨_, rfl⟩

theorem packed_cons_cons {dot dotDot : Record} (self : dot.ident = [0]) (up : dotDot.ident = [1])
    (rs : List Record) :
    packed (dot :: dotDot :: rs) = dot.bytes ++ (dotDot.bytes ++
      (packFrom sectorSize 0 80 (rs.map Record.bytes) ++
        List.replicate (fill sectorSize (endFrom sectorSize 80 (rs.map Record.bytes))) 0)) := by
  have first : gap sectorSize 0 40 = 0 := rfl
  have second : gap sectorSize (0 + 0 + 40) 40 = 0 := rfl
  simp only [packed, pack, List.map_cons, packFrom, endFrom, dot_length self, dotDot_length up,
    first, second, List.replicate_zero, List.nil_append, List.append_assoc]

/-- The placed records, filled up to a whole number of sectors. -/
theorem placeAll_content {tempBufSize : Nat} {dot dotDot : Record} {rs : List Record}
    {placed : List UInt8} (self : dot.ident = [0]) (up : dotDot.ident = [1])
    (ok : placeAll tempBufSize (rs.map Record.bytes) (dot.bytes ++ dotDot.bytes) = some placed) :
    placed ++ List.replicate ((placed.length + 0x7ff) / 0x800 * 0x800 - placed.length) 0 =
      packed (dot :: dotDot :: rs) ∧
    (placed.length + 0x7ff) / 0x800 * 0x800 = (packed (dot :: dotDot :: rs)).length := by
  have whole := packed_cons_cons self up rs
  have start : (dot.bytes ++ dotDot.bytes).length = 80 := by
    rw [List.length_append, dot_length self, dotDot_length up]
  have placed_eq := placeAll_eq ok
  rw [start] at placed_eq
  have records : 80 + (packFrom sectorSize (0 : UInt8) 80 (rs.map Record.bytes)).length = _ :=
    packFrom_length 80 _
  have length : placed.length = endFrom sectorSize 80 (rs.map Record.bytes) := by
    rw [placed_eq, List.length_append, start, records]
  have rounding : (placed.length + 0x7ff) / 0x800 * 0x800 - placed.length =
      fill sectorSize (endFrom sectorSize 80 (rs.map Record.bytes)) := by
    rw [← length]
    simp only [fill, sectorSize]
    omega
  have content : placed ++ List.replicate
      ((placed.length + 0x7ff) / 0x800 * 0x800 - placed.length) 0 =
      packed (dot :: dotDot :: rs) := by
    rw [rounding, whole, placed_eq]
    simp only [List.append_assoc]
  refine ⟨content, ?_⟩
  rw [← content, List.length_append, List.length_replicate]
  omega

theorem position_first {dot : Record} (self : dot.ident = [0]) : position [] dot = 0 := by
  have none : gap sectorSize 0 40 = 0 := rfl
  simp only [position, List.map_nil, leading, packFrom, endFrom, dot_length self, none,
    List.replicate_zero, List.append_nil, List.length_nil]

/-- The extent of the first record. -/
theorem getExtent_first {dot : Record} (self : dot.ident = [0]) (rs : List Record) :
    getExtent (packed (dot :: rs)) 0 = extentBytes dot.start dot.length := by
  have read := getExtent_packed [] rs (self ▸ short_dot)
  rwa [position_first self] at read

theorem setExtent_first {dot : Record} (self : dot.ident = [0]) (rs : List Record)
    (start length : Nat) :
    setExtent (packed (dot :: rs)) 0 (extentBytes start length) =
      packed ({ dot with start := start, length := length } :: rs) := by
  have stored := setExtent_packed [] rs (self ▸ short_dot) start length
  rwa [position_first self] at stored

/-- The record `..` with an extent. -/
theorem setExtent_dotDot (time : RecordTime) (start length : Nat) :
    setExtent (dotDotRecord time).bytes 0 (extentBytes start length) =
      (⟨start, length, time, isoDirectory, [1]⟩ : Record).bytes := by
  have stored := Record.setExtent_bytes (r := dotDotRecord time) short_dotDot [] [] start length
  simp only [List.nil_append, List.append_nil, List.length_nil] at stored
  exact stored

theorem setExtent_second {dot dotDot : Record} (self : dot.ident = [0]) (up : dotDot.ident = [1])
    (rs : List Record) (start length : Nat) :
    setExtent (packed (dot :: dotDot :: rs)) 0x28 (extentBytes start length) =
      packed (dot :: { dotDot with start := start, length := length } :: rs) := by
  have second : position [dot] dotDot = 0x28 := by
    have first : gap sectorSize 0 40 = 0 := rfl
    have next : gap sectorSize (0 + 0 + 40) 40 = 0 := rfl
    simp only [position, List.map_cons, List.map_nil, leading, packFrom, endFrom,
      dot_length self, dotDot_length up, first, next, List.replicate_zero, List.append_nil,
      List.nil_append]
  have stored := setExtent_packed [dot] rs (up ▸ short_dotDot) start length
  rwa [second] at stored

end Contents

end RecordPasses
