import NtfsIsoMounter.SectionTables

/-!
# Section tables made from runlists

`ntfs_file_to_sectors` turns the runlist of a file into the table the plugin
reads the file through. The walk over the runs follows the one that reads the
file, with the read replaced by an entry of the table; `prev_sector` is the
sector after the last entry or the mark of a hole. Sizes are 32-bit numbers,
byte counts signed 64-bit ones.
-/

namespace RunlistSectors

open SectionTables

/-- A runlist element; the clusters of a hole (`LCN_HOLE`) have no place on the
volume. The element that ends the list has length zero. -/
structure Run where
  lcn : Option Nat
  length : Nat
  deriving DecidableEq

structure Attr where
  runs : List Run
  clusterSizeBits : Nat
  dataSize : Nat
  initializedSize : Nat

/-- `ntfs_attr_find_vcn` on a runlist that starts at a cluster: the first cluster
of the element found, and the runlist from it on. -/
def findVcn (start : Nat) (runs : List Run) (vcn : Nat) : Option (Nat × List Run) :=
  match runs with
  | [] => none
  | run :: rest =>
    if run.length = 0 then none
    else if vcn < start + run.length then some (start, run :: rest)
    else findVcn (start + run.length) rest vcn

/-- A number stored in a `uint32_t`. -/
def toU32 (n : Int) : UInt32 := UInt32.ofNat (n % 2 ^ 32).toNat

/-- `size_out[*s_count-1] += n`; without an entry the store is in front of the array. -/
def growLast (n : Int) (table : List Section) : Option (List Section) :=
  table.getLast?.map (fun s => table.dropLast ++ [{ s with size := toU32 (s.size.toNat + n) }])

/-- The locals of the walk; the table is `sec_out` and `size_out` up to `*s_count`. -/
structure Walk where
  table : List Section
  prev : Nat
  total : Int
  count : Int

def holeSector : Nat := 0xFFFFFFFF

/-- The entry for `n` sectors of a hole. -/
def Walk.hole (w : Walk) (n : Int) : Option Walk :=
  if w.table = [] then
    some { w with table := [⟨holeMark, toU32 n⟩], prev := holeSector }
  else if w.prev = holeSector then (growLast n w.table).map (fun t => { w with table := t })
  else some { w with table := w.table ++ [⟨holeMark, toU32 n⟩], prev := holeSector }

/-- The entry for `n` sectors from a sector of the volume on. -/
def Walk.sectors (w : Walk) (curSector : Nat) (n : Int) : Option Walk :=
  if w.prev = curSector then
    (growLast n w.table).map (fun t => { w with table := t, prev := u64 (w.prev + n).toNat })
  else
    let s : Section := ⟨UInt32.ofNat curSector, toU32 n⟩
    some { w with table := w.table ++ [s], prev := u32 (s.start.toNat + s.size.toNat) }

/-- `if (total) return total;`, else the error. -/
def Walk.partly (w : Walk) : Int × List Section := (if w.total ≠ 0 then w.total else -1, w.table)

/-- The loop of `ntfs_attr_to_sectors`: its return value and the table. -/
def readRuns (clusterSizeBits max : Nat) (total2 : Int) (runs : List Run) (ofs : Nat) (w : Walk) :
    Option (Int × List Section) :=
  if w.count = 0 ∨ max ≤ w.table.length then some (w.total + total2, w.table)
  else
    match runs with
    | [] => some w.partly
    | run :: rest =>
      if run.length = 0 then some w.partly
      else
        let toRead := min w.count ((run.length * 2 ^ clusterSizeBits : Nat) - (ofs : Int))
        match run.lcn with
        | none =>
          let toRead := if toRead < 512 then 512 else toRead
          (w.hole (toRead.tdiv 512)).bind fun w =>
            readRuns clusterSizeBits max total2 rest 0
              { w with total := w.total + toRead, count := w.count - toRead }
        | some lcn =>
          let br := toRead
          let curSector := u64 (lcn * 2 ^ clusterSizeBits + ofs) / 512
          let toRead := if toRead % 512 ≠ 0 then toRead + 512 - toRead.tmod 512 else toRead
          (w.sectors curSector (toRead.tdiv 512)).bind fun w =>
            let w := if br > 0 then { w with total := w.total + br, count := w.count - br } else w
            if br = toRead then readRuns clusterSizeBits max total2 rest 0 w else some w.partly

/-- `prev_sector` at the start, from the table filled so far; the size read is that
of the entry behind it. -/
def startPrev (sizeBehind : Nat → UInt32) (table : List Section) : Nat :=
  match table.getLast? with
  | none => holeSector
  | some s =>
    if s.start.toNat = holeSector then holeSector
    else u64 (s.start.toNat + (sizeBehind table.length - 1).toNat)

def ntfsAttrToSectors (na : Attr) (sizeBehind : Nat → UInt32) (max pos count : Nat)
    (table : List Section) : Option (Int × List Section) :=
  if max ≤ table.length then some (0, table)
  else if count = 0 then some (0, table)
  else if pos + count > na.dataSize ∧ pos ≥ na.dataSize then some (0, table)
  else
    let count := if pos + count > na.dataSize then na.dataSize - pos else count
    if pos + count > na.initializedSize ∧ pos ≥ na.initializedSize then some (count, table)
    else
      let total2 := pos + count - na.initializedSize
      match findVcn 0 na.runs (pos / 2 ^ na.clusterSizeBits) with
      | none => some (-1, table)
      | some (start, runs) =>
        readRuns na.clusterSizeBits max total2 runs (pos - start * 2 ^ na.clusterSizeBits)
          ⟨table, startPrev sizeBehind table, 0, (count - total2 : Nat)⟩

/-- `while (len && s_count < max)`; the inner result is `none` for the return value -1. -/
def fileLoop (na : Attr) (sizeBehind : Nat → UInt32) (max : Nat) :
    Nat → Nat → Nat → List Section → Option (Option (List Section))
  | 0, _, len, table => if len = 0 ∨ max ≤ table.length then some (some table) else none
  | fuel + 1, pos, len, table =>
    if len = 0 ∨ max ≤ table.length then some (some table)
    else
      (ntfsAttrToSectors na sizeBehind max pos len table).bind fun (ret, table) =>
        if ret ≤ 0 ∨ ret > len then some none
        else fileLoop na sizeBehind max fuel (pos + ret.toNat) (len - ret.toNat) table

/-- `ntfs_file_to_sectors` for the data attribute of the file. Every turn takes a
byte off the length. -/
def ntfsFileToSectors (na : Attr) (startSector : UInt32) (sizeBehind : Nat → UInt32) (max : Nat)
    (phys : Bool) : Option (Option (List Section)) :=
  (fileLoop na sizeBehind max na.dataSize 0 na.dataSize []).map fun result =>
    result.map fun table =>
      if phys then table.map (fun s => { s with start := s.start + startSector }) else table

/-! ## One run -/

section Hops
variable {clusterSizeBits max : Nat} {total2 : Int} {run : Run} {rest : List Run} {w : Walk}

theorem readRuns_done (runs : List Run) (ofs : Nat) (done : w.count = 0) :
    readRuns clusterSizeBits max total2 runs ofs w = some (w.total + total2, w.table) := by
  rw [readRuns.eq_def, if_pos (Or.inl done)]

theorem readRuns_full (runs : List Run) (ofs : Nat) (full : max ≤ w.table.length) :
    readRuns clusterSizeBits max total2 runs ofs w = some (w.total + total2, w.table) := by
  rw [readRuns.eq_def, if_pos (Or.inr full)]

theorem readRuns_end (ofs : Nat) (more : w.count ≠ 0) (room : w.table.length < max) :
    readRuns clusterSizeBits max total2 [] ofs w = some w.partly := by
  rw [readRuns, if_neg (by omega)]

/-- The end of the runlist enters nothing. -/
theorem readRuns_nil {ofs : Nat} {ret : Int} {table : List Section}
    (walk : readRuns clusterSizeBits max total2 [] ofs w = some (ret, table)) :
    table = w.table := by
  rw [readRuns] at walk
  split at walk
  · cases walk
    rfl
  · cases walk
    rfl

/-- C's remainder of the byte count behind a hole whose first sector was rounded up. -/
theorem tmod_below {r : Nat} (h : Nat) (inside : 0 < r ∧ r < 512) :
    ((r : Int) - 512 * (h + 1)).tmod 512 = (r : Int) - 512 := by
  have remainder : ((r : Int) - 512 * (h + 1)) % 512 = r := by omega
  rw [Int.tmod_eq_emod, remainder, if_neg]
  · rfl
  · rintro (h | h) <;> omega

variable (more : w.count ≠ 0) (room : w.table.length < max) (long : 0 < run.length)
include more room long

/-- A hole, with the bytes it is taken for: at least a sector. -/
theorem readRuns_hole (hole : run.lcn = none) {toRead : Int}
    (bytes : toRead = Max.max (min w.count (run.length * 2 ^ clusterSizeBits : Nat)) 512) :
    readRuns clusterSizeBits max total2 (run :: rest) 0 w =
      (w.hole (toRead.tdiv 512)).bind fun w =>
        readRuns clusterSizeBits max total2 rest 0
          { w with total := w.total + toRead, count := w.count - toRead } := by
  have atLeast : (if min w.count ((run.length * 2 ^ clusterSizeBits : Nat) - (0 : Nat) : Int) < 512
      then (512 : Int)
      else min w.count ((run.length * 2 ^ clusterSizeBits : Nat) - (0 : Nat) : Int)) = toRead := by
    rw [bytes]
    split <;> omega
  rw [readRuns, if_neg (by omega), if_neg (by omega)]
  simp only [hole]
  rw [atLeast]

/-- An allocated run, with the bytes taken of it. -/
theorem readRuns_sectors {lcn : Nat} (allocated : run.lcn = some lcn) {br toRead : Int}
    (bytes : br = min w.count (run.length * 2 ^ clusterSizeBits : Nat))
    (rounded : toRead = if br % 512 ≠ 0 then br + 512 - br.tmod 512 else br) :
    readRuns clusterSizeBits max total2 (run :: rest) 0 w =
      (w.sectors (u64 (lcn * 2 ^ clusterSizeBits) / 512) (toRead.tdiv 512)).bind fun w =>
        let w := if br > 0 then { w with total := w.total + br, count := w.count - br } else w
        if br = toRead then readRuns clusterSizeBits max total2 rest 0 w else some w.partly := by
  have here : min w.count ((run.length * 2 ^ clusterSizeBits : Nat) - (0 : Nat) : Int) = br := by
    rw [bytes]
    omega
  rw [readRuns, if_neg (by omega), if_neg (by omega)]
  simp only [allocated]
  rw [here, ← rounded, Nat.add_zero]

end Hops

/-- Entries do not change the byte counts. -/
theorem hole_counts {w w' : Walk} {n : Int} (added : w.hole n = some w') :
    w'.total = w.total ∧ w'.count = w.count := by
  rw [Walk.hole] at added
  split at added
  · cases added
    exact ⟨rfl, rfl⟩
  · split at added
    · obtain ⟨t, -, rfl⟩ := Option.map_eq_some_iff.mp added
      exact ⟨rfl, rfl⟩
    · cases added
      exact ⟨rfl, rfl⟩

theorem sectors_counts {w w' : Walk} {cur : Nat} {n : Int} (added : w.sectors cur n = some w') :
    w'.total = w.total ∧ w'.count = w.count := by
  rw [Walk.sectors] at added
  split at added
  · obtain ⟨t, -, rfl⟩ := Option.map_eq_some_iff.mp added
    exact ⟨rfl, rfl⟩
  · cases added
    exact ⟨rfl, rfl⟩

/-- The clusters of a runlist. -/
def clusterCount (runs : List Run) : Nat := (runs.map Run.length).sum

theorem clusterCount_cons (run : Run) (rest : List Run) (size : Nat) :
    clusterCount (run :: rest) * size = run.length * size + clusterCount rest * size := by
  rw [clusterCount, List.map_cons, List.sum_cons, Nat.add_mul]
  rfl

/-- A walk gets to the end of the bytes it is to cover, or it ends in an error. -/
theorem readRuns_progress {clusterSizeBits max : Nat} {total2 : Int} (more2 : 0 ≤ total2)
    (clusters : 9 ≤ clusterSizeBits) {runs : List Run} (long : ∀ run ∈ runs, 0 < run.length)
    {w : Walk} (covers : w.count ≤ (clusterCount runs * 2 ^ clusterSizeBits : Nat)) {ret : Int}
    {table : List Section}
    (walk : readRuns clusterSizeBits max total2 runs 0 w = some (ret, table))
    (room : table.length < max) : w.total + w.count ≤ ret ∨ ret ≤ 0 := by
  have sector : 512 ∣ 2 ^ clusterSizeBits := pow_dvd_pow 2 clusters
  induction runs generalizing w with
  | nil =>
    have none' : w.count ≤ 0 := by simpa [clusterCount] using covers
    rw [readRuns] at walk
    split at walk
    · cases walk
      omega
    · cases walk
      split <;> omega
  | cons run rest ih =>
    have long' := long run List.mem_cons_self
    rw [clusterCount_cons] at covers
    obtain ⟨k, hk⟩ : 512 ∣ run.length * 2 ^ clusterSizeBits := sector.mul_left _
    have positive : 0 < run.length * 2 ^ clusterSizeBits :=
      Nat.mul_pos long' (Nat.pow_pos (by decide))
    have ih' : ∀ {w : Walk}, _ := fun {w} => ih (w := w) fun r hr =>
      long r (List.mem_cons_of_mem run hr)
    by_cases stops : w.count = 0 ∨ max ≤ w.table.length
    · rw [readRuns, if_pos stops] at walk
      cases walk
      omega
    · rw [not_or, not_le] at stops
      obtain ⟨more, here⟩ := stops
      cases place : run.lcn with
      | none =>
        rw [readRuns_hole more here long' place rfl] at walk
        obtain ⟨w', added, next⟩ := Option.bind_eq_some_iff.mp walk
        obtain ⟨total, count⟩ := hole_counts added
        have := ih' (by dsimp only; omega) next
        dsimp only at this
        omega
      | some lcn =>
        obtain ⟨br, taken⟩ : ∃ br, br = min w.count (run.length * 2 ^ clusterSizeBits : Nat) :=
          ⟨_, rfl⟩
        obtain ⟨toRead, rounded⟩ : ∃ toRead,
            toRead = if br % 512 ≠ 0 then br + 512 - br.tmod 512 else br := ⟨_, rfl⟩
        rw [readRuns_sectors more here long' place taken rounded] at walk
        obtain ⟨w', added, next⟩ := Option.bind_eq_some_iff.mp walk
        obtain ⟨total, count⟩ := sectors_counts added
        by_cases whole : br = toRead
        · simp only [if_pos whole] at next
          by_cases moved : br > 0
          · rw [if_pos moved] at next
            have := ih' (by dsimp only; omega) next
            dsimp only at this
            omega
          · rw [if_neg moved] at next
            have := ih' (by omega) next
            omega
        · have inside : br = w.count := by
            by_contra other
            have sectors : br % 512 = 0 := by omega
            rw [if_neg (not_not.mpr sectors)] at rounded
            exact whole rounded.symm
          simp only [if_neg whole] at next
          by_cases moved : br > 0
          · rw [if_pos moved] at next
            cases next
            dsimp only
            split <;> omega
          · rw [if_neg moved] at next
            cases next
            split <;> omega

/-! ## The file -/

/-- A non-resident attribute whose runlist is mapped from the first to the last
byte, on a volume with clusters of whole sectors. -/
structure Attr.Mapped (na : Attr) : Prop where
  clusters : 9 ≤ na.clusterSizeBits
  long : ∀ run ∈ na.runs, 0 < run.length
  covers : na.dataSize ≤ clusterCount na.runs * 2 ^ na.clusterSizeBits
  init : na.initializedSize ≤ na.dataSize

section File
variable {na : Attr} {sizeBehind : Nat → UInt32} {max : Nat}

theorem fileLoop_stop {fuel pos len : Nat} {table : List Section}
    (stops : len = 0 ∨ max ≤ table.length) :
    fileLoop na sizeBehind max fuel pos len table = some (some table) := by
  cases fuel with
  | zero => rw [fileLoop, if_pos stops]
  | succ fuel => rw [fileLoop, if_pos stops]

/-- The table of the loop; with `phys` every start is moved, a hole's too. -/
theorem ntfsFileToSectors_loop {startSector : UInt32} {phys : Bool} {table : List Section}
    (done : ntfsFileToSectors na startSector sizeBehind max phys = some (some table)) :
    ∃ table', fileLoop na sizeBehind max na.dataSize 0 na.dataSize [] = some (some table') ∧
      table = if phys then table'.map (fun s => { s with start := s.start + startSector })
        else table' := by
  obtain ⟨result, loop, same⟩ := Option.map_eq_some_iff.mp done
  obtain ⟨table', rfl, rfl⟩ := Option.map_eq_some_iff.mp same
  exact ⟨table', loop, rfl⟩

/-- Behind the initialized bytes the rest of the file is passed over. -/
theorem fileLoop_behind {fuel pos len : Nat} {table table' : List Section}
    (behind : na.initializedSize ≤ pos) (inside : pos + len ≤ na.dataSize)
    (done : fileLoop na sizeBehind max fuel pos len table = some (some table')) :
    table' = table := by
  by_cases stops : len = 0 ∨ max ≤ table.length
  · rw [fileLoop_stop stops] at done
    cases done
    rfl
  · cases fuel with
    | zero =>
      rw [fileLoop, if_neg stops] at done
      cases done
    | succ fuel =>
      have rest : ntfsAttrToSectors na sizeBehind max pos len table =
          some ((len : Int), table) := by
        have all : (if pos + len > na.dataSize then na.dataSize - pos else len) = len :=
          if_neg (by omega)
        rw [ntfsAttrToSectors, if_neg (by omega), if_neg (by omega), if_neg (by omega)]
        simp only [all]
        rw [if_pos (by omega)]
      rw [fileLoop, if_neg stops, rest, Option.bind_some] at done
      simp only at done
      have zero : len - (len : Int).toNat = 0 := by omega
      rw [if_neg (by omega), fileLoop_stop (Or.inl zero)] at done
      cases done
      rfl

theorem findVcn_first {runs : List Run} (long : ∀ run ∈ runs, 0 < run.length) (some' : runs ≠ []) :
    findVcn 0 runs 0 = some (0, runs) := by
  cases runs with
  | nil => exact absurd rfl some'
  | cons run rest =>
    have := long run List.mem_cons_self
    rw [findVcn, if_neg (by omega), if_pos (by omega)]

/-- The first turn walks from the first byte to the last initialized one. -/
theorem ntfsAttrToSectors_first (mapped : na.Mapped) (room : 0 < max)
    (some' : 0 < na.initializedSize) :
    ntfsAttrToSectors na sizeBehind max 0 na.dataSize [] =
      readRuns na.clusterSizeBits max (na.dataSize - na.initializedSize : Nat) na.runs 0
        ⟨[], holeSector, 0, na.initializedSize⟩ := by
  have init := mapped.init
  have covers := mapped.covers
  have runs : na.runs ≠ [] := by
    intro blank
    rw [blank, clusterCount, List.map_nil, List.sum_nil, Nat.zero_mul] at covers
    omega
  have all : (if 0 + na.dataSize > na.dataSize then na.dataSize - 0 else na.dataSize) =
      na.dataSize := if_neg (by omega)
  have count : na.dataSize - (na.dataSize - na.initializedSize) = na.initializedSize := by omega
  rw [ntfsAttrToSectors, List.length_nil, if_neg (by omega), if_neg (by omega), if_neg (by omega)]
  simp only [all]
  rw [if_neg (by omega), Nat.zero_div, findVcn_first mapped.long runs]
  simp only [Nat.zero_add, Nat.zero_mul, Nat.sub_zero, count]
  rfl

/-- The table of a file comes from one walk over the initialized bytes. -/
theorem fileLoop_walk (mapped : na.Mapped) {table : List Section}
    (done : fileLoop na sizeBehind max na.dataSize 0 na.dataSize [] = some (some table))
    (room : table.length < max) :
    (na.initializedSize = 0 ∧ table = []) ∨
      0 < na.initializedSize ∧ ∃ ret : Int,
        readRuns na.clusterSizeBits max (na.dataSize - na.initializedSize : Nat) na.runs 0
          ⟨[], holeSector, 0, na.initializedSize⟩ = some (ret, table) ∧
        0 < ret ∧ ret ≤ na.dataSize := by
  have init := mapped.init
  by_cases blank : na.initializedSize = 0
  · left
    exact ⟨blank, fileLoop_behind (by omega) (by omega) done⟩
  · right
    have some' := Nat.pos_of_ne_zero blank
    refine ⟨some', ?_⟩
    obtain ⟨fuel, hfuel⟩ : ∃ fuel, na.dataSize = fuel + 1 := ⟨na.dataSize - 1, by omega⟩
    have turn := done
    rw [show fileLoop na sizeBehind max na.dataSize = fileLoop na sizeBehind max (fuel + 1) by
        rw [hfuel], fileLoop, if_neg (by
        rw [List.length_nil, not_or]
        omega), ntfsAttrToSectors_first mapped (by omega) some'] at turn
    obtain ⟨⟨ret, table'⟩, walk, turn⟩ := Option.bind_eq_some_iff.mp turn
    simp only at turn
    by_cases error : ret ≤ 0 ∨ ret > na.dataSize
    · rw [if_pos error] at turn
      cases turn
    · rw [if_neg error] at turn
      rw [not_or, not_le, not_lt] at error
      have same : table = table' := by
        by_cases full : max ≤ table'.length
        · rw [fileLoop_stop (Or.inr full)] at turn
          cases turn
          rfl
        · have covers := mapped.covers
          have forward := readRuns_progress (by omega) mapped.clusters mapped.long
            (by dsimp only; omega) walk (by omega)
          dsimp only at forward
          exact fileLoop_behind (by omega) (by omega) turn
      rw [same]
      exact ⟨ret, walk, error⟩

end File

end RunlistSectors
