import NtfsIsoMounter.IsoReads
import NtfsIsoMounter.ExtentOrder

/-!
# Reading a file through its sectors

The table of a file, moved to the start of its partition, is what the plugin reads
the file through. Moving it adds the start sector to every entry, to that of a hole
too, and the plugin takes an entry for a hole that carries the mark after the move.
-/

namespace MountedFiles

open ByteMaps SectionTables IsoReads RunlistSectors ExtentOrder

/-- A byte of a sector of the device; the sector of a hole has zeros. -/
def sectorByte (d : Storage) (sector : Option Nat) (k : Nat) : UInt8 :=
  match sector with
  | none => 0
  | some p => d.data p k

/-- Where sector `j` of a file lies on its partition, `none` in a hole. -/
def fileSector (na : Attr) (j : Nat) : Option Nat :=
  (fileSectors (Attr.clusterSectors na) na.runs)[j]?.join

/-- Byte `k` of a file on the partition that begins at `startSector`. -/
def fileByte (d : Storage) (na : Attr) (startSector : UInt32) (k : Nat) : UInt8 :=
  sectorByte d ((fileSector na (k / 512)).map (startSector.toNat + ·)) (k % 512)

/-- Every call of the device succeeds. -/
def Succeeds (d : Storage) : Prop := ∀ k sector n, (d.reply k sector n).full n = true

/-- Reading through the table agrees with reading the file, whatever the device holds. -/
def Mounts (na : Attr) (startSector : UInt32) (table : List Section) : Prop :=
  ∀ d, Succeeds d → ∀ io buf offset size, size < 2 ^ 32 → offset + size ≤ na.initializedSize →
    ∃ io', processReadIsoCmd d table io buf offset size = some (0, io') ∧
      io'.mem = fill io.mem buf size (fun k => fileByte d na startSector (offset + k))

/-! ## The image of a table -/

theorem entrySectors_length (s : Section) : (entrySectors s).length = s.size.toNat := by
  rw [entrySectors]
  split
  · exact List.length_replicate
  · rw [volumeSectors, List.length_map, List.length_range]

theorem expand_cons (s : Section) (rest : List Section) :
    expand (s :: rest) = entrySectors s ++ expand rest := List.flatMap_cons

theorem imageSize_expand (table : List Section) :
    imageSize table = (expand table).length * 512 := by
  induction table with
  | nil => rfl
  | cons s rest ih =>
    rw [imageSize_cons, expand_cons, List.length_append, entrySectors_length, ih, Section.bytes,
      Nat.add_mul]

theorem extentByte_sector (d : Storage) (s : Section) {j : Nat} (inside : j < s.size.toNat)
    {b : Nat}
    (small : b < 512) :
    extentByte d s (512 * j + b) = sectorByte d (entrySectors s)[j]?.join b := by
  have quotient : (512 * j + b) / 512 = j := by omega
  have remainder : (512 * j + b) % 512 = b := by omega
  rw [extentByte, entrySectors]
  split
  · rw [List.getElem?_replicate, if_pos inside]
    rfl
  · rw [Storage.from, quotient, remainder, volumeSectors, List.getElem?_map,
      List.getElem?_range inside]
    rfl

/-- The image has the bytes of the sectors the table expands to. -/
theorem image_expand (d : Storage) (table : List Section) (j : Nat) {b : Nat} (small : b < 512) :
    image d table (512 * j + b) = sectorByte d (expand table)[j]?.join b := by
  induction table generalizing j with
  | nil => rfl
  | cons s rest ih =>
    rw [expand_cons]
    by_cases inside : j < s.size.toNat
    · have here := image_in_section d [] rest s (k := 512 * j + b) (by
        rw [Section.bytes]
        omega)
      rw [imageSize_nil, Nat.zero_add, List.nil_append] at here
      rw [here, extentByte_sector d s inside small, List.getElem?_append_left (by
        rwa [entrySectors_length])]
    · obtain ⟨i, rfl⟩ := Nat.exists_eq_add_of_le (not_lt.mp inside)
      have split : 512 * (s.size.toNat + i) + b = s.bytes + (512 * i + b) := by
        rw [Section.bytes]
        omega
      have behind : image d (s :: rest) (s.bytes + (512 * i + b)) = image d rest (512 * i + b) :=
        SegmentConcat.concat_tail 0 ⟨s.bytes, extentByte d s⟩ (extents d rest) _
      rw [split, behind, ih, List.getElem?_append_right (by
        rw [entrySectors_length]
        omega), entrySectors_length, Nat.add_sub_cancel_left]

/-! ## Moving a table -/

def relocate (startSector : UInt32) (s : Section) : Section :=
  { s with start := s.start + startSector }

/-- An entry that means after the move what it meant before. -/
def Moves (startSector : UInt32) (s : Section) : Prop :=
  if s.IsHole then startSector = 0
  else startSector.toNat + s.start.toNat + s.size.toNat ≤ 2 ^ 32 ∧
    startSector.toNat + s.start.toNat ≠ 2 ^ 32 - 1

section Relocate
variable {startSector : UInt32}

theorem relocate_file {s : Section} (some' : 0 < s.size.toNat) (file : ¬ s.IsHole)
    (moves : Moves startSector s) :
    (relocate startSector s).start.toNat = startSector.toNat + s.start.toNat ∧
      ¬ (relocate startSector s).IsHole ∧ (relocate startSector s).Fits := by
  rw [Moves, if_neg file] at moves
  have start : (relocate startSector s).start.toNat = startSector.toNat + s.start.toNat := by
    rw [relocate, UInt32.toNat_add]
    omega
  refine ⟨start, ?_, ?_⟩
  · intro hole
    have mark := congrArg UInt32.toNat hole
    rw [start] at mark
    exact moves.2 mark
  · rw [Section.Fits, start]
    exact moves.1

theorem relocate_hole {s : Section} (hole : s.IsHole) (moves : Moves startSector s) :
    relocate startSector s = s := by
  rw [Moves, if_pos hole] at moves
  rw [relocate, moves, UInt32.add_zero]

theorem relocate_fits {s : Section} (some' : 0 < s.size.toNat) (moves : Moves startSector s) :
    (relocate startSector s).IsHole ∨ (relocate startSector s).Fits := by
  by_cases hole : s.IsHole
  · left
    rw [relocate_hole hole moves]
    exact hole
  · right
    exact (relocate_file some' hole moves).2.2

theorem entrySectors_relocate {s : Section} (some' : 0 < s.size.toNat)
    (moves : Moves startSector s) :
    entrySectors (relocate startSector s) =
      (entrySectors s).map (Option.map (startSector.toNat + ·)) := by
  by_cases hole : s.IsHole
  · rw [relocate_hole hole moves, entrySectors, if_pos hole, List.map_replicate]
    rfl
  · obtain ⟨start, file, -⟩ := relocate_file some' hole moves
    rw [entrySectors, entrySectors, if_neg file, if_neg hole, start, volumeSectors, volumeSectors,
      List.map_map]
    apply List.map_congr_left
    intro k _
    exact congrArg some (Nat.add_assoc _ _ _)

theorem expand_relocate {table : List Section} (sizes : ∀ s ∈ table, 0 < s.size.toNat)
    (moves : ∀ s ∈ table, Moves startSector s) :
    expand (table.map (relocate startSector)) =
      (expand table).map (Option.map (startSector.toNat + ·)) := by
  induction table with
  | nil => rfl
  | cons s rest ih =>
    rw [List.map_cons, expand_cons, expand_cons, List.map_append,
      entrySectors_relocate (sizes s List.mem_cons_self) (moves s List.mem_cons_self),
      ih (fun t ht => sizes t (List.mem_cons_of_mem s ht))
        fun t ht => moves t (List.mem_cons_of_mem s ht)]

theorem expand_relocate_length (startSector : UInt32) (table : List Section) :
    (expand (table.map (relocate startSector))).length = (expand table).length := by
  induction table with
  | nil => rfl
  | cons s rest ih =>
    rw [List.map_cons, expand_cons, expand_cons, List.length_append, List.length_append,
      entrySectors_length, entrySectors_length, ih]
    rfl

end Relocate

/-! ## Reads that stay in the front of a table -/

section Reads
variable {d : Storage}

/-- The section an offset lies in is found, whatever follows it. -/
theorem getNextRead_here (pre rest : List Section) (s : Section) (off n : Nat)
    (low : imageSize pre ≤ off) (high : off < imageSize pre + s.bytes)
    (small : off + 2 ^ 41 ≤ 2 ^ 64) :
    getNextRead (pre ++ s :: rest) off n =
      ⟨some (pre.length, s), off - imageSize pre, min n (imageSize pre + s.bytes - off)⟩ := by
  have last : u64 (imageSize pre + s.bytes) = imageSize pre + s.bytes := by
    have := s.bytes_lt
    exact Nat.mod_eq_of_lt (by omega)
  rw [getNextRead, nextReadFrom_skip _ _ pre _ 0 0 (by omega) (by omega), Nat.zero_add,
    Nat.zero_add, nextReadFrom]
  simp only [last]
  rw [if_pos ⟨low, high⟩]
  congr 1
  split <;> omega

theorem getNextRead_front (front back : List Section) {off : Nat} (n : Nat)
    (inside : off < imageSize front) (small : off + 2 ^ 41 ≤ 2 ^ 64) :
    getNextRead (front ++ back) off n = getNextRead front off n := by
  rcases section_at front 0 off (Nat.zero_le _) with ⟨pre, s, rest, rfl, low, high⟩ | past
  · rw [Nat.zero_add] at low high
    rw [List.append_assoc, List.cons_append, getNextRead_here _ _ _ _ _ low high small,
      getNextRead_here _ _ _ _ _ low high small]
  · omega

/-- A request that ends inside the front of a table is served from the front. -/
theorem readLoop_front {front : List Section} (back : List Section)
    (fit : ∀ s ∈ front, s.IsHole ∨ s.Fits) (fuel : Nat) (c : Cursor)
    (inside : c.offset + c.remaining ≤ imageSize front) (few : c.remaining < 2 ^ 32)
    (small : c.offset + c.remaining + 2 ^ 41 ≤ 2 ^ 64) :
    readLoop d (front ++ back) fuel c = readLoop d front fuel c := by
  induction fuel generalizing c with
  | zero => rfl
  | succ fuel ih =>
    rw [readLoop, readLoop]
    by_cases some' : 0 < c.remaining
    · have turn := readTurn_spec d fit (c := c) (Or.inr (by omega)) some' few (by omega)
      have same : readTurn d (front ++ back) c = readTurn d front c := by
        rw [readTurn, readTurn, getNextRead_front front back _ (by omega) (by omega)]
      rw [if_pos some', if_pos some', same]
      cases h : readTurn d front c with
      | error io => rfl
      | ok c' =>
        rw [h] at turn
        obtain ⟨n, positive, le, -, offset, remaining, -⟩ := turn
        have offset' : c'.offset = c.offset + n := by
          rw [offset]
          exact Nat.mod_eq_of_lt (by omega)
        exact ih c' (by omega) (by omega) (by omega)
    · rw [if_neg some', if_neg some']

/-- A request for the first byte of a sector makes one call, or none in a hole. -/
theorem processReadIsoCmd_byte (ok : Succeeds d) (pre rest : List Section) (s : Section) {q : Nat}
    (inside : q < s.size.toNat) (small : imageSize pre + 512 * q + 2 ^ 41 ≤ 2 ^ 64) (io : Io)
    (buf : Nat) :
    ∃ io', processReadIsoCmd d (pre ++ s :: rest) io buf (imageSize pre + 512 * q) 1 =
      some (0, io') ∧
      io'.mem = fill io.mem buf 1 (fun _ =>
        if s.IsHole then 0 else d.data (u32 (s.start.toNat + q)) 0) := by
  have next := getNextRead_here pre rest s (imageSize pre + 512 * q) 1 (by omega)
    (by rw [Section.bytes]; omega) small
  have one : min 1 (imageSize pre + s.bytes - (imageSize pre + 512 * q)) = 1 := by
    rw [Section.bytes]
    omega
  have pos : imageSize pre + 512 * q - imageSize pre = 512 * q := by omega
  rw [one, pos] at next
  have aligned : 512 * q % 512 = 0 := by omega
  have sector : 512 * q / 512 = q := by omega
  have zero : u32 (1 / 512) = 0 := rfl
  rw [processReadIsoCmd, readLoop, if_pos Nat.one_pos]
  by_cases hole : s.IsHole
  · refine ⟨io.store buf 1 (fun _ => 0), ?_, ?_⟩
    · simp only [readTurn, next, if_pos hole, Cursor.copy, readLoop]
      rfl
    · simp only [if_pos hole]
      rfl
  · have full := ok io.calls.length (u32 (s.start.toNat + q)) 1
    refine ⟨(Io.call d io pre.length (u32 (s.start.toNat + q)) 1).2.store buf 1
      (d.from (u32 (s.start.toNat + q))), ?_, ?_⟩
    · simp only [readTurn, next, if_neg hole, readHead, readBulk, readTail, aligned, sector, zero,
        if_true, bind, Except.bind, if_neg (show ¬ (1 : Nat) = 0 by decide), Io.call, full,
        Cursor.copy, readLoop]
      rfl
    · simp only [if_neg hole]
      apply fill_congr
      intro k hk
      have first : k = 0 := by omega
      rw [first]
      rfl

end Reads

/-! ## Tables without gaps or overlaps -/

/-- The second entry does not go on where the first one ends. -/
def Apart (a b : Section) : Prop := ¬ a.IsHole → a.start.toNat + a.size.toNat ≠ b.start.toNat

structure Tidy (table : List Section) : Prop where
  sizes : ∀ s ∈ table, 0 < s.size.toNat
  low : ∀ s ∈ table, ¬ s.IsHole → s.start.toNat + s.size.toNat < holeSector
  apart : table.IsChain Apart

theorem Tidy.nil : Tidy [] := ⟨nofun, nofun, .nil⟩

/-- A new entry that does not go on where the last one ends. -/
theorem Tidy.concat {table : List Section} (tidy : Tidy table) {s : Section}
    (some' : 0 < s.size.toNat) (low : ¬ s.IsHole → s.start.toNat + s.size.toNat < holeSector)
    (apart : ∀ a ∈ table.getLast?, Apart a s) : Tidy (table ++ [s]) := by
  constructor
  · intro t ht
    rcases List.mem_append.mp ht with ht | ht
    · exact tidy.sizes t ht
    · rwa [List.mem_singleton.mp ht]
  · intro t ht
    rcases List.mem_append.mp ht with ht | ht
    · exact tidy.low t ht
    · rwa [List.mem_singleton.mp ht]
  · refine List.isChain_append.mpr ⟨tidy.apart, .singleton s, ?_⟩
    intro a ha b hb
    rw [List.head?_cons, Option.mem_some_iff] at hb
    rw [← hb]
    exact apart a ha

theorem Tidy.front {front : List Section} {s : Section} (tidy : Tidy (front ++ [s])) : Tidy front :=
  ⟨fun t ht => tidy.sizes t (List.mem_append_left _ ht),
    fun t ht => tidy.low t (List.mem_append_left _ ht), (List.isChain_append.mp tidy.apart).1⟩

/-- The last entry may get another size. -/
theorem Tidy.resize {front : List Section} {s : Section} (tidy : Tidy (front ++ [s]))
    (size : UInt32)
    (some' : 0 < size.toNat) (low : ¬ s.IsHole → s.start.toNat + size.toNat < holeSector) :
    Tidy (front ++ [{ s with size := size }]) := by
  refine tidy.front.concat some' low ?_
  intro a ha
  exact (List.isChain_append.mp tidy.apart).2.2 a ha s rfl

section Steps
variable {F : List (Option Nat)} {g : Nat} {w w' : Walk}

/-- Entering sectors of a hole. -/
theorem Tidy.hole (tidy : Tidy w.table) (tracks : Tracks F g w.table w.prev) {n : Nat}
    (some' : 0 < n) (fits : g + n < 2 ^ 32) (added : w.hole n = some w') : Tidy w'.table := by
  have stored : (toU32 n).toNat = n := by
    rw [toU32_natCast]
    exact Nat.mod_eq_of_lt (by omega)
  obtain ⟨table, prev, total, count⟩ := w
  dsimp only at tidy tracks
  cases tracks with
  | empty =>
    rw [Walk.hole, if_pos rfl] at added
    cases added
    refine Tidy.nil.concat ?_ (fun file => absurd rfl file) ?_
    · dsimp only
      omega
    · intro a last
      exact absurd last (Option.not_mem_none a)
  | @file front s file low =>
    rw [Walk.hole, if_neg (List.concat_ne_nil s front), if_neg low.ne] at added
    cases added
    refine tidy.concat ?_ (fun file => absurd rfl file) ?_
    · dsimp only
      omega
    · intro a ha _
      rw [List.getLast?_concat, Option.mem_some_iff] at ha
      rw [← ha]
      exact low.ne
  | @hole front s g hole size =>
    rw [Walk.hole, if_neg (List.concat_ne_nil s front), if_pos rfl, growLast_append] at added
    cases added
    refine tidy.resize _ ?_ fun file => absurd hole file
    have cast : ((s.size.toNat : Int) + n) = ((s.size.toNat + n : Nat) : Int) := by omega
    rw [cast, toU32_natCast]
    omega

/-- Entering sectors of the volume. -/
theorem Tidy.sectors (tidy : Tidy w.table) (tracks : Tracks F g w.table w.prev) {cur n : Nat}
    (some' : 0 < n) (low : cur + n < holeSector) (added : w.sectors cur n = some w') :
    Tidy w'.table := by
  obtain ⟨file, start, size⟩ := newEntry low some'
  obtain ⟨table, prev, total, count⟩ := w
  dsimp only at tidy tracks
  by_cases follows : prev = cur
  · rw [Walk.sectors, if_pos follows] at added
    cases tracks with
    | empty => omega
    | hole hole size => omega
    | @file front s old low' =>
      rw [growLast_append] at added
      cases added
      have cast : ((s.size.toNat : Int) + n) = ((s.size.toNat + n : Nat) : Int) := by omega
      have grown : (toU32 ((s.size.toNat : Int) + n)).toNat = s.size.toNat + n := by
        simp only [holeSector] at low
        rw [cast, toU32_natCast]
        exact Nat.mod_eq_of_lt (by omega)
      refine tidy.resize _ ?_ fun _ => ?_
      · rw [grown]
        omega
      · rw [grown]
        omega
  · rw [Walk.sectors, if_neg follows] at added
    cases added
    refine tidy.concat ?_ (fun _ => ?_) ?_
    · dsimp only
      omega
    · dsimp only
      omega
    · intro a ha file'
      dsimp only
      rw [start]
      cases tracks with
      | empty => cases ha
      | @file front s old low' =>
        rw [List.getLast?_concat, Option.mem_some_iff] at ha
        rwa [← ha]
      | @hole front s g hole size =>
        rw [List.getLast?_concat, Option.mem_some_iff] at ha
        rw [← ha] at file'
        exact absurd hole file'

end Steps

/-! ## The initialized bytes in a table -/

/-- The holes in a row at the start of a runlist. -/
def holesAhead : List Run → Nat
  | [] => 0
  | run :: rest => if run.lcn = none then holesAhead rest + 1 else 0

/-- No stretch of holes the walk stores reaches 2^32 sectors, `g` being the sectors of
the present one and `left` the bytes to go. -/
def HolesFit (spc : Nat) : Nat → Nat → List Run → Prop
  | _, _, [] => True
  | g, left, run :: rest =>
    left = 0 ∨
      match run.lcn with
      | some _ => HolesFit spc 0 (left - run.length * spc * 512) rest
      | none =>
        if left < 512 then g + 1 + holesAhead rest < 2 ^ 32
        else g + min left (run.length * spc * 512) / 512 < 2 ^ 32 ∧
          HolesFit spc (g + min left (run.length * spc * 512) / 512)
            (left - run.length * spc * 512) rest

/-- The first `n` sectors of a file are those of the front of a table; what is behind
it comes after them. -/
structure InFront (table front back : List Section) (sectors : List (Option Nat)) (n : Nat) :
    Prop where
  split : table = front ++ back
  tidy : Tidy front
  agree : ∀ j < n, (expand front)[j]?.join = sectors[j]?.join
  reach : back = [] ∨ n ≤ (expand front).length
  /-- an entry starts among them, and ends there unless it is a hole -/
  needed : ∀ pre s post, front = pre ++ s :: post →
    (expand pre).length < n ∧ (¬ s.IsHole → (expand pre).length + s.size.toNat ≤ n)
  /-- where one of them is in a hole, the table has a hole -/
  holes : ∀ j < n, sectors[j]?.join = none →
    ∃ i < n, i < (expand front).length ∧ sectors[i]?.join = none

theorem Tracks.entries {F : List (Option Nat)} {g : Nat} {table : List Section} {prev : Nat}
    (tracks : Tracks F g table prev) (small : g < 2 ^ 32) {pre post : List Section} {s : Section}
    (split : table = pre ++ s :: post) :
    (expand pre).length + s.size.toNat ≤ F.length ∨
      s.IsHole ∧ (expand pre).length = F.length ∧ s.size.toNat = g := by
  cases tracks with
  | empty =>
    have length := congrArg List.length split
    simp at length
  | file =>
    left
    rw [split, expand_append, expand_cons, List.length_append, List.length_append,
      entrySectors_length]
    omega
  | @hole front t g hole size =>
    rcases List.eq_nil_or_concat' post with rfl | ⟨post', last, rfl⟩
    · obtain ⟨rfl, same⟩ := List.append_inj' split rfl
      cases same
      right
      exact ⟨hole, rfl, by rw [size]; exact Nat.mod_eq_of_lt small⟩
    · left
      have regroup : pre ++ s :: (post' ++ [last]) = (pre ++ s :: post') ++ [last] := by simp
      obtain ⟨same, -⟩ := List.append_inj' (split.trans regroup) rfl
      rw [same, expand_append, expand_cons, List.length_append, List.length_append,
        entrySectors_length]
      omega

/-- Where the walk ends. The table has the sectors of `F` and a stretch of `g` holes,
and the last sector needed lies in that stretch, or just behind it. -/
theorem inFront_of_tracks {F X : List (Option Nat)} {g k n prev : Nat} {front : List Section}
    (tracks : Tracks F g front prev) (small : g < 2 ^ 32) (tidy : Tidy front) (back : List Section)
    (low : F.length ≤ n ∧ (0 < g → F.length < n)) (high : n ≤ F.length + k)
    (reach : n ≤ F.length + g ∨ 0 < g ∧ back = []) :
    InFront (front ++ back) front back (F ++ List.replicate k none ++ X) n := by
  have table : expand front = F ++ List.replicate g none := by
    rw [tracks.expand_table, Nat.mod_eq_of_lt small]
  have length : (expand front).length = F.length + g := by
    rw [table, List.length_append, List.length_replicate]
  have hole (j : Nat) (here : F.length ≤ j) (inside : j < n) :
      (F ++ List.replicate k none ++ X)[j]?.join = none := by
    rw [List.append_assoc, List.getElem?_append_right here, List.getElem?_append_left (by
      rw [List.length_replicate]
      omega), List.getElem?_replicate, if_pos (by omega)]
    rfl
  refine ⟨rfl, tidy, ?_, ?_, ?_, ?_⟩
  · intro j inside
    by_cases here : j < F.length
    · rw [table, List.append_assoc, List.getElem?_append_left here, List.getElem?_append_left here]
    · rw [hole j (not_lt.mp here) inside, table, List.getElem?_append_right (not_lt.mp here),
        List.getElem?_replicate]
      split
      · rfl
      · rfl
  · rcases reach with reach | ⟨-, rfl⟩
    · right
      rwa [length]
    · exact Or.inl rfl
  · intro pre s post split
    have some' := tidy.sizes s (by
      rw [split]
      exact List.mem_append_right _ List.mem_cons_self)
    rcases Tracks.entries tracks small split with before | ⟨isHole, base, size⟩
    · exact ⟨by omega, fun _ => by omega⟩
    · exact ⟨by omega, fun file => absurd isHole file⟩
  · intro j inside none'
    by_cases here : j < (expand front).length
    · exact ⟨j, inside, here, none'⟩
    · have some' : 0 < g := by omega
      exact ⟨F.length, low.2 some', by omega, hole F.length le_rfl (low.2 some')⟩

/-- Where it ends with nothing behind what was needed. -/
theorem inFront_end {F : List (Option Nat)} {g k n prev : Nat} {table : List Section}
    (tracks : Tracks F g table prev) (small : g < 2 ^ 32) (tidy : Tidy table)
    (low : F.length ≤ n ∧ (0 < g → F.length < n)) (high : n ≤ F.length + k)
    (reach : n ≤ F.length + g ∨ 0 < g) (X : List (Option Nat)) :
    ∃ front back, InFront table front back (F ++ List.replicate k none ++ X) n := by
  refine ⟨table, [], ?_⟩
  have here := inFront_of_tracks (X := X) tracks small tidy [] low high
    (reach.imp_right fun some' => ⟨some', rfl⟩)
  rwa [List.append_nil] at here

section Walk
variable {clusterSizeBits spc max : Nat} {total2 : Int}
variable (clusters : 2 ^ clusterSizeBits = spc * 512)
include clusters

/-- Behind a hole whose first sector was rounded up the stretch of holes grows, and
at most one entry follows it. -/
theorem readRuns_tailFront (runs : List Run) (below : Below spc runs) {F : List (Option Nat)}
    {g h r : Nat} {w : Walk} (tracks : Tracks F g w.table w.prev) (tidy : Tidy w.table)
    (after : w.prev = holeSector) (inside : 0 < r ∧ r < 512)
    (left : w.count = (r : Int) - 512 * (h + 1)) (fits : g + holesAhead runs < 2 ^ 32) {ret : Int}
    {table : List Section}
    (walk : readRuns clusterSizeBits max total2 runs 0 w = some (ret, table))
    (room : table.length < max) :
    ∃ front back G prev, table = front ++ back ∧ Tracks F G front prev ∧ Tidy front ∧ g ≤ G ∧
      G < 2 ^ 32 := by
  induction runs generalizing g h w with
  | nil =>
    exact ⟨w.table, [], g, _, by rw [readRuns_nil walk, List.append_nil], tracks, tidy, le_rfl,
      fits⟩
  | cons run rest ih =>
    by_cases full : max ≤ w.table.length
    · rw [readRuns_full _ _ full] at walk
      cases walk
      exact absurd room (by omega)
    · obtain ⟨long, low⟩ := below run List.mem_cons_self
      rw [holesAhead] at fits
      cases place : run.lcn with
      | none =>
        rw [if_pos place] at fits
        obtain ⟨table', added, tracks', step⟩ := round_step long (by omega)
          (not_le.mp full) total2 rest tracks place (by omega)
        rw [step] at walk
        have tidy' := tidy.hole tracks Nat.one_pos (by omega) added
        obtain ⟨front, back, G, prev, split, tracks'', tidy'', le, small⟩ :=
          ih below.tail (h := h + 1) (w := ⟨table', holeSector, w.total + 512, w.count - 512⟩)
            tracks'
            tidy' rfl (by dsimp only; push_cast; omega) (by omega) walk
        exact ⟨front, back, G, prev, split, tracks'', tidy'', by omega, small⟩
      | some lcn =>
        have ends := negative_step clusters long (by omega) (not_le.mp full) place (low lcn place)
          after inside left walk
        exact ⟨w.table, _, g, _, ends, tracks, tidy, le_rfl, by omega⟩

/-- The walk with `left` bytes to go enters the sectors they need. -/
theorem readRuns_inFront (runs : List Run) (below : Below spc runs) {F : List (Option Nat)}
    {g left : Nat} {w : Walk} (tracks : Tracks F g w.table w.prev) (tidy : Tidy w.table)
    (small : g < 2 ^ 32) (count : w.count = (left : Int))
    (covers : left ≤ clusterCount runs * (spc * 512)) (fits : HolesFit spc g left runs) {ret : Int}
    {table : List Section}
    (walk : readRuns clusterSizeBits max total2 runs 0 w = some (ret, table))
    (room : table.length < max) :
    ∃ front back, InFront table front back (F ++ List.replicate g none ++ fileSectors spc runs)
      (F.length + g + (left + 511) / 512) := by
  have positive := spc_pos clusters
  induction runs generalizing F g left w with
  | nil =>
    have none' : left = 0 := by simpa [clusterCount] using covers
    rw [readRuns_done _ _ (by omega)] at walk
    cases walk
    exact inFront_end tracks small tidy (by omega) (by omega) (Or.inl (by omega)) []
  | cons run rest ih =>
    obtain ⟨long, low⟩ := below run List.mem_cons_self
    by_cases stops : left = 0 ∨ max ≤ w.table.length
    · rw [readRuns, if_pos (by omega)] at walk
      cases walk
      have done := stops.resolve_right (by omega)
      exact inFront_end tracks small tidy (by omega) (by omega) (Or.inl (by omega)) _
    · rw [not_or, not_le] at stops
      obtain ⟨more, here⟩ := stops
      rw [clusterCount_cons, ← Nat.mul_assoc] at covers
      rw [HolesFit, or_iff_right more] at fits
      have sectors := Nat.mul_pos long positive
      cases place : run.lcn with
      | none =>
        simp only [place] at fits
        -- the run makes the stretch of holes longer
        have stretch : F ++ List.replicate g none ++ fileSectors spc (run :: rest) =
            F ++ List.replicate (g + run.length * spc) none ++ fileSectors spc rest := by
          rw [fileSectors_cons, runSectors_hole spc place, List.replicate_add g]
          simp only [List.append_assoc]
        rw [stretch]
        by_cases short : left < 512
        · rw [if_pos short] at fits
          obtain ⟨table', added, tracks', step⟩ := round_step long (by omega) here
            total2 rest tracks place (by omega)
          rw [step] at walk
          have tidy' := tidy.hole tracks Nat.one_pos (by omega) added
          obtain ⟨front, back, G, prev, split, tracks'', tidy'', le, few⟩ :=
            readRuns_tailFront clusters rest below.tail (h := 0) (r := left)
              (w := ⟨table', holeSector, w.total + 512, w.count - 512⟩) tracks' tidy' rfl
              ⟨by omega, short⟩ (by dsimp only; push_cast; omega) fits walk room
          refine ⟨front, back, ?_⟩
          rw [split]
          exact inFront_of_tracks tracks'' few tidy'' back (by omega) (by omega) (Or.inl (by omega))
        · rw [if_neg short] at fits
          obtain ⟨fit, fits⟩ := fits
          obtain ⟨table', added, tracks', next⟩ := hole_step clusters long tracks
            count here total2 rest place (not_lt.mp short)
          rw [next] at walk
          have tidy' := tidy.hole tracks (by omega) fit added
          by_cases whole : run.length * spc * 512 ≤ left
          · have taken : min left (run.length * spc * 512) / 512 = run.length * spc := by omega
            rw [taken] at fits tracks' fit
            obtain ⟨front, back, inFront⟩ := ih below.tail
              (w := ⟨table', holeSector, w.total + (min left (run.length * spc * 512) : Nat),
                (left - run.length * spc * 512 : Nat)⟩) tracks' tidy' fit rfl (by omega) fits walk
            refine ⟨front, back, ?_⟩
            have length : F.length + (g + run.length * spc) +
                (left - run.length * spc * 512 + 511) / 512 =
                F.length + g + (left + 511) / 512 := by omega
            rwa [length] at inFront
          · have last : left - run.length * spc * 512 = 0 := by omega
            rw [last, readRuns_done _ _ rfl] at walk
            cases walk
            exact inFront_end tracks' fit tidy' (by omega) (by omega) (Or.inr (by omega)) _
      | some lcn =>
        simp only [place] at fits
        obtain ⟨table', prev, added, tracks', next, last⟩ :=
          file_step clusters long tracks count here
          place (low lcn place) (Nat.pos_of_ne_zero more) walk
        have below' := low lcn place
        rw [Nat.add_mul] at below'
        have tidy' := tidy.sectors tracks (by omega) (by omega) added
        rw [Nat.mod_eq_of_lt small] at tracks'
        have length : (F ++ List.replicate g none ++ volumeSectors (lcn * spc)
            ((min left (run.length * spc * 512) + 511) / 512)).length =
            F.length + g + (min left (run.length * spc * 512) + 511) / 512 := by
          rw [List.length_append, List.length_append, List.length_replicate, volumeSectors,
            List.length_map, List.length_range]
        rw [fileSectors_cons, runSectors_volume spc place]
        by_cases whole : run.length * spc * 512 ≤ left
        · have taken : (min left (run.length * spc * 512) + 511) / 512 = run.length * spc := by
            omega
          rw [taken] at tracks' length
          obtain ⟨front, back, inFront⟩ := ih below.tail
            (w := ⟨table', prev, w.total + (run.length * spc * 512 : Nat),
              (left - run.length * spc * 512 : Nat)⟩) tracks' tidy' (by decide) rfl (by omega) fits
            (next whole)
          refine ⟨front, back, ?_⟩
          have reach : F.length + g + run.length * spc + 0 +
              (left - run.length * spc * 512 + 511) / 512 =
              F.length + g + (left + 511) / 512 := by omega
          rwa [length, reach, List.replicate_zero, List.append_nil, List.append_assoc] at inFront
        · rw [last (not_le.mp whole)]
          have taken : min left (run.length * spc * 512) = left := by omega
          rw [taken] at tracks' length
          obtain ⟨d, hd⟩ := Nat.exists_eq_add_of_le
            (show (left + 511) / 512 ≤ run.length * spc by omega)
          have here := inFront_end (k := 0) (n := F.length + g + (left + 511) / 512) tracks'
            (by decide)
            tidy' (by omega) (by omega) (Or.inl (by omega))
            (volumeSectors (lcn * spc + (left + 511) / 512) d ++ fileSectors spc rest)
          rw [hd, ← volumeSectors_append]
          simpa only [List.append_nil, List.replicate_zero, List.append_assoc] using here

end Walk

/-! ## The entry a sector lies in -/

theorem expand_entry {table : List Section} {j : Nat} (inside : j < (expand table).length) :
    ∃ pre s post q, table = pre ++ s :: post ∧ q < s.size.toNat ∧ j = (expand pre).length + q := by
  induction table generalizing j with
  | nil => cases inside
  | cons s rest ih =>
    by_cases here : j < s.size.toNat
    · exact ⟨[], s, rest, j, rfl, here, (Nat.zero_add j).symm⟩
    · rw [expand_cons, List.length_append, entrySectors_length] at inside
      obtain ⟨pre, t, post, q, rfl, small, at'⟩ := ih (j := j - s.size.toNat) (by omega)
      refine ⟨s :: pre, t, post, q, rfl, small, ?_⟩
      rw [expand_cons, List.length_append, entrySectors_length]
      omega

/-- The sector `q` sectors into an entry. -/
def entrySector (s : Section) (q : Nat) : Option Nat :=
  if s.IsHole then none else some (s.start.toNat + q)

theorem expand_here (pre post : List Section) (s : Section) {q : Nat} (inside : q < s.size.toNat) :
    (expand (pre ++ s :: post))[(expand pre).length + q]?.join = entrySector s q := by
  rw [expand_append, expand_cons, List.getElem?_append_right (Nat.le_add_right _ _),
    Nat.add_sub_cancel_left, List.getElem?_append_left (by rwa [entrySectors_length]), entrySectors,
    entrySector]
  split
  · rw [List.getElem?_replicate, if_pos inside]
    rfl
  · rw [volumeSectors, List.getElem?_map, List.getElem?_range inside]
    rfl

theorem getElem?_map_join (xs : List (Option Nat)) (f : Nat → Nat) (j : Nat) :
    (xs.map (Option.map f))[j]?.join = xs[j]?.join.map f := by
  rw [List.getElem?_map]
  cases xs[j]? with
  | none => rfl
  | some x => rfl

/-! ## Devices -/

section Devices
variable {d : Storage} (ok : Succeeds d)
include ok

theorem readHead_ok (idx start : Nat) (c : Cursor) : ∃ c', readHead d idx start c = .ok c' := by
  rw [readHead]
  split
  · exact ⟨_, rfl⟩
  · have full := ok c.io.calls.length (u32 (start + c.pos / 512)) 1
    simp only [Io.call, full, if_true]
    exact ⟨_, rfl⟩

theorem readBulk_ok (idx start : Nat) (c : Cursor) : ∃ c', readBulk d idx start c = .ok c' := by
  rw [readBulk]
  split
  · exact ⟨_, rfl⟩
  · have full := ok c.io.calls.length (u32 (start + c.pos / 512)) (u32 (c.readsize / 512))
    simp only [Io.call, full, if_true]
    exact ⟨_, rfl⟩

theorem readTail_ok (idx start : Nat) (c : Cursor) : ∃ c', readTail d idx start c = .ok c' := by
  rw [readTail]
  split
  · exact ⟨_, rfl⟩
  · have full := ok c.io.calls.length (u32 (start + c.pos / 512)) 1
    simp only [Io.call, full, if_true]
    exact ⟨_, rfl⟩

theorem readTurn_ok (table : List Section) (c : Cursor) : ∃ c', readTurn d table c = .ok c' := by
  rw [readTurn]
  dsimp only
  split
  · exact ⟨_, rfl⟩
  · split
    · exact ⟨_, rfl⟩
    · rename_i idx s _ _
      obtain ⟨c₁, head⟩ := readHead_ok ok idx s.start.toNat
        { c with
          pos := (getNextRead table c.offset c.remaining).offset
          readsize := (getNextRead table c.offset c.remaining).readsize }
      obtain ⟨c₂, bulk⟩ := readBulk_ok ok idx s.start.toNat c₁
      obtain ⟨c₃, tail⟩ := readTail_ok ok idx s.start.toNat c₂
      refine ⟨c₃, ?_⟩
      rw [head]
      simp only [bind, Except.bind, bulk, tail]

/-- Without a failed call the loop does not return -1. -/
theorem readLoop_ok {table : List Section} {fuel : Nat} {c : Cursor} {ret : Int} {io : Io}
    (run : readLoop d table fuel c = some (ret, io)) : ret = 0 := by
  induction fuel generalizing c with
  | zero =>
    rw [readLoop] at run
    split at run
    · cases run
    · cases run
      rfl
  | succ fuel ih =>
    obtain ⟨c', turn⟩ := readTurn_ok ok table c
    rw [readLoop, turn] at run
    split at run
    · exact ih run
    · cases run
      rfl

end Devices

/-- A device with zeros in every sector but one. -/
def sectorDisk (p : Nat) : Storage :=
  ⟨fun q _ => if q = p then 1 else 0, fun _ _ n => ⟨0, n, fun _ => 0⟩⟩

theorem succeeds_sectorDisk (p : Nat) : Succeeds (sectorDisk p) := by
  intro k sector n
  simp [sectorDisk, StorageReply.full]

theorem succeeds_constantDisk (b : UInt8) : Succeeds (constantDisk b) := by
  intro k sector n
  simp [constantDisk, StorageReply.full]

/-! ## What the move must leave alone -/

/-- Where the file has initialized bytes in a hole the table must not be moved; its
sectors have numbers on the device, and the sector with the mark of a hole as its
number follows the sector before it in the file. -/
def Movable (na : Attr) (startSector : UInt32) : Prop :=
  ∀ j, j * 512 < na.initializedSize →
    match fileSector na j with
    | none => startSector = 0
    | some p => startSector.toNat + p < 2 ^ 32 ∧
        (startSector.toNat + p = 2 ^ 32 - 1 → 0 < j ∧ (fileSector na (j - 1)).map (· + 1) = some p)

section Table
variable {na : Attr} {startSector : UInt32} {table front back : List Section}
variable (inFront : InFront table front back (fileSectors (Attr.clusterSectors na) na.runs)
  ((na.initializedSize + 511) / 512))
include inFront

theorem InFront.sector {pre post : List Section} {s : Section} (split : front = pre ++ s :: post)
    {q : Nat} (inside : q < s.size.toNat)
    (needed : (expand pre).length + q < (na.initializedSize + 511) / 512) :
    fileSector na ((expand pre).length + q) = entrySector s q := by
  rw [fileSector, ← inFront.agree _ needed, split, expand_here pre post s inside]

/-- A file that may be moved has only entries that may. -/
theorem InFront.moves (movable : Movable na startSector) : ∀ s ∈ front, Moves startSector s := by
  intro s hs
  obtain ⟨pre, post, split⟩ := List.append_of_mem hs
  have some' := inFront.tidy.sizes s hs
  obtain ⟨first, whole⟩ := inFront.needed pre s post split
  rw [Moves]
  by_cases hole : s.IsHole
  · rw [if_pos hole]
    have sector := inFront.sector split some' (by omega)
    have moved := movable ((expand pre).length + 0) (by omega)
    rw [entrySector, if_pos hole] at sector
    rwa [sector] at moved
  · rw [if_neg hole]
    have size := whole hole
    constructor
    · have sector := inFront.sector split (q := s.size.toNat - 1) (by omega) (by omega)
      have moved := movable ((expand pre).length + (s.size.toNat - 1)) (by omega)
      rw [entrySector, if_neg hole] at sector
      rw [sector] at moved
      have := moved.1
      omega
    · intro mark
      have sector := inFront.sector split some' (by omega)
      have moved := movable ((expand pre).length + 0) (by omega)
      rw [entrySector, if_neg hole] at sector
      rw [sector] at moved
      obtain ⟨behind, follows⟩ := moved.2 (by omega)
      rw [Nat.add_zero] at behind follows
      -- the entry before it ends with the sector before it, so the two are not apart
      rcases List.eq_nil_or_concat' pre with rfl | ⟨pre', t, rfl⟩
      · exact absurd behind (Nat.lt_irrefl 0)
      · have split' : front = pre' ++ t :: (s :: post) := by
          rw [split, List.append_assoc]
          rfl
        have some'' := inFront.tidy.sizes t (by
          rw [split']
          exact List.mem_append_right _ List.mem_cons_self)
        have length : (expand (pre' ++ [t])).length = (expand pre').length + t.size.toNat := by
          rw [expand_append, expand_singleton, List.length_append, entrySectors_length]
        have before : (expand (pre' ++ [t])).length - 1 =
            (expand pre').length + (t.size.toNat - 1) := by omega
        rw [before, inFront.sector split' (by omega) (by omega), entrySector] at follows
        have apart : Apart t s := by
          have chain := inFront.tidy.apart
          rw [split'] at chain
          exact (List.isChain_cons_cons.mp (List.isChain_append.mp chain).2.1).1
        by_cases hole' : t.IsHole
        · rw [if_pos hole'] at follows
          cases follows
        · rw [if_neg hole', Option.map_some, Option.some_inj] at follows
          exact apart hole' (by omega)

/-- The front of a moved table has the bytes of the file. -/
theorem InFront.image (moves : ∀ s ∈ front, Moves startSector s) (d : Storage) {k : Nat}
    (inside : k < na.initializedSize) :
    image d (front.map (relocate startSector)) k = fileByte d na startSector k := by
  have split : k = 512 * (k / 512) + k % 512 := by omega
  have small : k % 512 < 512 := Nat.mod_lt _ (by decide)
  rw [fileByte, fileSector, ← inFront.agree (k / 512) (by omega), ← getElem?_map_join,
    ← expand_relocate inFront.tidy.sizes moves, ← image_expand d _ _ small, ← split]

theorem InFront.fits (moves : ∀ s ∈ front, Moves startSector s) :
    ∀ s ∈ front.map (relocate startSector), s.IsHole ∨ s.Fits := by
  intro s hs
  obtain ⟨t, ht, rfl⟩ := List.mem_map.mp hs
  exact relocate_fits (inFront.tidy.sizes t ht) (moves t ht)

theorem InFront.mounts (movable : Movable na startSector) (small : na.dataSize < 2 ^ 63)
    (init : na.initializedSize ≤ na.dataSize) :
    Mounts na startSector (table.map (relocate startSector)) := by
  intro d ok io buf offset size few inside
  have moves := inFront.moves movable
  have fit := inFront.fits moves
  have served : processReadIsoCmd d (table.map (relocate startSector)) io buf offset size =
      processReadIsoCmd d (front.map (relocate startSector)) io buf offset size := by
    rw [inFront.split, List.map_append]
    rcases inFront.reach with rfl | reach
    · rw [List.map_nil, List.append_nil]
    · refine readLoop_front _ fit size _ ?_ few ?_
      · dsimp only
        rw [imageSize_expand, expand_relocate_length]
        omega
      · dsimp only
        omega
  obtain ⟨ret, io', run, result⟩ := processReadIsoCmd_spec d fit io buf offset size
    (Or.inr (by omega)) few (by omega)
  have zero := readLoop_ok ok run
  rcases result with ⟨-, advance⟩ | ⟨failed, -⟩
  · refine ⟨io', by rw [served, run, zero], ?_⟩
    rw [advance.mem]
    apply fill_congr
    intro k hk
    exact inFront.image moves d (by omega)
  · rw [failed] at zero
    cases zero

/-- The first byte of a sector of the front, read through the moved table. -/
theorem InFront.readsByte (mounts : Mounts na startSector (table.map (relocate startSector)))
    (small : na.dataSize < 2 ^ 63) (init : na.initializedSize ≤ na.dataSize) {d : Storage}
    (ok : Succeeds d) {pre post : List Section} {s : Section} (split : front = pre ++ s :: post)
    {q : Nat} (inside : q < s.size.toNat)
    (needed : (expand pre).length + q < (na.initializedSize + 511) / 512) :
    sectorByte d ((fileSector na ((expand pre).length + q)).map (startSector.toNat + ·)) 0 =
      if (relocate startSector s).IsHole then 0
      else d.data (u32 ((s.start + startSector).toNat + q)) 0 := by
  have start : imageSize (pre.map (relocate startSector)) + 512 * q =
      512 * ((expand pre).length + q) := by
    rw [imageSize_expand, expand_relocate_length]
    omega
  have shape : table.map (relocate startSector) = pre.map (relocate startSector) ++
      relocate startSector s :: (post ++ back).map (relocate startSector) := by
    rw [inFront.split, split, List.append_assoc, List.map_append]
    rfl
  obtain ⟨io₁, run₁, mem₁⟩ := processReadIsoCmd_byte ok (pre.map (relocate startSector))
    ((post ++ back).map (relocate startSector)) (relocate startSector s) inside (by omega) blankIo 0
  obtain ⟨io₂, run₂, mem₂⟩ := mounts d ok blankIo 0 (512 * ((expand pre).length + q)) 1 (by decide)
    (by omega)
  rw [← shape, start, run₂] at run₁
  cases run₁
  have same := congrFun (mem₂.symm.trans mem₁) (0 + 0)
  rw [fill_inside _ _ Nat.one_pos, fill_inside _ _ Nat.one_pos, Nat.add_zero, fileByte] at same
  have quotient : 512 * ((expand pre).length + q) / 512 = (expand pre).length + q := by omega
  have remainder : 512 * ((expand pre).length + q) % 512 = 0 := by omega
  rw [quotient, remainder] at same
  exact same

/-- Where every read agrees with the file, the file may be moved. -/
theorem InFront.movable (mounts : Mounts na startSector (table.map (relocate startSector)))
    (small : na.dataSize < 2 ^ 63) (init : na.initializedSize ≤ na.dataSize) :
    Movable na startSector := by
  intro j hj
  have needed : j < (na.initializedSize + 511) / 512 := by omega
  cases place : fileSector na j with
  | none =>
    obtain ⟨i, few, inside, hole⟩ := inFront.holes j needed place
    obtain ⟨pre, s, post, q, split, small', rfl⟩ := expand_entry inside
    have sector := inFront.sector split small' few
    have read := inFront.readsByte mounts small init (succeeds_constantDisk 1) split small' few
    rw [fileSector, hole] at sector read
    have isHole : s.IsHole := by
      by_contra file
      rw [entrySector, if_neg file] at sector
      cases sector
    by_cases moved : (relocate startSector s).IsHole
    · have mark : holeMark + startSector = holeMark := by
        have start : s.start + startSector = holeMark := moved
        rwa [show s.start = holeMark from isHole] at start
      exact UInt32.add_eq_left.mp mark
    · rw [if_neg moved] at read
      have zero : (0 : UInt8) = 1 := read
      cases zero
  | some p =>
    have inside : j < (expand front).length := by
      by_contra past
      have agree := inFront.agree j needed
      rw [List.getElem?_eq_none (not_lt.mp past)] at agree
      rw [fileSector, ← agree] at place
      cases place
    obtain ⟨pre, s, post, q, split, small', rfl⟩ := expand_entry inside
    have sector := inFront.sector split small' needed
    have read := inFront.readsByte mounts small init
      (succeeds_sectorDisk (startSector.toNat + p)) split small' needed
    rw [place] at sector read
    have one : sectorByte (sectorDisk (startSector.toNat + p))
        ((some p).map (startSector.toNat + ·)) 0 = 1 := if_pos rfl
    rw [one] at read
    by_cases moved : (relocate startSector s).IsHole
    · rw [if_pos moved] at read
      exact absurd read (by decide)
    · rw [if_neg moved] at read
      have same : u32 ((s.start + startSector).toNat + q) = startSector.toNat + p := by
        by_contra other
        rw [sectorDisk] at read
        simp only [if_neg other] at read
        exact absurd read (by decide)
      have file : ¬ s.IsHole := by
        intro isHole
        rw [entrySector, if_pos isHole] at sector
        cases sector
      rw [entrySector, if_neg file, Option.some_inj] at sector
      have bound : u32 ((s.start + startSector).toNat + q) < 2 ^ 32 := Nat.mod_lt _ (by decide)
      refine ⟨by omega, fun mark => ?_⟩
      have later : 0 < q := by
        rcases Nat.eq_zero_or_pos q with rfl | later
        · exfalso
          apply moved
          apply UInt32.toNat_inj.mp
          rw [Nat.add_zero, u32_exact (s.start + startSector).toNat_lt] at same
          show (s.start + startSector).toNat = 2 ^ 32 - 1
          omega
        · exact later
      have before : (expand pre).length + q - 1 = (expand pre).length + (q - 1) := by omega
      refine ⟨by omega, ?_⟩
      rw [before, inFront.sector split (by omega) (by omega), entrySector, if_neg file,
        Option.map_some, sector, Nat.add_assoc, Nat.sub_add_cancel later]

end Table

/-! ## The file through its table -/

/-- Every range of the initialized bytes, read through the moved table with a device
that does not fail, is the file's, exactly where the move leaves every entry's meaning. -/
theorem ntfsFileToSectors_mounts_iff {na : Attr} {startSector : UInt32} {sizeBehind : Nat → UInt32}
    {max : Nat} {table : List Section} (mapped : na.Mapped) (small : na.dataSize < 2 ^ 63)
    (below : Below (Attr.clusterSectors na) na.runs)
    (done : ntfsFileToSectors na startSector sizeBehind max true = some (some table))
    (room : table.length < max)
    (fits : HolesFit (Attr.clusterSectors na) 0 na.initializedSize na.runs) :
    Mounts na startSector table ↔ Movable na startSector := by
  obtain ⟨table', loop, same⟩ := ntfsFileToSectors_loop done
  rw [if_pos rfl] at same
  rw [same, List.length_map] at room
  have found : ∃ front back, InFront table' front back
      (fileSectors (Attr.clusterSectors na) na.runs) ((na.initializedSize + 511) / 512) := by
    have clusters := clusterSectors_mul mapped
    rcases fileLoop_walk mapped loop room with ⟨blank, rfl⟩ | ⟨-, ret, walk, -⟩
    · refine ⟨[], [], ?_⟩
      rw [blank]
      exact inFront_of_tracks (k := 0) .empty (by decide) Tidy.nil [] (by decide) (by decide)
        (Or.inl (by decide))
    · have init := mapped.init
      have covers := mapped.covers
      rw [clusters] at covers
      have inFront := readRuns_inFront clusters na.runs below .empty Tidy.nil (by decide) rfl
        (by omega) fits walk room
      simpa only [List.replicate_zero, List.append_nil, List.nil_append, List.length_nil,
        Nat.zero_add] using inFront
  obtain ⟨front, back, inFront⟩ := found
  rw [same]
  constructor
  · intro mounts
    exact inFront.movable mounts small mapped.init
  · intro movable
    exact inFront.mounts movable small mapped.init

/-- Three pieces with a hole in front of the last one, and an end within a sector. -/
def fragmented : Attr :=
  ⟨[⟨some 5, 1⟩, ⟨some 8, 2⟩, ⟨none, 2⟩, ⟨some 20, 1⟩], 12, 24000, 24000⟩

/-- The partition begins with the device. -/
theorem ntfsFileToSectors_mounts_fragmented :
    ntfsFileToSectors fragmented 0 (fun _ => 0) 8 true =
      some (some [⟨40, 8⟩, ⟨64, 16⟩, ⟨holeMark, 16⟩, ⟨160, 7⟩]) ∧
    Mounts fragmented 0 [⟨40, 8⟩, ⟨64, 16⟩, ⟨holeMark, 16⟩, ⟨160, 7⟩] := by
  have mapped : fragmented.Mapped := ⟨by decide, by decide, by decide, by decide⟩
  have below : Below 8 fragmented.runs := by
    have known : ∀ run ∈ fragmented.runs,
        0 < run.length ∧ ∀ lcn ∈ run.lcn, (lcn + run.length) * 8 < holeSector := by
      decide
    exact fun run member => ⟨(known run member).1, fun lcn place => (known run member).2 lcn place⟩
  have done : ntfsFileToSectors fragmented 0 (fun _ => 0) 8 true =
      some (some [⟨40, 8⟩, ⟨64, 16⟩, ⟨holeMark, 16⟩, ⟨160, 7⟩]) := by
    decide +kernel
  have holes : HolesFit 8 0 24000 fragmented.runs :=
    Or.inr (Or.inr (Or.inr ⟨by decide, Or.inr trivial⟩))
  refine ⟨done,
    (ntfsFileToSectors_mounts_iff mapped (by decide) below done (by decide) holes).mpr ?_⟩
  intro j hj
  have few : j < 47 := by
    change j * 512 < 24000 at hj
    omega
  cases place : fileSector fragmented j with
  | none => rfl
  | some p =>
    have low : ∀ j < 47, ∀ p ∈ fileSector fragmented j, p < 2 ^ 32 - 1 := by
      decide +kernel
    have small := low j few p place
    have start : (0 : UInt32).toNat = 0 := rfl
    exact ⟨by omega, fun last => absurd last (by omega)⟩

/-- A hole in front of an allocated cluster: moved by 2048 sectors the mark of the
hole becomes sector 2047 of the device, which is read. -/
theorem mounts_moved_hole :
    ∃ (na : Attr) (table : List Section), na.Mapped ∧ na.dataSize < 2 ^ 63 ∧
      Below (Attr.clusterSectors na) na.runs ∧
      ntfsFileToSectors na 2048 (fun _ => 0) 8 true = some (some table) ∧
      0 < table.length ∧ table.length < 8 ∧ ¬ Mounts na 2048 table := by
  refine ⟨⟨[⟨none, 1⟩, ⟨some 5, 1⟩], 12, 8192, 8192⟩, [⟨2047, 8⟩, ⟨2088, 8⟩],
    ⟨by decide, by decide, by decide, by decide⟩, by decide, ?_, by decide +kernel, by decide,
    by decide, ?_⟩
  · intro run member
    rcases List.mem_pair.mp member with rfl | rfl
    · exact ⟨by decide, fun lcn place => by cases place⟩
    · exact ⟨by decide, fun lcn place => by cases place; decide⟩
  · intro mounts
    obtain ⟨io₁, run₁, mem₁⟩ := processReadIsoCmd_byte (succeeds_constantDisk 1) [] [⟨2088, 8⟩]
      ⟨2047, 8⟩ (q := 0) (by decide) (by decide) blankIo 0
    obtain ⟨io₂, run₂, mem₂⟩ := mounts _ (succeeds_constantDisk 1) blankIo 0 0 1 (by decide)
      (by decide)
    cases run₂.symm.trans run₁
    have same := congrFun (mem₂.symm.trans mem₁) (0 + 0)
    rw [fill_inside _ _ Nat.one_pos, fill_inside _ _ Nat.one_pos] at same
    have zero : (0 : UInt8) = 1 := same
    cases zero

end MountedFiles
