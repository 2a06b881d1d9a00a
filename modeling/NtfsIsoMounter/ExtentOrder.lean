import NtfsIsoMounter.RunlistSectors

/-!
# The sectors of a table and those of the file

A table is expanded sector by sector and compared with the sectors the runlist
gives the file. The walk keeps them equal as long as it stores the size of every
stretch of holes in full; what the table lacks is only missed once an allocated
run is entered behind it.
-/

namespace ExtentOrder

open SectionTables RunlistSectors

/-- The place on the volume of each sector of a run, `spc` sectors to a cluster. -/
def runSectors (spc : Nat) (run : Run) : List (Option Nat) :=
  (List.range (run.length * spc)).map (fun k => run.lcn.map (fun lcn => lcn * spc + k))

def fileSectors (spc : Nat) (runs : List Run) : List (Option Nat) := runs.flatMap (runSectors spc)

/-- Sectors of the volume from one on. -/
def volumeSectors (start n : Nat) : List (Option Nat) :=
  (List.range n).map (fun k => some (start + k))

def entrySectors (s : Section) : List (Option Nat) :=
  if s.IsHole then List.replicate s.size.toNat none else volumeSectors s.start.toNat s.size.toNat

def expand (table : List Section) : List (Option Nat) := table.flatMap entrySectors

@[simp] theorem expand_append (xs ys : List Section) : expand (xs ++ ys) = expand xs ++ expand ys :=
  List.flatMap_append

@[simp] theorem expand_singleton (s : Section) : expand [s] = entrySectors s :=
  List.flatMap_singleton _ _

theorem volumeSectors_append (start n k : Nat) :
    volumeSectors start n ++ volumeSectors (start + n) k = volumeSectors start (n + k) := by
  rw [volumeSectors, volumeSectors, volumeSectors, List.range_add, List.map_append, List.map_map]
  congr 2
  funext i
  exact congrArg some (Nat.add_assoc start n i)

theorem volumeSectors_initial (start : Nat) {n k : Nat} (le : n ≤ k) :
    volumeSectors start n <+: volumeSectors start k := by
  obtain ⟨d, rfl⟩ := Nat.exists_eq_add_of_le le
  rw [← volumeSectors_append]
  exact List.prefix_append _ _

theorem runSectors_hole (spc : Nat) {run : Run} (hole : run.lcn = none) :
    runSectors spc run = List.replicate (run.length * spc) none := by
  rw [runSectors, hole]
  simp

theorem runSectors_volume (spc : Nat) {run : Run} {lcn : Nat} (allocated : run.lcn = some lcn) :
    runSectors spc run = volumeSectors (lcn * spc) (run.length * spc) := by
  rw [runSectors, allocated]
  rfl

/-! ## What the walk keeps -/

theorem toU32_natCast (n : Nat) : (toU32 n).toNat = n % 2 ^ 32 := by
  have cast : ((n : Int) % 2 ^ 32).toNat = n % 2 ^ 32 := by omega
  rw [toU32, cast, UInt32.toNat_ofNat']
  exact Nat.mod_mod n (2 ^ 32)

theorem growLast_append (n : Int) (front : List Section) (s : Section) :
    growLast n (front ++ [s]) = some (front ++ [{ s with size := toU32 (s.size.toNat + n) }]) := by
  rw [growLast, List.getLast?_concat, Option.map_some, List.dropLast_concat]

/-- The table holds the sectors of `F`, then a stretch of `g` hole sectors of which
the size is kept modulo 2^32. -/
inductive Tracks : List (Option Nat) → Nat → List Section → Nat → Prop
  | empty : Tracks [] 0 [] holeSector
  | file {front : List Section} {s : Section} : ¬ s.IsHole →
      s.start.toNat + s.size.toNat < holeSector →
      Tracks (expand (front ++ [s])) 0 (front ++ [s]) (s.start.toNat + s.size.toNat)
  | hole {front : List Section} {s : Section} {g : Nat} : s.IsHole →
      s.size.toNat = g % 2 ^ 32 → Tracks (expand front) g (front ++ [s]) holeSector

theorem Tracks.expand_table {F : List (Option Nat)} {g : Nat} {table : List Section} {prev : Nat}
    (tracks : Tracks F g table prev) : expand table = F ++ List.replicate (g % 2 ^ 32) none := by
  cases tracks with
  | empty => rfl
  | file => rw [Nat.zero_mod, List.replicate_zero, List.append_nil]
  | hole hole size => rw [expand_append, expand_singleton, entrySectors, if_pos hole, size]

/-- A stretch of holes grows by `n` sectors. -/
theorem Tracks.addHole {F : List (Option Nat)} {g : Nat} {w : Walk}
    (tracks : Tracks F g w.table w.prev) (n : Nat) :
    ∃ table, w.hole n = some { w with table := table, prev := holeSector } ∧
      Tracks F (g + n) table holeSector := by
  obtain ⟨table, prev, total, count⟩ := w
  dsimp only at tracks
  cases tracks with
  | empty =>
    refine ⟨_, rfl, ?_⟩
    rw [Nat.zero_add]
    exact @Tracks.hole [] _ _ rfl (toU32_natCast n)
  | @file front s file low =>
    have more : front ++ [s] ≠ [] := by simp
    refine ⟨front ++ [s] ++ [⟨holeMark, toU32 n⟩], by
      simp only [Walk.hole, if_neg more, if_neg low.ne], ?_⟩
    rw [Nat.zero_add]
    exact .hole rfl (toU32_natCast n)
  | @hole front s g hole size =>
    have more : front ++ [s] ≠ [] := by simp
    refine ⟨front ++ [{ s with size := toU32 (s.size.toNat + n) }], by
      simp only [Walk.hole, if_neg more, if_true, growLast_append, Option.map_some], ?_⟩
    refine .hole hole ?_
    have cast : ((s.size.toNat : Int) + n) = ((s.size.toNat + n : Nat) : Int) := by omega
    dsimp only
    rw [cast, toU32_natCast, size]
    omega

theorem entrySectors_volume {s : Section} (file : ¬ s.IsHole) :
    entrySectors s = volumeSectors s.start.toNat s.size.toNat := if_neg file

/-- An entry for sectors of the volume that end below the mark of a hole. -/
theorem newEntry {cur n : Nat} (low : cur + n < holeSector) (some' : 0 < n) :
    ¬ (⟨UInt32.ofNat cur, toU32 n⟩ : Section).IsHole ∧
      (UInt32.ofNat cur).toNat = cur ∧ (toU32 n).toNat = n := by
  simp only [holeSector] at low
  have start : (UInt32.ofNat cur).toNat = cur := by
    rw [UInt32.toNat_ofNat']
    exact Nat.mod_eq_of_lt (by omega)
  refine ⟨?_, start, ?_⟩
  · intro hole
    have mark := congrArg UInt32.toNat (show UInt32.ofNat cur = holeMark from hole)
    rw [start] at mark
    have value : holeMark.toNat = 4294967295 := rfl
    omega
  · rw [toU32_natCast]
    exact Nat.mod_eq_of_lt (by omega)

/-- A new entry behind whatever the table holds. -/
theorem Tracks.newEntry {F : List (Option Nat)} {g : Nat} {w : Walk}
    (tracks : Tracks F g w.table w.prev) {cur n : Nat} (low : cur + n < holeSector) (some' : 0 < n)
    (other : w.prev ≠ cur) :
    ∃ table prev, w.sectors cur n = some { w with table := table, prev := prev } ∧
      Tracks (F ++ List.replicate (g % 2 ^ 32) none ++ volumeSectors cur n) 0 table prev := by
  obtain ⟨file, start, size⟩ := ExtentOrder.newEntry low some'
  have prev : u32 ((UInt32.ofNat cur).toNat + (toU32 n).toNat) =
      (UInt32.ofNat cur).toNat + (toU32 n).toNat := by
    rw [start, size]
    exact u32_exact (by simp only [holeSector] at low; omega)
  have table : expand (w.table ++ [⟨UInt32.ofNat cur, toU32 n⟩]) =
      F ++ List.replicate (g % 2 ^ 32) none ++ volumeSectors cur n := by
    rw [expand_append, expand_singleton, entrySectors_volume file, tracks.expand_table, start, size]
  refine ⟨w.table ++ [⟨UInt32.ofNat cur, toU32 n⟩], (UInt32.ofNat cur).toNat + (toU32 n).toNat, by
    simp only [Walk.sectors, if_neg other, prev], ?_⟩
  rw [← table]
  refine .file file ?_
  rw [start, size]
  exact low

/-- Sectors of the volume are added to the last entry or follow it in a new one. -/
theorem Tracks.addSectors {F : List (Option Nat)} {g : Nat} {w : Walk}
    (tracks : Tracks F g w.table w.prev) {cur n : Nat} (low : cur + n < holeSector)
    (some' : 0 < n) :
    ∃ table prev, w.sectors cur n = some { w with table := table, prev := prev } ∧
      Tracks (F ++ List.replicate (g % 2 ^ 32) none ++ volumeSectors cur n) 0 table prev := by
  by_cases follows : w.prev = cur
  · obtain ⟨table, prev, total, count⟩ := w
    dsimp only at tracks follows
    cases tracks with
    | empty => omega
    | hole hole size => omega
    | @file front s old low' =>
      simp only [holeSector] at low
      have grown : (toU32 ((s.size.toNat : Int) + n)).toNat = s.size.toNat + n := by
        have cast : ((s.size.toNat : Int) + n) = ((s.size.toNat + n : Nat) : Int) := by omega
        rw [cast, toU32_natCast]
        exact Nat.mod_eq_of_lt (by omega)
      have next : u64 (((s.start.toNat + s.size.toNat : Nat) : Int) + n).toNat =
          s.start.toNat + (toU32 ((s.size.toNat : Int) + n)).toNat := by
        have cast : (((s.start.toNat + s.size.toNat : Nat) : Int) + n).toNat =
            s.start.toNat + (s.size.toNat + n) := by omega
        rw [cast, grown]
        exact Nat.mod_eq_of_lt (by omega)
      have expanded : expand (front ++ [s]) ++ List.replicate (0 % 2 ^ 32) none ++
          volumeSectors cur n =
          expand (front ++ [⟨s.start, toU32 ((s.size.toNat : Int) + n)⟩]) := by
        have old' : ¬ (⟨s.start, toU32 ((s.size.toNat : Int) + n)⟩ : Section).IsHole := old
        rw [Nat.zero_mod, List.replicate_zero, List.append_nil, expand_append, expand_append,
          expand_singleton, expand_singleton, entrySectors_volume old, entrySectors_volume old',
          List.append_assoc, grown, ← volumeSectors_append, follows]
      refine ⟨front ++ [⟨s.start, toU32 ((s.size.toNat : Int) + n)⟩],
        s.start.toNat + (toU32 ((s.size.toNat : Int) + n)).toNat, by
        simp only [Walk.sectors, if_pos follows, growLast_append, Option.map_some, next], ?_⟩
      rw [expanded]
      refine .file old ?_
      simp only [grown, holeSector]
      omega
  · exact tracks.newEntry low some' follows

/-! ## Comparing with the file -/

/-- Sectors of the volume behind a stretch of holes that may be too short. -/
theorem stretch_prefix_iff {F T : List (Option Nat)} {a b cur n : Nat} (le : a ≤ b) :
    F ++ List.replicate a none ++ volumeSectors cur n <+: F ++ List.replicate b none ++ T ↔
      n = 0 ∨ (a = b ∧ volumeSectors cur n <+: T) := by
  obtain ⟨d, rfl⟩ := Nat.exists_eq_add_of_le le
  rw [List.append_assoc, List.append_assoc, List.prefix_append_right_inj, List.replicate_add,
    List.append_assoc, List.prefix_append_right_inj]
  cases n with
  | zero => simp [volumeSectors]
  | succ n =>
    have first : volumeSectors cur (n + 1) = some cur :: volumeSectors (cur + 1) n := by
      rw [Nat.add_comm n 1, ← volumeSectors_append]
      rfl
    cases d with
    | zero => simp
    | succ d =>
      rw [first, List.replicate_succ, List.cons_append, List.cons_prefix_cons]
      simp

theorem fileSectors_cons (spc : Nat) (run : Run) (rest : List Run) :
    fileSectors spc (run :: rest) = runSectors spc run ++ fileSectors spc rest := List.flatMap_cons

/-- A stretch that is not kept in full is still a stretch of holes. -/
theorem stretch_initial (F T : List (Option Nat)) {a b : Nat} (le : a ≤ b) :
    F ++ List.replicate a none <+: F ++ List.replicate b none ++ T := by
  have none' : F ++ List.replicate a none ++ volumeSectors 0 0 <+:
      F ++ List.replicate b none ++ T :=
    (stretch_prefix_iff le).mpr (Or.inl rfl)
  simpa [volumeSectors] using none'

/-- How many sectors of the volume the file has in a row from sector `cur` on. -/
def consecutive (spc cur : Nat) : List Run → Nat
  | [] => 0
  | run :: rest =>
    if run.lcn.map (· * spc) = some cur then
      run.length * spc + consecutive spc (cur + run.length * spc) rest
    else 0

theorem volumeSectors_prefix_iff (spc : Nat) (runs : List Run)
    (long : ∀ run ∈ runs, 0 < run.length * spc) (cur n : Nat) :
    volumeSectors cur n <+: fileSectors spc runs ↔ n ≤ consecutive spc cur runs := by
  induction runs generalizing cur n with
  | nil =>
    rw [fileSectors, List.flatMap_nil, List.prefix_nil, consecutive, Nat.le_zero, volumeSectors,
      List.map_eq_nil_iff, List.range_eq_nil]
  | cons run rest ih =>
    have some' := long run List.mem_cons_self
    rw [fileSectors_cons, consecutive]
    cases n with
    | zero => simp [volumeSectors]
    | succ n =>
      by_cases here : run.lcn.map (· * spc) = some cur
      · obtain ⟨lcn, place, rfl⟩ := Option.map_eq_some_iff.mp here
        rw [if_pos here, runSectors_volume spc place]
        by_cases le : n + 1 ≤ run.length * spc
        · exact iff_of_true ((volumeSectors_initial _ le).trans (List.prefix_append _ _)) (by omega)
        · obtain ⟨d, hd⟩ := Nat.exists_eq_add_of_le (Nat.le_of_not_le le)
          rw [hd, ← volumeSectors_append, List.prefix_append_right_inj,
            ih (fun r hr => long r (List.mem_cons_of_mem run hr))]
          omega
      · rw [if_neg here]
        refine iff_of_false ?_ (by omega)
        intro starts
        obtain ⟨k, hk⟩ := Nat.exists_eq_add_of_lt some'
        rw [Nat.zero_add] at hk
        rw [runSectors, hk, List.range_succ_eq_map, List.map_cons, volumeSectors,
          List.range_succ_eq_map, List.map_cons, List.cons_append, List.cons_prefix_cons] at starts
        apply here
        simpa only [Nat.add_zero] using starts.1.symm

/-- Behind a hole whose first sector was rounded up, each further hole adds one
sector (`g` so far, `lag` too few, `h` holes), and an allocated run ends the walk
with `1 - h` sectors. -/
def TailKept (spc g lag h : Nat) : List Run → Prop
  | [] => True
  | run :: rest =>
    match run.lcn with
    | none => TailKept spc (g + 1) (lag + run.length * spc - 1) (h + 1) rest
    | some lcn => (toU32 (1 - h)).toNat = 0 ∨ (g < 2 ^ 32 ∧ lag = 0 ∧
        (toU32 (1 - h)).toNat ≤ consecutive spc (lcn * spc) (run :: rest))

/-- The condition under which the table is right: with `left` bytes to go and `g`
hole sectors since the last allocated run, every stretch of holes in front of an
allocated run is below 2^32 sectors, and `TailKept` where the bytes end inside the
first sector of a hole. -/
def Kept (spc : Nat) : Nat → Nat → List Run → Prop
  | _, _, [] => True
  | g, left, run :: rest =>
    left = 0 ∨
      match run.lcn with
      | some _ => g < 2 ^ 32 ∧ Kept spc 0 (left - run.length * spc * 512) rest
      | none =>
        if left < 512 then TailKept spc (g + 1) (run.length * spc - 1) 0 rest
        else Kept spc (g + run.length * spc) (left - run.length * spc * 512) rest

theorem kept_zero (spc g : Nat) (runs : List Run) : Kept spc g 0 runs := by
  cases runs with
  | nil => trivial
  | cons run rest => exact Or.inl rfl

/-! ## The walk -/

/-- The clusters of the runs lie below the sector number that marks a hole. -/
def Below (spc : Nat) (runs : List Run) : Prop :=
  ∀ run ∈ runs, 0 < run.length ∧ ∀ lcn, run.lcn = some lcn → (lcn + run.length) * spc < holeSector

theorem Below.tail {spc : Nat} {run : Run} {rest : List Run} (below : Below spc (run :: rest)) :
    Below spc rest := fun r hr => below r (List.mem_cons_of_mem run hr)

section Walk
variable {clusterSizeBits spc max : Nat} {total2 : Int}
variable (clusters : 2 ^ clusterSizeBits = spc * 512)
include clusters

theorem spc_pos : 0 < spc := by
  have positive : 0 < 2 ^ clusterSizeBits := Nat.pow_pos (by decide)
  rw [clusters] at positive
  exact Nat.pos_of_mul_pos_right positive

omit clusters in
theorem wholeSectors (n : Nat) : (n * 512 + 511) / 512 * 512 = n * 512 := by
  omega

theorem curSector_eq {lcn length : Nat} (low : (lcn + length) * spc < holeSector) :
    u64 (lcn * 2 ^ clusterSizeBits) / 512 = lcn * spc := by
  have bytes : lcn * 2 ^ clusterSizeBits = lcn * spc * 512 := by rw [clusters, Nat.mul_assoc]
  have le : lcn * spc ≤ (lcn + length) * spc := Nat.mul_le_mul_right spc (Nat.le_add_right _ _)
  simp only [holeSector] at low
  have small : u64 (lcn * spc * 512) = lcn * spc * 512 := Nat.mod_eq_of_lt (by omega)
  rw [bytes, small, Nat.mul_div_cancel _ (by decide)]

section Tail
variable {run : Run} {rest : List Run} {F : List (Option Nat)} {g : Nat} {w : Walk}
variable (long : 0 < run.length) (more : w.count ≠ 0) (room : w.table.length < max)
include long more room

omit clusters in
/-- A hole of which less than a sector is left is taken for one sector. -/
theorem round_step (total2 : Int) (rest : List Run) (tracks : Tracks F g w.table w.prev)
    (place : run.lcn = none) (small : w.count < 512) :
    ∃ table, w.hole (1 : Nat) = some { w with table := table, prev := holeSector } ∧
      Tracks F (g + 1) table holeSector ∧
      readRuns clusterSizeBits max total2 (run :: rest) 0 w =
        readRuns clusterSizeBits max total2 rest 0
          ⟨table, holeSector, w.total + 512, w.count - 512⟩ := by
  have toRead : (512 : Int) =
      Max.max (min w.count (run.length * 2 ^ clusterSizeBits : Nat)) 512 := by
    omega
  have one : (512 : Int).tdiv 512 = (1 : Nat) := rfl
  obtain ⟨table, added, tracks'⟩ := tracks.addHole 1
  refine ⟨table, added, tracks', ?_⟩
  rw [readRuns_hole more room long place toRead, one, added, Option.bind_some]

/-- With a negative byte count an allocated run ends the walk. -/
theorem negative_step {lcn h r : Nat} (place : run.lcn = some lcn)
    (low : (lcn + run.length) * spc < holeSector) (after : w.prev = holeSector)
    (inside : 0 < r ∧ r < 512) (left : w.count = (r : Int) - 512 * (h + 1)) {ret : Int}
    {table : List Section}
    (walk : readRuns clusterSizeBits max total2 (run :: rest) 0 w = some (ret, table)) :
    table = w.table ++ [⟨UInt32.ofNat (lcn * spc), toU32 (1 - (h : Int))⟩] := by
  have cur := curSector_eq clusters low
  have negative : w.count = min w.count (run.length * 2 ^ clusterSizeBits : Nat) := by omega
  have remainder : w.count % 512 = r := by omega
  have truncated : w.count.tmod 512 = (r : Int) - 512 := by rw [left, tmod_below h inside]
  have toRead : 512 * (1 - (h : Int)) =
      if w.count % 512 ≠ 0 then w.count + 512 - w.count.tmod 512 else w.count := by
    rw [remainder, truncated, if_pos (by omega)]
    omega
  rw [readRuns_sectors more room long place negative toRead, cur,
    Int.mul_tdiv_cancel_left _ (by decide)] at walk
  have before := Nat.mul_le_mul_right spc (Nat.le_add_right lcn run.length)
  have other : w.prev ≠ lcn * spc := by omega
  rw [Walk.sectors, if_neg other] at walk
  simp only [Option.bind_some] at walk
  rw [if_neg (by omega), if_neg (by omega)] at walk
  cases walk
  rfl

end Tail

/-- The walk behind a hole whose first sector was rounded up: the byte count is negative. -/
theorem readRuns_tail (runs : List Run) (below : Below spc runs) (lag : Nat)
    {F : List (Option Nat)} {g h r : Nat} {w : Walk} (tracks : Tracks F g w.table w.prev)
    (after : w.prev = holeSector)
    (inside : 0 < r ∧ r < 512) (left : w.count = (r : Int) - 512 * (h + 1)) {ret : Int}
    {table : List Section}
    (walk : readRuns clusterSizeBits max total2 runs 0 w = some (ret, table))
    (room : table.length < max) :
    F <+: expand table ∧
      (expand table <+: F ++ List.replicate (g + lag) none ++ fileSectors spc runs ↔
        TailKept spc g lag h runs) := by
  have positive := spc_pos clusters
  induction runs generalizing g lag h w with
  | nil =>
    by_cases full : max ≤ w.table.length
    · rw [readRuns_full _ _ full] at walk
      cases walk
      exact absurd room (by omega)
    · rw [readRuns_end _ (by omega) (by omega)] at walk
      cases walk
      have here := tracks.expand_table
      have le : g % 2 ^ 32 ≤ g + lag := (Nat.mod_le _ _).trans (Nat.le_add_right _ _)
      simp only [here]
      exact ⟨List.prefix_append _ _, iff_of_true (stretch_initial F _ le) trivial⟩
  | cons run rest ih =>
    by_cases full : max ≤ w.table.length
    · rw [readRuns_full _ _ full] at walk
      cases walk
      exact absurd room (by omega)
    · obtain ⟨long, low⟩ := below run List.mem_cons_self
      have some' : 0 < run.length * spc := Nat.mul_pos long positive
      rw [fileSectors_cons, TailKept]
      cases place : run.lcn with
      | none =>
        obtain ⟨table', -, tracks', step⟩ := round_step long (by omega)
          (not_le.mp full) total2 rest tracks place (by omega)
        rw [step] at walk
        have next := ih below.tail (lag + run.length * spc - 1) tracks' rfl
          (h := h + 1) (by dsimp only; push_cast; omega) walk
        refine ⟨next.1, ?_⟩
        have stretch : g + 1 + (lag + run.length * spc - 1) = (g + lag) + run.length * spc := by
          omega
        rw [← next.2, runSectors_hole spc place, stretch, List.replicate_add (g + lag)]
        simp only [List.append_assoc]
      | some lcn =>
        have low := low lcn place
        have ends := negative_step clusters long (by omega) (not_le.mp full) place low after inside
          left walk
        have file : ¬ (⟨UInt32.ofNat (lcn * spc), toU32 (1 - (h : Int))⟩ : Section).IsHole ∧
            (UInt32.ofNat (lcn * spc)).toNat = lcn * spc := by
          have room : lcn * spc + 1 < holeSector := by
            have := Nat.mul_le_mul_right spc (Nat.add_le_add_left long lcn)
            rw [Nat.add_mul] at this
            omega
          obtain ⟨file, start, -⟩ := newEntry room Nat.one_pos
          exact ⟨file, start⟩
        have here : expand table =
            F ++ List.replicate (g % 2 ^ 32) none ++
              volumeSectors (lcn * spc) (toU32 (1 - (h : Int))).toNat := by
          rw [ends, expand_append, expand_singleton, entrySectors_volume file.1,
            tracks.expand_table, file.2]
        rw [here]
        constructor
        · rw [List.append_assoc]
          exact List.prefix_append _ _
        · have longs : ∀ r ∈ run :: rest, 0 < r.length * spc := fun r hr =>
            Nat.mul_pos (below r hr).1 positive
          rw [← fileSectors_cons, stretch_prefix_iff
            ((Nat.mod_le _ _).trans (Nat.le_add_right g lag)),
            volumeSectors_prefix_iff spc _ longs]
          apply or_congr_right
          rw [← and_assoc]
          apply and_congr_left'
          omega

section Step
variable {run : Run} {rest : List Run} {F : List (Option Nat)} {g left : Nat} {w : Walk}
variable (long : 0 < run.length) (tracks : Tracks F g w.table w.prev)
variable (count : w.count = (left : Int)) (room : w.table.length < max)
include clusters long tracks count room

/-- A hole of which there is at least a sector left. -/
theorem hole_step (total2 : Int) (rest : List Run) (place : run.lcn = none) (big : 512 ≤ left) :
    ∃ table, w.hole (min left (run.length * spc * 512) / 512 : Nat) =
        some { w with table := table, prev := holeSector } ∧
      Tracks F (g + min left (run.length * spc * 512) / 512) table holeSector ∧
      readRuns clusterSizeBits max total2 (run :: rest) 0 w =
        readRuns clusterSizeBits max total2 rest 0 ⟨table, holeSector,
          w.total + (min left (run.length * spc * 512) : Nat),
          (left - run.length * spc * 512 : Nat)⟩ := by
  have positive := Nat.mul_pos long (spc_pos clusters)
  have bytes : run.length * 2 ^ clusterSizeBits = run.length * spc * 512 := by
    rw [clusters, Nat.mul_assoc]
  have taken : ((min left (run.length * spc * 512) : Nat) : Int) =
      Max.max (min w.count (run.length * 2 ^ clusterSizeBits : Nat)) 512 := by omega
  have sectors : ((min left (run.length * spc * 512) : Nat) : Int).tdiv 512 =
      ((min left (run.length * spc * 512) / 512 : Nat) : Int) := rfl
  obtain ⟨table, added, tracks'⟩ := tracks.addHole (min left (run.length * spc * 512) / 512)
  refine ⟨table, added, tracks', ?_⟩
  have after : w.count - (min left (run.length * spc * 512) : Nat) =
      (left - run.length * spc * 512 : Nat) := by omega
  rw [readRuns_hole (by omega) room long place taken, sectors, added, Option.bind_some]
  dsimp only
  rw [after]

/-- An allocated run: the next run follows it, or the bytes end inside it. -/
theorem file_step {lcn : Nat} (place : run.lcn = some lcn)
    (low : (lcn + run.length) * spc < holeSector) (some' : 0 < left) {ret : Int}
    {table : List Section}
    (walk : readRuns clusterSizeBits max total2 (run :: rest) 0 w = some (ret, table)) :
    ∃ table' prev, w.sectors (lcn * spc)
        ((min left (run.length * spc * 512) + 511) / 512 : Nat) =
        some { w with table := table', prev := prev } ∧
      Tracks (F ++ List.replicate (g % 2 ^ 32) none ++
        volumeSectors (lcn * spc) ((min left (run.length * spc * 512) + 511) / 512)) 0 table' prev ∧
      (run.length * spc * 512 ≤ left →
        readRuns clusterSizeBits max total2 rest 0 ⟨table', prev,
          w.total + (run.length * spc * 512 : Nat),
          (left - run.length * spc * 512 : Nat)⟩ = some (ret, table)) ∧
      (left < run.length * spc * 512 → table = table') := by
  have positive := Nat.mul_pos long (spc_pos clusters)
  have bytes : run.length * 2 ^ clusterSizeBits = run.length * spc * 512 := by
    rw [clusters, Nat.mul_assoc]
  obtain ⟨br, hbr⟩ : ∃ br, br = min left (run.length * spc * 512) := ⟨_, rfl⟩
  have taken : (br : Int) = min w.count (run.length * 2 ^ clusterSizeBits : Nat) := by omega
  have remainder : (br : Int).tmod 512 = ((br % 512 : Nat) : Int) := rfl
  have rounded : (((br + 511) / 512 * 512 : Nat) : Int) =
      if (br : Int) % 512 ≠ 0 then (br : Int) + 512 - (br : Int).tmod 512 else (br : Int) := by
    rw [remainder]
    split <;> omega
  have sectors : (((br + 511) / 512 * 512 : Nat) : Int).tdiv 512 = ((br + 511) / 512 : Nat) := by
    push_cast
    exact Int.mul_tdiv_cancel _ (by decide)
  have inside : lcn * spc + (br + 511) / 512 < holeSector := by
    rw [Nat.add_mul] at low
    omega
  obtain ⟨table', prev, added, tracks'⟩ :=
    tracks.addSectors inside (by omega)
  rw [readRuns_sectors (by omega) room long place taken rounded, curSector_eq clusters low, sectors,
    added, Option.bind_some] at walk
  have moved : (br : Int) > 0 := by omega
  simp only [if_pos moved] at walk
  rw [← hbr]
  refine ⟨table', prev, added, tracks', ?_, ?_⟩
  · intro whole
    obtain rfl : br = run.length * spc * 512 := by omega
    have after : w.count - (run.length * spc * 512 : Nat) =
        (left - run.length * spc * 512 : Nat) := by omega
    rw [wholeSectors] at walk
    simpa only [if_true, after] using walk
  · intro part
    have none' : w.count - (br : Int) = 0 := by omega
    rw [none', readRuns_done _ _ rfl] at walk
    split at walk
    · cases walk
      rfl
    · cases walk
      rfl

end Step

/-- The walk with `left` bytes to go: what precedes the present stretch of holes
stays, and the table is right exactly where `Kept` says. -/
theorem readRuns_kept (runs : List Run) (below : Below spc runs) {F : List (Option Nat)}
    {g left : Nat} {w : Walk} (tracks : Tracks F g w.table w.prev) (count : w.count = (left : Int))
    {ret : Int} {table : List Section}
    (walk : readRuns clusterSizeBits max total2 runs 0 w = some (ret, table))
    (room : table.length < max) :
    F <+: expand table ∧
      (expand table <+: F ++ List.replicate g none ++ fileSectors spc runs ↔
        Kept spc g left runs) := by
  have positive := spc_pos clusters
  induction runs generalizing F g left w with
  | nil =>
    rw [readRuns_nil walk, tracks.expand_table]
    exact ⟨List.prefix_append _ _, iff_of_true (stretch_initial F _ (Nat.mod_le _ _)) trivial⟩
  | cons run rest ih =>
    obtain ⟨long, low⟩ := below run List.mem_cons_self
    by_cases stops : left = 0 ∨ max ≤ w.table.length
    · rw [readRuns, if_pos (by omega)] at walk
      cases walk
      have done := stops.resolve_right (by omega)
      rw [tracks.expand_table]
      exact ⟨List.prefix_append _ _,
        iff_of_true (stretch_initial F _ (Nat.mod_le _ _)) (Or.inl done)⟩
    · rw [not_or, not_le] at stops
      obtain ⟨more, here⟩ := stops
      rw [fileSectors_cons, Kept, or_iff_right more]
      cases place : run.lcn with
      | none =>
        have holes := runSectors_hole spc place
        by_cases short : left < 512
        · obtain ⟨table', -, tracks', step⟩ := round_step long (by omega) here
            total2 rest tracks place (by omega)
          rw [step] at walk
          have tail := readRuns_tail clusters rest below.tail (run.length * spc - 1)
            (h := 0) (r := left) tracks' rfl ⟨by omega, short⟩ (by dsimp only; push_cast; omega)
            walk room
          have sectors := Nat.mul_pos long positive
          have stretch : g + 1 + (run.length * spc - 1) = g + run.length * spc := by omega
          simp only [if_pos short]
          refine ⟨tail.1, ?_⟩
          rw [← tail.2, holes, stretch, List.replicate_add g]
          simp only [List.append_assoc]
        · obtain ⟨table', -, tracks', next⟩ := hole_step clusters long tracks
            count here total2 rest place (not_lt.mp short)
          rw [next] at walk
          obtain ⟨extends', right⟩ := ih below.tail tracks' rfl walk
          simp only [if_neg short]
          refine ⟨extends', ?_⟩
          by_cases whole : run.length * spc * 512 ≤ left
          · have stretch : g + min left (run.length * spc * 512) / 512 = g + run.length * spc := by
              omega
            rw [stretch] at right
            rw [← right, holes, List.replicate_add g]
            simp only [List.append_assoc]
          · have last : left - run.length * spc * 512 = 0 := by omega
            rw [last, readRuns_done _ _ rfl] at walk
            cases walk
            rw [last, tracks'.expand_table, holes, ← List.append_assoc, List.append_assoc F,
              ← List.replicate_add]
            exact iff_of_true (stretch_initial F _ ((Nat.mod_le _ _).trans (by omega)))
              (kept_zero spc _ rest)
      | some lcn =>
        obtain ⟨table', prev, -, tracks', next, last⟩ :=
          file_step clusters long tracks count here place
          (low lcn place) (Nat.pos_of_ne_zero more) walk
        have sectors := Nat.mul_pos long positive
        have cur := runSectors_volume spc place
        have small : g % 2 ^ 32 = g ↔ g < 2 ^ 32 := by omega
        dsimp only
        by_cases whole : run.length * spc * 512 ≤ left
        · obtain ⟨extends', right⟩ := ih below.tail tracks' rfl (next whole)
          have n : (min left (run.length * spc * 512) + 511) / 512 = run.length * spc := by omega
          rw [n] at extends' right
          refine ⟨((List.prefix_append _ _).trans (List.prefix_append _ _)).trans extends', ?_⟩
          constructor
          · intro correct
            have first := extends'.trans correct
            rw [stretch_prefix_iff (Nat.mod_le _ _)] at first
            have kept : g < 2 ^ 32 := small.mp (first.resolve_left (by omega)).1
            refine ⟨kept, right.mp ?_⟩
            rw [small.mpr kept, List.replicate_zero, List.append_nil, List.append_assoc, ← cur]
            exact correct
          · rintro ⟨kept, rest'⟩
            have correct := right.mpr rest'
            rw [small.mpr kept, List.replicate_zero, List.append_nil, List.append_assoc, ← cur]
              at correct
            exact correct
        · have ends := last (not_le.mp whole)
          have zero : left - run.length * spc * 512 = 0 := by omega
          rw [ends, tracks'.expand_table, Nat.zero_mod, List.replicate_zero, List.append_nil, zero]
          refine ⟨(List.prefix_append _ _).trans (List.prefix_append _ _), ?_⟩
          rw [stretch_prefix_iff (Nat.mod_le _ _), small, or_iff_right (by omega)]
          apply and_congr_right'
          refine iff_of_true ?_ (kept_zero spc 0 rest)
          have le : (min left (run.length * spc * 512) + 511) / 512 ≤ run.length * spc := by omega
          rw [cur]
          exact (volumeSectors_initial _ le).trans (List.prefix_append _ _)

end Walk

/-! ## The table of a file -/

/-- Sectors of a cluster. -/
def Attr.clusterSectors (na : Attr) : Nat := 2 ^ na.clusterSizeBits / 512

theorem clusterSectors_mul {na : Attr} (mapped : na.Mapped) :
    2 ^ na.clusterSizeBits = Attr.clusterSectors na * 512 := by
  have sector : 512 ∣ 2 ^ na.clusterSizeBits := pow_dvd_pow 2 mapped.clusters
  exact (Nat.div_mul_cancel sector).symm

/-- At every index below its length one list has the entry of the other. -/
theorem prefix_iff_getElem? {α : Type} (xs ys : List α) :
    xs <+: ys ↔ ∀ j < xs.length, xs[j]? = ys[j]? := by
  rw [List.prefix_iff_getElem?]
  constructor
  · intro pre j inside
    rw [pre j inside, List.getElem?_eq_getElem inside]
  · intro same j inside
    rw [← same j inside, List.getElem?_eq_getElem inside]

/-- The sector of a file at each place of its table, for every runlist, data size
and initialized size. -/
theorem ntfsFileToSectors_order_iff {na : Attr} {startSector : UInt32} {sizeBehind : Nat → UInt32}
    {max : Nat} {table : List Section} (mapped : na.Mapped)
    (below : Below (Attr.clusterSectors na) na.runs)
    (done : ntfsFileToSectors na startSector sizeBehind max false = some (some table))
    (room : table.length < max) :
    (∀ j < (expand table).length,
        (expand table)[j]? = (fileSectors (Attr.clusterSectors na) na.runs)[j]?) ↔
      Kept (Attr.clusterSectors na) 0 na.initializedSize na.runs := by
  rw [← prefix_iff_getElem?]
  obtain ⟨table', done, same⟩ := ntfsFileToSectors_loop done
  rw [if_neg Bool.false_ne_true] at same
  subst same
  rcases fileLoop_walk mapped done room with ⟨blank, rfl⟩ | ⟨-, ret, walk, -⟩
  · rw [blank]
    exact iff_of_true List.nil_prefix (kept_zero _ 0 na.runs)
  · have right := (readRuns_kept (clusterSectors_mul mapped) na.runs below .empty rfl walk room).2
    simpa only [List.replicate_zero, List.append_nil, List.nil_append] using right

/-- A hole of a cluster in front of an allocated cluster: the table is right. -/
theorem ntfsFileToSectors_order_hole :
    Kept 8 0 8192 [⟨none, 1⟩, ⟨some 5, 1⟩] ∧ ∀ j < (expand [⟨holeMark, 8⟩, ⟨40, 8⟩]).length,
      (expand [⟨holeMark, 8⟩, ⟨40, 8⟩])[j]? = (fileSectors 8 [⟨none, 1⟩, ⟨some 5, 1⟩])[j]? := by
  have mapped : Attr.Mapped ⟨[⟨none, 1⟩, ⟨some 5, 1⟩], 12, 8192, 8192⟩ :=
    ⟨by decide, by decide, by decide, by decide⟩
  have below : Below 8 [⟨none, 1⟩, ⟨some 5, 1⟩] := by
    intro run member
    rcases List.mem_pair.mp member with rfl | rfl
    · exact ⟨by decide, fun lcn place => by cases place⟩
    · exact ⟨by decide, fun lcn place => by cases place; decide⟩
  have done : ntfsFileToSectors ⟨[⟨none, 1⟩, ⟨some 5, 1⟩], 12, 8192, 8192⟩ 0 (fun _ => 0) 8 false =
      some (some [⟨holeMark, 8⟩, ⟨40, 8⟩]) := by decide +kernel
  have kept : Kept 8 0 8192 [⟨none, 1⟩, ⟨some 5, 1⟩] := by simp [Kept]
  exact ⟨kept, (ntfsFileToSectors_order_iff mapped below done (by decide)).mpr kept⟩

/-- The bytes end in the first sector of a hole of two: the allocated run behind it
is entered where the second sector of the hole belongs. -/
theorem order_hole_tail :
    ∃ (na : Attr) (table : List Section), na.Mapped ∧ Below (Attr.clusterSectors na) na.runs ∧
      ntfsFileToSectors na 0 (fun _ => 0) 8 false = some (some table) ∧ table.length < 8 ∧
      ¬ ∀ j < (expand table).length,
        (expand table)[j]? = (fileSectors (Attr.clusterSectors na) na.runs)[j]? := by
  refine ⟨⟨[⟨none, 1⟩, ⟨some 7, 1⟩], 10, 2048, 100⟩, [⟨holeMark, 1⟩, ⟨14, 1⟩],
    ⟨by decide, by decide, by decide, by decide⟩, ?_, by decide +kernel, by decide, by decide⟩
  intro run member
  rcases List.mem_pair.mp member with rfl | rfl
  · exact ⟨by decide, fun lcn place => by cases place⟩
  · exact ⟨by decide, fun lcn place => by cases place; decide⟩

end ExtentOrder
