import NtfsIsoMounter.ExtentOrder

/-!
# The total of a table

The comment on `total_size` takes the sizes of a table for the size of the file,
rounded up to a sector, and the plugin takes them for the size of the disc. Two
numbers decide the total: the sectors the walk enters, and how often a size
stored in 32 bits is carried past them.
-/

namespace TableTotals

open SectionTables RunlistSectors ExtentOrder

/-- Bytes rounded up to whole sectors. -/
def sectorsFor (bytes : Nat) : Nat := (bytes + 511) / 512

/-- Bytes of a run a walk with `count` bytes to go takes. -/
def taken (clusterSizeBits : Nat) (count : Int) (run : Run) : Int :=
  min count (run.length * 2 ^ clusterSizeBits : Nat)

/-- `to_read` for an allocated run, a multiple of 512. -/
def rounded (n : Int) : Int := if n % 512 ≠ 0 then n + 512 - n.tmod 512 else n

/-- `count` behind an allocated run. -/
def lessTaken (count br : Int) : Int := if br > 0 then count - br else count

/-- The sectors entered by a walk with `count` bytes to go. -/
def listed (clusterSizeBits : Nat) (count : Int) : List Run → Int
  | [] => 0
  | run :: rest =>
    if count = 0 then 0
    else
      let n := taken clusterSizeBits count run
      match run.lcn with
      | none => (Max.max n 512).tdiv 512 + listed clusterSizeBits (count - Max.max n 512) rest
      | some _ => (rounded n).tdiv 512 +
          if n = rounded n then listed clusterSizeBits (lessTaken count n) rest else 0

/-- How often a stored size is carried past 32 bits, for a table whose last entry
has size `size`. -/
def carries (clusterSizeBits prev : Nat) (size count : Int) : List Run → Int
  | [] => 0
  | run :: rest =>
    if count = 0 then 0
    else
      let n := taken clusterSizeBits count run
      match run.lcn with
      | none =>
        let grown := (if prev = holeSector then size else 0) + (Max.max n 512).tdiv 512
        grown / 2 ^ 32 +
          carries clusterSizeBits holeSector (grown % 2 ^ 32) (count - Max.max n 512) rest
      | some lcn =>
        let cur := u64 (lcn * 2 ^ clusterSizeBits) / 512
        let k := (rounded n).tdiv 512
        let grown := (if prev = cur then size else 0) + k
        let prev' := if prev = cur then u64 (prev + k).toNat
          else u32 ((UInt32.ofNat cur).toNat + (toU32 k).toNat)
        grown / 2 ^ 32 +
          if n = rounded n then
            carries clusterSizeBits prev' (grown % 2 ^ 32) (lessTaken count n) rest
          else 0

/-! ## One entry -/

theorem toU32_int (n : Int) : ((toU32 n).toNat : Int) = n % 2 ^ 32 := by
  have nonneg : 0 ≤ n % 2 ^ 32 := Int.emod_nonneg n (by decide)
  have below : n % 2 ^ 32 < 2 ^ 32 := Int.emod_lt_of_pos n (by decide)
  rw [toU32, UInt32.toNat_ofNat', Nat.mod_eq_of_lt (by omega), Int.toNat_of_nonneg nonneg]

/-- The size of the last entry; without one `prev_sector` is the mark of a hole. -/
inductive LastSize : List Section → Nat → Int → Prop
  | empty : LastSize [] holeSector 0
  | entry {front : List Section} {s : Section} {prev : Nat} {size : Int} :
      (s.size.toNat : Int) = size → LastSize (front ++ [s]) prev size

/-- The sectors of a table in bytes behind those of another: `n` entered, `c` carries. -/
def Adds (before after : List Section) (n c : Int) : Prop :=
  (imageSize after : Int) = imageSize before + 512 * (n - 2 ^ 32 * c)

theorem Adds.trans {a b c : List Section} {n k x y : Int} (first : Adds a b n x)
    (second : Adds b c k y) : Adds a c (n + k) (x + y) := by
  rw [Adds] at *
  rw [second, first]
  ring

theorem adds_entry (table : List Section) (start : UInt32) (n : Int) :
    Adds table (table ++ [⟨start, toU32 n⟩]) n (n / 2 ^ 32) := by
  have stored := toU32_int n
  rw [Int.emod_def] at stored
  rw [Adds, imageSize_append, imageSize_cons, imageSize_nil, Section.bytes]
  push_cast
  rw [stored]
  omega

theorem adds_grown (front : List Section) (s : Section) (n : Int) :
    Adds (front ++ [s]) (front ++ [{ s with size := toU32 (s.size.toNat + n) }]) n
      ((s.size.toNat + n) / 2 ^ 32) := by
  have stored := toU32_int (s.size.toNat + n)
  rw [Int.emod_def] at stored
  rw [Adds, imageSize_append, imageSize_append, imageSize_cons, imageSize_cons, imageSize_nil,
    Section.bytes, Section.bytes]
  push_cast
  rw [stored]
  omega

/-- Sectors of a hole. -/
theorem LastSize.hole {w w' : Walk} {size n : Int} (last : LastSize w.table w.prev size)
    (added : w.hole n = some w') :
    let grown := (if w.prev = holeSector then size else 0) + n
    Adds w.table w'.table n (grown / 2 ^ 32) ∧ w'.prev = holeSector ∧
      LastSize w'.table holeSector (grown % 2 ^ 32) := by
  obtain ⟨table, prev, total, count⟩ := w
  dsimp only at last ⊢
  rw [Walk.hole] at added
  dsimp only at added
  cases last with
  | empty =>
    rw [if_pos rfl] at added
    cases added
    rw [if_pos rfl, Int.zero_add]
    exact ⟨adds_entry [] holeMark n, rfl, @LastSize.entry [] _ _ _ (toU32_int n)⟩
  | @entry front s prev size stored =>
    rw [if_neg (List.concat_ne_nil s front)] at added
    by_cases follows : prev = holeSector
    · rw [if_pos follows, growLast_append] at added
      cases added
      subst follows stored
      rw [if_pos rfl]
      exact ⟨adds_grown front s n, rfl, .entry (toU32_int _)⟩
    · rw [if_neg follows] at added
      cases added
      rw [if_neg follows, Int.zero_add]
      exact ⟨adds_entry _ holeMark n, rfl, .entry (toU32_int n)⟩

/-- Sectors of the volume. -/
theorem LastSize.sectors {w w' : Walk} {size n : Int} {cur : Nat}
    (last : LastSize w.table w.prev size) (added : w.sectors cur n = some w') :
    let grown := (if w.prev = cur then size else 0) + n
    Adds w.table w'.table n (grown / 2 ^ 32) ∧
      w'.prev = (if w.prev = cur then u64 (w.prev + n).toNat
        else u32 ((UInt32.ofNat cur).toNat + (toU32 n).toNat)) ∧
      LastSize w'.table w'.prev (grown % 2 ^ 32) := by
  obtain ⟨table, prev, total, count⟩ := w
  dsimp only at last ⊢
  rw [Walk.sectors] at added
  dsimp only at added
  by_cases follows : prev = cur
  · rw [if_pos follows] at added
    rw [if_pos follows, if_pos follows]
    cases last with
    | empty => cases added
    | entry stored =>
      rw [growLast_append] at added
      cases added
      subst stored
      exact ⟨adds_grown _ _ n, rfl, .entry (toU32_int _)⟩
  · rw [if_neg follows] at added
    cases added
    rw [if_neg follows, if_neg follows, Int.zero_add]
    exact ⟨adds_entry table _ n, rfl, .entry (toU32_int n)⟩

/-! ## The walk -/

/-- What a walk adds to the table. -/
theorem readRuns_adds {clusterSizeBits max : Nat} {total2 : Int} (runs : List Run)
    (long : ∀ run ∈ runs, 0 < run.length) {w : Walk} {size : Int}
    (last : LastSize w.table w.prev size) {ret : Int} {table : List Section}
    (walk : readRuns clusterSizeBits max total2 runs 0 w = some (ret, table))
    (room : table.length < max) :
    Adds w.table table (listed clusterSizeBits w.count runs)
      (carries clusterSizeBits w.prev size w.count runs) := by
  have nothing (table : List Section) : Adds table table 0 0 := by
    rw [Adds]
    ring
  induction runs generalizing w size with
  | nil =>
    rw [readRuns_nil walk]
    exact nothing _
  | cons run rest ih =>
    have ih' := @ih fun r hr => long r (List.mem_cons_of_mem run hr)
    rw [listed, carries]
    by_cases done : w.count = 0
    · rw [readRuns_done _ _ done] at walk
      cases walk
      rw [if_pos done, if_pos done]
      exact nothing _
    · by_cases full : Max.max 0 max ≤ w.table.length
      · rw [readRuns_full _ _ (by omega)] at walk
        cases walk
        omega
      · rw [if_neg done, if_neg done]
        have here := long run List.mem_cons_self
        obtain ⟨n, hn⟩ : ∃ n, n = taken clusterSizeBits w.count run := ⟨_, rfl⟩
        dsimp only
        rw [← hn]
        cases place : run.lcn with
        | none =>
          have bytes : Max.max n 512 =
              Max.max (min w.count (run.length * 2 ^ clusterSizeBits : Nat)) 512 := by
            rw [hn, taken]
          rw [readRuns_hole done (by omega) here place bytes] at walk
          obtain ⟨w', added, next⟩ := Option.bind_eq_some_iff.mp walk
          obtain ⟨-, count⟩ := hole_counts added
          obtain ⟨adds, prev, last'⟩ := last.hole added
          rw [← prev] at last'
          have rest' := ih' (w := ⟨w'.table, w'.prev, w'.total + Max.max n 512,
            w'.count - Max.max n 512⟩) last' next
          dsimp only at rest' ⊢
          rw [count, prev] at rest'
          exact adds.trans rest'
        | some lcn =>
          have sectors : rounded n = if n % 512 ≠ 0 then n + 512 - n.tmod 512 else n := rfl
          rw [readRuns_sectors done (by omega) here place hn sectors] at walk
          obtain ⟨w', added, next⟩ := Option.bind_eq_some_iff.mp walk
          obtain ⟨-, count⟩ := sectors_counts added
          obtain ⟨adds, prev, last'⟩ := last.sectors added
          dsimp only at next ⊢
          rw [← prev]
          by_cases whole : n = rounded n
          · rw [if_pos whole, if_pos whole]
            rw [if_pos whole] at next
            by_cases moved : n > 0
            · rw [if_pos moved] at next
              have rest' := ih' (w := ⟨w'.table, w'.prev, w'.total + n, w'.count - n⟩) last' next
              dsimp only at rest'
              rw [count] at rest'
              rw [lessTaken, if_pos moved]
              exact adds.trans rest'
            · rw [if_neg moved] at next
              have rest' := ih' last' next
              rw [count] at rest'
              rw [lessTaken, if_neg moved]
              exact adds.trans rest'
          · rw [if_neg whole, if_neg whole, Int.add_zero, Int.add_zero]
            rw [if_neg whole] at next
            by_cases moved : n > 0
            · rw [if_pos moved] at next
              cases next
              exact adds
            · rw [if_neg moved] at next
              cases next
              exact adds

/-! ## Where the bytes end -/

/-- The run that holds the last of `left` bytes, its bytes up to there and the runs
behind it. -/
def lastRun (clusterSizeBits : Nat) : Nat → List Run → Option (Run × Nat × List Run)
  | _, [] => none
  | left, run :: rest =>
    if left ≤ run.length * 2 ^ clusterSizeBits then some (run, left, rest)
    else lastRun clusterSizeBits (left - run.length * 2 ^ clusterSizeBits) rest

/-- The sectors entered behind a hole of which less than a sector was left: one for
each hole, and for an allocated run 1 less the holes before it. -/
def behind (runs : List Run) : Nat :=
  if runs.all (fun run => run.lcn.isNone) then runs.length else 1

/-- The sectors entered for `left` bytes that end in `run`. -/
def ending (left : Nat) (run : Run) (bytes : Nat) (rest : List Run) : Nat :=
  match run.lcn with
  | some _ => sectorsFor left
  | none => if 512 ≤ bytes then left / 512 else left / 512 + 1 + behind rest

theorem ending_shift {left k : Nat} (le : 512 * k ≤ left) (run : Run) (bytes : Nat)
    (rest : List Run) :
    k + ending (left - 512 * k) run bytes rest = ending left run bytes rest := by
  rw [ending, ending]
  cases run.lcn with
  | none =>
    dsimp only
    split <;> omega
  | some lcn =>
    dsimp only [sectorsFor]
    omega

section Endings
variable {clusterSizeBits : Nat}

theorem listed_zero (runs : List Run) : listed clusterSizeBits 0 runs = 0 := by
  cases runs with
  | nil => rfl
  | cons run rest => rw [listed, if_pos rfl]

theorem carries_zero (prev : Nat) (size : Int) (runs : List Run) :
    carries clusterSizeBits prev size 0 runs = 0 := by
  cases runs with
  | nil => rfl
  | cons run rest => rw [carries, if_pos rfl]

/-- The bytes that end inside a run. -/
theorem taken_last {run : Run} {left : Nat} (inside : left ≤ run.length * 2 ^ clusterSizeBits) :
    taken clusterSizeBits left run = left := by
  rw [taken]
  omega

theorem rounded_natCast (n : Nat) : rounded n = (512 * sectorsFor n : Nat) := by
  have remainder : (n : Int).tmod 512 = ((n % 512 : Nat) : Int) := rfl
  rw [rounded, remainder, sectorsFor]
  split <;> omega

theorem listed_behind (clusterSizeBits : Nat) (runs : List Run)
    (long : ∀ run ∈ runs, 0 < run.length) {r : Nat} (inside : 0 < r ∧ r < 512) (h : Nat) :
    listed clusterSizeBits ((r : Int) - 512 * (h + 1)) runs =
      if runs.all (fun run => run.lcn.isNone) then (runs.length : Int) else 1 - h := by
  induction runs generalizing h with
  | nil => rfl
  | cons run rest ih =>
    have positive : 0 < run.length * 2 ^ clusterSizeBits :=
      Nat.mul_pos (long run List.mem_cons_self) (Nat.pow_pos (by decide))
    have negative : taken clusterSizeBits ((r : Int) - 512 * (h + 1)) run =
        (r : Int) - 512 * (h + 1) := by
      rw [taken]
      omega
    rw [listed, if_neg (by omega), negative]
    cases place : run.lcn with
    | none =>
      have one : Max.max ((r : Int) - 512 * (h + 1)) 512 = 512 := by omega
      have next : (r : Int) - 512 * (h + 1) - 512 = r - 512 * ((h + 1 : Nat) + 1) := by
        push_cast
        omega
      dsimp only
      rw [one, next, ih fun r hr => long r (List.mem_cons_of_mem run hr), List.all_cons, place,
        Option.isNone_none, Bool.true_and, List.length_cons]
      split
      · push_cast
        exact Int.add_comm _ _
      · push_cast
        have : (512 : Int).tdiv 512 = 1 := rfl
        omega
    | some lcn =>
      have remainder : ((r : Int) - 512 * (h + 1)) % 512 = r := by omega
      have up : rounded ((r : Int) - 512 * (h + 1)) = 512 * (1 - h) := by
        rw [rounded, remainder, tmod_below h inside, if_pos (by omega)]
        omega
      dsimp only
      rw [up, if_neg (by omega), Int.mul_tdiv_cancel_left _ (by decide), Int.add_zero,
        List.all_cons,
        place, Option.isNone_some, Bool.false_and, if_neg Bool.false_ne_true]

variable (clusters : 9 ≤ clusterSizeBits)
include clusters

/-- A run that lies before the last byte is taken whole. -/
theorem taken_whole {run : Run} {left : Nat} (before : run.length * 2 ^ clusterSizeBits ≤ left)
    (long : 0 < run.length) :
    ∃ k, run.length * 2 ^ clusterSizeBits = 512 * k ∧ 0 < k ∧
      taken clusterSizeBits left run = (512 * k : Nat) ∧
      rounded ((512 * k : Nat) : Int) = (512 * k : Nat) := by
  have sector : 512 ∣ 2 ^ clusterSizeBits := pow_dvd_pow 2 clusters
  obtain ⟨k, hk⟩ : 512 ∣ run.length * 2 ^ clusterSizeBits := sector.mul_left _
  have positive : 0 < run.length * 2 ^ clusterSizeBits :=
    Nat.mul_pos long (Nat.pow_pos (by decide))
  refine ⟨k, hk, by omega, ?_, ?_⟩
  · rw [taken, hk]
    omega
  · rw [rounded, if_neg]
    omega

theorem listed_ending {runs : List Run} (long : ∀ run ∈ runs, 0 < run.length) {left bytes : Nat}
    (some' : 0 < left) {run : Run} {rest : List Run}
    (ends : lastRun clusterSizeBits left runs = some (run, bytes, rest)) :
    listed clusterSizeBits left runs = ending left run bytes rest := by
  induction runs generalizing left with
  | nil => cases ends
  | cons first others ih =>
    have here := long first List.mem_cons_self
    have long' : ∀ run ∈ others, 0 < run.length := fun r hr =>
      long r (List.mem_cons_of_mem first hr)
    rw [lastRun] at ends
    rw [listed, if_neg (by omega)]
    by_cases last : left ≤ first.length * 2 ^ clusterSizeBits
    · rw [if_pos last] at ends
      cases ends
      rw [taken_last last, ending]
      cases place : run.lcn with
      | none =>
        dsimp only
        by_cases short : 512 ≤ bytes
        · have whole : Max.max (bytes : Int) 512 = bytes := by omega
          rw [whole, Int.sub_self, listed_zero, if_pos short]
          rfl
        · have sector : Max.max (bytes : Int) 512 = 512 := by omega
          have next := listed_behind clusterSizeBits rest long'
            ⟨some', not_le.mp short⟩ 0
          have count : (bytes : Int) - 512 * ((0 : Nat) + 1) = bytes - 512 := by omega
          have one : (512 : Int).tdiv 512 = 1 := rfl
          rw [count] at next
          rw [sector, next, if_neg short, behind, one]
          split <;> omega
      | some lcn =>
        dsimp only
        have sectors : ((512 * sectorsFor bytes : Nat) : Int).tdiv 512 = sectorsFor bytes := by
          push_cast
          exact Int.mul_tdiv_cancel_left _ (by decide)
        have moved : lessTaken bytes bytes = 0 := by
          rw [lessTaken, if_pos (by omega), Int.sub_self]
        rw [rounded_natCast, sectors, moved, listed_zero, ite_self, Int.add_zero]
    · rw [if_neg last] at ends
      obtain ⟨k, size, positive, whole, up⟩ := taken_whole clusters (not_le.mp last).le here
      rw [size] at ends last
      have next := ih long' (by omega) ends
      have left' : (left : Int) - (512 * k : Nat) = (left - 512 * k : Nat) := by omega
      have sectors : ((512 * k : Nat) : Int).tdiv 512 = k := by
        push_cast
        exact Int.mul_tdiv_cancel_left _ (by decide)
      rw [← ending_shift (not_le.mp last).le, whole]
      cases place : first.lcn with
      | none =>
        have bytes : Max.max ((512 * k : Nat) : Int) 512 = (512 * k : Nat) := by omega
        dsimp only
        rw [bytes, left', next, sectors]
        push_cast
        rfl
      | some lcn =>
        have moved : lessTaken left (512 * k : Nat) = (left - 512 * k : Nat) := by
          rw [lessTaken, if_pos (by omega), left']
        dsimp only
        rw [up, if_pos rfl, moved, next, sectors]
        push_cast
        rfl

theorem carries_nonneg {runs : List Run} (long : ∀ run ∈ runs, 0 < run.length) {left bytes : Nat}
    (some' : 0 < left) {run : Run} {rest : List Run}
    (ends : lastRun clusterSizeBits left runs = some (run, bytes, rest))
    (sector : run.lcn = none → 512 ≤ bytes) (prev : Nat) {size : Int} (nonneg : 0 ≤ size) :
    0 ≤ carries clusterSizeBits prev size left runs := by
  have grows {p : Prop} [Decidable p] {size n : Int} (hsize : 0 ≤ size) (hn : 0 ≤ n) :
      0 ≤ ((if p then size else 0) + n) / 2 ^ 32 := by
    split <;> omega
  induction runs generalizing left prev size with
  | nil => cases ends
  | cons first others ih =>
    have here := long first List.mem_cons_self
    have long' : ∀ run ∈ others, 0 < run.length := fun r hr =>
      long r (List.mem_cons_of_mem first hr)
    have kept (n : Int) : 0 ≤ n % 2 ^ 32 := Int.emod_nonneg n (by decide)
    rw [lastRun] at ends
    rw [carries, if_neg (by omega)]
    by_cases last : left ≤ first.length * 2 ^ clusterSizeBits
    · rw [if_pos last] at ends
      cases ends
      rw [taken_last last]
      cases place : run.lcn with
      | none =>
        have whole : Max.max (bytes : Int) 512 = bytes := by
          have := sector place
          omega
        dsimp only
        rw [whole, Int.sub_self, carries_zero, Int.add_zero]
        exact grows nonneg (Int.tdiv_nonneg (by omega) (by decide))
      | some lcn =>
        have moved : lessTaken bytes bytes = 0 := by
          rw [lessTaken, if_pos (by omega), Int.sub_self]
        dsimp only
        rw [rounded_natCast, moved, carries_zero, ite_self, Int.add_zero]
        exact grows nonneg (Int.tdiv_nonneg (by omega) (by decide))
    · rw [if_neg last] at ends
      obtain ⟨k, size', positive, whole, up⟩ := taken_whole clusters (not_le.mp last).le here
      rw [size'] at ends last
      have left' : (left : Int) - (512 * k : Nat) = (left - 512 * k : Nat) := by omega
      have sectors : 0 ≤ ((512 * k : Nat) : Int).tdiv 512 := Int.tdiv_nonneg (by omega) (by decide)
      rw [whole]
      cases place : first.lcn with
      | none =>
        have bytes : Max.max ((512 * k : Nat) : Int) 512 = (512 * k : Nat) := by omega
        dsimp only
        rw [bytes, left']
        exact Int.add_nonneg (grows nonneg sectors) (ih long' (by omega) ends _ (kept _))
      | some lcn =>
        have moved : lessTaken left (512 * k : Nat) = (left - 512 * k : Nat) := by
          rw [lessTaken, if_pos (by omega), left']
        dsimp only
        rw [up, if_pos rfl, moved]
        exact Int.add_nonneg (grows nonneg sectors) (ih long' (by omega) ends _ (kept _))

end Endings

/-! ## The total and the data size -/

theorem lastRun_isSome {clusterSizeBits : Nat} {runs : List Run} {left : Nat} (some' : 0 < left)
    (covers : left ≤ clusterCount runs * 2 ^ clusterSizeBits) :
    ∃ run bytes rest, lastRun clusterSizeBits left runs = some (run, bytes, rest) := by
  induction runs generalizing left with
  | nil =>
    rw [clusterCount, List.map_nil, List.sum_nil, Nat.zero_mul] at covers
    omega
  | cons first others ih =>
    rw [lastRun]
    by_cases last : left ≤ first.length * 2 ^ clusterSizeBits
    · rw [if_pos last]
      exact ⟨first, left, others, rfl⟩
    · rw [if_neg last]
      rw [clusterCount_cons] at covers
      exact ih (by omega) (by omega)

/-- Whether the sizes of a table fit 32 bits and the initialized bytes, which end in
`run`, end in the last sector of the data, or with the data and a sector where the run
is a hole. Where they end in the first sector of a hole the walk goes on behind it. -/
def EndsWell (na : Attr) (run : Run) (bytes : Nat) (rest : List Run) : Prop :=
  let lost := carries na.clusterSizeBits holeSector 0 na.initializedSize na.runs
  if run.lcn ≠ none then lost = 0 ∧ sectorsFor na.initializedSize = sectorsFor na.dataSize
  else if 512 ≤ bytes then lost = 0 ∧ na.initializedSize = na.dataSize ∧ 512 ∣ na.dataSize
  else (na.initializedSize / 512 + 1 + behind rest : Nat) =
    (sectorsFor na.dataSize : Int) + 2 ^ 32 * lost

instance (na : Attr) (run : Run) (bytes : Nat) (rest : List Run) :
    Decidable (EndsWell na run bytes rest) :=
  inferInstanceAs (Decidable (ite _ _ _))

/-- The condition under which the sizes of the table add up to the file. -/
def Complete (na : Attr) : Prop :=
  na.dataSize = 0 ∨ 0 < na.initializedSize ∧
    ∃ run bytes rest,
      lastRun na.clusterSizeBits na.initializedSize na.runs = some (run, bytes, rest) ∧
        EndsWell na run bytes rest

theorem imageSize_relocated (f : UInt32 → UInt32) (table : List Section) :
    imageSize (table.map fun s => { s with start := f s.start }) = imageSize table := by
  rw [imageSize, imageSize, List.map_map]
  rfl

/-- The total of the table of a file, for every runlist, data size and initialized size. -/
theorem ntfsFileToSectors_total_iff {na : Attr} {startSector : UInt32} {sizeBehind : Nat → UInt32}
    {max : Nat} {phys : Bool} {table : List Section} (mapped : na.Mapped)
    (done : ntfsFileToSectors na startSector sizeBehind max phys = some (some table))
    (room : table.length < max) :
    imageSize table = sectorsFor na.dataSize * 512 ↔ Complete na := by
  obtain ⟨table', loop, same⟩ := ntfsFileToSectors_loop done
  have size : imageSize table = imageSize table' := by
    rw [same]
    split
    · exact imageSize_relocated (· + startSector) table'
    · rfl
  have length : table.length = table'.length := by
    rw [same]
    split
    · exact List.length_map _
    · rfl
  have init := mapped.init
  have covers := mapped.covers
  rw [size, Complete]
  rcases fileLoop_walk mapped loop (by omega) with ⟨blank, rfl⟩ | ⟨some', ret, walk, -⟩
  · rw [imageSize_nil, blank, sectorsFor]
    constructor
    · intro total
      exact Or.inl (by omega)
    · rintro (empty | ⟨never, -⟩)
      · omega
      · omega
  · obtain ⟨run, bytes, rest, ends⟩ := lastRun_isSome some' (init.trans covers)
    have total := readRuns_adds na.runs mapped.long .empty walk (by omega)
    rw [listed_ending mapped.clusters mapped.long some' ends, Adds, imageSize_nil, ending] at total
    have kept (sector : run.lcn = none → 512 ≤ bytes) :=
      carries_nonneg mapped.clusters mapped.long some' ends sector holeSector (le_refl (0 : Int))
    have here : (∃ run' bytes' rest', lastRun na.clusterSizeBits na.initializedSize na.runs =
        some (run', bytes', rest') ∧ EndsWell na run' bytes' rest') ↔
          EndsWell na run bytes rest := by
      rw [ends]
      constructor
      · rintro ⟨run', bytes', rest', same, well⟩
        cases same
        exact well
      · intro well
        exact ⟨run, bytes, rest, rfl, well⟩
    rw [or_iff_right (by omega), and_iff_right some', here, EndsWell]
    generalize carries na.clusterSizeBits holeSector 0 na.initializedSize na.runs = lost at *
    cases place : run.lcn with
    | none =>
      rw [place] at total
      rw [if_neg (not_not.mpr rfl)]
      dsimp only at total
      by_cases sector : 512 ≤ bytes
      · have kept := kept (fun _ => sector)
        rw [if_pos sector] at total
        rw [if_pos sector, sectorsFor]
        constructor
        · intro law
          rw [law] at total
          refine ⟨?_, ?_, ?_⟩ <;> omega
        · rintro ⟨rfl, same, whole⟩
          omega
      · rw [if_neg sector] at total
        rw [if_neg sector]
        omega
    | some lcn =>
      have kept := kept (fun hole => by rw [place] at hole; cases hole)
      rw [place] at total
      rw [if_pos (by simp)]
      dsimp only [sectorsFor] at total ⊢
      constructor
      · intro law
        rw [law] at total
        constructor <;> omega
      · rintro ⟨rfl, same⟩
        omega

/-- A hole and 1000 bytes of an allocated cluster: ten sectors for 5096 bytes. -/
theorem ntfsFileToSectors_total_hole :
    imageSize [⟨holeMark, 8⟩, ⟨40, 2⟩] = sectorsFor 5096 * 512 := by
  have mapped : Attr.Mapped ⟨[⟨none, 1⟩, ⟨some 5, 1⟩], 12, 5096, 5096⟩ :=
    ⟨by decide, by decide, by decide, by decide⟩
  have table : ntfsFileToSectors ⟨[⟨none, 1⟩, ⟨some 5, 1⟩], 12, 5096, 5096⟩ 0 (fun _ => 0) 8 false =
      some (some [⟨holeMark, 8⟩, ⟨40, 2⟩]) := by
    decide +kernel
  refine (ntfsFileToSectors_total_iff mapped table (by decide)).mpr (Or.inr ⟨by decide, ?_⟩)
  exact ⟨⟨some 5, 1⟩, 1000, [], by decide, by decide +kernel⟩

/-- The table of a file that was given its size but only written at the start lacks
the sectors behind the initialized ones. -/
theorem total_uninitialized :
    ∃ (na : Attr) (table : List Section), na.Mapped ∧
      ntfsFileToSectors na 0 (fun _ => 0) 8 false = some (some table) ∧ table.length < 8 ∧
      imageSize table ≠ sectorsFor na.dataSize * 512 := by
  refine ⟨⟨[⟨some 5, 1⟩], 12, 4096, 100⟩, [⟨40, 1⟩],
    ⟨by decide, by decide, by decide, by decide⟩, by decide +kernel, by decide, by decide⟩

end TableTotals
