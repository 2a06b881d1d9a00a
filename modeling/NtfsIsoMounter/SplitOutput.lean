import Mathlib

/-!
# The image written into parts

`writeOutputFile` closes a part and opens the next one when a write runs past
`partitionSize`, once for each write. A part that ends exactly at the limit is
closed by the next write. The parts come out right as long as no write reaches
past the part that follows the one it starts from.
-/

namespace SplitOutput

/-- What the file system answers: how many bytes the k-th `fwrite` takes of
those it is given, and whether a part can be opened. -/
structure Disk where
  fwrite : Nat → Nat → Nat
  fopen : Nat → Bool

structure Disk.Works (disk : Disk) : Prop where
  fwrite : ∀ k n, disk.fwrite k n = n
  fopen : ∀ part, disk.fopen part = true

/-- The members of `Iso9660Gen` the writer uses; `current` is the content of
the open file, `none` where `fd` is null. -/
structure Output where
  closed : List (List UInt8)
  current : Option (List UInt8)
  bytesWrittenInPart : Int
  currentPart : Nat
  fwrites : Nat

/-- The part files, in the order of their numbers. -/
def Output.parts (o : Output) : List (List UInt8) := o.closed ++ o.current.toList

/-- The first file open, nothing written. -/
def opened : Output := ⟨[], some [], 0, 0, 0⟩

/-- `fwrite(buf, 1, size, fd)` and the comparison with `size`. -/
def fwriteAll (disk : Disk) (o : Output) (bytes : List UInt8) : Bool × Output :=
  let n := disk.fwrite o.fwrites bytes.length
  (n == bytes.length,
    { o with current := o.current.map (· ++ bytes.take n), fwrites := o.fwrites + 1 })

def closeOutputFile (o : Output) : Output :=
  { o with closed := o.parts, current := none }

/-- What the first part takes and what is left for the next, as signed numbers. -/
def division (numOfParts : Nat) (partitionSize : Int) (o : Output) (size : Int) : Int × Int :=
  if numOfParts = 1 then (size, 0)
  else if o.bytesWrittenInPart + size > partitionSize then
    let remSize := o.bytesWrittenInPart + size - partitionSize
    (size - remSize, remSize)
  else (size, 0)

/-- The part switch and the second `fwrite`. -/
def writeRemainder (disk : Disk) (o : Output) (rest : List UInt8) : Bool × Output :=
  let o := { closeOutputFile o with bytesWrittenInPart := 0, currentPart := o.currentPart + 1 }
  if o.currentPart ≥ 100 then (false, o)
  else if disk.fopen o.currentPart = false then (false, o)
  else
    let (ok, o) := fwriteAll disk { o with current := some [] } rest
    if ok then (true, { o with bytesWrittenInPart := o.bytesWrittenInPart + rest.length })
    else (false, o)

/-- Returned flag and new state; `none` where a negative size reaches `fwrite`. -/
def writeOutputFile (disk : Disk) (numOfParts : Nat) (partitionSize : Int) (o : Output)
    (buf : List UInt8) : Option (Bool × Output) :=
  if o.current = none then some (false, o)
  else
    let (bSize, remSize) := division numOfParts partitionSize o buf.length
    if bSize < 0 then none
    else
      let (ok, o) := if bSize = 0 then (true, o) else fwriteAll disk o (buf.take bSize.toNat)
      if ok = false then some (false, o)
      else if numOfParts = 1 then some (true, o)
      else if remSize = 0 then
        some (true, { o with bytesWrittenInPart := o.bytesWrittenInPart + bSize })
      else some (writeRemainder disk o (buf.drop bSize.toNat))

/-- A sequence of writes, ended by the first one that returns false. -/
def writeAll (disk : Disk) (numOfParts : Nat) (partitionSize : Int) :
    Output → List (List UInt8) → Option (Bool × Output)
  | o, [] => some (true, o)
  | o, buf :: rest =>
    match writeOutputFile disk numOfParts partitionSize o buf with
    | none => none
    | some (false, o) => some (false, o)
    | some (true, o) => writeAll disk numOfParts partitionSize o rest

/-- The number of parts `generate` computes. -/
def numOfParts (partitionSize totalSize : Nat) : Nat :=
  if partitionSize ≠ 0 then
    totalSize / partitionSize + if totalSize % partitionSize ≠ 0 then 1 else 0
  else 1

/-! ## What a run should leave -/

/-- All parts but the last are full, the last one is not empty, and together
they are the bytes written. -/
structure Split (partitionSize count : Nat) (written : List UInt8) (parts : List (List UInt8)) :
    Prop where
  bytes : parts.flatten = written
  count : parts.length = count
  shape : ∃ full last, parts = full ++ [last] ∧ (∀ p ∈ full, p.length = partitionSize) ∧
    0 < last.length ∧ last.length ≤ partitionSize

/-- The run ends, reports success and leaves a proper split. -/
def Splits (disk : Disk) (partitionSize : Nat) (bufs : List (List UInt8)) : Prop :=
  ∃ o, writeAll disk (numOfParts partitionSize bufs.flatten.length) partitionSize opened bufs =
      some (true, o) ∧
    Split partitionSize (numOfParts partitionSize bufs.flatten.length) bufs.flatten o.parts

/-- Counting from byte `pos`, every write ends at or before the end of the part
that follows the part of the last byte written before it. -/
def OneBoundary (partitionSize : Nat) : Nat → List Nat → Prop
  | _, [] => True
  | pos, n :: rest =>
    pos + n ≤ ((pos - 1) / partitionSize + 2) * partitionSize ∧
      OneBoundary partitionSize (pos + n) rest

/-! ## The parts after each write -/

/-- The state after `written`, with the closed parts `full` and the open one
`last`, every part proper so far. -/
structure Proper (partitionSize : Nat) (written : List UInt8) (o : Output)
    (full : List (List UInt8)) (last : List UInt8) : Prop where
  closed : o.closed = full
  current : o.current = some last
  counter : o.bytesWrittenInPart = (last.length : Int)
  number : o.currentPart = full.length
  bytes : full.flatten ++ last = written
  whole : ∀ p ∈ full, p.length = partitionSize
  low : last.length ≤ partitionSize
  started : full ≠ [] → 0 < last.length

theorem flatten_length_of_whole {n : Nat} {parts : List (List UInt8)}
    (whole : ∀ p ∈ parts, p.length = n) : parts.flatten.length = parts.length * n := by
  rw [List.length_flatten, List.map_congr_left whole, List.map_const', List.sum_replicate,
    smul_eq_mul]

section Steps
variable {disk : Disk} {P count : Nat} {written buf : List UInt8} {o : Output}
  {full : List (List UInt8)} {last : List UInt8}

theorem Proper.length (proper : Proper P written o full last) :
    written.length = full.length * P + last.length := by
  rw [← proper.bytes, List.length_append, flatten_length_of_whole proper.whole]

/-- The last byte before position `written.length` is in part `full.length`. -/
theorem Proper.part (proper : Proper P written o full last) :
    (written.length - 1) / P = full.length := by
  have low := proper.low
  rw [proper.length]
  cases full with
  | nil =>
    rw [List.length_nil, Nat.zero_mul, Nat.zero_add]
    apply Nat.div_eq_zero_iff.mpr
    omega
  | cons p rest =>
    have := proper.started (List.cons_ne_nil p rest)
    have split : (p :: rest).length * P + last.length - 1 =
        last.length - 1 + (p :: rest).length * P := by omega
    rw [split, Nat.add_mul_div_right _ _ (by omega), Nat.div_eq_of_lt (by omega), Nat.zero_add]

theorem fwriteAll_works (works : disk.Works) (o : Output) (bytes : List UInt8) :
    fwriteAll disk o bytes = (true, { o with
      current := o.current.map (· ++ bytes), fwrites := o.fwrites + 1 }) := by
  simp [fwriteAll, works.fwrite]

theorem Proper.fits (works : disk.Works) (many : count ≠ 1) (proper : Proper P written o full last)
    (room : last.length + buf.length ≤ P) :
    ∃ o', writeOutputFile disk count P o buf = some (true, o') ∧
      Proper P (written ++ buf) o' full (last ++ buf) := by
  have isOpen : o.current ≠ none := by simp [proper.current]
  have divided : division count P o buf.length = (↑buf.length, 0) := by
    rw [division, if_neg many, if_neg (by rw [proper.counter]; omega)]
  have bytes : full.flatten ++ (last ++ buf) = written ++ buf := by
    rw [← List.append_assoc, proper.bytes]
  have low : (last ++ buf).length ≤ P := by rwa [List.length_append]
  have started : full ≠ [] → 0 < (last ++ buf).length := by
    intro h
    have := proper.started h
    rw [List.length_append]
    omega
  cases buf with
  | nil =>
    refine ⟨o, ?_, proper.closed, ?_, ?_, proper.number, bytes, proper.whole, low, started⟩
    · simp only [writeOutputFile, isOpen, many, divided]
      simp
    · rw [proper.current, List.append_nil]
    · rw [proper.counter, List.append_nil]
  | cons b rest =>
    refine ⟨{ o with
      current := some (last ++ b :: rest)
      bytesWrittenInPart := o.bytesWrittenInPart + (b :: rest).length
      fwrites := o.fwrites + 1 }, ?_, proper.closed, rfl, ?_, proper.number, bytes, proper.whole,
      low, started⟩
    · have positive : ¬ ((b :: rest).length : Int) < 0 := by omega
      have nonzero : ((b :: rest).length : Int) ≠ 0 := by simp; omega
      simp only [writeOutputFile, many, divided, positive, nonzero, fwriteAll_works works,
        proper.current, Int.toNat_natCast, List.take_length, Option.map_some]
      rfl
    · simp only [proper.counter, List.length_append, Nat.cast_add]

/-- The state after the switch to the next part. -/
structure Switched (P : Nat) (o : Output) (full : List (List UInt8)) (last buf : List UInt8) :
    Prop where
  closed : o.closed = full ++ [last ++ buf.take (P - last.length)]
  current : o.current = some (buf.drop (P - last.length))
  counter : o.bytesWrittenInPart = ((buf.drop (P - last.length)).length : Int)
  number : o.currentPart = full.length + 1

theorem writeRemainder_switched (works : disk.Works) (rest : List UInt8) {filled : List UInt8}
    (closed : o.closed = full) (current : o.current = some filled)
    (number : o.currentPart = full.length) :
    ∃ r o', writeRemainder disk o rest = (r, o') ∧ (full.length + 1 < 100 → r = true) ∧
      (r = true → o'.closed = full ++ [filled] ∧ o'.current = some rest ∧
        o'.bytesWrittenInPart = (rest.length : Int) ∧ o'.currentPart = full.length + 1) := by
  by_cases few : full.length + 1 < 100
  · refine ⟨true, ⟨full ++ [filled], some rest, rest.length, full.length + 1, o.fwrites + 1⟩, ?_,
      fun _ => rfl, fun _ => ⟨rfl, rfl, rfl, rfl⟩⟩
    have open' : full.length < 99 := by omega
    simp [writeRemainder, closeOutputFile, Output.parts, closed, current, number, works.fopen,
      fwriteAll_works works, open']
  · refine ⟨false, ⟨full ++ [filled], none, 0, full.length + 1, o.fwrites⟩, ?_,
      fun h => absurd h few, nofun⟩
    simp only [writeRemainder, closeOutputFile, Output.parts, closed, current, number, ge_iff_le,
      Nat.not_lt.mp few, if_true, Option.toList_some]

/-- A write past the limit fills the part and goes on in the next. -/
theorem Proper.passes (works : disk.Works) (many : count ≠ 1)
    (proper : Proper P written o full last) (past : P < last.length + buf.length) :
    ∃ r o', writeOutputFile disk count P o buf = some (r, o') ∧
      (full.length + 1 < 100 → r = true) ∧ (r = true → Switched P o' full last buf) := by
  have low := proper.low
  have isOpen : o.current ≠ none := by simp [proper.current]
  have divided : division count P o buf.length =
      (((P - last.length : Nat) : Int), (last.length : Int) + buf.length - P) := by
    rw [division, if_neg many, proper.counter, if_pos (by omega)]
    apply Prod.ext
    · change (buf.length : Int) - (last.length + buf.length - P) = _
      omega
    · rfl
  have positive : ¬ ((P - last.length : Nat) : Int) < 0 := by omega
  have remains : (last.length : Int) + buf.length - P ≠ 0 := by omega
  by_cases none : P - last.length = 0
  · obtain ⟨r, o', run, few, switched⟩ :=
      writeRemainder_switched works buf proper.closed proper.current proper.number
    refine ⟨r, o', ?_, few, ?_⟩
    · simp only [writeOutputFile, isOpen, many, divided, remains, none]
      simp [run]
    · intro ok
      obtain ⟨closed, current, counter, number⟩ := switched ok
      constructor <;> simpa only [none, List.take_zero, List.append_nil, List.drop_zero]
  · have nonzero : ((P - last.length : Nat) : Int) ≠ 0 := by omega
    obtain ⟨r, o', run, few, switched⟩ := writeRemainder_switched works
      (o := { o with
        current := some (last ++ buf.take (P - last.length)), fwrites := o.fwrites + 1 })
      (buf.drop (P - last.length)) proper.closed rfl proper.number
    refine ⟨r, o', ?_, few, ?_⟩
    · simp only [writeOutputFile, many, divided, positive, remains, nonzero,
        fwriteAll_works works, proper.current, Option.map_some, Int.toNat_natCast]
      simp [run]
    · intro ok
      obtain ⟨closed, current, counter, number⟩ := switched ok
      exact ⟨closed, current, counter, number⟩

/-- What is left after one boundary fits the next part. -/
theorem Proper.switched {o' : Output} (proper : Proper P written o full last)
    (switched : Switched P o' full last buf) (past : P < last.length + buf.length)
    (one : last.length + buf.length ≤ 2 * P) :
    Proper P (written ++ buf) o' (full ++ [last ++ buf.take (P - last.length)])
      (buf.drop (P - last.length)) := by
  have low := proper.low
  refine ⟨switched.closed, switched.current, switched.counter, ?_, ?_, ?_, ?_, ?_⟩
  · rw [switched.number, List.length_append, List.length_singleton]
  · rw [List.flatten_append, List.flatten_singleton, ← proper.bytes]
    simp only [List.append_assoc, List.take_append_drop]
  · intro p hp
    rcases List.mem_append.mp hp with hp | hp
    · exact proper.whole p hp
    · rw [List.mem_singleton.mp hp, List.length_append, List.length_take]
      omega
  · rw [List.length_drop]
    omega
  · intro _
    rw [List.length_drop]
    omega

end Steps

/-! ## Whole runs -/

section Runs
variable {disk : Disk} {P count : Nat} {written : List UInt8} {o : Output}
  {full : List (List UInt8)} {last : List UInt8}

/-- Over an overfull part the next write asks for a negative size. -/
theorem writeOutputFile_overfull (disk : Disk) (many : count ≠ 1) (buf : List UInt8)
    (isOpen : o.current ≠ none) (overfull : (P : Int) < o.bytesWrittenInPart) :
    writeOutputFile disk count P o buf = none := by
  have divided : (division count P o buf.length).1 = P - o.bytesWrittenInPart := by
    rw [division, if_neg many, if_pos (by omega)]
    simp only
    omega
  have negative : (division count P o buf.length).1 < 0 := by
    rw [divided]
    omega
  simp only [writeOutputFile, isOpen, negative, if_false, if_true]

theorem run_proper (works : disk.Works) (many : count ≠ 1) (bufs : List (List UInt8))
    (proper : Proper P written o full last)
    (one : OneBoundary P written.length (bufs.map List.length))
    (few : written.length + bufs.flatten.length ≤ 100 * P) :
    ∃ o' full' last', writeAll disk count P o bufs = some (true, o') ∧
      Proper P (written ++ bufs.flatten) o' full' last' := by
  induction bufs generalizing written o full last with
  | nil => exact ⟨o, full, last, rfl, by simpa using proper⟩
  | cons buf rest ih =>
    obtain ⟨here, later⟩ := one
    rw [List.flatten_cons, List.length_append] at few
    rw [proper.part, proper.length] at here
    have next : ∃ o' full' last', writeOutputFile disk count P o buf = some (true, o') ∧
        Proper P (written ++ buf) o' full' last' := by
      by_cases room : last.length + buf.length ≤ P
      · obtain ⟨o', run, proper'⟩ := proper.fits works many room
        exact ⟨o', full, _, run, proper'⟩
      · have past : P < last.length + buf.length := by omega
        obtain ⟨r, o', run, reached, switched⟩ := proper.passes works many past
        have few' : full.length + 1 < 100 := by
          rw [proper.length] at few
          by_contra many'
          have : 99 * P ≤ full.length * P := Nat.mul_le_mul_right P (by omega)
          omega
        cases reached few'
        refine ⟨o', _, _, run, proper.switched (switched rfl) past ?_⟩
        rw [Nat.add_mul] at here
        omega
    obtain ⟨o', full', last', run, proper'⟩ := next
    have position : (written ++ buf).length = written.length + buf.length := List.length_append
    obtain ⟨o'', full'', last'', run', proper''⟩ :=
      ih proper' (by rwa [position]) (by rw [position]; omega)
    refine ⟨o'', full'', last'', ?_, ?_⟩
    · simp only [writeAll, run, run']
    · rwa [List.flatten_cons, ← List.append_assoc]

theorem run_broken (works : disk.Works) (many : count ≠ 1) (bufs : List (List UInt8))
    (proper : Proper P written o full last)
    (broken : ¬ OneBoundary P written.length (bufs.map List.length)) {o' : Output}
    (run : writeAll disk count P o bufs = some (true, o')) :
    ∃ last', o'.current = some last' ∧ P < last'.length := by
  induction bufs generalizing written o full last with
  | nil => exact absurd trivial broken
  | cons buf rest ih =>
    have position : (written ++ buf).length = written.length + buf.length := List.length_append
    by_cases room : last.length + buf.length ≤ P
    · obtain ⟨next, step, proper'⟩ := proper.fits works many room
      simp only [writeAll, step] at run
      apply ih proper' _ run
      intro later
      rw [position] at later
      refine broken ⟨?_, later⟩
      rw [proper.part, proper.length, Nat.add_mul]
      omega
    · have past : P < last.length + buf.length := by omega
      obtain ⟨r, next, step, -, switched⟩ := proper.passes works many past
      cases r with
      | false => simp [writeAll, step] at run
      | true =>
        simp only [writeAll, step] at run
        by_cases one : last.length + buf.length ≤ 2 * P
        · apply ih (proper.switched (switched rfl) past one) _ run
          intro later
          rw [position] at later
          refine broken ⟨?_, later⟩
          rw [proper.part, proper.length, Nat.add_mul]
          omega
        · have low := proper.low
          have long : P < (buf.drop (P - last.length)).length := by
            rw [List.length_drop]
            omega
          cases rest with
          | nil =>
            cases run
            exact ⟨_, (switched rfl).current, long⟩
          | cons more rest =>
            have overfull := writeOutputFile_overfull (P := P) disk many more
              (by rw [(switched rfl).current]; exact Option.some_ne_none _)
              (by rw [(switched rfl).counter]; omega)
            simp [writeAll, overfull] at run

end Runs

/-! ## The number of parts -/

theorem numOfParts_eq {P f l : Nat} (positive : 0 < l) (low : l ≤ P) :
    numOfParts P (f * P + l) = f + 1 := by
  have nonzero : P ≠ 0 := by omega
  rw [numOfParts, if_pos nonzero, Nat.add_comm (f * P), Nat.add_mul_div_right _ _ (by omega),
    Nat.add_mul_mod_self_right]
  rcases Nat.lt_or_eq_of_le low with small | rfl
  · rw [Nat.div_eq_of_lt small, Nat.mod_eq_of_lt small, if_pos (by omega)]
    omega
  · rw [Nat.div_self positive, Nat.mod_self, if_neg (by omega)]
    omega

theorem le_numOfParts_mul {P : Nat} (positive : 0 < P) (n : Nat) : n ≤ numOfParts P n * P := by
  have division := Nat.div_add_mod n P
  have small := Nat.mod_lt n positive
  rw [numOfParts, if_pos (by omega), Nat.add_mul, Nat.mul_comm (n / P)]
  split <;> omega

/-- In one file there is no boundary to keep. -/
theorem oneBoundary_of_small {P : Nat} (pos : Nat) (sizes : List Nat)
    (small : pos + sizes.sum ≤ P) : OneBoundary P pos sizes := by
  induction sizes generalizing pos with
  | nil => trivial
  | cons n rest ih =>
    rw [List.sum_cons] at small
    constructor
    · rw [Nat.add_mul]
      omega
    · apply ih
      omega

/-- A single part takes every write whole. -/
theorem writeAll_single {disk : Disk} (works : disk.Works) (P : Int) (bufs : List (List UInt8))
    (o : Output) {last : List UInt8} (current : o.current = some last) :
    ∃ o', writeAll disk 1 P o bufs = some (true, o') ∧ o'.closed = o.closed ∧
      o'.current = some (last ++ bufs.flatten) := by
  induction bufs generalizing o last with
  | nil => exact ⟨o, rfl, rfl, by simpa using current⟩
  | cons buf rest ih =>
    have step : ∃ o', writeOutputFile disk 1 P o buf = some (true, o') ∧ o'.closed = o.closed ∧
        o'.current = some (last ++ buf) := by
      cases buf with
      | nil => exact ⟨o, by simp [writeOutputFile, division, current], rfl, by simpa using current⟩
      | cons b more =>
        refine ⟨{ o with current := some (last ++ b :: more), fwrites := o.fwrites + 1 }, ?_, rfl,
          rfl⟩
        have nonzero : ((b :: more).length : Int) ≠ 0 := by simp; omega
        have positive : ¬ ((b :: more).length : Int) < 0 := by omega
        simp only [writeOutputFile, division, current, nonzero, positive, fwriteAll_works works,
          Int.toNat_natCast, List.take_length, Option.map_some, if_true, if_false]
        rfl
    obtain ⟨o', run, closed, current'⟩ := step
    obtain ⟨o'', run', closed', current''⟩ := ih o' current'
    refine ⟨o'', ?_, closed'.trans closed, ?_⟩
    · simp only [writeAll, run, run']
    · rw [current'', List.flatten_cons, List.append_assoc]

theorem opened_proper (P : Nat) : Proper P [] opened [] [] :=
  ⟨rfl, rfl, rfl, rfl, rfl, fun _ h => absurd h List.not_mem_nil, Nat.zero_le P,
    fun h => absurd rfl h⟩

/-- After a write that runs too far, no run that succeeds leaves a proper split. -/
theorem not_splits {disk : Disk} (works : disk.Works) {partitionSize : Nat}
    {bufs : List (List UInt8)} (many : numOfParts partitionSize bufs.flatten.length ≠ 1)
    (broken : ¬ OneBoundary partitionSize 0 (bufs.map List.length)) :
    ¬ Splits disk partitionSize bufs := by
  rintro ⟨o, run, split⟩
  obtain ⟨last, current, long⟩ :=
    run_broken works many bufs (opened_proper partitionSize) broken run
  obtain ⟨full, last', shape, -, -, low⟩ := split.shape
  have same : o.closed ++ [last] = full ++ [last'] := by
    rw [← shape, Output.parts, current]
    rfl
  have same' := (List.append_inj' same rfl).2
  rw [List.cons.inj same' |>.1] at long
  omega

/-- A sequence of writes of at most 100 parts comes out as a proper split
exactly when no write runs past the part after the one it starts from. -/
theorem splits_iff_oneBoundary {disk : Disk} (works : disk.Works) {partitionSize : Nat}
    (positive : 0 < partitionSize) (bufs : List (List UInt8)) (some' : 0 < bufs.flatten.length)
    (few : numOfParts partitionSize bufs.flatten.length ≤ 100) :
    Splits disk partitionSize bufs ↔ OneBoundary partitionSize 0 (bufs.map List.length) := by
  have total : (bufs.map List.length).sum = bufs.flatten.length := List.length_flatten.symm
  have whole := le_numOfParts_mul positive bufs.flatten.length
  by_cases single : numOfParts partitionSize bufs.flatten.length = 1
  · rw [single, Nat.one_mul] at whole
    constructor
    · intro _
      apply oneBoundary_of_small
      rw [total, Nat.zero_add]
      exact whole
    · intro _
      obtain ⟨o, run, closed, current⟩ := writeAll_single works partitionSize bufs opened rfl
      have parts : o.parts = [bufs.flatten] := by
        simp only [Output.parts, closed, current]
        rfl
      refine ⟨o, by rw [single, run], ?_⟩
      rw [single, parts]
      refine ⟨List.flatten_singleton, rfl, [], bufs.flatten, rfl, ?_, some', whole⟩
      intro p hp
      exact absurd hp List.not_mem_nil
  · constructor
    · intro splits
      by_contra broken
      exact not_splits works single broken splits
    · intro one
      have room : 0 + bufs.flatten.length ≤ 100 * partitionSize := by
        have := Nat.mul_le_mul_right partitionSize few
        omega
      obtain ⟨o, full, last, run, proper⟩ :=
        run_proper works single bufs (opened_proper partitionSize) one room
      have parts : o.parts = full ++ [last] := by
        simp only [Output.parts, proper.closed, proper.current]
        rfl
      have length := proper.length
      rw [List.nil_append] at length
      have nonempty : 0 < last.length := by
        cases full with
        | nil => simpa [length] using some'
        | cons p rest => exact proper.started (List.cons_ne_nil p rest)
      refine ⟨o, run, ?_⟩
      rw [parts]
      refine ⟨?_, ?_, full, last, rfl, proper.whole, nonempty, proper.low⟩
      · rw [List.flatten_append, List.flatten_singleton]
        exact proper.bytes
      · rw [length, numOfParts_eq nonempty proper.low, List.length_append, List.length_singleton]

/-- A disk that takes everything. -/
def soundDisk : Disk := ⟨fun _ n => n, fun _ => true⟩

theorem splits_iff_two_parts :
    Splits soundDisk 2 [[1, 2], [3]] ↔ OneBoundary 2 0 ([[1, 2], [3]].map List.length) :=
  splits_iff_oneBoundary ⟨fun _ _ => rfl, fun _ => rfl⟩ (by decide) [[1, 2], [3]] (by decide)
    (by decide)

/-- The writes for an empty directory: 16 empty sectors, two volume descriptors,
terminator, empty sector, four path tables, two root directories, 38 sectors of
padding. -/
def emptyImage : List (List UInt8) :=
  [0x8000, 0x800, 0x800, 0x800, 0x800, 0x800, 0x800, 0x800, 0x800, 0x800, 0x800, 0x13000].map
    (fun n => List.replicate n 0)

/-- The first write alone covers four parts of 8 KB. -/
theorem emptyImage_not_split : ¬ Splits soundDisk 0x2000 emptyImage := by
  have total : emptyImage.flatten.length = 0x20000 := by
    simp only [emptyImage, List.length_flatten, List.map_map, Function.comp_def,
      List.length_replicate]
    rfl
  apply not_splits ⟨fun _ _ => rfl, fun _ => rfl⟩
  · rw [total]
    decide
  · rintro ⟨first, -⟩
    simp only [List.length_replicate] at first
    omega

end SplitOutput
