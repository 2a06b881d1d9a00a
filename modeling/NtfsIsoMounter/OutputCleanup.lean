import NtfsIsoMounter.OutputCalls

/-!
# Removing the parts of a failed run

Cleaning up removes as many parts as were counted from the size of the image. The
writer opens its parts on its own account: one whenever a write passes the limit. The
sizes of the writes alone say how many it opens where nothing fails, and no run opens
more.
-/

namespace OutputCleanup

open CText ImageBuild SplitOutput ImageWriter OutputCalls

/-- The number of parts open at the end of the steps where nothing fails, from part
`part` with `inPart` bytes in it on; `none` where a write starts in a part that is
over the limit already, or at a step whose behaviour is undefined. -/
def partsOpened (partitionSize : Int) : Nat → Int → List Step → Option Nat
  | part, _, [] => some (part + 1)
  | part, inPart, .write buf :: rest =>
    if inPart + buf.length > partitionSize then
      if partitionSize < inPart then none
      else if part + 1 ≥ 100 then some (part + 1)
      else partsOpened partitionSize (part + 1) (inPart + buf.length - partitionSize) rest
    else partsOpened partitionSize part (inPart + buf.length) rest
  | part, inPart, .progress _ :: rest => partsOpened partitionSize part inPart rest
  | part, _, .fail :: _ => some (part + 1)
  | _, _, .fault :: _ => none

/-- No step of undefined behaviour comes before the end or a failure. -/
def Defined : List Step → Prop
  | [] => True
  | .fail :: _ => True
  | .fault :: _ => False
  | .write _ :: rest => Defined rest
  | .progress _ :: rest => Defined rest

/-- The condition on the steps of a run and on the number of parts counted for it. -/
def Clears (parts : Int) (partitionSize : Int) (steps : List Step) : Prop :=
  if parts = 1 then Defined steps
  else ∃ n, partsOpened partitionSize 0 0 steps = some n ∧ n ≤ parts ∧ parts ≤ 100

/-- What a call is to leave: an error and no file if it was disturbed or `write` did not
come to its end; and the names fit their buffer. -/
structure LeavesNothing (disturbed : Prop) (o : Outcome) : Prop where
  failed : disturbed ∨ o.completed = false →
    o.code ≠ 0 ∧ ∀ file ∈ o.created, file ∈ o.unlinked
  fits : ∀ name ∈ o.names, name.length + 1 ≤ o.bufferSize

/-! ## One write -/

/-- The output with `n` parts, the last of them open with a counted number of bytes. -/
structure Open (o : Output) (part : Nat) (inPart : Int) : Prop where
  current : o.current ≠ none
  counter : o.bytesWrittenInPart = inPart
  number : o.currentPart = part
  parts : o.parts.length = part + 1

/-- What `fwrite` answers does not change the parts. -/
theorem fwriteAll_parts (disk : Disk) (o : Output) (bytes : List UInt8) :
    (fwriteAll disk o bytes).2.parts.length = o.parts.length ∧
      ((fwriteAll disk o bytes).2.current = none ↔ o.current = none) ∧
      (fwriteAll disk o bytes).2.currentPart = o.currentPart ∧
      (fwriteAll disk o bytes).2.bytesWrittenInPart = o.bytesWrittenInPart := by
  refine ⟨?_, ?_, rfl, rfl⟩
  · cases current : o.current with
    | none => simp [fwriteAll, Output.parts, current]
    | some last => simp [fwriteAll, Output.parts, current]
  · simp [fwriteAll]

section Writes
variable {disk : Disk} {count part : Nat} {partitionSize inPart : Int} {o : Output}
  {buf : List UInt8}

theorem Open.written (opened : Open o part inPart) (disk : Disk) (bytes : List UInt8) :
    Open (fwriteAll disk o bytes).2 part inPart := by
  obtain ⟨parts, current, number, counter⟩ := fwriteAll_parts disk o bytes
  exact ⟨fun none => opened.current (current.mp none), counter.trans opened.counter,
    number.trans opened.number, parts.trans opened.parts⟩

/-- The first `fwrite` of a call, left out where there is nothing to write. -/
theorem Open.firstWrite (opened : Open o part inPart) (disk : Disk) (none' : Prop) [Decidable none']
    (bytes : List UInt8) :
    ∃ ok o', (if none' then (true, o) else fwriteAll disk o bytes) = (ok, o') ∧
      Open o' part inPart ∧ (disk.Works → ok = true) := by
  split
  · exact ⟨true, o, rfl, opened, fun _ => rfl⟩
  · refine ⟨_, _, rfl, opened.written disk bytes, ?_⟩
    intro works
    exact congrArg Prod.fst (fwriteAll_works works o bytes)

/-- A write that stays in its part. -/
theorem Open.within (opened : Open o part inPart) (disk : Disk) (many : count ≠ 1)
    (room : inPart + buf.length ≤ partitionSize) :
    ∃ ok o', writeOutputFile disk count partitionSize o buf = some (ok, o') ∧
      o'.parts.length = part + 1 ∧ o'.currentPart = part ∧
      (ok = true → Open o' part (inPart + buf.length)) ∧ (disk.Works → ok = true) := by
  have divided : division count partitionSize o buf.length = (↑buf.length, 0) := by
    rw [division, if_neg many, if_neg (by rw [opened.counter]; omega)]
  obtain ⟨ok, o', first, opened', works⟩ := opened.firstWrite disk ((buf.length : Int) = 0)
    (buf.take (buf.length : Int).toNat)
  rw [writeOutputFile, if_neg opened.current, divided]
  simp only [if_neg (show ¬ (buf.length : Int) < 0 by omega), first]
  cases ok with
  | false =>
    exact ⟨false, o', if_pos rfl, opened'.parts, opened'.number,
      fun done => absurd done Bool.false_ne_true, works⟩
  | true =>
    refine ⟨true, { o' with bytesWrittenInPart := o'.bytesWrittenInPart + buf.length }, ?_,
      opened'.parts, opened'.number, fun _ => ?_, works⟩
    · rw [if_neg (by decide), if_neg many, if_pos trivial]
    · exact ⟨opened'.current, congrArg (· + _) opened'.counter, opened'.number, opened'.parts⟩

/-- A write into a part that is over the limit. -/
theorem Open.overfull (opened : Open o part inPart) (many : count ≠ 1)
    (full : partitionSize < inPart) :
    writeOutputFile disk count partitionSize o buf = none := by
  have divided : (division count partitionSize o buf.length).1 = partitionSize - inPart := by
    rw [division, if_neg many, if_pos (by rw [opened.counter]; omega), opened.counter]
    dsimp only
    omega
  rw [writeOutputFile, if_neg opened.current]
  simp only
  rw [divided, if_pos (by omega)]

/-- The switch to the next part, and what is written there. -/
theorem Open.remainder (opened : Open o part inPart) (disk : Disk) (rest : List UInt8) :
    ∃ ok o', writeRemainder disk o rest = (ok, o') ∧
      (part + 1 ≥ 100 → ok = false ∧ o'.parts.length = part + 1) ∧
      (part + 1 < 100 → o'.parts.length ≤ part + 2 ∧ (ok = true → Open o' (part + 1) rest.length) ∧
        (disk.Works → ok = true)) ∧
      o'.currentPart = part + 1 := by
  have number : o.currentPart + 1 = part + 1 := by rw [opened.number]
  have shut : o.parts.length = part + 1 := opened.parts
  rw [writeRemainder]
  simp only [closeOutputFile, number]
  by_cases limit : part + 1 ≥ 100
  · refine ⟨false, _, if_pos limit, fun _ => ⟨rfl, ?_⟩, fun few => absurd limit (by omega), rfl⟩
    simpa [Output.parts] using shut
  · rw [if_neg limit]
    by_cases refused : disk.fopen (part + 1) = false
    · refine ⟨false, _, if_pos refused, fun beyond => absurd beyond limit,
        fun _ => ⟨?_, fun done => absurd done Bool.false_ne_true, ?_⟩, rfl⟩
      · simp only [Output.parts, Option.toList_none, List.append_nil] at shut ⊢
        omega
      · intro works
        rw [works.fopen] at refused
        cases refused
    · rw [if_neg refused]
      have fresh : Open ⟨o.parts, some [], 0, part + 1, o.fwrites⟩ (part + 1) 0 := by
        refine ⟨Option.some_ne_none [], rfl, rfl, ?_⟩
        change (o.parts ++ [[]]).length = _
        rw [List.length_append, shut]
        rfl
      have opened' := fresh.written disk rest
      obtain ⟨ok, o', run⟩ : ∃ ok o',
          fwriteAll disk ⟨o.parts, some [], 0, part + 1, o.fwrites⟩ rest = (ok, o') := ⟨_, _, rfl⟩
      rw [run] at opened'
      have works (sound : disk.Works) : ok = true := by
        rw [fwriteAll_works sound] at run
        exact (Prod.mk.inj run).1.symm
      simp only [run]
      cases ok with
      | false =>
        exact ⟨false, o', if_neg Bool.false_ne_true, fun beyond => absurd beyond limit,
          fun _ => ⟨opened'.parts.le, fun done => absurd done Bool.false_ne_true, works⟩,
          opened'.number⟩
      | true =>
        refine ⟨true, { o' with bytesWrittenInPart := o'.bytesWrittenInPart + rest.length },
          if_pos rfl, fun beyond => absurd beyond limit, fun _ =>
            ⟨opened'.parts.le, fun _ => ?_, works⟩,
          opened'.number⟩
        refine ⟨opened'.current, ?_, opened'.number, opened'.parts⟩
        change o'.bytesWrittenInPart + (rest.length : Int) = rest.length
        rw [opened'.counter, Int.zero_add]

/-- A write that goes on in the next part. -/
theorem Open.past (opened : Open o part inPart) (disk : Disk) (many : count ≠ 1)
    (low : inPart ≤ partitionSize) (past : partitionSize < inPart + buf.length) :
    ∃ ok o', writeOutputFile disk count partitionSize o buf = some (ok, o') ∧
      (part + 1 ≥ 100 → ok = false ∧ o'.parts.length = part + 1) ∧
      (part + 1 < 100 → o'.parts.length ≤ part + 2 ∧
        (ok = true → Open o' (part + 1) (inPart + buf.length - partitionSize)) ∧
        (disk.Works → ok = true)) ∧
      o'.currentPart ≤ part + 1 := by
  have divided : division count partitionSize o buf.length =
      (partitionSize - inPart, inPart + buf.length - partitionSize) := by
    rw [division, if_neg many, if_pos (by rw [opened.counter]; omega), opened.counter]
    dsimp only
    congr 1
    omega
  obtain ⟨ok, o', first, opened', works⟩ := opened.firstWrite disk (partitionSize - inPart = 0)
    (buf.take (partitionSize - inPart).toNat)
  rw [writeOutputFile, if_neg opened.current, divided]
  simp only [if_neg (show ¬ partitionSize - inPart < 0 by omega), first]
  cases ok with
  | false =>
    refine ⟨false, o', if_pos rfl, fun _ => ⟨rfl, opened'.parts⟩,
      fun _ => ⟨?_, fun done => absurd done Bool.false_ne_true, works⟩, ?_⟩
    · rw [opened'.parts]
      omega
    · rw [opened'.number]
      omega
  | true =>
    obtain ⟨ok, o'', second, limit, few, number⟩ :=
      opened'.remainder disk (buf.drop (partitionSize - inPart).toNat)
    refine ⟨ok, o'', ?_, limit, ?_, number.le⟩
    · rw [if_neg (by decide), if_neg many, if_neg (by omega), second]
    · intro room
      obtain ⟨parts, opened'', works'⟩ := few room
      refine ⟨parts, fun done => ?_, works'⟩
      have rest : ((buf.drop (partitionSize - inPart).toNat).length : Int) =
          inPart + buf.length - partitionSize := by
        rw [List.length_drop]
        omega
      rw [← rest]
      exact opened'' done

end Writes

/-! ## Whole runs -/

/-- A progress function that never cancels. -/
def quiet : Progress := fun _ _ _ => false

theorem partsOpened_pos {partitionSize : Int} (steps : List Step) {part n : Nat} {inPart : Int}
    (plan : partsOpened partitionSize part inPart steps = some n) : part < n := by
  induction steps generalizing part inPart with
  | nil =>
    cases plan
    exact Nat.lt_succ_self part
  | cons step rest ih =>
    cases step with
    | write buf =>
      rw [partsOpened] at plan
      split at plan
      · split at plan
        · cases plan
        · split at plan
          · cases plan
            exact Nat.lt_succ_self part
          · exact (Nat.lt_succ_self part).trans (ih plan)
      · exact ih plan
    | progress current => exact ih plan
    | fail =>
      cases plan
      exact Nat.lt_succ_self part
    | fault => cases plan

section Runs
variable {disk : Disk} {progress : Progress} {totalSize count : Nat} {partitionSize : Int}

/-- With several parts: a run of steps that open `n` parts ends, with no more of them. -/
theorem run_parts (disk : Disk) (progress : Progress) (totalSize k : Nat) (many : count ≠ 1)
    (steps : List Step) {part n : Nat} {inPart : Int} {o : Output} (opened : Open o part inPart)
    (plan : partsOpened partitionSize part inPart steps = some n) :
    ∃ ok o', runSteps disk progress totalSize count partitionSize k o steps = some (ok, o') ∧
      o'.parts.length ≤ n ∧ (disk.Works → progress = quiet → o'.parts.length = n) := by
  have open_lt : part + 1 ≤ n := partsOpened_pos steps plan
  induction steps generalizing part inPart o k with
  | nil =>
    cases plan
    exact ⟨true, o, rfl, opened.parts.le, fun _ _ => opened.parts⟩
  | cons step rest ih =>
    cases step with
    | write buf =>
      rw [partsOpened] at plan
      by_cases past : inPart + buf.length > partitionSize
      · rw [if_pos past] at plan
        by_cases full : partitionSize < inPart
        · rw [if_pos full] at plan
          cases plan
        · rw [if_neg full] at plan
          obtain ⟨ok, o', run, limit, few, -⟩ :=
            opened.past disk many (not_lt.mp full) past
          by_cases last : part + 1 ≥ 100
          · rw [if_pos last] at plan
            cases plan
            obtain ⟨rfl, parts⟩ := limit last
            exact ⟨false, o', by rw [runSteps_write rest run]; rfl, parts.le, fun _ _ => parts⟩
          · rw [if_neg last] at plan
            have next := partsOpened_pos rest plan
            obtain ⟨parts, opened', works⟩ := few (not_le.mp last)
            cases ok with
            | false =>
              refine ⟨false, o', by rw [runSteps_write rest run]; rfl, by omega, fun sound => ?_⟩
              cases works sound
            | true =>
              obtain ⟨ok', o'', run', rest'⟩ := ih k (opened' rfl) plan next
              exact ⟨ok', o'', by rw [runSteps_write rest run, if_pos rfl, run'], rest'⟩
      · rw [if_neg past] at plan
        obtain ⟨ok, o', run, parts, -, opened', works⟩ :=
          opened.within disk many (not_lt.mp past)
        cases ok with
        | false =>
          refine ⟨false, o', by rw [runSteps_write rest run]; rfl, by omega, fun sound => ?_⟩
          cases works sound
        | true =>
          obtain ⟨ok', o'', run', rest'⟩ := ih k (opened' rfl) plan open_lt
          exact ⟨ok', o'', by rw [runSteps_write rest run, if_pos rfl, run'], rest'⟩
    | progress current =>
      rw [partsOpened] at plan
      by_cases cancelled : progress k current totalSize = true
      · refine ⟨false, o, by rw [runSteps_progress, if_pos cancelled],
          by rw [opened.parts]; exact open_lt, ?_⟩
        rintro - rfl
        cases cancelled
      · obtain ⟨ok, o', run, rest'⟩ := ih (k + 1) opened plan open_lt
        exact ⟨ok, o', by rw [runSteps_progress, if_neg cancelled, run], rest'⟩
    | fail =>
      cases plan
      exact ⟨false, o, rfl, opened.parts.le, fun _ _ => opened.parts⟩
    | fault => cases plan

/-- On a disk that takes everything a run reaches the step that is undefined. -/
theorem run_undefined (totalSize : Nat) (works : disk.Works) (many : count ≠ 1) (steps : List Step)
    {part k : Nat} {inPart : Int} {o : Output} (opened : Open o part inPart)
    (plan : partsOpened partitionSize part inPart steps = none) :
    runSteps disk quiet totalSize count partitionSize k o steps = none := by
  induction steps generalizing part inPart o k with
  | nil => cases plan
  | cons step rest ih =>
    cases step with
    | write buf =>
      rw [partsOpened] at plan
      by_cases past : inPart + buf.length > partitionSize
      · rw [if_pos past] at plan
        by_cases full : partitionSize < inPart
        · rw [runSteps, opened.overfull many full]
        · rw [if_neg full] at plan
          by_cases last : part + 1 ≥ 100
          · rw [if_pos last] at plan
            cases plan
          · rw [if_neg last] at plan
            obtain ⟨ok, o', run, -, few, -⟩ :=
              opened.past disk many (not_lt.mp full) past
            obtain ⟨-, opened', sound⟩ := few (not_le.mp last)
            cases sound works
            rw [runSteps, run]
            exact ih (opened' rfl) plan
      · rw [if_neg past] at plan
        obtain ⟨ok, o', run, -, -, opened', sound⟩ :=
          opened.within disk many (not_lt.mp past)
        cases sound works
        rw [runSteps, run]
        exact ih (opened' rfl) plan
    | progress current =>
      rw [runSteps_progress,
        if_neg (show ¬ quiet k current totalSize = true from Bool.false_ne_true)]
      exact ih opened plan
    | fail => cases plan
    | fault => rfl

/-- A single file is written to its end, or to the first failure. -/
theorem write_single (disk : Disk) (partitionSize : Int) (buf : List UInt8) {o : Output}
    (current : o.current ≠ none) :
    ∃ ok o', writeOutputFile disk 1 partitionSize o buf = some (ok, o') ∧ o'.current ≠ none ∧
      (disk.Works → ok = true) := by
  obtain ⟨last, isOpen⟩ := Option.ne_none_iff_exists'.mp current
  have divided : division 1 partitionSize o buf.length = (↑buf.length, 0) := by
    rw [division, if_pos rfl]
  rw [writeOutputFile, if_neg current, divided]
  simp only [if_neg (show ¬ (buf.length : Int) < 0 by omega)]
  split
  · exact ⟨true, o, rfl, current, fun _ => rfl⟩
  · obtain ⟨-, kept, -⟩ := fwriteAll_parts disk o (buf.take (buf.length : Int).toNat)
    have sound (works : disk.Works) :
        (fwriteAll disk o (buf.take (buf.length : Int).toNat)).1 = true :=
      congrArg Prod.fst (fwriteAll_works works o _)
    cases run : fwriteAll disk o (buf.take (buf.length : Int).toNat) with
    | mk ok o' =>
      rw [run] at kept sound
      refine ⟨ok, o', ?_, fun none => current (kept.mp none), sound⟩
      cases ok with
      | false => rfl
      | true => rfl

theorem run_single (disk : Disk) (progress : Progress) (totalSize : Nat) (partitionSize : Int)
    (steps : List Step) {k : Nat} {o : Output} (current : o.current ≠ none)
    (defined : Defined steps) :
    (runSteps disk progress totalSize 1 partitionSize k o steps).isSome = true := by
  induction steps generalizing o k with
  | nil => rfl
  | cons step rest ih =>
    cases step with
    | write buf =>
      obtain ⟨ok, o', run, current', -⟩ :=
        write_single disk partitionSize buf current
      cases ok with
      | false => rw [runSteps, run]; rfl
      | true =>
        rw [runSteps, run]
        exact ih current' defined
    | progress at' =>
      rw [runSteps]
      split
      · rfl
      · exact ih current defined
    | fail => rfl
    | fault => exact defined.elim

theorem run_single_undefined (totalSize : Nat) (partitionSize : Int) (works : disk.Works)
    (steps : List Step) {k : Nat} {o : Output} (current : o.current ≠ none)
    (undefined : ¬ Defined steps) :
    runSteps disk quiet totalSize 1 partitionSize k o steps = none := by
  induction steps generalizing o k with
  | nil => exact absurd trivial undefined
  | cons step rest ih =>
    cases step with
    | write buf =>
      obtain ⟨ok, o', run, current', sound⟩ :=
        write_single disk partitionSize buf current
      cases sound works
      rw [runSteps, run]
      exact ih current' undefined
    | progress at' =>
      rw [runSteps_progress, if_neg (show ¬ quiet k at' totalSize = true from Bool.false_ne_true)]
      exact ih current undefined
    | fail => exact absurd trivial undefined
    | fault => rfl

/-- The number of calls of the progress function in some steps. -/
def progressCalls : List Step → Nat
  | [] => 0
  | .progress _ :: rest => progressCalls rest + 1
  | _ :: rest => progressCalls rest

/-- Cancel in one call. -/
def cancelAt (n : Nat) : Progress := fun k _ _ => k == n

/-- A run cancelled in its last step does what it would have done without it. -/
theorem run_cancelled (steps : List Step) (last k : Nat) (o : Output) :
    runSteps disk (cancelAt (k + progressCalls steps)) totalSize count partitionSize k o
        (steps ++ [.progress last]) =
      (runSteps disk quiet totalSize count partitionSize k o steps).map
        (fun r => (false, r.2)) := by
  induction steps generalizing k o with
  | nil =>
    have now : cancelAt (k + progressCalls []) k last totalSize = true := beq_self_eq_true k
    rw [List.nil_append, runSteps_progress, if_pos now]
    rfl
  | cons step rest ih =>
    cases step with
    | write buf =>
      rw [List.cons_append]
      cases run : writeOutputFile disk count partitionSize o buf with
      | none =>
        rw [runSteps, run, runSteps, run]
        rfl
      | some r =>
        obtain ⟨ok, o'⟩ := r
        rw [runSteps_write _ run, runSteps_write _ run]
        cases ok with
        | false => rfl
        | true => exact ih k o'
    | progress current =>
      have later : cancelAt (k + progressCalls (.progress current :: rest)) k current totalSize =
          false := by
        refine beq_eq_false_iff_ne.mpr ?_
        rw [progressCalls]
        omega
      have shifted : k + progressCalls (.progress current :: rest) =
          k + 1 + progressCalls rest := by
        rw [progressCalls]
        omega
      rw [List.cons_append, runSteps_progress, later, if_neg Bool.false_ne_true, shifted, ih,
        runSteps_progress, if_neg (show ¬ quiet k current totalSize = true from Bool.false_ne_true)]
    | fail => rfl
    | fault => rfl

theorem partsOpened_progress (steps : List Step) (last part : Nat) (inPart : Int) :
    partsOpened partitionSize part inPart (steps ++ [.progress last]) =
      partsOpened partitionSize part inPart steps := by
  induction steps generalizing part inPart with
  | nil => rfl
  | cons step rest ih =>
    cases step with
    | write buf => rw [List.cons_append, partsOpened, partsOpened, ih, ih]
    | progress current => exact ih part inPart
    | fail => rfl
    | fault => rfl

theorem defined_progress (steps : List Step) (last : Nat) :
    Defined (steps ++ [.progress last]) ↔ Defined steps := by
  induction steps with
  | nil => exact Iff.rfl
  | cons step rest ih =>
    cases step with
    | write buf => exact ih
    | progress current => exact ih
    | fail => exact Iff.rfl
    | fault => exact Iff.rfl

end Runs

/-! ## Names -/

theorem partName_length (outFile : List UInt8) (i : Nat) :
    (partName outFile i).length = outFile.length + 1 + (digits i).length := by
  rw [partName, List.length_append, List.length_cons, padded, List.length_map, List.length_append,
    List.length_replicate]
  omega

theorem digits_length_le_two (i : Nat) : (digits i).length ≤ 2 ↔ i < 100 := by
  by_cases zero : i = 0
  · rw [digits, if_pos zero, zero]
    decide
  · rw [digits, if_neg zero, List.length_reverse]
    exact Nat.digits_length_le_iff (by decide) i

theorem partName_inj {outFile : List UInt8} {i j : Nat}
    (same : partName outFile i = partName outFile j) :
    i = j := by
  have texts := (List.cons.inj (List.append_cancel_left same)).2
  have values := congrArg (List.map fun b : UInt8 => b.toNat - 48) texts
  have back : ∀ n, (padded 0 n).map (fun b : UInt8 => b.toNat - 48) = digits n := by
    intro n
    rw [padded, Nat.zero_sub, List.replicate_zero, List.nil_append, List.map_map]
    refine Eq.trans (List.map_congr_left fun d hd => ?_) (List.map_id (digits n))
    exact (isDigit_ofNat d (digits_lt n d hd)).2.1
  rw [back, back] at values
  rw [← digits_value i, ← digits_value j, values]

section Finish
variable {outFile : List UInt8} {parts : Int}

/-- Of several parts the first hundred have names that fit. -/
theorem outputNames_fit (outFile : List UInt8) {n : Nat} (few : parts ≠ 1 → n ≤ 100) :
    ∀ name ∈ outputNames outFile parts n, name.length + 1 ≤ nameBuffer outFile parts := by
  intro name member
  rw [outputNames] at member
  rw [nameBuffer]
  by_cases single : parts = 1
  · rw [if_pos single] at member ⊢
    rw [List.mem_singleton.mp member]
  · rw [if_neg single] at member ⊢
    obtain ⟨i, small, rfl⟩ := List.mem_map.mp member
    rw [List.mem_range] at small
    have := few single
    have two := (digits_length_le_two i).mpr (by omega)
    rw [partName_length]
    omega

theorem finish_clean {disturbed : Prop} {ok : Bool} {o : Output}
    (told : disturbed → ok = false)
    (small : parts ≠ 1 → o.parts.length ≤ parts ∧ parts ≤ 100) :
    LeavesNothing disturbed (finish outFile parts (ok, o)) := by
  have stored := outputNames_fit outFile (n := min (o.currentPart + 1) 100)
    (fun _ : parts ≠ 1 => Nat.min_le_right _ _)
  have removed := outputNames_fit outFile (n := parts.toNat) (fun many : parts ≠ 1 => by
    have := (small many).2
    omega)
  cases ok with
  | true =>
    refine ⟨fun bad => ?_, stored⟩
    rcases bad with disturbed | ended
    · cases told disturbed
    · cases ended
  | false =>
    have error : errorOutput ≠ 0 := by decide
    refine ⟨fun _ => ⟨error, ?_⟩, ?_⟩
    · intro file created
      change file ∈ outputNames outFile parts o.parts.length at created
      change file ∈ outputNames outFile parts parts.toNat
      rw [outputNames] at created ⊢
      by_cases single : parts = 1
      · rwa [if_pos single] at created ⊢
      · rw [if_neg single] at created ⊢
        obtain ⟨i, below, rfl⟩ := List.mem_map.mp created
        rw [List.mem_range] at below
        refine List.mem_map_of_mem (List.mem_range.mpr ?_)
        have := (small single).1
        omega
    · intro name member
      rcases List.mem_append.mp member with member | member
      · exact stored name member
      · exact removed name member

theorem finish_failed {disturbed : Prop} {o : Output} (started : 0 < o.parts.length)
    (clean : LeavesNothing disturbed (finish outFile parts (false, o))) (many : parts ≠ 1) :
    o.parts.length ≤ parts ∧ parts ≤ 100 := by
  obtain ⟨failed, fits⟩ := clean
  have removed := (failed (Or.inr rfl)).2
  have counted : o.parts.length ≤ parts := by
    have created : partName outFile (o.parts.length - 1) ∈
        (finish outFile parts (false, o)).created := by
      change _ ∈ outputNames outFile parts o.parts.length
      rw [outputNames, if_neg many]
      exact List.mem_map_of_mem (List.mem_range.mpr (by omega))
    have gone := removed _ created
    change _ ∈ outputNames outFile parts parts.toNat at gone
    rw [outputNames, if_neg many] at gone
    obtain ⟨i, below, same⟩ := List.mem_map.mp gone
    rw [List.mem_range] at below
    have := partName_inj same
    omega
  refine ⟨counted, ?_⟩
  by_contra hundred
  have stored : partName outFile 100 ∈ (finish outFile parts (false, o)).names := by
    change _ ∈ _ ++ outputNames outFile parts parts.toNat
    refine List.mem_append_right _ ?_
    rw [outputNames, if_neg many]
    exact List.mem_map_of_mem (List.mem_range.mpr (by omega))
  have short := fits _ stored
  change _ ≤ nameBuffer outFile parts at short
  rw [nameBuffer, if_neg many, partName_length] at short
  have two := (digits_length_le_two 100).mp (by omega)
  omega

end Finish

/-! ## Every run of a call -/

theorem opened_open : Open SplitOutput.opened 0 0 := ⟨nofun, rfl, rfl, rfl⟩

theorem opened_at : At SplitOutput.opened ⟨0, 0, 0⟩ := ⟨nofun, rfl, rfl, rfl⟩

/-- The last step of `write` is a call of the progress function. -/
theorem writeSteps_last (ioBufSize : Nat) (volumeName : List UInt8) (t : Tm) (fopen : Sources)
    (m : Image) :
    ∃ steps last, writeSteps ioBufSize volumeName t fopen m = steps ++ [.progress last] := by
  rw [writeSteps]
  refine ⟨frontSteps ioBufSize volumeName t m ++ .progress (Image.frontSectors m * 0x800) ::
    (filesSteps fopen (Image.frontSectors m * 0x800) m.files.flatten).1 ++
      [.write (zeros (Image.padSectors m * 0x800))],
    (filesSteps fopen (Image.frontSectors m * 0x800) m.files.flatten).2 +
      Image.padSectors m * 0x800, ?_⟩
  rw [List.append_assoc _ [_] [_]]
  rfl

section Calls
variable {outFile : List UInt8} {parts partitionSize : Int} {totalSize : Nat} {steps : List Step}

/-- The steps clear up after every failure. -/
theorem run_clears (outFile : List UInt8) (totalSize : Nat)
    (clears : Clears parts partitionSize steps)
    (disk : Disk) (progress : Progress) :
    ∃ run, runSteps disk progress totalSize parts.toNat partitionSize 0 opened steps = some run ∧
      LeavesNothing (∃ c ∈ calls parts.toNat partitionSize ⟨0, 0, 0⟩ 0 steps,
        ¬ c.Succeeds disk progress totalSize) (finish outFile parts run) := by
  have told {ok : Bool} {o : Output}
      (ends : runSteps disk progress totalSize parts.toNat partitionSize 0 opened steps =
        some (ok, o))
      (disturbed : ∃ c ∈ calls parts.toNat partitionSize ⟨0, 0, 0⟩ 0 steps,
        ¬ c.Succeeds disk progress totalSize) : ok = false := by
    rw [← Bool.not_eq_true, opened_at.run ends]
    obtain ⟨c, among, failed⟩ := disturbed
    exact fun all => failed (all c among)
  rw [Clears] at clears
  by_cases single : parts = 1
  · rw [if_pos single] at clears
    subst single
    obtain ⟨run, ends⟩ := Option.isSome_iff_exists.mp
      (run_single disk progress totalSize partitionSize steps opened_open.current clears (k := 0))
    exact ⟨run, ends, finish_clean (told ends) fun many => absurd rfl many⟩
  · rw [if_neg single] at clears
    obtain ⟨n, plan, counted, few⟩ := clears
    obtain ⟨ok, o, run, parts', -⟩ := run_parts disk progress totalSize 0
      (show parts.toNat ≠ 1 by omega) steps opened_open plan
    exact ⟨(ok, o), run, finish_clean (told run) fun _ => ⟨by omega, few⟩⟩

theorem soundDisk_works : soundDisk.Works := ⟨fun _ _ => rfl, fun _ => rfl⟩

/-- Cancelling the last step shows what a run would leave behind. -/
theorem clears_of_cancelled (outFile : List UInt8) (totalSize : Nat) {last : Nat}
    (disturbed : Progress → Prop)
    (clean : ∀ progress, ∃ run, runSteps soundDisk progress totalSize parts.toNat partitionSize 0
      opened (steps ++ [.progress last]) = some run ∧
        LeavesNothing (disturbed progress) (finish outFile parts run)) :
    Clears parts partitionSize (steps ++ [.progress last]) := by
  obtain ⟨run, ends, leaves⟩ := clean (cancelAt (0 + progressCalls steps))
  rw [run_cancelled] at ends
  obtain ⟨⟨ok, o⟩, quietly, rfl⟩ := Option.map_eq_some_iff.mp ends
  rw [Clears]
  by_cases single : parts = 1
  · subst single
    rw [if_pos rfl, defined_progress]
    by_contra undefined
    have stuck := run_single_undefined totalSize partitionSize soundDisk_works
      steps opened_open.current undefined (k := 0)
    have same := quietly.symm.trans stuck
    cases same
  · have many : parts.toNat ≠ 1 := by omega
    rw [if_neg single, partsOpened_progress]
    cases plan : partsOpened partitionSize 0 0 steps with
    | none =>
      have stuck := run_undefined totalSize soundDisk_works many steps opened_open
        plan (k := 0)
      have same := quietly.symm.trans stuck
      cases same
    | some n =>
      obtain ⟨ok', o', run, -, exactly⟩ := run_parts soundDisk quiet totalSize 0 many steps
        opened_open plan
      cases run.symm.trans quietly
      have count := exactly soundDisk_works rfl
      have positive := partsOpened_pos steps plan
      have started : 0 < o.parts.length := by
        rw [count]
        exact positive
      obtain ⟨counted, few⟩ := finish_failed started leaves single
      rw [count] at counted
      exact ⟨n, rfl, counted, few⟩

end Calls

section Generate
variable (stat : List UInt8 → Option SourceTrees.Stat) (tempBufSize ioBufSize : Nat)
  (fopen : Sources) (partitionSize : Int) (t : Tm) (inDir : List UInt8)
  (tree : SourceTrees.SourceTree) (volumeName : List UInt8)

/-- The condition on the input. -/
def GenerateClears : Prop :=
  match build stat tempBufSize inDir tree with
  | .error .failed => True
  | .error .fault => False
  | .ok m => Clears (partCount partitionSize (Image.totalSize m)) partitionSize
      (writeSteps ioBufSize volumeName t fopen m)

/-- A part cannot be opened, an `fwrite` comes back short, the limit of parts is reached
or the progress function cancels. -/
def Disturbed (disk : Disk) (progress : Progress) : Prop :=
  ∃ m, build stat tempBufSize inDir tree = .ok m ∧
    ∃ c ∈ .fopen 0 :: calls (partCount partitionSize (Image.totalSize m)).toNat partitionSize
        ⟨0, 0, 0⟩ 0 (writeSteps ioBufSize volumeName t fopen m),
      ¬ c.Succeeds disk progress (Image.totalSize m)

variable {stat tempBufSize ioBufSize fopen partitionSize t inDir tree volumeName}

/-- A call that leaves nothing behind in any run meets the condition on its steps. -/
theorem clears_of_generate {outFile : List UInt8} {m : ImageBuild.Image}
    (built : build stat tempBufSize inDir tree = .ok m)
    {disturbed : Disk → Progress → Prop}
    (clean : ∀ disk progress, ∃ o, generate stat tempBufSize ioBufSize fopen disk progress
      partitionSize t inDir tree outFile volumeName = some o ∧
        LeavesNothing (disturbed disk progress) o) :
    Clears (partCount partitionSize (Image.totalSize m)) partitionSize
      (writeSteps ioBufSize volumeName t fopen m) := by
  obtain ⟨steps, last, same⟩ := writeSteps_last ioBufSize volumeName t fopen m
  rw [same]
  refine clears_of_cancelled outFile (Image.totalSize m) (disturbed soundDisk) fun progress => ?_
  obtain ⟨o, run, leaves⟩ := clean soundDisk progress
  simp only [generate, built] at run
  rw [if_neg (by decide), same] at run
  obtain ⟨run', ends, rfl⟩ := Option.map_eq_some_iff.mp run
  exact ⟨run', ends, leaves⟩

variable (stat tempBufSize ioBufSize fopen partitionSize t inDir tree volumeName)

/-- Whatever fails and wherever the run is cancelled, an error is returned, nothing is left
behind and the part names stay in their buffer. -/
theorem generate_leavesNothing_iff (outFile : List UInt8) :
    (∀ disk progress, ∃ o, generate stat tempBufSize ioBufSize fopen disk progress partitionSize t
        inDir tree outFile volumeName = some o ∧
      LeavesNothing (Disturbed stat tempBufSize ioBufSize fopen partitionSize t inDir tree
        volumeName disk progress) o) ↔
      GenerateClears stat tempBufSize ioBufSize fopen partitionSize t inDir tree volumeName := by
  rw [GenerateClears]
  cases built : build stat tempBufSize inDir tree with
  | error stop =>
    simp only [generate, built]
    cases stop with
    | failed =>
      have error : errorInput ≠ 0 := by decide
      exact iff_of_true (fun disk progress => ⟨_, rfl, fun _ => ⟨error, nofun⟩, nofun⟩) trivial
    | fault =>
      refine iff_of_false (fun clean => ?_) id
      obtain ⟨o, none, -⟩ := clean soundDisk quiet
      cases none
  | ok m =>
    constructor
    · exact clears_of_generate built
    · intro clears disk progress
      simp only [generate, built]
      by_cases refused : disk.fopen 0 = false
      · have error : errorOutput ≠ 0 := by decide
        exact ⟨_, if_pos refused, fun _ => ⟨error, nofun⟩,
          outputNames_fit outFile fun _ => by decide⟩
      · obtain ⟨run, ends, leaves⟩ := run_clears outFile (Image.totalSize m) clears disk
          progress
        refine ⟨_, ?_, fun bad => leaves.failed (bad.imp_left ?_), leaves.fits⟩
        · rw [if_neg refused, ends]
          rfl
        · -- the first part has been opened, so a later call has failed
          rintro ⟨m', built', c, among, failed⟩
          cases built.symm.trans built'
          rcases List.mem_cons.mp among with rfl | later
          · exact absurd ⟨by decide, Bool.eq_true_of_not_eq_false refused⟩ failed
          · exact ⟨c, later, failed⟩

end Generate

def plainStat (_ : List UInt8) : Option SourceTrees.Stat := some ⟨0, ⟨0, 0, 0, 0, 0, 0⟩⟩

/-- The image of an empty directory in parts of 1000 bytes: cleaning up stores the
name of part 100, which is a byte too long. -/
theorem hundred_parts_overflow :
    ¬ ∀ disk progress, ∃ o, generate plainStat 0x100000 0x100000 (fun _ => none) disk progress 1000
        ⟨2012, 1, 1, 0, 0, 0⟩ (ascii "/in") (.dir true [] []) (ascii "/out.iso") (ascii "DISC") =
          some o ∧
      LeavesNothing (Disturbed plainStat 0x100000 0x100000 (fun _ => none) 1000
        ⟨2012, 1, 1, 0, 0, 0⟩ (ascii "/in") (.dir true [] []) (ascii "DISC") disk progress) o := by
  intro clean
  have many : (build plainStat 0x100000 (ascii "/in") (.dir true [] [])).toOption.map
      (fun m => partCount 1000 (Image.totalSize m)) = some 132 := by
    decide +kernel
  cases built : build plainStat 0x100000 (ascii "/in") (.dir true [] []) with
  | error stop =>
    rw [built] at many
    cases many
  | ok m =>
    rw [built] at many
    have parts : partCount 1000 (Image.totalSize m) = 132 := Option.some.inj many
    have clears := clears_of_generate built clean
    rw [Clears, parts, if_neg (by decide)] at clears
    obtain ⟨n, -, -, few⟩ := clears
    exact absurd few (by decide)

end OutputCleanup
