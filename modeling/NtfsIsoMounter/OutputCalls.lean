import NtfsIsoMounter.ImageWriter

/-!
# The calls of a run that can fail

What the writer asks of the file system and of its caller follows from the sizes of
the writes as long as nothing fails. A run comes to its end exactly if all of these
calls succeed.
-/

namespace OutputCalls

open SplitOutput ImageWriter

/-- A part that is opened, the `fwrite` number `k` of so many bytes, the call number
`k` of the progress function, a source that cannot be opened. -/
inductive Call where
  | fopen (part : Nat)
  | fwrite (k size : Nat)
  | progress (k current : Nat)
  | source

/-- The call does what it is to do: a part below the limit is opened, all bytes are
taken, the run is not cancelled. -/
def Call.Succeeds (disk : Disk) (progress : Progress) (totalSize : Nat) : Call → Prop
  | .fopen part => part < 100 ∧ disk.fopen part = true
  | .fwrite k size => disk.fwrite k size = size
  | .progress k current => progress k current totalSize = false
  | .source => False

/-- Where a run is: the part it writes, the bytes counted in it, the calls of `fwrite`
so far. -/
structure Place where
  part : Nat
  inPart : Int
  fwrites : Nat

/-- Nothing is asked for no bytes. -/
def fwriteCall (k size : Nat) : List Call := if size = 0 then [] else [.fwrite k size]

/-- The calls for a write of so many bytes, and where they lead. -/
def writeCalls (numOfParts : Nat) (partitionSize : Int) (p : Place) (size : Nat) :
    List Call × Place :=
  if numOfParts = 1 then
    (fwriteCall p.fwrites size,
      { p with fwrites := p.fwrites + (fwriteCall p.fwrites size).length })
  else if p.inPart + size > partitionSize then
    let first := (partitionSize - p.inPart).toNat
    let k := p.fwrites + (fwriteCall p.fwrites first).length
    (fwriteCall p.fwrites first ++ [.fopen (p.part + 1), .fwrite k (size - first)],
      ⟨p.part + 1, (size - first : Nat), k + 1⟩)
  else
    (fwriteCall p.fwrites size,
      ⟨p.part, p.inPart + size, p.fwrites + (fwriteCall p.fwrites size).length⟩)

/-- The calls for some steps, the next call of the progress function being number `k`. -/
def calls (numOfParts : Nat) (partitionSize : Int) : Place → Nat → List Step → List Call
  | _, _, [] => []
  | p, k, .write buf :: rest =>
    (writeCalls numOfParts partitionSize p buf.length).1 ++
      calls numOfParts partitionSize (writeCalls numOfParts partitionSize p buf.length).2 k rest
  | p, k, .progress current :: rest =>
    .progress k current :: calls numOfParts partitionSize p (k + 1) rest
  | _, _, .fail :: _ => [.source]
  | _, _, .fault :: _ => []

/-! ## One write -/

/-- The output is at this place, with an open part. -/
structure At (o : Output) (p : Place) : Prop where
  current : o.current ≠ none
  part : o.currentPart = p.part
  inPart : o.bytesWrittenInPart = p.inPart
  fwrites : o.fwrites = p.fwrites

section Writes
variable {disk : Disk} {progress : Progress} {totalSize numOfParts : Nat} {partitionSize : Int}
  {o o' : Output} {p : Place} {ok : Bool} {buf : List UInt8}

/-- One call of `fwrite`. -/
theorem At.fwriteAll (here : At o p) (disk : Disk) (bytes : List UInt8) :
    ∃ ok o', fwriteAll disk o bytes = (ok, o') ∧
      (ok = true ↔ disk.fwrite p.fwrites bytes.length = bytes.length) ∧
      At o' { p with fwrites := p.fwrites + 1 } := by
  refine ⟨_, _, rfl, ?_, ?_, here.part, here.inPart, ?_⟩
  · rw [beq_iff_eq, here.fwrites]
  · simpa using here.current
  · rw [← here.fwrites]

/-- The first `fwrite` of a write, left out where there is nothing to write. -/
theorem At.firstWrite (here : At o p) (disk : Disk) (progress : Progress) (totalSize : Nat)
    {size : Int} (bytes : List UInt8) (length : bytes.length = size.toNat) (low : 0 ≤ size) :
    ∃ ok o', (if size = 0 then (true, o) else SplitOutput.fwriteAll disk o bytes) = (ok, o') ∧
      (ok = true ↔ ∀ c ∈ fwriteCall p.fwrites bytes.length,
        c.Succeeds disk progress totalSize) ∧
      At o' { p with fwrites := p.fwrites + (fwriteCall p.fwrites bytes.length).length } := by
  rw [fwriteCall]
  by_cases none' : size = 0
  · have nothing : bytes.length = 0 := by omega
    rw [if_pos none', if_pos nothing]
    exact ⟨true, o, rfl, iff_of_true rfl fun c among => absurd among List.not_mem_nil, here⟩
  · have something : bytes.length ≠ 0 := by omega
    rw [if_neg none', if_neg something, List.forall_mem_singleton]
    exact here.fwriteAll disk bytes

/-- The switch to the next part. -/
theorem At.remainder (here : At o p) (disk : Disk) (progress : Progress) (totalSize : Nat)
    (rest : List UInt8) :
    ∃ ok o', writeRemainder disk o rest = (ok, o') ∧
      (ok = true ↔ ∀ c ∈ [Call.fopen (p.part + 1), .fwrite p.fwrites rest.length],
        c.Succeeds disk progress totalSize) ∧
      (ok = true → At o' ⟨p.part + 1, rest.length, p.fwrites + 1⟩) := by
  have number : o.currentPart + 1 = p.part + 1 := by rw [here.part]
  rw [List.forall_mem_cons, List.forall_mem_singleton, writeRemainder]
  simp only [closeOutputFile, number]
  by_cases limit : p.part + 1 ≥ 100
  · exact ⟨false, _, if_pos limit,
      iff_of_false Bool.false_ne_true fun all => absurd all.1.1 (by omega),
      fun done => absurd done Bool.false_ne_true⟩
  rw [if_neg limit]
  by_cases refused : disk.fopen (p.part + 1) = false
  · refine ⟨false, _, if_pos refused, iff_of_false Bool.false_ne_true fun all => ?_,
      fun done => absurd done Bool.false_ne_true⟩
    rw [Call.Succeeds, refused] at all
    cases all.1.2
  rw [if_neg refused]
  have fresh : At ⟨o.parts, some [], 0, p.part + 1, o.fwrites⟩ ⟨p.part + 1, 0, p.fwrites⟩ :=
    ⟨Option.some_ne_none [], rfl, rfl, here.fwrites⟩
  obtain ⟨ok, o', run, all, there⟩ := fresh.fwriteAll disk rest
  have opened : Call.Succeeds disk progress totalSize (.fopen (p.part + 1)) :=
    ⟨not_le.mp limit, Bool.eq_true_of_not_eq_false refused⟩
  simp only [run]
  cases ok with
  | false =>
    exact ⟨false, o', rfl, ⟨fun done => absurd done Bool.false_ne_true, fun both => all.mpr both.2⟩,
      fun done => absurd done Bool.false_ne_true⟩
  | true =>
    refine ⟨true, _, if_pos rfl, iff_of_true rfl ⟨opened, all.mp rfl⟩, fun _ => ?_⟩
    refine ⟨there.current, there.part, ?_, there.fwrites⟩
    change o'.bytesWrittenInPart + (rest.length : Int) = rest.length
    rw [there.inPart]
    exact Int.zero_add _

/-- A write that stays in its part; the bytes are counted where there are several. -/
theorem At.within (here : At o p) (progress : Progress) (totalSize : Nat)
    (divided : division numOfParts partitionSize o buf.length = (↑buf.length, 0))
    (run : writeOutputFile disk numOfParts partitionSize o buf = some (ok, o')) :
    (ok = true ↔ ∀ c ∈ fwriteCall p.fwrites buf.length, c.Succeeds disk progress totalSize) ∧
      (ok = true → At o' ⟨p.part, if numOfParts = 1 then p.inPart else p.inPart + buf.length,
        p.fwrites + (fwriteCall p.fwrites buf.length).length⟩) := by
  have whole : (buf.take (buf.length : Int).toNat).length = buf.length := by
    rw [Int.toNat_natCast, List.take_length]
  obtain ⟨ok', first, call, all, there⟩ := here.firstWrite disk progress totalSize
    (buf.take (buf.length : Int).toNat) (whole.trans (Int.toNat_natCast _).symm)
    (Int.natCast_nonneg _)
  rw [whole] at all there
  rw [writeOutputFile, if_neg here.current, divided] at run
  simp only [if_neg (show ¬ (buf.length : Int) < 0 by omega), call] at run
  cases ok' with
  | false =>
    cases run
    exact ⟨all, fun done => absurd done Bool.false_ne_true⟩
  | true =>
    rw [if_neg (by decide)] at run
    by_cases single : numOfParts = 1
    · rw [if_pos single] at run ⊢
      cases run
      exact ⟨all, fun _ => there⟩
    · rw [if_neg single, if_pos trivial] at run
      rw [if_neg single]
      cases run
      exact ⟨all, fun _ => ⟨there.current, there.part, congrArg (· + _) there.inPart,
        there.fwrites⟩⟩

/-- A write that goes on in the next part. -/
theorem At.past (here : At o p) (progress : Progress) (totalSize : Nat) (many : numOfParts ≠ 1)
    (past : o.bytesWrittenInPart + buf.length > partitionSize)
    (run : writeOutputFile disk numOfParts partitionSize o buf = some (ok, o')) :
    (ok = true ↔ ∀ c ∈ (writeCalls numOfParts partitionSize p buf.length).1,
        c.Succeeds disk progress totalSize) ∧
      (ok = true → At o' (writeCalls numOfParts partitionSize p buf.length).2) := by
  have divided : division numOfParts partitionSize o buf.length =
      (partitionSize - o.bytesWrittenInPart,
        o.bytesWrittenInPart + buf.length - partitionSize) := by
    rw [division, if_neg many, if_pos past]
    dsimp only
    congr 1
    omega
  rw [writeOutputFile, if_neg here.current, divided] at run
  dsimp only at run
  by_cases negative : partitionSize - o.bytesWrittenInPart < 0
  · rw [if_pos negative] at run
    cases run
  rw [if_neg negative] at run
  have inside : (buf.take (partitionSize - o.bytesWrittenInPart).toNat).length =
      (partitionSize - o.bytesWrittenInPart).toNat := by
    rw [List.length_take]
    omega
  obtain ⟨ok', first, call, all, there⟩ := here.firstWrite disk progress totalSize _ inside
    (not_lt.mp negative)
  rw [inside] at all there
  simp only [call] at run
  rw [writeCalls, if_neg many, if_pos (here.inPart ▸ past), ← here.inPart]
  simp only [List.forall_mem_append]
  cases ok' with
  | false =>
    cases run
    exact ⟨iff_of_false Bool.false_ne_true fun both => Bool.false_ne_true (all.mpr both.1),
      fun done => absurd done Bool.false_ne_true⟩
  | true =>
    obtain ⟨ok'', o'', second, all', there'⟩ := there.remainder disk progress totalSize
      (buf.drop (partitionSize - o.bytesWrittenInPart).toNat)
    rw [if_neg (by decide), if_neg many, if_neg (by omega), second] at run
    rw [List.length_drop] at all' there'
    cases run
    exact ⟨⟨fun done => ⟨all.mp rfl, all'.mp done⟩, fun both => all'.mpr both.2⟩, there'⟩

/-- A write returns true exactly if its calls succeed. -/
theorem At.write (here : At o p) (progress : Progress) (totalSize : Nat)
    (run : writeOutputFile disk numOfParts partitionSize o buf = some (ok, o')) :
    (ok = true ↔ ∀ c ∈ (writeCalls numOfParts partitionSize p buf.length).1,
        c.Succeeds disk progress totalSize) ∧
      (ok = true → At o' (writeCalls numOfParts partitionSize p buf.length).2) := by
  by_cases single : numOfParts = 1
  · have divided : division numOfParts partitionSize o buf.length = (↑buf.length, 0) := by
      rw [division, if_pos single]
    have within := here.within progress totalSize divided run
    rw [if_pos single] at within
    rwa [writeCalls, if_pos single]
  by_cases past : o.bytesWrittenInPart + buf.length > partitionSize
  · exact here.past progress totalSize single past run
  · have divided : division numOfParts partitionSize o buf.length = (↑buf.length, 0) := by
      rw [division, if_neg single, if_neg past]
    have within := here.within progress totalSize divided run
    rw [if_neg single] at within
    rwa [writeCalls, if_neg single, if_neg (here.inPart ▸ past)]

/-! ## Whole runs -/

/-- A run comes to its end exactly if all its calls succeed. -/
theorem At.run {k : Nat} {steps : List Step} (here : At o p)
    (run : runSteps disk progress totalSize numOfParts partitionSize k o steps = some (ok, o')) :
    ok = true ↔ ∀ c ∈ calls numOfParts partitionSize p k steps,
      c.Succeeds disk progress totalSize := by
  induction steps generalizing o p k with
  | nil =>
    cases run
    exact iff_of_true rfl fun c among => absurd among List.not_mem_nil
  | cons step rest ih =>
    cases step with
    | write buf =>
      rw [calls, List.forall_mem_append]
      cases written : writeOutputFile disk numOfParts partitionSize o buf with
      | none =>
        rw [runSteps, written] at run
        cases run
      | some result =>
        obtain ⟨ok', mid⟩ := result
        obtain ⟨all, there⟩ := here.write progress totalSize written
        rw [runSteps_write rest written] at run
        cases ok' with
        | false =>
          cases run
          exact iff_of_false Bool.false_ne_true fun both => Bool.false_ne_true (all.mpr both.1)
        | true => rw [ih (there rfl) run, and_iff_right (all.mp rfl)]
    | progress current =>
      rw [calls, List.forall_mem_cons]
      rw [runSteps_progress] at run
      by_cases cancelled : progress k current totalSize = true
      · rw [if_pos cancelled] at run
        cases run
        refine iff_of_false Bool.false_ne_true fun both => ?_
        rw [Call.Succeeds, cancelled] at both
        cases both.1
      · rw [if_neg cancelled] at run
        have going : Call.Succeeds disk progress totalSize (.progress k current) :=
          Bool.eq_false_of_not_eq_true cancelled
        rw [ih here run, and_iff_right going]
    | fail =>
      cases run
      exact iff_of_false Bool.false_ne_true fun all => all _ List.mem_cons_self
    | fault => cases run

end Writes

end OutputCalls
