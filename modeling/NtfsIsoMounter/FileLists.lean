import NtfsIsoMounter.ImageWriter

/-!
# The lists of files

`build` makes an entry for each listed name but the later parts of a multipart file,
`getFileSizeAndProcessMultipart` goes on with the next number for as long as `stat`
succeeds, and `write` for as long as `fopen` does. The three find the same files
exactly if the numbers of the parts of each name are consecutive from 00 on.
-/

namespace FileLists

open CText SourceTrees DirectoryRecords ImageBuild ImageWriter

/-! ## Consecutive numbers -/

/-- The numbers from `i` on, up to the first that is not found. -/
def runFrom (found : Nat → Bool) : Nat → Nat → List Nat
  | 0, _ => []
  | fuel + 1, i => if found i then i :: runFrom found fuel (i + 1) else []

theorem runFrom_spec (found : Nat → Bool) (fuel i : Nat) :
    ∃ n ≤ fuel, runFrom found fuel i = List.range' i n ∧ (∀ k < n, found (i + k) = true) ∧
      (n < fuel → found (i + n) = false) := by
  induction fuel generalizing i with
  | zero => exact ⟨0, le_rfl, rfl, fun k low => absurd low (Nat.not_lt_zero k), nofun⟩
  | succ fuel ih =>
    rw [runFrom]
    split
    · rename_i here
      obtain ⟨n, le, run, all, stop⟩ := ih (i + 1)
      refine ⟨n + 1, Nat.succ_le_succ le, ?_, ?_, ?_⟩
      · rw [run, List.range'_succ]
      · rintro (_ | k) low
        · exact here
        · rw [← Nat.add_assoc, Nat.add_right_comm]
          exact all k (Nat.lt_of_succ_lt_succ low)
      · intro low
        rw [← Nat.add_assoc, Nat.add_right_comm]
        exact stop (Nat.lt_of_succ_lt_succ low)
    · rename_i missing
      refine ⟨0, Nat.zero_le _, rfl, fun k low => absurd low (Nat.not_lt_zero k), ?_⟩
      intro _
      simpa using missing

/-! ## The names of parts -/

/-- Part `i` of a name. -/
def namedPart (base : List UInt8) (i : Nat) : List UInt8 :=
  base ++ ascii ".666" ++ [UInt8.ofNat (48 + i / 10), UInt8.ofNat (48 + i % 10)]

theorem extension_eq_some {name tail : List UInt8} :
    extension name = some tail ↔ 46 ∉ tail ∧ ∃ base, name = base ++ 46 :: tail := by
  have behind : ∀ {l : List UInt8}, 46 ∉ l → ∀ base : List UInt8,
      ((base ++ 46 :: l).reverse.takeWhile (· != 46)).reverse = l := by
    intro l plain base
    have all : ∀ b ∈ l.reverse, (b != 46) = true := by
      intro b hb
      rw [bne_iff_ne]
      rintro rfl
      exact plain (List.mem_reverse.mp hb)
    rw [List.reverse_append, List.reverse_cons, List.append_assoc,
      List.takeWhile_append_of_pos all]
    simp
  rw [extension]
  constructor
  · intro found
    split at found
    · rename_i dot
      rw [List.contains_iff_mem] at dot
      obtain ⟨front, back, split, last⟩ := List.eq_append_cons_of_mem (List.mem_reverse.mpr dot)
      have whole : name = back.reverse ++ 46 :: front.reverse := by
        rw [← List.reverse_reverse name, split]
        simp
      have plain : (46 : UInt8) ∉ front.reverse := fun h => last (List.mem_reverse.mp h)
      rw [whole, behind plain] at found
      cases found
      exact ⟨plain, _, whole⟩
    · cases found
  · rintro ⟨plain, base, rfl⟩
    rw [if_pos, behind plain]
    rw [List.contains_iff_mem]
    exact List.mem_append_right _ List.mem_cons_self

theorem isDigit_iff {b : UInt8} : isDigit b = true ↔ 48 ≤ b.toNat ∧ b.toNat ≤ 57 := by
  simp [isDigit, UInt8.le_iff_toNat_le]

theorem partDigits_namedPart (base : List UInt8) {i : Nat} (low : i < 100) :
    partDigits (namedPart base i) =
      some (UInt8.ofNat (48 + i / 10), UInt8.ofNat (48 + i % 10)) := by
  have digits : ∀ i < 100, isDigit (UInt8.ofNat (48 + i / 10)) = true ∧
      isDigit (UInt8.ofNat (48 + i % 10)) = true ∧
      (46 : UInt8) ∉ [54, 54, 54, UInt8.ofNat (48 + i / 10), UInt8.ofNat (48 + i % 10)] := by
    decide +kernel
  obtain ⟨first, second, plain⟩ := digits i low
  have tail : extension (namedPart base i) =
      some [54, 54, 54, UInt8.ofNat (48 + i / 10), UInt8.ofNat (48 + i % 10)] := by
    rw [extension_eq_some]
    refine ⟨plain, base, ?_⟩
    rw [namedPart, List.append_assoc]
    rfl
  rw [partDigits, tail]
  exact if_pos ⟨rfl, rfl, rfl, first, second⟩

/-- The names with two digits are those of the first hundred parts. -/
theorem partDigits_isSome {name : List UInt8} {digits : UInt8 × UInt8}
    (found : partDigits name = some digits) :
    ∃ base, ∃ i < 100, name = namedPart base i ∧
      digits = (UInt8.ofNat (48 + i / 10), UInt8.ofNat (48 + i % 10)) := by
  rw [partDigits] at found
  split at found
  · rename_i a b c d e tail
    split at found
    · rename_i parts
      obtain ⟨rfl, rfl, rfl, first, second⟩ := parts
      obtain ⟨-, base, rfl⟩ := extension_eq_some.mp tail
      rw [isDigit_iff] at first second
      have tens : UInt8.ofNat (48 + (10 * (d.toNat - 48) + (e.toNat - 48)) / 10) = d := by
        have value : 48 + (10 * (d.toNat - 48) + (e.toNat - 48)) / 10 = d.toNat := by omega
        rw [value, UInt8.ofNat_toNat]
      have ones : UInt8.ofNat (48 + (10 * (d.toNat - 48) + (e.toNat - 48)) % 10) = e := by
        have value : 48 + (10 * (d.toNat - 48) + (e.toNat - 48)) % 10 = e.toNat := by omega
        rw [value, UInt8.ofNat_toNat]
      refine ⟨base, 10 * (d.toNat - 48) + (e.toNat - 48), by omega, ?_, ?_⟩
      · rw [namedPart, tens, ones, List.append_assoc]
        rfl
      · rw [tens, ones]
        exact (Option.some.inj found).symm
    · cases found
  · cases found

theorem ofNat_inj {m n : Nat} (hm : m < 256) (hn : n < 256) (same : UInt8.ofNat m = UInt8.ofNat n) :
    m = n := by
  have values := congrArg UInt8.toNat same
  rwa [UInt8.toNat_ofNat', UInt8.toNat_ofNat', Nat.mod_eq_of_lt hm, Nat.mod_eq_of_lt hn] at values

theorem namedPart_inj {base base' : List UInt8} {i j : Nat} (hi : i ≤ 100) (hj : j ≤ 100)
    (same : namedPart base i = namedPart base' j) : base = base' ∧ i = j := by
  obtain ⟨front, digits⟩ := List.append_inj' same rfl
  refine ⟨List.append_cancel_right front, ?_⟩
  have tens := ofNat_inj (by omega) (by omega) (List.cons.inj digits).1
  have ones := ofNat_inj (by omega) (by omega) (List.cons.inj (List.cons.inj digits).2).1
  omega

theorem namedPart_ne (base base' : List UInt8) {i : Nat} (low : i < 100) :
    namedPart base i ≠ namedPart base' 100 := by
  intro same
  have number := (namedPart_inj low.le le_rfl same).2
  omega

theorem ofNat_lt {m n : Nat} (small : n < 256) (less : m < n) : UInt8.ofNat m < UInt8.ofNat n := by
  rw [UInt8.lt_iff_toNat_lt, UInt8.toNat_ofNat', UInt8.toNat_ofNat', Nat.mod_eq_of_lt small,
    Nat.mod_eq_of_lt (less.trans small)]
  exact less

/-- `alphasort` puts the parts of a name in the order of their numbers. -/
theorem namedPart_lt (base : List UInt8) {i j : Nat} (less : i < j) (low : j ≤ 100) :
    namedPart base i < namedPart base j := by
  apply List.append_left_lt
  rw [List.cons_lt_cons_iff, List.cons_lt_cons_iff]
  by_cases tens : i / 10 = j / 10
  · refine Or.inr ⟨by rw [tens], Or.inl (ofNat_lt ?_ ?_)⟩ <;> omega
  · refine Or.inl (ofNat_lt ?_ ?_) <;> omega

theorem baseOf_namedPart (base : List UInt8) (i : Nat) :
    (namedPart base i).take ((namedPart base i).length - 6) = base := by
  rw [namedPart, List.append_assoc]
  apply List.take_left'
  simp [ascii]

/-! ## Kinds of names -/

theorem entryKind_first (base : List UInt8) : entryKind (namedPart base 0) = some true := by
  rw [entryKind, partDigits_namedPart base (by decide)]
  rfl

theorem entryKind_later (base : List UInt8) {i : Nat} (later : i ≠ 0) (low : i < 100) :
    entryKind (namedPart base i) = none := by
  have digits : ∀ i < 100, i ≠ 0 →
      ¬ (UInt8.ofNat (48 + i / 10), UInt8.ofNat (48 + i % 10)) = ((48, 48) : UInt8 × UInt8) := by
    decide +kernel
  rw [entryKind, partDigits_namedPart base low]
  exact if_neg (digits i low later)

/-- An ordinary name, the first part of a name or a later one. -/
theorem entryKind_cases (name : List UInt8) :
    (entryKind name = some false ∧ ∀ base, ∀ i < 100, name ≠ namedPart base i) ∨
    (entryKind name = some true ∧ ∃ base, name = namedPart base 0) ∨
    (entryKind name = none ∧ ∃ base i, i ≠ 0 ∧ i < 100 ∧ name = namedPart base i) := by
  cases found : partDigits name with
  | none =>
    refine Or.inl ⟨?_, ?_⟩
    · rw [entryKind, found]
    · rintro base i low rfl
      rw [partDigits_namedPart base low] at found
      cases found
  | some digits =>
    obtain ⟨base, i, low, rfl, -⟩ := partDigits_isSome found
    by_cases first : i = 0
    · subst first
      exact Or.inr (Or.inl ⟨entryKind_first base, base, rfl⟩)
    · exact Or.inr (Or.inr ⟨entryKind_later base first low, base, i, first, low, rfl⟩)

/-! ## The files behind an entry -/

def sizeOf (stat : List UInt8 → Option Stat) (path : List UInt8) : Nat :=
  ((stat path).map Stat.size).getD 0

/-- The files whose sizes `getFileSizeAndProcessMultipart` adds up. -/
def countedFiles (stat : List UInt8 → Option Stat) (e : FileEntry) : List (List UInt8) :=
  if e.multipart then
    (0 :: runFrom (fun i => (stat (partPath e.path i)).isSome) 2561 1).map (partPath e.path)
  else [e.path]

/-- The files `write` opens and copies. -/
def streamedFiles (fopen : Sources) (e : FileEntry) : List (List UInt8) :=
  if e.multipart then
    (runFrom (fun i => (fopen (partPath e.path i)).isSome) 2541 0).map (partPath e.path)
  else if (fopen e.path).isSome then [e.path] else []

/-- The bytes that are written. -/
def emitted (steps : List Step) : List UInt8 :=
  steps.flatMap fun step => match step with
    | .write buf => buf
    | _ => []

@[simp] theorem emitted_append (a b : List Step) : emitted (a ++ b) = emitted a ++ emitted b :=
  List.flatMap_append

@[simp] theorem emitted_write (buf : List UInt8) (steps : List Step) :
    emitted (.write buf :: steps) = buf ++ emitted steps := rfl

@[simp] theorem emitted_progress (current : Nat) (steps : List Step) :
    emitted (.progress current :: steps) = emitted steps := rfl

theorem partsSize_run (stat : List UInt8 → Option Stat) (base : List UInt8) (fuel i size : Nat) :
    let run := runFrom (fun i => (stat (partPath base i)).isSome) fuel i
    partsSize stat base fuel i size =
      if run.length < fuel then
        .ok (size + ((run.map (partPath base)).map (sizeOf stat)).sum)
      else .error .fault := by
  induction fuel generalizing i size with
  | zero => rfl
  | succ fuel ih =>
    dsimp only at ih ⊢
    rw [partsSize, runFrom]
    cases found : stat (partPath base i) with
    | none => simp
    | some s =>
      have value : sizeOf stat (partPath base i) = s.size := by
        rw [sizeOf, found]
        rfl
      simp only [Option.isSome_some, if_true, List.length_cons, Nat.succ_lt_succ_iff, List.map_cons,
        List.sum_cons, value, ih, Nat.add_assoc]

theorem emitted_pieces (current : Nat) (pieces : List (List UInt8)) :
    emitted (pieceSteps current pieces).1 =
      pieces.flatMap fun piece => piece ++ zeros (fillSector piece.length) := by
  induction pieces generalizing current with
  | nil => rfl
  | cons piece pieces ih => simp only [pieceSteps, emitted_write, emitted_progress, ih,
      List.flatMap_cons]

theorem emitted_partPieces (current : Nat) (pieces : List (List UInt8)) :
    emitted (partPieceSteps current pieces).1 = pieces.flatten := by
  induction pieces generalizing current with
  | nil => rfl
  | cons piece pieces ih =>
    simp only [partPieceSteps, emitted_write, emitted_progress, ih, List.flatten_cons]

theorem emitted_parts (fopen : Sources) (base : List UInt8) (fuel i current : Nat) :
    emitted (partSteps fopen base fuel i current).1 =
      ((runFrom (fun i => (fopen (partPath base i)).isSome) fuel i).map (partPath base)).flatMap
        fun path => ((fopen path).getD []).flatten := by
  induction fuel generalizing i current with
  | zero => rfl
  | succ fuel ih =>
    rw [partSteps, runFrom]
    cases found : fopen (partPath base i) with
    | none => by_cases first : i = 0 <;> simp [first, emitted]
    | some pieces =>
      simp only [emitted_append, emitted_partPieces, ih, Option.isSome_some, if_true,
        List.map_cons, List.flatMap_cons, found, Option.getD_some]

/-- What stands in the image for an entry: the pieces of its streamed files, those of an
ordinary file filled up one by one, a multipart file filled up at its end. -/
theorem emitted_file (fopen : Sources) (current : Nat) (e : FileEntry) :
    ∃ fill, emitted (fileSteps fopen current e).1 =
      ((streamedFiles fopen e).flatMap fun path => ((fopen path).getD []).flatMap fun piece =>
        piece ++ if e.multipart then [] else zeros (fillSector piece.length)) ++ zeros fill := by
  rw [fileSteps, streamedFiles]
  cases e.multipart with
  | true =>
    have fill : ∀ n, ∃ k, emitted (fillSteps n).1 = zeros k := by
      intro n
      rw [fillSteps]
      split
      · exact ⟨0x800 - n % 0x800, by simp [emitted]⟩
      · exact ⟨0, rfl⟩
    obtain ⟨k, filled⟩ := fill (partSteps fopen e.path 2541 0 current).2
    refine ⟨k, ?_⟩
    simp only [if_true, emitted_append, emitted_parts, filled, List.append_nil, List.flatMap_id']
  | false =>
    refine ⟨0, ?_⟩
    simp only [Bool.false_eq_true, if_false]
    cases found : fopen e.path with
    | none => simp [emitted, zeros]
    | some pieces => simp [emitted_pieces, found, zeros]

/-! ## What a list should say -/

/-- The names that get an entry. -/
def heads (names : List (List UInt8)) : List (List UInt8) :=
  names.filter fun name => (entryKind name).isSome

/-- The listed files an entry stands for: all parts of the name, or the file itself. -/
def filesOf (names : List (List UInt8)) (head : List UInt8) : List (List UInt8) :=
  if entryKind head = some true then
    names.filter fun name => (partDigits name).isSome ∧
      name.take (name.length - 6) = head.take (head.length - 6)
  else [head]

/-- The path without the number of the first part. -/
def entryPath (dir head : List UInt8) : List UInt8 :=
  createPath dir (if entryKind head = some true then head.take (head.length - 6) else head)

/-- An entry counts and streams the files it stands for. -/
structure StandsFor (stat : List UInt8 → Option Stat) (fopen : Sources) (dir : List UInt8)
    (names : List (List UInt8)) (head : List UInt8) (e : FileEntry) : Prop where
  path : e.path = entryPath dir head
  multipart : entryKind head = some e.multipart
  counted : countedFiles stat e = (filesOf names head).map (createPath dir)
  size : e.size = (((filesOf names head).map (createPath dir)).map (sizeOf stat)).sum
  streamed : streamedFiles fopen e = (filesOf names head).map (createPath dir)

/-- The entries of a directory, in the order of its listing, with every listed file in
exactly one of them. -/
structure Keeps (stat : List UInt8 → Option Stat) (fopen : Sources) (dir : List UInt8)
    (names : List (List UInt8)) (entries : List FileEntry) : Prop where
  entries : List.Forall₂ (StandsFor stat fopen dir names) (heads names) entries
  once : ∀ name ∈ names, ∃! head, head ∈ heads names ∧ name ∈ filesOf names head

/-- The parts of each name have the numbers from 00 to some number below 100, with no
file behind the last one, and every file can be looked at and opened. -/
structure Numbered (stat : List UInt8 → Option Stat) (fopen : Sources) (dir : List UInt8)
    (names : List (List UInt8)) : Prop where
  consecutive : ∀ base, ∀ i < 100, namedPart base i ∈ names →
    ∃ n ≤ 100, (∀ j < 100, namedPart base j ∈ names ↔ j < n) ∧
      stat (createPath dir (namedPart base n)) = none ∧
      fopen (createPath dir (namedPart base n)) = none
  readable : ∀ name ∈ names, (stat (createPath dir name)).isSome ∧
    (fopen (createPath dir name)).isSome

theorem mem_heads {names : List (List UInt8)} {head : List UInt8} :
    head ∈ heads names ↔ head ∈ names ∧ ((∀ base, ∀ i < 100, head ≠ namedPart base i) ∨
      ∃ base, head = namedPart base 0) := by
  rw [heads, List.mem_filter]
  refine and_congr_right fun _ => ?_
  obtain ⟨kind, plain⟩ | ⟨kind, first⟩ | ⟨kind, base, i, later, low, rfl⟩ := entryKind_cases head
  · simp only [kind, Option.isSome_some, true_iff]
    exact Or.inl plain
  · simp only [kind, Option.isSome_some, true_iff]
    exact Or.inr first
  · simp only [kind, Option.isSome_none, Bool.false_eq_true, false_iff]
    rintro (plain | ⟨base', same⟩)
    · exact plain base i low rfl
    · exact later (namedPart_inj low.le (Nat.zero_le _) same).2

theorem filesOf_plain {names : List (List UInt8)} {head : List UInt8}
    (plain : ∀ base, ∀ i < 100, head ≠ namedPart base i) : filesOf names head = [head] := by
  rw [filesOf, if_neg]
  intro kind
  obtain ⟨other, -⟩ | ⟨-, base, same⟩ | ⟨other, -⟩ := entryKind_cases head
  · rw [other] at kind
    cases kind
  · exact plain base 0 (by decide) same
  · rw [other] at kind
    cases kind

theorem mem_filesOf {names : List (List UInt8)} {base name : List UInt8} :
    name ∈ filesOf names (namedPart base 0) ↔ name ∈ names ∧
      ∃ i < 100, name = namedPart base i := by
  rw [filesOf, if_pos (entryKind_first base), List.mem_filter, baseOf_namedPart]
  refine and_congr_right fun _ => ?_
  rw [decide_eq_true_iff]
  constructor
  · rintro ⟨digits, same⟩
    obtain ⟨found, hfound⟩ := Option.isSome_iff_exists.mp digits
    obtain ⟨base', i, low, rfl, -⟩ := partDigits_isSome hfound
    rw [baseOf_namedPart] at same
    exact ⟨i, low, by rw [same]⟩
  · rintro ⟨i, low, rfl⟩
    rw [partDigits_namedPart base low]
    exact ⟨rfl, baseOf_namedPart base i⟩

section Paths
variable {dir : List UInt8} (text : 0 ∉ dir)
include text

theorem partPath_createPath {base : List UInt8} (plain : 0 ∉ base) {i : Nat} (low : i ≤ 100) :
    partPath (createPath dir base) i = createPath dir (namedPart base i) := by
  have digits : ∀ i ≤ 100, (0 : UInt8) ∉
      ascii ".666" ++ [UInt8.ofNat (48 + i / 10), UInt8.ofNat (48 + i % 10)] := by
    decide +kernel
  have whole : createPath dir base ++ ascii ".666" ++
      [UInt8.ofNat (48 + i / 10), UInt8.ofNat (48 + i % 10)] =
        createPath dir (namedPart base i) := by
    simp [createPath, namedPart]
  have none : 0 ∉ createPath dir (namedPart base i) := by
    rw [createPath, namedPart, List.append_assoc]
    simp only [List.mem_append, List.mem_cons, not_or] at text plain ⊢
    refine ⟨text, by decide, plain, ?_⟩
    simpa only [List.mem_append, List.mem_cons, not_or] using digits i low
  rw [partPath, whole, cString, List.takeWhile_eq_self_iff]
  intro b hb
  rw [bne_iff_ne]
  rintro rfl
  exact none hb

end Paths

/-! ## What the loop does -/

theorem runFrom_eq {found : Nat → Bool} {fuel i n : Nat} (enough : n < fuel)
    (all : ∀ k < n, found (i + k) = true) (stop : found (i + n) = false) :
    runFrom found fuel i = List.range' i n := by
  obtain ⟨m, -, run, below, last⟩ := runFrom_spec found fuel i
  obtain less | rfl | more := Nat.lt_trichotomy m n
  · have there := all m less
    rw [last (less.trans enough)] at there
    cases there
  · exact run
  · have here := below n more
    rw [stop] at here
    cases here

section Sizes
variable {stat : List UInt8 → Option Stat} {dir : List UInt8}

theorem extension_createPath {name : List UInt8} :
    extension (createPath dir name) = some (ascii "66600") ↔ ∃ base, name = namedPart base 0 := by
  constructor
  · intro tail
    obtain ⟨-, front, split⟩ := extension_eq_some.mp tail
    have split' : (dir ++ [47]) ++ name = front ++ 46 :: ascii "66600" := by
      rw [← split, createPath, List.append_assoc]
      rfl
    rcases List.append_eq_append_iff.mp split' with ⟨base, -, rfl⟩ | ⟨between, ends, inner⟩
    · exact ⟨base, by rw [namedPart, List.append_assoc]; rfl⟩
    · -- the slash is no part of the number
      rcases List.eq_nil_or_concat between with rfl | ⟨front', last, rfl⟩
      · exact ⟨[], inner.symm⟩
      · rw [List.concat_eq_append] at ends inner
        rw [← List.append_assoc] at ends
        have slash : last = 47 := (List.cons.inj (List.append_inj' ends rfl).2).1.symm
        have inside : (47 : UInt8) ∈ 46 :: ascii "66600" := by
          rw [inner, slash]
          simp
        exact absurd inside (by decide)
  · rintro ⟨base, rfl⟩
    rw [extension_eq_some]
    refine ⟨by decide, createPath dir base, ?_⟩
    simp [createPath, namedPart, ascii]

theorem getFileSize_plain {head : List UInt8} (plain : ∀ base, ∀ i < 100, head ≠ namedPart base i) :
    getFileSizeAndProcessMultipart stat (createPath dir head) =
      (need (stat (createPath dir head))).map fun s => (s.size, createPath dir head) := by
  have single : extension (createPath dir head) ≠ some (ascii "66600") := by
    intro tail
    obtain ⟨base, same⟩ := extension_createPath.mp tail
    exact plain base 0 (by decide) same
  rw [getFileSizeAndProcessMultipart]
  simp only [if_neg single]
  cases stat (createPath dir head) <;> rfl

theorem getFileSize_first (base : List UInt8) :
    getFileSizeAndProcessMultipart stat (createPath dir (namedPart base 0)) =
      (need (stat (createPath dir (namedPart base 0)))).bind fun s =>
        (partsSize stat (createPath dir base) 2561 1 s.size).map fun size =>
          (size, createPath dir base) := by
  have front : (createPath dir (namedPart base 0)).take
      ((createPath dir (namedPart base 0)).length - 6) =
      createPath dir base := by
    have whole : createPath dir (namedPart base 0) = namedPart (createPath dir base) 0 := by
      simp [createPath, namedPart]
    rw [whole, baseOf_namedPart]
  rw [getFileSizeAndProcessMultipart]
  simp only [if_pos (extension_createPath.mpr ⟨base, rfl⟩), front]
  rfl

/-- An entry is what the prober says of its name. -/
structure Probed (stat : List UInt8 → Option Stat) (dir head : List UInt8) (e : FileEntry) :
    Prop where
  found : getFileSizeAndProcessMultipart stat (createPath dir head) = .ok (e.size, e.path)
  multipart : entryKind head = some e.multipart

theorem listFilesFrom_probed {names : List (List UInt8)} {i : Nat} {linked : Bool}
    {sectors last : Nat}
    {entries : List FileEntry}
    (listed : listFilesFrom stat dir i linked sectors names = .ok (entries, last)) :
    List.Forall₂ (Probed stat dir) (heads names) entries := by
  induction names generalizing i linked sectors entries with
  | nil =>
    cases listed
    exact .nil
  | cons name names ih =>
    rw [listFilesFrom] at listed
    split at listed
    · rename_i skipped
      rw [heads, List.filter_cons_of_neg (by rw [skipped]; exact Bool.false_ne_true)]
      exact ih listed
    · rename_i multipart kind
      split at listed
      · cases listed
      · obtain ⟨⟨size, path⟩, probed, listed⟩ := bind_ok.mp listed
        obtain ⟨⟨rest, end'⟩, later, listed⟩ := bind_ok.mp listed
        cases listed
        rw [heads, List.filter_cons_of_pos (by rw [kind]; rfl)]
        exact .cons ⟨probed, kind⟩ (ih later)

/-- A list of files has a node as soon as the first name gets an entry. -/
theorem listFilesFrom_succeeds {names : List (List UInt8)} {i : Nat} {linked : Bool} {sectors : Nat}
    (first : linked = true ∨ i = 0 ∧ ∀ name ∈ names.head?, name ∈ heads names)
    (probed : ∀ head ∈ heads names,
      ∃ r, getFileSizeAndProcessMultipart stat (createPath dir head) = .ok r) :
    ∃ entries last, listFilesFrom stat dir i linked sectors names = .ok (entries, last) := by
  induction names generalizing i linked sectors with
  | nil => exact ⟨_, _, rfl⟩
  | cons name names ih =>
    rw [listFilesFrom]
    cases kind : entryKind name with
    | none =>
      have skipped : heads (name :: names) = heads names :=
        List.filter_cons_of_neg (by rw [kind]; exact Bool.false_ne_true)
      rw [skipped] at probed
      refine ih (Or.inl ?_) probed
      rcases first with linked | ⟨-, head⟩
      · exact linked
      · have member := (List.mem_filter.mp (head name rfl)).2
        rw [kind] at member
        cases member
    | some multipart =>
      have kept : heads (name :: names) = name :: heads names :=
        List.filter_cons_of_pos (by rw [kind]; rfl)
      rw [kept] at probed
      obtain ⟨here, behind⟩ := List.forall_mem_cons.mp probed
      obtain ⟨⟨size, path⟩, found⟩ := here
      obtain ⟨entries, last, rest⟩ : ∃ entries last, listFilesFrom stat dir (i + 1) true
          ((sectors + bytesToSectors size) % 2 ^ 32) names = .ok (entries, last) :=
        ih (Or.inl rfl) behind
      have node : ¬ (i ≠ 0 ∧ linked = false) := by
        rintro ⟨later, missing⟩
        rcases first with linked | ⟨start, -⟩
        · rw [missing] at linked
          cases linked
        · exact later start
      simp only [if_neg node]
      exact ⟨_, _, bind_ok.mpr ⟨_, found, bind_ok.mpr ⟨_, rest, rfl⟩⟩⟩

end Sizes

/-! ## When a list loses nothing -/

section Listing
variable {stat : List UInt8 → Option Stat} {fopen : Sources} {dir : List UInt8}
  {names : List (List UInt8)} (text : 0 ∉ dir) (plain : ∀ name ∈ names, 0 ∉ name)

theorem plain_base {base : List UInt8} {i : Nat} (whole : 0 ∉ namedPart base i) : 0 ∉ base :=
  fun zero => whole (List.mem_append_left _ (List.mem_append_left _ zero))

include text in
/-- The size is the sum over the files that were counted, and all of them were there. -/
theorem Probed.counted {head : List UInt8} {e : FileEntry} (probed : Probed stat dir head e)
    (whole : 0 ∉ head) : e.path = entryPath dir head ∧
      e.size = ((countedFiles stat e).map (sizeOf stat)).sum ∧
      ∀ path ∈ countedFiles stat e, (stat path).isSome := by
  obtain ⟨found, kind⟩ := probed
  obtain ⟨kind', single⟩ | ⟨kind', base, rfl⟩ | ⟨kind', -⟩ := entryKind_cases head
  · have multipart : e.multipart = false := by
      rw [kind'] at kind
      exact (Option.some.inj kind).symm
    rw [getFileSize_plain single] at found
    cases there : stat (createPath dir head) with
    | none =>
      rw [there] at found
      cases found
    | some s =>
      rw [there] at found
      obtain ⟨size, path⟩ := Prod.mk.inj (Except.ok.inj found)
      have counted : countedFiles stat e = [createPath dir head] := by
        rw [countedFiles, multipart, ← path]
        rfl
      rw [counted, entryPath, kind', if_neg (by decide)]
      refine ⟨path.symm, ?_, ?_⟩
      · rw [← size, List.map_singleton, List.sum_singleton, sizeOf, there]
        rfl
      · intro p hp
        rw [List.mem_singleton.mp hp, there]
        rfl
  · have multipart : e.multipart = true := by
      rw [kind'] at kind
      exact (Option.some.inj kind).symm
    rw [getFileSize_first] at found
    cases there : stat (createPath dir (namedPart base 0)) with
    | none =>
      rw [there] at found
      cases found
    | some s =>
      have sum := partsSize_run stat (createPath dir base) 2561 1 s.size
      dsimp only at sum
      obtain ⟨n, -, run, all, -⟩ :=
        runFrom_spec (fun i => (stat (partPath (createPath dir base) i)).isSome) 2561 1
      rw [there] at found
      change (partsSize stat (createPath dir base) 2561 1 s.size).map _ = _ at found
      rw [sum] at found
      split at found
      · obtain ⟨size, path⟩ := Prod.mk.inj (Except.ok.inj found)
        have zeroth : partPath (createPath dir base) 0 = createPath dir (namedPart base 0) :=
          partPath_createPath text (plain_base whole) (Nat.zero_le _)
        rw [countedFiles, if_pos multipart, ← path, List.map_cons, zeroth, entryPath, if_pos kind',
          baseOf_namedPart]
        refine ⟨rfl, ?_, ?_⟩
        · rw [← size, List.map_cons, List.sum_cons, sizeOf, there]
          rfl
        · rintro p hp
          rcases List.mem_cons.mp hp with rfl | hp
          · rw [there]
            rfl
          · rw [run] at hp
            obtain ⟨k, hk, rfl⟩ := List.mem_map.mp hp
            obtain ⟨low, high⟩ := List.mem_range'_1.mp hk
            obtain ⟨j, rfl⟩ := Nat.exists_eq_add_of_le low
            exact all j (by omega)
      · cases found
  · rw [kind'] at kind
    cases kind

section Sorted
variable (sorted : names.Pairwise (· < ·)) (numbered : Numbered stat fopen dir names)
include text plain sorted numbered

/-- All three find the same parts. -/
theorem Numbered.parts {base : List UInt8} (first : namedPart base 0 ∈ names) :
    ∃ n, 0 < n ∧ n ≤ 100 ∧ filesOf names (namedPart base 0) = (List.range n).map (namedPart base) ∧
      (∀ i ≤ n, partPath (createPath dir base) i = createPath dir (namedPart base i)) ∧
      runFrom (fun i => (stat (partPath (createPath dir base) i)).isSome) 2561 1 =
        List.range' 1 (n - 1) ∧
      runFrom (fun i => (fopen (partPath (createPath dir base) i)).isSome) 2541 0 =
        List.range' 0 n := by
  obtain ⟨n, few, listed, noStat, noFile⟩ := numbered.consecutive base 0 (by decide) first
  have path : ∀ i ≤ n, partPath (createPath dir base) i = createPath dir (namedPart base i) :=
    fun i low => partPath_createPath text (plain_base (plain _ first)) (low.trans few)
  have there : ∀ i < n, (stat (partPath (createPath dir base) i)).isSome ∧
      (fopen (partPath (createPath dir base) i)).isSome := by
    intro i low
    rw [path i low.le]
    exact numbered.readable _ ((listed i (by omega)).mpr low)
  have some' : 0 < n := (listed 0 (by decide)).mp first
  refine ⟨n, some', few, ?_, path, ?_, ?_⟩
  · -- both sides are in the order of `alphasort`
    have filtered : (filesOf names (namedPart base 0)).Pairwise (· < ·) := by
      rw [filesOf, if_pos (entryKind_first base)]
      exact sorted.sublist List.filter_sublist
    have numbers : ((List.range n).map (namedPart base)).Pairwise (· < ·) := by
      rw [List.pairwise_map]
      refine List.pairwise_lt_range.imp_of_mem ?_
      intro i j _ hj less
      exact namedPart_lt base less (by have := List.mem_range.mp hj; omega)
    apply filtered.eq_of_mem_iff numbers
    intro name
    rw [mem_filesOf, List.mem_map]
    constructor
    · rintro ⟨member, i, low, rfl⟩
      exact ⟨i, List.mem_range.mpr ((listed i low).mp member), rfl⟩
    · rintro ⟨i, hi, rfl⟩
      have low : i < 100 := (List.mem_range.mp hi).trans_le few
      exact ⟨(listed i low).mpr (List.mem_range.mp hi), i, low, rfl⟩
  · refine runFrom_eq (by omega) ?_ ?_
    · exact fun k low => (there (1 + k) (by omega)).1
    · rw [Nat.add_sub_cancel' some', path n le_rfl, noStat]
      rfl
  · refine runFrom_eq (by omega) ?_ ?_
    · intro k low
      rw [Nat.zero_add]
      exact (there k low).2
    · rw [Nat.zero_add, path n le_rfl, noFile]
      rfl

theorem Numbered.stands {head : List UInt8} (member : head ∈ heads names) {e : FileEntry}
    (probed : Probed stat dir head e) : StandsFor stat fopen dir names head e := by
  have listed := (mem_heads.mp member).1
  obtain ⟨path, size, -⟩ := probed.counted text (plain head listed)
  suffices both : countedFiles stat e = (filesOf names head).map (createPath dir) ∧
      streamedFiles fopen e = (filesOf names head).map (createPath dir) from
    ⟨path, probed.multipart, both.1, by rw [size, both.1], both.2⟩
  have kind := probed.multipart
  obtain ⟨kind', single⟩ | ⟨kind', base, rfl⟩ | ⟨kind', -⟩ := entryKind_cases head
  · rw [kind'] at kind
    have multipart : e.multipart = false := (Option.some.inj kind).symm
    rw [entryPath, kind', if_neg (by decide)] at path
    rw [filesOf_plain single, countedFiles, streamedFiles, multipart, path]
    simp only [Bool.false_eq_true, if_false, (numbered.readable head listed).2, if_true,
      List.map_cons, List.map_nil, and_self]
  · rw [kind'] at kind
    have multipart : e.multipart = true := (Option.some.inj kind).symm
    rw [entryPath, if_pos kind', baseOf_namedPart] at path
    obtain ⟨n, some', -, files, paths, counted, streamed⟩ :=
      numbered.parts text plain sorted listed
    have whole : ((List.range n).map (namedPart base)).map (createPath dir) =
        (List.range n).map (partPath (createPath dir base)) := by
      rw [List.map_map]
      exact List.map_congr_left fun i hi => (paths i (List.mem_range.mp hi).le).symm
    have start : 0 :: List.range' 1 (n - 1) = List.range n := by
      obtain ⟨k, rfl⟩ : ∃ k, n = k + 1 := ⟨n - 1, by omega⟩
      rw [List.range_eq_range', List.range'_succ]
      rfl
    rw [countedFiles, streamedFiles, if_pos multipart, if_pos multipart, path, files, whole,
      counted, streamed, start, ← List.range_eq_range']
    exact ⟨rfl, rfl⟩
  · rw [kind'] at kind
    cases kind

theorem Numbered.probes {head : List UInt8} (member : head ∈ heads names) :
    ∃ r, getFileSizeAndProcessMultipart stat (createPath dir head) = .ok r := by
  have listed := (mem_heads.mp member).1
  obtain ⟨s, there⟩ := Option.isSome_iff_exists.mp (numbered.readable head listed).1
  rcases (mem_heads.mp member).2 with single | ⟨base, rfl⟩
  · rw [getFileSize_plain single, there]
    exact ⟨_, rfl⟩
  · obtain ⟨n, -, few, -, -, counted, -⟩ := numbered.parts text plain sorted listed
    have sum := partsSize_run stat (createPath dir base) 2561 1 s.size
    dsimp only at sum
    rw [counted, List.length_range', if_pos (by omega)] at sum
    rw [getFileSize_first, there]
    change ∃ r, (partsSize stat (createPath dir base) 2561 1 s.size).map _ = .ok r
    rw [sum]
    exact ⟨_, rfl⟩

omit text plain in
/-- The first name is not a later part, whose first part would stand in front of it. -/
theorem Numbered.starts : ∀ name ∈ names.head?, name ∈ heads names := by
  intro name front
  obtain ⟨rest, rfl⟩ : ∃ rest, names = name :: rest := by
    cases names with
    | nil => cases front
    | cons a rest =>
      cases front
      exact ⟨rest, rfl⟩
  rw [mem_heads]
  refine ⟨List.mem_cons_self, ?_⟩
  obtain ⟨-, single⟩ | ⟨-, first⟩ | ⟨-, base, i, later, low, rfl⟩ := entryKind_cases name
  · exact Or.inl single
  · exact Or.inr first
  · obtain ⟨n, few, listed, -⟩ := numbered.consecutive base i low List.mem_cons_self
    have some' : i < n := (listed i low).mp List.mem_cons_self
    have first := (listed 0 (by decide)).mpr (by omega)
    have before : namedPart base 0 < namedPart base i := namedPart_lt base (by omega) low.le
    rcases List.mem_cons.mp first with same | behind
    · rw [same] at before
      exact absurd before (List.lt_irrefl _)
    · exact absurd before (List.lt_asymm ((List.pairwise_cons.mp sorted).1 _ behind))

/-- Consecutive numbers are enough. -/
theorem Numbered.keeps (sectors : Nat) : ∃ entries last,
    listFilesFrom stat dir 0 false sectors names = .ok (entries, last) ∧
      Keeps stat fopen dir names entries := by
  obtain ⟨entries, last, listed⟩ : ∃ entries last,
      listFilesFrom stat dir 0 false sectors names = .ok (entries, last) :=
    listFilesFrom_succeeds (Or.inr ⟨rfl, numbered.starts sorted⟩)
      fun head member => numbered.probes text plain sorted member
  have probed := listFilesFrom_probed listed
  refine ⟨entries, last, listed, ?_, ?_⟩
  · rw [List.forall₂_iff_get] at probed ⊢
    refine ⟨probed.1, fun i hi hi' => ?_⟩
    exact numbered.stands text plain sorted (List.get_mem _ _) (probed.2 i hi hi')
  · intro name member
    obtain ⟨kind, single⟩ | ⟨base, i, low, rfl⟩ :
        (entryKind name = some false ∧ ∀ base, ∀ i < 100, name ≠ namedPart base i) ∨
          ∃ base i, i < 100 ∧ name = namedPart base i := by
      obtain ⟨kind, single⟩ | ⟨-, base, rfl⟩ | ⟨-, base, i, -, low, rfl⟩ := entryKind_cases name
      · exact Or.inl ⟨kind, single⟩
      · exact Or.inr ⟨base, 0, by decide, rfl⟩
      · exact Or.inr ⟨base, i, low, rfl⟩
    · refine ⟨name, ⟨mem_heads.mpr ⟨member, Or.inl single⟩, ?_⟩, ?_⟩
      · rw [filesOf_plain single]
        exact List.mem_singleton_self name
      · rintro head ⟨own, inner⟩
        rcases (mem_heads.mp own).2 with single' | ⟨base, rfl⟩
        · rw [filesOf_plain single'] at inner
          exact (List.mem_singleton.mp inner).symm
        · obtain ⟨-, i, low, same⟩ := mem_filesOf.mp inner
          exact absurd same (single base i low)
    · obtain ⟨n, few, listed', -⟩ := numbered.consecutive base i low member
      have some' : i < n := (listed' i low).mp member
      have first := (listed' 0 (by decide)).mpr (by omega)
      refine ⟨namedPart base 0, ⟨mem_heads.mpr ⟨first, Or.inr ⟨base, rfl⟩⟩, ?_⟩, ?_⟩
      · exact mem_filesOf.mpr ⟨member, i, low, rfl⟩
      · rintro head ⟨own, inner⟩
        rcases (mem_heads.mp own).2 with single | ⟨base', rfl⟩
        · rw [filesOf_plain single] at inner
          exact absurd (List.mem_singleton.mp inner).symm (single base i low)
        · obtain ⟨-, j, low', same⟩ := mem_filesOf.mp inner
          rw [(namedPart_inj low.le low'.le same).1]

end Sorted

include text plain in
/-- Nothing less than consecutive numbers is enough. -/
theorem numbered_of_keeps {sectors last : Nat} {entries : List FileEntry}
    (listed : listFilesFrom stat dir 0 false sectors names = .ok (entries, last))
    (keeps : Keeps stat fopen dir names entries) : Numbered stat fopen dir names := by
  have probed := listFilesFrom_probed listed
  -- the entry in which a name is counted
  have entry : ∀ name ∈ names, ∃ head ∈ heads names, name ∈ filesOf names head ∧
      ∃ e, StandsFor stat fopen dir names head e ∧ Probed stat dir head e := by
    intro name member
    obtain ⟨head, ⟨own, inner⟩, -⟩ := keeps.once name member
    obtain ⟨i, hi, rfl⟩ := List.mem_iff_getElem.mp own
    have length := keeps.entries.length_eq
    have stands := (List.forall₂_iff_get.mp keeps.entries).2 i hi (length ▸ hi)
    have found := (List.forall₂_iff_get.mp probed).2 i hi (length ▸ hi)
    exact ⟨_, own, inner, _, stands, found⟩
  constructor
  · intro base i low member
    obtain ⟨head, own, inner, e, stands, found⟩ := entry _ member
    rcases (mem_heads.mp own).2 with single | ⟨base', rfl⟩
    · rw [filesOf_plain single] at inner
      exact absurd (List.mem_singleton.mp inner).symm (single base i low)
    obtain ⟨-, j, low', same⟩ := mem_filesOf.mp inner
    obtain ⟨rfl, -⟩ := namedPart_inj low.le low'.le same
    have first := (mem_heads.mp own).1
    have kind := stands.multipart
    rw [entryKind_first] at kind
    have multipart : e.multipart = true := (Option.some.inj kind).symm
    have path := stands.path
    rw [entryPath, if_pos (entryKind_first base), baseOf_namedPart] at path
    have paths : ∀ i ≤ 100, partPath (createPath dir base) i = createPath dir (namedPart base i) :=
      fun i low => partPath_createPath text (plain_base (plain _ first)) low
    have counted := stands.counted
    have streamed := stands.streamed
    rw [countedFiles, if_pos multipart, path] at counted
    rw [streamedFiles, if_pos multipart, path] at streamed
    obtain ⟨n, -, run, -, noStat⟩ :=
      runFrom_spec (fun i => (stat (partPath (createPath dir base) i)).isSome) 2561 1
    obtain ⟨m, -, run', -, noFile⟩ :=
      runFrom_spec (fun i => (fopen (partPath (createPath dir base) i)).isSome) 2541 0
    have start : 0 :: List.range' 1 n = List.range' 0 (n + 1) := by rw [List.range'_succ]
    rw [run, start] at counted
    rw [run'] at streamed
    have paths' : ∀ name, createPath dir name ∈ (filesOf names (namedPart base 0)).map
        (createPath dir) ↔ name ∈ filesOf names (namedPart base 0) := fun name =>
      List.mem_map_of_injective fun a b same => (List.cons.inj (List.append_cancel_left same)).2
    have reached : ∀ j ≤ 100, j < n + 1 → namedPart base j ∈ filesOf names (namedPart base 0) := by
      intro j low below
      rw [← paths', ← counted, ← paths j low]
      exact List.mem_map_of_mem (List.mem_range'_1.mpr ⟨Nat.zero_le _, by omega⟩)
    have few : n + 1 ≤ 100 := by
      by_contra many
      obtain ⟨-, j, low, same⟩ := mem_filesOf.mp (reached 100 le_rfl (by omega))
      exact namedPart_ne base base low same.symm
    have inside : ∀ j < 100, namedPart base j ∈ filesOf names (namedPart base 0) ↔ j < n + 1 := by
      intro j low
      refine ⟨?_, reached j low.le⟩
      intro member
      rw [← paths', ← counted] at member
      obtain ⟨k, hk, same⟩ := List.mem_map.mp member
      have below := (List.mem_range'_1.mp hk).2
      rw [paths k (by omega)] at same
      have equal := (List.cons.inj (List.append_cancel_left same)).2
      rw [← (namedPart_inj (by omega) low.le equal).2]
      omega
    have same : m = n + 1 := by
      have lengths := congrArg List.length (streamed.trans counted.symm)
      simpa using lengths
    refine ⟨n + 1, few, ?_, ?_, ?_⟩
    · intro j low
      rw [← inside j low, mem_filesOf]
      exact ⟨fun member => ⟨member, j, low, rfl⟩, fun both => both.1⟩
    · have none' := noStat (by omega)
      rw [Nat.add_comm 1 n, paths _ few] at none'
      exact Option.not_isSome_iff_eq_none.mp (Bool.eq_false_iff.mp none')
    · have none' := noFile (by omega)
      rw [Nat.zero_add, same, paths _ few] at none'
      exact Option.not_isSome_iff_eq_none.mp (Bool.eq_false_iff.mp none')
  · intro name member
    obtain ⟨head, own, inner, e, stands, found⟩ := entry _ member
    have path := List.mem_map_of_mem (f := createPath dir) inner
    constructor
    · rw [← stands.counted] at path
      exact (found.counted text (plain head (mem_heads.mp own).1)).2.2 _ path
    · rw [← stands.streamed, streamedFiles] at path
      obtain ⟨m, -, run', all, -⟩ :=
        runFrom_spec (fun i => (fopen (partPath e.path i)).isSome) 2541 0
      split at path
      · rw [run'] at path
        obtain ⟨k, hk, same⟩ := List.mem_map.mp path
        rw [← same]
        have here := all k (by have := List.mem_range'_1.mp hk; omega)
        rwa [Nat.zero_add] at here
      · split at path
        · rename_i opens
          rwa [List.mem_singleton.mp path]
        · cases path

end Listing

/-! ## All directories -/

/-- What the second loop of `build` leaves: a list for each directory, and no null node
is dereferenced on the way. -/
def KeepsFiles (stat : List UInt8 → Option Stat) (fopen : Sources) (dirs : List Dir)
    (sectors : Nat) : Prop :=
  ∃ files total, listFiles stat dirs sectors = .ok (files, total) ∧
    List.Forall₂ (fun d entries => Keeps stat fopen d.path d.tree.files entries) dirs files

theorem keepsFiles_iff {stat : List UInt8 → Option Stat} {fopen : Sources} {dirs : List Dir}
    (text : ∀ d ∈ dirs, 0 ∉ d.path ∧ ∀ name ∈ d.tree.files, 0 ∉ name)
    (sorted : ∀ d ∈ dirs, d.tree.files.Pairwise (· < ·)) (sectors : Nat) :
    KeepsFiles stat fopen dirs sectors ↔
      ∀ d ∈ dirs, Numbered stat fopen d.path d.tree.files := by
  induction dirs generalizing sectors with
  | nil => exact ⟨fun _ => nofun, fun _ => ⟨[], sectors, rfl, .nil⟩⟩
  | cons d dirs ih =>
    obtain ⟨⟨path, names⟩, text⟩ := List.forall_mem_cons.mp text
    obtain ⟨order, sorted⟩ := List.forall_mem_cons.mp sorted
    rw [List.forall_mem_cons]
    constructor
    · rintro ⟨files, total, listed, keeps⟩
      obtain ⟨⟨entries, next⟩, first, listed⟩ := bind_ok.mp listed
      obtain ⟨⟨rest, last⟩, later, listed⟩ := bind_ok.mp listed
      cases listed
      obtain ⟨here, behind⟩ := List.forall₂_cons.mp keeps
      exact ⟨numbered_of_keeps path names first here,
        (ih text sorted next).mp ⟨rest, total, later, behind⟩⟩
    · rintro ⟨here, behind⟩
      obtain ⟨entries, next, first, keeps⟩ := here.keeps path names order sectors
      obtain ⟨rest, last, later, keeps'⟩ := (ih text sorted next).mpr behind
      exact ⟨entries :: rest, last, bind_ok.mpr ⟨_, first, bind_ok.mpr ⟨_, later, rfl⟩⟩,
        .cons keeps keeps'⟩

theorem files_text {tree : SourceTree} (proper : tree.Proper) {name : List UInt8}
    (member : name ∈ tree.files) : 0 ∉ name := by
  cases proper with
  | dir plain distinct below => exact (plain name (List.mem_append_left _ member)).2.2

theorem listDirs_text {inDir : List UInt8} {tree : SourceTree} (proper : tree.Proper)
    (text : 0 ∉ inDir) :
    ∀ d ∈ listDirs inDir tree, 0 ∉ d.path ∧ ∀ name ∈ d.tree.files, 0 ∉ name := by
  intro d hd
  constructor
  · obtain ⟨a, ha, below⟩ := BreadthFirst.mem_walk_below _ _ hd
    rw [List.mem_singleton.mp ha] at below
    clear hd ha
    suffices both : d.tree.Proper ∧ 0 ∉ d.path from both.2
    induction below with
    | refl => exact ⟨proper, text⟩
    | @tail b c _ child ih =>
      obtain ⟨name, member, path⟩ := Dir.mem_subdirs.mp child
      refine ⟨ih.1.sub member, ?_⟩
      rw [path, createPath]
      intro zero
      rcases List.mem_append.mp zero with front | back
      · exact ih.2 front
      · rcases List.mem_cons.mp back with slash | inner
        · exact absurd slash (by decide)
        · exact (ih.1.name member).2.2 inner
  · intro name member
    exact files_text (mem_listDirs_proper proper hd) member

/-- For the files of every directory of a tree: no null node is dereferenced, the entries
stand in the order of the listing, each file is in exactly one of them, and what an entry
counts is what `write` opens for it, exactly if the parts of each name are numbered from
00 on without a gap. -/
theorem listFiles_keeps_iff {stat : List UInt8 → Option Stat} {fopen : Sources}
    {inDir : List UInt8} {tree : SourceTree} (proper : tree.Proper) (text : 0 ∉ inDir)
    (sorted : ∀ d ∈ listDirs inDir tree, d.tree.files.Pairwise (· < ·)) :
    KeepsFiles stat fopen (listDirs inDir tree) 0 ↔
      ∀ d ∈ listDirs inDir tree, Numbered stat fopen d.path d.tree.files :=
  keepsFiles_iff (listDirs_text proper text) sorted 0

/-- Two parts and an ordinary file. -/
def partsTree : SourceTree := .dir true [ascii "a.66600", ascii "a.66601", ascii "b"] []

/-- Only some paths can be looked at; the size is the length of the path. -/
def onlyStat (paths : List (List UInt8)) (path : List UInt8) : Option Stat :=
  if path ∈ paths then some ⟨path.length, ⟨0, 0, 0, 0, 0, 0⟩⟩ else none

def partsStat : List UInt8 → Option Stat :=
  onlyStat [ascii "/in", ascii "/in/a.66600", ascii "/in/a.66601", ascii "/in/b"]

def partsSources : Sources := fun path => (partsStat path).map fun _ => [path]

theorem partsTree_proper : partsTree.Proper := by
  refine .dir (by decide) (by decide) ?_
  intro name tree member
  cases member

theorem partsTree_kept :
    KeepsFiles partsStat partsSources (listDirs (ascii "/in") partsTree) 0 := by
  have only : ∀ d ∈ listDirs (ascii "/in") partsTree, d = ⟨ascii "/in", partsTree⟩ := by
    intro d hd
    exact List.mem_singleton.mp hd
  refine (listFiles_keeps_iff partsTree_proper (by decide) ?_).mpr ?_
  · intro d hd
    rw [only d hd]
    decide
  · intro d hd
    rw [only d hd]
    constructor
    · intro base i low member
      have base' : base = ascii "a" := by
        rw [← baseOf_namedPart base i]
        have long : 6 ≤ (namedPart base i).length := by simp [namedPart, ascii]
        generalize namedPart base i = name at member long
        simp only [partsTree, SourceTree.files, List.mem_cons, List.not_mem_nil, or_false] at member
        rcases member with rfl | rfl | rfl
        · rfl
        · rfl
        · exact absurd long (by decide)
      rw [base']
      refine ⟨2, by decide, ?_, by decide, by decide⟩
      decide +kernel
    · decide

/-- The first of the two names gets no entry, so the list has no node to link the second
one to. -/
def orphanTree : SourceTree := .dir true [ascii "a.66601", ascii "b"] []

theorem orphan_faults : orphanTree.Proper ∧ orphanTree.files.Pairwise (· < ·) ∧
    build (onlyStat [ascii "/in", ascii "/in/a.66601", ascii "/in/b"]) 0x100000 (ascii "/in")
      orphanTree = .error .fault := by
  refine ⟨?_, by decide, rfl⟩
  refine .dir (by decide) (by decide) ?_
  intro name tree member
  cases member

end FileLists
