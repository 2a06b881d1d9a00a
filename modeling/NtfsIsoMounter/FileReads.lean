import NtfsIsoMounter.WriteOrder

/-!
# What a run reads of the files

The sizes of the files are fixed when they are listed, and the bytes are read again when the
image is written. A piece that `fread` returns is filled up to a sector on its own, so that a file
takes the sectors counted for it only if it is read in whole sectors and to the measured size.
-/

namespace FileReads

open CText SourceTrees ImageBuild ImageWriter MultiExtents FileLists WriteOrder

/-! ## Pieces -/

/-- The pieces that are filled up each on its own; a multipart file is filled up as a whole. -/
def piecesOf (fopen : Sources) (e : FileEntry) : List (List UInt8) :=
  if e.multipart then
    [(streamedFiles fopen e).flatMap fun path => ((fopen path).getD []).flatten]
  else (fopen e.path).getD []

/-- All that is read for an entry. -/
def readOf (fopen : Sources) (e : FileEntry) : List UInt8 := (piecesOf fopen e).flatten

def filled (pieces : List (List UInt8)) : List UInt8 :=
  pieces.flatMap fun piece => piece ++ zeros (fillSector piece.length)

/-- The sectors that some pieces take. -/
def sectorsTaken (pieces : List (List UInt8)) : Nat := (pieces.map fun p => sectorsOf p.length).sum

@[simp] theorem filled_nil : filled [] = [] := rfl

@[simp] theorem filled_cons (piece : List UInt8) (pieces : List (List UInt8)) :
    filled (piece :: pieces) = piece ++ (zeros (fillSector piece.length) ++ filled pieces) := by
  rw [filled, List.flatMap_cons, List.append_assoc]
  rfl

theorem filled_length' (pieces : List (List UInt8)) :
    (filled pieces).length = sectorsTaken pieces * 0x800 := by
  induction pieces with
  | nil => rfl
  | cons piece pieces ih =>
    have own := filled_length piece.length
    simp only [filled_cons, List.length_append, zeros, List.length_replicate, ih, sectorsTaken,
      List.map_cons, List.sum_cons, Nat.add_mul]
    omega

/-- Pieces take at least the sectors of all their bytes. -/
theorem sectorsOf_le_taken (pieces : List (List UInt8)) :
    sectorsOf pieces.flatten.length ≤ sectorsTaken pieces := by
  induction pieces with
  | nil => exact le_rfl
  | cons piece pieces ih =>
    simp only [List.flatten_cons, List.length_append, sectorsTaken, List.map_cons, List.sum_cons]
    simp only [sectorsTaken, sectorsOf] at ih ⊢
    omega

theorem sectorsOf_mono {m n : Nat} (le : m ≤ n) : sectorsOf m ≤ sectorsOf n :=
  Nat.div_le_div_right (by omega)

/-- From a whole sector on a file takes its pieces filled up. -/
theorem emitted_fileSteps (fopen : Sources) (e : FileEntry) {current : Nat}
    (whole : current % 0x800 = 0) :
    emitted (fileSteps fopen current e).1 = filled (piecesOf fopen e) := by
  rw [fileSteps, piecesOf]
  cases kind : e.multipart with
  | true =>
    have position := partSteps_position fopen e.path 2541 0 current
    have bytes := emitted_parts fopen e.path 2541 0 current
    have streamed : streamedFiles fopen e =
        (runFrom (fun i => (fopen (partPath e.path i)).isSome) 2541 0).map (partPath e.path) := by
      rw [streamedFiles, if_pos kind]
    rw [← streamed] at bytes
    simp only [if_true, emitted_append, (fillSteps_spec _).2, position, bytes, filled_cons,
      filled_nil, List.append_nil]
    congr 2
    rw [sectorsOf_add _ whole]
    have own := filled_length
      ((streamedFiles fopen e).flatMap fun path => ((fopen path).getD []).flatten).length
    omega
  | false =>
    simp only [Bool.false_eq_true, if_false]
    cases fopen e.path with
    | none => rfl
    | some pieces => exact emitted_pieces current pieces

/-- The files one behind the other, from a whole sector on. -/
theorem fileBytes_eq (fopen : Sources) (es : List FileEntry) {current : Nat}
    (whole : current % 0x800 = 0) :
    fileBytes fopen current es = es.map fun e => filled (piecesOf fopen e) := by
  induction es generalizing current with
  | nil => rfl
  | cons e es ih =>
    have own := emitted_fileSteps fopen e whole
    have next : (fileSteps fopen current e).2 % 0x800 = 0 := by
      rw [fileSteps_position, own, filled_length']
      omega
    rw [fileBytes, own, ih next, List.map_cons]

/-! ## The measured size -/

/-- Some bytes begin with as many of those read as were measured, filled up to a sector. -/
structure Holds (read : List UInt8) (size : Nat) (bytes : List UInt8) : Prop where
  enough : size ≤ read.length
  bytes : bytes.take (sectorsOf size * 0x800) = read.take size ++ zeros (fillSector size)

theorem holds_zero (read bytes : List UInt8) : Holds read 0 bytes := ⟨Nat.zero_le _, rfl⟩

/-- Pieces of these lengths are whole sectors up to the measured size, and the size is reached
where a piece or a sector ends. -/
def Fits : Nat → List Nat → Prop
  | 0, _ => True
  | _ + 1, [] => False
  | size + 1, n :: ns =>
    if n < size + 1 then n % 0x800 = 0 ∧ Fits (size + 1 - n) ns
    else n = size + 1 ∨ (size + 1) % 0x800 = 0

theorem fits_zero (lengths : List Nat) : Fits 0 lengths := by
  rw [Fits]
  trivial

theorem fillSector_eq_zero {n : Nat} : fillSector n = 0 ↔ n % 0x800 = 0 := by
  rw [fillSector]
  omega

/-- Behind a piece of whole sectors the rest of the size is measured as before. -/
theorem behind_whole {n size : Nat} (whole : n % 0x800 = 0) (inside : n ≤ size) :
    sectorsOf size * 0x800 = n + sectorsOf (size - n) * 0x800 ∧
      fillSector size = fillSector (size - n) := by
  obtain ⟨rest, rfl⟩ := Nat.exists_eq_add_of_le inside
  rw [Nat.add_sub_cancel_left]
  constructor
  · exact sectorsOf_add rest whole
  · rw [fillSector, fillSector]
    omega

theorem fits_holds {size : Nat} {pieces : List (List UInt8)}
    (fits : Fits size (pieces.map List.length)) (rest : List UInt8) :
    Holds pieces.flatten size (filled pieces ++ rest) := by
  induction pieces generalizing size with
  | nil =>
    cases size with
    | zero => exact holds_zero _ _
    | succ size => exact fits.elim
  | cons piece pieces ih =>
    cases size with
    | zero => exact holds_zero _ _
    | succ size =>
      obtain ⟨n, hn⟩ : ∃ n, n = size + 1 := ⟨_, rfl⟩
      rw [List.map_cons, Fits, ← hn] at fits
      rw [← hn]
      by_cases before : piece.length < n
      · -- the size is reached in a later piece
        rw [if_pos before] at fits
        obtain ⟨whole, behind⟩ := fits
        obtain ⟨enough, bytes⟩ := ih behind
        have none' : fillSector piece.length = 0 := fillSector_eq_zero.mpr whole
        obtain ⟨split, same⟩ := behind_whole whole before.le
        constructor
        · rw [List.flatten_cons, List.length_append]
          omega
        · rw [filled_cons, none', List.append_assoc, split, List.take_length_add_append]
          have later : (zeros 0 ++ filled pieces ++ rest) = filled pieces ++ rest := rfl
          rw [later, bytes, List.flatten_cons, List.take_append, List.take_of_length_le before.le,
            same, List.append_assoc]
      · rw [if_neg before] at fits
        have inside : n ≤ piece.length := Nat.le_of_not_lt before
        have data : (piece :: pieces).flatten.take n = piece.take n := by
          rw [List.flatten_cons, List.take_append_of_le_length inside]
        constructor
        · rw [List.flatten_cons, List.length_append]
          omega
        · rw [data, filled_cons]
          rcases fits with ends | whole
          · have length := filled_length n
            have regroup : piece ++ (zeros (fillSector n) ++ filled pieces) ++ rest =
                piece ++ zeros (fillSector n) ++ (filled pieces ++ rest) := by
              simp only [List.append_assoc]
            rw [ends, List.take_of_length_le ends.le, ← length, regroup]
            refine List.take_left' ?_
            rw [List.length_append, ends, zeros, List.length_replicate]
          · have length : sectorsOf n * 0x800 = n := by
              rw [sectorsOf]
              omega
            rw [length, fillSector_eq_zero.mpr whole, List.append_assoc,
              List.take_append_of_le_length inside]
            exact (List.append_nil _).symm

/-! ## Marked bytes -/

/-- A piece of ones for each length. -/
def ones (lengths : List Nat) : List (List UInt8) := lengths.map fun n => List.replicate n 1

theorem ones_flatten (lengths : List Nat) :
    (ones lengths).flatten = List.replicate lengths.sum 1 := by
  induction lengths with
  | nil => rfl
  | cons n lengths ih =>
    rw [ones, List.map_cons, List.flatten_cons, ← ones, ih, List.sum_cons, List.replicate_add]

theorem ones_at {n i : Nat} (bytes : List UInt8) (inside : i < n) :
    (List.replicate n 1 ++ bytes)[i]? = some 1 := by
  rw [List.getElem?_append_left (by rwa [List.length_replicate]), List.getElem?_replicate,
    if_pos inside]

theorem zeros_at {fill : Nat} (n : Nat) (bytes : List UInt8) (some' : 0 < fill) :
    (List.replicate n 1 ++ (zeros fill ++ bytes))[n]? = some 0 := by
  have length : (List.replicate n (1 : UInt8)).length = n := List.length_replicate
  rw [List.getElem?_append_right length.le, length, Nat.sub_self, List.getElem?_append_left (by
    rwa [zeros, List.length_replicate]), zeros, List.getElem?_replicate, if_pos some']

/-- Ones that hold the measured size tell that the lengths fit. -/
theorem holds_fits {size : Nat} {lengths : List Nat} {rest : List UInt8}
    (holds : Holds (ones lengths).flatten size (filled (ones lengths) ++ rest)) :
    Fits size lengths := by
  induction lengths generalizing size with
  | nil =>
    cases size with
    | zero => trivial
    | succ size => exact absurd holds.enough (Nat.not_succ_le_zero size)
  | cons n lengths ih =>
    cases size with
    | zero => trivial
    | succ size =>
      obtain ⟨total, htotal⟩ : ∃ total, total = size + 1 := ⟨_, rfl⟩
      rw [Fits, ← htotal]
      rw [← htotal] at holds
      obtain ⟨enough, bytes⟩ := holds
      have sectors := filled_length total
      rw [ones_flatten, List.length_replicate, List.sum_cons] at enough
      rw [ones_flatten, List.sum_cons, List.take_replicate, Nat.min_eq_left enough, ones,
        List.map_cons, ← ones, filled_cons, List.length_replicate, List.append_assoc] at bytes
      -- the byte at a place, as it should be and as it was read
      have byte (i : Nat) (low : i < sectorsOf total * 0x800) :
          (List.replicate n 1 ++ (zeros (fillSector n) ++ filled (ones lengths) ++ rest))[i]? =
            (List.replicate total 1 ++ zeros (fillSector total))[i]? := by
        rw [← bytes, List.getElem?_take_of_lt low]
      have differ : (0 : UInt8) ≠ 1 := by decide
      by_cases before : n < total
      · rw [if_pos before]
        have whole : n % 0x800 = 0 := by
          by_contra part
          have some' : 0 < fillSector n := Nat.pos_of_ne_zero (mt fillSector_eq_zero.mp part)
          have here := byte n (by omega)
          rw [ones_at _ before, List.append_assoc, zeros_at n _ some'] at here
          exact differ (Option.some.inj here)
        obtain ⟨split, fill⟩ := behind_whole whole before.le
        have ones' : List.replicate total (1 : UInt8) =
            List.replicate n 1 ++ List.replicate (total - n) 1 := by
          rw [← List.replicate_add, Nat.add_sub_cancel' before.le]
        have length : (List.replicate n (1 : UInt8)).length = n := List.length_replicate
        rw [split, ones', fill, fillSector_eq_zero.mpr whole] at bytes
        nth_rewrite 1 [← length] at bytes
        rw [List.take_length_add_append, List.append_assoc, List.append_assoc] at bytes
        have behind := List.append_cancel_left bytes
        refine ⟨whole, ih ⟨?_, ?_⟩⟩
        · rw [ones_flatten, List.length_replicate]
          omega
        · rw [ones_flatten, List.take_replicate, Nat.min_eq_left (by omega)]
          exact behind
      · rw [if_neg before]
        by_contra other
        obtain ⟨longer, cut⟩ := not_or.mp other
        have some' : 0 < fillSector total := Nat.pos_of_ne_zero (mt fillSector_eq_zero.mp cut)
        have here := byte total (by omega)
        have fill := zeros_at total [] some'
        rw [List.append_nil] at fill
        rw [ones_at _ (by omega), fill] at here
        exact differ (Option.some.inj here).symm

/-! ## The files of an image -/

section Files
variable {fopen : Sources} {es : List FileEntry}

/-- The sectors in front of a file, as they are counted. -/
def counted (front : List FileEntry) : Nat := (front.map fun e => sectorsOf e.size).sum

/-- The sectors in front of a file, as they are written. -/
def taken (fopen : Sources) (front : List FileEntry) : Nat :=
  (front.map fun e => sectorsTaken (piecesOf fopen e)).sum

/-- The bytes of some files. -/
def stream (fopen : Sources) (es : List FileEntry) : List UInt8 :=
  es.flatMap fun e => filled (piecesOf fopen e)

@[simp] theorem stream_cons (fopen : Sources) (e : FileEntry) (es : List FileEntry) :
    stream fopen (e :: es) = filled (piecesOf fopen e) ++ stream fopen es := List.flatMap_cons

theorem stream_length (fopen : Sources) (es : List FileEntry) :
    (stream fopen es).length = taken fopen es * 0x800 := by
  induction es with
  | nil => exact (Nat.zero_mul _).symm
  | cons e es ih =>
    have sectors : taken fopen (e :: es) = sectorsTaken (piecesOf fopen e) + taken fopen es :=
      List.sum_cons
    rw [stream_cons, sectors, List.length_append, filled_length', ih, Nat.add_mul]

/-- Every file is read in whole sectors up to its measured size, and what is read of it takes the
sectors counted for it, unless only empty files follow. -/
def ReadsFit (fopen : Sources) (es : List FileEntry) : Prop :=
  ∀ front e back, es = front ++ e :: back →
    Fits e.size ((piecesOf fopen e).map List.length) ∧
    ((∃ e' ∈ back, 0 < e'.size) → sectorsTaken (piecesOf fopen e) = sectorsOf e.size)

/-- A file stands at the sector counted for it. -/
def HoldsAll (fopen : Sources) (es : List FileEntry) (tail : List UInt8) : Prop :=
  ∀ front e back, es = front ++ e :: back →
    Holds (readOf fopen e) e.size ((stream fopen es ++ tail).drop (counted front * 0x800))

theorem stream_split (fopen : Sources) (front back : List FileEntry) (e : FileEntry) :
    stream fopen (front ++ e :: back) =
      stream fopen front ++ (filled (piecesOf fopen e) ++ stream fopen back) := by
  rw [stream, List.flatMap_append, ← stream, ← stream, stream_cons]

theorem readsFit_holds (fits : ReadsFit fopen es) (tail : List UInt8) :
    HoldsAll fopen es tail := by
  intro front e back split
  obtain ⟨own, -⟩ := fits front e back split
  by_cases empty : e.size = 0
  · rw [empty]
    exact holds_zero _ _
  have exact' : counted front = taken fopen front := by
    rw [counted, taken]
    refine congrArg List.sum (List.map_congr_left fun e' member => ?_)
    obtain ⟨before, between, parts⟩ := List.append_of_mem member
    have whole : es = before ++ e' :: (between ++ e :: back) := by
      rw [split, parts, List.append_assoc]
      rfl
    exact ((fits before e' _ whole).2
      ⟨e, List.mem_append_right _ List.mem_cons_self, Nat.pos_of_ne_zero empty⟩).symm
  rw [exact', ← stream_length, split, stream_split, List.append_assoc, List.drop_left,
    List.append_assoc]
  exact fits_holds own _

end Files

/-! ## Other bytes of the same lengths -/

/-- Sources that differ in nothing but what the bytes are. -/
def SameLengths (fopen fopen' : Sources) : Prop :=
  ∀ path, (fopen' path).map (·.map List.length) = (fopen path).map (·.map List.length)

theorem SameLengths.opens {fopen fopen' : Sources} (same : SameLengths fopen fopen')
    (path : List UInt8) : (fopen' path).isSome = (fopen path).isSome := by
  have both := congrArg Option.isSome (same path)
  rwa [Option.isSome_map, Option.isSome_map] at both

theorem SameLengths.opensEntry {fopen fopen' : Sources} (same : SameLengths fopen fopen')
    (e : FileEntry) : Opens fopen' e ↔ Opens fopen e := by
  have none' : ∀ path, fopen' path = none ↔ fopen path = none := by
    intro path
    rw [← Option.isNone_iff_eq_none, ← Option.isNone_iff_eq_none, ← Option.not_isSome,
      ← Option.not_isSome, same.opens]
  rw [Opens, Opens]
  simp only [same.opens, none']

/-- The lengths of the pieces are those of the reads. -/
theorem SameLengths.pieces {fopen fopen' : Sources} (same : SameLengths fopen fopen')
    (e : FileEntry) :
    (piecesOf fopen' e).map List.length = (piecesOf fopen e).map List.length := by
  have each : ∀ path, ((fopen' path).getD []).map List.length =
      ((fopen path).getD []).map List.length := by
    intro path
    have own := same path
    cases found : fopen path with
    | none =>
      rw [found] at own
      rw [Option.map_eq_none_iff.mp own]
    | some pieces =>
      rw [found] at own
      obtain ⟨pieces', found', lengths⟩ := Option.map_eq_some_iff.mp own
      rw [found', Option.getD_some, Option.getD_some, lengths]
  have opens := same.opens
  rw [piecesOf, piecesOf]
  cases e.multipart with
  | true =>
    simp only [if_true, List.map_cons, List.map_nil, streamedFiles, opens, List.length_flatMap,
      List.length_flatten, each]
  | false => exact each e.path

theorem SameLengths.fits {fopen fopen' : Sources} (same : SameLengths fopen fopen')
    {es : List FileEntry} (fits : ReadsFit fopen es) : ReadsFit fopen' es := by
  have taken : ∀ e, sectorsTaken (piecesOf fopen' e) = sectorsTaken (piecesOf fopen e) := by
    intro e
    have lengths := congrArg (List.map sectorsOf) (same.pieces e)
    rw [List.map_map, List.map_map] at lengths
    exact congrArg List.sum lengths
  intro front e back split
  rw [same.pieces, taken]
  exact fits front e back split

/-- Ones in some of the files, zeros in the others. -/
def marked (fopen : Sources) (marks : List (List UInt8)) : Sources := fun path =>
  (fopen path).map fun pieces => pieces.map fun piece =>
    List.replicate piece.length (if marks.contains path then 1 else 0)

section Marked
variable (fopen : Sources) (marks : List (List UInt8)) (e : FileEntry)

theorem marked_sameLengths : SameLengths fopen (marked fopen marks) := by
  intro path
  rw [marked, Option.map_map]
  congr 1
  funext pieces
  simp only [Function.comp_def, List.map_map, List.length_replicate]

theorem marked_streamed : streamedFiles (marked fopen marks) e = streamedFiles fopen e := by
  have opens : ∀ path, (marked fopen marks path).isSome = (fopen path).isSome := fun path =>
    Option.isSome_map
  simp only [streamedFiles, opens]

variable {fopen marks e} {b : UInt8}

theorem replicate_flatten (pieces : List (List UInt8)) :
    (pieces.map fun piece => List.replicate piece.length b).flatten =
      List.replicate pieces.flatten.length b := by
  induction pieces with
  | nil => rfl
  | cons piece pieces ih =>
    rw [List.map_cons, List.flatten_cons, ih, List.flatten_cons, List.length_append,
      List.replicate_add]

/-- The pieces of an entry whose files all have the same mark. -/
theorem marked_pieces
    (same : ∀ path ∈ streamedFiles fopen e, (if marks.contains path then 1 else 0) = b) :
    piecesOf (marked fopen marks) e =
      (piecesOf fopen e).map fun piece => List.replicate piece.length b := by
  rw [piecesOf, piecesOf, marked_streamed]
  cases kind : e.multipart with
  | true =>
    simp only [if_true, List.map_cons, List.map_nil]
    congr 1
    generalize streamedFiles fopen e = paths at same
    induction paths with
    | nil => rfl
    | cons path paths ih =>
      obtain ⟨here, behind⟩ := List.forall_mem_cons.mp same
      have own : ((marked fopen marks path).getD []).flatten =
          List.replicate ((fopen path).getD []).flatten.length b := by
        rw [marked, here]
        cases fopen path with
        | none => rfl
        | some pieces => exact replicate_flatten pieces
      rw [List.flatMap_cons, List.flatMap_cons, own, ih behind, List.length_append,
        List.replicate_add]
  | false =>
    simp only [Bool.false_eq_true, if_false]
    rw [streamedFiles, kind] at same
    rw [marked]
    cases found : fopen e.path with
    | none => rfl
    | some pieces =>
      rw [found] at same
      have here := same e.path (List.mem_singleton.mpr rfl)
      rw [here]
      rfl

theorem filled_zeros (pieces : List (List UInt8)) :
    filled (pieces.map fun piece => List.replicate piece.length 0) =
      zeros (filled pieces).length := by
  induction pieces with
  | nil => rfl
  | cons piece pieces ih =>
    rw [List.map_cons, filled_cons, filled_cons, ih, List.length_replicate]
    simp only [zeros, List.length_append, List.length_replicate, List.replicate_add]

end Marked

section Converse
variable {fopen : Sources} {es : List FileEntry} {tail : List UInt8}

/-- No file is read for two entries. -/
def Unshared (fopen : Sources) (es : List FileEntry) : Prop :=
  es.Pairwise fun a b => ∀ path ∈ streamedFiles fopen b, path ∉ streamedFiles fopen a

/-- With ones in its own files only an entry is known by its bytes. -/
theorem marked_stream (unshared : Unshared fopen es) {front back : List FileEntry} {e : FileEntry}
    (split : es = front ++ e :: back) :
    stream (marked fopen (streamedFiles fopen e)) front = zeros (taken fopen front * 0x800) ∧
    piecesOf (marked fopen (streamedFiles fopen e)) e =
      ones ((piecesOf fopen e).map List.length) := by
  constructor
  · have others : ∀ a ∈ front, ∀ path ∈ streamedFiles fopen a, path ∉ streamedFiles fopen e := by
      intro a member path inner own
      rw [Unshared, split] at unshared
      exact (List.pairwise_append.mp unshared).2.2 a member e List.mem_cons_self path own inner
    have bytes : stream (marked fopen (streamedFiles fopen e)) front =
        zeros (stream fopen front).length := by
      clear split
      induction front with
      | nil => rfl
      | cons a front ih =>
        obtain ⟨here, behind⟩ := List.forall_mem_cons.mp others
        have none' : piecesOf (marked fopen (streamedFiles fopen e)) a =
            (piecesOf fopen a).map fun piece => List.replicate piece.length 0 :=
          marked_pieces fun path inner =>
            if_neg fun own => here path inner (List.contains_iff_mem.mp own)
        rw [stream_cons, none', filled_zeros, ih behind, stream_cons, List.length_append]
        exact (List.replicate_add _ _ _).symm
    rw [bytes, stream_length]
  · rw [marked_pieces (b := 1) fun path own => if_pos (List.contains_iff_mem.mpr own), ones,
      List.map_map]
    rfl

/-- A file that is not empty stands behind those in front of it as they are counted. -/
theorem counted_taken (unshared : Unshared fopen es)
    (all : ∀ fopen', SameLengths fopen fopen' → HoldsAll fopen' es tail)
    {front back : List FileEntry} {e : FileEntry} (split : es = front ++ e :: back)
    (filled' : 0 < e.size) : taken fopen front ≤ counted front := by
  by_contra before
  obtain ⟨zeros', own⟩ := marked_stream unshared split
  obtain ⟨enough, bytes⟩ := all _ (marked_sameLengths fopen _) front e back split
  have sectors := filled_length e.size
  have read : readOf (marked fopen (streamedFiles fopen e)) e =
      List.replicate ((piecesOf fopen e).map List.length).sum 1 := by
    rw [readOf, own, ones_flatten]
  rw [read, List.length_replicate] at enough
  have byte := congrArg (fun l : List UInt8 => l[0]?) bytes
  have ours : ((readOf (marked fopen (streamedFiles fopen e)) e).take e.size ++
      zeros (fillSector e.size))[0]? = some 1 := by
    rw [read, List.take_replicate, Nat.min_eq_left enough, List.getElem?_append_left
      (by rw [List.length_replicate]; exact filled'), List.getElem?_replicate, if_pos filled']
  have theirs : (((stream (marked fopen (streamedFiles fopen e)) es ++ tail).drop
      (counted front * 0x800)).take (sectorsOf e.size * 0x800))[0]? = some 0 := by
    have inside : counted front * 0x800 < taken fopen front * 0x800 := by omega
    rw [List.getElem?_take_of_lt (by omega), List.getElem?_drop, Nat.add_zero, split, stream_split,
      zeros', List.append_assoc, List.getElem?_append_left
      (by rw [zeros, List.length_replicate]; exact inside), zeros, List.getElem?_replicate,
      if_pos inside]
  have same : (0 : UInt8) = 1 := Option.some.inj (theirs.symm.trans (byte.trans ours))
  exact absurd same (by decide)

/-- Files that stand in their places with any bytes of these lengths fit. -/
theorem holdsAll_fits (unshared : Unshared fopen es)
    (all : ∀ fopen', SameLengths fopen fopen' → HoldsAll fopen' es tail) : ReadsFit fopen es := by
  have enough : ∀ a ∈ es, sectorsOf a.size ≤ sectorsTaken (piecesOf fopen a) := by
    intro a member
    obtain ⟨front, back, split⟩ := List.append_of_mem member
    have held := all fopen (fun _ => rfl) front a back split
    exact (sectorsOf_mono held.enough).trans (sectorsOf_le_taken _)
  have least : ∀ front : List FileEntry, (∀ a ∈ front, a ∈ es) →
      counted front ≤ taken fopen front := by
    intro front inside
    exact List.sum_le_sum fun a member => enough a (inside a member)
  intro front e back split
  have inside : ∀ a ∈ front, a ∈ es := by
    intro a member
    rw [split]
    exact List.mem_append_left _ member
  have place : 0 < e.size → counted front = taken fopen front := fun filled' =>
    le_antisymm (least front inside) (counted_taken unshared all split filled')
  constructor
  · rcases Nat.eq_zero_or_pos e.size with empty | filled'
    · rw [empty]
      exact fits_zero _
    obtain ⟨zeros', own⟩ := marked_stream unshared split
    have held := all _ (marked_sameLengths fopen (streamedFiles fopen e)) front e back split
    have length : (zeros (taken fopen front * 0x800)).length = taken fopen front * 0x800 :=
      List.length_replicate
    rw [readOf, own, split, stream_split, zeros', own, place filled', List.append_assoc] at held
    rw [List.drop_left' length, List.append_assoc] at held
    exact holds_fits held
  · rintro ⟨e', member, filled'⟩
    obtain ⟨between, behind, parts⟩ := List.append_of_mem member
    have split' : es = (front ++ e :: between) ++ e' :: behind := by
      rw [split, parts, List.append_assoc]
      rfl
    have total := counted_taken unshared all split' filled'
    have own := enough e (by rw [split]; exact List.mem_append_right _ List.mem_cons_self)
    have first := least front inside
    have later := least between fun a member => by
      rw [split, parts]
      exact List.mem_append_right _ (List.mem_cons_of_mem _ (List.mem_append_left _ member))
    simp only [counted, taken, List.map_append, List.map_cons, List.sum_append, List.sum_cons]
      at total first later
    omega

end Converse

end FileReads
