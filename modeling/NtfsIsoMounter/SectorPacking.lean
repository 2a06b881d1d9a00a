import Mathlib

/-!
# Records packed into sectors

Records of varying length follow one another; one that would reach the end of
its sector starts at the next, and the cells in between are blank. A reader
steps from record to record by the length in the first cell of each, and takes
a blank cell as the sign to go on in the next sector.
-/

namespace SectorPacking

universe u
variable {α : Type u} (S : Nat) (blank : α)

/-- Cells from a position to the next sector boundary. -/
def fill (pos : Nat) : Nat := (S - pos % S) % S

/-- Cells left blank before a record of length `n`. -/
def gap (pos n : Nat) : Nat := if pos / S < (pos + n) / S then fill S pos else 0

/-- The records from a position on, with the gaps between them. -/
def packFrom : Nat → List (List α) → List α
  | _, [] => []
  | pos, r :: rs =>
    List.replicate (gap S pos r.length) blank ++ (r ++
      packFrom (pos + gap S pos r.length + r.length) rs)

/-- The position behind the last record. -/
def endFrom : Nat → List (List α) → Nat
  | pos, [] => pos
  | pos, r :: rs => endFrom (pos + gap S pos r.length + r.length) rs

/-- Where records of these lengths start. -/
def startsFrom : Nat → List Nat → List Nat
  | _, [] => []
  | pos, n :: ns => (pos + gap S pos n) :: startsFrom (pos + gap S pos n + n) ns

/-- The records from the start of a sector on, blank up to the end of the last one. -/
def pack (rs : List (List α)) : List α :=
  packFrom S blank 0 rs ++ List.replicate (fill S (endFrom S 0 rs)) blank

/-- Where the reader finds the next record from `pos` on, and the cells from
that record on. -/
def nextRecord (len : α → Nat) (pos : Nat) : List α → Option (Nat × List α)
  | [] => none
  | b :: rest =>
    if len b ≠ 0 then some (pos, b :: rest)
    else
      match (b :: rest).drop (S - pos % S) with
      | [] => none
      | c :: more => if len c ≠ 0 then some (pos + (S - pos % S), c :: more) else none

/-- A record whose first cell holds its length, smaller than a sector. -/
def Fits (len : α → Nat) (r : List α) : Prop :=
  r.length < S ∧ ∃ b more, r = b :: more ∧ len b = r.length

variable {S blank}

theorem fill_lt (positive : 0 < S) (pos : Nat) : fill S pos < S := Nat.mod_lt _ positive

theorem add_fill_mod (positive : 0 < S) (pos : Nat) : (pos + fill S pos) % S = 0 := by
  have small := Nat.mod_lt pos positive
  rw [fill, Nat.add_mod_mod, ← Nat.mod_add_mod]
  rcases Nat.eq_zero_or_pos (pos % S) with zero | some'
  · rw [zero, Nat.sub_zero, Nat.zero_add, Nat.mod_self]
  · have whole : pos % S + (S - pos % S) = S := by omega
    rw [whole, Nat.mod_self]

theorem fill_zero_of_mod (pos : Nat) (aligned : pos % S = 0) : fill S pos = 0 := by
  rw [fill, aligned, Nat.sub_zero, Nat.mod_self]

theorem fill_of_mod (positive : 0 < S) (pos : Nat) (inner : pos % S ≠ 0) :
    fill S pos = S - pos % S := by
  have small := Nat.mod_lt pos positive
  exact Nat.mod_eq_of_lt (by omega)

theorem packFrom_append (pos : Nat) (xs ys : List (List α)) :
    packFrom S blank pos (xs ++ ys) =
      packFrom S blank pos xs ++ packFrom S blank (endFrom S pos xs) ys := by
  induction xs generalizing pos with
  | nil => rfl
  | cons x xs ih => simp only [List.cons_append, packFrom, endFrom, ih, List.append_assoc]

theorem endFrom_append (pos : Nat) (xs ys : List (List α)) :
    endFrom S pos (xs ++ ys) = endFrom S (endFrom S pos xs) ys := by
  induction xs generalizing pos with
  | nil => rfl
  | cons x xs ih => exact ih _

theorem packFrom_length (pos : Nat) (rs : List (List α)) :
    pos + (packFrom S blank pos rs).length = endFrom S pos rs := by
  induction rs generalizing pos with
  | nil => rfl
  | cons r rs ih =>
    rw [endFrom, ← ih, packFrom, List.length_append, List.length_append, List.length_replicate]
    omega

theorem pack_length (rs : List (List α)) :
    (pack S blank rs).length = endFrom S 0 rs + fill S (endFrom S 0 rs) := by
  have records : 0 + (packFrom S blank 0 rs).length = _ := packFrom_length 0 rs
  rw [Nat.zero_add] at records
  rw [pack, List.length_append, List.length_replicate, records]

theorem pack_length_mod (positive : 0 < S) (rs : List (List α)) :
    (pack S blank rs).length % S = 0 := by
  rw [pack_length]
  exact add_fill_mod positive _

/-- Only the lengths of the records decide where they go. -/
theorem endFrom_congr (pos : Nat) {rs ts : List (List α)}
    (same : rs.map List.length = ts.map List.length) : endFrom S pos rs = endFrom S pos ts := by
  induction rs generalizing pos ts with
  | nil =>
    cases ts with
    | nil => rfl
    | cons t ts => cases same
  | cons r rs ih =>
    cases ts with
    | nil => cases same
    | cons t ts =>
      obtain ⟨head, tail⟩ := List.cons.inj same
      change r.length = t.length at head
      rw [endFrom, endFrom, head]
      exact ih _ tail

theorem startsFrom_length (pos : Nat) (ns : List Nat) :
    (startsFrom S pos ns).length = ns.length := by
  induction ns generalizing pos with
  | nil => rfl
  | cons n ns ih => rw [startsFrom, List.length_cons, ih, List.length_cons]

theorem startsFrom_append (pos : Nat) (rs : List (List α)) (ns : List Nat) :
    startsFrom S pos (rs.map List.length ++ ns) =
      startsFrom S pos (rs.map List.length) ++ startsFrom S (endFrom S pos rs) ns := by
  induction rs generalizing pos with
  | nil => rfl
  | cons r rs ih => rw [List.map_cons, List.cons_append, startsFrom, ih, startsFrom,
      List.cons_append, endFrom]

/-- A record stands where it starts. -/
theorem packFrom_start {pos k at' : Nat} {rs : List (List α)} {r : List α}
    (start : (startsFrom S pos (rs.map List.length))[k]? = some at') (own : rs[k]? = some r) :
    ∃ front back, packFrom S blank pos rs = front ++ (r ++ back) ∧ pos + front.length = at' := by
  induction rs generalizing pos k with
  | nil => cases own
  | cons first rs ih =>
    rw [List.map_cons, startsFrom] at start
    cases k with
    | zero =>
      cases own
      refine ⟨_, _, rfl, ?_⟩
      rw [List.length_replicate]
      exact Option.some.inj start
    | succ k =>
      obtain ⟨front, back, split, length⟩ := ih start own
      refine ⟨List.replicate (gap S pos first.length) blank ++ (first ++ front), back, ?_, ?_⟩
      · rw [packFrom, split]
        simp only [List.append_assoc]
      · rw [List.length_append, List.length_append, List.length_replicate]
        omega

theorem pack_start {k at' : Nat} {rs : List (List α)} {r : List α}
    (start : (startsFrom S 0 (rs.map List.length))[k]? = some at') (own : rs[k]? = some r) :
    ∃ front back, pack S blank rs = front ++ (r ++ back) ∧ front.length = at' := by
  obtain ⟨front, back, split, length⟩ : ∃ front back,
      packFrom S blank 0 rs = front ++ (r ++ back) ∧ 0 + front.length = at' :=
    packFrom_start start own
  rw [Nat.zero_add] at length
  rw [pack, split, List.append_assoc, List.append_assoc]
  exact ⟨front, _, rfl, length⟩

/-- Packed records that agree in their lengths and in a cell, where it is one of theirs, agree
in the cell. -/
theorem packFrom_getElem?_congr {pos i : Nat} {rs ts : List (List α)}
    (same : rs.map List.length = ts.map List.length)
    (agree : ∀ (k at' : Nat) (r t : List α), (startsFrom S pos (rs.map List.length))[k]? =
        some at' →
      rs[k]? = some r → ts[k]? = some t → ∀ j : Nat, at' + j = pos + i → r[j]? = t[j]?) :
    (packFrom S blank pos rs)[i]? = (packFrom S blank pos ts)[i]? := by
  induction rs generalizing pos i ts with
  | nil =>
    cases ts with
    | nil => rfl
    | cons t ts => cases same
  | cons r rs ih =>
    cases ts with
    | nil => cases same
    | cons t ts =>
      obtain ⟨head, tail⟩ := List.cons.inj same
      change r.length = t.length at head
      rw [packFrom, packFrom, ← head]
      rcases Nat.lt_or_ge i (gap S pos r.length) with before | behind
      · rw [List.getElem?_append_left (by rwa [List.length_replicate]),
          List.getElem?_append_left (by rwa [List.length_replicate])]
      · obtain ⟨j, rfl⟩ := Nat.exists_eq_add_of_le behind
        have skip (more : List α) :
            (List.replicate (gap S pos r.length) blank ++ more)[gap S pos r.length + j]? =
              more[j]? := by
          rw [List.getElem?_append_right (by rw [List.length_replicate]; exact behind),
            List.length_replicate, Nat.add_sub_cancel_left]
        rw [skip, skip]
        rcases Nat.lt_or_ge j r.length with inside | later
        · rw [List.getElem?_append_left inside, List.getElem?_append_left (head ▸ inside)]
          exact agree 0 _ r t rfl rfl rfl j (by omega)
        · obtain ⟨m, rfl⟩ := Nat.exists_eq_add_of_le later
          rw [List.getElem?_append_right later, List.getElem?_append_right (head ▸ later), ← head,
            Nat.add_sub_cancel_left]
          refine ih tail fun k at' r' t' start own other j place => ?_
          exact agree (k + 1) at' r' t' start own other j (by omega)

theorem pack_getElem?_congr {i : Nat} {rs ts : List (List α)}
    (same : rs.map List.length = ts.map List.length)
    (agree : ∀ (k at' : Nat) (r t : List α), (startsFrom S 0 (rs.map List.length))[k]? = some at' →
      rs[k]? = some r → ts[k]? = some t → ∀ j : Nat, at' + j = i → r[j]? = t[j]?) :
    (pack S blank rs)[i]? = (pack S blank ts)[i]? := by
  have ends : endFrom S 0 rs = endFrom S 0 ts := endFrom_congr 0 same
  have length : (packFrom S blank 0 rs).length = (packFrom S blank 0 ts).length := by
    have left : 0 + (packFrom S blank 0 rs).length = endFrom S 0 rs := packFrom_length 0 rs
    have right : 0 + (packFrom S blank 0 ts).length = endFrom S 0 ts := packFrom_length 0 ts
    omega
  rw [pack, pack, ← ends]
  rcases Nat.lt_or_ge i (packFrom S blank 0 rs).length with inside | behind
  · rw [List.getElem?_append_left inside, List.getElem?_append_left (length ▸ inside)]
    refine packFrom_getElem?_congr same fun k at' r t start own other j place => ?_
    exact agree k at' r t start own other j (by omega)
  · rw [List.getElem?_append_right behind, List.getElem?_append_right (length ▸ behind), length]

/-- A record that is shorter than a sector lies in one, and does not reach its end. -/
theorem start_inside {pos k at' n : Nat} {ns : List Nat} (positive : n < S)
    (start : (startsFrom S pos ns)[k]? = some at') (own : ns[k]? = some n) : at' % S + n < S := by
  induction ns generalizing pos k with
  | nil => cases own
  | cons m ns ih =>
    rw [startsFrom] at start
    cases k with
    | zero =>
      cases own
      rw [← Option.some.inj start, gap]
      by_cases crossing : pos / S < (pos + n) / S
      · rw [if_pos crossing, add_fill_mod (by omega)]
        omega
      · rw [if_neg crossing, Nat.add_zero]
        have split := Nat.div_add_mod pos S
        have same : (pos + n) / S = pos / S :=
          le_antisymm (not_lt.mp crossing) (Nat.div_le_div_right (Nat.le_add_right _ _))
        have split' := Nat.div_add_mod (pos + n) S
        have low := Nat.mod_lt (pos + n) (show 0 < S by omega)
        rw [same] at split'
        omega
    | succ k => exact ih start own

/-- What stands before a record of length `n` that follows `xs`. -/
def leading (S : Nat) (blank : α) (xs : List (List α)) (n : Nat) : List α :=
  packFrom S blank 0 xs ++ List.replicate (gap S (endFrom S 0 xs) n) blank

/-- What stands behind it. -/
def trailing (S : Nat) (blank : α) (xs : List (List α)) (n : Nat) (ys : List (List α)) : List α :=
  let pos := (leading S blank xs n).length + n
  packFrom S blank pos ys ++ List.replicate (fill S (endFrom S pos ys)) blank

theorem pack_split (xs ys : List (List α)) (r : List α) :
    pack S blank (xs ++ r :: ys) =
      leading S blank xs r.length ++ (r ++ trailing S blank xs r.length ys) := by
  have position : (leading S blank xs r.length).length =
      endFrom S 0 xs + gap S (endFrom S 0 xs) r.length := by
    have records : 0 + (packFrom S blank 0 xs).length = _ := packFrom_length 0 xs
    rw [Nat.zero_add] at records
    rw [leading, List.length_append, List.length_replicate, records]
  simp only [trailing, position]
  rw [pack, packFrom_append, endFrom_append, packFrom, endFrom, leading]
  simp only [List.append_assoc]

/-- The reader finds the next packed record. -/
theorem nextRecord_packFrom {len : α → Nat} (zero : len blank = 0) (pos : Nat) {r : List α}
    (fits : Fits S len r) (rs : List (List α)) (tail : List α) :
    nextRecord S len pos (packFrom S blank pos (r :: rs) ++ tail) =
      some (pos + gap S pos r.length,
        r ++ (packFrom S blank (pos + gap S pos r.length + r.length) rs ++ tail)) := by
  obtain ⟨short, b, more, rfl, length⟩ := fits
  have positive : 0 < S := by omega
  have visible : len b ≠ 0 := by
    rw [length, List.length_cons]
    exact Nat.succ_ne_zero _
  rw [packFrom, List.append_assoc, List.append_assoc]
  generalize packFrom S blank (pos + gap S pos (b :: more).length + (b :: more).length) rs ++ tail
    = behind
  cases hgap : gap S pos (b :: more).length with
  | zero => rw [List.replicate_zero, List.nil_append, List.cons_append, nextRecord, if_pos visible,
      Nat.add_zero]
  | succ k =>
    have skip : S - pos % S = k + 1 := by
      rw [← hgap, gap]
      have crossing : pos / S < (pos + (b :: more).length) / S := by
        by_contra inside
        rw [gap, if_neg inside] at hgap
        cases hgap
      rw [if_pos crossing]
      rcases Nat.eq_zero_or_pos (pos % S) with aligned | inner
      · rw [gap, if_pos crossing, fill_zero_of_mod pos aligned] at hgap
        cases hgap
      · exact (fill_of_mod positive pos inner.ne').symm
    rw [List.replicate_succ, List.cons_append, nextRecord, if_neg (not_not_intro zero), skip,
      List.drop_succ_cons, List.drop_left' List.length_replicate]
    simp only [List.cons_append, if_pos visible]

/-- Behind the last record the reader finds nothing. -/
theorem nextRecord_blank {len : α → Nat} (zero : len blank = 0) (positive : 0 < S) (pos : Nat) :
    nextRecord S len pos (List.replicate (fill S pos) blank) = none := by
  cases hfill : fill S pos with
  | zero => rfl
  | succ k =>
    have skip : S - pos % S = k + 1 := by
      rcases Nat.eq_zero_or_pos (pos % S) with aligned | inner
      · rw [fill_zero_of_mod pos aligned] at hfill
        cases hfill
      · rw [← fill_of_mod positive pos inner.ne', hfill]
    rw [List.replicate_succ, nextRecord, if_neg (not_not_intro zero), skip,
      List.drop_succ_cons, List.drop_replicate, Nat.sub_self]
    rfl

/-! ## What the sectors hold -/

/-- From a position on, these records and blanks: each record inside one sector, directly
behind the one before it or at the start of the next sector. -/
inductive Laid (S : Nat) (blank : α) (P : List α → Prop) : Nat → List (List α) → List α → Prop
  | done {pos : Nat} {rest : List α} : (∀ b ∈ rest, b = blank) → Laid S blank P pos [] rest
  | record {pos skip : Nat} {r : List α} {rs : List (List α)} {rest : List α} : P r →
      (skip = 0 ∨ (pos + skip) % S = 0 ∧ skip < S) →
      (pos + skip) / S = (pos + skip + r.length - 1) / S →
      Laid S blank P (pos + skip + r.length) rs rest →
      Laid S blank P pos (r :: rs) (List.replicate skip blank ++ (r ++ rest))

theorem gap_placed (positive : 0 < S) (pos n : Nat) :
    gap S pos n = 0 ∨ (pos + gap S pos n) % S = 0 ∧ gap S pos n < S := by
  rw [gap]
  split
  · exact Or.inr ⟨add_fill_mod positive pos, fill_lt positive pos⟩
  · exact Or.inl rfl

/-- A record of less than a sector never crosses a boundary. -/
theorem gap_inside {n : Nat} (some' : 0 < n) (short : n < S) (pos : Nat) :
    (pos + gap S pos n) / S = (pos + gap S pos n + n - 1) / S := by
  have positive : 0 < S := by omega
  rw [gap]
  split
  · -- at the start of a sector
    obtain ⟨q, start⟩ := Nat.dvd_of_mod_eq_zero (add_fill_mod positive pos)
    rw [start, Nat.add_sub_assoc some', Nat.mul_div_cancel_left q positive,
      Nat.mul_add_div positive, Nat.div_eq_of_lt (by omega), Nat.add_zero]
  · rename_i inside
    refine le_antisymm (Nat.div_le_div_right (by omega)) ?_
    exact (Nat.div_le_div_right (by omega)).trans (Nat.le_of_not_lt inside)

namespace Laid
variable {P Q : List α → Prop} {len : α → Nat} {pos : Nat} {rs rs' : List (List α)}
  {content : List α}

theorem all (laid : Laid S blank P pos rs content) : ∀ r ∈ rs, P r := by
  induction laid with
  | done _ => exact fun r member => absurd member List.not_mem_nil
  | record own _ _ _ ih => exact List.forall_mem_cons.mpr ⟨own, ih⟩

/-- Packed records. -/
theorem packed (pos k : Nat) (fits : ∀ r ∈ rs, Fits S len r) (all : ∀ r ∈ rs, P r) :
    Laid S blank P pos rs (packFrom S blank pos rs ++ List.replicate k blank) := by
  induction rs generalizing pos with
  | nil =>
    refine .done fun b member => ?_
    rw [packFrom, List.nil_append] at member
    exact List.eq_of_mem_replicate member
  | cons r rs ih =>
    obtain ⟨⟨short, b, more, rfl, -⟩, fits'⟩ := List.forall_mem_cons.mp fits
    obtain ⟨own, all'⟩ := List.forall_mem_cons.mp all
    rw [packFrom, List.append_assoc, List.append_assoc]
    exact .record own (gap_placed (by omega) _ _) (gap_inside (Nat.succ_pos _) short _)
      (ih _ fits' all')

theorem replicate_append_inj {k k' : Nat} {b b' : α} {xs xs' : List α} (some' : b ≠ blank)
    (some'' : b' ≠ blank)
    (same : List.replicate k blank ++ (b :: xs) = List.replicate k' blank ++ (b' :: xs')) :
    k = k' ∧ b :: xs = b' :: xs' := by
  induction k generalizing k' with
  | zero =>
    cases k' with
    | zero => exact ⟨rfl, same⟩
    | succ k' => exact absurd (List.cons.inj same).1 some'
  | succ k ih =>
    cases k' with
    | zero => exact absurd (List.cons.inj same).1.symm some''
    | succ k' =>
      obtain ⟨skips, rest⟩ := ih (List.cons.inj same).2
      exact ⟨by rw [skips], rest⟩

/-- The content tells its records, as long as each tells its own length. -/
theorem unique (zero : len blank = 0) (marked : ∀ r, P r → Fits S len r)
    (marked' : ∀ r, Q r → Fits S len r) (laid : Laid S blank P pos rs content)
    (laid' : Laid S blank Q pos rs' content) : rs = rs' := by
  have seen : ∀ {r : List α}, Fits S len r →
      ∃ b more, r = b :: more ∧ b ≠ blank ∧ len b = r.length := by
    rintro r ⟨-, b, more, rfl, length⟩
    refine ⟨b, more, rfl, ?_, length⟩
    rintro rfl
    rw [zero] at length
    cases length
  have filled : ∀ {skip : Nat} {r rest : List α}, Fits S len r →
      ¬ ∀ b ∈ List.replicate skip blank ++ (r ++ rest), b = blank := by
    intro skip r rest fits blanks
    obtain ⟨b, more, rfl, some', -⟩ := seen fits
    exact some' (blanks b (List.mem_append_right _ (List.mem_append_left _ List.mem_cons_self)))
  induction laid generalizing rs' with
  | done blanks =>
    cases laid' with
    | done => rfl
    | record own => exact absurd blanks (filled (marked' _ own))
  | @record pos skip r rs rest own place inside _ ih =>
    generalize same : List.replicate skip blank ++ (r ++ rest) = content at laid'
    cases laid' with
    | done blanks =>
      rw [← same] at blanks
      exact absurd blanks (filled (marked _ own))
    | @record _ skip' r' rs' rest' own' place' inside' laid'' =>
      obtain ⟨b, more, rfl, some', length⟩ := seen (marked _ own)
      obtain ⟨b', more', rfl, some'', length'⟩ := seen (marked' _ own')
      rw [List.cons_append, List.cons_append] at same
      obtain ⟨rfl, equal⟩ := replicate_append_inj some' some'' same
      have first := (List.cons.inj equal).1
      rw [← List.cons_append, ← List.cons_append] at equal
      obtain ⟨records, rests⟩ := List.append_inj equal (by rw [← length, ← length', first])
      rw [← records, ← rests] at laid''
      rw [← records, ih laid'']

end Laid

end SectorPacking
