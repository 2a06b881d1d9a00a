import Mathlib

/-!
# Pieces of an output

An output made of pieces one behind another, some of them with a tag. Where the piece
with a tag begins is the length of what stands in front of it.
-/

namespace PieceLayout

variable {Tag α : Type}

/-- All pieces one behind another. -/
def output (pieces : List (Option Tag × List α)) : List α := pieces.flatMap Prod.snd

@[simp] theorem output_nil : output ([] : List (Option Tag × List α)) = [] := rfl

@[simp] theorem output_cons (piece : Option Tag × List α) (pieces : List (Option Tag × List α)) :
    output (piece :: pieces) = piece.2 ++ output pieces := List.flatMap_cons

@[simp] theorem output_append (front back : List (Option Tag × List α)) :
    output (front ++ back) = output front ++ output back := List.flatMap_append

/-- The pieces of a list with the tags of their numbers, from `n` on. -/
def numbered (tag : Nat → Tag) (n : Nat) : List (List α) → List (Option Tag × List α)
  | [] => []
  | piece :: pieces => (some (tag n), piece) :: numbered tag (n + 1) pieces

@[simp] theorem output_numbered (tag : Nat → Tag) (n : Nat) (pieces : List (List α)) :
    output (numbered tag n pieces) = pieces.flatten := by
  induction pieces generalizing n with
  | nil => rfl
  | cons piece pieces ih => rw [numbered, output_cons, ih, List.flatten_cons]

theorem mem_numbered {tag : Nat → Tag} {n : Nat} {pieces : List (List α)}
    {piece : Option Tag × List α} (member : piece ∈ numbered tag n pieces) :
    ∃ k, n ≤ k ∧ piece.1 = some (tag k) := by
  induction pieces generalizing n with
  | nil => cases member
  | cons first pieces ih =>
    rcases List.mem_cons.mp member with rfl | member
    · exact ⟨n, le_rfl, rfl⟩
    · obtain ⟨k, le, same⟩ := ih member
      exact ⟨k, by omega, same⟩

/-! ## Looking for a piece -/

section Find
variable [DecidableEq Tag]

/-- Where the first piece with a tag begins, and the piece. -/
def find (tag : Tag) : List (Option Tag × List α) → Option (Nat × List α)
  | [] => none
  | (tag', piece) :: pieces =>
    if tag' = some tag then some (0, piece)
    else (find tag pieces).map fun found => (piece.length + found.1, found.2)

theorem find_front {tag : Tag} {front : List (Option Tag × List α)} {found : Nat × List α}
    (here : find tag front = some found) (back : List (Option Tag × List α)) :
    find tag (front ++ back) = some found := by
  induction front generalizing found with
  | nil => cases here
  | cons piece front ih =>
    obtain ⟨tag', bytes⟩ := piece
    rw [find] at here
    rw [List.cons_append, find]
    split at here
    · rename_i same
      rw [if_pos same]
      exact here
    · rename_i other
      obtain ⟨found', inner, same⟩ := Option.map_eq_some_iff.mp here
      rw [if_neg other, ih inner, Option.map_some, same]

theorem find_behind {tag : Tag} {front : List (Option Tag × List α)}
    (other : ∀ piece ∈ front, piece.1 ≠ some tag) (back : List (Option Tag × List α)) :
    find tag (front ++ back) =
      (find tag back).map fun found => ((output front).length + found.1, found.2) := by
  induction front with
  | nil => simp
  | cons piece front ih =>
    obtain ⟨here, behind⟩ := List.forall_mem_cons.mp other
    obtain ⟨tag', bytes⟩ := piece
    rw [List.cons_append, find, if_neg here, ih behind, Option.map_map]
    simp only [Function.comp_def, output_cons, List.length_append, Nat.add_assoc]

/-- What stands at the offset is the piece. -/
theorem find_output {tag : Tag} {pieces : List (Option Tag × List α)} {offset : Nat}
    {piece : List α} (found : find tag pieces = some (offset, piece)) :
    ∃ front back, output pieces = front ++ piece ++ back ∧ front.length = offset := by
  induction pieces generalizing offset with
  | nil => cases found
  | cons head pieces ih =>
    obtain ⟨tag', bytes⟩ := head
    rw [find] at found
    split at found
    · cases found
      exact ⟨[], output pieces, rfl, rfl⟩
    · obtain ⟨⟨offset', piece'⟩, inner, same⟩ := Option.map_eq_some_iff.mp found
      cases same
      obtain ⟨front, back, split, length⟩ := ih inner
      refine ⟨bytes ++ front, back, ?_, ?_⟩
      · rw [output_cons, split]
        simp only [List.append_assoc]
      · rw [List.length_append, length]

theorem find_numbered {tag : Nat → Tag} (inj : Function.Injective tag) (n : Nat)
    {pieces : List (List α)} {i : Nat} {piece : List α} (here : pieces[i]? = some piece) :
    find (tag (n + i)) (numbered tag n pieces) =
      some (((pieces.take i).map List.length).sum, piece) := by
  induction pieces generalizing n i with
  | nil => cases here
  | cons first pieces ih =>
    rw [numbered, find]
    cases i with
    | zero =>
      cases here
      exact if_pos rfl
    | succ i =>
      rw [List.getElem?_cons_succ] at here
      have other : some (tag n) ≠ some (tag (n + (i + 1))) := by
        intro same
        have number := inj (Option.some.inj same)
        omega
      have behind := ih (n + 1) here
      rw [Nat.add_assoc, Nat.add_comm 1 i] at behind
      rw [if_neg other, behind, List.take_succ_cons, List.map_cons, List.sum_cons]
      rfl

end Find

end PieceLayout
