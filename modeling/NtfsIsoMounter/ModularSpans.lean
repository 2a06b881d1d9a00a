import Mathlib

/-!
# Spans one behind another in a ring

Positions are counted modulo `N`. Spans shorter than the ring, each beginning where the
one before it ends, are pairwise apart exactly if all of them together fit in the ring.
-/

namespace ModularSpans

/-- The positions from `start` on, `length` of them. -/
def Covers (N start length s : Nat) : Prop := ∃ k < length, (start + k) % N = s

/-- Two spans without a common position. -/
def Apart (N : Nat) (x y : Nat × Nat) : Prop :=
  ∀ s, Covers N x.1 x.2 s → ¬ Covers N y.1 y.2 s

/-- Spans of these lengths, the first one at `start`. -/
def spansFrom (start : Nat) : List Nat → List (Nat × Nat)
  | [] => []
  | n :: lengths => (start, n) :: spansFrom (start + n) lengths

theorem covers_mod {N start length s : Nat} :
    Covers N (start % N) length s ↔ Covers N start length s := by
  simp only [Covers, Nat.mod_add_mod]

theorem covers_add {N start m n s : Nat} :
    Covers N start (m + n) s ↔ Covers N start m s ∨ Covers N (start + m) n s := by
  constructor
  · rintro ⟨k, inside, at'⟩
    by_cases low : k < m
    · exact Or.inl ⟨k, low, at'⟩
    · refine Or.inr ⟨k - m, by omega, ?_⟩
      rw [← at']
      congr 1
      omega
  · rintro (⟨k, inside, at'⟩ | ⟨k, inside, at'⟩)
    · exact ⟨k, by omega, at'⟩
    · refine ⟨m + k, by omega, ?_⟩
      rw [← at']
      congr 1
      omega

theorem spansFrom_append (start : Nat) (front back : List Nat) :
    spansFrom start (front ++ back) =
      spansFrom start front ++ spansFrom (start + front.sum) back := by
  induction front generalizing start with
  | nil => rfl
  | cons n front ih =>
    rw [List.cons_append, spansFrom, spansFrom, ih, List.cons_append, List.sum_cons, Nat.add_assoc]

theorem mem_spansFrom {start : Nat} {lengths : List Nat} {x : Nat × Nat}
    (member : x ∈ spansFrom start lengths) : start ≤ x.1 ∧ x.1 + x.2 ≤ start + lengths.sum := by
  induction lengths generalizing start with
  | nil => cases member
  | cons n lengths ih =>
    rw [List.sum_cons]
    rcases List.mem_cons.mp member with rfl | member
    · exact ⟨le_rfl, by omega⟩
    · have bounds := ih member
      omega

/-- A span is no longer than the ring leaves room for: the one before ends first. -/
theorem apart_of_le {N : Nat} {x y : Nat × Nat} (order : x.1 + x.2 ≤ y.1)
    (inside : y.1 + y.2 ≤ N) : Apart N x y := by
  rintro s ⟨j, low, first⟩ ⟨k, low', second⟩
  rw [Nat.mod_eq_of_lt (by omega)] at first second
  omega

theorem apart_of_fits {N start : Nat} {lengths : List Nat} (fits : start + lengths.sum ≤ N) :
    (spansFrom start lengths).Pairwise (Apart N) := by
  induction lengths generalizing start with
  | nil => exact List.Pairwise.nil
  | cons n lengths ih =>
    rw [List.sum_cons] at fits
    refine List.Pairwise.cons ?_ (ih (by omega))
    intro y hy
    have bounds := mem_spansFrom hy
    exact apart_of_le bounds.1 (by omega)

/-- Going past a bound, one of the lengths goes past it first. -/
theorem exists_crossing {N : Nat} {lengths : List Nat} (past : N < lengths.sum) :
    ∃ front n back, lengths = front ++ n :: back ∧ front.sum ≤ N ∧ N < front.sum + n := by
  induction lengths using List.reverseRecOn with
  | nil => cases past
  | append_singleton lengths n ih =>
    by_cases low : lengths.sum ≤ N
    · refine ⟨lengths, n, [], rfl, low, ?_⟩
      simpa using past
    · obtain ⟨front, m, back, rfl, below, above⟩ := ih (by omega)
      exact ⟨front, m, back ++ [n], by rw [List.append_assoc, List.cons_append], below, above⟩

theorem fits_of_apart {N : Nat} {lengths : List Nat} (short : ∀ n ∈ lengths, n < N)
    (apart : (spansFrom 0 lengths).Pairwise (Apart N)) : lengths.sum ≤ N := by
  by_contra past
  obtain ⟨front, n, back, rfl, below, above⟩ := exists_crossing (Nat.lt_of_not_le past)
  -- some span before that one is not empty, and the first such holds position 0, too
  have filled : 0 < front.sum := by
    have := short n (List.mem_append_right _ List.mem_cons_self)
    omega
  obtain ⟨empty, m, rest, rfl, zero, positive⟩ := exists_crossing filled
  rw [spansFrom_append, spansFrom_append] at apart
  refine (List.pairwise_append.mp apart).2.2 (0 + empty.sum, m) ?_ (0 + (empty ++ m :: rest).sum, n)
    List.mem_cons_self (0 % N) ?_ ?_
  · exact List.mem_append_right _ List.mem_cons_self
  · exact ⟨0, by omega, by congr 1; omega⟩
  · refine ⟨N - (empty ++ m :: rest).sum, by omega, ?_⟩
    have whole : 0 + (empty ++ m :: rest).sum + (N - (empty ++ m :: rest).sum) = N := by omega
    rw [whole, Nat.mod_self, Nat.zero_mod]

theorem apart_iff_fits {N : Nat} {lengths : List Nat} (short : ∀ n ∈ lengths, n < N) :
    (spansFrom 0 lengths).Pairwise (Apart N) ↔ lengths.sum ≤ N :=
  ⟨fits_of_apart short, fun fits => apart_of_fits (by omega)⟩

end ModularSpans
