import Mathlib

/-!
# Memories as maps, and blocks stored in them

A memory is a map from addresses to cells. The one store operation writes a
whole block whose cells are given by a second map. Two stores at adjacent
addresses compose to one, which is all that a copying loop needs.
-/

namespace ByteMaps

universe u
variable {α : Type u}

/-- Store the cells `f 0 .. f (n-1)` from address `a` on. -/
def fill (m : Nat → α) (a n : Nat) (f : Nat → α) : Nat → α :=
  fun i => if a ≤ i ∧ i < a + n then f (i - a) else m i

theorem fill_outside (m : Nat → α) {a n i : Nat} (f : Nat → α)
    (h : i < a ∨ a + n ≤ i) : fill m a n f i = m i := by
  unfold fill
  rw [if_neg (by omega)]

theorem fill_inside (m : Nat → α) {a n k : Nat} (f : Nat → α) (h : k < n) :
    fill m a n f (a + k) = f k := by
  unfold fill
  rw [if_pos (by omega)]
  congr 1
  omega

@[simp] theorem fill_zero (m : Nat → α) (a : Nat) (f : Nat → α) : fill m a 0 f = m := by
  funext i
  exact fill_outside m f (by omega)

/-- Only the cells below the block length matter. -/
theorem fill_congr (m : Nat → α) (a : Nat) {n : Nat} {f g : Nat → α}
    (same : ∀ k, k < n → f k = g k) : fill m a n f = fill m a n g := by
  funext i
  unfold fill
  by_cases h : a ≤ i ∧ i < a + n
  · rw [if_pos h, if_pos h]
    exact same (i - a) (by omega)
  · rw [if_neg h, if_neg h]

/-- A block may be stored in two adjacent pieces. -/
theorem fill_append (m : Nat → α) (a n k : Nat) (f : Nat → α) :
    fill (fill m a n f) (a + n) k (fun i => f (n + i)) = fill m a (n + k) f := by
  funext i
  unfold fill
  by_cases high : a + n ≤ i ∧ i < a + n + k
  · rw [if_pos high, if_pos (by omega)]
    have shifted : n + (i - (a + n)) = i - a := by omega
    exact congrArg f shifted
  · rw [if_neg high]
    by_cases low : a ≤ i ∧ i < a + n
    · rw [if_pos low, if_pos (by omega)]
    · rw [if_neg low, if_neg (by omega)]

/-- The second piece may be stored before the first. -/
theorem fill_prepend (m : Nat → α) (a n k : Nat) (f : Nat → α) :
    fill (fill m (a + n) k (fun i => f (n + i))) a n f = fill m a (n + k) f := by
  funext i
  by_cases low : a ≤ i ∧ i < a + n
  · simp only [fill, if_pos low]
    rw [if_pos (by omega)]
  · rw [← fill_append]
    by_cases high : a + n ≤ i ∧ i < a + n + k
    · simp only [fill, if_neg low, if_pos high]
    · simp only [fill, if_neg low, if_neg high]

/-- A change of a block only is a store of that block. -/
theorem fill_of_agree {m m' : Nat → α} {a n : Nat} (agree : ∀ i, i < a ∨ a + n ≤ i → m' i = m i) :
    m' = fill m a n (fun k => m' (a + k)) := by
  funext i
  unfold fill
  split
  · rename_i inside
    exact congrArg m' (Nat.add_sub_cancel' inside.1).symm
  · exact agree i (by omega)

/-- A block of what is there already changes nothing. -/
theorem fill_self (m : Nat → α) (a n : Nat) : fill m a n (fun k => m (a + k)) = m :=
  (fill_of_agree fun _ _ => rfl).symm

/-- A block as it is seen from an address on. -/
theorem fill_shift (m : Nat → α) (c a n : Nat) (f : Nat → α) (i : Nat) :
    fill m (c + a) n f (c + i) = fill (fun j => m (c + j)) a n f i := by
  unfold fill
  by_cases inside : a ≤ i ∧ i < a + n
  · have moved : c + i - (c + a) = i - a := by omega
    rw [if_pos inside, if_pos (by omega), moved]
  · rw [if_neg inside, if_neg (by omega)]

/-- A later store over the whole of an earlier one replaces it. -/
theorem fill_overwrite (m : Nat → α) (a : Nat) {n k : Nat} (f g : Nat → α) (h : n ≤ k) :
    fill (fill m a n f) a k g = fill m a k g := by
  funext i
  by_cases inside : a ≤ i ∧ i < a + k
  · simp only [fill, if_pos inside]
  · rw [fill_outside _ g (by omega), fill_outside _ g (by omega),
      fill_outside _ f (by omega)]

end ByteMaps
