import Mathlib

/-!
# Pages in front of a store

Pages stand in front of a store and hold the cells of some of its addresses. What is seen at an
address is the cell of the page that holds it, or the cell of the store. As long as no address is
held twice, a page may be given up for another one, filled or changed without a look at the rest.
-/

namespace PageOverlays

section Pages
variable {π α : Type*} {n : Nat} (holds : π → Nat → Bool) (cell : π → Nat → α)

/-- The first page that holds an address. -/
def holder (pages : Fin n → π) (i : Nat) : Option (Fin n) :=
  (List.finRange n).find? fun k => holds (pages k) i

/-- What is seen at an address. -/
def view (base : Nat → α) (pages : Fin n → π) (i : Nat) : α :=
  (holder holds pages i).elim (base i) fun k => cell (pages k) i

/-- No address is held by two pages. -/
def Exclusive (pages : Fin n → π) : Prop :=
  ∀ j k i, holds (pages j) i = true → holds (pages k) i = true → j = k

variable {holds cell} {base : Nat → α} {pages : Fin n → π} {i : Nat}

theorem holder_of_holds (exclusive : Exclusive holds pages) {k : Fin n}
    (held : holds (pages k) i = true) : holder holds pages i = some k := by
  cases found : holder holds pages i with
  | none => exact absurd held (List.find?_eq_none.mp found k (List.mem_finRange k))
  | some j => rw [exclusive j k i (List.find?_some (p := fun k => holds (pages k) i) found) held]

theorem holder_eq_none (bare : ∀ k, holds (pages k) i = false) : holder holds pages i = none := by
  refine List.find?_eq_none.mpr fun k _ => ?_
  rw [bare k]
  exact Bool.false_ne_true

theorem view_held (exclusive : Exclusive holds pages) {k : Fin n}
    (held : holds (pages k) i = true) : view holds cell base pages i = cell (pages k) i := by
  rw [view, holder_of_holds exclusive held, Option.elim_some]

theorem view_bare (bare : ∀ k, holds (pages k) i = false) :
    view holds cell base pages i = base i := by
  rw [view, holder_eq_none bare, Option.elim_none]

/-- Every address is held by one page or by none. -/
theorem held_or_bare (holds : π → Nat → Bool) (pages : Fin n → π) (i : Nat) :
    (∃ k, holds (pages k) i = true) ∨ ∀ k, holds (pages k) i = false := by
  by_cases held : ∃ k, holds (pages k) i = true
  · exact Or.inl held
  · exact Or.inr fun k => Bool.eq_false_iff.mpr fun here => held ⟨k, here⟩

/-- One page is put in the place of another one. -/
theorem view_update (exclusive : Exclusive holds pages) {k : Fin n} {p : π}
    (exclusive' : Exclusive holds (Function.update pages k p)) :
    view holds cell base (Function.update pages k p) i =
      if holds p i then cell p i
      else if holds (pages k) i then base i else view holds cell base pages i := by
  have other {j : Fin n} (ne : j ≠ k) : Function.update pages k p j = pages j :=
    Function.update_of_ne ne p pages
  have own : Function.update pages k p k = p := Function.update_self k p pages
  by_cases new : holds p i = true
  · rw [if_pos new, view_held exclusive' (k := k) (by rw [own, new]), own]
  · rw [if_neg new]
    by_cases old : holds (pages k) i = true
    · rw [if_pos old]
      refine view_bare fun j => Bool.eq_false_iff.mpr fun held => ?_
      by_cases same : j = k
      · rw [same, own] at held
        exact new held
      · rw [other same] at held
        exact same (exclusive j k i held old)
    · rw [if_neg old]
      rcases held_or_bare holds pages i with ⟨j, held⟩ | bare
      · have ne : j ≠ k := by
          rintro rfl
          exact old held
        rw [view_held exclusive held, view_held exclusive' (k := j) (by rw [other ne, held]),
          other ne]
      · rw [view_bare bare]
        refine view_bare fun j => ?_
        by_cases same : j = k
        · rw [same, own]
          exact Bool.eq_false_iff.mpr new
        · rw [other same]
          exact bare j

/-- The store is seen where no page is in front of it. -/
theorem view_base (exclusive : Exclusive holds pages) (base' : Nat → α) :
    view holds cell base' pages i =
      if ∃ k, holds (pages k) i = true then view holds cell base pages i else base' i := by
  rcases held_or_bare holds pages i with ⟨k, held⟩ | bare
  · rw [if_pos ⟨k, held⟩, view_held exclusive held, view_held exclusive held]
  · rw [view_bare bare, if_neg]
    rintro ⟨k, held⟩
    rw [bare k] at held
    exact Bool.false_ne_true held

end Pages

end PageOverlays
