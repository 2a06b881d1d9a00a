import NtfsIsoMounter.ByteMaps

/-!
# Blocks of cells

A memory of cells is a memory of blocks of some size, and the other way round. A run of whole blocks
is stored in one as it is in the other.
-/

namespace CellBlocks

open ByteMaps

variable {α : Type*} {m : Nat}

/-- The cells of the blocks, one block behind the other. -/
def cells [NeZero m] (v : Nat → Fin m → α) (a : Nat) : α := v (a / m) (Fin.ofNat m a)

/-- The blocks of a memory of cells. -/
def blocks (b : Nat → α) (k : Nat) (j : Fin m) : α := b (k * m + j)

variable [NeZero m]

@[simp] theorem cells_blocks (b : Nat → α) : cells (blocks b : Nat → Fin m → α) = b := by
  funext a
  have division := Nat.div_add_mod' a m
  exact congrArg b division

@[simp] theorem blocks_cells (v : Nat → Fin m → α) : blocks (cells v) = v := by
  funext k j
  have block : (k * m + j) / m = k := by
    rw [Nat.mul_comm, Nat.mul_add_div (Nat.pos_of_neZero m), Nat.div_eq_of_lt j.isLt, Nat.add_zero]
  have cell : Fin.ofNat m (k * m + j) = j := by
    refine Fin.ext ?_
    change (k * m + j) % m = j
    rw [Nat.mul_add_mod_self_right, Nat.mod_eq_of_lt j.isLt]
  rw [blocks, cells, block, cell]

theorem cells_fill (v f : Nat → Fin m → α) (s n : Nat) :
    cells (fill v s n f) = fill (cells v) (s * m) (n * m) (cells f) := by
  have positive := Nat.pos_of_neZero m
  funext a
  have inside : (s ≤ a / m ∧ a / m < s + n) ↔ (s * m ≤ a ∧ a < s * m + n * m) := by
    rw [Nat.le_div_iff_mul_le positive, Nat.div_lt_iff_lt_mul positive, Nat.add_mul]
  rw [cells, fill, fill]
  by_cases here : s * m ≤ a ∧ a < s * m + n * m
  · have block : (a - s * m) / m = a / m - s := by rw [Nat.mul_comm, Nat.sub_mul_div]
    have cell : (a - s * m) % m = a % m := by
      rw [Nat.mul_comm]
      exact Nat.sub_mul_mod (by rw [Nat.mul_comm]; exact here.1)
    rw [if_pos (inside.mpr here), if_pos here, cells, block]
    exact congrArg _ (Fin.ext cell.symm)
  · rw [if_neg (mt inside.mp here), if_neg here, cells]

theorem cells_shift (v : Nat → Fin m → α) (s : Nat) :
    cells (fun k => v (s + k)) = fun a => cells v (s * m + a) := by
  have positive := Nat.pos_of_neZero m
  funext a
  have block : (s * m + a) / m = s + a / m := by
    rw [Nat.mul_comm, Nat.mul_add_div positive]
  have cell : (s * m + a) % m = a % m := Nat.mul_add_mod_self_right s m a
  rw [cells, cells, block]
  exact congrArg _ (Fin.ext cell.symm)

end CellBlocks
