import Mathlib

/-!
# Unicode text in units of 16 and of 8 bits

A text is a list of scalar values. In units of 16 bits a large one is a pair of surrogates, and in
units of 8 bits every one but those below 0x80 has a first byte that tells how many follow it.
-/

namespace ScalarText

/-- Values that are characters; the terminator of a string is none. -/
structure Scalar (p : Nat) : Prop where
  some' : 0 < p
  low : p < 0xd800 ∨ 0xe000 ≤ p
  high : p < 0x110000

def utf16 (p : Nat) : List Nat :=
  if p < 0x10000 then [p]
  else [0xd800 + (p - 0x10000) / 0x400, 0xdc00 + (p - 0x10000) % 0x400]

def utf8 (p : Nat) : List Nat :=
  if p < 0x80 then [p]
  else if p < 0x800 then [0xc0 + p / 0x40, 0x80 + p % 0x40]
  else if p < 0x10000 then [0xe0 + p / 0x1000, 0x80 + p / 0x40 % 0x40, 0x80 + p % 0x40]
  else [0xf0 + p / 0x40000, 0x80 + p / 0x1000 % 0x40, 0x80 + p / 0x40 % 0x40, 0x80 + p % 0x40]

/-- The scalar of a pair of surrogates. -/
def paired (h c : Nat) : Nat := 0x10000 + (h - 0xd800) * 0x400 + (c - 0xdc00)

theorem le_paired (h c : Nat) : 0x10000 ≤ paired h c := by
  unfold paired
  omega

theorem paired_scalar {h c : Nat} (first : 0xd800 ≤ h ∧ h < 0xdc00)
    (second : 0xdc00 ≤ c ∧ c < 0xe000) : Scalar (paired h c) := by
  unfold paired
  exact ⟨by omega, by omega, by omega⟩

theorem utf16_paired {h c : Nat} (first : 0xd800 ≤ h ∧ h < 0xdc00)
    (second : 0xdc00 ≤ c ∧ c < 0xe000) : utf16 (paired h c) = [h, c] := by
  have quotient : 0xd800 + (paired h c - 0x10000) / 0x400 = h := by
    unfold paired
    omega
  have rest : 0xdc00 + (paired h c - 0x10000) % 0x400 = c := by
    unfold paired
    omega
  rw [utf16, if_neg (Nat.not_lt_of_le (le_paired h c)), quotient, rest]

/-- A text in units has as many of them as its scalars have. -/
def units (ps : List Nat) : List Nat := ps.flatMap utf16

def bytes (ps : List Nat) : List Nat := ps.flatMap utf8

theorem utf8_length_pos (p : Nat) : 0 < (utf8 p).length := by
  unfold utf8
  split_ifs <;> exact Nat.succ_pos _

@[simp] theorem units_nil : units [] = [] := rfl

@[simp] theorem bytes_nil : bytes [] = [] := rfl

@[simp] theorem units_cons (p : Nat) (ps : List Nat) : units (p :: ps) = utf16 p ++ units ps := rfl

@[simp] theorem bytes_cons (p : Nat) (ps : List Nat) : bytes (p :: ps) = utf8 p ++ bytes ps := rfl

/-! ## The bytes of a value -/

section Values

variable {b₀ b₁ b₂ b₃ p : Nat}

theorem utf8_two (value : b₀ % 0x20 * 0x40 + b₁ % 0x40 = p) (lead : 0xc2 ≤ b₀ ∧ b₀ < 0xe0)
    (next₁ : 0x80 ≤ b₁ ∧ b₁ < 0xc0) : utf8 p = [b₀, b₁] := by
  have first : 0xc0 + p / 0x40 = b₀ := by omega
  have second : 0x80 + p % 0x40 = b₁ := by omega
  rw [utf8, if_neg (by omega), if_pos (by omega), first, second]

theorem utf8_three (value : b₀ % 0x10 * 0x1000 + b₁ % 0x40 * 0x40 + b₂ % 0x40 = p)
    (lead : 0xe0 ≤ b₀ ∧ b₀ < 0xf0) (next₁ : 0x80 ≤ b₁ ∧ b₁ < 0xc0) (next₂ : 0x80 ≤ b₂ ∧ b₂ < 0xc0)
    (long : 0x800 ≤ p) : utf8 p = [b₀, b₁, b₂] := by
  have first : 0xe0 + p / 0x1000 = b₀ := by omega
  have second : 0x80 + p / 0x40 % 0x40 = b₁ := by omega
  have third : 0x80 + p % 0x40 = b₂ := by omega
  rw [utf8, if_neg (by omega), if_neg (by omega), if_pos (by omega), first, second, third]

theorem utf8_four
    (value : b₀ % 8 * 0x40000 + b₁ % 0x40 * 0x1000 + b₂ % 0x40 * 0x40 + b₃ % 0x40 = p)
    (lead : 0xf0 ≤ b₀ ∧ b₀ < 0xf8) (next₁ : 0x80 ≤ b₁ ∧ b₁ < 0xc0) (next₂ : 0x80 ≤ b₂ ∧ b₂ < 0xc0)
    (next₃ : 0x80 ≤ b₃ ∧ b₃ < 0xc0) (long : 0x10000 ≤ p) : utf8 p = [b₀, b₁, b₂, b₃] := by
  have first : 0xf0 + p / 0x40000 = b₀ := by omega
  have second : 0x80 + p / 0x1000 % 0x40 = b₁ := by omega
  have third : 0x80 + p / 0x40 % 0x40 = b₂ := by omega
  have fourth : 0x80 + p % 0x40 = b₃ := by omega
  rw [utf8, if_neg (by omega), if_neg (by omega), if_neg (by omega), first, second, third, fourth]

end Values

/-! ## No unit and no byte of a scalar is a terminator -/

theorem utf16_filled {p : Nat} (scalar : Scalar p) : ∀ c ∈ utf16 p, c ≠ 0 := by
  have some' := scalar.some'
  intro c among
  unfold utf16 at among
  split_ifs at among <;> simp only [List.mem_cons, List.not_mem_nil, or_false] at among <;> omega

theorem utf8_filled {p : Nat} (scalar : Scalar p) : ∀ b ∈ utf8 p, b ≠ 0 := by
  have some' := scalar.some'
  intro b among
  unfold utf8 at among
  split_ifs at among <;> simp only [List.mem_cons, List.not_mem_nil, or_false] at among <;> omega

theorem units_filled {ps : List Nat} (scalars : ∀ p ∈ ps, Scalar p) : ∀ c ∈ units ps, c ≠ 0 := by
  intro c among
  obtain ⟨p, text, own⟩ := List.mem_flatMap.mp among
  exact utf16_filled (scalars p text) c own

theorem bytes_filled {ps : List Nat} (scalars : ∀ p ∈ ps, Scalar p) : ∀ b ∈ bytes ps, b ≠ 0 := by
  intro b among
  obtain ⟨p, text, own⟩ := List.mem_flatMap.mp among
  exact utf8_filled (scalars p text) b own

theorem length_le_bytes (ps : List Nat) : ps.length ≤ (bytes ps).length := by
  induction ps with
  | nil => exact Nat.le_refl 0
  | cons p ps ih =>
    have own := utf8_length_pos p
    rw [bytes_cons, List.length_append, List.length_cons]
    omega

end ScalarText
