import Mathlib

/-!
# Signed numbers in as few bytes as they need

A number is stored from its lowest byte on, and the sign is that of the last byte. As long as a
number is too large for one byte, its lowest byte is stored and the rest of it follows.
-/

namespace SignedBytes

/-- The lowest byte of a number. -/
def low (n : Int) : UInt8 := UInt8.ofNat (n % 256).toNat

/-- The number that is stored in one byte. -/
def single (b : UInt8) : Int := if b.toNat < 128 then b.toNat else (b.toNat : Int) - 256

def decode : List UInt8 → Int
  | [] => 0
  | [b] => single b
  | b :: bs => decode bs * 256 + b.toNat

/-- The bytes of a number, with no more than so many behind the first. -/
def encode : Nat → Int → List UInt8
  | 0, n => [low n]
  | k + 1, n => if -128 ≤ n ∧ n ≤ 127 then [low n] else low n :: encode k (n / 256)

theorem toNat_low (n : Int) : ((low n).toNat : Int) = n % 256 := by
  have small : (n % 256).toNat < 256 := by omega
  rw [low, UInt8.toNat_ofNat', Nat.mod_eq_of_lt small]
  omega

theorem single_low {n : Int} (lower : -128 ≤ n) (upper : n ≤ 127) : single (low n) = n := by
  have value := toNat_low n
  rw [single]
  split
  · omega
  · omega

theorem single_bounds (b : UInt8) : -128 ≤ single b ∧ single b < 128 := by
  have small := UInt8.toNat_lt b
  rw [single]
  split
  · omega
  · omega

theorem encode_ne_nil (k : Nat) (n : Int) : encode k n ≠ [] := by
  cases k with
  | zero => exact List.cons_ne_nil _ _
  | succ k =>
    rw [encode]
    split
    · exact List.cons_ne_nil _ _
    · exact List.cons_ne_nil _ _

theorem length_encode (k : Nat) (n : Int) :
    0 < (encode k n).length ∧ (encode k n).length ≤ k + 1 := by
  refine ⟨List.length_pos_of_ne_nil (encode_ne_nil k n), ?_⟩
  induction k generalizing n with
  | zero => exact le_rfl
  | succ k ih =>
    rw [encode]
    split
    · exact Nat.succ_le_succ (Nat.zero_le _)
    · exact Nat.succ_le_succ (ih _)

theorem decode_cons {b : UInt8} {bs : List UInt8} (more : bs ≠ []) :
    decode (b :: bs) = decode bs * 256 + b.toNat := by
  cases bs with
  | nil => exact absurd rfl more
  | cons c bs => rfl

/-- The numbers of so many bytes. -/
theorem decode_bounds {bs : List UInt8} {k : Nat} (few : bs.length ≤ k + 1) :
    -(128 * 256 ^ k) ≤ decode bs ∧ decode bs < 128 * 256 ^ k := by
  induction bs generalizing k with
  | nil =>
    have positive : (0 : Int) < 256 ^ k := by positivity
    rw [decode]
    omega
  | cons b bs ih =>
    have small := UInt8.toNat_lt b
    by_cases last : bs = []
    · have bounds := single_bounds b
      have positive : (0 : Int) < 256 ^ k := by positivity
      rw [last, decode]
      omega
    · cases k with
      | zero =>
        rw [List.length_cons] at few
        exact absurd (List.length_eq_zero_iff.mp (by omega)) last
      | succ k =>
        have inner := ih (k := k) (by rw [List.length_cons] at few; omega)
        have power : (256 : Int) ^ (k + 1) = 256 * 256 ^ k := pow_succ' 256 k
        rw [decode_cons last, power]
        omega

/-- A number that is stored is read again. -/
theorem decode_encode {k : Nat} {n : Int} (lower : -(128 * 256 ^ k) ≤ n)
    (upper : n < 128 * 256 ^ k) : decode (encode k n) = n := by
  induction k generalizing n with
  | zero => exact single_low (by omega) (by omega)
  | succ k ih =>
    rw [encode]
    split
    · rename_i small
      exact single_low small.1 small.2
    · have power : (256 : Int) ^ (k + 1) = 256 * 256 ^ k := pow_succ' 256 k
      have value := toNat_low n
      rw [decode_cons (encode_ne_nil k _), ih (by omega) (by omega)]
      omega

end SignedBytes
