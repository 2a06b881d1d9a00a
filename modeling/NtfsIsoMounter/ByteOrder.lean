import Mathlib

/-!
# Numbers as byte strings

A number is stored in a fixed number of bytes, least or most significant byte
first. Decoding an encoded number gives its remainder modulo the width, so a
number that fits comes back unchanged.
-/

namespace ByteOrder

/-- The `w` low bytes of `v`, least significant first. -/
def leBytes : Nat → Nat → List UInt8
  | 0, _ => []
  | w + 1, v => UInt8.ofNat v :: leBytes w (v / 256)

/-- The `w` low bytes of `v`, most significant first. -/
def beBytes (w v : Nat) : List UInt8 := (leBytes w v).reverse

def leValue : List UInt8 → Nat
  | [] => 0
  | b :: bs => b.toNat + 256 * leValue bs

def beValue (bs : List UInt8) : Nat := leValue bs.reverse

@[simp] theorem leBytes_length (w v : Nat) : (leBytes w v).length = w := by
  induction w generalizing v with
  | zero => rfl
  | succ w ih => rw [leBytes, List.length_cons, ih]

@[simp] theorem beBytes_length (w v : Nat) : (beBytes w v).length = w := by
  simp [beBytes]

theorem leValue_leBytes (w v : Nat) : leValue (leBytes w v) = v % 256 ^ w := by
  induction w generalizing v with
  | zero => simp [leBytes, leValue, Nat.mod_one]
  | succ w ih =>
    have low : (UInt8.ofNat v).toNat = v % 256 := UInt8.toNat_ofNat'
    rw [leBytes, leValue, ih, low, Nat.pow_succ', Nat.mod_mul]

theorem beValue_beBytes (w v : Nat) : beValue (beBytes w v) = v % 256 ^ w := by
  rw [beValue, beBytes, List.reverse_reverse, leValue_leBytes]

/-- The bytes depend on the remainder only. -/
theorem leBytes_mod (w v : Nat) : leBytes w (v % 256 ^ w) = leBytes w v := by
  induction w generalizing v with
  | zero => rfl
  | succ w ih =>
    have low : UInt8.ofNat (v % (256 * 256 ^ w)) = UInt8.ofNat v := by
      apply UInt8.toNat_inj.mp
      rw [UInt8.toNat_ofNat', UInt8.toNat_ofNat', Nat.mod_mul_right_mod]
    rw [leBytes, leBytes, Nat.pow_succ', low, Nat.mod_mul_right_div_self, ih]

theorem beBytes_mod (w v : Nat) : beBytes w (v % 256 ^ w) = beBytes w v := by
  rw [beBytes, beBytes, leBytes_mod]

/-- A number below the width's bound comes back unchanged. -/
theorem beValue_beBytes_exact {w v : Nat} (fits : v < 256 ^ w) : beValue (beBytes w v) = v := by
  rw [beValue_beBytes, Nat.mod_eq_of_lt fits]

theorem leValue_leBytes_exact {w v : Nat} (fits : v < 256 ^ w) : leValue (leBytes w v) = v := by
  rw [leValue_leBytes, Nat.mod_eq_of_lt fits]

end ByteOrder
