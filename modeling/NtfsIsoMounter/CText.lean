import Mathlib

/-!
# Text as a C program reads it

A pointer into a text is the list of bytes from it on; reading at the end of
that list is reading outside the text and has no result. Decimal numbers are
written with a minimum width, zeros in front, and read back by `strtol`.
-/

namespace CText

/-- The bytes of an ASCII literal. -/
def ascii (s : String) : List UInt8 := s.toList.map (fun c => UInt8.ofNat c.toNat)

def isSpace (b : UInt8) : Bool := b == 32 || (9 ≤ b && b ≤ 13)

def isDigit (b : UInt8) : Bool := 48 ≤ b && b ≤ 57

def upper (b : UInt8) : UInt8 := if 97 ≤ b && b ≤ 122 then b - 32 else b

/-- `strncasecmp(p, word, strlen(word)) == 0` -/
def startsNoCase : List UInt8 → List UInt8 → Option Bool
  | [], _ => some true
  | _ :: _, [] => none
  | w :: word, b :: p => if upper b = upper w then startsNoCase word p else some false

def skipWhite : List UInt8 → Option (List UInt8)
  | [] => none
  | b :: p => if isSpace b then skipWhite p else some (b :: p)

/-- Digits from `p` on, added to the number read so far. -/
def readDigits (acc : Nat) : List UInt8 → Option (Nat × List UInt8)
  | [] => none
  | b :: p => if isDigit b then readDigits (acc * 10 + (b.toNat - 48)) p else some (acc, b :: p)

/-- The range of `long`. -/
def clampLong (n : Int) : Int := max (-2 ^ 63) (min n (2 ^ 63 - 1))

def readSign : List UInt8 → Bool × List UInt8
  | 45 :: p => (true, p)
  | 43 :: p => (false, p)
  | p => (false, p)

/-- `strtol(p, &p, 10)`: without a digit the pointer stays where it was. -/
def strtol (p : List UInt8) : Option (Int × List UInt8) :=
  (skipWhite p).bind fun q =>
    let signed := readSign q
    match signed.2 with
    | [] => none
    | b :: _ =>
      if isDigit b then
        (readDigits 0 signed.2).map (fun r => (clampLong (if signed.1 then -r.1 else r.1), r.2))
      else some (0, p)

/-- The bytes before the terminator. -/
def cString (p : List UInt8) : List UInt8 := p.takeWhile (· != 0)

/-- The block `strncpy(dst, s, n)` leaves in `dst[0 .. n-1]`. -/
def strncpy (s : List UInt8) (n : Nat) : List UInt8 :=
  s.take n ++ List.replicate (n - s.length) 0

/-- Decimal digits, most significant first. -/
def digits (n : Nat) : List Nat := if n = 0 then [0] else (Nat.digits 10 n).reverse

/-- `printf("%0wd", n)` -/
def padded (w n : Nat) : List UInt8 :=
  (List.replicate (w - (digits n).length) 0 ++ digits n).map (fun d => UInt8.ofNat (48 + d))

theorem isDigit_ofNat : ∀ d, d < 10 → isDigit (UInt8.ofNat (48 + d)) = true ∧
    (UInt8.ofNat (48 + d)).toNat - 48 = d ∧ isSpace (UInt8.ofNat (48 + d)) = false := by
  decide

theorem digits_lt (n : Nat) : ∀ d ∈ digits n, d < 10 := by
  intro d hd
  by_cases zero : n = 0
  · rw [digits, if_pos zero] at hd
    rw [List.mem_singleton.mp hd]
    decide
  · rw [digits, if_neg zero] at hd
    exact Nat.digits_lt_base (by decide) (List.mem_reverse.mp hd)

theorem digits_ne_nil (n : Nat) : digits n ≠ [] := by
  by_cases zero : n = 0
  · simp [digits, zero]
  · simp [digits, zero, Nat.digits_ne_nil_iff_ne_zero.mpr zero]

theorem digits_value (n : Nat) : (digits n).foldl (fun acc d => acc * 10 + d) 0 = n := by
  by_cases zero : n = 0
  · simp [digits, zero]
  · rw [digits, if_neg zero, List.foldl_reverse]
    calc (Nat.digits 10 n).foldr (fun d acc => acc * 10 + d) 0
        = (Nat.digits 10 n).foldr (fun d acc => d + 10 * acc) 0 := by
          congr 1
          funext d acc
          omega
      _ = Nat.ofDigits 10 (Nat.digits 10 n) := (Nat.ofDigits_eq_foldr 10 _).symm
      _ = n := Nat.ofDigits_digits 10 n

theorem padded_digits_lt (w n : Nat) :
    ∀ d ∈ List.replicate (w - (digits n).length) 0 ++ digits n, d < 10 := by
  intro d hd
  rcases List.mem_append.mp hd with hd | hd
  · rw [List.eq_of_mem_replicate hd]
    decide
  · exact digits_lt n d hd

/-- The text goes on with a byte that is no digit. -/
def Stops (p : List UInt8) : Prop := ∃ b q, p = b :: q ∧ isDigit b = false

theorem readDigits_append (acc : Nat) (ds : List Nat) (small : ∀ d ∈ ds, d < 10)
    {rest : List UInt8} (stop : Stops rest) :
    readDigits acc (ds.map (fun d => UInt8.ofNat (48 + d)) ++ rest) =
      some (ds.foldl (fun acc d => acc * 10 + d) acc, rest) := by
  induction ds generalizing acc with
  | nil =>
    obtain ⟨b, q, rfl, other⟩ := stop
    simp [readDigits, other]
  | cons d ds ih =>
    obtain ⟨digit, value, -⟩ := isDigit_ofNat d (small d List.mem_cons_self)
    rw [List.map_cons, List.cons_append, readDigits, if_pos digit, value,
      ih _ (fun e he => small e (List.mem_cons_of_mem d he)), List.foldl_cons]

theorem readDigits_padded (w n : Nat) {rest : List UInt8} (stop : Stops rest) :
    readDigits 0 (padded w n ++ rest) = some (n, rest) := by
  have zeros : (List.replicate (w - (digits n).length) 0).foldl
      (fun acc d => acc * 10 + d) 0 = 0 := by
    induction w - (digits n).length with
    | zero => rfl
    | succ k ih => rw [List.replicate_succ, List.foldl_cons, ih]
  rw [padded, readDigits_append 0 _ (padded_digits_lt w n) stop, List.foldl_append, zeros,
    digits_value]

/-- A printed number starts with a digit. -/
theorem padded_head (w n : Nat) : ∃ d more, d < 10 ∧
    padded w n = UInt8.ofNat (48 + d) :: more := by
  have all := padded_digits_lt w n
  rw [padded]
  cases h : List.replicate (w - (digits n).length) 0 ++ digits n with
  | nil => exact absurd (List.append_eq_nil_iff.mp h).2 (digits_ne_nil n)
  | cons d more => exact ⟨d, _, all d (h ▸ List.mem_cons_self), rfl⟩

/-- A printed number in the range of `long` is read back, and nothing more. -/
theorem strtol_padded (w : Nat) {n : Nat} (small : n < 2 ^ 63) {rest : List UInt8}
    (stop : Stops rest) : strtol (padded w n ++ rest) = some ((n : Int), rest) := by
  obtain ⟨d, more, hd, head⟩ := padded_head w n
  obtain ⟨digit, -, space⟩ := isDigit_ofNat d hd
  have value := readDigits_padded w n stop
  rw [head, List.cons_append] at value ⊢
  have white : skipWhite (UInt8.ofNat (48 + d) :: (more ++ rest)) =
      some (UInt8.ofNat (48 + d) :: (more ++ rest)) := by
    rw [skipWhite, if_neg (by rw [space]; exact Bool.false_ne_true)]
  have unsigned : readSign (UInt8.ofNat (48 + d) :: (more ++ rest)) =
      (false, UInt8.ofNat (48 + d) :: (more ++ rest)) := by
    rw [readSign]
    · rintro p h
      have := congrArg isDigit (List.cons.inj h).1
      rw [digit] at this
      exact absurd this (by decide)
    · rintro p h
      have := congrArg isDigit (List.cons.inj h).1
      rw [digit] at this
      exact absurd this (by decide)
  have clamped : clampLong (n : Int) = n := by
    simp only [clampLong]
    omega
  simp only [strtol, white, Option.bind_some, unsigned, digit, if_true, value, Option.map_some,
    Bool.false_eq_true, if_false, clamped]

/-! ## Numbers with white space and a sign -/

/-- The number that digits stand for. -/
def decimal (ds : List UInt8) : Nat := ds.foldl (fun acc b => acc * 10 + (b.toNat - 48)) 0

/-- A decimal number up to the text that follows it. -/
def Decimal (p : List UInt8) (n : Int) (q : List UInt8) : Prop :=
  ∃ white sign ds, p = white ++ (sign ++ (ds ++ q)) ∧ (∀ b ∈ white, isSpace b = true) ∧
    (sign = [45] ∧ n = -(decimal ds : Int) ∨ (sign = [43] ∨ sign = []) ∧ n = decimal ds) ∧
    ds ≠ [] ∧ (∀ b ∈ ds, isDigit b = true) ∧ Stops q

theorem skipWhite_append {white p : List UInt8} (spaces : ∀ b ∈ white, isSpace b = true)
    (visible : ∃ b q, p = b :: q ∧ isSpace b = false) : skipWhite (white ++ p) = some p := by
  induction white with
  | nil =>
    obtain ⟨b, q, rfl, other⟩ := visible
    rw [List.nil_append, skipWhite, if_neg (by rw [other]; exact Bool.false_ne_true)]
  | cons w white ih =>
    rw [List.cons_append, skipWhite, if_pos (spaces w List.mem_cons_self),
      ih (fun b hb => spaces b (List.mem_cons_of_mem w hb))]

theorem readDigits_digits (acc : Nat) {ds q : List UInt8} (all : ∀ b ∈ ds, isDigit b = true)
    (stop : Stops q) : readDigits acc (ds ++ q) =
      some (ds.foldl (fun acc b => acc * 10 + (b.toNat - 48)) acc, q) := by
  induction ds generalizing acc with
  | nil =>
    obtain ⟨b, q, rfl, other⟩ := stop
    rw [List.nil_append, readDigits, if_neg (by rw [other]; exact Bool.false_ne_true),
      List.foldl_nil]
  | cons d ds ih =>
    rw [List.cons_append, readDigits, if_pos (all d List.mem_cons_self),
      ih _ (fun b hb => all b (List.mem_cons_of_mem d hb)), List.foldl_cons]

/-- No digit is white space or a sign. -/
theorem digit_visible {b : UInt8} (digit : isDigit b = true) :
    isSpace b = false ∧ b ≠ 45 ∧ b ≠ 43 := by
  have low : 48 ≤ b.toNat := by
    rw [isDigit, Bool.and_eq_true, decide_eq_true_eq] at digit
    exact UInt8.le_iff_toNat_le.mp digit.1
  have other : ∀ c : UInt8, c.toNat < 48 → b ≠ c := by
    rintro c small rfl
    omega
  refine ⟨?_, other 45 (by decide), other 43 (by decide)⟩
  have beyond : ¬ b ≤ 13 := by
    intro small
    have : b.toNat ≤ 13 := UInt8.le_iff_toNat_le.mp small
    omega
  simp [isSpace, other 32 (by decide), beyond]

/-- A number in decimal is read up to its last digit. -/
theorem strtol_decimal {p q : List UInt8} {n : Int} (number : Decimal p n q) :
    strtol p = some (clampLong n, q) := by
  obtain ⟨white, sign, ds, rfl, spaces, kind, some', all, stop⟩ := number
  obtain ⟨d, ds', rfl⟩ := List.exists_cons_of_ne_nil some'
  obtain ⟨visible, minus, plus⟩ := digit_visible (all d List.mem_cons_self)
  have value := readDigits_digits 0 all stop
  have digit := all d List.mem_cons_self
  have unsigned : readSign (d :: (ds' ++ q)) = (false, d :: (ds' ++ q)) := by
    rw [readSign]
    · rintro p h
      exact minus (List.cons.inj h).1
    · rintro p h
      exact plus (List.cons.inj h).1
  rw [List.cons_append] at value ⊢
  rcases kind with ⟨rfl, rfl⟩ | ⟨rfl | rfl, rfl⟩
  · have white' := skipWhite_append spaces ⟨45, d :: (ds' ++ q), rfl, by decide⟩
    simp only [List.singleton_append, strtol, white', Option.bind_some, readSign, digit, if_true,
      value, Option.map_some, decimal]
  · have white' := skipWhite_append spaces ⟨43, d :: (ds' ++ q), rfl, by decide⟩
    simp only [List.singleton_append, strtol, white', Option.bind_some, readSign, digit, if_true,
      value, Option.map_some, decimal, Bool.false_eq_true, if_false]
  · have white' := skipWhite_append spaces ⟨d, ds' ++ q, rfl, visible⟩
    simp only [List.nil_append, strtol, white', Option.bind_some, unsigned, digit, if_true,
      value, Option.map_some, decimal, Bool.false_eq_true, if_false]

/-! ## Strings -/

theorem cString_plain {p : List UInt8} : ∀ b ∈ cString p, b ≠ 0 := by
  intro b hb
  have kept : (b != 0) = true := List.mem_takeWhile_imp (p := (· != 0)) hb
  exact bne_iff_ne.mp kept

theorem cString_terminated {t rest : List UInt8} (plain : ∀ b ∈ t, b ≠ 0) :
    cString (t ++ 0 :: rest) = t := by
  have all : ∀ b ∈ t, (b != 0) = true := fun b hb => bne_iff_ne.mpr (plain b hb)
  rw [cString, List.takeWhile_append_of_pos all, List.takeWhile_cons_of_neg (by decide),
    List.append_nil]

theorem cString_of_plain {text : List UInt8} (plain : 0 ∉ text) : cString text = text := by
  apply List.takeWhile_eq_self_iff.mpr
  intro b hb
  rw [bne_iff_ne]
  rintro rfl
  exact plain hb

/-- What stands behind a terminator is not read. -/
theorem cString_append_of_zero {p : List UInt8} (zero : 0 ∈ p) (rest : List UInt8) :
    cString (p ++ rest) = cString p := by
  induction p with
  | nil => cases zero
  | cons b p ih =>
    rw [List.cons_append, cString, cString, List.takeWhile_cons, List.takeWhile_cons]
    by_cases last : b = 0
    · rw [last, if_neg (by decide), if_neg (by decide)]
    · have more := (List.mem_cons.mp zero).resolve_left fun same => last same.symm
      rw [if_pos (bne_iff_ne.mpr last), if_pos (bne_iff_ne.mpr last)]
      exact congrArg (b :: ·) (ih more)

end CText
