import NtfsIsoMounter.DirectoryRecords

/-!
# Names in the Joliet tree

`utf8_to_ucs2` moves one cursor through a name, one to three bytes at a time, and
stops at the terminator, at a byte it cannot start with, or at its length limit.
A pointer is the list of bytes from it on; a read behind them has no result.
-/

namespace JolietNames

open ByteOrder CText DirectoryRecords

/-- `get_ucs2_from_utf8`: its value and `*end_ptr`. -/
def getUcs2FromUtf8 (input : List UInt8) : Option (Int × List UInt8) :=
  match input with
  | [] => none
  | a :: p =>
    if a = 0 then some (-1, input)
    else if a < 0x80 then some (a.toNat, p)
    else if a &&& 0xE0 = 0xE0 then
      match p with
      | [] => none
      | b :: p =>
        if b = 0 then some (-1, input)
        else
          match p with
          | [] => none
          | c :: p =>
            if c = 0 then some (-1, input)
            else some (((a &&& 0x0F).toNat <<< 12 ||| (b &&& 0x3F).toNat <<< 6 |||
              (c &&& 0x3F).toNat : Nat), p)
    else if a &&& 0xC0 = 0xC0 then
      match p with
      | [] => none
      | b :: p =>
        if b = 0 then some (-1, input)
        else some (((a &&& 0x1F).toNat <<< 6 ||| (b &&& 0x3F).toNat : Nat), p)
    else some (-1, input)

/-- The loop of `utf8_to_ucs2`, with `maxLength - length` units to go; a unit is
the number it stands for, stored by `BE16`. -/
def ucs2Units : Nat → List UInt8 → Option (List UInt16)
  | _, [] => none
  | 0, _ :: _ => some []
  | room + 1, a :: p =>
    if a = 0 then some []
    else
      (getUcs2FromUtf8 (a :: p)).bind fun (ch, p) =>
        if ch < 0 then some []
        else (ucs2Units room p).map (UInt16.ofNat (ch.toNat % 2 ^ 16) :: ·)

/-- The bytes of the units in memory. -/
def stored (units : List UInt16) : List UInt8 := units.flatMap (fun u => beBytes 2 u.toNat)

/-! ## The shifted parts of a code -/

theorem or_three (x : Nat) {y z : Nat} (hy : y < 64) (hz : z < 64) :
    x <<< 12 ||| y <<< 6 ||| z = x * 4096 + y * 64 + z := by
  have high : y <<< 6 < 2 ^ 12 := by
    rw [Nat.shiftLeft_eq]
    omega
  have both : x <<< 12 + y <<< 6 = (x * 64 + y) <<< 6 := by
    simp only [Nat.shiftLeft_eq]
    omega
  rw [← Nat.shiftLeft_add_eq_or_of_lt high, both, ← Nat.shiftLeft_add_eq_or_of_lt hz,
    Nat.shiftLeft_eq]
  omega

theorem or_two (x : Nat) {y : Nat} (hy : y < 64) : x <<< 6 ||| y = x * 64 + y := by
  rw [← Nat.shiftLeft_add_eq_or_of_lt hy, Nat.shiftLeft_eq]

theorem low_six (b : UInt8) : (b &&& 0x3F).toNat < 64 := by
  rw [UInt8.toNat_and]
  exact Nat.and_lt_two_pow (n := 6) _ (by decide)

/-! ## Nothing behind the terminator is read -/

/-- Within a terminated text the step gives a code and a shorter text, or fails; the
code is the one taken for a name without its terminator. -/
theorem getUcs2FromUtf8_text {t : List UInt8} (plain : ∀ b ∈ t, b ≠ 0) (some' : t ≠ []) :
    (ucs2FromUtf8 t = none ∧ getUcs2FromUtf8 (t ++ [0]) = some (-1, t ++ [0])) ∨
      ∃ ch rest, ucs2FromUtf8 t = some (ch, rest) ∧ ch < 2 ^ 16 ∧
        (∀ b ∈ rest, b ≠ 0) ∧ getUcs2FromUtf8 (t ++ [0]) = some ((ch : Int), rest ++ [0]) := by
  obtain ⟨a, t, rfl⟩ := List.exists_cons_of_ne_nil some'
  have ha : a ≠ 0 := plain a List.mem_cons_self
  have tail : ∀ b ∈ t, b ≠ 0 := fun b hb => plain b (List.mem_cons_of_mem a hb)
  rw [List.cons_append, ucs2FromUtf8.eq_def, getUcs2FromUtf8.eq_def]
  simp only [if_neg ha]
  by_cases one : a < 0x80
  · right
    have := a.toNat_lt
    exact ⟨a.toNat, t, if_pos one, by omega, tail, if_pos one⟩
  · simp only [if_neg one]
    by_cases three : a &&& 0xE0 = 0xE0
    · simp only [if_pos three]
      cases t with
      | nil => exact Or.inl ⟨rfl, rfl⟩
      | cons b t =>
        have hb : b ≠ 0 := tail b List.mem_cons_self
        cases t with
        | nil => exact Or.inl ⟨rfl, by simp [hb]⟩
        | cons c t =>
          have hc : c ≠ 0 := tail c (by simp)
          right
          have head : (a &&& 0x0F).toNat < 16 := by
            rw [UInt8.toNat_and]
            exact Nat.and_lt_two_pow (n := 4) _ (by decide)
          have hb' := low_six b
          have hc' := low_six c
          refine ⟨(a &&& 0x0F).toNat * 4096 + (b &&& 0x3F).toNat * 64 + (c &&& 0x3F).toNat, t, ?_,
            by omega, fun d hd => tail d (by simp [hd]), ?_⟩
          · simp [hb, hc]
          · simp only [List.cons_append, if_neg hb, if_neg hc, or_three _ hb' hc']
    · simp only [if_neg three]
      by_cases two : a &&& 0xC0 = 0xC0
      · simp only [if_pos two]
        cases t with
        | nil => exact Or.inl ⟨rfl, rfl⟩
        | cons b t =>
          have hb : b ≠ 0 := tail b List.mem_cons_self
          right
          have head : (a &&& 0x1F).toNat < 32 := by
            rw [UInt8.toNat_and]
            exact Nat.and_lt_two_pow (n := 5) _ (by decide)
          have hb' := low_six b
          refine ⟨(a &&& 0x1F).toNat * 64 + (b &&& 0x3F).toNat, t, ?_, by omega,
            fun d hd => tail d (by simp [hd]), ?_⟩
          · simp [hb]
          · simp only [List.cons_append, if_neg hb, or_two _ hb']
      · simp only [if_neg two]
        exact Or.inl ⟨trivial, trivial⟩

/-- The loop ends inside the text, and its units are those of the name. -/
theorem ucs2Units_text (room : Nat) {t : List UInt8} (plain : ∀ b ∈ t, b ≠ 0) :
    ∃ units, ucs2Units room (t ++ [0]) = some units ∧ units.length ≤ room ∧
      stored units = utf8ToUcs2 room t := by
  induction room generalizing t with
  | zero =>
    refine ⟨[], ?_, le_rfl, ?_⟩
    · cases t <;> rfl
    · rw [utf8ToUcs2]
      rfl
  | succ room ih =>
    cases t with
    | nil => exact ⟨[], rfl, Nat.zero_le _, rfl⟩
    | cons a t =>
      have ha : a ≠ 0 := plain a List.mem_cons_self
      rw [List.cons_append, ucs2Units, if_neg ha, ← List.cons_append, utf8ToUcs2]
      rcases getUcs2FromUtf8_text plain (List.cons_ne_nil a t) with ⟨none', fails⟩ |
        ⟨ch, rest, code, small, plain', decoded⟩
      · rw [fails, none']
        exact ⟨[], rfl, Nat.zero_le _, rfl⟩
      · obtain ⟨units, scanned, short, same⟩ := ih plain'
        have unit : (UInt16.ofNat ((ch : Int).toNat % 2 ^ 16)).toNat = ch := by
          rw [Int.toNat_natCast, UInt16.toNat_ofNat', Nat.mod_mod, Nat.mod_eq_of_lt small]
        rw [decoded, code, Option.bind_some]
        simp only [if_neg (Int.not_lt.mpr (Int.natCast_nonneg ch)), scanned, Option.map_some]
        refine ⟨_, rfl, Nat.succ_le_succ short, ?_⟩
        rw [stored, List.flatMap_cons, unit, ← same]
        rfl

/-! ## Valid names -/

theorem head_two : ∀ m, m < 32 → let a := UInt8.ofNat (m + 0xc0)
    ¬ a < 0x80 ∧ ¬ a &&& 0xE0 = 0xE0 ∧ a &&& 0xC0 = 0xC0 ∧ (a &&& 0x1F).toNat = m := by
  decide

theorem head_three : ∀ m, m < 16 → let a := UInt8.ofNat (m + 0xe0)
    ¬ a < 0x80 ∧ a &&& 0xE0 = 0xE0 ∧ (a &&& 0x0F).toNat = m := by
  decide

theorem byte_later : ∀ m, m < 64 → let b := UInt8.ofNat (m + 0x80)
    b ≠ 0 ∧ (b &&& 0x3F).toNat = m := by
  decide

/-- One code point of the basic plane, as UTF-8 encodes it. -/
theorem ucs2FromUtf8_encoded {c : Char} (basic : c.toNat < 2 ^ 16) (rest : List UInt8) :
    ucs2FromUtf8 (String.utf8EncodeChar c ++ rest) = some (c.toNat, rest) := by
  change c.val.toNat < 2 ^ 16 at basic
  change _ = some (c.val.toNat, rest)
  rw [String.utf8EncodeChar]
  generalize c.val.toNat = v at basic ⊢
  by_cases one : v ≤ 0x7f
  · have small : (UInt8.ofNat v).toNat = v := by
      rw [UInt8.toNat_ofNat', Nat.mod_eq_of_lt (by omega)]
    have ascii : UInt8.ofNat v < 0x80 := by
      rw [UInt8.lt_iff_toNat_lt, small]
      exact Nat.lt_succ_of_le one
    rw [if_pos one, List.singleton_append, ucs2FromUtf8.eq_def]
    simp only [if_pos ascii, small]
  · rw [if_neg one]
    have low : v % 0x40 < 64 := Nat.mod_lt _ (by decide)
    obtain ⟨later, value⟩ := byte_later _ low
    by_cases two : v ≤ 0x7ff
    · have high : v / 64 % 0x20 < 32 := Nat.mod_lt _ (by decide)
      obtain ⟨a, b, c, d⟩ := head_two _ high
      rw [if_pos two, ucs2FromUtf8.eq_def]
      simp only [List.cons_append, List.nil_append, if_neg a, if_neg b, if_pos c, if_neg later, d,
        value, Option.some.injEq, Prod.mk.injEq, and_true]
      omega
    · have mid : v / 64 % 0x40 < 64 := Nat.mod_lt _ (by decide)
      have high : v / 4096 % 0x10 < 16 := Nat.mod_lt _ (by decide)
      obtain ⟨a, b, d⟩ := head_three _ high
      obtain ⟨later', value'⟩ := byte_later _ mid
      rw [if_neg two, if_pos (by omega), ucs2FromUtf8.eq_def]
      simp only [List.cons_append, List.nil_append, if_neg a, if_pos b,
        if_neg (not_or.mpr ⟨later', later⟩), d, value, value', Option.some.injEq, Prod.mk.injEq,
        and_true]
      omega

/-- The units of a valid name are its code points, as far as they fit. -/
theorem utf8ToUcs2_encoded (room : Nat) {cs : List Char} (basic : ∀ c ∈ cs, c.toNat < 2 ^ 16) :
    utf8ToUcs2 room (cs.flatMap String.utf8EncodeChar) =
      (cs.take room).flatMap (fun c => beBytes 2 c.toNat) := by
  induction room generalizing cs with
  | zero => rfl
  | succ room ih =>
    cases cs with
    | nil => rfl
    | cons c cs =>
      have code := ucs2FromUtf8_encoded (basic c List.mem_cons_self)
        (cs.flatMap String.utf8EncodeChar)
      rw [List.flatMap_cons, utf8ToUcs2, code]
      simp only [List.take_succ_cons, List.flatMap_cons,
        ih (fun d hd => basic d (List.mem_cons_of_mem c hd))]

/-- The conversion of a terminated string ends, reads nothing behind the terminator
and keeps to its limit; a valid name of the basic plane comes out as its codes. -/
theorem ucs2Units_name (maxLength : Nat) (memory : List UInt8) :
    ∃ units, ucs2Units maxLength (cString memory ++ [0]) = some units ∧
      units.length ≤ maxLength ∧
      ∀ cs : List Char, (∀ c ∈ cs, c.toNat < 2 ^ 16) →
        cString memory = cs.flatMap String.utf8EncodeChar →
        stored units = (cs.take maxLength).flatMap (fun c => beBytes 2 c.toNat) := by
  obtain ⟨units, scanned, short, same⟩ := ucs2Units_text maxLength (cString_plain (p := memory))
  refine ⟨units, scanned, short, ?_⟩
  intro cs basic valid
  rw [same, valid, utf8ToUcs2_encoded maxLength basic]

end JolietNames
