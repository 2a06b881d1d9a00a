import NtfsIsoMounter.NameEncoding

/-!
# Names are read back from what they were converted to

The names that either function accepts are the texts of scalar values that fit, so that each one
takes back what the other has made.
-/

namespace NameEncoding

open ScalarText

/-! ## From UTF-16 -/

theorem toUtf8_text (ins : List Nat) (halfpair : Nat) :
    toUtf8 (text ins) halfpair = toUtf8 ins halfpair := by
  induction ins generalizing halfpair with
  | nil => rfl
  | cons c ins ih =>
    by_cases ended : c = 0
    · rw [ended, text_zero, toUtf8, toUtf8, if_pos rfl]
    · rw [text_cons ended, toUtf8, toUtf8]
      simp only [ih]

/-- A scalar in units makes its bytes. -/
theorem toUtf8_scalar {p : Nat} (scalar : Scalar p) (ins : List Nat) :
    toUtf8 (utf16 p ++ ins) 0 = (toUtf8 ins 0).map (utf8 p ++ ·) := by
  obtain ⟨some', low, high⟩ := scalar
  unfold utf16 utf8
  by_cases plane : p < 0x10000
  · rw [if_pos plane, List.singleton_append, toUtf8, if_neg (by omega), if_neg (by omega)]
    by_cases one : p < 0x80
    · rw [if_pos one, if_pos one]
    · rw [if_neg one, if_neg one]
      by_cases two : p < 0x800
      · have top : p / 0x40 % 0x40 = p / 0x40 := by omega
        rw [if_pos two, if_pos two, top]
      · rw [if_neg two, if_neg two, if_pos (by omega), if_pos plane]
  · rw [if_neg plane, if_neg (by omega), if_neg (by omega), if_neg plane, List.cons_append,
      List.singleton_append]
    generalize first : 0xd800 + (p - 0x10000) / 0x400 = h
    generalize second : 0xdc00 + (p - 0x10000) % 0x400 = c
    -- the first surrogate only waits for the second
    rw [toUtf8, if_neg (by omega), if_neg (by omega), if_neg (by omega), if_neg (by omega),
      if_neg (by omega), if_pos (by omega), toUtf8, if_neg (by omega), if_pos (by omega),
      if_pos (by omega)]
    have b₀ : 0xf0 + (h + 64) / 0x100 % 8 = 0xf0 + p / 0x40000 := by omega
    have b₁ : 0x80 + (h + 64) / 4 % 0x40 = 0x80 + p / 0x1000 % 0x40 := by omega
    have b₂ : 0x80 + c / 0x40 % 0x10 + h % 4 * 0x10 = 0x80 + p / 0x40 % 0x40 := by omega
    have b₃ : 0x80 + c % 0x40 = 0x80 + p % 0x40 := by omega
    rw [b₀, b₁, b₂, b₃]

theorem toUtf8_units {ps : List Nat} (scalars : ∀ p ∈ ps, Scalar p) :
    toUtf8 (units ps) 0 = .ok (bytes ps) := by
  induction ps with
  | nil => rfl
  | cons p ps ih =>
    rw [units_cons, toUtf8_scalar (scalars p List.mem_cons_self),
      ih fun q among => scalars q (List.mem_cons_of_mem p among), bytes_cons]
    rfl

theorem utf16ToUtf8Size_text (outsLen : Nat) (ins : List Nat) (surrog : Bool) (count : Nat) :
    utf16ToUtf8Size outsLen (text ins) surrog count = utf16ToUtf8Size outsLen ins surrog count := by
  induction ins generalizing surrog count with
  | nil => rfl
  | cons c ins ih =>
    by_cases ended : c = 0
    · rw [ended, text_zero, utf16ToUtf8Size, utf16ToUtf8Size, if_pos rfl]
    · rw [text_cons ended, utf16ToUtf8Size, utf16ToUtf8Size]
      simp only [ih]

theorem utf16ToUtf8Size_scalar {p : Nat} (scalar : Scalar p) (outsLen : Nat) (ins : List Nat)
    (count : Nat) :
    utf16ToUtf8Size outsLen (utf16 p ++ ins) false count =
      if count + (utf8 p).length > outsLen then .error .enametoolong
      else utf16ToUtf8Size outsLen ins false (count + (utf8 p).length) := by
  obtain ⟨some', low, high⟩ := scalar
  unfold utf8 utf16
  by_cases plane : p < 0x10000
  · rw [if_pos plane, List.singleton_append, utf16ToUtf8Size, if_neg (by omega)]
    dsimp only
    rw [if_neg Bool.false_ne_true]
    by_cases one : p < 0x80
    · rw [if_pos one, if_pos one]
      rfl
    · rw [if_neg one, if_neg one]
      by_cases two : p < 0x800
      · rw [if_pos two, if_pos two]
        rfl
      · rw [if_neg two, if_neg two, if_pos plane]
        by_cases below : p < 0xd800
        · rw [if_pos below]
          rfl
        · rw [if_neg below, if_neg (by omega), if_pos (by omega)]
          rfl
  · rw [if_neg plane, if_neg (show ¬ p < 0x80 by omega), if_neg (show ¬ p < 0x800 by omega),
      if_neg plane, List.cons_append, List.singleton_append]
    generalize first : 0xd800 + (p - 0x10000) / 0x400 = h
    generalize second : 0xdc00 + (p - 0x10000) % 0x400 = c
    simp only [List.length_cons, List.length_nil, Nat.zero_add, Nat.reduceAdd]
    rw [utf16ToUtf8Size, if_neg (by omega)]
    dsimp only
    rw [if_neg Bool.false_ne_true, if_neg (by omega), if_neg (by omega), if_neg (by omega),
      if_pos (by omega)]
    by_cases full : count > outsLen
    · rw [if_pos full, if_pos (by omega)]
    · rw [if_neg full, utf16ToUtf8Size, if_neg (by omega)]
      dsimp only
      rw [if_pos rfl, if_pos (by omega)]

theorem utf16ToUtf8Size_units {ps : List Nat} (scalars : ∀ p ∈ ps, Scalar p) {outsLen count : Nat}
    (room : count ≤ outsLen) :
    utf16ToUtf8Size outsLen (units ps) false count =
      if count + (bytes ps).length ≤ outsLen then .ok (count + (bytes ps).length)
      else .error .enametoolong := by
  induction ps generalizing count with
  | nil =>
    rw [bytes_nil, List.length_nil, Nat.add_zero, if_pos room]
    rfl
  | cons p ps ih =>
    rw [units_cons, utf16ToUtf8Size_scalar (scalars p List.mem_cons_self), bytes_cons,
      List.length_append, ← Nat.add_assoc]
    by_cases full : count + (utf8 p).length > outsLen
    · rw [if_pos full, if_neg (by omega)]
    · rw [if_neg full, ih (fun q among => scalars q (List.mem_cons_of_mem p among)) (by omega)]

theorem ntfsUtf16ToUtf8_units {ps ins : List Nat} (scalars : ∀ p ∈ ps, Scalar p)
    (same : text ins = units ps) (pathMax : Nat) (outs : Option Nat) :
    ntfsUtf16ToUtf8 pathMax outs ins =
      if (bytes ps).length ≤ outs.getD pathMax then .ok (bytes ps) else .error .enametoolong := by
  rw [ntfsUtf16ToUtf8, ← utf16ToUtf8Size_text, ← toUtf8_text, same, toUtf8_units scalars,
    utf16ToUtf8Size_units scalars (Nat.zero_le _), Nat.zero_add]
  by_cases fits : (bytes ps).length ≤ outs.getD pathMax
  · rw [if_pos fits, if_pos fits]
  · rw [if_neg fits, if_neg fits]

/-! ## From UTF-8 -/

/-- The bytes of a scalar, before any others, are taken as that scalar. -/
theorem utf8ToUnicode_scalar {p : Nat} (scalar : Scalar p) (s : List Nat) :
    utf8ToUnicode (utf8 p ++ s) = .ok (p, (utf8 p).length) := by
  obtain ⟨some', low, high⟩ := scalar
  unfold utf8
  by_cases one : p < 0x80
  · rw [if_pos one]
    simp only [utf8ToUnicode, List.singleton_append, List.getD_cons_zero, List.length_singleton]
    rw [if_neg (by omega), if_pos one]
  · rw [if_neg one]
    by_cases two : p < 0x800
    · rw [if_pos two]
      simp only [utf8ToUnicode, List.cons_append, List.getD_cons_zero, List.getD_cons_succ,
        List.length_cons, List.length_nil, Continues]
      rw [if_neg (by omega), if_neg (by omega), if_neg (by omega), if_pos (by omega),
        if_pos (by omega)]
      have same : (0xc0 + p / 0x40) % 0x20 * 0x40 + (0x80 + p % 0x40) % 0x40 = p := by omega
      rw [same]
    · rw [if_neg two]
      by_cases three : p < 0x10000
      · rw [if_pos three]
        simp only [utf8ToUnicode, List.cons_append, List.getD_cons_zero, List.getD_cons_succ,
          List.length_cons, List.length_nil, Continues]
        have same : (0xe0 + p / 0x1000) % 0x10 * 0x1000 + (0x80 + p / 0x40 % 0x40) % 0x40 * 0x40 +
            (0x80 + p % 0x40) % 0x40 = p := by omega
        rw [if_neg (by omega), if_neg (by omega), if_neg (by omega), if_neg (by omega),
          if_pos (by omega), same, if_pos (by omega)]
      · rw [if_neg three]
        simp only [utf8ToUnicode, List.cons_append, List.getD_cons_zero, List.getD_cons_succ,
          List.length_cons, List.length_nil, Continues]
        have same : (0xf0 + p / 0x40000) % 8 * 0x40000 +
            (0x80 + p / 0x1000 % 0x40) % 0x40 * 0x1000 + (0x80 + p / 0x40 % 0x40) % 0x40 * 0x40 +
            (0x80 + p % 0x40) % 0x40 = p := by omega
        rw [if_neg (by omega), if_neg (by omega), if_neg (by omega), if_neg (by omega),
          if_neg (by omega), if_pos (by omega), same, if_pos (by omega)]

theorem utf8ToUnicode_ended {tail : List Nat} (ended : tail.getD 0 0 = 0) :
    utf8ToUnicode tail = .ok (0, 0) := by
  unfold utf8ToUnicode
  exact if_pos ended

theorem toUtf16_bytes {ps : List Nat} (scalars : ∀ p ∈ ps, Scalar p) {tail : List Nat}
    (ended : tail.getD 0 0 = 0) {turns : Nat} (enough : ps.length < turns) :
    toUtf16 turns (bytes ps ++ tail) = some (.ok (units ps)) := by
  induction ps generalizing turns with
  | nil =>
    obtain _ | turns := turns
    · omega
    · rw [bytes_nil, List.nil_append, toUtf16, utf8ToUnicode_ended ended]
      rfl
  | cons p ps ih =>
    obtain _ | turns := turns
    · omega
    · have later := ih (fun q among => scalars q (List.mem_cons_of_mem p among))
        (Nat.lt_of_succ_lt_succ enough)
      have taken : (utf8 p).length ≠ 0 := Nat.ne_of_gt (utf8_length_pos p)
      rw [bytes_cons, List.append_assoc, toUtf16,
        utf8ToUnicode_scalar (scalars p List.mem_cons_self)]
      dsimp only
      rw [if_neg taken, List.drop_left, later, units_cons, Nat.add_comm _ 0xd800,
        Nat.add_comm _ 0xdc00]
      rfl

/-- What the size counts for a scalar, with room for the terminator kept. -/
theorem utf8ToUtf16Size_scalar {p : Nat} (scalar : Scalar p) (pathMax : Nat) (s : List Nat)
    (count : Nat) :
    utf8ToUtf16Size pathMax (utf8 p ++ s) count =
      if count + (utf16 p).length ≥ pathMax then .error .enametoolong
      else utf8ToUtf16Size pathMax s (count + (utf16 p).length) := by
  obtain ⟨some', low, high⟩ := scalar
  unfold utf8 utf16
  by_cases plane : p < 0x10000
  · rw [if_pos plane, if_pos plane, List.length_singleton]
    by_cases one : p < 0x80
    · rw [if_pos one, List.singleton_append, utf8ToUtf16Size.eq_def]
      dsimp only
      rw [if_neg (by omega), if_pos (show p < 0xc0 by omega)]
    · rw [if_neg one]
      by_cases two : p < 0x800
      · rw [if_pos two, List.cons_append, List.cons_append, List.nil_append,
          utf8ToUtf16Size.eq_def]
        dsimp only
        rw [if_neg (by omega), if_neg (show ¬ 0xc0 + p / 0x40 < 0xc0 by omega),
          if_neg (show ¬ 0xc0 + p / 0x40 ≥ 0xf5 by omega)]
        rw [if_neg (show ¬ 0x80 + p % 0x40 = 0 by omega),
          if_pos (show 0xc0 + p / 0x40 < 0xe0 by omega)]
      · rw [if_neg two, List.cons_append, List.cons_append, List.cons_append, List.nil_append,
          utf8ToUtf16Size.eq_def]
        dsimp only
        rw [if_neg (by omega), if_neg (show ¬ 0xe0 + p / 0x1000 < 0xc0 by omega),
          if_neg (show ¬ 0xe0 + p / 0x1000 ≥ 0xf5 by omega)]
        rw [if_neg (show ¬ 0x80 + p / 0x40 % 0x40 = 0 by omega),
          if_neg (show ¬ 0xe0 + p / 0x1000 < 0xe0 by omega)]
        rw [if_neg (show ¬ 0x80 + p % 0x40 = 0 by omega),
          if_pos (show 0xe0 + p / 0x1000 < 0xf0 by omega)]
  · rw [if_neg plane, if_neg (show ¬ p < 0x80 by omega), if_neg (show ¬ p < 0x800 by omega),
      if_neg plane, List.cons_append, List.cons_append, List.cons_append, List.cons_append,
      List.nil_append, utf8ToUtf16Size.eq_def]
    dsimp only
    rw [if_neg (by omega), if_neg (show ¬ 0xf0 + p / 0x40000 < 0xc0 by omega),
      if_neg (show ¬ 0xf0 + p / 0x40000 ≥ 0xf5 by omega)]
    rw [if_neg (show ¬ 0x80 + p / 0x1000 % 0x40 = 0 by omega),
      if_neg (show ¬ 0xf0 + p / 0x40000 < 0xe0 by omega),
      if_neg (show ¬ 0x80 + p / 0x40 % 0x40 = 0 by omega),
      if_neg (show ¬ 0xf0 + p / 0x40000 < 0xf0 by omega),
      if_neg (show ¬ 0x80 + p % 0x40 = 0 by omega)]
    -- the second unit is counted behind the first
    simp only [List.length_cons, List.length_nil, Nat.zero_add, Nat.reduceAdd]
    by_cases full : count + 1 ≥ pathMax
    · rw [if_pos full, if_pos (show count + 2 ≥ pathMax by omega)]
    · rw [if_neg full]

theorem utf8ToUtf16Size_ended {tail : List Nat} (ended : tail.getD 0 0 = 0) (pathMax count : Nat) :
    utf8ToUtf16Size pathMax tail count = .ok count := by
  obtain _ | ⟨byte, tail⟩ := tail
  · rfl
  · rw [utf8ToUtf16Size.eq_def]
    exact if_pos ended

theorem utf8ToUtf16Size_bytes {ps : List Nat} (scalars : ∀ p ∈ ps, Scalar p) {tail : List Nat}
    (ended : tail.getD 0 0 = 0) {pathMax count : Nat} (room : count < pathMax) :
    utf8ToUtf16Size pathMax (bytes ps ++ tail) count =
      if count + (units ps).length < pathMax then .ok (count + (units ps).length)
      else .error .enametoolong := by
  induction ps generalizing count with
  | nil =>
    rw [bytes_nil, List.nil_append, utf8ToUtf16Size_ended ended, units_nil, List.length_nil,
      Nat.add_zero, if_pos room]
  | cons p ps ih =>
    rw [bytes_cons, List.append_assoc, utf8ToUtf16Size_scalar (scalars p List.mem_cons_self),
      units_cons, List.length_append, ← Nat.add_assoc]
    by_cases full : count + (utf16 p).length ≥ pathMax
    · rw [if_pos full, if_neg (by omega)]
    · rw [if_neg full, ih (fun q among => scalars q (List.mem_cons_of_mem p among)) (by omega)]

/-- What the bytes of scalars are converted to, whatever stands behind their terminator. -/
theorem ntfsUtf8ToUtf16_bytes {ps : List Nat} (scalars : ∀ p ∈ ps, Scalar p) {tail : List Nat}
    (ended : tail.getD 0 0 = 0) {pathMax : Nat} (room : 0 < pathMax) :
    ntfsUtf8ToUtf16 pathMax (bytes ps ++ tail) =
      some (if (units ps).length < pathMax then .ok ((units ps).length + 1, units ps)
        else .error .enametoolong) := by
  rw [ntfsUtf8ToUtf16, utf8ToUtf16Size_bytes scalars ended room, Nat.zero_add]
  by_cases short : (units ps).length < pathMax
  · have enough : ps.length < (bytes ps ++ tail).length + 1 := by
      have fewer := length_le_bytes ps
      rw [List.length_append]
      omega
    rw [if_pos short, if_pos short]
    dsimp only
    rw [toUtf16_bytes scalars ended enough]
    rfl
  · rw [if_neg short, if_neg short]

/-! ## What is accepted -/

theorem text_tail (ins : List Nat) : ∃ tail, tail.getD 0 0 = 0 ∧ ins = text ins ++ tail := by
  induction ins with
  | nil => exact ⟨[], rfl, rfl⟩
  | cons c ins ih =>
    by_cases ended : c = 0
    · rw [ended]
      exact ⟨0 :: ins, rfl, rfl⟩
    · obtain ⟨tail, behind, same⟩ := ih
      refine ⟨tail, behind, ?_⟩
      rw [text_cons ended, List.cons_append, ← same]

theorem text_append {l tail : List Nat} (filled : ∀ c ∈ l, c ≠ 0) (ended : tail.getD 0 0 = 0) :
    text (l ++ tail) = l := by
  induction l with
  | nil =>
    obtain _ | ⟨c, tail⟩ := tail
    · rfl
    · have none' : c = 0 := ended
      rw [none']
      rfl
  | cons c l ih =>
    rw [List.cons_append, text_cons (filled c List.mem_cons_self),
      ih fun b among => filled b (List.mem_cons_of_mem c among)]

theorem drop_read {s : List Nat} {k : Nat} (some' : s.getD k 0 ≠ 0) :
    s.drop k = s.getD k 0 :: s.drop (k + 1) := by
  by_cases inside : k < s.length
  · rw [List.getD_eq_getElem s 0 inside]
    exact List.drop_eq_getElem_cons inside
  · exact absurd (List.getD_eq_default s 0 (Nat.le_of_not_lt inside)) some'

theorem Continues.between {b : Nat} (continues : Continues b) (narrow : b < 0x100) :
    0x80 ≤ b ∧ b < 0xc0 := by
  unfold Continues at continues
  omega

/-- Bytes that are taken are those of a scalar: no shorter form of it exists, and no surrogate has
one. -/
theorem utf8ToUnicode_taken {s : List Nat} (narrow : ∀ b ∈ s, b < 0x100) {wc m : Nat}
    (made : utf8ToUnicode s = .ok (wc, m)) (more : m ≠ 0) :
    Scalar wc ∧ m = (utf8 wc).length ∧ s = utf8 wc ++ s.drop m := by
  have bound (k : Nat) : s.getD k 0 < 0x100 := by
    by_cases inside : k < s.length
    · rw [List.getD_eq_getElem s 0 inside]
      exact narrow _ (List.getElem_mem inside)
    · rw [List.getD_eq_default s 0 (Nat.le_of_not_lt inside)]
      exact Nat.zero_lt_succ _
  have small₁ := bound 1
  have small₂ := bound 2
  have small₃ := bound 3
  have part₀ := @drop_read s 0
  have part₁ := @drop_read s 1
  have part₂ := @drop_read s 2
  have part₃ := @drop_read s 3
  rw [List.drop_zero] at part₀
  unfold utf8ToUnicode at made
  dsimp only at made
  generalize s.getD 0 0 = b₀ at *
  generalize s.getD 1 0 = b₁ at *
  generalize s.getD 2 0 = b₂ at *
  generalize s.getD 3 0 = b₃ at *
  split at made
  · exact absurd (Prod.mk.inj (Except.ok.inj made)).2.symm more
  · rename_i some'
    split at made
    · rename_i one
      obtain ⟨value, length⟩ := Prod.mk.inj (Except.ok.inj made)
      have form : utf8 wc = [b₀] := by rw [utf8, if_pos (by omega), value]
      rw [form, ← length]
      exact ⟨⟨by omega, by omega, by omega⟩, rfl, part₀ some'⟩
    · split at made
      · cases made
      · split at made
        · split at made
          · rename_i continues
            have next₁ := continues.between small₁
            obtain ⟨value, length⟩ := Prod.mk.inj (Except.ok.inj made)
            rw [utf8_two value (by omega) next₁, ← length]
            refine ⟨⟨by omega, by omega, by omega⟩, rfl, ?_⟩
            rw [List.cons_append, List.singleton_append, ← part₁ (by omega)]
            exact part₀ some'
          · cases made
        · split at made
          · split at made
            · rename_i accepted
              obtain ⟨continues₁, continues₂, range⟩ := accepted
              have next₁ := continues₁.between small₁
              have next₂ := continues₂.between small₂
              obtain ⟨value, length⟩ := Prod.mk.inj (Except.ok.inj made)
              rw [utf8_three value (by omega) next₁ next₂ (by omega), ← length]
              refine ⟨⟨by omega, by omega, by omega⟩, rfl, ?_⟩
              rw [List.cons_append, List.cons_append, List.singleton_append, ← part₂ (by omega),
                ← part₁ (by omega)]
              exact part₀ some'
            · cases made
          · split at made
            · split at made
              · rename_i accepted
                obtain ⟨continues₁, continues₂, continues₃, range⟩ := accepted
                have next₁ := continues₁.between small₁
                have next₂ := continues₂.between small₂
                have next₃ := continues₃.between small₃
                obtain ⟨value, length⟩ := Prod.mk.inj (Except.ok.inj made)
                rw [utf8_four value (by omega) next₁ next₂ next₃ (by omega), ← length]
                refine ⟨⟨by omega, by omega, by omega⟩, rfl, ?_⟩
                rw [List.cons_append, List.cons_append, List.cons_append, List.singleton_append,
                  ← part₃ (by omega), ← part₂ (by omega), ← part₁ (by omega)]
                exact part₀ some'
              · cases made
            · cases made

theorem utf8ToUnicode_positive {s : List Nat} (some' : s.getD 0 0 ≠ 0) {wc m : Nat}
    (made : utf8ToUnicode s = .ok (wc, m)) : m ≠ 0 := by
  unfold utf8ToUnicode at made
  dsimp only at made
  rw [if_neg some'] at made
  split_ifs at made <;> cases made <;> omega

theorem toUtf16_taken {turns : Nat} {t us : List Nat} (narrow : ∀ b ∈ t, b < 0x100)
    (made : toUtf16 turns t = some (.ok us)) :
    ∃ ps tail, (∀ p ∈ ps, Scalar p) ∧ tail.getD 0 0 = 0 ∧ t = bytes ps ++ tail := by
  induction turns generalizing t us with
  | zero => cases made
  | succ turns ih =>
    rw [toUtf16] at made
    split at made
    · cases Option.some.inj made
    · rename_i wc m taken
      split at made
      · rename_i none'
        refine ⟨[], t, fun p among => (List.not_mem_nil among).elim, ?_, rfl⟩
        by_contra some'
        have positive : m ≠ 0 := utf8ToUnicode_positive some' taken
        exact positive none'
      · rename_i more
        obtain ⟨scalar, length, same⟩ := utf8ToUnicode_taken narrow taken more
        obtain ⟨e, later, kept⟩ := Option.map_eq_some_iff.mp made
        obtain _ | us' := e
        · cases kept
        · obtain ⟨ps, tail, scalars, ended, behind⟩ :=
            ih (fun b among => narrow b (List.mem_of_mem_drop among)) later
          refine ⟨wc :: ps, tail, List.forall_mem_cons.mpr ⟨scalar, scalars⟩, ended, ?_⟩
          rw [bytes_cons, List.append_assoc, ← behind]
          exact same

/-- The names that are accepted in UTF-16 are the texts of which the bytes fit. -/
theorem ntfsUtf16ToUtf8_accepts {pathMax : Nat} {outs : Option Nat} {ins out : List Nat}
    (wide : ∀ c ∈ ins, c < 0x10000) :
    ntfsUtf16ToUtf8 pathMax outs ins = .ok out ↔
      ∃ ps, (∀ p ∈ ps, Scalar p) ∧ text ins = units ps ∧ out = bytes ps ∧
        out.length ≤ outs.getD pathMax := by
  constructor
  · intro made
    obtain ⟨size, measured⟩ :
        ∃ size, utf16ToUtf8Size (outs.getD pathMax) ins false 0 = .ok size := by
      rw [ntfsUtf16ToUtf8] at made
      split at made
      · cases made
      · rename_i size measured
        exact ⟨size, measured⟩
    obtain ⟨ps, scalars, same, -⟩ := (measured_text wide).1 _ _ measured
    rw [ntfsUtf16ToUtf8_units scalars same] at made
    split at made
    · rename_i fits
      have stored : out = bytes ps := (Except.ok.inj made).symm
      rw [← stored] at fits
      exact ⟨ps, scalars, same, stored, fits⟩
    · cases made
  · rintro ⟨ps, scalars, same, rfl, fits⟩
    rw [ntfsUtf16ToUtf8_units scalars same, if_pos fits]

/-- The names that are accepted in UTF-8 are the texts of which the units leave room for the
terminator, and the size is that of the units with it. -/
theorem ntfsUtf8ToUtf16_accepts {pathMax : Nat} {ins us : List Nat} {n : Nat}
    (narrow : ∀ b ∈ ins, b < 0x100) (room : 0 < pathMax) :
    ntfsUtf8ToUtf16 pathMax ins = some (.ok (n, us)) ↔
      ∃ ps, (∀ p ∈ ps, Scalar p) ∧ text ins = bytes ps ∧ us = units ps ∧ n = us.length + 1 ∧
        us.length < pathMax := by
  constructor
  · intro made
    obtain ⟨us', converted⟩ : ∃ us', toUtf16 (ins.length + 1) ins = some (.ok us') := by
      rw [ntfsUtf8ToUtf16] at made
      split at made
      · cases made
      · obtain ⟨e, converted, kept⟩ := Option.map_eq_some_iff.mp made
        obtain _ | us' := e
        · cases kept
        · exact ⟨us', converted⟩
    obtain ⟨ps, tail, scalars, ended, same⟩ := toUtf16_taken narrow converted
    rw [same, ntfsUtf8ToUtf16_bytes scalars ended room] at made
    have kept := Option.some.inj made
    split at kept
    · rename_i short
      obtain ⟨size, stored⟩ := Prod.mk.inj (Except.ok.inj kept)
      refine ⟨ps, scalars, ?_, stored.symm, ?_, ?_⟩
      · rw [same, text_append (bytes_filled scalars) ended]
      · rw [← stored, ← size]
      · rw [← stored]
        exact short
    · cases kept
  · rintro ⟨ps, scalars, same, rfl, rfl, short⟩
    obtain ⟨tail, ended, whole⟩ := text_tail ins
    rw [whole, same, ntfsUtf8ToUtf16_bytes scalars ended room, if_pos short]

/-! ## The round trip -/

/-- A name that is accepted in UTF-16 is read back whole, unless it has too many units. -/
theorem names_restored {pathMax : Nat} {outs : Option Nat} {ins out : List Nat}
    (wide : ∀ c ∈ ins, c < 0x10000) (room : 0 < pathMax)
    (made : ntfsUtf16ToUtf8 pathMax outs ins = .ok out) :
    ntfsUtf8ToUtf16 pathMax out =
      some (if (text ins).length < pathMax then .ok ((text ins).length + 1, text ins)
        else .error .enametoolong) := by
  obtain ⟨ps, scalars, same, stored, -⟩ := (ntfsUtf16ToUtf8_accepts wide).mp made
  have back := @ntfsUtf8ToUtf16_bytes _ scalars [] rfl _ room
  rw [List.append_nil] at back
  rw [stored, same, back]

/-- `AÄ€` and a character that needs two units, with more behind the terminator. -/
def accents : List Nat := [0x41, 0xc4, 0x20ac, 0xd83d, 0xde00, 0, 0x7a]

theorem accents_restored :
    ntfsUtf8ToUtf16 256 [0x41, 0xc3, 0x84, 0xe2, 0x82, 0xac, 0xf0, 0x9f, 0x98, 0x80] =
      some (if (text accents).length < 256 then .ok ((text accents).length + 1, text accents)
        else .error .enametoolong) :=
  @names_restored 256 none accents _ (by decide) (by decide) rfl

/-- A name that is accepted in UTF-8 is converted back to the same bytes, unless the buffer is too
small for them. -/
theorem bytes_restored {pathMax : Nat} {ins us : List Nat} {n : Nat}
    (narrow : ∀ b ∈ ins, b < 0x100) (room : 0 < pathMax)
    (made : ntfsUtf8ToUtf16 pathMax ins = some (.ok (n, us))) (outs : Option Nat) :
    n = us.length + 1 ∧ ntfsUtf16ToUtf8 pathMax outs us =
      if (text ins).length ≤ outs.getD pathMax then .ok (text ins) else .error .enametoolong := by
  obtain ⟨ps, scalars, same, rfl, size, -⟩ := (ntfsUtf8ToUtf16_accepts narrow room).mp made
  have whole : text (units ps) = units ps := by
    have alone := @text_append _ [] (units_filled scalars) rfl
    rwa [List.append_nil] at alone
  refine ⟨size, ?_⟩
  rw [ntfsUtf16ToUtf8_units scalars whole, same]

def accentBytes : List Nat := [0x41, 0xc3, 0x84, 0xe2, 0x82, 0xac, 0xf0, 0x9f, 0x98, 0x80, 0, 0xff]

theorem accentBytes_restored :
    6 = [0x41, 0xc4, 0x20ac, 0xd83d, 0xde00].length + 1 ∧
      ntfsUtf16ToUtf8 256 (some 12) [0x41, 0xc4, 0x20ac, 0xd83d, 0xde00] =
        if (text accentBytes).length ≤ (some 12).getD 256 then .ok (text accentBytes)
        else .error .enametoolong :=
  @bytes_restored 256 accentBytes _ 6 (by decide) (by decide) rfl (some 12)

end NameEncoding
