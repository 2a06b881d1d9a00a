import NtfsIsoMounter.ScalarText

/-!
# File names between UTF-16 and UTF-8

`ntfs_utf16_to_utf8` and `ntfs_utf8_to_utf16` measure a name before they convert it into a buffer of
that size. Names that are accepted are texts of scalar values, and either function takes back what
the other one has made.
-/

namespace NameEncoding

open ScalarText

/-! ## `unistr.c` -/

inductive NameError where
  | eilseq
  | enametoolong
  deriving DecidableEq, Repr

/-- `utf16_to_utf8_size`; a name ends with its buffer or with a terminator. -/
def utf16ToUtf8Size (outsLen : Nat) : List Nat → Bool → Nat → Except NameError Nat
  | [], surrog, count => if surrog then .error .eilseq else .ok count
  | c :: ins, surrog, count =>
    if c = 0 then if surrog then .error .eilseq else .ok count
    else
      let next := fun surrog count =>
        if count > outsLen then .error .enametoolong
        else utf16ToUtf8Size outsLen ins surrog count
      if surrog then
        if c ≥ 0xdc00 ∧ c < 0xe000 then next false (count + 4) else .error .eilseq
      else if c < 0x80 then next false (count + 1)
      else if c < 0x800 then next false (count + 2)
      else if c < 0xd800 then next false (count + 3)
      else if c < 0xdc00 then next true count
      else if c ≥ 0xe000 then next false (count + 3)
      else .error .eilseq

/-- The loop of `ntfs_utf16_to_utf8`, with what it stores. -/
def toUtf8 : List Nat → Nat → Except NameError (List Nat)
  | [], _ => .ok []
  | c :: ins, halfpair =>
    if c = 0 then .ok []
    else if halfpair ≠ 0 then
      if c ≥ 0xdc00 ∧ c < 0xe000 then
        (toUtf8 ins 0).map ([0xf0 + (halfpair + 64) / 0x100 % 8, 0x80 + (halfpair + 64) / 4 % 0x40,
          0x80 + c / 0x40 % 0x10 + halfpair % 4 * 0x10, 0x80 + c % 0x40] ++ ·)
      else .error .eilseq
    else if c < 0x80 then (toUtf8 ins 0).map ([c] ++ ·)
    else if c < 0x800 then (toUtf8 ins 0).map ([0xc0 + c / 0x40 % 0x40, 0x80 + c % 0x40] ++ ·)
    else if c < 0xd800 ∨ c ≥ 0xe000 then
      (toUtf8 ins 0).map ([0xe0 + c / 0x1000, 0x80 + c / 0x40 % 0x40, 0x80 + c % 0x40] ++ ·)
    else if c < 0xdc00 then toUtf8 ins c
    else .error .eilseq

/-- `ntfs_utf16_to_utf8` into a buffer of so many bytes, or one that is allocated: the bytes before
the terminator. -/
def ntfsUtf16ToUtf8 (pathMax : Nat) (outs : Option Nat) (ins : List Nat) :
    Except NameError (List Nat) :=
  match utf16ToUtf8Size (outs.getD pathMax) ins false 0 with
  | .error e => .error e
  | .ok _ => toUtf8 ins 0

/-- `utf8_to_utf16_size` -/
def utf8ToUtf16Size (pathMax : Nat) : List Nat → Nat → Except NameError Nat
  | [], count => .ok count
  | byte :: s, count =>
    if byte = 0 then .ok count
    else if count + 1 ≥ pathMax then .error .enametoolong
    else if byte < 0xc0 then utf8ToUtf16Size pathMax s (count + 1)
    else if byte ≥ 0xf5 then .error .eilseq
    else
      match s with
      | [] => .ok (count + 1)
      | b₁ :: s =>
        if b₁ = 0 then .ok (count + 1)
        else if byte < 0xe0 then utf8ToUtf16Size pathMax s (count + 1)
        else
          match s with
          | [] => .ok (count + 1)
          | b₂ :: s =>
            if b₂ = 0 then .ok (count + 1)
            else if byte < 0xf0 then utf8ToUtf16Size pathMax s (count + 1)
            else
              match s with
              | [] => .ok (count + 1)
              | b₃ :: s =>
                if b₃ = 0 then .ok (count + 1)
                else if count + 2 ≥ pathMax then .error .enametoolong
                else utf8ToUtf16Size pathMax s (count + 2)

/-- `(b & 0xC0) == 0x80` -/
def Continues (b : Nat) : Prop := b / 0x40 % 4 = 2

instance continuesDecidable (b : Nat) : Decidable (Continues b) :=
  inferInstanceAs (Decidable (_ = _))

/-- `utf8_to_unicode`: the value and the number of bytes it has taken. Behind the end is the
terminator. -/
def utf8ToUnicode (s : List Nat) : Except NameError (Nat × Nat) :=
  let byte := s.getD 0 0
  let b₁ := s.getD 1 0
  let b₂ := s.getD 2 0
  let b₃ := s.getD 3 0
  if byte = 0 then .ok (0, 0)
  else if byte < 0x80 then .ok (byte, 1)
  else if byte < 0xc2 then .error .eilseq
  else if byte < 0xe0 then
    if Continues b₁ then .ok (byte % 0x20 * 0x40 + b₁ % 0x40, 2) else .error .eilseq
  else if byte < 0xf0 then
    let wc := byte % 0x10 * 0x1000 + b₁ % 0x40 * 0x40 + b₂ % 0x40
    if Continues b₁ ∧ Continues b₂ ∧ (wc ≥ 0x800 ∧ wc ≤ 0xd7ff ∨ wc ≥ 0xe000 ∧ wc ≤ 0xffff) then
      .ok (wc, 3)
    else .error .eilseq
  else if byte < 0xf5 then
    let wc := byte % 8 * 0x40000 + b₁ % 0x40 * 0x1000 + b₂ % 0x40 * 0x40 + b₃ % 0x40
    if Continues b₁ ∧ Continues b₂ ∧ Continues b₃ ∧ wc ≤ 0x10ffff ∧ wc ≥ 0x10000 then .ok (wc, 4)
    else .error .eilseq
  else .error .eilseq

/-- The loop of `ntfs_utf8_to_utf16`, with what it stores before the terminator. -/
def toUtf16 : Nat → List Nat → Option (Except NameError (List Nat))
  | 0, _ => none
  | turns + 1, t =>
    match utf8ToUnicode t with
    | .error e => some (.error e)
    | .ok (wc, m) =>
      if m = 0 then some (.ok [])
      else
        let stored := if wc < 0x10000 then [wc]
          else [(wc - 0x10000) / 0x400 + 0xd800, (wc - 0x10000) % 0x400 + 0xdc00]
        (toUtf16 turns (t.drop m)).map fun e => e.map (stored ++ ·)

/-- `ntfs_utf8_to_utf16` into a buffer that is allocated: its size with the terminator, and the
units before that. -/
def ntfsUtf8ToUtf16 (pathMax : Nat) (ins : List Nat) :
    Option (Except NameError (Nat × List Nat)) :=
  match utf8ToUtf16Size pathMax ins 0 with
  | .error e => some (.error e)
  | .ok shorts => (toUtf16 (ins.length + 1) ins).map fun e => e.map fun units => (shorts + 1, units)

/-! ## Texts -/

/-- What a name has before its terminator. -/
def text (ins : List Nat) : List Nat := ins.takeWhile (· ≠ 0)

theorem text_cons {c : Nat} (some' : c ≠ 0) (ins : List Nat) : text (c :: ins) = c :: text ins :=
  List.takeWhile_cons_of_pos (decide_eq_true some')

theorem text_zero (ins : List Nat) : text (0 :: ins) = [] := rfl

/-- A name that has been measured is a text, of which the size is that of its bytes. -/
theorem measured_text {outsLen : Nat} {ins : List Nat} (wide : ∀ c ∈ ins, c < 0x10000) :
    (∀ count size, utf16ToUtf8Size outsLen ins false count = .ok size →
      ∃ ps, (∀ p ∈ ps, Scalar p) ∧ text ins = units ps ∧ size = count + (bytes ps).length) ∧
    (∀ h count size, 0xd800 ≤ h ∧ h < 0xdc00 → utf16ToUtf8Size outsLen ins true count = .ok size →
      ∃ ps, (∀ p ∈ ps, Scalar p) ∧ h :: text ins = units ps ∧
        size = count + (bytes ps).length) := by
  induction ins with
  | nil =>
    refine ⟨fun count size made => ⟨[], fun p among => (List.not_mem_nil among).elim, rfl, ?_⟩,
      fun h count size _ made => by cases made⟩
    exact (Except.ok.inj made).symm
  | cons c ins ih =>
    obtain ⟨single, pair⟩ := ih fun c' among => wide c' (List.mem_cons_of_mem c among)
    have own := wide c List.mem_cons_self
    have continue' {surrog : Bool} {count size : Nat} (made : (if count > outsLen then
        .error .enametoolong else utf16ToUtf8Size outsLen ins surrog count) = .ok size) :
        utf16ToUtf8Size outsLen ins surrog count = .ok size := by
      split at made
      · cases made
      · exact made
    by_cases ended : c = 0
    · rw [ended]
      refine ⟨fun count size made => ⟨[], fun p among => (List.not_mem_nil among).elim, rfl, ?_⟩,
        fun h count size _ made => by cases made⟩
      exact (Except.ok.inj made).symm
    · rw [text_cons ended]
      -- a unit that is a scalar by itself
      have alone {count size : Nat} (scalar : Scalar c)
          (made : utf16ToUtf8Size outsLen ins false (count + (utf8 c).length) = .ok size) :
          ∃ ps, (∀ p ∈ ps, Scalar p) ∧ c :: text ins = units ps ∧
            size = count + (bytes ps).length := by
        obtain ⟨ps, scalars, same, length⟩ := single _ _ made
        refine ⟨c :: ps, List.forall_mem_cons.mpr ⟨scalar, scalars⟩, ?_, ?_⟩
        · rw [units_cons, utf16, if_pos own, ← same]
          rfl
        · rw [bytes_cons, List.length_append, length, Nat.add_assoc]
      constructor
      · intro count size made
        rw [utf16ToUtf8Size, if_neg ended] at made
        dsimp only at made
        rw [if_neg Bool.false_ne_true] at made
        split at made
        · rename_i one
          refine alone ⟨by omega, by omega, by omega⟩ ?_
          rw [utf8, if_pos one]
          exact continue' made
        · split at made
          · rename_i one two
            refine alone ⟨by omega, by omega, by omega⟩ ?_
            rw [utf8, if_neg one, if_pos two]
            exact continue' made
          · rename_i one two
            have three : (utf8 c).length = 3 := by
              rw [utf8, if_neg one, if_neg two, if_pos own]
              rfl
            split at made
            · refine alone ⟨by omega, by omega, by omega⟩ ?_
              rw [three]
              exact continue' made
            · split at made
              · exact pair c _ _ (by omega) (continue' made)
              · split at made
                · refine alone ⟨by omega, by omega, by omega⟩ ?_
                  rw [three]
                  exact continue' made
                · cases made
      · intro h count size first made
        rw [utf16ToUtf8Size, if_neg ended] at made
        dsimp only at made
        rw [if_pos rfl] at made
        split at made
        · rename_i second
          obtain ⟨ps, scalars, same, length⟩ := single _ _ (continue' made)
          refine ⟨paired h c :: ps,
            List.forall_mem_cons.mpr ⟨paired_scalar first second, scalars⟩, ?_, ?_⟩
          · rw [units_cons, utf16_paired first second, ← same]
            rfl
          · have four : (utf8 (paired h c)).length = 4 := by
              have above := le_paired h c
              rw [utf8, if_neg (by omega), if_neg (by omega), if_neg (by omega)]
              rfl
            rw [bytes_cons, List.length_append, four, length, Nat.add_assoc]
        · cases made

end NameEncoding
