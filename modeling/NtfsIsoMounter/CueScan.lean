import NtfsIsoMounter.CueSheets

/-!
# How far the scan of a cue sheet reads

The text given to `cobra_parse_cue` ends with its first terminator. Three kinds
of entries cut off by the terminator lead the scan behind it: an opening quote
that is not closed, the type of the first track without its last character, and
an index whose minutes or seconds are followed by nothing.
-/

namespace CueScan

open CText CueSheets

/-- A text that ends with its only terminator. -/
inductive Text : List UInt8 → Prop
  | nul : Text [0]
  | byte {b : UInt8} {p : List UInt8} : b ≠ 0 → Text p → Text (b :: p)

theorem text_of_plain {t : List UInt8} (plain : ∀ b ∈ t, b ≠ 0) : Text (t ++ [0]) := by
  induction t with
  | nil => exact .nul
  | cons b t ih =>
    exact .byte (plain b List.mem_cons_self) (ih fun c hc => plain c (List.mem_cons_of_mem b hc))

theorem text_cString (text : List UInt8) : Text (cString text ++ [0]) := text_of_plain cString_plain

theorem Text.tail {b : UInt8} {p : List UInt8} (text : Text (b :: p)) (more : b ≠ 0) : Text p := by
  cases text with
  | nul => exact absurd rfl more
  | byte _ rest => exact rest

/-- The text from its first byte above a space on, if that stands in this line. -/
def field : List UInt8 → Option (List UInt8)
  | [] => none
  | b :: p => if 32 < b then some (b :: p) else if b = 10 ∨ b = 0 then none else field p

theorem skipSpaces_field (st : CueState) (go : List UInt8 → Option Next) {p q : List UInt8}
    (found : field p = some q) : skipSpaces st go p = go q := by
  induction p with
  | nil => cases found
  | cons b p ih =>
    rw [field] at found
    by_cases visible : 32 < b
    · rw [if_pos visible] at found
      rw [skipSpaces, if_neg (UInt8.not_le.mpr visible), Option.some.inj found]
    · rw [if_neg visible] at found
      split at found
      · cases found
      · rename_i inside
        rw [not_or] at inside
        rw [skipSpaces, if_pos (UInt8.not_lt.mp visible), if_neg inside.1, if_neg inside.2,
          ih found]

theorem field_text {p q : List UInt8} (text : Text p) (found : field p = some q) :
    Text q ∧ q.length ≤ p.length := by
  induction text with
  | nul => cases found
  | @byte b p more rest ih =>
    rw [field] at found
    split at found
    · rw [← Option.some.inj found]
      exact ⟨.byte more rest, le_rfl⟩
    · split at found
      · cases found
      · exact ⟨(ih found).1, (ih found).2.trans (Nat.le_succ _)⟩

/-- Without a visible byte the line or the scan ends. -/
theorem skipSpaces_blank (st : CueState) (go : List UInt8 → Option Next) {p : List UInt8}
    (text : Text p) (blank : field p = none) :
    skipSpaces st go p = some (.stop st) ∨
      ∃ q, skipSpaces st go p = some (.again q st) ∧ Text q ∧ q.length < p.length := by
  induction text with
  | nul => exact Or.inl rfl
  | @byte b p more rest ih =>
    rw [field] at blank
    split at blank
    · cases blank
    · rename_i low
      rw [skipSpaces, if_pos (UInt8.not_lt.mp low)]
      by_cases newline : b = 10
      · rw [if_pos newline]
        exact Or.inr ⟨p, rfl, rest, Nat.lt_succ_self _⟩
      · rw [if_neg (not_or.mpr ⟨newline, more⟩)] at blank
        rw [if_neg newline, if_neg more]
        rcases ih blank with stop | ⟨q, again, text, shorter⟩
        · exact Or.inl stop
        · exact Or.inr ⟨q, again, text, shorter.trans (Nat.lt_succ_self _)⟩

/-! ## Words and numbers -/

/-- A word is compared up to its end or to the first difference. -/
theorem startsNoCase_text (word : List UInt8) {p : List UInt8} (letters : ∀ w ∈ word, upper w ≠ 0)
    (text : Text p) :
    startsNoCase word p = some false ∨
      startsNoCase word p = some true ∧ Text (p.drop word.length) := by
  induction word generalizing p with
  | nil => exact Or.inr ⟨rfl, text⟩
  | cons w word ih =>
    have first := letters w List.mem_cons_self
    cases text with
    | nul =>
      left
      rw [startsNoCase, if_neg]
      intro same
      exact first same.symm
    | @byte b p more rest =>
      rw [startsNoCase]
      by_cases same : upper b = upper w
      · rw [if_pos same]
        exact ih (fun v hv => letters v (List.mem_cons_of_mem w hv)) rest
      · rw [if_neg same]
        exact Or.inl rfl

theorem text_head {p : List UInt8} (text : Text p) : ∃ b q, p = b :: q := by
  cases text with
  | nul => exact ⟨0, [], rfl⟩
  | byte _ _ => exact ⟨_, _, rfl⟩

theorem atKeyword_text (word : List UInt8) {p : List UInt8} (letters : ∀ w ∈ word, upper w ≠ 0)
    (text : Text p) :
    atKeyword word p = some false ∨ atKeyword word p = some true ∧ Text (p.drop word.length) := by
  rcases startsNoCase_text word letters text with other | ⟨found, rest⟩
  · left
    rw [atKeyword, other]
    rfl
  · obtain ⟨b, q, behind⟩ := text_head rest
    have byte : p[word.length]? = some b := by
      rw [← List.head?_drop, behind, List.head?_cons]
    rw [atKeyword, found, Option.bind_some, if_pos rfl, byte, Option.map_some]
    cases (decide (b ≤ 32) && decide (0 < b)) with
    | false => exact Or.inl rfl
    | true => exact Or.inr ⟨rfl, rest⟩

theorem skipWhite_text {p : List UInt8} (text : Text p) :
    ∃ q, skipWhite p = some q ∧ Text q ∧ q.length ≤ p.length := by
  induction text with
  | nul => exact ⟨[0], rfl, .nul, le_rfl⟩
  | @byte b p more rest ih =>
    rw [skipWhite]
    split
    · obtain ⟨q, white, text, shorter⟩ := ih
      exact ⟨q, white, text, shorter.trans (Nat.le_succ _)⟩
    · exact ⟨b :: p, rfl, .byte more rest, le_rfl⟩

theorem readDigits_text (acc : Nat) {p : List UInt8} (text : Text p) :
    ∃ n q, readDigits acc p = some (n, q) ∧ Text q ∧ q.length ≤ p.length := by
  induction text generalizing acc with
  | nul => exact ⟨acc, [0], rfl, .nul, le_rfl⟩
  | @byte b p more rest ih =>
    rw [readDigits]
    split
    · obtain ⟨n, q, read, text, shorter⟩ := ih (acc * 10 + (b.toNat - 48))
      exact ⟨n, q, read, text, shorter.trans (Nat.le_succ _)⟩
    · exact ⟨acc, b :: p, rfl, .byte more rest, le_rfl⟩

theorem readSign_text {p : List UInt8} (text : Text p) :
    Text (readSign p).2 ∧ (readSign p).2.length ≤ p.length := by
  rw [readSign.eq_def]
  split
  · exact ⟨text.tail (by decide), Nat.le_succ _⟩
  · exact ⟨text.tail (by decide), Nat.le_succ _⟩
  · exact ⟨text, le_rfl⟩

theorem strtol_text {p : List UInt8} (text : Text p) :
    ∃ n q, strtol p = some (n, q) ∧ Text q ∧ q.length ≤ p.length := by
  obtain ⟨q, white, rest, shorter⟩ := skipWhite_text text
  obtain ⟨signed, shorter'⟩ := readSign_text rest
  rw [strtol, white, Option.bind_some]
  obtain ⟨b, r, head⟩ := text_head signed
  simp only [head]
  split
  · obtain ⟨n, s, read, text', shorter''⟩ := readDigits_text 0 signed
    rw [head] at read shorter' shorter''
    rw [read]
    exact ⟨_, s, rfl, text', by omega⟩
  · exact ⟨0, p, rfl, text, le_rfl⟩

/-- The scan for a quote ends at a quote or a newline, or has read all of the text. -/
theorem quoted_text (name : List UInt8) {p : List UInt8} (text : Text p) :
    (∃ n q, quoted name p = some (.closed n q) ∧ Text q ∧ q.length < p.length) ∨
    (∃ q, quoted name p = some (.newline q) ∧ Text q ∧ q.length < p.length) ∨
    ∃ x, p = x ++ [0] ∧ ∀ b ∈ x, b ≠ 34 ∧ b ≠ 10 ∧ b ≠ 0 := by
  induction text generalizing name with
  | nul => exact Or.inr (Or.inr ⟨[], rfl, fun b hb => by cases hb⟩)
  | @byte b p more rest ih =>
    rw [quoted]
    by_cases quote : b = 34
    · rw [if_pos quote]
      exact Or.inl ⟨name, p, rfl, rest, Nat.lt_succ_self _⟩
    · rw [if_neg quote]
      by_cases newline : b = 10
      · rw [if_pos newline]
        exact Or.inr (Or.inl ⟨p, rfl, rest, Nat.lt_succ_self _⟩)
      · rw [if_neg newline, if_neg more]
        rcases ih (name ++ [b]) with ⟨n, q, closed, text, shorter⟩ | ⟨q, ended, text, shorter⟩ |
          ⟨x, whole, plain⟩
        · exact Or.inl ⟨n, q, closed, text, shorter.trans (Nat.lt_succ_self _)⟩
        · exact Or.inr (Or.inl ⟨q, ended, text, shorter.trans (Nat.lt_succ_self _)⟩)
        · refine Or.inr (Or.inr ⟨b :: x, by rw [whole]; rfl, ?_⟩)
          intro c hc
          rcases List.mem_cons.mp hc with rfl | later
          · exact ⟨quote, newline, more⟩
          · exact plain c later

theorem quoted_ended (name : List UInt8) {x : List UInt8}
    (plain : ∀ b ∈ x, b ≠ 34 ∧ b ≠ 10 ∧ b ≠ 0) :
    quoted name (x ++ [0]) = some (.ended (name ++ x) []) := by
  induction x generalizing name with
  | nil => rw [List.append_nil]; rfl
  | cons b x ih =>
    obtain ⟨quote, newline, nul⟩ := plain b List.mem_cons_self
    rw [List.cons_append, quoted, if_neg quote, if_neg newline, if_neg nul,
      ih _ (fun c hc => plain c (List.mem_cons_of_mem b hc)), List.append_assoc]
    rfl

/-! ## Entries -/

/-- A pass that stays inside the text: it leads to a shorter rest, or to the end of
the line in what is left, or out of the loop. -/
def Inside (p : List UInt8) (st : CueState) : Next → Prop
  | .stop _ => True
  | .again q st' => Text q ∧ q.length < p.length ∧ st'.lbas = st.lbas
  | .line q _ => Text q ∧ q.length ≤ p.length

/-- An opening quote whose name runs to the terminator. -/
def OpenQuote (p : List UInt8) (st : CueState) : Prop :=
  st.binFile = false ∧ ∃ name, field (p.drop 4) = some (34 :: (name ++ [0])) ∧
    ∀ b ∈ name, b ≠ 34 ∧ b ≠ 10 ∧ b ≠ 0

/-- The first track with a type that lacks its last character. -/
def ShortType (p : List UInt8) (st : CueState) : Prop :=
  st.readIndex = false ∧ st.binFile = true ∧ st.lbas = [] ∧
    ∃ g r t, field (p.drop 5) = some g ∧ strtol g = some (1, r) ∧ field r = some t ∧
      startsNoCase (ascii "MODE2/235") t = some true ∧ t.drop 9 = [0]

/-- An index of which the minutes or the seconds are the last thing in the text. -/
def ShortIndex (p : List UInt8) (st : CueState) : Prop :=
  st.readIndex = true ∧
    ∃ g r t minutes u, field (p.drop 5) = some g ∧ strtol g = some (1, r) ∧ field r = some t ∧
      strtol t = some (minutes, u) ∧
      (u = [0] ∨ ∃ b v seconds, u = b :: v ∧ strtol v = some (seconds, [0]))

theorem inside_blank {p q : List UInt8} {st : CueState} {go : List UInt8 → Option Next}
    (text : Text q) (shorter : q.length ≤ p.length) (blank : field q = none) :
    ∃ next, skipSpaces st go q = some next ∧ Inside p st next := by
  rcases skipSpaces_blank st go text blank with stop | ⟨r, again, rest, less⟩
  · exact ⟨_, stop, trivial⟩
  · exact ⟨_, again, rest, less.trans_le shorter, rfl⟩

theorem fileEntry_text (fnSize : Nat) {p : List UInt8} {st : CueState} (text : Text (p.drop 4)) :
    (∃ next, fileEntry fnSize p st = some next ∧ Inside p st next) ∨ OpenQuote p st := by
  rw [fileEntry]
  cases named : st.binFile with
  | true => exact Or.inl ⟨_, rfl, trivial⟩
  | false =>
    rw [if_neg Bool.false_ne_true]
    have dropped : (p.drop 4).length ≤ p.length := by simp
    cases found : field (p.drop 4) with
    | none => exact Or.inl (inside_blank text dropped found)
    | some g =>
      obtain ⟨rest, shorter⟩ := field_text text found
      rw [skipSpaces_field _ _ found]
      split
      · rename_i q
        have behind : Text q := rest.tail (by decide)
        have less : q.length < p.length := shorter.trans dropped
        rcases quoted_text [] behind with ⟨n, r, closed, text', shorter'⟩ |
          ⟨r, ended, text', shorter'⟩ | ⟨x, whole, plain⟩
        · left
          rw [closed]
          exact ⟨_, rfl, text', (shorter'.trans less).le⟩
        · left
          rw [ended]
          exact ⟨_, rfl, text', shorter'.trans less, rfl⟩
        · right
          exact ⟨named, x, by rw [found, whole], plain⟩
      · exact Or.inl ⟨_, rfl, rest, shorter.trans dropped⟩

/-- The type is followed by another byte of the text, and by a second one where the
first track's is. -/
theorem supportedType_text (n : Nat) {p : List UInt8} (text : Text p) :
    (∃ ok, supportedType n p = some ok) ∨
      n = 0 ∧ startsNoCase (ascii "MODE2/235") p = some true ∧ p.drop 9 = [0] := by
  rw [supportedType]
  by_cases first : n = 0
  · rw [if_pos first]
    rcases startsNoCase_text (ascii "MODE2/235") (by decide +kernel) text with other | ⟨found, rest⟩
    · simp only [other, Option.bind_some, Bool.false_eq_true, if_false]
      exact Or.inl ⟨_, rfl⟩
    · have nine : (ascii "MODE2/235").length = 9 := rfl
      rw [nine] at rest
      cases behind : p.drop 9 with
      | nil =>
        rw [behind] at rest
        cases rest
      | cons b q =>
        rw [behind] at rest
        cases rest with
        | nul => exact Or.inr ⟨first, found, rfl⟩
        | byte more rest =>
          left
          obtain ⟨c, r, head⟩ := text_head rest
          have byte : p[10]? = some c := by
            rw [← List.head?_drop, ← List.drop_drop (i := 1) (j := 9), behind, head]
            rfl
          simp only [found, Option.bind_some, if_true, byte, Option.map_some]
          exact ⟨_, rfl⟩
  · left
    rw [if_neg first]
    rcases startsNoCase_text (ascii "AUDIO") (by decide +kernel) text with other | ⟨found, rest⟩
    · simp only [other, Option.bind_some, Bool.false_eq_true, if_false]
      exact ⟨_, rfl⟩
    · obtain ⟨b, q, behind⟩ := text_head rest
      have byte : p[5]? = some b := by
        rw [← List.head?_drop]
        exact (congrArg List.head? behind).trans rfl
      simp only [found, Option.bind_some, if_true, byte, Option.map_some]
      exact ⟨_, rfl⟩

theorem trackEntry_text {p : List UInt8} {st : CueState} (text : Text (p.drop 5)) :
    (∃ next, trackEntry p st = some next ∧ Inside p st next) ∨ ShortType p st := by
  have dropped : (p.drop 5).length ≤ p.length := by simp
  rw [trackEntry]
  cases pending : st.readIndex with
  | true => exact Or.inl ⟨_, rfl, trivial⟩
  | false =>
    rw [if_neg Bool.false_ne_true]
    cases named : st.binFile with
    | false => exact Or.inl ⟨_, rfl, trivial⟩
    | true =>
      rw [Bool.not_true, if_neg Bool.false_ne_true]
      cases found : field (p.drop 5) with
      | none => exact Or.inl (inside_blank text dropped found)
      | some g =>
        obtain ⟨rest, shorter⟩ := field_text text found
        obtain ⟨number, r, read, behind, shorter'⟩ := strtol_text rest
        rw [skipSpaces_field _ _ found, read, Option.bind_some]
        split
        · exact Or.inl ⟨_, rfl, trivial⟩
        · rename_i count
          cases type : field r with
          | none => exact Or.inl (inside_blank behind ((shorter'.trans shorter).trans dropped) type)
          | some t =>
            obtain ⟨rest', shorter''⟩ := field_text behind type
            rw [skipSpaces_field _ _ type]
            rcases supportedType_text st.lbas.length rest' with ⟨ok, supported⟩ | ⟨none', short⟩
            · left
              rw [supported, Option.map_some]
              cases ok with
              | false => exact ⟨_, rfl, trivial⟩
              | true => exact ⟨_, rfl, rest', ((shorter''.trans shorter').trans shorter).trans
                  dropped⟩
            · right
              have one : number = 1 := by
                have same := not_not.mp count
                simpa [none'] using same
              rw [one] at read
              exact ⟨pending, named, List.length_eq_zero_iff.mp none', g, r, t, found, read, type,
                short⟩

theorem indexEntry_text {p : List UInt8} {st : CueState} (text' : Text p) (text : Text (p.drop 5)) :
    (∃ next, indexEntry p st = some next ∧ Inside p st next) ∨ ShortIndex p st := by
  have dropped : (p.drop 5).length ≤ p.length := by simp
  rw [indexEntry]
  cases pending : st.readIndex with
  | false => exact Or.inl ⟨_, rfl, text', le_rfl⟩
  | true =>
    rw [Bool.not_true, if_neg Bool.false_ne_true]
    cases found : field (p.drop 5) with
    | none => exact Or.inl (inside_blank text dropped found)
    | some g =>
      obtain ⟨rest, shorter⟩ := field_text text found
      obtain ⟨number, r, read, behind, shorter'⟩ := strtol_text rest
      rw [skipSpaces_field _ _ found, read, Option.bind_some]
      have upTo := (shorter'.trans shorter).trans dropped
      split
      · exact Or.inl ⟨_, rfl, behind, upTo⟩
      · rename_i one
        rw [not_not] at one
        simp only at one
        rw [one] at read
        cases position : field r with
        | none => exact Or.inl (inside_blank behind upTo position)
        | some t =>
          obtain ⟨rest', less⟩ := field_text behind position
          obtain ⟨minutes, u, readM, behindM, lessM⟩ := strtol_text rest'
          rw [skipSpaces_field _ _ position, readM, Option.bind_some]
          cases behindM with
          | nul => exact Or.inr ⟨pending, g, r, t, minutes, [0], found, read, position, readM,
              Or.inl rfl⟩
          | @byte b v more textV =>
            obtain ⟨seconds, w, readS, behindS, lessS⟩ := strtol_text textV
            rw [List.tail?_cons, Option.bind_some, readS, Option.bind_some]
            cases behindS with
            | nul =>
              exact Or.inr ⟨pending, g, r, t, minutes, b :: v, found, read, position, readM,
                Or.inr ⟨b, v, seconds, rfl, readS⟩⟩
            | @byte c x more' textX =>
              obtain ⟨frames, y, readF, behindF, lessF⟩ := strtol_text textX
              rw [List.tail?_cons, Option.bind_some, readF, Option.bind_some]
              left
              dsimp only
              split
              · exact ⟨_, rfl, trivial⟩
              · refine ⟨_, rfl, behindF, ?_⟩
                simp only [List.length_cons] at lessM lessS
                omega

/-- An entry that the terminator cuts off, told by its keyword. -/
inductive CutOff (p : List UInt8) (st : CueState) : Prop
  | file (q : List UInt8) : field p = some q → atKeyword (ascii "FILE") q = some true →
      OpenQuote q st → CutOff p st
  | track (q : List UInt8) : field p = some q → atKeyword (ascii "TRACK") q = some true →
      ShortType q st → CutOff p st
  | index (q : List UInt8) : field p = some q → atKeyword (ascii "INDEX") q = some true →
      ShortIndex q st → CutOff p st

/-- One pass through the loop body. -/
def pass (fnSize : Nat) (p : List UInt8) (st : CueState) : Option Next :=
  skipSpaces st (fun p => entry fnSize p st) p

theorem pass_text (fnSize : Nat) {p : List UInt8} {st : CueState} (text : Text p) :
    (∃ next, pass fnSize p st = some next ∧ Inside p st next) ∨ CutOff p st := by
  rw [pass]
  cases found : field p with
  | none => exact Or.inl (inside_blank text le_rfl found)
  | some q =>
    obtain ⟨rest, shorter⟩ := field_text text found
    have within : ∀ {r : Option Next}, (∃ next, r = some next ∧ Inside q st next) →
        ∃ next, r = some next ∧ Inside p st next := by
      rintro r ⟨next, h, inside⟩
      refine ⟨next, h, ?_⟩
      cases next with
      | stop _ => trivial
      | again _ _ => exact ⟨inside.1, inside.2.1.trans_le shorter, inside.2.2⟩
      | line _ _ => exact ⟨inside.1, inside.2.trans shorter⟩
    rw [skipSpaces_field _ _ found, entry]
    rcases atKeyword_text (ascii "FILE") (by decide +kernel) rest with other | ⟨file, behind⟩
    · rw [other, Option.bind_some, if_neg Bool.false_ne_true]
      rcases atKeyword_text (ascii "TRACK") (by decide +kernel) rest with
        other | ⟨track, behind⟩
      · rw [other, Option.bind_some, if_neg Bool.false_ne_true]
        rcases atKeyword_text (ascii "INDEX") (by decide +kernel) rest with
          other | ⟨index, behind⟩
        · rw [other, Option.bind_some, if_neg Bool.false_ne_true]
          exact Or.inl ⟨_, rfl, rest, shorter⟩
        · rw [index, Option.bind_some, if_pos rfl]
          exact (indexEntry_text rest behind).imp within (.index q found index)
      · rw [track, Option.bind_some, if_pos rfl]
        exact (trackEntry_text behind).imp within (.track q found track)
    · rw [file, Option.bind_some, if_pos rfl]
      exact (fileEntry_text fnSize behind).imp within (.file q found file)

/-! ## A cut-off entry is read past its end -/

/-- A keyword starts with its own first letter. -/
theorem atKeyword_other {w v : UInt8} {word other p : List UInt8} (differ : upper w ≠ upper v)
    (found : atKeyword (w :: word) p = some true) : atKeyword (v :: other) p = some false := by
  cases p with
  | nil => cases found
  | cons b p =>
    have same : upper b = upper w := by
      by_contra h
      rw [atKeyword, startsNoCase, if_neg h] at found
      cases found
    rw [atKeyword, startsNoCase, if_neg (same ▸ differ)]
    rfl

theorem fileEntry_cutOff (fnSize : Nat) {p : List UInt8} {st : CueState} (cut : OpenQuote p st) :
    fileEntry fnSize p st = none := by
  obtain ⟨named, name, found, plain⟩ := cut
  rw [fileEntry, if_neg (by rw [named]; exact Bool.false_ne_true), skipSpaces_field _ _ found]
  change (quoted [] (name ++ [0])).bind _ = none
  rw [quoted_ended [] plain]
  rfl

theorem trackEntry_cutOff {p : List UInt8} {st : CueState} (cut : ShortType p st) :
    trackEntry p st = none := by
  obtain ⟨pending, named, first, g, r, t, found, read, type, word, short⟩ := cut
  have behind : t[10]? = none := by
    rw [← List.head?_drop, ← List.drop_drop (i := 1) (j := 9), short]
    rfl
  have supported : supportedType st.lbas.length t = none := by
    rw [supportedType, first]
    simp only [List.length_nil, if_true, word, Option.bind_some, behind, Option.map_none]
  have count : (1 : Int) = (st.lbas.length : Int) + 1 := by
    rw [first]
    rfl
  rw [trackEntry, if_neg (by rw [pending]; exact Bool.false_ne_true),
    if_neg (by rw [named]; exact Bool.false_ne_true), skipSpaces_field _ _ found, read,
    Option.bind_some, if_neg (not_not.mpr count), skipSpaces_field _ _ type, supported]
  rfl

theorem indexEntry_cutOff {p : List UInt8} {st : CueState} (cut : ShortIndex p st) :
    indexEntry p st = none := by
  obtain ⟨pending, g, r, t, minutes, u, found, read, position, readM, short⟩ := cut
  have nothing : strtol [] = none := rfl
  rw [indexEntry, if_neg (by rw [pending]; exact Bool.false_ne_true), skipSpaces_field _ _ found,
    read, Option.bind_some, if_neg (not_not.mpr rfl), skipSpaces_field _ _ position, readM,
    Option.bind_some]
  rcases short with rfl | ⟨b, v, seconds, rfl, readS⟩
  · rw [List.tail?_cons, Option.bind_some, nothing]
    rfl
  · rw [List.tail?_cons, Option.bind_some, readS, Option.bind_some, List.tail?_cons,
      Option.bind_some, nothing]
    rfl

theorem pass_cutOff (fnSize : Nat) {p : List UInt8} {st : CueState} (cut : CutOff p st) :
    pass fnSize p st = none := by
  cases cut with
  | file q found word cut =>
    rw [pass, skipSpaces_field _ _ found, entry, word, Option.bind_some, if_pos rfl,
      fileEntry_cutOff fnSize cut]
  | track q found word cut =>
    have other : atKeyword (ascii "FILE") q = some false := atKeyword_other (by decide) word
    rw [pass, skipSpaces_field _ _ found, entry, other, Option.bind_some,
      if_neg Bool.false_ne_true, word, Option.bind_some, if_pos rfl, trackEntry_cutOff cut]
  | index q found word cut =>
    have other : atKeyword (ascii "FILE") q = some false := atKeyword_other (by decide) word
    have other' : atKeyword (ascii "TRACK") q = some false := atKeyword_other (by decide) word
    rw [pass, skipSpaces_field _ _ found, entry, other, Option.bind_some,
      if_neg Bool.false_ne_true, other', Option.bind_some, if_neg Bool.false_ne_true, word,
      Option.bind_some, if_pos rfl, indexEntry_cutOff cut]

/-! ## Turns of the loop -/

/-- A turn from `continue_loop` ends the scan or leads there again. -/
inductive Turn where
  | done (st : CueState)
  | next (p : List UInt8) (st : CueState)
  deriving DecidableEq

def turn (maxTracks fnSize : Nat) (p : List UInt8) (st : CueState) : Option Turn :=
  (pass fnSize p st).bind fun next =>
    match next with
    | .stop st => some (.done st)
    | .again p st => some (.next p st)
    | .line p st =>
      (lineEnd p).map fun p =>
        if p.head? = some 0 then .done st
        else if st.lbas.length < maxTracks then .next p st
        else .done st

theorem scan_turn (maxTracks fnSize fuel : Nat) (p : List UInt8) (st : CueState) :
    scan maxTracks fnSize (fuel + 1) p st =
      (turn maxTracks fnSize p st).bind fun t =>
        match t with
        | .done st => some st
        | .next p st => scan maxTracks fnSize fuel p st := by
  rw [scan, turn, pass]
  cases skipSpaces st (fun p => entry fnSize p st) p with
  | none => rfl
  | some next =>
    cases next with
    | stop st => rfl
    | again p st => rfl
    | line p st =>
      simp only [Option.bind_some]
      cases lineEnd p with
      | none => rfl
      | some q =>
        simp only [Option.bind_some, Option.map_some]
        split
        · rfl
        · split <;> rfl

theorem lineEnd_text {p : List UInt8} (text : Text p) :
    ∃ q, lineEnd p = some q ∧ Text q ∧ q.length ≤ p.length := by
  induction text with
  | nul => exact ⟨[0], rfl, .nul, le_rfl⟩
  | @byte b p more rest ih =>
    rw [lineEnd]
    split
    · exact ⟨b :: p, rfl, .byte more rest, le_rfl⟩
    · obtain ⟨q, ends, text, shorter⟩ := ih
      exact ⟨q, ends, text, shorter.trans (Nat.le_succ _)⟩

theorem lineEnd_head {p q : List UInt8} (ends : lineEnd p = some q) (more : q.head? ≠ some 0) :
    q.head? = some 10 := by
  induction p with
  | nil => cases ends
  | cons b p ih =>
    rw [lineEnd] at ends
    split at ends
    · rename_i stops
      rw [← Option.some.inj ends, List.head?_cons] at more ⊢
      rcases stops with newline | nul
      · rw [newline]
      · exact absurd (congrArg some nul) more
    · exact ih ends

/-- A newline at the front is taken off by the next turn. -/
def weight (p : List UInt8) : Nat := 2 * p.length + if p.head? = some 10 then 0 else 1

/-- What is left of the text after a turn, and room for one more track there. -/
structure Onward (maxTracks : Nat) (p : List UInt8) (st : CueState) (q : List UInt8)
    (st' : CueState) : Prop where
  text : Text q
  less : weight q < weight p
  room : st.lbas.length < maxTracks → st'.lbas.length < maxTracks

theorem turn_text (maxTracks fnSize : Nat) {p : List UInt8} {st : CueState} (text : Text p)
    (whole : ¬ CutOff p st) :
    (∃ st', turn maxTracks fnSize p st = some (.done st')) ∨
      ∃ q st', turn maxTracks fnSize p st = some (.next q st') ∧ Onward maxTracks p st q st' := by
  obtain ⟨next, passed, inside⟩ := (pass_text fnSize text).resolve_right whole
  rw [turn, passed, Option.bind_some]
  cases next with
  | stop st' => exact Or.inl ⟨st', rfl⟩
  | again q st' =>
    obtain ⟨rest, shorter, same⟩ := inside
    refine Or.inr ⟨q, st', rfl, rest, ?_, fun room => by rw [same]; exact room⟩
    simp only [weight]
    split <;> split <;> omega
  | line r st' =>
    obtain ⟨rest, shorter⟩ := inside
    obtain ⟨q, ends, text', shorter'⟩ := lineEnd_text rest
    simp only [ends, Option.map_some]
    by_cases last : q.head? = some 0
    · rw [if_pos last]
      exact Or.inl ⟨st', rfl⟩
    · rw [if_neg last]
      by_cases room : st'.lbas.length < maxTracks
      · rw [if_pos room]
        refine Or.inr ⟨q, st', rfl, text', ?_, fun _ => room⟩
        -- a line that starts with its newline does not come this way
        have visible : p.head? ≠ some 10 := by
          intro newline
          cases p with
          | nil => cases newline
          | cons b p =>
            rw [Option.some.inj newline] at passed
            cases passed
        rw [weight, weight, if_pos (lineEnd_head ends last), if_neg visible]
        omega
      · rw [if_neg room]
        exact Or.inl ⟨st', rfl⟩

theorem turn_cutOff (maxTracks fnSize : Nat) {p : List UInt8} {st : CueState} (cut : CutOff p st) :
    turn maxTracks fnSize p st = none := by
  rw [turn, pass_cutOff fnSize cut]
  rfl

/-! ## The whole scan -/

/-- The state the loop starts with. -/
def start : CueState := ⟨false, false, [], .eabort, none⟩

/-- The places in the text, with their states, that the scan comes to at `continue_loop`. -/
inductive Visited (maxTracks fnSize : Nat) (text : List UInt8) : List UInt8 → CueState → Prop
  | start : Visited maxTracks fnSize text text start
  | turn {p q : List UInt8} {st st' : CueState} : Visited maxTracks fnSize text p st →
      turn maxTracks fnSize p st = some (.next q st') → Visited maxTracks fnSize text q st'

/-- Some turns, none of which ends the scan. -/
def turns (maxTracks fnSize : Nat) : Nat → List UInt8 → CueState → Option (List UInt8 × CueState)
  | 0, p, st => some (p, st)
  | n + 1, p, st =>
    (turn maxTracks fnSize p st).bind fun t =>
      match t with
      | .done _ => none
      | .next p st => turns maxTracks fnSize n p st

theorem visited_turns {maxTracks fnSize n : Nat} {text p q : List UInt8} {st st' : CueState}
    (visited : Visited maxTracks fnSize text p st)
    (there : turns maxTracks fnSize n p st = some (q, st')) :
    Visited maxTracks fnSize text q st' := by
  induction n generalizing p st with
  | zero =>
    cases there
    exact visited
  | succ n ih =>
    rw [turns] at there
    obtain ⟨t, step, there⟩ := Option.bind_eq_some_iff.mp there
    cases t with
    | done _ => cases there
    | next _ _ => exact ih (.turn visited step) there

/-- The places of the first turns. -/
def places (maxTracks fnSize n : Nat) (text : List UInt8) : List (List UInt8 × CueState) :=
  (List.range n).filterMap fun k => turns maxTracks fnSize k text start

/-- A list from which no turn leads away has all places that are visited. -/
theorem visited_mem {maxTracks fnSize : Nat} {text : List UInt8}
    {l : List (List UInt8 × CueState)} (first : (text, start) ∈ l)
    (closed : ∀ x ∈ l, ∀ y ∈ turns maxTracks fnSize 1 x.1 x.2, y ∈ l) {p : List UInt8}
    {st : CueState} (visited : Visited maxTracks fnSize text p st) : (p, st) ∈ l := by
  induction visited with
  | start => exact first
  | turn before step ih =>
    refine closed _ ih _ ?_
    rw [turns, step]
    rfl

section Scan
variable {maxTracks fnSize : Nat} {text : List UInt8}

/-- Every place visited is in the text, with room for a track. -/
theorem visited_text (whole : Text text) (positive : 0 < maxTracks) {p : List UInt8} {st : CueState}
    (visited : Visited maxTracks fnSize text p st) : Text p ∧ st.lbas.length < maxTracks := by
  induction visited with
  | start => exact ⟨whole, positive⟩
  | @turn p q st st' before step ih =>
    by_cases cut : CutOff p st
    · rw [turn_cutOff maxTracks fnSize cut] at step
      cases step
    · rcases turn_text maxTracks fnSize ih.1 cut with ⟨_, done⟩ | ⟨r, st'', next, onward⟩
      · rw [done] at step
        cases step
      · rw [next] at step
        cases step
        exact ⟨onward.text, onward.room ih.2⟩

/-- Where no entry is cut off, enough turns end the scan. -/
theorem scan_ends (clear : ∀ p st, Visited maxTracks fnSize text p st → ¬ CutOff p st) (fuel : Nat)
    {p : List UInt8} {st : CueState} (visited : Visited maxTracks fnSize text p st)
    (inside : Text p)
    (enough : weight p ≤ fuel) : ∃ st', scan maxTracks fnSize fuel p st = some st' := by
  induction fuel generalizing p st with
  | zero =>
    obtain ⟨b, q, rfl⟩ := text_head inside
    simp only [weight, List.length_cons] at enough
    omega
  | succ fuel ih =>
    rw [scan_turn]
    rcases turn_text maxTracks fnSize inside (clear p st visited) with ⟨st', done⟩ |
      ⟨q, st', next, onward⟩
    · rw [done]
      exact ⟨st', rfl⟩
    · rw [next]
      exact ih (.turn visited next) onward.text (Nat.le_of_lt_succ (onward.less.trans_le enough))

/-- A scan that has a result had one from every place it visited. -/
theorem scan_visited {fuel : Nat} (ends : (scan maxTracks fnSize fuel text start).isSome)
    {p : List UInt8} {st : CueState} (visited : Visited maxTracks fnSize text p st) :
    ∃ fuel, (scan maxTracks fnSize fuel p st).isSome := by
  induction visited with
  | start => exact ⟨fuel, ends⟩
  | @turn p q st st' before step ih =>
    obtain ⟨fuel, ends⟩ := ih
    cases fuel with
    | zero => cases ends
    | succ fuel =>
      rw [scan_turn, step] at ends
      exact ⟨fuel, ends⟩

/-- The memory readable and writable is the text up to its first terminator: the
scan ends without an access outside it, and every track is stored below `maxTracks`. -/
def StaysInside (maxTracks : UInt32) (fnSize : Nat) (text : List UInt8) : Prop :=
  (cobraParseCue (some (cString text ++ [0])) maxTracks fnSize).isSome ∧
    ∀ p st, Visited maxTracks.toNat fnSize (cString text ++ [0]) p st →
      st.lbas.length < maxTracks.toNat

/-- The scan stays inside the text exactly where it comes to no entry that the
terminator cuts off. -/
theorem cobraParseCue_staysInside_iff {maxTracks : UInt32} (positive : 0 < maxTracks.toNat)
    (fnSize : Nat) (text : List UInt8) :
    StaysInside maxTracks fnSize text ↔
      ∀ p st, Visited maxTracks.toNat fnSize (cString text ++ [0]) p st → ¬ CutOff p st := by
  have whole := text_cString text
  have parse : (cobraParseCue (some (cString text ++ [0])) maxTracks fnSize).isSome =
      (scan maxTracks.toNat fnSize (2 * (cString text ++ [0]).length + 1) (cString text ++ [0])
        start).isSome := by
    rw [cobraParseCue]
    simp only [if_pos positive, Option.isSome_map]
    rfl
  constructor
  · rintro ⟨ends, -⟩ p st visited cut
    rw [parse] at ends
    obtain ⟨fuel, ends⟩ := scan_visited ends visited
    cases fuel with
    | zero => cases ends
    | succ fuel =>
      rw [scan_turn, turn_cutOff _ _ cut] at ends
      cases ends
  · intro clear
    constructor
    · have enough : weight (cString text ++ [0]) ≤ 2 * (cString text ++ [0]).length + 1 := by
        rw [weight]
        split <;> omega
      obtain ⟨st, scanned⟩ := scan_ends clear _ .start whole enough
      rw [parse, scanned]
      rfl
    · intro p st visited
      exact (visited_text whole positive visited).2

end Scan

/-- A sheet with a data track and an audio track. -/
def twoTracks : List UInt8 :=
  ascii "FILE \"a.bin\" BINARY\n  TRACK 01 MODE2/2352\n    INDEX 01 00:00:00\n  TRACK 02 AUDIO\n" ++
    ascii "    INDEX 00 02:08:05\n    INDEX 01 02:10:05\n\x00"

theorem cobraParseCue_staysInside_twoTracks : StaysInside 100 64 twoTracks := by
  refine (cobraParseCue_staysInside_iff (by decide) 64 twoTracks).mpr fun p st visited cut => ?_
  have here := visited_mem (l := places 100 64 13 (cString twoTracks ++ [0])) (by decide +kernel)
    (by decide +kernel) visited
  have onward : ∀ x ∈ places 100 64 13 (cString twoTracks ++ [0]),
      (turn 100 64 x.1 x.2).isSome = true := by
    decide +kernel
  have some' := onward _ here
  rw [turn_cutOff _ _ cut] at some'
  cases some'

/-- A file name without its closing quote. -/
theorem openQuote_leaves : ¬ StaysInside 100 64 (ascii "FILE \"a") := by
  rintro ⟨ends, -⟩
  revert ends
  decide +kernel

end CueScan
