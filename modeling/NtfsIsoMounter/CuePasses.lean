import NtfsIsoMounter.CueScan

/-!
# What one pass of the scan of a cue sheet does

A pass leaves the locals alone, or it takes a file name, the type of a track or
the position of an index, or it refuses the entry. Whatever the bytes behind the
text are, it never goes back, so the scan is a chain of passes.
-/

namespace CuePasses

open CText CueSheets CueScan

/-! ## The pointer never goes back -/

theorem field_length {p q : List UInt8} (found : field p = some q) : q.length ≤ p.length := by
  induction p with
  | nil => cases found
  | cons b p ih =>
    rw [field] at found
    split at found
    · rw [← Option.some.inj found]
    · split at found
      · cases found
      · exact (ih found).trans (Nat.le_succ _)

theorem skipWhite_length {p q : List UInt8} (white : skipWhite p = some q) :
    q.length ≤ p.length := by
  induction p with
  | nil => cases white
  | cons b p ih =>
    rw [skipWhite] at white
    split at white
    · exact (ih white).trans (Nat.le_succ _)
    · rw [← Option.some.inj white]

theorem readDigits_length {acc n : Nat} {p q : List UInt8}
    (read : readDigits acc p = some (n, q)) : q.length ≤ p.length := by
  induction p generalizing acc with
  | nil => cases read
  | cons b p ih =>
    rw [readDigits] at read
    split at read
    · exact (ih read).trans (Nat.le_succ _)
    · cases read
      exact le_rfl

theorem readSign_length (p : List UInt8) : (readSign p).2.length ≤ p.length := by
  rw [readSign.eq_def]
  split
  · exact Nat.le_succ _
  · exact Nat.le_succ _
  · exact le_rfl

theorem strtol_length {n : Int} {p q : List UInt8} (read : strtol p = some (n, q)) :
    q.length ≤ p.length := by
  rw [strtol] at read
  obtain ⟨r, white, read⟩ := Option.bind_eq_some_iff.mp read
  have shorter := (readSign_length r).trans (skipWhite_length white)
  dsimp only at read
  split at read
  · cases read
  · split at read
    · obtain ⟨⟨n', r'⟩, digits, same⟩ := Option.map_eq_some_iff.mp read
      cases same
      exact (readDigits_length digits).trans shorter
    · cases read
      exact le_rfl

theorem lineEnd_length {p q : List UInt8} (ends : lineEnd p = some q) : q.length ≤ p.length := by
  induction p with
  | nil => cases ends
  | cons b p ih =>
    rw [lineEnd] at ends
    split at ends
    · rw [← Option.some.inj ends]
    · exact (ih ends).trans (Nat.le_succ _)

/-- What the scan for the closing quote has read. -/
def Plain (name : List UInt8) : Prop := ∀ b ∈ name, b ≠ 34 ∧ b ≠ 10 ∧ b ≠ 0

theorem quoted_cases {name p : List UInt8} {r : Quoted} (scanned : quoted name p = some r) :
    ∃ x q, Plain x ∧ (p = x ++ 34 :: q ∧ r = .closed (name ++ x) q ∨
      p = x ++ 10 :: q ∧ r = .newline q ∨ p = x ++ 0 :: q ∧ r = .ended (name ++ x) q) := by
  induction p generalizing name with
  | nil => cases scanned
  | cons b p ih =>
    have none' : Plain [] := fun c hc => by cases hc
    rw [quoted] at scanned
    by_cases quote : b = 34
    · rw [if_pos quote] at scanned
      cases scanned
      exact ⟨[], p, none', Or.inl ⟨by rw [quote]; rfl, by rw [List.append_nil]⟩⟩
    · rw [if_neg quote] at scanned
      by_cases newline : b = 10
      · rw [if_pos newline] at scanned
        cases scanned
        exact ⟨[], p, none', Or.inr (Or.inl ⟨by rw [newline]; rfl, rfl⟩)⟩
      · rw [if_neg newline] at scanned
        by_cases nul : b = 0
        · rw [if_pos nul] at scanned
          cases scanned
          exact ⟨[], p, none', Or.inr (Or.inr ⟨by rw [nul]; rfl, by rw [List.append_nil]⟩)⟩
        · rw [if_neg nul] at scanned
          obtain ⟨x, q, plain, shape⟩ := ih scanned
          have more : Plain (b :: x) := by
            intro c hc
            rcases List.mem_cons.mp hc with rfl | later
            · exact ⟨quote, newline, nul⟩
            · exact plain c later
          have join : name ++ [b] ++ x = name ++ b :: x := by
            rw [List.append_assoc, List.singleton_append]
          refine ⟨b :: x, q, more, ?_⟩
          rw [join] at shape
          rcases shape with ⟨rfl, same⟩ | ⟨rfl, same⟩ | ⟨rfl, same⟩
          · exact Or.inl ⟨rfl, same⟩
          · exact Or.inr (Or.inl ⟨rfl, same⟩)
          · exact Or.inr (Or.inr ⟨rfl, same⟩)

theorem skipSpaces_cases {st : CueState} {go : List UInt8 → Option Next} {p : List UInt8}
    {next : Next} (skipped : skipSpaces st go p = some next) :
    (field p = none ∧ (next = .stop st ∨ ∃ q, next = .again q st ∧ q.length < p.length)) ∨
      ∃ q, field p = some q ∧ go q = some next := by
  induction p with
  | nil => cases skipped
  | cons b p ih =>
    rw [skipSpaces] at skipped
    rw [field]
    by_cases low : b ≤ 32
    · rw [if_pos low] at skipped
      rw [if_neg (UInt8.not_lt.mpr low)]
      by_cases newline : b = 10
      · rw [if_pos newline] at skipped
        cases skipped
        exact Or.inl ⟨if_pos (Or.inl newline), Or.inr ⟨p, rfl, Nat.lt_succ_self _⟩⟩
      · rw [if_neg newline] at skipped
        by_cases nul : b = 0
        · rw [if_pos nul] at skipped
          cases skipped
          exact Or.inl ⟨if_pos (Or.inr nul), Or.inl rfl⟩
        · rw [if_neg nul] at skipped
          rw [if_neg (not_or.mpr ⟨newline, nul⟩)]
          rcases ih skipped with ⟨blank, stop | ⟨q, again, shorter⟩⟩ | visible
          · exact Or.inl ⟨blank, Or.inl stop⟩
          · exact Or.inl ⟨blank, Or.inr ⟨q, again, shorter.trans (Nat.lt_succ_self _)⟩⟩
          · exact Or.inr visible
    · rw [if_neg low] at skipped
      rw [if_pos (UInt8.not_le.mp low)]
      exact Or.inr ⟨b :: p, rfl, skipped⟩

/-! ## The entries of a cue sheet -/

/-- Behind the spaces at `p` stands an entry with this word. -/
def EntryAt (word p q : List UInt8) : Prop := field p = some q ∧ atKeyword word q = some true

/-- A file entry with an opening quote; `r` is the text behind the quote. -/
def QuoteAt (p r : List UInt8) : Prop :=
  ∃ q, EntryAt (ascii "FILE") p q ∧ field (q.drop 4) = some (34 :: r)

/-- A track entry with its number; `t` is the text from the type on. -/
def TypeAt (p : List UInt8) (number : Int) (t : List UInt8) : Prop :=
  ∃ q g r, EntryAt (ascii "TRACK") p q ∧ field (q.drop 5) = some g ∧
    strtol g = some (number, r) ∧ field r = some t

/-- An entry of index 1; `r` is the text behind this number. -/
def IndexAt (p r : List UInt8) : Prop :=
  ∃ q g, EntryAt (ascii "INDEX") p q ∧ field (q.drop 5) = some g ∧ strtol g = some (1, r)

/-- What the scan takes for minutes, seconds and frames, and the text it goes on with. -/
def Numbers (r : List UInt8) (m s f : Int) (w : List UInt8) : Prop :=
  ∃ t b u c v, field r = some t ∧ strtol t = some (m, b :: u) ∧ strtol u = some (s, c :: v) ∧
    strtol v = some (f, w)

/-- The address stored for three numbers. -/
def address (m s f : Int) : Nat := msfToLba (toByte m) (toByte s) (toByte f)

/-- The entries that the scan's own tests refuse. -/
inductive Refused (p : List UInt8) (st : CueState) : Prop
  | pending {q : List UInt8} : EntryAt (ascii "TRACK") p q → st.readIndex = true → Refused p st
  | unnamed {q : List UInt8} : EntryAt (ascii "TRACK") p q → st.binFile = false → Refused p st
  | type {t : List UInt8} : TypeAt p (st.lbas.length + 1) t →
      supportedType st.lbas.length t = some false → Refused p st
  | index {r w : List UInt8} {m s f : Int} : IndexAt p r → st.readIndex = true →
      Numbers r m s f w → st.lbas = [] → address m s f ≠ 0 → Refused p st

/-- Everything a pass can do. -/
inductive Passed (fnSize : Nat) (p : List UInt8) (st : CueState) : Next → Prop
  | stop : Passed fnSize p st (.stop st)
  | again {q : List UInt8} : q.length < p.length → Passed fnSize p st (.again q st)
  | line {q : List UInt8} : q.length ≤ p.length → Passed fnSize p st (.line q st)
  | named {name q : List UInt8} : QuoteAt p (name ++ 34 :: q) → Plain name → st.binFile = false →
      q.length ≤ p.length → Passed fnSize p st (.line q
        { st with binFile := true, filename := some (strncpy (lastTrail name) fnSize) })
  | unclosed {name q : List UInt8} : QuoteAt p (name ++ 10 :: q) → Plain name →
      st.binFile = false → q.length < p.length →
      Passed fnSize p st (.again q { st with binFile := true })
  | ended {name q : List UInt8} {b : UInt8} : QuoteAt p (name ++ 0 :: b :: q) → Plain name →
      st.binFile = false → q.length ≤ p.length → Passed fnSize p st (.line q
        { st with
          binFile := true, lbas := [], ret := .eabort,
          filename := some (strncpy (lastTrail name) fnSize) })
  | track {t : List UInt8} : TypeAt p (st.lbas.length + 1) t → st.readIndex = false →
      st.binFile = true → supportedType st.lbas.length t = some true → t.length ≤ p.length →
      Passed fnSize p st (.line t { st with readIndex := true })
  | index {r w : List UInt8} {m s f : Int} : IndexAt p r → st.readIndex = true →
      Numbers r m s f w → ¬ (st.lbas = [] ∧ address m s f ≠ 0) → w.length ≤ p.length →
      Passed fnSize p st (.line w
        { st with lbas := st.lbas ++ [UInt32.ofNat (address m s f)], readIndex := false })
  | refused : Refused p st → Passed fnSize p st (.stop { st with ret := .enotsup })

theorem drop_length (n : Nat) (q : List UInt8) : (q.drop n).length ≤ q.length := by simp

theorem fileEntry_cases {fnSize : Nat} {p q : List UInt8} {st : CueState} {next : Next}
    (at' : EntryAt (ascii "FILE") p q) (done : fileEntry fnSize q st = some next) :
    Passed fnSize p st next := by
  have upTo := (drop_length 4 q).trans (field_length at'.1)
  rw [fileEntry] at done
  cases named : st.binFile with
  | true =>
    rw [if_pos named] at done
    cases done
    exact .stop
  | false =>
    rw [if_neg (by rw [named]; exact Bool.false_ne_true)] at done
    rcases skipSpaces_cases done with ⟨-, rfl | ⟨r, rfl, shorter⟩⟩ | ⟨g, found, done⟩
    · exact .stop
    · exact .again (shorter.trans_le upTo)
    · have within := (field_length found).trans upTo
      split at done
      · rename_i r
        obtain ⟨scanned, quote, done⟩ := Option.bind_eq_some_iff.mp done
        obtain ⟨name, t, plain, shape⟩ := quoted_cases quote
        rw [List.nil_append] at shape
        rcases shape with ⟨rfl, rfl⟩ | ⟨rfl, rfl⟩ | ⟨rfl, rfl⟩
        · cases done
          refine .named ⟨q, at', found⟩ plain named ?_
          simp only [List.length_cons, List.length_append] at within
          omega
        · cases done
          refine .unclosed ⟨q, at', found⟩ plain named ?_
          simp only [List.length_cons, List.length_append] at within
          omega
        · cases t with
          | nil => cases done
          | cons b t =>
            cases done
            refine .ended ⟨q, at', found⟩ plain named ?_
            simp only [List.length_cons, List.length_append] at within
            omega
      · cases done
        exact .line within

theorem trackEntry_cases {fnSize : Nat} {p q : List UInt8} {st : CueState} {next : Next}
    (at' : EntryAt (ascii "TRACK") p q) (done : trackEntry q st = some next) :
    Passed fnSize p st next := by
  have upTo := (drop_length 5 q).trans (field_length at'.1)
  rw [trackEntry] at done
  cases pending : st.readIndex with
  | true =>
    rw [if_pos pending] at done
    cases done
    exact .refused (.pending at' pending)
  | false =>
    rw [if_neg (by rw [pending]; exact Bool.false_ne_true)] at done
    cases named : st.binFile with
    | false =>
      rw [if_pos (by rw [named]; rfl)] at done
      cases done
      exact .refused (.unnamed at' named)
    | true =>
      rw [if_neg (by rw [named]; exact Bool.false_ne_true)] at done
      rcases skipSpaces_cases done with ⟨-, rfl | ⟨r, rfl, shorter⟩⟩ | ⟨g, found, done⟩
      · exact .stop
      · exact .again (shorter.trans_le upTo)
      · have within := (field_length found).trans upTo
        obtain ⟨⟨number, r⟩, read, done⟩ := Option.bind_eq_some_iff.mp done
        have behind := (strtol_length read).trans within
        by_cases count : number = (st.lbas.length : Int) + 1
        · rw [if_neg (not_not.mpr count)] at done
          rcases skipSpaces_cases done with ⟨-, rfl | ⟨s, rfl, shorter⟩⟩ | ⟨t, type, done⟩
          · exact .stop
          · exact .again (shorter.trans_le behind)
          · rw [count] at read
            have typed : TypeAt p (st.lbas.length + 1) t := ⟨q, g, r, at', found, read, type⟩
            obtain ⟨ok, supported, done⟩ := Option.map_eq_some_iff.mp done
            cases ok with
            | false =>
              cases done
              exact .refused (.type typed supported)
            | true =>
              cases done
              exact .track typed pending named supported ((field_length type).trans behind)
        · rw [if_pos count] at done
          cases done
          exact .stop

theorem tail?_some {p q : List UInt8} (tail : p.tail? = some q) : ∃ b, p = b :: q := by
  cases p with
  | nil => cases tail
  | cons b p => exact ⟨b, by rw [Option.some.inj tail]⟩

theorem indexEntry_cases {fnSize : Nat} {p q : List UInt8} {st : CueState} {next : Next}
    (at' : EntryAt (ascii "INDEX") p q) (done : indexEntry q st = some next) :
    Passed fnSize p st next := by
  have upTo := (drop_length 5 q).trans (field_length at'.1)
  rw [indexEntry] at done
  cases pending : st.readIndex with
  | false =>
    rw [if_pos (by rw [pending]; rfl)] at done
    cases done
    exact .line (field_length at'.1)
  | true =>
    rw [if_neg (by rw [pending]; exact Bool.false_ne_true)] at done
    rcases skipSpaces_cases done with ⟨-, rfl | ⟨r, rfl, shorter⟩⟩ | ⟨g, found, done⟩
    · exact .stop
    · exact .again (shorter.trans_le upTo)
    · have within := (field_length found).trans upTo
      obtain ⟨⟨number, r⟩, read, done⟩ := Option.bind_eq_some_iff.mp done
      have behind := (strtol_length read).trans within
      by_cases one : number = 1
      · rw [if_neg (not_not.mpr one)] at done
        rw [one] at read
        rcases skipSpaces_cases done with ⟨-, rfl | ⟨s, rfl, shorter⟩⟩ | ⟨t, place, done⟩
        · exact .stop
        · exact .again (shorter.trans_le behind)
        · obtain ⟨⟨m, bu⟩, readM, done⟩ := Option.bind_eq_some_iff.mp done
          obtain ⟨u, tailU, done⟩ := Option.bind_eq_some_iff.mp done
          obtain ⟨⟨s, cv⟩, readS, done⟩ := Option.bind_eq_some_iff.mp done
          obtain ⟨v, tailV, done⟩ := Option.bind_eq_some_iff.mp done
          obtain ⟨⟨f, w⟩, readF, done⟩ := Option.bind_eq_some_iff.mp done
          obtain ⟨b, rfl⟩ := tail?_some tailU
          obtain ⟨c, rfl⟩ := tail?_some tailV
          have index : IndexAt p r := ⟨q, g, at', found, read⟩
          have numbers : Numbers r m s f w := ⟨t, b, u, c, v, place, readM, readS, readF⟩
          have lessM := strtol_length readM
          have lessS := strtol_length readS
          have lessF := strtol_length readF
          have less := (field_length place).trans behind
          simp only [List.length_cons] at lessM lessS
          dsimp only at done
          split at done
          · rename_i first
            cases done
            exact .refused
              (.index index pending numbers (List.length_eq_zero_iff.mp first.1) first.2)
          · rename_i first
            cases done
            refine .index index pending numbers ?_ (by omega)
            rintro ⟨none', nonzero⟩
            exact first ⟨List.length_eq_zero_iff.mpr none', nonzero⟩
      · rw [if_pos one] at done
        cases done
        exact .line behind

/-- A pass is one of the kinds above. -/
theorem pass_cases {fnSize : Nat} {p : List UInt8} {st : CueState} {next : Next}
    (passed : pass fnSize p st = some next) : Passed fnSize p st next := by
  rw [CueScan.pass] at passed
  rcases skipSpaces_cases passed with ⟨-, rfl | ⟨q, rfl, shorter⟩⟩ | ⟨q, found, done⟩
  · exact .stop
  · exact .again shorter
  · rw [entry] at done
    obtain ⟨file, word, done⟩ := Option.bind_eq_some_iff.mp done
    cases file with
    | true => exact fileEntry_cases ⟨found, word⟩ done
    | false =>
      rw [if_neg Bool.false_ne_true] at done
      obtain ⟨track, word, done⟩ := Option.bind_eq_some_iff.mp done
      cases track with
      | true => exact trackEntry_cases ⟨found, word⟩ done
      | false =>
        rw [if_neg Bool.false_ne_true] at done
        obtain ⟨index, word, done⟩ := Option.bind_eq_some_iff.mp done
        cases index with
        | true => exact indexEntry_cases ⟨found, word⟩ done
        | false =>
          cases done
          exact .line (field_length found)

/-! ## Passes known beforehand -/

theorem entryAt_track {fnSize : Nat} {p q : List UInt8} (st : CueState)
    (at' : EntryAt (ascii "TRACK") p q) : CueScan.pass fnSize p st = trackEntry q st := by
  have other : atKeyword (ascii "FILE") q = some false := atKeyword_other (by decide) at'.2
  rw [CueScan.pass, skipSpaces_field _ _ at'.1, entry, other, Option.bind_some,
    if_neg Bool.false_ne_true, at'.2, Option.bind_some, if_pos rfl]

theorem entryAt_index {fnSize : Nat} {p q : List UInt8} (st : CueState)
    (at' : EntryAt (ascii "INDEX") p q) : CueScan.pass fnSize p st = indexEntry q st := by
  have other : atKeyword (ascii "FILE") q = some false := atKeyword_other (by decide) at'.2
  have other' : atKeyword (ascii "TRACK") q = some false := atKeyword_other (by decide) at'.2
  rw [CueScan.pass, skipSpaces_field _ _ at'.1, entry, other, Option.bind_some,
    if_neg Bool.false_ne_true, other', Option.bind_some, if_neg Bool.false_ne_true, at'.2,
    Option.bind_some, if_pos rfl]

/-- The numbers of a pending index are stored, or refused for the first one. -/
theorem pass_numbers (fnSize : Nat) {p r w : List UInt8} {st : CueState} {m s f : Int}
    (index : IndexAt p r) (pending : st.readIndex = true) (numbers : Numbers r m s f w) :
    CueScan.pass fnSize p st =
      if st.lbas = [] ∧ address m s f ≠ 0 then some (.stop { st with ret := .enotsup })
      else some (.line w
        { st with lbas := st.lbas ++ [UInt32.ofNat (address m s f)], readIndex := false }) := by
  obtain ⟨q, g, at', found, read⟩ := index
  obtain ⟨t, b, u, c, v, place, readM, readS, readF⟩ := numbers
  rw [entryAt_index st at', indexEntry, if_neg (by rw [pending]; exact Bool.false_ne_true),
    skipSpaces_field _ _ found, read, Option.bind_some, if_neg (not_not.mpr rfl),
    skipSpaces_field _ _ place, readM, Option.bind_some, List.tail?_cons, Option.bind_some, readS,
    Option.bind_some, List.tail?_cons, Option.bind_some, readF, Option.bind_some]
  simp only [List.length_eq_zero_iff]
  rfl

theorem index_numbers {fnSize : Nat} {p r : List UInt8} {st : CueState} {next : Next}
    (index : IndexAt p r) (pending : st.readIndex = true) (place : (field r).isSome)
    (passed : CueScan.pass fnSize p st = some next) : ∃ m s f w, Numbers r m s f w := by
  obtain ⟨q, g, at', found, read⟩ := index
  obtain ⟨t, place⟩ := Option.isSome_iff_exists.mp place
  rw [entryAt_index st at', indexEntry, if_neg (by rw [pending]; exact Bool.false_ne_true),
    skipSpaces_field _ _ found, read, Option.bind_some, if_neg (not_not.mpr rfl),
    skipSpaces_field _ _ place] at passed
  obtain ⟨⟨m, bu⟩, readM, passed⟩ := Option.bind_eq_some_iff.mp passed
  obtain ⟨u, tailU, passed⟩ := Option.bind_eq_some_iff.mp passed
  obtain ⟨⟨s, cv⟩, readS, passed⟩ := Option.bind_eq_some_iff.mp passed
  obtain ⟨v, tailV, passed⟩ := Option.bind_eq_some_iff.mp passed
  obtain ⟨⟨f, w⟩, readF, -⟩ := Option.bind_eq_some_iff.mp passed
  obtain ⟨b, rfl⟩ := tail?_some tailU
  obtain ⟨c, rfl⟩ := tail?_some tailV
  exact ⟨m, s, f, w, t, b, u, c, v, place, readM, readS, readF⟩

theorem pass_refused (fnSize : Nat) {p : List UInt8} {st : CueState} (refused : Refused p st) :
    CueScan.pass fnSize p st = some (.stop { st with ret := .enotsup }) := by
  cases refused with
  | pending at' pending => rw [entryAt_track st at', trackEntry, if_pos pending]
  | unnamed at' named =>
    rw [entryAt_track st at', trackEntry]
    split
    · rfl
    · rw [if_pos (by rw [named]; rfl)]
  | type typed other =>
    obtain ⟨q, g, r, at', found, read, type⟩ := typed
    rw [entryAt_track st at', trackEntry]
    split
    · rfl
    · split
      · rfl
      · rw [skipSpaces_field _ _ found, read, Option.bind_some, if_neg (not_not.mpr rfl),
          skipSpaces_field _ _ type, other, Option.map_some, if_neg Bool.false_ne_true]
  | index index pending numbers none' nonzero =>
    rw [pass_numbers fnSize index pending numbers, if_pos ⟨none', nonzero⟩]

/-! ## The scan as a chain of passes -/

/-- Every turn leaves less of the text. -/
theorem turn_less {maxTracks fnSize : Nat} {p q : List UInt8} {st st' : CueState}
    (step : turn maxTracks fnSize p st = some (.next q st')) : weight q < weight p := by
  rw [turn] at step
  obtain ⟨next, passed, step⟩ := Option.bind_eq_some_iff.mp step
  have kind := pass_cases passed
  have shorter : ∀ {q : List UInt8}, q.length < p.length → weight q < weight p := by
    intro q less
    rw [weight, weight]
    split <;> split <;> omega
  -- a line that starts with its newline ends there
  have onLine : ∀ {r : List UInt8} {st'' : CueState}, next = .line r st'' → r.length ≤ p.length →
      (lineEnd r).map (fun p => if p.head? = some 0 then Turn.done st''
        else if st''.lbas.length < maxTracks then .next p st'' else .done st'') =
        some (.next q st') → weight q < weight p := by
    rintro r st'' rfl within step
    obtain ⟨t, ends, step⟩ := Option.map_eq_some_iff.mp step
    by_cases last : t.head? = some 0
    · rw [if_pos last] at step
      cases step
    · rw [if_neg last] at step
      split at step
      · cases step
        have visible : p.head? ≠ some 10 := by
          intro newline
          cases p with
          | nil => cases newline
          | cons b p =>
            rw [Option.some.inj newline] at passed
            cases passed
        have less := lineEnd_length ends
        rw [weight, weight, if_pos (lineEnd_head ends last), if_neg visible]
        omega
      · cases step
  cases kind with
  | stop => cases step
  | refused _ => cases step
  | again less =>
    cases step
    exact shorter less
  | unclosed _ _ _ less =>
    cases step
    exact shorter less
  | line within => exact onLine rfl within step
  | named _ _ _ within => exact onLine rfl within step
  | ended _ _ _ within => exact onLine rfl within step
  | track _ _ _ _ within => exact onLine rfl within step
  | index _ _ _ _ within => exact onLine rfl within step

section Chain
variable {maxTracks fnSize : Nat} {text : List UInt8}

/-- A place visited is still to be scanned, with turns enough. -/
theorem scan_place {p : List UInt8} {st : CueState} (visited : Visited maxTracks fnSize text p st)
    (fuel : Nat) (enough : weight text ≤ fuel) : ∃ left, weight p ≤ left ∧
      scan maxTracks fnSize fuel text start = scan maxTracks fnSize left p st := by
  induction visited with
  | start => exact ⟨fuel, enough, rfl⟩
  | @turn p q st st' before step ih =>
    obtain ⟨left, enough, same⟩ := ih
    have less := turn_less step
    cases left with
    | zero => omega
    | succ left =>
      refine ⟨left, by omega, ?_⟩
      rw [same, scan_turn, step]
      rfl

theorem scan_done {fuel : Nat} {p : List UInt8} {st st' : CueState}
    (visited : Visited maxTracks fnSize text p st)
    (ends : scan maxTracks fnSize fuel p st = some st') :
    ∃ q last, Visited maxTracks fnSize text q last ∧
      turn maxTracks fnSize q last = some (.done st') := by
  induction fuel generalizing p st with
  | zero => cases ends
  | succ fuel ih =>
    rw [scan_turn] at ends
    obtain ⟨t, step, ends⟩ := Option.bind_eq_some_iff.mp ends
    cases t with
    | done st'' =>
      cases ends
      exact ⟨p, st, visited, step⟩
    | next q st'' => exact ih (.turn visited step) ends

/-- The scan ends as the last place visited does. -/
theorem scan_iff (fuel : Nat) (enough : weight text ≤ fuel) (st' : CueState) :
    scan maxTracks fnSize fuel text start = some st' ↔
      ∃ p st, Visited maxTracks fnSize text p st ∧
        turn maxTracks fnSize p st = some (.done st') := by
  constructor
  · exact scan_done .start
  · rintro ⟨p, st, visited, last⟩
    obtain ⟨left, enough, same⟩ := scan_place visited fuel enough
    rw [same]
    cases left with
    | zero =>
      rw [weight] at enough
      cases p with
      | nil => cases last
      | cons b p =>
        rw [List.length_cons] at enough
        omega
    | succ left =>
      rw [scan_turn, last]
      rfl

/-- A scan that ends has passed every place it visited. -/
theorem visited_passes {fuel : Nat} (enough : weight text ≤ fuel) {st' : CueState}
    (scanned : scan maxTracks fnSize fuel text start = some st') {p : List UInt8} {st : CueState}
    (visited : Visited maxTracks fnSize text p st) :
    ∃ next, CueScan.pass fnSize p st = some next := by
  obtain ⟨left, -, same⟩ := scan_place visited fuel enough
  rw [scanned] at same
  cases left with
  | zero => cases same
  | succ left =>
    rw [scan_turn, turn] at same
    obtain ⟨t, step, -⟩ := Option.bind_eq_some_iff.mp same.symm
    obtain ⟨next, passed, -⟩ := Option.bind_eq_some_iff.mp step
    exact ⟨next, passed⟩

/-- The places visited follow one another. -/
theorem visited_total {p p' : List UInt8} {st st' : CueState}
    (visited : Visited maxTracks fnSize text p st)
    (visited' : Visited maxTracks fnSize text p' st') :
    Relation.ReflTransGen (fun x y : List UInt8 × CueState =>
      turn maxTracks fnSize x.1 x.2 = some (.next y.1 y.2)) (p, st) (p', st') ∨
    Relation.ReflTransGen (fun x y : List UInt8 × CueState =>
      turn maxTracks fnSize x.1 x.2 = some (.next y.1 y.2)) (p', st') (p, st) := by
  have path : ∀ {p : List UInt8} {st : CueState}, Visited maxTracks fnSize text p st →
      Relation.ReflTransGen (fun x y : List UInt8 × CueState =>
        turn maxTracks fnSize x.1 x.2 = some (.next y.1 y.2)) (text, start) (p, st) := by
    intro p st visited
    induction visited with
    | start => exact .refl
    | turn before step ih => exact ih.tail step
  refine Relation.ReflTransGen.total_of_right_unique ?_ (path visited) (path visited')
  rintro x ⟨q, st⟩ ⟨q', st'⟩ one other
  rw [one] at other
  cases other
  rfl

end Chain

/-! ## What the locals hold -/

/-- The state a pass leaves. -/
def stateOf : Next → CueState
  | .line _ st => st
  | .again _ st => st
  | .stop st => st

/-- A turn ends in the state its pass left. -/
theorem turn_state {maxTracks fnSize : Nat} {p : List UInt8} {st : CueState} {t : Turn}
    (step : turn maxTracks fnSize p st = some t) : ∃ next, CueScan.pass fnSize p st = some next ∧
      (t = .done (stateOf next) ∨ (∃ q, t = .next q (stateOf next)) ∧ ∀ st', next ≠ .stop st') := by
  rw [turn] at step
  obtain ⟨next, passed, step⟩ := Option.bind_eq_some_iff.mp step
  refine ⟨next, passed, ?_⟩
  cases next with
  | stop st' =>
    cases step
    exact Or.inl rfl
  | again q st' =>
    cases step
    exact Or.inr ⟨⟨q, rfl⟩, fun _ h => by cases h⟩
  | line q st' =>
    obtain ⟨r, ends, step⟩ := Option.map_eq_some_iff.mp step
    split at step
    · exact Or.inl step.symm
    · split at step
      · exact Or.inr ⟨⟨r, step.symm⟩, fun _ h => by cases h⟩
      · exact Or.inl step.symm

/-- The entry at `p` adds a track at this address. -/
def Contributes (fnSize : Nat) (p : List UInt8) (st : CueState) (lba : UInt32) : Prop :=
  ∃ w, CueScan.pass fnSize p st =
    some (.line w { st with lbas := st.lbas ++ [lba], readIndex := false })

/-- What `strncpy` was given, by how the text behind the opening quote goes on. -/
inductive Copied (fnSize : Nat) : List UInt8 → Option (List UInt8) → Prop
  | closed {name q : List UInt8} : Plain name →
      Copied fnSize (name ++ 34 :: q) (some (strncpy (lastTrail name) fnSize))
  | newline {name q : List UInt8} : Plain name → Copied fnSize (name ++ 10 :: q) none
  | ended {name q : List UInt8} : Plain name →
      Copied fnSize (name ++ 0 :: q) (some (strncpy (lastTrail name) fnSize))

/-- The file entry whose quote is opened, and the text behind this quote. -/
def Opened (maxTracks fnSize : Nat) (text r : List UInt8) : Prop :=
  ∃ p st, Visited maxTracks fnSize text p st ∧ st.binFile = false ∧ QuoteAt p r

/-- What the locals hold at every place: tracks come behind an opened file entry,
the first one at 0, each from the entry that added it. -/
structure Kept (maxTracks fnSize : Nat) (text : List UInt8) (st : CueState) : Prop where
  bare : st.binFile = false → st.filename = none
  named : st.readIndex = true ∨ st.lbas ≠ [] → st.binFile = true
  first : ∀ lba, st.lbas.head? = some lba → lba = 0
  copied : st.binFile = true → ∃ r, Opened maxTracks fnSize text r ∧ Copied fnSize r st.filename
  stored : ∀ i lba, st.lbas[i]? = some lba → ∃ p before, Visited maxTracks fnSize text p before ∧
    before.lbas.length = i ∧ Contributes fnSize p before lba

theorem kept_start (maxTracks fnSize : Nat) (text : List UInt8) :
    Kept maxTracks fnSize text start := by
  constructor
  · exact fun _ => rfl
  · rintro (h | h)
    · cases h
    · exact absurd rfl h
  · intro lba h
    cases h
  · intro h
    cases h
  · intro i lba h
    cases h

theorem kept_pass {maxTracks fnSize : Nat} {text p : List UInt8} {st : CueState} {next : Next}
    (visited : Visited maxTracks fnSize text p st) (kept : Kept maxTracks fnSize text st)
    (passed : CueScan.pass fnSize p st = some next) :
    Kept maxTracks fnSize text (stateOf next) := by
  cases pass_cases passed with
  | stop => exact kept
  | again _ => exact kept
  | line _ => exact kept
  | named at' plain none' _ =>
    exact ⟨fun h => (by cases h), fun _ => rfl, kept.first,
      fun _ => ⟨_, ⟨p, st, visited, none', at'⟩, .closed plain⟩, kept.stored⟩
  | unclosed at' plain none' _ =>
    refine ⟨fun h => (by cases h), fun _ => rfl, kept.first, fun _ => ?_, kept.stored⟩
    refine ⟨_, ⟨p, st, visited, none', at'⟩, ?_⟩
    simp only [stateOf]
    rw [kept.bare none']
    exact .newline plain
  | ended at' plain none' _ =>
    refine ⟨fun h => (by cases h), fun _ => rfl, ?_,
      fun _ => ⟨_, ⟨p, st, visited, none', at'⟩, .ended plain⟩, ?_⟩
    · intro lba h
      cases h
    · intro i lba h
      cases h
  | track _ _ named _ _ => exact ⟨kept.bare, fun _ => named, kept.first, kept.copied, kept.stored⟩
  | @index r w m s f _ pending _ zero _ =>
    refine ⟨kept.bare, fun _ => kept.named (Or.inl pending), ?_, kept.copied, ?_⟩
    · intro lba h
      simp only [stateOf] at h
      cases found : st.lbas with
      | nil =>
        have origin : address m s f = 0 := by
          by_contra other
          exact zero ⟨found, other⟩
        rw [found, origin] at h
        exact (Option.some.inj h).symm
      | cons first rest =>
        rw [found] at h
        exact kept.first lba (by rw [found]; exact h)
    · intro i lba h
      simp only [stateOf] at h
      by_cases earlier : i < st.lbas.length
      · rw [List.getElem?_append_left earlier] at h
        exact kept.stored i lba h
      · rw [List.getElem?_append_right (by omega)] at h
        have last : i - st.lbas.length = 0 := by
          by_contra more
          rw [List.getElem?_eq_none (by rw [List.length_singleton]; omega)] at h
          cases h
        rw [last] at h
        rw [List.getElem?_cons_zero, Option.some.injEq] at h
        rw [h] at passed
        exact ⟨p, st, visited, by omega, w, passed⟩
  | refused _ => exact ⟨kept.bare, kept.named, kept.first, kept.copied, kept.stored⟩

section Chain
variable {maxTracks fnSize : Nat} {text : List UInt8}

theorem visited_kept {p : List UInt8} {st : CueState}
    (visited : Visited maxTracks fnSize text p st) : Kept maxTracks fnSize text st := by
  induction visited with
  | start => exact kept_start maxTracks fnSize text
  | turn before step ih =>
    obtain ⟨next, passed, done | ⟨⟨q, onward⟩, -⟩⟩ := turn_state step
    · cases done
    · cases onward
      exact kept_pass before ih passed

theorem done_kept {p : List UInt8} {st st' : CueState}
    (visited : Visited maxTracks fnSize text p st)
    (last : turn maxTracks fnSize p st = some (.done st')) : Kept maxTracks fnSize text st' := by
  obtain ⟨next, passed, done | ⟨⟨q, onward⟩, -⟩⟩ := turn_state last
  · cases done
    exact kept_pass visited (visited_kept visited) passed
  · cases onward

/-- Until the scan stops there is no other error than the first. -/
theorem visited_ret {p : List UInt8} {st : CueState}
    (visited : Visited maxTracks fnSize text p st) : st.ret = .eabort := by
  induction visited with
  | start => rfl
  | turn before step ih =>
    obtain ⟨next, passed, done | ⟨⟨q, onward⟩, more⟩⟩ := turn_state step
    · cases done
    · cases onward
      cases pass_cases passed with
      | stop => exact ih
      | again _ => exact ih
      | line _ => exact ih
      | named _ _ _ _ => exact ih
      | unclosed _ _ _ _ => exact ih
      | ended _ _ _ _ => rfl
      | track _ _ _ _ _ => exact ih
      | index _ _ _ _ _ => exact ih
      | refused _ => exact absurd rfl (more _)

/-- Behind a file entry with an opened quote there is a file. -/
theorem turn_opened {p q r : List UInt8} {st st' : CueState}
    (opened : st.binFile = true ∨ QuoteAt p r)
    (step : turn maxTracks fnSize p st = some (.next q st')) : st'.binFile = true := by
  obtain ⟨next, passed, done | ⟨⟨q', onward⟩, -⟩⟩ := turn_state step
  · cases done
  · cases onward
    cases named : st.binFile with
    | true =>
      cases pass_cases passed with
      | stop => exact named
      | again _ => exact named
      | line _ => exact named
      | named _ _ _ _ => rfl
      | unclosed _ _ _ _ => rfl
      | ended _ _ _ _ => rfl
      | track _ _ _ _ _ => exact named
      | index _ _ _ _ _ => exact named
      | refused _ => exact named
    | false =>
      rw [named] at opened
      obtain ⟨s, at', found⟩ := opened.resolve_left Bool.false_ne_true
      rw [CueScan.pass, skipSpaces_field _ _ at'.1, entry, at'.2, Option.bind_some, if_pos rfl,
        fileEntry, if_neg (by rw [named]; exact Bool.false_ne_true),
        skipSpaces_field _ _ found] at passed
      obtain ⟨scanned, -, passed⟩ := Option.bind_eq_some_iff.mp passed
      cases scanned with
      | closed name t =>
        cases passed
        rfl
      | newline t =>
        cases passed
        rfl
      | ended name t =>
        cases t with
        | nil => cases passed
        | cons b t =>
          cases passed
          rfl

theorem quoteAt_unique {p r r' : List UInt8} (one : QuoteAt p r) (other : QuoteAt p r') :
    r = r' := by
  obtain ⟨q, at', found⟩ := one
  obtain ⟨q', at'', found'⟩ := other
  have same : q = q' := Option.some.inj (at'.1.symm.trans at''.1)
  rw [same] at found
  exact (List.cons.inj (Option.some.inj (found.symm.trans found'))).2

/-- Only one file entry has its quote opened. -/
theorem opened_unique {r r' : List UInt8} (opened : Opened maxTracks fnSize text r)
    (opened' : Opened maxTracks fnSize text r') : r = r' := by
  -- from one place with a quote the scan does not come to another without a file
  have alone : ∀ {p p' r r' : List UInt8} {st st' : CueState}, QuoteAt p r → QuoteAt p' r' →
      st'.binFile = false → Relation.ReflTransGen (fun x y : List UInt8 × CueState =>
        turn maxTracks fnSize x.1 x.2 = some (.next y.1 y.2)) (p, st) (p', st') → r = r' := by
    intro p p' r r' st st' at' at'' none' path
    rcases path.cases_head with same | ⟨⟨q, behind⟩, step, path⟩
    · cases same
      exact quoteAt_unique at' at''
    · have named : behind.binFile = true := turn_opened (Or.inr at') step
      have stays : st'.binFile = true := by
        refine Relation.ReflTransGen.head_induction_on
          (motive := fun x _ => x.2.binFile = true → st'.binFile = true) path id ?_ named
        intro x y step _ ih named
        exact ih (turn_opened (r := []) (Or.inl named) step)
      rw [none'] at stays
      cases stays
  obtain ⟨p, st, visited, none', at'⟩ := opened
  obtain ⟨p', st', visited', none'', at''⟩ := opened'
  rcases visited_total visited visited' with path | path
  · exact alone at' at'' none'' path
  · exact (alone at'' at' none' path).symm

end Chain

end CuePasses
