import NtfsIsoMounter.CuePasses

/-!
# What a parsed cue sheet may be relied on for

`cobra_parse_cue` remembers its error code but decides by the number of tracks
stored; it copies the name without a terminator; the checks of an index's
numbers have empty bodies. For each of these: on which texts the result is
nevertheless the one meant.
-/

namespace CueResults

open CText CueSheets CueScan CuePasses

/-- The places the scan comes to; without room for a track there is no scan. -/
def Reached (maxTracks : UInt32) (fnSize : Nat) (text p : List UInt8) (st : CueState) : Prop :=
  0 < maxTracks.toNat ∧ Visited maxTracks.toNat fnSize text p st

/-- What is returned for the locals at the end of the scan. -/
def outcome (maxTracks : UInt32) (st : CueState) : Except CueError ParsedCue :=
  if st.lbas.length = 0 then .error st.ret
  else .ok ⟨foundTracks 0 (st.lbas.take maxTracks.toNat),
    if st.lbas.length > maxTracks.toNat then maxTracks.toNat else st.lbas.length, st.filename⟩

theorem parse_none {maxTracks : UInt32} (none' : ¬ 0 < maxTracks.toNat) (fnSize : Nat)
    (text : List UInt8) : cobraParseCue (some text) maxTracks fnSize = some (.error .eabort) := by
  rw [cobraParseCue]
  simp only [if_neg none', Option.map_some]
  rfl

theorem parse_scan {maxTracks : UInt32} (positive : 0 < maxTracks.toNat) (fnSize : Nat)
    (text : List UInt8) : cobraParseCue (some text) maxTracks fnSize =
      (scan maxTracks.toNat fnSize (2 * text.length + 1) text start).map (outcome maxTracks) := by
  rw [cobraParseCue]
  simp only [if_pos positive]
  rfl

theorem weight_le (text : List UInt8) : weight text ≤ 2 * text.length + 1 := by
  rw [weight]
  split <;> omega

theorem parse_iff {maxTracks : UInt32} (positive : 0 < maxTracks.toNat) (fnSize : Nat)
    (text : List UInt8) (result : Except CueError ParsedCue) :
    cobraParseCue (some text) maxTracks fnSize = some result ↔
      ∃ p st st', Visited maxTracks.toNat fnSize text p st ∧
        turn maxTracks.toNat fnSize p st = some (.done st') ∧ outcome maxTracks st' = result := by
  rw [parse_scan positive, Option.map_eq_some_iff]
  constructor
  · rintro ⟨st', scanned, same⟩
    obtain ⟨p, st, visited, last⟩ := (scan_iff _ (weight_le text) st').mp scanned
    exact ⟨p, st, st', visited, last, same⟩
  · rintro ⟨p, st, st', visited, last, same⟩
    exact ⟨st', (scan_iff _ (weight_le text) st').mpr ⟨p, st, visited, last⟩, same⟩

/-! ## Unsupported entries -/

/-- A track entry with this type, followed by a blank or the end of the text. -/
def Typed (word p : List UInt8) : Prop :=
  ∃ number t, TypeAt p number t ∧ startsNoCase word t = some true ∧
    ∃ b, t[word.length]? = some b ∧ b ≤ 32

/-- A position `m:s:f` behind the number of an index. -/
def Position (r : List UInt8) (m s f : Int) : Prop :=
  ∃ t u v w, field r = some t ∧ Decimal t m (58 :: u) ∧ Decimal u s (58 :: v) ∧ Decimal v f w

/-- The entries a cue sheet for the emulation must not have. -/
inductive Unsupported (p : List UInt8) (st : CueState) : Prop
  | pending {q : List UInt8} : EntryAt (ascii "TRACK") p q → st.readIndex = true → Unsupported p st
  | first {q : List UInt8} : EntryAt (ascii "TRACK") p q → st.lbas = [] →
      ¬ Typed (ascii "MODE2/2352") p → Unsupported p st
  | later {q : List UInt8} : EntryAt (ascii "TRACK") p q → st.lbas ≠ [] →
      ¬ Typed (ascii "AUDIO") p → Unsupported p st
  | index {r : List UInt8} : IndexAt p r → st.readIndex = true → st.lbas = [] →
      ¬ Position r 0 0 0 → Unsupported p st

/-- The call reports an unsupported sheet where its tests refuse an entry before a
track is stored. -/
theorem cobraParseCue_enotsup (maxTracks : UInt32) (fnSize : Nat) (text : List UInt8) :
    cobraParseCue (some text) maxTracks fnSize = some (.error .enotsup) ↔
      ∃ p st, Reached maxTracks fnSize text p st ∧ st.lbas = [] ∧ Refused p st := by
  by_cases positive : 0 < maxTracks.toNat
  · rw [parse_iff positive]
    constructor
    · rintro ⟨p, st, st', visited, last, same⟩
      rw [outcome] at same
      split at same
      · rename_i none'
        have ret : st'.ret = .enotsup := Except.error.inj same
        have live := visited_ret visited
        obtain ⟨next, passed, done | ⟨⟨q, onward⟩, -⟩⟩ := turn_state last
        · cases done
          cases pass_cases passed with
          | refused refused =>
            exact ⟨p, st, ⟨positive, visited⟩, List.length_eq_zero_iff.mp none', refused⟩
          | ended _ _ _ _ => cases ret
          | stop => cases live.symm.trans ret
          | again _ => cases live.symm.trans ret
          | line _ => cases live.symm.trans ret
          | named _ _ _ _ => cases live.symm.trans ret
          | unclosed _ _ _ _ => cases live.symm.trans ret
          | track _ _ _ _ _ => cases live.symm.trans ret
          | index _ _ _ _ _ => cases live.symm.trans ret
        · cases onward
      · cases same
    · rintro ⟨p, st, ⟨-, visited⟩, none', refused⟩
      refine ⟨p, st, { st with ret := .enotsup }, visited, ?_, ?_⟩
      · rw [turn, pass_refused fnSize refused]
        rfl
      · rw [outcome, none']
        rfl
  · rw [parse_none positive]
    constructor
    · intro same
      cases same
    · rintro ⟨p, st, ⟨reached, -⟩, -⟩
      exact absurd reached positive

/-- Unsupported entries are reported exactly where an entry is refused before the
first track is stored. -/
theorem cobraParseCue_unsupported_iff (maxTracks : UInt32) (fnSize : Nat) (text : List UInt8) :
    (∀ p st, Reached maxTracks fnSize text p st → Unsupported p st →
      cobraParseCue (some text) maxTracks fnSize = some (.error .enotsup)) ↔
    ∀ p st, Reached maxTracks fnSize text p st → Unsupported p st →
      ∃ q before, Reached maxTracks fnSize text q before ∧ before.lbas = [] ∧
        Refused q before := by
  constructor
  · intro reported p st reached unsupported
    exact (cobraParseCue_enotsup maxTracks fnSize text).mp (reported p st reached unsupported)
  · intro refused p st reached unsupported
    exact (cobraParseCue_enotsup maxTracks fnSize text).mpr (refused p st reached unsupported)

/-- The second track has no index: the third one ends the scan. -/
def pendingSheet : List UInt8 :=
  ascii "FILE \"a\"\nTRACK 1 MODE2/2352\nINDEX 1 0:0:0\nTRACK 2 AUDIO\nTRACK 3 AUDIO\n\x00"

/-- The first track of that sheet is returned alone. -/
theorem pendingSheet_shortened : ¬ ∀ p st, Reached 10 8 pendingSheet p st → Unsupported p st →
    cobraParseCue (some pendingSheet) 10 8 = some (.error .enotsup) := by
  intro reported
  have there : turns (10 : UInt32).toNat 8 8 pendingSheet start =
      some (ascii "TRACK 3 AUDIO\n\x00",
        ⟨true, true, [0], .eabort, some (strncpy (ascii "a") 8)⟩) := by
    decide +kernel
  have third : EntryAt (ascii "TRACK") (ascii "TRACK 3 AUDIO\n\x00")
      (ascii "TRACK 3 AUDIO\n\x00") := by
    constructor <;> decide +kernel
  have enotsup := reported _ _ ⟨by decide, visited_turns .start there⟩ (.pending third rfl)
  obtain ⟨p, st, st', visited, last, same⟩ := (parse_iff (by decide) 8 pendingSheet _).mp enotsup
  have tracks : ((scan (10 : UInt32).toNat 8 (2 * pendingSheet.length + 1) pendingSheet start).map
      (fun st => st.lbas)) = some [0] := by
    decide +kernel
  rw [(scan_iff _ (weight_le pendingSheet) st').mpr ⟨p, st, visited, last⟩, Option.map_some,
    Option.some.injEq] at tracks
  rw [outcome, tracks] at same
  cases same

/-! ## The tracks and the name -/

/-- The quoted name of the file entry that the scan comes to. -/
def FileName (maxTracks : UInt32) (fnSize : Nat) (text name : List UInt8) : Prop :=
  Plain name ∧ ∃ p st q, Reached maxTracks fnSize text p st ∧ st.binFile = false ∧
    QuoteAt p (name ++ 34 :: q)

/-- The last component of a path with slashes or backslashes. -/
def LastComponent (name last : List UInt8) : Prop :=
  (∃ path, name = path ++ last ∧ ∀ b ∈ path.getLast?, b = 47 ∨ b = 92) ∧
    ∀ b ∈ last, b ≠ 47 ∧ b ≠ 92

theorem lastComponent_lastTrail (name : List UInt8) : LastComponent name (lastTrail name) := by
  let part := fun b : UInt8 => b != 47 && b != 92
  have split := List.takeWhile_append_dropWhile (p := part) (l := name.reverse)
  constructor
  · refine ⟨(name.reverse.dropWhile part).reverse, ?_, ?_⟩
    · rw [lastTrail, ← List.reverse_append, split, List.reverse_reverse]
    · intro b hb
      rw [List.getLast?_reverse] at hb
      have stops := List.head?_dropWhile_not part name.reverse
      rw [hb] at stops
      by_contra other
      rw [not_or] at other
      simp [part, other.1, other.2] at stops
  · intro b hb
    have kept : part b = true := List.mem_takeWhile_imp (List.mem_reverse.mp hb)
    simpa [part] using kept

theorem lastComponent_unique {name last : List UInt8} (component : LastComponent name last) :
    last = lastTrail name := by
  obtain ⟨⟨path, rfl, ends⟩, inside⟩ := component
  have all : ∀ b ∈ last.reverse, (b != 47 && b != 92) = true := by
    intro b hb
    obtain ⟨slash, backslash⟩ := inside b (List.mem_reverse.mp hb)
    simp [slash, backslash]
  rw [lastTrail, List.reverse_append, List.takeWhile_append_of_pos all]
  have none' : path.reverse.takeWhile (fun b => b != 47 && b != 92) = [] := by
    cases front : path.reverse with
    | nil => rfl
    | cons b rest =>
      have last' : path.getLast? = some b := by
        rw [← List.head?_reverse, front, List.head?_cons]
      rcases ends b last' with rfl | rfl
      · rfl
      · rfl
  rw [none', List.append_nil, List.reverse_reverse]

/-- The buffer for the name after the call. -/
def nameBuffer (old : List UInt8) (cue : ParsedCue) : List UInt8 :=
  match cue.filename with
  | none => old
  | some block => block ++ old.drop block.length

/-- What a caller that is told of success goes on with. -/
structure Usable (maxTracks : UInt32) (fnSize : Nat) (text old : List UInt8) (cue : ParsedCue) :
    Prop where
  positive : 1 ≤ cue.numTracks
  room : cue.numTracks ≤ maxTracks.toNat
  length : cue.tracks.length = cue.numTracks
  data : cue.tracks[0]? = some ⟨0, false⟩
  audio : ∀ i t, 0 < i → cue.tracks[i]? = some t → t.isAudio = true
  name : ∃ name last, FileName maxTracks fnSize text name ∧ LastComponent name last ∧
    0 ∈ nameBuffer old cue ∧ cString (nameBuffer old cue) = last.take fnSize

theorem foundTracks_getElem? (i j : Nat) (lbas : List UInt32) :
    (foundTracks i lbas)[j]? = (lbas[j]?).map (fun lba => ⟨lba, decide (i + j ≠ 0)⟩) := by
  induction lbas generalizing i j with
  | nil => rfl
  | cons lba rest ih =>
    cases j with
    | zero => rfl
    | succ j =>
      rw [foundTracks, List.getElem?_cons_succ, List.getElem?_cons_succ, ih,
        Nat.add_assoc, Nat.add_comm 1 j]

theorem foundTracks_length (i : Nat) (lbas : List UInt32) :
    (foundTracks i lbas).length = lbas.length := by
  induction lbas generalizing i with
  | nil => rfl
  | cons lba rest ih => rw [foundTracks, List.length_cons, List.length_cons, ih]

/-- A successful call: the locals at the end of its scan. -/
theorem parse_ok {maxTracks : UInt32} {fnSize : Nat} {text : List UInt8} {cue : ParsedCue}
    (returned : cobraParseCue (some text) maxTracks fnSize = some (.ok cue)) :
    ∃ st, Kept maxTracks.toNat fnSize text st ∧ 0 < maxTracks.toNat ∧ st.lbas ≠ [] ∧
      cue = ⟨foundTracks 0 (st.lbas.take maxTracks.toNat),
        if st.lbas.length > maxTracks.toNat then maxTracks.toNat else st.lbas.length,
        st.filename⟩ := by
  by_cases positive : 0 < maxTracks.toNat
  · obtain ⟨p, st, st', visited, last, same⟩ := (parse_iff positive fnSize text _).mp returned
    refine ⟨st', done_kept visited last, positive, ?_, ?_⟩
    · rintro none'
      rw [outcome, none'] at same
      cases same
    · rw [outcome] at same
      split at same
      · cases same
      · cases same
        rfl
  · rw [parse_none positive] at returned
    cases returned

theorem plain_split {x y p q : List UInt8} {b c : UInt8} (left : Plain x) (right : Plain y)
    (ends : b = 34 ∨ b = 10 ∨ b = 0) (ends' : c = 34 ∨ c = 10 ∨ c = 0)
    (same : x ++ b :: p = y ++ c :: q) : x = y ∧ b = c := by
  have stops : ∀ {d : UInt8}, d = 34 ∨ d = 10 ∨ d = 0 → ¬ (d ≠ 34 ∧ d ≠ 10 ∧ d ≠ 0) := by
    rintro d h ⟨quote, newline, nul⟩
    rcases h with h | h | h
    · exact quote h
    · exact newline h
    · exact nul h
  induction x generalizing y with
  | nil =>
    cases y with
    | nil => exact ⟨rfl, (List.cons.inj same).1⟩
    | cons d y =>
      have := (List.cons.inj same).1
      exact absurd (right d List.mem_cons_self) (this ▸ stops ends)
  | cons a x ih =>
    cases y with
    | nil =>
      have := (List.cons.inj same).1
      exact absurd (left a List.mem_cons_self) (this.symm ▸ stops ends')
    | cons d y =>
      obtain ⟨head, rest⟩ := List.cons.inj same
      obtain ⟨tail, stop⟩ := ih (fun e he => left e (List.mem_cons_of_mem a he))
        (fun e he => right e (List.mem_cons_of_mem d he)) rest
      exact ⟨by rw [head, tail], stop⟩

theorem copied_closed {fnSize : Nat} {name q r : List UInt8} {filename : Option (List UInt8)}
    (plain : Plain name) (same : r = name ++ 34 :: q) (copied : Copied fnSize r filename) :
    filename = some (strncpy (lastTrail name) fnSize) := by
  cases copied with
  | closed plain' => rw [(plain_split plain' plain (Or.inl rfl) (Or.inl rfl) same).1]
  | newline plain' =>
    have stop := (plain_split plain' plain (Or.inr (Or.inl rfl)) (Or.inl rfl) same).2
    exact absurd stop (by decide)
  | ended plain' =>
    have stop := (plain_split plain' plain (Or.inr (Or.inr rfl)) (Or.inl rfl) same).2
    exact absurd stop (by decide)

/-- The name found is the one copied. -/
theorem filename_copied {maxTracks : UInt32} {fnSize : Nat} {text name : List UInt8} {st : CueState}
    (kept : Kept maxTracks.toNat fnSize text st) (some' : st.lbas ≠ [])
    (found : FileName maxTracks fnSize text name) :
    st.filename = some (strncpy (lastTrail name) fnSize) := by
  obtain ⟨plain, p, before, q, ⟨-, visited⟩, none', at'⟩ := found
  obtain ⟨r, opened, copied⟩ := kept.copied (kept.named (Or.inr some'))
  exact copied_closed plain (opened_unique opened ⟨p, before, visited, none', at'⟩) copied

theorem strncpy_length (s : List UInt8) (n : Nat) : (strncpy s n).length = n := by
  simp only [strncpy, List.length_append, List.length_take, List.length_replicate]
  omega

/-- The block and the byte behind it hold a string where the name leaves room or that
byte is a terminator already. -/
theorem string_iff {last : List UInt8} (fnSize : Nat) (b : UInt8) (plain : ∀ c ∈ last, c ≠ 0) :
    (0 ∈ strncpy last fnSize ++ [b] ∧ cString (strncpy last fnSize ++ [b]) = last.take fnSize) ↔
      last.length < fnSize ∨ b = 0 := by
  by_cases short : last.length < fnSize
  · obtain ⟨k, hk⟩ : ∃ k, fnSize - last.length = k + 1 := ⟨fnSize - last.length - 1, by omega⟩
    have block : strncpy last fnSize ++ [b] = last ++ 0 :: (List.replicate k 0 ++ [b]) := by
      rw [strncpy, List.take_of_length_le short.le, hk, List.replicate_succ, List.append_assoc,
        List.cons_append]
    rw [block, cString_terminated plain, List.take_of_length_le short.le]
    simp [short]
  · have block : strncpy last fnSize = last.take fnSize := by
      rw [strncpy, Nat.sub_eq_zero_of_le (Nat.le_of_not_lt short), List.replicate_zero,
        List.append_nil]
    have plain' : ∀ c ∈ last.take fnSize, c ≠ 0 := fun c hc => plain c (List.mem_of_mem_take hc)
    rw [block]
    constructor
    · rintro ⟨terminated, -⟩
      rcases List.mem_append.mp terminated with inside | behind
      · exact absurd rfl (plain' 0 inside)
      · exact Or.inr (List.mem_singleton.mp behind).symm
    · intro either
      rw [either.resolve_left short]
      exact ⟨by simp, cString_terminated plain'⟩

/-- After success the name is usable where the quote was closed in its line and the
last component is shorter than the buffer, or the buffer ended with a terminator. -/
theorem cobraParseCue_usable_iff {maxTracks : UInt32} {fnSize : Nat} {text old : List UInt8}
    {cue : ParsedCue} (space : old.length = fnSize + 1)
    (returned : cobraParseCue (some text) maxTracks fnSize = some (.ok cue)) :
    Usable maxTracks fnSize text old cue ↔
      ∃ name last, FileName maxTracks fnSize text name ∧ LastComponent name last ∧
        (last.length < fnSize ∨ old[fnSize]? = some 0) := by
  obtain ⟨st, kept, positive, some', rfl⟩ := parse_ok returned
  obtain ⟨b, behind⟩ : ∃ b, old.drop fnSize = [b] := by
    rw [← List.length_eq_one_iff, List.length_drop]
    omega
  have byte : old[fnSize]? = some b := by
    rw [← List.head?_drop, behind, List.head?_cons]
  -- the string in the buffer, for the name found
  have written : ∀ {name last : List UInt8}, FileName maxTracks fnSize text name →
      LastComponent name last → ∀ cue : ParsedCue, cue.filename = st.filename →
      ((0 ∈ nameBuffer old cue ∧ cString (nameBuffer old cue) = last.take fnSize) ↔
        last.length < fnSize ∨ old[fnSize]? = some 0) := by
    intro name last found component cue same
    have plain : ∀ c ∈ last, c ≠ 0 := by
      obtain ⟨⟨path, rfl, -⟩, -⟩ := component
      intro c hc
      exact (found.1 c (List.mem_append_right path hc)).2.2
    have buffer : nameBuffer old cue = strncpy last fnSize ++ [b] := by
      rw [nameBuffer, same, filename_copied kept some' found, ← lastComponent_unique component]
      simp only [strncpy_length, behind]
    rw [buffer, string_iff fnSize b plain, byte, Option.some.injEq]
  constructor
  · intro usable
    obtain ⟨name, last, found, component, string⟩ := usable.name
    exact ⟨name, last, found, component, (written found component _ rfl).mp string⟩
  · rintro ⟨name, last, found, component, room⟩
    have some'' : 0 < st.lbas.length := List.length_pos_iff.mpr some'
    constructor
    · dsimp only
      split <;> omega
    · dsimp only
      split <;> omega
    · dsimp only
      rw [foundTracks_length, List.length_take]
      split <;> omega
    · obtain ⟨first, rest, shape⟩ := List.exists_cons_of_ne_nil some'
      have zero : first = 0 := kept.first first (by rw [shape, List.head?_cons])
      rw [foundTracks_getElem?, List.getElem?_take_of_lt positive, shape, zero]
      rfl
    · intro i t later found
      rw [foundTracks_getElem?] at found
      obtain ⟨lba, -, rfl⟩ := Option.map_eq_some_iff.mp found
      exact decide_eq_true (by omega)
    · exact ⟨name, last, found, component, (written found component _ rfl).mpr room⟩

theorem pendingSheet_usable :
    Usable 10 8 pendingSheet (List.replicate 9 1)
      ⟨[⟨0, false⟩], 1, some (strncpy (ascii "a") 8)⟩ := by
  refine (cobraParseCue_usable_iff (by decide) (by decide +kernel)).mpr
    ⟨ascii "a", ascii "a", ⟨?_, pendingSheet, start,
      ascii "\nTRACK 1 MODE2/2352\nINDEX 1 0:0:0\nTRACK 2 AUDIO\nTRACK 3 AUDIO\n\x00",
      ⟨by decide, .start⟩, rfl, pendingSheet, ?_, ?_⟩, ⟨⟨[], rfl, ?_⟩, ?_⟩, Or.inl ?_⟩
  · rw [Plain]
    decide +kernel
  · constructor <;> decide +kernel
  · decide +kernel
  · intro b hb
    cases hb
  · decide +kernel
  · decide +kernel

/-- A name of nine characters for a buffer with room for eight. -/
def longNameSheet : List UInt8 :=
  ascii "FILE \"disc1.bin\"\nTRACK 1 MODE2/2352\nINDEX 1 0:0:0\n\x00"

theorem longName_unterminated : ¬ ∀ old cue, old.length = 8 + 1 →
    cobraParseCue (some longNameSheet) 10 8 = some (.ok cue) →
      Usable 10 8 longNameSheet old cue := by
  intro usable
  have parsed : cobraParseCue (some longNameSheet) 10 8 =
      some (.ok ⟨[⟨0, false⟩], 1, some (ascii "disc1.bi")⟩) := by
    decide +kernel
  obtain ⟨name, last, -, -, terminated, -⟩ :=
    (usable (List.replicate 9 1) _ (by decide) parsed).name
  revert terminated
  decide +kernel

/-! ## The addresses -/

/-- Three numbers within a byte each, with a colon between them. -/
def InRange (r : List UInt8) : Prop :=
  ∃ m s f, Position r m s f ∧ (0 ≤ m ∧ m < 256) ∧ (0 ≤ s ∧ s < 256) ∧ (0 ≤ f ∧ f < 256)

/-- Each track is where its index says, and no index adds a track whose position is
not well formed. -/
structure Exact (maxTracks : UInt32) (fnSize : Nat) (text : List UInt8) (cue : ParsedCue) :
    Prop where
  address : ∀ i t, cue.tracks[i]? = some t → ∃ p st r m s f,
    Reached maxTracks fnSize text p st ∧ st.lbas.length = i ∧ Contributes fnSize p st t.lba ∧
      IndexAt p r ∧ Position r m s f ∧ (0 ≤ m ∧ m < 256) ∧ (0 ≤ s ∧ s < 256) ∧
      (0 ≤ f ∧ f < 256) ∧ (t.lba.toNat : Int) = (m * 60 + s) * 75 + f
  wellFormed : ∀ p st r lba, Reached maxTracks fnSize text p st → IndexAt p r →
    Contributes fnSize p st lba → InRange r

theorem contributes_cases {fnSize : Nat} {p : List UInt8} {st : CueState} {lba : UInt32}
    (contributes : Contributes fnSize p st lba) :
    ∃ r w m s f, IndexAt p r ∧ st.readIndex = true ∧ Numbers r m s f w ∧
      ¬ (st.lbas = [] ∧ address m s f ≠ 0) ∧ lba = UInt32.ofNat (address m s f) := by
  obtain ⟨w, passed⟩ := contributes
  have kind := pass_cases passed
  -- only an index makes the list of addresses longer
  have longer : ∀ {before : List UInt32}, before = st.lbas ∨ before = [] →
      before ≠ st.lbas ++ [lba] := by
    intro before kept same
    have := congrArg List.length same
    rw [List.length_append, List.length_singleton] at this
    rcases kept with rfl | rfl
    · omega
    · rw [List.length_nil] at this
      omega
  generalize after : Next.line w { st with lbas := st.lbas ++ [lba], readIndex := false } = next
    at kind
  have lbas : (stateOf next).lbas = st.lbas ++ [lba] := by
    rw [← after]
    rfl
  cases kind with
  | stop => cases after
  | again _ => cases after
  | line _ => exact absurd lbas (longer (Or.inl rfl))
  | named _ _ _ _ => exact absurd lbas (longer (Or.inl rfl))
  | unclosed _ _ _ _ => cases after
  | ended _ _ _ _ => exact absurd lbas (longer (Or.inr rfl))
  | track _ _ _ _ _ => exact absurd lbas (longer (Or.inl rfl))
  | refused _ => cases after
  | @index r w m s f index pending numbers zero _ =>
    have last := List.append_cancel_left lbas
    exact ⟨r, w, m, s, f, index, pending, numbers, zero, (List.cons.inj last).1.symm⟩

theorem indexAt_unique {p r r' : List UInt8} (one : IndexAt p r) (other : IndexAt p r') :
    r = r' := by
  obtain ⟨q, g, at', found, read⟩ := one
  obtain ⟨q', g', at'', found', read'⟩ := other
  have same : q = q' := Option.some.inj (at'.1.symm.trans at''.1)
  rw [same] at found
  have same' : g = g' := Option.some.inj (found.symm.trans found')
  rw [same', read'] at read
  exact (Prod.mk.inj (Option.some.inj read)).2.symm

theorem clampLong_small {n : Int} (low : 0 ≤ n) (high : n < 256) : clampLong n = n := by
  simp only [clampLong]
  omega

/-- A position within the range is stored as it stands. -/
theorem numbers_position {r w : List UInt8} {m s f m' s' f' : Int} (numbers : Numbers r m' s' f' w)
    (position : Position r m s f) (minutes : 0 ≤ m ∧ m < 256) (seconds : 0 ≤ s ∧ s < 256)
    (frames : 0 ≤ f ∧ f < 256) :
    ((UInt32.ofNat (address m' s' f')).toNat : Int) = (m * 60 + s) * 75 + f := by
  obtain ⟨t, b, u, c, v, place, readM, readS, readF⟩ := numbers
  obtain ⟨t', u', v', w', place', decimalM, decimalS, decimalF⟩ := position
  have same : t = t' := Option.some.inj (place.symm.trans place')
  rw [same, strtol_decimal decimalM, Option.some.injEq, Prod.mk.injEq, List.cons.injEq] at readM
  obtain ⟨valueM, -, sameU⟩ := readM
  rw [← sameU, strtol_decimal decimalS, Option.some.injEq, Prod.mk.injEq, List.cons.injEq] at readS
  obtain ⟨valueS, -, sameV⟩ := readS
  rw [← sameV, strtol_decimal decimalF, Option.some.injEq, Prod.mk.injEq] at readF
  obtain ⟨valueF, -⟩ := readF
  rw [clampLong_small minutes.1 minutes.2] at valueM
  rw [clampLong_small seconds.1 seconds.2] at valueS
  rw [clampLong_small frames.1 frames.2] at valueF
  obtain ⟨m, rfl⟩ := Int.eq_ofNat_of_zero_le minutes.1
  obtain ⟨s, rfl⟩ := Int.eq_ofNat_of_zero_le seconds.1
  obtain ⟨f, rfl⟩ := Int.eq_ofNat_of_zero_le frames.1
  rw [← valueM, ← valueS, ← valueF, address, toByte_natCast (by omega), toByte_natCast (by omega),
    toByte_natCast (by omega), msfToLba]
  have byte : ∀ {n : Nat}, (n : Int) < 256 → n % 2 ^ 8 = n := fun h => Nat.mod_eq_of_lt (by omega)
  simp only [UInt8.toNat_ofNat', UInt32.toNat_ofNat', byte minutes.2, byte seconds.2, byte frames.2]
  rw [Nat.mod_eq_of_lt (by omega)]
  rfl

/-- The addresses are exact where every index that is not refused has its three
numbers in range. -/
theorem cobraParseCue_exact_iff {maxTracks : UInt32} {fnSize : Nat} {text : List UInt8}
    {cue : ParsedCue} (returned : cobraParseCue (some text) maxTracks fnSize = some (.ok cue)) :
    Exact maxTracks fnSize text cue ↔
      ∀ p st r, Reached maxTracks fnSize text p st → IndexAt p r → st.readIndex = true →
        (field r).isSome → ¬ Refused p st → InRange r := by
  constructor
  · rintro exact' p st r ⟨positive, visited⟩ index pending place accepted
    -- the scan that ended has passed this index
    rw [parse_scan positive] at returned
    obtain ⟨last, scanned, -⟩ := Option.map_eq_some_iff.mp returned
    obtain ⟨next, passed⟩ := visited_passes (weight_le text) scanned visited
    obtain ⟨m, s, f, w, numbers⟩ := index_numbers index pending place passed
    have stored : ¬ (st.lbas = [] ∧ address m s f ≠ 0) := by
      rintro ⟨none', nonzero⟩
      exact accepted (.index index pending numbers none' nonzero)
    have contributes : Contributes fnSize p st (UInt32.ofNat (address m s f)) := by
      refine ⟨w, ?_⟩
      rw [pass_numbers fnSize index pending numbers, if_neg stored]
    exact exact'.wellFormed p st r _ ⟨positive, visited⟩ index contributes
  · intro inRange
    obtain ⟨last, kept, positive, some', rfl⟩ := parse_ok returned
    -- an entry that adds a track is not refused
    have checked : ∀ {p : List UInt8} {st : CueState} {lba : UInt32},
        Reached maxTracks fnSize text p st → Contributes fnSize p st lba →
        ∃ r m s f w, IndexAt p r ∧ InRange r ∧ Numbers r m s f w ∧
          lba = UInt32.ofNat (address m s f) := by
      intro p st lba reached contributes
      obtain ⟨r, w, m, s, f, index, pending, numbers, -, same⟩ := contributes_cases contributes
      have place : (field r).isSome := by
        obtain ⟨t, _, _, _, _, place, -⟩ := numbers
        rw [place]
        rfl
      have accepted : ¬ Refused p st := by
        intro refused
        obtain ⟨w, passed⟩ := contributes
        rw [pass_refused fnSize refused] at passed
        cases passed
      exact ⟨r, m, s, f, w, index, inRange p st r reached index pending place accepted, numbers,
        same⟩
    constructor
    · intro i t found
      rw [foundTracks_getElem?] at found
      obtain ⟨lba, listed, rfl⟩ := Option.map_eq_some_iff.mp found
      have stored : last.lbas[i]? = some lba := by
        rw [List.getElem?_take] at listed
        split at listed
        · exact listed
        · cases listed
      obtain ⟨p, before, visited, count, contributes⟩ := kept.stored i lba stored
      obtain ⟨r, m', s', f', w, index, ⟨m, s, f, position, minutes, seconds, frames⟩, numbers,
        same⟩ := checked ⟨positive, visited⟩ contributes
      refine ⟨p, before, r, m, s, f, ⟨positive, visited⟩, count, contributes, index, position,
        minutes, seconds, frames, ?_⟩
      rw [same]
      exact numbers_position numbers position minutes seconds frames
    · intro p st r lba reached index contributes
      obtain ⟨r', _, _, _, _, index', inRange', -, -⟩ := checked reached contributes
      rw [indexAt_unique index index']
      exact inRange'

/-- Each of the two tracks of the sheet is where its index says. -/
theorem twoTracks_exact : Exact 100 64 twoTracks
    ⟨[⟨0, false⟩, ⟨9755, true⟩], 2, some (strncpy (ascii "a.bin") 64)⟩ := by
  refine (cobraParseCue_exact_iff (by decide +kernel)).mpr ?_
  rintro p st r ⟨-, visited⟩ ⟨q, g, ⟨word, keyword⟩, number, one⟩ - - -
  have here := visited_mem (l := places 100 64 13 twoTracks) (by decide +kernel)
    (by decide +kernel) visited
  -- the text behind the number of an index 1 starts with one of two positions
  have behind : ∀ x ∈ places 100 64 13 twoTracks, ∀ q ∈ field x.1,
      atKeyword (ascii "INDEX") q = some true → ∀ g ∈ field (q.drop 5), ∀ n ∈ strtol g, n.1 = 1 →
      ∃ y ∈ [(ascii "00", ascii "00", ascii "00"), (ascii "02", ascii "10", ascii "05")],
        n.2.take 10 = 32 :: (y.1 ++ 58 :: (y.2.1 ++ 58 :: (y.2.2 ++ [10]))) := by
    decide +kernel
  obtain ⟨⟨m, s, f⟩, among, start'⟩ := behind _ here q word keyword g number _ one rfl
  have digits : ∀ y ∈ [(ascii "00", ascii "00", ascii "00"), (ascii "02", ascii "10", ascii "05")],
      ∀ d ∈ [y.1, y.2.1, y.2.2], d ≠ [] ∧ (∀ b ∈ d, isDigit b = true) ∧ decimal d < 256 := by
    decide +kernel
  have visible : ∀ y ∈ [(ascii "00", ascii "00", ascii "00"), (ascii "02", ascii "10", ascii "05")],
      ∀ w : List UInt8, field (32 :: (y.1 ++ w)) = some (y.1 ++ w) := by
    intro y hy w
    rcases List.mem_cons.mp hy with rfl | hy
    · rfl
    · rw [List.mem_singleton.mp hy]
      rfl
  have plain {d : List UInt8} (b : UInt8) (w : List UInt8) (known : d ∈ [m, s, f])
      (stop : isDigit b = false) : Decimal (d ++ b :: w) (decimal d) (b :: w) :=
    ⟨[], [], d, rfl, List.forall_mem_nil _, Or.inr ⟨Or.inr rfl, rfl⟩, (digits _ among d known).1,
      (digits _ among d known).2.1, b, w, rfl, stop⟩
  have small {d : List UInt8} (known : d ∈ [m, s, f]) :
      0 ≤ (decimal d : Int) ∧ (decimal d : Int) < 256 :=
    ⟨Int.natCast_nonneg _, Int.ofNat_lt.mpr (digits _ among d known).2.2⟩
  have whole : r = 32 :: (m ++ 58 :: (s ++ 58 :: (f ++ 10 :: r.drop 10))) := by
    have parts := List.take_append_drop 10 r
    rw [show r.take 10 = _ from start'] at parts
    simpa using parts.symm
  rw [whole]
  exact ⟨decimal m, decimal s, decimal f, ⟨_, _, _, _, visible _ among _,
    plain 58 _ (by simp) (by decide), plain 58 _ (by simp) (by decide),
    plain 10 _ (by simp) (by decide)⟩, small (by simp), small (by simp), small (by simp)⟩

/-- One more track, 256 minutes behind the first. -/
def lateSheet : List UInt8 :=
  ascii "FILE \"a\"\nTRACK 1 MODE2/2352\nINDEX 1 0:0:0\nTRACK 2 AUDIO\nINDEX 1 256:0:0\n\x00"

/-- The minutes are cut to a byte, and the second track lies over the first. -/
theorem lateSheet_wraps : ¬ ∀ cue, cobraParseCue (some lateSheet) 10 8 = some (.ok cue) →
    Exact 10 8 lateSheet cue := by
  intro exact'
  let name := some (strncpy (ascii "a") 8)
  have parsed : cobraParseCue (some lateSheet) 10 8 =
      some (.ok ⟨[⟨0, false⟩, ⟨0, true⟩], 2, name⟩) := by
    decide +kernel
  have there : turns (10 : UInt32).toNat 8 8 lateSheet start =
      some (ascii "INDEX 1 256:0:0\n\x00", ⟨true, true, [0], .eabort, name⟩) := by
    decide +kernel
  have index : IndexAt (ascii "INDEX 1 256:0:0\n\x00") (ascii " 256:0:0\n\x00") := by
    refine ⟨ascii "INDEX 1 256:0:0\n\x00", ascii "1 256:0:0\n\x00", ⟨?_, ?_⟩, ?_, ?_⟩ <;>
      decide +kernel
  have contributes : Contributes 8 (ascii "INDEX 1 256:0:0\n\x00")
      ⟨true, true, [0], .eabort, name⟩ 0 := by
    refine ⟨ascii "\n\x00", ?_⟩
    decide +kernel
  obtain ⟨m, s, f, ⟨t, u, v, w, place, minutes, -⟩, ⟨-, small⟩, -⟩ :=
    (exact' _ parsed).wellFormed _ _ _ 0 ⟨by decide, visited_turns .start there⟩ index contributes
  have read : strtol (ascii "256:0:0\n\x00") = some (256, ascii ":0:0\n\x00") := by decide +kernel
  have at' : field (ascii " 256:0:0\n\x00") = some (ascii "256:0:0\n\x00") := by decide +kernel
  rw [at', Option.some.injEq] at place
  rw [place, strtol_decimal minutes, Option.some.injEq, Prod.mk.injEq, clampLong] at read
  omega

end CueResults
