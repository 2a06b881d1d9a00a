import NtfsIsoMounter.CText

/-!
# Cue sheets written and read by the cobra library

`cobra_parse_cue` scans a text line by line with one moving pointer. A newline
inside the spaces it skips starts the next line; the terminator ends the scan.
Out of the track lines it keeps a pending flag and the addresses found so far.
The result is `none` where the scan reads or writes outside the text.
-/

namespace CueSheets

open CText

structure TrackDef where
  lba : UInt32
  isAudio : Bool
  deriving DecidableEq

inductive CueError where
  | einval
  | enotsup
  | eabort
  deriving DecidableEq

/-- `lba_to_msf`: the three bytes. -/
def lbaToMsf (lba : Nat) : UInt8 × UInt8 × UInt8 :=
  (UInt8.ofNat (lba / (75 * 60)), UInt8.ofNat (lba / 75 % 60), UInt8.ofNat (lba % 75))

def msfToLba (m s f : UInt8) : Nat := (m.toNat * 60 + s.toNat) * 75 + f.toNat

/-! ## Writing -/

/-- The two lines of track `i`, counted from 0. -/
def trackLines (first : TrackDef) (i : Nat) (t : TrackDef) : List UInt8 :=
  let (m, s, f) := lbaToMsf (t.lba - first.lba).toNat
  ascii "  TRACK " ++ padded 2 (i + 1) ++ ascii " " ++
    (if t.isAudio then ascii "AUDIO" else ascii "MODE2/2352") ++ ascii "\r\n" ++
  (ascii "    INDEX 01 " ++ padded 2 m.toNat ++ ascii ":" ++ padded 2 s.toNat ++ ascii ":" ++
    padded 2 f.toNat ++ ascii "\r\n")

def tracksText (first : TrackDef) : Nat → List TrackDef → List UInt8
  | _, [] => []
  | i, t :: rest => trackLines first i t ++ tracksText first (i + 1) rest

/-- What `cobra_create_cue` prints to the file it opened. -/
def cobraCreateCue (filename : List UInt8) (tracks : List TrackDef) :
    Except CueError (List UInt8) :=
  match tracks with
  | [] => .error .einval
  | first :: _ =>
    .ok (ascii "FILE \"" ++ filename ++ ascii "\" BINARY\r\n" ++ tracksText first 0 tracks)

/-! ## Reading -/

/-- The locals of the scan besides the pointer: `tracks_lba` up to `ntracks`,
and the block `strncpy` left in `filename`. -/
structure CueState where
  binFile : Bool
  readIndex : Bool
  lbas : List UInt32
  ret : CueError
  filename : Option (List UInt8)
  deriving DecidableEq

/-- Where one pass through the loop body leads: to the end of the line, to
`continue_loop`, or out of the loop. -/
inductive Next where
  | line (p : List UInt8) (st : CueState)
  | again (p : List UInt8) (st : CueState)
  | stop (st : CueState)
  deriving DecidableEq

/-- `skip_spaces()`, then `go` at the first byte above a space. -/
def skipSpaces (st : CueState) (go : List UInt8 → Option Next) : List UInt8 → Option Next
  | [] => none
  | b :: p =>
    if b ≤ 32 then
      if b = 10 then some (.again p st)
      else if b = 0 then some (.stop st)
      else skipSpaces st go p
    else go (b :: p)

/-- A word of the cue syntax followed by a space or control byte, but not by
the terminator. -/
def atKeyword (word p : List UInt8) : Option Bool :=
  (startsNoCase word p).bind fun found =>
    if found then (p[word.length]?).map (fun b => b ≤ 32 && 0 < b) else some false

/-- The scan for the closing quote. -/
inductive Quoted where
  | closed (name p : List UInt8)
  | newline (p : List UInt8)
  | ended (name p : List UInt8)

def quoted (name : List UInt8) : List UInt8 → Option Quoted
  | [] => none
  | b :: p =>
    if b = 34 then some (.closed name p)
    else if b = 10 then some (.newline p)
    else if b = 0 then some (.ended name p)
    else quoted (name ++ [b]) p

/-- The part of a name after its last slash or backslash. -/
def lastTrail (name : List UInt8) : List UInt8 :=
  (name.reverse.takeWhile (fun b => b != 47 && b != 92)).reverse

def fileEntry (fnSize : Nat) (p : List UInt8) (st : CueState) : Option Next :=
  if st.binFile then some (.stop st)
  else
    skipSpaces st (fun p =>
      match p with
      | 34 :: q =>
        let st := { st with binFile := true }
        (quoted [] q).bind fun r =>
          match r with
          | .closed name q =>
            some (.line q { st with filename := some (strncpy (lastTrail name) fnSize) })
          | .newline q => some (.again q st)
          | .ended name q =>
            -- the byte stored over is the one after the terminator
            match q with
            | [] => none
            | _ :: q => some (.line q { st with
                lbas := [], ret := .eabort, filename := some (strncpy (lastTrail name) fnSize) })
      | _ => some (.line p st)) (p.drop 4)

/-- The test of the track type; the first type is compared up to its ninth byte. -/
def supportedType (ntracks : Nat) (p : List UInt8) : Option Bool :=
  let (word, after) := if ntracks = 0 then (ascii "MODE2/235", 10) else (ascii "AUDIO", 5)
  (startsNoCase word p).bind fun found =>
    if found then (p[after]?).map (fun b => b ≤ 32) else some false

def trackEntry (p : List UInt8) (st : CueState) : Option Next :=
  if st.readIndex then some (.stop { st with ret := .enotsup })
  else if !st.binFile then some (.stop { st with ret := .enotsup })
  else
    skipSpaces st (fun p =>
      (strtol p).bind fun number =>
        if number.1 ≠ (st.lbas.length : Int) + 1 then some (.stop st)
        else
          skipSpaces st (fun p =>
            (supportedType st.lbas.length p).map (fun ok =>
              if ok then .line p { st with readIndex := true }
              else .stop { st with ret := .enotsup })) number.2) (p.drop 5)

/-- The value a `long` has as `uint8_t`. -/
def toByte (n : Int) : UInt8 := UInt8.ofNat (n % 256).toNat

def indexEntry (p : List UInt8) (st : CueState) : Option Next :=
  if !st.readIndex then some (.line p st)
  else
    skipSpaces st (fun p =>
      (strtol p).bind fun number =>
        if number.1 ≠ 1 then some (.line number.2 st)
        else
          skipSpaces st (fun p =>
            (strtol p).bind fun minutes =>
            -- whatever byte follows a number is stepped over
            (minutes.2.tail?).bind fun p =>
            (strtol p).bind fun seconds =>
            (seconds.2.tail?).bind fun p =>
            (strtol p).bind fun frames =>
            let lba := msfToLba (toByte minutes.1) (toByte seconds.1) (toByte frames.1)
            if st.lbas.length = 0 ∧ lba ≠ 0 then some (.stop { st with ret := .enotsup })
            else some (.line frames.2 { st with
              lbas := st.lbas ++ [UInt32.ofNat lba], readIndex := false })) number.2) (p.drop 5)

def entry (fnSize : Nat) (p : List UInt8) (st : CueState) : Option Next :=
  (atKeyword (ascii "FILE") p).bind fun file =>
    if file then fileEntry fnSize p st
    else
      (atKeyword (ascii "TRACK") p).bind fun track =>
        if track then trackEntry p st
        else
          (atKeyword (ascii "INDEX") p).bind fun index =>
            if index then indexEntry p st else some (.line p st)

/-- The bytes from the newline or terminator on. -/
def lineEnd : List UInt8 → Option (List UInt8)
  | [] => none
  | b :: p => if b = 10 ∨ b = 0 then some (b :: p) else lineEnd p

/-- The loop from `continue_loop` on; the label stands behind the test of the
`while`, which only the end of a line leads to. -/
def scan (maxTracks fnSize : Nat) : Nat → List UInt8 → CueState → Option CueState
  | 0, _, _ => none
  | fuel + 1, p, st =>
    (skipSpaces st (fun p => entry fnSize p st) p).bind fun next =>
      match next with
      | .stop st => some st
      | .again p st => scan maxTracks fnSize fuel p st
      | .line p st =>
        (lineEnd p).bind fun p =>
          if p.head? = some 0 then some st
          else if st.lbas.length < maxTracks then scan maxTracks fnSize fuel p st
          else some st

structure ParsedCue where
  tracks : List TrackDef
  numTracks : Nat
  filename : Option (List UInt8)
  deriving DecidableEq

/-- `tracks[i]` for each address found. -/
def foundTracks : Nat → List UInt32 → List TrackDef
  | _, [] => []
  | i, lba :: rest => ⟨lba, i ≠ 0⟩ :: foundTracks (i + 1) rest

/-- No line of the text is scanned without a byte taken off it. -/
def cobraParseCue (cue : Option (List UInt8)) (maxTracks : UInt32) (fnSize : Nat) :
    Option (Except CueError ParsedCue) :=
  match cue with
  | none => some (.error .einval)
  | some text =>
    let start : CueState := ⟨false, false, [], .eabort, none⟩
    let final :=
      if 0 < maxTracks.toNat then scan maxTracks.toNat fnSize (2 * text.length + 1) text start
      else some start
    final.map (fun st =>
      if st.lbas.length = 0 then .error st.ret
      else .ok ⟨foundTracks 0 (st.lbas.take maxTracks.toNat),
        if st.lbas.length > maxTracks.toNat then maxTracks.toNat else st.lbas.length,
        st.filename⟩)

/-! ## The scan over written lines -/

theorem stops_cons {b : UInt8} (p : List UInt8) (other : isDigit b = false) : Stops (b :: p) :=
  ⟨b, p, rfl, other⟩

theorem skipSpaces_padded (st : CueState) (go : List UInt8 → Option Next) (w n : Nat)
    (p : List UInt8) : skipSpaces st go (padded w n ++ p) = go (padded w n ++ p) := by
  obtain ⟨d, more, small, head⟩ := padded_head w n
  have visible : ∀ d, d < 10 → ¬ UInt8.ofNat (48 + d) ≤ 32 := by decide
  rw [head, List.cons_append, skipSpaces, if_neg (visible d small)]

theorem quoted_name (read name p : List UInt8)
    (plain : ∀ b ∈ name, b ≠ 34 ∧ b ≠ 10 ∧ b ≠ 0) :
    quoted read (name ++ 34 :: p) = some (.closed (read ++ name) p) := by
  induction name generalizing read with
  | nil => rw [List.append_nil]; rfl
  | cons b name ih =>
    obtain ⟨quote, newline, nul⟩ := plain b List.mem_cons_self
    rw [List.cons_append, quoted, if_neg quote, if_neg newline, if_neg nul,
      ih _ (fun c hc => plain c (List.mem_cons_of_mem b hc)), List.append_assoc]
    rfl

theorem lastTrail_plain {name : List UInt8} (plain : ∀ b ∈ name, b ≠ 47 ∧ b ≠ 92) :
    lastTrail name = name := by
  have all : ∀ b ∈ name.reverse, (b != 47 && b != 92) = true := by
    intro b hb
    obtain ⟨slash, backslash⟩ := plain b (List.mem_reverse.mp hb)
    simp [slash, backslash]
  rw [lastTrail, List.takeWhile_eq_self_iff.mpr all, List.reverse_reverse]

/-- A C string shorter than the block is found in it. -/
theorem cString_strncpy {name : List UInt8} {n : Nat} (short : name.length < n)
    (plain : ∀ b ∈ name, b ≠ 0) : cString (strncpy name n) = name := by
  obtain ⟨k, hk⟩ : ∃ k, n - name.length = k + 1 := ⟨n - name.length - 1, by omega⟩
  have all : ∀ b ∈ name, (b != 0) = true := by
    intro b hb
    simpa using plain b hb
  rw [cString, strncpy, List.take_of_length_le short.le, hk, List.replicate_succ,
    List.takeWhile_append_of_pos all]
  simp

theorem toByte_natCast {n : Nat} (small : n < 256) : toByte (n : Int) = UInt8.ofNat n := by
  rw [toByte]
  congr 1
  omega

/-- Within 256 minutes the three bytes name the sector. -/
theorem msfToLba_lbaToMsf {lba : Nat} (small : lba < 256 * 60 * 75) :
    msfToLba (lbaToMsf lba).1 (lbaToMsf lba).2.1 (lbaToMsf lba).2.2 = lba := by
  simp only [msfToLba, lbaToMsf, UInt8.toNat_ofNat']
  omega

section Lines
variable (maxTracks fnSize fuel : Nat) (rest : List UInt8)

theorem scan_newline (st : CueState) :
    scan maxTracks fnSize (fuel + 1) (10 :: rest) st = scan maxTracks fnSize fuel rest st := rfl

theorem scan_end (st : CueState) : scan maxTracks fnSize (fuel + 1) (0 :: rest) st = some st := rfl

/-- A pass that ends in the rest of its line goes on behind the newline. -/
theorem scan_line {st st' : CueState} {p p' : List UInt8}
    (pass : skipSpaces st (fun p => entry fnSize p st) p = some (.line p' st'))
    (ends : lineEnd p' = some (10 :: rest)) :
    scan maxTracks fnSize (fuel + 2) p st =
      if st'.lbas.length < maxTracks then scan maxTracks fnSize fuel rest st' else some st' := by
  rw [scan, pass, Option.bind_some]
  simp only [ends, Option.bind_some]
  have more : (10 :: rest).head? ≠ some (0 : UInt8) := by
    intro h
    exact absurd (Option.some.inj h) (by decide)
  rw [if_neg more, scan_newline]

theorem scan_fileLine (st : CueState) {name : List UInt8} (none' : st.binFile = false)
    (room : st.lbas.length < maxTracks)
    (plain : ∀ b ∈ name, b ≠ 34 ∧ b ≠ 10 ∧ b ≠ 0 ∧ b ≠ 47 ∧ b ≠ 92) :
    scan maxTracks fnSize (fuel + 2)
        (ascii "FILE \"" ++ name ++ ascii "\" BINARY\r\n" ++ rest) st =
      scan maxTracks fnSize fuel rest
        { st with binFile := true, filename := some (strncpy name fnSize) } := by
  have read : quoted [] (name ++ (ascii "\" BINARY\r\n" ++ rest)) =
      some (.closed name (ascii " BINARY\r\n" ++ rest)) :=
    quoted_name [] name _ (fun b hb =>
      ⟨(plain b hb).1, (plain b hb).2.1, (plain b hb).2.2.1⟩)
  have trail := lastTrail_plain (fun b hb => (plain b hb).2.2.2)
  have pass : skipSpaces st (fun p => entry fnSize p st)
      (ascii "FILE \"" ++ (name ++ (ascii "\" BINARY\r\n" ++ rest))) =
      some (.line (ascii " BINARY\r\n" ++ rest)
        { st with binFile := true, filename := some (strncpy name fnSize) }) := by
    change fileEntry fnSize (ascii "FILE \"" ++ (name ++ (ascii "\" BINARY\r\n" ++ rest))) st = _
    rw [fileEntry, if_neg (by rw [none']; exact Bool.false_ne_true)]
    change (quoted [] (name ++ (ascii "\" BINARY\r\n" ++ rest))).bind _ = _
    rw [read]
    change some (Next.line _
      { st with binFile := true, filename := some (strncpy (lastTrail name) fnSize) }) = _
    rw [trail]
  have ends : lineEnd (ascii " BINARY\r\n" ++ rest) = some (10 :: rest) := rfl
  simp only [List.append_assoc]
  rw [scan_line maxTracks fnSize fuel rest pass ends, if_pos room]

/-- The text of a track's type, with its line end. -/
theorem supportedType_written (t : TrackDef) {n : Nat} (kind : t.isAudio = decide (n ≠ 0)) :
    supportedType n ((if t.isAudio then ascii "AUDIO" else ascii "MODE2/2352") ++
      (ascii "\r\n" ++ rest)) = some true ∧
    lineEnd ((if t.isAudio then ascii "AUDIO" else ascii "MODE2/2352") ++
      (ascii "\r\n" ++ rest)) = some (10 :: rest) := by
  cases n with
  | zero =>
    rw [kind]
    exact ⟨rfl, rfl⟩
  | succ n =>
    rw [kind]
    exact ⟨rfl, rfl⟩

theorem skipSpaces_type (st : CueState) (go : List UInt8 → Option Next) (t : TrackDef) :
    skipSpaces st go (ascii " " ++ ((if t.isAudio then ascii "AUDIO" else ascii "MODE2/2352") ++
        rest)) =
      go ((if t.isAudio then ascii "AUDIO" else ascii "MODE2/2352") ++ rest) := by
  cases t.isAudio <;> rfl

theorem scan_trackLine {st : CueState} {t : TrackDef} (named : st.binFile = true)
    (idle : st.readIndex = false) (room : st.lbas.length < maxTracks) (range : maxTracks < 2 ^ 32)
    (kind : t.isAudio = decide (st.lbas.length ≠ 0)) :
    scan maxTracks fnSize (fuel + 2)
        (ascii "  TRACK " ++ (padded 2 (st.lbas.length + 1) ++ (ascii " " ++
          ((if t.isAudio then ascii "AUDIO" else ascii "MODE2/2352") ++
            (ascii "\r\n" ++ rest))))) st =
      scan maxTracks fnSize fuel rest { st with readIndex := true } := by
  obtain ⟨supported, ends⟩ := supportedType_written rest t kind
  have space : Stops (ascii " " ++ ((if t.isAudio then ascii "AUDIO" else ascii "MODE2/2352") ++
      (ascii "\r\n" ++ rest))) := stops_cons _ rfl
  have number : strtol (padded 2 (st.lbas.length + 1) ++ _) = some (_, _) :=
    strtol_padded 2 (by omega) space
  have pass : skipSpaces st (fun p => entry fnSize p st)
      (ascii "  TRACK " ++ (padded 2 (st.lbas.length + 1) ++ (ascii " " ++
        ((if t.isAudio then ascii "AUDIO" else ascii "MODE2/2352") ++ (ascii "\r\n" ++ rest))))) =
      some (.line ((if t.isAudio then ascii "AUDIO" else ascii "MODE2/2352") ++
        (ascii "\r\n" ++ rest)) { st with readIndex := true }) := by
    change trackEntry (ascii "TRACK " ++ (padded 2 (st.lbas.length + 1) ++ (ascii " " ++
      ((if t.isAudio then ascii "AUDIO" else ascii "MODE2/2352") ++
        (ascii "\r\n" ++ rest))))) st = _
    rw [trackEntry, if_neg (by rw [idle]; exact Bool.false_ne_true),
      if_neg (by rw [named]; exact Bool.false_ne_true)]
    change skipSpaces st _ (padded 2 (st.lbas.length + 1) ++ (ascii " " ++
      ((if t.isAudio then ascii "AUDIO" else ascii "MODE2/2352") ++ (ascii "\r\n" ++ rest)))) = _
    rw [skipSpaces_padded, number, Option.bind_some, if_neg (by simp), skipSpaces_type, supported,
      Option.map_some, if_pos rfl]
  rw [scan_line maxTracks fnSize fuel rest pass ends, if_pos room]

theorem scan_indexLine (st : CueState) {lba : UInt32} (pending : st.readIndex = true)
    (small : lba.toNat < 256 * 60 * 75) (first : st.lbas.length = 0 → lba = 0) :
    scan maxTracks fnSize (fuel + 2)
        (ascii "    INDEX 01 " ++ (padded 2 (lbaToMsf lba.toNat).1.toNat ++ (ascii ":" ++
          (padded 2 (lbaToMsf lba.toNat).2.1.toNat ++ (ascii ":" ++
            (padded 2 (lbaToMsf lba.toNat).2.2.toNat ++ (ascii "\r\n" ++ rest))))))) st =
      if st.lbas.length + 1 < maxTracks then
        scan maxTracks fnSize fuel rest { st with lbas := st.lbas ++ [lba], readIndex := false }
      else some { st with lbas := st.lbas ++ [lba], readIndex := false } := by
  have read : ∀ (b : UInt8) {q : List UInt8}, Stops q →
      strtol (padded 2 b.toNat ++ q) = some ((b.toNat : Int), q) := by
    intro b q stop
    have := b.toNat_lt
    exact strtol_padded 2 (by omega) stop
  have colon : ∀ q, Stops (ascii ":" ++ q) := fun q => stops_cons q rfl
  have crlf : Stops (ascii "\r\n" ++ rest) := stops_cons _ rfl
  have byte : ∀ b : UInt8, toByte (b.toNat : Int) = b := by
    intro b
    rw [toByte_natCast b.toNat_lt, UInt8.ofNat_toNat]
  have exact := msfToLba_lbaToMsf small
  generalize lbaToMsf lba.toNat = msf at exact ⊢
  obtain ⟨m, s, f⟩ := msf
  have zero : ¬ (st.lbas.length = 0 ∧ lba.toNat ≠ 0) := by
    rintro ⟨none', nonzero⟩
    rw [first none'] at nonzero
    exact nonzero rfl
  have pass : skipSpaces st (fun p => entry fnSize p st)
      (ascii "    INDEX 01 " ++ (padded 2 m.toNat ++
        (ascii ":" ++ (padded 2 s.toNat ++ (ascii ":" ++
        (padded 2 f.toNat ++ (ascii "\r\n" ++ rest))))))) =
      some (.line (ascii "\r\n" ++ rest)
        { st with lbas := st.lbas ++ [lba], readIndex := false }) := by
    change indexEntry (ascii "INDEX 01 " ++ (padded 2 m.toNat ++ (ascii ":" ++ (padded 2 s.toNat ++
      (ascii ":" ++ (padded 2 f.toNat ++ (ascii "\r\n" ++ rest))))))) st = _
    rw [indexEntry, if_neg (by rw [pending]; exact Bool.false_ne_true)]
    change skipSpaces st _ (padded 2 m.toNat ++ (ascii ":" ++ (padded 2 s.toNat ++
      (ascii ":" ++ (padded 2 f.toNat ++ (ascii "\r\n" ++ rest)))))) = _
    rw [skipSpaces_padded, read m (colon _), Option.bind_some]
    change (strtol (padded 2 s.toNat ++ (ascii ":" ++ (padded 2 f.toNat ++
      (ascii "\r\n" ++ rest))))).bind _ = _
    rw [read s (colon _), Option.bind_some]
    change (strtol (padded 2 f.toNat ++ (ascii "\r\n" ++ rest))).bind _ = _
    rw [read f crlf, Option.bind_some]
    simp only [byte, exact, if_neg zero, UInt32.ofNat_toNat]
  have ends : lineEnd (ascii "\r\n" ++ rest) = some (10 :: rest) := rfl
  rw [scan_line maxTracks fnSize fuel rest pass ends, List.length_append, List.length_singleton]

/-- The two lines of one track add its address, unless the limit is reached. -/
theorem scan_track (st : CueState) {first t : TrackDef} (named : st.binFile = true)
    (idle : st.readIndex = false) (room : st.lbas.length < maxTracks) (range : maxTracks < 2 ^ 32)
    (kind : t.isAudio = decide (st.lbas.length ≠ 0))
    (small : (t.lba - first.lba).toNat < 256 * 60 * 75)
    (start : st.lbas.length = 0 → t.lba - first.lba = 0) :
    scan maxTracks fnSize (fuel + 4) (trackLines first st.lbas.length t ++ rest) st =
      if st.lbas.length + 1 < maxTracks then
        scan maxTracks fnSize fuel rest
          { st with lbas := st.lbas ++ [t.lba - first.lba], readIndex := false }
      else some { st with lbas := st.lbas ++ [t.lba - first.lba], readIndex := false } := by
  simp only [trackLines, List.append_assoc]
  rw [scan_trackLine maxTracks fnSize (fuel + 2) _ named idle room range kind]
  exact scan_indexLine maxTracks fnSize fuel rest { st with readIndex := true } rfl small start

end Lines

/-- The scan over the lines of the audio tracks, to the terminator or the limit. -/
theorem scan_tracks {maxTracks : Nat} (fnSize fuel : Nat) (beyond : List UInt8) (first : TrackDef)
    (range : maxTracks < 2 ^ 32) (tracks : List TrackDef) (st : CueState)
    (named : st.binFile = true) (idle : st.readIndex = false) (begun : st.lbas.length ≠ 0)
    (audio : ∀ t ∈ tracks, t.isAudio = true)
    (small : ∀ t ∈ tracks, (t.lba - first.lba).toNat < 256 * 60 * 75)
    (room : st.lbas.length + tracks.length ≤ maxTracks) :
    scan maxTracks fnSize (fuel + 1 + 4 * tracks.length)
        (tracksText first st.lbas.length tracks ++ 0 :: beyond) st =
      some { st with
        lbas := st.lbas ++ tracks.map (fun t => t.lba - first.lba), readIndex := false } := by
  induction tracks generalizing st with
  | nil =>
    rw [tracksText, List.nil_append, List.length_nil, Nat.mul_zero, Nat.add_zero, scan_end,
      List.map_nil, List.append_nil, ← idle]
  | cons t tracks ih =>
    rw [List.length_cons] at room ⊢
    have kind : t.isAudio = decide (st.lbas.length ≠ 0) := by
      rw [audio t List.mem_cons_self, decide_eq_true begun]
    have more : fuel + 1 + 4 * (tracks.length + 1) = fuel + 1 + 4 * tracks.length + 4 := by omega
    rw [tracksText, List.append_assoc, more, scan_track maxTracks fnSize _ _ st named idle
      (by omega)
      range kind (small t List.mem_cons_self) (fun none' => absurd none' begun)]
    have after : ∀ x : UInt32, (st.lbas ++ [x]).length = st.lbas.length + 1 := by
      intro x
      rw [List.length_append, List.length_singleton]
    have next := ih { st with lbas := st.lbas ++ [t.lba - first.lba], readIndex := false }
      named rfl (by rw [after]; exact Nat.succ_ne_zero _)
      (fun u hu => audio u (List.mem_cons_of_mem t hu))
      (fun u hu => small u (List.mem_cons_of_mem t hu)) (by rw [after]; omega)
    simp only [after, List.append_assoc, List.singleton_append] at next
    by_cases full : st.lbas.length + 1 < maxTracks
    · rw [if_pos full, next, List.map_cons]
    · have last : tracks = [] := List.length_eq_zero_iff.mp (by omega)
      rw [if_neg full, last]
      rfl

/-! ## Round trip -/

theorem tracksText_length (first : TrackDef) (i : Nat) (tracks : List TrackDef) :
    2 * tracks.length ≤ (tracksText first i tracks).length := by
  induction tracks generalizing i with
  | nil => exact Nat.zero_le _
  | cons t rest ih =>
    have := ih (i + 1)
    have lead : (ascii "  TRACK ").length = 8 := rfl
    simp only [tracksText, trackLines, List.length_append, List.length_cons, lead]
    omega

theorem foundTracks_audio (first : TrackDef) (i : Nat) (later : i ≠ 0) (tracks : List TrackDef)
    (audio : ∀ t ∈ tracks, t.isAudio = true) :
    foundTracks i (tracks.map (fun t => t.lba - first.lba)) =
      tracks.map (fun t => ⟨t.lba - first.lba, t.isAudio⟩) := by
  induction tracks generalizing i with
  | nil => rfl
  | cons t rest ih =>
    rw [List.map_cons, foundTracks, ih (i + 1) (Nat.succ_ne_zero i)
      (fun u hu => audio u (List.mem_cons_of_mem t hu)), decide_eq_true later, List.map_cons,
      audio t List.mem_cons_self]

/-- The track lists and names a cue sheet can carry: a data track, then audio
tracks, all within 256 minutes of the first. -/
structure Carried (maxTracks : UInt32) (fnSize : Nat) (name : List UInt8) (first : TrackDef)
    (others : List TrackDef) : Prop where
  count : (first :: others).length ≤ maxTracks.toNat
  data : first.isAudio = false
  audio : ∀ t ∈ others, t.isAudio = true
  range : ∀ t ∈ first :: others, (t.lba - first.lba).toNat < 256 * 60 * 75
  short : name.length < fnSize
  plain : ∀ b ∈ name, b ≠ 34 ∧ b ≠ 10 ∧ b ≠ 0 ∧ b ≠ 47 ∧ b ≠ 92

/-- What was written is read back, whatever follows the terminator. -/
theorem parse_create {maxTracks : UInt32} {fnSize : Nat} {name : List UInt8} {first : TrackDef}
    {others : List TrackDef} (carried : Carried maxTracks fnSize name first others)
    (beyond : List UInt8) :
    ∃ text block, cobraCreateCue name (first :: others) = .ok text ∧
      cobraParseCue (some (text ++ 0 :: beyond)) maxTracks fnSize =
        some (.ok ⟨(first :: others).map (fun t => ⟨t.lba - first.lba, t.isAudio⟩),
          (first :: others).length, some block⟩) ∧
      block.length = fnSize ∧ cString block = name := by
  have count := carried.count
  have limit : maxTracks.toNat < 2 ^ 32 := maxTracks.toNat_lt
  have origin : first.lba - first.lba = 0 := UInt32.sub_self _
  refine ⟨_, strncpy name fnSize, rfl, ?_, ?_, ?_⟩
  · let start : CueState := ⟨false, false, [], .eabort, none⟩
    let named : CueState := ⟨true, false, [], .eabort, some (strncpy name fnSize)⟩
    let final : CueState := ⟨true, false,
      (first :: others).map (fun t => t.lba - first.lba), .eabort, some (strncpy name fnSize)⟩
    have scanned : ∀ fuel, scan maxTracks.toNat fnSize
        (fuel + 1 + 4 * others.length + 4 + 2)
        (ascii "FILE \"" ++ name ++ ascii "\" BINARY\r\n" ++
          (tracksText first 0 (first :: others) ++ 0 :: beyond)) start = some final := by
      intro fuel
      rw [List.length_cons] at count
      have one := scan_track maxTracks.toNat fnSize (fuel + 1 + 4 * others.length)
        (tracksText first 1 others ++ 0 :: beyond) named (t := first) rfl rfl
        (by change 0 < _; omega) limit carried.data
        (carried.range first List.mem_cons_self) (fun _ => origin)
      have rest := scan_tracks fnSize fuel beyond first limit others
        { named with lbas := [first.lba - first.lba] } rfl rfl (Nat.succ_ne_zero 0)
        carried.audio (fun t ht => carried.range t (List.mem_cons_of_mem first ht))
        (by change 1 + _ ≤ _; omega)
      rw [scan_fileLine _ _ _ _ start rfl (by change 0 < _; omega) carried.plain,
        tracksText, List.append_assoc]
      refine one.trans ?_
      by_cases full : named.lbas.length + 1 < maxTracks.toNat
      · rw [if_pos full]
        exact rest
      · have last : others = [] := by
          change ¬ 0 + 1 < _ at full
          exact List.length_eq_zero_iff.mp (by omega)
        subst last
        rw [if_neg full]
        rfl
    have long := tracksText_length first 0 (first :: others)
    rw [List.length_cons] at long
    obtain ⟨fuel, enough⟩ : ∃ fuel, 2 * (ascii "FILE \"" ++ name ++ ascii "\" BINARY\r\n" ++
        (tracksText first 0 (first :: others) ++ 0 :: beyond)).length + 1 =
        fuel + 1 + 4 * others.length + 4 + 2 := by
      have head : (ascii "FILE \"").length = 6 := rfl
      simp only [List.length_append, head]
      exact ⟨2 * (6 + name.length + (ascii "\" BINARY\r\n").length +
        ((tracksText first 0 (first :: others)).length + (0 :: beyond).length)) -
        (4 * others.length + 6), by omega⟩
    have positive : 0 < maxTracks.toNat := by
      rw [List.length_cons] at count
      omega
    have found : foundTracks 0 final.lbas =
        (first :: others).map (fun t => ⟨t.lba - first.lba, t.isAudio⟩) := by
      change ⟨_, _⟩ :: foundTracks 1 (others.map (fun t => t.lba - first.lba)) = _
      rw [foundTracks_audio first 1 Nat.one_ne_zero others carried.audio, List.map_cons,
        carried.data]
      rfl
    have length : final.lbas.length = (first :: others).length := List.length_map _
    rw [cobraParseCue, List.append_assoc]
    simp only [if_pos positive]
    rw [enough, scanned, Option.map_some, if_neg (by rw [length]; exact Nat.succ_ne_zero _),
      List.take_of_length_le (by rw [length]; exact count), found,
      if_neg (by rw [length]; omega), length]
  · have short := carried.short
    simp only [strncpy, List.length_append, List.length_take, List.length_replicate]
    omega
  · exact cString_strncpy carried.short (fun b hb => (carried.plain b hb).2.2.1)

/-- A data track and one audio track two minutes later. -/
theorem carried_two_tracks :
    Carried 100 64 (ascii "a.bin") ⟨150, false⟩ [⟨9150, true⟩] :=
  ⟨by decide, rfl, by decide, by decide, by decide, by decide +kernel⟩

theorem parse_create_two_tracks : ∃ text block,
    cobraCreateCue (ascii "a.bin") [⟨150, false⟩, ⟨9150, true⟩] = .ok text ∧
      cobraParseCue (some (text ++ [0])) 100 64 =
        some (.ok ⟨[⟨0, false⟩, ⟨9000, true⟩], 2, some block⟩) ∧
      block.length = 64 ∧ cString block = ascii "a.bin" :=
  parse_create carried_two_tracks []

end CueSheets
