import NtfsIsoMounter.FtpSession

/-!
# Restart offsets over FTP

REST says where the next transfer is to start. What is kept of its number is what `atoi` makes of
the parameter, and it is kept over TYPE only.
-/

namespace FtpOffsets

open CText FtpCommands FtpSession FtpTransfers TurnRuns

/-! ## The numbers of the clients -/

/-- The value of some decimal digits. -/
def decimalValue (text : List UInt8) : Nat :=
  text.foldl (fun acc b => acc * 10 + (b.toNat - 48)) 0

/-- The number a text consists of, if it is a file offset. -/
def decimal (text : List UInt8) : Option Nat :=
  if text ≠ [] ∧ text.all isDigit ∧ decimalValue text < 2 ^ 63 then some (decimalValue text)
  else none

/-- What a client has sent behind its command. -/
def sent (r : Request) : List UInt8 := (argument (commandLine r.data)).getD []

/-- The REST in force behind a turn: TYPE leaves it in force, and every other command does not. -/
def restBehind (p : Option Request) (t : SessionTurn) : Option Request :=
  if t.before.control.loggedin then
    match t.input.verb with
    | .rest => if t.input.param.isSome then some t.input else none
    | .type => p
    | _ => none
  else p

def restInForce (before : List SessionTurn) : Option Request := before.foldl restBehind none

/-- The offset the next transfer has to start at. -/
def wantedOffset (r : Option Request) : Nat := (r.bind fun r => decimal (sent r)).getD 0

/-- Where a transfer starts. -/
def StartsAt (offset : Nat) : Action → Prop
  | .sendfile _ rest => startOffset Int.toNat rest = offset
  | .recvfile _ rest => startOffset Int.toNat rest = offset
  | _ => True

/-- A transfer starts where the REST in force says, and without one at the beginning. -/
def OffsetRight (before : List SessionTurn) (t : SessionTurn) : Prop :=
  ∀ a ∈ t.outputs, StartsAt (wantedOffset (restInForce before)) a

/-- A number that an `int` holds and that fits in the buffer for the parameter, or a text
that is no number and begins with none that is positive. -/
def Holds (r : Request) : Prop :=
  match decimal (sent r) with
  | some n => n < 2 ^ 31 ∧ ((sent r).length ≤ 1023 ∨ n = 0)
  | none => atoi r.world.overflow ((sent r).take 1023) ≤ 0

/-- STOR with a name, and RETR of a file that exists, over a data connection. -/
def Transfers (s : Session) (v : Verb) (param : Option (List UInt8)) (w : World) : Prop :=
  0 < s.dataS ∧ param.isSome ∧ (v = .stor ∨ (v = .retr ∧ w.stat.isSome))

/-- A transfer comes behind a REST whose number is kept. -/
def OffsetKept (before : List SessionTurn) (t : SessionTurn) : Prop :=
  t.before.control.loggedin = true →
    Transfers t.before t.input.verb t.input.param t.input.world →
      ∀ r ∈ restInForce before, Holds r

instance (r : Request) : Decidable (Holds r) :=
  match number : decimal (sent r) with
  | some n =>
    decidable_of_iff (n < 2 ^ 31 ∧ ((sent r).length ≤ 1023 ∨ n = 0)) (by rw [Holds, number])
  | none =>
    decidable_of_iff (atoi r.world.overflow ((sent r).take 1023) ≤ 0) (by rw [Holds, number])

instance (s : Session) (v : Verb) (param : Option (List UInt8)) (w : World) :
    Decidable (Transfers s v param w) :=
  inferInstanceAs (Decidable (_ ∧ _))

instance (before : List SessionTurn) (t : SessionTurn) : Decidable (OffsetKept before t) :=
  inferInstanceAs (Decidable (_ → _ → _))

instance (offset : Nat) : DecidablePred (StartsAt offset)
  | .sendfile _ rest => inferInstanceAs (Decidable (startOffset Int.toNat rest = offset))
  | .recvfile _ rest => inferInstanceAs (Decidable (startOffset Int.toNat rest = offset))
  | .plain _ | .rename _ _ => isTrue trivial

instance (before : List SessionTurn) (t : SessionTurn) : Decidable (OffsetRight before t) :=
  inferInstanceAs (Decidable (∀ a ∈ t.outputs, StartsAt (wantedOffset (restInForce before)) a))

/-! ## What `atoi` makes of a number -/

theorem readDigits_all {text : List UInt8} (digits : ∀ b ∈ text, isDigit b = true) (acc : Nat) :
    readDigits acc (text ++ [0]) =
      some (text.foldl (fun acc b => acc * 10 + (b.toNat - 48)) acc, [0]) := by
  induction text generalizing acc with
  | nil => rfl
  | cons b text ih =>
    rw [List.cons_append, readDigits, if_pos (digits b List.mem_cons_self),
      ih fun c hc => digits c (List.mem_cons_of_mem _ hc), List.foldl_cons]

theorem isSpace_digit {b : UInt8} (digit : isDigit b = true) : isSpace b = false := by
  have low : 48 ≤ b.toNat := by
    rw [isDigit, Bool.and_eq_true, decide_eq_true_iff, UInt8.le_iff_toNat_le] at digit
    exact digit.1
  rw [isSpace, Bool.or_eq_false_iff, Bool.and_eq_false_iff]
  constructor
  · apply beq_false_of_ne
    rintro rfl
    exact absurd low (by decide)
  · apply Or.inr
    rw [decide_eq_false_iff_not, UInt8.le_iff_toNat_le]
    intro high
    exact absurd (low.trans high) (by decide)

theorem readSign_digit {b : UInt8} (digit : isDigit b = true) (p : List UInt8) :
    readSign (b :: p) = (false, b :: p) := by
  have minus : b ≠ 45 := by rintro rfl; revert digit; decide
  have plus : b ≠ 43 := by rintro rfl; revert digit; decide
  rw [readSign]
  · rintro q same
    exact minus (List.cons.inj same).1
  · rintro q same
    exact plus (List.cons.inj same).1

/-- A text of digits is read as its value if an `int` holds it. -/
theorem atoi_digits {text : List UInt8} (some' : text ≠ [])
    (digits : ∀ b ∈ text, isDigit b = true) (overflow : Int32) :
    (decimalValue text < 2 ^ 31 → atoi overflow text = decimalValue text) ∧
      (2 ^ 31 ≤ decimalValue text → atoi overflow text = overflow.toInt) := by
  obtain ⟨b, rest, rfl⟩ := List.exists_cons_of_ne_nil some'
  have digit := digits b List.mem_cons_self
  have read : strtol (b :: rest ++ [0]) = some (clampLong (decimalValue (b :: rest)), [0]) := by
    have value := readDigits_all digits 0
    rw [List.cons_append] at value ⊢
    rw [strtol, skipWhite, if_neg (by rw [isSpace_digit digit]; exact Bool.false_ne_true),
      Option.bind_some, readSign_digit digit]
    simp only [digit, if_true, value, Option.map_some]
    rfl
  constructor
  · intro small
    have clamped : clampLong (decimalValue (b :: rest)) = (decimalValue (b :: rest) : Int) := by
      rw [clampLong]
      omega
    simp only [atoi, read, clamped]
    rw [if_pos (by omega)]
  · intro large
    have clamped : ¬ clampLong (decimalValue (b :: rest)) < 2 ^ 31 := by
      rw [clampLong]
      omega
    simp only [atoi, read]
    rw [if_neg fun both => clamped both.2]

theorem decimalValue_append (a b : List UInt8) :
    decimalValue a * 10 ^ b.length ≤ decimalValue (a ++ b) := by
  induction b using List.reverseRecOn with
  | nil => rw [List.append_nil, List.length_nil, Nat.pow_zero, Nat.mul_one]
  | append_singleton b c ih =>
    have step : decimalValue (a ++ (b ++ [c])) =
        decimalValue (a ++ b) * 10 + (c.toNat - 48) := by
      rw [← List.append_assoc, decimalValue, List.foldl_concat, decimalValue]
    rw [step, List.length_append, List.length_singleton, Nat.pow_succ, ← Nat.mul_assoc]
    omega

theorem startOffset_toNat (rest : Int) : startOffset Int.toNat rest = rest.toNat := by
  rw [startOffset]
  split
  · rfl
  · rw [Int.toNat_of_nonpos (by omega)]

theorem decimal_some {text : List UInt8} {n : Nat} (number : decimal text = some n) :
    text ≠ [] ∧ (∀ b ∈ text, isDigit b = true) ∧ decimalValue text = n := by
  rw [decimal] at number
  split at number
  · rename_i whole
    exact ⟨whole.1, List.all_eq_true.mp whole.2.1, Option.some.inj number⟩
  · cases number

/-- What is kept of a number of digits is the number exactly if an `int` holds it and it is not
cut. -/
theorem atoi_kept_iff {text : List UInt8} {n : Nat} (number : decimal text = some n)
    (overflow : Int32) : (atoi overflow (text.take 1023)).toNat = n ↔
      n < 2 ^ 31 ∧ (text.length ≤ 1023 ∨ n = 0) := by
  obtain ⟨some', digits, value⟩ := decimal_some number
  have kept : text.take 1023 ≠ [] := by
    rw [ne_eq, List.take_eq_nil_iff]
    rintro (zero | none')
    · cases zero
    · exact some' none'
  obtain ⟨small, large⟩ := atoi_digits kept (fun b hb => digits b (List.mem_of_mem_take hb))
    overflow
  have bound := overflow.toInt_lt
  by_cases short : text.length ≤ 1023
  · rw [List.take_of_length_le short, value] at small large
    rw [List.take_of_length_le short, and_iff_left (Or.inl short)]
    constructor
    · intro same
      by_contra wide
      rw [large (by omega)] at same
      omega
    · intro fits
      rw [small fits, Int.toNat_natCast]
  · have cut := decimalValue_append (text.take 1023) (text.drop 1023)
    rw [List.take_append_drop, value, List.length_drop] at cut
    have tenth : 10 ≤ 10 ^ (text.length - 1023) := Nat.le_self_pow (by omega) 10
    have most := (Nat.mul_le_mul_left (decimalValue (text.take 1023)) tenth).trans cut
    rw [or_iff_right short]
    by_cases fits : decimalValue (text.take 1023) < 2 ^ 31
    · rw [small fits, Int.toNat_natCast]
      omega
    · rw [large (by omega)]
      omega

/-- A transfer behind a REST starts at the number of the client exactly if it is kept. -/
theorem holds_iff {r : Request} (given : r.param.isSome) :
    startOffset Int.toNat (atoi r.world.overflow (r.param.getD [])) = wantedOffset (some r) ↔
      Holds r := by
  have same : r.param.getD [] = (sent r).take 1023 := by
    obtain ⟨p, hp⟩ := Option.isSome_iff_exists.mp given
    obtain ⟨text, htext, cut⟩ := Option.map_eq_some_iff.mp hp
    rw [hp, Option.getD_some, sent, htext, Option.getD_some, cut]
  rw [startOffset_toNat, same, wantedOffset, Option.bind_some, Holds]
  cases number : decimal (sent r) with
  | none => exact Int.toNat_eq_zero
  | some n => exact atoi_kept_iff number r.world.overflow

/-! ## The variable behind it -/

@[simp] theorem tail_dataactive (s : Session) : s.tail.dataactive = false := by
  rw [Session.tail]
  split
  · rfl
  · rename_i ended
    rw [Session.sclose]
    split
    · exact Bool.eq_false_iff.mpr ended
    · exact Bool.eq_false_iff.mpr ended

theorem tail_rest_kept {s : Session} (active : s.dataactive = true) : s.tail.rest = s.rest := by
  rw [Session.tail, if_pos active]

theorem tail_rest_zero {s : Session} (zero : s.dataactive = false ∨ s.rest = 0) :
    s.tail.rest = 0 := by
  rw [Session.tail]
  split
  · rename_i active
    exact zero.resolve_left (by rw [active]; exact nofun)
  · rfl

/-- What a command leaves behind the end of the loop. -/
def restLeft (s : Session) (v : Verb) (param : Option (List UInt8)) (w : World) : Int :=
  match v with
  | .type => s.rest
  | .rest => param.elim 0 (atoi w.overflow)
  | _ => 0

theorem command_rest {s s₁ : Session} {v : Verb} {param : Option (List UInt8)} {w : World}
    {actions : List Action} (ready : s.dataactive = false)
    (ran : command s v param w = some (s₁, actions)) : s₁.tail.rest = restLeft s v param w := by
  cases v with
  | pasv =>
    obtain ⟨-, ⟨-, rfl⟩ | ⟨-, rfl⟩⟩ := pasv_cases ran
    · exact tail_rest_zero (Or.inl ready)
    · exact tail_rest_zero (Or.inr rfl)
  | port =>
    obtain ⟨-, ⟨-, rfl⟩ | ⟨p, -, ⟨-, rfl⟩ | ⟨-, rfl⟩⟩⟩ := port_cases ran
    · exact tail_rest_zero (Or.inl ready)
    · exact tail_rest_zero (Or.inl ready)
    · exact tail_rest_zero (Or.inr rfl)
  | stor =>
    obtain ⟨rfl, -⟩ := stor_cases ran
    exact tail_rest_zero (Or.inl ready)
  | retr =>
    obtain ⟨rfl, -⟩ := retr_cases ran
    exact tail_rest_zero (Or.inl ready)
  | type =>
    cases ran
    exact tail_rest_kept rfl
  | rest =>
    cases param with
    | none =>
      cases ran
      exact tail_rest_zero (Or.inl ready)
    | some p =>
      cases ran
      exact tail_rest_kept rfl
  | rnfr =>
    rcases rnfr_cases ran with ⟨-, rfl, -⟩ | ⟨p, path, -, -, rfl, -⟩
    · exact tail_rest_zero (Or.inl ready)
    · exact tail_rest_zero (Or.inl ready)
  | rnto =>
    obtain ⟨rfl, -⟩ := rnto_cases ran
    exact tail_rest_zero (Or.inl ready)
  | abor =>
    cases ran
    refine tail_rest_zero (Or.inl ?_)
    rw [Session.sclose]
    split
    · exact ready
    · exact ready
  | plain v =>
    obtain ⟨-, c, rfl⟩ := plain_cases ran
    exact tail_rest_zero (Or.inl ready)

/-- The offset that is kept is that of the REST in force. -/
structure Kept (before : List SessionTurn) (s : Session) : Prop where
  ready : s.dataactive = false
  rest : s.rest = (restInForce before).elim 0 fun r => atoi r.world.overflow (r.param.getD [])
  given : ∀ r ∈ restInForce before, r.param.isSome

theorem kept_keeps (before : List SessionTurn) (t : SessionTurn) (kept : Kept before t.before)
    (served : serve t.before t.input = some (t.after, t.outputs)) :
    Kept (before ++ [t]) t.after := by
  have behind : restInForce (before ++ [t]) = restBehind (restInForce before) t := by
    rw [restInForce, List.foldl_concat, ← restInForce]
  by_cases loggedin : t.before.control.loggedin = true
  · obtain ⟨s₁, ran, after⟩ := serve_command loggedin served
    have left := command_rest kept.ready ran
    rw [← after] at left
    rw [restBehind, if_pos loggedin] at behind
    have ready : t.after.dataactive = false := by rw [after, tail_dataactive]
    cases verb : t.input.verb with
    | rest =>
      rw [verb] at left
      simp only [verb] at behind
      cases given : t.input.param with
      | none =>
        simp only [given, restLeft, Option.elim_none] at left
        simp only [given, Option.isSome_none, Bool.false_eq_true, if_false] at behind
        exact ⟨ready, by rw [left, behind, Option.elim_none],
          by rw [behind]; exact fun r hr => absurd hr (Option.not_mem_none r)⟩
      | some p =>
        simp only [given, restLeft, Option.elim_some] at left
        simp only [given, Option.isSome_some, if_true] at behind
        refine ⟨ready, by rw [left, behind, Option.elim_some, given, Option.getD_some], ?_⟩
        rw [behind]
        intro r hr
        rw [← Option.mem_some.mp hr, given, Option.isSome_some]
    | type =>
      rw [verb] at left
      simp only [verb] at behind
      exact ⟨ready, by rw [left, behind]; exact kept.rest, by rw [behind]; exact kept.given⟩
    | pasv | port | stor | retr | rnfr | rnto | abor | plain _ =>
      rw [verb] at left
      simp only [verb] at behind
      exact ⟨ready, by rw [left, behind]; rfl,
        by rw [behind]; exact fun r hr => absurd hr (Option.not_mem_none r)⟩
  · obtain ⟨-, c, after⟩ := serve_login loggedin served
    rw [restBehind, if_neg loggedin] at behind
    rw [after]
    exact ⟨kept.ready, by rw [behind]; exact kept.rest, by rw [behind]; exact kept.given⟩

/-! ## The transfers -/

theorem startsAt_plain {actions : List Action} (plain : IsPlain actions) (offset : Nat) :
    ∀ a ∈ actions, StartsAt offset a := by
  obtain ⟨plain, rfl⟩ := plain
  intro a ha
  obtain ⟨b, -, rfl⟩ := List.mem_map.mp ha
  trivial

/-- A transfer starts where the variable says. -/
theorem command_starts {s s₁ : Session} {v : Verb} {param : Option (List UInt8)} {w : World}
    {actions : List Action} (ran : command s v param w = some (s₁, actions)) (offset : Nat) :
    (∀ a ∈ actions, StartsAt offset a) ↔
      (Transfers s v param w → startOffset Int.toNat s.rest = offset) := by
  -- the other commands make no transfer
  have other (plain : IsPlain actions) (stor' : v ≠ .stor) (retr' : v ≠ .retr) :
      (∀ a ∈ actions, StartsAt offset a) ↔
        (Transfers s v param w → startOffset Int.toNat s.rest = offset) := by
    refine iff_of_true (startsAt_plain plain offset) ?_
    rintro ⟨-, -, stores | ⟨sends, -⟩⟩
    · exact absurd stores stor'
    · exact absurd sends retr'
  cases v with
  | pasv => exact other (pasv_cases ran).1 nofun nofun
  | port => exact other (port_cases ran).1 nofun nofun
  | stor =>
    obtain ⟨rfl, ⟨not', plain⟩ | ⟨both, before, filename, ret, rfl⟩⟩ := stor_cases ran
    · refine iff_of_true (startsAt_plain plain offset) ?_
      rintro ⟨connected, given, -⟩
      exact absurd ⟨connected, given⟩ not'
    · constructor
      · exact fun all _ => all (.recvfile filename s₁.rest) (by simp)
      · intro starts a ha
        have at' := starts ⟨both.1, both.2, Or.inl rfl⟩
        simp only [List.mem_cons, List.not_mem_nil, or_false] at ha
        rcases ha with rfl | rfl | rfl
        · trivial
        · exact at'
        · trivial
  | retr =>
    obtain ⟨rfl, ⟨not', plain⟩ | ⟨both, before, filename, ret, rfl⟩⟩ := retr_cases ran
    · refine iff_of_true (startsAt_plain plain offset) ?_
      rintro ⟨connected, given, verb | ⟨-, there⟩⟩
      · cases verb
      · exact absurd ⟨connected, given, there⟩ not'
    · constructor
      · exact fun all _ => all (.sendfile filename s₁.rest) (by simp)
      · intro starts a ha
        have at' := starts ⟨both.1, both.2.1, Or.inr ⟨rfl, both.2.2⟩⟩
        simp only [List.mem_cons, List.not_mem_nil, or_false] at ha
        rcases ha with rfl | rfl | rfl
        · trivial
        · exact at'
        · trivial
  | type =>
    cases ran
    exact other ⟨[_], rfl⟩ nofun nofun
  | rest =>
    cases param with
    | none =>
      cases ran
      exact other ⟨[_], rfl⟩ nofun nofun
    | some p =>
      cases ran
      exact other ⟨[_], rfl⟩ nofun nofun
  | rnfr =>
    rcases rnfr_cases ran with ⟨-, -, rfl⟩ | ⟨p, path, -, -, -, rfl⟩
    · exact other ⟨[_], rfl⟩ nofun nofun
    · exact other ⟨[_], rfl⟩ nofun nofun
  | rnto =>
    obtain ⟨rfl, ⟨-, plain⟩ | ⟨-, path, answer, rfl⟩⟩ := rnto_cases ran
    · exact other plain nofun nofun
    · refine iff_of_true ?_ ?_
      · intro a ha
        simp only [List.mem_cons, List.not_mem_nil, or_false] at ha
        rcases ha with rfl | rfl
        · trivial
        · trivial
      · rintro ⟨-, -, verb | ⟨verb, -⟩⟩
        · cases verb
        · cases verb
  | abor =>
    cases ran
    exact other ⟨[_], rfl⟩ nofun nofun
  | plain v => exact other (plain_cases ran).1 nofun nofun

/-- Every transfer of a session starts where the REST in force says, and at the beginning without
one, exactly if every transfer comes behind a REST whose number is kept. -/
theorem sessionTurns_offsets_iff {ipAddress : List UInt8} {p1 p2 : Nat} {requests : List Request}
    {ts : List SessionTurn} (run : sessionTurns ipAddress p1 p2 requests = some ts) :
    Each OffsetRight ts ↔ Each OffsetKept ts := by
  refine each_congr Kept ⟨rfl, rfl, fun r hr => absurd hr (Option.not_mem_none r)⟩ kept_keeps ?_ run
  intro before t kept served
  by_cases loggedin : t.before.control.loggedin = true
  · obtain ⟨s₁, ran, -⟩ := serve_command loggedin served
    rw [OffsetRight, OffsetKept, command_starts ran, kept.rest, imp_iff_right loggedin]
    refine imp_congr_right fun _ => ?_
    cases force : restInForce before with
    | none =>
      exact iff_of_true rfl fun r hr => absurd hr (Option.not_mem_none r)
    | some r =>
      rw [Option.elim_some, holds_iff (kept.given r force)]
      constructor
      · intro holds r' same
        rwa [← Option.mem_some.mp same]
      · exact fun all => all r rfl
  · obtain ⟨plain, -⟩ := serve_login loggedin served
    exact iff_of_true (startsAt_plain plain _) fun logged => absurd logged loggedin

/-- A file system where every file exists. -/
def fullLine (line : String) : Request :=
  ⟨ascii line ++ crlf, { emptyWorld with stat := some ⟨0, 0, [], []⟩ }⟩

theorem sessionTurns_offsets : ∃ ts ∈ sessionTurns [49] 4 0
    [fullLine "PASS x", fullLine "PASV", fullLine "REST 7", fullLine "TYPE I", fullLine "RETR a"],
    ts.length = 5 ∧ Each OffsetRight ts := by
  obtain ⟨ts, run, length, kept⟩ : ∃ ts ∈ sessionTurns [49] 4 0
      [fullLine "PASS x", fullLine "PASV", fullLine "REST 7", fullLine "TYPE I", fullLine "RETR a"],
      ts.length = 5 ∧ Each OffsetKept ts := by
    decide +kernel
  exact ⟨ts, run, length, (sessionTurns_offsets_iff run).mpr kept⟩

/-- A restart in the middle of an image of more than four gigabytes. -/
theorem largeImage_misplaced : ∃ ts ∈ sessionTurns [49] 4 0
    [fullLine "PASS x", fullLine "PASV", fullLine "REST 4294967296", fullLine "RETR a"],
    ¬ Each OffsetRight ts := by
  decide +kernel

end FtpOffsets
