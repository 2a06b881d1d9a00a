import NtfsIsoMounter.FtpSession

/-!
# Renaming over FTP

RNFR names a file and RNTO gives it its new name. The path that RNTO renames is the one the last
RNFR was about, whatever was found there and whatever has become of it since.
-/

namespace FtpRenames

open CText FtpCommands FtpSession TurnRuns

/-! ## The pending path -/

/-- The path a parameter stands for. -/
def resolved (t : SessionTurn) : Option (List UInt8) :=
  t.input.param.bind fun p => absPath 1024 p t.before.control.cwd

/-- The pending path behind a turn: an RNFR that is answered 350 sets it, any other RNFR and an
RNTO that renames clear it. -/
def pendingBehind (p : Option (List UInt8)) (t : SessionTurn) : Option (List UInt8) :=
  if t.before.control.loggedin then
    match t.input.verb with
    | .rnfr => if Action.plain (say rnfrAccepted) ∈ t.outputs then resolved t else none
    | .rnto => if t.input.param.isSome then none else p
    | _ => p
  else p

def pending (before : List SessionTurn) : Option (List UInt8) := before.foldl pendingBehind none

/-- A rename is of the pending path. -/
def OfPending (p : Option (List UInt8)) : Action → Prop
  | .rename source _ => source.isSome ∧ source = p
  | _ => True

/-- What is renamed is the pending path, and without one nothing is. -/
def RenamesPending (before : List SessionTurn) (t : SessionTurn) : Prop :=
  ∀ a ∈ t.outputs, OfPending (pending before) a

/-- An RNTO with a name comes behind an RNFR that is pending. -/
def HasPending (before : List SessionTurn) (t : SessionTurn) : Prop :=
  t.before.control.loggedin = true → t.input.verb = .rnto → t.input.param.isSome →
    (pending before).isSome

instance (p : Option (List UInt8)) : DecidablePred (OfPending p)
  | .rename source _ => inferInstanceAs (Decidable (source.isSome ∧ source = p))
  | .plain _ | .sendfile _ _ | .recvfile _ _ => isTrue trivial

instance (before : List SessionTurn) (t : SessionTurn) : Decidable (RenamesPending before t) :=
  inferInstanceAs (Decidable (∀ a ∈ t.outputs, OfPending (pending before) a))

instance (before : List SessionTurn) (t : SessionTurn) : Decidable (HasPending before t) :=
  inferInstanceAs (Decidable (_ → _ → _ → _))

/-! ## The variable behind it -/

@[simp] theorem sclose_rnfr (s : Session) : s.sclose.rnfr = s.rnfr := by
  rw [Session.sclose]
  split <;> rfl

@[simp] theorem tail_rnfr (s : Session) : s.tail.rnfr = s.rnfr := by
  rw [Session.tail]
  split
  · rfl
  · exact sclose_rnfr s

/-- Nothing is renamed by the actions. -/
def Silent (actions : List Action) : Prop :=
  ∀ source target, Action.rename source target ∉ actions

theorem silent_plain {actions : List Action} (plain : IsPlain actions) : Silent actions := by
  obtain ⟨plain, rfl⟩ := plain
  intro source target named
  obtain ⟨a, -, same⟩ := List.mem_map.mp named
  cases same

theorem silent_ofPending {actions : List Action} (silent : Silent actions)
    (p : Option (List UInt8)) : ∀ a ∈ actions, OfPending p a := by
  intro a ha
  cases a with
  | rename source target => exact absurd ha (silent source target)
  | plain a => trivial
  | sendfile filename rest => trivial
  | recvfile filename rest => trivial

/-- Only RNFR stores a path, and only RNTO renames, the path that is stored. -/
theorem command_rnfr {s s₁ : Session} {v : Verb} {param : Option (List UInt8)} {w : World}
    {actions : List Action} (ran : command s v param w = some (s₁, actions)) :
    (v ≠ .rnfr → s₁.rnfr = s.rnfr) ∧
      ((v = .rnto ∧ param.isSome) ∨ Silent actions) := by
  cases v with
  | pasv =>
    obtain ⟨plain, ⟨-, rfl⟩ | ⟨-, rfl⟩⟩ := pasv_cases ran
    · exact ⟨fun _ => rfl, Or.inr (silent_plain plain)⟩
    · exact ⟨fun _ => rfl, Or.inr (silent_plain plain)⟩
  | port =>
    obtain ⟨plain, ⟨-, rfl⟩ | ⟨p, -, ⟨-, rfl⟩ | ⟨-, rfl⟩⟩⟩ := port_cases ran
    · exact ⟨fun _ => rfl, Or.inr (silent_plain plain)⟩
    · exact ⟨fun _ => rfl, Or.inr (silent_plain plain)⟩
    · exact ⟨fun _ => rfl, Or.inr (silent_plain plain)⟩
  | stor =>
    obtain ⟨rfl, ⟨-, plain⟩ | ⟨-, before, filename, ret, rfl⟩⟩ := stor_cases ran
    · exact ⟨fun _ => rfl, Or.inr (silent_plain plain)⟩
    · exact ⟨fun _ => rfl, Or.inr (by simp [Silent, transferred])⟩
  | retr =>
    obtain ⟨rfl, ⟨-, plain⟩ | ⟨-, before, filename, ret, rfl⟩⟩ := retr_cases ran
    · exact ⟨fun _ => rfl, Or.inr (silent_plain plain)⟩
    · exact ⟨fun _ => rfl, Or.inr (by simp [Silent, transferred])⟩
  | type =>
    cases ran
    exact ⟨fun _ => rfl, Or.inr (silent_plain ⟨[_], rfl⟩)⟩
  | rest =>
    cases param with
    | none =>
      cases ran
      exact ⟨fun _ => rfl, Or.inr (silent_plain (isPlain_answer s _))⟩
    | some p =>
      cases ran
      exact ⟨fun _ => rfl, Or.inr (silent_plain ⟨[_], rfl⟩)⟩
  | rnfr =>
    refine ⟨fun other => absurd rfl other, Or.inr ?_⟩
    rcases rnfr_cases ran with ⟨-, -, rfl⟩ | ⟨p, path, -, -, -, rfl⟩
    · exact silent_plain (isPlain_answer s _)
    · exact silent_plain (isPlain_answer s _)
  | rnto =>
    obtain ⟨rfl, ⟨-, plain⟩ | ⟨given, -⟩⟩ := rnto_cases ran
    · exact ⟨fun _ => rfl, Or.inr (silent_plain plain)⟩
    · exact ⟨fun _ => rfl, Or.inl ⟨rfl, given⟩⟩
  | abor =>
    cases ran
    exact ⟨fun _ => sclose_rnfr s, Or.inr (silent_plain ⟨[_], rfl⟩)⟩
  | plain v =>
    obtain ⟨plain, c, rfl⟩ := plain_cases ran
    exact ⟨fun _ => rfl, Or.inr (silent_plain plain)⟩

/-- A pending path is the one that is stored. -/
def Stored (before : List SessionTurn) (s : Session) : Prop :=
  ∀ path, pending before = some path → s.rnfr = some path

theorem stored_keeps (before : List SessionTurn) (t : SessionTurn) (stored : Stored before t.before)
    (served : serve t.before t.input = some (t.after, t.outputs)) :
    Stored (before ++ [t]) t.after := by
  intro path
  rw [pending, List.foldl_concat, ← pending, pendingBehind]
  by_cases loggedin : t.before.control.loggedin = true
  · obtain ⟨s₁, ran, after⟩ := serve_command loggedin served
    have others := (command_rnfr ran).1
    rw [if_pos loggedin, after, tail_rnfr]
    by_cases names : t.input.verb = .rnfr
    · simp only [names] at ran ⊢
      rcases rnfr_cases ran with ⟨none', -, outputs⟩ | ⟨p, stored', some', at', rfl, outputs⟩
      · rw [outputs, if_neg (by decide +kernel)]
        exact nofun
      · split
        · rw [resolved, some', Option.bind_some, at']
          exact id
        · exact nofun
    · rw [others names]
      split
      · rename_i named
        exact absurd named names
      · split
        · exact nofun
        · exact stored path
      · exact stored path
  · obtain ⟨-, c, after⟩ := serve_login loggedin served
    rw [if_neg loggedin, after]
    exact stored path

/-- Every RNTO of a session renames the pending path, and nothing without one, exactly if every
RNTO with a name comes behind an RNFR that is pending. -/
theorem sessionTurns_renames_iff {ipAddress : List UInt8} {p1 p2 : Nat} {requests : List Request}
    {ts : List SessionTurn} (run : sessionTurns ipAddress p1 p2 requests = some ts) :
    Each RenamesPending ts ↔ Each HasPending ts := by
  refine each_congr Stored (fun path none' => nomatch none') stored_keeps ?_ run
  intro before t stored served
  by_cases loggedin : t.before.control.loggedin = true
  · obtain ⟨s₁, ran, -⟩ := serve_command loggedin served
    rcases (command_rnfr ran).2 with ⟨verb, given⟩ | silent
    · rw [verb] at ran
      obtain ⟨-, ⟨none', -⟩ | ⟨-, path, answer, outputs⟩⟩ := rnto_cases ran
      · rw [none'] at given
        cases given
      · constructor
        · intro renames _ _ _
          obtain ⟨there, same⟩ := renames (.rename t.before.rnfr path)
            (by rw [outputs]; exact List.mem_cons_self)
          rwa [← same]
        · intro has
          obtain ⟨source, pending'⟩ := Option.isSome_iff_exists.mp (has loggedin verb given)
          have same := stored source pending'
          intro a ha
          rw [outputs] at ha
          rcases List.mem_cons.mp ha with rfl | ha
          · exact ⟨by rw [same]; rfl, by rw [same, pending']⟩
          · rw [List.mem_singleton.mp ha]
            trivial
    · refine iff_of_true (silent_ofPending silent _) ?_
      intro _ verb given
      rw [verb] at ran
      obtain ⟨-, ⟨none', -⟩ | ⟨-, path, answer, outputs⟩⟩ := rnto_cases ran
      · rw [none'] at given
        cases given
      · exact absurd (by rw [outputs]; exact List.mem_cons_self) (silent t.before.rnfr path)
  · obtain ⟨plain, -⟩ := serve_login loggedin served
    exact iff_of_true (silent_ofPending (silent_plain plain) _) fun logged => absurd logged loggedin

theorem sessionTurns_renames : ∃ ts ∈ sessionTurns [49] 4 0
    [emptyLine "PASS x", ⟨ascii "RNFR a" ++ crlf, { emptyWorld with stat := some ⟨0, 0, [], []⟩ }⟩,
      emptyLine "NOOP", emptyLine "RNTO b"], ts.length = 4 ∧ Each RenamesPending ts := by
  obtain ⟨ts, run, length, has⟩ : ∃ ts ∈ sessionTurns [49] 4 0
      [emptyLine "PASS x", ⟨ascii "RNFR a" ++ crlf,
        { emptyWorld with stat := some ⟨0, 0, [], []⟩ }⟩,
        emptyLine "NOOP", emptyLine "RNTO b"], ts.length = 4 ∧ Each HasPending ts := by
    decide +kernel
  exact ⟨ts, run, length, (sessionTurns_renames_iff run).mpr has⟩

/-- The RNFR is refused, and its path is renamed all the same. -/
theorem refused_renamed : ∃ ts ∈ sessionTurns [49] 4 0
    [emptyLine "PASS x", emptyLine "RNFR a", emptyLine "RNTO b"], ¬ Each RenamesPending ts := by
  decide +kernel

end FtpRenames
