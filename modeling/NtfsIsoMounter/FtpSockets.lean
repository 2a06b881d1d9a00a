import NtfsIsoMounter.FtpSession

/-!
# The data sockets of a session

PASV and PORT store a new socket over the one they find. The end of the loop closes the one that
is stored, unless a command has asked for it to be kept.
-/

namespace FtpSockets

open CText FtpCommands FtpSession TurnRuns

/-! ## The sockets -/

/-- At most one data socket is open, the one that is stored. -/
def Held (s : Session) : Prop := s.sockets = [] ∨ s.sockets = [s.dataS]

/-- PASV that can listen, and PORT with all of its numbers. -/
def Connects (v : Verb) (param : Option (List UInt8)) (w : World) : Prop :=
  (v = .pasv ∧ 0 < w.listen) ∨ (v = .port ∧ ∃ p ∈ param, (portFields p).length = 6)

/-- A data connection is made where none is open. -/
def Free (t : SessionTurn) : Prop :=
  t.before.control.loggedin = true → Connects t.input.verb t.input.param t.input.world →
    t.before.sockets = []

instance (s : Session) : Decidable (Held s) := inferInstanceAs (Decidable (_ ∨ _))

instance (v : Verb) (param : Option (List UInt8)) (w : World) : Decidable (Connects v param w) :=
  inferInstanceAs (Decidable (_ ∨ _))

instance : DecidablePred Free := fun _ => inferInstanceAs (Decidable (_ → _ → _))

/-- Two sessions with the same sockets. -/
structure SameSockets (s s₁ : Session) : Prop where
  dataS : s₁.dataS = s.dataS
  sockets : s₁.sockets = s.sockets

/-- The open sockets are no error numbers. -/
def Valid (s : Session) : Prop := ∀ socket ∈ s.sockets, 0 ≤ socket

section Sockets
variable {s s₁ : Session}

theorem SameSockets.valid (same : SameSockets s s₁) (valid : Valid s) : Valid s₁ := by
  rw [Valid, same.sockets]
  exact valid

theorem SameSockets.held (same : SameSockets s s₁) : Held s₁ ↔ Held s := by
  rw [Held, Held, same.dataS, same.sockets]

/-- A socket is closed where it is stored. -/
theorem sclose_cases (s : Session) : s.sclose.dataS = -1 ∧
    (s.sclose.sockets = s.sockets.erase s.dataS ∨
      (s.dataS = -1 ∧ s.sclose.sockets = s.sockets)) := by
  rw [Session.sclose]
  by_cases stored : s.dataS = -1
  · rw [if_neg (not_not.mpr stored)]
    exact ⟨stored, Or.inr ⟨stored, rfl⟩⟩
  · rw [if_pos stored]
    exact ⟨rfl, Or.inl rfl⟩

theorem sclose_sockets (valid : Valid s) :
    s.sclose.sockets = s.sockets.erase s.dataS := by
  rcases (sclose_cases s).2 with closed | ⟨none', kept⟩
  · exact closed
  · rw [kept, none', List.erase_of_not_mem]
    intro stored
    exact absurd (valid _ stored) (by decide)

/-- Closing the socket that is stored closes all that is open. -/
theorem Held.sclose (valid : Valid s) (held : Held s) :
    s.sclose.sockets = [] := by
  rw [sclose_sockets valid]
  rcases held with none' | one
  · rw [none']
    rfl
  · rw [one, List.erase_cons_head]

theorem tail_sockets (s : Session) : SameSockets s s.tail ∨ SameSockets s.sclose s.tail := by
  rw [Session.tail]
  split
  · exact Or.inl ⟨rfl, rfl⟩
  · exact Or.inr ⟨rfl, rfl⟩

theorem obtain_valid (valid : Valid s) (new : Int) : Valid (s.obtain new) := by
  intro socket open'
  simp only [Session.obtain] at open'
  split at open'
  · rename_i good
    rcases List.mem_cons.mp open' with rfl | old
    · exact good
    · exact valid socket old
  · exact valid socket open'

theorem sclose_valid (valid : Valid s) : Valid s.sclose := by
  intro socket open'
  rw [sclose_sockets valid] at open'
  exact valid socket (List.mem_of_mem_erase open')

theorem tail_valid (valid : Valid s) : Valid s.tail := by
  rcases tail_sockets s with same | same
  · exact same.valid valid
  · exact same.valid (sclose_valid valid)

theorem tail_held (valid : Valid s) (held : Held s) :
    Held s.tail := by
  rcases tail_sockets s with same | same
  · exact same.held.mpr held
  · exact Or.inl (same.sockets.trans (held.sclose valid))

theorem obtain_held (none' : s.sockets = []) (new : Int) : Held (s.obtain new) := by
  rw [Held]
  simp only [Session.obtain, none']
  split
  · exact Or.inr rfl
  · exact Or.inl rfl

/-- A second socket puts the first out of reach. -/
theorem obtain_leaks {d : Int} (one : s.sockets = [d]) (good : 0 ≤ d) (new : Int)
    (same : SameSockets (s.obtain new) s₁) : ¬ Held s₁.tail := by
  have obtained : Valid (s.obtain new) := by
    refine obtain_valid (fun socket open' => ?_) new
    rw [one] at open'
    rwa [List.mem_singleton.mp open']
  have stored : (s.obtain new).dataS = new := rfl
  have sockets : (s.obtain new).sockets = if 0 ≤ new then [new, d] else [d] := by
    simp only [Session.obtain, one]
  rcases tail_sockets s₁ with kept | closed
  · rw [kept.held, same.held, Held, stored, sockets]
    split
    · simp
    · rename_i invalid
      rintro (none' | only)
      · cases none'
      · have known : d = new := (List.cons.inj only).1
        omega
  · have ended := sclose_sockets (s := s₁) (same.valid obtained)
    rw [closed.held, Held, ended, (sclose_cases s₁).1, same.sockets, same.dataS, stored, sockets]
    have left : (if 0 ≤ new then [new, d] else [d]).erase new = [d] := by
      split
      · rw [List.erase_cons_head]
      · rw [List.erase_of_not_mem]
        rw [List.mem_singleton]
        omega
    rw [left]
    rintro (none' | only)
    · cases none'
    · have known : d = -1 := (List.cons.inj only).1
      omega

end Sockets

/-! ## The commands -/

/-- A command makes a data connection, closes the one there is or leaves it as it is. -/
theorem command_sockets {s s₁ : Session} {v : Verb} {param : Option (List UInt8)} {w : World}
    {actions : List Action} (ran : command s v param w = some (s₁, actions)) :
    (Connects v param w ∧ ∃ new, SameSockets (s.obtain new) s₁) ∨
      (¬ Connects v param w ∧ (SameSockets s s₁ ∨ SameSockets s.sclose s₁)) := by
  have other (kept : SameSockets s s₁ ∨ SameSockets s.sclose s₁) (pasv' : v ≠ .pasv)
      (port' : v ≠ .port) :
      (Connects v param w ∧ ∃ new, SameSockets (s.obtain new) s₁) ∨
        (¬ Connects v param w ∧ (SameSockets s s₁ ∨ SameSockets s.sclose s₁)) := by
    refine Or.inr ⟨?_, kept⟩
    rintro (⟨verb, -⟩ | ⟨verb, -⟩)
    · exact pasv' verb
    · exact port' verb
  cases v with
  | pasv =>
    obtain ⟨-, ⟨deaf, rfl⟩ | ⟨listens, rfl⟩⟩ := pasv_cases ran
    · refine Or.inr ⟨?_, Or.inl ⟨rfl, rfl⟩⟩
      rintro (⟨-, listens⟩ | ⟨verb, -⟩)
      · exact deaf listens
      · cases verb
    · exact Or.inl ⟨Or.inl ⟨rfl, listens⟩, w.accept, rfl, rfl⟩
  | port =>
    obtain ⟨-, ⟨none', rfl⟩ | ⟨p, some', ⟨few, rfl⟩ | ⟨six, rfl⟩⟩⟩ := port_cases ran
    · refine Or.inr ⟨?_, Or.inl ⟨rfl, rfl⟩⟩
      rintro (⟨verb, -⟩ | ⟨-, p, given, -⟩)
      · cases verb
      · rw [none'] at given
        cases given
    · refine Or.inr ⟨?_, Or.inl ⟨rfl, rfl⟩⟩
      rintro (⟨verb, -⟩ | ⟨-, p', given, six⟩)
      · cases verb
      · rw [some'] at given
        rw [← Option.mem_some.mp given] at six
        exact few six
    · exact Or.inl ⟨Or.inr ⟨rfl, p, some', six⟩, w.socket, rfl, rfl⟩
  | stor =>
    obtain ⟨rfl, -⟩ := stor_cases ran
    exact other (Or.inl ⟨rfl, rfl⟩) nofun nofun
  | retr =>
    obtain ⟨rfl, -⟩ := retr_cases ran
    exact other (Or.inl ⟨rfl, rfl⟩) nofun nofun
  | type =>
    cases ran
    exact other (Or.inl ⟨rfl, rfl⟩) nofun nofun
  | rest =>
    cases param with
    | none =>
      cases ran
      exact other (Or.inl ⟨rfl, rfl⟩) nofun nofun
    | some p =>
      cases ran
      exact other (Or.inl ⟨rfl, rfl⟩) nofun nofun
  | rnfr =>
    rcases rnfr_cases ran with ⟨-, rfl, -⟩ | ⟨p, path, -, -, rfl, -⟩
    · exact other (Or.inl ⟨rfl, rfl⟩) nofun nofun
    · exact other (Or.inl ⟨rfl, rfl⟩) nofun nofun
  | rnto =>
    obtain ⟨rfl, -⟩ := rnto_cases ran
    exact other (Or.inl ⟨rfl, rfl⟩) nofun nofun
  | abor =>
    cases ran
    exact other (Or.inr ⟨rfl, rfl⟩) nofun nofun
  | plain v =>
    obtain ⟨-, c, rfl⟩ := plain_cases ran
    exact other (Or.inl ⟨rfl, rfl⟩) nofun nofun

/-! ## Sessions -/

theorem serve_valid {s s' : Session} {r : Request} {actions : List Action}
    (served : serve s r = some (s', actions)) (valid : Valid s) : Valid s' := by
  by_cases loggedin : s.control.loggedin = true
  · obtain ⟨s₁, ran, rfl⟩ := serve_command loggedin served
    rcases command_sockets ran with ⟨-, new, same⟩ | ⟨-, same | same⟩
    · exact tail_valid (same.valid (obtain_valid valid new))
    · exact tail_valid (same.valid valid)
    · exact tail_valid (same.valid (sclose_valid valid))
  · obtain ⟨-, c, rfl⟩ := serve_login loggedin served
    exact valid

/-- A turn that makes a connection only where none is open keeps the socket in reach. -/
theorem serve_held {t : SessionTurn} (served : serve t.before t.input = some (t.after, t.outputs))
    (valid : Valid t.before) (held : Held t.before) (free : Free t) : Held t.after := by
  by_cases loggedin : t.before.control.loggedin = true
  · obtain ⟨s₁, ran, after⟩ := serve_command loggedin served
    rw [after]
    rcases command_sockets ran with ⟨connects, new, same⟩ | ⟨-, same | same⟩
    · have none' := free loggedin connects
      exact tail_held (same.valid (obtain_valid valid new))
        (same.held.mpr (obtain_held none' new))
    · exact tail_held (same.valid valid) (same.held.mpr held)
    · exact tail_held (same.valid (sclose_valid valid))
        (same.held.mpr (Or.inl (held.sclose valid)))
  · obtain ⟨-, c, after⟩ := serve_login loggedin served
    rw [after]
    exact held

/-- A turn that makes another connection does not. -/
theorem serve_leaks {t : SessionTurn} (served : serve t.before t.input = some (t.after, t.outputs))
    (valid : Valid t.before) (held : Held t.before) (after : Held t.after) : Free t := by
  intro loggedin connects
  rcases held with none' | one
  · exact none'
  · obtain ⟨s₁, ran, ends⟩ := serve_command loggedin served
    rcases command_sockets ran with ⟨-, new, same⟩ | ⟨other, -⟩
    · rw [ends] at after
      have good := valid t.before.dataS (by rw [one]; exact List.mem_cons_self)
      exact absurd after (obtain_leaks one good new same)
    · exact absurd connects other

/-- At every head of the loop at most one data socket is open, the one that is stored, and behind
the loop none is, exactly if no command makes a data connection while one is open. -/
theorem sessionTurns_sockets_iff {ipAddress : List UInt8} {p1 p2 : Nat} {requests : List Request}
    {ts : List SessionTurn} (run : sessionTurns ipAddress p1 p2 requests = some ts) :
    ((∀ t ∈ ts, Held t.after) ∧ (ending (handleclient ipAddress p1 p2) ts).exit.sockets = []) ↔
      ∀ t ∈ ts, Free t := by
  obtain ⟨start, hstart⟩ : ∃ start, start = handleclient ipAddress p1 p2 := ⟨_, rfl⟩
  rw [sessionTurns, ← hstart] at run
  rw [← hstart]
  have first : Valid start ∧ Held start := by
    rw [hstart]
    exact ⟨fun socket open' => absurd open' List.not_mem_nil, Or.inl rfl⟩
  have valid : ∀ before after, ts = before ++ after → Valid (ending start before) :=
    fun before after split => turns_history (fun _ s => Valid s) first.1
      (fun _ t valid served => serve_valid served valid) run split
  constructor
  · rintro ⟨each, -⟩ t ht
    obtain ⟨before, after, split⟩ := List.append_of_mem ht
    obtain ⟨-, served, from'⟩ := turns_split run split
    have held : Held t.before := by
      rw [from']
      rcases List.eq_nil_or_concat' before with rfl | ⟨earlier, last, rfl⟩
      · exact first.2
      · rw [ending_concat]
        exact each last (by rw [split]; simp)
    exact serve_leaks served (from' ▸ valid before _ split) held (each t ht)
  · intro free
    have held : ∀ before after, ts = before ++ after → Held (ending start before) := by
      intro before after split
      have kept := turns_history
        (fun before s => (∀ t ∈ before, Free t) → Valid s ∧ Held s) (fun _ => first) ?_ run split
      · exact (kept fun t ht => free t (by rw [split]; exact List.mem_append_left _ ht)).2
      · intro before t kept served free
        obtain ⟨valid, held⟩ := kept fun t ht => free t (List.mem_append_left _ ht)
        have here := free t (List.mem_append_right _ List.mem_cons_self)
        exact ⟨serve_valid served valid, serve_held served valid held here⟩
    constructor
    · intro t ht
      obtain ⟨before, after, split⟩ := List.append_of_mem ht
      have behind := held (before ++ [t]) after (by rw [split, List.append_assoc]; rfl)
      rwa [ending_concat] at behind
    · have whole := (List.append_nil ts).symm
      exact (held ts [] whole).sclose (valid ts [] whole)

theorem sessionTurns_sockets : ∃ ts ∈ sessionTurns [49] 4 0
    [emptyLine "PASS x", emptyLine "PASV", emptyLine "LIST", emptyLine "PASV"], ts.length = 4 ∧
      (∀ t ∈ ts, Held t.after) ∧ (ending (handleclient [49] 4 0) ts).exit.sockets = [] := by
  obtain ⟨ts, run, length, free⟩ : ∃ ts ∈ sessionTurns [49] 4 0
      [emptyLine "PASS x", emptyLine "PASV", emptyLine "LIST", emptyLine "PASV"],
      ts.length = 4 ∧ ∀ t ∈ ts, Free t := by
    decide +kernel
  exact ⟨ts, run, length, (sessionTurns_sockets_iff run).mpr free⟩

/-- A second PASV right behind the first: the first connection stays open for ever. -/
theorem secondPasv_leaks : ∃ ts ∈ sessionTurns [49] 4 0
    [emptyLine "PASS x", emptyLine "PASV",
      ⟨ascii "PASV" ++ crlf, { emptyWorld with accept := 6 }⟩],
    ¬ ((∀ t ∈ ts, Held t.after) ∧ (ending (handleclient [49] 4 0) ts).exit.sockets = []) := by
  decide +kernel

end FtpSockets
