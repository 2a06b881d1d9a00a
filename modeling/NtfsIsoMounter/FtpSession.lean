import NtfsIsoMounter.FtpCommands
import NtfsIsoMounter.TurnRuns

/-!
# A session with the FTP server

`handleclient` serves one client. The variables for the data connection, for the place where a
transfer starts and for the file to be renamed live from one command to the next: a flag that a
command sets keeps the first two over the end of the loop.
-/

namespace FtpSession

open CText FtpCommands FtpTransfers TurnRuns

/-! ## The session -/

/-- The variables of `handleclient`; nothing is in `rnfr` at first. Of the sockets that PASV and
PORT have obtained those that are not closed yet are listed. -/
structure Session where
  control : Control
  rnfr : Option (List UInt8)
  dataS : Int
  dataactive : Bool
  rest : Int
  sockets : List Int
  pasvOutput : List UInt8
deriving DecidableEq

inductive Action where
  | plain (a : PlainAction)
  | rename (rnfr : Option (List UInt8)) (rnto : List UInt8)
  | sendfile (filename : List UInt8) (rest : Int)
  | recvfile (filename : List UInt8) (rest : Int)
deriving DecidableEq

/-- What a client sends, and the outcomes of the calls made for it. -/
structure Request where
  data : List UInt8
  world : World

def Session.answer (s : Session) (text : String) : Session × List Action := (s, [.plain (say text)])

/-- The session with a socket that was asked for; a negative number is none. -/
def Session.obtain (s : Session) (socket : Int) : Session :=
  { s with dataS := socket, sockets := if 0 ≤ socket then socket :: s.sockets else s.sockets }

/-- `sclose(&data_s)` -/
def Session.sclose (s : Session) : Session :=
  if s.dataS ≠ -1 then { s with dataS := -1, sockets := s.sockets.erase s.dataS } else s

/-! ## Data connections -/

def pasv (s : Session) (w : World) : Session × List Action :=
  let s := { s with rest := 0 }
  if w.listen > 0 then
    let s := s.obtain w.accept
    if w.accept > 0 then ({ s with dataactive := true }, [.plain (.reply s.pasvOutput)])
    else (s, [.plain (.reply s.pasvOutput), .plain (say "451 Data connection failed")])
  else s.answer "451 Cannot create data socket"

/-- `strtok` with commas, six times at most. -/
def portFields (param : List UInt8) : List (List UInt8) :=
  ((param.splitOn 44).filter (· ≠ [])).take 6

/-- `sprintf(ipaddr, "%s.%s.%s.%s", ..)` -/
def ipaddr (fields : List (List UInt8)) : List UInt8 :=
  [46].intercalate (fields.take 4)

/-- A field that is longer than its place has no result. -/
def port (s : Session) (param : Option (List UInt8)) (w : World) :
    Option (Session × List Action) :=
  match param with
  | none => some (s.answer "501 No connection info given")
  | some p =>
    let fields := portFields p
    if fields.any fun f => 4 ≤ f.length then none
    else
      let s := { s with rest := 0 }
      if fields.length = 6 then
        let number (i : Nat) : Int := atoi w.overflow (fields.getD i [])
        let connect := PlainAction.connect (ipaddr fields) (number 4 * 256 + number 5)
        let s := s.obtain w.socket
        if w.connect = 0 then
          some ({ s with dataactive := true },
            [.plain connect, .plain (say "200 PORT command successful")])
        else some (s, [.plain connect, .plain (say "451 Data connection failed")])
      else some (s.answer "501 Insufficient connection info")

def abor (s : Session) : Session × List Action := s.sclose.answer "226 ABOR command successful"

/-! ## Transfers -/

def transferred (ret : Int) : Action :=
  .plain (say (if ret = 0 then "226 Transfer complete" else "451 Transfer failed"))

def stor (s : Session) (param : Option (List UInt8)) (w : World) :
    Option (Session × List Action) :=
  if s.dataS > 0 then
    match param with
    | none => some (s.answer "501 No file specified")
    | some p =>
      (absPath 512 p s.control.cwd).map fun filename =>
        (s, [.plain (say "150 Accepted data connection"), .recvfile filename s.rest,
          transferred (recvfile w.receives s.rest).2.ret])
  else some (s.answer "425 No data connection")

def retr (s : Session) (param : Option (List UInt8)) (w : World) :
    Option (Session × List Action) :=
  if s.dataS > 0 then
    match param with
    | none => some (s.answer "501 No file specified")
    | some p =>
      (absPath 512 p s.control.cwd).map fun filename =>
        if w.stat.isSome then
          (s, [.plain (say "150 Accepted data connection"), .sendfile filename s.rest,
            transferred (sendfile w.sends w.content s.rest).1])
        else s.answer "550 File does not exist"
  else some (s.answer "425 No data connection")

def type (s : Session) : Session × List Action :=
  { s with dataactive := true }.answer "200 TYPE command successful"

def rest (s : Session) (param : Option (List UInt8)) (w : World) : Session × List Action :=
  match param with
  | none => s.answer "501 No restart point"
  | some p =>
    { s with rest := atoi w.overflow p, dataactive := true }.answer "350 REST command successful"

/-! ## Renaming -/

def rnfrAccepted : String := "350 RNFR accepted - ready for destination"

def rnfr (s : Session) (param : Option (List UInt8)) (w : World) :
    Option (Session × List Action) :=
  match param with
  | none => some (s.answer "501 No file specified")
  | some p =>
    (absPath 1024 p s.control.cwd).map fun path =>
      { s with rnfr := some path }.answer
        (if w.stat.isSome then rnfrAccepted else "550 RNFR failed - file does not exist")

def rnto (s : Session) (param : Option (List UInt8)) (w : World) :
    Option (Session × List Action) :=
  match param with
  | none => some (s.answer "501 No file specified")
  | some p =>
    (absPath 512 p s.control.cwd).map fun path =>
      (s, [.rename s.rnfr path,
        .plain (say (if w.rename = 0 then "250 File was successfully renamed or moved"
          else "550 Cannot rename or move file"))])

/-! ## The loop -/

/-- A plain command changes no other variable of the session. -/
def Session.plain (s : Session) (r : Control × List PlainAction) : Session × List Action :=
  ({ s with control := r.1 }, r.2.map .plain)

def command (s : Session) (v : Verb) (param : Option (List UInt8)) (w : World) :
    Option (Session × List Action) :=
  match v with
  | .pasv => some (pasv s w)
  | .port => port s param w
  | .stor => stor s param w
  | .retr => retr s param w
  | .type => some (type s)
  | .rest => some (rest s param w)
  | .rnfr => rnfr s param w
  | .rnto => rnto s param w
  | .abor => some (abor s)
  | .plain v => (plainCommand s.dataS s.control v param w).map s.plain

/-- The end of the loop for a client that is logged in. -/
def Session.tail (s : Session) : Session :=
  if s.dataactive then { s with dataactive := false } else { s.sclose with rest := 0 }

def Request.verb (r : Request) : Verb := verbOf (ssplit (commandLine r.data) 15 1023).1

def Request.param (r : Request) : Option (List UInt8) := (ssplit (commandLine r.data) 15 1023).2

/-- One turn of the loop; it has no result where a buffer would be overrun. -/
def serve (s : Session) (r : Request) : Option (Session × List Action) :=
  if s.control.loggedin then
    (command s r.verb r.param r.world).map fun (s, actions) => (s.tail, actions)
  else (login s.control r.verb r.param).map s.plain

/-- Whether the loop goes on. -/
def going (s : Session) : Bool := !s.control.exitapp && s.control.connactive

/-- `pasv_output` -/
def pasvOutput (ipAddress : List UInt8) (p1 p2 : Nat) : List UInt8 :=
  ascii "227 Entering Passive Mode (" ++ ipAddress.map (fun b => if b = 46 then 44 else b) ++
    [44] ++
    padded 1 p1 ++ [44] ++ padded 1 p2 ++ [41] ++ crlf

/-- The session in front of the loop. -/
def handleclient (ipAddress : List UInt8) (p1 p2 : Nat) : Session where
  control := ⟨true, false, none, [47], false⟩
  rnfr := none
  dataS := -1
  dataactive := false
  rest := 0
  sockets := []
  pasvOutput := pasvOutput ipAddress p1 p2

/-- What is behind the loop. -/
def Session.exit (s : Session) : Session := s.sclose

/-- One pass through the loop, with the state and the outcomes before it. -/
abbrev SessionTurn := Turn Session Request Action

/-- The passes through the loop for some requests. -/
def sessionTurns (ipAddress : List UInt8) (p1 p2 : Nat) (requests : List Request) :
    Option (List SessionTurn) :=
  turns going serve (handleclient ipAddress p1 p2) requests

/-- A file system without files, which refuses nothing. -/
def emptyWorld : World where
  isDir := true
  stat := none
  openDir := 0
  entries := []
  unlink := 0
  mkdir := 0
  rmdir := 0
  chmod := 0
  rename := 0
  listen := 3
  accept := 4
  socket := 5
  connect := 0
  overflow := 0
  content := []
  sends := ⟨true, true, Int.toNat, fun _ => .failed, fun _ => 0⟩
  receives := ⟨true, true, Int.toNat, []⟩

/-- A line of a client in front of a file system without files. -/
def emptyLine (line : String) : Request := ⟨ascii line ++ crlf, emptyWorld⟩

/-! ## What a turn can do -/

/-- Nothing but plain actions. -/
def IsPlain (actions : List Action) : Prop :=
  ∃ plain : List PlainAction, actions = plain.map .plain

theorem isPlain_answer (s : Session) (text : String) : IsPlain (s.answer text).2 :=
  ⟨[say text], rfl⟩

section Commands
variable {s s₁ : Session} {param : Option (List UInt8)} {w : World} {actions : List Action}

/-- PASV that gets as far as `accept`. -/
theorem pasv_cases (ran : some (pasv s w) = some (s₁, actions)) : IsPlain actions ∧
    ((¬ 0 < w.listen ∧ s₁ = { s with rest := 0 }) ∨
      (0 < w.listen ∧ s₁ = { ({ s with rest := 0 } : Session).obtain w.accept with
        dataactive := s.dataactive || decide (0 < w.accept) })) := by
  obtain ⟨rfl, rfl⟩ : (pasv s w).1 = s₁ ∧ (pasv s w).2 = actions := by
    rw [Option.some.inj ran]
    exact ⟨rfl, rfl⟩
  rw [pasv]
  by_cases listens : 0 < w.listen
  · rw [if_pos listens]
    by_cases accepts : 0 < w.accept
    · rw [if_pos accepts, decide_eq_true accepts, Bool.or_true]
      exact ⟨⟨[_], rfl⟩, Or.inr ⟨listens, rfl⟩⟩
    · rw [if_neg accepts, decide_eq_false accepts, Bool.or_false]
      exact ⟨⟨[_, _], rfl⟩, Or.inr ⟨listens, rfl⟩⟩
  · rw [if_neg listens]
    exact ⟨isPlain_answer _ _, Or.inl ⟨listens, rfl⟩⟩

/-- PORT that gets as far as `sconnect` has six fields. -/
theorem port_cases (ran : port s param w = some (s₁, actions)) : IsPlain actions ∧
    ((param = none ∧ s₁ = s) ∨
      ∃ p, param = some p ∧
        (((portFields p).length ≠ 6 ∧ s₁ = { s with rest := 0 }) ∨
          ((portFields p).length = 6 ∧ s₁ = { ({ s with rest := 0 } : Session).obtain w.socket with
            dataactive := s.dataactive || decide (w.connect = 0) }))) := by
  cases param with
  | none =>
    cases ran
    exact ⟨isPlain_answer s _, Or.inl ⟨rfl, rfl⟩⟩
  | some p =>
    simp only [port] at ran
    split at ran
    · cases ran
    · by_cases six : (portFields p).length = 6
      · rw [if_pos six] at ran
        by_cases connects : w.connect = 0
        · rw [if_pos connects] at ran
          cases ran
          rw [decide_eq_true connects, Bool.or_true]
          exact ⟨⟨[_, _], rfl⟩, Or.inr ⟨p, rfl, Or.inr ⟨six, rfl⟩⟩⟩
        · rw [if_neg connects] at ran
          cases ran
          rw [decide_eq_false connects, Bool.or_false]
          exact ⟨⟨[_, _], rfl⟩, Or.inr ⟨p, rfl, Or.inr ⟨six, rfl⟩⟩⟩
      · rw [if_neg six] at ran
        cases ran
        exact ⟨isPlain_answer s _, Or.inr ⟨p, rfl, Or.inl ⟨six, rfl⟩⟩⟩

/-- A transfer needs a data connection and a name. -/
theorem stor_cases (ran : stor s param w = some (s₁, actions)) : s₁ = s ∧
    ((¬ (0 < s.dataS ∧ param.isSome) ∧ IsPlain actions) ∨
      (0 < s.dataS ∧ param.isSome) ∧ ∃ before filename ret,
        actions = [.plain before, .recvfile filename s.rest, transferred ret]) := by
  by_cases connected : 0 < s.dataS
  · cases param with
    | none =>
      rw [stor, if_pos connected] at ran
      cases ran
      exact ⟨rfl, Or.inl ⟨fun both => absurd both.2 Bool.false_ne_true, isPlain_answer s _⟩⟩
    | some p =>
      rw [stor, if_pos connected] at ran
      obtain ⟨filename, -, same⟩ := Option.map_eq_some_iff.mp ran
      cases same
      exact ⟨rfl, Or.inr ⟨⟨connected, rfl⟩, _, filename, _, rfl⟩⟩
  · rw [stor.eq_def, if_neg connected] at ran
    cases ran
    exact ⟨rfl, Or.inl ⟨fun both => connected both.1, isPlain_answer s _⟩⟩

/-- A file that is sent has to exist, too. -/
theorem retr_cases (ran : retr s param w = some (s₁, actions)) : s₁ = s ∧
    ((¬ (0 < s.dataS ∧ param.isSome ∧ w.stat.isSome) ∧ IsPlain actions) ∨
      (0 < s.dataS ∧ param.isSome ∧ w.stat.isSome) ∧ ∃ before filename ret,
        actions = [.plain before, .sendfile filename s.rest, transferred ret]) := by
  by_cases connected : 0 < s.dataS
  · cases param with
    | none =>
      rw [retr, if_pos connected] at ran
      cases ran
      exact ⟨rfl, Or.inl ⟨fun all => absurd all.2.1 Bool.false_ne_true, isPlain_answer s _⟩⟩
    | some p =>
      rw [retr, if_pos connected] at ran
      obtain ⟨filename, -, same⟩ := Option.map_eq_some_iff.mp ran
      by_cases there : w.stat.isSome
      · rw [if_pos there] at same
        cases same
        exact ⟨rfl, Or.inr ⟨⟨connected, rfl, there⟩, _, filename, _, rfl⟩⟩
      · rw [if_neg there] at same
        cases same
        exact ⟨rfl, Or.inl ⟨fun all => there all.2.2, isPlain_answer s _⟩⟩
  · rw [retr.eq_def, if_neg connected] at ran
    cases ran
    exact ⟨rfl, Or.inl ⟨fun both => connected both.1, isPlain_answer s _⟩⟩

theorem rnfr_cases (ran : rnfr s param w = some (s₁, actions)) :
    (param = none ∧ s₁ = s ∧ actions = [.plain (say "501 No file specified")]) ∨
      ∃ p path, param = some p ∧ absPath 1024 p s.control.cwd = some path ∧
        s₁ = { s with rnfr := some path } ∧
        actions = [.plain (say
          (if w.stat.isSome then rnfrAccepted else "550 RNFR failed - file does not exist"))] := by
  cases param with
  | none =>
    cases ran
    exact Or.inl ⟨rfl, rfl, rfl⟩
  | some p =>
    obtain ⟨path, resolved, same⟩ := Option.map_eq_some_iff.mp ran
    cases same
    exact Or.inr ⟨p, path, rfl, resolved, rfl, rfl⟩

theorem rnto_cases (ran : rnto s param w = some (s₁, actions)) : s₁ = s ∧
    ((param = none ∧ IsPlain actions) ∨
      (param.isSome ∧ ∃ path answer, actions = [.rename s.rnfr path, .plain answer])) := by
  cases param with
  | none =>
    cases ran
    exact ⟨rfl, Or.inl ⟨rfl, isPlain_answer s _⟩⟩
  | some p =>
    obtain ⟨path, -, same⟩ := Option.map_eq_some_iff.mp ran
    cases same
    exact ⟨rfl, Or.inr ⟨rfl, path, _, rfl⟩⟩

theorem plain_cases {v : PlainVerb} (ran : command s (.plain v) param w = some (s₁, actions)) :
    IsPlain actions ∧ ∃ c : Control, s₁ = { s with control := c } := by
  obtain ⟨⟨c, plain⟩, -, same⟩ := Option.map_eq_some_iff.mp ran
  cases same
  exact ⟨⟨plain, rfl⟩, c, rfl⟩

end Commands

/-! ## Turns -/

/-- A turn of a client that is logged in is a command and the end of the loop. -/
theorem serve_command {s s' : Session} {r : Request} {actions : List Action}
    (loggedin : s.control.loggedin = true) (served : serve s r = some (s', actions)) :
    ∃ s₁, command s r.verb r.param r.world = some (s₁, actions) ∧ s' = s₁.tail := by
  rw [serve, if_pos loggedin] at served
  obtain ⟨⟨s₁, actions₁⟩, ran, same⟩ := Option.map_eq_some_iff.mp served
  cases same
  exact ⟨s₁, ran, rfl⟩

/-- Before the login nothing happens but on the control connection. -/
theorem serve_login {s s' : Session} {r : Request} {actions : List Action}
    (loggedin : ¬ s.control.loggedin = true) (served : serve s r = some (s', actions)) :
    IsPlain actions ∧ ∃ c : Control, s' = { s with control := c } := by
  rw [serve, if_neg loggedin] at served
  obtain ⟨⟨c, plain⟩, -, same⟩ := Option.map_eq_some_iff.mp served
  cases same
  exact ⟨⟨plain, rfl⟩, c, rfl⟩

end FtpSession
