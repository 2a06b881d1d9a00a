import NtfsIsoMounter.CText
import NtfsIsoMounter.FtpTransfers

/-!
# The commands of the FTP server

A line is split into a command and its parameter at the first space. The commands below work on
paths and answer over the control connection or an open data connection; those that open, keep
or use a data connection or change the name of a file are with the session.
-/

namespace FtpCommands

open CText FtpTransfers

/-! ## Lines and paths -/

def crlf : List UInt8 := [13, 10]

/-- The text in a buffer behind a `recv`, up to the end of its line. Where a `recv` brings no line
end, the bytes that stand behind what it brought belong to the text; they are among `data`. -/
def commandLine (data : List UInt8) : List UInt8 :=
  ((cString (data.take 2047)).takeWhile (· ≠ 10)).takeWhile (· ≠ 13)

/-- What follows the first space of a line, if anything does. -/
def argument (line : List UInt8) : Option (List UInt8) :=
  let ios := (line.takeWhile (· ≠ 32)).length
  if ios + 1 < line.length then some (line.drop (ios + 1)) else none

/-- The two parts of a text; no second one is the result 0. -/
def ssplit (str : List UInt8) (lmaxlen rmaxlen : Nat) : List UInt8 × Option (List UInt8) :=
  ((str.takeWhile (· ≠ 32)).take lmaxlen, (argument str).map (·.take rmaxlen))

/-- `absPath` into a buffer of `size` bytes; none where the path does not fit in it, or where a
byte in front of the working directory is read. -/
def absPath (size : Nat) (path cwd : List UInt8) : Option (List UInt8) :=
  let fits (p : List UInt8) : Option (List UInt8) := if p.length < size then some p else none
  if path.head? = some 47 then fits path
  else
    match cwd.getLast? with
    | none => none
    | some b => fits (if b = 47 then cwd ++ path else cwd ++ 47 :: path)

/-- The commands that leave the data connection and the name of a file alone. -/
inductive PlainVerb where
  | cwd | cdup | list | mlsd | pwd | dele | mkd | rmd | site | noop | nlst | mlst | quit | feat
  | size | syst | mdtm | user | pass | unknown
deriving DecidableEq

inductive Verb where
  | pasv | port | stor | retr | type | rest | rnfr | rnto | abor
  | plain (v : PlainVerb)
deriving DecidableEq

def verbs : List (String × Verb) :=
  [("CWD", .plain .cwd), ("CDUP", .plain .cdup), ("PASV", .pasv), ("PORT", .port),
    ("LIST", .plain .list), ("MLSD", .plain .mlsd), ("STOR", .stor), ("RETR", .retr),
    ("PWD", .plain .pwd), ("TYPE", .type), ("REST", .rest), ("DELE", .plain .dele),
    ("MKD", .plain .mkd), ("RMD", .plain .rmd), ("RNFR", .rnfr), ("RNTO", .rnto),
    ("SITE", .plain .site), ("NOOP", .plain .noop), ("NLST", .plain .nlst),
    ("MLST", .plain .mlst), ("QUIT", .plain .quit), ("BYE", .plain .quit),
    ("FEAT", .plain .feat), ("ABOR", .abor), ("SIZE", .plain .size), ("SYST", .plain .syst),
    ("MDTM", .plain .mdtm), ("USER", .plain .user), ("PASS", .plain .pass)]

/-- `strcasecmp` with one word after another. -/
def verbOf (cmd : List UInt8) : Verb :=
  ((verbs.find? fun v => ascii v.1 = cmd.map upper).map Prod.snd).getD (.plain .unknown)

/-! ## What the commands see and do -/

/-- `Lv2FsStat`, with its time as the two formats of `strftime` print it. -/
structure Stat where
  mode : Nat
  size : UInt64
  listTime : List UInt8
  modifyTime : List UInt8

/-- The outcomes of the calls that one command makes. A number is what the call returns; a file
that cannot be examined has no `stat`, and `overflow` is what `atoi` makes of a number
that no `int` holds. -/
structure World where
  isDir : Bool
  stat : Option Stat
  openDir : Int
  entries : List (List UInt8 × Stat)
  unlink : Int
  mkdir : Int
  rmdir : Int
  chmod : Int
  rename : Int
  listen : Int
  accept : Int
  socket : Int
  connect : Int
  overflow : Int32
  content : List UInt8
  sends : SendCalls
  receives : RecvCalls

/-- The variables of `handleclient` that plain commands read and write. -/
structure Control where
  connactive : Bool
  loggedin : Bool
  user : Option (List UInt8)
  cwd : List UInt8
  exitapp : Bool
deriving DecidableEq

inductive PlainAction where
  | reply (text : List UInt8)
  | data (text : List UInt8)
  | openDir (path : List UInt8)
  | unlink (path : List UInt8)
  | mkdir (path : List UInt8)
  | rmdir (path : List UInt8)
  | chmod (path : List UInt8) (mode : Nat)
  | connect (ipaddr : List UInt8) (port : Int)
deriving DecidableEq

def say (text : String) : PlainAction := .reply (ascii text ++ crlf)

/-- `atoi`, which reads an `int`. -/
def atoi (overflow : Int32) (s : List UInt8) : Int :=
  match strtol (s ++ [0]) with
  | none => 0
  | some (n, _) => if -2 ^ 31 ≤ n ∧ n < 2 ^ 31 then n else overflow.toInt

/-! ## Listings -/

def isDirMode (mode : Nat) : Bool := mode.testBit 14

def permissions (mode : Nat) : List UInt8 :=
  (if isDirMode mode then 100 else 45) ::
    (List.range 9).map fun i => if mode.testBit (8 - i) then [114, 119, 120].getD (i % 3) 0 else 45

def listLine (name : List UInt8) (st : Stat) : List UInt8 :=
  permissions st.mode ++ ascii "   1 root  root        " ++ padded 1 st.size.toNat ++ [32] ++
    st.listTime ++ [32] ++ name ++ crlf

def mlsdLine (name : List UInt8) (st : Stat) : List UInt8 :=
  let dirtype := if name = [46] then [99] else if name = [46, 46] then [112] else []
  ascii "type=" ++ dirtype ++ ascii (if isDirMode st.mode then "dir;sizd=" else "file;size=") ++
    padded 1 st.size.toNat ++ ascii ";modify=" ++ st.modifyTime ++ ascii ";UNIX.mode=0" ++
    padded 1 (st.mode / 64 % 8) ++ padded 1 (st.mode / 8 % 8) ++ padded 1 (st.mode % 8) ++
    ascii ";UNIX.uid=root;UNIX.gid=root; " ++ name ++ crlf

/-- The directory a command is about. -/
def tempCwd (c : Control) (param : Option (List UInt8)) : Option (List UInt8) :=
  match param with
  | none => some c.cwd
  | some p => absPath 1024 p c.cwd

/-- The listings differ in where their lines go, in the lines and in the replies around them;
all but one make the whole path of every entry. -/
def listing (c : Control) (param : Option (List UInt8)) (w : World) (paths : Bool)
    (line : List UInt8 × Stat → PlainAction) (opening closing : String) :
    Option (List PlainAction) := do
  let tempcwd ← tempCwd c param
  let path := if w.isDir then tempcwd else c.cwd
  if w.openDir ≠ 0 then some [.openDir path, say "550 Cannot access directory"]
  else if paths && w.entries.any fun e => (absPath 512 e.1 c.cwd).isNone then none
  else some (.openDir path :: say opening :: w.entries.map line ++ [say closing])

/-- A listing over the data connection. -/
def dataListing (dataS : Int) (c : Control) (param : Option (List UInt8)) (w : World)
    (paths : Bool) (line : List UInt8 × Stat → PlainAction) : Option (List PlainAction) :=
  if dataS > 0 then
    listing c param w paths line "150 Accepted data connection" "226 Transfer complete"
  else some [say "425 No data connection"]

def list (dataS : Int) (c : Control) (param : Option (List UInt8)) (w : World) :
    Option (List PlainAction) :=
  dataListing dataS c param w true fun e => .data (listLine e.1 e.2)

def mlsd (dataS : Int) (c : Control) (param : Option (List UInt8)) (w : World) :
    Option (List PlainAction) :=
  dataListing dataS c param w true fun e => .data (mlsdLine e.1 e.2)

def nlst (dataS : Int) (c : Control) (param : Option (List UInt8)) (w : World) :
    Option (List PlainAction) :=
  dataListing dataS c param w false fun e => .data (e.1 ++ crlf)

def mlst (c : Control) (param : Option (List UInt8)) (w : World) : Option (List PlainAction) :=
  listing c param w true (fun e => .reply (32 :: mlsdLine e.1 e.2)) "250-Directory Listing:"
    "250 End"

/-! ## The working directory -/

def directoryChanged (cwd : List UInt8) : PlainAction :=
  .reply (ascii "250 Directory change successful: " ++ cwd ++ crlf)

def cwd (c : Control) (param : Option (List UInt8)) (w : World) :
    Option (Control × List PlainAction) := do
  let tempcwd ← tempCwd c param
  if w.isDir then some ({ c with cwd := tempcwd }, [directoryChanged tempcwd])
  else some (c, [say "550 Cannot access directory"])

/-- The loop from `i` down, which starts at `pos`. -/
def cdupLoop (pos : Nat) : Nat → List UInt8 → List UInt8
  | 0, cwd => cwd
  | i + 1, cwd =>
    if i + 1 < pos ∧ cwd.getD (i + 1) 0 = 47 then cwd else cdupLoop pos i (cwd.set (i + 1) 0)

def cdup (c : Control) : Control × List PlainAction :=
  let pos := c.cwd.length - 2
  let cwd := cString (cdupLoop pos pos c.cwd)
  ({ c with cwd := cwd }, [directoryChanged cwd])

def pwd (c : Control) : List PlainAction :=
  [.reply (ascii "257 \"" ++ c.cwd ++ ascii "\" is the current directory" ++ crlf)]

/-! ## Files -/

/-- The commands about one file differ in what they do with its path. -/
def onFile (c : Control) (param : Option (List UInt8)) (missing : String)
    (answer : List UInt8 → List PlainAction) : Option (List PlainAction) :=
  match param with
  | none => some [say missing]
  | some p => (absPath 512 p c.cwd).map answer

def dele (c : Control) (param : Option (List UInt8)) (w : World) : Option (List PlainAction) :=
  onFile c param "501 No filename specified" fun filename =>
    [.unlink filename,
      say (if w.unlink = 0 then "250 File successfully deleted" else "550 Cannot delete file")]

def mkd (c : Control) (param : Option (List UInt8)) (w : World) : Option (List PlainAction) :=
  onFile c param "501 No filename specified" fun filename =>
    [.mkdir filename,
      if w.mkdir = 0 then
        .reply (ascii "257 \"" ++ param.getD [] ++ ascii "\" was successfully created" ++ crlf)
      else say "550 Cannot create directory"]

def rmd (c : Control) (param : Option (List UInt8)) (w : World) : Option (List PlainAction) :=
  onFile c param "501 No filename specified" fun filename =>
    [.rmdir filename,
      say (if w.rmdir = 0 then "250 Directory was successfully removed"
        else "550 Cannot remove directory")]

def size (c : Control) (param : Option (List UInt8)) (w : World) : Option (List PlainAction) :=
  onFile c param "501 No file specified" fun _ =>
    match w.stat with
    | some st => [.reply (ascii "213 " ++ padded 1 st.size.toNat ++ crlf)]
    | none => [say "550 File does not exist"]

def mdtm (c : Control) (param : Option (List UInt8)) (w : World) : Option (List PlainAction) :=
  onFile c param "501 No file specified" fun _ =>
    match w.stat with
    | some st => [.reply (ascii "213 " ++ st.modifyTime ++ crlf)]
    | none => [say "550 File does not exist"]

/-! ## The other commands -/

/-- `strtol(perms, NULL, 8)` of at most three characters behind a zero. -/
def octal (temp : List UInt8) : Nat :=
  (temp.takeWhile fun b => 48 ≤ b && b ≤ 55).foldl (fun acc b => acc * 8 + (b.toNat - 48)) 0

def chmod (c : Control) (param2 : Option (List UInt8)) (w : World) : Option (List PlainAction) :=
  match param2 with
  | none => some [say "501 No parameters given"]
  | some p =>
    match ssplit p 3 511 with
    | (_, none) => some [say "501 Not enough parameters"]
    | (temp, some filename) =>
      (absPath 1024 filename c.cwd).map fun absFilePath =>
        [.chmod absFilePath (octal temp),
          say (if w.chmod = 0 then "250 File permissions successfully set"
            else "550 Cannot set file permissions")]

/-- The word of a site command is copied over the command's, which has less room. -/
def site (c : Control) (param : Option (List UInt8)) (w : World) :
    Option (Control × List PlainAction) :=
  match param with
  | none => some (c, [say "501 No SITE command specified"])
  | some p =>
    let (cmd, param2) := ssplit p 31 511
    if 16 ≤ cmd.length then none
    else if cmd.map upper = ascii "CHMOD" then (chmod c param2 w).map fun actions => (c, actions)
    else if cmd.map upper = ascii "HELP" then
      some (c, [say "214-Special OpenPS3FTP commands:",
        say " SITE EXITAPP - Remotely shutdown the FTP service",
        say " SITE HELP - Show this message", say "214 End"])
    else if cmd.map upper = ascii "EXITAPP" then
      some ({ c with exitapp := true }, [say "221 Exiting OpenPS3FTP"])
    else some (c, [say "500 Unknown SITE command"])

def featCmds : List String :=
  ["PASV", "PORT", "SIZE", "CDUP", "MLSD", "MDTM", "ABOR",
    "MLST type*;size*;modify*;UNIX.mode*;UNIX.uid*;UNIX.gid*;", "REST STREAM", "SITE CHMOD",
    "SITE PASSWD", "SITE EXITAPP"]

def feat : List PlainAction :=
  say "211-Extensions supported:" :: featCmds.map (fun f => say (" " ++ f)) ++ [say "211 End"]

def quit (c : Control) : Control × List PlainAction :=
  ({ c with connactive := false }, [say "221 Bye!"])

/-- A plain command of a client that is logged in. -/
def plainCommand (dataS : Int) (c : Control) (v : PlainVerb) (param : Option (List UInt8))
    (w : World) : Option (Control × List PlainAction) :=
  let same (actions : Option (List PlainAction)) : Option (Control × List PlainAction) :=
    actions.map fun actions => (c, actions)
  match v with
  | .cwd => cwd c param w
  | .cdup => some (cdup c)
  | .list => same (list dataS c param w)
  | .mlsd => same (mlsd dataS c param w)
  | .pwd => same (some (pwd c))
  | .dele => same (dele c param w)
  | .mkd => same (mkd c param w)
  | .rmd => same (rmd c param w)
  | .site => site c param w
  | .noop => same (some [say "200 NOOP command successful"])
  | .nlst => same (nlst dataS c param w)
  | .mlst => same (mlst c param w)
  | .quit => some (quit c)
  | .feat => same (some feat)
  | .size => same (size c param w)
  | .syst => same (some [say "215 UNIX Type: L8"])
  | .mdtm => same (mdtm c param w)
  | .user | .pass => same (some [say "230 You are already logged in"])
  | .unknown => same (some [say "500 Unrecognized command"])

/-! ## Logging in -/

/-- `DISABLE_PASS` -/
def disablePass : Bool := true

def user (c : Control) (param : Option (List UInt8)) : Option (Control × List PlainAction) :=
  match param with
  | none => some (c, [say "501 No user specified"])
  | some p =>
    if p.length < 32 then
      some ({ c with user := some p },
        [.reply (ascii "331 User " ++ p ++ ascii " OK. Password required" ++ crlf)])
    else none

def pass (c : Control) (param : Option (List UInt8)) : Control × List PlainAction :=
  match param with
  | none => (c, [say "501 No password given"])
  | some p =>
    if disablePass || (c.user = some (ascii "anonymous") && p = ascii "openbox") then
      ({ c with loggedin := true }, [say "230 Welcome to OpenPS3FTP!"])
    else (c, [say "430 Invalid username or password"])

/-- A command of a client that is not logged in. -/
def login (c : Control) (v : Verb) (param : Option (List UInt8)) :
    Option (Control × List PlainAction) :=
  match v with
  | .plain .user => user c param
  | .plain .pass => some (pass c param)
  | .plain .quit => some (quit c)
  | _ => some (c, [say "530 Not logged in"])

end FtpCommands
