import Lorica.Impl.Accounts.Auth

/-!
# useradd: `main.c`, and the user names of `credentials.c`

The program reads the accounts there are, asks for a password and appends a line to each of
three files. What it is given from outside is in `Given`: whether the session is elevated, what
is typed, the hash of a password and how much of a line is written. The terminal, the home
directory and the warning about it are left out.
-/

namespace Lorica.Impl.Accounts

/-- An argument, a C string. -/
structure Arg where
  text : Bytes
  no_nul : (0 : UInt8) ∉ text

/-- What `crypt` gives: it has neither colons nor ends of lines, and fits into its buffer. -/
structure Hash where
  text : Bytes
  clean : ∀ b ∈ text, b ≠ 0 ∧ b ≠ newline ∧ b ≠ colon
  fits : text.length < 256
deriving DecidableEq

/-- Why no account was made. -/
inductive Stop
  | unknownOption (arg : Bytes)
  | unexpectedArgument (arg : Bytes)
  | usage
  | invalidUsername
  | notAuthorized
  | unreadable
  | taken (username : Bytes)
  | emptyPassword
  | mismatch
  | cryptFailed
  | passwdFailed
  | shadowFailed
  | groupFailed
deriving DecidableEq

/-! ## Arguments -/

def defaultShell : Arg := ⟨ascii "/bin/stsh", by decide⟩

/-- What the arguments have set so far. -/
structure Options where
  makeHome : Bool
  shell : Arg
  username : Option Arg

/-- The loop over the arguments. -/
def parseArgs (o : Options) : List Arg → Except Stop Options
  | [] => .ok o
  | [a] =>
    if a.text = ascii "-m" then .ok { o with makeHome := true }
    else if a.text = ascii "-M" then .ok { o with makeHome := false }
    else if a.text.head? = some 45 then .error (.unknownOption a.text)
    else if o.username.isNone then .ok { o with username := some a }
    else .error (.unexpectedArgument a.text)
  | a :: b :: args =>
    if a.text = ascii "-m" then parseArgs { o with makeHome := true } (b :: args)
    else if a.text = ascii "-M" then parseArgs { o with makeHome := false } (b :: args)
    else if a.text = ascii "-s" then parseArgs { o with shell := b } args
    else if a.text.head? = some 45 then .error (.unknownOption a.text)
    else if o.username.isNone then parseArgs { o with username := some a } (b :: args)
    else .error (.unexpectedArgument a.text)

def isLower (b : UInt8) : Bool := 97 ≤ b && b ≤ 122

/-- `install_username_valid`. -/
def installUsernameValid (username : Bytes) : Bool :=
  username.head?.any (fun b => isLower b || b = 95) &&
    username.all (fun b => isLower b || isDigit b || b = 95 || b = 45) && username.length ≤ 31

/-! ## The accounts there are -/

def uidMin : Int := 1000

/-- What the scan has seen: whether the name is taken, and the highest user id. -/
structure Scan where
  taken : Bool
  maxUid : Int
deriving DecidableEq

/-- One round of the loop of `scan_passwd`. -/
def scanLine (username : Bytes) (s : Scan) (line : Bytes) : Scan :=
  let line := cstr line
  match strchr colon line with
  | none => s
  | some (name, p) =>
    let s := if name.length = username.length ∧ line.take username.length = username then
      { s with taken := true } else s
    match strchr colon p with
    | none => s
    | some (_, p) =>
      let uid := atoi p
      if uid ≥ uidMin ∧ uid > s.maxUid then { s with maxUid := uid } else s

/-- `scan_passwd`. -/
def scanPasswd (username : Bytes) (file : Bytes) : Scan :=
  (fgetsLines 512 [] file).foldl (scanLine username) ⟨false, uidMin - 1⟩

/-! ## The lines -/

/-- `snprintf` into a buffer of 600 bytes. -/
def lineBuf (text : Bytes) : Bytes := text.take 599

/-- What stands before the shell. -/
def passwdHead (username : Bytes) (uid : Int) : Bytes :=
  username ++ ascii ":x:" ++ decimalInt uid ++ ascii ":" ++ decimalInt uid ++ ascii ":" ++ username ++
    ascii ":/home/" ++ username ++ ascii ":"

/-- The line of `/etc/passwd`. -/
def passwdLine (username : Bytes) (uid : Int) (shell : Bytes) : Bytes :=
  lineBuf (passwdHead username uid ++ shell ++ [newline])

/-- The line of `/etc/shadow`, with the days of its password fixed. -/
def shadowLine (username hash : Bytes) : Bytes :=
  lineBuf (username ++ ascii ":" ++ hash ++ ascii ":19814:0:99999:7:::" ++ [newline])

/-- The line of `/etc/group`. -/
def groupLine (username : Bytes) (uid : Int) : Bytes :=
  lineBuf (username ++ ascii ":x:" ++ decimalInt uid ++ ascii ":" ++ [newline])

/-! ## The program -/

/-- The three files, `none` for one that is not there. -/
structure Files where
  passwd : Option Bytes
  shadow : Option Bytes
  group : Option Bytes
deriving DecidableEq

/-- What the program is given. For each file, how many bytes of a line are written at most, or
`none` if it cannot be opened or written. -/
structure Given where
  elevated : Bool
  keys : Bytes
  hashPassword : Bytes → Option Hash
  passwdWrite : Option Nat
  shadowWrite : Option Nat
  groupWrite : Option Nat

/-- `read_password`: what was typed, and the keys that are left. -/
def readPassword (bufsz : Nat) (buf : Bytes) : Bytes → Bytes × Bytes
  | [] => (buf, [])
  | c :: keys =>
    if buf.length < bufsz - 1 then
      if c = newline ∨ c = cr then (buf, keys)
      else if c = 8 ∨ c = 127 then readPassword bufsz buf.dropLast keys
      else readPassword bufsz (buf ++ [c]) keys
    else (buf, c :: keys)

/-- `append_line`: the file afterwards, and whether all was written. -/
def appendLine (write : Option Nat) (file : Option Bytes) (line : Bytes) : Option Bytes × Bool :=
  match write with
  | none => (file, false)
  | some k => (some (file.getD [] ++ line.take k), line.length ≤ k)

/-- The account that was made. -/
structure Created where
  username : Bytes
  uid : Int
  shell : Bytes
  hash : Hash
  makeHome : Bool
deriving DecidableEq

/-- `main`, up to the first line that is written: the account to make. -/
def prepare (args : List Arg) (g : Given) (files : Files) : Except Stop Created := do
  let o ← parseArgs ⟨true, defaultShell, none⟩ args
  let some user := o.username | throw .usage
  let username := user.text
  if installUsernameValid username = false then throw .invalidUsername
  if g.elevated = false then throw .notAuthorized
  let some file := files.passwd | throw .unreadable
  let scan := scanPasswd username file
  if scan.taken then throw (.taken username)
  let uid := wrap32 (scan.maxUid + 1)
  let (pw, keys) := readPassword 128 [] g.keys
  if pw = [] then throw .emptyPassword
  let (confirm, _) := readPassword 128 [] keys
  if confirm = [] ∨ cstr pw ≠ cstr confirm then throw .mismatch
  let some hash := g.hashPassword (cstr pw) | throw .cryptFailed
  return ⟨username, uid, o.shell.text, hash, o.makeHome⟩

/-- The three lines of an account. -/
def record (c : Created) (g : Given) (files : Files) : Except Stop Created × Files :=
  let p := appendLine g.passwdWrite files.passwd (passwdLine c.username c.uid c.shell)
  let files := { files with passwd := p.1 }
  if p.2 = false then (.error .passwdFailed, files)
  else
    let s := appendLine g.shadowWrite files.shadow (shadowLine c.username c.hash.text)
    let files := { files with shadow := s.1 }
    if s.2 = false then (.error .shadowFailed, files)
    else
      let r := appendLine g.groupWrite files.group (groupLine c.username c.uid)
      let files := { files with group := r.1 }
      if r.2 = false then (.error .groupFailed, files) else (.ok c, files)

/-- `main`. -/
def useradd (args : List Arg) (g : Given) (files : Files) : Except Stop Created × Files :=
  match prepare args g files with
  | .error e => (.error e, files)
  | .ok c => record c g files

end Lorica.Impl.Accounts
