import Lorica.Framework.CString

/-!
# vigil: `main.c`

The supervisor with the part of the kernel it deals with: the children it has not reaped.
The world changes by inputs (`step`): a child dies, SIGUSR1 brings a command, `waitpid` gives
a child, the loop over the services is made. They come in any order, which allows more than
the order of `main`'s loop does. The log records launches, commands and deaths.

What is written to logs is left out, and so are signals to children: a child may die at any
time, with or without one.
-/

namespace Lorica.Impl.Vigil

inductive Policy
  | respawn
  | oneshot
deriving DecidableEq

/-- `service_t`. Where the source has the pid -1, there is none. -/
structure Service where
  name : Bytes
  mode : Bytes
  cmdlineTok : Bytes
  policy : Policy
  maxRestarts : Int
  pid : Option Nat
  restarts : Nat
  active : Bool
  expectedStop : Bool
deriving DecidableEq

/-- What the files of a service say. -/
structure Config where
  name : Bytes
  mode : Bytes
  cmdlineTok : Bytes
  policy : Policy
  maxRestarts : Int

/-- `load_service`. -/
def loadService (c : Config) : Service :=
  ⟨c.name, c.mode, c.cmdlineTok, c.policy, c.maxRestarts, none, 0, true, false⟩

/-! ## The world -/

/-- A child that was not reaped. -/
structure Child where
  pid : Nat
  /-- the index of its service -/
  owner : Nat
  dead : Bool
deriving DecidableEq

/-- What happened to the service of an index. -/
inductive Entry
  | launch (i : Nat)
  | start (i : Nat)
  | restart (i : Nat)
  | stop (i : Nat)
  | exit (i : Nat)
deriving DecidableEq

structure World where
  svcs : List Service
  children : List Child
  /-- the last entry first -/
  log : List Entry
deriving DecidableEq

def World.put (w : World) (i : Nat) (s : Service) : World := { w with svcs := w.svcs.set i s }

def World.note (w : World) (e : Entry) : World := { w with log := e :: w.log }

/-- The answer of `fork`: the pid of a child. A pid in use is not given out; it stands for a
failure here. -/
def forkResult (w : World) (fork : Option Nat) : Option Nat :=
  fork.filter fun q => q ≠ 0 ∧ ∀ c ∈ w.children, c.pid ≠ q

/-! ## Services -/

def startService (w : World) (i : Nat) (fork : Option Nat) : World :=
  match w.svcs[i]? with
  | none => w
  | some s =>
    if s.pid.isSome then w
    else
      match forkResult w fork with
      | none => w
      | some q =>
        { svcs := w.svcs.set i { s with pid := some q }
          children := ⟨q, i, false⟩ :: w.children
          log := .launch i :: w.log }

/-- The loop over the services at the start of the system. -/
def bootService (bootMode cmdline : Bytes) (forks : Nat → Option Nat) (w : World) (i : Nat) : World :=
  match w.svcs[i]? with
  | none => w
  | some s =>
    if s.mode ≠ [] ∧ s.mode ≠ bootMode then w.put i { s with active := false }
    else if s.cmdlineTok ≠ [] ∧ ¬ s.cmdlineTok <:+: cmdline then w.put i { s with active := false }
    else startService w i (forks i)

/-- `main` up to its loop, the services being loaded. -/
def boot (cfgs : List Config) (bootMode cmdline : Bytes) (forks : Nat → Option Nat) : World :=
  (List.range cfgs.length).foldl (bootService bootMode cmdline forks) ⟨cfgs.map loadService, [], []⟩

/-! ## Commands -/

/-- `read_file` of an open file. -/
def readFile (bufsz : Nat) (file : Bytes) : Bytes :=
  ((file.take (bufsz - 1)).reverse.dropWhile fun b => b = newline || b = cr || b = space).reverse

/-- The verb of a command and the name it is for; there is none in `status`. -/
def parseCmd (buf : Bytes) : Option (Bytes × Bytes) :=
  let cmd := cstr buf
  if (ascii "status").isPrefixOf cmd then none
  else if space ∈ cmd then some (cmd.takeWhile (· ≠ space), (cmd.dropWhile (· ≠ space)).drop 1)
  else none

/-- The body of the loop of `process_cmd`. -/
def commandService (verb name : Bytes) (forks : Nat → Option Nat) (w : World) (i : Nat) : World :=
  match w.svcs[i]? with
  | none => w
  | some s =>
    if s.name ≠ name then w
    else if verb = ascii "stop" ∨ verb = ascii "restart" then
      let s := { s with expectedStop := s.expectedStop || s.pid.isSome }
      if verb = ascii "restart" then
        let w := (w.put i { s with active := true, restarts := 0 }).note (.restart i)
        if s.pid.isNone then startService w i (forks i) else w
      else (w.put i { s with active := false }).note (.stop i)
    else if verb = ascii "start" then
      startService ((w.put i { s with active := true, restarts := 0 }).note (.start i)) i (forks i)
    else w

/-- `process_cmd`, with the contents of the command file; in an empty command there is no
verb. -/
def processCmd (w : World) (file : Bytes) (forks : Nat → Option Nat) : World :=
  match parseCmd (readFile 192 file) with
  | none => w
  | some (verb, name) => (List.range w.svcs.length).foldl (commandService verb name forks) w

/-! ## The loop of `main` -/

/-- What becomes of a service whose child was reaped. -/
def afterDeath (s : Service) : Service :=
  let s := { s with pid := none, expectedStop := false }
  if s.active = false then s
  else if s.policy = .oneshot then { s with active := false }
  else if s.maxRestarts ≤ s.restarts then { s with active := false }
  else { s with restarts := s.restarts + 1 }

/-- The body of the loop over `waitpid`, which gave the pid `dead`. -/
def reap (w : World) (dead : Nat) (fork : Option Nat) : World :=
  let w := { w with children := w.children.filter (·.pid ≠ dead) }
  match w.svcs.findIdx? (·.pid = some dead) with
  | none => w
  | some i =>
    match w.svcs[i]? with
    | none => w
    | some s =>
      let w := w.put i (afterDeath s)
      if (afterDeath s).active = true then startService w i fork else w

/-- The body of the last loop of a pass. -/
def retryService (forks : Nat → Option Nat) (w : World) (i : Nat) : World :=
  match w.svcs[i]? with
  | none => w
  | some s => if s.active = true ∧ s.pid = none then startService w i (forks i) else w

inductive Input
  /-- a child dies -/
  | died (pid : Nat)
  /-- SIGUSR1, with the contents of the command file and the answers of `fork` for each service -/
  | usr1 (file : Bytes) (forks : Nat → Option Nat)
  /-- `waitpid` gives a child, and `fork` its answer if it is asked -/
  | reaped (pid : Nat) (fork : Option Nat)
  /-- the last loop of a pass -/
  | retry (forks : Nat → Option Nat)

/-- The owner of a child that lives. -/
def ownerOf (w : World) (pid : Nat) : Option Nat :=
  (w.children.find? fun c => c.pid = pid ∧ c.dead = false).map Child.owner

def step (w : World) : Input → World
  | .died pid =>
    match ownerOf w pid with
    | none => w
    | some i =>
      { w with
        children := w.children.map fun c => if c.pid = pid then { c with dead := true } else c
        log := .exit i :: w.log }
  | .usr1 file forks => processCmd w file forks
  | .reaped pid fork =>
    -- `waitpid` gives no child that lives
    if (ownerOf w pid).isSome then w else reap w pid fork
  | .retry forks => (List.range w.svcs.length).foldl (retryService forks) w

def run (w : World) (ins : List Input) : World := ins.foldl step w

end Lorica.Impl.Vigil
