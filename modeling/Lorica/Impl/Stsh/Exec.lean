import Lorica.Framework.CString
import Lorica.Framework.Descriptors

/-!
# Pipelines and redirections of stsh: `exec.c`, and `redir_apply` of `run.c`

What a shell and the commands it starts do with their descriptors. A process starts with files that
it was given; an `open` that succeeds gives a new one. Which calls fail is for the environment to
decide (`Fails`, `Opens`); `dup` fails only for a descriptor that is not open.

`run_pipeline` and `run_pipeline_bg` are here twice: as what the parent does, with the children it
forks only counted, and as what the child of a pipeline of one command does before it executes it.
The process groups, signals and exit statuses are left out.
-/

namespace Lorica.Impl.Stsh

/-- What a descriptor refers to. -/
inductive File
  | given (n : Nat)
  | input (path : Bytes)
  | output (path : Bytes) (append : Bool)
  | error (path : Bytes)
  | heredoc (body : Bytes)
  | pipe (i : Nat) (write : Bool)
deriving DecidableEq

/-- The descriptors of a shell that has just been started. -/
def standard : Descriptors File where
  get n := if n < 3 then some (.given n) else none
  bound := 3
  above n hn := if_neg (by omega)

/-! ## The parent of a pipeline -/

def maxPipeline : Nat := 8

/-- The calls that fail: those of `pipe`, and those of `fork`, each in the order in which they are made. -/
structure Fails where
  pipe : Nat → Bool
  fork : Nat → Bool

structure Parent where
  fds : Descriptors File
  pipes : List (Nat × Nat)
  /-- The number of children that are forked. -/
  children : Nat
  /-- The ends of pipes that are open when the parent first waits for a child. -/
  held : Option (List Nat)

def ends (pipes : List (Nat × Nat)) : List Nat := pipes.flatMap fun e => [e.1, e.2]

namespace Parent

/-- A shell that is about to run a pipeline. -/
def start (fds : Descriptors File) : Parent := ⟨fds, [], 0, none⟩

def pipe (p : Parent) : Parent :=
  let r := p.fds.pipe (.pipe p.pipes.length false) (.pipe p.pipes.length true)
  { p with fds := r.2, pipes := p.pipes ++ [r.1] }

def closePipes (pipes : List (Nat × Nat)) (p : Parent) : Parent := { p with fds := p.fds.closeAll (ends pipes) }

def fork (p : Parent) : Parent := { p with children := p.children + 1 }

def wait (p : Parent) : Parent :=
  { p with held := some (p.held.getD ((ends p.pipes).filter fun e => (p.fds.get e).isSome)) }

/-- Waits for each child. -/
def waitAll (p : Parent) : Parent := wait^[p.children] p

/-- Creates `k` more pipes. If one cannot be created, those there are are closed. -/
def createPipes (fails : Fails) : Nat → Parent → Bool × Parent
  | 0, p => (true, p)
  | k + 1, p =>
    if fails.pipe p.pipes.length then (false, p.closePipes p.pipes) else createPipes fails k p.pipe

/-- Forks `k` more children. If one cannot be forked, it is for `giveUp` to go on. -/
def forkAll (fails : Fails) (giveUp : Parent → Parent) : Nat → Parent → Bool × Parent
  | 0, p => (true, p)
  | k + 1, p => if fails.fork p.children then (false, giveUp p) else forkAll fails giveUp k p.fork

/-- A pipeline of `n` commands, up to the end of the loop that forks them. -/
def startAll (fails : Fails) (giveUp : Parent → Parent) (n : Nat) (p : Parent) : Bool × Parent :=
  let r := createPipes fails (n - 1) p
  if r.1 then forkAll fails giveUp n r.2 else r

end Parent

/-- The parent's side of `run_pipeline`. -/
def runPipeline (fails : Fails) (n : Nat) (p : Parent) : Parent :=
  if n < 1 ∨ n > maxPipeline then p
  else
    let r := p.startAll fails (fun p => (p.closePipes p.pipes).waitAll) n
    if r.1 then (r.2.closePipes r.2.pipes).waitAll else r.2

/-- The parent's side of `run_pipeline_bg`. -/
def runPipelineBg (fails : Fails) (n : Nat) (p : Parent) : Parent :=
  let r := p.startAll fails (fun p => p.closePipes p.pipes) n
  if r.1 then r.2.closePipes r.2.pipes else r.2

/-! ## Redirections -/

/-- The fields of `cmd_t` that redirect: a file or a text for each of `<`, `<<`, `>` (or `>>`) and `2>`, whether there is
a `2>&1`, and the descriptor of `>&`, where zero stands for none. -/
structure Cmd where
  stdinFile : Option Bytes
  heredocBody : Option Bytes
  stdoutFile : Option Bytes
  stdoutAppend : Bool
  stderrFile : Option Bytes
  stderrToStdout : Bool
  stdoutDupTo : Int
deriving DecidableEq

/-- The calls that succeed: those of `open`, and those by which a here-document is written into a pipe. -/
structure Opens where
  input : Bool
  heredoc : Bool
  output : Bool
  error : Bool

/-- `heredoc_stdin`. -/
def heredocStdin (ok : Bool) (body : Bytes) (t : Descriptors File) : Option Nat × Descriptors File :=
  if ok then
    let r := t.pipe (.heredoc (body.take 4000)) (.pipe 0 true)
    (some r.1.1, r.2.close r.1.2)
  else (none, t)

/-- `dup2(fd, n); close(fd)`. -/
def moveTo (fd n : Nat) (t : Descriptors File) : Descriptors File := (t.dup2 fd n).close fd

/-- `dup2(n, 1)` for a number that need not be a descriptor. -/
def dupStdout (n : Int) (t : Descriptors File) : Descriptors File := if n < 0 then t else t.dup2 n.toNat 1

/-- `open` for one of the standard descriptors, in a child. -/
def openOn (n : Nat) (f : File) (t : Descriptors File) : Descriptors File := moveTo (t.alloc f).1 n (t.alloc f).2

/-- A here-document as input, in a child. -/
def heredocOn (ok : Bool) (body : Bytes) (t : Descriptors File) : Descriptors File :=
  let r := heredocStdin ok body t
  (r.1.map fun hf => moveTo hf 0 r.2).getD r.2

/-- The last two redirections of a child. -/
def childDups (c : Cmd) (t : Descriptors File) : Descriptors File :=
  let t := if c.stderrToStdout then t.dup2 1 2 else t
  if c.stdoutDupTo ≠ 0 then dupStdout c.stdoutDupTo t else t

/-- The child of `run_pipeline` for one command: the descriptors the command runs with, if it is run. -/
def childRedirs (c : Cmd) (o : Opens) (t : Descriptors File) : Option (Descriptors File) :=
  if c.stdinFile.isSome && !o.input then none
  else
    let t := (c.stdinFile.map fun path => openOn 0 (.input path) t).getD t
    let t := (c.heredocBody.map fun body => heredocOn o.heredoc body t).getD t
    if c.stdoutFile.isSome && !o.output then none
    else
      let t := (c.stdoutFile.map fun path => openOn 1 (.output path c.stdoutAppend) t).getD t
      if c.stderrFile.isSome && !o.error then none
      else
        let t := (c.stderrFile.map fun path => openOn 2 (.error path) t).getD t
        some (childDups c t)

/-- The child of `run_pipeline_bg` for one command. -/
def childRedirsBg (c : Cmd) (o : Opens) (t : Descriptors File) : Descriptors File :=
  let t := (c.stdinFile.map fun path => if o.input then openOn 0 (.input path) t else t).getD t
  let t := (c.heredocBody.map fun body => heredocOn o.heredoc body t).getD t
  let t := (c.stdoutFile.map fun path => if o.output then openOn 1 (.output path c.stdoutAppend) t else t).getD t
  let t := (c.stderrFile.map fun path => if o.error then openOn 2 (.error path) t else t).getD t
  childDups c t

/-- The descriptors of the shell, and where it has saved the standard ones. -/
structure Applied where
  fds : Descriptors File
  saved : Nat → Option Nat

namespace Applied

/-- `saved[n] = dup(n)`. -/
def save (n : Nat) (a : Applied) : Applied :=
  ⟨(a.fds.dup n).2, Function.update a.saved n (a.fds.dup n).1⟩

/-- `open` for a standard descriptor, which is saved. -/
def openOn (n : Nat) (f : File) (a : Applied) : Applied :=
  let r := a.fds.alloc f
  let a := save n { a with fds := r.2 }
  { a with fds := moveTo r.1 n a.fds }

/-- `if (saved[n] < 0) saved[n] = dup(n)`. -/
def saveOnce (n : Nat) (a : Applied) : Applied := if a.saved n = none then a.save n else a

def heredocOn (ok : Bool) (body : Bytes) (a : Applied) : Applied :=
  let r := heredocStdin ok body a.fds
  let a := { a with fds := r.2 }
  (r.1.map fun hf => let a := a.saveOnce 0; { a with fds := moveTo hf 0 a.fds }).getD a

def dups (c : Cmd) (a : Applied) : Applied :=
  let a := if c.stderrToStdout then let a := a.save 2; { a with fds := a.fds.dup2 1 2 } else a
  if c.stdoutDupTo ≠ 0 then let a := a.saveOnce 1; { a with fds := dupStdout c.stdoutDupTo a.fds } else a

end Applied

/-- `redir_apply`: what it comes to, and whether it succeeds. -/
def redirApply (c : Cmd) (o : Opens) (t : Descriptors File) : Bool × Applied :=
  let a : Applied := ⟨t, fun _ => none⟩
  if c.stdinFile.isSome && !o.input then (false, a)
  else
    let a := (c.stdinFile.map fun path => a.openOn 0 (.input path)).getD a
    let a := (c.heredocBody.map fun body => a.heredocOn o.heredoc body).getD a
    if c.stdoutFile.isSome && !o.output then (false, a)
    else
      let a := (c.stdoutFile.map fun path => a.openOn 1 (.output path c.stdoutAppend)).getD a
      if c.stderrFile.isSome && !o.error then (false, a)
      else
        let a := (c.stderrFile.map fun path => a.openOn 2 (.error path)).getD a
        (true, a.dups c)

/-- `redir_restore`. -/
def redirRestore (a : Applied) : Descriptors File :=
  [0, 1, 2].foldl (fun t n => ((a.saved n).map fun s => moveTo s n t).getD t) a.fds

/-- `need_redir` of `run_simple`. -/
def needRedir (c : Cmd) : Bool :=
  c.stdinFile.isSome || c.heredocBody.isSome || c.stdoutFile.isSome || c.stderrFile.isSome || c.stderrToStdout

/-- The descriptors that a builtin or a function runs with, if it is run. -/
def inProcess (c : Cmd) (o : Opens) (t : Descriptors File) : Option (Descriptors File) :=
  if needRedir c then if (redirApply c o t).1 then some (redirApply c o t).2.fds else none else some t

/-- The descriptors of the shell after `run_simple` for a builtin or a function, whose `body` may change them too. -/
def afterInProcess (body : Descriptors File → Descriptors File) (c : Cmd) (o : Opens) (t : Descriptors File) :
    Descriptors File :=
  if needRedir c then
    let r := redirApply c o t
    if r.1 then redirRestore { r.2 with fds := body r.2.fds } else r.2.fds
  else body t

end Lorica.Impl.Stsh
