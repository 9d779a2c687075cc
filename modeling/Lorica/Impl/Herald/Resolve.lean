import Lorica.Impl.Herald.Install
import Lorica.Impl.Herald.Repo

/-!
# herald: installing from repositories, in `main.c`

`resolve` queues a package behind its dependencies; `apply_set` downloads and checks
the whole set, and then installs it in one transaction.

`apply_set` runs on a machine of its own (`Host`): next to the system calls it has
`herald_fetch` and `install_bytes` as operations, and notes the buffers that are
handed to `install_bytes`. Before each operation anyone may have changed any file.
-/

namespace Lorica.Impl.Herald

def heraldCacheDir : Bytes := ascii "/var/lib/herald/cache"
def heraldMaxInstall : Nat := 64

/-- The names in the field `Depends`. -/
def Stanza.deps (st : Stanza) : List Bytes := tokens space st.depends

/-- Resolve each name of a list, until one fails. -/
def resolveEach (resolve : Bytes → List Stanza → Sys (Option (Option (List Stanza)))) :
    List Bytes → List Stanza → Sys (Option (Option (List Stanza)))
  | [], set => pure (some (some set))
  | n :: ns, set => do
    match ← resolve n set with
    | some (some set) => resolveEach resolve ns set
    | r => pure r

/-- Move the entry at `slot` to the end. -/
def rotate (slot : Nat) (st : Stanza) (set : List Stanza) : List Stanza :=
  if slot + 1 = set.length then set else set.eraseIdx slot ++ [st]

/-- What is queued for a name that is not queued yet: `none` for an error, `some none`
for nothing. -/
def resolvePick (C : Crypto) (name : Bytes) (installed : Option DbEntry) : Sys (Option (Option Stanza)) := do
  match ← repoFind C name with
  | .error => pure none
  | .absent => pure (if installed.isSome then some none else none)
  | .found st =>
    match installed with
    | none => pure (some (some st))
    | some de => pure (if heraldVersionGt st.version de.version = true then some (some st) else some none)

/-- The entry of the database, if there is one. -/
def Found.toOption {α : Type} : Found α → Option α
  | .found a => some a
  | _ => none

/-- `resolve`: the set with `name` queued behind its dependencies; `some none` is an
error. A recursion deeper than `fuel` gives `none`. -/
def resolveName (C : Crypto) (max : Nat) (upgrade : Bool) :
    Nat → Bytes → List Stanza → Sys (Option (Option (List Stanza)))
  | 0, _, _ => pure none
  | fuel + 1, name, set => do
    if manifestIsBareName name = false then pure (some none)
    else do
      let de ← dbFind heraldDbPath name
      if upgrade = false ∧ de.toOption.isSome then pure (some (some set))
      else if name ∈ set.map (·.name) then pure (some (some set))
      else do
        match ← resolvePick C name de.toOption with
        | none => pure (some none)
        | some none => pure (some (some set))
        | some (some st) =>
          if max ≤ set.length then pure (some none)
          else do
            -- queued before its dependencies are looked at, so that a cycle ends
            match ← resolveEach (resolveName C max upgrade fuel) st.deps (set ++ [st]) with
            | some (some set') => pure (some (some (rotate set.length st set')))
            | r => pure r

/-! ## Applying a set -/

namespace Host

inductive Op
  | sys (o : Posix.Op)
  | fetch (url path : Bytes)
  | installBytes (buf : Bytes)

def Op.Ret : Op → Type
  | .sys o => o.Ret
  | .fetch _ _ => Bool
  | .installBytes _ => Bool

/-- The files, and the buffers that `install_bytes` has been called with. -/
structure State where
  fs : FileSys
  handed : List Bytes

/-- What happens at an operation: what others, the download and the installation do
to the files, how a system call goes, and what `herald_fetch` or `install_bytes`
returns. -/
structure Choice where
  others : FileSys → FileSys
  sys : Posix.Choice
  ok : Bool

def step : (o : Op) → Choice → State → o.Ret × State
  | .sys o, c, s => ((Posix.step o c.sys (c.others s.fs)).1, ⟨(Posix.step o c.sys (c.others s.fs)).2, s.handed⟩)
  | .fetch _ _, c, s => (c.ok, ⟨c.others s.fs, s.handed⟩)
  | .installBytes buf, c, s => (c.ok, ⟨c.others s.fs, s.handed ++ [buf]⟩)

abbrev machine : Machine := ⟨State, Op, Op.Ret, Choice, step, fun _ _ s => s⟩

end Host

/-- A program that only uses files, on the machine `Host`. -/
def liftSys {α : Type} : Sys α → Prog Host.machine α
  | .pure a => .pure a
  | .op o k => .op (M := Host.machine) (.sys o) fun r => liftSys (k r)

def heraldFetch (url path : Bytes) : Prog Host.machine Bool := Prog.call (M := Host.machine) (.fetch url path)

def installCall (buf : Bytes) : Prog Host.machine Bool := Prog.call (M := Host.machine) (.installBytes buf)

def cachePath (st : Stanza) : Bytes := heraldCacheDir ++ slash :: (st.name ++ ascii ".hpkg")

/-- The cached package, if it has the hash of its stanza. -/
def readChecked (C : Crypto) (st : Stanza) : Prog Host.machine (Option Bytes) := do
  match ← liftSys (readFile (cachePath st)) with
  | none => pure none
  | some pb => pure (if hex32 (C.sha256 pb) = st.sha256 then some pb else none)

/-- The first pass of `apply_set`: download and check. -/
def fetchSet (C : Crypto) : List Stanza → Prog Host.machine Bool
  | [] => pure true
  | st :: sts => do
    if ← heraldFetch (st.baseUrl ++ slash :: st.filename) (cachePath st) then
      match ← readChecked C st with
      | none => pure false
      | some _ => fetchSet C sts
    else pure false

/-- The second pass: read again, check again, install. -/
def installSet (C : Crypto) : List Stanza → Prog Host.machine Bool
  | [] => pure true
  | st :: sts => do
    match ← readChecked C st with
    | none => pure false
    | some pb => if ← installCall pb then installSet C sts else pure false

def applySet (C : Crypto) (set : List Stanza) : Prog Host.machine Bool := do
  liftSys (mkdirQuiet heraldCacheDir)
  if ← fetchSet C set then
    if ← liftSys transactionBegin then do
      let ok ← installSet C set
      liftSys (transactionFinish ok)
    else pure false
  else pure false

/-- Apply what has been queued. -/
def applyQueued (C : Crypto) : Option (Option (List Stanza)) → Prog Host.machine Bool
  | some (some set) => if set = [] then pure true else applySet C set
  | _ => pure false

/-- `cmd_install_named`; `true` for the exit status 0. -/
def cmdInstallNamed (C : Crypto) (name : Bytes) : Prog Host.machine Bool :=
  if manifestIsBareName name = false then pure false
  else do
    let set ← liftSys (resolveName C heraldMaxInstall false (heraldMaxInstall + 1) name [])
    applyQueued C set

/-- `cmd_upgrade`, of one package or of all that are installed. -/
def cmdUpgrade (C : Crypto) : Option Bytes → Prog Host.machine Bool
  | some name =>
    if manifestIsBareName name = false then pure false
    else do
      match ← liftSys (dbFind heraldDbPath name) with
      | .found _ => do
        let set ← liftSys (resolveName C heraldMaxInstall true (heraldMaxInstall + 1) name [])
        applyQueued C set
      | _ => pure false
  | none => do
    match ← liftSys (dbLoad heraldDbPath heraldDbCap) with
    | none => pure false
    | some es => do
      let set ← liftSys (resolveEach (resolveName C heraldMaxInstall true (heraldMaxInstall + 1)) (es.map (·.id)) [])
      applyQueued C set

end Lorica.Impl.Herald
